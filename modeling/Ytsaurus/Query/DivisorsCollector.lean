/-
# The divisors of a computed column

`TDivisorsCollector` of `query/engine/new_range_inferrer.cpp` walks the
expression of a computed column and records divisors for the integer key columns
in it. Values of a key column with the same truncated quotients by the divisors
are then taken to give the computed column the same value.

An expression uses a column at its occurrences: a reference alone, or the left
operand of an integral operator with a literal. The collector takes the shortcut
for every operator of the second kind, and records a divisor for division and
right shift only. The divisors are right for all expressions with the same
occurrences exactly when they determine every occurrence (`divisorsDetermine_iff`):

* a reference alone and a division are;
* a right shift of an unsigned column is when some divisor divides the power of
  two, and the recorded one does for shifts up to 30 (`1 << 31` is an `int`);
* a right shift of a signed column rounds down and not to zero, and the other
  operators are not recorded, so these need the divisor one.
-/
import Ytsaurus.Query.ExtractConstraints
import Ytsaurus.Query.QuotientCover

namespace Ytsaurus.Query

open List TableClient Lib

/-! ### TDivisorsCollector -/

/-- `IsIntegralType`. -/
def ValueType.isIntegral : ValueType → Bool
  | .int64 => true
  | .uint64 => true
  | _ => false

/-- `Abs`. -/
def absInt64 (value : ℤ) : Result ℕ :=
  if value = minInt64 then .error .undefined else .ok value.natAbs

/-- `1 << shift` of the type `int`, as a `ui64`. -/
def shiftedOne (shift : ℕ) : Result ℕ :=
  if 32 ≤ shift then .error .undefined
  else .ok (toUint64 (if shift = 31 then -2 ^ 31 else 2 ^ shift))

abbrev ReferenceIdToDivisors := List (List ℕ)

/-- `push_back` on the divisors of a key column. -/
def ReferenceIdToDivisors.push (divisors : ReferenceIdToDivisors) (keyPartIndex : ℕ)
    (added : List ℕ) :
    ReferenceIdToDivisors := divisors.modify keyPartIndex (· ++ added)

/-- The key column and the literal of an integral operator on a reference and a literal. -/
def referenceMeetsLiteral (keyColumns : List String) (type : ValueType) : Expression → Expression →
    Option (ℕ × Scalar)
  | .reference _ columnName, .literal value =>
    if type.isIntegral then (columnNameToKeyPartIndex keyColumns columnName).map fun keyPartIndex =>
      (keyPartIndex, value)
    else none
  | _, _ => none

/-- What an operator on a reference and a literal records. -/
def literalDivisors (type : ValueType) (opcode : BinaryOpcode) (value : Scalar) : Result (List ℕ) :=
  match opcode with
  | .divide => do
    let divisor ← if type = .int64 then absInt64 (toInt64 value.dataUint64) else .ok value.dataUint64
    return [divisor]
  | .rightShift => do
    let divisor ← shiftedOne value.dataUint64
    return [divisor]
  | _ => .ok []

mutual

def collect (keyColumns : List String) : Expression → ReferenceIdToDivisors →
    Result ReferenceIdToDivisors
  | .reference type columnName, divisors =>
    match columnNameToKeyPartIndex keyColumns columnName with
    | some keyPartIndex => .ok (if type.isIntegral then divisors.push keyPartIndex [1] else divisors)
    | none => .ok divisors
  | .function _ arguments, divisors => collectAll keyColumns arguments divisors
  | .unaryOp _ operand, divisors => collect keyColumns operand divisors
  | .binaryOp type opcode lhs rhs, divisors =>
    match referenceMeetsLiteral keyColumns type lhs rhs with
    | some (keyPartIndex, value) => do
      let added ← literalDivisors type opcode value
      return divisors.push keyPartIndex added
    | none => do
      let divisors ← collect keyColumns lhs divisors
      collect keyColumns rhs divisors
  | .inTuples arguments _, divisors => collectAll keyColumns arguments divisors
  | .between arguments _, divisors => collectAll keyColumns arguments divisors
  | .transform arguments _ _, divisors => collectAll keyColumns arguments divisors
  | .literal _, divisors => .ok divisors
  | .other _ _, _ => .error .verify

def collectAll (keyColumns : List String) : List Expression → ReferenceIdToDivisors →
    Result ReferenceIdToDivisors
  | [], divisors => .ok divisors
  | argument :: arguments, divisors => do
    let divisors ← collect keyColumns argument divisors
    collectAll keyColumns arguments divisors

end

/-! ### Occurrences of a column -/

/-- How an expression uses the column: alone, or as the left operand of an
integral operator with a literal. -/
inductive Occurrence where
  | bare
  | operation (opcode : BinaryOpcode) (value : Scalar)
  deriving DecidableEq, Repr

/-- The literal of an integral operator on a reference and a literal. -/
def literalOperand? (type : ValueType) : Expression → Expression → Option Scalar
  | .reference _ _, .literal value => if type.isIntegral then some value else none
  | _, _ => none

mutual

/-- The occurrences of the column in an expression that refers to no other one. -/
def occurrences : Expression → List Occurrence
  | .reference _ _ => [.bare]
  | .function _ arguments => occurrencesAll arguments
  | .unaryOp _ operand => occurrences operand
  | .binaryOp type opcode lhs rhs =>
    match literalOperand? type lhs rhs with
    | some value => [.operation opcode value]
    | none => occurrences lhs ++ occurrences rhs
  | .inTuples arguments _ => occurrencesAll arguments
  | .between arguments _ => occurrencesAll arguments
  | .transform arguments _ _ => occurrencesAll arguments
  | .literal _ => []
  | .other _ _ => []

def occurrencesAll : List Expression → List Occurrence
  | [] => []
  | argument :: arguments => occurrences argument ++ occurrencesAll arguments

end

def integerType (signedType : Bool) : ValueType := if signedType then .int64 else .uint64

/-- The operators whose result has the type of their integer operands. -/
def BinaryOpcode.IsArithmetic (opcode : BinaryOpcode) : Prop :=
  opcode ∈ [.plus, .minus, .multiply, .divide, .modulo, .leftShift, .rightShift, .bitOr, .bitAnd]

instance : DecidablePred BinaryOpcode.IsArithmetic := fun opcode =>
  inferInstanceAs (Decidable (opcode ∈ [.plus, .minus, .multiply, .divide, .modulo, .leftShift,
    .rightShift, .bitOr, .bitAnd]))

/-- The literals that an operator on the column can have: values of the column's
type, not zero for a division, a bit number for a shift. -/
structure Admissible (signedType : Bool) (opcode : BinaryOpcode) (value : Scalar) : Prop where
  arithmetic : opcode.IsArithmetic
  integer : value.IsColumnValue signedType
  not_null : value ≠ .null
  divide : opcode = .divide → integerOf signedType value ≠ 0
  shift : opcode = .rightShift → 0 ≤ integerOf signedType value ∧ integerOf signedType value < 64

mutual

/-- An expression over literals and one integer column. -/
def OverColumn (signedType : Bool) (column : String) : Expression → Prop
  | .literal _ => True
  | .reference type columnName => type = integerType signedType ∧ columnName = column
  | .function _ arguments => AllOverColumn signedType column arguments
  | .unaryOp _ operand => OverColumn signedType column operand
  | .binaryOp type opcode lhs rhs => OverColumn signedType column lhs ∧
    OverColumn signedType column rhs ∧ ∀ value ∈ literalOperand? type lhs rhs,
        type = integerType signedType ∧ Admissible signedType opcode value
  | .inTuples arguments _ => AllOverColumn signedType column arguments
  | .between arguments _ => AllOverColumn signedType column arguments
  | .transform arguments _ default => AllOverColumn signedType column arguments ∧ default = none
  | .other _ _ => False

def AllOverColumn (signedType : Bool) (column : String) : List Expression → Prop
  | [] => True
  | argument :: arguments => OverColumn signedType column argument ∧
    AllOverColumn signedType column arguments

end

variable {op : BinaryOpcode}

theorem OverColumn.operands {signedType : Bool} {column : String} {type : ValueType}
    {lhs rhs : Expression} (h : OverColumn signedType column (.binaryOp type op lhs rhs)) :
    OverColumn signedType column lhs ∧ OverColumn signedType column rhs ∧
      ∀ value ∈ literalOperand? type lhs rhs, type = integerType signedType ∧
        Admissible signedType op value := by
  simpa [OverColumn] using h

def Occurrence.eval (I : Interpretation) (value : Scalar) : Occurrence → Scalar
  | .bare => value
  | .operation opcode literal => I.binaryOp opcode value literal

/-- Division and right shift of integers as the query engine evaluates them: the
division truncates, the shift of a signed integer keeps its sign. -/
structure StandardOperators (I : Interpretation) : Prop where
  divideInt64 : ∀ a b : ℤ, b ≠ 0 → ¬(a = minInt64 ∧ b = -1) →
    I.binaryOp .divide (.int64 a) (.int64 b) = .int64 (a.tdiv b)
  divideUint64 : ∀ a b : ℕ, b ≠ 0 → I.binaryOp .divide (.uint64 a) (.uint64 b) = .uint64 (a / b)
  rightShiftInt64 : ∀ a b : ℤ, 0 ≤ b → b < 64 → I.binaryOp .rightShift (.int64 a) (.int64 b) =
    .int64 (a / 2 ^ b.toNat)
  rightShiftUint64 : ∀ a b : ℕ, b < 64 → I.binaryOp .rightShift (.uint64 a) (.uint64 b) =
    .uint64 (a / 2 ^ b)

/-- Values of the column with the same quotients give the expression the same value. -/
def Determined (signedType : Bool) (column : String) (divisors : List ℕ) (e : Expression) : Prop :=
  ∀ I, StandardOperators I → ∀ row row' : DataRow, (row column).IsColumnValue signedType →
    (row' column).IsColumnValue signedType → (row column).SameQuotients divisors (row' column) →
      e.eval I row = e.eval I row'

def Occurrence.divisors (signedType : Bool) : Occurrence → List ℕ
  | .bare => [1]
  | .operation .divide value => [(integerOf signedType value).natAbs]
  | .operation .rightShift value =>
    [if integerOf signedType value = 31 then 2 ^ 64 - 2 ^ 31 else 2 ^ (integerOf signedType value).toNat]
  | .operation _ _ => []

def Occurrence.Defined (signedType : Bool) : Occurrence → Prop
  | .operation .divide value => integerOf signedType value ≠ minInt64
  | .operation .rightShift value => integerOf signedType value < 32
  | _ => True

/-- The divisors determine the value of an occurrence. -/
def Occurrence.Covered (signedType : Bool) (divisors : List ℕ) : Occurrence → Prop
  | .bare => True
  | .operation .divide _ => True
  | .operation .rightShift value =>
    if signedType then 1 ∈ divisors else ∃ d ∈ divisors, d ∣ 2 ^ (integerOf signedType value).toNat
  | .operation _ _ => 1 ∈ divisors

/-! ### What is recorded -/

variable {value : Scalar}

section Recorded

variable {signedType : Bool} {column : String} {keyColumns : List String} {keyPartIndex : ℕ}

theorem push_push (divisors : ReferenceIdToDivisors) (keyPartIndex : ℕ) (a b : List ℕ) :
    (divisors.push keyPartIndex a).push keyPartIndex b = divisors.push keyPartIndex (a ++ b) := by
  unfold ReferenceIdToDivisors.push
  rw [modify_modify_eq]
  congr 1
  funext d
  exact append_assoc d a b

theorem push_nil (divisors : ReferenceIdToDivisors) (keyPartIndex : ℕ) :
    divisors.push keyPartIndex [] = divisors := by
  simp only [ReferenceIdToDivisors.push, append_nil]
  exact modify_id keyPartIndex divisors

theorem isIntegral_integerType : (integerType signedType).isIntegral = true := by
    cases signedType <;> rfl

theorem referenceMeetsLiteral_eq
    (hc : columnNameToKeyPartIndex keyColumns column = some keyPartIndex) (type : ValueType)
    {lhs : Expression} (hl : OverColumn signedType column lhs) (rhs : Expression) :
    referenceMeetsLiteral keyColumns type lhs rhs = (literalOperand? type lhs rhs).map fun value =>
      (keyPartIndex, value) := by
  cases lhs with
  | reference type' columnName =>
    obtain ⟨-, rfl⟩ := hl
    cases rhs with
    | literal value =>
      simp only [referenceMeetsLiteral, literalOperand?, hc]
      split_ifs <;> rfl
    | _ => rfl
  | _ => rfl

theorem shiftedOne_eq {shift : ℕ} (h : shift < 32) :
    shiftedOne shift = .ok (if shift = 31 then 2 ^ 64 - 2 ^ 31 else 2 ^ shift) := by
  interval_cases shift <;> rfl

theorem Admissible.cases (h : Admissible signedType op value) :
    (∃ v, signedType = true ∧ value = .int64 v ∧ minInt64 ≤ v ∧ v ≤ maxInt64) ∨
      ∃ v, signedType = false ∧ value = .uint64 v := by
  have hi := h.integer
  cases value with
  | null => exact absurd rfl h.not_null
  | int64 v => exact .inl ⟨v, hi.1, rfl, hi.2⟩
  | uint64 v => exact .inr ⟨v, hi.1, rfl⟩
  | double | boolean | string => exact hi.elim

theorem Admissible.dataUint64_eq (h : Admissible signedType .rightShift value) :
    (value.dataUint64 : ℤ) = integerOf signedType value := by
  have hb := h.shift rfl
  obtain ⟨v, rfl, rfl, -⟩ | ⟨v, rfl, rfl⟩ := h.cases
  · simp only [Scalar.dataUint64, integerOf, toUint64] at hb ⊢
    omega
  · rfl

theorem literalDivisors_eq (h : Admissible signedType op value) :
    ((Occurrence.operation op value).Defined signedType →
      literalDivisors (integerType signedType) op value =
        .ok ((Occurrence.operation op value).divisors signedType)) ∧
    (¬(Occurrence.operation op value).Defined signedType →
      literalDivisors (integerType signedType) op value = .error .undefined) := by
  cases op with
  | divide =>
    obtain ⟨v, rfl, rfl, h1, h2⟩ | ⟨v, rfl, rfl⟩ := h.cases
    · have hw : toInt64 (toUint64 v) = v := by
        simp only [minInt64, maxInt64] at h1 h2
        unfold toInt64 toUint64
        split_ifs <;> omega
      simp only [literalDivisors, integerType, if_true, Scalar.dataUint64, hw, absInt64,
        Occurrence.Defined, Occurrence.divisors, integerOf]
      exact ⟨fun hne => by rw [if_neg hne]; rfl, fun heq => by rw [if_pos (not_not.mp heq)]; rfl⟩
    · refine ⟨fun _ => rfl, fun hnot => absurd ?_ hnot⟩
      simp only [Occurrence.Defined, integerOf, minInt64]
      omega
  | rightShift =>
    have hd := h.dataUint64_eq
    simp only [literalDivisors, Occurrence.Defined, Occurrence.divisors, ← hd]
    refine ⟨fun hlt => ?_, fun hge => ?_⟩
    · rw [shiftedOne_eq (by omega)]
      have h31 : value.dataUint64 = 31 ↔ (value.dataUint64 : ℤ) = 31 := by omega
      simp only [h31]
      rfl
    · rw [shiftedOne, if_pos (by omega)]
      rfl
  | _ => exact ⟨fun _ => rfl, fun hnot => absurd trivial hnot⟩

def divisorsOf (signedType : Bool) (occurrences : List Occurrence) : List ℕ :=
  occurrences.flatMap (Occurrence.divisors signedType)

/-- What a walk does with the occurrences that it meets. -/
def Records (signedType : Bool) (keyPartIndex : ℕ) (occurrences : List Occurrence)
    (walk : ReferenceIdToDivisors → Result ReferenceIdToDivisors) : Prop :=
  ∀ divisors, ((∀ o ∈ occurrences, o.Defined signedType) →
      walk divisors = .ok (divisors.push keyPartIndex (divisorsOf signedType occurrences))) ∧
    ((∃ o ∈ occurrences, ¬o.Defined signedType) → walk divisors = .error .undefined)

theorem records_nil : Records signedType keyPartIndex [] .ok :=
  fun divisors => ⟨fun _ => by rw [divisorsOf, flatMap_nil, push_nil], fun ⟨_, ho, _⟩ =>
    by simp at ho⟩

theorem Records.append {occurrences occurrences' : List Occurrence}
    {walk walk' : ReferenceIdToDivisors → Result ReferenceIdToDivisors}
    (h : Records signedType keyPartIndex occurrences walk)
    (h' : Records signedType keyPartIndex occurrences' walk') :
    Records signedType keyPartIndex (occurrences ++ occurrences') fun divisors =>
      walk divisors >>= walk' := by
  intro divisors
  dsimp only
  refine ⟨fun ha => ?_, fun ⟨o, ho, hn⟩ => ?_⟩
  · rw [(h divisors).1 fun o ho => ha o (mem_append_left _ ho), ok_bind,
      (h' _).1 fun o ho => ha o (mem_append_right _ ho), push_push, divisorsOf, divisorsOf, divisorsOf,
      flatMap_append]
  · by_cases hleft : ∀ o ∈ occurrences, o.Defined signedType
    · rw [(h divisors).1 hleft, ok_bind]
      refine (h' _).2 ⟨o, ?_, hn⟩
      exact (mem_append.mp ho).resolve_left fun hl => hn (hleft o hl)
    · rw [(h divisors).2 (by simpa using hleft)]
      rfl

mutual

theorem collect_records (hc : columnNameToKeyPartIndex keyColumns column = some keyPartIndex) :
    ∀ e, OverColumn signedType column e →
    Records signedType keyPartIndex (occurrences e) (collect keyColumns e)
  | .literal _, _ => records_nil
  | .reference type columnName, h => by
    obtain ⟨rfl, rfl⟩ := h
    intro divisors
    refine ⟨fun _ => ?_, fun ⟨o, ho, hn⟩ => ?_⟩
    · rw [collect, hc]
      simp only [isIntegral_integerType, if_true]
      rfl
    · obtain rfl : o = .bare := by simpa [occurrences] using ho
      exact absurd trivial hn
  | .function _ arguments, h | .inTuples arguments _, h
  | .between arguments _, h => collectAll_records hc arguments h
  | .unaryOp _ operand, h => collect_records hc operand h
  | .binaryOp type op lhs rhs, h => by
    obtain ⟨hl, hr, hop⟩ := h.operands
    have hm := referenceMeetsLiteral_eq hc type hl rhs
    cases hlit : literalOperand? type lhs rhs with
    | none =>
      have happ := (collect_records hc lhs hl).append (collect_records hc rhs hr)
      intro divisors
      rw [hlit, Option.map_none] at hm
      rw [occurrences, hlit, collect, hm]
      exact happ divisors
    | some value =>
      obtain ⟨rfl, hadm⟩ := hop value hlit
      intro divisors
      rw [hlit, Option.map_some] at hm
      rw [occurrences, hlit, collect, hm]
      refine ⟨fun hall => ?_, fun ⟨o, ho, hn⟩ => ?_⟩
      · simp only [(literalDivisors_eq hadm).1 (hall _ (mem_singleton_self _)), ok_bind, divisorsOf,
          flatMap_singleton]
        rfl
      · obtain rfl := mem_singleton.mp ho
        simp only [(literalDivisors_eq hadm).2 hn]
        rfl
  | .transform arguments _ _, h => collectAll_records hc arguments h.1
  | .other _ _, h => h.elim

theorem collectAll_records (hc : columnNameToKeyPartIndex keyColumns column = some keyPartIndex) :
    ∀ arguments, AllOverColumn signedType column arguments →
    Records signedType keyPartIndex (occurrencesAll arguments) (collectAll keyColumns arguments)
  | [], _ => records_nil
  | arg :: arguments, h => by
    obtain ⟨h1, h2⟩ := h
    exact (collect_records hc arg h1).append (collectAll_records hc arguments h2)

end

end Recorded

/-! ### The value of an expression -/

section Value

variable {signedType : Bool} {column : String} {I : Interpretation} {row row' : DataRow}

theorem eval_arithmetic (h : op.IsArithmetic) (type : ValueType) (lhs rhs : Expression) :
    (Expression.binaryOp type op lhs rhs).eval I row = I.binaryOp op (lhs.eval I row)
      (rhs.eval I row) := by
  cases op <;> first | rfl | (exfalso; revert h; decide)

theorem literalOperand?_eq_some {type : ValueType} {lhs rhs : Expression}
    (h : literalOperand? type lhs rhs = some value) :
    ∃ type' columnName, lhs = .reference type' columnName ∧ rhs = .literal value := by
  unfold literalOperand? at h
  split at h
  · split_ifs at h
    exact ⟨_, _, rfl, by rw [Option.some.inj h]⟩
  · cases h

mutual

/-- The value depends on the values of the occurrences only. -/
theorem eval_congr : ∀ e, OverColumn signedType column e →
    (∀ o ∈ occurrences e, o.eval I (row column) = o.eval I (row' column)) →
    e.eval I row = e.eval I row'
  | .literal _, _, _ => rfl
  | .reference type columnName, h, hoccurs => by
    obtain ⟨-, rfl⟩ := h
    exact hoccurs .bare (by simp [occurrences])
  | .function _ arguments, h, hoccurs | .inTuples arguments _, h, hoccurs
  | .between arguments _, h, hoccurs => by
    rw [Expression.eval, Expression.eval, evalAll_congr arguments h hoccurs]
  | .unaryOp _ operand, h, hoccurs => by
    have ih := eval_congr operand h hoccurs
    simp only [Expression.eval, ih]
  | .binaryOp type op lhs rhs, h, hoccurs => by
    obtain ⟨hl, hr, hop⟩ := h.operands
    rw [occurrences] at hoccurs
    cases hlit : literalOperand? type lhs rhs with
    | none =>
      rw [hlit] at hoccurs
      have ihl := eval_congr lhs hl fun o ho => hoccurs o (mem_append_left _ ho)
      have ihr := eval_congr rhs hr fun o ho => hoccurs o (mem_append_right _ ho)
      simp only [Expression.eval, ihl, ihr]
    | some value =>
      obtain ⟨-, hadm⟩ := hop value hlit
      obtain ⟨type', columnName, rfl, rfl⟩ := literalOperand?_eq_some hlit
      obtain ⟨-, rfl⟩ := hl
      rw [hlit] at hoccurs
      rw [eval_arithmetic hadm.arithmetic, eval_arithmetic hadm.arithmetic]
      exact hoccurs (.operation op value) (mem_singleton_self _)
  | .transform arguments _ default, h, hoccurs => by
    obtain ⟨hargs, rfl⟩ := h
    rw [Expression.eval, Expression.eval, evalAll_congr arguments hargs hoccurs]
    rfl
  | .other _ _, h, _ => h.elim

theorem evalAll_congr : ∀ arguments, AllOverColumn signedType column arguments →
    (∀ o ∈ occurrencesAll arguments, o.eval I (row column) = o.eval I (row' column)) →
      Expression.evalAll I row arguments = Expression.evalAll I row' arguments
  | [], _, _ => rfl
  | arg :: arguments, h, hoccurs => by
    obtain ⟨h1, h2⟩ := h
    rw [occurrencesAll] at hoccurs
    rw [Expression.evalAll, Expression.evalAll, eval_congr arg h1 fun o ho =>
      hoccurs o (mem_append_left _ ho),
      evalAll_congr arguments h2 fun o ho => hoccurs o (mem_append_right _ ho)]

end

def AllAdmissible (signedType : Bool) (occurrences : List Occurrence) : Prop :=
  ∀ opcode value, .operation opcode value ∈ occurrences → Admissible signedType opcode value

mutual

theorem occurrences_admissible : ∀ e, OverColumn signedType column e →
    AllAdmissible signedType (occurrences e)
  | .literal _, _ | .reference _ _, _ => by simp [AllAdmissible, occurrences]
  | .function _ arguments, h | .inTuples arguments _, h
  | .between arguments _, h => occurrencesAll_admissible arguments h
  | .unaryOp _ operand, h => occurrences_admissible operand h
  | .binaryOp type op lhs rhs, h => by
    obtain ⟨hl, hr, hop⟩ := h.operands
    intro op' value' hm
    rw [occurrences] at hm
    cases hlit : literalOperand? type lhs rhs with
    | none =>
      rw [hlit] at hm
      exact (mem_append.mp hm).elim (occurrences_admissible lhs hl _ _)
        (occurrences_admissible rhs hr _ _)
    | some value =>
      rw [hlit] at hm
      obtain ⟨rfl, rfl⟩ := Occurrence.operation.inj (mem_singleton.mp hm)
      exact (hop _ hlit).2
  | .transform arguments _ default, h => by
    obtain ⟨ha, -⟩ := h
    exact occurrencesAll_admissible arguments ha
  | .other _ _, h => h.elim

theorem occurrencesAll_admissible : ∀ arguments, AllOverColumn signedType column arguments →
    AllAdmissible signedType (occurrencesAll arguments)
  | [], _ => by simp [AllAdmissible, occurrencesAll]
  | arg :: arguments, h => by
    obtain ⟨h1, h2⟩ := h
    intro op value hm
    exact (mem_append.mp hm).elim (occurrences_admissible arg h1 _ _)
      (occurrencesAll_admissible arguments h2 _ _)

end

end Value

/-! ### Covered occurrences -/

section Covered

variable {signedType : Bool} {divisors : List ℕ} {u v : Scalar}

section

variable (hu : u.IsColumnValue signedType) (hv : v.IsColumnValue signedType)

include hu hv

theorem same_quotient_cases {d : ℕ} (h : u.quotient d = v.quotient d) :
    u = v ∨ (∃ a b, signedType = true ∧ u = .int64 a ∧ v = .int64 b ∧ a.tdiv d = b.tdiv d) ∨
      ∃ a b, signedType = false ∧ u = .uint64 a ∧ v = .uint64 b ∧ a / d = b / d := by
  rcases hu.cases with rfl | ⟨hu', hu1, -⟩ <;> rcases hv.cases with rfl | ⟨hv', hv1, -⟩
  · exact .inl rfl
  · rw [hv', quotient_ofInteger hv1] at h
    cases h
  · rw [hu', quotient_ofInteger hu1] at h
    cases h
  · rw [hu', hv'] at h ⊢
    cases signedType with
    | false => exact .inr (.inr ⟨_, _, rfl, rfl, rfl, Int.ofNat.inj (Option.some.inj h)⟩)
    | true => exact .inr (.inl ⟨_, _, rfl, rfl, rfl, Option.some.inj h⟩)

variable (hsame : u.SameQuotients divisors v)

include hsame

theorem eq_of_one_mem (ho : 1 ∈ divisors) : u = v := by
  rcases same_quotient_cases hu hv (hsame 1 ho)
    with h | ⟨a, b, -, rfl, rfl, h⟩ | ⟨a, b, -, rfl, rfl, h⟩
  · exact h
  · rw [Nat.cast_one, Int.tdiv_one, Int.tdiv_one] at h
    rw [h]
  · rw [Nat.div_one, Nat.div_one] at h
    rw [h]

variable {I : Interpretation} (hI : StandardOperators I)

include hI

theorem divide_eq (ha : Admissible signedType .divide value)
    (hm : (integerOf signedType value).natAbs ∈ divisors) :
    I.binaryOp .divide u value = I.binaryOp .divide v value := by
  by_cases ho : (integerOf signedType value).natAbs = 1
  · rw [eq_of_one_mem hu hv hsame (ho ▸ hm)]
  have hne := ha.divide rfl
  rcases same_quotient_cases hu hv (hsame _ hm)
    with rfl | ⟨a, b, hs, rfl, rfl, h⟩ | ⟨a, b, hs, rfl, rfl, h⟩
  · rfl
  · obtain ⟨c, -, rfl, -⟩ | ⟨c, hs', -⟩ := ha.cases
    · simp only [integerOf] at hne ho h
      have hd : ∀ a : ℤ, ¬(a = minInt64 ∧ c = -1) := fun a hc => ho (by rw [hc.2]; rfl)
      -- the sign of the divisor changes both quotients
      have hq : a.tdiv c = b.tdiv c := by
        rcases Int.natAbs_eq c with hc | hc
        · rw [hc]
          exact h
        · rw [hc, Int.tdiv_neg, Int.tdiv_neg, h]
      rw [hI.divideInt64 a c hne (hd a), hI.divideInt64 b c hne (hd b), hq]
    · rw [hs] at hs'
      cases hs'
  · obtain ⟨c, hs', -⟩ | ⟨c, -, rfl⟩ := ha.cases
    · rw [hs] at hs'
      cases hs'
    · simp only [integerOf, Int.natAbs_natCast] at hne h
      have hc : c ≠ 0 := by
        rintro rfl
        exact hne rfl
      rw [hI.divideUint64 a c hc, hI.divideUint64 b c hc, h]

theorem rightShift_eq (ha : Admissible signedType .rightShift value)
    (hc : (Occurrence.operation .rightShift value).Covered signedType divisors) :
    I.binaryOp .rightShift u value = I.binaryOp .rightShift v value := by
  obtain ⟨c, rfl, rfl, -⟩ | ⟨c, rfl, rfl⟩ := ha.cases
  · rw [eq_of_one_mem hu hv hsame hc]
  · obtain ⟨d, hd, k, hk⟩ := hc
    simp only [integerOf, Int.toNat_natCast] at hk
    have hlt : c < 64 := Int.ofNat_lt.mp (ha.shift rfl).2
    rcases same_quotient_cases hu hv (hsame d hd) with rfl | ⟨a, b, hs, -⟩ | ⟨a, b, -, rfl, rfl, h⟩
    · rfl
    · cases hs
    · rw [hI.rightShiftUint64 a c hlt, hI.rightShiftUint64 b c hlt, hk, ← Nat.div_div_eq_div_mul,
        ← Nat.div_div_eq_div_mul, h]

theorem Occurrence.eval_eq {o : Occurrence}
    (ha : ∀ op value, o = .operation op value → Admissible signedType op value)
    (hm : ∀ d ∈ o.divisors signedType, d ∈ divisors) (hc : o.Covered signedType divisors) :
      o.eval I u = o.eval I v := by
  cases o with
  | bare => exact eq_of_one_mem hu hv hsame (hm 1 (mem_singleton_self _))
  | operation op value =>
    have ha' := ha op value rfl
    cases op with
    | divide => exact divide_eq hu hv hsame hI ha' (hm _ (mem_singleton_self _))
    | rightShift => exact rightShift_eq hu hv hsame hI ha' hc
    | _ => rw [eq_of_one_mem hu hv hsame hc]

end

/-- Division and right shift, and the left operand of every other operator. -/
def leftOperator : BinaryOpcode → Scalar → Scalar → Scalar
  | .divide, .int64 a, .int64 b => .int64 (a.tdiv b)
  | .divide, .uint64 a, .uint64 b => .uint64 (a / b)
  | .rightShift, .int64 a, .int64 b => .int64 (a / 2 ^ b.toNat)
  | .rightShift, .uint64 a, .uint64 b => .uint64 (a / 2 ^ b)
  | _, a, _ => a

/-- An interpretation whose functions return the argument `index`. -/
def argumentInterpretation (index : ℕ) : Interpretation where
  function _ arguments := arguments.getD index .null
  unaryOp _ a := a
  binaryOp := leftOperator
  transform _ _ _ := .null
  other _ _ := .null

theorem standardOperators_argument (index : ℕ) :
    StandardOperators (argumentInterpretation index) where
  divideInt64 _ _ _ _ := rfl
  divideUint64 _ _ _ := rfl
  rightShiftInt64 _ _ _ _ := rfl
  rightShiftUint64 _ _ _ := rfl

theorem sameQuotients_zero (ho : 1 ∉ divisors)
    (hp : ∀ d ∈ divisors, 0 < d) {x : ℤ} (hx : x.natAbs ≤ 1) (hl : lowest signedType ≤ x) :
      (ofInteger signedType 0).SameQuotients divisors (ofInteger signedType x) := by
  have hz : lowest signedType ≤ 0 := by cases signedType <;> decide
  intro d hd
  have hd2 : 2 ≤ d := by
    have h1 : d ≠ 1 := fun h => ho (h ▸ hd)
    have := hp d hd
    omega
  rw [quotient_ofInteger hz, quotient_ofInteger hl, Int.zero_tdiv]
  have hq : x.tdiv d = 0 := by
    rw [← Int.natAbs_eq_zero, Int.natAbs_tdiv, Int.natAbs_natCast]
    exact Nat.div_eq_of_lt (by omega)
  rw [hq]

theorem sameQuotients_two_pow {c : ℕ} (hn : ∀ d ∈ divisors, ¬d ∣ 2 ^ c) :
    (Scalar.uint64 (2 ^ c - 1)).SameQuotients divisors (.uint64 (2 ^ c)) := by
  intro d hd
  have hs : 2 ^ c - 1 + 1 = 2 ^ c := Nat.sub_add_cancel Nat.one_le_two_pow
  have hdiv : 2 ^ c / d = (2 ^ c - 1) / d := by
    have h := Nat.succ_div (a := 2 ^ c - 1) (b := d)
    rwa [hs, if_neg (hn d hd), add_zero] at h
  simp only [Scalar.quotient, hdiv]

/-- An occurrence that is not covered has two values for values of the column
with the same quotients. -/
theorem Occurrence.exists_ne (index : ℕ) {o : Occurrence}
    (ha : ∀ op value, o = .operation op value → Admissible signedType op value)
    (hpos : ∀ d ∈ divisors, 0 < d) (hnot : ¬o.Covered signedType divisors) : ∃ u v : Scalar,
      u.IsColumnValue signedType ∧ v.IsColumnValue signedType ∧ u.SameQuotients divisors v ∧
      o.eval (argumentInterpretation index) u ≠ o.eval (argumentInterpretation index) v := by
  cases o with
  | bare => exact absurd trivial hnot
  | operation op value =>
    have ha' := ha op value rfl
    by_cases hdiv : op = .divide
    · subst hdiv
      exact absurd trivial hnot
    by_cases hshift : op = .rightShift
    · subst hshift
      obtain ⟨c, rfl, rfl, -⟩ | ⟨c, rfl, rfl⟩ := ha'.cases
      · -- zero and -1: the shift rounds down
        have hsame : (ofInteger true 0).SameQuotients divisors (ofInteger true (-1)) :=
          sameQuotients_zero hnot hpos (by decide) (by decide)
        refine ⟨.int64 0, .int64 (-1), by decide, by decide, hsame, fun h => ?_⟩
        have hv : (0 : ℤ) / 2 ^ c.toNat = -1 / 2 ^ c.toNat := Scalar.int64.inj h
        have hpow : (0 : ℤ) < 2 ^ c.toNat := by positivity
        have hneg : (-1 : ℤ) / 2 ^ c.toNat < 0 := Int.ediv_neg_of_neg_of_pos (by decide) hpow
        rw [Int.zero_ediv] at hv
        omega
      · have hc : c < 64 := Int.ofNat_lt.mp (ha'.shift rfl).2
        have hpow : 2 ^ c ≤ 2 ^ 63 := Nat.pow_le_pow_right (by decide) (by omega)
        have hle : 2 ^ c ≤ maxUint64 := hpow.trans (by decide)
        have hdvd : ∀ d ∈ divisors, ¬d ∣ 2 ^ c := fun d hd h => hnot ⟨d, hd, h⟩
        refine ⟨.uint64 (2 ^ c - 1), .uint64 (2 ^ c), ⟨rfl, (Nat.sub_le _ _).trans hle⟩, ⟨rfl, hle⟩,
          sameQuotients_two_pow hdvd, fun h => ?_⟩
        have hv : (2 ^ c - 1) / 2 ^ c = 2 ^ c / 2 ^ c := Scalar.uint64.inj h
        have ho : 0 < 2 ^ c := Nat.two_pow_pos c
        rw [Nat.div_eq_of_lt (by omega), Nat.div_self ho] at hv
        cases hv
    · -- zero and one: the operator is any
      have hcov : (Occurrence.operation op value).Covered signedType divisors = (1 ∈ divisors) := by
        cases op <;> first | rfl | (exfalso; first | exact hdiv rfl | exact hshift rfl)
      have he : ∀ u, (Occurrence.operation op value).eval (argumentInterpretation index) u = u := by
        intro u
        cases op <;> first | rfl | (exfalso; first | exact hdiv rfl | exact hshift rfl)
      rw [hcov] at hnot
      have hlow : lowest signedType ≤ 0 := by cases signedType <;> decide
      have hh : 1 ≤ highest signedType := by cases signedType <;> decide
      refine ⟨ofInteger signedType 0, ofInteger signedType 1, isColumnValue_ofInteger hlow (by omega),
        isColumnValue_ofInteger (by omega) hh, sameQuotients_zero hnot hpos (by decide) (by omega), ?_⟩
      rw [he, he]
      exact (ofInteger_lt hlow (by decide)).ne

end Covered

/-! ### All expressions with the same occurrences -/

section Determine

variable {signedType : Bool} {column : String} {keyColumns : List String} {keyPartIndex : ℕ}

def Occurrence.toExpression (signedType : Bool) (column : String) : Occurrence → Expression
  | .bare => .reference (integerType signedType) column
  | .operation opcode value =>
    .binaryOp (integerType signedType) opcode (.reference (integerType signedType) column)
      (.literal value)

theorem literalOperand?_toExpression (signedType : Bool) (column : String) (value : Scalar) :
    literalOperand? (integerType signedType)
    (.reference (integerType signedType) column) (.literal value) = some value := by
  rw [literalOperand?, if_pos isIntegral_integerType]

theorem allOverColumn_map (column : String) : ∀ {l : List Occurrence}, AllAdmissible signedType l →
    AllOverColumn signedType column (l.map (Occurrence.toExpression signedType column)) ∧
      occurrencesAll (l.map (Occurrence.toExpression signedType column)) = l
  | [], _ => ⟨trivial, rfl⟩
  | o :: l, h => by
    obtain ⟨ih1, ih2⟩ := allOverColumn_map column (l := l) fun op value hm =>
      h op value (mem_cons_of_mem _ hm)
    cases o with
    | bare =>
      refine ⟨⟨⟨rfl, rfl⟩, ih1⟩, ?_⟩
      rw [map_cons, occurrencesAll, ih2]
      rfl
    | operation op value =>
      have hl := literalOperand?_toExpression signedType column value
      refine ⟨⟨⟨⟨rfl, rfl⟩, trivial, fun value' hv' => ?_⟩, ih1⟩, ?_⟩
      · rw [hl] at hv'
        obtain rfl := Option.some.inj hv'
        exact ⟨rfl, h op value mem_cons_self⟩
      · rw [map_cons, occurrencesAll, ih2, Occurrence.toExpression, occurrences, hl]
        rfl

theorem evalAll_map (I : Interpretation) (row : DataRow) :
    ∀ {l : List Occurrence}, AllAdmissible signedType l →
    Expression.evalAll I row (l.map (Occurrence.toExpression signedType column)) =
      l.map (Occurrence.eval I (row column))
  | [], _ => rfl
  | o :: l, h => by
    have ih := evalAll_map I row (l := l) fun op value hm => h op value (mem_cons_of_mem _ hm)
    rw [map_cons, Expression.evalAll, ih, map_cons]
    cases o with
    | bare => rfl
    | operation op value =>
      rw [Occurrence.toExpression, eval_arithmetic (h op value mem_cons_self).arithmetic]
      rfl

/-- The divisors determine every expression with the given occurrences exactly
when they cover each of them. -/
theorem determined_iff (column : String) {l : List Occurrence} (ha : AllAdmissible signedType l)
    (hp : ∀ d ∈ divisorsOf signedType l, 0 < d) : (∀ e, OverColumn signedType column e →
      occurrences e = l → Determined signedType column (divisorsOf signedType l) e) ↔
      ∀ o ∈ l, o.Covered signedType (divisorsOf signedType l) := by
  constructor
  · intro h o ho
    by_contra hnot
    obtain ⟨index, hi⟩ := mem_iff_getElem?.mp ho
    obtain ⟨u, v, hu, hv, hs, hne⟩ :=
      o.exists_ne index (fun op value heq => ha op value (heq ▸ ho)) hp hnot
    obtain ⟨hover, hoccurs⟩ := allOverColumn_map column ha
    -- the function that returns the occurrence among its arguments
    have hdetermines := h (.function "f" (l.map (Occurrence.toExpression signedType column))) hover
      hoccurs (argumentInterpretation index) (standardOperators_argument index) (fun _ => u)
        (fun _ => v) hu hv hs
    have heval : ∀ w : Scalar,
        (Expression.function "f" (l.map (Occurrence.toExpression signedType column))).eval
        (argumentInterpretation index) (fun _ => w) = o.eval (argumentInterpretation index) w := by
      intro w
      rw [Expression.eval, evalAll_map _ _ ha]
      simp [argumentInterpretation, getD_eq_getElem?_getD, hi]
    rw [heval, heval] at hdetermines
    exact hne hdetermines
  · rintro hc e he rfl I hI row row' hu hv hs
    refine eval_congr e he fun o ho => ?_
    refine Occurrence.eval_eq hu hv hs hI (fun op value heq => ha op value (heq ▸ ho))
      (fun d hd => ?_) (hc o ho)
    exact mem_flatMap.mpr ⟨o, ho, hd⟩

theorem divisorsOf_pos {l : List Occurrence} (ha : AllAdmissible signedType l) :
    ∀ d ∈ divisorsOf signedType l, 0 < d := by
  intro d hd
  obtain ⟨o, ho, hd⟩ := mem_flatMap.mp hd
  cases o with
  | bare =>
    obtain rfl := mem_singleton.mp hd
    decide
  | operation op value =>
    cases op with
    | divide =>
      obtain rfl := mem_singleton.mp hd
      exact Int.natAbs_pos.mpr ((ha _ _ ho).divide rfl)
    | rightShift =>
      obtain rfl := mem_singleton.mp hd
      split_ifs
      · decide
      · exact Nat.two_pow_pos _
    | _ => exact absurd hd not_mem_nil

theorem getD_push (hc : columnNameToKeyPartIndex keyColumns column = some keyPartIndex)
    (added : List ℕ) : (ReferenceIdToDivisors.push
      (replicate keyColumns.length []) keyPartIndex added).getD keyPartIndex [] = added := by
  have hlt : keyPartIndex < keyColumns.length := (findIdx?_eq_some_iff_getElem.mp hc).1
  simp [ReferenceIdToDivisors.push, getD_eq_getElem?_getD, hlt]

/-- The divisors that `Collect` records for a column: it returns, and the
divisors, if there are any, determine every expression with the occurrences of
the collected one, exactly when the arithmetic of each occurrence is defined and
the divisors cover it. -/
theorem divisorsDetermine_iff {e : Expression}
    (hcolumn : columnNameToKeyPartIndex keyColumns column = some keyPartIndex)
    (he : OverColumn signedType column e) :
    (∃ divisors, collect keyColumns e (replicate keyColumns.length []) = .ok divisors ∧
        (divisors.getD keyPartIndex [] ≠ [] → ∀ e', OverColumn signedType column e' →
          occurrences e' = occurrences e →
          Determined signedType column (divisors.getD keyPartIndex []) e')) ↔
      (∀ o ∈ occurrences e, o.Defined signedType) ∧ (divisorsOf signedType (occurrences e) ≠ [] →
        ∀ o ∈ occurrences e, o.Covered signedType (divisorsOf signedType (occurrences e))) := by
  have hadm := occurrences_admissible e he
  obtain ⟨hok, hbad⟩ := collect_records hcolumn e he (replicate keyColumns.length [])
  have hiff := determined_iff column hadm (divisorsOf_pos hadm)
  by_cases hdef : ∀ o ∈ occurrences e, o.Defined signedType
  · rw [hok hdef]
    constructor
    · rintro ⟨divisors, hrun, hdetermines⟩
      obtain rfl := Except.ok.inj hrun
      rw [getD_push hcolumn] at hdetermines
      exact ⟨hdef, fun hne => hiff.mp (hdetermines hne)⟩
    · rintro ⟨-, hcov⟩
      refine ⟨_, rfl, ?_⟩
      rw [getD_push hcolumn]
      exact fun hne => hiff.mpr (hcov hne)
  · rw [hbad (by simpa using hdef)]
    refine ⟨?_, fun h => absurd h.1 hdef⟩
    rintro ⟨divisors, hrun, -⟩
    cases hrun

/-- `k / 10` of an unsigned column. -/
theorem divisorsDetermine_divide : ∃ divisors, collect ["k"] (.binaryOp .uint64 .divide
      (.reference .uint64 "k") (.literal (.uint64 10))) [[]] = .ok divisors ∧
      (divisors.getD 0 [] ≠ [] → ∀ e', OverColumn false "k" e' → occurrences e' =
        [.operation .divide (.uint64 10)] → Determined false "k" (divisors.getD 0 []) e') := by
  have hadm : Admissible false .divide (.uint64 10) :=
    ⟨by decide, by decide, by decide, fun _ => by decide, nofun⟩
  have hover : OverColumn false "k"
      (.binaryOp .uint64 .divide (.reference .uint64 "k") (.literal (.uint64 10))) := by
    refine ⟨⟨rfl, rfl⟩, trivial, fun value hvalue => ?_⟩
    obtain rfl := Option.some.inj hvalue
    exact ⟨rfl, hadm⟩
  have hcolumn : columnNameToKeyPartIndex ["k"] "k" = some 0 := by decide
  refine (divisorsDetermine_iff hcolumn hover).mpr ⟨fun o ho => ?_, fun _ o ho => ?_⟩
  · obtain rfl := mem_singleton.mp ho
    exact (by decide : (10 : ℤ) ≠ minInt64)
  · obtain rfl := mem_singleton.mp ho
    trivial

/-- `k >> 31` of an unsigned column: the recorded divisor is `2 ^ 64 - 2 ^ 31`,
by which 0 and `2 ^ 31` have the quotient 0, and the shift gives 0 and 1. -/
theorem divisorsDetermine_shift_31 :
    ∃ (e : Expression) (divisors : List ℕ) (I : Interpretation) (row row' : DataRow),
      OverColumn false "k" e ∧ collect ["k"] e [[]] = .ok [divisors] ∧ divisors ≠ [] ∧
        StandardOperators I ∧ (row "k").IsColumnValue false ∧ ( row' "k").IsColumnValue false ∧
        (row "k").SameQuotients divisors ( row' "k") ∧ e.eval I row ≠ e.eval I row' := by
  have hadm : Admissible false .rightShift (.uint64 31) :=
    ⟨by decide, by decide, by decide, nofun, fun _ => by decide⟩
  refine ⟨.binaryOp .uint64 .rightShift (.reference .uint64 "k") (.literal (.uint64 31)),
    [2 ^ 64 - 2 ^ 31], argumentInterpretation 0, fun _ => .uint64 0, fun _ => .uint64 (2 ^ 31), ?_,
      by decide +kernel, by simp, standardOperators_argument 0, by decide, by decide, ?_, by decide⟩
  · refine ⟨⟨rfl, rfl⟩, trivial, fun value hvalue => ?_⟩
    obtain rfl := Option.some.inj hvalue
    exact ⟨rfl, hadm⟩
  · intro d hd
    obtain rfl := mem_singleton.mp hd
    decide

end Determine

end Ytsaurus.Query
