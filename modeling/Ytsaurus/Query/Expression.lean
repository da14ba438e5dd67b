/-
# Typed expressions

The expressions of `query/base/query.h` and how a row evaluates them. Data
values are scalars, ordered as `CompareRowValues` orders them: by type, then
by value (doubles are their ranks in the order of doubles that are not NaN,
strings are lists of bytes). Relational operators see the order of scalars, in
which null is the least, or are null on nulls (`UseCanonicalNullRelations`);
`AND` and `OR` are three-valued; tuples are in an
`IN` list or not, and `BETWEEN` looks up the first range that does not end
before the tuple (`IsRowInRanges`). Functions, the operators that are neither
logical nor relational and all further kinds of expressions are arbitrary.

`TNotExpressionPropagator` pushes negations down (`propagateNot`). That keeps the value, provided
that `NOT`, `AND` and `OR` are applied to booleans and nulls only.
-/
import Mathlib

namespace Ytsaurus.Query

/-- A data value: the types of `EValueType` that a key column can have. -/
inductive Scalar where
  | null
  | int64 (value : ℤ)
  | uint64 (value : ℕ)
  | double (rank : ℤ)
  | boolean (value : Bool)
  | string (bytes : List ℕ)
  deriving DecidableEq, Repr

namespace Scalar

/-- The type's code in `EValueType`, and the value. -/
def encode : Scalar → ℕ ×ₗ ℤ ×ₗ List ℕ
  | null => toLex (0x02, toLex (0, []))
  | int64 value => toLex (0x03, toLex (value, []))
  | uint64 value => toLex (0x04, toLex (value, []))
  | double rank => toLex (0x05, toLex (rank, []))
  | boolean value => toLex (0x06, toLex (value.toInt, []))
  | string bytes => toLex (0x10, toLex (0, bytes))

theorem encode_injective : Function.Injective encode := by
  intro a b h
  cases a <;> cases b <;> simp_all [encode]
  rename_i x y
  cases x <;> cases y <;> simp_all

instance : LinearOrder Scalar := LinearOrder.lift' encode encode_injective

/-- The truth value of a boolean scalar, none for null. -/
def truth : Scalar → Option Bool
  | boolean value => some value
  | _ => none

def ofTruth : Option Bool → Scalar
  | some value => boolean value
  | none => null

/-- `NOT`, `AND` and `OR` of truth values. -/
def logicalNot (a : Scalar) : Scalar := ofTruth (a.truth.map (!·))

def logicalAnd (a b : Scalar) : Scalar :=
  match a.truth, b.truth with
  | some false, _ => boolean false
  | _, some false => boolean false
  | some true, some true => boolean true
  | _, _ => null

def logicalOr (a b : Scalar) : Scalar :=
  match a.truth, b.truth with
  | some true, _ => boolean true
  | _, some true => boolean true
  | some false, some false => boolean false
  | _, _ => null

/-- The value is a boolean or null, as every value of a boolean type is. -/
def IsLogical (a : Scalar) : Prop := ofTruth a.truth = a

end Scalar

/-- The wire types that `IsIntegralType` and the constraint code ask about. -/
inductive ValueType where
  | null
  | int64
  | uint64
  | double
  | boolean
  | string
  | any
  deriving DecidableEq, Repr

/-- `EUnaryOp`. -/
inductive UnaryOpcode where
  | plus
  | minus
  | not
  | bitNot
  deriving DecidableEq, Repr

/-- `EBinaryOp`. -/
inductive BinaryOpcode where
  | plus
  | minus
  | multiply
  | divide
  | modulo
  | leftShift
  | rightShift
  | bitOr
  | bitAnd
  | and
  | or
  | equal
  | notEqual
  | less
  | lessOrEqual
  | greater
  | greaterOrEqual
  | concatenate
  deriving DecidableEq, Repr

namespace BinaryOpcode

/-- `GetReversedBinaryOpcode`. -/
def reversed : BinaryOpcode → BinaryOpcode
  | less => greater
  | lessOrEqual => greaterOrEqual
  | greater => less
  | greaterOrEqual => lessOrEqual
  | opcode => opcode

/-- `GetInversedBinaryOpcode`, which aborts on an operator that is not relational. -/
def inversed? : BinaryOpcode → Option BinaryOpcode
  | equal => some notEqual
  | notEqual => some equal
  | less => some greaterOrEqual
  | lessOrEqual => some greater
  | greater => some lessOrEqual
  | greaterOrEqual => some less
  | _ => none

/-- What a relational operator says about two scalars. -/
def relation : BinaryOpcode → Option (Scalar → Scalar → Bool)
  | equal => some fun a b => a = b
  | notEqual => some fun a b => a ≠ b
  | less => some fun a b => a < b
  | lessOrEqual => some fun a b => a ≤ b
  | greater => some fun a b => b < a
  | greaterOrEqual => some fun a b => b ≤ a
  | _ => none

end BinaryOpcode

abbrev Tuple := List Scalar

/-- `TExpression`. `other` stands for the expressions of further kinds (case,
like, nested members), whose parts nothing here looks into. -/
inductive Expression where
  | literal (value : Scalar)
  | reference (type : ValueType) (columnName : String)
  | function (name : String) (arguments : List Expression)
  | unaryOp (opcode : UnaryOpcode) (operand : Expression)
  | binaryOp (type : ValueType) (opcode : BinaryOpcode) (lhs rhs : Expression)
  | inTuples (arguments : List Expression) (values : List Tuple)
  | between (arguments : List Expression) (ranges : List (Tuple × Tuple))
  | transform (arguments : List Expression) (values : List Tuple) (default : Option Expression)
  | other (kind : String) (arguments : List Expression)

/-- How the rest of the language evaluates. -/
structure Interpretation where
  function : String → List Scalar → Scalar
  unaryOp : UnaryOpcode → Scalar → Scalar
  binaryOp : BinaryOpcode → Scalar → Scalar → Scalar
  transform : List Tuple → List Scalar → Option Scalar → Scalar
  other : String → List Scalar → Scalar
  /-- `UseCanonicalNullRelations` of the query's options. -/
  useCanonicalNullRelations : Bool := false

/-- `CodegenRelationalBinaryOpExpr`: a canonical relation is null when an operand is. -/
def Interpretation.relate (I : Interpretation) (relation : Scalar → Scalar → Bool)
    (a b : Scalar) : Scalar :=
  if I.useCanonicalNullRelations ∧ (a = .null ∨ b = .null) then .null else .boolean (relation a b)

/-- No function means anything in the examples. -/
def nullInterpretation : Interpretation :=
  ⟨fun _ _ => .null, fun _ _ => .null, fun _ _ _ => .null, fun _ _ _ => .null, fun _ _ =>
    .null, false⟩

abbrev DataRow := String → Scalar

/-- `CompareRows` of the common initial part is not positive. -/
def lePrefix : Tuple → Tuple → Bool
  | a :: as, b :: bs => decide (a < b) || (decide (a = b) && lePrefix as bs)
  | _, _ => true

/-- `CompareRows` of the common initial part is negative. -/
def ltPrefix (a b : Tuple) : Bool := !lePrefix b a

/-- `IsRowInRanges`: `std::lower_bound` by the upper ends, then the lower end. -/
def isRowInRanges (values : Tuple) (ranges : List (Tuple × Tuple)) : Bool :=
  match ranges.find? fun range => !ltPrefix range.2 values with
  | some range => lePrefix range.1 values
  | none => false

namespace Expression

mutual

/-- The value of an expression on a row. -/
def eval (I : Interpretation) (row : DataRow) : Expression → Scalar
  | literal value => value
  | reference _ columnName => row columnName
  | function name arguments => I.function name (evalAll I row arguments)
  | unaryOp opcode operand =>
    match opcode with
    | .not => (eval I row operand).logicalNot
    | opcode => I.unaryOp opcode (eval I row operand)
  | binaryOp _ opcode lhs rhs =>
    let a := eval I row lhs
    let b := eval I row rhs
    match opcode with
    | .and => a.logicalAnd b
    | .or => a.logicalOr b
    | opcode =>
      match opcode.relation with
      | some relation => I.relate relation a b
      | none => I.binaryOp opcode a b
  | inTuples arguments values => .boolean (values.contains (evalAll I row arguments))
  | between arguments ranges => .boolean (isRowInRanges (evalAll I row arguments) ranges)
  | transform arguments values default =>
    I.transform values (evalAll I row arguments) (evalOption I row default)
  | other kind arguments => I.other kind (evalAll I row arguments)

def evalAll (I : Interpretation) (row : DataRow) : List Expression → List Scalar
  | [] => []
  | e :: es => eval I row e :: evalAll I row es

def evalOption (I : Interpretation) (row : DataRow) : Option Expression → Option Scalar
  | none => none
  | some e => some (eval I row e)

end

def Holds (I : Interpretation) (row : DataRow) (e : Expression) : Prop :=
  e.eval I row = .boolean true

mutual

/-- `Visit` of `TNotExpressionPropagator`. -/
def propagateNot : Expression → Expression
  | literal value => literal value
  | reference type columnName => reference type columnName
  | function name arguments => function name (propagateNotAll arguments)
  | unaryOp .not operand => propagateNotUnder operand
  | unaryOp opcode operand => unaryOp opcode (propagateNot operand)
  | binaryOp type opcode lhs rhs => binaryOp type opcode (propagateNot lhs) (propagateNot rhs)
  | inTuples arguments values => inTuples (propagateNotAll arguments) values
  | between arguments ranges => between (propagateNotAll arguments) ranges
  | transform arguments values default =>
    transform (propagateNotAll arguments) values (propagateNotOption default)
  | other kind arguments => other kind (propagateNotAll arguments)

/-- `OnUnary` of a `NOT` with the given operand. -/
def propagateNotUnder : Expression → Expression
  | literal value =>
    match value with
    | .boolean b => literal (.boolean !b)
    | value => literal value
  | unaryOp .not operand => propagateNot operand
  | unaryOp opcode operand => unaryOp .not (unaryOp opcode (propagateNot operand))
  | binaryOp type opcode lhs rhs =>
    match opcode with
    | .and => binaryOp .boolean .or (propagateNotUnder lhs) (propagateNotUnder rhs)
    | .or => binaryOp .boolean .and (propagateNotUnder lhs) (propagateNotUnder rhs)
    | opcode =>
      match opcode.inversed? with
      | some inversed => binaryOp type inversed (propagateNot lhs) (propagateNot rhs)
      | none => unaryOp .not (binaryOp type opcode (propagateNot lhs) (propagateNot rhs))
  | reference type columnName => unaryOp .not (reference type columnName)
  | function name arguments => unaryOp .not (function name (propagateNotAll arguments))
  | inTuples arguments values => unaryOp .not (inTuples (propagateNotAll arguments) values)
  | between arguments ranges => unaryOp .not (between (propagateNotAll arguments) ranges)
  | transform arguments values default =>
    unaryOp .not (transform (propagateNotAll arguments) values (propagateNotOption default))
  | other kind arguments => unaryOp .not (other kind (propagateNotAll arguments))

def propagateNotAll : List Expression → List Expression
  | [] => []
  | e :: es => propagateNot e :: propagateNotAll es

def propagateNotOption : Option Expression → Option Expression
  | none => none
  | some e => some (propagateNot e)

end

/-! ### The value is kept -/

open Scalar

mutual

/-- On the row the operands of `NOT`, `AND` and `OR` are logical. -/
def LogicalOperands (I : Interpretation) (row : DataRow) : Expression → Prop
  | literal _ | reference _ _ => True
  | unaryOp opcode operand => LogicalOperands I row operand ∧
    (opcode = .not → (operand.eval I row).IsLogical)
  | binaryOp _ opcode lhs rhs => LogicalOperands I row lhs ∧ LogicalOperands I row rhs ∧
    (opcode = .and ∨ opcode = .or → (lhs.eval I row).IsLogical ∧ (rhs.eval I row).IsLogical)
  | function _ arguments | inTuples arguments _ | between arguments _ | other _ arguments =>
    LogicalOperandsAll I row arguments
  | transform arguments _ default => LogicalOperandsAll I row arguments ∧
    LogicalOperandsOption I row default

def LogicalOperandsAll (I : Interpretation) (row : DataRow) : List Expression → Prop
  | [] => True
  | e :: es => LogicalOperands I row e ∧ LogicalOperandsAll I row es

def LogicalOperandsOption (I : Interpretation) (row : DataRow) : Option Expression → Prop
  | none => True
  | some e => LogicalOperands I row e

end

variable {I : Interpretation} {row : DataRow}

theorem logicalNot_relate (relation : Scalar → Scalar → Bool) (a b : Scalar) :
    (I.relate relation a b).logicalNot = I.relate (fun a b => !relation a b) a b := by
  unfold Interpretation.relate
  split_ifs <;> rfl

theorem logicalNot_logicalNot {a : Scalar} (h : a.IsLogical) : a.logicalNot.logicalNot = a := by
  rw [← h]
  cases a.truth with
  | none => rfl
  | some x => cases x <;> rfl

/-- De Morgan's laws. -/
theorem logicalNot_logicalAnd (a b : Scalar) :
    (a.logicalAnd b).logicalNot = a.logicalNot.logicalOr b.logicalNot ∧
    (a.logicalOr b).logicalNot = a.logicalNot.logicalAnd b.logicalNot := by
  unfold logicalAnd logicalOr logicalNot
  rcases a.truth with _ | _ | _ <;> rcases b.truth with _ | _ | _ <;> exact ⟨rfl, rfl⟩

mutual

-- the propagator switches between the two forms at every `NOT`, so both go into one induction
theorem eval_propagateNot : ∀ e : Expression, LogicalOperands I row e →
    e.propagateNot.eval I row = e.eval I row ∧
    ((e.eval I row).IsLogical → e.propagateNotUnder.eval I row = (e.eval I row).logicalNot)
  | literal value, _ => by
    refine ⟨rfl, fun h => ?_⟩
    cases value <;> first | rfl | cases h
  | reference .., _ => ⟨rfl, fun _ => rfl⟩
  | function _ arguments, h | inTuples arguments _, h | between arguments _, h
  | other _ arguments, h => by
    simp [propagateNot, propagateNotUnder, eval, evalAll_propagateNotAll arguments h]
  | transform arguments _ default, h => by
    simp [propagateNot, propagateNotUnder, eval, evalAll_propagateNotAll arguments h.1,
      evalOption_propagateNotOption default h.2]
  | unaryOp opcode operand, h => by
    obtain ⟨ih, ih'⟩ := eval_propagateNot operand h.1
    cases opcode with
    | not =>
      have hl := h.2 rfl
      refine ⟨ih' hl, fun _ => ?_⟩
      rw [propagateNotUnder, ih, eval, logicalNot_logicalNot hl]
    | _ => simp [propagateNot, propagateNotUnder, eval, ih]
  | binaryOp type opcode lhs rhs, h => by
    obtain ⟨ihl, ihl'⟩ := eval_propagateNot lhs h.1
    obtain ⟨ihr, ihr'⟩ := eval_propagateNot rhs h.2.1
    refine ⟨by simp [propagateNot, eval, ihl, ihr], fun _ => ?_⟩
    have hl := h.2.2
    cases opcode with
    | and => simp [propagateNotUnder, eval, ihl' (hl (.inl rfl)).1, ihr' (hl (.inl rfl)).2,
      logicalNot_logicalAnd]
    | or => simp [propagateNotUnder, eval, ihl' (hl (.inr rfl)).1, ihr' (hl (.inr rfl)).2,
      logicalNot_logicalAnd]
    | _ =>
      simp [propagateNotUnder, eval, BinaryOpcode.inversed?, BinaryOpcode.relation, ihl, ihr,
        logicalNot_relate] <;>
        simp only [← decide_not, not_lt, not_le]

theorem evalAll_propagateNotAll : ∀ es : List Expression, LogicalOperandsAll I row es →
    evalAll I row (propagateNotAll es) = evalAll I row es
  | [], _ => rfl
  | e :: es, h => by rw [propagateNotAll, evalAll, (eval_propagateNot e h.1).1,
    evalAll_propagateNotAll es h.2, evalAll]

theorem evalOption_propagateNotOption : ∀ e : Option Expression, LogicalOperandsOption I row e →
    evalOption I row (propagateNotOption e) = evalOption I row e
  | none, _ => rfl
  | some e, h => by rw [propagateNotOption, evalOption, (eval_propagateNot e h).1, evalOption]

end

/-- Negation propagation keeps the value of an expression whose logical operators are applied to
booleans and nulls. -/
theorem propagateNot_preserves_eval (I : Interpretation) (row : DataRow) (e : Expression)
    (h : e.LogicalOperands I row) : e.propagateNot.eval I row = e.eval I row :=
  (eval_propagateNot e h).1

/-- `NOT (a < 1 OR NOT b)` becomes `a >= 1 AND b`, which with canonical relations is null for null
`a` and `b`. -/
theorem propagateNot_preserves_eval_or : (binaryOp .boolean .and
      (binaryOp .boolean .greaterOrEqual (reference .int64 "a") (literal (.int64 1)))
      (reference .boolean "b")).eval
        { nullInterpretation with useCanonicalNullRelations := true } (fun _ => .null) = .null :=
  propagateNot_preserves_eval _ _ (unaryOp .not (binaryOp .boolean .or
    (binaryOp .boolean .less (reference .int64 "a") (literal (.int64 1)))
      (unaryOp .not (reference .boolean "b"))))
    (by simp [LogicalOperands, eval, IsLogical]; decide)

end Expression

end Ytsaurus.Query
