/-
# Unversioned values with their data

`CompareRowValues` of `client/table_client/unversioned_row.cpp` and the hashes and equalities of
`client/table_client/unversioned_value.cpp`, on values with their types and data. What a YSON string
holds is given by a function `scan`, so a node may come in any textual or binary form.

Values have keys in a linear order, by type and then by data (`valueKey`), and `CompareRowValues`
compares the keys (`compareRowValues_eq`): a total preorder (`compareRowValues_preorder`). Values
that compare equal are the same up to the bits of zeros and NaNs (`itemKey_eq`), and the hashes see
the bits: equal values hash equally exactly when their last doubles are the same
(`hash_of_equal_iff`).
-/
import Ytsaurus.TableClient.CompositeCompare

namespace Ytsaurus.TableClient.Unversioned

open Lib Yson Composite YsonNode

/-! ### Values -/

/-- The type and the data of a value. -/
inductive ValueData where
  | min
  | theBottom
  | null
  | int64 (value : BitVec 64)
  | uint64 (value : BitVec 64)
  | double (value : Binary64)
  | boolean (value : Bool)
  | string (value : Bytes)
  | any (value : Bytes)
  | composite (value : Bytes)
  | max
  deriving DecidableEq, Repr

structure UnversionedValue where
  id : BitVec 16
  flags : BitVec 8
  data : ValueData
  deriving DecidableEq, Repr

def ValueData.type : ValueData → EValueType
  | .min => .min
  | .theBottom => .theBottom
  | .null => .null
  | .int64 _ => .int64
  | .uint64 _ => .uint64
  | .double _ => .double
  | .boolean _ => .boolean
  | .string _ => .string
  | .any _ => .any
  | .composite _ => .composite
  | .max => .max

def UnversionedValue.type (value : UnversionedValue) : EValueType := value.data.type

/-- The type as errors show it. -/
def typeText : EValueType → String
  | .min => "min"
  | .theBottom => "the_bottom"
  | .null => "null"
  | .int64 => "int64"
  | .uint64 => "uint64"
  | .double => "double"
  | .boolean => "boolean"
  | .string => "string"
  | .any => "any"
  | .composite => "composite"
  | .max => "max"

def UnversionedValue.asStringBuf (value : UnversionedValue) : Bytes :=
  match value.data with
  | .string value | .any value | .composite value => value
  | _ => []

/-! ### Comparison -/

def throwIncomparableTypes {α : Type} (lhs rhs : UnversionedValue) : Result α :=
  .error (.exception ("Cannot compare values of types \"" ++ typeText lhs.type ++ "\" and \"" ++
    typeText rhs.type ++ "\"; only scalar types are allowed for key columns"))

def isSentinel (valueType : EValueType) : Bool := valueType = .min || valueType = .max

section

variable (scan : Bytes → Scan)

/-- `CompareYsonValues` of two values, with its exceptions wrapped. -/
def compareComplexValues (lhs rhs : UnversionedValue) : Result ℤ :=
  match compareYsonValues (scan lhs.asStringBuf) (scan rhs.asStringBuf) with
  | .error (.exception _) => .error (.exception "Cannot compare complex values")
  | res => res

/-- `CompareRowValues` of scalars of one type. -/
def compareData (lhs rhs : ValueData) : ℤ :=
  match lhs, rhs with
  | .int64 lhs, .int64 rhs => ternaryCompare lhs.toInt rhs.toInt
  | .uint64 lhs, .uint64 rhs => ternaryCompare lhs.toNat rhs.toNat
  | .double lhs, .double rhs => nanSafeTernaryCompare lhs rhs
  | .boolean lhs, .boolean rhs => ternaryCompare lhs rhs
  | .string lhs, .string rhs => ternaryCompare lhs rhs
  | _, _ => 0

def compareRowValues (lhs rhs : UnversionedValue) : Result ℤ :=
  if lhs.type = .any ∨ rhs.type = .any then
    if lhs.type ≠ rhs.type then
      if lhs.type = .composite ∨ rhs.type = .composite then throwIncomparableTypes lhs rhs
      else .ok (ternaryCompare lhs.type.code rhs.type.code)
    else compareComplexValues scan lhs rhs
  else if lhs.type = .composite ∨ rhs.type = .composite then
    if lhs.type ≠ rhs.type then
      if !isSentinel lhs.type ∧ lhs.type ≠ .null ∧ !isSentinel rhs.type ∧ rhs.type ≠ .null then
        throwIncomparableTypes lhs rhs
      else .ok (ternaryCompare lhs.type.code rhs.type.code)
    else compareComplexValues scan lhs rhs
  else if lhs.type ≠ rhs.type then .ok (ternaryCompare lhs.type.code rhs.type.code)
  else .ok (compareData lhs.data rhs.data)

/-- `operator==`. -/
def valuesEqual (lhs rhs : UnversionedValue) : Result Bool := do
  let res ← compareRowValues scan lhs rhs
  return res = 0

/-- The place of a value: its type, then a number, then a string, then the items of a node. -/
abbrev ValueKey := ℕ ×ₗ (WithTop ℤ ×ₗ (Bytes ×ₗ List ItemKey))

def valueKey (value : UnversionedValue) : ValueKey :=
  toLex (value.type.code, match value.data with
    | .int64 value => toLex (value.toInt, toLex ([], []))
    | .uint64 value => toLex ((value.toNat : ℤ), toLex ([], []))
    | .double value => toLex (value.rank, toLex ([], []))
    | .boolean value => toLex ((value.toNat : ℤ), toLex ([], []))
    | .string value => toLex (0, toLex (value, []))
    | .any value | .composite value => toLex (0, toLex ([], streamKey (scan value).items))
    | _ => toLex (0, toLex ([], [])))

/-- The values of the order: all but composite ones, with nodes without maps and attributes that
nest below the limit of the parser. -/
def Orderable (value : UnversionedValue) : Prop :=
  match value.data with
  | .composite _ => False
  | .any value => ∃ node : YsonNode, node.Plain ∧ node.depth < nestingLevelLimit ∧
    scan value = node.scan
  | _ => True

end

/-! ### The order -/

theorem code_injective {s t : EValueType} (h : s.code = t.code) : s = t := by
  cases s <;> cases t <;> first | rfl | exact absurd h (by decide)

section

variable {scan : Bytes → Scan}

theorem Orderable.type_ne {a : UnversionedValue} (h : Orderable scan a) : a.type ≠ .composite := by
  intro ht
  unfold Orderable at h
  unfold UnversionedValue.type at ht
  cases hd : a.data with
  | composite => rw [hd] at h; exact h
  | _ => rw [hd] at ht; cases ht

/-- Values of the order are compared by their keys. -/
theorem compareRowValues_eq {a b : UnversionedValue} (ha : Orderable scan a)
    (hb : Orderable scan b) :
    compareRowValues scan a b = .ok (ternaryCompare (valueKey scan a) (valueKey scan b)) := by
  have hca := ha.type_ne
  have hcb := hb.type_ne
  unfold compareRowValues
  by_cases ht : a.type = b.type
  · -- one type: the data decide
    rw [valueKey, valueKey, ternaryCompare_toLex, if_pos (congrArg EValueType.code ht)]
    simp only [hcb, ht, or_self, ne_eq, not_true_eq_false, ↓reduceIte]
    rcases a with ⟨ida, fa, da⟩
    rcases b with ⟨idb, fb, db⟩
    simp only [UnversionedValue.type] at ht hcb ⊢
    cases da <;> cases db <;> simp only [ValueData.type, reduceCtorEq] at ht
    case composite.composite => exact ha.elim
    case any.any va vb =>
      obtain ⟨na, hna, hda, hsa⟩ := ha
      obtain ⟨nb, hnb, hdb, hsb⟩ := hb
      simp only [ValueData.type, ↓reduceIte, compareComplexValues, UnversionedValue.asStringBuf,
        hsa, hsb, compareYsonValues_eq hna hnb hda hdb, ternaryCompare_snd]
      rfl
    all_goals simp only [ValueData.type, reduceCtorEq, ↓reduceIte, compareData]
    case int64.int64 => rw [ternaryCompare_number WithTop.coe_strictMono]
    case uint64.uint64 => rw [ternaryCompare_number strictMono_coe_nat]
    case double.double => rw [nanSafeTernaryCompare_eq, ternaryCompare_fst]
    case boolean.boolean => rw [ternaryCompare_number strictMono_coe_bool]
    case string.string => rw [ternaryCompare_snd, ternaryCompare_fst]
    all_goals rw [ternaryCompare_self]
  · -- different types: the types decide
    rw [valueKey, valueKey, ternaryCompare_toLex, if_neg fun h => ht (code_injective h)]
    simp only [hca, hcb, or_self, ne_eq, ht, not_false_eq_true, ↓reduceIte, ite_self]

end

/-- A comparison is a total preorder on some values: it returns, is reflexive, antisymmetric up to
equality and transitive. -/
structure TotalPreorderOn {α : Type} (domain : α → Prop) (compare : α → α → Result ℤ) : Prop where
  returns : ∀ a b, domain a → domain b → ∃ r, compare a b = .ok r
  refl : ∀ a, domain a → compare a a = .ok 0
  antisymm : ∀ a b r, domain a → domain b → compare a b = .ok r → compare b a = .ok (-r)
  trans : ∀ a b c r s, domain a → domain b → domain c → compare a b = .ok r → compare b c = .ok s →
    r ≤ 0 → s ≤ 0 → ∃ t, compare a c = .ok t ∧ t ≤ 0 ∧ (t = 0 → r = 0 ∧ s = 0)

theorem TotalPreorderOn.ofKey {α β : Type} [LinearOrder β] {domain : α → Prop}
    {compare : α → α → Result ℤ} (key : α → β)
    (h : ∀ a b, domain a → domain b → compare a b = .ok (ternaryCompare (key a) (key b))) :
    TotalPreorderOn domain compare where
  returns a b ha hb := ⟨_, h a b ha hb⟩
  refl a ha := by rw [h a a ha ha, ternaryCompare_self]
  antisymm a b r ha hb hr := by
    rw [h a b ha hb, Except.ok.injEq] at hr
    rw [h b a hb ha, ternaryCompare_neg, hr]
  trans a b c r s ha hb hc hr hs hr0 hs0 := by
    rw [h a b ha hb, Except.ok.injEq] at hr
    rw [h b c hb hc, Except.ok.injEq] at hs
    subst hr hs
    rw [ternaryCompare_le] at hr0 hs0
    refine ⟨_, h a c ha hc, ternaryCompare_le.mpr (hr0.trans hs0), fun h0 => ?_⟩
    rw [ternaryCompare_eq_zero] at h0
    rw [ternaryCompare_eq_zero, ternaryCompare_eq_zero]
    have hab : key a = key b := le_antisymm hr0 (by rw [h0]; exact hs0)
    exact ⟨hab, hab ▸ h0⟩

/-- Row values are totally preordered, and so are nodes without maps and attributes. -/
theorem compareRowValues_preorder (scan : Bytes → Scan) :
    TotalPreorderOn (Orderable scan) (compareRowValues scan) ∧
    TotalPreorderOn (fun node : YsonNode => node.Plain ∧ node.depth < nestingLevelLimit)
      (fun lhs rhs => compareYsonValues lhs.scan rhs.scan) :=
  ⟨.ofKey (valueKey scan) fun _ _ => compareRowValues_eq,
    .ofKey (fun node => streamKey node.items) fun _ _ ha hb => compareYsonValues_eq ha.1 hb.1 ha.2 hb.2⟩

theorem compareLoop_nested : ∀ (n : ℕ) {rest : List YsonItem} {fuel level : ℕ}, level + n + 1 =
    nestingLevelLimit → n < fuel → compareLoop fuel ⟨(nested n).items ++ rest, none, level⟩
      ⟨(nested n).items ++ rest, none, level⟩ =
      .error (.exception "Depth limit exceeded while parsing YSON")
  | n, _, 0, _, _, hf => by omega
  | 0, rest, fuel + 1, level, hl, _ => by
    have hd : ¬LevelOk .beginList level := fun h => by
      have : level + 1 < nestingLevelLimit := h
      omega
    rw [compareLoop, nested, items, List.cons_append, next_error hd]
    rfl
  | n + 1, rest, fuel + 1, level, hl, hf => by
    have hb : LevelOk .beginList level := show level + 1 < nestingLevelLimit by omega
    rw [nested, items, itemsOfList, itemsOfList, List.append_nil, List.cons_append,
      List.append_assoc, compareLoop_cons (by decide) (by decide) hb hb,
        if_neg (by simp [ternaryCompare_self])]
    exact compareLoop_nested n (by simp only [levelAfter, YsonItem.type]; omega) (by omega)

theorem compareYsonValues_nested {n : ℕ} (hn : n + 1 = nestingLevelLimit) :
    compareYsonValues (nested n).scan (nested n).scan =
      .error (.exception "Depth limit exceeded while parsing YSON") := by
  have h := nested_items_length n
  have hl : compareLoop ((nested n).items.length + 1) ⟨(nested n).items ++ [], none, 0⟩
      ⟨(nested n).items ++ [], none, 0⟩ =
          .error (.exception "Depth limit exceeded while parsing YSON") :=
    compareLoop_nested n (by omega) (by omega)
  rwa [List.append_nil] at hl

theorem compareRowValues_nested {n : ℕ} (hn : n + 1 = nestingLevelLimit) :
    compareRowValues (fun _ => (nested n).scan) ⟨0, 0, .any []⟩ ⟨0, 0, .any []⟩ =
      .error (.exception "Cannot compare complex values") := by
  simp only [compareRowValues, UnversionedValue.type, ValueData.type, or_self, ne_eq,
    not_true_eq_false, ↓reduceIte, compareComplexValues, compareYsonValues_nested hn]

/-- A list that nests 256 deep is not even compared with itself. -/
theorem compareRowValues_deep : (YsonNode.nested 255).Plain ∧
    compareRowValues (fun _ => (YsonNode.nested 255).scan) ⟨0, 0, .any []⟩ ⟨0, 0, .any []⟩ =
      .error (.exception "Cannot compare complex values") :=
  ⟨YsonNode.nested_plain 255, compareRowValues_nested rfl⟩

/-! ### Hashes and equalities -/

section

variable {H : Type} (F : Fingerprint H) (scan : Bytes → Scan)

def getFarmFingerprint (value : UnversionedValue) : Result H :=
  match value.data with
  | .string value => .ok (F.bytes value)
  | .int64 value => .ok (F.one (F.number value))
  | .uint64 value => .ok (F.one (F.number value))
  | .double value => .ok (F.one (F.number value))
  | .boolean value => .ok (F.one (F.number (if value then 1 else 0)))
  | .null => .ok (F.one (F.number 0))
  | .composite value | .any value => compositeFarmHash F (scan value)
  | .min | .theBottom | .max =>
    .error (.exception ("Cannot hash values of type \"" ++ typeText value.type ++
      "\"; only scalar types are allowed for key columns"))

def defaultUnversionedValueHash (value : UnversionedValue) : Result H :=
  getFarmFingerprint F scan value

def defaultUnversionedValueEqual (lhs rhs : UnversionedValue) : Result Bool :=
  valuesEqual scan lhs rhs

end

def bitwiseUnversionedValueHash (splitMix : BitVec 64 → BitVec 64) (xxh3 : Bytes → BitVec 64)
    (value : UnversionedValue) : BitVec 64 :=
  let result := value.id.setWidth 64 ||| (BitVec.ofNat 64 value.type.code <<< 16) |||
    (value.flags.setWidth 64 <<< 24)
  match value.data with
  | .int64 value => result ^^^ splitMix value
  | .uint64 value => result ^^^ splitMix value
  | .double value => result ^^^ splitMix value
  | .boolean value => result ^^^ splitMix (if value then 1 else 0)
  | .string value | .any value | .composite value => result ^^^ xxh3 value
  | _ => result

def bitwiseUnversionedValueEqual (lhs rhs : UnversionedValue) : Bool :=
  if lhs.id ≠ rhs.id then false
  else if lhs.flags ≠ rhs.flags then false
  else if lhs.type ≠ rhs.type then false
  else
    match lhs.data, rhs.data with
    | .int64 lhs, .int64 rhs => lhs = rhs
    | .uint64 lhs, .uint64 rhs => lhs = rhs
    | .double lhs, .double rhs => nanSafeTernaryCompare lhs rhs = 0
    | .boolean lhs, .boolean rhs => lhs = rhs
    | .string lhs, .string rhs | .any lhs, .any rhs | .composite lhs, .composite rhs => lhs = rhs
    | _, _ => true

/-! ### Doubles in streams -/

def doubleOf : YsonItem → Option Binary64
  | .doubleValue value => some value
  | _ => none

/-- The last double of a stream. -/
def lastDouble : List YsonItem → Option Binary64
  | [] => none
  | x :: xs => (lastDouble xs).or (doubleOf x)

theorem itemKey_eq {x y : YsonItem} (hx : Comparable x) (hy : Comparable y)
    (h : itemKey x = itemKey y) : x = y ∨ ∃ d e, x = .doubleValue d ∧ y = .doubleValue e := by
  have ht := type_eq_of_itemKey hx hy h
  have hc : content x = content y := (Prod.ext_iff.mp (toLex.injective h)).2
  cases x <;> cases y <;> simp only [YsonItem.type, reduceCtorEq] at ht
  all_goals first | exact absurd rfl hx | exact .inl rfl | exact .inr ⟨_, _, rfl, rfl⟩ | skip
  all_goals
    simp only [content, EmbeddingLike.apply_eq_iff_eq, Prod.mk.injEq, and_true, true_and,
      WithTop.coe_inj] at hc
    left
  case booleanValue.booleanValue a b => cases a <;> cases b <;>
    first | rfl | exact absurd hc (by decide)
  case int64Value.int64Value => rw [BitVec.toInt_inj.mp hc]
  case uint64Value.uint64Value => rw [BitVec.toNat_inj.mp (Int.ofNat_inj.mp hc)]
  case stringValue.stringValue => rw [hc]

/-- Two streams of the same items up to the bits of doubles. -/
abbrev SameItems := List.Forall₂ fun x y : YsonItem => x = y ∨ ∃ d e, x = .doubleValue d ∧
    y = .doubleValue e

theorem sameItems_of_streamKey : ∀ {xs ys : List YsonItem}, (∀ x ∈ xs, Comparable x) →
    (∀ y ∈ ys, Comparable y) → streamKey xs = streamKey ys → SameItems xs ys
  | [], [], _, _, _ => .nil
  | x :: xs, y :: ys, hxs, hys, h => by
    obtain ⟨hk, ht⟩ := List.cons.inj h
    exact .cons (itemKey_eq (hxs x (by simp)) (hys y (by simp)) hk)
      (sameItems_of_streamKey (fun x hx => hxs x (by simp [hx])) (fun y hy => hys y (by simp [hy])) ht)

variable {xs ys : List YsonItem}

theorem lastDouble_isSome (h : SameItems xs ys) :
    (lastDouble xs).isSome = (lastDouble ys).isSome := by
  induction h with
  | nil => rfl
  | @cons x y xs ys hxy _ ih =>
    rw [lastDouble, lastDouble, Option.isSome_or, Option.isSome_or, ih]
    rcases hxy with rfl | ⟨d, e, rfl, rfl⟩ <;> rfl

theorem lastDouble_cons_eq {x y : YsonItem} (h : SameItems (x :: xs) (y :: ys))
    (hl : lastDouble (x :: xs) = lastDouble (y :: ys)) :
    lastDouble xs = lastDouble ys ∧ (lastDouble xs = none → x = y) := by
  obtain ⟨hxy, ht⟩ := List.forall₂_cons.mp h
  have hs := lastDouble_isSome ht
  rw [lastDouble, lastDouble] at hl
  cases hxs : lastDouble xs <;> cases hys : lastDouble ys <;> rw [hxs, hys] at hs hl <;>
    simp only [Option.isSome_none, Option.isSome_some, Bool.false_eq_true, reduceCtorEq] at hs
  · refine ⟨rfl, fun _ => ?_⟩
    rcases hxy with rfl | ⟨d, e, rfl, rfl⟩
    · rfl
    · rw [Option.some.inj hl]
  · exact ⟨hl, fun h => by cases h⟩

section

variable {H : Type} (F : Fingerprint H)

theorem foldl_mixItem_congr {xs ys : List YsonItem} (h : SameItems xs ys) : ∀ {r r' : H},
    lastDouble xs = lastDouble ys → (lastDouble xs = none → r = r') →
      xs.foldl (mixItem F) r = ys.foldl (mixItem F) r' := by
  induction h with
  | nil =>
    intro r r' _ hr
    exact hr rfl
  | @cons x y xs ys hxy ht ih =>
    intro r r' hl hr
    obtain ⟨hl', hh⟩ := lastDouble_cons_eq (.cons hxy ht) hl
    refine ih hl' fun hn => ?_
    obtain rfl := hh hn
    rw [lastDouble, hn, Option.none_or] at hr
    cases x with
    | doubleValue d => rfl
    | _ => rw [hr rfl]

theorem foldItems_congr {xs ys : List YsonItem} (h : SameItems xs ys)
    (hl : lastDouble xs = lastDouble ys) : foldItems F xs = foldItems F ys := by
  cases h with
  | nil => rfl
  | @cons x y xs ys hxy ht =>
    obtain ⟨hl', hh⟩ := lastDouble_cons_eq (.cons hxy ht) hl
    exact foldl_mixItem_congr F ht hl' fun hn => by rw [hh hn]

end

/-- Fingerprints that add, so that a changed double shows in the hash. -/
def sumFingerprint : Fingerprint (BitVec 64) :=
  ⟨fun value => value, fun value => value, (· + ·), fun _ => 0⟩

theorem foldl_sumFingerprint (h : SameItems xs ys) : ∀ r r' : BitVec 64,
    xs.foldl (mixItem sumFingerprint) r + (lastDouble ys).getD r' =
      ys.foldl (mixItem sumFingerprint) r' + (lastDouble xs).getD r := by
  induction h with
  | nil => exact fun r r' => add_comm _ _
  | @cons x y xs ys hxy ht ih =>
    intro r r'
    have hs := lastDouble_isSome ht
    have ih := ih (mixItem sumFingerprint r x) (mixItem sumFingerprint r' y)
    rw [List.foldl_cons, List.foldl_cons, lastDouble, lastDouble]
    cases hxs : lastDouble xs <;> cases hys : lastDouble ys <;> rw [hxs, hys] at hs ih <;>
      simp only [Option.isSome_none, Option.isSome_some, Bool.false_eq_true, reduceCtorEq] at hs
    · rcases hxy with rfl | ⟨d, e, rfl, rfl⟩
      · cases x with
        | doubleValue d => exact ih
        | _ =>
          simp only [mixItem, sumFingerprint, Option.getD_none, Option.none_or, doubleOf] at ih ⊢
          linear_combination ih
      · exact ih
    · exact ih

theorem lastDouble_of_sumFingerprint (h : SameItems xs ys)
    (heq : foldItems sumFingerprint xs = foldItems sumFingerprint ys) :
      lastDouble xs = lastDouble ys := by
  cases h with
  | nil => rfl
  | @cons x y xs ys hxy ht =>
    have hsome := lastDouble_isSome ht
    have hsum := foldl_sumFingerprint ht (firstItem sumFingerprint x) (firstItem sumFingerprint y)
    rw [foldItems, foldItems] at heq
    rw [heq, add_right_inj] at hsum
    rw [lastDouble, lastDouble]
    cases hxs : lastDouble xs <;> cases hys : lastDouble ys <;> rw [hxs, hys] at hsome hsum <;>
      simp only [Option.isSome_none, Option.isSome_some, Bool.false_eq_true, reduceCtorEq] at hsome
    · rcases hxy with rfl | ⟨d, e, rfl, rfl⟩
      · rfl
      · exact congrArg some hsum.symm
    · exact congrArg some hsum.symm

/-! ### Equal values and their hashes -/

section

variable {scan : Bytes → Scan}

def WellFormed (scan : Bytes → Scan) (value : UnversionedValue) : Prop :=
  match value.data with
  | .any value | .composite value => ∃ node : YsonNode, node.Plain ∧ scan value = node.scan
  | _ => True

/-- The last double of a value: the double, or the last one of a node. -/
def lastDoubleOf (scan : Bytes → Scan) (value : UnversionedValue) : Option Binary64 :=
  match value.data with
  | .double value => some value
  | .any value | .composite value => lastDouble (scan value).items
  | _ => none

variable {a b : UnversionedValue}

theorem valuesEqual_eq : valuesEqual scan a b = .ok true ↔ compareRowValues scan a b = .ok 0 := by
  unfold valuesEqual
  cases compareRowValues scan a b with
  | error e => exact iff_of_false nofun nofun
  | ok r => simp

theorem compareComplexValues_zero (h : compareComplexValues scan a b = .ok 0) :
    compareYsonValues (scan a.asStringBuf) (scan b.asStringBuf) = .ok 0 := by
  unfold compareComplexValues at h
  split at h
  · cases h
  · exact h

theorem type_of_compareRowValues (h : compareRowValues scan a b = .ok 0) : a.type = b.type := by
  by_contra hne
  have hc : ternaryCompare a.type.code b.type.code ≠ 0 :=
    fun h0 => hne (code_injective (ternaryCompare_eq_zero.mp h0))
  unfold compareRowValues throwIncomparableTypes at h
  split_ifs at h <;> exact hc (Except.ok.inj h)

theorem node_of_compareYsonValues {a b : YsonNode} (ha : a.Plain) (hb : b.Plain)
    (h : compareYsonValues a.scan b.scan = .ok 0) : SameItems a.items b.items ∧
      ∀ {H : Type} (F : Fingerprint H), compositeFarmHash F a.scan = .ok (foldItems F a.items) ∧
        compositeFarmHash F b.scan = .ok (foldItems F b.items) := by
  have hca := comparable_items ha
  have hcb := comparable_items hb
  obtain ⟨hla, hlb, hk⟩ := compareLoop_zero hca hcb h
  obtain ⟨x, xs, hx, -⟩ := items_opens ha
  obtain ⟨y, ys, hy, -⟩ := items_opens hb
  exact ⟨sameItems_of_streamKey hca hcb hk, fun F =>
    ⟨compositeFarmHash_eq F (by simp [hx]) hca hla, compositeFarmHash_eq F (by simp [hy]) hcb hlb⟩⟩

theorem compareData_zero {a b : ValueData} (ht : a.type = b.type) (ha : a.type ≠ .any)
    (hc : a.type ≠ .composite)
    (h : compareData a b = 0) : a = b ∨ ∃ d e, a = .double d ∧ b = .double e := by
  cases a <;> cases b <;> simp only [ValueData.type, reduceCtorEq] at ht
  case any.any => exact absurd rfl ha
  case composite.composite => exact absurd rfl hc
  case double.double d e => exact .inr ⟨d, e, rfl, rfl⟩
  case int64.int64 => rw [BitVec.toInt_inj.mp (ternaryCompare_eq_zero.mp h)]; exact .inl rfl
  case uint64.uint64 => rw [BitVec.toNat_inj.mp (ternaryCompare_eq_zero.mp h)]; exact .inl rfl
  case boolean.boolean => rw [ternaryCompare_eq_zero.mp h]; exact .inl rfl
  case string.string => rw [ternaryCompare_eq_zero.mp h]; exact .inl rfl
  all_goals exact .inl rfl

/-- Equal values hash equally exactly when their last doubles have the same bits. -/
theorem defaultHash_iff (ha : WellFormed scan a) (hb : WellFormed scan b)
    (h : compareRowValues scan a b = .ok 0) :
    (∀ F : Fingerprint (BitVec 64), defaultUnversionedValueHash F scan a =
      defaultUnversionedValueHash F scan b) ↔ lastDoubleOf scan a = lastDoubleOf scan b := by
  have ht := type_of_compareRowValues h
  rcases a with ⟨ida, fa, da⟩
  rcases b with ⟨idb, fb, db⟩
  simp only [UnversionedValue.type] at ht
  -- values that hold nodes
  have hnodes : ∀ va vb : Bytes, (∃ node : YsonNode, node.Plain ∧ scan va = node.scan) →
      (∃ node : YsonNode, node.Plain ∧ scan vb = node.scan) →
        compareYsonValues (scan va) (scan vb) = .ok 0 →
      ((∀ F : Fingerprint (BitVec 64), compositeFarmHash F (scan va) = compositeFarmHash F
          (scan vb)) ↔ lastDouble (scan va).items = lastDouble (scan vb).items) := by
    intro va vb ⟨na, hna, hsa⟩ ⟨nb, hnb, hsb⟩ hz
    rw [hsa, hsb] at hz ⊢
    obtain ⟨hsame, hh⟩ := node_of_compareYsonValues hna hnb hz
    constructor
    · intro hF
      have hsum := hF sumFingerprint
      rw [(hh sumFingerprint).1, (hh sumFingerprint).2, Except.ok.injEq] at hsum
      exact lastDouble_of_sumFingerprint hsame hsum
    · intro hl F
      rw [(hh F).1, (hh F).2, foldItems_congr F hsame hl]
  by_cases hany : da.type = .any
  · cases da <;> cases db <;> simp only [ValueData.type, reduceCtorEq] at ht hany
    exact hnodes _ _ ha hb (compareComplexValues_zero h)
  by_cases hc : da.type = .composite
  · cases da <;> cases db <;> simp only [ValueData.type, reduceCtorEq] at ht hc
    exact hnodes _ _ ha hb (compareComplexValues_zero h)
  -- scalars
  have hd : compareData da db = 0 := by
    unfold compareRowValues at h
    simp only [UnversionedValue.type, ← ht, hany, hc, or_self, ne_eq, not_true_eq_false, ↓reduceIte] at h
    exact Except.ok.inj h
  rcases compareData_zero ht hany hc hd with rfl | ⟨d, e, rfl, rfl⟩
  · exact iff_of_true (fun _ => rfl) rfl
  · constructor
    · intro hF
      exact congrArg some (Except.ok.inj (hF sumFingerprint))
    · intro hl F
      rw [show d = e from Option.some.inj hl]
      rfl

theorem bitwiseEqual_cases (h : bitwiseUnversionedValueEqual a b = true) :
    a = b ∨ ∃ d e, a = ⟨b.id, b.flags, .double d⟩ ∧ b = ⟨b.id, b.flags, .double e⟩ ∧
      nanSafeTernaryCompare d e = 0 := by
  rcases a with ⟨ida, fa, da⟩
  rcases b with ⟨idb, fb, db⟩
  unfold bitwiseUnversionedValueEqual at h
  split_ifs at h with hid hf ht
  simp only [ne_eq, not_not] at hid hf ht
  obtain rfl := hid
  obtain rfl := hf
  cases da <;> cases db <;> simp only [UnversionedValue.type, ValueData.type, reduceCtorEq] at ht
  case double.double d e => exact .inr ⟨d, e, rfl, rfl, by simpa using h⟩
  all_goals first | exact .inl rfl | (left; simpa using h)

/-- Equal values hash equally, by both equalities and their hashes, exactly when their last doubles
have the same bits or they are not equal. -/
theorem hash_of_equal_iff {a b : UnversionedValue} (ha : WellFormed scan a)
    (hb : WellFormed scan b) :
    ((∀ F : Fingerprint (BitVec 64), defaultUnversionedValueEqual scan a b = .ok true →
        defaultUnversionedValueHash F scan a = defaultUnversionedValueHash F scan b) ∧
      ∀ (splitMix : BitVec 64 → BitVec 64) (xxh3 : Bytes → BitVec 64),
        bitwiseUnversionedValueEqual a b = true →
        bitwiseUnversionedValueHash splitMix xxh3 a = bitwiseUnversionedValueHash splitMix xxh3 b) ↔
      (defaultUnversionedValueEqual scan a b = .ok true →
        lastDoubleOf scan a = lastDoubleOf scan b) := by
  constructor
  · rintro ⟨hdefault, -⟩ heq
    exact (defaultHash_iff ha hb (valuesEqual_eq.mp heq)).mp fun F => hdefault F heq
  · intro hlast
    refine ⟨fun F heq => (defaultHash_iff ha hb (valuesEqual_eq.mp heq)).mpr (hlast heq) F,
      fun splitMix xxh3 hbit => ?_⟩
    rcases bitwiseEqual_cases hbit with rfl | ⟨d, e, hda, hdb, hzero⟩
    · rfl
    · -- doubles that are equal bit by bit are equal by the order too
      have hcmp : compareRowValues scan a b = .ok 0 := by
        rw [hda, hdb]
        exact congrArg Except.ok hzero
      have hbits := hlast (valuesEqual_eq.mpr hcmp)
      rw [hda, hdb] at hbits ⊢
      rw [show d = e from Option.some.inj hbits]

end

/-- Two lists that differ in the sign of a zero before their last double are equal and hash equally.
-/
theorem hash_of_equal_lists :
    let node (zero : Binary64) : YsonNode := .list [.int64 5, .double zero, .double 1]
    let scan (bytes : Bytes) : Scan := if bytes = [] then (node 0).scan
      else (node 0x8000000000000000).scan
    defaultUnversionedValueEqual scan ⟨0, 0, .any []⟩ ⟨0, 0, .any [1]⟩ = .ok true ∧
      defaultUnversionedValueHash sumFingerprint scan ⟨0, 0, .any []⟩ =
        defaultUnversionedValueHash sumFingerprint scan ⟨0, 0, .any [1]⟩ := by
  intro node scan
  have ha : WellFormed scan ⟨0, 0, .any []⟩ := ⟨node 0, by simp [node, Plain, PlainList], rfl⟩
  have hb : WellFormed scan ⟨0, 0, .any [1]⟩ :=
    ⟨node 0x8000000000000000, by simp [node, Plain, PlainList], rfl⟩
  have heq : defaultUnversionedValueEqual scan ⟨0, 0, .any []⟩ ⟨0, 0, .any [1]⟩ =
    .ok true := by decide
  exact ⟨heq, ((hash_of_equal_iff ha hb).mpr fun _ => rfl).1 sumFingerprint heq⟩

/-- Zero and negative zero are equal, by both equalities, and do not hash equally, by both hashes.
-/
theorem hash_of_zeros : defaultUnversionedValueEqual (fun _ => ⟨[], none⟩) ⟨0, 0, .double 0⟩
      ⟨0, 0, .double 0x8000000000000000⟩ = .ok true ∧
    defaultUnversionedValueHash sumFingerprint (fun _ => ⟨[], none⟩) ⟨0, 0, .double 0⟩ ≠
      defaultUnversionedValueHash sumFingerprint (fun _ => ⟨[], none⟩)
        ⟨0, 0, .double 0x8000000000000000⟩ ∧
    bitwiseUnversionedValueEqual ⟨0, 0, .double 0⟩ ⟨0, 0, .double 0x8000000000000000⟩ = true ∧
    bitwiseUnversionedValueHash (fun value => value) (fun _ => 0) ⟨0, 0, .double 0⟩ ≠
      bitwiseUnversionedValueHash (fun value => value) (fun _ => 0)
        ⟨0, 0, .double 0x8000000000000000⟩ := by
  decide

end Ytsaurus.TableClient.Unversioned
