/-
# Unversioned values and rows

The values of `client/table_client/unversioned_row.cpp`, as `CompareRowValues`
sees them. A value is a sentinel (`Min`, `TheBottom`, `Max`) or a data value;
the types of the data values (null, integers, doubles, booleans, strings, any)
lie between `TheBottom` and `Max`, and what the code asks of them is their
order only, so they are an arbitrary linear order `α`. Two values that
`CompareRowValues` calls equal are one value here.

A row is the list of its values, and a null row is `none`. `CompareValueRanges`
is the lexicographic order of the lists, in which a proper initial part comes
first (`compareValueRanges_lt`).
-/
import Ytsaurus.Lib.Result
import Ytsaurus.Lib.TernaryCompare

namespace Ytsaurus.TableClient

/-- An unversioned value: a sentinel or a data value. -/
inductive Value (α : Type) where
  | min
  | theBottom
  | data (a : α)
  | max
  deriving DecidableEq, Repr

variable {α : Type}

/-- The rank of a value's type in `EValueType`, all data types taken together. -/
def Value.rank : Value α → ℕ
  | .min => 0
  | .theBottom => 1
  | .data _ => 2
  | .max => 3

variable [LinearOrder α]

/-- `CompareRowValues`: by type first, all sentinels of one type are equal. -/
def compareRowValues : Value α → Value α → ℤ
  | .data a, .data b => ternaryCompare a b
  | lhs, rhs => ternaryCompare lhs.rank rhs.rank

theorem compareRowValues_neg (a b : Value α) : compareRowValues a b = -compareRowValues b a := by
  cases a <;> cases b <;> exact ternaryCompare_neg _ _

theorem compareRowValues_self (a : Value α) : compareRowValues a a = 0 := by
  cases a <;> simp [compareRowValues, ternaryCompare]

/-- The order of values: `operator<` and `operator<=` are signs of `CompareRowValues`. -/
instance : LE (Value α) := ⟨fun a b => compareRowValues a b ≤ 0⟩

instance : LT (Value α) := ⟨fun a b => compareRowValues a b < 0⟩

variable {a b : Value α}

theorem Value.le_def : a ≤ b ↔ compareRowValues a b ≤ 0 := Iff.rfl

theorem Value.lt_def : a < b ↔ compareRowValues a b < 0 := Iff.rfl

instance : LinearOrder (Value α) where
  le_refl a := by rw [Value.le_def, compareRowValues_self]
  le_trans a b c hab hbc := by
    rw [Value.le_def] at *
    cases a <;> cases b <;> cases c <;>
      simp only [compareRowValues, ternaryCompare_le, Value.rank] at hab hbc ⊢ <;>
      first | omega | exact le_trans hab hbc
  lt_iff_le_not_ge a b := by
    have h := compareRowValues_neg a b
    rw [Value.lt_def, Value.le_def, Value.le_def]
    omega
  le_antisymm a b hab hba := by
    rw [Value.le_def] at *
    cases a <;> cases b <;> simp only [compareRowValues, ternaryCompare_le, Value.rank] at hab hba <;>
      first | rfl | omega | rw [le_antisymm hab hba]
  le_total a b := by
    have h := compareRowValues_neg a b
    simp only [Value.le_def]
    omega
  toDecidableLE a b := inferInstanceAs (Decidable (compareRowValues a b ≤ 0))
  toDecidableEq := inferInstance
  toDecidableLT a b := inferInstanceAs (Decidable (compareRowValues a b < 0))

theorem compareRowValues_eq_zero : compareRowValues a b = 0 ↔ a = b := by
  constructor
  · intro h
    have h' := compareRowValues_neg a b
    exact le_antisymm (Value.le_def.mpr (by omega)) (Value.le_def.mpr (by omega))
  · rintro rfl
    exact compareRowValues_self a

@[simp] theorem Value.min_le (a : Value α) : Value.min ≤ a := by
  cases a <;> simp [Value.le_def, compareRowValues, ternaryCompare_le, Value.rank]

@[simp] theorem Value.le_max (a : Value α) : a ≤ Value.max := by
  cases a <;> simp [Value.le_def, compareRowValues, ternaryCompare_le, Value.rank]

@[simp] theorem Value.data_le_data {a b : α} : Value.data a ≤ Value.data b ↔ a ≤ b :=
  ternaryCompare_le

@[simp] theorem Value.data_lt_data {a b : α} : Value.data a < Value.data b ↔ a < b :=
  ternaryCompare_lt

@[simp] theorem Value.min_lt_data (a : α) : Value.min < Value.data a :=
  Value.lt_def.mpr (ternaryCompare_lt.mpr (by simp [Value.rank]))

@[simp] theorem Value.data_lt_max (a : α) : Value.data a < Value.max :=
  Value.lt_def.mpr (ternaryCompare_lt.mpr (by simp [Value.rank]))

@[simp] theorem Value.min_lt_max : (Value.min : Value α) < Value.max :=
  Value.lt_def.mpr (ternaryCompare_lt.mpr (by simp [Value.rank]))

/-! ### Rows -/

variable (α) in
abbrev Row := List (Value α)

def compareValueRanges : Row α → Row α → ℤ
  | l :: ls, r :: rs =>
    let result := compareRowValues l r
    if result ≠ 0 then result else compareValueRanges ls rs
  | lhs, rhs => (lhs.length : ℤ) - rhs.length

theorem compareValueRanges_lt : ∀ {lhs rhs : Row α}, compareValueRanges lhs rhs < 0 ↔ lhs < rhs
  | [], [] => by simp [compareValueRanges]
  | [], r :: rs | l :: ls, [] => by simp [compareValueRanges]; omega
  | l :: ls, r :: rs => by
    rw [compareValueRanges, List.cons_lt_cons_iff]
    by_cases h : compareRowValues l r = 0
    · obtain rfl := compareRowValues_eq_zero.mp h
      simp [compareRowValues_self, compareValueRanges_lt]
    · have hlr : l ≠ r := fun e => h (compareRowValues_eq_zero.mpr e)
      simp only [ne_eq, h, not_false_eq_true, ↓reduceIte, hlr, false_and, or_false, Value.lt_def]

theorem compareValueRanges_neg :
    ∀ lhs rhs : Row α, compareValueRanges lhs rhs = -compareValueRanges rhs lhs
  | [], [] | [], r :: rs | l :: ls, [] => by simp [compareValueRanges]
  | l :: ls, r :: rs => by
    simp only [compareValueRanges, compareRowValues_neg l r, compareValueRanges_neg ls rs]
    split_ifs with h1 h2 <;> omega

/-- `CompareRows` without a prefix length: a null row comes first. -/
def compareRows : Option (Row α) → Option (Row α) → ℤ
  | none, none => 0
  | some _, none => 1
  | none, some _ => -1
  | some lhs, some rhs => compareValueRanges lhs rhs

end Ytsaurus.TableClient
