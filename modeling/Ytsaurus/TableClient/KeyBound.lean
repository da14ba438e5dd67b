/-
# Key bounds

`client/table_client/key_bound.cpp`: a key bound is a ray of the space of keys,
given by a prefix, a direction and its inclusiveness. `FromRow` refuses rows
with sentinels, so a prefix is a list of data values; a null bound has no
prefix.
-/
import Ytsaurus.TableClient.Value

namespace Ytsaurus.TableClient

/-- A key: a row of data values. -/
abbrev Key (α : Type) := List α

/-- A key bound; without a prefix it is null (the source's `std::nullopt` of
key bounds). -/
structure KeyBound (α : Type) where
  keyPrefix : Option (List α) := none
  isInclusive : Bool := false
  isUpper : Bool := false
  deriving DecidableEq, Repr

section

variable {α : Type}

/-- `ValidateDataValueType`: the data value, if it is one. -/
def validateDataValueType : Value α → Result α
  | .data a => .ok a
  | .min => .error (.exception "Invalid data value type \"min\"")
  | .theBottom => .error (.exception "Invalid data value type \"the_bottom\"")
  | .max => .error (.exception "Invalid data value type \"max\"")

namespace KeyBound

/-- `ValidateValueTypes`: the row as a list of data values. -/
def validateValueTypes (row : Row α) : Result (List α) := row.mapM validateDataValueType

/-- `FromRow` of a row that is not null. -/
def fromRow (row : Row α) (isInclusive isUpper : Bool) : Result (KeyBound α) := do
  let values ← validateValueTypes row
  return ⟨some values, isInclusive, isUpper⟩

def makeUniversal (isUpper : Bool) : KeyBound α := ⟨some [], true, isUpper⟩

def invert (bound : KeyBound α) : Result (KeyBound α) := do
  ytVerify bound.keyPrefix.isSome
  return ⟨bound.keyPrefix, !bound.isInclusive, !bound.isUpper⟩

def toggleInclusiveness (bound : KeyBound α) : Result (KeyBound α) := do
  ytVerify bound.keyPrefix.isSome
  return ⟨bound.keyPrefix, !bound.isInclusive, bound.isUpper⟩

/-- The values of the prefix; a null row has none. -/
def values (bound : KeyBound α) : List α := bound.keyPrefix.getD []

end KeyBound

theorem validateValueTypes_map_data : ∀ xs : List α,
    KeyBound.validateValueTypes (xs.map Value.data) = .ok xs
  | [] => rfl
  | x :: xs => by
    have ih := validateValueTypes_map_data xs
    simp only [KeyBound.validateValueTypes] at ih ⊢
    rw [List.map_cons, List.mapM_cons, ih]
    rfl

theorem fromRow_map_data (xs : List α) (isInclusive isUpper : Bool) : KeyBound.fromRow
      (xs.map Value.data) isInclusive isUpper = .ok ⟨some xs, isInclusive, isUpper⟩ := by
  rw [KeyBound.fromRow, validateValueTypes_map_data]
  rfl

end

end Ytsaurus.TableClient
