/-
# Legacy rows as key bounds

`client/table_client/key_bound.cpp`: a legacy bound is a row with sentinels,
excluded above and included below, that is compared with keys by `CompareRows`.
The key bound made of it accepts the same keys, and the row made of a key
bound gives the bound back.
-/
import Ytsaurus.TableClient.Comparator

namespace Ytsaurus.TableClient

open List

section

variable {α : Type}

/-- What the loop of `GetBoundPrefixAndInclusiveness` finds in a row, with
`left` positions of the key left: the sentinel-free length, whether the row
goes on after a whole key, and the leftmost sentinel before that. -/
def scanLegacyRow : Row α → ℕ → ℕ × Bool × Option (Value α)
  | [], _ => (0, false, none)
  | _ :: _, 0 => (0, true, none)
  | .min :: _, _ + 1 => (0, false, some .min)
  | .max :: _, _ + 1 => (0, false, some .max)
  | _ :: row, left + 1 =>
    let (prefixLength, isLongRow, sentinel) := scanLegacyRow row left
    (prefixLength + 1, isLongRow, sentinel)

def getBoundPrefixAndInclusiveness [DecidableEq α] (row : Row α) (isUpper : Bool)
    (keyLength : ℕ) : ℕ × Bool :=
  let (prefixLength, isLongRow, leftmostSentinelType) := scanLegacyRow row keyLength
  let toggleInclusiveness := isLongRow || leftmostSentinelType == some .max
  let isInclusive := (isUpper && toggleInclusiveness) || (!isUpper && !toggleInclusiveness)
  (prefixLength, isInclusive)

def keyBoundFromLegacyRow [DecidableEq α] (row : Option (Row α)) (isUpper : Bool) (keyLength : ℕ) :
    Result (KeyBound α) :=
  match row with
  | none => .ok (KeyBound.makeUniversal isUpper)
  | some row =>
    let (prefixLength, isInclusive) := getBoundPrefixAndInclusiveness row isUpper keyLength
    KeyBound.fromRow (row.take prefixLength) isInclusive isUpper

def keyBoundToLegacyRow (keyBound : KeyBound α) : Option (Row α) :=
  match keyBound.keyPrefix with
  | none => none
  | some values =>
    let shouldAddMax := (keyBound.isUpper && keyBound.isInclusive) ||
      (!keyBound.isUpper && !keyBound.isInclusive)
    some (values.map Value.data ++ if shouldAddMax then [Value.max] else [])

/-- `ToKeyBoundRef` of a row. -/
def rowToKeyBoundRef [DecidableEq α] (row : Option (Row α)) (isUpper : Bool) (keyLength : ℕ) :
    KeyBoundRef α :=
  match row with
  | none => ⟨[], true, isUpper⟩
  | some row =>
    let (prefixLength, isInclusive) := getBoundPrefixAndInclusiveness row isUpper keyLength
    ⟨row.take prefixLength, isInclusive, isUpper⟩

/-! ### What a scan finds -/

def NoBottom (row : Row α) : Prop := Value.theBottom ∉ row

instance [DecidableEq α] (row : Row α) : Decidable (NoBottom row) :=
  inferInstanceAs (Decidable (¬_))

theorem scanLegacyRow_prefix : ∀ (row : Row α) (left : ℕ), NoBottom row →
    ∃ xs : List α, row.take (scanLegacyRow row left).1 = xs.map Value.data ∧ xs.length ≤ left
  | [], left, _ => ⟨[], by simp [scanLegacyRow]⟩
  | v :: row, 0, _ | .min :: row, left + 1, _
  | .max :: row, left + 1, _ => ⟨[], by simp [scanLegacyRow]⟩
  | .theBottom :: row, left + 1, h => absurd mem_cons_self h
  | .data a :: row, left + 1, h => by
    obtain ⟨xs, hxs, hl⟩ := scanLegacyRow_prefix row left fun hm => h (mem_cons_of_mem _ hm)
    exact ⟨a :: xs, by simp [scanLegacyRow, hxs], by simpa using hl⟩

/-- The flag that a scan leaves: the cut of the bound is after its prefix. -/
def toggles [DecidableEq α] (row : Row α) (left : ℕ) : Bool :=
  (scanLegacyRow row left).2.1 || (scanLegacyRow row left).2.2 == some .max

variable [LinearOrder α]

theorem below_scanLegacyRow : ∀ (row : Row α) (index : ℕ) (key : Key α), NoBottom row →
    (Lib.Below (fun _ => compareRowValues) index (key.map Value.data)
        (row.take (scanLegacyRow row key.length).1) (toggles row key.length) ↔ key.map Value.data < row)
  | [], _, key, _ => by cases key <;> simp [scanLegacyRow, toggles, Lib.Below]
  | v :: row, _, [], _ => by simp [scanLegacyRow, toggles, Lib.Below]
  | .min :: row, _, k :: key, _ => by
    simp [scanLegacyRow, toggles, Lib.Below, cons_lt_cons_iff, (Value.min_lt_data k).not_gt]
  | .max :: row, _, k :: key, _ => by
    simp [scanLegacyRow, toggles, Lib.Below, cons_lt_cons_iff]
  | .theBottom :: row, _, k :: key, h => absurd mem_cons_self h
  | .data a :: row, index, k :: key, h => by
    have ih := below_scanLegacyRow row (index + 1) key fun hm => h (mem_cons_of_mem _ hm)
    simp only [toggles] at ih
    simp only [scanLegacyRow, toggles, length_cons, map_cons, take_succ_cons, Lib.Below, ih,
      cons_lt_cons_iff, Value.lt_def, compareRowValues_eq_zero]

/-- The comparator of `n` ascending columns. -/
def ascendingComparator (n : ℕ) : Comparator := ⟨replicate n .ascending⟩

theorem compareValues_ascending (n : ℕ) :
    (ascendingComparator n).compareValues = fun _ => compareRowValues (α := α) := by
  funext index lhs rhs
  rw [Comparator.compareValues, if_neg]
  intro h
  have := eq_of_mem_replicate (mem_of_getElem? h)
  cases this

/-- The bound of a legacy row accepts the keys on the row's side of it. -/
theorem keyBoundFromLegacyRow_accepts (row : Row α) (isUpper : Bool) (n : ℕ) (hr : NoBottom row) :
    ∃ bound, keyBoundFromLegacyRow (some row) isUpper n = .ok bound ∧
      ∀ key : Key α, key.length = n →
        ((ascendingComparator n).Accepts bound key ↔
          if isUpper then key.map Value.data < row else ¬key.map Value.data < row) := by
  obtain ⟨xs, hxs, hl⟩ := scanLegacyRow_prefix row n hr
  let bound : KeyBound α :=
    ⟨some xs, (isUpper && toggles row n) || (!isUpper && !toggles row n), isUpper⟩
  have hb : keyBoundFromLegacyRow (some row) isUpper n = .ok bound := by
    simp only [keyBoundFromLegacyRow, getBoundPrefixAndInclusiveness, hxs, fromRow_map_data]
    rfl
  refine ⟨bound, hb, fun key hk => ?_⟩
  subst hk
  have hf : (ascendingComparator key.length).Fits bound := by
    simpa [Comparator.Fits, ascendingComparator, Comparator.getLength, bound, KeyBound.values] using hl
  have ha : (toKeyBoundRef bound).after = toggles row key.length := by
    cases h1 : isUpper <;> cases h2 : toggles row key.length <;>
      simp [toKeyBoundRef, KeyBoundRef.after, bound, h1, h2]
  rw [Comparator.accepts_iff (by simp [ascendingComparator, Comparator.getLength]) hf,
    Comparator.BelowBound, compareValues_ascending, ha, ← below_scanLegacyRow row 0 key hr, hxs]
  rfl

theorem scanLegacyRow_map_data : ∀ (xs : List α) (left : ℕ) (after : Bool), xs.length ≤ left →
    (scanLegacyRow (xs.map Value.data ++ if after then [Value.max] else []) left).1 = xs.length ∧
      toggles (xs.map Value.data ++ if after then [Value.max] else []) left = after
  | [], 0, after, _ | [], left + 1, after, _ => by cases after <;> simp [scanLegacyRow, toggles]
  | x :: xs, left + 1, after, h => by
    have ih := scanLegacyRow_map_data xs left after (by simpa using h)
    simp only [toggles] at ih
    simp only [map_cons, cons_append, scanLegacyRow, toggles, length_cons, ih.1, ih.2, and_self]

theorem keyBoundFromLegacyRow_toLegacyRow (bound : KeyBound α) (n : ℕ) (hs : bound.keyPrefix.isSome)
    (hl : bound.values.length ≤ n) :
    keyBoundFromLegacyRow (keyBoundToLegacyRow bound) bound.isUpper n = .ok bound := by
  rcases bound with ⟨_ | xs, isInclusive, isUpper⟩
  · simp at hs
  · obtain ⟨h1, h2⟩ := scanLegacyRow_map_data xs n
      ((isUpper && isInclusive) || (!isUpper && !isInclusive)) hl
    simp only [toggles] at h2
    simp only [keyBoundToLegacyRow, keyBoundFromLegacyRow, getBoundPrefixAndInclusiveness, h1, h2]
    rw [take_left' (by simp), fromRow_map_data]
    cases isUpper <;> cases isInclusive <;> rfl

/-- Legacy rows and key bounds denote the same rays: a full key passes the
test against the bound of a row when the row is null or the key is on its
side of the row, and a bound with a prefix comes back from its legacy row. -/
theorem legacyRow_denotes_keyBound (n : ℕ) (row : Option (Row α)) (isUpper : Bool)
    (hrow : ∀ r ∈ row, NoBottom r)
    (bound : KeyBound α) (hsome : bound.keyPrefix.isSome) (hlen : bound.values.length ≤ n) :
    (∃ ray, keyBoundFromLegacyRow row isUpper n = .ok ray ∧
      ∀ key : Key α, key.length = n → ((ascendingComparator n).testKey key ray = .ok true ↔
          row = none ∨ if isUpper then compareRows (some (key.map Value.data)) row < 0
            else 0 ≤ compareRows (some (key.map Value.data)) row)) ∧
    keyBoundFromLegacyRow (keyBoundToLegacyRow bound) bound.isUpper n = .ok bound := by
  refine ⟨?_, keyBoundFromLegacyRow_toLegacyRow bound n hsome hlen⟩
  cases row with
  | none =>
    refine ⟨KeyBound.makeUniversal isUpper, rfl, fun key hkey => iff_of_true ?_ (.inl rfl)⟩
    have hfits : (ascendingComparator n).Fits (KeyBound.makeUniversal (α := α) isUpper) := Nat.zero_le _
    refine (Comparator.accepts_iff
      (by simp [ascendingComparator, Comparator.getLength, hkey]) hfits).mpr ?_
    cases isUpper <;> cases key <;>
      simp [Comparator.BelowBound, KeyBound.makeUniversal, toKeyBoundRef, KeyBoundRef.after,
        KeyBound.values, Lib.Below]
  | some row =>
    obtain ⟨ray, hray, hacc⟩ := keyBoundFromLegacyRow_accepts row isUpper n (hrow row rfl)
    refine ⟨ray, hray, fun key hkey => (hacc key hkey).trans ?_⟩
    simp only [reduceCtorEq, false_or, compareRows, ← not_lt, compareValueRanges_lt]

/-- The row `[1, Max, 7]` as an upper bound, and the bound `> [1]`. -/
theorem legacyRow_denotes_keyBound_max :
    (∃ ray, keyBoundFromLegacyRow (some [.data 1, .max, .data 7]) true 2 = .ok ray ∧
      ∀ key : Key ℕ, key.length = 2 → ((ascendingComparator 2).testKey key ray = .ok true ↔
          some [Value.data 1, .max, .data 7] = none ∨
            if true then compareRows (some (key.map Value.data)) (some [.data 1, .max, .data 7]) < 0
            else 0 ≤ compareRows (some (key.map Value.data)) (some [.data 1, .max, .data 7]))) ∧
    keyBoundFromLegacyRow (keyBoundToLegacyRow ⟨some [1], false, false⟩) false 2 =
      .ok ⟨some [1], false, false⟩ :=
  legacyRow_denotes_keyBound 2 (some [.data 1, .max, .data 7]) true (by decide)
    ⟨some [1], false, false⟩ rfl (by decide)

/-- The null bound does not come back: its row is null, and a null row stands
for the universal bound. -/
theorem keyBoundFromLegacyRow_null :
    keyBoundFromLegacyRow (keyBoundToLegacyRow (⟨none, false, false⟩ : KeyBound ℕ)) false 1 =
        .ok (KeyBound.makeUniversal false) ∧
      KeyBound.makeUniversal false ≠ (⟨none, false, false⟩ : KeyBound ℕ) ∧
      (⟨none, false, false⟩ : KeyBound ℕ).values.length ≤ 1 := by
  decide

end

end Ytsaurus.TableClient
