/-
# Exact selectors in both models of read limits

An exact selector is a legacy limit that stands for the range from itself to its successor.
`GetSuccessor` and `ToExactUpperCounterpart` were written independently. They agree on keys, row
indexes and chunk indexes, but for the greatest chunk index of 32 bits; `GetSuccessor` forgets the
offset and never moves the tablet index.
-/
import Ytsaurus.ChunkClient.ReadLimit

namespace Ytsaurus.ChunkClient

open TableClient

/-- A legacy limit stores its message, with a chunk index of 32 bits. -/
structure LegacyReadLimit (α : Type) where
  legacyKey : Option (Row α) := none
  rowIndex : Option Int64 := none
  offset : Option Int64 := none
  chunkIndex : Option Int32 := none
  tabletIndex : Option Int32 := none

structure LegacyReadRange (α : Type) where
  lowerLimit : LegacyReadLimit α
  upperLimit : LegacyReadLimit α

variable {α : Type}

def getKeySuccessorImpl (key : Row α) (prefixLength : ℕ) (sentinel : Value α) : Row α :=
  key.take (min prefixLength key.length) ++ [sentinel]

def getKeyPrefixSuccessor (key : Row α) (prefixLength : ℕ) : Row α :=
  getKeySuccessorImpl key prefixLength .max

def LegacyReadLimit.getSuccessor (limit : LegacyReadLimit α) : LegacyReadLimit α where
  legacyKey := limit.legacyKey.map fun key => getKeyPrefixSuccessor key key.length
  rowIndex := limit.rowIndex.map (· + 1)
  chunkIndex := limit.chunkIndex.map fun i => (i.toInt64 + 1).toInt32
  tabletIndex := limit.tabletIndex

/-- `TLegacyReadRange(exact)`. -/
def LegacyReadRange.ofExact (exact : LegacyReadLimit α) : LegacyReadRange α :=
  ⟨exact, exact.getSuccessor⟩

def readLimitFromLegacyReadLimit [DecidableEq α] (limit : LegacyReadLimit α) (isUpper : Bool)
    (keyLength : ℕ) : Result (ReadLimit α) := do
  let keyBound ← match limit.legacyKey with
    | some key => keyBoundFromLegacyRow (some key) isUpper keyLength
    | none => pure {}
  return ⟨keyBound, limit.rowIndex, limit.offset, limit.chunkIndex.map Int32.toInt64,
    limit.tabletIndex⟩

def readRangeFromLegacyReadRange [DecidableEq α] (range : LegacyReadRange α) (keyLength : ℕ) :
    Result (ReadRange α) := do
  let lowerLimit ← readLimitFromLegacyReadLimit range.lowerLimit false keyLength
  let upperLimit ← readLimitFromLegacyReadLimit range.upperLimit true keyLength
  return ⟨lowerLimit, upperLimit⟩

def ReadLimit.hasIndependentSelectors (limit : ReadLimit α) : Bool :=
  3 ≤ limit.getSelectorCount ||
    limit.getSelectorCount = 2 && !(limit.rowIndex.isSome && limit.tabletIndex.isSome)

def ReadLimit.toExactUpperCounterpart (limit : ReadLimit α) : Result (ReadLimit α) := do
  ytVerify (limit.hasIndependentSelectors = false)
  let keyBound ← if limit.keyBound.keyPrefix.isSome then do
      ytVerify (limit.keyBound.isUpper = false)
      -- only the empty bound may be exclusive
      ytVerify (limit.keyBound.isInclusive = true ∨ limit.keyBound.values = [])
      let inverted ← limit.keyBound.invert
      inverted.toggleInclusiveness
    else pure limit.keyBound
  return {
    keyBound
    rowIndex := limit.rowIndex.map (· + 1)
    offset := limit.offset.map (· + 1)
    chunkIndex := limit.chunkIndex.map (· + 1)
    tabletIndex := if limit.rowIndex.isSome then limit.tabletIndex else limit.tabletIndex.map (· + 1) }

/-- What an exact limit selects; a key has no sentinels. -/
inductive Selector (α : Type)
  | key (key : List α)
  | rowIndex (rowIndex : Int64) (tabletIndex : Option Int32)
  | tabletIndex (tabletIndex : Int32)
  | chunkIndex (chunkIndex : Int32)
  | offset (offset : Int64)

def Selector.exact : Selector α → LegacyReadLimit α
  | .key values => { legacyKey := some (values.map Value.data) }
  | .rowIndex i tablet => { rowIndex := some i, tabletIndex := tablet }
  | .tabletIndex i => { tabletIndex := some i }
  | .chunkIndex i => { chunkIndex := some i }
  | .offset i => { offset := some i }

/-- A key is not longer than `keyLength`. -/
def Selector.Fits (keyLength : ℕ) : Selector α → Prop
  | .key values => values.length ≤ keyLength
  | _ => True

/-- `GetSuccessor` moves what is selected; the greatest chunk index wraps around. -/
def Selector.Moves : Selector α → Prop
  | .tabletIndex _ | .offset _ => False
  | .chunkIndex i => i.toInt ≠ 2 ^ 31 - 1
  | _ => True

theorem toInt64_successor_iff (i : Int32) :
    (i.toInt64 + 1).toInt32.toInt64 = i.toInt64 + 1 ↔ i.toInt ≠ 2 ^ 31 - 1 := by
  have hlt := i.toInt_lt
  have hle := i.le_toInt
  have hsum : (i.toInt64 + 1).toInt = i.toInt + 1 := by
    rw [Int64.toInt_add, Int32.toInt_toInt64, show (1 : Int64).toInt = 1 from rfl]
    exact Lib.signedWord_eq_self (by omega) (by omega)
  rw [toInt64_toInt32_iff, hsum]
  omega

theorem readLimit_of_key [LinearOrder α] {key : List α} {keyLength : ℕ}
    (h : key.length ≤ keyLength) :
    readLimitFromLegacyReadLimit (Selector.key key).exact false keyLength =
      .ok { keyBound := ⟨some key, true, false⟩ } ∧
      readLimitFromLegacyReadLimit (Selector.key key).exact.getSuccessor true keyLength =
        .ok { keyBound := ⟨some key, true, true⟩ } := by
  have hl := keyBoundFromLegacyRow_toLegacyRow ⟨some key, true, false⟩ keyLength rfl h
  have hu := keyBoundFromLegacyRow_toLegacyRow ⟨some key, true, true⟩ keyLength rfl h
  simp only [keyBoundToLegacyRow, Bool.and_true, Bool.not_true, Bool.and_false, Bool.or_false,
    Bool.false_eq_true, if_false, if_true, List.append_nil] at hl hu
  constructor
  · simp only [readLimitFromLegacyReadLimit, Selector.exact, hl, ok_bind, pure_eq_ok, Option.map_none]
  · simp only [readLimitFromLegacyReadLimit, Selector.exact, LegacyReadLimit.getSuccessor,
      Option.map_some, getKeyPrefixSuccessor, getKeySuccessorImpl, min_self, List.take_length, hu,
        ok_bind, pure_eq_ok, Option.map_none]

/-- The range of an exact selector is the one from the converted limit to its counterpart iff
`GetSuccessor` moves what is selected. -/
theorem exactRange_eq_iff [LinearOrder α] (selector : Selector α) (keyLength : ℕ)
    (hfits : selector.Fits keyLength) :
    ∃ range lower upper, readRangeFromLegacyReadRange (.ofExact selector.exact) keyLength =
      .ok range ∧ readLimitFromLegacyReadLimit selector.exact false keyLength = .ok lower ∧
      lower.toExactUpperCounterpart = .ok upper ∧ (range = ⟨lower, upper⟩ ↔ selector.Moves) := by
  cases selector with
  | key key =>
    obtain ⟨hlower, hupper⟩ := readLimit_of_key hfits
    refine ⟨_, _, ⟨⟨some key, true, true⟩, none, none, none, none⟩, ?_, hlower, rfl,
      iff_of_true rfl trivial⟩
    simp only [readRangeFromLegacyReadRange, LegacyReadRange.ofExact, hlower, hupper,
      ok_bind, pure_eq_ok]
  | rowIndex i tablet =>
    refine ⟨_, _, { rowIndex := some (i + 1), tabletIndex := tablet }, rfl, rfl, ?_,
      iff_of_true rfl trivial⟩
    cases tablet <;> rfl
  | chunkIndex i =>
    refine ⟨_, _, { chunkIndex := some (i.toInt64 + 1) }, rfl, rfl, rfl, ?_⟩
    rw [Selector.Moves, ← toInt64_successor_iff]
    constructor
    · exact fun heq => Option.some.inj (congrArg (fun range => range.upperLimit.chunkIndex) heq)
    · exact fun hindex => congrArg (ReadRange.mk _ { chunkIndex := some · }) hindex
  | tabletIndex i =>
    refine ⟨_, _, { tabletIndex := some (i + 1) }, rfl, rfl, rfl, iff_of_false (fun heq => ?_) id⟩
    have hindex := Option.some.inj (congrArg (fun range => range.upperLimit.tabletIndex) heq)
    simp at hindex
  | offset i =>
    refine ⟨_, _, { offset := some (i + 1) }, rfl, rfl, rfl, iff_of_false (fun heq => ?_) id⟩
    cases congrArg (fun range => range.upperLimit.offset) heq

/-- The range of an exact key is the one up to the counterpart of its lower limit. -/
theorem exactRange_eq_key : (Selector.key [7]).Fits 2 ∧
    ∃ lower upper, readLimitFromLegacyReadLimit (Selector.key [7]).exact false 2 = .ok lower ∧
      lower.toExactUpperCounterpart = .ok upper ∧
      readRangeFromLegacyReadRange (.ofExact (Selector.key [7]).exact) 2 = .ok ⟨lower, upper⟩ := by
  have hfits : (Selector.key [7]).Fits 2 := show 1 ≤ 2 by decide
  obtain ⟨range, lower, upper, hrange, hlower, hupper, hmoves⟩ := exactRange_eq_iff _ _ hfits
  exact ⟨hfits, lower, upper, hlower, hupper, hmoves.mpr trivial ▸ hrange⟩

/-- The range of an exact offset has no upper limit, and that of the greatest chunk index a negative
one. -/
theorem exactRange_offset :
    readRangeFromLegacyReadRange (.ofExact (Selector.offset (α := ℕ) 5).exact) 1 =
        .ok ⟨{ offset := some 5 }, {}⟩ ∧
      ({ offset := some 5 } : ReadLimit ℕ).toExactUpperCounterpart = .ok { offset := some 6 } ∧
      readRangeFromLegacyReadRange (.ofExact (Selector.chunkIndex (α := ℕ) 2147483647).exact) 1 =
        .ok ⟨{ chunkIndex := some 2147483647 }, { chunkIndex := some (-2147483648) }⟩ :=
  ⟨rfl, rfl, rfl⟩

end Ytsaurus.ChunkClient
