/-
# Read limits and their messages

`client/chunk_client/read_limit.cpp`: a read limit has up to five selectors, one of them a key
bound. Its message carries the bound twice: as a prefix with a flag, and as a legacy row for old
readers. The direction of the bound is not in the message; the reader gives it.

`FromProto` sets the direction of the key bound before it looks whether there is one, and
`operator==` compares the flags of null bounds as well. So a limit without a key bound comes back as
the same limit only if its null bound has the direction of the reader. The chunk index has 64 bits
in the limit and 32 in the message (`readLimit_proto_iff`).

The wire format of rows is left out: a message holds the rows themselves.
-/
import Ytsaurus.Lib.SignedWord
import Ytsaurus.TableClient.LegacyRow

namespace Ytsaurus.ChunkClient

open TableClient

section

variable (α : Type)

structure ReadLimit where
  keyBound : KeyBound α := {}
  rowIndex : Option Int64 := none
  offset : Option Int64 := none
  chunkIndex : Option Int64 := none
  tabletIndex : Option Int32 := none
  deriving DecidableEq, Repr

/-- `NProto::TReadLimit`. -/
structure ProtoReadLimit where
  legacyKey : Option (Row α) := none
  keyBoundPrefix : Option (List α) := none
  keyBoundIsInclusive : Option Bool := none
  rowIndex : Option Int64 := none
  offset : Option Int64 := none
  chunkIndex : Option Int32 := none
  tabletIndex : Option Int32 := none
  deriving DecidableEq, Repr

structure ReadRange where
  lowerLimit : ReadLimit α := {}
  upperLimit : ReadLimit α := {}
  deriving DecidableEq, Repr

/-- `NProto::TReadRange`. -/
structure ProtoReadRange where
  lowerLimit : Option (ProtoReadLimit α) := none
  upperLimit : Option (ProtoReadLimit α) := none
  deriving DecidableEq, Repr

end

variable {α : Type}

variable (readLimit : ReadLimit α)

def ReadLimit.getSelectorCount : ℕ :=
  (if readLimit.keyBound.keyPrefix.isSome then 1 else 0) + (if readLimit.rowIndex.isSome then 1
    else 0) +
    (if readLimit.offset.isSome then 1 else 0) + (if readLimit.chunkIndex.isSome then 1 else 0) +
    (if readLimit.tabletIndex.isSome then 1 else 0)

def ReadLimit.isTrivial : Bool := readLimit.getSelectorCount = 0

/-! ### Limits -/

/-- `ToProto` of a read limit, into a new message. -/
def ReadLimit.toProto : ProtoReadLimit α :=
  let proto : ProtoReadLimit α :=
    if readLimit.keyBound.keyPrefix.isSome then
      { keyBoundPrefix := readLimit.keyBound.keyPrefix
        keyBoundIsInclusive := some readLimit.keyBound.isInclusive
        legacyKey := keyBoundToLegacyRow readLimit.keyBound }
    else {}
  { proto with
    rowIndex := readLimit.rowIndex
    offset := readLimit.offset
    chunkIndex := readLimit.chunkIndex.map Int64.toInt32
    tabletIndex := readLimit.tabletIndex }

/-- The message without `key_bound_prefix` and `key_bound_is_inclusive`. -/
def ProtoReadLimit.clearKeyBound (proto : ProtoReadLimit α) : ProtoReadLimit α :=
  { proto with keyBoundPrefix := none, keyBoundIsInclusive := none }

def validateKeyLengthIsPresent (keyLength : ℕ) : Result Unit :=
  if keyLength = 0
    then .error (.exception "Read limit contains key, but key length is not provided") else .ok ()

/-- The key bound that `FromProto` leaves in a limit with the bound `keyBound`. -/
def keyBoundFromProto [DecidableEq α] (proto : ProtoReadLimit α) (isUpper : Bool) (keyLength : ℕ)
    (keyBound : KeyBound α) : Result (KeyBound α) :=
  let keyBound := { keyBound with isUpper }
  match proto.keyBoundPrefix, proto.legacyKey with
  | some values, _ => do
    validateKeyLengthIsPresent keyLength
    let keyBound := { keyBound with keyPrefix := some values, isInclusive :=
      proto.keyBoundIsInclusive.getD false }
    if keyLength < values.length then
      .error (.exception "Invalid key bound prefix length; expected no more than %v, actual %v")
    else return keyBound
  | none, some legacyKey => do
    validateKeyLengthIsPresent keyLength
    keyBoundFromLegacyRow (some legacyKey) isUpper keyLength
  | none, none => return keyBound

/-- `FromProto` of a read limit. -/
def ReadLimit.fromProto [DecidableEq α] (readLimit : ReadLimit α) (proto : ProtoReadLimit α)
    (isUpper : Bool) (keyLength : ℕ) : Result (ReadLimit α) := do
  let keyBound ← keyBoundFromProto proto isUpper keyLength readLimit.keyBound
  return {
    keyBound
    rowIndex := proto.rowIndex.or readLimit.rowIndex
    offset := proto.offset.or readLimit.offset
    chunkIndex := (proto.chunkIndex.map Int32.toInt64).or readLimit.chunkIndex
    tabletIndex := proto.tabletIndex.or readLimit.tabletIndex }

/-! ### Ranges -/

/-- One of the limits in `ToProto` of a range. -/
def limitToProto (isUpper : Bool) : Result (Option (ProtoReadLimit α)) :=
  if readLimit.isTrivial then return none
  else do
    if readLimit.keyBound.keyPrefix.isSome then ytVerify (readLimit.keyBound.isUpper = isUpper)
    return some readLimit.toProto

/-- `ToProto` of a range. -/
def ReadRange.toProto (readRange : ReadRange α) : Result (ProtoReadRange α) := do
  let lowerLimit ← limitToProto readRange.lowerLimit false
  let upperLimit ← limitToProto readRange.upperLimit true
  return ⟨lowerLimit, upperLimit⟩

/-- One of the limits in `FromProto` of a range. -/
def limitFromProto [DecidableEq α] (readLimit : ReadLimit α) (proto : Option (ProtoReadLimit α))
    (isUpper : Bool) (keyLength : ℕ) : Result (ReadLimit α) :=
  match proto with
  | some proto => readLimit.fromProto proto isUpper keyLength
  | none => return readLimit

/-- `FromProto` of a range. -/
def ReadRange.fromProto [DecidableEq α] (readRange : ReadRange α) (proto : ProtoReadRange α)
    (keyLength : ℕ) : Result (ReadRange α) := do
  let lowerLimit ← limitFromProto readRange.lowerLimit proto.lowerLimit false keyLength
  let upperLimit ← limitFromProto readRange.upperLimit proto.upperLimit true keyLength
  return ⟨lowerLimit, upperLimit⟩

def ProtoReadRange.clearKeyBounds (proto : ProtoReadRange α) : ProtoReadRange α :=
  ⟨proto.lowerLimit.map ProtoReadLimit.clearKeyBound,
    proto.upperLimit.map ProtoReadLimit.clearKeyBound⟩

/-! ### What comes back -/

/-- The key bound, if any, has the direction and fits the key. -/
def ReadLimit.Directed (isUpper : Bool) (keyLength : ℕ) : Prop :=
  ∀ values, readLimit.keyBound.keyPrefix = some values →
    readLimit.keyBound.isUpper = isUpper ∧ values.length ≤ keyLength

instance (readLimit : ReadLimit α) (isUpper : Bool) (keyLength : ℕ) :
    Decidable (readLimit.Directed isUpper keyLength) :=
  match h : readLimit.keyBound.keyPrefix with
  | none => .isTrue fun values hv => by rw [h] at hv; cases hv
  | some values => decidable_of_iff
      (readLimit.keyBound.isUpper = isUpper ∧ values.length ≤ keyLength) (by
      constructor
      · rintro hd values' hv
        rw [h] at hv
        obtain rfl := Option.some.inj hv
        exact hd
      · exact fun hd => hd values h)

variable [LinearOrder α]

/-- The key bound that comes back: the bound itself, or a null bound with the direction of the
reader. -/
def returnedBound (keyBound : KeyBound α) (isUpper : Bool) : KeyBound α :=
  if keyBound.keyPrefix.isSome then keyBound else ⟨none, false, isUpper⟩

variable {limit : ReadLimit α} {isUpper : Bool} {keyLength : ℕ}

theorem keyBoundFromProto_toProto (hpos : 0 < keyLength) (hdir : limit.Directed isUpper keyLength) :
    keyBoundFromProto limit.toProto isUpper keyLength {} = .ok (returnedBound limit.keyBound isUpper) ∧
      keyBoundFromProto limit.toProto.clearKeyBound isUpper keyLength {} =
        .ok (returnedBound limit.keyBound isUpper) := by
  have hpres : validateKeyLengthIsPresent keyLength = .ok () := if_neg hpos.ne'
  unfold returnedBound
  cases hpre : limit.keyBound.keyPrefix with
  | none =>
    simp only [keyBoundFromProto, ReadLimit.toProto, ProtoReadLimit.clearKeyBound, hpre]
    exact ⟨rfl, rfl⟩
  | some values =>
    obtain ⟨hu, hlen⟩ := hdir values hpre
    constructor
    · simp only [keyBoundFromProto, ReadLimit.toProto, hpre, hpres, ok_bind, Option.isSome_some, if_true]
      rw [if_neg (not_lt.mpr hlen), ← hpre, ← hu]
      rfl
    · have hleg := keyBoundFromLegacyRow_toLegacyRow limit.keyBound keyLength (by simp [hpre])
        (by simpa [KeyBound.values, hpre] using hlen)
      obtain ⟨row, hr⟩ : ∃ row, keyBoundToLegacyRow limit.keyBound = some row := by
        unfold keyBoundToLegacyRow
        rw [hpre]
        exact ⟨_, rfl⟩
      rw [hr, hu] at hleg
      simp only [keyBoundFromProto, ReadLimit.toProto, ProtoReadLimit.clearKeyBound, hpre, hpres,
        ok_bind, Option.isSome_some, if_true, hr, hleg]

/-- The limit that comes back; the chunk index went through 32 bits. -/
def ReadLimit.returned (isUpper : Bool) : ReadLimit α :=
  { readLimit with
    keyBound := returnedBound readLimit.keyBound isUpper
    chunkIndex := readLimit.chunkIndex.map fun i => i.toInt32.toInt64 }

theorem fromProto_toProto (hp : 0 < keyLength) (hdir : limit.Directed isUpper keyLength) :
    ReadLimit.fromProto {} limit.toProto isUpper keyLength = .ok (limit.returned isUpper) ∧
      ReadLimit.fromProto {} limit.toProto.clearKeyBound isUpper keyLength =
        .ok (limit.returned isUpper) := by
  obtain ⟨hw, hl⟩ := keyBoundFromProto_toProto hp hdir
  unfold ReadLimit.fromProto
  rw [hw, hl, ok_bind, ok_bind]
  have hf : limit.toProto.rowIndex = limit.rowIndex ∧ limit.toProto.offset = limit.offset ∧
      limit.toProto.chunkIndex = limit.chunkIndex.map Int64.toInt32 ∧
      limit.toProto.tabletIndex = limit.tabletIndex :=
    ⟨rfl, rfl, rfl, rfl⟩
  simp only [ProtoReadLimit.clearKeyBound, hf, Option.or_none, Option.map_map, pure_eq_ok]
  exact ⟨rfl, rfl⟩

/-- The limit comes back from its message, whole or without the new fields. -/
def ReadLimit.Survives (readLimit : ReadLimit α) (isUpper : Bool) (keyLength : ℕ) : Prop :=
  ReadLimit.fromProto {} readLimit.toProto isUpper keyLength = .ok readLimit ∧
    ReadLimit.fromProto {} readLimit.toProto.clearKeyBound isUpper keyLength = .ok readLimit

/-- The range comes back from its message, whole or without the new fields. -/
def ReadRange.Survives (readRange : ReadRange α) (keyLength : ℕ) : Prop :=
  ∃ proto, readRange.toProto = .ok proto ∧ ReadRange.fromProto {} proto keyLength = .ok readRange ∧
    ReadRange.fromProto {} proto.clearKeyBounds keyLength = .ok readRange

/-- There is a key bound, or the null bound has the direction and is not inclusive. -/
def BoundReturns (keyBound : KeyBound α) (isUpper : Bool) : Prop :=
  keyBound.keyPrefix ≠ none ∨ keyBound = ⟨none, false, isUpper⟩

omit [LinearOrder α] in
theorem returnedBound_eq_iff {keyBound : KeyBound α} :
    returnedBound keyBound isUpper = keyBound ↔ BoundReturns keyBound isUpper := by
  unfold returnedBound BoundReturns
  cases hp : keyBound.keyPrefix with
  | none =>
    rw [if_neg (by simp)]
    simp [eq_comm]
  | some values =>
    rw [if_pos (show (some values).isSome = true from rfl)]
    simp

/-- The chunk index, if any, fits the field of the message. -/
def ReadLimit.ChunkIndexFits : Prop :=
  ∀ i, readLimit.chunkIndex = some i → -2 ^ 31 ≤ i.toInt ∧ i.toInt < 2 ^ 31

theorem toInt64_toInt32_iff (i : Int64) : i.toInt32.toInt64 = i ↔ -2 ^ 31 ≤ i.toInt ∧
    i.toInt < 2 ^ 31 := by
  rw [← Int64.toInt_inj, Int32.toInt_toInt64, Int64.toInt_toInt32, ← Lib.signedWord,
    Lib.signedWord_eq_self_iff]
  omega

omit [LinearOrder α] in
theorem returned_eq_iff : limit.returned isUpper = limit ↔ BoundReturns limit.keyBound isUpper ∧
      limit.ChunkIndexFits := by
  have hchunk : (limit.chunkIndex.map fun i => i.toInt32.toInt64) = limit.chunkIndex ↔
      limit.ChunkIndexFits := by
    unfold ReadLimit.ChunkIndexFits
    cases limit.chunkIndex <;> simp [toInt64_toInt32_iff]
  rw [← returnedBound_eq_iff, ← hchunk]
  constructor
  · exact fun h => ⟨congrArg ReadLimit.keyBound h, congrArg ReadLimit.chunkIndex h⟩
  · rintro ⟨hbound, hindex⟩
    rw [ReadLimit.returned, hbound, hindex]

/-- The limit of a range comes back: a trivial one is not in the message. -/
def LimitReturns (isUpper : Bool) : Prop :=
  (readLimit.keyBound.keyPrefix ≠ none ∨
    readLimit.keyBound = if readLimit.isTrivial then {} else ⟨none, false, isUpper⟩) ∧
      readLimit.ChunkIndexFits

omit [LinearOrder α] in
theorem isTrivial_iff : limit.isTrivial = true ↔
    limit.keyBound.keyPrefix = none ∧ limit = { keyBound := limit.keyBound } := by
  rcases limit with ⟨⟨keyPrefix, isInclusive, isUpper⟩, rowIndex, offset, chunkIndex, tabletIndex⟩
  cases keyPrefix <;> cases rowIndex <;> cases offset <;> cases chunkIndex <;> cases tabletIndex <;>
    simp [ReadLimit.isTrivial, ReadLimit.getSelectorCount]

/-- What comes back of a limit of a range. -/
def returnedLimit (isUpper : Bool) : ReadLimit α :=
  if readLimit.isTrivial then {} else readLimit.returned isUpper

omit [LinearOrder α] in
theorem returnedLimit_eq_iff :
    returnedLimit limit isUpper = limit ↔ LimitReturns limit isUpper := by
  unfold returnedLimit LimitReturns
  by_cases ht : limit.isTrivial = true
  · obtain ⟨hnone, heq⟩ := isTrivial_iff.mp ht
    have hfits : limit.ChunkIndexFits := by
      intro i hi
      rw [heq] at hi
      cases hi
    rw [if_pos ht, if_pos ht, and_iff_left hfits]
    constructor
    · exact fun h => .inr (by rw [← h])
    · rintro (hne | hb)
      · exact absurd hnone hne
      · rw [heq, hb]
  · rw [if_neg ht, if_neg ht]
    exact returned_eq_iff

theorem limitFromProto_limitToProto (hpos : 0 < keyLength)
    (hdir : limit.Directed isUpper keyLength) : ∃ proto, limitToProto limit isUpper = .ok proto ∧
      limitFromProto {} proto isUpper keyLength = .ok (returnedLimit limit isUpper) ∧
      limitFromProto {} (proto.map ProtoReadLimit.clearKeyBound) isUpper keyLength =
        .ok (returnedLimit limit isUpper) := by
  unfold returnedLimit
  by_cases ht : limit.isTrivial = true
  · rw [if_pos ht]
    refine ⟨none, ?_, rfl, rfl⟩
    rw [limitToProto, if_pos ht]
    rfl
  · rw [if_neg ht]
    obtain ⟨hw, hl⟩ := fromProto_toProto hpos hdir
    refine ⟨some limit.toProto, ?_, hw, hl⟩
    rw [limitToProto, if_neg ht]
    cases hpre : limit.keyBound.keyPrefix with
    | none => rfl
    | some values =>
      rw [if_pos (show (some values).isSome = true from rfl), ytVerify_true (hdir values hpre).1]
      rfl

/-- Which limits and ranges come back from their messages, whole or with the legacy key only. -/
theorem readLimit_proto_iff (keyLength : ℕ) (hpos : 0 < keyLength) :
    (∀ (readLimit : ReadLimit α) (isUpper : Bool), readLimit.Directed isUpper keyLength →
      (readLimit.Survives isUpper keyLength ↔
        BoundReturns readLimit.keyBound isUpper ∧ readLimit.ChunkIndexFits)) ∧
    ∀ readRange : ReadRange α, readRange.lowerLimit.Directed false keyLength →
      readRange.upperLimit.Directed true keyLength →
      (readRange.Survives keyLength ↔
        LimitReturns readRange.lowerLimit false ∧ LimitReturns readRange.upperLimit true) := by
  refine ⟨fun readLimit isUpper hdirected => ?_, fun readRange hlower hupper => ?_⟩
  · obtain ⟨hwhole, hlegacy⟩ := fromProto_toProto hpos hdirected
    rw [ReadLimit.Survives, hwhole, hlegacy, and_self, ← returned_eq_iff]
    exact ⟨Except.ok.inj, congrArg Except.ok⟩
  · obtain ⟨lower, hlowerTo, hlowerFrom, hlowerLegacy⟩ := limitFromProto_limitToProto hpos hlower
    obtain ⟨upper, hupperTo, hupperFrom, hupperLegacy⟩ := limitFromProto_limitToProto hpos hupper
    have hto : readRange.toProto = .ok ⟨lower, upper⟩ := by
      rw [ReadRange.toProto, hlowerTo, ok_bind, hupperTo]
      rfl
    have hfrom : ReadRange.fromProto {} ⟨lower, upper⟩ keyLength =
        .ok ⟨returnedLimit readRange.lowerLimit false, returnedLimit readRange.upperLimit true⟩ := by
      rw [ReadRange.fromProto, hlowerFrom, ok_bind, hupperFrom]
      rfl
    have hlegacy : ReadRange.fromProto {} (ProtoReadRange.clearKeyBounds ⟨lower, upper⟩) keyLength =
        .ok ⟨returnedLimit readRange.lowerLimit false, returnedLimit readRange.upperLimit true⟩ := by
      rw [ReadRange.fromProto, ProtoReadRange.clearKeyBounds, hlowerLegacy, ok_bind, hupperLegacy]
      rfl
    rw [← returnedLimit_eq_iff, ← returnedLimit_eq_iff]
    constructor
    · rintro ⟨proto, hproto, hback, -⟩
      obtain rfl := Except.ok.inj (hto.symm.trans hproto)
      have hrange := Except.ok.inj (hfrom.symm.trans hback)
      exact ⟨congrArg ReadRange.lowerLimit hrange, congrArg ReadRange.upperLimit hrange⟩
    · rintro ⟨hl, hu⟩
      exact ⟨_, hto, by rw [hfrom, hl, hu], by rw [hlegacy, hl, hu]⟩

/-- An upper limit with a key bound and a chunk index. -/
theorem readLimit_proto_iff_upper : ReadLimit.Survives
      ({ keyBound := ⟨some [1, 42], true, true⟩, chunkIndex := some 1 } : ReadLimit ℕ) true 2 := by
  refine ((readLimit_proto_iff 2 (by decide)).1 _ true (by decide)).mpr ⟨.inl (by simp), ?_⟩
  rintro _ ⟨⟩
  decide

/-- An upper limit with a row index alone comes back with another null bound, and a chunk index of
more than 32 bits as another one. -/
theorem readLimit_rowIndex_not_survives :
    ReadLimit.Directed ({ rowIndex := some 1 } : ReadLimit ℕ) true 1 ∧
      ¬ReadLimit.Survives ({ rowIndex := some 1 } : ReadLimit ℕ) true 1 ∧
      ¬ReadRange.Survives ({ upperLimit := { rowIndex := some 1 } } : ReadRange ℕ) 1 ∧
      ReadLimit.fromProto {} (ReadLimit.toProto ({ chunkIndex := some 4294967296 } : ReadLimit ℕ))
          false 1 = .ok { chunkIndex := some 0 } := by
  have hback : ReadLimit.fromProto {} (ReadLimit.toProto ({ rowIndex := some 1 } : ReadLimit ℕ))
    true 1 = .ok { rowIndex := some 1, keyBound := ⟨none, false, true⟩ } := by decide
  refine ⟨by decide, fun h => ?_, ?_, by decide⟩
  · have := hback.symm.trans h.1
    simp at this
  · rintro ⟨proto, hproto, hrange, -⟩
    have hto : ReadRange.toProto ({ upperLimit := { rowIndex := some 1 } } : ReadRange ℕ) =
        .ok ⟨none, some { rowIndex := some 1 }⟩ := by decide
    obtain rfl := Except.ok.inj (hto.symm.trans hproto)
    have hfrom : ReadRange.fromProto ({} : ReadRange ℕ) ⟨none, some { rowIndex := some 1 }⟩ 1 =
        .ok { upperLimit := { rowIndex := some 1, keyBound := ⟨none, false, true⟩ } } := by decide
    have := hfrom.symm.trans hrange
    simp at this

end Ytsaurus.ChunkClient
