/-
# Watermark generators

`TWatermarkGenerator` of `flow/library/cpp/computation/watermark_generator.cpp` follows the batches
that a source partition reads until they are persisted. Batches are persisted in any order: one that
is not at the front of the list leaves its maximum with its predecessor (`collapsedMax`).

A cookie is the position of its batch in the order of reading; a batch is the event timestamps of
its messages. The batches read and the cookies persisted are ghosts of a run (`Reads`), and the list
in flight is a function of them (`entries`).
-/
import Mathlib.Order.Lattice.Nat
import Ytsaurus.Flow.WatermarkHistory

namespace Ytsaurus.Flow

open List

structure WatermarkGeneratorSpec where
  useSourceWatermark : Bool
  /-- In seconds. -/
  outOfOrdernessBound : ℕ

structure WatermarkGeneratorState where
  max : ℕ
  minAhead : Option ℕ := none
  maxAhead : Option ℕ := none

structure BatchInfo where
  cookie : ℕ
  minEventTimestamp : ℕ
  maxEventTimestamp : ℕ
  collapsedMax : ℕ

structure WatermarkGenerator where
  inflight : List BatchInfo := []
  nextCookie : ℕ := 0
  persistedState : WatermarkGeneratorState

def updateAhead (inflight : List BatchInfo) (persistedState : WatermarkGeneratorState) :
    WatermarkGeneratorState :=
  { persistedState with
    minAhead := inflight.head?.map (·.minEventTimestamp)
    maxAhead := inflight.head?.map (·.maxEventTimestamp) }

/-- What the loop over the messages of a batch leaves. -/
def batchInfo (cookie : ℕ) (messages : List ℕ) : BatchInfo where
  cookie
  minEventTimestamp := messages.foldl min infinitySystemTimestamp
  maxEventTimestamp := messages.foldl max zeroSystemTimestamp
  collapsedMax := messages.foldl max zeroSystemTimestamp

def registerRead (messages : List ℕ) (g : WatermarkGenerator) : Option ℕ × WatermarkGenerator :=
  if messages = [] then (none, g)
  else
    let inflight := g.inflight ++ [batchInfo g.nextCookie messages]
    (some g.nextCookie,
      { inflight, nextCookie := g.nextCookie + 1
        persistedState := if inflight.length ≤ 1 then updateAhead inflight g.persistedState
          else g.persistedState })

/-- Erases the entry of a cookie; `before` is the persisted maximum for the front of the list, the
collapsed maximum of the entry before it for any other. -/
def eraseBatch (cookie before : ℕ) : List BatchInfo → ℕ × List BatchInfo
  | [] => (before, [])
  | it :: rest =>
    if it.cookie = cookie then (max before it.collapsedMax, rest)
    else
      let erased := eraseBatch cookie it.collapsedMax rest
      (before, { it with collapsedMax := erased.1 } :: erased.2)

def markPersisted (cookie : Option ℕ) (g : WatermarkGenerator) : WatermarkGenerator :=
  match cookie with
  | none => g
  | some cookie =>
    let erased := eraseBatch cookie g.persistedState.max g.inflight
    { g with inflight := erased.2, persistedState :=
      updateAhead erased.2 { g.persistedState with max := erased.1 } }

def getPartitionWatermark (spec : Option WatermarkGeneratorSpec) (sourceWatermark : Option ℕ)
    (state : WatermarkGeneratorState) : ℕ :=
  if spec.any (·.useSourceWatermark) then sourceWatermark.getD zeroSystemTimestamp
  else
    let delay := (spec.map (·.outOfOrdernessBound)).getD 0
    let watermark := max state.max delay - delay
    match state.minAhead, state.maxAhead, sourceWatermark with
    | some minAhead, some maxAhead, _ => max watermark (min minAhead (max maxAhead delay - delay))
    | _, _, some sourceWatermark => min sourceWatermark watermark
    | _, _, none => watermark

def getPartitionPersistedWatermark (spec : Option WatermarkGeneratorSpec)
    (sourcePersistedWatermark : Option ℕ) (g : WatermarkGenerator) : ℕ :=
  getPartitionWatermark spec sourcePersistedWatermark g.persistedState

/-! ### Runs -/

abbrev WellFormed (b : List ℕ) : Prop := b ≠ [] ∧ ∀ t ∈ b, t ≤ infinitySystemTimestamp

/-- The batches read and the cookies persisted so far by a generator that starts at `initial`. -/
inductive Reads (initial : ℕ) : List (List ℕ) → List ℕ → WatermarkGenerator → Prop
  | init : Reads initial [] [] { persistedState := { max := initial } }
  | registerRead {bs ps g b} : Reads initial bs ps g → WellFormed b →
    Reads initial (bs ++ [b]) ps (registerRead b g).2
  | markPersisted {bs ps g c} : Reads initial bs ps g → c < bs.length → c ∉ ps →
      Reads initial bs (c :: ps) (markPersisted (some c) g)

/-- For the batches from position `n` on, the maximum of the persisted ones at the front and the
entries of the others: each has the maximum of its batch and of the persisted ones that follow. -/
def entries (ps : List ℕ) : ℕ → List (List ℕ) → ℕ × List BatchInfo
  | _, [] => (0, [])
  | n, b :: bs =>
    let tail := entries ps (n + 1) bs
    let collapsedMax := max (batchInfo n b).collapsedMax tail.1
    if n ∈ ps then (collapsedMax, tail.2) else (0, { batchInfo n b with collapsedMax } :: tail.2)

section Entries

variable {ps : List ℕ} {c : ℕ}

theorem entries_concat (b : List ℕ) : ∀ {n bs}, n + bs.length ∉ ps → entries ps n (bs ++ [b]) =
      ((entries ps n bs).1, (entries ps n bs).2 ++ [batchInfo (n + bs.length) b])
  | n, [], h => by
    rw [length_nil, Nat.add_zero] at h ⊢
    simp [entries, h]
  | n, _ :: bs, h => by
    rw [length_cons, ← Nat.add_assoc, Nat.add_right_comm] at h ⊢
    rw [cons_append, entries, entries_concat b h, entries]
    split_ifs <;> rfl

theorem entries_of_lt : ∀ {n bs}, c < n → entries (c :: ps) n bs = entries ps n bs
  | _, [], _ => rfl
  | n, _ :: bs, h => by simp [entries, entries_of_lt (show c < n + 1 by omega), h.ne']

theorem eraseBatch_max (a m : ℕ) (es : List BatchInfo) :
    eraseBatch c (max a m) es = (max a (eraseBatch c m es).1, (eraseBatch c m es).2) := by
  cases es with
  | nil => rfl
  | cons it es =>
    rw [eraseBatch, eraseBatch]
    split_ifs
    · rw [max_assoc]
    · rfl

theorem entries_cons (hc : c ∉ ps) : ∀ {n bs}, n ≤ c → c < n + bs.length →
    entries (c :: ps) n bs = eraseBatch c (entries ps n bs).1 (entries ps n bs).2
  | _, [], h, h' => absurd h' h.not_gt
  | n, b :: bs, h, h' => by
    rcases h.eq_or_lt with rfl | hlt
    · simp [entries, entries_of_lt (Nat.lt_succ_self n), hc, eraseBatch, batchInfo]
    · rw [length_cons] at h'
      have ih : entries (c :: ps) (n + 1) bs = _ := entries_cons hc hlt (by omega)
      simp only [entries, ih, mem_cons, hlt.ne, false_or]
      split_ifs
      · rw [eraseBatch_max]
      · simp [eraseBatch, batchInfo, eraseBatch_max, hlt.ne]

theorem foldl_max_eq (a : ℕ) (l : List ℕ) : l.foldl max a = max a (l.foldl max 0) := by
  simpa using (foldl_assoc : l.foldl max (max a 0) = _)

theorem WellFormed.extremes {b : List ℕ} (h : WellFormed b) (n : ℕ) :
    some (batchInfo n b).minEventTimestamp = b.min? ∧ some (batchInfo n b).maxEventTimestamp =
      b.max? := by
  cases b with
  | nil => exact absurd rfl h.1
  | cons t b => simp [batchInfo, min?, max?, h.2 t mem_cons_self, zeroSystemTimestamp]

/-- The first unpersisted batch, if there is one, is at position `n + k`, and it has the first
entry. -/
theorem exists_oldest : ∀ n bs, (∀ b ∈ bs, WellFormed b) →
    ∃ k ≤ bs.length, (∀ c < k, n + c ∈ ps) ∧ (k < bs.length → n + k ∉ ps) ∧
      (entries ps n bs).1 = (bs.take k).flatten.foldl max 0 ∧
      (entries ps n bs).2.head?.map (·.minEventTimestamp) = bs[k]?.bind min? ∧
      (entries ps n bs).2.head?.map (·.maxEventTimestamp) = bs[k]?.bind max?
  | n, [], _ => ⟨0, le_rfl, by simp, by simp, rfl, rfl, rfl⟩
  | n, b :: bs, hb => by
    rw [entries]
    split_ifs with h
    · obtain ⟨k, hk, hp, hn, hm, ha⟩ := exists_oldest (n + 1) bs (forall_mem_cons.mp hb).2
      refine ⟨k + 1, Nat.succ_le_succ hk, fun c hc => ?_, fun hl => ?_, ?_, ha⟩
      · cases c with
        | zero => exact h
        | succ c => exact Nat.add_right_comm n 1 c ▸ hp c (Nat.lt_of_succ_lt_succ hc)
      · exact Nat.add_right_comm n 1 k ▸ hn (Nat.lt_of_succ_lt_succ hl)
      · rw [hm, take_succ_cons, flatten_cons, foldl_append, foldl_max_eq (b.foldl max 0)]
        rfl
    · exact ⟨0, Nat.zero_le _, by simp, fun _ => h, rfl, (hb b mem_cons_self).extremes n⟩

theorem maxEventTimestamp_le (ps : List ℕ) (n : ℕ) (bs : List (List ℕ)) :
    ∀ it ∈ (entries ps n bs).2, it.maxEventTimestamp ≤ it.collapsedMax := by
  fun_induction entries with
  | case1 => simp
  | case2 _ _ _ _ _ _ ih => exact ih
  | case3 _ _ _ _ _ _ ih => exact forall_mem_cons.mpr ⟨le_max_left _ _, ih⟩

end Entries

/-! ### The persisted state -/

/-- The state of a generator that has read `bs` and persisted `ps`. -/
structure Follows (initial : ℕ) (bs : List (List ℕ)) (ps : List ℕ)
    (g : WatermarkGenerator) : Prop where
  batches : ∀ b ∈ bs, WellFormed b
  cookies : ∀ c ∈ ps, c < bs.length
  nextCookie : g.nextCookie = bs.length
  inflight : g.inflight = (entries ps 0 bs).2
  persistedState : g.persistedState = updateAhead (entries ps 0 bs).2
    { max := max initial (entries ps 0 bs).1 }

variable {initial : ℕ} {bs : List (List ℕ)} {ps : List ℕ} {g : WatermarkGenerator}

theorem Follows.registerRead {b : List ℕ} (h : Follows initial bs ps g) (hb : WellFormed b) :
    Follows initial (bs ++ [b]) ps (registerRead b g).2 := by
  have he := entries_concat b fun hc => (h.cookies _ hc).ne (Nat.zero_add _)
  rw [Nat.zero_add] at he
  refine ⟨forall_mem_append.mpr ⟨h.batches, forall_mem_singleton.mpr hb⟩, fun c hc =>
    ?_, ?_, ?_, ?_⟩
  · exact length_append ▸ (h.cookies c hc).trans (Nat.lt_succ_self _)
  all_goals rw [Flow.registerRead, if_neg hb.1]
  · rw [length_append, h.nextCookie]; rfl
  · rw [he, h.inflight, h.nextCookie]
  · rw [he, h.persistedState, h.inflight, h.nextCookie]
    cases (entries ps 0 bs).2 <;> simp [updateAhead]

theorem Follows.markPersisted {c : ℕ} (h : Follows initial bs ps g) (hc : c < bs.length) (hn : c ∉ ps) :
    Follows initial bs (c :: ps) (markPersisted (some c) g) := by
  have he := entries_cons hn (Nat.zero_le c) (by rwa [Nat.zero_add])
  refine ⟨h.batches, forall_mem_cons.mpr ⟨hc, h.cookies⟩, h.nextCookie, ?_, ?_⟩
  all_goals
    rw [Flow.markPersisted, h.persistedState, h.inflight, he]
    simp only [updateAhead, eraseBatch_max]

theorem Reads.follows (h : Reads initial bs ps g) : Follows initial bs ps g := by
  induction h with
  | init => exact ⟨by simp, by simp, rfl, rfl, by simp [entries]; rfl⟩
  | registerRead _ hb ih => exact ih.registerRead hb
  | markPersisted _ hc hn ih => exact ih.markPersisted hc hn

/-! ### Watermarks -/

theorem watermark_le {spec : Option WatermarkGeneratorSpec} (hs : ¬ spec.any (·.useSourceWatermark))
    {s s' : WatermarkGeneratorState} (hm : s.max ≤ s'.max)
    (ha : (∀ a ∈ s.maxAhead, a ≤ s'.max) ∨ s'.minAhead = s.minAhead ∧ s'.maxAhead = s.maxAhead) :
    getPartitionWatermark spec none s ≤ getPartitionWatermark spec none s' := by
  rw [getPartitionWatermark, getPartitionWatermark, if_neg hs, if_neg hs]
  rcases s with ⟨m, _ | _, _ | _⟩ <;> rcases s' with ⟨m', _ | _, _ | _⟩ <;>
    simp at ha hm ⊢ <;> omega

/-- **The persisted watermark depends only on the persisted prefix**: the batches before the oldest
unpersisted one, at position `k`. -/
theorem persistedState_of_oldest (h : Reads initial bs ps g) :
    (∃ k ≤ bs.length, (∀ c < k, c ∈ ps) ∧ (k < bs.length → k ∉ ps) ∧
      g.persistedState.max = (bs.take k).flatten.foldl max initial ∧
      g.persistedState.minAhead = bs[k]?.bind min? ∧ g.persistedState.maxAhead = bs[k]?.bind max?) ∧
    ∀ spec : Option WatermarkGeneratorSpec, ¬ spec.any (·.useSourceWatermark) →
      (∀ b, WellFormed b → getPartitionPersistedWatermark spec none g ≤
        getPartitionPersistedWatermark spec none (registerRead b g).2) ∧
      ∀ c < bs.length, c ∉ ps → getPartitionPersistedWatermark spec none g ≤
        getPartitionPersistedWatermark spec none (markPersisted (some c) g) := by
  have hf := h.follows
  have ha : g.persistedState.maxAhead = g.inflight.head?.map (·.maxEventTimestamp) := by
    rw [hf.persistedState, hf.inflight]; rfl
  refine ⟨?_, fun spec hs => ⟨fun b hb => ?_, fun c hc hn => ?_⟩⟩
  · obtain ⟨k, hk, hp, hn, hm, ha⟩ := exists_oldest 0 bs hf.batches
    simp only [Nat.zero_add] at hp hn
    rw [hf.persistedState]
    exact ⟨k, hk, hp, hn, by rw [foldl_max_eq initial, ← hm]; rfl, ha⟩
  · rw [registerRead, if_neg hb.1]
    unfold getPartitionPersistedWatermark
    dsimp only
    split_ifs with hl
    · refine watermark_le hs le_rfl (.inl ?_)
      simp_all
    · exact le_rfl
  · have hle := hf.inflight ▸ maxEventTimestamp_le ps 0 bs
    unfold getPartitionPersistedWatermark markPersisted
    dsimp only
    cases he : g.inflight with
    | nil => exact watermark_le hs le_rfl (.inl (by simp [ha, he]))
    | cons it es =>
      rw [eraseBatch]
      split_ifs
      · refine watermark_le hs (le_max_left _ _) (.inl ?_)
        have := hle it (by simp [he])
        simp [ha, he, this, updateAhead]
      · refine watermark_le hs le_rfl (.inr ⟨?_, ?_⟩)
        · rw [hf.persistedState, ← hf.inflight, he]; rfl
        · rw [ha, he]; rfl

theorem persistedState_of_oldest_swapped : ∃ g, Reads 0 [[3, 7], [5]] [1] g ∧
    ∃ k ≤ 2, g.persistedState.max = ([[3, 7], [5]].take k).flatten.foldl max 0 := by
  have h : Reads 0 [[3, 7], [5]] [1] _ :=
    .markPersisted (.registerRead (.registerRead .init (by decide)) (by decide)) (by decide) (by decide)
  obtain ⟨k, hk, -, -, hm, -⟩ := (persistedState_of_oldest h).1
  exact ⟨_, h, k, hk, hm⟩

end Ytsaurus.Flow
