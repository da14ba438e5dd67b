/-
# The shape of a replication progress

The lower keys of a progress increase and stay below its upper key; the binary searches of
`replication_card.cpp` rely on it. `AdvanceReplicationProgress` and
`LimitReplicationProgressByTimestamp` keep the shape and are the pointwise maximum and minimum with
a timestamp.

`UpdateReplicationProgress` never looks at the upper key of the progress while it takes segments of
the update. An update that ends at or before that key keeps the shape. Of one that goes on, the
segments from the upper key on are appended as well, unless none of them changes the timestamp
(`StaysBelowUpperKey`), and exactly then the shape is kept.
-/
import Ytsaurus.ChaosClient.ProgressMerge

namespace Ytsaurus.ChaosClient

open List Lib ReplicationProgress

variable {κ : Type} [LinearOrder κ]

/-! ### Timestamps and segments -/

section Segments

variable {progress : ReplicationProgress κ}

theorem timestampAt_segment (hp : progress.WellFormed) {seg : κ × Timestamp}
    (hseg : seg ∈ progress.segments) :
    progress.InDomain seg.1 ∧ progress.timestampAt seg.1 = seg.2 := by
  obtain ⟨first, rest, hsegments⟩ := exists_cons_of_ne_nil hp.nonempty
  have hlower : first.1 ∈ progress.lowerKey := by
    rw [lowerKey, hsegments]
    rfl
  have hle : first.1 ≤ seg.1 := by
    have hi : Increasing (first :: rest) := hsegments ▸ hp.increasing
    rw [hsegments] at hseg
    rcases mem_cons.mp hseg with rfl | hseg
    · exact le_rfl
    · exact ((increasing_cons.mp hi).1 seg hseg).le
  refine ⟨⟨⟨first.1, hlower, hle⟩, hp.below seg hseg⟩, ?_⟩
  rw [timestampAt, if_pos (hp.below seg hseg), valueAt_of_mem hp.increasing seg hseg]

theorem exists_segment (hp : progress.WellFormed) {key : κ} (hk : progress.InDomain key) :
    ∃ seg ∈ progress.segments, progress.timestampAt key = seg.2 := by
  obtain ⟨⟨lower, hlower, hle⟩, hlt⟩ := hk
  obtain ⟨first, hf, rfl⟩ := Option.map_eq_some_iff.mp hlower
  obtain ⟨seg, hs, -, hv⟩ :=
    exists_step_valueAt hp.increasing ⟨first, mem_of_head? hf, hle⟩ nullTimestamp
  refine ⟨seg, hs, ?_⟩
  rw [timestampAt, if_pos hlt, hv]

end Segments

/-! ### `AdvanceReplicationProgress` and `LimitReplicationProgressByTimestamp` -/

/-- The loop of both: segments whose timestamp `keeps` are copied, of the others in a row the first
one is copied with the timestamp given. -/
def clampLoop (keeps : Timestamp → Bool) (timestamp : Timestamp) :
    List (κ × Timestamp) → List (κ × Timestamp) → List (κ × Timestamp)
  | [], result => result
  | segment :: segments, result =>
    if keeps segment.2 then clampLoop keeps timestamp segments (result ++ [segment])
    else if result.isEmpty ∨ result.getLast?.any (fun back => keeps back.2) then
      clampLoop keeps timestamp segments (result ++ [(segment.1, timestamp)])
    else clampLoop keeps timestamp segments result

def advanceReplicationProgress (progress : ReplicationProgress κ) (timestamp : Timestamp) :
    ReplicationProgress κ :=
  { progress with
    segments := clampLoop (fun t => decide (timestamp < t)) timestamp progress.segments [] }

def limitReplicationProgressByTimestamp (progress : ReplicationProgress κ) (timestamp : Timestamp) :
    ReplicationProgress κ :=
  { progress with
    segments := clampLoop (fun t => decide (t < timestamp)) timestamp progress.segments [] }

section Clamp

variable {keeps : Timestamp → Bool} {timestamp ts : Timestamp}

def clamped (keeps : Timestamp → Bool) (timestamp t : Timestamp) : Timestamp :=
  if keeps t then t else timestamp

/-- What the loop adds, told from the front: `inRow` says that the last segment was clamped. -/
def clampFrom (keeps : Timestamp → Bool) (timestamp : Timestamp) : Bool → List (κ × Timestamp) →
    List (κ × Timestamp)
  | _, [] => []
  | inRow, segment :: segments =>
    if keeps segment.2 then segment :: clampFrom keeps timestamp false segments
    else if inRow then clampFrom keeps timestamp true segments
    else (segment.1, timestamp) :: clampFrom keeps timestamp true segments

omit [LinearOrder κ] in
theorem clampLoop_eq (ht : keeps ts = false) :
    ∀ (segs result : List (κ × Timestamp)) (inRow : Bool),
    (inRow = true ↔ ∃ back ∈ result.getLast?, keeps back.2 = false) →
    clampLoop keeps ts segs result = result ++ clampFrom keeps ts inRow segs
  | [], result, _, _ => by simp [clampLoop, clampFrom]
  | seg :: segs, result, inRow, hr => by
    rw [clampLoop, clampFrom]
    by_cases hk : keeps seg.2 = true
    · have ih := clampLoop_eq ht segs (result ++ [seg]) false (by simp [hk])
      rw [if_pos hk, if_pos hk, ih, append_assoc, singleton_append]
    · rw [if_neg hk, if_neg hk]
      -- a new segment is needed unless the last one has the timestamp already
      have hn : (result.isEmpty = true ∨ result.getLast?.any (fun back => keeps back.2) = true) ↔
          ¬inRow = true := by
        rw [hr]
        cases result using reverseRecOn <;> simp
      by_cases hin : inRow = true
      · have ih := clampLoop_eq ht segs result true (by rwa [hin] at hr)
        rw [if_neg (fun h => hn.mp h hin), if_pos hin, ih]
      · have ih := clampLoop_eq ht segs (result ++ [(seg.1, ts)]) true (by simp [ht])
        rw [if_pos (hn.mpr hin), if_neg hin, ih, append_assoc, singleton_append]

omit [LinearOrder κ] in
theorem clampFrom_sublist : ∀ (segs : List (κ × Timestamp)) (inRow : Bool),
    ((clampFrom keeps ts inRow segs).map Prod.fst).Sublist (segs.map Prod.fst)
  | [], _ => Sublist.refl _
  | seg :: segs, inRow => by
    rw [clampFrom]
    split_ifs
    · exact (clampFrom_sublist segs false).cons_cons _
    · exact (clampFrom_sublist segs true).cons _
    · exact (clampFrom_sublist segs true).cons_cons _

theorem valueAt_clampFrom (htime : keeps ts = false) (x : κ) :
    ∀ (segs : List (κ × Timestamp)) (inRow : Bool) (value : Timestamp), Increasing segs →
    (inRow = true → keeps value = false) →
    valueAt (clamped keeps ts value) (clampFrom keeps ts inRow segs) x = clamped keeps ts
      (valueAt value segs x)
  | [], _, _, _, _ => rfl
  | (key, t) :: segs, inRow, value, hincreasing, hr => by
    obtain ⟨ha, hincreasing⟩ := increasing_cons.mp hincreasing
    rw [clampFrom]
    by_cases hk : keeps t = true
    · have ih := valueAt_clampFrom htime x segs false t hincreasing (by simp)
      rw [clamped, if_pos hk] at ih
      rw [if_pos hk, valueAt, valueAt, ih]
      split_ifs <;> rfl
    · have ih := valueAt_clampFrom htime x segs true t hincreasing (by simpa using hk)
      have ht : clamped keeps ts t = ts := if_neg hk
      rw [ht] at ih
      rw [if_neg hk]
      by_cases hin : inRow = true
      · have hv : clamped keeps ts value = ts := if_neg (by simpa using hr hin)
        rw [if_pos hin, hv, ih]
        rcases le_or_gt key x with hle | hlt
        · rw [valueAt_cons_of_le hle]
        · -- before the segment left out the row goes on
          rw [valueAt_cons_of_lt hlt, hv, valueAt_of_lt fun seg hs => hlt.trans (ha seg hs), ht]
      · rw [if_neg hin, valueAt, valueAt, ih]
        split_ifs <;> rfl

theorem clamp_spec {progress : ReplicationProgress κ} (hp : progress.WellFormed)
    (keeps : Timestamp → Bool) (ht : keeps ts = false) (result : ReplicationProgress κ)
    (hu : result.upperKey = progress.upperKey)
    (hr : result.segments = clampLoop keeps ts progress.segments []) :
    result.WellFormed ∧ result.lowerKey = progress.lowerKey ∧ ∀ key, progress.InDomain key →
      result.timestampAt key = clamped keeps ts (progress.timestampAt key) := by
  rw [clampLoop_eq ht progress.segments [] false (by simp), nil_append] at hr
  have hsub : ((clampFrom keeps ts false progress.segments).map Prod.fst).Sublist
      (progress.segments.map Prod.fst) := clampFrom_sublist progress.segments false
  rw [← hr] at hsub
  obtain ⟨first, rest, hseg⟩ := exists_cons_of_ne_nil hp.nonempty
  have hi : Increasing (first :: rest) := hseg ▸ hp.increasing
  have hf : result.segments = (first.1, clamped keeps ts first.2) ::
      clampFrom keeps ts (!keeps first.2) rest := by
    rw [hr, hseg, clampFrom]
    by_cases hkeeps : keeps first.2 = true
    · simp [hkeeps, clamped]
    · simp [hkeeps, clamped]
  refine ⟨⟨?_, ?_, ?_⟩, ?_, fun key hkey => ?_⟩
  · rw [hf]
    exact cons_ne_nil _ _
  · have hkeys : (progress.segments.map Prod.fst).Pairwise (· < ·) := pairwise_map.mpr hp.increasing
    exact pairwise_map.mp (hkeys.sublist hsub)
  · intro seg hsegment
    obtain ⟨seg', hseg', hkey⟩ := mem_map.mp (hsub.subset (mem_map_of_mem hsegment))
    rw [hu, ← hkey]
    exact hp.below seg' hseg'
  · rw [lowerKey, lowerKey, hf, hseg]
    rfl
  · obtain ⟨⟨lower, hlower, hle⟩, hlt⟩ := hkey
    have hle : first.1 ≤ key := by
      rw [lowerKey, hseg] at hlower
      rwa [← Option.mem_some.mp hlower] at hle
    have hv := valueAt_clampFrom ht key rest (!keeps first.2) first.2 (increasing_cons.mp hi).2
      (by simp)
    rw [timestampAt, timestampAt, hu, if_pos hlt, if_pos hlt, hf, hseg, valueAt_cons_of_le hle, hv,
      valueAt_cons_of_le hle]

end Clamp

variable {progress : ReplicationProgress κ}

theorem advanceReplicationProgress_spec (hp : progress.WellFormed) (ts : Timestamp) :
    (advanceReplicationProgress progress ts).WellFormed ∧
      (advanceReplicationProgress progress ts).lowerKey = progress.lowerKey ∧
      ∀ key, progress.InDomain key → (advanceReplicationProgress progress ts).timestampAt key =
          max (progress.timestampAt key) ts := by
  obtain ⟨hf, hl, hv⟩ := clamp_spec hp (fun t => decide (ts < t)) (by simp)
    (advanceReplicationProgress progress ts) rfl rfl
  refine ⟨hf, hl, fun key hk => ?_⟩
  rw [hv key hk]
  simp only [clamped, decide_eq_true_eq]
  by_cases h : ts < progress.timestampAt key
  · rw [if_pos h, max_eq_left h.le]
  · rw [if_neg h, max_eq_right (not_lt.mp h)]

theorem limitReplicationProgressByTimestamp_spec (hp : progress.WellFormed) (ts : Timestamp) :
    (limitReplicationProgressByTimestamp progress ts).WellFormed ∧ ∀ key, progress.InDomain key →
        (limitReplicationProgressByTimestamp progress ts).timestampAt key =
          min (progress.timestampAt key) ts := by
  obtain ⟨hf, -, hv⟩ := clamp_spec hp (fun t => decide (t < ts)) (by simp)
    (limitReplicationProgressByTimestamp progress ts) rfl rfl
  refine ⟨hf, fun key hk => ?_⟩
  rw [hv key hk]
  simp only [clamped, decide_eq_true_eq]
  by_cases h : progress.timestampAt key < ts
  · rw [if_pos h, min_eq_left h.le]
  · rw [if_neg h, min_eq_right (not_lt.mp h)]

/-! ### `UpdateReplicationProgress` past the upper key -/

/-- The timestamp of the last segment below a key. -/
def lastTimestampBelow (segments : List (κ × Timestamp)) (key : κ) : Timestamp :=
  lastValue nullTimestamp (segments.takeWhile fun segment => decide (segment.1 < key))

/-- No segment of the update from the upper key of the progress on changes the larger timestamp. -/
def StaysBelowUpperKey (progress update : ReplicationProgress κ) : Prop :=
  ∀ segment ∈ update.segments, progress.upperKey ≤ segment.1 →
    max (lastTimestampBelow progress.segments progress.upperKey) segment.2 =
      max (lastTimestampBelow progress.segments progress.upperKey)
        (lastTimestampBelow update.segments progress.upperKey)

instance (progress update : ReplicationProgress κ) :
    Decidable (StaysBelowUpperKey progress update) := by
  unfold StaysBelowUpperKey
  infer_instance

variable {joined : List (κ × Timestamp × Timestamp)}

omit [LinearOrder κ] in
theorem pushSteps_take (segs : List (κ × Timestamp)) {key : κ} {ts ts' : Timestamp} :
    pushSteps (tryAppendSegment segs key (max ts ts')) (maxSteps joined) =
      pushSteps segs (maxSteps ((key, ts, ts') :: joined)) := by
  rw [tryAppendSegment_eq]
  rfl

/-- As long as the upper key of the update is ahead, the loop pushes the join of both. -/
theorem updateLoop_segments {upper' : κ} :
    ∀ (progress update : List (κ × Timestamp)) (state : MergeState κ),
    state.upperKeySelected = false → (∀ seg ∈ progress, seg.1 < upper') →
    (updateLoop upper' progress update state).segments = pushSteps state.segments
        (maxSteps (joinSteps progress update state.progressTimestamp state.otherTimestamp))
  | [], [], state, _, _ => by
    rw [updateLoop, joinSteps]
    rfl
  | (key, ts) :: progress, [], state, hs, hb => by
    obtain ⟨hk, hr⟩ := forall_mem_cons.mp hb
    have ih := updateLoop_segments progress [] (state.takeProgress key ts) hs hr
    rw [updateLoop, processUpperKey_lt hk, ih, joinSteps_left]
    exact pushSteps_take state.segments
  | [], (key, ts) :: update, state, hs, hb => by
    have ih := updateLoop_segments [] update (state.takeOther key ts) hs hb
    rw [updateLoop, ih, joinSteps_right]
    exact pushSteps_take state.segments
  | (key, ts) :: progress, (key', ts') :: update, state, hs, hb => by
    have hr := (forall_mem_cons.mp hb).2
    rw [updateLoop]
    rcases lt_trichotomy key key' with hlt | heq | hgt
    · have ih := updateLoop_segments progress ((key', ts') :: update) (state.takeProgress key ts) hs hr
      rw [if_pos hlt, ih, joinSteps_lt hlt]
      exact pushSteps_take state.segments
    · subst heq
      have ih := updateLoop_segments progress update (state.takeBoth key ts ts') hs hr
      rw [if_neg (lt_irrefl _), if_neg (lt_irrefl _), ih, joinSteps_eq]
      exact pushSteps_take state.segments
    · have ih := updateLoop_segments ((key, ts) :: progress) update (state.takeOther key' ts') hs hb
      rw [if_neg hgt.not_gt, if_pos hgt, ih, joinSteps_gt hgt]
      exact pushSteps_take state.segments
termination_by progress update => progress.length + update.length

omit [LinearOrder κ] in
theorem getLast?_maxSteps (hne : joined ≠ []) (pair : Timestamp × Timestamp) :
    (maxSteps joined).getLast?.map Prod.snd =
      some (max (lastValue pair joined).1 (lastValue pair joined).2) := by
  have hl : joined.getLast? = some (joined.getLast hne) := getLast?_eq_some_getLast hne
  simp [maxSteps, lastValue, hl]

variable {update : ReplicationProgress κ}

theorem updateReplicationProgress_segments (hp : progress.WellFormed)
    (hu : progress.upperKey < update.upperKey) {below beyond : List (κ × Timestamp)}
    (hsplit : update.segments = below ++ beyond)
    (hbeyond : ∀ seg ∈ beyond, progress.upperKey ≤ seg.1) :
    (updateReplicationProgress progress update).segments = pushSteps
        (pushSteps [] (maxSteps (joinSteps progress.segments below nullTimestamp nullTimestamp)))
        (beyond.map fun seg => (seg.1, max (lastValue nullTimestamp progress.segments) seg.2)) := by
  have hbelow : ∀ seg ∈ progress.segments, seg.1 < update.upperKey :=
    fun seg hseg => (hp.below seg hseg).trans hu
  have hl := updateLoop_segments progress.segments update.segments MergeState.initial rfl hbelow
  have ha := joinSteps_append_right progress.segments below beyond nullTimestamp nullTimestamp
    fun seg hseg seg' hseg' => (hp.below seg hseg).trans_le (hbeyond seg' hseg')
  rw [updateReplicationProgress]
  rw [processUpperKey_lt hu, hl, hsplit]
  dsimp only [MergeState.initial]
  rw [ha, maxSteps, map_append, map_map]
  exact foldl_append

/-- An update that goes on past the upper key keeps the shape exactly when it changes nothing there.
-/
theorem wellFormed_iff_of_lt (hp : progress.WellFormed)
    (hu : update.WellFormed) (hupper : progress.upperKey < update.upperKey) :
    (updateReplicationProgress progress update).WellFormed ↔ StaysBelowUpperKey progress update := by
  set below := update.segments.takeWhile fun seg => decide (seg.1 < progress.upperKey) with hd
  set beyond := update.segments.dropWhile fun seg => decide (seg.1 < progress.upperKey)
  have hsplit : update.segments = below ++ beyond := takeWhile_append_dropWhile.symm
  have hbelow : ∀ seg ∈ below, seg.1 < progress.upperKey := fun seg hseg => by
    simpa using mem_takeWhile_imp hseg
  have hbeyond : ∀ seg ∈ beyond, progress.upperKey ≤ seg.1 :=
    le_of_mem_dropWhile (hu.increasing.imp le_of_lt)
  -- what is there before the first segment past the upper key
  set joined := joinSteps progress.segments below nullTimestamp nullTimestamp with hj
  have hne : joined ≠ [] := joinSteps_ne_nil _ _ _ _ (.inl hp.nonempty)
  have hi : Increasing joined :=
    increasing_joinSteps _ _ _ _ hp.increasing (hu.increasing.sublist (takeWhile_sublist _))
  have hmax : Increasing (maxSteps joined) := pairwise_map.mpr hi
  set out := pushSteps [] (maxSteps joined)
  have ho : ∀ seg ∈ out, seg.1 < progress.upperKey := by
    refine forall_mem_pushSteps (P := fun key => key < progress.upperKey) _ _ (by simp)
      (forall_mem_map.mpr ?_)
    exact (forall_mem_joinSteps (P := fun key => key < progress.upperKey) _ _ _ _).mpr ⟨hp.below, hbelow⟩
  have hl : out.getLast?.map Prod.snd =
      some (max (lastValue nullTimestamp progress.segments) (lastValue nullTimestamp below)) := by
    rw [getLast?_pushSteps _ _ (by simpa [maxSteps] using hne),
      getLast?_maxSteps hne (nullTimestamp, nullTimestamp), hj, lastValue_joinSteps]
  -- and what is pushed after it
  have hsegments := updateReplicationProgress_segments hp hupper hsplit hbeyond
  set pushed := beyond.map fun seg => (seg.1, max (lastValue nullTimestamp progress.segments) seg.2)
  have hpushed : ∀ step ∈ pushed, progress.upperKey ≤ step.1 := forall_mem_map.mpr hbeyond
  have hc : Compressed (updateReplicationProgress progress update).segments := by
    rw [hsegments]
    refine compressed_pushSteps pushed out ?_ ?_ fun step hstep step' hstep' => ?_
    · exact pairwise_map.mpr (hu.increasing.sublist (dropWhile_sublist _))
    · exact compressed_pushSteps _ _ hmax IsChain.nil (by simp)
    · exact (ho step hstep).trans_le (hpushed step' hstep')
  have hshape : (updateReplicationProgress progress update).WellFormed ↔
      ∀ seg ∈ pushSteps out pushed, seg.1 < progress.upperKey := by
    rw [← hsegments]
    refine ⟨fun h => h.below, fun h => ⟨?_, hc.increasing, h⟩⟩
    obtain ⟨seg, hseg, -⟩ := Option.map_eq_some_iff.mp hl
    rw [hsegments]
    exact ne_nil_of_mem (mem_pushSteps_of_mem pushed (mem_of_getLast? hseg))
  have hw : progress.segments.takeWhile (fun seg => decide (seg.1 < progress.upperKey)) =
      progress.segments := takeWhile_eq_self_iff.mpr fun seg hseg => by simpa using hp.below seg hseg
  rw [hshape, pushSteps_lt_iff pushed out ho hpushed hl, forall_mem_map, StaysBelowUpperKey,
    lastTimestampBelow, lastTimestampBelow, hw, ← hd, hsplit]
  constructor
  · intro h seg hseg hge
    rcases mem_append.mp hseg with hmem | hmem
    · exact absurd (hbelow seg hmem) (not_lt.mpr hge)
    · exact h seg hmem
  · exact fun h seg hseg => h seg (mem_append_right _ hseg) (hbeyond seg hseg)

theorem updateReplicationProgress_wellFormed_iff (hp : progress.WellFormed)
    (hu : update.WellFormed) : (updateReplicationProgress progress update).WellFormed ↔
      StaysBelowUpperKey progress update := by
  rcases le_or_gt update.upperKey progress.upperKey with hle | hgt
  · -- the update ends first
    have hm := updateReplicationProgress_merges hle hu
    obtain ⟨lower, hlower, -⟩ := hp.lowerKey_inDomain
    obtain ⟨lower', hlower', -⟩ := hu.lowerKey_inDomain
    obtain ⟨hc, hb, -⟩ := merges_spec hp hu hm
    refine iff_of_true (wellFormed_of_compressed (lowerKey_of_merges hlower hlower' hm) hc hb) ?_
    intro seg hs hge
    exact absurd ((hu.below seg hs).trans_le hle) (not_lt.mpr hge)
  · exact wellFormed_iff_of_lt hp hu hgt

/-- A progress below the key 2, and an update from 1 to 4 whose timestamp changes at 3. -/
theorem updateReplicationProgress_not_wellFormed :
    (⟨[(0, 0)], 2⟩ : ReplicationProgress ℕ).WellFormed ∧
      (⟨[(1, 1), (3, 5)], 4⟩ : ReplicationProgress ℕ).WellFormed ∧ ¬(updateReplicationProgress
        ⟨[(0, 0)], 2⟩ ⟨[(1, 1), (3, 5)], 4⟩ : ReplicationProgress ℕ).WellFormed := by
  have hp : (⟨[(0, 0)], 2⟩ : ReplicationProgress ℕ).WellFormed := ⟨by decide, by decide, by decide⟩
  have hu : (⟨[(1, 1), (3, 5)], 4⟩ : ReplicationProgress ℕ).WellFormed :=
    ⟨by decide, by decide, by decide⟩
  refine ⟨hp, hu, fun h => ?_⟩
  exact absurd ((updateReplicationProgress_wellFormed_iff hp hu).mp h) (by decide)

/-- The three operations and the shape of a progress. -/
theorem progress_wellFormed_iff {progress update : ReplicationProgress κ} (hp : progress.WellFormed)
    (hu : update.WellFormed) (timestamp : Timestamp) :
    ((updateReplicationProgress progress update).WellFormed ↔ StaysBelowUpperKey progress update) ∧
      (advanceReplicationProgress progress timestamp).WellFormed ∧ (∀ key, progress.InDomain key →
        (advanceReplicationProgress progress timestamp).timestampAt key =
          max (progress.timestampAt key) timestamp) ∧
      (limitReplicationProgressByTimestamp progress timestamp).WellFormed ∧
      ∀ key, progress.InDomain key →
        (limitReplicationProgressByTimestamp progress timestamp).timestampAt key =
          min (progress.timestampAt key) timestamp := by
  obtain ⟨hadvanced, -, hmax⟩ := advanceReplicationProgress_spec hp timestamp
  obtain ⟨hlimited, hmin⟩ := limitReplicationProgressByTimestamp_spec hp timestamp
  exact ⟨updateReplicationProgress_wellFormed_iff hp hu, hadvanced, hmax, hlimited, hmin⟩

theorem progress_wellFormed_iff_example : (updateReplicationProgress ⟨[(0, 0)], 2⟩
      ⟨[(1, 1), (3, 1)], 4⟩ : ReplicationProgress ℕ).WellFormed := by
  have hp : (⟨[(0, 0)], 2⟩ : ReplicationProgress ℕ).WellFormed := ⟨by decide, by decide, by decide⟩
  have hu : (⟨[(1, 1), (3, 1)], 4⟩ : ReplicationProgress ℕ).WellFormed :=
    ⟨by decide, by decide, by decide⟩
  exact (progress_wellFormed_iff hp hu 0).1.mpr (by decide)

end Ytsaurus.ChaosClient
