/-
# Merging replication progresses is a pointwise maximum

`UpdateReplicationProgress` and `BuildMaxProgress` walk the segments of two progresses in the order
of their keys. Seen as step functions, with the upper keys as steps back to the null timestamp, what
they append is the join of the two with the larger timestamp at each step, but for the last step,
which is the upper key of the result (`Merges`).
-/
import Ytsaurus.ChaosClient.ReplicationProgress
import Ytsaurus.Lib.Search

namespace Ytsaurus.ChaosClient

open List Lib

variable {κ : Type} [LinearOrder κ] {key : κ}

namespace ReplicationProgress

/-- There are segments, and their lower keys increase below the upper key. -/
structure WellFormed (progress : ReplicationProgress κ) : Prop where
  nonempty : progress.segments ≠ []
  increasing : progress.segments.Pairwise fun segment segment' => segment.1 < segment'.1
  below : ∀ segment ∈ progress.segments, segment.1 < progress.upperKey

/-- Where a progress starts. -/
def lowerKey (progress : ReplicationProgress κ) : Option κ := progress.segments.head?.map Prod.fst

/-- The keys from the first lower key up to the upper key. -/
def InDomain (progress : ReplicationProgress κ) (key : κ) : Prop :=
  (∃ lower ∈ progress.lowerKey, lower ≤ key) ∧ key < progress.upperKey

/-- The timestamp at a key, null outside of the domain. -/
def timestampAt (progress : ReplicationProgress κ) (key : κ) : Timestamp :=
  if key < progress.upperKey then valueAt nullTimestamp progress.segments key else nullTimestamp

/-- The progress as a step function on all keys. -/
def steps (progress : ReplicationProgress κ) : List (κ × Timestamp) :=
  progress.segments ++ [(progress.upperKey, nullTimestamp)]

variable {progress : ReplicationProgress κ}

section

variable (h : progress.WellFormed)

include h

theorem WellFormed.increasing_steps : Increasing progress.steps :=
  pairwise_append.mpr ⟨h.increasing, pairwise_singleton _ _, fun seg hseg step hstep => by
    rw [mem_singleton.mp hstep]
    exact h.below seg hseg⟩

theorem WellFormed.valueAt_steps (key : κ) :
    valueAt nullTimestamp progress.steps key = progress.timestampAt key := by
  rw [steps, valueAt_append_singleton _ _ _ _ _ fun seg hs => (h.below seg hs).le, timestampAt]
  by_cases hlt : key < progress.upperKey
  · rw [if_neg (not_le.mpr hlt), if_pos hlt]
  · rw [if_pos (not_lt.mp hlt), if_neg hlt]

theorem WellFormed.timestampAt_of_not_inDomain (hk : ¬progress.InDomain key) :
    progress.timestampAt key = nullTimestamp := by
  unfold timestampAt
  split_ifs with hlt
  · obtain ⟨first, rest, hs⟩ := exists_cons_of_ne_nil h.nonempty
    have hf : key < first.1 := by
      by_contra hge
      refine hk ⟨⟨first.1, ?_, not_lt.mp hge⟩, hlt⟩
      rw [lowerKey, hs]
      rfl
    rw [hs]
    exact valueAt_cons_of_lt hf _ _ _
  · rfl

theorem WellFormed.lowerKey_inDomain :
    ∃ lower ∈ progress.lowerKey, progress.InDomain lower := by
  obtain ⟨first, rest, hs⟩ := exists_cons_of_ne_nil h.nonempty
  have hl : first.1 ∈ progress.lowerKey := by
    rw [lowerKey, hs]
    rfl
  exact ⟨first.1, hl, ⟨first.1, hl, le_rfl⟩, h.below first (by rw [hs]; exact mem_cons_self)⟩

end

end ReplicationProgress

/-! ### What the loops append -/

theorem max_nullTimestamp (ts : Timestamp) : max ts nullTimestamp = ts := Nat.max_zero ts

theorem nullTimestamp_max (ts : Timestamp) : max nullTimestamp ts = ts := Nat.zero_max ts

omit [LinearOrder κ] in
theorem tryAppendSegment_eq (segments : List (κ × Timestamp)) (key : κ) (ts : Timestamp) :
    tryAppendSegment segments key ts = pushStep segments key ts := by
  unfold tryAppendSegment pushStep
  cases segments using reverseRecOn <;> simp

def maxSteps (steps : List (κ × Timestamp × Timestamp)) : List (κ × Timestamp) :=
  steps.map fun step => (step.1, max step.2.1 step.2.2)

/-- The result is what was there with the join of the two pushed on it, but for the last step, which
stands at the upper key. -/
def Merges (steps steps' : List (κ × Timestamp)) (timestamp timestamp' : Timestamp)
    (segments : List (κ × Timestamp)) (upperKey : κ) (result : List (κ × Timestamp)) : Prop :=
  ∃ joined, joinSteps steps steps' timestamp timestamp' = joined ++
    [(upperKey, nullTimestamp, nullTimestamp)] ∧ result = pushSteps segments (maxSteps joined)

section Merges

variable {steps steps' rest rest' segments result : List (κ × Timestamp)}
  {ts ts' new new' : Timestamp}
  {key upperKey : κ}

theorem Merges.step (hj : joinSteps steps steps' ts ts' =
      (key, new, new') :: joinSteps rest rest' new new') (h : Merges rest rest' new new'
      (tryAppendSegment segments key (max new new')) upperKey result) :
    Merges steps steps' ts ts' segments upperKey result := by
  obtain ⟨joined, heq, hr⟩ := h
  refine ⟨(key, new, new') :: joined, by rw [hj, heq, cons_append], ?_⟩
  rw [hr, tryAppendSegment_eq]
  rfl

theorem Merges.last (hj : joinSteps steps steps' ts ts' = [(upperKey, nullTimestamp, nullTimestamp)]) :
    Merges steps steps' ts ts' segments upperKey segments :=
  ⟨[], hj, rfl⟩

end Merges

/-! ### `UpdateReplicationProgress` -/

section Update

variable {upper updateUpperKey key : κ} {state : MergeState κ}

theorem processUpperKey_selected (h : state.upperKeySelected = true) :
    processUpperKey updateUpperKey key state = state := by
  rw [processUpperKey, if_pos h]

theorem processUpperKey_lt (h : key < updateUpperKey) :
    processUpperKey updateUpperKey key state = state := by
  rw [processUpperKey, if_pos h, ite_self]

theorem processUpperKey_eq (h : state.upperKeySelected = false) :
    processUpperKey key key state = state.passOther := by
  simp [processUpperKey, h]

theorem processUpperKey_gt (h : state.upperKeySelected = false) (hgt : updateUpperKey < key) :
    processUpperKey updateUpperKey key state = state.passOther.append updateUpperKey := by
  simp [processUpperKey, h, hgt, hgt.le]

theorem updateLoop_selected : ∀ (progress : List (κ × Timestamp)) (state : MergeState κ),
    state.upperKeySelected = true → state.otherTimestamp = nullTimestamp →
    Merges (progress ++ [(upper, nullTimestamp)]) [] state.progressTimestamp state.otherTimestamp
      state.segments upper
      (processUpperKey updateUpperKey upper (updateLoop updateUpperKey progress [] state)).segments
  | [], state, hs, ho => by
    rw [updateLoop, processUpperKey_selected hs, ho]
    exact Merges.last (by rw [nil_append, joinSteps_left, joinSteps])
  | (key, ts) :: progress, state, hs, ho => by
    rw [updateLoop, processUpperKey_selected hs]
    exact Merges.step joinSteps_left (updateLoop_selected progress (state.takeProgress key ts) hs ho)

/-- The loop from where the upper key of the update is yet to come. -/
theorem updateLoop_merges (hupper : updateUpperKey ≤ upper) :
    ∀ (progress update : List (κ × Timestamp)) (state : MergeState κ), state.upperKeySelected = false →
    (∀ seg ∈ update, seg.1 < updateUpperKey) →
    Merges (progress ++ [(upper, nullTimestamp)]) (update ++ [(updateUpperKey, nullTimestamp)])
      state.progressTimestamp state.otherTimestamp state.segments upper
      (processUpperKey updateUpperKey upper (updateLoop updateUpperKey progress update state)).segments
  | [], [], state, hs, _ => by
    rw [updateLoop]
    rcases hupper.eq_or_lt with heq | hlt
    · subst heq
      rw [processUpperKey_eq hs]
      exact Merges.last (by rw [nil_append, joinSteps_eq, joinSteps])
    · rw [processUpperKey_gt hs hlt]
      refine Merges.step (joinSteps_gt hlt) (Merges.last ?_)
      rw [joinSteps_left, joinSteps]
  | (key, ts) :: progress, [], state, hs, hupdate => by
    rw [updateLoop]
    rcases lt_trichotomy key updateUpperKey with hlt | heq | hgt
    · rw [processUpperKey_lt hlt]
      exact Merges.step (joinSteps_lt hlt)
        (updateLoop_merges hupper progress [] (state.takeProgress key ts) hs hupdate)
    · subst heq
      rw [processUpperKey_eq hs]
      exact Merges.step joinSteps_eq
        (updateLoop_selected progress (state.passOther.takeProgress key ts) rfl rfl)
    · rw [processUpperKey_gt hs hgt]
      exact Merges.step (joinSteps_gt hgt) (Merges.step joinSteps_left
        (updateLoop_selected progress
          ((state.passOther.append updateUpperKey).takeProgress key ts) rfl rfl))
  | [], (key, ts) :: update, state, hs, hupdate => by
    obtain ⟨hk, hr⟩ := forall_mem_cons.mp hupdate
    rw [updateLoop]
    exact Merges.step (joinSteps_gt (hk.trans_le hupper))
      (updateLoop_merges hupper [] update (state.takeOther key ts) hs hr)
  | (key, ts) :: progress, (key', ts') :: update, state, hs, hupdate => by
    have hr := (forall_mem_cons.mp hupdate).2
    rw [updateLoop]
    by_cases hlt : key < key'
    · rw [if_pos hlt]
      exact Merges.step (joinSteps_lt hlt)
        (updateLoop_merges hupper progress ((key', ts') :: update)
          (state.takeProgress key ts) hs hupdate)
    · rw [if_neg hlt]
      by_cases hgt : key' < key
      · rw [if_pos hgt]
        exact Merges.step (joinSteps_gt hgt)
          (updateLoop_merges hupper ((key, ts) :: progress) update (state.takeOther key' ts') hs hr)
      · obtain rfl : key = key' := le_antisymm (not_lt.mp hgt) (not_lt.mp hlt)
        rw [if_neg hgt]
        exact Merges.step joinSteps_eq
          (updateLoop_merges hupper progress update (state.takeBoth key ts ts') hs hr)
termination_by progress update => progress.length + update.length

end Update

/-! ### `BuildMaxProgress` -/

section Max

variable {upper upper' : κ}

variable {state : MergeState κ}

theorem finishMax_selected (h : state.upperKeySelected = true) :
    (finishMax upper upper' state).segments = state.segments := by
  simp [finishMax, h]

theorem maxLoop_left_selected {ts : Timestamp} {progress : List (κ × Timestamp)}
    (h : state.upperKeySelected = true) : maxLoop upper upper' ((key, ts) :: progress) [] state =
      maxLoop upper upper' progress [] (state.takeProgress key ts) := by
  rw [maxLoop, if_neg (by simp [h])]

theorem maxLoop_right_selected {ts : Timestamp} {other : List (κ × Timestamp)}
    (h : state.upperKeySelected = true) : maxLoop upper upper' [] ((key, ts) :: other) state =
      maxLoop upper upper' [] other (state.takeOther key ts) := by
  rw [maxLoop, if_neg (by simp [h])]

theorem maxLoop_merges_left : ∀ (progress : List (κ × Timestamp)) (state : MergeState κ),
    state.upperKeySelected = true → state.otherTimestamp = nullTimestamp →
    Merges (progress ++ [(upper, nullTimestamp)]) [] state.progressTimestamp state.otherTimestamp
      state.segments upper
      (finishMax upper upper' (maxLoop upper upper' progress [] state)).segments
  | [], state, hs, ho => by
    rw [maxLoop, finishMax_selected hs, ho]
    exact Merges.last (by rw [nil_append, joinSteps_left, joinSteps])
  | (key, ts) :: progress, state, hs, ho => by
    rw [maxLoop_left_selected hs]
    exact Merges.step joinSteps_left (maxLoop_merges_left progress (state.takeProgress key ts) hs ho)

theorem maxLoop_merges_right : ∀ (other : List (κ × Timestamp)) (state : MergeState κ),
    state.upperKeySelected = true → state.progressTimestamp = nullTimestamp →
    Merges [] (other ++ [(upper', nullTimestamp)]) state.progressTimestamp state.otherTimestamp
      state.segments upper'
      (finishMax upper upper' (maxLoop upper upper' [] other state)).segments
  | [], state, hs, hp => by
    rw [maxLoop, finishMax_selected hs, hp]
    exact Merges.last (by rw [nil_append, joinSteps_right, joinSteps])
  | (key, ts) :: other, state, hs, hp => by
    rw [maxLoop_right_selected hs]
    exact Merges.step joinSteps_right (maxLoop_merges_right other (state.takeOther key ts) hs hp)

/-- The loop from where both upper keys are yet to come. -/
theorem maxLoop_merges : ∀ (progress other : List (κ × Timestamp)) (state : MergeState κ),
    state.upperKeySelected = false → (∀ seg ∈ progress, seg.1 < upper) →
    (∀ seg ∈ other, seg.1 < upper') →
    Merges (progress ++ [(upper, nullTimestamp)]) (other ++ [(upper', nullTimestamp)])
      state.progressTimestamp state.otherTimestamp state.segments (max upper upper')
      (finishMax upper upper' (maxLoop upper upper' progress other state)).segments
  | [], [], state, hselected, _, _ => by
    rw [maxLoop]
    rcases lt_trichotomy upper upper' with hlt | heq | hgt
    · rw [max_eq_right hlt.le]
      refine Merges.step (joinSteps_lt hlt) ?_
      have hseg : (finishMax upper upper' state).segments =
          tryAppendSegment state.segments upper (max nullTimestamp state.otherTimestamp) := by
        simp [finishMax, hselected, hlt, hlt.not_gt, nullTimestamp]
      rw [hseg]
      exact Merges.last (by rw [joinSteps_right, joinSteps])
    · subst heq
      have hseg : (finishMax upper upper state).segments = state.segments := by
        simp [finishMax]
      rw [max_self, hseg]
      exact Merges.last (by rw [nil_append, joinSteps_eq, joinSteps])
    · rw [max_eq_left hgt.le]
      refine Merges.step (joinSteps_gt hgt) ?_
      have hseg : (finishMax upper upper' state).segments =
          tryAppendSegment state.segments upper' (max state.progressTimestamp nullTimestamp) := by
        simp [finishMax, hselected, hgt, nullTimestamp]
      rw [hseg]
      exact Merges.last (by rw [joinSteps_left, joinSteps])
  | (key, ts) :: progress, [], state, hselected, hp, ho => by
    obtain ⟨hk, hr⟩ := forall_mem_cons.mp hp
    rcases lt_trichotomy key upper' with hlt | heq | hgt
    · rw [maxLoop, if_neg (by simp [hlt])]
      exact Merges.step (joinSteps_lt hlt)
        (maxLoop_merges progress [] (state.takeProgress key ts) hselected hr ho)
    · subst heq
      rw [maxLoop, if_pos ⟨hselected, le_rfl⟩]
      rw [if_neg (lt_irrefl _), max_eq_left hk.le]
      exact Merges.step joinSteps_eq
        (maxLoop_merges_left progress (state.passOther.takeProgress key ts) rfl rfl)
    · rw [maxLoop, if_pos ⟨hselected, hgt.le⟩]
      rw [if_pos hgt, max_eq_left (hgt.trans hk).le]
      refine Merges.step (joinSteps_gt hgt) ?_
      rw [max_nullTimestamp]
      exact maxLoop_merges_left ((key, ts) :: progress)
        { state.passOther with
          segments := tryAppendSegment state.segments upper' state.progressTimestamp } rfl rfl
  | [], (key, ts) :: other, state, hselected, hp, ho => by
    obtain ⟨hk, hr⟩ := forall_mem_cons.mp ho
    rcases lt_trichotomy key upper with hlt | heq | hgt
    · rw [maxLoop, if_neg (by simp [hlt])]
      exact Merges.step (joinSteps_gt hlt)
        (maxLoop_merges [] other (state.takeOther key ts) hselected hp hr)
    · subst heq
      rw [maxLoop, if_pos ⟨hselected, le_rfl⟩]
      rw [if_neg (lt_irrefl _), max_eq_right hk.le]
      exact Merges.step joinSteps_eq
        (maxLoop_merges_right other (state.passProgress.takeOther key ts) rfl rfl)
    · rw [maxLoop, if_pos ⟨hselected, hgt.le⟩]
      rw [if_pos hgt, max_eq_right (hgt.trans hk).le]
      refine Merges.step (joinSteps_lt hgt) ?_
      exact maxLoop_merges_right ((key, ts) :: other)
        { state.passProgress with
          segments := tryAppendSegment state.segments upper state.otherTimestamp }
        rfl rfl
  | (key, ts) :: progress, (key', ts') :: other, state, hselected, hp, ho => by
    have hr := (forall_mem_cons.mp hp).2
    have hr' := (forall_mem_cons.mp ho).2
    rw [maxLoop]
    rcases lt_trichotomy key key' with hlt | heq | hgt
    · rw [if_pos hlt]
      exact Merges.step (joinSteps_lt hlt)
        (maxLoop_merges progress ((key', ts') :: other) (state.takeProgress key ts) hselected hr ho)
    · subst heq
      rw [if_neg (lt_irrefl _), if_neg (lt_irrefl _)]
      exact Merges.step joinSteps_eq
        (maxLoop_merges progress other (state.takeBoth key ts ts') hselected hr hr')
    · rw [if_neg hgt.not_gt, if_pos hgt]
      exact Merges.step (joinSteps_gt hgt)
        (maxLoop_merges ((key, ts) :: progress) other (state.takeOther key' ts') hselected hp hr')
termination_by progress other => progress.length + other.length

end Max

/-! ### The merged progress -/

namespace ReplicationProgress

variable {progress other result : ReplicationProgress κ}

/-- A merge of two well-formed progresses has their larger timestamp at every key, in segments that
differ from their neighbours. -/
theorem merges_spec (hp : progress.WellFormed) (ho : other.WellFormed)
    (h : Merges progress.steps other.steps nullTimestamp nullTimestamp
      [] result.upperKey result.segments) :
    Compressed result.segments ∧ (∀ seg ∈ result.segments, seg.1 < result.upperKey) ∧
      ∀ key, result.timestampAt key = max (progress.timestampAt key) (other.timestampAt key) := by
  obtain ⟨joined, hj, hr⟩ := h
  have hi := increasing_joinSteps _ _ nullTimestamp nullTimestamp hp.increasing_steps
    ho.increasing_steps
  rw [hj] at hi
  obtain ⟨hbefore, -, hbelow⟩ := pairwise_append.mp hi
  have hbelow : ∀ step ∈ joined, step.1 < result.upperKey := fun step hstep =>
    hbelow step hstep _ (mem_singleton_self _)
  have hmax : Increasing (maxSteps joined) := pairwise_map.mpr hbefore
  refine ⟨?_, ?_, fun key => ?_⟩
  · rw [hr]
    exact compressed_pushSteps _ _ hmax IsChain.nil fun _ hstep => absurd hstep not_mem_nil
  · rw [hr]
    refine forall_mem_pushSteps (P := fun key => key < result.upperKey) _ _
      (forall_mem_nil _) (forall_mem_map.mpr hbelow)
  · have hv := valueAt_joinSteps progress.steps other.steps nullTimestamp nullTimestamp key
    rw [hj, valueAt_append_singleton _ _ _ _ _ fun step hstep => (hbelow step hstep).le,
      hp.valueAt_steps, ho.valueAt_steps] at hv
    by_cases hlt : key < result.upperKey
    · rw [if_neg (not_le.mpr hlt)] at hv
      have hmap : valueAt nullTimestamp (maxSteps joined) key =
          max (valueAt (nullTimestamp, nullTimestamp) joined key).1
              (valueAt (nullTimestamp, nullTimestamp) joined key).2 :=
        valueAt_map (fun pair : Timestamp × Timestamp => max pair.1 pair.2) key
          (nullTimestamp, nullTimestamp) joined
      rw [hv] at hmap
      rw [timestampAt.eq_def result, if_pos hlt, hr, valueAt_pushSteps _ nullTimestamp _ _ _ hmax
        fun _ hstep => absurd hstep not_mem_nil, ← hmap]
      split_ifs with hstarts
      · rfl
      · exact (valueAt_of_lt fun step hstep => not_le.mp fun hle => hstarts ⟨step, hstep, hle⟩).symm
    · rw [if_pos (not_lt.mp hlt)] at hv
      obtain ⟨hn, hn'⟩ := Prod.mk.inj hv
      rw [timestampAt.eq_def result, if_neg hlt, ← hn, ← hn', max_self]

theorem lowerKey_of_merges {lower lower' : κ} (hp : lower ∈ progress.lowerKey)
    (ho : lower' ∈ other.lowerKey)
    (h : Merges progress.steps other.steps nullTimestamp nullTimestamp
      [] result.upperKey result.segments) : result.lowerKey = some (min lower lower') := by
  obtain ⟨joined, hj, hr⟩ := h
  obtain ⟨⟨lower, ts⟩, hf, rfl⟩ := Option.map_eq_some_iff.mp hp
  obtain ⟨⟨lower', ts'⟩, hf', rfl⟩ := Option.map_eq_some_iff.mp ho
  obtain ⟨rest, hs⟩ := head?_eq_some_iff.mp hf
  obtain ⟨rest', hs'⟩ := head?_eq_some_iff.mp hf'
  -- The first step of the join stands at the smaller key, and another one follows.
  have hh : ∃ pair more, more ≠ [] ∧ joinSteps progress.steps other.steps nullTimestamp nullTimestamp =
      (min lower lower', pair) :: more := by
    rw [steps, steps, hs, hs', cons_append, cons_append]
    rcases lt_trichotomy lower lower' with hlt | heq | hgt
    · rw [joinSteps_lt hlt, min_eq_left hlt.le]
      exact ⟨_, _, joinSteps_ne_nil _ _ _ _ (.inl (by simp)), rfl⟩
    · subst heq
      rw [joinSteps_eq, min_self]
      exact ⟨_, _, joinSteps_ne_nil _ _ _ _ (.inl (by simp)), rfl⟩
    · rw [joinSteps_gt hgt, min_eq_right hgt.le]
      exact ⟨_, _, joinSteps_ne_nil _ _ _ _ (.inl (by simp)), rfl⟩
  obtain ⟨pair, more, hm, hh⟩ := hh
  rw [hh] at hj
  cases joined with
  | nil => exact absurd (cons.inj hj).2 hm
  | cons step joined =>
    obtain rfl : (min lower lower', pair) = step := (cons.inj hj).1
    rw [lowerKey, hr, maxSteps, map_cons, pushSteps, foldl_cons, ← pushSteps,
      head?_pushSteps _ (by simp [pushStep])]
    simp [pushStep]

theorem wellFormed_of_compressed {lower : κ} (hl : result.lowerKey = some lower)
    (hc : Compressed result.segments) (hb : ∀ seg ∈ result.segments, seg.1 < result.upperKey) :
    result.WellFormed where
  nonempty hn := by simp [lowerKey, hn] at hl
  increasing := hc.increasing
  below := hb

end ReplicationProgress

open ReplicationProgress

theorem updateReplicationProgress_merges {progress update : ReplicationProgress κ}
    (hupper : update.upperKey ≤ progress.upperKey) (hu : update.WellFormed) :
    Merges progress.steps update.steps nullTimestamp nullTimestamp []
      (updateReplicationProgress progress update).upperKey
      (updateReplicationProgress progress update).segments :=
  updateLoop_merges hupper progress.segments update.segments MergeState.initial rfl hu.below

/-- `UpdateReplicationProgress` is a pointwise maximum. -/
theorem updateReplicationProgress_pointwise {progress update : ReplicationProgress κ}
    (hp : progress.WellFormed)
    (hu : update.WellFormed) (hcontained : ∀ key, update.InDomain key → progress.InDomain key) :
    (updateReplicationProgress progress update).WellFormed ∧
      (updateReplicationProgress progress update).lowerKey = progress.lowerKey ∧
      (updateReplicationProgress progress update).upperKey = progress.upperKey ∧
      (∀ key, update.InDomain key → (updateReplicationProgress progress update).timestampAt key =
        max (progress.timestampAt key) (update.timestampAt key)) ∧
      (∀ key, progress.InDomain key → ¬update.InDomain key →
        (updateReplicationProgress progress update).timestampAt key = progress.timestampAt key) ∧
      (updateReplicationProgress progress update).segments.IsChain fun segment segment' =>
        segment.2 ≠ segment'.2 := by
  obtain ⟨lower', hlower', hdomain'⟩ := hu.lowerKey_inDomain
  obtain ⟨⟨lower, hlower, hle⟩, hlt⟩ := hcontained lower' hdomain'
  -- Otherwise the upper key of the progress would be a key of the update.
  have hupper : update.upperKey ≤ progress.upperKey := by
    by_contra hgt
    exact lt_irrefl _ (hcontained progress.upperKey ⟨⟨lower', hlower', hlt.le⟩, not_le.mp hgt⟩).2
  have hmerges := updateReplicationProgress_merges hupper hu
  obtain ⟨hcompressed, hbelow, hvalue⟩ := merges_spec hp hu hmerges
  have hfirst := lowerKey_of_merges hlower hlower' hmerges
  rw [min_eq_left hle] at hfirst
  refine ⟨wellFormed_of_compressed hfirst hcompressed hbelow,
    hfirst.trans (Option.mem_def.mp hlower).symm, rfl,
    fun key _ => hvalue key, fun key _ hnot => ?_, hcompressed.imp fun _ _ h => h.2⟩
  rw [hvalue, hu.timestampAt_of_not_inDomain hnot, max_nullTimestamp]

/-- A progress over the keys 0 to 9, and an update of the keys 2 to 7. -/
def exampleProgress : ReplicationProgress ℕ := ⟨[(0, 5), (4, 20)], 10⟩

def exampleUpdate : ReplicationProgress ℕ := ⟨[(2, 10), (6, 30)], 8⟩

theorem exampleProgress_wellFormed : exampleProgress.WellFormed := ⟨by decide, by decide, by decide⟩

theorem exampleUpdate_wellFormed : exampleUpdate.WellFormed := ⟨by decide, by decide, by decide⟩

theorem updateReplicationProgress_pointwise_example :
    (updateReplicationProgress exampleProgress exampleUpdate).timestampAt 3 = 10 ∧
      (updateReplicationProgress exampleProgress exampleUpdate).timestampAt 9 = 20 := by
  have hcontained : ∀ key, exampleUpdate.InDomain key → exampleProgress.InDomain key := by
    simp only [InDomain, lowerKey, exampleUpdate, exampleProgress, head?_cons, Option.map_some,
      Option.mem_def, Option.some.injEq, exists_eq_left']
    omega
  obtain ⟨-, -, -, hinside, houtside, -⟩ :=
    updateReplicationProgress_pointwise exampleProgress_wellFormed exampleUpdate_wellFormed hcontained
  exact ⟨hinside 3 ⟨⟨2, rfl, by decide⟩, by decide⟩,
    houtside 9 ⟨⟨0, rfl, by decide⟩, by decide⟩ fun h => absurd h.2 (by decide)⟩

/-- `BuildMaxProgress` is the merge of two well-formed progresses. -/
theorem buildMaxProgress_spec {progress other : ReplicationProgress κ} (hp : progress.WellFormed)
    (ho : other.WellFormed) {lower lower' : κ} (hl : lower ∈ progress.lowerKey)
    (hl' : lower' ∈ other.lowerKey) : (buildMaxProgress progress other).WellFormed ∧
      (buildMaxProgress progress other).lowerKey = some (min lower lower') ∧
      (buildMaxProgress progress other).upperKey = max progress.upperKey other.upperKey ∧
      ∀ key, (buildMaxProgress progress other).timestampAt key = max (progress.timestampAt key)
        (other.timestampAt key) := by
  have hbuild : buildMaxProgress progress other = finishMax progress.upperKey other.upperKey
      (maxLoop progress.upperKey other.upperKey progress.segments other.segments
          MergeState.initial) := by
    simp [buildMaxProgress, hp.nonempty, ho.nonempty]
  have hu : (buildMaxProgress progress other).upperKey = max progress.upperKey other.upperKey := by
    rw [hbuild, finishMax, max_def_lt]
    dsimp only
    split_ifs with h1 h2 h2
    · exact absurd h1 h2.not_gt
    · rfl
    · rfl
    · exact le_antisymm (not_lt.mp h2) (not_lt.mp h1) ▸ rfl
  have hm : Merges progress.steps other.steps nullTimestamp nullTimestamp []
      (buildMaxProgress progress other).upperKey (buildMaxProgress progress other).segments := by
    rw [hu, hbuild]
    exact maxLoop_merges progress.segments other.segments MergeState.initial rfl hp.below ho.below
  obtain ⟨hc, hbelow, hv⟩ := merges_spec hp ho hm
  have hf := lowerKey_of_merges hl hl' hm
  exact ⟨wellFormed_of_compressed hf hc hbelow, hf, hu, hv⟩

/-- `BuildMaxProgress` is the pointwise maximum over both domains, in either order. -/
theorem buildMaxProgress_pointwise {progress other : ReplicationProgress κ}
    (hp : progress.WellFormed)
    (ho : other.WellFormed) : (buildMaxProgress progress other).WellFormed ∧
      (∀ lower ∈ progress.lowerKey, ∀ lower' ∈ other.lowerKey,
        (buildMaxProgress progress other).lowerKey = some (min lower lower')) ∧
      (buildMaxProgress progress other).upperKey = max progress.upperKey other.upperKey ∧
      (∀ key, (buildMaxProgress progress other).timestampAt key =
        max (progress.timestampAt key) (other.timestampAt key)) ∧
      ∀ key, (buildMaxProgress progress other).timestampAt key =
        (buildMaxProgress other progress).timestampAt key := by
  obtain ⟨lower, hlower, -⟩ := hp.lowerKey_inDomain
  obtain ⟨lower', hlower', -⟩ := ho.lowerKey_inDomain
  obtain ⟨hformed, hfirst, hupper, hvalue⟩ := buildMaxProgress_spec hp ho hlower hlower'
  obtain ⟨-, -, -, hvalue'⟩ := buildMaxProgress_spec ho hp hlower' hlower
  refine ⟨hformed, fun key hkey key' hkey' => ?_, hupper, hvalue, fun key => ?_⟩
  · rw [hfirst, Option.mem_unique hkey hlower, Option.mem_unique hkey' hlower']
  · rw [hvalue, hvalue', max_comm]

theorem buildMaxProgress_pointwise_example :
    (buildMaxProgress exampleProgress exampleUpdate).timestampAt 7 = 30 :=
  (buildMaxProgress_pointwise exampleProgress_wellFormed exampleUpdate_wellFormed).2.2.2.1 7

/-! ### `IsReplicationProgressGreaterOrEqual` -/

section GreaterOrEqual

variable {progressUpperKey upper otherUpperKey upper' : κ}

def Started (steps steps' : List (κ × Timestamp)) (key : κ) : Prop :=
  (∃ step ∈ steps, step.1 ≤ key) ∨ ∃ step ∈ steps', step.1 ≤ key

/-- From the next step on, below both upper keys, the first is at least the second. -/
def Dominates (progressUpperKey otherUpperKey : κ) (steps steps' : List (κ × Timestamp))
    (timestamp timestamp' : Timestamp) : Prop :=
  ∀ key, Started steps steps' key → key < progressUpperKey → key < otherUpperKey →
    valueAt timestamp' steps' key ≤ valueAt timestamp steps key

variable {steps : List (κ × Timestamp)} {ts ts' : Timestamp} {next : κ}

theorem started_iff (steps steps' : List (κ × Timestamp)) (key : κ) :
    Started steps steps' key ↔ ∃ step ∈ joinSteps steps steps' ts ts', step.1 ≤ key := by
  rw [← not_iff_not]
  simpa only [Started, not_or, not_exists, not_and] using
    (forall_mem_joinSteps (P := fun k => ¬k ≤ key) steps steps' ts ts').symm

/-- The values change at the steps of the join only. -/
theorem dominates_iff {steps' : List (κ × Timestamp)} (hs : Increasing steps)
    (hs' : Increasing steps') :
    Dominates upper upper' steps steps' ts ts' ↔ ∀ step ∈ joinSteps steps steps' ts ts',
      step.1 < upper → step.1 < upper' → step.2.2 ≤ step.2.1 := by
  have hj := increasing_joinSteps _ _ ts ts' hs hs'
  constructor
  · intro h step hstep hlt hlt'
    have hv := valueAt_joinSteps steps steps' ts ts' step.1
    rw [valueAt_of_mem hj step hstep] at hv
    rw [hv]
    exact h step.1 ((started_iff steps steps' step.1).mpr ⟨step, hstep, le_rfl⟩) hlt hlt'
  · intro h key hk hlt hlt'
    obtain ⟨step, hstep, hle, hv⟩ :=
      exists_step_valueAt hj ((started_iff steps steps' key).mp hk) (ts, ts')
    have hstep := h step hstep (hle.trans_lt hlt) (hle.trans_lt hlt')
    rwa [← hv, valueAt_joinSteps] at hstep

theorem exists_step_iff
    (ha : ∀ step ∈ steps, next < step.1) : (∃ step ∈ (next, ts) :: steps, step.1 ≤ key) ↔
      next ≤ key := by
  rw [exists_mem_cons_iff]
  exact or_iff_left_of_imp fun ⟨step, hs, hle⟩ => (ha step hs).le.trans hle

theorem compare_step {b : Bool} {joined : List (κ × Timestamp × Timestamp)} (hp : next < upper)
    (ho : next < upper')
    (h : b = true ↔ ∀ step ∈ joined, step.1 < upper → step.1 < upper' → step.2.2 ≤ step.2.1) :
    (if ts < ts' then false else b) = true ↔ ∀ step ∈ (next, ts, ts') :: joined, step.1 < upper →
      step.1 < upper' → step.2.2 ≤ step.2.1 := by
  rw [forall_mem_cons, ← h]
  split_ifs with hlt
  · simp [hp, ho, hlt]
  · simp [hp, ho, not_lt.mp hlt]

/-- The loop compares the steps of the join until an upper key is passed. -/
theorem greaterOrEqualLoop_iff : ∀ (progress other : List (κ × Timestamp)) (ts ts' : Timestamp),
    Increasing progress → Increasing other → (∀ seg ∈ progress, seg.1 < upper) →
    (∀ seg ∈ other, seg.1 < upper') →
    (greaterOrEqualLoop upper upper' progress other ts ts' = true ↔
      ∀ step ∈ joinSteps progress other ts ts', step.1 < upper → step.1 < upper' → step.2.2 ≤ step.2.1)
  | [], [], _, _, _, _, _, _ => by
    rw [greaterOrEqualLoop, joinSteps]
    simp
  | (key, new) :: progress, [], ts, ts', hp, ho, hb, hb' => by
    obtain ⟨ha, hp⟩ := increasing_cons.mp hp
    obtain ⟨hk, hr⟩ := forall_mem_cons.mp hb
    rw [greaterOrEqualLoop, joinSteps_left]
    by_cases hge : upper' ≤ key
    · have hafter := (forall_mem_joinSteps (P := (key < ·)) progress [] new ts').mpr ⟨ha, by simp⟩
      rw [if_pos hge]
      refine iff_of_true rfl (forall_mem_cons.mpr
        ⟨fun _ h => absurd h (not_lt.mpr hge), fun step hs _ h => ?_⟩)
      exact absurd (hge.trans_lt (hafter step hs)) h.not_gt
    · rw [if_neg hge]
      exact compare_step hk (not_le.mp hge) (greaterOrEqualLoop_iff progress [] new ts' hp ho hr hb')
  | [], (key, new) :: other, ts, ts', hp, ho, hb, hb' => by
    obtain ⟨ha, ho⟩ := increasing_cons.mp ho
    obtain ⟨hk, hr⟩ := forall_mem_cons.mp hb'
    rw [greaterOrEqualLoop, joinSteps_right]
    by_cases hge : upper ≤ key
    · have hafter := (forall_mem_joinSteps (P := (key < ·)) [] other ts new).mpr ⟨by simp, ha⟩
      rw [if_pos hge]
      refine iff_of_true rfl (forall_mem_cons.mpr
        ⟨fun h => absurd h (not_lt.mpr hge), fun step hs h => ?_⟩)
      exact absurd (hge.trans_lt (hafter step hs)) h.not_gt
    · rw [if_neg hge]
      exact compare_step (not_le.mp hge) hk (greaterOrEqualLoop_iff [] other ts new hp ho hb hr)
  | (key, new) :: progress, (key', new') :: other, ts, ts', hp, ho, hb, hb' => by
    have hp' := (increasing_cons.mp hp).2
    have ho' := (increasing_cons.mp ho).2
    obtain ⟨hk, hr⟩ := forall_mem_cons.mp hb
    obtain ⟨hk', hr'⟩ := forall_mem_cons.mp hb'
    rw [greaterOrEqualLoop]
    rcases lt_trichotomy key key' with hlt | heq | hgt
    · rw [if_pos hlt, joinSteps_lt hlt]
      exact compare_step hk (hlt.trans hk') (greaterOrEqualLoop_iff progress _ new ts' hp' ho hr hb')
    · subst heq
      rw [if_neg (lt_irrefl _), if_neg (lt_irrefl _), joinSteps_eq]
      exact compare_step hk hk' (greaterOrEqualLoop_iff progress other new new' hp' ho' hr hr')
    · rw [if_neg hgt.not_gt, if_pos hgt, joinSteps_gt hgt]
      exact compare_step (hgt.trans hk) hk' (greaterOrEqualLoop_iff _ other ts new' hp ho' hb hr')
termination_by progress other => progress.length + other.length

theorem lt_upperBound {segments : List (κ × Timestamp)} (h : Increasing segments) :
    ∀ seg ∈ (upperBound segments key).2, key < seg.1 :=
  lt_of_mem_dropWhile (h.imp le_of_lt)

end GreaterOrEqual

/-- `IsReplicationProgressGreaterOrEqual` compares the timestamps at all keys of both domains. -/
theorem isReplicationProgressGreaterOrEqual_iff {progress other : ReplicationProgress κ}
    (hp : progress.WellFormed) (ho : other.WellFormed) :
    ∃ result, isReplicationProgressGreaterOrEqual progress other = some result ∧
      (result = true ↔ ∀ key, progress.InDomain key → other.InDomain key →
        other.timestampAt key ≤ progress.timestampAt key) := by
  obtain ⟨⟨lower, timestamp⟩, rest, hsegments⟩ := exists_cons_of_ne_nil hp.nonempty
  set timestamp' := ((upperBound other.segments lower).1.getLast?.map Prod.snd).getD nullTimestamp
  set after := (upperBound other.segments lower).2 with hafter
  refine ⟨greaterOrEqualLoop progress.upperKey other.upperKey progress.segments after maxTimestamp
    timestamp', ?_, ?_⟩
  · rw [isReplicationProgressGreaterOrEqual, hsegments]
  have hsplit : (upperBound other.segments lower).1 ++ after = other.segments :=
    takeWhile_append_dropWhile
  -- The segments before the search point have started by the first key to compare.
  have hbefore : ∀ segment ∈ (upperBound other.segments lower).1, segment.1 ≤ lower :=
      fun segment hsegment => by
    simpa using mem_takeWhile_imp hsegment
  have hincreasing : Increasing after := by
    have := ho.increasing
    rw [← hsplit] at this
    exact (pairwise_append.mp this).2.1
  have hbelow : ∀ segment ∈ after, segment.1 < other.upperKey := fun segment hsegment =>
    ho.below segment (hsplit ▸ mem_append_right _ hsegment)
  have hvalue : ∀ key, lower ≤ key → key < other.upperKey →
      valueAt timestamp' after key = other.timestampAt key :=
    fun key hle hlt => by
      rw [timestampAt, if_pos hlt, ← hsplit,
        valueAt_append_of_le _ _ _ fun segment hsegment => (hbefore segment hsegment).trans hle]
  have hvalue' : ∀ key, lower ≤ key → key < progress.upperKey →
      valueAt maxTimestamp progress.segments key = progress.timestampAt key := fun key hle hlt => by
    rw [timestampAt, if_pos hlt, hsegments, valueAt_cons_of_le hle, valueAt_cons_of_le hle]
  have hstarted : ∀ key, Started progress.segments after key → lower ≤ key := fun key hkey => by
    rcases hkey with hkey | ⟨segment, hsegment, hle⟩
    · have hp := hp.increasing
      rw [hsegments] at hkey hp
      exact (exists_step_iff (increasing_cons.mp hp).1).mp hkey
    · exact (lt_upperBound ho.increasing segment hsegment).le.trans hle
  have hlower : ∀ key, progress.InDomain key ↔ lower ≤ key ∧ key < progress.upperKey := fun key => by
    simp [InDomain, lowerKey, hsegments]
  rw [greaterOrEqualLoop_iff _ _ _ _ hp.increasing hincreasing hp.below hbelow,
    ← dominates_iff hp.increasing hincreasing]
  constructor
  · intro h key hkey hkey'
    obtain ⟨hle, hlt⟩ := (hlower key).mp hkey
    have hcome : Started progress.segments after key :=
      .inl ⟨(lower, timestamp), hsegments ▸ mem_cons_self, hle⟩
    rw [← hvalue key hle hkey'.2, ← hvalue' key hle hlt]
    exact h key hcome hlt hkey'.2
  · intro h key hkey hlt hlt'
    have hle := hstarted key hkey
    rw [hvalue key hle hlt', hvalue' key hle hlt]
    by_cases hdomain : other.InDomain key
    · exact h key ((hlower key).mpr ⟨hle, hlt⟩) hdomain
    · rw [ho.timestampAt_of_not_inDomain hdomain]
      exact Nat.zero_le _

theorem isReplicationProgressGreaterOrEqual_iff_example :
    ∃ result, isReplicationProgressGreaterOrEqual exampleProgress exampleUpdate = some result ∧
      (result = true ↔ ∀ key, exampleProgress.InDomain key → exampleUpdate.InDomain key →
        exampleUpdate.timestampAt key ≤ exampleProgress.timestampAt key) :=
  isReplicationProgressGreaterOrEqual_iff exampleProgress_wellFormed exampleUpdate_wellFormed

end Ytsaurus.ChaosClient
