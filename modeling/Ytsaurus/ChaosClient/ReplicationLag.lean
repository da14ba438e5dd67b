/-
# The lag of a replica behind the sync progress

`ComputeReplicationProgressLag` sweeps over the segments of the sync progress and of a replica's
progress in the order of their keys and keeps the largest difference of their timestamps. The lag of
a replica is the largest difference over all keys of the sync progress.

The difference changes at lower keys of segments and at the upper key of the replica. The sweep
looks at all of the lower keys (`lagLoop_le_iff`), and after it at the last timestamp of the sync
progress if that goes on past the replica. It notices the replica's upper key only at the next
segment of the sync progress, whose timestamp may be smaller: what lies between is seen only as a
part of the last segment, or when it is no worse than another lag (`SeesReplicaEnd`). A replica
without segments is at the null timestamp everywhere, but the difference is taken the other way
round and is zero.

`ComputeReplicasLag` compares every replica that is not in its last era with `BuildMaxSyncProgress`,
which ends where the replica does.
-/
import Ytsaurus.ChaosClient.SyncProgress

namespace Ytsaurus.ChaosClient

open List Lib ReplicationProgress

/-- Durations in microseconds. -/
abbrev Duration := ℕ

/-! ### Durations -/

def timestampCounterWidth : ℕ := 30

def unixTimeFromTimestamp (timestamp : Timestamp) : ℕ := timestamp >>> timestampCounterWidth

def timestampFromUnixTime (time : ℕ) : Timestamp := time <<< timestampCounterWidth

/-- The instants between which a timestamp lies, in microseconds. -/
def timestampToInstant (timestamp : Timestamp) : ℕ × ℕ :=
  let instant := unixTimeFromTimestamp timestamp * 1000000
  (instant, instant + 1000000)

/-- The least and the greatest duration between two timestamps. -/
def timestampDiffToDuration (loTimestamp hiTimestamp : Timestamp) : Duration × Duration :=
  let loInstant := timestampToInstant loTimestamp
  let hiInstant := timestampToInstant hiTimestamp
  (if loInstant.2 ≤ hiInstant.1 then hiInstant.1 - loInstant.2 else 0, hiInstant.2 - loInstant.1)

variable {κ : Type} [LinearOrder κ]

/-! ### The sweep -/

def getReplicationProgressMaxTimestamp (progress : ReplicationProgress κ) : Timestamp :=
  progress.segments.foldl (fun maxTimestamp segment => max segment.2 maxTimestamp) minTimestamp

def timestampDiff (loTimestamp hiTimestamp : Timestamp) : Duration :=
  if hiTimestamp ≤ loTimestamp then 0 else (timestampDiffToDuration loTimestamp hiTimestamp).1

/-- The loop of `ComputeReplicationProgressLag` over the segments that remain. -/
def lagLoop (syncUpperKey replicaUpperKey : κ) :
    List (κ × Timestamp) → List (κ × Timestamp) → Timestamp → Timestamp → Duration → Duration
  | [], [], _, _, lag => lag
  | [], (key, timestamp) :: replica, syncSegmentTimestamp, _, lag =>
    let syncSegmentTimestamp := if syncUpperKey ≤ key then nullTimestamp else syncSegmentTimestamp
    lagLoop syncUpperKey replicaUpperKey [] replica syncSegmentTimestamp timestamp
      (max lag (timestampDiff timestamp syncSegmentTimestamp))
  | (key, timestamp) :: sync, [], _, replicaSegmentTimestamp, lag =>
    let replicaSegmentTimestamp := if replicaUpperKey ≤ key then nullTimestamp
      else replicaSegmentTimestamp
    lagLoop syncUpperKey replicaUpperKey sync [] timestamp replicaSegmentTimestamp
      (max lag (timestampDiff replicaSegmentTimestamp timestamp))
  | (key, timestamp) :: sync, (key', timestamp') :: replica, syncSegmentTimestamp,
      replicaSegmentTimestamp, lag =>
    if key < key' then
      lagLoop syncUpperKey replicaUpperKey sync ((key', timestamp') :: replica) timestamp
        replicaSegmentTimestamp (max lag (timestampDiff replicaSegmentTimestamp timestamp))
    else if key' < key then
      lagLoop syncUpperKey replicaUpperKey ((key, timestamp) :: sync) replica syncSegmentTimestamp
        timestamp' (max lag (timestampDiff timestamp' syncSegmentTimestamp))
    else
      lagLoop syncUpperKey replicaUpperKey sync replica timestamp timestamp'
        (max lag (timestampDiff timestamp' timestamp))
termination_by sync replica => sync.length + replica.length

variable (syncProgress replicaProgress : ReplicationProgress κ)

def computeReplicationProgressLag : Duration :=
  if syncProgress.segments.isEmpty then 0
  else if replicaProgress.segments.isEmpty then
    timestampDiff (getReplicationProgressMaxTimestamp syncProgress) nullTimestamp
  else
    let lag := lagLoop syncProgress.upperKey replicaProgress.upperKey syncProgress.segments
      replicaProgress.segments nullTimestamp nullTimestamp 0
    if replicaProgress.upperKey < syncProgress.upperKey then
      max lag (timestampDiff nullTimestamp (lastValue nullTimestamp syncProgress.segments))
    else lag

theorem timestampDiff_null (loTimestamp : Timestamp) :
    timestampDiff loTimestamp nullTimestamp = 0 := if_pos (Nat.zero_le loTimestamp)

/-! ### The worst lag -/

/-- How far the replica is behind at a key. -/
def lagAt (key : κ) : Duration :=
  timestampDiff (replicaProgress.timestampAt key) (syncProgress.timestampAt key)

/-- The largest lag over all keys of the sync progress, zero if it has none. -/
def IsWorstLag (lag : Duration) : Prop :=
  IsGreatest (insert 0 {lag | ∃ key, syncProgress.InDomain key ∧
    lag = lagAt syncProgress replicaProgress key}) lag

/-- The lag at the replica's upper key is seen: the sync progress does not reach that key, or has
its last segment there, or the replica is as far behind at a lower key. Without segments, the
replica is not behind. -/
def SeesReplicaEnd : Prop :=
  if replicaProgress.segments = [] then
    ∀ segment ∈ syncProgress.segments, timestampDiff nullTimestamp segment.2 = 0
  else
    ¬syncProgress.InDomain replicaProgress.upperKey ∨
      (∀ segment ∈ syncProgress.segments, segment.1 ≤ replicaProgress.upperKey) ∨
      ∃ segment ∈ syncProgress.segments ++ replicaProgress.segments, syncProgress.InDomain segment.1 ∧
        lagAt syncProgress replicaProgress replicaProgress.upperKey ≤
          lagAt syncProgress replicaProgress segment.1

instance (progress : ReplicationProgress κ) (key : κ) : Decidable (progress.InDomain key) := by
  unfold InDomain
  infer_instance

instance (syncProgress replicaProgress : ReplicationProgress κ) :
    Decidable (SeesReplicaEnd syncProgress replicaProgress) := by
  unfold SeesReplicaEnd
  infer_instance

section Sweep

variable {syncUpperKey replicaUpperKey : κ}

/-- From a key on, the timestamps are told by the segments that remain and the timestamp in force.
-/
def Follows (timestampAt : κ → Timestamp) (upperKey : κ) (segments : List (κ × Timestamp))
    (timestamp : Timestamp) (next : κ) : Prop :=
  ∀ key, next ≤ key → timestampAt key = if key < upperKey then valueAt timestamp segments key
    else nullTimestamp

/-- A progress during the sweep: the segments that remain tell its timestamps from each key ahead
on. -/
structure Swept (timestampAt : κ → Timestamp) (upperKey : κ) (segments : List (κ × Timestamp))
    (timestamp : Timestamp) (ahead : List (κ × Timestamp)) : Prop where
  increasing : Increasing segments
  below : ∀ segment ∈ segments, segment.1 < upperKey
  follows : ∀ segment ∈ ahead, Follows timestampAt upperKey segments timestamp segment.1

section Swept

variable {timestampAt : κ → Timestamp} {upperKey : κ} {segments ahead ahead' : List (κ × Timestamp)}
  {ts : Timestamp} {now : κ × Timestamp}

theorem Follows.later {next next' : κ} (h : Follows timestampAt upperKey segments ts next)
    (hle : next ≤ next') :
    Follows timestampAt upperKey segments ts next' := fun key hk => h key (hle.trans hk)

section

variable (hnow : now ∈ ahead) (hahead : ∀ segment ∈ ahead', now.1 < segment.1)

include hnow hahead

theorem Swept.skip (h : Swept timestampAt upperKey segments ts ahead) (hlt : now.1 < upperKey)
    (ha : ∀ seg ∈ segments, now.1 < seg.1) :
    timestampAt now.1 = ts ∧ Swept timestampAt upperKey segments ts ahead' := by
  refine ⟨?_, h.increasing, h.below, fun seg hseg =>
    (h.follows now hnow).later (hahead seg hseg).le⟩
  rw [h.follows now hnow now.1 le_rfl, if_pos hlt, valueAt_of_lt ha]

theorem Swept.take (h : Swept timestampAt upperKey (now :: segments) ts ahead) :
    timestampAt now.1 = now.2 ∧ Swept timestampAt upperKey segments now.2 ahead' := by
  obtain ⟨ha, hi⟩ := increasing_cons.mp h.increasing
  obtain ⟨hlt, hb⟩ := forall_mem_cons.mp h.below
  have hf : Follows timestampAt upperKey segments now.2 now.1 := fun key hle => by
    rw [h.follows now hnow key hle, valueAt_cons_of_le hle]
  refine ⟨?_, hi, hb, fun seg hseg => hf.later (hahead seg hseg).le⟩
  rw [hf now.1 le_rfl, if_pos hlt, valueAt_of_lt ha]

theorem Swept.pass (h : Swept timestampAt upperKey [] ts ahead) :
    timestampAt now.1 = (if upperKey ≤ now.1 then nullTimestamp else ts) ∧
      Swept timestampAt upperKey [] (if upperKey ≤ now.1 then nullTimestamp else ts) ahead' := by
  split_ifs with hle
  · have hn : ∀ key, now.1 ≤ key → timestampAt key = nullTimestamp := fun key hk => by
      rw [h.follows now hnow key hk, if_neg (hle.trans hk).not_gt]
    refine ⟨hn _ le_rfl, h.increasing, h.below, fun seg hseg key hk => ?_⟩
    rw [hn key ((hahead seg hseg).le.trans hk), valueAt_nil, ite_self]
  · exact h.skip hnow hahead (not_le.mp hle) (by simp)

end

end Swept

variable {syncAt replicaAt : κ → Timestamp} {bound : Duration}

/-- The loop takes the largest difference over the lower keys that remain. The induction follows the
loop. -/
theorem lagLoop_le_iff : ∀ (sync replica : List (κ × Timestamp)) (syncTs replTs : Timestamp)
    (lag : Duration), Swept syncAt syncUpperKey sync syncTs (sync ++ replica) →
    Swept replicaAt replicaUpperKey replica replTs (sync ++ replica) →
    (lagLoop syncUpperKey replicaUpperKey sync replica syncTs replTs lag ≤ bound ↔
      lag ≤ bound ∧ ∀ seg ∈ sync ++ replica, timestampDiff (replicaAt seg.1) (syncAt seg.1) ≤ bound)
  | [], [], _, _, lag, _, _ => by
    rw [lagLoop]
    simp
  | [], (key, new) :: replica, syncTs, replTs, lag, hsync, hreplica => by
    have ha := (increasing_cons.mp hreplica.increasing).1
    obtain ⟨hsyncAt, hsync⟩ := hsync.pass mem_cons_self ha
    obtain ⟨hreplicaAt, hreplica⟩ := hreplica.take mem_cons_self ha
    rw [lagLoop, lagLoop_le_iff [] replica _ new _ hsync hreplica]
    simp only [nil_append, forall_mem_cons, max_le_iff, hsyncAt, hreplicaAt, and_assoc]
  | (key, new) :: sync, [], syncTs, replTs, lag, hsync, hreplica => by
    have ha := (increasing_cons.mp hsync.increasing).1
    rw [← append_nil sync] at ha
    obtain ⟨hsyncAt, hsync⟩ := hsync.take mem_cons_self ha
    obtain ⟨hreplicaAt, hreplica⟩ := hreplica.pass mem_cons_self ha
    rw [lagLoop, lagLoop_le_iff sync [] new _ _ hsync hreplica]
    simp only [append_nil, forall_mem_cons, max_le_iff, hsyncAt, hreplicaAt, and_assoc]
  | (key, new) :: sync, (key', new') :: replica, syncTs, replTs, lag, hsync, hreplica => by
    have hsync' := (increasing_cons.mp hsync.increasing).1
    have hreplica' := (increasing_cons.mp hreplica.increasing).1
    have hnow : (key, new) ∈ (key, new) :: sync ++ (key', new') :: replica := by simp
    have hn' : (key', new') ∈ (key, new) :: sync ++ (key', new') :: replica := by simp
    have hk := hsync.below _ mem_cons_self
    have hk' := hreplica.below _ mem_cons_self
    rw [lagLoop]
    rcases lt_trichotomy key key' with hlt | heq | hgt
    · have ha' : ∀ seg ∈ (key', new') :: replica, key < seg.1 :=
        forall_mem_cons.mpr ⟨hlt, fun seg hseg => hlt.trans (hreplica' seg hseg)⟩
      have ha := forall_mem_append.mpr ⟨hsync', ha'⟩
      obtain ⟨hsyncAt, hsync⟩ := hsync.take hnow ha
      obtain ⟨hreplicaAt, hreplica⟩ := hreplica.skip hnow ha (hlt.trans hk') ha'
      rw [if_pos hlt, lagLoop_le_iff sync ((key', new') :: replica) new replTs _ hsync hreplica]
      simp only [cons_append, forall_mem_cons, max_le_iff, hsyncAt, hreplicaAt, and_assoc]
    · subst heq
      have ha := forall_mem_append.mpr ⟨hsync', hreplica'⟩
      obtain ⟨hsyncAt, hsync⟩ := hsync.take hnow ha
      obtain ⟨hreplicaAt, hreplica⟩ := hreplica.take hn' ha
      rw [if_neg (lt_irrefl _), if_neg (lt_irrefl _),
        lagLoop_le_iff sync replica new new' _ hsync hreplica]
      simp only [forall_mem_append, forall_mem_cons, max_le_iff, hsyncAt, hreplicaAt]
      tauto
    · have ha' : ∀ seg ∈ (key, new) :: sync, key' < seg.1 :=
        forall_mem_cons.mpr ⟨hgt, fun seg hseg => hgt.trans (hsync' seg hseg)⟩
      have ha := forall_mem_append.mpr ⟨ha', hreplica'⟩
      obtain ⟨hreplicaAt, hreplica⟩ := hreplica.take hn' ha
      obtain ⟨hsyncAt, hsync⟩ := hsync.skip hn' ha (hgt.trans hk) ha'
      rw [if_neg hgt.not_gt, if_pos hgt,
        lagLoop_le_iff ((key, new) :: sync) replica syncTs new' _ hsync hreplica]
      simp only [forall_mem_append, forall_mem_cons, max_le_iff, hsyncAt, hreplicaAt]
      tauto
termination_by sync replica => sync.length + replica.length

end Sweep

/-! ### Where the lag changes -/

section Changes

variable {progress repl : ReplicationProgress κ}

/-- The sweep and the check after it take the largest of what they look at. -/
theorem computeReplicationProgressLag_le_iff (hs : progress.WellFormed) (hr : repl.WellFormed)
    (bound : Duration) : computeReplicationProgressLag progress repl ≤ bound ↔
      (∀ seg ∈ progress.segments ++ repl.segments, lagAt progress repl seg.1 ≤ bound) ∧
      (repl.upperKey < progress.upperKey →
        timestampDiff nullTimestamp (lastValue nullTimestamp progress.segments) ≤ bound) := by
  have hloop : lagLoop progress.upperKey repl.upperKey progress.segments
      repl.segments nullTimestamp nullTimestamp 0 ≤ bound ↔ _ :=
    lagLoop_le_iff _ _ _ _ 0
      (show Swept progress.timestampAt _ _ _ _ from ⟨hs.increasing, hs.below, fun _ _ _ _ => rfl⟩)
      (show Swept repl.timestampAt _ _ _ _ from ⟨hr.increasing, hr.below, fun _ _ _ _ => rfl⟩)
  have hne : ¬progress.segments.isEmpty = true := by simpa using hs.nonempty
  have hne' : ¬repl.segments.isEmpty = true := by simpa using hr.nonempty
  rw [computeReplicationProgressLag, if_neg hne, if_neg hne']
  by_cases hlt : repl.upperKey < progress.upperKey
  · rw [if_pos hlt, max_le_iff, hloop]
    simp [hlt, lagAt]
  · rw [if_neg hlt, hloop]
    simp [hlt, lagAt]

/-- A key of the sync progress has the lag of a lower key, or of the upper key of the replica. -/
theorem exists_lagAt_eq (hr : repl.WellFormed) {key : κ} (hkey : progress.InDomain key) :
    ∃ change, progress.InDomain change ∧
      ((∃ seg ∈ progress.segments ++ repl.segments, seg.1 = change) ∨ change = repl.upperKey) ∧
      lagAt progress repl key = lagAt progress repl change := by
  obtain ⟨⟨lower, hlower, hle⟩, hlt⟩ := hkey
  obtain ⟨first, hf, rfl⟩ := Option.map_eq_some_iff.mp hlower
  set keys := (progress.segments ++ repl.steps).map Prod.fst with hkeys
  have hm : first.1 ∈ keys := mem_map_of_mem (mem_append_left _ (mem_of_head? hf))
  obtain ⟨change, hc, hb, hlast⟩ := exists_last_key ⟨first.1, hm, hle⟩
  have hkeep : ∀ step ∈ progress.segments ++ repl.steps, step.1 ≤ key → step.1 ≤ change :=
    fun step hstep => hlast step.1 (mem_map_of_mem hstep)
  refine ⟨change, ⟨⟨first.1, hlower, hlast _ hm hle⟩, hb.trans_lt hlt⟩, ?_, ?_⟩
  · obtain ⟨step, hstep, rfl⟩ := mem_map.mp hc
    rw [steps, ← append_assoc] at hstep
    rcases mem_append.mp hstep with hseg | hu
    · exact .inl ⟨step, hseg, rfl⟩
    · rw [mem_singleton.mp hu]
      exact .inr rfl
  · have hsync : progress.timestampAt key = progress.timestampAt change := by
      rw [timestampAt, timestampAt, if_pos hlt, if_pos (hb.trans_lt hlt)]
      exact valueAt_congr hb _ fun step hstep => hkeep step (mem_append_left _ hstep)
    have hreplica : repl.timestampAt key = repl.timestampAt change := by
      rw [← hr.valueAt_steps, ← hr.valueAt_steps]
      exact valueAt_congr hb _ fun step hstep => hkeep step (mem_append_right _ hstep)
    rw [lagAt, lagAt, hsync, hreplica]

section

variable (hs : progress.WellFormed)

include hs

theorem lagAt_last {key : κ} (hk : key < progress.upperKey)
    (hp : repl.upperKey ≤ key) (hl : ∀ seg ∈ progress.segments, seg.1 ≤ key) :
    lagAt progress repl key = timestampDiff nullTimestamp
      (lastValue nullTimestamp progress.segments) := by
  have hsync : progress.timestampAt key = lastValue nullTimestamp progress.segments := by
    rw [timestampAt, if_pos hk]
    refine valueAt_of_ge hl ?_
    rw [lastValue, getLast?_eq_some_getLast hs.nonempty]
    rfl
  have hr : repl.timestampAt key = nullTimestamp := by
    rw [timestampAt, if_neg (not_lt.mpr hp)]
  rw [lagAt, hsync, hr]

theorem lagAt_of_not_inDomain {key : κ} (hk : ¬progress.InDomain key) :
    lagAt progress repl key = 0 := by
  rw [lagAt, hs.timestampAt_of_not_inDomain hk, timestampDiff_null]

theorem computeReplicationProgressLag_mem (hr : repl.WellFormed) :
    computeReplicationProgressLag progress repl = 0 ∨
      ∃ key, progress.InDomain key ∧
        computeReplicationProgressLag progress repl = lagAt progress repl key := by
  set lag := computeReplicationProgressLag progress repl with hdef
  have hle : ∀ bound, lag ≤ bound ↔ _ := computeReplicationProgressLag_le_iff hs hr
  rcases Nat.eq_zero_or_pos lag with hz | hp
  · exact .inl hz
  -- a smaller bound would be exceeded at one of the keys looked at
  obtain ⟨hkeys, hc⟩ := (hle lag).mp le_rfl
  right
  by_contra hnone
  have hsmaller : lag ≤ lag - 1 := by
    rw [hle]
    refine ⟨fun seg hseg => ?_, fun hu => ?_⟩
    · have hb := hkeys seg hseg
      by_cases hdomain : progress.InDomain seg.1
      · have hne : lag ≠ lagAt progress repl seg.1 := fun h =>
          hnone ⟨seg.1, hdomain, h⟩
        exact Nat.le_sub_one_of_lt (lt_of_le_of_ne hb hne.symm)
      · rw [lagAt_of_not_inDomain hs hdomain]
        exact Nat.zero_le _
    · obtain ⟨lower, hlower, hdomain⟩ := hs.lowerKey_inDomain
      have hlast := timestampAt_segment hs (getLast_mem hs.nonempty)
      set last := progress.segments.getLast hs.nonempty
      have hkey : max repl.upperKey last.1 < progress.upperKey := max_lt hu hlast.1.2
      have ha : ∀ seg ∈ progress.segments, seg.1 ≤ max repl.upperKey last.1 := fun seg hseg =>
        le_max_of_le_right (le_getLast hs.increasing hs.nonempty seg hseg)
      have hlag : lagAt progress repl _ = _ := lagAt_last hs hkey (le_max_left _ _) ha
      have hne : lag ≠ lagAt progress repl (max repl.upperKey last.1) := by
        refine fun h => hnone ⟨_, ⟨?_, hkey⟩, h⟩
        obtain ⟨⟨lower', hlower', hle'⟩, -⟩ := hlast.1
        exact ⟨lower', hlower', le_max_of_le_right hle'⟩
      rw [hlag] at hne
      exact Nat.le_sub_one_of_lt (lt_of_le_of_ne (hc hu) hne.symm)
  exact absurd hsmaller (Nat.sub_one_lt hp.ne').not_ge

/-- With segments on both sides, the lag computed is the worst one when the replica's end is seen.
-/
theorem isWorstLag_iff (hr : repl.WellFormed) :
    IsWorstLag progress repl
        (computeReplicationProgressLag progress repl) ↔
      SeesReplicaEnd progress repl := by
  set lag := computeReplicationProgressLag progress repl with hdef
  have hle : ∀ bound, lag ≤ bound ↔ _ := computeReplicationProgressLag_le_iff hs hr
  obtain ⟨hkeys, hcheck⟩ := (hle lag).mp le_rfl
  rw [SeesReplicaEnd, if_neg hr.nonempty]
  constructor
  · rintro ⟨-, hg⟩
    by_contra hunseen
    rw [not_or, not_or, not_not] at hunseen
    obtain ⟨hdomain, hlast, hworse⟩ := hunseen
    set worst := lagAt progress repl repl.upperKey
    have hworst : worst ≤ lag := hg (.inr ⟨repl.upperKey, hdomain, rfl⟩)
    -- all that the code looks at is below the lag at the replica's end
    have hbelow : ∀ seg ∈ progress.segments ++ repl.segments, progress.InDomain seg.1 →
        lagAt progress repl seg.1 < worst := fun seg hseg hi =>
      not_le.mp fun h => hworse ⟨seg, hseg, hi, h⟩
    have hf := timestampAt_segment hs (getLast_mem hs.nonempty)
    have hpos : 0 < worst := (Nat.zero_le _).trans_lt
      (hbelow _ (mem_append_left _ (getLast_mem hs.nonempty)) hf.1)
    have hsmaller : lag ≤ worst - 1 := by
      rw [hle]
      refine ⟨fun seg hseg => ?_, fun hupper => ?_⟩
      · by_cases hi : progress.InDomain seg.1
        · exact Nat.le_sub_one_of_lt (hbelow seg hseg hi)
        · rw [lagAt_of_not_inDomain hs hi]
          exact Nat.zero_le _
      · -- the last segment starts past the replica's end
        have ha := le_getLast hs.increasing hs.nonempty
        have hpast : repl.upperKey ≤ (progress.segments.getLast hs.nonempty).1 := by
          by_contra hbefore
          exact hlast fun seg hseg => (ha seg hseg).trans (not_le.mp hbefore).le
        rw [← lagAt_last hs hf.1.2 hpast ha]
        exact Nat.le_sub_one_of_lt (hbelow _ (mem_append_left _ (getLast_mem hs.nonempty)) hf.1)
    exact absurd (hworst.trans hsmaller) (Nat.sub_one_lt hpos.ne').not_ge
  · intro hseen
    refine ⟨computeReplicationProgressLag_mem hs hr, ?_⟩
    rintro _ (rfl | ⟨key, hkey, rfl⟩)
    · exact Nat.zero_le _
    obtain ⟨change, hchange, hwhere, heq⟩ : ∃ change, _ ∧ _ ∧ lagAt progress repl key = _ :=
      exists_lagAt_eq hr hkey
    rw [heq]
    rcases hwhere with ⟨seg, hseg, rfl⟩ | rfl
    · exact hkeys seg hseg
    · rcases hseen with ho | hlast | ⟨seg, hseg, -, hworse⟩
      · exact absurd hchange ho
      · rw [lagAt_last hs hchange.2 le_rfl hlast]
        exact hcheck hchange.2
      · exact hworse.trans (hkeys seg hseg)

theorem isWorstLag_nil_iff (hr : repl.segments = []) :
    IsWorstLag progress repl
        (computeReplicationProgressLag progress repl) ↔
      SeesReplicaEnd progress repl := by
  have hl : computeReplicationProgressLag progress repl = 0 := by
    rw [computeReplicationProgressLag, if_neg (by simpa using hs.nonempty),
      if_pos (by rw [hr]; rfl), timestampDiff_null]
  have hreplica : ∀ key, repl.timestampAt key = nullTimestamp := fun key => by
    rw [timestampAt, hr, valueAt_nil, ite_self]
  rw [hl, SeesReplicaEnd, if_pos hr]
  constructor
  · rintro ⟨-, hg⟩ seg hseg
    obtain ⟨hd, hv⟩ := timestampAt_segment hs hseg
    have hb := hg (.inr ⟨seg.1, hd, rfl⟩)
    rw [lagAt, hreplica, hv] at hb
    exact Nat.le_zero.mp hb
  · intro hz
    refine ⟨.inl rfl, ?_⟩
    rintro _ (rfl | ⟨key, hk, rfl⟩)
    · exact le_rfl
    · obtain ⟨seg, hseg, hv⟩ := exists_segment hs hk
      rw [lagAt, hreplica, hv, hz seg hseg]

end

end Changes

/-- The replica ends at 1, where it falls behind by ten seconds, and the next segment of the sync
progress hides it; a replica without segments is behind by ten seconds as well. -/
theorem computeReplicationProgressLag_not_worst :
    let sync : ReplicationProgress ℕ :=
  ⟨[(0, timestampFromUnixTime 10), (2, timestampFromUnixTime 1)], 3⟩
    let replica : ReplicationProgress ℕ := ⟨[(0, timestampFromUnixTime 10)], 1⟩
    let sync' : ReplicationProgress ℕ := ⟨[(0, timestampFromUnixTime 10)], 3⟩
    ¬IsWorstLag sync replica (computeReplicationProgressLag sync replica) ∧
      ¬IsWorstLag sync' ⟨[], 0⟩ (computeReplicationProgressLag sync' ⟨[], 0⟩) := by
  intro sync replica sync'
  have hs : sync.WellFormed := ⟨by decide, by decide, by decide⟩
  have hr : replica.WellFormed := ⟨by decide, by decide, by decide⟩
  have hs' : sync'.WellFormed := ⟨by decide, by decide, by decide⟩
  rw [isWorstLag_iff hs hr, isWorstLag_nil_iff hs' rfl]
  decide

/-- The lag computed is the worst lag over all keys exactly when the replica's end is seen. -/
theorem computeReplicationProgressLag_worst_iff
    {syncProgress replicaProgress : ReplicationProgress κ}
    (hs : syncProgress.WellFormed ∨ syncProgress.segments = [])
    (hr : replicaProgress.WellFormed ∨ replicaProgress.segments = []) :
    IsWorstLag syncProgress replicaProgress
        (computeReplicationProgressLag syncProgress replicaProgress) ↔
      SeesReplicaEnd syncProgress replicaProgress := by
  rcases hs with hs | hs
  · rcases hr with hr | hr
    · exact isWorstLag_iff hs hr
    · exact isWorstLag_nil_iff hs hr
  · -- there is no key
    have houtside : ∀ key, ¬syncProgress.InDomain key := fun key hkey => by
      obtain ⟨⟨lower, hlower, -⟩, -⟩ := hkey
      simp [lowerKey, hs] at hlower
    have hlag : computeReplicationProgressLag syncProgress replicaProgress = 0 := by
      rw [computeReplicationProgressLag, if_pos (by rw [hs]; rfl)]
    rw [hlag]
    refine iff_of_true ⟨.inl rfl, ?_⟩ ?_
    · rintro _ (rfl | ⟨key, hkey, -⟩)
      · exact le_rfl
      · exact absurd hkey (houtside key)
    · rw [SeesReplicaEnd, hs]
      split_ifs
      · exact fun segment hsegment => absurd hsegment not_mem_nil
      · exact .inl (houtside _)

/-- Where the replica ends it is nine seconds behind, but further on it is even more. -/
theorem computeReplicationProgressLag_worst_iff_example :
    let sync : ReplicationProgress ℕ :=
  ⟨[(0, timestampFromUnixTime 10), (2, timestampFromUnixTime 30)], 3⟩
    let replica : ReplicationProgress ℕ := ⟨[(0, timestampFromUnixTime 10)], 1⟩
    computeReplicationProgressLag sync replica = 29000000 ∧ IsWorstLag sync replica 29000000 := by
  intro sync replica
  have hs : sync.WellFormed := ⟨by decide, by decide, by decide⟩
  have hr : replica.WellFormed := ⟨by decide, by decide, by decide⟩
  have hlag : computeReplicationProgressLag sync replica = 29000000 := by decide +kernel
  exact ⟨hlag, hlag ▸ (computeReplicationProgressLag_worst_iff (.inl hs) (.inl hr)).mpr (by decide)⟩

/-! ### The lags of all replicas -/

/-- The condition of `ComputeReplicasLag`: the replica is really sync and has reached its last era.
-/
def isReplicaInLastEra (replica : ReplicaInfo κ) : Result Bool := do
  if ← isReplicaReallySync replica.mode replica.state replica.history then
    match replica.history.getLast? with
    | none => .error .undefined
    | some item => return decide (item.timestamp ≤
      getReplicationProgressMinTimestamp replica.replicationProgress)
  else return false

/-- `ComputeReplicasLag`, of replicas by their ids. -/
def computeReplicasLag {ι : Type} [Inhabited κ] (replicas : List (ι × ReplicaInfo κ)) :
    Result (List (ι × Duration)) := do
  let syncProgress ← buildMaxSyncProgress (replicas.map Prod.snd)
  replicas.mapM fun replica => do
    if ← isReplicaInLastEra replica.2 then return (replica.1, 0)
    else return (replica.1,
      computeReplicationProgressLag syncProgress replica.2.replicationProgress)

/-- A really sync replica that has reached its last era at every key. -/
def ReplicaInfo.InLastEra (replica : ReplicaInfo κ) : Prop :=
  replica.ReallySync ∧ ∃ item ∈ replica.history.getLast?, item.timestamp ≤ maxTimestamp ∧
    ∀ key, replica.replicationProgress.InDomain key →
      item.timestamp ≤ replica.replicationProgress.timestampAt key

/-- What `ComputeReplicasLag` shall give a replica: zero in its last era, and otherwise how far it
is behind the best that the replicas bring to some key of the interval. -/
def IsReplicaLag (lower upper : κ) (replicas : List (ReplicaInfo κ)) (replica : ReplicaInfo κ)
    (lag : Duration) : Prop :=
  (replica.InLastEra → lag = 0) ∧
  (¬replica.InLastEra → IsGreatest
    (insert 0 {lag | ∃ key, (lower ≤ key ∧ key < upper) ∧ ∃ timestamp,
    IsGreatest (contributions replicas key) timestamp ∧
      lag = timestampDiff (replica.replicationProgress.timestampAt key) timestamp}) lag)

section Replicas

variable {lower upper : κ} {repl : ReplicaInfo κ} {progress : ReplicationProgress κ}

theorem isReplicaInLastEra_spec (hp : repl.replicationProgress.WellFormed)
    (hh : repl.history ≠ []) :
    ∃ result, isReplicaInLastEra repl = .ok result ∧ (result = true ↔ repl.InLastEra) := by
  obtain ⟨sync, hsync⟩ := isReplicaReallySync_ok repl.mode repl.state hh
  have hi := getLast?_eq_some_getLast hh
  cases sync with
  | false => exact ⟨false, by simp [isReplicaInLastEra, hsync],
    by simp [ReplicaInfo.InLastEra, ReplicaInfo.ReallySync, hsync]⟩
  | true =>
    refine ⟨_, by rw [isReplicaInLastEra, hsync, ok_bind, hi]; rfl, ?_⟩
    rw [decide_eq_true_iff, ← not_lt, minTimestamp_lt_iff hp]
    simp [ReplicaInfo.InLastEra, ReplicaInfo.ReallySync, hsync, hi]

theorem Spans.inDomain_iff {key : κ} (h : Spans lower upper progress) : progress.InDomain key ↔
    lower ≤ key ∧ key < upper := by
  rw [InDomain, h.lowerKey, h.upperKey]
  simp

theorem isGreatest_lag_of_accumulated (hp : Accumulated lower upper progress)
    (hs : Spans lower upper repl.replicationProgress) : IsGreatest (insert 0 {lag | ∃ key,
      (lower ≤ key ∧ key < upper) ∧ lag = lagAt progress repl.replicationProgress key})
      (computeReplicationProgressLag progress repl.replicationProgress) := by
  rcases hp with hn | hp
  · rw [computeReplicationProgressLag, if_pos (by rw [hn]; rfl)]
    refine ⟨.inl rfl, ?_⟩
    rintro _ (rfl | ⟨key, -, rfl⟩)
    · exact le_rfl
    · rw [lagAt, timestampAt_of_segments_nil hn, timestampDiff_null]
  · -- both end at one key, so nothing is hidden behind the end of the replica
    simp only [← hp.inDomain_iff]
    refine (isWorstLag_iff hp.wellFormed hs.wellFormed).mpr ?_
    rw [SeesReplicaEnd, if_neg hs.wellFormed.nonempty]
    exact .inl fun hd => (hd.2.trans_eq (hp.upperKey.trans hs.upperKey.symm)).false

end Replicas

/-- Replicas of one key interval: every lag that is reported is the worst over all keys of the
interval, whatever segments the progresses are cut into, and a replica in its last era is never
reported as behind. -/
theorem computeReplicasLag_worst {ι : Type} [Inhabited κ] {lower upper : κ}
    {replicas : List (ι × ReplicaInfo κ)} (hhistory : ∀ replica ∈ replicas, replica.2.history ≠ [])
    (hspans : ∀ replica ∈ replicas, Spans lower upper replica.2.replicationProgress) :
    ∃ lags, computeReplicasLag replicas = .ok lags ∧ Forall₂ (fun replica lag => lag.1 = replica.1 ∧
        IsReplicaLag lower upper (replicas.map Prod.snd) replica.2 lag.2) replicas lags := by
  have hh : ∀ repl ∈ replicas.map Prod.snd, repl.history ≠ [] := forall_mem_map.mpr hhistory
  obtain ⟨progress, hbuild, hp, hg⟩ := buildMaxSyncProgress_spec hh (forall_mem_map.mpr hspans)
  rw [computeReplicasLag, hbuild, ok_bind]
  refine mapM_ok fun replica hr => ?_
  obtain ⟨last, hlast, hera⟩ :=
    isReplicaInLastEra_spec (hspans replica hr).wellFormed (hhistory replica hr)
  rw [hlast, ok_bind]
  cases last with
  | true => exact ⟨_, rfl, rfl, fun _ => rfl, fun hn => absurd (hera.mp rfl) hn⟩
  | false =>
    refine ⟨_, rfl, rfl, fun he => absurd (hera.mpr he) Bool.false_ne_true, fun _ => ?_⟩
    obtain ⟨hmem, hbound⟩ := isGreatest_lag_of_accumulated hp (hspans replica hr)
    refine ⟨hmem.imp_right fun ⟨key, hk, h⟩ => ⟨key, hk, _, hg key hk.1 hk.2, h⟩,
      fun lag hlag => hbound ?_⟩
    refine hlag.imp_right fun ⟨key, hk, ts, hts, h⟩ => ⟨key, hk, ?_⟩
    rwa [hts.unique (hg key hk.1 hk.2)] at h

/-- From the key 4 on the second replica, an asynchronous one, is behind by fourteen to sixteen
seconds. -/
theorem computeReplicasLag_worst_example :
    let first : ReplicaInfo ℕ := ⟨.sync, .enabled,
      ⟨[(0, timestampFromUnixTime 20), (4, timestampFromUnixTime 40)], 10⟩, [⟨0, 10, .sync, .enabled⟩]⟩
    let second : ReplicaInfo ℕ :=
      ⟨.async, .enabled, ⟨[(0, timestampFromUnixTime 25)], 10⟩, [⟨0, 10, .async, .enabled⟩]⟩
    computeReplicasLag [(1, first), (2, second)] = .ok [(1, 0), (2, 14000000)] ∧
      IsReplicaLag 0 10 [first, second] second 14000000 := by
  intro first second
  have hlags : computeReplicasLag [(1, first), (2, second)] = .ok [(1, 0), (2, 14000000)] := by
    decide +kernel
  have hfirst : Spans 0 10 first.replicationProgress :=
    ⟨⟨by decide, by decide, by decide⟩, rfl, rfl⟩
  have hsecond : Spans 0 10 second.replicationProgress :=
    ⟨⟨by decide, by decide, by decide⟩, rfl, rfl⟩
  have hspans : ∀ replica ∈ [(1, first), (2, second)], Spans 0 10 replica.2.replicationProgress := by
    simpa using ⟨hfirst, hsecond⟩
  obtain ⟨lags, h, hlag⟩ := computeReplicasLag_worst (by simp [first, second]) hspans
  obtain rfl := Except.ok.inj (hlags.symm.trans h)
  obtain _ | ⟨-, _ | ⟨⟨-, hlag⟩, -⟩⟩ := hlag
  exact ⟨hlags, hlag⟩

end Ytsaurus.ChaosClient
