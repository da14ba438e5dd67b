/-
# The progress of the sync replicas

`BuildMaxSyncProgress` walks over the replicas of a card in the order of a hash map. It merges the
progress of each really-sync replica into what it has, and then advances all of that to the start of
the replica's last era when the replica has not reached it.

Merging is the pointwise maximum and advancing the maximum with one timestamp, so at every key the
result is the maximum over all replicas of what each of them brings (`contribution`), in any order.
-/
import Ytsaurus.ChaosClient.ProgressShape
import Ytsaurus.Lib.Result

namespace Ytsaurus.ChaosClient

open List Lib ReplicationProgress

inductive TableReplicaMode where
  | sync
  | async
  | asyncToSync
  | syncToAsync
  deriving DecidableEq, Repr

inductive TableReplicaState where
  | none
  | disabling
  | disabled
  | enabling
  | enabled
  deriving DecidableEq, Repr

structure ReplicaHistoryItem where
  era : ℕ
  timestamp : Timestamp
  mode : TableReplicaMode
  state : TableReplicaState
  deriving DecidableEq, Repr

def ReplicaHistoryItem.isSync (item : ReplicaHistoryItem) : Bool :=
  decide (item.mode = .sync ∧ item.state = .enabled)

/-- What `BuildMaxSyncProgress` reads of `TReplicaInfo`. -/
structure ReplicaInfo (κ : Type) where
  mode : TableReplicaMode
  state : TableReplicaState
  replicationProgress : ReplicationProgress κ
  history : List ReplicaHistoryItem

variable {κ : Type} [LinearOrder κ]

/-! ### The operations -/

def isReplicaSync (mode : TableReplicaMode) (replicaHistory : List ReplicaHistoryItem) :
    Result Bool :=
  if mode = .sync then .ok true
  else if mode ≠ .syncToAsync then .ok false
  else
    match replicaHistory.getLast? with
    | none => .error .verify
    | some item => .ok item.isSync

def isReplicaEnabled (state : TableReplicaState) : Bool :=
  decide (state = .enabled ∨ state = .disabling)

def isReplicaReallySync (mode : TableReplicaMode) (state : TableReplicaState)
    (replicaHistory : List ReplicaHistoryItem) : Result Bool :=
  if isReplicaEnabled state then isReplicaSync mode replicaHistory else .ok false

def getReplicationProgressMinTimestamp (progress : ReplicationProgress κ) : Timestamp :=
  progress.segments.foldl (fun minTimestamp segment => min segment.2 minTimestamp) maxTimestamp

/-- One replica of the loop of `BuildMaxSyncProgress`. -/
def mergeSyncReplica (syncProgress : ReplicationProgress κ) (replica : ReplicaInfo κ) :
    Result (ReplicationProgress κ) := do
  if ← isReplicaReallySync replica.mode replica.state replica.history then
    let merged :=
      if syncProgress.segments.isEmpty then replica.replicationProgress
      else buildMaxProgress syncProgress replica.replicationProgress
    match replica.history.getLast? with
    | none => .error .undefined
    | some item =>
      if getReplicationProgressMinTimestamp replica.replicationProgress < item.timestamp then
        return advanceReplicationProgress merged item.timestamp
      else return merged
  else return syncProgress

/-- `BuildMaxSyncProgress`, with the replicas in the order of the hash map. -/
def buildMaxSyncProgress [Inhabited κ] (replicas : List (ReplicaInfo κ)) :
    Result (ReplicationProgress κ) :=
  replicas.foldlM mergeSyncReplica ⟨[], default⟩

/-! ### What a replica brings -/

/-- A replica that `IsReplicaReallySync` holds of. -/
def ReplicaInfo.ReallySync (replica : ReplicaInfo κ) : Prop :=
  isReplicaReallySync replica.mode replica.state replica.history = .ok true

/-- The timestamps that a replica brings to a key: its progress there, and the start of its last era
when its progress is behind it at some key. -/
def ReplicaInfo.contribution (replica : ReplicaInfo κ) (key : κ) : Set Timestamp :=
  {timestamp | replica.ReallySync ∧
    (timestamp = replica.replicationProgress.timestampAt key ∨
      ∃ item ∈ replica.history.getLast?, timestamp = item.timestamp ∧
        ∃ key', replica.replicationProgress.InDomain key' ∧
          replica.replicationProgress.timestampAt key' < item.timestamp)}

/-- Progresses of one key interval. -/
structure Spans (lower upper : κ) (progress : ReplicationProgress κ) : Prop where
  wellFormed : progress.WellFormed
  lowerKey : progress.lowerKey = some lower
  upperKey : progress.upperKey = upper

section Spans

variable {lower upper key : κ} {progress other : ReplicationProgress κ}

theorem Spans.inDomain (h : Spans lower upper progress) (hle : lower ≤ key) (hlt : key < upper) :
    progress.InDomain key := ⟨⟨lower, h.lowerKey, hle⟩, h.upperKey ▸ hlt⟩

theorem Spans.max (h : Spans lower upper progress) (h' : Spans lower upper other) :
    Spans lower upper (buildMaxProgress progress other) ∧
      ∀ key, (buildMaxProgress progress other).timestampAt key = max (progress.timestampAt key)
        (other.timestampAt key) := by
  obtain ⟨hf, hl, hu, hv⟩ := buildMaxProgress_spec h.wellFormed h'.wellFormed h.lowerKey h'.lowerKey
  refine ⟨⟨hf, by rw [hl, min_self], by rw [hu, h.upperKey, h'.upperKey, max_self]⟩, hv⟩

theorem Spans.advance (h : Spans lower upper progress) (timestamp : Timestamp) :
    Spans lower upper (advanceReplicationProgress progress timestamp) ∧
      ∀ key, lower ≤ key → key < upper →
        (advanceReplicationProgress progress timestamp).timestampAt key =
          Max.max (progress.timestampAt key) timestamp := by
  obtain ⟨hf, hlower, hv⟩ := advanceReplicationProgress_spec h.wellFormed timestamp
  exact ⟨⟨hf, hlower.trans h.lowerKey, h.upperKey⟩, fun key hle hlt => hv key (h.inDomain hle hlt)⟩

omit [LinearOrder κ] in
theorem foldl_min_lt {ts : Timestamp} : ∀ (segs : List (κ × Timestamp)) (start : Timestamp),
    segs.foldl (fun minTimestamp seg => min seg.2 minTimestamp) start < ts ↔ start < ts ∨
      ∃ seg ∈ segs, seg.2 < ts
  | [], start => by simp
  | seg :: segs, start => by
    rw [foldl_cons, foldl_min_lt segs, min_lt_iff, exists_mem_cons_iff]
    tauto

theorem minTimestamp_lt_iff (hp : progress.WellFormed) (timestamp : Timestamp) :
    getReplicationProgressMinTimestamp progress < timestamp ↔ maxTimestamp < timestamp ∨
        ∃ key, progress.InDomain key ∧ progress.timestampAt key < timestamp := by
  rw [getReplicationProgressMinTimestamp, foldl_min_lt]
  refine or_congr_right ⟨?_, ?_⟩
  · rintro ⟨seg, hs, hlt⟩
    obtain ⟨hd, hv⟩ := timestampAt_segment hp hs
    exact ⟨seg.1, hd, by rwa [hv]⟩
  · rintro ⟨key, hk, hlt⟩
    obtain ⟨seg, hs, hv⟩ := exists_segment hp hk
    exact ⟨seg, hs, by rwa [← hv]⟩

end Spans

/-! ### The loop -/

section Loop

variable {lower upper key : κ}

theorem isReplicaReallySync_ok (mode : TableReplicaMode) (state : TableReplicaState)
    {history : List ReplicaHistoryItem}
    (hne : history ≠ []) : ∃ sync, isReplicaReallySync mode state history = .ok sync := by
  unfold isReplicaReallySync isReplicaSync
  rw [getLast?_eq_some_getLast hne]
  split_ifs <;> exact ⟨_, rfl⟩

/-- The timestamps that some replica brings to a key, with the null one. -/
def contributions (replicas : List (ReplicaInfo κ)) (key : κ) : Set Timestamp :=
  insert nullTimestamp {timestamp | ∃ replica ∈ replicas, timestamp ∈ replica.contribution key}

theorem contributions_cons (repl : ReplicaInfo κ) (repls : List (ReplicaInfo κ)) (key : κ) :
    contributions (repl :: repls) key = repl.contribution key ∪ contributions repls key := by
  ext timestamp
  simp only [contributions, Set.mem_insert_iff, Set.mem_ofPred_eq, Set.mem_union,
    exists_mem_cons_iff]
  tauto

/-- What a really-sync replica brings, with the null timestamp, has the larger of its progress and
of what it advances to as its greatest element. An advance that is not due to the replica's own
progress changes nothing. -/
theorem isGreatest_contribution {repl : ReplicaInfo κ} (hsync : repl.ReallySync)
    (hspans : Spans lower upper repl.replicationProgress) (hle : lower ≤ key) (hlt : key < upper)
    {item : ReplicaHistoryItem} (hi : repl.history.getLast? = some item) :
    IsGreatest (insert nullTimestamp (repl.contribution key))
      (if getReplicationProgressMinTimestamp repl.replicationProgress < item.timestamp then
        max (repl.replicationProgress.timestampAt key) item.timestamp
      else repl.replicationProgress.timestampAt key) := by
  have ho : repl.replicationProgress.timestampAt key ∈ repl.contribution key := ⟨hsync, .inl rfl⟩
  have hd := hspans.inDomain hle hlt
  constructor
  · split_ifs with hm
    · rcases le_total item.timestamp (repl.replicationProgress.timestampAt key) with hge | hlt'
      · rw [max_eq_left hge]
        exact .inr ho
      · rw [max_eq_right hlt']
        rcases hlt'.eq_or_lt with heq | hlt'
        · rw [← heq]
          exact .inr ho
        · exact .inr ⟨hsync, .inr ⟨item, hi, rfl, key, hd, hlt'⟩⟩
    · exact .inr ho
  · rintro ts (rfl | ⟨-, rfl | ⟨item', hi', rfl, hb⟩⟩)
    · exact Nat.zero_le _
    · split_ifs
      · exact le_max_left _ _
      · exact le_rfl
    · obtain rfl : item = item' := Option.mem_unique hi hi'
      rw [if_pos ((minTimestamp_lt_iff hspans.wellFormed _).mpr (.inr hb))]
      exact le_max_right _ _

/-- No progress yet, or one of the interval. -/
def Accumulated (lower upper : κ) (progress : ReplicationProgress κ) : Prop :=
  progress.segments = [] ∨ Spans lower upper progress

variable {progress : ReplicationProgress κ}

theorem timestampAt_of_segments_nil (h : progress.segments = []) (key : κ) :
    progress.timestampAt key = nullTimestamp := by
  rw [timestampAt, h, valueAt_nil, ite_self]

theorem Accumulated.timestampAt_eq (h : Accumulated lower upper progress)
    (hk : ¬(lower ≤ key ∧ key < upper)) : progress.timestampAt key = nullTimestamp := by
  rcases h with hn | hs
  · exact timestampAt_of_segments_nil hn key
  · refine hs.wellFormed.timestampAt_of_not_inDomain fun hd => hk ?_
    obtain ⟨⟨lower', hlower', hle⟩, hlt⟩ := hd
    obtain rfl : lower = lower' := Option.mem_unique hs.lowerKey hlower'
    exact ⟨hle, hs.upperKey ▸ hlt⟩

theorem Accumulated.merge {progress other : ReplicationProgress κ}
    (h : Accumulated lower upper progress)
    (ho : Spans lower upper other) : Spans lower upper (if progress.segments.isEmpty then other
      else buildMaxProgress progress other) ∧ ∀ key, (if progress.segments.isEmpty then other
        else buildMaxProgress progress other).timestampAt key =
        max (progress.timestampAt key) (other.timestampAt key) := by
  rcases h with hn | hs
  · rw [if_pos (by rw [hn]; rfl)]
    refine ⟨ho, fun key => ?_⟩
    rw [timestampAt_of_segments_nil hn, nullTimestamp_max]
  · rw [if_neg (by simpa using hs.wellFormed.nonempty)]
    exact hs.max ho

theorem mergeSyncReplica_spec {sync : ReplicationProgress κ} {repl : ReplicaInfo κ}
    (hsync : Accumulated lower upper sync) (hspans : Spans lower upper repl.replicationProgress)
    (hh : repl.history ≠ []) :
    ∃ result, mergeSyncReplica sync repl = .ok result ∧ Accumulated lower upper result ∧
      ∀ key, lower ≤ key → key < upper → ∃ timestamp,
        IsGreatest (insert nullTimestamp (repl.contribution key)) timestamp ∧
        result.timestampAt key = max (sync.timestampAt key) timestamp := by
  obtain ⟨really, hr⟩ := isReplicaReallySync_ok repl.mode repl.state hh
  have hi := getLast?_eq_some_getLast hh
  set item := repl.history.getLast hh
  cases really with
  | false =>
    refine ⟨sync, by simp [mergeSyncReplica, hr], hsync, fun key _ _ => ⟨nullTimestamp, ?_, ?_⟩⟩
    · have hn : repl.contribution key = ∅ := by
        simp [ReplicaInfo.contribution, ReplicaInfo.ReallySync, hr]
      rw [hn]
      exact ⟨.inl rfl, by rintro timestamp (rfl | h); exacts [le_rfl, h.elim]⟩
    · rw [max_nullTimestamp]
  | true =>
    obtain ⟨hmerged, hv⟩ := hsync.merge hspans
    set merged := if sync.segments.isEmpty then repl.replicationProgress
      else buildMaxProgress sync repl.replicationProgress
    have hg := fun (key : κ) (hle : lower ≤ key) (hlt : key < upper) =>
      isGreatest_contribution hr hspans hle hlt hi
    by_cases hmin : getReplicationProgressMinTimestamp repl.replicationProgress < item.timestamp
    · obtain ⟨hadvanced, hadvance⟩ := hmerged.advance item.timestamp
      refine ⟨advanceReplicationProgress merged item.timestamp, ?_, .inr hadvanced, fun key hle hlt =>
        ⟨_, hg key hle hlt, ?_⟩⟩
      · rw [mergeSyncReplica, hr]
        simp [hi, hmin, merged]
      · rw [if_pos hmin, hadvance key hle hlt, hv, max_assoc]
    · refine ⟨merged, ?_, .inr hmerged, fun key hle hlt => ⟨_, hg key hle hlt, ?_⟩⟩
      · rw [mergeSyncReplica, hr]
        simp [hi, hmin, merged]
      · rw [if_neg hmin, hv]

theorem foldlM_mergeSyncReplica : ∀ (repls : List (ReplicaInfo κ)) (sync : ReplicationProgress κ),
    Accumulated lower upper sync → (∀ repl ∈ repls, repl.history ≠ []) →
    (∀ repl ∈ repls, Spans lower upper repl.replicationProgress) →
    ∃ result, repls.foldlM mergeSyncReplica sync = .ok result ∧ Accumulated lower upper result ∧
      ∀ key, lower ≤ key → key < upper → ∃ ts, IsGreatest (contributions repls key) ts ∧
        result.timestampAt key = max (sync.timestampAt key) ts
  | [], sync, hsync, _, _ => by
    refine ⟨sync, rfl, hsync, fun key _ _ => ⟨nullTimestamp, ?_, (max_nullTimestamp _).symm⟩⟩
    simp [contributions]
  | repl :: repls, sync, hsync, hhistories, hspans => by
    obtain ⟨hhead, ht⟩ := forall_mem_cons.mp hhistories
    obtain ⟨hhead', ht'⟩ := forall_mem_cons.mp hspans
    obtain ⟨merged, hmerge, hmerged, hv⟩ := mergeSyncReplica_spec hsync hhead' hhead
    obtain ⟨result, hloop, hres, hv'⟩ := foldlM_mergeSyncReplica repls merged hmerged ht ht'
    refine ⟨result, by rw [foldlM_cons, hmerge, ok_bind, hloop], hres, fun key hle hlt => ?_⟩
    obtain ⟨first, hf, heq⟩ := hv key hle hlt
    obtain ⟨rest, hrest, heq'⟩ := hv' key hle hlt
    refine ⟨max first rest, ?_, by rw [heq', heq, max_assoc]⟩
    have hu := hf.union hrest
    -- the null timestamp is there once more
    have hn : nullTimestamp ∈ repl.contribution key ∪ contributions repls key := .inr (.inl rfl)
    rwa [Set.insert_union, Set.insert_eq_of_mem hn, ← contributions_cons] at hu

end Loop

theorem buildMaxSyncProgress_spec [Inhabited κ] {lower upper : κ} {repls : List (ReplicaInfo κ)}
    (hh : ∀ repl ∈ repls, repl.history ≠ [])
    (hs : ∀ repl ∈ repls, Spans lower upper repl.replicationProgress) :
    ∃ progress, buildMaxSyncProgress repls = .ok progress ∧ Accumulated lower upper progress ∧
      ∀ key, lower ≤ key → key < upper →
      IsGreatest (contributions repls key) (progress.timestampAt key) := by
  obtain ⟨progress, hloop, hp, hv⟩ := foldlM_mergeSyncReplica repls ⟨[], default⟩ (.inl rfl) hh hs
  refine ⟨progress, hloop, hp, fun key hle hlt => ?_⟩
  obtain ⟨ts, hg, heq⟩ := hv key hle hlt
  rwa [heq, timestampAt_of_segments_nil rfl, nullTimestamp_max]

/-- The order of the replicas does not matter. -/
theorem buildMaxSyncProgress_order [Inhabited κ] {lower upper : κ}
    {replicas replicas' : List (ReplicaInfo κ)}
    (hperm : replicas.Perm replicas') (hhistory : ∀ replica ∈ replicas, replica.history ≠ [])
    (hspans : ∀ replica ∈ replicas, Spans lower upper replica.replicationProgress) :
    ∃ progress progress', buildMaxSyncProgress replicas = .ok progress ∧
      buildMaxSyncProgress replicas' = .ok progress' ∧
      (∀ key, progress.timestampAt key = progress'.timestampAt key) ∧ ∀ key, lower ≤ key →
      key < upper → IsGreatest (contributions replicas key) (progress.timestampAt key) := by
  obtain ⟨progress, hbuild, hprogress, hvalue⟩ := buildMaxSyncProgress_spec hhistory hspans
  obtain ⟨progress', hbuild', hprogress', hvalue'⟩ := buildMaxSyncProgress_spec
    (fun replica hreplica => hhistory replica (hperm.mem_iff.mpr hreplica))
    (fun replica hreplica => hspans replica (hperm.mem_iff.mpr hreplica))
  refine ⟨progress, progress', hbuild, hbuild', fun key => ?_, hvalue⟩
  by_cases hkey : lower ≤ key ∧ key < upper
  · have hsame : contributions replicas key = contributions replicas' key := by
      simp only [contributions, hperm.mem_iff]
    have hgreatest := hvalue key hkey.1 hkey.2
    rw [hsame] at hgreatest
    exact hgreatest.unique (hvalue' key hkey.1 hkey.2)
  · rw [hprogress.timestampAt_eq hkey, hprogress'.timestampAt_eq hkey]

/-- A replica that has reached its era, and one that has not. -/
def exampleReplicas : List (ReplicaInfo ℕ) :=
  [⟨.sync, .enabled, ⟨[(0, 20), (4, 40)], 10⟩, [⟨0, 10, .sync, .enabled⟩]⟩,
    ⟨.syncToAsync, .enabled, ⟨[(0, 25)], 10⟩, [⟨1, 30, .sync, .enabled⟩]⟩]

theorem buildMaxSyncProgress_order_example :
    ∃ progress progress', buildMaxSyncProgress exampleReplicas = .ok progress ∧
      buildMaxSyncProgress exampleReplicas.reverse = .ok progress' ∧
      ∀ key, progress.timestampAt key = progress'.timestampAt key := by
  have hspans : ∀ replica ∈ exampleReplicas, Spans 0 10 replica.replicationProgress := by
    simp only [exampleReplicas, forall_mem_cons, not_mem_nil, false_implies, implies_true, and_true]
    exact ⟨⟨⟨by decide, by decide, by decide⟩, rfl, rfl⟩, ⟨⟨by decide, by decide, by decide⟩, rfl, rfl⟩⟩
  obtain ⟨progress, progress', hbuild, hbuild', hsame, -⟩ :=
    buildMaxSyncProgress_order (reverse_perm exampleReplicas).symm (by simp [exampleReplicas]) hspans
  exact ⟨progress, progress', hbuild, hbuild', hsame⟩

end Ytsaurus.ChaosClient
