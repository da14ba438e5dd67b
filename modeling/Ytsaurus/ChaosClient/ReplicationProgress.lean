/-
# Replication progress

A replication progress of `client/chaos_client/replication_card.cpp` is a list of segments, each
with a lower key and a timestamp, and an upper key. It gives every key of its domain the timestamp
of the last segment at or below the key.

`UpdateReplicationProgress` and `BuildMaxProgress` merge two progresses. With its upper key as one
more step, of the null timestamp, a progress is a step function on all keys, and both functions
push the join of two such functions step by step (`Merges`).

Keys only meet through their order, so they are elements of an arbitrary linear order.
-/
import Ytsaurus.Lib.StepFunction

namespace Ytsaurus.ChaosClient

open Lib

abbrev Timestamp := ℕ

def nullTimestamp : Timestamp := 0

def minTimestamp : Timestamp := 1

def maxTimestamp : Timestamp := 0x3fffffffffffff00

variable {κ : Type} [LinearOrder κ]

/-- `TReplicationProgress`; a segment is its lower key with its timestamp. -/
structure ReplicationProgress (κ : Type) where
  segments : List (κ × Timestamp)
  upperKey : κ
  deriving DecidableEq, Repr

/-- `append` and `tryAppendSegment`. -/
def tryAppendSegment (segments : List (κ × Timestamp)) (key : κ) (timestamp : Timestamp) :
    List (κ × Timestamp) :=
  if segments.isEmpty ∨ segments.getLast?.map Prod.snd ≠ some timestamp
    then segments ++ [(key, timestamp)]
  else segments

/-! ### `UpdateReplicationProgress` -/

/-- What the loops carry: the timestamps in force, whether an upper key was passed, and the new
segments. -/
structure MergeState (κ : Type) where
  progressTimestamp : Timestamp
  otherTimestamp : Timestamp
  upperKeySelected : Bool
  segments : List (κ × Timestamp)

def MergeState.initial : MergeState κ := ⟨nullTimestamp, nullTimestamp, false, []⟩

variable (state : MergeState κ)

/-- `append` of `UpdateReplicationProgress`. -/
def MergeState.append (key : κ) : MergeState κ :=
  { state with
    segments :=
      tryAppendSegment state.segments key (max state.progressTimestamp state.otherTimestamp) }

/-- The next segment of the first progress, of the second, and of both. -/
def MergeState.takeProgress (key : κ) (timestamp : Timestamp) : MergeState κ :=
  { state with progressTimestamp := timestamp }.append key

def MergeState.takeOther (key : κ) (timestamp : Timestamp) : MergeState κ :=
  { state with otherTimestamp := timestamp }.append key

def MergeState.takeBoth (key : κ) (timestamp timestamp' : Timestamp) : MergeState κ :=
  { state with progressTimestamp := timestamp, otherTimestamp := timestamp' }.append key

/-- The upper key of the first progress has passed, and that of the second. -/
def MergeState.passProgress : MergeState κ :=
  { state with upperKeySelected := true, progressTimestamp := nullTimestamp }

def MergeState.passOther : MergeState κ :=
  { state with upperKeySelected := true, otherTimestamp := nullTimestamp }

/-- `processUpperKey` once the update has ended. -/
def processUpperKey (updateUpperKey key : κ) (state : MergeState κ) : MergeState κ :=
  if state.upperKeySelected then state
  else if key < updateUpperKey then state
  else if updateUpperKey < key then state.passOther.append updateUpperKey
  else state.passOther

/-- The loop of `UpdateReplicationProgress` over the segments that remain. -/
def updateLoop (updateUpperKey : κ) : List (κ × Timestamp) → List (κ × Timestamp) → MergeState κ →
    MergeState κ
  | [], [], state => state
  | (key, timestamp) :: progress, [], state =>
    updateLoop updateUpperKey progress []
      ((processUpperKey updateUpperKey key state).takeProgress key timestamp)
  | [], (key, timestamp) :: update, state =>
    updateLoop updateUpperKey [] update (state.takeOther key timestamp)
  | (key, timestamp) :: progress, (key', timestamp') :: update, state =>
    if key < key' then
      updateLoop updateUpperKey progress ((key', timestamp') :: update)
        (state.takeProgress key timestamp)
    else if key' < key then
      updateLoop updateUpperKey ((key, timestamp) :: progress) update (state.takeOther key' timestamp')
    else updateLoop updateUpperKey progress update (state.takeBoth key timestamp timestamp')
termination_by progress update => progress.length + update.length

def updateReplicationProgress (progress update : ReplicationProgress κ) : ReplicationProgress κ :=
  let state := updateLoop update.upperKey progress.segments update.segments MergeState.initial
  { progress with segments := (processUpperKey update.upperKey progress.upperKey state).segments }

/-! ### `BuildMaxProgress` -/

/-- The loop of `BuildMaxProgress` over the segments that remain. -/
def maxLoop (progressUpperKey otherUpperKey : κ) :
    List (κ × Timestamp) → List (κ × Timestamp) → MergeState κ → MergeState κ
  | [], [], state => state
  | (key, timestamp) :: progress, [], state =>
    if state.upperKeySelected = false ∧ otherUpperKey ≤ key then
      if otherUpperKey < key then
        -- The gap before the segment is filled; the segment comes with the next iteration.
        maxLoop progressUpperKey otherUpperKey ((key, timestamp) :: progress) []
          { state.passOther with
            segments := tryAppendSegment state.segments otherUpperKey state.progressTimestamp }
      else
        maxLoop progressUpperKey otherUpperKey progress [] (state.passOther.takeProgress key timestamp)
    else maxLoop progressUpperKey otherUpperKey progress [] (state.takeProgress key timestamp)
  | [], (key, timestamp) :: other, state =>
    if state.upperKeySelected = false ∧ progressUpperKey ≤ key then
      if progressUpperKey < key then
        maxLoop progressUpperKey otherUpperKey [] ((key, timestamp) :: other)
          { state.passProgress with
            segments := tryAppendSegment state.segments progressUpperKey state.otherTimestamp }
      else maxLoop progressUpperKey otherUpperKey [] other (state.passProgress.takeOther key timestamp)
    else maxLoop progressUpperKey otherUpperKey [] other (state.takeOther key timestamp)
  | (key, timestamp) :: progress, (key', timestamp') :: other, state =>
    if key < key' then
      maxLoop progressUpperKey otherUpperKey progress ((key', timestamp') :: other)
        (state.takeProgress key timestamp)
    else if key' < key then
      maxLoop progressUpperKey otherUpperKey ((key, timestamp) :: progress) other
        (state.takeOther key' timestamp')
    else maxLoop progressUpperKey otherUpperKey progress other (state.takeBoth key timestamp timestamp')
termination_by progress other state =>
  (progress.length + other.length, if state.upperKeySelected then 0 else 1)
decreasing_by
  all_goals simp_wf
  all_goals first
    | (exact Prod.Lex.left _ _ (by omega))
    | (refine Prod.Lex.right _ ?_; simp_all [MergeState.passOther, MergeState.passProgress])

/-- What `BuildMaxProgress` does after its loop. -/
def finishMax (progressUpperKey otherUpperKey : κ) (state : MergeState κ) :
    ReplicationProgress κ where
  upperKey := if otherUpperKey < progressUpperKey then progressUpperKey else otherUpperKey
  segments :=
    if state.upperKeySelected then state.segments
    else if otherUpperKey < progressUpperKey then
      tryAppendSegment state.segments otherUpperKey state.progressTimestamp
    else if progressUpperKey < otherUpperKey then
      tryAppendSegment state.segments progressUpperKey state.otherTimestamp
    else state.segments

def buildMaxProgress (progress other : ReplicationProgress κ) : ReplicationProgress κ :=
  if progress.segments.isEmpty then other
  else if other.segments.isEmpty then progress
  else finishMax progress.upperKey other.upperKey
    (maxLoop progress.upperKey other.upperKey progress.segments other.segments MergeState.initial)

/-! ### `IsReplicationProgressGreaterOrEqual` -/

/-- The loop of `IsReplicationProgressGreaterOrEqual` over the segments that remain. -/
def greaterOrEqualLoop (progressUpperKey otherUpperKey : κ) :
    List (κ × Timestamp) → List (κ × Timestamp) → Timestamp → Timestamp → Bool
  | [], [], _, _ => true
  | (key, timestamp) :: progress, [], _, otherTimestamp =>
    if otherUpperKey ≤ key then true
    else if timestamp < otherTimestamp then false
    else greaterOrEqualLoop progressUpperKey otherUpperKey progress [] timestamp otherTimestamp
  | [], (key, timestamp) :: other, progressTimestamp, _ =>
    if progressUpperKey ≤ key then true
    else if progressTimestamp < timestamp then false
    else greaterOrEqualLoop progressUpperKey otherUpperKey [] other progressTimestamp timestamp
  | (key, timestamp) :: progress, (key', timestamp') :: other, progressTimestamp, otherTimestamp =>
    if key < key' then
      if timestamp < otherTimestamp then false
      else greaterOrEqualLoop progressUpperKey otherUpperKey progress
        ((key', timestamp') :: other) timestamp otherTimestamp
    else if key' < key then
      if progressTimestamp < timestamp' then false
      else greaterOrEqualLoop progressUpperKey otherUpperKey
        ((key, timestamp) :: progress) other progressTimestamp timestamp'
    else if timestamp < timestamp' then false
    else greaterOrEqualLoop progressUpperKey otherUpperKey progress other timestamp timestamp'
termination_by progress other => progress.length + other.length

/-- `std::upper_bound` over the lower keys: the segments at or below the key and those above it. -/
def upperBound (segments : List (κ × Timestamp)) (key : κ) :
    List (κ × Timestamp) × List (κ × Timestamp) :=
  (segments.takeWhile fun segment => decide (segment.1 ≤ key),
    segments.dropWhile fun segment => decide (segment.1 ≤ key))

/-- `IsReplicationProgressGreaterOrEqual`; `none` where the first segment does not exist. -/
def isReplicationProgressGreaterOrEqual (progress other : ReplicationProgress κ) : Option Bool :=
  match progress.segments with
  | [] => none
  | (key, _) :: _ =>
    let (before, after) := upperBound other.segments key
    let otherTimestamp := (before.getLast?.map Prod.snd).getD nullTimestamp
    some (greaterOrEqualLoop progress.upperKey other.upperKey progress.segments after maxTimestamp
      otherTimestamp)

end Ytsaurus.ChaosClient
