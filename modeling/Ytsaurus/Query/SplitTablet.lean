/-
# Splitting the ranges of a tablet

`SplitTablet` of `query/base/coordination_helpers.h` groups the ranges of a query by the partitions
of a tablet, cuts them at the sample keys of the partitions and collects the cells so obtained into
at most `maxSubsplitsPerTablet` batches of nearly equal numbers of cells (`Step`).

Rows only meet through their order here, so they are elements of an arbitrary linear order. An
element that a container does not have is undefined to read. The product in `Step` has 64 bits.
-/
import Ytsaurus.Query.GroupByShards

namespace Ytsaurus.Query

open Lib

/-- `Step`: how many shards the current batch still takes. -/
def step (current source target : ℕ) : Result ℕ := do
  ytVerify (target ≤ source)
  ytVerify (current ≤ source)
  let result := (source - 1 - current * target % 2 ^ 64 % source) / target + 1
  ytVerify (current + result ≤ source)
  ytVerify (0 < result)
  return result

variable {κ : Type} [LinearOrder κ]

/-- A partition of a tablet: its pivot key, the next pivot key and its sample keys. -/
structure Partition (κ : Type) where
  pivotKey : κ
  nextPivotKey : κ
  sampleKeys : List κ

/-- The sample keys increase strictly between the pivot keys. -/
def Partition.Increasing (partition : Partition κ) : Prop :=
  (partition.pivotKey :: (partition.sampleKeys ++ [partition.nextPivotKey])).Pairwise (· < ·)

/-- A tablet: contiguous partitions. -/
structure Tablet (κ : Type) [LinearOrder κ] where
  partitions : List (Partition κ)
  nonempty : partitions ≠ []
  increasing : ∀ partition ∈ partitions, partition.Increasing
  contiguous : partitions.IsChain fun partition next => partition.nextPivotKey = next.pivotKey

def Tablet.lower (tablet : Tablet κ) : κ := (tablet.partitions.head tablet.nonempty).pivotKey

def Tablet.upper (tablet : Tablet κ) : κ := (tablet.partitions.getLast tablet.nonempty).nextPivotKey

/-! ### Grouping by partitions -/

/-- `TGroup`: a partition and the positions of its ranges. -/
structure PartitionGroup where
  partitionIt : ℕ
  beginIt : ℕ
  endIt : ℕ
  deriving DecidableEq, Repr

/-- The callback of `GroupRangesByPartition`, call by call. -/
def collectGroups (partitionCount rangeCount : ℕ) :
    List (ℕ × ℕ × ℕ) → List PartitionGroup → Result (List PartitionGroup)
  | [], grouped => return grouped
  | (shardIt, itemIt, itemItEnd) :: calls, grouped => do
    ytVerify (itemIt ≠ itemItEnd)
    if shardIt = partitionCount then
      ytVerify (itemIt + 1 = rangeCount)
      collectGroups partitionCount rangeCount calls grouped
    else
      ytVerify (∀ last ∈ grouped.getLast?, last.partitionIt ≠ shardIt)
      collectGroups partitionCount rangeCount calls (grouped ++ [⟨shardIt, itemIt, itemItEnd⟩])

/-- `GroupItemsByShards`: the calls of its callback. -/
def groupItemsByShards (groups : List ShardGroup) : Result (List (ℕ × ℕ × ℕ)) := do
  ytVerify (∀ group ∈ groups, group.itemsBegin ≠ group.itemsEnd)
  return groups.flatMap itemCalls

variable (partitions : List (Partition κ)) (ranges : List (κ × κ))

/-- The checks of `GroupRangesByPartition`. -/
def verifyIntersects : Result Unit := do
  if ranges ≠ [] then
    let front ← vectorAt partitions 0
    let back ← vectorAt partitions (partitions.length - 1)
    let frontRange ← vectorAt ranges 0
    let backRange ← vectorAt ranges (ranges.length - 1)
    ytVerify (front.pivotKey < frontRange.2)
    ytVerify (backRange.1 < back.nextPivotKey)

/-- `GroupRangesByPartition` with the callback of `SplitTablet`. -/
def groupRangesByPartition :
    Result (List PartitionGroup) := do
  verifyIntersects partitions ranges
  let calls ← groupItemsByShards (groupRanges ranges (partitions.map Partition.nextPivotKey))
  collectGroups partitions.length ranges.length calls []

/-! ### Cutting a partition -/

def sliceOf (ranges : List (κ × κ)) (beginIt endIt : ℕ) : List (κ × κ) :=
  (ranges.drop beginIt).take (endIt - beginIt)

def touchedShards (groups : List ShardGroup) : ℕ :=
  (groups.map fun group => 1 + (group.shardsEnd - group.shardsBegin)).sum

/-- What `addGroup` captures: `groupedSplits`, `group` and `currentShardCount`. -/
structure SplitState (κ : Type) where
  groupedSplits : List (List (κ × κ))
  group : List (κ × κ)
  currentShardCount : ℕ

structure SplitCounts where
  allShardCount : ℕ
  targetSplitCount : ℕ

def addGroup (counts : SplitCounts) (count : ℕ) (state : SplitState κ) : Result (SplitState κ) := do
  ytVerify (state.group ≠ [])
  let nextStep ← step state.currentShardCount counts.allShardCount counts.targetSplitCount
  ytVerify (count ≤ nextStep)
  ytVerify (state.currentShardCount ≤ counts.allShardCount)
  if count = nextStep then
    ytVerify (state.group.IsChain fun range range' => range.2 ≤ range'.1)
    ytVerify (∀ range ∈ state.group, range.1 < range.2)
    return ⟨state.groupedSplits ++ [state.group], [], state.currentShardCount + count⟩
  else return { state with currentShardCount := state.currentShardCount + count }

/-- A partition's ranges with their clipped ends, and its samples. -/
structure SplitSlice (κ : Type) where
  ranges : List (κ × κ)
  samples : List κ
  minBound : κ
  maxBound : κ

/-- The loop over the samples that cut one range. -/
def cutBySamples (counts : SplitCounts) (samples : List κ) (sampleItEnd sampleIt : ℕ)
    (currentBound : κ) (state : SplitState κ) : Result (SplitState κ) :=
  if _h : sampleIt < sampleItEnd then do
    let stepSize ← step state.currentShardCount counts.allShardCount counts.targetSplitCount
    if _hpos : 0 < min stepSize (sampleItEnd - sampleIt) then
      let nextStep := min stepSize (sampleItEnd - sampleIt)
      let nextBound ← vectorAt samples (sampleIt + nextStep - 1)
      ytVerify (currentBound < nextBound)
      let state ← addGroup counts nextStep
        { state with group := state.group ++ [(currentBound, nextBound)] }
      cutBySamples counts samples sampleItEnd (sampleIt + nextStep) nextBound state
    else .error .verify
  else return state
termination_by sampleItEnd - sampleIt

/-- `ForEachRange`: the calls of its callback. -/
def forEachRange (lower upper : κ) : List (κ × κ) → Result (List (κ × κ))
  | [] => .error .verify
  | [_] => return [(lower, upper)]
  | range :: next :: rest => do
    let later ← forEachRange next.1 upper (next :: rest)
    return (lower, range.2) :: later

/-- Where the range of a group starts: at the sample before it when it continues from the group
before, else at its own lower row or at the lower bound of the slice. -/
def startBound (slice : SplitSlice κ) (rangesItLast : Option ℕ) (group : ShardGroup)
    (range : κ × κ) : Result κ :=
  if rangesItLast = some group.itemsBegin then
    if group.shardsBegin ≠ 0 then vectorAt slice.samples (group.shardsBegin - 1)
      else return slice.minBound
  else if group.itemsBegin ≠ 0 then return range.1
  else return slice.minBound

/-- The pieces of the first range of a group up to its last inner sample. -/
def cutFirstRange (counts : SplitCounts) (slice : SplitSlice κ) (rangesItLast : Option ℕ)
    (group : ShardGroup) (range : κ × κ) (state : SplitState κ) : Result (SplitState κ) :=
  if group.shardsBegin ≠ group.shardsEnd then do
    let start ← startBound slice rangesItLast group range
    let lastSample ← vectorAt slice.samples (group.shardsEnd - 1)
    ytVerify (lastSample ≤ if group.itemsBegin + 1 = slice.ranges.length then slice.maxBound
      else range.2)
    cutBySamples counts slice.samples group.shardsEnd group.shardsBegin start state
  else return state

/-- The bounds of the last cell of a group before they meet its ranges. -/
def cellLower (slice : SplitSlice κ) (sampleIt : ℕ) : Result κ :=
  if sampleIt = 0 then return slice.minBound else vectorAt slice.samples (sampleIt - 1)

def cellUpper (slice : SplitSlice κ) (sampleIt : ℕ) : Result κ :=
  if sampleIt = slice.samples.length then return slice.maxBound else vectorAt slice.samples sampleIt

/-- The callback of the second `GroupByShards`. -/
def splitGroup (counts : SplitCounts) (slice : SplitSlice κ) (rangesItLast : Option ℕ)
    (group : ShardGroup) (state : SplitState κ) : Result (SplitState κ) := do
  ytVerify (group.itemsBegin ≠ group.itemsEnd)
  let range ← vectorAt slice.ranges group.itemsBegin
  let state ← cutFirstRange counts slice rangesItLast group range state
  let lower ← cellLower slice group.shardsEnd
  let upper ← cellUpper slice group.shardsEnd
  let lastRange ← vectorAt slice.ranges (group.itemsEnd - 1)
  let pieces ← forEachRange (max lower range.1) (min upper lastRange.2)
    (sliceOf slice.ranges group.itemsBegin group.itemsEnd)
  addGroup counts 1 { state with group := state.group ++ pieces }

def splitGroups (counts : SplitCounts) (slice : SplitSlice κ) :
    Option ℕ → List ShardGroup → SplitState κ → Result (SplitState κ)
  | _, [], state => return state
  | rangesItLast, group :: groups, state => do
    let state ← splitGroup counts slice rangesItLast group state
    splitGroups counts slice (some (group.itemsEnd - 1)) groups state

/-- The ranges of a partition group with the bounds of the partition. -/
def splitSlice (partition : Partition κ) (ranges : List (κ × κ)) (group : PartitionGroup) :
    Result (SplitSlice κ) := do
  let slice := sliceOf ranges group.beginIt group.endIt
  let front ← vectorAt slice 0
  let back ← vectorAt slice (slice.length - 1)
  return ⟨slice, partition.sampleKeys, max front.1 partition.pivotKey,
    min back.2 partition.nextPivotKey⟩

/-- One partition of the second pass. -/
def splitPartition (counts : SplitCounts)
    (state : SplitState κ) (group : PartitionGroup) : Result (SplitState κ) := do
  let partition ← vectorAt partitions group.partitionIt
  let slice ← splitSlice partition ranges group
  splitGroups counts slice none (groupRanges slice.ranges slice.samples) state

def groupShards (group : PartitionGroup) : ℕ :=
  (partitions[group.partitionIt]?).elim 0 fun partition =>
    touchedShards (groupRanges (sliceOf ranges group.beginIt group.endIt) partition.sampleKeys)

def allShardCount (grouped : List PartitionGroup) : ℕ :=
  (grouped.map (groupShards partitions ranges)).sum

def splitTablet (maxSubsplitsPerTablet : ℕ) :
    Result (List (List (κ × κ))) := do
  let grouped ← groupRangesByPartition partitions ranges
  let all := allShardCount partitions ranges grouped
  let targetSplitCount := min maxSubsplitsPerTablet all
  ytVerify (0 < targetSplitCount)
  let state ← grouped.foldlM (splitPartition partitions ranges ⟨all, targetSplitCount⟩) ⟨[], [], 0⟩
  ytVerify (state.currentShardCount = all)
  return state.groupedSplits

end Ytsaurus.Query
