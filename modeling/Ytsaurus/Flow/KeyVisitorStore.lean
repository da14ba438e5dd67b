/-
# The key visitor store

`TKeyVisitorStore` of `flow/library/cpp/computation/key_visitor_store.cpp` divides the key range of
a partition into buckets and every bucket into intervals that are pending, buffered or committed.
`Sync` stores the committed intervals in a table, each under its two bounds, and writes only what
differs from the snapshot of the rows that it remembers.

The snapshot holds pointers to the very interval objects of the buckets, which later calls change in
place. The model keeps that: intervals are objects of a heap, slots and the snapshot refer to them.
A stored row has the value that the object had when the row was written.

Keys only meet through their order and the two sentinels, the least and the greatest key.
-/
import Ytsaurus.Lib.Result

namespace Ytsaurus.Flow

/-! ### Interval objects -/

/-- `TKeyVisitorInterval`. -/
@[ext]
structure Interval (κ : Type) where
  lower : κ
  upper : κ
  passStartedAt : ℕ
  finalPass : Bool
  deriving DecidableEq, Repr

inductive IntervalState
  | pending | buffered | committed
  deriving DecidableEq, Repr

/-- The interval objects; those from `next` on do not exist yet. -/
structure Heap (κ : Type) where
  objects : ℕ → Interval κ
  next : ℕ

def Heap.set {κ : Type} (heap : Heap κ) (id : ℕ) (interval : Interval κ) : Heap κ :=
  { heap with objects := Function.update heap.objects id interval }

/-- `New<TKeyVisitorInterval>()`. -/
def Heap.alloc {κ : Type} (heap : Heap κ) (interval : Interval κ) : Heap κ :=
  ⟨Function.update heap.objects heap.next interval, heap.next + 1⟩

structure IntervalSlot where
  interval : ℕ
  state : IntervalState
  deriving DecidableEq, Repr

variable {κ : Type} [LinearOrder κ]

def splitAt (key : κ) (heap : Heap κ) : List IntervalSlot → Heap κ × List IntervalSlot
  | [] => (heap, [])
  | slot :: slots =>
    let interval := heap.objects slot.interval
    if interval.upper ≤ key then
      let rest := splitAt key heap slots
      (rest.1, slot :: rest.2)
    else if interval.lower = key ∨ interval.upper = key then (heap, slot :: slots)
    else
      ((heap.alloc { interval with lower := key }).set slot.interval { interval with upper := key },
        slot :: ⟨heap.next, slot.state⟩ :: slots)

/-- The loop of `CoalesceInplace`: the slot that was written last and the slots that are yet to be
read. -/
def coalesceLoop (heap : Heap κ) (slot : IntervalSlot) : List IntervalSlot →
    Heap κ × List IntervalSlot
  | [] => (heap, [slot])
  | slot' :: slots =>
    let interval := heap.objects slot.interval
    let interval' := heap.objects slot'.interval
    if slot.state = slot'.state ∧ interval.upper = interval'.lower ∧
        interval.finalPass = interval'.finalPass then
      coalesceLoop (heap.set slot.interval { interval with
        upper := interval'.upper, passStartedAt :=
          min interval.passStartedAt interval'.passStartedAt }) slot slots
    else
      let rest := coalesceLoop heap slot' slots
      (rest.1, slot :: rest.2)

def coalesceInplace (heap : Heap κ) : List IntervalSlot → Heap κ × List IntervalSlot
  | [] => (heap, [])
  | slot :: slots => coalesceLoop heap slot slots

/-- The loop of `MarkRange` over the slots. -/
def markSlots (range : κ × κ) (state : IntervalState) (stamp : Option ℕ) (heap : Heap κ) :
    List IntervalSlot → Heap κ × List IntervalSlot
  | [] => (heap, [])
  | slot :: slots =>
    let interval := heap.objects slot.interval
    if interval.upper ≤ range.1 then
      let rest := markSlots range state stamp heap slots
      (rest.1, slot :: rest.2)
    else if range.2 ≤ interval.lower then (heap, slot :: slots)
    else
      let rest := markSlots range state stamp
        (heap.set slot.interval
          { interval with passStartedAt := stamp.getD interval.passStartedAt }) slots
      (rest.1, { slot with state := state } :: rest.2)

def markRange (range : κ × κ) (state : IntervalState) (stamp : Option ℕ) (heap : Heap κ)
    (slots : List IntervalSlot) : Heap κ × List IntervalSlot :=
  if range.1 < range.2 then
    let lowerSplit := splitAt range.1 heap slots
    let upperSplit := splitAt range.2 lowerSplit.1 lowerSplit.2
    let marked := markSlots range state stamp upperSplit.1 upperSplit.2
    coalesceInplace marked.1 marked.2
  else (heap, slots)

/-! ### Buckets -/

structure Bucket (κ : Type) where
  range : κ × κ
  intervals : List IntervalSlot

def Bucket.slice (bucket : Bucket κ) (range : κ × κ) : κ × κ :=
  (max bucket.range.1 range.1, min bucket.range.2 range.2)

def resetBuckets (finalPass : Bool) (heap : Heap κ) : List (Bucket κ) → Heap κ × List (Bucket κ)
  | [] => (heap, [])
  | bucket :: buckets =>
    let rest := resetBuckets finalPass
      (heap.alloc ⟨bucket.range.1, bucket.range.2, 0, finalPass⟩) buckets
    (rest.1, { bucket with intervals := [⟨heap.next, .pending⟩] } :: rest.2)

/-- The loop of `StampAcrossBuckets` from the bucket that contains the lower bound on. -/
def stampFrom (range : κ × κ) (state : IntervalState) (stamp : Option ℕ) (heap : Heap κ) :
    List (Bucket κ) → Heap κ × List (Bucket κ)
  | [] => (heap, [])
  | bucket :: buckets =>
    if bucket.range.1 < range.2 then
      let marked := markRange (bucket.slice range) state stamp heap bucket.intervals
      let rest := stampFrom range state stamp marked.1 buckets
      (rest.1, { bucket with intervals := marked.2 } :: rest.2)
    else (heap, bucket :: buckets)

/-- `StampAcrossBuckets`: the buckets before the one that `FindBucketContaining` finds stay as they
are. -/
def stampAcrossBuckets (range : κ × κ) (state : IntervalState) (stamp : Option ℕ) (heap : Heap κ) :
    List (Bucket κ) → Heap κ × List (Bucket κ)
  | [] => (heap, [])
  | bucket :: buckets =>
    if range.1 < bucket.range.2 then stampFrom range state stamp heap (bucket :: buckets)
    else
      let rest := stampAcrossBuckets range state stamp heap buckets
      (rest.1, bucket :: rest.2)

/-! ### The store -/

/-- A table key without the ids of the computation and of the stream: the key and `IsLower`. -/
abbrev RowKey (κ : Type) := κ × Bool

abbrev Table (κ : Type) := RowKey κ → Option (Interval κ)

/-- `TKeyVisitorStore`: the buckets, their heap and the snapshot of the rows. -/
structure Store (κ : Type) where
  heap : Heap κ
  buckets : List (Bucket κ)
  remoteIntervals : RowKey κ → Option ℕ

namespace Store

def markBuffered (range : κ × κ) (timestamp : ℕ) (store : Store κ) : Store κ :=
  let stamped := stampAcrossBuckets range .buffered (some timestamp) store.heap store.buckets
  { store with heap := stamped.1, buckets := stamped.2 }

def markCommitted (range : κ × κ) (store : Store κ) : Store κ :=
  let stamped := stampAcrossBuckets range .committed none store.heap store.buckets
  { store with heap := stamped.1, buckets := stamped.2 }

def startNewPass (finalPass : Bool) (store : Store κ) : Store κ :=
  let reset := resetBuckets finalPass store.heap store.buckets
  { store with heap := reset.1, buckets := reset.2 }

/-- The slots of a bucket with every interval that is not final replaced by a final clone. -/
def finalSlots (heap : Heap κ) : List IntervalSlot → Heap κ × List IntervalSlot
  | [] => (heap, [])
  | slot :: slots =>
    if (heap.objects slot.interval).finalPass then
      let rest := finalSlots heap slots
      (rest.1, slot :: rest.2)
    else
      let rest := finalSlots (heap.alloc { heap.objects slot.interval with finalPass := true }) slots
      (rest.1, { slot with interval := heap.next } :: rest.2)

def finalBuckets (heap : Heap κ) : List (Bucket κ) → Heap κ × List (Bucket κ)
  | [] => (heap, [])
  | bucket :: buckets =>
    let final := finalSlots heap bucket.intervals
    let rest := finalBuckets final.1 buckets
    (rest.1, { bucket with intervals := final.2 } :: rest.2)

def markCurrentPassFinal (store : Store κ) : Store κ :=
  let final := finalBuckets store.heap store.buckets
  { store with heap := final.1, buckets := final.2 }

def slots (store : Store κ) : List IntervalSlot := store.buckets.flatMap Bucket.intervals

def interval (store : Store κ) (slot : IntervalSlot) : Interval κ :=
  store.heap.objects slot.interval

def isCurrentPassFinal (store : Store κ) : Bool :=
  ((store.buckets.head?.bind fun bucket => bucket.intervals.head?).map
    fun slot => (store.interval slot).finalPass).getD false

section Sync

variable [BoundedOrder κ]

/-- The rows of a slot in `newRemote`: both bounds of a committed interval, but no sentinel. -/
def rowsOf (store : Store κ) (slot : IntervalSlot) : List (RowKey κ × ℕ) :=
  if slot.state = .committed then
    (if (store.interval slot).lower ≠ ⊥
      then [(((store.interval slot).lower, true), slot.interval)] else []) ++
    (if (store.interval slot).upper ≠ ⊤
      then [(((store.interval slot).upper, false), slot.interval)] else [])
  else []

/-- `newRemote` of `Sync`; `emplace` keeps the first entry of a key. -/
def newRemote (store : Store κ) (key : RowKey κ) : Option ℕ :=
  ((store.slots.flatMap store.rowsOf).find? fun row => decide (row.1 = key)).map Prod.snd

/-- Both the snapshot and the new rows have the key, with intervals of the same value: the objects
are compared as they are now. -/
def sameRow (store : Store κ) (key : RowKey κ) : Bool :=
  (store.remoteIntervals key).any fun old => (store.newRemote key).any fun fresh =>
    decide (store.heap.objects fresh = store.heap.objects old)

/-- `Sync` with `Write`: rows of the snapshot that are gone or differ are deleted, then new rows
that are missing or differ are written. -/
def sync (store : Store κ) (table : Table κ) : Store κ × Table κ :=
  let deleted : Table κ := fun key =>
    if (store.remoteIntervals key).isSome ∧ ¬store.sameRow key then none else table key
  let written : Table κ := fun key =>
    if (store.newRemote key).isSome ∧ ¬store.sameRow key
      then (store.newRemote key).map store.heap.objects
    else deleted key
  ({ store with remoteIntervals := store.newRemote }, written)

end Sync

/-! ### `Init` -/

def seedCommitted (range : κ × κ) (stampedAt : ℕ) (finalPass : Bool) (heap : Heap κ)
    (slots : List IntervalSlot) : Result (Heap κ × List IntervalSlot) := do
  ytVerify (∀ slot ∈ slots.head?, (heap.objects slot.interval).finalPass = finalPass)
  return markRange range .committed (some stampedAt) heap slots

/-- The loop of `Init` over the buckets that a persisted interval meets. -/
def seedFrom (interval : Interval κ) (heap : Heap κ) : List (Bucket κ) →
    Result (Heap κ × List (Bucket κ))
  | [] => return (heap, [])
  | bucket :: buckets =>
    if bucket.range.1 < interval.upper then do
      let seeded ← seedCommitted (bucket.slice (interval.lower, interval.upper)) interval.passStartedAt
        interval.finalPass heap bucket.intervals
      let rest ← seedFrom interval seeded.1 buckets
      return (rest.1, { bucket with intervals := seeded.2 } :: rest.2)
    else return (heap, bucket :: buckets)

/-- The buckets before the one that `FindBucketContaining` finds are left. -/
def seedAcrossBuckets (interval : Interval κ) (heap : Heap κ) : List (Bucket κ) →
    Result (Heap κ × List (Bucket κ))
  | [] => return (heap, [])
  | bucket :: buckets =>
    if interval.lower < bucket.range.2 then seedFrom interval heap (bucket :: buckets)
    else do
      let rest ← seedAcrossBuckets interval heap buckets
      return (rest.1, bucket :: rest.2)

def seedRows (heap : Heap κ) (buckets : List (Bucket κ)) : List (Interval κ) →
    Result (Heap κ × List (Bucket κ))
  | [] => return (heap, buckets)
  | interval :: rows => do
    let seeded ← seedAcrossBuckets interval heap buckets
    seedRows seeded.1 seeded.2 rows

/-- The rows that bracket the partition range, in the order of `(key, is_lower)`. -/
def inPartition [BoundedOrder κ] (partitionRange : κ × κ) (key : RowKey κ) : Prop :=
  (partitionRange.1 ≠ ⊥ → partitionRange.1 < key.1 ∨ partitionRange.1 = key.1 ∧ key.2 = true) ∧
  (partitionRange.2 ≠ ⊤ → key.1 < partitionRange.2 ∨ key.1 = partitionRange.2 ∧ key.2 = false)

instance [BoundedOrder κ] (partitionRange : κ × κ) (key : RowKey κ) :
    Decidable (inPartition partitionRange key) := by
  unfold inPartition
  infer_instance

def parsedHeap [BoundedOrder κ] (rows : List (RowKey κ × Interval κ)) : Heap κ :=
  ⟨fun id => (rows[id]?.map Prod.snd).getD ⟨⊥, ⊤, 0, false⟩, rows.length⟩

/-- `Init` from the rows of the table in any order. `bucketRanges` is what
`SplitPartitionRangeIntoBuckets` returns. The snapshot has an object of its own for every row. -/
def init [BoundedOrder κ] (partitionRange : κ × κ) (bucketRanges : List (κ × κ))
    (table : List (RowKey κ × Interval κ)) : Result (Store κ) := do
  let rows := table.filter fun row => decide (inPartition partitionRange row.1)
  let persistedPassFinal := rows.any fun row => row.2.finalPass
  let reset := resetBuckets persistedPassFinal (parsedHeap rows)
    (bucketRanges.map fun range => ⟨range, []⟩)
  let seeded ← seedRows reset.1 reset.2 (rows.map Prod.snd)
  return ⟨seeded.1, seeded.2, fun key => rows.findIdx? fun row => decide (row.1 = key)⟩

end Store

end Ytsaurus.Flow
