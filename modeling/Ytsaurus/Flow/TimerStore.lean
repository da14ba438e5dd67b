/-
# The timer store

`TTimerStore` of `flow/library/cpp/computation/stores/timer_store.cpp` keeps the timers of a
partition in memory and queues every change of them, for `Sync` to bring into the timers table. A
stream may ask for deduplication: of two waiting timers with one key and one trigger timestamp only
that with the lesser event timestamp stays.

`TInflightTracker` (`common/inflight_tracker.cpp`) knows the state of every timer. The sets of
timers that wait and that are triggered are ordered by the trigger timestamp and the message id in
every stream; here the sets of all streams are one list in that order. The counters of the tracker
and `ExportPages` are left out.
-/
import Ytsaurus.Lib.Result
import Ytsaurus.Flow.WatermarkHistory

namespace Ytsaurus.Flow.Timers

/-! ### Timers -/

abbrev MessageId := String

abbrev StreamId := String

/-- `TTimer`; keys are compared for equality only. -/
structure Timer where
  messageId : MessageId
  streamId : StreamId
  key : String
  triggerTimestamp : ℕ
  eventTimestamp : ℕ
  byteSize : ℕ
  deriving DecidableEq, Repr

/-- `TCompareTimerByTriggerTimestampAndMessageId`, with equality. -/
def Timer.Precedes (a b : Timer) : Prop :=
  a.triggerTimestamp < b.triggerTimestamp ∨ a.triggerTimestamp = b.triggerTimestamp ∧
    a.messageId ≤ b.messageId

instance : DecidableRel Timer.Precedes := fun _ _ => inferInstanceAs (Decidable (_ ∨ _ ∧ _))

/-- `TMessageHashMapOpsByStreamAndKeyAndTriggerTs`. -/
def Timer.SameSlot (a b : Timer) : Prop :=
  a.streamId = b.streamId ∧ a.key = b.key ∧ a.triggerTimestamp = b.triggerTimestamp

instance : DecidableRel Timer.SameSlot := fun _ _ => inferInstanceAs (Decidable (_ ∧ _ ∧ _))

/-- One element of the set that the stream of the timers has. -/
def Timer.SameElement (a b : Timer) : Prop :=
  a.streamId = b.streamId ∧ a.triggerTimestamp = b.triggerTimestamp ∧ a.messageId = b.messageId

instance : DecidableRel Timer.SameElement := fun _ _ => inferInstanceAs (Decidable (_ ∧ _ ∧ _))

/-- `TSortedByTriggerTimestampTimerSet::insert`. -/
def insertTimer (timer : Timer) (timers : List Timer) : List Timer :=
  if timers.any fun t => decide (t.SameElement timer) then timers
  else timers.orderedInsert Timer.Precedes timer

/-- `TSortedByTriggerTimestampTimerSet::erase`. -/
def eraseTimer (timer : Timer) (timers : List Timer) : List Timer :=
  timers.filter fun t => !decide (t.SameElement timer)

/-! ### The inflight tracker -/

/-- `TMessageState::EState`. -/
inductive MessageState
  | new | ready | taken
  deriving DecidableEq, Repr

/-- The messages of the trackers of all streams. -/
abbrev Inflight := List (Timer × MessageState)

/-- A tracker finds a message by its id. -/
def SameMessage (a b : Timer) : Prop := a.streamId = b.streamId ∧ a.messageId = b.messageId

instance : DecidableRel SameMessage := fun _ _ => inferInstanceAs (Decidable (_ ∧ _))

namespace Inflight

def find (inflight : Inflight) (timer : Timer) : Option (Timer × MessageState) :=
  inflight.find? fun entry => decide (SameMessage entry.1 timer)

/-- `Register` and `Restore` of a timer. -/
def register (timer : Timer) (inflight : Inflight) : Result Inflight := do
  ytVerify ((inflight.find timer).isNone)
  return inflight ++ [(timer, .new)]

def unregister (timer : Timer) (inflight : Inflight) : Result Inflight := do
  ytVerify ((inflight.find timer).isSome)
  return inflight.filter fun entry => !decide (SameMessage entry.1 timer)

def setState (timer : Timer) (state : MessageState) (inflight : Inflight) : Inflight :=
  inflight.map fun entry => if SameMessage entry.1 timer then (entry.1, state) else entry

def markOffered (timer : Timer) (inflight : Inflight) : Result Inflight :=
  match inflight.find timer with
  | none => .error .verify
  | some (_, state) => .ok (if state = .new then inflight.setState timer .ready else inflight)

def markTaken (timer : Timer) (inflight : Inflight) : Result Inflight :=
  match inflight.find timer with
  | none => .error .verify
  | some (_, state) => do
    ytVerify (state ≠ .new)
    return inflight.setState timer .taken

end Inflight

/-! ### The store -/

/-- What `TTimerStoreContext` says about the streams. -/
structure TimerStoreContext where
  /-- `TimerSpecs`: whether a known stream deduplicates equal timestamps. -/
  deduplicateEqualTimestamps : StreamId → Option Bool
  /-- `TriggerConditions_`. -/
  triggerConditions : StreamId → TimerTriggerCondition StreamId
  /-- `TimerStreamGroups_`. -/
  timerStreamGroups : List (List StreamId)

structure TimerStore where
  draining : Bool
  inflight : Inflight
  /-- `TimerDeduplicationState_`. -/
  index : List Timer
  sortedTimers : List Timer
  triggeredTimers : List Timer
  deduplicated : List Timer
  modificationQueue : List (Timer × Bool)
  deriving DecidableEq, Repr

namespace TimerStore

/-- The store before `Init`. -/
def fresh (draining : Bool) : TimerStore := ⟨draining, [], [], [], [], [], []⟩

def tracked (store : TimerStore) : List Timer := store.inflight.map Prod.fst

def unregisterTimerKeyIndex (timer : Timer) (index : List Timer) : List Timer :=
  match index.find? fun t => decide (t.SameSlot timer) with
  | none => index
  | some t =>
    if t.messageId ≠ timer.messageId then index
    else index.filter fun t => !decide (t.SameSlot timer)

variable (context : TimerStoreContext)

/-- The body of the loop of `DoUnregister`. -/
def unregisterOne (store : TimerStore) (timer : Timer) : Result TimerStore :=
  if store.deduplicated.any fun t => t.messageId = timer.messageId then .ok store
  else if context.deduplicateEqualTimestamps timer.streamId = none then
    .error (.exception "Unknown timer stream %Qv during unregister")
  else do
    let inflight ← store.inflight.unregister timer
    return { store with
      inflight
      modificationQueue := store.modificationQueue ++ [(timer, false)]
      index := unregisterTimerKeyIndex timer store.index
      sortedTimers := eraseTimer timer store.sortedTimers
      triggeredTimers := eraseTimer timer store.triggeredTimers }

def doUnregister (timers : List Timer) (store : TimerStore) : Result TimerStore :=
  timers.foldlM (unregisterOne context) store

/-- The end of `RegisterTimerKeyIndex`: one of two equal timers is dropped. -/
def dropDuplicate (timer : Timer) (store : TimerStore) : Result TimerStore := do
  let store ← store.doUnregister context [timer]
  return { store with deduplicated := store.deduplicated ++ [timer] }

def registerTimerKeyIndex (timer : Timer) (store : TimerStore) : Result TimerStore :=
  match context.deduplicateEqualTimestamps timer.streamId with
  | none => .error .verify
  | some false => .ok store
  | some true =>
    match store.index.find? fun t => decide (t.SameSlot timer) with
    | none => .ok { store with index := store.index ++ [timer] }
    | some existing =>
      if timer.eventTimestamp < existing.eventTimestamp then
        dropDuplicate context existing
          { store with index := (store.index.filter fun t => !decide (t.SameSlot timer)) ++ [timer] }
      else dropDuplicate context timer store

/-- The timer enters the tracker, the set of its stream and the queue. -/
def insertOne (timer : Timer) (store : TimerStore) : Result TimerStore := do
  let inflight ← store.inflight.register timer
  return { store with
    inflight
    sortedTimers := insertTimer timer store.sortedTimers
    modificationQueue := store.modificationQueue ++ [(timer, true)] }

/-- The body of the loop of `RegisterImpl`. -/
def registerOne (store : TimerStore) (timer : Timer) : Result TimerStore :=
  if context.deduplicateEqualTimestamps timer.streamId = none then
    .error (.exception "Unknown timer stream %Qv during register")
  else do
    let store ← store.insertOne timer
    registerTimerKeyIndex context timer store

/-- `RegisterImpl`. -/
def register (timers : List Timer) (store : TimerStore) : Result TimerStore :=
  timers.foldlM (registerOne context) store

def registerLoaded (timers : List Timer) (store : TimerStore) :
    Result TimerStore := do
  let store ← store.register context timers
  return { store with modificationQueue := [] }

/-! ### Triggering -/

structure WatermarkState where
  currentTimestamp : ℕ
  watermark : StreamId → TimeType → ℕ

/-- The watermark up to which the timers of a stream are triggered. -/
def triggerWatermark (condition : TimerTriggerCondition StreamId) (state : WatermarkState) : ℕ :=
  if condition.timeType = .currentTime then state.currentTimestamp
  else condition.streamsWithDelays.foldl (fun watermark (streamId, delay) =>
    min watermark (max (state.watermark streamId condition.timeType) delay - delay))
      infinitySystemTimestamp

def isDue (state : WatermarkState) (timer : Timer) : Bool :=
  timer.triggerTimestamp ≤ triggerWatermark (context.triggerConditions timer.streamId) state

/-- A timer moves to the triggered ones. -/
def triggerOne (store : TimerStore) (timer : Timer) : Result TimerStore := do
  let inflight ← store.inflight.markOffered timer
  return { store with
    inflight
    triggeredTimers := insertTimer timer store.triggeredTimers
    sortedTimers := eraseTimer timer store.sortedTimers }

def triggerTimers (state : WatermarkState) (store : TimerStore) : Result TimerStore :=
  (store.sortedTimers.filter (isDue context state)).foldlM triggerOne store

/-! ### Batches -/

/-- The stream is in a group all of whose streams are allowed. -/
def isAllowed (allowedStreams : List StreamId) (timer : Timer) : Bool :=
  context.timerStreamGroups.any fun group =>
    decide (timer.streamId ∈ group) && group.all fun streamId => decide (streamId ∈ allowedStreams)

/-- `MergingExtractBatch`: timers in their order until the limiter is full, which is asked after a
timer is taken. -/
def extractBatch (maxRows maxByteSize : ℤ) : ℤ → ℤ → List Timer → List Timer
  | _, _, [] => []
  | rows, byteSize, timer :: timers =>
    if rows + 1 ≥ maxRows ∨ byteSize + timer.byteSize ≥ maxByteSize then [timer]
    else timer :: extractBatch maxRows maxByteSize (rows + 1) (byteSize + timer.byteSize) timers

/-- The callback of `GetNextBatch`, after the timer has left its set. -/
def takeOne (store : TimerStore) (timer : Timer) : Result TimerStore := do
  let inflight ← store.inflight.markTaken timer
  return { store with
    inflight
    triggeredTimers := eraseTimer timer store.triggeredTimers
    index := unregisterTimerKeyIndex timer store.index }

def getNextBatch (allowedStreams : List StreamId) (maxRows maxByteSize : ℤ)
    (store : TimerStore) : Result (TimerStore × List Timer) :=
  if store.draining then .ok (store, [])
  else do
    let batch := extractBatch maxRows maxByteSize 0 0
      (store.triggeredTimers.filter (isAllowed context allowedStreams))
    let store ← batch.foldlM takeOne store
    return (store, batch)

/-! ### Sync -/

/-- `finalState` of `DeduplicateModificationQueue`. -/
abbrev FinalState := List (MessageId × Bool)

/-- The body of the first loop of `DeduplicateModificationQueue`. -/
def recordModification (finalState : FinalState) (modification : Timer × Bool) :
    Result FinalState :=
  match finalState.lookup modification.1.messageId with
  | none => .ok ((modification.1.messageId, modification.2) :: finalState)
  | some state => do
    ytVerify (state = true)
    ytVerify (modification.2 = false)
    return finalState.filter fun entry => entry.1 ≠ modification.1.messageId

def deduplicateModificationQueue (queue : List (Timer × Bool)) : Result (List (Timer × Bool)) := do
  let finalState ← queue.foldlM recordModification []
  return queue.filter fun modification =>
    decide (finalState.lookup modification.1.messageId = some modification.2)

/-- The key of a row of the timers table of the computation. -/
def SameRow (a b : Timer) : Prop := a.key = b.key ∧ a.messageId = b.messageId

instance : DecidableRel SameRow := fun _ _ => inferInstanceAs (Decidable (_ ∧ _))

def eraseRow (table : List Timer) (timer : Timer) : List Timer :=
  table.filter fun t => !decide (SameRow t timer)

def writeRow (table : List Timer) (timer : Timer) : List Timer := eraseRow table timer ++ [timer]

/-- `Sync` and the commit of its transaction. -/
def sync (table : List Timer) (store : TimerStore) : Result (List Timer × TimerStore) := do
  let queue ← deduplicateModificationQueue store.modificationQueue
  let toPersist := (queue.filter fun modification => modification.2).map Prod.fst
  let toErase := (queue.filter fun modification => !modification.2).map Prod.fst
  return (toErase.foldl eraseRow (toPersist.foldl writeRow table),
    { store with deduplicated := [], modificationQueue := [] })

end TimerStore

end Ytsaurus.Flow.Timers
