/-
# Watermark histories and trigger reach instants

`TWatermarkHistory` of `flow/library/cpp/common/watermark_history.cpp` keeps an exponentially
thinned history of a published watermark. `FindReachInstant` estimates from it when a watermark was
reached, and `ResolveTriggerReach` of `trigger_condition.cpp` when a timer condition was.

An element stands for a stretch of samples: it has the instant and the watermark of the newest and
the instant of the oldest of them. Merging is only done when the span is small against the age, and
ages only grow, so every element stays accurate (`Accurate`).

Instants and watermarks are 64-bit words of seconds, modelled as naturals.
-/
import Ytsaurus.Flow.ExponentialHistory

namespace Ytsaurus.Flow

/-! ### Histories -/

def zeroSystemTimestamp : ℕ := 0

def infinitySystemTimestamp : ℕ := 2 ^ 64 - 1

structure WatermarkHistoryElement where
  time : ℕ
  watermark : ℕ
  firstSampleTime : ℕ
  deriving DecidableEq, Repr

/-- How `TWatermarkHistory` reads and merges elements. -/
def watermarkOps : HistoryOps WatermarkHistoryElement where
  getTime element := element.time
  merge older newer := { newer with firstSampleTime := older.firstSampleTime }

def sampleElement (sample : ℕ × ℕ) : WatermarkHistoryElement :=
  ⟨sample.1, sample.2, sample.1⟩

/-- `TWatermarkHistory::Append`; a history is its elements. -/
def appendWatermark (thinningFactor : ℕ) (elements : List WatermarkHistoryElement)
    (sample : ℕ × ℕ) : List WatermarkHistoryElement :=
  if elements.getLast?.any fun back => decide (sample.1 ≤ back.time ∨ sample.2 < back.watermark)
    then elements
  else appendToExponentialHistory watermarkOps thinningFactor elements (sampleElement sample)

/-- `TWatermarkHistory::FindReachInstant`; watermarks never regress along a history, so the
partition point is the first element that reaches the watermark. -/
def findReachInstant (elements : List WatermarkHistoryElement) (watermark : ℕ) : Option ℕ :=
  if elements.head?.all fun front => decide (watermark ≤ front.watermark) then none
  else
    match elements.find? fun element => decide (watermark ≤ element.watermark) with
    | none => some infinitySystemTimestamp
    | some element => some element.firstSampleTime

def watermarkHistory (thinningFactor : ℕ) (samples : List (ℕ × ℕ)) : List WatermarkHistoryElement :=
  samples.foldl (appendWatermark thinningFactor) []

/-! ### Trigger conditions -/

inductive TimeType
  | eventTime | systemTime | currentTime
  deriving DecidableEq, Repr

/-- `TTimerTriggerCondition`; delays are in seconds. -/
structure TimerTriggerCondition (ι : Type) where
  timeType : TimeType
  streamsWithDelays : List (ι × ℕ)

/-- `TPipelineWatermarkHistory`: the histories of streams. -/
structure PipelineWatermarkHistory (ι : Type) where
  event : ι → Option (List WatermarkHistoryElement)
  system : ι → Option (List WatermarkHistoryElement)

/-- `TPipelineWatermarkHistory::Get`; the current time has no histories. -/
def PipelineWatermarkHistory.get {ι : Type} (history : PipelineWatermarkHistory ι)
    (timeType : TimeType) : ι → Option (List WatermarkHistoryElement) :=
  if timeType = .eventTime then history.event else history.system

/-- The watermark that a stream has to reach, with saturation. -/
def reachKey (triggerTimestamp delay : ℕ) : ℕ :=
  if triggerTimestamp > 2 ^ 64 - 1 - delay then infinitySystemTimestamp
    else triggerTimestamp + delay

/-- What the loop of `ResolveTriggerReach` carries. -/
structure ResolveState where
  reachedMax : Option ℕ
  maxUnresolvedStartTime : Option ℕ
  unresolvable : Bool

/-- `std::max` with an optional that defaults to zero. -/
def maxWith (value : Option ℕ) (new : ℕ) : Option ℕ :=
  some (max (value.getD zeroSystemTimestamp) new)

/-- The end of `ResolveTriggerReach`. -/
def finishResolve (state : ResolveState) : Option ℕ :=
  match state.reachedMax with
  | none => none
  | some reachedMax =>
    if state.unresolvable ∨ state.maxUnresolvedStartTime.any fun start =>
      decide (reachedMax < start) then none
    else some reachedMax

/-- The loop of `ResolveTriggerReach`. -/
def resolveLoop {ι : Type} (triggerTimestamp : ℕ)
    (histories : ι → Option (List WatermarkHistoryElement)) : List (ι × ℕ) → ResolveState → Option ℕ
  | [], state => finishResolve state
  | (streamId, delay) :: streams, state =>
    match histories streamId with
    | none | some [] => resolveLoop triggerTimestamp histories streams
      { state with unresolvable := true }
    | some (front :: elements) =>
      match findReachInstant (front :: elements) (reachKey triggerTimestamp delay) with
      | none => resolveLoop triggerTimestamp histories streams
          { state with maxUnresolvedStartTime := maxWith state.maxUnresolvedStartTime front.time }
      | some reach =>
        if reach = infinitySystemTimestamp then some reach
        else resolveLoop triggerTimestamp histories streams
          { state with reachedMax := maxWith state.reachedMax reach }

def resolveTriggerReach {ι : Type} (condition : TimerTriggerCondition ι) (triggerTimestamp : ℕ)
    (history : PipelineWatermarkHistory ι) (now : ℕ) : Option ℕ :=
  if condition.timeType = .currentTime then
    some (if triggerTimestamp ≤ now then triggerTimestamp else infinitySystemTimestamp)
  else if condition.streamsWithDelays.isEmpty ∨ triggerTimestamp = zeroSystemTimestamp
    then some zeroSystemTimestamp
  else resolveLoop triggerTimestamp (history.get condition.timeType) condition.streamsWithDelays
    ⟨none, none, false⟩

end Ytsaurus.Flow
