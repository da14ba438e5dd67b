/-
# The combined throttler

`TCombinedThroughputThrottler` asks all its throttlers. `Throttle` combines their futures by
`AllSucceeded` and applies a continuation that takes the amount off `SelfQueueSize_`, a word of 64
bits. The continuation takes the error and returns nothing, so the future that `Throttle` returns
never carries one (`combinedThrottler_iff`).
-/
import Ytsaurus.Lib.SignedWord

namespace Ytsaurus.Concurrency

open List Lib

inductive FutureState where
  | pending
  | succeeded
  | failed
  deriving DecidableEq, Repr

/-- The first error, or success once all futures are set. -/
def allSucceeded (futures : List FutureState) : FutureState :=
  if .failed ∈ futures then .failed
  else if .pending ∈ futures then .pending
  else .succeeded

/-- The future of `Apply` with a continuation that takes the error and returns `void`: its promise
is set without an error when the continuation has run. -/
def applyVoid : FutureState → FutureState
  | .pending => .pending
  | .succeeded | .failed => .succeeded

/-- A call of `Throttle`, with the futures of the underlying calls. -/
structure ThrottleCall where
  amount : ℕ
  futures : List FutureState
  deriving DecidableEq, Repr

def ThrottleCall.result (call : ThrottleCall) : FutureState := applyVoid (allSucceeded call.futures)

/-- A future is set once. -/
def ThrottleCall.complete (call : ThrottleCall) (throttler : ℕ) (outcome : FutureState) :
    ThrottleCall :=
  if call.futures[throttler]? = some .pending
    then { call with futures := call.futures.set throttler outcome } else call

theorem allSucceeded_eq_pending {futures : List FutureState} :
    allSucceeded futures = .pending ↔ .failed ∉ futures ∧ .pending ∈ futures := by
  unfold allSucceeded
  split_ifs <;> simp_all

theorem ThrottleCall.result_eq_pending {call : ThrottleCall} :
    call.result = .pending ↔ .failed ∉ call.futures ∧ .pending ∈ call.futures := by
  rw [← allSucceeded_eq_pending, ThrottleCall.result]
  cases allSucceeded call.futures <;> simp [applyVoid]

theorem ThrottleCall.result_complete {call : ThrottleCall} (h : call.result ≠ .pending)
    (throttler : ℕ)
    (outcome : FutureState) : (call.complete throttler outcome).result ≠ .pending := by
  unfold ThrottleCall.complete
  split_ifs with hpending
  · rw [Ne, result_eq_pending] at h ⊢
    have hfailed : .failed ∈ call.futures := by_contra fun hf => h ⟨hf, mem_of_getElem? hpending⟩
    obtain ⟨i, hi⟩ := mem_iff_getElem?.mp hfailed
    have hne : throttler ≠ i := by
      rintro rfl
      simp [hpending] at hi
    exact fun h' => h'.1 (mem_iff_getElem?.mpr ⟨i, by rwa [getElem?_set_ne hne]⟩)
  · exact h

theorem ThrottleCall.amount_complete (call : ThrottleCall) (throttler : ℕ) (outcome : FutureState) :
    (call.complete throttler outcome).amount = call.amount := by
  unfold ThrottleCall.complete
  split_ifs <;> rfl

structure CombinedThrottler where
  selfQueueSize : ℤ
  calls : List ThrottleCall
  /-- What `TryAcquire` has acquired and not released, for each throttler. -/
  acquired : List ℤ

inductive ThrottlerEvent where
  /-- `Throttle`; some of the underlying futures may be set at once. -/
  | throttle (amount : ℕ) (future : ℕ → FutureState)
  /-- A throttler completes its part of a call. -/
  | complete (call throttler : ℕ) (outcome : FutureState)
  /-- `TryAcquire`, with the answers of the throttlers. -/
  | tryAcquire (amount : ℤ) (answer : ℕ → Bool)

namespace CombinedThrottler

def new (throttlerCount : ℕ) : CombinedThrottler := ⟨0, [], replicate throttlerCount 0⟩

/-- `SelfQueueSize_` after the continuation of the call, if it has run. -/
def continued (call : ThrottleCall) (selfQueueSize : ℤ) : ℤ :=
  if call.result = .pending then selfQueueSize else signedWord 64 (selfQueueSize - call.amount)

def throttle (s : CombinedThrottler) (amount : ℕ) (future : ℕ → FutureState) : CombinedThrottler :=
  let call : ThrottleCall := ⟨amount, (range s.acquired.length).map future⟩
  { s with
    selfQueueSize := continued call (signedWord 64 (s.selfQueueSize + amount))
    calls := s.calls ++ [call] }

def complete (s : CombinedThrottler) (i throttler : ℕ) (outcome : FutureState) :
    CombinedThrottler :=
  match s.calls[i]? with
  | none => s
  | some call =>
    let next := call.complete throttler outcome
    let selfQueueSize := if call.result = .pending then continued next s.selfQueueSize
      else s.selfQueueSize
    { s with selfQueueSize, calls := s.calls.set i next }

def tryAcquire (s : CombinedThrottler) (amount : ℤ) (answer : ℕ → Bool) :
    CombinedThrottler × Bool :=
  let i := ((range s.acquired.length).takeWhile answer).length
  let acquired := s.acquired.mapIdx fun j a => if j < i then a + amount else a
  if i ≠ s.acquired.length then
    ({ s with acquired := acquired.mapIdx fun j a => if j < i then a - amount else a }, false)
  else ({ s with acquired }, true)

def step (s : CombinedThrottler) : ThrottlerEvent → CombinedThrottler
  | .throttle amount future => s.throttle amount future
  | .complete call throttler outcome => s.complete call throttler outcome
  | .tryAcquire amount answer => (s.tryAcquire amount answer).1

/-- The amounts of the calls whose result is pending. -/
def pendingAmount (s : CombinedThrottler) : ℤ :=
  (s.calls.map fun call => if call.result = .pending then (call.amount : ℤ) else 0).sum

variable {s : CombinedThrottler}

theorem pendingAmount_nonneg (s : CombinedThrottler) : 0 ≤ s.pendingAmount := by
  refine sum_nonneg fun amount hm => ?_
  obtain ⟨call, -, rfl⟩ := mem_map.mp hm
  split_ifs
  · exact Nat.cast_nonneg _
  · exact le_rfl

/-- The queue size is the pending amount up to a multiple of `2 ^ 64`. -/
theorem step_selfQueueSize (h : s.selfQueueSize = signedWord 64 s.pendingAmount) :
    ∀ event, (s.step event).selfQueueSize = signedWord 64 (s.step event).pendingAmount
  | .throttle amount future => by
    simp only [step, throttle, continued, pendingAmount, map_append, sum_append, map_singleton,
      sum_singleton, h]
    split_ifs <;> simp
  | .complete i throttler outcome => by
    rw [step, complete]
    cases hi : s.calls[i]? with
    | none => exact h
    | some call =>
      obtain ⟨hlt, rfl⟩ := List.getElem?_eq_some_iff.mp hi
      have hset := s.calls[i].result_complete
      simp only [pendingAmount, map_set, sum_set', length_map, hlt, dif_pos, getElem_map, continued, h]
      by_cases hp : s.calls[i].result = .pending
      · simp only [hp, if_true]
        split_ifs <;> simp [ThrottleCall.amount_complete, sub_eq_add_neg]
      · simp [hp, hset hp]
  | .tryAcquire amount answer => by
    unfold step tryAcquire
    dsimp only
    split_ifs <;> exact h

theorem run_selfQueueSize : ∀ (events : List ThrottlerEvent) {s : CombinedThrottler},
    s.selfQueueSize = signedWord 64 s.pendingAmount →
    (events.foldl step s).selfQueueSize = signedWord 64 (events.foldl step s).pendingAmount
  | [], _, h => h
  | event :: events, _, h => run_selfQueueSize events (step_selfQueueSize h event)

/-- What `TryAcquire` took before a refusal is released. -/
theorem tryAcquire_refused (amount : ℤ) (answer : ℕ → Bool)
    (h : (s.tryAcquire amount answer).2 = false) :
    (s.tryAcquire amount answer).1.acquired = s.acquired := by
  unfold tryAcquire at h ⊢
  dsimp only at h ⊢
  split_ifs at h ⊢
  refine ext_getElem? fun j => ?_
  simp only [getElem?_mapIdx, Option.map_map]
  cases s.acquired[j]? with
  | none => rfl
  | some a =>
    simp only [Option.map_some, Function.comp_apply]
    split_ifs <;> simp

/-- What `Throttle` shall do: the returned future succeeds only if every underlying call did, and it
fails as soon as one has. -/
def Passes (call : ThrottleCall) : Prop :=
  (call.result = .succeeded → ∀ future ∈ call.futures, future = .succeeded) ∧
    (.failed ∈ call.futures → call.result = .failed)

theorem passes_iff (call : ThrottleCall) : Passes call ↔ .failed ∉ call.futures := by
  have hresult : call.result ≠ .failed := by
    unfold ThrottleCall.result
    cases allSucceeded call.futures <;> simp [applyVoid]
  refine ⟨fun h hf => hresult (h.2 hf), fun h => ⟨fun hs future hm => ?_, fun hf => absurd hf h⟩⟩
  have hset : .pending ∉ call.futures := fun hp => by
    rw [ThrottleCall.result_eq_pending.mpr ⟨h, hp⟩] at hs
    cases hs
  cases future with
  | pending => exact absurd hm hset
  | succeeded => rfl
  | failed => exact absurd hm h

/-- **A combined throttler swallows errors**: after any events refused `TryAcquire` calls are right,
the results of `Throttle` are iff no underlying call has failed, and the queue size is iff the
pending amount fits it. -/
theorem combinedThrottler_iff (throttlerCount : ℕ) (events : List ThrottlerEvent) :
    let s := events.foldl step (new throttlerCount)
    ((∀ call ∈ s.calls, Passes call) ∧ s.selfQueueSize = s.pendingAmount ∧
      ∀ amount answer, (s.tryAcquire amount answer).2 = false →
        (s.tryAcquire amount answer).1.acquired = s.acquired) ↔
    (∀ call ∈ s.calls, .failed ∉ call.futures) ∧ s.pendingAmount < 2 ^ 63 := by
  intro s
  have hsize : s.selfQueueSize = s.pendingAmount ↔ s.pendingAmount < 2 ^ 63 := by
    have hword : s.selfQueueSize = signedWord 64 s.pendingAmount := run_selfQueueSize events rfl
    have := s.pendingAmount_nonneg
    rw [hword, signedWord_eq_self_iff]
    omega
  rw [hsize, and_iff_left tryAcquire_refused]
  exact and_congr_left fun _ => forall₂_congr fun call _ => passes_iff call

/-- One throttler fails, and the returned future succeeds. -/
theorem throttle_swallows_error :
    ∃ call, ([.throttle 1 fun _ => .pending, .complete 0 0 .failed].foldl step (new 1)).calls =
    [call] ∧ call.futures = [.failed] ∧ call.result = .succeeded ∧ ¬Passes call :=
  ⟨⟨1, [.failed]⟩, rfl, rfl, rfl, by simp [passes_iff]⟩

end CombinedThrottler

end Ytsaurus.Concurrency
