/-
# The asynchronous semaphore

`TAsyncSemaphore` hands out slots; who does not get them at once waits in a queue. `Release` puts
slots back and, unless another `Release` does it already (`Releasing_`), serves the queue in rounds
until there is nothing to do: a round takes the waiters to release under the lock and sets their
promises outside, where callbacks may release again.

A round that finds nothing to do leaves a waiter in front that cannot be granted, and only `Release`
and `SetTotal` can change that (`SemaphoreInv`). `SetTotal` raises the free slots first and calls
`Release` afterwards, so in between a waiter that could be granted still waits. The slots are words
of 64 bits, and `Acquire` checks no bound, so the free slots can wrap around (both in
`asyncSemaphore_setTotal`).
-/
import Ytsaurus.Lib.SignedWord
import Ytsaurus.Lib.Result

namespace Ytsaurus.Concurrency

open List Lib

/-- The semaphore; a waiter is the number of its slots. -/
structure AsyncSemaphore where
  totalSlots : ℤ
  freeSlots : ℤ
  enableOverdraft : Bool
  releasing : Bool := false
  /-- `ReadyEvent_` is pending. -/
  readyEvent : Bool := false
  waiters : List ℤ := []
  deriving DecidableEq, Repr

namespace AsyncSemaphore

/-- The constructor. -/
def create (totalSlots : ℤ) (enableOverdraft : Bool) : Result AsyncSemaphore := do
  ytVerify (totalSlots ≥ 0)
  return { totalSlots, freeSlots := totalSlots, enableOverdraft }

def CanOverdraft (s : AsyncSemaphore) : Prop :=
  s.enableOverdraft = true ∧ s.totalSlots = s.freeSlots

instance (s : AsyncSemaphore) : Decidable s.CanOverdraft := inferInstanceAs (Decidable (_ ∧ _))

/-- The first locked section of `SetTotal`; `Release(0)` follows. -/
def setTotal (s : AsyncSemaphore) (totalSlots : ℤ) : Result AsyncSemaphore := do
  ytVerify (totalSlots ≥ 0)
  let delta := signedWord 64 (totalSlots - s.totalSlots)
  return { s with
    totalSlots := signedWord 64 (s.totalSlots + delta)
    freeSlots := signedWord 64 (s.freeSlots + delta) }

/-- The first locked section of `Release`. -/
def release (s : AsyncSemaphore) (slots : ℤ) : Result AsyncSemaphore := do
  ytVerify (slots ≥ 0)
  let s := { s with freeSlots := signedWord 64 (s.freeSlots + slots) }
  ytVerify (s.freeSlots ≤ s.totalSlots)
  if s.releasing then return s else return { s with releasing := true }

/-- The loop over the front waiters, with the slots of those to release. -/
def popWaiters (s : AsyncSemaphore) : List ℤ → Result (AsyncSemaphore × List ℤ)
  | [] => .ok ({ s with waiters := [] }, [])
  | slots :: waiters =>
    let canAcquire := s.freeSlots ≥ slots
    if canAcquire ∨ s.CanOverdraft ∧ slots > s.totalSlots then do
      ytVerify (canAcquire ∨ s.freeSlots = s.totalSlots)
      let (s, waitersToRelease) ← popWaiters
        { s with freeSlots := signedWord 64 (s.freeSlots - slots) } waiters
      return (s, slots :: waitersToRelease)
    else .ok ({ s with waiters := slots :: waiters }, [])

/-- The locked section of a round of `Release`, with the slots of the waiters to release. -/
def releaseRound (s : AsyncSemaphore) : Result (AsyncSemaphore × List ℤ) := do
  let (s, waitersToRelease) ← s.popWaiters s.waiters
  if s.readyEvent ∧ s.freeSlots > 0 then return ({ s with readyEvent := false }, waitersToRelease)
  else if waitersToRelease = [] then return ({ s with releasing := false }, [])
  else return (s, waitersToRelease)

def acquire (s : AsyncSemaphore) (slots : ℤ) : Result (AsyncSemaphore × Bool) := do
  ytVerify (slots ≥ 0)
  let s := { s with freeSlots := signedWord 64 (s.freeSlots - slots) }
  return (s, s.freeSlots ≥ 0)

def tryAcquire (s : AsyncSemaphore) (slots : ℤ) : Result (AsyncSemaphore × Bool) := do
  ytVerify (slots ≥ 0)
  if s.freeSlots ≥ slots ∨ s.CanOverdraft then
    return ({ s with freeSlots := signedWord 64 (s.freeSlots - slots) }, true)
  else return (s, false)

def asyncAcquire (s : AsyncSemaphore) (slots : ℤ) : Result (AsyncSemaphore × Bool) := do
  ytVerify (slots ≥ 0)
  if s.freeSlots ≥ slots ∨ s.CanOverdraft then
    return ({ s with freeSlots := signedWord 64 (s.freeSlots - slots) }, true)
  else return ({ s with waiters := s.waiters ++ [slots] }, false)

def getReadyEvent (s : AsyncSemaphore) : AsyncSemaphore × Bool :=
  if s.freeSlots > 0 then (s, true) else ({ s with readyEvent := true }, false)

end AsyncSemaphore

/-! ### Runs -/

/-- The semaphore with the slots that its clients hold and the number of `SetTotal` calls that are
between their two locked sections. -/
structure SemaphoreSystem where
  semaphore : AsyncSemaphore
  held : ℤ := 0
  settingTotal : ℕ := 0
  deriving DecidableEq, Repr

inductive SemaphoreStep
  | acquire (slots : ℤ)
  | tryAcquire (slots : ℤ)
  | asyncAcquire (slots : ℤ)
  | release (slots : ℤ)
  | releaseRound
  | setTotal (totalSlots : ℤ)
  | releaseAfterSetTotal
  | getReadyEvent

namespace SemaphoreSystem

/-- What the callers keep to: they release what they hold, and do not take the free slots below the
least number of 64 bits. The rounds are those of the `Release` that has set `Releasing_`. -/
def Admissible (s : SemaphoreSystem) : SemaphoreStep → Prop
  | .acquire slots => 0 ≤ slots ∧ -2 ^ 63 ≤ s.semaphore.freeSlots - slots
  | .tryAcquire slots | .asyncAcquire slots => 0 ≤ slots ∧ slots < 2 ^ 63
  | .release slots => 0 ≤ slots ∧ slots ≤ s.held
  | .releaseRound => s.semaphore.releasing = true
  | .setTotal totalSlots => 0 ≤ totalSlots ∧ totalSlots < 2 ^ 63 ∧
    -2 ^ 63 ≤ s.semaphore.freeSlots + (totalSlots - s.semaphore.totalSlots)
  | .releaseAfterSetTotal => 0 < s.settingTotal
  | .getReadyEvent => True

def apply (s : SemaphoreSystem) : SemaphoreStep → Result SemaphoreSystem
  | .acquire slots => do
    let (semaphore, _) ← s.semaphore.acquire slots
    return { s with semaphore, held := s.held + slots }
  | .tryAcquire slots => do
    let (semaphore, acquired) ← s.semaphore.tryAcquire slots
    return { s with semaphore, held := if acquired then s.held + slots else s.held }
  | .asyncAcquire slots => do
    let (semaphore, acquired) ← s.semaphore.asyncAcquire slots
    return { s with semaphore, held := if acquired then s.held + slots else s.held }
  | .release slots => do
    let semaphore ← s.semaphore.release slots
    return { s with semaphore, held := s.held - slots }
  | .releaseRound => do
    let (semaphore, waitersToRelease) ← s.semaphore.releaseRound
    return { s with semaphore, held := s.held + waitersToRelease.sum }
  | .setTotal totalSlots => do
    let semaphore ← s.semaphore.setTotal totalSlots
    return { s with semaphore, settingTotal := s.settingTotal + 1 }
  | .releaseAfterSetTotal => do
    let semaphore ← s.semaphore.release 0
    return { s with semaphore, settingTotal := s.settingTotal - 1 }
  | .getReadyEvent => return { s with semaphore := s.semaphore.getReadyEvent.1 }

end SemaphoreSystem

/-- The states that the locked sections of any calls lead to, in any order. -/
inductive SemaphoreRun : SemaphoreSystem → Prop
  | start {totalSlots : ℤ} {enableOverdraft : Bool} {semaphore : AsyncSemaphore} :
    totalSlots < 2 ^ 63 →
      AsyncSemaphore.create totalSlots enableOverdraft = .ok semaphore → SemaphoreRun { semaphore }
  | step {s s' : SemaphoreSystem} {step : SemaphoreStep} : SemaphoreRun s → s.Admissible step →
      s.apply step = .ok s' → SemaphoreRun s'

/-- The front waiter cannot be granted, and a pending ready event waits for a free slot. -/
structure Quiet (s : AsyncSemaphore) : Prop where
  waiters : ∀ slots, s.waiters.head? = some slots → s.freeSlots < slots ∧ ¬s.CanOverdraft
  readyEvent : s.readyEvent = true → s.freeSlots ≤ 0

structure SemaphoreInv (s : SemaphoreSystem) : Prop where
  held_nonneg : 0 ≤ s.held
  total_range : 0 ≤ s.semaphore.totalSlots ∧ s.semaphore.totalSlots < 2 ^ 63
  free_eq : s.semaphore.freeSlots = s.semaphore.totalSlots - s.held
  free_ge : -2 ^ 63 ≤ s.semaphore.freeSlots
  waiters_range : ∀ slots ∈ s.semaphore.waiters, 0 ≤ slots ∧ slots < 2 ^ 63
  quiet : s.semaphore.releasing = false → s.settingTotal = 0 → Quiet s.semaphore

/-! ### The invariant -/

/-- The front waiters are taken while they can be granted. -/
theorem popWaiters_spec : ∀ (waiters : List ℤ) (s : AsyncSemaphore), s.freeSlots ≤ s.totalSlots →
    0 ≤ s.totalSlots ∧ s.totalSlots < 2 ^ 63 → -2 ^ 63 ≤ s.freeSlots →
    (∀ slots ∈ waiters, 0 ≤ slots ∧ slots < 2 ^ 63) → ∃ waitersToRelease rest, s.popWaiters
        waiters = .ok ({ s with freeSlots := s.freeSlots - waitersToRelease.sum, waiters := rest },
        waitersToRelease) ∧ 0 ≤ waitersToRelease.sum ∧ -2 ^ 63 ≤ s.freeSlots - waitersToRelease.sum ∧
      (∀ slots ∈ rest, 0 ≤ slots ∧ slots < 2 ^ 63) ∧
      ∀ slots, rest.head? = some slots → s.freeSlots - waitersToRelease.sum < slots ∧
        ¬(s.enableOverdraft = true ∧ s.totalSlots = s.freeSlots - waitersToRelease.sum)
  | [], s, _, _, hge, _ => ⟨[], [], by simp [AsyncSemaphore.popWaiters], by simpa using hge⟩
  | slots :: waiters, s, hle, ht, hge, hw => by
    obtain ⟨hs, hw'⟩ := forall_mem_cons.mp hw
    rw [AsyncSemaphore.popWaiters]
    by_cases hg : s.freeSlots ≥ slots ∨ s.CanOverdraft ∧ slots > s.totalSlots
    · have hv : s.freeSlots ≥ slots ∨ s.freeSlots = s.totalSlots := hg.imp_right fun h => h.1.2.symm
      obtain ⟨waitersToRelease, rest, hrun, hn, hge', hrest, hf⟩ :=
        popWaiters_spec waiters { s with freeSlots := s.freeSlots - slots }
          (by dsimp only; omega) ht (by dsimp only; omega) hw'
      refine ⟨slots :: waitersToRelease, rest, ?_, ?_, ?_, hrest, ?_⟩
      · rw [if_pos hg, ytVerify_true hv, ok_bind, signedWord_eq_self (by omega) (by omega), hrun]
        simp [sub_sub]
      · rw [sum_cons]
        omega
      · rwa [sum_cons, ← sub_sub]
      · simpa only [sum_cons, sub_sub] using hf
    · refine ⟨[], slots :: waiters, by rw [if_neg hg]; simp, le_rfl, by simpa using hge, hw, ?_⟩
      rintro _ ⟨⟩
      simp only [AsyncSemaphore.CanOverdraft, sum_nil, sub_zero] at hg ⊢
      push Not at hg
      exact ⟨hg.1, fun h => absurd (hg.2 h) (by omega)⟩

namespace SemaphoreInv

variable {s : SemaphoreSystem}

variable (h : SemaphoreInv s)

include h

theorem take {slots : ℤ} (hslots : 0 ≤ slots) (hge : -2 ^ 63 ≤ s.semaphore.freeSlots - slots) :
    SemaphoreInv { s with
      semaphore := { s.semaphore with freeSlots := signedWord 64 (s.semaphore.freeSlots - slots) }
      held := s.held + slots } := by
  have hh := h.held_nonneg
  have hf := h.free_eq
  have ht := h.total_range
  rw [signedWord_eq_self (by omega) (by omega)]
  refine ⟨by dsimp only; omega, ht, by dsimp only; omega, hge, h.waiters_range,
    fun hr hs => ⟨fun k hk => ?_, fun he => ?_⟩⟩
  · obtain ⟨hlt, ho⟩ := (h.quiet hr hs).waiters k hk
    refine ⟨by dsimp only; omega, fun hc => ho ⟨hc.1, ?_⟩⟩
    have := hc.2
    dsimp only at this
    omega
  · have := (h.quiet hr hs).readyEvent he
    dsimp only
    omega

/-- Enough free slots, or an overdraft of all of them, leave a number of 64 bits. -/
theorem sub_ge {slots : ℤ} (hlt : slots < 2 ^ 63)
    (hg : s.semaphore.freeSlots ≥ slots ∨ s.semaphore.CanOverdraft) :
      -2 ^ 63 ≤ s.semaphore.freeSlots - slots := by
  have ht := h.total_range
  rcases hg with hg | ⟨-, hg⟩ <;> omega

theorem release {slots : ℤ} (hs : 0 ≤ slots) (hh : slots ≤ s.held) (settingTotal : ℕ) :
    ∃ semaphore, s.semaphore.release slots = .ok semaphore ∧
      SemaphoreInv ⟨semaphore, s.held - slots, settingTotal⟩ := by
  have hf := h.free_eq
  have hge := h.free_ge
  have ht := h.total_range
  refine ⟨{ s.semaphore with freeSlots := s.semaphore.freeSlots + slots, releasing := true }, ?_,
    by dsimp only; omega, ht, by dsimp only; omega, by
      dsimp only; omega, h.waiters_range, fun hr => absurd hr (by simp)⟩
  have hle : s.semaphore.freeSlots + slots ≤ s.semaphore.totalSlots := by omega
  rw [AsyncSemaphore.release, signedWord_eq_self (by omega) (by omega)]
  cases hr : s.semaphore.releasing <;> simp [hs, hle]

/-- A round that finds nothing to do ends the `Release`. -/
theorem releaseRound (hreleasing : s.semaphore.releasing = true) :
    ∃ s', s.apply .releaseRound = .ok s' ∧ SemaphoreInv s' := by
  have hh := h.held_nonneg
  have hfree := h.free_eq
  have ht := h.total_range
  obtain ⟨granted, rest, hrun, hn, hge, hrest, hfront⟩ :=
    popWaiters_spec s.semaphore.waiters s.semaphore (by omega) ht h.free_ge h.waiters_range
  rw [SemaphoreSystem.apply, AsyncSemaphore.releaseRound, hrun, ok_bind]
  dsimp only
  split_ifs with hready hg
  · exact ⟨_, rfl, by dsimp only; omega, ht, by dsimp only; omega, hge, hrest,
      fun hr => absurd (hreleasing.symm.trans hr) (by simp)⟩
  · refine ⟨_, rfl, by simpa using hh, ht, by simpa [hg] using hfree, hge, hrest,
      fun _ _ => ⟨hfront, fun he => ?_⟩⟩
    exact not_lt.mp fun hp => hready ⟨he, hp⟩
  · exact ⟨_, rfl, by dsimp only; omega, ht, by dsimp only; omega, hge, hrest,
      fun hr => absurd (hreleasing.symm.trans hr) (by simp)⟩

/-- Every locked section passes its checks and keeps the invariant. -/
theorem apply {step : SemaphoreStep} (ha : s.Admissible step) :
    ∃ s', s.apply step = .ok s' ∧ SemaphoreInv s' := by
  cases step with
  | acquire slots =>
    obtain ⟨hs, hge⟩ : slots ≥ 0 ∧ _ := ha
    exact ⟨_, by rw [SemaphoreSystem.apply, AsyncSemaphore.acquire, ytVerify_true hs]; rfl,
      h.take hs hge⟩
  | tryAcquire slots =>
    obtain ⟨hs, hlt⟩ : slots ≥ 0 ∧ _ := ha
    rw [SemaphoreSystem.apply, AsyncSemaphore.tryAcquire, ytVerify_true hs, ok_bind]
    split_ifs with hg
    · exact ⟨_, rfl, h.take hs (h.sub_ge hlt hg)⟩
    · exact ⟨s, rfl, h⟩
  | asyncAcquire slots =>
    obtain ⟨hs, hlt⟩ : slots ≥ 0 ∧ _ := ha
    rw [SemaphoreSystem.apply, AsyncSemaphore.asyncAcquire, ytVerify_true hs, ok_bind]
    split_ifs with hg
    · exact ⟨_, rfl, h.take hs (h.sub_ge hlt hg)⟩
    · push Not at hg
      have hw : ∀ k ∈ s.semaphore.waiters ++ [slots], 0 ≤ k ∧ k < 2 ^ 63 :=
        forall_mem_append.mpr ⟨h.waiters_range, forall_mem_singleton.mpr ⟨hs, hlt⟩⟩
      refine ⟨_, rfl, h.held_nonneg, h.total_range, h.free_eq, h.free_ge, hw,
        fun hr hs => ⟨fun k hk => ?_, (h.quiet hr hs).readyEvent⟩⟩
      cases hw : s.semaphore.waiters with
      | nil =>
        obtain rfl : slots = k := by simpa [hw] using hk
        exact hg
      | cons front waiters => exact (h.quiet hr hs).waiters k (by simpa [hw] using hk)
  | release slots =>
    obtain ⟨semaphore, hrun, hi⟩ := h.release ha.1 ha.2 s.settingTotal
    exact ⟨_, by rw [SemaphoreSystem.apply, hrun]; rfl, hi⟩
  | releaseRound => exact h.releaseRound ha
  | setTotal totalSlots =>
    obtain ⟨ht, hlt, hge⟩ : totalSlots ≥ 0 ∧ _ := ha
    have hf := h.free_eq
    have hh := h.held_nonneg
    have hr := h.total_range
    rw [SemaphoreSystem.apply, AsyncSemaphore.setTotal, ytVerify_true ht, ok_bind,
      signedWord_eq_self (by omega) (by omega)]
    dsimp only
    rw [signedWord_eq_self (by omega) (by omega), signedWord_eq_self (by omega) (by omega)]
    exact ⟨_, rfl, hh, by dsimp only; omega, by dsimp only; omega, hge, h.waiters_range, fun _ hs =>
      by cases hs⟩
  | releaseAfterSetTotal =>
    obtain ⟨semaphore, hrun, hi⟩ := h.release le_rfl h.held_nonneg (s.settingTotal - 1)
    exact ⟨_, by rw [SemaphoreSystem.apply, hrun]; rfl, by simpa using hi⟩
  | getReadyEvent =>
    refine ⟨_, rfl, ?_⟩
    rw [AsyncSemaphore.getReadyEvent]
    split_ifs with hf
    · exact h
    · exact ⟨h.held_nonneg, h.total_range, h.free_eq, h.free_ge, h.waiters_range,
        fun hr hs => ⟨(h.quiet hr hs).waiters, fun _ => not_lt.mp hf⟩⟩

end SemaphoreInv

theorem SemaphoreRun.inv {s : SemaphoreSystem} (h : SemaphoreRun s) : SemaphoreInv s := by
  induction h with
  | @start totalSlots enableOverdraft semaphore hlt h =>
    obtain ⟨_, hverify, h⟩ := bind_eq_ok.mp h
    have hnonneg := ytVerify_eq_ok.mp hverify
    obtain rfl := Except.ok.inj h
    exact ⟨le_rfl, ⟨hnonneg, hlt⟩, (sub_zero _).symm, by dsimp only; omega, by simp, fun _ _ =>
      ⟨by simp, by simp⟩⟩
  | step _ ha happly ih =>
    obtain ⟨s', happly', hi⟩ := ih.apply ha
    exact Except.ok.inj (happly'.symm.trans happly) ▸ hi

/-- In every run the free slots do not exceed the total ones, no check fails, and outside `Release`
and `SetTotal` nobody waits for what is there. -/
theorem asyncSemaphore_quiet {s : SemaphoreSystem} (h : SemaphoreRun s) :
    s.semaphore.freeSlots ≤ s.semaphore.totalSlots ∧
    (∀ step, s.Admissible step → ∃ s', s.apply step = .ok s') ∧
    (s.semaphore.releasing = false → s.settingTotal = 0 → Quiet s.semaphore) := by
  have hinv := h.inv
  have hheld := hinv.held_nonneg
  exact ⟨by rw [hinv.free_eq]; omega, fun step ha => (hinv.apply ha).imp fun _ h => h.1, hinv.quiet⟩

/-- A semaphore without slots with a waiter for one. -/
def waitingSystem : SemaphoreSystem := { semaphore := ⟨0, 0, false, false, false, [1]⟩ }

theorem waitingSystem_run : SemaphoreRun waitingSystem :=
  .step (.start (by decide) (rfl : AsyncSemaphore.create 0 false = .ok _))
    (show SemaphoreSystem.Admissible _ (.asyncAcquire 1) from ⟨by decide, by decide⟩) rfl

theorem asyncSemaphore_quiet_waiting : SemaphoreRun waitingSystem ∧
    waitingSystem.semaphore.freeSlots < 1 :=
  ⟨waitingSystem_run, ((asyncSemaphore_quiet waitingSystem_run).2.2 rfl rfl).waiters 1 rfl |>.1⟩

/-- Between the two sections of `SetTotal` the front waiter could be granted and is not, and two
calls of `Acquire` wrap the free slots of a semaphore of one slot around. -/
theorem asyncSemaphore_setTotal :
    (∃ s, SemaphoreRun s ∧ s.semaphore.releasing = false ∧ s.semaphore.waiters.head? = some 1 ∧
      s.semaphore.freeSlots = 1) ∧
    (do
      let s ← AsyncSemaphore.create 1 false
      let (s, _) ← s.acquire (2 ^ 63 - 1)
      let (s, _) ← s.acquire (2 ^ 63 - 1)
      return (s.totalSlots, s.freeSlots) : Result (ℤ × ℤ)) = .ok (1, 3) := by
  have htotal : waitingSystem.Admissible (.setTotal 1) := ⟨by decide, by decide, by decide⟩
  exact ⟨⟨_, .step waitingSystem_run htotal rfl, rfl, rfl, rfl⟩, by decide⟩

end Ytsaurus.Concurrency
