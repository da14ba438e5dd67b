/-
# The asynchronous barrier

`TAsyncBarrier` gives the items of a set consecutive cookies and keeps a flag for each cookie from
`FirstSlotCookie_` on. A subscription waits for the cookies before its `BarrierCookie`: it is set
once `FirstSlotCookie_` has come that far. The flag at `FirstSlotCookie_` is always up
(`BarrierInv`), so this is exactly when the items it waits for are gone.
-/
import Ytsaurus.Lib.Search
import Ytsaurus.Lib.Result

namespace Ytsaurus.Concurrency

open List

/-- The barrier. A subscription is its `BarrierCookie`. Promises are numbered in the order of their
subscriptions, which is also the order in which they are set; `promisesSet` of them are. -/
structure AsyncBarrier where
  firstSlotCookie : ℕ := 1
  slotOccupied : List Bool := []
  subscriptions : List ℕ := []
  promisesSet : ℕ := 0
  deriving DecidableEq, Repr

namespace AsyncBarrier

def endCookie (b : AsyncBarrier) : ℕ := b.firstSlotCookie + b.slotOccupied.length

/-- The barrier and the cookie of the new item. -/
def insert (b : AsyncBarrier) : AsyncBarrier × ℕ :=
  let slots := b.slotOccupied ++ [true]
  ({ b with slotOccupied := slots }, b.firstSlotCookie + slots.length - 1)

/-- The loop that pops the free slots at the front. -/
def popFree : ℕ → List Bool → ℕ × List Bool
  | first, false :: slots => popFree (first + 1) slots
  | first, slots => (first, slots)

def remove (b : AsyncBarrier) (cookie : ℕ) : Result AsyncBarrier := do
  ytVerify (b.firstSlotCookie ≤ cookie)
  match b.slotOccupied[cookie - b.firstSlotCookie]? with
  | none => .error .undefined
  | some occupied =>
    ytVerify (occupied = true)
    let (first, slots) := popFree b.firstSlotCookie
      (b.slotOccupied.set (cookie - b.firstSlotCookie) false)
    .ok ⟨first, slots, b.subscriptions.dropWhile (· ≤ first),
      b.promisesSet + (b.subscriptions.takeWhile (· ≤ first)).length⟩

/-- The barrier and the future: `OKFuture` (none) or that of a promise. -/
def getBarrierFuture (b : AsyncBarrier) : AsyncBarrier × Option ℕ :=
  if b.slotOccupied = [] then (b, none)
  else if b.subscriptions.getLast? = some b.endCookie
    then (b, some (b.promisesSet + (b.subscriptions.length - 1)))
  else ({ b with subscriptions := b.subscriptions ++ [b.endCookie] },
    some (b.promisesSet + b.subscriptions.length))

def IsSet (b : AsyncBarrier) (future : Option ℕ) : Prop :=
  ∀ promise ∈ future, promise < b.promisesSet

end AsyncBarrier

/-- The states that calls lead to: the barrier, the items inserted and not removed, and for each
call of `GetBarrierFuture` its future and the items at the call. Each item is removed once. -/
inductive BarrierRun : AsyncBarrier → List ℕ → List (Option ℕ × List ℕ) → Prop
  | start : BarrierRun {} [] []
  | insert {b items calls} : BarrierRun b items calls →
    BarrierRun b.insert.1 (b.insert.2 :: items) calls
  | remove {b b' items calls cookie} : BarrierRun b items calls → cookie ∈ items →
    b.remove cookie = .ok b' → BarrierRun b' (items.filter (· ≠ cookie)) calls
  | getBarrierFuture {b items calls} : BarrierRun b items calls →
      BarrierRun b.getBarrierFuture.1 items ((b.getBarrierFuture.2, items) :: calls)

/-! ### The invariant -/

def Occupied (first : ℕ) (slots : List Bool) (cookie : ℕ) : Prop :=
  first ≤ cookie ∧ slots[cookie - first]? = some true

/-- A call waits for the items before `cookie`. -/
structure CallOk (b : AsyncBarrier) (items : List ℕ) (call : Option ℕ × List ℕ)
    (cookie : ℕ) : Prop where
  le : cookie ≤ b.endCookie
  items_lt : ∀ item ∈ call.2, item < cookie
  items : ∀ item ∈ items, item < cookie → item ∈ call.2
  state : (cookie ≤ b.firstSlotCookie ∧ b.IsSet call.1) ∨
    ∃ i, call.1 = some (b.promisesSet + i) ∧ b.subscriptions[i]? = some cookie

structure BarrierInv (b : AsyncBarrier) (items : List ℕ)
    (calls : List (Option ℕ × List ℕ)) : Prop where
  slots : ∀ item, item ∈ items ↔ Occupied b.firstSlotCookie b.slotOccupied item
  front : b.slotOccupied.head? ≠ some false
  sorted : b.subscriptions.Pairwise (· ≤ ·)
  waits : ∀ cookie ∈ b.subscriptions, b.firstSlotCookie < cookie ∧ cookie ≤ b.endCookie
  calls : ∀ call ∈ calls, ∃ cookie, CallOk b items call cookie

section Slots

variable {first cookie item : ℕ} {slots : List Bool}

theorem occupied_append : Occupied first (slots ++ [true]) item ↔ Occupied first slots item ∨
      item = first + slots.length := by
  grind [Occupied]

theorem occupied_set (hc : Occupied first slots cookie) :
    Occupied first (slots.set (cookie - first) false) item ↔ Occupied first slots item ∧
      item ≠ cookie := by
  grind [Occupied]

theorem occupied_cons_false : Occupied first (false :: slots) item ↔
    Occupied (first + 1) slots item := by
  grind [Occupied]

theorem Occupied.lt (h : Occupied first slots item) : item < first + slots.length := by
  grind [Occupied]

end Slots

theorem popFree_spec : ∀ (slots : List Bool) (first : ℕ) {first' : ℕ} {slots' : List Bool},
    AsyncBarrier.popFree first slots = (first', slots') → first ≤ first' ∧
      first' + slots'.length = first + slots.length ∧ slots'.head? ≠ some false ∧
      ∀ item, Occupied first' slots' item ↔ Occupied first slots item
  | [], _, _, _, h | true :: _, _, _, _, h => by cases h; simp
  | false :: slots, first, _, _, h => by
    obtain ⟨hle, hlen, hf, ho⟩ := popFree_spec slots (first + 1) h
    exact ⟨by omega, by rw [hlen, length_cons]; omega, hf, fun item =>
      (ho item).trans occupied_cons_false.symm⟩

namespace BarrierInv

variable {b : AsyncBarrier} {items : List ℕ} {calls : List (Option ℕ × List ℕ)} {cookie : ℕ}

variable (h : BarrierInv b items calls)

include h

theorem insert : BarrierInv b.insert.1 (b.insert.2 :: items) calls := by
  have hcookie : b.insert.2 = b.endCookie := by simp [AsyncBarrier.insert, AsyncBarrier.endCookie]
  have he : b.endCookie ≤ b.insert.1.endCookie := by
    simp [AsyncBarrier.insert, AsyncBarrier.endCookie]
  refine ⟨fun item => ?_, ?_, h.sorted, fun k hk => ?_, fun call hcall => ?_⟩
  · rw [mem_cons, hcookie, h.slots]
    exact or_comm.trans occupied_append.symm
  · have hf := h.front
    cases hs : b.slotOccupied <;> simp_all [AsyncBarrier.insert]
  · exact ⟨(h.waits k hk).1, (h.waits k hk).2.trans he⟩
  · obtain ⟨k, hk⟩ := h.calls call hcall
    refine ⟨k, hk.le.trans he, hk.items_lt, forall_mem_cons.mpr ⟨fun hlt => ?_, hk.items⟩, hk.state⟩
    exact absurd hk.le (not_le.mpr (hcookie ▸ hlt))

theorem getBarrierFuture :
    BarrierInv b.getBarrierFuture.1 items ((b.getBarrierFuture.2, items) :: calls) := by
  have hlt : ∀ item ∈ items, item < b.endCookie := fun item hitem => ((h.slots item).mp hitem).lt
  rw [AsyncBarrier.getBarrierFuture]
  split_ifs with hempty hlast
  · refine ⟨h.slots, h.front, h.sorted, h.waits,
      forall_mem_cons.mpr ⟨⟨_, le_rfl, hlt, fun _ h _ => h, .inl ?_⟩, h.calls⟩⟩
    simp [AsyncBarrier.endCookie, hempty, AsyncBarrier.IsSet]
  · rw [getLast?_eq_getElem?] at hlast
    exact ⟨h.slots, h.front, h.sorted, h.waits,
      forall_mem_cons.mpr ⟨⟨_, le_rfl, hlt, fun _ h _ => h, .inr ⟨_, rfl, hlast⟩⟩, h.calls⟩⟩
  · have hp := length_pos_iff.mpr hempty
    refine ⟨h.slots, h.front, pairwise_append.mpr ⟨h.sorted, pairwise_singleton _ _, ?_⟩,
      forall_mem_append.mpr ⟨h.waits, by simp [AsyncBarrier.endCookie, hp]⟩,
        forall_mem_cons.mpr ⟨?_, fun call hc => ?_⟩⟩
    · simpa using fun k hk => (h.waits k hk).2
    · exact ⟨_, le_rfl, hlt, fun _ h _ => h, .inr ⟨_, rfl, getElem?_concat_length ..⟩⟩
    · obtain ⟨k, hk⟩ := h.calls call hc
      exact ⟨k, hk.le, hk.items_lt, hk.items, hk.state.imp_right fun ⟨i, heq, hi⟩ => ⟨i, heq, by grind⟩⟩

/-- `Remove` of an item that is present passes its checks. -/
theorem remove (hcookie : cookie ∈ items) :
    ∃ b', b.remove cookie = .ok b' ∧ BarrierInv b' (items.filter (· ≠ cookie)) calls := by
  have ho := (h.slots cookie).mp hcookie
  obtain ⟨⟨first, slots⟩, hpop⟩ : ∃ r, AsyncBarrier.popFree b.firstSlotCookie
    (b.slotOccupied.set (cookie - b.firstSlotCookie) false) = r := ⟨_, rfl⟩
  obtain ⟨hle, hlen, hf, hitems⟩ := popFree_spec _ _ hpop
  rw [length_set] at hlen
  have hsplit := takeWhile_append_dropWhile (p := fun k => decide (k ≤ first))
    (l := b.subscriptions)
  have hr : b.remove cookie = .ok ⟨first, slots, b.subscriptions.dropWhile (· ≤ first),
      b.promisesSet + (b.subscriptions.takeWhile (· ≤ first)).length⟩ := by
    simp [AsyncBarrier.remove, ho.1, ho.2, hpop]
  refine ⟨_, hr, fun item => ?_, hf, h.sorted.sublist (dropWhile_sublist _), fun k hk =>
    ?_, fun call hcall => ?_⟩
  · rw [mem_filter, h.slots, hitems, occupied_set ho]
    simp
  · exact ⟨Lib.lt_of_mem_dropWhile h.sorted k hk,
      (h.waits k (dropWhile_sublist _ |>.subset hk)).2.trans hlen.ge⟩
  · obtain ⟨k, hk⟩ := h.calls call hcall
    refine ⟨k, hk.le.trans hlen.ge, hk.items_lt, fun item hitem =>
      hk.items item (mem_of_mem_filter hitem), ?_⟩
    rcases hk.state with ⟨hkle, hset⟩ | ⟨i, heq, hi⟩
    · exact .inl ⟨hkle.trans hle, fun p hp => (hset p hp).trans_le (Nat.le_add_right _ _)⟩
    · rw [← hsplit, getElem?_append] at hi
      split_ifs at hi with hlt
      · refine .inl ⟨by simpa using mem_takeWhile_imp (mem_of_getElem? hi), ?_⟩
        simpa [AsyncBarrier.IsSet, heq] using hlt
      · exact .inr ⟨_, by rw [heq, Nat.add_assoc, Nat.add_sub_cancel' (not_lt.mp hlt)], hi⟩

end BarrierInv

theorem BarrierRun.inv {b : AsyncBarrier} {items : List ℕ} {calls : List (Option ℕ × List ℕ)}
    (h : BarrierRun b items calls) : BarrierInv b items calls := by
  induction h with
  | start => exact ⟨by simp [Occupied], by simp, Pairwise.nil, by simp, by simp⟩
  | insert _ ih => exact ih.insert
  | remove _ hc hr ih =>
    obtain ⟨b', hok, hi⟩ := ih.remove hc
    rw [hr] at hok
    cases hok
    exact hi
  | getBarrierFuture _ ih => exact ih.getBarrierFuture

/-- In every run no check of `Remove` fails, and a barrier future is set exactly when the items that
were present at its call have been removed. -/
theorem barrierFuture_set_iff {b : AsyncBarrier} {items : List ℕ} {calls : List (Option ℕ × List ℕ)}
    (h : BarrierRun b items calls) : (∀ cookie ∈ items, ∃ b', b.remove cookie = .ok b') ∧
      ∀ call ∈ calls, b.IsSet call.1 ↔ ∀ item ∈ call.2, item ∉ items := by
  have hinv := h.inv
  refine ⟨fun cookie hcookie => (hinv.remove hcookie).imp fun _ hrun =>
    hrun.1, fun call hcall => ?_⟩
  obtain ⟨k, hk⟩ := hinv.calls call hcall
  rcases hk.state with ⟨hle, hset⟩ | ⟨i, heq, hi⟩
  · refine iff_of_true hset fun item hitem hpresent => ?_
    exact absurd ((hk.items_lt item hitem).trans_le hle) (not_lt.mpr ((hinv.slots item).mp hpresent).1)
  · -- the slot of the first cookie is occupied, and the call waits for it
    obtain ⟨hlt, hle⟩ := hinv.waits k (mem_of_getElem? hi)
    refine iff_of_false (fun hset => absurd (hset _ heq) (by omega)) fun hall => ?_
    have hfirst : b.firstSlotCookie ∈ items := by
      have hfront := hinv.front
      rw [hinv.slots, Occupied, Nat.sub_self]
      cases hslots : b.slotOccupied <;> simp_all [AsyncBarrier.endCookie]
      omega
    exact hall _ (hk.items _ hfirst hlt) hfirst

/-- Two items, a call, and the removal of the first item. -/
theorem barrierFuture_set_example : BarrierRun ⟨2, [true], [3], 0⟩ [2] [(some 0, [2, 1])] ∧
    ¬(⟨2, [true], [3], 0⟩ : AsyncBarrier).IsSet (some 0) := by
  have hrun : BarrierRun ⟨2, [true], [3], 0⟩ [2] [(some 0, [2, 1])] :=
    .remove (.getBarrierFuture (.insert (.insert .start))) (show 1 ∈ [2, 1] by decide) (by decide)
  exact ⟨hrun, fun hset => absurd
    ((barrierFuture_set_iff hrun).2 _ mem_cons_self |>.mp hset 2 (by decide)) (by decide)⟩

end Ytsaurus.Concurrency
