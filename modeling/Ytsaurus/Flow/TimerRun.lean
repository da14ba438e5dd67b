/-
# Runs of the timer store

`Sync` leaves the tracked timers in the timers table, together with those that the last `Init` has
dropped. `RegisterLoaded` clears the queue of changes after it has registered the rows of the table,
and with the queue the erasures of the duplicates among them.

Two equal timers get into the table in an ordinary run: a timer that a batch has returned is not in
the index of duplicates any more, so its equal is registered and `Sync` stores both
(`tableMatches_fails`).
-/
import Ytsaurus.Flow.TimerTable

namespace Ytsaurus.Flow.Timers

open List TimerStore

variable {table : List Timer}

section Coherent

variable {context : TimerStoreContext} {known table left taken : List Timer}
  {store : TimerStore} {x : Timer}

/-! ### Triggering and taking -/

/-- A tracked timer changes its state, from `state` to `state'`. -/
theorem Coherent.move (h : Coherent context known table left taken [] store)
    {state state' : MessageState}
    {taken' : List Timer} {store' : TimerStore} (hx : (x, state) ∈ store.inflight)
    (hin : ∀ e, e ∈ store'.inflight ↔ e = (x, state') ∨ e ∈ store.inflight ∧ e.1 ≠ x)
    (hsorted : ∀ t ∈ store'.sortedTimers, t ∈ store.sortedTimers ∧ t ≠ x)
    (htrig : ∀ t ∈ store'.triggeredTimers, t = x ∧ state' = .ready ∨ t ∈ store.triggeredTimers ∧
      t ≠ x) (hindex : ∀ t, t ∈ store'.index ↔ t ∈ store.index ∧ (t = x → state' ≠ .taken))
    (hr : state' ≠ .taken → state ≠ .taken)
    (htaken : ∀ t, t ∈ taken' ↔ t = x ∧ state' = .taken ∨ t ∈ taken ∧ t ≠ x)
    (hdeduplicated : store'.deduplicated = store.deduplicated)
    (hq : store'.modificationQueue = store.modificationQueue) :
    Coherent context known table left taken' [] store' := by
  have htracked : ∀ t, t ∈ store'.tracked ↔ t ∈ store.tracked := by
    intro t
    simp only [mem_tracked, hin]
    by_cases htx : t = x
    · subst htx
      simpa using ⟨state, hx⟩
    · simp [htx]
  constructor
  · intro e he
    rcases (hin e).mp he with rfl | he
    · exact h.inflight_known (x, state) hx
    · exact h.inflight_known e he.1
  · intro e he
    rcases (hin e).mp he with rfl | he
    · exact h.inflight_stream (x, state) hx
    · exact h.inflight_stream e he.1
  · intro e he e' he' heq
    rcases (hin e).mp he with rfl | he <;> rcases (hin e').mp he' with rfl | he'
    · rfl
    · exact absurd heq.symm he'.2
    · exact absurd heq he.2
    · exact h.inflight_unique e he.1 e' he'.1 heq
  · intro t
    rw [hin, htaken, ← h.taken_iff]
    simp [Prod.ext_iff, eq_comm]
  · intro t
    rw [hindex, h.index_iff]
    by_cases htx : t = x
    · subst htx
      constructor
      · rintro ⟨⟨-, hd, -⟩, hs⟩
        exact ⟨by simp, hd, state', hs rfl, (hin _).mpr (.inl rfl)⟩
      · rintro ⟨-, hd, st, hst, he⟩
        rcases (hin _).mp he with he | he
        · obtain rfl : st = state' := congrArg Prod.snd he
          exact ⟨⟨by simp, hd, state, hr hst, hx⟩, fun _ => hst⟩
        · exact absurd rfl he.2
    · simp [Indexed, hin, htx]
  · intro a ha b hb
    exact h.index_slots a ((hindex a).mp ha).1 b ((hindex b).mp hb).1
  · intro t ht
    obtain ⟨ht, hne⟩ := hsorted t ht
    exact (hin _).mpr (.inr ⟨h.sorted_new t ht, hne⟩)
  · intro t ht
    rcases htrig t ht with ⟨rfl, rfl⟩ | ⟨ht, hne⟩
    · exact (hin _).mpr (.inl rfl)
    · exact (hin _).mpr (.inr ⟨h.triggered_ready t ht, hne⟩)
  · rw [hdeduplicated]
    intro t ht
    rw [htracked]
    exact h.deduplicated_ok t ht
  · rw [hq]
    exact h.queue_known
  · exact h.table_known
  · rw [hq]
    intro t ht
    rw [htracked]
    exact h.left_quiet t ht
  · rw [hq]
    exact fun t ht => (h.life t ht).congr (htracked t)

/-- Timers whose state is not `bad` stay so when one of them changes to another state. -/
theorem states_of_move {inflight inflight' : Inflight} {timers : List Timer}
    {bad state : MessageState} (hb : state ≠ bad)
    (hin : ∀ e, e ∈ inflight' ↔ e = (x, state) ∨ e ∈ inflight ∧ e.1 ≠ x)
    (h : ∀ t ∈ x :: timers, ∃ st, st ≠ bad ∧ (t, st) ∈ inflight) :
    ∀ t ∈ timers, ∃ st, st ≠ bad ∧ (t, st) ∈ inflight' := by
  intro t ht
  by_cases htx : t = x
  · exact ⟨state, hb, (hin _).mpr (.inl (by rw [htx]))⟩
  · obtain ⟨st, hst, he⟩ := h t (mem_cons_of_mem _ ht)
    exact ⟨st, hst, (hin _).mpr (.inr ⟨he, htx⟩)⟩

section

variable (hk : Distinct known) (h : Coherent context known table left taken [] store)

include hk h

theorem triggerOne_spec
    {state : MessageState} (hx : (x, state) ∈ store.inflight) (hstate : state ≠ .taken) :
    ∃ store', triggerOne store x = .ok store' ∧ Coherent context known table left taken [] store' ∧
      ∀ e, e ∈ store'.inflight ↔ e = (x, .ready) ∨ e ∈ store.inflight ∧ e.1 ≠ x := by
  have hxk := h.inflight_known _ hx
  have hf := find_inflight hk h.inflight_known h.inflight_unique hx
  have hin : ∀ e, e ∈ (if state = .new then store.inflight.setState x .ready else store.inflight) ↔
      e = (x, .ready) ∨ e ∈ store.inflight ∧ e.1 ≠ x := by
    intro e
    split_ifs with hs
    · exact mem_setState hk h.inflight_known hxk (mem_map.mpr ⟨_, hx, rfl⟩)
    · have hr : state = .ready := by
        cases state with
        | new => exact absurd rfl hs
        | ready => rfl
        | taken => exact absurd rfl hstate
      subst hr
      constructor
      · intro he
        by_cases hex : e.1 = x
        · exact .inl (h.inflight_unique e he _ hx hex)
        · exact .inr ⟨he, hex⟩
      · rintro (rfl | he)
        · exact hx
        · exact he.1
  refine ⟨{ store with
    inflight := if state = .new then store.inflight.setState x .ready else store.inflight
    triggeredTimers := insertTimer x store.triggeredTimers
    sortedTimers := eraseTimer x store.sortedTimers }, ?_, h.move hx hin ?_ ?_ ?_ ?_ ?_ rfl rfl, hin⟩
  · rw [triggerOne, Inflight.markOffered, hf]
    rfl
  · exact fun t ht => (hk.mem_eraseTimer h.sorted_known hxk).mp ht
  · intro t ht
    by_cases htx : t = x
    · exact .inl ⟨htx, rfl⟩
    · rcases (hk.mem_insertTimer h.triggered_known hxk).mp ht with ht | ht
      · exact absurd ht htx
      · exact .inr ⟨ht, htx⟩
  · simp
  · exact fun _ => hstate
  · intro t
    have : t ∈ taken → t ≠ x := by
      rintro ht rfl
      exact h.notMem_taken hx hstate ht
    simpa using this

theorem triggerTimers_spec
    (watermarkState : WatermarkState) :
    ∃ store', store.triggerTimers context watermarkState = .ok store' ∧
      Coherent context known table left taken [] store' := by
  obtain ⟨store', hr, h', -⟩ := foldlM_ok (f := triggerOne)
    (fun timers store => Coherent context known table left taken [] store ∧
      ∀ t ∈ timers, ∃ state, state ≠ .taken ∧ (t, state) ∈ store.inflight)
    (fun t timers store ⟨h, hw⟩ => by
      obtain ⟨state, hstate, ht⟩ := hw t (by simp)
      obtain ⟨store', ho, h', hin⟩ := triggerOne_spec hk h ht hstate
      exact ⟨store', ho, h', states_of_move (by simp) hin hw⟩)
    (store.sortedTimers.filter (isDue context watermarkState)) store
    ⟨h, fun t ht => ⟨.new, by simp, h.sorted_new t (mem_filter.mp ht).1⟩⟩
  exact ⟨store', hr, h'⟩

theorem takeOne_spec
    {state : MessageState} (hx : (x, state) ∈ store.inflight) (hs : state ≠ .new) : ∃ store',
      takeOne store x = .ok store' ∧ Coherent context known table left (taken ++ [x]) [] store' ∧
      ∀ e, e ∈ store'.inflight ↔ e = (x, .taken) ∨ e ∈ store.inflight ∧ e.1 ≠ x := by
  have hxk := h.inflight_known _ hx
  have hf := find_inflight hk h.inflight_known h.inflight_unique hx
  have hin : ∀ e, e ∈ store.inflight.setState x .taken ↔ e = (x, .taken) ∨
      e ∈ store.inflight ∧ e.1 ≠ x :=
    fun e => mem_setState hk h.inflight_known hxk (mem_map.mpr ⟨_, hx, rfl⟩)
  refine ⟨{ store with
    inflight := store.inflight.setState x .taken
    triggeredTimers := eraseTimer x store.triggeredTimers
    index := unregisterTimerKeyIndex x store.index }, ?_, h.move hx hin ?_ ?_ ?_ ?_ ?_ rfl rfl, hin⟩
  · rw [takeOne, Inflight.markTaken, hf]
    simp [hs]
  · intro t ht
    refine ⟨ht, ?_⟩
    rintro rfl
    exact hs (congrArg Prod.snd (h.inflight_unique _ hx _ (h.sorted_new t ht) rfl))
  · intro t ht
    exact .inr ((hk.mem_eraseTimer h.triggered_known hxk).mp ht)
  · intro t
    rw [mem_unregisterTimerKeyIndex hk h.index_known h.index_slots hxk]
    simp
  · simp
  · intro t
    by_cases htx : t = x <;> simp [htx]

end

theorem takeAll_spec (hk : Distinct known) : ∀ {batch taken : List Timer} {store : TimerStore},
      Coherent context known table left taken [] store →
      (∀ t ∈ batch, ∃ state, state ≠ .new ∧ (t, state) ∈ store.inflight) →
      ∃ store', batch.foldlM takeOne store = .ok store' ∧
        Coherent context known table left (taken ++ batch) [] store'
  | [], taken, store, h, _ => ⟨store, rfl, by rwa [append_nil]⟩
  | t :: batch, taken, store, h, hready => by
    obtain ⟨state, hstate, ht⟩ := hready t (by simp)
    obtain ⟨store₁, ho, h₁, hin⟩ := takeOne_spec hk h ht hstate
    obtain ⟨store', hrun, h'⟩ := takeAll_spec hk h₁ (states_of_move (by simp) hin hready)
    refine ⟨store', by rw [foldlM_cons, ho, ok_bind, hrun], ?_⟩
    rwa [append_assoc] at h'

theorem mem_of_mem_extractBatch {maxRows maxByteSize : ℤ} :
    ∀ {timers : List Timer} {rows byteSize : ℤ} {t : Timer},
    t ∈ extractBatch maxRows maxByteSize rows byteSize timers → t ∈ timers
  | [], _, _, _, h => h
  | timer :: timers, rows, byteSize, t, h => by
    unfold extractBatch at h
    split_ifs at h with hf
    · exact mem_cons.mpr (.inl (mem_singleton.mp h))
    · rcases mem_cons.mp h with rfl | h
      · exact mem_cons_self
      · exact mem_cons_of_mem _ (mem_of_mem_extractBatch h)

theorem getNextBatch_spec (hk : Distinct known)
    (h : Coherent context known table left taken [] store)
    (allowedStreams : List StreamId) (maxRows maxByteSize : ℤ) :
    ∃ store' batch, store.getNextBatch context allowedStreams maxRows maxByteSize =
      .ok (store', batch) ∧ Coherent context known table left (taken ++ batch) [] store' := by
  unfold getNextBatch
  split_ifs with hd
  · exact ⟨store, [], rfl, by rwa [append_nil]⟩
  · have hready : ∀ t ∈ extractBatch maxRows maxByteSize 0 0
        (store.triggeredTimers.filter (isAllowed context allowedStreams)),
        ∃ state, state ≠ MessageState.new ∧ (t, state) ∈ store.inflight := by
      intro t ht
      have htr := (mem_filter.mp (mem_of_mem_extractBatch ht)).1
      exact ⟨.ready, by simp, h.triggered_ready t htr⟩
    obtain ⟨store', hrun, h'⟩ := takeAll_spec hk h hready
    exact ⟨store', _, by dsimp only; rw [hrun]; rfl, h'⟩

/-! ### Sync -/

theorem lookup_filter_ne {id id' : MessageId} : ∀ {finalState : FinalState},
    (finalState.filter fun entry => entry.1 ≠ id).lookup id' = if id' = id then none
      else finalState.lookup id'
  | [] => by simp
  | (key, state) :: finalState => by
    have ih : (finalState.filter fun entry => entry.1 ≠ id).lookup id' =
        if id' = id then none else finalState.lookup id' := lookup_filter_ne
    by_cases hkey : key = id
    · subst hkey
      rw [filter_cons_of_neg (by simp), ih]
      split_ifs with hid
      · rfl
      · rw [lookup_cons, beq_false_of_ne hid]
    · rw [filter_cons_of_pos (by simpa using hkey), lookup_cons, lookup_cons, ih]
      by_cases hid : id' = key
      · subst hid
        simp [hkey]
      · rw [beq_false_of_ne hid]

/-- The state that `finalState` records. -/
def net : List Bool → Option Bool
  | [state] => some state
  | _ => none

theorem Life.cases {stored live left : Prop} {changes : List Bool}
    (h : Life stored live left changes) :
    changes = [] ∨ changes = [true] ∨ changes = [false] ∨ changes = [true, false] := by
  cases h <;> simp

variable {queue : List (Timer × Bool)}

/-- The loop of `DeduplicateModificationQueue` passes its checks. -/
theorem recordModifications_spec
    (hlife : ∀ m ∈ queue, pending queue m.1 = [] ∨ pending queue m.1 = [true] ∨
      pending queue m.1 = [false] ∨ pending queue m.1 = [true, false]) :
    ∃ finalState, queue.foldlM recordModification [] = .ok finalState ∧
      ∀ t : Timer, finalState.lookup t.messageId = net (pending queue t) := by
  obtain ⟨finalState, hr, hd, hq, hlookup⟩ := foldlM_ok (f := recordModification)
    (fun rest finalState => ∃ passed, passed ++ rest = queue ∧
      ∀ t : Timer, finalState.lookup t.messageId = net (pending passed t))
    (fun m rest finalState ⟨passed, hq, hlookup⟩ => by
      have hs : pending queue m.1 = pending passed m.1 ++ m.2 :: pending rest m.1 := by
        rw [← hq, pending_append_append, pending_cons_self]
      have hm : m ∈ queue := by simp [← hq]
      have hn : ∀ t : Timer, pending (passed ++ [m]) t =
          pending passed t ++ if m.1.messageId = t.messageId then [m.2] else [] :=
        fun t => pending_append passed m.1 t m.2
      have hc : pending passed m.1 = [] ∨ pending passed m.1 = [true] ∧ m.2 = false := by
        match hp : pending passed m.1 with
        | [] => exact .inl rfl
        | [a] =>
          rw [hp] at hs
          rcases hlife m hm with h | h | h | h <;> rw [h] at hs <;> simp at hs
          exact .inr ⟨by rw [← hs.1], hs.2.1⟩
        | a :: b :: l =>
          rw [hp] at hs
          rcases hlife m hm with h | h | h | h <;> rw [h] at hs <;> simp at hs
      have hq' : (passed ++ [m]) ++ rest = queue := by simpa using hq
      unfold recordModification
      rcases hc with hp | ⟨hp, hf⟩
      · -- the first change of the timer is recorded
        rw [hlookup m.1, hp]
        refine ⟨_, rfl, passed ++ [m], hq', fun t => ?_⟩
        rw [hn, lookup_cons]
        by_cases hid : m.1.messageId = t.messageId
        · rw [if_pos hid, pending_congr hid.symm, hp, hid]
          simp [net]
        · rw [if_neg hid, beq_false_of_ne (Ne.symm hid), append_nil]
          exact hlookup t
      · -- a timer that was added since the last `Sync` is erased
        rw [hlookup m.1, hp]
        refine ⟨_, by rw [hf]; rfl, passed ++ [m], hq', fun t => ?_⟩
        rw [hn, lookup_filter_ne]
        by_cases hid : m.1.messageId = t.messageId
        · rw [if_pos hid, if_pos hid.symm, pending_congr hid.symm, hp, hf]
          rfl
        · rw [if_neg hid, if_neg (Ne.symm hid), append_nil]
          exact hlookup t)
    queue [] ⟨[], rfl, fun t => rfl⟩
  rw [append_nil] at hq
  exact ⟨finalState, hr, hq ▸ hlookup⟩

theorem mem_foldl_writeRow (hk : Distinct known) :
    ∀ {rows table : List Timer} {t : Timer}, (∀ t ∈ table, t ∈ known) → (∀ t ∈ rows, t ∈ known) →
      (t ∈ rows.foldl writeRow table ↔ t ∈ table ∨ t ∈ rows)
  | [], table, t, _, _ => by simp
  | row :: rows, table, t, htable, hr => by
    have ho : ∀ t, t ∈ writeRow table row ↔ t ∈ table ∨ t = row := by
      intro t
      rw [writeRow, mem_append, mem_singleton, eraseRow, mem_filter]
      by_cases htr : t = row
      · simp [htr]
      · refine or_congr_left (and_iff_left_of_imp fun ht => ?_)
        simpa [hk.sameRow (htable t ht) (hr row (by simp))] using htr
    rw [foldl_cons, mem_foldl_writeRow hk (fun t ht => ?_) fun t ht => hr t (by simp [ht]), ho,
      mem_cons, or_assoc]
    rcases (ho t).mp ht with ht | rfl
    · exact htable t ht
    · exact hr t (by simp)

theorem mem_foldl_eraseRow (hk : Distinct known) :
    ∀ {rows table : List Timer} {t : Timer}, (∀ t ∈ table, t ∈ known) → (∀ t ∈ rows, t ∈ known) →
      (t ∈ rows.foldl eraseRow table ↔ t ∈ table ∧ t ∉ rows)
  | [], table, t, _, _ => by simp
  | row :: rows, table, t, htable, hr => by
    have ho : ∀ t, t ∈ eraseRow table row ↔ t ∈ table ∧ t ≠ row := by
      intro t
      rw [eraseRow, mem_filter]
      refine and_congr_right fun ht => ?_
      simp [hk.sameRow (htable t ht) (hr row (by simp))]
    rw [foldl_cons, mem_foldl_eraseRow hk (fun t ht => htable t ((ho t).mp ht).1)
      fun t ht => hr t (by simp [ht]), ho, mem_cons, not_or, and_assoc]

theorem nodup_eraseRow (row : Timer) (h : table.Nodup) : (eraseRow table row).Nodup := h.filter _

theorem nodup_writeRow (row : Timer) (h : table.Nodup) : (writeRow table row).Nodup := by
  refine nodup_append.mpr ⟨nodup_eraseRow row h, by simp, ?_⟩
  rintro t ht b hb rfl
  rw [mem_singleton.mp hb, eraseRow, mem_filter] at ht
  simp [SameRow] at ht

/-- The rows that `Sync` writes (`add`) or erases. -/
theorem mem_rows (hk : Distinct known) (hq : ∀ m ∈ queue, m.1 ∈ known) {finalState : FinalState}
    (hl : ∀ t : Timer, finalState.lookup t.messageId = net (pending queue t))
    {p : Timer × Bool → Bool} {add : Bool} (hp : ∀ m, p m = true ↔ m.2 = add) {t : Timer} :
    t ∈ ((queue.filter fun m => decide (finalState.lookup m.1.messageId = some m.2)).filter p).map
      Prod.fst ↔ t ∈ known ∧ pending queue t = [add] := by
  rw [mem_map]
  constructor
  · rintro ⟨m, hm, rfl⟩
    obtain ⟨hm, ha⟩ := mem_filter.mp hm
    obtain ⟨hm, hn⟩ := mem_filter.mp hm
    rw [decide_eq_true_eq, hl, (hp m).mp ha] at hn
    refine ⟨hq m hm, ?_⟩
    match hpending : pending queue m.1 with
    | [] | _ :: _ :: _ => simp [hpending, net] at hn
    | [state] =>
      rw [hpending] at hn
      simpa [net] using hn
  · rintro ⟨ht, hpending⟩
    have hmem : add ∈ pending queue t := by simp [hpending]
    obtain ⟨m, hm, ha⟩ := mem_map.mp hmem
    obtain ⟨hm, hid⟩ := mem_filter.mp hm
    have hmt : m.1 = t := hk _ (hq m hm) t ht (of_decide_eq_true hid)
    refine ⟨m, mem_filter.mpr ⟨mem_filter.mpr ⟨hm, ?_⟩, (hp m).mpr ha⟩, hmt⟩
    rw [decide_eq_true_eq, hl, hmt, hpending, ha]
    rfl

/-- After `Sync` the table holds the tracked timers and those that `Init` has dropped. -/
theorem sync_spec (hk : Distinct known) (h : Coherent context known table left taken [] store)
    (hnodup : table.Nodup) : ∃ table' store', store.sync table = .ok (table', store') ∧
      Coherent context known table' left taken [] store' ∧ table'.Nodup ∧
        store'.tracked = store.tracked ∧ ∀ t, t ∈ table' ↔ t ∈ store.tracked ∨ t ∈ left := by
  obtain ⟨finalState, hr, hlookup⟩ := recordModifications_spec
    fun m hm => (h.life m.1 (h.queue_known m hm)).cases
  set queue := store.modificationQueue.filter fun m =>
    decide (finalState.lookup m.1.messageId = some m.2) with hq
  have hp : ∀ t, t ∈ (queue.filter fun m => m.2).map Prod.fst ↔
      t ∈ known ∧ pending store.modificationQueue t = [true] :=
    fun t => mem_rows hk h.queue_known hlookup (by simp)
  have herase : ∀ t, t ∈ (queue.filter fun m => !m.2).map Prod.fst ↔
      t ∈ known ∧ pending store.modificationQueue t = [false] :=
    fun t => mem_rows hk h.queue_known hlookup (by simp)
  have hw : ∀ t, t ∈ ((queue.filter fun m => m.2).map Prod.fst).foldl writeRow table ↔
      t ∈ table ∨ t ∈ (queue.filter fun m => m.2).map Prod.fst :=
    fun t => mem_foldl_writeRow hk h.table_known fun t ht => ((hp t).mp ht).1
  have hmem : ∀ t, t ∈ ((queue.filter fun m => !m.2).map Prod.fst).foldl eraseRow
      (((queue.filter fun m => m.2).map Prod.fst).foldl writeRow table) ↔ t ∈ store.tracked ∨
          t ∈ left := by
    intro t
    rw [mem_foldl_eraseRow hk ?_ fun t ht => ((herase t).mp ht).1, hw, hp, herase]
    · by_cases htk : t ∈ known
      · have hleft : t ∈ left → pending store.modificationQueue t = [] :=
          fun ht => (h.left_quiet t ht).2.2
        have hl := h.life t htk
        generalize pending store.modificationQueue t = changes at hl hleft
        cases hl with
        | quiet hst => simpa using hst
        | added hst hlive => simp [htk, hlive]
        | erased hst hlive => simpa [htk, hlive] using hleft
        | passed hst hlive => simpa [htk, hlive, hst] using hleft
      · have hnt : t ∉ store.tracked := fun ht => htk (h.tracked_known t ht)
        have hnl : t ∉ left := fun ht => htk (h.table_known t (h.left_quiet t ht).1)
        have hnotTable : t ∉ table := fun ht => htk (h.table_known t ht)
        simp [htk, hnt, hnl, hnotTable]
    · intro t ht
      rcases (hw t).mp ht with ht | ht
      · exact h.table_known t ht
      · exact ((hp t).mp ht).1
  refine ⟨_, { store with deduplicated := [], modificationQueue := [] }, ?_, ?_, ?_, rfl, hmem⟩
  · rw [sync, deduplicateModificationQueue, hr]
    rfl
  · refine { h with
      deduplicated_ok := by simp
      queue_known := by simp
      table_known := fun t ht => ?_
      left_quiet := fun t ht => ⟨(hmem t).mpr (.inr ht), (h.left_quiet t ht).2.1, rfl⟩
      life := fun t _ => .quiet (hmem t) }
    rcases (hmem t).mp ht with ht | ht
    · exact h.tracked_known t ht
    · exact h.table_known t (h.left_quiet t ht).1
  · refine foldlRecOn _ _ ?_ fun table ht row _ => nodup_eraseRow row ht
    exact foldlRecOn _ _ hnodup fun table ht row _ => nodup_writeRow row ht

/-! ### Init -/

theorem coherent_fresh (draining : Bool) :
    Coherent context [] [] [] [] [] (TimerStore.fresh draining) := by
  constructor <;> simp [TimerStore.fresh, Indexed, DistinctSlots, TimerStore.tracked]

/-- No two timers of a stream that deduplicates have one slot. -/
def NoDoubles (context : TimerStoreContext) (timers : List Timer) : Prop :=
  ∀ t ∈ timers, ¬Doubled context timers t

/-- `RegisterLoaded` forgets that it has dropped the duplicates of the table. -/
theorem registerLoaded_spec (hk : Distinct known) (htable : ∀ t ∈ table, t ∈ known)
    (hnodup : table.Nodup) {order : List Timer} (ho : order.Perm table)
    (hstream : ∀ t ∈ table, context.deduplicateEqualTimestamps t.streamId ≠ none)
    (draining : Bool) :
    ∃ store' left, (TimerStore.fresh draining).registerLoaded context order = .ok store' ∧
      Coherent context known table left [] [] store' ∧
        ((∀ t, t ∉ left) ↔ NoDoubles context order) := by
  have hids : (order.map Timer.messageId).Nodup :=
    Nodup.map_on (fun a ha b hb =>
      hk a (htable a (ho.mem_iff.mp ha)) b (htable b (ho.mem_iff.mp hb))) (ho.nodup_iff.mpr hnodup)
  obtain ⟨store', hr, -, h', hc⟩ :=
    register_spec (by simp [Distinct]) (coherent_fresh draining) hids (by simp)
    fun t ht => hstream t (ho.mem_iff.mp ht)
  rw [append_nil] at h'
  refine ⟨{ store' with modificationQueue := [] }, table.filter (· ∉ store'.tracked), ?_, ?_, ?_⟩
  · rw [registerLoaded, hr]
    rfl
  · refine { h' with
      inflight_known := fun e he => htable _ (ho.mem_iff.mp (h'.inflight_known e he))
      deduplicated_ok := fun t ht => ?_
      queue_known := by simp
      table_known := htable
      left_quiet := fun t ht => ?_
      life := fun t _ => .quiet ?_ }
    · obtain ⟨htk, htt, hd, t', ht', hsame⟩ := h'.deduplicated_ok t ht
      exact ⟨htable t (ho.mem_iff.mp htk), htt, hd, t', htable t' (ho.mem_iff.mp ht'), hsame⟩
    · obtain ⟨ht, hnt⟩ := mem_filter.mp ht
      exact ⟨ht, of_decide_eq_true hnt, rfl⟩
    · show t ∈ table ↔ t ∈ store'.tracked ∨ t ∈ table.filter (· ∉ store'.tracked)
      by_cases htt : t ∈ store'.tracked
      · simp [htt, ho.mem_iff.mp (h'.tracked_known t htt)]
      · simp [htt]
  · constructor
    · rintro hnone t ht ⟨hd, t', ht', hne, hsame⟩
      have hindexed : ∀ k ∈ order, context.deduplicateEqualTimestamps k.streamId = some true →
          k ∈ store'.index := by
        intro k hko hdk
        have htr : k ∈ store'.tracked := by
          by_contra hnt
          exact hnone k (mem_filter.mpr ⟨ho.mem_iff.mp hko, decide_eq_true hnt⟩)
        obtain ⟨st, he⟩ := mem_tracked.mp htr
        refine (h'.index_iff k).mpr ⟨by simp, hdk, st, ?_, he⟩
        rintro rfl
        simpa using (h'.taken_iff k).mp he
      have hd' : context.deduplicateEqualTimestamps t'.streamId = some true := by rw [hsame.1, hd]
      exact hne (h'.index_slots t' (hindexed t' ht' hd') t (hindexed t ht hd) hsame)
    · intro hno t ht
      obtain ⟨ht, hnt⟩ := mem_filter.mp ht
      have hto := ho.mem_iff.mpr ht
      rcases hc t (.inl hto) with htr | hdup
      · exact of_decide_eq_true hnt htr
      · exact hno t hto (h'.deduplicated_ok t hdup).2.2

end Coherent

/-! ### Runs -/

/-- The timers table and the store of the partition's job. -/
structure TimerSystem where
  table : List Timer
  store : TimerStore
  /-- The store is past `Init`. -/
  initialized : Bool
  /-- The timers that were in the table or were registered. -/
  known : List Timer
  /-- The timers that `GetNextBatch` has returned since `Init` and that are not unregistered. -/
  taken : List Timer
  /-- What `Init` has loaded. -/
  loaded : List Timer
  deriving DecidableEq

/-- The operations; `Init` is that of a new store, after a crash for instance. -/
inductive TimerOperation
  | init (draining : Bool) (order : List Timer)
  | register (timers : List Timer)
  | getNextBatch (allowedStreams : List StreamId) (maxRows maxByteSize : ℤ)
  | unregister (timers : List Timer)
  | updateWatermarkState (state : WatermarkState)
  | reconfigure (draining : Bool)
  | sync

namespace TimerSystem

/-- A table and a store that has to load it. -/
def start (table : List Timer) : TimerSystem :=
  ⟨table, TimerStore.fresh false, false, table, [], []⟩

/-- What the caller of an operation keeps to. The table gives its rows in some order. -/
def Admissible (s : TimerSystem) : TimerOperation → Prop
  | .init _ order => order.Perm s.table
  | .register timers => s.initialized ∧ (timers.map Timer.messageId).Nodup ∧
      ∀ x ∈ timers, ∀ t ∈ s.known, t.messageId ≠ x.messageId
  | .unregister timers => s.initialized ∧ timers.Nodup ∧ ∀ t ∈ timers, t ∈ s.taken
  | .getNextBatch .. | .updateWatermarkState _ | .reconfigure _ | .sync => s.initialized

def apply (context : TimerStoreContext) (s : TimerSystem) : TimerOperation → Result TimerSystem
  | .init draining order => do
    let store ← (TimerStore.fresh draining).registerLoaded context order
    return { s with store, initialized := true, taken := [], loaded := order }
  | .register timers => do
    let store ← s.store.register context timers
    return { s with store, known := timers ++ s.known }
  | .getNextBatch allowedStreams maxRows maxByteSize => do
    let (store, batch) ← s.store.getNextBatch context allowedStreams maxRows maxByteSize
    return { s with store, taken := s.taken ++ batch }
  | .unregister timers => do
    let store ← s.store.doUnregister context timers
    return { s with store, taken := s.taken.filter (· ∉ timers) }
  | .updateWatermarkState state => do
    let store ← s.store.triggerTimers context state
    return { s with store }
  | .reconfigure draining => return { s with store := { s.store with draining } }
  | .sync => do
    let (table, store) ← s.store.sync s.table
    return { s with table, store }

end TimerSystem

/-- The timers of the operation belong to known streams; others are refused with an exception. -/
def KnownStreams (context : TimerStoreContext) : TimerOperation → Prop
  | .init _ timers | .register timers =>
    ∀ t ∈ timers, context.deduplicateEqualTimestamps t.streamId ≠ none
  | _ => True

/-- The states that operations lead to from a table with distinct message ids. -/
inductive TimerRun (context : TimerStoreContext) : TimerSystem → Prop
  | start {table : List Timer} : (table.map Timer.messageId).Nodup → TimerRun context (.start table)
  | step {s s' : TimerSystem} {operation : TimerOperation} : TimerRun context s →
    s.Admissible operation → s.apply context operation = .ok s' → TimerRun context s'

/-- What a run keeps. -/
structure RunOk (context : TimerStoreContext) (s : TimerSystem) : Prop where
  known_distinct : Distinct s.known
  table_known : ∀ t ∈ s.table, t ∈ s.known
  table_nodup : s.table.Nodup
  coherent : s.initialized = true → ∃ left, Coherent context s.known s.table left s.taken
    [] s.store ∧ ((∀ t, t ∉ left) ↔ NoDoubles context s.loaded)

theorem RunOk.start {context : TimerStoreContext} (h : (table.map Timer.messageId).Nodup) :
    RunOk context (.start table) where
  known_distinct := fun _ ha _ hb => inj_on_of_nodup_map h ha hb
  table_known _ ht := ht
  table_nodup := h.of_map
  coherent hi := by cases hi

section Step

variable {context : TimerStoreContext} {s s' : TimerSystem} {operation : TimerOperation}

theorem RunOk.apply (h : RunOk context s) (ha : s.Admissible operation)
    (hstreams : KnownStreams context operation) :
    ∃ s', s.apply context operation = .ok s' ∧ RunOk context s' := by
  have hk := h.known_distinct
  cases operation with
  | init draining order =>
    obtain ⟨store', left, hr, hc, hl⟩ := registerLoaded_spec hk h.table_known h.table_nodup ha
      (fun t ht => hstreams t (ha.mem_iff.mpr ht)) draining
    rw [TimerSystem.apply, hr]
    exact ⟨_, rfl, hk, h.table_known, h.table_nodup, fun _ => ⟨left, hc, hl⟩⟩
  | register timers =>
    obtain ⟨hi, hn, hf⟩ := ha
    obtain ⟨left, hc, hl⟩ := h.coherent hi
    obtain ⟨store', hr, hk', hc', -⟩ := register_spec hk hc hn hf hstreams
    rw [TimerSystem.apply, hr]
    exact ⟨_, rfl, hk', hc'.table_known, h.table_nodup, fun _ => ⟨left, hc', hl⟩⟩
  | getNextBatch allowedStreams maxRows maxByteSize =>
    obtain ⟨left, hc, hl⟩ := h.coherent ha
    obtain ⟨store', batch, hr, hc'⟩ := getNextBatch_spec hk hc allowedStreams maxRows maxByteSize
    rw [TimerSystem.apply, hr]
    exact ⟨_, rfl, hk, h.table_known, h.table_nodup, fun _ => ⟨left, hc', hl⟩⟩
  | unregister timers =>
    obtain ⟨hi, hn, hsub⟩ := ha
    obtain ⟨left, hc, hl⟩ := h.coherent hi
    obtain ⟨store', hr, hc'⟩ := doUnregister_spec hk hc hn hsub
    rw [TimerSystem.apply, hr]
    exact ⟨_, rfl, hk, h.table_known, h.table_nodup, fun _ => ⟨left, hc', hl⟩⟩
  | updateWatermarkState state =>
    obtain ⟨left, hc, hl⟩ := h.coherent ha
    obtain ⟨store', hr, hc'⟩ := triggerTimers_spec hk hc state
    rw [TimerSystem.apply, hr]
    exact ⟨_, rfl, hk, h.table_known, h.table_nodup, fun _ => ⟨left, hc', hl⟩⟩
  | reconfigure draining =>
    obtain ⟨left, hc, hl⟩ := h.coherent ha
    exact ⟨_, rfl, hk, h.table_known, h.table_nodup, fun _ => ⟨left, { hc with }, hl⟩⟩
  | sync =>
    obtain ⟨left, hc, hl⟩ := h.coherent ha
    obtain ⟨table', store', hr, hc', hn, -, -⟩ := sync_spec hk hc h.table_nodup
    rw [TimerSystem.apply, hr]
    exact ⟨_, rfl, hk, hc'.table_known, hn, fun _ => ⟨left, hc', hl⟩⟩

theorem stream_of_register : ∀ {timers : List Timer} {store store' : TimerStore},
    store.register context timers = .ok store' →
    ∀ t ∈ timers, context.deduplicateEqualTimestamps t.streamId ≠ none
  | x :: timers, store, store', h, t, ht => by
    unfold register at h
    obtain ⟨store₁, ho, hr⟩ := bind_eq_ok.mp h
    rcases mem_cons.mp ht with rfl | ht
    · intro hn
      rw [registerOne, if_pos hn] at ho
      cases ho
    · exact stream_of_register hr t ht

theorem knownStreams_of_apply (h : s.apply context operation = .ok s') :
    KnownStreams context operation := by
  cases operation with
  | init draining order =>
    obtain ⟨store', hl, -⟩ := bind_eq_ok.mp h
    obtain ⟨store₁, hr, -⟩ := bind_eq_ok.mp hl
    exact stream_of_register hr
  | register timers =>
    obtain ⟨store', hr, -⟩ := bind_eq_ok.mp h
    exact stream_of_register hr
  | _ => trivial

theorem TimerRun.ok (h : TimerRun context s) : RunOk context s := by
  induction h with
  | start hi => exact .start hi
  | step _ ha happly ih =>
    obtain ⟨s'', happly', hok⟩ := ih.apply ha (knownStreams_of_apply happly)
    obtain rfl : s'' = _ := Except.ok.inj (happly'.symm.trans happly)
    exact hok

def TableMatches (s : TimerSystem) : Prop := ∀ t, t ∈ s.table ↔ t ∈ s.store.tracked

/-- No operation of a run fails, `Sync` with its checks included, and after `Sync` the table holds
what the store tracks exactly if the last `Init` has met no duplicates in the table. -/
theorem tableMatches_iff (h : TimerRun context s) : (∀ operation, s.Admissible operation →
      KnownStreams context operation → ∃ s', s.apply context operation = .ok s') ∧
    (s.initialized = true → ∃ s', s.apply context .sync = .ok s' ∧
      (TableMatches s' ↔ NoDoubles context s.loaded)) := by
  have hok := h.ok
  refine ⟨fun operation ha hstreams => ?_, fun hi => ?_⟩
  · obtain ⟨s', happly, -⟩ := hok.apply ha hstreams
    exact ⟨s', happly⟩
  · obtain ⟨left, hc, hleft⟩ := hok.coherent hi
    obtain ⟨table', store', hrun, -, -, htracked, hmem⟩ :=
      sync_spec hok.known_distinct hc hok.table_nodup
    refine ⟨{ s with table := table', store := store' }, by rw [TimerSystem.apply, hrun]; rfl, ?_⟩
    rw [← hleft]
    constructor
    · intro hmatch t ht
      exact (hc.left_quiet t ht).2.1 (htracked ▸ (hmatch t).mp ((hmem t).mpr (.inr ht)))
    · intro hnone t
      show t ∈ table' ↔ t ∈ store'.tracked
      rw [hmem, htracked]
      exact or_iff_left (hnone t)

end Step

/-! ### A timer that outlives its duplicate -/

instance (s : TimerSystem) : DecidablePred s.Admissible
  | .init _ order => inferInstanceAs (Decidable (order.Perm s.table))
  | .register _ => inferInstanceAs (Decidable (_ ∧ _ ∧ ∀ x ∈ _, ∀ t ∈ s.known, _))
  | .unregister _ => inferInstanceAs (Decidable (_ ∧ _ ∧ ∀ t ∈ _, t ∈ s.taken))
  | .getNextBatch .. | .updateWatermarkState _ | .reconfigure _ | .sync =>
    inferInstanceAs (Decidable (s.initialized = true))

def TimerSystem.applyAll (context : TimerStoreContext) (s : TimerSystem)
    (operations : List TimerOperation) : Result TimerSystem :=
  operations.foldlM (fun s operation => do
    ytVerify (s.Admissible operation)
    s.apply context operation) s

theorem TimerRun.applyAll {context : TimerStoreContext} :
    ∀ {operations : List TimerOperation} {s s' : TimerSystem}, TimerRun context s →
      s.applyAll context operations = .ok s' → TimerRun context s'
  | [], _, _, h, hrun => Except.ok.inj hrun ▸ h
  | operation :: operations, s, s', h, hrun => by
    unfold TimerSystem.applyAll at hrun
    obtain ⟨s₁, ho, hrest⟩ := bind_eq_ok.mp hrun
    obtain ⟨_, hadmissible, happly⟩ := bind_eq_ok.mp ho
    exact TimerRun.applyAll (h.step (ytVerify_eq_ok.mp hadmissible) happly) hrest

def exampleContext : TimerStoreContext := ⟨fun _ => some true, fun _ => ⟨.currentTime, []⟩, [["s"]]⟩

def firstTimer : Timer := ⟨"1", "s", "k", 10, 5, 1⟩

def secondTimer : Timer := ⟨"2", "s", "k", 10, 7, 1⟩

/-- The first timer is taken when the second one, its equal, is registered; the job crashes and
starts anew. -/
def exampleOperations : List TimerOperation :=
  [.init false [], .register [firstTimer], .updateWatermarkState ⟨10, fun _ _ => 0⟩,
    .getNextBatch ["s"] 10 100, .register [secondTimer], .sync, .init false [firstTimer, secondTimer]]

def exampleState : TimerSystem where
  table := [firstTimer, secondTimer]
  store := ⟨false, [(firstTimer, .new)], [firstTimer], [firstTimer], [], [secondTimer], []⟩
  initialized := true
  known := [secondTimer, firstTimer]
  taken := []
  loaded := [firstTimer, secondTimer]

theorem exampleState_run : TimerRun exampleContext exampleState :=
  TimerRun.applyAll (.start (by simp : (([] : List Timer).map Timer.messageId).Nodup))
    (by decide +kernel : (TimerSystem.start
      []).applyAll exampleContext exampleOperations = .ok exampleState)

/-- The table keeps a timer that the store does not track. -/
theorem tableMatches_fails : TimerRun exampleContext exampleState ∧
    ∃ s', exampleState.apply exampleContext .sync = .ok s' ∧ secondTimer ∈ s'.table ∧
      ¬TableMatches s' := by
  refine ⟨exampleState_run,
    { exampleState with store := { exampleState.store with deduplicated := [] } },
    by decide +kernel, by decide, fun h => ?_⟩
  have := (h secondTimer).mp (by decide)
  revert this
  decide

/-- The state after the first batch of the run. -/
def takenState : TimerSystem where
  table := []
  store := ⟨false, [(firstTimer, .taken)], [], [], [], [], [(firstTimer, true)]⟩
  initialized := true
  known := [firstTimer]
  taken := [firstTimer]
  loaded := []

theorem tableMatches_taken : TimerRun exampleContext takenState ∧
    ∃ s', takenState.apply exampleContext .sync = .ok s' ∧ TableMatches s' := by
  have hrun : TimerRun exampleContext takenState :=
    TimerRun.applyAll (.start (by simp : (([] : List Timer).map Timer.messageId).Nodup))
      (by decide +kernel : (TimerSystem.start
        []).applyAll exampleContext (exampleOperations.take 4) = .ok takenState)
  obtain ⟨s', hsync, hiff⟩ := (tableMatches_iff hrun).2 rfl
  exact ⟨hrun, s', hsync, hiff.mpr fun t ht => by simp [takenState] at ht⟩

end Ytsaurus.Flow.Timers
