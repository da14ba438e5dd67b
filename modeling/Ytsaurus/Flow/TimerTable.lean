/-
# The timers table and the timer store

What `TTimerStore` tracks, what its queue of changes holds and what is in the timers table: every
timer has at most one change queued, or an addition followed by an erasure (`Life`), and the index
of duplicates holds the timers of the streams that deduplicate until a batch returns them
(`Coherent`). Unregistering, registering and the dropping of duplicates keep that.
-/
import Ytsaurus.Flow.TimerStore

namespace Ytsaurus.Flow.Timers

open List TimerStore

/-! ### Timers with distinct ids -/

/-- A message id names one timer. -/
def Distinct (timers : List Timer) : Prop :=
  ∀ a ∈ timers, ∀ b ∈ timers, a.messageId = b.messageId → a = b

/-- One more element that is related to no other keeps the relation of two elements to equality. -/
theorem unique_insert {α : Type} {R : α → α → Prop} {l l' : List α} {x : α}
    (hsymm : ∀ a b, R a b → R b a)
    (hmem : ∀ a ∈ l', a ∈ l ∨ a = x) (h : ∀ a ∈ l, ∀ b ∈ l, R a b → a = b) (hx : ∀ a ∈ l, ¬R a x) :
    ∀ a ∈ l', ∀ b ∈ l', R a b → a = b := by
  intro a ha b hb hab
  rcases hmem a ha with ha | rfl <;> rcases hmem b hb with hb | rfl
  · exact h a ha b hb hab
  · exact absurd hab (hx a ha)
  · exact absurd (hsymm _ _ hab) (hx b hb)
  · rfl

variable {timers : List Timer}

section Distinct

variable {known : List Timer} {a b : Timer}

section

variable (hk : Distinct known) (ha : a ∈ known) (hb : b ∈ known)

include hk ha hb

theorem Distinct.sameMessage : SameMessage a b ↔ a = b :=
  ⟨fun h => hk a ha b hb h.2, fun h => h ▸ ⟨rfl, rfl⟩⟩

theorem Distinct.sameElement : a.SameElement b ↔ a = b :=
  ⟨fun h => hk a ha b hb h.2.2, fun h => h ▸ ⟨rfl, rfl, rfl⟩⟩

theorem Distinct.sameRow : SameRow a b ↔ a = b :=
  ⟨fun h => hk a ha b hb h.2, fun h => h ▸ ⟨rfl, rfl⟩⟩

end

theorem Distinct.cons (hk : Distinct known) (hfresh : ∀ t ∈ known, t.messageId ≠ a.messageId) :
    Distinct (a :: known) :=
  unique_insert (fun _ _ => Eq.symm) (fun _ ht => (mem_cons.mp ht).symm) hk hfresh

theorem Distinct.mem_eraseTimer (hk : Distinct known) (hs : ∀ t ∈ timers, t ∈ known)
    (hb : b ∈ known) : a ∈ eraseTimer b timers ↔ a ∈ timers ∧ a ≠ b := by
  rw [eraseTimer, mem_filter]
  refine and_congr_right fun ha => ?_
  simp [hk.sameElement (hs a ha) hb]

theorem Distinct.mem_insertTimer (hk : Distinct known) (hs : ∀ t ∈ timers, t ∈ known)
    (hb : b ∈ known) : a ∈ insertTimer b timers ↔ a = b ∨ a ∈ timers := by
  unfold insertTimer
  split_ifs with h
  · obtain ⟨t, ht, hsame⟩ := any_eq_true.mp h
    have : t = b := (hk.sameElement (hs t ht) hb).mp (of_decide_eq_true hsame)
    subst this
    exact ⟨.inr, fun h => h.elim (fun h => h ▸ ht) id⟩
  · exact mem_orderedInsert ..

end Distinct

theorem Timer.SameSlot.symm {a b : Timer} (h : a.SameSlot b) : b.SameSlot a :=
  ⟨h.1.symm, h.2.1.symm, h.2.2.symm⟩

theorem Timer.SameSlot.trans {a b c : Timer} (h : a.SameSlot b) (h' : b.SameSlot c) :
    a.SameSlot c :=
  ⟨h.1.trans h'.1, h.2.1.trans h'.2.1, h.2.2.trans h'.2.2⟩

def DistinctSlots (timers : List Timer) : Prop := ∀ a ∈ timers, ∀ b ∈ timers, a.SameSlot b → a = b

theorem DistinctSlots.append {x : Timer} (h : DistinctSlots timers)
    (hf : ∀ t ∈ timers, ¬t.SameSlot x) : DistinctSlots (timers ++ [x]) :=
  unique_insert (fun _ _ => Timer.SameSlot.symm) (by simp) h hf

/-! ### The tracker -/

section Inflight

variable {known : List Timer} {inflight : Inflight} {t : Timer} {state : MessageState}

theorem find_inflight (hk : Distinct known) (hs : ∀ e ∈ inflight, e.1 ∈ known)
    (hu : ∀ e ∈ inflight, ∀ e' ∈ inflight, e.1 = e'.1 → e = e') (ht : (t, state) ∈ inflight) :
    inflight.find t = some (t, state) := by
  unfold Inflight.find
  cases hf : inflight.find? fun entry => decide (SameMessage entry.1 t) with
  | none =>
    have := find?_eq_none.mp hf (t, state) ht
    simp [SameMessage] at this
  | some e =>
    have he := mem_of_find?_eq_some hf
    have hsame : SameMessage e.1 t := by simpa using find?_some hf
    rw [hu e he (t, state) ht ((hk.sameMessage (hs e he) (hs _ ht)).mp hsame)]

theorem find_inflight_fresh (hs : ∀ e ∈ inflight, e.1 ∈ known)
    (hfresh : ∀ k ∈ known, k.messageId ≠ t.messageId) : inflight.find t = none := by
  refine find?_eq_none.mpr fun e he => ?_
  simpa using fun h : SameMessage e.1 t => hfresh e.1 (hs e he) h.2

theorem mem_setState (hk : Distinct known) (hs : ∀ e ∈ inflight, e.1 ∈ known) (ht : t ∈ known)
    (htr : t ∈ inflight.map Prod.fst) {e : Timer × MessageState} :
    e ∈ inflight.setState t state ↔ e = (t, state) ∨ e ∈ inflight ∧ e.1 ≠ t := by
  have hset : inflight.setState t state = inflight.map fun e => if e.1 = t then (e.1, state) else e :=
    map_congr_left fun e he => by simp only [hk.sameMessage (hs e he) ht]
  rw [hset, mem_map]
  constructor
  · rintro ⟨e', he', rfl⟩
    split_ifs with h
    · exact .inl (by rw [h])
    · exact .inr ⟨he', h⟩
  · rintro (rfl | ⟨he, hne⟩)
    · obtain ⟨e', he', rfl⟩ := mem_map.mp htr
      exact ⟨e', he', if_pos rfl⟩
    · exact ⟨e, he, if_neg hne⟩

end Inflight

/-! ### The modification queue -/

/-- The queued changes of a timer, in their order. -/
def pending (queue : List (Timer × Bool)) (timer : Timer) : List Bool :=
  (queue.filter fun modification =>
    decide (modification.1.messageId = timer.messageId)).map Prod.snd

variable {queue : List (Timer × Bool)}

theorem pending_congr {t t' : Timer} (h : t.messageId = t'.messageId) :
    pending queue t = pending queue t' := by
  unfold pending
  rw [h]

theorem pending_cons_self (modification : Timer × Bool) (queue : List (Timer × Bool)) : pending
      (modification :: queue) modification.1 = modification.2 :: pending queue modification.1 := by
  unfold pending
  rw [filter_cons_of_pos (by simp), map_cons]

theorem pending_append_append (queue queue' : List (Timer × Bool)) (t : Timer) :
    pending (queue ++ queue') t = pending queue t ++ pending queue' t := by
  unfold pending
  rw [filter_append, map_append]

theorem pending_append (queue : List (Timer × Bool)) (timer t : Timer) (add : Bool) :
    pending (queue ++ [(timer, add)]) t = pending queue t ++ if timer.messageId = t.messageId
      then [add] else [] := by
  by_cases h : timer.messageId = t.messageId <;> simp [pending, h]

theorem pending_eq_nil {known : List Timer} {t : Timer} (hs : ∀ m ∈ queue, m.1 ∈ known)
    (hfresh : ∀ k ∈ known, k.messageId ≠ t.messageId) : pending queue t = [] := by
  unfold pending
  rw [map_eq_nil_iff, filter_eq_nil_iff]
  intro m hm
  simpa using hfresh m.1 (hs m hm)

/-- What the queue holds for a timer, by whether the table holds the timer (`stored`), the store
tracks it (`live`) and `Init` has dropped it (`left`). -/
inductive Life (stored live left : Prop) : List Bool → Prop
  | quiet : (stored ↔ live ∨ left) → Life stored live left []
  | added : ¬stored → live → Life stored live left [true]
  | erased : stored → ¬live → Life stored live left [false]
  | passed : ¬stored → ¬live → Life stored live left [true, false]

variable {stored live left live' : Prop}

theorem Life.congr {changes : List Bool} (h : Life stored live left changes)
    (hl : live' ↔ live) : Life stored live' left changes := by
  rwa [propext hl]

theorem Life.erase {changes : List Bool} (h : Life stored live left changes)
    (hl : live) (hl' : ¬live') : Life stored live' left (changes ++ [false]) := by
  cases h with
  | quiet h => exact .erased (h.mpr (.inl hl)) hl'
  | added h _ => exact .passed h hl'
  | erased _ h | passed _ h => exact absurd hl h

/-! ### The invariant -/

/-- Another timer has the slot of the timer, in a stream that deduplicates. -/
def Doubled (context : TimerStoreContext) (timers : List Timer) (timer : Timer) : Prop :=
  context.deduplicateEqualTimestamps timer.streamId = some true ∧ ∃ t ∈ timers, t ≠ timer ∧
    t.SameSlot timer

/-- The index of duplicates shall hold the timer. -/
def Indexed (context : TimerStoreContext) (inflight : Inflight) (timer : Timer) : Prop :=
  context.deduplicateEqualTimestamps timer.streamId = some true ∧ ∃ state, state ≠ .taken ∧
    (timer, state) ∈ inflight

/-- The store fits the table: `known` are the timers so far, `left` those that `Init` has dropped
and the table still holds, `taken` those that a batch has returned, `out` those that have left the
index and are about to be dropped. -/
structure Coherent (context : TimerStoreContext) (known table left taken out : List Timer)
    (store : TimerStore) : Prop where
  inflight_known : ∀ e ∈ store.inflight, e.1 ∈ known
  inflight_stream : ∀ e ∈ store.inflight, context.deduplicateEqualTimestamps e.1.streamId ≠ none
  inflight_unique : ∀ e ∈ store.inflight, ∀ e' ∈ store.inflight, e.1 = e'.1 → e = e'
  taken_iff : ∀ t, (t, .taken) ∈ store.inflight ↔ t ∈ taken
  index_iff : ∀ t, t ∈ store.index ↔ t ∉ out ∧ Indexed context store.inflight t
  index_slots : DistinctSlots store.index
  sorted_new : ∀ t ∈ store.sortedTimers, (t, .new) ∈ store.inflight
  triggered_ready : ∀ t ∈ store.triggeredTimers, (t, .ready) ∈ store.inflight
  deduplicated_ok : ∀ t ∈ store.deduplicated, t ∈ known ∧ t ∉ store.tracked ∧
    Doubled context known t
  queue_known : ∀ m ∈ store.modificationQueue, m.1 ∈ known
  table_known : ∀ t ∈ table, t ∈ known
  left_quiet : ∀ t ∈ left, t ∈ table ∧ t ∉ store.tracked ∧ pending store.modificationQueue t = []
  life : ∀ t ∈ known, Life (t ∈ table) (t ∈ store.tracked) (t ∈ left)
    (pending store.modificationQueue t)

section Coherent

variable {context : TimerStoreContext} {known table left taken out : List Timer}
  {store : TimerStore} {x : Timer}

theorem mem_tracked {t : Timer} : t ∈ store.tracked ↔ ∃ state, (t, state) ∈ store.inflight := by
  simp [TimerStore.tracked]

variable {state : MessageState}

section

variable (h : Coherent context known table left taken out store)

include h

theorem Coherent.index_known :
    ∀ t ∈ store.index, t ∈ known := by
  intro t ht
  obtain ⟨-, -, state, -, he⟩ := (h.index_iff t).mp ht
  exact h.inflight_known _ he

theorem Coherent.tracked_known : ∀ t ∈ store.tracked, t ∈ known :=
  forall_mem_map.mpr h.inflight_known

theorem Coherent.notMem_taken (hx : (x, state) ∈ store.inflight) (hstate : state ≠ .taken) :
    x ∉ taken :=
  fun ht => hstate (congrArg Prod.snd (h.inflight_unique _ hx _ ((h.taken_iff x).mpr ht) rfl))

theorem Coherent.sorted_known :
    ∀ t ∈ store.sortedTimers, t ∈ known :=
  fun t ht => h.inflight_known _ (h.sorted_new t ht)

theorem Coherent.triggered_known :
    ∀ t ∈ store.triggeredTimers, t ∈ known :=
  fun t ht => h.inflight_known _ (h.triggered_ready t ht)

end

theorem mem_unregisterTimerKeyIndex {index : List Timer} {t : Timer} (hk : Distinct known)
    (hs : ∀ t ∈ index, t ∈ known) (hslots : DistinctSlots index) (hx : x ∈ known) :
      t ∈ unregisterTimerKeyIndex x index ↔ t ∈ index ∧ t ≠ x := by
  unfold unregisterTimerKeyIndex
  cases hf : index.find? fun t => decide (t.SameSlot x) with
  | none =>
    refine ⟨fun ht => ⟨ht, ?_⟩, And.left⟩
    rintro rfl
    have := find?_eq_none.mp hf t ht
    simp [Timer.SameSlot] at this
  | some e =>
    have he := mem_of_find?_eq_some hf
    have hsame : e.SameSlot x := by simpa using find?_some hf
    dsimp only
    split_ifs with hid
    · refine ⟨fun ht => ⟨ht, ?_⟩, And.left⟩
      rintro rfl
      exact hid (by rw [hslots e he t ht hsame])
    · have hex : e = x := hk e (hs e he) x hx (not_not.mp hid)
      subst hex
      rw [mem_filter]
      refine and_congr_right fun ht => ?_
      have : t.SameSlot e ↔ t = e := ⟨hslots t ht e he, fun h => h ▸ ⟨rfl, rfl, rfl⟩⟩
      simp [this]

/-! ### Unregistering -/

theorem unregisterOne_spec (hk : Distinct known)
    (h : Coherent context known table left taken out store)
    (hx : (x, state) ∈ store.inflight) (ho : ∀ t ∈ out, t = x) :
    ∃ store', unregisterOne context store x = .ok store' ∧
      Coherent context known table left (taken.filter (· ≠ x)) [] store' ∧
      (∀ e, e ∈ store'.inflight ↔ e ∈ store.inflight ∧ e.1 ≠ x) ∧
        store'.deduplicated = store.deduplicated := by
  have hxk := h.inflight_known _ hx
  have hxt : x ∈ store.tracked := mem_tracked.mpr ⟨state, hx⟩
  have hnot : (store.deduplicated.any fun t => decide (t.messageId = x.messageId)) = false := by
    rw [any_eq_false]
    intro t ht hid
    obtain ⟨htk, htt, -⟩ := h.deduplicated_ok t ht
    exact htt (hk t htk x hxk (of_decide_eq_true hid) ▸ hxt)
  have hf := find_inflight hk h.inflight_known h.inflight_unique hx
  have hin : ∀ e, e ∈ (store.inflight.filter fun entry => !decide (SameMessage entry.1 x)) ↔
      e ∈ store.inflight ∧ e.1 ≠ x := by
    intro e
    rw [mem_filter]
    refine and_congr_right fun he => ?_
    simp [hk.sameMessage (h.inflight_known e he) hxk]
  refine ⟨{ store with
    inflight := store.inflight.filter fun entry => !decide (SameMessage entry.1 x)
    modificationQueue := store.modificationQueue ++ [(x, false)]
    index := unregisterTimerKeyIndex x store.index
    sortedTimers := eraseTimer x store.sortedTimers
    triggeredTimers := eraseTimer x store.triggeredTimers }, ?_, ?_, hin, rfl⟩
  · rw [unregisterOne, if_neg (by rw [hnot]; simp), if_neg (h.inflight_stream _ hx),
      Inflight.unregister, hf]
    rfl
  have htracked : ∀ t, t ∈ (store.inflight.filter fun entry => !decide (SameMessage entry.1 x)).map
      Prod.fst ↔ t ∈ store.tracked ∧ t ≠ x := by
    simp only [mem_tracked, mem_map, Prod.exists, exists_and_right, exists_eq_right, hin, implies_true]
  have hindex : ∀ t, t ∈ unregisterTimerKeyIndex x store.index ↔ t ∈ store.index ∧ t ≠ x :=
    fun t => mem_unregisterTimerKeyIndex hk h.index_known h.index_slots hxk
  constructor
  · exact fun e he => h.inflight_known e ((hin e).mp he).1
  · exact fun e he => h.inflight_stream e ((hin e).mp he).1
  · exact fun e he e' he' => h.inflight_unique e ((hin e).mp he).1 e' ((hin e').mp he').1
  · intro t
    rw [hin, h.taken_iff, mem_filter]
    simp
  · intro t
    rw [hindex, h.index_iff]
    constructor
    · rintro ⟨⟨-, hdedup, st, hst, he⟩, hne⟩
      exact ⟨by simp, hdedup, st, hst, (hin _).mpr ⟨he, hne⟩⟩
    · rintro ⟨-, hdedup, st, hst, he⟩
      obtain ⟨he, hne⟩ := (hin _).mp he
      exact ⟨⟨fun ht => hne (ho t ht), hdedup, st, hst, he⟩, hne⟩
  · intro a ha b hb
    exact h.index_slots a ((hindex a).mp ha).1 b ((hindex b).mp hb).1
  · intro t ht
    obtain ⟨ht, hne⟩ := (hk.mem_eraseTimer h.sorted_known hxk).mp ht
    exact (hin _).mpr ⟨h.sorted_new t ht, hne⟩
  · intro t ht
    obtain ⟨ht, hne⟩ := (hk.mem_eraseTimer h.triggered_known hxk).mp ht
    exact (hin _).mpr ⟨h.triggered_ready t ht, hne⟩
  · intro t ht
    obtain ⟨htk, htt, hd⟩ := h.deduplicated_ok t ht
    exact ⟨htk, fun h' => htt ((htracked t).mp h').1, hd⟩
  · exact forall_mem_append.mpr ⟨h.queue_known, forall_mem_singleton.mpr hxk⟩
  · exact h.table_known
  · intro t ht
    obtain ⟨htable, htt, hp⟩ := h.left_quiet t ht
    refine ⟨htable, fun h' => htt ((htracked t).mp h').1, ?_⟩
    rw [pending_append, hp, if_neg fun hid => htt (hk x hxk t (h.table_known t htable) hid ▸ hxt)]
    rfl
  · intro t htk
    rw [pending_append]
    by_cases htx : t = x
    · subst htx
      rw [if_pos rfl]
      exact (h.life t hxk).erase hxt fun h' => ((htracked t).mp h').2 rfl
    · rw [if_neg fun hid => htx (hk x hxk t htk hid).symm, append_nil]
      exact (h.life t htk).congr ((htracked t).trans (and_iff_left htx))

theorem doUnregister_spec (hk : Distinct known) :
    ∀ {timers taken : List Timer} {store : TimerStore}, Coherent context known table left taken
      [] store → timers.Nodup → (∀ t ∈ timers, t ∈ taken) →
      ∃ store', store.doUnregister context timers = .ok store' ∧
        Coherent context known table left (taken.filter (· ∉ timers)) [] store'
  | [], taken, store, h, _, _ => ⟨store, rfl, by simpa using h⟩
  | t :: timers, taken, store, h, hnodup, hs => by
    have ht := (h.taken_iff t).mpr (hs t (by simp))
    obtain ⟨store₁, ho, h₁, -, -⟩ := unregisterOne_spec hk h ht (by simp)
    obtain ⟨hnew, hnodup⟩ := nodup_cons.mp hnodup
    obtain ⟨store', hr, h'⟩ := doUnregister_spec hk h₁ hnodup fun k hkt =>
      mem_filter.mpr ⟨hs k (by simp [hkt]), by simpa using fun he : k = t => hnew (he ▸ hkt)⟩
    refine ⟨store', ?_, ?_⟩
    · unfold doUnregister at hr ⊢
      rw [foldlM_cons, ho, ok_bind, hr]
    · rw [filter_filter] at h'
      simpa [mem_cons, not_or, Bool.and_comm] using h'

/-! ### Registering -/

theorem dropDuplicate_spec (hk : Distinct known)
    (h : Coherent context known table left taken out store)
    (hx : (x, state) ∈ store.inflight) (hstate : state ≠ .taken) (hout : ∀ t ∈ out, t = x)
    (hd : Doubled context known x) : ∃ store', dropDuplicate context x store = .ok store' ∧
      Coherent context known table left taken [] store' ∧ ∀ t, t ∈ store.tracked ∨
        t ∈ store.deduplicated → t ∈ store'.tracked ∨ t ∈ store'.deduplicated := by
  obtain ⟨store', hone, h', hin, hsame⟩ := unregisterOne_spec hk h hx hout
  have hkeep : taken.filter (· ≠ x) = taken :=
    filter_eq_self.mpr fun t ht => by simpa using fun he : t = x => h.notMem_taken hx hstate (he ▸ ht)
  rw [hkeep] at h'
  refine ⟨{ store' with deduplicated := store'.deduplicated ++ [x] }, ?_, ?_, ?_⟩
  · rw [dropDuplicate, doUnregister, foldlM_cons, hone]
    rfl
  · refine { h' with deduplicated_ok :=
      forall_mem_append.mpr ⟨h'.deduplicated_ok, forall_mem_singleton.mpr ?_⟩ }
    refine ⟨h.inflight_known _ hx, fun htr => ?_, hd⟩
    obtain ⟨st, he⟩ := mem_tracked.mp htr
    exact ((hin _).mp he).2 rfl
  · rintro t (ht | ht)
    · by_cases htx : t = x
      · exact .inr (by simp [htx])
      · obtain ⟨st, he⟩ := mem_tracked.mp ht
        exact .inl (mem_tracked.mpr ⟨st, (hin _).mpr ⟨he, htx⟩⟩)
    · exact .inr (by simp [hsame, ht])

section

variable (hk : Distinct known) (h : Coherent context known table left taken [] store)
  (hfresh : ∀ t ∈ known, t.messageId ≠ x.messageId)
    (hstream : context.deduplicateEqualTimestamps x.streamId ≠ none)

include hk h hfresh hstream

/-- A new timer enters the tracker; the index is still to be chosen. -/
theorem insertOne_spec : ∃ store', store.insertOne x = .ok store' ∧ store'.index = store.index ∧
      store'.deduplicated = store.deduplicated ∧
      (∀ e, e ∈ store'.inflight ↔ e ∈ store.inflight ∨ e = (x, .new)) ∧
      ∀ index out, (∀ t, t ∈ index ↔ t ∉ out ∧ Indexed context store'.inflight t) →
        DistinctSlots index → Coherent context (x :: known) table left taken out
          { store' with index } := by
  have hxk : x ∉ known := fun hx => hfresh x hx rfl
  have hin : ∀ e, e ∈ store.inflight ++ [(x, .new)] ↔ e ∈ store.inflight ∨ e = (x, .new) := by simp
  have hne : ∀ e ∈ store.inflight, e.1 ≠ x := fun e he hex => hxk (hex ▸ h.inflight_known e he)
  have htracked : ∀ t, t ∈ (store.inflight ++ [(x, MessageState.new)]).map Prod.fst ↔
      t ∈ store.tracked ∨ t = x := by
    simp [TimerStore.tracked]
  have hold : ∀ t ∈ known, (t ∈ (store.inflight ++ [(x, MessageState.new)]).map Prod.fst ↔
      t ∈ store.tracked) :=
    fun t ht => (htracked t).trans (or_iff_left fun he => hxk (he ▸ ht))
  refine ⟨{ store with
    inflight := store.inflight ++ [(x, .new)]
    sortedTimers := insertTimer x store.sortedTimers
    modificationQueue := store.modificationQueue ++ [(x, true)] }, ?_, rfl, rfl, hin, ?_⟩
  · rw [insertOne, Inflight.register, find_inflight_fresh h.inflight_known hfresh]
    rfl
  intro index out hindex hslots
  constructor
  · refine forall_mem_append.mpr ⟨fun e he => mem_cons_of_mem _ (h.inflight_known e he), ?_⟩
    exact forall_mem_singleton.mpr mem_cons_self
  · exact forall_mem_append.mpr ⟨h.inflight_stream, forall_mem_singleton.mpr hstream⟩
  · exact unique_insert (fun _ _ => Eq.symm) (fun e => (hin e).mp) h.inflight_unique hne
  · intro t
    rw [hin, h.taken_iff]
    simp
  · exact hindex
  · exact hslots
  · intro t ht
    have hsub : ∀ t ∈ store.sortedTimers, t ∈ x :: known :=
      fun t ht => mem_cons_of_mem _ (h.sorted_known t ht)
    rcases ((hk.cons hfresh).mem_insertTimer hsub mem_cons_self).mp ht with rfl | ht
    · exact (hin _).mpr (.inr rfl)
    · exact (hin _).mpr (.inl (h.sorted_new t ht))
  · exact fun t ht => (hin _).mpr (.inl (h.triggered_ready t ht))
  · intro t ht
    obtain ⟨htk, htt, hstream, t', ht', hd⟩ := h.deduplicated_ok t ht
    exact ⟨mem_cons_of_mem _ htk, mt (hold t htk).mp htt, hstream, t', mem_cons_of_mem _ ht', hd⟩
  · refine forall_mem_append.mpr ⟨fun m hm => mem_cons_of_mem _ (h.queue_known m hm), ?_⟩
    exact forall_mem_singleton.mpr mem_cons_self
  · exact fun t ht => mem_cons_of_mem _ (h.table_known t ht)
  · intro t ht
    obtain ⟨htable, htt, hp⟩ := h.left_quiet t ht
    have htk := h.table_known t htable
    refine ⟨htable, mt (hold t htk).mp htt, ?_⟩
    rw [pending_append, hp, if_neg (hfresh t htk).symm]
    rfl
  · intro t htk
    rw [pending_append]
    rcases mem_cons.mp htk with rfl | htk
    · rw [pending_eq_nil h.queue_known hfresh, if_pos rfl]
      exact .added (fun ht => hxk (h.table_known t ht)) ((htracked t).mpr (.inr rfl))
    · rw [if_neg (hfresh t htk).symm, append_nil]
      exact (h.life t htk).congr (hold t htk)

theorem registerOne_spec : ∃ store', registerOne context store x = .ok store' ∧
      Coherent context (x :: known) table left taken [] store' ∧ ∀ t, t = x ∨ t ∈ store.tracked ∨
        t ∈ store.deduplicated → t ∈ store'.tracked ∨ t ∈ store'.deduplicated := by
  have hxk : x ∉ known := fun hx => hfresh x hx rfl
  have hk' := hk.cons hfresh
  obtain ⟨inserted, hinsert, hindex, hdedup, hin, hcoherent⟩ := insertOne_spec hk h hfresh hstream
  have hcover : ∀ t, t = x ∨ t ∈ store.tracked ∨ t ∈ store.deduplicated →
      t ∈ inserted.tracked ∨ t ∈ inserted.deduplicated := by
    rintro t (rfl | ht | ht)
    · exact .inl (mem_tracked.mpr ⟨.new, (hin _).mpr (.inr rfl)⟩)
    · obtain ⟨st, he⟩ := mem_tracked.mp ht
      exact .inl (mem_tracked.mpr ⟨st, (hin _).mpr (.inl he)⟩)
    · exact .inr (hdedup ▸ ht)
  have hxin : (x, MessageState.new) ∈ inserted.inflight := (hin _).mpr (.inr rfl)
  -- the timers that the index shall hold
  have hindexed : ∀ t, Indexed context inserted.inflight t ↔
      t = x ∧ context.deduplicateEqualTimestamps x.streamId = some true ∨ t ∈ store.index := by
    intro t
    rw [h.index_iff]
    constructor
    · rintro ⟨hd, st, hst, he⟩
      rcases (hin _).mp he with he | he
      · exact .inr ⟨by simp, hd, st, hst, he⟩
      · obtain ⟨rfl, -⟩ := Prod.mk.inj he
        exact .inl ⟨rfl, hd⟩
    · rintro (⟨rfl, hd⟩ | ⟨-, hd, st, hst, he⟩)
      · exact ⟨hd, .new, by simp, hxin⟩
      · exact ⟨hd, st, hst, (hin _).mpr (.inl he)⟩
  have hxindex : x ∉ store.index := fun hx => hxk (h.index_known x hx)
  rw [registerOne, if_neg hstream, hinsert, ok_bind]
  unfold registerTimerKeyIndex
  match hspec : context.deduplicateEqualTimestamps x.streamId with
  | none => exact absurd hspec hstream
  | some false =>
    refine ⟨inserted, rfl, hcoherent inserted.index [] ?_ ?_, hcover⟩
    · simp [hindex, hindexed, hspec]
    · rw [hindex]
      exact h.index_slots
  | some true =>
    rw [hindex]
    cases hf : store.index.find? fun t => decide (t.SameSlot x) with
    | none =>
      have hfree : ∀ t ∈ store.index, ¬t.SameSlot x :=
        fun t ht => by simpa using find?_eq_none.mp hf t ht
      refine ⟨_, rfl, hcoherent (store.index ++ [x]) [] ?_ ?_, hcover⟩
      · simp [hindexed, hspec, or_comm]
      · exact h.index_slots.append hfree
    | some existing =>
      have he := mem_of_find?_eq_some hf
      have hsame : existing.SameSlot x := by simpa using find?_some hf
      have hne : existing ≠ x := fun hex => hxindex (hex ▸ he)
      dsimp only
      split_ifs
      · -- the new timer takes the place of the other one
        set rest := store.index.filter fun t => !decide (t.SameSlot x)
        have hmem : ∀ t, t ∈ rest ↔ t ∈ store.index ∧ t ≠ existing := by
          intro t
          rw [mem_filter]
          refine and_congr_right fun ht => ?_
          have : t.SameSlot x ↔ t = existing :=
            ⟨fun hts => h.index_slots t ht existing he (hts.trans hsame.symm), fun h => h ▸ hsame⟩
          simp [this]
        have hfree : ∀ t ∈ rest, ¬t.SameSlot x := fun t ht => by simpa using (mem_filter.mp ht).2
        obtain ⟨-, hd, st, hst, hin'⟩ := (h.index_iff existing).mp he
        have hmid := hcoherent (rest ++ [x]) [existing] ?_ ?_
        · obtain ⟨store', hdrop, h', hcover'⟩ := dropDuplicate_spec hk' hmid
            ((hin _).mpr (.inl hin')) hst (by simp) ⟨hd, x, mem_cons_self, hne.symm, hsame.symm⟩
          exact ⟨store', hdrop, h', fun t ht => hcover' t (hcover t ht)⟩
        · intro t
          rw [mem_append, hmem, hindexed]
          by_cases htx : t = x
          · simp [htx, hspec, hne.symm]
          · simp [htx, and_comm]
        · refine DistinctSlots.append (fun a ha b hb => ?_) hfree
          exact h.index_slots a ((hmem a).mp ha).1 b ((hmem b).mp hb).1
      · have hmid := hcoherent inserted.index [x] ?_ ?_
        · obtain ⟨store', hdrop, h', hcover'⟩ := dropDuplicate_spec hk' hmid hxin (by simp)
            (by simp) ⟨hspec, existing, mem_cons_of_mem _ (h.index_known existing he), hne, hsame⟩
          exact ⟨store', hdrop, h', fun t ht => hcover' t (hcover t ht)⟩
        · intro t
          rw [hindex, hindexed]
          by_cases htx : t = x
          · simp [htx, hxindex]
          · simp [htx]
        · rw [hindex]
          exact h.index_slots

end

theorem Coherent.congr_known {known' : List Timer}
    (h : Coherent context known table left taken out store)
    (hmem : ∀ t, t ∈ known' ↔ t ∈ known) : Coherent context known' table left taken out store :=
  { h with
    inflight_known := fun e he => (hmem _).mpr (h.inflight_known e he)
    deduplicated_ok := fun t ht => by
      obtain ⟨htk, htt, hstream, t', ht', hd⟩ := h.deduplicated_ok t ht
      exact ⟨(hmem _).mpr htk, htt, hstream, t', (hmem _).mpr ht', hd⟩
    queue_known := fun m hm => (hmem _).mpr (h.queue_known m hm)
    table_known := fun t ht => (hmem _).mpr (h.table_known t ht)
    life := fun t ht => h.life t ((hmem _).mp ht) }

theorem register_spec : ∀ {timers known : List Timer} {store : TimerStore}, Distinct known →
    Coherent context known table left taken [] store → (timers.map Timer.messageId).Nodup →
    (∀ x ∈ timers, ∀ t ∈ known, t.messageId ≠ x.messageId) →
    (∀ x ∈ timers, context.deduplicateEqualTimestamps x.streamId ≠ none) →
    ∃ store', store.register context timers = .ok store' ∧ Distinct (timers ++ known) ∧
      Coherent context (timers ++ known) table left taken [] store' ∧ ∀ t, t ∈ timers ∨
        t ∈ store.tracked ∨ t ∈ store.deduplicated → t ∈ store'.tracked ∨ t ∈ store'.deduplicated
  | [], known, store, hk, h, _, _, _ => ⟨store, rfl, hk, h, fun t ht => by simpa using ht⟩
  | x :: timers, known, store, hk, h, hnodup, hfresh, hstream => by
    obtain ⟨hnew, hnodup⟩ := nodup_cons.mp hnodup
    obtain ⟨store₁, ho, h₁, hcover₁⟩ := registerOne_spec hk h (hfresh x (by simp)) (hstream x (by simp))
    have hf : ∀ y ∈ timers, ∀ t ∈ x :: known, t.messageId ≠ y.messageId := fun y hy =>
      forall_mem_cons.mpr ⟨fun hid => hnew (mem_map.mpr ⟨y, hy, hid.symm⟩), hfresh y (by simp [hy])⟩
    obtain ⟨store', hr, hk', h', hcover'⟩ :=
      register_spec (hk.cons (hfresh x (by simp))) h₁ hnodup hf fun y hy => hstream y (by simp [hy])
    have hm : ∀ t, t ∈ x :: timers ++ known ↔ t ∈ timers ++ x :: known := by
      simp only [cons_append, mem_cons, mem_append]
      tauto
    refine ⟨store', ?_, ?_, h'.congr_known hm, fun t ht => ?_⟩
    · unfold register at hr ⊢
      rw [foldlM_cons, ho, ok_bind, hr]
    · exact fun a ha b hb => hk' a ((hm a).mp ha) b ((hm b).mp hb)
    · rcases ht with ht | ht
      · rcases mem_cons.mp ht with rfl | ht
        · exact hcover' t (.inr (hcover₁ t (.inl rfl)))
        · exact hcover' t (.inl ht)
      · exact hcover' t (.inr (hcover₁ t (.inr ht)))

end Coherent

end Ytsaurus.Flow.Timers
