/-
# Intervals of the key visitor store as a tiling

The slots of a bucket refer to objects of the heap. Read through the heap they are a labelled tiling
of the bucket's range, and `MarkRange` repaints it (`markRange_spec`): the slots own their objects,
so a change of one object is seen through one slot only (`Owned`, `Step`).

Objects of committed slots can only grow while no committed slot meets the marked range (`Keeps`);
the snapshot of the rows relies on that.
-/
import Ytsaurus.Lib.Tiling
import Ytsaurus.Flow.KeyVisitorStore

namespace Ytsaurus.Flow

open List Lib

variable {κ : Type} [LinearOrder κ]

/-! ### Slots as segments -/

structure SlotLabel where
  state : IntervalState
  passStartedAt : ℕ
  finalPass : Bool

/-- Neighbours coalesce if they agree on the state and on the finality of the pass. -/
def slotOps : FuseOps SlotLabel (IntervalState × Bool) where
  kind label := (label.state, label.finalPass)
  merge label label' := { label with passStartedAt := min label.passStartedAt label'.passStartedAt }
  kind_merge _ _ _ := rfl

def view (heap : Heap κ) (slot : IntervalSlot) : Segment κ SlotLabel :=
  let interval := heap.objects slot.interval
  ⟨interval.lower, interval.upper, slot.state, interval.passStartedAt, interval.finalPass⟩

/-- What marking does to a label. -/
def markLabel (state : IntervalState) (stamp : Option ℕ) (label : SlotLabel) : SlotLabel :=
  { label with state := state, passStartedAt := stamp.getD label.passStartedAt }

/-! ### The heap -/

omit [LinearOrder κ] in
@[simp] theorem set_self (heap : Heap κ) (id : ℕ) (interval : Interval κ) :
    (heap.set id interval).objects id = interval := by simp [Heap.set]

variable {id : ℕ}

section

omit [LinearOrder κ]

theorem set_ne (heap : Heap κ) {id' : ℕ} (interval : Interval κ) (h : id' ≠ id) :
    (heap.set id interval).objects id' = heap.objects id' := by simp [Heap.set, h]

@[simp] theorem set_next (heap : Heap κ) (id : ℕ) (interval : Interval κ) :
    (heap.set id interval).next = heap.next := rfl

@[simp] theorem alloc_self (heap : Heap κ) (interval : Interval κ) :
    (heap.alloc interval).objects heap.next = interval := by simp [Heap.alloc]

theorem alloc_ne (heap : Heap κ) (interval : Interval κ) (h : id ≠ heap.next) :
    (heap.alloc interval).objects id = heap.objects id := by simp [Heap.alloc, h]

end

/-- The slots refer to different objects that exist. -/
structure Owned (heap : Heap κ) (slots : List IntervalSlot) : Prop where
  nodup : (slots.map IntervalSlot.interval).Nodup
  exist : ∀ slot ∈ slots, slot.interval < heap.next

def RefersTo (slots : List IntervalSlot) (id : ℕ) : Prop := ∃ slot ∈ slots, slot.interval = id

/-- What an operation on slots may do: it changes and drops objects of the slots and creates new
ones. -/
structure Step (heap : Heap κ) (slots : List IntervalSlot) (heap' : Heap κ)
    (slots' : List IntervalSlot) : Prop where
  next_le : heap.next ≤ heap'.next
  owned : Owned heap' slots'
  origin : ∀ slot ∈ slots', RefersTo slots slot.interval ∨ heap.next ≤ slot.interval
  frame : ∀ id < heap.next, ¬RefersTo slots id → heap'.objects id = heap.objects id

variable {slot : IntervalSlot}

section Steps

omit [LinearOrder κ]

theorem refersTo_append {slots slots' : List IntervalSlot} {id : ℕ} :
    RefersTo (slots ++ slots') id ↔ RefersTo slots id ∨ RefersTo slots' id := by
  simp [RefersTo, or_and_right, exists_or]

variable {slot : IntervalSlot}

theorem refersTo_cons {slots : List IntervalSlot} {id : ℕ} :
    RefersTo (slot :: slots) id ↔ slot.interval = id ∨ RefersTo slots id := by
  simp [RefersTo]

variable {heap heap' heap'' : Heap κ} {slots slots' slots'' : List IntervalSlot}

theorem owned_append : Owned heap (slots ++ slots') ↔
    Owned heap slots ∧ Owned heap slots' ∧ ∀ slot ∈ slots, ¬RefersTo slots' slot.interval := by
  constructor
  · rintro ⟨hn, hexists⟩
    rw [map_append, nodup_append] at hn
    refine ⟨⟨hn.1, fun s hs => hexists s (mem_append_left _ hs)⟩,
      ⟨hn.2.1, fun s hs => hexists s (mem_append_right _ hs)⟩, ?_⟩
    rintro s hs ⟨t, ht, heq⟩
    exact hn.2.2 _ (mem_map_of_mem hs) _ (mem_map_of_mem ht) heq.symm
  · rintro ⟨h, h', hd⟩
    refine ⟨?_, fun s hs => (mem_append.mp hs).elim (h.exist s) (h'.exist s)⟩
    rw [map_append, nodup_append]
    refine ⟨h.nodup, h'.nodup, fun id hid id' hid' heq => ?_⟩
    obtain ⟨s, hs, rfl⟩ := mem_map.mp hid
    obtain ⟨t, ht, rfl⟩ := mem_map.mp hid'
    exact hd s hs ⟨t, ht, heq.symm⟩

theorem owned_cons : Owned heap (slot :: slots) ↔
    slot.interval < heap.next ∧ Owned heap slots ∧ ¬RefersTo slots slot.interval := by
  rw [show slot :: slots = [slot] ++ slots from rfl, owned_append, forall_mem_singleton]
  refine and_congr_left fun _ => ⟨fun h => h.exist slot (mem_singleton_self _), fun h => ⟨?_, ?_⟩⟩
  · simp
  · simpa using h

theorem Owned.mono (h : Owned heap slots) (hn : heap.next ≤ heap'.next) : Owned heap' slots :=
  ⟨h.nodup, fun s hs => (h.exist s hs).trans_le hn⟩

theorem Owned.set (h : Owned heap slots) (id : ℕ) (interval : Interval κ) :
    Owned (heap.set id interval) slots :=
  ⟨h.nodup, h.exist⟩

theorem Owned.drop_second {slot' : IntervalSlot} (h : Owned heap (slot :: slot' :: slots)) :
    Owned heap (slot :: slots) := by
  obtain ⟨hlt, ht, ho⟩ := owned_cons.mp h
  exact owned_cons.mpr ⟨hlt, (owned_cons.mp ht).2.1, fun hs => ho (refersTo_cons.mpr (.inr hs))⟩

theorem view_set (ho : ¬RefersTo slots id) (interval : Interval κ) (hs : slot ∈ slots) :
    view (heap.set id interval) slot = view heap slot := by
  unfold view
  rw [set_ne _ _ fun heq => ho ⟨slot, hs, heq⟩]

theorem Step.refl (h : Owned heap slots) : Step heap slots heap slots :=
  ⟨le_rfl, h, fun s hs => .inl ⟨s, hs, rfl⟩, fun _ _ _ => rfl⟩

theorem Step.trans (h : Step heap slots heap' slots') (h' : Step heap' slots' heap'' slots'') :
    Step heap slots heap'' slots'' where
  next_le := h.next_le.trans h'.next_le
  owned := h'.owned
  origin := by
    intro s hs
    rcases h'.origin s hs with ⟨t, ht, heq⟩ | hn
    · exact heq ▸ h.origin t ht
    · exact .inr (h.next_le.trans hn)
  frame := by
    intro id hid ho
    rw [h'.frame id (hid.trans_le h.next_le), h.frame id hid ho]
    rintro ⟨t, ht, rfl⟩
    exact (h.origin t ht).elim ho (not_le.mpr hid)

section

variable (h : Step heap slots heap' slots')

include h

/-- Slots on both sides are not affected. -/
theorem Step.within (pre post : List IntervalSlot) (hown : Owned heap (pre ++ slots ++ post)) :
      Step heap (pre ++ slots ++ post) heap' (pre ++ slots' ++ post) := by
  obtain ⟨hl, hpost, hd⟩ := owned_append.mp hown
  obtain ⟨hpre, hslots, hd'⟩ := owned_append.mp hl
  refine ⟨h.next_le, ?_, ?_, ?_⟩
  · refine owned_append.mpr
      ⟨owned_append.mpr ⟨hpre.mono h.next_le, h.owned, ?_⟩, hpost.mono h.next_le, ?_⟩
    · rintro s hs ⟨t, ht, heq⟩
      rcases h.origin t ht with horigin | hn
      · exact hd' s hs (heq ▸ horigin)
      · exact absurd (hpre.exist s hs) (not_lt.mpr (heq ▸ hn))
    · rintro s hs ⟨t, ht, heq⟩
      rcases mem_append.mp hs with hs | hs
      · exact hd s (mem_append_left _ hs) ⟨t, ht, heq⟩
      · rcases h.origin s hs with ⟨s', hs', heq'⟩ | hn
        · exact hd s' (mem_append_right _ hs') ⟨t, ht, heq.trans heq'.symm⟩
        · exact absurd (hpost.exist t ht) (not_lt.mpr (heq ▸ hn))
  · intro s hs
    rw [refersTo_append, refersTo_append]
    rcases mem_append.mp hs with hs | hs
    · rcases mem_append.mp hs with hs | hs
      · exact .inl (.inl (.inl ⟨s, hs, rfl⟩))
      · exact (h.origin s hs).imp (fun h => .inl (.inr h)) id
    · exact .inl (.inr ⟨s, hs, rfl⟩)
  · intro id hid hout
    rw [refersTo_append, refersTo_append] at hout
    exact h.frame id hid fun h => hout (.inl (.inr h))

theorem Step.append_right {post : List IntervalSlot}
    (ho : Owned heap (slots ++ post)) : Step heap (slots ++ post) heap' (slots' ++ post) := by
  simpa using h.within [] post ho

theorem Step.append_left (pre : List IntervalSlot)
    (ho : Owned heap (pre ++ slots)) : Step heap (pre ++ slots) heap' (pre ++ slots') := by
  simpa using h.within pre [] (by simpa using ho)

theorem Step.cons (ho : Owned heap (slot :: slots)) :
    Step heap (slot :: slots) heap' (slot :: slots') :=
  h.append_left [slot] ho

theorem Step.view_eq (slot : IntervalSlot) (hlt : slot.interval < heap.next)
    (ho : ¬RefersTo slots slot.interval) : view heap' slot = view heap slot := by
  unfold view
  rw [h.frame _ hlt ho]

theorem Step.map_view_eq {others : List IntervalSlot}
    (hlt : ∀ slot ∈ others, slot.interval < heap.next ∧ ¬RefersTo slots slot.interval) :
    others.map (view heap') = others.map (view heap) :=
  map_congr_left fun slot hs => h.view_eq slot (hlt slot hs).1 (hlt slot hs).2

end

theorem Step.set (hown : Owned heap (slot :: slots)) (interval : Interval κ)
    (state : IntervalState) : Step heap (slot :: slots) (heap.set slot.interval interval)
      ({ slot with state := state } :: slots) := by
  obtain ⟨hlt, ht, hout⟩ := owned_cons.mp hown
  refine ⟨le_rfl, owned_cons.mpr ⟨hlt, ⟨ht.nodup, ht.exist⟩, hout⟩, fun s hs =>
    .inl ?_, fun id _ hid => ?_⟩
  · rw [refersTo_cons]
    rcases mem_cons.mp hs with rfl | hs
    · exact .inl rfl
    · exact .inr ⟨s, hs, rfl⟩
  · rw [refersTo_cons, not_or] at hid
    exact set_ne heap interval (Ne.symm hid.1)

/-- An operation on slots with what is seen through the slots afterwards. -/
structure Seen (heap : Heap κ) (slots : List IntervalSlot) (result : Heap κ × List IntervalSlot)
    (segments : List (Segment κ SlotLabel)) : Prop where
  step : Step heap slots result.1 result.2
  view_eq : result.2.map (view result.1) = segments

theorem Seen.refl (h : Owned heap slots) : Seen heap slots (heap, slots) (slots.map (view heap)) :=
  ⟨.refl h, rfl⟩

theorem Seen.cons {result : Heap κ × List IntervalSlot} {segs : List (Segment κ SlotLabel)}
    (h : Seen heap slots result segs) (ho : Owned heap (slot :: slots)) :
    Seen heap (slot :: slots) (result.1, slot :: result.2) (view heap slot :: segs) := by
  obtain ⟨hlt, -, hout⟩ := owned_cons.mp ho
  refine ⟨h.step.cons ho, ?_⟩
  rw [map_cons, h.view_eq, h.step.view_eq slot hlt hout]

end Steps

/-! ### `SplitAt` -/

theorem splitAt_spec (key : κ) (heap : Heap κ) : ∀ slots : List IntervalSlot, Owned heap slots →
    Seen heap slots (splitAt key heap slots) (cutAt key (slots.map (view heap)))
  | [], h => .refl h
  | slot :: slots, h => by
    obtain ⟨hlt, ht, ho⟩ := owned_cons.mp h
    rw [map_cons, splitAt, cutAt]
    dsimp only [view]
    split_ifs with h1 h2
    · simp only [h1, ↓reduceIte]
      exact (splitAt_spec key heap slots ht).cons h
    · simp only [h1, h2, ↓reduceIte]
      exact .refl h
    · simp only [h1, h2, ↓reduceIte]
      refine ⟨⟨Nat.le_succ _, owned_cons.mpr
        ⟨Nat.lt_succ_of_lt hlt, owned_cons.mpr ⟨Nat.lt_succ_self _, ?_, ?_⟩, ?_⟩, ?_, ?_⟩, ?_⟩
      · exact ht.mono (Nat.le_succ _)
      · rintro ⟨s, hs, heq⟩
        exact (ht.exist s hs).ne heq
      · rw [refersTo_cons, not_or]
        exact ⟨hlt.ne', ho⟩
      · intro s hs
        rw [refersTo_cons]
        rcases mem_cons.mp hs with rfl | hs
        · exact .inl (.inl rfl)
        · rcases mem_cons.mp hs with rfl | hs
          · exact .inr le_rfl
          · exact .inl (.inr ⟨s, hs, rfl⟩)
      · intro id hid ho'
        rw [refersTo_cons, not_or] at ho'
        rw [set_ne _ _ (Ne.symm ho'.1), alloc_ne _ _ hid.ne]
      · have hv : ∀ s ∈ slots, view ((heap.alloc { heap.objects slot.interval with lower := key }).set
            slot.interval { heap.objects slot.interval with upper := key }) s = view heap s := by
          intro s hs
          unfold view
          rw [set_ne _ _ fun heq => ho ⟨s, hs, heq⟩, alloc_ne _ _ (ht.exist s hs).ne]
        rw [map_cons, map_cons, map_congr_left hv]
        unfold view
        rw [set_self, set_ne _ _ hlt.ne', alloc_self]

/-! ### The marking loop -/

theorem markSlots_spec (range : κ × κ) (state : IntervalState) (stamp : Option ℕ) :
    ∀ (slots : List IntervalSlot) (heap : Heap κ), Owned heap slots →
      Seen heap slots (markSlots range state stamp heap slots)
        (paint range (markLabel state stamp) (slots.map (view heap)))
  | [], _, h => .refl h
  | slot :: slots, heap, h => by
    obtain ⟨-, ht, ho⟩ := owned_cons.mp h
    rw [map_cons, markSlots, paint]
    dsimp only [view]
    split_ifs with h1 h2
    · simp only [h1, ↓reduceIte]
      exact (markSlots_spec range state stamp slots heap ht).cons h
    · simp only [h1, h2, ↓reduceIte]
      exact .refl h
    · simp only [h1, h2, ↓reduceIte]
      have hset := Step.set h { heap.objects slot.interval with
        passStartedAt := stamp.getD (heap.objects slot.interval).passStartedAt } state
      have hr :=
        (markSlots_spec range state stamp slots _ (owned_cons.mp hset.owned).2.1).cons hset.owned
      rw [map_congr_left fun _ => view_set ho _, view, set_self] at hr
      exact ⟨hset.trans hr.step, hr.view_eq⟩

/-! ### Coalescing -/

theorem coalesceLoop_spec : ∀ (slots : List IntervalSlot) (heap : Heap κ) (slot : IntervalSlot),
    Owned heap (slot :: slots) → Seen heap (slot :: slots) (coalesceLoop heap slot slots)
        (fuseLoop slotOps (view heap slot) (slots.map (view heap)))
  | [], _, _, h => .refl h
  | slot' :: slots, heap, slot, h => by
    obtain ⟨-, ht, -⟩ := owned_cons.mp h
    rw [map_cons, coalesceLoop, fuseLoop]
    have hif : ((view heap slot).upper = (view heap slot').lower ∧
        slotOps.kind (view heap slot).label = slotOps.kind (view heap slot').label) ↔
        slot.state = slot'.state ∧ (heap.objects slot.interval).upper =
            (heap.objects slot'.interval).lower ∧
          (heap.objects slot.interval).finalPass = (heap.objects slot'.interval).finalPass :=
      ⟨fun h => ⟨congrArg Prod.fst h.2, h.1, congrArg Prod.snd h.2⟩, fun h =>
        ⟨h.2.1, Prod.ext h.1 h.2.2⟩⟩
    simp only [hif]
    split_ifs
    · -- the second slot is dropped, the object of the first is written
      have hset := Step.set h.drop_second { heap.objects slot.interval with
        upper := (heap.objects slot'.interval).upper,
        passStartedAt := min (heap.objects slot.interval).passStartedAt
          (heap.objects slot'.interval).passStartedAt }
        slot.state
      have hloop := coalesceLoop_spec slots _ slot hset.owned
      have hr := hset.trans hloop.step
      refine ⟨⟨hr.next_le, hr.owned, fun s hs => (hr.origin s hs).imp_left fun hs =>
        ?_, fun id hid hid' => ?_⟩, ?_⟩
      · rw [refersTo_cons] at hs ⊢
        exact hs.imp_right fun hs => refersTo_cons.mpr (.inr hs)
      · rw [refersTo_cons, refersTo_cons, not_or, not_or] at hid'
        exact hr.frame id hid fun hs => (refersTo_cons.mp hs).elim hid'.1 hid'.2.2
      · obtain ⟨-, -, ho'⟩ := owned_cons.mp h.drop_second
        rw [hloop.view_eq, map_congr_left fun _ => view_set ho' _, view, set_self]
        rfl
    · exact (coalesceLoop_spec slots heap slot' ht).cons h

variable {heap : Heap κ} {slots : List IntervalSlot}

theorem coalesceInplace_spec (h : Owned heap slots) :
    Seen heap slots (coalesceInplace heap slots) (fuse slotOps (slots.map (view heap))) := by
  cases slots with
  | nil => exact .refl h
  | cons slot slots => exact coalesceLoop_spec slots heap slot h

/-! ### `MarkRange` -/

theorem markRange_spec (range : κ × κ) (state : IntervalState) (stamp : Option ℕ)
    (h : Owned heap slots) : Seen heap slots (markRange range state stamp heap slots)
      (repaint slotOps range (markLabel state stamp) (slots.map (view heap))) := by
  unfold markRange repaint paintRange
  split_ifs
  · have h1 := splitAt_spec range.1 heap slots h
    have h2 := splitAt_spec range.2 _ _ h1.step.owned
    have h3 := markSlots_spec range state stamp _ _ h2.step.owned
    have h4 := coalesceInplace_spec h3.step.owned
    refine ⟨h1.step.trans (h2.step.trans (h3.step.trans h4.step)), ?_⟩
    rw [h4.view_eq, h3.view_eq, h2.view_eq, h1.view_eq]
  · exact .refl h

/-! ### Objects of committed slots -/

/-- An interval grew at its upper end, if it changed at all. -/
structure Grows (interval interval' : Interval κ) : Prop where
  lower_eq : interval'.lower = interval.lower
  final_eq : interval'.finalPass = interval.finalPass
  grown : interval' = interval ∨ interval.upper < interval'.upper ∧
    interval'.passStartedAt ≤ interval.passStartedAt

theorem Grows.refl (interval : Interval κ) : Grows interval interval := ⟨rfl, rfl, .inl rfl⟩

theorem Grows.trans {a b c : Interval κ} (h : Grows a b) (h' : Grows b c) : Grows a c := by
  refine ⟨h'.lower_eq.trans h.lower_eq, h'.final_eq.trans h.final_eq, ?_⟩
  rcases h.grown with rfl | ⟨h1, h2⟩
  · exact h'.grown
  · rcases h'.grown with rfl | ⟨h3, h4⟩
    · exact .inr ⟨h1, h2⟩
    · exact .inr ⟨h1.trans h3, h4.trans h2⟩

variable {a b : Interval κ}

theorem Grows.upper_le (h : Grows a b) : a.upper ≤ b.upper := by
  rcases h.grown with rfl | h
  · exact le_rfl
  · exact h.1.le

theorem Grows.passStartedAt_le (h : Grows a b) : b.passStartedAt ≤ a.passStartedAt := by
  rcases h.grown with rfl | h
  · exact le_rfl
  · exact h.2

theorem Grows.eq_of_upper_eq (h : Grows a b) (hu : a.upper = b.upper) : b = a :=
  h.grown.resolve_right fun h => h.1.ne hu

/-- Slots refer to the object only as to a committed interval, if at all. -/
def Settled (slots : List IntervalSlot) (id : ℕ) : Prop :=
  ∀ slot ∈ slots, slot.interval = id → slot.state = .committed

/-- Settled objects only grow and stay settled. -/
def Keeps (heap : Heap κ) (slots : List IntervalSlot) (heap' : Heap κ)
    (slots' : List IntervalSlot) : Prop :=
  ∀ id < heap.next, Settled slots id → Grows (heap.objects id) (heap'.objects id) ∧
    Settled slots' id

theorem settled_cons : Settled (slot :: slots) id ↔ (slot.interval = id → slot.state = .committed) ∧
      Settled slots id :=
  forall_mem_cons

theorem settled_append {slots' : List IntervalSlot} :
    Settled (slots ++ slots') id ↔ Settled slots id ∧ Settled slots' id := by
  simp only [Settled, mem_append, or_imp, forall_and]

section Keeps

variable {heap heap' heap'' : Heap κ} {slots slots' slots'' : List IntervalSlot}

theorem Keeps.refl : Keeps heap slots heap slots := fun _ _ h => ⟨Grows.refl _, h⟩

theorem Keeps.trans (hn : heap.next ≤ heap'.next) (h : Keeps heap slots heap' slots')
    (h' : Keeps heap' slots' heap'' slots'') : Keeps heap slots heap'' slots'' := by
  intro id hid hs
  obtain ⟨hg, hs'⟩ := h id hid hs
  obtain ⟨hg', hs''⟩ := h' id (hid.trans_le hn) hs'
  exact ⟨hg.trans hg', hs''⟩

variable (h : Keeps heap slots heap' slots')

include h

theorem Keeps.append_right (post : List IntervalSlot) :
    Keeps heap (slots ++ post) heap' (slots' ++ post) := by
  intro id hid hs
  rw [settled_append] at hs ⊢
  obtain ⟨hg, hs'⟩ := h id hid hs.1
  exact ⟨hg, hs', hs.2⟩

theorem Keeps.append_left (pre : List IntervalSlot) :
    Keeps heap (pre ++ slots) heap' (pre ++ slots') := by
  intro id hid hs
  rw [settled_append] at hs ⊢
  obtain ⟨hg, hs'⟩ := h id hid hs.2
  exact ⟨hg, hs.1, hs'⟩

theorem Keeps.cons :
    Keeps heap (slot :: slots) heap' (slot :: slots') :=
  h.append_left [slot]

end Keeps

theorem splitAt_keeps (key : κ) (heap : Heap κ) : ∀ (slots : List IntervalSlot) {lo hi : κ},
    Tiles lo hi (slots.map (view heap)) → lo ≤ key → Owned heap slots →
    (∀ slot ∈ slots, (view heap slot).lower < key → key < (view heap slot).upper →
      slot.state ≠ .committed) →
    Keeps heap slots (splitAt key heap slots).1 (splitAt key heap slots).2
  | [], _, _, _, _, _, _ => Keeps.refl
  | slot :: slots, lo, hi, ⟨hlo, _, htiles⟩, hk, h, hstate => by
    obtain ⟨hlt, htail, ho⟩ := owned_cons.mp h
    obtain ⟨hslot, hslots⟩ := forall_mem_cons.mp hstate
    unfold splitAt
    dsimp only
    split_ifs with h1 h2
    · exact (splitAt_keeps key heap slots htiles h1 htail hslots).cons
    · exact Keeps.refl
    · intro id hid hset
      obtain ⟨hf, hr⟩ := settled_cons.mp hset
      rw [not_or] at h2
      -- the slot that is cut is not committed, so that the object is another one
      have hne : id ≠ slot.interval := by
        rintro rfl
        exact hslot (lt_of_le_of_ne (hlo.le.trans hk) h2.1) (not_le.mp h1) (hf rfl)
      rw [set_ne _ _ hne, alloc_ne _ _ hid.ne]
      refine ⟨Grows.refl _, settled_cons.mpr ⟨fun heq => absurd heq.symm hne, settled_cons.mpr ⟨?_, hr⟩⟩⟩
      exact fun heq => absurd heq.symm hid.ne

theorem markSlots_keeps (range : κ × κ) (state : IntervalState) (stamp : Option ℕ) :
    ∀ (slots : List IntervalSlot) (heap : Heap κ), Owned heap slots →
      (∀ slot ∈ slots, range.1 < (view heap slot).upper → (view heap slot).lower < range.2 →
        slot.state ≠ .committed) → Keeps heap slots (markSlots range state stamp heap slots).1
        (markSlots range state stamp heap slots).2
  | [], _, _, _ => Keeps.refl
  | slot :: slots, heap, h, hstate => by
    obtain ⟨hlt, ht, ho⟩ := owned_cons.mp h
    obtain ⟨hslot, hslots⟩ := forall_mem_cons.mp hstate
    unfold markSlots
    dsimp only
    split_ifs with h1 h2
    · exact (markSlots_keeps range state stamp slots heap ht hslots).cons
    · exact Keeps.refl
    · set interval : Interval κ := { heap.objects slot.interval with
        passStartedAt := stamp.getD (heap.objects slot.interval).passStartedAt }
      have hr := markSlots_keeps range state stamp slots (heap.set slot.interval interval)
        (ht.set _ _) fun s hs => by rw [view_set ho _ hs]; exact hslots s hs
      have hw : Keeps heap (slot :: slots) (heap.set slot.interval interval)
          ({ slot with state := state } :: slots) := by
        intro id _ hset
        obtain ⟨hf, hset'⟩ := settled_cons.mp hset
        have hne : id ≠ slot.interval := by
          rintro rfl
          exact hslot (not_le.mp h1) (not_le.mp h2) (hf rfl)
        rw [set_ne _ _ hne]
        exact ⟨Grows.refl _, settled_cons.mpr ⟨fun heq => absurd heq.symm hne, hset'⟩⟩
      exact hw.trans (set_next ..).ge hr.cons

theorem coalesceLoop_keeps : ∀ (slots : List IntervalSlot) (heap : Heap κ) (slot : IntervalSlot),
    Owned heap (slot :: slots) → (∀ s ∈ slots, (view heap s).lower < (view heap s).upper) →
      Keeps heap (slot :: slots) (coalesceLoop heap slot slots).1 (coalesceLoop heap slot slots).2
  | [], _, _, _, _ => Keeps.refl
  | slot' :: slots, heap, slot, h, hn => by
    obtain ⟨hlt, ht, ho⟩ := owned_cons.mp h
    obtain ⟨hslot', hslots⟩ := forall_mem_cons.mp hn
    unfold coalesceLoop
    dsimp only
    split_ifs with h1
    · obtain ⟨-, -, ho'⟩ := owned_cons.mp h.drop_second
      set interval : Interval κ := { heap.objects slot.interval with
        upper := (heap.objects slot'.interval).upper,
        passStartedAt := min (heap.objects slot.interval).passStartedAt
          (heap.objects slot'.interval).passStartedAt }
      have hr := coalesceLoop_keeps slots (heap.set slot.interval interval) slot
        (h.drop_second.set _ _) fun s hs => by rw [view_set ho' _ hs]; exact hslots s hs
      have hw : Keeps heap (slot :: slot' :: slots) (heap.set slot.interval interval)
          (slot :: slots) := by
        intro id _ hset
        obtain ⟨hf, hset'⟩ := settled_cons.mp hset
        refine ⟨?_, settled_cons.mpr ⟨hf, (settled_cons.mp hset').2⟩⟩
        by_cases hid : id = slot.interval
        · subst hid
          rw [set_self]
          exact ⟨rfl, rfl, .inr ⟨h1.2.1.trans_lt hslot', min_le_left _ _⟩⟩
        · rw [set_ne _ _ hid]
          exact Grows.refl _
      exact hw.trans (set_next ..).ge hr
    · exact (coalesceLoop_keeps slots heap slot' ht hslots).cons

/-- Marking a range that no committed slot meets keeps what the committed slots refer to, up to
growth. -/
theorem markRange_keeps {range : κ × κ} {state : IntervalState} {stamp : Option ℕ} {lo hi : κ}
    (htiles : Tiles lo hi (slots.map (view heap))) (hlo : lo ≤ range.1) (h : Owned heap slots)
    (hstate : ∀ s ∈ slots.map (view heap), range.1 < s.upper → s.lower < range.2 →
      s.label.state ≠ .committed) : Keeps heap slots (markRange range state stamp heap slots).1
      (markRange range state stamp heap slots).2 := by
  unfold markRange
  split_ifs with hr
  · have hc : ∀ key (s : Segment κ SlotLabel), s.lower < key → key < s.upper →
        (range.1 < s.upper → s.lower < range.2 → s.label.state ≠ .committed) →
        (range.1 < key → s.lower < range.2 → s.label.state ≠ .committed) ∧
          (range.1 < s.upper → key < range.2 → s.label.state ≠ .committed) :=
      fun key s h1 h2 hs => ⟨fun h3 h4 => hs (h3.trans h2) h4, fun h3 h4 => hs h3 (h1.trans h4)⟩
    have h1 := splitAt_spec range.1 heap slots h
    have htiling := tiles_cutAt range.1 htiles hlo
    have hstate1 := forall_cutAt range.1 (hc _) htiles hlo hstate
    rw [← h1.view_eq] at htiling hstate1
    have h2 := splitAt_spec range.2 _ _ h1.step.owned
    have htiles2 := tiles_cutAt range.2 htiling (hlo.trans hr.le)
    have hstate2 := forall_cutAt range.2 (hc _) htiling (hlo.trans hr.le) hstate1
    rw [← h2.view_eq] at htiles2 hstate2
    have h3 := markSlots_spec range state stamp _ _ h2.step.owned
    have htiles3 : Tiles lo hi (paint range (markLabel state stamp) _) := tiles_paint htiles2
    rw [← h3.view_eq] at htiles3
    -- both ends of the range lie inside slots that meet it
    have hkeeps1 := splitAt_keeps range.1 heap slots htiles hlo h fun s hs h1 h2 =>
      hstate _ (mem_map_of_mem hs) h2 (h1.trans hr)
    have hkeeps2 := splitAt_keeps range.2 _ _ htiling (hlo.trans hr.le) h1.step.owned fun s hs h1 h2 =>
      hstate1 _ (mem_map_of_mem hs) (hr.trans h2) h1
    have hkeeps3 := markSlots_keeps range state stamp _ _ h2.step.owned fun s hs h1 h2 =>
      hstate2 _ (mem_map_of_mem hs) h1 h2
    have hkeeps4 : ∀ (heap : Heap κ) (slots : List IntervalSlot), Owned heap slots →
        Tiles lo hi (slots.map (view heap)) →
        Keeps heap slots (coalesceInplace heap slots).1 (coalesceInplace heap slots).2 := by
      intro heap slots ho htiles
      cases slots with
      | nil => exact Keeps.refl
      | cons slot slots =>
        exact coalesceLoop_keeps slots heap slot ho fun s hs =>
          (htiles.mem _ (mem_map_of_mem (mem_cons_of_mem _ hs))).2.1
    exact hkeeps1.trans h1.step.next_le (hkeeps2.trans h2.step.next_le
      (hkeeps3.trans h3.step.next_le (hkeeps4 _ _ h3.step.owned htiles3)))
  · exact Keeps.refl

end Ytsaurus.Flow
