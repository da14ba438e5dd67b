/-
# Runs of the key visitor store

In every state that a run reaches the slots of each bucket tile its range, neighbours differ in
their state, and all intervals agree on the finality of the pass. The table has a row for every
entry of the snapshot; the object that the entry refers to may have grown since the row was written
(`RowsOk`).

`Sync` finds a row stale only if the object does not end where the key of the row says, so the rows
under upper bounds are exact and those under lower bounds may be shorter than the interval
(`sync_row`).
-/
import Ytsaurus.Flow.KeyVisitorHeap

namespace Ytsaurus.Flow

open List Lib

variable {κ : Type} [LinearOrder κ]

/-! ### Buckets -/

/-- The ranges divide `[lo, hi)`. -/
def Divides : κ → κ → List (κ × κ) → Prop
  | lo, hi, [] => lo = hi
  | lo, hi, range :: ranges => range.1 = lo ∧ range.1 < range.2 ∧ Divides range.2 hi ranges

theorem Divides.le : ∀ {ranges : List (κ × κ)} {lo hi : κ}, Divides lo hi ranges → lo ≤ hi
  | [], _, _, h => le_of_eq h
  | _ :: _, _, _, ⟨hlo, hr, h⟩ => hlo ▸ hr.le.trans h.le

theorem Divides.mem : ∀ {ranges : List (κ × κ)} {lo hi : κ}, Divides lo hi ranges → ∀ r ∈ ranges,
    lo ≤ r.1 ∧ r.1 < r.2 ∧ r.2 ≤ hi
  | r :: ranges, lo, hi, ⟨hlo, hr, h⟩, r', hr' => by
    rcases mem_cons.mp hr' with rfl | hr'
    · exact ⟨hlo.ge, hr, h.le⟩
    · obtain ⟨h1, h2, h3⟩ := h.mem r' hr'
      exact ⟨hlo ▸ hr.le.trans h1, h2, h3⟩

def slotsOf (buckets : List (Bucket κ)) : List IntervalSlot := buckets.flatMap Bucket.intervals

def tilingsOf (heap : Heap κ) (buckets : List (Bucket κ)) :
    List ((κ × κ) × List (Segment κ SlotLabel)) :=
  buckets.map fun bucket => (bucket.range, bucket.intervals.map (view heap))

def clip (bucketRange range : κ × κ) : κ × κ :=
  (max bucketRange.1 range.1, min bucketRange.2 range.2)

variable {range : κ × κ} {heap : Heap κ} {slots : List IntervalSlot} {state : IntervalState}

theorem markRange_of_empty {stamp : Option ℕ}
    (h : range.2 ≤ range.1) : markRange range state stamp heap slots = (heap, slots) :=
  if_neg (not_lt.mpr h)

def stampAll (range : κ × κ) (state : IntervalState) (stamp : Option ℕ) (heap : Heap κ) :
    List (Bucket κ) → Heap κ × List (Bucket κ)
  | [] => (heap, [])
  | bucket :: buckets =>
    let marked := markRange (bucket.slice range) state stamp heap bucket.intervals
    let rest := stampAll range state stamp marked.1 buckets
    (rest.1, { bucket with intervals := marked.2 } :: rest.2)

variable {range : κ × κ}

theorem stampAll_of_le {stamp : Option ℕ} {heap : Heap κ} :
    ∀ {buckets : List (Bucket κ)}, (∀ bucket ∈ buckets, range.2 ≤ bucket.range.1) →
      stampAll range state stamp heap buckets = (heap, buckets)
  | [], _ => rfl
  | bucket :: buckets, h => by
    obtain ⟨hb, hbs⟩ := forall_mem_cons.mp h
    have he : (bucket.slice range).2 ≤ (bucket.slice range).1 :=
      (min_le_right _ _).trans (hb.trans (le_max_left _ _))
    rw [stampAll, markRange_of_empty he, stampAll_of_le hbs]

theorem stampFrom_eq (range : κ × κ) (state : IntervalState) (stamp : Option ℕ) :
    ∀ (buckets : List (Bucket κ)) (heap : Heap κ) {lo hi : κ}, Divides lo hi (buckets.map Bucket.range) →
      stampFrom range state stamp heap buckets = stampAll range state stamp heap buckets
  | [], _, _, _, _ => rfl
  | bucket :: buckets, heap, lo, hi, h => by
    rw [stampFrom]
    split_ifs with hb
    · rw [stampAll]
      dsimp only
      rw [stampFrom_eq range state stamp buckets _ h.2.2]
    · refine (stampAll_of_le (forall_mem_cons.mpr ⟨not_lt.mp hb, fun b hm => ?_⟩)).symm
      exact (not_lt.mp hb).trans (h.2.1.le.trans (h.2.2.mem _ (mem_map_of_mem hm)).1)

theorem stampAcrossBuckets_eq (range : κ × κ) (state : IntervalState) (stamp : Option ℕ)
    (heap : Heap κ) :
    ∀ (buckets : List (Bucket κ)) {lo hi : κ}, Divides lo hi (buckets.map Bucket.range) →
      stampAcrossBuckets range state stamp heap buckets = stampAll range state stamp heap buckets
  | [], _, _, _ => rfl
  | bucket :: buckets, lo, hi, h => by
    rw [stampAcrossBuckets]
    split_ifs with hb
    · exact stampFrom_eq range state stamp (bucket :: buckets) heap h
    · have he : (bucket.slice range).2 ≤ (bucket.slice range).1 :=
        (min_le_left _ _).trans ((not_lt.mp hb).trans (le_max_right _ _))
      rw [stampAll, markRange_of_empty he, stampAcrossBuckets_eq range state stamp heap buckets h.2.2]

variable {heap' : Heap κ} {slots' : List IntervalSlot} {buckets : List (Bucket κ)}

omit [LinearOrder κ] in
theorem Step.tilings_eq (h : Step heap slots heap' slots')
    (ho : Owned heap (slots ++ slotsOf buckets)) :
    tilingsOf heap' buckets = tilingsOf heap buckets := by
  obtain ⟨-, ho', hd⟩ := owned_append.mp ho
  refine map_congr_left fun b hb => Prod.ext rfl (h.map_view_eq fun s hs => ?_)
  have hs' : s ∈ slotsOf buckets := mem_flatMap.mpr ⟨b, hb, hs⟩
  exact ⟨ho'.exist s hs', fun ⟨t, ht, heq⟩ => hd t ht ⟨s, hs', heq.symm⟩⟩

/-- Marking the slices repaints the tiling of every bucket; where nothing is committed no settled
object changes. -/
theorem stampAll_spec (range : κ × κ) (state : IntervalState) (stamp : Option ℕ) :
    ∀ (buckets : List (Bucket κ)) (heap : Heap κ), Owned heap (slotsOf buckets) →
      Step heap (slotsOf buckets) (stampAll range state stamp heap buckets).1
        (slotsOf (stampAll range state stamp heap buckets).2) ∧
      tilingsOf (stampAll range state stamp heap buckets).1
        (stampAll range state stamp heap buckets).2 = (tilingsOf heap buckets).map
          (fun t => (t.1, repaint slotOps (clip t.1 range) (markLabel state stamp) t.2)) ∧
      ((∀ t ∈ tilingsOf heap buckets, Tiles t.1.1 t.1.2 t.2 ∧
        ∀ s ∈ t.2, range.1 < s.upper → s.lower < range.2 → s.label.state ≠ .committed) →
      Keeps heap (slotsOf buckets) (stampAll range state stamp heap buckets).1
        (slotsOf (stampAll range state stamp heap buckets).2))
  | [], _, h => ⟨Step.refl h, rfl, fun _ => Keeps.refl⟩
  | bucket :: buckets, heap, h => by
    obtain ⟨hmark, hv⟩ := markRange_spec (bucket.slice range) state stamp (owned_append.mp h).1
    have hf := hmark.append_right h
    obtain ⟨hmarked, ho, hd⟩ := owned_append.mp hf.owned
    obtain ⟨hr, ht, hk⟩ := stampAll_spec range state stamp buckets _ ho
    rw [hmark.tilings_eq h] at ht hk
    refine ⟨hf.trans (hr.append_left _ hf.owned), ?_, fun hstate => ?_⟩
    · have hview := hr.map_view_eq fun s hs => ⟨hmarked.exist s hs, hd s hs⟩
      unfold tilingsOf at ht ⊢
      rw [stampAll, map_cons, map_cons, map_cons, ht]
      exact congrArg (fun l => (bucket.range, l) :: _) (hview.trans hv)
    · obtain ⟨⟨htiling, hbucket⟩, hbuckets⟩ := forall_mem_cons.mp hstate
      have hkeep : Keeps heap bucket.intervals
          (markRange (bucket.slice range) state stamp heap bucket.intervals).1 _ :=
        markRange_keeps htiling (le_max_left _ _) (owned_append.mp h).1 fun s hs h1 h2 =>
          hbucket s hs ((le_max_right _ _).trans_lt h1) (h2.trans_le (min_le_right _ _))
      exact (hkeep.append_right _).trans hf.next_le ((hk hbuckets).append_left _)

/-! ### New objects -/

/-- An operation that leaves the objects alone and lets slots refer to new ones. -/
structure Allocates (heap : Heap κ) (slots : List IntervalSlot) (heap' : Heap κ)
    (slots' : List IntervalSlot) : Prop where
  next_le : heap.next ≤ heap'.next
  owned : Owned heap' slots'
  origin : ∀ slot ∈ slots', slot ∈ slots ∨ heap.next ≤ slot.interval
  same : ∀ id < heap.next, heap'.objects id = heap.objects id

theorem Allocates.keeps (h : Allocates heap slots heap' slots') :
    Keeps heap slots heap' slots' := by
  intro id hid hset
  rw [h.same id hid]
  refine ⟨Grows.refl _, fun slot hslot heq => ?_⟩
  rcases h.origin slot hslot with ho | hn
  · exact hset slot ho heq
  · exact absurd (heq ▸ hn) (not_le.mpr hid)

section

omit [LinearOrder κ]

theorem Allocates.view_eq {others : List IntervalSlot} (h : Allocates heap slots heap' slots')
    (hlt : ∀ slot ∈ others, slot.interval < heap.next) :
      others.map (view heap') = others.map (view heap) := by
  refine map_congr_left fun slot hs => ?_
  unfold view
  rw [h.same _ (hlt slot hs)]

theorem Allocates.append {heap'' : Heap κ} {others others' : List IntervalSlot}
    (h : Allocates heap slots heap' slots') (h' : Allocates heap' others heap'' others')
    (hown : Owned heap (slots ++ others)) :
      Allocates heap (slots ++ others) heap'' (slots' ++ others') := by
  obtain ⟨hslots, hothers, hd⟩ := owned_append.mp hown
  refine ⟨h.next_le.trans h'.next_le,
    owned_append.mpr ⟨h.owned.mono h'.next_le, h'.owned, ?_⟩, ?_, ?_⟩
  · rintro s hs ⟨t, ht, heq⟩
    rcases h'.origin t ht with hold | hn
    · rcases h.origin s hs with hold' | hn'
      · exact hd s hold' ⟨t, hold, heq⟩
      · exact absurd (hothers.exist t hold) (not_lt.mpr (heq ▸ hn'))
    · exact absurd (h.owned.exist s hs) (not_lt.mpr (heq ▸ hn))
  · exact forall_mem_append.mpr ⟨fun s hs => (h.origin s hs).imp_left (mem_append_left _),
      fun s hs => (h'.origin s hs).imp (mem_append_right _) h.next_le.trans⟩
  · exact fun id hid => (h'.same id (hid.trans_le h.next_le)).trans (h.same id hid)

theorem Allocates.refl (h : Owned heap slots) :
    Allocates heap slots heap slots := ⟨le_rfl, h, fun _ hs => .inl hs, fun _ _ => rfl⟩

theorem Allocates.alloc (heap : Heap κ) (slots : List IntervalSlot) (interval : Interval κ)
    (state : IntervalState) : Allocates heap slots (heap.alloc interval) [⟨heap.next, state⟩] := by
  refine ⟨Nat.le_succ _, ⟨by simp, by simp [Heap.alloc]⟩, ?_, fun id hid => alloc_ne _ _ hid.ne⟩
  intro s hs
  rw [mem_singleton.mp hs]
  exact .inr le_rfl

theorem resetBuckets_spec (finalPass : Bool) : ∀ (buckets : List (Bucket κ)) (heap : Heap κ),
    Allocates heap [] (resetBuckets finalPass heap buckets).1
      (slotsOf (resetBuckets finalPass heap buckets).2) ∧
      tilingsOf (resetBuckets finalPass heap buckets).1 (resetBuckets finalPass heap buckets).2 =
        buckets.map fun bucket =>
          (bucket.range, [⟨bucket.range.1, bucket.range.2, .pending, 0, finalPass⟩])
  | [], _ => ⟨Allocates.refl ⟨nodup_nil, by simp⟩, rfl⟩
  | bucket :: buckets, heap => by
    have hf := Allocates.alloc heap [] ⟨bucket.range.1, bucket.range.2, 0, finalPass⟩ .pending
    obtain ⟨hr, ih⟩ := resetBuckets_spec finalPass buckets
      (heap.alloc ⟨bucket.range.1, bucket.range.2, 0, finalPass⟩)
    refine ⟨hf.append hr ⟨nodup_nil, by simp⟩, ?_⟩
    have ho := hr.same heap.next (Nat.lt_succ_self _)
    rw [alloc_self] at ho
    unfold tilingsOf at ih ⊢
    rw [resetBuckets, map_cons, map_cons, ih]
    refine congrArg (fun l => (bucket.range, l) :: _) ?_
    rw [map_nil]
    unfold view
    rw [ho]

theorem resetBuckets_ranges (finalPass : Bool) (buckets : List (Bucket κ)) (heap : Heap κ) :
    (resetBuckets finalPass heap buckets).2.map Bucket.range = buckets.map Bucket.range := by
  have := congrArg (map Prod.fst) (resetBuckets_spec finalPass buckets heap).2
  simpa only [tilingsOf, map_map, Function.comp_def] using this

end

def finalLabel (label : SlotLabel) : SlotLabel := { label with finalPass := true }

def finalSegment (s : Segment κ SlotLabel) : Segment κ SlotLabel :=
  { s with label := finalLabel s.label }

omit [LinearOrder κ] in
theorem finalSlots_spec : ∀ (slots : List IntervalSlot) (heap : Heap κ), Owned heap slots →
    Allocates heap slots (Store.finalSlots heap slots).1 (Store.finalSlots heap slots).2 ∧
      (Store.finalSlots heap slots).2.map (view (Store.finalSlots heap slots).1) =
        slots.map (fun slot => finalSegment (view heap slot))
  | [], _, h => ⟨Allocates.refl h, rfl⟩
  | slot :: slots, heap, h => by
    obtain ⟨hlt, ht, -⟩ := owned_cons.mp h
    rw [Store.finalSlots]
    split_ifs with hfinal
    · obtain ⟨ha, hv⟩ := finalSlots_spec slots heap ht
      have hfirst : Allocates heap [slot] heap [slot] := Allocates.refl (owned_append.mp h).1
      refine ⟨hfirst.append ha h, ?_⟩
      rw [map_cons, map_cons, hv]
      refine congrArg (fun s => s :: _) ?_
      unfold view finalSegment finalLabel
      rw [ha.same _ hlt]
      dsimp only
      rw [hfinal]
    · set interval : Interval κ := { heap.objects slot.interval with finalPass := true }
      have hfirst := Allocates.alloc heap [slot] interval slot.state
      obtain ⟨ha, hv⟩ := finalSlots_spec slots (heap.alloc interval) (ht.mono hfirst.next_le)
      refine ⟨hfirst.append ha h, ?_⟩
      rw [map_cons, map_cons, hv]
      refine congrArg₂ cons ?_ (map_congr_left fun s hs => ?_)
      · unfold view
        rw [ha.same _ (Nat.lt_succ_self _), alloc_self]
        rfl
      · unfold view
        rw [alloc_ne _ _ (ht.exist s hs).ne]

omit [LinearOrder κ] in
theorem finalBuckets_spec : ∀ (buckets : List (Bucket κ)) (heap : Heap κ), Owned heap
    (slotsOf buckets) → Allocates heap (slotsOf buckets) (Store.finalBuckets heap buckets).1
      (slotsOf (Store.finalBuckets heap buckets).2) ∧
      tilingsOf (Store.finalBuckets heap buckets).1 (Store.finalBuckets heap buckets).2 =
        (tilingsOf heap buckets).map fun t => (t.1, t.2.map finalSegment)
  | [], _, h => ⟨Allocates.refl h, rfl⟩
  | bucket :: buckets, heap, h => by
    change Owned heap (bucket.intervals ++ slotsOf buckets) at h
    obtain ⟨ho, ho', -⟩ := owned_append.mp h
    obtain ⟨hf, hv⟩ := finalSlots_spec bucket.intervals heap ho
    obtain ⟨hr, ht⟩ := finalBuckets_spec buckets _ (ho'.mono hf.next_le)
    refine ⟨hf.append hr h, ?_⟩
    have hsame : tilingsOf (Store.finalSlots heap bucket.intervals).1 buckets = tilingsOf heap buckets :=
      map_congr_left fun b hb => Prod.ext rfl
        (hf.view_eq fun s hs => ho'.exist s (mem_flatMap.mpr ⟨b, hb, hs⟩))
    rw [hsame] at ht
    unfold tilingsOf at ht ⊢
    rw [Store.finalBuckets, map_cons, map_cons, map_cons, ht]
    refine congrArg (fun l => (bucket.range, l) :: _) ?_
    rw [hr.view_eq hf.owned.exist, hv, map_map]
    rfl

/-! ### Invariants -/

/-- A bucket's tiling: neighbours differ, and the intervals agree on the finality of the pass. -/
structure TilingOk (finalPass : Bool) (range : κ × κ) (l : List (Segment κ SlotLabel)) : Prop where
  tiles : Tiles range.1 range.2 l
  fused : Fused slotOps l
  final : ∀ s ∈ l, s.label.finalPass = finalPass

variable {l : List (Segment κ SlotLabel)}

theorem TilingOk.repaint {finalPass : Bool} (h : TilingOk finalPass range l)
    (marked : κ × κ) (state : IntervalState) (stamp : Option ℕ) :
    TilingOk finalPass range (repaint slotOps (clip range marked) (markLabel state stamp) l) where
  tiles := tiles_repaint h.tiles (le_max_left _ _)
  fused := fused_repaint h.fused
  final := forall_repaint h.tiles (le_max_left _ _) (fun _ _ _ _ hs => ⟨hs, hs⟩)
    (fun _ _ _ hs => hs) (fun _ _ _ _ hs _ => hs) h.final

theorem TilingOk.seed (finalPass : Bool) (h : range.1 < range.2) :
    TilingOk finalPass range [⟨range.1, range.2, .pending, 0, finalPass⟩] :=
  ⟨⟨rfl, h, rfl⟩, trivial, by simp⟩

omit [LinearOrder κ] in
theorem fused_finalSegment {finalPass : Bool} : ∀ {l : List (Segment κ SlotLabel)},
    Fused slotOps l → (∀ s ∈ l, s.label.finalPass = finalPass) → Fused slotOps (l.map finalSegment)
  | [], _, _ => trivial
  | [_], _, _ => trivial
  | s :: s' :: l, ⟨hne, hfused⟩, hfinal => by
    obtain ⟨hs, hl⟩ := forall_mem_cons.mp hfinal
    have hs' := (forall_mem_cons.mp hl).1
    refine ⟨fun h => hne ⟨h.1, Prod.ext (congrArg Prod.fst h.2 :) (hs.trans hs'.symm)⟩,
      fused_finalSegment hfused hl⟩

variable {finalPass : Bool}

theorem TilingOk.final' (h : TilingOk finalPass range l) :
    TilingOk true range (l.map finalSegment) :=
  ⟨h.tiles.map (g := finalSegment) fun _ => ⟨rfl, rfl⟩, fused_finalSegment h.fused h.final,
    by simp [finalSegment, finalLabel]⟩

/-- The bound that a row is stored under. -/
def boundOf (interval : Interval κ) (isLower : Bool) : κ :=
  if isLower then interval.lower else interval.upper

/-- Entries of the snapshot and rows correspond. The object of an entry is settled, and it has grown
from the value of the row. -/
def RowsOk (heap : Heap κ) (slots : List IntervalSlot) (remote : RowKey κ → Option ℕ)
    (table : Table κ) : Prop :=
  ∀ key, (remote key = none ∧ table key = none) ∨ ∃ id row, remote key = some id ∧
    table key = some row ∧ id < heap.next ∧ Settled slots id ∧ Grows row (heap.objects id) ∧
      row.lower < row.upper ∧ key.1 = boundOf row key.2

variable {table : Table κ} {remote : RowKey κ → Option ℕ}

theorem RowsOk.of_keeps (h : RowsOk heap slots remote table) (hn : heap.next ≤ heap'.next)
    (hk : Keeps heap slots heap' slots') : RowsOk heap' slots' remote table := by
  intro key
  refine (h key).imp id ?_
  rintro ⟨id, row, hid, hrow, hlt, hs, hg, hrest⟩
  obtain ⟨hg', hs'⟩ := hk id hlt hs
  exact ⟨id, row, hid, hrow, hlt.trans_le hn, hs', hg.trans hg', hrest⟩

/-- The invariant of a run over buckets with the given ranges. -/
structure StoreOk (bucketRanges : List (κ × κ)) (finalPass : Bool) (store : Store κ)
    (table : Table κ) : Prop where
  ranges : store.buckets.map Bucket.range = bucketRanges
  owned : Owned store.heap store.slots
  tilings : ∀ t ∈ tilingsOf store.heap store.buckets, TilingOk finalPass t.1 t.2
  rows : RowsOk store.heap store.slots store.remoteIntervals table

variable {ranges : List (κ × κ)} {store : Store κ} {lo hi : κ}

omit [LinearOrder κ] in
theorem ranges_eq_of_tilings {buckets' : List (Bucket κ)}
    {f : (κ × κ) × List (Segment κ SlotLabel) → List (Segment κ SlotLabel)}
    (h : tilingsOf heap' buckets' = (tilingsOf heap buckets).map fun t => (t.1, f t)) :
    buckets'.map Bucket.range = buckets.map Bucket.range := by
  have := congrArg (map Prod.fst) h
  simpa only [tilingsOf, map_map, Function.comp_def] using this

/-- No committed interval meets the range. -/
def Uncommitted (store : Store κ) (range : κ × κ) : Prop :=
  ∀ slot ∈ store.slots, (store.interval slot).lower < range.2 →
    range.1 < (store.interval slot).upper → slot.state ≠ .committed

omit [LinearOrder κ] in
theorem mem_tilingsOf {t : (κ × κ) × List (Segment κ SlotLabel)} (ht : t ∈ tilingsOf heap buckets)
    {s : Segment κ SlotLabel} (hs : s ∈ t.2) : ∃ slot ∈ slotsOf buckets, s = view heap slot := by
  obtain ⟨b, hb, rfl⟩ := mem_map.mp ht
  obtain ⟨slot, hslot, rfl⟩ := mem_map.mp hs
  exact ⟨slot, mem_flatMap.mpr ⟨b, hb, hslot⟩, rfl⟩

theorem StoreOk.stamp (h : StoreOk ranges finalPass store table) (hd : Divides lo hi ranges)
    (hr : Uncommitted store range) (state : IntervalState) (stamp : Option ℕ) :
    StoreOk ranges finalPass { store with
      heap := (stampAcrossBuckets range state stamp store.heap store.buckets).1
      buckets := (stampAcrossBuckets range state stamp store.heap store.buckets).2 } table := by
  rw [← h.ranges] at hd
  rw [stampAcrossBuckets_eq range state stamp store.heap store.buckets hd]
  obtain ⟨hstep, htiling, hkeeps⟩ :=
    stampAll_spec range state stamp store.buckets store.heap h.owned
  refine ⟨(ranges_eq_of_tilings htiling).trans h.ranges, hstep.owned, ?_,
    h.rows.of_keeps hstep.next_le ?_⟩
  · rw [htiling]
    refine forall_mem_map.mpr fun t ht => ?_
    exact (h.tilings t ht).repaint range state stamp
  · refine hkeeps fun t ht => ⟨(h.tilings t ht).tiles, ?_⟩
    intro s hs h1 h2
    obtain ⟨slot, hslot, rfl⟩ := mem_tilingsOf ht hs
    exact hr slot hslot h2 h1

theorem storeOk_reset (final' : Bool) (hr : buckets.map Bucket.range = ranges)
    (hd : Divides lo hi ranges) (hrows : RowsOk (resetBuckets final' heap buckets).1
      (slotsOf (resetBuckets final' heap buckets).2) remote table) : StoreOk ranges final'
      ⟨(resetBuckets final' heap buckets).1, (resetBuckets final' heap buckets).2, remote⟩
      table := by
  obtain ⟨ha, ht⟩ := resetBuckets_spec final' buckets heap
  refine ⟨(resetBuckets_ranges final' buckets heap).trans hr, ha.owned, ?_, hrows⟩
  rw [ht]
  refine forall_mem_map.mpr fun b hb => TilingOk.seed final' ?_
  exact (hd.mem b.range (hr ▸ mem_map_of_mem hb)).2.1

theorem StoreOk.startNewPass (h : StoreOk ranges finalPass store table) (hd : Divides lo hi ranges)
    (final' : Bool) : StoreOk ranges final' (store.startNewPass final') table := by
  have ha := (resetBuckets_spec final' store.buckets store.heap).1
  exact storeOk_reset final' h.ranges hd
    (h.rows.of_keeps ha.next_le
      { ha with origin := fun s hs => .inr ((ha.origin s hs).resolve_left (by simp)) }.keeps)

theorem StoreOk.markCurrentPassFinal (h : StoreOk ranges finalPass store table) :
    StoreOk ranges true store.markCurrentPassFinal table := by
  obtain ⟨ha, htiling⟩ := finalBuckets_spec store.buckets store.heap h.owned
  refine ⟨(ranges_eq_of_tilings htiling).trans h.ranges, ha.owned, ?_,
    h.rows.of_keeps ha.next_le ha.keeps⟩
  unfold Store.markCurrentPassFinal
  rw [htiling]
  exact forall_mem_map.mpr fun t ht => (h.tilings t ht).final'

/-! ### `Sync` -/

theorem bucket_unique : ∀ {buckets : List (Bucket κ)} {lo hi : κ},
    Divides lo hi (buckets.map Bucket.range) →
    ∀ b ∈ buckets, ∀ b' ∈ buckets, b.range.1 < b'.range.2 → b'.range.1 < b.range.2 → b = b'
  | c :: buckets, lo, hi, ⟨_, _, hr⟩, b, hb, b', hb', h1, h2 => by
    rcases mem_cons.mp hb with rfl | hc <;> rcases mem_cons.mp hb' with rfl | hc'
    · rfl
    · exact absurd (hr.mem _ (mem_map_of_mem hc')).1 (not_le.mpr h2)
    · exact absurd (hr.mem _ (mem_map_of_mem hc)).1 (not_le.mpr h1)
    · exact bucket_unique hr b hc b' hc' h1 h2

variable {slot : IntervalSlot}

section

variable (h : StoreOk ranges finalPass store table) (hs : slot ∈ store.slots)

include h hs

theorem StoreOk.bucket_of_mem : ∃ b ∈ store.buckets, slot ∈ b.intervals ∧ b.range.1 ≤
    (store.interval slot).lower ∧ (store.interval slot).lower < (store.interval slot).upper ∧
        (store.interval slot).upper ≤ b.range.2 := by
  obtain ⟨b, hb, hs⟩ := mem_flatMap.mp hs
  exact ⟨b, hb, hs, (h.tilings _ (mem_map_of_mem hb)).tiles.mem _ (mem_map_of_mem hs)⟩

theorem StoreOk.view_unique (hd : Divides lo hi ranges) {slot' : IntervalSlot}
    (hs' : slot' ∈ store.slots) (h1 : (store.interval slot).lower < (store.interval slot').upper)
    (h2 : (store.interval slot').lower < (store.interval slot).upper) :
    view store.heap slot = view store.heap slot' := by
  obtain ⟨b, hb, hs, hl, -, hu⟩ := h.bucket_of_mem hs
  obtain ⟨b', hb', hs', hl', -, hu'⟩ := h.bucket_of_mem hs'
  have heq := bucket_unique (h.ranges ▸ hd) b hb b' hb' (hl.trans_lt (h1.trans_le hu'))
    (hl'.trans_lt (h2.trans_le hu))
  subst heq
  exact (h.tilings _ (mem_map_of_mem hb)).tiles.unique _ (mem_map_of_mem hs)
    _ (mem_map_of_mem hs') h1 h2

theorem StoreOk.interval_nonempty : (store.interval slot).lower < (store.interval slot).upper := by
  obtain ⟨_, _, _, _, hlt, _⟩ := h.bucket_of_mem hs
  exact hlt

end

section Sync

variable [BoundedOrder κ]

def HasKey (store : Store κ) (slot : IntervalSlot) (key : RowKey κ) : Prop :=
  slot.state = .committed ∧ key.1 = boundOf (store.interval slot) key.2 ∧
    key.1 ≠ (if key.2 then ⊥ else ⊤)

variable {key : RowKey κ}

theorem mem_rowsOf {id : ℕ} :
    (key, id) ∈ store.rowsOf slot ↔ HasKey store slot key ∧ id = slot.interval := by
  obtain ⟨key, isLower⟩ := key
  unfold Store.rowsOf HasKey boundOf
  by_cases hs : slot.state = .committed
  · rw [if_pos hs, mem_append]
    cases isLower
    · by_cases hu : (store.interval slot).upper = ⊤
      · simp [hu]
      · simp only [ne_eq, hu, not_false_eq_true, if_true, mem_singleton]
        aesop
    · by_cases hl : (store.interval slot).lower = ⊥
      · simp [hl]
      · simp only [ne_eq, hl, not_false_eq_true, if_true, mem_singleton]
        aesop
  · simp [hs]

theorem newRemote_some {id : ℕ} (h : store.newRemote key = some id) :
    ∃ slot ∈ store.slots, HasKey store slot key ∧ slot.interval = id := by
  obtain ⟨⟨key', id'⟩, hf, rfl⟩ := Option.map_eq_some_iff.mp h
  obtain ⟨slot, hs, hr⟩ := mem_flatMap.mp (mem_of_find?_eq_some hf)
  have hk : key' = key := by simpa using find?_some hf
  subst hk
  obtain ⟨hk, hid⟩ := mem_rowsOf.mp hr
  exact ⟨slot, hs, hk, hid.symm⟩

theorem newRemote_isSome (hs : slot ∈ store.slots)
    (hk : HasKey store slot key) : ∃ id, store.newRemote key = some id := by
  have hm : (key, slot.interval) ∈ store.slots.flatMap store.rowsOf :=
    mem_flatMap.mpr ⟨slot, hs, mem_rowsOf.mpr ⟨hk, rfl⟩⟩
  have : ((store.slots.flatMap store.rowsOf).find? fun row => decide (row.1 = key)).isSome :=
    find?_isSome.mpr ⟨_, hm, decide_eq_true rfl⟩
  obtain ⟨row, hr⟩ := Option.isSome_iff_exists.mp this
  exact ⟨row.2, by rw [Store.newRemote, hr]; rfl⟩

theorem sameRow_iff : store.sameRow key = true ↔
    ∃ old fresh, store.remoteIntervals key = some old ∧ store.newRemote key = some fresh ∧
      store.heap.objects fresh = store.heap.objects old := by
  simp [Store.sameRow, Option.any_eq_true]

section Rows

variable (h : StoreOk ranges finalPass store table)

include h

theorem sync_table (key : RowKey κ) :
    (store.sync table).2 key =
      if store.sameRow key then table key else (store.newRemote key).map store.heap.objects := by
  unfold Store.sync
  dsimp only
  by_cases hs : store.sameRow key
  · simp [hs]
  · cases hn : store.newRemote key with
    | some id => simp [hs]
    | none =>
      rcases h.rows key with ⟨hr, ht⟩ | ⟨id, row, hr, -⟩
      · simp [hs, hr, ht]
      · simp [hs, hr]

/-- What a row of the table is after a `Sync`: the interval of a committed slot, or a kept row that
the interval has grown from. -/
theorem sync_row {key : RowKey κ} {row : Interval κ} (hrow : (store.sync table).2 key = some row) :
    ∃ slot ∈ store.slots, HasKey store slot key ∧ store.newRemote key = some slot.interval ∧
      Grows row (store.interval slot) ∧ row.lower < row.upper ∧ key.1 = boundOf row key.2 ∧
      (row = store.interval slot ∨ store.sameRow key = true ∧ table key = some row) := by
  rw [sync_table h] at hrow
  by_cases hsame : store.sameRow key
  · rw [if_pos hsame] at hrow
    obtain ⟨old, fresh, ho, hf, heq⟩ := sameRow_iff.mp hsame
    obtain ⟨slot, hslot, hk, rfl⟩ := newRemote_some hf
    rcases h.rows key with ⟨hremembered, -⟩ | ⟨id, row', hremembered, ht, -, -, hg, hn, hb⟩
    · rw [ho] at hremembered
      cases hremembered
    · obtain rfl : id = old := Option.mem_unique hremembered ho
      obtain rfl : row' = row := Option.mem_unique ht hrow
      rw [← heq] at hg
      exact ⟨slot, hslot, hk, hf, hg, hn, hb, .inr ⟨hsame, hrow⟩⟩
  · rw [if_neg hsame] at hrow
    obtain ⟨id, hid, rfl⟩ := Option.map_eq_some_iff.mp hrow
    obtain ⟨slot, hslot, hk, rfl⟩ := newRemote_some hid
    exact ⟨slot, hslot, hk, hid, Grows.refl _, h.interval_nonempty hslot, hk.2.1, .inl rfl⟩

theorem sync_rows_exist {key : RowKey κ} (hslot : slot ∈ store.slots) (hk : HasKey store slot key) :
      ∃ row, (store.sync table).2 key = some row := by
  rw [sync_table h]
  obtain ⟨id, hid⟩ := newRemote_isSome hslot hk
  by_cases hsame : store.sameRow key
  · obtain ⟨old, -, ho, -⟩ := sameRow_iff.mp hsame
    rcases h.rows key with ⟨hr, -⟩ | ⟨-, row, -, ht, -⟩
    · rw [ho] at hr
      cases hr
    · exact ⟨row, by rw [if_pos hsame, ht]⟩
  · exact ⟨store.heap.objects id, by rw [if_neg hsame, hid]; rfl⟩

theorem StoreOk.sync : StoreOk ranges finalPass (store.sync table).1 (store.sync table).2 := by
  refine ⟨h.ranges, h.owned, h.tilings, fun key => ?_⟩
  change (store.newRemote key = none ∧ _) ∨ ∃ id row, store.newRemote key = some id ∧ _
  cases hr : (store.sync table).2 key with
  | none =>
    refine .inl ⟨?_, rfl⟩
    cases hnew : store.newRemote key with
    | none => rfl
    | some id =>
      obtain ⟨slot, hs, hk, -⟩ := newRemote_some hnew
      obtain ⟨row, hr'⟩ := sync_rows_exist h hs hk
      rw [hr] at hr'
      cases hr'
  | some row =>
    obtain ⟨slot, hs, hk, hnew, hg, hnone, hb, -⟩ := sync_row h hr
    refine .inr ⟨slot.interval, row, hnew, rfl, h.owned.exist slot hs, fun slot' hs' heq =>
      ?_, hg, hnone, hb⟩
    rw [inj_on_of_nodup_map h.owned.nodup hs' hs heq]
    exact hk.1

end Rows

/-! ### Runs -/

def RangeIn (store : Store κ) (range : κ × κ) (state : IntervalState) : Prop :=
  ∀ slot ∈ store.slots, (store.interval slot).lower < range.2 →
    range.1 < (store.interval slot).upper → slot.state = state

/-- The states of a store that starts from an empty table, and of the table. -/
inductive Run (partitionRange : κ × κ) (bucketRanges : List (κ × κ)) : Store κ → Table κ → Prop
  | start {store : Store κ} : Store.init partitionRange bucketRanges [] = .ok store →
    Run partitionRange bucketRanges store fun _ => none
  | markBuffered {store : Store κ} {table : Table κ} (range : κ × κ) (timestamp : ℕ) :
    Run partitionRange bucketRanges store table → RangeIn store range .pending →
        Run partitionRange bucketRanges (store.markBuffered range timestamp) table
  | markCommitted {store : Store κ} {table : Table κ} (range : κ × κ) :
    Run partitionRange bucketRanges store table → RangeIn store range .buffered →
        Run partitionRange bucketRanges (store.markCommitted range) table
  | startNewPass {store : Store κ} {table : Table κ} (finalPass : Bool) :
    Run partitionRange bucketRanges store table →
      Run partitionRange bucketRanges (store.startNewPass finalPass) table
  | markCurrentPassFinal {store : Store κ} {table : Table κ} :
    Run partitionRange bucketRanges store table →
      Run partitionRange bucketRanges store.markCurrentPassFinal table
  | sync {store : Store κ} {table : Table κ} : Run partitionRange bucketRanges store table →
      Run partitionRange bucketRanges (store.sync table).1 (store.sync table).2

omit [BoundedOrder κ] in
theorem RangeIn.uncommitted (h : RangeIn store range state)
    (hstate : state ≠ .committed) : Uncommitted store range := fun slot hslot h1 h2 => by
  rw [h slot hslot h1 h2]
  exact hstate

theorem init_nil_ok (hd : Divides lo hi ranges) {partitionRange : κ × κ}
    (h : Store.init partitionRange ranges [] = .ok store) :
      StoreOk ranges false store fun _ => none := by
  obtain rfl : _ = store := Except.ok.inj h
  exact storeOk_reset false (by simp [Function.comp_def]) hd fun _ => .inl ⟨rfl, rfl⟩

theorem Run.ok {partitionRange : κ × κ} (hd : Divides lo hi ranges)
    (h : Run partitionRange ranges store table) : ∃ finalPass, StoreOk ranges finalPass store table := by
  induction h with
  | start h => exact ⟨false, init_nil_ok hd h⟩
  | markBuffered range ts _ hr ih =>
    obtain ⟨finalPass, hok⟩ := ih
    exact ⟨finalPass, hok.stamp hd (hr.uncommitted (by decide)) .buffered (some ts)⟩
  | markCommitted range _ hr ih =>
    obtain ⟨finalPass, hok⟩ := ih
    exact ⟨finalPass, hok.stamp hd (hr.uncommitted (by decide)) .committed none⟩
  | startNewPass finalPass _ ih =>
    obtain ⟨_, hok⟩ := ih
    exact ⟨finalPass, hok.startNewPass hd finalPass⟩
  | markCurrentPassFinal _ ih =>
    obtain ⟨_, hok⟩ := ih
    exact ⟨true, hok.markCurrentPassFinal⟩
  | sync _ ih =>
    obtain ⟨finalPass, hok⟩ := ih
    exact ⟨finalPass, hok.sync⟩

end Sync

end Ytsaurus.Flow
