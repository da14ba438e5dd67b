/-
# Splitting the ranges of a tablet: coverage

The groups that `GroupRangesByPartition` reports tile the tablet: between the partitions that they
name no range holds a point (`Tiling`). Partition after partition the frontier then moves over the
whole tablet.
-/
import Ytsaurus.Query.ItemRouting
import Ytsaurus.Query.SplitPartition

namespace Ytsaurus.Query

open List Lib

variable {κ : Type} [LinearOrder κ]

/-! ### The partitions of a tablet -/

section Tablet

variable {tablet : Tablet κ} {ranges : List (κ × κ)}

theorem Partition.Increasing.pivotKey_lt {part : Partition κ} (h : part.Increasing) :
    part.pivotKey < part.nextPivotKey :=
  (pairwise_cons.mp h).1 _ (by simp)

theorem isChain_pivots : ∀ (part : Partition κ) (rest : List (Partition κ)),
    (∀ p ∈ part :: rest, p.Increasing) →
    (part :: rest).IsChain (fun p q => p.nextPivotKey = q.pivotKey) →
    (part.pivotKey :: (part :: rest).map Partition.nextPivotKey).IsChain (· < ·)
  | part, [], hpart, _ => by simpa using (hpart part mem_cons_self).pivotKey_lt
  | part, next :: rest, hpart, h => by
    obtain ⟨heq, hr⟩ := isChain_cons_cons.mp h
    obtain ⟨hfirst, hrest⟩ := forall_mem_cons.mp hpart
    have ih := isChain_pivots next rest hrest hr
    rw [← heq] at ih
    exact isChain_cons_cons.mpr ⟨hfirst.pivotKey_lt, ih⟩

/-- The ends of the partitions. -/
def Tablet.nextPivotKeys (tablet : Tablet κ) : List κ :=
  tablet.partitions.map Partition.nextPivotKey

theorem Tablet.bounds (tablet : Tablet κ) :
    (tablet.lower :: tablet.nextPivotKeys).Pairwise (· < ·) := by
  obtain ⟨partitions, hne, hpart, hc⟩ := tablet
  obtain ⟨part, rest, rfl⟩ := exists_cons_of_ne_nil hne
  exact (isChain_pivots part rest hpart hc).pairwise

omit [LinearOrder κ] in
theorem getElem?_pivotKeys : ∀ (part : Partition κ) (rest : List (Partition κ)),
    (part :: rest).IsChain (fun p q => p.nextPivotKey = q.pivotKey) → ∀ (i : ℕ) (p : Partition κ),
    (part :: rest)[i]? = some p →
    (part.pivotKey :: (part :: rest).map Partition.nextPivotKey)[i]? = some p.pivotKey
  | part, _, _, 0, p, hp => by
    obtain rfl : part = p := by simpa using hp
    rfl
  | part, [], _, i + 1, p, hp => by simp at hp
  | part, next :: rest, h, i + 1, p, hp => by
    obtain ⟨heq, hr⟩ := isChain_cons_cons.mp h
    have ih := getElem?_pivotKeys next rest hr i p (by simpa using hp)
    rw [← heq] at ih
    simpa using ih

section

variable (tablet : Tablet κ)

theorem Tablet.pivotKey_eq {i : ℕ} {part : Partition κ} (h : tablet.partitions[i]? = some part) :
    (tablet.lower :: tablet.nextPivotKeys)[i]? = some part.pivotKey := by
  obtain ⟨partitions, hne, _, hc⟩ := tablet
  obtain ⟨first, rest, rfl⟩ := exists_cons_of_ne_nil hne
  exact getElem?_pivotKeys first rest hc i part h

theorem Tablet.nextPivotKey_eq {i : ℕ} {part : Partition κ}
    (h : tablet.partitions[i]? = some part) : tablet.nextPivotKeys[i]? = some part.nextPivotKey := by
  rw [Tablet.nextPivotKeys, getElem?_map, h]
  rfl

theorem Tablet.length_nextPivotKeys : tablet.nextPivotKeys.length = tablet.partitions.length :=
  length_map _

theorem Tablet.nextPivotKeys_pos : 0 < tablet.nextPivotKeys.length :=
  tablet.length_nextPivotKeys ▸ length_pos_of_ne_nil tablet.nonempty

theorem Tablet.getElem?_nextPivotKeys :
    tablet.nextPivotKeys[tablet.nextPivotKeys.length - 1]? = some tablet.upper := by
  rw [tablet.length_nextPivotKeys, Tablet.nextPivotKeys, getElem?_map, ← getLast?_eq_getElem?,
    getLast?_eq_getLast_of_ne_nil tablet.nonempty]
  rfl

theorem Tablet.upper_eq :
    (tablet.lower :: tablet.nextPivotKeys)[tablet.nextPivotKeys.length]? = some tablet.upper := by
  have h := tablet.getElem?_nextPivotKeys
  rwa [← getElem?_cons_succ (a := tablet.lower), Nat.sub_add_cancel tablet.nextPivotKeys_pos] at h

theorem Tablet.lower_lt_upper : tablet.lower < tablet.upper :=
  getElem?_lt tablet.bounds tablet.nextPivotKeys_pos rfl tablet.upper_eq

theorem Tablet.le_upper {i : ℕ} {key : κ}
    (h : (tablet.lower :: tablet.nextPivotKeys)[i]? = some key) : key ≤ tablet.upper := by
  have hl := lt_of_getElem? h
  exact getElem?_le tablet.bounds (by simpa using Nat.le_of_lt_succ hl) h tablet.upper_eq

end

/-- The ranges of a group are those that meet its partition. -/
structure PartitionGroupOk (tablet : Tablet κ) (ranges : List (κ × κ)) (group : PartitionGroup)
    (partition : Partition κ) : Prop where
  partition_eq : tablet.partitions[group.partitionIt]? = some partition
  lt : group.beginIt < group.endIt
  le : group.endIt ≤ ranges.length
  before : ∀ (i : ℕ) (range : κ × κ), i < group.beginIt → ranges[i]? = some range →
    range.2 ≤ partition.pivotKey
  after : ∀ (i : ℕ) (range : κ × κ), group.endIt ≤ i → ranges[i]? = some range →
    partition.nextPivotKey ≤ range.1
  starts : ∀ range : κ × κ, ranges[group.endIt - 1]? = some range → range.1 < partition.nextPivotKey
  ends : ∀ range : κ × κ, ranges[group.beginIt]? = some range → partition.pivotKey < range.2

theorem PartitionGroupOk.increasing {group : PartitionGroup} {part : Partition κ}
    (h : PartitionGroupOk tablet ranges group part) : part.Increasing :=
  tablet.increasing part (mem_of_getElem? h.partition_eq)

/-- The groups of the partitions from the frontier on, with nothing between them. -/
inductive Tiling (tablet : Tablet κ) (ranges : List (κ × κ)) : κ → List PartitionGroup → Prop
  | done {frontier : κ} : frontier ≤ tablet.upper →
      (∀ x, frontier ≤ x → x < tablet.upper → ¬InIntervals ranges x) → Tiling tablet ranges frontier []
  | step {frontier : κ} {group : PartitionGroup} {partition : Partition κ} {rest : List PartitionGroup} :
      PartitionGroupOk tablet ranges group partition → frontier ≤ partition.pivotKey →
      (∀ x, frontier ≤ x → x < partition.pivotKey → ¬InIntervals ranges x) →
      Tiling tablet ranges partition.nextPivotKey rest → Tiling tablet ranges frontier (group :: rest)

/-! ### Grouping by partitions -/

def partitionGroup (call : ℕ × ℕ × ℕ) : PartitionGroup := ⟨call.1, call.2.1, call.2.2⟩

/-- The calls with increasing shards are all collected, but those for the end of the tablet. -/
theorem collectGroups_eq (n m : ℕ) : ∀ (calls : List (ℕ × ℕ × ℕ)) (grouped : List PartitionGroup),
    (∀ call ∈ calls, call.2.1 ≠ call.2.2 ∧ (call.1 = n → call.2.1 + 1 = m)) →
    calls.Pairwise (·.1 < ·.1) →
    (∀ last ∈ grouped.getLast?, ∀ call ∈ calls, last.partitionIt < call.1) →
    collectGroups n m calls grouped = .ok (grouped ++ (calls.filter (·.1 ≠ n)).map partitionGroup)
  | [], grouped, _, _, _ => by simp [collectGroups]
  | (shardIt, itemIt, itemItEnd) :: calls, grouped, hcalls, hi, hlast => by
    obtain ⟨hh, ht⟩ := forall_mem_cons.mp hcalls
    obtain ⟨hless, hi⟩ := pairwise_cons.mp hi
    rw [collectGroups, ytVerify_true hh.1, ok_bind]
    by_cases he : shardIt = n
    · rw [if_pos he, ytVerify_true (hh.2 he), ok_bind, collectGroups_eq n m calls grouped ht hi
        fun last hm call hcall => hlast last hm call (mem_cons_of_mem _ hcall)]
      simp [he]
    · have hd : ∀ last ∈ grouped.getLast?, last.partitionIt ≠ shardIt := fun last hm =>
        (hlast last hm _ mem_cons_self).ne
      rw [if_neg he, ytVerify_true hd, ok_bind, collectGroups_eq n m calls _ ht hi]
      · simp [he, partitionGroup]
      · intro last hm call hcall
        obtain rfl : (⟨shardIt, itemIt, itemItEnd⟩ : PartitionGroup) = last := by simpa using hm
        exact hless call hcall

/-- The ranges that a query asks of the tablet: each meets it. -/
structure RangesOk (tablet : Tablet κ) (ranges : List (κ × κ)) : Prop where
  ordered : Ordered ranges
  ends : ∀ range ∈ ranges, tablet.lower < range.2
  starts : ∀ range ∈ ranges, range.1 < tablet.upper

section Calls

variable {a : ℕ} {front x : κ} {call : ItemsCall} {calls : List ItemsCall} {part : Partition κ}

structure CallsOk (n m : ℕ) (calls : List (ℕ × ℕ × ℕ)) : Prop where
  each : ∀ call ∈ calls, call.2.1 ≠ call.2.2 ∧ (call.1 = n → call.2.1 + 1 = m)
  increasing : calls.Pairwise (·.1 < ·.1)

/-- The calls for the partitions from `a` on. -/
def RoutedFrom (tablet : Tablet κ) (ranges : List (κ × κ)) (a : ℕ) (calls : List ItemsCall) : Prop :=
  Routed ranges.length tablet.nextPivotKeys.length
    (rangePredicate ranges tablet.nextPivotKeys) a calls

def tabletGroups (tablet : Tablet κ) (calls : List (ℕ × ℕ × ℕ)) : List PartitionGroup :=
  (calls.filter (·.1 ≠ tablet.nextPivotKeys.length)).map partitionGroup

variable (tablet) in
theorem exists_partition {i : ℕ} (hi : i < tablet.nextPivotKeys.length) :
    ∃ part, tablet.partitions[i]? = some part :=
  exists_getElem? (tablet.length_nextPivotKeys ▸ hi)

theorem inCell_iff {j : ℕ} (hp : tablet.partitions[j]? = some part) :
    InCell (tablet.lower :: tablet.nextPivotKeys) j x ↔ (0 < j → part.pivotKey ≤ x) ∧
      x < part.nextPivotKey := by
  simp [InCell, tablet.pivotKey_eq hp, tablet.nextPivotKey_eq hp]

theorem RoutedFrom.passed_iff (hranges : Ordered ranges) (h : RoutedFrom tablet ranges a calls)
    {i j : ℕ} (hi : i < ranges.length) (ha : a ≤ j) (hj : j ≤ tablet.nextPivotKeys.length) :
    Passed calls i j ↔ ∃ x, rangeRows ranges i x ∧
      InCell (tablet.lower :: tablet.nextPivotKeys) j x := by
  rw [h.exact i hi j ha hj, reaches_iff,
    ← range_touches_iff hranges tablet.bounds (fun _ => True) hi (Nat.lt_succ_of_le hj)]
  simp

theorem RoutedFrom.tail (h : RoutedFrom tablet ranges a (call :: calls)) :
    RoutedFrom tablet ranges (call.1 + 1) calls := by
  obtain ⟨hless, hi⟩ := pairwise_cons.mp h.increasing
  refine ⟨hi, fun c hc => ⟨hless c hc, (h.shards c (mem_cons_of_mem _ hc)).2⟩,
    (forall_mem_cons.mp h.items).2, fun i hi j hcj hj => ?_⟩
  have ha := (h.shards call mem_cons_self).1
  rw [← h.exact i hi j (by omega) hj, ← singleton_append, passed_append, or_iff_right]
  rintro ⟨c, hc, rfl, -⟩
  rw [mem_singleton.mp hc] at hcj
  exact absurd hcj (Nat.not_succ_le_self _)

/-- The calls for all groups pass the checks: only the last range goes beyond the tablet. -/
theorem RoutedFrom.callsOk (hr : RangesOk tablet ranges) (h : RoutedFrom tablet ranges a calls) :
    CallsOk tablet.nextPivotKeys.length ranges.length calls := by
  refine ⟨fun c hc => ⟨(h.items c hc).1.ne, fun hend => ?_⟩, h.increasing⟩
  have hitems := h.items c hc
  obtain ⟨x, ⟨range, hrange, -, hx⟩, hcell⟩ := (h.passed_iff hr.ordered (by omega) (h.shards c hc).1
    (h.shards c hc).2).mp ⟨c, hc, rfl, le_rfl, hitems.1⟩
  have hu : tablet.upper ≤ x := hcell.1 _ (hend ▸ tablet.nextPivotKeys_pos) (hend ▸ tablet.upper_eq)
  by_contra hne
  obtain ⟨next, hnext⟩ := exists_getElem? (l := ranges) (i := c.2.1 + 1) (by omega)
  have hafter := hr.ordered.le_of_lt (Nat.lt_succ_self _) hrange hnext
  exact absurd (hr.starts next (mem_of_getElem? hnext)) (not_lt.mpr ((hu.trans hx.le).trans hafter))

theorem RoutedFrom.groupOk (hr : RangesOk tablet ranges)
    (h : RoutedFrom tablet ranges a (call :: calls)) (hp : tablet.partitions[call.1]? = some part) :
      PartitionGroupOk tablet ranges (partitionGroup call) part := by
  obtain ⟨ha, hn⟩ := h.shards call mem_cons_self
  obtain ⟨hlt, hle⟩ := h.items call mem_cons_self
  have hmeets : ∀ i range, ranges[i]? = some range → ((call.2.1 ≤ i ∧ i < call.2.2) ↔
      ∃ x, (range.1 ≤ x ∧ x < range.2) ∧ (0 < call.1 → part.pivotKey ≤ x) ∧ x < part.nextPivotKey) := by
    intro i range hrange
    have hpassed := h.passed_iff hr.ordered (lt_of_getElem? hrange) ha hn
    simp only [rangeRows_eq hrange, inCell_iff hp] at hpassed
    rw [← hpassed]
    refine ⟨fun hi => ⟨call, mem_cons_self, rfl, hi⟩, ?_⟩
    rintro ⟨c, hc, heq, hi⟩
    rcases mem_cons.mp hc with rfl | hc
    · exact hi
    · exact absurd heq.symm ((pairwise_cons.mp h.increasing).1 c hc).ne
  obtain ⟨first, hfirst⟩ := exists_getElem? (l := ranges) (i := call.2.1) (by omega)
  obtain ⟨last, hlast⟩ := exists_getElem? (l := ranges) (i := call.2.2 - 1) (by omega)
  obtain ⟨x, hx, hxp, hxn⟩ := (hmeets _ first hfirst).mp ⟨le_rfl, hlt⟩
  obtain ⟨y, hy, hyp, hyn⟩ := (hmeets _ last hlast).mp ⟨by omega, by omega⟩
  refine ⟨hp, hlt, hle, fun i r hi hri => ?_, fun i r hi hri => ?_, fun r hri => ?_, fun r hri => ?_⟩
  · -- a range that ended in the partition would have been passed
    by_contra hge
    have hri1 := hr.ordered.lt hri
    have hend : r.2 ≤ first.1 := hr.ordered.le_of_lt hi hri hfirst
    refine absurd ((hmeets i r hri).mpr
      ⟨max r.1 part.pivotKey, ⟨le_max_left _ _, max_lt hri1 (not_le.mp hge)⟩,
      fun _ => le_max_right _ _, ?_⟩).1 (not_le.mpr hi)
    exact (max_lt hri1 (not_le.mp hge)).trans ((hend.trans hx.1).trans_lt hxn)
  · by_contra hge
    have hstart : last.2 ≤ r.1 :=
      hr.ordered.le_of_lt (by dsimp only [partitionGroup] at hi; omega) hlast hri
    exact absurd ((hmeets i r hri).mpr ⟨r.1, ⟨le_rfl, hr.ordered.lt hri⟩,
      fun h0 => (hyp h0).trans (hy.2.le.trans hstart), not_le.mp hge⟩).2 (not_lt.mpr hi)
  · exact (Option.mem_unique hlast hri ▸ hy.1).trans_lt hyn
  · obtain rfl : first = r := Option.mem_unique hfirst hri
    by_cases h0 : 0 < call.1
    · exact (hxp h0).trans_lt hx.2
    · have hlower := tablet.pivotKey_eq hp
      rw [Nat.eq_zero_of_not_pos h0] at hlower
      exact Option.some.inj hlower ▸ hr.ends first (mem_of_getElem? hfirst)

/-- Below the partitions of the calls no range holds a point. -/
theorem RoutedFrom.gap (hranges : Ordered ranges) (h : RoutedFrom tablet ranges a calls)
    (hf : (tablet.lower :: tablet.nextPivotKeys)[a]? = some front) {n : ℕ} {bound : κ}
    (hb : (tablet.lower :: tablet.nextPivotKeys)[n]? = some bound) (hc : ∀ call ∈ calls, n ≤ call.1)
    (hge : front ≤ x) (hlt : x < bound) : ¬InIntervals ranges x := by
  rintro ⟨range, hm, hx⟩
  obtain ⟨i, hi⟩ := mem_iff_getElem?.mp hm
  obtain ⟨j, hj, hcell⟩ := exists_inCell (cons_ne_nil tablet.lower tablet.nextPivotKeys) x
  have ha : a ≤ j := by
    by_contra hja
    obtain ⟨key, hk⟩ := exists_getElem? (l := tablet.lower :: tablet.nextPivotKeys) (i := j + 1)
      (Nat.lt_of_le_of_lt (by omega) (lt_of_getElem? hf))
    exact absurd (hcell.2 key hk) (not_lt.mpr ((getElem?_le tablet.bounds (by omega) hk hf).trans hge))
  obtain ⟨call, hcall, rfl, -⟩ :=
    (h.passed_iff hranges (lt_of_getElem? hi) ha (Nat.le_of_lt_succ hj)).mpr
    ⟨x, ⟨range, hi, hx⟩, hcell⟩
  have hn := hc call hcall
  obtain ⟨key, hk⟩ := exists_getElem? hj
  have hle : key ≤ x := by
    by_cases h0 : 0 < call.1
    · exact hcell.1 key h0 hk
    · rw [show call.1 = a by omega] at hk
      exact Option.mem_unique hf hk ▸ hge
  exact absurd hlt (not_lt.mpr ((getElem?_le tablet.bounds hn hb hk).trans hle))

/-- The collected groups tile the tablet from the frontier on. -/
theorem tiling_tabletGroups (hr : RangesOk tablet ranges) :
    ∀ {calls : List ItemsCall} {a : ℕ} {front : κ},
    RoutedFrom tablet ranges a calls → (tablet.lower :: tablet.nextPivotKeys)[a]? = some front →
      Tiling tablet ranges front (tabletGroups tablet calls)
  | [], a, front, h, hf => .done (tablet.le_upper hf) fun x =>
    h.gap hr.ordered hf tablet.upper_eq (by simp)
  | call :: calls, a, front, h, hf => by
    obtain ⟨ha, hn⟩ := h.shards call mem_cons_self
    have hfirst : ∀ c ∈ call :: calls, call.1 ≤ c.1 :=
      forall_mem_cons.mpr ⟨le_rfl, fun c hc => ((pairwise_cons.mp h.increasing).1 c hc).le⟩
    by_cases he : call.1 = tablet.nextPivotKeys.length
    · have hnil : tabletGroups tablet (call :: calls) = [] := by
        rw [tabletGroups, filter_eq_nil_iff.mpr, map_nil]
        intro c hc
        simpa using le_antisymm (h.shards c hc).2 (he ▸ hfirst c hc)
      rw [hnil]
      exact .done (tablet.le_upper hf) fun x => h.gap hr.ordered hf tablet.upper_eq (he ▸ hfirst)
    · obtain ⟨part, hp⟩ := exists_partition tablet (i := call.1) (by omega)
      have hcons : tabletGroups tablet (call :: calls) =
          partitionGroup call :: tabletGroups tablet calls := by
        simp [tabletGroups, he]
      rw [hcons]
      have hpivot := tablet.pivotKey_eq hp
      refine .step (h.groupOk hr hp) (getElem?_le tablet.bounds ha hf hpivot)
        (fun x => h.gap hr.ordered hf hpivot hfirst) (tiling_tabletGroups hr h.tail ?_)
      simpa using tablet.nextPivotKey_eq hp

end Calls

theorem groupRangesByPartition_spec (hranges : RangesOk tablet ranges) (hne : ranges ≠ []) :
    ∃ grouped, groupRangesByPartition tablet.partitions ranges = .ok grouped ∧
      Tiling tablet ranges tablet.lower grouped := by
  obtain ⟨hitems, hrouted⟩ := routed_groupByShards
    (routable_rangePredicate hranges.ordered (pairwise_cons.mp tablet.bounds).2)
  have hcalls := RoutedFrom.callsOk hranges hrouted
  refine ⟨_, ?_, tiling_tabletGroups hranges hrouted rfl⟩
  have hlen := length_pos_of_ne_nil hne
  have hfront : tablet.partitions[0]? = some (tablet.partitions.head tablet.nonempty) := by
    rw [← head?_eq_getElem?, head?_eq_some_head]
  have hb : tablet.partitions[tablet.partitions.length - 1]? =
      some (tablet.partitions.getLast tablet.nonempty) := by
    rw [← getLast?_eq_getElem?, getLast?_eq_getLast_of_ne_nil]
  obtain ⟨first, hfirst⟩ := exists_getElem? hlen
  obtain ⟨last, hlast⟩ := exists_getElem? (l := ranges) (i := ranges.length - 1) (by omega)
  have he : (tablet.partitions.head tablet.nonempty).pivotKey < first.2 :=
    hranges.ends first (mem_of_getElem? hfirst)
  have hs : last.1 < (tablet.partitions.getLast tablet.nonempty).nextPivotKey :=
    hranges.starts last (mem_of_getElem? hlast)
  have hinter : verifyIntersects tablet.partitions ranges = .ok () := by
    rw [verifyIntersects, if_pos hne, vectorAt_eq hfront, ok_bind, vectorAt_eq hb, ok_bind,
      vectorAt_eq hfirst, ok_bind,
      vectorAt_eq hlast, ok_bind, ytVerify_true he, ok_bind, ytVerify_true hs]
  have hcol := collectGroups_eq tablet.nextPivotKeys.length ranges.length _ [] hcalls.each
    hcalls.increasing (by simp)
  rw [groupRangesByPartition, hinter, ok_bind, groupItemsByShards]
  rw [← Tablet.nextPivotKeys, groupRanges, ytVerify_true fun group hg => (hitems group hg).ne,
    ok_bind, pure_eq_ok, ok_bind, ← tablet.length_nextPivotKeys, hcol]
  rfl

/-! ### The whole tablet -/

section Run

variable {counts : SplitCounts} {group : PartitionGroup} {groups : List PartitionGroup}
  {part : Partition κ}

/-- What the query asks of the tablet, from its lower bound on. -/
def Requested (tablet : Tablet κ) (ranges : List (κ × κ)) (x : κ) : Prop :=
  tablet.lower ≤ x ∧ InIntervals ranges x

theorem splitSlice_spec (ho : Ordered ranges) (hgroup : PartitionGroupOk tablet ranges group part) :
    ∃ slice, splitSlice part ranges group = .ok slice ∧
      slice.ranges = sliceOf ranges group.beginIt group.endIt ∧ slice.samples = part.sampleKeys ∧
      SliceOk (Requested tablet ranges) slice part.pivotKey part.nextPivotKey := by
  have hlt := hgroup.lt
  have hle := hgroup.le
  have hlen := length_sliceOf group.beginIt hle
  obtain ⟨front, hf⟩ := exists_getElem? (l := sliceOf ranges group.beginIt group.endIt)
    (i := 0) (by omega)
  obtain ⟨back, hb⟩ := exists_getElem? (l := sliceOf ranges group.beginIt group.endIt)
    (i := (sliceOf ranges group.beginIt group.endIt).length - 1) (by omega)
  have hslice := ordered_sliceOf ho group.beginIt group.endIt
  have hends : part.pivotKey < front.2 := by
    refine hgroup.ends front ?_
    rwa [sliceOf_getElem?, if_pos (by omega)] at hf
  have hstarts : back.1 < part.nextPivotKey := by
    refine hgroup.starts back ?_
    rw [sliceOf_getElem?, if_pos (by omega), hlen] at hb
    rwa [show group.beginIt + (group.endIt - group.beginIt - 1) = group.endIt - 1 by omega] at hb
  have hlower : tablet.lower ≤ part.pivotKey :=
    getElem?_le tablet.bounds (Nat.zero_le _) rfl (tablet.pivotKey_eq hgroup.partition_eq)
  refine ⟨⟨sliceOf ranges group.beginIt group.endIt, part.sampleKeys, max front.1 part.pivotKey,
    min back.2 part.nextPivotKey⟩, ?_, rfl, rfl, hslice, hgroup.increasing, ?_, ?_, ?_, ?_, ?_⟩
  · rw [splitSlice, vectorAt_eq hf, ok_bind, vectorAt_eq hb]
    rfl
  · intro r hr
    rw [Option.mem_unique hr hf]
  · intro r hr
    rw [Option.mem_unique hr hb]
  · intro i r hr
    have hi := lt_of_getElem? hr
    by_cases heq : i = (sliceOf ranges group.beginIt group.endIt).length - 1
    · rw [heq] at hr
      rwa [← Option.mem_unique hb hr]
    · exact ((hslice.lt hr).trans_le
        (hslice.le_of_lt (show i < _ by dsimp only at hi; omega) hr hb)).trans hstarts
  · intro i r hr
    exact hends.trans_le (hslice.snd_le (Nat.zero_le i) hf hr)
  · intro x hge hlt'
    rw [Requested, and_iff_right (hlower.trans hge),
      inIntervals_sliceOf (fun i r hi hr => (hgroup.before i r hi hr).trans hge)
        fun i r hi hr => hlt'.trans_le (hgroup.after i r hi hr)]

theorem groupShards_eq (hg : PartitionGroupOk tablet ranges group part) :
    groupShards tablet.partitions ranges group =
      touchedShards (groupRanges (sliceOf ranges group.beginIt group.endIt) part.sampleKeys) := by
  rw [groupShards, hg.partition_eq]
  rfl

/-- The partitions one after another cover what is requested of the tablet. -/
theorem splitPartitions_spec (hcounts : counts.Ok) (ho : Ordered ranges) {front : κ}
    (ht : Tiling tablet ranges front groups) :
    ∀ (count : ℕ) (state : SplitState κ), tablet.lower ≤ front →
      Reached (Requested tablet ranges) counts state front count →
      count + allShardCount tablet.partitions ranges groups ≤ counts.allShardCount →
      ∃ state', groups.foldlM (splitPartition tablet.partitions ranges counts) state = .ok state' ∧
        Reached (Requested tablet ranges) counts state' tablet.upper
          (count + allShardCount tablet.partitions ranges groups) := by
  induction ht with
  | done hu hgap =>
    intro count state _ hreached _
    exact ⟨state, rfl, hreached.batched, hreached.covers.advance hu fun x hge hlt hS =>
      hgap x hge hlt hS.2, hreached.count⟩
  | @step front group part rest hgroup hle hgap _ ih =>
    intro count state hlower hreached hcount
    rw [allShardCount, map_cons, sum_cons, ← allShardCount, groupShards_eq hgroup] at hcount ⊢
    obtain ⟨slice, hslice, hranges, hsamples, hsliceOk⟩ := splitSlice_spec ho hgroup
    have hgrouping := grouping_groupRanges hsliceOk.ordered hsliceOk.samples
    have hat : AtShard slice.ranges part.pivotKey slice.samples 0 0 part.pivotKey :=
      ⟨rfl, fun i r hi _ => absurd hi (Nat.not_lt_zero i), fun i r _ hr => hsliceOk.ends i r hr⟩
    have hreached' : Reached (Requested tablet ranges) counts state part.pivotKey count :=
      ⟨hreached.batched, hreached.covers.advance hle fun x hge hlt hS => hgap x hge hlt hS.2,
        hreached.count⟩
    obtain ⟨state', hrun, hreached''⟩ :=
      splitGroups_spec hsliceOk hcounts hgrouping part.pivotKey none count state
      hat .first hreached' (by rw [hranges, hsamples]; omega)
    rw [hranges, hsamples] at hreached''
    obtain ⟨state'', hfold, hfinal⟩ :=
      ih _ state' (hlower.trans (hle.trans hgroup.increasing.pivotKey_lt.le)) hreached'' (by omega)
    refine ⟨state'', ?_, by rwa [← Nat.add_assoc]⟩
    rw [foldlM_cons, splitPartition, vectorAt_eq hgroup.partition_eq, ok_bind, hslice, ok_bind,
      hrun, ok_bind, hfold]

end Run

theorem touchedShards_pos {slice : List (κ × κ)} {samples : List κ} (hslice : Ordered slice)
    (hsamples : samples.Pairwise (· < ·)) (hne : slice ≠ []) :
      0 < touchedShards (groupRanges slice samples) := by
  have hg := grouping_groupRanges hslice hsamples
  generalize groupRanges slice samples = groups at *
  cases groups with
  | nil =>
    generalize hb : (0 : ℕ) = b at hg
    cases hg
    exact absurd (length_eq_zero_iff.mp hb.symm) hne
  | cons group rest =>
    rw [touchedShards, map_cons, sum_cons]
    omega

theorem allShardCount_pos (hr : RangesOk tablet ranges) (hne : ranges ≠ [])
    {grouped : List PartitionGroup} (ht : Tiling tablet ranges tablet.lower grouped) :
      0 < allShardCount tablet.partitions ranges grouped := by
  cases ht with
  | done hu hgap =>
    -- The first range holds a point of the tablet, which no group would cover.
    obtain ⟨range, rest, rfl⟩ := exists_cons_of_ne_nil hne
    have hm : range ∈ range :: rest := mem_cons_self
    have hpoint := hgap (max tablet.lower range.1) (le_max_left _ _)
      (max_lt tablet.lower_lt_upper (hr.starts range hm))
    exact absurd ⟨range, hm, le_max_right _ _,
      max_lt (hr.ends range hm) (hr.ordered.nonempty range hm)⟩ hpoint
  | @step _ group part rest hgroup _ _ _ =>
    have hlt := hgroup.lt
    have hlen := length_sliceOf group.beginIt hgroup.le
    have hs := (pairwise_append.mp (pairwise_cons.mp hgroup.increasing).2).1
    have hpos := touchedShards_pos (ordered_sliceOf hr.ordered group.beginIt group.endIt) hs
      (ne_nil_of_length_pos (by omega))
    rw [allShardCount, map_cons, sum_cons, groupShards_eq hgroup]
    omega

/-- `SplitTablet` splits what the ranges hold of the tablet into batches, unless a product of `Step`
wraps around. -/
theorem splitTablet_covers (tablet : Tablet κ) {ranges : List (κ × κ)} (hne : ranges ≠ [])
    (hordered : Ordered ranges) (hends : ∀ range ∈ ranges, tablet.lower < range.2)
    (hstarts : ∀ range ∈ ranges, range.1 < tablet.upper)
    {maxSubsplitsPerTablet : ℕ} (hmax : 0 < maxSubsplitsPerTablet) :
    ∃ grouped, groupRangesByPartition tablet.partitions ranges = .ok grouped ∧
      ∀ all, all = allShardCount tablet.partitions ranges grouped →
      all * min maxSubsplitsPerTablet all < 2 ^ 64 →
      ∃ groups, splitTablet tablet.partitions ranges maxSubsplitsPerTablet = .ok groups ∧
        groups.length = min maxSubsplitsPerTablet all ∧
          (∀ range ∈ groups.flatten, range.1 < range.2) ∧
        groups.flatten.Pairwise (fun range range' => range.2 ≤ range'.1) ∧
        groups.flatten.Pairwise (fun range range' =>
          ∀ x, ¬((range.1 ≤ x ∧ x < range.2) ∧ range'.1 ≤ x ∧ x < range'.2)) ∧
        ∀ x, InIntervals groups.flatten x ↔ InIntervals ranges x ∧ tablet.lower ≤ x ∧
          x < tablet.upper := by
  have hranges : RangesOk tablet ranges := ⟨hordered, hends, hstarts⟩
  obtain ⟨grouped, hgrouped, htiling⟩ := groupRangesByPartition_spec hranges hne
  refine ⟨grouped, hgrouped, fun all hall hfits => ?_⟩
  have hpos : 0 < all := hall ▸ allShardCount_pos hranges hne htiling
  have hcounts : SplitCounts.Ok ⟨all, min maxSubsplitsPerTablet all⟩ :=
    ⟨lt_min hmax hpos, min_le_right _ _, hfits⟩
  have hstart : Reached (Requested tablet ranges) ⟨all, min maxSubsplitsPerTablet all⟩
      ⟨[], [], 0⟩ tablet.lower 0 :=
    ⟨⟨by simp, fun h => absurd rfl h⟩, coversTo_nil fun x hx => hx.1, rfl⟩
  obtain ⟨state, hrun, hreached⟩ := splitPartitions_spec hcounts hordered htiling 0 _ le_rfl hstart (by
    dsimp only
    omega)
  have hcount : state.currentShardCount = all := by rw [hreached.count, ← hall, Nat.zero_add]
  -- All shards are counted, so the last batch is closed.
  have hclosed : state.group = [] := by
    by_contra hopen
    exact absurd (hreached.batched.lt_of_open hopen) (by dsimp only; omega)
  have hcontent : state.content = state.groupedSplits.flatten := by
    rw [SplitState.content, hclosed, append_nil]
  have hcovers := hcontent ▸ hreached.covers
  refine ⟨state.groupedSplits, ?_, ?_, hcovers.ordered.nonempty, hcovers.ordered.ordered,
    hcovers.ordered.disjoint, fun x => ?_⟩
  · rw [splitTablet, hgrouped, ok_bind]
    dsimp only
    rw [← hall, ytVerify_true hcounts.pos, ok_bind, hrun, ok_bind, ytVerify_true hcount,
      ok_bind, pure_eq_ok]
  · rw [hreached.batched.length_eq, hcount]
    exact Nat.mul_div_cancel_left _ hpos
  · rw [hcovers.covers x, Requested]
    tauto

end Tablet

/-- Two partitions, cut by two samples and by one. -/
def exampleTablet : Tablet ℕ where
  partitions := [⟨0, 10, [3, 6]⟩, ⟨10, 20, [15]⟩]
  nonempty := by decide
  increasing := by
    unfold Partition.Increasing
    decide
  contiguous := by simp

theorem splitTablet_covers_example :
    ∃ groups, splitTablet exampleTablet.partitions [(1, 5), (5, 12), (14, 30)] 3 = .ok groups ∧
      groups.length = 3 ∧ (∀ range ∈ groups.flatten, range.1 < range.2) ∧
      groups.flatten.Pairwise (fun range range' => range.2 ≤ range'.1) ∧
      ∀ x, InIntervals groups.flatten x ↔ InIntervals [(1, 5), (5, 12), (14, 30)] x ∧
          exampleTablet.lower ≤ x ∧ x < exampleTablet.upper := by
  have hgroups : groupRangesByPartition exampleTablet.partitions [(1, 5), (5, 12), (14, 30)] =
      .ok [⟨0, 0, 2⟩, ⟨1, 1, 3⟩] := by decide +kernel
  have hordered : Ordered [(1, 5), (5, 12), (14, 30)] := ⟨by decide, by decide⟩
  obtain ⟨grouped, hgrouped, hsplit⟩ := splitTablet_covers exampleTablet (by decide) hordered
    (by decide) (by decide) (show 0 < 3 by decide)
  obtain rfl := Except.ok.inj (hgroups.symm.trans hgrouped)
  obtain ⟨groups, hok, hlength, hnonempty, hbefore, -, hcovers⟩ :=
    hsplit 5 (by decide +kernel) (by decide)
  exact ⟨groups, hok, hlength, hnonempty, hbefore, hcovers⟩

/-- Without ranges there is no shard to split, and a sample at the pivot key cuts off an empty
range; neither is accepted by `SplitTablet`. Where a product wraps around, `Step` gives 1 for 3. -/
theorem splitTablet_no_ranges : splitTablet exampleTablet.partitions [] 1 = .error .verify ∧
    splitTablet [⟨0, 10, []⟩, ⟨10, 20, [10, 15]⟩] [(5, 20)] 4 = .error .verify ∧
    step 3 (3 * 2 ^ 32) (2 ^ 32) = .ok 3 ∧ step (2 ^ 32 + 2) (3 * 2 ^ 32) (2 ^ 32) = .ok 1 := by
  decide +kernel

end Ytsaurus.Query
