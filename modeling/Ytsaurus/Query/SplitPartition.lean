/-
# Splitting the ranges of one partition

The samples of a partition cut its ranges into cells. While the groups that `GroupByShards` reports
are walked, the ranges produced so far cover exactly the requested points below a frontier
(`CoversTo`), which moves from sample to sample; the batches keep pace with the count of cells
(`Batched`).
-/
import Ytsaurus.Query.SplitTablet

namespace Ytsaurus.Query

open List Lib

/-! ### Batches -/

/-- `Step` leads to the first count at which the next batch is due. -/
theorem step_spec {cur source target : ℕ} (hp : 0 < target) (hle : target ≤ source)
    (hover : source * target < 2 ^ 64) (hlt : cur < source) :
    ∃ result, step cur source target = .ok result ∧ 0 < result ∧ cur + result ≤ source ∧
      (∀ n < result, (cur + n) * target / source = cur * target / source) ∧
      (cur + result) * target / source = cur * target / source + 1 := by
  have hsource : 0 < source := hp.trans_le hle
  have hwrap : cur * target % 2 ^ 64 = cur * target :=
    Nat.mod_eq_of_lt ((Nat.mul_le_mul_right _ hlt.le).trans_lt hover)
  -- The batches that are full, and how far the current one has come.
  have hsplit := Nat.div_add_mod (cur * target) source
  have hmod := Nat.mod_lt (cur * target) hsource
  have hfull : cur * target / source + 1 ≤ target :=
    Nat.div_lt_of_lt_mul (Nat.mul_lt_mul_of_pos_right hlt hp)
  generalize hq : cur * target / source = q at *
  generalize hm : cur * target % source = m at *
  have hfloor := Nat.div_add_mod (source - 1 - m) target
  have hr := Nat.mod_lt (source - 1 - m) hp
  generalize hd : (source - 1 - m) / target = d at *
  have hb : (cur + d) * target < source * (q + 1) := by
    rw [add_mul, mul_comm d, mul_add, mul_one]
    omega
  have habove : source * (q + 1) ≤ (cur + (d + 1)) * target := by
    rw [add_mul, add_mul, mul_comm d, mul_add, mul_one, one_mul]
    omega
  have he : cur + (d + 1) ≤ source := by
    have := Nat.lt_of_mul_lt_mul_right (hb.trans_le ((Nat.mul_le_mul_left source hfull).trans_eq rfl))
    omega
  refine ⟨d + 1, ?_, Nat.succ_pos d, he, fun n hn => ?_, ?_⟩
  · rw [step, hwrap]
    simp [hle, hlt.le, hm, hd, he]
  · refine Nat.div_eq_of_lt_le ?_ ?_
    · rw [add_mul, mul_comm q]
      omega
    · calc (cur + n) * target ≤ (cur + d) * target := Nat.mul_le_mul_right _ (by omega)
        _ < (q + 1) * source := by rwa [mul_comm (q + 1)]
  · refine Nat.div_eq_of_lt_le ?_ ?_
    · rwa [mul_comm (q + 1)]
    · calc (cur + (d + 1)) * target = (cur + d) * target + target := by ring
        _ < source * (q + 1) + source := by omega
        _ = (q + 1 + 1) * source := by ring

/-! ### Even steps -/

/-- Adds `Step` to `current` until `source` is reached: the steps. -/
def addSteps (source target : ℕ) : ℕ → ℕ → Result (List ℕ)
  | 0, _ => .error .fuel
  | fuel + 1, current =>
    if current = source then return []
    else do
      let result ← step current source target
      let rest ← addSteps source target fuel (current + result)
      return result :: rest

/-- The least number with `k * source ≤ cur * target`: where `k` steps lead. -/
def AfterSteps (source target k cur : ℕ) : Prop :=
  k * source ≤ cur * target ∧ cur * target < k * source + target

section Even

variable {source target : ℕ} (hp : 0 < target) (hle : target ≤ source)
  (hover : source * target < 2 ^ 64)

include hp hle hover

theorem AfterSteps.step {k cur : ℕ} (h : AfterSteps source target k cur) (hk : k < target) :
    ∃ result, cur < source ∧ step cur source target = .ok result ∧ AfterSteps source target (k + 1)
      (cur + result) ∧ source / target ≤ result ∧ result ≤ (source + target - 1) / target := by
  obtain ⟨hge, hlt⟩ := h
  have hless : cur < source := by
    have := Nat.mul_le_mul_right source (Nat.succ_le_of_lt hk)
    rw [Nat.succ_mul, Nat.mul_comm target] at this
    exact Nat.lt_of_mul_lt_mul_right (a := target) (by omega)
  obtain ⟨result, hstep, hpos, hsum, hsame, hnext⟩ := step_spec hp hle hover hless
  have hcurrent : cur * target / source = k := Nat.div_eq_of_lt_le hge (by rw [Nat.succ_mul]; omega)
  have hdue : (k + 1) * source ≤ (cur + result) * target := by
    rw [← hcurrent, ← hnext]
    exact Nat.div_mul_le_self _ _
  have hbefore : (cur + (result - 1)) * target < (k + 1) * source := by
    have := Nat.lt_div_mul_add (a := (cur + (result - 1)) * target) (hp.trans_le hle)
    rwa [hsame _ (by omega), hcurrent, ← Nat.succ_mul] at this
  have hend : (cur + result) * target < (k + 1) * source + target := by
    rw [show cur + result = cur + (result - 1) + 1 by omega, Nat.succ_mul]
    omega
  refine ⟨result, hless, hstep, ⟨hdue, hend⟩, ?_, ?_⟩
  · rw [Nat.succ_mul, Nat.add_mul] at hdue
    refine Nat.le_of_lt_succ ((Nat.div_lt_iff_lt_mul hp).mpr ?_)
    rw [Nat.succ_mul]
    omega
  · rw [Nat.succ_mul, Nat.add_mul] at hend
    exact (Nat.le_div_iff_mul_le hp).mpr (by omega)

theorem addSteps_spec : ∀ (n k fuel cur : ℕ), n + k = target → n < fuel →
    AfterSteps source target k cur →
    ∃ sizes, addSteps source target fuel cur = .ok sizes ∧ sizes.length = n ∧
      ∀ size ∈ sizes, source / target ≤ size ∧ size ≤ (source + target - 1) / target
  | n, k, 0, _, _, hf, _ => absurd hf (Nat.not_lt_zero n)
  | 0, k, fuel + 1, cur, hn, _, ⟨hge, hlt⟩ => by
    rw [show k = target by omega, Nat.mul_comm target] at hge hlt
    have heq : cur = source := by
      refine Nat.le_antisymm (Nat.le_of_lt_succ ?_) (Nat.le_of_mul_le_mul_right hge hp)
      exact Nat.lt_of_mul_lt_mul_right (hlt.trans_eq (Nat.succ_mul _ _).symm)
    rw [addSteps, if_pos heq]
    exact ⟨[], rfl, rfl, by simp⟩
  | n + 1, k, fuel + 1, cur, hn, hf, h => by
    obtain ⟨result, hless, hstep, hnext, hsize⟩ := h.step hp hle hover (by omega)
    obtain ⟨sizes, hrest, hlen, hsizes⟩ :=
      addSteps_spec n (k + 1) fuel (cur + result) (by omega) (by omega) hnext
    refine ⟨result :: sizes, ?_, congrArg (· + 1) hlen, forall_mem_cons.mpr ⟨hsize, hsizes⟩⟩
    rw [addSteps, if_neg hless.ne, hstep, ok_bind, hrest]
    rfl

/-- **`Step` splits evenly**: it leads to the size of the source in as many steps as the target has,
and each is the ratio of the sizes, rounded down or up. -/
theorem step_splits_evenly : ∃ sizes, addSteps source target (target + 1) 0 = .ok sizes ∧
    sizes.length = target ∧
    ∀ size ∈ sizes, size = source / target ∨ size = (source + target - 1) / target := by
  obtain ⟨sizes, hsteps, hlen, hsizes⟩ := addSteps_spec hp hle hover target 0 (target + 1) 0 rfl
    (Nat.lt_succ_self _) ⟨by simp, by simpa using hp⟩
  refine ⟨sizes, hsteps, hlen, fun size hm => ?_⟩
  obtain ⟨hdown, hup⟩ := hsizes size hm
  have hround : (source + target - 1) / target ≤ source / target + 1 := by
    rw [← Nat.add_div_right _ hp]
    exact Nat.div_le_div_right (Nat.sub_le _ _)
  omega

end Even

theorem step_splits_evenly_ten : ∃ sizes, addSteps 10 4 5 0 = .ok sizes ∧ sizes.length = 4 ∧
    ∀ size ∈ sizes, size = 10 / 4 ∨ size = (10 + 4 - 1) / 4 :=
  step_splits_evenly (by decide) (by decide) (by decide)

variable {κ : Type} [LinearOrder κ]

def SplitState.content (state : SplitState κ) : List (κ × κ) :=
  state.groupedSplits.flatten ++ state.group

/-- The batches keep pace with the count of shards, and no batch is open at the end. -/
structure Batched (counts : SplitCounts) (state : SplitState κ) : Prop where
  length_eq : state.groupedSplits.length =
    state.currentShardCount * counts.targetSplitCount / counts.allShardCount
  lt_of_open : state.group ≠ [] → state.currentShardCount < counts.allShardCount

/-- There is something to split, no more batches than shards, and the products of `Step` do not wrap
around. -/
structure SplitCounts.Ok (counts : SplitCounts) : Prop where
  pos : 0 < counts.targetSplitCount
  le : counts.targetSplitCount ≤ counts.allShardCount
  fits : counts.allShardCount * counts.targetSplitCount < 2 ^ 64

/-- The content and the count after a call that adds pieces and counts shards. -/
structure Advanced (counts : SplitCounts) (state state' : SplitState κ) (pieces : List (κ × κ))
    (count : ℕ) : Prop where
  batched : Batched counts state'
  content : state'.content = state.content ++ pieces
  count : state'.currentShardCount = state.currentShardCount + count

section AddGroup

variable {counts : SplitCounts} {state : SplitState κ} {pieces : List (κ × κ)} {count next : ℕ}

/-- `addGroup` right after the pieces were appended to the open batch. -/
theorem addGroup_spec (hcounts : counts.Ok) (hb : Batched counts state)
    (hlt : state.currentShardCount < counts.allShardCount)
    (hnext : step state.currentShardCount counts.allShardCount counts.targetSplitCount = .ok next)
    (hcount : count ≤ next) (hne : pieces ≠ []) (hordered : Ordered (state.content ++ pieces)) :
    ∃ state', addGroup counts count { state with group := state.group ++ pieces } = .ok state' ∧
      Advanced counts state state' pieces count := by
  obtain ⟨result, hstep, hp, he, hsame, hd⟩ := step_spec hcounts.pos hcounts.le hcounts.fits hlt
  obtain rfl : next = result := Except.ok.inj (hnext.symm.trans hstep)
  have hopen : state.group ++ pieces ≠ [] := append_ne_nil_of_right_ne_nil _ hne
  have hgroup : Ordered (state.group ++ pieces) := by
    rw [SplitState.content, append_assoc] at hordered
    exact hordered.right
  have hchain := hgroup.ordered.isChain
  by_cases hf : count = next
  · subst hf
    refine ⟨⟨state.groupedSplits ++ [state.group ++ pieces], [], state.currentShardCount + count⟩,
      ?_, ?_⟩
    · simp only [addGroup, ne_eq, hopen, not_false_eq_true, ytVerify_true, ok_bind, hstep, le_refl,
        hlt.le, if_true, ytVerify_true hchain, ytVerify_true hgroup.nonempty, pure_eq_ok]
    · refine ⟨⟨?_, fun h => absurd rfl h⟩, ?_, rfl⟩
      · simp [hb.length_eq, hd]
      · simp [SplitState.content]
  · refine ⟨⟨state.groupedSplits, state.group ++ pieces, state.currentShardCount + count⟩, ?_, ?_⟩
    · simp [addGroup, hopen, hstep, hlt.le, hcount, hf]
    · refine ⟨⟨?_, fun _ => ?_⟩, ?_, rfl⟩
      · simp [hb.length_eq, hsame count (by omega)]
      · dsimp only
        omega
      · simp [SplitState.content]

end AddGroup

/-! ### One range cut by samples -/

section Cut

variable {S : κ → Prop} {counts : SplitCounts} {samples : List κ}

/-- The state after a part of the work: the set is covered up to the frontier. -/
structure Reached (S : κ → Prop) (counts : SplitCounts) (state : SplitState κ) (frontier : κ)
    (count : ℕ) : Prop where
  batched : Batched counts state
  covers : CoversTo S state.content frontier
  count : state.currentShardCount = count

theorem Reached.advanced {state state' : SplitState κ} {frontier frontier' : κ} {count count' : ℕ}
    {pieces : List (κ × κ)} (h : Reached S counts state frontier count)
    (ha : Advanced counts state state' pieces count')
    (hc : CoversTo S (state.content ++ pieces) frontier') :
    Reached S counts state' frontier' (count + count') where
  batched := ha.batched
  covers := ha.content ▸ hc
  count := by rw [ha.count, h.count]

theorem coversTo_piece {out : List (κ × κ)} {frontier frontier' : κ} (h : CoversTo S out frontier)
    (hlt : frontier < frontier') (hS : ∀ x, frontier ≤ x → x < frontier' → S x) :
    CoversTo S (out ++ [(frontier, frontier')]) frontier' := by
  refine h.append hlt.le (ordered_singleton hlt) (by simp) (by simp) fun x hge hx => ?_
  rw [inIntervals_singleton]
  exact ⟨fun _ => hS x hge hx, fun _ => ⟨hge, hx⟩⟩

/-- The samples of one range cut it into pieces up to the last of them. -/
theorem cutBySamples_spec (hcounts : counts.Ok) (hsamples : samples.Pairwise (· < ·))
    {sampleItEnd : ℕ} {last : κ}
    (hlast : samples[sampleItEnd - 1]? = some last) (sampleIt : ℕ) (hit : sampleIt < sampleItEnd)
    (currentBound : κ) (hcurrent : ∀ key, samples[sampleIt]? = some key → currentBound < key)
    (hS : ∀ x, currentBound ≤ x → x < last → S x)
    (count : ℕ) (hcount : count + (sampleItEnd - sampleIt) < counts.allShardCount)
    (state : SplitState κ) (hreached : Reached S counts state currentBound count) :
    ∃ state', cutBySamples counts samples sampleItEnd sampleIt currentBound state = .ok state' ∧
      Reached S counts state' last (count + (sampleItEnd - sampleIt)) := by
  have hlt : state.currentShardCount < counts.allShardCount := by
    rw [hreached.count]
    omega
  obtain ⟨stepSize, hstep, hp, -⟩ := step_spec hcounts.pos hcounts.le hcounts.fits hlt
  have hlen : sampleItEnd - 1 < samples.length := lt_of_getElem? hlast
  have hm : 0 < min stepSize (sampleItEnd - sampleIt) := by omega
  rw [cutBySamples, dif_pos hit, hstep, ok_bind, dif_pos hm]
  dsimp only
  have hle : min stepSize (sampleItEnd - sampleIt) ≤ stepSize := Nat.min_le_left _ _
  have hle' : min stepSize (sampleItEnd - sampleIt) ≤ sampleItEnd - sampleIt := Nat.min_le_right _ _
  generalize min stepSize (sampleItEnd - sampleIt) = nextStep at *
  obtain ⟨first, hf⟩ := exists_getElem? (l := samples) (i := sampleIt) (by omega)
  obtain ⟨nextBound, hnext⟩ :=
    exists_getElem? (l := samples) (i := sampleIt + nextStep - 1) (by omega)
  have hb : currentBound < nextBound :=
    (hcurrent first hf).trans_le (getElem?_le hsamples (by omega) hf hnext)
  have hnextL : nextBound ≤ last := getElem?_le hsamples (by omega) hnext hlast
  have hcov := coversTo_piece hreached.covers hb fun x hge hx => hS x hge (hx.trans_le hnextL)
  obtain ⟨state', hadd, hadvanced⟩ := addGroup_spec hcounts hreached.batched hlt hstep hle
    (cons_ne_nil _ _) hcov.ordered
  have hreached' := hreached.advanced hadvanced hcov
  rw [vectorAt_eq hnext, ok_bind, ytVerify_true hb, ok_bind, hadd, ok_bind]
  by_cases hd : sampleIt + nextStep < sampleItEnd
  · have hcurrent' : ∀ key, samples[sampleIt + nextStep]? = some key → nextBound < key := fun key hk =>
      getElem?_lt hsamples (by omega) hnext hk
    obtain ⟨state'', hrun, hreached''⟩ :=
      cutBySamples_spec hcounts hsamples hlast (sampleIt + nextStep) hd nextBound
      hcurrent' (fun x hge => hS x (hb.le.trans hge)) (count + nextStep) (by omega) state' hreached'
    refine ⟨state'', hrun, ?_⟩
    rwa [show count + (sampleItEnd - sampleIt) = count + nextStep +
      (sampleItEnd - (sampleIt + nextStep)) by omega]
  · obtain rfl : sampleItEnd = sampleIt + nextStep := by omega
    obtain rfl : nextBound = last := Option.mem_unique hnext hlast
    refine ⟨state', ?_, ?_⟩
    · rw [cutBySamples, dif_neg hd]
      rfl
    · rwa [Nat.add_sub_cancel_left]
termination_by sampleItEnd - sampleIt

end Cut

/-! ### The last cell of a group -/

/-- `ForEachRange` over ordered ranges clips the first and the last. -/
theorem forEachRange_spec (upper : κ) (last : κ × κ) :
    ∀ (ranges : List (κ × κ)) (lower : κ) (first : κ × κ),
    Ordered ranges → ranges.head? = some first → ranges.getLast? = some last → first.1 ≤ lower →
    lower < first.2 → last.1 < upper → upper ≤ last.2 → lower < upper →
    ∃ pieces, forEachRange lower upper ranges = .ok pieces ∧ pieces ≠ [] ∧ Ordered pieces ∧
      (∀ piece ∈ pieces, lower ≤ piece.1) ∧ (∀ piece ∈ pieces, piece.2 ≤ upper) ∧
      ∀ x, InIntervals pieces x ↔ InIntervals ranges x ∧ lower ≤ x ∧ x < upper
  | [], _, _, _, hfirst, _, _, _, _, _, _ => by simp at hfirst
  | [range], lower, first, hordered, hfirst, hlast, hge, hlt, hgt, hle, hne => by
    obtain rfl : range = first := by simpa using hfirst
    obtain rfl : range = last := by simpa using hlast
    refine ⟨[(lower, upper)], rfl, by simp, ordered_singleton hne, by simp, by simp, fun x => ?_⟩
    rw [inIntervals_singleton, inIntervals_singleton]
    exact ⟨fun hx => ⟨⟨hge.trans hx.1, hx.2.trans_le hle⟩, hx⟩, fun hx => hx.2⟩
  | range :: next :: rest, lower, first, hordered, hfirst, hlast, hge, hlt, hgt, hle, hne => by
    obtain rfl : range = first := by simpa using hfirst
    have hlast' : (next :: rest).getLast? = some last := by simpa using hlast
    have hm : last ∈ next :: rest := mem_of_getLast? hlast'
    obtain ⟨-, htail, ha⟩ := ordered_cons.mp hordered
    have hnext : next.1 < next.2 := htail.nonempty next mem_cons_self
    have hnextL : next.1 ≤ last.1 := htail.head_le ⟨last, hm, le_rfl, htail.nonempty last hm⟩
    obtain ⟨pieces, hr, hp, horder, hfrom, hto, hiff⟩ := forEachRange_spec upper last
      (next :: rest) next.1 next htail rfl hlast' le_rfl hnext hgt hle (hnextL.trans_lt hgt)
    have hs : range.2 ≤ next.1 := ha next.1 ⟨next, mem_cons_self, le_rfl, hnext⟩
    have hu : range.2 ≤ upper := hs.trans (hnextL.trans hgt.le)
    refine ⟨(lower, range.2) :: pieces, ?_, cons_ne_nil _ _, ?_, ?_, ?_, fun x => ?_⟩
    · rw [forEachRange, hr]
      rfl
    · exact ordered_cons.mpr ⟨hlt, horder, fun x hx => hs.trans ((hiff x).mp hx).2.1⟩
    · exact forall_mem_cons.mpr ⟨le_rfl, fun i hi => hlt.le.trans (hs.trans (hfrom i hi))⟩
    · exact forall_mem_cons.mpr ⟨hu, hto⟩
    · rw [inIntervals_cons, inIntervals_cons, hiff]
      constructor
      · rintro (hx | ⟨hx, hx1, hx2⟩)
        · exact ⟨.inl ⟨hge.trans hx.1, hx.2⟩, hx.1, hx.2.trans_le hu⟩
        · exact ⟨.inr hx, hlt.le.trans (hs.trans hx1), hx2⟩
      · rintro ⟨hx | hx, hx1, hx2⟩
        · exact .inl ⟨hx1, hx.2⟩
        · exact .inr ⟨hx, htail.head_le hx, hx2⟩

/-! ### One group -/

/-- The slice of a partition: in its bounds the set is what the ranges of the slice hold. -/
structure SliceOk (S : κ → Prop) (slice : SplitSlice κ) (pivotKey nextPivotKey : κ) : Prop where
  ordered : Ordered slice.ranges
  increasing : (pivotKey :: (slice.samples ++ [nextPivotKey])).Pairwise (· < ·)
  minBound_eq : ∀ front, slice.ranges[0]? = some front → slice.minBound = max front.1 pivotKey
  maxBound_eq : ∀ back, slice.ranges[slice.ranges.length - 1]? = some back →
    slice.maxBound = min back.2 nextPivotKey
  starts : ∀ (i : ℕ) (range : κ × κ), slice.ranges[i]? = some range → range.1 < nextPivotKey
  ends : ∀ (i : ℕ) (range : κ × κ), slice.ranges[i]? = some range → pivotKey < range.2
  holds : ∀ x, pivotKey ≤ x → x < nextPivotKey → (S x ↔ InIntervals slice.ranges x)

section Group

variable {S : κ → Prop} {counts : SplitCounts} {slice : SplitSlice κ}
  {pivot nextPivotKey frontier : κ}
  {key : κ} {rangesItLast : Option ℕ} {a b count : ℕ} {group : ShardGroup} {range : κ × κ}
    {state : SplitState κ}

/-- How the next group relates to the one before: it is the first, its first range goes on from
the group before, or it starts with a new range. -/
inductive Continues (ranges : List (κ × κ)) (frontier : κ) : Option ℕ → ℕ → ℕ → Prop
  | first : Continues ranges frontier none 0 0
  | straddles {a b : ℕ} : 0 < a → (∀ range, ranges[b]? = some range → range.1 < frontier) →
      Continues ranges frontier (some b) a b
  | fresh {a b : ℕ} : 0 < a → 0 < b → (∀ range, ranges[b]? = some range → frontier ≤ range.1) →
      Continues ranges frontier (some (b - 1)) a b

theorem continues_step {next : ℕ} (he : EndsAt slice.ranges slice.samples b next group key) :
    Continues slice.ranges key (some (group.itemsEnd - 1)) (group.shardsEnd + 1) next := by
  rcases he.items with ⟨hi, range', hr', hs⟩ | ⟨hi, ha⟩
  · rw [hi, Nat.add_sub_cancel]
    refine .straddles (Nat.succ_pos _) fun r hr => ?_
    rwa [← Option.mem_unique hr' hr]
  · rw [hi]
    exact .fresh (Nat.succ_pos _) (Nat.zero_lt_of_lt he.lt) ha

/-- How a group ends: the last of its ranges, and the cell that holds it. -/
structure GroupEnd (slice : SplitSlice κ) (group : ShardGroup) (upper frontier : κ)
    (last : κ × κ) : Prop where
  lt : group.itemsBegin < group.itemsEnd
  last_eq : slice.ranges[group.itemsEnd - 1]? = some last
  starts : last.1 < frontier
  after : ∀ (i : ℕ) (range : κ × κ), group.itemsEnd ≤ i → slice.ranges[i]? = some range →
    frontier ≤ range.1
  cellUpper : cellUpper slice group.shardsEnd = .ok upper
  upper_eq : min upper last.2 = min frontier last.2

omit [LinearOrder κ] in
theorem sliceOf_getElem? (ranges : List (κ × κ)) (beginIt endIt i : ℕ) :
    (sliceOf ranges beginIt endIt)[i]? = if i < endIt - beginIt then ranges[beginIt + i]? else none := by
  rw [sliceOf, getElem?_take, getElem?_drop]

variable {ranges : List (κ × κ)}

theorem ordered_sliceOf (h : Ordered ranges) (beginIt endIt : ℕ) :
    Ordered (sliceOf ranges beginIt endIt) := by
  have hs : (sliceOf ranges beginIt endIt).Sublist ranges :=
    (take_sublist _ _).trans (drop_sublist _ _)
  exact ⟨fun i hi => h.nonempty i (hs.subset hi), h.ordered.sublist hs⟩

omit [LinearOrder κ] in
theorem length_sliceOf (beginIt : ℕ) {endIt : ℕ} (h : endIt ≤ ranges.length) :
    (sliceOf ranges beginIt endIt).length = endIt - beginIt := by
  rw [sliceOf, length_take, length_drop]
  omega

theorem inIntervals_sliceOf {beginIt endIt : ℕ} {x : κ}
    (hb : ∀ i range, i < beginIt → ranges[i]? = some range → range.2 ≤ x)
    (ha : ∀ i range, endIt ≤ i → ranges[i]? = some range → x < range.1) :
    InIntervals (sliceOf ranges beginIt endIt) x ↔ InIntervals ranges x := by
  constructor
  · rintro ⟨r, hm, hx⟩
    exact ⟨r, mem_of_mem_drop (mem_of_mem_take hm), hx⟩
  · rintro ⟨r, hm, hx⟩
    obtain ⟨i, hi⟩ := mem_iff_getElem?.mp hm
    have hge : beginIt ≤ i := not_lt.mp fun h => absurd hx.2 (not_lt.mpr (hb i r h hi))
    have hlt : i < endIt := not_le.mp fun h => absurd hx.1 (not_le.mpr (ha i r h hi))
    refine ⟨r, mem_iff_getElem?.mpr ⟨i - beginIt, ?_⟩, hx⟩
    rw [sliceOf_getElem?, if_pos (by omega), Nat.add_sub_cancel' hge, hi]

variable (hslice : SliceOk S slice pivot nextPivotKey)

include hslice

theorem SliceOk.bounds : (pivot :: slice.samples).Pairwise (· < ·) :=
  hslice.increasing.sublist (Sublist.cons_cons _ (sublist_append_left _ _))

theorem SliceOk.samples : slice.samples.Pairwise (· < ·) :=
  (pairwise_cons.mp hslice.bounds).2

theorem SliceOk.sample_lt {i : ℕ} (hi : (pivot :: slice.samples)[i]? = some key) :
    key < nextPivotKey := by
  have hm := mem_of_getElem? hi
  have := pairwise_append.mp
    (show ((pivot :: slice.samples) ++ [nextPivotKey]).Pairwise (· < ·) from hslice.increasing)
  exact this.2.2 key hm nextPivotKey mem_cons_self

theorem SliceOk.pivotKey_le {i : ℕ} (hi : (pivot :: slice.samples)[i]? = some key) : pivot ≤ key :=
  getElem?_le hslice.bounds (Nat.zero_le i) rfl hi

section

variable (hgroup : GroupOk slice.ranges slice.samples a b group range)

include hgroup

theorem groupEnd_last (hs : group.shardsEnd = slice.samples.length)
    (hitems : group.itemsEnd = slice.ranges.length) :
      ∃ upper last, GroupEnd slice group upper nextPivotKey last := by
  have hl := lt_of_getElem? hgroup.first
  obtain ⟨back, hb⟩ := exists_getElem? (l := slice.ranges) (i := slice.ranges.length - 1) (by omega)
  refine ⟨slice.maxBound, back, ?_, hitems ▸ hb, hslice.starts _ back hb,
    fun i r hi hr => ?_, ?_, ?_⟩
  · rw [hgroup.begin_eq, hitems]
    exact hl
  · have := lt_of_getElem? hr
    omega
  · simp [cellUpper, hs]
  · rw [hslice.maxBound_eq back hb, min_comm back.2, min_assoc, min_self]

theorem groupEnd_step {next : ℕ} (he : EndsAt slice.ranges slice.samples b next group key) :
    ∃ last, GroupEnd slice group key key last := by
  have hu : cellUpper slice group.shardsEnd = .ok key := by
    have hne := (lt_of_getElem? he.key_eq).ne
    rw [cellUpper, if_neg hne, vectorAt_eq he.key_eq]
  obtain ⟨hb, ⟨last, hlast, hs⟩, hafter⟩ := items_of_step hslice.ordered he
  exact ⟨last, hgroup.begin_eq ▸ hb, hlast, hs, hafter, hu, rfl⟩

variable (hat : AtShard slice.ranges pivot slice.samples a b frontier)

include hat

theorem begin_eq_of_lt (hlt : range.1 < frontier) : group.shardsBegin = a := by
  by_contra hne
  have hle := hgroup.le_begin
  have hbound := hgroup.begin_le.trans hgroup.end_le
  obtain ⟨key, hk⟩ := exists_getElem? (l := slice.samples) (i := a) (by omega)
  have hbefore := hgroup.before a key (Nat.le_refl a) (by omega) hk
  exact absurd (hlt.trans (hat.lt_key hslice.bounds (Nat.le_refl a) hk)) (not_lt.mpr hbefore)

theorem Reached.start (hreached : Reached S counts state frontier count) :
    Reached S counts state (max range.1 frontier) count where
  batched := hreached.batched
  count := hreached.count
  covers := by
    have hn : max range.1 frontier < nextPivotKey :=
      max_lt (hslice.starts b range hgroup.first) (hslice.sample_lt hat.bound)
    refine hreached.covers.advance (le_max_right _ _) fun x hge hlt hS => ?_
    exact hat.gap hslice.ordered hgroup.first hge hlt
      ((hslice.holds x ((hslice.pivotKey_le hat.bound).trans hge) (hlt.trans hn)).mp hS)

variable (hcontinues : Continues slice.ranges frontier rangesItLast a b)

include hcontinues

theorem startBound_eq :
    startBound slice rangesItLast group range = .ok (max range.1 frontier) := by
  have hbegin := hgroup.begin_eq
  cases hcontinues with
  | first =>
    obtain rfl : pivot = frontier := Option.some.inj hat.bound
    simp [startBound, hbegin, hslice.minBound_eq range hgroup.first]
  | straddles ha hlt =>
    have hlt := hlt range hgroup.first
    have hsb := begin_eq_of_lt hslice hgroup hat hlt
    obtain ⟨a, rfl⟩ := Nat.exists_eq_add_of_lt ha
    have hr : slice.samples[a]? = some frontier := by simpa using hat.bound
    simp [startBound, hbegin, hsb, vectorAt_eq hr, hlt.le]
  | fresh ha hb hge =>
    have hne : b - 1 ≠ b := by omega
    simp [startBound, hbegin, hne, hb.ne', hge range hgroup.first]

/-- The lower bound of the last cell, once the inner samples have cut the first range. -/
theorem cellLower_eq (heq : group.shardsBegin = group.shardsEnd) : ∃ lower,
      cellLower slice group.shardsEnd = .ok lower ∧ max lower range.1 = max range.1 frontier := by
  by_cases hz : group.shardsEnd = 0
  · -- Only the first group of a partition lies before its first sample.
    have ha : a = 0 := by
      have := hgroup.le_begin
      omega
    cases hcontinues with
    | first =>
      obtain rfl : pivot = frontier := Option.some.inj hat.bound
      refine ⟨slice.minBound, by simp [cellLower, hz], ?_⟩
      rw [hslice.minBound_eq range hgroup.first, max_comm, ← max_assoc, max_self]
    | straddles hp => omega
    | fresh hp => omega
  · have hend := hgroup.end_le
    obtain ⟨key, hk⟩ := exists_getElem? (l := slice.samples) (i := group.shardsEnd - 1) (by omega)
    refine ⟨key, by simp [cellLower, hz, vectorAt_eq hk], ?_⟩
    by_cases hae : a = group.shardsEnd
    · have hbound := hat.bound
      rw [hae, show group.shardsEnd = group.shardsEnd - 1 + 1 by omega, getElem?_cons_succ, hk] at hbound
      rw [Option.some.inj hbound, max_comm]
    · have hle := hgroup.le_begin
      have hbefore := hgroup.before (group.shardsEnd - 1) key (by omega) (by omega) hk
      have hf := hat.lt_key hslice.bounds (show a ≤ group.shardsEnd - 1 by omega) hk
      rw [max_eq_right hbefore, max_eq_left (hf.le.trans hbefore)]

variable (hcounts : counts.Ok)

include hcounts

theorem cutFirstRange_spec (hr : Reached S counts state frontier count)
    (hcount : count + (group.shardsEnd - group.shardsBegin) < counts.allShardCount) :
    ∃ state' reached lower, cutFirstRange counts slice rangesItLast group range state = .ok state' ∧
      Reached S counts state' reached (count + (group.shardsEnd - group.shardsBegin)) ∧
      cellLower slice group.shardsEnd = .ok lower ∧ max lower range.1 = reached ∧
        frontier ≤ reached ∧ reached < range.2 ∧ reached < nextPivotKey ∧
      ∀ key, slice.samples[group.shardsEnd]? = some key → reached < key := by
  have hr := hr.start hslice hgroup hat
  have hs : max range.1 frontier < range.2 :=
    max_lt (hslice.ordered.lt hgroup.first) (hat.alive b range (Nat.le_refl b) hgroup.first)
  have ha : ∀ j key, group.shardsBegin ≤ j → slice.samples[j]? = some key → max range.1 frontier < key :=
    fun j key hj hk => max_lt (hgroup.above j key hj hk)
      (hat.lt_key hslice.bounds (hgroup.le_begin.trans hj) hk)
  by_cases heq : group.shardsBegin = group.shardsEnd
  · obtain ⟨lower, hlower, hm⟩ := cellLower_eq hslice hgroup hat hcontinues heq
    have hn : max range.1 frontier < nextPivotKey :=
      max_lt (hslice.starts b range hgroup.first) (hslice.sample_lt hat.bound)
    refine ⟨state, max range.1 frontier, lower, by simp [cutFirstRange, heq], ?_, hlower, hm,
      le_max_right _ _, hs, hn, fun key hk => ha _ key heq.le hk⟩
    rwa [heq, Nat.sub_self, Nat.add_zero]
  · have hend := hgroup.end_le
    have hle := hgroup.begin_le
    obtain ⟨last, hlast⟩ := exists_getElem? (l := slice.samples) (i := group.shardsEnd - 1) (by omega)
    have hi := hgroup.inside (group.shardsEnd - 1) last (by omega) (by omega) hlast
    have hlower : max range.1 frontier < last := ha (group.shardsEnd - 1) last (by omega) hlast
    have hn : last < nextPivotKey :=
      hslice.sample_lt (i := group.shardsEnd - 1 + 1) (by simpa using hlast)
    have hp : pivot ≤ max range.1 frontier := (hslice.pivotKey_le hat.bound).trans (le_max_right _ _)
    -- Between the start and the last sample the first range holds every point.
    have hS : ∀ x, max range.1 frontier ≤ x → x < last → S x := fun x hge hlt =>
      (hslice.holds x (hp.trans hge) (hlt.trans hn)).mpr
        ⟨range, mem_of_getElem? hgroup.first, (le_max_left _ _).trans hge, hlt.trans hi⟩
    obtain ⟨state', hcut, hr'⟩ :=
      cutBySamples_spec hcounts hslice.samples hlast group.shardsBegin (by omega)
      (max range.1 frontier) (fun key hk => ha _ key (Nat.le_refl _) hk) hS count hcount state hr
    refine ⟨state', last, last, ?_, hr', ?_, ?_, ?_, hi, hn, fun key hk => ?_⟩
    · have hu : last ≤ if group.itemsBegin + 1 = slice.ranges.length then slice.maxBound
          else range.2 := by
        split_ifs with hb
        · rw [hslice.maxBound_eq range
            (by rw [← hb, Nat.add_sub_cancel, hgroup.begin_eq]; exact hgroup.first)]
          exact le_min hi.le hn.le
        · exact hi.le
      rw [cutFirstRange, if_pos heq, startBound_eq hslice hgroup hat hcontinues, ok_bind,
        vectorAt_eq hlast, ok_bind, ytVerify_true hu, ok_bind, hcut]
    · have hz : group.shardsEnd ≠ 0 := by omega
      simp [cellLower, hz, vectorAt_eq hlast]
    · exact max_eq_left ((le_max_left _ _).trans hlower.le)
    · exact (le_max_right _ _).trans hlower.le
    · exact getElem?_lt hslice.samples (by omega) hlast hk

/-- A group covers the set up to the end of its last cell. -/
theorem splitGroup_spec {upper frontier' : κ} {last : κ × κ}
    (he : GroupEnd slice group upper frontier' last)
    (hfrontier : slice.samples[group.shardsEnd]? = some frontier' ∨ frontier' = nextPivotKey)
    (hreached : Reached S counts state frontier count)
    (hcount : count + (1 + (group.shardsEnd - group.shardsBegin)) ≤ counts.allShardCount) :
    ∃ state', splitGroup counts slice rangesItLast group state = .ok state' ∧
      Reached S counts state' frontier' (count + (1 + (group.shardsEnd - group.shardsBegin))) := by
  obtain ⟨mid, reached, lower, hcut, hmid, hlower, hmax, hle, hrange, hnext, hkey⟩ :=
    cutFirstRange_spec hslice hgroup hat hcontinues hcounts hreached (by omega)
  have hb := hgroup.begin_eq
  have hlt := he.lt
  have hfirst := hgroup.first
  have hrangeLast : range.2 ≤ last.2 :=
    hslice.ordered.snd_le (show b ≤ group.itemsEnd - 1 by omega) hfirst he.last_eq
  have hreachedLt : reached < frontier' := by
    rcases hfrontier with hk | rfl
    · exact hkey _ hk
    · exact hnext
  have hfrontierNext : frontier' ≤ nextPivotKey := by
    rcases hfrontier with hk | rfl
    · exact (hslice.sample_lt (i := group.shardsEnd + 1) (by simpa using hk)).le
    · exact le_rfl
  have hlen : group.itemsEnd ≤ slice.ranges.length := by
    have := lt_of_getElem? he.last_eq
    omega
  have hh : (sliceOf slice.ranges group.itemsBegin group.itemsEnd).head? = some range := by
    rw [head?_eq_getElem?, sliceOf_getElem?, if_pos (by omega), Nat.add_zero, hb, hfirst]
  have hgetL : (sliceOf slice.ranges group.itemsBegin group.itemsEnd).getLast? = some last := by
    rw [getLast?_eq_getElem?, length_sliceOf _ hlen, sliceOf_getElem?, if_pos (by omega), ← he.last_eq]
    congr 1
    omega
  obtain ⟨pieces, hpieces, hne, ho, hfrom, hto, hiff⟩ := forEachRange_spec (min upper last.2) last _
    (max lower range.1) range (ordered_sliceOf hslice.ordered group.itemsBegin group.itemsEnd) hh hgetL
    (le_max_right _ _) (hmax ▸ hrange)
    (he.upper_eq ▸ lt_min he.starts (hslice.ordered.lt he.last_eq)) (min_le_right _ _)
    (hmax ▸ he.upper_eq ▸ lt_min hreachedLt (hrange.trans_le hrangeLast))
  rw [hmax] at hfrom hiff
  rw [he.upper_eq] at hto hiff
  have hcov : CoversTo S (mid.content ++ pieces) frontier' := by
    refine hmid.covers.append hreachedLt.le ho hfrom
      (fun i hi => (hto i hi).trans (min_le_left _ _)) fun x hge hx => ?_
    rw [hslice.holds x ((hslice.pivotKey_le hat.bound).trans (hle.trans hge))
      (hx.trans_le hfrontierNext), hiff x,
      inIntervals_sliceOf (fun i r hi hr => (hat.ended i r (hb ▸ hi) hr).trans (hle.trans hge))
        fun i r hi hr => hx.trans_le (he.after i r hi hr)]
    refine ⟨fun h => h.1, fun h => ⟨h, hge, lt_min hx ?_⟩⟩
    obtain ⟨r, hmem, hr⟩ := h
    obtain ⟨i, hi⟩ := mem_iff_getElem?.mp hmem
    have hie : i ≤ group.itemsEnd - 1 := by
      by_contra hgt
      exact absurd (hx.trans_le (he.after i r (by omega) hi)) (not_lt.mpr hr.1)
    exact hr.2.trans_le (hslice.ordered.snd_le hie hi he.last_eq)
  have hmidLt : mid.currentShardCount < counts.allShardCount := by
    rw [hmid.count]
    omega
  obtain ⟨next, hs, hpos, -⟩ := step_spec hcounts.pos hcounts.le hcounts.fits hmidLt
  obtain ⟨state', hadd, hadvanced⟩ :=
    addGroup_spec hcounts hmid.batched hmidLt hs hpos hne hcov.ordered
  refine ⟨state', ?_, ?_⟩
  · rw [splitGroup, ytVerify_true (show group.itemsBegin ≠ group.itemsEnd by omega), ok_bind,
      vectorAt_eq (hb ▸ hfirst), ok_bind, hcut, ok_bind, hlower, ok_bind, he.cellUpper, ok_bind,
      vectorAt_eq he.last_eq, ok_bind, hpieces, ok_bind, hadd]
  · have := hmid.advanced hadvanced hcov
    rwa [show count + (1 + (group.shardsEnd - group.shardsBegin)) =
      count + (group.shardsEnd - group.shardsBegin) + 1 by omega]

end

/-- The groups of a slice cover the set up to the end of the partition. -/
theorem splitGroups_spec (hcounts : counts.Ok) {groups : List ShardGroup}
    (hgrouping : Grouping slice.ranges slice.samples a b groups) :
    ∀ (frontier : κ) (rangesItLast : Option ℕ) (count : ℕ) (state : SplitState κ),
      AtShard slice.ranges pivot slice.samples a b frontier →
      Continues slice.ranges frontier rangesItLast a b →
      Reached S counts state frontier count → count + touchedShards groups ≤ counts.allShardCount →
      ∃ state', splitGroups counts slice rangesItLast groups state = .ok state' ∧
        Reached S counts state' nextPivotKey (count + touchedShards groups) := by
  induction hgrouping with
  | done =>
    intro frontier rangesItLast count state hat _ hreached _
    refine ⟨state, rfl, hreached.batched, ?_, hreached.count⟩
    refine hreached.covers.advance (hslice.sample_lt hat.bound).le fun x hge hlt hS =>
      hat.gap_of_done hge ?_
    exact (hslice.holds x ((hslice.pivotKey_le hat.bound).trans hge) hlt).mp hS
  | last hgroup hs hi =>
    intro frontier rangesItLast count state hat hcontinues hreached hcount
    obtain ⟨upper, last, hend⟩ := groupEnd_last hslice hgroup hs hi
    obtain ⟨state', hrun, hreached'⟩ := splitGroup_spec hslice hgroup hat hcontinues hcounts hend
      (.inr rfl) hreached (by simpa [touchedShards] using hcount)
    refine ⟨state', ?_, by simpa [touchedShards] using hreached'⟩
    rw [splitGroups, hrun]
    rfl
  | step hgroup hk hlt hle hended ha hi _ ih =>
    intro frontier rangesItLast count state hat hcontinues hreached hcount
    rw [touchedShards, map_cons, sum_cons, ← touchedShards] at hcount ⊢
    have he : EndsAt .. := ⟨hk, hlt, hle, hended, ha, hi⟩
    obtain ⟨last, hend⟩ := groupEnd_step hslice hgroup he
    obtain ⟨state', hrun, hreached'⟩ :=
      splitGroup_spec hslice hgroup hat hcontinues hcounts hend (.inl hk) hreached (by omega)
    obtain ⟨state'', hrun', hreached''⟩ := ih _ (some (_ - 1)) _ state'
      (hat.next hslice.ordered hslice.bounds hgroup he) (continues_step he) hreached' (by omega)
    refine ⟨state'', ?_, by rwa [← Nat.add_assoc]⟩
    rw [splitGroups, hrun, ok_bind, hrun']

end Group

end Ytsaurus.Query
