/-
# Routing items to shards

`SplitRangesByTablets` and `SplitKeysByTablets` of `query/base/coordination_helpers.h` crop a sorted
list of items by two cap bounds and pass what is left to the tablets with `GroupItemsByShards`.

The walk is described for any predicate that is monotone in the items and in the shards
(`Routable`): it returns, its calls go up in the shards and none is empty, and the items of a shard
are those of `Reaches`. For ranges and for full keys these are the items that touch the shard. A key
that is a proper initial part of the full ones stands for all rows that start with it, and then two
comparisons are off: a pivot that starts with the key is compared by its own initial part, and the
caps are compared with the key instead of with its rows.
-/
import Ytsaurus.Lib.LexOrder
import Ytsaurus.Lib.TernaryCompare
import Ytsaurus.Query.SplitTablet

namespace Ytsaurus.Query

open List Lib

/-! ### The code -/

/-- A call of `onItemsFunctor`: the position of a shard, and the positions of its items. -/
abbrev ItemsCall : Type := ℕ × ℕ × ℕ

/-- The predicate over the items from a position on. -/
def ShardPredicate.dropItems (pred : ShardPredicate) (itemsBegin : ℕ) : ShardPredicate where
  precedes item shard := pred.precedes (itemsBegin + item) shard
  follows item shard := pred.follows (itemsBegin + item) shard

/-- `GroupItemsByShards` of the items `[itemsBegin, itemsEnd)`. -/
def groupSliceByShards (itemsBegin itemsEnd shardCount : ℕ) (pred : ShardPredicate) :
    Result (List ItemsCall) := do
  let calls ← groupItemsByShards
    (groupByShards (itemsEnd - itemsBegin) shardCount (pred.dropItems itemsBegin))
  return calls.map fun call => (call.1, itemsBegin + call.2.1, itemsBegin + call.2.2)

/-- `CropItems`: where the items that are kept begin and end. -/
def cropItems (itemCount : ℕ) (less notGreater : ℕ → Bool) : ℕ × ℕ :=
  let itemsBegin := binarySearch 0 itemCount less
  (itemsBegin, binarySearch itemsBegin itemCount notGreater)

/-- What `SplitRangesByTablets` and `SplitKeysByTablets` share. -/
def splitItems (itemCount tabletCount : ℕ) (less notGreater : ℕ → Bool) (pred : ShardPredicate) :
    Result (List ItemsCall) := do
  let cropped := cropItems itemCount less notGreater
  ytVerify (tabletCount ≠ 0)
  groupSliceByShards cropped.1 cropped.2 (tabletCount - 1) pred

/-- `SplitRangesByTablets`; a tablet is its pivot key. -/
def splitRangesByTablets {κ : Type} [LinearOrder κ] (ranges : List (κ × κ)) (tablets : List κ)
    (lowerCapBound upperCapBound : κ) : Result (List ItemsCall) :=
  splitItems ranges.length tablets.length
    (fun item => (ranges[item]?).any fun range => decide ¬lowerCapBound < range.2)
    (fun item => (ranges[item]?).any fun range => decide ¬upperCapBound < range.1)
    (rangePredicate ranges (tablets.drop 1))

section Keys

variable {α : Type} [LinearOrder α]

/-- `CompareRows` of the first values only. -/
def compareRowPrefixes (lhs rhs : List α) (prefixLength : ℕ) : ℤ :=
  ternaryCompare (lhs.take prefixLength) (rhs.take prefixLength)

/-- The predicate of `SplitKeysByTablets`. -/
def keyPredicate (keySize : ℕ) (isFullKey : Bool) (keys pivots : List (List α)) :
    ShardPredicate where
  precedes item shard := (keys[item]?).any fun key => (pivots[shard]?).any fun pivot =>
    decide (compareRowPrefixes key pivot keySize < 0)
  follows item shard := (keys[item]?).any fun key => (pivots[shard]?).any fun pivot =>
    decide (compareRowPrefixes pivot key keySize < isFullKey.toInt)

/-- `SplitKeysByTablets`; a tablet is its pivot key. -/
def splitKeysByTablets (keys : List (List α)) (keyWidth fullKeySize : ℕ) (tablets : List (List α))
    (lowerCapBound upperCapBound : List α) : Result (List ItemsCall) :=
  splitItems keys.length tablets.length
    (fun item => (keys[item]?).any fun key => decide (key < lowerCapBound))
    (fun item => (keys[item]?).any fun key => decide ¬upperCapBound < key)
    (keyPredicate keyWidth (decide (keyWidth = fullKeySize)) keys (tablets.drop 1))

end Keys

/-! ### The walk for a monotone predicate -/

/-- The item is among those of a call for the shard. -/
def Passed (calls : List ItemsCall) (i j : ℕ) : Prop :=
  ∃ call ∈ calls, call.1 = j ∧ call.2.1 ≤ i ∧ i < call.2.2

/-- The item does not end before the shard's lower key, nor start past its upper one, and all
earlier items end there. -/
@[mk_iff] structure Reaches (shardCount : ℕ) (pred : ShardPredicate) (i j : ℕ) : Prop where
  lower : 0 < j → pred.precedes i (j - 1) = false
  upper : j < shardCount → pred.follows i j = false ∧ ∀ i' < i, pred.precedes i' j = true

/-- The calls for the shards from `a` on: they go up, none is empty, and they pass what is reached.
-/
structure Routed (itemCount shardCount : ℕ) (pred : ShardPredicate) (a : ℕ)
    (calls : List ItemsCall) : Prop where
  increasing : calls.Pairwise fun l r => l.1 < r.1
  shards : ∀ call ∈ calls, a ≤ call.1 ∧ call.1 ≤ shardCount
  items : ∀ call ∈ calls, call.2.1 < call.2.2 ∧ call.2.2 ≤ itemCount
  exact : ∀ i < itemCount, ∀ j, a ≤ j → j ≤ shardCount →
    (Passed calls i j ↔ Reaches shardCount pred i j)

/-- The walk stands at shard `a` and item `b`: the items before `b` are those that precede the last
shard done. -/
structure WalkAt (itemCount : ℕ) (pred : ShardPredicate) (a b : ℕ) : Prop where
  before : ∀ i < b, 0 < a ∧ pred.precedes i (a - 1) = true
  rest : ∀ i, b ≤ i → i < itemCount → 0 < a → pred.precedes i (a - 1) = false

theorem passed_append {l r : List ItemsCall} {i j : ℕ} : Passed (l ++ r) i j ↔ Passed l i j ∨
    Passed r i j := by
  simp only [Passed, mem_append, or_and_right, exists_or]

variable {group : ShardGroup}

theorem passed_itemCalls {i j : ℕ} (hle : group.shardsBegin ≤ group.shardsEnd) :
    Passed (itemCalls group) i j ↔
      (group.shardsBegin ≤ j ∧ j < group.shardsEnd ∧ i = group.itemsBegin) ∨
        (j = group.shardsEnd ∧ group.itemsBegin ≤ i ∧ i < group.itemsEnd) := by
  rw [itemCalls, passed_append]
  refine or_congr ?_ ?_
  · simp only [Passed, mem_map, mem_range'_1]
    constructor
    · rintro ⟨call, ⟨s, hs, rfl⟩, rfl, hi⟩
      dsimp only at hi ⊢
      exact ⟨hs.1, by omega, by omega⟩
    · rintro ⟨hj, hlt, rfl⟩
      exact ⟨_, ⟨j, ⟨hj, by omega⟩, rfl⟩, rfl, le_rfl, Nat.lt_succ_self _⟩
  · simp only [Passed, mem_singleton, exists_eq_left]
    exact and_congr_left' eq_comm

section Walk

variable {itemCount shardCount : ℕ} {pred : ShardPredicate} {a b s e : ℕ}

variable {i j : ℕ}

section

variable (hpred : Routable itemCount shardCount pred) (hat : WalkAt itemCount pred a b)

include hpred hat

theorem WalkAt.not_reached (hi : i < b) (hib : i < itemCount) (ha : a ≤ j) (hj : j ≤ shardCount) :
    ¬Reaches shardCount pred i j := by
  intro hr
  obtain ⟨hpos, hprec⟩ := hat.before i hi
  cases (hpred.precedes_shard hib (show a - 1 ≤ j - 1 by omega) (by omega) hprec).symm.trans
    (hr.lower (by omega))

theorem WalkAt.precedes (hi : i < b) (hib : i < itemCount) (ha : a ≤ j) (hj : j < shardCount) :
    pred.precedes i j = true :=
  hpred.precedes_shard hib (show a - 1 ≤ j by omega) hj (hat.before i hi).2

theorem WalkAt.skipped (hstart : PartitionPoint (fun it => pred.follows b it) a shardCount s)
    (hib : i < itemCount) (ha : a ≤ j) (hj : j < s) : ¬Reaches shardCount pred i j := by
  have hle := hstart.point_le
  by_cases hi : i < b
  · exact hat.not_reached hpred hi hib ha (by omega)
  · intro hr
    cases (hpred.follows_item (by omega) hib (by omega) (hstart.holds_before j ha hj)).symm.trans
      (hr.upper (by omega)).1

variable (hb : b < itemCount) (hstart : PartitionPoint (fun it => pred.follows b it) a shardCount s)

include hb hstart

theorem WalkAt.not_precedes (hend : PartitionPoint (fun it => !pred.precedes b it) s shardCount e)
    (hi : b ≤ i) (hib : i < itemCount) (hs : s ≤ j) (he : j ≤ e) (hj : 0 < j) :
      pred.precedes i (j - 1) = false := by
  have hle := hend.point_le
  have hf : pred.precedes b (j - 1) = false := by
    by_cases hin : s ≤ j - 1
    · simpa using hend.holds_before (j - 1) hin (by omega)
    · by_cases hlow : a ≤ j - 1
      · exact hpred.exclusive hb (by omega) (hstart.holds_before (j - 1) hlow (by omega))
      · have hja : j = a := by have := hstart.le_point; omega
        exact hja ▸ hat.rest b le_rfl hb (hja ▸ hj)
  by_contra hne
  cases (hpred.precedes_item hi hib (by omega) (by simpa using hne)).symm.trans hf

theorem WalkAt.inner (he : PartitionPoint (fun it => !pred.precedes b it) s shardCount e)
    (hib : i < itemCount) (hs : s ≤ j) (hj : j < e) : Reaches shardCount pred i j ↔ i = b := by
  have hle := he.point_le
  have hsa := hstart.le_point
  constructor
  · intro hr
    have hge : b ≤ i := by
      by_contra hlt
      exact hat.not_reached hpred (by omega) hib (by omega) (by omega) hr
    by_contra hne
    simpa [(hr.upper (by omega)).2 b (by omega)] using he.holds_before j hs hj
  · rintro rfl
    refine ⟨fun hpos => hat.not_precedes hpred hb hstart he le_rfl hb hs (by omega) hpos,
      fun hlt => ⟨?_, ?_⟩⟩
    · exact hstart.fails_from j hs hlt
    · intro i' hi'
      exact hat.precedes hpred hi' (by omega) (by omega) hlt

theorem WalkAt.last (he : PartitionPoint (fun it => !pred.precedes b it) s shardCount shardCount)
    (hib : i < itemCount) : Reaches shardCount pred i shardCount ↔ b ≤ i := by
  have hle := he.le_point
  have hsa := hstart.le_point
  constructor
  · intro hr
    by_contra hlt
    exact hat.not_reached hpred (by omega) hib (by omega) le_rfl hr
  · intro hi
    exact ⟨fun hp => hat.not_precedes hpred hb hstart he hi hib hle le_rfl hp, fun hlt =>
      absurd hlt (lt_irrefl _)⟩

/-- The shard that ends a group is reached by the items that precede its key, and by the next one
unless that one starts past the key. -/
theorem WalkAt.ending (hend : PartitionPoint (fun it => !pred.precedes b it) s shardCount e)
    (hlt : e < shardCount) {next : ℕ}
    (hnext : PartitionPoint (fun it => pred.precedes it e) b itemCount next) (hib : i < itemCount) :
    Reaches shardCount pred i e ↔
      b ≤ i ∧ i < if next < itemCount ∧ pred.follows next e = false then next + 1 else next := by
  have hse := hend.le_point
  have hsa := hstart.le_point
  have hprec : ∀ i' < next, pred.precedes i' e = true := by
    intro i' hi'
    by_cases hbi : b ≤ i'
    · exact hnext.holds_before i' hbi hi'
    · exact hat.precedes hpred (by omega) (by omega) (by omega) hlt
  constructor
  · intro hr
    have hge : b ≤ i := by
      by_contra hlow
      exact hat.not_reached hpred (by omega) hib (by omega) (by omega) hr
    have hle : i ≤ next := by
      by_contra hgt
      cases ((hr.upper hlt).2 next (by omega)).symm.trans (hnext.fails_from next le_rfl (by omega))
    refine ⟨hge, ?_⟩
    split_ifs with hif
    · omega
    · by_contra hge'
      have heq : i = next := by omega
      exact hif ⟨by omega, heq ▸ (hr.upper hlt).1⟩
  · rintro ⟨hge, hle⟩
    refine ⟨fun hpos => hat.not_precedes hpred hb hstart hend hge hib hse le_rfl hpos, fun _ => ⟨?_, ?_⟩⟩
    · by_cases hin : i < next
      · by_contra hne
        cases (hprec i hin).symm.trans (hpred.exclusive hib hlt (by simpa using hne))
      · split_ifs at hle with hif
        · exact (show i = next by omega) ▸ hif.2
        · exact absurd hle hin
    · intro i' hi'
      refine hprec i' ?_
      split_ifs at hle with hif <;> omega

theorem WalkAt.passed (he : PartitionPoint (fun it => !pred.precedes b it) s shardCount e)
    {itemsEnd : ℕ} (hl : ∀ i < itemCount, Reaches shardCount pred i e ↔ b ≤ i ∧ i < itemsEnd)
    (i : ℕ) (hi : i < itemCount) (j : ℕ) (haj : a ≤ j) (hj : j ≤ e) :
      Passed (itemCalls ⟨b, itemsEnd, s, e⟩) i j ↔ Reaches shardCount pred i j := by
  rw [passed_itemCalls he.le_point]
  dsimp only
  by_cases hjs : j < s
  · have := he.le_point
    simp only [hat.skipped hpred hstart hi haj hjs, iff_false]
    omega
  · by_cases hje : j < e
    · rw [hat.inner hpred hb hstart he hi (by omega) hje]
      omega
    · obtain rfl : j = e := by omega
      rw [hl i hi]
      omega

end

theorem shards_of_mem_itemCalls {call : ItemsCall} (hle : group.shardsBegin ≤ group.shardsEnd)
    (h : call ∈ itemCalls group) : group.shardsBegin ≤ call.1 ∧ call.1 ≤ group.shardsEnd ∧
      (call.2 = (group.itemsBegin, group.itemsBegin + 1) ∨
        call.2 = (group.itemsBegin, group.itemsEnd)) := by
  rcases mem_itemCalls h with ⟨hge, hlt, hitems⟩ | rfl
  · exact ⟨hge, hlt.le, .inl hitems⟩
  · exact ⟨hle, le_rfl, .inr rfl⟩

/-- The calls of a group in front of those for the later shards. -/
theorem Routed.cons {calls : List ItemsCall}
    (hrest : Routed itemCount shardCount pred (group.shardsEnd + 1) calls)
    (ha : a ≤ group.shardsBegin)
    (hle : group.shardsBegin ≤ group.shardsEnd) (he : group.shardsEnd ≤ shardCount)
    (hitems : group.itemsBegin < group.itemsEnd) (hitemE : group.itemsEnd ≤ itemCount)
    (hg : ∀ i < itemCount, ∀ j, a ≤ j → j ≤ group.shardsEnd →
      (Passed (itemCalls group) i j ↔ Reaches shardCount pred i j)) :
    Routed itemCount shardCount pred a (itemCalls group ++ calls) where
  increasing := by
    rw [pairwise_append]
    refine ⟨pairwise_itemCalls group, hrest.increasing, fun l hl r hr => ?_⟩
    have hl' := (shards_of_mem_itemCalls hle hl).2.1
    have hr' := (hrest.shards r hr).1
    omega
  shards := by
    refine forall_mem_append.mpr ⟨fun call h => ?_, fun call h => ?_⟩
    · have := shards_of_mem_itemCalls hle h
      omega
    · have := hrest.shards call h
      omega
  items := by
    refine forall_mem_append.mpr ⟨fun call h => ?_, hrest.items⟩
    obtain ⟨-, -, hc | hc⟩ := shards_of_mem_itemCalls hle h <;> rw [hc] <;> dsimp only <;> omega
  exact := by
    intro i hi j haj hj
    rw [passed_append]
    by_cases hin : j ≤ group.shardsEnd
    · have hn : ¬Passed calls i j := by
        rintro ⟨call, hc, rfl, -⟩
        have := hrest.shards call hc
        omega
      rw [or_iff_left hn]
      exact hg i hi j haj hin
    · have hn : ¬Passed (itemCalls group) i j := by
        rw [passed_itemCalls hle]
        omega
      rw [or_iff_right hn]
      exact hrest.exact i hi j (by omega) hj

theorem routed_nil_of_lt (h : shardCount < a) : Routed itemCount shardCount pred a [] where
  increasing := .nil
  shards := by simp
  items := by simp
  exact := fun i hi j ha hj => absurd h (by omega)

/-- The groups of the walk hold items, and their calls pass what is reached. -/
theorem ShardWalk.routed {groups : List ShardGroup} (hpred : Routable itemCount shardCount pred)
    (h : ShardWalk itemCount shardCount pred a b groups) (hat : WalkAt itemCount pred a b) :
    (∀ group ∈ groups, group.itemsBegin < group.itemsEnd) ∧
      Routed itemCount shardCount pred a (groups.flatMap itemCalls) := by
  induction h with
  | done =>
    refine ⟨by simp, .nil, by simp, by simp, fun i hi j haj hj => ?_⟩
    exact iff_of_false (by simp [Passed]) (hat.not_reached hpred hi hi haj hj)
  | last hm hstart he =>
    refine ⟨by simpa using hm, ?_⟩
    rw [flatMap_cons, flatMap_nil]
    refine Routed.cons (routed_nil_of_lt (Nat.lt_succ_self shardCount)) hstart.le_point he.le_point
      (Nat.le_refl shardCount) hm (Nat.le_refl itemCount) (hat.passed hpred hm hstart he fun i hi => ?_)
    rw [hat.last hpred hm hstart he hi]
    exact (and_iff_left hi).symm
  | @step a b s e next rest hbn hstart he hlt hnext _ ih =>
    have hm := hbn.trans_le hnext.point_le
    have hsa := hstart.le_point
    have hse := he.le_point
    have hlast : ∀ i < itemCount, _ := fun i hi => hat.ending hpred hm hstart he hlt hnext hi
    have hnextEnd : next ≤ (if next < itemCount ∧ pred.follows next e = false then next + 1 else next) ∧
        (if next < itemCount ∧ pred.follows next e = false then next + 1 else next) ≤ itemCount := by
      have := hnext.point_le
      split_ifs <;> omega
    generalize (if next < itemCount ∧ pred.follows next e = false then next + 1 else next) =
      itemsEnd at hlast hnextEnd ⊢
    have hat' : WalkAt itemCount pred (e + 1) next := by
      refine ⟨fun i hi => ⟨by omega, ?_⟩, fun i hi hi' _ => hnext.fails_from i hi hi'⟩
      by_cases hbi : b ≤ i
      · exact hnext.holds_before i hbi hi
      · exact hat.precedes hpred (by omega) (by omega) (by omega) hlt
    obtain ⟨ihitems, ihrouted⟩ := ih hat'
    have hitems : b < itemsEnd := hbn.trans_le hnextEnd.1
    refine ⟨forall_mem_cons.mpr ⟨hitems, ihitems⟩, ?_⟩
    rw [flatMap_cons]
    exact ihrouted.cons hsa hse hlt.le hitems hnextEnd.2 (hat.passed hpred hm hstart he hlast)

theorem routed_groupByShards (hpred : Routable itemCount shardCount pred) :
    (∀ group ∈ groupByShards itemCount shardCount pred, group.itemsBegin < group.itemsEnd) ∧
      Routed itemCount shardCount pred 0
        ((groupByShards itemCount shardCount pred).flatMap itemCalls) := by
  refine (shardWalk_groupByShardsFrom hpred 0 0 (Nat.zero_le _) (Nat.zero_le _)).routed
    hpred ⟨?_, ?_⟩
  · exact fun i hi => absurd hi (Nat.not_lt_zero i)
  · exact fun i _ _ h => absurd h (lt_irrefl 0)

end Walk

/-! ### Cropping -/

section Crop

variable {itemCount tabletCount : ℕ} {less notGreater : ℕ → Bool} {pred : ShardPredicate}

def InCrop (less notGreater : ℕ → Bool) (i : ℕ) : Prop := less i = false ∧ notGreater i = true

/-- What the calls are like when the items are cropped: a shard is passed the items kept that reach
it. -/
structure Split (itemCount tabletCount : ℕ) (less notGreater : ℕ → Bool) (pred : ShardPredicate)
    (calls : List ItemsCall) : Prop where
  increasing : calls.Pairwise fun l r => l.1 < r.1
  shards : ∀ call ∈ calls, call.1 < tabletCount
  items : ∀ call ∈ calls, call.2.1 < call.2.2 ∧ call.2.2 ≤ itemCount
  exact : ∀ i < itemCount, ∀ j < tabletCount, Passed calls i j ↔ InCrop less notGreater i ∧
    (0 < j → pred.precedes i (j - 1) = false) ∧
    (j + 1 < tabletCount → pred.follows i j = false ∧ ∀ i' < i, InCrop less notGreater i' →
      pred.precedes i' j = true)

theorem Routable.dropItems (hpred : Routable itemCount shardCount pred) {itemsBegin itemsEnd : ℕ}
    (he : itemsEnd ≤ itemCount) :
    Routable (itemsEnd - itemsBegin) shardCount (pred.dropItems itemsBegin) where
  precedes_item hi hi' hj := hpred.precedes_item (by omega) (by omega) hj
  precedes_shard hi hj hj' := hpred.precedes_shard (by omega) hj hj'
  follows_item hi hi' hj := hpred.follows_item (by omega) (by omega) hj
  follows_shard hi hj hj' := hpred.follows_shard (by omega) hj hj'
  exclusive hi hj := hpred.exclusive (by omega) hj

theorem kept_iff_cropItems (hless : InitialRun less 0 itemCount)
    (hgreater : InitialRun notGreater 0 itemCount) :
    (cropItems itemCount less notGreater).1 ≤ (cropItems itemCount less notGreater).2 ∧
      (cropItems itemCount less notGreater).2 ≤ itemCount ∧
      ∀ i < itemCount, InCrop less notGreater i ↔ (cropItems itemCount less notGreater).1 ≤ i ∧
          i < (cropItems itemCount less notGreater).2 := by
  have hbegin := binarySearch_spec 0 itemCount less (Nat.zero_le _) hless
  have he := binarySearch_spec _ itemCount notGreater hbegin.point_le
    (hgreater.mono (Nat.zero_le _) le_rfl)
  refine ⟨he.le_point, he.point_le, fun i hi => ?_⟩
  rw [InCrop, ← Bool.not_eq_true, hbegin.holds_iff (Nat.zero_le i) hi, not_lt]
  exact and_congr_right fun hge => he.holds_iff hge hi

theorem groupSliceByShards_eq {itemsBegin itemsEnd shardCount : ℕ}
    (h : ∀ group ∈ groupByShards (itemsEnd - itemsBegin) shardCount (pred.dropItems itemsBegin),
      group.itemsBegin < group.itemsEnd) :
    groupSliceByShards itemsBegin itemsEnd shardCount pred =
      .ok (((groupByShards (itemsEnd - itemsBegin) shardCount (pred.dropItems itemsBegin)).flatMap
        itemCalls).map fun call => (call.1, itemsBegin + call.2.1, itemsBegin + call.2.2)) := by
  rw [groupSliceByShards, groupItemsByShards, ytVerify_true fun group hg =>
    Nat.ne_of_lt (h group hg)]
  rfl

theorem passed_map_add {calls : List ItemsCall} {n i j : ℕ} :
    Passed (calls.map fun call => (call.1, n + call.2.1, n + call.2.2)) i j ↔ n ≤ i ∧
      Passed calls (i - n) j := by
  constructor
  · rintro ⟨_, hm, rfl, hi⟩
    obtain ⟨call, hc, rfl⟩ := mem_map.mp hm
    dsimp only at hi
    exact ⟨by omega, call, hc, rfl, by omega, by omega⟩
  · rintro ⟨hn, call, hc, rfl, hi⟩
    exact ⟨_, mem_map_of_mem hc, rfl, by dsimp only; omega, by dsimp only; omega⟩

theorem initialRun_any {ι : Type} {items : List ι} {test : ι → Bool}
    (h : ∀ {i j : ℕ} {x y : ι}, i ≤ j → items[i]? = some x → items[j]? = some y → test y = true →
      test x = true) : InitialRun (fun i => (items[i]?).any test) 0 items.length := by
  intro i j _ hij hj
  obtain ⟨x, hx⟩ := exists_getElem? (hij.trans_lt hj)
  obtain ⟨y, hy⟩ := exists_getElem? hj
  simpa only [hx, hy, Option.any_some] using h hij hx hy

theorem splitItems_spec (ht : tabletCount ≠ 0) (hpred : Routable itemCount (tabletCount - 1) pred)
    (hless : InitialRun less 0 itemCount) (hgreater : InitialRun notGreater 0 itemCount) :
    ∃ calls, splitItems itemCount tabletCount less notGreater pred = .ok calls ∧
      Split itemCount tabletCount less notGreater pred calls := by
  obtain ⟨hcrop, he, hk⟩ := kept_iff_cropItems hless hgreater
  rw [splitItems, ytVerify_true ht, ok_bind]
  generalize cropItems itemCount less notGreater = cropped at hcrop he hk ⊢
  have hcropped : Routable (cropped.2 - cropped.1) (tabletCount - 1) (pred.dropItems cropped.1) :=
    hpred.dropItems he
  have hr := routed_groupByShards hcropped
  rw [groupSliceByShards_eq hr.1]
  replace hr := hr.2
  refine ⟨_, rfl, ?_, ?_, ?_, ?_⟩
  · exact pairwise_map.mpr hr.increasing
  · refine forall_mem_map.mpr fun call hcall => ?_
    have := hr.shards call hcall
    omega
  · refine forall_mem_map.mpr fun call hcall => ?_
    have := hr.items call hcall
    dsimp only
    omega
  · intro i hi j hj
    rw [passed_map_add, hk i hi]
    by_cases hin : cropped.1 ≤ i ∧ i < cropped.2
    · rw [hr.exact (i - cropped.1) (by omega) j (Nat.zero_le _) (by omega)]
      have hi' : cropped.1 + (i - cropped.1) = i := by omega
      rw [and_iff_right hin.1, and_iff_right hin, reaches_iff]
      simp only [ShardPredicate.dropItems, hi', Nat.lt_sub_iff_add_lt]
      refine and_congr_right' (imp_congr_right fun _ =>
        and_congr_right' ⟨fun h i' hlt hk' => ?_, fun h i' hlt => ?_⟩)
      · have hin' := (hk i' (by omega)).mp hk'
        simpa only [Nat.add_sub_cancel' hin'.1] using h (i' - cropped.1) (by omega)
      · exact h _ (by omega) ((hk _ (by omega)).mpr (by omega))
    · simp only [hin, false_and, iff_false, not_and]
      rintro hge ⟨call, hcall, -, hlt⟩
      have := hr.items call hcall
      omega

end Crop

/-! ### Rows and cells -/

section Cells

variable {κ : Type} [LinearOrder κ]

/-- The rows between the pivots of a tablet; nothing bounds the first tablet from below. -/
def InCell (tablets : List κ) (j : ℕ) (x : κ) : Prop :=
  (∀ pivot, 0 < j → tablets[j]? = some pivot → pivot ≤ x) ∧
    ∀ pivot, tablets[j + 1]? = some pivot → x < pivot

/-- Some of the rows lie above the lower cap, and some below the upper one. -/
def WithinCaps (lowerCapBound upperCapBound : κ) (rows : κ → Prop) : Prop :=
  (∃ x, rows x ∧ lowerCapBound ≤ x) ∧ ∃ x, rows x ∧ x ≤ upperCapBound

/-- The calls go up in the shards and pass each item, given by its rows, to the shards with a row of
it. -/
structure ExactlyRouted (rows : ℕ → κ → Prop) (itemCount : ℕ) (tablets : List κ)
    (lowerCapBound upperCapBound : κ) (calls : List ItemsCall) : Prop where
  increasing : calls.Pairwise fun l r => l.1 < r.1
  shards : ∀ call ∈ calls, call.1 < tablets.length
  items : ∀ call ∈ calls, call.2.1 < call.2.2 ∧ call.2.2 ≤ itemCount
  exact : ∀ i < itemCount, ∀ j < tablets.length, Passed calls i j ↔
    WithinCaps lowerCapBound upperCapBound (rows i) ∧ ∃ x, rows i x ∧ InCell tablets j x

variable {tablets : List κ}

theorem exists_inCell (hne : tablets ≠ []) (x : κ) : ∃ j < tablets.length, InCell tablets j x := by
  -- the last tablet whose pivot does not come after the row
  let P : ℕ → Prop := fun j => j = 0 ∨ ∃ pivot, tablets[j]? = some pivot ∧ pivot ≤ x
  have hpos : 0 < tablets.length := length_pos_of_ne_nil hne
  have hP : P (Nat.findGreatest P (tablets.length - 1)) :=
    Nat.findGreatest_spec (Nat.zero_le _) (.inl rfl)
  have hle := Nat.findGreatest_le (P := P) (tablets.length - 1)
  refine ⟨Nat.findGreatest P (tablets.length - 1), by omega, fun pivot hj hpivot =>
    ?_, fun pivot hpivot => ?_⟩
  · obtain h0 | ⟨pivot', hpivot', hx⟩ := hP
    · exact absurd h0 (Nat.ne_of_gt hj)
    · exact Option.mem_unique hpivot' hpivot ▸ hx
  · by_contra hx
    have hlt : Nat.findGreatest P (tablets.length - 1) + 1 < tablets.length := (lt_of_getElem? hpivot)
    have := Nat.le_findGreatest (P := P) (show _ ≤ tablets.length - 1 by omega)
      (.inr ⟨pivot, hpivot, not_lt.mp hx⟩)
    omega

variable {j : ℕ}

section

omit [LinearOrder κ]

theorem forall_lower_iff (hj : j < tablets.length) {P : κ → Prop} {Q : Prop}
    (h : ∀ pivot, (tablets.drop 1)[j - 1]? = some pivot → (Q ↔ P pivot)) :
    (0 < j → Q) ↔ ∀ pivot, 0 < j → tablets[j]? = some pivot → P pivot := by
  obtain ⟨pivot, hpivot⟩ := exists_getElem? hj
  have hk : 0 < j → (tablets.drop 1)[j - 1]? = some pivot := by
    intro hpos
    rw [getElem?_drop, Nat.add_sub_cancel' hpos, hpivot]
  constructor
  · intro hQ pivot' hpos hpivot'
    exact Option.mem_unique hpivot hpivot' ▸ (h pivot (hk hpos)).mp (hQ hpos)
  · intro hP hpos
    exact (h pivot (hk hpos)).mpr (hP pivot hpos hpivot)

theorem forall_upper_iff {P : κ → Prop} {Q : Prop}
    (h : ∀ pivot, (tablets.drop 1)[j]? = some pivot → (Q ↔ P pivot)) :
    (j + 1 < tablets.length → Q) ↔ ∀ pivot, tablets[j + 1]? = some pivot → P pivot := by
  have hk : ∀ pivot, tablets[j + 1]? = some pivot → (tablets.drop 1)[j]? = some pivot := by
    intro pivot hp
    rw [getElem?_drop, Nat.add_comm, hp]
  constructor
  · intro hQ pivot hp
    exact (h pivot (hk pivot hp)).mp (hQ (lt_of_getElem? hp))
  · intro hP hlt
    obtain ⟨pivot, hp⟩ := exists_getElem? hlt
    exact (h pivot (hk pivot hp)).mpr (hP pivot hp)

theorem mem_drop_one {pivot : κ} (h : tablets[j + 1]? = some pivot) : pivot ∈ tablets.drop 1 :=
  mem_of_getElem? (i := j) (by rw [getElem?_drop, Nat.add_comm, h])

end

section

variable {rows Low : κ → Prop} {lo : κ} (hlow : ∀ x, Low x ↔ ∃ y, rows y ∧ x ≤ y)
  (hmin : ∀ x, rows x → lo ≤ x)
  (hlo : rows lo)

include hlow hmin hlo

/-- Rows from a least one on lie within caps when the upper cap does not come before it. -/
theorem withinCaps_iff {lcap ucap : κ} : WithinCaps lcap ucap rows ↔ Low lcap ∧ lo ≤ ucap :=
  and_congr (hlow lcap).symm ⟨fun ⟨x, hx, hle⟩ => (hmin x hx).trans hle, fun h => ⟨lo, hlo, h⟩⟩

/-- Rows without gaps from a least one on touch a cell when its pivots lie around some of them. -/
theorem touches_iff (ht : tablets.Pairwise (· < ·)) (hup : ∀ x, lo ≤ x → Low x → rows x) :
    (∃ x, rows x ∧ InCell tablets j x) ↔ (∀ pivot, 0 < j → tablets[j]? = some pivot → Low pivot) ∧
        ∀ pivot, tablets[j + 1]? = some pivot → lo < pivot := by
  constructor
  · rintro ⟨x, hx, hlower, hu⟩
    exact ⟨fun pivot hj hp => (hlow pivot).mpr ⟨x, hx, hlower pivot hj hp⟩, fun pivot hp =>
      (hmin x hx).trans_lt (hu pivot hp)⟩
  · rintro ⟨hlower, hu⟩
    by_cases hc : ∃ pivot, 0 < j ∧ tablets[j]? = some pivot ∧ lo ≤ pivot
    · obtain ⟨pivot, hj, hp, hle⟩ := hc
      refine ⟨pivot, hup pivot hle (hlower pivot hj hp), fun pivot' _ hp' => ?_, fun pivot' hp' => ?_⟩
      · exact (Option.mem_unique hp' hp).le
      · exact getElem?_lt ht (Nat.lt_succ_self j) hp hp'
    · refine ⟨lo, hlo, fun pivot hj hp => ?_, hu⟩
      exact (not_le.mp fun hle => hc ⟨pivot, hj, hp, hle⟩).le

end

end Cells

/-! ### Ranges -/

section Ranges

variable {κ : Type} [LinearOrder κ] {ranges : List (κ × κ)} {tablets : List κ}

def rangeRows (ranges : List (κ × κ)) (i : ℕ) (x : κ) : Prop :=
  ∃ range, ranges[i]? = some range ∧ range.1 ≤ x ∧ x < range.2

theorem rangeRows_eq {i : ℕ} {range : κ × κ} (hr : ranges[i]? = some range) :
    rangeRows ranges i = fun x => range.1 ≤ x ∧ x < range.2 := by
  funext x
  simp only [rangeRows, hr, Option.some.injEq, exists_eq_left']

theorem range_ends_iff {range : κ × κ} (hlt : range.1 < range.2) (x : κ) :
    x < range.2 ↔ ∃ y, (range.1 ≤ y ∧ y < range.2) ∧ x ≤ y :=
  ⟨fun h => ⟨max range.1 x, ⟨le_max_left _ _, max_lt hlt h⟩, le_max_right _ _⟩, fun ⟨_, hy, hle⟩ =>
    hle.trans_lt hy.2⟩

/-- A range reaches the cells that hold some of its rows; the ranges before it need not be looked
at. -/
theorem range_touches_iff (hranges : Ordered ranges) (ht : tablets.Pairwise (· < ·))
    (kept : ℕ → Prop) {i j : ℕ} (hi : i < ranges.length) (hj : j < tablets.length) :
    ((0 < j → (rangePredicate ranges (tablets.drop 1)).precedes i (j - 1) = false) ∧
      (j + 1 < tablets.length → (rangePredicate ranges (tablets.drop 1)).follows i j = false ∧
        ∀ i' < i, kept i' → (rangePredicate ranges (tablets.drop 1)).precedes i' j = true)) ↔
      ∃ x, rangeRows ranges i x ∧ InCell tablets j x := by
  obtain ⟨range, hr⟩ := exists_getElem? hi
  have hlt := hranges.lt hr
  rw [rangeRows_eq hr, touches_iff (range_ends_iff hlt) (fun _ h => h.1) ⟨le_rfl, hlt⟩ ht
    fun _ => And.intro]
  refine and_congr (forall_lower_iff hj fun pivot hk => ?_) (forall_upper_iff fun pivot hk => ?_)
  · rw [precedes_eq hr hk, decide_eq_false_iff_not, not_le]
  · rw [follows_eq hr hk, decide_eq_false_iff_not, not_le]
    refine and_iff_left_of_imp fun hbefore i' hi' _ => ?_
    obtain ⟨r', hr'⟩ := exists_getElem? (hi'.trans hi)
    rw [precedes_eq hr' hk, decide_eq_true_eq]
    exact (hranges.le_of_lt hi' hr' hr).trans hbefore.le

theorem splitRangesByTablets_spec (hranges : Ordered ranges) (hne : tablets ≠ [])
    (ht : tablets.Pairwise (· < ·)) (lcap ucap : κ) :
    ∃ calls, splitRangesByTablets ranges tablets lcap ucap = .ok calls ∧
      ExactlyRouted (rangeRows ranges) ranges.length tablets lcap ucap calls := by
  have hkeys : (tablets.drop 1).Pairwise (· < ·) := ht.drop
  have hpred : Routable ranges.length (tablets.length - 1) (rangePredicate ranges (tablets.drop 1)) :=
    length_drop ▸ routable_rangePredicate hranges hkeys
  have hless : InitialRun (fun item => (ranges[item]?).any fun range => decide ¬lcap < range.2)
      0 ranges.length := by
    refine initialRun_any fun hij hr hr' => ?_
    simp only [decide_eq_true_eq, not_lt]
    exact (hranges.snd_le hij hr hr').trans
  have hg : InitialRun (fun item => (ranges[item]?).any fun range => decide ¬ucap < range.1)
      0 ranges.length := by
    refine initialRun_any fun hij hr hr' => ?_
    simp only [decide_eq_true_eq, not_lt]
    exact (hranges.fst_le hij hr hr').trans
  obtain ⟨calls, hok, hs⟩ := splitItems_spec (length_pos_of_ne_nil hne).ne' hpred hless hg
  refine ⟨calls, hok, hs.increasing, hs.shards, hs.items, fun i hi j hj => ?_⟩
  rw [hs.exact i hi j hj, range_touches_iff hranges ht _ hi hj]
  refine and_congr_left' ?_
  obtain ⟨range, hr⟩ := exists_getElem? hi
  rw [rangeRows_eq hr, withinCaps_iff (range_ends_iff (hranges.lt hr)) (fun _ h => h.1)
    ⟨le_rfl, hranges.lt hr⟩]
  simp only [InCrop, hr, Option.any_some, decide_eq_true_eq, decide_eq_false_iff_not, not_lt, not_le]

end Ranges

/-! ### Keys -/

section Keys

variable {α : Type} [LinearOrder α] {keys tablets : List (List α)} {width fullKeySize : ℕ}
  {lcap ucap : List α}

/-- The rows of the key at a position: a full key is a row, a shorter one stands for all rows that
start with it. -/
def keyRows (keys : List (List α)) (keyWidth fullKeySize i : ℕ) (x : List α) : Prop :=
  ∃ key, keys[i]? = some key ∧ if keyWidth = fullKeySize then x = key else key <+: x

/-- No pivot starts with a key that is kept, unless it goes on and the key comes once; and no key
has the lower cap among its rows, unless it is the cap. -/
structure ClearOfBounds (keys tablets : List (List α))
    (lowerCapBound upperCapBound : List α) : Prop where
  pivots : ∀ (i : ℕ) (key : List α), keys[i]? = some key → lowerCapBound ≤ key →
    key ≤ upperCapBound →
    ∀ pivot ∈ tablets.drop 1, key <+: pivot → key ≠ pivot ∧ ∀ i' < i, keys[i']? ≠ some key
  caps : ∀ key ∈ keys, key ≤ upperCapBound → key <+: lowerCapBound → key = lowerCapBound

section Predicate

variable {pivots : List (List α)} {isFullKey : Bool} {key pivot : List α} {i j : ℕ}

theorem keyPrecedes_eq (hk : keys[i]? = some key) (hw : key.length = width)
    (hp : pivots[j]? = some pivot) :
    (keyPredicate width isFullKey keys pivots).precedes i j = decide (key < pivot.take width) := by
  simp only [keyPredicate, hk, hp, Option.any_some, compareRowPrefixes, ternaryCompare_lt,
    take_of_length_le hw.le]

theorem keyFollows_eq (hk : keys[i]? = some key) (hw : key.length = width)
    (hp : pivots[j]? = some pivot) : (keyPredicate width isFullKey keys pivots).follows i j =
      decide (if isFullKey = true then pivot.take width ≤ key else pivot.take width < key) := by
  simp only [keyPredicate, hk, hp, Option.any_some, compareRowPrefixes, take_of_length_le hw.le]
  cases isFullKey
  · simp only [Bool.toInt_false, ternaryCompare_lt, Bool.false_eq_true, if_false]
  · have hle : ∀ n : ℤ, n < 1 ↔ n ≤ 0 := fun n => by omega
    simp only [Bool.toInt_true, hle, ternaryCompare_le, if_true]

end Predicate

variable {key : List α}

theorem getElem?_le_of_sorted (hkeys : keys.Pairwise (· ≤ ·)) {i i' : ℕ} {key' : List α}
    (hi : i ≤ i') (hk : keys[i]? = some key) (hk' : keys[i']? = some key') : key ≤ key' := by
  rcases hi.lt_or_eq with hlt | rfl
  · obtain ⟨h, rfl⟩ := List.getElem?_eq_some_iff.mp hk
    obtain ⟨h', rfl⟩ := List.getElem?_eq_some_iff.mp hk'
    exact pairwise_iff_getElem.mp hkeys i i' h h' hlt
  · exact (Option.mem_unique hk hk').le

theorem routable_keyPredicate (hkeys : keys.Pairwise (· ≤ ·)) (width : ℕ) {pivots : List (List α)}
    (hpivots : pivots.Pairwise (· < ·)) (isFullKey : Bool) :
    Routable keys.length pivots.length (keyPredicate width isFullKey keys pivots) := by
  have hlt : ∀ n : ℤ, n < 1 ↔ n ≤ 0 := fun n => by omega
  refine routable_of_lists (fun hi hk hk' pivot => ?_) (fun hj hp hp' key => ?_)
    fun key _ pivot => ?_
  · have hle := take_le_take width (getElem?_le_of_sorted hkeys hi hk hk')
    cases isFullKey <;> simp only [compareRowPrefixes, decide_eq_true_eq, Bool.toInt_false,
      Bool.toInt_true, hlt, ternaryCompare_lt, ternaryCompare_le]
    · exact ⟨hle.trans_lt, fun h => h.trans_le hle⟩
    · exact ⟨hle.trans_lt, fun h => h.trans hle⟩
  · have hle := take_le_take width (getElem?_le hpivots hj hp hp')
    cases isFullKey <;> simp only [compareRowPrefixes, decide_eq_true_eq, Bool.toInt_false,
      Bool.toInt_true, hlt, ternaryCompare_lt, ternaryCompare_le]
    · exact ⟨fun h => h.trans_le hle, hle.trans_lt⟩
    · exact ⟨fun h => h.trans_le hle, hle.trans⟩
  · cases isFullKey <;> simp only [compareRowPrefixes, decide_eq_true_eq, decide_eq_false_iff_not,
      Bool.toInt_false, Bool.toInt_true, hlt, ternaryCompare_lt, ternaryCompare_le, not_lt]
    · exact le_of_lt
    · exact id

/-- The calls of `SplitKeysByTablets` in terms of the keys and of what is left of the pivots. -/
structure KeySplit (keys : List (List α)) (keyWidth fullKeySize : ℕ) (tablets : List (List α))
    (lowerCapBound upperCapBound : List α) (calls : List ItemsCall) : Prop where
  increasing : calls.Pairwise fun l r => l.1 < r.1
  shards : ∀ call ∈ calls, call.1 < tablets.length
  items : ∀ call ∈ calls, call.2.1 < call.2.2 ∧ call.2.2 ≤ keys.length
  exact : ∀ (i : ℕ) (key : List α), keys[i]? = some key → ∀ j < tablets.length, Passed calls i j ↔
    (lowerCapBound ≤ key ∧ key ≤ upperCapBound) ∧
    (∀ pivot, 0 < j → tablets[j]? = some pivot → pivot.take keyWidth ≤ key) ∧
    ∀ pivot, tablets[j + 1]? = some pivot →
      (¬if keyWidth = fullKeySize then pivot.take keyWidth ≤ key else pivot.take keyWidth < key) ∧
      ∀ i' < i, ∀ key', keys[i']? = some key' → lowerCapBound ≤ key' ∧ key' ≤ upperCapBound →
        key' < pivot.take keyWidth

theorem splitKeysByTablets_spec (hkeys : keys.Pairwise (· ≤ ·))
    (hw : ∀ key ∈ keys, key.length = width) (hne : tablets ≠ []) (ht : tablets.Pairwise (· < ·)) :
    ∃ calls, splitKeysByTablets keys width fullKeySize tablets lcap ucap = .ok calls ∧
      KeySplit keys width fullKeySize tablets lcap ucap calls := by
  have hpred := routable_keyPredicate hkeys width (ht.drop (i := 1)) (decide (width = fullKeySize))
  rw [length_drop] at hpred
  have hless : InitialRun (fun item => (keys[item]?).any fun key =>
      decide (key < lcap)) 0 keys.length := by
    refine initialRun_any fun hij hk hk' => ?_
    simp only [decide_eq_true_eq]
    exact (getElem?_le_of_sorted hkeys hij hk hk').trans_lt
  have hg : InitialRun (fun item => (keys[item]?).any fun key => decide ¬ucap < key)
      0 keys.length := by
    refine initialRun_any fun hij hk hk' => ?_
    simp only [decide_eq_true_eq, not_lt]
    exact (getElem?_le_of_sorted hkeys hij hk hk').trans
  obtain ⟨calls, hok, hs⟩ := splitItems_spec (length_pos_of_ne_nil hne).ne' hpred hless hg
  refine ⟨calls, hok, hs.increasing, hs.shards, hs.items, fun i key hk j hj => ?_⟩
  have hi : i < keys.length := lt_of_getElem? hk
  have hlen := hw key (mem_of_getElem? hk)
  have hkept : ∀ {i : ℕ} {key : List α}, keys[i]? = some key →
      (InCrop (fun item => (keys[item]?).any fun key => decide (key < lcap))
        (fun item => (keys[item]?).any fun key => decide ¬ucap < key) i ↔
      lcap ≤ key ∧ key ≤ ucap) := by
    intro i key hk
    simp only [InCrop, hk, Option.any_some, decide_eq_true_eq, decide_eq_false_iff_not, not_lt]
  rw [hs.exact i hi j hj]
  refine and_congr (hkept hk)
    (and_congr (forall_lower_iff hj fun pivot hp => ?_) (forall_upper_iff fun pivot hp => ?_))
  · rw [keyPrecedes_eq hk hlen hp, decide_eq_false_iff_not, not_lt]
  · refine and_congr ?_ ⟨fun h i' hi' key' hk' hc => ?_, fun h i' hi' hc => ?_⟩
    · rw [keyFollows_eq hk hlen hp, decide_eq_false_iff_not]
      simp only [decide_eq_true_eq]
    · have := h i' hi' ((hkept hk').mpr hc)
      rwa [keyPrecedes_eq hk' (hw key' (mem_of_getElem? hk')) hp, decide_eq_true_eq] at this
    · obtain ⟨key', hk'⟩ := exists_getElem? (hi'.trans hi)
      rw [keyPrecedes_eq hk' (hw key' (mem_of_getElem? hk')) hp, decide_eq_true_eq]
      exact h i' hi' key' hk' ((hkept hk').mp hc)

theorem key_touches_iff (ht : tablets.Pairwise (· < ·)) (hlen : key.length = width) {j : ℕ} :
    (∃ x, key <+: x ∧ InCell tablets j x) ↔
      (∀ pivot, 0 < j → tablets[j]? = some pivot → pivot.take width ≤ key) ∧
        ∀ pivot, tablets[j + 1]? = some pivot → key < pivot :=
  touches_iff (fun _ => take_le_iff hlen) (fun _ => le_of_startsWith) ( prefix_refl key) ht
    fun _ => startsWith_of_take_le hlen

theorem key_withinCaps_iff (hlen : key.length = width) :
    WithinCaps lcap ucap (key <+: ·) ↔ lcap.take width ≤ key ∧ key ≤ ucap :=
  withinCaps_iff (fun _ => take_le_iff hlen) (fun _ => le_of_startsWith) ( prefix_refl key)

section Exact

variable {calls : List ItemsCall}

section

variable (h : KeySplit keys width fullKeySize tablets lcap ucap calls)

include h

theorem KeySplit.exactlyRouted_full (hkeys : keys.Pairwise (· ≤ ·)) (hf : width = fullKeySize)
    (hpivots : ∀ pivot ∈ tablets, pivot.length ≤ fullKeySize) :
    ExactlyRouted (keyRows keys width fullKeySize) keys.length tablets lcap ucap calls := by
  refine ⟨h.increasing, h.shards, h.items, fun i hi j hj => ?_⟩
  obtain ⟨key, hk⟩ := exists_getElem? hi
  have hpivot : ∀ {j : ℕ} {pivot : List α}, tablets[j]? = some pivot → pivot.take width = pivot :=
    fun hp => take_of_length_le (hf ▸ hpivots _ (mem_of_getElem? hp))
  rw [h.exact i key hk j hj]
  simp only [keyRows, hk, Option.some.injEq, exists_eq_left', hf, if_true, WithinCaps,
    exists_eq_left, InCell]
  rw [hf] at hpivot
  refine and_congr_right fun _ => and_congr ?_ ?_
  · refine forall_congr' fun pivot => forall_congr' fun _ => forall_congr' fun hp => ?_
    rw [hpivot hp]
  · refine forall_congr' fun pivot => forall_congr' fun hp => ?_
    rw [hpivot hp, not_le]
    exact and_iff_left_of_imp fun hlt i' hi' key' hk' _ =>
      (getElem?_le_of_sorted hkeys hi'.le hk' hk).trans_lt hlt

variable (hw : ∀ key ∈ keys, key.length = width) (ht : tablets.Pairwise (· < ·))
  (hf : width ≠ fullKeySize)

include hw ht hf

/-- Whether a shorter key goes where its rows lie, in terms of the bounds. -/
theorem KeySplit.exact_iff :
    ExactlyRouted (keyRows keys width fullKeySize) keys.length tablets lcap ucap calls ↔
      ∀ (i : ℕ) (key : List α), keys[i]? = some key → ∀ j < tablets.length,
        (∀ pivot, 0 < j → tablets[j]? = some pivot → pivot.take width ≤ key) →
        (((lcap ≤ key ∧ key ≤ ucap) ∧ ∀ pivot, tablets[j + 1]? = some pivot →
          key ≤ pivot.take width ∧ ∀ i' < i, ∀ key', keys[i']? = some key' →
            lcap ≤ key' ∧ key' ≤ ucap → key' < pivot.take width) ↔
        (lcap.take width ≤ key ∧ key ≤ ucap) ∧ ∀ pivot, tablets[j + 1]? = some pivot → key < pivot) := by
  have hr : ∀ {i : ℕ} {key : List α}, keys[i]? = some key →
      keyRows keys width fullKeySize i = (key <+: ·) := by
    intro i key hk
    funext x
    simp only [keyRows, hk, Option.some.injEq, exists_eq_left', if_neg hf]
  have hp : ∀ {i : ℕ} {key : List α} (hk : keys[i]? = some key) {j : ℕ} (hj : j < tablets.length), _ :=
    fun hk _ hj => h.exact _ _ hk _ hj
  simp only [if_neg hf, not_lt] at hp
  constructor
  · intro he i key hk j hj hlower
    have hlen := hw key (mem_of_getElem? hk)
    have hiff := he.exact i (lt_of_getElem? hk) j hj
    rw [hp hk hj, hr hk, key_withinCaps_iff hlen, key_touches_iff ht hlen] at hiff
    rwa [and_iff_right hlower, and_iff_right hlower] at hiff
  · intro hiff
    refine ⟨h.increasing, h.shards, h.items, fun i hi j hj => ?_⟩
    obtain ⟨key, hk⟩ := exists_getElem? hi
    have hlen := hw key (mem_of_getElem? hk)
    rw [hp hk hj, hr hk, key_withinCaps_iff hlen, key_touches_iff ht hlen]
    by_cases hlower : ∀ pivot, 0 < j → tablets[j]? = some pivot → pivot.take width ≤ key
    · rw [and_iff_right hlower, and_iff_right hlower]
      exact hiff i key hk j hj hlower
    · exact iff_of_false (fun h => hlower h.2.1) fun h => hlower h.2.1

variable (hkeys : keys.Pairwise (· ≤ ·))

include hkeys

/-- Shorter keys go where their rows lie when no bound cuts their rows. -/
theorem KeySplit.exactlyRouted_of_clear (hclear : ClearOfBounds keys tablets lcap ucap) :
    ExactlyRouted (keyRows keys width fullKeySize) keys.length tablets lcap ucap calls := by
  refine (h.exact_iff hw ht hf).mpr fun i key hk j hj hlower => ?_
  have hlen := hw key (mem_of_getElem? hk)
  have hcaps : lcap.take width ≤ key ∧ key ≤ ucap → lcap ≤ key ∧ key ≤ ucap := by
    rintro ⟨hlow, hup⟩
    refine ⟨?_, hup⟩
    by_contra hlt
    have hstarts := startsWith_of_take_le hlen (not_le.mp hlt).le hlow
    exact hlt (hclear.caps key (mem_of_getElem? hk) hup hstarts).ge
  constructor
  · rintro ⟨hin, hupper⟩
    refine ⟨⟨(take_le_self _ _).trans hin.1, hin.2⟩, fun pivot hp => ?_⟩
    have hle := (hupper pivot hp).1
    refine lt_of_le_of_ne (hle.trans (take_le_self _ _)) fun heq => ?_
    exact (hclear.pivots i key hk hin.1 hin.2 pivot (mem_drop_one hp) (heq ▸ prefix_refl key)).1 heq
  · rintro ⟨hin, hupper⟩
    refine ⟨hcaps hin, fun pivot hp => ?_⟩
    have hlt := hupper pivot hp
    have hle : key ≤ pivot.take width := by
      calc key = key.take width := (take_of_length_le hlen.le).symm
        _ ≤ pivot.take width := take_le_take width hlt.le
    refine ⟨hle, fun i' hi' key' hk' _ => lt_of_le_of_ne ?_ fun heq => ?_⟩
    · exact (getElem?_le_of_sorted hkeys hi'.le hk' hk).trans hle
    · -- the earlier key is as large as what is left of the pivot, so it is the same key again
      have hsame : key' = key := le_antisymm (getElem?_le_of_sorted hkeys hi'.le hk' hk) (heq ▸ hle)
      have hstarts : key <+: pivot := hsame ▸ heq ▸ take_prefix width pivot
      have hclear' := hclear.pivots i key hk (hcaps hin).1 hin.2 pivot (mem_drop_one hp) hstarts
      exact hclear'.2 i' hi' (hsame ▸ hk')

/-- Shorter keys go where their rows lie only when no bound cuts their rows. -/
theorem KeySplit.clear_of_exactlyRouted (hne : tablets ≠ [])
    (hexact : ExactlyRouted (keyRows keys width fullKeySize) keys.length tablets lcap ucap calls) :
    ClearOfBounds keys tablets lcap ucap := by
  rw [h.exact_iff hw ht hf] at hexact
  constructor
  · intro i key hk hlow hup pivot hm hstarts
    obtain ⟨j, hp⟩ := getElem?_of_mem hm
    rw [getElem?_drop, Nat.add_comm] at hp
    have hj : j < tablets.length := by have := (lt_of_getElem? hp); omega
    have hcut : pivot.take width = key := take_of_startsWith hstarts (hw key (mem_of_getElem? hk))
    have hlower : ∀ pivot', 0 < j → tablets[j]? = some pivot' → pivot'.take width ≤ key := by
      intro pivot' _ hp'
      exact hcut ▸ take_le_take width (getElem?_lt ht (Nat.lt_succ_self j) hp' hp).le
    have hne : key ≠ pivot := by
      intro heq
      -- the first of the keys equal to the pivot is passed to the shard before it
      have hex : ∃ i, keys[i]? = some key := ⟨i, hk⟩
      have hfirst := (hexact (Nat.find hex) key (Nat.find_spec hex) j hj hlower).mp ⟨⟨hlow, hup⟩, ?_⟩
      · exact absurd heq (hfirst.2 pivot hp).ne
      · intro pivot' hp'
        obtain rfl := Option.mem_unique hp hp'
        rw [hcut]
        refine ⟨le_rfl, fun i' hi' key' hk' _ => lt_of_le_of_ne ?_ fun hsame => ?_⟩
        · exact getElem?_le_of_sorted hkeys hi'.le hk' (Nat.find_spec hex)
        · exact Nat.find_min hex hi' (hsame ▸ hk')
    refine ⟨hne, fun i' hi' hk' => ?_⟩
    have hpassed := (hexact i key hk j hj hlower).mpr
      ⟨⟨(take_le_self _ _).trans hlow, hup⟩, fun pivot' hp' => ?_⟩
    · exact (((hpassed.2 pivot hp).2 i' hi' key hk' ⟨hlow, hup⟩).trans_eq hcut).false
    · obtain rfl := Option.mem_unique hp hp'
      exact lt_of_le_of_ne (le_of_startsWith hstarts) hne
  · intro key hm hup hstarts
    obtain ⟨i, hk⟩ := getElem?_of_mem hm
    have hlen := hw key hm
    obtain ⟨j, hj, hcell⟩ := exists_inCell hne key
    have htouches := (key_touches_iff ht hlen).mp ⟨key, prefix_refl key, hcell⟩
    have hcut : lcap.take width ≤ key := (take_of_startsWith hstarts hlen).le
    have hpassed := (hexact i key hk j hj htouches.1).mpr ⟨⟨hcut, hup⟩, htouches.2⟩
    exact le_antisymm (le_of_startsWith hstarts) hpassed.1.1

end

end Exact

end Keys

/-! ### Both kinds of items -/

/-- Ranges are routed to exactly the tablets they touch, and so are full keys; shorter keys are iff
no pivot and no lower cap cuts their rows. -/
theorem items_routed_iff {κ α : Type} [LinearOrder κ] [LinearOrder α] (ranges : List (κ × κ))
    (shards : List κ) (lowerCap upperCap : κ) (keys : List (List α)) (keyWidth fullKeySize : ℕ)
    (tablets : List (List α)) (lowerCapBound upperCapBound : List α) :
    (Ordered ranges → shards ≠ [] → shards.Pairwise (· < ·) →
      ∃ calls, splitRangesByTablets ranges shards lowerCap upperCap = .ok calls ∧
        ExactlyRouted (rangeRows ranges) ranges.length shards lowerCap upperCap calls) ∧
    (keys.Pairwise (· ≤ ·) → (∀ key ∈ keys, key.length = keyWidth) →
      tablets ≠ [] → tablets.Pairwise (· < ·) → (∀ pivot ∈ tablets, pivot.length ≤ fullKeySize) →
      ∃ calls, splitKeysByTablets keys keyWidth fullKeySize tablets lowerCapBound upperCapBound =
        .ok calls ∧
        calls.Pairwise (fun l r => l.1 < r.1) ∧ (ExactlyRouted (keyRows keys keyWidth fullKeySize)
          keys.length tablets lowerCapBound upperCapBound calls ↔
          keyWidth = fullKeySize ∨ ClearOfBounds keys tablets lowerCapBound upperCapBound)) := by
  constructor
  · intro hranges hne hshards
    exact splitRangesByTablets_spec hranges hne hshards lowerCap upperCap
  · intro hkeys hwidth hne htablets hpivots
    obtain ⟨calls, hok, hsplit⟩ := splitKeysByTablets_spec hkeys hwidth hne htablets
    refine ⟨calls, hok, hsplit.increasing, fun hexact => ?_, ?_⟩
    · by_cases hfull : keyWidth = fullKeySize
      · exact .inl hfull
      · exact .inr (hsplit.clear_of_exactlyRouted hwidth htablets hfull hkeys hne hexact)
    · rintro hcond
      by_cases hfull : keyWidth = fullKeySize
      · exact hsplit.exactlyRouted_full hkeys hfull hpivots
      · exact hsplit.exactlyRouted_of_clear hwidth htablets hfull hkeys (hcond.resolve_left hfull)

/-- A range over a pivot goes to both sides, and a short key next to a longer pivot to the side of
its rows. -/
theorem items_routed_examples :
    (∃ calls, splitRangesByTablets [(1, 4), (5, 6)] [0, 3] 0 9 = .ok calls ∧
      ExactlyRouted (rangeRows [(1, 4), (5, 6)]) 2 [0, 3] 0 9 calls) ∧
    ∃ calls, splitKeysByTablets [[1]] 1 2 [[], [1, 5]] [] [9] = .ok calls ∧
      ExactlyRouted (keyRows [[1]] 1 2) 1 [[], [1, 5]] [] [9] calls := by
  obtain ⟨hranges, hkeys⟩ :=
    items_routed_iff [(1, 4), (5, 6)] [0, 3] 0 9 [[1]] 1 2 [[], [1, 5]] [] [9]
  constructor
  · exact hranges ⟨by simp, by simp⟩ (by simp) (by simp)
  · obtain ⟨calls, hok, -, hiff⟩ := hkeys (by simp) (by simp) (by simp) (by decide) (by simp)
    refine ⟨calls, hok, hiff.mpr (.inr ⟨?_, ?_⟩)⟩
    · intro i key hk _ _ pivot hp hstarts
      simp only [drop_succ_cons, drop_zero, mem_singleton] at hp
      obtain ⟨hi, rfl⟩ := List.getElem?_eq_some_iff.mp hk
      obtain rfl : i = 0 := by simpa using hi
      exact ⟨by simp [hp], nofun⟩
    · intro key hkey _ hstarts
      simpa using hstarts

/-- The key `[1]` has rows above the lower cap `[1, 5]`, and is passed to no tablet. -/
theorem short_key_dropped :
    splitKeysByTablets [[1]] 1 2 [[], [3]] [1, 5] [9] = .ok [] ∧
      ¬ExactlyRouted (keyRows [[1]] 1 2) 1 [[], [3]] [1, 5] [9] [] := by
  constructor
  · decide +kernel
  · intro h
    have hpassed := (h.exact 0 (by decide) 0 (by decide)).mpr
      ⟨⟨⟨[1, 5], ?_, le_rfl⟩, [1], ?_, by decide⟩, [1], ?_, ?_⟩
    · obtain ⟨call, hcall, -⟩ := hpassed
      exact absurd hcall not_mem_nil
    · exact ⟨[1], rfl, by decide⟩
    · exact ⟨[1], rfl, by decide⟩
    · exact ⟨[1], rfl, by decide⟩
    · exact ⟨nofun, fun pivot hp => by obtain rfl := Option.some.inj hp; decide⟩

end Ytsaurus.Query
