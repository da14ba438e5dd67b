/-
# Grouping ranges by shards

`GroupByShards` and `GroupItemsByShards` of `query/base/coordination_helpers.h` walk a sorted list
of ranges and a sorted list of shard keys with exponential searches and report, for every group of
ranges, the shards that cut its first range and the shard that ends the group.

The keys cut the line into cells. A group reports consecutive cells: those of the inner shards hold
a part of the first range only, the cell of the last shard holds the rest of it and the ranges that
follow (`Grouping`).
-/
import Ytsaurus.Lib.Frontier
import Ytsaurus.Lib.Search
import Ytsaurus.Lib.Result

namespace Ytsaurus.Query

open Lib

/-! ### The walk -/

/-- The arguments of a call of `onGroupFunctor`: positions of items and of shards. -/
structure ShardGroup where
  itemsBegin : ℕ
  itemsEnd : ℕ
  shardsBegin : ℕ
  shardsEnd : ℕ
  deriving DecidableEq, Repr

/-- `TPredicate` over the positions of an item and of a shard: the item precedes the shard, and
the item follows the shard. -/
structure ShardPredicate where
  precedes : ℕ → ℕ → Bool
  follows : ℕ → ℕ → Bool

/-- The loop of `GroupByShards` from positions of a shard and of an item. -/
def groupByShardsFrom (itemCount shardCount : ℕ) (pred : ShardPredicate) (shardIt itemIt : ℕ) :
    List ShardGroup :=
  if itemIt < itemCount then
    let shardItStart := exponentialSearch shardIt shardCount fun it => pred.follows itemIt it
    let shardItEnd := exponentialSearch shardItStart shardCount fun it => !pred.precedes itemIt it
    if hlt : shardItEnd < shardCount then
      let itemsItNext := exponentialSearch itemIt itemCount fun it => pred.precedes it shardItEnd
      let itemsItEnd :=
        if itemsItNext < itemCount ∧ pred.follows itemsItNext shardItEnd = false then itemsItNext + 1
        else itemsItNext
      ⟨itemIt, itemsItEnd, shardItStart, shardItEnd⟩ ::
        groupByShardsFrom itemCount shardCount pred (shardItEnd + 1) itemsItNext
    else [⟨itemIt, itemCount, shardItStart, shardItEnd⟩]
  else []
termination_by shardCount - shardIt
decreasing_by
  have hstart := le_exponentialSearch shardIt shardCount fun it => pred.follows itemIt it
  have hend := le_exponentialSearch (exponentialSearch shardIt shardCount fun it =>
    pred.follows itemIt it) shardCount fun it => !pred.precedes itemIt it
  exact Nat.sub_lt_sub_left (Nat.lt_of_le_of_lt (Nat.le_trans hstart hend) hlt)
    (Nat.lt_succ_of_le (Nat.le_trans hstart hend))

def groupByShards (itemCount shardCount : ℕ) (pred : ShardPredicate) : List ShardGroup :=
  groupByShardsFrom itemCount shardCount pred 0 0

/-- The calls of `onItemsFunctor` that `GroupItemsByShards` makes for a group: the
position of a shard and the positions of its items. -/
def itemCalls (group : ShardGroup) : List (ℕ × ℕ × ℕ) :=
  (List.range' group.shardsBegin (group.shardsEnd - group.shardsBegin)).map
    (fun shardIt => (shardIt, group.itemsBegin, group.itemsBegin + 1)) ++
  [(group.shardsEnd, group.itemsBegin, group.itemsEnd)]

theorem mem_itemCalls {group : ShardGroup} {call : ℕ × ℕ × ℕ} (h : call ∈ itemCalls group) :
    (group.shardsBegin ≤ call.1 ∧ call.1 < group.shardsEnd ∧
      call.2 = (group.itemsBegin, group.itemsBegin + 1)) ∨
      call = (group.shardsEnd, group.itemsBegin, group.itemsEnd) := by
  rcases List.mem_append.mp h with h | h
  · obtain ⟨j, hj, rfl⟩ := List.mem_map.mp h
    have := List.mem_range'_1.mp hj
    exact .inl ⟨this.1, by dsimp only; omega, rfl⟩
  · exact .inr (List.mem_singleton.mp h)

theorem pairwise_itemCalls (group : ShardGroup) : (itemCalls group).Pairwise fun l r =>
    l.1 < r.1 := by
  refine List.pairwise_append.mpr
    ⟨List.pairwise_map.mpr List.pairwise_lt_range', List.pairwise_singleton _ _, ?_⟩
  simp only [List.mem_map, List.mem_range'_1, List.mem_singleton]
  rintro _ ⟨s, hs, rfl⟩ _ rfl
  omega

/-! ### The walk for a monotone predicate -/

/-- Items that precede a shard come first and precede the later shards, items that follow one come
last and follow the earlier ones, and no item does both. -/
structure Routable (itemCount shardCount : ℕ) (pred : ShardPredicate) : Prop where
  precedes_item : ∀ {i i' j : ℕ}, i ≤ i' → i' < itemCount → j < shardCount →
    pred.precedes i' j = true → pred.precedes i j = true
  precedes_shard : ∀ {i j j' : ℕ}, i < itemCount → j ≤ j' → j' < shardCount →
    pred.precedes i j = true → pred.precedes i j' = true
  follows_item : ∀ {i i' j : ℕ}, i ≤ i' → i' < itemCount → j < shardCount →
    pred.follows i j = true → pred.follows i' j = true
  follows_shard : ∀ {i j j' : ℕ}, i < itemCount → j ≤ j' → j' < shardCount →
    pred.follows i j' = true → pred.follows i j = true
  exclusive : ∀ {i j : ℕ}, i < itemCount → j < shardCount → pred.follows i j = true →
    pred.precedes i j = false

/-- The groups that the walk reports from the shard `a` and the item `b` on, by what its searches
found. -/
inductive ShardWalk (itemCount shardCount : ℕ) (pred : ShardPredicate) :
    ℕ → ℕ → List ShardGroup → Prop
  | done {a : ℕ} : ShardWalk itemCount shardCount pred a itemCount []
  | last {a b s : ℕ} : b < itemCount → PartitionPoint (fun it => pred.follows b it) a shardCount s →
      PartitionPoint (fun it => !pred.precedes b it) s shardCount shardCount →
      ShardWalk itemCount shardCount pred a b [⟨b, itemCount, s, shardCount⟩]
  | step {a b s e next : ℕ} {rest : List ShardGroup} : b < next →
      PartitionPoint (fun it => pred.follows b it) a shardCount s →
      PartitionPoint (fun it => !pred.precedes b it) s shardCount e → e < shardCount →
      PartitionPoint (fun it => pred.precedes it e) b itemCount next →
      ShardWalk itemCount shardCount pred (e + 1) next rest → ShardWalk itemCount shardCount pred a b
        (⟨b, if next < itemCount ∧ pred.follows next e = false then next + 1 else next, s, e⟩ :: rest)

section Walk

variable {itemCount shardCount : ℕ} {pred : ShardPredicate} {b e : ℕ}

variable (hp : Routable itemCount shardCount pred)

include hp

theorem Routable.run_follows (hb : b < itemCount) (a : ℕ) :
    InitialRun (fun it => pred.follows b it) a shardCount :=
  fun _ _ _ hij hj => hp.follows_shard hb hij hj

theorem Routable.run_not_precedes (hb : b < itemCount) (a : ℕ) :
    InitialRun (fun it => !pred.precedes b it) a shardCount := by
  intro i j _ hij hj hnot
  simp only [Bool.not_eq_true'] at hnot ⊢
  by_contra hne
  cases (hp.precedes_shard hb hij hj (by simpa using hne)).symm.trans hnot

theorem Routable.run_precedes (he : e < shardCount) (b : ℕ) :
    InitialRun (fun it => pred.precedes it e) b itemCount :=
  fun _ _ _ hij hj => hp.precedes_item hij hj he

theorem shardWalk_groupByShardsFrom (a b : ℕ) (ha : a ≤ shardCount)
    (hb : b ≤ itemCount) :
    ShardWalk itemCount shardCount pred a b (groupByShardsFrom itemCount shardCount pred a b) := by
  rw [groupByShardsFrom]
  by_cases hm : b < itemCount
  · rw [if_pos hm]
    dsimp only
    have hstart := exponentialSearch_spec a shardCount _ ha (hp.run_follows hm a)
    have hend := exponentialSearch_spec _ shardCount _ hstart.point_le (hp.run_not_precedes hm _)
    generalize exponentialSearch a shardCount (fun it => pred.follows b it) = s at hstart hend ⊢
    generalize exponentialSearch s shardCount (fun it => !pred.precedes b it) = e at hend ⊢
    by_cases hlt : e < shardCount
    · rw [dif_pos hlt]
      have hn := exponentialSearch_spec b itemCount _ hb (hp.run_precedes hlt b)
      generalize exponentialSearch b itemCount (fun it => pred.precedes it e) = next at hn ⊢
      have hle := hstart.le_point.trans hend.le_point
      refine .step ?_ hstart hend hlt hn (shardWalk_groupByShardsFrom (e + 1) next hlt hn.point_le)
      -- the item at `b` precedes the shard that ends its group
      by_contra hge
      have hf : pred.precedes b e = false := hn.fails_from b (by omega) hm
      have hprec := hend.fails_from e le_rfl hlt
      simp [hf] at hprec
    · rw [dif_neg hlt]
      obtain rfl : e = shardCount := Nat.le_antisymm hend.point_le (not_lt.mp hlt)
      exact .last hm hstart hend
  · rw [if_neg hm, Nat.le_antisymm hb (not_lt.mp hm)]
    exact .done
termination_by shardCount - a

end Walk

theorem exists_getElem? {β : Type} {l : List β} {i : ℕ} (hi : i < l.length) : ∃ b, l[i]? = some b :=
  ⟨_, List.getElem?_eq_getElem hi⟩

theorem routable_of_lists {ι κ : Type} {items : List ι} {keys : List κ}
    {precedes follows : ι → κ → Bool}
    (hitems : ∀ {i i' : ℕ} {x x' : ι}, i ≤ i' → items[i]? = some x → items[i']? = some x' → ∀ y,
      (precedes x' y = true → precedes x y = true) ∧ (follows x y = true → follows x' y = true))
    (hk : ∀ {j j' : ℕ} {y y' : κ}, j ≤ j' → keys[j]? = some y → keys[j']? = some y' → ∀ x,
      (precedes x y = true → precedes x y' = true) ∧ (follows x y' = true → follows x y = true))
    (he : ∀ x ∈ items, ∀ y, follows x y = true → precedes x y = false) :
    Routable items.length keys.length
      ⟨fun i j => (items[i]?).any fun x => (keys[j]?).any fun y => precedes x y,
        fun i j => (items[i]?).any fun x => (keys[j]?).any fun y => follows x y⟩ where
  precedes_item hi hi' hj := by
    obtain ⟨x, hx⟩ := exists_getElem? (hi.trans_lt hi')
    obtain ⟨x', hx'⟩ := exists_getElem? hi'
    obtain ⟨y, hy⟩ := exists_getElem? hj
    simpa only [hx, hx', hy, Option.any_some] using (hitems hi hx hx' y).1
  precedes_shard hi hj hj' := by
    obtain ⟨x, hx⟩ := exists_getElem? hi
    obtain ⟨y, hy⟩ := exists_getElem? (hj.trans_lt hj')
    obtain ⟨y', hy'⟩ := exists_getElem? hj'
    simpa only [hx, hy, hy', Option.any_some] using (hk hj hy hy' x).1
  follows_item hi hi' hj := by
    obtain ⟨x, hx⟩ := exists_getElem? (hi.trans_lt hi')
    obtain ⟨x', hx'⟩ := exists_getElem? hi'
    obtain ⟨y, hy⟩ := exists_getElem? hj
    simpa only [hx, hx', hy, Option.any_some] using (hitems hi hx hx' y).2
  follows_shard hi hj hj' := by
    obtain ⟨x, hx⟩ := exists_getElem? hi
    obtain ⟨y, hy⟩ := exists_getElem? (hj.trans_lt hj')
    obtain ⟨y', hy'⟩ := exists_getElem? hj'
    simpa only [hx, hy, hy', Option.any_some] using (hk hj hy hy' x).2
  exclusive hi hj := by
    obtain ⟨x, hx⟩ := exists_getElem? hi
    obtain ⟨y, hy⟩ := exists_getElem? hj
    simpa only [hx, hy, Option.any_some] using he x (List.mem_of_getElem? hx) y

section Ranges

variable {κ : Type} [LinearOrder κ]

/-- The predicate for ranges and shards with the given keys. -/
def rangePredicate (ranges : List (κ × κ)) (keys : List κ) : ShardPredicate where
  precedes item shard := (ranges[item]?).any fun range => (keys[shard]?).any fun key =>
    decide (range.2 ≤ key)
  follows item shard := (ranges[item]?).any fun range => (keys[shard]?).any fun key =>
    decide (key ≤ range.1)

def groupRanges (ranges : List (κ × κ)) (keys : List κ) : List ShardGroup :=
  groupByShards ranges.length keys.length (rangePredicate ranges keys)

/-! ### What the walk reports -/

/-- A group that starts with the range at `b`, when the shards before `a` are done. -/
structure GroupOk (ranges : List (κ × κ)) (keys : List κ) (a b : ℕ) (group : ShardGroup)
    (range : κ × κ) : Prop where
  first : ranges[b]? = some range
  begin_eq : group.itemsBegin = b
  le_begin : a ≤ group.shardsBegin
  begin_le : group.shardsBegin ≤ group.shardsEnd
  end_le : group.shardsEnd ≤ keys.length
  before : ∀ j key, a ≤ j → j < group.shardsBegin → keys[j]? = some key → key ≤ range.1
  above : ∀ j key, group.shardsBegin ≤ j → keys[j]? = some key → range.1 < key
  inside : ∀ j key, group.shardsBegin ≤ j → j < group.shardsEnd → keys[j]? = some key → key < range.2

/-- The groups of the ranges from `b` on, when the shards before `a` are done. -/
inductive Grouping (ranges : List (κ × κ)) (keys : List κ) : ℕ → ℕ → List ShardGroup → Prop
  | done {a : ℕ} : Grouping ranges keys a ranges.length []
  | last {a b : ℕ} {group : ShardGroup} {range : κ × κ} : GroupOk ranges keys a b group range →
      group.shardsEnd = keys.length → group.itemsEnd = ranges.length → Grouping ranges keys a b [group]
  | step {a b next : ℕ} {group : ShardGroup} {range : κ × κ} {key : κ} {rest : List ShardGroup} :
      GroupOk ranges keys a b group range → keys[group.shardsEnd]? = some key → b < next →
        next ≤ ranges.length →
      (∀ i range', b ≤ i → i < next → ranges[i]? = some range' → range'.2 ≤ key) →
      (∀ range', ranges[next]? = some range' → key < range'.2) →
      ((group.itemsEnd = next + 1 ∧ ∃ range', ranges[next]? = some range' ∧ range'.1 < key) ∨
        (group.itemsEnd = next ∧ ∀ range', ranges[next]? = some range' → key ≤ range'.1)) →
      Grouping ranges keys (group.shardsEnd + 1) next rest → Grouping ranges keys a b (group :: rest)

section Spec

variable {ranges : List (κ × κ)} {keys : List κ}

variable {i j : ℕ} {range : κ × κ} {key : κ}

theorem precedes_eq (hr : ranges[i]? = some range) (hk : keys[j]? = some key) :
    (rangePredicate ranges keys).precedes i j = decide (range.2 ≤ key) := by
  simp [rangePredicate, hr, hk]

theorem follows_eq (hr : ranges[i]? = some range) (hk : keys[j]? = some key) :
    (rangePredicate ranges keys).follows i j = decide (key ≤ range.1) := by
  simp [rangePredicate, hr, hk]

theorem getElem?_lt (hk : keys.Pairwise (· < ·)) {k k' : κ} (hij : i < j) (hi : keys[i]? = some k)
    (hj : keys[j]? = some k') : k < k' := by
  obtain ⟨hi', rfl⟩ := List.getElem?_eq_some_iff.mp hi
  obtain ⟨hj', rfl⟩ := List.getElem?_eq_some_iff.mp hj
  exact List.pairwise_iff_getElem.mp hk i j hi' hj' hij

theorem getElem?_le (hk : keys.Pairwise (· < ·)) {k k' : κ} (hij : i ≤ j) (hi : keys[i]? = some k)
    (hj : keys[j]? = some k') : k ≤ k' := by
  by_cases heq : i = j
  · subst heq
    exact (Option.mem_unique hi hj).le
  · exact (getElem?_lt hk (by omega) hi hj).le

variable {b : ℕ}

theorem routable_rangePredicate (hranges : Ordered ranges) (hkeys : keys.Pairwise (· < ·)) :
    Routable ranges.length keys.length (rangePredicate ranges keys) := by
  refine routable_of_lists (fun hi hr hr' key => ?_) (fun hj hk hk' range => ?_)
    fun range hr key => ?_
  · simp only [decide_eq_true_eq]
    exact ⟨(hranges.snd_le hi hr hr').trans, fun h => h.trans (hranges.fst_le hi hr hr')⟩
  · simp only [decide_eq_true_eq]
    have hle := getElem?_le hkeys hj hk hk'
    exact ⟨fun h => h.trans hle, hle.trans⟩
  · simp only [decide_eq_true_eq, decide_eq_false_iff_not, not_le]
    exact fun h => h.trans_lt (hranges.nonempty range hr)

theorem groupOk_of_searches {a : ℕ} (hr : ranges[b]? = some range)
    {group : ShardGroup} (hb : group.itemsBegin = b) (hstart : PartitionPoint
      (fun it => (rangePredicate ranges keys).follows b it) a keys.length group.shardsBegin)
    (hend : PartitionPoint (fun it =>
      !(rangePredicate ranges keys).precedes b it) group.shardsBegin keys.length group.shardsEnd)
    : GroupOk ranges keys a b group range := by
  refine ⟨hr, hb, hstart.le_point, hend.le_point, hend.point_le, ?_, ?_, ?_⟩
  · intro j key haj hj hk
    have := hstart.holds_before j haj hj
    simpa only [follows_eq hr hk, decide_eq_true_eq] using this
  · intro j key hj hk
    have := hstart.fails_from j hj (lt_of_getElem? hk)
    simpa only [follows_eq hr hk, decide_eq_false_iff_not, not_le] using this
  · intro j key hj hlt hk
    have := hend.holds_before j hj hlt
    simpa only [precedes_eq hr hk, Bool.not_eq_true', decide_eq_false_iff_not, not_le] using this

theorem ShardWalk.grouping {a b : ℕ} {groups : List ShardGroup}
    (h : ShardWalk ranges.length keys.length (rangePredicate ranges keys) a b groups) :
    Grouping ranges keys a b groups := by
  induction h with
  | done => exact .done
  | last hm hstart hend =>
    obtain ⟨range, hr⟩ := exists_getElem? hm
    exact .last (groupOk_of_searches hr rfl hstart hend) rfl rfl
  | @step a b s e next rest hbn hstart hend hlt hn _ ih =>
    obtain ⟨range, hr⟩ := exists_getElem? (hbn.trans_le hn.point_le)
    obtain ⟨key, hk⟩ := exists_getElem? hlt
    refine .step (groupOk_of_searches hr rfl hstart hend) hk hbn hn.point_le ?_ ?_ ?_ ih
    · intro i range' hbi hi hr'
      have := hn.holds_before i hbi hi
      simpa only [precedes_eq hr' hk, decide_eq_true_eq] using this
    · intro range' hr'
      have := hn.fails_from next (Nat.le_refl _) (lt_of_getElem? hr')
      simpa only [precedes_eq hr' hk, decide_eq_false_iff_not, not_le] using this
    · by_cases hs : next < ranges.length ∧ (rangePredicate ranges keys).follows next e = false
      · obtain ⟨range', hr'⟩ := exists_getElem? hs.1
        have hf := hs.2
        simp only [follows_eq hr' hk, decide_eq_false_iff_not, not_le] at hf
        exact .inl ⟨if_pos hs, range', hr', hf⟩
      · refine .inr ⟨if_neg hs, fun range' hr' => ?_⟩
        have hl := lt_of_getElem? hr'
        simpa [hl, follows_eq hr' hk] using hs

theorem grouping_groupRanges (hr : Ordered ranges) (hk : keys.Pairwise (· < ·)) :
    Grouping ranges keys 0 0 (groupRanges ranges keys) :=
  (shardWalk_groupByShardsFrom (routable_rangePredicate hr hk) 0 0 (Nat.zero_le _)
    (Nat.zero_le _)).grouping

end Spec

/-! ### Positions of the walk -/

/-- The walk stands at a shard and an item: the cells before the shard end at the frontier, where
the items before the position have ended and the others have not. -/
structure AtShard (ranges : List (κ × κ)) (first : κ) (keys : List κ) (a b : ℕ)
    (frontier : κ) : Prop where
  bound : (first :: keys)[a]? = some frontier
  ended : ∀ i range, i < b → ranges[i]? = some range → range.2 ≤ frontier
  alive : ∀ i range, b ≤ i → ranges[i]? = some range → frontier < range.2

/-- A group that ends at the shard of `key`: the ranges before `next` have ended there, and the one
at `next` belongs to the group if it has started. -/
structure EndsAt (ranges : List (κ × κ)) (keys : List κ) (b next : ℕ) (group : ShardGroup)
    (key : κ) : Prop where
  key_eq : keys[group.shardsEnd]? = some key
  lt : b < next
  le : next ≤ ranges.length
  ended : ∀ i range', b ≤ i → i < next → ranges[i]? = some range' → range'.2 ≤ key
  alive : ∀ range', ranges[next]? = some range' → key < range'.2
  items : (group.itemsEnd = next + 1 ∧ ∃ range', ranges[next]? = some range' ∧ range'.1 < key) ∨
    (group.itemsEnd = next ∧ ∀ range', ranges[next]? = some range' → key ≤ range'.1)

section Positions

variable {ranges : List (κ × κ)} {keys : List κ} {first frontier key : κ} {a b n : ℕ}
  {group : ShardGroup}
  {range : κ × κ}

theorem AtShard.lt_key (hat : AtShard ranges first keys a b frontier)
    (hb : (first :: keys).Pairwise (· < ·))
    {j : ℕ} (hj : a ≤ j) (hk : keys[j]? = some key) : frontier < key :=
  getElem?_lt hb (Nat.lt_succ_of_le hj) hat.bound (by simpa using hk)

theorem AtShard.gap (hat : AtShard ranges first keys a b frontier) (hranges : Ordered ranges)
    (hr : ranges[b]? = some range) {x : κ} (hge : frontier ≤ x) (hlt : x < max range.1 frontier) :
    ¬InIntervals ranges x := by
  rintro ⟨r, hm, hx⟩
  obtain ⟨i, hi⟩ := List.mem_iff_getElem?.mp hm
  have hrange : x < range.1 := (lt_max_iff.mp hlt).resolve_right (not_lt.mpr hge)
  by_cases hib : i < b
  · exact absurd (hx.2.trans_le (hat.ended i r hib hi)) (not_lt.mpr hge)
  · by_cases heq : i = b
    · subst heq
      obtain rfl := Option.mem_unique hr hi
      exact absurd hx.1 (not_le.mpr hrange)
    · have := hranges.le_of_lt (show b < i by omega) hr hi
      exact absurd (((hranges.lt hr).le.trans this).trans hx.1) (not_le.mpr hrange)

theorem AtShard.gap_of_done (hat : AtShard ranges first keys a ranges.length frontier) {x : κ}
    (hge : frontier ≤ x) : ¬InIntervals ranges x := by
  rintro ⟨r, hm, hx⟩
  obtain ⟨i, hi⟩ := List.mem_iff_getElem?.mp hm
  have := hat.ended i r (lt_of_getElem? hi) hi
  exact absurd (hx.2.trans_le this) (not_lt.mpr hge)

theorem AtShard.next (hat : AtShard ranges first keys a b frontier) (hranges : Ordered ranges)
    (hb : (first :: keys).Pairwise (· < ·)) (hg : GroupOk ranges keys a b group range)
    (he : EndsAt ranges keys b n group key) : AtShard ranges first keys (group.shardsEnd + 1) n key := by
  refine ⟨by simpa using he.key_eq, fun i r hi hr => ?_, fun i r hi hr => ?_⟩
  · by_cases hib : i < b
    · exact (hat.ended i r hib hr).trans (hat.lt_key hb (hg.le_begin.trans hg.begin_le) he.key_eq).le
    · exact he.ended i r (not_lt.mp hib) hi hr
  · obtain ⟨r', hr'⟩ := exists_getElem? (Nat.lt_of_le_of_lt hi (lt_of_getElem? hr))
    exact (he.alive r' hr').trans_le (hranges.snd_le hi hr' hr)

/-- The items of a group that ends at a shard: the last starts before its key, those after do not.
-/
theorem items_of_step (hranges : Ordered ranges) (he : EndsAt ranges keys b n group key) :
    b < group.itemsEnd ∧ (∃ last, ranges[group.itemsEnd - 1]? = some last ∧ last.1 < key) ∧
      ∀ (i : ℕ) (range' : κ × κ), group.itemsEnd ≤ i → ranges[i]? = some range' → key ≤ range'.1 := by
  have hlt := he.lt
  have hle := he.le
  rcases he.items with ⟨hitems, range', hr', hs⟩ | ⟨hitems, hafter⟩
  · refine ⟨by omega, ⟨range', ?_, hs⟩, fun i r hi hr => ?_⟩
    · rw [hitems, Nat.add_sub_cancel, hr']
    · exact (he.alive range' hr').le.trans (hranges.le_of_lt (by omega) hr' hr)
  · obtain ⟨last, hlast⟩ := exists_getElem? (l := ranges) (i := n - 1) (by omega)
    have hends := he.ended (n - 1) last (by omega) (by omega) hlast
    refine ⟨by omega, ⟨last, hitems ▸ hlast, (hranges.lt hlast).trans_le hends⟩, fun i r hi hr => ?_⟩
    by_cases heq : i = n
    · exact hafter r (heq ▸ hr)
    · have hilen := lt_of_getElem? hr
      obtain ⟨r', hr'⟩ := exists_getElem? (l := ranges) (i := n) (by omega)
      exact (hafter r' hr').trans ((hranges.lt hr').le.trans (hranges.le_of_lt (by omega) hr' hr))

end Positions

end Ranges

end Ytsaurus.Query
