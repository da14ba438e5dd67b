/-
# The ranges of a trie cover the keys that it matches

The loop over the bounds compares every interval with the two ends of the key range at the offset of
the state, and skips an interval that lies outside. It does so even when the prefix has left that
end, where every value is inside the key range.

A key that lies in the key range and that the trie matches is held by one of the ranges, unless an
interval that holds its value is skipped on its path (`step_covers`). Each visit owns the keys on
its path: what it skips no other visit adds (`covered_by_visit`).
-/
import Ytsaurus.Query.TrieExpansion

namespace Ytsaurus.Query

open List TableClient Lib

variable {α : Type} [LinearOrder α]

/-! ### Intervals -/

omit [LinearOrder α] in
theorem mem_boundPairs_sublist : ∀ {bounds : List (Bound α)} {pair : Bound α × Bound α},
    pair ∈ boundPairs bounds → [(pair.1, true), (pair.2, false)].Sublist (directed true bounds)
  | [], _, h | [_], _, h => absurd h not_mem_nil
  | lower :: upper :: rest, pair, h => by
    rcases mem_cons.mp h with rfl | h
    · exact ((nil_sublist _).cons_cons _).cons_cons _
    · exact ((mem_boundPairs_sublist h).cons _).cons _

/-- A value lies inside a sorted list of bounds iff one of the intervals holds it. -/
theorem inside_iff_exists_pair (v : α) : ∀ {bounds : List (Bound α)},
    SortedAt (Bound.passed (.data v)) (directed true bounds) → bounds.length % 2 = 0 →
    (Inside bounds v ↔ ∃ pair ∈ boundPairs bounds, InPair pair v)
  | [], _, _ => iff_of_false Bool.false_ne_true (by simp [boundPairs])
  | [_], _, he => absurd he (by simp)
  | lower :: upper :: rest, hsorted, he => by
    obtain ⟨hlower, hr⟩ := pairwise_cons.mp hsorted
    obtain ⟨hupper, hr⟩ := pairwise_cons.mp hr
    have ih := inside_iff_exists_pair v hr (by simp only [length_cons] at he; omega)
    have hpair : ∀ pair : Bound α × Bound α, InPair pair v ↔
        Bound.passed (.data v) (pair.1, true) = true ∧
            Bound.passed (.data v) (pair.2, false) = false := by
      intro pair
      rw [InPair, ← passed_iff, ← not_lt, ← passed_iff, Bool.not_eq_true]
    have hpairs : (∃ pair ∈ boundPairs (lower :: upper :: rest), InPair pair v) ↔
        InPair (lower, upper) v ∨ Inside rest v := by
      rw [ih, show boundPairs (lower :: upper :: rest) = (lower, upper) :: boundPairs rest from rfl]
      simp only [mem_cons, exists_eq_or_imp]
    rw [hpairs, hpair]
    unfold Inside
    simp only [insideFrom, Bool.not_false, Bool.not_true]
    cases hl : Bound.passed (.data v) (lower, true) with
    | false =>
      -- what follows a bound that is not passed is not passed
      have hn : ¬Inside rest v := by
        rw [ih]
        rintro ⟨pair, hm, hin⟩
        have hsub := (mem_boundPairs_sublist hm).subset
        have := hlower (pair.1, true) (mem_cons_of_mem _ (hsub (by simp))) ((hpair pair).mp hin).1
        rw [hl] at this
        cases this
      simpa [Inside] using hn
    | true =>
      cases hu : Bound.passed (.data v) (upper, false) <;> simp

variable {bounds : List (Bound α)}

theorem OrderedBounds.inside_iff (h : OrderedBounds bounds) (v : α) :
    Inside bounds v ↔ ∃ pair ∈ boundPairs bounds, InPair pair v :=
  inside_iff_exists_pair v (h.sortedAt (.data v)) h.even

theorem OrderedBounds.compareBound_lt (h : OrderedBounds bounds) {pair : Bound α × Bound α}
    (hpair : pair ∈ boundPairs bounds) : compareBound pair.1 pair.2 true false < 0 := by
  have hpairwise := ((isChain_compareBound_iff _).mp h.ordered).sublist
    (mem_boundPairs_sublist hpair)
  have hle : eventKey (pair.1, true) ≤ eventKey (pair.2, false) := by simpa using hpairwise
  refine (compareBound_neg_iff (pair.1, true) (pair.2, false)).mpr (lt_of_le_of_ne hle fun heq => ?_)
  -- an opening and a closing end never have the same rank
  have hr := congrArg (fun key => (ofLex key).2) heq
  have ho := boundRank_true pair.1.included
  have hc := boundRank_false pair.2.included
  simp only [eventKey, ofLex_toLex] at hr
  omega

/-- A state whose trie can be expanded. -/
structure TrieOk (state : TrieState α) : Prop where
  wellFormed : state.trie.WellFormed
  offset_le : ∀ offset next bounds, state.trie = .node offset next bounds →
    state.keyPrefix.length ≤ offset

section Cover

variable {keyRange : MutableRowRange α} {state : TrieState α} {limit : ℕ} {expansion : Expansion α}

theorem TrieOk.expandState_ok (h : TrieOk state) (keyRange : MutableRowRange α) (limit : ℕ) :
    ∃ expansion, expandState keyRange limit state = .ok expansion := by
  unfold expandState
  split_ifs
  · exact ⟨_, rfl⟩
  · cases ht : state.trie with
    | universal => exact ⟨_, rfl⟩
    | node offset next bounds =>
      dsimp only
      split_ifs with hoffset
      · exact ⟨_, rfl⟩
      · have hle := h.offset_le offset next bounds ht
        have hwf := h.wellFormed
        rw [ht] at hwf
        obtain _ | ⟨hordered, -, -, -, -⟩ := hwf
        rw [ytVerify_true (by omega : offset = state.keyPrefix.length), ok_bind,
          ytVerify_true hordered.even, ok_bind,
          ytVerify_true fun pair hp => hordered.compareBound_lt hp]
        exact ⟨_, rfl⟩

theorem TrieOk.step (h : TrieOk state) (hexpand : expandState keyRange limit state = .ok expansion) :
    ∀ next ∈ expansion.states, TrieOk next := by
  intro next hnext
  obtain ⟨-, ⟨-, -, -, hf, -, rfl⟩ | ⟨nexts, bounds, ht, -, pair, hm, value, hp, rfl⟩⟩ :=
    mem_states_cases hexpand hnext
  · refine ⟨h.wellFormed, fun offset next bounds ht => ?_⟩
    have hlt := hf offset next bounds ht
    have hone : ((keyRange.1[state.keyPrefix.length]?).toList).length ≤ 1 := by
      cases keyRange.1[state.keyPrefix.length]? <;> simp
    simp only [length_append]
    omega
  · have hwf := h.wellFormed
    rw [ht] at hwf
    obtain _ | ⟨-, -, -, hnexts, hoffsets⟩ := hwf
    have hc := (refineNext_eq_some hp).2
    refine ⟨?_, fun offset ns bs heq => ?_⟩
    · dsimp only [NextValue.state]
      exact hc ▸ hnexts pair hm
    · dsimp only [NextValue.state] at heq ⊢
      have := hoffsets pair hm offset ns bs (hc ▸ heq)
      rw [length_append, length_singleton]
      omega

theorem trieOk_queue {rest : List (TrieState α)} (h : ∀ s ∈ state :: rest, TrieOk s)
    (he : expandState keyRange limit state = .ok expansion) : ∀ s ∈ rest ++ expansion.states, TrieOk s :=
  forall_queue h fun hs => hs.step he

theorem stateOk_queue {rest : List (TrieState α)} (h : ∀ s ∈ state :: rest, StateOk keyRange s)
    (he : expandState keyRange limit state = .ok expansion) :
      ∀ s ∈ rest ++ expansion.states, StateOk keyRange s :=
  forall_queue h fun hs => hs.step he

theorem trieOk_root {trie : KeyTrie α} (h : trie.WellFormed) : TrieOk (rootState trie) :=
  ⟨h, fun _ _ _ _ => Nat.zero_le _⟩

theorem expandStates_ok (states : List (TrieState α))
    (limit : ℕ) (result : List (MutableRowRange α)) (h : ∀ s ∈ states, TrieOk s) :
      ∃ ranges, expandStates keyRange states limit result = .ok ranges := by
  induction states, limit using queue_induction keyRange generalizing result with
  | nil limit => exact ⟨result, expandStates_nil keyRange limit result⟩
  | cons state rest limit ih =>
    obtain ⟨expansion, he⟩ := (h state mem_cons_self).expandState_ok keyRange limit
    rw [expandStates_cons he]
    exact ih expansion he _ (trieOk_queue h he)

/-- The loop over the bounds of the state skips every interval that holds the value, and there is
one. -/
def Skips (keyRange : MutableRowRange α) (state : TrieState α) (v : α) : Prop :=
  ∃ next bounds, state.trie = .node state.keyPrefix.length next bounds ∧
    (∃ pair ∈ boundPairs bounds, InPair pair v) ∧
    ∀ pair ∈ boundPairs bounds, InPair pair v → refineBounds keyRange state.keyPrefix.length
        (state.refinesLower keyRange) state.refineUpper pair = none

variable {key : List α}

section

variable (h : expandState keyRange limit state = .ok expansion) (hok : StateOk keyRange state)
  {v : α} (hv : key[state.keyPrefix.length]? = some v)

include h hok hv

theorem holdsKey_of_collapses (hc : Collapses keyRange (state, limit)) (hk : HoldsKey keyRange key)
    (hp : state.keyPrefix <+: keyRow key) (hhull : InHull (state.kept keyRange) v) :
    ∃ range ∈ expansion.ranges, HoldsKey range key := by
  obtain ⟨hend, hranges⟩ := expansion_of_collapses h hc
  obtain ⟨rest, hd⟩ := exists_drop_eq_cons hv
  rw [hranges]
  exact ⟨_, mem_singleton_self _, (holdsKey_collapsedRange_iff (hok.edge hend)).mpr
    ⟨v, rest, hd ▸ keyRow_split hp, (inPair_minMaxOf_iff _ v).mpr hhull, fun _ => hk.1, fun _ => hk.2⟩⟩

/-- A key whose interval is skipped is held only by a collapse whose hull holds its value. -/
theorem collapses_of_skips (hs : Skips keyRange state v)
    {range : MutableRowRange α} (hrange : range ∈ expansion.ranges) (hk : HoldsKey range key) :
      Collapses keyRange (state, limit) ∧ InHull (state.kept keyRange) v := by
  by_cases hc : Collapses keyRange (state, limit)
  · obtain ⟨hend, hranges⟩ := expansion_of_collapses h hc
    obtain rfl := mem_singleton.mp (hranges ▸ hrange)
    obtain ⟨v', rest, hrow, hin, -⟩ := (holdsKey_collapsedRange_iff (hok.edge hend)).mp hk
    have hvalue : (keyRow key)[state.keyPrefix.length]? = some (.data v') := by
      rw [hrow]
      simp [keyRow]
    rw [keyRow, getElem?_map, hv] at hvalue
    obtain rfl := Value.data.inj (Option.some.inj hvalue)
    exact ⟨hc, (inPair_minMaxOf_iff _ v).mp hin⟩
  · obtain ⟨nexts, bounds, ht, -, hnone⟩ := hs
    obtain ⟨-, rfl⟩ | ⟨hend, ⟨-, hf⟩ | ⟨nexts', bounds', ht', rfl⟩⟩ := expandState_cases h
    · exact absurd hrange not_mem_nil
    · exact absurd (hf _ _ _ ht) (lt_irrefl _)
    · obtain ⟨-, rfl, rfl⟩ := KeyTrie.node.inj (ht.symm.trans ht')
      rw [Collapses, kept_node ht hend, length_collapsedIntervals] at hc
      rw [expandNode, if_neg hc] at hrange
      obtain ⟨result, hresult, rfl⟩ := mem_map.mp hrange
      obtain ⟨pair, hpair, hb⟩ := mem_filterMap.mp hresult
      obtain ⟨-, -, v', hv', hin⟩ := (holdsKey_exactRange (hok.edge hend) hb key).mp hk
      obtain rfl := Option.mem_unique hv hv'
      cases (hnone pair hpair hin).symm.trans hb

end

/-- An iteration on the path of a key: the key is in a range, or its path goes on, unless its
interval is skipped. -/
theorem step_covers (hok : StateOk keyRange state) (hwf : state.trie.WellFormed)
    (h : expandState keyRange limit state = .ok expansion) (hk : HoldsKey keyRange key)
    (hp : state.keyPrefix <+: keyRow key) (hmatches : state.trie.Matches key)
    (hskips : ∀ v, key[state.keyPrefix.length]? = some v → Skips keyRange state v →
      Collapses keyRange (state, limit) ∧ InHull (state.kept keyRange) v) :
    (∃ range ∈ expansion.ranges, HoldsKey range key) ∨
      ∃ next ∈ expansion.states, next.keyPrefix <+: keyRow key ∧ next.trie.Matches key := by
  obtain ⟨hend, rfl⟩ | ⟨hend, ⟨rfl, -⟩ | ⟨nexts, bounds, ht, hexpansion⟩⟩ := expandState_cases h
  · -- the prefix is the upper end, so the key is not below it
    simp only [TrieState.atUpperEnd, Bool.and_eq_true, decide_eq_true_eq] at hend
    have heq := (hok.onUpper hend.1).eq_of_length_le hend.2
    exact absurd hk.2 (not_lt.mpr (heq ▸ le_of_startsWith hp))
  · have hedge := hok.edge hend
    obtain ⟨hlower, hupper, hsame, hexpand⟩ | ⟨-, hranges⟩ := expandFree_cases keyRange limit state
      (state.refinesLower keyRange)
    · obtain ⟨u, tail, heq, hu, -⟩ := startsWith_split (hedge.onLower hlower)
      obtain ⟨q, tail', heq', hq, -⟩ := startsWith_split (hedge.onUpper hupper)
      obtain rfl := Option.some.inj (hu.symm.trans (hsame.trans hq))
      rw [hexpand, hu]
      refine .inr ⟨_, mem_singleton_self _, ?_, hmatches⟩
      refine startsWith_of_le_of_lt (l := tail) (r := tail') _ ?_ ?_
      · simpa [heq] using hk.1
      · simpa [heq'] using hk.2
    · have hh := (holdsKey_freeRange hedge hp).mpr hk
      exact .inl ⟨_, (hranges _).mpr ⟨rfl, hh.1.trans_lt hh.2⟩, hh⟩
  · have hedge := hok.edge hend
    rw [ht] at hmatches hwf
    obtain _ | ⟨hordered, -, -, -, -⟩ := hwf
    have hcollapses (v : α) (hv : key[state.keyPrefix.length]? = some v)
        (interval : Bound α × Bound α) (hm : interval ∈ state.kept keyRange)
          (hin : InPair interval v) (hc : Collapses keyRange (state, limit)) :
        ∃ range ∈ expansion.ranges, HoldsKey range key :=
      holdsKey_of_collapses h hok hv hc hk hp (.of_mem hm hin)
    have hexact (hc : ¬Collapses keyRange (state, limit)) := hexpansion.trans (if_neg (by
      rwa [Collapses, kept_node ht hend, length_collapsedIntervals] at hc))
    rw [kept_node ht hend] at hcollapses
    obtain _ | ⟨hv, hinside⟩ | ⟨hv, hmem, hchild⟩ := hmatches
    · next v =>
      by_cases hs : Skips keyRange state v
      · obtain ⟨hc, hhull⟩ := hskips v hv hs
        exact .inl (holdsKey_of_collapses h hok hv hc hk hp hhull)
      · obtain ⟨pair, hpair, hin, hkept⟩ : ∃ pair ∈ boundPairs bounds, InPair pair v ∧
            refineBounds keyRange
            state.keyPrefix.length (state.refinesLower keyRange) state.refineUpper pair ≠ none := by
          by_contra hn
          push Not at hn
          exact hs ⟨nexts, bounds, ht, (hordered.inside_iff v).mp hinside, hn⟩
        obtain ⟨result, hb⟩ := Option.ne_none_iff_exists'.mp hkept
        have hresult := mem_filterMap.mpr ⟨pair, hpair, hb⟩
        left
        by_cases hc : Collapses keyRange (state, limit)
        · refine hcollapses v hv pair (mem_append_left _ (mem_map.mpr ⟨result, hresult, ?_⟩)) hin hc
          unfold refineBounds at hb
          split_ifs at hb
          exact Option.some.inj hb ▸ rfl
        · rw [hexact hc]
          exact ⟨_, mem_map_of_mem hresult, (holdsKey_exactRange hedge hb key).mpr ⟨hk, hp, v, hv, hin⟩⟩
    · next v child =>
      obtain ⟨next, hn⟩ := hedge.exists_next hk hp hv child
      have hresult := mem_filterMap.mpr ⟨_, hmem, hn⟩
      obtain ⟨hvalue, ht', -⟩ := hedge.next hn
      by_cases hc : Collapses keyRange (state, limit)
      · refine .inl (hcollapses v hv _ (mem_append_right _ (mem_map_of_mem hresult)) ?_ hc)
        rw [hvalue]
        exact inPair_point v
      · rw [hexact hc]
        refine .inr ⟨_, mem_map_of_mem hresult, ?_, ?_⟩
        · obtain ⟨rest, hd⟩ := exists_drop_eq_cons hv
          refine ⟨keyRow rest, ?_⟩
          rw [keyRow_split hp, hd]
          simp [NextValue.state, hvalue, keyRow]
        · dsimp only [NextValue.state]
          exact ht' ▸ hchild

/-! ### The path of a key -/

/-- The key starts with the prefix of the state. -/
def OnPath (key : List α) (state : TrieState α) : Prop := state.keyPrefix <+: keyRow key

omit [LinearOrder α] in
theorem getElem_of_onPath {p : List (Value α)} {next : NextValue α}
    (h : OnPath key (next.state p)) : ∃ v, key[p.length]? = some v ∧ next.value = .data v := by
  obtain ⟨rest, hr⟩ := h
  have hg : (keyRow key)[p.length]? = some next.value := by
    rw [← hr]
    simp [NextValue.state]
  rw [keyRow, getElem?_map, Option.map_eq_some_iff] at hg
  obtain ⟨v, hv, hvalue⟩ := hg
  exact ⟨v, hv, hvalue.symm⟩

section

variable (h : expandState keyRange limit state = .ok expansion)

include h

theorem exists_next_of_mem_states {nexts : List (Value α × KeyTrie α)}
    (ht : state.trie = .node state.keyPrefix.length nexts bounds)
    {next : TrieState α} (hn : next ∈ expansion.states) (hpath : OnPath key next) :
    ∃ v, key[state.keyPrefix.length]? = some v ∧ (.data v, next.trie) ∈ nexts := by
  obtain ⟨-, ⟨-, -, -, hfree, -, -⟩ | ⟨nexts', bounds', ht', -, pair, hm, value, hpair, rfl⟩⟩ :=
    mem_states_cases h hn
  · exact absurd (hfree _ _ _ ht) (lt_irrefl _)
  · obtain ⟨-, rfl, rfl⟩ := KeyTrie.node.inj (ht.symm.trans ht')
    obtain ⟨hfst, hs⟩ := refineNext_eq_some hpair
    obtain ⟨v, hv, hd⟩ := getElem_of_onPath hpath
    refine ⟨v, hv, ?_⟩
    dsimp only [NextValue.state]
    rwa [← hd, hfst, hs]

theorem TrieOk.pairwise_states (hok : TrieOk state)
    (key : List α) : expansion.states.Pairwise fun s t => ¬(OnPath key s ∧ OnPath key t) := by
  obtain ⟨-, rfl⟩ | ⟨-, ⟨rfl, -⟩ | ⟨nexts, bounds, ht, rfl⟩⟩ := expandState_cases h
  · exact .nil
  · obtain ⟨-, -, -, he⟩ | ⟨hs, -⟩ := expandFree_cases keyRange limit state (state.refinesLower keyRange)
    · rw [he]
      exact pairwise_singleton _ _
    · rw [hs]
      exact .nil
  · have hwf := hok.wellFormed
    rw [ht] at hwf
    obtain _ | ⟨-, hnodup, -, -, -⟩ := hwf
    unfold expandNode
    dsimp only
    split_ifs
    · exact .nil
    · rw [pairwise_map, pairwise_filterMap]
      refine (pairwise_map.mp hnodup).imp fun hne next hnext next' hnext' hb => hne ?_
      obtain ⟨v, hv, hvalue⟩ := getElem_of_onPath hb.1
      obtain ⟨v', hv', hvalue'⟩ := getElem_of_onPath hb.2
      obtain rfl := Option.mem_unique hv hv'
      rw [← (refineNext_eq_some hnext).1, ← (refineNext_eq_some hnext').1, hvalue, hvalue']

/-- The iteration that hands a key on adds no range that holds it. -/
theorem TrieOk.not_holdsKey_of_next (hok : TrieOk state) (hs : StateOk keyRange state)
    {next : TrieState α} (hn : next ∈ expansion.states)
    (hpath : OnPath key next) : ∀ range ∈ expansion.ranges, ¬HoldsKey range key := by
  intro range hrange hk
  obtain ⟨he, ⟨-, -, -, -, hranges, -⟩ | ⟨nexts, bounds, ht, hranges, -⟩⟩ := mem_states_cases h hn
  · rw [hranges] at hrange
    exact absurd hrange not_mem_nil
  · obtain ⟨v, hv, hm⟩ := exists_next_of_mem_states h ht hn hpath
    have hwf := hok.wellFormed
    rw [ht] at hwf
    obtain _ | ⟨hordered, -, hd, -, -⟩ := hwf
    refine hd v next.trie hm ((hordered.inside_iff v).mpr ?_)
    rw [hranges] at hrange
    obtain ⟨result, hres, rfl⟩ := mem_map.mp hrange
    obtain ⟨pair, hpair, hb⟩ := mem_filterMap.mp hres
    obtain ⟨-, -, v', hv', hin⟩ := (holdsKey_exactRange (hs.edge he) hb key).mp hk
    obtain rfl := Option.mem_unique hv hv'
    exact ⟨pair, hpair, hin⟩

theorem TrieOk.not_onPath_of_skips (hok : TrieOk state)
    {v : α} (hv : key[state.keyPrefix.length]? = some v) (hs : Skips keyRange state v) :
    ∀ next ∈ expansion.states, ¬OnPath key next := by
  intro next hn hpath
  obtain ⟨nexts, bounds, ht, ⟨pair, hpair, hin⟩, -⟩ := hs
  obtain ⟨v', hv', hm⟩ := exists_next_of_mem_states h ht hn hpath
  obtain rfl := Option.mem_unique hv hv'
  have hwf := hok.wellFormed
  rw [ht] at hwf
  obtain _ | ⟨hordered, -, hd, -, -⟩ := hwf
  exact hd v next.trie hm ((hordered.inside_iff v).mpr ⟨pair, hpair, hin⟩)

theorem matches_step {root : KeyTrie α}
    (hs : ∀ key, OnPath key state → state.trie.Matches key → root.Matches key) :
    ∀ next ∈ expansion.states, ∀ key, OnPath key next → next.trie.Matches key →
    root.Matches key := by
  intro next hn key hp hmatches
  refine hs key ((startsWith_of_mem_states h next hn).trans hp) ?_
  obtain ⟨-, ⟨-, -, -, -, -, rfl⟩ | ⟨nexts, bounds, ht, -⟩⟩ := mem_states_cases h hn
  · exact hmatches
  · obtain ⟨v, hv, hmem⟩ := exists_next_of_mem_states h ht hn hp
    rw [ht]
    exact .next hv hmem hmatches

end

/-! ### Whole runs -/

theorem not_holdsKey_of_not_onPath {states : List (TrieState α)} (h : ∀ s ∈ states, ¬OnPath key s)
    {visit : TrieState α × ℕ} (hv : visit ∈ visits keyRange states limit) :
    ¬OnPath key visit.1 ∧ ∀ range ∈ visitRanges keyRange visit, ¬HoldsKey range key := by
  have ho : ¬OnPath key visit.1 :=
    visits_induction (fun state limit expansion hs he next hn hp =>
      hs ((startsWith_of_mem_states he next hn).trans hp)) states limit h visit hv
  refine ⟨ho, fun range hr hk => ho ?_⟩
  obtain ⟨expansion, he, hm⟩ := mem_visitRanges hr
  exact startsWith_of_holdsKey he hm hk

/-- A visit that does not hand a key of its path on is the only one that can add a range for it. -/
theorem covered_by_visit (states : List (TrieState α)) (limit : ℕ) (hok : ∀ s ∈ states, TrieOk s)
    (hstates : ∀ s ∈ states, StateOk keyRange s)
    (hpair : states.Pairwise fun s t => ¬(OnPath key s ∧ OnPath key t))
    {visit visit' : TrieState α × ℕ} (hv : visit ∈ visits keyRange states limit)
    (hpath : OnPath key visit.1)
    (hl : ∀ expansion, expandState keyRange visit.2 visit.1 = .ok expansion →
      ∀ next ∈ expansion.states, ¬OnPath key next) (hv' : visit' ∈ visits keyRange states limit)
    (hc : ∃ range ∈ visitRanges keyRange visit', HoldsKey range key) :
    ∃ range ∈ visitRanges keyRange visit, HoldsKey range key := by
  induction states, limit using queue_induction keyRange with
  | nil limit =>
    rw [visits] at hv
    exact absurd hv not_mem_nil
  | cons state rest limit ih =>
    have hstate := hok state mem_cons_self
    obtain ⟨expansion, he⟩ := hstate.expandState_ok keyRange limit
    obtain ⟨hh, htail⟩ := pairwise_cons.mp hpair
    -- a key on the path of the state is off the paths of the rest
    have hrest (h : OnPath key state) (hn : ∀ next ∈ expansion.states, ¬OnPath key next) :
        ∀ s ∈ rest ++ expansion.states, ¬OnPath key s := by
      intro s hs
      rcases mem_append.mp hs with hs | hs
      · exact fun hpath => hh s hs ⟨h, hpath⟩
      · exact hn s hs
    rw [visits_cons he] at hv hv'
    rcases mem_cons.mp hv with rfl | hv <;> rcases mem_cons.mp hv' with rfl | hv'
    · exact hc
    · obtain ⟨range, hrange, hk⟩ := hc
      exact absurd hk ((not_holdsKey_of_not_onPath (hrest hpath (hl expansion he)) hv').2 range hrange)
    · obtain ⟨range, hrange, hk⟩ := hc
      obtain ⟨expansion', he', hm⟩ := mem_visitRanges hrange
      obtain rfl := Except.ok.inj (he.symm.trans he')
      refine absurd hpath (not_holdsKey_of_not_onPath (hrest (startsWith_of_holdsKey he hm hk) ?_) hv).1
      intro next hn hpath
      exact hstate.not_holdsKey_of_next he (hstates state mem_cons_self) hn hpath range hm hk
    · refine ih expansion he (trieOk_queue hok he) ?_ ?_ hv hv'
      · exact stateOk_queue hstates he
      · refine pairwise_append.mpr ⟨htail, hstate.pairwise_states he key, fun s hs t ht hb => ?_⟩
        exact hh s hs ⟨(startsWith_of_mem_states he t ht).trans hb.2, hb.1⟩

/-- A key on the path of a state of the queue is held by a range, unless an interval of it is
skipped. -/
theorem covered_of_not_skipped (states : List (TrieState α)) (limit : ℕ)
    (hok : ∀ s ∈ states, TrieOk s)
    (hstates : ∀ s ∈ states, StateOk keyRange s) (hk : HoldsKey keyRange key)
    (hskips : ∀ visit ∈ visits keyRange states limit, OnPath key visit.1 →
      ∀ v, key[visit.1.keyPrefix.length]? = some v → Skips keyRange visit.1 v →
        Collapses keyRange visit ∧ InHull (visit.1.kept keyRange) v)
    (hm : ∃ s ∈ states, OnPath key s ∧ s.trie.Matches key) : ∃ visit ∈ visits keyRange states limit,
      ∃ range ∈ visitRanges keyRange visit, HoldsKey range key := by
  induction states, limit using queue_induction keyRange with
  | nil limit =>
    obtain ⟨s, hs, -⟩ := hm
    exact absurd hs not_mem_nil
  | cons state rest limit ih =>
    have hstate := hok state mem_cons_self
    obtain ⟨expansion, he⟩ := hstate.expandState_ok keyRange limit
    rw [visits_cons he] at hskips ⊢
    have hn : (∃ range ∈ expansion.ranges, HoldsKey range key) ∨
        ∃ s ∈ rest ++ expansion.states, OnPath key s ∧ s.trie.Matches key := by
      obtain ⟨s, hs, hp, hs'⟩ := hm
      rcases mem_cons.mp hs with rfl | hs
      · rcases step_covers (hstates s mem_cons_self) hstate.wellFormed he hk hp hs'
          (hskips (s, limit) mem_cons_self hp) with h | ⟨next, hn, h⟩
        · exact .inl h
        · exact .inr ⟨next, mem_append_right rest hn, h⟩
      · exact .inr ⟨s, mem_append_left _ hs, hp, hs'⟩
    rcases hn with ⟨range, hrange, h⟩ | hm
    · refine ⟨(state, limit), mem_cons_self, range, ?_, h⟩
      rwa [visitRanges, he]
    · obtain ⟨visit, hv, hc⟩ := ih expansion he (trieOk_queue hok he) (stateOk_queue hstates he)
        ((forall_mem_cons.mp hskips).2) hm
      exact ⟨visit, mem_cons_of_mem _ hv, hc⟩

end Cover

/-- On a well formed trie the function returns, and its ranges hold the keys of the key range that
the trie matches iff every visit that skips the interval of such a key on its path collapses the
state, and keeps something on both sides of the key's value. -/
theorem trie_ranges_cover_iff (keyRange : MutableRowRange α) (trie : KeyTrie α) (limit : ℕ)
    (hwf : trie.WellFormed) :
    ∃ ranges, getRangesFromTrieWithinRange keyRange trie limit = .ok ranges ∧
      ((∀ key, HoldsKey keyRange key → trie.Matches key → ∃ range ∈ ranges, HoldsKey range key) ↔
        ∀ visit ∈ visits keyRange [rootState trie] limit, ∀ key, HoldsKey keyRange key →
          OnPath key visit.1 →
          ∀ v, key[visit.1.keyPrefix.length]? = some v → Skips keyRange visit.1 v →
            Collapses keyRange visit ∧ InHull (visit.1.kept keyRange) v) := by
  have hroot : ∀ s ∈ [rootState trie], TrieOk s := fun _ hs => mem_singleton.mp hs ▸ trieOk_root hwf
  have hstates : ∀ s ∈ [rootState trie], StateOk keyRange s :=
    fun _ hs => mem_singleton.mp hs ▸ stateOk_root trie
  have hreturns : ∃ result, expandStates keyRange [rootState trie] limit [] = .ok result :=
    expandStates_ok _ _ _ hroot
  obtain ⟨result, hresult⟩ := hreturns
  have h : getRangesFromTrieWithinRange keyRange trie limit =
      .ok (mergeOverlappingRanges (result.insertionSort fun l r => toLex l ≤ toLex r)) :=
        bind_eq_ok.mpr ⟨_, hresult, rfl⟩
  refine ⟨_, h, ?_⟩
  obtain ⟨-, -, hcovers⟩ := getRangesFromTrieWithinRange_spec h
  constructor
  · intro hall visit hvisit key hkey hpath v hv hskips
    have hpaths : ∀ visit ∈ visits keyRange [rootState trie] limit, ∀ key, OnPath key visit.1 →
        visit.1.trie.Matches key → trie.Matches key :=
      visits_induction (fun _ _ _ hstate hexpand => matches_step hexpand hstate) _ _
        (fun _ hs => mem_singleton.mp hs ▸ fun _ _ hmatches => hmatches)
    have hok : TrieOk visit.1 :=
      visits_induction (fun _ _ _ hstate hexpand => hstate.step hexpand) _ _ hroot visit hvisit
    have hmatches : visit.1.trie.Matches key := by
      obtain ⟨nexts, bounds, htrie, hpair, -⟩ := hskips
      have hwf := hok.wellFormed
      rw [htrie] at hwf ⊢
      obtain _ | ⟨hordered, -, -, -, -⟩ := hwf
      exact .bounds hv ((hordered.inside_iff v).mpr hpair)
    obtain ⟨visit', hvisit', hrange⟩ :=
      (hcovers (keyRow key)).mp (hall key hkey (hpaths visit hvisit key hpath hmatches))
    obtain ⟨range, hrange, hheld⟩ :=
      covered_by_visit _ _ hroot hstates (pairwise_singleton _ _) hvisit hpath
      (fun _ hexpand => hok.not_onPath_of_skips hexpand hv hskips) hvisit' hrange
    obtain ⟨expansion, hexpand, hmem⟩ := mem_visitRanges hrange
    exact collapses_of_skips hexpand (stateOk_of_mem_visits hvisit) hv hskips hmem hheld
  · intro hskips key hkey hmatches
    exact (hcovers (keyRow key)).mpr (covered_of_not_skipped _ _ hroot hstates hkey
      (fun visit hvisit => hskips visit hvisit key hkey)
      ⟨rootState trie, mem_singleton_self _, nil_prefix, hmatches⟩)

/-- A trie whose next value is a universal trie, with an interval that the lower end of the range
cuts. -/
theorem trie_ranges_cover_two :
    let keyRange : MutableRowRange ℕ := ([.data 5], [.data 8])
    let trie : KeyTrie ℕ := .node 0 [(.data 7, .universal)] [⟨.data 0, true⟩, ⟨.data 6, true⟩]
    let ranges : List (MutableRowRange ℕ) := [([.data 5], [.data 6, .max]), ([.data 7], [.data 7, .max])]
    trie.WellFormed ∧ getRangesFromTrieWithinRange keyRange trie 2 = .ok ranges ∧
      ∀ key, HoldsKey keyRange key → trie.Matches key → ∃ range ∈ ranges, HoldsKey range key := by
  intro keyRange trie ranges
  have hranges : getRangesFromTrieWithinRange keyRange trie 2 = .ok ranges := by decide +kernel
  have hwf : trie.WellFormed := by
    refine .node ⟨by decide, by decide⟩ (by decide) ?_ ?_ ?_
    · intro v child hmem
      obtain ⟨rfl, -⟩ : v = 7 ∧ child = .universal := by simpa using hmem
      unfold Inside
      decide
    · intro n hn
      obtain rfl := mem_singleton.mp hn
      exact .universal
    · intro n hn
      obtain rfl := mem_singleton.mp hn
      intro offset next bounds h
      cases h
  obtain ⟨ranges', hranges', hiff⟩ := trie_ranges_cover_iff keyRange trie 2 hwf
  obtain rfl := Except.ok.inj (hranges.symm.trans hranges')
  refine ⟨hwf, hranges, hiff.mpr fun visit hvisit key _ _ v _ hskips => ?_⟩
  obtain ⟨next, bounds, htrie, ⟨pair, hpair, hin⟩, hnone⟩ := hskips
  have hvisits : visits keyRange [rootState trie] 2 =
      [(rootState trie, 2), (⟨.universal, [.data 7], false, false⟩, 0)] := by
    have hroot : expandState keyRange 2 (rootState trie) =
        .ok ⟨[([.data 5], [.data 6, .max])], [⟨.universal, [.data 7], false, false⟩], 0⟩ := rfl
    have hnext : expandState keyRange 0 ⟨.universal, [.data 7], false, false⟩ =
        .ok ⟨[([.data 7], [.data 7, .max])], [], 0⟩ := rfl
    rw [visits_cons hroot, nil_append, visits_cons hnext, append_nil, visits]
  rw [hvisits] at hvisit
  obtain rfl | rfl : visit = (rootState trie, 2) ∨
      visit = (⟨.universal, [.data 7], false, false⟩, 0) := by
    simpa using hvisit
  · obtain ⟨-, rfl, rfl⟩ := KeyTrie.node.inj htrie
    obtain rfl := mem_singleton.mp hpair
    cases hnone _ hpair hin
  · cases htrie

/-- Below the next value 2 every second value is inside the key range from (1, 10) to (5), but the
interval `[0, 5]` lies below 10 and is skipped. -/
theorem skipped_interval_loses_key :
    let keyRange : MutableRowRange ℕ := ([.data 1, .data 10], [.data 5])
    let trie : KeyTrie ℕ := .node 0 [(.data 2, .node 1 [] [⟨.data 0, true⟩, ⟨.data 5, true⟩])] []
    getRangesFromTrieWithinRange keyRange trie 100 = .ok [] ∧ HoldsKey keyRange [2, 3] ∧
        trie.Matches [2, 3] := by
  refine ⟨by decide +kernel, ⟨by decide, by decide⟩, ?_⟩
  refine .next (v := 2) rfl (mem_singleton_self _) (.bounds (v := 3) rfl ?_)
  unfold Inside
  decide

end Ytsaurus.Query
