/-
# The ranges of a trie lie in the key range

The ranges of `getRangesFromTrieWithinRange` against the keys of the key range. A state's prefix
either is still an initial part of an end of the key range, or the rows that start with it lie on
the inner side of that end (`EdgeOk`); every comparison of a component is a comparison of the rest
of a row with the rest of an end.

Ranges that are not collapsed stay inside the key range (`inside_of_not_collapses`), a collapse may
not.
-/
import Ytsaurus.Lib.LexOrder
import Ytsaurus.Query.KeyTrie

namespace Ytsaurus.Query

open TableClient Lib List

variable {α : Type} [LinearOrder α]

def keyRow (key : List α) : Row α := key.map Value.data

def HoldsKey (range : MutableRowRange α) (key : List α) : Prop :=
  range.1 ≤ keyRow key ∧ keyRow key < range.2

/-! ### Tails of rows -/

def lowerTail (bound : Bound α) : Row α :=
  if bound.included then [bound.value] else [bound.value, .max]

def upperTail (bound : Bound α) : Row α :=
  if bound.included then [bound.value, .max] else [bound.value]

theorem keyRow_lt_max (key : List α) : keyRow key < [Value.max] := by
  cases key with
  | nil => exact nil_lt_cons _ _
  | cons a key => exact cons_lt_cons_iff.mpr (.inl (Value.data_lt_max a))

variable {bound : Bound α} {v : α} {rest : List α}

theorem lowerTail_le_iff :
    lowerTail bound ≤ keyRow (v :: rest) ↔ eventKey (bound, true) < toLex (.data v, 0) := by
  obtain ⟨value, included⟩ := bound
  have hr : ¬[Value.max] ≤ rest.map Value.data := not_le.mpr (keyRow_lt_max rest)
  rw [← passed_iff, passed_eq, lowerTail, keyRow, map_cons]
  cases included
  · simp [cons_le_iff, hr]
  · simp [cons_le_iff, le_iff_lt_or_eq (b := Value.data v), nil_le_list]

theorem lt_upperTail_iff :
    keyRow (v :: rest) < upperTail bound ↔ toLex (.data v, 0) ≤ eventKey (bound, false) := by
  obtain ⟨value, included⟩ := bound
  have hr : rest.map Value.data < [Value.max] := keyRow_lt_max rest
  rw [← not_lt, ← passed_iff, passed_eq, upperTail, keyRow, map_cons]
  cases included
  · simp [cons_lt_cons_iff]
  · simp [cons_lt_cons_iff, le_iff_lt_or_eq, hr]

/-! ### Edges of the key range -/

/-- How the rows that start with a prefix lie to the ends of the key range, at the component after
the prefix: the prefix goes on as the end does, or its rows lie on the inner side of the end. -/
structure EdgeOk (keyRange : MutableRowRange α) (p : List (Value α))
    (refineLower refineUpper : Bool) : Prop where
  onLower : refineLower = true → p <+: keyRange.1 ∧ p.length < keyRange.1.length
  offLower : refineLower = false → ∀ x, p <+: x → keyRange.1 ≤ x
  onUpper : refineUpper = true → p <+: keyRange.2 ∧ p.length < keyRange.2.length
  offUpper : refineUpper = false → ∀ x, p <+: x → x < keyRange.2

/-- The same for a state of the queue, whose prefix may be the whole end. -/
structure StateOk (keyRange : MutableRowRange α) (state : TrieState α) : Prop where
  onLower : state.refineLower = true → state.keyPrefix <+: keyRange.1
  offLower : state.refineLower = false → ∀ x, state.keyPrefix <+: x → keyRange.1 ≤ x
  onUpper : state.refineUpper = true → state.keyPrefix <+: keyRange.2
  offUpper : state.refineUpper = false → ∀ x, state.keyPrefix <+: x → x < keyRange.2

variable {key : List α}

section Edges

variable {keyRange : MutableRowRange α} {p : List (Value α)} {refineLower refineUpper : Bool}

theorem StateOk.edge {state : TrieState α} (h : StateOk keyRange state)
    (hu : state.atUpperEnd keyRange = false) :
    EdgeOk keyRange state.keyPrefix (state.refinesLower keyRange) state.refineUpper where
  onLower hlower := by
    simp only [TrieState.refinesLower, Bool.and_eq_true, decide_eq_true_eq] at hlower
    exact ⟨h.onLower hlower.1, hlower.2⟩
  offLower hlower x hx := by
    by_cases hr : state.refineLower = true
    · -- the prefix is the lower end itself
      have hlen : ¬state.keyPrefix.length < keyRange.1.length := by
        intro hlt
        simp [TrieState.refinesLower, hr, hlt] at hlower
      have heq := (h.onLower hr).eq_of_length_le (not_lt.mp hlen)
      exact heq ▸ le_of_startsWith hx
    · exact h.offLower (by simpa using hr) x hx
  onUpper hr := by
    refine ⟨h.onUpper hr, ?_⟩
    by_contra hle
    simp [TrieState.atUpperEnd, hr, not_lt.mp hle] at hu
  offUpper := h.offUpper

section

omit [LinearOrder α]

theorem startsWith_split {r : Row α} (h : p <+: r ∧ p.length < r.length) :
    ∃ u tail, r = p ++ u :: tail ∧ r[p.length]? = some u ∧ r.drop p.length = u :: tail := by
  obtain ⟨⟨tail, rfl⟩, hlt⟩ := h
  cases tail with
  | nil => simp at hlt
  | cons u tail => exact ⟨u, tail, rfl, by simp, by simp⟩

theorem keyRow_split (h : p <+: keyRow key) : keyRow key = p ++ keyRow (key.drop p.length) := by
  obtain ⟨tail, ht⟩ := h
  have : tail = keyRow (key.drop p.length) := by
    rw [keyRow, map_drop, ← keyRow, ← ht, drop_left]
  rw [← ht, this]

theorem drop_eq_cons_iff {key rest : List α} {n : ℕ} (h : key.drop n = v :: rest) :
    key[n]? = some v := by
  rw [← head?_drop, h, head?_cons]

theorem exists_drop_eq_cons {n : ℕ} (h : key[n]? = some v) : ∃ rest, key.drop n = v :: rest := by
  obtain ⟨hn, rfl⟩ := List.getElem?_eq_some_iff.mp h
  exact ⟨_, drop_eq_getElem_cons hn⟩

end

def InPair (pair : Bound α × Bound α) (v : α) : Prop :=
  eventKey (pair.1, true) < toLex (.data v, 0) ∧ toLex (.data v, 0) ≤ eventKey (pair.2, false)

omit [LinearOrder α] in
theorem boundRank_true (included : Bool) : boundRank true included = -1 ∨
    boundRank true included = 2 := by
  cases included <;> decide

omit [LinearOrder α] in
theorem boundRank_false (included : Bool) : boundRank false included = 1 ∨
    boundRank false included = -2 := by
  cases included <;> decide

theorem lt_of_eventKey_between {u : Value α}
    (h : eventKey ((⟨u, true⟩ : Bound α), true) < eventKey (bound, true))
    (hv : eventKey (bound, true) < toLex (.data v, 0)) : u < .data v := by
  unfold eventKey at h hv
  rw [Prod.Lex.toLex_lt_toLex] at h hv
  have hi : boundRank true true = -1 := by decide
  simp only [hi] at h hv
  rcases h with h | ⟨h, hr⟩ <;> rcases hv with hv | ⟨hv, hr'⟩
  · exact h.trans hv
  · exact hv ▸ h
  · exact h ▸ hv
  · omega

theorem append_lowerTail_le_iff (p : List (Value α)) (bound : Bound α) (rest : List α) :
    p ++ lowerTail bound ≤ p ++ keyRow rest ↔
      ∃ v rest', rest = v :: rest' ∧ eventKey (bound, true) < toLex (.data v, 0) := by
  rw [append_le_append_left]
  cases rest with
  | nil =>
    refine iff_of_false ?_ nofun
    unfold lowerTail
    split_ifs <;> exact not_le.mpr (nil_lt_cons _ _)
  | cons v rest =>
    rw [lowerTail_le_iff]
    simp

/-- A row is above the lower end of a range when it has passed the bound, and the key range's end if
that takes the bound's place. -/
theorem lowerEnd_le_iff {refined : Bool}
    (hrefined : refined = true → (p <+: keyRange.1 ∧ p.length < keyRange.1.length) ∧
      ∀ u ∈ keyRange.1[p.length]?, eventKey (bound, true) ≤ eventKey ((⟨u, true⟩ : Bound α), true))
    (rest : List α) :
    lowerEnd keyRange p refined bound ≤ p ++ keyRow rest ↔
      (refined = true → keyRange.1 ≤ p ++ keyRow rest) ∧
        ∃ v rest', rest = v :: rest' ∧ eventKey (bound, true) < toLex (.data v, 0) := by
  cases refined with
  | false =>
    rw [← append_lowerTail_le_iff p bound rest]
    simp [lowerEnd, lowerTail]
  | true =>
    obtain ⟨hp, hle⟩ := hrefined rfl
    obtain ⟨u, tail, heq, hu, hd⟩ := startsWith_split hp
    rw [lowerEnd, if_pos rfl, hd, ← heq]
    refine ⟨fun h => ⟨fun _ => h, ?_⟩, fun h => h.1 rfl⟩
    rw [heq, append_le_append_left] at h
    cases rest with
    | nil => exact absurd (nil_lt_cons _ _) (not_lt.mpr h)
    | cons v rest =>
      refine ⟨v, rest, rfl, (hle u hu).trans_lt ?_⟩
      unfold eventKey
      rw [Prod.Lex.toLex_lt_toLex]
      rcases (head_le_of_cons_le h).lt_or_eq with hlt | heq
      · exact .inl hlt
      · exact .inr ⟨heq, show boundRank true true < 0 by decide⟩

/-- Whether the lower end of a kept interval is cut at the key range's end or not, it keeps the rows
of the key range that have passed the bound. -/
theorem exact_lowerEnd_le_iff (hedge : EdgeOk keyRange p refineLower refineUpper) (rest : List α) :
    lowerEnd keyRange p ((keyRange.1[p.length]?).any fun value =>
        refineLower && decide (compareBound bound ⟨value, true⟩ true true ≤ 0)) bound ≤
          p ++ keyRow rest ↔ keyRange.1 ≤ p ++ keyRow rest ∧
        ∃ v rest', rest = v :: rest' ∧ eventKey (bound, true) < toLex (.data v, 0) := by
  have hle (u : Value α) : compareBound bound ⟨u, true⟩ true true ≤ 0 ↔
      eventKey (bound, true) ≤ eventKey (⟨u, true⟩, true) :=
        compareBound_nonpos_iff (bound, true) (⟨u, true⟩, true)
  rw [lowerEnd_le_iff]
  · refine and_congr_left fun ⟨v, rest', hrest, hv⟩ => ⟨fun h => ?_, fun h _ => h⟩
    subst hrest
    cases hr : refineLower with
    | false => exact hedge.offLower hr _ (prefix_append p _)
    | true =>
      obtain ⟨u, tail, heq, hu, -⟩ := startsWith_split (hedge.onLower hr)
      simp only [hu, hr, Option.any_some, Bool.true_and, decide_eq_true_eq] at h
      by_cases hc : compareBound bound ⟨u, true⟩ true true ≤ 0
      · exact h hc
      · have huv := lt_of_eventKey_between (not_le.mp fun h => hc ((hle u).mpr h)) hv
        rw [heq, append_le_append_left]
        exact (cons_lt_cons_iff.mpr (.inl huv)).le
  · intro h
    obtain ⟨u, hu, hc⟩ := (Option.any_eq_true _ _).mp h
    simp only [Bool.and_eq_true, decide_eq_true_eq] at hc
    exact ⟨hedge.onLower hc.1, fun u' hu' => Option.mem_unique hu hu' ▸ (hle u).mp hc.2⟩

theorem le_keyRangeUpperBound {q : Value α} {tail : Row α} (hu : keyRange.2 = p ++ q :: tail)
    (h : keyRow (v :: rest) < q :: tail) :
    toLex (.data v, 0) ≤ eventKey (keyRangeUpperBound keyRange p.length q, false) := by
  unfold eventKey keyRangeUpperBound
  rw [Prod.Lex.toLex_le_toLex]
  rcases cons_lt_cons_iff.mp h with hlt | ⟨heq, hr⟩
  · exact .inl hlt
  · refine .inr ⟨heq, ?_⟩
    have hlen : p.length + 1 < keyRange.2.length := by
      cases tail with
      | nil => exact absurd hr (not_lt_nil _)
      | cons b tail =>
        rw [hu, length_append, length_cons, length_cons]
        omega
    rw [decide_eq_true hlen]
    exact show (0 : ℤ) ≤ boundRank false true by decide

theorem lt_of_eventKey_lt_upper {q : Value α} {included : Bool}
    (h : eventKey (bound, false) < eventKey ((⟨q, included⟩ : Bound α), false))
    (hv : toLex (.data v, 0) ≤ eventKey (bound, false)) : .data v < q := by
  unfold eventKey at h hv
  rw [Prod.Lex.toLex_lt_toLex] at h
  rw [Prod.Lex.toLex_le_toLex] at hv
  have hrank := boundRank_false bound.included
  have hrank' := boundRank_false included
  dsimp only at h hv
  rcases h with h | ⟨h, hr⟩ <;> rcases hv with hv | ⟨hv, hr'⟩
  · exact hv.trans h
  · exact hv ▸ h
  · exact h ▸ hv
  · omega

theorem lt_upperEnd_iff {refined : Bool}
    (hrefined : refined = true → (p <+: keyRange.2 ∧ p.length < keyRange.2.length) ∧
      ∀ q ∈ keyRange.2[p.length]?, eventKey (keyRangeUpperBound keyRange p.length q, false) ≤
        eventKey (bound, false))
    (v : α) (rest : List α) : p ++ keyRow (v :: rest) < upperEnd keyRange p refined bound ↔
      (refined = true → p ++ keyRow (v :: rest) < keyRange.2) ∧
        toLex (.data v, 0) ≤ eventKey (bound, false) := by
  cases refined with
  | false =>
    simp only [upperEnd, Bool.false_eq_true, if_false, false_implies, true_and, append_lt_append_left]
    exact lt_upperTail_iff
  | true =>
    obtain ⟨hp, hle⟩ := hrefined rfl
    obtain ⟨q, tail, heq, hq, hd⟩ := startsWith_split hp
    rw [upperEnd, if_pos rfl, hd, ← heq]
    refine ⟨fun h => ⟨fun _ => h, ?_⟩, fun h => h.1 rfl⟩
    rw [heq, append_lt_append_left] at h
    exact (le_keyRangeUpperBound heq h).trans (hle q hq)

section

variable (hedge : EdgeOk keyRange p refineLower refineUpper)

include hedge

/-- Whether the upper end of a kept interval is cut at the key range's end or not, it keeps the rows
of the key range that the bound does not exclude. -/
theorem exact_lt_upperEnd_iff (v : α) (rest : List α) :
    p ++ keyRow (v :: rest) < upperEnd keyRange p ((keyRange.2[p.length]?).any fun value =>
        refineUpper && decide (0 ≤ compareBound bound
          (keyRangeUpperBound keyRange p.length value) false false)) bound ↔
      p ++ keyRow (v :: rest) < keyRange.2 ∧ toLex (.data v, 0) ≤ eventKey (bound, false) := by
  have hlt (q : Value α) : compareBound bound (keyRangeUpperBound keyRange p.length q) false false <
      0 ↔ eventKey (bound, false) < eventKey (keyRangeUpperBound keyRange p.length q, false) :=
    compareBound_neg_iff (bound, false) (keyRangeUpperBound keyRange p.length q, false)
  rw [lt_upperEnd_iff]
  · refine and_congr_left fun hv => ⟨fun h => ?_, fun h _ => h⟩
    cases hr : refineUpper with
    | false => exact hedge.offUpper hr _ (prefix_append p _)
    | true =>
      obtain ⟨q, tail, heq, hq, -⟩ := startsWith_split (hedge.onUpper hr)
      simp only [hq, hr, Option.any_some, Bool.true_and, decide_eq_true_eq] at h
      by_cases hc : 0 ≤ compareBound bound (keyRangeUpperBound keyRange p.length q) false false
      · exact h hc
      · rw [heq, append_lt_append_left]
        exact cons_lt_cons_iff.mpr (.inl (lt_of_eventKey_lt_upper ((hlt q).mp (not_le.mp hc)) hv))
  · intro h
    obtain ⟨q, hq, hc⟩ := (Option.any_eq_true _ _).mp h
    simp only [Bool.and_eq_true, decide_eq_true_eq] at hc
    refine ⟨hedge.onUpper hc.1, fun q' hq' => ?_⟩
    obtain rfl := Option.mem_unique hq hq'
    exact not_lt.mp fun h' => not_lt.mpr hc.2 ((hlt q).mpr h')

/-- The range of an interval that is kept holds the keys of the key range with a value of the
interval. -/
theorem holdsKey_exactRange {pair : Bound α × Bound α} {bounds : ResultBounds α}
    (hb : refineBounds keyRange p.length refineLower refineUpper pair = some bounds)
    (key : List α) : HoldsKey (exactRange keyRange p bounds) key ↔
      HoldsKey keyRange key ∧ p <+: keyRow key ∧ ∃ v, key[p.length]? = some v ∧ InPair pair v := by
  unfold refineBounds at hb
  split_ifs at hb
  obtain rfl := Option.some.inj hb
  constructor
  · intro h
    have hp : p <+: keyRow key := startsWith_of_le_of_lt p h.1 h.2
    obtain ⟨hlower, hupper⟩ := h
    unfold exactRange at hlower hupper
    rw [keyRow_split hp] at hlower hupper
    obtain ⟨hlow, v, rest, hd, hv⟩ := (exact_lowerEnd_le_iff hedge _).mp hlower
    rw [hd] at hupper hlow
    obtain ⟨hup, hv'⟩ := (exact_lt_upperEnd_iff hedge v rest).mp hupper
    refine ⟨⟨?_, ?_⟩, hp, v, drop_eq_cons_iff hd, hv, hv'⟩
    · rwa [keyRow_split hp, hd]
    · rwa [keyRow_split hp, hd]
  · rintro ⟨⟨hlow, hup⟩, hp, v, hk, hv, hv'⟩
    obtain ⟨rest, hd⟩ := exists_drop_eq_cons hk
    unfold exactRange
    refine ⟨?_, ?_⟩
    · dsimp only
      rw [keyRow_split hp] at hlow ⊢
      exact (exact_lowerEnd_le_iff hedge _).mpr ⟨hlow, v, rest, hd, hv⟩
    · dsimp only
      rw [keyRow_split hp, hd] at hup ⊢
      exact (exact_lt_upperEnd_iff hedge v rest).mpr ⟨hup, hv'⟩

/-- The range of a collapse holds the keys with a value between `min` and `max`, and where an end of
the key range takes the place of `min` or `max`, those on the inner side of it. -/
theorem holdsKey_collapsedRange_iff {minMax : Bound α × Bound α} :
    HoldsKey (collapsedRange keyRange p refineLower refineUpper minMax) key ↔
      ∃ v rest, keyRow key = p ++ keyRow (v :: rest) ∧ InPair minMax v ∧
        (refineLower && minMax.1.included && decide (keyRange.1[p.length]? = some minMax.1.value) →
          keyRange.1 ≤ keyRow key) ∧
        (refineUpper && minMax.2.included && decide (keyRange.2[p.length]? = some minMax.2.value) →
          keyRow key < keyRange.2) := by
  have hlow (rest : List α) : lowerEnd keyRange p (refineLower && minMax.1.included &&
      decide (keyRange.1[p.length]? = some minMax.1.value)) minMax.1 ≤ p ++ keyRow rest ↔ _ :=
    lowerEnd_le_iff (fun h => by
      simp only [Bool.and_eq_true, decide_eq_true_eq] at h
      refine ⟨hedge.onLower h.1.1, fun u hu => ?_⟩
      obtain rfl := Option.mem_unique hu h.2
      rw [← h.1.2]) rest
  have hup (v : α) (rest : List α) :
      p ++ keyRow (v :: rest) < upperEnd keyRange p (refineUpper && minMax.2.included &&
      decide (keyRange.2[p.length]? = some minMax.2.value)) minMax.2 ↔ _ :=
    lt_upperEnd_iff (fun h => by
      simp only [Bool.and_eq_true, decide_eq_true_eq] at h
      refine ⟨hedge.onUpper h.1.1, fun q hq => ?_⟩
      obtain rfl := Option.mem_unique hq h.2
      have hrank := boundRank_false (keyRangeUpperBound keyRange p.length minMax.2.value).included
      refine Prod.Lex.toLex_le_toLex.mpr (.inr ⟨rfl, ?_⟩)
      rw [h.1.2]
      exact hrank.elim (fun h => h.le) fun h =>
        h.le.trans (show -2 ≤ boundRank false true by decide)) v rest
  constructor
  · intro h
    have hp : p <+: keyRow key := startsWith_of_le_of_lt p h.1 h.2
    obtain ⟨hl, hu⟩ := h
    unfold collapsedRange at hl hu
    rw [keyRow_split hp] at hl hu ⊢
    obtain ⟨hl, v, rest, hd, hv⟩ := (hlow _).mp hl
    rw [hd] at hl hu ⊢
    obtain ⟨hu, hv'⟩ := (hup v rest).mp hu
    exact ⟨v, rest, rfl, ⟨hv, hv'⟩, hl, hu⟩
  · rintro ⟨v, rest, heq, hin, hl, hu⟩
    unfold collapsedRange HoldsKey
    rw [heq] at hl hu ⊢
    exact ⟨(hlow _).mpr ⟨hl, v, rest, rfl, hin.1⟩, (hup v rest).mpr ⟨hu, hin.2⟩⟩

end

theorem EdgeOk.next (hedge : EdgeOk keyRange p refineLower refineUpper) {pair : Value α × KeyTrie α}
    {next : NextValue α} (h : refineNext keyRange p.length refineLower refineUpper pair =
      some next) : next.value = pair.1 ∧ next.trie = pair.2 ∧ StateOk keyRange (next.state p) := by
  unfold refineNext at h
  split_ifs at h with hl hupper
  obtain rfl := Option.some.inj h
  refine ⟨rfl, rfl, ?_, ?_, ?_, ?_⟩
  · intro hf
    simp only [NextValue.state, Bool.and_eq_true, decide_eq_true_eq] at hf
    obtain ⟨u, tail, heq, hu, -⟩ := startsWith_split (hedge.onLower hf.1)
    obtain rfl := Option.mem_unique hu hf.2
    exact ⟨tail, by rw [heq]; simp [NextValue.state]⟩
  · intro hf x hx
    simp only [NextValue.state] at hf hx
    cases hr : refineLower with
    | false => exact hedge.offLower hr x ((prefix_append p _).trans hx)
    | true =>
      obtain ⟨u, tail, heq, hu, -⟩ := startsWith_split (hedge.onLower hr)
      simp only [hr, hu, Bool.true_and, Option.any_some, decide_eq_true_eq, not_lt,
        decide_eq_false_iff_not, Option.some.injEq] at hf hl
      obtain ⟨rest, rfl⟩ := hx
      rw [heq, append_assoc, append_le_append_left]
      exact (cons_lt_cons_iff.mpr (.inl (lt_of_le_of_ne hl hf))).le
  · intro hf
    simp only [NextValue.state, Bool.and_eq_true, decide_eq_true_eq] at hf
    obtain ⟨q, tail, heq, hq, -⟩ := startsWith_split (hedge.onUpper hf.1)
    obtain rfl := Option.mem_unique hq hf.2
    exact ⟨tail, by rw [heq]; simp [NextValue.state]⟩
  · intro hf x hx
    simp only [NextValue.state] at hf hx
    cases hr : refineUpper with
    | false => exact hedge.offUpper hr x ((prefix_append p _).trans hx)
    | true =>
      obtain ⟨q, tail, heq, hq, -⟩ := startsWith_split (hedge.onUpper hr)
      simp only [hr, hq, Bool.true_and, Option.any_some, decide_eq_true_eq, not_lt,
        decide_eq_false_iff_not, Option.some.injEq] at hf hupper
      obtain ⟨rest, rfl⟩ := hx
      rw [heq, append_assoc, append_lt_append_left]
      exact cons_lt_cons_iff.mpr (.inl (lt_of_le_of_ne hupper (Ne.symm hf)))

theorem EdgeOk.exists_next (hedge : EdgeOk keyRange p refineLower refineUpper)
    (hk : HoldsKey keyRange key) (hp : p <+: keyRow key) (hv : key[p.length]? = some v)
    (trie : KeyTrie α) :
    ∃ next, refineNext keyRange p.length refineLower refineUpper (.data v, trie) = some next := by
  obtain ⟨rest, hd⟩ := exists_drop_eq_cons hv
  have hr : keyRow key = p ++ keyRow (v :: rest) := hd ▸ keyRow_split hp
  unfold refineNext
  rw [if_neg, if_neg]
  · exact ⟨_, rfl⟩
  · intro h
    simp only [Bool.and_eq_true] at h
    obtain ⟨q, tail, heq, hq, -⟩ := startsWith_split (hedge.onUpper h.1)
    simp only [hq, Option.any_some, decide_eq_true_eq] at h
    have hlt := hk.2
    rw [hr, heq, append_lt_append_left] at hlt
    exact lt_asymm hlt (cons_lt_cons_iff.mpr (.inl h.2))
  · intro h
    simp only [Bool.and_eq_true] at h
    obtain ⟨u, tail, heq, hu, -⟩ := startsWith_split (hedge.onLower h.1)
    simp only [hu, Option.any_some, decide_eq_true_eq] at h
    have hle := hk.1
    rw [hr, heq, append_le_append_left] at hle
    exact not_lt.mpr hle (cons_lt_cons_iff.mpr (.inl h.2))

end Edges

/-! ### The hull of a collapse -/

/-- The value lies between the first and the last of the intervals. -/
def InHull (intervals : List (Bound α × Bound α)) (v : α) : Prop :=
  (∃ interval ∈ intervals, eventKey (interval.1, true) < toLex (.data v, 0)) ∧
    ∃ interval ∈ intervals, toLex (.data v, 0) ≤ eventKey (interval.2, false)

theorem InHull.of_mem {intervals : List (Bound α × Bound α)} {interval : Bound α × Bound α}
    (h : interval ∈ intervals) (hv : InPair interval v) : InHull intervals v :=
  ⟨⟨interval, h, hv.1⟩, interval, h, hv.2⟩

theorem eventKey_updateMinMax (minMax interval : Bound α × Bound α) :
    eventKey ((updateMinMax minMax interval).1, true) = min (eventKey (minMax.1, true))
      (eventKey (interval.1, true)) ∧ eventKey ((updateMinMax minMax interval).2, false) =
        max (eventKey (minMax.2, false)) (eventKey (interval.2, false)) := by
  have hl := compareBound_neg_iff (interval.1, true) (minMax.1, true)
  have hu := compareBound_nonpos_iff (interval.2, false) (minMax.2, false)
  unfold updateMinMax
  dsimp only at hl hu ⊢
  constructor
  · split_ifs with h
    · exact (min_eq_right (hl.mp h).le).symm
    · exact (min_eq_left (not_lt.mp fun h' => h (hl.mpr h'))).symm
  · split_ifs with h
    · exact (max_eq_right (not_le.mp fun h' => not_le.mpr h (hu.mpr h')).le).symm
    · exact (max_eq_left (hu.mp (not_lt.mp h))).symm

theorem foldl_updateMinMax_iff (key : Value α ×ₗ ℤ) : ∀ (intervals : List (Bound α × Bound α))
    (minMax : Bound α × Bound α),
    (eventKey ((intervals.foldl updateMinMax minMax).1, true) < key ↔
      eventKey (minMax.1, true) < key ∨ ∃ interval ∈ intervals, eventKey (interval.1, true) < key) ∧
    (key ≤ eventKey ((intervals.foldl updateMinMax minMax).2, false) ↔
      key ≤ eventKey (minMax.2, false) ∨ ∃ interval ∈ intervals, key ≤ eventKey (interval.2, false))
  | [], minMax => by simp
  | interval :: intervals, minMax => by
    obtain ⟨hmin, hmax⟩ := eventKey_updateMinMax minMax interval
    obtain ⟨ihmin, ihmax⟩ := foldl_updateMinMax_iff key intervals (updateMinMax minMax interval)
    rw [foldl_cons, ihmin, ihmax, hmin, hmax, min_lt_iff, le_max_iff]
    simp [or_assoc]

theorem inPair_minMaxOf_iff (intervals : List (Bound α × Bound α)) (v : α) :
    InPair (minMaxOf intervals) v ↔ InHull intervals v := by
  have hinit : ¬eventKey ((⟨.max, false⟩ : Bound α), true) < toLex (.data v, 0) := by
    simp [eventKey, Prod.Lex.toLex_lt_toLex, (Value.data_lt_max v).le.not_gt]
  have hinit' : ¬toLex (.data v, 0) ≤ eventKey ((⟨.min, true⟩ : Bound α), false) := by
    simp [eventKey, Prod.Lex.toLex_le_toLex]
  obtain ⟨hmin, -⟩ := foldl_updateMinMax_iff (toLex (.data v, 0)) intervals
    (⟨.max, false⟩, ⟨.min, true⟩)
  obtain ⟨-, hmax⟩ := foldl_updateMinMax_iff (toLex (.data v, 0)) intervals
    (⟨.max, false⟩, ⟨.min, true⟩)
  exact and_congr (hmin.trans (or_iff_right hinit)) (hmax.trans (or_iff_right hinit'))

theorem minMaxOf_outside {intervals : List (Bound α × Bound α)} {interval : Bound α × Bound α}
    (h : interval ∈ intervals) : (minMaxOf intervals).1.value ≤ interval.1.value ∧
      interval.2.value ≤ (minMaxOf intervals).2.value := by
  constructor
  · obtain ⟨hmin, -⟩ := foldl_updateMinMax_iff (eventKey ((minMaxOf intervals).1, true)) intervals
      (⟨.max, false⟩, ⟨.min, true⟩)
    have hle : eventKey ((minMaxOf intervals).1, true) ≤ eventKey (interval.1, true) :=
      not_lt.mp fun hlt => (hmin.mpr (.inr ⟨interval, h, hlt⟩)).false
    exact (Prod.Lex.toLex_le_toLex.mp hle).elim le_of_lt fun h => h.1.le
  · obtain ⟨-, hmax⟩ := foldl_updateMinMax_iff (eventKey (interval.2, false)) intervals
      (⟨.max, false⟩, ⟨.min, true⟩)
    exact (Prod.Lex.toLex_le_toLex.mp (hmax.mpr (.inr ⟨interval, h, le_rfl⟩))).elim le_of_lt
      fun h => h.1.le

/-- When nothing starts below a value of the hull, and the value is passed at its own start, `min`
is that value. -/
theorem minMaxOf_start {intervals : List (Bound α × Bound α)}
    (h : ∀ interval ∈ intervals, .data v ≤ interval.1.value) (hv : InPair (minMaxOf intervals) v) :
    (minMaxOf intervals).1.included = true ∧ (minMaxOf intervals).1.value = .data v := by
  have hge : toLex (.data v, -1) ≤ eventKey ((minMaxOf intervals).1, true) := by
    refine not_lt.mp fun hlt => ?_
    rcases (foldl_updateMinMax_iff _ intervals _).1.mp hlt with hlt | ⟨interval, hm, hlt⟩ <;>
      rcases Prod.Lex.toLex_lt_toLex.mp hlt with hlt | ⟨-, hlt⟩
    · exact (Value.data_lt_max v).not_gt hlt
    · exact absurd hlt (show ¬boundRank true false < -1 by decide)
    · exact (h interval hm).not_gt hlt
    · have := boundRank_true interval.1.included
      dsimp only at hlt
      omega
  have hlt := hv.1
  unfold eventKey at hge hlt
  rw [Prod.Lex.toLex_le_toLex] at hge
  rw [Prod.Lex.toLex_lt_toLex] at hlt
  cases hi : (minMaxOf intervals).1.included <;> simp only [hi, boundRank] at hge hlt <;> grind

theorem minMaxOf_end {intervals : List (Bound α × Bound α)}
    (h : ∀ interval ∈ intervals, interval.2.value ≤ .data v) (hv : InPair (minMaxOf intervals) v) :
    (minMaxOf intervals).2.included = true ∧ (minMaxOf intervals).2.value = .data v := by
  have hle : eventKey ((minMaxOf intervals).2, false) ≤ toLex (.data v, 1) := by
    refine not_lt.mp fun hlt => ?_
    rcases (foldl_updateMinMax_iff _ intervals _).2.mp le_rfl with hle | ⟨interval, hm, hle⟩
    · exact not_lt.mpr hle (hlt.trans' (Prod.Lex.toLex_lt_toLex.mpr (.inl (Value.min_lt_data v))))
    · rcases Prod.Lex.toLex_lt_toLex.mp (hlt.trans_le hle) with hlt | ⟨-, hlt⟩
      · exact (h interval hm).not_gt hlt
      · have := boundRank_false interval.2.included
        dsimp only at hlt
        omega
  have hge := hv.2
  unfold eventKey at hle hge
  rw [Prod.Lex.toLex_le_toLex] at hge hle
  cases hi : (minMaxOf intervals).2.included <;> simp only [hi, boundRank] at hge hle <;> grind

theorem inPair_point (v : α) : InPair (⟨.data v, true⟩, ⟨.data v, true⟩) v := by
  unfold InPair eventKey
  rw [Prod.Lex.toLex_lt_toLex, Prod.Lex.toLex_le_toLex]
  exact ⟨.inr ⟨rfl, show boundRank true true < 0 by decide⟩,
    .inr ⟨rfl, show 0 ≤ boundRank false true by decide⟩⟩

/-! ### One iteration -/

variable {range : MutableRowRange α}

section Iteration

variable {keyRange : MutableRowRange α} {state : TrieState α} {limit : ℕ} {expansion : Expansion α}

/-- Below its prefix a free state does not constrain the keys of the range. -/
theorem holdsKey_freeRange {p : List (Value α)} {refineLower refineUpper : Bool}
    (hedge : EdgeOk keyRange p refineLower refineUpper) (hp : p <+: keyRow key) :
    HoldsKey (freeRange keyRange p refineLower refineUpper) key ↔ HoldsKey keyRange key := by
  refine and_congr ?_ ?_
  · cases hr : refineLower with
    | false =>
      rw [freeRange, if_neg Bool.false_ne_true, append_nil]
      exact iff_of_true (le_of_startsWith hp) (hedge.offLower hr _ hp)
    | true =>
      obtain ⟨u, tail, heq, -, ht⟩ := startsWith_split (hedge.onLower hr)
      rw [freeRange, if_pos rfl, ht, ← heq]
  · cases hr : refineUpper with
    | false =>
      rw [freeRange, if_neg Bool.false_ne_true]
      refine iff_of_true ?_ (hedge.offUpper hr _ hp)
      rw [keyRow_split hp, append_lt_append_left]
      exact keyRow_lt_max _
    | true =>
      obtain ⟨q, tail, heq, -, ht⟩ := startsWith_split (hedge.onUpper hr)
      rw [freeRange, if_pos rfl, ht, ← heq]

/-- What an iteration keeps of a state: the intervals of its bounds that it does not skip, and a
point for each next value that it does not skip. -/
def TrieState.kept (keyRange : MutableRowRange α) (state : TrieState α) : List (Bound α × Bound α) :=
  match state.trie with
  | .universal => []
  | .node offset next bounds =>
    if offset = state.keyPrefix.length ∧ state.atUpperEnd keyRange = false then
      collapsedIntervals
        ((boundPairs bounds).filterMap
          (refineBounds keyRange offset (state.refinesLower keyRange) state.refineUpper))
        (next.filterMap (refineNext keyRange offset (state.refinesLower keyRange) state.refineUpper))
    else []

/-- The iteration turns what it keeps into one range. -/
def Collapses (keyRange : MutableRowRange α) (visit : TrieState α × ℕ) : Prop :=
  visit.2 < (visit.1.kept keyRange).length

theorem kept_node {next : List (Value α × KeyTrie α)} {bounds : List (Bound α)}
    (ht : state.trie = .node state.keyPrefix.length next bounds)
    (hend : state.atUpperEnd keyRange = false) :
    state.kept keyRange = collapsedIntervals ((boundPairs bounds).filterMap
        (refineBounds keyRange state.keyPrefix.length (state.refinesLower keyRange)
        state.refineUpper))
      (next.filterMap (refineNext keyRange state.keyPrefix.length (state.refinesLower keyRange)
        state.refineUpper)) := by
  rw [TrieState.kept, ht]
  exact if_pos ⟨rfl, hend⟩

omit [LinearOrder α] in
theorem length_collapsedIntervals (resultBounds : List (ResultBounds α))
    (nextValues : List (NextValue α)) : (collapsedIntervals resultBounds nextValues).length =
      resultBounds.length + nextValues.length := by
  rw [collapsedIntervals, length_append, length_map, length_map]

variable (h : expandState keyRange limit state = .ok expansion)

include h

/-- The states that an iteration adds lie to the ends of the key range as their flags say. -/
theorem StateOk.step (hok : StateOk keyRange state) :
    ∀ next ∈ expansion.states, StateOk keyRange next := by
  intro next hn
  obtain ⟨hend, ⟨hl, hupper, hs, -, -, rfl⟩ | ⟨nexts, bounds, -, -, pair, -, value, hp, rfl⟩⟩ :=
    mem_states_cases h hn
  · obtain ⟨u, tail, heq, hu, -⟩ := startsWith_split ((hok.edge hend).onLower hl)
    obtain ⟨q, tail', heq', hq, -⟩ := startsWith_split ((hok.edge hend).onUpper hupper)
    obtain rfl := Option.some.inj (hu.symm.trans (hs.trans hq))
    rw [hu]
    refine ⟨fun _ => ⟨tail, ?_⟩, nofun, fun _ => ⟨tail', ?_⟩, nofun⟩
    · simp [heq]
    · simp [heq']
  · exact ((hok.edge hend).next hp).2.2

theorem startsWith_of_mem_states :
    ∀ next ∈ expansion.states, state.keyPrefix <+: next.keyPrefix := by
  intro next hn
  obtain ⟨-, ⟨-, -, -, -, -, rfl⟩ | ⟨nexts, bounds, -, -, pair, -, value, -, rfl⟩⟩ :=
    mem_states_cases h hn
  · exact prefix_append _ _
  · exact prefix_append _ _

theorem startsWith_of_holdsKey (hrange : range ∈ expansion.ranges) (hk : HoldsKey range key) :
    state.keyPrefix <+: keyRow key := by
  obtain ⟨-, rfl⟩ | ⟨-, ⟨rfl, -⟩ | ⟨nexts, bounds, -, rfl⟩⟩ := expandState_cases h
  · exact absurd hrange not_mem_nil
  · obtain ⟨-, -, -, he⟩ | ⟨-, hranges⟩ :=
      expandFree_cases keyRange limit state (state.refinesLower keyRange)
    · rw [he] at hrange
      exact absurd hrange not_mem_nil
    · obtain ⟨rfl, -⟩ := (hranges range).mp hrange
      exact startsWith_of_le_of_lt _ hk.1 hk.2
  · unfold expandNode at hrange
    dsimp only at hrange
    split_ifs at hrange
    · obtain rfl := mem_singleton.mp hrange
      exact startsWith_of_le_of_lt _ hk.1 hk.2
    · obtain ⟨bounds, -, rfl⟩ := mem_map.mp hrange
      exact startsWith_of_le_of_lt _ hk.1 hk.2

/-- Ranges that are not collapsed stay inside the key range. -/
theorem inside_of_not_collapses (hok : StateOk keyRange state)
    (hc : ¬Collapses keyRange (state, limit))
    (hrange : range ∈ expansion.ranges) (hk : HoldsKey range key) : HoldsKey keyRange key := by
  have hp := startsWith_of_holdsKey h hrange hk
  obtain ⟨-, rfl⟩ | ⟨hend, ⟨rfl, -⟩ | ⟨nexts, bounds, ht, rfl⟩⟩ := expandState_cases h
  · exact absurd hrange not_mem_nil
  · have hedge := hok.edge hend
    obtain ⟨-, -, -, hexpand⟩ | ⟨-, hranges⟩ :=
      expandFree_cases keyRange limit state (state.refinesLower keyRange)
    · rw [hexpand] at hrange
      exact absurd hrange not_mem_nil
    · obtain ⟨rfl, -⟩ := (hranges range).mp hrange
      exact (holdsKey_freeRange hedge hp).mp hk
  · unfold expandNode at hrange
    dsimp only at hrange
    split_ifs at hrange with hl
    · refine absurd ?_ hc
      rwa [Collapses, kept_node ht hend, length_collapsedIntervals]
    · obtain ⟨result, hres, rfl⟩ := mem_map.mp hrange
      obtain ⟨pair, -, hpair⟩ := mem_filterMap.mp hres
      exact ((holdsKey_exactRange (hok.edge hend) hpair key).mp hk).1

/-- A collapse adds the range from the first to the last of what it keeps. -/
theorem expansion_of_collapses (hc : Collapses keyRange (state, limit)) :
    state.atUpperEnd keyRange = false ∧ expansion.ranges =
        [collapsedRange keyRange state.keyPrefix (state.refinesLower keyRange) state.refineUpper
        (minMaxOf (state.kept keyRange))] := by
  unfold Collapses at hc
  obtain ⟨hend, rfl⟩ | ⟨hend, ⟨rfl, hf⟩ | ⟨nexts, bounds, ht, rfl⟩⟩ := expandState_cases h
  · refine absurd hc ?_
    unfold TrieState.kept
    split <;> simp [hend]
  · refine absurd hc ?_
    unfold TrieState.kept
    split
    · simp
    · next offset next bounds ht => simp [(hf offset next bounds ht).ne']
  · refine ⟨hend, ?_⟩
    rw [kept_node ht hend, length_collapsedIntervals] at hc
    rw [expandNode, if_pos hc, kept_node ht hend]

end Iteration

/-! ### Whole runs -/

section Run

variable {keyRange : MutableRowRange α}

omit [LinearOrder α] in
theorem forall_queue {P : TrieState α → Prop} {state : TrieState α}
    {rest states : List (TrieState α)}
    (h : ∀ s ∈ state :: rest, P s) (hstep : P state → ∀ next ∈ states, P next) :
      ∀ s ∈ rest ++ states, P s :=
  forall_mem_append.mpr ⟨(forall_mem_cons.mp h).2, hstep (forall_mem_cons.mp h).1⟩

theorem visits_induction {P : TrieState α → Prop} (hstep : ∀ state limit expansion, P state →
      expandState keyRange limit state = .ok expansion → ∀ next ∈ expansion.states, P next)
    (states : List (TrieState α)) (limit : ℕ) (hstates : ∀ s ∈ states, P s) :
    ∀ visit ∈ visits keyRange states limit, P visit.1 := by
  induction states, limit using queue_induction keyRange with
  | nil limit =>
    intro visit hv
    rw [visits] at hv
    cases hv
  | cons state rest limit ih =>
    have hstate := hstates state mem_cons_self
    intro visit hv
    cases hexpand : expandState keyRange limit state with
    | error failure =>
      rw [visits] at hv
      split at hv
      · obtain rfl := mem_singleton.mp hv
        exact hstate
      · next heq => cases heq.symm.trans hexpand
    | ok expansion =>
      rw [visits_cons hexpand] at hv
      rcases mem_cons.mp hv with rfl | hv
      · exact hstate
      · exact ih expansion hexpand
          (forall_queue hstates fun h => hstep state limit expansion h hexpand) visit hv

def rootState (trie : KeyTrie α) : TrieState α := ⟨trie, [], true, true⟩

theorem stateOk_root (trie : KeyTrie α) : StateOk keyRange (rootState trie) :=
  ⟨fun _ => nil_prefix, nofun, fun _ => nil_prefix, nofun⟩

theorem stateOk_of_mem_visits {trie : KeyTrie α} {limit : ℕ} {visit : TrieState α × ℕ}
    (h : visit ∈ visits keyRange [rootState trie] limit) : StateOk keyRange visit.1 :=
  visits_induction (fun _ _ _ hok he => hok.step he) [rootState trie] limit
    (fun _ hs => mem_singleton.mp hs ▸ stateOk_root trie) visit h

theorem getRangesFromTrieWithinRange_spec {trie : KeyTrie α} {limit : ℕ}
    {ranges : List (MutableRowRange α)}
    (h : getRangesFromTrieWithinRange keyRange trie limit = .ok ranges) :
    Separate ranges ∧ (∀ visit ∈ visits keyRange [rootState trie] limit,
        ∃ expansion, expandState keyRange visit.2 visit.1 = .ok expansion) ∧
      ∀ x, CoversRow ranges x ↔ ∃ visit ∈ visits keyRange [rootState trie] limit,
          CoversRow (visitRanges keyRange visit) x := by
  obtain ⟨result, hresult, hranges⟩ := bind_eq_ok.mp h
  obtain rfl := Except.ok.inj hranges
  obtain ⟨hs, hc⟩ := mergeOverlappingRanges_spec result
  obtain ⟨heq, hok⟩ := expandStates_eq keyRange _ _ _ _ hresult
  refine ⟨hs, hok, fun x => (hc x).trans ?_⟩
  rw [heq, nil_append]
  simp only [CoversRow, mem_flatMap]
  constructor
  · rintro ⟨range, ⟨visit, hv, hrange⟩, hx⟩
    exact ⟨visit, hv, range, hrange, hx⟩
  · rintro ⟨visit, hv, range, hrange, hx⟩
    exact ⟨range, ⟨visit, hv, hrange⟩, hx⟩

theorem visitRanges_eq {visit : TrieState α × ℕ} {expansion : Expansion α}
    (h : expandState keyRange visit.2 visit.1 = .ok expansion) :
      visitRanges keyRange visit = expansion.ranges := by
  rw [visitRanges, h]

theorem mem_visitRanges {visit : TrieState α × ℕ} (h : range ∈ visitRanges keyRange visit) :
    ∃ expansion, expandState keyRange visit.2 visit.1 = .ok expansion ∧ range ∈ expansion.ranges := by
  cases he : expandState keyRange visit.2 visit.1 with
  | error failure =>
    rw [visitRanges, he] at h
    exact absurd h not_mem_nil
  | ok expansion => exact ⟨expansion, rfl, visitRanges_eq he ▸ h⟩

/-- What is kept stays above the lower end of the key range: none of it starts below the end's
component, or no value of its hull leads below the end. -/
def TrieState.LowerInside (keyRange : MutableRowRange α) (state : TrieState α) : Prop :=
  (∀ interval ∈ state.kept keyRange, ∀ u ∈ keyRange.1[state.keyPrefix.length]?,
    u ≤ interval.1.value) ∨ ∀ v, InHull (state.kept keyRange) v →
      ∀ rest, keyRange.1.drop state.keyPrefix.length ≤ keyRow (v :: rest)

/-- What is kept stays below the upper end of the key range. -/
def TrieState.UpperInside (keyRange : MutableRowRange α) (state : TrieState α) : Prop :=
  (∀ interval ∈ state.kept keyRange, ∀ q ∈ keyRange.2[state.keyPrefix.length]?,
    interval.2.value ≤ q) ∨ ∀ v, InHull (state.kept keyRange) v →
      ∀ rest, keyRow (v :: rest) < keyRange.2.drop state.keyPrefix.length

section Collapse

variable {state : TrieState α}
  (hedge : EdgeOk keyRange state.keyPrefix (state.refinesLower keyRange) state.refineUpper)

include hedge

theorem TrieState.LowerInside.le (hr : state.refinesLower keyRange = true)
    (hinside : state.LowerInside keyRange) (hk : HoldsKey
      (collapsedRange keyRange state.keyPrefix (state.refinesLower keyRange) state.refineUpper
      (minMaxOf (state.kept keyRange))) key) : keyRange.1 ≤ keyRow key := by
  obtain ⟨v, rest, hrow, hin, hstart, -⟩ := (holdsKey_collapsedRange_iff hedge).mp hk
  obtain ⟨u, tail, heq, hu, hd⟩ := startsWith_split (hedge.onLower hr)
  rcases hinside with hall | hall
  · have hle : u ≤ .data v := by
      obtain ⟨⟨interval, hm, hlt⟩, -⟩ := (inPair_minMaxOf_iff _ v).mp hin
      refine (hall interval hm u hu).trans ?_
      exact (Prod.Lex.toLex_lt_toLex.mp hlt).elim le_of_lt fun h => h.1.le
    rcases hle.lt_or_eq with hlt | rfl
    · rw [hrow, heq, append_le_append_left]
      exact (cons_lt_cons_iff.mpr (.inl hlt)).le
    · obtain ⟨hi, hvalue⟩ := minMaxOf_start (fun interval hm => hall interval hm _ hu) hin
      exact hstart (by simp [hr, hi, hvalue, hu])
  · rw [hrow, heq, append_le_append_left, ← hd]
    exact hall v ((inPair_minMaxOf_iff _ v).mp hin) rest

theorem TrieState.UpperInside.lt (hr : state.refineUpper = true)
    (hinside : state.UpperInside keyRange) (hk : HoldsKey
      (collapsedRange keyRange state.keyPrefix (state.refinesLower keyRange) state.refineUpper
      (minMaxOf (state.kept keyRange))) key) : keyRow key < keyRange.2 := by
  obtain ⟨v, rest, hrow, hin, -, hend⟩ := (holdsKey_collapsedRange_iff hedge).mp hk
  obtain ⟨q, tail, heq, hq, hd⟩ := startsWith_split (hedge.onUpper hr)
  rcases hinside with hall | hall
  · have hle : .data v ≤ q := by
      obtain ⟨-, interval, hm, hle⟩ := (inPair_minMaxOf_iff _ v).mp hin
      refine le_trans ?_ (hall interval hm q hq)
      exact (Prod.Lex.toLex_le_toLex.mp hle).elim le_of_lt fun h => h.1.le
    rcases hle.lt_or_eq with hlt | rfl
    · rw [hrow, heq, append_lt_append_left]
      exact cons_lt_cons_iff.mpr (.inl hlt)
    · obtain ⟨hi, hvalue⟩ := minMaxOf_end (fun interval hm => hall interval hm _ hq) hin
      exact hend (by simp [hr, hi, hvalue, hq])
  · rw [hrow, heq, append_lt_append_left, ← hd]
    exact hall v ((inPair_minMaxOf_iff _ v).mp hin) rest

/-- The range of a collapse below a prefix of data values stays inside the key range iff what is
kept does. -/
theorem inside_collapsedRange_iff {p : List α}
    (hp : state.keyPrefix = keyRow p) (hle : keyRange.1 ≤ keyRange.2) : (∀ key, HoldsKey
      (collapsedRange keyRange state.keyPrefix (state.refinesLower keyRange) state.refineUpper
        (minMaxOf (state.kept keyRange))) key → HoldsKey keyRange key) ↔
      (state.refinesLower keyRange = true → state.LowerInside keyRange) ∧
        (state.refineUpper = true → state.UpperInside keyRange) := by
  have hrow (v : α) (rest : List α) :
      keyRow (p ++ v :: rest) = state.keyPrefix ++ keyRow (v :: rest) := by
    simp [hp, keyRow]
  refine ⟨fun hinside => ⟨fun hr => ?_, fun hr => ?_⟩, fun ⟨hlower, hupper⟩ key hk => ⟨?_, ?_⟩⟩
  · -- otherwise a key below the lower end is held: `min` is below the end's component
    by_contra hn
    simp only [TrieState.LowerInside, not_or, not_forall, not_le] at hn
    obtain ⟨⟨interval, hm, u, hu, hlt⟩, v, hv, rest, hbelow⟩ := hn
    obtain ⟨u', tail, heq, hu', hd⟩ := startsWith_split (hedge.onLower hr)
    have hkey : keyRow (p ++ v :: rest) < keyRange.1 := by
      rw [hrow, heq, append_lt_append_left, ← hd]
      exact hbelow
    refine not_lt.mpr (hinside _ ((holdsKey_collapsedRange_iff hedge).mpr
      ⟨v, rest, hrow v rest, (inPair_minMaxOf_iff _ v).mpr hv, fun hstart => ?_, fun _ =>
        hkey.trans_le hle⟩)).1 hkey
    simp only [Bool.and_eq_true, decide_eq_true_eq] at hstart
    obtain rfl := Option.mem_unique hu hstart.2
    exact absurd (minMaxOf_outside hm).1 (not_le.mpr hlt)
  · by_contra hn
    simp only [TrieState.UpperInside, not_or, not_forall, not_le, not_lt] at hn
    obtain ⟨⟨interval, hm, q, hq, hlt⟩, v, hv, rest, habove⟩ := hn
    obtain ⟨q', tail, heq, hq', hd⟩ := startsWith_split (hedge.onUpper hr)
    have hkey : keyRange.2 ≤ keyRow (p ++ v :: rest) := by
      rw [hrow, heq, append_le_append_left, ← hd]
      exact habove
    refine not_lt.mpr hkey (hinside _ ((holdsKey_collapsedRange_iff hedge).mpr
      ⟨v, rest, hrow v rest, (inPair_minMaxOf_iff _ v).mpr hv, fun _ =>
        hle.trans hkey, fun hend => ?_⟩)).2
    simp only [Bool.and_eq_true, decide_eq_true_eq] at hend
    obtain rfl := Option.mem_unique hq hend.2
    exact absurd (minMaxOf_outside hm).2 (not_le.mpr hlt)
  · cases hr : state.refinesLower keyRange with
    | false => exact hedge.offLower hr _ (startsWith_of_le_of_lt _ hk.1 hk.2)
    | true => exact (hlower hr).le hedge hr hk
  · cases hr : state.refineUpper with
    | false => exact hedge.offUpper hr _ (startsWith_of_le_of_lt _ hk.1 hk.2)
    | true => exact (hupper hr).lt hedge hr hk

end Collapse

/-- The ranges have gaps between them. They stay inside a key range iff every state that is
collapsed, below a prefix of data values, keeps nothing across an end of the key range that its
prefix is on. -/
theorem trie_ranges_inside_iff (keyRange : MutableRowRange α) (trie : KeyTrie α) (limit : ℕ)
    (ranges : List (MutableRowRange α))
    (h : getRangesFromTrieWithinRange keyRange trie limit = .ok ranges) :
    Separate ranges ∧ (keyRange.1 ≤ keyRange.2 →
      ((∀ range ∈ ranges, ∀ key, HoldsKey range key → HoldsKey keyRange key) ↔
        ∀ visit ∈ visits keyRange [rootState trie] limit, Collapses keyRange visit →
          ∀ p, visit.1.keyPrefix = keyRow p →
            (visit.1.refinesLower keyRange = true → visit.1.LowerInside keyRange) ∧
              (visit.1.refineUpper = true → visit.1.UpperInside keyRange))) := by
  obtain ⟨hseparate, hok, hcovers⟩ := getRangesFromTrieWithinRange_spec h
  refine ⟨hseparate, fun hle =>
    ⟨fun hinside visit hvisit hcollapses p hp => ?_, fun hinside range hrange key hkey => ?_⟩⟩
  · obtain ⟨expansion, hexpand⟩ := hok visit hvisit
    obtain ⟨hend, hranges⟩ := expansion_of_collapses hexpand hcollapses
    refine (inside_collapsedRange_iff ((stateOk_of_mem_visits hvisit).edge hend) hp hle).mp
      fun key hkey => ?_
    obtain ⟨range, hrange, hheld⟩ := (hcovers (keyRow key)).mpr
      ⟨visit, hvisit, _, visitRanges_eq hexpand ▸ hranges ▸ mem_singleton_self _, hkey⟩
    exact hinside range hrange key hheld
  · obtain ⟨visit, hvisit, range', hrange', hkey'⟩ := (hcovers (keyRow key)).mp ⟨range, hrange, hkey⟩
    obtain ⟨expansion, hexpand⟩ := hok visit hvisit
    rw [visitRanges_eq hexpand] at hrange'
    by_cases hcollapses : Collapses keyRange visit
    · obtain ⟨hend, hranges⟩ := expansion_of_collapses hexpand hcollapses
      obtain rfl := mem_singleton.mp (hranges ▸ hrange')
      -- a prefix of a key has data values only
      obtain ⟨tail, htail⟩ := startsWith_of_le_of_lt _ hkey'.1 hkey'.2
      obtain ⟨p, _, -, hp, -⟩ := map_eq_append_iff.mp htail.symm
      exact (inside_collapsedRange_iff ((stateOk_of_mem_visits hvisit).edge hend) hp.symm hle).mpr
        (hinside visit hvisit hcollapses p hp.symm) key hkey'
    · exact inside_of_not_collapses hexpand (stateOk_of_mem_visits hvisit) hcollapses hrange' hkey'

/-- A trie of one column with two intervals inside the key range that are collapsed. -/
theorem trie_ranges_inside_two :
    let keyRange : MutableRowRange ℕ := ([.data 5], [.data 8])
    let trie : KeyTrie ℕ := .node 0 []
      [⟨.data 5, true⟩, ⟨.data 6, false⟩, ⟨.data 7, true⟩, ⟨.data 7, true⟩]
    let ranges : List (MutableRowRange ℕ) := [([.data 5], [.data 7, .max])]
    getRangesFromTrieWithinRange keyRange trie 1 = .ok ranges ∧ Separate ranges ∧
      ∀ range ∈ ranges, ∀ key, HoldsKey range key → HoldsKey keyRange key := by
  intro keyRange trie ranges
  have hranges : getRangesFromTrieWithinRange keyRange trie 1 = .ok ranges := by decide +kernel
  obtain ⟨hseparate, hiff⟩ := trie_ranges_inside_iff keyRange trie 1 ranges hranges
  refine ⟨hranges, hseparate, (hiff (by decide)).mpr fun visit hvisit _ _ _ => ?_⟩
  have hexpand : expandState keyRange 1 (rootState trie) = .ok ⟨ranges, [], 1⟩ := rfl
  have hvisits : visits keyRange [rootState trie] 1 = [(rootState trie, 1)] := by
    rw [visits_cons hexpand, append_nil, visits]
  rw [hvisits, mem_singleton] at hvisit
  subst hvisit
  exact ⟨fun _ => .inl (by decide), fun _ => .inl (by decide)⟩

/-- The hull of the intervals `[0, 6]` and `[7, 10]` is not cut at the ends of the key range from 5
to 8. -/
theorem collapse_leaves_key_range :
    let keyRange : MutableRowRange ℕ := ([.data 5], [.data 8])
    let trie : KeyTrie ℕ := .node 0 []
      [⟨.data 0, true⟩, ⟨.data 6, true⟩, ⟨.data 7, true⟩, ⟨.data 10, true⟩]
    getRangesFromTrieWithinRange keyRange trie 1 = .ok [([.data 0], [.data 10, .max])] ∧
      HoldsKey ([.data 0], [.data 10, .max]) [1] ∧ ¬HoldsKey keyRange [1] := by
  refine ⟨by decide +kernel, ?_, ?_⟩
  · exact ⟨by decide, by decide⟩
  · exact fun h => absurd h.1 (by decide)

end Run

end Ytsaurus.Query
