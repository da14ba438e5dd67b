/-
# The running union of the heavy range inferrer

The callback of `CreateNewHeavyRangeInferrer` (`query/engine/new_range_inferrer.cpp`) inserts the
enriched ranges one by one into an ordered set. It looks at the range before the place of the new
one and at the run of ranges after it, erases those that meet the new range and inserts their hull.

The set always holds non-empty ranges with gaps between them, and such a set is determined by the
points it covers (`Separated.eq_of_covers`). So the order of the insertions does not matter.
-/
import Ytsaurus.Lib.Search
import Ytsaurus.Lib.Separated

namespace Ytsaurus.Query

open List Lib

variable {κ : Type} [LinearOrder κ]

/-! ### The ordered set -/

/-- `operator<` of pairs of rows. -/
def rangeLess (lhs rhs : κ × κ) : Bool := lhs.1 < rhs.1 ∨ (¬rhs.1 < lhs.1 ∧ lhs.2 < rhs.2)

def beforeBound (set : List (κ × κ)) (range : κ × κ) : List (κ × κ) :=
  set.takeWhile (rangeLess · range)

def fromBound (set : List (κ × κ)) (range : κ × κ) : List (κ × κ) :=
  set.dropWhile (rangeLess · range)

/-- `insert` of the set: an equal range stays. -/
def setInsert (set : List (κ × κ)) (range : κ × κ) : List (κ × κ) :=
  match fromBound set range with
  | [] => set ++ [range]
  | next :: later => if rangeLess range next then beforeBound set range ++
    range :: next :: later else set

/-- `mergeStart`: the ranges that stay before it, and the range before the new one if it is merged.
-/
def mergeStart (before : List (κ × κ)) (newRange : κ × κ) : List (κ × κ) × List (κ × κ) :=
  match before.getLast? with
  | none => (before, [])
  | some prev => if ¬prev.2 < newRange.1 then (before.dropLast, [prev]) else (before, [])

/-- The loop body: the new range enters `nonOverlappingEnrichedRanges`. -/
def insertRange (set : List (κ × κ)) (newRange : κ × κ) : List (κ × κ) :=
  let it := fromBound set newRange
  let (kept, merged) := mergeStart (beforeBound set newRange) newRange
  let mergedLower := (merged.head?.map Prod.fst).getD newRange.1
  let run := it.takeWhile fun range => ¬newRange.2 < range.1
  let rest := it.dropWhile fun range => ¬newRange.2 < range.1
  let mergedUpper :=
    match (merged ++ run).getLast? with
    | none => newRange.2
    | some lastMerged => if lastMerged.2 > newRange.2 then lastMerged.2 else newRange.2
  setInsert (kept ++ rest) (mergedLower, mergedUpper)

def insertRanges (ranges : List (κ × κ)) : List (κ × κ) := ranges.foldl insertRange []

/-! ### One insertion -/

section Insert

variable {set kept rest run : List (κ × κ)} {newRange prev hull : κ × κ}

theorem rangeLess_of_fst_lt {a b : κ × κ} (h : a.1 < b.1) : rangeLess a b = true := by
  simp [rangeLess, h]

theorem not_rangeLess_of_fst_lt {a b : κ × κ} (h : b.1 < a.1) : rangeLess a b = false := by
  simp [rangeLess, h, h.le]

theorem setInsert_eq (hk : ∀ a ∈ kept, a.1 < hull.1) (hr : ∀ b ∈ rest, hull.1 < b.1) :
    setInsert (kept ++ rest) hull = kept ++ hull :: rest := by
  have hb : beforeBound (kept ++ rest) hull = kept := by
    unfold beforeBound
    rw [takeWhile_append_of_pos fun a ha => rangeLess_of_fst_lt (hk a ha)]
    cases rest with
    | nil => simp
    | cons b rest =>
      rw [takeWhile_cons_of_neg (by simp [not_rangeLess_of_fst_lt (hr b (by simp))]), append_nil]
  have hf : fromBound (kept ++ rest) hull = rest := by
    unfold fromBound
    rw [dropWhile_append_of_pos fun a ha => rangeLess_of_fst_lt (hk a ha)]
    cases rest with
    | nil => rfl
    | cons b rest => rw [dropWhile_cons_of_neg (by simp [not_rangeLess_of_fst_lt (hr b (by simp))])]
  unfold setInsert
  rw [hf, hb]
  cases rest with
  | nil => simp
  | cons b rest =>
    dsimp only
    rw [if_pos (rangeLess_of_fst_lt (hr b (by simp)))]

/-- The ranges that stay, those that the new range meets, and the hull of these. -/
structure Merge (set : List (κ × κ)) (newRange : κ × κ) (kept merged rest : List (κ × κ))
    (hull : κ × κ) : Prop where
  split : set = kept ++ (merged ++ rest)
  kept_lt : ∀ a ∈ kept, a.2 < hull.1
  lt_rest : ∀ b ∈ rest, hull.2 < b.1
  lower : hull.1 ≤ newRange.1
  upper : newRange.2 ≤ hull.2
  inside : ∀ m ∈ merged, hull.1 ≤ m.1 ∧ m.2 ≤ hull.2
  below : hull.1 = newRange.1 ∨ ∃ m ∈ merged, m.1 = hull.1 ∧ newRange.1 ≤ m.2
  above : hull.2 = newRange.2 ∨ ∃ m ∈ merged, m.2 = hull.2 ∧ m.1 ≤ newRange.2

theorem Merge.separated {merged : List (κ × κ)} (h : Merge set newRange kept merged rest hull)
    (hs : Separated set) (hn : newRange.1 < newRange.2) : Separated (kept ++ hull :: rest) := by
  rw [h.split, separated_append, separated_append] at hs
  obtain ⟨hk, ⟨-, hr, -⟩, -⟩ := hs
  have hh : hull.1 < hull.2 := lt_of_le_of_lt h.lower (hn.trans_le h.upper)
  refine separated_append.mpr ⟨hk, separated_cons.mpr ⟨hh, hr, h.lt_rest⟩, fun a ha => ?_⟩
  exact forall_mem_cons.mpr
    ⟨h.kept_lt a ha, fun b hb => (h.kept_lt a ha).trans (hh.trans (h.lt_rest b hb))⟩

theorem Merge.covers {merged : List (κ × κ)} (h : Merge set newRange kept merged rest hull)
    (x : κ) : InIntervals (kept ++ hull :: rest) x ↔ InIntervals set x ∨
      (newRange.1 ≤ x ∧ x < newRange.2) := by
  have hh : hull.1 ≤ x ∧ x < hull.2 ↔ InIntervals merged x ∨ (newRange.1 ≤ x ∧ x < newRange.2) := by
    constructor
    · rintro ⟨hle, hlt⟩
      by_cases hx : newRange.1 ≤ x
      · by_cases hx' : x < newRange.2
        · exact .inr ⟨hx, hx'⟩
        · -- beyond the new range lies the last merged one
          rcases h.above with heq | ⟨m, hm, heq, hmle⟩
          · exact absurd (heq ▸ hlt) hx'
          · exact .inl ⟨m, hm, hmle.trans (not_lt.mp hx'), heq ▸ hlt⟩
      · rcases h.below with heq | ⟨m, hm, heq, hmle⟩
        · exact absurd (heq ▸ hle) hx
        · exact .inl ⟨m, hm, heq ▸ hle, (not_le.mp hx).trans_le hmle⟩
    · rintro (⟨m, hm, hmx⟩ | hx)
      · exact ⟨(h.inside m hm).1.trans hmx.1, hmx.2.trans_le (h.inside m hm).2⟩
      · exact ⟨h.lower.trans hx.1, hx.2.trans_le h.upper⟩
  rw [h.split]
  simp only [inIntervals_append, inIntervals_cons, hh]
  rw [or_right_comm, ← or_assoc]

theorem beforeBound_append_fromBound (set : List (κ × κ)) (newRange : κ × κ) :
    beforeBound set newRange ++ fromBound set newRange = set :=
  takeWhile_append_dropWhile

/-- What `mergeStart` finds before the place of the new range. -/
structure Before (newRange : κ × κ) (before kept merged : List (κ × κ)) (lower : κ) : Prop where
  split : before = kept ++ merged
  kept_lt : ∀ a ∈ kept, a.2 < lower
  lower_le : lower ≤ newRange.1
  merged : merged = [] ∧ lower = newRange.1 ∨ ∃ prev, merged = [prev] ∧ prev.1 = lower ∧
    newRange.1 ≤ prev.2

theorem mergeStart_spec {before : List (κ × κ)} (hb : Separated before)
    (hl : ∀ a ∈ before, rangeLess a newRange = true) :
    Before newRange before (mergeStart before newRange).1 (mergeStart before newRange).2
      (((mergeStart before newRange).2.head?.map Prod.fst).getD newRange.1) := by
  rcases eq_nil_or_concat' before with rfl | ⟨front, prev, rfl⟩
  · exact ⟨rfl, by simp [mergeStart], le_rfl, .inl ⟨rfl, rfl⟩⟩
  · obtain ⟨-, hp, hg⟩ := separated_append.mp hb
    have hne : prev.1 < prev.2 := hp.nonempty prev (by simp)
    have hfst : prev.1 ≤ newRange.1 := by
      have := hl prev (by simp)
      simp only [rangeLess, decide_eq_true_eq, not_lt] at this
      exact this.elim le_of_lt And.left
    have hfront : ∀ a ∈ front, a.2 < prev.1 := fun a ha => hg a ha prev (by simp)
    unfold mergeStart
    rw [getLast?_concat, dropLast_concat]
    dsimp only
    by_cases hm : prev.2 < newRange.1
    · rw [if_neg (not_not.mpr hm)]
      refine ⟨(append_nil _).symm, ?_, le_rfl, .inl ⟨rfl, rfl⟩⟩
      exact forall_mem_append.mpr
        ⟨fun a ha => (hfront a ha).trans (hne.trans hm), forall_mem_singleton.mpr hm⟩
    · rw [if_pos hm]
      exact ⟨rfl, hfront, hfst, .inr ⟨prev, rfl, rfl, not_lt.mp hm⟩⟩

theorem le_of_mem_fromBound (hset : Separated set) {b : κ × κ} (hb : b ∈ fromBound set newRange) :
    newRange.1 ≤ b.1 := by
  obtain ⟨a, ha, hstop, hab⟩ := exists_break hset.gaps hb
  simp only [rangeLess, decide_eq_false_iff_not, not_or, not_lt] at hstop
  rcases hab with rfl | hab
  · exact hstop.1
  · exact hstop.1.trans ((hset.nonempty a ha).trans hab).le

theorem lt_of_mem_rest {it : List (κ × κ)} (hit : Separated it) {b : κ × κ}
    (hb : b ∈ it.dropWhile fun range => ¬newRange.2 < range.1) : newRange.2 < b.1 := by
  obtain ⟨a, ha, hs, hab⟩ := exists_break hit.gaps hb
  have hlt : newRange.2 < a.1 := by simpa using hs
  rcases hab with rfl | hab
  · exact hlt
  · exact hlt.trans ((hit.nonempty a ha).trans hab)

/-- What the loop body does to the set. -/
theorem insertRange_merge (hset : Separated set) (hnew : newRange.1 < newRange.2) :
    ∃ kept merged rest hull, insertRange set newRange = kept ++ hull :: rest ∧
      Merge set newRange kept merged rest hull := by
  have hsplit := hset
  rw [← beforeBound_append_fromBound set newRange] at hsplit
  obtain ⟨hbefore, hit, hgap⟩ := separated_append.mp hsplit
  have hless : ∀ a ∈ beforeBound set newRange, rangeLess a newRange = true :=
    fun a ha => mem_takeWhile_imp (p := (rangeLess · newRange)) ha
  have hstart := mergeStart_spec hbefore hless
  unfold insertRange
  dsimp only
  set kept := (mergeStart (beforeBound set newRange) newRange).1
  set first := (mergeStart (beforeBound set newRange) newRange).2
  set lower := (first.head?.map Prod.fst).getD newRange.1
  set run := (fromBound set newRange).takeWhile fun range => ¬newRange.2 < range.1 with hrun
  set rest := (fromBound set newRange).dropWhile fun range => ¬newRange.2 < range.1 with hrest
  have hitsplit : run ++ rest = fromBound set newRange := takeWhile_append_dropWhile
  have hw : set = kept ++ ((first ++ run) ++ rest) := by
    rw [append_assoc, ← append_assoc, ← hstart.split, hitsplit, beforeBound_append_fromBound]
  have hmerged : Separated (first ++ run) ∧ ∀ m ∈ first ++ run, ∀ b ∈ rest, m.2 < b.1 := by
    rw [hw] at hset
    obtain ⟨h, -, hlt⟩ := separated_append.mp (separated_append.mp hset).2.1
    exact ⟨h, hlt⟩
  have hfirst : ∀ m ∈ first, m.1 = lower ∧ newRange.1 ≤ m.2 := by
    intro m hm
    rcases hstart.merged with ⟨hnil, -⟩ | ⟨prev, hp, hfst, hle⟩
    · rw [hnil] at hm
      cases hm
    · rw [hp] at hm
      obtain rfl := mem_singleton.mp hm
      exact ⟨hfst, hle⟩
  have hlowE : lower = newRange.1 ∨ ∃ m ∈ first ++ run, m.1 = lower ∧ newRange.1 ≤ m.2 := by
    rcases hstart.merged with ⟨-, heq⟩ | ⟨prev, hp, hfst, hle⟩
    · exact .inl heq
    · exact .inr ⟨prev, by simp [hp], hfst, hle⟩
  have hfrom : ∀ m ∈ first ++ run, lower ≤ m.1 := by
    refine forall_mem_append.mpr ⟨fun m hm => (hfirst m hm).1.ge, fun m hm => ?_⟩
    exact hstart.lower_le.trans (le_of_mem_fromBound hset (hitsplit ▸ mem_append_left _ hm))
  have hto : ∀ m ∈ first ++ run, m.1 ≤ newRange.2 := by
    refine forall_mem_append.mpr
      ⟨fun m hm => ?_, fun m hm => not_lt.mp (by simpa using mem_takeWhile_imp hm)⟩
    exact (hfirst m hm).1.le.trans (hstart.lower_le.trans hnew.le)
  have hbeyond : ∀ b ∈ rest, newRange.2 < b.1 := fun b hb => lt_of_mem_rest hit hb
  -- the hull ends with the last merged range or with the new one
  obtain ⟨upper, hu, hge, hlast, hinside, hres⟩ : ∃ upper,
      (match (first ++ run).getLast? with
        | none => newRange.2
        | some lastMerged => if lastMerged.2 > newRange.2 then lastMerged.2 else newRange.2) = upper ∧
      newRange.2 ≤ upper ∧ (upper = newRange.2 ∨ ∃ m ∈ first ++ run, m.2 = upper ∧ m.1 ≤ newRange.2) ∧
      (∀ m ∈ first ++ run, m.2 ≤ upper) ∧ ∀ b ∈ rest, upper < b.1 := by
    cases hgetL : (first ++ run).getLast? with
    | none =>
      refine ⟨_, rfl, le_rfl, .inl rfl, ?_, hbeyond⟩
      rw [getLast?_eq_none_iff.mp hgetL]
      simp
    | some last =>
      have hmem : last ∈ first ++ run := mem_of_getLast? hgetL
      dsimp only
      by_cases hgt : last.2 > newRange.2
      · rw [if_pos hgt]
        exact ⟨_, rfl, le_of_lt hgt, .inr ⟨last, hmem, rfl, hto last hmem⟩,
          fun m hm => hmerged.1.snd_le_getLast hgetL hm, hmerged.2 last hmem⟩
      · rw [if_neg hgt]
        exact ⟨_, rfl, le_rfl, .inl rfl, fun m hm =>
          (hmerged.1.snd_le_getLast hgetL hm).trans (not_lt.mp hgt), hbeyond⟩
  rw [hu]
  refine ⟨kept, first ++ run, rest, (lower, upper), setInsert_eq (fun a ha => ?_) (fun b hb => ?_),
    hw, hstart.kept_lt, hres, hstart.lower_le, hge, fun m hm => ⟨hfrom m hm, hinside m hm⟩, hlowE, hlast⟩
  · have hne : a.1 < a.2 := hset.nonempty a (by rw [hw]; exact mem_append_left _ ha)
    exact hne.trans (hstart.kept_lt a ha)
  · exact lt_of_le_of_lt (hstart.lower_le.trans (hnew.le.trans hge)) (hres b hb)

theorem separated_insertRange (hs : Separated set) (hn : newRange.1 < newRange.2) :
    Separated (insertRange set newRange) ∧ ∀ x, InIntervals (insertRange set newRange) x ↔
        InIntervals set x ∨ (newRange.1 ≤ x ∧ x < newRange.2) := by
  obtain ⟨kept, merged, rest, hull, heq, hm⟩ := insertRange_merge hs hn
  rw [heq]
  exact ⟨hm.separated hs hn, hm.covers⟩

end Insert

/-! ### All insertions -/

theorem separated_foldl : ∀ {ranges set : List (κ × κ)}, Separated set →
    (∀ range ∈ ranges, range.1 < range.2) → Separated (ranges.foldl insertRange set) ∧
      ∀ x, InIntervals (ranges.foldl insertRange set) x ↔ InIntervals set x ∨ InIntervals ranges x
  | [], _, hset, _ => ⟨hset, fun x => by simp [InIntervals]⟩
  | range :: ranges, _, hset, hne => by
    obtain ⟨hsep, hc⟩ := separated_insertRange hset (hne range (by simp))
    obtain ⟨hsep', hc'⟩ := separated_foldl hsep (forall_mem_cons.mp hne).2
    refine ⟨hsep', fun x => (hc' x).trans ?_⟩
    rw [hc, or_assoc, inIntervals_cons]

/-- The running union is canonical: after every insertion the set holds separated ranges that cover
what was inserted, and the final set does not depend on the order. -/
theorem insertRanges_union (ranges : List (κ × κ)) (hne : ∀ range ∈ ranges, range.1 < range.2) :
    (∀ n, Separated (insertRanges (ranges.take n)) ∧
      ∀ x, InIntervals (insertRanges (ranges.take n)) x ↔ InIntervals (ranges.take n) x) ∧
    ∀ ranges', ranges'.Perm ranges → insertRanges ranges' = insertRanges ranges := by
  have hrun : ∀ l : List (κ × κ), (∀ range ∈ l, range.1 < range.2) →
      Separated (insertRanges l) ∧ ∀ x, InIntervals (insertRanges l) x ↔ InIntervals l x := by
    intro l hl
    obtain ⟨hsep, hcovers⟩ := separated_foldl separated_nil hl
    exact ⟨hsep, fun x => (hcovers x).trans (by simp [InIntervals])⟩
  refine ⟨fun n => hrun _ fun range hr => hne range (mem_of_mem_take hr), fun ranges' hperm => ?_⟩
  obtain ⟨hsep, hcovers⟩ := hrun ranges hne
  obtain ⟨hsep', hcovers'⟩ := hrun ranges' fun range hr => hne range (hperm.mem_iff.mp hr)
  refine hsep'.eq_of_covers hsep fun x => ?_
  rw [hcovers, hcovers']
  exact exists_congr fun r => and_congr_left fun _ => hperm.mem_iff

/-- A range that bridges a gap. -/
theorem insertRanges_union_bridge :
    insertRanges [(1, 3), (5, 8), (3, 5)] = [(1, 8)] ∧
      insertRanges [(3, 5), (5, 8), (1, 3)] = insertRanges [((1 : ℕ), 3), (5, 8), (3, 5)] :=
  ⟨by decide, (insertRanges_union [(1, 3), (5, 8), (3, 5)] (by decide)).2 _ (by decide)⟩

end Ytsaurus.Query
