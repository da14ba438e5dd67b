/-
# Sets of key ranges

`UniteRanges` and `SubtractRanges` of `flow/library/cpp/common/key.cpp`. Keys only meet through
their order. `UniteRanges` sorts the ranges and joins those that overlap or touch. `SubtractRanges`
unites both lists and sweeps over them with a range that may be partly consumed; what is left of the
minuend at any point is that range and the ranges after it (`leftover`), and every step takes from
it what the subtrahend allows.
-/
import Mathlib
import Ytsaurus.Lib.Separated

namespace Ytsaurus.Flow

open List Lib

variable {κ : Type} [LinearOrder κ]

/-! ### `UniteRanges` -/

/-- `operator<` of key ranges, as the order that `Sort` leaves. -/
def keyRangeLe (left right : κ × κ) : Bool := toLex left ≤ toLex right

def uniteLoop (current : κ × κ) : List (κ × κ) → List (κ × κ)
  | [] => [current]
  | range :: ranges =>
    if current.2 ≥ range.1 then uniteLoop (current.1, max current.2 range.2) ranges
    else current :: uniteLoop range ranges

def uniteRanges (ranges : List (κ × κ)) : List (κ × κ) :=
  match (ranges.filter fun range => ¬range.1 = range.2).mergeSort keyRangeLe with
  | [] => []
  | current :: ranges => uniteLoop current ranges

theorem uniteLoop_spec : ∀ (ranges : List (κ × κ)) (current : κ × κ), current.1 < current.2 →
    (∀ r ∈ ranges, r.1 < r.2) → (current :: ranges).Pairwise (fun r s => r.1 ≤ s.1) →
    Separated (uniteLoop current ranges) ∧ (∀ r ∈ uniteLoop current ranges, current.1 ≤ r.1) ∧
      ∀ x, InIntervals (uniteLoop current ranges) x ↔ InIntervals (current :: ranges) x
  | [], current, hc, _, _ => by
    refine ⟨separated_cons.mpr ⟨hc, separated_nil, by simp⟩, by simp [uniteLoop], fun x => Iff.rfl⟩
  | range :: ranges, current, hc, hne, hsorted => by
    obtain ⟨hr, hrs⟩ := forall_mem_cons.mp hne
    obtain ⟨hle, hs⟩ := pairwise_cons.mp hsorted
    obtain ⟨hle1, hles⟩ := forall_mem_cons.mp hle
    rw [uniteLoop]
    split_ifs with hmeet
    · obtain ⟨hsep, hlow, hcov⟩ := uniteLoop_spec ranges (current.1, max current.2 range.2)
        (hc.trans_le (le_max_left _ _)) hrs (pairwise_cons.mpr ⟨hles, (pairwise_cons.mp hs).2⟩)
      exact ⟨hsep, hlow, fun x => (hcov x).trans (inIntervals_hull hle1 hmeet)⟩
    · obtain ⟨hsep, hlow, hcov⟩ := uniteLoop_spec ranges range hr hrs hs
      refine ⟨separated_cons.mpr ⟨hc, hsep, fun r h => (not_le.mp hmeet).trans_le (hlow r h)⟩, ?_,
        fun x => ?_⟩
      · exact forall_mem_cons.mpr ⟨le_rfl, fun r h => hle1.trans (hlow r h)⟩
      · rw [inIntervals_cons, inIntervals_cons, hcov]

theorem sorted_keyRangeLe (ranges : List (κ × κ)) :
    (ranges.mergeSort keyRangeLe).Pairwise fun r s => r.1 ≤ s.1 := by
  have htrans : ∀ a b c : κ × κ, keyRangeLe a b = true → keyRangeLe b c = true → keyRangeLe a c = true :=
    fun a b c hab hbc => decide_eq_true ((of_decide_eq_true hab).trans (of_decide_eq_true hbc))
  have htotal : ∀ a b : κ × κ, (keyRangeLe a b || keyRangeLe b a) = true := fun a b => by
    simpa [keyRangeLe] using le_total (toLex a) (toLex b)
  refine (pairwise_mergeSort htrans htotal ranges).imp fun {r s} h => ?_
  exact Prod.Lex.monotone_fst _ _ (show toLex r ≤ toLex s from of_decide_eq_true h)

theorem uniteRanges_spec {ranges : List (κ × κ)} (hle : ∀ r ∈ ranges, r.1 ≤ r.2) :
    Separated (uniteRanges ranges) ∧ ∀ x, InIntervals (uniteRanges ranges) x ↔ InIntervals ranges x := by
  set kept := (ranges.filter fun range => ¬range.1 = range.2).mergeSort keyRangeLe with hkept
  have hmem : ∀ r, r ∈ kept ↔ r ∈ ranges ∧ r.1 ≠ r.2 := fun r => by
    rw [hkept, mem_mergeSort, mem_filter, decide_eq_true_iff]
  have hcov : ∀ x, InIntervals kept x ↔ InIntervals ranges x := fun x => by
    refine exists_congr fun r => ?_
    rw [hmem]
    exact ⟨fun ⟨⟨h, _⟩, hx⟩ => ⟨h, hx⟩, fun ⟨h, hx⟩ => ⟨⟨h, (hx.1.trans_lt hx.2).ne⟩, hx⟩⟩
  have hne : ∀ r ∈ kept, r.1 < r.2 :=
    fun r h => (hle r ((hmem r).mp h).1).lt_of_ne ((hmem r).mp h).2
  have hsorted : kept.Pairwise fun r s => r.1 ≤ s.1 := sorted_keyRangeLe _
  have hunite : uniteRanges ranges =
    match kept with | [] => [] | current :: rest => uniteLoop current rest := rfl
  rw [hunite]
  clear_value kept
  cases kept with
  | nil => exact ⟨separated_nil, hcov⟩
  | cons current rest =>
    obtain ⟨hc, hrest⟩ := forall_mem_cons.mp hne
    obtain ⟨hsep, -, hcov'⟩ := uniteLoop_spec rest current hc hrest hsorted
    exact ⟨hsep, fun x => (hcov' x).trans (hcov x)⟩

/-! ### `SubtractRanges` -/

/-- What is left of the minuend: the current range stands for the first one. -/
def leftover (current : Option (κ × κ)) (minuend : List (κ × κ)) : List (κ × κ) :=
  match current with
  | some range => range :: minuend.tail
  | none => minuend

/-- What of the current range is pushed before the subtrahend's range. -/
def pushedBefore (current range : κ × κ) : List (κ × κ) :=
  if range.1 > current.1 then [(current.1, range.1)] else []

/-- The current range after a subtrahend's range that ends in it or before it. -/
def cutCurrent (current range : κ × κ) : κ × κ :=
  if range.2 > current.1 then (range.2, current.2) else current

/-- The sweep from `minuendIndex` and `subtrahendIndex` on, with what is appended after the loop. -/
def subtractLoop (current : Option (κ × κ)) (minuend subtrahend : List (κ × κ)) : List (κ × κ) :=
  match minuend, subtrahend with
  | first :: minuend, range :: subtrahend =>
    let current := current.getD first
    if range.1 = range.2 then subtractLoop (some current) (first :: minuend) subtrahend
    else if range.1 ≥ current.2 then current :: subtractLoop none minuend (range :: subtrahend)
    else if range.2 ≥ current.2 then pushedBefore current range ++ subtractLoop none minuend
      (range :: subtrahend)
    else pushedBefore current range ++ subtractLoop (some (cutCurrent current range))
      (first :: minuend) subtrahend
  | minuend, _ => leftover current minuend
  termination_by minuend.length + subtrahend.length

def subtractRanges (minuend subtrahend : List (κ × κ)) : List (κ × κ) :=
  let minuend := uniteRanges minuend
  let subtrahend := uniteRanges subtrahend
  if subtrahend = [] then minuend
  else if minuend = [] then []
  else subtractLoop none minuend subtrahend

/-- The ranges of `out` are the points of `l` without those of `r`. -/
structure Subtracts (out l r : List (κ × κ)) : Prop where
  ordered : Ordered out
  covers : ∀ x, InIntervals out x ↔ InIntervals l x ∧ ¬InIntervals r x

section Step

variable {c range : κ × κ} {l r out : List (κ × κ)}

theorem Subtracts.push (hl : Ordered (c :: l)) (hr : Ordered (range :: r)) (hge : c.2 ≤ range.1)
    (h : Subtracts out l (range :: r)) : Subtracts (c :: out) (c :: l) (range :: r) := by
  obtain ⟨hc, -, hcl⟩ := ordered_cons.mp hl
  obtain ⟨hne, -, hrr⟩ := ordered_cons.mp hr
  refine ⟨ordered_cons.mpr ⟨hc, h.ordered, fun x hx => hcl x ((h.covers x).mp hx).1⟩, fun x => ?_⟩
  have hrr := hrr x
  rw [inIntervals_cons, inIntervals_cons, h.covers, inIntervals_cons]
  grind

theorem pushedBefore_spec (c range : κ × κ) :
    Ordered (pushedBefore c range) ∧ (∀ i ∈ pushedBefore c range, i.2 ≤ range.1) ∧
      ∀ x, InIntervals (pushedBefore c range) x ↔ c.1 ≤ x ∧ x < range.1 := by
  unfold pushedBefore
  split_ifs with hlt
  · exact ⟨ordered_singleton hlt, by simp, fun x => inIntervals_singleton⟩
  · refine ⟨ordered_nil, by simp, fun x => ⟨?_, fun hx => absurd (hx.1.trans_lt hx.2) hlt⟩⟩
    rintro ⟨i, hi, -⟩
    exact absurd hi not_mem_nil

theorem Subtracts.cut {l' r' : List (κ × κ)} (h : Subtracts out l' r')
    (hle : ∀ x, InIntervals l' x → range.1 ≤ x)
    (hcov : ∀ x, InIntervals l x ∧ ¬InIntervals r x ↔ (c.1 ≤ x ∧ x < range.1) ∨ InIntervals l' x ∧
      ¬InIntervals r' x) : Subtracts (pushedBefore c range ++ out) l r := by
  obtain ⟨hordered, hend, hbefore⟩ := pushedBefore_spec c range
  refine ⟨hordered.append h.ordered fun i hi j hj => (hend i hi).trans (hle j.1 ?_), fun x => ?_⟩
  · exact ((h.covers j.1).mp ⟨j, hj, le_rfl, h.ordered.nonempty j hj⟩).1
  · rw [inIntervals_append, hbefore, h.covers, hcov]

end Step

theorem cutCurrent_spec {c range : κ × κ} (hc : c.1 < c.2) (hlt : range.2 < c.2) :
    (cutCurrent c range).1 < (cutCurrent c range).2 ∧ (cutCurrent c range).2 = c.2 ∧
      ∀ x, (cutCurrent c range).1 ≤ x ↔ c.1 ≤ x ∧ range.2 ≤ x := by
  unfold cutCurrent
  split_ifs with h
  · exact ⟨hlt, rfl, fun x => ⟨fun hx => ⟨h.le.trans hx, hx⟩, And.right⟩⟩
  · exact ⟨hc, rfl, fun x => ⟨fun hx => ⟨hx, (not_lt.mp h).trans hx⟩, And.left⟩⟩

omit [LinearOrder κ] in
theorem leftover_cons (current : Option (κ × κ)) (first : κ × κ) (minuend : List (κ × κ)) :
    leftover current (first :: minuend) = current.getD first :: minuend := by
  cases current <;> rfl

theorem subtractLoop_spec (current : Option (κ × κ)) (minuend subtrahend : List (κ × κ))
    (hl : Ordered (leftover current minuend)) (hr : Ordered subtrahend)
    (hm : minuend = [] → current = none) :
    Subtracts (subtractLoop current minuend subtrahend) (leftover current minuend) subtrahend := by
  fun_induction subtractLoop current minuend subtrahend with
  | case1 current first minuend range subtrahend c hempty ih =>
    exact absurd hempty (ordered_cons.mp hr).1.ne
  | case2 current first minuend range subtrahend c hne hge ih =>
    rw [leftover_cons] at hl ⊢
    exact (ih (ordered_cons.mp hl).2.1 hr fun _ => rfl).push hl hr hge
  | case3 current first minuend range subtrahend c hne hlt hover ih =>
    rw [leftover_cons] at hl ⊢
    obtain ⟨-, hml, hcl⟩ := ordered_cons.mp hl
    obtain ⟨-, -, hrl⟩ := ordered_cons.mp hr
    refine (ih hml hr fun _ => rfl).cut (fun x hx => (not_le.mp hlt).le.trans (hcl x hx)) fun x => ?_
    -- the rest of the current range lies in the subtrahend's
    have hl := hcl x
    have hr := hrl x
    simp only [leftover, inIntervals_cons]
    grind
  | case4 current first minuend range subtrahend c hne hlt hover ih =>
    rw [leftover_cons] at hl ⊢
    obtain ⟨hcc, hml, hcl⟩ := ordered_cons.mp hl
    obtain ⟨hrr, hrl', hrl⟩ := ordered_cons.mp hr
    obtain ⟨hne', hend, hstart⟩ := cutCurrent_spec hcc (not_le.mp hover)
    have hl' : Ordered (cutCurrent c range :: minuend) := ordered_cons.mpr ⟨hne', hml, hend ▸ hcl⟩
    refine (ih hl' hrl' (by simp)).cut (fun x hx => ?_) fun x => ?_
    · rcases inIntervals_cons.mp hx with hx | hx
      · exact hrr.le.trans ((hstart x).mp hx.1).2
      · exact (not_le.mp hlt).le.trans (hcl x hx)
    · have hl := hcl x
      have hr := hrl x
      simp only [leftover, tail_cons, inIntervals_cons]
      grind
  | case5 current subtrahend minuend hend =>
    cases minuend with
    | nil =>
      rw [hm rfl]
      exact ⟨ordered_nil, by simp [leftover, InIntervals]⟩
    | cons first minuend =>
      cases subtrahend with
      | nil => exact ⟨hl, by simp [InIntervals]⟩
      | cons range subtrahend => exact absurd rfl (hend first minuend range subtrahend rfl)

theorem subtractRanges_spec {minuend subtrahend : List (κ × κ)} (hm : ∀ r ∈ minuend, r.1 ≤ r.2)
    (hs : ∀ r ∈ subtrahend, r.1 ≤ r.2) :
      Subtracts (subtractRanges minuend subtrahend) minuend subtrahend := by
  obtain ⟨hsep, hcov⟩ := uniteRanges_spec hm
  obtain ⟨hsep', hcov'⟩ := uniteRanges_spec hs
  have hunited : Subtracts (subtractRanges minuend subtrahend) (uniteRanges minuend)
      (uniteRanges subtrahend) := by
    unfold subtractRanges
    dsimp only
    split_ifs with h h'
    · rw [h]
      exact ⟨hsep.ordered, by simp [InIntervals]⟩
    · rw [h']
      exact ⟨ordered_nil, by simp [InIntervals]⟩
    · exact subtractLoop_spec none _ _ hsep.ordered hsep'.ordered fun _ => rfl
  exact ⟨hunited.ordered, fun x => by rw [hunited.covers, hcov, hcov']⟩

/-- **Key range sets.** `UniteRanges` keeps the keys of its ranges and leaves gaps between the
ranges, and `SubtractRanges` has exactly the keys of the minuend that no range of the subtrahend
has. -/
theorem keyRangeSets_exact (minuend subtrahend : List (κ × κ)) (hm : ∀ r ∈ minuend, r.1 ≤ r.2)
    (hs : ∀ r ∈ subtrahend, r.1 ≤ r.2) :
    (Separated (uniteRanges minuend) ∧ ∀ x, InIntervals (uniteRanges minuend) x ↔
      InIntervals minuend x) ∧ Ordered (subtractRanges minuend subtrahend) ∧
      ∀ x, InIntervals (subtractRanges minuend subtrahend) x ↔ InIntervals minuend x ∧
        ¬InIntervals subtrahend x :=
  ⟨uniteRanges_spec hm, (subtractRanges_spec hm hs).ordered, (subtractRanges_spec hm hs).covers⟩

theorem keyRangeSets_exact_four :
    Ordered (subtractRanges [((5 : ℕ), 9), (0, 6)] [(2, 3), (8, 8)]) :=
  (keyRangeSets_exact [(5, 9), (0, 6)] [(2, 3), (8, 8)] (by decide) (by decide)).2.1

end Ytsaurus.Flow
