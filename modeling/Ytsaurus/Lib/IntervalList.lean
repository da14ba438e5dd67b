/-
# Sorted lists of half-open intervals

A list of things with a lower and an upper end, each standing for the points
`p` with `lo ≤ p < hi`; `Covered` says that some interval of the list holds
the point and has a property. When the list is sorted, a sweep over one or two
lists looks at the first intervals only: the lemmas here say what a step of
such a sweep (intersection, union, complement) leaves for the rest.
-/
import Mathlib

namespace Ytsaurus.Lib.IntervalList

variable {ι β : Type} [LinearOrder β] (lo hi : ι → β)

/-- Every interval ends before the later ones start. -/
def Sorted (l : List ι) : Prop := l.Pairwise fun a b => hi a ≤ lo b

/-- Some interval of the list holds the point and has the property. -/
def Covered (l : List ι) (p : β) (Q : ι → Prop) : Prop := ∃ i ∈ l, (lo i ≤ p ∧ p < hi i) ∧ Q i

variable {lo hi} {a b : ι} {l r : List ι} {p last : β} {Q R : ι → Prop}

@[simp] theorem not_covered_nil : ¬Covered lo hi [] p Q := by simp [Covered]

theorem covered_cons :
    Covered lo hi (a :: l) p Q ↔ (lo a ≤ p ∧ p < hi a) ∧ Q a ∨ Covered lo hi l p Q := by
  simp [Covered]

theorem covered_append :
    Covered lo hi (l ++ r) p Q ↔ Covered lo hi l p Q ∨ Covered lo hi r p Q := by
  simp only [Covered, List.mem_append, or_and_right, exists_or]

theorem Covered.congr (h : ∀ i ∈ l, Q i ↔ R i) : Covered lo hi l p Q ↔ Covered lo hi l p R := by
  refine exists_congr fun i => and_congr_right fun hi => ?_
  rw [h i hi]

theorem sorted_of_isChain (hne : ∀ i ∈ l, lo i < hi i) (h : l.IsChain fun a b => hi a ≤ lo b) :
    Sorted lo hi l := by
  induction l with
  | nil => exact .nil
  | cons a l ih =>
    have hl := ih (fun i hi => hne i (List.mem_cons_of_mem _ hi)) h.tail
    refine List.pairwise_cons.mpr ⟨fun b hb => ?_, hl⟩
    cases l with
    | nil => simp at hb
    | cons c l =>
      have hac : hi a ≤ lo c := h.rel
      rcases List.mem_cons.mp hb with rfl | hb
      · exact hac
      · have hc : lo c < hi c := hne c (by simp)
        exact hac.trans (hc.le.trans ((List.pairwise_cons.mp hl).1 b hb))

theorem Sorted.isChain (h : Sorted lo hi l) : l.IsChain fun a b => hi a ≤ lo b :=
  List.Pairwise.isChain h

theorem Sorted.head_le (h : Sorted lo hi (a :: l)) (hb : b ∈ l) : hi a ≤ lo b :=
  (List.pairwise_cons.mp h).1 b hb

theorem Sorted.le_all (h : Sorted lo hi (a :: l)) (hp : p ≤ lo a) (ha : lo a ≤ hi a) :
    ∀ b ∈ a :: l, p ≤ lo b :=
  List.forall_mem_cons.mpr ⟨hp, fun _ hb => hp.trans (ha.trans (h.head_le hb))⟩

theorem Sorted.tail (h : Sorted lo hi (a :: l)) : Sorted lo hi l := (List.pairwise_cons.mp h).2

theorem Sorted.append (hl : Sorted lo hi l) (hr : Sorted lo hi r)
    (h : ∀ a ∈ l, ∀ b ∈ r, hi a ≤ lo b) : Sorted lo hi (l ++ r) :=
  List.pairwise_append.mpr ⟨hl, hr, h⟩

theorem Sorted.not_covered_tail (h : Sorted lo hi (a :: l)) (hp : p < hi a) :
    ¬Covered lo hi l p Q := by
  rintro ⟨b, hb, ⟨hle, -⟩, -⟩
  exact absurd hp ((h.head_le hb).trans hle).not_gt

theorem covered_drop (h : hi a ≤ p) : Covered lo hi (a :: l) p Q ↔ Covered lo hi l p Q := by
  simp [covered_cons, h.not_gt]

section

variable (hl : Sorted lo hi (a :: l)) (hr : Sorted lo hi (b :: r))

include hl hr

theorem inter_step (hab : hi a ≤ hi b) :
    Covered lo hi (a :: l) p Q ∧ Covered lo hi (b :: r) p R ↔
      (max (lo a) (lo b) ≤ p ∧ p < min (hi a) (hi b)) ∧ (Q a ∧ R b) ∨
        Covered lo hi l p Q ∧ Covered lo hi (b :: r) p R := by
  rcases lt_or_ge p (hi a) with hp | hp
  · have h1 : ¬Covered lo hi l p Q := hl.not_covered_tail hp
    have h2 : ¬Covered lo hi r p R := hr.not_covered_tail (hp.trans_le hab)
    simp only [covered_cons, h1, h2, or_false, false_and, max_le_iff, lt_min_iff, hp, hp.trans_le hab]
    tauto
  · simp [covered_drop hp, hp.not_gt]

theorem inter_step_right (hab : hi b ≤ hi a) :
    Covered lo hi (a :: l) p Q ∧ Covered lo hi (b :: r) p R ↔
      (max (lo a) (lo b) ≤ p ∧ p < min (hi a) (hi b)) ∧ (Q a ∧ R b) ∨
        Covered lo hi (a :: l) p Q ∧ Covered lo hi r p R := by
  rw [and_comm, inter_step hr hl hab, max_comm, min_comm, and_comm (a := R b),
    and_comm (a := Covered lo hi r p R)]

theorem inter_step_both (hab : hi a = hi b) :
    Covered lo hi (a :: l) p Q ∧ Covered lo hi (b :: r) p R ↔
      (max (lo a) (lo b) ≤ p ∧ p < min (hi a) (hi b)) ∧ (Q a ∧ R b) ∨ Covered lo hi l p Q ∧
        Covered lo hi r p R := by
  rw [inter_step hl hr hab.le]
  refine or_congr_right (and_congr_right fun hc => ?_)
  refine covered_drop (hab ▸ not_lt.mp fun hp => ?_)
  exact hl.not_covered_tail hp hc

end

/-- A step of a union sweep over two overlapping heads: what lies before both,
what lies in both, and what lies after the first end. -/
theorem union_step (last : β) (hl : Sorted lo hi (a :: l)) (hr : Sorted lo hi (b :: r))
    (hab : max (lo a) (lo b) < min (hi a) (hi b)) :
    last ≤ p ∧ (Covered lo hi (a :: l) p Q ∨ Covered lo hi (b :: r) p R) ↔
      (max last (min (lo a) (lo b)) ≤ p ∧ p < max (lo a) (lo b)) ∧
        (if lo a < lo b then Q a else R b) ∨
      (last ≤ p ∧ max (lo a) (lo b) ≤ p ∧ p < min (hi a) (hi b)) ∧ (Q a ∨ R b) ∨
      (last ≤ p ∧ min (hi a) (hi b) ≤ p) ∧
        (Covered lo hi (a :: l) p Q ∨ Covered lo hi (b :: r) p R) := by
  rcases lt_or_ge p (min (hi a) (hi b)) with hp | hp
  · obtain ⟨hpa, hpb⟩ := lt_min_iff.mp hp
    have h1 : ¬Covered lo hi l p Q := hl.not_covered_tail hpa
    have h2 : ¬Covered lo hi r p R := hr.not_covered_tail hpb
    simp only [covered_cons, h1, h2, or_false, hpa, hpb, and_true, hp, hp.not_ge, and_false, false_and]
    rcases lt_or_ge p (max (lo a) (lo b)) with hm | hm
    · -- at most the interval that starts first holds the point
      rcases lt_or_ge (lo a) (lo b) with hlt | hge
      · rw [max_eq_right hlt.le] at hm ⊢
        simp only [hm, hm.not_ge, min_eq_left hlt.le, hlt, ↓reduceIte, max_le_iff]
        tauto
      · rw [max_eq_left hge] at hm ⊢
        simp only [hm, hm.not_ge, min_eq_right hge, hge.not_gt, ↓reduceIte, max_le_iff]
        tauto
    · simp only [max_le_iff] at hm
      simp [hm.1, hm.2, hm.1.not_gt, hm.2.not_gt]
  · have hm : ¬p < max (lo a) (lo b) := (hab.le.trans hp).not_gt
    simp only [hm, hp, hp.not_gt, and_false, false_and, false_or, and_true]

theorem compl_step (hl : Sorted lo hi (a :: l)) (hlast : last ≤ lo a) (ha : lo a < hi a) :
    last ≤ p ∧ ¬Covered lo hi (a :: l) p Q ↔
      ((last ≤ p ∧ p < lo a) ∨ (lo a ≤ p ∧ p < hi a) ∧ ¬Q a) ∨ hi a ≤ p ∧ ¬Covered lo hi l p Q := by
  rcases lt_or_ge p (hi a) with hp | hp
  · have h1 : ¬Covered lo hi l p Q := hl.not_covered_tail hp
    rcases lt_or_ge p (lo a) with hlo | hlo
    · simp [covered_cons, h1, hp.not_ge, hlo, hlo.not_ge]
    · simp [covered_cons, h1, hp, hlo, hp.not_ge, hlo.not_gt, hlast.trans hlo]
  · simp [covered_drop hp, hp, hp.not_gt, (ha.le.trans hp).not_gt, hlast.trans (ha.le.trans hp)]

end Ytsaurus.Lib.IntervalList
