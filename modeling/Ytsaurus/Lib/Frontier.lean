/-
# Sweeping a set up to a frontier

A list of half-open intervals is built from left to right so that up to a frontier it covers
exactly the points of a given set. The rules say how the frontier moves: over a gap of the set
(`CoversTo.advance`), or over a stretch that new intervals cover (`CoversTo.append`).
-/
import Mathlib.Data.List.Pairwise
import Mathlib.Order.MinMax

namespace Ytsaurus.Lib

open List

variable {κ : Type} [LinearOrder κ] {S : κ → Prop} {out pieces : List (κ × κ)}
  {frontier front frontier' : κ}

def InIntervals (intervals : List (κ × κ)) (x : κ) : Prop := ∃ i ∈ intervals, i.1 ≤ x ∧ x < i.2

variable {l r : List (κ × κ)}

theorem inIntervals_append {x : κ} :
    InIntervals (l ++ r) x ↔ InIntervals l x ∨ InIntervals r x := by
  simp only [InIntervals, mem_append, or_and_right, exists_or]

variable {l : List (κ × κ)}

theorem inIntervals_cons {i : κ × κ} {x : κ} :
    InIntervals (i :: l) x ↔ (i.1 ≤ x ∧ x < i.2) ∨ InIntervals l x := by
  simp [InIntervals]

/-- Two intervals that meet are their hull. -/
theorem inIntervals_hull {i j : κ × κ} {x : κ} (hle : i.1 ≤ j.1) (hmeet : j.1 ≤ i.2) :
    InIntervals ((i.1, max i.2 j.2) :: l) x ↔ InIntervals (i :: j :: l) x := by
  rw [inIntervals_cons, inIntervals_cons, inIntervals_cons, ← or_assoc]
  refine or_congr_left ⟨fun ⟨h1, h2⟩ => ?_, ?_⟩
  · rcases lt_or_ge x i.2 with hx | hx
    · exact .inl ⟨h1, hx⟩
    · exact .inr ⟨hmeet.trans hx, (lt_max_iff.mp h2).resolve_left (not_lt.mpr hx)⟩
  · rintro (⟨h1, h2⟩ | ⟨h1, h2⟩)
    · exact ⟨h1, h2.trans_le (le_max_left _ _)⟩
    · exact ⟨hle.trans h1, h2.trans_le (le_max_right _ _)⟩

theorem inIntervals_singleton {i : κ × κ} {x : κ} : InIntervals [i] x ↔ i.1 ≤ x ∧ x < i.2 := by
  simp [InIntervals]

@[mk_iff]
structure Ordered (intervals : List (κ × κ)) : Prop where
  nonempty : ∀ i ∈ intervals, i.1 < i.2
  ordered : intervals.Pairwise fun i j => i.2 ≤ j.1

theorem ordered_nil : Ordered ([] : List (κ × κ)) := ⟨by simp, Pairwise.nil⟩

theorem ordered_singleton {l u : κ} (h : l < u) : Ordered [(l, u)] :=
  ⟨by simpa using h, pairwise_singleton _ _⟩

theorem Ordered.append (hl : Ordered l) (hr : Ordered r) (h : ∀ i ∈ l, ∀ j ∈ r, i.2 ≤ j.1) :
    Ordered (l ++ r) :=
  ⟨forall_mem_append.mpr ⟨hl.nonempty, hr.nonempty⟩,
    pairwise_append.mpr ⟨hl.ordered, hr.ordered, h⟩⟩

theorem Ordered.right (h : Ordered (l ++ r)) : Ordered r :=
  ⟨fun i hi => h.nonempty i (mem_append_right l hi), (pairwise_append.mp h.ordered).2.1⟩

theorem ordered_cons {c : κ × κ} :
    Ordered (c :: l) ↔ c.1 < c.2 ∧ Ordered l ∧ ∀ x, InIntervals l x → c.2 ≤ x := by
  constructor
  · intro h
    refine ⟨h.nonempty c mem_cons_self, h.right (l := [c]), ?_⟩
    rintro x ⟨i, hi, hx⟩
    exact ((pairwise_cons.mp h.ordered).1 i hi).trans hx.1
  · rintro ⟨hc, hl, hle⟩
    refine (ordered_iff _).mpr
      ⟨forall_mem_cons.mpr ⟨hc, hl.nonempty⟩, pairwise_cons.mpr ⟨fun j hj => ?_, hl.ordered⟩⟩
    exact hle j.1 ⟨j, hj, le_rfl, hl.nonempty j hj⟩

theorem Ordered.head_le {c : κ × κ} {x : κ} (h : Ordered (c :: l)) (hx : InIntervals (c :: l) x) :
    c.1 ≤ x := by
  obtain ⟨hc, -, hl⟩ := ordered_cons.mp h
  rcases inIntervals_cons.mp hx with hx | hx
  · exact hx.1
  · exact hc.le.trans (hl x hx)

variable {r r' : κ × κ}

section

variable (h : Ordered out)

include h

theorem Ordered.le_of_lt {i j : ℕ} (hij : i < j)
    (hi : out[i]? = some r) (hj : out[j]? = some r') : r.2 ≤ r'.1 := by
  obtain ⟨hi', rfl⟩ := List.getElem?_eq_some_iff.mp hi
  obtain ⟨hj', rfl⟩ := List.getElem?_eq_some_iff.mp hj
  exact pairwise_iff_getElem.mp h.ordered i j hi' hj' hij

theorem Ordered.lt {i : ℕ} {r : κ × κ} (hi : out[i]? = some r) : r.1 < r.2 :=
  h.nonempty r (mem_of_getElem? hi)

theorem Ordered.snd_le {i j : ℕ} (hij : i ≤ j)
    (hi : out[i]? = some r) (hj : out[j]? = some r') : r.2 ≤ r'.2 := by
  by_cases heq : i = j
  · subst heq
    rw [Option.mem_unique hi hj]
  · exact (h.le_of_lt (by omega) hi hj).trans (h.lt hj).le

theorem Ordered.fst_le {i j : ℕ} (hij : i ≤ j)
    (hi : out[i]? = some r) (hj : out[j]? = some r') : r.1 ≤ r'.1 := by
  rcases hij.lt_or_eq with hlt | rfl
  · exact (h.lt hi).le.trans (h.le_of_lt hlt hi hj)
  · rw [Option.mem_unique hi hj]

theorem Ordered.disjoint : out.Pairwise fun i j =>
    ∀ x, ¬((i.1 ≤ x ∧ x < i.2) ∧ j.1 ≤ x ∧ x < j.2) :=
  h.ordered.imp fun hij x hx => absurd (hx.1.2.trans_le (hij.trans hx.2.1)) (lt_irrefl x)

end

/-- Up to the frontier the intervals cover the set, and they do not go beyond. -/
structure CoversTo (S : κ → Prop) (out : List (κ × κ)) (frontier : κ) : Prop where
  ordered : Ordered out
  below : ∀ i ∈ out, i.2 ≤ frontier
  covers : ∀ x, InIntervals out x ↔ S x ∧ x < frontier

theorem coversTo_nil (h : ∀ x, S x → front ≤ x) : CoversTo S [] front where
  ordered := ordered_nil
  below := by simp
  covers x := by
    constructor
    · rintro ⟨i, hi, -⟩
      exact absurd hi not_mem_nil
    · rintro ⟨hx, hlt⟩
      exact absurd (h x hx) (not_le.mpr hlt)

theorem CoversTo.advance (h : CoversTo S out front) (hle : front ≤ frontier')
    (hgap : ∀ x, front ≤ x → x < frontier' → ¬S x) : CoversTo S out frontier' where
  ordered := h.ordered
  below i hi := (h.below i hi).trans hle
  covers x := by
    rw [h.covers x]
    constructor
    · exact fun hx => ⟨hx.1, hx.2.trans_le hle⟩
    · exact fun hx => ⟨hx.1, not_le.mp fun hge => hgap x hge hx.2 hx.1⟩

theorem CoversTo.append (h : CoversTo S out front) (hle : front ≤ frontier') (hp : Ordered pieces)
    (hfrom : ∀ i ∈ pieces, front ≤ i.1) (hto : ∀ i ∈ pieces, i.2 ≤ frontier')
    (hc : ∀ x, front ≤ x → x < frontier' → (InIntervals pieces x ↔ S x)) :
    CoversTo S (out ++ pieces) frontier' where
  ordered := h.ordered.append hp fun i hi j hj => (h.below i hi).trans (hfrom j hj)
  below i hi := (mem_append.mp hi).elim (fun hi => (h.below i hi).trans hle) (hto i)
  covers x := by
    rw [inIntervals_append, h.covers x]
    constructor
    · rintro (hx | ⟨i, hi, hx⟩)
      · exact ⟨hx.1, hx.2.trans_le hle⟩
      · have hfrontier := hx.2.trans_le (hto i hi)
        exact ⟨(hc x ((hfrom i hi).trans hx.1) hfrontier).mp ⟨i, hi, hx⟩, hfrontier⟩
    · rintro ⟨hS, hlt⟩
      by_cases hx : x < front
      · exact .inl ⟨hS, hx⟩
      · exact .inr ((hc x (not_lt.mp hx) hlt).mpr hS)

end Ytsaurus.Lib
