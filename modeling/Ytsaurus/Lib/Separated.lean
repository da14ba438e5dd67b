/-
# Ranges with gaps between them

A list of non-empty half-open ranges each of which ends before the next one starts, so that no two
of them can be joined. Such a list is determined by the points it covers (`Separated.eq_of_covers`).
-/
import Mathlib.Tactic.Tauto
import Ytsaurus.Lib.Frontier

namespace Ytsaurus.Lib

open List

variable {κ : Type} [LinearOrder κ]

/-- Non-empty ranges that do not touch. -/
@[mk_iff]
structure Separated (set : List (κ × κ)) : Prop where
  nonempty : ∀ range ∈ set, range.1 < range.2
  gaps : set.Pairwise fun range next => range.2 < next.1

variable {l r : List (κ × κ)} {a b : κ × κ}

theorem separated_nil : Separated ([] : List (κ × κ)) := ⟨by simp, Pairwise.nil⟩

theorem separated_append : Separated (l ++ r) ↔
    Separated l ∧ Separated r ∧ ∀ a ∈ l, ∀ b ∈ r, a.2 < b.1 := by
  simp only [separated_iff, forall_mem_append, pairwise_append]
  tauto

theorem separated_cons : Separated (a :: l) ↔ a.1 < a.2 ∧ Separated l ∧ ∀ b ∈ l, a.2 < b.1 := by
  simp only [separated_iff, forall_mem_cons, pairwise_cons]
  tauto

theorem Separated.ordered (h : Separated l) : Ordered l := ⟨h.nonempty, h.gaps.imp le_of_lt⟩

theorem Separated.snd_le (h : Separated (a :: l)) (hf : a.1 = b.1)
    (hcov : ∀ x, InIntervals (b :: r) x → InIntervals (a :: l) x) : b.2 ≤ a.2 := by
  obtain ⟨ha, -, hal⟩ := separated_cons.mp h
  by_contra hlt
  rcases inIntervals_cons.mp (hcov a.2 ⟨b, by simp, hf ▸ ha.le, not_le.mp hlt⟩)
    with hx | ⟨c, hc, hcx⟩
  · exact lt_irrefl _ hx.2
  · exact absurd hcx.1 (not_le.mpr (hal c hc))

theorem Separated.snd_le_getLast {last m : κ × κ} (hl : Separated l)
    (hlast : l.getLast? = some last) (hm : m ∈ l) : m.2 ≤ last.2 := by
  obtain ⟨front, rfl⟩ := getLast?_eq_some_iff.mp hlast
  obtain ⟨-, hs, hg⟩ := separated_append.mp hl
  rcases mem_append.mp hm with hm | hm
  · exact ((hg m hm last (by simp)).trans (hs.nonempty last (by simp))).le
  · rw [mem_singleton.mp hm]

theorem Separated.inIntervals_tail {x : κ} (h : Separated (a :: l)) :
    InIntervals l x ↔ InIntervals (a :: l) x ∧ a.2 ≤ x := by
  obtain ⟨-, -, hal⟩ := ordered_cons.mp h.ordered
  rw [inIntervals_cons]
  refine ⟨fun hx => ⟨.inr hx, hal x hx⟩, ?_⟩
  rintro ⟨hx | hx, hle⟩
  · exact absurd hx.2 (not_lt.mpr hle)
  · exact hx

/-- Separated ranges are determined by the points they cover. -/
theorem Separated.eq_of_covers : ∀ {l r : List (κ × κ)}, Separated l → Separated r →
    (∀ x, InIntervals l x ↔ InIntervals r x) → l = r
  | [], [], _, _, _ => rfl
  | [], b :: r, _, hr, h => by
    obtain ⟨c, hc, -⟩ := (h b.1).mpr ⟨b, by simp, le_rfl, (separated_cons.mp hr).1⟩
    simp at hc
  | a :: l, [], hl, _, h => by
    obtain ⟨c, hc, -⟩ := (h a.1).mp ⟨a, by simp, le_rfl, (separated_cons.mp hl).1⟩
    simp at hc
  | a :: l, b :: r, hl, hr, h => by
    have hf : a.1 = b.1 := by
      apply le_antisymm
      · exact hl.ordered.head_le ((h b.1).mpr ⟨b, by simp, le_rfl, (separated_cons.mp hr).1⟩)
      · exact hr.ordered.head_le ((h a.1).mp ⟨a, by simp, le_rfl, (separated_cons.mp hl).1⟩)
    have hs : a.2 = b.2 := by
      apply le_antisymm
      · exact hr.snd_le hf.symm fun x => (h x).mp
      · exact hl.snd_le hf fun x => (h x).mpr
    have ht : l = r := by
      apply Separated.eq_of_covers (separated_cons.mp hl).2.1 (separated_cons.mp hr).2.1
      intro x
      rw [hl.inIntervals_tail, hr.inIntervals_tail, h x, hs]
    rw [ht, Prod.ext hf hs]

end Ytsaurus.Lib
