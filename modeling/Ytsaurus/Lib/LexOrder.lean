/-
# Initial parts in the lexicographic order

The first values of a list come no later than the list, cutting keeps the order, and the lists that
start with a given one are an interval: from it up to everything that is not cut back to it.

Key results: `take_le_self`, `take_le_take`, `le_of_startsWith`, `take_le_iff`,
`append_lt_append_left`, `startsWith_of_le_of_lt`.
-/
import Mathlib

namespace Ytsaurus.Lib

open List

variable {α : Type} [LinearOrder α]

theorem nil_le_list (l : List α) : [] ≤ l := not_lt.mp (not_lt_nil l)

variable {l r : List α}

theorem cons_le_iff {a b : α} : a :: l ≤ b :: r ↔ a < b ∨ a = b ∧ l ≤ r := by
  rw [le_iff_lt_or_eq, cons_lt_cons_iff, cons.injEq, le_iff_lt_or_eq (a := l),
    and_or_left, or_assoc]

theorem head_le_of_cons_le {a b : α} (h : a :: l ≤ b :: r) : a ≤ b :=
  (cons_le_iff.mp h).elim le_of_lt fun h => h.1.le

theorem take_le_take : ∀ {l r : List α} (n : ℕ), l ≤ r → l.take n ≤ r.take n
  | _, _, 0, _ => by simp
  | [], r, n + 1, _ => nil_le_list _
  | a :: l, [], n + 1, h => absurd (nil_lt_cons a l) (not_lt.mpr h)
  | a :: l, b :: r, n + 1, h =>
    cons_le_iff.mpr ((cons_le_iff.mp h).imp_right fun h => ⟨h.1, take_le_take n h.2⟩)

theorem take_le_self : ∀ (n : ℕ) (l : List α), l.take n ≤ l
  | 0, _ => nil_le_list _
  | _ + 1, [] => le_rfl
  | n + 1, a :: l => cons_le_cons a (take_le_self n l)

theorem le_of_startsWith (h : l <+: r) : l ≤ r :=
  prefix_iff_eq_take.mp h ▸ take_le_self l.length r

variable {n : ℕ}

omit [LinearOrder α] in
theorem take_of_startsWith (h : l <+: r) (hn : l.length = n) : r.take n = l :=
  hn ▸ (prefix_iff_eq_take.mp h).symm

theorem startsWith_of_take_le (hn : l.length = n) (hle : l ≤ r) (h : r.take n ≤ l) : l <+: r := by
  have hc : l ≤ r.take n := by
    calc l = l.take n := (take_of_length_le hn.le).symm
      _ ≤ r.take n := take_le_take n hle
  exact le_antisymm h hc ▸ take_prefix n r

theorem take_le_iff (hn : l.length = n) : r.take n ≤ l ↔ ∃ x, l <+: x ∧ r ≤ x := by
  constructor
  · intro h
    rcases le_total r l with hle | hle
    · exact ⟨l, prefix_refl l, hle⟩
    · exact ⟨r, startsWith_of_take_le hn hle h, le_rfl⟩
  · rintro ⟨x, hx, hr⟩
    calc r.take n ≤ x.take n := take_le_take n hr
      _ = l := take_of_startsWith hx hn

/-! ### Lists with a common initial part -/

theorem append_lt_append_left : ∀ (p : List α) {l r : List α}, p ++ l < p ++ r ↔ l < r
  | [], _, _ => Iff.rfl
  | a :: p, l, r => by
    rw [cons_append, cons_append, cons_lt_cons_iff]
    simp only [lt_irrefl, true_and, false_or]
    exact append_lt_append_left p

theorem append_le_append_left (p : List α) : p ++ l ≤ p ++ r ↔ l ≤ r := by
  rw [← not_lt, ← not_lt, append_lt_append_left]

theorem startsWith_of_le_of_lt : ∀ (p : List α) {l r x : List α}, p ++ l ≤ x → x < p ++ r → p <+: x
  | [], _, _, _, _, _ => nil_prefix
  | a :: p, l, r, [], hle, _ => absurd (nil_lt_cons a (p ++ l)) (not_lt.mpr hle)
  | a :: p, l, r, b :: x, hle, hlt => by
    rcases cons_lt_cons_iff.mp hlt with hba | ⟨rfl, ht⟩
    · exact absurd hba (head_le_of_cons_le hle).not_gt
    · have hle' : p ++ l ≤ x := ((cons_le_iff.mp hle).resolve_left (lt_irrefl _)).2
      exact cons_prefix_cons.mpr ⟨rfl, startsWith_of_le_of_lt p hle' ht⟩

end Ytsaurus.Lib
