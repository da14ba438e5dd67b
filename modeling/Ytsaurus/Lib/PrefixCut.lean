/-
# Cuts of a space of sequences

Sequences are compared position by position, each position with a comparator
of its own (a sort order of a column may be reversed); a comparator returns an
integer and only its sign counts. A cut is a place between sequences: right
before or right after all sequences that start with a given list. Cuts lie on
a line (`compareCut_neg`, `compareCut_trans`), and a sequence that lies below
a cut lies below every later one (`below_mono`).
-/
import Mathlib

namespace Ytsaurus.Lib

/-- A three-way comparison by sign: antisymmetric as an integer, and "not
greater" is transitive. -/
structure SignCmp {α : Type} (cmp : α → α → ℤ) : Prop where
  neg : ∀ a b, cmp a b = -cmp b a
  trans : ∀ a b c, cmp a b ≤ 0 → cmp b c ≤ 0 → cmp a c ≤ 0

namespace SignCmp

variable {α : Type} {cmp : α → α → ℤ} (h : SignCmp cmp)

include h

theorem self (a : α) : cmp a a = 0 := by
  have := h.neg a a
  omega

theorem lt_of_le_of_lt {a b c : α} (hab : cmp a b ≤ 0) (hbc : cmp b c < 0) : cmp a c < 0 := by
  by_contra hc
  have h1 := h.neg a c
  have h2 := h.trans c a b (by omega) hab
  have h3 := h.neg b c
  omega

theorem lt_of_lt_of_le {a b c : α} (hab : cmp a b < 0) (hbc : cmp b c ≤ 0) : cmp a c < 0 := by
  by_contra hc
  have h1 := h.neg a c
  have h2 := h.trans b c a hbc (by omega)
  have h3 := h.neg a b
  omega

theorem eq_trans {a b c : α} (hab : cmp a b = 0) (hbc : cmp b c = 0) : cmp a c = 0 := by
  have h1 := h.trans a b c (by omega) (by omega)
  have h2 := h.trans c b a (by have := h.neg b c; omega) (by have := h.neg a b; omega)
  have h3 := h.neg a c
  omega

theorem reverse : SignCmp fun a b => -cmp a b where
  neg a b := by rw [h.neg a b]
  trans a b c hab hbc := by
    have h1 := h.neg a b
    have h2 := h.neg b c
    have h3 := h.neg a c
    have := h.trans c b a (by omega) (by omega)
    omega

end SignCmp

section

variable {α : Type} (cmp : ℕ → α → α → ℤ)

/-- Compares the cuts `(xs, a)` and `(ys, b)` from position `i` on: `a` says
that the cut is after the sequences that start with `xs`. -/
def compareCut : ℕ → List α → Bool → List α → Bool → ℤ
  | _, [], a, [], b => (a.toInt : ℤ) - b.toInt
  | _, [], a, _ :: _, _ => if a then 1 else -1
  | _, _ :: _, _, [], b => if b then -1 else 1
  | i, x :: xs, a, y :: ys, b =>
    if cmp i x y ≠ 0 then cmp i x y else compareCut (i + 1) xs a ys b

/-- The sequence `ks` lies below the cut `(xs, a)`. -/
def Below : ℕ → List α → List α → Bool → Prop
  | i, k :: ks, x :: xs, a => cmp i k x < 0 ∨ cmp i k x = 0 ∧ Below (i + 1) ks xs a
  | _, _, [], a => a = true
  | _, [], _ :: _, _ => True

variable {cmp} (h : ∀ i, SignCmp (cmp i))

include h

theorem compareCut_neg : ∀ (i : ℕ) (xs : List α) (a : Bool) (ys : List α) (b : Bool),
    compareCut cmp i xs a ys b = -compareCut cmp i ys b xs a
  | _, [], a, [], b => by simp [compareCut]
  | _, [], a, _ :: _, b => by cases a <;> simp [compareCut]
  | _, _ :: _, a, [], b => by cases b <;> simp [compareCut]
  | i, x :: xs, a, y :: ys, b => by
    have ih := compareCut_neg (i + 1) xs a ys b
    have hxy := (h i).neg x y
    simp only [compareCut]
    split_ifs <;> omega

theorem compareCut_trans : ∀ (i : ℕ) (xs : List α) (a : Bool) (ys : List α) (b : Bool) (zs : List α)
    (c : Bool), compareCut cmp i xs a ys b ≤ 0 → compareCut cmp i ys b zs c ≤ 0 →
    compareCut cmp i xs a zs c ≤ 0
  | _, [], a, [], b, [], c => by cases a <;> cases b <;> cases c <;> simp [compareCut]
  | _, [], a, [], b, _ :: _, c => by cases a <;> cases b <;> simp [compareCut]
  | _, [], a, _ :: _, b, [], c => by cases a <;> cases c <;> simp [compareCut]
  | _, _ :: _, a, [], b, [], c => by cases b <;> cases c <;> simp [compareCut]
  | _, [], a, _ :: _, b, _ :: _, c => by cases a <;> simp [compareCut]
  | _, _ :: _, a, _ :: _, b, [], c => by cases c <;> simp [compareCut]
  | _, _ :: _, a, [], b, _ :: _, c => by cases b <;> simp [compareCut]
  | i, x :: xs, a, y :: ys, b, z :: zs, c => by
    have ih := compareCut_trans (i + 1) xs a ys b zs c
    simp only [compareCut]
    intro hxy hyz
    by_cases h1 : cmp i x y = 0
    · by_cases h2 : cmp i y z = 0
      · have h3 := (h i).eq_trans h1 h2
        simp only [h1, h2, h3, ne_eq, not_true_eq_false, ↓reduceIte] at hxy hyz ⊢
        exact ih hxy hyz
      · have h3 : cmp i x z < 0 := (h i).lt_of_le_of_lt h1.le (by simp [h2] at hyz; omega)
        omega
    · have h2 : cmp i x y < 0 := by simp [h1] at hxy; omega
      have h3 : cmp i y z ≤ 0 := by split_ifs at hyz <;> omega
      have h4 : cmp i x z < 0 := (h i).lt_of_lt_of_le h2 h3
      omega

omit h in
theorem compareCut_eq_zero (heq : ∀ i x y, cmp i x y = 0 → x = y) :
    ∀ (i : ℕ) (xs : List α) (a : Bool) (ys : List α)
    (b : Bool), compareCut cmp i xs a ys b = 0 → xs = ys ∧ a = b
  | _, [], a, [], b => by cases a <;> cases b <;> simp [compareCut]
  | _, [], a, _ :: _, b => by cases a <;> simp [compareCut]
  | _, _ :: _, a, [], b => by cases b <;> simp [compareCut]
  | i, x :: xs, a, y :: ys, b => by
    simp only [compareCut]
    intro h0
    split_ifs at h0 with hxy
    · exact absurd h0 hxy
    · obtain ⟨rfl, rfl⟩ := compareCut_eq_zero heq (i + 1) xs a ys b h0
      exact ⟨by rw [heq i x y (not_not.mp hxy)], rfl⟩

theorem startsWith_of_between (heq : ∀ i x y, cmp i x y = 0 → x = y) :
    ∀ (i : ℕ) (xs : List α) (a a' : Bool) (ys : List α) (b : Bool), compareCut cmp i xs a ys b ≤ 0 →
    compareCut cmp i ys b xs a' ≤ 0 → xs <+: ys
  | _, [], _, _, _, _, _, _ => List.nil_prefix
  | _, _ :: _, a, a', [], b, hle, hge => by cases b <;> simp [compareCut] at hle hge
  | i, x :: xs, a, a', y :: ys, b, hle, hge => by
    simp only [compareCut] at hle hge
    have hn := (h i).neg x y
    by_cases hxy : cmp i x y = 0
    · rw [if_neg (not_not.mpr hxy)] at hle
      rw [if_neg (not_not.mpr (by omega))] at hge
      obtain rfl := heq i x y hxy
      exact List.cons_prefix_cons.mpr ⟨rfl, startsWith_of_between heq (i + 1) xs a a' ys b hle hge⟩
    · rw [if_pos hxy] at hle
      omega

theorem below_mono : ∀ (i : ℕ) (ks xs : List α) (a : Bool) (ys : List α) (b : Bool),
    xs.length ≤ ks.length → ys.length ≤ ks.length → compareCut cmp i xs a ys b ≤ 0 →
      Below cmp i ks xs a → Below cmp i ks ys b
  | _, ks, [], a, [], b, _, _ => by
    cases ks <;> cases a <;> cases b <;> simp [compareCut, Below]
  | _, ks, [], a, _ :: _, b, _, _ => by
    cases ks <;> cases a <;> simp [compareCut, Below]
  | _, ks, _ :: _, a, [], b, _, _ => by
    cases ks <;> cases b <;> simp [compareCut, Below]
  | i, k :: ks, x :: xs, a, y :: ys, b, hx, hy => by
    have ih := below_mono (i + 1) ks xs a ys b (by simpa using hx) (by simpa using hy)
    simp only [compareCut, Below]
    intro hxy hk
    by_cases h1 : cmp i x y = 0
    · rw [if_neg (by simpa using h1)] at hxy
      rcases hk with hk | ⟨hk, hks⟩
      · exact .inl ((h i).lt_of_lt_of_le hk h1.le)
      · exact .inr ⟨(h i).eq_trans hk h1, ih hxy hks⟩
    · rw [if_pos h1] at hxy
      left
      rcases hk with hk | ⟨hk, -⟩
      · exact (h i).lt_of_lt_of_le hk hxy
      · exact (h i).lt_of_le_of_lt hk.le (by omega)

end

end Ytsaurus.Lib
