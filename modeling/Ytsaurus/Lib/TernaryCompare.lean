/-
# Three-way comparison

The sign by which comparison functions tell that one value is less than, equal to or greater than
another. It determines the order, is odd, and is kept by strictly monotone maps; on pairs and lists
in lexicographic order the first entries that differ decide.
-/
import Mathlib

namespace Ytsaurus

variable {α β : Type} [LinearOrder α] [LinearOrder β]

/-- `TernaryCompare`. -/
def ternaryCompare (lhs rhs : α) : ℤ :=
  if lhs = rhs then 0 else if lhs < rhs then -1 else 1

theorem ternaryCompare_lt {a b : α} : ternaryCompare a b < 0 ↔ a < b := by
  unfold ternaryCompare
  split_ifs with h1 h2
  · simp [h1]
  · simp [h2]
  · simp [h2]

theorem ternaryCompare_le {a b : α} : ternaryCompare a b ≤ 0 ↔ a ≤ b := by
  unfold ternaryCompare
  split_ifs with h1 h2
  · simp [h1]
  · simp [h2.le]
  · simpa using lt_of_le_of_ne (not_lt.mp h2) (Ne.symm h1)

theorem ternaryCompare_neg (a b : α) : ternaryCompare a b = -ternaryCompare b a := by
  unfold ternaryCompare
  rcases lt_trichotomy a b with h | rfl | h
  · simp [h.ne, h.ne', h, h.not_gt]
  · simp
  · simp [h.ne, h.ne', h, h.not_gt]

theorem ternaryCompare_self (a : α) : ternaryCompare a a = 0 := if_pos rfl

theorem ternaryCompare_eq_zero {a b : α} : ternaryCompare a b = 0 ↔ a = b := by
  unfold ternaryCompare
  split_ifs with h1 h2 <;> simp [h1]

theorem ternaryCompare_map {f : α → β} (hf : StrictMono f) (a b : α) :
    ternaryCompare (f a) (f b) = ternaryCompare a b := by
  unfold ternaryCompare
  simp only [hf.injective.eq_iff, hf.lt_iff_lt]

theorem ternaryCompare_toLex (a b : α) (c d : β) : ternaryCompare (toLex (a, c)) (toLex (b, d)) =
    if a = b then ternaryCompare c d else ternaryCompare a b := by
  unfold ternaryCompare
  simp only [EmbeddingLike.apply_eq_iff_eq, Prod.mk.injEq, Prod.Lex.toLex_lt_toLex]
  by_cases h : a = b
  · simp [h]
  · simp [h]

theorem ternaryCompare_fst (a b : α) (c : β) :
    ternaryCompare (toLex (a, c)) (toLex (b, c)) = ternaryCompare a b := by
  rw [ternaryCompare_toLex, ternaryCompare_self]
  split_ifs with h
  · rw [h, ternaryCompare_self]
  · rfl

theorem ternaryCompare_snd (a : α) (c d : β) :
    ternaryCompare (toLex (a, c)) (toLex (a, d)) = ternaryCompare c d := by
  rw [ternaryCompare_toLex, if_pos rfl]

theorem ternaryCompare_cons (a b : α) (as bs : List α) : ternaryCompare (a :: as) (b :: bs) =
    if a = b then ternaryCompare as bs else ternaryCompare a b := by
  unfold ternaryCompare
  simp only [List.cons.injEq, List.cons_lt_cons_iff]
  by_cases h : a = b
  · simp only [h, true_and, lt_self_iff_false, false_or, ↓reduceIte]
    congr
  · simp [h]

end Ytsaurus
