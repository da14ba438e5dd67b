/-
# Signed words

A signed word of `bits` bits holds an integer up to a multiple of `2 ^ bits`, so sums and
differences wrap around, and intermediate ones need not fit. It holds the integer itself iff that is
in its range.
-/
import Mathlib

namespace Ytsaurus.Lib

/-- What a signed word of `bits` bits holds of an integer. -/
def signedWord (bits : ℕ) (n : ℤ) : ℤ := n.bmod (2 ^ bits)

theorem signedWord_eq_self_iff {bits : ℕ} {n : ℤ} :
    signedWord bits n = n ↔ -2 ^ bits ≤ n * 2 ∧ n * 2 < 2 ^ bits := by
  have hpos : 0 < 2 ^ bits := Nat.two_pow_pos bits
  have hcast : ((2 ^ bits : ℕ) : ℤ) = 2 ^ bits := by push_cast; rfl
  constructor
  · intro h
    have hlow := Int.le_bmod (x := n) hpos
    have hhigh := Int.bmod_lt (x := n) hpos
    rw [← signedWord, h] at hlow hhigh
    omega
  · rintro ⟨hlow, hhigh⟩
    exact Int.bmod_eq_of_le_mul_two (by omega) (by omega)

theorem signedWord_eq_self {bits : ℕ} {n : ℤ} (hlow : -2 ^ bits ≤ n * 2)
    (hhigh : n * 2 < 2 ^ bits) : signedWord bits n = n :=
  signedWord_eq_self_iff.mpr ⟨hlow, hhigh⟩

@[simp] theorem signedWord_add_signedWord (bits : ℕ) (n m : ℤ) :
    signedWord bits (signedWord bits n + m) = signedWord bits (n + m) :=
  Int.bmod_add_bmod

@[simp] theorem signedWord_sub_signedWord (bits : ℕ) (n m : ℤ) :
    signedWord bits (signedWord bits n - m) = signedWord bits (n - m) :=
  Int.bmod_sub_bmod

end Ytsaurus.Lib
