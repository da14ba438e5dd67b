/-
# Values with the same truncated quotients

Division that truncates towards zero changes its quotient by `d` at the
multiples of `d` going up from zero, and right after them going up to zero. So a
set of places that has the first value of a range and every multiple of every
divisor in the rest of it has a representative of each value from zero on, the
greatest place up to it, and of each value below zero that has a place between
itself and zero, the least one from it on (`represented_iff`). What is left are
the values after the last place of a range that ends below zero, and these
differ from the range's end in no quotient.
-/
import Mathlib.Data.Int.LeastGreatest
import Mathlib.Tactic.Ring
import Mathlib.Tactic.Linarith

namespace Ytsaurus.Lib

def SameQuotient (divisors : Set ℕ) (u v : ℤ) : Prop := ∀ d ∈ divisors, u.tdiv d = v.tdiv d

theorem tdiv_eq_of_nonneg {d : ℕ} {v u : ℤ} (hd : 0 < d) (hv : 0 ≤ v) (hvu : v ≤ u)
    (hno : ∀ m : ℤ, (d : ℤ) ∣ m → v < m → ¬m ≤ u) : u.tdiv d = v.tdiv d := by
  have hd' : (0 : ℤ) < d := by exact_mod_cast hd
  rw [Int.tdiv_eq_ediv_of_nonneg (hv.trans hvu), Int.tdiv_eq_ediv_of_nonneg hv]
  have hle : u / d * d ≤ v := by
    by_contra hlt
    exact hno _ (Int.dvd_mul_left _ _) (not_le.mp hlt) (Int.ediv_mul_le u hd'.ne')
  apply le_antisymm
  · exact Int.le_ediv_of_mul_le hd' hle
  · exact Int.ediv_le_ediv hd' hvu

theorem tdiv_eq_of_nonpos {d : ℕ} {v u : ℤ} (hd : 0 < d) (hv : v ≤ 0) (huv : u ≤ v)
    (hno : ∀ m : ℤ, (d : ℤ) ∣ m → u ≤ m → ¬m < v) : u.tdiv d = v.tdiv d := by
  have h : (-u).tdiv d = (-v).tdiv d := by
    refine tdiv_eq_of_nonneg hd (by omega) (by omega) fun m hm h1 h2 => ?_
    exact hno (-m) (Int.dvd_neg.mpr hm) (by omega) (by omega)
  rwa [Int.neg_tdiv, Int.neg_tdiv, neg_inj] at h

section Represented

variable {divisors : Set ℕ} {places : Set ℤ} {lo hi : ℤ}

theorem zero_mem_places {d : ℕ} (hd : d ∈ divisors)
    (hm : ∀ d ∈ divisors, ∀ m : ℤ, (d : ℤ) ∣ m → lo < m → m ≤ hi → m ∈ places) (hlo : lo < 0)
    (hhi : 0 ≤ hi) : (0 : ℤ) ∈ places := hm d hd 0 (dvd_zero _) hlo hhi

section

variable (hpos : ∀ d ∈ divisors, 0 < d) (hlo : lo ∈ places)
  (hmul : ∀ d ∈ divisors, ∀ m : ℤ, (d : ℤ) ∣ m → lo < m → m ≤ hi → m ∈ places)

include hpos hlo hmul

theorem represented_of_nonneg {u : ℤ} (hu : 0 ≤ u) (h1 : lo ≤ u) (h2 : u ≤ hi) :
    ∃ v ∈ places, SameQuotient divisors u v := by
  obtain ⟨v, ⟨hv, hle⟩, hg⟩ := Int.exists_greatest_of_bdd (P := fun v => v ∈ places ∧ v ≤ u)
    ⟨u, fun _ h => h.2⟩ ⟨lo, hlo, h1⟩
  have hlov : lo ≤ v := hg lo ⟨hlo, h1⟩
  refine ⟨v, hv, fun d hd => ?_⟩
  have hv0 : 0 ≤ v := by
    by_contra hn
    have := hg 0 ⟨zero_mem_places hd hmul (by omega) (by omega), hu⟩
    omega
  refine tdiv_eq_of_nonneg (hpos d hd) hv0 hle fun m hm hlt hmu => ?_
  have := hg m ⟨hmul d hd m hm (by omega) (by omega), hmu⟩
  omega

theorem represented_or_after (hb : ∀ v ∈ places, v ≤ hi) {u : ℤ} (hu : u < 0) (h1 : lo ≤ u) :
    (∃ v ∈ places, SameQuotient divisors u v) ∨ ∀ v ∈ places, v < u := by
  by_cases ha : ∃ v, v ∈ places ∧ u ≤ v
  · left
    obtain ⟨v, ⟨hv, hle⟩, hleast⟩ := Int.exists_least_of_bdd (P := fun v => v ∈ places ∧ u ≤ v)
      ⟨u, fun _ h => h.2⟩ ha
    refine ⟨v, hv, fun d hd => ?_⟩
    have hv0 : v ≤ 0 := by
      by_contra hgt
      have := hleast 0 ⟨zero_mem_places hd hmul (by omega) (by have := hb v hv; omega), hu.le⟩
      omega
    refine tdiv_eq_of_nonpos (hpos d hd) hv0 hle fun m hm hum hmv => ?_
    have hmem : m ∈ places := by
      obtain rfl | hlt := (h1.trans hum).eq_or_lt
      · exact hlo
      · exact hmul d hd m hm hlt (by have := hb v hv; omega)
    have := hleast m ⟨hmem, hum⟩
    omega
  · right
    intro v hv
    by_contra hge
    exact ha ⟨v, hv, not_lt.mp hge⟩

/-- Every value of the range has a representative exactly when its end has one
or is not below zero. -/
theorem represented_iff (hle : lo ≤ hi) (hb : ∀ v ∈ places, v ≤ hi) :
    (∀ u, lo ≤ u → u ≤ hi → ∃ v ∈ places, SameQuotient divisors u v) ↔
      0 ≤ hi ∨ ∃ v ∈ places, SameQuotient divisors hi v := by
  refine ⟨fun h => .inr (h hi hle le_rfl), fun he u h1 h2 => ?_⟩
  rcases le_or_gt 0 u with hu | hu
  · exact represented_of_nonneg hpos hlo hmul hu h1 h2
  rcases represented_or_after hpos hlo hmul hb hu h1 with hr | ha
  · exact hr
  by_cases hn : divisors = ∅
  · exact ⟨lo, hlo, by simp [SameQuotient, hn]⟩
  obtain ⟨d, hd⟩ := Set.nonempty_iff_ne_empty.mpr hn
  have hhi : hi < 0 := by
    by_contra hge
    have := ha 0 (zero_mem_places hd hmul (by omega) (by omega))
    omega
  -- past the last place there is no multiple, so nothing changes up to the end
  obtain ⟨v, hv, hs⟩ := he.resolve_left (not_le.mpr hhi)
  refine ⟨v, hv, fun d hd =>
    (tdiv_eq_of_nonpos (hpos d hd) hhi.le h2 fun m hm hum hmh => ?_).trans (hs d hd)⟩
  have hlou : lo < u := ha lo hlo
  have := ha m (hmul d hd m hm (by omega) hmh.le)
  omega

end

theorem eq_of_sameQuotient_of_dvd {d : ℕ} {v u : ℤ} (hd : 0 < d) (hvu : v ≤ u) (hu : u < 0)
    (hdvd : (d : ℤ) ∣ v) (hs : u.tdiv d = v.tdiv d) : v = u := by
  obtain ⟨k, rfl⟩ := hdvd
  have hd' : (0 : ℤ) < d := by exact_mod_cast hd
  rw [Int.mul_tdiv_cancel_left _ hd'.ne'] at hs
  apply le_antisymm hvu
  -- truncation moves up to zero
  have h : u ≤ u.tdiv d * d := by
    have hm : 0 ≤ (-u).tmod d := Int.tmod_nonneg _ (by omega)
    rw [Int.neg_tmod] at hm
    have hdef := Int.tdiv_mul_add_tmod u d
    linarith
  rw [hs] at h
  linarith [mul_comm (d : ℤ) k]

end Represented

end Ytsaurus.Lib
