/-
# Partition-point searches

Binary and exponential search over positions `[first, last)`: both return the first position at
which a predicate stops holding, provided it holds on an initial part of the positions only.

Key results:
- `binarySearch_spec`, `exponentialSearch_spec`  — both searches find the partition point
-/
import Mathlib

namespace Ytsaurus.Lib

/-- `point` ends the initial run of `pred` on `[first, last)`. -/
structure PartitionPoint (pred : ℕ → Bool) (first last point : ℕ) : Prop where
  le_point : first ≤ point
  point_le : point ≤ last
  holds_before : ∀ i, first ≤ i → i < point → pred i = true
  fails_from : ∀ i, point ≤ i → i < last → pred i = false

theorem PartitionPoint.holds_iff {pred : ℕ → Bool} {first last point i : ℕ}
    (h : PartitionPoint pred first last point)
    (hf : first ≤ i) (hl : i < last) : pred i = true ↔ i < point := by
  refine ⟨fun hp => ?_, h.holds_before i hf⟩
  by_contra hge
  cases hp.symm.trans (h.fails_from i (by omega) hl)

/-- Where `pred` holds it holds at every earlier position of `[first, last)`. -/
def InitialRun (pred : ℕ → Bool) (first last : ℕ) : Prop :=
  ∀ i j, first ≤ i → i ≤ j → j < last → pred j = true → pred i = true

variable {pred : ℕ → Bool} {first last : ℕ}

theorem InitialRun.mono {first' last' : ℕ} (h : InitialRun pred first last) (hf : first ≤ first')
    (hl : last' ≤ last) : InitialRun pred first' last' :=
  fun i j hi hij hj => h i j (by omega) hij (by omega)

theorem InitialRun.fails {i j : ℕ} (h : InitialRun pred first last)
    (hi : first ≤ i) (hij : i ≤ j) (hj : j < last) (hp : pred i = false) : pred j = false := by
  by_contra hne
  have := h i j hi hij hj (by simpa using hne)
  simp [hp] at this

/-! ### Binary search -/

/-- The loop of the search over the `count` positions from `first`. -/
def binarySearchFrom (pred : ℕ → Bool) (first count : ℕ) : ℕ :=
  if 1 < count then
    let half := count / 2
    let middle := first + half
    if pred middle then binarySearchFrom pred middle (count - half)
    else binarySearchFrom pred first (count - half)
  else if 0 < count && pred first then first + 1 else first
termination_by count

def binarySearch (first last : ℕ) (pred : ℕ → Bool) : ℕ :=
  binarySearchFrom pred first (last - first)

/-- The loop invariant: everything before `first` holds, everything past the count fails. -/
theorem binarySearchFrom_spec (pred : ℕ → Bool) (begin last : ℕ) (hr : InitialRun pred begin last)
    (first count : ℕ) (hbegin : begin ≤ first) (hlast : first + count ≤ last)
    (hbefore : ∀ i, begin ≤ i → i < first → pred i = true)
    (ha : ∀ i, first + count ≤ i → i < last → pred i = false) :
    PartitionPoint pred begin last (binarySearchFrom pred first count) := by
  fun_induction binarySearchFrom pred first count with
  | case1 first count hc half middle hm ih =>
    apply ih (by omega) (by omega)
    · intro i hi hlt
      exact hr i middle hi (by omega) (by omega) hm
    · intro i hi hlt
      exact ha i (by omega) hlt
  | case2 first count hc half middle hm ih =>
    apply ih hbegin (by omega) hbefore
    intro i hi hlt
    -- the positions dropped lie past the middle, where the predicate already fails
    exact hr.fails (i := middle) (by omega) (by omega) hlt (by simpa using hm)
  | case3 first count hc hs =>
    simp only [Bool.and_eq_true, decide_eq_true_eq] at hs
    refine ⟨by omega, by omega, ?_, fun i hi hlt => ha i (by omega) hlt⟩
    intro i hi hlt
    by_cases heq : i = first
    · exact heq ▸ hs.2
    · exact hbefore i hi (by omega)
  | case4 first count hc hs =>
    simp only [Bool.and_eq_true, decide_eq_true_eq, not_and, Bool.not_eq_true] at hs
    refine ⟨hbegin, by omega, hbefore, ?_⟩
    intro i hi hlt
    by_cases hp : 0 < count
    · exact hr.fails (i := first) hbegin hi hlt (hs hp)
    · exact ha i (by omega) hlt

theorem binarySearch_spec (first last : ℕ) (pred : ℕ → Bool) (hle : first ≤ last)
    (hr : InitialRun pred first last) : PartitionPoint pred first last (binarySearch first last pred) :=
  binarySearchFrom_spec pred first last hr first (last - first) (by omega) (by omega)
    (fun i hi hlt => by omega) (fun i hi hlt => by omega)

/-! ### Exponential search -/

/-- Gallops while the predicate holds at `next`; all positions before `first` are known to hold. -/
def exponentialSearchFrom (last : ℕ) (pred : ℕ → Bool) (first next step : ℕ) : ℕ :=
  if next < last ∧ pred next then
    if step < last - (next + 1) then
      exponentialSearchFrom last pred (next + 1) (next + 1 + step) (step * 3)
    else binarySearch (next + 1) last pred
  else binarySearch first next pred
termination_by last - next

def exponentialSearch (first last : ℕ) (pred : ℕ → Bool) : ℕ :=
  if first = last then first else exponentialSearchFrom last pred first first 1

theorem le_binarySearchFrom (pred : ℕ → Bool) (first count : ℕ) :
    first ≤ binarySearchFrom pred first count := by
  fun_induction binarySearchFrom pred first count with
  | case1 first count hc half middle hm ih => omega
  | case2 first count hc half middle hm ih => exact ih
  | case3 first count hc hs => omega
  | case4 first count hc hs => exact Nat.le_refl first

theorem le_exponentialSearchFrom (last : ℕ) (pred : ℕ → Bool) (first next step : ℕ)
    (h : first ≤ next) : first ≤ exponentialSearchFrom last pred first next step := by
  fun_induction exponentialSearchFrom last pred first next step with
  | case1 first next step hgo hstep ih => exact Nat.le_trans (by omega) (ih (by omega))
  | case2 first next step hgo hstep =>
    have := le_binarySearchFrom pred (next + 1) (last - (next + 1))
    unfold binarySearch
    omega
  | case3 first next step hstop => exact le_binarySearchFrom pred first (next - first)

theorem le_exponentialSearch (first last : ℕ) (pred : ℕ → Bool) :
    first ≤ exponentialSearch first last pred := by
  unfold exponentialSearch
  split_ifs
  · exact Nat.le_refl first
  · exact le_exponentialSearchFrom last pred first first 1 (Nat.le_refl first)

theorem PartitionPoint.extend {begin middle p : ℕ} (hp : PartitionPoint pred first middle p)
    (hbegin : begin ≤ first)
    (hlast : middle ≤ last) (hbefore : ∀ i, begin ≤ i → i < first → pred i = true)
    (ha : ∀ i, middle ≤ i → i < last → pred i = false) : PartitionPoint pred begin last p := by
  refine ⟨Nat.le_trans hbegin hp.le_point, Nat.le_trans hp.point_le hlast, ?_, ?_⟩
  · intro i hi hlt
    by_cases h : i < first
    · exact hbefore i hi h
    · exact hp.holds_before i (by omega) hlt
  · intro i hi hlt
    by_cases h : i < middle
    · exact hp.fails_from i hi h
    · exact ha i (by omega) hlt

theorem exponentialSearchFrom_spec (begin last : ℕ) (pred : ℕ → Bool)
    (hr : InitialRun pred begin last)
    (first next step : ℕ) (hbegin : begin ≤ first) (hn : first ≤ next) (hlast : next < last)
    (hbefore : ∀ i, begin ≤ i → i < first → pred i = true) :
    PartitionPoint pred begin last (exponentialSearchFrom last pred first next step) := by
  fun_induction exponentialSearchFrom last pred first next step with
  | case1 first next step hgo hstep ih =>
    apply ih (by omega) (by omega) (by omega)
    intro i hi hlt
    exact hr i next hi (by omega) hlast hgo.2
  | case2 first next step hgo hstep =>
    have hp := binarySearch_spec (next + 1) last pred hlast (hr.mono (by omega) (Nat.le_refl last))
    refine hp.extend (by omega) (Nat.le_refl last) ?_ (fun i hi hlt => by omega)
    intro i hi hlt
    exact hr i next hi (by omega) hlast hgo.2
  | case3 first next step hstop =>
    have hp := binarySearch_spec first next pred hn (hr.mono hbegin (Nat.le_of_lt hlast))
    refine hp.extend hbegin (Nat.le_of_lt hlast) hbefore ?_
    intro i hi hlt
    exact hr.fails (i := next) (by omega) hi hlt (by simpa [hlast] using hstop)

theorem exponentialSearch_spec (first last : ℕ) (pred : ℕ → Bool) (hle : first ≤ last)
    (hr : InitialRun pred first last) :
      PartitionPoint pred first last (exponentialSearch first last pred) := by
  unfold exponentialSearch
  by_cases heq : first = last
  · simp only [heq, if_true]
    exact ⟨Nat.le_refl last, Nat.le_refl last, fun i hi hlt => by omega, fun i hi hlt => by omega⟩
  · simp only [heq, if_false]
    exact exponentialSearchFrom_spec first last pred hr first first 1 (Nat.le_refl first)
      (Nat.le_refl first) (by omega) (fun i hi hlt => by omega)

/-! ### Linear search -/

section

variable {β κ : Type} [LinearOrder κ] {f : β → κ} {bound : κ} {l : List β}

omit [LinearOrder κ] in
/-- What `dropWhile` leaves of a list comes after an element that stops it. -/
theorem exists_break {R : β → β → Prop} {p : β → Bool} : ∀ {l : List β}, l.Pairwise R → ∀ {e : β},
    e ∈ l.dropWhile p → ∃ e0 ∈ l, p e0 = false ∧ (e0 = e ∨ R e0 e)
  | x :: l, hs, e, he => by
    obtain ⟨hx, hl⟩ := List.pairwise_cons.mp hs
    by_cases hp : p x = true
    · rw [List.dropWhile_cons_of_pos hp] at he
      obtain ⟨e0, hm, h⟩ := exists_break hl he
      exact ⟨e0, List.mem_cons_of_mem x hm, h⟩
    · rw [List.dropWhile_cons_of_neg hp] at he
      refine ⟨x, List.mem_cons_self, by simpa using hp, ?_⟩
      rcases List.mem_cons.mp he with rfl | he
      · exact .inl rfl
      · exact .inr (hx e he)

theorem le_of_mem_dropWhile (h : l.Pairwise fun a b => f a ≤ f b) :
    ∀ b ∈ l.dropWhile (fun b => decide (f b < bound)), bound ≤ f b := by
  intro b hb
  obtain ⟨a, -, hs, rfl | hle⟩ := exists_break h hb
  · simpa using hs
  · exact le_trans (by simpa using hs) hle

theorem lt_of_mem_dropWhile (h : l.Pairwise fun a b => f a ≤ f b) :
    ∀ b ∈ l.dropWhile (fun b => decide (f b ≤ bound)), bound < f b := by
  intro b hb
  obtain ⟨a, -, hs, rfl | hle⟩ := exists_break h hb
  · simpa using hs
  · exact lt_of_lt_of_le (by simpa using hs) hle

end

theorem lt_of_getElem? {β : Type} {l : List β} {b : β} {i : ℕ} (h : l[i]? = some b) :
    i < l.length :=
  (List.getElem?_eq_some_iff.mp h).1

theorem lookup_eq_some_iff_mem {κ ν : Type} [DecidableEq κ] {v : ν} {k : κ} :
    ∀ {map : List (κ × ν)}, (map.map Prod.fst).Nodup → (map.lookup k = some v ↔ (k, v) ∈ map)
  | [], _ => by simp
  | (k', v') :: map, h => by
    rw [List.map_cons, List.nodup_cons] at h
    rw [List.lookup_cons, List.mem_cons, Prod.mk.injEq]
    by_cases hk : k = k'
    · subst hk
      simp only [BEq.rfl, Option.some.injEq, true_and]
      constructor
      · intro hv
        exact .inl hv.symm
      · intro hv
        rcases hv with hv | hv
        · exact hv.symm
        · exact absurd (List.mem_map.mpr ⟨_, hv, rfl⟩) h.1
    · simp only [beq_false_of_ne hk, hk, false_and, false_or]
      exact lookup_eq_some_iff_mem h.2

end Ytsaurus.Lib
