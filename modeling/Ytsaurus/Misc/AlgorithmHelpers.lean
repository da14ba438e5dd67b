/-
# Binary and exponential search

`BinarySearch` and `ExponentialSearch` of `library/numeric/algorithm_helpers-inl.h`. The predicate
is evaluated in `Result`, so that an evaluation outside of the range shows. Neither search depends
on what it would be there, and on a range where the predicate is defined they are those of
`Lib.Search`.

`step` may wrap: the result does not depend on how far the exponential search jumps.
-/
import Ytsaurus.Lib.Search
import Ytsaurus.Lib.Result

namespace Ytsaurus.Misc

open Lib

/-- The loop of `BinarySearch` over the `count` positions from `begin`, and its last comparison. -/
def binarySearchLoop (pred : ℕ → Result Bool) (begin count : ℕ) : Result ℕ :=
  if 1 < count then do
    let half := count / 2
    let middle := begin + half
    if ← pred middle then binarySearchLoop pred middle (count - half)
    else binarySearchLoop pred begin (count - half)
  else if 0 < count then do
    if ← pred begin then return begin + 1 else return begin
  else return begin
termination_by count

def binarySearch (begin last : ℕ) (pred : ℕ → Result Bool) : Result ℕ :=
  binarySearchLoop pred begin (last - begin)

/-- The loop of `ExponentialSearch` and the search that follows it. -/
def exponentialSearchLoop (last : ℕ) (pred : ℕ → Result Bool) (begin next step : ℕ) : Result ℕ := do
  if ← pred next then
    if step < last - (next + 1) then
      exponentialSearchLoop last pred (next + 1) (next + 1 + step) (step * 3 % 2 ^ 64)
    else binarySearch (next + 1) last pred
  else binarySearch begin next pred
termination_by last - next

def exponentialSearch (begin last : ℕ) (pred : ℕ → Result Bool) : Result ℕ :=
  if begin = last then return begin else exponentialSearchLoop last pred begin begin 1

/-- A predicate that may only be evaluated in `[begin, last)`. -/
def evalWithin (begin last : ℕ) (pred : ℕ → Bool) (i : ℕ) : Result Bool :=
  if begin ≤ i ∧ i < last then return pred i else .error .undefined

variable {eval : ℕ → Result Bool} {pred : ℕ → Bool} {begin last : ℕ}

theorem binarySearchLoop_eq (first count : ℕ)
    (h : ∀ i, first ≤ i → i < first + count → eval i = .ok (pred i)) :
    binarySearchLoop eval first count = .ok (binarySearchFrom pred first count) := by
  rw [binarySearchLoop, binarySearchFrom]
  by_cases hc : 1 < count
  · rw [if_pos hc, if_pos hc]
    dsimp only
    rw [h _ (by omega) (by omega), ok_bind]
    split_ifs
    · exact binarySearchLoop_eq _ _ fun i hi hlt => h i (by omega) (by omega)
    · exact binarySearchLoop_eq _ _ fun i hi hlt => h i hi (by omega)
  · rw [if_neg hc, if_neg hc]
    by_cases hp : 0 < count
    · rw [if_pos hp, h _ le_rfl (by omega), ok_bind]
      cases pred first <;> simp [hp]
    · simp [hp]
termination_by count

theorem binarySearch_eq (h : ∀ i, begin ≤ i → i < last → eval i = .ok (pred i)) :
    binarySearch begin last eval = .ok (Lib.binarySearch begin last pred) :=
  binarySearchLoop_eq begin (last - begin) fun i hi hlt => h i hi (by omega)

/-- The loop invariant: the predicate holds at all positions before `first`. -/
theorem exponentialSearchLoop_spec (h : ∀ i, begin ≤ i → i < last → eval i = .ok (pred i))
    (hr : InitialRun pred begin last) (first next step : ℕ) (hbegin : begin ≤ first)
    (hn : first ≤ next)
    (hlast : next < last) (hbefore : ∀ i, begin ≤ i → i < first → pred i = true) :
    ∃ point, exponentialSearchLoop last eval first next step = .ok point ∧
      PartitionPoint pred begin last point := by
  rw [exponentialSearchLoop, h next (by omega) hlast, ok_bind]
  by_cases hp : pred next = true
  · rw [if_pos hp]
    have hbefore' : ∀ i, begin ≤ i → i < next + 1 → pred i = true :=
      fun i hi hlt => hr i next hi (by omega) hlast hp
    split_ifs with hstep
    · exact exponentialSearchLoop_spec h hr (next + 1) (next + 1 + step) _ (by omega) (by omega)
        (by omega) hbefore'
    · have hfind := binarySearch_spec (next + 1) last pred hlast (hr.mono (by omega) le_rfl)
      exact ⟨_, binarySearch_eq fun i hi =>
        h i (by omega), hfind.extend (by omega) le_rfl hbefore' (by omega)⟩
  · rw [if_neg hp]
    have hfind := binarySearch_spec first next pred hn (hr.mono hbegin hlast.le)
    refine ⟨_, binarySearch_eq fun i hi hlt => h i (by omega) (by omega),
      hfind.extend hbegin hlast.le hbefore ?_⟩
    exact fun i hi hlt => hr.fails (by omega) hi hlt (by simpa using hp)
termination_by last - next

/-- **Both searches return the partition point**, and they do so without an evaluation of the
predicate outside of the range. -/
theorem searches_partitionPoint (hle : begin ≤ last) (hr : InitialRun pred begin last) :
    (∃ point, binarySearch begin last (evalWithin begin last pred) = .ok point ∧
      PartitionPoint pred begin last point) ∧
    ∃ point, exponentialSearch begin last (evalWithin begin last pred) = .ok point ∧
      PartitionPoint pred begin last point := by
  have hin : ∀ i, begin ≤ i → i < last → evalWithin begin last pred i = .ok (pred i) :=
    fun i hi hlt => if_pos ⟨hi, hlt⟩
  refine ⟨⟨_, binarySearch_eq hin, binarySearch_spec begin last pred hle hr⟩, ?_⟩
  unfold exponentialSearch
  split_ifs with heq
  · subst heq
    exact ⟨begin, rfl, le_rfl, le_rfl, by omega, by omega⟩
  · exact exponentialSearchLoop_spec hin hr begin begin 1 le_rfl le_rfl (by omega) (by omega)

theorem searches_partitionPoint_six :
    (∃ point, binarySearch 2 9 (evalWithin 2 9 (· < 6)) = .ok point ∧
      PartitionPoint (· < 6) 2 9 point) ∧
    ∃ point, exponentialSearch 2 9 (evalWithin 2 9 (· < 6)) = .ok point ∧
      PartitionPoint (· < 6) 2 9 point :=
  searches_partitionPoint (by decide) fun i j _ hij _ hj => by
    simp only [decide_eq_true_eq] at hj ⊢
    exact hij.trans_lt hj

end Ytsaurus.Misc
