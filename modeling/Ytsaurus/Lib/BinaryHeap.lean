/-
# Binary heaps in a vector

The heap of `core/misc/heap-inl.h`, least element first: the children of
position `i` are `2 i + 1` and `2 i + 2`. `siftDown` carries the value at a
position down a path of smallest children and puts it where it is less than
both; the positions on the path move up by one. So it permutes the vector, and
it restores the order at its position when everything below is in order
(`siftDown_heapFrom`). `makeHeap` does this from the last inner position to the
first, and `adjustHeapFront` after the front has changed.

Elements are compared by a key in a linear order.
-/
import Mathlib.Data.List.Basic
import Mathlib.Data.List.GetD
import Mathlib.Order.Basic
import Mathlib.Order.Lattice

namespace Ytsaurus.Lib

open List

variable {α κ : Type} [LinearOrder κ] (key : α → κ)

/-- The smaller child, the right one of two equals. -/
def smallerChild (value : α) (heap : List α) (left : ℕ) : ℕ :=
  if heap.length ≤ left + 1 then left
  else if key (heap.getD left value) < key (heap.getD (left + 1) value) then left else left + 1

variable {heap : List α}

theorem smallerChild_bounds (value : α) {left : ℕ} (h : left < heap.length) :
    left ≤ smallerChild key value heap left ∧ smallerChild key value heap left < heap.length := by
  unfold smallerChild
  split_ifs <;> omega

/-- The loop of `SiftDown`: `value` is in hand and the position `offset` is free. -/
def siftLoop (value : α) (heap : List α) (offset : ℕ) : List α :=
  if _h : heap.length ≤ 2 * offset + 1 then heap.set offset value
  else if key value < key (heap.getD (smallerChild key value heap (2 * offset + 1)) value)
    then heap.set offset value
  else
    siftLoop value (heap.set offset (heap.getD (smallerChild key value heap (2 * offset + 1)) value))
      (smallerChild key value heap (2 * offset + 1))
termination_by heap.length - offset
decreasing_by
  have := smallerChild_bounds key value (not_le.mp _h)
  rw [length_set]
  omega

def siftDown (heap : List α) (current : ℕ) : List α :=
  match heap[current]? with
  | some value => siftLoop key value heap current
  | none => heap

/-- The loop of `MakeHeap`, from the position before `current` to the first. -/
def makeHeapLoop : ℕ → List α → List α
  | 0, heap => heap
  | current + 1, heap => makeHeapLoop current (siftDown key heap current)

def makeHeap (heap : List α) : List α :=
  if 1 < heap.length then makeHeapLoop key (heap.length / 2) heap else heap

def adjustHeapFront (heap : List α) : List α :=
  if 1 < heap.length then siftDown key heap 0 else heap

/-! ### Permutations -/

theorem set_set_perm' {l : List α} {i j : ℕ} (hi : i < l.length) (hj : j < l.length) (hij : i ≠ j)
    (value : α) : ((l.set i l[j]).set j value).Perm (l.set i value) := by
  have hi' : i < (l.set i value).length := by simpa using hi
  have hj' : j < (l.set i value).length := by simpa using hj
  have h := set_set_perm hi' hj'
  rwa [set_set, getElem_set_ne hij, getElem_set_self] at h

theorem siftLoop_perm (value : α) (heap : List α) (offset : ℕ) (h : offset < heap.length) :
    (siftLoop key value heap offset).Perm (heap.set offset value) := by
  rw [siftLoop]
  split_ifs with hl hs
  · exact .refl _
  · exact .refl _
  · have hc := smallerChild_bounds key value (not_le.mp hl)
    have hg : heap.getD (smallerChild key value heap (2 * offset + 1)) value =
        heap.get ⟨smallerChild key value heap (2 * offset + 1), hc.2⟩ :=
      getD_eq_getElem _ _ hc.2
    have ih := siftLoop_perm value
      (heap.set offset (heap.getD (smallerChild key value heap (2 * offset + 1)) value))
      (smallerChild key value heap (2 * offset + 1)) (by simpa using hc.2)
    refine ih.trans ?_
    rw [hg]
    exact set_set_perm' h hc.2 (by omega) value
termination_by heap.length - offset
decreasing_by
  rw [length_set]
  omega

theorem siftDown_perm (heap : List α) (cur : ℕ) : (siftDown key heap cur).Perm heap := by
  unfold siftDown
  cases h : heap[cur]? with
  | none => exact .refl _
  | some value =>
    obtain ⟨hlt, rfl⟩ := List.getElem?_eq_some_iff.mp h
    have hp := siftLoop_perm key (heap.get ⟨cur, hlt⟩) heap cur hlt
    rwa [get_eq_getElem, set_getElem_self] at hp

theorem makeHeapLoop_perm : ∀ (cur : ℕ) (heap : List α), (makeHeapLoop key cur heap).Perm heap
  | 0, _ => .refl _
  | cur + 1, heap => (makeHeapLoop_perm cur _).trans (siftDown_perm key heap cur)

/-! ### Order -/

def IsChild (i j : ℕ) : Prop := j = 2 * i + 1 ∨ j = 2 * i + 2

/-- Every position from `start` on is at most its children. -/
def HeapFrom (start : ℕ) (heap : List α) : Prop :=
  ∀ i j a b, start ≤ i → IsChild i j → heap[i]? = some a → heap[j]? = some b → key a ≤ key b

/-- The order that the loop of `SiftDown` keeps: every position from `start` on
but `offset` is at most its children, and the parent of `offset` is at most the
children of `offset`. -/
structure Sifting (start offset : ℕ) (heap : List α) : Prop where
  other : ∀ i j a b, start ≤ i → i ≠ offset → IsChild i j → heap[i]? = some a → heap[j]? = some b →
    key a ≤ key b
  grand : ∀ i j a b, start ≤ i → IsChild i offset → IsChild offset j → heap[i]? = some a →
    heap[j]? = some b → key a ≤ key b

variable {key}

theorem smallerChild_isChild (value : α) (heap : List α) (offset : ℕ) :
    IsChild offset (smallerChild key value heap (2 * offset + 1)) := by
  unfold smallerChild IsChild
  split_ifs <;> omega

variable {value : α} {offset : ℕ}

theorem smallerChild_le {j : ℕ} {b : α} (hj : IsChild offset j) (hb : heap[j]? = some b) :
    key (heap.getD (smallerChild key value heap (2 * offset + 1)) value) ≤ key b := by
  obtain ⟨hlt, rfl⟩ := List.getElem?_eq_some_iff.mp hb
  unfold smallerChild
  rcases hj with rfl | rfl
  · split_ifs with h1 h2
    · rw [getD_eq_getElem _ _ hlt]
    · rw [getD_eq_getElem _ _ hlt]
    · rw [getD_eq_getElem _ _ hlt] at h2
      exact not_lt.mp h2
  · have hr : ¬heap.length ≤ 2 * offset + 1 + 1 := by omega
    split_ifs with h2
    · rw [getD_eq_getElem _ _ hlt] at h2
      exact h2.le
    · rw [getD_eq_getElem _ _ hlt]

theorem Sifting.done {start : ℕ} (hs : Sifting key start offset (heap.set offset value))
    (hle : ∀ j b, IsChild offset j → heap[j]? = some b → key value ≤ key b) :
    HeapFrom key start (heap.set offset value) := by
  intro i j a b hi hj ha hb
  by_cases hio : i = offset
  · subst hio
    have hne : i ≠ j := by rcases hj with rfl | rfl <;> omega
    rw [getElem?_set_ne hne] at hb
    obtain ⟨hlt, rfl⟩ := List.getElem?_eq_some_iff.mp ha
    rw [getElem_set_self]
    exact hle j b hj hb
  · exact hs.other i j a b hi hio hj ha hb

/-- The loop goes on: the smaller child moves up. -/
theorem Sifting.step {start child : ℕ} {small : α}
    (hs : Sifting key start offset (heap.set offset value))
    (hstart : start ≤ offset) (hc : IsChild offset child) (hg : heap[child]? = some small)
    (hm : ∀ j b, IsChild offset j → heap[j]? = some b → key small ≤ key b)
    (hle : key small ≤ key value) :
    Sifting key start child ((heap.set offset small).set child value) := by
  have hoc : offset ≠ child := by rcases hc with rfl | rfl <;> omega
  -- off the path nothing changes
  have hoff : ∀ i, i ≠ offset → i ≠ child →
      ((heap.set offset small).set child value)[i]? = (heap.set offset value)[i]? := by
    intro i h1 h2
    rw [getElem?_set_ne (Ne.symm h2), getElem?_set_ne (Ne.symm h1), getElem?_set_ne (Ne.symm h1)]
  have hold : ∀ i, i ≠ offset → (heap.set offset value)[i]? = heap[i]? :=
    fun i h => getElem?_set_ne (Ne.symm h)
  have hatO : ∀ a, ((heap.set offset small).set child value)[offset]? = some a → a = small := by
    intro a ha
    rw [getElem?_set_ne (Ne.symm hoc), getElem?_set] at ha
    split_ifs at ha <;> simp_all
  have hatC : ∀ a, ((heap.set offset small).set child value)[child]? = some a → a = value := by
    intro a ha
    rw [getElem?_set] at ha
    split_ifs at ha <;> simp_all
  constructor
  · intro i j a b hi hic hj ha hb
    by_cases hio : i = offset
    · subst hio
      obtain rfl := hatO a ha
      by_cases hjc : j = child
      · subst hjc
        rwa [hatC b hb]
      · have hji : j ≠ i := by rcases hj with rfl | rfl <;> omega
        rw [hoff j hji hjc, hold j hji] at hb
        exact hm j b hj hb
    · have hjc : j ≠ child := by
        rintro rfl
        unfold IsChild at hj hc
        omega
      rw [hoff i hio hic] at ha
      by_cases hjo : j = offset
      · subst hjo
        obtain rfl := hatO b hb
        exact hs.grand i child a b hi hj hc ha (by rw [hold child (Ne.symm hoc)]; exact hg)
      · rw [hoff j hjo hjc] at hb
        exact hs.other i j a b hi hio hj ha hb
  · intro i j a b hi hic hj ha hb
    have hio : i = offset := by unfold IsChild at hic hc; omega
    subst hio
    obtain rfl := hatO a ha
    have hjc : j ≠ child := by unfold IsChild at hj; omega
    have hji : j ≠ i := by unfold IsChild at hj hc; omega
    rw [hoff j hji hjc] at hb
    have hlt : i < child := by unfold IsChild at hc; omega
    exact hs.other child j a b (hstart.trans hlt.le) (Ne.symm hoc) hj
      (by rw [hold child (Ne.symm hoc)]; exact hg) hb

theorem siftLoop_heapFrom {start : ℕ} (value : α) (heap : List α)
    (offset : ℕ) (hstart : start ≤ offset) (hs : Sifting key start offset (heap.set offset value)) :
      HeapFrom key start (siftLoop key value heap offset) := by
  rw [siftLoop]
  split_ifs with hleft hstop
  · refine hs.done fun j b hj hb => ?_
    have hlt := (List.getElem?_eq_some_iff.mp hb).1
    unfold IsChild at hj
    omega
  · exact hs.done fun j b hj hb => hstop.le.trans (smallerChild_le hj hb)
  · have hc := smallerChild_bounds key value (not_le.mp hleft)
    have hg := getD_eq_getElem heap value hc.2
    have hn := hs.step hstart (smallerChild_isChild value heap offset)
      (by rw [hg]; exact getElem?_eq_getElem hc.2) (fun j b hj hb => smallerChild_le hj hb)
        (not_lt.mp hstop)
    exact siftLoop_heapFrom value _ _ (by omega) hn
termination_by heap.length - offset
decreasing_by
  rw [length_set]
  omega

theorem siftDown_heapFrom {cur : ℕ} (h : HeapFrom key (cur + 1) heap) :
    HeapFrom key cur (siftDown key heap cur) := by
  unfold siftDown
  cases hc : heap[cur]? with
  | none =>
    intro i j a b hi hj ha hb
    obtain rfl | hlt := hi.eq_or_lt
    · rw [hc] at ha
      cases ha
    · exact h i j a b hlt hj ha hb
  | some value =>
    obtain ⟨hlt, rfl⟩ := List.getElem?_eq_some_iff.mp hc
    refine siftLoop_heapFrom _ heap cur le_rfl ?_
    rw [set_getElem_self]
    refine ⟨fun i j a b hi hne => h i j a b (by omega), fun i j a b hi hic => ?_⟩
    unfold IsChild at hic
    omega

theorem makeHeapLoop_heapFrom : ∀ (cur : ℕ) {heap : List α}, HeapFrom key cur heap →
    HeapFrom key 0 (makeHeapLoop key cur heap)
  | 0, _, h => h
  | cur + 1, _, h => makeHeapLoop_heapFrom cur (siftDown_heapFrom h)

theorem heapFrom_half (heap : List α) : HeapFrom key (heap.length / 2) heap := by
  intro i j a b hi hj _ hb
  have hlt := (List.getElem?_eq_some_iff.mp hb).1
  unfold IsChild at hj
  omega

variable (key) in
theorem makeHeap_spec (heap : List α) : (makeHeap key heap).Perm heap ∧
    HeapFrom key 0 (makeHeap key heap) := by
  unfold makeHeap
  split_ifs with h
  · exact ⟨makeHeapLoop_perm key _ heap, makeHeapLoop_heapFrom _ (heapFrom_half heap)⟩
  · have hz : heap.length / 2 = 0 := by omega
    exact ⟨List.Perm.refl _, hz ▸ heapFrom_half heap⟩

variable {top : α} {rest : List α}

theorem HeapFrom.replace_head {top' : α} (h : HeapFrom key 0 (top :: rest)) :
    HeapFrom key 1 (top' :: rest) := by
  intro i j a b hi hj ha hb
  obtain ⟨i, rfl⟩ := Nat.exists_eq_add_of_le' hi
  obtain ⟨j, rfl⟩ : ∃ j', j = j' + 1 := ⟨j - 1, by unfold IsChild at hj; omega⟩
  exact h (i + 1) (j + 1) a b (Nat.zero_le _) hj ha hb

theorem adjustHeapFront_spec (top' : α) (h : HeapFrom key 0 (top :: rest)) :
    (adjustHeapFront key (top' :: rest)).Perm (top' :: rest) ∧
      HeapFrom key 0 (adjustHeapFront key (top' :: rest)) := by
  unfold adjustHeapFront
  split_ifs with hl
  · exact ⟨siftDown_perm key _ 0, siftDown_heapFrom h.replace_head⟩
  · have hz : (top' :: rest).length / 2 = 0 := by omega
    exact ⟨List.Perm.refl _, hz ▸ heapFrom_half _⟩

theorem HeapFrom.head_le {top : α} {rest : List α} (h : HeapFrom key 0 (top :: rest)) :
    ∀ (i : ℕ) (b : α), (top :: rest)[i]? = some b → key top ≤ key b
  | 0, b, hb => by
    obtain rfl : top = b := by simpa using hb
    exact le_rfl
  | i + 1, b, hb => by
    have hlt := (List.getElem?_eq_some_iff.mp hb).1
    obtain ⟨a, ha⟩ : ∃ a, (top :: rest)[i / 2]? = some a := ⟨_, List.getElem?_eq_getElem (by omega)⟩
    have hc : IsChild (i / 2) (i + 1) := by unfold IsChild; omega
    exact (h.head_le (i / 2) a ha).trans (h _ _ a b (Nat.zero_le _) hc ha hb)

theorem HeapFrom.head_le_of_mem {b : α} (h : HeapFrom key 0 (top :: rest))
    (hb : b ∈ top :: rest) : key top ≤ key b := by
  obtain ⟨i, hi⟩ := mem_iff_getElem?.mp hb
  exact h.head_le i b hi

end Ytsaurus.Lib
