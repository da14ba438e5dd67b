/-
# Exponential histories

`AppendToExponentialHistory` of `flow/library/cpp/misc/exponential_history-inl.h` appends an item to
a history and merges neighbours whose span is small against their age. Whatever it merges, every
element stays the fold of a stretch of the items appended so far (`Summarizes`), and the number of
elements is logarithmic in the time that the history covers (`exponentialHistory_logarithmic`).

The loop of the source compacts the vector in place: `current` is the element at `last`, `previous`
the one before it, and the elements after the first two are read in order. Times are 64-bit words,
so the product that is compared wraps around.
-/
import Mathlib.Data.List.Basic
import Mathlib.Data.List.Induction
import Mathlib.Tactic.Linarith

namespace Ytsaurus.Flow

section Generic

variable {T : Type}

/-- How the elements are read and merged. -/
structure HistoryOps (T : Type) where
  getTime : T → ℕ
  merge : T → T → T

/-- The loop of `AppendToExponentialHistory` over the elements that are yet to be read. -/
def thinLoop (ops : HistoryOps T) (thinningFactor now : ℕ) (previous current : T) : List T → List T
  | [] => [current]
  | newer :: rest =>
    if (ops.getTime newer - ops.getTime previous) * thinningFactor % 2 ^ 64 ≤
        now - ops.getTime newer then
      thinLoop ops thinningFactor now previous (ops.merge current newer) rest
    else current :: thinLoop ops thinningFactor now current newer rest

/-- The merging of a history whose newest element was just appended. -/
def thinHistory (ops : HistoryOps T) (thinningFactor now : ℕ) : List T → List T
  | anchor :: first :: rest => anchor :: thinLoop ops thinningFactor now anchor first rest
  | history => history

def appendToExponentialHistory (ops : HistoryOps T) (thinningFactor : ℕ) (history : List T)
    (item : T) : List T :=
  if (history ++ [item]).length < 3 then history ++ [item]
  else thinHistory ops thinningFactor (ops.getTime item) (history ++ [item])

/-! ### Elements as folds of items -/

/-- An element that stands for a stretch of items. -/
inductive FoldsTo (merge : T → T → T) : List T → T → Prop
  | single (item : T) : FoldsTo merge [item] item
  | merge {older newer : List T} {a b : T} : FoldsTo merge older a → FoldsTo merge newer b →
      FoldsTo merge (older ++ newer) (merge a b)

/-- Elements that stand for consecutive stretches of the items. -/
inductive Summarizes (merge : T → T → T) : List T → List T → Prop
  | nil : Summarizes merge [] []
  | cons {stretch items elements : List T} {element : T} : FoldsTo merge stretch element →
      Summarizes merge items elements → Summarizes merge (stretch ++ items) (element :: elements)

variable {ops : HistoryOps T} {thinningFactor now : ℕ}

theorem Summarizes.concat {items elems : List T} (h : Summarizes ops.merge items elems) (item : T) :
    Summarizes ops.merge (items ++ [item]) (elems ++ [item]) := by
  induction h with
  | nil => simpa using Summarizes.cons (FoldsTo.single item) (.nil (T := T))
  | cons hf _ ih =>
    rw [List.append_assoc, List.cons_append]
    exact .cons hf ih

theorem summarizes_thin : ∀ {items elems stretch : List T} {prev cur : T},
    FoldsTo ops.merge stretch cur → Summarizes ops.merge items elems →
    Summarizes ops.merge (stretch ++ items) (thinLoop ops thinningFactor now prev cur elems)
  | _, [], stretch, prev, cur, hf, h => by
    cases h
    exact .cons hf .nil
  | _, newer :: rest, stretch, prev, cur, hf, h => by
    cases h with
    | cons hn hr =>
      rw [thinLoop]
      split_ifs
      · rw [← List.append_assoc]
        exact summarizes_thin (.merge hf hn) hr
      · exact .cons hf (summarizes_thin hn hr)

theorem summarizes_append {items history : List T}
    (h : Summarizes ops.merge items history) (item : T) : Summarizes ops.merge (items ++ [item])
      (appendToExponentialHistory ops thinningFactor history item) := by
  have hc := h.concat item
  unfold appendToExponentialHistory
  split_ifs
  · exact hc
  · generalize history ++ [item] = elements at hc
    generalize items ++ [item] = all at hc
    match elements, hc with
    | [], hc | [_], hc => exact hc
    | anchor :: first :: rest, .cons ha (.cons hf hr) => exact .cons ha (summarizes_thin hf hr)

theorem head?_appendToExponentialHistory (history : List T) (item : T) :
    (appendToExponentialHistory ops thinningFactor history item).head? = (history ++ [item]).head? := by
  unfold appendToExponentialHistory
  split_ifs
  · rfl
  · generalize history ++ [item] = elements
    match elements with
    | [] | [_] | _ :: _ :: _ => rfl

/-! ### The size of a history -/

open List

def exponentialHistory (ops : HistoryOps T) (thinningFactor : ℕ) (samples : List T) : List T :=
  samples.foldl (appendToExponentialHistory ops thinningFactor) []

/-- Ages shrink by the factor `K / (K + 1)`, or more, from an element to the one after the next. -/
def AgesShrink (K now : ℕ) : List ℕ → Prop
  | t :: u :: v :: ts => now - v < (v - t) * K ∧ AgesShrink K now (u :: v :: ts)
  | _ => True

theorem AgesShrink.pow_lt {K now : ℕ} (hK : 1 ≤ K) :
    ∀ {m t : ℕ} {ts : List ℕ}, AgesShrink K now (t :: ts) →
    (t :: ts).Pairwise (· < ·) → (∀ u ∈ ts, u ≤ now) → 2 * m + 1 ≤ ts.length →
    (K + 1) ^ m ≤ K ^ m * (now - t) ∧ (1 ≤ m → (K + 1) ^ m < K ^ m * (now - t))
  | 0, t, u :: ts, _, hp, hn, _ => by
    have htu := rel_of_pairwise_cons hp mem_cons_self
    have hun := hn u mem_cons_self
    simp only [pow_zero, one_mul]
    omega
  | m + 1, t, u :: v :: w :: ts, h, hp, hn, hm => by
    obtain ⟨a, rfl⟩ := Nat.exists_eq_add_of_le (hn v (by simp))
    obtain ⟨b, rfl⟩ := Nat.exists_eq_add_of_lt
      (rel_of_pairwise_cons hp (by simp : v ∈ u :: v :: w :: ts))
    have hs : (K + 1) * a < K * (b + 1 + a) := by
      have hv := h.1
      rw [Nat.add_sub_cancel_left, Nat.add_assoc t, Nat.add_sub_cancel_left] at hv
      linarith
    have ih := (h.2.2.pow_lt (m := m) hK hp.of_cons.of_cons (fun x hx => hn x (by simp_all))
      (by simp only [length_cons] at hm ⊢; omega)).1
    have hl : (K + 1) ^ (m + 1) < K ^ (m + 1) * (t + b + 1 + a - t) := calc
      (K + 1) ^ (m + 1) ≤ K ^ m * ((K + 1) * a) := by
        rw [pow_succ, mul_left_comm, mul_comm]
        exact Nat.mul_le_mul_left _ (by simpa using ih)
      _ < K ^ m * (K * (b + 1 + a)) := Nat.mul_lt_mul_of_pos_left hs (pow_pos hK m)
      _ = K ^ (m + 1) * (t + b + 1 + a - t) := by rw [pow_succ, mul_assoc]; congr 2; omega
    exact ⟨hl.le, fun _ => hl⟩

section Times

variable (ht : ∀ older newer, ops.getTime (ops.merge older newer) = ops.getTime newer)
include ht

theorem times_thin_sublist : ∀ (prev cur : T) (rest : List T),
    ((thinLoop ops thinningFactor now prev cur rest).map ops.getTime).Sublist
      ((cur :: rest).map ops.getTime)
  | _, _, [] => .refl _
  | prev, cur, newer :: rest => by
    rw [thinLoop]
    split_ifs
    · have h := times_thin_sublist prev (ops.merge cur newer) rest
      rw [map_cons, ht] at h
      exact h.cons _
    · exact (times_thin_sublist cur newer rest).cons_cons _

/-- The newest element is never merged, and what is kept is old only where its span is large: later
merges into an element make its span larger and its age smaller. -/
theorem agesShrink_thin {K : ℕ} (item : T) (hK : 1 ≤ K) : ∀ (prev cur : T) (rest : List T),
    ((prev :: cur :: (rest ++ [item])).map ops.getTime).Pairwise (· < ·) →
    (ops.getTime item - ops.getTime prev) * K < 2 ^ 64 →
    (thinLoop ops K (ops.getTime item) prev cur (rest ++ [item])).getLast? = some item ∧ ∃ t ts,
      (thinLoop ops K (ops.getTime item) prev cur (rest ++ [item])).map ops.getTime = t :: ts ∧
        ops.getTime cur ≤ t ∧ AgesShrink K (ops.getTime item) (ops.getTime prev :: t :: ts)
  | prev, cur, [], hp, hb => by
    have hlt : ops.getTime prev < ops.getTime item := rel_of_pairwise_cons hp (by simp)
    have hpos : 0 < (ops.getTime item - ops.getTime prev) * K := Nat.mul_pos (by omega) hK
    rw [nil_append, thinLoop, Nat.mod_eq_of_lt hb, if_neg (by omega)]
    exact ⟨rfl, _, _, rfl, le_rfl, by simpa using hpos, trivial⟩
  | prev, cur, newer :: rest, hp, hb => by
    simp only [map_cons, cons_append, pairwise_cons, mem_cons, forall_eq_or_imp] at hp
    obtain ⟨⟨hpc, hpn, hpr⟩, ⟨hcn, hcr⟩, hnr, hr⟩ := hp
    have hni := hnr (ops.getTime item) (by simp)
    rw [cons_append, thinLoop]
    split_ifs with hc
    · obtain ⟨hl, t, ts, e, hle, hs⟩ :=
        agesShrink_thin item hK prev (ops.merge cur newer) rest (by simp_all) hb
      exact ⟨hl, t, ts, e, by rw [ht] at hle; omega, hs⟩
    · have hlt : (ops.getTime newer - ops.getTime prev) * K ≤
          (ops.getTime item - ops.getTime prev) * K :=
        Nat.mul_le_mul_right K (by omega)
      rw [Nat.mod_eq_of_lt (by omega)] at hc
      obtain ⟨hl, t, ts, e, hle, hs⟩ := agesShrink_thin item hK cur newer rest (by simp_all)
        ((Nat.mul_le_mul_right K (by omega)).trans_lt hb)
      have := Nat.mul_le_mul_right K (Nat.sub_le_sub_right hle (ops.getTime prev))
      exact ⟨by rw [getLast?_cons, hl, Option.getD_some], _, t :: ts, by rw [map_cons, e], le_rfl,
        by omega, hs⟩

theorem append_spec {K : ℕ} {history : List T} {item : T} (hK : 1 ≤ K)
    (hp : ((history ++ [item]).map ops.getTime).Pairwise (· < ·))
    (hb : ∀ first ∈ history, (ops.getTime item - ops.getTime first) * K < 2 ^ 64) :
    ((appendToExponentialHistory ops K history item).map ops.getTime).Sublist
      ((history ++ [item]).map ops.getTime) ∧
    (appendToExponentialHistory ops K history item).getLast? = some item ∧ AgesShrink K
      (ops.getTime item) ((appendToExponentialHistory ops K history item).map ops.getTime) := by
  unfold appendToExponentialHistory
  match history with
  | [] | [first] => simp [AgesShrink]
  | anchor :: first :: rest =>
    rw [if_neg (by simp)]
    obtain ⟨hl, t, ts, e, -, hs⟩ :=
      agesShrink_thin ht item hK anchor first rest hp (hb anchor mem_cons_self)
    exact ⟨(times_thin_sublist ht ..).cons_cons _, by rw [cons_append, cons_append, thinHistory,
      getLast?_cons, hl, Option.getD_some], by rwa [← e] at hs⟩

section Run

variable {K : ℕ} (hK : 1 ≤ K) (samples : List T) (hp : (samples.map ops.getTime).Pairwise (· < ·))
  (hb : ∀ a ∈ samples, ∀ b ∈ samples, (ops.getTime b - ops.getTime a) * K < 2 ^ 64)
include hK hp hb

theorem history_spec :
    ((exponentialHistory ops K samples).map ops.getTime).Sublist (samples.map ops.getTime) ∧
    (exponentialHistory ops K samples).head? = samples.head? ∧
    ∀ item ∈ samples.getLast?, (exponentialHistory ops K samples).getLast? = some item ∧
      AgesShrink K (ops.getTime item) ((exponentialHistory ops K samples).map ops.getTime) := by
  induction samples using reverseRecOn with
  | nil => simp [exponentialHistory]
  | append_singleton samples item ih =>
    obtain ⟨hs, hh, -⟩ := ih (hp.sublist (by simp)) fun a ha b hb' =>
      hb a (by simp [ha]) b (by simp [hb'])
    rw [exponentialHistory, foldl_append, foldl_cons, foldl_nil, ← exponentialHistory]
    generalize exponentialHistory ops K samples = history at hs hh
    have hs' : ((history ++ [item]).map ops.getTime).Sublist ((samples ++ [item]).map ops.getTime) := by
      simpa using hs
    obtain ⟨ha, hl, hg⟩ := append_spec ht hK (hp.sublist hs') fun first hf => by
      obtain ⟨a, ha, e⟩ := mem_map.mp (hs.subset (mem_map_of_mem hf))
      exact e ▸ hb a (by simp [ha]) item (by simp)
    refine ⟨ha.trans hs', ?_, fun x hx => ?_⟩
    · rw [head?_appendToExponentialHistory, head?_append, hh, head?_append]
    · obtain rfl : item = x := by simpa using hx
      exact ⟨hl, hg⟩

/-- **A thinned history stays logarithmic.** Ages shrink geometrically, so the number of elements is
bounded by the logarithm of the time that the history covers. -/
theorem exponentialHistory_logarithmic :
    (exponentialHistory ops K samples).head? = samples.head? ∧
    (exponentialHistory ops K samples).getLast? = samples.getLast? ∧
    ((exponentialHistory ops K samples).map ops.getTime).Pairwise (· < ·) ∧
    ∀ m ≥ 1, 2 * m + 2 ≤ (exponentialHistory ops K samples).length →
      ∀ first ∈ samples.head?, ∀ newest ∈ samples.getLast?,
        (K + 1) ^ m < K ^ m * (ops.getTime newest - ops.getTime first) := by
  obtain ⟨hs, hh, hl⟩ := history_spec ht hK samples hp hb
  generalize exponentialHistory ops K samples = history at *
  refine ⟨hh, ?_, hp.sublist hs, fun m hm hn first hf newest hw => ?_⟩
  · cases h : samples.getLast? with
    | none => simp_all
    | some item => exact (hl item h).1
  · cases history with
    | nil => simp at hn
    | cons x history =>
      obtain rfl : x = first := Option.some_inj.mp (hh.trans hf)
      obtain ⟨older, rfl⟩ := getLast?_eq_some_iff.mp hw
      refine ((hl newest hw).2.pow_lt hK (hp.sublist hs) (fun u hu => ?_) (by simpa using hn)).2 hm
      have hu' := hs.subset (mem_cons_of_mem _ hu)
      rw [map_append] at hp hu'
      rcases mem_append.mp hu' with ho | ho
      · exact ((pairwise_append.mp hp).2.2 u ho _ mem_cons_self).le
      · exact (mem_singleton.mp ho).le

end Run

end Times

end Generic

theorem exponentialHistory_logarithmic_steady : (2 + 1) ^ 1 < 2 ^ 1 * (5 - 1) :=
  (@exponentialHistory_logarithmic ℕ ⟨id, fun _ newer => newer⟩ (fun _ _ => rfl) 2 (by decide)
    [1, 2, 3, 4, 5] (by decide) (by decide)).2.2.2 1 le_rfl (by decide) 1 rfl 5 rfl

end Ytsaurus.Flow
