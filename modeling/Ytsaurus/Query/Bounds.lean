/-
# Lists of bounds

`TBound` of `query/base/key_trie.h` and the functions of `key_trie.cpp` on lists of bounds. A list
holds the ends of intervals of one column, an opening and a closing one in turns; unions and
intersections merge two lists and count how many intervals are open.

A point cuts the ends into those that it has passed and those ahead of it (`Bound.passed`). It lies
inside a list when the last end passed was an opening one (`Inside`), and every operation is
specified by the points inside its result.
-/
import Ytsaurus.TableClient.Value
import Ytsaurus.Lib.Search

namespace Ytsaurus.Query

open List TableClient Lib

variable {α : Type}

structure Bound (α : Type) where
  value : Value α
  included : Bool
  deriving DecidableEq, Repr

/-! ### The operations -/

section Operations

variable [LinearOrder α]

/-- The rank of `CompareBound`: `(< x) < (>= x) < (<= x) < (> x)`. -/
def boundRank (direction included : Bool) : ℤ :=
  (if included then -1 else 2) * (if direction then 1 else -1)

def compareBound (lhs rhs : Bound α) (lhsDir rhsDir : Bool) : ℤ :=
  let result := compareRowValues lhs.value rhs.value
  if result = 0 then boundRank lhsDir lhs.included - boundRank rhsDir rhs.included else result

/-- The ends of a list with their directions, the first one of direction `isOpen`. -/
def directed : Bool → List (Bound α) → List (Bound α × Bool)
  | _, [] => []
  | isOpen, bound :: bounds => (bound, isOpen) :: directed (!isOpen) bounds

/-- `MergeBounds`: the calls of its callback. -/
def mergeBounds (firstIsOpen secondIsOpen : Bool) : List (Bound α) → List (Bound α) →
    List (Bound α × Bool)
  | first :: lhs, second :: rhs =>
    if compareBound first second firstIsOpen secondIsOpen < 0 then
      (first, firstIsOpen) :: mergeBounds (!firstIsOpen) secondIsOpen lhs (second :: rhs)
    else (second, secondIsOpen) :: mergeBounds firstIsOpen (!secondIsOpen) (first :: lhs) rhs
  | lhs, [] => directed firstIsOpen lhs
  | [], rhs => directed secondIsOpen rhs
termination_by lhs rhs => lhs.length + rhs.length

/-- What the callbacks of `UniteBounds` and `IntersectBounds` capture. -/
structure Sweep (α : Type) where
  cover : ℤ
  result : List (Bound α)
  resultIsOpen : Bool

/-- The callback: ends between `level` and `level + 1` open intervals are kept. -/
def Sweep.step (level : ℤ) (sweep : Sweep α) (event : Bound α × Bool) : Sweep α :=
  let (bound, isOpen) := event
  let seen := if isOpen then sweep.cover else sweep.cover - 1
  let cover := if isOpen then sweep.cover + 1 else sweep.cover - 1
  if seen = level ∧
      (sweep.result = [] ∨ ¬(sweep.result.getLast? = some bound ∧ isOpen = sweep.resultIsOpen)) then
    ⟨cover, sweep.result ++ [bound], !sweep.resultIsOpen⟩
  else ⟨cover, sweep.result, sweep.resultIsOpen⟩

/-- `UniteBounds` and `IntersectBounds` but for the level of cover they look for. -/
def combineBounds (level : ℤ) (lhs rhs : List (Bound α)) : List (Bound α) :=
  ((mergeBounds true true lhs rhs).foldl (Sweep.step level) ⟨0, [], false⟩).result

/-- `UniteBounds` of two lists. -/
def uniteBounds (lhs rhs : List (Bound α)) : List (Bound α) := combineBounds 0 lhs rhs

def intersectBounds (lhs rhs : List (Bound α)) : List (Bound α) := combineBounds 1 lhs rhs

/-- One round of `UniteBounds` of many lists: neighbours are united in pairs. -/
def uniteRound : List (List (Bound α)) → List (List (Bound α))
  | lhs :: rhs :: rest => uniteBounds lhs rhs :: uniteRound rest
  | rest => rest

theorem uniteRound_length : ∀ bounds : List (List (Bound α)),
    (uniteRound bounds).length = (bounds.length + 1) / 2
  | [] | [_] => by simp [uniteRound]
  | _ :: _ :: rest => by
    simp only [uniteRound, length_cons, uniteRound_length rest]
    omega

/-- `UniteBounds` of many lists: at most one list is left. -/
def uniteAllBounds (bounds : List (List (Bound α))) : List (List (Bound α)) :=
  if 1 < bounds.length then uniteAllBounds (uniteRound bounds) else bounds
termination_by bounds.length
decreasing_by rw [uniteRound_length]; omega

def covers (bounds : List (Bound α)) (point : Value α) : Result Bool := do
  ytVerify (bounds.length % 2 = 0)
  let index := binarySearch 0 (bounds.length / 2) fun index =>
    (bounds[index * 2 + 1]?).any fun bound =>
      if bound.value = point then !bound.included else decide (bound.value < point)
  if index < bounds.length / 2 then
    return (bounds[index * 2]?).any fun bound =>
      if bound.value = point then bound.included else decide (bound.value < point)
  else return false

end Operations

/-! ### Cuts -/

/-- Whether an end lies before a point: an end at the point itself does when it
opens an interval that includes it or closes one that does not. -/
def Bound.passed [LinearOrder α] (point : Value α) (event : Bound α × Bool) : Bool :=
  if event.1.value = point then event.2 == event.1.included else decide (event.1.value < point)

/-- A cut of the ends into those before and those after agrees with `compareBound`. -/
def IsCut [LinearOrder α] (cut : Bound α × Bool → Bool) : Prop :=
  ∀ a b : Bound α × Bool,
    (compareBound a.1 b.1 a.2 b.2 < 0 → cut b = true → cut a = true) ∧
    (¬compareBound a.1 b.1 a.2 b.2 < 0 → cut a = true → cut b = true)

/-- Ends before the cut come first. -/
def SortedAt (cut : Bound α × Bool → Bool) (events : List (Bound α × Bool)) : Prop :=
  events.Pairwise fun e f => cut f = true → cut e = true

/-- Whether an interval is open at the cut, when `state` says so before the first of the bounds. -/
def insideFrom (cut : Bound α × Bool → Bool) : Bool → List (Bound α) → Bool
  | state, [] => state
  | state, bound :: bounds => if cut (bound, !state) then insideFrom cut (!state) bounds else state

def nextCover (cover : ℤ) (isOpen : Bool) : ℤ := if isOpen then cover + 1 else cover - 1

def coverAt (cut : Bound α × Bool → Bool) : ℤ → List (Bound α × Bool) → ℤ
  | cover, [] => cover
  | cover, event :: events =>
    if cut event then coverAt cut (nextCover cover event.2) events else cover

theorem isCut_true [LinearOrder α] : IsCut (α := α) fun _ => true :=
  fun _ _ => ⟨fun _ h => h, fun _ h => h⟩

/-- `compareBound` is lexicographic in the value and the rank of an end. -/
def eventKey (event : Bound α × Bool) : Value α ×ₗ ℤ :=
  toLex (event.1.value, boundRank event.2 event.1.included)

theorem compareBound_neg_iff [LinearOrder α] (a b : Bound α × Bool) :
    compareBound a.1 b.1 a.2 b.2 < 0 ↔ eventKey a < eventKey b := by
  unfold eventKey compareBound
  rw [Prod.Lex.toLex_lt_toLex]
  by_cases heq : a.1.value = b.1.value
  · simp [heq, compareRowValues_self]
  · simp [heq, compareRowValues_eq_zero, Value.lt_def]

theorem passed_iff [LinearOrder α] (point : Value α) (event : Bound α × Bool) :
    Bound.passed point event = true ↔ eventKey event < toLex (point, 0) := by
  have hr : boundRank event.2 event.1.included < 0 ↔ (event.2 == event.1.included) = true := by
    generalize event.2 = isOpen, event.1.included = included
    revert isOpen included
    decide
  unfold eventKey Bound.passed
  rw [Prod.Lex.toLex_lt_toLex]
  by_cases heq : event.1.value = point
  · simp [heq, hr]
  · simp [heq]

/-- The ends before an end, or before a place between ends. -/
def beforeKey [LinearOrder α] (key : Value α ×ₗ ℤ) (event : Bound α × Bool) : Bool :=
  decide (eventKey event < key)

theorem isCut_beforeKey [LinearOrder α] (key : Value α ×ₗ ℤ) : IsCut (beforeKey key) := by
  intro a b
  simp only [beforeKey, decide_eq_true_eq]
  rw [compareBound_neg_iff, not_lt]
  exact ⟨fun hab hb => hab.trans hb, fun hab ha => hab.trans_lt ha⟩

theorem passed_eq_beforeKey [LinearOrder α] (point : Value α) :
    Bound.passed point = beforeKey (toLex (point, 0)) :=
  funext fun event => Bool.eq_iff_iff.mpr ((passed_iff point event).trans decide_eq_true_iff.symm)

theorem isCut_passed [LinearOrder α] (point : Value α) : IsCut (Bound.passed point) :=
  passed_eq_beforeKey point ▸ isCut_beforeKey _

/-! ### The sweep -/

section Sweep

variable [LinearOrder α] {cut : Bound α × Bool → Bool}

theorem mem_directed_of_mem_mergeBounds (firstIsOpen secondIsOpen : Bool) (lhs rhs : List (Bound α))
    (event : Bound α × Bool) (h : event ∈ mergeBounds firstIsOpen secondIsOpen lhs rhs) :
    event ∈ directed firstIsOpen lhs ∨ event ∈ directed secondIsOpen rhs := by
  fun_induction mergeBounds firstIsOpen secondIsOpen lhs rhs with
  | case1 firstIsOpen secondIsOpen first lhs second rhs hlt ih =>
    rcases mem_cons.mp h with rfl | h
    · exact .inl (by simp [directed])
    · exact (ih h).imp_left fun h => by simp [directed, h]
  | case2 firstIsOpen secondIsOpen first lhs second rhs hge ih =>
    rcases mem_cons.mp h with rfl | h
    · exact .inr (by simp [directed])
    · exact (ih h).imp_right fun h => by simp [directed, h]
  | case3 firstIsOpen secondIsOpen lhs => exact .inl h
  | case4 firstIsOpen secondIsOpen rhs => exact .inr h

theorem sortedAt_mergeBounds (hc : IsCut cut) (firstIsOpen secondIsOpen : Bool)
    (lhs rhs : List (Bound α))
    (hl : SortedAt cut (directed firstIsOpen lhs)) (hr : SortedAt cut (directed secondIsOpen rhs)) :
    SortedAt cut (mergeBounds firstIsOpen secondIsOpen lhs rhs) := by
  fun_induction mergeBounds firstIsOpen secondIsOpen lhs rhs with
  | case1 firstIsOpen secondIsOpen first lhs second rhs hlt ih =>
    have hl' := pairwise_cons.mp hl
    refine pairwise_cons.mpr ⟨fun event hm hp => ?_, ih hl'.2 hr⟩
    rcases mem_directed_of_mem_mergeBounds _ _ _ _ event hm with h | h
    · exact hl'.1 event h hp
    · refine (hc (first, firstIsOpen) (second, secondIsOpen)).1 hlt ?_
      rcases mem_cons.mp h with rfl | h
      · exact hp
      · exact (pairwise_cons.mp hr).1 event h hp
  | case2 firstIsOpen secondIsOpen first lhs second rhs hge ih =>
    have hr' := pairwise_cons.mp hr
    refine pairwise_cons.mpr ⟨fun event hm hp => ?_, ih hl hr'.2⟩
    rcases mem_directed_of_mem_mergeBounds _ _ _ _ event hm with h | h
    · refine (hc (first, firstIsOpen) (second, secondIsOpen)).2 hge ?_
      rcases mem_cons.mp h with rfl | h
      · exact hp
      · exact (pairwise_cons.mp hl).1 event h hp
    · exact hr'.1 event h hp
  | case3 firstIsOpen secondIsOpen lhs => exact hl
  | case4 firstIsOpen secondIsOpen rhs => exact hr

def openCount (state : Bool) : ℤ := if state then 1 else 0

theorem nextCover_openCount (isOpen : Bool) (extra : ℤ) :
    nextCover (openCount (!isOpen) + extra) isOpen = openCount isOpen + extra := by
  cases isOpen <;> simp [nextCover, openCount]
  ring

omit [LinearOrder α] in
theorem coverAt_directed : ∀ (extra : ℤ) (isOpen : Bool) (bounds : List (Bound α)),
    coverAt cut (openCount (!isOpen) + extra) (directed isOpen bounds) =
      openCount (insideFrom cut (!isOpen) bounds) + extra
  | _, _, [] => rfl
  | extra, isOpen, bound :: bounds => by
    have ih := coverAt_directed extra (!isOpen) bounds
    simp only [directed, coverAt, insideFrom, Bool.not_not] at ih ⊢
    by_cases hp : cut (bound, isOpen) = true
    · rw [if_pos hp, if_pos hp, nextCover_openCount, ih]
    · rw [if_neg hp, if_neg hp]

/-- At a cut the merged ends have as many intervals open as the two lists together. -/
theorem coverAt_mergeBounds (hc : IsCut cut) (firstIsOpen secondIsOpen : Bool)
    (lhs rhs : List (Bound α)) : coverAt cut (openCount (!firstIsOpen) + openCount (!secondIsOpen))
        (mergeBounds firstIsOpen secondIsOpen lhs rhs) = openCount
        (insideFrom cut (!firstIsOpen) lhs) + openCount (insideFrom cut (!secondIsOpen) rhs) := by
  fun_induction mergeBounds firstIsOpen secondIsOpen lhs rhs with
  | case1 firstIsOpen secondIsOpen first lhs second rhs hlt ih =>
    by_cases hp : cut (first, firstIsOpen) = true
    · simp only [coverAt, insideFrom, Bool.not_not, hp, if_true] at ih ⊢
      rw [nextCover_openCount, ih]
    · -- the other head lies after this one
      have hs : ¬cut (second, secondIsOpen) = true := fun h =>
        hp ((hc (first, firstIsOpen) (second, secondIsOpen)).1 hlt h)
      simp [coverAt, insideFrom, hp, hs]
  | case2 firstIsOpen secondIsOpen first lhs second rhs hge ih =>
    by_cases hp : cut (second, secondIsOpen) = true
    · simp only [coverAt, insideFrom, Bool.not_not, hp, if_true] at ih ⊢
      rw [add_comm, nextCover_openCount, add_comm, ih]
    · have hf : ¬cut (first, firstIsOpen) = true := fun h =>
        hp ((hc (first, firstIsOpen) (second, secondIsOpen)).2 hge h)
      simp [coverAt, insideFrom, hp, hf]
  | case3 firstIsOpen secondIsOpen lhs =>
    simpa [insideFrom] using coverAt_directed _ firstIsOpen lhs
  | case4 firstIsOpen secondIsOpen rhs =>
    simpa [insideFrom, add_comm] using coverAt_directed _ secondIsOpen rhs

def emitted (level : ℤ) : ℤ → List (Bound α × Bool) → List (Bound α)
  | _, [] => []
  | cover, (bound, isOpen) :: events =>
    if (if isOpen then cover else cover - 1) = level then
      bound :: emitted level (nextCover cover isOpen) events
    else emitted level (nextCover cover isOpen) events

theorem crosses_iff (level cover : ℤ) (isOpen : Bool) :
    (if isOpen then cover else cover - 1) = level ↔
      decide (level < cover) = !isOpen ∧ decide (level < nextCover cover isOpen) = isOpen := by
  cases isOpen <;> simp [nextCover] <;> omega

theorem stays_of_not_crosses (level cover : ℤ) (isOpen : Bool)
    (h : ¬(if isOpen then cover else cover - 1) = level) :
    decide (level < cover) = decide (level < nextCover cover isOpen) := by
  cases isOpen <;> simp [nextCover] at h ⊢ <;> omega

theorem step_eq (level cover : ℤ) (result : List (Bound α)) (bound : Bound α) (isOpen : Bool) :
    Sweep.step level ⟨cover, result, decide (level < cover)⟩ (bound, isOpen) =
      ⟨nextCover cover isOpen,
        if (if isOpen then cover else cover - 1) = level then result ++ [bound] else result,
        decide (level < nextCover cover isOpen)⟩ := by
  unfold Sweep.step
  by_cases hc : (if isOpen then cover else cover - 1) = level
  · obtain ⟨hb, ha⟩ := (crosses_iff level cover isOpen).mp hc
    have ho : ¬isOpen = !isOpen := by cases isOpen <;> decide
    simpa [hc, hb, ho, nextCover] using ha.symm
  · simp [hc, stays_of_not_crosses level cover isOpen hc, nextCover]

theorem foldl_step (level : ℤ) :
    ∀ (events : List (Bound α × Bool)) (cover : ℤ) (result : List (Bound α)),
    (events.foldl (Sweep.step level) ⟨cover, result, decide (level < cover)⟩).result =
      result ++ emitted level cover events
  | [], _, _ => by simp [emitted]
  | (bound, isOpen) :: events, cover, result => by
    rw [foldl_cons, step_eq, foldl_step level events, emitted]
    by_cases hc : (if isOpen then cover else cover - 1) = level
    · rw [if_pos hc, if_pos hc, append_assoc, singleton_append]
    · rw [if_neg hc, if_neg hc]

theorem combineBounds_eq (level : ℤ) (hl : 0 ≤ level) (lhs rhs : List (Bound α)) :
    combineBounds level lhs rhs = emitted level 0 (mergeBounds true true lhs rhs) := by
  have h := foldl_step level (mergeBounds true true lhs rhs) 0 []
  rw [decide_eq_false hl.not_gt, nil_append] at h
  exact h

section

omit [LinearOrder α]

theorem directed_emitted_sublist (level : ℤ) : ∀ (events : List (Bound α × Bool)) (cover : ℤ),
    (directed (!decide (level < cover)) (emitted level cover events)).Sublist events
  | [], _ => Sublist.refl _
  | (bound, isOpen) :: events, cover => by
    have ih := directed_emitted_sublist level events (nextCover cover isOpen)
    rw [emitted]
    by_cases hc : (if isOpen then cover else cover - 1) = level
    · obtain ⟨hb, ha⟩ := (crosses_iff level cover isOpen).mp hc
      rw [ha] at ih
      rw [if_pos hc, hb, Bool.not_not, directed]
      exact ih.cons_cons _
    · rw [if_neg hc, stays_of_not_crosses level cover isOpen hc]
      exact ih.cons _

theorem insideFrom_of_ahead (state : Bool) (bounds : List (Bound α))
    (h : ∀ event ∈ directed (!state) bounds, ¬cut event = true) :
      insideFrom cut state bounds = state := by
  cases bounds with
  | nil => rfl
  | cons bound bounds =>
    have hh := h (bound, !state) (by simp [directed])
    rw [insideFrom, if_neg hh]

theorem insideFrom_emitted (level : ℤ) : ∀ (events : List (Bound α × Bool)) (cover : ℤ),
    SortedAt cut events → insideFrom cut (decide (level < cover)) (emitted level cover events) =
      decide (level < coverAt cut cover events)
  | [], _, _ => rfl
  | (bound, isOpen) :: events, cover, hs => by
    have hs' := pairwise_cons.mp hs
    have ih := insideFrom_emitted level events (nextCover cover isOpen) hs'.2
    by_cases hp : cut (bound, isOpen) = true
    · rw [coverAt, if_pos hp, ← ih, emitted]
      by_cases hc : (if isOpen then cover else cover - 1) = level
      · obtain ⟨hb, ha⟩ := (crosses_iff level cover isOpen).mp hc
        rw [if_pos hc, hb, ha, insideFrom, Bool.not_not, if_pos hp]
      · rw [if_neg hc, stays_of_not_crosses level cover isOpen hc]
    · -- no later end is passed either
      rw [coverAt, if_neg hp]
      apply insideFrom_of_ahead
      intro event hm he
      rcases mem_cons.mp ((directed_emitted_sublist level _ cover).subset hm) with rfl | ht
      · exact hp he
      · exact hp (hs'.1 event ht he)

end

end Sweep

/-! ### Well-formed lists -/

section Spec

variable [LinearOrder α] {lhs rhs bounds : List (Bound α)} {x : α}

def Inside (bounds : List (Bound α)) (x : α) : Prop :=
  insideFrom (Bound.passed (.data x)) false bounds = true

/-- Intervals follow one another as far as values can tell, and every one is closed. -/
structure BoundsOk (bounds : List (Bound α)) : Prop where
  sorted : ∀ x : α, SortedAt (Bound.passed (.data x)) (directed true bounds)
  even : bounds.length % 2 = 0

section

omit [LinearOrder α]

theorem decide_succ_mod_two (m : ℕ) {r : ℕ} (hr : r < 2) :
    decide ((m + 1) % 2 = r) = !decide (m % 2 = r) := by
  rw [← decide_not, decide_eq_decide]
  omega

theorem insideFrom_true : ∀ (state : Bool) (bounds : List (Bound α)),
    insideFrom (fun _ => true) state bounds = (state != decide (bounds.length % 2 = 1))
  | state, [] => by simp [insideFrom]
  | state, bound :: bounds => by
    rw [insideFrom, if_pos rfl, insideFrom_true, length_cons, decide_succ_mod_two _ one_lt_two]
    cases state <;> simp

theorem even_iff (bounds : List (Bound α)) :
    bounds.length % 2 = 0 ↔ insideFrom (fun _ => true) false bounds = false := by
  rw [insideFrom_true]
  simp

theorem sortedAt_true (events : List (Bound α × Bool)) : SortedAt (fun _ => true) events :=
  pairwise_of_forall fun _ _ _ => rfl

end

variable {cut : Bound α × Bool → Bool}

section

variable (hc : IsCut cut) (hl : SortedAt cut (directed true lhs))
  (hr : SortedAt cut (directed true rhs))

include hc hl hr

theorem insideFrom_combineBounds (level : ℤ) (hlevel : 0 ≤ level) :
    insideFrom cut false (combineBounds level lhs rhs) = decide (level <
        openCount (insideFrom cut false lhs) + openCount (insideFrom cut false rhs)) := by
  have hm := sortedAt_mergeBounds hc true true lhs rhs hl hr
  have he := insideFrom_emitted level _ 0 hm
  have hcover : coverAt cut 0 (mergeBounds true true lhs rhs) = _ :=
    coverAt_mergeBounds hc true true lhs rhs
  rw [decide_eq_false hlevel.not_gt, hcover, ← combineBounds_eq level hlevel] at he
  exact he

theorem sortedAt_combineBounds (level : ℤ) (hlevel : 0 ≤ level) :
    SortedAt cut (directed true (combineBounds level lhs rhs)) := by
  have hm := sortedAt_mergeBounds hc true true lhs rhs hl hr
  have hs := directed_emitted_sublist level (mergeBounds true true lhs rhs) 0
  rw [decide_eq_false hlevel.not_gt, ← combineBounds_eq level hlevel] at hs
  exact hm.sublist hs

theorem insideFrom_uniteBounds : insideFrom cut false (uniteBounds lhs rhs) =
      (insideFrom cut false lhs || insideFrom cut false rhs) := by
  rw [uniteBounds, insideFrom_combineBounds hc hl hr 0 (by decide)]
  generalize insideFrom _ false lhs = l, insideFrom _ false rhs = r
  revert l r
  decide

theorem insideFrom_intersectBounds : insideFrom cut false (intersectBounds lhs rhs) =
      (insideFrom cut false lhs && insideFrom cut false rhs) := by
  rw [intersectBounds, insideFrom_combineBounds hc hl hr 1 (by decide)]
  generalize insideFrom _ false lhs = l, insideFrom _ false rhs = r
  revert l r
  decide

end

theorem combineBounds_even (level : ℤ) (hlevel : 0 ≤ level) (hl : lhs.length % 2 = 0)
    (hr : rhs.length % 2 = 0) : (combineBounds level lhs rhs).length % 2 = 0 := by
  rw [even_iff, insideFrom_combineBounds isCut_true (sortedAt_true _)
    (sortedAt_true _) level hlevel, (even_iff lhs).mp hl, (even_iff rhs).mp hr]
  simpa [openCount] using hlevel

theorem combineBounds_ok (level : ℤ) (hlevel : 0 ≤ level) (hl : BoundsOk lhs) (hr : BoundsOk rhs) :
    BoundsOk (combineBounds level lhs rhs) :=
  ⟨fun x => sortedAt_combineBounds (isCut_passed (.data x)) (hl.sorted x)
    (hr.sorted x) level hlevel, combineBounds_even level hlevel hl.even hr.even⟩

theorem uniteBounds_ok (hl : BoundsOk lhs) (hr : BoundsOk rhs) : BoundsOk (uniteBounds lhs rhs) :=
  combineBounds_ok 0 (by decide) hl hr

theorem inside_uniteBounds (hl : BoundsOk lhs) (hr : BoundsOk rhs) :
    Inside (uniteBounds lhs rhs) x ↔ Inside lhs x ∨ Inside rhs x := by
  unfold Inside
  rw [insideFrom_uniteBounds (isCut_passed _) (hl.sorted x) (hr.sorted x), Bool.or_eq_true]

theorem inside_intersectBounds (hl : BoundsOk lhs) (hr : BoundsOk rhs) :
    Inside (intersectBounds lhs rhs) x ↔ Inside lhs x ∧ Inside rhs x := by
  unfold Inside
  rw [insideFrom_intersectBounds (isCut_passed _) (hl.sorted x) (hr.sorted x), Bool.and_eq_true]

variable {P Q : List (Bound α) → Prop}

theorem uniteRound_spec
    (hu : ∀ l r, P l → P r → P (uniteBounds l r) ∧ (Q (uniteBounds l r) ↔ Q l ∨ Q r)) :
    ∀ lists : List (List (Bound α)), (∀ l ∈ lists, P l) →
      (∀ l ∈ uniteRound lists, P l) ∧ ((∃ l ∈ uniteRound lists, Q l) ↔ ∃ l ∈ lists, Q l)
  | [], h => by simp [uniteRound]
  | [l], h => by simpa [uniteRound] using h
  | l :: r :: rest, h => by
    obtain ⟨hok, hi⟩ := hu l r (h l (by simp)) (h r (by simp))
    have ih := uniteRound_spec hu rest fun l hl => h l (by simp [hl])
    constructor
    · exact forall_mem_cons.mpr ⟨hok, ih.1⟩
    · simp only [uniteRound, exists_mem_cons_iff, hi, ih.2, or_assoc]

theorem uniteAllBounds_length (lists : List (List (Bound α))) :
    (uniteAllBounds lists).length = min 1 lists.length := by
  fun_induction uniteAllBounds lists with
  | case1 lists hm ih =>
    rw [ih, uniteRound_length]
    omega
  | case2 lists hf => omega

theorem uniteAllBounds_keeps
    (hu : ∀ l r, P l → P r → P (uniteBounds l r) ∧ (Q (uniteBounds l r) ↔ Q l ∨ Q r))
    (lists : List (List (Bound α))) (h : ∀ l ∈ lists, P l) :
    (∀ l ∈ uniteAllBounds lists, P l) ∧ ((∃ l ∈ uniteAllBounds lists, Q l) ↔ ∃ l ∈ lists, Q l) := by
  fun_induction uniteAllBounds lists with
  | case1 lists hm ih =>
    obtain ⟨hok, hi⟩ := uniteRound_spec hu lists h
    exact ⟨(ih hok).1, (ih hok).2.trans hi⟩
  | case2 lists hf => exact ⟨h, Iff.rfl⟩

theorem uniteAllBounds_spec (lists : List (List (Bound α))) (h : ∀ l ∈ lists, BoundsOk l) :
    (uniteAllBounds lists).length = min 1 lists.length ∧
    (∀ l ∈ uniteAllBounds lists, BoundsOk l) ∧
    ∀ x, (∃ l ∈ uniteAllBounds lists, Inside l x) ↔ ∃ l ∈ lists, Inside l x := by
  have hk := fun x => uniteAllBounds_keeps (P := BoundsOk) (Q := fun l => Inside l x)
    (fun l r hl hr => ⟨uniteBounds_ok hl hr, inside_uniteBounds hl hr⟩) lists h
  have hok := uniteAllBounds_keeps (P := BoundsOk) (Q := fun _ => False)
    (fun l r hl hr => ⟨uniteBounds_ok hl hr, by simp⟩) lists h
  exact ⟨uniteAllBounds_length lists, hok.1, fun x => (hk x).2⟩

/-! ### The search of `covers` -/

omit [LinearOrder α] in
theorem getElem?_directed : ∀ (isOpen : Bool) (bounds : List (Bound α)) (i : ℕ),
    (directed isOpen bounds)[i]? = (bounds[i]?).map fun bound => (bound, isOpen == decide (i % 2 = 0))
  | _, [], _ | isOpen, bound :: bounds, 0 => by simp [directed]
  | isOpen, bound :: bounds, i + 1 => by
    rw [directed, getElem?_cons_succ, getElem?_cons_succ, getElem?_directed]
    cases isOpen <;> simp only [decide_succ_mod_two _ two_pos] <;> simp

omit [LinearOrder α] in
theorem insideFrom_eq_parity (cut : Bound α × Bool → Bool) :
    ∀ (state : Bool) (bounds : List (Bound α)) (m : ℕ),
    (∀ i < m, ((directed (!state) bounds)[i]?).any cut = true) →
    ((directed (!state) bounds)[m]?).any cut = false →
    insideFrom cut state bounds = (state != decide (m % 2 = 1))
  | state, [], m, hb, _ => by
    have hm : m = 0 := by
      by_contra hne
      simpa [directed] using hb 0 (by omega)
    simp [insideFrom, hm]
  | state, bound :: bounds, 0, _, hat => by
    have hahead : ¬cut (bound, !state) = true := by simpa [directed] using hat
    simp [insideFrom, hahead]
  | state, bound :: bounds, m + 1, hb, hat => by
    have hp : cut (bound, !state) = true := by simpa [directed] using hb 0 (by omega)
    have ih := insideFrom_eq_parity cut (!state) bounds m
      (fun i hi => by simpa [directed] using hb (i + 1) (by omega)) (by simpa [directed] using hat)
    rw [insideFrom, if_pos hp, ih, decide_succ_mod_two _ one_lt_two]
    cases state <;> simp

def passedAt (bounds : List (Bound α)) (point : Value α) (i : ℕ) : Bool :=
  ((directed true bounds)[i]?).any (Bound.passed point)

theorem passedAt_of_le {point : Value α} (hs : SortedAt (Bound.passed point) (directed true bounds))
    {i j : ℕ} (hij : i ≤ j) (hj : passedAt bounds point j = true) : passedAt bounds point i = true := by
  by_cases heq : i = j
  · exact heq ▸ hj
  · unfold passedAt at hj ⊢
    have hlt : j < (directed true bounds).length := by
      by_contra hge
      rw [getElem?_eq_none (by omega)] at hj
      exact absurd hj (by simp)
    rw [getElem?_eq_getElem hlt] at hj
    rw [getElem?_eq_getElem (by omega)]
    exact pairwise_iff_getElem.mp hs i j (by omega) hlt (by omega) hj

theorem inside_iff_odd {point : Value α} (m : ℕ) (hb : ∀ i < m, passedAt bounds point i = true)
    (hat : passedAt bounds point m = false) :
      insideFrom (Bound.passed point) false bounds = decide (m % 2 = 1) := by
  rw [insideFrom_eq_parity _ false bounds m hb hat]
  simp

/-- `covers` tells whether an interval is open at a point. -/
theorem covers_eq (point : Value α) (hs : SortedAt (Bound.passed point) (directed true bounds))
    (heven : bounds.length % 2 = 0) :
      covers bounds point = .ok (insideFrom (Bound.passed point) false bounds) := by
  have hc : ∀ index, ((bounds[index * 2 + 1]?).any fun bound =>
      if bound.value = point then !bound.included else decide (bound.value < point)) =
      passedAt bounds point (index * 2 + 1) := by
    intro index
    unfold passedAt
    rw [getElem?_directed]
    cases bounds[index * 2 + 1]? <;> simp [Bound.passed]
  have ho : ∀ index, ((bounds[index * 2]?).any fun bound =>
      if bound.value = point then bound.included else decide (bound.value < point)) =
      passedAt bounds point (index * 2) := by
    intro index
    unfold passedAt
    rw [getElem?_directed]
    cases bounds[index * 2]? <;> simp [Bound.passed]
  unfold covers
  simp only [ytVerify_true heven, ok_bind, hc, ho]
  obtain ⟨-, hle, hb, hf⟩ := binarySearch_spec 0 (bounds.length / 2)
    (fun index => passedAt bounds point (index * 2 + 1)) (Nat.zero_le _)
    fun i j _ hij _ hj => passedAt_of_le hs (by omega) hj
  generalize binarySearch 0 (bounds.length / 2)
    (fun index => passedAt bounds point (index * 2 + 1)) = k at *
  have hp : ∀ i < k * 2, passedAt bounds point i = true := fun i hi =>
    passedAt_of_le hs (j := (k - 1) * 2 + 1) (by omega) (hb (k - 1) (by omega) (by omega))
  by_cases hk : k < bounds.length / 2
  · rw [if_pos hk]
    have hahead := hf k (Nat.le_refl k) hk
    by_cases hat : passedAt bounds point (k * 2) = true
    · -- the interval that the search stopped at has been opened
      have hu : ∀ i < k * 2 + 1, passedAt bounds point i = true := by
        intro i hi
        by_cases heq : i = k * 2
        · exact heq ▸ hat
        · exact hp i (by omega)
      rw [inside_iff_odd (k * 2 + 1) hu hahead, hat, decide_eq_true (by omega)]
      rfl
    · rw [Bool.not_eq_true] at hat
      rw [inside_iff_odd (k * 2) hp hat, hat, decide_eq_false (by omega)]
      rfl
  · rw [if_neg hk]
    have hn : passedAt bounds point (k * 2) = false := by
      unfold passedAt
      rw [getElem?_directed, getElem?_eq_none (by omega)]
      rfl
    rw [inside_iff_odd (k * 2) hp hn, decide_eq_false (by omega)]
    rfl

theorem covers_spec (hok : BoundsOk bounds) :
    ∃ b : Bool, covers bounds (.data x) = .ok b ∧ (b = true ↔ Inside bounds x) :=
  ⟨_, covers_eq (.data x) (hok.sorted x) hok.even, Iff.rfl⟩

/-! ### Lists of one interval -/

theorem passed_eq (point value : Value α) (included isOpen : Bool) :
    Bound.passed point (⟨value, included⟩, isOpen) =
      if isOpen = included then decide (value ≤ point) else decide (value < point) := by
  unfold Bound.passed
  by_cases hv : value = point
  · by_cases hd : isOpen = included <;> simp [hv, hd]
  · by_cases hd : isOpen = included <;> simp [hv, hd, le_iff_lt_or_eq]

theorem boundsOk_pair {lower upper : Bound α} (h : ∀ x : α, Bound.passed (.data x) (upper, false) =
      true → Bound.passed (.data x) (lower, true) = true) : BoundsOk [lower, upper] :=
  ⟨fun x => by simpa [SortedAt, directed] using h x, by simp⟩

theorem inside_pair {lower upper : Bound α} : Inside [lower, upper] x ↔ Bound.passed (.data x)
      (lower, true) = true ∧ Bound.passed (.data x) (upper, false) = false := by
  unfold Inside
  by_cases hl : Bound.passed (.data x) (lower, true) = true
  · by_cases hu : Bound.passed (.data x) (upper, false) = true <;> simp [insideFrom, hl, hu]
  · simp [insideFrom, hl]

end Spec

/-! ### Lists in the order of `compareBound`

Lists that do not decrease under `compareBound` are cut in two by every point, the sentinels
included, and the operations keep that order. -/

section Ordered

variable [LinearOrder α] {lhs rhs bounds : List (Bound α)}

/-- Opening and closing ends in turns, none before its predecessor, every interval closed. -/
structure OrderedBounds (bounds : List (Bound α)) : Prop where
  ordered : (directed true bounds).IsChain fun e f => compareBound e.1 f.1 e.2 f.2 ≤ 0
  even : bounds.length % 2 = 0

theorem compareBound_nonpos_iff (a b : Bound α × Bool) :
    compareBound a.1 b.1 a.2 b.2 ≤ 0 ↔ eventKey a ≤ eventKey b := by
  unfold eventKey compareBound
  rw [Prod.Lex.toLex_le_toLex]
  by_cases heq : a.1.value = b.1.value
  · simp [heq, compareRowValues_self]
  · have hne : compareRowValues a.1.value b.1.value ≠ 0 := by simpa [compareRowValues_eq_zero] using heq
    have hlt : compareRowValues a.1.value b.1.value < 0 ↔ a.1.value < b.1.value := Value.lt_def.symm
    simp only [hne, heq, if_false, false_and, or_false, ← hlt]
    omega

theorem isChain_compareBound_iff (events : List (Bound α × Bool)) :
    (events.IsChain fun e f => compareBound e.1 f.1 e.2 f.2 ≤ 0) ↔
      events.Pairwise fun e f => eventKey e ≤ eventKey f := by
  simp only [compareBound_nonpos_iff]
  exact isChain_iff_pairwise

theorem ordered_iff_sortedAt (events : List (Bound α × Bool)) :
    (events.IsChain fun e f => compareBound e.1 f.1 e.2 f.2 ≤ 0) ↔
      ∀ key, SortedAt (beforeKey key) events := by
  rw [isChain_compareBound_iff]
  constructor
  · intro ho key
    apply ho.imp
    intro e f hef hf
    simp only [beforeKey, decide_eq_true_eq] at hf ⊢
    exact lt_of_le_of_lt hef hf
  · intro hsorted
    rw [pairwise_iff_forall_sublist]
    intro e f hsub
    by_contra hlt
    -- the cut just before the first of the two would have the second before it
    have hc := pairwise_iff_forall_sublist.mp (hsorted (eventKey e)) hsub
    simp only [beforeKey, decide_eq_true_eq] at hc
    exact lt_irrefl _ (hc (not_le.mp hlt))

theorem OrderedBounds.sortedAt (hok : OrderedBounds bounds) (point : Value α) :
    SortedAt (Bound.passed point) (directed true bounds) :=
  passed_eq_beforeKey point ▸ (ordered_iff_sortedAt _).mp hok.ordered _

theorem OrderedBounds.covers_eq (hok : OrderedBounds bounds) (point : Value α) :
    covers bounds point = .ok (insideFrom (Bound.passed point) false bounds) :=
  Query.covers_eq point (hok.sortedAt point) hok.even

theorem combineBounds_ordered (level : ℤ) (hlevel : 0 ≤ level) (hl : OrderedBounds lhs)
    (hr : OrderedBounds rhs) : OrderedBounds (combineBounds level lhs rhs) := by
  constructor
  · rw [ordered_iff_sortedAt]
    intro key
    exact sortedAt_combineBounds (isCut_beforeKey key) ((ordered_iff_sortedAt _).mp hl.ordered key)
      ((ordered_iff_sortedAt _).mp hr.ordered key) level hlevel
  · exact combineBounds_even level hlevel hl.even hr.even

theorem mapM_covers (point : Value α) :
    ∀ lists : List (List (Bound α)), (∀ l ∈ lists, OrderedBounds l) →
    lists.mapM (fun l => covers l point) = .ok (lists.map (insideFrom (Bound.passed point) false))
  | [], _ => rfl
  | l :: lists, h => by
    have hl := (h l (by simp)).covers_eq point
    have ih := mapM_covers point lists fun m hm => h m (by simp [hm])
    rw [mapM_cons, hl, ok_bind, ih, ok_bind]
    rfl

/-- Unions of any number of lists and intersections of two are in order again and cover
exactly the points that some operand, or both operands, cover. -/
theorem interval_algebra :
    (∀ lists : List (List (Bound α)), (∀ l ∈ lists, OrderedBounds l) → lists ≠ [] →
      ∃ united, uniteAllBounds lists = [united] ∧ OrderedBounds united ∧
        ∀ point, ∃ flags, lists.mapM (fun l => covers l point) = .ok flags ∧
          covers united point = .ok (flags.any id)) ∧
    (∀ lhs rhs : List (Bound α), OrderedBounds lhs → OrderedBounds rhs →
      OrderedBounds (uniteBounds lhs rhs) ∧ OrderedBounds (intersectBounds lhs rhs) ∧
        ∀ point, ∃ l r, covers lhs point = .ok l ∧ covers rhs point = .ok r ∧
          covers (uniteBounds lhs rhs) point = .ok (l || r) ∧
          covers (intersectBounds lhs rhs) point = .ok (l && r)) := by
  constructor
  · intro lists hok hne
    have hlen := uniteAllBounds_length lists
    have hpos := length_pos_iff.mpr hne
    obtain ⟨united, hunited⟩ := length_eq_one_iff.mp (show (uniteAllBounds lists).length = 1 by omega)
    have hkeeps := fun point => uniteAllBounds_keeps (P := OrderedBounds)
      (Q := fun l => insideFrom (Bound.passed point) false l = true)
      (fun l r hl hr => ⟨combineBounds_ordered 0 (by decide) hl hr,
        by rw [insideFrom_uniteBounds (isCut_passed point) (hl.sortedAt point) (hr.sortedAt point),
          Bool.or_eq_true]⟩) lists hok
    simp only [hunited, mem_singleton, forall_eq, exists_eq_left] at hkeeps
    have hordered := (hkeeps .min).1
    refine ⟨united, hunited, hordered, fun point => ⟨_, mapM_covers point lists hok, ?_⟩⟩
    rw [hordered.covers_eq point]
    congr 1
    rw [Bool.eq_iff_iff, (hkeeps point).2]
    simp
  · intro lhs rhs hl hr
    have hunite := combineBounds_ordered 0 (by decide) hl hr
    have hinter := combineBounds_ordered 1 (by decide) hl hr
    refine ⟨hunite, hinter, fun point => ⟨_, _, hl.covers_eq point, hr.covers_eq point, ?_, ?_⟩⟩
    · rw [uniteBounds, hunite.covers_eq, ← uniteBounds,
        insideFrom_uniteBounds (isCut_passed point) (hl.sortedAt point) (hr.sortedAt point)]
    · rw [intersectBounds, hinter.covers_eq, ← intersectBounds,
        insideFrom_intersectBounds (isCut_passed point) (hl.sortedAt point) (hr.sortedAt point)]

/-- The singleton `[1, 1]` and what is left of `[0, 3]` without the point `2`. -/
theorem interval_algebra_example :
    OrderedBounds [(⟨.data 1, true⟩ : Bound ℕ), ⟨.data 1, true⟩] ∧ OrderedBounds
      [(⟨.data 0, true⟩ : Bound ℕ), ⟨.data 2, false⟩, ⟨.data 2, false⟩, ⟨.data 3, true⟩] ∧
    ∃ l r, covers [(⟨.data 1, true⟩ : Bound ℕ), ⟨.data 1, true⟩] (.data 2) = .ok l ∧
      covers [(⟨.data 0, true⟩ : Bound ℕ), ⟨.data 2, false⟩, ⟨.data 2, false⟩, ⟨.data 3, true⟩]
        (.data 2) = .ok r ∧ covers (uniteBounds [(⟨.data 1, true⟩ : Bound ℕ), ⟨.data 1, true⟩]
        [⟨.data 0, true⟩, ⟨.data 2, false⟩, ⟨.data 2, false⟩, ⟨.data 3, true⟩]) (.data 2) =
          .ok (l || r) ∧ covers (intersectBounds [(⟨.data 1, true⟩ : Bound ℕ), ⟨.data 1, true⟩]
        [⟨.data 0, true⟩, ⟨.data 2, false⟩, ⟨.data 2, false⟩, ⟨.data 3, true⟩]) (.data 2) =
          .ok (l && r) := by
  have hl : OrderedBounds [(⟨.data 1, true⟩ : Bound ℕ), ⟨.data 1, true⟩] := ⟨by decide, by decide⟩
  have hr : OrderedBounds [(⟨.data 0, true⟩ : Bound ℕ), ⟨.data 2, false⟩, ⟨.data 2, false⟩,
      ⟨.data 3, true⟩] :=
    ⟨by decide, by decide⟩
  exact ⟨hl, hr, (interval_algebra.2 _ _ hl hr).2.2 (.data 2)⟩

end Ordered

end Ytsaurus.Query
