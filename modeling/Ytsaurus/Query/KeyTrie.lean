/-
# Key tries and their ranges

`TKeyTrie` of `query/base/key_trie.h` and `GetRangesFromTrieWithinRange` of `key_trie.cpp`, with
`insertUndefined = false`: a trie constrains the columns of a key one after another, by single
values that lead to a subtrie and by intervals. It is expanded within a key range breadth first; a
state holds the values taken so far, and whether they still are the first values of the lower and of
the upper end of the range. A state with too many subranges is collapsed into one range.

`visits` lists the states that the loop takes from the queue, with the limit at that time; the
ranges are those of the visits (`expandStates_eq`).
-/
import Ytsaurus.Lib.Frontier
import Ytsaurus.Query.Bounds

namespace Ytsaurus.Query

open List TableClient Lib

/-- `TKeyTriePtr`: null is the universal trie. -/
inductive KeyTrie (α : Type) where
  | universal : KeyTrie α
  | node (offset : ℕ) (next : List (Value α × KeyTrie α)) (bounds : List (Bound α)) : KeyTrie α

variable {α : Type}

/-! ### The states -/

/-- A range of rows, `TMutableRowRange`. -/
abbrev MutableRowRange (α : Type) : Type := Row α × Row α

/-- `TState`. -/
structure TrieState (α : Type) where
  trie : KeyTrie α
  keyPrefix : List (Value α)
  refineLower : Bool
  refineUpper : Bool

/-- An interval of `resultBounds`, with its flags. -/
structure ResultBounds (α : Type) where
  lower : Bound α
  upper : Bound α
  lowerBoundRefined : Bool
  upperBoundRefined : Bool
  deriving DecidableEq, Repr

/-- A value of `nextValues`, with its subtrie and flags. -/
structure NextValue (α : Type) where
  value : Value α
  trie : KeyTrie α
  refineLowerNext : Bool
  refineUpperNext : Bool

def NextValue.state (keyPrefix : List (Value α)) (next : NextValue α) : TrieState α :=
  ⟨next.trie, keyPrefix ++ [next.value], next.refineLowerNext, next.refineUpperNext⟩

def boundPairs : List (Bound α) → List (Bound α × Bound α)
  | lower :: upper :: rest => (lower, upper) :: boundPairs rest
  | _ => []

/-- What one state adds: ranges, states, and what is left of the limit. -/
structure Expansion (α : Type) where
  ranges : List (MutableRowRange α)
  states : List (TrieState α)
  rangeCountLimit : ℕ

section Code

variable [LinearOrder α]

/-- The lower end of a range: the rest of the key range's end, or a bound. -/
def lowerEnd (keyRange : MutableRowRange α) (keyPrefix : List (Value α)) (refined : Bool)
    (bound : Bound α) : Row α :=
  keyPrefix ++
    if refined then keyRange.1.drop keyPrefix.length
    else if bound.included then [bound.value] else [bound.value, .max]

def upperEnd (keyRange : MutableRowRange α) (keyPrefix : List (Value α)) (refined : Bool)
    (bound : Bound α) : Row α :=
  keyPrefix ++
    if refined then keyRange.2.drop keyPrefix.length
    else if bound.included then [bound.value, .max] else [bound.value]

/-- The upper end of the key range at a component, as a bound. -/
def keyRangeUpperBound (keyRange : MutableRowRange α) (offset : ℕ) (value : Value α) : Bound α :=
  ⟨value, decide (offset + 1 < keyRange.2.length)⟩

/-- The body of the loop over `Bounds`; an interval may be skipped. -/
def refineBounds (keyRange : MutableRowRange α) (offset : ℕ) (refineLower refineUpper : Bool)
    (pair : Bound α × Bound α) : Option (ResultBounds α) :=
  if (keyRange.1[offset]?).any fun value =>
    decide (compareBound pair.2 ⟨value, true⟩ false true < 0) then none
  else if (keyRange.2[offset]?).any fun value =>
      decide (0 < compareBound pair.1 (keyRangeUpperBound keyRange offset value) true false) then none
  else some {
    lower := pair.1
    upper := pair.2
    lowerBoundRefined := (keyRange.1[offset]?).any fun value =>
      refineLower && decide (compareBound pair.1 ⟨value, true⟩ true true ≤ 0)
    upperBoundRefined := (keyRange.2[offset]?).any fun value =>
      refineUpper &&
        decide (0 ≤ compareBound pair.2 (keyRangeUpperBound keyRange offset value) false false) }

/-- The body of the loop over `Next`; a value outside the key range is skipped. -/
def refineNext (keyRange : MutableRowRange α) (offset : ℕ) (refineLower refineUpper : Bool)
    (next : Value α × KeyTrie α) : Option (NextValue α) :=
  if refineLower && (keyRange.1[offset]?).any fun value => decide (next.1 < value) then none
  else if refineUpper && (keyRange.2[offset]?).any fun value => decide (value < next.1) then none
  else some {
    value := next.1
    trie := next.2
    refineLowerNext := refineLower && decide (keyRange.1[offset]? = some next.1)
    refineUpperNext := refineUpper && decide (keyRange.2[offset]? = some next.1) }

def updateMinMax (minMax interval : Bound α × Bound α) : Bound α × Bound α :=
  (if compareBound interval.1 minMax.1 true true < 0 then interval.1 else minMax.1,
    if 0 < compareBound interval.2 minMax.2 false false then interval.2 else minMax.2)

/-- The intervals that a collapse spans: those of `resultBounds`, and a point for each next value.
-/
def collapsedIntervals (resultBounds : List (ResultBounds α)) (nextValues : List (NextValue α)) :
    List (Bound α × Bound α) :=
  resultBounds.map (fun bounds => (bounds.lower, bounds.upper)) ++
    nextValues.map fun next => (⟨next.value, true⟩, ⟨next.value, true⟩)

/-- `min` and `max` of a collapse. -/
def minMaxOf (intervals : List (Bound α × Bound α)) : Bound α × Bound α :=
  intervals.foldl updateMinMax (⟨.max, false⟩, ⟨.min, true⟩)

/-- The range of a collapse from `min` and `max`. -/
def collapsedRange (keyRange : MutableRowRange α) (keyPrefix : List (Value α))
    (refineLower refineUpper : Bool) (minMax : Bound α × Bound α) : MutableRowRange α :=
  (lowerEnd keyRange keyPrefix
      (refineLower && minMax.1.included &&
        decide (keyRange.1[keyPrefix.length]? = some minMax.1.value)) minMax.1,
    upperEnd keyRange keyPrefix
      (refineUpper && minMax.2.included &&
        decide (keyRange.2[keyPrefix.length]? = some minMax.2.value)) minMax.2)

def exactRange (keyRange : MutableRowRange α) (keyPrefix : List (Value α))
    (bounds : ResultBounds α) : MutableRowRange α :=
  (lowerEnd keyRange keyPrefix bounds.lowerBoundRefined bounds.lower,
    upperEnd keyRange keyPrefix bounds.upperBoundRefined bounds.upper)

/-- The range of all keys with a prefix, cut at the ends of the key range. -/
def freeRange (keyRange : MutableRowRange α) (keyPrefix : List (Value α))
    (refineLower refineUpper : Bool) : MutableRowRange α :=
  (keyPrefix ++ if refineLower then keyRange.1.drop keyPrefix.length else [],
    keyPrefix ++ if refineUpper then keyRange.2.drop keyPrefix.length else [.max])

/-- The branch for a trie that does not constrain the next component. -/
def expandFree (keyRange : MutableRowRange α) (rangeCountLimit : ℕ) (state : TrieState α)
    (refineLower : Bool) : Expansion α :=
  let offset := state.keyPrefix.length
  if refineLower && state.refineUpper && decide (keyRange.1[offset]? = keyRange.2[offset]?) then
    ⟨[], [⟨state.trie, state.keyPrefix ++ (keyRange.1[offset]?).toList, true, true⟩], rangeCountLimit⟩
  else
    let range := freeRange keyRange state.keyPrefix refineLower state.refineUpper
    ⟨if range.1 < range.2 then [range] else [], [], rangeCountLimit⟩

theorem expandFree_cases (keyRange : MutableRowRange α) (rangeCountLimit : ℕ) (state : TrieState α)
    (refineLower : Bool) : (refineLower = true ∧ state.refineUpper = true ∧
      keyRange.1[state.keyPrefix.length]? = keyRange.2[state.keyPrefix.length]? ∧
      expandFree keyRange rangeCountLimit state refineLower = ⟨[], [⟨state.trie, state.keyPrefix ++
          (keyRange.1[state.keyPrefix.length]?).toList, true, true⟩], rangeCountLimit⟩) ∨
    (expandFree keyRange rangeCountLimit state refineLower).states = [] ∧
      ∀ range, range ∈ (expandFree keyRange rangeCountLimit state refineLower).ranges ↔ range =
          freeRange keyRange state.keyPrefix refineLower state.refineUpper ∧ range.1 < range.2 := by
  unfold expandFree
  by_cases he : (refineLower && state.refineUpper &&
      decide (keyRange.1[state.keyPrefix.length]? = keyRange.2[state.keyPrefix.length]?)) = true
  · rw [if_pos he]
    simp only [Bool.and_eq_true, decide_eq_true_eq] at he
    exact .inl ⟨he.1.1, he.1.2, he.2, rfl⟩
  · rw [if_neg he]
    refine .inr ⟨rfl, fun range => ?_⟩
    dsimp only
    split_ifs with hlt
    · rw [mem_singleton]
      exact ⟨fun h => ⟨h, h ▸ hlt⟩, And.left⟩
    · exact iff_of_false not_mem_nil fun h => hlt (h.1 ▸ h.2)

/-- The branch for a trie that constrains the next component. -/
def expandNode (keyRange : MutableRowRange α) (rangeCountLimit : ℕ) (keyPrefix : List (Value α))
    (refineLower refineUpper : Bool) (next : List (Value α × KeyTrie α)) (bounds : List (Bound α)) :
      Expansion α :=
  let resultBounds := (boundPairs bounds).filterMap
    (refineBounds keyRange keyPrefix.length refineLower refineUpper)
  let nextValues := next.filterMap (refineNext keyRange keyPrefix.length refineLower refineUpper)
  let subrangeCount := resultBounds.length + nextValues.length
  if rangeCountLimit < subrangeCount then
    ⟨[collapsedRange keyRange keyPrefix refineLower refineUpper
      (minMaxOf (collapsedIntervals resultBounds nextValues))], [], rangeCountLimit⟩
  else
    ⟨resultBounds.map (exactRange keyRange keyPrefix), nextValues.map (NextValue.state keyPrefix),
      rangeCountLimit - subrangeCount⟩

/-- `refineLower` of an iteration: an end that the prefix has used up refines nothing. -/
def TrieState.refinesLower (keyRange : MutableRowRange α) (state : TrieState α) : Bool :=
  state.refineLower && decide (state.keyPrefix.length < keyRange.1.length)

/-- The prefix is the upper end itself, which the range does not include. -/
def TrieState.atUpperEnd (keyRange : MutableRowRange α) (state : TrieState α) : Bool :=
  state.refineUpper && decide (keyRange.2.length ≤ state.keyPrefix.length)

/-- One iteration of `GetRangesFromTrieWithinRangeImpl`. -/
def expandState (keyRange : MutableRowRange α) (rangeCountLimit : ℕ) (state : TrieState α) :
    Result (Expansion α) :=
  if state.atUpperEnd keyRange then .ok ⟨[], [], rangeCountLimit⟩
  else
    match state.trie with
    | .universal => .ok (expandFree keyRange rangeCountLimit state (state.refinesLower keyRange))
    | .node trieOffset next bounds =>
      if state.keyPrefix.length < trieOffset then
        .ok (expandFree keyRange rangeCountLimit state (state.refinesLower keyRange))
      else do
        ytVerify (trieOffset = state.keyPrefix.length)
        ytVerify (bounds.length % 2 = 0)
        ytVerify (∀ pair ∈ boundPairs bounds, compareBound pair.1 pair.2 true false < 0)
        return expandNode keyRange rangeCountLimit state.keyPrefix
          (state.refinesLower keyRange) state.refineUpper next bounds

variable {keyRange : MutableRowRange α} {rangeCountLimit : ℕ} {state : TrieState α}
variable {expansion : Expansion α}

/-- Everything an iteration can do. -/
theorem expandState_cases (h : expandState keyRange rangeCountLimit state = .ok expansion) :
    (state.atUpperEnd keyRange = true ∧ expansion = ⟨[], [], rangeCountLimit⟩) ∨
    state.atUpperEnd keyRange = false ∧
      ((expansion = expandFree keyRange rangeCountLimit state (state.refinesLower keyRange) ∧
        ∀ offset next bounds, state.trie = .node offset next bounds → state.keyPrefix.length <
          offset) ∨ ∃ next bounds, state.trie = .node state.keyPrefix.length next bounds ∧
        expansion = expandNode keyRange rangeCountLimit state.keyPrefix
          (state.refinesLower keyRange) state.refineUpper next bounds) := by
  unfold expandState at h
  by_cases hend : state.atUpperEnd keyRange = true
  · rw [if_pos hend] at h
    exact .inl ⟨hend, (Except.ok.inj h).symm⟩
  · rw [if_neg hend] at h
    refine .inr ⟨by simpa using hend, ?_⟩
    cases ht : state.trie with
    | universal =>
      rw [ht] at h
      exact .inl ⟨(Except.ok.inj h).symm, nofun⟩
    | node trieOffset next bounds =>
      rw [ht] at h
      dsimp only at h
      split_ifs at h with ho
      · refine .inl ⟨(Except.ok.inj h).symm, fun offset next' bounds' heq => ?_⟩
        obtain ⟨rfl, -, -⟩ := KeyTrie.node.inj heq
        exact ho
      · obtain ⟨_, hv, heven⟩ := bind_eq_ok.mp h
        obtain ⟨_, -, hp⟩ := bind_eq_ok.mp heven
        obtain ⟨_, -, hn⟩ := bind_eq_ok.mp hp
        obtain rfl := ytVerify_eq_ok.mp hv
        exact .inr ⟨next, bounds, rfl, (Except.ok.inj hn).symm⟩

theorem refineNext_eq_some {offset : ℕ} {refineLower refineUpper : Bool} {pair : Value α × KeyTrie α}
    {next : NextValue α} (h : refineNext keyRange offset refineLower refineUpper pair = some next) :
    next.value = pair.1 ∧ next.trie = pair.2 := by
  unfold refineNext at h
  split_ifs at h
  exact Option.some.inj h ▸ ⟨rfl, rfl⟩

/-- Every state that an iteration adds: the one state of a free iteration, or one of a next value.
-/
theorem mem_states_cases (h : expandState keyRange rangeCountLimit state = .ok expansion)
    {next : TrieState α} (hn : next ∈ expansion.states) : state.atUpperEnd keyRange = false ∧
    ((state.refinesLower keyRange = true ∧ state.refineUpper = true ∧
        keyRange.1[state.keyPrefix.length]? = keyRange.2[state.keyPrefix.length]? ∧
        (∀ offset nexts bounds, state.trie = .node offset nexts bounds →
          state.keyPrefix.length < offset) ∧ expansion.ranges = [] ∧ next = ⟨state.trie,
          state.keyPrefix ++ (keyRange.1[state.keyPrefix.length]?).toList, true, true⟩) ∨
      ∃ nexts bounds, state.trie = .node state.keyPrefix.length nexts bounds ∧ expansion.ranges =
          ((boundPairs bounds).filterMap (refineBounds keyRange state.keyPrefix.length
          (state.refinesLower keyRange) state.refineUpper)).map
            (exactRange keyRange state.keyPrefix) ∧ ∃ pair ∈ nexts, ∃ value,
          refineNext keyRange state.keyPrefix.length (state.refinesLower keyRange)
          state.refineUpper pair = some value ∧ next = value.state state.keyPrefix) := by
  obtain ⟨-, rfl⟩ | ⟨he, ⟨rfl, hf⟩ | ⟨nexts, bounds, ht, rfl⟩⟩ := expandState_cases h
  · exact absurd hn not_mem_nil
  · obtain ⟨hl, hu, hsame, hexpand⟩ | ⟨hstates, -⟩ :=
      expandFree_cases keyRange rangeCountLimit state (state.refinesLower keyRange)
    · rw [hexpand] at hn ⊢
      exact ⟨he, .inl ⟨hl, hu, hsame, hf, rfl, mem_singleton.mp hn⟩⟩
    · rw [hstates] at hn
      exact absurd hn not_mem_nil
  · unfold expandNode at hn ⊢
    dsimp only at hn ⊢
    split_ifs at hn ⊢
    · exact absurd hn not_mem_nil
    · obtain ⟨value, hv, rfl⟩ := mem_map.mp hn
      obtain ⟨pair, hm, hp⟩ := mem_filterMap.mp hv
      exact ⟨he, .inr ⟨nexts, bounds, ht, rfl, pair, hm, value, hp, rfl⟩⟩

/-! ### The loop -/

/-- A bound on the number of iterations that a state leads to. -/
noncomputable def TrieState.weight (lowerBoundSize : ℕ) (state : TrieState α) : ℕ :=
  sizeOf state.trie * (lowerBoundSize + 1) + (lowerBoundSize + 1 - state.keyPrefix.length)

noncomputable def queueWeight (lowerBoundSize : ℕ) (states : List (TrieState α)) : ℕ :=
  (states.map (TrieState.weight lowerBoundSize)).sum

omit [LinearOrder α] in
theorem queueWeight_append (lowerBoundSize : ℕ) (l r : List (TrieState α)) :
    queueWeight lowerBoundSize (l ++ r) =
      queueWeight lowerBoundSize l + queueWeight lowerBoundSize r := by
  rw [queueWeight, map_append, sum_append]
  rfl

omit [LinearOrder α] in
theorem weight_pos (lowerBoundSize : ℕ) (state : TrieState α) : 0 < state.weight lowerBoundSize := by
  have hs : 0 < sizeOf state.trie := by cases state.trie <;> simp
  have := Nat.mul_pos hs (show 0 < lowerBoundSize + 1 by omega)
  unfold TrieState.weight
  omega

theorem queueWeight_next_le (keyRange : MutableRowRange α) (keyPrefix : List (Value α))
    (refineLower refineUpper : Bool) :
    ∀ next : List (Value α × KeyTrie α), queueWeight keyRange.1.length ((next.filterMap
        (refineNext keyRange keyPrefix.length refineLower refineUpper)).map
          (NextValue.state keyPrefix)) ≤ sizeOf next * (keyRange.1.length + 1)
  | [] => by simp [queueWeight]
  | n :: next => by
    have ih := queueWeight_next_le keyRange keyPrefix refineLower refineUpper next
    have hs : sizeOf n.2 + 1 + sizeOf next ≤ sizeOf (n :: next) := by
      obtain ⟨v, t⟩ := n
      simp only [cons.sizeOf_spec, Prod.mk.sizeOf_spec]
      omega
    have hm := Nat.mul_le_mul_right (keyRange.1.length + 1) hs
    rw [Nat.add_mul, Nat.add_mul, Nat.one_mul] at hm
    rw [filterMap_cons]
    cases hn : refineNext keyRange keyPrefix.length refineLower refineUpper n with
    | none =>
      dsimp only
      omega
    | some state =>
      have ht : state.trie = n.2 := (refineNext_eq_some hn).2
      simp only [queueWeight, map_cons, sum_cons, TrieState.weight, NextValue.state, ht] at ih ⊢
      omega

theorem queueWeight_expandFree {refineLower : Bool}
    (h : refineLower = true → state.keyPrefix.length < keyRange.1.length) :
    queueWeight keyRange.1.length (expandFree keyRange rangeCountLimit state refineLower).states <
      state.weight keyRange.1.length := by
  obtain ⟨hlower, -, -, hexpand⟩ | ⟨hs, -⟩ :=
    expandFree_cases keyRange rangeCountLimit state refineLower
  · rw [hexpand, getElem?_eq_getElem (h hlower)]
    have hlt := h hlower
    simp only [queueWeight, TrieState.weight, map_cons, map_nil, sum_cons, sum_nil,
      Option.toList_some, length_append, length_singleton]
    omega
  · rw [hs]
    exact weight_pos _ state

theorem queueWeight_expandState (h : expandState keyRange rangeCountLimit state = .ok expansion) :
    queueWeight keyRange.1.length expansion.states < state.weight keyRange.1.length := by
  obtain ⟨-, rfl⟩ | ⟨-, ⟨rfl, -⟩ | ⟨next, bounds, ht, rfl⟩⟩ := expandState_cases h
  · exact weight_pos _ _
  · refine queueWeight_expandFree fun h => ?_
    simp only [TrieState.refinesLower, Bool.and_eq_true, decide_eq_true_eq] at h
    exact h.2
  · unfold expandNode
    dsimp only
    split_ifs
    · exact weight_pos _ _
    · have hle := queueWeight_next_le keyRange state.keyPrefix
        (state.refinesLower keyRange) state.refineUpper next
      have hs : sizeOf next < sizeOf state.trie := by
        simp only [ht, KeyTrie.node.sizeOf_spec]
        omega
      have hm := Nat.mul_lt_mul_of_pos_right hs (Nat.succ_pos keyRange.1.length)
      calc _ ≤ sizeOf next * (keyRange.1.length + 1) := hle
        _ < sizeOf state.trie * (keyRange.1.length + 1) := hm
        _ ≤ _ := Nat.le_add_right _ _

theorem queueWeight_step (h : expandState keyRange rangeCountLimit state = .ok expansion)
    (rest : List (TrieState α)) : queueWeight keyRange.1.length (rest ++ expansion.states) <
      queueWeight keyRange.1.length (state :: rest) := by
  have := queueWeight_expandState h
  rw [queueWeight_append, ← singleton_append, queueWeight_append]
  simp only [queueWeight, map_cons, map_nil, sum_cons, sum_nil] at this ⊢
  omega

/-- The loop of `GetRangesFromTrieWithinRangeImpl`. -/
def expandStates (keyRange : MutableRowRange α) (states : List (TrieState α)) (rangeCountLimit : ℕ)
    (result : List (MutableRowRange α)) : Result (List (MutableRowRange α)) :=
  match states with
  | [] => .ok result
  | state :: rest =>
    match _h : expandState keyRange rangeCountLimit state with
    | .error failure => .error failure
    | .ok expansion =>
      expandStates keyRange (rest ++ expansion.states) expansion.rangeCountLimit
        (result ++ expansion.ranges)
termination_by queueWeight keyRange.1.length states
decreasing_by exact queueWeight_step _h rest

/-- The loop of `MergeOverlappingRanges`. -/
def mergeOverlappingFrom (dest : MutableRowRange α) : List (MutableRowRange α) →
    List (MutableRowRange α)
  | [] => [dest]
  | it :: rest =>
    if dest.2 < it.1 then dest :: mergeOverlappingFrom it rest
    else if dest.2 < it.2 then mergeOverlappingFrom (dest.1, it.2) rest
    else mergeOverlappingFrom dest rest

def mergeOverlappingRanges : List (MutableRowRange α) → List (MutableRowRange α)
  | [] => []
  | first :: rest => mergeOverlappingFrom first rest

def getRangesFromTrieWithinRange (keyRange : MutableRowRange α) (trie : KeyTrie α)
    (rangeCountLimit : ℕ) : Result (List (MutableRowRange α)) := do
  let result ← expandStates keyRange [⟨trie, [], true, true⟩] rangeCountLimit []
  return mergeOverlappingRanges (result.insertionSort fun l r => toLex l ≤ toLex r)

/-! ### The visits -/

/-- The states that the loop takes from the queue, each with the limit at that time. -/
def visits (keyRange : MutableRowRange α) (states : List (TrieState α)) (rangeCountLimit : ℕ) :
    List (TrieState α × ℕ) :=
  match states with
  | [] => []
  | state :: rest =>
    (state, rangeCountLimit) ::
      match _h : expandState keyRange rangeCountLimit state with
      | .error _ => []
      | .ok expansion => visits keyRange (rest ++ expansion.states) expansion.rangeCountLimit
termination_by queueWeight keyRange.1.length states
decreasing_by exact queueWeight_step _h rest

def visitRanges (keyRange : MutableRowRange α) (visit : TrieState α × ℕ) :
    List (MutableRowRange α) :=
  match expandState keyRange visit.2 visit.1 with
  | .error _ => []
  | .ok expansion => expansion.ranges

theorem queue_induction (keyRange : MutableRowRange α) {P : List (TrieState α) → ℕ → Prop}
    (nil : ∀ limit, P [] limit)
    (cons : ∀ state rest limit, (∀ expansion, expandState keyRange limit state = .ok expansion →
      P (rest ++ expansion.states) expansion.rangeCountLimit) → P (state :: rest) limit)
    (states : List (TrieState α)) (limit : ℕ) : P states limit := by
  match states with
  | [] => exact nil limit
  | state :: rest =>
    exact cons state rest limit fun expansion hexpand => queue_induction keyRange nil cons _ _
termination_by queueWeight keyRange.1.length states
decreasing_by exact queueWeight_step hexpand rest

theorem expandStates_nil (keyRange : MutableRowRange α) (limit : ℕ)
    (result : List (MutableRowRange α)) :
    expandStates keyRange [] limit result = .ok result := by rw [expandStates]

variable {limit : ℕ}

theorem expandStates_cons (h : expandState keyRange limit state = .ok expansion)
    (rest : List (TrieState α)) (result : List (MutableRowRange α)) :
    expandStates keyRange (state :: rest) limit result = expandStates keyRange
        (rest ++ expansion.states) expansion.rangeCountLimit (result ++ expansion.ranges) := by
  rw [expandStates]
  split
  · next heq => exact absurd (heq.symm.trans h) nofun
  · next heq => rw [Except.ok.inj (heq.symm.trans h)]

theorem visits_cons (h : expandState keyRange limit state = .ok expansion)
    (rest : List (TrieState α)) : visits keyRange (state :: rest) limit =
      (state, limit) :: visits keyRange (rest ++ expansion.states) expansion.rangeCountLimit := by
  rw [visits]
  split
  · next heq => exact absurd (heq.symm.trans h) nofun
  · next heq => rw [Except.ok.inj (heq.symm.trans h)]

theorem expandStates_cons_eq_ok {rest : List (TrieState α)}
    {result ranges : List (MutableRowRange α)}
    (h : expandStates keyRange (state :: rest) limit result = .ok ranges) :
    ∃ expansion, expandState keyRange limit state = .ok expansion ∧
      expandStates keyRange (rest ++ expansion.states) expansion.rangeCountLimit
        (result ++ expansion.ranges) = .ok ranges := by
  cases hs : expandState keyRange limit state with
  | error failure =>
    rw [expandStates] at h
    split at h
    · exact absurd h nofun
    · next heq => exact absurd (heq.symm.trans hs) nofun
  | ok expansion => exact ⟨expansion, rfl, expandStates_cons hs rest result ▸ h⟩

/-- When the loop returns, so does every visit, and the ranges are those of the visits. -/
theorem expandStates_eq (keyRange : MutableRowRange α) (states : List (TrieState α)) (limit : ℕ)
    (result ranges : List (MutableRowRange α))
    (h : expandStates keyRange states limit result = .ok ranges) :
    ranges = result ++ (visits keyRange states limit).flatMap (visitRanges keyRange) ∧
      ∀ visit ∈ visits keyRange states limit, ∃ expansion, expandState keyRange visit.2 visit.1 =
        .ok expansion := by
  induction states, limit using queue_induction keyRange generalizing result with
  | nil limit =>
    rw [expandStates_nil] at h
    rw [visits, flatMap_nil, append_nil, Except.ok.inj h]
    exact ⟨rfl, nofun⟩
  | cons state rest limit ih =>
    obtain ⟨expansion, hs, h⟩ := expandStates_cons_eq_ok h
    obtain ⟨hranges, hok⟩ := ih expansion hs _ h
    rw [hranges, visits_cons hs, flatMap_cons, append_assoc, visitRanges, hs]
    exact ⟨rfl, forall_mem_cons.mpr ⟨⟨expansion, hs⟩, hok⟩⟩

/-! ### Matching -/

/-- The trie matches the key: a trie of offset `i` when the value at `i` is a next value whose
subtrie matches, or lies in the bounds. -/
inductive KeyTrie.Matches : KeyTrie α → List α → Prop
  | universal {key : List α} : Matches .universal key
  | bounds {offset : ℕ} {next : List (Value α × KeyTrie α)} {bounds : List (Bound α)} {key : List α}
    {v : α} : key[offset]? = some v → Inside bounds v → Matches (.node offset next bounds) key
  | next {offset : ℕ} {next : List (Value α × KeyTrie α)} {bounds : List (Bound α)} {key : List α}
    {v : α}
      {child : KeyTrie α} : key[offset]? = some v → (.data v, child) ∈ next → Matches child key →
      Matches (.node offset next bounds) key

/-- Bounds are sorted and disjoint from the next values, which are distinct; offsets go up. -/
inductive KeyTrie.WellFormed : KeyTrie α → Prop
  | universal : WellFormed .universal
  | node {offset : ℕ} {next : List (Value α × KeyTrie α)} {bounds : List (Bound α)} :
    OrderedBounds bounds →
      (next.map Prod.fst).Nodup → (∀ v child, (.data v, child) ∈ next → ¬Inside bounds v) →
      (∀ n ∈ next, WellFormed n.2) → (∀ n ∈ next, ∀ o ns bs, n.2 = .node o ns bs → offset < o) →
      WellFormed (.node offset next bounds)

/-! ### Merging -/

def CoversRow (ranges : List (MutableRowRange α)) (x : Row α) : Prop :=
  ∃ range ∈ ranges, range.1 ≤ x ∧ x < range.2

/-- Ranges one after another, with a gap between neighbours. -/
def Separate (ranges : List (MutableRowRange α)) : Prop :=
  ranges.Pairwise fun l r => l.1 ≤ r.1 ∧ l.2 < r.1

theorem mergeOverlappingFrom_of_le {dest it : MutableRowRange α}
    (h : it.1 ≤ dest.2) (rest : List (MutableRowRange α)) : mergeOverlappingFrom dest (it :: rest) =
      mergeOverlappingFrom (dest.1, max dest.2 it.2) rest := by
  rw [mergeOverlappingFrom, if_neg (not_lt.mpr h)]
  split_ifs with hlong
  · rw [max_eq_right hlong.le]
  · rw [max_eq_left (not_lt.mp hlong)]

theorem mergeOverlappingFrom_spec : ∀ (rest : List (MutableRowRange α)) (dest : MutableRowRange α),
    ((dest :: rest).Pairwise fun l r => l.1 ≤ r.1) → Separate (mergeOverlappingFrom dest rest) ∧
      (∀ range ∈ mergeOverlappingFrom dest rest, dest.1 ≤ range.1) ∧
      ∀ x, CoversRow (mergeOverlappingFrom dest rest) x ↔ CoversRow (dest :: rest) x
  | [], dest, _ => ⟨pairwise_singleton _ _, by simp [mergeOverlappingFrom], fun x => Iff.rfl⟩
  | it :: rest, dest, hsorted => by
    obtain ⟨hd, hrest⟩ := pairwise_cons.mp hsorted
    have hit := hd it mem_cons_self
    rcases lt_or_ge dest.2 it.1 with hgap | hmeet
    · obtain ⟨hsep, hge, hc⟩ := mergeOverlappingFrom_spec rest it hrest
      rw [mergeOverlappingFrom, if_pos hgap]
      refine ⟨pairwise_cons.mpr
        ⟨fun r hr => ⟨hit.trans (hge r hr), hgap.trans_le (hge r hr)⟩, hsep⟩, ?_, ?_⟩
      · exact forall_mem_cons.mpr ⟨le_rfl, fun r hr => hit.trans (hge r hr)⟩
      · intro x
        exact inIntervals_cons.trans ((or_congr_right (hc x)).trans inIntervals_cons.symm)
    · obtain ⟨hsep, hge, hc⟩ := mergeOverlappingFrom_spec rest (dest.1, max dest.2 it.2)
        (pairwise_cons.mpr ⟨fun r hr => hd r (mem_cons_of_mem it hr), (pairwise_cons.mp hrest).2⟩)
      rw [mergeOverlappingFrom_of_le hmeet]
      exact ⟨hsep, hge, fun x => (hc x).trans (inIntervals_hull hit hmeet)⟩

/-- Sorting and merging keep the rows and leave gaps between the ranges. -/
theorem mergeOverlappingRanges_spec (ranges : List (MutableRowRange α)) :
    Separate (mergeOverlappingRanges (ranges.insertionSort fun l r => toLex l ≤ toLex r)) ∧ ∀ x,
        CoversRow (mergeOverlappingRanges (ranges.insertionSort fun l r => toLex l ≤ toLex r)) x ↔
        CoversRow ranges x := by
  have hsorted : (ranges.insertionSort fun l r => toLex l ≤ toLex r).Pairwise fun l r => l.1 ≤ r.1 := by
    refine (pairwise_insertionSort _ ranges).imp fun {l r} h => ?_
    rcases Prod.Lex.toLex_le_toLex.mp h with h | h
    · exact h.le
    · exact h.1.le
  have hm : ∀ range, range ∈ ranges.insertionSort (fun l r => toLex l ≤ toLex r) ↔ range ∈ ranges :=
    fun range => mem_insertionSort _
  generalize ranges.insertionSort (fun l r => toLex l ≤ toLex r) = sorted at hsorted hm ⊢
  have hc : ∀ x, CoversRow sorted x ↔ CoversRow ranges x := by simp [CoversRow, hm]
  cases sorted with
  | nil => exact ⟨.nil, hc⟩
  | cons first rest =>
    obtain ⟨hsep, -, hr⟩ := mergeOverlappingFrom_spec rest first hsorted
    exact ⟨hsep, fun x => (hr x).trans (hc x)⟩

end Code

end Ytsaurus.Query
