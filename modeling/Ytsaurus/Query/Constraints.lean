/-
# The holder of key constraints

`query/base/constraints.cpp`: a constraint on keys is a slice of intervals of
one key column, and every interval has a further constraint on later columns,
`Next`. The intervals of a column lie in one vector that only grows; a
reference names a column and a slice of its vector, and the sentinel column
stands for the universal constraint.

The loops of `Intersect`, `Unite` and `Invert` read their operands' slices
while they append to the same vectors. The model takes the slices before the
loop: an element that exists never changes (`Grows.slice_eq`). The recursion
along `Next` is bounded by fuel that never runs out (`ConstraintAlgebra`).
-/
import Ytsaurus.TableClient.Value

namespace Ytsaurus.Query

open TableClient

/-- `TValueBound`: a place between values, before or after `value`. -/
structure ValueBound (α : Type) where
  value : Value α
  flag : Bool
  deriving DecidableEq, Repr

def sentinelColumnId : ℕ := 2 ^ 32 - 1

structure ConstraintRef where
  columnId : ℕ := sentinelColumnId
  startIndex : ℕ := 0
  endIndex : ℕ := 0
  deriving DecidableEq, Repr

namespace ConstraintRef

def empty : ConstraintRef := { columnId := 0 }

def universal : ConstraintRef := {}

end ConstraintRef

structure Constraint (α : Type) where
  lowerValue : Value α
  upperValue : Value α
  next : ConstraintRef
  lowerIncluded : Bool
  upperIncluded : Bool
  deriving DecidableEq, Repr

section

variable {α : Type}

namespace ValueBound

def minBound : ValueBound α := ⟨.min, false⟩

def maxBound : ValueBound α := ⟨.max, false⟩

def tie (bound : ValueBound α) : Value α ×ₗ Bool := toLex (bound.value, bound.flag)

theorem tie_injective : Function.Injective (tie (α := α)) := by
  rintro ⟨v, f⟩ ⟨w, g⟩ h
  have := congrArg ofLex h
  obtain ⟨rfl, rfl⟩ := this
  rfl

end ValueBound

def Constraint.getLowerBound (c : Constraint α) : ValueBound α := ⟨c.lowerValue, !c.lowerIncluded⟩

def Constraint.getUpperBound (c : Constraint α) : ValueBound α := ⟨c.upperValue, c.upperIncluded⟩

/-- `TConstraintsHolder`: the vectors of the columns. -/
structure ConstraintsHolder (α : Type) where
  columns : List (List (Constraint α))
  deriving DecidableEq, Repr

namespace ConstraintsHolder

/-- The constructor: `columnCount` empty vectors. -/
def new (columnCount : ℕ) : ConstraintsHolder α := ⟨List.replicate columnCount []⟩

def column (holder : ConstraintsHolder α) (columnId : ℕ) : List (Constraint α) :=
  holder.columns.getD columnId []

def slice (holder : ConstraintsHolder α) (ref : ConstraintRef) : List (Constraint α) :=
  ((holder.column ref.columnId).take ref.endIndex).drop ref.startIndex

def pushBack (holder : ConstraintsHolder α) (columnId : ℕ) (item : Constraint α) :
    ConstraintsHolder α :=
  ⟨holder.columns.modify columnId (· ++ [item])⟩

def append (holder : ConstraintsHolder α) (constraints : List (Constraint α)) (keyPartIndex : ℕ) :
    ConstraintsHolder α × ConstraintRef :=
  let startIndex := (holder.column keyPartIndex).length
  (⟨holder.columns.modify keyPartIndex (· ++ constraints)⟩,
    ⟨keyPartIndex, startIndex, startIndex + constraints.length⟩)

/-- The reference to what was appended to a column since it had `startIndex` elements. -/
def since (holder : ConstraintsHolder α) (columnId startIndex : ℕ) : ConstraintRef :=
  ⟨columnId, startIndex, (holder.column columnId).length⟩

end ConstraintsHolder

variable [LinearOrder α]

instance : LinearOrder (ValueBound α) := LinearOrder.lift' ValueBound.tie ValueBound.tie_injective

def testValue (value : Value α) (lower upper : ValueBound α) : Bool :=
  decide (lower < ⟨value, true⟩) && decide ((⟨value, false⟩ : ValueBound α) < upper)

def Constraint.make (lowerBound upperBound : ValueBound α) (next : ConstraintRef := .universal) :
    Result (Constraint α) := do
  ytVerify (lowerBound < upperBound)
  return ⟨lowerBound.value, upperBound.value, next, !lowerBound.flag, upperBound.flag⟩

namespace ConstraintsHolder

variable (holder : ConstraintsHolder α)

def interval (lower upper : ValueBound α) (keyPartIndex : ℕ) :
    Result (ConstraintsHolder α × ConstraintRef) := do
  let item ← Constraint.make lower upper
  return holder.append [item] keyPartIndex

def constant (value : Value α) (keyPartIndex : ℕ) :
    Result (ConstraintsHolder α × ConstraintRef) :=
  holder.interval ⟨value, false⟩ ⟨value, true⟩ keyPartIndex

def verifyConstraintsAreSorted (ref : ConstraintRef) : Result Unit :=
  if ref.columnId = sentinelColumnId then .ok ()
  else ytVerify ((holder.slice ref).IsChain fun a b => a.getUpperBound ≤ b.getLowerBound)

/-- `Make`, then `push_back` on the column. -/
def pushMake (columnId : ℕ) (lower upper : ValueBound α)
    (next : ConstraintRef := .universal) : Result (ConstraintsHolder α) := do
  let item ← Constraint.make lower upper next
  return holder.pushBack columnId item

/-- `Make` and `push_back` where the interval is not empty. -/
def pushIfLess (columnId : ℕ) (lower upper : ValueBound α)
    (next : ConstraintRef := .universal) : Result (ConstraintsHolder α) :=
  if lower < upper then holder.pushMake columnId lower upper next else return holder

/-- `Make` and `push_back` where `next` is universal or not an empty slice. -/
def pushUnlessEmpty (columnId : ℕ) (lower upper : ValueBound α)
    (next : ConstraintRef) : Result (ConstraintsHolder α) :=
  if next.columnId = sentinelColumnId ∨ next.startIndex ≠ next.endIndex then
    holder.pushMake columnId lower upper next
  else return holder

/-- What a call of an operation on two references is to the loops. -/
abbrev BinaryOp (α : Type) :=
  ConstraintsHolder α → ConstraintRef → ConstraintRef → Result (ConstraintsHolder α × ConstraintRef)

/-! ### Intersect -/

/-- The loop of `Intersect` over the constraint of the earlier column: `Next`
of each item is intersected with `rhs`. -/
def intersectNexts (intersect : BinaryOp α) (columnId : ℕ) (rhs : ConstraintRef) :
    List (Constraint α) → ConstraintsHolder α → Result (ConstraintsHolder α)
  | [], holder => return holder
  | lhsItem :: items, holder => do
    let (holder, next) ← intersect holder lhsItem.next rhs
    let holder ← holder.pushUnlessEmpty columnId lhsItem.getLowerBound lhsItem.getUpperBound next
    intersectNexts intersect columnId rhs items holder

/-- What the loop of `Intersect` appends for two items of one column. -/
def intersectPair (intersect : BinaryOp α) (columnId : ℕ) (lhsItem rhsItem : Constraint α)
    (holder : ConstraintsHolder α) : Result (ConstraintsHolder α) :=
  let intersectionLower := max lhsItem.getLowerBound rhsItem.getLowerBound
  let intersectionUpper := min lhsItem.getUpperBound rhsItem.getUpperBound
  if intersectionLower < intersectionUpper then do
    let (holder, next) ← intersect holder lhsItem.next rhsItem.next
    holder.pushUnlessEmpty columnId intersectionLower intersectionUpper next
  else return holder

/-- The loop of `Intersect` over two constraints of one column. -/
def intersectItems (intersect : BinaryOp α) (columnId : ℕ) :
    List (Constraint α) → List (Constraint α) → ConstraintsHolder α → Result (ConstraintsHolder α)
  | lhsItem :: ls, rhsItem :: rs, holder => do
    let holder ← intersectPair intersect columnId lhsItem rhsItem holder
    if lhsItem.getUpperBound < rhsItem.getUpperBound then
      intersectItems intersect columnId ls (rhsItem :: rs) holder
    else if rhsItem.getUpperBound < lhsItem.getUpperBound then
      intersectItems intersect columnId (lhsItem :: ls) rs holder
    else intersectItems intersect columnId ls rs holder
  | _, _, holder => return holder
termination_by ls rs => ls.length + rs.length

/-- The operands with the earlier column first. -/
def orderRefs (lhs rhs : ConstraintRef) : ConstraintRef × ConstraintRef :=
  if rhs.columnId < lhs.columnId then (rhs, lhs) else (lhs, rhs)

/-- `Intersect` after its operands have been put in order. -/
def intersectOrdered (intersect : BinaryOp α) : BinaryOp α := fun holder lhs rhs =>
  if lhs.columnId < rhs.columnId then do
    let startIndex := (holder.column lhs.columnId).length
    let holder ← intersectNexts intersect lhs.columnId rhs (holder.slice lhs) holder
    return (holder, holder.since lhs.columnId startIndex)
  else do
    ytVerify (lhs.columnId = rhs.columnId)
    if lhs.columnId = sentinelColumnId then
      return (holder, .universal)
    else
      let startIndex := (holder.column lhs.columnId).length
      let holder ← intersectItems intersect lhs.columnId (holder.slice lhs) (holder.slice rhs) holder
      return (holder, holder.since lhs.columnId startIndex)

/-- `Intersect`, for references with at most `fuel` columns. -/
def intersectFuel : ℕ → BinaryOp α
  | 0, _, _, _ => .error .fuel
  | fuel + 1, holder, lhs, rhs => do
    holder.verifyConstraintsAreSorted lhs
    holder.verifyConstraintsAreSorted rhs
    let (lhs, rhs) := orderRefs lhs rhs
    intersectOrdered (intersectFuel fuel) holder lhs rhs

def intersect (lhs rhs : ConstraintRef) : Result (ConstraintsHolder α × ConstraintRef) :=
  intersectFuel (holder.columns.length + 1) holder lhs rhs

/-! ### Unite -/

/-- The last two loops of `Unite`: the items that one operand has left. -/
def uniteRest (columnId : ℕ) (lastBound : ValueBound α) :
    List (Constraint α) → ConstraintsHolder α → Result (ConstraintsHolder α)
  | [], holder => return holder
  | item :: items, holder => do
    let lowerBound := max lastBound item.getLowerBound
    let upperBound := item.getUpperBound
    let holder ← holder.pushIfLess columnId lowerBound upperBound item.next
    uniteRest columnId lastBound items holder

/-- What the loop of `Unite` appends for two items that overlap: the part
before the intersection, and the intersection. -/
def uniteOverlap (unite : BinaryOp α) (columnId : ℕ) (lhsItem rhsItem : Constraint α)
    (lastBound : ValueBound α) (holder : ConstraintsHolder α) : Result (ConstraintsHolder α) := do
  let lhsLower := lhsItem.getLowerBound
  let rhsLower := rhsItem.getLowerBound
  let intersectionLower := max lhsLower rhsLower
  let intersectionUpper := min lhsItem.getUpperBound rhsItem.getUpperBound
  let unionLower := max lastBound (if lhsLower < rhsLower then lhsLower else rhsLower)
  let holder ← holder.pushIfLess columnId unionLower intersectionLower
    (if lhsLower < rhsLower then lhsItem.next else rhsItem.next)
  ytVerify (intersectionLower < intersectionUpper)
  let (holder, next) ← unite holder lhsItem.next rhsItem.next
  holder.pushMake columnId intersectionLower intersectionUpper next

/-- The loops of `Unite`. -/
def uniteItems (unite : BinaryOp α) (columnId : ℕ) : List (Constraint α) → List (Constraint α) →
    ValueBound α → ConstraintsHolder α → Result (ConstraintsHolder α)
  | lhsItem :: ls, rhsItem :: rs, lastBound, holder => do
    let lhsLower := lhsItem.getLowerBound
    let lhsUpper := lhsItem.getUpperBound
    let rhsLower := rhsItem.getLowerBound
    let rhsUpper := rhsItem.getUpperBound
    -- disjoint, lhs first
    if lhsUpper ≤ rhsLower then
      let holder ← holder.pushMake columnId (max lastBound lhsLower) lhsUpper lhsItem.next
      uniteItems unite columnId ls (rhsItem :: rs) lastBound holder
    -- disjoint, rhs first
    else if rhsUpper ≤ lhsLower then
      let holder ← holder.pushMake columnId (max lastBound rhsLower) rhsUpper rhsItem.next
      uniteItems unite columnId (lhsItem :: ls) rs lastBound holder
    else
      let holder ← uniteOverlap unite columnId lhsItem rhsItem lastBound holder
      let lastBound := min lhsUpper rhsUpper
      if lhsUpper < rhsUpper then uniteItems unite columnId ls (rhsItem :: rs) lastBound holder
      else if rhsUpper < lhsUpper then uniteItems unite columnId (lhsItem :: ls) rs lastBound holder
      else uniteItems unite columnId ls rs lastBound holder
  | ls, rs, lastBound, holder => do
    let holder ← uniteRest columnId lastBound ls holder
    uniteRest columnId lastBound rs holder
termination_by ls rs => ls.length + rs.length

/-- The later operand of `Unite` under the column of the earlier one: a
skipped column is a universal constraint. -/
def underColumn (columnId : ℕ) (ref : ConstraintRef) :
    Result (ConstraintsHolder α × ConstraintRef) :=
  if columnId < ref.columnId then do
    let item ← Constraint.make .minBound .maxBound ref
    return holder.append [item] columnId
  else return (holder, ref)

/-- `Unite` of two constraints of one column. -/
def uniteSameColumn (unite : BinaryOp α) : BinaryOp α := fun holder lhs rhs => do
  ytVerify (lhs.columnId = rhs.columnId)
  if lhs.columnId = sentinelColumnId then
    return (holder, .universal)
  else
    let startIndex := (holder.column lhs.columnId).length
    let holder ← uniteItems unite lhs.columnId (holder.slice lhs) (holder.slice rhs) .minBound holder
    return (holder, holder.since lhs.columnId startIndex)

/-- `Unite`, for references with at most `fuel` columns. -/
def uniteFuel : ℕ → BinaryOp α
  | 0, _, _, _ => .error .fuel
  | fuel + 1, holder, lhs, rhs => do
    holder.verifyConstraintsAreSorted lhs
    holder.verifyConstraintsAreSorted rhs
    let (lhs, rhs) := orderRefs lhs rhs
    let (holder, rhs) ← holder.underColumn lhs.columnId rhs
    uniteSameColumn (uniteFuel fuel) holder lhs rhs

def unite (lhs rhs : ConstraintRef) : Result (ConstraintsHolder α × ConstraintRef) :=
  uniteFuel (holder.columns.length + 1) holder lhs rhs

/-! ### Invert -/

/-- What a call of `Invert` is to its loop. -/
abbrev UnaryOp (α : Type) :=
  ConstraintsHolder α → ConstraintRef → Result (ConstraintsHolder α × ConstraintRef)

/-- What the loop of `Invert` appends for an item itself. -/
def invertItem (invert : UnaryOp α) (columnId : ℕ) (item : Constraint α)
    (holder : ConstraintsHolder α) : Result (ConstraintsHolder α) :=
  if item.next.columnId ≠ sentinelColumnId then do
    let (holder, invertedNext) ← invert holder item.next
    holder.pushMake columnId item.getLowerBound item.getUpperBound invertedNext
  else return holder

/-- The loop of `Invert` and the interval after it. -/
def invertItems (invert : UnaryOp α) (columnId : ℕ) :
    List (Constraint α) → ValueBound α → ConstraintsHolder α → Result (ConstraintsHolder α)
  | [], currentBound, holder => holder.pushIfLess columnId currentBound .maxBound
  | item :: items, currentBound, holder => do
    let holder ← holder.pushIfLess columnId currentBound item.getLowerBound
    let holder ← invertItem invert columnId item holder
    invertItems invert columnId items item.getUpperBound holder

/-- `Invert`, for references with at most `fuel` columns. -/
def invertFuel : ℕ → UnaryOp α
  | 0, _, _ => .error .fuel
  | fuel + 1, holder, constraints => do
    if constraints.columnId = sentinelColumnId then
      return (holder, constraints)
    else
      let startIndex := (holder.column constraints.columnId).length
      let holder ←
        invertItems (invertFuel fuel) constraints.columnId (holder.slice constraints) .minBound holder
      return (holder, holder.since constraints.columnId startIndex)

def invert (constraints : ConstraintRef) :
    Result (ConstraintsHolder α × ConstraintRef) :=
  invertFuel (holder.columns.length + 1) holder constraints

end ConstraintsHolder

end

end Ytsaurus.Query
