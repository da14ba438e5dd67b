/-
# Read ranges of a constraint

`TReadRangesGenerator` of `query/base/constraints.cpp` walks a constraint in the
order of the key columns and reports a row of column constraints for every
leaf; below the columns that the expansion limit allows it reports the hull of
a slice. `CreateNewLightRangeInferrer` of `query/engine/new_range_inferrer.cpp`
makes a range of legacy rows of every reported row, puts the ranges in the
order of the table's sort orders and folds those that touch or repeat.

`TRange::Front` and `Back` of an empty slice only have a debug assertion, so
here they are undefined.
-/
import Ytsaurus.TableClient.LegacyRow
import Ytsaurus.Query.ExtractConstraints

namespace Ytsaurus.Query

open TableClient

section

variable {α : Type}

structure ColumnConstraint (α : Type) where
  lower : ValueBound α
  upper : ValueBound α
  deriving DecidableEq, Repr

namespace ColumnConstraint

def universalInterval : ColumnConstraint α := ⟨.minBound, .maxBound⟩

def isExact [DecidableEq α] (c : ColumnConstraint α) : Bool :=
  c.lower.value == c.upper.value && !c.lower.flag && c.upper.flag

def getValue (c : ColumnConstraint α) : Value α := c.lower.value

end ColumnConstraint

def Constraint.toColumnConstraint (item : Constraint α) : ColumnConstraint α :=
  ⟨item.getLowerBound, item.getUpperBound⟩

abbrev ConstraintRow (α : Type) := List (ColumnConstraint α)

/-- `TRowRange`: rows that are included below and excluded above. -/
abbrev RowRange (α : Type) := Row α × Row α

namespace ConstraintsHolder

/-! ### The generator -/

/-- The loop of `EstimateExpansion` over the intervals of a slice. -/
def estimateItems (estimate : ConstraintRef → Result ℕ) (rangeExpansionLimit : ℕ) :
    List (Constraint α) → ℕ → Result ℕ
  | [], result => return result
  | item :: items, result => do
    let newExpansion ← estimate item.next
    if newExpansion < rangeExpansionLimit - result then
      estimateItems estimate rangeExpansionLimit items (result + newExpansion)
    else return rangeExpansionLimit

def estimateExpansion (holder : ConstraintsHolder α) (keyWidthLimit rangeExpansionLimit : ℕ) :
    ℕ → ConstraintRef → Result ℕ
  | 0, _ => .error .fuel
  | fuel + 1, ref =>
    if ref.columnId = sentinelColumnId ∨ keyWidthLimit < ref.columnId then return 1
    else
      estimateItems (holder.estimateExpansion keyWidthLimit rangeExpansionLimit fuel)
        rangeExpansionLimit (holder.slice ref) 0

/-- The loop of `GetExpansionDepthAndEstimation` with `left` columns left. -/
def expansionDepth (holder : ConstraintsHolder α) (ref : ConstraintRef) (rangeExpansionLimit : ℕ) :
    ℕ → ℕ → ℕ → Result (ℕ × ℕ)
  | 0, keyWidth, expansion => return (keyWidth, expansion)
  | left + 1, keyWidth, expansion => do
    let nextExpansion ← holder.estimateExpansion keyWidth rangeExpansionLimit
      (holder.columns.length + 1) ref
    if rangeExpansionLimit ≤ nextExpansion then return (keyWidth, expansion)
    else holder.expansionDepth ref rangeExpansionLimit left (keyWidth + 1) nextExpansion

def getExpansionDepthAndEstimation (holder : ConstraintsHolder α) (ref : ConstraintRef)
    (rangeExpansionLimit : ℕ) : Result (ℕ × ℕ) :=
  holder.expansionDepth ref rangeExpansionLimit holder.columns.length 0 1

/-- A walk below a reference: it reports rows, and leaves `Row_` behind. -/
abbrev Walk (α : Type) :=
  ConstraintRef → ConstraintRow α → Result (List (ConstraintRow α) × ConstraintRow α)

/-- The loop of `GenerateReadRanges` over the intervals of a slice. -/
def generateItems (walk : Walk α) (columnId : ℕ) :
    List (Constraint α) → ConstraintRow α → Result (List (ConstraintRow α) × ConstraintRow α)
  | [], row => return ([], row)
  | item :: items, row => do
    let (reported, row) ← walk item.next (row.set columnId item.toColumnConstraint)
    let (others, row) ← generateItems walk columnId items row
    return (reported ++ others, row)

/-- `GenerateReadRanges`: the rows that it passes to `onRange`, and `Row_`. -/
def generateReadRanges (holder : ConstraintsHolder α) (keyWidthLimit : ℕ) : ℕ → Walk α
  | 0, _, _ => .error .fuel
  | fuel + 1, ref, row =>
    if ref.columnId = sentinelColumnId then return ([row], row)
    else if keyWidthLimit ≤ ref.columnId then
      match (holder.slice ref).head?, (holder.slice ref).getLast? with
      | some front, some back =>
        let row := row.set ref.columnId ⟨front.getLowerBound, back.getUpperBound⟩
        return ([row], row.set ref.columnId .universalInterval)
      | _, _ => .error .undefined
    else do
      let (reported, row) ←
        generateItems (holder.generateReadRanges keyWidthLimit fuel) ref.columnId (holder.slice ref) row
      return (reported, row.set ref.columnId .universalInterval)

end ConstraintsHolder

/-! ### Ranges of rows -/

def makeLowerBound [DecidableEq α] (boundPrefix : Row α) (lastBound : ValueBound α) : Row α :=
  if lastBound.value = .min then boundPrefix
  else boundPrefix ++ lastBound.value :: if lastBound.flag then [.max] else []

def makeUpperBound (boundPrefix : Row α) (lastBound : ValueBound α) : Row α :=
  boundPrefix ++ lastBound.value :: if lastBound.flag then [.max] else []

def rowRangeFromPrefix (boundPrefix : Row α) : RowRange α := (boundPrefix, boundPrefix ++ [.max])

/-- The `getBound` of `CreateNewLightRangeInferrer`. -/
def getBound [DecidableEq α] (ascending : Bool) (c : ColumnConstraint α) (isUpper : Bool) :
    ValueBound α :=
  let bound := if isUpper = ascending then c.upper else c.lower
  if ascending then bound
  else if bound.value = .min ∨ bound.value = .max then if isUpper then .maxBound else .minBound
  else ⟨bound.value, !bound.flag⟩

/-- The range that `CreateNewLightRangeInferrer` makes of a reported row. -/
def lightRange [DecidableEq α] (comparator : Comparator) (constraintRow : ConstraintRow α) :
    RowRange α :=
  let boundRow := (constraintRow.takeWhile ColumnConstraint.isExact).map ColumnConstraint.getValue
  match constraintRow[boundRow.length]? with
  | some constraint =>
    let ascending := comparator.sortOrders.getD boundRow.length .ascending == .ascending
    (makeLowerBound boundRow (getBound ascending constraint false),
      makeUpperBound boundRow (getBound ascending constraint true))
  | none => rowRangeFromPrefix boundRow

variable [LinearOrder α]

/-- The `toKeyBound` of `CreateNewLightRangeInferrer` for a range's lower row. -/
def lowerKeyBound (comparator : Comparator) (range : RowRange α) : KeyBoundRef α :=
  rowToKeyBoundRef (some range.1) false comparator.getLength

/-- The same for a range's upper row. -/
def upperKeyBound (comparator : Comparator) (range : RowRange α) : KeyBoundRef α :=
  rowToKeyBoundRef (some range.2) true comparator.getLength

/-- What the comparisons of a `std::sort` check: each range takes part in one
when there are several. -/
def validateRanges (comparator : Comparator) (ranges : List (RowRange α)) : Result Unit :=
  if 1 < ranges.length then
    ranges.forM fun range => do
      let _ ← comparator.compareKeyBoundRefs (lowerKeyBound comparator range)
        (lowerKeyBound comparator range) 0
  else .ok ()

/-- `std::sort` by the lower bounds, when some column is descending. -/
def sortRanges (comparator : Comparator) (ranges : List (RowRange α)) : Result (List (RowRange α)) :=
  if comparator.hasDescendingSortOrder then do
    validateRanges comparator ranges
    return ranges.insertionSort fun lhs rhs =>
      comparator.compareKeyBoundsUnchecked (lowerKeyBound comparator lhs)
        (lowerKeyBound comparator rhs) 0 ≤ 0
  else .ok ranges

/-- The loop that folds the ranges; `back` is the last one of `resultRanges`. -/
def foldRanges (comparator : Comparator) : RowRange α → List (RowRange α) →
    Result (List (RowRange α))
  | back, [] => return [back]
  | back, range :: ranges => do
    let boundaryComparison ←
      comparator.compareKeyBoundRefs (upperKeyBound comparator back) (lowerKeyBound comparator range) 0
    if boundaryComparison = 0 then foldRanges comparator (back.1, range.2) ranges
    else if back = range then foldRanges comparator back ranges
    else if back.2 = range.2 then do
      let lowerComparison ←
        comparator.compareKeyBoundRefs (lowerKeyBound comparator back) (lowerKeyBound comparator range) 0
      ytVerify (lowerComparison ≤ 0)
      foldRanges comparator back ranges
    else do
      ytVerify (boundaryComparison < 0)
      let others ← foldRanges comparator range ranges
      return back :: others

def foldAllRanges (comparator : Comparator) : List (RowRange α) → Result (List (RowRange α))
  | [] => return []
  | range :: ranges => foldRanges comparator range ranges

/-- `CreateNewLightRangeInferrer` from the constraint on. -/
def ConstraintsHolder.lightRanges (holder : ConstraintsHolder α) (ref : ConstraintRef)
    (comparator : Comparator) (rangeExpansionLimit : ℕ) : Result (List (RowRange α)) := do
  let (keyWidth, _) ← holder.getExpansionDepthAndEstimation ref rangeExpansionLimit
  let (reported, _) ← holder.generateReadRanges keyWidth (holder.columns.length + 1) ref
    (List.replicate holder.columns.length .universalInterval)
  let ranges ← sortRanges comparator (reported.map (lightRange comparator))
  foldAllRanges comparator ranges

end

def createNewLightRangeInferrer (predicate : Option Expression) (keyColumns : List String)
    (comparator : Comparator)
    (constraintExtractors : ConstraintsHolder.ConstraintExtractors) (rangeExpansionLimit : ℕ) :
    Result (List (RowRange Scalar)) := do
  let (constraints, constraintRef) ← (ConstraintsHolder.new keyColumns.length).extractFromExpression
    predicate
    keyColumns constraintExtractors
  constraints.lightRanges constraintRef comparator rangeExpansionLimit

end Ytsaurus.Query
