/-
# Key constraints of a predicate

`TConstraintsHolder::ExtractFromExpression` of
`query/engine_api/new_range_inferrer.cpp`: a predicate becomes a constraint on
keys. `AND`, `OR` and `NOT` become `Intersect`, `Unite` and `Invert`; a
relational operator between a key column and a literal becomes intervals; an
`IN` list becomes a trie over the key columns among its arguments, built from
the last key column to the first; a `BETWEEN` range becomes two chains of
intervals over the leading arguments that are increasing key columns.
-/
import Ytsaurus.Query.Constraints
import Ytsaurus.Query.Expression

namespace Ytsaurus.Query

open TableClient

/-- `ColumnNameToKeyPartIndex`; `none` is the source's `-1`. -/
def columnNameToKeyPartIndex (keyColumns : List String) (columnName : String) : Option ℕ :=
  keyColumns.findIdx? (· == columnName)

/-- The key column that an expression is a reference to. -/
def keyPartOf (keyColumns : List String) : Expression → Option ℕ
  | .reference _ columnName => columnNameToKeyPartIndex keyColumns columnName
  | _ => none

/-- The loop of `BuildKeyMapping`, from the argument `index` on. -/
def buildKeyMappingFrom (keyColumns : List String) : ℕ → List Expression → List (Option ℕ) →
    List (Option ℕ)
  | _, [], keyMapping => keyMapping
  | index, expression :: expressions, keyMapping =>
    match keyPartOf keyColumns expression with
    | some keyPartIndex =>
      if keyMapping[keyPartIndex]? = some none then
        buildKeyMappingFrom keyColumns (index + 1) expressions (keyMapping.set keyPartIndex (some index))
      else buildKeyMappingFrom keyColumns (index + 1) expressions keyMapping
    | none => buildKeyMappingFrom keyColumns (index + 1) expressions keyMapping

/-- `BuildKeyMapping`: for each key column, the argument that is a reference
to it, if any. -/
def buildKeyMapping (keyColumns : List String) (expressions : List Expression) : List (Option ℕ) :=
  buildKeyMappingFrom keyColumns 0 expressions (List.replicate keyColumns.length none)

/-- The value of a tuple at an argument; tuples are as long as the arguments. -/
def Tuple.at (tuple : Tuple) (index : ℕ) : Scalar := tuple.getD index .null

def compareRowUsingMapping (lhs rhs : Tuple) : List (Option ℕ) → ℤ
  | [] => 0
  | none :: mapping => compareRowUsingMapping lhs rhs mapping
  | some index :: mapping =>
    let result := ternaryCompare (lhs.at index) (rhs.at index)
    if result ≠ 0 then result else compareRowUsingMapping lhs rhs mapping

def getEqualPrefixUsingMapping (lhs rhs : Tuple) : List (Option ℕ) → ℕ
  | [] => 0
  | none :: mapping => getEqualPrefixUsingMapping lhs rhs mapping + 1
  | some index :: mapping =>
    if lhs.at index ≠ rhs.at index then 0 else getEqualPrefixUsingMapping lhs rhs mapping + 1

/-- The check that the mapped arguments come in the order of the key columns;
`expected` is `lastExpressionIndex + 1`. -/
def isOrderedMapping : ℕ → List (Option ℕ) → Bool
  | _, [] => true
  | expected, none :: mapping => isOrderedMapping expected mapping
  | expected, some index :: mapping =>
    if index + 1 = expected then isOrderedMapping expected mapping
    else if index = expected then isOrderedMapping (expected + 1) mapping
    else false

/-- The rows of an `IN` list in the order of the key columns. -/
def orderValues (keyMapping : List (Option ℕ)) (values : List Tuple) : Result (List Tuple) :=
  if isOrderedMapping 0 keyMapping then do
    ytVerify (values.IsChain fun lhs rhs => compareRowUsingMapping lhs rhs keyMapping ≤ 0)
    return values
  else return values.insertionSort fun lhs rhs => compareRowUsingMapping lhs rhs keyMapping ≤ 0

/-- The rows with `commonKeyPrefixes`: how many key columns a row has in
common with the row before it. -/
def withCommonPrefixes (keyMapping : List (Option ℕ)) : List Tuple → List (Tuple × ℕ)
  | [] => []
  | first :: values =>
    (first, 0) ::
      List.zipWith (fun lhs rhs => (rhs, getEqualPrefixUsingMapping lhs rhs keyMapping))
        (first :: values) values

namespace ConstraintsHolder

variable (holder : ConstraintsHolder Scalar)

/-- `columnConstraints.back().Next.EndIndex = endIndex`. -/
def setBackNextEnd (columnId endIndex : ℕ) : ConstraintsHolder Scalar :=
  ⟨holder.columns.modify columnId fun items =>
    items.modify (items.length - 1) fun item => { item with next := { item.next with endIndex } }⟩

/-- The loop over the rows of an `IN` list for one key column. -/
def extractInColumn (keyIndex index : ℕ) (lastKeyIndex : Option ℕ) :
    List (Tuple × ℕ) → ℕ → ConstraintsHolder Scalar → Result (ConstraintsHolder Scalar)
  | [], _, holder => return holder
  | (row, commonKeyPrefix) :: rows, currentNextOffset, holder =>
    let value := Value.data (row.at index)
    if keyIndex < commonKeyPrefix then
      match lastKeyIndex with
      | some lastKey =>
        if commonKeyPrefix ≤ lastKey then
          extractInColumn keyIndex index lastKeyIndex rows (currentNextOffset + 1)
            (holder.setBackNextEnd keyIndex (currentNextOffset + 1))
        else extractInColumn keyIndex index lastKeyIndex rows currentNextOffset holder
      | none => extractInColumn keyIndex index lastKeyIndex rows currentNextOffset holder
    else
      match lastKeyIndex with
      | some lastKey => do
        let holder ← holder.pushMake keyIndex ⟨value, false⟩ ⟨value, true⟩
          ⟨lastKey, currentNextOffset, currentNextOffset + 1⟩
        extractInColumn keyIndex index lastKeyIndex rows (currentNextOffset + 1) holder
      | none => do
        let holder ← holder.pushMake keyIndex ⟨value, false⟩ ⟨value, true⟩
        extractInColumn keyIndex index lastKeyIndex rows currentNextOffset holder

/-- The loop over the key columns of an `IN` list, from the last to the first:
`keyMapping` is what the first `keyMapping.length` key columns map to. -/
def extractInColumns (rows : List (Tuple × ℕ)) : List (Option ℕ) → Option ℕ → ℕ →
    ConstraintsHolder Scalar → Result (ConstraintsHolder Scalar × Option ℕ × ℕ)
  | [], lastKeyIndex, lastKeyStartOffset, holder =>
    return (holder, lastKeyIndex, lastKeyStartOffset)
  | none :: keyMapping, lastKeyIndex, lastKeyStartOffset, holder =>
    extractInColumns rows keyMapping lastKeyIndex lastKeyStartOffset holder
  | some index :: keyMapping, lastKeyIndex, lastKeyStartOffset, holder => do
    -- the list is reversed: what is left are the key columns before this one
    let keyIndex := keyMapping.length
    let startOffset := (holder.column keyIndex).length
    let holder ← extractInColumn keyIndex index lastKeyIndex rows lastKeyStartOffset holder
    extractInColumns rows keyMapping (some keyIndex) startOffset holder

/-- `ExtractFromExpression` of an `IN` expression. -/
def extractIn (keyColumns : List String) (arguments : List Expression)
    (values : List Tuple) : Result (ConstraintsHolder Scalar × ConstraintRef) := do
  let keyMapping := buildKeyMapping keyColumns arguments
  let values ← orderValues keyMapping values
  let rows := withCommonPrefixes keyMapping values
  let (holder, lastKeyIndex, lastKeyStartOffset) ← extractInColumns rows keyMapping.reverse
    none 0 holder
  match lastKeyIndex with
  | some lastKey => return (holder, holder.since lastKey lastKeyStartOffset)
  | none => return (holder, .universal)

/-! ### BETWEEN -/

/-- The loop that collects `keyColumnIds`: the leading arguments that are
references to increasing key columns. -/
def betweenKeyColumnIds (keyColumns : List String) : Option ℕ → List Expression → List ℕ
  | _, [] => []
  | last, expression :: expressions =>
    match keyPartOf keyColumns expression with
    | none => []
    | some keyPartIndex =>
      if last.all (· < keyPartIndex) then
        keyPartIndex :: betweenKeyColumnIds keyColumns (some keyPartIndex) expressions
      else []

/-- The loop that computes `equalPrefix`. -/
def equalPrefixLength : Tuple → Tuple → ℕ
  | l :: lower, u :: upper => if l = u then equalPrefixLength lower upper + 1 else 0
  | _, _ => 0

/-- The values from `value` on; at `value` itself `next` decides. -/
def appendFrom (columnId : ℕ) (value : Scalar) (next : ConstraintRef) :
    Result (ConstraintsHolder Scalar × ConstraintRef) := do
  let exact ← Constraint.make ⟨.data value, false⟩ ⟨.data value, true⟩ next
  let above ← Constraint.make ⟨.data value, true⟩ .maxBound
  return holder.append [exact, above] columnId

/-- The values up to `value`; at `value` itself `next` decides. -/
def appendUpTo (columnId : ℕ) (value : Scalar) (next : ConstraintRef) :
    Result (ConstraintsHolder Scalar × ConstraintRef) := do
  let below ← Constraint.make .minBound ⟨.data value, false⟩
  let exact ← Constraint.make ⟨.data value, false⟩ ⟨.data value, true⟩ next
  return holder.append [below, exact] columnId

/-- The values from `lower` to `upper`, with what decides at the ends. -/
def appendBetween (columnId : ℕ) (lower upper : Scalar)
    (lowerNext upperNext : ConstraintRef) : Result (ConstraintsHolder Scalar × ConstraintRef) := do
  let first ← Constraint.make ⟨.data lower, false⟩ ⟨.data lower, true⟩ lowerNext
  let inner ← Constraint.make ⟨.data lower, true⟩ ⟨.data upper, false⟩
  let last ← Constraint.make ⟨.data upper, false⟩ ⟨.data upper, true⟩ upperNext
  return holder.append [first, inner, last] columnId

/-- The value alone, then `next`. -/
def appendExact (columnId : ℕ) (value : Scalar) (next : ConstraintRef) :
    Result (ConstraintsHolder Scalar × ConstraintRef) := do
  let exact ← Constraint.make ⟨.data value, false⟩ ⟨.data value, true⟩ next
  return holder.append [exact] columnId

section

variable (keyColumnIds : List ℕ) (lower upper : Tuple)

/-- `currentLower` with one more position, where the lower bound has it. -/
def lowerStep (index : ℕ) (holder : ConstraintsHolder Scalar) (currentLower : ConstraintRef) :
    Result (ConstraintsHolder Scalar × ConstraintRef) :=
  if index < lower.length then holder.appendFrom (keyColumnIds.getD index 0)
    (lower.at index) currentLower
  else return (holder, currentLower)

/-- `currentUpper` with one more position, where the upper bound has it. -/
def upperStep (index : ℕ) (holder : ConstraintsHolder Scalar) (currentUpper : ConstraintRef) :
    Result (ConstraintsHolder Scalar × ConstraintRef) :=
  if index < upper.length then holder.appendUpTo (keyColumnIds.getD index 0)
    (upper.at index) currentUpper
  else return (holder, currentUpper)

/-- The loop that builds `currentLower` and `currentUpper`, from
`expressionIndex` down to `stop`. -/
def betweenChains (stop : ℕ) : ℕ → ConstraintsHolder Scalar → ConstraintRef → ConstraintRef →
    Result (ConstraintsHolder Scalar × ConstraintRef × ConstraintRef)
  | 0, holder, currentLower, currentUpper => return (holder, currentLower, currentUpper)
  | index + 1, holder, currentLower, currentUpper =>
    if stop < index + 1 then do
      let (holder, currentLower) ← lowerStep keyColumnIds lower index holder currentLower
      let (holder, currentUpper) ← upperStep keyColumnIds upper index holder currentUpper
      betweenChains stop index holder currentLower currentUpper
    else return (holder, currentLower, currentUpper)

/-- What is appended at the first position where the bounds differ. -/
def betweenMiddle (index : ℕ) (holder : ConstraintsHolder Scalar)
    (currentLower currentUpper : ConstraintRef) :
    Result (ConstraintsHolder Scalar × ConstraintRef) :=
  let keyColumnIndex := keyColumnIds.getD index 0
  if index < lower.length ∧ index < upper.length then
    holder.appendBetween keyColumnIndex (lower.at index) (upper.at index) currentLower currentUpper
  else if index < lower.length then
    holder.appendFrom keyColumnIndex (lower.at index) currentLower
  else if index < upper.length then
    holder.appendUpTo keyColumnIndex (upper.at index) currentUpper
  else return (holder, .universal)

/-- The loop over the positions where the bounds are equal. -/
def betweenEqual : ℕ → ConstraintsHolder Scalar → ConstraintRef →
    Result (ConstraintsHolder Scalar × ConstraintRef)
  | 0, holder, current => return (holder, current)
  | index + 1, holder, current => do
    ytVerify (lower.at index = upper.at index)
    let (holder, current) ← holder.appendExact (keyColumnIds.getD index 0) (lower.at index) current
    betweenEqual index holder current

def betweenRange (holder : ConstraintsHolder Scalar) :
    Result (ConstraintsHolder Scalar × ConstraintRef) := do
  let equalPrefix := equalPrefixLength lower upper
  let (holder, currentLower, currentUpper) ←
    betweenChains keyColumnIds lower upper
      (equalPrefix + 1) keyColumnIds.length holder .universal .universal
  if equalPrefix + 1 ≤ keyColumnIds.length then do
    let (holder, current) ← betweenMiddle keyColumnIds lower upper equalPrefix holder currentLower
      currentUpper
    betweenEqual keyColumnIds lower upper equalPrefix holder current
  else betweenEqual keyColumnIds lower upper keyColumnIds.length holder .universal

end

def betweenRanges (keyColumnIds : List ℕ) : List (Tuple × Tuple) → ConstraintsHolder Scalar →
    Result (ConstraintsHolder Scalar × List ConstraintRef)
  | [], holder => return (holder, [])
  | (lower, upper) :: ranges, holder => do
    let (holder, ref) ← betweenRange keyColumnIds lower upper holder
    let (holder, refs) ← betweenRanges keyColumnIds ranges holder
    return (holder, ref :: refs)

/-- The inner loop of the union of `rangeConstraints`: neighbours are united. -/
def unitePairs : List ConstraintRef → ConstraintsHolder Scalar →
    Result (ConstraintsHolder Scalar × List ConstraintRef)
  | lhs :: rhs :: refs, holder => do
    let (holder, ref) ← holder.unite lhs rhs
    let (holder, refs) ← unitePairs refs holder
    return (holder, ref :: refs)
  | refs, holder => return (holder, refs)

/-- The union of `rangeConstraints`; there are at most `fuel` of them. -/
def uniteAll : ℕ → List ConstraintRef → ConstraintsHolder Scalar →
    Result (ConstraintsHolder Scalar × ConstraintRef)
  | _, [], _ => .error .undefined
  | _, [ref], holder => return (holder, ref)
  | 0, _, _ => .error .fuel
  | fuel + 1, refs, holder => do
    let (holder, refs) ← unitePairs refs holder
    uniteAll fuel refs holder

/-- `ExtractFromExpression` of a `BETWEEN` expression. -/
def extractBetween (keyColumns : List String) (arguments : List Expression)
    (ranges : List (Tuple × Tuple)) : Result (ConstraintsHolder Scalar × ConstraintRef) := do
  let keyColumnIds := betweenKeyColumnIds keyColumns none arguments
  if keyColumnIds.isEmpty then
    return (holder, .universal)
  else
    let (holder, refs) ← betweenRanges keyColumnIds ranges holder
    uniteAll refs.length refs holder

/-! ### Predicates -/

/-- The relational branch: a key column against a literal. -/
def extractRelation (opcode : BinaryOpcode) (keyPartIndex : ℕ)
    (literal : Scalar) : Result (ConstraintsHolder Scalar × ConstraintRef) :=
  let value := Value.data literal
  match opcode with
  | .equal => holder.interval ⟨value, false⟩ ⟨value, true⟩ keyPartIndex
  | .notEqual => do
    let below ← Constraint.make .minBound ⟨value, false⟩
    let above ← Constraint.make ⟨value, true⟩ .maxBound
    return holder.append [below, above] keyPartIndex
  | .less => holder.interval .minBound ⟨value, false⟩ keyPartIndex
  | .lessOrEqual => holder.interval .minBound ⟨value, true⟩ keyPartIndex
  | .greater => holder.interval ⟨value, true⟩ .maxBound keyPartIndex
  | .greaterOrEqual => holder.interval ⟨value, false⟩ .maxBound keyPartIndex
  | _ => return (holder, .universal)

/-- `TConstraintExtractorMap`: how the constraints of a function are extracted. -/
abbrev ConstraintExtractors :=
  String → Option (ConstraintsHolder Scalar → List Expression → List String →
    Result (ConstraintsHolder Scalar × ConstraintRef))

/-- The operands with a reference on the left, and the operator to match. -/
def referenceOnLeft (opcode : BinaryOpcode) (lhs rhs : Expression) :
    BinaryOpcode × Expression × Expression :=
  match rhs with
  | .reference .. => (opcode.reversed, rhs, lhs)
  | _ => (opcode, lhs, rhs)

/-- The binary operators other than `AND` and `OR`. -/
def extractBinary (keyColumns : List String) (opcode : BinaryOpcode)
    (lhs rhs : Expression) : Result (ConstraintsHolder Scalar × ConstraintRef) :=
  match referenceOnLeft opcode lhs rhs with
  | (opcode, .reference _ columnName, .literal value) =>
    match columnNameToKeyPartIndex keyColumns columnName with
    | some keyPartIndex => holder.extractRelation opcode keyPartIndex value
    | none => return (holder, .universal)
  | _ => return (holder, .universal)

/-- `ExtractFromExpression` of an expression that is not null. -/
def extractFrom (keyColumns : List String) (constraintExtractors : ConstraintExtractors) :
    Expression → ConstraintsHolder Scalar → Result (ConstraintsHolder Scalar × ConstraintRef)
  | .unaryOp opcode operand, holder =>
    if opcode = .not then do
      let (holder, constraints) ← extractFrom keyColumns constraintExtractors operand holder
      holder.invert constraints
    else return (holder, .universal)
  | .binaryOp _ opcode lhs rhs, holder =>
    if opcode = .and then do
      let (holder, lhsConstraint) ← extractFrom keyColumns constraintExtractors lhs holder
      let (holder, rhsConstraint) ← extractFrom keyColumns constraintExtractors rhs holder
      holder.intersect lhsConstraint rhsConstraint
    else if opcode = .or then do
      let (holder, lhsConstraint) ← extractFrom keyColumns constraintExtractors lhs holder
      let (holder, rhsConstraint) ← extractFrom keyColumns constraintExtractors rhs holder
      holder.unite lhsConstraint rhsConstraint
    else holder.extractBinary keyColumns opcode lhs rhs
  | .function name arguments, holder =>
    match constraintExtractors name with
    | none => return (holder, .universal)
    | some constraintExtractor => constraintExtractor holder arguments keyColumns
  | .inTuples arguments values, holder => holder.extractIn keyColumns arguments values
  | .between arguments ranges, holder => holder.extractBetween keyColumns arguments ranges
  | .literal (.boolean value), holder => return (holder, if value then .universal else .empty)
  | _, holder => return (holder, .universal)

def extractFromExpression (expression : Option Expression)
    (keyColumns : List String) (constraintExtractors : ConstraintExtractors) :
    Result (ConstraintsHolder Scalar × ConstraintRef) := do
  ytVerify (keyColumns ≠ [])
  match expression with
  | none => return (holder, .universal)
  | some expression => extractFrom keyColumns constraintExtractors expression holder

end ConstraintsHolder

end Ytsaurus.Query
