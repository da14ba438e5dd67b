/-
# Elimination of a predicate

`EliminatePredicate` of `query/base/query_helpers.cpp` specialises the predicate of a query to the
key ranges (or to the lookup keys) that the query reads: relations between a key column and a
literal become literals when the united bounds of the ranges decide them, `IN` lists are merged
with the common initial parts of the ranges and lose the rows that no range can hold, and boolean
literals are dropped from `AND` and `OR`.

A row of literals is compared with a key as a row of data values. Rows are only read at positions
that they have: the keys below `keyPrefixSize`, the rows of an `IN` list at its arguments.
-/
import Ytsaurus.Query.Bounds
import Ytsaurus.Query.ReadRanges

namespace Ytsaurus.Query

open TableClient ConstraintsHolder

/-! ### Logical operators -/

def booleanLiteral? : Expression → Option Bool
  | .literal (.boolean value) => some value
  | _ => none

/-- `MakeAndExpression` and `MakeOrExpression` of two expressions: a `neutral`
literal gives way to the other operand, the opposite literal replaces it. -/
def makeLogicalExpression (opcode : BinaryOpcode) (neutral : Bool) (lhs rhs : Expression) :
    Expression :=
  match booleanLiteral? lhs, booleanLiteral? rhs with
  | some value, _ => if value = neutral then rhs else lhs
  | none, some value => if value = neutral then lhs else rhs
  | none, none => .binaryOp .boolean opcode lhs rhs

def makeAndExpression (lhs rhs : Expression) : Expression := makeLogicalExpression .and true lhs rhs

def makeOrExpression (lhs rhs : Expression) : Expression := makeLogicalExpression .or false lhs rhs

/-! ### IN -/

/-- A row of literals as a row of values. -/
def Tuple.toRow (tuple : Tuple) : Row Scalar := tuple.map .data

/-- The value of a row at a position that it has. -/
def rowAt (row : Row Scalar) (index : ℕ) : Value Scalar := row.getD index .min

/-- The comparison loop of `CompareRow` and `compareKeyAndValue` over pairs of positions. -/
def compareMapped (lhs rhs : Row Scalar) : List (ℕ × ℕ) → ℤ
  | [] => 0
  | (left, right) :: mapping =>
    let result := compareRowValues (rowAt lhs left) (rowAt rhs right)
    if result ≠ 0 then result else compareMapped lhs rhs mapping

def compareRow (lhs rhs : Row Scalar) (mapping : List ℕ) : ℤ :=
  compareMapped lhs rhs (mapping.map fun index => (index, index))

/-- The arguments that are key columns below `keyPrefixSize`: pairs of `keyMapping` and
`valueMapping`. -/
def keyArguments (keyColumns : List String) (keyPrefixSize : ℕ) : ℕ → List Expression → List (ℕ × ℕ)
  | _, [] => []
  | argumentIndex, argument :: arguments =>
    match keyPartOf keyColumns argument with
    | some keyIndex =>
      if keyIndex < keyPrefixSize then
        (keyIndex, argumentIndex) :: keyArguments keyColumns keyPrefixSize (argumentIndex + 1) arguments
      else keyArguments keyColumns keyPrefixSize (argumentIndex + 1) arguments
    | none => keyArguments keyColumns keyPrefixSize (argumentIndex + 1) arguments

def allArgsAreKey (keyColumns : List String) (keyPrefixSize : ℕ)
    (arguments : List Expression) : Bool :=
  arguments.all fun argument => (keyPartOf keyColumns argument).any (· < keyPrefixSize)

/-- `rangeArgIndex`: the last argument that is the key column `keyPrefixSize`. -/
def rangeArgument (keyColumns : List String) (keyPrefixSize : ℕ) : ℕ → List Expression → Option ℕ
  | _, [] => none
  | argumentIndex, argument :: arguments =>
    match rangeArgument keyColumns keyPrefixSize (argumentIndex + 1) arguments with
    | some later => some later
    | none => if keyPartOf keyColumns argument = some keyPrefixSize then some argumentIndex else none

def uniteNonEmpty (allBounds : List (List (Bound Scalar))) : Result (List (Bound Scalar)) :=
  match uniteAllBounds allBounds with
  | [] => .error .verify
  | united :: _ => return united

/-- What the loop of `EliminateInExpression` reads. -/
structure InContext where
  keyMapping : List ℕ
  valueMapping : List ℕ
  rangeArgIndex : Option ℕ
  bounds : Option (List (Bound Scalar × Bound Scalar))

namespace InContext

variable (context : InContext)

def compareKeyAndValue (key : Row Scalar) (value : Tuple) : ℤ :=
  compareMapped key value.toRow (context.keyMapping.zip context.valueMapping)

def unitedBounds (keys : List (Row Scalar × ℕ)) : Result (List (Bound Scalar)) :=
  match context.bounds with
  | none => return []
  | some bounds => uniteNonEmpty (keys.map fun key => (bounds[key.2]?).elim [] fun pair =>
    [pair.1, pair.2])

/-- Whether a row of the list survives next to a group of equal keys. -/
def survives (united : List (Bound Scalar)) (value : Tuple) : Result Bool :=
  match context.rangeArgIndex with
  | none => return true
  | some index => covers united (.data (value.at index))

def filterValues (context : InContext) (united : List (Bound Scalar)) :
    List Tuple → Result (List Tuple)
  | [] => return []
  | value :: values => do
    let kept ← context.survives united value
    let rest ← context.filterValues united values
    return if kept then value :: rest else rest

/-- The keys of a group agree on the mapped columns. -/
def sameKey (key other : Row Scalar × ℕ) : Bool :=
  compareRow key.1 other.1 context.keyMapping = 0

/-- The rows of a group agree on the mapped arguments. -/
def sameValue (value other : Tuple) : Bool :=
  compareRow value.toRow other.toRow context.valueMapping = 0

/-- The merge of sorted keys and rows: `filteredValues` and `hasExtraLookupKeys`. -/
def mergeKeysAndValues (context : InContext) : List (Row Scalar × ℕ) → List Tuple →
    Result (List Tuple × Bool)
  | [], _ => return ([], false)
  | _ :: _, [] => return ([], true)
  | key :: keys, value :: values =>
    if context.compareKeyAndValue key.1 value = 0 then do
      let united ← context.unitedBounds (key :: keys.takeWhile (context.sameKey key))
      let filtered ← context.filterValues united (value :: values.takeWhile (context.sameValue value))
      let (rest, extra) ← context.mergeKeysAndValues (keys.dropWhile (context.sameKey key))
        (values.dropWhile (context.sameValue value))
      return (filtered ++ rest, extra)
    else if context.compareKeyAndValue key.1 value < 0 then do
      let (rest, _) ← context.mergeKeysAndValues keys (value :: values)
      return (rest, true)
    else context.mergeKeysAndValues (key :: keys) values
termination_by keys values => keys.length + values.length
decreasing_by
  · have hkeys := List.length_dropWhile_le (context.sameKey key) keys
    have hvalues := List.length_dropWhile_le (context.sameValue value) values
    simp only [List.length_cons]
    omega
  all_goals simp only [List.length_cons]; omega

def ofArguments (keyColumns : List String) (keyPrefixSize : ℕ) (arguments : List Expression)
    (bounds : Option (List (Bound Scalar × Bound Scalar))) : InContext :=
  let mapping := keyArguments keyColumns keyPrefixSize 0 arguments
  ⟨mapping.map Prod.fst, mapping.map Prod.snd,
    bounds.bind fun _ => rangeArgument keyColumns keyPrefixSize 0 arguments, bounds⟩

/-- `sortedValues`: the list is in order already when all its arguments are key columns. -/
def sortedValues (allKey : Bool) (values : List Tuple) : List Tuple :=
  if allKey then values
  else values.insertionSort fun lhs rhs => compareRow lhs.toRow rhs.toRow context.valueMapping ≤ 0

def sortedKeys (lookupKeys : List (Row Scalar)) : List (Row Scalar × ℕ) :=
  lookupKeys.zipIdx.insertionSort fun lhs rhs => compareRow lhs.1 rhs.1 context.keyMapping ≤ 0

end InContext

def eliminateInExpression (lookupKeys : List (Row Scalar)) (arguments : List Expression)
    (values : List Tuple) (keyColumns : List String) (keyPrefixSize : ℕ)
    (bounds : Option (List (Bound Scalar × Bound Scalar))) : Result Expression := do
  let context := InContext.ofArguments keyColumns keyPrefixSize arguments bounds
  let allKey := allArgsAreKey keyColumns keyPrefixSize arguments
  let (filteredValues, hasExtraLookupKeys) ←
    context.mergeKeysAndValues (context.sortedKeys lookupKeys) (context.sortedValues allKey values)
  if !hasExtraLookupKeys && allKey then return .literal (.boolean true)
  else if filteredValues.isEmpty then return .literal (.boolean false)
  else return .inTuples arguments (filteredValues.insertionSort (· ≤ ·))

/-! ### Key ranges -/

def commonPrefixSize : Row Scalar → Row Scalar → ℕ
  | a :: as, b :: b' :: bs => if a = b then commonPrefixSize as (b' :: bs) + 1 else 0
  | _, _ => 0

/-- `minCommonPrefixSize`, which starts with the greatest `int`. -/
def minCommonPrefixSize (keyRanges : List (RowRange Scalar)) : ℕ :=
  (keyRanges.map fun keyRange => commonPrefixSize keyRange.1 keyRange.2).foldl min (2 ^ 31 - 1)

def getBounds (keyRange : RowRange Scalar) (keyPartIndex : ℕ) :
    Result (Bound Scalar × Bound Scalar) :=
  let lower : Bound Scalar :=
    match keyRange.1[keyPartIndex]? with
    | some value => ⟨value, true⟩
    | none => ⟨.min, false⟩
  match keyRange.2[keyPartIndex]? with
  | some value => return (lower, ⟨value, decide (keyPartIndex + 1 < keyRange.2.length)⟩)
  | none => .error .verify

def unitedBoundsOf (keyRanges : List (RowRange Scalar)) (keyPartIndex : ℕ) :
    Result (List (Bound Scalar)) := do
  let bounds ← keyRanges.mapM fun keyRange => getBounds keyRange keyPartIndex
  uniteNonEmpty (bounds.map fun pair => [pair.1, pair.2])

/-- The bounds of the values that a relational operator holds for. -/
def relationBounds (opcode : BinaryOpcode) (value : Scalar) : List (Bound Scalar) :=
  match opcode with
  | .equal => [⟨.data value, true⟩, ⟨.data value, true⟩]
  | .notEqual => [⟨.min, true⟩, ⟨.data value, false⟩, ⟨.data value, false⟩, ⟨.max, true⟩]
  | .less => [⟨.min, true⟩, ⟨.data value, false⟩]
  | .lessOrEqual => [⟨.min, true⟩, ⟨.data value, true⟩]
  | .greater => [⟨.data value, false⟩, ⟨.max, true⟩]
  | .greaterOrEqual => [⟨.data value, true⟩, ⟨.max, true⟩]
  | _ => []

/-- The literal that the united bounds of a column decide on, if they do. -/
def decideByBounds (bounds united : List (Bound Scalar)) : Option Bool :=
  if bounds = [] then none
  else if intersectBounds bounds united = [] then some false
  else if intersectBounds bounds united = united then some true
  else none

/-- `refinePredicate` of an operator other than `AND` and `OR`. -/
def refineRelation (keyColumns : List String) (unitedBoundsByColumn : List (List (Bound Scalar)))
    (opcode : BinaryOpcode) (lhs rhs : Expression) : Option Bool :=
  match referenceOnLeft opcode lhs rhs with
  | (opcode, .reference _ columnName, .literal value) =>
    (columnNameToKeyPartIndex keyColumns columnName).bind fun keyPartIndex =>
      (unitedBoundsByColumn[keyPartIndex]?).bind fun united =>
        decideByBounds (relationBounds opcode value) united
  | _ => none

/-- The walk of both `refinePredicate` closures, given what they do at a relation and at an `IN`. -/
def refinePredicate (relation : BinaryOpcode → Expression → Expression → Option Bool)
    (inTuples : List Expression → List Tuple → Result Expression) : Expression → Result Expression
  | .binaryOp type opcode lhs rhs =>
    if opcode = .and then do
      let left ← refinePredicate relation inTuples lhs
      let right ← refinePredicate relation inTuples rhs
      return makeAndExpression left right
    else if opcode = .or then do
      let left ← refinePredicate relation inTuples lhs
      let right ← refinePredicate relation inTuples rhs
      return makeOrExpression left right
    else
      match relation opcode lhs rhs with
      | some value => return .literal (.boolean value)
      | none => return .binaryOp type opcode lhs rhs
  | .inTuples arguments values => inTuples arguments values
  | expr => return expr

/-- `EliminatePredicate` of key ranges. -/
def eliminatePredicate (keyRanges : List (RowRange Scalar)) (expr : Expression)
    (keyColumns : List String) : Result Expression := do
  let prefixSize := minCommonPrefixSize keyRanges
  let unitedBoundsByColumn ← (List.range (prefixSize + 1)).mapM (unitedBoundsOf keyRanges)
  refinePredicate (refineRelation keyColumns unitedBoundsByColumn)
    (fun arguments values => do
      let bounds ← keyRanges.mapM fun keyRange => getBounds keyRange prefixSize
      eliminateInExpression (keyRanges.map Prod.fst) arguments values keyColumns prefixSize
        (some bounds))
    expr

/-- `EliminatePredicate` of lookup keys. -/
def eliminatePredicateForKeys (lookupKeys : List (Row Scalar)) (expr : Expression)
    (keyColumns : List String) : Result Expression :=
  refinePredicate (fun _ _ _ => none)
    (fun arguments values => eliminateInExpression lookupKeys arguments values keyColumns
      keyColumns.length none)
    expr

end Ytsaurus.Query
