/-
# Compatibility of logical types

`CheckTypeCompatibility`: may a column of the old type be altered to the new one, always
(`fullyCompatible`), after its values were looked at (`requireValidation`) or never
(`incompatible`). The maps from stable names to fields are hash maps, so their iteration order is a
parameter, any permutation of the entries. An error carries the format string of its message, the
path it names and its attributes.
-/
import Ytsaurus.Lib.OpenRecursion
import Ytsaurus.TableClient.LogicalType

namespace Ytsaurus.ComplexTypes

open TableClient LogicalType

/-- `ESchemaCompatibility`, the worst first. -/
inductive SchemaCompatibility where
  | incompatible
  | requireValidation
  | fullyCompatible
  deriving DecidableEq, Repr

namespace SchemaCompatibility

def rank : SchemaCompatibility → ℕ
  | .incompatible => 0
  | .requireValidation => 1
  | .fullyCompatible => 2

instance : LE SchemaCompatibility := ⟨fun lhs rhs => lhs.rank ≤ rhs.rank⟩

instance (lhs rhs : SchemaCompatibility) : Decidable (lhs ≤ rhs) :=
  inferInstanceAs (Decidable (lhs.rank ≤ rhs.rank))

end SchemaCompatibility

structure TypeCompatibilityOptions where
  allowStructFieldRenaming : Bool := false
  allowStructFieldRemoval : Bool := false
  ignoreUnknownRemovedFieldNames : Bool := true
  deriving DecidableEq, Repr

/-- The value of an error's attribute. -/
inductive ErrorAttribute where
  | text (value : String)
  | type (value : LogicalType)
  deriving Repr

/-- The `TError` of an unsuccessful check. -/
structure CompatibilityError where
  message : String
  description : String
  attributes : List (String × ErrorAttribute)
  deriving Repr

abbrev CompatibilityPair := SchemaCompatibility × Option CompatibilityError

def minCompatibility (lhs rhs : CompatibilityPair) : CompatibilityPair :=
  if lhs.1 ≤ rhs.1 then lhs else rhs

def createResultPair (compatibility : SchemaCompatibility) (old new : ComplexTypeFieldDescriptor) :
    CompatibilityPair :=
  if compatibility = .fullyCompatible then (compatibility, none)
  else
    (compatibility, some ⟨"Type of %Qv field is modified in non backward compatible manner",
      old.description, [("old_type", .type old.type), ("new_type", .type new.type)]⟩)

/-- The result of a check that fails with an error of its own. -/
def incompatibleWith (message description : String) (attributes : List (String × ErrorAttribute)) :
    CompatibilityPair :=
  (.incompatible, some ⟨message, description, attributes⟩)

/-! ### Simple types -/

inductive SimpleTypeClass where
  | int
  | uint
  | floating
  | string
  deriving DecidableEq, Repr

def getSimpleTypeRank : SimpleTypeClass → SimpleLogicalValueType → ℤ
  | .int, .int8 => 8
  | .int, .int16 => 16
  | .int, .int32 => 32
  | .int, .int64 => 64
  | .uint, .uint8 => 8
  | .uint, .uint16 => 16
  | .uint, .uint32 => 32
  | .uint, .uint64 => 64
  | .floating, .float => 32
  | .floating, .double => 64
  | .string, .utf8 => 1
  | .string, .string => 2
  | _, _ => -1

def checkCompatibilityUsingClass (typeClass : SimpleTypeClass)
    (oldType newType : SimpleLogicalValueType) : Result SchemaCompatibility := do
  let oldRank := getSimpleTypeRank typeClass oldType
  let newRank := getSimpleTypeRank typeClass newType
  throwErrorExceptionIf (oldRank ≤ 0) "Internal error; unexpected rank %v of type %Qlv"
  if newRank < 0 then pure .incompatible
  else if oldRank ≤ newRank then pure .fullyCompatible
  else pure .requireValidation

/-- The types that could be cast to `any`, for historical reasons. -/
def castsToAny : SimpleLogicalValueType → Bool
  | .int8 | .int16 | .int32 | .int64 => true
  | .uint8 | .uint16 | .uint32 | .uint64 => true
  | .float | .double => true
  | .string | .utf8 => true
  | .boolean => true
  | .date | .datetime | .timestamp | .interval => true
  | .null | .void => true
  | .date32 | .datetime64 | .timestamp64 | .interval64 => true
  | .any => true
  | _ => false

/-- The compatibility that `CheckTypeCompatibilitySimple` finds. -/
def simpleTypeCompatibility (oldElement newElement : SimpleLogicalValueType) :
    Result SchemaCompatibility :=
  if newElement = .any then
    pure (if castsToAny oldElement then .fullyCompatible else .incompatible)
  else
    match oldElement with
    | .int8 | .int16 | .int32 | .int64 => checkCompatibilityUsingClass .int oldElement newElement
    | .uint8 | .uint16 | .uint32
    | .uint64 => checkCompatibilityUsingClass .uint oldElement newElement
    | .float | .double => checkCompatibilityUsingClass .floating oldElement newElement
    | .utf8 | .string => checkCompatibilityUsingClass .string oldElement newElement
    | _ => pure (if oldElement = newElement then .fullyCompatible else .incompatible)

def checkTypeCompatibilitySimple (old new : ComplexTypeFieldDescriptor)
    (oldElement newElement : SimpleLogicalValueType) : Result CompatibilityPair := do
  let compatibility ← simpleTypeCompatibility oldElement newElement
  pure (createResultPair compatibility old new)

/-! ### Optionals and tags -/

/-- The loop of `UnwrapOptionalAndTagged`. -/
def unwrapFrom : LogicalType → String → ℕ → ComplexTypeFieldDescriptor × ℕ
  | .optional element, description, nesting =>
    unwrapFrom element (description ++ ".<optional-element>") (nesting + 1)
  | .tagged _ element, description, nesting =>
    unwrapFrom element (description ++ ".<tagged-element>") nesting
  | type, description, nesting => (⟨description, type⟩, nesting)

/-- `UnwrapOptionalAndTagged`: the element below the optionals and tags, and the number of
optionals. -/
def unwrapOptionalAndTagged (descriptor : ComplexTypeFieldDescriptor) :
    ComplexTypeFieldDescriptor × ℕ :=
  unwrapFrom descriptor.type descriptor.description 0

/-- The old side unwrapped: an aggregate state gives way to its element unless the new side is a
state too. -/
def unwrapOld (old newElement : ComplexTypeFieldDescriptor) : ComplexTypeFieldDescriptor × ℕ :=
  let oldUnwrapped := unwrapOptionalAndTagged old
  match oldUnwrapped.1.type with
  | .aggregateState _ _ element =>
    if newElement.type.metatype = .aggregateState then oldUnwrapped
    else
      let aggregate := unwrapOptionalAndTagged (oldUnwrapped.1.aggregateStateElement element)
      (aggregate.1, oldUnwrapped.2 + aggregate.2)
  | _ => oldUnwrapped

/-! ### Structs and tuples -/

/-- The order in which a hash map with string keys is iterated. -/
structure HashOrder where
  order : ∀ {ν : Type}, List (String × ν) → List (String × ν)
  perm : ∀ {ν : Type} (map : List (String × ν)), (order map).Perm map

def HashOrder.insertion : HashOrder := ⟨fun map => map, fun map => .refl map⟩

section

variable (hashOrder : HashOrder) (options : TypeCompatibilityOptions)
  (call : ComplexTypeFieldDescriptor × ComplexTypeFieldDescriptor → Result CompatibilityPair)

/-- The loop over the pairs of elements with their positions. -/
def checkElements (position : ComplexTypeFieldDescriptor → ℕ → LogicalType →
      ComplexTypeFieldDescriptor)
    (old new : ComplexTypeFieldDescriptor) (oldElements newElements : List LogicalType) :
      Result CompatibilityPair :=
  loopUntil (fun result => result.1 = .incompatible)
    (fun result (pair : (LogicalType × LogicalType) × ℕ) => do
      let element ← call (position old pair.2 pair.1.1, position new pair.2 pair.1.2)
      pure (minCompatibility result element))
    (oldElements.zip newElements).zipIdx (.fullyCompatible, none)

def checkElementsCompatibility
    (position : ComplexTypeFieldDescriptor → ℕ → LogicalType → ComplexTypeFieldDescriptor)
    (old new : ComplexTypeFieldDescriptor) (oldElements newElements : List LogicalType)
    (allowNewElements : Bool) : Result CompatibilityPair :=
  if newElements.length < oldElements.length then
    pure (incompatibleWith "Some elements of %Qv are removed" old.description [])
  else if allowNewElements = false ∧ oldElements.length ≠ newElements.length then
    pure (incompatibleWith "Added new elements to tuple %Qv" old.description [])
  else checkElements call position old new oldElements newElements

/-! ### Fields -/

/-- What a stable name stands for: an existing field with its index, or a removed one. -/
abbrev FieldState := Option (ℕ × StructField LogicalType)

/-- `buildStableNameToIndexMapping`; a name emplaced twice crashes. -/
def buildStableNameToIndexMapping (metatype : LogicalMetatype)
    (fields : List (StructField LogicalType))
    (removed : List String) : Result (List (String × FieldState)) := do
  let entries : List (String × FieldState) :=
    fields.zipIdx.map (fun entry => (entry.1.stableName, some (entry.2, entry.1))) ++
      if metatype = .struct then removed.map (fun stableName => (stableName, none)) else []
  ytVerify (entries.map Prod.fst).Nodup
  pure entries

def onUnknownRemovedField (old : ComplexTypeFieldDescriptor) (stableName : String)
    (result : CompatibilityPair) :
    CompatibilityPair :=
  if options.ignoreUnknownRemovedFieldNames then result
  else
    incompatibleWith
      "Newly added name at \"removed_fields\" of %Qv does not refer to any previously existing field"
      old.description [("added_name", .text stableName)]

def onNewField (metatype : LogicalMetatype) (new : ComplexTypeFieldDescriptor)
    (field : StructField LogicalType) (result : CompatibilityPair) : CompatibilityPair :=
  if metatype = .variantStruct then result
  else if field.type.isNullable then result
  else
    incompatibleWith "Newly added member %Qv is not optional" (new.field field).description
      [("new_type", .type field.type)]

def onRemovedField (metatype : LogicalMetatype) (old : ComplexTypeFieldDescriptor)
    (field : StructField LogicalType) (result : CompatibilityPair) : CompatibilityPair :=
  if options.allowStructFieldRemoval = false then
    incompatibleWith "Field of %Qv cannot be removed since field removal is disabled"
      old.description [("field_name", .text field.name)]
  else if metatype = .struct then result
  else
    minCompatibility result
      (.requireValidation, some ⟨"Field of variant struct %Qv was removed", old.description,
        [("field_name", .text field.name)]⟩)

def onDroppedField (metatype : LogicalMetatype) (old : ComplexTypeFieldDescriptor)
    (field : StructField LogicalType)
    (stableName : String) (result : CompatibilityPair) : CompatibilityPair :=
  if metatype = .variantStruct then onRemovedField options metatype old field result
  else
    incompatibleWith
      "Field of %Qv cannot be simply dropped; instead, its stable name must be added to \"removed_fields\" list"
      old.description [("field_name", .text field.name), ("field_stable_name", .text stableName)]

def onDroppedRemovedField (old : ComplexTypeFieldDescriptor) (stableName : String) :
    CompatibilityPair :=
  incompatibleWith "Removing items from \"removed_fields\" of %Qv is not allowed" old.description
    [("removed_name", .text stableName)]

def onUndeadField (old : ComplexTypeFieldDescriptor) (stableName : String) : CompatibilityPair :=
  incompatibleWith
    "Removed field name of %Qv cannot be reused as a stable name of an existing field"
    old.description [("removed_field_name", .text stableName)]

def onRenamedField (old : ComplexTypeFieldDescriptor) (oldField newField : StructField LogicalType)
    (stableName : String) (result : CompatibilityPair) : CompatibilityPair :=
  if options.allowStructFieldRenaming then result
  else
    incompatibleWith "Field of %Qv cannot be renamed since field renaming is disabled" old.description
      [("field_old_name", .text oldField.name), ("field_new_name", .text newField.name),
        ("field_stable_name", .text stableName)]

/-- The body of the first loop, over the stable names of the new type: the transitions from unknown.
-/
def onUnknown (metatype : LogicalMetatype) (old new : ComplexTypeFieldDescriptor)
    (stableNameToOldIndex : List (String × FieldState)) (result : CompatibilityPair)
    (entry : String × FieldState) :
    CompatibilityPair :=
  if (stableNameToOldIndex.lookup entry.1).isSome then result
  else
    match entry.2 with
    | some newIndex => onNewField metatype new newIndex.2 result
    | none => onUnknownRemovedField options old entry.1 result

/-- `onRetainedField`, after `onRenamedField` where the name changed. -/
def onExisting (old new : ComplexTypeFieldDescriptor) (oldField newField : StructField LogicalType)
    (stableName : String) (result : CompatibilityPair) : Result CompatibilityPair := do
  let renamed :=
    if oldField.name ≠ newField.name
      then onRenamedField options old oldField newField stableName result else result
  let retained ← call (old.field oldField, new.field newField)
  pure (minCompatibility renamed retained)

/-- The body of the second loop, over the stable names of the old type; the flag says that some
field is retained. -/
def onKnown (metatype : LogicalMetatype) (old new : ComplexTypeFieldDescriptor)
    (stableNameToNewIndex : List (String × FieldState)) (state : CompatibilityPair × Bool)
    (entry : String × FieldState) : Result (CompatibilityPair × Bool) :=
  match stableNameToNewIndex.lookup entry.1 with
  | some newState =>
    match entry.2, newState with
    | some oldIndex, none => pure (onRemovedField options metatype old oldIndex.2 state.1, state.2)
    | none, some _ => pure (onUndeadField old entry.1, state.2)
    | some oldIndex, some newIndex => do
      let result ← onExisting options call old new oldIndex.2 newIndex.2 entry.1 state.1
      pure (result, true)
    | none, none => pure state
  | none =>
    match entry.2 with
    | some oldIndex => pure (onDroppedField options metatype old oldIndex.2 entry.1 state.1, state.2)
    | none => pure (onDroppedRemovedField old entry.1, state.2)

/-- The last loop: existing fields keep their order and new ones come last. -/
def checkFieldOrder (old : ComplexTypeFieldDescriptor)
    (stableNameToOldIndex : List (String × FieldState)) (result : CompatibilityPair) :
    List (StructField LogicalType) → FieldState → Option (StructField LogicalType) →
    Result CompatibilityPair
  | [], _, _ => pure result
  | field :: fields, lastOldIndex, lastNewField =>
    match stableNameToOldIndex.lookup field.stableName with
    | none => checkFieldOrder old stableNameToOldIndex result fields lastOldIndex (some field)
    | some none => .error .verify
    | some (some oldIndex) =>
      match lastNewField with
      | some newField =>
        pure (incompatibleWith
          ("Newly added field of %Qv cannot precede already existing field " ++
            "unless both field renaming and removal are enabled")
          old.description [("new_field_name", .text newField.name),
            ("existing_field_name", .text field.name)])
      | none =>
        match lastOldIndex with
        | some last =>
          if oldIndex.1 < last.1 then
            pure (incompatibleWith
              "Fields of %Qv cannot be reordered unless both field renaming and removal are enabled"
                old.description
              [("first_field_name", .text field.name), ("second_field_name", .text last.2.name)])
          else checkFieldOrder old stableNameToOldIndex result fields (some oldIndex) none
        | none => checkFieldOrder old stableNameToOldIndex result fields (some oldIndex) none

def checkFieldsCompatibility (metatype : LogicalMetatype) (old new : ComplexTypeFieldDescriptor)
    (oldFields newFields : List (StructField LogicalType)) (oldRemoved newRemoved : List String) :
    Result CompatibilityPair := do
  let stableNameToOldIndex ← buildStableNameToIndexMapping metatype oldFields oldRemoved
  let stableNameToNewIndex ← buildStableNameToIndexMapping metatype newFields newRemoved
  let unknown ← loopUntil (fun result => result.1 = .incompatible)
    (fun result entry => pure (onUnknown options metatype old new stableNameToOldIndex result entry))
    (hashOrder.order stableNameToNewIndex) (.fullyCompatible, none)
  if unknown.1 = .incompatible then pure unknown
  else
    let known ← loopUntil (fun state => state.1.1 = .incompatible)
      (onKnown options call metatype old new stableNameToNewIndex) (hashOrder.order stableNameToOldIndex)
      (unknown, false)
    if known.1.1 = .incompatible then pure known.1
    else if metatype = .variantStruct ∧ known.2 = false then
      pure (incompatibleWith "None of variant struct %Qv fields are retained" old.description [])
    else if options.allowStructFieldRenaming ∧ options.allowStructFieldRemoval then pure known.1
    else checkFieldOrder old stableNameToOldIndex known.1 newFields none none

/-! ### The check -/

def checkDictTypeCompatibility (old new : ComplexTypeFieldDescriptor)
    (oldKey oldValue newKey newValue : LogicalType) : Result CompatibilityPair := do
  let keyCompatibility ← call (old.dictKey oldKey, new.dictKey newKey)
  if keyCompatibility.1 = .incompatible then pure keyCompatibility
  else
    let valueCompatibility ← call (old.dictValue oldValue, new.dictValue newValue)
    pure (minCompatibility keyCompatibility valueCompatibility)

def checkDecimalTypeCompatibility (old new : ComplexTypeFieldDescriptor) : CompatibilityPair :=
  if old.type.eq new.type then (.fullyCompatible, none) else createResultPair .incompatible old new

/-- The case of two aggregate states: the state is stored as is, so it may only be altered
losslessly. -/
def checkAggregateStates (old new : ComplexTypeFieldDescriptor)
    (oldFunction newFunction : AggregateFunction)
    (oldElement newElement : LogicalType) : Result CompatibilityPair :=
  if oldFunction ≠ newFunction then pure (createResultPair .incompatible old new)
  else do
    let elementCompatibility ← call
      (old.aggregateStateElement oldElement, new.aggregateStateElement newElement)
    if elementCompatibility.1 ≠ .fullyCompatible then pure (createResultPair .incompatible old new)
    else pure elementCompatibility

/-- A type that `UnwrapOptionalAndTagged` unwraps. -/
def isWrapper (type : LogicalType) : Bool :=
  type.metatype = .optional || type.metatype = .tagged

/-- The case of an optional or tagged type on either side. -/
def checkUnwrapped (old new : ComplexTypeFieldDescriptor) : Result CompatibilityPair :=
  let newUnwrapped := unwrapOptionalAndTagged new
  let oldUnwrapped := unwrapOld old newUnwrapped.1
  if oldUnwrapped.2 = newUnwrapped.2 ∨ oldUnwrapped.2 = 0 ∧ newUnwrapped.2 = 1 then
    call (oldUnwrapped.1, newUnwrapped.1)
  else if oldUnwrapped.2 = 1 ∧ newUnwrapped.2 = 0 then do
    let element ← call (oldUnwrapped.1, newUnwrapped.1)
    pure (minCompatibility element (createResultPair .requireValidation oldUnwrapped.1 newUnwrapped.1))
  else pure (createResultPair .incompatible oldUnwrapped.1 newUnwrapped.1)

/-- The body of `CheckTypeCompatibilityImpl`. -/
def checkTypeCompatibilityStep
    (descriptors : ComplexTypeFieldDescriptor × ComplexTypeFieldDescriptor) :
    Result CompatibilityPair :=
  let old := descriptors.1
  let new := descriptors.2
  if isWrapper old.type || isWrapper new.type then checkUnwrapped call old new
  else
    match old.type, new.type with
    | .simple oldElement, .simple newElement =>
      checkTypeCompatibilitySimple old new oldElement newElement
    | .list oldElement, .list newElement => call (old.listElement oldElement, new.listElement newElement)
    | .variantStruct oldFields, .variantStruct newFields =>
      checkFieldsCompatibility hashOrder options call .variantStruct old new oldFields newFields [] []
    | .struct oldFields oldRemoved, .struct newFields newRemoved =>
      checkFieldsCompatibility hashOrder options call .struct old new oldFields newFields
        oldRemoved newRemoved
    | .tuple oldElements, .tuple newElements =>
      checkElementsCompatibility call ComplexTypeFieldDescriptor.tupleElement old new oldElements
        newElements false
    | .variantTuple oldElements, .variantTuple newElements =>
      checkElementsCompatibility call ComplexTypeFieldDescriptor.variantTupleElement old new
        oldElements newElements true
    | .dict oldKey oldValue, .dict newKey newValue =>
      checkDictTypeCompatibility call old new oldKey oldValue newKey newValue
    | .decimal _ _, .decimal _ _ => pure (checkDecimalTypeCompatibility old new)
    | .aggregateState oldFunction _ oldElement, .aggregateState newFunction _ newElement =>
      checkAggregateStates call old new oldFunction newFunction oldElement newElement
    -- We support promoting aggregate state to underlying type, but not the other way around.
    | .aggregateState _ _ oldElement, _ => call (old.aggregateStateElement oldElement, new)
    | _, _ => pure (createResultPair .incompatible old new)

end

/-- What the recursion makes smaller. -/
def pairWeight (descriptors : ComplexTypeFieldDescriptor × ComplexTypeFieldDescriptor) : ℕ :=
  descriptors.1.type.weight + descriptors.2.type.weight

def checkTypeCompatibilityImpl (hashOrder : HashOrder) (options : TypeCompatibilityOptions) :
    ComplexTypeFieldDescriptor × ComplexTypeFieldDescriptor → Result CompatibilityPair :=
  Lib.solve pairWeight (checkTypeCompatibilityStep hashOrder options) (.error .fuel)

def checkTypeCompatibility (hashOrder : HashOrder) (options : TypeCompatibilityOptions)
    (oldType newType : LogicalType) : Result CompatibilityPair :=
  checkTypeCompatibilityImpl hashOrder options (⟨"", oldType⟩, ⟨"", newType⟩)

def typeCompatibility (hashOrder : HashOrder) (options : TypeCompatibilityOptions)
    (oldType newType : LogicalType) : Result SchemaCompatibility :=
  (checkTypeCompatibility hashOrder options oldType newType).map Prod.fst

/-! ### The recursion -/

/-- The type below the optionals and tags. -/
def bare : LogicalType → LogicalType
  | .optional element => bare element
  | .tagged _ element => bare element
  | type => type

/-- The number of optionals around it. -/
def nesting : LogicalType → ℕ
  | .optional element => nesting element + 1
  | .tagged _ element => nesting element
  | _ => 0

theorem unwrapFrom_spec (type : LogicalType) : ∀ (description : String) (n : ℕ),
    (unwrapFrom type description n).1.type = bare type ∧ (unwrapFrom type description n).2 =
      n + nesting type := by
  induction type using induct with
  | optional elem ih =>
    intro description n
    rw [unwrapFrom, bare, nesting, (ih _ _).1, (ih _ _).2]
    exact ⟨rfl, by omega⟩
  | tagged tag elem ih =>
    intro description n
    rw [unwrapFrom, bare, nesting, (ih _ _).1, (ih _ _).2]
    exact ⟨rfl, rfl⟩
  | _ => exact fun _ _ => ⟨rfl, rfl⟩

@[simp] theorem unwrap_type (desc : ComplexTypeFieldDescriptor) :
    (unwrapOptionalAndTagged desc).1.type = bare desc.type :=
  (unwrapFrom_spec _ _ _).1

@[simp] theorem unwrap_nesting (desc : ComplexTypeFieldDescriptor) :
    (unwrapOptionalAndTagged desc).2 = nesting desc.type := by
  unfold unwrapOptionalAndTagged
  rw [(unwrapFrom_spec _ _ _).2, Nat.zero_add]

theorem weight_bare_le (type : LogicalType) : (bare type).weight ≤ type.weight := by
  induction type using induct with
  | optional elem ih | tagged tag elem ih =>
    rw [bare, weight]
    omega
  | _ => exact Nat.le_refl _

theorem weight_bare_lt {type : LogicalType} (h : isWrapper type = true) :
    (bare type).weight < type.weight := by
  cases type with
  | optional elem | tagged tag elem =>
    have := weight_bare_le elem
    rw [bare, weight]
    omega
  | _ => cases h

/-- The element of the old side that is compared with the unwrapped new one. -/
def bareTowards (old new : LogicalType) : LogicalType :=
  match bare old with
  | .aggregateState function argumentType element =>
    if (bare new).metatype = .aggregateState then .aggregateState function argumentType element
      else bare element
  | type => type

def nestingTowards (old new : LogicalType) : ℕ :=
  match bare old with
  | .aggregateState _ _ element =>
    if (bare new).metatype = .aggregateState then nesting old else nesting old + nesting element
  | _ => nesting old

theorem unwrapOld_spec (old new : ComplexTypeFieldDescriptor) :
    (unwrapOld old (unwrapOptionalAndTagged new).1).1.type = bareTowards old.type new.type ∧
      (unwrapOld old (unwrapOptionalAndTagged new).1).2 = nestingTowards old.type new.type := by
  unfold unwrapOld bareTowards nestingTowards
  dsimp only
  rw [unwrap_type, unwrap_type]
  cases hb : bare old.type with
  | aggregateState fn argType elem =>
    split_ifs with hs
    · exact ⟨by rw [unwrap_type, hb], unwrap_nesting old⟩
    · dsimp only
      rw [unwrap_type, unwrap_nesting, unwrap_nesting]
      exact ⟨rfl, rfl⟩
  | _ => exact ⟨by rw [unwrap_type, hb], unwrap_nesting old⟩

theorem weight_bareTowards_le (old new : LogicalType) :
    (bareTowards old new).weight ≤ (bare old).weight := by
  unfold bareTowards
  cases hb : bare old with
  | aggregateState fn argType elem =>
    dsimp only
    split_ifs with hs
    · exact Nat.le_refl _
    · have := weight_bare_le elem
      rw [weight]
      omega
  | _ => exact Nat.le_refl _

variable {old new : ComplexTypeFieldDescriptor}

theorem pairWeight_unwrapped (h : (isWrapper old.type || isWrapper new.type) = true) : pairWeight
      ((unwrapOld old (unwrapOptionalAndTagged new).1).1, (unwrapOptionalAndTagged new).1) <
      pairWeight (old, new) := by
  unfold pairWeight
  dsimp only
  rw [(unwrapOld_spec old new).1, unwrap_type]
  have ho := weight_bareTowards_le old.type new.type
  have ho' := weight_bare_le old.type
  have hn := weight_bare_le new.type
  rcases Bool.or_eq_true_iff.mp h with hw | hw
  · have := weight_bare_lt hw
    omega
  · have := weight_bare_lt hw
    omega

theorem buildStableNameToIndexMapping_mem {metatype : LogicalMetatype}
    {fields : List (StructField LogicalType)}
    {removed : List String} {map : List (String × FieldState)}
    (h : buildStableNameToIndexMapping metatype fields removed = .ok map) {stableName : String}
    {i : ℕ} {field : StructField LogicalType} (hentry : (stableName, some (i, field)) ∈ map) :
      field ∈ fields := by
  obtain ⟨_, -, hmap⟩ := bind_eq_ok.mp h
  cases hmap
  rcases List.mem_append.mp hentry with hf | hr
  · obtain ⟨⟨field', i'⟩, hmem, heq⟩ := List.mem_map.mp hf
    cases heq
    exact List.fst_mem_of_mem_zipIdx hmem
  · split_ifs at hr with hs
    · obtain ⟨_, -, heq⟩ := List.mem_map.mp hr
      cases heq
    · cases hr

end Ytsaurus.ComplexTypes
