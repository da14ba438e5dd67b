/-
# Logical types

The types of table columns (`TLogicalType` and its descendants), what makes one nullable, and
`ValidateLogicalType`, the check every schema passes before it is used. A name is a `String` of one
character a byte, and `isUtf` stands for the UTF-8 check of the string library; an exception carries
the format string of its message.
-/
import Ytsaurus.Lib.Result

namespace Ytsaurus.TableClient

open List

inductive SimpleLogicalValueType where
  | null
  | int64
  | uint64
  | double
  | boolean
  | string
  | any
  | int8
  | uint8
  | int16
  | uint16
  | int32
  | uint32
  | utf8
  | date
  | datetime
  | timestamp
  | interval
  | void
  | float
  | json
  | uuid
  | date32
  | datetime64
  | timestamp64
  | interval64
  | tzDate
  | tzDatetime
  | tzTimestamp
  | tzDate32
  | tzDatetime64
  | tzTimestamp64
  deriving DecidableEq, Repr

/-- The values of `EValueType` that a simple type is stored as. -/
inductive PhysicalType where
  | null
  | int64
  | uint64
  | double
  | boolean
  | string
  | any
  deriving DecidableEq, Repr

namespace SimpleLogicalValueType

def getPhysicalType : SimpleLogicalValueType → PhysicalType
  | .null | .void => .null
  | .int8 | .int16 | .int32 | .int64 => .int64
  | .interval | .date32 | .datetime64 | .timestamp64 | .interval64 => .int64
  | .uint8 | .uint16 | .uint32 | .uint64 => .uint64
  | .date | .datetime | .timestamp => .uint64
  | .float | .double => .double
  | .boolean => .boolean
  | .string | .utf8 | .json | .uuid => .string
  | .tzDate | .tzDatetime | .tzTimestamp | .tzDate32 | .tzDatetime64 | .tzTimestamp64 => .string
  | .any => .any

def isIntegralType : SimpleLogicalValueType → Bool
  | .int8 | .int16 | .int32 | .int64 | .uint8 | .uint16 | .uint32 | .uint64 => true
  | _ => false

def isFloatingPointType : SimpleLogicalValueType → Bool
  | .double | .float => true
  | _ => false

/-- `IsComparable` on a simple type. -/
def isComparable : SimpleLogicalValueType → Bool
  | .any | .json => false
  | _ => true

end SimpleLogicalValueType

inductive AggregateFunction where
  | sum
  | avg
  | min
  | max
  deriving DecidableEq, Repr

inductive LogicalMetatype where
  | simple
  | optional
  | list
  | struct
  | tuple
  | variantStruct
  | variantTuple
  | dict
  | tagged
  | decimal
  | aggregateState
  deriving DecidableEq, Repr

structure StructField (type : Type) where
  name : String
  stableName : String
  type : type
  deriving Repr

inductive LogicalType where
  | simple (element : SimpleLogicalValueType)
  | decimal (precision scale : ℤ)
  | optional (element : LogicalType)
  | list (element : LogicalType)
  | struct (fields : List (StructField LogicalType)) (removedFieldStableNames : List String)
  | tuple (elements : List LogicalType)
  | variantStruct (fields : List (StructField LogicalType))
  | variantTuple (elements : List LogicalType)
  | dict (key value : LogicalType)
  | tagged (tag : String) (element : LogicalType)
  | aggregateState (function : AggregateFunction) (argumentType element : LogicalType)
  deriving Repr

variable {fn : AggregateFunction}

namespace LogicalType

/-- `GetMetatype`. -/
def metatype : LogicalType → LogicalMetatype
  | .simple _ => .simple
  | .decimal _ _ => .decimal
  | .optional _ => .optional
  | .list _ => .list
  | .struct _ _ => .struct
  | .tuple _ => .tuple
  | .variantStruct _ => .variantStruct
  | .variantTuple _ => .variantTuple
  | .dict _ _ => .dict
  | .tagged _ _ => .tagged
  | .aggregateState _ _ _ => .aggregateState

def isNullable : LogicalType → Bool
  | .simple element => decide (element.getPhysicalType = .null)
  | .optional _ => true
  | .tagged _ element => element.isNullable
  | .aggregateState _ _ element => element.isNullable
  | .decimal _ _ | .list _ | .struct _ _ | .tuple _ | .variantStruct _ | .variantTuple _
  | .dict _ _ => false

/-! ### Recursion and induction over a type -/

mutual

/-- The number of nodes of a type. -/
@[simp] def weight : LogicalType → ℕ
  | .simple _ | .decimal _ _ => 1
  | .optional element | .list element | .tagged _ element => element.weight + 1
  | .struct fields _ | .variantStruct fields => fieldsWeight fields + 1
  | .tuple elements | .variantTuple elements => elementsWeight elements + 1
  | .dict key value => key.weight + value.weight + 1
  | .aggregateState _ argumentType element => argumentType.weight + element.weight + 1

@[simp] def fieldsWeight : List (StructField LogicalType) → ℕ
  | [] => 0
  | field :: fields => field.type.weight + fieldsWeight fields

@[simp] def elementsWeight : List LogicalType → ℕ
  | [] => 0
  | element :: elements => element.weight + elementsWeight elements

end

theorem weight_le_fieldsWeight {field : StructField LogicalType} :
    ∀ {fields : List (StructField LogicalType)},
    field ∈ fields → field.type.weight ≤ fieldsWeight fields
  | first :: fields, h => by
    rw [fieldsWeight]
    rcases mem_cons.mp h with rfl | h
    · omega
    · have := weight_le_fieldsWeight h
      omega

theorem weight_le_elementsWeight {elem : LogicalType} : ∀ {elems : List LogicalType},
    elem ∈ elems → elem.weight ≤ elementsWeight elems
  | first :: elems, h => by
    rw [elementsWeight]
    rcases mem_cons.mp h with rfl | h
    · omega
    · have := weight_le_elementsWeight h
      omega

section

variable {P : LogicalType → Prop} (simple : ∀ elem, P (.simple elem))
  (decimal : ∀ precision scale, P (.decimal precision scale))
  (optional : ∀ elem, P elem → P (.optional elem)) (list : ∀ elem, P elem → P (.list elem))
  (struct : ∀ fields removed, (∀ field ∈ fields, P field.type) → P (.struct fields removed))
  (tuple : ∀ elems, (∀ elem ∈ elems, P elem) → P (.tuple elems))
  (variantStruct : ∀ fields, (∀ field ∈ fields, P field.type) → P (.variantStruct fields))
  (variantTuple : ∀ elems, (∀ elem ∈ elems, P elem) → P (.variantTuple elems))
  (dict : ∀ key value, P key → P value → P (.dict key value))
  (tagged : ∀ tag elem, P elem → P (.tagged tag elem))
  (aggregateState : ∀ fn argType elem, P argType → P elem → P (.aggregateState fn argType elem))

include simple decimal optional list struct tuple variantStruct variantTuple dict tagged
  aggregateState

/-- What holds of every node whose children it holds of holds of every type. -/
theorem induct : ∀ type, P type
  | .simple elem => simple elem
  | .decimal precision scale => decimal precision scale
  | .optional elem => optional elem (induct elem)
  | .list elem => list elem (induct elem)
  | .struct fields removed => struct fields removed fun field _ => induct field.type
  | .tuple elems => tuple elems fun elem _ => induct elem
  | .variantStruct fields => variantStruct fields fun field _ => induct field.type
  | .variantTuple elems => variantTuple elems fun elem _ => induct elem
  | .dict key value => dict key value (induct key) (induct value)
  | .tagged tag elem => tagged tag elem (induct elem)
  | .aggregateState fn argType elem => aggregateState fn argType elem (induct argType) (induct elem)
termination_by type => type.weight
decreasing_by
  all_goals simp only [weight]
  all_goals first
    | omega
    | exact Nat.lt_succ_of_le (weight_le_fieldsWeight ‹_›)
    | exact Nat.lt_succ_of_le (weight_le_elementsWeight ‹_›)

end

/-! ### Equality and aggregate states -/

mutual

/-- `operator==`; of two aggregate states only the functions and the arguments are compared. -/
def eq : LogicalType → LogicalType → Bool
  | .simple lhs, .simple rhs => lhs == rhs
  | .optional lhs, .optional rhs => lhs.eq rhs
  | .list lhs, .list rhs => lhs.eq rhs
  | .struct lhs lhsRemoved, .struct rhs rhsRemoved => eqFields lhs rhs && lhsRemoved == rhsRemoved
  | .tuple lhs, .tuple rhs => eqElements lhs rhs
  | .variantStruct lhs, .variantStruct rhs => eqFields lhs rhs
  | .variantTuple lhs, .variantTuple rhs => eqElements lhs rhs
  | .dict lhsKey lhsValue, .dict rhsKey rhsValue => lhsKey.eq rhsKey && lhsValue.eq rhsValue
  | .tagged lhsTag lhs, .tagged rhsTag rhs => lhsTag == rhsTag && lhs.eq rhs
  | .decimal lhsPrecision lhsScale, .decimal rhsPrecision rhsScale =>
    lhsPrecision == rhsPrecision && lhsScale == rhsScale
  | .aggregateState lhsFunction lhs _, .aggregateState rhsFunction rhs _ =>
    lhsFunction == rhsFunction && lhs.eq rhs
  | _, _ => false

def eqFields : List (StructField LogicalType) → List (StructField LogicalType) → Bool
  | [], [] => true
  | lhs :: lhsRest, rhs :: rhsRest =>
    lhs.name == rhs.name && lhs.stableName == rhs.stableName && lhs.type.eq rhs.type &&
      eqFields lhsRest rhsRest
  | _, _ => false

def eqElements : List LogicalType → List LogicalType → Bool
  | [], [] => true
  | lhs :: lhsRest, rhs :: rhsRest => lhs.eq rhs && eqElements lhsRest rhsRest
  | _, _ => false

end

theorem eq_of_eq_simple {element : SimpleLogicalValueType} {type : LogicalType}
    (h : (LogicalType.simple element).eq type = true) : type = .simple element := by
  cases type <;> simp [eq] at h
  rw [h]

def getAggregateStateSumType : SimpleLogicalValueType → LogicalType
  | .int8 | .int16 | .int32 | .int64 => .simple .int64
  | .uint8 | .uint16 | .uint32 | .uint64 => .simple .uint64
  | .float | .double => .simple .double
  | _ => .simple .null

def inferAggregateStateElementType (function : AggregateFunction) : LogicalType → LogicalType
  | .simple argument =>
    match function with
    | .sum => getAggregateStateSumType argument
    | .min | .max => .optional (.simple argument)
    | .avg => .struct [⟨"sum", "sum", getAggregateStateSumType argument⟩,
      ⟨"count", "count", .simple .int64⟩] []
  -- Placeholder for unsupported argument type.
  | _ => .simple .null

theorem exists_getAggregateStateSumType (arg : SimpleLogicalValueType) :
    ∃ element, getAggregateStateSumType arg = .simple element := by
  cases arg <;> exact ⟨_, rfl⟩

/-- Nothing else is equal to an inferred element. -/
theorem eq_of_eq_infer {argumentType type : LogicalType}
    (h : (inferAggregateStateElementType fn argumentType).eq type = true) :
    type = inferAggregateStateElementType fn argumentType := by
  cases argumentType with
  | simple arg =>
    obtain ⟨elem, he⟩ := exists_getAggregateStateSumType arg
    cases fn with
    | sum =>
      simp only [inferAggregateStateElementType, he] at h ⊢
      exact eq_of_eq_simple h
    | avg =>
      simp only [inferAggregateStateElementType, he] at h ⊢
      cases type with
      | struct fields removed =>
        match fields with
        | [] | [_] | _ :: _ :: _ :: _ => simp [eq, eqFields] at h
        | ⟨_, _, sum⟩ :: ⟨_, _, count⟩ :: [] =>
          simp only [eq, eqFields, Bool.and_eq_true, beq_iff_eq, Bool.and_true] at h
          obtain ⟨⟨⟨⟨hn, hstable⟩, hsum⟩, ⟨hn', hstable'⟩, hc⟩, hr⟩ := h
          rw [eq_of_eq_simple hsum, eq_of_eq_simple hc, ← hn, ← hstable, ← hn', ← hstable', ← hr]
      | _ => simp [eq] at h
    | min | max =>
      simp only [inferAggregateStateElementType] at h ⊢
      cases type with
      | optional type =>
        rw [eq_of_eq_simple h]
      | _ => simp [eq] at h
  | _ =>
    exact eq_of_eq_simple h

end LogicalType

/-! ### Paths -/

/-- `TComplexTypeFieldDescriptor`: a type and where in the column it stands. -/
structure ComplexTypeFieldDescriptor where
  description : String
  type : LogicalType
  deriving Repr

namespace ComplexTypeFieldDescriptor

variable (descriptor : ComplexTypeFieldDescriptor)

def listElement (element : LogicalType) : ComplexTypeFieldDescriptor :=
  ⟨descriptor.description ++ ".<list-element>", element⟩

/-- `Field`, the same for structs and variant structs. -/
def field (descriptor : ComplexTypeFieldDescriptor) (field : StructField LogicalType) :
    ComplexTypeFieldDescriptor :=
  ⟨descriptor.description ++ "." ++ field.name, field.type⟩

def tupleElement (i : ℕ) (element : LogicalType) :
    ComplexTypeFieldDescriptor :=
  ⟨descriptor.description ++ ".<tuple-element-" ++ toString i ++ ">", element⟩

def variantTupleElement (i : ℕ) (element : LogicalType) :
    ComplexTypeFieldDescriptor :=
  ⟨descriptor.description ++ ".<variant-element-" ++ toString i ++ ">", element⟩

theorem type_tupleElement (desc : ComplexTypeFieldDescriptor) (i : ℕ) (element : LogicalType) :
    (desc.tupleElement i element).type = element := rfl

theorem type_variantTupleElement (desc : ComplexTypeFieldDescriptor) (i : ℕ)
    (element : LogicalType) : (desc.variantTupleElement i element).type = element := rfl

def dictKey (key : LogicalType) : ComplexTypeFieldDescriptor :=
  ⟨descriptor.description ++ ".<key>", key⟩

def dictValue (value : LogicalType) : ComplexTypeFieldDescriptor :=
  ⟨descriptor.description ++ ".<value>", value⟩

def aggregateStateElement (element : LogicalType) :
    ComplexTypeFieldDescriptor :=
  ⟨descriptor.description ++ ".<aggregate-state-element>", element⟩

end ComplexTypeFieldDescriptor

/-! ### Validation -/

section

variable (visit : Option LogicalMetatype → LogicalType → Result Unit)

mutual

/-- `Walk`: every node before its children, with the metatype of the node above it. -/
@[simp] def walk (parent : Option LogicalMetatype) : LogicalType → Result Unit
  | .simple element => visit parent (.simple element)
  | .decimal precision scale => visit parent (.decimal precision scale)
  | .optional element => do
    visit parent (.optional element)
    walk (some .optional) element
  | .list element => do
    visit parent (.list element)
    walk (some .list) element
  | .struct fields removed => do
    visit parent (.struct fields removed)
    walkFields (some .struct) fields
  | .tuple elements => do
    visit parent (.tuple elements)
    walkElements (some .tuple) elements
  | .variantStruct fields => do
    visit parent (.variantStruct fields)
    walkFields (some .variantStruct) fields
  | .variantTuple elements => do
    visit parent (.variantTuple elements)
    walkElements (some .variantTuple) elements
  | .dict key value => do
    visit parent (.dict key value)
    walk (some .dict) key
    walk (some .dict) value
  | .tagged tag element => do
    visit parent (.tagged tag element)
    walk (some .tagged) element
  | .aggregateState function argumentType element => do
    visit parent (.aggregateState function argumentType element)
    walk (some .aggregateState) element

@[simp] def walkFields (parent : Option LogicalMetatype) :
    List (StructField LogicalType) → Result Unit
  | [] => .ok ()
  | field :: fields => do
    walk parent field.type
    walkFields parent fields

@[simp] def walkElements (parent : Option LogicalMetatype) : List LogicalType → Result Unit
  | [] => .ok ()
  | element :: elements => do
    walk parent element
    walkElements parent elements

end

theorem walkElements_eq_ok {parent : Option LogicalMetatype} {u : Unit} :
    ∀ {elems : List LogicalType}, walkElements visit parent elems = .ok u ↔
      ∀ elem ∈ elems, walk visit parent elem = .ok ()
  | [] => by simp [walkElements]
  | elem :: elems => by
    rw [walkElements, bind_eq_ok, forall_mem_cons]
    constructor
    · intro ⟨_, helement, helem⟩
      exact ⟨helement, walkElements_eq_ok.mp helem⟩
    · intro ⟨helement, helem⟩
      exact ⟨(), helement, walkElements_eq_ok.mpr helem⟩

theorem walkFields_eq (parent : Option LogicalMetatype) : ∀ fields : List (StructField LogicalType),
    walkFields visit parent fields = walkElements visit parent (fields.map StructField.type)
  | [] => rfl
  | field :: fields => by rw [walkFields, walkFields_eq parent fields, map_cons, walkElements]

end

def maxColumnNameLength : ℕ := 256

section

variable (isUtf : String → Bool)

/-- `validateFieldNames`, for the names of the fields or for their stable names. -/
def validateFieldNames : List String → List String → Result Unit
  | _, [] => .ok ()
  | usedNames, name :: names => do
    throwErrorExceptionIf (name = "") "%v of struct field #%v is empty"
    throwErrorExceptionIf (name ∈ usedNames) "Struct field %v %Qv is used twice"
    throwErrorExceptionIf (maxColumnNameLength < name.length)
      "%v of struct field #%v exceeds limit: %v > %v"
    throwErrorExceptionIf (isUtf name = false) "%v of struct field #%v is not valid utf8"
    validateFieldNames (name :: usedNames) names

/-- The loop over the removed names. -/
def validateRemovedNames : List String → List String → Result Unit
  | _, [] => .ok ()
  | removed, name :: names => do
    throwErrorExceptionIf (name ∈ removed) "Removed field stable name %Qv is used twice"
    validateRemovedNames (name :: removed) names

/-- What `TDictLogicalType::ValidateNode` asks of every node of the key. -/
def validateDictKeyNode (_ : Option LogicalMetatype) : LogicalType → Result Unit
  | .simple element =>
    throwErrorExceptionIf (element = .any ∨
      element = .json) "%Qv is of type %Qv that is not allowed in dict key"
  | _ => .ok ()

/-- `ValidateNode`, one case for each class. -/
def validateNode (parent : Option LogicalMetatype) : LogicalType → Result Unit
  | .simple element =>
    throwErrorExceptionIf (element = .any ∧
      parent ≠ some .optional) "Type %Qv is disallowed outside of optional"
  | .decimal precision scale => do
    throwErrorExceptionIf (precision < 1 ∨
      76 < precision) "Decimal precision %Qv is not in range [%v, %v]"
    throwErrorExceptionIf (scale < 0) "Decimal scale %Qv is negative"
    throwErrorExceptionIf (precision < scale) "Decimal scale %Qv exceeds precision %Qv"
  | .struct fields removed => do
    validateFieldNames isUtf [] (fields.map StructField.name)
    validateFieldNames isUtf [] (fields.map StructField.stableName)
    validateRemovedNames [] removed
    throwErrorExceptionIf (∃ name ∈ fields.map StructField.stableName, name ∈ removed)
      "Removed field stable name %Qv cannot be used as a stable name of struct field #%v"
  | .variantStruct fields => do
    validateFieldNames isUtf [] (fields.map StructField.name)
    validateFieldNames isUtf [] (fields.map StructField.stableName)
  | .dict key _ => walk validateDictKeyNode none key
  | .tagged tag _ => do
    throwErrorExceptionIf (tag = "") "Tag is empty"
    throwErrorExceptionIf (maxColumnNameLength < tag.length) "Tag is too big"
    throwErrorExceptionIf (isUtf tag = false) "Tag is not valid utf8"
  | .aggregateState function argumentType element =>
    match argumentType with
    | .simple simpleType => do
      throwErrorExceptionIf ((function = .sum ∨ function = .avg) ∧ simpleType.isIntegralType = false ∧
          simpleType.isFloatingPointType = false)
        ("Aggregate function %Qlv requires a simple numeric argument type (integer or floating-point type), " ++
          "but got %Qlv")
      throwErrorExceptionIf ((function = .min ∨ function = .max) ∧ simpleType.isComparable = false)
        ("Aggregate function %Qlv requires a simple comparable argument type (integer, floating-point, or string " ++
          "type), but got %Qlv")
      throwErrorExceptionIf
        ((LogicalType.inferAggregateStateElementType function argumentType).eq element = false)
        "Provided AggregateState element type %Qv differs from the inferred one %Qv"
    | _ => .error (.exception "AggregateState requires a simple argument type, but got %Qlv")
  | .optional _ | .list _ | .tuple _ | .variantTuple _ => .ok ()

/-- `ValidateLogicalType` without a depth limit. -/
def validateLogicalType (type : LogicalType) : Result Unit :=
  walk (validateNode isUtf) none type

/-- A type that passes the validation below a node of the metatype `parent`. -/
def ValidIn (parent : Option LogicalMetatype) (type : LogicalType) : Prop :=
  walk (validateNode isUtf) parent type = .ok ()

def Valid (type : LogicalType) : Prop := validateLogicalType isUtf type = .ok ()

instance (type : LogicalType) : Decidable (Valid isUtf type) := inferInstanceAs (Decidable (_ = _))

theorem fresh_cons {used names : List String} {name : String} (hname : name ∉ used)
    (h : names.Nodup ∧ ∀ n ∈ names, n ∉ name :: used) : (name :: names).Nodup ∧ ∀ n ∈ name :: names,
      n ∉ used := by
  refine ⟨nodup_cons.mpr ⟨fun hm => h.2 name hm mem_cons_self, h.1⟩, ?_⟩
  exact forall_mem_cons.mpr ⟨hname, fun n hn hm => h.2 n hn (mem_cons_of_mem _ hm)⟩

theorem validateFieldNames_nodup : ∀ {usedNames names : List String},
    validateFieldNames isUtf usedNames names = .ok () →
    names.Nodup ∧ ∀ name ∈ names, name ∉ usedNames
  | _, [], _ => ⟨nodup_nil, by simp⟩
  | usedNames, name :: names, h => by
    simp only [validateFieldNames, bind_eq_ok, throwErrorExceptionIf_eq_ok] at h
    obtain ⟨_, -, _, hu, _, -, _, -, hr⟩ := h
    exact fresh_cons hu (validateFieldNames_nodup hr)

theorem validateRemovedNames_nodup : ∀ {removed names : List String},
    validateRemovedNames removed names = .ok () → names.Nodup ∧ ∀ name ∈ names, name ∉ removed
  | _, [], _ => ⟨nodup_nil, by simp⟩
  | removed, name :: names, h => by
    simp only [validateRemovedNames, bind_eq_ok, throwErrorExceptionIf_eq_ok] at h
    obtain ⟨_, hremoved, hrest⟩ := h
    exact fresh_cons hremoved (validateRemovedNames_nodup hrest)

variable {isUtf} {parent : Option LogicalMetatype}

theorem rest_of_walk {node rest : Result Unit} (h : (do node; rest) = .ok ()) : rest = .ok () := by
  obtain ⟨-, -, h⟩ := bind_eq_ok.mp h
  exact h

variable {element : LogicalType}

theorem ValidIn.optional (h : ValidIn isUtf parent (.optional element)) :
    ValidIn isUtf (some .optional) element := by
  exact rest_of_walk h

theorem ValidIn.tagged {tag : String} (h : ValidIn isUtf parent (.tagged tag element)) :
    ValidIn isUtf (some .tagged) element := by
  exact rest_of_walk h

theorem ValidIn.list (h : ValidIn isUtf parent (.list element)) :
    ValidIn isUtf (some .list) element := by
  exact rest_of_walk h

theorem ValidIn.tuple {elems : List LogicalType} (h : ValidIn isUtf parent (.tuple elems)) :
    ∀ element ∈ elems, ValidIn isUtf (some .tuple) element := by
  exact (walkElements_eq_ok _).mp (rest_of_walk h)

theorem ValidIn.variantTuple {elems : List LogicalType}
    (h : ValidIn isUtf parent (.variantTuple elems)) :
    ∀ element ∈ elems, ValidIn isUtf (some .variantTuple) element := by
  exact (walkElements_eq_ok _).mp (rest_of_walk h)

theorem ValidIn.dict {key value : LogicalType} (h : ValidIn isUtf parent (.dict key value)) :
    ValidIn isUtf (some .dict) key ∧ ValidIn isUtf (some .dict) value := by
  obtain ⟨_, hk, hv⟩ := bind_eq_ok.mp (rest_of_walk h)
  exact ⟨hk, hv⟩

variable {fields : List (StructField LogicalType)}

theorem forall_fields {metatype : LogicalMetatype}
    (h : walkFields (validateNode isUtf) (some metatype) fields = .ok ()) :
    ∀ field ∈ fields, ValidIn isUtf (some metatype) field.type := by
  rw [walkFields_eq, walkElements_eq_ok, forall_mem_map] at h
  exact h

theorem ValidIn.struct {removed : List String} (h : ValidIn isUtf parent (.struct fields removed)) :
    (fields.map StructField.stableName ++ removed).Nodup ∧
      ∀ field ∈ fields, ValidIn isUtf (some .struct) field.type := by
  rw [ValidIn, walk, bind_eq_ok] at h
  obtain ⟨_, hnode, h⟩ := h
  refine ⟨?_, forall_fields h⟩
  simp only [validateNode, bind_eq_ok, throwErrorExceptionIf_eq_ok] at hnode
  obtain ⟨_, -, _, hs, _, hr, hd⟩ := hnode
  rw [nodup_append]
  refine ⟨(validateFieldNames_nodup isUtf hs).1, (validateRemovedNames_nodup hr).1, ?_⟩
  intro name hname other ho heq
  exact hd ⟨name, hname, heq ▸ ho⟩

theorem ValidIn.variantStruct
    (h : ValidIn isUtf parent (.variantStruct fields)) : (fields.map StructField.stableName).Nodup ∧
      ∀ field ∈ fields, ValidIn isUtf (some .variantStruct) field.type := by
  rw [ValidIn, walk, bind_eq_ok] at h
  obtain ⟨_, hn, h⟩ := h
  refine ⟨?_, forall_fields h⟩
  simp only [validateNode, bind_eq_ok] at hn
  obtain ⟨_, -, hs⟩ := hn
  exact (validateFieldNames_nodup isUtf hs).1

theorem ValidIn.simple {elem : SimpleLogicalValueType} (h : ValidIn isUtf parent (.simple elem))
    (ha : elem = .any) : parent = some .optional := by
  rw [ValidIn, walk, validateNode, throwErrorExceptionIf_eq_ok] at h
  by_contra hne
  exact h ⟨ha, hne⟩

theorem ValidIn.aggregateStateElement {argType element : LogicalType}
    (h : ValidIn isUtf parent (.aggregateState fn argType element)) :
    ValidIn isUtf (some .aggregateState) element := by
  exact rest_of_walk h

theorem ValidIn.aggregateState {argType elem : LogicalType}
    (h : ValidIn isUtf parent (.aggregateState fn argType elem)) :
    ∃ arg, argType = .simple arg ∧
      ((fn = .min ∨ fn = .max) → arg.isComparable = true) ∧
      elem = LogicalType.inferAggregateStateElementType fn (.simple arg) := by
  rw [ValidIn, walk, bind_eq_ok] at h
  obtain ⟨_, hnode, -⟩ := h
  cases argType with
  | simple arg =>
    simp only [validateNode, bind_eq_ok, throwErrorExceptionIf_eq_ok] at hnode
    obtain ⟨_, -, _, hc, hi⟩ := hnode
    refine ⟨arg, rfl, fun hf => ?_, LogicalType.eq_of_eq_infer (by simpa using hi)⟩
    by_contra hne
    exact hc ⟨hf, by simpa using hne⟩
  | _ => simp [validateNode] at hnode

end

end Ytsaurus.TableClient
