/-
# What compatibility means

The relation that the compatibility check decides when renaming and removal of fields are allowed:
`Alters level old new`, a column of the type `old` may become one of the type `new` at the given
level. It speaks of types alone; the paths, the errors, the hash maps and the early returns of the
check are gone.
-/
import Ytsaurus.ComplexTypes.CheckTypeCompatibility
import Ytsaurus.Lib.Search

namespace Ytsaurus.ComplexTypes

open List TableClient StructField SchemaCompatibility

/-! ### Levels -/

theorem SchemaCompatibility.le_def {lhs rhs : SchemaCompatibility} :
    lhs ≤ rhs ↔ lhs.rank ≤ rhs.rank := Iff.rfl

theorem SchemaCompatibility.le_full (level : SchemaCompatibility) : level ≤ .fullyCompatible := by
  cases level <;> decide

variable {level : SchemaCompatibility}

theorem SchemaCompatibility.full_le :
    .fullyCompatible ≤ level ↔ level = .fullyCompatible := by
  cases level <;> decide

theorem SchemaCompatibility.not_le_incompatible (h : level ≠ .incompatible) :
    ¬ level ≤ .incompatible := by
  cases level with
  | incompatible => exact absurd rfl h
  | requireValidation | fullyCompatible => decide

theorem le_minCompatibility {lhs rhs : CompatibilityPair} :
    level ≤ (minCompatibility lhs rhs).1 ↔ level ≤ lhs.1 ∧ level ≤ rhs.1 := by
  unfold minCompatibility
  simp only [le_def]
  split_ifs with h
  · exact ⟨fun hl => ⟨hl, hl.trans h⟩, fun hl => hl.1⟩
  · exact ⟨fun hl => ⟨by omega, hl⟩, fun hl => hl.2⟩

@[simp] theorem createResultPair_fst (compatibility : SchemaCompatibility)
    (old new : ComplexTypeFieldDescriptor) :
    (createResultPair compatibility old new).1 = compatibility := by
  unfold createResultPair
  split_ifs <;> rfl

/-! ### The relation -/

/-- The numbers of optionals around the old and the new element. -/
def NestingFits (level : SchemaCompatibility) (old new : ℕ) : Prop :=
  old = new ∨ old = 0 ∧ new = 1 ∨ level ≤ .requireValidation ∧ old = 1 ∧ new = 0

def SimpleFits (level : SchemaCompatibility) (old new : SimpleLogicalValueType) : Prop :=
  ∃ compatibility, simpleTypeCompatibility old new = .ok compatibility ∧ level ≤ compatibility

mutual

/-- A column of the type `old` may be altered to the type `new`. -/
inductive Alters (ignoreUnknown : Bool) : SchemaCompatibility → LogicalType → LogicalType → Prop
  | intro {level : SchemaCompatibility} {old new : LogicalType} :
      NestingFits level (nestingTowards old new) (nesting new) →
      BareAlters ignoreUnknown level (bareTowards old new) (bare new) →
        Alters ignoreUnknown level old new

/-- The same for types that are no optional and no tag, and no state above something else. -/
inductive BareAlters (ignoreUnknown : Bool) : SchemaCompatibility → LogicalType → LogicalType → Prop
  | simple {level : SchemaCompatibility} {old new : SimpleLogicalValueType} :
      SimpleFits level old new → BareAlters ignoreUnknown level (.simple old) (.simple new)
  | decimal {level : SchemaCompatibility} {precision scale : ℤ} :
      BareAlters ignoreUnknown level (.decimal precision scale) (.decimal precision scale)
  | list {level : SchemaCompatibility} {old new : LogicalType} :
      Alters ignoreUnknown level old new → BareAlters ignoreUnknown level (.list old) (.list new)
  | struct {level : SchemaCompatibility} {oldFields newFields : List (StructField LogicalType)}
      {oldRemoved newRemoved : List String} :
      (∀ new ∈ newFields, new.stableName ∉ oldFields.map stableName → new.stableName ∉ oldRemoved →
        new.type.isNullable = true) →
      (∀ name ∈ newRemoved, name ∉ oldFields.map stableName → name ∉ oldRemoved → ignoreUnknown = true) →
      (∀ old ∈ oldFields, old.stableName ∈ newFields.map stableName ∨ old.stableName ∈ newRemoved) →
      (∀ name ∈ oldRemoved, name ∈ newRemoved) →
      (∀ old ∈ oldFields, ∀ new ∈ newFields, old.stableName = new.stableName →
        Alters ignoreUnknown level old.type new.type) →
      BareAlters ignoreUnknown level (.struct oldFields oldRemoved) (.struct newFields newRemoved)
  | variantStruct {level : SchemaCompatibility}
    {oldFields newFields : List (StructField LogicalType)} :
      (∀ old ∈ oldFields, old.stableName ∈ newFields.map stableName ∨ level ≤ .requireValidation) →
      (∃ old ∈ oldFields, old.stableName ∈ newFields.map stableName) →
      (∀ old ∈ oldFields, ∀ new ∈ newFields, old.stableName = new.stableName →
        Alters ignoreUnknown level old.type new.type) →
      BareAlters ignoreUnknown level (.variantStruct oldFields) (.variantStruct newFields)
  | tuple {level : SchemaCompatibility} {oldElements newElements : List LogicalType} :
      oldElements.length = newElements.length →
      (∀ pair ∈ oldElements.zip newElements, Alters ignoreUnknown level pair.1 pair.2) →
      BareAlters ignoreUnknown level (.tuple oldElements) (.tuple newElements)
  | variantTuple {level : SchemaCompatibility} {oldElements newElements : List LogicalType} :
      oldElements.length ≤ newElements.length →
      (∀ pair ∈ oldElements.zip newElements, Alters ignoreUnknown level pair.1 pair.2) →
      BareAlters ignoreUnknown level (.variantTuple oldElements) (.variantTuple newElements)
  | dict {level : SchemaCompatibility} {oldKey oldValue newKey newValue : LogicalType} :
      Alters ignoreUnknown level oldKey newKey → Alters ignoreUnknown level oldValue newValue →
      BareAlters ignoreUnknown level (.dict oldKey oldValue) (.dict newKey newValue)
  | aggregateState {level : SchemaCompatibility} {function : AggregateFunction}
      {oldArgument newArgument old new : LogicalType} :
      Alters ignoreUnknown .fullyCompatible old new →
      BareAlters ignoreUnknown level (.aggregateState function oldArgument old)
        (.aggregateState function newArgument new)

end

attribute [mk_iff] BareAlters

variable {ignoreUnknown lax : Bool} {level : SchemaCompatibility}

theorem alters_iff {old new : LogicalType} :
    Alters lax level old new ↔ NestingFits level (nestingTowards old new) (nesting new) ∧
      BareAlters lax level (bareTowards old new) (bare new) := by
  constructor
  · intro h
    cases h with
    | intro hn hb => exact ⟨hn, hb⟩
  · intro h
    exact .intro h.1 h.2

theorem bare_eq_self {type : LogicalType} (h : isWrapper type = false) : bare type = type := by
  cases type with
  | optional elem | tagged tag elem => cases h
  | _ => rfl

theorem nesting_eq_zero {type : LogicalType} (h : isWrapper type = false) : nesting type = 0 := by
  cases type with
  | optional elem | tagged tag elem => cases h
  | _ => rfl

theorem isWrapper_bare (type : LogicalType) : isWrapper (bare type) = false := by
  induction type using LogicalType.induct with
  | optional elem ih | tagged tag elem ih => exact ih
  | _ => rfl

theorem alters_bare {old new : LogicalType} (hold : isWrapper old = false)
    (hnew : isWrapper new = false)
    (hs : old.metatype = .aggregateState → new.metatype = .aggregateState) :
    Alters lax level old new ↔ BareAlters lax level old new := by
  have hb : bareTowards old new = old ∧ nestingTowards old new = 0 := by
    unfold bareTowards nestingTowards
    rw [bare_eq_self hold, bare_eq_self hnew, nesting_eq_zero hold]
    cases old with
    | aggregateState fn argType elem =>
      dsimp only
      rw [if_pos (hs rfl), if_pos (hs rfl)]
      exact ⟨rfl, rfl⟩
    | _ => exact ⟨rfl, rfl⟩
  rw [alters_iff, hb.1, hb.2, bare_eq_self hnew, nesting_eq_zero hnew]
  exact ⟨fun h => h.2, fun h => ⟨.inl rfl, h⟩⟩

/-! ### Loops -/

/-- Where every step keeps a level exactly when its item fits, the loop keeps it when all of them
fit. A flag that a step raises exactly when its item hits is up at the end when some item hits, if
the loop did not leave. -/
theorem loopUntil_spec {σ α : Type} {compat : σ → SchemaCompatibility} {flag : σ → Prop}
    {body : σ → α → Result σ}
    {Fits : SchemaCompatibility → α → Prop} {Hit : α → Prop} : ∀ {l : List α} (state : σ),
    (∀ a ∈ l, ∀ s, ∃ s', body s a = .ok s' ∧ (∀ level, level ≠ .incompatible →
      (level ≤ compat s' ↔ level ≤ compat s ∧ Fits level a)) ∧ (flag s' ↔ flag s ∨ Hit a)) →
    ∃ s', loopUntil (fun s => compat s = .incompatible) body l state = .ok s' ∧ (∀ level, level ≠
        .incompatible → (level ≤ compat s' ↔ level ≤ compat state ∧ ∀ a ∈ l, Fits level a)) ∧
      (compat s' ≠ .incompatible → (flag s' ↔ flag state ∨ ∃ a ∈ l, Hit a))
  | [], state, _ => ⟨state, rfl, by simp, by simp⟩
  | a :: l, state, h => by
    obtain ⟨s', hbody, hs', hf⟩ := h a (by simp) state
    rw [loopUntil, hbody, ok_bind]
    split_ifs with hleave
    · have hleave := of_decide_eq_true hleave
      refine ⟨s', rfl, fun level hlevel => ⟨fun hs => ?_, fun hs => ?_⟩, fun hne => absurd hleave hne⟩
      · rw [hleave] at hs
        exact absurd hs (not_le_incompatible hlevel)
      · exact (hs' level hlevel).mpr ⟨hs.1, hs.2 a (by simp)⟩
    · obtain ⟨s'', hloop, hs'', hf'⟩ := loopUntil_spec s' fun b hb => h b (mem_cons_of_mem a hb)
      refine ⟨s'', hloop, fun level hlevel => ?_, fun hne => ?_⟩
      · rw [hs'' level hlevel, hs' level hlevel, forall_mem_cons, and_assoc]
      · rw [hf' hne, hf, or_assoc]
        simp

/-! ### Maps from stable names -/

/-- The map of the stable names of `fields` and `removed`. -/
structure MapsStableNames (fields : List (StructField LogicalType)) (removed : List String)
    (map : List (String × FieldState)) : Prop where
  nodup : (map.map Prod.fst).Nodup
  field_of_mem : ∀ {name : String} {i : ℕ} {field : StructField LogicalType},
    (name, some (i, field)) ∈ map → field ∈ fields ∧ field.stableName = name
  mem_of_field : ∀ {field : StructField LogicalType}, field ∈ fields →
    ∃ i, (field.stableName, some (i, field)) ∈ map
  mem_of_removed : ∀ {name : String}, name ∈ removed ↔ (name, none) ∈ map

/-- The entries of that map in the order of their insertion. -/
def stableNameEntries (fields : List (StructField LogicalType)) (removed : List String) :
    List (String × FieldState) :=
  fields.zipIdx.map (fun entry => (entry.1.stableName, some (entry.2, entry.1))) ++
    removed.map (fun stableName => (stableName, none))

theorem map_fst_stableNameEntries (fields : List (StructField LogicalType))
    (removed : List String) :
    (stableNameEntries fields removed).map Prod.fst = fields.map stableName ++ removed := by
  have hf : fields.zipIdx.map (fun entry => entry.1.stableName) = fields.map stableName := by
    show fields.zipIdx.map (stableName ∘ Prod.fst) = _
    rw [← map_map, zipIdx_map_fst]
  unfold stableNameEntries
  rw [map_append, map_map, map_map]
  congr 1
  exact map_id _

variable {fields : List (StructField LogicalType)}

theorem mapsStableNames_stableNameEntries {removed : List String}
    (hnames : (fields.map stableName ++ removed).Nodup) :
    MapsStableNames fields removed (stableNameEntries fields removed) := by
  refine ⟨by rwa [map_fst_stableNameEntries], ?_, ?_, ?_⟩
  · intro name i field hm
    rcases mem_append.mp hm with hm | hm
    · obtain ⟨entry, hentry, heq⟩ := mem_map.mp hm
      cases heq
      exact ⟨fst_mem_of_mem_zipIdx hentry, rfl⟩
    · obtain ⟨_, -, heq⟩ := mem_map.mp hm
      cases heq
  · intro field hf
    obtain ⟨i, hi⟩ := getElem?_of_mem hf
    refine ⟨i, mem_append_left _ (mem_map.mpr ⟨(field, i), ?_, rfl⟩)⟩
    exact mem_zipIdx_iff_getElem?.mpr hi
  · intro name
    constructor
    · intro hm
      exact mem_append_right _ (mem_map.mpr ⟨name, hm, rfl⟩)
    · intro hm
      rcases mem_append.mp hm with hm | hm
      · obtain ⟨_, -, heq⟩ := mem_map.mp hm
        cases heq
      · obtain ⟨_, hname, heq⟩ := mem_map.mp hm
        cases heq
        exact hname

theorem buildStableNameToIndexMapping_spec {metatype : LogicalMetatype} {removed : List String}
    (hn : (fields.map stableName ++ removed).Nodup) (hr : metatype = .struct ∨ removed = []) :
    ∃ map, buildStableNameToIndexMapping metatype fields removed = .ok map ∧
      MapsStableNames fields removed map := by
  refine ⟨_, ?_, mapsStableNames_stableNameEntries hn⟩
  have ht : (if metatype = .struct
      then removed.map (fun name => ((name, none) : String × FieldState)) else []) =
      removed.map (fun name => (name, none)) := by
    rcases hr with h | h
    · rw [if_pos h]
    · rw [h, map_nil, ite_self]
  unfold buildStableNameToIndexMapping
  rw [ht]
  rw [← map_fst_stableNameEntries] at hn
  exact bind_eq_ok.mpr ⟨(), ytVerify_true hn, rfl⟩

/-! ### Tuples -/

section

variable {call : ComplexTypeFieldDescriptor × ComplexTypeFieldDescriptor → Result CompatibilityPair}

/-- The check returns, and reaches the levels of `P`. -/
def Reaches (result : Result CompatibilityPair) (P : SchemaCompatibility → Prop) : Prop :=
  ∃ pair, result = .ok pair ∧ ∀ level, level ≠ .incompatible → (level ≤ pair.1 ↔ P level)

theorem Reaches.congr {result : Result CompatibilityPair} {P Q : SchemaCompatibility → Prop}
    (h : Reaches result P) (hPQ : ∀ level, P level ↔ Q level) : Reaches result Q := by
  obtain ⟨pair, hp, hlevels⟩ := h
  exact ⟨pair, hp, fun level hlevel => (hlevels level hlevel).trans (hPQ level)⟩

theorem reaches_incompatible {pair : CompatibilityPair} {P : SchemaCompatibility → Prop}
    (hp : pair.1 = .incompatible) (hP : ∀ level, ¬P level) : Reaches (.ok pair) P := by
  refine ⟨pair, rfl, fun level hl => iff_of_false ?_ (hP level)⟩
  rw [hp]
  exact not_le_incompatible hl

/-- On this pair of types `call` returns, and reaches the levels at which they alter. -/
def Decides (ignoreUnknown : Bool)
    (call : ComplexTypeFieldDescriptor × ComplexTypeFieldDescriptor → Result CompatibilityPair)
    (oldType newType : LogicalType) : Prop :=
  ∀ old new : ComplexTypeFieldDescriptor, old.type = oldType → new.type = newType →
    ∃ pair, call (old, new) = .ok pair ∧
      ∀ level, level ≠ .incompatible → (level ≤ pair.1 ↔ Alters ignoreUnknown level oldType newType)

variable {old new : ComplexTypeFieldDescriptor}

theorem checkElements_spec
    {pos : ComplexTypeFieldDescriptor → ℕ → LogicalType → ComplexTypeFieldDescriptor}
    (hpos : ∀ desc i type, (pos desc i type).type = type) {xs ys : List LogicalType}
    (hc : ∀ pair ∈ xs.zip ys, Decides lax call pair.1 pair.2) :
    Reaches (checkElements call pos old new xs ys) fun level => ∀ pair ∈ xs.zip ys,
      Alters lax level pair.1 pair.2 := by
  have hs : ∀ entry ∈ (xs.zip ys).zipIdx, ∀ result : CompatibilityPair, ∃ result',
      (do
        let element ← call (pos old entry.2 entry.1.1, pos new entry.2 entry.1.2)
        pure (minCompatibility result element)) = .ok result' ∧ (∀ level, level ≠ .incompatible →
          (level ≤ result'.1 ↔ level ≤ result.1 ∧ Alters lax level entry.1.1 entry.1.2)) ∧
              (False ↔ False ∨ False) := by
    intro entry he result
    obtain ⟨pair, hpair, hlevels⟩ := hc entry.1 (fst_mem_of_mem_zipIdx he) _ _
      (hpos old entry.2 entry.1.1) (hpos new entry.2 entry.1.2)
    refine ⟨minCompatibility result pair, by rw [hpair]; rfl, fun level hlevel => ?_, by simp⟩
    rw [le_minCompatibility, hlevels level hlevel]
  obtain ⟨result, hloop, hlevels, -⟩ := loopUntil_spec (.fullyCompatible, none) hs
  refine ⟨result, hloop, fun level hlevel => ?_⟩
  rw [hlevels level hlevel]
  constructor
  · intro h pair hpair
    obtain ⟨i, hi⟩ := getElem?_of_mem hpair
    exact h.2 (pair, i) (mem_zipIdx_iff_getElem?.mpr hi)
  · intro h
    exact ⟨le_full level, fun entry he => h entry.1 (fst_mem_of_mem_zipIdx he)⟩

/-! ### Fields -/

/-- Both renaming and removal of fields are allowed. -/
def alteringOptions (ignoreUnknown : Bool) : TypeCompatibilityOptions := ⟨true, true, ignoreUnknown⟩

/-- An entry of the new map may be new. -/
def UnknownFits (ignoreUnknown : Bool) (metatype : LogicalMetatype)
    (oldMap : List (String × FieldState)) (entry : String × FieldState) : Prop :=
  entry.1 ∈ oldMap.map Prod.fst ∨
    (∀ i field, entry.2 = some (i, field) → metatype = .variantStruct ∨
      field.type.isNullable = true) ∧ (entry.2 = none → ignoreUnknown = true)

/-- What a stable name stood for may become what it stands for now; `none` for a name that is
unknown now. -/
def TransitionFits (ignoreUnknown : Bool) (metatype : LogicalMetatype)
    (level : SchemaCompatibility) : FieldState → Option FieldState → Prop
  | some old, some (some new) => Alters ignoreUnknown level old.2.type new.2.type
  | some _, some none => metatype = .struct ∨ level ≤ .requireValidation
  | some _, none => metatype = .variantStruct ∧ level ≤ .requireValidation
  | none, some none => True
  | none, some (some _) => False
  | none, none => False

/-- The transition from existing to existing. -/
def Retains : FieldState → Option FieldState → Prop
  | some _, some (some _) => True
  | _, _ => False

theorem le_incompatibleWith {message description : String}
    {attributes : List (String × ErrorAttribute)}
    (hl : level ≠ .incompatible) : ¬ level ≤ (incompatibleWith message description attributes).1 :=
  not_le_incompatible hl

theorem lookup_isSome_iff {ν : Type} {k : String} : ∀ {map : List (String × ν)},
    (map.lookup k).isSome = true ↔ k ∈ map.map Prod.fst
  | [] => by simp
  | (k', v') :: map => by
    rw [lookup_cons, map_cons, mem_cons]
    by_cases hk : k = k'
    · simp [hk]
    · simp only [beq_false_of_ne hk, hk, false_or]
      exact lookup_isSome_iff

variable {metatype : LogicalMetatype} {oldMap : List (String × FieldState)}
  {entry : String × FieldState}

theorem le_onUnknown (hl : level ≠ .incompatible) {result : CompatibilityPair} :
    level ≤ (onUnknown (alteringOptions lax) metatype old new oldMap result entry).1 ↔
      level ≤ result.1 ∧ UnknownFits lax metatype oldMap entry := by
  unfold onUnknown UnknownFits
  rw [← lookup_isSome_iff]
  obtain ⟨name, state⟩ := entry
  split_ifs with hk
  · simp [hk]
  · cases state with
    | none =>
      unfold onUnknownRemovedField alteringOptions
      cases lax with
      | true => simp
      | false => simp [le_incompatibleWith hl, hk]
    | some index =>
      obtain ⟨i, field⟩ := index
      dsimp only
      unfold onNewField
      split_ifs with hv hn
      · simp [hv]
      · simp [hn]
      · simp [le_incompatibleWith hl, hk, hv, hn]

theorem le_onRemovedField {field : StructField LogicalType} {result : CompatibilityPair} :
    level ≤ (onRemovedField (alteringOptions lax) metatype old field result).1 ↔
      level ≤ result.1 ∧ (metatype = .struct ∨ level ≤ .requireValidation) := by
  unfold onRemovedField alteringOptions
  simp only [Bool.true_eq_false, if_false]
  split_ifs with hs
  · simp [hs]
  · rw [le_minCompatibility]
    simp [hs]

variable {newMap : List (String × FieldState)}

theorem onKnown_spec (hm : metatype = .struct ∨ metatype = .variantStruct)
    (hc : ∀ oldIndex newIndex, entry.2 = some oldIndex → newMap.lookup entry.1 =
      some (some newIndex) → Decides lax call oldIndex.2.type newIndex.2.type)
    (state : CompatibilityPair × Bool) :
    ∃ state', onKnown (alteringOptions lax) call metatype old new newMap state entry = .ok state' ∧
      (∀ level, level ≠ .incompatible → (level ≤ state'.1.1 ↔ level ≤ state.1.1 ∧
        TransitionFits lax metatype level entry.2 (newMap.lookup entry.1))) ∧
      (state'.2 = true ↔ state.2 = true ∨ Retains entry.2 (newMap.lookup entry.1)) := by
  obtain ⟨name, oldState⟩ := entry
  unfold onKnown
  cases hlookup : newMap.lookup name with
  | none =>
    cases oldState with
    | none =>
      refine ⟨_, rfl, fun level hlevel => ?_, by simp [Retains]⟩
      simp [TransitionFits, onDroppedRemovedField, le_incompatibleWith hlevel]
    | some oldIndex =>
      refine ⟨_, rfl, fun level hlevel => ?_, by simp [Retains]⟩
      unfold onDroppedField TransitionFits
      rcases hm with rfl | rfl
      · simp [le_incompatibleWith hlevel]
      · rw [if_pos rfl, le_onRemovedField]
        simp
  | some newState =>
    cases oldState with
    | none =>
      cases newState with
      | none => exact ⟨state, rfl, by simp [TransitionFits], by simp [Retains]⟩
      | some newIndex =>
        refine ⟨_, rfl, fun level hlevel => ?_, by simp [Retains]⟩
        simp [TransitionFits, onUndeadField, le_incompatibleWith hlevel]
    | some oldIndex =>
      cases newState with
      | none =>
        refine ⟨_, rfl, fun level _ => ?_, by simp [Retains]⟩
        rw [le_onRemovedField, TransitionFits]
      | some newIndex =>
        obtain ⟨pair, hp, hlevels⟩ := hc oldIndex newIndex rfl hlookup (old.field oldIndex.2)
          (new.field newIndex.2) rfl rfl
        refine ⟨(minCompatibility state.1 pair, true), ?_, fun level hlevel => ?_, by simp [Retains]⟩
        · dsimp only
          unfold onExisting onRenamedField alteringOptions
          rw [hp]
          simp
        · rw [le_minCompatibility, hlevels level hlevel, TransitionFits]

variable {oldFields newFields : List (StructField LogicalType)}
variable {oldRemoved newRemoved : List String}

/-- `CheckFieldsCompatibility` reaches the levels that every transition of a stable name allows. -/
theorem checkFieldsCompatibility_spec {hashO : HashOrder}
    (hmet : metatype = .struct ∨ metatype = .variantStruct)
    (hold : buildStableNameToIndexMapping metatype oldFields oldRemoved = .ok oldMap)
    (hnew : buildStableNameToIndexMapping metatype newFields newRemoved = .ok newMap)
    (hcall : ∀ oldField ∈ oldFields, ∀ newField ∈ newFields,
      Decides lax call oldField.type newField.type) :
    Reaches (checkFieldsCompatibility hashO (alteringOptions lax) call metatype old new oldFields
      newFields oldRemoved newRemoved) fun level =>
      (∀ entry ∈ newMap, UnknownFits lax metatype oldMap entry) ∧
      (∀ entry ∈ oldMap, TransitionFits lax metatype level entry.2 (newMap.lookup entry.1)) ∧
      (metatype = .variantStruct → ∃ entry ∈ oldMap, Retains entry.2 (newMap.lookup entry.1)) := by
  have hunknownStep : ∀ entry ∈ hashO.order newMap, ∀ result : CompatibilityPair, ∃ result',
      (pure (onUnknown (alteringOptions lax) metatype old new oldMap result entry) :
        Result CompatibilityPair) = .ok result' ∧ (∀ level, level ≠ .incompatible →
          (level ≤ result'.1 ↔ level ≤ result.1 ∧ UnknownFits lax metatype oldMap entry)) ∧
              (False ↔ False ∨ False) :=
    fun entry _ result => ⟨_, rfl, fun level hlevel => le_onUnknown hlevel, by simp⟩
  obtain ⟨unknown, hunknown, hunknownLevel, -⟩ :=
    loopUntil_spec (.fullyCompatible, none) hunknownStep
  have hcallE : ∀ entry ∈ hashO.order oldMap, ∀ oldIndex newIndex, entry.2 = some oldIndex →
      newMap.lookup entry.1 = some (some newIndex) →
      Decides lax call oldIndex.2.type newIndex.2.type := by
    intro entry he oldIndex newIndex hstate hlookup
    have hmem : (entry.1, some (oldIndex.1, oldIndex.2)) ∈ oldMap := by
      rw [← (hashO.perm oldMap).mem_iff]
      rwa [show (entry.1, some (oldIndex.1, oldIndex.2)) = entry from Prod.ext rfl hstate.symm]
    obtain ⟨_, _, hsplit, -⟩ := lookup_eq_some_iff.mp hlookup
    have hmem' : (entry.1, some (newIndex.1, newIndex.2)) ∈ newMap := by
      rw [hsplit]
      simp
    exact hcall _ (buildStableNameToIndexMapping_mem hold hmem)
      _ (buildStableNameToIndexMapping_mem hnew hmem')
  obtain ⟨known, hknown, hknownLevel, hflag⟩ := loopUntil_spec (unknown, false)
    fun entry he => onKnown_spec hmet (hcallE entry he)
  simp only [(hashO.perm _).mem_iff] at hunknownLevel hknownLevel hflag
  unfold checkFieldsCompatibility
  rw [hold, hnew, ok_bind, ok_bind, hunknown, ok_bind]
  by_cases hunknownLeft : unknown.1 = .incompatible
  · rw [if_pos hunknownLeft]
    refine ⟨unknown, rfl, fun level hlevel => ⟨fun h => ?_, fun h => ?_⟩⟩
    · rw [hunknownLeft] at h
      exact absurd h (not_le_incompatible hlevel)
    · exact (hunknownLevel level hlevel).mpr ⟨le_full level, h.1⟩
  rw [if_neg hunknownLeft, hknown, ok_bind]
  have hlevels : ∀ level, level ≠ .incompatible → (level ≤ known.1.1 ↔
      (∀ entry ∈ newMap, UnknownFits lax metatype oldMap entry) ∧
      ∀ entry ∈ oldMap, TransitionFits lax metatype level entry.2 (newMap.lookup entry.1)) := by
    intro level hlevel
    rw [hknownLevel level hlevel, hunknownLevel level hlevel]
    exact ⟨fun h => ⟨h.1.2, h.2⟩, fun h => ⟨⟨le_full level, h.1⟩, h.2⟩⟩
  split_ifs with hknownLeft hnone hallowed
  · refine ⟨known.1, rfl, fun level hlevel =>
      ⟨fun h => ?_, fun h => (hlevels level hlevel).mpr ⟨h.1, h.2.1⟩⟩⟩
    rw [hknownLeft] at h
    exact absurd h (not_le_incompatible hlevel)
  · refine ⟨_, rfl, fun level hlevel => ⟨fun h => absurd h (le_incompatibleWith hlevel), fun h => ?_⟩⟩
    have hr := (hflag hknownLeft).mpr (.inr (h.2.2 hnone.1))
    rw [hnone.2] at hr
    cases hr
  · refine ⟨known.1, rfl, fun level hlevel => ?_⟩
    rw [hlevels level hlevel]
    refine ⟨fun h => ⟨h.1, h.2, fun hv => ?_⟩, fun h => ⟨h.1, h.2.1⟩⟩
    have hr : known.2 = true := by
      by_contra hne
      exact hnone ⟨hv, by simpa using hne⟩
    rcases (hflag hknownLeft).mp hr with hfalse | he
    · cases hfalse
    · exact he
  · exact absurd ⟨rfl, rfl⟩ hallowed

variable {fields : List (StructField LogicalType)} {removed : List String}
variable {map : List (String × FieldState)}

variable {name : String}

section

variable (h : MapsStableNames fields removed map)

include h

theorem MapsStableNames.mem_removed : name ∈ removed ↔ map.lookup name = some none := by
  rw [Lib.lookup_eq_some_iff_mem h.nodup, h.mem_of_removed]

theorem MapsStableNames.forall_field {Q : StructField LogicalType → Prop} :
    (∀ field ∈ fields, name = field.stableName → Q field) ↔
      ∀ index, map.lookup name = some (some index) → Q index.2 := by
  constructor
  · intro ha index hl
    obtain ⟨hf, hn⟩ := h.field_of_mem ((Lib.lookup_eq_some_iff_mem h.nodup).mp hl)
    exact ha _ hf hn.symm
  · rintro ha field hf rfl
    obtain ⟨i, hi⟩ := h.mem_of_field hf
    exact ha (i, field) ((Lib.lookup_eq_some_iff_mem h.nodup).mpr hi)

theorem MapsStableNames.mem_names :
    name ∈ fields.map stableName ↔ ∃ index, map.lookup name = some (some index) := by
  have hn : (∀ field ∈ fields, name = field.stableName → False) ↔ _ := h.forall_field
  rw [← not_iff_not, mem_map]
  simpa [eq_comm] using hn

theorem MapsStableNames.mem_keys :
    name ∈ map.map Prod.fst ↔ name ∈ fields.map stableName ∨ name ∈ removed := by
  rw [← lookup_isSome_iff, h.mem_names, h.mem_removed]
  rcases map.lookup name with _ | _ | index <;> simp

/-- What holds of all entries, whatever their indexes, read off the fields. -/
theorem MapsStableNames.forall_mem {P : String × FieldState → Prop}
    (hP : ∀ {name i j field}, P (name, some (i, field)) → P (name, some (j, field))) :
    (∀ entry ∈ map, P entry) ↔ (∀ field ∈ fields, P (field.stableName, some (0, field))) ∧
        ∀ name ∈ removed, P (name, none) := by
  constructor
  · intro ha
    refine ⟨fun field hfield => ?_, fun name hn => ha _ (h.mem_of_removed.mp hn)⟩
    obtain ⟨i, hi⟩ := h.mem_of_field hfield
    exact hP (ha _ hi)
  · intro ⟨hfields, hr⟩ ⟨name, state⟩ he
    cases state with
    | none => exact hr name (h.mem_of_removed.mpr he)
    | some index =>
      obtain ⟨hfield, rfl⟩ := h.field_of_mem he
      exact hP (hfields _ hfield)

end

section

variable (hold : MapsStableNames oldFields oldRemoved oldMap)
  (hnew : MapsStableNames newFields newRemoved newMap)

include hold hnew

/-- What the names of the new type ask for, read off the fields. -/
theorem MapsStableNames.forall_unknownFits :
    (∀ entry ∈ newMap, UnknownFits lax metatype oldMap entry) ↔
      (∀ new ∈ newFields, new.stableName ∉ oldFields.map stableName → new.stableName ∉ oldRemoved →
        metatype = .variantStruct ∨ new.type.isNullable = true) ∧
      ∀ name ∈ newRemoved, name ∉ oldFields.map stableName → name ∉ oldRemoved → lax = true := by
  rw [hnew.forall_mem (by simp [UnknownFits])]
  refine and_congr (forall₂_congr fun field _ => ?_) (forall₂_congr fun name _ => ?_) <;>
    rw [UnknownFits, hold.mem_keys, or_iff_not_imp_left, not_or, and_imp] <;> simp

/-- What the names of the old type ask for, read off the fields. -/
theorem MapsStableNames.forall_transitionFits :
    (∀ entry ∈ oldMap, TransitionFits lax metatype level entry.2 (newMap.lookup entry.1)) ↔
      (∀ old ∈ oldFields, old.stableName ∈ newFields.map stableName ∨
        old.stableName ∈ newRemoved ∧ metatype = .struct ∨ old.stableName ∈ newRemoved ∧
          level ≤ .requireValidation ∨ metatype = .variantStruct ∧ level ≤ .requireValidation) ∧
      (∀ name ∈ oldRemoved, name ∈ newRemoved) ∧
      ∀ old ∈ oldFields, ∀ new ∈ newFields, old.stableName = new.stableName →
      Alters lax level old.type new.type := by
  have hi : ∀ {name i j field}, TransitionFits lax metatype level (some (i, field))
      (newMap.lookup name) →
      TransitionFits lax metatype level (some (j, field)) (newMap.lookup name) := by
    intro name i j field
    rcases newMap.lookup name with _ | _ | index <;> exact id
  refine (hold.forall_mem hi).trans (and_comm.trans ?_)
  rw [and_left_comm, ← forall₂_and]
  refine and_congr (forall₂_congr fun name _ => ?_) (forall₂_congr fun old _ => ?_)
  · rw [hnew.mem_removed]
    rcases newMap.lookup name with _ | _ | index <;> simp [TransitionFits]
  · rw [hnew.mem_removed, hnew.mem_names, hnew.forall_field]
    rcases newMap.lookup old.stableName with _ | _ | index <;> simp [TransitionFits]
    tauto

theorem MapsStableNames.exists_retains :
    (∃ entry ∈ oldMap, Retains entry.2 (newMap.lookup entry.1)) ↔
      ∃ old ∈ oldFields, old.stableName ∈ newFields.map stableName := by
  have hi : ∀ {name i j field}, ¬Retains (some (i, field)) (newMap.lookup name) →
      ¬Retains (some (j, field)) (newMap.lookup name) := by
    intro name i j field
    rcases newMap.lookup name with _ | _ | index <;> exact id
  rw [← not_iff_not]
  push Not
  rw [hold.forall_mem hi]
  refine (and_iff_left fun _ _ h => h).trans (forall₂_congr fun old _ => not_congr ?_)
  rw [hnew.mem_names]
  rcases newMap.lookup old.stableName with _ | _ | index <;> simp [Retains]

end

end

end Ytsaurus.ComplexTypes
