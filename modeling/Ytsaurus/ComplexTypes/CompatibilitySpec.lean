/-
# The compatibility check decides the alterations

On valid types the check returns, and the level it returns is the best one at which the old type
alters to the new one, whatever the order in which the hash maps are iterated.
-/
import Ytsaurus.ComplexTypes.Alteration

namespace Ytsaurus.ComplexTypes

open TableClient LogicalType

variable {lax : Bool} {level : SchemaCompatibility}

/-! ### Valid types -/

section

variable {isUtf : String → Bool} {parent : Option LogicalMetatype}

theorem exists_validIn_bare {type : LogicalType} : ∀ {parent : Option LogicalMetatype},
    ValidIn isUtf parent type → ∃ parent', ValidIn isUtf parent' (bare type) := by
  induction type using induct with
  | optional elem ih => exact fun h => ih h.optional
  | tagged tag elem ih => exact fun h => ih h.tagged
  | _ => exact fun h => ⟨_, h⟩

variable {fn : AggregateFunction} {argType elem : LogicalType}

section

variable (h : ValidIn isUtf parent (.aggregateState fn argType elem))

include h

theorem element_of_validIn : (∃ simple, bare elem = .simple simple) ∨ ∃ sum, bare elem =
        .struct [⟨"sum", "sum", .simple sum⟩, ⟨"count", "count", .simple .int64⟩] [] := by
  obtain ⟨arg, -, -, rfl⟩ := h.aggregateState
  obtain ⟨sum, hs⟩ := exists_getAggregateStateSumType arg
  cases fn with
  | sum => exact .inl ⟨sum, by rw [inferAggregateStateElementType, hs]; rfl⟩
  | avg => exact .inr ⟨sum, by rw [inferAggregateStateElementType, hs]; rfl⟩
  | min | max => exact .inl ⟨arg, rfl⟩

theorem bare_element_ne_state :
    (bare elem).metatype ≠ .aggregateState := by
  rcases element_of_validIn h with ⟨_, he⟩ | ⟨_, he⟩ <;> rw [he] <;> exact fun hne => by cases hne

theorem alters_element_iff {new : LogicalType} (hn : (bare new).metatype ≠ .aggregateState) :
    Alters lax level (.aggregateState fn argType elem) new ↔ Alters lax level elem new := by
  have hs : bareTowards (.aggregateState fn argType elem) new = bare elem ∧
      nestingTowards (.aggregateState fn argType elem) new = nesting elem := by
    unfold bareTowards nestingTowards
    simp only [bare, nesting, if_neg hn, Nat.zero_add, and_self]
  have helem : bareTowards elem new = bare elem ∧ nestingTowards elem new = nesting elem := by
    unfold bareTowards nestingTowards
    rcases element_of_validIn h with ⟨_, he⟩ | ⟨_, he⟩ <;> rw [he] <;> exact ⟨rfl, rfl⟩
  rw [alters_iff, alters_iff, hs.1, hs.2, helem.1, helem.2]

end

end

/-! ### The check -/

section

variable {isUtf : String → Bool} {order : HashOrder}

theorem bareTowards_spec {parent : Option LogicalMetatype} {old : LogicalType} (new : LogicalType)
    (h : ValidIn isUtf parent old) : (∃ parent', ValidIn isUtf parent' (bareTowards old new)) ∧
      isWrapper (bareTowards old new) = false ∧ ((bareTowards old new).metatype = .aggregateState →
        (bare new).metatype = .aggregateState) := by
  obtain ⟨parent', hb⟩ := exists_validIn_bare h
  have hw := isWrapper_bare old
  unfold bareTowards
  cases ho : bare old with
  | aggregateState fn argType elem =>
    rw [ho] at hb
    split_ifs with hs
    · exact ⟨⟨_, hb⟩, rfl, fun _ => hs⟩
    · exact ⟨exists_validIn_bare hb.aggregateStateElement, isWrapper_bare elem,
        fun hne => absurd hne (bare_element_ne_state hb)⟩
  | optional elem | tagged tag elem =>
    rw [ho] at hw
    cases hw
  | _ =>
    rw [ho] at hb
    exact ⟨⟨_, hb⟩, rfl, fun hne => by cases hne⟩

theorem Reaches.of_bare {result : Result CompatibilityPair} {old new : LogicalType}
    (h : Reaches result fun level => BareAlters lax level old new) (ho : isWrapper old = false)
    (hn : isWrapper new = false)
    (hs : old.metatype = .aggregateState → new.metatype = .aggregateState) :
    Reaches result fun level => Alters lax level old new :=
  h.congr fun _ => (alters_bare ho hn hs).symm

variable {old new : ComplexTypeFieldDescriptor}
variable {call : ComplexTypeFieldDescriptor × ComplexTypeFieldDescriptor → Result CompatibilityPair}

theorem checkUnwrapped_spec {parent : Option LogicalMetatype} (hold : ValidIn isUtf parent old.type)
    (hc : Decides lax call (bareTowards old.type new.type) (bare new.type)) :
    Reaches (checkUnwrapped call old new) fun level => Alters lax level old.type new.type := by
  obtain ⟨hb, hn⟩ := unwrapOld_spec old new
  obtain ⟨-, hw, hs⟩ := bareTowards_spec new.type hold
  obtain ⟨pair, hp, hlevels⟩ := hc _ (unwrapOptionalAndTagged new).1 hb (unwrap_type new)
  have hlevels : ∀ level, level ≠ .incompatible →
      (level ≤ pair.1 ↔ BareAlters lax level (bareTowards old.type new.type) (bare new.type)) := by
    intro level hlevel
    rw [hlevels level hlevel, alters_bare hw (isWrapper_bare new.type) hs]
  unfold checkUnwrapped
  dsimp only
  rw [hn, unwrap_nesting, hp]
  simp only [alters_iff]
  unfold NestingFits
  split_ifs with heq hone
  · refine ⟨pair, rfl, fun level hlevel => ?_⟩
    rw [hlevels level hlevel]
    exact ⟨fun h => ⟨by rcases heq with h | h <;> simp [h], h⟩, fun h => h.2⟩
  · refine ⟨_, rfl, fun level hlevel => ?_⟩
    rw [le_minCompatibility, hlevels level hlevel, createResultPair_fst]
    constructor
    · intro h
      exact ⟨.inr (.inr ⟨h.2, hone⟩), h.1⟩
    · intro ⟨hn, h⟩
      refine ⟨h, ?_⟩
      rcases hn with h | h | h
      · exact absurd (.inl h) heq
      · exact absurd (.inr h) heq
      · exact h.1
  · refine reaches_incompatible rfl fun level ⟨hn, h⟩ => ?_
    rcases hn with h | h | h
    · exact heq (.inl h)
    · exact heq (.inr h)
    · exact hone h.2

/-- Every field of the old type against every field of the new one. -/
theorem struct_spec {fs gs : List (StructField LogicalType)} {rs ss : List String}
    (hold : (fs.map StructField.stableName ++ rs).Nodup)
    (hnew : (gs.map StructField.stableName ++ ss).Nodup)
    (hc : ∀ oldField ∈ fs, ∀ newField ∈ gs, Decides lax call oldField.type newField.type) :
    Reaches (checkFieldsCompatibility order (alteringOptions lax) call .struct old new fs gs
      rs ss) fun level => BareAlters lax level (.struct fs rs) (.struct gs ss) := by
  obtain ⟨oldMap, holdMap, hold⟩ := buildStableNameToIndexMapping_spec hold (.inl rfl)
  obtain ⟨newMap, hnewMap, hnew⟩ := buildStableNameToIndexMapping_spec hnew (.inl rfl)
  refine (checkFieldsCompatibility_spec (.inl rfl) holdMap hnewMap hc).congr fun level => ?_
  rw [hold.forall_unknownFits hnew, hold.forall_transitionFits hnew]
  simp [bareAlters_iff, and_assoc, or_iff_left_of_imp And.left]

theorem variantStruct_spec {fs gs : List (StructField LogicalType)}
    (hold : (fs.map StructField.stableName).Nodup) (hnew : (gs.map StructField.stableName).Nodup)
    (hc : ∀ oldField ∈ fs, ∀ newField ∈ gs, Decides lax call oldField.type newField.type) :
    Reaches (checkFieldsCompatibility order (alteringOptions lax) call .variantStruct old new fs
      gs [] []) fun level => BareAlters lax level (.variantStruct fs) (.variantStruct gs) := by
  rw [← List.append_nil (fs.map StructField.stableName)] at hold
  rw [← List.append_nil (gs.map StructField.stableName)] at hnew
  obtain ⟨oldMap, holdMap, hold⟩ := buildStableNameToIndexMapping_spec hold (.inr rfl)
  obtain ⟨newMap, hnewMap, hnew⟩ := buildStableNameToIndexMapping_spec hnew (.inr rfl)
  refine (checkFieldsCompatibility_spec (.inr rfl) holdMap hnewMap hc).congr fun level => ?_
  rw [hold.forall_unknownFits hnew, hold.forall_transitionFits hnew, hold.exists_retains hnew]
  simpa [bareAlters_iff, and_assoc] using fun _ => and_comm

theorem incompatible_spec (ho : isWrapper old.type = false)
    (hn : isWrapper new.type = false) (hs : old.type.metatype ≠ .aggregateState)
    (hb : ∀ level, ¬ BareAlters lax level old.type new.type) :
    Reaches (.ok (createResultPair .incompatible old new)) fun level =>
      Alters lax level old.type new.type := by
  refine reaches_incompatible (createResultPair_fst ..) fun level h => hb level ?_
  exact (alters_bare ho hn fun h => absurd h hs).mp h

/-- The class in which a type has a rank. -/
def classOf : SimpleLogicalValueType → Option SimpleTypeClass
  | .int8 | .int16 | .int32 | .int64 => some .int
  | .uint8 | .uint16 | .uint32 | .uint64 => some .uint
  | .float | .double => some .floating
  | .utf8 | .string => some .string
  | _ => none

section

variable {typeClass : SimpleTypeClass} {old new type : SimpleLogicalValueType}

theorem rank_pos_iff : 0 < getSimpleTypeRank typeClass type ↔ classOf type = some typeClass := by
  cases typeClass <;> cases type <;> decide

theorem simpleTypeCompatibility_of_class (h : classOf old = some typeClass) (ha : new ≠ .any) :
    simpleTypeCompatibility old new = .ok (if getSimpleTypeRank typeClass new < 0 then .incompatible
      else if getSimpleTypeRank typeClass old ≤ getSimpleTypeRank typeClass new then .fullyCompatible
      else .requireValidation) := by
  have hr : ¬ getSimpleTypeRank typeClass old ≤ 0 := not_le.mpr (rank_pos_iff.mpr h)
  have heq : simpleTypeCompatibility old new = checkCompatibilityUsingClass typeClass old new := by
    unfold simpleTypeCompatibility
    rw [if_neg ha]
    cases old <;> cases h <;> rfl
  rw [heq, checkCompatibilityUsingClass, throwErrorExceptionIf, if_neg hr]
  split_ifs <;> rfl

theorem simpleTypeCompatibility_of_none (h : classOf old = none) (ha : new ≠ .any) :
    simpleTypeCompatibility old new = .ok (if old = new then .fullyCompatible else .incompatible) := by
  unfold simpleTypeCompatibility
  rw [if_neg ha]
  cases old <;> first | rfl | cases h

end

theorem exists_simpleTypeCompatibility (x y : SimpleLogicalValueType) :
    ∃ compatibility, simpleTypeCompatibility x y = .ok compatibility := by
  by_cases ha : y = .any
  · exact ⟨_, if_pos ha⟩
  · cases hx : classOf x with
    | none => exact ⟨_, simpleTypeCompatibility_of_none hx ha⟩
    | some typeClass => exact ⟨_, simpleTypeCompatibility_of_class hx ha⟩

theorem simple_spec (old new : ComplexTypeFieldDescriptor) (x y : SimpleLogicalValueType) :
    Reaches (checkTypeCompatibilitySimple old new x y) fun level =>
      BareAlters lax level (.simple x) (.simple y) := by
  obtain ⟨compat, hc⟩ := exists_simpleTypeCompatibility x y
  refine ⟨createResultPair compat old new, by rw [checkTypeCompatibilitySimple, hc]; rfl,
    fun level _ => ?_⟩
  simp [bareAlters_iff, SimpleFits, hc]

theorem decimal_spec (old new : ComplexTypeFieldDescriptor)
    {oldPrecision oldScale newPrecision newScale : ℤ}
    (ho : old.type = .decimal oldPrecision oldScale)
    (hn : new.type = .decimal newPrecision newScale) :
    Reaches (.ok (checkDecimalTypeCompatibility old new)) fun level =>
      BareAlters lax level (.decimal oldPrecision oldScale) (.decimal newPrecision newScale) := by
  unfold checkDecimalTypeCompatibility
  rw [ho, hn, eq]
  split_ifs with heq
  · simp only [Bool.and_eq_true, beq_iff_eq] at heq
    rw [heq.1, heq.2]
    exact ⟨_, rfl, fun level _ => ⟨fun _ => .decimal, fun _ => SchemaCompatibility.le_full level⟩⟩
  · refine reaches_incompatible (createResultPair_fst ..) fun level h => ?_
    cases h
    simp at heq

theorem elements_spec {pos : ComplexTypeFieldDescriptor → ℕ →
      LogicalType → ComplexTypeFieldDescriptor} (hp : ∀ desc i type, (pos desc i type).type = type)
    {xs ys : List LogicalType} {allowNewElements : Bool}
    (hc : ∀ pair ∈ xs.zip ys, Decides lax call pair.1 pair.2) :
    Reaches (checkElementsCompatibility call pos old new xs ys allowNewElements) fun level =>
      xs.length ≤ ys.length ∧ (allowNewElements = false → xs.length = ys.length) ∧
        ∀ pair ∈ xs.zip ys, Alters lax level pair.1 pair.2 := by
  unfold checkElementsCompatibility
  split_ifs with hl hadded
  · exact reaches_incompatible rfl fun level h => absurd h.1 (by omega)
  · exact reaches_incompatible rfl fun level h => hadded.2 (h.2.1 hadded.1)
  · refine (checkElements_spec hp hc).congr fun level => ?_
    refine ⟨fun h => ⟨by omega, fun hallow => ?_, h⟩, fun h => h.2.2⟩
    by_contra hne
    exact hadded ⟨hallow, hne⟩

theorem dict_spec {oldKey oldValue newKey newValue : LogicalType}
    (hkey : Decides lax call oldKey newKey) (hvalue : Decides lax call oldValue newValue) :
    Reaches (checkDictTypeCompatibility call old new oldKey oldValue newKey newValue) fun level =>
      BareAlters lax level (.dict oldKey oldValue) (.dict newKey newValue) := by
  obtain ⟨key, hkey, hkeyL⟩ := hkey (old.dictKey oldKey) (new.dictKey newKey) rfl rfl
  obtain ⟨value, hvalue, hvalueLevel⟩ :=
    hvalue (old.dictValue oldValue) (new.dictValue newValue) rfl rfl
  have hb : ∀ level, level ≠ .incompatible → (level ≤ key.1 ∧ level ≤ value.1 ↔
      BareAlters lax level (.dict oldKey oldValue) (.dict newKey newValue)) := by
    intro level hl
    rw [hkeyL level hl, hvalueLevel level hl]
    simp [bareAlters_iff]
  unfold checkDictTypeCompatibility
  rw [hkey, hvalue, ok_bind, ok_bind]
  split_ifs with hi
  · refine ⟨key, rfl, fun level hl => ⟨fun h => ?_, fun h => ((hb level hl).mpr h).1⟩⟩
    rw [hi] at h
    exact absurd h (SchemaCompatibility.not_le_incompatible hl)
  · refine ⟨_, rfl, fun level hl => ?_⟩
    rw [le_minCompatibility, hb level hl]

theorem aggregateState_spec {oldFunction newFunction : AggregateFunction}
    {oldArgument newArgument x y : LogicalType} (hc : Decides lax call x y) :
    Reaches (checkAggregateStates call old new oldFunction newFunction x y) fun level =>
      BareAlters lax level (.aggregateState oldFunction oldArgument x)
        (.aggregateState newFunction newArgument y) := by
  obtain ⟨elem, he, hlevels⟩ :=
    hc (old.aggregateStateElement x) (new.aggregateStateElement y) rfl rfl
  have hfull := hlevels .fullyCompatible (by decide)
  rw [SchemaCompatibility.full_le] at hfull
  unfold checkAggregateStates
  rw [he, ok_bind]
  split_ifs with hfun hloses
  · refine reaches_incompatible (createResultPair_fst ..) fun level h => ?_
    cases h
    exact hfun rfl
  · refine reaches_incompatible (createResultPair_fst ..) fun level h => ?_
    cases h with
    | aggregateState h => exact absurd (hfull.mpr h) hloses
  · rw [ne_eq, not_not] at hfun hloses
    subst hfun
    refine ⟨elem, rfl, fun level _ => ?_⟩
    rw [hloses]
    exact ⟨fun _ => .aggregateState (hfull.mp hloses), fun _ => SchemaCompatibility.le_full level⟩

/-- On valid types the check returns, and it reaches exactly the levels at which the types alter. -/
theorem checkTypeCompatibilityImpl_spec
    (descriptors : ComplexTypeFieldDescriptor × ComplexTypeFieldDescriptor) :
    ∀ {oldParent newParent : Option LogicalMetatype}, ValidIn isUtf oldParent descriptors.1.type →
      ValidIn isUtf newParent descriptors.2.type →
      Reaches (checkTypeCompatibilityImpl order (alteringOptions lax) descriptors) fun level =>
        Alters lax level descriptors.1.type descriptors.2.type := by
  refine Lib.unroll_induct (P := fun descriptors result =>
    ∀ {oldParent newParent : Option LogicalMetatype},
    ValidIn isUtf oldParent descriptors.1.type → ValidIn isUtf newParent descriptors.2.type →
    Reaches result fun level => Alters lax level descriptors.1.type descriptors.2.type)
    (fun call ⟨old, new⟩ hcall oldParent newParent hold hnew => ?_)
      (Nat.lt_succ_self (pairWeight descriptors))
  have ih : ∀ {oldType newType : LogicalType} {oldParent newParent : Option LogicalMetatype},
      oldType.weight + newType.weight < old.type.weight + new.type.weight →
        ValidIn isUtf oldParent oldType →
      ValidIn isUtf newParent newType → Decides lax call oldType newType := by
    rintro _ _ _ _ hn hold hnew old new rfl rfl
    exact hcall (old, new) hn hold hnew
  have hfields : ∀ {fs gs : List (StructField LogicalType)} {oldParent newParent},
      fieldsWeight fs + fieldsWeight gs < old.type.weight + new.type.weight →
      (∀ field ∈ fs, ValidIn isUtf oldParent field.type) →
      (∀ field ∈ gs, ValidIn isUtf newParent field.type) →
      ∀ oldField ∈ fs, ∀ newField ∈ gs, Decides lax call oldField.type newField.type := by
    intro fs gs _ _ hn hold hnew oldField holdF newField hnewF
    have := weight_le_fieldsWeight holdF
    have := weight_le_fieldsWeight hnewF
    exact ih (by omega) (hold oldField holdF) (hnew newField hnewF)
  have he : ∀ {xs ys : List LogicalType} {oldParent newParent},
      elementsWeight xs + elementsWeight ys < old.type.weight + new.type.weight →
      (∀ elem ∈ xs, ValidIn isUtf oldParent elem) →
      (∀ elem ∈ ys, ValidIn isUtf newParent elem) →
      ∀ pair ∈ xs.zip ys, Decides lax call pair.1 pair.2 := by
    intro xs ys _ _ hn hold hnew pair hp
    obtain ⟨holdE, hnewE⟩ := List.of_mem_zip hp
    have := weight_le_elementsWeight holdE
    have := weight_le_elementsWeight hnewE
    exact ih (by omega) (hold _ holdE) (hnew _ hnewE)
  unfold checkTypeCompatibilityStep
  dsimp only
  by_cases hwrap : (isWrapper old.type || isWrapper new.type) = true
  · rw [if_pos hwrap]
    obtain ⟨⟨_, hb⟩, -⟩ := bareTowards_spec new.type hold
    obtain ⟨_, hb'⟩ := exists_validIn_bare hnew
    have hweight := pairWeight_unwrapped hwrap
    unfold pairWeight at hweight
    dsimp only at hweight
    rw [(unwrapOld_spec old new).1, unwrap_type] at hweight
    exact checkUnwrapped_spec hold (ih (by omega) hb hb')
  rw [if_neg hwrap]
  simp only [Bool.or_eq_true, not_or, Bool.not_eq_true] at hwrap
  obtain ⟨oldDescription, oldType⟩ := old
  obtain ⟨newDescription, newType⟩ := new
  dsimp only at ih hfields he hold hnew hwrap ⊢
  obtain ⟨hold', hnew'⟩ := hwrap
  -- in the order of the match
  split
  · exact (simple_spec ..).of_bare hold' hnew' id
  · refine Reaches.of_bare (Reaches.congr (ih (by simp only [weight]; omega) hold.list hnew.list
      _ _ rfl rfl) fun level => ?_) hold' hnew' id
    simp [bareAlters_iff]
  · refine (variantStruct_spec hold.variantStruct.1 hnew.variantStruct.1 ?_).of_bare hold' hnew' id
    exact hfields (by simp only [weight]; omega) hold.variantStruct.2 hnew.variantStruct.2
  · refine (struct_spec hold.struct.1 hnew.struct.1 ?_).of_bare hold' hnew' id
    exact hfields (by simp only [weight]; omega) hold.struct.2 hnew.struct.2
  · refine ((elements_spec ComplexTypeFieldDescriptor.type_tupleElement
      (he (by simp only [weight]; omega) hold.tuple hnew.tuple)).congr fun level =>
        ?_).of_bare hold' hnew' id
    simpa [bareAlters_iff] using fun h _ => h.le
  · refine ((elements_spec ComplexTypeFieldDescriptor.type_variantTupleElement
      (he (by simp only [weight]; omega) hold.variantTuple hnew.variantTuple)).congr fun level =>
        ?_).of_bare hold' hnew' id
    simp [bareAlters_iff]
  · exact (dict_spec (ih (by simp only [weight]; omega) hold.dict.1 hnew.dict.1)
      (ih (by simp only [weight]; omega) hold.dict.2 hnew.dict.2)).of_bare hold' hnew' id
  · exact (decimal_spec _ _ rfl rfl).of_bare hold' hnew' id
  · exact (aggregateState_spec (ih (by simp only [weight]; omega) hold.aggregateStateElement
      hnew.aggregateStateElement)).of_bare hold' hnew' id
  · next hne =>
    refine Reaches.congr (ih (by simp only [weight]; omega) hold.aggregateStateElement hnew _ _ rfl
      rfl) fun level => ?_
    refine (alters_element_iff hold fun h => ?_).symm
    cases newType <;> first | exact hne _ _ _ rfl | cases h | cases hnew'
  · clear ih hfields he
    refine incompatible_spec hold' hnew' (fun h => ?_) fun level h => by cases h <;> solve_by_elim
    cases oldType <;> first | solve_by_elim | cases h

theorem typeCompatibility_spec {old new : LogicalType} (ho : Valid isUtf old)
    (hn : Valid isUtf new) :
    ∃ compat, typeCompatibility order (alteringOptions lax) old new = .ok compat ∧
      ∀ level, level ≠ .incompatible → (level ≤ compat ↔ Alters lax level old new) := by
  obtain ⟨pair, hp, hl⟩ := checkTypeCompatibilityImpl_spec (⟨"", old⟩, ⟨"", new⟩) ho hn
  refine ⟨pair.1, ?_, hl⟩
  unfold typeCompatibility checkTypeCompatibility
  rw [hp]
  rfl

theorem typeCompatibility_full_iff {old new : LogicalType} (hold : Valid isUtf old)
    (hn : Valid isUtf new) :
    typeCompatibility order (alteringOptions lax) old new = .ok .fullyCompatible ↔
      Alters lax .fullyCompatible old new := by
  obtain ⟨compat, hok, hl⟩ := typeCompatibility_spec hold hn
  rw [hok, Except.ok.injEq, ← SchemaCompatibility.full_le]
  exact hl .fullyCompatible (by decide)

end

end Ytsaurus.ComplexTypes
