/-
# Is full compatibility a preorder?

Whether a column may be altered should not depend on the alters before: a type should be fully
compatible with itself, and what is reached by two full alters should be reached by one. Both hold
up to one exception each. A variant struct without alternatives is valid, but none of its fields is
retained, so it is incompatible with itself. And a bare `min` or `max` state counts as one optional
when it is unwrapped, but not when it is put below an optional as a state: `min(int32)` alters to
`optional<min(int32)>`, which alters to `optional<optional<int32>>`, and `min(int32)` does not.
-/
import Ytsaurus.ComplexTypes.CompatibilitySpec

namespace Ytsaurus.ComplexTypes

open List TableClient LogicalType

/-! ### Simple types -/

variable {typeClass : SimpleTypeClass} {old new type : SimpleLogicalValueType}

theorem castsToAny_of_class (h : classOf type = some typeClass) : castsToAny type = true := by
  cases type <;> first | rfl | cases h

theorem simpleFits_full_iff :
    SimpleFits .fullyCompatible old new ↔ new = .any ∧ castsToAny old = true ∨
      (∃ typeClass, classOf old = some typeClass ∧
        getSimpleTypeRank typeClass old ≤ getSimpleTypeRank typeClass new) ∨ old = new := by
  have hf : SimpleFits .fullyCompatible old new ↔ simpleTypeCompatibility old new =
      .ok .fullyCompatible := by
    constructor
    · intro ⟨compat, hok, hle⟩
      rw [hok, SchemaCompatibility.full_le.mp hle]
    · intro hok
      exact ⟨_, hok, SchemaCompatibility.le_full _⟩
  rw [hf]
  by_cases ha : new = .any
  · subst ha
    unfold simpleTypeCompatibility
    rw [if_pos rfl]
    constructor
    · intro h
      split_ifs at h with hc
      · exact .inl ⟨rfl, hc⟩
      · cases h
    · intro h
      rcases h with h | ⟨typeClass, hold, -⟩ | rfl
      · rw [if_pos h.2]
        rfl
      · rw [if_pos (castsToAny_of_class hold)]
        rfl
      · rfl
  · cases hold : classOf old with
    | none =>
      rw [simpleTypeCompatibility_of_none hold ha]
      simp [ha]
    | some typeClass =>
      have hp := rank_pos_iff.mpr hold
      rw [simpleTypeCompatibility_of_class hold ha]
      split_ifs with hn hle
      · simpa [ha, hn.trans hp] using fun h : old = new => (hn.trans hp).ne (h ▸ rfl)
      · simp [ha, hle]
      · simpa [ha, hle] using fun h : old = new => hle (h ▸ le_rfl)

theorem simpleFits_refl (type : SimpleLogicalValueType) : SimpleFits .fullyCompatible type type :=
  simpleFits_full_iff.mpr (.inr (.inr rfl))

theorem simpleFits_trans {a b c : SimpleLogicalValueType} (hab : SimpleFits .fullyCompatible a b)
    (hbc : SimpleFits .fullyCompatible b c) : SimpleFits .fullyCompatible a c := by
  rw [simpleFits_full_iff] at *
  rcases hab with ⟨rfl, hcasts⟩ | ⟨typeClass, ha, hle⟩ | rfl
  · rcases hbc with hbc | ⟨typeClass, hb, -⟩ | rfl
    · exact .inl ⟨hbc.1, hcasts⟩
    · cases hb
    · exact .inl ⟨rfl, hcasts⟩
  · rcases hbc with hbc | ⟨typeClass', hb, hle'⟩ | rfl
    · exact .inl ⟨hbc.1, castsToAny_of_class ha⟩
    · have hp := rank_pos_iff.mpr ha
      have hclass := rank_pos_iff.mp (hp.trans_le hle)
      rw [hb] at hclass
      cases hclass
      exact .inr (.inl ⟨_, ha, hle.trans hle'⟩)
    · exact .inr (.inl ⟨typeClass, ha, hle⟩)
  · exact hbc

/-! ### Alterations by the states among the bare types -/

/-- Below its optionals and tags the type is an aggregate state. -/
def IsState (type : LogicalType) : Prop := (bare type).metatype = .aggregateState

variable {type : LogicalType}

theorem isState_iff :
    IsState type ↔ ∃ fn argType elem, bare type = .aggregateState fn argType elem := by
  unfold IsState
  cases bare type <;> simp [metatype]

section

variable {lax : Bool} {level : SchemaCompatibility} {a b : LogicalType}

theorem alters_of_not_state (ha : ¬ IsState a) : Alters lax level a b ↔
      NestingFits level (nesting a) (nesting b) ∧ BareAlters lax level (bare a) (bare b) := by
  have ht : bareTowards a b = bare a ∧ nestingTowards a b = nesting a := by
    unfold bareTowards nestingTowards
    cases hb : bare a with
    | aggregateState fn argType elem => exact absurd (isState_iff.mpr ⟨_, _, _, hb⟩) ha
    | _ => exact ⟨rfl, rfl⟩
  rw [alters_iff, ht.1, ht.2]

theorem Alters.isState (h : Alters lax level a b) (hb : IsState b) : IsState a := by
  by_contra ha
  obtain ⟨_, _, _, hbare⟩ := isState_iff.mp hb
  rw [alters_of_not_state ha, hbare] at h
  generalize hold : bare a = old at h
  cases h.2
  exact ha (isState_iff.mpr ⟨_, _, _, hold⟩)

theorem alters_states {fn fn' : AggregateFunction} {argType argType' elem element' : LogicalType}
    (ha : bare a = .aggregateState fn argType elem)
    (hb : bare b = .aggregateState fn' argType' element') :
    Alters lax level a b ↔ NestingFits level (nesting a) (nesting b) ∧
      Alters lax .fullyCompatible elem element' ∧ fn' = fn := by
  have ht : bareTowards a b = .aggregateState fn argType elem ∧
      nestingTowards a b = nesting a := by
    unfold bareTowards nestingTowards
    rw [ha, hb]
    exact ⟨rfl, rfl⟩
  rw [alters_iff, ht.1, ht.2, hb]
  simp [bareAlters_iff]

theorem alters_state_other {fn : AggregateFunction} {argType elem : LogicalType}
    (ha : bare a = .aggregateState fn argType elem) (hb : ¬ IsState b) :
    Alters lax level a b ↔ NestingFits level (nesting a + nesting elem) (nesting b) ∧
      BareAlters lax level (bare elem) (bare b) := by
  have ht : bareTowards a b = bare elem ∧ nestingTowards a b = nesting a + nesting elem := by
    unfold bareTowards nestingTowards
    rw [ha]
    exact ⟨if_neg hb, if_neg hb⟩
  rw [alters_iff, ht.1, ht.2]

end

/-! ### Reflexivity -/

/-- `part` is a node of a type. -/
@[mk_iff] inductive Occurs (part : LogicalType) : LogicalType → Prop
  | here : Occurs part part
  | optional {element : LogicalType} : Occurs part element → Occurs part (.optional element)
  | list {element : LogicalType} : Occurs part element → Occurs part (.list element)
  | struct {fields : List (StructField LogicalType)} {removed : List String}
    {field : StructField LogicalType} :
      field ∈ fields → Occurs part field.type → Occurs part (.struct fields removed)
  | tuple {elements : List LogicalType} {element : LogicalType} :
      element ∈ elements → Occurs part element → Occurs part (.tuple elements)
  | variantStruct {fields : List (StructField LogicalType)} {field : StructField LogicalType} :
      field ∈ fields → Occurs part field.type → Occurs part (.variantStruct fields)
  | variantTuple {elements : List LogicalType} {element : LogicalType} :
      element ∈ elements → Occurs part element → Occurs part (.variantTuple elements)
  | dictKey {key value : LogicalType} : Occurs part key → Occurs part (.dict key value)
  | dictValue {key value : LogicalType} : Occurs part value → Occurs part (.dict key value)
  | tagged {tag : String} {element : LogicalType} : Occurs part element →
    Occurs part (.tagged tag element)
  | aggregateState {function : AggregateFunction} {argumentType element : LogicalType} :
      Occurs part element → Occurs part (.aggregateState function argumentType element)

section

variable {lax : Bool} {isUtf : String → Bool}

theorem nestingFits_refl (level : SchemaCompatibility) (n : ℕ) : NestingFits level n n := .inl rfl

theorem alters_self_iff (type : LogicalType) {level : SchemaCompatibility} :
    Alters lax level type type ↔ BareAlters lax level (bare type) (bare type) := by
  by_cases hstate : IsState type
  · obtain ⟨fn, argType, elem, hb⟩ := isState_iff.mp hstate
    rw [alters_states hb hb, hb]
    simp [bareAlters_iff, nestingFits_refl]
  · rw [alters_of_not_state hstate]
    exact ⟨fun h => h.2, fun h => ⟨nestingFits_refl level _, h⟩⟩

theorem forall_mem_zip_self {α : Type} {P : α → α → Prop} {l : List α} :
    (∀ a b, (a, b) ∈ l.zip l → P a b) ↔ ∀ a ∈ l, P a a := by
  rw [zip, zipWith_self]
  aesop

/-- A type is fully compatible with itself unless a variant struct without alternatives occurs in
it. -/
theorem alters_refl_iff : ∀ {parent : Option LogicalMetatype}, ValidIn isUtf parent type →
    (Alters lax .fullyCompatible type type ↔ ¬ Occurs (.variantStruct []) type) := by
  induction type using induct with
  | simple elem =>
    intro _ _
    rw [alters_self_iff, occurs_iff]
    simp [bareAlters_iff, bare, simpleFits_refl]
  | decimal precision scale =>
    intro _ _
    rw [alters_self_iff, occurs_iff]
    simp [bareAlters_iff, bare]
  | optional elem ih =>
    intro _ hvalid
    rw [alters_self_iff, bare, ← alters_self_iff, ih hvalid.optional, occurs_iff _ (.optional elem)]
    simp
  | tagged tag elem ih =>
    intro _ hvalid
    rw [alters_self_iff, bare, ← alters_self_iff, ih hvalid.tagged, occurs_iff _ (.tagged tag elem)]
    simp
  | list elem ih =>
    intro _ hvalid
    rw [alters_self_iff, bare_eq_self rfl, occurs_iff _ (.list elem)]
    simp [bareAlters_iff, ih hvalid.list]
  | struct fields removed ih =>
    intro _ hvalid
    obtain ⟨hnames, hfields⟩ := hvalid.struct
    rw [alters_self_iff, bare_eq_self rfl]
    constructor
    · intro h ho
      cases h with
      | struct _ _ _ _ h =>
      cases ho with
      | struct hm ho => exact (ih _ hm (hfields _ hm)).mp (h _ hm _ hm rfl) ho
    · intro h
      refine .struct (fun field hm hnot _ => absurd (mem_map_of_mem hm) hnot)
        (fun name hm _ hnot => absurd hm hnot) (fun field hm => .inl (mem_map_of_mem hm))
        (fun name hm => hm) fun f hf g hg hname => ?_
      rw [← inj_on_of_nodup_map (Nodup.of_append_left hnames) hf hg hname]
      exact (ih f hf (hfields f hf)).mpr fun ho => h (.struct hf ho)
  | variantStruct fields ih =>
    intro _ hvalid
    obtain ⟨hnames, hfields⟩ := hvalid.variantStruct
    rw [alters_self_iff, bare_eq_self rfl]
    constructor
    · intro h ho
      cases h with
      | variantStruct _ hsome h =>
      cases ho with
      | here =>
        obtain ⟨_, hm, _⟩ := hsome
        cases hm
      | variantStruct hm ho => exact (ih _ hm (hfields _ hm)).mp (h _ hm _ hm rfl) ho
    · intro h
      refine .variantStruct (fun field hm => .inl (mem_map_of_mem hm)) ?_ fun f hf g hg hname => ?_
      · cases fields with
        | nil => exact absurd .here h
        | cons field rest => exact ⟨field, mem_cons_self .., mem_map_of_mem mem_cons_self⟩
      · rw [← inj_on_of_nodup_map hnames hf hg hname]
        exact (ih f hf (hfields f hf)).mpr fun ho => h (.variantStruct hf ho)
  | tuple elems ih =>
    intro _ hvalid
    have hall := forall₂_congr fun elem he => ih elem he (hvalid.tuple elem he)
    rw [alters_self_iff, bare_eq_self rfl, occurs_iff _ (.tuple elems)]
    simp [bareAlters_iff, forall_mem_zip_self, hall]
  | variantTuple elems ih =>
    intro _ hvalid
    have hall := forall₂_congr fun elem he => ih elem he (hvalid.variantTuple elem he)
    rw [alters_self_iff, bare_eq_self rfl, occurs_iff _ (.variantTuple elems)]
    simp [bareAlters_iff, forall_mem_zip_self, hall]
  | dict key value ihKey ihValue =>
    intro _ hvalid
    rw [alters_self_iff, bare_eq_self rfl, occurs_iff _ (.dict key value)]
    simp [bareAlters_iff, ihKey hvalid.dict.1, ihValue hvalid.dict.2]
  | aggregateState fn argType elem _ ih =>
    intro _ hvalid
    rw [alters_self_iff, bare_eq_self rfl, occurs_iff _ (.aggregateState fn argType elem)]
    simp [bareAlters_iff, ih hvalid.aggregateStateElement]

end

/-! ### Nullability along an alteration -/

theorem full_not_le : ¬ (SchemaCompatibility.fullyCompatible ≤ .requireValidation) := by decide

theorem nestingFits_full {m n : ℕ} : NestingFits .fullyCompatible m n ↔ m = n ∨ m = 0 ∧ n = 1 :=
  or_congr_right (or_iff_left fun h => full_not_le h.1)

theorem isNullable_iff (type : LogicalType) :
    type.isNullable = true ↔ 0 < nesting type ∨ (bare type).isNullable = true := by
  induction type using induct with
  | optional elem ih => simp [isNullable, nesting]
  | tagged tag elem ih => rw [isNullable, nesting, bare, ih]
  | _ => simp [nesting, bare]

section

variable {lax : Bool} {isUtf : String → Bool}

theorem bare_ne_any : ∀ {parent : Option LogicalMetatype}, parent ≠ some .optional →
    ValidIn isUtf parent type → nesting type = 0 → bare type ≠ .simple .any := by
  induction type using induct with
  | simple elem =>
    intro _ hp hv _ ha
    rw [bare_eq_self rfl, simple.injEq] at ha
    exact hp (hv.simple ha)
  | optional elem ih =>
    intro _ _ _ hn
    rw [nesting] at hn
    omega
  | tagged tag elem ih =>
    intro _ _ hv hn
    exact ih (by decide) hv.tagged hn
  | _ =>
    intro _ _ _ _ ha
    cases ha

theorem simple_nullable_of_fits {old new : SimpleLogicalValueType}
    (h : SimpleFits .fullyCompatible old new)
    (hold : (simple old).isNullable = true) (ha : new ≠ .any) : (simple new).isNullable = true := by
  rcases simpleFits_full_iff.mp h with h | ⟨typeClass, hc, -⟩ | rfl
  · exact absurd h.1 ha
  · cases old <;> first | exact absurd hold (by decide) | cases hc
  · exact hold

variable {x y : LogicalType}

theorem bare_nullable_of_alters (hx : x.metatype ≠ .aggregateState)
    (h : BareAlters lax .fullyCompatible x y)
    (hn : x.isNullable = true) (ha : y ≠ .simple .any) : y.isNullable = true := by
  cases h with
  | simple h => exact simple_nullable_of_fits h hn fun h => ha (by rw [h])
  | aggregateState h => exact absurd rfl hx
  | _ => cases hn

variable {parent parent' : Option LogicalMetatype}

/-- A nullable type alters to something that is no state as to a nullable type. -/
theorem nullable_of_alters_other (hx : ValidIn isUtf parent x)
    (hy : ValidIn isUtf parent' y) (hp : parent' ≠ some .optional) (hstate : ¬ IsState y)
    (hnull : x.isNullable = true) (h : Alters lax .fullyCompatible x y) : y.isNullable = true := by
  rw [isNullable_iff]
  by_cases hnes : 0 < nesting y
  · exact .inl hnes
  have hz : nesting y = 0 := by omega
  have ha := bare_ne_any hp hy hz
  have hf : ∀ n, NestingFits .fullyCompatible n (nesting y) → n = 0 := by
    intro n hn
    have := nestingFits_full.mp hn
    omega
  refine .inr ?_
  rw [isNullable_iff] at hnull
  by_cases hx' : IsState x
  · obtain ⟨fn, argType, elem, hb⟩ := isState_iff.mp hx'
    obtain ⟨_, hv⟩ := exists_validIn_bare hx
    rw [hb] at hv
    rw [alters_state_other hb hstate] at h
    have hn := hf _ h.1
    rw [hb, isNullable, isNullable_iff] at hnull
    refine bare_nullable_of_alters (bare_element_ne_state hv) h.2 ?_ ha
    rcases hnull with hnull | hnull | hnull
    · omega
    · omega
    · exact hnull
  · rw [alters_of_not_state hx'] at h
    have hn := hf _ h.1
    refine bare_nullable_of_alters hx' h.2 ?_ ha
    rcases hnull with hnull | hnull
    · omega
    · exact hnull

theorem nullable_of_alters
    (hx : ValidIn isUtf parent x) (hy : ValidIn isUtf parent' y) (hp : parent' ≠ some .optional)
    (hnull : x.isNullable = true) (h : Alters lax .fullyCompatible x y) : y.isNullable = true := by
  by_cases hstate : IsState y
  · obtain ⟨_, _, element', hb'⟩ := isState_iff.mp hstate
    obtain ⟨_, _, elem, hb⟩ := isState_iff.mp (h.isState hstate)
    obtain ⟨_, hv⟩ := exists_validIn_bare hx
    obtain ⟨_, hv'⟩ := exists_validIn_bare hy
    rw [hb] at hv
    rw [hb'] at hv'
    rw [alters_states hb hb'] at h
    rw [isNullable_iff, hb, isNullable] at hnull
    rw [isNullable_iff, hb', isNullable]
    rcases hnull with hnull | hnull
    · have hn := nestingFits_full.mp h.1
      exact .inl (by omega)
    · exact .inr (nullable_of_alters_other hv.aggregateStateElement hv'.aggregateStateElement
        (by decide) (bare_element_ne_state hv') hnull h.2.1)
  · exact nullable_of_alters_other hx hy hp hstate hnull h

end

/-! ### Transitivity -/

/-- At some position `a` has a bare `min` or `max` state, `b` the state below one optional, and `c`
no state. -/
inductive StateLifted : LogicalType → LogicalType → LogicalType → Prop
  | here {a b c : LogicalType} {function : AggregateFunction}
    {argumentType argumentType' element element' : LogicalType} :
      bare a = .aggregateState function argumentType element →
      bare b = .aggregateState function argumentType' element' → ¬ IsState c →
      function = .min ∨ function = .max → nesting a = 0 → nesting b = 1 → StateLifted a b c
  | list {a b c x y z : LogicalType} :
      bare a = .list x → bare b = .list y → bare c = .list z → StateLifted x y z → StateLifted a b c
  | struct {a b c : LogicalType} {fields fields' fields'' : List (StructField LogicalType)}
      {removed removed' removed'' : List String} {f g h : StructField LogicalType} :
      bare a = .struct fields removed → bare b = .struct fields' removed' →
        bare c = .struct fields'' removed'' →
      f ∈ fields → g ∈ fields' → h ∈ fields'' → f.stableName = g.stableName →
        g.stableName = h.stableName →
      StateLifted f.type g.type h.type → StateLifted a b c
  | variantStruct {a b c : LogicalType} {fields fields' fields'' : List (StructField LogicalType)}
      {f g h : StructField LogicalType} :
      bare a = .variantStruct fields → bare b = .variantStruct fields' →
        bare c = .variantStruct fields'' →
      f ∈ fields → g ∈ fields' → h ∈ fields'' → f.stableName = g.stableName →
        g.stableName = h.stableName →
      StateLifted f.type g.type h.type → StateLifted a b c
  | tuple {a b c : LogicalType} {elements elements' elements'' : List LogicalType} {i : ℕ}
    {x y z : LogicalType} :
      bare a = .tuple elements → bare b = .tuple elements' → bare c = .tuple elements'' →
      elements[i]? = some x → elements'[i]? = some y → elements''[i]? = some z →
      StateLifted x y z → StateLifted a b c
  | variantTuple {a b c : LogicalType} {elements elements' elements'' : List LogicalType} {i : ℕ}
      {x y z : LogicalType} :
      bare a = .variantTuple elements → bare b = .variantTuple elements' →
        bare c = .variantTuple elements'' →
      elements[i]? = some x → elements'[i]? = some y → elements''[i]? = some z →
      StateLifted x y z → StateLifted a b c
  | dictKey {a b c key value key' value' key'' value'' : LogicalType} :
      bare a = .dict key value → bare b = .dict key' value' → bare c = .dict key'' value'' →
      StateLifted key key' key'' → StateLifted a b c
  | dictValue {a b c key value key' value' key'' value'' : LogicalType} :
      bare a = .dict key value → bare b = .dict key' value' → bare c = .dict key'' value'' →
      StateLifted value value' value'' → StateLifted a b c

/-- A state is lifted in fields of the same name. -/
def FieldLifted (fs gs hs : List (StructField LogicalType)) : Prop :=
  ∃ f ∈ fs, ∃ g ∈ gs, ∃ h ∈ hs, f.stableName = g.stableName ∧ g.stableName = h.stableName ∧
    StateLifted f.type g.type h.type

/-- A state is lifted in elements at the same index. -/
def ElementLifted (xs ys zs : List LogicalType) : Prop :=
  ∃ (i : ℕ) (x y z : LogicalType), xs[i]? = some x ∧ ys[i]? = some y ∧ zs[i]? = some z ∧
    StateLifted x y z

/-- A state is lifted below bare types of the same kind. -/
def LiftedBelow : LogicalType → LogicalType → LogicalType → Prop
  | .list x, .list y, .list z => StateLifted x y z
  | .struct fs _, .struct gs _, .struct hs _ => FieldLifted fs gs hs
  | .variantStruct fs, .variantStruct gs, .variantStruct hs => FieldLifted fs gs hs
  | .tuple xs, .tuple ys, .tuple zs => ElementLifted xs ys zs
  | .variantTuple xs, .variantTuple ys, .variantTuple zs => ElementLifted xs ys zs
  | .dict key value, .dict key' value', .dict key'' value'' =>
    StateLifted key key' key'' ∨ StateLifted value value' value''
  | _, _, _ => False

section

variable {lax : Bool} {isUtf : String → Bool} {a b c : LogicalType}

theorem stateLifted_iff (hstate : ¬ IsState a) : StateLifted a b c ↔
    LiftedBelow (bare a) (bare b) (bare c) := by
  constructor
  · intro h
    cases h with
    | here ha => exact absurd (isState_iff.mpr ⟨_, _, _, ha⟩) hstate
    | struct ha hb hc hf hg hh hfg hgh h | variantStruct ha hb hc hf hg hh hfg hgh h =>
      rw [ha, hb, hc]
      exact ⟨_, hf, _, hg, _, hh, hfg, hgh, h⟩
    | tuple ha hb hc hx hy hz h | variantTuple ha hb hc hx hy hz h =>
      rw [ha, hb, hc]
      exact ⟨_, _, _, _, hx, hy, hz, h⟩
    | list ha hb hc h =>
      rw [ha, hb, hc]
      exact h
    | dictKey ha hb hc h =>
      rw [ha, hb, hc]
      exact .inl h
    | dictValue ha hb hc h =>
      rw [ha, hb, hc]
      exact .inr h
  · intro h
    unfold LiftedBelow at h
    split at h
    · next ha hb hc => exact .list ha hb hc h
    · next ha hb hc =>
      obtain ⟨f, hf, g, hg, h, hh, hfg, hgh, hl⟩ := h
      exact .struct ha hb hc hf hg hh hfg hgh hl
    · next ha hb hc =>
      obtain ⟨f, hf, g, hg, h, hh, hfg, hgh, hl⟩ := h
      exact .variantStruct ha hb hc hf hg hh hfg hgh hl
    · next ha hb hc =>
      obtain ⟨i, x, y, z, hx, hy, hz, hl⟩ := h
      exact .tuple ha hb hc hx hy hz hl
    · next ha hb hc =>
      obtain ⟨i, x, y, z, hx, hy, hz, hl⟩ := h
      exact .variantTuple ha hb hc hx hy hz hl
    · next ha hb hc => exact h.elim (.dictKey ha hb hc) (.dictValue ha hb hc)
    · exact h.elim

theorem not_stateLifted_simple {elem : SimpleLogicalValueType} (ha : bare a = .simple elem) :
    ¬ StateLifted a b c := by
  rw [stateLifted_iff (by simp [IsState, ha, metatype]), ha]
  exact id

variable {fn : AggregateFunction} {argType elem : LogicalType}
variable {parent : Option LogicalMetatype}

theorem not_stateLifted_element (h : ValidIn isUtf parent (.aggregateState fn argType elem)) :
    ¬ StateLifted elem b c := by
  rcases element_of_validIn h with ⟨_, he⟩ | ⟨_, he⟩
  · exact not_stateLifted_simple he
  · intro hl
    cases hl with
    | struct ha _ _ hf _ _ _ _ hl =>
      rw [he] at ha
      cases ha
      rcases mem_cons.mp hf with rfl | hf
      · exact not_stateLifted_simple rfl hl
      · rw [mem_singleton.mp hf] at hl
        exact not_stateLifted_simple rfl hl
    | _ => simp_all

/-- Transitivity for smaller types. -/
def TransBelow (isUtf : String → Bool) (n : ℕ) : Prop :=
  ∀ {a b c : LogicalType} {parent parent' parent'' : Option LogicalMetatype},
    a.weight + b.weight + c.weight < n →
    ValidIn isUtf parent a → ValidIn isUtf parent' b → ValidIn isUtf parent'' c →
    Alters true .fullyCompatible a b → Alters true .fullyCompatible b c →
    (Alters true .fullyCompatible a c ↔ ¬ StateLifted a b c)

variable {n : ℕ} {fs gs hs : List (StructField LogicalType)}

section

variable (ih : TransBelow isUtf n)

include ih

theorem fields_trans (hn : fieldsWeight fs + fieldsWeight gs + fieldsWeight hs < n)
    (hfs : ∀ f ∈ fs, ValidIn isUtf parent f.type)
    (hgs : ∀ g ∈ gs, ValidIn isUtf parent g.type) (hhs : ∀ h ∈ hs, ValidIn isUtf parent h.type)
    (hfg : ∀ f ∈ fs, ∀ g ∈ gs, f.stableName = g.stableName →
      Alters true .fullyCompatible f.type g.type) (hgh : ∀ g ∈ gs, ∀ h ∈ hs,
      g.stableName = h.stableName → Alters true .fullyCompatible g.type h.type) (hm : ∀ f ∈ fs,
      ∀ h ∈ hs, f.stableName = h.stableName → f.stableName ∈ gs.map StructField.stableName) :
    (∀ f ∈ fs, ∀ h ∈ hs, f.stableName = h.stableName → Alters true .fullyCompatible f.type h.type) ↔
      ¬ FieldLifted fs gs hs := by
  have ht : ∀ f ∈ fs, ∀ g ∈ gs, ∀ h ∈ hs, f.stableName = g.stableName → g.stableName = h.stableName →
      (Alters true .fullyCompatible f.type h.type ↔ ¬ StateLifted f.type g.type h.type) := by
    intro f hf g hg h hh hname hname'
    have := weight_le_fieldsWeight hf
    have := weight_le_fieldsWeight hg
    have := weight_le_fieldsWeight hh
    exact ih (by omega) (hfs f hf) (hgs g hg) (hhs h hh) (hfg f hf g hg hname) (hgh g hg h hh hname')
  constructor
  · intro ha ⟨f, hf, g, hg, h, hh, hname, hname', hl⟩
    exact (ht f hf g hg h hh hname hname').mp (ha f hf h hh (hname.trans hname')) hl
  · intro hnot f hf h hh hname
    obtain ⟨g, hg, hgname⟩ := mem_map.mp (hm f hf h hh hname)
    refine (ht f hf g hg h hh hgname.symm (hgname.trans hname)).mpr fun hl => ?_
    exact hnot ⟨f, hf, g, hg, h, hh, hgname.symm, hgname.trans hname, hl⟩

theorem elements_trans {xs ys zs : List LogicalType}
    (hn : elementsWeight xs + elementsWeight ys + elementsWeight zs < n)
    (hxs : ∀ x ∈ xs, ValidIn isUtf parent x) (hys : ∀ y ∈ ys, ValidIn isUtf parent y)
    (hzs : ∀ z ∈ zs, ValidIn isUtf parent z) (hlen : xs.length ≤ ys.length)
    (hxy : ∀ pair ∈ xs.zip ys, Alters true .fullyCompatible pair.1 pair.2)
    (hyz : ∀ pair ∈ ys.zip zs, Alters true .fullyCompatible pair.1 pair.2) :
    (∀ pair ∈ xs.zip zs, Alters true .fullyCompatible pair.1 pair.2) ↔ ¬ ElementLifted xs ys zs := by
  have hzip : ∀ {l l' : List LogicalType} {i : ℕ} {u v : LogicalType}, l[i]? = some u → l'[i]? =
    some v → (u, v) ∈ l.zip l' := fun hu hv => mem_of_getElem? (getElem?_zip_eq_some.mpr ⟨hu, hv⟩)
  have ht : ∀ {i : ℕ} {x y z : LogicalType}, xs[i]? = some x → ys[i]? = some y → zs[i]? = some z →
      (Alters true .fullyCompatible x z ↔ ¬ StateLifted x y z) := by
    intro i x y z hx hy hz
    have := weight_le_elementsWeight (mem_of_getElem? hx)
    have := weight_le_elementsWeight (mem_of_getElem? hy)
    have := weight_le_elementsWeight (mem_of_getElem? hz)
    exact ih (by omega) (hxs x (mem_of_getElem? hx)) (hys y (mem_of_getElem? hy))
      (hzs z (mem_of_getElem? hz)) (hxy _ (hzip hx hy)) (hyz _ (hzip hy hz))
  constructor
  · intro ha ⟨i, x, y, z, hx, hy, hz, hlifted⟩
    exact (ht hx hy hz).mp (ha _ (hzip hx hz)) hlifted
  · intro hnot pair hp
    obtain ⟨i, hi⟩ := getElem?_of_mem hp
    obtain ⟨hx, hz⟩ := getElem?_zip_eq_some.mp hi
    obtain ⟨hlt, -⟩ := List.getElem?_eq_some_iff.mp hx
    have hy := getElem?_eq_getElem (Nat.lt_of_lt_of_le hlt hlen)
    exact (ht hx hy hz).mpr fun hlifted => hnot ⟨i, _, _, _, hx, hy, hz, hlifted⟩

variable {parent' parent'' : Option LogicalMetatype}

/-- Two alterations of structs: what was added is nullable, what was removed stays removed. -/
theorem struct_trans {rs ss ts : List String}
    (hn : fieldsWeight fs + fieldsWeight gs + fieldsWeight hs < n)
    (hva : ValidIn isUtf parent (.struct fs rs)) (hvb : ValidIn isUtf parent' (.struct gs ss))
    (hvc : ValidIn isUtf parent'' (.struct hs ts))
    (hab : BareAlters true .fullyCompatible (.struct fs rs) (.struct gs ss))
    (hbc : BareAlters true .fullyCompatible (.struct gs ss) (.struct hs ts)) :
    BareAlters true .fullyCompatible (.struct fs rs) (.struct hs ts) ↔ ¬ FieldLifted fs gs hs := by
  cases hab with
  | struct haddedAb _ hkeptAb hremovedAb hfg =>
  cases hbc with
  | struct haddedBc _ hkeptBc hremovedBc hgh =>
  have hd : ∀ h ∈ hs, h.stableName ∉ ts := by
    intro h hh hname
    exact (nodup_append.mp hvc.struct.1).2.2 _ (mem_map_of_mem hh) _ hname rfl
  rw [← fields_trans ih hn hva.struct.2 hvb.struct.2 hvc.struct.2 hfg hgh fun f hf h hh hname => ?_]
  · constructor
    · intro h
      cases h with
      | struct _ _ _ _ h => exact h
    · intro hfh
      refine .struct (fun h hh hnotFs hnotRs => ?_) (fun _ _ _ _ => rfl) (fun f hf => ?_)
        (fun name hname => hremovedBc name (hremovedAb name hname)) hfh
      · by_cases hg : h.stableName ∈ gs.map StructField.stableName
        · obtain ⟨g, hg, hname⟩ := mem_map.mp hg
          have hnull := haddedAb g hg (by rwa [hname]) (by rwa [hname])
          exact nullable_of_alters (hvb.struct.2 g hg) (hvc.struct.2 h hh) (by decide) hnull
            (hgh g hg h hh hname)
        · by_cases hs' : h.stableName ∈ ss
          · exact absurd (hremovedBc _ hs') (hd h hh)
          · exact haddedBc h hh hg hs'
      · rcases hkeptAb f hf with hg | hs'
        · obtain ⟨g, hg, hname⟩ := mem_map.mp hg
          rw [← hname]
          exact hkeptBc g hg
        · exact .inr (hremovedBc _ hs')
  · rcases hkeptAb f hf with hg | hs'
    · exact hg
    · refine absurd (hremovedBc _ hs') ?_
      rw [hname]
      exact hd h hh

theorem variantStruct_trans (hn : fieldsWeight fs + fieldsWeight gs + fieldsWeight hs < n)
    (hva : ValidIn isUtf parent (.variantStruct fs))
    (hvb : ValidIn isUtf parent' (.variantStruct gs))
    (hvc : ValidIn isUtf parent'' (.variantStruct hs))
    (hab : BareAlters true .fullyCompatible (.variantStruct fs) (.variantStruct gs))
    (hbc : BareAlters true .fullyCompatible (.variantStruct gs) (.variantStruct hs)) :
    BareAlters true .fullyCompatible (.variantStruct fs) (.variantStruct hs) ↔
      ¬ FieldLifted fs gs hs := by
  cases hab with
  | variantStruct hkeptAb hsomeAb hfg =>
  cases hbc with
  | variantStruct hkeptBc hsomeBc hgh =>
  have hkept : ∀ f ∈ fs, f.stableName ∈ gs.map StructField.stableName := by
    intro f hf
    rcases hkeptAb f hf with h | h
    · exact h
    · exact absurd h full_not_le
  have hkept' : ∀ f ∈ fs, f.stableName ∈ hs.map StructField.stableName := by
    intro f hf
    obtain ⟨g, hg, hname⟩ := mem_map.mp (hkept f hf)
    rw [← hname]
    rcases hkeptBc g hg with h | h
    · exact h
    · exact absurd h full_not_le
  rw [← fields_trans ih hn hva.variantStruct.2 hvb.variantStruct.2
    hvc.variantStruct.2 hfg hgh fun f hf _ _ _ => hkept f hf]
  constructor
  · intro h
    cases h with
    | variantStruct _ _ h => exact h
  · intro hfh
    obtain ⟨f, hf, -⟩ := hsomeAb
    exact .variantStruct (fun f hf => .inl (hkept' f hf)) ⟨f, hf, hkept' f hf⟩ hfh

/-- Two full alterations between types whose bare types are no states. -/
theorem bare_trans (hn : (bare a).weight + (bare b).weight + (bare c).weight ≤ n)
    (hva : ValidIn isUtf parent (bare a)) (hvb : ValidIn isUtf parent' (bare b))
    (hvc : ValidIn isUtf parent'' (bare c))
    (hstate : ¬ IsState a) (hab : BareAlters true .fullyCompatible (bare a) (bare b))
    (hbc : BareAlters true .fullyCompatible (bare b) (bare c)) :
    BareAlters true .fullyCompatible (bare a) (bare c) ↔ ¬ StateLifted a b c := by
  rw [stateLifted_iff hstate]
  unfold IsState at hstate
  generalize bare a = x at *
  generalize bare b = y at *
  generalize bare c = z at *
  cases hab with
  | simple hab =>
    cases hbc with
    | simple hbc => exact ⟨fun _ => id, fun _ => .simple (simpleFits_trans hab hbc)⟩
  | decimal =>
    cases hbc with
    | decimal => exact ⟨fun _ => id, fun _ => .decimal⟩
  | list hab =>
    cases hbc with
    | list hbc =>
      simp only [weight] at hn
      rw [LiftedBelow, ← ih (by omega) hva.list hvb.list hvc.list hab hbc]
      simp [bareAlters_iff]
  | struct h₁ h₂ h₃ h₄ h₅ =>
    have hab := BareAlters.struct h₁ h₂ h₃ h₄ h₅
    cases hbc with
    | struct h₁ h₂ h₃ h₄ h₅ =>
      simp only [weight] at hn
      exact struct_trans ih (by omega) hva hvb hvc hab (.struct h₁ h₂ h₃ h₄ h₅)
  | variantStruct h₁ h₂ h₃ =>
    have hab := BareAlters.variantStruct h₁ h₂ h₃
    cases hbc with
    | variantStruct h₁ h₂ h₃ =>
      simp only [weight] at hn
      exact variantStruct_trans ih (by omega) hva hvb hvc hab (.variantStruct h₁ h₂ h₃)
  | tuple hl hab =>
    cases hbc with
    | tuple hl' hbc =>
      simp only [weight] at hn
      rw [LiftedBelow, ← elements_trans ih (by omega) hva.tuple hvb.tuple hvc.tuple hl.le hab hbc]
      simp [bareAlters_iff, hl.trans hl']
  | variantTuple hl hab =>
    cases hbc with
    | variantTuple hl' hbc =>
      simp only [weight] at hn
      rw [LiftedBelow, ← elements_trans ih
        (by omega) hva.variantTuple hvb.variantTuple hvc.variantTuple hl hab hbc]
      simp [bareAlters_iff, hl.trans hl']
  | dict hk hvalue =>
    cases hbc with
    | dict hk' hvalue' =>
      simp only [weight] at hn
      rw [LiftedBelow, not_or, ← ih (by omega) hva.dict.1 hvb.dict.1 hvc.dict.1 hk hk',
        ← ih (by omega) hva.dict.2 hvb.dict.2 hvc.dict.2 hvalue hvalue']
      simp [bareAlters_iff]
  | aggregateState hab => exact absurd rfl hstate

end

theorem nesting_element (h : ValidIn isUtf parent (.aggregateState fn argType elem)) :
    nesting elem = if fn = .min ∨ fn = .max then 1 else 0 := by
  obtain ⟨arg, -, -, rfl⟩ := h.aggregateState
  obtain ⟨sum, hsum⟩ := exists_getAggregateStateSumType arg
  cases fn with
  | sum =>
    rw [inferAggregateStateElementType, hsum]
    rfl
  | _ => rfl

theorem stateLifted_state (ha : bare a = .aggregateState fn argType elem) :
    StateLifted a b c ↔ IsState b ∧ ¬ IsState c ∧ (fn = .min ∨ fn = .max) ∧ nesting a = 0 ∧
      nesting b = 1 ∧ ∃ argType' element', bare b = .aggregateState fn argType' element' := by
  constructor
  · intro h
    cases h with
    | here ha' hb hc hf hna hnb =>
      rw [ha] at ha'
      cases ha'
      exact ⟨isState_iff.mpr ⟨_, _, _, hb⟩, hc, hf, hna, hnb, _, _, hb⟩
    | _ => simp_all
  · intro ⟨_, hc, hf, hna, hnb, _, _, hb⟩
    exact .here ha hb hc hf hna hnb

theorem weight_element (ha : bare a = .aggregateState fn argType elem) :
    elem.weight + 1 ≤ (bare a).weight := by
  rw [ha, weight]
  omega

/-- A full alteration after a full alteration is one full alteration, unless the two lift a state.
-/
theorem alters_trans_iff (n : ℕ) : TransBelow isUtf n := by
  induction n with
  | zero =>
    intro _ _ _ _ _ _ hn
    omega
  | succ n ih =>
    intro a b c parent parent' parent'' hn hva hvb hvc hab hbc
    have hwa := weight_bare_le a
    have hwb := weight_bare_le b
    have hwc := weight_bare_le c
    obtain ⟨_, hva'⟩ := exists_validIn_bare hva
    obtain ⟨_, hvb'⟩ := exists_validIn_bare hvb
    obtain ⟨_, hvc'⟩ := exists_validIn_bare hvc
    by_cases hsa : IsState a
    · obtain ⟨fn, argType, elem, hba⟩ := isState_iff.mp hsa
      rw [hba] at hva'
      have hweight := weight_element hba
      have hwe := weight_bare_le elem
      obtain ⟨_, hve⟩ := exists_validIn_bare hva'.aggregateStateElement
      have hse : ¬ IsState elem := bare_element_ne_state hva'
      rw [stateLifted_state hba]
      by_cases hsb : IsState b
      · obtain ⟨fn', argumentType', element', hbb⟩ := isState_iff.mp hsb
        rw [hbb] at hvb'
        have hweight' := weight_element hbb
        have hwe' := weight_bare_le element'
        obtain ⟨_, hve'⟩ := exists_validIn_bare hvb'.aggregateStateElement
        rw [alters_states hba hbb, nestingFits_full] at hab
        obtain ⟨hnes, hab, rfl⟩ := hab
        by_cases hsc : IsState c
        · -- three states
          obtain ⟨function'', argumentType'', element'', hbc'⟩ := isState_iff.mp hsc
          rw [hbc'] at hvc'
          have hweight'' := weight_element hbc'
          rw [alters_states hbb hbc', nestingFits_full] at hbc
          obtain ⟨hnes', hbc, rfl⟩ := hbc
          rw [alters_states hba hbc', nestingFits_full, ih (by omega) hva'.aggregateStateElement
            hvb'.aggregateStateElement hvc'.aggregateStateElement hab hbc]
          refine ⟨fun _ h => h.2.1 hsc, fun _ => ⟨?_, not_stateLifted_element hva', rfl⟩⟩
          omega
        · -- a state that is altered and then unwrapped
          rw [alters_state_other hbb hsc, nestingFits_full, nesting_element hvb'] at hbc
          rw [alters_of_not_state hse] at hab
          have hbare := (bare_trans ih (by omega) hve hve' hvc' hse hab.2 hbc.2).mpr
            (not_stateLifted_element hva')
          rw [alters_state_other hba hsc, nestingFits_full, nesting_element hva']
          constructor
          · intro ⟨hfits, _⟩ ⟨_, _, hf, hna, hnb, _⟩
            rw [if_pos hf] at hfits hbc
            omega
          · intro hnot
            refine ⟨?_, hbare⟩
            by_cases hf : fn' = .min ∨ fn' = .max
            · rw [if_pos hf] at hbc ⊢
              have : ¬ (nesting a = 0 ∧ nesting b = 1) :=
                fun h => hnot ⟨hsb, hsc, hf, h.1, h.2, _, _, hbb⟩
              omega
            · rw [if_neg hf] at hbc ⊢
              omega
      · -- a state that is unwrapped first
        have hsc : ¬ IsState c := fun h => hsb (hbc.isState h)
        rw [alters_state_other hba hsb, nestingFits_full] at hab
        rw [alters_of_not_state hsb, nestingFits_full] at hbc
        have hbare := (bare_trans ih (by omega) hve hvb' hvc' hse hab.2 hbc.2).mpr
          (not_stateLifted_element hva')
        rw [alters_state_other hba hsc, nestingFits_full]
        refine ⟨fun _ h => hsb h.1, fun _ => ⟨?_, hbare⟩⟩
        omega
    · -- no states
      have hsb : ¬ IsState b := fun h => hsa (hab.isState h)
      rw [alters_of_not_state hsa, nestingFits_full] at hab
      rw [alters_of_not_state hsb, nestingFits_full] at hbc
      rw [alters_of_not_state hsa, nestingFits_full,
        bare_trans ih (by omega) hva' hvb' hvc' hsa hab.2 hbc.2]
      refine ⟨fun h => h.2, fun h => ⟨?_, h⟩⟩
      omega

end

/-! ### The check -/

/-- With renaming and removal of fields allowed and unknown removed names ignored, the check calls a
valid type fully compatible with itself unless it has a variant struct without alternatives inside,
and it calls the two ends of two fully compatible pairs fully compatible unless the pairs lift a
state. -/
theorem fullyCompatible_preorder_iff (isUtf : String → Bool) (hashOrder : HashOrder) :
    (∀ a, Valid isUtf a →
      (typeCompatibility hashOrder (alteringOptions true) a a = .ok .fullyCompatible ↔
        ¬ Occurs (.variantStruct []) a)) ∧ ∀ a b c, Valid isUtf a → Valid isUtf b → Valid isUtf c →
      typeCompatibility hashOrder (alteringOptions true) a b = .ok .fullyCompatible →
      typeCompatibility hashOrder (alteringOptions true) b c = .ok .fullyCompatible →
      (typeCompatibility hashOrder (alteringOptions true) a c = .ok .fullyCompatible ↔
        ¬ StateLifted a b c) := by
  constructor
  · intro a ha
    rw [typeCompatibility_full_iff ha ha]
    exact alters_refl_iff ha
  · intro a b c ha hb hc hab hbc
    rw [typeCompatibility_full_iff ha hb] at hab
    rw [typeCompatibility_full_iff hb hc] at hbc
    rw [typeCompatibility_full_iff ha hc]
    exact alters_trans_iff _ (Nat.lt_succ_self _) ha hb hc hab hbc

/-- A field is widened and another one added, then the first becomes optional and the second is
removed. -/
theorem fullyCompatible_preorder_iff_example :
    ¬ StateLifted (.struct [⟨"a", "a", .simple .int32⟩] [])
      (.struct [⟨"a", "a", .simple .int64⟩, ⟨"b", "b", .optional (.simple .string)⟩] [])
      (.struct [⟨"c", "a", .optional (.simple .int64)⟩] ["b"]) :=
  ((fullyCompatible_preorder_iff (fun _ => true) .insertion).2
    (.struct [⟨"a", "a", .simple .int32⟩] [])
    (.struct [⟨"a", "a", .simple .int64⟩, ⟨"b", "b", .optional (.simple .string)⟩] [])
    (.struct [⟨"c", "a", .optional (.simple .int64)⟩] ["b"])
    (by decide +kernel) (by decide +kernel) (by decide +kernel) (by decide +kernel)
      (by decide +kernel)).mp (by decide +kernel)

def minInt32State : LogicalType :=
  .aggregateState .min (.simple .int32) (.optional (.simple .int32))

/-- `min(int32)` alters to `optional<min(int32)>`, which alters to `optional<optional<int32>>`, but
there is no direct way; and a variant struct without alternatives is valid but incompatible with
itself. -/
theorem fullyCompatible_not_preorder :
    (Valid (fun _ => true) minInt32State ∧ Valid (fun _ => true) (.optional minInt32State) ∧
      Valid (fun _ => true) (.optional (.optional (.simple .int32))) ∧
      typeCompatibility .insertion (alteringOptions true) minInt32State (.optional minInt32State) =
        .ok .fullyCompatible ∧
      typeCompatibility .insertion (alteringOptions true) (.optional minInt32State)
        (.optional (.optional (.simple .int32))) = .ok .fullyCompatible ∧
      typeCompatibility .insertion (alteringOptions true) minInt32State
        (.optional (.optional (.simple .int32))) = .ok .incompatible) ∧
    Valid (fun _ => true) (.variantStruct []) ∧
      typeCompatibility .insertion (alteringOptions true) (.variantStruct []) (.variantStruct []) =
        .ok .incompatible := by
  decide +kernel

end Ytsaurus.ComplexTypes
