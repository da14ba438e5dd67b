/-
# Rows kept by the constraint of a predicate

What `ExtractFromExpression` keeps of a predicate, as a property of keys
(`Kept`): a leaf is read on the key columns that it mentions, a leaf without
them is true of every key, and `NOT` turns what was kept of its operand around
unless that is the universal constraint. Leaves lose nothing: a row on which a
leaf is true has a key that the leaf keeps. `NOT` does, when the leaf under it
keeps keys of rows on which it is false. `TNotExpressionPropagator` leaves `NOT`
above `IN` and `BETWEEN` only, so no row is lost when these are read exactly by
the key (`notsExact`), and in general when the predicate, read on keys, is true
of the key of every row on which it is true.
-/
import Ytsaurus.Query.ExtractIn

namespace Ytsaurus.Query

open List TableClient Lib ConstraintsHolder ValueBound Expression

/-- The ranges of a `BETWEEN` expression as the expression builder leaves them:
no longer than the arguments, not inverted, in order and disjoint. -/
structure BetweenRangesOk (n : ℕ) (ranges : List (Tuple × Tuple)) : Prop where
  ne_nil : ranges ≠ []
  lower_length : ∀ range ∈ ranges, range.1.length ≤ n
  upper_length : ∀ range ∈ ranges, range.2.length ≤ n
  ordered : ∀ range ∈ ranges, lePrefix range.1 range.2 = true
  disjoint : ranges.IsChain fun previous current => ltPrefix previous.2 current.1 = true

/-- What the expression builder promises about the expressions that
`ExtractFromExpression` reaches, in the absence of extractors for their functions. -/
def WellBuilt (constraintExtractors : ConstraintExtractors) : Expression → Prop
  | .unaryOp opcode operand => opcode = .not → WellBuilt constraintExtractors operand
  | .binaryOp _ opcode lhs rhs =>
    opcode = .and ∨ opcode = .or → WellBuilt constraintExtractors lhs ∧
      WellBuilt constraintExtractors rhs
  | .function name _ => (constraintExtractors name).isNone
  | .inTuples arguments values => InRowsOk arguments.length values
  | .between arguments ranges => BetweenRangesOk arguments.length ranges
  | _ => True

/-- A relational operator between a key column and a literal, as `extractBinary` finds it. -/
def keyRelation (keyColumns : List String) (opcode : BinaryOpcode) (lhs rhs : Expression) :
    Option (ℕ × (Scalar → Scalar → Bool) × Scalar) :=
  match referenceOnLeft opcode lhs rhs with
  | (opcode, .reference _ columnName, .literal value) =>
    match columnNameToKeyPartIndex keyColumns columnName, opcode.relation with
    | some keyPartIndex, some relation => some (keyPartIndex, relation, value)
    | _, _ => none
  | _ => none

def isUniversal (keyColumns : List String) : Expression → Bool
  | .unaryOp opcode operand => opcode ≠ .not || isUniversal keyColumns operand
  | .binaryOp _ opcode lhs rhs =>
    if opcode = .and ∨ opcode = .or then isUniversal keyColumns lhs && isUniversal keyColumns rhs
    else (keyRelation keyColumns opcode lhs rhs).isNone
  | .inTuples arguments _ => inUniversal keyColumns arguments
  | .between arguments ranges => betweenUniversal keyColumns arguments ranges
  | .literal (.boolean value) => value
  | _ => true

/-- What the extracted constraint keeps of a predicate. -/
def Kept (keyColumns : List String) : Expression → Key Scalar → Prop
  | .unaryOp opcode operand, key =>
    opcode = .not → isUniversal keyColumns operand = true ∨ ¬Kept keyColumns operand key
  | .binaryOp _ opcode lhs rhs, key =>
    if opcode = .and then Kept keyColumns lhs key ∧ Kept keyColumns rhs key
    else if opcode = .or then Kept keyColumns lhs key ∨ Kept keyColumns rhs key
    else ∀ keyPartIndex relation value, keyRelation keyColumns opcode lhs rhs =
      some (keyPartIndex, relation, value) →
      ∃ v, key[keyPartIndex]? = some v ∧ relation v value = true
  | .inTuples arguments values, key => InKept keyColumns arguments values key
  | .between arguments ranges, key => BetweenKept keyColumns arguments ranges key
  | .literal (.boolean value), _ => value = true
  | _, _ => True

/-! ### The constraint is what is kept -/

variable {value : Scalar} {e : Expression} {extrs : ConstraintExtractors}

section Extract

variable {h : ConstraintsHolder Scalar} {keyColumns : List String}

/-- What `ExtractFromExpression` returns for an expression. -/
structure ExtractedFrom (keyColumns : List String) (h : ConstraintsHolder Scalar) (e : Expression)
    (result : ConstraintsHolder Scalar × ConstraintRef) : Prop extends
    Extracted h (Kept keyColumns e) result where
  universal : result.2.columnId = sentinelColumnId ↔ isUniversal keyColumns e = true

theorem extracted_universal {P : Key Scalar → Prop} (hwf : WellFormed proper h)
    (hP : ∀ key, P key) : Extracted h P (h, .universal) :=
  ⟨GrowsFrom.refl hwf, valid_universal, fun key _ => iff_of_true sat_universal (hP key)⟩

variable {k : ℕ}

theorem interval_relation {lower upper : ValueBound Scalar} {P : Scalar → Prop}
    (hwf : WellFormed proper h) (hk : k < h.columns.length) (hlt : lower < upper)
    (hlower : lower ∈ proper) (hu : upper ∈ proper)
    (hP : ∀ v, lower ≤ point v ∧ point v < upper ↔ P v) :
    ∃ result, h.interval lower upper k = .ok result ∧
      OpResult proper h k (fun key => ∃ v, key[k]? = some v ∧ P v) result := by
  obtain ⟨result, hrun, hres⟩ := interval_spec hwf hk hlt hlower hu
  exact ⟨result, hrun, hres.congr rfl fun key => exists_congr fun v => and_congr_right fun _ => hP v⟩

variable {opcode : BinaryOpcode}

theorem extractRelation_spec (hwf : WellFormed proper h) (hk : k < h.columns.length)
    (value : Scalar) {relation : Scalar → Scalar → Bool} (hr : opcode.relation = some relation) :
    ∃ result, h.extractRelation opcode k value = .ok result ∧
      OpResult proper h k (fun key => ∃ v, key[k]? = some v ∧ relation v value = true) result := by
  have hd : ∀ flag, (⟨.data value, flag⟩ : ValueBound Scalar) ∈ proper :=
    fun flag => data_mem_proper ..
  have hp : ∀ v : Scalar, point v < maxBound := point_lt_maxBound
  cases opcode <;> simp only [BinaryOpcode.relation, Option.some.injEq, reduceCtorEq] at hr <;>
    subst hr
  case equal =>
    refine interval_relation hwf hk (before_lt_after value) (hd _) (hd _) fun v => ?_
    simp only [before_le_point, point_lt_after, decide_eq_true_eq]
    exact ⟨fun hv => le_antisymm hv.2 hv.1, fun hv => ⟨hv.ge, hv.le⟩⟩
  case notEqual =>
    have hb := Constraint.make_eq (minBound_lt_before value false) .universal
    have ha := Constraint.make_eq (after_lt_maxBound value true) .universal
    refine ⟨_, by simp only [extractRelation, hb, ha, ok_bind]; rfl, ?_⟩
    refine (append_spec hwf hk ?_ ?_).congr rfl fun key => exists_congr fun v =>
      and_congr_right fun _ => ?_
    · exact forall_mem_cons.mpr ⟨itemOk_free hwf hk
        (minBound_lt_before value false) minBound_mem_proper (hd _), forall_mem_singleton.mpr
          (itemOk_free hwf hk (after_lt_maxBound value true) (hd _) maxBound_mem_proper)⟩
    · exact pairwise_pair.mpr (before_lt_after value).le
    · simp [CoveredBy, IntervalList.covered_cons, sat_universal, minBound_le, hp, ← lt_or_lt_iff_ne]
  case less | lessOrEqual =>
    exact interval_relation hwf hk (minBound_lt_before value _) minBound_mem_proper (hd _) fun v => by
      simp [minBound_le]
  case greater | greaterOrEqual =>
    exact interval_relation hwf hk (after_lt_maxBound value _) (hd _) maxBound_mem_proper fun v =>
      by simp [hp]

theorem extractRelation_of_none (hr : opcode.relation = none) :
    h.extractRelation opcode k value = .ok (h, .universal) := by
  cases opcode <;> simp only [BinaryOpcode.relation, reduceCtorEq] at hr <;> rfl

variable {lhs rhs : Expression}

theorem extractBinary_cases (h : ConstraintsHolder Scalar) (keyColumns : List String)
    (opcode : BinaryOpcode) (lhs rhs : Expression) : keyRelation keyColumns opcode lhs rhs = none ∧
      h.extractBinary keyColumns opcode lhs rhs = .ok (h, .universal) ∨
      ∃ op k relation value, keyRelation keyColumns opcode lhs rhs = some (k, relation, value) ∧
        op.relation = some relation ∧ k < keyColumns.length ∧
          h.extractBinary keyColumns opcode lhs rhs = h.extractRelation op k value := by
  unfold keyRelation extractBinary
  obtain ⟨op, l, r⟩ := referenceOnLeft opcode lhs rhs
  cases l <;> try exact .inl ⟨rfl, rfl⟩
  cases r <;> try exact .inl ⟨rfl, rfl⟩
  case reference.literal type name value =>
    dsimp only
    cases hk : columnNameToKeyPartIndex keyColumns name with
    | none => exact .inl ⟨rfl, rfl⟩
    | some k =>
      cases hop : op.relation with
      | none => exact .inl ⟨rfl, extractRelation_of_none hop⟩
      | some relation =>
        exact .inr ⟨op, k, relation, value, rfl, hop, (findIdx?_eq_some_iff_findIdx_eq.mp hk).1, rfl⟩

theorem extractBinary_spec (hn : h.columns.length = keyColumns.length) (hwf : WellFormed proper h)
    (type : ValueType) (ha : opcode ≠ .and) (hor : opcode ≠ .or) (lhs rhs : Expression) :
    ∃ result, h.extractBinary keyColumns opcode lhs rhs = .ok result ∧
      ExtractedFrom keyColumns h (.binaryOp type opcode lhs rhs) result := by
  have hkept : Kept keyColumns (.binaryOp type opcode lhs rhs) = fun key =>
      ∀ k relation value, keyRelation keyColumns opcode lhs rhs = some (k, relation, value) →
        ∃ v, key[k]? = some v ∧ relation v value = true := by
    simp only [Kept, if_neg ha, if_neg hor]
  have hu : isUniversal keyColumns (.binaryOp type opcode lhs rhs) =
      (keyRelation keyColumns opcode lhs rhs).isNone := by
        simp only [isUniversal, ha, hor, or_self, if_false]
  rcases extractBinary_cases h keyColumns opcode lhs rhs
    with ⟨hrelation, hrun⟩ | ⟨op, k, relation, value, hrelation, hop, hk, heq⟩
  · refine ⟨_, hrun, extracted_universal hwf fun key => ?_, iff_of_true rfl ?_⟩
    · simp [hkept, hrelation]
    · rw [hu, hrelation]
      rfl
  · obtain ⟨result, hrun, hres⟩ := extractRelation_spec hwf (hk.trans_eq hn.symm) value hop
    have hext := hres.extracted
    refine ⟨result, heq.trans hrun, ⟨hext.grows, hext.valid, fun key hkey => ?_⟩, iff_of_false ?_ ?_⟩
    · rw [hext.sat key hkey, hkept]
      simp [hrelation]
    · have := hwf.columnCount
      rw [hres.columnId_eq]
      omega
    · simp [hu, hrelation]

theorem ExtractedFrom.invert {operand : Expression} {h1 : ConstraintsHolder Scalar}
    {ref : ConstraintRef}
    (hres : ExtractedFrom keyColumns h operand (h1, ref)) : ∃ result, h1.invert ref = .ok result ∧
      ExtractedFrom keyColumns h (.unaryOp .not operand) result := by
  have hu : isUniversal keyColumns (.unaryOp .not operand) = isUniversal keyColumns operand := by
    simp [isUniversal]
  by_cases hs : ref.columnId = sentinelColumnId
  · have hop : isUniversal keyColumns operand = true := hres.universal.mp hs
    refine ⟨(h1, ref), by rw [ConstraintsHolder.invert, invertFuel, if_pos hs]; rfl,
      ⟨hres.grows, hres.valid, ?_⟩, ?_⟩
    · exact fun key hkey => iff_of_true (.universal hs) fun _ => .inl hop
    · rw [hu]
      exact hres.universal
  · have hop : isUniversal keyColumns operand ≠ true := fun h => hs (hres.universal.mpr h)
    obtain ⟨result, hrun, hi⟩ :=
      invert_spec hres.grows.wf minBound_mem_proper maxBound_mem_proper hres.valid hs
    refine ⟨result, hrun, ⟨hres.grows.trans (hi.grows.mono (Nat.zero_le _)), hi.valid,
      fun key hkey => ?_⟩, ?_⟩
    · rw [hi.sat key (hkey.trans hres.grows.length_eq.symm), hres.sat key hkey, Kept, or_iff_right hop]
      exact ⟨fun hk _ => hk, fun hk => hk rfl⟩
    · rw [hu, hi.columnId_eq]
      exact hres.universal

theorem ExtractedFrom.combine {h1 h2 : ConstraintsHolder Scalar} {ref1 ref2 : ConstraintRef}
    (combine : Prop → Prop → Prop) {result : ConstraintsHolder Scalar × ConstraintRef}
    (hres1 : ExtractedFrom keyColumns h lhs (h1, ref1))
    (hres2 : ExtractedFrom keyColumns h1 rhs (h2, ref2))
    (hop : OpResult proper h2 (min ref1.columnId ref2.columnId)
      (fun key => combine (h2.Sat key ref1) (h2.Sat key ref2)) result) (hkept : ∀ key,
      Kept keyColumns e key ↔ combine (Kept keyColumns lhs key) (Kept keyColumns rhs key))
    (hu : isUniversal keyColumns e = (isUniversal keyColumns lhs && isUniversal keyColumns rhs)) :
    ExtractedFrom keyColumns h e result := by
  have hg := hres1.grows.trans hres2.grows
  refine ⟨⟨hg.trans (hop.grows.mono (Nat.zero_le _)), hop.valid, fun key hkey => ?_⟩, ?_⟩
  · have hkey1 := hkey.trans hres1.grows.length_eq.symm
    rw [hop.sat key (hkey.trans hg.length_eq.symm), hres2.grows.sat_iff hres1.grows.wf hres1.valid,
      hres1.sat key hkey, hres2.sat key hkey1, hkept]
  · rw [hop.columnId_eq, min_eq_sentinel hg.wf (hres2.grows.valid hres1.valid) hres2.valid,
      hres1.universal, hres2.universal, hu, Bool.and_eq_true]

theorem extractFrom_literal (value : Scalar) (hn : 0 < h.columns.length)
    (hwf : WellFormed proper h) :
    ∃ result, extractFrom keyColumns extrs (.literal value) h = .ok result ∧
      ExtractedFrom keyColumns h (.literal value) result := by
  cases value with
  | boolean value =>
    cases value with
    | true => exact ⟨_, rfl, extracted_universal hwf fun _ => rfl, iff_of_true rfl rfl⟩
    | false =>
      refine ⟨_, rfl, ⟨GrowsFrom.refl hwf, valid_empty hn, fun key _ =>
        iff_of_false ?_ Bool.false_ne_true⟩, ?_⟩
      · rintro (hu | ⟨-, hi, -⟩)
        · simp [ConstraintRef.empty, sentinelColumnId] at hu
        · simp [ConstraintRef.empty, slice] at hi
      · simp [isUniversal, ConstraintRef.empty, sentinelColumnId]
  | _ => exact ⟨_, rfl, extracted_universal hwf fun _ => trivial, iff_of_true rfl rfl⟩

theorem extractFrom_spec (hk : keyColumns ≠ []) :
    ∀ (e : Expression) (h : ConstraintsHolder Scalar), WellBuilt extrs e →
      h.columns.length = keyColumns.length → WellFormed proper h →
      ∃ result, extractFrom keyColumns extrs e h = .ok result ∧ ExtractedFrom keyColumns h e result
  | .unaryOp opcode operand, h, hb, hn, hwf => by
    by_cases hnot : opcode = .not
    · subst hnot
      obtain ⟨⟨h1, ref⟩, hrun, hres⟩ := extractFrom_spec hk operand h (hb rfl) hn hwf
      rw [extractFrom, if_pos rfl, hrun, ok_bind]
      exact hres.invert
    · rw [extractFrom, if_neg hnot]
      exact ⟨_, rfl, extracted_universal hwf fun key h =>
        absurd h hnot, iff_of_true rfl (by simp [isUniversal, hnot])⟩
  | .binaryOp type opcode lhs rhs, h, hb, hn, hwf => by
    by_cases hlog : opcode = .and ∨ opcode = .or
    · obtain ⟨hl, hr⟩ := hb hlog
      obtain ⟨⟨h1, ref1⟩, hrun1, hres1⟩ := extractFrom_spec hk lhs h hl hn hwf
      obtain ⟨⟨h2, ref2⟩, hrun2, hres2⟩ := extractFrom_spec hk rhs h1 hr
        (hres1.grows.length_eq.trans hn) hres1.grows.wf
      have hu : isUniversal keyColumns (.binaryOp type opcode lhs rhs) =
          (isUniversal keyColumns lhs && isUniversal keyColumns rhs) := by
            simp only [isUniversal, if_pos hlog]
      have hv := hres2.grows.valid hres1.valid
      rcases hlog with rfl | rfl
      · obtain ⟨result, hrun, hop⟩ := intersect_spec hres2.grows.wf hv hres2.valid
        refine ⟨result, ?_, hres1.combine And hres2 hop (fun key => by simp [Kept]) hu⟩
        simp only [extractFrom, if_true, hrun1, ok_bind, hrun2, hrun]
      · obtain ⟨result, hrun, hop⟩ :=
          unite_spec hres2.grows.wf minBound_mem_proper maxBound_mem_proper hv hres2.valid
        refine ⟨result, ?_, hres1.combine Or hres2 hop (fun key => by simp [Kept]) hu⟩
        simp only [extractFrom, reduceCtorEq, if_false, if_true, hrun1, ok_bind, hrun2, hrun]
    · obtain ⟨ha, hor⟩ := not_or.mp hlog
      rw [extractFrom, if_neg ha, if_neg hor]
      exact extractBinary_spec hn hwf type ha hor lhs rhs
  | .function name arguments, h, hb, hn, hwf => by
    rw [extractFrom, Option.isNone_iff_eq_none.mp hb]
    exact ⟨_, rfl, extracted_universal hwf fun _ => trivial, iff_of_true rfl rfl⟩
  | .inTuples arguments values, h, hb, hn, hwf => by
    obtain ⟨result, hrun, hres, hu⟩ := extractIn_spec hn hwf hb
    exact ⟨result, by rw [extractFrom, hrun], hres, hu⟩
  | .between arguments ranges, h, hb, hn, hwf => by
    obtain ⟨result, hrun, hres, hu⟩ := extractBetween_spec hn hwf hb.ne_nil hb.ordered
    exact ⟨result, by rw [extractFrom, hrun], hres, hu⟩
  | .literal value, h, _, hn, hwf => extractFrom_literal value (hn ▸ length_pos_iff.mpr hk) hwf
  | .reference .., h, _, hn, hwf | .transform .., h, _, hn, hwf | .other .., h, _, hn, hwf =>
    ⟨_, rfl, extracted_universal hwf fun _ => trivial, iff_of_true rfl rfl⟩

end Extract

/-! ### The key of a row -/

section Row

variable {keyColumns : List String} {I : Interpretation} {row : DataRow}

def keyOf (keyColumns : List String) (row : DataRow) : Key Scalar := keyColumns.map row

theorem length_keyOf : (keyOf keyColumns row).length = keyColumns.length := length_map _

theorem evalAll_eq_map : ∀ es : List Expression, evalAll I row es = es.map (·.eval I row)
  | [] => by rw [evalAll, map_nil]
  | e :: es => by rw [evalAll, evalAll_eq_map es, map_cons]

theorem length_evalAll {es : List Expression} : (evalAll I row es).length = es.length := by
  rw [evalAll_eq_map, length_map]

variable {k : ℕ}

theorem columnNameToKeyPartIndex_eq {name : String}
    (hk : columnNameToKeyPartIndex keyColumns name = some k) : keyColumns[k]? = some name := by
  obtain ⟨hlt, hn, -⟩ := findIdx?_eq_some_iff_getElem.mp hk
  rw [getElem?_eq_getElem hlt, beq_iff_eq.mp hn]

theorem keyOf_keyPartOf (hk : keyPartOf keyColumns e = some k) :
    (keyOf keyColumns row)[k]? = some (e.eval I row) := by
  cases e <;> simp only [keyPartOf, reduceCtorEq] at hk
  rw [keyOf, getElem?_map, columnNameToKeyPartIndex_eq hk, eval]
  rfl

theorem buildKeyMappingFrom_mapped (keyColumns : List String) (P : ℕ → ℕ → Prop) :
    ∀ (es : List Expression) (index : ℕ)
    (mapping : List (Option ℕ)), (∀ k j, mapping[k]? = some (some j) → P k j) →
    (∀ i e k, es[i]? = some e → keyPartOf keyColumns e = some k → P k (index + i)) →
    ∀ k j, (buildKeyMappingFrom keyColumns index es mapping)[k]? = some (some j) → P k j
  | [], _, _, hm, _ => hm
  | e :: es, index, mapping, hm, he => by
    have hes : ∀ i e k, es[i]? = some e → keyPartOf keyColumns e = some k → P k (index + 1 + i) :=
        fun i e k hi hk => by
      have := he (i + 1) e k (by simpa using hi) hk
      rwa [Nat.add_assoc, Nat.add_comm 1 i]
    rw [buildKeyMappingFrom]
    split
    · next k0 hk0 =>
      split_ifs with hf
      · refine buildKeyMappingFrom_mapped keyColumns P es (index + 1) _ (fun k j hj => ?_) hes
        rw [getElem?_set] at hj
        split_ifs at hj with heq
        · obtain rfl : index = j := by simpa using hj
          exact he 0 e k rfl (heq ▸ hk0)
        · exact hm k j hj
      · exact buildKeyMappingFrom_mapped keyColumns P es (index + 1) mapping hm hes
    · exact buildKeyMappingFrom_mapped keyColumns P es (index + 1) mapping hm hes

variable {arguments : List Expression}

theorem keyOf_mapped {j : ℕ} (hj : (buildKeyMapping keyColumns arguments)[k]? = some (some j)) :
    j < arguments.length ∧ (keyOf keyColumns row)[k]? = some (Tuple.at (evalAll I row arguments) j) := by
  obtain ⟨e, he, hk⟩ := buildKeyMappingFrom_mapped keyColumns
    (fun k j => ∃ e, arguments[j]? = some e ∧ keyPartOf keyColumns e = some k) arguments 0
    (replicate keyColumns.length none) (fun k j hj => by simp [getElem?_replicate] at hj)
    (fun i e k hi hk => ⟨e, by simpa using hi, hk⟩) k j hj
  refine ⟨(List.getElem?_eq_some_iff.mp he).1, ?_⟩
  rw [keyOf_keyPartOf (I := I) hk, evalAll_eq_map, Tuple.at, getD_eq_getElem?_getD, getElem?_map, he]
  rfl

/-! ### Leaves -/

theorem inKept_of_mem {values : List Tuple} (hm : evalAll I row arguments ∈ values) :
      InKept keyColumns arguments values (keyOf keyColumns row) :=
  .inr ⟨_, hm, fun _ _ _ hj => (keyOf_mapped hj).2⟩

/-- Every argument is mapped to a key column. -/
def inExact (keyColumns : List String) (arguments : List Expression) : Bool :=
  (range arguments.length).all fun index =>
    (buildKeyMapping keyColumns arguments).contains (some index)

theorem mem_of_inKept {values : List Tuple} (hr : InRowsOk arguments.length values)
    (hexact : inExact keyColumns arguments = true) (hu : inUniversal keyColumns arguments ≠ true)
    (hkept : InKept keyColumns arguments values (keyOf keyColumns row)) :
    evalAll I row arguments ∈ values := by
  obtain ⟨tuple, hmem, hmatch⟩ := hkept.resolve_left hu
  suffices heq : evalAll I row arguments = tuple by rwa [heq]
  refine ext_getElem (length_evalAll.trans (hr.length_eq tuple hmem).symm) fun j h1 h2 => ?_
  -- the key column of the argument has both values
  have hj : (buildKeyMapping keyColumns arguments).contains (some j) = true :=
    all_eq_true.mp hexact j (mem_range.mpr (length_evalAll ▸ h1))
  obtain ⟨k, hk⟩ := mem_iff_getElem?.mp (contains_iff_mem.mp hj)
  have hat : Tuple.at (evalAll I row arguments) j = tuple.at j := by
    simpa only [hmatch k j (Nat.zero_le _) hk, Option.some.injEq, eq_comm] using
      (keyOf_mapped hk : _ ∧ (keyOf keyColumns row)[k]? = some (Tuple.at (evalAll I row arguments) j)).2
  simpa only [Tuple.at, getD_eq_getElem _ _ h1, getD_eq_getElem _ _ h2] using hat

theorem keyValuesAt_keyOf : ∀ (arguments : List Expression) (last : Option ℕ),
    keyValuesAt (betweenKeyColumnIds keyColumns last arguments) (keyOf keyColumns row) =
      (evalAll I row arguments).take (betweenKeyColumnIds keyColumns last arguments).length
  | [], last => by simp [betweenKeyColumnIds, keyValuesAt]
  | e :: es, last => by
    rw [betweenKeyColumnIds]
    cases hk : keyPartOf keyColumns e with
    | none => rfl
    | some k =>
      simp only
      split_ifs
      · have hh : (keyOf keyColumns row).getD k .null = e.eval I row := by
          rw [getD_eq_getElem?_getD, keyOf_keyPartOf hk, Option.getD_some]
        rw [keyValuesAt, map_cons, hh, evalAll, length_cons, take_succ_cons]
        exact congrArg _ (keyValuesAt_keyOf es (some k))
      · rfl

/-- Only the places that both sides have are compared. -/
theorem lePrefix_take : ∀ (a b : Tuple) (n : ℕ), lePrefix (a.take n) b = lePrefix a (b.take n)
  | [], _, _ => by rw [take_nil, lePrefix_nil_left, lePrefix_nil_left]
  | _ :: _, [], _ => by rw [take_nil, lePrefix_nil_right, lePrefix_nil_right]
  | _ :: _, _ :: _, 0 => by rw [take_zero, take_zero, lePrefix_nil_left, lePrefix_nil_right]
  | a :: as, b :: bs, n + 1 => by simp only [take_succ_cons, lePrefix, lePrefix_take as bs n]

theorem lePrefix_take_right : ∀ {a b : Tuple} {n : ℕ}, lePrefix a b = true →
    lePrefix a (b.take n) = true
  | [], _, _, _ => lePrefix_nil_left _
  | _ :: _, [], _, _ => by rw [take_nil, lePrefix_nil_right]
  | _ :: _, _ :: _, 0, _ => by rw [take_zero, lePrefix_nil_right]
  | a :: as, b :: bs, n + 1, hle => by
    simp only [take_succ_cons, lePrefix, Bool.or_eq_true, Bool.and_eq_true, decide_eq_true_eq] at hle ⊢
    exact hle.imp_right fun h => ⟨h.1, lePrefix_take_right h.2⟩

theorem lePrefix_trans : ∀ {a b c : Tuple}, a.length ≤ b.length → lePrefix a b = true →
    lePrefix b c = true → lePrefix a c = true
  | [], _, _, _, _, _ => lePrefix_nil_left _
  | _ :: _, _, [], _, _, _ => lePrefix_nil_right _
  | a :: as, b :: bs, c :: cs, hl, hab, hbc => by
    simp only [lePrefix, Bool.or_eq_true, Bool.and_eq_true, decide_eq_true_eq] at hab hbc ⊢
    rcases hab with hab | ⟨rfl, hab⟩
    · rcases hbc with hbc | ⟨rfl, -⟩
      · exact .inl (hab.trans hbc)
      · exact .inl hab
    · exact hbc.imp_right fun h => ⟨h.1, lePrefix_trans (by simpa using hl) hab h.2⟩

theorem lePrefix_of_ltPrefix : ∀ {a b c : Tuple}, lePrefix a b = true → ltPrefix b c = true →
    lePrefix a c = true
  | [], _, _, _, _ => lePrefix_nil_left _
  | _ :: _, [], _, _, hlt => by simp [ltPrefix, lePrefix_nil_right] at hlt
  | _ :: _, _ :: _, [], _, _ => lePrefix_nil_right _
  | a :: as, b :: bs, c :: cs, hab, hbc => by
    simp only [ltPrefix, lePrefix, Bool.not_eq_true', Bool.or_eq_false_iff, Bool.and_eq_false_iff,
      decide_eq_false_iff_not, not_lt] at hbc
    simp only [lePrefix, Bool.or_eq_true, Bool.and_eq_true, decide_eq_true_eq] at hab ⊢
    rcases hbc.1.lt_or_eq with hlt | heq
    · exact .inl (hab.elim (·.trans hlt) fun h => h.1 ▸ hlt)
    · have hr : ltPrefix bs cs = true := by
        simpa [ltPrefix] using hbc.2.resolve_left (not_not.mpr heq.symm)
      exact hab.imp (heq ▸ ·) fun h => ⟨h.1.trans heq, lePrefix_of_ltPrefix h.2 hr⟩

theorem ltPrefix_of_later {v : Tuple} : ∀ {ranges : List (Tuple × Tuple)} {first : Tuple × Tuple},
    ((first :: ranges).IsChain fun prev cur => ltPrefix prev.2 cur.1 = true) →
    (∀ range ∈ ranges, lePrefix range.1 range.2 = true) →
    (∀ range ∈ ranges, range.1.length ≤ v.length) →
    ∀ range ∈ ranges, lePrefix range.1 v = true → ltPrefix first.2 v = true
  | second :: ranges, first, hc, ho, hlen, range, hm, hle => by
    obtain ⟨hlt, hc⟩ := isChain_cons_cons.mp hc
    have hs : lePrefix second.1 v = true := by
      rcases mem_cons.mp hm with rfl | hm
      · exact hle
      · exact lePrefix_of_ltPrefix (ho second (by simp))
          (ltPrefix_of_later hc (forall_mem_cons.mp ho).2 (forall_mem_cons.mp hlen).2 range hm hle)
    by_contra hn
    have hge : lePrefix v first.2 = true := by simpa [ltPrefix] using hn
    have := lePrefix_trans (hlen second (by simp)) hs hge
    simp [ltPrefix, this] at hlt

/-- `IsRowInRanges` finds the range that the values are in. -/
theorem isRowInRanges_iff {v : Tuple} : ∀ {ranges : List (Tuple × Tuple)},
    (ranges.IsChain fun prev cur => ltPrefix prev.2 cur.1 = true) →
    (∀ range ∈ ranges, lePrefix range.1 range.2 = true) →
    (∀ range ∈ ranges, range.1.length ≤ v.length) → (isRowInRanges v ranges = true ↔
      ∃ range ∈ ranges, lePrefix range.1 v = true ∧ lePrefix v range.2 = true)
  | [], _, _, _ => by simp [isRowInRanges]
  | first :: ranges, hc, ho, hlen => by
    have ho' := (forall_mem_cons.mp ho).2
    have hlen' := (forall_mem_cons.mp hlen).2
    have ih := isRowInRanges_iff (v := v) hc.tail ho' hlen'
    simp only [isRowInRanges, find?_cons] at ih ⊢
    cases hf : ltPrefix first.2 v with
    | true =>
      have hn : lePrefix v first.2 = false := by simpa [ltPrefix] using hf
      simp only [Bool.not_true, mem_cons, exists_eq_or_imp, hn, Bool.false_eq_true, and_false, false_or]
      exact ih
    | false =>
      have hle : lePrefix v first.2 = true := by simpa [ltPrefix] using hf
      simp only [Bool.not_false, mem_cons, exists_eq_or_imp, hle, and_true]
      refine ⟨.inl, fun h => h.resolve_right ?_⟩
      rintro ⟨range, hm, hlow, -⟩
      simp [ltPrefix_of_later hc ho' hlen' range hm hlow] at hf

variable {ranges : List (Tuple × Tuple)}

theorem betweenKept_of_mem (hin : isRowInRanges (evalAll I row arguments) ranges = true)
    (hok : BetweenRangesOk arguments.length ranges) :
      BetweenKept keyColumns arguments ranges (keyOf keyColumns row) := by
  rw [isRowInRanges_iff hok.disjoint hok.ordered (length_evalAll ▸ hok.lower_length)] at hin
  obtain ⟨range, hm, hlow, hup⟩ := hin
  refine .inr ⟨range, hm, ?_⟩
  rw [keyValuesAt_keyOf (I := I)]
  exact ⟨lePrefix_take_right hlow, (lePrefix_take ..).trans (lePrefix_take_right hup)⟩

/-- The bounds of a `BETWEEN` are no longer than its collected key columns. -/
def betweenExact (keyColumns : List String) (arguments : List Expression)
    (ranges : List (Tuple × Tuple)) : Bool :=
  ranges.all fun range =>
    range.1.length ≤ (betweenKeyColumnIds keyColumns none arguments).length &&
      range.2.length ≤ (betweenKeyColumnIds keyColumns none arguments).length

theorem isRowInRanges_of_betweenKept (hok : BetweenRangesOk arguments.length ranges)
    (he : betweenExact keyColumns arguments ranges = true)
    (huniv : betweenUniversal keyColumns arguments ranges ≠ true)
    (hk : BetweenKept keyColumns arguments ranges (keyOf keyColumns row)) :
    isRowInRanges (evalAll I row arguments) ranges = true := by
  have hi : betweenKeyColumnIds keyColumns none arguments ≠ [] :=
    fun h => huniv (by simp [betweenUniversal, h])
  obtain ⟨range, hm, hlow, hup⟩ := hk.resolve_left hi
  rw [keyValuesAt_keyOf (I := I)] at hlow hup
  have hle := all_eq_true.mp he range hm
  simp only [Bool.and_eq_true, decide_eq_true_eq] at hle
  rw [← lePrefix_take, take_of_length_le hle.1] at hlow
  rw [lePrefix_take, take_of_length_le hle.2] at hup
  exact (isRowInRanges_iff hok.disjoint hok.ordered (length_evalAll ▸ hok.lower_length)).mpr
    ⟨range, hm, hlow, hup⟩

/-! ### Predicates -/

variable {opcode : BinaryOpcode} {relation : Scalar → Scalar → Bool}

theorem relate_swap (relation : Scalar → Scalar → Bool) (a b : Scalar) :
    I.relate (fun a b => relation b a) a b = I.relate relation b a := by
  simp only [Interpretation.relate, or_comm]

theorem eq_of_relate_eq {a b : Scalar} {c : Bool} (h : I.relate relation a b = .boolean c) :
    relation a b = c := by
  unfold Interpretation.relate at h
  split_ifs at h
  exact Scalar.boolean.inj h

theorem eval_relation (type : ValueType) (lhs rhs : Expression)
    (hr : opcode.relation = some relation) : (binaryOp type opcode lhs rhs).eval I row =
      I.relate relation (lhs.eval I row) (rhs.eval I row) := by
  cases opcode <;> simp only [BinaryOpcode.relation, Option.some.injEq, reduceCtorEq] at hr <;>
    simp only [eval, BinaryOpcode.relation, ← hr]

theorem reversed_relation (hr : opcode.reversed.relation = some relation) :
      opcode.relation = some fun a b => relation b a := by
  cases opcode <;> simp only [BinaryOpcode.reversed, BinaryOpcode.relation, Option.some.injEq,
    reduceCtorEq] at hr <;>
    simp [BinaryOpcode.relation, ← hr, eq_comm]

variable (row I) in
theorem eval_keyRelation (type : ValueType) {lhs rhs : Expression}
    (hrelation : keyRelation keyColumns opcode lhs rhs = some (k, relation, value)) :
    ∃ v, (keyOf keyColumns row)[k]? = some v ∧ (binaryOp type opcode lhs rhs).eval I row =
      I.relate relation v value := by
  unfold keyRelation at hrelation
  split at hrelation
  · next op type' name value' hl =>
    split at hrelation
    · next k' relation' hk hop =>
      simp only [Option.some.injEq, Prod.mk.injEq] at hrelation
      obtain ⟨rfl, rfl, rfl⟩ := hrelation
      refine ⟨row name, by rw [keyOf, getElem?_map, columnNameToKeyPartIndex_eq hk, Option.map_some], ?_⟩
      unfold referenceOnLeft at hl
      split at hl
      · -- the reference is on the right
        simp only [Prod.mk.injEq] at hl
        obtain ⟨rfl, hright, rfl⟩ := hl
        rw [eval_relation type _ _ (reversed_relation hop), hright, eval, eval, relate_swap]
      · simp only [Prod.mk.injEq] at hl
        obtain ⟨rfl, rfl, rfl⟩ := hl
        rw [eval_relation type _ _ hop, eval, eval]
    · simp at hrelation
  · simp at hrelation

theorem keyRelation_of_holds {type : ValueType} {lhs rhs : Expression}
    (hr : keyRelation keyColumns opcode lhs rhs = some (k, relation, value))
    (hh : (binaryOp type opcode lhs rhs).Holds I row) :
    ∃ v, (keyOf keyColumns row)[k]? = some v ∧ relation v value = true := by
  obtain ⟨v, hv, he⟩ := eval_keyRelation I row type hr
  rw [Expression.Holds, he] at hh
  exact ⟨v, hv, eq_of_relate_eq hh⟩

variable {a : Scalar}

theorem logicalNot_eq_true : a.logicalNot = .boolean true ↔ a = .boolean false := by
  cases a with
  | boolean value => cases value <;> simp [Scalar.logicalNot, Scalar.truth, Scalar.ofTruth]
  | _ => simp [Scalar.logicalNot, Scalar.truth, Scalar.ofTruth]

theorem eq_boolean_iff_truth {value : Bool} : a = .boolean value ↔ a.truth = some value := by
  cases a <;> simp [Scalar.truth]

theorem logicalAnd_eq_true {b : Scalar} : a.logicalAnd b = .boolean true ↔ a = .boolean true ∧
    b = .boolean true := by
  rw [eq_boolean_iff_truth (a := a), eq_boolean_iff_truth (a := b), Scalar.logicalAnd]
  rcases a.truth with _ | _ | _ <;> rcases b.truth with _ | _ | _ <;> simp

theorem logicalOr_eq_true {b : Scalar} : a.logicalOr b = .boolean true ↔ a = .boolean true ∨
    b = .boolean true := by
  rw [eq_boolean_iff_truth (a := a), eq_boolean_iff_truth (a := b), Scalar.logicalOr]
  rcases a.truth with _ | _ | _ <;> rcases b.truth with _ | _ | _ <;> simp

/-- The leaves that a key decides. -/
def exactOnKey (keyColumns : List String) : Expression → Bool
  | .inTuples arguments _ => inExact keyColumns arguments
  | .between arguments ranges => betweenExact keyColumns arguments ranges
  | _ => false

/-- Every `NOT` stands above an expression with the universal constraint or
above an `IN` or `BETWEEN` that the key decides. -/
def notsExact (keyColumns : List String) : Expression → Bool
  | .unaryOp opcode operand => opcode ≠ .not || isUniversal keyColumns operand ||
    exactOnKey keyColumns operand
  | .binaryOp _ opcode lhs rhs =>
    if opcode = .and ∨ opcode = .or then notsExact keyColumns lhs && notsExact keyColumns rhs else true
  | _ => true

theorem holds_of_kept (hb : WellBuilt extrs e) (he : exactOnKey keyColumns e = true)
    (hu : isUniversal keyColumns e ≠ true) (hk : Kept keyColumns e (keyOf keyColumns row)) :
      e.Holds I row := by
  cases e <;> simp only [exactOnKey, Bool.false_eq_true] at he
  case inTuples arguments values =>
    have hm := mem_of_inKept (I := I) hb he hu hk
    rw [Expression.Holds, eval, contains_iff_mem.mpr hm]
  case between arguments ranges =>
    rw [Expression.Holds, eval, isRowInRanges_of_betweenKept hb he hu hk]

/-- No row is lost under exact `NOT`s. -/
theorem kept_of_holds : ∀ e : Expression, WellBuilt extrs e → notsExact keyColumns e = true →
    e.Holds I row → Kept keyColumns e (keyOf keyColumns row)
  | .unaryOp opcode operand, hb, he, hh => by
    rintro rfl
    have hf : operand.eval I row = .boolean false := logicalNot_eq_true.mp hh
    by_cases hu : isUniversal keyColumns operand = true
    · exact .inl hu
    · have hop : exactOnKey keyColumns operand = true := by simpa [notsExact, hu] using he
      refine .inr fun hk => ?_
      have ht := holds_of_kept (hb rfl) hop hu hk (I := I)
      rw [Expression.Holds, hf] at ht
      simp at ht
  | .binaryOp type opcode lhs rhs, hb, he, hh => by
    by_cases hlog : opcode = .and ∨ opcode = .or
    · obtain ⟨hl, hr⟩ := hb hlog
      obtain ⟨hxl, hxr⟩ : notsExact keyColumns lhs = true ∧ notsExact keyColumns rhs = true := by
        simpa [notsExact, hlog] using he
      rcases hlog with rfl | rfl
      · rw [Expression.Holds, eval, logicalAnd_eq_true] at hh
        exact ⟨kept_of_holds lhs hl hxl hh.1, kept_of_holds rhs hr hxr hh.2⟩
      · rw [Expression.Holds, eval, logicalOr_eq_true] at hh
        exact hh.imp (kept_of_holds lhs hl hxl) (kept_of_holds rhs hr hxr)
    · obtain ⟨ha, hor⟩ := not_or.mp hlog
      rw [Kept, if_neg ha, if_neg hor]
      exact fun k relation value hrelation => keyRelation_of_holds hrelation hh
  | .inTuples arguments values, _, _, hh => by
    rw [Expression.Holds, eval, Scalar.boolean.injEq, contains_iff_mem] at hh
    exact inKept_of_mem hh
  | .between arguments ranges, hb, _, hh => by
    rw [Expression.Holds, eval, Scalar.boolean.injEq] at hh
    exact betweenKept_of_mem hh hb
  | .literal value, _, _, hh => by
    rw [Expression.Holds, eval] at hh
    rw [hh]
    rfl
  | .function .., _, _, _ | .reference .., _, _, _ | .transform .., _, _, _
  | .other .., _, _, _ => trivial

end Row

/-! ### The rewritten predicate -/

theorem length_propagateNotAll : ∀ es : List Expression, (propagateNotAll es).length = es.length
  | [] => by rw [propagateNotAll]
  | e :: es => by rw [propagateNotAll, length_cons, length_propagateNotAll es, length_cons]

/-- `TNotExpressionPropagator` keeps what the builder promises. -/
theorem wellBuilt_propagateNot : ∀ e : Expression,
    WellBuilt extrs e → WellBuilt extrs e.propagateNot ∧ WellBuilt extrs e.propagateNotUnder
  | .unaryOp opcode operand, hb => by
    by_cases hn : opcode = .not
    · subst hn
      have ih := wellBuilt_propagateNot operand (hb rfl)
      exact ⟨ih.2, ih.1⟩
    · cases opcode <;> first
        | exact absurd rfl hn
        | simp [propagateNot, propagateNotUnder, WellBuilt]
  | .binaryOp type opcode lhs rhs, hb => by
    by_cases hl : opcode = .and ∨ opcode = .or
    · have ihl := wellBuilt_propagateNot lhs (hb hl).1
      have ihr := wellBuilt_propagateNot rhs (hb hl).2
      refine ⟨fun _ => ⟨ihl.1, ihr.1⟩, ?_⟩
      rcases hl with rfl | rfl <;> exact fun _ => ⟨ihl.2, ihr.2⟩
    · refine ⟨fun h => absurd h hl, ?_⟩
      cases opcode <;> simp [propagateNotUnder, BinaryOpcode.inversed?, WellBuilt] at hl ⊢
  | .function name arguments, hb => ⟨hb, fun _ => hb⟩
  | .inTuples arguments values, hb => by
    have ha : InRowsOk (propagateNotAll arguments).length values :=
      (length_propagateNotAll arguments).symm ▸ hb
    exact ⟨ha, fun _ => ha⟩
  | .between arguments ranges, hb => by
    have ha : BetweenRangesOk (propagateNotAll arguments).length ranges :=
      (length_propagateNotAll arguments).symm ▸ hb
    exact ⟨ha, fun _ => ha⟩
  | .literal value, _ => by
    cases value <;> simp [propagateNot, propagateNotUnder, WellBuilt]
  | .reference .., _ | .transform .., _ | .other .., _ => ⟨trivial, fun _ => trivial⟩

theorem extractFromExpression_spec (keyColumns : List String) (hk : keyColumns ≠ [])
    (hc : keyColumns.length ≤ sentinelColumnId) (hb : WellBuilt extrs e) :
    ∃ result, (new keyColumns.length).extractFromExpression (some e) keyColumns extrs = .ok result ∧
      ExtractedFrom keyColumns (new keyColumns.length) e result ∧ ∀ row, result.1.Sat
        (keyOf keyColumns row) result.2 ↔ Kept keyColumns e (keyOf keyColumns row) := by
  have hn : (new keyColumns.length : ConstraintsHolder Scalar).columns.length =
    keyColumns.length := by simp [new]
  obtain ⟨result, hrun, hres⟩ := extractFrom_spec hk e _ hb hn (wellFormed_new hc)
  refine ⟨result, ?_, hres, fun row => hres.sat _ (length_keyOf.trans hn.symm)⟩
  rw [extractFromExpression, ytVerify_true hk]
  exact hrun

/-- A row on which the rewritten predicate is true satisfies the extracted
constraint exactly when the predicate, read on keys, keeps the row's key; no
row is lost when the key decides what stands under every `NOT`. -/
theorem extractFromExpression_keeps_row_iff (keyColumns : List String)
    {constraintExtractors : ConstraintExtractors} (e : Expression) (I : Interpretation)
    (hkeys : keyColumns ≠ []) (hcount : keyColumns.length ≤ sentinelColumnId)
    (hbuilt : WellBuilt constraintExtractors e) :
    ∃ result, (new keyColumns.length).extractFromExpression
      (some e.propagateNot) keyColumns constraintExtractors = .ok result ∧
      (∀ row, e.propagateNot.Holds I row → (result.1.Sat (keyOf keyColumns row) result.2 ↔
          Kept keyColumns e.propagateNot (keyOf keyColumns row))) ∧
      (notsExact keyColumns e.propagateNot = true →
        ∀ row, e.propagateNot.Holds I row → result.1.Sat (keyOf keyColumns row) result.2) := by
  have hbuilt' := (wellBuilt_propagateNot e hbuilt).1
  obtain ⟨result, hrun, -, hsat⟩ := extractFromExpression_spec keyColumns hkeys hcount hbuilt'
  refine ⟨result, hrun, fun row _ => hsat row, fun hexact row hholds => (hsat row).mpr ?_⟩
  exact kept_of_holds _ hbuilt' hexact hholds

section Examples

/-- `NOT ((a, v) IN ((1, 2)))`. -/
def notInExample : Expression :=
  .unaryOp .not (.inTuples [.reference .int64 "a", .reference .int64 "v"] [[.int64 1, .int64 2]])

theorem wellBuilt_notInExample : WellBuilt (fun _ => none) notInExample := fun _ =>
  ⟨pairwise_singleton _ _, by simp⟩

/-- With both columns in the key, the row `a = 1, v = 3` is kept. -/
theorem extractFromExpression_keeps_row_notIn :
    ∃ result, (new 2).extractFromExpression (some notInExample.propagateNot) ["a", "v"]
      (fun _ => none) = .ok result ∧ result.1.Sat [.int64 1, .int64 3] result.2 := by
  obtain ⟨result, hrun, -, hkeeps⟩ := extractFromExpression_keeps_row_iff ["a", "v"] notInExample
    nullInterpretation (by simp) (by decide) wellBuilt_notInExample
  have hrow := hkeeps (by decide) (fun name => if name = "a" then .int64 1 else .int64 3) (by
    rw [Expression.Holds]
    decide)
  exact ⟨result, hrun, by simpa [keyOf] using hrow⟩

/-- With only `a` in the key, `NOT ((a, v) IN ((1, 2)))` is true of the row
`a = 1, v = 3`, and its key is outside the extracted constraint. -/
theorem extractFromExpression_loses_row :
    WellBuilt (fun _ => none) notInExample ∧ notInExample.propagateNot.Holds nullInterpretation
        (fun name => if name = "a" then .int64 1 else .int64 3) ∧
      ∃ result, (new 1).extractFromExpression (some notInExample.propagateNot) ["a"]
        (fun _ => none) = .ok result ∧ ¬result.1.Sat [.int64 1] result.2 := by
  refine ⟨wellBuilt_notInExample, by rw [Expression.Holds]; decide, ?_⟩
  obtain ⟨result, hrun, -, hsat⟩ := extractFromExpression_spec ["a"] (by simp) (by decide)
    (wellBuilt_propagateNot _ wellBuilt_notInExample).1
  refine ⟨result, hrun, fun hkey => ?_⟩
  have hkept := (hsat fun _ => .int64 1).mp hkey
  -- the row `a = 1, v = 2` of the list has the same key
  have hin : InKept ["a"] (Expression.propagateNotAll [.reference .int64 "a", .reference .int64 "v"])
      [[.int64 1, .int64 2]] (keyOf ["a"] fun name => if name = "a" then .int64 1 else .int64 2) :=
    inKept_of_mem (I := nullInterpretation) (by decide)
  exact (hkept rfl).elim (by decide) fun hnot => hnot hin

end Examples

end Ytsaurus.Query
