/-
# The constraint of BETWEEN

What `ExtractFromExpression` makes of a `BETWEEN` expression: a key satisfies
the constraint of a range when its values at the collected key columns lie
between the bounds, compared over their common initial parts
(`betweenRange_spec`), and the constraint of all ranges when that is so for
one of them (`extractBetween_spec`).
-/
import Ytsaurus.Query.ConstraintAlgebra
import Ytsaurus.Query.ExtractConstraints

namespace Ytsaurus.Query.ConstraintsHolder

open List TableClient Lib ValueBound

variable {h h' : ConstraintsHolder Scalar} {col : ℕ} {next : ConstraintRef}

/-- What an extraction returns: a valid reference that the keys in `P` satisfy,
in a holder that has grown. -/
structure Extracted (h : ConstraintsHolder Scalar) (P : Key Scalar → Prop)
    (result : ConstraintsHolder Scalar × ConstraintRef) : Prop where
  grows : GrowsFrom proper 0 h result.1
  valid : result.1.Valid result.2
  sat : ∀ key : Key Scalar, key.length = h.columns.length → (result.1.Sat key result.2 ↔ P key)

variable {result : ConstraintsHolder Scalar × ConstraintRef}

theorem OpResult.extracted {P : Key Scalar → Prop} (hr : OpResult proper h col P result) :
    Extracted h P result :=
  ⟨hr.grows.mono (Nat.zero_le _), hr.valid, hr.sat⟩

theorem before_lt_after (value : Scalar) :
    (⟨.data value, false⟩ : ValueBound Scalar) < ⟨.data value, true⟩ := lt_after_iff.mpr le_rfl

theorem after_lt_maxBound (value : Scalar) (flag : Bool) :
    (⟨.data value, flag⟩ : ValueBound Scalar) < maxBound :=
  lt_iff.mpr (.inl (Value.data_lt_max _))

theorem minBound_lt_before (value : Scalar) (flag : Bool) :
    (minBound : ValueBound Scalar) < ⟨.data value, flag⟩ :=
  lt_iff.mpr (.inl (Value.min_lt_data _))

theorem after_lt_before {lower upper : Scalar} (hlt : lower < upper) :
    (⟨.data lower, true⟩ : ValueBound Scalar) < ⟨.data upper, false⟩ :=
  lt_iff.mpr (.inl (Value.data_lt_data.mpr hlt))

/-! ### The steps of a chain -/

theorem itemOk_value (value : Scalar) (hv : h.Valid next) (hafter : col < next.columnId) :
    ItemOk proper h col (.ofBounds ⟨.data value, false⟩ ⟨.data value, true⟩ next) :=
  itemOk_ofBounds (before_lt_after _) (data_mem_proper _ _) (data_mem_proper _ _) hv hafter

theorem itemOk_free {lower upper : ValueBound Scalar} (hwf : WellFormed proper h)
    (hcol : col < h.columns.length) (hlt : lower < upper) (hl : lower ∈ proper)
    (hu : upper ∈ proper) : ItemOk proper h col (.ofBounds lower upper .universal) :=
  itemOk_ofBounds hlt hl hu valid_universal (hcol.trans_le hwf.columnCount)

section

variable (value : Scalar) (hwf : WellFormed proper h) (hcol : col < h.columns.length)
  (hv : h.Valid next)
  (hafter : col < next.columnId)

include value hwf hcol hv hafter

theorem appendExact_spec :
    ∃ result, h.appendExact col value next = .ok result ∧ OpResult proper h col
        (fun key => ∃ v, key[col]? = some v ∧ value = v ∧ h.Sat key next) result := by
  refine ⟨_, by rw [appendExact, Constraint.make_eq (before_lt_after _)]; rfl, ?_⟩
  refine (append_spec hwf hcol (forall_mem_singleton.mpr (itemOk_value value hv hafter))
    (pairwise_singleton _ _)).congr rfl fun key => exists_congr fun v => and_congr_right fun _ => ?_
  simp [coveredBy_singleton, ← le_antisymm_iff]

theorem appendFrom_spec :
    ∃ result, h.appendFrom col value next = .ok result ∧
      OpResult proper h col
        (fun key => ∃ v, key[col]? = some v ∧ (value < v ∨ value = v ∧ h.Sat key next)) result := by
  refine ⟨_, by
    rw [appendFrom, Constraint.make_eq (before_lt_after _), ok_bind,
      Constraint.make_eq (after_lt_maxBound _ _)]
    rfl, ?_⟩
  have habove := itemOk_free hwf hcol (after_lt_maxBound value true)
    (data_mem_proper _ _) maxBound_mem_proper
  refine (append_spec hwf hcol
    (forall_mem_cons.mpr ⟨itemOk_value value hv hafter, forall_mem_singleton.mpr habove⟩)
    (pairwise_pair.mpr le_rfl)).congr rfl fun key => exists_congr fun v =>
      and_congr_right fun _ => ?_
  simp [CoveredBy, IntervalList.covered_cons, ← le_antisymm_iff, sat_universal,
    point_lt_maxBound, or_comm]

theorem appendUpTo_spec :
    ∃ result, h.appendUpTo col value next = .ok result ∧
      OpResult proper h col
        (fun key => ∃ v, key[col]? = some v ∧ (v < value ∨ v = value ∧ h.Sat key next)) result := by
  refine ⟨_, by
    rw [appendUpTo, Constraint.make_eq (minBound_lt_before _ _), ok_bind,
      Constraint.make_eq (before_lt_after _)]
    rfl, ?_⟩
  have hbelow := itemOk_free hwf hcol (minBound_lt_before value false) minBound_mem_proper
    (data_mem_proper _ _)
  refine (append_spec hwf hcol
    (forall_mem_cons.mpr ⟨hbelow, forall_mem_singleton.mpr (itemOk_value value hv hafter)⟩)
    (pairwise_pair.mpr le_rfl)).congr rfl fun key => exists_congr fun v =>
      and_congr_right fun _ => ?_
  simp [CoveredBy, IntervalList.covered_cons, ← le_antisymm_iff, sat_universal,
    minBound_le, eq_comm]

end

theorem appendBetween_spec {lower upper : Scalar} {lowerNext upperNext : ConstraintRef}
    (hlt : lower < upper) (hwf : WellFormed proper h) (hcol : col < h.columns.length)
    (hl : h.Valid lowerNext) (hu : h.Valid upperNext)
    (hlowerAfter : col < lowerNext.columnId) (hupperAfter : col < upperNext.columnId) :
    ∃ result, h.appendBetween col lower upper lowerNext upperNext = .ok result ∧
      OpResult proper h col
        (fun key => ∃ v, key[col]? = some v ∧ (lower < v ∨ lower = v ∧ h.Sat key lowerNext) ∧
          (v < upper ∨ v = upper ∧ h.Sat key upperNext)) result := by
  refine ⟨_, by
    rw [appendBetween, Constraint.make_eq (before_lt_after _), ok_bind,
      Constraint.make_eq (after_lt_before hlt), ok_bind, Constraint.make_eq (before_lt_after _)]
    rfl, ?_⟩
  have hinner := itemOk_free hwf hcol (after_lt_before hlt) (data_mem_proper _ _)
    (data_mem_proper _ _)
  refine (append_spec hwf hcol (forall_mem_cons.mpr ⟨itemOk_value lower hl hlowerAfter,
    forall_mem_cons.mpr ⟨hinner, forall_mem_singleton.mpr (itemOk_value upper hu hupperAfter)⟩⟩)
      ?_).congr rfl fun key => ?_
  · have := (after_lt_before hlt).le
    simp [IntervalList.Sorted, this]
  · refine exists_congr fun v => and_congr_right fun _ => ?_
    simp only [CoveredBy, IntervalList.covered_cons, Constraint.getLowerBound_ofBounds,
      Constraint.getUpperBound_ofBounds, Constraint.next_ofBounds, before_le_point, point_lt_after,
        after_le_point,
      point_lt_before, sat_universal, and_true, IntervalList.not_covered_nil, or_false]
    rcases lt_trichotomy lower v with h1 | rfl | h1
    · rcases lt_trichotomy v upper with h2 | rfl | h2
      · simp [h1, h1.not_ge, h2, h2.not_ge]
      · simp [h1, h1.not_ge]
      · simp [h1.not_ge, h2.not_ge, h2.not_gt, h2.ne']
    · simp [hlt, hlt.not_ge]
    · simp [h1.not_ge, h1.not_gt, h1.ne', (h1.trans hlt).not_ge]

/-! ### Tuples over their common initial parts -/

/-- The values of a key at some key columns. -/
def keyValuesAt (ids : List ℕ) (key : Key Scalar) : Tuple := ids.map fun c => key.getD c .null

theorem lePrefix_nil_left (b : Tuple) : lePrefix [] b = true := by cases b <;> rfl

theorem lePrefix_nil_right (a : Tuple) : lePrefix a [] = true := by cases a <;> rfl

theorem Tuple.drop_eq {t : Tuple} {i : ℕ} (hi : i < t.length) :
    t.drop i = t.at i :: t.drop (i + 1) := by
  rw [drop_eq_getElem_cons hi, Tuple.at, getD_eq_getElem _ _ hi]

theorem lePrefix_drop {a b : Tuple} {i : ℕ} (ha : i < a.length) (hb : i < b.length) :
    lePrefix (a.drop i) (b.drop i) = true ↔
      a.at i < b.at i ∨ a.at i = b.at i ∧ lePrefix (a.drop (i + 1)) (b.drop (i + 1)) = true := by
  rw [Tuple.drop_eq ha, Tuple.drop_eq hb]
  simp [lePrefix]

theorem equalPrefixLength_le : ∀ lower upper : Tuple,
    equalPrefixLength lower upper ≤ lower.length ∧ equalPrefixLength lower upper ≤ upper.length
  | [], _ | _ :: _, [] => by simp [equalPrefixLength]
  | l :: lower, u :: upper => by
    have ih := equalPrefixLength_le lower upper
    simp only [equalPrefixLength]
    split_ifs <;> simp [ih]

theorem at_eq_of_lt_equalPrefix :
    ∀ (lower upper : Tuple) (i : ℕ), i < equalPrefixLength lower upper → lower.at i = upper.at i
  | [], _, i, hi | _ :: _, [], i, hi => by simp [equalPrefixLength] at hi
  | l :: lower, u :: upper, i, hi => by
    simp only [equalPrefixLength] at hi
    split_ifs at hi with hlu
    · cases i with
      | zero => simpa [Tuple.at] using hlu
      | succ i =>
        have := at_eq_of_lt_equalPrefix lower upper i (by omega)
        simpa [Tuple.at] using this
    · omega

theorem at_lt_of_equalPrefix : ∀ lower upper : Tuple, lePrefix lower upper = true →
    equalPrefixLength lower upper < lower.length → equalPrefixLength lower upper < upper.length →
      lower.at (equalPrefixLength lower upper) < upper.at (equalPrefixLength lower upper)
  | [], _, _, hl, _ => by simp at hl
  | _ :: _, [], _, _, hu => by simp at hu
  | l :: lower, u :: upper, hle, hl, hu => by
    simp only [lePrefix, Bool.or_eq_true, Bool.and_eq_true, decide_eq_true_eq] at hle
    simp only [equalPrefixLength] at hl hu ⊢
    split_ifs at hl hu ⊢ with hlu
    · subst hlu
      have hle' : lePrefix lower upper = true := by simpa using hle
      have := at_lt_of_equalPrefix lower upper hle' (by simpa using hl) (by simpa using hu)
      simpa [Tuple.at] using this
    · have : l < u := by tauto
      simpa [Tuple.at] using this

/-! ### The chains of one range -/

/-- A reference that can be the `Next` of an interval at any of the first `i`
of the key columns, and that the keys in `P` satisfy. -/
structure RefOk (h : ConstraintsHolder Scalar) (ids : List ℕ) (i : ℕ) (P : Key Scalar → Prop)
    (ref : ConstraintRef) : Prop where
  valid : h.Valid ref
  after : ∀ c ∈ ids.take i, c < ref.columnId
  sat : ∀ key : Key Scalar, key.length = h.columns.length → (h.Sat key ref ↔ P key)

section

variable {ids : List ℕ} {i : ℕ} {P Q : Key Scalar → Prop} {ref : ConstraintRef}
  {lower upper : Tuple}

theorem RefOk.grows (hwf : WellFormed proper h) (hr : RefOk h ids i P ref)
    (hg : GrowsFrom proper col h h') : RefOk h' ids i P ref :=
  ⟨hg.valid hr.valid, hr.after, fun key hk => by
    rw [hg.sat_iff hwf hr.valid, hr.sat key (hk.trans hg.length_eq)]⟩

theorem RefOk.congr (hr : RefOk h ids i P ref)
    (hPQ : ∀ key : Key Scalar, key.length = h.columns.length →
    (P key ↔ Q key)) : RefOk h ids i Q ref :=
  ⟨hr.valid, hr.after, fun key hk => (hr.sat key hk).trans (hPQ key hk)⟩

theorem RefOk.prev (hr : RefOk h ids (i + 1) P ref) : RefOk h ids i P ref :=
  ⟨hr.valid, fun c hc => hr.after c (take_subset_take_left _ (Nat.le_succ i) hc), hr.sat⟩

/-- Columns of a well-formed holder, in the order of the key. -/
structure Ordered (ids : List ℕ) (h : ConstraintsHolder Scalar) : Prop where
  sorted : ids.Pairwise (· < ·)
  lt : ∀ c ∈ ids, c < h.columns.length
  wf : WellFormed proper h

section

variable (ho : Ordered ids h)

include ho

theorem Ordered.grows (hg : GrowsFrom proper col h h') : Ordered ids h' :=
  ⟨ho.sorted, fun c hc => (ho.lt c hc).trans_eq hg.length_eq.symm, hg.wf⟩

theorem Ordered.universal (hP : ∀ key, P key) : RefOk h ids i P .universal :=
  ⟨valid_universal, fun c hc => (ho.lt c (mem_of_mem_take hc)).trans_le ho.wf.columnCount,
    fun key _ => iff_of_true sat_universal (hP key)⟩

variable (hi : i < ids.length)

include hi

theorem Ordered.after : ∀ c ∈ ids.take i, c < ids.getD i 0 := by
  intro c hc
  obtain ⟨j, hj, rfl⟩ := mem_iff_getElem.mp hc
  rw [length_take] at hj
  rw [getD_eq_getElem _ _ hi, getElem_take]
  exact pairwise_iff_getElem.mp ho.sorted j i (by omega) hi (by omega)

theorem Ordered.getD_lt : ids.getD i 0 < h.columns.length := by
  rw [getD_eq_getElem _ _ hi]
  exact ho.lt _ (getElem_mem hi)

theorem Ordered.ne_sentinel : ids.getD i 0 ≠ sentinelColumnId :=
  ((ho.getD_lt hi).trans_le ho.wf.columnCount).ne

theorem OpResult.refOk (hr : OpResult proper h (ids.getD i 0) P result) :
    RefOk result.1 ids i P result.2 :=
  ⟨hr.valid, hr.columnId_eq ▸ ho.after hi, fun key hk => hr.sat key (hk.trans hr.grows.length_eq)⟩

theorem Ordered.getElem?_getD {key : Key Scalar} (hk : key.length = h.columns.length) :
      key[ids.getD i 0]? = some ((keyValuesAt ids key).at i) := by
  have hc : ids.getD i 0 < key.length := hk ▸ ho.getD_lt hi
  have hat : (keyValuesAt ids key).at i = key.getD (ids.getD i 0) .null := by
    simp [Tuple.at, keyValuesAt, getD_eq_getElem?_getD, hi]
  rw [hat, getElem?_eq_getElem hc, getD_eq_getElem _ _ hc]

end

/-- What the lower (upper) chain from position `i` on asks of a key. -/
def LowerFrom (ids : List ℕ) (lower : Tuple) (i : ℕ) (key : Key Scalar) : Prop :=
  lePrefix (lower.drop i) ((keyValuesAt ids key).drop i) = true

def UpperFrom (ids : List ℕ) (upper : Tuple) (i : ℕ) (key : Key Scalar) : Prop :=
  lePrefix ((keyValuesAt ids key).drop i) (upper.drop i) = true

theorem length_keyValuesAt (key : Key Scalar) : (keyValuesAt ids key).length = ids.length :=
  length_map _

theorem lowerFrom_of_le (hi : lower.length ≤ i) (key : Key Scalar) : LowerFrom ids lower i key := by
  rw [LowerFrom, drop_eq_nil_of_le hi, lePrefix_nil_left]

theorem upperFrom_of_le (hi : upper.length ≤ i) (key : Key Scalar) : UpperFrom ids upper i key := by
  rw [UpperFrom, drop_eq_nil_of_le hi, lePrefix_nil_right]

theorem lowerFrom_last (key : Key Scalar) : LowerFrom ids lower ids.length key := by
  rw [LowerFrom, drop_eq_nil_of_le (length_keyValuesAt key).le, lePrefix_nil_right]

theorem upperFrom_last (key : Key Scalar) : UpperFrom ids upper ids.length key := by
  rw [UpperFrom, drop_eq_nil_of_le (length_keyValuesAt key).le, lePrefix_nil_left]

theorem lowerFrom_iff (hi : i < ids.length) (hl : i < lower.length) (key : Key Scalar) :
    LowerFrom ids lower i key ↔ lower.at i < (keyValuesAt ids key).at i ∨
      lower.at i = (keyValuesAt ids key).at i ∧ LowerFrom ids lower (i + 1) key :=
  lePrefix_drop hl (hi.trans_eq (length_keyValuesAt key).symm)

theorem upperFrom_iff (hi : i < ids.length) (hu : i < upper.length) (key : Key Scalar) :
    UpperFrom ids upper i key ↔ (keyValuesAt ids key).at i < upper.at i ∨
      (keyValuesAt ids key).at i = upper.at i ∧ UpperFrom ids upper (i + 1) key :=
  lePrefix_drop (hi.trans_eq (length_keyValuesAt key).symm) hu

end

section

variable {ids : List ℕ} {i : ℕ} {lower upper t : Tuple}
  {cur currentLower currentUpper : ConstraintRef}
  {F G : Key Scalar → Prop} {run : Result (ConstraintsHolder Scalar × ConstraintRef)}

theorem RefOk.getD_lt_columnId {P : Key Scalar → Prop} (hr : RefOk h ids (i + 1) P cur)
    (hi : i < ids.length) : ids.getD i 0 < cur.columnId := by
  refine hr.after _ ?_
  rw [getD_eq_getElem _ _ hi]
  exact mem_take_iff_getElem.mpr ⟨i, by omega, rfl⟩

theorem chainStep_spec (ho : Ordered ids h) (hi : i < ids.length) (hc : RefOk h ids (i + 1) G cur)
    (hrun : i < t.length → ∃ P result, run = .ok result ∧ OpResult proper h (ids.getD i 0) P result ∧
      ∀ key : Key Scalar, key.length = h.columns.length → (P key ↔ F key))
    (hd : t.length ≤ i → ∀ key, F key ∧ G key) :
    ∃ result, (if i < t.length then run else pure (h, cur)) = .ok result ∧
      GrowsFrom proper 0 h result.1 ∧ RefOk result.1 ids i F result.2 ∧
      (i < t.length → result.2.columnId = ids.getD i 0) := by
  by_cases ht : i < t.length
  · obtain ⟨P, result, hok, hres, hPF⟩ := hrun ht
    refine ⟨result, by rw [if_pos ht, hok], hres.grows.mono (Nat.zero_le _),
      (hres.refOk ho hi).congr ?_, fun _ => hres.columnId_eq⟩
    exact fun key hk => hPF key (hk.trans hres.grows.length_eq)
  · refine ⟨(h, cur), by rw [if_neg ht]; rfl, GrowsFrom.refl ho.wf, hc.prev.congr fun key _ => ?_,
      fun hlt => absurd hlt ht⟩
    exact iff_of_true (hd (by omega) key).2 (hd (by omega) key).1

section

variable (ho : Ordered ids h) (hi : i < ids.length)

include ho hi

theorem lowerStep_spec (hc : RefOk h ids (i + 1) (LowerFrom ids lower (i + 1)) cur) :
    ∃ result, lowerStep ids lower i h cur = .ok result ∧ GrowsFrom proper 0 h result.1 ∧
      RefOk result.1 ids i (LowerFrom ids lower i) result.2 ∧
      (i < lower.length → result.2.columnId = ids.getD i 0) := by
  refine chainStep_spec ho hi hc (fun hl => ?_) fun hl key =>
    ⟨lowerFrom_of_le hl key, lowerFrom_of_le (by omega) key⟩
  obtain ⟨result, hrun, hres⟩ := appendFrom_spec (lower.at i) ho.wf (ho.getD_lt hi) hc.valid
    (hc.getD_lt_columnId hi)
  refine ⟨_, result, hrun, hres, fun key hk => ?_⟩
  rw [ho.getElem?_getD hi hk, lowerFrom_iff hi hl, hc.sat key hk]
  simp

theorem upperStep_spec (hc : RefOk h ids (i + 1) (UpperFrom ids upper (i + 1)) cur) :
    ∃ result, upperStep ids upper i h cur = .ok result ∧ GrowsFrom proper 0 h result.1 ∧
      RefOk result.1 ids i (UpperFrom ids upper i) result.2 ∧
      (i < upper.length → result.2.columnId = ids.getD i 0) := by
  refine chainStep_spec ho hi hc (fun hu => ?_) fun hu key =>
    ⟨upperFrom_of_le hu key, upperFrom_of_le (by omega) key⟩
  obtain ⟨result, hrun, hres⟩ := appendUpTo_spec (upper.at i) ho.wf (ho.getD_lt hi) hc.valid
    (hc.getD_lt_columnId hi)
  refine ⟨_, result, hrun, hres, fun key hk => ?_⟩
  rw [ho.getElem?_getD hi hk, upperFrom_iff hi hu, hc.sat key hk]
  simp

end

variable (lower upper) in
theorem betweenChains_spec (stop : ℕ) : ∀ (i : ℕ) (h : ConstraintsHolder Scalar)
    (currentLower currentUpper : ConstraintRef), i ≤ ids.length → Ordered ids h →
      RefOk h ids i (LowerFrom ids lower i) currentLower →
      RefOk h ids i (UpperFrom ids upper i) currentUpper →
      ∃ h' lowerRef upperRef, betweenChains ids lower upper stop i h currentLower currentUpper =
          .ok (h', lowerRef, upperRef) ∧ GrowsFrom proper 0 h h' ∧
        RefOk h' ids (min i stop) (LowerFrom ids lower (min i stop)) lowerRef ∧
        RefOk h' ids (min i stop) (UpperFrom ids upper (min i stop)) upperRef
  | 0, h, cl, cu, _, ho, hl, hu =>
    ⟨h, cl, cu, rfl, GrowsFrom.refl ho.wf, by simpa using hl, by simpa using hu⟩
  | i + 1, h, cl, cu, hi, ho, hl, hu => by
    rw [betweenChains]
    by_cases hs : stop < i + 1
    · obtain ⟨⟨h1, cl1⟩, hrun1, hg1, hl1, -⟩ := lowerStep_spec ho (by omega) hl
      obtain ⟨⟨h2, cu2⟩, hrun2, hg2, hu2, -⟩ :=
        upperStep_spec (ho.grows hg1) (by omega) (hu.grows ho.wf hg1)
      obtain ⟨h3, lr, ur, hrun3, hg3, hl3, hu3⟩ := betweenChains_spec stop i h2 cl1 cu2 (by omega)
        ((ho.grows hg1).grows hg2) (hl1.grows hg1.wf hg2) hu2
      have hm : min (i + 1) stop = min i stop := by omega
      refine ⟨h3, lr, ur, ?_, (hg1.trans hg2).trans hg3, hm ▸ hl3, hm ▸ hu3⟩
      simp only [hs, ↓reduceIte, hrun1, ok_bind, hrun2, hrun3]
    · have hm : min (i + 1) stop = i + 1 := by omega
      exact ⟨h, cl, cu, by rw [if_neg hs]; rfl, GrowsFrom.refl ho.wf, by rwa [hm], by rwa [hm]⟩

theorem betweenMiddle_spec (ho : Ordered ids h) (hi : i < ids.length)
    (hm : i < lower.length → i < upper.length → lower.at i < upper.at i)
    (hl : RefOk h ids (i + 1) (LowerFrom ids lower (i + 1)) currentLower)
    (hu : RefOk h ids (i + 1) (UpperFrom ids upper (i + 1)) currentUpper) :
    ∃ result, betweenMiddle ids lower upper i h currentLower currentUpper = .ok result ∧
      GrowsFrom proper 0 h result.1 ∧ RefOk result.1 ids i
        (fun key => LowerFrom ids lower i key ∧ UpperFrom ids upper i key) result.2 ∧
      (result.2.columnId = sentinelColumnId ↔ lower.length ≤ i ∧ upper.length ≤ i) := by
  have hne := ho.ne_sentinel hi
  unfold betweenMiddle
  by_cases hli : i < lower.length
  · by_cases hui : i < upper.length
    · obtain ⟨result, hrun, hres⟩ := appendBetween_spec (hm hli hui) ho.wf
        (ho.getD_lt hi) hl.valid hu.valid (hl.getD_lt_columnId hi) (hu.getD_lt_columnId hi)
      refine ⟨result, by rw [if_pos ⟨hli, hui⟩, hrun], hres.grows.mono (Nat.zero_le _),
        (hres.refOk ho hi).congr fun key hk => ?_, iff_of_false (hres.columnId_eq ▸ hne) (by omega)⟩
      rw [hres.grows.length_eq] at hk
      rw [ho.getElem?_getD hi hk, lowerFrom_iff hi hli, upperFrom_iff hi hui, hl.sat key hk,
        hu.sat key hk]
      simp
    · obtain ⟨result, hrun, hg, hres, hcol⟩ := lowerStep_spec ho hi hl
      rw [lowerStep, if_pos hli] at hrun
      refine ⟨result, by rw [if_neg (by tauto), if_pos hli, hrun], hg, hres.congr fun key _ => ?_,
        iff_of_false (hcol hli ▸ hne) (by omega)⟩
      rw [and_iff_left (upperFrom_of_le (by omega) key)]
  · rw [if_neg (by tauto), if_neg hli]
    obtain ⟨result, hrun, hg, hres, hcol⟩ := upperStep_spec ho hi hu
    by_cases hui : i < upper.length
    · rw [upperStep, if_pos hui] at hrun
      refine ⟨result, by rw [if_pos hui, hrun], hg, hres.congr fun key _ => ?_,
        iff_of_false (hcol hui ▸ hne) (by omega)⟩
      rw [and_iff_right (lowerFrom_of_le (by omega) key)]
    · refine ⟨(h, .universal), by rw [if_neg hui]; rfl, GrowsFrom.refl ho.wf,
        ho.universal fun key => ?_, iff_of_true rfl (by omega)⟩
      exact ⟨lowerFrom_of_le (by omega) key, upperFrom_of_le (by omega) key⟩

variable (lower upper) in
theorem betweenEqual_spec : ∀ (i : ℕ) (h : ConstraintsHolder Scalar) (cur : ConstraintRef),
    i ≤ ids.length → i ≤ equalPrefixLength lower upper → Ordered ids h →
      RefOk h ids i (fun key => LowerFrom ids lower i key ∧ UpperFrom ids upper i key) cur →
      ∃ result, betweenEqual ids lower upper i h cur = .ok result ∧ GrowsFrom proper 0 h result.1 ∧
        RefOk result.1 ids 0 (fun key => LowerFrom ids lower 0 key ∧
          UpperFrom ids upper 0 key) result.2 ∧
        (result.2.columnId = sentinelColumnId ↔ i = 0 ∧ cur.columnId = sentinelColumnId)
  | 0, h, cur, _, _, ho, hcurrent => ⟨(h, cur), rfl, GrowsFrom.refl ho.wf, hcurrent, by simp⟩
  | i + 1, h, cur, hi, heq, ho, hcurrent => by
    have hat := at_eq_of_lt_equalPrefix lower upper i (by omega)
    obtain ⟨hle1, hle2⟩ := equalPrefixLength_le lower upper
    obtain ⟨⟨h1, ref1⟩, hrun1, hres1⟩ := appendExact_spec (lower.at i) ho.wf
      (ho.getD_lt hi) hcurrent.valid (hcurrent.getD_lt_columnId hi)
    have hg1 := hres1.grows.mono (Nat.zero_le _)
    have hcurrent1 : RefOk h1 ids i
        (fun key => LowerFrom ids lower i key ∧ UpperFrom ids upper i key) ref1 := by
      refine (hres1.refOk ho hi).congr fun key hk => ?_
      rw [hres1.grows.length_eq] at hk
      rw [ho.getElem?_getD hi hk, lowerFrom_iff hi (by omega), upperFrom_iff hi (by omega),
        hcurrent.sat key hk, ← hat]
      rcases lt_trichotomy (lower.at i) ((keyValuesAt ids key).at i) with h1 | h1 | h1
      · simp [h1, h1.ne, h1.not_gt, h1.ne']
      · simp [h1]
      · simp [h1.ne, h1.ne', h1.not_gt]
    obtain ⟨result, hrun, hg, hres, hcol⟩ :=
      betweenEqual_spec i h1 ref1 (by omega) (by omega) (ho.grows hg1) hcurrent1
    have hne : ref1.columnId ≠ sentinelColumnId := hres1.columnId_eq ▸ ho.ne_sentinel hi
    refine ⟨result, ?_, hg1.trans hg, hres, by simp [hcol, hne]⟩
    simp only [betweenEqual, ytVerify_true hat, ok_bind, hrun1, hrun]

/-- The constraint of a range: the key's values lie between the bounds. -/
theorem betweenRange_spec (ho : Ordered ids h) (hids : ids ≠ [])
    (hle : lePrefix lower upper = true) : ∃ result, betweenRange ids lower upper h = .ok result ∧
      Extracted h (fun key => lePrefix lower (keyValuesAt ids key) = true ∧
        lePrefix (keyValuesAt ids key) upper = true) result ∧
      (result.2.columnId = sentinelColumnId ↔ lower = [] ∧ upper = []) := by
  have hlen0 := length_pos_iff.mpr hids
  obtain ⟨hle1, hle2⟩ := equalPrefixLength_le lower upper
  obtain ⟨h1, lr, ur, hrun1, hg1, hl1, hu1⟩ := betweenChains_spec lower upper
    (equalPrefixLength lower upper + 1) ids.length h .universal .universal le_rfl ho
    (ho.universal lowerFrom_last) (ho.universal upperFrom_last)
  have ho1 := ho.grows hg1
  simp only [betweenRange, hrun1, ok_bind]
  by_cases hlen : equalPrefixLength lower upper + 1 ≤ ids.length
  · rw [if_pos hlen]
    rw [min_eq_right hlen] at hl1 hu1
    obtain ⟨⟨h2, ref2⟩, hrun2, hg2, hres2, hcol2⟩ := betweenMiddle_spec ho1 (by omega)
      (at_lt_of_equalPrefix lower upper hle) hl1 hu1
    obtain ⟨result, hrun3, hg3, hres3, hcol3⟩ :=
      betweenEqual_spec lower upper _ h2 ref2 (by omega) le_rfl (ho1.grows hg2) hres2
    have hg := (hg1.trans hg2).trans hg3
    refine ⟨result, by rw [hrun2, ok_bind]; exact hrun3, ⟨hg, hres3.valid, fun key hk => ?_⟩, ?_⟩
    · exact hres3.sat key (hk.trans hg.length_eq.symm)
    · rw [hcol3, hcol2, ← length_eq_zero_iff, ← length_eq_zero_iff]
      omega
  · rw [if_neg hlen]
    obtain ⟨result, hrun3, hg3, hres3, hcol3⟩ := betweenEqual_spec lower upper ids.length h1
      .universal le_rfl (by omega) ho1
        (ho1.universal fun key => ⟨lowerFrom_last key, upperFrom_last key⟩)
    have hg := hg1.trans hg3
    refine ⟨result, hrun3, ⟨hg, hres3.valid, fun key hk => ?_⟩, ?_⟩
    · exact hres3.sat key (hk.trans hg.length_eq.symm)
    · rw [hcol3, ← length_eq_zero_iff, ← length_eq_zero_iff]
      omega

end

/-! ### All ranges -/

theorem min_eq_sentinel {l r : ConstraintRef} (hwf : WellFormed proper h) (hl : h.Valid l)
    (hr : h.Valid r) :
    min l.columnId r.columnId = sentinelColumnId ↔ l.columnId = sentinelColumnId ∧
      r.columnId = sentinelColumnId := by
  have h1 := hl.columnId_le hwf
  have h2 := hr.columnId_le hwf
  omega

/-- References that together stand for others: the same keys satisfy one of
them, and they are all universal if the others are. -/
structure Covers (h : ConstraintsHolder Scalar) (refs : List ConstraintRef)
    (h' : ConstraintsHolder Scalar) (refs' : List ConstraintRef) : Prop where
  grows : GrowsFrom proper 0 h h'
  valid : ∀ ref ∈ refs', h'.Valid ref
  sat : ∀ key : Key Scalar, key.length = h.columns.length →
    ((∃ ref ∈ refs', h'.Sat key ref) ↔ ∃ ref ∈ refs, h.Sat key ref)
  universal : (∀ ref ∈ refs', ref.columnId = sentinelColumnId) ↔
    ∀ ref ∈ refs, ref.columnId = sentinelColumnId

theorem Covers.refl {refs : List ConstraintRef} (hwf : WellFormed proper h)
    (hv : ∀ ref ∈ refs, h.Valid ref) : Covers h refs h refs :=
  ⟨GrowsFrom.refl hwf, hv, fun _ _ => Iff.rfl, Iff.rfl⟩

theorem unitePairs_spec : ∀ (refs : List ConstraintRef) (h : ConstraintsHolder Scalar),
    WellFormed proper h → (∀ ref ∈ refs, h.Valid ref) →
    ∃ h' refs', unitePairs refs h = .ok (h', refs') ∧ refs'.length = (refs.length + 1) / 2 ∧
      Covers h refs h' refs'
  | [], h, hwf, hv => ⟨h, [], rfl, rfl, Covers.refl hwf hv⟩
  | [ref], h, hwf, hv => ⟨h, [ref], rfl, by simp, Covers.refl hwf hv⟩
  | l :: r :: refs, h, hwf, hv => by
    obtain ⟨hl, hr, hrefs⟩ := by simpa only [forall_mem_cons] using hv
    obtain ⟨⟨h1, ref1⟩, hrun1, hres1⟩ := unite_spec hwf minBound_mem_proper maxBound_mem_proper hl hr
    have hg1 := hres1.grows.mono (Nat.zero_le _)
    obtain ⟨h2, refs2, hrun2, hlen2, hc⟩ := unitePairs_spec refs h1 hg1.wf fun ref hm =>
      hg1.valid (hrefs ref hm)
    refine ⟨h2, ref1 :: refs2, by simp only [unitePairs, hrun1, ok_bind, hrun2]; rfl, ?_,
      hg1.trans hc.grows, ?_, ?_, ?_⟩
    · simp only [length_cons, hlen2]
      omega
    · exact forall_mem_cons.mpr ⟨hc.grows.valid hres1.valid, hc.valid⟩
    · intro key hkey
      have hkey1 : key.length = h1.columns.length := hkey.trans hg1.length_eq.symm
      have hrest : (∃ ref ∈ refs, h1.Sat key ref) ↔ ∃ ref ∈ refs, h.Sat key ref :=
        exists_congr fun ref => and_congr_right fun hm => hg1.sat_iff hwf (hrefs ref hm)
      simp only [mem_cons, exists_eq_or_imp, hc.sat key hkey1, hrest]
      rw [hc.grows.sat_iff hg1.wf hres1.valid, hres1.sat key hkey, or_assoc]
    · have hcol : ref1.columnId = sentinelColumnId ↔
          l.columnId = sentinelColumnId ∧ r.columnId = sentinelColumnId := by
        rw [hres1.columnId_eq]
        exact min_eq_sentinel hwf hl hr
      simp only [forall_mem_cons, hc.universal, hcol, and_assoc]

theorem uniteAll_spec : ∀ (fuel : ℕ) (refs : List ConstraintRef) (h : ConstraintsHolder Scalar),
    WellFormed proper h → refs ≠ [] → refs.length ≤ fuel + 1 → (∀ ref ∈ refs, h.Valid ref) →
    ∃ h' ref, uniteAll fuel refs h = .ok (h', ref) ∧ Covers h refs h' [ref]
  | _, [], _, _, hne, _, _ => absurd rfl hne
  | fuel, [ref], h, hwf, _, _, hv => ⟨h, ref, by cases fuel <;> rfl, Covers.refl hwf hv⟩
  | 0, l :: r :: refs, _, _, _, hf, _ => by simp at hf
  | fuel + 1, l :: r :: refs, h, hwf, _, hf, hv => by
    obtain ⟨h1, refs1, hrun1, hl, hc1⟩ := unitePairs_spec (l :: r :: refs) h hwf hv
    simp only [length_cons] at hl hf
    obtain ⟨h2, ref, hrun2, hc2⟩ := uniteAll_spec fuel refs1 h1 hc1.grows.wf
      (ne_nil_of_length_pos (by omega)) (by omega) hc1.valid
    refine ⟨h2, ref, by simp only [uniteAll, hrun1, ok_bind, hrun2], hc1.grows.trans hc2.grows,
      hc2.valid, ?_, ?_⟩
    · intro key hk
      rw [hc2.sat key (hk.trans hc1.grows.length_eq.symm), hc1.sat key hk]
    · rw [hc2.universal, hc1.universal]

/-! ### What is kept of BETWEEN -/

theorem keyPartOf_lt {keyColumns : List String} {e : Expression} {k : ℕ}
    (hk : keyPartOf keyColumns e = some k) : k < keyColumns.length := by
  cases e <;> simp only [keyPartOf, reduceCtorEq] at hk
  exact (findIdx?_eq_some_iff_findIdx_eq.mp hk).1

/-- What the constraint of a `BETWEEN` expression keeps of it: the key's values
at the collected columns lie in a range. -/
def BetweenKept (keyColumns : List String) (arguments : List Expression)
    (ranges : List (Tuple × Tuple)) (key : Key Scalar) : Prop :=
  betweenKeyColumnIds keyColumns none arguments = [] ∨ ∃ range ∈ ranges,
    lePrefix range.1 (keyValuesAt (betweenKeyColumnIds keyColumns none arguments) key) = true ∧
      lePrefix (keyValuesAt (betweenKeyColumnIds keyColumns none arguments) key) range.2 = true

/-- The constraint of a `BETWEEN` expression is the universal one. -/
def betweenUniversal (keyColumns : List String) (arguments : List Expression)
    (ranges : List (Tuple × Tuple)) : Bool :=
  (betweenKeyColumnIds keyColumns none arguments).isEmpty || ranges.all fun range =>
    range.1.isEmpty && range.2.isEmpty

theorem betweenRanges_spec {ids : List ℕ} (hids : ids ≠ []) : ∀ (ranges : List (Tuple × Tuple))
    (h : ConstraintsHolder Scalar), Ordered ids h →
    (∀ range ∈ ranges, lePrefix range.1 range.2 = true) →
      ∃ h' refs, betweenRanges ids ranges h = .ok (h', refs) ∧ refs.length = ranges.length ∧
        GrowsFrom proper 0 h h' ∧ (∀ ref ∈ refs, h'.Valid ref) ∧
        (∀ key : Key Scalar, key.length = h.columns.length →
          ((∃ ref ∈ refs, h'.Sat key ref) ↔ ∃ range ∈ ranges, lePrefix range.1
              (keyValuesAt ids key) = true ∧ lePrefix (keyValuesAt ids key) range.2 = true)) ∧
        ((∀ ref ∈ refs, ref.columnId = sentinelColumnId) ↔ ∀ range ∈ ranges, range.1 = [] ∧
          range.2 = [])
  | [], h, ho, _ => ⟨h, [], rfl, rfl, GrowsFrom.refl ho.wf, by simp, by simp, by simp⟩
  | (lower, upper) :: ranges, h, ho, hle => by
    obtain ⟨⟨h1, ref1⟩, hrun1, hres1, hcol1⟩ := betweenRange_spec ho hids (hle (lower, upper) (by simp))
    have hg1 := hres1.grows
    obtain ⟨h2, refs, hrun2, hlen, hg2, hvalid, hs, hu⟩ := betweenRanges_spec hids ranges h1
      (ho.grows hg1) (forall_mem_cons.mp hle).2
    refine ⟨h2, ref1 :: refs, by simp only [betweenRanges, hrun1, ok_bind, hrun2]; rfl,
      by simp [hlen], hg1.trans hg2, ?_, fun key hk => ?_, ?_⟩
    · exact forall_mem_cons.mpr ⟨hg2.valid hres1.valid, hvalid⟩
    · simp only [mem_cons, exists_eq_or_imp, hs key (hk.trans hg1.length_eq.symm)]
      rw [hg2.sat_iff hg1.wf hres1.valid, hres1.sat key hk]
    · rw [forall_mem_cons, forall_mem_cons, hu, hcol1]

theorem betweenKeyColumnIds_sorted (keyColumns : List String) :
    ∀ (last : Option ℕ) (arguments : List Expression),
    (betweenKeyColumnIds keyColumns last arguments).Pairwise (· < ·) ∧
      ∀ c ∈ betweenKeyColumnIds keyColumns last arguments, (∀ l ∈ last, l < c) ∧
        c < keyColumns.length
  | last, [] => by simp [betweenKeyColumnIds]
  | last, e :: es => by
    rw [betweenKeyColumnIds]
    cases hk : keyPartOf keyColumns e with
    | none => simp
    | some k =>
      simp only
      split_ifs with hlast
      · obtain ⟨ih1, ih2⟩ := betweenKeyColumnIds_sorted keyColumns (some k) es
        have hk' := keyPartOf_lt hk
        have hl : ∀ l ∈ last, l < k := by simpa [Option.all_eq_true] using hlast
        refine ⟨pairwise_cons.mpr ⟨fun c hc => (ih2 c hc).1 k rfl, ih1⟩,
          forall_mem_cons.mpr ⟨⟨hl, hk'⟩, fun c hc => ?_⟩⟩
        exact ⟨fun l hm => (hl l hm).trans ((ih2 c hc).1 k rfl), (ih2 c hc).2⟩
      · simp

theorem extractBetween_spec {keyColumns : List String} {arguments : List Expression}
    {ranges : List (Tuple × Tuple)} (hn : h.columns.length = keyColumns.length)
    (hwf : WellFormed proper h)
    (hne : ranges ≠ []) (hle : ∀ range ∈ ranges, lePrefix range.1 range.2 = true) :
    ∃ result, h.extractBetween keyColumns arguments ranges = .ok result ∧
      Extracted h (BetweenKept keyColumns arguments ranges) result ∧ (result.2.columnId =
        sentinelColumnId ↔ betweenUniversal keyColumns arguments ranges = true) := by
  obtain ⟨hsorted, hids⟩ := betweenKeyColumnIds_sorted keyColumns none arguments
  unfold extractBetween BetweenKept betweenUniversal
  generalize betweenKeyColumnIds keyColumns none arguments = ids at hsorted hids ⊢
  by_cases he : ids = []
  · subst he
    refine ⟨(h, .universal), rfl, ⟨GrowsFrom.refl hwf, valid_universal, fun key _ => ?_⟩,
      by simp [ConstraintRef.universal]⟩
    exact iff_of_true sat_universal (.inl rfl)
  · obtain ⟨h1, refs, hrun1, hlen, hg1, hvalid, hs, hu⟩ := betweenRanges_spec he ranges h
      ⟨hsorted, fun c hc => hn ▸ (hids c hc).2, hwf⟩ hle
    have hrefs : refs ≠ [] := by
      rw [← length_pos_iff, hlen, length_pos_iff]
      exact hne
    obtain ⟨h2, ref, hrun2, hc⟩ := uniteAll_spec refs.length refs h1 hg1.wf hrefs (by omega) hvalid
    have hg := hg1.trans hc.grows
    refine ⟨(h2, ref), ?_, ⟨hg, hc.valid ref (by simp), fun key hk => ?_⟩, ?_⟩
    · simp only [isEmpty_eq_false_iff.mpr he, Bool.false_eq_true, ↓reduceIte, hrun1, ok_bind, hrun2]
    · have := hc.sat key (hk.trans hg1.length_eq.symm)
      simp only [mem_singleton, exists_eq_left] at this
      rw [this, hs key hk]
      simp [he]
    · have := hc.universal
      simp only [mem_singleton, forall_eq] at this
      rw [this, hu]
      simp [he]

end Ytsaurus.Query.ConstraintsHolder
