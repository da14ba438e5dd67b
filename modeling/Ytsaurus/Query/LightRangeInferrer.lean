/-
# Light range inference

The ranges that `CreateNewLightRangeInferrer` makes of a constraint. A bound of
a range is a cut of the space of keys (`Cut`): right before or right after the
keys that start with a list of values. A reported row is a box of keys, and its
range is the smallest one around it that starts with the row's exact values
(`lightCutsFrom`). The reported rows of a constraint differ first in a column where
their intervals are apart (`RowsApart`), so their ranges are equal or disjoint;
in the order of their lower bounds they can be folded from left to right.

`GenerateReadRanges` takes the front and the back of every slice that it
reaches below the expansion depth, so all this holds exactly when no such
slice is empty (`ReachesEmpty`).
-/
import Ytsaurus.Query.ReadRanges
import Ytsaurus.Query.ExtractSoundness

namespace Ytsaurus.Query

open List TableClient Lib ValueBound ConstraintsHolder ColumnConstraint

variable {α : Type} [LinearOrder α] {c : Comparator}

/-! ### Cuts -/

/-- A cut: before or after the keys that start with `values`. -/
structure Cut (α : Type) where
  values : List α
  after : Bool
  deriving DecidableEq, Repr

namespace Cut

def row (cut : Cut α) : Row α := cut.values.map Value.data ++ if cut.after then [Value.max] else []

def cons (value : α) (cut : Cut α) : Cut α := ⟨value :: cut.values, cut.after⟩

end Cut

variable (c) in
/-- Cuts are compared from the column `index` on. -/
def compareCutsFrom (index : ℕ) (lhs rhs : Cut α) : ℤ :=
  compareCut c.compareValues index (lhs.values.map Value.data) lhs.after
    (rhs.values.map Value.data) rhs.after

theorem signCmp_compareCutsFrom (index : ℕ) : SignCmp (compareCutsFrom (α := α) c index) where
  neg _ _ := compareCut_neg c.signCmp_compareValues index _ _ _ _
  trans _ _ _ := compareCut_trans c.signCmp_compareValues index _ _ _ _ _ _

theorem compareCutsFrom_cons (index : ℕ) (value : α) (lhs rhs : Cut α) : compareCutsFrom c index
      (lhs.cons value) (rhs.cons value) = compareCutsFrom c (index + 1) lhs rhs := by
  simp [compareCutsFrom, compareCut, Cut.cons, (c.signCmp_compareValues index).self]

theorem before_all_le (index : ℕ) (cut : Cut α) : compareCutsFrom c index ⟨[], false⟩ cut ≤ 0 := by
  obtain ⟨_ | ⟨v, vs⟩, after⟩ := cut
  · cases after <;> simp [compareCutsFrom, compareCut]
  · simp [compareCutsFrom, compareCut]

theorem le_after_all (index : ℕ) (cut : Cut α) : compareCutsFrom c index cut ⟨[], true⟩ ≤ 0 := by
  obtain ⟨_ | ⟨v, vs⟩, after⟩ := cut
  · cases after <;> simp [compareCutsFrom, compareCut]
  · simp [compareCutsFrom, compareCut]

variable (c) in
/-- The values lie below the cut, both from the column `index` on. -/
def BelowFrom (index : ℕ) (key : Key α) (cut : Cut α) : Prop :=
  Below c.compareValues index (key.map Value.data) (cut.values.map Value.data) cut.after

variable {index : ℕ} {key : Key α} {cut : Cut α}

theorem belowFrom_cons {value : α} :
    BelowFrom c index (value :: key) (cut.cons value) ↔ BelowFrom c (index + 1) key cut := by
  simp [BelowFrom, Below, Cut.cons, (c.signCmp_compareValues index).self]

/-- The bound of a cut's row, as a key bound. -/
def Cut.keyBound (cut : Cut α) (isUpper : Bool) : KeyBound α :=
  ⟨some cut.values, isUpper == cut.after, isUpper⟩

omit [LinearOrder α] in
theorem after_keyBound (cut : Cut α) (isUpper : Bool) :
    (toKeyBoundRef (cut.keyBound isUpper)).after = cut.after := by
  obtain ⟨values, after⟩ := cut
  cases isUpper <;> cases after <;> rfl

theorem rowToKeyBoundRef_row {n : ℕ} (hl : cut.values.length ≤ n) (isUpper : Bool) :
    rowToKeyBoundRef (some cut.row) isUpper n = toKeyBoundRef (cut.keyBound isUpper) := by
  obtain ⟨h1, h2⟩ := scanLegacyRow_map_data cut.values n cut.after hl
  simp only [toggles] at h2
  simp only [rowToKeyBoundRef, getBoundPrefixAndInclusiveness, Cut.row, h1, h2, toKeyBoundRef,
    Cut.keyBound, KeyBound.values, Option.getD_some]
  rw [take_left' (by simp)]
  cases isUpper <;> cases cut.after <;> rfl

theorem compareKeyBoundsUnchecked_row {lhs rhs : Cut α} (hl : lhs.values.length ≤ c.getLength)
    (hr : rhs.values.length ≤ c.getLength) (lu ru : Bool) :
    c.compareKeyBoundsUnchecked (rowToKeyBoundRef (some lhs.row) lu c.getLength)
      (rowToKeyBoundRef (some rhs.row) ru c.getLength) 0 = compareCutsFrom c 0 lhs rhs := by
  rw [rowToKeyBoundRef_row hl, rowToKeyBoundRef_row hr, Comparator.compareKeyBoundsUnchecked,
    Comparator.compareKeyBoundsFrom_eq, after_keyBound, after_keyBound]
  rfl

theorem compareKeyBoundRefs_row {lhs rhs : Cut α} (hl : lhs.values.length ≤ c.getLength)
    (hr : rhs.values.length ≤ c.getLength) (lu ru : Bool) :
    c.compareKeyBoundRefs (rowToKeyBoundRef (some lhs.row) lu c.getLength)
      (rowToKeyBoundRef (some rhs.row) ru c.getLength) 0 = .ok (compareCutsFrom c 0 lhs rhs) := by
  have hm : ¬c.getLength < max lhs.values.length rhs.values.length := not_lt.mpr (max_le hl hr)
  have hv : ∀ (cut : Cut α) (u : Bool), (toKeyBoundRef (cut.keyBound u)).values =
      cut.values.map Value.data :=
    fun _ _ => rfl
  rw [← compareKeyBoundsUnchecked_row hl hr lu ru, rowToKeyBoundRef_row hl, rowToKeyBoundRef_row hr]
  simp only [Comparator.compareKeyBoundRefs, hv, length_map, if_neg hm, validateValueTypes_map_data]
  rfl

/-! ### The range of a row -/

/-- An interval of a row: its bounds are of `B` and in order. -/
structure ColumnOk (B : Set (ValueBound α)) (col : ColumnConstraint α) : Prop where
  lt : col.lower < col.upper
  lower_mem : col.lower ∈ B
  upper_mem : col.upper ∈ B

/-- The value of an exact column. -/
def ColumnConstraint.exactValue? (col : ColumnConstraint α) : Option α :=
  if col.isExact then
    match col.lower.value with
    | .data value => some value
    | _ => none
  else none

/-- A bound of an interval as a cut of its column. -/
def columnCut (ascending isUpper : Bool) (bound : ValueBound α) : Cut α :=
  match bound.value with
  | .data value => ⟨[value], bound.flag == ascending⟩
  | _ => ⟨[], isUpper⟩

variable (c) in
def ascendingAt (index : ℕ) : Bool := c.sortOrders.getD index .ascending == .ascending

/-- The cuts of an interval in the order of its column. -/
def columnCuts (ascending : Bool) (col : ColumnConstraint α) : Cut α × Cut α :=
  (columnCut ascending false (if ascending then col.lower else col.upper),
    columnCut ascending true (if ascending then col.upper else col.lower))

variable (c) in
/-- The cuts of a row, from the column `index` on. -/
def lightCutsFrom : ℕ → ConstraintRow α → Cut α × Cut α
  | _, [] => (⟨[], false⟩, ⟨[], true⟩)
  | index, col :: row =>
    match col.exactValue? with
    | some value => ((lightCutsFrom (index + 1) row).1.cons value,
      (lightCutsFrom (index + 1) row).2.cons value)
    | none => columnCuts (ascendingAt c index) col

theorem le_maxBound_of_mem {bound : ValueBound α} (hb : bound ∈ proper) : bound ≤ maxBound := by
  rcases hb with rfl | rfl | ⟨value, h⟩
  · exact minBound_lt_maxBound.le
  · exact le_rfl
  · exact (lt_iff.mpr (.inl (h ▸ Value.data_lt_max value))).le

variable {col : ColumnConstraint α}

section

variable (hc : ColumnOk proper col)

include hc

theorem ColumnOk.exactValue? (he : col.isExact = true) : ∃ value, col.exactValue? = some value ∧
      col.lower = ⟨.data value, false⟩ ∧ col.upper = ⟨.data value, true⟩ := by
  obtain ⟨⟨lv, lf⟩, ⟨uv, uf⟩⟩ := col
  simp only [ColumnConstraint.isExact, Bool.and_eq_true, beq_iff_eq, Bool.not_eq_true'] at he
  obtain ⟨⟨rfl, rfl⟩, rfl⟩ := he
  rcases hc.upper_mem with hu | hu | ⟨value, hu⟩
  · simp [minBound] at hu
  · simp [maxBound] at hu
  · simp only at hu
    subst hu
    exact ⟨value, by simp [ColumnConstraint.exactValue?, ColumnConstraint.isExact], rfl, rfl⟩

theorem ColumnOk.lower_cases : col.lower = minBound ∨
    ∃ value flag, col.lower = ⟨.data value, flag⟩ := by
  rcases hc.lower_mem with h | h | ⟨value, h⟩
  · exact .inl h
  · have hlt := hc.lt
    rw [h] at hlt
    exact absurd (le_maxBound_of_mem hc.upper_mem) hlt.not_ge
  · exact .inr ⟨value, col.lower.flag, by rw [← h]⟩

theorem ColumnOk.upper_cases : col.upper = maxBound ∨
    ∃ value flag, col.upper = ⟨.data value, flag⟩ := by
  rcases hc.upper_mem with h | h | ⟨value, h⟩
  · have hlt := hc.lt
    rw [h] at hlt
    exact absurd (minBound_le col.lower) hlt.not_ge
  · exact .inl h
  · exact .inr ⟨value, col.upper.flag, by rw [← h]⟩

theorem makeBounds_getBound (ascending : Bool) (boundPrefix : Row α) :
    makeLowerBound boundPrefix (getBound ascending col false) = boundPrefix ++
      (columnCuts ascending col).1.row ∧ makeUpperBound boundPrefix (getBound ascending col true) =
        boundPrefix ++ (columnCuts ascending col).2.row := by
  rcases hc.lower_cases with hl | ⟨v, f, hl⟩ <;> rcases hc.upper_cases with hu | ⟨w, g, hu⟩ <;>
    cases ascending <;>
    simp [getBound, columnCuts, columnCut, makeLowerBound, makeUpperBound, Cut.row, hl, hu,
      minBound, maxBound]

end

omit [LinearOrder α] in
theorem row_cons (value : α) (cut : Cut α) : (cut.cons value).row = .data value :: cut.row := rfl

theorem lightRange_append : ∀ (row exact : ConstraintRow α), (∀ col ∈ exact, col.isExact = true) →
    (∀ col ∈ row, ColumnOk proper col) →
    lightRange c (exact ++ row) = (exact.map getValue ++ (lightCutsFrom c exact.length row).1.row,
      exact.map getValue ++ (lightCutsFrom c exact.length row).2.row)
  | [], exact, he, _ => by
    have ht : exact.takeWhile ColumnConstraint.isExact = exact := takeWhile_eq_self_iff.mpr he
    simp [lightRange, ht, rowRangeFromPrefix, lightCutsFrom, Cut.row]
  | col :: row, exact, he, hok => by
    have hc := hok col mem_cons_self
    by_cases hx : col.isExact = true
    · obtain ⟨value, hv, hl, -⟩ := hc.exactValue? hx
      have ih := lightRange_append row (exact ++ [col])
        (forall_mem_append.mpr ⟨he, forall_mem_singleton.mpr hx⟩) (forall_mem_cons.mp hok).2
      simpa [lightCutsFrom, hv, row_cons, getValue, hl] using ih
    · have ht : (exact ++ col :: row).takeWhile ColumnConstraint.isExact = exact := by
        rw [takeWhile_append_of_pos he, takeWhile_cons_of_neg hx, List.append_nil]
      have hn : col.exactValue? = none := by simp [ColumnConstraint.exactValue?, hx]
      simp only [lightRange, ht, length_map, getElem?_append_right le_rfl, Nat.sub_self,
        getElem?_cons_zero, makeBounds_getBound hc, lightCutsFrom, hn, ascendingAt]

variable {row : ConstraintRow α}

theorem lightRange_eq (hok : ∀ col ∈ row, ColumnOk proper col) :
    lightRange c row = ((lightCutsFrom c 0 row).1.row, (lightCutsFrom c 0 row).2.row) := by
  simpa using lightRange_append (c := c) row [] (by simp) hok

/-! ### Ranges in the order of the columns -/

theorem compareValues_ascendingAt (index : ℕ) (lhs rhs : Value α) :
    c.compareValues index lhs rhs =
      if ascendingAt c index then compareRowValues lhs rhs else -compareRowValues lhs rhs := by
  unfold Comparator.compareValues ascendingAt
  rw [getD_eq_getElem?_getD]
  rcases c.sortOrders[index]? with _ | _ | _ <;> rfl

section

variable {v w : α} {f g : Bool} (hlt : (⟨.data v, f⟩ : ValueBound α) < ⟨.data w, g⟩)

include hlt

theorem dataCut_lt {a b : α} {f' g' : Bool}
    (hc : c.compareValues index (.data a) (.data b) = compareRowValues (.data v) (.data w))
    (hflag : f < g → f' < g') : compareCutsFrom c index ⟨[a], f'⟩ ⟨[b], g'⟩ < 0 := by
  simp only [compareCutsFrom, compareCut, map_cons, map_nil, hc]
  rcases ValueBound.lt_iff.mp hlt with hvw | ⟨hvw, hfg⟩
  · have hn : compareRowValues (.data v) (.data w) < 0 := Value.lt_def.mp hvw
    rwa [if_pos hn.ne]
  · obtain ⟨rfl, rfl⟩ := Bool.lt_iff.mp (hflag hfg)
    rw [if_neg (not_not.mpr (compareRowValues_eq_zero.mpr hvw))]
    simp

theorem dataCut_lt_of_ascending (ha : ascendingAt c index = true) :
    compareCutsFrom c index ⟨[v], f⟩ ⟨[w], g⟩ < 0 :=
  dataCut_lt hlt (by rw [compareValues_ascendingAt, if_pos ha]) id

theorem dataCut_lt_of_descending (hd : ascendingAt c index = false) :
    compareCutsFrom c index ⟨[w], !g⟩ ⟨[v], !f⟩ < 0 := by
  refine dataCut_lt hlt ?_ fun hfg => by obtain ⟨rfl, rfl⟩ := Bool.lt_iff.mp hfg; decide
  rw [compareValues_ascendingAt, hd, compareRowValues_neg]
  simp

end

theorem columnCuts_lt (hc : ColumnOk proper col) (index : ℕ) : compareCutsFrom c index
      (columnCuts (ascendingAt c index) col).1 (columnCuts (ascendingAt c index) col).2 < 0 := by
  have hlt := hc.lt
  rcases hc.lower_cases with hl | ⟨v, f, hl⟩ <;> rcases hc.upper_cases with hu | ⟨w, g, hu⟩
  · cases ascendingAt c index <;>
      simp [columnCuts, columnCut, hl, hu, minBound, maxBound, compareCutsFrom, compareCut]
  · cases ascendingAt c index <;>
      simp [columnCuts, columnCut, hl, hu, minBound, compareCutsFrom, compareCut]
  · cases ascendingAt c index <;>
      simp [columnCuts, columnCut, hl, hu, maxBound, compareCutsFrom, compareCut]
  · rw [hl, hu] at hlt
    cases ha : ascendingAt c index with
    | true => simpa [columnCuts, columnCut, hl, hu] using dataCut_lt_of_ascending hlt ha
    | false => simpa [columnCuts, columnCut, hl, hu] using dataCut_lt_of_descending hlt ha

theorem ColumnOk.apart_cases {col' : ColumnConstraint α}
    (hc : ColumnOk proper col) (hc' : ColumnOk proper col') (hle : col.upper ≤ col'.lower) :
      ∃ v f w g, col.upper = ⟨.data v, f⟩ ∧ col'.lower = ⟨.data w, g⟩ ∧
      ((⟨.data v, f⟩ : ValueBound α) < ⟨.data w, g⟩ ∨ v = w ∧ f = g) := by
  rcases hc.upper_cases with hu | ⟨v, f, hu⟩
  · rw [hu] at hle
    exact absurd (le_maxBound_of_mem hc'.upper_mem) (hle.trans_lt hc'.lt).not_ge
  · rcases hc'.lower_cases with hl | ⟨w, g, hl⟩
    · rw [hl] at hle
      exact absurd (minBound_le col.lower) (hc.lt.trans_le hle).not_ge
    · rw [hu, hl] at hle
      exact ⟨v, f, w, g, hu, hl, hle.lt_or_eq.imp_right fun heq => by simpa using heq⟩

theorem columnCuts_apart {col' : ColumnConstraint α} (hc : ColumnOk proper col)
    (hc' : ColumnOk proper col') (hle : col.upper ≤ col'.lower) (index : ℕ) :
    if ascendingAt c index then compareCutsFrom c index (columnCuts true col).2
      (columnCuts true col').1 ≤ 0
    else compareCutsFrom c index (columnCuts false col').2 (columnCuts false col).1 ≤ 0 := by
  obtain ⟨v, f, w, g, hu, hl, hlt | ⟨rfl, rfl⟩⟩ := hc.apart_cases hc' hle
  · split_ifs with ha
    · simpa [columnCuts, columnCut, hl, hu] using (dataCut_lt_of_ascending hlt ha).le
    · simpa [columnCuts, columnCut, hl, hu] using (dataCut_lt_of_descending hlt (by simpa using ha)).le
  · have hs := (signCmp_compareCutsFrom (α := α) (c := c) index).self
    split_ifs
    · simpa [columnCuts, columnCut, hl, hu] using (hs _).le
    · simpa [columnCuts, columnCut, hl, hu] using (hs _).le

def InColumn (col : ColumnConstraint α) (value : α) : Prop :=
  col.lower ≤ point value ∧ point value < col.upper

theorem belowFrom_columnCut (index : ℕ) (k v : α) (flag : Bool) (key : Key α) :
    BelowFrom c index (k :: key) ⟨[v], flag == ascendingAt c index⟩ ↔
      if ascendingAt c index then point k < ⟨.data v, flag⟩ else ⟨.data v, flag⟩ ≤ point k := by
  have hn : -compareRowValues (Value.data k) (.data v) = compareRowValues (.data v) (.data k) := by
    rw [compareRowValues_neg (.data k), neg_neg]
  simp only [BelowFrom, Below, map_cons, map_nil, compareValues_ascendingAt]
  split_ifs with ha
  · rw [ha, compareRowValues_eq_zero, ← Value.lt_def]
    cases flag <;> simp [le_iff_lt_or_eq]
  · rw [Bool.not_eq_true] at ha
    rw [ha, hn, compareRowValues_eq_zero, ← Value.lt_def]
    cases flag <;> simp [← le_iff_lt_or_eq]

theorem belowFrom_boundCut {ascending isUpper : Bool} {bound : ValueBound α}
    (ha : ascendingAt c index = ascending)
    (hb : bound = (if isUpper = ascending then maxBound else minBound) ∨
      ∃ v f, bound = ⟨.data v, f⟩) (k : α)
    (key : Key α) : BelowFrom c index (k :: key) (columnCut ascending isUpper bound) ↔
      if ascending then point k < bound else bound ≤ point k := by
  rcases hb with rfl | ⟨v, f, rfl⟩
  · cases ascending <;> cases isUpper <;>
      simp [columnCut, minBound, maxBound, BelowFrom, Below, point, ValueBound.le_iff, ValueBound.lt_iff]
  · subst ha
    exact belowFrom_columnCut index k v f key

/-- A value in the interval is between its cuts. -/
theorem InColumn.between (hc : ColumnOk proper col) {k : α} (hk : InColumn col k) (index : ℕ)
    (key : Key α) : ¬BelowFrom c index (k :: key) (columnCuts (ascendingAt c index) col).1 ∧
      BelowFrom c index (k :: key) (columnCuts (ascendingAt c index) col).2 := by
  obtain ⟨hl, hup⟩ := hk
  cases ha : ascendingAt c index with
  | true =>
    rw [columnCuts, belowFrom_boundCut ha hc.lower_cases, belowFrom_boundCut ha hc.upper_cases]
    exact ⟨not_lt.mpr hl, hup⟩
  | false =>
    rw [columnCuts, belowFrom_boundCut ha hc.upper_cases, belowFrom_boundCut ha hc.lower_cases]
    exact ⟨not_le.mpr hup, hl⟩

/-! ### Rows -/

/-- The rows agree on the first columns and then have intervals that are apart. -/
def RowsApart (row row' : ConstraintRow α) : Prop :=
  ∃ common col col' rest rest', row = common ++ col :: rest ∧ row' = common ++ col' :: rest' ∧
    col.upper ≤ col'.lower

theorem lightCutsFrom_within (hcol : ColumnOk proper col) (index : ℕ) (row : ConstraintRow α) :
    compareCutsFrom c index (columnCuts (ascendingAt c index) col).1
      (lightCutsFrom c index (col :: row)).1 ≤ 0 ∧ compareCutsFrom c index
        (lightCutsFrom c index (col :: row)).2 (columnCuts (ascendingAt c index) col).2 ≤ 0 := by
  by_cases hx : col.isExact = true
  · obtain ⟨value, hv, hl, hu⟩ := hcol.exactValue? hx
    have hcuts : columnCuts (ascendingAt c index) col =
        (Cut.cons value ⟨[], false⟩, Cut.cons value ⟨[], true⟩) := by
      cases ascendingAt c index <;> simp [columnCuts, columnCut, hl, hu, Cut.cons]
    simp only [lightCutsFrom, hv, hcuts, compareCutsFrom_cons]
    exact ⟨before_all_le _ _, le_after_all _ _⟩
  · have hn : col.exactValue? = none := by simp [ColumnConstraint.exactValue?, hx]
    have hs := (signCmp_compareCutsFrom (α := α) (c := c) index).self
    simp only [lightCutsFrom, hn]
    exact ⟨(hs _).le, (hs _).le⟩

theorem lightCutsFrom_lt : ∀ (row : ConstraintRow α) (index : ℕ),
    (∀ col ∈ row, ColumnOk proper col) →
    compareCutsFrom c index (lightCutsFrom c index row).1 (lightCutsFrom c index row).2 < 0
  | [], index, _ => by simp [lightCutsFrom, compareCutsFrom, compareCut]
  | col :: row, index, hok => by
    rw [lightCutsFrom]
    cases col.exactValue? with
    | some value =>
      rw [compareCutsFrom_cons]
      exact lightCutsFrom_lt row (index + 1) (forall_mem_cons.mp hok).2
    | none => exact columnCuts_lt (hok col mem_cons_self) index

theorem lightCutsFrom_between : ∀ {row : ConstraintRow α} {key : Key α} (index : ℕ),
    (∀ col ∈ row, ColumnOk proper col) →
    Forall₂ InColumn row key → ¬BelowFrom c index key (lightCutsFrom c index row).1 ∧
      BelowFrom c index key (lightCutsFrom c index row).2
  | [], [], index, _, _ => by simp [lightCutsFrom, BelowFrom, Below]
  | col :: row, k :: key, index, hok, hin => by
    obtain ⟨hk, hin⟩ := forall₂_cons.mp hin
    have hc := hok col mem_cons_self
    rw [lightCutsFrom]
    by_cases hx : col.isExact = true
    · obtain ⟨value, hv, hl, hu⟩ := hc.exactValue? hx
      have heq : k = value := by
        rw [InColumn, hl, hu, before_le_point, point_lt_after] at hk
        exact le_antisymm hk.2 hk.1
      simp only [hv, heq, belowFrom_cons]
      exact lightCutsFrom_between (index + 1) ((forall_mem_cons.mp hok).2) hin
    · have hn : col.exactValue? = none := by simp [ColumnConstraint.exactValue?, hx]
      simp only [hn]
      exact hk.between hc index key

theorem hasDescendingSortOrder_of_ascendingAt (hd : ascendingAt c index = false) :
    c.hasDescendingSortOrder = true := by
  rw [ascendingAt, getD_eq_getElem?_getD] at hd
  cases ho : c.sortOrders[index]? with
  | none => simp [ho] at hd
  | some order =>
    cases order with
    | ascending => simp [ho] at hd
    | descending => exact contains_iff_mem.mpr (mem_of_getElem? ho)

/-- Two ranges are equal, or one ends before the other one starts; the second
starts first only if some column is descending. -/
def RangesApart (c : Comparator) (index : ℕ) (range range' : Cut α × Cut α) : Prop :=
  range = range' ∨ compareCutsFrom c index range.2 range'.1 ≤ 0 ∨
    c.hasDescendingSortOrder = true ∧ compareCutsFrom c index range'.2 range.1 ≤ 0

theorem rangesApart_of_rowsApart {col col' : ColumnConstraint α} (rest rest' : ConstraintRow α)
    (hc : ColumnOk proper col) (hc' : ColumnOk proper col') (hle : col.upper ≤ col'.lower) :
    ∀ (common : ConstraintRow α) (index : ℕ),
      RangesApart c index (lightCutsFrom c index (common ++ col :: rest))
        (lightCutsFrom c index (common ++ col' :: rest'))
  | [], index => by
    have hs := signCmp_compareCutsFrom (α := α) (c := c) index
    obtain ⟨hlow, hup⟩ := lightCutsFrom_within (c := c) hc index rest
    obtain ⟨hlow', hup'⟩ := lightCutsFrom_within (c := c) hc' index rest'
    have hapart := columnCuts_apart (c := c) hc hc' hle index
    cases hasc : ascendingAt c index with
    | true =>
      rw [hasc] at hapart hup hlow'
      exact .inr (.inl (hs.trans _ _ _ (hs.trans _ _ _ hup hapart) hlow'))
    | false =>
      rw [hasc] at hapart hup' hlow
      exact .inr (.inr ⟨hasDescendingSortOrder_of_ascendingAt hasc,
        hs.trans _ _ _ (hs.trans _ _ _ hup' hapart) hlow⟩)
  | first :: common, index => by
    have ih := rangesApart_of_rowsApart rest rest' hc hc' hle common (index + 1)
    simp only [cons_append, lightCutsFrom]
    cases first.exactValue? with
    | some value =>
      simp only [RangesApart, compareCutsFrom_cons] at ih ⊢
      exact ih.imp_left fun heq => by rw [heq]
    | none => exact .inl rfl

/-! ### Folding -/

abbrev CutRange (α : Type) := Cut α × Cut α

def CutRange.rows (range : CutRange α) : RowRange α := (range.1.row, range.2.row)

omit [LinearOrder α] in
theorem row_injective {a b : Cut α} (h : a.row = b.row) : a = b := by
  obtain ⟨as, af⟩ := a
  obtain ⟨bs, bf⟩ := b
  induction as generalizing bs with
  | nil => cases bs <;> cases af <;> cases bf <;> simp_all [Cut.row]
  | cons v as ih =>
    cases bs with
    | nil => cases af <;> cases bf <;> simp [Cut.row] at h
    | cons w bs =>
      obtain ⟨hvw, hr⟩ := cons.inj h
      obtain ⟨rfl, rfl⟩ := Cut.mk.inj (ih bs hr)
      rw [Value.data.inj hvw]

omit [LinearOrder α] in
theorem rows_eq_iff {a b : CutRange α} : a.rows = b.rows ↔ a = b := by
  refine ⟨fun h => ?_, fun h => h ▸ rfl⟩
  obtain ⟨h1, h2⟩ := Prod.mk.inj h
  exact Prod.ext (row_injective h1) (row_injective h2)

/-- A range of cuts that fit, in order. -/
structure RangeOk (c : Comparator) (range : CutRange α) : Prop where
  lt : compareCutsFrom c 0 range.1 range.2 < 0
  lower_length : range.1.values.length ≤ c.getLength
  upper_length : range.2.values.length ≤ c.getLength

def KeyIn (c : Comparator) (range : CutRange α) (key : Key α) : Prop :=
  ¬BelowFrom c 0 key range.1 ∧ BelowFrom c 0 key range.2

theorem belowFrom_mono {a b : Cut α} (hk : key.length = c.getLength)
    (ha : a.values.length ≤ c.getLength) (hb : b.values.length ≤ c.getLength)
    (hle : compareCutsFrom c 0 a b ≤ 0) (hbelow : BelowFrom c 0 key a) : BelowFrom c 0 key b :=
  below_mono c.signCmp_compareValues 0 _ _ _ _ _ (by simpa [hk] using ha)
    (by simpa [hk] using hb) hle hbelow

theorem KeyIn.widen {a b : CutRange α} (hk : key.length = c.getLength) (ha : RangeOk c a)
    (hb : RangeOk c b)
    (hlow : compareCutsFrom c 0 a.1 b.1 ≤ 0) (hup : compareCutsFrom c 0 b.2 a.2 ≤ 0)
    (h : KeyIn c b key) : KeyIn c a key :=
  ⟨fun hbelow => h.1 (belowFrom_mono hk ha.lower_length hb.lower_length hlow hbelow),
    belowFrom_mono hk hb.upper_length ha.upper_length hup h.2⟩

/-- What the loop leaves: ranges in order, apart from each other, none before
`lower`. -/
structure Folded (c : Comparator) (lower : Cut α) (covered : Key α → Prop)
    (out : List (CutRange α)) : Prop where
  ok : ∀ range ∈ out, RangeOk c range
  apart : out.Pairwise fun range range' => compareCutsFrom c 0 range.2 range'.1 < 0
  from_lower : ∀ range ∈ out, compareCutsFrom c 0 lower range.1 ≤ 0
  covers : ∀ key : Key α, key.length = c.getLength → covered key → ∃ range ∈ out, KeyIn c range key

theorem Folded.mono {lower : Cut α} {covered covered' : Key α → Prop} {out : List (CutRange α)}
    (hf : Folded c lower covered out)
    (hi : ∀ key : Key α, key.length = c.getLength → covered' key → covered key) :
    Folded c lower covered' out :=
  ⟨hf.ok, hf.apart, hf.from_lower, fun key hk h => hf.covers key hk (hi key hk h)⟩

/-- The ranges come in order: an equal one or a later one follows. -/
def InOrder (c : Comparator) (range range' : CutRange α) : Prop :=
  range = range' ∨ compareCutsFrom c 0 range.2 range'.1 ≤ 0

/-- The loop that folds the ranges. `last` is the range it saw last: `back` ends
with it and starts no later. -/
theorem foldRanges_spec : ∀ (ranges : List (CutRange α)) (back last : CutRange α), RangeOk c back →
    back.2 = last.2 → compareCutsFrom c 0 back.1 last.1 ≤ 0 →
    (last :: ranges).Pairwise (InOrder c) → (∀ range ∈ last :: ranges, RangeOk c range) →
    ∃ out, foldRanges c back.rows (ranges.map CutRange.rows) = .ok (out.map CutRange.rows) ∧
      Folded c back.1 (fun key => KeyIn c back key ∨ ∃ range ∈ ranges, KeyIn c range key) out
  | [], back, last, hback, _, _, _, _ => by
    refine ⟨[back], rfl, ?_, pairwise_singleton _ _, ?_, fun key _ h =>
      ⟨back, by simp, by simpa using h⟩⟩
    · simpa using hback
    · simp [(signCmp_compareCutsFrom (α := α) (c := c) 0).self]
  | range :: ranges, back, last, hback, heq, hle, hp, hok => by
    have hsign := signCmp_compareCutsFrom (α := α) (c := c) 0
    have hrange := hok range (by simp)
    have hlast := hok last (by simp)
    have hp' : (range :: ranges).Pairwise (InOrder c) := (pairwise_cons.mp hp).2
    have hok' : ∀ r ∈ range :: ranges, RangeOk c r := (forall_mem_cons.mp hok).2
    have hcompare : c.compareKeyBoundRefs (upperKeyBound c back.rows)
        (lowerKeyBound c range.rows) 0 = .ok (compareCutsFrom c 0 back.2 range.1) :=
      compareKeyBoundRefs_row hback.upper_length hrange.lower_length true false
    simp only [map_cons, foldRanges, hcompare, ok_bind]
    by_cases hz : compareCutsFrom c 0 back.2 range.1 = 0
    · -- the range starts where `back` ends
      have hlow : compareCutsFrom c 0 back.1 range.1 < 0 := hsign.lt_of_lt_of_le hback.lt hz.le
      have hj : RangeOk c (back.1, range.2) :=
        ⟨hsign.lt_of_lt_of_le hlow hrange.lt.le, hback.lower_length, hrange.upper_length⟩
      obtain ⟨out, hrun, hf⟩ := foldRanges_spec ranges (back.1, range.2) range hj rfl hlow.le hp' hok'
      rw [if_pos hz]
      refine ⟨out, hrun, hf.mono fun key hk h => ?_⟩
      have hup : compareCutsFrom c 0 back.2 range.2 ≤ 0 := hsign.trans _ _ _ hz.le hrange.lt.le
      rw [exists_mem_cons_iff, ← or_assoc] at h
      exact h.imp_left (Or.rec (KeyIn.widen hk hj hback (hsign.self _).le hup)
        (KeyIn.widen hk hj hrange hlow.le (hsign.self _).le))
    · rw [if_neg hz]
      rcases (pairwise_cons.mp hp).1 range (by simp) with rfl | hlater
      · -- the range that was seen last, again
        obtain ⟨out, hrun, hf⟩ := foldRanges_spec ranges back last hback heq hle hp' hok'
        refine ⟨out, ?_, hf.mono fun key hk h => ?_⟩
        rotate_left
        · rw [exists_mem_cons_iff, ← or_assoc] at h
          exact h.imp_left (Or.rec id (KeyIn.widen hk hback hlast hle (heq ▸ (hsign.self _).le)))
        split_ifs with hsame hupper
        · exact hrun
        · have hlower : c.compareKeyBoundRefs (lowerKeyBound c back.rows)
              (lowerKeyBound c last.rows) 0 = .ok (compareCutsFrom c 0 back.1 last.1) :=
            compareKeyBoundRefs_row hback.lower_length hlast.lower_length false false
          rw [hlower, ok_bind, ytVerify_true hle, hrun]
          rfl
        · exact absurd (congrArg Cut.row heq) hupper
      · -- a later range
        have hlt : compareCutsFrom c 0 back.2 range.1 < 0 := lt_of_le_of_ne (heq ▸ hlater) hz
        have hsame : back.rows ≠ range.rows := fun h => by
          have hback' := hback.lt
          rw [rows_eq_iff.mp h] at hback' hlt
          have := hsign.neg range.1 range.2
          omega
        have hupper : back.rows.2 ≠ range.rows.2 := fun h => by
          have hr := hrange.lt
          rw [row_injective (show back.2.row = range.2.row from h)] at hlt
          have := hsign.neg range.1 range.2
          omega
        obtain ⟨out, hrun, hf⟩ :=
          foldRanges_spec ranges range range hrange rfl (hsign.self _).le hp' hok'
        rw [if_neg hsame, if_neg hupper, ytVerify_true hlt, hrun]
        refine ⟨back :: out, rfl, forall_mem_cons.mpr ⟨hback, hf.ok⟩,
          pairwise_cons.mpr ⟨fun r hr => ?_, hf.apart⟩,
          forall_mem_cons.mpr ⟨(hsign.self _).le, fun r hr => ?_⟩, fun key hk h => ?_⟩
        · exact hsign.lt_of_lt_of_le hlt (hf.from_lower r hr)
        · exact hsign.trans _ _ _ (hsign.lt_of_lt_of_le hback.lt hlt.le).le (hf.from_lower r hr)
        · rw [exists_mem_cons_iff] at h ⊢
          exact h.imp_right (hf.covers key hk)

/-! ### Sorting -/

theorem forM_ok {β : Type} {f : β → Result Unit} : ∀ {l : List β}, (∀ x ∈ l, f x = .ok ()) →
    l.forM f = .ok ()
  | [], _ => rfl
  | x :: l, h => by
    show (f x >>= fun _ => l.forM f) = .ok ()
    rw [h x (by simp), ok_bind]
    exact forM_ok (forall_mem_cons.mp h).2

theorem validateRanges_ok {ranges : List (CutRange α)} (hok : ∀ range ∈ ranges, RangeOk c range) :
    validateRanges c (ranges.map CutRange.rows) = .ok () := by
  unfold validateRanges
  split_ifs
  · refine forM_ok (forall_mem_map.mpr fun range hrange => ?_)
    have hl := (hok range hrange).lower_length
    have hc : c.compareKeyBoundRefs (lowerKeyBound c range.rows)
        (lowerKeyBound c range.rows) 0 = .ok _ :=
      compareKeyBoundRefs_row hl hl false false
    rw [hc]
    rfl
  · rfl

theorem sortRanges_spec {ranges : List (CutRange α)} (hok : ∀ range ∈ ranges, RangeOk c range)
    (hpair : ranges.Pairwise (RangesApart c 0)) :
    ∃ sorted : List (CutRange α), sortRanges c (ranges.map CutRange.rows) =
      .ok (sorted.map CutRange.rows) ∧ sorted.Perm ranges ∧ sorted.Pairwise (InOrder c) := by
  unfold sortRanges
  have hsign := signCmp_compareCutsFrom (α := α) (c := c) 0
  split_ifs with hd
  · have htotal : Std.Total fun a b : CutRange α => compareCutsFrom c 0 a.1 b.1 ≤ 0 :=
      ⟨fun a b => by have := hsign.neg a.1 b.1; omega⟩
    have htrans : IsTrans (CutRange α) fun a b => compareCutsFrom c 0 a.1 b.1 ≤ 0 :=
      ⟨fun a b d => hsign.trans _ _ _⟩
    have hperm := perm_insertionSort (fun a b : CutRange α => compareCutsFrom c 0 a.1 b.1 ≤ 0) ranges
    refine ⟨ranges.insertionSort fun a b => compareCutsFrom c 0 a.1 b.1 ≤ 0, ?_, hperm, ?_⟩
    · rw [validateRanges_ok hok, ok_bind]
      refine congrArg Except.ok (map_insertionSort _ _ CutRange.rows ranges fun a ha b hb => ?_).symm
      have hc : c.compareKeyBoundsUnchecked (lowerKeyBound c a.rows) (lowerKeyBound c b.rows) 0 =
          compareCutsFrom c 0 a.1 b.1 :=
        compareKeyBoundsUnchecked_row (hok a ha).lower_length (hok b hb).lower_length false false
      rw [hc]
    · have hsorted := pairwise_insertionSort
        (fun a b : CutRange α => compareCutsFrom c 0 a.1 b.1 ≤ 0) ranges
      have hapart := hpair.perm hperm.symm fun {a b} h => ?_
      · refine (hsorted.and hapart).imp_of_mem fun {a b} ha hb h => ?_
        rcases h with ⟨hle, heq | h | ⟨-, h⟩⟩
        · exact .inl heq
        · exact .inr h
        · -- the second range would start before the first one
          have hlt := (hok b (hperm.mem_iff.mp hb)).lt
          have := hsign.lt_of_le_of_lt (hsign.trans _ _ _ h hle) hlt
          have := hsign.self b.2
          omega
      · rcases h with rfl | h | ⟨-, h⟩
        · exact .inl rfl
        · exact .inr (.inr ⟨hd, h⟩)
        · exact .inr (.inl h)
  · exact ⟨ranges, rfl, .refl _, hpair.imp fun {a b} h => h.imp_right fun h =>
      h.resolve_right fun h => hd h.1⟩

/-! ### The generator -/

variable {B : Set (ValueBound α)}

/-- The walk reaches an empty slice below the expansion depth. -/
inductive ReachesEmpty (h : ConstraintsHolder α) (keyWidth : ℕ) : ConstraintRef → Prop
  | empty {ref : ConstraintRef} : ref.columnId ≠ sentinelColumnId → keyWidth ≤ ref.columnId →
    h.slice ref = [] → ReachesEmpty h keyWidth ref
  | next {ref : ConstraintRef} {item : Constraint α} : ref.columnId < keyWidth →
    item ∈ h.slice ref → ReachesEmpty h keyWidth item.next → ReachesEmpty h keyWidth ref

/-- The key's values before the column are in the row's intervals. -/
def InColumnsBefore (columnId : ℕ) (row : ConstraintRow α) (key : Key α) : Prop :=
  ∀ i < columnId, ∀ col ∈ row[i]?, ∀ k ∈ key[i]?, InColumn col k

/-- `Row_` at a column: full, with intervals in order, universal from there on. -/
structure RowOk (B : Set (ValueBound α)) (n columnId : ℕ) (row : ConstraintRow α) : Prop where
  length_eq : row.length = n
  ok : ∀ col ∈ row, ColumnOk B col
  universal : ∀ i, columnId ≤ i → ∀ col ∈ row[i]?, col = .universalInterval

/-- What a walk reports: rows that agree with `Row_` before the column, apart
from each other, around every key that satisfies the reference. -/
structure Reported (B : Set (ValueBound α)) (h : ConstraintsHolder α) (columnId : ℕ)
    (P : Key α → Prop) (row : ConstraintRow α) (reported : List (ConstraintRow α)) : Prop where
  length_eq : ∀ r ∈ reported, r.length = row.length
  ok : ∀ r ∈ reported, ∀ col ∈ r, ColumnOk B col
  common : ∀ r ∈ reported, r.take columnId = row.take columnId
  apart : reported.Pairwise RowsApart
  covers : ∀ key : Key α, key.length = h.columns.length → P key → InColumnsBefore columnId row key →
    ∃ r ∈ reported, Forall₂ InColumn r key

theorem columnOk_universalInterval (hmin : minBound ∈ B) (hmax : maxBound ∈ B) :
    ColumnOk B (.universalInterval : ColumnConstraint α) := ⟨minBound_lt_maxBound, hmin, hmax⟩

theorem inColumn_universalInterval (k : α) : InColumn .universalInterval k :=
  ⟨minBound_le _, point_lt_maxBound k⟩

variable {h : ConstraintsHolder α}

theorem columnOk_of_itemOk {col : ℕ} {item : Constraint α} (hi : ItemOk B h col item) :
    ColumnOk B item.toColumnConstraint := ⟨hi.lt, hi.lower_mem, hi.upper_mem⟩

theorem rowOk_replicate (hmin : minBound ∈ B) (hmax : maxBound ∈ B) (n columnId : ℕ) :
    RowOk B n columnId (replicate n (.universalInterval : ColumnConstraint α)) := by
  refine ⟨by simp, fun col hc => ?_, fun i _ col hc => ?_⟩
  · rw [eq_of_mem_replicate hc]
    exact columnOk_universalInterval hmin hmax
  · exact eq_of_mem_replicate (mem_of_getElem? hc)

theorem RowOk.forall₂ {n columnId : ℕ} (hr : RowOk B n columnId row)
    (hk : key.length = n) (hb : InColumnsBefore columnId row key) : Forall₂ InColumn row key := by
  refine forall₂_iff_get.mpr ⟨hr.length_eq.trans hk.symm, fun i h1 h2 => ?_⟩
  have hc : row.get ⟨i, h1⟩ ∈ row[i]? := getElem?_eq_getElem h1
  by_cases hi : i < columnId
  · exact hb i hi _ hc _ (getElem?_eq_getElem h2)
  · rw [hr.universal i (not_lt.mp hi) _ hc]
    exact inColumn_universalInterval _

theorem RowOk.set {n columnId col' : ℕ} {row : ConstraintRow α} (hr : RowOk B n columnId row)
    (hc : ColumnOk B col) (hlt : columnId < col') :
    RowOk B n col' (row.set columnId col) := by
  refine ⟨by simp [hr.length_eq], fun i hi => ?_, fun i hi i' hi' => ?_⟩
  · rcases mem_or_eq_of_mem_set hi with hi | rfl
    · exact hr.ok i hi
    · exact hc
  · rw [getElem?_set_ne (by omega)] at hi'
    exact hr.universal i (by omega) i' hi'

theorem InColumnsBefore.set {columnId columnId' n : ℕ} {row : ConstraintRow α} {key : Key α} {k : α}
    (hr : RowOk B n columnId row) (hb : InColumnsBefore columnId row key)
    (hk : key[columnId]? = some k)
    (hc : InColumn col k) : InColumnsBefore columnId' (row.set columnId col) key := by
  intro i _ col' hc' k' hk'
  rw [getElem?_set] at hc'
  split_ifs at hc' with h1 h2
  · subst h1
    rw [hk] at hk'
    obtain rfl := Option.some.inj hk'
    obtain rfl := Option.some.inj hc'
    exact hc
  · simp at hc'
  · by_cases hi : i < columnId
    · exact hb i hi col' hc' k' hk'
    · rw [hr.universal i (not_lt.mp hi) col' hc']
      exact inColumn_universalInterval k'

variable {reported : List (ConstraintRow α)} {ref : ConstraintRef}

section Walk

variable {h : ConstraintsHolder α} {keyWidth width columnId : ℕ} {walk : Walk α}
  {row : ConstraintRow α}

/-- What a walk below a reference does. -/
def WalkOk (B : Set (ValueBound α)) (h : ConstraintsHolder α) (keyWidth : ℕ) (walk : Walk α)
    (ref : ConstraintRef) : Prop :=
  ∀ row, RowOk B h.columns.length ref.columnId row →
    (ReachesEmpty h keyWidth ref → walk ref row = .error .undefined) ∧
      (¬ReachesEmpty h keyWidth ref → ∃ reported, walk ref row = .ok (reported, row) ∧
        Reported B h ref.columnId (h.Sat · ref) row reported)

/-- The row has the interval at the column and agrees with `Row_` before it. -/
def HasColumn (row : ConstraintRow α) (columnId : ℕ) (col : ColumnConstraint α)
    (r : ConstraintRow α) : Prop :=
  r = row.take columnId ++ col :: r.drop (columnId + 1)

def SatItems (h : ConstraintsHolder α) (columnId : ℕ) (items : List (Constraint α))
    (key : Key α) : Prop :=
  ∃ item ∈ items, ∃ k, key[columnId]? = some k ∧ InColumn item.toColumnConstraint k ∧
    h.Sat key item.next

omit [LinearOrder α] in
theorem hasColumn_of_take {col' : ℕ} {r : ConstraintRow α} (hlt : columnId < col')
    (hlen : columnId < row.length)
    (ht : r.take col' = (row.set columnId col).take col') : HasColumn row columnId col r := by
  have hs : (row.set columnId col).take (columnId + 1) = row.take columnId ++ [col] := by
    rw [take_add_one, take_set_of_le le_rfl, getElem?_set_self hlen]
    rfl
  have hr : r.take (columnId + 1) = row.take columnId ++ [col] := by
    have := congrArg (take (columnId + 1)) ht
    rwa [take_take, take_take, Nat.min_eq_left hlt, hs] at this
  calc r = r.take (columnId + 1) ++ r.drop (columnId + 1) := (take_append_drop _ _).symm
    _ = _ := by rw [hr, append_assoc, singleton_append]

theorem Reported.append {item : Constraint α} {items : List (Constraint α)}
    {reported others : List (ConstraintRow α)}
    (hrow : RowOk B h.columns.length columnId row) (hcol : columnId < h.columns.length)
    (hreported : Reported B h item.next.columnId (h.Sat · item.next)
      (row.set columnId item.toColumnConstraint) reported)
    (hreported' : Reported B h columnId (SatItems h columnId items) row others)
    (hh : ∀ r ∈ reported, HasColumn row columnId item.toColumnConstraint r)
    (hshape : ∀ r ∈ others, ∃ item ∈ items, HasColumn row columnId item.toColumnConstraint r)
    (hsorted : ∀ item' ∈ items, item.getUpperBound ≤ item'.getLowerBound) :
    Reported B h columnId (SatItems h columnId (item :: items)) row (reported ++ others) := by
  refine ⟨?_, forall_mem_append.mpr ⟨hreported.ok, hreported'.ok⟩, fun r hr =>
    ?_, ?_, fun key hkey hsat hb => ?_⟩
  · exact forall_mem_append.mpr
      ⟨fun r hr => by rw [hreported.length_eq r hr, length_set], hreported'.length_eq⟩
  · rcases mem_append.mp hr with hr | hr
    · have hl : (row.take columnId).length = columnId := by
        rw [length_take, hrow.length_eq, Nat.min_eq_left hcol.le]
      have ht := congrArg (take columnId) (hh r hr)
      rwa [take_left' hl] at ht
    · exact hreported'.common r hr
  · refine pairwise_append.mpr ⟨hreported.apart, hreported'.apart, fun r hr r' hr' => ?_⟩
    obtain ⟨item', hitem', hshape'⟩ := hshape r' hr'
    exact ⟨row.take columnId, _, _, _, _, hh r hr, hshape', hsorted item' hitem'⟩
  · obtain ⟨i, hi, k, hk, hin, hsat⟩ := hsat
    rcases mem_cons.mp hi with rfl | hi
    · obtain ⟨r, hr, hcov⟩ := hreported.covers key hkey hsat (hb.set hrow hk hin)
      exact ⟨r, mem_append_left _ hr, hcov⟩
    · obtain ⟨r, hr, hcov⟩ := hreported'.covers key hkey ⟨i, hi, k, hk, hin, hsat⟩ hb
      exact ⟨r, mem_append_right _ hr, hcov⟩

theorem generateItems_spec (hrow : RowOk B h.columns.length columnId row)
    (hc : columnId < h.columns.length) :
    ∀ (items : List (Constraint α)), (∀ item ∈ items, ItemOk B h columnId item) →
    SortedItems items →
      (∀ item ∈ items, WalkOk B h width walk item.next) → ∀ x : ColumnConstraint α,
      ((∃ item ∈ items, ReachesEmpty h width item.next) →
        generateItems walk columnId items (row.set columnId x) = .error .undefined) ∧
      ((∀ item ∈ items, ¬ReachesEmpty h width item.next) → ∃ reported y,
        generateItems walk columnId items (row.set columnId x) =
          .ok (reported, row.set columnId y) ∧
        (∀ r ∈ reported, ∃ item ∈ items, HasColumn row columnId item.toColumnConstraint r) ∧
        Reported B h columnId (SatItems h columnId items) row reported)
  | [], _, _, _, x => by
    refine ⟨by simp, fun _ => ⟨[], x, rfl, by simp, by simp, by simp, by simp, .nil, ?_⟩⟩
    rintro key - ⟨item, hitem, -⟩
    simp at hitem
  | item :: items, hitems, hsorted, hw, x => by
    have hitem := hitems item (by simp)
    obtain ⟨hsortedHead, hsortedTail⟩ := pairwise_cons.mp hsorted
    obtain ⟨hb, hg⟩ := hw item (by simp) (row.set columnId item.toColumnConstraint)
      (hrow.set (columnOk_of_itemOk hitem) hitem.next_after)
    obtain ⟨hb', hg'⟩ := generateItems_spec hrow hc items (forall_mem_cons.mp hitems).2 hsortedTail
      (forall_mem_cons.mp hw).2 item.toColumnConstraint
    rw [generateItems, set_set]
    refine ⟨fun hex => ?_, fun ha => ?_⟩
    · by_cases hhere : ReachesEmpty h width item.next
      · rw [hb hhere]
        rfl
      · obtain ⟨reported, hrun, -⟩ := hg hhere
        simp only [hrun, ok_bind, hb' (((exists_mem_cons_iff _ _ _).mp hex).resolve_left hhere)]
        rfl
    · obtain ⟨reported, hrun, hreported⟩ := hg (ha item (by simp))
      obtain ⟨others, y, hrun', hshape, hreported'⟩ := hg' (forall_mem_cons.mp ha).2
      have hhead : ∀ r ∈ reported, HasColumn row columnId item.toColumnConstraint r := fun r hr =>
        hasColumn_of_take hitem.next_after (hrow.length_eq ▸ hc) (hreported.common r hr)
      refine ⟨reported ++ others, y, by simp only [hrun, ok_bind, hrun']; rfl, ?_,
        hreported.append hrow hc hreported' hhead hshape hsortedHead⟩
      simp only [exists_mem_cons_iff]
      exact forall_mem_append.mpr ⟨fun r hr => .inl (hhead r hr), fun r hr => .inr (hshape r hr)⟩

theorem Reported.mono {P Q : Key α → Prop} (hr : Reported B h columnId P row reported)
    (hi : ∀ key, Q key → P key) : Reported B h columnId Q row reported :=
  ⟨hr.length_eq, hr.ok, hr.common, hr.apart, fun key hk hq => hr.covers key hk (hi key hq)⟩

theorem RowOk.set_universalInterval {n : ℕ} (hr : RowOk B n columnId row) :
    row.set columnId .universalInterval = row := by
  refine ext_getElem? fun i => ?_
  rw [getElem?_set]
  split_ifs with hi hl
  · subst hi
    rw [getElem?_eq_getElem hl, hr.universal columnId le_rfl _ (getElem?_eq_getElem hl)]
  · subst hi
    rw [getElem?_eq_none (not_lt.mp hl)]
  · rfl

theorem satItems_of_sat (hsent : ref.columnId ≠ sentinelColumnId) {key : Key α}
    (hsat : h.Sat key ref) : SatItems h ref.columnId (h.slice ref) key := by
  cases hsat with
  | universal hu => exact absurd hu hsent
  | interval _ hi hk ht hn => exact ⟨_, hi, _, hk, testValue_iff.mp ht, hn⟩

theorem getLowerBound_le_of_head : ∀ {items : List (Constraint α)} {front : Constraint α},
    SortedItems items →
    (∀ item ∈ items, item.getLowerBound < item.getUpperBound) → items.head? = some front →
    ∀ item ∈ items, front.getLowerBound ≤ item.getLowerBound
  | first :: items, front, hs, hlt, hf, item, hi => by
    obtain rfl : first = front := by simpa using hf
    rcases mem_cons.mp hi with rfl | hi
    · exact le_rfl
    · exact (hlt first (by simp)).le.trans ((pairwise_cons.mp hs).1 item hi)

theorem getUpperBound_le_of_getLast : ∀ {items : List (Constraint α)} {back : Constraint α},
    SortedItems items →
    (∀ item ∈ items, item.getLowerBound < item.getUpperBound) → items.getLast? = some back →
    ∀ item ∈ items, item.getUpperBound ≤ back.getUpperBound
  | [first], back, _, _, hb, item, hitem => by
    obtain rfl : first = back := by simpa using hb
    rw [mem_singleton.mp hitem]
  | first :: second :: items, back, hs, hlt, hb, item, hitem => by
    obtain ⟨hh, ht⟩ := pairwise_cons.mp hs
    have hlt' : ∀ i ∈ second :: items, i.getLowerBound < i.getUpperBound := (forall_mem_cons.mp hlt).2
    have ih := getUpperBound_le_of_getLast ht hlt' (by simpa using hb)
    rcases mem_cons.mp hitem with rfl | hitem
    · exact (hh second (by simp)).trans ((hlt' second (by simp)).le.trans (ih second (by simp)))
    · exact ih item hitem

theorem reported_hull (hr : RowOk B h.columns.length ref.columnId row)
    (hsent : ref.columnId ≠ sentinelColumnId)
    (hitems : ∀ item ∈ h.slice ref, ItemOk B h ref.columnId item)
    (hsorted : SortedItems (h.slice ref))
    {front back : Constraint α} (hfront : (h.slice ref).head? = some front)
    (hback : (h.slice ref).getLast? = some back) : Reported B h ref.columnId (h.Sat · ref) row
      [row.set ref.columnId ⟨front.getLowerBound, back.getUpperBound⟩] := by
  have hlt : ∀ item ∈ h.slice ref, item.getLowerBound < item.getUpperBound :=
    fun item hi => (hitems item hi).lt
  have hfm : front ∈ h.slice ref := mem_of_mem_head? hfront
  have hbm : back ∈ h.slice ref := mem_of_mem_getLast? hback
  have hlow := getLowerBound_le_of_head hsorted hlt hfront
  have hup := getUpperBound_le_of_getLast hsorted hlt hback
  have hok : ColumnOk B ⟨front.getLowerBound, back.getUpperBound⟩ :=
    ⟨(hlow back hbm).trans_lt (hlt back hbm), (hitems front hfm).lower_mem, (hitems back hbm).upper_mem⟩
  have hset := hr.set hok (Nat.lt_succ_self ref.columnId)
  refine ⟨by simp, by simpa using hset.ok, by simp [take_set_of_le], pairwise_singleton _ _, ?_⟩
  intro key hkey hsat hbefore
  obtain ⟨item, hitem, k, hk, hin, -⟩ := satItems_of_sat hsent hsat
  refine ⟨_, mem_singleton_self _, hset.forall₂ hkey (hbefore.set hr hk ?_)⟩
  exact ⟨(hlow item hitem).trans hin.1, hin.2.trans_le (hup item hitem)⟩

theorem generateReadRanges_spec (hwf : WellFormed B h) : ∀ (fuel : ℕ) (ref : ConstraintRef),
    h.Valid ref → 0 < fuel → h.columns.length < fuel + ref.columnId →
    WalkOk B h width (h.generateReadRanges width fuel) ref
  | 0, _, _, hp, _ => absurd hp (lt_irrefl 0)
  | fuel + 1, ref, hv, _, hfuel => by
    intro row hrow
    by_cases hsent : ref.columnId = sentinelColumnId
    · -- a leaf
      have hslice : h.slice ref = [] := by
        rw [slice, hsent, column_of_length_le hwf.columnCount, take_nil, drop_nil]
      refine ⟨fun hreach => ?_, fun _ => ⟨[row], by rw [generateReadRanges, if_pos hsent]; rfl, ?_⟩⟩
      · cases hreach with
        | empty hne _ _ => exact absurd hsent hne
        | next _ hitem _ => simp [hslice] at hitem
      · exact ⟨by simp, by simpa using hrow.ok, by simp, pairwise_singleton _ _,
          fun key hk _ hbefore => ⟨row, mem_singleton_self _, hrow.forall₂ hk hbefore⟩⟩
    · obtain ⟨hc, -, -, hsorted⟩ := hv.resolve_left hsent
      have hitems : ∀ item ∈ h.slice ref, ItemOk B h ref.columnId item := fun item hi =>
        hwf.items _ item (mem_column_of_mem_slice hi)
      by_cases hd : width ≤ ref.columnId
      · rw [generateReadRanges, if_neg hsent, if_pos hd]
        refine ⟨fun hreach => ?_, fun hreach => ?_⟩
        · cases hreach with
          | empty _ _ hslice => rw [hslice]; rfl
          | next hlt _ _ => exact absurd hlt (not_lt.mpr hd)
        · have hne : h.slice ref ≠ [] := fun hslice => hreach (.empty hsent hd hslice)
          obtain ⟨front, hfront⟩ : ∃ front, (h.slice ref).head? = some front := by
            rw [← Option.isSome_iff_exists]
            simpa using hne
          obtain ⟨back, hback⟩ : ∃ back, (h.slice ref).getLast? = some back := by
            rw [← Option.isSome_iff_exists]
            simpa using hne
          refine ⟨_, ?_, reported_hull hrow hsent hitems hsorted hfront hback⟩
          simp only [hfront, hback, set_set, hrow.set_universalInterval]
          rfl
      · have hwalk : ∀ item ∈ h.slice ref,
            WalkOk B h width (h.generateReadRanges width fuel) item.next :=
          fun item hi => by
            have ha := (hitems item hi).next_after
            exact generateReadRanges_spec hwf fuel item.next (hitems item hi).next_valid
              (by omega) (by omega)
        obtain ⟨hbad, hg⟩ := generateItems_spec hrow hc _ hitems hsorted hwalk .universalInterval
        rw [hrow.set_universalInterval] at hbad hg
        rw [generateReadRanges, if_neg hsent, if_neg hd]
        refine ⟨fun hreach => ?_, fun hreach => ?_⟩
        · cases hreach with
          | empty _ hle _ => exact absurd hle hd
          | next _ hitem hnext =>
            rw [hbad ⟨_, hitem, hnext⟩]
            rfl
        · obtain ⟨reported, y, hrun, -, hreported⟩ := hg fun item hi hnext =>
            hreach (.next (not_le.mp hd) hi hnext)
          refine ⟨reported, ?_, hreported.mono fun key hsat => satItems_of_sat hsent hsat⟩
          simp only [hrun, ok_bind, set_set, hrow.set_universalInterval]
          rfl

end Walk

/-! ### Any width limit -/

/-- `GenerateReadRanges` under a width limit: it returns, the rows that it
reports hold every key of the constraint between them, and `Row_` is all
universal again. -/
def ReadRangesCover (h : ConstraintsHolder α) (keyWidthLimit : ℕ) (ref : ConstraintRef) : Prop :=
  ∃ reported, h.generateReadRanges keyWidthLimit (h.columns.length + 1) ref
      (replicate h.columns.length .universalInterval) =
        .ok (reported, replicate h.columns.length .universalInterval) ∧
    ∀ key : Key α, key.length = h.columns.length → h.Sat key ref → ∃ row ∈ reported,
      Forall₂ InColumn row key

theorem inColumnsBefore_replicate (n columnId : ℕ) (key : Key α) :
    InColumnsBefore columnId (replicate n .universalInterval) key := by
  intro i _ col hc k _
  rw [eq_of_mem_replicate (mem_of_getElem? hc)]
  exact inColumn_universalInterval k

/-- Read ranges of a constraint that any run of the constraint operations has
built are safe and cover the constraint exactly when the walk reaches no empty
slice at or below the width limit. -/
theorem generateReadRanges_covers_iff {n : ℕ} {h : ConstraintsHolder α} {refs : List ConstraintRef}
    {ref : ConstraintRef} (hn : n ≤ sentinelColumnId) (hrun : Reachable Set.univ n h refs)
    (href : ref ∈ refs) (keyWidthLimit : ℕ) :
    ReadRangesCover h keyWidthLimit ref ↔ ¬ReachesEmpty h keyWidthLimit ref := by
  have hinv := hrun.runInv hn (Set.mem_univ _) (Set.mem_univ _)
  have hwalk : WalkOk Set.univ h keyWidthLimit _ ref :=
    generateReadRanges_spec hinv.wf (h.columns.length + 1) ref
    (hinv.valid ref href) (by omega) (by omega)
  obtain ⟨hbad, hgood⟩ := hwalk _ (rowOk_replicate (Set.mem_univ _) (Set.mem_univ _) _ _)
  refine ⟨fun ⟨reported, hok, _⟩ hreach => ?_, fun hreach => ?_⟩
  · rw [hbad hreach] at hok
    cases hok
  · obtain ⟨reported, hok, hreported⟩ := hgood hreach
    exact ⟨reported, hok, fun key hkey hsat =>
      hreported.covers key hkey hsat (inColumnsBefore_replicate _ _ key)⟩

/-- `a = 3 AND 1 ≤ b ≤ 5`. -/
def bothColumns : ConstraintsHolder ℕ :=
  ⟨[[⟨.data 3, .data 3, .universal, true, true⟩, ⟨.data 3, .data 3, ⟨1, 1, 2⟩, true, true⟩],
    [⟨.data 1, .data 5, .universal, true, true⟩, ⟨.data 1, .data 5, .universal, true, true⟩]]⟩

theorem reachable_bothColumns {B : Set (ValueBound ℕ)} (hB : ∀ a flag, ⟨.data a, flag⟩ ∈ B) :
    Reachable B 2 bothColumns [⟨0, 1, 2⟩, ⟨1, 0, 1⟩, ⟨0, 0, 1⟩, .universal] := by
  have hboth : twoColumns.intersect ⟨0, 0, 1⟩ ⟨1, 0, 1⟩ = .ok (bothColumns, ⟨0, 1, 2⟩) := by
    decide +kernel
  exact .intersect (reachable_twoColumns hB) (by simp) (by simp) hboth

/-- The walk stops at the second column, which has an interval. -/
theorem generateReadRanges_covers_example : ReadRangesCover bothColumns 1 ⟨0, 1, 2⟩ := by
  refine (generateReadRanges_covers_iff (n := 2) (by decide)
    (reachable_bothColumns fun _ _ => Set.mem_univ _) mem_cons_self 1).mpr fun hreach => ?_
  cases hreach with
  | empty _ hle _ => exact absurd hle (by decide)
  | next _ hitem hnext =>
    have hslice : bothColumns.slice ⟨0, 1, 2⟩ = [⟨.data 3, .data 3, ⟨1, 1, 2⟩, true, true⟩] := rfl
    rw [hslice] at hitem
    obtain rfl := mem_singleton.mp hitem
    cases hnext with
    | empty _ _ hempty => exact absurd hempty (by decide)
    | next hlt _ _ => exact absurd hlt (by decide)

/-- `NOT (a = 1 AND b)`, where `b` is any value, over the key columns `a` and
`b` under a width limit of one column: the interval of `a = 1` leads to an empty
slice, and the walk takes its front. -/
theorem generateReadRanges_undefined :
    ∃ (h : ConstraintsHolder ℕ) (ref : ConstraintRef) (refs : List ConstraintRef),
      Reachable Set.univ 2 h refs ∧ ref ∈ refs ∧
        h.generateReadRanges 1 3 ref (replicate 2 .universalInterval) = .error .undefined := by
  let one : ConstraintRef → Constraint ℕ := fun next => ⟨.data 1, .data 1, next, true, true⟩
  let anyValue : Constraint ℕ := ⟨.min, .max, .universal, true, false⟩
  let below : Constraint ℕ := ⟨.min, .data 1, .universal, true, false⟩
  let above : Constraint ℕ := ⟨.data 1, .max, .universal, false, false⟩
  have h1 : (new 2 : ConstraintsHolder ℕ).constant (.data 1) 0 =
      .ok (⟨[[one .universal], []]⟩, ⟨0, 0, 1⟩) := by
    decide +kernel
  have h2 : (⟨[[one .universal], []]⟩ : ConstraintsHolder ℕ).interval .minBound .maxBound 1 =
      .ok (⟨[[one .universal], [anyValue]]⟩, ⟨1, 0, 1⟩) := by decide +kernel
  have h3 : (⟨[[one .universal], [anyValue]]⟩ : ConstraintsHolder ℕ).intersect ⟨0, 0, 1⟩ ⟨1, 0, 1⟩ =
      .ok (⟨[[one .universal, one ⟨1, 1, 2⟩], [anyValue, anyValue]]⟩, ⟨0, 1, 2⟩) := by decide +kernel
  have h4 : (⟨[[one .universal, one ⟨1, 1, 2⟩], [anyValue, anyValue]]⟩ : ConstraintsHolder ℕ).invert
      ⟨0, 1, 2⟩ =
      .ok (⟨[[one .universal, one ⟨1, 1, 2⟩, below, one ⟨1, 2, 2⟩, above], [anyValue, anyValue]]⟩,
        ⟨0, 2, 5⟩) := by
    decide +kernel
  have hrun1 := Reachable.constant .new (by decide) (Set.mem_univ _) (Set.mem_univ _) h1
  have hrun2 := Reachable.interval hrun1 (by decide) minBound_lt_maxBound (Set.mem_univ _)
    (Set.mem_univ _) h2
  have hrun3 := Reachable.intersect hrun2 (by simp) (by simp) h3
  refine ⟨_, _, _, .invert hrun3 (by simp) h4, mem_cons_self, ?_⟩
  decide +kernel

/-! ### The estimation -/

omit [LinearOrder α] in
theorem estimateItems_ok {estimate : ConstraintRef → Result ℕ} {limit : ℕ} :
    ∀ {items : List (Constraint α)} (result : ℕ),
    (∀ item ∈ items, ∃ r, estimate item.next = .ok r) →
    ∃ r, estimateItems estimate limit items result = .ok r
  | [], result, _ => ⟨result, rfl⟩
  | item :: items, result, hok => by
    obtain ⟨r, hr⟩ := hok item (by simp)
    rw [estimateItems, hr, ok_bind]
    split_ifs
    · exact estimateItems_ok _ (forall_mem_cons.mp hok).2
    · exact ⟨limit, rfl⟩

theorem estimateExpansion_ok {h : ConstraintsHolder α} (width limit : ℕ)
    (hwf : WellFormed proper h) : ∀ (fuel : ℕ) (ref : ConstraintRef), h.Valid ref → 0 < fuel →
    h.columns.length < fuel + ref.columnId → ∃ r, h.estimateExpansion width limit fuel ref = .ok r
  | 0, _, _, hp, _ => absurd hp (lt_irrefl 0)
  | fuel + 1, ref, hv, _, hf => by
    rw [estimateExpansion]
    split_ifs with hl
    · exact ⟨1, rfl⟩
    · obtain ⟨hc, -⟩ := hv.resolve_left (not_or.mp hl).1
      refine estimateItems_ok 0 fun item hi => ?_
      have hitem := hwf.items _ item (mem_column_of_mem_slice hi)
      have ha := hitem.next_after
      exact estimateExpansion_ok width limit hwf fuel item.next hitem.next_valid (by omega) (by omega)

theorem expansionDepth_ok {h : ConstraintsHolder α} (limit : ℕ) (hwf : WellFormed proper h)
    (hv : h.Valid ref) : ∀ left width expansion, ∃ r,
      h.expansionDepth ref limit left width expansion = .ok r
  | 0, width, expansion => ⟨(width, expansion), rfl⟩
  | left + 1, width, expansion => by
    obtain ⟨r, hr⟩ := estimateExpansion_ok width limit hwf (h.columns.length + 1) ref hv
      (by omega) (by omega)
    rw [expansionDepth, hr, ok_bind]
    split_ifs
    · exact ⟨(width, expansion), rfl⟩
    · exact expansionDepth_ok limit hwf hv left (width + 1) r

/-! ### The ranges -/

/-- The key passes the tests against both bounds of a range. -/
def InRange (c : Comparator) (range : RowRange α) (key : Key α) : Prop :=
  ∃ lower upper : KeyBound α, lowerKeyBound c range = toKeyBoundRef lower ∧
    upperKeyBound c range = toKeyBoundRef upper ∧ c.Accepts lower key ∧ c.Accepts upper key

/-- The first bound is strictly before the second one. -/
def StrictlyBefore (c : Comparator) (lhs rhs : KeyBoundRef α) : Prop :=
  ∃ r, c.compareKeyBoundRefs lhs rhs 0 = .ok r ∧ r < 0

/-- The ranges are increasing and disjoint and cover the keys that satisfy the
constraint. -/
structure RangesCorrect (c : Comparator) (h : ConstraintsHolder α) (ref : ConstraintRef)
    (ranges : List (RowRange α)) : Prop where
  nonempty : ∀ range ∈ ranges, StrictlyBefore c (lowerKeyBound c range) (upperKeyBound c range)
  increasing : ranges.Pairwise fun range range' =>
    StrictlyBefore c (upperKeyBound c range) (lowerKeyBound c range')
  disjoint : ranges.Pairwise fun range range' =>
    ∀ key : Key α, key.length = c.getLength → ¬(InRange c range key ∧ InRange c range' key)
  covers : ∀ key : Key α, key.length = c.getLength → h.Sat key ref → ∃ range ∈ ranges,
    InRange c range key

theorem accepts_of_toKeyBoundRef {bound : KeyBound α} {isUpper : Bool}
    (hl : cut.values.length ≤ c.getLength)
    (heq : toKeyBoundRef (cut.keyBound isUpper) = toKeyBoundRef bound)
    (hk : key.length = c.getLength) :
    c.Accepts bound key ↔ if isUpper then BelowFrom c 0 key cut else ¬BelowFrom c 0 key cut := by
  have hu : bound.isUpper = isUpper := (congrArg KeyBoundRef.upper heq).symm
  have hf : c.Fits bound := by
    have hv := congrArg (fun b => b.values.length) heq
    simp only [toKeyBoundRef, length_map] at hv
    rw [Comparator.Fits, ← hv]
    exact hl
  rw [Comparator.accepts_iff hk hf, Comparator.BelowBound, ← heq, after_keyBound, hu]
  rfl

theorem inRange_rows {range : CutRange α} (hok : RangeOk c range) (hk : key.length = c.getLength) :
    InRange c range.rows key ↔ KeyIn c range key := by
  have hlow : lowerKeyBound c range.rows = toKeyBoundRef (range.1.keyBound false) :=
    rowToKeyBoundRef_row hok.lower_length false
  have hup : upperKeyBound c range.rows = toKeyBoundRef (range.2.keyBound true) :=
    rowToKeyBoundRef_row hok.upper_length true
  constructor
  · rintro ⟨lower, upper, hl, hu, hal, hau⟩
    rw [accepts_of_toKeyBoundRef hok.lower_length (hlow.symm.trans hl) hk] at hal
    rw [accepts_of_toKeyBoundRef hok.upper_length (hup.symm.trans hu) hk] at hau
    exact ⟨hal, hau⟩
  · rintro ⟨hal, hau⟩
    refine ⟨_, _, hlow, hup, ?_, ?_⟩
    · rwa [accepts_of_toKeyBoundRef hok.lower_length rfl hk]
    · rwa [accepts_of_toKeyBoundRef hok.upper_length rfl hk]

theorem lightCutsFrom_length : ∀ (row : ConstraintRow α) (index : ℕ),
    (lightCutsFrom c index row).1.values.length ≤ row.length ∧
      (lightCutsFrom c index row).2.values.length ≤ row.length
  | [], _ => by simp [lightCutsFrom]
  | col :: row, index => by
    have hc : ∀ (asc u : Bool) (bound : ValueBound α), (columnCut asc u bound).values.length ≤ 1 :=
        fun asc u bound => by
      unfold columnCut
      split <;> simp
    rw [lightCutsFrom]
    cases col.exactValue? with
    | some value =>
      obtain ⟨h1, h2⟩ := lightCutsFrom_length row (index + 1)
      simpa [Cut.cons] using ⟨h1, h2⟩
    | none =>
      simp only [columnCuts, length_cons]
      exact ⟨(hc _ _ _).trans (by omega), (hc _ _ _).trans (by omega)⟩

variable {ref : ConstraintRef}

theorem Folded.rangesCorrect {lower : Cut α} {covered : Key α → Prop} {out : List (CutRange α)}
    (hf : Folded c lower covered out)
    (hc : ∀ key : Key α, key.length = c.getLength → h.Sat key ref → covered key)
    : RangesCorrect c h ref (out.map CutRange.rows) := by
  refine ⟨forall_mem_map.mpr fun range hrange => ?_, ?_, ?_, fun key hk hs => ?_⟩
  · have hok := hf.ok range hrange
    exact ⟨_, compareKeyBoundRefs_row hok.lower_length hok.upper_length false true, hok.lt⟩
  · refine pairwise_map.mpr (hf.apart.imp_of_mem fun {a b} ha hb hlt => ?_)
    exact ⟨_, compareKeyBoundRefs_row (hf.ok a ha).upper_length
      (hf.ok b hb).lower_length true false, hlt⟩
  · refine pairwise_map.mpr (hf.apart.imp_of_mem fun {a b} ha hb hlt key hk => ?_)
    rw [inRange_rows (hf.ok a ha) hk, inRange_rows (hf.ok b hb) hk]
    rintro ⟨⟨-, hbelow⟩, hn, -⟩
    exact hn (belowFrom_mono hk (hf.ok a ha).upper_length (hf.ok b hb).lower_length hlt.le hbelow)
  · obtain ⟨range, hrange, hin⟩ := hf.covers key hk (hc key hk hs)
    exact ⟨range.rows, mem_map_of_mem hrange, (inRange_rows (hf.ok range hrange) hk).mpr hin⟩

theorem rangesCorrect_nil
    (he : ∀ key : Key α, key.length = c.getLength → ¬h.Sat key ref) : RangesCorrect c h ref [] :=
  ⟨by simp, .nil, .nil, fun key hk hs => absurd hs (he key hk)⟩

theorem rangesOf_reported {columnId : ℕ} {P : Key α → Prop}
    (hreported : Reported proper h columnId P row reported) (hlen : row.length = c.getLength) :
    reported.map (lightRange c) = (reported.map (lightCutsFrom c 0)).map CutRange.rows ∧
      (∀ range ∈ reported.map (lightCutsFrom c 0), RangeOk c range) ∧
      (reported.map (lightCutsFrom c 0)).Pairwise (RangesApart c 0) := by
  refine ⟨?_, fun range hrange => ?_, ?_⟩
  · rw [map_map]
    exact map_congr_left fun r hr => lightRange_eq (hreported.ok r hr)
  · obtain ⟨r, hr, rfl⟩ := mem_map.mp hrange
    obtain ⟨h1, h2⟩ := lightCutsFrom_length (c := c) r 0
    rw [hreported.length_eq r hr, hlen] at h1 h2
    exact ⟨lightCutsFrom_lt r 0 (hreported.ok r hr), h1, h2⟩
  · refine pairwise_map.mpr (hreported.apart.imp_of_mem fun {r r'} hr hr' ha => ?_)
    have hok := hreported.ok r hr
    have hok' := hreported.ok r' hr'
    obtain ⟨common, col, col', rest, rest', rfl, rfl, hle⟩ := ha
    exact rangesApart_of_rowsApart rest rest' (hok col (by simp)) (hok' col' (by simp)) hle common 0

theorem lightRanges_ok {width expansion limit : ℕ}
    (hwf : WellFormed proper h) (hv : h.Valid ref) (hl : h.columns.length = c.getLength)
    (hd : h.getExpansionDepthAndEstimation ref limit = .ok (width, expansion))
    (hreach : ¬ReachesEmpty h width ref) :
    ∃ ranges, h.lightRanges ref c limit = .ok ranges ∧ RangesCorrect c h ref ranges := by
  obtain ⟨reported, hrun, hreported⟩ :=
    (generateReadRanges_spec hwf (h.columns.length + 1) ref hv (by omega)
    (by omega) _ (rowOk_replicate minBound_mem_proper maxBound_mem_proper _ _)).2 hreach
  obtain ⟨hm, hok, hpair⟩ := rangesOf_reported (c := c) hreported (by simpa using hl)
  obtain ⟨sorted, hsort, hperm, horder⟩ := sortRanges_spec hok hpair
  -- every key of the constraint is in the range of a reported row
  have hc : ∀ key : Key α, key.length = c.getLength → h.Sat key ref → ∃ range ∈ sorted,
      KeyIn c range key := by
    intro key hk hsat
    obtain ⟨r, hr, hin⟩ := hreported.covers key (hk.trans hl.symm) hsat
      (inColumnsBefore_replicate _ _ key)
    exact ⟨_, hperm.mem_iff.mpr (mem_map_of_mem hr), lightCutsFrom_between 0 (hreported.ok r hr) hin⟩
  have heq : h.lightRanges ref c limit = foldAllRanges c (sorted.map CutRange.rows) := by
    simp only [lightRanges, hd, ok_bind, hrun, hm, hsort]
  cases sorted with
  | nil =>
    refine ⟨[], heq, rangesCorrect_nil fun key hk hsat => ?_⟩
    obtain ⟨range, hrange, -⟩ := hc key hk hsat
    simp at hrange
  | cons first sorted =>
    have hok' : ∀ range ∈ first :: sorted, RangeOk c range :=
      fun range hr => hok range (hperm.mem_iff.mp hr)
    obtain ⟨out, hfold, hf⟩ := foldRanges_spec sorted first first (hok' first (by simp)) rfl
      ((signCmp_compareCutsFrom 0).self _).le horder hok'
    refine ⟨_, heq.trans hfold, hf.rangesCorrect fun key hk hsat => ?_⟩
    obtain ⟨range, hrange, hin⟩ := hc key hk hsat
    rcases mem_cons.mp hrange with rfl | hrange
    · exact .inl hin
    · exact .inr ⟨range, hrange, hin⟩

/-- Light range inference of a constraint that the constraint algebra has
built: no check fails, and the ranges are increasing, disjoint and cover the
constraint, exactly when the walk reaches no empty slice below the expansion
depth. -/
theorem lightRanges_correct_iff {h : ConstraintsHolder α} {refs : List ConstraintRef}
    {ref : ConstraintRef}
    (hcount : c.getLength ≤ sentinelColumnId) (hrun : Reachable proper c.getLength h refs)
    (href : ref ∈ refs) (limit : ℕ) :
    ∃ keyWidth expansion, h.getExpansionDepthAndEstimation ref limit = .ok (keyWidth, expansion) ∧
      ((∃ ranges, h.lightRanges ref c limit = .ok ranges ∧ RangesCorrect c h ref ranges) ↔
        ¬ReachesEmpty h keyWidth ref) := by
  have hinv := hrun.runInv hcount minBound_mem_proper maxBound_mem_proper
  have hvalid := hinv.valid ref href
  obtain ⟨⟨keyWidth, expansion⟩, hdepth⟩ :=
    expansionDepth_ok limit hinv.wf hvalid h.columns.length 0 1
  refine ⟨keyWidth, expansion, hdepth, fun ⟨ranges, hranges, _⟩ hreach => ?_,
    lightRanges_ok hinv.wf hvalid hinv.length_eq hdepth⟩
  have hwalk := (generateReadRanges_spec hinv.wf (h.columns.length + 1) ref hvalid (by omega)
    (by omega) _ (rowOk_replicate minBound_mem_proper maxBound_mem_proper _ _)).1 hreach
  have hdepth' : h.getExpansionDepthAndEstimation ref limit = .ok (keyWidth, expansion) := hdepth
  simp only [lightRanges, hdepth', ok_bind, hwalk] at hranges
  cases hranges

/-- A walk that may use every column reaches no empty slice at the limit. -/
theorem not_reachesEmpty {B : Set (ValueBound α)} {width : ℕ} (hwf : WellFormed B h)
    (hwidth : h.columns.length ≤ width) (hv : h.Valid ref) : ¬ReachesEmpty h width ref := by
  intro hreach
  induction hreach with
  | empty hne hle _ =>
    rcases hv with hsentinel | ⟨hlt, -⟩
    · exact hne hsentinel
    · omega
  | next _ hitem _ ih => exact ih (hwf.items _ _ (mem_column_of_mem_slice hitem)).next_valid

theorem lightRanges_correct_descending :
    let c : Comparator := ⟨[.ascending, .descending]⟩
    ∃ ranges, bothColumns.lightRanges ⟨0, 1, 2⟩ c 10 = .ok ranges ∧
      RangesCorrect c bothColumns ⟨0, 1, 2⟩ ranges := by
  intro c
  have hrun : Reachable proper c.getLength bothColumns _ := reachable_bothColumns data_mem_proper
  obtain ⟨keyWidth, expansion, hdepth, hiff⟩ :=
    lightRanges_correct_iff (by decide) hrun mem_cons_self 10
  have hdepth' : bothColumns.getExpansionDepthAndEstimation ⟨0, 1, 2⟩ 10 = .ok (2, 1) := by
    decide +kernel
  obtain ⟨rfl, rfl⟩ := Prod.mk.inj (Except.ok.inj (hdepth.symm.trans hdepth'))
  have hinv := hrun.runInv (by decide) minBound_mem_proper maxBound_mem_proper
  exact hiff.mpr (not_reachesEmpty hinv.wf le_rfl (hinv.valid _ mem_cons_self))

/-- `b = 1 AND b = 2` over the key columns `a` and `b`, with the expansion limit 1:
the walk takes the front of an empty slice. -/
theorem lightRanges_undefined :
    ∃ (h : ConstraintsHolder ℕ) (ref : ConstraintRef) (refs : List ConstraintRef),
      Reachable proper 2 h refs ∧ ref ∈ refs ∧ h.lightRanges ref ⟨[.ascending, .ascending]⟩ 1 =
        .error .undefined := by
  let h1 : ConstraintsHolder ℕ := ⟨[[], [⟨.data 1, .data 1, .universal, true, true⟩]]⟩
  let h2 : ConstraintsHolder ℕ :=
    ⟨[[], [⟨.data 1, .data 1, .universal, true, true⟩, ⟨.data 2, .data 2, .universal, true, true⟩]]⟩
  have hone : (new 2 : ConstraintsHolder ℕ).constant (.data 1) 1 = .ok (h1, ⟨1, 0, 1⟩) := by
    decide +kernel
  have htwo : h1.constant (.data 2) 1 = .ok (h2, ⟨1, 1, 2⟩) := by decide +kernel
  have hboth : h2.intersect ⟨1, 0, 1⟩ ⟨1, 1, 2⟩ = .ok (h2, ⟨1, 2, 2⟩) := by decide +kernel
  have hrun1 : Reachable proper 2 h1 [⟨1, 0, 1⟩, .universal] :=
    .constant .new (by decide) (data_mem_proper ..) (data_mem_proper ..) hone
  have hrun2 : Reachable proper 2 h2 [⟨1, 1, 2⟩, ⟨1, 0, 1⟩, .universal] :=
    .constant hrun1 (by decide) (data_mem_proper ..) (data_mem_proper ..) htwo
  refine ⟨h2, ⟨1, 2, 2⟩, _, .intersect hrun2 (by simp) (by simp) hboth, mem_cons_self, ?_⟩
  decide +kernel

end Ytsaurus.Query
