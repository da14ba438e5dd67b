/-
# The constraint algebra is exact

The keys that satisfy a reference (`Sat`), the invariant of a holder
(`WellFormed`: every stored interval is non-empty and its `Next` is a sorted
slice of a later column), and what an operation does to a holder (`Grows`,
`OpResult`: it appends to the columns from its own on, and nothing else). From
these follow the specifications of `Intersect`, `Unite` and `Invert`, by
induction on the fuel with one loop lemma each, and what holds along every run
of operations (`constraintAlgebra_exact`).

Bounds of stored intervals are taken from a set `B`, to be used where callers
promise more about them.
-/
import Ytsaurus.Lib.IntervalList
import Ytsaurus.TableClient.KeyBound
import Ytsaurus.Query.Constraints

namespace Ytsaurus.Query

open List TableClient Lib IntervalList Constraint

section

variable {α : Type} [LinearOrder α]

namespace ValueBound

variable {b : ValueBound α}

theorem lt_iff {a : ValueBound α} : a < b ↔ a.value < b.value ∨ a.value = b.value ∧
    a.flag < b.flag :=
  Prod.Lex.toLex_lt_toLex

theorem le_iff {a : ValueBound α} : a ≤ b ↔ a.value < b.value ∨ a.value = b.value ∧
    a.flag ≤ b.flag :=
  Prod.Lex.toLex_le_toLex

theorem minBound_le (b : ValueBound α) : minBound ≤ b := by
  rw [le_iff]
  rcases (Value.min_le b.value).lt_or_eq with h | h
  · exact .inl h
  · exact .inr ⟨h, Bool.false_le _⟩

/-- The place of a data value among the bounds. -/
def point (a : α) : ValueBound α := ⟨.data a, false⟩

theorem point_lt_maxBound (a : α) : point a < maxBound := lt_iff.mpr (.inl (Value.data_lt_max a))

theorem lt_after_iff {v : Value α} : b < ⟨v, true⟩ ↔ b ≤ ⟨v, false⟩ := by
  rw [lt_iff, le_iff]
  refine or_congr_right (and_congr_right fun _ => ?_)
  cases b.flag <;> simp

variable {a v : α}

@[simp] theorem before_le_point : (⟨.data a, false⟩ : ValueBound α) ≤ point v ↔ a ≤ v := by
  rw [le_iff, le_iff_lt_or_eq (a := a)]
  simp [point]

@[simp] theorem after_le_point : (⟨.data a, true⟩ : ValueBound α) ≤ point v ↔ a < v := by
  simp [le_iff, point]

@[simp] theorem point_lt_before : point v < (⟨.data a, false⟩ : ValueBound α) ↔ v < a := by
  simp [lt_iff, point]

@[simp] theorem point_lt_after : point v < (⟨.data a, true⟩ : ValueBound α) ↔ v ≤ a := by
  rw [lt_iff, le_iff_lt_or_eq (a := v)]
  simp [point]

/-- The bounds that constraints on keys have: at a data value, or at the very
ends. -/
def proper : Set (ValueBound α) := {b | b = minBound ∨ b = maxBound ∨ ∃ a, b.value = .data a}

section

omit [LinearOrder α]

theorem minBound_mem_proper : (minBound : ValueBound α) ∈ proper := .inl rfl

theorem maxBound_mem_proper : (maxBound : ValueBound α) ∈ proper := .inr (.inl rfl)

theorem data_mem_proper (a : α) (flag : Bool) : (⟨.data a, flag⟩ : ValueBound α) ∈ proper :=
  .inr (.inr ⟨a, rfl⟩)

end

end ValueBound

open ValueBound

theorem testValue_iff {a : α} {lower upper : ValueBound α} :
    testValue (.data a) lower upper = true ↔ lower ≤ point a ∧ point a < upper := by
  simp [testValue, lt_after_iff, point]

def Constraint.ofBounds (lower upper : ValueBound α) (next : ConstraintRef) : Constraint α :=
  ⟨lower.value, upper.value, next, !lower.flag, upper.flag⟩

namespace Constraint

omit [LinearOrder α]

variable (lower upper : ValueBound α) (next : ConstraintRef)

@[simp] theorem getLowerBound_ofBounds : (ofBounds lower upper next).getLowerBound = lower := by
  simp [getLowerBound, ofBounds]

@[simp] theorem getUpperBound_ofBounds : (ofBounds lower upper next).getUpperBound = upper := rfl

@[simp] theorem next_ofBounds : (ofBounds lower upper next).next = next := rfl

end Constraint

theorem Constraint.make_eq {lower upper : ValueBound α} (h : lower < upper) (next : ConstraintRef) :
    make lower upper next = .ok (ofBounds lower upper next) := by
  rw [make, ytVerify_true h]
  rfl

namespace ConstraintsHolder

variable {h h' h'' : ConstraintsHolder α} {B : Set (ValueBound α)} {ref : ConstraintRef} {col n : ℕ}

/-- A key satisfies a reference if it is universal, or some interval of its
column contains the key's value and the key satisfies that interval's `Next`. -/
inductive Sat (h : ConstraintsHolder α) (key : Key α) : ConstraintRef → Prop
  | universal {ref : ConstraintRef} : ref.columnId = sentinelColumnId → Sat h key ref
  | interval {ref : ConstraintRef} {item : Constraint α} {v : α} : ref.columnId ≠ sentinelColumnId →
      item ∈ h.slice ref → key[ref.columnId]? = some v →
      testValue (.data v) item.getLowerBound item.getUpperBound = true → Sat h key item.next →
        Sat h key ref

abbrev SortedItems (items : List (Constraint α)) : Prop :=
  IntervalList.Sorted getLowerBound getUpperBound items

/-- Some interval of the list holds the point and has its `Next` satisfied. -/
abbrev CoveredBy (h : ConstraintsHolder α) (key : Key α) (items : List (Constraint α))
    (p : ValueBound α) : Prop :=
  IntervalList.Covered getLowerBound getUpperBound items p fun item => h.Sat key item.next

variable {key : Key α}

theorem sat_iff_coveredBy {v : α} (hc : ref.columnId ≠ sentinelColumnId)
    (hv : key[ref.columnId]? = some v) : h.Sat key ref ↔ h.CoveredBy key (h.slice ref) (point v) := by
  constructor
  · rintro (hu | ⟨-, hi, hv', ht, hn⟩)
    · exact absurd hu hc
    · rw [hv] at hv'
      obtain rfl := Option.some.inj hv'
      exact ⟨_, hi, testValue_iff.mp ht, hn⟩
  · rintro ⟨item, hi, ht, hn⟩
    exact .interval hc hi hv (testValue_iff.mpr ht) hn

/-- The reference is universal, or a sorted slice of a column. -/
def Valid (h : ConstraintsHolder α) (ref : ConstraintRef) : Prop :=
  ref.columnId = sentinelColumnId ∨
    ref.columnId < h.columns.length ∧ ref.startIndex ≤ ref.endIndex ∧
      ref.endIndex ≤ (h.column ref.columnId).length ∧ SortedItems (h.slice ref)

/-- What holds of an interval stored in a column. -/
structure ItemOk (B : Set (ValueBound α)) (h : ConstraintsHolder α) (col : ℕ)
    (item : Constraint α) : Prop where
  lt : item.getLowerBound < item.getUpperBound
  lower_mem : item.getLowerBound ∈ B
  upper_mem : item.getUpperBound ∈ B
  next_valid : h.Valid item.next
  next_after : col < item.next.columnId

structure WellFormed (B : Set (ValueBound α)) (h : ConstraintsHolder α) : Prop where
  columnCount : h.columns.length ≤ sentinelColumnId
  items : ∀ col, ∀ item ∈ h.column col, ItemOk B h col item

/-- The vectors have grown, and the columns before `col` have not. -/
structure GrowsFrom (B : Set (ValueBound α)) (col : ℕ) (h h' : ConstraintsHolder α) : Prop where
  wf : WellFormed B h'
  length_eq : h'.columns.length = h.columns.length
  isPrefix : ∀ c, h.column c <+: h'.column c
  unchanged : ∀ c < col, h'.column c = h.column c

/-- The vectors have grown; `out` was appended to column `col`. -/
structure Grows (B : Set (ValueBound α)) (col : ℕ) (h h' : ConstraintsHolder α)
    (out : List (Constraint α)) : Prop extends GrowsFrom B col h h' where
  here : h'.column col = h.column col ++ out

/-- What an operation returns: a valid reference to column `col` that the keys
in `P` satisfy, in a holder that has grown from that column on. -/
structure OpResult (B : Set (ValueBound α)) (h : ConstraintsHolder α) (col : ℕ) (P : Key α → Prop)
    (result : ConstraintsHolder α × ConstraintRef) : Prop where
  grows : GrowsFrom B col h result.1
  valid : result.1.Valid result.2
  columnId_eq : result.2.columnId = col
  sat : ∀ key : Key α, key.length = h.columns.length → (result.1.Sat key result.2 ↔ P key)

/-! ### Growing -/

omit [LinearOrder α] in
theorem column_of_length_le (hl : h.columns.length ≤ col) : h.column col = [] := by
  simp [column, getD_eq_getElem?_getD, hl]

namespace GrowsFrom

theorem refl (hwf : WellFormed B h) : GrowsFrom B col h h :=
  ⟨hwf, rfl, fun _ => prefix_rfl, fun _ _ => rfl⟩

theorem trans (h1 : GrowsFrom B col h h') (h2 : GrowsFrom B col h' h'') : GrowsFrom B col h h'' :=
  ⟨h2.wf, h2.length_eq.trans h1.length_eq, fun c => (h1.isPrefix c).trans (h2.isPrefix c),
    fun c hc => (h2.unchanged c hc).trans (h1.unchanged c hc)⟩

theorem mono {col' : ℕ} (hg : GrowsFrom B col h h') (hle : col' ≤ col) : GrowsFrom B col' h h' :=
  ⟨hg.wf, hg.length_eq, hg.isPrefix, fun c hc => hg.unchanged c (hc.trans_le hle)⟩

theorem slice_eq (hg : GrowsFrom B col h h') (hv : h.Valid ref) : h'.slice ref = h.slice ref := by
  rcases hv with hu | ⟨-, -, hend, -⟩
  · have hl := hg.wf.columnCount
    rw [slice, slice, column_of_length_le (h := h') (by omega),
      column_of_length_le (h := h) (by have := hg.length_eq; omega)]
  · obtain ⟨ext, hext⟩ := hg.isPrefix ref.columnId
    rw [slice, slice, ← hext, take_append_of_le_length hend]

theorem valid (hg : GrowsFrom B col h h') (hv : h.Valid ref) : h'.Valid ref := by
  have hslice := hg.slice_eq hv
  refine hv.imp_right fun ⟨hc, hle, he, hsorted⟩ => ?_
  rw [hg.length_eq, hslice]
  exact ⟨hc, hle, he.trans (hg.isPrefix _).length_le, hsorted⟩

theorem itemOk {item : Constraint α} {c : ℕ} (hg : GrowsFrom B col h h') (hi : ItemOk B h c item) :
    ItemOk B h' c item :=
  ⟨hi.lt, hi.lower_mem, hi.upper_mem, hg.valid hi.next_valid, hi.next_after⟩

end GrowsFrom

variable {item : Constraint α}

omit [LinearOrder α] in
theorem mem_column_of_mem_slice (hi : item ∈ h.slice ref) : item ∈ h.column ref.columnId :=
  mem_of_mem_take (mem_of_mem_drop hi)

theorem GrowsFrom.sat_iff (hwf : WellFormed B h) (hg : GrowsFrom B col h h')
    (hv : h.Valid ref) : h'.Sat key ref ↔ h.Sat key ref := by
  constructor
  · intro hs
    induction hs with
    | universal hu => exact .universal hu
    | interval hc hi hk ht _ ih =>
      rw [hg.slice_eq hv] at hi
      exact .interval hc hi hk ht (ih (hwf.items _ _ (mem_column_of_mem_slice hi)).next_valid)
  · intro hs
    induction hs with
    | universal hu => exact .universal hu
    | interval hc hi hk ht _ ih =>
      refine .interval hc (hg.slice_eq hv ▸ hi) hk ht (ih ?_)
      exact (hwf.items _ _ (mem_column_of_mem_slice hi)).next_valid

variable {items : List (Constraint α)} {p : ValueBound α} {c : ℕ}

theorem GrowsFrom.coveredBy_iff (hwf : WellFormed B h) (hg : GrowsFrom B col h h')
    (hok : ∀ item ∈ items, ItemOk B h c item) : h'.CoveredBy key items p ↔ h.CoveredBy key items p :=
  IntervalList.Covered.congr fun item hi => hg.sat_iff hwf (hok item hi).next_valid

namespace Grows

variable {out out' : List (Constraint α)}

theorem refl (hwf : WellFormed B h) : Grows B col h h [] := ⟨GrowsFrom.refl hwf, by simp⟩

theorem trans (h1 : Grows B col h h' out) (h2 : Grows B col h' h'' out') :
    Grows B col h h'' (out ++ out') :=
  ⟨h1.toGrowsFrom.trans h2.toGrowsFrom, by rw [h2.here, h1.here, append_assoc]⟩

theorem of_later {c : ℕ} (hg : GrowsFrom B c h h') (hc : col < c) : Grows B col h h' [] :=
  ⟨hg.mono hc.le, by rw [hg.unchanged col hc, append_nil]⟩

theorem itemOk (hg : Grows B col h h' out) : ∀ item ∈ out, ItemOk B h' col item := fun item hi =>
  hg.wf.items col item (by rw [hg.here]; exact mem_append_right _ hi)

theorem slice_since (hg : Grows B col h h' out) :
    h'.slice (h'.since col (h.column col).length) = out := by
  rw [slice, since, take_length, hg.here, drop_left]

theorem opResult {P : Key α → Prop} (hg : Grows B col h h' out) (hc : col < h.columns.length)
    (hwf : WellFormed B h)
    (hs : SortedItems out) (hP : ∀ (key : Key α) (v : α), key.length = h.columns.length →
      key[col]? = some v → (h'.CoveredBy key out (point v) ↔ P key))
    : OpResult B h col P (h', h'.since col (h.column col).length) := by
  have hne : col ≠ sentinelColumnId := by have := hwf.columnCount; omega
  refine ⟨hg.toGrowsFrom, .inr ⟨?_, ?_, le_rfl, ?_⟩, rfl, fun key hk => ?_⟩
  · rw [hg.length_eq]
    exact hc
  · show (h.column col).length ≤ (h'.column col).length
    simp [hg.here]
  · rwa [hg.slice_since]
  · have hv : key[col]? = some (key.get ⟨col, by omega⟩) := getElem?_eq_getElem (by omega)
    rw [sat_iff_coveredBy hne hv, hg.slice_since]
    exact hP key _ hk hv

end Grows

/-! ### Appending -/

omit [LinearOrder α] in
theorem column_append (hc : col < h.columns.length) :
    (h.append items col).1.column c = if c = col then h.column col ++ items else h.column c := by
  simp only [append, column, getD_eq_getElem?_getD, getElem?_modify]
  split_ifs with h1 h2 h2
  · subst h1
    simp [getElem?_eq_getElem hc]
  · exact absurd h1.symm h2
  · exact absurd h2.symm h1
  · simp

omit [LinearOrder α] in
theorem pushBack_eq_append : h.pushBack col item = (h.append [item] col).1 := rfl

theorem grows_append (hwf : WellFormed B h) (hcol : col < h.columns.length)
    (hitems : ∀ item ∈ items, ItemOk B h col item) : Grows B col h (h.append items col).1 items := by
  have hl : (h.append items col).1.columns.length = h.columns.length := by simp [append]
  have hp : ∀ c, h.column c <+: (h.append items col).1.column c := fun c => by
    rw [column_append hcol]
    split_ifs with hc
    · subst hc
      exact prefix_append _ _
    · exact prefix_rfl
  have hvalid : ∀ {ref : ConstraintRef}, h.Valid ref → (h.append items col).1.Valid ref := by
    intro ref hv
    refine hv.imp_right fun ⟨h1, h2, h3, h4⟩ => ⟨by omega, h2, h3.trans (hp _).length_le, ?_⟩
    obtain ⟨ext, he⟩ := hp ref.columnId
    rwa [slice, ← he, take_append_of_le_length h3]
  have hok : ∀ {c : ℕ} {item : Constraint α}, ItemOk B h c item →
      ItemOk B (h.append items col).1 c item :=
    fun hi => ⟨hi.lt, hi.lower_mem, hi.upper_mem, hvalid hi.next_valid, hi.next_after⟩
  refine ⟨⟨⟨hl.trans_le hwf.columnCount, fun c item hi => hok ?_⟩, hl, hp, fun c hc => ?_⟩, ?_⟩
  · rw [column_append hcol] at hi
    split_ifs at hi with hc
    · subst hc
      exact forall_mem_append.mpr ⟨hwf.items _, hitems⟩ item hi
    · exact hwf.items c item hi
  · rw [column_append hcol, if_neg hc.ne]
  · rw [column_append hcol, if_pos rfl]

variable {lower upper : ValueBound α} {next : ConstraintRef}

theorem itemOk_ofBounds (hlt : lower < upper) (hlower : lower ∈ B) (hu : upper ∈ B)
    (hn : h.Valid next) (ha : col < next.columnId) : ItemOk B h col (.ofBounds lower upper next) :=
  ⟨by simpa using hlt, by simpa using hlower, hu, hn, ha⟩

theorem coveredBy_singleton :
    h.CoveredBy key [item] p ↔ (item.getLowerBound ≤ p ∧ p < item.getUpperBound) ∧
      h.Sat key item.next := by
  simp [CoveredBy, covered_cons]

theorem coveredBy_append {items' : List (Constraint α)} :
    h.CoveredBy key (items ++ items') p ↔ h.CoveredBy key items p ∨ h.CoveredBy key items' p :=
  covered_append

/-- At most one interval was appended to column `col`, which has these bounds and covers them for
the keys in `P`. -/
structure Pushed (B : Set (ValueBound α)) (col : ℕ) (h h' : ConstraintsHolder α)
    (out : List (Constraint α)) (lower upper : ValueBound α) (P : Key α → Prop) : Prop where
  grows : Grows B col h h' out
  sorted : SortedItems out
  bounds : ∀ item ∈ out, item.getLowerBound = lower ∧ item.getUpperBound = upper
  covers : ∀ (key : Key α) (p : ValueBound α), key.length = h.columns.length →
    (h'.CoveredBy key out p ↔ (lower ≤ p ∧ p < upper) ∧ P key)

variable {P : Key α → Prop}

theorem Pushed.none (hwf : WellFormed B h)
    (hno : ∀ (key : Key α) p, key.length = h.columns.length → ¬((lower ≤ p ∧ p < upper) ∧ P key)) :
    Pushed B col h h [] lower upper P :=
  ⟨Grows.refl hwf, .nil, by simp, fun key p hk =>
    by simp only [CoveredBy, not_covered_nil, hno key p hk]⟩

/-- The interval comes after an operation that left its column alone. -/
theorem Pushed.after {out : List (Constraint α)} (hr : OpResult B h c P (h', next)) (hc : col < c)
    (hp : Pushed B col h' h'' out lower upper fun key => h'.Sat key next) :
      Pushed B col h h'' out lower upper P := by
  obtain ⟨hg, hs, hb, hcov⟩ := hp
  refine ⟨by simpa using (Grows.of_later hr.grows hc).trans hg, hs, hb, fun key p hk => ?_⟩
  rw [hcov key p (hk.trans hr.grows.length_eq.symm), hr.sat key hk]

theorem pushMake_spec (hwf : WellFormed B h) (hc : col < h.columns.length) (hlt : lower < upper)
    (hlower : lower ∈ B) (hu : upper ∈ B) (hn : h.Valid next) (ha : col < next.columnId) :
    ∃ h' out, h.pushMake col lower upper next = .ok h' ∧
      Pushed B col h h' out lower upper fun key => h.Sat key next := by
  have hg : Grows B col h (h.pushBack col (.ofBounds lower upper next))
      [.ofBounds lower upper next] := by
    rw [pushBack_eq_append]
    exact grows_append hwf hc (forall_mem_singleton.mpr (itemOk_ofBounds hlt hlower hu hn ha))
  refine ⟨_, _, by rw [pushMake, make_eq hlt]; rfl, hg, pairwise_singleton _ _, by simp,
    fun key p _ => ?_⟩
  rw [coveredBy_singleton, next_ofBounds, hg.sat_iff hwf hn]
  simp only [getLowerBound_ofBounds, getUpperBound_ofBounds]

theorem valid_universal : h.Valid .universal := .inl rfl

theorem sat_universal : h.Sat key .universal := .universal rfl

/-! ### Intersect -/

/-- An operation does its part on references of columns after `col`. -/
def OpSpec (B : Set (ValueBound α)) (n col : ℕ) (combine : Prop → Prop → Prop)
    (op : BinaryOp α) : Prop :=
  ∀ (h : ConstraintsHolder α) (lhs rhs : ConstraintRef), WellFormed B h → h.columns.length = n →
    h.Valid lhs → h.Valid rhs → col < min lhs.columnId rhs.columnId →
      ∃ result, op h lhs rhs = .ok result ∧
        OpResult B h (min lhs.columnId rhs.columnId)
          (fun key => combine (h.Sat key lhs) (h.Sat key rhs)) result

/-- The interval that `Intersect` makes of an intersection of `Next`s; it is
skipped when no key is left in it. -/
theorem pushUnlessEmpty_spec (hr : OpResult B h c P (h', next)) (hcol : col < h.columns.length)
    (hc : col < c) (hlt : lower < upper) (hlower : lower ∈ B) (hupper : upper ∈ B) : ∃ h'' out,
      h'.pushUnlessEmpty col lower upper next = .ok h'' ∧ Pushed B col h h'' out lower upper P := by
  unfold pushUnlessEmpty
  split_ifs with he
  · obtain ⟨h'', out, hpush, hpushed⟩ := pushMake_spec hr.grows.wf
      (hcol.trans_eq hr.grows.length_eq.symm) hlt hlower hupper hr.valid (hr.columnId_eq ▸ hc)
    exact ⟨h'', out, hpush, hpushed.after hr hc⟩
  · refine ⟨h', [], rfl, Pushed.after hr hc (Pushed.none hr.grows.wf ?_)⟩
    -- an empty slice is satisfied by no key
    rintro key p - ⟨-, huniv | ⟨-, hi, -⟩⟩
    · exact he (.inl huniv)
    · have hse : next.startIndex = next.endIndex := by
        by_contra hne
        exact he (.inr hne)
      simp [slice, hse] at hi

/-- What a loop has done: it appended a sorted list to column `col` that
covers, for every key, the points in `P`; no interval starts before a `floor`. -/
structure LoopResult (B : Set (ValueBound α)) (col : ℕ) (h h' : ConstraintsHolder α)
    (floor : ValueBound α → Prop) (P : Key α → ValueBound α → Prop) : Prop where
  grows : ∃ out, Grows B col h h' out ∧ SortedItems out ∧
    (∀ f, floor f → ∀ item ∈ out, f ≤ item.getLowerBound) ∧
    ∀ (key : Key α) (p : ValueBound α), key.length = h.columns.length → p < maxBound →
      (h'.CoveredBy key out p ↔ P key p)

section

variable {floor floor' : ValueBound α → Prop} {P P' : Key α → ValueBound α → Prop}
  {Q R : Key α → Prop}
  {out : List (Constraint α)}

theorem Pushed.step (hp : Pushed B col h h' out lower upper Q)
    (hr : LoopResult B col h' h'' floor' P')
    (hfloor : ∀ f, floor f → f ≤ lower) (hfloor' : ∀ f, floor f → floor' f) (hu : floor' upper)
    (hP : ∀ (key : Key α) (p : ValueBound α), key.length = h.columns.length → p < maxBound →
      ((lower ≤ p ∧ p < upper) ∧ Q key ∨ P' key p ↔ P key p)) : LoopResult B col h h'' floor P := by
  have hg := hp.grows
  obtain ⟨out', hg', hs', hbelow', hP'⟩ := hr.grows
  refine ⟨out ++ out', hg.trans hg', hp.sorted.append hs' fun a ha => ?_, fun f hf =>
    ?_, fun key p hk hmax => ?_⟩
  · rw [(hp.bounds a ha).2]
    exact hbelow' _ hu
  · refine forall_mem_append.mpr ⟨fun i hi => ?_, hbelow' f (hfloor' f hf)⟩
    rw [(hp.bounds i hi).1]
    exact hfloor f hf
  · rw [coveredBy_append, ← hP key p hk hmax, hg'.coveredBy_iff hg.wf hg.itemOk, hp.covers key p hk,
      hP' key p (hk.trans hg.length_eq.symm) hmax]

/-- A loop goes on after two intervals next to each other. -/
theorem Pushed.step_two {mid : ValueBound α} {h₂ : ConstraintsHolder α} {out' : List (Constraint α)}
    (hp : Pushed B col h h' out lower mid Q) (hp' : Pushed B col h' h₂ out' mid upper R)
    (hr : LoopResult B col h₂ h'' floor' P') (hlm : lower ≤ mid) (hmu : mid ≤ upper)
    (hfloor : ∀ f, floor f → f ≤ lower) (hfloor' : ∀ f ≤ upper, floor' f)
    (hP : ∀ (key : Key α) (p : ValueBound α), key.length = h.columns.length →
      ((lower ≤ p ∧ p < mid) ∧ Q key ∨ (mid ≤ p ∧ p < upper) ∧ R key ∨ P' key p ↔ P key p)) :
    LoopResult B col h h'' floor P :=
  hp.step (hp'.step hr (fun _ hf => hf) (fun f hf => hfloor' f (hf.trans hmu)) (hfloor' _ le_rfl)
    fun _ _ _ _ => Iff.rfl)
    hfloor (fun f hf => (hfloor f hf).trans hlm) le_rfl fun key p hk _ => hP key p hk

end

theorem LoopResult.nil {floor : ValueBound α → Prop} {P : Key α → ValueBound α → Prop}
    (hwf : WellFormed B h)
    (hP : ∀ (key : Key α) (p : ValueBound α), ¬P key p) : LoopResult B col h h floor P :=
  ⟨[], Grows.refl hwf, .nil, by simp, fun key p _ _ => by simp [CoveredBy, hP key p]⟩

theorem LoopResult.opResult {floor : ValueBound α → Prop} {P : Key α → ValueBound α → Prop}
    {Q : Key α → Prop}
    (hl : LoopResult B col h h' floor P) (hc : col < h.columns.length) (hwf : WellFormed B h)
    (hQ : ∀ (key : Key α) (v : α), key.length = h.columns.length → key[col]? = some v →
      (P key (point v) ↔ Q key)) : OpResult B h col Q (h', h'.since col (h.column col).length) := by
  obtain ⟨out, hg, hs, -, hP⟩ := hl.grows
  refine hg.opResult hc hwf hs fun key v hk hv => ?_
  rw [hP key _ hk (point_lt_maxBound v), hQ key v hk hv]

theorem intersectNexts_spec {op : BinaryOp α} {rhs : ConstraintRef} (hop : OpSpec B n col And op)
    (hcol : col < n) (hrhs : col < rhs.columnId) :
    ∀ (ls : List (Constraint α)) (h : ConstraintsHolder α), WellFormed B h → h.columns.length = n →
      (∀ item ∈ ls, ItemOk B h col item) → SortedItems ls → h.Valid rhs →
      ∃ h', intersectNexts op col rhs ls h = .ok h' ∧
        LoopResult B col h h' (fun f => ∀ item ∈ ls, f ≤ item.getLowerBound)
          (fun key p => h.CoveredBy key ls p ∧ h.Sat key rhs)
  | [], h, hwf, _, _, _, _ => ⟨h, rfl, LoopResult.nil hwf (by simp [CoveredBy])⟩
  | l :: ls, h, hwf, hn, hls, hsorted, hv => by
    obtain ⟨hl, hls⟩ := forall_mem_cons.mp hls
    obtain ⟨⟨h1, next⟩, hcall, hres⟩ := hop h l.next rhs hwf hn hl.next_valid hv
      (lt_min hl.next_after hrhs)
    obtain ⟨h2, out, hpush, hpushed⟩ := pushUnlessEmpty_spec hres (hcol.trans_eq hn.symm)
      (lt_min hl.next_after hrhs) hl.lt hl.lower_mem hl.upper_mem
    have hg := hpushed.grows
    obtain ⟨h3, hloop, hrest⟩ := intersectNexts_spec hop hcol hrhs ls h2 hg.wf (hg.length_eq.trans hn)
      (fun item hi => hg.toGrowsFrom.itemOk (hls item hi)) hsorted.tail (hg.valid hv)
    refine ⟨h3, ?_, hpushed.step hrest (fun f hf => hf l mem_cons_self)
      (fun f hf => (forall_mem_cons.mp hf).2) (fun b => hsorted.head_le) fun key p hk hp => ?_⟩
    · simp only [intersectNexts, hcall, ok_bind, hpush, hloop]
    · rw [hg.coveredBy_iff hwf hls, hg.sat_iff hwf hv, CoveredBy, CoveredBy, covered_cons]
      tauto

theorem max_mem {a b : ValueBound α} (ha : a ∈ B) (hb : b ∈ B) : max a b ∈ B := by
  rcases max_choice a b with h | h <;> rwa [h]

theorem min_mem {a b : ValueBound α} (ha : a ∈ B) (hb : b ∈ B) : min a b ∈ B := by
  rcases min_choice a b with h | h <;> rwa [h]

variable {op : BinaryOp α} {l r : Constraint α}

theorem intersectPair_spec (hop : OpSpec B n col And op) (hcol : col < n) (hwf : WellFormed B h)
    (hn : h.columns.length = n) (hl : ItemOk B h col l) (hr : ItemOk B h col r) :
    ∃ h' out, intersectPair op col l r h = .ok h' ∧
      Pushed B col h h' out (max l.getLowerBound r.getLowerBound)
      (min l.getUpperBound r.getUpperBound) fun key => h.Sat key l.next ∧ h.Sat key r.next := by
  by_cases hlt : max l.getLowerBound r.getLowerBound < min l.getUpperBound r.getUpperBound
  · have ha := lt_min hl.next_after hr.next_after
    obtain ⟨⟨h1, next⟩, hcall, hres⟩ := hop h l.next r.next hwf hn hl.next_valid hr.next_valid ha
    obtain ⟨h2, out, hpush, hrest⟩ := pushUnlessEmpty_spec hres (hcol.trans_eq hn.symm) ha hlt
      (max_mem hl.lower_mem hr.lower_mem) (min_mem hl.upper_mem hr.upper_mem)
    refine ⟨h2, out, ?_, hrest⟩
    simp only [intersectPair, hlt, ↓reduceIte, hcall, ok_bind, hpush]
  · exact ⟨h, [], by simp [intersectPair, hlt], .none hwf fun key p _ hp => hlt (hp.1.1.trans_lt hp.1.2)⟩

theorem le_max_heads {ls rs : List (Constraint α)} {f : ValueBound α}
    (hf : (∀ item ∈ l :: ls, f ≤ item.getLowerBound) ∨ ∀ item ∈ r :: rs, f ≤ item.getLowerBound) :
    f ≤ max l.getLowerBound r.getLowerBound :=
  hf.elim (fun hf => (hf l mem_cons_self).trans (le_max_left _ _)) fun hf =>
    (hf r mem_cons_self).trans (le_max_right _ _)

theorem intersectItems_spec {op : BinaryOp α} (hop : OpSpec B n col And op) (hcol : col < n) :
    ∀ (ls rs : List (Constraint α)) (h : ConstraintsHolder α), WellFormed B h →
    h.columns.length = n →
      (∀ item ∈ ls, ItemOk B h col item) → (∀ item ∈ rs, ItemOk B h col item) → SortedItems ls →
      SortedItems rs → ∃ h', intersectItems op col ls rs h = .ok h' ∧ LoopResult B col h h'
          (fun f => (∀ item ∈ ls, f ≤ item.getLowerBound) ∨ ∀ item ∈ rs, f ≤ item.getLowerBound)
          (fun key p => h.CoveredBy key ls p ∧ h.CoveredBy key rs p)
  | [], rs, h, hwf, _, _, _, _, _ | l :: ls, [], h, hwf, _, _, _, _, _ =>
    ⟨h, by simp [intersectItems], LoopResult.nil hwf (by simp [CoveredBy])⟩
  | l :: ls, r :: rs, h, hwf, hn, hls, hrs, hsl, hsr => by
    obtain ⟨hl, hls1⟩ := forall_mem_cons.mp hls
    obtain ⟨hr, hrs1⟩ := forall_mem_cons.mp hrs
    -- the piece starts at the later start and ends at the earlier end of the heads
    obtain ⟨h1, out, hp, hpushed⟩ := intersectPair_spec hop hcol hwf hn hl hr
    have hg := hpushed.grows
    have hn1 := hg.length_eq.trans hn
    have hok : ∀ {items : List (Constraint α)}, (∀ item ∈ items, ItemOk B h col item) →
        ∀ item ∈ items, ItemOk B h1 col item :=
      fun hi i hm => hg.toGrowsFrom.itemOk (hi i hm)
    rw [intersectItems]
    simp only [hp, ok_bind]
    split_ifs with hlr hrl
    · obtain ⟨h2, hloop, hrest⟩ :=
        intersectItems_spec hop hcol ls (r :: rs) h1 hg.wf hn1 (hok hls1) (hok hrs) hsl.tail hsr
      refine ⟨h2, hloop, hpushed.step hrest (fun _ => le_max_heads)
        (fun f => Or.imp_left fun hf => (forall_mem_cons.mp hf).2)
        (.inl fun i hi => (min_le_left _ _).trans (hsl.head_le hi)) fun key p _ _ => ?_⟩
      rw [hg.coveredBy_iff hwf hls1, hg.coveredBy_iff hwf hrs, inter_step hsl hsr hlr.le]
    · obtain ⟨h2, hloop, hrest⟩ :=
        intersectItems_spec hop hcol (l :: ls) rs h1 hg.wf hn1 (hok hls) (hok hrs1) hsl hsr.tail
      refine ⟨h2, hloop, hpushed.step hrest (fun _ => le_max_heads)
        (fun f => Or.imp_right fun hf => (forall_mem_cons.mp hf).2)
        (.inr fun i hi => (min_le_right _ _).trans (hsr.head_le hi)) fun key p _ _ => ?_⟩
      rw [hg.coveredBy_iff hwf hls, hg.coveredBy_iff hwf hrs1, inter_step_right hsl hsr hrl.le]
    · obtain ⟨h2, hloop, hrest⟩ :=
        intersectItems_spec hop hcol ls rs h1 hg.wf hn1 (hok hls1) (hok hrs1) hsl.tail hsr.tail
      refine ⟨h2, hloop, hpushed.step hrest (fun _ => le_max_heads)
        (fun f => Or.imp (fun hf => (forall_mem_cons.mp hf).2) fun hf => (forall_mem_cons.mp hf).2)
          (.inl fun i hi => (min_le_left _ _).trans (hsl.head_le hi)) fun key p _ _ => ?_⟩
      rw [hg.coveredBy_iff hwf hls1, hg.coveredBy_iff hwf hrs1,
        inter_step_both hsl hsr (le_antisymm (not_lt.mp hrl) (not_lt.mp hlr))]
termination_by ls rs => ls.length + rs.length

theorem verifyConstraintsAreSorted_ok (hv : h.Valid ref) :
    h.verifyConstraintsAreSorted ref = .ok () := by
  unfold verifyConstraintsAreSorted
  split_ifs with hu
  · rfl
  · rcases hv with hu' | ⟨-, -, -, hs⟩
    · exact absurd hu' hu
    · exact ytVerify_true hs.isChain

theorem Valid.itemOk (hwf : WellFormed B h) : ∀ item ∈ h.slice ref, ItemOk B h ref.columnId item :=
  fun item hi => hwf.items _ item (mem_column_of_mem_slice hi)

theorem Valid.sorted (hv : h.Valid ref) (hc : ref.columnId ≠ sentinelColumnId) :
    ref.columnId < h.columns.length ∧ SortedItems (h.slice ref) := by
  rcases hv with hu | ⟨hlt, -, -, hs⟩
  · exact absurd hu hc
  · exact ⟨hlt, hs⟩

theorem Valid.columnId_le (hv : h.Valid ref) (hwf : WellFormed B h) :
    ref.columnId ≤ sentinelColumnId := by
  have := hwf.columnCount
  rcases hv with hu | ⟨hlt, -⟩ <;> omega

theorem orderRefs_cases (lhs rhs : ConstraintRef) :
    orderRefs lhs rhs = (lhs, rhs) ∧ lhs.columnId ≤ rhs.columnId ∨
      orderRefs lhs rhs = (rhs, lhs) ∧ rhs.columnId < lhs.columnId := by
  unfold orderRefs
  split_ifs with h
  · exact .inr ⟨rfl, h⟩
  · exact .inl ⟨rfl, not_lt.mp h⟩

variable {result : ConstraintsHolder α × ConstraintRef}

theorem OpResult.congr {Q : Key α → Prop} (hr : OpResult B h col P result) (hc : col = c)
    (hPQ : ∀ key, P key ↔ Q key) : OpResult B h c Q result :=
  hc ▸ ⟨hr.grows, hr.valid, hr.columnId_eq, fun key hk => (hr.sat key hk).trans (hPQ key)⟩

theorem intersectOrdered_spec {l r : ConstraintRef} (hwf : WellFormed B h)
    (hl : h.Valid l) (hr : h.Valid r) (hle : l.columnId ≤ r.columnId)
    (hop : l.columnId < h.columns.length → OpSpec B h.columns.length l.columnId And op) :
    ∃ result, intersectOrdered op h l r = .ok result ∧
      OpResult B h l.columnId (fun key => h.Sat key l ∧ h.Sat key r) result := by
  unfold intersectOrdered
  by_cases hlt : l.columnId < r.columnId
  · have hne : l.columnId ≠ sentinelColumnId := by have := hr.columnId_le hwf; omega
    obtain ⟨hc, hsorted⟩ := hl.sorted hne
    obtain ⟨h', hloop, hres⟩ := intersectNexts_spec (hop hc) hc hlt (h.slice l) h hwf rfl
      (Valid.itemOk hwf) hsorted hr
    refine ⟨_, by rw [if_pos hlt, hloop]; rfl, hres.opResult hc hwf fun key v _ hv => ?_⟩
    rw [sat_iff_coveredBy hne hv]
  · have heq : l.columnId = r.columnId := by omega
    rw [if_neg hlt, ytVerify_true heq, ok_bind]
    by_cases hu : l.columnId = sentinelColumnId
    · refine ⟨_, by rw [if_pos hu]; rfl, GrowsFrom.refl hwf, valid_universal, hu.symm, fun key _ => ?_⟩
      exact iff_of_true sat_universal ⟨.universal hu, .universal (heq ▸ hu)⟩
    · obtain ⟨hc, hsl⟩ := hl.sorted hu
      obtain ⟨-, hsr⟩ := hr.sorted (heq ▸ hu)
      obtain ⟨h', hloop, hres⟩ := intersectItems_spec (hop hc) hc (h.slice l) (h.slice r) h hwf rfl
        (Valid.itemOk hwf) (heq ▸ Valid.itemOk hwf) hsl hsr
      refine ⟨_, by rw [if_neg hu, hloop]; rfl, hres.opResult hc hwf fun key v _ hv => ?_⟩
      rw [sat_iff_coveredBy hu hv, sat_iff_coveredBy (heq ▸ hu) (heq ▸ hv)]

/-- With enough fuel an operation succeeds that puts its operands in order and calls itself for
later columns. -/
theorem fuel_spec {combine : Prop → Prop → Prop} {opFuel : ℕ → BinaryOp α}
    {ordered : BinaryOp α → BinaryOp α}
    (hcomm : ∀ {p q}, combine p q ↔ combine q p) (hs : ∀ fuel {h : ConstraintsHolder α} {lhs rhs},
      h.Valid lhs → h.Valid rhs → opFuel (fuel + 1) h lhs rhs =
      ordered (opFuel fuel) h (orderRefs lhs rhs).1 (orderRefs lhs rhs).2)
    (hordered : ∀ {op : BinaryOp α} {h l r}, WellFormed B h → h.Valid l → h.Valid r →
      l.columnId ≤ r.columnId →
      (l.columnId < h.columns.length → OpSpec B h.columns.length l.columnId combine op) →
      ∃ result, ordered op h l r = .ok result ∧
        OpResult B h l.columnId (fun key => combine (h.Sat key l) (h.Sat key r)) result) :
    ∀ (fuel : ℕ) {h : ConstraintsHolder α} {lhs rhs : ConstraintRef}, WellFormed B h → h.Valid lhs →
    h.Valid rhs → h.columns.length < fuel + min (min lhs.columnId rhs.columnId) h.columns.length →
      ∃ result, opFuel fuel h lhs rhs = .ok result ∧ OpResult B h (min lhs.columnId rhs.columnId)
          (fun key => combine (h.Sat key lhs) (h.Sat key rhs)) result
  | 0, _, _, _, _, _, _, hf => by omega
  | fuel + 1, h, lhs, rhs, hwf, hl, hr, hf => by
    have hop : ∀ c, c < h.columns.length → min lhs.columnId rhs.columnId = c →
        OpSpec B h.columns.length c combine (opFuel fuel) := fun c hc hm h' l r hwf' hn hl' hr' ha =>
      fuel_spec hcomm hs hordered fuel hwf' hl' hr' (by omega)
    rw [hs fuel hl hr]
    rcases orderRefs_cases lhs rhs with ⟨horder, hle⟩ | ⟨horder, hlt⟩
    · rw [horder]
      obtain ⟨result, hrun, hres⟩ := hordered hwf hl hr hle fun hc => hop _ hc (by omega)
      exact ⟨result, hrun, hres.congr (by omega) fun _ => Iff.rfl⟩
    · rw [horder]
      obtain ⟨result, hrun, hres⟩ := hordered hwf hr hl hlt.le fun hc => hop _ hc (by omega)
      exact ⟨result, hrun, hres.congr (by omega) fun _ => hcomm⟩

theorem intersect_spec {lhs rhs : ConstraintRef} (hwf : WellFormed B h) (hl : h.Valid lhs)
    (hr : h.Valid rhs) :
    ∃ result, h.intersect lhs rhs = .ok result ∧ OpResult B h (min lhs.columnId rhs.columnId)
        (fun key => h.Sat key lhs ∧ h.Sat key rhs) result := by
  refine fuel_spec and_comm
    (fun fuel _ _ _ hl hr => ?_) intersectOrdered_spec _ hwf hl hr (by omega)
  simp only [intersectFuel, verifyConstraintsAreSorted_ok hl,
    verifyConstraintsAreSorted_ok hr, ok_bind]

/-! ### Unite -/

theorem pushIfLess_spec (hwf : WellFormed B h) (hc : col < h.columns.length) (hlower : lower ∈ B)
    (hu : upper ∈ B) (hn : h.Valid next) (ha : col < next.columnId) :
    ∃ h' out, h.pushIfLess col lower upper next = .ok h' ∧
      Pushed B col h h' out lower upper fun key => h.Sat key next := by
  unfold pushIfLess
  split_ifs with hlt
  · exact pushMake_spec hwf hc hlt hlower hu hn ha
  · exact ⟨h, [], rfl, .none hwf fun key p _ hp => hlt (hp.1.1.trans_lt hp.1.2)⟩

theorem pushMake_eq_pushIfLess (hlt : lower < upper) :
    h.pushMake col lower upper next = h.pushIfLess col lower upper next := by
  rw [pushIfLess, if_pos hlt]

theorem uniteRest_spec {last : ValueBound α} (hcol : col < n) (hlast : last ∈ B) :
    ∀ (items : List (Constraint α)) (h : ConstraintsHolder α), WellFormed B h →
    h.columns.length = n → (∀ item ∈ items, ItemOk B h col item) → SortedItems items →
      ∃ h', uniteRest col last items h = .ok h' ∧
        LoopResult B col h h' (fun f => ∀ item ∈ items, f ≤ max last item.getLowerBound)
          (fun key p => last ≤ p ∧ h.CoveredBy key items p)
  | [], h, hwf, _, _, _ => ⟨h, rfl, LoopResult.nil hwf (by simp [CoveredBy])⟩
  | item :: items, h, hwf, hn, hok, hsorted => by
    obtain ⟨hi, hok⟩ := forall_mem_cons.mp hok
    obtain ⟨h1, out, hp, hpushed⟩ := pushIfLess_spec hwf (hcol.trans_eq hn.symm)
      (max_mem hlast hi.lower_mem) hi.upper_mem hi.next_valid hi.next_after
    have hg := hpushed.grows
    obtain ⟨h2, hloop, hr⟩ := uniteRest_spec hcol hlast items h1 hg.wf (hg.length_eq.trans hn)
      (fun i hi => hg.toGrowsFrom.itemOk (hok i hi)) hsorted.tail
    refine ⟨h2, by simp only [uniteRest, hp, ok_bind, hloop],
      hpushed.step hr (fun f hf => hf item mem_cons_self) (fun f hf => (forall_mem_cons.mp hf).2)
        (fun b hb => (hsorted.head_le hb).trans (le_max_right _ _)) fun key p hk _ => ?_⟩
    rw [hg.coveredBy_iff hwf hok, CoveredBy, CoveredBy, covered_cons, max_le_iff]
    tauto

variable {last : ValueBound α}

theorem uniteOverlap_spec (hop : OpSpec B n col Or op) (hcol : col < n) (hwf : WellFormed B h)
    (hn : h.columns.length = n) (hl : ItemOk B h col l) (hr : ItemOk B h col r) (hlast : last ∈ B)
    (hlt : max l.getLowerBound r.getLowerBound < min l.getUpperBound r.getUpperBound) :
    ∃ h1 h' out out', uniteOverlap op col l r last h = .ok h' ∧ Pushed B col h h1 out
        (max last (min l.getLowerBound r.getLowerBound)) (max l.getLowerBound r.getLowerBound)
        (fun key => h.Sat key (if l.getLowerBound < r.getLowerBound then l.next else r.next)) ∧
      Pushed B col h1 h' out' (max l.getLowerBound r.getLowerBound)
        (min l.getUpperBound r.getUpperBound) fun key => h1.Sat key l.next ∨ h1.Sat key r.next := by
  have hm : (if l.getLowerBound < r.getLowerBound then l.getLowerBound else r.getLowerBound) =
      min l.getLowerBound r.getLowerBound := by
    split_ifs with hlr
    · exact (min_eq_left hlr.le).symm
    · exact (min_eq_right (not_lt.mp hlr)).symm
  have hafter := lt_min hl.next_after hr.next_after
  have hf : h.Valid (if l.getLowerBound < r.getLowerBound then l.next else r.next) := by
    split_ifs
    · exact hl.next_valid
    · exact hr.next_valid
  obtain ⟨h1, out, hpush, hpushed⟩ := pushIfLess_spec hwf (hcol.trans_eq hn.symm)
    (max_mem hlast (min_mem hl.lower_mem hr.lower_mem)) (max_mem hl.lower_mem hr.lower_mem) hf
    (by split_ifs; exacts [hl.next_after, hr.next_after])
  have hg := hpushed.grows
  obtain ⟨⟨h2, next⟩, hcall, hres⟩ := hop h1 l.next r.next hg.wf (hg.length_eq.trans hn)
    (hg.valid hl.next_valid) (hg.valid hr.next_valid) hafter
  obtain ⟨h3, out', hpush', hpushed'⟩ := pushMake_spec hres.grows.wf
    (hcol.trans_eq (hres.grows.length_eq.trans (hg.length_eq.trans hn)).symm) hlt
      (max_mem hl.lower_mem hr.lower_mem)
    (min_mem hl.upper_mem hr.upper_mem) hres.valid (hres.columnId_eq ▸ hafter)
  refine ⟨h1, h3, out, out', ?_, hpushed, hpushed'.after hres hafter⟩
  simp only [uniteOverlap, hm, hpush, ok_bind, ytVerify_true hlt, hcall, hpush']

/-- What the loops of `Unite` keep: nothing is left that ends before
`lastBound`, and of one operand nothing is left that starts before it. -/
structure UniteInv (B : Set (ValueBound α)) (h : ConstraintsHolder α) (col : ℕ)
    (ls rs : List (Constraint α)) (last : ValueBound α) : Prop where
  wf : WellFormed B h
  left_ok : ∀ item ∈ ls, ItemOk B h col item
  right_ok : ∀ item ∈ rs, ItemOk B h col item
  left_sorted : SortedItems ls
  right_sorted : SortedItems rs
  last_mem : last ∈ B
  left_ends : ∀ item ∈ ls, last < item.getUpperBound
  right_ends : ∀ item ∈ rs, last < item.getUpperBound
  starts : (∀ item ∈ ls, last ≤ item.getLowerBound) ∨ ∀ item ∈ rs, last ≤ item.getLowerBound

namespace UniteInv

variable {l r : Constraint α} {ls rs : List (Constraint α)} {last : ValueBound α}

theorem symm (hinv : UniteInv B h col ls rs last) : UniteInv B h col rs ls last :=
  ⟨hinv.wf, hinv.right_ok, hinv.left_ok, hinv.right_sorted, hinv.left_sorted, hinv.last_mem,
    hinv.right_ends, hinv.left_ends, hinv.starts.symm⟩

theorem grows (hinv : UniteInv B h col ls rs last) (hg : GrowsFrom B col h h') :
    UniteInv B h' col ls rs last :=
  ⟨hg.wf, fun i hi => hg.itemOk (hinv.left_ok i hi), fun i hi => hg.itemOk (hinv.right_ok i hi),
    hinv.left_sorted, hinv.right_sorted, hinv.last_mem, hinv.left_ends, hinv.right_ends, hinv.starts⟩

theorem drop_left (hinv : UniteInv B h col (l :: ls) rs last) : UniteInv B h col ls rs last :=
  ⟨hinv.wf, (forall_mem_cons.mp hinv.left_ok).2, hinv.right_ok, hinv.left_sorted.tail,
    hinv.right_sorted, hinv.last_mem, (forall_mem_cons.mp hinv.left_ends).2,
    hinv.right_ends, hinv.starts.imp_left fun hs => (forall_mem_cons.mp hs).2⟩

theorem drop_right (hinv : UniteInv B h col ls (r :: rs) last) : UniteInv B h col ls rs last :=
  hinv.symm.drop_left.symm

section

variable (hinv : UniteInv B h col (l :: ls) (r :: rs) last)

include hinv

theorem overlap_left (hlt : l.getUpperBound < r.getUpperBound) :
    UniteInv B h col ls (r :: rs) (min l.getUpperBound r.getUpperBound) := by
  have hl := hinv.left_ok l mem_cons_self
  have hs : ∀ i ∈ ls, l.getUpperBound ≤ i.getLowerBound := fun i hi => hinv.left_sorted.head_le hi
  have hd := hinv.drop_left
  rw [min_eq_left hlt.le]
  refine ⟨hd.wf, hd.left_ok, hd.right_ok, hd.left_sorted, hd.right_sorted, hl.upper_mem,
    fun i hi => (hs i hi).trans_lt (hd.left_ok i hi).lt,
      forall_mem_cons.mpr ⟨hlt, fun i hi => ?_⟩, .inl hs⟩
  exact (hlt.trans_le (hinv.right_sorted.head_le hi)).trans
    (hd.right_ok i (mem_cons_of_mem _ hi)).lt

theorem overlap_both (heq : l.getUpperBound = r.getUpperBound) :
    UniteInv B h col ls rs (min l.getUpperBound r.getUpperBound) := by
  have hl := hinv.left_ok l mem_cons_self
  have hstartl : ∀ i ∈ ls, l.getUpperBound ≤ i.getLowerBound :=
    fun i hi => hinv.left_sorted.head_le hi
  have hstartr : ∀ i ∈ rs, l.getUpperBound ≤ i.getLowerBound :=
    fun i hi => heq ▸ hinv.right_sorted.head_le hi
  have hd := hinv.drop_left.drop_right
  rw [← heq, min_self]
  exact ⟨hd.wf, hd.left_ok, hd.right_ok, hd.left_sorted, hd.right_sorted, hl.upper_mem,
    fun i hi => (hstartl i hi).trans_lt (hd.left_ok i hi).lt,
    fun i hi => (hstartr i hi).trans_lt (hd.right_ok i hi).lt, .inl hstartl⟩

end

end UniteInv

def uniteFloor (ls rs : List (Constraint α)) (last f : ValueBound α) : Prop :=
  (∀ item ∈ ls, f ≤ max last item.getLowerBound) ∧ ∀ item ∈ rs, f ≤ max last item.getLowerBound

def uniteCovers (h : ConstraintsHolder α) (ls rs : List (Constraint α)) (last : ValueBound α)
    (key : Key α) (p : ValueBound α) : Prop :=
  last ≤ p ∧ (h.CoveredBy key ls p ∨ h.CoveredBy key rs p)

variable {ls rs : List (Constraint α)}

theorem uniteCovers_grows {last' : ValueBound α} (hinv : UniteInv B h col ls rs last')
    (hg : GrowsFrom B col h h') :
    h'.uniteCovers ls rs last key p ↔ h.uniteCovers ls rs last key p := by
  rw [uniteCovers, uniteCovers, hg.coveredBy_iff hinv.wf hinv.left_ok,
    hg.coveredBy_iff hinv.wf hinv.right_ok]

/-- The loops go on after an overlap with the lists `ls'` and `rs'`. -/
theorem uniteOverlap_step {ls' rs' : List (Constraint α)}
    {loop : ConstraintsHolder α → Result (ConstraintsHolder α)}
    (hop : OpSpec B n col Or op) (hcol : col < n) (hn : h.columns.length = n)
    (hinv : UniteInv B h col (l :: ls) (r :: rs) last)
    (hlt : max l.getLowerBound r.getLowerBound < min l.getUpperBound r.getUpperBound)
    (hinv' : UniteInv B h col ls' rs' (min l.getUpperBound r.getUpperBound))
    (hcover : ∀ (key : Key α) (p : ValueBound α), min l.getUpperBound r.getUpperBound ≤ p →
      (h.CoveredBy key ls' p ∨ h.CoveredBy key rs' p ↔ h.CoveredBy key (l :: ls) p ∨
        h.CoveredBy key (r :: rs) p)) (hloop : ∀ h1, h1.columns.length = n →
      UniteInv B h1 col ls' rs' (min l.getUpperBound r.getUpperBound) → ∃ h2, loop h1 = .ok h2 ∧
        LoopResult B col h1 h2 (uniteFloor ls' rs' (min l.getUpperBound r.getUpperBound))
        (h1.uniteCovers ls' rs' (min l.getUpperBound r.getUpperBound))) :
    ∃ h2, uniteOverlap op col l r last h >>= loop = .ok h2 ∧ LoopResult B col h h2
        (uniteFloor (l :: ls) (r :: rs) last) (h.uniteCovers (l :: ls) (r :: rs) last) := by
  have hl := hinv.left_ok l mem_cons_self
  have hr := hinv.right_ok r mem_cons_self
  obtain ⟨h1, h2, out, out', hrun, hp, hp'⟩ :=
    uniteOverlap_spec hop hcol hinv.wf hn hl hr hinv.last_mem hlt
  have hg := hp.grows.toGrowsFrom.trans hp'.grows.toGrowsFrom
  obtain ⟨h3, hrun', hrest⟩ := hloop h2 (hg.length_eq.trans hn) (hinv'.grows hg)
  have hle := le_max_heads hinv.starts
  refine ⟨h3, by rw [hrun, ok_bind, hrun'], hp.step_two hp' hrest (max_le hle min_le_max) hlt.le
    (fun f hf => ?_)
    (fun f hf => ⟨fun _ _ => hf.trans (le_max_left _ _), fun _ _ => hf.trans (le_max_left _ _)⟩)
      fun key p hk => ?_⟩
  · rw [max_min_distrib_left]
    exact le_min (hf.1 l mem_cons_self) (hf.2 r mem_cons_self)
  · rw [apply_ite (h.Sat key), hp.grows.sat_iff hinv.wf hl.next_valid,
      hp.grows.sat_iff hinv.wf hr.next_valid, uniteCovers_grows hinv' hg, uniteCovers, uniteCovers,
        union_step last hinv.left_sorted hinv.right_sorted hlt]
    refine or_congr_right (or_congr ?_ ?_)
    · exact and_congr_left fun _ => ⟨fun hp => ⟨hle.trans hp.1, hp⟩, And.right⟩
    · constructor
      · rintro ⟨hp, hc⟩
        exact ⟨⟨(hle.trans hlt.le).trans hp, hp⟩, (hcover key p hp).mp hc⟩
      · rintro ⟨⟨-, hp⟩, hc⟩
        exact ⟨hp, (hcover key p hp).mpr hc⟩

/-- The loops go on after an item that was appended as it is. -/
theorem uniteDisjoint_step {loop : ConstraintsHolder α → Result (ConstraintsHolder α)}
    (hcol : col < n) (hn : h.columns.length = n) (hinv : UniteInv B h col (l :: ls) rs last)
    (hbefore : ∀ r ∈ rs, l.getUpperBound ≤ r.getLowerBound)
    (hloop : ∀ h1, h1.columns.length = n → UniteInv B h1 col ls rs last → ∃ h2, loop h1 = .ok h2 ∧
        LoopResult B col h1 h2 (uniteFloor ls rs last) (h1.uniteCovers ls rs last)) :
    ∃ h2, h.pushMake col (max last l.getLowerBound) l.getUpperBound l.next >>= loop = .ok h2 ∧
      LoopResult B col h h2 (uniteFloor (l :: ls) rs last) (h.uniteCovers (l :: ls) rs last) := by
  have hl := hinv.left_ok l mem_cons_self
  have hlt : max last l.getLowerBound < l.getUpperBound :=
    max_lt (hinv.left_ends l mem_cons_self) hl.lt
  obtain ⟨h1, out, hp, hpushed⟩ := pushIfLess_spec hinv.wf (hcol.trans_eq hn.symm)
    (max_mem hinv.last_mem hl.lower_mem) hl.upper_mem hl.next_valid hl.next_after
  have hg := hpushed.grows
  obtain ⟨h2, hrun', hrest⟩ :=
    hloop h1 (hg.length_eq.trans hn) (hinv.drop_left.grows hg.toGrowsFrom)
  refine ⟨h2, by rw [pushMake_eq_pushIfLess hlt, hp, ok_bind, hrun'], hpushed.step hrest
    (fun f hf => hf.1 l mem_cons_self) (fun f hf => ⟨(forall_mem_cons.mp hf.1).2, hf.2⟩)
      ⟨fun b hb => (hinv.left_sorted.head_le hb).trans (le_max_right _ _),
      fun b hb => (hbefore b hb).trans (le_max_right _ _)⟩ fun key p hk _ => ?_⟩
  rw [uniteCovers_grows hinv.drop_left hg.toGrowsFrom, uniteCovers, uniteCovers, CoveredBy,
    CoveredBy, CoveredBy, covered_cons, max_le_iff]
  tauto

theorem LoopResult.congr {floor floor' : ValueBound α → Prop} {P P' : Key α → ValueBound α → Prop}
    (hr : LoopResult B col h h' floor P) (hfloor : ∀ f, floor' f → floor f)
    (hP : ∀ key p, P key p ↔ P' key p) : LoopResult B col h h' floor' P' := by
  obtain ⟨out, hg, hso, hb, hc⟩ := hr.grows
  exact ⟨out, hg, hso, fun f hf => hb f (hfloor f hf), fun key p hk hp =>
    (hc key p hk hp).trans (hP key p)⟩

theorem uniteFloor_symm {f : ValueBound α} : uniteFloor ls rs last f →
    uniteFloor rs ls last f := And.symm

theorem uniteCovers_symm : h.uniteCovers ls rs last key p ↔ h.uniteCovers rs ls last key p :=
  and_congr_right fun _ => or_comm

theorem uniteItems_spec {op : BinaryOp α} (hop : OpSpec B n col Or op) (hc : col < n) :
    ∀ (ls rs : List (Constraint α)) (last : ValueBound α) (h : ConstraintsHolder α),
      h.columns.length = n →
      UniteInv B h col ls rs last → ∃ h', uniteItems op col ls rs last h = .ok h' ∧
        LoopResult B col h h' (uniteFloor ls rs last) (h.uniteCovers ls rs last)
  | [], rs, last, h, hn, hinv => by
    obtain ⟨h', hrun, hres⟩ :=
      uniteRest_spec hc hinv.last_mem rs h hinv.wf hn hinv.right_ok hinv.right_sorted
    refine ⟨h', by simpa [uniteItems, uniteRest] using hrun,
      hres.congr (fun _ hf => hf.2) fun key p => ?_⟩
    simp [uniteCovers, CoveredBy]
  | l :: ls, [], last, h, hn, hinv => by
    obtain ⟨h', hrun, hres⟩ :=
      uniteRest_spec hc hinv.last_mem (l :: ls) h hinv.wf hn hinv.left_ok hinv.left_sorted
    refine ⟨h', ?_, hres.congr (fun _ hf => hf.1) fun key p => by simp [uniteCovers, CoveredBy]⟩
    rw [uniteItems, hrun]
    · rfl
    · simp
  | l :: ls, r :: rs, last, h, hn, hinv => by
    have hl := hinv.left_ok l mem_cons_self
    have hr := hinv.right_ok r mem_cons_self
    rw [uniteItems]
    by_cases hlr : l.getUpperBound ≤ r.getLowerBound
    · rw [if_pos hlr]
      exact uniteDisjoint_step hc hn hinv (hinv.right_sorted.le_all hlr hr.lt.le) fun h1 hn1 hinv1 =>
        uniteItems_spec hop hc ls (r :: rs) last h1 hn1 hinv1
    rw [if_neg hlr]
    by_cases hrl : r.getUpperBound ≤ l.getLowerBound
    · rw [if_pos hrl]
      obtain ⟨h2, hrun, hres⟩ := uniteDisjoint_step hc hn hinv.symm
          (hinv.left_sorted.le_all hrl hl.lt.le) fun h1 hn1 hinv1 => by
        obtain ⟨h2, hrun, hres⟩ := uniteItems_spec hop hc (l :: ls) rs last h1 hn1 hinv1.symm
        exact ⟨h2, hrun, hres.congr (fun _ => uniteFloor_symm) fun _ _ => uniteCovers_symm⟩
      exact ⟨h2, hrun, hres.congr (fun _ => uniteFloor_symm) fun _ _ => uniteCovers_symm⟩
    rw [if_neg hrl]
    have hlt : max l.getLowerBound r.getLowerBound < min l.getUpperBound r.getUpperBound :=
      lt_min (max_lt hl.lt (not_le.mp hlr)) (max_lt (not_le.mp hrl) hr.lt)
    by_cases h1 : l.getUpperBound < r.getUpperBound
    · simp only [h1, ↓reduceIte]
      refine uniteOverlap_step hop hc hn hinv hlt (hinv.overlap_left h1) (fun key p hp => ?_)
        fun h1 hn1 hinv1 => uniteItems_spec hop hc ls (r :: rs) _ h1 hn1 hinv1
      rw [min_eq_left h1.le] at hp
      rw [CoveredBy, CoveredBy, CoveredBy, covered_drop hp]
    by_cases h2 : r.getUpperBound < l.getUpperBound
    · simp only [h1, h2, ↓reduceIte]
      have hinv' := (hinv.symm.overlap_left h2).symm
      rw [min_comm] at hinv'
      refine uniteOverlap_step hop hc hn hinv hlt hinv' (fun key p hp => ?_)
        fun h1 hn1 hinv1 => uniteItems_spec hop hc (l :: ls) rs _ h1 hn1 hinv1
      rw [min_eq_right h2.le] at hp
      rw [CoveredBy, CoveredBy, CoveredBy, covered_drop hp]
    · simp only [h1, h2, ↓reduceIte]
      have heq := le_antisymm (not_lt.mp h2) (not_lt.mp h1)
      refine uniteOverlap_step hop hc hn hinv hlt (hinv.overlap_both heq) (fun key p hp => ?_)
        fun h1 hn1 hinv1 => uniteItems_spec hop hc ls rs _ h1 hn1 hinv1
      rw [heq, min_self] at hp
      rw [CoveredBy, CoveredBy, CoveredBy, CoveredBy, covered_drop hp, covered_drop (heq ▸ hp)]
termination_by ls rs => ls.length + rs.length

theorem minBound_lt_maxBound : (minBound : ValueBound α) < maxBound :=
  lt_iff.mpr (.inl Value.min_lt_max)

theorem append_spec (hwf : WellFormed B h) (hc : col < h.columns.length)
    (hi : ∀ item ∈ items, ItemOk B h col item) (hs : SortedItems items) :
    OpResult B h col (fun key => ∃ v, key[col]? = some v ∧ h.CoveredBy key items (point v))
      (h.append items col) := by
  have hg := grows_append hwf hc hi
  have href : (h.append items col).2 = (h.append items col).1.since col (h.column col).length := by
    rw [since, hg.here, length_append]
    rfl
  have hres := hg.opResult (P := fun key => ∃ v, key[col]? = some v ∧
    h.CoveredBy key items (point v))
    hc hwf hs fun key v _ hv => by simp [hv, hg.coveredBy_iff hwf hi]
  rwa [← href] at hres

theorem underColumn_spec (hwf : WellFormed B h) (hv : h.Valid ref) (hcol : col ≤ ref.columnId)
    (hmin : minBound ∈ B) (hmax : maxBound ∈ B)
    (hlt : col < ref.columnId → col < h.columns.length) : ∃ result, h.underColumn col ref =
      .ok result ∧ OpResult B h col (fun key => h.Sat key ref) result := by
  unfold underColumn
  split_ifs with hc
  · have hlen := hlt hc
    have hok := itemOk_ofBounds minBound_lt_maxBound hmin hmax hv hc
    have hr := append_spec hwf hlen (forall_mem_singleton.mpr hok) (pairwise_singleton _ _)
    refine ⟨_, by rw [make_eq minBound_lt_maxBound]; rfl, hr.grows, hr.valid, hr.columnId_eq,
      fun key hkey => ?_⟩
    have hkv : key[col]? = some (key.get ⟨col, by omega⟩) := getElem?_eq_getElem (by omega)
    rw [hr.sat key hkey]
    simp only [hkv, coveredBy_singleton, Option.some.injEq, exists_eq_left']
    exact and_iff_right ⟨minBound_le _, point_lt_maxBound _⟩
  · obtain rfl : col = ref.columnId := by omega
    exact ⟨(h, ref), rfl, GrowsFrom.refl hwf, hv, rfl, fun _ _ => Iff.rfl⟩

theorem uniteSameColumn_spec {l r : ConstraintRef} (hwf : WellFormed B h)
    (hl : h.Valid l) (hr : h.Valid r) (heq : l.columnId = r.columnId) (hm : minBound ∈ B)
    (hop : l.columnId < h.columns.length → OpSpec B h.columns.length l.columnId Or op) :
    ∃ result, uniteSameColumn op h l r = .ok result ∧
      OpResult B h l.columnId (fun key => h.Sat key l ∨ h.Sat key r) result := by
  unfold uniteSameColumn
  rw [ytVerify_true heq, ok_bind]
  by_cases hu : l.columnId = sentinelColumnId
  · refine ⟨_, by rw [if_pos hu]; rfl, GrowsFrom.refl hwf, valid_universal, hu.symm, fun key _ => ?_⟩
    exact iff_of_true sat_universal (.inl (.universal hu))
  · obtain ⟨hc, hsl⟩ := hl.sorted hu
    obtain ⟨-, hsr⟩ := hr.sorted (heq ▸ hu)
    have hokl : ∀ i ∈ h.slice l, ItemOk B h l.columnId i := Valid.itemOk hwf
    have hokr : ∀ i ∈ h.slice r, ItemOk B h l.columnId i := heq ▸ Valid.itemOk hwf
    have hinv : UniteInv B h l.columnId (h.slice l) (h.slice r) minBound :=
      ⟨hwf, hokl, hokr, hsl, hsr, hm, fun i hi => (minBound_le _).trans_lt (hokl i hi).lt,
        fun i hi => (minBound_le _).trans_lt (hokr i hi).lt, .inl fun i _ => minBound_le _⟩
    obtain ⟨h', hloop, hres⟩ := uniteItems_spec (hop hc) hc _ _ _ h rfl hinv
    refine ⟨_, by rw [if_neg hu, hloop]; rfl, hres.opResult hc hwf fun key v _ hv => ?_⟩
    rw [sat_iff_coveredBy hu hv, sat_iff_coveredBy (heq ▸ hu) (heq ▸ hv), uniteCovers,
      and_iff_right (minBound_le _)]

theorem uniteOrdered_spec {l r : ConstraintRef} (hwf : WellFormed B h) (hl : h.Valid l)
    (hr : h.Valid r) (hle : l.columnId ≤ r.columnId) (hmin : minBound ∈ B) (hmax : maxBound ∈ B)
    (hop : l.columnId < h.columns.length → OpSpec B h.columns.length l.columnId Or op) :
    ∃ result, (do
        let (h', r') ← h.underColumn l.columnId r
        uniteSameColumn op h' l r') = .ok result ∧
      OpResult B h l.columnId (fun key => h.Sat key l ∨ h.Sat key r) result := by
  have hlen : l.columnId < r.columnId → l.columnId < h.columns.length := fun hlt =>
    (hl.sorted (by have := hr.columnId_le hwf; omega)).1
  obtain ⟨⟨h1, r1⟩, hu, hres1⟩ := underColumn_spec hwf hr hle hmin hmax hlen
  have hg := hres1.grows
  obtain ⟨result, hrun, hres⟩ :=
    uniteSameColumn_spec hg.wf (hg.valid hl) hres1.valid hres1.columnId_eq.symm
    hmin (fun hc => by rw [hg.length_eq] at hc ⊢; exact hop hc)
  refine ⟨result, by rw [hu, ok_bind]; exact hrun, hg.trans hres.grows, hres.valid,
    hres.columnId_eq, fun key hk => ?_⟩
  rw [hres.sat key (hk.trans hg.length_eq.symm), hg.sat_iff hwf hl, hres1.sat key hk]

theorem unite_spec {lhs rhs : ConstraintRef} (hwf : WellFormed B h) (hmin : minBound ∈ B)
    (hmax : maxBound ∈ B)
    (hl : h.Valid lhs) (hr : h.Valid rhs) : ∃ result, h.unite lhs rhs = .ok result ∧ OpResult B h
        (min lhs.columnId rhs.columnId) (fun key => h.Sat key lhs ∨ h.Sat key rhs) result := by
  refine fuel_spec or_comm (fun fuel _ _ _ hl hr => ?_)
    (fun hwf hl hr hle hop => uniteOrdered_spec hwf hl hr hle hmin hmax hop) _ hwf hl hr (by omega)
  simp only [uniteFuel, verifyConstraintsAreSorted_ok hl, verifyConstraintsAreSorted_ok hr, ok_bind]

/-! ### Invert -/

/-- `Invert` does its part on references of columns after `col`. -/
def InvertSpec (B : Set (ValueBound α)) (n col : ℕ) (op : UnaryOp α) : Prop :=
  ∀ (h : ConstraintsHolder α) (ref : ConstraintRef), WellFormed B h → h.columns.length = n →
    h.Valid ref → ref.columnId ≠ sentinelColumnId → col < ref.columnId →
      ∃ result, op h ref = .ok result ∧ OpResult B h ref.columnId (fun key => ¬h.Sat key ref) result

theorem invertItem_spec {op : UnaryOp α} (hop : InvertSpec B n col op) (hcol : col < n)
    (hwf : WellFormed B h) (hn : h.columns.length = n) (hok : ItemOk B h col item) :
    ∃ h' out, invertItem op col item h = .ok h' ∧
      Pushed B col h h' out item.getLowerBound item.getUpperBound fun key => ¬h.Sat key item.next := by
  unfold invertItem
  by_cases hu : item.next.columnId = sentinelColumnId
  · exact ⟨h, [], by rw [if_neg (not_not.mpr hu)]; rfl, .none hwf fun key p _ hp => hp.2 (.universal hu)⟩
  · obtain ⟨⟨h1, next⟩, hcall, hr⟩ := hop h item.next hwf hn hok.next_valid hu hok.next_after
    obtain ⟨h2, out, hpush, hpushed⟩ := pushMake_spec hr.grows.wf
      (hcol.trans_eq (hr.grows.length_eq.trans hn).symm) hok.lt hok.lower_mem hok.upper_mem hr.valid
      (hr.columnId_eq ▸ hok.next_after)
    exact ⟨h2, out, by rw [if_pos hu, hcall, ok_bind]; exact hpush, hpushed.after hr hok.next_after⟩

theorem invertItems_spec {op : UnaryOp α} (hop : InvertSpec B n col op) (hcol : col < n)
    (hmax : maxBound ∈ B) :
    ∀ (items : List (Constraint α)) (cur : ValueBound α) (h : ConstraintsHolder α), WellFormed B h →
      h.columns.length = n → (∀ item ∈ items, ItemOk B h col item) → SortedItems items → cur ∈ B →
      (∀ item ∈ items, cur ≤ item.getLowerBound) → ∃ h', invertItems op col items cur h = .ok h' ∧
        LoopResult B col h h' (fun f => f ≤ cur) (fun key p => cur ≤ p ∧ ¬h.CoveredBy key items p)
  | [], cur, h, hwf, hn, _, _, hcurrent, _ => by
    obtain ⟨h', out, hpush, hg, hso, hbounds, hcov⟩ :=
      pushIfLess_spec hwf (hcol.trans_eq hn.symm) hcurrent hmax
      valid_universal (hcol.trans_le (hn.symm.trans_le hwf.columnCount))
    refine ⟨h', hpush, out, hg, hso, fun f hf i hi => (hbounds i hi).1 ▸ hf, fun key p hk hp => ?_⟩
    simp [hcov key p hk, hp, CoveredBy, sat_universal]
  | item :: items, cur, h, hwf, hn, hok, hsorted, hcurrent, hle => by
    obtain ⟨hi, hok⟩ := forall_mem_cons.mp hok
    have hlo := hle item mem_cons_self
    -- the gap before the item
    obtain ⟨h1, out, hpush, hp⟩ := pushIfLess_spec hwf (hcol.trans_eq hn.symm) hcurrent
      hi.lower_mem valid_universal (hcol.trans_le (hn.symm.trans_le hwf.columnCount))
    have hg1 := hp.grows
    -- the item with its next inverted
    obtain ⟨h2, out', hpush', hp'⟩ := invertItem_spec hop hcol hg1.wf (hg1.length_eq.trans hn)
      (hg1.toGrowsFrom.itemOk hi)
    have hg := hg1.toGrowsFrom.trans hp'.grows.toGrowsFrom
    obtain ⟨h3, hloop, hr⟩ := invertItems_spec hop hcol hmax items item.getUpperBound h2 hg.wf
      (hg.length_eq.trans hn) (fun i hi => hg.itemOk (hok i hi)) hsorted.tail hi.upper_mem
        fun i hi => hsorted.head_le hi
    refine ⟨h3, by simp only [invertItems, hpush, ok_bind, hpush', hloop],
      hp.step_two hp' hr hlo hi.lt.le (fun _ hf => hf) (fun _ hf => hf) fun key p hk => ?_⟩
    rw [hg1.sat_iff hwf hi.next_valid, hg.coveredBy_iff hwf hok, compl_step hsorted hlo hi.lt, or_assoc]
    simp only [sat_universal, and_true]

theorem invertFuel_spec (hmin : minBound ∈ B) (hmax : maxBound ∈ B) :
    ∀ (fuel : ℕ) (h : ConstraintsHolder α) (ref : ConstraintRef), WellFormed B h → h.Valid ref →
      ref.columnId ≠ sentinelColumnId → h.columns.length <
        fuel + min ref.columnId h.columns.length → ∃ result, invertFuel fuel h ref = .ok result ∧
        OpResult B h ref.columnId (fun key => ¬h.Sat key ref) result
  | 0, h, ref, _, _, _, hf => by omega
  | fuel + 1, h, ref, hwf, hv, hne, hf => by
    obtain ⟨hc, hs⟩ := hv.sorted hne
    have hop : InvertSpec B h.columns.length ref.columnId (invertFuel (α := α) fuel) := by
      intro h' ref' hwf' hn hv' hne' ha
      exact invertFuel_spec hmin hmax fuel h' ref' hwf' hv' hne' (by omega)
    obtain ⟨h', hl, hr⟩ := invertItems_spec hop hc hmax (h.slice ref) minBound h hwf rfl
      (Valid.itemOk hwf) hs hmin fun _ _ => minBound_le _
    refine ⟨_, by rw [invertFuel, if_neg hne, hl]; rfl, hr.opResult hc hwf fun key v _ hv => ?_⟩
    rw [sat_iff_coveredBy hne hv, and_iff_right (minBound_le _)]

theorem invert_spec (hwf : WellFormed B h) (hmin : minBound ∈ B) (hmax : maxBound ∈ B)
    (hv : h.Valid ref)
    (hne : ref.columnId ≠ sentinelColumnId) : ∃ result, h.invert ref = .ok result ∧
      OpResult B h ref.columnId (fun key => ¬h.Sat key ref) result :=
  invertFuel_spec hmin hmax _ h ref hwf hv hne (by omega)

/-! ### Runs -/

theorem wellFormed_new (hn : n ≤ sentinelColumnId) :
    WellFormed B (new n : ConstraintsHolder α) where
  columnCount := by simpa [new] using hn
  items col item hi := by
    simp only [column, new, getD_eq_getElem?_getD, getElem?_replicate] at hi
    split_ifs at hi <;> simp at hi

theorem valid_empty (hn : 0 < h.columns.length) : h.Valid .empty :=
  .inr ⟨hn, le_rfl, Nat.zero_le _, by simp [slice, ConstraintRef.empty, IntervalList.Sorted]⟩

/-- What a caller of `Append` promises: made intervals with bounds in `B`,
sorted, whose `Next`s are references to later columns that it has. -/
structure Appendable (B : Set (ValueBound α)) (refs : List ConstraintRef)
    (items : List (Constraint α)) (col : ℕ) : Prop where
  made : ∀ item ∈ items, item.getLowerBound < item.getUpperBound
  bounds : ∀ item ∈ items, item.getLowerBound ∈ B ∧ item.getUpperBound ∈ B
  sorted : items.IsChain fun a b => a.getUpperBound ≤ b.getLowerBound
  nexts : ∀ item ∈ items, item.next ∈ refs ∧ col < item.next.columnId

/-- A holder of `n` columns after a run of operations, with the references
that were returned. -/
inductive Reachable (B : Set (ValueBound α)) (n : ℕ) : ConstraintsHolder α →
    List ConstraintRef → Prop
  | new : Reachable B n (new n) [.universal]
  | empty {h refs} : Reachable B n h refs → 0 < n → Reachable B n h (.empty :: refs)
  | append {h refs items col} : Reachable B n h refs → col < n → Appendable B refs items col →
      Reachable B n (h.append items col).1 ((h.append items col).2 :: refs)
  | interval {h refs lower upper col result} : Reachable B n h refs → col < n → lower < upper →
      lower ∈ B → upper ∈ B → h.interval lower upper col = .ok result →
      Reachable B n result.1 (result.2 :: refs)
  | constant {h refs value col result} : Reachable B n h refs → col < n → ⟨value, false⟩ ∈ B →
      ⟨value, true⟩ ∈ B → h.constant value col = .ok result → Reachable B n result.1 (result.2 :: refs)
  | intersect {h refs lhs rhs result} : Reachable B n h refs → lhs ∈ refs → rhs ∈ refs →
      h.intersect lhs rhs = .ok result → Reachable B n result.1 (result.2 :: refs)
  | unite {h refs lhs rhs result} : Reachable B n h refs → lhs ∈ refs → rhs ∈ refs →
      h.unite lhs rhs = .ok result → Reachable B n result.1 (result.2 :: refs)
  | invert {h refs ref result} : Reachable B n h refs → ref ∈ refs →
      h.invert ref = .ok result → Reachable B n result.1 (result.2 :: refs)

/-- What holds of a holder and its references along a run. -/
structure RunInv (B : Set (ValueBound α)) (n : ℕ) (h : ConstraintsHolder α)
    (refs : List ConstraintRef) : Prop where
  wf : WellFormed B h
  length_eq : h.columns.length = n
  valid : ∀ ref ∈ refs, h.Valid ref

variable {refs : List ConstraintRef}

theorem RunInv.step (hinv : RunInv B n h refs) (hres : OpResult B h col P result) :
      RunInv B n result.1 (result.2 :: refs) where
  wf := hres.grows.wf
  length_eq := hres.grows.length_eq.trans hinv.length_eq
  valid := forall_mem_cons.mpr ⟨hres.valid, fun ref hr => hres.grows.valid (hinv.valid ref hr)⟩

theorem RunInv.run {op : Result (ConstraintsHolder α × ConstraintRef)} (hinv : RunInv B n h refs)
    (hs : ∃ result, op = .ok result ∧ OpResult B h col P result) (hrun : op = .ok result) :
    RunInv B n result.1 (result.2 :: refs) := by
  obtain ⟨result', hrun', hres⟩ := hs
  exact Except.ok.inj (hrun'.symm.trans hrun) ▸ hinv.step hres

theorem Appendable.itemOk (ha : Appendable B refs items col) (hinv : RunInv B n h refs) :
      ∀ item ∈ items, ItemOk B h col item :=
  fun item hi => ⟨ha.made item hi, (ha.bounds item hi).1, (ha.bounds item hi).2,
    hinv.valid _ (ha.nexts item hi).1, (ha.nexts item hi).2⟩

theorem interval_spec (hwf : WellFormed B h) (hc : col < h.columns.length)
    (hlt : lower < upper) (hlower : lower ∈ B) (hu : upper ∈ B) :
    ∃ result, h.interval lower upper col = .ok result ∧ OpResult B h col
        (fun key => ∃ v, key[col]? = some v ∧ lower ≤ point v ∧ point v < upper) result := by
  have hok := itemOk_ofBounds (h := h) hlt hlower hu valid_universal (hc.trans_le hwf.columnCount)
  refine ⟨_, by rw [interval, make_eq hlt]; rfl, ?_⟩
  refine (append_spec hwf hc (forall_mem_singleton.mpr hok) (pairwise_singleton _ _)).congr rfl
    fun key => ?_
  simp only [coveredBy_singleton, getLowerBound_ofBounds, getUpperBound_ofBounds]
  exact exists_congr fun v => and_congr_right fun _ => and_iff_left sat_universal

theorem constant_spec {value : Value α} (hwf : WellFormed B h) (hc : col < h.columns.length)
    (hl : ⟨value, false⟩ ∈ B) (hu : ⟨value, true⟩ ∈ B) :
    ∃ result, h.constant value col = .ok result ∧
      OpResult B h col (fun key => ∃ v, key[col]? = some v ∧ value = .data v) result := by
  obtain ⟨result, hrun, hres⟩ := interval_spec hwf hc (lt_after_iff.mpr le_rfl) hl hu
  refine ⟨result, hrun, hres.congr rfl fun key => exists_congr fun v => and_congr_right fun _ => ?_⟩
  rw [lt_after_iff, ← le_antisymm_iff, point, ValueBound.mk.injEq, and_iff_left rfl]

theorem Reachable.runInv (hn : n ≤ sentinelColumnId) (hmin : minBound ∈ B)
    (hmax : maxBound ∈ B) (hrun : Reachable B n h refs) : RunInv B n h refs := by
  induction hrun with
  | new => exact ⟨wellFormed_new hn, by simp [ConstraintsHolder.new], by simp [valid_universal]⟩
  | empty _ hp ih =>
    exact ⟨ih.wf, ih.length_eq, forall_mem_cons.mpr ⟨valid_empty (ih.length_eq ▸ hp), ih.valid⟩⟩
  | append _ hc ha ih =>
    exact ih.step (append_spec ih.wf (ih.length_eq ▸ hc) (ha.itemOk ih)
      (sorted_of_isChain ha.made ha.sorted))
  | interval _ hc hlt hlower hupper hres ih =>
    exact ih.run (interval_spec ih.wf (ih.length_eq ▸ hc) hlt hlower hupper) hres
  | constant _ hc hlower hupper hres ih =>
    exact ih.run (constant_spec ih.wf (ih.length_eq ▸ hc) hlower hupper) hres
  | intersect _ hl hr hres ih =>
    exact ih.run (intersect_spec ih.wf (ih.valid _ hl) (ih.valid _ hr)) hres
  | unite _ hl hr hres ih =>
    exact ih.run (unite_spec ih.wf hmin hmax (ih.valid _ hl) (ih.valid _ hr)) hres
  | @invert _ _ ref result _ hr hres ih =>
    by_cases huniv : ref.columnId = sentinelColumnId
    · -- the universal constraint is given back
      rw [ConstraintsHolder.invert, invertFuel, if_pos huniv] at hres
      obtain rfl := Except.ok.inj hres
      exact ⟨ih.wf, ih.length_eq, by simpa using ⟨ih.valid _ hr, ih.valid⟩⟩
    · exact ih.run (invert_spec ih.wf hmin hmax (ih.valid _ hr) huniv) hres

/-- What is exact about the result of an operation: it is sorted, its keys are
those in `P`, and the keys of the references returned before are the same. -/
structure Exact (h : ConstraintsHolder α) (refs : List ConstraintRef) (P : Key α → Prop)
    (result : ConstraintsHolder α × ConstraintRef) : Prop where
  sorted : result.1.verifyConstraintsAreSorted result.2 = .ok ()
  keys : ∀ key : Key α, key.length = h.columns.length → (result.1.Sat key result.2 ↔ P key)
  kept : ∀ ref ∈ refs, ∀ key : Key α, result.1.Sat key ref ↔ h.Sat key ref

theorem RunInv.exact (hinv : RunInv B n h refs) (hres : OpResult B h col P result) :
    Exact h refs P result :=
  ⟨verifyConstraintsAreSorted_ok hres.valid, hres.sat, fun ref hr _ =>
    hres.grows.sat_iff hinv.wf (hinv.valid ref hr)⟩

theorem RunInv.exists_exact {op : Result (ConstraintsHolder α × ConstraintRef)}
    (hinv : RunInv B n h refs) (hs : ∃ result, op = .ok result ∧ OpResult B h col P result) :
      ∃ result, op = .ok result ∧ Exact h refs P result :=
  hs.imp fun _ hr => ⟨hr.1, hinv.exact hr.2⟩

/-- The constraint algebra is exact after every run of operations: no check
fails, the keys of an intersection, a union and a complement are just those,
every result is sorted, and the keys of earlier references do not change. -/
theorem constraintAlgebra_exact {refs : List ConstraintRef} (hn : n ≤ sentinelColumnId)
    (hrun : Reachable Set.univ n h refs) {a b : ConstraintRef} (ha : a ∈ refs) (hb : b ∈ refs) :
    (∃ result, h.intersect a b = .ok result ∧ Exact h refs
      (fun key => h.Sat key a ∧ h.Sat key b) result) ∧ (∃ result, h.unite a b = .ok result ∧
      Exact h refs (fun key => h.Sat key a ∨ h.Sat key b) result) ∧ (a.columnId ≠ sentinelColumnId →
      ∃ result, h.invert a = .ok result ∧ Exact h refs (fun key => ¬h.Sat key a) result) ∧
    (∀ (lower upper : ValueBound α) (col : ℕ), col < n → lower < upper →
      ∃ result, h.interval lower upper col = .ok result ∧ Exact h refs
          (fun key => ∃ v, key[col]? = some v ∧ testValue (.data v) lower upper = true) result) ∧
    (∀ (value : Value α) (col : ℕ), col < n → ∃ result, h.constant value col = .ok result ∧
        Exact h refs (fun key => ∃ v, key[col]? = some v ∧ value = .data v) result) ∧
    (∀ (items : List (Constraint α)) (col : ℕ), col < n → Appendable Set.univ refs items col →
      Exact h refs (fun key => ∃ item ∈ items, ∃ v, key[col]? = some v ∧
        testValue (.data v) item.getLowerBound item.getUpperBound = true ∧ h.Sat key item.next)
        (h.append items col)) := by
  have hinv := hrun.runInv hn (Set.mem_univ _) (Set.mem_univ _)
  have hu : ∀ bound : ValueBound α, bound ∈ Set.univ := Set.mem_univ
  refine ⟨hinv.exists_exact (intersect_spec hinv.wf (hinv.valid a ha) (hinv.valid b hb)),
    hinv.exists_exact (unite_spec hinv.wf (hu _) (hu _) (hinv.valid a ha) (hinv.valid b hb)),
    fun hne => hinv.exists_exact (invert_spec hinv.wf (hu _) (hu _) (hinv.valid a ha) hne),
    fun lower upper col hcol hlt => ?_,
    fun value col hcol => hinv.exists_exact
      (constant_spec hinv.wf (hinv.length_eq ▸ hcol) (hu _) (hu _)),
    fun items col hcol happ => ?_⟩
  · simp only [testValue_iff]
    exact hinv.exists_exact (interval_spec hinv.wf (hinv.length_eq ▸ hcol) hlt (hu _) (hu _))
  · refine hinv.exact ((append_spec hinv.wf (hinv.length_eq ▸ hcol) (happ.itemOk hinv)
      (IntervalList.sorted_of_isChain happ.made happ.sorted)).congr rfl fun key => ?_)
    simp only [testValue_iff]
    constructor
    · rintro ⟨v, hv, item, hi, hp, hs⟩
      exact ⟨item, hi, v, hv, hp, hs⟩
    · rintro ⟨item, hi, v, hv, hp, hs⟩
      exact ⟨v, hv, item, hi, hp, hs⟩

/-- `a = 3` in the first of two columns and `1 ≤ b ≤ 5` in the second. -/
def twoColumns : ConstraintsHolder ℕ :=
  ⟨[[⟨.data 3, .data 3, .universal, true, true⟩], [⟨.data 1, .data 5, .universal, true, true⟩]]⟩

theorem reachable_twoColumns {B : Set (ValueBound ℕ)} (hB : ∀ a flag, ⟨.data a, flag⟩ ∈ B) :
    Reachable B 2 twoColumns [⟨1, 0, 1⟩, ⟨0, 0, 1⟩, .universal] := by
  let h : ConstraintsHolder ℕ := ⟨[[⟨.data 3, .data 3, .universal, true, true⟩], []]⟩
  have hconst : (new 2 : ConstraintsHolder ℕ).constant (.data 3) 0 = .ok (h, ⟨0, 0, 1⟩) := by
    decide +kernel
  have hinterval : h.interval ⟨.data 1, false⟩ ⟨.data 5, true⟩ 1 = .ok (twoColumns, ⟨1, 0, 1⟩) := by
    decide +kernel
  have hlt : (⟨.data 1, false⟩ : ValueBound ℕ) < ⟨.data 5, true⟩ := by decide
  have hrun : Reachable B 2 h [⟨0, 0, 1⟩, .universal] :=
    .constant .new (by decide) (hB ..) (hB ..) hconst
  exact .interval hrun (by decide) hlt (hB ..) (hB ..) hinterval

/-- The union of the two columns, and what the second one and the union have in common. -/
theorem constraintAlgebra_exact_union :
    let a : ConstraintRef := ⟨0, 0, 1⟩
    let b : ConstraintRef := ⟨1, 0, 1⟩
    ∃ united, twoColumns.unite a b = .ok united ∧
      Exact twoColumns [b, a, .universal]
        (fun key => twoColumns.Sat key a ∨ twoColumns.Sat key b) united ∧
      ∃ common, united.1.intersect united.2 b = .ok common ∧
        Exact united.1 [united.2, b, a, .universal]
          (fun key => united.1.Sat key united.2 ∧ united.1.Sat key b) common := by
  intro a b
  have hrun : Reachable Set.univ 2 twoColumns [b, a, .universal] := reachable_twoColumns fun _ _ =>
    Set.mem_univ _
  obtain ⟨-, ⟨united, hunite, hexact⟩, -⟩ := constraintAlgebra_exact (by decide) hrun
    (mem_cons_of_mem b mem_cons_self) mem_cons_self
  have hrun' := Reachable.unite hrun (mem_cons_of_mem b mem_cons_self) mem_cons_self hunite
  exact ⟨united, hunite, hexact, (constraintAlgebra_exact (by decide) hrun' mem_cons_self
    (mem_cons_of_mem _ mem_cons_self)).1⟩

end ConstraintsHolder

end

end Ytsaurus.Query
