/-
# The constraint of IN

What `ExtractFromExpression` makes of an `IN` expression. The rows of the list
are sorted by the key columns among the arguments, and every row knows how
many key columns it has in common with the row before it. For each such
column, from the last to the first, the loop appends an interval for every
row that differs from the one before it up to this column (`columnItems`),
and its `Next` is the slice of the intervals of the next such column for the
rows of its group. So a run of rows that starts and ends at group borders is
a slice at every level (`LevelOk`), and a key satisfies it when some row of
the run has the key's values (`extractIn_spec`).
-/
import Ytsaurus.Lib.Search
import Ytsaurus.Query.ExtractBetween

namespace Ytsaurus.Query.ConstraintsHolder

open List TableClient Lib ValueBound

variable {h h' : ConstraintsHolder Scalar} {keyIndex index : ℕ} {last : Option ℕ}

abbrev InRow := Tuple × ℕ

/-! ### The intervals of one column -/

def constItem (value : Scalar) (next : ConstraintRef) : Constraint Scalar :=
  .ofBounds ⟨.data value, false⟩ ⟨.data value, true⟩ next

/-- The `Next` of a group: a slice of the next column, if there is one. -/
def nextRef (last : Option ℕ) (startIndex endIndex : ℕ) : ConstraintRef :=
  match last with
  | some lastKey => ⟨lastKey, startIndex, endIndex⟩
  | none => .universal

/-- How many of the rows have an interval of their own in the column. -/
def groupCount (keyIndex : ℕ) (rows : List InRow) : ℕ := rows.countP fun row => row.2 ≤ keyIndex

/-- How many of the rows have an interval of their own in the next column. -/
def nextCount (last : Option ℕ) (rows : List InRow) : ℕ :=
  match last with
  | some lastKey => groupCount lastKey rows
  | none => 0

/-- The intervals that the loop appends from here on, the one of `value` being
still open; its `Next` starts at `start`. -/
def openItems (keyIndex index : ℕ) (last : Option ℕ) (value : Scalar) (start : ℕ) :
    List InRow → ℕ → List (Constraint Scalar)
  | [], offset => [constItem value (nextRef last start offset)]
  | row :: rows, offset =>
    if keyIndex < row.2 then openItems keyIndex index last value start rows
      (offset + nextCount last [row])
    else constItem value (nextRef last start offset) ::
      openItems keyIndex index last (row.1.at index) offset rows (offset + nextCount last [row])

/-- The intervals that the loop appends for rows whose first one starts a group. -/
def columnItems (keyIndex index : ℕ) (last : Option ℕ) : List InRow → ℕ → List (Constraint Scalar)
  | [], _ => []
  | row :: rows, offset =>
    openItems keyIndex index last (row.1.at index) offset rows (offset + nextCount last [row])

/-- The rows are empty or start a group at the column. -/
def StartsGroup (keyIndex : ℕ) (rows : List InRow) : Prop := ∀ row ∈ rows.head?, row.2 ≤ keyIndex

theorem append_append (a b : List (Constraint Scalar)) (col : ℕ) :
    ((h.append a col).1.append b col).1 = (h.append (a ++ b) col).1 := by
  simp [append, modify_modify_eq, Function.comp_def]

theorem append_nil (col : ℕ) : (h.append [] col).1 = h := by
  have hid : h.columns.modify col (fun items => items ++ []) = h.columns := by
    simp only [List.append_nil]
    exact modify_id col h.columns
  simp only [append, hid]

theorem pushMake_append (keyIndex : ℕ) (value : Scalar) (acc : List (Constraint Scalar))
    (next : ConstraintRef) :
    (h.append acc keyIndex).1.pushMake keyIndex ⟨.data value, false⟩ ⟨.data value, true⟩ next =
      .ok (h.append (acc ++ [constItem value next]) keyIndex).1 := by
  rw [pushMake, Constraint.make_eq (before_lt_after _), ok_bind, pushBack_eq_append, append_append]
  rfl

theorem modify_last {β : Type} (f : β → β) (b : β) :
    ∀ l : List β, (l ++ [b]).modify l.length f = l ++ [f b]
  | [] => rfl
  | a :: l => by simpa using modify_last f b l

theorem setBackNextEnd_append (acc : List (Constraint Scalar))
    (value : Scalar) (lastKey start offset end' : ℕ) : (h.append
      (acc ++ [constItem value (nextRef (some lastKey) start offset)]) keyIndex).1.setBackNextEnd
        keyIndex end' =
      (h.append (acc ++ [constItem value (nextRef (some lastKey) start end')]) keyIndex).1 := by
  simp only [append, setBackNextEnd, modify_modify_eq, Function.comp_def,
    ConstraintsHolder.mk.injEq]
  congr 1
  funext items
  rw [← append_assoc, length_append, length_singleton, Nat.add_sub_cancel, modify_last, append_assoc]
  rfl

variable {row : InRow} {rows : List InRow}

theorem extractInColumn_new (hlast : ∀ lastKey ∈ last, keyIndex < lastKey) (hle : row.2 ≤ keyIndex)
    (offset : ℕ) (acc : List (Constraint Scalar)) :
    extractInColumn keyIndex index last (row :: rows) offset (h.append acc keyIndex).1 =
      extractInColumn keyIndex index last rows (offset + nextCount last [row]) (h.append (acc ++
          [constItem (row.1.at index) (nextRef last offset (offset + nextCount last [row]))])
          keyIndex).1 := by
  obtain ⟨row, common⟩ := row
  cases last with
  | none => simp only [extractInColumn, if_neg (not_lt.mpr hle), pushMake_append, ok_bind, nextRef,
    nextCount, Nat.add_zero]
  | some lastKey =>
    have hc : nextCount (some lastKey) [(row, common)] = 1 := by
      have := hlast lastKey rfl
      simp [nextCount, groupCount, show common ≤ lastKey by omega]
    simp only [extractInColumn, if_neg (not_lt.mpr hle), pushMake_append, ok_bind, nextRef, hc]

theorem extractInColumn_same (hlt : keyIndex < row.2) (value : Scalar) (start offset : ℕ)
    (acc : List (Constraint Scalar)) : extractInColumn keyIndex index last (row :: rows) offset
        (h.append (acc ++ [constItem value (nextRef last start offset)]) keyIndex).1 =
      extractInColumn keyIndex index last rows (offset + nextCount last [row]) (h.append (acc ++
          [constItem value (nextRef last start (offset + nextCount last [row]))]) keyIndex).1 := by
  obtain ⟨row, common⟩ := row
  cases last with
  | none => simp only [extractInColumn, if_pos hlt, nextRef, nextCount, Nat.add_zero]
  | some lastKey =>
    simp only [extractInColumn, if_pos hlt, setBackNextEnd_append]
    by_cases hle : common ≤ lastKey <;> simp [nextCount, groupCount, hle]

theorem extractInColumn_open (hlast : ∀ lastKey ∈ last, keyIndex < lastKey) :
    ∀ (rows : List InRow) (offset start : ℕ) (acc : List (Constraint Scalar)) (value : Scalar),
    extractInColumn keyIndex index last rows offset
        (h.append (acc ++ [constItem value (nextRef last start offset)]) keyIndex).1 =
      .ok (h.append (acc ++ openItems keyIndex index last value start rows offset) keyIndex).1
  | [], offset, start, acc, value => by simp only [extractInColumn, openItems, pure_eq_ok]
  | row :: rows, offset, start, acc, value => by
    rw [openItems]
    by_cases hlt : keyIndex < row.2
    · rw [if_pos hlt, extractInColumn_same hlt]
      exact extractInColumn_open hlast rows _ start acc value
    · rw [if_neg hlt, extractInColumn_new hlast (not_lt.mp hlt), extractInColumn_open hlast rows,
        append_assoc, singleton_append]

theorem extractInColumn_eq (hl : ∀ lastKey ∈ last, keyIndex < lastKey)
    (hr : StartsGroup keyIndex rows) (offset : ℕ) :
    extractInColumn keyIndex index last rows offset h =
      .ok (h.append (columnItems keyIndex index last rows offset) keyIndex).1 := by
  cases rows with
  | nil => simp only [extractInColumn, columnItems, append_nil, pure_eq_ok]
  | cons row rows =>
    calc extractInColumn keyIndex index last (row :: rows) offset h
        = extractInColumn keyIndex index last (row :: rows) offset (h.append [] keyIndex).1 := by
          rw [append_nil]
      _ = _ := by
          rw [extractInColumn_new hl (hr row rfl), extractInColumn_open hl, columnItems, nil_append]

/-! ### Splitting the rows -/

theorem groupCount_append (a b : List InRow) :
    groupCount keyIndex (a ++ b) = groupCount keyIndex a + groupCount keyIndex b :=
  countP_append

theorem nextCount_nil : nextCount last [] = 0 := by cases last <;> rfl

theorem nextCount_append (a b : List InRow) :
    nextCount last (a ++ b) = nextCount last a + nextCount last b := by
  cases last with
  | none => rfl
  | some lastKey => exact groupCount_append a b

theorem nextCount_cons (row : InRow) (rows : List InRow) :
    nextCount last (row :: rows) = nextCount last [row] + nextCount last rows :=
  nextCount_append [row] rows

theorem startsGroup_nil : StartsGroup keyIndex [] := by simp [StartsGroup]

theorem startsGroup_cons : StartsGroup keyIndex (row :: rows) ↔ row.2 ≤ keyIndex := by
  simp [StartsGroup]

theorem StartsGroup.mono {k : ℕ} (hrows : StartsGroup keyIndex rows) (hle : keyIndex ≤ k) :
    StartsGroup k rows := fun row hrow => (hrows row hrow).trans hle

variable {a b : List InRow}

theorem startsGroup_append_left (hne : a ≠ []) : StartsGroup keyIndex (a ++ b) ↔
    StartsGroup keyIndex a := by
  cases a with
  | nil => exact absurd rfl hne
  | cons => rw [cons_append, startsGroup_cons, startsGroup_cons]

theorem startsGroup_append (ha : StartsGroup keyIndex a) (hb : StartsGroup keyIndex b) :
    StartsGroup keyIndex (a ++ b) := by
  by_cases hne : a = []
  · rwa [hne, nil_append]
  · exact (startsGroup_append_left hne).mpr ha

theorem openItems_append {b : List InRow} (hb : StartsGroup keyIndex b) :
    ∀ (a : List InRow) (value : Scalar) (start offset : ℕ),
    openItems keyIndex index last value start (a ++ b) offset =
      openItems keyIndex index last value start a offset ++
        columnItems keyIndex index last b (offset + nextCount last a)
  | [], value, start, offset => by
    cases b with
    | nil => simp only [columnItems, List.append_nil]
    | cons row rows =>
      rw [startsGroup_cons] at hb
      simp only [nil_append, openItems, if_neg (not_lt.mpr hb), columnItems, nextCount_nil,
        Nat.add_zero, singleton_append]
  | row :: a, value, start, offset => by
    rw [cons_append, openItems, openItems, nextCount_cons row a, ← Nat.add_assoc]
    split_ifs
    · exact openItems_append hb a _ _ _
    · rw [openItems_append hb a, cons_append]

theorem columnItems_append (hb : StartsGroup keyIndex b) (offset : ℕ) :
    columnItems keyIndex index last (a ++ b) offset = columnItems keyIndex index last a offset ++
        columnItems keyIndex index last b (offset + nextCount last a) := by
  cases a with
  | nil =>
    simp only [nil_append, columnItems, nextCount_nil, Nat.add_zero]
  | cons row a => rw [cons_append, columnItems, columnItems, openItems_append hb,
    nextCount_cons row a, Nat.add_assoc]

theorem openItems_group : ∀ {tail : List InRow}, (∀ row ∈ tail, keyIndex < row.2) →
    ∀ (value : Scalar) (start offset : ℕ), openItems keyIndex index last value start tail offset =
      [constItem value (nextRef last start (offset + nextCount last tail))]
  | [], _, _, _, _ => by rw [openItems, nextCount_nil, Nat.add_zero]
  | row :: tail, h, _, _, _ => by
    obtain ⟨hr, ht⟩ := forall_mem_cons.mp h
    rw [openItems, if_pos hr, openItems_group ht, Nat.add_assoc, ← nextCount_cons]

/-- The interval of a group, and those of the rows after it. -/
theorem columnItems_group (ha : ∀ row ∈ a, keyIndex < row.2) (hb : StartsGroup keyIndex b)
    (offset : ℕ) : columnItems keyIndex index last (row :: a ++ b) offset =
      constItem (row.1.at index) (nextRef last offset (offset + nextCount last (row :: a))) ::
        columnItems keyIndex index last b (offset + nextCount last (row :: a)) := by
  rw [cons_append, columnItems, openItems_append hb, openItems_group ha, singleton_append,
    Nat.add_assoc, ← nextCount_cons]

/-- Rows that start a group are groups one after the other. -/
theorem group_induction {P : List InRow → Prop} (hn : P []) (hg : ∀ row a b, row.2 ≤ keyIndex →
    (∀ row ∈ a, keyIndex < row.2) → StartsGroup keyIndex b → P b → P (row :: a ++ b)) :
    ∀ rows, StartsGroup keyIndex rows → P rows
  | [], _ => hn
  | row :: rows, h => by
    have hrest : StartsGroup keyIndex (rows.dropWhile fun row => decide (keyIndex < row.2)) := by
      intro r hr
      have := head?_dropWhile_not (fun row : InRow => decide (keyIndex < row.2)) rows
      rw [Option.mem_def.mp hr] at this
      simpa using this
    rw [← takeWhile_append_dropWhile (p := fun row : InRow => decide (keyIndex < row.2)) (l := rows)]
    exact hg row _ _ (startsGroup_cons.mp h) (fun r hr => by simpa using mem_takeWhile_imp hr) hrest
      (group_induction hn hg _ hrest)
termination_by rows => rows.length
decreasing_by exact Nat.lt_succ_of_le (length_dropWhile_le _ _)

theorem length_openItems : ∀ (rows : List InRow) (value : Scalar) (start offset : ℕ),
    (openItems keyIndex index last value start rows offset).length = groupCount keyIndex rows + 1
  | [], _, _, _ => rfl
  | row :: rows, value, start, offset => by
    rw [openItems, groupCount, countP_cons]
    by_cases hlt : keyIndex < row.2
    · rw [if_pos hlt, length_openItems rows, groupCount, if_neg (by simpa using hlt), Nat.add_zero]
    · rw [if_neg hlt, length_cons, length_openItems rows, groupCount, if_pos (by simpa using hlt)]

variable (index last) in
theorem length_columnItems (hr : StartsGroup keyIndex rows) (offset : ℕ) :
    (columnItems keyIndex index last rows offset).length = groupCount keyIndex rows := by
  cases rows with
  | nil => rfl
  | cons row rows =>
    rw [startsGroup_cons] at hr
    rw [columnItems, length_openItems, groupCount, groupCount, countP_cons, if_pos (by simpa using hr)]

theorem columnItems_slice {pre : List InRow} (hall : StartsGroup keyIndex (pre ++ (a ++ b)))
    (ha : StartsGroup keyIndex a) (hb : StartsGroup keyIndex b) (offset : ℕ) :
    ((columnItems keyIndex index last (pre ++ (a ++ b)) offset).take
      (groupCount keyIndex (pre ++ a))).drop (groupCount keyIndex pre) =
      columnItems keyIndex index last a (offset + nextCount last pre) := by
  have hp : StartsGroup keyIndex pre := by
    by_cases hne : pre = []
    · rw [hne]
      exact startsGroup_nil
    · exact (startsGroup_append_left hne).mp hall
  rw [columnItems_append (startsGroup_append ha hb), columnItems_append hb, groupCount_append,
    ← length_columnItems index last hp offset, ← length_columnItems index last ha
      (offset + nextCount last pre),
    take_length_add_append, drop_left, take_left]

/-! ### The keys of a column -/

/-- A row and the one before it: they agree on the key columns before the
common prefix, and differ at a key column there, if it is not the end. -/
structure LinkOk (keyMapping : List (Option ℕ)) (prev row : InRow) : Prop where
  agree : ∀ k j, keyMapping[k]? = some (some j) → k < row.2 → prev.1.at j = row.1.at j
  less : row.2 < keyMapping.length → ∃ j, keyMapping[row.2]? = some (some j) ∧
    prev.1.at j < row.1.at j

/-- The intervals of the key column `keyIndex` of all rows start at `start`:
a run of rows between group borders is a slice, and a key satisfies it if it
matches some row of the run. -/
structure LevelOk (h : ConstraintsHolder Scalar) (all : List InRow) (keyIndex start : ℕ)
    (M : Tuple → Key Scalar → Prop) : Prop where
  length_eq : (h.column keyIndex).length = start + groupCount keyIndex all
  valid : ∀ pre a b, all = pre ++ (a ++ b) → StartsGroup keyIndex a → StartsGroup keyIndex b →
    (∀ row ∈ a.tail, keyIndex ≤ row.2) →
      h.Valid ⟨keyIndex, start + groupCount keyIndex pre, start + groupCount keyIndex (pre ++ a)⟩
  sat : ∀ pre a b, all = pre ++ (a ++ b) → StartsGroup keyIndex a → StartsGroup keyIndex b →
    ∀ key : Key Scalar, key.length = h.columns.length →
      (h.Sat key ⟨keyIndex, start + groupCount keyIndex pre,
        start + groupCount keyIndex (pre ++ a)⟩ ↔ ∃ row ∈ a, M row.1 key)

/-- What is known of the next column: its level, if there is one. -/
def NextOk (h : ConstraintsHolder Scalar) (all : List InRow) (last : Option ℕ) (start : ℕ)
    (M : Tuple → Key Scalar → Prop) : Prop :=
  match last with
  | some lastKey => LevelOk h all lastKey start M
  | none => ∀ tuple key, M tuple key

section Column

variable {all : List InRow} {start : ℕ} {M : Tuple → Key Scalar → Prop} {kmap : List (Option ℕ)}

variable {pre a b : List InRow}

theorem NextOk.sat_nextRef (hn : NextOk h all last start M)
    (hlast : ∀ lastKey ∈ last, keyIndex < lastKey)
    (hall : all = pre ++ (a ++ b)) (hne : a ≠ []) (ha : StartsGroup keyIndex a)
    (hb : StartsGroup keyIndex b) {key : Key Scalar} (hk : key.length = h.columns.length) :
    h.Sat key (nextRef last (start + nextCount last pre) (start + nextCount last (pre ++ a))) ↔
      ∃ row ∈ a, M row.1 key := by
  cases last with
  | none =>
    obtain ⟨row, hr⟩ := exists_mem_of_ne_nil a hne
    exact ⟨fun _ => ⟨row, hr, hn row.1 key⟩, fun _ => sat_universal⟩
  | some lastKey =>
    have hle := (hlast lastKey rfl).le
    exact LevelOk.sat hn pre a b hall (ha.mono hle) (hb.mono hle) key hk

theorem constItem_point {value x : Scalar} {next : ConstraintRef} :
    ((constItem value next).getLowerBound ≤ point x ∧
      point x < (constItem value next).getUpperBound) ↔ value = x := by
  simp only [constItem, Constraint.getLowerBound_ofBounds, Constraint.getUpperBound_ofBounds,
    before_le_point, point_lt_after]
  exact ⟨fun hx => le_antisymm hx.1 hx.2, fun hx => ⟨hx.le, hx.ge⟩⟩

theorem at_eq_of_group (hm : kmap[keyIndex]? = some (some index)) :
    ∀ {row : InRow} {a : List InRow}, (row :: a).IsChain (LinkOk kmap) →
    (∀ row ∈ a, keyIndex < row.2) → ∀ r ∈ row :: a, r.1.at index = row.1.at index
  | row, [], _, _ => by simp
  | row, next :: a, hc, h => by
    obtain ⟨hl, hc⟩ := isChain_cons_cons.mp hc
    obtain ⟨hn, ha⟩ := forall_mem_cons.mp h
    rw [hl.agree keyIndex index hm hn]
    exact forall_mem_cons.mpr ⟨hl.agree keyIndex index hm hn, at_eq_of_group hm hc ha⟩

/-- The intervals from an open group on are sorted, when the rows agree on the
key columns before this one. -/
theorem sorted_openItems (hm : kmap[keyIndex]? = some (some index)) :
    ∀ (rows : List InRow) (p : InRow) (s offset : ℕ), (p :: rows).IsChain (LinkOk kmap) →
      (∀ row ∈ rows, keyIndex ≤ row.2) →
      SortedItems (openItems keyIndex index last (p.1.at index) s rows offset) ∧
        ∀ item ∈ openItems keyIndex index last (p.1.at index) s rows offset,
          ⟨.data (p.1.at index), false⟩ ≤ item.getLowerBound
  | [], p, s, offset, _, _ => by
    exact ⟨pairwise_singleton _ _, forall_mem_singleton.mpr (by simp [constItem])⟩
  | row :: rows, p, s, offset, hc, hle => by
    obtain ⟨hlink, hc⟩ := isChain_cons_cons.mp hc
    obtain ⟨hrow, hle⟩ := forall_mem_cons.mp hle
    rw [openItems]
    split_ifs with hlt
    · rw [hlink.agree keyIndex index hm hlt]
      exact sorted_openItems hm rows row s _ hc hle
    · -- the row differs from the one before it at this very column
      have heq : row.2 = keyIndex := le_antisymm (not_lt.mp hlt) hrow
      have hlen : row.2 < kmap.length := heq ▸ lt_of_getElem? hm
      obtain ⟨j, hj, hless⟩ := hlink.less hlen
      rw [heq, hm] at hj
      obtain rfl : index = j := by simpa using hj
      obtain ⟨hs, hf⟩ := sorted_openItems hm rows row offset (offset + nextCount last [row]) hc hle
      have ha : (⟨.data (p.1.at index), true⟩ : ValueBound Scalar) ≤ ⟨.data (row.1.at index), false⟩ :=
        after_le_point.mpr hless
      refine ⟨pairwise_cons.mpr ⟨fun item hi => ha.trans (hf item hi), hs⟩,
        forall_mem_cons.mpr ⟨?_, fun item hi => ?_⟩⟩
      · simp [constItem]
      · exact ((before_lt_after _).le.trans ha).trans (hf item hi)

/-- What the columns of an `IN` look like from this one on: `last` is the first
mapped column after `keyIndex`. -/
structure LastOk (keyMapping : List (Option ℕ)) (keyIndex : ℕ) (last : Option ℕ) : Prop where
  after : ∀ lastKey ∈ last, keyIndex < lastKey
  first : ∀ lastKey ∈ last, ∀ c j, keyIndex < c → keyMapping[c]? = some (some j) → lastKey ≤ c
  lt_length : ∀ lastKey ∈ last, lastKey < keyMapping.length

theorem LinkOk.last_le {p row : InRow} {lastKey : ℕ} (hlink : LinkOk kmap p row)
    (hlt : lastKey < kmap.length)
    (hf : ∀ j, kmap[row.2]? = some (some j) → lastKey ≤ row.2) : lastKey ≤ row.2 := by
  by_cases hlen : row.2 < kmap.length
  · obtain ⟨j, hj, -⟩ := hlink.less hlen
    exact hf j hj
  · omega

theorem itemOk_constItem (hn : NextOk h all last start M) (hok : LastOk kmap keyIndex last)
    (hc : keyIndex < sentinelColumnId) (hall : all = pre ++ (a ++ b)) (ha : StartsGroup keyIndex a)
    (hb : StartsGroup keyIndex b) (ht : ∀ row ∈ a.tail, ∀ lastKey ∈ last, lastKey ≤ row.2)
    (value : Scalar) : ItemOk proper h keyIndex (constItem value
        (nextRef last (start + nextCount last pre) (start + nextCount last (pre ++ a)))) := by
  refine itemOk_value value ?_ ?_
  · cases last with
    | none => exact valid_universal
    | some lastKey =>
      have hle := (hok.after lastKey rfl).le
      exact LevelOk.valid hn pre a b hall (ha.mono hle) (hb.mono hle) fun row hr => ht row hr lastKey rfl
  · cases last with
    | none => exact hc
    | some lastKey => exact hok.after lastKey rfl

theorem exists_linkOk : ∀ {all : List InRow}, all.IsChain (LinkOk kmap) →
    ∀ row ∈ all.tail, ∃ p, LinkOk kmap p row
  | [], _, row, hr | [_], _, row, hr => by simp at hr
  | p :: q :: all, hc, row, hr => by
    obtain ⟨hl, hc⟩ := isChain_cons_cons.mp hc
    rcases mem_cons.mp hr with rfl | hr
    · exact ⟨p, hl⟩
    · exact exists_linkOk hc row hr

variable (index) in
theorem itemOk_columnItems (hn : NextOk h all last start M) (hok : LastOk kmap keyIndex last)
    (hcol : keyIndex < sentinelColumnId) (hchain : all.IsChain (LinkOk kmap))
    (hall : StartsGroup keyIndex all) :
    ∀ item ∈ columnItems keyIndex index last all start, ItemOk proper h keyIndex item := by
  have hrun : ∀ rows, StartsGroup keyIndex rows → ∀ pre, all = pre ++ rows →
      ∀ item ∈ columnItems keyIndex index last rows (start + nextCount last pre),
          ItemOk proper h keyIndex item := by
    refine group_induction (by simp [columnItems]) fun row a b hrow ha hb ih pre hs => ?_
    have hlinks : (row :: a).IsChain (LinkOk kmap) := by
      rw [hs] at hchain
      exact hchain.right_of_append.left_of_append
    rw [columnItems_group ha hb, Nat.add_assoc, ← nextCount_append]
    refine forall_mem_cons.mpr ⟨?_, ih (pre ++ row :: a) (by rw [hs, append_assoc])⟩
    refine itemOk_constItem hn hok hcol hs (startsGroup_cons.mpr hrow) hb (fun r hr => ?_) _
    obtain ⟨p, hlink⟩ := exists_linkOk hlinks r hr
    exact fun lastKey hl => hlink.last_le (hok.lt_length lastKey hl) fun j =>
      hok.first lastKey hl r.2 j (ha r hr)
  simpa only [nextCount_nil, Nat.add_zero] using hrun all hall [] rfl

theorem slice_columnItems
    (hg : Grows proper keyIndex h h' (columnItems keyIndex index last (pre ++ (a ++ b)) start))
    (hall : StartsGroup keyIndex (pre ++ (a ++ b))) (ha : StartsGroup keyIndex a)
    (hb : StartsGroup keyIndex b) :
    h'.slice ⟨keyIndex, (h.column keyIndex).length + groupCount keyIndex pre,
        (h.column keyIndex).length + groupCount keyIndex (pre ++ a)⟩ =
      columnItems keyIndex index last a (start + nextCount last pre) := by
  simp only [slice, hg.here]
  rw [take_length_add_append, drop_append, drop_of_length_le (by omega), nil_append,
    Nat.add_sub_cancel_left]
  exact columnItems_slice hall ha hb start

/-- The keys of the intervals of rows between group borders. -/
theorem coveredBy_columnItems (hn : NextOk h all last start M)
    (hlast : ∀ lastKey ∈ last, keyIndex < lastKey)
    (hm : kmap[keyIndex]? = some (some index)) (hc : all.IsChain (LinkOk kmap))
    (hb : StartsGroup keyIndex b) {key : Key Scalar} (hk : key.length = h.columns.length)
    (x : Scalar) : ∀ a, StartsGroup keyIndex a → ∀ pre, all = pre ++ (a ++ b) →
      (h.CoveredBy key (columnItems keyIndex index last a (start + nextCount last pre)) (point x) ↔
        ∃ row ∈ a, row.1.at index = x ∧ M row.1 key) := by
  refine group_induction (fun _ _ => by simp [columnItems])
    fun row g rest hrow hg hrest ih pre hsplit => ?_
  have hlinks : (row :: g).IsChain (LinkOk kmap) := by
    rw [hsplit] at hc
    exact hc.right_of_append.left_of_append.left_of_append
  rw [append_assoc] at hsplit
  have hv := at_eq_of_group hm hlinks hg
  have hsat := hn.sat_nextRef hlast hsplit (cons_ne_nil row g) (startsGroup_cons.mpr hrow)
    (startsGroup_append hrest hb) hk
  have ih := ih (pre ++ row :: g) (by rw [hsplit, append_assoc])
  rw [columnItems_group hg hrest, Nat.add_assoc, ← nextCount_append, CoveredBy,
    IntervalList.covered_cons, constItem_point]
  simp only [mem_append, or_and_right, exists_or]
  refine or_congr ?_ ih
  constructor
  · rintro ⟨rfl, hnext⟩
    obtain ⟨r, hr, hM⟩ := hsat.mp hnext
    exact ⟨r, hr, hv r hr, hM⟩
  · rintro ⟨r, hr, hx, hM⟩
    exact ⟨(hv r hr).symm.trans hx, hsat.mpr ⟨r, hr, hM⟩⟩

theorem levelOk_columnItems (hwf : WellFormed proper h) (hn : NextOk h all last start M)
    (hok : LastOk kmap keyIndex last) (hmap : kmap[keyIndex]? = some (some index))
    (hcol : keyIndex < h.columns.length) (hchain : all.IsChain (LinkOk kmap))
    (hall : StartsGroup keyIndex all)
    (hg : Grows proper keyIndex h h' (columnItems keyIndex index last all start)) :
    LevelOk h' all keyIndex (h.column keyIndex).length fun tuple key =>
      key[keyIndex]? = some (tuple.at index) ∧ M tuple key := by
  have hsent : keyIndex < sentinelColumnId := hcol.trans_le hwf.columnCount
  have hl := length_columnItems index last hall start
  refine ⟨?_, fun pre a b hsplit ha hb ht => .inr ⟨?_, ?_, ?_, ?_⟩,
    fun pre a b hsplit ha hb key hk => ?_⟩
  · rw [hg.here, length_append, hl]
  · exact hcol.trans_eq hg.length_eq.symm
  · simp [groupCount_append]
  · have hcount : groupCount keyIndex all = groupCount keyIndex (pre ++ a) + groupCount keyIndex b := by
      rw [hsplit, ← append_assoc, groupCount_append]
    simp only [hg.here, length_append, hl, hcount]
    omega
  · subst hsplit
    rw [slice_columnItems hg hall ha hb]
    cases a with
    | nil => exact .nil
    | cons row rows =>
      exact (sorted_openItems hmap rows row _ _ hchain.right_of_append.left_of_append ht).1
  · have hk' : key.length = h.columns.length := hk.trans hg.length_eq
    have hv : key[keyIndex]? = some (key.get ⟨keyIndex, by omega⟩) := getElem?_eq_getElem (by omega)
    have hslice := slice_columnItems (hsplit ▸ hg) (hsplit ▸ hall) ha hb
    have hitems : ∀ item ∈ columnItems keyIndex index last a (start + nextCount last pre),
        ItemOk proper h keyIndex item := fun item hi => by
      rw [← hslice] at hi
      have hmem := mem_column_of_mem_slice hi
      rw [hg.here] at hmem
      exact (mem_append.mp hmem).elim (hwf.items _ item)
        (itemOk_columnItems index hn hok hsent hchain hall item)
    rw [sat_iff_coveredBy hsent.ne hv, hslice, hg.coveredBy_iff hwf hitems,
      coveredBy_columnItems hn hok.after hmap hchain hb hk' _ a ha pre hsplit, hv]
    simp only [Option.some.injEq, eq_comm]

/-- The key has the row's values in the mapped columns from `keyIndex` on. -/
def MatchesFrom (keyMapping : List (Option ℕ)) (keyIndex : ℕ) (tuple : Tuple)
    (key : Key Scalar) : Prop :=
  ∀ k j, keyIndex ≤ k → keyMapping[k]? = some (some j) → key[k]? = some (tuple.at j)

variable (keyIndex) in
theorem matchesFrom_eq : MatchesFrom kmap keyIndex = fun tuple key =>
    (∀ j, kmap[keyIndex]? = some (some j) → key[keyIndex]? = some (tuple.at j)) ∧
      MatchesFrom kmap (keyIndex + 1) tuple key := by
  funext tuple key
  refine propext ⟨fun hm => ⟨fun j => hm keyIndex j le_rfl, fun k j hk => hm k j (by omega)⟩, ?_⟩
  rintro ⟨hh, hm⟩ k j hk
  rcases hk.eq_or_lt with rfl | hk
  · exact hh j
  · exact hm k j hk

/-- `last` is the first mapped column from `keyIndex` on. -/
structure FirstMapped (keyMapping : List (Option ℕ)) (keyIndex : ℕ) (last : Option ℕ) : Prop where
  le : ∀ lastKey ∈ last, keyIndex ≤ lastKey
  mapped : ∀ lastKey ∈ last, ∃ j, keyMapping[lastKey]? = some (some j)
  first : ∀ c j, keyIndex ≤ c → keyMapping[c]? = some (some j) → ∃ lastKey ∈ last, lastKey ≤ c

theorem FirstMapped.of_none (hf : FirstMapped kmap (keyIndex + 1) last)
    (hm : kmap[keyIndex]? = some none) : FirstMapped kmap keyIndex last := by
  refine ⟨fun lastKey hl => (Nat.le_succ _).trans (hf.le lastKey hl), hf.mapped, fun c j hc hj => ?_⟩
  rcases hc.eq_or_lt with rfl | hc
  · rw [hm] at hj
    simp at hj
  · exact hf.first c j hc hj

theorem firstMapped_some (hm : kmap[keyIndex]? = some (some index)) :
    FirstMapped kmap keyIndex (some keyIndex) :=
  ⟨by simp, by simp [hm], fun c j hc _ => ⟨keyIndex, rfl, hc⟩⟩

theorem FirstMapped.lt_length (hf : FirstMapped kmap keyIndex last) :
    ∀ lastKey ∈ last, lastKey < kmap.length := fun lastKey hl => by
  obtain ⟨j, hj⟩ := hf.mapped lastKey hl
  exact lt_of_getElem? hj

/-- The loop over the columns builds the levels from the last mapped column to the first. -/
theorem extractInColumns_spec (hchain : all.IsChain (LinkOk kmap)) (ha : StartsGroup 0 all) :
    ∀ (mapping : List (Option ℕ)) (done : List (Option ℕ)) (last : Option ℕ) (start : ℕ)
      (h : ConstraintsHolder Scalar), kmap = mapping.reverse ++ done → WellFormed proper h →
      h.columns.length = kmap.length → FirstMapped kmap mapping.length last →
      NextOk h all last start (MatchesFrom kmap mapping.length) →
      ∃ h' last' start', extractInColumns all mapping last start h = .ok (h', last', start') ∧
        GrowsFrom proper 0 h h' ∧ FirstMapped kmap 0 last' ∧
        NextOk h' all last' start' (MatchesFrom kmap 0)
  | [], done, last, start, h, hs, hwf, hlen, hf, hn =>
    ⟨h, last, start, rfl, GrowsFrom.refl hwf, hf, hn⟩
  | none :: mapping, done, last, start, h, hs, hwf, hlen, hf, hn => by
    have hm : kmap[mapping.length]? = some none := by
      rw [hs]
      simp
    exact extractInColumns_spec hchain ha mapping (none :: done) last start h
      (by simpa using hs) hwf hlen
      (hf.of_none hm) (by simpa [matchesFrom_eq mapping.length, hm] using hn)
  | some index :: mapping, done, last, start, h, hs, hwf, hlen, hf, hn => by
    have hm : kmap[mapping.length]? = some (some index) := by
      rw [hs]
      simp
    have hok : LastOk kmap mapping.length last := by
      refine ⟨hf.le, fun lastKey hl c j hc hj => ?_, hf.lt_length⟩
      obtain ⟨lastKey', hl', hle⟩ := hf.first c j hc hj
      rw [Option.mem_unique hl hl']
      exact hle
    have hcol : mapping.length < h.columns.length := by
      rw [hlen]
      exact lt_of_getElem? hm
    have ha' : StartsGroup mapping.length all := ha.mono (Nat.zero_le _)
    have hg := grows_append hwf hcol
      (itemOk_columnItems index hn hok (hcol.trans_le hwf.columnCount) hchain ha')
    have hlevel := levelOk_columnItems hwf hn hok hm hcol hchain ha' hg
    rw [extractInColumns, extractInColumn_eq hok.after ha', ok_bind]
    obtain ⟨h', last', start', heq, hgrows, hr⟩ :=
      extractInColumns_spec hchain ha mapping (some index :: done)
      (some mapping.length) (h.column mapping.length).length _ (by simpa using hs) hg.wf
      (hg.length_eq.trans hlen) (firstMapped_some hm)
      (by simpa [NextOk, matchesFrom_eq mapping.length, hm] using hlevel)
    exact ⟨h', last', start', heq, (hg.mono (Nat.zero_le _)).trans hgrows, hr⟩

end Column

/-! ### The order of the rows -/

/-- The row's values in the mapped columns. -/
def mappedValues (keyMapping : List (Option ℕ)) (tuple : Tuple) : List Scalar :=
  keyMapping.reduceOption.map tuple.at

theorem compareRowUsingMapping_le (lhs rhs : Tuple) : ∀ kmap : List (Option ℕ),
    compareRowUsingMapping lhs rhs kmap ≤ 0 ↔ mappedValues kmap lhs ≤ mappedValues kmap rhs
  | [] => by simp [compareRowUsingMapping, mappedValues]
  | none :: kmap => by
    rw [compareRowUsingMapping, compareRowUsingMapping_le lhs rhs kmap]
    rfl
  | some index :: kmap => by
    have hc : ∀ tuple : Tuple, mappedValues (some index :: kmap) tuple =
        tuple.at index :: mappedValues kmap tuple := fun tuple => rfl
    have ih := compareRowUsingMapping_le lhs rhs kmap
    rw [compareRowUsingMapping, hc, hc, ← not_lt (b := _ :: _), cons_lt_cons_iff]
    rcases lt_trichotomy (lhs.at index) (rhs.at index) with hlt | heq | hgt
    · have hn := ternaryCompare_lt.mpr hlt
      simp [hn.ne, hn.le, hlt.not_gt, hlt.ne']
    · simp [heq, ternaryCompare, ih]
    · have hp : 0 < ternaryCompare (lhs.at index) (rhs.at index) := by
        rw [ternaryCompare_neg]
        have := ternaryCompare_lt.mpr hgt
        omega
      simp [hp.ne', hp.not_ge, hgt]

variable {kmap : List (Option ℕ)}

theorem LinkOk.cons {prev : InRow} {tuple : Tuple} {common : ℕ} {column : Option ℕ}
    (h : LinkOk kmap prev (tuple, common)) (hc : ∀ j ∈ column, prev.1.at j = tuple.at j) :
    LinkOk (column :: kmap) prev (tuple, common + 1) := by
  refine ⟨fun k j hj hk => ?_, fun hlen => by simpa using h.less (by simpa using hlen)⟩
  cases k with
  | zero => exact hc j (by simpa using hj)
  | succ k => exact h.agree k j (by simpa using hj) (by simpa using hk)

/-- Neighbouring rows in the order of the mapped columns. -/
theorem linkOk_of_compare {lhs rhs : Tuple} (n : ℕ) : ∀ kmap : List (Option ℕ),
    compareRowUsingMapping lhs rhs kmap ≤ 0 →
    LinkOk kmap (lhs, n) (rhs, getEqualPrefixUsingMapping lhs rhs kmap)
  | [], _ => ⟨by simp, by simp⟩
  | none :: kmap, hle => (linkOk_of_compare n kmap hle).cons (by simp)
  | some index :: kmap, hle => by
    rw [compareRowUsingMapping] at hle
    by_cases heq : lhs.at index = rhs.at index
    · rw [if_neg (by simp [heq, ternaryCompare])] at hle
      rw [getEqualPrefixUsingMapping, if_neg (not_not.mpr heq)]
      exact (linkOk_of_compare n kmap hle).cons (by simp [heq])
    · have hc : getEqualPrefixUsingMapping lhs rhs (some index :: kmap) = 0 := by
        simp [getEqualPrefixUsingMapping, heq]
      have hlt : lhs.at index < rhs.at index := by
        refine lt_of_le_of_ne (ternaryCompare_le.mp ?_) heq
        split_ifs at hle with hne
        · exact hle
        · exact (not_not.mp hne).le
      refine ⟨fun k j _ hk => ?_, fun _ => ⟨index, by simp [hc], hlt⟩⟩
      rw [hc] at hk
      simp at hk

theorem withCommonPrefixes_isChain : ∀ {values : List Tuple},
    (values.IsChain fun lhs rhs => compareRowUsingMapping lhs rhs kmap ≤ 0) →
      (withCommonPrefixes kmap values).IsChain (LinkOk kmap)
  | [], _ => IsChain.nil
  | first :: values, hc => by
    rw [withCommonPrefixes]
    generalize 0 = n
    induction values generalizing first n with
    | nil => exact List.IsChain.singleton _
    | cons second values ih =>
      obtain ⟨hle, hc⟩ := isChain_cons_cons.mp hc
      exact IsChain.cons_cons (linkOk_of_compare n kmap hle) (ih second hc _)

theorem withCommonPrefixes_map_fst (kmap : List (Option ℕ)) : ∀ values : List Tuple,
    (withCommonPrefixes kmap values).map Prod.fst = values
  | [] => rfl
  | first :: values => by
    have hz : ∀ (lhs rhs : List Tuple), rhs.length ≤ lhs.length →
        (zipWith (fun l r => (r, getEqualPrefixUsingMapping l r kmap)) lhs rhs).map Prod.fst = rhs := by
      intro lhs rhs
      induction lhs generalizing rhs with
      | nil => simp +contextual
      | cons l lhs ih =>
        intro hle
        cases rhs with
        | nil => rfl
        | cons r rhs => rw [zipWith_cons_cons, map_cons, ih rhs (by simpa using hle)]
    rw [withCommonPrefixes, map_cons, hz _ _ (by simp)]

theorem at_le_at : ∀ {lhs rhs : Tuple}, lhs.length = rhs.length → lhs ≤ rhs →
    ∀ i, (∀ k < i, lhs.at k = rhs.at k) → lhs.at i ≤ rhs.at i
  | [], [], _, _, _, _ => le_rfl
  | l :: lhs, r :: rhs, hlen, hle, i, ha => by
    rw [← not_lt, cons_lt_cons_iff] at hle
    cases i with
    | zero => exact not_lt.mp fun hlt => hle (.inl hlt)
    | succ i =>
      have heq : l = r := ha 0 (Nat.succ_pos i)
      have hle' : lhs ≤ rhs := not_lt.mp fun hlt => hle (.inr ⟨heq.symm, hlt⟩)
      exact at_le_at (by simpa using hlen) hle' i fun k hk => ha (k + 1) (by omega)

theorem compareRowUsingMapping_of_ordered {lhs rhs : Tuple}
    (hle : ∀ i, (∀ k < i, lhs.at k = rhs.at k) → lhs.at i ≤ rhs.at i) :
    ∀ (kmap : List (Option ℕ)) (expected : ℕ), isOrderedMapping expected kmap = true →
      (∀ k < expected, lhs.at k = rhs.at k) → compareRowUsingMapping lhs rhs kmap ≤ 0
  | [], _, _, _ => le_rfl
  | none :: kmap, expected, ho, ha => by
    exact compareRowUsingMapping_of_ordered hle kmap expected ho ha
  | some index :: kmap, expected, ho, ha => by
    rw [isOrderedMapping] at ho
    rw [compareRowUsingMapping]
    split_ifs at ho with h1 h2
    · rw [if_neg (by simp [ha index (by omega), ternaryCompare])]
      exact compareRowUsingMapping_of_ordered hle kmap expected ho ha
    · subst h2
      have hh := hle index ha
      split_ifs with hne
      · exact ternaryCompare_le.mpr hh
      · have hge := ternaryCompare_lt.not.mp (not_not.mp hne).ge.not_gt
        refine compareRowUsingMapping_of_ordered hle kmap (index + 1) ho fun k hk => ?_
        rcases (Nat.lt_succ_iff.mp hk).eq_or_lt with rfl | hk
        · exact le_antisymm hh (not_lt.mp hge)
        · exact ha k hk

/-- The rows of an `IN` list as the expression builder leaves them. -/
structure InRowsOk (n : ℕ) (values : List Tuple) : Prop where
  sorted : values.Pairwise (· ≤ ·)
  length_eq : ∀ tuple ∈ values, tuple.length = n

theorem orderValues_spec {n : ℕ} {values : List Tuple} (hrows : InRowsOk n values)
    (kmap : List (Option ℕ)) :
    ∃ values', orderValues kmap values = .ok values' ∧ values'.Perm values ∧
      values'.IsChain fun lhs rhs => compareRowUsingMapping lhs rhs kmap ≤ 0 := by
  unfold orderValues
  split_ifs with ho
  · have hs : values.Pairwise fun lhs rhs => compareRowUsingMapping lhs rhs kmap ≤ 0 := by
      refine hrows.sorted.imp_of_mem fun {lhs rhs} hl hr hle => ?_
      have hlen := (hrows.length_eq lhs hl).trans (hrows.length_eq rhs hr).symm
      exact compareRowUsingMapping_of_ordered (at_le_at hlen hle) kmap 0 ho (by simp)
    refine ⟨values, ?_, .refl _, hs.isChain⟩
    rw [ytVerify_true hs.isChain]
    rfl
  · have htotal : Std.Total fun lhs rhs => compareRowUsingMapping lhs rhs kmap ≤ 0 :=
      ⟨fun lhs rhs => by simpa only [compareRowUsingMapping_le] using le_total _ _⟩
    have htrans : IsTrans Tuple fun lhs rhs => compareRowUsingMapping lhs rhs kmap ≤ 0 :=
      ⟨fun a b c => by simpa only [compareRowUsingMapping_le] using le_trans⟩
    exact ⟨_, rfl, perm_insertionSort _ _, (pairwise_insertionSort _ _).isChain⟩

/-! ### IN -/

def inUniversal (keyColumns : List String) (arguments : List Expression) : Bool :=
  (buildKeyMapping keyColumns arguments).all Option.isNone

/-- What the constraint of an `IN` expression keeps of it: the key's values at
the mapped columns are those of some row. -/
def InKept (keyColumns : List String) (arguments : List Expression) (values : List Tuple)
    (key : Key Scalar) : Prop :=
  inUniversal keyColumns arguments = true ∨
    ∃ tuple ∈ values, MatchesFrom (buildKeyMapping keyColumns arguments) 0 tuple key

theorem length_buildKeyMappingFrom (keyColumns : List String) :
    ∀ (index : ℕ) (exprs : List Expression) (kmap : List (Option ℕ)),
    (buildKeyMappingFrom keyColumns index exprs kmap).length = kmap.length
  | _, [], _ => rfl
  | index, e :: exprs, kmap => by
    rw [buildKeyMappingFrom]
    split
    · split_ifs <;> rw [length_buildKeyMappingFrom keyColumns (index + 1) exprs]
      exact length_set
    · exact length_buildKeyMappingFrom keyColumns (index + 1) exprs kmap

theorem length_buildKeyMapping (keyColumns : List String) (exprs : List Expression) :
    (buildKeyMapping keyColumns exprs).length = keyColumns.length := by
  rw [buildKeyMapping, length_buildKeyMappingFrom, length_replicate]

theorem LevelOk.extracted {all : List InRow} {lastKey start : ℕ} {M : Tuple → Key Scalar → Prop}
    (hlevel : LevelOk h' all lastKey start M) (hg : GrowsFrom proper 0 h h')
    (hf : FirstMapped kmap 0 (some lastKey)) (hc : all.IsChain (LinkOk kmap))
    (ha : StartsGroup 0 all) :
      Extracted h (fun key => ∃ row ∈ all, M row.1 key) (h', h'.since lastKey start) := by
  have hs : h'.since lastKey start =
      ⟨lastKey, start + groupCount lastKey [], start + groupCount lastKey ([] ++ all)⟩ := by
    simp [since, hlevel.length_eq, groupCount]
  have ha' : StartsGroup lastKey all := ha.mono (Nat.zero_le _)
  have ht : ∀ row ∈ all.tail, lastKey ≤ row.2 := fun row hr => by
    obtain ⟨p, hlink⟩ := exists_linkOk hc row hr
    refine hlink.last_le (hf.lt_length lastKey rfl) fun j hj => ?_
    obtain ⟨lastKey', hl, hle⟩ := hf.first row.2 j (Nat.zero_le _) hj
    rwa [Option.mem_some_iff.mp hl]
  rw [hs]
  exact ⟨hg, hlevel.valid [] all [] (by simp) ha' startsGroup_nil ht,
    fun key hk => hlevel.sat [] all [] (by simp) ha' startsGroup_nil key (hk.trans hg.length_eq.symm)⟩

theorem extractIn_spec {keyColumns : List String} {arguments : List Expression}
    {values : List Tuple} (hn : h.columns.length = keyColumns.length) (hwf : WellFormed proper h)
    (hrows : InRowsOk arguments.length values) :
    ∃ result, h.extractIn keyColumns arguments values = .ok result ∧
      Extracted h (InKept keyColumns arguments values) result ∧
      (result.2.columnId = sentinelColumnId ↔ inUniversal keyColumns arguments = true) := by
  obtain ⟨values', ho, hp, hchain⟩ := orderValues_spec hrows (buildKeyMapping keyColumns arguments)
  have hlen := length_buildKeyMapping keyColumns arguments
  unfold extractIn InKept inUniversal
  simp only [ho, ok_bind]
  generalize buildKeyMapping keyColumns arguments = kmap at ho hchain hlen ⊢
  have hlink := withCommonPrefixes_isChain hchain
  have ha : StartsGroup 0 (withCommonPrefixes kmap values') := by
    cases values' <;> simp [withCommonPrefixes, StartsGroup]
  have hm : ∀ P : Tuple → Prop, (∃ row ∈ withCommonPrefixes kmap values', P row.1) ↔
      ∃ tuple ∈ values, P tuple := fun P => by
    simp only [← hp.mem_iff]
    conv_rhs => rw [← withCommonPrefixes_map_fst kmap values']
    simp only [mem_map, exists_exists_and_eq_and]
  have hd : ∀ c j, kmap.reverse.length ≤ c → kmap[c]? ≠ some (some j) := fun c j hc hj => by
    have := lt_of_getElem? hj
    rw [length_reverse] at hc
    omega
  obtain ⟨h', last', start', hrun, hg, hf, hnext⟩ :=
    extractInColumns_spec hlink ha kmap.reverse [] none 0 h
    (by simp) hwf (hn.trans hlen.symm) ⟨by simp, by simp, fun c j hc hj => absurd hj (hd c j hc)⟩
    fun tuple key k j hk hj => absurd hj (hd k j hk)
  simp only [hrun, ok_bind]
  cases last' with
  | none =>
    have hu : kmap.all Option.isNone = true := by
      rw [all_eq_true]
      intro x hx
      obtain ⟨c, hc⟩ := mem_iff_getElem?.mp hx
      cases x with
      | none => rfl
      | some j =>
        obtain ⟨lastKey, hl, -⟩ := hf.first c j (Nat.zero_le _) hc
        simp at hl
    refine ⟨_, rfl, ⟨hg, valid_universal, fun key _ => ?_⟩, by simp [hu, ConstraintRef.universal]⟩
    exact iff_of_true sat_universal (.inl hu)
  | some lastKey =>
    have he := LevelOk.extracted hnext hg hf hlink ha
    obtain ⟨j, hj⟩ := hf.mapped lastKey rfl
    have hs : kmap.all Option.isNone ≠ true := fun hu => by
      simpa using all_eq_true.mp hu _ (mem_of_getElem? hj)
    refine ⟨_, rfl, ⟨he.grows, he.valid, fun key hkey => ?_⟩, iff_of_false ?_ hs⟩
    · rw [he.sat key hkey, or_iff_right hs]
      exact hm fun tuple => MatchesFrom kmap 0 tuple key
    · show lastKey ≠ sentinelColumnId
      have := hf.lt_length lastKey rfl
      have := hwf.columnCount
      omega

end Ytsaurus.Query.ConstraintsHolder
