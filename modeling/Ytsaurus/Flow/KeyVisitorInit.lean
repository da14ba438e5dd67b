/-
# Stores that are initialized from the rows of other partitions

The stores of a stream share a table. A partition may be split or merged, and the store of a new
partition is initialized from the rows that stores over other ranges have left. Every row that
`Init` loads meets the new range, so it is seeded in some bucket, and there `SeedCommitted` compares
its `FinalPass` with that of the whole store. So `Init` passes its checks exactly if the loaded rows
agree on the finality of the pass.
-/
import Ytsaurus.Flow.KeyVisitorRestart

namespace Ytsaurus.Flow

open List Lib Store

variable {κ : Type} [LinearOrder κ]

/-! ### Fresh buckets -/

variable {finalPass : Bool}

theorem seeded_foldl {range : κ × κ} :
    ∀ (rows : List (Interval κ)) (l : List (Segment κ SlotLabel)),
    TilingOk finalPass range l → TilingOk finalPass range (rows.foldl (seedTiling range) l) ∧
      ∀ x, range.1 ≤ x → x < range.2 → (Holds IsCommitted (rows.foldl (seedTiling range) l) x ↔
        Holds IsCommitted l x ∨ ∃ row ∈ rows, row.lower ≤ x ∧ x < row.upper)
  | [], _, h => ⟨h, by simp⟩
  | row :: rows, l, h => by
    obtain ⟨htiling, hholds⟩ := seeded_foldl rows (seedTiling range l row) (h.repaint _ _ _)
    refine ⟨htiling, fun x hx1 hx2 => ?_⟩
    have hrow : Holds IsCommitted (seedTiling range l row) x ↔ _ :=
      holds_repaint (D := fun kind => kind.1 = .committed) h.tiles (le_max_left _ _) isCommitted_iff
        (isCommitted_mark _) hx1 hx2
    rw [foldl_cons, hholds x hx1 hx2, hrow]
    simp only [clip, max_le_iff, lt_min_iff, hx1, hx2, true_and, mem_cons, or_and_right, exists_or,
      exists_eq_left, or_assoc, or_left_comm]

theorem freshTiling_spec (finalPass : Bool) (rows : List (Interval κ)) {range : κ × κ}
    (h : range.1 < range.2) : TilingOk finalPass range (freshTiling finalPass rows range) ∧
      ∀ x, range.1 ≤ x → x < range.2 → (Holds IsCommitted (freshTiling finalPass rows range) x ↔
        ∃ row ∈ rows, row.lower ≤ x ∧ x < row.upper) := by
  obtain ⟨htiling, hholds⟩ := seeded_foldl rows _ (TilingOk.seed finalPass h)
  refine ⟨htiling, fun x hx1 hx2 => (hholds x hx1 hx2).trans (or_iff_right ?_)⟩
  rintro ⟨s, hs, -, -, hc⟩
  rw [mem_singleton.mp hs] at hc
  cases hc

theorem Divides.exists_mem {x : κ} : ∀ {ranges : List (κ × κ)} {lo hi : κ}, Divides lo hi ranges →
    lo ≤ x → x < hi → ∃ r ∈ ranges, r.1 ≤ x ∧ x < r.2
  | [], _, _, h, h1, h2 => absurd (h1.trans_lt h2) h.not_lt
  | r :: _, _, _, h, h1, h2 => by
    obtain ⟨hlo, -, h⟩ := h
    rcases lt_or_ge x r.2 with hx | hx
    · exact ⟨r, mem_cons_self, hlo.le.trans h1, hx⟩
    · obtain ⟨r', hr', hx'⟩ := h.exists_mem hx h2
      exact ⟨r', mem_cons_of_mem _ hr', hx'⟩

/-! ### The check of `SeedCommitted` -/

variable {row : Interval κ}

/-- A row that meets the range of the buckets is compared with one of them. -/
theorem final_of_seedAcross (hne : row.lower < row.upper) {heap : Heap κ} :
    ∀ {buckets : List (Bucket κ)} {lo hi : κ} {out : Heap κ × List (Bucket κ)},
      Divides lo hi (buckets.map Bucket.range) →
      (∀ t ∈ tilingsOf heap buckets, TilingOk finalPass t.1 t.2) → lo < hi → row.lower < hi →
      lo < row.upper → seedAcrossBuckets row heap buckets = .ok out → row.finalPass = finalPass
  | [], lo, hi, _, hd, _, hlt, _, _, _ => absurd hd hlt.ne
  | bucket :: buckets, lo, hi, out, hd, hok, _, h1, h2, h => by
    obtain ⟨hb, hbs⟩ := forall_mem_cons.mp hok
    obtain ⟨hlo, hrange, hd⟩ := hd
    rw [seedAcrossBuckets] at h
    split_ifs at h with hin
    · rw [seedFrom, if_pos (hlo.trans_lt h2)] at h
      obtain ⟨seeded, hseed, -⟩ := bind_eq_ok.mp h
      obtain ⟨_, hverify, -⟩ := bind_eq_ok.mp hseed
      -- the tiling of a bucket is not empty
      cases hs : bucket.intervals with
      | nil =>
        have htiles : Tiles bucket.range.1 bucket.range.2 (bucket.intervals.map (view heap)) := hb.tiles
        rw [hs] at htiles
        exact absurd htiles hrange.ne
      | cons slot slots =>
        rw [← ytVerify_eq_ok.mp hverify slot (by rw [hs]; rfl)]
        exact hb.final (view heap slot) (mem_map_of_mem (hs ▸ mem_cons_self))
    · obtain ⟨rest, hrest, -⟩ := bind_eq_ok.mp h
      have hle := not_lt.mp hin
      exact final_of_seedAcross hne hd hbs (hle.trans_lt h1) h1 (hle.trans_lt hne) hrest

theorem final_of_seedRows {lo hi : κ} (hlt : lo < hi) : ∀ (rows : List (Interval κ)) (heap : Heap κ)
    (buckets : List (Bucket κ)) {out : Heap κ × List (Bucket κ)},
      Divides lo hi (buckets.map Bucket.range) →
    Owned heap (slotsOf buckets) → (∀ t ∈ tilingsOf heap buckets, TilingOk finalPass t.1 t.2) →
    (∀ row ∈ rows, row.lower < row.upper ∧ row.lower < hi ∧ lo < row.upper) →
    seedRows heap buckets rows = .ok out → ∀ row ∈ rows, row.finalPass = finalPass
  | [], _, _, _, _, _, _, _, _ => by simp
  | row :: rows, heap, buckets, out, hd, hown, hok, hrows, h => by
    obtain ⟨⟨hne, h1, h2⟩, hrest⟩ := forall_mem_cons.mp hrows
    obtain ⟨seeded, hseed, h⟩ := bind_eq_ok.mp h
    have hrow := final_of_seedAcross hne hd hok hlt h1 h2 hseed
    rw [seedAcrossBuckets_ok row buckets heap hown fun t ht s hs =>
      ((hok t ht).final s hs).trans hrow.symm, stampAcrossBuckets_eq _ _ _ heap buckets hd] at hseed
    obtain rfl := Except.ok.inj hseed
    obtain ⟨hstep, htiling, -⟩ :=
      stampAll_spec (row.lower, row.upper) .committed (some row.passStartedAt) buckets heap hown
    refine forall_mem_cons.mpr ⟨hrow, final_of_seedRows hlt rows _ _ ?_ hstep.owned ?_ hrest h⟩
    · rw [ranges_eq_of_tilings htiling]
      exact hd
    · rw [htiling]
      exact forall_mem_map.mpr fun t ht => (hok t ht).repaint _ _ _

/-! ### The stores of a stream -/

/-- What a key visitor does with its store between two `Sync`s. -/
inductive Advances : Store κ → Store κ → Prop
  | markBuffered (store : Store κ) (range : κ × κ) (timestamp : ℕ) : RangeIn store range .pending →
      Advances store (store.markBuffered range timestamp)
  | markCommitted (store : Store κ) (range : κ × κ) : RangeIn store range .buffered →
      Advances store (store.markCommitted range)
  | startNewPass (store : Store κ) (finalPass : Bool) :
    Advances store (store.startNewPass finalPass)
  | markCurrentPassFinal (store : Store κ) : Advances store store.markCurrentPassFinal

def ShapeOk (store : Store κ) : Prop := ∃ lo hi ranges finalPass, Divides lo hi ranges ∧
  StoreOk ranges finalPass { store with remoteIntervals := fun _ => none } fun _ => none

theorem Advances.shape {store store' : Store κ} (h : Advances store store') (hs : ShapeOk store) :
    ShapeOk store' := by
  obtain ⟨lo, hi, ranges, finalPass, hd, hok⟩ := hs
  cases h with
  | markBuffered range timestamp hr =>
    exact ⟨lo, hi, ranges, finalPass, hd, hok.stamp hd (hr.uncommitted (by decide)) .buffered
      (some timestamp)⟩
  | markCommitted range hr =>
    exact ⟨lo, hi, ranges, finalPass, hd, hok.stamp hd (hr.uncommitted (by decide)) .committed none⟩
  | startNewPass final' => exact ⟨lo, hi, ranges, final', hd, hok.startNewPass hd final'⟩
  | markCurrentPassFinal => exact ⟨lo, hi, ranges, true, hd, hok.markCurrentPassFinal⟩

section Stream

variable [BoundedOrder κ]

/-- The stores of a stream, over any ranges and initialized at any time, and their table. -/
inductive Stream : List (Store κ) → Table κ → Prop
  | start : Stream [] fun _ => none
  | init {stores : List (Store κ)} {table : Table κ} {rows : List (RowKey κ × Interval κ)}
    {store : Store κ} (part : κ × κ) (ranges : List (κ × κ)) : Stream stores table →
      Divides part.1 part.2 ranges → part.1 < part.2 →
      (∀ key row, (key, row) ∈ rows ↔ table key = some row) →
        Store.init part ranges rows = .ok store → Stream (store :: stores) table
  | advance {before after : List (Store κ)} {store store' : Store κ} {table : Table κ} :
      Stream (before ++ store :: after) table → Advances store store' →
        Stream (before ++ store' :: after) table
  | sync {before after : List (Store κ)} {store : Store κ} {table : Table κ} :
    Stream (before ++ store :: after) table →
      Stream (before ++ (store.sync table).1 :: after) (store.sync table).2

def RowOk (key : RowKey κ) (row : Interval κ) : Prop :=
  row.lower < row.upper ∧ key.1 = boundOf row key.2

theorem sync_rowOk {store : Store κ} {table : Table κ} (hs : ShapeOk store)
    (ht : ∀ key row, table key = some row → RowOk key row) {key : RowKey κ}
    (h : (store.sync table).2 key = some row) : RowOk key row := by
  obtain ⟨lo, hi, ranges, finalPass, hd, hok⟩ := hs
  unfold Store.sync at h
  dsimp only at h
  split_ifs at h
  · obtain ⟨id, hid, rfl⟩ := Option.map_eq_some_iff.mp h
    obtain ⟨slot, hslot, hk, rfl⟩ := newRemote_some hid
    exact ⟨hok.interval_nonempty hslot, hk.2.1⟩
  · exact ht key row h

def loadedRows (part : κ × κ) (rows : List (RowKey κ × Interval κ)) :
    List (RowKey κ × Interval κ) :=
  rows.filter fun row => decide (inPartition part row.1)

/-- The loaded rows agree on the finality of the pass. -/
def FinalAgrees (part : κ × κ) (rows : List (RowKey κ × Interval κ)) : Prop :=
  ∀ row ∈ loadedRows part rows, ∀ row' ∈ loadedRows part rows, row.2.finalPass = row'.2.finalPass

theorem RowOk.meets {part : κ × κ} {key : RowKey κ} (h : RowOk key row)
    (hin : inPartition part key) : row.lower < part.2 ∧ part.1 < row.upper := by
  obtain ⟨hne, hb⟩ := h
  obtain ⟨h1, h2⟩ := hin
  have hbot : part.1 = ⊥ → part.1 < row.upper := fun h => h ▸ bot_le.trans_lt hne
  have htop : part.2 = ⊤ → row.lower < part.2 := fun h => h ▸ hne.trans_le le_top
  obtain ⟨key, isLower⟩ := key
  cases isLower
  · obtain rfl : key = row.upper := hb
    refine ⟨by_contra fun hge => ?_, by_contra fun hge => ?_⟩
    · rcases h2 (fun h => hge (htop h)) with hlt | heq
      · exact hge (hne.trans hlt)
      · exact hge (hne.trans_eq heq.1)
    · rcases h1 (fun h => hge (hbot h)) with hlt | heq
      · exact hge hlt
      · cases heq.2
  · obtain rfl : key = row.lower := hb
    refine ⟨by_contra fun hge => ?_, by_contra fun hge => ?_⟩
    · rcases h2 (fun h => hge (htop h)) with hlt | heq
      · exact hge hlt
      · cases heq.2
    · rcases h1 (fun h => hge (hbot h)) with hlt | heq
      · exact hge (hlt.trans hne)
      · exact hge (heq.1.trans_lt hne)

/-- Afterwards the intervals tile the buckets, and the committed keys are the keys of the partition
that lie in a loaded row. -/
structure SeededFrom (part : κ × κ) (ranges : List (κ × κ)) (rows : List (RowKey κ × Interval κ))
    (fresh : Store κ) : Prop where
  ranges : fresh.buckets.map Bucket.range = ranges
  tiles : ∀ t ∈ tilingsOf fresh.heap fresh.buckets, Tiles t.1.1 t.1.2 t.2
  committed : ∀ x, Committed fresh x ↔ (part.1 ≤ x ∧ x < part.2) ∧
    ∃ row ∈ loadedRows part rows, row.2.lower ≤ x ∧ x < row.2.upper

section Init

variable {part : κ × κ} {ranges : List (κ × κ)} {rows : List (RowKey κ × Interval κ)}
  (hdiv : Divides part.1 part.2 ranges)

include hdiv

theorem init_seededFrom (hfinal : FinalAgrees part rows) :
    ∃ fresh, Store.init part ranges rows = .ok fresh ∧ SeededFrom part ranges rows fresh ∧
      ShapeOk fresh := by
  set loaded := loadedRows part rows with hload
  obtain ⟨fresh, hinit, hown, htiling⟩ := init_fresh hdiv hload.symm fun row hrow => by
    rw [Bool.eq_iff_iff, any_eq_true]
    exact ⟨fun h => ⟨row, hrow, h⟩, fun ⟨row', hrow', h⟩ => (hfinal row hrow row' hrow').trans h⟩
  have hspec := fun range (hr : range ∈ ranges) =>
    freshTiling_spec (loaded.any fun row => row.2.finalPass) (loaded.map Prod.snd)
      (hdiv.mem range hr).2.1
  have hranges : fresh.buckets.map Bucket.range = ranges := by
    have := congrArg (map Prod.fst) htiling
    simpa only [tilingsOf, map_map, Function.comp_def, map_id'] using this
  have hok : ∀ t ∈ tilingsOf fresh.heap fresh.buckets,
      TilingOk (loaded.any fun row => row.2.finalPass) t.1 t.2 := by
    rw [htiling]
    exact forall_mem_map.mpr fun range hr => (hspec range hr).1
  refine ⟨fresh, hinit, ⟨hranges, fun t ht => (hok t ht).tiles, fun x => ?_⟩,
    ⟨_, _, _, _, hdiv, hranges, hown, hok, fun _ => .inl ⟨rfl, rfl⟩⟩⟩
  rw [committed_iff, htiling]
  constructor
  · rintro ⟨_, ht, hx⟩
    obtain ⟨range, hr, rfl⟩ := mem_map.mp ht
    obtain ⟨s, hs, hs1, hs2, -⟩ := id hx
    obtain ⟨h1, -, h3⟩ := (hspec range hr).1.tiles.mem s hs
    obtain ⟨hlo, -, hhi⟩ := hdiv.mem range hr
    obtain ⟨_, hm, hin⟩ := ((hspec range hr).2 x (h1.trans hs1) (hs2.trans_le h3)).mp hx
    obtain ⟨row, hrow, rfl⟩ := mem_map.mp hm
    exact ⟨⟨hlo.trans (h1.trans hs1), (hs2.trans_le h3).trans_le hhi⟩, row, hrow, hin⟩
  · rintro ⟨⟨h1, h2⟩, row, hrow, hin⟩
    obtain ⟨range, hr, hx1, hx2⟩ := hdiv.exists_mem h1 h2
    exact ⟨_, mem_map_of_mem hr, ((hspec range hr).2 x hx1 hx2).mpr ⟨row.2, mem_map_of_mem hrow, hin⟩⟩

theorem final_of_init {fresh : Store κ} (hlt : part.1 < part.2)
    (hrows : ∀ row ∈ rows, RowOk row.1 row.2) (h : Store.init part ranges rows = .ok fresh) :
    FinalAgrees part rows := by
  obtain ⟨seeded, hseed, -⟩ := bind_eq_ok.mp h
  have hok := reset_ok hdiv ((loadedRows part rows).any fun row => row.2.finalPass)
    (parsedHeap (loadedRows part rows)) rfl
  have hall := final_of_seedRows hlt _ _ _ (hok.ranges.symm ▸ hdiv) hok.owned hok.tilings
    (forall_mem_map.mpr fun row hrow => by
      obtain ⟨hm, hin⟩ := mem_filter.mp hrow
      exact ⟨(hrows row hm).1, (hrows row hm).meets (of_decide_eq_true hin)⟩) hseed
  rw [forall_mem_map] at hall
  exact fun row hrow row' hrow' => (hall row hrow).trans (hall row' hrow').symm

end Init

theorem stream_ok {stores : List (Store κ)} {table : Table κ} (h : Stream stores table) :
    (∀ store ∈ stores, ShapeOk store) ∧ ∀ key row, table key = some row → RowOk key row := by
  induction h with
  | start => exact ⟨by simp, by simp⟩
  | init part ranges _ hdiv hlt hrows hinit ih =>
    have hfinal := final_of_init hdiv hlt (fun row hrow => ih.2 _ _ ((hrows _ _).mp hrow)) hinit
    obtain ⟨fresh, hfresh, -, hshape⟩ := init_seededFrom hdiv hfinal
    obtain rfl := Except.ok.inj (hfresh.symm.trans hinit)
    exact ⟨forall_mem_cons.mpr ⟨hshape, ih.1⟩, ih.2⟩
  | advance _ hadv ih =>
    obtain ⟨hbefore, hrest⟩ := forall_mem_append.mp ih.1
    obtain ⟨hstore, hafter⟩ := forall_mem_cons.mp hrest
    exact ⟨forall_mem_append.mpr ⟨hbefore, forall_mem_cons.mpr ⟨hadv.shape hstore, hafter⟩⟩, ih.2⟩
  | sync _ ih =>
    obtain ⟨hbefore, hrest⟩ := forall_mem_append.mp ih.1
    obtain ⟨hstore, hafter⟩ := forall_mem_cons.mp hrest
    exact ⟨forall_mem_append.mpr ⟨hbefore, forall_mem_cons.mpr ⟨hstore, hafter⟩⟩,
      fun key row hrow => sync_rowOk hstore ih.2 hrow⟩

/-- **Initialization.** A store over a new range can be initialized from the rows of the stream, and
then has exactly their keys as committed, if and only if the loaded rows agree on the finality of
the pass. -/
theorem init_from_stream_iff {stores : List (Store κ)} {table : Table κ}
    {rows : List (RowKey κ × Interval κ)}
    {part : κ × κ} {ranges : List (κ × κ)} (hstream : Stream stores table)
    (hrows : ∀ key row, (key, row) ∈ rows ↔ table key = some row)
    (hdiv : Divides part.1 part.2 ranges) (hlt : part.1 < part.2) :
    (∃ fresh, Store.init part ranges rows = .ok fresh ∧ SeededFrom part ranges rows fresh) ↔
      FinalAgrees part rows := by
  constructor
  · rintro ⟨fresh, hinit, -⟩
    exact final_of_init hdiv hlt (fun row hrow => (stream_ok hstream).2 _ _ ((hrows _ _).mp hrow)) hinit
  · intro hfinal
    obtain ⟨fresh, hinit, hseeded, -⟩ := init_seededFrom hdiv hfinal
    exact ⟨fresh, hinit, hseeded⟩

end Stream

/-! ### Neighbours in different passes

The partitions `[1, 5)` and `[5, 9)` of keys `0, …, 9`; the pass of the first is final. -/

section Neighbours

def storeOver (range : Fin 10 × Fin 10) : Store (Fin 10) :=
  let reset := resetBuckets false (parsedHeap []) [⟨range, []⟩]
  ⟨reset.1, reset.2, fun _ => none⟩

def finalNeighbour : Store (Fin 10) :=
  (((storeOver (1, 5)).markBuffered (1, 3) 7).markCommitted (1, 3)).markCurrentPassFinal

def otherNeighbour : Store (Fin 10) :=
  ((storeOver (5, 9)).markBuffered (5, 7) 8).markCommitted (5, 7)

def mixedTable : Table (Fin 10) := (otherNeighbour.sync (finalNeighbour.sync fun _ => none).2).2

def rowsOfTable (table : Table (Fin 10)) : List (RowKey (Fin 10) × Interval (Fin 10)) :=
  (finRange 10 ×ˢ [true, false]).filterMap fun key => (table key).map fun row => (key, row)

theorem mem_rowsOfTable (table : Table (Fin 10)) (key : RowKey (Fin 10)) (row : Interval (Fin 10)) :
    (key, row) ∈ rowsOfTable table ↔ table key = some row := by
  have hkey : ∀ key : Fin 10 × Bool, key ∈ finRange 10 ×ˢ [true, false] := by decide
  simp only [rowsOfTable, mem_filterMap, Option.map_eq_some_iff, Prod.mk.injEq]
  constructor
  · rintro ⟨_, -, _, h, rfl, rfl⟩
    exact h
  · exact fun h => ⟨key, hkey key, row, h, rfl, rfl⟩

theorem mixed_stream : Stream [(otherNeighbour.sync (finalNeighbour.sync fun _ => none).2).1,
    (finalNeighbour.sync fun _ => none).1] mixedTable := by
  have hempty : ∀ key row, (key, row) ∈ ([] : List (RowKey (Fin 10) × Interval (Fin 10))) ↔
      (none : Option (Interval (Fin 10))) = some row := by simp
  have hstart : Stream ([storeOver (5, 9)] ++ [storeOver (1, 5)]) fun _ => none :=
    .init (5, 9) [(5, 9)] (.init (1, 5) [(1, 5)] .start ⟨rfl, by decide, rfl⟩
      (by decide) hempty rfl) ⟨rfl, by decide, rfl⟩ (by decide) hempty rfl
  have hfinal : Stream ([storeOver (5, 9)] ++ [finalNeighbour]) fun _ => none := by
    refine .advance (.advance (.advance hstart (.markBuffered _ (1, 3) 7 ?_))
      (.markCommitted _ (1, 3) ?_)) (.markCurrentPassFinal _) <;> decide +kernel
  have hsync : Stream ([] ++ storeOver (5, 9) :: [(finalNeighbour.sync fun _ => none).1]) _ :=
    hfinal.sync
  have hother : Stream ([] ++ otherNeighbour :: [(finalNeighbour.sync fun _ => none).1])
      (finalNeighbour.sync fun _ => none).2 := by
    refine .advance (.advance hsync (.markBuffered _ (5, 7) 8 ?_)) (.markCommitted _ (5, 7) ?_) <;>
      decide +kernel
  exact hother.sync

theorem init_from_stream_iff_example :
    (∃ fresh, Store.init (1, 5) [(1, 5)] (rowsOfTable mixedTable) = .ok fresh ∧
      SeededFrom (1, 5) [(1, 5)] (rowsOfTable mixedTable) fresh) ↔
        FinalAgrees (1, 5) (rowsOfTable mixedTable) :=
  init_from_stream_iff mixed_stream (mem_rowsOfTable _) ⟨rfl, by decide, rfl⟩ (by decide)

/-- The store over both partitions cannot be initialized. -/
theorem init_of_neighbours_fails : ∃ (stores : List (Store (Fin 10))) (table : _) (rows : _),
    Stream stores table ∧ (∀ key row, (key, row) ∈ rows ↔ table key = some row) ∧
      Store.init (1, 9) [(1, 9)] rows = .error .verify :=
  ⟨_, mixedTable, rowsOfTable mixedTable, mixed_stream, mem_rowsOfTable _, rfl⟩

end Neighbours

end Ytsaurus.Flow
