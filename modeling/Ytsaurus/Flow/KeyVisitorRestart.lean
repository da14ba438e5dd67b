/-
# Restarts of the key visitor store

A fresh store is seeded from the rows that a `Sync` left. Every row lies in a committed interval of
the old store and was not stamped earlier, so the seeded intervals never reach beyond the old ones
(`Seeded.within`); an interval that has an exact row is seeded as a whole and with its stamp
(`Seeded.ends`). The row under the upper bound is exact. An interval up to the greatest key has only
the row under its lower bound, which `Sync` does not rewrite when the interval grows: the snapshot
refers to the interval itself. Progress survives exactly if no such interval grew up to the greatest
key.
-/
import Ytsaurus.Flow.KeyVisitorRun

namespace Ytsaurus.Flow

open List Lib Store

variable {κ : Type} [LinearOrder κ]

/-! ### The seeding loop -/

variable {finalPass : Bool}

theorem seedCommitted_ok {range : κ × κ} {stampedAt : ℕ} {heap : Heap κ} {slots : List IntervalSlot}
    (h : ∀ s ∈ slots.map (view heap), s.label.finalPass = finalPass) :
    seedCommitted range stampedAt finalPass heap slots =
      .ok (markRange range .committed (some stampedAt) heap slots) := by
  unfold seedCommitted
  rw [ytVerify_true]
  · rfl
  · exact fun slot hs => h _ (mem_map_of_mem (mem_of_mem_head? hs))

theorem seedFrom_ok (interval : Interval κ) : ∀ (buckets : List (Bucket κ)) (heap : Heap κ),
    Owned heap (slotsOf buckets) →
    (∀ t ∈ tilingsOf heap buckets, ∀ s ∈ t.2, s.label.finalPass = interval.finalPass) →
      seedFrom interval heap buckets = .ok (stampFrom (interval.lower, interval.upper) .committed
          (some interval.passStartedAt) heap buckets)
  | [], _, _, _ => rfl
  | bucket :: buckets, heap, h, hf => by
    obtain ⟨hbucket, hbuckets⟩ := forall_mem_cons.mp hf
    have hm := (markRange_spec (bucket.slice (interval.lower, interval.upper)) .committed
      (some interval.passStartedAt) (owned_append.mp h).1).step
    have hr := seedFrom_ok interval buckets _ (owned_append.mp (hm.append_right h).owned).2.1
      (by rw [hm.tilings_eq h]; exact hbuckets)
    rw [seedFrom, stampFrom]
    split_ifs
    · rw [seedCommitted_ok hbucket, ok_bind, hr]
      rfl
    · rfl

theorem seedAcrossBuckets_ok (interval : Interval κ) :
    ∀ (buckets : List (Bucket κ)) (heap : Heap κ), Owned heap (slotsOf buckets) →
    (∀ t ∈ tilingsOf heap buckets, ∀ s ∈ t.2, s.label.finalPass = interval.finalPass) →
      seedAcrossBuckets interval heap buckets = .ok (stampAcrossBuckets
          (interval.lower, interval.upper) .committed (some interval.passStartedAt) heap buckets)
  | [], _, _, _ => rfl
  | bucket :: buckets, heap, h, hf => by
    rw [seedAcrossBuckets, stampAcrossBuckets]
    split_ifs
    · exact seedFrom_ok interval (bucket :: buckets) heap h hf
    · change Owned heap (bucket.intervals ++ slotsOf buckets) at h
      rw [seedAcrossBuckets_ok interval buckets heap (owned_append.mp h).2.1 (forall_mem_cons.mp hf).2]
      rfl

def seedTiling (range : κ × κ) (l : List (Segment κ SlotLabel)) (row : Interval κ) :
    List (Segment κ SlotLabel) :=
  repaint slotOps (clip range (row.lower, row.upper))
    (markLabel .committed (some row.passStartedAt)) l

variable {lo hi : κ}

theorem seedRows_spec : ∀ (rows : List (Interval κ)) (heap : Heap κ)
    (buckets : List (Bucket κ)), Divides lo hi (buckets.map Bucket.range) →
    Owned heap (slotsOf buckets) → (∀ t ∈ tilingsOf heap buckets, TilingOk finalPass t.1 t.2) →
    (∀ row ∈ rows, row.finalPass = finalPass) →
    ∃ heap' buckets', seedRows heap buckets rows = .ok (heap', buckets') ∧ Owned heap'
      (slotsOf buckets') ∧ tilingsOf heap' buckets' = (tilingsOf heap buckets).map fun t =>
        (t.1, rows.foldl (seedTiling t.1) t.2)
  | [], heap, buckets, _, hown, _, _ => ⟨heap, buckets, rfl, hown, by simp⟩
  | row :: rows, heap, buckets, hdiv, hown, hok, hf => by
    obtain ⟨hrow, hrows⟩ := forall_mem_cons.mp hf
    have hseed := seedAcrossBuckets_ok row buckets heap hown fun t ht s hs =>
      ((hok t ht).final s hs).trans hrow.symm
    rw [stampAcrossBuckets_eq _ _ _ heap buckets hdiv] at hseed
    obtain ⟨hstep, htiling, -⟩ :=
      stampAll_spec (row.lower, row.upper) .committed (some row.passStartedAt) buckets heap hown
    obtain ⟨heap', buckets', hseeds, hown', htiling'⟩ := seedRows_spec rows _ _
      (by rw [ranges_eq_of_tilings htiling]; exact hdiv) hstep.owned
      (by
        rw [htiling]
        exact forall_mem_map.mpr fun t ht => (hok t ht).repaint _ _ _) hrows
    refine ⟨heap', buckets', ?_, hown', ?_⟩
    · rw [seedRows, hseed, ok_bind, hseeds]
    · rw [htiling', htiling, map_map]
      rfl

/-! ### What the rows seed -/

def IsCommitted (label : SlotLabel) : Prop := label.state = .committed

theorem isCommitted_iff (label : SlotLabel) : IsCommitted label ↔
    (slotOps.kind label).1 = .committed := Iff.rfl

theorem isCommitted_mark (stamp : Option ℕ) (label : SlotLabel) :
    IsCommitted (markLabel .committed stamp label) := rfl

def toInterval (s : Segment κ SlotLabel) : Interval κ :=
  ⟨s.lower, s.upper, s.label.passStartedAt, s.label.finalPass⟩

/-- The segment lies in a committed segment of `old` and was not stamped earlier. -/
def Within (old : List (Segment κ SlotLabel)) (s : Segment κ SlotLabel) : Prop :=
  ∃ t ∈ old, IsCommitted t.label ∧ t.lower ≤ s.lower ∧ s.upper ≤ t.upper ∧
    t.label.passStartedAt ≤ s.label.passStartedAt

/-- A row is outside of the bucket or lies in a committed segment of its tiling `old`. -/
def RowFor (range : κ × κ) (old : List (Segment κ SlotLabel)) (row : Interval κ) : Prop :=
  (clip range (row.lower, row.upper)).2 ≤ (clip range (row.lower, row.upper)).1 ∨
    row.lower < row.upper ∧ ∃ t ∈ old, IsCommitted t.label ∧ Grows row (toInterval t)

/-- The labels of a segment that stands for the end of `t`. -/
def StampedBy (t : Segment κ SlotLabel) (label : SlotLabel) : Prop :=
  IsCommitted label ∧ label.passStartedAt ≤ t.label.passStartedAt

/-- A bucket that is seeded with `rows`, where the old bucket had the tiling `old`. -/
structure Seeded (finalPass : Bool) (range : κ × κ) (old : List (Segment κ SlotLabel))
    (rows : List (Interval κ)) (l : List (Segment κ SlotLabel)) : Prop where
  tiling : TilingOk finalPass range l
  within : ∀ s ∈ l, IsCommitted s.label → Within old s
  holds : ∀ x, range.1 ≤ x → x < range.2 →
    (Holds IsCommitted l x ↔ ∃ row ∈ rows, row.lower ≤ x ∧ x < row.upper)
  ends : ∀ row ∈ rows, ∀ t ∈ old, IsCommitted t.label → row = toInterval t →
    Ends (StampedBy t) l t.upper

variable {final' : Bool} {rows : List (Interval κ)}

section Seeding

variable {finalPass : Bool} {range : κ × κ} {old : List (Segment κ SlotLabel)}

variable {t : Segment κ SlotLabel}

theorem committed_gap (ho : TilingOk finalPass range old) {t' : Segment κ SlotLabel} (ht : t ∈ old)
    (ht' : t' ∈ old)
    (hc : IsCommitted t.label) (hc' : IsCommitted t'.label) : t.upper ≠ t'.lower := fun heq =>
  ho.fused.kind_ne ho.tiles t ht t' ht' heq
    (Prod.ext (hc.trans hc'.symm) ((ho.final t ht).trans (ho.final t' ht').symm))

variable {s : Segment κ SlotLabel}

theorem not_committed_after (ho : TilingOk finalPass range old) (ht : t ∈ old)
    (hc : IsCommitted t.label) (hs : s.lower < s.upper) (hw : IsCommitted s.label → Within old s)
    (hstart : s.lower = t.upper) : ¬IsCommitted s.label := by
  intro hcs
  obtain ⟨t', ht', hc', hlower, hu, -⟩ := hw hcs
  rcases lt_or_ge t'.lower t.upper with hlt | hge
  · -- then both contain the end of t
    have heq := ho.tiles.unique t ht t' ht' ?_ hlt
    · subst heq
      exact absurd (hstart ▸ hs) (not_lt.mpr hu)
    · exact ((ho.tiles.mem t ht).2.1.trans_eq hstart.symm).trans (hs.trans_le hu)
  · exact committed_gap ho ht ht' hc hc' (le_antisymm hge (hlower.trans hstart.le))

theorem within_cut {key : κ} (h1 : s.lower < key) (h2 : key < s.upper)
    (h : s.lower < s.upper ∧ (IsCommitted s.label → Within old s)) :
    (s.lower < key ∧ (IsCommitted s.label → Within old { s with upper := key })) ∧
      (key < s.upper ∧ (IsCommitted s.label → Within old { s with lower := key })) := by
  refine ⟨⟨h1, fun hc => ?_⟩, ⟨h2, fun hc => ?_⟩⟩ <;>
    obtain ⟨t, ht, hct, hl, hu, hs⟩ := h.2 hc
  · exact ⟨t, ht, hct, hl, h2.le.trans hu, hs⟩
  · exact ⟨t, ht, hct, hl.trans h1.le, hu, hs⟩

variable {row : Interval κ}

theorem within_paint (ht : t ∈ old) (hc : IsCommitted t.label)
    (hg : Grows row (toInterval t)) (hl : row.lower ≤ s.lower) (hu : s.upper ≤ row.upper) :
    Within old { s with label := markLabel .committed (some row.passStartedAt) s.label } :=
  ⟨t, ht, hc, hg.lower_eq.le.trans hl, hu.trans hg.upper_le, hg.passStartedAt_le⟩

theorem within_fuse (ho : TilingOk finalPass range old) {s' : Segment κ SlotLabel}
    (hm : s.upper = s'.lower) (hk : slotOps.kind s.label = slotOps.kind s'.label)
    (h : s.lower < s.upper ∧ (IsCommitted s.label → Within old s))
    (h' : s'.lower < s'.upper ∧ (IsCommitted s'.label → Within old s')) : s.lower < s'.upper ∧
      (IsCommitted s.label → Within old ⟨s.lower, s'.upper, slotOps.merge s.label s'.label⟩) := by
  refine ⟨h.1.trans (hm ▸ h'.1), fun hc => ?_⟩
  have hc' : IsCommitted s'.label := (congrArg Prod.fst hk).symm.trans hc
  obtain ⟨t, ht, hct, hlower, hu, hs⟩ := h.2 hc
  obtain ⟨t', ht', hct', hlower', hu', hs'⟩ := h'.2 hc'
  -- both lie in the same old segment, as committed old segments are not neighbours
  have heq : t = t' := by
    rcases lt_or_ge t'.lower t.upper with hlt | hge
    · refine ho.tiles.unique t ht t' ht' ?_ hlt
      exact (hlower.trans_lt h.1).trans (hm ▸ h'.1.trans_le hu')
    · exact absurd (le_antisymm hge ((hlower'.trans hm.ge).trans hu)) (committed_gap ho ht ht' hct hct')
  subst heq
  exact ⟨t, ht, hct, hlower, hu', le_min hs hs'⟩

theorem clip_of_mem (h1 : range.1 ≤ lo) (h2 : hi ≤ range.2) : clip range (lo, hi) = (lo, hi) := by
  unfold clip
  rw [max_eq_right h1, min_eq_right h2]

variable {l : List (Segment κ SlotLabel)}

theorem Seeded.skip (ho : TilingOk finalPass range old) (h : Seeded final' range old rows l)
    (hempty : (clip range (row.lower, row.upper)).2 ≤ (clip range (row.lower, row.upper)).1) :
    Seeded final' range old (rows ++ [row]) (seedTiling range l row) := by
  have hs : seedTiling range l row = l := if_neg (not_lt.mpr hempty)
  rw [hs]
  refine ⟨h.tiling, h.within, fun x hx1 hx2 => ?_, fun row' hr' t ht hc heq => ?_⟩
  · rw [h.holds x hx1 hx2]
    have : ¬(row.lower ≤ x ∧ x < row.upper) := fun hx =>
      absurd ((max_le hx1 hx.1).trans_lt (lt_min hx2 hx.2)) (not_lt.mpr hempty)
    simp only [mem_append, mem_singleton, or_and_right, exists_or, exists_eq_left, this, or_false]
  · rcases mem_append.mp hr' with hr' | hr'
    · exact h.ends row' hr' t ht hc heq
    · obtain rfl := mem_singleton.mp hr'
      obtain ⟨h1, h2, h3⟩ := ho.tiles.mem t ht
      rw [heq, show clip range ((toInterval t).lower, (toInterval t).upper) = (t.lower, t.upper)
        from clip_of_mem h1 h3] at hempty
      exact absurd h2 (not_lt.mpr hempty)

theorem Seeded.seed (ho : TilingOk finalPass range old) (h : Seeded final' range old rows l)
    (hr : row.lower < row.upper) (ht : t ∈ old) (hc : IsCommitted t.label)
    (hg : Grows row (toInterval t)) :
      Seeded final' range old (rows ++ [row]) (seedTiling range l row) := by
  obtain ⟨h1, h2, h3⟩ := ho.tiles.mem t ht
  have hl : range.1 ≤ row.lower := h1.trans hg.lower_eq.le
  have hupper : row.upper ≤ range.2 := hg.upper_le.trans h3
  have hclip : clip range (row.lower, row.upper) = (row.lower, row.upper) := clip_of_mem hl hupper
  have hP : ∀ s ∈ l, s.lower < s.upper ∧ (IsCommitted s.label → Within old s) := fun s hs =>
    ⟨(h.tiling.tiles.mem s hs).2.1, h.within s hs⟩
  have hp : ∀ s ∈ paintRange (row.lower, row.upper) (markLabel .committed (some row.passStartedAt))
      l, s.lower < s.upper ∧ (IsCommitted s.label → Within old s) :=
    forall_paintRange h.tiling.tiles hl hr (fun _ _ h1 h2 hs => within_cut h1 h2 hs)
      (fun s hs1 hs2 hs => ⟨hs.1, fun _ => within_paint ht hc hg hs1 hs2⟩) hP
  have hmerge : ∀ (t : Segment κ SlotLabel) (a b : SlotLabel), slotOps.kind a = slotOps.kind b →
      StampedBy t b → StampedBy t (slotOps.merge a b) := fun t a b hk hb =>
    ⟨(congrArg Prod.fst hk).trans hb.1, (min_le_right _ _).trans hb.2⟩
  have hstart : ∀ t' ∈ old, IsCommitted t'.label → ∀ s ∈ paintRange (row.lower, row.upper)
      (markLabel .committed (some row.passStartedAt)) l, s.lower = t'.upper → ∀ a, StampedBy t' a →
      slotOps.kind a ≠ slotOps.kind s.label := fun t' ht' hc' s hs hs' a ha hk =>
    not_committed_after ho ht' hc' (hp s hs).1 (hp s hs).2 hs' ((congrArg Prod.fst hk).symm.trans ha.1)
  unfold seedTiling
  refine ⟨h.tiling.repaint _ _ _, ?_, fun x hx1 hx2 => ?_, fun row' hr' t' ht' hc' heq => ?_⟩
  · rw [hclip]
    exact fun s hs =>
      (forall_repaint (P := fun s => s.lower < s.upper ∧ (IsCommitted s.label → Within old s))
      h.tiling.tiles hl (fun _ _ h1 h2 hs => within_cut h1 h2 hs)
      (fun s hs1 hs2 hs => ⟨hs.1, fun _ => within_paint ht hc hg hs1 hs2⟩)
      (fun s s' hmeet hk hs hs' => within_fuse ho hmeet hk hs hs') hP s hs).2
  · have hh : Holds IsCommitted (repaint slotOps (row.lower, row.upper)
        (markLabel .committed (some row.passStartedAt)) l) x ↔ (row.lower ≤ x ∧ x < row.upper) ∨
            Holds IsCommitted l x :=
      holds_repaint (D := fun kind => kind.1 = .committed) h.tiling.tiles hl isCommitted_iff
        (isCommitted_mark _) hx1 hx2
    rw [hclip, hh, h.holds x hx1 hx2, or_comm]
    simp only [mem_append, mem_singleton, or_and_right, exists_or, exists_eq_left]
  · rw [hclip]
    rcases mem_append.mp hr' with hr' | hr'
    · refine ends_repaint h.tiling.tiles hl (hmerge t') (hstart t' ht' hc')
        (fun hu1 hu2 a ha => ⟨rfl, ?_⟩) (h.ends row' hr' t' ht' hc' heq)
      -- a row that reaches the end of t' is the exact row of t'
      obtain ⟨-, hne', -⟩ := ho.tiles.mem t' ht'
      have hsame : t = t' := ho.tiles.unique t ht t' ht' (hg.lower_eq.trans_lt hu1)
        (hne'.trans_le (hu2.trans hg.upper_le))
      subst hsame
      have : toInterval t = row := hg.eq_of_upper_eq (le_antisymm hg.upper_le hu2)
      exact (congrArg Interval.passStartedAt this).ge
    · obtain rfl := mem_singleton.mp hr'
      have hupper' : row'.upper = t'.upper := congrArg Interval.upper heq
      rw [← hupper']
      refine ends_repaint_self h.tiling.tiles hl (hmerge t') hr hupper ?_
        (fun a => ⟨rfl, (congrArg Interval.passStartedAt heq).le⟩)
      exact fun s hs hs' => hstart t' ht' hc' s hs (hs'.trans hupper')

theorem seeded_rows (ho : TilingOk finalPass range old) : ∀ (rest rows : List (Interval κ))
    (l : List (Segment κ SlotLabel)), Seeded final' range old rows l →
    (∀ row ∈ rest, RowFor range old row) →
      Seeded final' range old (rows ++ rest) (rest.foldl (seedTiling range) l)
  | [], rows, l, h, _ => by simpa using h
  | row :: rest, rows, l, h, hrows => by
    obtain ⟨hrow, hrest⟩ := forall_mem_cons.mp hrows
    have hn : Seeded final' range old (rows ++ [row]) (seedTiling range l row) := by
      rcases hrow with he | ⟨hlt, t, ht, hc, hg⟩
      · exact h.skip ho he
      · exact h.seed ho hlt ht hc hg
    have := seeded_rows ho rest (rows ++ [row]) _ hn hrest
    rwa [append_assoc] at this

theorem seeded_nil (final' : Bool) (h : range.1 < range.2) :
    Seeded final' range old [] [⟨range.1, range.2, .pending, 0, final'⟩] := by
  refine ⟨TilingOk.seed final' h, ?_, fun x _ _ => ?_, ?_⟩
  · intro s hs hc
    rw [mem_singleton.mp hs] at hc
    cases hc
  · constructor
    · rintro ⟨s, hs, -, -, hc⟩
      rw [mem_singleton.mp hs] at hc
      cases hc
    · rintro ⟨row, hr, -⟩
      cases hr
  · intro row hr
    cases hr

end Seeding

def freshTiling (finalPass : Bool) (rows : List (Interval κ)) (range : κ × κ) :
    List (Segment κ SlotLabel) :=
  rows.foldl (seedTiling range) [⟨range.1, range.2, .pending, 0, finalPass⟩]

/-- The fresh store has the buckets of the old one, seeded with the rows. -/
structure SeedsFrom (store : Store κ) (finalPass : Bool) (rows : List (Interval κ))
    (fresh : Store κ) : Prop where
  tilings : tilingsOf fresh.heap fresh.buckets =
    (tilingsOf store.heap store.buckets).map fun t => (t.1, freshTiling finalPass rows t.1)
  seeded : ∀ t ∈ tilingsOf store.heap store.buckets,
    Seeded finalPass t.1 t.2 rows (freshTiling finalPass rows t.1)

theorem SeedsFrom.origin {store fresh : Store κ} (h : SeedsFrom store finalPass rows fresh) :
    ∀ u ∈ tilingsOf fresh.heap fresh.buckets,
      ∃ t ∈ tilingsOf store.heap store.buckets, t.1 = u.1 ∧ Seeded finalPass t.1 t.2 rows u.2 := by
  rw [h.tilings]
  exact forall_mem_map.mpr fun t ht => ⟨t, ht, rfl, h.seeded t ht⟩

theorem SeedsFrom.target {store fresh : Store κ} (h : SeedsFrom store finalPass rows fresh) :
    ∀ t ∈ tilingsOf store.heap store.buckets,
      ∃ l, (t.1, l) ∈ tilingsOf fresh.heap fresh.buckets ∧ Seeded finalPass t.1 t.2 rows l :=
  fun t ht => ⟨_, h.tilings ▸ mem_map_of_mem ht, h.seeded t ht⟩

/-! ### Progress -/

def Committed (store : Store κ) (x : κ) : Prop :=
  ∃ slot ∈ store.slots, slot.state = .committed ∧ (store.interval slot).lower ≤ x ∧
    x < (store.interval slot).upper

/-- The minimum `PassStartedAt` of the committed intervals. -/
def minPassStartedAt (store : Store κ) : Option ℕ :=
  ((store.slots.filter fun slot => decide (slot.state = .committed)).map
    fun slot => (store.interval slot).passStartedAt).min?

/-- The stores have the same committed keys and, if there are any, agree on the finality of the pass
and on the minimum `PassStartedAt`. -/
def SameProgress (old fresh : Store κ) : Prop :=
  (∀ x, Committed fresh x ↔ Committed old x) ∧ ((∃ x, Committed old x) →
    fresh.isCurrentPassFinal = old.isCurrentPassFinal ∧ minPassStartedAt fresh = minPassStartedAt old)

/-- A row that `Sync` keeps for a committed interval up to the greatest key ends there as well. -/
def TailStored [BoundedOrder κ] (store : Store κ) (table : Table κ) : Prop :=
  ∀ slot ∈ store.slots, slot.state = .committed → (store.interval slot).upper = ⊤ →
    ∀ row, table ((store.interval slot).lower, true) = some row →
      store.sameRow ((store.interval slot).lower, true) = true → row.upper = ⊤

variable {store : Store κ}

omit [LinearOrder κ] in
theorem mem_slots_iff {P : Segment κ SlotLabel → Prop} :
    (∃ slot ∈ store.slots, P (view store.heap slot)) ↔ ∃ t ∈ tilingsOf store.heap store.buckets,
      ∃ s ∈ t.2, P s := by
  constructor
  · rintro ⟨slot, hslot, h⟩
    obtain ⟨b, hb, hslot⟩ := mem_flatMap.mp hslot
    exact ⟨_, mem_map_of_mem hb, _, mem_map_of_mem hslot, h⟩
  · rintro ⟨t, ht, s, hs, h⟩
    obtain ⟨slot, hslot, rfl⟩ := mem_tilingsOf ht hs
    exact ⟨slot, hslot, h⟩

theorem committed_iff {x : κ} :
    Committed store x ↔ ∃ t ∈ tilingsOf store.heap store.buckets, Holds IsCommitted t.2 x := by
  refine Iff.trans ?_ (mem_slots_iff
    (P := fun s => s.lower ≤ x ∧ x < s.upper ∧ IsCommitted s.label))
  refine exists_congr fun slot => and_congr_right fun _ => ?_
  tauto

theorem min?_eq_of_le {l l' : List ℕ} (h : ∀ a ∈ l, ∃ b ∈ l', b ≤ a)
    (h' : ∀ b ∈ l', ∃ a ∈ l, a ≤ b) : l.min? = l'.min? := by
  have hm : ∀ {l l' : List ℕ} {m : ℕ}, (∀ a ∈ l, ∃ b ∈ l', b ≤ a) → (∀ b ∈ l', ∃ a ∈ l, a ≤ b) →
      l.min? = some m → l'.min? = some m := by
    intro l l' m h h' hm
    rw [min?_eq_some_iff] at hm ⊢
    have hall : ∀ b ∈ l', m ≤ b := fun b hb => by
      obtain ⟨a, ha, hab⟩ := h' b hb
      exact (hm.2 a ha).trans hab
    obtain ⟨b, hb, hbm⟩ := h m hm.1
    exact ⟨le_antisymm hbm (hall b hb) ▸ hb, hall⟩
  exact Option.ext fun m => ⟨hm h h', hm h' h⟩

/-- Every committed interval of the first store is stamped no earlier than one of the second. -/
def StampedAfter (store store' : Store κ) : Prop :=
  ∀ slot ∈ store.slots, slot.state = .committed → ∃ slot' ∈ store'.slots, slot'.state = .committed ∧
    (store'.interval slot').passStartedAt ≤ (store.interval slot).passStartedAt

omit [LinearOrder κ] in
theorem minPassStartedAt_eq {store' : Store κ} (h : StampedAfter store store')
    (h' : StampedAfter store' store) : minPassStartedAt store = minPassStartedAt store' := by
  have hle : ∀ {store store' : Store κ}, StampedAfter store store' →
      ∀ a ∈ (store.slots.filter fun slot => decide (slot.state = .committed)).map
        fun slot => (store.interval slot).passStartedAt,
      ∃ b ∈ (store'.slots.filter fun slot => decide (slot.state = .committed)).map
        fun slot => (store'.interval slot).passStartedAt, b ≤ a := by
    intro store store' h a ha
    obtain ⟨slot, hs, rfl⟩ := mem_map.mp ha
    obtain ⟨hm, hc⟩ := mem_filter.mp hs
    obtain ⟨slot', hm', hc', hle⟩ := h slot hm (of_decide_eq_true hc)
    exact ⟨_, mem_map_of_mem (mem_filter.mpr ⟨hm', decide_eq_true hc'⟩), hle⟩
  exact min?_eq_of_le (hle h) (hle h')

theorem isCurrentPassFinal_eq (hdiv : Divides lo hi (store.buckets.map Bucket.range))
    (h : ∀ t ∈ tilingsOf store.heap store.buckets, TilingOk finalPass t.1 t.2)
    (hne : store.buckets ≠ []) : store.isCurrentPassFinal = finalPass := by
  obtain ⟨b, buckets, hb⟩ := exists_cons_of_ne_nil hne
  have hm : b ∈ store.buckets := hb ▸ mem_cons_self
  have hok := h _ (mem_map_of_mem hm)
  have hlt := (hdiv.mem b.range (mem_map_of_mem hm)).2.1
  unfold isCurrentPassFinal
  rw [hb]
  cases hs : b.intervals with
  | nil =>
    have := hok.tiles
    rw [hs] at this
    exact absurd this hlt.ne
  | cons slot slots =>
    have := hok.final (view store.heap slot) (mem_map_of_mem (hs ▸ mem_cons_self))
    simp only [head?_cons, Option.bind_some, hs, Option.map_some, Option.getD_some]
    exact this

/-! ### Restarts -/

theorem reset_ok {bucketRanges : List (κ × κ)} (hdiv : Divides lo hi bucketRanges)
    (finalPass : Bool) (heap : Heap κ) {reset : Heap κ × List (Bucket κ)}
    (h : resetBuckets finalPass heap (bucketRanges.map fun range => ⟨range, []⟩) = reset) :
    StoreOk bucketRanges finalPass ⟨reset.1, reset.2, fun _ => none⟩ fun _ => none := by
  subst h
  exact storeOk_reset finalPass (by simp [Function.comp_def]) hdiv fun _ => .inl ⟨rfl, rfl⟩

section Restart

variable [BoundedOrder κ] {partitionRange : κ × κ} {bucketRanges : List (κ × κ)} {store : Store κ}
  {table : Table κ}
  {finalPass : Bool} {rows : List (RowKey κ × Interval κ)}

variable {key : RowKey κ}

theorem init_fresh (hdiv : Divides partitionRange.1 partitionRange.2 bucketRanges)
    {loaded : List (RowKey κ × Interval κ)}
    (hload : (rows.filter fun row => decide (inPartition partitionRange row.1)) = loaded)
    (hfinal : ∀ row ∈ loaded, row.2.finalPass = loaded.any fun row => row.2.finalPass) :
    ∃ fresh, init partitionRange bucketRanges rows = .ok fresh ∧ Owned fresh.heap fresh.slots ∧
      tilingsOf fresh.heap fresh.buckets = bucketRanges.map fun range =>
        (range, freshTiling (loaded.any fun row => row.2.finalPass)
          (loaded.map Prod.snd) range) := by
  have htiling := (resetBuckets_spec (loaded.any fun row => row.2.finalPass)
    (bucketRanges.map fun range => (⟨range, []⟩ : Bucket κ)) (parsedHeap loaded)).2
  have hok := reset_ok hdiv (loaded.any fun row => row.2.finalPass) (parsedHeap loaded) rfl
  obtain ⟨heap', buckets', hseed, hown, htiling'⟩ :=
    seedRows_spec (loaded.map Prod.snd) _ _ (hok.ranges.symm ▸ hdiv)
    hok.owned hok.tilings (forall_mem_map.mpr hfinal)
  rw [htiling, map_map, map_map] at htiling'
  refine ⟨⟨heap', buckets', fun key => loaded.findIdx? fun row => decide (row.1 = key)⟩, ?_,
    hown, htiling'⟩
  unfold init
  dsimp only
  rw [hload, hseed]
  rfl

section

variable (hdiv : Divides partitionRange.1 partitionRange.2 bucketRanges)
  (h : StoreOk bucketRanges finalPass store table)

include hdiv h

theorem sync_inPartition {row : Interval κ}
    (hrow : (store.sync table).2 key = some row) : inPartition partitionRange key := by
  obtain ⟨slot, hs, ⟨-, hbound, -⟩, -⟩ := sync_row h hrow
  obtain ⟨b, hb, -, h1, h2, h3⟩ := h.bucket_of_mem hs
  have hrange := hdiv.mem b.range (h.ranges ▸ mem_map_of_mem hb)
  have hl : partitionRange.1 ≤ (store.interval slot).lower := hrange.1.trans h1
  have hu : (store.interval slot).upper ≤ partitionRange.2 := h3.trans hrange.2.2
  obtain ⟨key, isLower⟩ := key
  cases isLower
  · obtain rfl : key = (store.interval slot).upper := hbound
    exact ⟨fun _ => .inl (hl.trans_lt h2), fun _ => hu.lt_or_eq.imp_right fun h => ⟨h, rfl⟩⟩
  · obtain rfl : key = (store.interval slot).lower := hbound
    exact ⟨fun _ => hl.lt_or_eq.imp_right fun h => ⟨h, rfl⟩, fun _ => .inl (h2.trans_le hu)⟩

theorem sync_rowFor {row : Interval κ} (hr : (store.sync table).2 key = some row) :
    ∀ t ∈ tilingsOf store.heap store.buckets, RowFor t.1 t.2 row := by
  obtain ⟨slot, hslot, ⟨hc, -⟩, -, hg, hlt, -⟩ := sync_row h hr
  obtain ⟨b, hb, hslot, h1, -, h3⟩ := h.bucket_of_mem hslot
  refine forall_mem_map.mpr fun b' hb' => ?_
  rcases le_or_gt (clip b'.range (row.lower, row.upper)).2 (clip b'.range (row.lower, row.upper)).1
    with he | hmeet
  · exact .inl he
  · obtain ⟨hmeet1, hmeet2⟩ := max_lt_iff.mp hmeet
    have hsame : b' = b := by
      refine bucket_unique (h.ranges ▸ hdiv) b' hb' b hb ?_ ?_
      · exact (hmeet1.trans_le (min_le_right _ _)).trans_le (hg.upper_le.trans h3)
      · exact (h1.trans hg.lower_eq.le).trans_lt (hmeet2.trans_le (min_le_left _ _))
    subst hsame
    exact .inr ⟨hlt, view store.heap slot, mem_map_of_mem hslot, hc, hg⟩

/-- `Init` from the rows of a `Sync` succeeds, and every bucket is seeded from its rows. -/
theorem init_seeded (hrows : ∀ key row, (key, row) ∈ rows ↔ (store.sync table).2 key = some row) :
    ∃ fresh final', init partitionRange bucketRanges rows = .ok fresh ∧
      (rows ≠ [] → final' = finalPass) ∧ SeedsFrom store final' (rows.map Prod.snd) fresh := by
  have hfilter : (rows.filter fun row => decide (inPartition partitionRange row.1)) = rows :=
    filter_eq_self.mpr fun row hrow => decide_eq_true (sync_inPartition hdiv h ((hrows _ _).mp hrow))
  -- the rows agree with the intervals on the finality of the pass
  have hfinal : ∀ row ∈ rows, row.2.finalPass = finalPass := by
    intro row hrow
    obtain ⟨slot, hslot, -, -, hg, -⟩ := sync_row h ((hrows _ _).mp hrow)
    obtain ⟨b, hb, hslot⟩ := mem_flatMap.mp hslot
    exact hg.final_eq.symm.trans ((h.tilings _ (mem_map_of_mem hb)).final _ (mem_map_of_mem hslot))
  have hany : ∀ row ∈ rows, (rows.any fun row => row.2.finalPass) = finalPass := by
    intro row hrow
    rw [Bool.eq_iff_iff, any_eq_true]
    exact ⟨fun ⟨row', hrow', h⟩ => (hfinal row' hrow').symm.trans h, fun h =>
      ⟨row, hrow, (hfinal row hrow).trans h⟩⟩
  have hbuckets : bucketRanges = (tilingsOf store.heap store.buckets).map Prod.fst := by
    rw [← h.ranges, tilingsOf, map_map]
    rfl
  obtain ⟨fresh, hinit, -, htiling⟩ := init_fresh hdiv hfilter fun row hrow =>
    (hfinal row hrow).trans (hany row hrow).symm
  rw [hbuckets, map_map] at htiling
  refine ⟨fresh, rows.any fun row => row.2.finalPass, hinit, ?_, htiling, fun t ht => ?_⟩
  · intro hne
    obtain ⟨row, hrow⟩ := exists_mem_of_ne_nil rows hne
    exact hany row hrow
  · have hrange : t.1 ∈ bucketRanges := hbuckets ▸ mem_map_of_mem ht
    exact seeded_rows (h.tilings t ht) (rows.map Prod.snd) [] _ (seeded_nil _ (hdiv.mem _ hrange).2.1)
      (forall_mem_map.mpr fun row hrow => sync_rowFor hdiv h ((hrows _ _).mp hrow) t ht)

end

/-- A committed key of the fresh store lies in a row. -/
theorem committed_fresh_iff {fresh : Store κ} (h : StoreOk bucketRanges finalPass store table)
    (hrows : ∀ key row, (key, row) ∈ rows ↔ (store.sync table).2 key = some row)
    (hseeds : SeedsFrom store final' (rows.map Prod.snd) fresh)
    (x : κ) : Committed fresh x ↔ ∃ row ∈ rows, row.2.lower ≤ x ∧ x < row.2.upper := by
  rw [committed_iff]
  constructor
  · rintro ⟨u, hu, hh⟩
    obtain ⟨t, -, -, hseeded⟩ := hseeds.origin u hu
    have hx : t.1.1 ≤ x ∧ x < t.1.2 := by
      obtain ⟨s, hs, hx1, hx2, -⟩ := hh
      have hm := hseeded.tiling.tiles.mem s hs
      exact ⟨hm.1.trans hx1, hx2.trans_le hm.2.2⟩
    obtain ⟨row, hrow, hc⟩ := (hseeded.holds x hx.1 hx.2).mp hh
    obtain ⟨row, hm, rfl⟩ := mem_map.mp hrow
    exact ⟨row, hm, hc⟩
  · rintro ⟨row, hrow, hx1, hx2⟩
    obtain ⟨slot, hslot, -, -, hg, -⟩ := sync_row h ((hrows _ _).mp hrow)
    obtain ⟨b, hb, -, h1, -, h3⟩ := h.bucket_of_mem hslot
    obtain ⟨l, hl, hseeded⟩ := hseeds.target _ (mem_map_of_mem hb)
    refine ⟨_, hl, (hseeded.holds x ?_ ?_).mpr ⟨row.2, mem_map_of_mem hrow, hx1, hx2⟩⟩
    · exact (h1.trans hg.lower_eq.le).trans hx1
    · exact hx2.trans_le (hg.upper_le.trans h3)

section

variable (hdiv : Divides partitionRange.1 partitionRange.2 bucketRanges)
  (h : StoreOk bucketRanges finalPass store table)

include hdiv h

theorem interval_eq_of_hasKey {slot slot' : IntervalSlot}
    (hs : slot ∈ store.slots) (hs' : slot' ∈ store.slots) (hk : HasKey store slot key)
    (hk' : HasKey store slot' key) : store.interval slot = store.interval slot' := by
  have hne := h.interval_nonempty hs
  have hne' := h.interval_nonempty hs'
  have hb : boundOf (store.interval slot) key.2 = boundOf (store.interval slot') key.2 :=
    hk.2.1.symm.trans hk'.2.1
  have hv : view store.heap slot = view store.heap slot' := by
    unfold boundOf at hb
    split_ifs at hb
    · exact h.view_unique hs hdiv hs' (hb ▸ hne') (hb ▸ hne)
    · exact h.view_unique hs hdiv hs' (hb ▸ hne) (hb ▸ hne')
  exact congrArg toInterval hv

/-- Every committed interval has an exact row, unless its only row is kept and too short. -/
theorem exact_row (htail : TailStored store table) {slot : IntervalSlot}
    (hslot : slot ∈ store.slots) (hc : slot.state = .committed)
    (hspace : ¬((store.interval slot).lower = ⊥ ∧ (store.interval slot).upper = ⊤)) :
    ∃ key, (store.sync table).2 key = some (store.interval slot) := by
  by_cases hu : (store.interval slot).upper = ⊤
  · have hk : HasKey store slot ((store.interval slot).lower, true) := ⟨hc, rfl, fun h => hspace ⟨h, hu⟩⟩
    obtain ⟨row, hr⟩ := sync_rows_exist h hslot hk
    obtain ⟨slot', hslot', hk', -, hg, -, -, hstored⟩ := sync_row h hr
    have heq := interval_eq_of_hasKey hdiv h hslot hslot' hk hk'
    refine ⟨_, hr.trans (congrArg some ?_)⟩
    rcases hstored with hstored | ⟨hsame, htable⟩
    · exact hstored.trans heq.symm
    · rw [← heq] at hg
      exact (hg.eq_of_upper_eq ((htail slot hslot hc hu row htable hsame).trans hu.symm)).symm
  · have hk : HasKey store slot ((store.interval slot).upper, false) := ⟨hc, rfl, hu⟩
    obtain ⟨row, hr⟩ := sync_rows_exist h hslot hk
    obtain ⟨slot', hslot', hk', -, hg, -, hb, -⟩ := sync_row h hr
    rw [← interval_eq_of_hasKey hdiv h hslot hslot' hk hk'] at hg
    exact ⟨_, hr.trans (congrArg some (hg.eq_of_upper_eq hb.symm).symm)⟩

/-- A row that was kept and is too short loses the rest of its interval. -/
theorem tailStored_of_sameProgress {fresh : Store κ}
    (hrows : ∀ key row, (key, row) ∈ rows ↔ (store.sync table).2 key = some row)
    (hf : ∀ x, Committed fresh x ↔ ∃ row ∈ rows, row.2.lower ≤ x ∧ x < row.2.upper)
    (hsame : SameProgress store fresh) : TailStored store table := by
  intro slot hslot hc hu row ht hkept
  by_contra hshort
  have hrow : (store.sync table).2 ((store.interval slot).lower, true) = some row := by
    rw [sync_table h, if_pos hkept, ht]
  obtain ⟨-, -, -, -, -, hlt, hb, -⟩ := sync_row h hrow
  -- the end of the row is a key that the old store has committed
  have hcommitted : Committed store row.upper :=
    ⟨slot, hslot, hc, (hb.trans_lt hlt).le, hu ▸ lt_of_le_of_ne le_top hshort⟩
  obtain ⟨⟨key', row'⟩, hrow', hx1, hx2⟩ := (hf _).mp ((hsame.1 _).mpr hcommitted)
  have hrow' := (hrows _ _).mp hrow'
  obtain ⟨slot', hslot', hkey', -, hg', -⟩ := sync_row h hrow'
  -- the row that contains it belongs to the same interval
  have hv := h.view_unique hslot hdiv hslot' ((hb.trans_lt hlt).trans (hx2.trans_le hg'.upper_le))
    (((hg'.lower_eq.trans_le hx1).trans_lt (lt_of_le_of_ne le_top hshort)).trans_eq hu.symm)
  have hi : store.interval slot = store.interval slot' := congrArg toInterval hv
  obtain ⟨key, isLower⟩ := key'
  obtain ⟨-, hb', hsentinel⟩ := hkey'
  rw [← hi] at hb'
  cases isLower
  · exact hsentinel (hb'.trans hu)
  · obtain rfl : key = (store.interval slot).lower := hb'
    rw [hrow] at hrow'
    obtain rfl := Option.some.inj hrow'
    exact lt_irrefl _ hx2

end

/-- **Restart.** A fresh store that is initialized from the rows of a `Sync` has the progress of the
old store, if and only if every row that the `Sync` keeps for a committed interval up to the
greatest key ends there. -/
theorem restart_sameProgress_iff (hdiv : Divides partitionRange.1 partitionRange.2 bucketRanges)
    (hrun : Run partitionRange bucketRanges store table)
    (hspace : ∀ slot ∈ store.slots, slot.state = .committed →
      ¬((store.interval slot).lower = ⊥ ∧ (store.interval slot).upper = ⊤))
    (hrows : ∀ key row, (key, row) ∈ rows ↔ (store.sync table).2 key = some row) :
    ∃ fresh, Store.init partitionRange bucketRanges rows = .ok fresh ∧
      (SameProgress store fresh ↔ TailStored store table) := by
  obtain ⟨finalPass, h⟩ := hrun.ok hdiv
  obtain ⟨fresh, finalPass', hinit, hfinal, hseeds⟩ := init_seeded hdiv h hrows
  have hfresh := committed_fresh_iff h hrows hseeds
  refine ⟨fresh, hinit, tailStored_of_sameProgress hdiv h hrows hfresh, fun htail =>
    ⟨fun x => ?_, ?_⟩⟩
  · rw [hfresh]
    constructor
    · rintro ⟨row, hrow, hx1, hx2⟩
      obtain ⟨slot, hslot, hkey, -, hgrows, -⟩ := sync_row h ((hrows _ _).mp hrow)
      exact ⟨slot, hslot, hkey.1, hgrows.lower_eq.trans_le hx1, hx2.trans_le hgrows.upper_le⟩
    · rintro ⟨slot, hslot, hc, hx⟩
      obtain ⟨key, hkey⟩ := exact_row hdiv h htail hslot hc (hspace slot hslot hc)
      exact ⟨_, (hrows _ _).mpr hkey, hx⟩
  · rintro ⟨-, slot, hslot, hc, -⟩
    obtain ⟨key, hkey⟩ := exact_row hdiv h htail hslot hc (hspace slot hslot hc)
    have hfinal := hfinal (ne_nil_of_mem ((hrows _ _).mpr hkey))
    subst hfinal
    have hbuckets : store.buckets ≠ [] := by
      obtain ⟨b, hb, -⟩ := mem_flatMap.mp hslot
      exact ne_nil_of_mem hb
    constructor
    · rw [isCurrentPassFinal_eq (h.ranges ▸ hdiv) h.tilings hbuckets]
      have hranges := ranges_eq_of_tilings hseeds.tilings
      refine isCurrentPassFinal_eq (hranges ▸ h.ranges ▸ hdiv) (fun u hu => ?_) ?_
      · obtain ⟨t, -, heq, hok⟩ := hseeds.origin u hu
        exact heq ▸ hok.tiling
      · intro hnil
        rw [hnil] at hranges
        exact hbuckets (map_eq_nil_iff.mp hranges.symm)
    · refine minPassStartedAt_eq (fun slot hslot hc => ?_) fun slot hslot hc => ?_
      · -- a seeded interval lies in an old one with an earlier stamp
        obtain ⟨b, hb, hslot⟩ := mem_flatMap.mp hslot
        obtain ⟨t, ht, -, hok⟩ := hseeds.origin _ (mem_map_of_mem hb)
        obtain ⟨s, hs, hcs, -, -, hstamp⟩ := hok.within _ (mem_map_of_mem hslot) hc
        obtain ⟨slot', hslot', rfl⟩ := mem_tilingsOf ht hs
        exact ⟨slot', hslot', hcs, hstamp⟩
      · -- the exact row of an old interval is seeded with its stamp
        obtain ⟨key, hkey⟩ := exact_row hdiv h htail hslot hc (hspace slot hslot hc)
        obtain ⟨b, hb, hslot⟩ := mem_flatMap.mp hslot
        obtain ⟨l, hl, hok⟩ := hseeds.target _ (mem_map_of_mem hb)
        obtain ⟨s, hs, -, hstamped⟩ := hok.ends (store.interval slot)
          (mem_map_of_mem ((hrows _ _).mpr hkey)) _ (mem_map_of_mem hslot) hc rfl
        obtain ⟨slot', hslot', rfl⟩ := mem_tilingsOf hl hs
        exact ⟨slot', hslot', hstamped.1, hstamped.2⟩

end Restart

/-! ### An interval that grows up to the greatest key

Keys are `0, …, 9` with the sentinels `0` and `9`. The partition `[1, 9)` has one bucket. After `[1,
5)` is stored, `[5, 9)` is committed: the interval of the row under `1` becomes `[1, 9)`. -/

section GrowingTail

instance neZeroTen : NeZero 10 := ⟨by decide⟩

def storeStart : Store (Fin 10) :=
  let reset := resetBuckets false (parsedHeap []) [⟨(1, 9), []⟩]
  ⟨reset.1, reset.2, fun _ => none⟩

def storeHalf : Store (Fin 10) := (storeStart.markBuffered (1, 5) 7).markCommitted (1, 5)

def tableHalf : Table (Fin 10) := (storeHalf.sync fun _ => none).2

def storeFull : Store (Fin 10) :=
  ((storeHalf.sync fun _ => none).1.markBuffered (5, 9) 8).markCommitted (5, 9)

def rowsFull : List (RowKey (Fin 10) × Interval (Fin 10)) := [((1, true), ⟨1, 5, 7, false⟩)]

instance (store : Store (Fin 10)) (range : Fin 10 × Fin 10) (state : IntervalState) :
    Decidable (RangeIn store range state) := by
  unfold RangeIn
  infer_instance

instance (store : Store (Fin 10)) (x : Fin 10) : Decidable (Committed store x) := by
  unfold Committed
  infer_instance

theorem storeFull_run : Run (1, 9) [(1, 9)] storeFull tableHalf := by
  refine .markCommitted _ (.markBuffered
    _ _ (.sync (.markCommitted _ (.markBuffered _ _ (.start rfl) ?_) ?_)) ?_) ?_ <;> decide +kernel

theorem mem_singleRow_iff {table : Table (Fin 10)} {only key : RowKey (Fin 10)}
    {interval row : Interval (Fin 10)}
    (ht : ∀ key, table key = if key = only then some interval else none) :
    (key, row) ∈ [(only, interval)] ↔ table key = some row := by
  rw [ht]
  by_cases hk : key = only
  · subst hk
    simp [eq_comm]
  · simp [hk]

theorem storeFull_rows (key : RowKey (Fin 10)) (row : Interval (Fin 10)) :
    (key, row) ∈ rowsFull ↔ (storeFull.sync tableHalf).2 key = some row :=
  mem_singleRow_iff (by decide +kernel)

/-- All of `[1, 9)` is committed and stored at once. -/
def syncedWhole : Store (Fin 10) × Table (Fin 10) :=
  ((storeStart.markBuffered (1, 9) 7).markCommitted (1, 9)).sync fun _ => none

/-- The row of `[1, 9)` ends at the greatest key, so a restart from it keeps the progress. -/
theorem restart_sameProgress_iff_example :
    ∃ fresh, Store.init (1, 9) [(1, 9)] [(((1 : Fin 10), true), ⟨1, 9, 7, false⟩)] = .ok fresh ∧
      SameProgress syncedWhole.1 fresh := by
  have hrun : Run (1, 9) [(1, 9)] syncedWhole.1 syncedWhole.2 := by
    refine .sync (.markCommitted _ (.markBuffered _ _ (.start rfl) ?_) ?_) <;> decide +kernel
  have hdiv : Divides ((1, 9) : Fin 10 × Fin 10).1 ((1, 9) : Fin 10 × Fin 10).2 [(1, 9)] :=
    ⟨rfl, by decide, rfl⟩
  have hrows :
    ∀ key row, (key, row) ∈ [(((1 : Fin 10), true), (⟨1, 9, 7, false⟩ : Interval (Fin 10)))] ↔
      (syncedWhole.1.sync syncedWhole.2).2 key = some row :=
        fun _ _ => mem_singleRow_iff (by decide +kernel)
  obtain ⟨fresh, hinit, hiff⟩ := restart_sameProgress_iff hdiv hrun (by decide +kernel) hrows
  have hrow : ∀ slot ∈ syncedWhole.1.slots,
      syncedWhole.2 ((syncedWhole.1.interval slot).lower, true) = some ⟨1, 9, 7, false⟩ := by
        decide +kernel
  refine ⟨fresh, hinit, hiff.mpr fun slot hslot _ _ row hstored _ => ?_⟩
  rw [hrow slot hslot] at hstored
  obtain rfl := Option.some.inj hstored
  rfl

/-- The fresh store has lost `[5, 9)`. -/
theorem restart_loses_tail : ∃ store table rows fresh, Run ((1 : Fin 10), 9) [(1, 9)] store table ∧
    (∀ slot ∈ store.slots, slot.state = .committed →
      ¬((store.interval slot).lower = ⊥ ∧ (store.interval slot).upper = ⊤)) ∧
    (∀ key row, (key, row) ∈ rows ↔ (store.sync table).2 key = some row) ∧
    Store.init (1, 9) [(1, 9)] rows = .ok fresh ∧ Committed store 6 ∧ ¬Committed fresh 6 :=
  ⟨storeFull, tableHalf, rowsFull, _, storeFull_run, by decide +kernel, storeFull_rows, rfl,
    by decide +kernel, by decide +kernel⟩

end GrowingTail

end Ytsaurus.Flow
