/-
# Scattering and gathering replication progress

`ScatterReplicationProgress` cuts a progress at pivot keys into one progress for each pivot, and
`GatherReplicationProgress` puts such pieces together again. `ExtractReplicationProgress` is the
piece between two keys.

The loop of the scatter walks over pivots and segments together. Told from the front, the piece from
a pivot to the next one starts with the timestamp in force at the pivot, and then has the segments
strictly between the two (`progressPiece`, `scatterLoop_eq`). So does the extract, and pushing the
pieces one after another leaves out what the pivots added (`pushSteps_pieces`).
-/
import Ytsaurus.ChaosClient.ProgressMerge
import Ytsaurus.Lib.Result

namespace Ytsaurus.ChaosClient

open List Lib ReplicationProgress

variable {κ : Type} [LinearOrder κ]

/-! ### The operations -/

def extractReplicationProgress (progress : ReplicationProgress κ) (lower upper : κ) :
    Result (ReplicationProgress κ) :=
  match (upperBound progress.segments lower).1.getLast? with
  | none => .error .verify
  | some segment => .ok ⟨(lower, segment.2) ::
      (upperBound progress.segments lower).2.takeWhile fun segment => decide (segment.1 < upper), upper⟩

/-- `CanonizeReplicationProgress`: the first `current + 1` segments are those kept so far. The
`resize` gives a progress without segments a default one. -/
def canonizeReplicationProgress [Inhabited κ] (progress : ReplicationProgress κ) :
    ReplicationProgress κ :=
  match progress.segments with
  | [] => { progress with segments := [(default, nullTimestamp)] }
  | first :: rest => { progress with
      segments := rest.foldl (fun kept segment =>
        if kept.getLast?.map Prod.snd ≠ some segment.2 then kept ++ [segment] else kept) [first] }

/-- What `GatherReplicationProgress` takes from one progress. -/
def gatherSegments (progress : ReplicationProgress κ) (lowerKey : κ) :
    Result (List (κ × Timestamp)) :=
  match progress.segments with
  | [] => .ok [(lowerKey, minTimestamp)]
  | first :: rest => do
    ytVerify (lowerKey = first.1)
    return first :: rest

def gatherReplicationProgress [Inhabited κ] (progresses : List (ReplicationProgress κ))
    (pivotKeys : List κ) (upperKey : κ) : Result (ReplicationProgress κ) := do
  ytVerify (progresses.length = pivotKeys.length)
  ytVerify (∃ pivotKey ∈ pivotKeys.getLast?, pivotKey < upperKey)
  let segments ← (progresses.zip pivotKeys).mapM fun entry => gatherSegments entry.1 entry.2
  ytVerify (∃ segment ∈ segments.flatten.getLast?, segment.1 < upperKey)
  return canonizeReplicationProgress ⟨segments.flatten, upperKey⟩

/-- The pieces of `ScatterReplicationProgress`: those with their upper key, and the segments of the
last one, which has none yet. -/
structure Pieces (κ : Type) where
  closed : List (ReplicationProgress κ)
  last : Option (List (κ × Timestamp))

/-- The upper key of the last piece, if there is one. -/
def Pieces.close (pieces : Pieces κ) (upperKey : κ) : List (ReplicationProgress κ) :=
  match pieces.last with
  | none => pieces.closed
  | some segments => pieces.closed ++ [⟨segments, upperKey⟩]

def Pieces.start (pieces : Pieces κ) (pivotKey : κ) (timestamp : Timestamp) : Pieces κ :=
  ⟨pieces.close pivotKey, some [(pivotKey, timestamp)]⟩

def Pieces.push (pieces : Pieces κ) (segments : List (κ × Timestamp)) : Pieces κ :=
  ⟨pieces.closed, pieces.last.map (· ++ segments)⟩

/-- The loop of `ScatterReplicationProgress` over the pivots and segments that remain, with the
number of segments taken; gives the pieces and the segments left. -/
def scatterLoop : List κ → List (κ × Timestamp) → ℕ → Timestamp → Pieces κ →
    Result (Pieces κ × List (κ × Timestamp))
  | [], segments, _, _, pieces => .ok (pieces, segments)
  | pivotKey :: pivotKeys, [], segmentIndex, previousTimestamp, pieces => do
    ytVerify (0 < segmentIndex)
    scatterLoop pivotKeys [] segmentIndex previousTimestamp (pieces.start pivotKey previousTimestamp)
  | pivotKey :: pivotKeys, (key, timestamp) :: segments, segmentIndex, previousTimestamp, pieces =>
    if pivotKey < key then do
      ytVerify (0 < segmentIndex)
      scatterLoop pivotKeys ((key, timestamp) :: segments) segmentIndex previousTimestamp
        (pieces.start pivotKey previousTimestamp)
    else if pivotKey = key then
      scatterLoop pivotKeys segments (segmentIndex + 1) timestamp (pieces.start pivotKey timestamp)
    else
      scatterLoop (pivotKey :: pivotKeys) segments (segmentIndex + 1) timestamp
        (pieces.push [(key, timestamp)])
termination_by pivotKeys segments => pivotKeys.length + segments.length

def scatterReplicationProgress (progress : ReplicationProgress κ) (pivotKeys : List κ)
    (upperKey : κ) : Result (List (ReplicationProgress κ)) := do
  ytVerify (pivotKeys ≠ [] ∧ progress.segments ≠ [])
  ytVerify (∃ pivotKey ∈ pivotKeys.head?, ∃ segment ∈ progress.segments.head?, segment.1 ≤ pivotKey)
  ytVerify (upperKey ≤ progress.upperKey)
  ytVerify (∃ pivotKey ∈ pivotKeys.getLast?, pivotKey < upperKey)
  let (pieces, segments) ← scatterLoop pivotKeys progress.segments 0 maxTimestamp ⟨[], none⟩
  return (pieces.push (segments.takeWhile fun segment =>
    decide (segment.1 < upperKey))).close upperKey

/-! ### Pieces -/

/-- The piece of steps from a key up to another one. -/
def progressPiece (segments : List (κ × Timestamp)) (timestamp : Timestamp) (bounds : κ × κ) :
    ReplicationProgress κ :=
  ⟨(bounds.1, valueAt timestamp segments bounds.1) ::
    segments.filter fun segment => decide (bounds.1 < segment.1 ∧ segment.1 < bounds.2), bounds.2⟩

/-- The keys where the pieces start and end. -/
def pieceBounds : List κ → κ → List (κ × κ)
  | [], _ => []
  | pivotKey :: pivotKeys, upperKey =>
    (pivotKey, pivotKeys.headD upperKey) :: pieceBounds pivotKeys upperKey

variable {bounds : κ × κ}

section Loop

variable {segs : List (κ × Timestamp)} {key upper : κ} {ts prev : Timestamp}

omit [LinearOrder κ] in
theorem mem_pieceBounds_fst : ∀ {pivots : List κ} {bounds : κ × κ},
    bounds ∈ pieceBounds pivots upper → bounds.1 ∈ pivots
  | pivot :: pivots, bounds, h => by
    rcases mem_cons.mp h with rfl | h
    · exact mem_cons_self
    · exact mem_cons_of_mem _ (mem_pieceBounds_fst h)

theorem piece_cons (hle : key ≤ bounds.1) :
    progressPiece ((key, ts) :: segs) prev bounds = progressPiece segs ts bounds := by
  rw [progressPiece, progressPiece, valueAt_cons_of_le hle,
    filter_cons_of_neg (by simp [hle.not_gt])]

theorem map_piece_cons {pivots : List κ} (hle : ∀ pivot ∈ pivots, key ≤ pivot) :
    (pieceBounds pivots upper).map (progressPiece ((key, ts) :: segs) prev) =
      (pieceBounds pivots upper).map (progressPiece segs ts) :=
  map_congr_left fun _ hb => piece_cons (hle _ (mem_pieceBounds_fst hb))

theorem piece_of_lt (hlt : ∀ seg ∈ segs, bounds.1 < seg.1) : progressPiece segs ts bounds =
      ⟨(bounds.1, ts) :: segs.filter fun seg => decide (seg.1 < bounds.2), bounds.2⟩ := by
  rw [progressPiece, valueAt_of_lt hlt]
  congr 2
  exact filter_congr fun seg hs => by simp [hlt seg hs]

theorem filter_lt_eq_nil (hle : ∀ seg ∈ segs, key ≤ seg.1) :
    segs.filter (fun seg => decide (seg.1 < key)) = [] :=
  filter_eq_nil_iff.mpr fun seg hs => by simpa using hle seg hs

theorem takeWhile_eq_filter (h : Increasing segs) :
    segs.takeWhile (fun seg => decide (seg.1 < key)) = segs.filter fun seg => decide (seg.1 < key) := by
  conv_rhs => rw [← takeWhile_append_dropWhile (p := fun seg => decide (seg.1 < key)) (l := segs)]
  rw [filter_append, filter_lt_eq_nil (le_of_mem_dropWhile (h.imp le_of_lt)), append_nil, eq_comm,
    filter_eq_self]
  exact fun _ => mem_takeWhile_imp

section

omit [LinearOrder κ]

@[simp] theorem Pieces.push_nil (pieces : Pieces κ) : pieces.push [] = pieces := by
  obtain ⟨closed, last⟩ := pieces
  cases last <;> simp [Pieces.push]

theorem Pieces.push_push (pieces : Pieces κ) (segs segs' : List (κ × Timestamp)) :
    (pieces.push segs).push segs' = pieces.push (segs ++ segs') := by
  obtain ⟨closed, last⟩ := pieces
  cases last <;> simp [Pieces.push]

theorem Pieces.close_push_start (pieces : Pieces κ) (pivot : κ) (ts : Timestamp)
    (segs : List (κ × Timestamp)) : ((pieces.start pivot ts).push segs).close upper =
      pieces.close pivot ++ [⟨(pivot, ts) :: segs, upper⟩] := rfl

end

/-- The loop closes the piece under way at the next pivot and cuts a piece for each pivot; a segment
that a pivot has passed only matters by its timestamp. -/
theorem scatterLoop_eq (upper : κ) (pivots : List κ) (segs : List (κ × Timestamp))
    (segmentIndex : ℕ)
    (prev : Timestamp) (pieces : Pieces κ) : Increasing segs → pivots.Pairwise (· < ·) →
    (0 < segmentIndex ∨ ∃ seg ∈ segs.head?, ∀ pivotKey ∈ pivots.head?, seg.1 ≤ pivotKey) →
    ∃ pieces' left, scatterLoop pivots segs segmentIndex prev pieces = .ok (pieces', left) ∧
      Increasing left ∧ (pieces'.push (left.filter fun seg => decide (seg.1 < upper))).close upper =
        (pieces.push (segs.filter fun seg => decide (seg.1 < pivots.headD upper))).close
            (pivots.headD upper) ++ (pieceBounds pivots upper).map (progressPiece segs prev) := by
  fun_induction scatterLoop pivots segs segmentIndex prev pieces with
  | case1 segs _ _ pieces => exact fun hseg _ _ => ⟨pieces, segs, rfl, hseg, by simp [pieceBounds]⟩
  | case2 pivotKey pivots segmentIndex prev pieces ih =>
    intro hseg hpivots hi
    have hi : 0 < segmentIndex := by simpa using hi
    obtain ⟨pieces', left, hloop, hleft, heq⟩ := ih hseg (pairwise_cons.mp hpivots).2 (.inl hi)
    refine ⟨pieces', left, by rw [ytVerify_true hi, ok_bind, hloop], hleft, ?_⟩
    rw [heq, filter_nil, Pieces.close_push_start, append_assoc]
    simp [pieceBounds, progressPiece]
  | case3 pivotKey pivots key ts segs segmentIndex prev pieces hlt ih =>
    -- the segment belongs to a later part, the pivot starts a piece with the timestamp in force
    intro hseg hpivots hi
    have hi : 0 < segmentIndex := hi.resolve_right (by simpa using hlt)
    have hahead : ∀ seg ∈ (key, ts) :: segs, pivotKey < seg.1 :=
      forall_mem_cons.mpr ⟨hlt, fun seg hs => hlt.trans ((increasing_cons.mp hseg).1 seg hs)⟩
    obtain ⟨pieces', left, hloop, hleft, heq⟩ := ih hseg (pairwise_cons.mp hpivots).2 (.inl hi)
    refine ⟨pieces', left, by rw [ytVerify_true hi, ok_bind, hloop], hleft, ?_⟩
    rw [heq, Pieces.close_push_start, pieceBounds, map_cons, piece_of_lt hahead, headD_cons,
      filter_lt_eq_nil fun seg hs => (hahead seg hs).le, Pieces.push_nil, append_assoc, singleton_append]
  | case4 pivots pivotKey ts segs segmentIndex prev pieces _ ih =>
    -- the pivot starts a piece with the segment
    intro hseg hpivots _
    obtain ⟨hafter, hr⟩ := increasing_cons.mp hseg
    obtain ⟨hlater, hpivots⟩ := pairwise_cons.mp hpivots
    obtain ⟨pieces', left, hloop, hleft, heq⟩ := ih hr hpivots (.inl (Nat.succ_pos _))
    have hge : ∀ seg ∈ (pivotKey, ts) :: segs, pivotKey ≤ seg.1 :=
      forall_mem_cons.mpr ⟨le_rfl, fun seg hs => (hafter seg hs).le⟩
    have hpiece : progressPiece ((pivotKey, ts) :: segs) prev (pivotKey, pivots.headD upper) =
        progressPiece segs ts (pivotKey, pivots.headD upper) := piece_cons le_rfl
    refine ⟨pieces', left, hloop, hleft, ?_⟩
    rw [heq, Pieces.close_push_start, pieceBounds, map_cons, hpiece, piece_of_lt hafter, headD_cons,
      filter_lt_eq_nil hge, Pieces.push_nil, map_piece_cons fun pivot hp => (hlater pivot hp).le,
      append_assoc, singleton_append]
  | case5 pivotKey pivots key ts segs segmentIndex prev pieces hge hne ih =>
    -- the segment goes to the piece under way
    intro hseg hpivots _
    have hgt : key < pivotKey := lt_of_le_of_ne (not_lt.mp hge) (Ne.symm hne)
    obtain ⟨pieces', left, hloop, hleft, heq⟩ :=
      ih (increasing_cons.mp hseg).2 hpivots (.inl (Nat.succ_pos _))
    have hpassed : ∀ pivot ∈ pivotKey :: pivots, key ≤ pivot :=
      forall_mem_cons.mpr ⟨hgt.le, fun pivot hp =>
        (hgt.trans ((pairwise_cons.mp hpivots).1 pivot hp)).le⟩
    refine ⟨pieces', left, hloop, hleft, ?_⟩
    rw [heq, Pieces.push_push, map_piece_cons hpassed, headD_cons, singleton_append,
      filter_cons_of_pos (by simpa using hgt)]

end Loop

/-! ### The values of a piece -/

variable {progress : ReplicationProgress κ}

section Values

variable {segments segs : List (κ × Timestamp)} {lower key : κ}

/-- Between its bounds a piece has the values of the whole. -/
theorem valueAt_filter (upper : κ) (hlower : lower ≤ key) :
    ∀ (segs : List (κ × Timestamp)) (ts : Timestamp),
    Increasing segs → (∀ seg ∈ segs, seg.1 ≤ key → seg.1 < upper) → valueAt (valueAt ts segs lower)
        (segs.filter fun seg => decide (lower < seg.1 ∧ seg.1 < upper)) key = valueAt ts segs key
  | [], _, _, _ => rfl
  | (first, new) :: segs, ts, hi, hu => by
    obtain ⟨hafter, hi⟩ := increasing_cons.mp hi
    obtain ⟨hf, hu⟩ := forall_mem_cons.mp hu
    have ih := valueAt_filter upper hlower segs new hi hu
    rcases le_or_gt first lower with hle | hgt
    · rw [valueAt_cons_of_le hle, valueAt_cons_of_le (hle.trans hlower),
        filter_cons_of_neg (by simp [hle.not_gt]), ih]
    · have hahead : valueAt new segs lower = new :=
        valueAt_of_lt fun seg hs => hgt.trans (hafter seg hs)
      rw [hahead] at ih
      rw [valueAt_cons_of_lt hgt]
      rcases le_or_gt first key with hle | hlt
      · rw [filter_cons_of_pos (by simp [hgt, hf hle]), valueAt_cons_of_le hle,
          valueAt_cons_of_le hle, ih]
      · rw [valueAt_cons_of_lt hlt, valueAt_of_lt]
        intro seg hs
        rcases mem_cons.mp (mem_of_mem_filter hs) with rfl | hm
        · exact hlt
        · exact hlt.trans (hafter seg hm)

theorem piece_spec (hp : progress.WellFormed) (hb : bounds.1 < bounds.2)
    (hu : bounds.2 ≤ progress.upperKey) :
    (progressPiece progress.segments nullTimestamp bounds).WellFormed ∧
      (progressPiece progress.segments nullTimestamp bounds).lowerKey = some bounds.1 ∧
      ∀ key, bounds.1 ≤ key → key < bounds.2 →
        (progressPiece progress.segments nullTimestamp bounds).timestampAt key =
          progress.timestampAt key := by
  refine ⟨⟨cons_ne_nil _ _, ?_, ?_⟩, rfl, fun key hle hlt => ?_⟩
  · refine pairwise_cons.mpr ⟨fun seg hs => ?_, hp.increasing.filter _⟩
    exact (by simpa using of_mem_filter hs : bounds.1 < seg.1 ∧ _).1
  · refine forall_mem_cons.mpr ⟨hb, fun seg hs => ?_⟩
    exact (by simpa using of_mem_filter hs : _ ∧ seg.1 < bounds.2).2
  · have hv := valueAt_filter bounds.2 hle progress.segments nullTimestamp hp.increasing
      fun seg _ hs => hs.trans_lt hlt
    have hi : key < (progressPiece progress.segments nullTimestamp bounds).upperKey := hlt
    rw [timestampAt, timestampAt, if_pos (hlt.trans_le hu), if_pos hi]
    exact (valueAt_cons_of_le hle _ _ _).trans hv

theorem extractReplicationProgress_eq (hp : progress.WellFormed) {first : κ}
    (hf : first ∈ progress.lowerKey) (hle : first ≤ lower) (upper : κ) :
    extractReplicationProgress progress lower upper =
      .ok (progressPiece progress.segments nullTimestamp (lower, upper)) := by
  obtain ⟨⟨first', ts⟩, hh, rfl⟩ := Option.map_eq_some_iff.mp hf
  obtain ⟨rest, hsegments⟩ := head?_eq_some_iff.mp hh
  set before := (upperBound progress.segments lower).1 with hbefore
  set after := (upperBound progress.segments lower).2 with hafter
  have hsplit : before ++ after = progress.segments := takeWhile_append_dropWhile
  have hstarts : ∀ seg ∈ before, seg.1 ≤ lower := fun seg hseg => by
    simpa using mem_takeWhile_imp hseg
  have hahead : ∀ seg ∈ after, lower < seg.1 := lt_upperBound hp.increasing
  have hne : before ≠ [] := by
    rw [hbefore, upperBound, hsegments]
    rw [takeWhile_cons_of_pos (by simpa using hle)]
    exact cons_ne_nil _ _
  have hlast := getLast?_eq_some_getLast hne
  have hv : valueAt nullTimestamp progress.segments lower = (before.getLast hne).2 := by
    rw [← hsplit, valueAt_append_of_le _ _ _ hstarts, hlast, valueAt_of_lt hahead]
    rfl
  have hbetween : progress.segments.filter (fun seg => decide (lower < seg.1 ∧ seg.1 < upper)) =
      after.takeWhile fun seg => decide (seg.1 < upper) := by
    have hi : Increasing after := hp.increasing.sublist (dropWhile_sublist _)
    have hnone : before.filter (fun seg => decide (lower < seg.1 ∧ seg.1 < upper)) = [] :=
      filter_eq_nil_iff.mpr fun seg hseg => by simp [(hstarts seg hseg).not_gt]
    rw [← hsplit, filter_append, hnone, nil_append, takeWhile_eq_filter hi]
    exact filter_congr fun seg hseg => by simp [hahead seg hseg]
  rw [extractReplicationProgress, progressPiece, ← hbefore, ← hafter, hlast, hv, hbetween]

theorem Increasing.eq_of_mem_iff {l l' : List (κ × Timestamp)} (h : Increasing l)
    (h' : Increasing l') (hm : ∀ seg, seg ∈ l ↔ seg ∈ l') : l = l' :=
  Perm.eq_of_pairwise (fun _ _ _ _ hlt hgt => absurd hlt hgt.not_gt) h h'
    ((perm_ext_iff_of_nodup (h.imp fun hlt heq => hlt.ne (congrArg _ heq))
      (h'.imp fun hlt heq => hlt.ne (congrArg _ heq))).mpr hm)

/-- The segments from one key up to another are those below a key between them and those from it on.
-/
theorem filter_cut {middle upper : κ} (hlower : lower < middle) (hu : middle < upper)
    (hi : Increasing segs) : segs.filter (fun seg => decide (lower < seg.1 ∧ seg.1 < upper)) =
      segs.filter (fun seg => decide (lower < seg.1 ∧ seg.1 < middle)) ++
        segs.filter fun seg => decide (middle ≤ seg.1 ∧ seg.1 < upper) := by
  refine Increasing.eq_of_mem_iff (hi.filter _)
    (pairwise_append.mpr ⟨hi.filter _, hi.filter _, fun seg hs seg' hs' => ?_⟩) fun seg => ?_
  · simp only [mem_filter, decide_eq_true_eq] at hs hs'
    exact hs.2.2.trans_le hs'.2.1
  · rw [mem_append, mem_filter, mem_filter, mem_filter, ← and_or_left]
    rcases lt_or_ge seg.1 middle with hlt | hge
    · simp [hlt, hlt.trans hu, hlt.not_ge]
    · simp [hge, hlower.trans_le hge, hge.not_gt]

omit [LinearOrder κ] in
theorem pushSteps_append (out steps steps' : List (κ × Timestamp)) :
    pushSteps out (steps ++ steps') = pushSteps (pushSteps out steps) steps' := foldl_append

/-- Two pieces pushed one after the other are the piece of both: where the second one starts, there
is a segment of the whole, or the last timestamp goes on. -/
theorem pushSteps_cut {middle upper : κ} (hlower : lower < middle) (hu : middle < upper)
    (hi : Increasing segs) (ts : Timestamp) (out : List (κ × Timestamp)) :
    pushSteps (pushSteps out (progressPiece segs ts (lower, middle)).segments)
        (progressPiece segs ts (middle, upper)).segments =
      pushSteps out (progressPiece segs ts (lower, upper)).segments := by
  have hw : (progressPiece segs ts (lower, upper)).segments =
      (progressPiece segs ts (lower, middle)).segments ++ segs.filter fun seg =>
          decide (middle ≤ seg.1 ∧ seg.1 < upper) := by
    rw [progressPiece, progressPiece, filter_cut hlower hu hi, cons_append]
  rw [hw, pushSteps_append]
  by_cases hm : ∃ seg ∈ segs, seg.1 = middle
  · obtain ⟨seg, hs, rfl⟩ := hm
    rw [progressPiece.eq_def segs ts (seg.1, upper), valueAt_of_mem hi seg hs]
    congr 1
    refine (Increasing.eq_of_mem_iff (hi.filter _)
      (pairwise_cons.mpr ⟨fun seg' hs' => ?_, hi.filter _⟩) fun seg' => ?_).symm
    · exact (by simpa using of_mem_filter hs' : seg.1 < seg'.1 ∧ _).1
    rw [mem_cons, mem_filter, mem_filter]
    simp only [decide_eq_true_eq]
    constructor
    · rintro ⟨hs', hle, hlt⟩
      refine hle.eq_or_lt.imp (fun heq => Prod.ext heq.symm ?_) fun hgt => ⟨hs', hgt, hlt⟩
      rw [← valueAt_of_mem hi seg' hs' ts, ← heq, valueAt_of_mem hi seg hs]
    · rintro (rfl | ⟨hs', hgt, hlt⟩)
      · exact ⟨hs, le_rfl, hu⟩
      · exact ⟨hs', hgt.le, hlt⟩
  · -- the piece starts with the timestamp that the one before ends with
    have hne : ∀ seg ∈ segs, seg.1 ≠ middle := fun seg hs heq => hm ⟨seg, hs, heq⟩
    have hnone : segs.filter (fun seg => decide (middle ≤ seg.1 ∧ seg.1 < upper)) =
        segs.filter fun seg => decide (middle < seg.1 ∧ seg.1 < upper) :=
      filter_congr fun seg hs => by simp [(hne seg hs).symm.le_iff_lt]
    set first := (progressPiece segs ts (lower, middle)).segments with hfirst
    have hk : ∀ seg ∈ first, seg.1 ≤ middle := by
      refine forall_mem_cons.mpr ⟨hlower.le, fun seg hs => ?_⟩
      exact (by simpa using of_mem_filter hs : _ ∧ seg.1 < middle).2.le
    have hv : valueAt ts first middle = valueAt ts segs middle := by
      rw [hfirst, progressPiece, valueAt_cons_of_le hlower.le]
      exact valueAt_filter middle hlower.le segs ts hi
        fun seg hs hle => lt_of_le_of_ne hle (hne seg hs)
    have hlast : (pushSteps out first).getLast?.map Prod.snd = some (valueAt ts segs middle) := by
      have hfirstNe : first ≠ [] := cons_ne_nil _ _
      rw [getLast?_pushSteps _ _ hfirstNe, getLast?_eq_some_getLast hfirstNe, Option.map_some, ← hv]
      congr 1
      refine (valueAt_of_ge hk ?_).symm
      rw [getLast?_eq_some_getLast hfirstNe, Option.map_some]
    rw [hnone, progressPiece, pushSteps, foldl_cons, pushStep, if_pos hlast]
    rfl

theorem pushSteps_pieces (hi : Increasing segs) (ts : Timestamp) {upper : κ} :
    ∀ (pivots : List κ) (pivotKey : κ) (out : List (κ × Timestamp)),
      (pivotKey :: pivots).Pairwise (· < ·) → (∀ pivot ∈ pivots, pivot < upper) →
    pushSteps out (((pieceBounds (pivotKey :: pivots) upper).map (progressPiece segs ts)).flatMap
        ReplicationProgress.segments) =
      pushSteps out (progressPiece segs ts (pivotKey, upper)).segments
  | [], pivotKey, out, _, _ => by simp [pieceBounds]
  | next :: pivots, pivotKey, out, hp, hu => by
    obtain ⟨hl, hp⟩ := pairwise_cons.mp hp
    obtain ⟨hn, hr⟩ := forall_mem_cons.mp hu
    rw [pieceBounds, map_cons, flatMap_cons, pushSteps_append,
      pushSteps_pieces hi ts pivots next _ hp hr, headD_cons,
      pushSteps_cut (hl next mem_cons_self) hn hi]

end Values

/-! ### Scattering and gathering -/

omit [LinearOrder κ] in
theorem canonizeReplicationProgress_eq [Inhabited κ] {segs : List (κ × Timestamp)} (hne : segs ≠ [])
    (upper : κ) : canonizeReplicationProgress ⟨segs, upper⟩ = ⟨pushSteps [] segs, upper⟩ := by
  obtain ⟨first, rest, rfl⟩ := exists_cons_of_ne_nil hne
  simp only [canonizeReplicationProgress, ite_not]
  rfl

theorem pieceBounds_lt {upper : κ} : ∀ {pivots : List κ}, pivots.Pairwise (· < ·) →
    (∀ pivot ∈ pivots, pivot < upper) →
    ∀ bounds ∈ pieceBounds pivots upper, bounds.1 < bounds.2 ∧ bounds.2 ≤ upper
  | pivot :: pivots, hpivots, hu, bounds, hb => by
    obtain ⟨hl, hpivots⟩ := pairwise_cons.mp hpivots
    obtain ⟨hpivot, hu⟩ := forall_mem_cons.mp hu
    rcases mem_cons.mp hb with rfl | hb
    · cases pivots with
      | nil => exact ⟨hpivot, le_rfl⟩
      | cons next _ => exact ⟨hl next mem_cons_self, (hu next mem_cons_self).le⟩
    · exact pieceBounds_lt hpivots hu bounds hb

omit [LinearOrder κ] in
theorem pieceBounds_eq_zip (upper : κ) : ∀ pivots : List κ,
    pieceBounds pivots upper = pivots.zip (pivots.tail ++ [upper])
  | [] => rfl
  | [_] => rfl
  | pivot :: next :: pivots => by
    rw [pieceBounds, pieceBounds_eq_zip upper (next :: pivots)]
    rfl

omit [LinearOrder κ] in
theorem pieceBounds_length (upper : κ) : ∀ pivots : List κ, (pieceBounds pivots upper).length =
    pivots.length
  | [] => rfl
  | _ :: pivots => by rw [pieceBounds, length_cons, length_cons, pieceBounds_length upper pivots]

/-- The scatter cuts a piece for each pivot. -/
theorem scatterReplicationProgress_eq (hp : progress.WellFormed) {pivots : List κ}
    {upper first lower : κ} (hpivots : pivots.Pairwise (· < ·)) (hf : pivots.head? = some first)
    (hlower : lower ∈ progress.lowerKey) (hle : lower ≤ first)
    (hlast : ∀ pivotKey ∈ pivots, pivotKey < upper)
    (hu : upper ≤ progress.upperKey) : scatterReplicationProgress progress pivots upper =
      .ok ((pieceBounds pivots upper).map (progressPiece progress.segments nullTimestamp)) := by
  obtain ⟨⟨lower', ts⟩, hh, rfl⟩ := Option.map_eq_some_iff.mp hlower
  have hne : pivots ≠ [] := by rintro rfl; simp at hf
  have hstart : ∃ pivotKey ∈ pivots.head?, ∃ seg ∈ progress.segments.head?, seg.1 ≤ pivotKey :=
    ⟨first, hf, _, hh, hle⟩
  have hend : ∃ pivotKey ∈ pivots.getLast?, pivotKey < upper :=
    ⟨_, getLast?_eq_some_getLast hne, hlast _ (getLast_mem hne)⟩
  obtain ⟨pieces, left, hloop, hleft, heq⟩ := scatterLoop_eq upper pivots progress.segments 0
    maxTimestamp ⟨[], none⟩ hp.increasing hpivots (.inr ⟨_, hh, by simpa [hf] using hle⟩)
  rw [scatterReplicationProgress, ytVerify_true ⟨hne, hp.nonempty⟩, ok_bind, ytVerify_true hstart,
    ok_bind, ytVerify_true hu, ok_bind, ytVerify_true hend, ok_bind, hloop, ok_bind]
  dsimp only
  rw [takeWhile_eq_filter hleft, heq]
  -- the first segment has come by every pivot, so the initial timestamp does not matter
  obtain ⟨rest, hseg⟩ := head?_eq_some_iff.mp hh
  obtain ⟨more, rfl⟩ := head?_eq_some_iff.mp hf
  have hpassed : ∀ pivotKey ∈ first :: more, lower' ≤ pivotKey :=
    forall_mem_cons.mpr ⟨hle, fun pivotKey hpivot =>
      hle.trans ((pairwise_cons.mp hpivots).1 pivotKey hpivot).le⟩
  rw [hseg, map_piece_cons hpassed, map_piece_cons hpassed]
  rfl

theorem mapM_gatherSegments (segs : List (κ × Timestamp)) (ts : Timestamp) (upper : κ) :
    ∀ pivots : List κ, (((pieceBounds pivots upper).map (progressPiece segs ts)).zip pivots).mapM
        (fun entry => gatherSegments entry.1 entry.2) = .ok (((pieceBounds pivots upper).map
        (progressPiece segs ts)).map ReplicationProgress.segments)
  | [] => rfl
  | pivot :: pivots => by
    have ih := mapM_gatherSegments segs ts upper pivots
    rw [pieceBounds, map_cons, zip_cons_cons, mapM_cons, ih]
    simp [gatherSegments, progressPiece]

/-- Scattering gives one well-formed progress for each pivot, with the timestamps of the whole up to
the next pivot, and gathering them gives the canonical form of the extract. -/
theorem scatter_gather [Inhabited κ] {progress : ReplicationProgress κ} (hp : progress.WellFormed)
    {pivotKeys : List κ} {upperKey first lower : κ} (hpivots : pivotKeys.Pairwise (· < ·))
    (hfirst : pivotKeys.head? = some first) (hlower : lower ∈ progress.lowerKey)
    (hle : lower ≤ first) (hlast : ∀ pivotKey ∈ pivotKeys, pivotKey < upperKey)
    (hupper : upperKey ≤ progress.upperKey) :
    ∃ pieces extracted, scatterReplicationProgress progress pivotKeys upperKey = .ok pieces ∧
      Forall₂ (fun progressPiece bounds => progressPiece.WellFormed ∧ progressPiece.lowerKey =
        some bounds.1 ∧ progressPiece.upperKey = bounds.2 ∧ ∀ key, bounds.1 ≤ key → key < bounds.2 →
          progressPiece.timestampAt key = progress.timestampAt key)
        pieces (pivotKeys.zip (pivotKeys.tail ++ [upperKey])) ∧
      extractReplicationProgress progress first upperKey = .ok extracted ∧
      gatherReplicationProgress pieces pivotKeys upperKey =
        .ok (canonizeReplicationProgress extracted) := by
  have hbounds := pieceBounds_lt hpivots hlast
  obtain ⟨more, rfl⟩ := head?_eq_some_iff.mp hfirst
  refine ⟨_, _, scatterReplicationProgress_eq hp hpivots hfirst hlower hle hlast hupper, ?_,
    extractReplicationProgress_eq hp hlower hle upperKey, ?_⟩
  · rw [← pieceBounds_eq_zip, forall₂_map_left_iff, forall₂_same]
    intro bounds hmem
    obtain ⟨hlt, hend⟩ := hbounds bounds hmem
    obtain ⟨hformed, hstart, hvalue⟩ := piece_spec hp hlt (hend.trans hupper)
    exact ⟨hformed, hstart, rfl, hvalue⟩
  · set pieces := (pieceBounds (first :: more) upperKey).map
      (progressPiece progress.segments nullTimestamp) with hpieces
    have hend : ∃ pivotKey ∈ (first :: more).getLast?, pivotKey < upperKey :=
      ⟨_, getLast?_eq_some_getLast (cons_ne_nil _ _), hlast _ (getLast_mem _)⟩
    have hlength : pieces.length = (first :: more).length := by
      rw [hpieces, length_map, pieceBounds_length]
    have hne : (pieces.map ReplicationProgress.segments).flatten ≠ [] := by
      simp [hpieces, pieceBounds, progressPiece]
    -- every segment of a piece lies below its end
    have hbelow : ∀ segment ∈ (pieces.map ReplicationProgress.segments).flatten,
        segment.1 < upperKey := by
      intro segment hsegment
      obtain ⟨_, hsegments, hsegment⟩ := mem_flatten.mp hsegment
      obtain ⟨_, hpiece, rfl⟩ := mem_map.mp hsegments
      obtain ⟨bounds, hmem, rfl⟩ := mem_map.mp hpiece
      obtain ⟨hlt, hend⟩ := hbounds bounds hmem
      exact ((piece_spec hp hlt (hend.trans hupper)).1.below segment hsegment).trans_le hend
    have hback : ∃ segment ∈ (pieces.map ReplicationProgress.segments).flatten.getLast?,
        segment.1 < upperKey :=
      ⟨_, getLast?_eq_some_getLast hne, hbelow _ (getLast_mem hne)⟩
    rw [gatherReplicationProgress, ytVerify_true hlength, ok_bind, ytVerify_true hend, ok_bind,
      hpieces, mapM_gatherSegments, ok_bind, ← hpieces, ytVerify_true hback, ok_bind, pure_eq_ok,
      canonizeReplicationProgress_eq hne, progressPiece,
        canonizeReplicationProgress_eq (cons_ne_nil _ _), ← flatMap_def,
      pushSteps_pieces hp.increasing nullTimestamp more first [] hpivots
        (forall_mem_cons.mp hlast).2]
    rfl

theorem scatter_gather_example :
    ∃ pieces extracted, scatterReplicationProgress exampleProgress [1, 4, 6] 9 = .ok pieces ∧
      extractReplicationProgress exampleProgress 1 9 = .ok extracted ∧
      gatherReplicationProgress pieces [1, 4, 6] 9 = .ok (canonizeReplicationProgress extracted) := by
  have hlower : 0 ∈ exampleProgress.lowerKey := rfl
  have hpivots : [1, 4, 6].Pairwise (· < ·) := by decide
  have hlast : ∀ pivotKey ∈ [1, 4, 6], pivotKey < 9 := by decide
  obtain ⟨pieces, extracted, hscatter, -, hextract, hgather⟩ :=
    scatter_gather exampleProgress_wellFormed hpivots rfl hlower (by decide) hlast (by decide)
  exact ⟨pieces, extracted, hscatter, hextract, hgather⟩

end Ytsaurus.ChaosClient
