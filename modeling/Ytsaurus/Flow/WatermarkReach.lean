/-
# Reach instants are conservative and accurate

Every element of a watermark history stands for a stretch of the accepted samples. The element that
reaches a watermark stands for the first sample that did, so the instant of its oldest sample is not
later (`find_spec`); and its span was small against its age when it was merged last, so that instant
is not much earlier (`Accurate`).
-/
import Ytsaurus.Flow.WatermarkHistory
import Mathlib.Order.Lattice
import Mathlib.Algebra.Order.Monoid.Unbundled.Basic

namespace Ytsaurus.Flow

open List

/-! ### Accepted samples -/

abbrev Sample := ℕ × ℕ

/-- A sample is accepted unless its instant does not increase or its watermark regresses. -/
def acceptSample (samples : List Sample) (sample : Sample) : List Sample :=
  if samples.getLast?.any fun last => decide (sample.1 ≤ last.1 ∨ sample.2 < last.2) then samples
  else samples ++ [sample]

def acceptedSamples (calls : List Sample) : List Sample := calls.foldl acceptSample []

/-- Instants increase and watermarks do not regress. -/
def SamplesMonotone (samples : List Sample) : Prop :=
  samples.Pairwise fun s s' => s.1 < s'.1 ∧ s.2 ≤ s'.2

variable {samples : List Sample}

theorem monotone_accept (h : SamplesMonotone samples) (sample : Sample) :
    SamplesMonotone (acceptSample samples sample) := by
  unfold acceptSample
  split_ifs with hr
  · exact h
  · refine pairwise_append.mpr ⟨h, pairwise_singleton _ _, fun s hs s' hs' => ?_⟩
    obtain rfl := mem_singleton.mp hs'
    obtain ⟨init, last, rfl⟩ := (eq_nil_or_concat' samples).resolve_left (ne_nil_of_mem hs)
    simp only [getLast?_append, getLast?_singleton, Option.some_or, Option.any_some,
      decide_eq_true_eq, not_or, not_le, not_lt] at hr
    rcases mem_append.mp hs with hs | hs
    · have := (pairwise_append.mp h).2.2 s hs last (by simp)
      exact ⟨this.1.trans hr.1, this.2.trans hr.2⟩
    · rw [mem_singleton.mp hs]
      exact hr

/-! ### Elements and stretches of samples -/

def sampleElements (samples : List Sample) : List WatermarkHistoryElement :=
  samples.map sampleElement

variable {elem : WatermarkHistoryElement}

theorem foldsTo_samples {stretch : List WatermarkHistoryElement}
    (h : FoldsTo watermarkOps.merge stretch elem) : ∀ samples, stretch = sampleElements samples →
    ∃ oldest newest, samples.head? = some oldest ∧ samples.getLast? = some newest ∧
      elem = ⟨newest.1, newest.2, oldest.1⟩ := by
  induction h with
  | single item =>
    intro samples hs
    obtain ⟨sample, rfl, rfl⟩ : ∃ sample, samples = [sample] ∧ sampleElement sample = item := by
      simpa [sampleElements, eq_comm] using map_eq_singleton_iff.mp hs.symm
    exact ⟨sample, sample, rfl, rfl, rfl⟩
  | merge _ _ ih ih' =>
    intro samples hs
    obtain ⟨older, newer, rfl, holder, hnewer⟩ := map_eq_append_iff.mp hs.symm
    obtain ⟨oldest, _, holdest, _, rfl⟩ := ih older holder.symm
    obtain ⟨_, newest, _, hnew, rfl⟩ := ih' newer hnewer.symm
    refine ⟨oldest, newest, ?_, ?_, rfl⟩
    · rw [head?_append, holdest, Option.some_or]
    · rw [getLast?_append, hnew, Option.some_or]

variable {elements elems : List WatermarkHistoryElement}

theorem summarizes_cons
    (h : Summarizes watermarkOps.merge (sampleElements samples) (elem :: elems)) :
    ∃ stretch rest oldest newest, samples = stretch ++ rest ∧ stretch.head? = some oldest ∧
      stretch.getLast? = some newest ∧ elem = ⟨newest.1, newest.2, oldest.1⟩ ∧
      Summarizes watermarkOps.merge (sampleElements rest) elems := by
  generalize ha : sampleElements samples = all at h
  cases h with
  | cons hf hr =>
    obtain ⟨stretch, rest, rfl, hs, rfl⟩ := map_eq_append_iff.mp ha
    obtain ⟨oldest, newest, ho, hn, rfl⟩ := foldsTo_samples hf stretch hs.symm
    exact ⟨stretch, rest, oldest, newest, rfl, ho, hn, rfl, hr⟩

theorem eq_nil_of_summarizes (h : Summarizes watermarkOps.merge (sampleElements samples) []) :
    samples = [] := by
  generalize ha : sampleElements samples = all at h
  cases h
  exact map_eq_nil_iff.mp ha

def Consecutive (elements : List WatermarkHistoryElement) : Prop :=
  (∀ element ∈ elements, element.firstSampleTime ≤ element.time) ∧
    elements.Pairwise fun element element' => element.time < element'.firstSampleTime

theorem mem_summarizes : ∀ {elems : List WatermarkHistoryElement} {samples : List Sample},
    Summarizes watermarkOps.merge (sampleElements samples) elems → ∀ elem ∈ elems,
    (∃ sample ∈ samples, sample.1 = elem.firstSampleTime) ∧ ∃ sample ∈ samples, sample.1 = elem.time
  | [], _, _, elem, helem => absurd helem not_mem_nil
  | _ :: elems, samples, h, elem, helem => by
    obtain ⟨stretch, rest, oldest, newest, rfl, ho, hn, rfl, hr⟩ := summarizes_cons h
    rcases mem_cons.mp helem with rfl | helem
    · exact ⟨⟨oldest, mem_append_left _ (mem_of_head? ho), rfl⟩, newest,
        mem_append_left _ (mem_of_getLast? hn), rfl⟩
    · obtain ⟨⟨s, hs, heq⟩, s', hs', heq'⟩ := mem_summarizes hr elem helem
      exact ⟨⟨s, mem_append_right _ hs, heq⟩, s', mem_append_right _ hs', heq'⟩

theorem SamplesMonotone.head_le_last (h : SamplesMonotone samples) {oldest newest : Sample}
    (ho : samples.head? = some oldest) (hn : samples.getLast? = some newest) {sample : Sample}
    (hs : sample ∈ samples) : oldest.1 ≤ sample.1 ∧ sample.1 ≤ newest.1 ∧ sample.2 ≤ newest.2 := by
  obtain ⟨rest, rfl⟩ := head?_eq_some_iff.mp ho
  obtain ⟨init, hi⟩ := getLast?_eq_some_iff.mp hn
  refine ⟨?_, ?_⟩
  · rcases mem_cons.mp hs with rfl | hs
    · exact Nat.le_refl _
    · exact Nat.le_of_lt ((pairwise_cons.mp h).1 sample hs).1
  · rw [hi] at h hs
    rcases mem_append.mp hs with hs | hs
    · have := (pairwise_append.mp h).2.2 sample hs newest (mem_singleton_self _)
      exact ⟨Nat.le_of_lt this.1, this.2⟩
    · rw [mem_singleton.mp hs]
      exact ⟨Nat.le_refl _, Nat.le_refl _⟩

theorem consecutive_of_summarizes :
    ∀ {elems : List WatermarkHistoryElement} {samples : List Sample},
    Summarizes watermarkOps.merge (sampleElements samples) elems → SamplesMonotone samples →
    Consecutive elems
  | [], _, _, _ => ⟨by simp, .nil⟩
  | _ :: elems, samples, h, hm => by
    obtain ⟨stretch, rest, oldest, newest, rfl, ho, hn, rfl, hr⟩ := summarizes_cons h
    obtain ⟨hstretch, ha, hb⟩ := pairwise_append.mp hm
    obtain ⟨hle, hp⟩ := consecutive_of_summarizes hr ha
    refine ⟨forall_mem_cons.mpr ⟨?_, hle⟩, pairwise_cons.mpr ⟨fun elem helem => ?_, hp⟩⟩
    · exact (SamplesMonotone.head_le_last hstretch ho hn (mem_of_getLast? hn)).1
    · obtain ⟨⟨sample, hsample, heq⟩, -⟩ := mem_summarizes hr elem helem
      rw [← heq]
      exact (hb newest (mem_of_getLast? hn) sample hsample).1

/-! ### Accuracy -/

/-- The span of every element is small against its age. -/
def Accurate (thinningFactor now : ℕ) (elements : List WatermarkHistoryElement) : Prop :=
  ∀ element ∈ elements, (element.time - element.firstSampleTime) * thinningFactor ≤
    now - element.time

/-- Merging neighbours keeps the elements accurate: the merged element starts after the one before
it, and the span from there was compared. -/
theorem accurate_thin {thinningFactor now oldest : ℕ}
    (hprod : (now - oldest) * thinningFactor < 2 ^ 64) :
    ∀ {elems : List WatermarkHistoryElement} {prev cur : WatermarkHistoryElement},
    (prev :: cur :: elems).Pairwise (fun elem elem' => elem.time < elem'.firstSampleTime) →
    (∀ elem ∈ prev :: cur :: elems, oldest ≤ elem.time ∧ elem.time ≤ now) →
    Accurate thinningFactor now (cur :: elems) →
    Accurate thinningFactor now (thinLoop watermarkOps thinningFactor now prev cur elems)
  | [], _, _, _, _, haccurate => haccurate
  | newer :: rest, prev, cur, hconsecutive, ho, haccurate => by
    obtain ⟨hprev, hcurrent⟩ := pairwise_cons.mp hconsecutive
    obtain ⟨hcurrentAcc, hrestA⟩ := forall_mem_cons.mp haccurate
    simp only [forall_mem_cons] at hprev ho
    obtain ⟨hprevO, hcurrentOk, hnewO, hrestO⟩ := ho
    rw [thinLoop]
    split_ifs with hmerges
    · have hspan : newer.time - prev.time ≤ now - oldest := by omega
      have hmerge : (newer.time - prev.time) * thinningFactor ≤ now - newer.time :=
        (Nat.mod_eq_of_lt ((Nat.mul_le_mul_right _ hspan).trans_lt hprod)).symm.trans_le hmerges
      have hshort : newer.time - cur.firstSampleTime ≤ newer.time - prev.time := by omega
      refine accurate_thin hprod (pairwise_cons.mpr ⟨forall_mem_cons.mpr ⟨hprev.1, hprev.2.2⟩, ?_⟩) ?_ ?_
      · exact pairwise_cons.mpr (pairwise_cons.mp (pairwise_cons.mp hcurrent).2)
      · simp only [forall_mem_cons]
        exact ⟨hprevO, hnewO, hrestO⟩
      · exact forall_mem_cons.mpr
          ⟨(Nat.mul_le_mul_right _ hshort).trans hmerge, (forall_mem_cons.mp hrestA).2⟩
    · refine forall_mem_cons.mpr ⟨hcurrentAcc, accurate_thin hprod hcurrent ?_ hrestA⟩
      simp only [forall_mem_cons]
      exact ⟨hcurrentOk, hnewO, hrestO⟩

/-! ### Whole histories -/

/-- The history stands for the samples, accurately. -/
structure HistoryOk (thinningFactor : ℕ) (samples : List Sample)
    (elements : List WatermarkHistoryElement) : Prop where
  monotone : SamplesMonotone samples
  summarizes : Summarizes watermarkOps.merge (sampleElements samples) elements
  accurate : ∀ newest ∈ samples.getLast?, Accurate thinningFactor newest.1 elements
  anchor : elements.head? = samples.head?.map sampleElement

theorem getLast?_summarizes : ∀ {elems : List WatermarkHistoryElement} {samples : List Sample},
    Summarizes watermarkOps.merge (sampleElements samples) elems →
    elems.getLast?.map (fun back => (back.time, back.watermark)) = samples.getLast?
  | [], samples, h => by rw [eq_nil_of_summarizes h]; rfl
  | _ :: elems, samples, h => by
    obtain ⟨stretch, rest, oldest, newest, rfl, ho, hn, rfl, hr⟩ := summarizes_cons h
    rw [getLast?_append, ← getLast?_summarizes hr, hn, getLast?_cons]
    cases elems.getLast? <;> rfl

variable {thinningFactor : ℕ}

theorem accurate_append {sample : Sample} (oldest : ℕ)
    (hp : (sample.1 - oldest) * thinningFactor < 2 ^ 64)
    (hc : Consecutive (elems ++ [sampleElement sample]))
    (haccurate : Accurate thinningFactor sample.1 (elems ++ [sampleElement sample]))
    (ho : ∀ elem ∈ elems ++ [sampleElement sample], oldest ≤ elem.time ∧ elem.time ≤ sample.1) :
    Accurate thinningFactor sample.1
      (appendToExponentialHistory watermarkOps thinningFactor elems (sampleElement sample)) := by
  unfold appendToExponentialHistory
  split_ifs
  · exact haccurate
  · change Accurate thinningFactor sample.1 (thinHistory watermarkOps thinningFactor sample.1 _)
    generalize elems ++ [sampleElement sample] = all at *
    match all, hc, haccurate, ho with
    | [], _, haccurate, _ | [_], _, haccurate, _ => exact haccurate
    | anchor :: first :: rest, hc, haccurate, ho =>
      obtain ⟨hanchor, hr⟩ := forall_mem_cons.mp haccurate
      exact forall_mem_cons.mpr ⟨hanchor, accurate_thin hp hc.2 ho hr⟩

/-- Products of spans of the samples with the thinning factor fit into a word. -/
def ProductsFit (thinningFactor : ℕ) (samples : List Sample) : Prop :=
  ∀ sample ∈ samples, ∀ sample' ∈ samples, (sample.1 - sample'.1) * thinningFactor < 2 ^ 64

/-- `Append` accepts what `acceptSample` does, and keeps the history in order. -/
theorem historyOk_append (h : HistoryOk thinningFactor samples elems) (sample : Sample)
    (hp : ProductsFit thinningFactor (acceptSample samples sample)) : HistoryOk thinningFactor
      (acceptSample samples sample) (appendWatermark thinningFactor elems sample) := by
  have hm := monotone_accept h.monotone sample
  have hlast := getLast?_summarizes h.summarizes
  have hcheck : (elems.getLast?.any fun back =>
      decide (sample.1 ≤ back.time ∨ sample.2 < back.watermark)) =
      samples.getLast?.any fun last => decide (sample.1 ≤ last.1 ∨ sample.2 < last.2) := by
    rw [← hlast, Option.any_map]
  unfold acceptSample appendWatermark at *
  rw [hcheck]
  split_ifs at * with hr
  · exact h
  have hadjacent := h.summarizes.concat (sampleElement sample)
  rw [← map_singleton, sampleElements, ← map_append, ← sampleElements] at hadjacent
  have hanchor : (appendToExponentialHistory watermarkOps thinningFactor elems
      (sampleElement sample)).head? = (samples ++ [sample]).head?.map sampleElement := by
    rw [head?_appendToExponentialHistory, head?_append, head?_append, h.anchor]
    cases samples.head? <;> rfl
  refine ⟨hm, ?_, fun newest hnewest => ?_, hanchor⟩
  · rw [sampleElements, map_append]
    exact summarizes_append h.summarizes (sampleElement sample)
  obtain rfl : sample = newest := by simpa using hnewest
  have hconsecutive := consecutive_of_summarizes hadjacent hm
  obtain ⟨oldest, holdest⟩ : ∃ oldest, (samples ++ [sample]).head? = some oldest :=
    ⟨_, head?_eq_some_head (by simp)⟩
  have hlastS : (samples ++ [sample]).getLast? = some sample := by simp
  have hnewer : ∀ s ∈ samples ++ [sample], s.1 ≤ sample.1 :=
    fun s hs => (hm.head_le_last holdest hlastS hs).2.1
  have ht : ∀ elem ∈ elems ++ [sampleElement sample], ∃ s ∈ samples ++ [sample], s.1 = elem.time :=
    fun elem helem => (mem_summarizes hadjacent elem helem).2
  refine accurate_append oldest.1 (hp sample (by simp) oldest (mem_of_head? holdest))
    hconsecutive ?_ fun elem helem => ?_
  · -- Ages have grown, and the new element spans nothing.
    intro elem helem
    rcases mem_append.mp helem with hold | hnew
    · obtain ⟨back, hb⟩ : ∃ back, elems.getLast? = some back :=
        ⟨_, getLast?_eq_getLast_of_ne_nil (ne_nil_of_mem hold)⟩
      obtain ⟨last, hlast'⟩ : ∃ last, samples.getLast? = some last :=
        ⟨_, hlast.symm.trans (by rw [hb]; rfl)⟩
      have hage := h.accurate last hlast' elem hold
      have hlastNow := hnewer last (mem_append_left _ (mem_of_getLast? hlast'))
      omega
    · rw [mem_singleton.mp hnew]
      simp [sampleElement]
  · obtain ⟨s, hs, heq⟩ := ht elem helem
    rw [← heq]
    exact ⟨(hm.head_le_last holdest hlastS hs).1, hnewer s hs⟩

theorem accept_subset (samples : List Sample) (sample : Sample) :
    samples ⊆ acceptSample samples sample := by
  unfold acceptSample
  split_ifs
  · exact Subset.refl _
  · exact subset_append_left _ _

theorem foldl_accept_subset :
    ∀ (calls samples : List Sample), samples ⊆ calls.foldl acceptSample samples
  | [], _ => Subset.refl _
  | sample :: calls, samples =>
    Subset.trans (accept_subset samples sample) (foldl_accept_subset calls (acceptSample samples sample))

theorem historyOk_run {thinningFactor : ℕ} :
    ∀ (calls samples : List Sample) (elems : List WatermarkHistoryElement),
    HistoryOk thinningFactor samples elems →
    ProductsFit thinningFactor (calls.foldl acceptSample samples) → HistoryOk thinningFactor
      (calls.foldl acceptSample samples) (calls.foldl (appendWatermark thinningFactor) elems)
  | [], _, _, h, _ => h
  | sample :: calls, samples, elems, h, hp => by
    have hsub := foldl_accept_subset calls (acceptSample samples sample)
    exact historyOk_run calls _ _ (historyOk_append h sample fun s hs s' hs' =>
      hp s (hsub hs) s' (hsub hs')) hp

theorem historyOk_watermarkHistory {calls : List Sample}
    (hp : ProductsFit thinningFactor (acceptedSamples calls)) :
    HistoryOk thinningFactor (acceptedSamples calls) (watermarkHistory thinningFactor calls) :=
  historyOk_run calls [] [] ⟨.nil, .nil, by simp, rfl⟩ hp

/-! ### Reach instants -/

def firstReach (samples : List Sample) (watermark : ℕ) : Option Sample :=
  samples.find? fun sample => decide (watermark ≤ sample.2)

/-- The first element that reaches a watermark stands for the first sample that does. -/
theorem find_spec (watermark : ℕ) :
    ∀ {elems : List WatermarkHistoryElement} {samples : List Sample},
    Summarizes watermarkOps.merge (sampleElements samples) elems → SamplesMonotone samples →
    (elems.find? (fun elem => decide (watermark ≤ elem.watermark)) = none ∧
      firstReach samples watermark = none) ∨
    ∃ elem sample, elems.find? (fun elem => decide (watermark ≤ elem.watermark)) = some elem ∧
      elem ∈ elems ∧ firstReach samples watermark = some sample ∧ elem.firstSampleTime ≤ sample.1 ∧
      sample.1 ≤ elem.time
  | [], samples, h, _ => by
    rw [eq_nil_of_summarizes h]
    exact .inl ⟨rfl, rfl⟩
  | _ :: elems, samples, h, hmonotone => by
    obtain ⟨stretch, rest, oldest, newest, rfl, ho, hnew, rfl, hrest⟩ := summarizes_cons h
    obtain ⟨hstretch, hafter, -⟩ := pairwise_append.mp hmonotone
    have hb : ∀ s ∈ stretch, oldest.1 ≤ s.1 ∧ s.1 ≤ newest.1 ∧ s.2 ≤ newest.2 := fun s hs =>
      SamplesMonotone.head_le_last hstretch ho hnew hs
    by_cases hreach : watermark ≤ newest.2
    · -- The newest sample of the stretch reaches it, so some first one does.
      obtain ⟨sample, hsample⟩ : ∃ sample, firstReach stretch watermark = some sample :=
        Option.isSome_iff_exists.mp
          (find?_isSome.mpr ⟨newest, mem_of_getLast? hnew, decide_eq_true hreach⟩)
      obtain ⟨hfirst, hlast, -⟩ := hb sample (mem_of_find?_eq_some hsample)
      refine .inr ⟨⟨newest.1, newest.2, oldest.1⟩, sample, ?_, mem_cons_self, ?_, hfirst, hlast⟩
      · rw [find?_cons_of_pos (by simpa using hreach)]
      · rw [firstReach] at hsample ⊢
        rw [find?_append, hsample, Option.some_or]
    · have hnone : stretch.find? (fun sample => decide (watermark ≤ sample.2)) = none := by
        refine find?_eq_none.mpr fun s hs hle => hreach ?_
        exact (of_decide_eq_true hle).trans (hb s hs).2.2
      have hskip : firstReach (stretch ++ rest) watermark = firstReach rest watermark := by
        rw [firstReach, find?_append, hnone, Option.none_or, firstReach]
      rw [find?_cons_of_neg (by simpa using hreach), hskip]
      rcases find_spec watermark hrest hafter with h | ⟨elem, sample, hfind, hmem, h⟩
      · exact .inl h
      · exact .inr ⟨elem, sample, hfind, mem_cons_of_mem _ hmem, h⟩

/-- What `FindReachInstant` finds for a watermark above the first accepted one. -/
theorem findReachInstant_spec (h : HistoryOk thinningFactor samples elems) {first : Sample}
    (hfirst : samples.head? = some first) {wm : ℕ} (hw : first.2 < wm) :
    (findReachInstant elems wm = some infinitySystemTimestamp ∧ firstReach samples wm = none) ∨
    ∃ result sample, findReachInstant elems wm = some result ∧ result ≤ sample.1 ∧
      firstReach samples wm = some sample ∧
      ∀ newest ∈ samples.getLast?, (sample.1 - result) * thinningFactor ≤ newest.1 - sample.1 := by
  have hfront : elems.head? = some (sampleElement first) := by
    rw [h.anchor, hfirst, Option.map_some]
  have habove : ¬(elems.head?.all fun front => decide (wm ≤ front.watermark)) = true := by
    rw [hfront]
    simpa [sampleElement] using hw
  rw [findReachInstant, if_neg habove]
  rcases find_spec wm h.summarizes h.monotone
    with ⟨hnone, hr⟩ | ⟨elem, sample, hfind, hm, hr, hle, hge⟩
  · rw [hnone]
    exact .inl ⟨rfl, hr⟩
  · rw [hfind]
    refine .inr ⟨elem.firstSampleTime, sample, rfl, hle, hr, fun newest hnew => ?_⟩
    have haccurate := h.accurate newest hnew elem hm
    have hs : (sample.1 - elem.firstSampleTime) * thinningFactor ≤
        (elem.time - elem.firstSampleTime) * thinningFactor := Nat.mul_le_mul_right _ (by omega)
    omega

/-! ### Trigger reach -/

def Reached (samples : List Sample) (watermark : ℕ) : Prop :=
  ∃ sample ∈ samples, watermark ≤ sample.2

theorem firstReach_eq_none {watermark : ℕ} : firstReach samples watermark = none ↔
    ¬Reached samples watermark := by
  simp [firstReach, Reached]

def FiniteInstants (samples : List Sample) : Prop :=
  ∀ sample ∈ samples, sample.1 < infinitySystemTimestamp

/-- What the loop of `ResolveTriggerReach` learns from the history of one stream. -/
theorem findReachInstant_cases (h : HistoryOk thinningFactor samples elems)
    (hfin : FiniteInstants samples)
    (hne : samples ≠ []) (wm : ℕ) : (findReachInstant elems wm = none ∧ Reached samples wm) ∨
    (findReachInstant elems wm = some infinitySystemTimestamp ∧ ¬Reached samples wm) ∨
    ∃ result, findReachInstant elems wm = some result ∧ result < infinitySystemTimestamp ∧
      Reached samples wm ∧ ∀ sample ∈ samples, wm ≤ sample.2 → result ≤ sample.1 := by
  obtain ⟨first, rest, rfl⟩ := exists_cons_of_ne_nil hne
  by_cases hfirst : wm ≤ first.2
  · refine .inl ⟨?_, first, mem_cons_self, hfirst⟩
    rw [findReachInstant, h.anchor, if_pos (by simpa [sampleElement] using hfirst)]
  · rcases findReachInstant_spec h rfl (not_le.mp hfirst)
      with ⟨hfind, hreach⟩ | ⟨result, sample, hfind, hle, hreach, -⟩
    · exact .inr (.inl ⟨hfind, firstReach_eq_none.mp hreach⟩)
    · have hmem := mem_of_find?_eq_some hreach
      have hsample : wm ≤ sample.2 := by simpa using find?_some hreach
      refine .inr (.inr ⟨result, hfind, hle.trans_lt (hfin sample hmem), ⟨sample, hmem, hsample⟩,
        fun s hs hreaches => ?_⟩)
      -- The first sample that reaches the watermark is the oldest that does.
      obtain ⟨-, before, after, heq, hb⟩ := find?_eq_some_iff_append.mp hreach
      rw [heq] at hs
      have hmonotone := h.monotone
      rw [heq] at hmonotone
      rcases mem_append.mp hs with hs | hs
      · simpa [hreaches] using hb s hs
      · rcases mem_cons.mp hs with rfl | hs
        · exact hle
        · have := (pairwise_cons.mp (pairwise_append.mp hmonotone).2.1).1 s hs
          omega

section Resolve

variable {ι : Type} {thinningFactor triggerTimestamp : ℕ} {calls : ι → Option (List Sample)}

def histories (thinningFactor : ℕ) (calls : ι → Option (List Sample)) (streamId : ι) :
    Option (List WatermarkHistoryElement) :=
  (calls streamId).map (watermarkHistory thinningFactor)

/-- The appends of every stream: finite instants, and products that fit. -/
def CallsOk (thinningFactor : ℕ) (calls : ι → Option (List Sample)) : Prop :=
  ∀ streamId, ∀ samples ∈ calls streamId,
    ProductsFit thinningFactor (acceptedSamples samples) ∧ FiniteInstants (acceptedSamples samples)

def Lags (triggerTimestamp : ℕ) (calls : ι → Option (List Sample)) (stream : ι × ℕ) : Prop :=
  ∃ samples ∈ calls stream.1, acceptedSamples samples ≠ [] ∧
    ¬Reached (acceptedSamples samples) (reachKey triggerTimestamp stream.2)

/-- By the instant every watched stream has reached its key. -/
def ReachedBy (triggerTimestamp : ℕ) (calls : ι → Option (List Sample)) (streams : List (ι × ℕ))
    (instant : ℕ) : Prop :=
  ∀ stream ∈ streams, ∃ samples ∈ calls stream.1, ∃ sample ∈ acceptedSamples samples,
    sample.1 ≤ instant ∧ reachKey triggerTimestamp stream.2 ≤ sample.2

/-- One stream of the loop: it lags, it tells nothing, or it gives a finite reach instant. -/
theorem resolveLoop_cons (hc : CallsOk thinningFactor calls) (stream : ι × ℕ)
    (streams : List (ι × ℕ)) (state : ResolveState) : (Lags triggerTimestamp calls stream ∧
      resolveLoop triggerTimestamp (histories thinningFactor calls) (stream :: streams) state =
        some infinitySystemTimestamp) ∨ (¬Lags triggerTimestamp calls stream ∧ ∃ state',
      resolveLoop triggerTimestamp (histories thinningFactor calls) (stream :: streams) state =
        resolveLoop triggerTimestamp (histories thinningFactor calls) streams state' ∧
      (state'.reachedMax = state.reachedMax ∨ ∃ reach,
        state'.reachedMax = maxWith state.reachedMax reach ∧ reach < infinitySystemTimestamp ∧
          ∀ samples ∈ calls stream.1, ∀ sample ∈ acceptedSamples samples,
          reachKey triggerTimestamp stream.2 ≤ sample.2 → reach ≤ sample.1)) := by
  obtain ⟨streamId, delay⟩ := stream
  rw [resolveLoop]
  cases hstream : calls streamId with
  | none =>
    right
    exact ⟨by simp [Lags, hstream], { state with unresolvable := true },
      by simp [histories, hstream], .inl rfl⟩
  | some samples =>
    obtain ⟨hp, hfin⟩ := hc streamId samples hstream
    have hok := historyOk_watermarkHistory hp
    have hlags : Lags triggerTimestamp calls (streamId, delay) ↔
        acceptedSamples samples ≠ [] ∧
            ¬Reached (acceptedSamples samples) (reachKey triggerTimestamp delay) := by
      simp [Lags, hstream]
    have hh : histories thinningFactor calls streamId =
        some (watermarkHistory thinningFactor samples) := by
      rw [histories, hstream, Option.map_some]
    rw [hh, hlags]
    cases helem : watermarkHistory thinningFactor samples with
    | nil =>
      have ha := hok.anchor
      rw [helem] at ha
      have hempty : acceptedSamples samples = [] :=
        head?_eq_none_iff.mp (Option.map_eq_none_iff.mp ha.symm)
      exact .inr ⟨fun h => h.1 hempty, { state with unresolvable := true }, rfl, .inl rfl⟩
    | cons front elems =>
      rw [helem] at hok
      have hne : acceptedSamples samples ≠ [] := fun hempty => by
        have ha := hok.anchor
        rw [hempty] at ha
        exact absurd ha (by simp)
      dsimp only
      rcases findReachInstant_cases hok hfin hne (reachKey triggerTimestamp delay) with
        ⟨hfind, hr⟩ | ⟨hfind, hr⟩ | ⟨result, hfind, hlt, hr, hle⟩
      · rw [hfind]
        exact .inr ⟨fun h => h.2 hr, _, rfl, .inl rfl⟩
      · rw [hfind]
        exact .inl ⟨⟨hne, hr⟩, if_pos rfl⟩
      · rw [hfind]
        refine .inr ⟨fun h => h.2 hr, { state with reachedMax := maxWith state.reachedMax result },
          if_neg hlt.ne, .inr ⟨result, rfl, hlt, fun samples' hsample' => ?_⟩⟩
        rw [← Option.some.inj hsample']
        exact hle

theorem forall_mem_maxWith {P : ℕ → Prop} {value : Option ℕ} {new : ℕ} (hz : P 0)
    (hv : ∀ reached ∈ value, P reached)
    (hn : P new) : ∀ reached ∈ maxWith value new, P reached := by
  intro reached hr
  obtain rfl : max (value.getD zeroSystemTimestamp) new = reached := Option.some.inj hr
  rcases max_choice (value.getD zeroSystemTimestamp) new with h | h
  · rw [h]
    cases value with
    | none => exact hz
    | some old => exact hv old rfl
  · rwa [h]

variable (triggerTimestamp) in
/-- The loop: it ends at infinity exactly when a stream lags, and a finite result is no later than
any instant by which all streams have reached their keys. -/
theorem resolveLoop_spec (hc : CallsOk thinningFactor calls) :
    ∀ (streams : List (ι × ℕ)) (state : ResolveState),
    (∀ reached ∈ state.reachedMax, reached < infinitySystemTimestamp) →
    (resolveLoop triggerTimestamp (histories thinningFactor calls) streams state =
      some infinitySystemTimestamp ↔ ∃ stream ∈ streams, Lags triggerTimestamp calls stream) ∧
    ∀ instant, (∀ reached ∈ state.reachedMax, reached ≤ instant) →
    ReachedBy triggerTimestamp calls streams instant →
      ∀ result ∈ resolveLoop triggerTimestamp (histories thinningFactor calls) streams state,
        result ≠ infinitySystemTimestamp → result ≤ instant
  | [], state, hfin => by
    have hfinish : ∀ result, finishResolve state = some result → result ∈ state.reachedMax :=
        fun result h => by
      unfold finishResolve at h
      generalize state.reachedMax = reachedMax at h
      cases reachedMax with
      | none => simp at h
      | some reached =>
        dsimp only at h
        split_ifs at h
        exact h
    rw [resolveLoop]
    refine ⟨⟨fun h => absurd (hfin _ (hfinish _ h)) (lt_irrefl _), by simp⟩,
      fun instant hi _ result hres _ => ?_⟩
    exact hi result (hfinish result hres)
  | stream :: streams, state, hfin => by
    rcases resolveLoop_cons hc stream streams state with ⟨hlags, heq⟩ | ⟨hlags, state', heq, hstate⟩
    · rw [heq]
      refine ⟨iff_of_true rfl ⟨stream, mem_cons_self, hlags⟩, fun instant _ _ result hres hne => ?_⟩
      exact absurd (Option.some.inj hres).symm hne
    · have hfin' : ∀ reached ∈ state'.reachedMax, reached < infinitySystemTimestamp := by
        rcases hstate with hsame | ⟨reach, hm, hlt, -⟩
        · rwa [hsame]
        · rw [hm]
          exact forall_mem_maxWith (by decide) hfin hlt
      obtain ⟨ih, ih'⟩ := resolveLoop_spec hc streams state' hfin'
      rw [heq]
      constructor
      · rw [ih, exists_mem_cons_iff, or_iff_right hlags]
      · intro instant hi hby
        obtain ⟨⟨samples, hsamples, sample, hsample, hle, hk⟩, hrest⟩ := forall_mem_cons.mp hby
        refine ih' instant ?_ hrest
        rcases hstate with hsame | ⟨reach, hm, -, hear⟩
        · rwa [hsame]
        · rw [hm]
          exact forall_mem_maxWith (Nat.zero_le _) hi
            ((hear samples hsamples sample hsample hk).trans hle)

/-- Reach instants are conservative and accurate, and so are those of trigger conditions. -/
theorem watermark_reach (thinningFactor : ℕ) :
    (∀ calls : List Sample, ProductsFit thinningFactor (acceptedSamples calls) →
      FiniteInstants (acceptedSamples calls) →
      ∀ first ∈ (acceptedSamples calls).head?, ∀ watermark, first.2 < watermark →
        ∃ result, findReachInstant (watermarkHistory thinningFactor calls) watermark = some result ∧
          (result = infinitySystemTimestamp ↔ ∀ sample ∈ acceptedSamples calls,
            sample.2 < watermark) ∧ ∀ sample ∈ firstReach (acceptedSamples calls) watermark,
            ∀ newest ∈ (acceptedSamples calls).getLast?,
            result ≤ sample.1 ∧ (sample.1 - result) * thinningFactor ≤ newest.1 - sample.1) ∧
    ∀ (ι : Type) (calls : ι → Option (List Sample)) (condition : TimerTriggerCondition ι)
      (history : PipelineWatermarkHistory ι) (triggerTimestamp now : ℕ),
        CallsOk thinningFactor calls → condition.timeType ≠ .currentTime →
      history.get condition.timeType = histories thinningFactor calls →
        (∀ result ∈ resolveTriggerReach condition triggerTimestamp history now,
          result ≠ infinitySystemTimestamp →
          ∀ instant, ReachedBy triggerTimestamp calls condition.streamsWithDelays instant →
            result ≤ instant) ∧ (triggerTimestamp ≠ zeroSystemTimestamp →
          (resolveTriggerReach condition triggerTimestamp history now =
            some infinitySystemTimestamp ↔
            ∃ stream ∈ condition.streamsWithDelays, Lags triggerTimestamp calls stream)) := by
  refine ⟨fun calls hproducts hfinite first hfirst watermark hwatermark => ?_,
    fun ι calls condition history triggerTimestamp now hcalls htype hhistory => ?_⟩
  · have hok := historyOk_watermarkHistory hproducts
    have hnone : firstReach (acceptedSamples calls) watermark = none ↔
        ∀ sample ∈ acceptedSamples calls, sample.2 < watermark := by
      simp [firstReach_eq_none, Reached]
    rcases findReachInstant_spec hok hfirst hwatermark
      with ⟨hfind, hreach⟩ | ⟨result, sample, hfind, hle, hreach, haccurate⟩
    · refine ⟨infinitySystemTimestamp, hfind, iff_of_true rfl (hnone.mp hreach),
        fun sample hsample => ?_⟩
      rw [hreach] at hsample
      exact absurd hsample (by simp)
    · have hmem := mem_of_find?_eq_some hreach
      refine ⟨result, hfind, iff_of_false (hle.trans_lt (hfinite sample hmem)).ne ?_,
        fun sample' hsample' newest hnewest => ?_⟩
      · rw [← hnone, hreach]
        simp
      · obtain rfl : sample = sample' := Option.mem_unique hreach hsample'
        exact ⟨hle, haccurate newest hnewest⟩
  · rw [resolveTriggerReach, if_neg htype, hhistory]
    obtain ⟨hinfinite, hbefore⟩ := resolveLoop_spec triggerTimestamp hcalls
      condition.streamsWithDelays ⟨none, none, false⟩ (by simp)
    constructor
    · intro result hresult hne instant hby
      split_ifs at hresult with hzero
      · obtain rfl : zeroSystemTimestamp = result := Option.some.inj hresult
        exact Nat.zero_le _
      · exact hbefore instant (by simp) hby result hresult hne
    · intro htrigger
      by_cases hempty : condition.streamsWithDelays.isEmpty
      · rw [if_pos (.inl hempty), isEmpty_iff.mp hempty]
        exact iff_of_false (by decide) (by simp)
      · rw [if_neg (by simp [hempty, htrigger])]
        exact hinfinite

end Resolve

/-- Four appends to the history of one stream. -/
def fourSamples : List Sample := [(1, 5), (3, 7), (4, 9), (20, 11)]

/-- The stream is found to reach 8, and a trigger at 6 with a delay of 2 resolves to a reach
instant. -/
theorem watermark_reach_example :
    (∃ result, findReachInstant (watermarkHistory 2 fourSamples) 8 = some result ∧
      (result = infinitySystemTimestamp ↔ ∀ sample ∈ acceptedSamples fourSamples, sample.2 < 8) ∧
      ∀ sample ∈ firstReach (acceptedSamples fourSamples) 8,
        ∀ newest ∈ (acceptedSamples fourSamples).getLast?,
        result ≤ sample.1 ∧ (sample.1 - result) * 2 ≤ newest.1 - sample.1) ∧
    ∀ result ∈ resolveTriggerReach ⟨.eventTime, [((), 2)]⟩ 6
      ⟨histories 2 fun _ => some fourSamples, fun _ => none⟩ 100, result ≤ 4 := by
  have hproducts : ProductsFit 2 (acceptedSamples fourSamples) := by
    unfold ProductsFit
    decide
  have hfinite : FiniteInstants (acceptedSamples fourSamples) := by
    unfold FiniteInstants
    decide
  obtain ⟨hfind, hresolve⟩ := watermark_reach 2
  refine ⟨hfind fourSamples hproducts hfinite (1, 5) rfl 8 (by decide), fun result hresult => ?_⟩
  have hcalls : CallsOk 2 fun _ : Unit => some fourSamples := by
    intro _ samples hsamples
    obtain rfl := Option.some.inj hsamples
    exact ⟨hproducts, hfinite⟩
  have hne : result ≠ infinitySystemTimestamp := by
    rintro rfl
    revert hresult
    decide
  refine (hresolve Unit _ ⟨.eventTime, [((), 2)]⟩ _ 6 100 hcalls (by decide) rfl).1 result
    hresult hne 4 ?_
  rintro stream (_ | ⟨_, ⟨⟩⟩)
  exact ⟨fourSamples, rfl, (4, 9), by decide, le_rfl, by decide⟩

/-- The zero trigger timestamp counts as reached whatever the delays: the stream below has not
reached ten seconds, but the result is finite. A watermark that is reached at the infinite instant
counts as not reached. -/
theorem resolveTriggerReach_zero : resolveTriggerReach ⟨.eventTime, [((), 10)]⟩ 0
      ⟨histories 2 fun _ => some [(1, 5)], fun _ => none⟩ 100 = some 0 ∧
      (histories 2 (fun _ => some [(1, 5)]) ()) = some [⟨1, 5, 1⟩] ∧
      (∀ sample ∈ acceptedSamples [(1, 5)], ¬0 + 10 ≤ sample.2) ∧
      findReachInstant (watermarkHistory 2 [(1, 5), (infinitySystemTimestamp, 9)]) 8 =
        some infinitySystemTimestamp ∧
      ∃ sample ∈ acceptedSamples [(1, 5), (infinitySystemTimestamp, 9)], 8 ≤ sample.2 := by
  decide

end Ytsaurus.Flow
