/-
# Compression of key bounds

`client/table_client/key_bound_compressor.cpp`: the compressor sorts the bounds that were added,
together with their inverses, and gives each one two images. `Global` numbers the runs of bounds
that are equal, inverse to each other, or of full length with one prefix. `ComponentWise` replaces
every value of the prefix by its number among the bounds that share the values before it.

In a sorted segment of bounds with common first values the bounds that end there lie at the two
ends, so a run of one value is not split by them (`run_lt_later`). That makes the images compare as
the bounds do.
-/
import Ytsaurus.Lib.Search
import Ytsaurus.TableClient.LegacyRow

namespace Ytsaurus.TableClient

open List Comparator

section

variable {α : Type} [LinearOrder α]

/-! ### The code -/

/-- `Add`, to the set of the bounds added so far. -/
def addKeyBound (added : List (KeyBound α)) (keyBound : KeyBound α) :
    Result (List (KeyBound α)) := do
  ytVerify keyBound.keyPrefix.isSome
  let inverted ← keyBound.invert
  return insert inverted (insert keyBound added)

def addKeyBounds (keyBounds : List (KeyBound α)) : Result (List (KeyBound α)) :=
  keyBounds.foldlM addKeyBound []

/-- What `std::sort` may make of the set: any order in which no bound comes before a lesser one. -/
def SortsTo (c : Comparator) (added sorted : List (KeyBound α)) : Prop :=
  sorted.Perm added ∧ sorted.Pairwise c.BoundLE

/-- The condition under which a bound gets the global image of the first bound of the run. -/
def sameGlobal (c : Comparator) (beginBound endBound : KeyBound α) : Bool :=
  decide (beginBound = endBound) || decide (beginBound.invert = .ok endBound) ||
    (decide (beginBound.keyPrefix = endBound.keyPrefix) &&
      decide (beginBound.values.length = c.getLength))

/-- The loop of `InitializeMapping` that assigns the global images. -/
def globalImages (c : Comparator) : List (KeyBound α) → ℤ → List (KeyBound α × ℤ)
  | [], _ => []
  | beginBound :: rest, currentImage =>
    (beginBound, currentImage) :: (rest.takeWhile (sameGlobal c beginBound)).map (·, currentImage) ++
      globalImages c (rest.dropWhile (sameGlobal c beginBound)) (currentImage + 1)
termination_by sorted => sorted.length
decreasing_by exact Nat.lt_succ_of_le (dropWhile_sublist _).length_le

/-- The condition under which a bound belongs to the run of a value. -/
def sameComponent (componentIndex : ℕ) (beginBound endBound : KeyBound α) : Bool :=
  decide (componentIndex < endBound.values.length) &&
    decide (endBound.values[componentIndex]? = beginBound.values[componentIndex]?)

/-- The loop of `CalculateComponentWise`: bounds that are too short are skipped, a run of one value
gets the current image in front of what `next` gives it. -/
def componentRuns (next : List (KeyBound α) → List (KeyBound α × List ℤ)) (componentIndex : ℕ) :
    List (KeyBound α) → ℤ → List (KeyBound α × List ℤ)
  | [], _ => []
  | beginBound :: rest, currentImage =>
    if beginBound.values.length ≤ componentIndex then
      (beginBound, []) :: componentRuns next componentIndex rest currentImage
    else
      (next (beginBound :: rest.takeWhile (sameComponent componentIndex beginBound))).map
          (fun image => (image.1, currentImage :: image.2)) ++
        componentRuns next componentIndex (rest.dropWhile (sameComponent componentIndex beginBound))
          (currentImage + 1)
termination_by segment => segment.length
decreasing_by
  · exact Nat.lt_succ_self _
  · exact Nat.lt_succ_of_le (dropWhile_sublist _).length_le

/-- `CalculateComponentWise` of a segment, with the number of components that are left. -/
def componentImages : ℕ → ℕ → List (KeyBound α) → List (KeyBound α × List ℤ)
  | 0, _, segment => segment.map (·, [])
  | left + 1, componentIndex, segment =>
    componentRuns (componentImages left (componentIndex + 1)) componentIndex segment 0

/-- `TImage`. -/
structure KeyBoundImage where
  componentWise : KeyBound ℤ
  global : ℤ
  deriving DecidableEq, Repr

/-- `GetImage`, once `InitializeMapping` has sorted the bounds. -/
def getImage (c : Comparator) (sorted : List (KeyBound α)) (keyBound : KeyBound α) :
    Result KeyBoundImage := do
  let images ← getOrCrash (componentImages c.getLength 0 sorted) keyBound
  let global ← getOrCrash (globalImages c sorted 0) keyBound
  return ⟨⟨some images, keyBound.isInclusive, keyBound.isUpper⟩, global⟩

/-! ### The bounds added -/

variable {bound : KeyBound α}

omit [LinearOrder α] in
theorem invert_eq (h : bound.keyPrefix.isSome) :
    bound.invert = .ok ⟨bound.keyPrefix, !bound.isInclusive, !bound.isUpper⟩ := by
  rw [KeyBound.invert, ytVerify_true h]
  rfl

/-- A bound that was added, or the inverse of one. -/
def IsAdded (keyBounds : List (KeyBound α)) (bound : KeyBound α) : Prop :=
  bound ∈ keyBounds ∨ ∃ source ∈ keyBounds, source.invert = .ok bound

theorem foldlM_addKeyBound : ∀ (keyBounds added : List (KeyBound α)),
    (∀ b ∈ keyBounds, b.keyPrefix.isSome) →
    ∃ result, keyBounds.foldlM addKeyBound added = .ok result ∧
      ∀ bound, bound ∈ result ↔ bound ∈ added ∨ IsAdded keyBounds bound
  | [], added, _ => ⟨added, rfl, by simp [IsAdded]⟩
  | keyBound :: keyBounds, added, hs => by
    have hf := hs keyBound (by simp)
    obtain ⟨result, hr, hm⟩ := foldlM_addKeyBound keyBounds
      (List.insert ⟨keyBound.keyPrefix, !keyBound.isInclusive, !keyBound.isUpper⟩
        (List.insert keyBound added))
      fun b hb => hs b (by simp [hb])
    refine ⟨result, ?_, fun bound => ?_⟩
    · rw [foldlM_cons, addKeyBound, ytVerify_true hf, invert_eq hf]
      exact hr
    · simp only [hm, mem_insert_iff, IsAdded, mem_cons, exists_eq_or_imp, invert_eq hf, Except.ok.injEq]
      tauto

theorem addKeyBounds_spec (keyBounds : List (KeyBound α))
    (hs : ∀ b ∈ keyBounds, b.keyPrefix.isSome) : ∃ added, addKeyBounds keyBounds = .ok added ∧
      ∀ bound, bound ∈ added ↔ IsAdded keyBounds bound := by
  obtain ⟨added, hok, hm⟩ := foldlM_addKeyBound keyBounds [] hs
  exact ⟨added, hok, fun bound => by simpa using hm bound⟩

variable {keyBounds : List (KeyBound α)}

omit [LinearOrder α] in
theorem IsAdded.isSome (hsome : ∀ b ∈ keyBounds, b.keyPrefix.isSome)
    (h : IsAdded keyBounds bound) : bound.keyPrefix.isSome := by
  obtain h | ⟨source, hsource, hi⟩ := h
  · exact hsome bound h
  · have hs := hsome source hsource
    rw [invert_eq hs] at hi
    exact Except.ok.inj hi ▸ hs

omit [LinearOrder α] in
theorem IsAdded.fits {c : Comparator} (hsome : ∀ b ∈ keyBounds, b.keyPrefix.isSome)
    (hf : ∀ b ∈ keyBounds, c.Fits b) (h : IsAdded keyBounds bound) : c.Fits bound := by
  obtain h | ⟨source, hsource, hi⟩ := h
  · exact hf bound h
  · rw [invert_eq (hsome source hsource)] at hi
    exact Except.ok.inj hi ▸ hf source hsource

/-! ### Cuts from a component on -/

variable (c : Comparator)

/-- The cuts of two bounds, compared from a component on. -/
def Comparator.cutFrom (k : ℕ) (a b : KeyBound α) : ℤ :=
  Lib.compareCut c.compareValues k ((a.values.drop k).map Value.data) (toKeyBoundRef a).after
    ((b.values.drop k).map Value.data) (toKeyBoundRef b).after

theorem cutFrom_zero (a b : KeyBound α) : c.cutFrom 0 a b = c.cutCompare a b := rfl

theorem compareValues_eq_zero (k : ℕ) (x y : Value α) (h : c.compareValues k x y = 0) : x = y := by
  have hxy : compareRowValues x y = 0 := by
    unfold compareValues at h
    split_ifs at h <;> omega
  have hyx := compareRowValues_neg x y
  exact le_antisymm (show x ≤ y from Value.le_def.mpr (by omega)) (Value.le_def.mpr (by omega))

variable {k : ℕ} {u : α}

omit [LinearOrder α] in
theorem drop_eq_cons {values : List α} (h : values[k]? = some u) :
    values.drop k = u :: values.drop (k + 1) := by
  obtain ⟨hk, rfl⟩ := List.getElem?_eq_some_iff.mp h
  exact drop_eq_getElem_cons hk

variable {a b : KeyBound α} {v : α}

theorem cutFrom_of_some (ha : a.values[k]? = some u) (hb : b.values[k]? = some v) :
    c.cutFrom k a b =
      if c.compareValues k (.data u) (.data v) ≠ 0 then c.compareValues k (.data u) (.data v)
      else c.cutFrom (k + 1) a b := by
  unfold cutFrom
  rw [drop_eq_cons ha, drop_eq_cons hb, map_cons, map_cons, Lib.compareCut]

theorem cutFrom_short_left (ha : a.values.length ≤ k)
    (hb : b.values[k]? = some v) : c.cutFrom k a b = if (toKeyBoundRef a).after then 1 else -1 := by
  unfold cutFrom
  rw [drop_of_length_le ha, drop_eq_cons hb, map_nil, map_cons, Lib.compareCut]

theorem cutFrom_short_right (ha : a.values[k]? = some u)
    (hb : b.values.length ≤ k) : c.cutFrom k a b = if (toKeyBoundRef b).after then -1 else 1 := by
  unfold cutFrom
  rw [drop_of_length_le hb, drop_eq_cons ha, map_nil, map_cons, Lib.compareCut]

theorem cutFrom_short (ha : a.values.length ≤ k) (hb : b.values.length ≤ k) :
    c.cutFrom k a b = (toKeyBoundRef a).after.toInt - (toKeyBoundRef b).after.toInt := by
  unfold cutFrom
  rw [drop_of_length_le ha, drop_of_length_le hb, map_nil, Lib.compareCut]

theorem cutFrom_neg (k : ℕ) (a b : KeyBound α) : c.cutFrom k a b = -c.cutFrom k b a :=
  Lib.compareCut_neg c.signCmp_compareValues k _ _ _ _

theorem compareValues_le_of_cutFrom (ha : a.values[k]? = some u) (hb : b.values[k]? = some v)
    (h : c.cutFrom k a b ≤ 0) : c.compareValues k (.data u) (.data v) ≤ 0 := by
  rw [cutFrom_of_some c ha hb] at h
  split_ifs at h <;> omega

/-- In a sorted segment the bounds after the run of a value that have the component have a later
value. -/
theorem run_lt_later {first : KeyBound α} {rest : List (KeyBound α)}
    (hbegin : first.values[k]? = some u)
    (hs : (first :: rest).Pairwise fun a b => c.cutFrom k a b ≤ 0) {e : KeyBound α}
    (he : e ∈ rest.dropWhile (sameComponent k first)) (hv : e.values[k]? = some v) :
    c.compareValues k (.data u) (.data v) < 0 := by
  obtain ⟨hh, ht⟩ := pairwise_cons.mp hs
  obtain ⟨e0, hm, hbreak, hle⟩ := Lib.exists_break ht he
  have hb0 := hh e0 hm
  cases h0 : e0.values[k]? with
  | none =>
    -- a bound that ends here lies after the run, so nothing longer lies after it
    rw [getElem?_eq_none_iff] at h0
    rw [cutFrom_short_right c hbegin h0] at hb0
    obtain rfl | hle := hle
    · exact absurd (Lib.lt_of_getElem? hv) (by omega)
    · rw [cutFrom_short_left c h0 hv] at hle
      split_ifs at hb0 hle <;> omega
  | some w =>
    have hne : w ≠ u := by
      rintro rfl
      have hlt := Lib.lt_of_getElem? h0
      rw [sameComponent, h0, hbegin, decide_eq_true hlt, decide_eq_true rfl] at hbreak
      exact absurd hbreak nofun
    have huw : c.compareValues k (.data u) (.data w) < 0 := by
      refine lt_of_le_of_ne (compareValues_le_of_cutFrom c hbegin h0 hb0) fun h => ?_
      exact hne (Value.data.inj (compareValues_eq_zero c k _ _ h)).symm
    obtain rfl | hle := hle
    · exact Option.mem_unique h0 hv ▸ huw
    · exact (c.signCmp_compareValues k).lt_of_lt_of_le huw (compareValues_le_of_cutFrom c h0 hv hle)

/-! ### Component-wise images -/

/-- The images of two bounds, compared as an ascending comparator does. -/
def imageCut (p q : KeyBound α × List ℤ) : ℤ :=
  Lib.compareCut (fun _ => compareRowValues) 0 (p.2.map Value.data) (toKeyBoundRef p.1).after
    (q.2.map Value.data) (toKeyBoundRef q.1).after

/-- The images compare as the bounds do from a component on. -/
def Agree (k : ℕ) (p q : KeyBound α × List ℤ) : Prop :=
  (imageCut p q).sign = (c.cutFrom k p.1 q.1).sign

/-- The images of a segment have the right lengths and compare as the bounds do from a component on.
-/
structure Mirrors (k : ℕ) (images : List (KeyBound α × List ℤ)) : Prop where
  length_eq : ∀ p ∈ images, p.2.length = p.1.values.length - k
  agree : ∀ p ∈ images, ∀ q ∈ images, Agree c k p q

theorem compareCut_index {β : Type} {f : β → β → ℤ} :
    ∀ (i j : ℕ) (xs : List β) (a : Bool) (ys : List β) (b : Bool),
    Lib.compareCut (fun _ => f) i xs a ys b = Lib.compareCut (fun _ => f) j xs a ys b
  | _, _, [], _, [], _ | _, _, [], _, _ :: _, _ | _, _, _ :: _, _, [], _ => rfl
  | i, j, x :: xs, a, y :: ys, b => by
    rw [Lib.compareCut, Lib.compareCut, compareCut_index (i + 1) (j + 1) xs a ys b]

omit [LinearOrder α] in
theorem imageCut_cons (a b : KeyBound α) (i j : ℤ) (x y : List ℤ) :
    imageCut (a, i :: x) (b, j :: y) = if ternaryCompare i j ≠ 0 then ternaryCompare i j
      else imageCut (a, x) (b, y) := by
  unfold imageCut
  rw [map_cons, map_cons, Lib.compareCut, compareCut_index (0 + 1) 0]
  rfl

omit [LinearOrder α] in
theorem imageCut_neg (p q : KeyBound α × List ℤ) : imageCut p q = -imageCut q p :=
  Lib.compareCut_neg (fun _ => signCmp_compareRowValues) 0 _ _ _ _

variable {p q : KeyBound α × List ℤ}

theorem Agree.symm (h : Agree c k p q) : Agree c k q p := by
  unfold Agree at h ⊢
  rw [imageCut_neg, cutFrom_neg, Int.sign_neg, Int.sign_neg, h]

theorem agree_of_short (hp : p.1.values.length ≤ k) (hpi : p.2 = [])
    (hq : q.2.length = q.1.values.length - k) : Agree c k p q := by
  obtain ⟨b, y⟩ := q
  unfold Agree imageCut
  rw [hpi]
  cases y with
  | nil =>
    have hb : b.values.length ≤ k := by
      simp only [length_nil] at hq
      omega
    rw [cutFrom_short c hp hb, map_nil, Lib.compareCut]
  | cons j y =>
    have hb : k < b.values.length := by
      simp only [length_cons] at hq
      omega
    rw [cutFrom_short_left c hp (getElem?_eq_getElem hb), map_nil, map_cons, Lib.compareCut]

theorem agree_of_lt {i j : ℤ} {x y : List ℤ} (ha : a.values[k]? = some u)
    (hb : b.values[k]? = some v) (hlt : c.compareValues k (.data u) (.data v) < 0) (hij : i < j) :
      Agree c k (a, i :: x) (b, j :: y) := by
  have himage : ternaryCompare i j < 0 := ternaryCompare_lt.mpr hij
  unfold Agree
  rw [imageCut_cons, if_pos himage.ne, cutFrom_of_some c ha hb, if_pos hlt.ne,
    Int.sign_eq_neg_one_of_neg himage, Int.sign_eq_neg_one_of_neg hlt]

theorem agree_of_eq {i : ℤ} {x y : List ℤ} (ha : a.values[k]? = some u) (hb : b.values[k]? = some u)
    (h : Agree c (k + 1) (a, x) (b, y)) : Agree c k (a, i :: x) (b, i :: y) := by
  have hi : ternaryCompare i i = 0 := by simp [ternaryCompare]
  have hv := (c.signCmp_compareValues k).self (Value.data u)
  unfold Agree at h ⊢
  rw [imageCut_cons, if_neg (not_not.mpr hi), cutFrom_of_some c ha hb, if_neg (not_not.mpr hv)]
  exact h

theorem Mirrors.append {l r : List (KeyBound α × List ℤ)} (hl : Mirrors c k l) (hr : Mirrors c k r)
    (hc : ∀ p ∈ l, ∀ q ∈ r, Agree c k p q) : Mirrors c k (l ++ r) where
  length_eq := forall_mem_append.mpr ⟨hl.length_eq, hr.length_eq⟩
  agree := forall_mem_append.mpr ⟨fun p hp => forall_mem_append.mpr ⟨hl.agree p hp, hc p hp⟩,
    fun q hq => forall_mem_append.mpr ⟨fun p hp => (hc p hp q hq).symm, hr.agree q hq⟩⟩

/-- The images of a segment that is sorted from a component on. -/
structure SegmentOk (k : ℕ) (segment : List (KeyBound α))
    (images : List (KeyBound α × List ℤ)) : Prop where
  fst_eq : images.map Prod.fst = segment
  mirrors : Mirrors c k images

theorem getElem?_of_mem_run {first : KeyBound α} {rest : List (KeyBound α)}
    (hbegin : first.values[k]? = some u)
    (hb : b ∈ first :: rest.takeWhile (sameComponent k first)) : b.values[k]? = some u := by
  rcases mem_cons.mp hb with rfl | hb
  · exact hbegin
  · have hs := mem_takeWhile_imp hb
    simp only [sameComponent, Bool.and_eq_true, decide_eq_true_eq] at hs
    exact hs.2.trans hbegin

theorem Mirrors.map_cons {images : List (KeyBound α × List ℤ)} (h : Mirrors c (k + 1) images)
    (hu : ∀ p ∈ images, p.1.values[k]? = some u) (i : ℤ) :
    Mirrors c k (images.map fun image => (image.1, i :: image.2)) where
  length_eq := forall_mem_map.mpr fun p hp => by
    have hlt := (List.getElem?_eq_some_iff.mp (hu p hp)).1
    have := h.length_eq p hp
    simp only [length_cons]
    omega
  agree := forall_mem_map.mpr fun p hp => forall_mem_map.mpr fun q hq =>
    agree_of_eq c (hu p hp) (hu q hq) (h.agree p hp q hq)

/-- One component: the loop over the runs, given what happens with the components after it. -/
theorem componentRuns_spec {left : ℕ} {next : List (KeyBound α) → List (KeyBound α × List ℤ)}
    (hn : ∀ run, (∀ b ∈ run, k + 1 ≤ b.values.length ∧ b.values.length ≤ k + 1 + left) →
      (run.Pairwise fun a b => c.cutFrom (k + 1) a b ≤ 0) → SegmentOk c (k + 1) run (next run)) :
    ∀ (seg : List (KeyBound α)) (currentImage : ℤ),
      (∀ b ∈ seg, k ≤ b.values.length ∧ b.values.length ≤ k + (left + 1)) →
      (seg.Pairwise fun a b => c.cutFrom k a b ≤ 0) →
      SegmentOk c k seg (componentRuns next k seg currentImage) ∧
        ∀ p ∈ componentRuns next k seg currentImage, ∀ i x, p.2 = i :: x → currentImage ≤ i := by
  intro seg currentImage
  fun_induction componentRuns next k seg currentImage with
  | case1 => exact fun _ _ => ⟨⟨rfl, by simp, by simp⟩, by simp⟩
  | case2 first rest currentImage hshort ih =>
    intro hlen hsorted
    obtain ⟨ih, ihle⟩ := ih (forall_mem_cons.mp hlen).2 (pairwise_cons.mp hsorted).2
    have hlens : ∀ p ∈ (first, []) :: componentRuns next k rest currentImage,
        p.2.length = p.1.values.length - k :=
      forall_mem_cons.mpr ⟨(Nat.sub_eq_zero_of_le hshort).symm, ih.mirrors.length_eq⟩
    have hag := fun q hq => agree_of_short c (p := (first, [])) hshort rfl (hlens q hq)
    refine ⟨⟨by rw [map_cons, ih.fst_eq], hlens, forall_mem_cons.mpr ⟨hag, fun p hp => ?_⟩⟩,
      forall_mem_cons.mpr ⟨nofun, ihle⟩⟩
    exact forall_mem_cons.mpr ⟨(hag p (mem_cons_of_mem _ hp)).symm, ih.mirrors.agree p hp⟩
  | case3 first rest currentImage hlong ih =>
    intro hlen hsorted
    obtain ⟨u, hu⟩ : ∃ u, first.values[k]? = some u := ⟨_, getElem?_eq_getElem (by omega)⟩
    have hrun : ∀ b ∈ first :: rest.takeWhile (sameComponent k first), b.values[k]? = some u :=
      fun b hb => getElem?_of_mem_run hu hb
    have hsub : (first :: rest.takeWhile (sameComponent k first)).Sublist (first :: rest) :=
      (takeWhile_sublist _).cons_cons _
    have hd : (rest.dropWhile (sameComponent k first)).Sublist (first :: rest) :=
      (dropWhile_sublist _).trans (sublist_cons_self _ _)
    have hrunOk : SegmentOk c (k + 1) (first :: rest.takeWhile (sameComponent k first))
        (next (first :: rest.takeWhile (sameComponent k first))) := by
      refine hn _ (fun b hb => ?_) ((hsorted.sublist hsub).imp_of_mem fun ha hb hab => ?_)
      · have := hlen b (hsub.subset hb)
        have := (List.getElem?_eq_some_iff.mp (hrun b hb)).1
        omega
      · have hz := (c.signCmp_compareValues k).self (Value.data u)
        rwa [cutFrom_of_some c (hrun _ ha) (hrun _ hb), if_neg (not_not.mpr hz)] at hab
    obtain ⟨ih, ihle⟩ := ih (fun b hb => hlen b (hd.subset hb)) (hsorted.sublist hd)
    have hvalue : ∀ p ∈ next (first :: rest.takeWhile (sameComponent k first)),
        p.1.values[k]? = some u :=
      fun p hp => hrun p.1 (hrunOk.fst_eq ▸ mem_map_of_mem hp)
    refine ⟨⟨?_, (hrunOk.mirrors.map_cons c hvalue currentImage).append c ih.mirrors
      (forall_mem_map.mpr fun p hp q hq => ?_)⟩, ?_⟩
    · rw [map_append, map_map, ih.fst_eq]
      have hf : (next (first :: rest.takeWhile (sameComponent k first))).map
          (Prod.fst ∘ fun image => (image.1, currentImage :: image.2)) = _ := hrunOk.fst_eq
      rw [hf, cons_append, takeWhile_append_dropWhile]
    · have hlater : q.1 ∈ rest.dropWhile (sameComponent k first) := ih.fst_eq ▸ mem_map_of_mem hq
      obtain ⟨b, y⟩ := q
      have hy := ih.mirrors.length_eq _ hq
      cases y with
      | nil =>
        refine (agree_of_short c ?_ rfl ?_).symm
        · simp only [length_nil] at hy ⊢
          omega
        · exact (hrunOk.mirrors.map_cons c hvalue currentImage).length_eq _ (mem_map_of_mem hp)
      | cons j y =>
        have hlt : k < b.values.length := by
          simp only [length_cons] at hy
          omega
        have hv := getElem?_eq_getElem hlt
        have hj := ihle _ hq j y rfl
        exact agree_of_lt c (hvalue p hp) hv (run_lt_later c hu hsorted hlater hv) (by omega)
    · refine forall_mem_append.mpr
        ⟨forall_mem_map.mpr fun p _ i x hpi => (cons.inj hpi).1.le, fun p hp i x hpi => ?_⟩
      have := ihle p hp i x hpi
      omega

theorem componentImages_spec : ∀ (left k : ℕ) (seg : List (KeyBound α)),
    (∀ b ∈ seg, k ≤ b.values.length ∧ b.values.length ≤ k + left) →
    (seg.Pairwise fun a b => c.cutFrom k a b ≤ 0) → SegmentOk c k seg (componentImages left k seg)
  | 0, k, seg, hl, _ => by
    have hz : ∀ b ∈ seg, 0 = b.values.length - k := fun b hb => by
      have := hl b hb
      omega
    exact ⟨(map_map).trans (map_id _), forall_mem_map.mpr hz, forall_mem_map.mpr fun a ha =>
        forall_mem_map.mpr fun b hb =>
      agree_of_short c (hl a ha).2 rfl (hz b hb)⟩
  | left + 1, k, seg, hl, hs =>
    (componentRuns_spec c (fun run => componentImages_spec left (k + 1) run) seg 0 hl hs).1

/-! ### Global images -/

/-- Bounds that share a global image: one prefix, and one side of it unless the prefix has full
length. -/
def SameCut (a b : KeyBound α) : Prop :=
  a.values = b.values ∧ ((toKeyBoundRef a).after = (toKeyBoundRef b).after ∨
    a.values.length = c.getLength)

section

omit [LinearOrder α]

theorem keyPrefix_eq_iff (ha : a.keyPrefix.isSome) (hb : b.keyPrefix.isSome) :
    a.keyPrefix = b.keyPrefix ↔ a.values = b.values := by
  obtain ⟨x, hx⟩ := Option.isSome_iff_exists.mp ha
  obtain ⟨y, hy⟩ := Option.isSome_iff_exists.mp hb
  simp [KeyBound.values, hx, hy]

theorem eq_or_invert_iff (ha : a.keyPrefix.isSome) (hb : b.keyPrefix.isSome) : a = b ∨ b.invert =
      .ok a ↔ a.values = b.values ∧ (toKeyBoundRef a).after = (toKeyBoundRef b).after := by
  rw [← keyPrefix_eq_iff ha hb, invert_eq hb]
  obtain ⟨x, i, u⟩ := a
  obtain ⟨y, i', u'⟩ := b
  cases i <;> cases u <;> cases i' <;> cases u' <;>
    simp [toKeyBoundRef, KeyBoundRef.after, eq_comm]

theorem sameCut_iff (ha : a.keyPrefix.isSome) (hb : b.keyPrefix.isSome) :
    (a = b ∨ b.invert = .ok a ∨ a.values.length = c.getLength ∧ b.values.length = c.getLength ∧
      a.values = b.values) ↔ SameCut c a b := by
  rw [SameCut, ← or_assoc, eq_or_invert_iff ha hb, and_or_left]
  exact or_congr_right ⟨fun h => ⟨h.2.2, h.1⟩, fun h => ⟨h.2, h.1 ▸ h.2, h.1⟩⟩

end

theorem sameGlobal_eq_true_iff (ha : a.keyPrefix.isSome) (hb : b.keyPrefix.isSome) :
    sameGlobal c a b = true ↔ SameCut c a b := by
  have hc := eq_or_invert_iff hb ha
  simp only [sameGlobal, Bool.or_eq_true, Bool.and_eq_true, decide_eq_true_eq,
    keyPrefix_eq_iff ha hb, eq_comm (a := a), hc]
  rw [SameCut, and_or_left]
  exact or_congr_left (and_congr eq_comm eq_comm)

omit [LinearOrder α] in
theorem SameCut.symm {a b : KeyBound α} (h : SameCut c a b) : SameCut c b a :=
  ⟨h.1.symm, h.2.imp Eq.symm fun hl => h.1 ▸ hl⟩

omit [LinearOrder α] in
theorem SameCut.trans {a b d : KeyBound α} (hab : SameCut c a b) (hbd : SameCut c b d) :
    SameCut c a d := by
  refine ⟨hab.1.trans hbd.1, ?_⟩
  rcases hab.2 with hafter | hl
  · exact hbd.2.imp hafter.trans fun hl => hab.1 ▸ hl
  · exact .inr hl

theorem sameCut_of_cutCompare_eq_zero (h : c.cutCompare a b = 0) : SameCut c a b := by
  have heq : ∀ (i : ℕ) (x y : Value α), c.compareValues i x y = 0 → x = y := compareValues_eq_zero c
  obtain ⟨hv, ha⟩ := Lib.compareCut_eq_zero heq 0 _ _ _ _ h
  exact ⟨map_injective_iff.mpr (fun _ _ => Value.data.inj) hv, .inl ha⟩

theorem SameCut.between {d : KeyBound α} (hf : c.Fits b) (h : SameCut c a d)
    (hab : c.cutCompare a b ≤ 0) (hbd : c.cutCompare b d ≤ 0) : SameCut c a b := by
  obtain ⟨hv, hside⟩ := h
  have hr : (toKeyBoundRef a).values = (toKeyBoundRef d).values := by simp only [toKeyBoundRef, hv]
  rcases hside with hafter | hlen
  · -- the three bounds lie at one cut
    have hba : c.cutCompare b a ≤ 0 := by
      unfold cutCompare at hbd ⊢
      rwa [hr, hafter]
    have := cutCompare_neg (c := c) a b
    exact sameCut_of_cutCompare_eq_zero c (by omega)
  · have hstarts : (toKeyBoundRef a).values <+: (toKeyBoundRef b).values := by
      refine Lib.startsWith_of_between c.signCmp_compareValues (compareValues_eq_zero c) 0 _ _
        (toKeyBoundRef d).after _ _ hab ?_
      rw [hr]
      exact hbd
    have hlength := hstarts.length_le
    simp only [toKeyBoundRef, length_map, Comparator.Fits] at hlength hf
    have heq := hstarts.eq_of_length (by simp only [toKeyBoundRef, length_map]; omega)
    exact ⟨map_injective_iff.mpr (fun _ _ => Value.data.inj) heq, .inr hlen⟩

/-- How the global images of two bounds are related. -/
structure GlobalOk (p q : KeyBound α × ℤ) : Prop where
  mono : c.cutCompare p.1 q.1 ≤ 0 → p.2 ≤ q.2
  eq_iff : p.2 = q.2 ↔ SameCut c p.1 q.1

theorem GlobalOk.of_lt {p q : KeyBound α × ℤ} (hc : c.cutCompare p.1 q.1 < 0)
    (hne : ¬SameCut c p.1 q.1) (hlt : p.2 < q.2) : GlobalOk c p q ∧ GlobalOk c q p := by
  have := cutCompare_neg (c := c) p.1 q.1
  exact ⟨⟨fun _ => hlt.le, iff_of_false hlt.ne hne⟩,
    ⟨fun _ => by omega, iff_of_false hlt.ne' fun h => hne h.symm⟩⟩

theorem globalImages_spec (sorted : List (KeyBound α)) (currentImage : ℤ) :
    (∀ b ∈ sorted, b.keyPrefix.isSome) → (∀ b ∈ sorted, c.Fits b) →
    (sorted.Pairwise fun a b => c.cutCompare a b ≤ 0) →
    (globalImages c sorted currentImage).map Prod.fst = sorted ∧
      (∀ p ∈ globalImages c sorted currentImage, currentImage ≤ p.2) ∧
      ∀ p ∈ globalImages c sorted currentImage, ∀ q ∈ globalImages c sorted currentImage,
        GlobalOk c p q := by
  fun_induction globalImages c sorted currentImage with
  | case1 => simp
  | case2 first rest currentImage ih =>
    intro hsome hf hsorted
    have hd : (rest.dropWhile (sameGlobal c first)).Sublist (first :: rest) :=
      (dropWhile_sublist _).trans (sublist_cons_self _ _)
    have htake : (rest.takeWhile (sameGlobal c first)).Sublist (first :: rest) :=
      (takeWhile_sublist _).trans (sublist_cons_self _ _)
    obtain ⟨ihfst, ihle, ihok⟩ :=
      ih (fun b hb => hsome b (hd.subset hb)) (fun b hb => hf b (hd.subset hb)) (hsorted.sublist hd)
    obtain ⟨hh, htail⟩ := pairwise_cons.mp hsorted
    have hbegin := hsome first mem_cons_self
    -- the bounds of the run, each with the image of the run
    have hr : ∀ b ∈ first :: rest.takeWhile (sameGlobal c first), SameCut c first b ∧
        ∀ e ∈ rest.dropWhile (sameGlobal c first), c.cutCompare b e ≤ 0 := by
      refine forall_mem_cons.mpr
        ⟨⟨⟨rfl, .inl rfl⟩, fun e he => hh e ((dropWhile_sublist _).subset he)⟩, fun b hb => ?_⟩
      have hsame := mem_takeWhile_imp hb
      rw [sameGlobal_eq_true_iff c hbegin (hsome b (htake.subset hb))] at hsame
      rw [← takeWhile_append_dropWhile (p := sameGlobal c first) (l := rest)] at htail
      exact ⟨hsame, (pairwise_append.mp htail).2.2 b hb⟩
    -- what follows the run has another image
    have hlater : ∀ e ∈ rest.dropWhile (sameGlobal c first), ¬SameCut c first e := by
      intro e he hsame
      obtain ⟨e0, hm, hbreak, hle⟩ := Lib.exists_break htail he
      have hm' := mem_cons_of_mem first hm
      have hsame0 : SameCut c first e0 := by
        obtain rfl | hle := hle
        · exact hsame
        · exact hsame.between c (hf e0 hm') (hh e0 hm) hle
      rw [(sameGlobal_eq_true_iff c hbegin (hsome e0 hm')).mpr hsame0] at hbreak
      exact absurd hbreak nofun
    have hcross : ∀ b ∈ first :: rest.takeWhile (sameGlobal c first),
        ∀ q ∈ globalImages c (rest.dropWhile (sameGlobal c first)) (currentImage + 1),
          GlobalOk c (b, currentImage) q ∧ GlobalOk c q (b, currentImage) := by
      intro b hb q hq
      obtain ⟨hsame, hcut⟩ := hr b hb
      have hq' : q.1 ∈ rest.dropWhile (sameGlobal c first) := ihfst ▸ mem_map_of_mem hq
      have hne : ¬SameCut c b q.1 := fun h => hlater q.1 hq' (hsame.trans c h)
      have hlt := lt_of_le_of_ne (hcut q.1 hq') fun h => hne (sameCut_of_cutCompare_eq_zero c h)
      have := ihle q hq
      exact GlobalOk.of_lt c hlt hne (by omega)
    rw [← map_cons (f := (·, currentImage))]
    refine ⟨?_, forall_mem_append.mpr ⟨forall_mem_map.mpr fun _ _ => le_rfl, fun p hp => ?_⟩,
      forall_mem_append.mpr ⟨forall_mem_map.mpr fun a ha => forall_mem_append.mpr
          ⟨forall_mem_map.mpr fun b hb => ?_, fun q hq => (hcross a ha q hq).1⟩, fun p hp =>
          forall_mem_append.mpr ⟨forall_mem_map.mpr fun b hb =>
        (hcross b hb p hp).2, ihok p hp⟩⟩⟩
    · rw [map_append, ihfst, map_map]
      have hid : (Prod.fst ∘ fun b : KeyBound α => (b, currentImage)) = id := rfl
      rw [hid, map_id, cons_append, takeWhile_append_dropWhile]
    · have := ihle p hp
      omega
    · exact ⟨fun _ => le_rfl, iff_of_true rfl ((hr a ha).1.symm.trans c (hr b hb).1)⟩

/-! ### The isomorphism -/

/-- Compression is an isomorphism: however the bounds are sorted, every bound that was added and
every inverse of one has an image, the component-wise images compare under an ascending comparator
as the bounds do, and the global images keep their order and tell apart all bounds but equal ones,
inverse ones, and full-length ones with one prefix. -/
theorem images_isomorphic (c : Comparator) (keyBounds : List (KeyBound α))
    (hsome : ∀ b ∈ keyBounds, b.keyPrefix.isSome) (hfits : ∀ b ∈ keyBounds, c.Fits b) :
    ∃ added, addKeyBounds keyBounds = .ok added ∧ ∀ sorted, SortsTo c added sorted →
      ∀ a b, IsAdded keyBounds a → IsAdded keyBounds b →
        ∃ ia ib, getImage c sorted a = .ok ia ∧ getImage c sorted b = .ok ib ∧
          (∃ r r', (ascendingComparator c.getLength).compareKeyBounds ia.componentWise
            ib.componentWise 0 = .ok r ∧ c.compareKeyBounds a b 0 = .ok r' ∧ r.sign = r'.sign) ∧
          (c.BoundLE a b → ia.global ≤ ib.global) ∧
          (ia.global = ib.global ↔ a = b ∨ b.invert = .ok a ∨ a.values.length = c.getLength ∧
              b.values.length = c.getLength ∧ a.values = b.values) := by
  obtain ⟨added, hok, hadded⟩ := addKeyBounds_spec keyBounds hsome
  refine ⟨added, hok, fun sorted hsorts a b ha hb => ?_⟩
  have hmem : ∀ bound, bound ∈ sorted ↔ IsAdded keyBounds bound :=
    fun bound => hsorts.1.mem_iff.trans (hadded bound)
  have hsomes : ∀ b ∈ sorted, b.keyPrefix.isSome := fun b hb => ((hmem b).mp hb).isSome hsome
  have hfit : ∀ b ∈ sorted, c.Fits b := fun b hb => ((hmem b).mp hb).fits hsome hfits
  have hsorted : sorted.Pairwise fun a b => c.cutCompare a b ≤ 0 :=
    hsorts.2.imp_of_mem fun ha hb h => (Comparator.boundLE_iff (hfit _ ha) (hfit _ hb)).mp h
  have hcomponents := componentImages_spec c c.getLength 0 sorted
    (fun b hb => ⟨Nat.zero_le _, by simpa [Comparator.Fits] using hfit b hb⟩) hsorted
  obtain ⟨hglobalFst, -, hglobal⟩ := globalImages_spec c sorted 0 hsomes hfit hsorted
  have hamem := (hmem a).mpr ha
  have hbmem := (hmem b).mpr hb
  obtain ⟨x, hx, hxmem⟩ := getOrCrash_spec (hcomponents.fst_eq.symm ▸ hamem)
  obtain ⟨y, hy, hymem⟩ := getOrCrash_spec (hcomponents.fst_eq.symm ▸ hbmem)
  obtain ⟨m, hm, hmmem⟩ := getOrCrash_spec (hglobalFst.symm ▸ hamem)
  obtain ⟨n, hn, hnmem⟩ := getOrCrash_spec (hglobalFst.symm ▸ hbmem)
  have hag := hglobal _ hmmem _ hnmem
  refine ⟨⟨⟨some x, a.isInclusive, a.isUpper⟩, m⟩, ⟨⟨some y, b.isInclusive, b.isUpper⟩, n⟩, ?_,
    ?_, ?_, ?_, ?_⟩
  · rw [getImage, hx, hm]
    rfl
  · rw [getImage, hy, hn]
    rfl
  · have hxlen := hcomponents.mirrors.length_eq _ hxmem
    have hylen := hcomponents.mirrors.length_eq _ hymem
    have hxfits := hfit a hamem
    have hyfits := hfit b hbmem
    have hlength : (ascendingComparator c.getLength).getLength = c.getLength := by
      simp [ascendingComparator, Comparator.getLength]
    refine ⟨_, _, Comparator.compareKeyBounds_eq ?_ ?_, Comparator.compareKeyBounds_eq hxfits hyfits, ?_⟩
    · simpa [Comparator.Fits, hlength, KeyBound.values, hxlen] using hxfits
    · simpa [Comparator.Fits, hlength, KeyBound.values, hylen] using hyfits
    · have := hcomponents.mirrors.agree _ hxmem _ hymem
      rw [Agree, cutFrom_zero] at this
      rw [← this, Comparator.cutCompare, compareValues_ascending]
      rfl
  · exact fun h => hag.mono ((Comparator.boundLE_iff (hfit a hamem) (hfit b hbmem)).mp h)
  · exact hag.eq_iff.trans (sameCut_iff c (hsomes a hamem) (hsomes b hbmem)).symm

/-- Two bounds of different lengths under a comparator of mixed orders. -/
theorem images_isomorphic_mixed :
    let c : Comparator := ⟨[.ascending, .descending]⟩
    let a : KeyBound ℕ := ⟨some [3], true, false⟩
    let b : KeyBound ℕ := ⟨some [3, 4], false, true⟩
    let sorted : List (KeyBound ℕ) := [a, ⟨some [3], false, true⟩, b, ⟨some [3, 4], true, false⟩]
    (∀ bound ∈ [a, b], c.Fits bound) ∧
      ∃ ia ib, getImage c sorted a = .ok ia ∧ getImage c sorted b = .ok ib ∧ ia.global ≤ ib.global := by
  intro c a b sorted
  have hfits : ∀ bound ∈ [a, b], c.Fits bound := by decide
  have hsorted : ∀ bound ∈ sorted, c.Fits bound := by decide
  have hcuts : sorted.Pairwise fun l r => c.cutCompare l r ≤ 0 := by decide
  obtain ⟨added, hok, himages⟩ := images_isomorphic c [a, b] (by decide) hfits
  have hadded : addKeyBounds [a, b] =
    .ok [⟨some [3, 4], true, false⟩, b, ⟨some [3], false, true⟩, a] := by decide
  obtain rfl := Except.ok.inj (hok.symm.trans hadded)
  have hle : sorted.Pairwise c.BoundLE :=
    hcuts.imp_of_mem fun hl hr h => (Comparator.boundLE_iff (hsorted _ hl) (hsorted _ hr)).mpr h
  obtain ⟨ia, ib, ha, hb, -, hmono, -⟩ :=
    himages sorted ⟨by decide, hle⟩ a b (.inl (by simp)) (.inl (by simp))
  exact ⟨hfits, ia, ib, ha, hb,
    hmono ((Comparator.boundLE_iff (by decide) (by decide)).mpr (by decide))⟩

end

end Ytsaurus.TableClient
