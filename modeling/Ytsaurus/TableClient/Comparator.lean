/-
# Comparators and key bounds

`client/table_client/comparator.cpp`: a comparator has one sort order per key
column, tests keys against key bounds and compares key bounds with each other.
A key bound is a cut of the space of keys (`Lib.compareCut`): an upper bound
accepts the keys below its cut and a lower bound those that are not
(`testKey_eq`), and `CompareKeyBounds` compares the cuts
(`compareKeyBounds_eq`). So the order of bounds and the keys they accept agree
(`compareKeyBounds_agrees_with_testKey`).
-/
import Ytsaurus.Lib.PrefixCut
import Ytsaurus.TableClient.KeyBound

namespace Ytsaurus.TableClient

inductive SortOrder where
  | ascending
  | descending
  deriving DecidableEq, Repr

/-- `TComparator`, without its code-generated comparer of keys. -/
structure Comparator where
  sortOrders : List SortOrder
  deriving DecidableEq, Repr

/-- `TKeyBoundRef`: the values of a bound, that may still hold sentinels. -/
structure KeyBoundRef (α : Type) where
  values : Row α
  inclusive : Bool := false
  upper : Bool := false
  deriving DecidableEq, Repr

/-- `ToKeyBoundRef` of a key bound. -/
def toKeyBoundRef {α : Type} (bound : KeyBound α) : KeyBoundRef α :=
  ⟨bound.values.map Value.data, bound.isInclusive, bound.isUpper⟩

/-- The cut of a bound lies after the keys that start with its prefix. -/
def KeyBoundRef.after {α : Type} (bound : KeyBoundRef α) : Bool :=
  (bound.upper && bound.inclusive) || (!bound.upper && !bound.inclusive)

namespace Comparator

section

variable {α : Type} [LinearOrder α] (c : Comparator)

def getLength : ℕ := c.sortOrders.length

def compareValues (index : ℕ) (lhs rhs : Value α) : ℤ :=
  if c.sortOrders[index]? = some .descending then -compareRowValues lhs rhs
    else compareRowValues lhs rhs

def hasDescendingSortOrder : Bool := c.sortOrders.contains .descending

def validateKey (key : Key α) : Result Unit :=
  if key.length ≠ c.getLength then
    .error (.exception "Comparator %v is used with key %v of different length")
  else .ok ()

def validateKeyBound (keyBound : KeyBound α) : Result Unit :=
  if c.getLength < keyBound.values.length then
    .error (.exception "Comparator %v is used with longer key bound %v")
  else .ok ()

/-- The loop of `TestKey`: the first difference between the key and the bound. -/
def compareWithPrefix : ℕ → Row α → Row α → ℤ
  | index, keyValue :: key, keyBoundValue :: keyBound =>
    let comparisonResult := c.compareValues index keyValue keyBoundValue
    if comparisonResult ≠ 0 then comparisonResult else compareWithPrefix (index + 1) key keyBound
  | _, _, _ => 0

def testKey (key : Key α) (keyBound : KeyBound α) : Result Bool := do
  c.validateKey key
  c.validateKeyBound keyBound
  let comparisonResult := c.compareWithPrefix 0 (key.map Value.data) (keyBound.values.map Value.data)
  let comparisonResult := if keyBound.isUpper then -comparisonResult else comparisonResult
  return decide (0 < comparisonResult) || (decide (comparisonResult = 0) && keyBound.isInclusive)

/-- What `CompareKeyBoundsUnchecked` returns once the longer bound has the
shorter one as its prefix, as "longer against shorter". -/
def longerAgainst (shorter : KeyBoundRef α) : ℤ := if shorter.after then -1 else 1

/-- The loop of `CompareKeyBoundsUnchecked`, from `index` on. -/
def compareKeyBoundsFrom (lhs rhs : KeyBoundRef α) (lowerVsUpper : ℤ) : ℕ → Row α → Row α → ℤ
  | _, [], [] =>
    let lhsInclusivenessAsUpper := lhs.after
    let rhsInclusivenessAsUpper := rhs.after
    if lhsInclusivenessAsUpper ≠ rhsInclusivenessAsUpper then
      lhsInclusivenessAsUpper.toInt - rhsInclusivenessAsUpper.toInt
    else if lowerVsUpper = 0 then 0
    else
      let comparisonResult := lhs.upper.toInt - rhs.upper.toInt
      if 0 < lowerVsUpper then -comparisonResult else comparisonResult
  | _, [], _ :: _ => -longerAgainst lhs
  | _, _ :: _, [] => longerAgainst rhs
  | index, lhsValue :: ls, rhsValue :: rs =>
    let comparisonResult := c.compareValues index lhsValue rhsValue
    if comparisonResult ≠ 0 then comparisonResult
    else compareKeyBoundsFrom lhs rhs lowerVsUpper (index + 1) ls rs

def compareKeyBoundsUnchecked (lhs rhs : KeyBoundRef α) (lowerVsUpper : ℤ) : ℤ :=
  c.compareKeyBoundsFrom lhs rhs lowerVsUpper 0 lhs.values rhs.values

/-- `CompareKeyBounds` of key bounds. -/
def compareKeyBounds (lhs rhs : KeyBound α) (lowerVsUpper : ℤ) : Result ℤ := do
  c.validateKeyBound lhs
  c.validateKeyBound rhs
  return c.compareKeyBoundsUnchecked (toKeyBoundRef lhs) (toKeyBoundRef rhs) lowerVsUpper

/-- `CompareKeyBounds` of references, whose values are checked first. -/
def compareKeyBoundRefs (lhs rhs : KeyBoundRef α) (lowerVsUpper : ℤ) : Result ℤ := do
  if c.getLength < max lhs.values.length rhs.values.length then
    throw (.exception "Comparator %v is used with a key bound of length %v")
  let _ ← KeyBound.validateValueTypes lhs.values
  let _ ← KeyBound.validateValueTypes rhs.values
  return c.compareKeyBoundsUnchecked lhs rhs lowerVsUpper

def isRangeEmpty (lowerBound upperBound : KeyBound α) : Result Bool := do
  ytVerify (lowerBound.isUpper = false)
  ytVerify (upperBound.isUpper = true)
  let result ← c.compareKeyBounds lowerBound upperBound 1
  return decide (0 ≤ result)

def strongerKeyBound (lhs rhs : KeyBound α) : Result (KeyBound α) := do
  ytVerify lhs.keyPrefix.isSome
  ytVerify rhs.keyPrefix.isSome
  ytVerify (lhs.isUpper = rhs.isUpper)
  let comparisonResult ← c.compareKeyBounds lhs rhs 0
  let comparisonResult := if lhs.isUpper then -comparisonResult else comparisonResult
  return if comparisonResult ≤ 0 then rhs else lhs

def weakerKeyBound (lhs rhs : KeyBound α) : Result (KeyBound α) := do
  ytVerify (lhs.isUpper = rhs.isUpper)
  let comparisonResult ← c.compareKeyBounds lhs rhs 0
  let comparisonResult := if lhs.isUpper then -comparisonResult else comparisonResult
  return if 0 ≤ comparisonResult then rhs else lhs

/-! ### Bounds are cuts -/

theorem signCmp_compareRowValues : Lib.SignCmp (compareRowValues (α := α)) where
  neg := compareRowValues_neg
  trans a b c hab hbc := (le_trans (show a ≤ b from hab) (show b ≤ c from hbc) : a ≤ c)

theorem signCmp_compareValues (index : ℕ) : Lib.SignCmp (c.compareValues (α := α) index) := by
  unfold compareValues
  split_ifs
  · exact signCmp_compareRowValues.reverse
  · exact signCmp_compareRowValues

theorem compareKeyBoundsFrom_eq (lhs rhs : KeyBoundRef α) : ∀ (index : ℕ) (ls rs : Row α),
    c.compareKeyBoundsFrom lhs rhs 0 index ls rs =
      Lib.compareCut c.compareValues index ls lhs.after rs rhs.after
  | _, [], [] => by
    simp only [compareKeyBoundsFrom, Lib.compareCut, ↓reduceIte]
    cases lhs.after <;> cases rhs.after <;> simp
  | _, [], _ :: _ => by
    simp only [compareKeyBoundsFrom, Lib.compareCut, longerAgainst]
    split_ifs <;> simp
  | _, _ :: _, [] => by simp [compareKeyBoundsFrom, Lib.compareCut, longerAgainst]
  | index, l :: ls, r :: rs => by
    simp only [compareKeyBoundsFrom, Lib.compareCut, compareKeyBoundsFrom_eq lhs rhs (index + 1) ls rs]

theorem compareKeyBoundsFrom_one_nonneg (lhs rhs : KeyBoundRef α) (hl : lhs.upper = false)
    (hr : rhs.upper = true) : ∀ (index : ℕ) (ls rs : Row α),
    0 ≤ c.compareKeyBoundsFrom lhs rhs 1 index ls rs ↔
      0 ≤ Lib.compareCut c.compareValues index ls lhs.after rs rhs.after
  | _, [], [] => by
    simp only [compareKeyBoundsFrom, Lib.compareCut, hl, hr]
    cases lhs.after <;> cases rhs.after <;> simp
  | _, [], _ :: _ => by
    simp only [compareKeyBoundsFrom, Lib.compareCut, longerAgainst]
    split_ifs <;> simp
  | _, _ :: _, [] => by simp [compareKeyBoundsFrom, Lib.compareCut, longerAgainst]
  | index, l :: ls, r :: rs => by
    simp only [compareKeyBoundsFrom, Lib.compareCut]
    split_ifs
    · rfl
    · exact compareKeyBoundsFrom_one_nonneg lhs rhs hl hr (index + 1) ls rs

def cutCompare (lhs rhs : KeyBound α) : ℤ :=
  Lib.compareCut c.compareValues 0 (toKeyBoundRef lhs).values (toKeyBoundRef lhs).after
    (toKeyBoundRef rhs).values (toKeyBoundRef rhs).after

/-- `CompareKeyBounds` seen from the rays: not positive when the left bound
accepts what the right one does. -/
def rayCompare (lhs rhs : KeyBound α) : ℤ :=
  if lhs.isUpper then -c.cutCompare lhs rhs else c.cutCompare lhs rhs

/-- The key lies below the cut of the bound. -/
def BelowBound (key : Key α) (bound : KeyBound α) : Prop :=
  Lib.Below c.compareValues 0 (key.map Value.data) (toKeyBoundRef bound).values
    (toKeyBoundRef bound).after

def Fits (bound : KeyBound α) : Prop := bound.values.length ≤ c.getLength

instance (bound : KeyBound α) : Decidable (c.Fits bound) :=
  inferInstanceAs (Decidable (_ ≤ _))

/-- The key passes the test against the bound. -/
def Accepts (bound : KeyBound α) (key : Key α) : Prop := c.testKey key bound = .ok true

/-- `lhs <= rhs` as `CompareKeyBounds` sees it, ties not broken. -/
def BoundLE (lhs rhs : KeyBound α) : Prop := ∃ r, c.compareKeyBounds lhs rhs 0 = .ok r ∧ r ≤ 0

theorem below_iff_compareWithPrefix (after : Bool) : ∀ (index : ℕ) (key bound : Row α),
    bound.length ≤ key.length →
      (Lib.Below c.compareValues index key bound after ↔ c.compareWithPrefix index key bound < 0 ∨
          c.compareWithPrefix index key bound = 0 ∧ after = true)
  | _, key, [], _ => by cases key <;> simp [Lib.Below, compareWithPrefix]
  | index, k :: key, b :: bound, hl => by
    have ih := below_iff_compareWithPrefix after (index + 1) key bound (by simpa using hl)
    simp only [Lib.Below, compareWithPrefix, ih]
    split_ifs with h
    · simp [h]
    · have h0 : c.compareValues index k b = 0 := by simpa using h
      simp [h0]

variable {c}

variable {key : Key α}

omit [LinearOrder α] in
theorem validateKey_ok (hk : key.length = c.getLength) : c.validateKey key = .ok () := by
  simp [validateKey, hk]

variable {bound : KeyBound α}

omit [LinearOrder α] in
theorem validateKeyBound_ok (hb : c.Fits bound) : c.validateKeyBound bound = .ok () := by
  simp only [Fits] at hb
  simp [validateKeyBound, hb]

section

variable (hk : key.length = c.getLength) (hb : c.Fits bound)

include hk hb

theorem testKey_eq :
    ∃ r, c.testKey key bound = .ok r ∧
      (r = true ↔ if bound.isUpper then c.BelowBound key bound else ¬c.BelowBound key bound) := by
  have hbelow := c.below_iff_compareWithPrefix (toKeyBoundRef bound).after 0 (key.map Value.data)
    (bound.values.map Value.data) (by simpa [hk, Fits] using hb)
  simp only [testKey, validateKey_ok hk, validateKeyBound_ok hb]
  refine ⟨_, rfl, ?_⟩
  simp only [BelowBound, toKeyBoundRef, KeyBoundRef.after] at hbelow ⊢
  rw [hbelow]
  cases bound.isUpper <;> cases bound.isInclusive <;> simp <;> omega

theorem accepts_iff : c.Accepts bound key ↔ if bound.isUpper then c.BelowBound key bound
      else ¬c.BelowBound key bound := by
  obtain ⟨r, hr, hi⟩ := testKey_eq hk hb
  simp [Accepts, hr, ← hi]

theorem rejects_iff :
    c.testKey key bound = .ok false ↔ ¬c.Accepts bound key := by
  obtain ⟨r, hr, -⟩ := testKey_eq hk hb
  cases r <;> simp [Accepts, hr]

end

variable {lhs rhs : KeyBound α}

theorem compareKeyBounds_eq (hl : c.Fits lhs) (hr : c.Fits rhs) :
    c.compareKeyBounds lhs rhs 0 = .ok (c.cutCompare lhs rhs) := by
  simp only [compareKeyBounds, validateKeyBound_ok hl, validateKeyBound_ok hr,
    compareKeyBoundsUnchecked, compareKeyBoundsFrom_eq]
  rfl

theorem boundLE_iff (hl : c.Fits lhs) (hr : c.Fits rhs) : c.BoundLE lhs rhs ↔
    c.cutCompare lhs rhs ≤ 0 := by
  simp [BoundLE, compareKeyBounds_eq hl hr]

theorem cutCompare_neg (lhs rhs : KeyBound α) : c.cutCompare lhs rhs = -c.cutCompare rhs lhs :=
  Lib.compareCut_neg c.signCmp_compareValues 0 _ _ _ _

theorem cutCompare_trans {a b d : KeyBound α} (hab : c.cutCompare a b ≤ 0)
    (hbd : c.cutCompare b d ≤ 0) : c.cutCompare a d ≤ 0 :=
  Lib.compareCut_trans c.signCmp_compareValues 0 _ _ _ _ _ _ hab hbd

theorem belowBound_mono (hk : key.length = c.getLength) (hl : c.Fits lhs) (hr : c.Fits rhs)
    (hle : c.cutCompare lhs rhs ≤ 0) (hbelow : c.BelowBound key lhs) : c.BelowBound key rhs :=
  Lib.below_mono c.signCmp_compareValues 0 _ _ _ _ _ (by simpa [toKeyBoundRef, hk, Fits] using hl)
    (by simpa [toKeyBoundRef, hk, Fits] using hr) hle hbelow

theorem isRangeEmpty_iff {lower upper : KeyBound α} (hl : c.Fits lower) (hu : c.Fits upper)
    (hlower : lower.isUpper = false) (hupper : upper.isUpper = true) :
    ∃ r, c.isRangeEmpty lower upper = .ok r ∧ (r = true ↔ 0 ≤ c.cutCompare lower upper) := by
  simp only [isRangeEmpty, ytVerify_true hlower, ytVerify_true hupper, compareKeyBounds,
    validateKeyBound_ok hl, validateKeyBound_ok hu]
  refine ⟨_, rfl, ?_⟩
  rw [decide_eq_true_iff]
  exact c.compareKeyBoundsFrom_one_nonneg _ _ hlower hupper 0 _ _

theorem accepts_of_rayCompare (hk : key.length = c.getLength) (hl : c.Fits lhs) (hr : c.Fits rhs)
    (hd : lhs.isUpper = rhs.isUpper) (hle : c.rayCompare lhs rhs ≤ 0)
    (h : c.Accepts rhs key) : c.Accepts lhs key := by
  rw [accepts_iff hk hr, ← hd] at h
  rw [accepts_iff hk hl]
  unfold rayCompare at hle
  have hn := cutCompare_neg (c := c) lhs rhs
  split_ifs at hle h ⊢ with hu
  · exact belowBound_mono hk hr hl (by omega) h
  · exact mt (belowBound_mono hk hl hr hle) h

theorem rayCompare_neg (hd : lhs.isUpper = rhs.isUpper) :
    c.rayCompare lhs rhs = -c.rayCompare rhs lhs := by
  simp only [rayCompare, ← hd, cutCompare_neg (c := c) rhs lhs]
  split_ifs <;> omega

theorem strongerKeyBound_eq (hl : c.Fits lhs) (hr : c.Fits rhs)
    (hls : lhs.keyPrefix.isSome) (hrs : rhs.keyPrefix.isSome) (hd : lhs.isUpper = rhs.isUpper) :
    ∃ d, c.strongerKeyBound lhs rhs = .ok d ∧ ∀ key : Key α, key.length = c.getLength →
      (c.Accepts d key ↔ c.Accepts lhs key ∧ c.Accepts rhs key) := by
  refine ⟨if c.rayCompare lhs rhs ≤ 0 then rhs else lhs, ?_, fun key hk => ?_⟩
  · simp only [strongerKeyBound, ytVerify_true hls, ytVerify_true hrs, ytVerify_true hd,
      compareKeyBounds_eq hl hr]
    rfl
  · have hn := rayCompare_neg (c := c) hd
    split_ifs with h
    · exact ⟨fun ha => ⟨accepts_of_rayCompare hk hl hr hd h ha, ha⟩, And.right⟩
    · exact ⟨fun ha => ⟨ha, accepts_of_rayCompare hk hr hl hd.symm (by omega) ha⟩, And.left⟩

theorem weakerKeyBound_eq (hl : c.Fits lhs) (hr : c.Fits rhs) (hd : lhs.isUpper = rhs.isUpper) :
    ∃ d, c.weakerKeyBound lhs rhs = .ok d ∧ ∀ key : Key α, key.length = c.getLength →
      (c.Accepts d key ↔ c.Accepts lhs key ∨ c.Accepts rhs key) := by
  refine ⟨if 0 ≤ c.rayCompare lhs rhs then rhs else lhs, ?_, fun key hk => ?_⟩
  · simp only [weakerKeyBound, ytVerify_true hd, compareKeyBounds_eq hl hr]
    rfl
  · have hn := rayCompare_neg (c := c) hd
    split_ifs with h
    · exact ⟨.inr, fun hor => hor.elim (accepts_of_rayCompare hk hr hl hd.symm (by omega)) id⟩
    · exact ⟨.inl, fun hor => hor.elim id (accepts_of_rayCompare hk hl hr hd (by omega))⟩

theorem accepts_invert (hk : key.length = c.getLength) (hb : c.Fits bound)
    (hs : bound.keyPrefix.isSome) :
    ∃ d, bound.invert = .ok d ∧ (c.Accepts bound key ↔ c.testKey key d = .ok false) := by
  simp only [KeyBound.invert, ytVerify_true hs]
  refine ⟨_, rfl, ?_⟩
  have hd : c.Fits ⟨bound.keyPrefix, !bound.isInclusive, !bound.isUpper⟩ := hb
  have hbelow : c.BelowBound key ⟨bound.keyPrefix, !bound.isInclusive, !bound.isUpper⟩ ↔
      c.BelowBound key bound := by
    cases h1 : bound.isInclusive <;> cases h2 : bound.isUpper <;>
      simp [BelowBound, toKeyBoundRef, KeyBoundRef.after, KeyBound.values, h1, h2]
  rw [rejects_iff hk hd, accepts_iff hk hb, accepts_iff hk hd, hbelow]
  cases bound.isUpper <;> simp

/-- Comparing key bounds agrees with testing keys, for any mix of sort orders:
the comparison is a total preorder, bounds that come later (earlier) accept
fewer (more) keys, inversion complements, an empty range has no keys, and the
stronger and the weaker of two bounds of one direction accept what both
accept and what any accepts. -/
theorem compareKeyBounds_agrees_with_testKey (c : Comparator) (a b d : KeyBound α) (ha : c.Fits a)
    (hb : c.Fits b) (hd : c.Fits d) : (c.BoundLE a a ∧ (c.BoundLE a b ∨ c.BoundLE b a) ∧
      (c.BoundLE a b → c.BoundLE b d → c.BoundLE a d)) ∧ (∀ key : Key α, key.length = c.getLength →
      (a.isUpper = false → b.isUpper = false → c.BoundLE a b → c.Accepts b key → c.Accepts a key) ∧
      (a.isUpper = true → b.isUpper = true → c.BoundLE b a → c.Accepts b key → c.Accepts a key) ∧
      (a.keyPrefix.isSome → ∃ e, a.invert = .ok e ∧
        (c.Accepts a key ↔ c.testKey key e = .ok false)) ∧ (a.isUpper = false → b.isUpper = true →
        c.isRangeEmpty a b = .ok true → ¬(c.Accepts a key ∧ c.Accepts b key))) ∧
    (a.isUpper = b.isUpper → a.keyPrefix.isSome → b.keyPrefix.isSome →
      ∃ e, c.strongerKeyBound a b = .ok e ∧ ∀ key : Key α, key.length = c.getLength →
          (c.Accepts e key ↔ c.Accepts a key ∧ c.Accepts b key)) ∧ (a.isUpper = b.isUpper →
      ∃ e, c.weakerKeyBound a b = .ok e ∧ ∀ key : Key α, key.length = c.getLength →
          (c.Accepts e key ↔ c.Accepts a key ∨ c.Accepts b key)) := by
  have hneg := cutCompare_neg (α := α) (c := c)
  refine ⟨⟨?_, ?_, ?_⟩, fun key hk => ⟨?_, ?_, ?_, ?_⟩, ?_, ?_⟩
  · rw [boundLE_iff ha ha]
    have := hneg a a
    omega
  · rw [boundLE_iff ha hb, boundLE_iff hb ha]
    have := hneg a b
    omega
  · rw [boundLE_iff ha hb, boundLE_iff hb hd, boundLE_iff ha hd]
    exact cutCompare_trans
  · intro hla hlb hle
    refine accepts_of_rayCompare hk ha hb (hla.trans hlb.symm) ?_
    simpa [rayCompare, hla] using (boundLE_iff ha hb).mp hle
  · intro hua hub hle
    refine accepts_of_rayCompare hk ha hb (hua.trans hub.symm) ?_
    have := (boundLE_iff hb ha).mp hle
    simp only [rayCompare, hua, ↓reduceIte, hneg a b]
    omega
  · exact accepts_invert hk ha
  · intro hla hub hempty
    obtain ⟨r, hr, hiff⟩ := isRangeEmpty_iff ha hb hla hub
    have hr' : r = true := by
      rw [hr] at hempty
      exact Except.ok.inj hempty
    rw [accepts_iff hk ha, accepts_iff hk hb, hla, hub]
    rintro ⟨h1, h2⟩
    have := hneg a b
    exact h1 (belowBound_mono hk hb ha (by have := hiff.mp hr'; omega) h2)
  · intro hdir hsa hsb
    exact strongerKeyBound_eq ha hb hsa hsb hdir
  · exact weakerKeyBound_eq ha hb

/-- Two lower bounds under a comparator of mixed orders. -/
theorem compareKeyBounds_agrees_with_testKey_mixed :
    let c : Comparator := ⟨[.ascending, .descending]⟩
    let a : KeyBound ℕ := ⟨some [3], true, false⟩
    let b : KeyBound ℕ := ⟨some [3, 4], false, false⟩
    c.Fits a ∧ c.Fits b ∧ c.BoundLE a b ∧ (c.Accepts b [3, 1] → c.Accepts a [3, 1]) := by
  intro c a b
  have ha : c.Fits a := by decide
  have hb : c.Fits b := by decide
  have hab : c.BoundLE a b := ⟨-1, by decide, by decide⟩
  exact ⟨ha, hb, hab, ((compareKeyBounds_agrees_with_testKey c a b b ha hb hb).2.1 [3, 1] rfl).1
    rfl rfl hab⟩

end

end Comparator

end Ytsaurus.TableClient
