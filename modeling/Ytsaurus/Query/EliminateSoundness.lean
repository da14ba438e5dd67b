/-
# Elimination preserves the predicate

On a row whose key lies in one of the key ranges (or is one of the lookup keys) the predicate that
`EliminatePredicate` returns has the truth value of the predicate it was given. With canonical null
relations this fails where a null comparison is decided by the ranges, which read it in the order of
values (`evalByOrder`).

The merge of an `IN` list is a join of two lists sorted by their mapped values. A row of the list
that agrees with the key of the row meets the range that holds the key, so that it survives the
merge (`mergeKeysAndValues_spec`); a relation is decided only by bounds that hold the key's value
(`unitedBoundsOf_spec`).
-/
import Ytsaurus.Lib.LexOrder
import Ytsaurus.Query.EliminatePredicate
import Ytsaurus.Query.ExtractSoundness

namespace Ytsaurus.Query

open List TableClient Lib ConstraintsHolder Expression

/-! ### Mapped values -/

/-- The values of a row at the mapped positions. -/
def mappedRow (row : Row Scalar) (mapping : List ℕ) : Row Scalar := mapping.map (rowAt row)

theorem compareMapped_eq (lhs rhs : Row Scalar) : ∀ mapping : List (ℕ × ℕ),
    compareMapped lhs rhs mapping = compareValueRanges (mappedRow lhs (mapping.map Prod.fst))
        (mappedRow rhs (mapping.map Prod.snd))
  | [] => by simp [compareMapped, mappedRow, compareValueRanges]
  | (left, right) :: mapping => by
    have ih := compareMapped_eq lhs rhs mapping
    simp only [compareMapped, mappedRow, map_cons, compareValueRanges, ih]

theorem compareValueRanges_eq_zero {lhs rhs : Row Scalar} : compareValueRanges lhs rhs = 0 ↔
    lhs = rhs := by
  have hlt : compareValueRanges lhs rhs < 0 ↔ lhs < rhs := compareValueRanges_lt
  have hgt : compareValueRanges rhs lhs < 0 ↔ rhs < lhs := compareValueRanges_lt
  rw [compareValueRanges_neg rhs lhs] at hgt
  constructor
  · intro h
    exact le_antisymm (not_lt.mp fun hlt' => by have := hgt.mpr hlt'; omega)
      (not_lt.mp fun hlt' => by have := hlt.mpr hlt'; omega)
  · rintro rfl
    have hs := compareValueRanges_neg lhs lhs
    omega

theorem compareRow_eq (lhs rhs : Row Scalar) (mapping : List ℕ) : compareRow lhs rhs mapping =
      compareValueRanges (mappedRow lhs mapping) (mappedRow rhs mapping) := by
  simp [compareRow, compareMapped_eq, Function.comp_def]

theorem compareRow_le {lhs rhs : Row Scalar} {mapping : List ℕ} :
    compareRow lhs rhs mapping ≤ 0 ↔ mappedRow lhs mapping ≤ mappedRow rhs mapping := by
  rw [compareRow_eq, ← not_lt (a := mappedRow rhs mapping), ← compareValueRanges_lt,
    compareValueRanges_neg (mappedRow rhs mapping)]
  omega

theorem sorted_insertionSort {β : Type} (f : β → Row Scalar) (mapping : List ℕ) (l : List β) :
    (l.insertionSort fun a b => compareRow (f a) (f b) mapping ≤ 0).Pairwise
      fun a b => mappedRow (f a) mapping ≤ mappedRow (f b) mapping := by
  have htotal : Std.Total fun a b => compareRow (f a) (f b) mapping ≤ 0 :=
    ⟨fun a b => by simpa only [compareRow_le] using le_total _ _⟩
  have htrans : IsTrans β fun a b => compareRow (f a) (f b) mapping ≤ 0 :=
    ⟨fun a b c => by simpa only [compareRow_le] using le_trans⟩
  exact (pairwise_insertionSort _ l).imp fun h => compareRow_le.mp h

theorem mem_takeWhile_of_eq {β γ : Type} [LinearOrder γ] {f : β → γ} {x : γ} {p : β → Bool}
    (hp : ∀ b, p b = true ↔ x = f b) : ∀ {l : List β}, l.Pairwise (fun a b => f a ≤ f b) →
    (∀ a ∈ l, x ≤ f a) → ∀ {a : β}, a ∈ l → x = f a → a ∈ l.takeWhile p
  | [], _, _, _, ha, _ => ha
  | b :: l, hs, hle, a, ha, heq => by
    have hs' := pairwise_cons.mp hs
    have hb : x = f b := by
      rcases mem_cons.mp ha with rfl | ha
      · exact heq
      · exact le_antisymm (hle b (by simp)) (heq ▸ hs'.1 a ha)
    rw [takeWhile_cons, if_pos ((hp b).mpr hb)]
    rcases mem_cons.mp ha with rfl | ha
    · exact mem_cons_self
    · exact mem_cons_of_mem _ (mem_takeWhile_of_eq hp hs'.2 (fun a ha => hle a (by simp [ha])) ha heq)

/-- The equals of the head of a sorted list are the group in front. -/
theorem mem_group {β γ : Type} [LinearOrder γ] {f : β → γ} {b : β} {p : β → Bool}
    (hp : ∀ a, p a = true ↔ f b = f a)
    {l : List β} (hs : (b :: l).Pairwise fun a a' => f a ≤ f a') {a : β} (ha : a ∈ b :: l) :
    (f b = f a → a ∈ b :: l.takeWhile p) ∧ (f b ≠ f a → a ∈ l.dropWhile p) := by
  obtain ⟨hle, hs⟩ := pairwise_cons.mp hs
  rcases mem_cons.mp ha with rfl | ha
  · exact ⟨fun _ => mem_cons_self, absurd rfl⟩
  · refine ⟨fun heq => mem_cons_of_mem _ (mem_takeWhile_of_eq hp hs hle ha heq), fun hne => ?_⟩
    rw [← takeWhile_append_dropWhile (p := p) (l := l)] at ha
    exact (mem_append.mp ha).resolve_left fun h => hne ((hp a).mp (mem_takeWhile_imp h))

theorem uniteNonEmpty_spec {lists : List (List (Bound Scalar))} (hok : ∀ l ∈ lists, BoundsOk l)
    (hne : lists ≠ []) : ∃ united, uniteNonEmpty lists = .ok united ∧ BoundsOk united ∧
      ∀ x, Inside united x ↔ ∃ l ∈ lists, Inside l x := by
  obtain ⟨hl, hu, hi⟩ := uniteAllBounds_spec lists hok
  have hp := length_pos_iff.mpr hne
  obtain ⟨united, hone⟩ := length_eq_one_iff.mp (hl.trans (by omega))
  rw [hone] at hu hi
  refine ⟨united, by rw [uniteNonEmpty, hone]; rfl, hu united (by simp), fun x => ?_⟩
  rw [← hi x]
  simp

/-! ### The merge of an `IN` list -/

variable {united : List (Bound Scalar)}

namespace InContext

variable {context ctx : InContext}

def keyValues (context : InContext) (key : Row Scalar × ℕ) : Row Scalar :=
  mappedRow key.1 context.keyMapping

def tupleValues (context : InContext) (value : Tuple) : Row Scalar :=
  mappedRow value.toRow context.valueMapping

/-- The mappings run in step, and every key comes with its bounds. -/
structure Ok (context : InContext) (keys : List (Row Scalar × ℕ)) : Prop where
  length_eq : context.keyMapping.length = context.valueMapping.length
  bounds_ok : ∀ bounds, context.bounds = some bounds → ∀ key ∈ keys, ∃ pair, bounds[key.2]? =
    some pair ∧ BoundsOk [pair.1, pair.2]
  bounds_of_range : context.rangeArgIndex.isSome → context.bounds.isSome

theorem Ok.mono {keys keys' : List (Row Scalar × ℕ)} (hok : ctx.Ok keys)
    (hs : ∀ key ∈ keys', key ∈ keys) : ctx.Ok keys' :=
  ⟨hok.length_eq, fun bounds hb key hk => hok.bounds_ok bounds hb key (hs key hk),
    hok.bounds_of_range⟩

/-- The bounds of the key let the row of the list pass. -/
def Admits (context : InContext) (key : Row Scalar × ℕ) (value : Tuple) : Prop :=
  ∀ index bounds pair, context.rangeArgIndex = some index → context.bounds = some bounds →
    bounds[key.2]? = some pair → Inside [pair.1, pair.2] (value.at index)

theorem compareKeyAndValue_eq (hl : ctx.keyMapping.length = ctx.valueMapping.length)
    (key : Row Scalar × ℕ) (value : Tuple) : ctx.compareKeyAndValue key.1 value =
      compareValueRanges (ctx.keyValues key) (ctx.tupleValues value) := by
  rw [compareKeyAndValue, compareMapped_eq, map_fst_zip hl.le, map_snd_zip hl.ge]
  rfl

theorem sameKey_iff {key other : Row Scalar × ℕ} :
    ctx.sameKey key other = true ↔ ctx.keyValues key = ctx.keyValues other := by
  rw [sameKey, decide_eq_true_eq, compareRow_eq, compareValueRanges_eq_zero, keyValues, keyValues]

theorem sameValue_iff {value other : Tuple} :
    ctx.sameValue value other = true ↔ ctx.tupleValues value = ctx.tupleValues other := by
  rw [sameValue, decide_eq_true_eq, compareRow_eq, compareValueRanges_eq_zero, tupleValues,
    tupleValues]

variable {keys : List (Row Scalar × ℕ)}

theorem unitedBounds_spec (hok : ctx.Ok keys) (hne : keys ≠ []) :
    ∃ united, ctx.unitedBounds keys = .ok united ∧ BoundsOk united ∧
      ∀ bounds, ctx.bounds = some bounds → ∀ key ∈ keys, ∀ pair, bounds[key.2]? = some pair →
        ∀ x, Inside [pair.1, pair.2] x → Inside united x := by
  unfold unitedBounds
  cases hb : ctx.bounds with
  | none => exact ⟨[], rfl, ⟨fun x => .nil, rfl⟩, by simp⟩
  | some bounds =>
    have ha : ∀ l ∈ keys.map fun key => (bounds[key.2]?).elim [] fun pair => [pair.1, pair.2],
        BoundsOk l := by
      refine forall_mem_map.mpr fun key hk => ?_
      obtain ⟨pair, hpair, hpairOk⟩ := hok.bounds_ok bounds hb key hk
      rw [hpair]
      exact hpairOk
    obtain ⟨united, hunite, hunited, hi⟩ := uniteNonEmpty_spec ha (by simpa using hne)
    refine ⟨united, hunite, hunited, ?_⟩
    rintro bounds' ⟨⟩ key hk pair hpair x hx
    exact (hi x).mpr ⟨_, mem_map.mpr ⟨key, hk, by rw [hpair]; rfl⟩, hx⟩

theorem survives_spec (hok : ctx.Ok keys) (hu : BoundsOk united)
    (hi : ∀ bounds, ctx.bounds = some bounds → ∀ key ∈ keys, ∀ pair, bounds[key.2]? = some pair →
      ∀ x, Inside [pair.1, pair.2] x → Inside united x)
    (value : Tuple) : ∃ kept, ctx.survives united value = .ok kept ∧
      ((∃ key ∈ keys, ctx.Admits key value) → kept = true) := by
  unfold survives
  cases hr : ctx.rangeArgIndex with
  | none => exact ⟨true, rfl, fun _ => rfl⟩
  | some index =>
    obtain ⟨kept, hc, hkept⟩ := covers_spec (x := value.at index) hu
    refine ⟨kept, hc, ?_⟩
    rintro ⟨key, hkey, ha⟩
    obtain ⟨bounds, hb⟩ := Option.isSome_iff_exists.mp (hok.bounds_of_range (by simp [hr]))
    obtain ⟨pair, hp, -⟩ := hok.bounds_ok bounds hb key hkey
    exact hkept.mpr (hi bounds hb key hkey pair hp _ (ha index bounds pair hr hb hp))

theorem filterValues_spec {P : Tuple → Prop}
    (hsurvives : ∀ value, ∃ kept, ctx.survives united value = .ok kept ∧ (P value → kept = true)) :
    ∀ values : List Tuple, ∃ filtered, ctx.filterValues united values = .ok filtered ∧
      filtered.Sublist values ∧ ∀ value ∈ values, P value → value ∈ filtered
  | [] => ⟨[], rfl, .slnil, by simp⟩
  | value :: values => by
    obtain ⟨kept, hkept, hP⟩ := hsurvives value
    obtain ⟨filtered, hf, hsub, hkeeps⟩ := filterValues_spec hsurvives values
    refine ⟨if kept then value :: filtered else filtered, by simp [filterValues, hkept, hf], ?_, ?_⟩
    · cases kept
      · exact hsub.cons _
      · exact hsub.cons_cons _
    · intro v hv hPv
      rcases mem_cons.mp hv with rfl | hv
      · simp [hP hPv]
      · cases kept
        · exact hkeeps v hv hPv
        · exact mem_cons_of_mem _ (hkeeps v hv hPv)

/-- What the merge leaves of the list. -/
structure Merged (context : InContext) (keys : List (Row Scalar × ℕ)) (values filtered : List Tuple)
    (extra : Bool) : Prop where
  sub : ∀ value ∈ filtered, value ∈ values
  keeps : ∀ value ∈ values, ∀ key ∈ keys, context.keyValues key = context.tupleValues value →
    context.Admits key value → value ∈ filtered
  hits : extra = false → ∀ key ∈ keys, ∃ value ∈ values, context.keyValues key =
    context.tupleValues value

/-- A group of keys and the rows that agree with it, in front of the rest. -/
theorem Merged.group {key : Row Scalar × ℕ} {value : Tuple} {values filtered rest : List Tuple}
    {extra : Bool} (heq : ctx.keyValues key = ctx.tupleValues value)
    (hkeys : (key :: keys).Pairwise fun a b => ctx.keyValues a ≤ ctx.keyValues b)
    (hval : (value :: values).Pairwise fun a b => ctx.tupleValues a ≤ ctx.tupleValues b)
    (hsub : ∀ v ∈ filtered, v ∈ value :: values.takeWhile (ctx.sameValue value))
    (hkeeps : ∀ v ∈ value :: values.takeWhile (ctx.sameValue value),
      (∃ k ∈ key :: keys.takeWhile (ctx.sameKey key), ctx.Admits k v) → v ∈ filtered)
    (hr : ctx.Merged (keys.dropWhile (ctx.sameKey key))
      (values.dropWhile (ctx.sameValue value)) rest extra)
    : ctx.Merged (key :: keys) (value :: values) (filtered ++ rest) extra := by
  have hk : ∀ k ∈ key :: keys, _ := fun k => mem_group (fun _ => sameKey_iff) hkeys
  have hv : ∀ v ∈ value :: values, _ := fun v => mem_group (fun _ => sameValue_iff) hval
  have hdropV : ∀ v ∈ values.dropWhile (ctx.sameValue value), v ∈ value :: values := fun v hv =>
    mem_cons_of_mem _ ((dropWhile_sublist _).subset hv)
  constructor
  · exact forall_mem_append.mpr ⟨fun v hv => (cons_sublist_cons.mpr (takeWhile_sublist _)).subset
      (hsub v hv), fun v hv => hdropV v (hr.sub v hv)⟩
  · intro v hvm k hkm hkv ha
    by_cases hg : ctx.keyValues key = ctx.keyValues k
    · -- both belong to the group
      have hsame : ctx.tupleValues value = ctx.tupleValues v := by rw [← heq, hg, hkv]
      exact mem_append_left _ (hkeeps v ((hv v hvm).1 hsame) ⟨k, (hk k hkm).1 hg, ha⟩)
    · have hne : ctx.tupleValues value ≠ ctx.tupleValues v := by rwa [← heq, ← hkv]
      exact mem_append_right _ (hr.keeps v ((hv v hvm).2 hne) k ((hk k hkm).2 hg) hkv ha)
  · intro hextra k hkm
    by_cases hg : ctx.keyValues key = ctx.keyValues k
    · exact ⟨value, mem_cons_self, hg ▸ heq⟩
    · obtain ⟨v, hv, hkv⟩ := hr.hits hextra k ((hk k hkm).2 hg)
      exact ⟨v, hdropV v hv, hkv⟩

/-- The merge loses no row that agrees with a key whose bounds let it pass. -/
theorem mergeKeysAndValues_spec (keys : List (Row Scalar × ℕ)) (values : List Tuple)
    (hok : ctx.Ok keys) (hkeys : keys.Pairwise fun a b => ctx.keyValues a ≤ ctx.keyValues b)
    (hval : values.Pairwise fun a b => ctx.tupleValues a ≤ ctx.tupleValues b) :
    ∃ filtered extra, ctx.mergeKeysAndValues keys values = .ok (filtered, extra) ∧
      ctx.Merged keys values filtered extra := by
  fun_induction mergeKeysAndValues ctx keys values with
  | case1 values => exact ⟨[], false, rfl, by simp, by simp, by simp⟩
  | case2 key keys => exact ⟨[], true, rfl, by simp, by simp, by simp⟩
  | case3 key keys value values heq ih =>
    rw [compareKeyAndValue_eq hok.length_eq, compareValueRanges_eq_zero] at heq
    have hgroup : ctx.Ok (key :: keys.takeWhile (ctx.sameKey key)) :=
      hok.mono fun _ hk => (cons_sublist_cons.mpr (takeWhile_sublist _)).subset hk
    obtain ⟨united, hunite, hunited, hi⟩ := unitedBounds_spec hgroup (by simp)
    obtain ⟨filtered, hf, hs, hkeeps⟩ := filterValues_spec (survives_spec hgroup hunited hi)
      (value :: values.takeWhile (ctx.sameValue value))
    obtain ⟨rest, extra, hr, hm⟩ := ih
      (hok.mono fun _ hk => mem_cons_of_mem _ ((dropWhile_sublist _).subset hk))
      (hkeys.tail.sublist (dropWhile_sublist _)) (hval.tail.sublist (dropWhile_sublist _))
    exact ⟨filtered ++ rest, extra, by simp only [hunite, hf, hr, ok_bind]; rfl,
      Merged.group heq hkeys hval (fun _ hv => hs.subset hv) hkeeps hm⟩
  | case4 key keys value values hne hlt ih =>
    rw [compareKeyAndValue_eq hok.length_eq, compareValueRanges_lt] at hlt
    obtain ⟨rest, extra, hr, hm⟩ := ih (hok.mono fun k hk => mem_cons_of_mem _ hk) hkeys.tail hval
    refine ⟨rest, true, by simp only [hr, ok_bind]; rfl, hm.sub, ?_, by simp⟩
    intro v hv k hk heq ha
    rcases mem_cons.mp hk with rfl | hk
    · -- the key is less than every row that is left
      have hle : ∀ v ∈ value :: values, ctx.tupleValues value ≤ ctx.tupleValues v :=
        forall_mem_cons.mpr ⟨le_rfl, (pairwise_cons.mp hval).1⟩
      exact absurd heq (hlt.trans_le (hle v hv)).ne
    · exact hm.keeps v hv k hk heq ha
  | case5 key keys value values hne hge ih =>
    rw [compareKeyAndValue_eq hok.length_eq] at hne hge
    have hlt : ctx.tupleValues value < ctx.keyValues key := by
      rw [compareValueRanges_eq_zero] at hne
      rw [compareValueRanges_lt, not_lt] at hge
      exact lt_of_le_of_ne hge (Ne.symm hne)
    obtain ⟨rest, extra, hr, hm⟩ := ih hok hkeys hval.tail
    refine ⟨rest, extra, hr, fun v hv => mem_cons_of_mem _ (hm.sub v hv), ?_, ?_⟩
    · intro v hv k hk heq ha
      rcases mem_cons.mp hv with rfl | hv
      · -- the row is less than every key that is left
        have hle : ∀ k ∈ key :: keys, ctx.keyValues key ≤ ctx.keyValues k :=
          forall_mem_cons.mpr ⟨le_rfl, (pairwise_cons.mp hkeys).1⟩
        exact absurd heq (hlt.trans_le (hle k hk)).ne'
      · exact hm.keeps v hv k hk heq ha
    · intro hextra k hk
      obtain ⟨v, hv, heq⟩ := hm.hits hextra k hk
      exact ⟨v, mem_cons_of_mem _ hv, heq⟩

end InContext

/-! ### The elimination of an `IN` expression -/

variable {lookupKeys : List (Row Scalar)}

section In

variable {keyColumns : List String} {row : DataRow} {I : Interpretation}

/-- The argument at position `j`, when the arguments start at `first`, is the key column `k`. -/
def IsKeyAt (keyColumns : List String) (arguments : List Expression) (first j k : ℕ) : Prop :=
  ∃ i argument, j = first + i ∧ arguments[i]? = some argument ∧
    keyPartOf keyColumns argument = some k

variable {arguments : List Expression}

theorem IsKeyAt.cons {first j k : ℕ} (arg : Expression)
    (h : IsKeyAt keyColumns arguments (first + 1) j k) :
      IsKeyAt keyColumns (arg :: arguments) first j k := by
  obtain ⟨i, argument', hj, rest⟩ := h
  exact ⟨i + 1, argument', hj.trans (by omega), rest⟩

theorem keyArguments_spec (size : ℕ) : ∀ (arguments : List Expression) (first k j : ℕ),
    (k, j) ∈ keyArguments keyColumns size first arguments →
    IsKeyAt keyColumns arguments first j k ∧ k < size
  | [], _, _, _, h => by simp [keyArguments] at h
  | arg :: arguments, first, k, j, h => by
    have ih := keyArguments_spec size arguments (first + 1) k j
    rw [keyArguments] at h
    cases hp : keyPartOf keyColumns arg with
    | none =>
      simp only [hp] at h
      exact (ih h).imp_left (IsKeyAt.cons arg)
    | some idx =>
      simp only [hp] at h
      split_ifs at h with hlt
      · rcases mem_cons.mp h with heq | h
        · simp only [Prod.mk.injEq] at heq
          exact ⟨⟨0, arg, heq.2, rfl, heq.1 ▸ hp⟩, heq.1 ▸ hlt⟩
        · exact (ih h).imp_left (IsKeyAt.cons arg)
      · exact (ih h).imp_left (IsKeyAt.cons arg)

variable {size : ℕ}

theorem keyArguments_of_all : ∀ (arguments : List Expression) (first : ℕ),
    allArgsAreKey keyColumns size arguments = true →
    (keyArguments keyColumns size first arguments).map Prod.snd = range' first arguments.length
  | [], _, _ => rfl
  | arg :: arguments, first, h => by
    simp only [allArgsAreKey, all_cons, Bool.and_eq_true] at h
    obtain ⟨k, hp, hlt⟩ := (Option.any_eq_true _ _).mp h.1
    have ih := keyArguments_of_all arguments (first + 1) h.2
    rw [keyArguments, hp]
    simp only [decide_eq_true_eq] at hlt
    simp [hlt, ih, range'_succ]

theorem rangeArgument_spec : ∀ (arguments : List Expression) (first j : ℕ),
    rangeArgument keyColumns size first arguments = some j →
    IsKeyAt keyColumns arguments first j size
  | [], _, _, h => by simp [rangeArgument] at h
  | arg :: arguments, first, j, h => by
    rw [rangeArgument] at h
    cases hl : rangeArgument keyColumns size (first + 1) arguments with
    | some later =>
      simp only [hl, Option.some.injEq] at h
      exact (h ▸ rangeArgument_spec arguments (first + 1) later hl).cons arg
    | none =>
      simp only [hl] at h
      split_ifs at h with hp
      exact ⟨0, arg, (Option.some.inj h).symm, rfl, hp⟩

variable (row I) in
theorem IsKeyAt.eval {j k : ℕ} (h : IsKeyAt keyColumns arguments 0 j k) :
    (keyOf keyColumns row)[k]? = some (Tuple.at (evalAll I row arguments) j) ∧
      rowAt (Tuple.toRow (evalAll I row arguments)) j =
        .data (Tuple.at (evalAll I row arguments) j) := by
  obtain ⟨i, argument, hj, ha, hp⟩ := h
  rw [Nat.zero_add] at hj
  subst hj
  rw [keyOf_keyPartOf (I := I) hp, evalAll_eq_map, Tuple.at, getD_eq_getElem?_getD, getElem?_map,
    rowAt, Tuple.toRow, getD_eq_getElem?_getD, getElem?_map, getElem?_map, ha]
  exact ⟨rfl, rfl⟩

/-- The key has the values of the row at its first `n` positions. -/
def AgreesBelow (lookupKey : Row Scalar) (key : Key Scalar) (n : ℕ) : Prop :=
  ∀ k < n, ∀ v, key[k]? = some v → rowAt lookupKey k = .data v

theorem mappedRow_eq_of_agrees {lookupKey : Row Scalar}
    (ha : AgreesBelow lookupKey (keyOf keyColumns row) size) :
    mappedRow lookupKey ((keyArguments keyColumns size 0 arguments).map Prod.fst) =
      mappedRow (Tuple.toRow (evalAll I row arguments))
        ((keyArguments keyColumns size 0 arguments).map Prod.snd) := by
  unfold mappedRow
  rw [map_map, map_map]
  apply map_congr_left
  rintro ⟨k, j⟩ hm
  obtain ⟨hk, hlt⟩ := keyArguments_spec size arguments 0 k j hm
  obtain ⟨hv, hr⟩ := hk.eval row I
  exact (ha k hlt _ hv).trans hr.symm

theorem toRow_lt_toRow : ∀ {a b : Tuple}, a.toRow < b.toRow ↔ a < b
  | [], [] | [], b :: bs | a :: as, [] => by simp [Tuple.toRow]
  | a :: as, b :: bs => by
    have ih := toRow_lt_toRow (a := as) (b := bs)
    unfold Tuple.toRow at ih ⊢
    rw [map_cons, map_cons, cons_lt_cons_iff, cons_lt_cons_iff, ih, Value.data_lt_data, Value.data.injEq]

theorem toRow_injective : Function.Injective Tuple.toRow :=
  map_injective_iff.mpr fun _ _ h => Value.data.inj h

theorem mappedRow_range {tuple : Tuple} {n : ℕ} (hl : tuple.length = n) :
    mappedRow tuple.toRow (range' 0 n) = tuple.toRow := by
  apply ext_getElem
  · simp [mappedRow, Tuple.toRow, hl]
  · intro i h1 h2
    simp [mappedRow, rowAt, getD_eq_getElem?_getD, getElem?_eq_getElem h2]

theorem tupleValues_of_all (bounds : Option (List (Bound Scalar × Bound Scalar)))
    (ha : allArgsAreKey keyColumns size arguments = true) {tuple : Tuple}
    (hl : tuple.length = arguments.length) :
    (InContext.ofArguments keyColumns size arguments bounds).tupleValues tuple = tuple.toRow := by
  rw [InContext.tupleValues, InContext.ofArguments, keyArguments_of_all arguments 0 ha,
    mappedRow_range hl]

/-- The sorted rows of the list are its rows, in the order of their mapped values. -/
theorem sortedValues_spec (keyColumns : List String) (size : ℕ) {values : List Tuple}
    (bounds : Option (List (Bound Scalar × Bound Scalar))) (hr : InRowsOk arguments.length values) :
    let ctx := InContext.ofArguments keyColumns size arguments bounds
    let sorted := ctx.sortedValues (allArgsAreKey keyColumns size arguments) values
    (∀ v, v ∈ sorted ↔ v ∈ values) ∧ sorted.Pairwise fun a b =>
        ctx.tupleValues a ≤ ctx.tupleValues b := by
  intro ctx sorted
  by_cases hall : allArgsAreKey keyColumns size arguments = true
  · have hs : sorted = values := by simp [sorted, InContext.sortedValues, hall]
    rw [hs]
    refine ⟨fun v => Iff.rfl, hr.sorted.imp_of_mem fun {a b} ha hb hle => ?_⟩
    rw [tupleValues_of_all bounds hall (hr.length_eq a ha),
      tupleValues_of_all bounds hall (hr.length_eq b hb)]
    exact not_lt.mp fun hlt => absurd hle (not_le.mpr (toRow_lt_toRow.mp hlt))
  · have hs : sorted =
        values.insertionSort fun lhs rhs => compareRow lhs.toRow rhs.toRow ctx.valueMapping ≤ 0 := by
      simp [sorted, InContext.sortedValues, hall]
    rw [hs]
    exact ⟨fun v => mem_insertionSort _, sorted_insertionSort Tuple.toRow ctx.valueMapping values⟩

/-- On a row that agrees with one of the lookup keys the list answers as before. -/
theorem eliminateInExpression_spec {values : List Tuple}
    {bounds : Option (List (Bound Scalar × Bound Scalar))}
    (hrows : InRowsOk arguments.length values)
    (hb : ∀ pairs, bounds = some pairs → ∀ i < lookupKeys.length,
      ∃ pair : Bound Scalar × Bound Scalar, pairs[i]? = some pair ∧ BoundsOk [pair.1, pair.2])
    (hkey : ∃ (i : ℕ) (lookupKey : Row Scalar), lookupKeys[i]? = some lookupKey ∧
      AgreesBelow lookupKey (keyOf keyColumns row) size ∧
      ∀ pairs (pair : Bound Scalar × Bound Scalar) v, bounds = some pairs → pairs[i]? = some pair →
        (keyOf keyColumns row)[size]? = some v → Inside [pair.1, pair.2] v) :
    ∃ e, eliminateInExpression lookupKeys arguments values keyColumns size bounds = .ok e ∧
      e.eval I row = (inTuples arguments values).eval I row := by
  obtain ⟨i, lookupKey, hlookup, hagrees, hinside⟩ := hkey
  set ctx := InContext.ofArguments keyColumns size arguments bounds with hc
  obtain ⟨hmem, hs⟩ := sortedValues_spec keyColumns size bounds hrows
  rw [← hc] at hmem hs
  have hkeys : ∀ key, key ∈ ctx.sortedKeys lookupKeys ↔ lookupKeys[key.2]? = some key.1 := fun key => by
    rw [InContext.sortedKeys, mem_insertionSort, mem_zipIdx_iff_getElem?]
  have hok : ctx.Ok (ctx.sortedKeys lookupKeys) := by
    refine ⟨by simp [hc, InContext.ofArguments], fun pairs hpairs key hk => ?_, ?_⟩
    · exact hb pairs hpairs key.2 (List.getElem?_eq_some_iff.mp ((hkeys key).mp hk)).1
    · intro hrange
      obtain ⟨j, hj⟩ := Option.isSome_iff_exists.mp hrange
      obtain ⟨pairs, hpairs, -⟩ := Option.bind_eq_some_iff.mp hj
      exact Option.isSome_iff_exists.mpr ⟨pairs, hpairs⟩
  obtain ⟨filtered, extra, hmerge, hmerged⟩ := InContext.mergeKeysAndValues_spec _ _ hok
    (sorted_insertionSort Prod.fst ctx.keyMapping lookupKeys.zipIdx) hs
  have hlookup' : (lookupKey, i) ∈ ctx.sortedKeys lookupKeys := (hkeys _).mpr hlookup
  set tuple := evalAll I row arguments with htuple
  have hagree : ctx.keyValues (lookupKey, i) = ctx.tupleValues tuple :=
    mappedRow_eq_of_agrees hagrees
  have hadmits : ctx.Admits (lookupKey, i) tuple := by
    intro index pairs pair hindex hpairs hpair
    obtain ⟨-, -, hrange⟩ := Option.bind_eq_some_iff.mp hindex
    exact hinside pairs pair _ hpairs hpair ((rangeArgument_spec arguments 0 index hrange).eval row I).1
  have hf : tuple ∈ filtered ↔ tuple ∈ values :=
    ⟨fun h => (hmem tuple).mp (hmerged.sub tuple h),
      fun h => hmerged.keeps tuple ((hmem tuple).mpr h) (lookupKey, i) hlookup' hagree hadmits⟩
  have heval : (inTuples arguments values).eval I row = .boolean (decide (tuple ∈ values)) := by
    rw [eval, ← htuple, contains_eq_mem]
  unfold eliminateInExpression
  simp only [← hc, hmerge, ok_bind]
  split_ifs with htrue hempty <;> refine ⟨_, rfl, ?_⟩
  · -- every lookup key met a row, and the arguments are all of that row
    simp only [Bool.and_eq_true, Bool.not_eq_true'] at htrue
    obtain ⟨v, hv, heq⟩ := hmerged.hits htrue.1 _ hlookup'
    have hlen : tuple.length = arguments.length := length_evalAll
    rw [hagree, hc, tupleValues_of_all bounds htrue.2 hlen,
      tupleValues_of_all bounds htrue.2 (hrows.length_eq v ((hmem v).mp hv))] at heq
    have hin : tuple ∈ values := toRow_injective heq ▸ (hmem v).mp hv
    rw [heval, decide_eq_true hin, eval]
  · have hout : ¬tuple ∈ values := by
      rw [← hf, isEmpty_iff.mp hempty]
      exact not_mem_nil
    rw [heval, decide_eq_false hout, eval]
  · rw [heval, eval, ← htuple, contains_eq_mem]
    simp only [mem_insertionSort, hf]

end In

/-! ### Key ranges -/

/-- A range is not inverted, and its upper row is not empty (which `getBounds` verifies). -/
structure KeyRangeOk (keyRange : RowRange Scalar) : Prop where
  lower_le_upper : keyRange.1 ≤ keyRange.2
  upper_ne_nil : keyRange.2 ≠ []

/-- The full key lies in the range. -/
def RowInRange (keyRange : RowRange Scalar) (key : Key Scalar) : Prop :=
  keyRange.1 ≤ Tuple.toRow key ∧ Tuple.toRow key < keyRange.2

theorem between_cons {a : Value Scalar} {lower upper key : Row Scalar} (hl : a :: lower ≤ key)
    (hu : key < a :: upper) : ∃ rest, key = a :: rest ∧ lower ≤ rest ∧ rest < upper := by
  obtain ⟨rest, rfl⟩ := startsWith_of_le_of_lt [a] hl hu
  exact ⟨rest, rfl, (append_le_append_left [a]).mp hl, (append_lt_append_left [a]).mp hu⟩

theorem getBounds_cons (a b : Value Scalar) (lower upper : Row Scalar) (k : ℕ) :
    getBounds (a :: lower, b :: upper) (k + 1) = getBounds (lower, upper) k := by
  simp [getBounds]

theorem commonPrefixSize_pos {k : ℕ} {lower upper : Row Scalar}
    (hk : k + 1 ≤ commonPrefixSize lower upper) :
    ∃ a lower' upper', lower = a :: lower' ∧ upper = a :: upper' ∧ upper' ≠ [] ∧
      k ≤ commonPrefixSize lower' upper' := by
  unfold commonPrefixSize at hk
  split at hk
  · next a as b b' bs =>
    split_ifs at hk with heq
    · exact ⟨a, as, b' :: bs, rfl, by rw [heq], by simp, by omega⟩
    · omega
  · omega

theorem passed_upper (b : Value Scalar) (upper : Row Scalar) (x : Scalar) :
    Bound.passed (.data x) (⟨b, decide (0 + 1 < (b :: upper).length)⟩, false) = true ↔
      b < .data x ∨ b = .data x ∧ upper = [] := by
  cases upper with
  | nil => simp [passed_eq, le_iff_lt_or_eq]
  | cons c upper => simp [passed_eq]

/-- The bounds of a column in a range hold the values of the keys of the range. -/
theorem getBounds_spec : ∀ (k : ℕ) (lower upper : Row Scalar), k ≤ commonPrefixSize lower upper →
    lower ≤ upper →
    upper ≠ [] → ∃ pair, getBounds (lower, upper) k = .ok pair ∧ BoundsOk [pair.1, pair.2] ∧
      ∀ key : Row Scalar, lower ≤ key → key < upper → ∀ v, key[k]? = some (.data v) →
      Inside [pair.1, pair.2] v
  | 0, lower, [], _, _, hne => absurd rfl hne
  | 0, lower, b :: upper, _, hle, _ => by
    have hahead : ∀ (key : Row Scalar) (v : Scalar), key < b :: upper → key[0]? = some (.data v) →
        Bound.passed (.data v) (⟨b, decide (0 + 1 < (b :: upper).length)⟩, false) = false := by
      intro key v hu hv
      obtain ⟨rest, rfl⟩ := head?_eq_some_iff.mp (head?_eq_getElem?.trans hv)
      rw [Bool.eq_false_iff, Ne, passed_upper]
      rw [cons_lt_cons_iff] at hu
      rintro (hlt | ⟨heq, rfl⟩) <;> rcases hu with hu | ⟨heq', hu⟩
      · exact lt_asymm hlt hu
      · exact hlt.ne' heq'
      · exact hu.ne' heq
      · exact absurd hu (by simp)
    cases lower with
    | nil =>
      have hopen : ∀ x : Scalar, Bound.passed (.data x) (⟨.min, false⟩, true) = true := fun x => by
        simp [passed_eq]
      exact ⟨(⟨.min, false⟩, ⟨b, _⟩), rfl, boundsOk_pair fun x _ => hopen x,
        fun key _ hu v hv => inside_pair.mpr ⟨hopen v, hahead key v hu hv⟩⟩
    | cons a lower =>
      refine ⟨(⟨a, true⟩, ⟨b, _⟩), rfl, boundsOk_pair fun x hx => ?_,
        fun key hl hu v hv => inside_pair.mpr ⟨?_, hahead key v hu hv⟩⟩
      · rw [passed_eq, if_pos rfl, decide_eq_true_eq]
        exact (head_le_of_cons_le hle).trans
          (((passed_upper b upper x).mp hx).elim le_of_lt fun h => h.1.le)
      · obtain ⟨rest, rfl⟩ := head?_eq_some_iff.mp (head?_eq_getElem?.trans hv)
        rw [passed_eq, if_pos rfl, decide_eq_true_eq]
        exact head_le_of_cons_le hl
  | k + 1, lower, upper, hk, hle, hne => by
    obtain ⟨a, lower', upper', rfl, rfl, hne', hk'⟩ := commonPrefixSize_pos hk
    have hle' : lower' ≤ upper' := (append_le_append_left [a]).mp hle
    obtain ⟨pair, hp, hok, hi⟩ := getBounds_spec k lower' upper' hk' hle' hne'
    refine ⟨pair, (getBounds_cons a a lower' upper' k).trans hp, hok, fun key hl hu v hv => ?_⟩
    obtain ⟨rest, rfl, hl', hu'⟩ := between_cons hl hu
    exact hi rest hl' hu' v (by simpa using hv)

theorem getElem?_common : ∀ (n : ℕ) (lower upper key : Row Scalar),
    n ≤ commonPrefixSize lower upper → lower ≤ key → key < upper → ∀ k < n, lower[k]? = key[k]?
  | n + 1, lower, upper, key, hn, hl, hu, k, hk => by
    obtain ⟨a, lower', upper', rfl, rfl, -, hn'⟩ := commonPrefixSize_pos hn
    obtain ⟨rest, rfl, hl', hu'⟩ := between_cons hl hu
    cases k with
    | zero => rfl
    | succ k => simpa using getElem?_common n lower' upper' rest hn' hl' hu' k (by omega)

theorem agreesBelow_lower {keyRange : RowRange Scalar} {key : Key Scalar} {n : ℕ}
    (hn : n ≤ commonPrefixSize keyRange.1 keyRange.2) (hin : RowInRange keyRange key) :
    AgreesBelow keyRange.1 key n := by
  intro k hk v hv
  rw [rowAt, getD_eq_getElem?_getD, getElem?_common n keyRange.1 keyRange.2 _ hn hin.1 hin.2 k hk,
    Tuple.toRow, getElem?_map, hv]
  rfl

theorem foldl_min_le : ∀ (sizes : List ℕ) (start : ℕ),
    sizes.foldl min start ≤ start ∧ ∀ size ∈ sizes, sizes.foldl min start ≤ size
  | [], start => by simp
  | size :: sizes, start => by
    have ih := foldl_min_le sizes (min start size)
    exact ⟨ih.1.trans (min_le_left _ _), forall_mem_cons.mpr ⟨ih.1.trans (min_le_right _ _), ih.2⟩⟩

variable {keyRanges : List (RowRange Scalar)}

theorem minCommonPrefixSize_le {keyRange : RowRange Scalar} (hm : keyRange ∈ keyRanges) :
      minCommonPrefixSize keyRanges ≤ commonPrefixSize keyRange.1 keyRange.2 :=
  (foldl_min_le _ _).2 _ (mem_map.mpr ⟨keyRange, hm, rfl⟩)

/-- The bounds that a column has in the ranges. -/
def BoundsOf (k : ℕ) (keyRange : RowRange Scalar) (pair : Bound Scalar × Bound Scalar) : Prop :=
  BoundsOk [pair.1, pair.2] ∧
    ∀ (key : Key Scalar) (v : Scalar), RowInRange keyRange key → key[k]? = some v →
      Inside [pair.1, pair.2] v

theorem forall₂_getElem? {β γ : Type} {P : β → γ → Prop} {l : List β} {r : List γ}
    (ha : Forall₂ P l r) {i : ℕ} {b : β} (hb : l[i]? = some b) : ∃ c, r[i]? = some c ∧ P b c := by
  induction ha generalizing i with
  | nil => simp at hb
  | cons hP _ ih =>
    cases i with
    | zero => exact ⟨_, rfl, Option.some.inj hb ▸ hP⟩
    | succ i => exact ih hb

theorem mapM_getBounds (hok : ∀ keyRange ∈ keyRanges, KeyRangeOk keyRange)
    {k : ℕ} (hk : k ≤ minCommonPrefixSize keyRanges) :
    ∃ pairs, (keyRanges.mapM fun keyRange => getBounds keyRange k) = .ok pairs ∧
      Forall₂ (BoundsOf k) keyRanges pairs := by
  apply mapM_ok
  intro keyRange hm
  obtain ⟨pair, hpair, hpairOk, hinside⟩ := getBounds_spec k keyRange.1 keyRange.2
    (hk.trans (minCommonPrefixSize_le hm)) (hok keyRange hm).lower_le_upper
      (hok keyRange hm).upper_ne_nil
  exact ⟨pair, hpair, hpairOk, fun key v hin hv =>
    hinside _ hin.1 hin.2 v (by simp [Tuple.toRow, hv])⟩

/-- The united bounds of a column hold the values of the keys of all ranges. -/
theorem unitedBoundsOf_spec (hok : ∀ keyRange ∈ keyRanges, KeyRangeOk keyRange)
    (hne : keyRanges ≠ []) {k : ℕ} (hk : k ≤ minCommonPrefixSize keyRanges) :
    ∃ united, unitedBoundsOf keyRanges k = .ok united ∧ BoundsOk united ∧ ∀ keyRange ∈ keyRanges,
      ∀ (key : Key Scalar) (v : Scalar), RowInRange keyRange key → key[k]? = some v →
      Inside united v := by
  obtain ⟨pairs, hpairs, ha⟩ := mapM_getBounds hok hk
  have hlists : ∀ l ∈ pairs.map fun pair => [pair.1, pair.2], BoundsOk l := by
    refine forall_mem_map.mpr fun pair hpair => ?_
    obtain ⟨i, hi⟩ := mem_iff_getElem?.mp hpair
    obtain ⟨keyRange, -, hpairOk, -⟩ := forall₂_getElem? ha.flip hi
    exact hpairOk
  have hne' : pairs ≠ [] := fun h => hne (length_eq_zero_iff.mp (ha.length_eq.trans (h ▸ rfl)))
  obtain ⟨united, hunite, hunited, hinside⟩ := uniteNonEmpty_spec hlists (by simpa using hne')
  refine ⟨united, by rw [unitedBoundsOf, hpairs]; exact hunite, hunited,
    fun keyRange hm key v hin hv => ?_⟩
  obtain ⟨i, hi⟩ := mem_iff_getElem?.mp hm
  obtain ⟨pair, hpair, -, hkeys⟩ := forall₂_getElem? ha hi
  exact (hinside v).mpr ⟨_, mem_map.mpr ⟨pair, mem_of_getElem? hpair, rfl⟩, hkeys key v hin hv⟩

/-! ### Relations -/

variable {op : BinaryOpcode} {relation : Scalar → Scalar → Bool}

theorem relationBounds_spec (hr : op.relation = some relation) (value : Scalar) :
    BoundsOk (relationBounds op value) ∧
      ∀ x, Inside (relationBounds op value) x ↔ relation x value = true := by
  cases op <;> simp only [BinaryOpcode.relation, Option.some.injEq, reduceCtorEq] at hr <;> subst hr
  case equal =>
    refine ⟨boundsOk_pair fun x => ?_, fun x => inside_pair.trans ?_⟩
    · simpa [passed_eq] using le_of_lt
    · suffices h : value ≤ x ∧ x ≤ value ↔ x = value by simpa [passed_eq] using h
      exact ⟨fun h => le_antisymm h.2 h.1, fun h => ⟨h.ge, h.le⟩⟩
  case notEqual =>
    refine ⟨⟨fun x => ?_, by simp [relationBounds]⟩, fun x => ?_⟩
    · simpa [relationBounds, SortedAt, directed, passed_eq] using le_of_lt
    · simp [relationBounds, Inside, insideFrom, passed_eq]
  case less | lessOrEqual | greater | greaterOrEqual =>
    refine ⟨boundsOk_pair fun x => ?_, fun x => inside_pair.trans ?_⟩ <;> simp [passed_eq]

theorem relationBounds_of_none (hr : op.relation = none) (value : Scalar) :
    relationBounds op value = [] := by
  cases op <;> simp [BinaryOpcode.relation, relationBounds] at hr ⊢

theorem decideByBounds_spec {value x : Scalar} {b : Bool} (hr : op.relation = some relation)
    (hu : BoundsOk united)
    (hx : Inside united x) (hb : decideByBounds (relationBounds op value) united = some b) :
    relation x value = b := by
  obtain ⟨hok, hinside⟩ := relationBounds_spec hr value
  have hboth := inside_intersectBounds hok hu (x := x)
  unfold decideByBounds at hb
  split_ifs at hb with he hn ha
  · -- no value lies inside both
    obtain rfl := Option.some.inj hb
    rw [Bool.eq_false_iff, Ne, ← hinside x]
    intro hin
    have := hboth.mpr ⟨hin, hx⟩
    rw [hn] at this
    exact Bool.false_ne_true this
  · obtain rfl := Option.some.inj hb
    rw [ha] at hboth
    exact (hinside x).mp (hboth.mp hx).1

section Refine

variable {keyColumns : List String} {row : DataRow} {I : Interpretation}

/-- In the order of values the comparison is `b`, and so it is with canonical relations unless it is
null. -/
def DecidedAs (I : Interpretation) (row : DataRow) (e : Expression) (b : Bool) : Prop :=
  e.eval { I with useCanonicalNullRelations := false } row = .boolean b ∧
    (e.eval I row = .null ∨ e.eval I row = .boolean b)

/-- The value of a predicate whose `decided` comparisons are read in the order of values, null being
the least. -/
def evalByOrder (I : Interpretation) (row : DataRow)
    (decided : BinaryOpcode → Expression → Expression → Bool) : Expression → Scalar
  | .binaryOp type opcode lhs rhs =>
    if opcode = .and then (evalByOrder I row decided lhs).logicalAnd (evalByOrder I row decided rhs)
    else if opcode = .or then (evalByOrder I row decided lhs).logicalOr (evalByOrder I row decided rhs)
    else if decided opcode lhs rhs then
      (binaryOp type opcode lhs rhs).eval { I with useCanonicalNullRelations := false } row
    else (binaryOp type opcode lhs rhs).eval I row
  | e => e.eval I row

/-- The united bounds of the ranges decide the comparison. -/
def decidedBy (keyRanges : List (RowRange Scalar)) (keyColumns : List String)
    (opcode : BinaryOpcode) (lhs rhs : Expression) : Bool :=
  match (range (minCommonPrefixSize keyRanges + 1)).mapM (unitedBoundsOf keyRanges) with
  | .ok unitedBoundsByColumn =>
    (refineRelation keyColumns unitedBoundsByColumn opcode lhs rhs).isSome
  | .error _ => false

theorem refineRelation_spec {unitedBoundsByColumn : List (List (Bound Scalar))}
    (hu : ∀ (k : ℕ) united v, unitedBoundsByColumn[k]? = some united →
      (keyOf keyColumns row)[k]? = some v → BoundsOk united ∧ Inside united v)
    {opcode : BinaryOpcode} {lhs rhs : Expression} {b : Bool} (type : ValueType)
    (hb : refineRelation keyColumns unitedBoundsByColumn opcode lhs rhs = some b) :
    DecidedAs I row (binaryOp type opcode lhs rhs) b := by
  unfold refineRelation at hb
  split at hb
  · next op type' name value hl =>
    obtain ⟨k, hk, hb⟩ := Option.bind_eq_some_iff.mp hb
    obtain ⟨united, hc, hb⟩ := Option.bind_eq_some_iff.mp hb
    cases hop : op.relation with
    | none =>
      rw [relationBounds_of_none hop] at hb
      simp [decideByBounds] at hb
    | some relation =>
      have hkey : keyRelation keyColumns opcode lhs rhs = some (k, relation, value) := by
        unfold keyRelation
        rw [hl]
        simp only [hk, hop]
      have hany := fun I => eval_keyRelation I row type hkey
      obtain ⟨v, hv, he⟩ := hany { I with useCanonicalNullRelations := false }
      obtain ⟨v', hv', he'⟩ := hany I
      obtain rfl := Option.mem_unique hv hv'
      obtain ⟨hok, hin⟩ := hu k united v hc hv
      rw [DecidedAs, he, he', ← decideByBounds_spec hop hok hin hb]
      refine ⟨by simp [Interpretation.relate], ?_⟩
      unfold Interpretation.relate
      split_ifs
      · exact .inl rfl
      · exact .inr rfl
  · simp at hb

/-- The `IN` lists that `refinePredicate` reaches are as the expression builder leaves them. -/
def InListsSorted : Expression → Prop
  | .binaryOp _ opcode lhs rhs => opcode = .and ∨ opcode = .or → InListsSorted lhs ∧
    InListsSorted rhs
  | .inTuples arguments values => InRowsOk arguments.length values
  | _ => True

variable {e : Expression}

variable (row I) in
theorem booleanLiteral?_eval {value : Bool} (h : booleanLiteral? e = some value) :
    e.eval I row = .boolean value := by
  unfold booleanLiteral? at h
  split at h
  · rw [eval, Option.some.inj h]
  · simp at h

/-- An operator for which `neutral` is neutral and the other truth value absorbing. -/
structure DropsLiterals (op : Scalar → Scalar → Scalar) (neutral : Bool) : Prop where
  congr : ∀ {a b a' b'}, a'.truth = a.truth → b'.truth = b.truth → op a' b' = op a b
  neutral_left : ∀ b, (op (.boolean neutral) b).truth = b.truth
  neutral_right : ∀ a, (op a (.boolean neutral)).truth = a.truth
  absorbing_left : ∀ b, op (.boolean !neutral) b = .boolean !neutral
  absorbing_right : ∀ a, op a (.boolean !neutral) = .boolean !neutral

theorem dropsLiterals_and : DropsLiterals Scalar.logicalAnd true := by
  refine ⟨fun ha hb => by rw [Scalar.logicalAnd, Scalar.logicalAnd, ha, hb], ?_, ?_, ?_, ?_⟩
  all_goals
    intro a
    rw [Scalar.logicalAnd]
    rcases a.truth with _ | _ | _ <;> rfl

theorem dropsLiterals_or : DropsLiterals Scalar.logicalOr false := by
  refine ⟨fun ha hb => by rw [Scalar.logicalOr, Scalar.logicalOr, ha, hb], ?_, ?_, ?_, ?_⟩
  all_goals
    intro a
    rw [Scalar.logicalOr]
    rcases a.truth with _ | _ | _ <;> rfl

theorem makeLogicalExpression_truth {opcode : BinaryOpcode} {neutral : Bool}
    {op : Scalar → Scalar → Scalar} (hop : DropsLiterals op neutral) (he : ∀ type lhs rhs,
      (binaryOp type opcode lhs rhs).eval I row = op (lhs.eval I row) (rhs.eval I row))
    (lhs rhs : Expression) : ((makeLogicalExpression opcode neutral lhs rhs).eval I row).truth =
      (op (lhs.eval I row) (rhs.eval I row)).truth := by
  unfold makeLogicalExpression
  split
  · next value hl =>
    have hl' := booleanLiteral?_eval row I hl
    by_cases hn : value = neutral
    · rw [if_pos hn, hl', hn, hop.neutral_left]
    · rw [if_neg hn, hl', Bool.eq_not.mpr hn, hop.absorbing_left]
  · next value hl hr =>
    have hr' := booleanLiteral?_eval row I hr
    by_cases hn : value = neutral
    · rw [if_pos hn, hr', hn, hop.neutral_right]
    · rw [if_neg hn, hr', Bool.eq_not.mpr hn, hop.absorbing_right]
  · rw [he]

/-- What is not null stays as it is when nulls are replaced. -/
theorem truth_of_defined {a b a' b' : Scalar} (ha : a.truth ≠ none → a'.truth = a.truth)
    (hb : b.truth ≠ none → b'.truth = b.truth) :
    ((a.logicalAnd b).truth ≠ none → (a'.logicalAnd b').truth = (a.logicalAnd b).truth) ∧
      ((a.logicalOr b).truth ≠ none → (a'.logicalOr b').truth = (a.logicalOr b).truth) := by
  unfold Scalar.logicalAnd Scalar.logicalOr
  generalize a.truth = x, b.truth = y, a'.truth = x', b'.truth = y' at *
  rcases x with _ | _ | _ <;> rcases y with _ | _ | _ <;> rcases x' with _ | _ | _ <;>
    rcases y' with _ | _ | _ <;> simp_all [Scalar.truth]

section Walk

variable {relation : BinaryOpcode → Expression → Expression → Option Bool}
  {decided : BinaryOpcode → Expression → Expression → Bool}
  (hdecided : ∀ opcode lhs rhs, decided opcode lhs rhs = (relation opcode lhs rhs).isSome)
  (hrelation : ∀ type opcode lhs rhs b, relation opcode lhs rhs = some b →
    DecidedAs I row (binaryOp type opcode lhs rhs) b)

include hdecided hrelation

/-- The walk reads the comparisons that are decided in the order of values. -/
theorem refinePredicate_spec {inTuples : List Expression → List Tuple → Result Expression}
    (hin : ∀ arguments values, InRowsOk arguments.length values → ∃ e, inTuples arguments values =
        .ok e ∧ e.eval I row = (Expression.inTuples arguments values).eval I row) :
    ∀ e : Expression, InListsSorted e → ∃ e', refinePredicate relation inTuples e = .ok e' ∧
      (e'.eval I row).truth = (evalByOrder I row decided e).truth
  | .binaryOp type opcode lhs rhs, hs => by
    have hlog : ∀ {neutral op}, (opcode = .and ∨ opcode = .or) → DropsLiterals op neutral →
        (∀ type lhs rhs, (binaryOp type opcode lhs rhs).eval I row = op (lhs.eval I row)
          (rhs.eval I row)) →
        ∃ l r, refinePredicate relation inTuples lhs = .ok l ∧
            refinePredicate relation inTuples rhs = .ok r ∧
          ((makeLogicalExpression opcode neutral l r).eval I row).truth =
            (op (evalByOrder I row decided lhs) (evalByOrder I row decided rhs)).truth := by
      intro neutral op hopcode hop heval
      obtain ⟨l, hl, htl⟩ := refinePredicate_spec hin lhs (hs hopcode).1
      obtain ⟨r, hr, htr⟩ := refinePredicate_spec hin rhs (hs hopcode).2
      exact ⟨l, r, hl, hr, by rw [makeLogicalExpression_truth hop heval, hop.congr htl htr]⟩
    rw [evalByOrder]
    by_cases ha : opcode = .and
    · obtain ⟨l, r, hl, hr, htruth⟩ := hlog (.inl ha) dropsLiterals_and fun _ _ _ => by rw [ha, eval]
      subst ha
      exact ⟨_, by simp only [refinePredicate, if_true, hl, hr, ok_bind]; rfl, htruth⟩
    by_cases hor : opcode = .or
    · obtain ⟨l, r, hl, hr, htruth⟩ := hlog (.inr hor) dropsLiterals_or fun _ _ _ => by rw [hor, eval]
      subst hor
      exact ⟨_, by simp only [refinePredicate, ha, if_true, if_false, hl, hr, ok_bind]; rfl, htruth⟩
    · rw [refinePredicate, if_neg ha, if_neg hor, if_neg ha, if_neg hor, hdecided]
      cases hfound : relation opcode lhs rhs with
      | some b => exact ⟨_, rfl,
        by rw [Option.isSome_some, if_pos rfl, (hrelation type opcode lhs rhs b hfound).1, eval]⟩
      | none => exact ⟨_, rfl, rfl⟩
  | .inTuples arguments values, hs => by
    obtain ⟨e, he, heval⟩ := hin arguments values hs
    exact ⟨e, he, congrArg Scalar.truth heval⟩
  | .literal _, _ | .reference _ _, _ | .function _ _, _ | .unaryOp _ _, _ | .between _ _, _
  | .transform _ _ _, _
  | .other _ _, _ => ⟨_, rfl, rfl⟩

/-- The order of values only decides what is null. -/
theorem evalByOrder_of_truth : ∀ e : Expression, (e.eval I row).truth ≠ none →
    (evalByOrder I row decided e).truth = (e.eval I row).truth
  | .binaryOp type opcode lhs rhs, h => by
    obtain ⟨hand, hor⟩ := truth_of_defined (evalByOrder_of_truth lhs) (evalByOrder_of_truth rhs)
    rw [evalByOrder]
    split_ifs with hopcode hopcode' hd
    · rw [hopcode, eval] at h ⊢
      exact hand h
    · rw [hopcode', eval] at h ⊢
      exact hor h
    · obtain ⟨b, hb⟩ := Option.isSome_iff_exists.mp (hdecided opcode lhs rhs ▸ hd)
      obtain ⟨horder, hnull | hsame⟩ := hrelation type opcode lhs rhs b hb
      · rw [hnull] at h
        exact absurd rfl h
      · rw [horder, hsame]
    · rfl
  | .literal _, _ | .reference _ _, _ | .function _ _, _ | .unaryOp _ _, _ | .inTuples _ _, _
  | .between _ _, _
  | .transform _ _ _, _ | .other _ _, _ => rfl

end Walk

/-- Where no comparison is decided or relations are not canonical, the order of values changes
nothing. -/
theorem evalByOrder_eq_eval {decided : BinaryOpcode → Expression → Expression → Bool}
    (h : I.useCanonicalNullRelations = false ∨ ∀ opcode lhs rhs, decided opcode lhs rhs = false) :
    ∀ e : Expression, evalByOrder I row decided e = e.eval I row
  | .binaryOp type opcode lhs rhs => by
    rw [evalByOrder, evalByOrder_eq_eval h lhs, evalByOrder_eq_eval h rhs]
    split_ifs with ha hor hd
    · rw [ha, eval]
    · rw [hor, eval]
    · have hdefault := h.resolve_right fun hnone => by simp [hnone] at hd
      rw [← hdefault]
    · rfl
  | .literal _ | .reference _ _ | .function _ _ | .unaryOp _ _ | .inTuples _ _ | .between _ _
  | .transform _ _ _
  | .other _ _ => rfl

/-- `EliminatePredicate` on a row whose key lies in one of the ranges. -/
theorem eliminatePredicate_spec
    (hok : ∀ keyRange ∈ keyRanges, KeyRangeOk keyRange) (hs : InListsSorted e)
    (hrow : ∃ keyRange ∈ keyRanges, RowInRange keyRange (keyOf keyColumns row)) :
    ∃ e', eliminatePredicate keyRanges e keyColumns = .ok e' ∧
      (e'.eval I row).truth = (evalByOrder I row (decidedBy keyRanges keyColumns) e).truth ∧
      ((e.eval I row).truth ≠ none →
        (evalByOrder I row (decidedBy keyRanges keyColumns) e).truth = (e.eval I row).truth) := by
  obtain ⟨keyRange, hm, hin⟩ := hrow
  obtain ⟨columns, hc, ha⟩ := mapM_ok (f := unitedBoundsOf keyRanges)
    (l := range (minCommonPrefixSize keyRanges + 1)) fun k hk =>
      unitedBoundsOf_spec hok (ne_nil_of_mem hm) (Nat.lt_succ_iff.mp (mem_range.mp hk))
  obtain ⟨pairs, hpairs, hbounds⟩ :=
    mapM_getBounds hok (Nat.le_refl (minCommonPrefixSize keyRanges))
  have hdecided : ∀ opcode lhs rhs, decidedBy keyRanges keyColumns opcode lhs rhs =
      (refineRelation keyColumns columns opcode lhs rhs).isSome := by
    intro opcode lhs rhs
    rw [decidedBy, hc]
  have hrelation : ∀ type opcode lhs rhs b, refineRelation keyColumns columns opcode lhs rhs =
      some b → DecidedAs I row (binaryOp type opcode lhs rhs) b := by
    refine fun type opcode lhs rhs b => refineRelation_spec (fun k united v hk hv => ?_) type
    obtain ⟨k', hk', hu, hinside⟩ := forall₂_getElem? ha.flip hk
    obtain ⟨hlt, heq⟩ := List.getElem?_eq_some_iff.mp hk'
    obtain rfl : k = k' := by simpa using heq
    exact ⟨hu, hinside keyRange hm _ v hin hv⟩
  have hlist : ∀ arguments values, InRowsOk arguments.length values →
      ∃ e, eliminateInExpression (keyRanges.map Prod.fst) arguments
      values keyColumns (minCommonPrefixSize keyRanges) (some pairs) = .ok e ∧
        e.eval I row = (inTuples arguments values).eval I row := by
    intro arguments values hrows
    apply eliminateInExpression_spec hrows
    · rintro _ ⟨⟩ i hi
      have hi' : i < keyRanges.length := by simpa using hi
      obtain ⟨pair, hpair, hpairOk, -⟩ := forall₂_getElem? hbounds (getElem?_eq_getElem hi')
      exact ⟨pair, hpair, hpairOk⟩
    · obtain ⟨i, hi⟩ := mem_iff_getElem?.mp hm
      obtain ⟨pair, hpair, -, hinside⟩ := forall₂_getElem? hbounds hi
      refine ⟨i, keyRange.1, by simp [hi], agreesBelow_lower (minCommonPrefixSize_le hm) hin, ?_⟩
      rintro _ pair' v ⟨⟩ hpair' hv
      obtain rfl := Option.mem_unique hpair hpair'
      exact hinside _ v hin hv
  unfold eliminatePredicate
  simp only [hc, hpairs, ok_bind]
  obtain ⟨e', he', htruth⟩ := refinePredicate_spec hdecided hrelation hlist e hs
  exact ⟨e', he', htruth, evalByOrder_of_truth hdecided hrelation e⟩

theorem eliminatePredicateForKeys_spec (hs : InListsSorted e)
    (hrow : Tuple.toRow (keyOf keyColumns row) ∈ lookupKeys) :
    ∃ e', eliminatePredicateForKeys lookupKeys e keyColumns = .ok e' ∧
      (e'.eval I row).truth = (e.eval I row).truth := by
  have hin : ∀ arguments values, InRowsOk arguments.length values → ∃ e',
      eliminateInExpression lookupKeys arguments values keyColumns keyColumns.length none = .ok e' ∧
        e'.eval I row = (inTuples arguments values).eval I row := by
    refine fun arguments values hrows => eliminateInExpression_spec hrows (by simp) ?_
    obtain ⟨i, hi⟩ := mem_iff_getElem?.mp hrow
    refine ⟨i, _, hi, fun k _ v hv => ?_, by simp⟩
    rw [rowAt, Tuple.toRow, getD_eq_getElem?_getD, getElem?_map, hv]
    rfl
  let relation : BinaryOpcode → Expression → Expression → Option Bool := fun _ _ _ => none
  have hrelation : ∀ type opcode lhs rhs b, relation opcode lhs rhs = some b →
      DecidedAs I row (binaryOp type opcode lhs rhs) b := fun _ _ _ _ _ h => by cases h
  obtain ⟨e', he', htruth⟩ := refinePredicate_spec (fun _ _ _ => rfl) hrelation hin e hs
  exact ⟨e', he', htruth.trans
    (congrArg Scalar.truth (evalByOrder_eq_eval (.inr fun _ _ _ => rfl) e))⟩

/-- `a >= 1 AND (a, b) IN ((2, 3), (7, 1))`. -/
def eliminateExample : Expression :=
  .binaryOp .boolean .and (.binaryOp .boolean .greaterOrEqual (.reference .int64 "a")
    (.literal (.int64 1))) (.inTuples [.reference .int64 "a", .reference .int64 "b"]
      [[.int64 2, .int64 3], [.int64 7, .int64 1]])

def canonicalInterpretation : Interpretation :=
  { nullInterpretation with useCanonicalNullRelations := true }

end Refine

end Ytsaurus.Query
