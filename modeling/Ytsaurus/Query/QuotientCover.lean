/-
# Which quotients the generator finds

What `TQuotientValueGenerator` enumerates for a range of an integer key column,
as integers: the range's first value and, for every divisor, its multiples in
the rest of the range (`enumerate_spec`). For unsigned values that is one value
of each quotient. For signed values below zero the truncated quotient changes
right after a multiple, so the values after the last multiple of a range that
ends below zero can have a quotient that no enumerated value has.

A divisor above `2 ^ 63` is negative as an `i64`. Its quotients in a signedType
column are all zero, its places are at other values, and the largest word is
`-1`, by which the least integer has no remainder.
-/
import Ytsaurus.Query.QuotientGenerator
import Ytsaurus.Lib.TruncatedQuotient

namespace Ytsaurus.Query

open List TableClient Lib QuotientGenerator
open QuotientValueGenerator (drain enumerate)

/-! ### Values of an integer column -/

/-- The integers of the column's type. -/
def lowest (signedType : Bool) : ℤ := if signedType then minInt64 else 0

def highest (signedType : Bool) : ℤ := if signedType then maxInt64 else maxUint64

/-- A value of an integer column. -/
def Scalar.IsColumnValue (signedType : Bool) : Scalar → Prop
  | .null => True
  | .int64 value => signedType = true ∧ minInt64 ≤ value ∧ value ≤ maxInt64
  | .uint64 value => signedType = false ∧ value ≤ maxUint64
  | _ => False

instance (signedType : Bool) : (value : Scalar) → Decidable (value.IsColumnValue signedType)
  | .null => inferInstanceAs (Decidable True)
  | .int64 value => inferInstanceAs
    (Decidable (signedType = true ∧ minInt64 ≤ value ∧ value ≤ maxInt64))
  | .uint64 value => inferInstanceAs (Decidable (signedType = false ∧ value ≤ maxUint64))
  | .double _ => inferInstanceAs (Decidable False)
  | .boolean _ => inferInstanceAs (Decidable False)
  | .string _ => inferInstanceAs (Decidable False)

def Scalar.quotient (divisor : ℕ) : Scalar → Option ℤ
  | .int64 value => some (value.tdiv divisor)
  | .uint64 value => some (value / divisor : ℕ)
  | _ => none

/-- The same truncated quotient by every divisor. -/
def Scalar.SameQuotients (divisors : List ℕ) (u v : Scalar) : Prop :=
  ∀ d ∈ divisors, u.quotient d = v.quotient d

/-- What an enumeration has to give: values of the range in increasing order,
null first if the range has it, and for every value of the range one with the
same quotients. -/
structure EnumeratesQuotients (signedType : Bool) (lower upper : Scalar) (divisors : List ℕ)
    (values : List Scalar) : Prop where
  sorted : values.Pairwise (· < ·)
  bounds : ∀ v ∈ values, v.IsColumnValue signedType ∧ lower ≤ v ∧ v ≤ upper
  null_first : lower = .null → values.head? = some .null
  covers : ∀ u : Scalar, u.IsColumnValue signedType → lower ≤ u → u ≤ upper →
    ∃ v ∈ values, u.SameQuotients divisors v

def ofInteger (signedType : Bool) (x : ℤ) : Scalar :=
  if signedType then .int64 x else .uint64 x.toNat

/-- The integer of a column's value; null counts as the least one. -/
def integerOf (signedType : Bool) : Scalar → ℤ
  | .int64 value => value
  | .uint64 value => value
  | _ => lowest signedType

section Values

variable {sign : Bool} {x y : ℤ} {value : Scalar}

theorem isColumnValue_ofInteger (h1 : lowest sign ≤ x) (h2 : x ≤ highest sign) :
    (ofInteger sign x).IsColumnValue sign := by
  cases sign with
  | false =>
    simp only [lowest, highest, Bool.false_eq_true, if_false] at h1 h2
    exact ⟨rfl, by omega⟩
  | true => exact ⟨rfl, h1, h2⟩

section

variable (h : value.IsColumnValue sign)

include h

theorem Scalar.IsColumnValue.cases :
    value = .null ∨ (value = ofInteger sign (integerOf sign value) ∧
      lowest sign ≤ integerOf sign value ∧ integerOf sign value ≤ highest sign) := by
  cases value with
  | null => exact .inl rfl
  | int64 value =>
    obtain ⟨rfl, h1, h2⟩ := h
    exact .inr ⟨rfl, h1, h2⟩
  | uint64 value =>
    obtain ⟨rfl, h1⟩ := h
    exact .inr ⟨by simp [ofInteger, integerOf], by simp [lowest, integerOf],
      by simpa [highest, integerOf] using h1⟩
  | double | boolean | string => exact h.elim

theorem Scalar.IsColumnValue.lowest_le :
    lowest sign ≤ integerOf sign value := by
  rcases h.cases with rfl | ⟨-, h1, -⟩
  · exact le_rfl
  · exact h1

theorem Scalar.IsColumnValue.le_highest :
    integerOf sign value ≤ highest sign := by
  rcases h.cases with rfl | ⟨-, -, h2⟩
  · cases sign <;> decide
  · exact h2

theorem valueToUint64_eq :
    valueToUint64 value sign = toUint64 (integerOf sign value) := by
  unfold valueToUint64
  cases value with
  | null => cases sign <;> rfl
  | int64 value => rfl
  | uint64 value =>
    have hle : value ≤ maxUint64 := h.2
    simp only [reduceCtorEq, if_false, Scalar.dataUint64, toUint64, integerOf, maxUint64] at hle ⊢
    omega
  | double | boolean | string => exact h.elim

end

theorem null_lt_ofInteger : Scalar.null < ofInteger sign x := by
  change Scalar.encode _ < Scalar.encode _
  cases sign <;> simp [ofInteger, Scalar.encode, Prod.Lex.lt_iff]

theorem ofInteger_lt (hx : lowest sign ≤ x) (h : x < y) : ofInteger sign x < ofInteger sign y := by
  change Scalar.encode _ < Scalar.encode _
  cases sign with
  | false =>
    simp only [lowest, Bool.false_eq_true, if_false] at hx
    have hxy : x < y ∧ 0 < y := by omega
    simp [ofInteger, Scalar.encode, Prod.Lex.lt_iff, hxy]
  | true => simp [ofInteger, Scalar.encode, Prod.Lex.lt_iff, h]

theorem ofInteger_le (hx : lowest sign ≤ x) (h : x ≤ y) : ofInteger sign x ≤ ofInteger sign y := by
  obtain rfl | hlt := h.eq_or_lt
  · exact le_rfl
  · exact (ofInteger_lt hx hlt).le

theorem le_of_ofInteger_le (hy : lowest sign ≤ y) (h : ofInteger sign x ≤ ofInteger sign y) :
    x ≤ y := by
  by_contra hlt
  exact absurd h (not_le.mpr (ofInteger_lt hy (not_le.mp hlt)))

theorem quotient_ofInteger (hx : lowest sign ≤ x) (d : ℕ) :
    (ofInteger sign x).quotient d = some (x.tdiv d) := by
  cases sign with
  | false =>
    obtain ⟨n, rfl⟩ := Int.eq_ofNat_of_zero_le hx
    simp [ofInteger, Scalar.quotient, Int.tdiv_eq_ediv_of_nonneg]
  | true => rfl

theorem sameQuotients_ofInteger {divisors : List ℕ} (hx : lowest sign ≤ x) (hy : lowest sign ≤ y) :
    (ofInteger sign x).SameQuotients divisors (ofInteger sign y) ↔
      SameQuotient {d | d ∈ divisors} x y := by
  refine forall₂_congr fun d _ => ?_
  rw [quotient_ofInteger hx, quotient_ofInteger hy, Option.some_inj]

theorem toUint64_sub (hx : lowest sign ≤ x) (hxy : x ≤ y) (hy : y ≤ highest sign) :
    toUint64 (toUint64 y - toUint64 x) = (y - x).toNat := by
  cases sign <;>
  · simp only [lowest, highest, minInt64, maxInt64, maxUint64, toUint64, Bool.false_eq_true,
      if_false, if_true] at *
    omega

theorem valueAt_eq {gen : QuotientValueGenerator} {offset : ℕ} (hstart : gen.start = toUint64 x)
    (hx : lowest gen.signedType ≤ x) (hle : x + offset ≤ highest gen.signedType) :
    gen.valueAt offset = ofInteger gen.signedType (x + offset) := by
  unfold QuotientValueGenerator.valueAt ofInteger
  rw [hstart]
  cases hs : gen.signedType with
  | false =>
    simp only [hs, lowest, highest, maxUint64, toUint64, Bool.false_eq_true, if_false] at hx hle ⊢
    congr 1
    omega
  | true =>
    simp only [hs, lowest, highest, minInt64, maxInt64, toUint64, toInt64, if_true] at hx hle ⊢
    congr 1
    split_ifs <;> omega

end Values

/-! ### The first places -/

def firstPlace (signedType : Bool) (lo : ℤ) (divisor : ℕ) : ℕ :=
  if signedType then
    let nextValue :=
      if 0 ≤ lo then toUint64 (divisor - lo.tmod (toInt64 divisor))
        else toUint64 (-lo.tmod (toInt64 divisor))
    if nextValue = 0 then divisor else nextValue
  else toUint64 (divisor - (lo.toNat % divisor : ℕ))

section FirstPlace

variable {sign : Bool} {lo : ℤ} {d : ℕ}

theorem toInt64_cases (d : ℕ) : (d < 2 ^ 63 ∧ toInt64 d = d) ∨
    (2 ^ 63 ≤ d ∧ toInt64 d = d - 2 ^ 64) := by
  unfold toInt64
  split_ifs with h
  · exact .inl ⟨h, rfl⟩
  · exact .inr ⟨not_lt.mp h, rfl⟩

theorem toUint64_of_lt {x : ℤ} (h1 : 0 ≤ x) (h2 : x ≤ maxUint64) : toUint64 x = x.toNat := by
  unfold toUint64
  simp only [maxUint64] at h2
  omega

theorem tmod_toInt64 (lo : ℤ) (hd : 0 < d) (hle : d ≤ maxUint64) :
    (0 ≤ lo → 0 ≤ lo.tmod (toInt64 d)) ∧ (lo < 0 → lo.tmod (toInt64 d) ≤ 0) ∧
      (lo.tmod (toInt64 d)).natAbs < d ∧ (lo.tmod (toInt64 d)).natAbs < 2 ^ 63 := by
  simp only [maxUint64] at hle
  have hs : 0 < (toInt64 d).natAbs ∧ (toInt64 d).natAbs ≤ d ∧ (toInt64 d).natAbs ≤ 2 ^ 63 := by
    rcases toInt64_cases d with ⟨h1, h⟩ | ⟨h1, h⟩ <;> rw [h] <;> omega
  have hm : (lo.tmod (toInt64 d)).natAbs < (toInt64 d).natAbs := by
    rw [Int.natAbs_tmod]
    exact Nat.mod_lt _ hs.1
  refine ⟨fun h => Int.tmod_nonneg _ h, fun h => ?_, by omega, by omega⟩
  have hn : 0 ≤ (-lo).tmod (toInt64 d) := Int.tmod_nonneg _ (by omega)
  rw [Int.neg_tmod] at hn
  omega

theorem signedOffset_eq (hd : 0 < d) (hle : d ≤ maxUint64)
    (hdef : ¬(lo = minInt64 ∧ d = maxUint64)) : signedOffset lo d = .ok (firstPlace true lo d) := by
  have hr : remInt64 lo (toInt64 d) = .ok (lo.tmod (toInt64 d)) := by
    refine if_neg ?_
    simp only [maxUint64] at hle hdef
    rintro (h0 | ⟨hlo, h1⟩)
    · rcases toInt64_cases d with ⟨-, h⟩ | ⟨-, h⟩ <;> omega
    · refine hdef ⟨hlo, ?_⟩
      rcases toInt64_cases d with ⟨-, h⟩ | ⟨-, h⟩ <;> omega
  rw [signedOffset, hr, ok_bind, firstPlace, if_pos rfl]
  rfl

theorem signedOffset_undefined : signedOffset minInt64 maxUint64 = .error .undefined := by
  decide +kernel

theorem unsignedOffset_eq (hlo : 0 ≤ lo) (hhi : lo ≤ maxUint64) (hd : 0 < d) (hle : d ≤ maxUint64) :
    unsignedOffset (toUint64 lo) d = .ok (firstPlace false lo d) := by
  have hm := Nat.mod_lt lo.toNat hd
  have hv : toUint64 (d - (lo.toNat % d : ℕ)) = d - lo.toNat % d := by
    rw [toUint64_of_lt (by omega) (by omega)]
    omega
  have hne : toUint64 (d - (lo.toNat % d : ℕ)) ≠ 0 := by omega
  rw [unsignedOffset, remUint64, if_neg hd.ne', ok_bind, toUint64_of_lt hlo hhi]
  dsimp only
  rw [ytVerify_true hne]
  rfl

theorem firstPlace_signed (lo : ℤ) (hd : 0 < d) (hle : d ≤ maxUint64) : (firstPlace true lo d : ℤ) =
    if 0 ≤ lo ∨ lo.tmod (toInt64 d) = 0 then d - lo.tmod (toInt64 d) else -lo.tmod (toInt64 d) := by
  obtain ⟨hnonneg, hneg, h1, h2⟩ := tmod_toInt64 lo hd hle
  simp only [maxUint64] at hle
  rw [firstPlace, if_pos rfl]
  by_cases hlo : 0 ≤ lo
  · have hr := hnonneg hlo
    rw [if_pos hlo, if_pos (Or.inl hlo),
      toUint64_of_lt (by omega) (by simp only [maxUint64]; omega), if_neg (by omega)]
    omega
  · have hr := hneg (not_le.mp hlo)
    rw [if_neg hlo, toUint64_of_lt (by omega) (by simp only [maxUint64]; omega)]
    by_cases hz : lo.tmod (toInt64 d) = 0
    · rw [if_pos (by omega), if_pos (.inr hz)]
      omega
    · rw [if_neg (by omega), if_neg (by omega)]
      omega

theorem firstPlace_unsigned (lo : ℤ) (hd : 0 < d) (hle : d ≤ maxUint64) :
    (firstPlace false lo d : ℤ) = d - (lo.toNat % d : ℕ) := by
  have hm := Nat.mod_lt lo.toNat hd
  rw [firstPlace, if_neg Bool.false_ne_true, toUint64_of_lt (by omega) (by omega)]
  omega

theorem firstPlace_bounds (sign : Bool) (lo : ℤ) (hd : 0 < d) (hle : d ≤ maxUint64) :
    0 < firstPlace sign lo d ∧ firstPlace sign lo d ≤ d := by
  cases sign with
  | false =>
    have h := firstPlace_unsigned lo hd hle
    have hm := Nat.mod_lt lo.toNat hd
    omega
  | true =>
    obtain ⟨hnonneg, hneg, h1, h2⟩ := tmod_toInt64 lo hd hle
    have h := firstPlace_signed lo hd hle
    split_ifs at h with hc <;> omega

section

variable (hd : 0 < d) (hle : d ≤ maxUint64) (hlo : lowest sign ≤ lo)
  (hsignBound : sign = true → d ≤ 2 ^ 63)

include hd hle hlo hsignBound

theorem dvd_firstPlace : (d : ℤ) ∣ lo + firstPlace sign lo d := by
  cases sign with
  | false =>
    obtain ⟨n, rfl⟩ := Int.eq_ofNat_of_zero_le hlo
    rw [firstPlace_unsigned _ hd hle, Int.toNat_natCast]
    have hdvd : (d : ℤ) ∣ (n : ℤ) - (n % d : ℕ) := by
      exact Int.dvd_self_sub_emod
    have := Int.dvd_add hdvd (Int.dvd_refl (d : ℤ))
    rwa [show (n : ℤ) + (d - (n % d : ℕ)) = n - (n % d : ℕ) + d by ring]
  | true =>
    have hm : lo.tmod (toInt64 d) = lo.tmod d := by
      rcases toInt64_cases d with ⟨-, h⟩ | ⟨h1, h⟩
      · rw [h]
      · have hd63 : (d : ℤ) = 2 ^ 63 := by
          have := hsignBound rfl
          omega
        rw [h, hd63, show (2 ^ 63 - 2 ^ 64 : ℤ) = -2 ^ 63 by norm_num, Int.tmod_neg]
    have hdvd : (d : ℤ) ∣ lo - lo.tmod d := Int.dvd_self_sub_tmod
    rw [firstPlace_signed lo hd hle, hm]
    split_ifs with hc
    · have := Int.dvd_add hdvd (Int.dvd_refl (d : ℤ))
      rwa [show lo + (d - lo.tmod d) = lo - lo.tmod d + d by ring]
    · rwa [← sub_eq_add_neg]

theorem stop_firstPlace_iff {offset : ℕ} :
    Stop (firstPlace sign lo) d offset ↔ 0 < offset ∧ (d : ℤ) ∣ lo + offset := by
  have hdvd := dvd_firstPlace hd hle hlo hsignBound
  obtain ⟨hp, hf⟩ := firstPlace_bounds sign lo hd hle
  constructor
  · rintro ⟨k, rfl⟩
    refine ⟨by omega, ?_⟩
    push_cast
    rw [← add_assoc]
    exact Int.dvd_add hdvd (Int.dvd_mul_left _ _)
  · rintro ⟨ho, hm⟩
    have hdiff : (d : ℤ) ∣ offset - firstPlace sign lo d := by
      have := Int.dvd_sub hm hdvd
      rwa [show lo + offset - (lo + firstPlace sign lo d) = (offset : ℤ) -
        firstPlace sign lo d by ring] at this
    obtain ⟨k, hk⟩ := hdiff
    -- the difference is above `-d`, so it is not negative
    have hk0 : 0 ≤ k := by
      by_contra hn
      have : (d : ℤ) * k ≤ d * (-1) := Int.mul_le_mul_of_nonneg_left (by omega) (by omega)
      omega
    obtain ⟨n, rfl⟩ := Int.eq_ofNat_of_zero_le hk0
    refine ⟨n, ?_⟩
    have : ((n * d : ℕ) : ℤ) = d * n := by push_cast; ring
    omega

end

end FirstPlace

/-! ### The enumeration -/

/-- The integers that an enumeration of `lo` to `hi` gives. -/
structure Places (signedType : Bool) (lo hi : ℤ) (divisors : List ℕ) (places : List ℤ) : Prop where
  lo_mem : lo ∈ places
  sorted : places.Pairwise (· < ·)
  bounds : ∀ v ∈ places, lo ≤ v ∧ v ≤ hi
  stops : ∀ d ∈ divisors, ∀ o : ℕ, Stop (firstPlace signedType lo) d o → lo + o ≤ hi →
    lo + o ∈ places
  only : ∀ v ∈ places, v = lo ∨ (∃ d ∈ divisors, Stop (firstPlace signedType lo) d (v - lo).toNat) ∨
    v = lo + maxUint64

section Enumerate

variable {sign : Bool} {lower upper : Scalar} {divisors : List ℕ}

/-- The first place of every divisor is defined. -/
def PlacesDefined (signedType : Bool) (lo : ℤ) (divisors : List ℕ) : Prop :=
  signedType = true → ¬(lo = minInt64 ∧ maxUint64 ∈ divisors)

variable {lo hi : ℤ}

theorem places_of_offsets {offsets : List ℕ} (hle : lo ≤ hi)
    (hp : ∀ d ∈ divisors, 0 < d ∧ d ≤ maxUint64)
    (h : Offsets (firstPlace sign lo) divisors (hi - lo).toNat 0 offsets) :
    Places sign lo hi divisors (offsets.map fun o : ℕ => lo + o) where
  lo_mem := mem_map.mpr ⟨0, mem_of_mem_head? h.head, by simp⟩
  sorted := pairwise_map.mpr (h.sorted.imp fun hlt => by omega)
  bounds := forall_mem_map.mpr fun o ho => by
    have := h.bounds o ho
    omega
  stops := by
    intro d hd o hstop hle'
    have hf := (firstPlace_bounds sign lo (hp d hd).1 (hp d hd).2).1
    have hp' : 0 < o := by
      obtain ⟨k, rfl⟩ := hstop
      omega
    exact mem_map.mpr ⟨o, h.stops d hd o hstop hp' (by omega), rfl⟩
  only := forall_mem_map.mpr fun o ho => by
    have hsub : (lo + o - lo).toNat = o := by omega
    rw [hsub]
    rcases h.only o ho with rfl | hstop | rfl
    · exact .inl (by simp)
    · exact .inr (.inl hstop)
    · exact .inr (.inr rfl)

/-- A new generator. -/
structure Fresh (signedType : Bool) (lower upper : Scalar) (divisors : List ℕ)
    (generator : QuotientValueGenerator) : Prop where
  finished : generator.finished = true
  limit : generator.limit = (integerOf signedType upper - integerOf signedType lower).toNat
  queue : generator.divisorQueue = divisors.map fun divisor => ⟨0, divisor⟩
  start : generator.start = toUint64 (integerOf signedType lower)
  lowerIsNull : generator.lowerIsNull = decide (lower = .null)
  upperIsNull : generator.upperIsNull = decide (upper = .null)
  signed : generator.signedType = signedType

variable {gen : QuotientValueGenerator}

theorem reset_eq {rest : QuotientGenerator} (hf : gen.finished = true)
    (hn : gen.upperIsNull = false) (hr : gen.resetPlaces = .ok rest) :
    gen.reset = if gen.lowerIsNull then .ok (.null, { gen with toQuotientGenerator := rest })
      else QuotientValueGenerator.doNext { gen with toQuotientGenerator := rest } := by
  simp only [QuotientValueGenerator.reset, ytVerify_true hf, ok_bind, hn,
    if_neg Bool.false_ne_true, hr]
  rfl

theorem drain_succ (ha : gen.finished = false) (fuel : ℕ) :
    drain (fuel + 1) gen = (do
      let (value, gen) ← gen.doNext
      let values ← drain fuel gen
      return value :: values) := by
  rw [drain, ha, if_neg Bool.false_ne_true, QuotientValueGenerator.next, ytVerify_true ha, ok_bind]

structure IntegerRange (signedType : Bool) (lower upper : Scalar) (divisors : List ℕ) : Prop where
  lower_ok : lower.IsColumnValue signedType
  upper_ok : upper.IsColumnValue signedType
  not_null : upper ≠ .null
  le : integerOf signedType lower ≤ integerOf signedType upper
  ne_nil : divisors ≠ []
  pos : ∀ d ∈ divisors, 0 < d ∧ d ≤ maxUint64

section

variable (hrange : IntegerRange sign lower upper divisors)

include hrange

theorem IntegerRange.new_ok : ∃ gen, QuotientValueGenerator.new sign lower upper divisors =
    .ok gen ∧ Fresh sign lower upper divisors gen := by
  rw [QuotientValueGenerator.new, ytVerify_true (.inl hrange.not_null)]
  refine ⟨_, rfl, rfl, ?_, rfl, valueToUint64_eq hrange.lower_ok, rfl, rfl, rfl⟩
  simp only [new, valueToUint64_eq hrange.lower_ok, valueToUint64_eq hrange.upper_ok]
  exact toUint64_sub hrange.lower_ok.lowest_le hrange.le hrange.upper_ok.le_highest

theorem Fresh.resetPlaces (h : Fresh sign lower upper divisors gen)
    (hdef : PlacesDefined sign (integerOf sign lower) divisors) :
    ∃ queue, gen.resetPlaces =
        .ok { gen.toQuotientGenerator with nextOffset := 0, finished := false, divisorQueue := queue } ∧
      Queued (firstPlace sign (integerOf sign lower)) divisors 0 queue := by
  have hlo := hrange.lower_ok.lowest_le
  have hhi := hrange.lower_ok.le_highest
  have hdiv : gen.divisorQueue.map QueueItem.divisor = divisors := by
    rw [h.queue, map_map]
    exact map_id' divisors
  rw [QuotientValueGenerator.resetPlaces, h.signed, h.start]
  have hp := hrange.pos
  generalize integerOf sign lower = lo at *
  cases sign with
  | false =>
    refine resetWith_spec h.finished hdiv fun d hd => ?_
    obtain ⟨hd0, hd1⟩ := hp d hd
    exact ⟨unsignedOffset_eq hlo hhi hd0 hd1, (firstPlace_bounds _ _ hd0 hd1).1,
      (firstPlace_bounds _ _ hd0 hd1).2.trans hd1⟩
  | true =>
    have hw : toInt64 (toUint64 lo) = lo := by
      simp only [lowest, highest, minInt64, maxInt64, if_true] at hlo hhi
      unfold toInt64 toUint64
      split_ifs <;> omega
    rw [if_pos rfl, hw]
    refine resetWith_spec h.finished hdiv fun d hd => ?_
    obtain ⟨hd0, hd1⟩ := hp d hd
    have hdef' : ¬(lo = minInt64 ∧ d = maxUint64) := fun ⟨h1, h2⟩ => hdef rfl ⟨h1, h2 ▸ hd⟩
    exact ⟨signedOffset_eq hd0 hd1 hdef', (firstPlace_bounds _ _ hd0 hd1).1,
      (firstPlace_bounds _ _ hd0 hd1).2.trans hd1⟩

/-- A generator that has been reset gives the places of the integers. -/
theorem Fresh.reset_spec (h : Fresh sign lower upper divisors gen)
    (hdef : PlacesDefined sign (integerOf sign lower) divisors) :
    ∃ started, gen.reset = (if gen.lowerIsNull then .ok (.null, started) else started.doNext) ∧
      started.finished = false ∧ ∃ places, Places sign (integerOf sign lower)
        (integerOf sign upper) divisors places ∧ ∀ fuel, drain fuel started =
          if places.length ≤ fuel then .ok (places.map (ofInteger sign)) else .error .fuel := by
  obtain ⟨queue, hp, hq⟩ := h.resetPlaces hrange hdef
  refine ⟨_, reset_eq h.finished (by simpa [hrange.not_null] using h.upperIsNull) hp, rfl, ?_⟩
  have hlo := hrange.lower_ok.lowest_le
  have hhi := hrange.upper_ok.le_highest
  have hle := hrange.le
  have hs : highest sign - lowest sign ≤ maxUint64 := by cases sign <;> decide
  have hl := h.limit
  obtain ⟨offsets, hoffsets, hdrain⟩ :=
    drain_spec (fun d hd => (hrange.pos d hd).1) hrange.ne_nil (gen.limit + 1)
    { gen with
      toQuotientGenerator := { gen.toQuotientGenerator with
        nextOffset := 0, finished := false, divisorQueue := queue } }
    (show gen.limit ≤ maxUint64 by omega) rfl (Nat.zero_le _) (Nat.lt_succ_self _) hq
  rw [hl] at hoffsets
  refine ⟨offsets.map fun o : ℕ => integerOf sign lower + o,
    places_of_offsets hle hrange.pos hoffsets, fun fuel => (hdrain fuel).trans ?_⟩
  rw [length_map, map_map]
  congr 2
  refine map_congr_left fun o ho => ?_
  have hb := (hoffsets.bounds o ho).2
  rw [Function.comp_apply, ← h.signed]
  refine valueAt_eq (by rw [h.signed]; exact h.start) (by rw [h.signed]; exact hlo) ?_
  rw [h.signed]
  omega

/-- What the generator enumerates: null if the range starts with it, and the
places of the integers. -/
theorem enumerate_spec
    (hdef : PlacesDefined sign (integerOf sign lower) divisors) :
    ∃ places, Places sign (integerOf sign lower) (integerOf sign upper) divisors places ∧ ∀ values,
      (∃ fuel, enumerate fuel sign lower upper divisors = .ok values) ↔
        values = (if lower = .null then [.null] else []) ++ places.map (ofInteger sign) := by
  obtain ⟨gen, hn, hf⟩ := hrange.new_ok
  obtain ⟨started, hreset, ha, places, hp, hdrain⟩ := hf.reset_spec hrange hdef
  rw [hf.lowerIsNull] at hreset
  refine ⟨places, hp, fun values => ?_⟩
  simp only [enumerate, hn, ok_bind, hreset, decide_eq_true_eq]
  by_cases hl : lower = .null
  · simp only [if_pos hl, ok_bind, hdrain]
    constructor
    · rintro ⟨fuel, h⟩
      split_ifs at h
      · exact (Except.ok.inj h).symm
      · cases h
    · rintro rfl
      refine ⟨places.length, ?_⟩
      rw [if_pos le_rfl]
      rfl
  · simp only [if_neg hl, ← drain_succ ha, hdrain, nil_append]
    constructor
    · rintro ⟨fuel, h⟩
      split_ifs at h
      exact (Except.ok.inj h).symm
    · rintro rfl
      exact ⟨places.length, if_pos (Nat.le_succ _)⟩

end

variable {places : List ℤ}

theorem Places.multiples (h : Places sign lo hi divisors places) (hlo : lowest sign ≤ lo)
    (hp : ∀ d ∈ divisors, 0 < d ∧ d ≤ maxUint64) {d : ℕ} (hd : d ∈ divisors)
    (hsignBound : sign = true → d ≤ 2 ^ 63) {m : ℤ} (hm : (d : ℤ) ∣ m) (h1 : lo < m) (h2 : m ≤ hi) :
      m ∈ places := by
  have heq : lo + ((m - lo).toNat : ℤ) = m := by omega
  have hs : Stop (firstPlace sign lo) d (m - lo).toNat := by
    refine (stop_firstPlace_iff (hp d hd).1 (hp d hd).2 hlo hsignBound).mpr ⟨by omega, ?_⟩
    rwa [heq]
  have hmem := h.stops d hd _ hs (by omega)
  rwa [heq] at hmem

/-! ### The outcome of an enumeration -/

/-- The remainder of the least integer by `-1`. -/
theorem enumerate_undefined (hrange : IntegerRange true lower upper divisors)
    (hlo : integerOf true lower = minInt64) (hmem : maxUint64 ∈ divisors) (fuel : ℕ) :
      enumerate fuel true lower upper divisors = .error .undefined := by
  obtain ⟨gen, hn, hf⟩ := hrange.new_ok
  have hw : toInt64 (toUint64 minInt64) = minInt64 := by decide
  have hp : gen.resetPlaces = .error .undefined := by
    rw [QuotientValueGenerator.resetPlaces, hf.signed, if_pos rfl, hf.start, hlo, hw,
      resetSigned, resetWith, ytVerify_true hf.finished, ok_bind, mapM_error]
    · rfl
    · intro item hitem
      rw [hf.queue] at hitem
      obtain ⟨d, hd, rfl⟩ := mem_map.mp hitem
      by_cases hmax : d = maxUint64
      · subst hmax
        exact .inl (by rw [signedOffset_undefined]; rfl)
      · rw [signedOffset_eq (hrange.pos d hd).1 (hrange.pos d hd).2 fun h => hmax h.2]
        exact .inr ⟨_, rfl⟩
    · refine ⟨⟨0, maxUint64⟩, ?_, by rw [signedOffset_undefined]; rfl⟩
      rw [hf.queue]
      exact mem_map_of_mem hmem
  have hu : gen.upperIsNull = false := by simpa [hrange.not_null] using hf.upperIsNull
  rw [enumerate, hn, ok_bind, QuotientValueGenerator.reset, ytVerify_true hf.finished, ok_bind,
    hu, if_neg Bool.false_ne_true, hp]
  rfl

/-! ### The quotients -/

theorem tdiv_eq_zero_of_large {x : ℤ} {d : ℕ} (h1 : lowest true ≤ x) (h2 : x ≤ highest true)
    (hd : 2 ^ 63 < d) : x.tdiv d = 0 := by
  simp only [lowest, highest, minInt64, maxInt64, if_true] at h1 h2
  rw [← Int.natAbs_eq_zero, Int.natAbs_tdiv, Int.natAbs_natCast]
  exact Nat.div_eq_of_lt (by omega)

theorem sameQuotient_iff {x y : ℤ} (hx1 : lowest sign ≤ x) (hx2 : x ≤ highest sign)
    (hy1 : lowest sign ≤ y) (hy2 : y ≤ highest sign) :
    SameQuotient {d | d ∈ divisors ∧ (sign = true → d ≤ 2 ^ 63)} x y ↔
      SameQuotient {d | d ∈ divisors} x y := by
  refine ⟨fun h d hd => ?_, fun h d hd => h d hd.1⟩
  by_cases hsignBound : sign = true → d ≤ 2 ^ 63
  · exact h d ⟨hd, hsignBound⟩
  · obtain ⟨rfl, hl⟩ := Classical.not_imp.mp hsignBound
    rw [tdiv_eq_zero_of_large hx1 hx2 (not_le.mp hl), tdiv_eq_zero_of_large hy1 hy2 (not_le.mp hl)]

/-- A signed range ends at or above zero, at a multiple of a divisor, or with
the quotients of its first value or of the first place of a divisor that is
negative as an `i64`. -/
def EndReached (lo hi : ℤ) (divisors : List ℕ) : Prop :=
  0 ≤ hi ∨ (∃ d ∈ divisors, (d : ℤ) ∣ hi) ∨
    ∃ v ≤ hi, (v = lo ∨ ∃ d ∈ divisors, 2 ^ 63 < d ∧ v = lo + firstPlace true lo d) ∧
      SameQuotient {d | d ∈ divisors} hi v

/-- The places of a range that ends below zero and is not reached by the divisors' multiples. -/
theorem Places.end_iff (h : Places true lo hi divisors places) (hlo : lowest true ≤ lo)
    (hle : lo ≤ hi) (hpos : ∀ d ∈ divisors, 0 < d ∧ d ≤ maxUint64) :
    (0 ≤ hi ∨ ∃ v ∈ places, SameQuotient {d | d ∈ divisors} hi v) ↔ EndReached lo hi divisors := by
  refine or_congr_right' fun hneg => ?_
  rw [not_le] at hneg
  have hsmall : minInt64 ≤ hi := le_trans hlo hle
  have hlo' : minInt64 ≤ lo := hlo
  simp only [minInt64] at hsmall hlo'
  constructor
  · rintro ⟨v, hv, hsame⟩
    have hb := h.bounds v hv
    rcases h.only v hv with rfl | ⟨d, hd, hstop⟩ | rfl
    · exact .inr ⟨v, hb.2, .inl rfl, hsame⟩
    · by_cases hsignBound : d ≤ 2 ^ 63
      · obtain ⟨-, hdvd⟩ := (stop_firstPlace_iff (hpos d hd).1 (hpos d hd).2 hlo fun _ =>
          hsignBound).mp hstop
        rw [show lo + ((v - lo).toNat : ℤ) = v by omega] at hdvd
        have he := eq_of_sameQuotient_of_dvd (hpos d hd).1 hb.2 hneg hdvd (hsame d hd)
        exact .inl ⟨d, hd, he ▸ hdvd⟩
      · -- the second place of such a divisor is not below zero
        obtain ⟨k, hk⟩ := hstop
        have hz : k = 0 := by
          by_contra hne
          have := Nat.le_mul_of_pos_left d (Nat.pos_of_ne_zero hne)
          omega
        subst hz
        exact .inr ⟨v, hb.2, .inr ⟨d, hd, by omega, by omega⟩, hsame⟩
    · have := hb.2
      simp only [maxUint64] at this
      omega
  · rintro (⟨d, hd, hdvd⟩ | ⟨v, hv, hplace, hsame⟩)
    · have hsignBound : d ≤ 2 ^ 63 := by
        have hdiv := Int.le_of_dvd (by omega : (0 : ℤ) < -hi) (Int.dvd_neg.mpr hdvd)
        omega
      refine ⟨hi, ?_, fun _ _ => rfl⟩
      obtain rfl | hlt := hle.eq_or_lt
      · exact h.lo_mem
      · exact h.multiples hlo hpos hd (fun _ => hsignBound) hdvd hlt le_rfl
    · refine ⟨v, ?_, hsame⟩
      rcases hplace with rfl | ⟨d, hd, hlarge, rfl⟩
      · exact h.lo_mem
      · exact h.stops d hd _ ⟨0, by simp⟩ hv

theorem Places.cover_iff (h : Places sign lo hi divisors places) (hlo : lowest sign ≤ lo)
    (hle : lo ≤ hi) (hhi : hi ≤ highest sign) (hp : ∀ d ∈ divisors, 0 < d ∧ d ≤ maxUint64) :
    (∀ u, lo ≤ u → u ≤ hi → ∃ v ∈ places, SameQuotient {d | d ∈ divisors} u v) ↔
      (sign = true → EndReached lo hi divisors) := by
  have hmul : ∀ d ∈ {d | d ∈ divisors ∧ (sign = true → d ≤ 2 ^ 63)}, ∀ m : ℤ, (d : ℤ) ∣ m → lo < m →
    m ≤ hi → m ∈ {v | v ∈ places} := fun d hd m hm h1 h2 => h.multiples hlo hp hd.1 hd.2 hm h1 h2
  have hr := represented_iff (fun d hd => (hp d hd.1).1) h.lo_mem hmul hle
    (fun v hv => (h.bounds v hv).2)
  have hs : ∀ u v, lo ≤ u → u ≤ hi → v ∈ places →
      (SameQuotient {d | d ∈ divisors ∧ (sign = true → d ≤ 2 ^ 63)} u v ↔
          SameQuotient {d | d ∈ divisors} u v) := by
    intro u v h1 h2 hv
    have := h.bounds v hv
    exact sameQuotient_iff (by omega) (by omega) (by omega) (by omega)
  have ha : (∀ u, lo ≤ u → u ≤ hi → ∃ v ∈ places, SameQuotient {d | d ∈ divisors} u v) ↔
      0 ≤ hi ∨ ∃ v ∈ places, SameQuotient {d | d ∈ divisors} hi v := by
    refine Iff.trans ?_ (hr.trans (or_congr_right ?_))
    · exact forall_congr' fun u => imp_congr_right fun h1 => imp_congr_right fun h2 =>
        exists_congr fun v => and_congr_right fun hv => (hs u v h1 h2 hv).symm
    · exact exists_congr fun v => and_congr_right fun hv => hs hi v hle le_rfl hv
  rw [ha]
  cases sign with
  | false =>
    simp only [lowest, Bool.false_eq_true, if_false] at hlo
    exact ⟨fun _ hf => absurd hf Bool.false_ne_true, fun _ => .inl (by omega)⟩
  | true => exact (h.end_iff hlo hle hp).trans ⟨fun he _ => he, fun he => he rfl⟩

theorem eq_null_of_le {value : Scalar} (h : value.IsColumnValue sign) (hle : value ≤ .null) :
    value = .null := by
  rcases h.cases with hn | ⟨heq, -, -⟩
  · exact hn
  · rw [heq] at hle
    exact absurd hle (not_le.mpr null_lt_ofInteger)

theorem enumerate_null (hl : lower.IsColumnValue sign) (hle : lower ≤ upper) (hn : upper = .null) :
    enumerate 0 sign lower upper divisors = .ok [.null] := by
  subst hn
  obtain rfl := eq_null_of_le hl hle
  rfl

theorem integerOf_le (hlower : lower.IsColumnValue sign) (hupper : upper.IsColumnValue sign)
    (hn : upper ≠ .null) (hle : lower ≤ upper) : integerOf sign lower ≤ integerOf sign upper := by
  have hup := (hupper.cases.resolve_left hn).1
  rcases hlower.cases with rfl | ⟨hl, -, -⟩
  · exact hupper.lowest_le
  · rw [hup, hl] at hle
    exact le_of_ofInteger_le hupper.lowest_le hle

/-- The values of an enumeration, from the integers. -/
theorem enumeratesQuotients_iff_cover (hrange : IntegerRange sign lower upper divisors)
    (h : Places sign (integerOf sign lower) (integerOf sign upper) divisors places) :
    EnumeratesQuotients sign lower upper divisors
        ((if lower = .null then [.null] else []) ++ places.map (ofInteger sign)) ↔
      ∀ u, integerOf sign lower ≤ u → u ≤ integerOf sign upper →
      ∃ v ∈ places, SameQuotient {d | d ∈ divisors} u v := by
  obtain ⟨hlower, hupper, hnull, -, hne, -⟩ := hrange
  have hlo := hlower.lowest_le
  have hhi := hupper.le_highest
  have hup := (hupper.cases.resolve_left hnull).1
  have hlow : ∀ x, integerOf sign lower ≤ x → lower ≤ ofInteger sign x := by
    intro x hx
    rcases hlower.cases with rfl | ⟨heq, -, -⟩
    · exact null_lt_ofInteger.le
    · rw [heq]
      exact ofInteger_le hlo hx
  have hhigh : ∀ x, lowest sign ≤ x → x ≤ integerOf sign upper → ofInteger sign x ≤ upper := by
    intro x hx hle
    rw [hup]
    exact ofInteger_le hx hle
  -- null is among the values only if the range has it
  have hm : ∀ v, v ∈ (if lower = .null then [Scalar.null] else []) ++ places.map (ofInteger sign) ↔
      (v = .null ∧ lower = .null) ∨ ∃ x ∈ places, v = ofInteger sign x := by
    intro v
    rw [mem_append, mem_map]
    refine or_congr ?_ (exists_congr fun x => and_congr_right fun _ => eq_comm)
    split_ifs with hl <;> simp [hl]
  constructor
  · intro hen u h1 h2
    obtain ⟨v, hv, hs⟩ := hen.covers (ofInteger sign u)
      (isColumnValue_ofInteger (by omega) (by omega)) (hlow u h1) (hhigh u (by omega) h2)
    rcases (hm v).mp hv with ⟨rfl, -⟩ | ⟨x, hx, rfl⟩
    · obtain ⟨d, hd⟩ := exists_mem_of_ne_nil divisors hne
      have := hs d hd
      rw [quotient_ofInteger (by omega)] at this
      cases this
    · have := h.bounds x hx
      exact ⟨x, hx, (sameQuotients_ofInteger (by omega) (by omega)).mp hs⟩
  · intro hc
    refine ⟨?_, fun v hv => ?_, fun hl => by simp [hl], fun u hu h1 h2 => ?_⟩
    · have hp : (places.map (ofInteger sign)).Pairwise (· < ·) := by
        refine pairwise_map.mpr (h.sorted.imp_of_mem fun {x y} hx _ hlt => ?_)
        have := h.bounds x hx
        exact ofInteger_lt (by omega) hlt
      split_ifs with hl
      · exact pairwise_cons.mpr ⟨forall_mem_map.mpr fun x _ => null_lt_ofInteger, hp⟩
      · exact hp
    · rcases (hm v).mp hv with ⟨rfl, rfl⟩ | ⟨x, hx, rfl⟩
      · refine ⟨trivial, le_rfl, ?_⟩
        rw [hup]
        exact null_lt_ofInteger.le
      · have := h.bounds x hx
        exact ⟨isColumnValue_ofInteger (by omega) (by omega), hlow x this.1, hhigh x (by omega) this.2⟩
    · rcases hu.cases with rfl | ⟨heq, hu1, hu2⟩
      · -- null is in the range only if it is the lower end
        exact ⟨.null, (hm _).mpr (.inl ⟨rfl, eq_null_of_le hlower h1⟩), fun _ _ => rfl⟩
      · have hlu : integerOf sign lower ≤ integerOf sign u := by
          rcases hlower.cases with rfl | ⟨hl, -, -⟩
          · exact hu1
          · rw [hl, heq] at h1
            exact le_of_ofInteger_le hu1 h1
        have huh := integerOf_le hu hupper hnull h2
        obtain ⟨v, hv, hs⟩ := hc _ hlu huh
        have := h.bounds v hv
        refine ⟨_, (hm _).mpr (.inr ⟨v, hv, rfl⟩), ?_⟩
        rw [heq]
        exact (sameQuotients_ofInteger hu1 (by omega)).mpr hs

/-- The quotients that `TQuotientValueGenerator` enumerates: for every range of
column values and every list of divisors it returns, in increasing order and
inside the range, a value with the quotients of each value of the range, exactly
when the range is not signed, or is null only, or every remainder is defined and
its end is reached. -/
theorem enumeratesQuotients_iff (hlower : lower.IsColumnValue signedType)
    (hupper : upper.IsColumnValue signedType)
    (hle : lower ≤ upper) (hne : divisors ≠ []) (hpos : ∀ d ∈ divisors, 0 < d ∧ d ≤ maxUint64) :
    (∃ fuel values, enumerate fuel signedType lower upper divisors = .ok values ∧
        EnumeratesQuotients signedType lower upper divisors values) ↔ (upper ≠ .null →
        signedType = true → ¬(integerOf true lower = minInt64 ∧ maxUint64 ∈ divisors) ∧
        EndReached (integerOf true lower) (integerOf true upper) divisors) := by
  by_cases hnull : upper = .null
  · refine ⟨fun _ hne => absurd hnull hne, fun _ => ⟨0, _, enumerate_null hlower hle hnull, ?_⟩⟩
    have hl := eq_null_of_le hlower (hnull ▸ hle)
    refine ⟨pairwise_singleton _ _, by simp [hl, hnull, Scalar.IsColumnValue], fun _ =>
      rfl, fun u hu _ h2 => ?_⟩
    have hu0 := eq_null_of_le hu (hnull ▸ h2)
    exact ⟨.null, mem_singleton_self _, hu0 ▸ fun _ _ => rfl⟩
  have hrange : IntegerRange signedType lower upper divisors :=
    ⟨hlower, hupper, hnull, integerOf_le hlower hupper hnull hle, hne, hpos⟩
  by_cases hdef : PlacesDefined signedType (integerOf signedType lower) divisors
  · obtain ⟨places, hplaces, hrun⟩ := enumerate_spec hrange hdef
    have hcover := (enumeratesQuotients_iff_cover hrange hplaces).trans
      (hplaces.cover_iff hlower.lowest_le hrange.le hupper.le_highest hpos)
    constructor
    · rintro ⟨fuel, values, hok, hen⟩ - rfl
      obtain rfl := (hrun values).mp ⟨fuel, hok⟩
      exact ⟨hdef rfl, hcover.mp hen rfl⟩
    · intro hend
      obtain ⟨fuel, hok⟩ := (hrun _).mpr rfl
      refine ⟨fuel, _, hok, hcover.mpr ?_⟩
      rintro rfl
      exact (hend hnull rfl).2
  · obtain ⟨hsigned, hundef⟩ := Classical.not_imp.mp hdef
    rw [not_not] at hundef
    subst hsigned
    refine ⟨fun ⟨fuel, values, hrun, _⟩ => ?_, fun hend => absurd hundef (hend hnull rfl).1⟩
    rw [enumerate_undefined hrange hundef.1 hundef.2] at hrun
    cases hrun

/-- The signed integers from -7 to 9 by 3. -/
theorem enumeratesQuotients_example : ∃ fuel values,
    enumerate fuel true (.int64 (-7)) (.int64 9) [3] = .ok values ∧
      EnumeratesQuotients true (.int64 (-7)) (.int64 9) [3] values :=
  (enumeratesQuotients_iff (by decide) (by decide) (by decide) (by decide) (by decide)).mpr fun _ _ =>
    ⟨by decide, .inl (by decide)⟩

/-- The signed integers from -7 to -4 by 3: the generator gives -7 and -6, whose
quotients are -2, and that of -4 is -1. -/
theorem enumeratesQuotients_negative :
    ¬∃ fuel values, enumerate fuel true (.int64 (-7)) (.int64 (-4)) [3] = .ok values ∧
      EnumeratesQuotients true (.int64 (-7)) (.int64 (-4)) [3] values := by
  rintro ⟨fuel, values, hrun, hen⟩
  have hvalues : enumerate 2 true (.int64 (-7)) (.int64 (-4)) [3] =
    .ok [.int64 (-7), .int64 (-6)] := by decide +kernel
  have hrange : IntegerRange true (.int64 (-7)) (.int64 (-4)) [3] :=
    ⟨by decide, by decide, by decide, by decide, by decide, by decide⟩
  obtain ⟨places, -, hspec⟩ := enumerate_spec hrange fun _ => by decide
  obtain rfl := ((hspec values).mp ⟨fuel, hrun⟩).trans ((hspec _).mp ⟨2, hvalues⟩).symm
  obtain ⟨v, hv, hsame⟩ := hen.covers (.int64 (-4)) (by decide) (by decide) (by decide)
  have hthree := hsame 3 (by simp)
  simp only [mem_cons, not_mem_nil, or_false] at hv
  rcases hv with rfl | rfl
  · exact absurd hthree (by decide)
  · exact absurd hthree (by decide)

end Enumerate

end Ytsaurus.Query
