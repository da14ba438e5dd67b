/-
# Binary decimals

`DecimalIntegerToBinaryUnchecked` of `library/decimal/decimal.cpp` flips the highest bit of an
integer and writes its bytes from the highest to the lowest, so that byte strings are ordered like
the integers.

An integer of 32, 64, 128 or 256 bits is its machine words, the highest first: the `High` and the
`Low` of 128 bits, the `Parts` of 256 bits from the last to the first. In memory the lowest byte
comes first.
-/
import Mathlib

namespace Ytsaurus.Decimal

open List

/-! ### Integers -/

inductive UnderlyingInteger
  | i32 | i64 | i128 | i256

namespace UnderlyingInteger

/-- The size of a machine word in bytes. -/
def wordSize : UnderlyingInteger → ℕ
  | .i32 | .i256 => 4
  | .i64 | .i128 => 8

def wordCount : UnderlyingInteger → ℕ
  | .i32 | .i64 => 1
  | .i128 => 2
  | .i256 => 8

end UnderlyingInteger

abbrev Words (m : ℕ) := List (BitVec (8 * m))

structure Integer (t : UnderlyingInteger) where
  words : Words t.wordSize
  length_eq : words.length = t.wordCount

variable {m : ℕ} {t : UnderlyingInteger}

/-- The number that words form. -/
def number : Words m → ℕ
  | [] => 0
  | w :: ws => number ws + 256 ^ (m * ws.length) * w.toNat

/-- The number that an integer stands for: its highest word is signed. -/
def toInt : Words m → ℤ
  | [] => 0
  | w :: ws => number ws + 256 ^ (m * ws.length) * w.toInt

def isNegativeInteger (words : Words m) : Bool := words.head?.any BitVec.msb

/-- The loop of `operator<=>`. -/
def compareParts : Words m → Words m → Ordering
  | l :: lhs, r :: rhs => if l.toNat ≠ r.toNat then compare l.toNat r.toNat
    else compareParts lhs rhs
  | _, _ => .eq

/-- `operator<=>` of 256-bit integers. -/
def compare256 (lhs rhs : Words m) : Ordering :=
  if isNegativeInteger lhs && !isNegativeInteger rhs then .lt
  else if !isNegativeInteger lhs && isNegativeInteger rhs then .gt
  else compareParts lhs rhs

/-- The order of the integers of a type. -/
def less : {t : UnderlyingInteger} → Integer t → Integer t → Prop
  | .i256, lhs, rhs => compare256 lhs.words rhs.words = .lt
  | _, lhs, rhs => toInt lhs.words < toInt rhs.words

/-- The loop of `operator-` that adds one: the words, and if it goes on above them. -/
def addOne : Words m → Words m × Bool
  | [] => ([], true)
  | w :: ws => ((if (addOne ws).2 then w + 1 else w) :: (addOne ws).1, (addOne ws).2 && w + 1 == 0)

/-- `operator-`. -/
def negate (words : Words m) : Words m := (addOne (words.map (~~~·))).1

def flipMSB (words : Words m) : Words m := words.modifyHead (· ^^^ BitVec.intMin _)

def nan (t : UnderlyingInteger) : Words t.wordSize :=
  flipMSB (replicate t.wordCount (BitVec.allOnes _))

def plusInf (t : UnderlyingInteger) : Words t.wordSize := (nan t).modify (t.wordCount - 1) (· - 1)

def minusInf (t : UnderlyingInteger) : Words t.wordSize := negate (plusInf t)

/-! ### Byte strings -/

def wordBytes (w : BitVec (8 * m)) : List ℕ := Nat.digitsAppend 256 m w.toNat

def ofBytes (m : ℕ) (bytes : List ℕ) : BitVec (8 * m) := BitVec.ofNat _ (Nat.ofDigits 256 bytes)

def hostToInet (w : BitVec (8 * m)) : BitVec (8 * m) := ofBytes m (wordBytes w).reverse

/-- A step of the loop of `DecimalHostToInet` over the parts. -/
def swapParts (parts : Words m) (partIndex : ℕ) : Words m :=
  let other := parts.length - 1 - partIndex
  (parts.set partIndex (hostToInet (parts.getD other 0))).set other
    (hostToInet (parts.getD partIndex 0))

def decimalHostToInet : (t : UnderlyingInteger) → Words t.wordSize → Words t.wordSize
  | .i256, parts => (range (parts.length / 2)).foldl swapParts parts
  | .i128, [high, low] => [hostToInet low, hostToInet high]
  | _, words => words.map hostToInet

/-- `DecimalInetToHost` swaps bytes as well. -/
def decimalInetToHost := decimalHostToInet

def memory (words : Words m) : List ℕ := words.reverse.flatMap wordBytes

/-- The words in memory, the lowest first. -/
def readMemory (m : ℕ) : ℕ → List ℕ → Words m
  | 0, _ => []
  | n + 1, bytes => ofBytes m (bytes.take m) :: readMemory m n (bytes.drop m)

def decimalIntegerToBinaryUnchecked (t : UnderlyingInteger)
    (decodedValue : Words t.wordSize) : List ℕ :=
  memory (decimalHostToInet t (flipMSB decodedValue))

def decimalBinaryToIntegerUnchecked (t : UnderlyingInteger) (binaryValue : List ℕ) :
    Words t.wordSize :=
  flipMSB (decimalInetToHost t (readMemory t.wordSize t.wordCount binaryValue).reverse)

/-- The type of the size that `GetDecimalBinaryValueSize` tells. -/
def underlyingInteger (precision : ℕ) : Option UnderlyingInteger :=
  if precision = 0 then none
  else if precision ≤ 9 then some .i32
  else if precision ≤ 18 then some .i64
  else if precision ≤ 38 then some .i128
  else if precision ≤ 76 then some .i256
  else none

/-- `GetDecimalMaxIntegerValue`; its tables list the numbers of nines. -/
def getDecimalMaxIntegerValue (precision : ℕ) : ℤ := 10 ^ precision - 1

/-! ### Digits in the lexicographic order -/

theorem add_mul_lt_iff {p x y a b : ℕ} (hx : x < p) (hy : y < p) :
    x + p * a < y + p * b ↔ a < b ∨ a = b ∧ x < y := by
  rcases lt_trichotomy a b with h | rfl | h
  · have := Nat.mul_le_mul_left p (Nat.succ_le_of_lt h)
    rw [Nat.mul_succ] at this
    exact iff_of_true (by omega) (.inl h)
  · simp
  · have := Nat.mul_le_mul_left p (Nat.succ_le_of_lt h)
    rw [Nat.mul_succ] at this
    exact iff_of_false (by omega) (by omega)

theorem lt_iff_ofDigits_lt : ∀ {l r : List ℕ}, l.length = r.length → (∀ d ∈ l, d < 256) →
    (∀ d ∈ r, d < 256) → (l < r ↔ Nat.ofDigits 256 l.reverse < Nat.ofDigits 256 r.reverse)
  | [], [], _, _, _ => by simp
  | a :: l, b :: r, h, hl, hr => by
    have bound : ∀ {l : List ℕ}, (∀ d ∈ l, d < 256) → Nat.ofDigits 256 l.reverse < 256 ^ l.length :=
        fun {l} hl =>
      (Nat.ofDigits_lt_base_pow_length (by decide) (by simpa using hl)).trans_eq (by rw [length_reverse])
    obtain ⟨-, hl⟩ := forall_mem_cons.mp hl
    obtain ⟨-, hr⟩ := forall_mem_cons.mp hr
    have h : l.length = r.length := Nat.succ.inj h
    rw [cons_lt_cons_iff, lt_iff_ofDigits_lt h hl hr, reverse_cons,
      reverse_cons, Nat.ofDigits_append, Nat.ofDigits_append, length_reverse, length_reverse,
        Nat.ofDigits_singleton, Nat.ofDigits_singleton, ← h,
      add_mul_lt_iff (bound hl) (h ▸ bound hr)]

/-! ### Words and their bytes -/

theorem pow_wordSize : 2 ^ (8 * m) = 256 ^ m := by rw [pow_mul]; norm_num

section

variable (w : BitVec (8 * m))

theorem toNat_lt : w.toNat < 256 ^ m := w.isLt.trans_eq pow_wordSize

theorem wordBytes_mem : (wordBytes w).length = m ∧ ∀ d ∈ wordBytes w, d < 256 :=
  Nat.mapsTo_digitsAppend (by decide) m (toNat_lt w)

theorem ofDigits_wordBytes : Nat.ofDigits 256 (wordBytes w) = w.toNat :=
  (Nat.setInvOn_digitsAppend_ofDigits (by decide) m).2 (toNat_lt w)

theorem ofBytes_wordBytes : ofBytes m (wordBytes w) = w := by
  rw [ofBytes, ofDigits_wordBytes, BitVec.ofNat_toNat, BitVec.setWidth_eq]

theorem wordBytes_hostToInet : wordBytes (hostToInet w) = (wordBytes w).reverse := by
  have hr : (wordBytes w).reverse ∈ {l : List ℕ | l.length = m ∧ ∀ d ∈ l, d < 256} := by
    simpa using wordBytes_mem w
  have hlt : Nat.ofDigits 256 (wordBytes w).reverse < 2 ^ (8 * m) :=
    pow_wordSize ▸ Nat.mapsTo_ofDigits (by decide) m hr
  rw [wordBytes, hostToInet, ofBytes, BitVec.toNat_ofNat, Nat.mod_eq_of_lt hlt]
  exact (Nat.setInvOn_digitsAppend_ofDigits (by decide) m).1 hr

theorem hostToInet_hostToInet : hostToInet (hostToInet w) = w := by
  rw [hostToInet, wordBytes_hostToInet, reverse_reverse, ofBytes_wordBytes]

theorem toNat_flip (hm : 0 < m) :
    ((w ^^^ BitVec.intMin (8 * m)).toNat : ℤ) = w.toInt + 2 ^ (8 * m - 1) := by
  obtain ⟨n, hn⟩ : ∃ n, 8 * m = n + 1 := ⟨8 * m - 1, by omega⟩
  generalize 8 * m = k at w hn
  subst hn
  have hmin : BitVec.intMin (n + 1) = BitVec.cons true 0#n := by
    apply BitVec.eq_of_toNat_eq
    rw [BitVec.toNat_intMin, BitVec.toNat_cons', Nat.add_sub_cancel,
      Nat.mod_eq_of_lt (Nat.pow_lt_pow_right (by decide) (Nat.lt_succ_self n))]
    simp [Nat.shiftLeft_eq]
  rw [BitVec.toInt_eq_msb_cond, ← BitVec.cons_msb_setWidth w, hmin, BitVec.cons_xor_cons,
    BitVec.xor_zero,
    BitVec.msb_cons, BitVec.toNat_cons', BitVec.toNat_cons']
  cases w.msb <;> simp [Nat.shiftLeft_eq, pow_succ] <;> ring

end

theorem readMemory_flatMap :
    ∀ words : Words m, readMemory m words.length (words.flatMap wordBytes) = words
  | [] => rfl
  | w :: ws => by
    obtain ⟨hlen, -⟩ := wordBytes_mem w
    rw [length_cons, readMemory, flatMap_cons, take_left' hlen, drop_left' hlen, ofBytes_wordBytes,
      readMemory_flatMap ws]

theorem decimalHostToInet_eq {words : Words t.wordSize} (h : words.length = t.wordCount) :
    decimalHostToInet t words = (words.map hostToInet).reverse := by
  cases t with
  | i32 | i64 =>
    obtain ⟨w, rfl⟩ := length_eq_one_iff.mp h
    rfl
  | i128 =>
    obtain ⟨high, low, rfl⟩ := length_eq_two.mp h
    rfl
  | i256 =>
    match words, h with
    | [_, _, _, _, _, _, _, _], _ => simp [decimalHostToInet, swapParts, range, range.loop]

theorem length_flipMSB (words : Words m) : (flipMSB words).length = words.length :=
  length_modifyHead

theorem flipMSB_flipMSB (words : Words m) : flipMSB (flipMSB words) = words := by
    cases words <;> simp [flipMSB]

/-! ### Numbers -/

theorem ofDigits_bytes : ∀ words : Words m,
    (words.flatMap fun w => (wordBytes w).reverse).length = m * words.length ∧
      Nat.ofDigits 256 (words.flatMap fun w => (wordBytes w).reverse).reverse = number words
  | [] => by simp [number]
  | w :: ws => by
    obtain ⟨hlen, hdigits⟩ := ofDigits_bytes ws
    rw [flatMap_cons, length_append, length_reverse, (wordBytes_mem w).1, hlen, reverse_append,
      reverse_reverse, Nat.ofDigits_append, length_reverse, hlen, hdigits, ofDigits_wordBytes]
    exact ⟨by rw [length_cons]; ring, rfl⟩

theorem number_lt : ∀ words : Words m, number words < 256 ^ (m * words.length)
  | [] => by simp [number]
  | w :: ws => by
    have h := Nat.mul_le_mul_left (256 ^ (m * ws.length)) (Nat.succ_le_of_lt (toNat_lt w))
    rw [Nat.mul_succ, ← pow_add, ← Nat.mul_succ] at h
    exact (Nat.add_lt_add_right (number_lt ws) _).trans_le ((Nat.add_comm _ _).trans_le h)

theorem compareParts_lt : ∀ {lhs rhs : Words m}, lhs.length = rhs.length →
    (compareParts lhs rhs = .lt ↔ number lhs < number rhs)
  | [], [], _ => by simp [compareParts, number]
  | l :: lhs, r :: rhs, h => by
    have h : lhs.length = rhs.length := Nat.succ.inj h
    rw [compareParts, number, number, ← h, add_mul_lt_iff (number_lt lhs) (h ▸ number_lt rhs),
      ← compareParts_lt h]
    split_ifs with hne
    · rw [compare_lt_iff_lt]
      omega
    · simp [not_not.mp hne]

theorem number_flipMSB (hm : 0 < m) {words : Words m} (h : 0 < words.length) :
    (number (flipMSB words) : ℤ) = toInt words + 256 ^ (m * (words.length - 1)) * 2 ^ (8 * m - 1) := by
  obtain ⟨w, ws, rfl⟩ := exists_cons_of_length_pos h
  rw [flipMSB, modifyHead_cons, number, toInt, Nat.cast_add, Nat.cast_mul, toNat_flip w hm,
    Nat.cast_pow, length_cons, Nat.add_sub_cancel]
  push_cast
  ring

theorem toInt_eq {words : Words m} (h : 0 < words.length) :
    toInt words = number words - if isNegativeInteger words then 256 ^ (m * words.length) else 0 := by
  obtain ⟨w, ws, rfl⟩ := exists_cons_of_length_pos h
  rw [toInt, number, isNegativeInteger, head?_cons, Option.any_some, BitVec.toInt_eq_msb_cond,
    pow_wordSize]
  cases w.msb
  · simp
  · simp [mul_add, pow_add]
    ring

/-! ### The order of byte strings -/

section Order

variable {x y : Words t.wordSize} (hx : x.length = t.wordCount)

include hx

/-- The highest byte comes first. -/
theorem decimalIntegerToBinaryUnchecked_eq :
    decimalIntegerToBinaryUnchecked t x = (flipMSB x).flatMap fun w => (wordBytes w).reverse := by
  rw [decimalIntegerToBinaryUnchecked, memory, decimalHostToInet_eq ((length_flipMSB _).trans hx),
    reverse_reverse, flatMap_map]
  simp only [wordBytes_hostToInet]

theorem decimalBinaryToIntegerUnchecked_inverts :
    decimalBinaryToIntegerUnchecked t (decimalIntegerToBinaryUnchecked t x) = x := by
  have hlen := (length_flipMSB x).trans hx
  rw [decimalBinaryToIntegerUnchecked, decimalIntegerToBinaryUnchecked, memory,
    decimalHostToInet_eq hlen,
    reverse_reverse, ← hlen, ← length_map hostToInet, readMemory_flatMap, decimalInetToHost,
    decimalHostToInet_eq (by simpa using hlen)]
  simp [Function.comp_def, hostToInet_hostToInet, flipMSB_flipMSB]

variable (hy : y.length = t.wordCount)

include hy

theorem binary_lt_iff : decimalIntegerToBinaryUnchecked t x < decimalIntegerToBinaryUnchecked t y ↔
      toInt x < toInt y := by
  have hcount : 0 < t.wordCount := by cases t <;> decide
  have hsize : 0 < t.wordSize := by cases t <;> decide
  have digits : ∀ words : Words t.wordSize, ∀ d ∈ words.flatMap fun w => (wordBytes w).reverse,
      d < 256 := by
    intro words d hd
    obtain ⟨w, -, hw⟩ := mem_flatMap.mp hd
    exact (wordBytes_mem w).2 d (mem_reverse.mp hw)
  rw [decimalIntegerToBinaryUnchecked_eq hx, decimalIntegerToBinaryUnchecked_eq hy,
    lt_iff_ofDigits_lt (by simp only [ofDigits_bytes, length_flipMSB, hx, hy]) (digits _) (digits _),
    (ofDigits_bytes _).2, (ofDigits_bytes _).2, ← Int.ofNat_lt, number_flipMSB hsize (by omega),
    number_flipMSB hsize (by omega), hx, hy]
  omega

theorem compare256_lt_iff : compare256 x y = .lt ↔ toInt x < toInt y := by
  have hcount : 0 < t.wordCount := by cases t <;> decide
  have hnx := number_lt x
  have hny := number_lt y
  rw [toInt_eq (by omega), toInt_eq (by omega), compare256, hx, hy]
  rw [hx] at hnx
  rw [hy] at hny
  zify at hnx hny
  cases isNegativeInteger x <;> cases isNegativeInteger y <;>
    simp [compareParts_lt (hx.trans hy.symm)] <;> omega

end Order

theorem infinite_spec {precision : ℕ} (h : underlyingInteger precision = some t) :
    toInt (minusInf t) < -getDecimalMaxIntegerValue precision ∧
      getDecimalMaxIntegerValue precision < toInt (plusInf t) := by
  obtain ⟨p, hp, hminus, hplus⟩ : ∃ p, precision ≤ p ∧ toInt (minusInf t) <
      -getDecimalMaxIntegerValue p ∧ getDecimalMaxIntegerValue p < toInt (plusInf t) := by
    unfold underlyingInteger at h
    split_ifs at h with _ h1 h2 h3 h4 <;> cases h
    · exact ⟨9, h1, by decide +kernel⟩
    · exact ⟨18, h2, by decide +kernel⟩
    · exact ⟨38, h3, by decide +kernel⟩
    · exact ⟨76, h4, by decide +kernel⟩
  have hle : getDecimalMaxIntegerValue precision ≤ getDecimalMaxIntegerValue p :=
    sub_le_sub_right (pow_le_pow_right₀ (by decide) hp) 1
  exact ⟨hminus.trans_le (neg_le_neg hle), hle.trans_lt hplus⟩

/-- Binary decimals sort like the integers, and are decoded to them. -/
theorem decimalBinary_sorted (t : UnderlyingInteger) (x y : Integer t) :
    (decimalIntegerToBinaryUnchecked t x.words < decimalIntegerToBinaryUnchecked t y.words ↔
      less x y) ∧ (less x y ↔ toInt x.words < toInt y.words) ∧
    decimalBinaryToIntegerUnchecked t (decimalIntegerToBinaryUnchecked t x.words) = x.words ∧
    ∀ precision, underlyingInteger precision = some t →
    |toInt x.words| ≤ getDecimalMaxIntegerValue precision →
      decimalIntegerToBinaryUnchecked t (minusInf t) < decimalIntegerToBinaryUnchecked t x.words ∧
      decimalIntegerToBinaryUnchecked t x.words < decimalIntegerToBinaryUnchecked t (plusInf t) ∧
      decimalIntegerToBinaryUnchecked t (plusInf t) < decimalIntegerToBinaryUnchecked t
        (nan t) := by
  have hless : less x y ↔ toInt x.words < toInt y.words := by
    cases t with
    | i256 => exact compare256_lt_iff x.length_eq y.length_eq
    | _ => exact Iff.rfl
  obtain ⟨hminus, hplus, hnan, hlast⟩ : (minusInf t).length = t.wordCount ∧ (plusInf t).length =
      t.wordCount ∧ (nan t).length = t.wordCount ∧ toInt (plusInf t) < toInt (nan t) := by
    cases t <;> decide +kernel
  refine ⟨(binary_lt_iff x.length_eq y.length_eq).trans hless.symm, hless,
    decimalBinaryToIntegerUnchecked_inverts x.length_eq, fun precision hsize hfinite => ?_⟩
  obtain ⟨hbelow, habove⟩ := infinite_spec hsize
  obtain ⟨hlower, hupper⟩ := abs_le.mp hfinite
  rw [binary_lt_iff hminus x.length_eq, binary_lt_iff x.length_eq hplus, binary_lt_iff hplus hnan]
  exact ⟨hbelow.trans_le hlower, hupper.trans_lt habove, hlast⟩

theorem decimalBinary_sorted_nine :
    decimalIntegerToBinaryUnchecked .i32 [-7] = [127, 255, 255, 249] ∧
    decimalIntegerToBinaryUnchecked .i32 (minusInf .i32) < decimalIntegerToBinaryUnchecked .i32 [-7] :=
  ⟨by decide +kernel, ((decimalBinary_sorted .i32 ⟨[-7], rfl⟩ ⟨[-7], rfl⟩).2.2.2 9 rfl
    (by decide +kernel)).1⟩

end Ytsaurus.Decimal
