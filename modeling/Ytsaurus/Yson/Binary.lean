/-
# The binary form of YSON

The tokens that `TUncheckedYsonTokenWriter` of `core/yson/token_writer.h` writes, and the sizes that
`TYsonItem::GetBinarySize` of `core/yson/pull_parser-inl.h` tells beforehand (`itemBytes_length`). A
binary string has its length as a 32-bit integer, so a string of `2 ^ 31` bytes or more has no
binary form (`ShortStrings`). `YsonNode.encode` is the form in which every item of a list, a map or
attributes is followed by a separator.
-/
import Ytsaurus.Yson.Item

namespace Ytsaurus.Yson

open Lib

def maxVarUint64Size : ℕ := 10

/-- The loop of `WriteVarUint64`: seven bits a byte, the highest bit set in all but the last. -/
def varUint64Loop : ℕ → ℕ → Bytes
  | 0, _ => []
  | fuel + 1, value =>
    if value < 0x80 then [Fin.ofNat 256 value]
    else Fin.ofNat 256 (value % 0x80 + 0x80) :: varUint64Loop fuel (value / 0x80)

def writeVarUint64 (value : BitVec 64) : Bytes := varUint64Loop maxVarUint64Size value.toNat

def zigZagEncode32 (n : BitVec 32) : BitVec 32 := (n <<< 1) ^^^ n.sshiftRight 31

def zigZagEncode64 (n : BitVec 64) : BitVec 64 := (n <<< 1) ^^^ n.sshiftRight 63

/-- `WriteVarInt32`, of a size that is cast to a 32-bit integer. -/
def writeVarInt32 (size : ℕ) : Bytes :=
  writeVarUint64 ((zigZagEncode32 (BitVec.ofNat 32 size)).setWidth 64)

def writeVarInt64 (value : BitVec 64) : Bytes := writeVarUint64 (zigZagEncode64 value)

/-- The bytes of a 64-bit word, the lowest first. -/
def wordBytes (value : BitVec 64) : Bytes :=
  (List.range 8).map fun i => Fin.ofNat 256 (value.toNat / 2 ^ (8 * i))

/-- What the token writer writes for an item. -/
def itemBytes : YsonItem → Bytes
  | .endOfStream => []
  | .beginMap => [0x7b]
  | .endMap => [0x7d]
  | .beginAttributes => [0x3c]
  | .endAttributes => [0x3e]
  | .beginList => [0x5b]
  | .endList => [0x5d]
  | .entityValue => [0x23]
  | .booleanValue value => [if value then 0x05 else 0x04]
  | .int64Value value => 0x02 :: writeVarInt64 value
  | .uint64Value value => 0x06 :: writeVarUint64 value
  | .doubleValue value => 0x03 :: wordBytes value
  | .stringValue value => 0x01 :: (writeVarInt32 value.length ++ value)

/-- `ItemSeparatorSymbol`. -/
def itemSeparator : Bytes := [0x3b]

/-- `KeyValueSeparatorSymbol`. -/
def keyValueSeparator : Bytes := [0x3d]

def getBinarySize : YsonItem → ℕ
  | .endOfStream => 0
  | .beginList | .endList | .beginMap | .endMap | .beginAttributes | .endAttributes => 1
  | .entityValue | .booleanValue _ => 1
  | .int64Value value => 1 + (writeVarInt64 value).length
  | .uint64Value value => 1 + (writeVarUint64 value).length
  | .doubleValue _ => 1 + 8
  | .stringValue value => 1 + (writeVarInt32 value.length).length + value.length

theorem itemBytes_length (item : YsonItem) : (itemBytes item).length = getBinarySize item := by
  cases item with
  | int64Value | uint64Value => exact Nat.add_comm _ _
  | stringValue value =>
    simp only [itemBytes, getBinarySize, List.length_cons, List.length_append]
    omega
  | _ => rfl

namespace YsonNode

mutual

/-- The binary form of a node, every item followed by a separator. -/
def encode : YsonNode → Bytes
  | .entity => itemBytes .entityValue
  | .boolean value => itemBytes (.booleanValue value)
  | .int64 value => itemBytes (.int64Value value)
  | .uint64 value => itemBytes (.uint64Value value)
  | .double value => itemBytes (.doubleValue value)
  | .string value => itemBytes (.stringValue value)
  | .list nodes => itemBytes .beginList ++ encodeList nodes ++ itemBytes .endList
  | .map entries => itemBytes .beginMap ++ encodeEntries entries ++ itemBytes .endMap
  | .attributed attributes node =>
    itemBytes .beginAttributes ++ encodeEntries attributes ++ itemBytes .endAttributes ++ encode node

def encodeList : List YsonNode → Bytes
  | [] => []
  | node :: nodes => encode node ++ itemSeparator ++ encodeList nodes

def encodeEntries : List (Bytes × YsonNode) → Bytes
  | [] => []
  | (key, node) :: entries =>
    itemBytes (.stringValue key) ++ keyValueSeparator ++ encode node ++ itemSeparator ++
      encodeEntries entries

end

theorem encodeList_append : ∀ nodes nodes' : List YsonNode,
    encodeList (nodes ++ nodes') = encodeList nodes ++ encodeList nodes'
  | [], _ => rfl
  | node :: nodes, nodes' => by
    simp only [List.cons_append, encodeList, encodeList_append nodes, List.append_assoc]

theorem itemsOfList_append : ∀ nodes nodes' : List YsonNode,
    itemsOfList (nodes ++ nodes') = itemsOfList nodes ++ itemsOfList nodes'
  | [], _ => rfl
  | node :: nodes, nodes' => by
    rw [List.cons_append, itemsOfList, itemsOfList, itemsOfList_append nodes, List.append_assoc]

theorem plainList_append : ∀ {nodes nodes' : List YsonNode}, PlainList nodes → PlainList nodes' →
    PlainList (nodes ++ nodes')
  | [], _, _, h => h
  | _ :: _, _, h, h' => ⟨h.1, plainList_append h.2 h'⟩

end YsonNode

/-- Strings whose length is a 32-bit integer. -/
def ShortStrings (items : List YsonItem) : Prop :=
  ∀ value : Bytes, .stringValue value ∈ items → value.length < 2 ^ 31

/-! ### Sizes of lengths -/

theorem varUint64Loop_length_mono : ∀ (fuel : ℕ) {m n : ℕ}, m ≤ n →
    (varUint64Loop fuel m).length ≤ (varUint64Loop fuel n).length
  | 0, _, _, _ => le_rfl
  | fuel + 1, m, n, h => by
    have ih := varUint64Loop_length_mono fuel (Nat.div_le_div_right (c := 0x80) h)
    simp only [varUint64Loop]
    split_ifs with hm hn
    · rfl
    · simp only [List.length_cons, List.length_nil]
      omega
    · omega
    · simpa only [List.length_cons, Nat.add_le_add_iff_right] using ih

theorem zigZagEncode32_toNat {n : ℕ} (h : n < 2 ^ 31) :
    (zigZagEncode32 (BitVec.ofNat 32 n)).toNat = 2 * n := by
  have hm : (BitVec.ofNat 32 n).msb = false := by
    rw [BitVec.msb_eq_false_iff_two_mul_lt, BitVec.toNat_ofNat]
    omega
  have hz : (BitVec.ofNat 32 n) >>> 31 = 0#32 := by
    apply BitVec.eq_of_toNat_eq
    rw [BitVec.toNat_ushiftRight, BitVec.toNat_ofNat, Nat.shiftRight_eq_div_pow]
    simp only [BitVec.toNat_ofNat]
    omega
  rw [zigZagEncode32, BitVec.sshiftRight_eq_of_msb_false hm, hz, BitVec.xor_zero,
    BitVec.toNat_shiftLeft, BitVec.toNat_ofNat, Nat.shiftLeft_eq]
  omega

theorem varInt32_length_mono {m n : ℕ} (h : m ≤ n) (hn : n < 2 ^ 31) :
    (writeVarInt32 m).length ≤ (writeVarInt32 n).length := by
  refine varUint64Loop_length_mono _ ?_
  rw [BitVec.toNat_setWidth, BitVec.toNat_setWidth, zigZagEncode32_toNat hn,
    zigZagEncode32_toNat (by omega)]
  omega

/-- The lowest bit of a number is that of its first byte. -/
theorem varUint64Loop_head (fuel value : ℕ) :
    ∃ byte rest, varUint64Loop (fuel + 1) value = byte :: rest ∧ byte.val % 2 = value % 2 := by
  unfold varUint64Loop
  split_ifs <;> refine ⟨_, _, rfl, ?_⟩ <;> rw [Fin.val_ofNat] <;> omega

/-- A string of `2 ^ 31` bytes is written with a negative length, which no short string has. -/
theorem encode_ne_of_long {value : Bytes} (hlong : value.length = 2 ^ 31) {node : YsonNode}
    (hshort : ShortStrings node.items) : node.encode ≠ (YsonNode.string value).encode := by
  cases node with
  | string value' =>
    have hlength := hshort value' (by simp [YsonNode.items])
    obtain ⟨byte, rest, hbyte, hodd⟩ := varUint64Loop_head 9
      ((zigZagEncode32 (BitVec.ofNat 32 (2 ^ 31))).setWidth 64).toNat
    obtain ⟨byte', rest', hbyte', heven⟩ := varUint64Loop_head 9
      ((zigZagEncode32 (BitVec.ofNat 32 value'.length)).setWidth 64).toNat
    replace hodd : byte.val % 2 = 1 := hodd.trans (by decide)
    intro h
    simp only [YsonNode.encode, itemBytes, writeVarInt32, writeVarUint64, maxVarUint64Size, hlong,
      hbyte, hbyte', List.cons_append, List.cons.injEq, true_and] at h
    rw [BitVec.toNat_setWidth, zigZagEncode32_toNat hlength] at heven
    rw [h.1] at heven
    omega
  | boolean value' => cases value' <;> simp [YsonNode.encode, itemBytes]
  | _ => simp [YsonNode.encode, itemBytes]

end Ytsaurus.Yson
