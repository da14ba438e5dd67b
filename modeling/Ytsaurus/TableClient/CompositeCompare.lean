/-
# Comparison and hash of composite values

`client/table_client/composite_compare.cpp` compares two YSON strings item by item up to the first
mismatch and hashes a string by folding its items.

An item has a key in a linear order: its class, its type, its content (`YsonItem.key`). The items of
two nodes without maps and attributes stay in step until they differ (`aligned_items`): neither
parser reaches its end while the other has items left, and no two items without an order are
compared. So the comparison of nodes is the lexicographic order of their keys
(`compareYsonValues_eq`).

The hash folds the items, and a double takes the place of what was hashed before it (`mixItem`): an
item counts exactly when no double follows it (`compositeFarmHash_ne_iff`).
-/
import Ytsaurus.Lib.TernaryCompare
import Ytsaurus.Yson.Item

namespace Ytsaurus.TableClient.Composite

open List Lib Yson YsonNode

/-! ### Comparison -/

inductive EValueType where
  | min
  | theBottom
  | null
  | int64
  | uint64
  | double
  | boolean
  | string
  | any
  | composite
  | max
  deriving DecidableEq, Repr

def EValueType.code : EValueType → ℕ
  | .min => 0x00
  | .theBottom => 0x01
  | .null => 0x02
  | .int64 => 0x03
  | .uint64 => 0x04
  | .double => 0x05
  | .boolean => 0x06
  | .string => 0x10
  | .any => 0x11
  | .composite => 0x12
  | .max => 0xef

inductive CompareClass where
  | incomparable
  | endList
  | entity
  | beginValue
  deriving DecidableEq, Repr

def CompareClass.code : CompareClass → ℕ
  | .incomparable => 0
  | .endList => 1
  | .entity => 2
  | .beginValue => 3

def getCompareClass : YsonItemType → CompareClass
  | .endList => .endList
  | .entityValue => .entity
  | .beginList | .int64Value | .uint64Value | .doubleValue | .booleanValue
  | .stringValue => .beginValue
  | _ => .incomparable

def throwIncomparableYsonToken {α : Type} (tokenType : YsonItemType) : Result α :=
  .error (.exception ("Incomparable YSON token \"" ++ tokenType.text ++ "\""))

def mapItemTypeToValueType (itemType : YsonItemType) : Result EValueType :=
  match itemType with
  | .beginList => .ok .any
  | .booleanValue => .ok .boolean
  | .int64Value => .ok .int64
  | .uint64Value => .ok .uint64
  | .doubleValue => .ok .double
  | .stringValue => .ok .string
  | .endOfStream | .beginMap | .endMap | .beginAttributes | .endAttributes | .endList
  | .entityValue =>
    throwIncomparableYsonToken itemType

/-- `NaNSafeTernaryCompare` of doubles. -/
def nanSafeTernaryCompare (lhs rhs : Binary64) : ℤ :=
  if lhs.less rhs then -1
  else if rhs.less lhs then 1
  else if lhs.isNaN then (if rhs.isNaN then 0 else 1)
  else if rhs.isNaN then -1
  else 0

/-- `CompareYsonItems` of items of one type. -/
def compareYsonItemsOfType (lhs rhs : YsonItem) : Result ℤ :=
  match lhs, rhs with
  | .endOfStream, _ | .beginList, _ | .endList, _ | .entityValue, _ => .ok 0
  | .int64Value lhs, .int64Value rhs => .ok (ternaryCompare lhs.toInt rhs.toInt)
  | .uint64Value lhs, .uint64Value rhs => .ok (ternaryCompare lhs.toNat rhs.toNat)
  | .doubleValue lhs, .doubleValue rhs => .ok (nanSafeTernaryCompare lhs rhs)
  | .booleanValue lhs, .booleanValue rhs => .ok (ternaryCompare lhs rhs)
  | .stringValue lhs, .stringValue rhs => .ok (ternaryCompare lhs rhs)
  | .beginMap, _ | .endMap, _ | .beginAttributes, _
  | .endAttributes, _ => throwIncomparableYsonToken lhs.type
  | _, _ => .error .verify

def compareYsonItems (lhs rhs : YsonItem) : Result ℤ :=
  if lhs.type = rhs.type then compareYsonItemsOfType lhs rhs
  else
    let lhsClass := getCompareClass lhs.type
    let rhsClass := getCompareClass rhs.type
    if lhsClass = .incomparable then throwIncomparableYsonToken lhs.type
    else if rhsClass = .incomparable then throwIncomparableYsonToken rhs.type
    else if lhsClass = .beginValue ∧ rhsClass = .beginValue then do
      let lhsType ← mapItemTypeToValueType lhs.type
      let rhsType ← mapItemTypeToValueType rhs.type
      return ternaryCompare lhsType.code rhsType.code
    else .ok (ternaryCompare lhsClass.code rhsClass.code)

/-- The loop of `CompareYsonValues`. -/
def compareLoop : ℕ → PullParser → PullParser → Result ℤ
  | 0, _, _ => .error .fuel
  | fuel + 1, lhsParser, rhsParser => do
    let (lhsItem, lhsParser) ← lhsParser.next
    let (rhsItem, rhsParser) ← rhsParser.next
    let res ← compareYsonItems lhsItem rhsItem
    if res ≠ 0 then return res
    else if lhsItem.type = .endOfStream then return 0
    else compareLoop fuel lhsParser rhsParser

def compareYsonValues (lhs rhs : Scan) : Result ℤ :=
  compareLoop (lhs.items.length + 1) (PullParser.start lhs) (PullParser.start rhs)

/-! ### Keys -/

theorem ternaryCompare_number {α β : Type} [LinearOrder α] [LinearOrder β] {f : α → WithTop ℤ}
    (hf : StrictMono f) (a b : α)
    (c : β) : ternaryCompare (toLex (f a, c)) (toLex (f b, c)) = ternaryCompare a b := by
  rw [ternaryCompare_fst, ternaryCompare_map hf]

theorem strictMono_coe_nat : StrictMono fun n : ℕ => ((n : ℤ) : WithTop ℤ) :=
  fun _ _ h => WithTop.coe_lt_coe.mpr (Int.ofNat_lt.mpr h)

theorem strictMono_coe_bool : StrictMono fun b : Bool => ((b.toNat : ℤ) : WithTop ℤ) := by
  intro a b h
  cases a <;> cases b <;> first | exact absurd h (by decide) | decide

theorem nanSafeTernaryCompare_eq (lhs rhs : Binary64) :
    nanSafeTernaryCompare lhs rhs = ternaryCompare lhs.rank rhs.rank := by
  unfold nanSafeTernaryCompare ternaryCompare Binary64.less Binary64.rank
  cases lhs.isNaN <;> cases rhs.isNaN <;> simp
  split_ifs <;> omega

/-- The place of an item: class and type, then a number, then a string. -/
abbrev ItemKey := ℕ ×ₗ (WithTop ℤ ×ₗ Bytes)

/-- The place of a type: the class, and the types of values in their order. -/
def typeRank : YsonItemType → ℕ
  | .endList => 1
  | .entityValue => 2
  | .int64Value => 3 + EValueType.int64.code
  | .uint64Value => 3 + EValueType.uint64.code
  | .doubleValue => 3 + EValueType.double.code
  | .booleanValue => 3 + EValueType.boolean.code
  | .stringValue => 3 + EValueType.string.code
  | .beginList => 3 + EValueType.any.code
  | _ => 0

def content : YsonItem → WithTop ℤ ×ₗ Bytes
  | .booleanValue value => toLex ((value.toNat : ℤ), [])
  | .int64Value value => toLex (value.toInt, [])
  | .uint64Value value => toLex ((value.toNat : ℤ), [])
  | .doubleValue value => toLex (value.rank, [])
  | .stringValue value => toLex (0, value)
  | _ => toLex (0, [])

/-- The place of an item in the order. -/
def itemKey (item : YsonItem) : ItemKey := toLex (typeRank item.type, content item)

def Comparable (item : YsonItem) : Prop := getCompareClass item.type ≠ .incomparable

instance (item : YsonItem) : Decidable (Comparable item) := inferInstanceAs (Decidable (_ ≠ _))

theorem typeRank_injective {s t : YsonItemType} (hs : getCompareClass s ≠ .incomparable)
    (ht : getCompareClass t ≠ .incomparable) (h : typeRank s = typeRank t) : s = t := by
  cases s <;> cases t <;>
    first | rfl | exact absurd rfl hs | exact absurd rfl ht | exact absurd h (by decide)

variable {x y : YsonItem}

theorem compareYsonItemsOfType_eq (hx : Comparable x) (h : x.type = y.type) :
    compareYsonItemsOfType x y = .ok (ternaryCompare (content x) (content y)) := by
  cases x <;> cases y <;> simp only [YsonItem.type, reduceCtorEq] at h
  all_goals first | exact absurd rfl hx | simp only [compareYsonItemsOfType, content,
    ternaryCompare_self]
  case booleanValue.booleanValue => rw [ternaryCompare_number strictMono_coe_bool]
  case int64Value.int64Value => rw [ternaryCompare_number WithTop.coe_strictMono]
  case uint64Value.uint64Value => rw [ternaryCompare_number strictMono_coe_nat]
  case doubleValue.doubleValue => rw [nanSafeTernaryCompare_eq, ternaryCompare_fst]
  case stringValue.stringValue => rw [ternaryCompare_snd]

theorem compareYsonItems_eq (hx : Comparable x) (hy : Comparable y) :
    compareYsonItems x y = .ok (ternaryCompare (itemKey x) (itemKey y)) := by
  unfold compareYsonItems itemKey
  rw [ternaryCompare_toLex]
  by_cases h : x.type = y.type
  · rw [if_pos h, compareYsonItemsOfType_eq hx h, if_pos (congrArg typeRank h)]
  · rw [if_neg h, if_neg fun hr => h (typeRank_injective hx hy hr)]
    unfold Comparable at hx hy
    generalize x.type = s at *
    generalize y.type = t at *
    cases s <;> cases t <;>
      first | exact absurd rfl hx | exact absurd rfl hy | exact absurd rfl h | decide

theorem type_eq_of_itemKey (hx : Comparable x) (hy : Comparable y) (h : itemKey x = itemKey y) :
    x.type = y.type :=
  typeRank_injective hx hy (Prod.ext_iff.mp (toLex.injective h)).1

theorem take_lt : ∀ {value : Bytes} {length : ℕ}, value.take length ≠ value →
    value.take length < value
  | [], length, h => absurd (by simp) h
  | b :: value, 0, _ => by simp
  | b :: value, length + 1, h => by
    rw [take_succ_cons] at h ⊢
    exact cons_lt_cons_iff.mpr (.inr ⟨rfl, take_lt fun he => h (by rw [he])⟩)

/-! ### Streams -/

/-- Two streams of items with an order, neither of which ends before they differ. -/
inductive Aligned : List YsonItem → List YsonItem → Prop
  | nil : Aligned [] []
  | cons {x y : YsonItem} {xs ys : List YsonItem} (hx : Comparable x) (hy : Comparable y)
    (h : x.type = y.type → Aligned xs ys) : Aligned (x :: xs) (y :: ys)

/-- What can stand at the head of a node's items: anything but the end of a list. -/
def Opens (item : YsonItem) : Prop := Comparable item ∧ item ≠ .endList

theorem items_opens {node : YsonNode} (hn : node.Plain) : ∃ x xs, node.items = x :: xs ∧
    Opens x := by
  cases node with
  | map entries | attributed attributes node => exact hn.elim
  | _ => exact ⟨_, _, rfl, fun h => (by cases h), fun h => by cases h⟩

theorem Aligned.scalar {s t : List YsonItem} {b : YsonNode} (hx : Comparable x)
    (ho : x.type ≠ .beginList) (hb : b.Plain) (hst : Aligned s t) : Aligned (x :: s) (b.items ++ t) := by
  cases b with
  | list nodes => exact .cons hx nofun fun h => absurd h ho
  | map entries | attributed attributes node => exact hb.elim
  | _ => exact .cons hx nofun fun _ => hst

mutual

theorem aligned_items {s t : List YsonItem} (hst : Aligned s t) : ∀ {a b : YsonNode}, a.Plain →
    b.Plain → Aligned (a.items ++ s) (b.items ++ t)
  | .entity, _, _, hb | .boolean _, _, _, hb | .int64 _, _, _, hb | .uint64 _, _, _, hb
  | .double _, _, _, hb
  | .string _, _, _, hb => .scalar nofun nofun hb hst
  | .list as, .list bs, ha, hb => by
    simp only [items, cons_append, append_assoc, nil_append]
    exact .cons nofun nofun fun _ => aligned_itemsOfList hst ha hb
  | .list _, .entity, _, _ | .list _, .boolean _, _, _ | .list _, .int64 _, _, _
  | .list _, .uint64 _, _, _
  | .list _, .double _, _, _ | .list _, .string _, _, _ =>
    .cons nofun nofun nofun

theorem aligned_itemsOfList {s t : List YsonItem} (hst : Aligned s t) : ∀ {as bs : List YsonNode},
    YsonNode.PlainList as → YsonNode.PlainList bs →
      Aligned (itemsOfList as ++ .endList :: s) (itemsOfList bs ++ .endList :: t)
  | [], [], _, _ => .cons nofun nofun fun _ => hst
  | [], b :: bs, _, hb => by
    -- a list that ends meets a node that opens
    obtain ⟨y, ys, hys, hy⟩ := items_opens hb.1
    rw [itemsOfList, itemsOfList, hys]
    refine .cons nofun hy.1 fun h => absurd ?_ hy.2
    cases y <;> first | rfl | cases h
  | a :: as, [], ha, _ => by
    obtain ⟨x, xs, hxs, hx⟩ := items_opens ha.1
    rw [itemsOfList, itemsOfList, hxs]
    refine .cons hx.1 nofun fun h => absurd ?_ hx.2
    cases x <;> first | rfl | cases h
  | a :: as, b :: bs, ha, hb => by
    rw [itemsOfList, itemsOfList, append_assoc, append_assoc]
    exact aligned_items (aligned_itemsOfList hst ha.2 hb.2) ha.1 hb.1

end

mutual

theorem comparable_items : ∀ {node : YsonNode}, node.Plain → ∀ x ∈ node.items, Comparable x
  | .entity, _ | .boolean _, _ | .int64 _, _ | .uint64 _, _ | .double _, _ | .string _, _ => by
    simp only [items, mem_singleton, forall_eq]
    nofun
  | .list nodes, h => by
    intro x hx
    simp only [items, mem_cons, mem_append, not_mem_nil, or_false] at hx
    rcases hx with rfl | hx | rfl
    · decide
    · exact comparable_itemsOfList h x hx
    · decide

theorem comparable_itemsOfList : ∀ {nodes : List YsonNode}, YsonNode.PlainList nodes →
    ∀ x ∈ itemsOfList nodes, Comparable x
  | [], _ => by simp [itemsOfList]
  | node :: nodes, h => forall_mem_append.mpr ⟨comparable_items h.1, comparable_itemsOfList h.2⟩

end

/-- The place of a stream in the order. -/
def streamKey (items : List YsonItem) : List ItemKey := items.map itemKey

theorem compareLoop_cons {fuel : ℕ} {xs ys : List YsonItem} {f g : Option String} {i j : ℕ}
    (hx : Comparable x) (hy : Comparable y) (hi : LevelOk x i) (hj : LevelOk y j) :
    compareLoop (fuel + 1) ⟨x :: xs, f, i⟩ ⟨y :: ys, g, j⟩ =
      if ternaryCompare (itemKey x) (itemKey y) ≠ 0 then .ok (ternaryCompare (itemKey x) (itemKey y))
      else compareLoop fuel ⟨xs, f, levelAfter x i⟩ ⟨ys, g, levelAfter y j⟩ := by
  have he : x.type ≠ .endOfStream := fun h => hx (by rw [h]; rfl)
  simp only [compareLoop, next_cons hi, next_cons hj, compareYsonItems_eq hx hy, ok_bind, he,
    ↓reduceIte, pure_eq_ok]

theorem compareLoop_eq {xs ys : List YsonItem} (h : Aligned xs ys) :
    ∀ {fuel i j : ℕ}, xs.length < fuel →
    LevelsOk i xs → LevelsOk j ys → compareLoop fuel ⟨xs, none, i⟩ ⟨ys, none, j⟩ =
        .ok (ternaryCompare (streamKey xs) (streamKey ys)) := by
  induction h with
  | nil =>
    intro fuel i j hf _ _
    obtain ⟨fuel, rfl⟩ := Nat.exists_eq_succ_of_ne_zero (by omega : fuel ≠ 0)
    rfl
  | @cons x y xs ys hx hy _ ih =>
    intro fuel i j hf hi hj
    obtain ⟨fuel, rfl⟩ := Nat.exists_eq_succ_of_ne_zero (by omega : fuel ≠ 0)
    rw [compareLoop_cons hx hy hi.1 hj.1, streamKey, streamKey, map_cons, map_cons, ternaryCompare_cons]
    by_cases hk : itemKey x = itemKey y
    · rw [if_neg (by rw [ternaryCompare_eq_zero.mpr hk]; simp), if_pos hk]
      exact ih (type_eq_of_itemKey hx hy hk) (by simpa using hf) hi.2 hj.2
    · rw [if_pos (mt ternaryCompare_eq_zero.mp hk), if_neg hk]

theorem compareYsonValues_eq {a b : YsonNode} (ha : a.Plain) (hb : b.Plain)
    (hda : a.depth < nestingLevelLimit)
    (hdb : b.depth < nestingLevelLimit) : compareYsonValues a.scan b.scan =
      .ok (ternaryCompare (streamKey a.items) (streamKey b.items)) := by
  have hab := aligned_items .nil ha hb
  rw [append_nil, append_nil] at hab
  exact compareLoop_eq hab (Nat.lt_succ_self _) ((levelsOk_node ha).mpr hda)
    ((levelsOk_node hb).mpr hdb)

/-- Streams that compare equal were read to the end and have equal keys. -/
theorem compareLoop_zero : ∀ {fuel i j : ℕ} {xs ys : List YsonItem}, (∀ x ∈ xs, Comparable x) →
    (∀ y ∈ ys, Comparable y) → compareLoop fuel ⟨xs, none, i⟩ ⟨ys, none, j⟩ = .ok 0 →
      LevelsOk i xs ∧ LevelsOk j ys ∧ streamKey xs = streamKey ys
  | 0, _, _, _, _, _, _, h => by cases h
  | fuel + 1, i, j, [], [], _, _, _ => ⟨trivial, trivial, rfl⟩
  | fuel + 1, i, j, [], y :: ys, _, hys, h => by
    by_cases hj : LevelOk y j
    · have hy := hys y (by simp)
      rw [compareLoop, next_cons hj] at h
      simp only [PullParser.next, ok_bind] at h
      have hne : YsonItem.endOfStream.type ≠ y.type := fun he => hy (by rw [← he]; rfl)
      rw [compareYsonItems, if_neg hne] at h
      cases h
    · rw [compareLoop, next_error hj] at h
      cases h
  | fuel + 1, i, j, x :: xs, [], hxs, _, h => by
    by_cases hi : LevelOk x i
    · have hx := hxs x (by simp)
      rw [compareLoop, next_cons hi] at h
      simp only [PullParser.next, ok_bind] at h
      have hne : x.type ≠ YsonItem.endOfStream.type := fun he => hx (by rw [he]; rfl)
      rw [compareYsonItems, if_neg hne] at h
      simp only [if_neg hx] at h
      cases h
    · rw [compareLoop, next_error hi] at h
      cases h
  | fuel + 1, i, j, x :: xs, y :: ys, hxs, hys, h => by
    by_cases hi : LevelOk x i
    · by_cases hj : LevelOk y j
      · have hx := hxs x (by simp)
        have hy := hys y (by simp)
        rw [compareLoop_cons hx hy hi hj] at h
        split_ifs at h with hne
        · exact absurd (Except.ok.inj h) hne
        · obtain ⟨h1, h2, h3⟩ := compareLoop_zero (fun x hx => hxs x (by simp [hx]))
            (fun y hy => hys y (by simp [hy])) h
          refine ⟨⟨hi, h1⟩, ⟨hj, h2⟩, ?_⟩
          rw [not_ne_iff, ternaryCompare_eq_zero] at hne
          rw [streamKey, streamKey, map_cons, map_cons, hne]
          exact congrArg _ h3
      · rw [compareLoop, next_cons hi, next_error hj] at h
        cases h
    · rw [compareLoop, next_error hi] at h
      cases h

/-! ### Hash -/

/-- The overloads of `FarmFingerprint`, over what they return: of one and of two numbers and of a
string. -/
structure Fingerprint (H : Type) where
  number : BitVec 64 → H
  one : H → H
  two : H → H → H
  bytes : Bytes → H

section

variable {H : Type} (F : Fingerprint H)

def throwUnexpectedYsonToken {α : Type} (item : YsonItem) : Result α :=
  .error (.exception ("Unexpected YSON token \"" ++ item.type.text ++ "\" in composite value"))

/-- The first item of `CompositeFarmHash`. -/
def hashFirstItem (item : YsonItem) : Result H :=
  match item with
  | .beginAttributes | .endAttributes | .beginMap | .endMap => throwUnexpectedYsonToken item
  | .beginList => .ok (F.one (F.number 0x5b))
  | .endList => .ok (F.one (F.number 0x5d))
  | .entityValue => .ok (F.one (F.number 0))
  | .int64Value value => .ok (F.one (F.number value))
  | .uint64Value value => .ok (F.one (F.number value))
  | .doubleValue value => .ok (F.one (F.number value))
  | .booleanValue value => .ok (F.one (F.number (if value then 1 else 0)))
  | .stringValue value => .ok (F.one (F.bytes value))
  | .endOfStream => .error .verify

/-- The loop of `CompositeFarmHash`. -/
def hashLoop : ℕ → PullParser → H → Result H
  | 0, _, _ => .error .fuel
  | fuel + 1, parser, result => do
    let (item, parser) ← parser.next
    match item with
    | .beginAttributes | .endAttributes | .beginMap | .endMap => throwUnexpectedYsonToken item
    | .beginList => hashLoop fuel parser (F.two result (F.number 0x5b))
    | .endList => hashLoop fuel parser (F.two result (F.number 0x5d))
    | .entityValue => hashLoop fuel parser (F.two result (F.number 0))
    | .int64Value value => hashLoop fuel parser (F.two (F.number value) result)
    | .uint64Value value => hashLoop fuel parser (F.two result (F.number value))
    -- the result so far is not an argument here
    | .doubleValue value => hashLoop fuel parser (F.one (F.number value))
    | .booleanValue value => hashLoop fuel parser (F.two result (F.number (if value then 1 else 0)))
    | .stringValue value => hashLoop fuel parser (F.two result (F.bytes value))
    | .endOfStream => return result

def compositeFarmHash (value : Scan) : Result H := do
  let (item, parser) ← (PullParser.start value).next
  let result ← hashFirstItem F item
  hashLoop F (value.items.length + 1) parser result

def firstItem : YsonItem → H
  | .beginList => F.one (F.number 0x5b)
  | .endList => F.one (F.number 0x5d)
  | .int64Value value | .uint64Value value | .doubleValue value => F.one (F.number value)
  | .booleanValue value => F.one (F.number (if value then 1 else 0))
  | .stringValue value => F.one (F.bytes value)
  | _ => F.one (F.number 0)

/-- What a further item makes of the result. -/
def mixItem (result : H) : YsonItem → H
  | .beginList => F.two result (F.number 0x5b)
  | .endList => F.two result (F.number 0x5d)
  | .int64Value value => F.two (F.number value) result
  | .uint64Value value => F.two result (F.number value)
  | .doubleValue value => F.one (F.number value)
  | .booleanValue value => F.two result (F.number (if value then 1 else 0))
  | .stringValue value => F.two result (F.bytes value)
  | _ => F.two result (F.number 0)

def foldItems : List YsonItem → H
  | [] => F.number 0
  | x :: xs => xs.foldl (mixItem F) (firstItem F x)

theorem hashFirstItem_eq {x : YsonItem} (hx : Comparable x) :
    hashFirstItem F x = .ok (firstItem F x) := by
  cases x <;> first | rfl | exact absurd rfl hx

variable {xs : List YsonItem}

theorem hashLoop_cons {fuel level : ℕ} {x : YsonItem} {r : H} (hx : Comparable x)
    (hl : LevelOk x level) : hashLoop F (fuel + 1) ⟨x :: xs, none, level⟩ r =
      hashLoop F fuel ⟨xs, none, levelAfter x level⟩ (mixItem F r x) := by
  simp only [hashLoop, next_cons hl, ok_bind]
  cases x <;> first | rfl | exact absurd rfl hx

theorem hashLoop_eq : ∀ {xs : List YsonItem} {fuel level : ℕ} {r : H}, (∀ x ∈ xs, Comparable x) →
    xs.length < fuel →
    LevelsOk level xs → hashLoop F fuel ⟨xs, none, level⟩ r = .ok (xs.foldl (mixItem F) r)
  | xs, 0, _, _, _, hf, _ => by omega
  | [], fuel + 1, _, _, _, _, _ => rfl
  | x :: xs, fuel + 1, level, r, hxs, hf, hl => by
    rw [hashLoop_cons F (hxs x (by simp)) hl.1, foldl_cons]
    exact hashLoop_eq (fun x hx => hxs x (by simp [hx])) (by simpa using hf) hl.2

theorem hashLoop_error : ∀ {xs : List YsonItem} {fuel level : ℕ} {r : H}, (∀ x ∈ xs, Comparable x) →
    xs.length < fuel → ¬LevelsOk level xs → hashLoop F fuel ⟨xs, none, level⟩ r =
      .error (.exception "Depth limit exceeded while parsing YSON")
  | xs, 0, _, _, _, hf, _ => by omega
  | [], fuel + 1, _, _, _, _, h => absurd trivial h
  | x :: xs, fuel + 1, level, r, hxs, hf, h => by
    by_cases hx : LevelOk x level
    · rw [hashLoop_cons F (hxs x (by simp)) hx]
      exact hashLoop_error (fun x hx => hxs x (by simp [hx])) (by simpa using hf) fun hl => h ⟨hx, hl⟩
    · rw [hashLoop, next_error hx]
      rfl

theorem compositeFarmHash_eq (hne : xs ≠ []) (hxs : ∀ x ∈ xs, Comparable x) (h : LevelsOk 0 xs) :
    compositeFarmHash F ⟨xs, none⟩ = .ok (foldItems F xs) := by
  cases xs with
  | nil => exact absurd rfl hne
  | cons x xs =>
    simp only [compositeFarmHash, PullParser.start, next_cons h.1, ok_bind,
      hashFirstItem_eq F (hxs x (by simp))]
    exact hashLoop_eq F (fun x hx => hxs x (by simp [hx])) (by simp only [length_cons]; omega) h.2

theorem compositeFarmHash_error (hxs : ∀ x ∈ xs, Comparable x) (h : ¬LevelsOk 0 xs) :
    compositeFarmHash F ⟨xs, none⟩ = .error (.exception "Depth limit exceeded while parsing YSON") := by
  cases xs with
  | nil => exact absurd trivial h
  | cons x xs =>
    by_cases hx : LevelOk x 0
    · simp only [compositeFarmHash, PullParser.start, next_cons hx, ok_bind,
        hashFirstItem_eq F (hxs x (by simp))]
      exact hashLoop_error F (fun x hx => hxs x (by simp [hx])) (by simp only [length_cons]; omega)
        fun hl => h ⟨hx, hl⟩
    · simp only [compositeFarmHash, PullParser.start, next_error hx]
      rfl

end

theorem levelsOk_replace {a b : YsonItem} (h : a.type = b.type) {after : List YsonItem} :
    ∀ {before : List YsonItem} {level : ℕ},
    LevelsOk level (before ++ a :: after) ↔ LevelsOk level (before ++ b :: after)
  | [], level => by
    simp only [nil_append, LevelsOk]
    rw [levelOk_congr h, levelAfter_congr h]
  | x :: before, level => and_congr Iff.rfl (levelsOk_replace h)

/-- The fingerprints as constructors. -/
structure Fingerprint.Constructors {H : Type} (F : Fingerprint H) : Prop where
  number : ∀ a b, F.number a = F.number b → a = b
  one : ∀ a b, F.one a = F.one b → a = b
  two : ∀ a b c d, F.two a b = F.two c d → a = c ∧ b = d
  bytes : ∀ a b, F.bytes a = F.bytes b → a = b

section

variable {H : Type} {F : Fingerprint H} (hF : F.Constructors)

include hF

variable {a b : YsonItem}

theorem firstItem_injective (ht : a.type = b.type) (h : firstItem F a = firstItem F b) : a = b := by
  cases a <;> cases b <;> try first | rfl | cases ht
  case booleanValue.booleanValue a b =>
    have := hF.number _ _ (hF.one _ _ h)
    revert this
    cases a <;> cases b <;> simp
  case stringValue.stringValue => rw [hF.bytes _ _ (hF.one _ _ h)]
  all_goals rw [hF.number _ _ (hF.one _ _ h)]

theorem mixItem_injective {r : H} (ht : a.type = b.type)
    (h : mixItem F r a = mixItem F r b) : a = b := by
  cases a <;> cases b <;> try first | rfl | cases ht
  case booleanValue.booleanValue a b =>
    have := hF.number _ _ (hF.two _ _ _ _ h).2
    revert this
    cases a <;> cases b <;> simp
  case stringValue.stringValue => rw [hF.bytes _ _ (hF.two _ _ _ _ h).2]
  case int64Value.int64Value => rw [hF.number _ _ (hF.two _ _ _ _ h).1]
  case uint64Value.uint64Value => rw [hF.number _ _ (hF.two _ _ _ _ h).2]
  case doubleValue.doubleValue => rw [hF.number _ _ (hF.one _ _ h)]

theorem mixItem_result_injective {r r' : H} {x : YsonItem} (hx : ∀ d, x ≠ .doubleValue d)
    (h : mixItem F r x = mixItem F r' x) : r = r' := by
  cases x with
  | doubleValue d => exact absurd rfl (hx d)
  | int64Value value => exact (hF.two _ _ _ _ h).2
  | _ => exact (hF.two _ _ _ _ h).1

theorem foldl_mixItem_eq_iff : ∀ {xs : List YsonItem} {r r' : H},
    xs.foldl (mixItem F) r = xs.foldl (mixItem F) r' ↔ r = r' ∨ ∃ d, .doubleValue d ∈ xs
  | [], r, r' => by simp
  | x :: xs, r, r' => by
    rw [foldl_cons, foldl_cons, foldl_mixItem_eq_iff]
    by_cases hx : ∃ d, x = .doubleValue d
    · obtain ⟨d, rfl⟩ := hx
      exact iff_of_true (.inl rfl) (.inr ⟨d, by simp⟩)
    · push Not at hx
      refine or_congr ⟨mixItem_result_injective hF hx, fun h => by rw [h]⟩ ?_
      simp only [mem_cons, (hx _).symm, false_or]

theorem foldItems_eq_iff {before after : List YsonItem} (ht : a.type = b.type) (hne : a ≠ b) :
    foldItems F (before ++ a :: after) = foldItems F (before ++ b :: after) ↔
      ∃ d, .doubleValue d ∈ after := by
  cases before with
  | nil =>
    rw [nil_append, nil_append, foldItems, foldItems, foldl_mixItem_eq_iff hF]
    exact or_iff_right fun h => hne (firstItem_injective hF ht h)
  | cons x before =>
    rw [cons_append, cons_append, foldItems, foldItems, foldl_append, foldl_append, foldl_cons,
      foldl_cons, foldl_mixItem_eq_iff hF]
    exact or_iff_right fun h => hne (mixItem_injective hF ht h)

/-- An item counts in the hash exactly when the hash returns and no double follows the item. -/
theorem compositeFarmHash_ne_iff {node node' : YsonNode} (hnode : node.Plain) (hnode' : node'.Plain)
    {before after : List YsonItem} {a b : YsonItem} (htype : a.type = b.type) (hne : a ≠ b)
    (hitems : node.items = before ++ a :: after) (hitems' : node'.items = before ++ b :: after) :
    compositeFarmHash F node.scan ≠ compositeFarmHash F node'.scan ↔
      node.depth < nestingLevelLimit ∧ ∀ d, .doubleValue d ∉ after := by
  have hc := comparable_items hnode
  have hc' := comparable_items hnode'
  have hl : LevelsOk 0 (before ++ a :: after) ↔ LevelsOk 0 (before ++ b :: after) :=
    levelsOk_replace htype
  rw [← levelsOk_node hnode, YsonNode.scan, YsonNode.scan]
  rw [hitems] at hc ⊢
  rw [hitems'] at hc' ⊢
  by_cases hlevels : LevelsOk 0 (before ++ a :: after)
  · rw [compositeFarmHash_eq F (by simp) hc hlevels, compositeFarmHash_eq F (by simp) hc'
      (hl.mp hlevels), ne_eq, Except.ok.injEq, foldItems_eq_iff hF htype hne, not_exists]
    exact (and_iff_right hlevels).symm
  · rw [compositeFarmHash_error F hc hlevels, compositeFarmHash_error F hc' (mt hl.mpr hlevels)]
    exact iff_of_false (fun h => h rfl) fun h => hlevels h.1

end

/-- Fingerprints as terms. -/
inductive FingerprintTerm where
  | number (value : BitVec 64)
  | one (value : FingerprintTerm)
  | two (first second : FingerprintTerm)
  | bytes (data : Bytes)
  deriving DecidableEq

def FingerprintTerm.fingerprint : Fingerprint FingerprintTerm := ⟨.number, .one, .two, .bytes⟩

theorem FingerprintTerm.constructors : FingerprintTerm.fingerprint.Constructors where
  number _ _ h := FingerprintTerm.number.inj h
  one _ _ h := FingerprintTerm.one.inj h
  two _ _ _ _ h := FingerprintTerm.two.inj h
  bytes _ _ h := FingerprintTerm.bytes.inj h

/-- `[2.; 1]` and `[2.; 3]` hash differently. -/
theorem compositeFarmHash_ne_after : compositeFarmHash FingerprintTerm.fingerprint
      (YsonNode.list [.double 0x4000000000000000, .int64 1]).scan ≠
      compositeFarmHash FingerprintTerm.fingerprint
        (YsonNode.list [.double 0x4000000000000000, .int64 3]).scan :=
  (compositeFarmHash_ne_iff FingerprintTerm.constructors
    (show (YsonNode.list [.double 0x4000000000000000, .int64 1]).Plain from ⟨trivial, trivial, trivial⟩)
    (show (YsonNode.list [.double 0x4000000000000000, .int64 3]).Plain from ⟨trivial, trivial, trivial⟩)
    (show (YsonItem.int64Value 1).type = (YsonItem.int64Value 3).type from rfl) (by decide)
    (show (YsonNode.list [.double 0x4000000000000000, .int64 1]).items =
      [.beginList, .doubleValue 0x4000000000000000] ++ .int64Value 1 :: [.endList] from rfl)
    (show (YsonNode.list [.double 0x4000000000000000, .int64 3]).items =
      [.beginList, .doubleValue 0x4000000000000000] ++ .int64Value 3 :: [.endList] from rfl)).mpr
        ⟨by decide, by simp⟩

/-- `[1; 2.]` and `[3; 2.]` hash to one value. -/
theorem compositeFarmHash_double_forgets : FingerprintTerm.fingerprint.Constructors ∧
    compositeFarmHash FingerprintTerm.fingerprint
      (YsonNode.list [.int64 1, .double 0x4000000000000000]).scan =
      compositeFarmHash FingerprintTerm.fingerprint
        (YsonNode.list [.int64 3, .double 0x4000000000000000]).scan :=
  ⟨FingerprintTerm.constructors, rfl⟩

end Ytsaurus.TableClient.Composite
