/-
# YSON nodes and the pull parser

`TYsonPullParser` of `core/yson/pull_parser.h` reads a string as a stream of items. How the
characters of the string make items (the text or the binary form) is left out: a string stands for
what the scanner finds in it, the items up to its end or up to the place where it throws. What the
parser adds to the scanner is the nesting level, which stays below `NestingLevelLimit`. The items of
a node without maps and attributes are all returned exactly when its lists nest less deep than that
(`levelsOk_items`).
-/
import Ytsaurus.Lib.Binary64
import Ytsaurus.Lib.Result

namespace Ytsaurus.Yson

open List Lib

abbrev Bytes := List (Fin 256)

instance neZeroByte : NeZero 256 := ⟨by decide⟩

/-- A YSON node. -/
inductive YsonNode where
  | entity
  | boolean (value : Bool)
  | int64 (value : BitVec 64)
  | uint64 (value : BitVec 64)
  | double (value : Binary64)
  | string (value : Bytes)
  | list (nodes : List YsonNode)
  | map (entries : List (Bytes × YsonNode))
  | attributed (attributes : List (Bytes × YsonNode)) (node : YsonNode)

inductive YsonItem where
  | endOfStream
  | beginMap
  | endMap
  | beginAttributes
  | endAttributes
  | beginList
  | endList
  | entityValue
  | booleanValue (value : Bool)
  | int64Value (value : BitVec 64)
  | uint64Value (value : BitVec 64)
  | doubleValue (value : Binary64)
  | stringValue (value : Bytes)
  deriving DecidableEq, Repr

inductive YsonItemType where
  | endOfStream
  | beginMap
  | endMap
  | beginAttributes
  | endAttributes
  | beginList
  | endList
  | entityValue
  | booleanValue
  | int64Value
  | uint64Value
  | doubleValue
  | stringValue
  deriving DecidableEq, Repr

/-- `GetType`. -/
def YsonItem.type : YsonItem → YsonItemType
  | .endOfStream => .endOfStream
  | .beginMap => .beginMap
  | .endMap => .endMap
  | .beginAttributes => .beginAttributes
  | .endAttributes => .endAttributes
  | .beginList => .beginList
  | .endList => .endList
  | .entityValue => .entityValue
  | .booleanValue _ => .booleanValue
  | .int64Value _ => .int64Value
  | .uint64Value _ => .uint64Value
  | .doubleValue _ => .doubleValue
  | .stringValue _ => .stringValue

/-- The type as errors show it. -/
def YsonItemType.text : YsonItemType → String
  | .endOfStream => "end_of_stream"
  | .beginMap => "begin_map"
  | .endMap => "end_map"
  | .beginAttributes => "begin_attributes"
  | .endAttributes => "end_attributes"
  | .beginList => "begin_list"
  | .endList => "end_list"
  | .entityValue => "entity_value"
  | .booleanValue => "boolean_value"
  | .int64Value => "int64_value"
  | .uint64Value => "uint64_value"
  | .doubleValue => "double_value"
  | .stringValue => "string_value"

namespace YsonNode

mutual

def items : YsonNode → List YsonItem
  | .entity => [.entityValue]
  | .boolean value => [.booleanValue value]
  | .int64 value => [.int64Value value]
  | .uint64 value => [.uint64Value value]
  | .double value => [.doubleValue value]
  | .string value => [.stringValue value]
  | .list nodes => .beginList :: (itemsOfList nodes ++ [.endList])
  | .map entries => .beginMap :: (itemsOfEntries entries ++ [.endMap])
  | .attributed attributes node =>
    .beginAttributes :: (itemsOfEntries attributes ++ .endAttributes :: items node)

def itemsOfList : List YsonNode → List YsonItem
  | [] => []
  | node :: nodes => items node ++ itemsOfList nodes

def itemsOfEntries : List (Bytes × YsonNode) → List YsonItem
  | [] => []
  | (key, node) :: entries => .stringValue key :: (items node ++ itemsOfEntries entries)

end

mutual

/-- No maps and no attributes, at any depth. -/
def Plain : YsonNode → Prop
  | .list nodes => PlainList nodes
  | .map _ => False
  | .attributed _ _ => False
  | _ => True

def PlainList : List YsonNode → Prop
  | [] => True
  | node :: nodes => Plain node ∧ PlainList nodes

end

mutual

/-- How deep the lists of a node without maps and attributes nest. -/
def depth : YsonNode → ℕ
  | .list nodes => depthOfList nodes + 1
  | _ => 0

def depthOfList : List YsonNode → ℕ
  | [] => 0
  | node :: nodes => max (depth node) (depthOfList nodes)

end

def nested : ℕ → YsonNode
  | 0 => .list []
  | n + 1 => .list [nested n]

theorem nested_plain : ∀ n : ℕ, (nested n).Plain
  | 0 => trivial
  | n + 1 => ⟨nested_plain n, trivial⟩

theorem nested_items_length : ∀ n : ℕ, n < (nested n).items.length
  | 0 => by decide
  | n + 1 => by
    have := nested_items_length n
    rw [nested, items, itemsOfList, itemsOfList]
    simp only [length_cons, length_append, length_nil]
    omega

end YsonNode

/-! ### The parser -/

/-- What the scanner finds in a string: items, and the text of the error it ends with, if it does.
-/
structure Scan where
  items : List YsonItem
  failure : Option String

/-- A string that holds one node. -/
def YsonNode.scan (node : YsonNode) : Scan := ⟨node.items, none⟩

/-- `DefaultYsonParserNestingLevelLimit`. -/
def nestingLevelLimit : ℕ := 256

/-- `TYsonPullParser` at a place of its input. -/
structure PullParser where
  rest : List YsonItem
  failure : Option String
  nestingLevel : ℕ

namespace PullParser

def start (scan : Scan) : PullParser := ⟨scan.items, scan.failure, 0⟩

def incrementNestingLevel (parser : PullParser) : Result PullParser :=
  if parser.nestingLevel + 1 ≥ nestingLevelLimit
    then .error (.exception "Depth limit exceeded while parsing YSON")
  else .ok { parser with nestingLevel := parser.nestingLevel + 1 }

def next (parser : PullParser) : Result (YsonItem × PullParser) :=
  match parser.rest with
  | [] =>
    match parser.failure with
    | none => .ok (.endOfStream, parser)
    | some message => .error (.exception message)
  | item :: rest =>
    match item.type with
    | .beginMap | .beginAttributes | .beginList => do
      let parser ← incrementNestingLevel { parser with rest := rest }
      return (item, parser)
    | .endMap | .endAttributes | .endList =>
      .ok (item, { parser with rest := rest, nestingLevel := parser.nestingLevel - 1 })
    | _ => .ok (item, { parser with rest := rest })

end PullParser

/-! ### Nesting levels -/

def levelAfter (item : YsonItem) (level : ℕ) : ℕ :=
  match item.type with
  | .beginMap | .beginAttributes | .beginList => level + 1
  | .endMap | .endAttributes | .endList => level - 1
  | _ => level

/-- The item does not take the parser to the limit. -/
def LevelOk (item : YsonItem) (level : ℕ) : Prop :=
  match item.type with
  | .beginMap | .beginAttributes | .beginList => level + 1 < nestingLevelLimit
  | _ => True

/-- No item of the stream takes the parser to the limit. -/
def LevelsOk : ℕ → List YsonItem → Prop
  | _, [] => True
  | level, item :: rest => LevelOk item level ∧ LevelsOk (levelAfter item level) rest

section

variable {item : YsonItem} {rest : List YsonItem} {failure : Option String} {level : ℕ}

theorem next_cons (h : LevelOk item level) : PullParser.next ⟨item :: rest, failure, level⟩ =
      .ok (item, ⟨rest, failure, levelAfter item level⟩) := by
  cases item with
  | beginMap | beginAttributes | beginList =>
    simp only [PullParser.next, YsonItem.type, PullParser.incrementNestingLevel]
    rw [if_neg (Nat.not_le.mpr h)]
    rfl
  | _ => rfl

theorem next_error (h : ¬LevelOk item level) : PullParser.next ⟨item :: rest, failure, level⟩ =
    .error (.exception "Depth limit exceeded while parsing YSON") := by
  cases item with
  | beginMap | beginAttributes | beginList =>
    simp only [PullParser.next, YsonItem.type, PullParser.incrementNestingLevel]
    rw [if_pos (Nat.not_lt.mp h)]
    rfl
  | _ => exact absurd trivial h

theorem levelAfter_congr {item' : YsonItem} (h : item.type = item'.type) :
    levelAfter item level = levelAfter item' level := by
  unfold levelAfter
  rw [h]

theorem levelOk_congr {item' : YsonItem} (h : item.type = item'.type) : LevelOk item level ↔
    LevelOk item' level := by
  unfold LevelOk
  rw [h]

end

mutual

theorem levelsOk_items {rest : List YsonItem} {level : ℕ} (hlevel : level < nestingLevelLimit) :
    ∀ {node : YsonNode}, node.Plain → (LevelsOk level (node.items ++ rest) ↔
        level + node.depth < nestingLevelLimit ∧ LevelsOk level rest)
  | .entity, _ | .boolean _, _ | .int64 _, _ | .uint64 _, _ | .double _, _ | .string _, _ => by
    simp only [YsonNode.items, singleton_append, LevelsOk, LevelOk, YsonItem.type, levelAfter,
      true_and, YsonNode.depth, Nat.add_zero, hlevel]
  | .list nodes, hp => by
    rw [YsonNode.items, cons_append, append_assoc, singleton_append, YsonNode.depth]
    simp only [LevelsOk, LevelOk, YsonItem.type, levelAfter]
    by_cases h : level + 1 < nestingLevelLimit
    · rw [levelsOk_itemsOfList h hp]
      simp only [LevelsOk, LevelOk, YsonItem.type, levelAfter, Nat.add_sub_cancel, true_and, h]
      rw [Nat.add_assoc, Nat.add_comm 1]
    · simp only [h, false_and, false_iff, not_and]
      intro hlt
      omega

theorem levelsOk_itemsOfList {rest : List YsonItem} {level : ℕ} (hl : level < nestingLevelLimit) :
    ∀ {nodes : List YsonNode}, YsonNode.PlainList nodes →
      (LevelsOk level (YsonNode.itemsOfList nodes ++ rest) ↔
        level + YsonNode.depthOfList nodes < nestingLevelLimit ∧ LevelsOk level rest)
  | [], _ => by simp only [YsonNode.itemsOfList, nil_append, YsonNode.depthOfList, Nat.add_zero,
    hl, true_and]
  | node :: nodes, hp => by
    rw [YsonNode.itemsOfList, append_assoc, levelsOk_items hl hp.1, levelsOk_itemsOfList hl hp.2,
      YsonNode.depthOfList, ← and_assoc]
    refine and_congr ?_ Iff.rfl
    omega

end

theorem levelsOk_node {node : YsonNode} (h : node.Plain) : LevelsOk 0 node.items ↔
    node.depth < nestingLevelLimit := by
  have hi : LevelsOk 0 (node.items ++ []) ↔ 0 + node.depth < nestingLevelLimit ∧ LevelsOk 0 [] :=
    levelsOk_items (by decide) h
  rw [append_nil, Nat.zero_add] at hi
  exact hi.trans (and_iff_left trivial)

end Ytsaurus.Yson
