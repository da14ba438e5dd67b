/-
# Truncation of YSON values

`TruncateYsonValue` of `client/table_client/composite_compare.cpp` copies items to binary form while
a budget of bytes lasts, then closes the lists that are open.

What has been written is the beginning of a node: lists that are open, each with the items it has so
far (`Partial`), and the budget pays for their ends when they are opened, so that closing them stays
within the size (`Partial.close`, `closeLists_length`). What has been written is what has been read,
or less than it at a string that was cut (`Reached`), and an end of a list is less than anything
else, so the result is not greater than the original (`truncateYsonValue_spec`). A node that fits is
copied whole (`truncateLoop_node`).
-/
import Ytsaurus.TableClient.CompositeCompare
import Ytsaurus.Yson.Binary

namespace Ytsaurus.TableClient.Composite

open List Lib Yson YsonItem YsonNode

/-! ### The code -/

def getMinResultingSize (item : YsonItem) (isInsideList : Bool) : Result ℤ := do
  if item.type = .endList then return 0
  let resultingSize : ℤ ← match item with
    | .stringValue value => do
      let resultingSize : ℤ := getBinarySize item - value.length
      ytVerify (resultingSize ≥ 0)
      pure resultingSize
    | _ => pure (getBinarySize item : ℤ)
  let resultingSize := if item.type = .beginList then resultingSize + getBinarySize .endList
    else resultingSize
  return if isInsideList then resultingSize + 1 else resultingSize

/-- The variables of the loop of `TruncateYsonValue`. -/
structure TruncateState where
  parser : PullParser
  remainingBytes : ℤ
  unclosedListCount : ℤ
  emptyResult : Bool
  output : Bytes

/-- The item with its string cut to a length (`Trunc`). -/
def truncateItem (item : YsonItem) (length : ℕ) : YsonItem :=
  match item with
  | .stringValue value => .stringValue (value.take length)
  | item => item

def stringSize : YsonItem → ℕ
  | .stringValue value => value.length
  | _ => 0

/-- One turn of the loop: the state after it, and whether the loop ends. -/
def truncateStep (state : TruncateState) : Result (TruncateState × Bool) := do
  let (item, parser) ← state.parser.next
  let isInsideList := decide (state.unclosedListCount > 0)
  let resultingItemSize ← getMinResultingSize item isInsideList
  if resultingItemSize > state.remainingBytes then return (state, true)
  match item.type with
  | .beginAttributes | .endAttributes | .beginMap | .endMap | .endOfStream => return (state, true)
  | _ =>
    let written := truncateItem item (state.remainingBytes - resultingItemSize).toNat
    let unclosedListCount := match item.type with
      | .beginList => state.unclosedListCount + 1
      | .endList => state.unclosedListCount - 1
      | _ => state.unclosedListCount
    let isSeparated := unclosedListCount ≠ 0 ∧ item.type ≠ .beginList
    return ({
      parser := parser
      remainingBytes := state.remainingBytes - (resultingItemSize + stringSize written)
      unclosedListCount := unclosedListCount
      emptyResult := false
      output := state.output ++ itemBytes written ++ (if isSeparated then itemSeparator else []) },
        false)

def truncateLoop : ℕ → TruncateState → Result TruncateState
  | 0, _ => .error .fuel
  | fuel + 1, state => do
    let (state, isLast) ← truncateStep state
    if isLast then return state else truncateLoop fuel state

def closeLists : ℕ → Bytes → Bytes
  | 0, output => output
  | count + 1, output => closeLists count
    (output ++ itemBytes .endList ++ (if count ≠ 0 then itemSeparator else []))

def truncateYsonValue (originalYson : Scan) (size : ℤ) : Result (Option Bytes) := do
  ytVerify (size ≥ 0)
  if size = 0 then return none
  let state ← truncateLoop (originalYson.items.length + 1)
    ⟨PullParser.start originalYson, size, 0, true, []⟩
  ytVerify (state.unclosedListCount ≥ 0)
  if state.emptyResult then return none
  return some (closeLists state.unclosedListCount.toNat state.output)

/-! ### One turn -/

def separator (count : ℕ) : Bytes := if count = 0 then [] else itemSeparator

theorem separator_length (count : ℕ) : ((separator count).length : ℤ) = if count = 0 then 0
    else 1 := by
  unfold separator
  split_ifs <;> rfl

def IsScalar (item : YsonItem) : Prop :=
  ∃ node : YsonNode, node.Plain ∧ node.items = [item] ∧ node.encode = itemBytes item

/-- What a scalar costs at least: its bytes without those of its string. -/
def scalarCost (item : YsonItem) (count : ℕ) : ℤ :=
  getBinarySize item - stringSize item + (separator count).length

section

variable {item : YsonItem} {rest : List YsonItem} {level count : ℕ} {left : ℤ} {empty : Bool}
  {output : Bytes}

theorem IsScalar.type_cases (h : IsScalar item) : item.type = .entityValue ∨
    item.type = .booleanValue ∨ item.type = .int64Value ∨ item.type = .uint64Value ∨
      item.type = .doubleValue ∨ item.type = .stringValue := by
  obtain ⟨node, hplain, hi, -⟩ := h
  cases node with
  | list nodes => simp [YsonNode.items] at hi
  | map | attributed => exact hplain.elim
  | _ =>
    obtain rfl := head_eq_of_cons_eq hi
    simp [type]

theorem IsScalar.truncate (h : IsScalar item) (length : ℕ) :
    IsScalar (truncateItem item length) := by
  cases item with
  | stringValue value => exact ⟨.string (value.take length), trivial, rfl, rfl⟩
  | _ => exact h

theorem isInsideList_eq (size : ℤ) : (if decide ((count : ℤ) > 0) = true then size + 1 else size) =
    size + (separator count).length := by
  rw [separator_length]
  rcases Nat.eq_zero_or_pos count with rfl | h
  · simp
  · rw [if_pos (by simpa using h), if_neg (by omega)]

theorem getMinResultingSize_scalar (h : IsScalar item) :
    getMinResultingSize item (decide ((count : ℤ) > 0)) = .ok (scalarCost item count) := by
  have ht := h.type_cases
  rw [scalarCost, ← isInsideList_eq]
  unfold getMinResultingSize
  cases item with
  | stringValue value =>
    have hs : (getBinarySize (.stringValue value) : ℤ) - value.length ≥ 0 := by
      simp only [getBinarySize]
      omega
    simp only [type, reduceCtorEq, ↓reduceIte, ytVerify_true hs, ok_bind, pure_eq_ok, stringSize]
  | _ =>
    simp only [type, reduceCtorEq, or_self, or_true, or_false] at ht
    try simp only [type, reduceCtorEq, ↓reduceIte, ok_bind, pure_eq_ok, stringSize,
      Nat.cast_zero, sub_zero]

/-- A scalar is written, its string cut to what is left, or the loop ends before it. -/
theorem truncateStep_scalar (h : IsScalar item) :
    truncateStep ⟨⟨item :: rest, none, level⟩, left, count, empty, output⟩ =
      if scalarCost item count > left then
        .ok (⟨⟨item :: rest, none, level⟩, left, count, empty, output⟩, true)
      else
        let out := truncateItem item (left - scalarCost item count).toNat
        .ok (⟨⟨rest, none, level⟩, left - (scalarCost item count + stringSize out), count, false,
          output ++ itemBytes out ++ separator count⟩, false) := by
  have htype := h.type_cases
  have hs : (if (count : ℤ) ≠ 0 ∧ item.type ≠ .beginList then itemSeparator else []) =
      separator count := by
    unfold separator
    have hne : item.type ≠ .beginList := by
      intro he
      rw [he] at htype
      simp at htype
    by_cases hc : count = 0 <;> simp [hc, hne]
  have hnext : PullParser.next ⟨item :: rest, none, level⟩ = .ok (item, ⟨rest, none, level⟩) := by
    cases item <;> first | rfl | (exfalso; simp [type] at htype)
  simp only [truncateStep, hnext, ok_bind, getMinResultingSize_scalar h]
  by_cases hcost : scalarCost item count > left
  · simp only [hcost, ↓reduceIte, pure_eq_ok]
  · simp only [hcost, ↓reduceIte, pure_eq_ok]
    rcases htype with ht | ht | ht | ht | ht | ht <;> rw [ht] at hs ⊢ <;> simp only [hs]

theorem truncateStep_beginList (h : LevelOk .beginList level) :
    truncateStep ⟨⟨.beginList :: rest, none, level⟩, left, count, empty, output⟩ =
      if 2 + ((separator count).length : ℤ) > left then
        .ok (⟨⟨.beginList :: rest, none, level⟩, left, count, empty, output⟩, true)
      else
        .ok (⟨⟨rest, none, level + 1⟩, left - (2 + (separator count).length), (count + 1 : ℕ),
          false, output ++ itemBytes .beginList⟩, false) := by
  have hc : getMinResultingSize .beginList (decide ((count : ℤ) > 0)) =
      .ok (2 + (separator count).length) := by
    rw [← isInsideList_eq]
    rfl
  simp only [truncateStep, next_cons h, ok_bind, hc]
  by_cases hlt : 2 + ((separator count).length : ℤ) > left
  · simp only [hlt, ↓reduceIte, pure_eq_ok]
  · simp only [hlt, type, ne_eq, not_true_eq_false, and_false, ↓reduceIte, append_nil, truncateItem,
      stringSize, Nat.cast_zero, add_zero, Nat.cast_add, Nat.cast_one]
    rfl

theorem truncateStep_endList (h : 0 ≤ left) :
    truncateStep ⟨⟨.endList :: rest, none, level⟩, left, (count + 1 : ℕ), empty, output⟩ =
      .ok (⟨⟨rest, none, level - 1⟩, left, count, false,
        output ++ itemBytes .endList ++ separator count⟩, false) := by
  have hs : (if (count : ℤ) ≠ 0 then itemSeparator else []) = separator count := by
    unfold separator
    by_cases hc : count = 0 <;> simp [hc]
  simp only [truncateStep, PullParser.next, type, ok_bind, getMinResultingSize, ↓reduceIte,
    pure_eq_ok, gt_iff_lt, not_lt.mpr h, truncateItem, stringSize, Nat.cast_zero, add_zero,
      sub_zero, Nat.cast_add, Nat.cast_one,
    add_sub_cancel_right, reduceCtorEq, not_false_eq_true, and_true, ne_eq]
  rw [← hs]

theorem truncateStep_last {state : TruncateState} {parser : PullParser}
    (hn : state.parser.next = .ok (item, parser))
    (ht : item.type = .endOfStream ∨ item.type = .beginMap ∨ item.type = .beginAttributes) :
    truncateStep state = .ok (state, true) := by
  cases item with
  | endOfStream | beginMap | beginAttributes =>
    simp only [truncateStep, hn, ok_bind, getMinResultingSize, type, reduceCtorEq,
      ↓reduceIte, pure_eq_ok]
    split_ifs <;> rfl
  | _ => simp [type] at ht

end

/-! ### What has been written -/

/-- Bytes and items of a node that is not complete: `count` lists are open. -/
inductive Partial : ℕ → Bytes → List YsonItem → Prop
  | first {nodes : List YsonNode} (h : YsonNode.PlainList nodes) :
    Partial 1 (itemBytes .beginList ++ encodeList nodes) (.beginList :: itemsOfList nodes)
  | deeper {count : ℕ} {output : Bytes} {items : List YsonItem} {nodes : List YsonNode}
    (houter : Partial (count + 1) output items) (h : YsonNode.PlainList nodes) :
    Partial (count + 2) (output ++ (itemBytes .beginList ++ encodeList nodes))
      (items ++ .beginList :: itemsOfList nodes)

section

variable {count : ℕ} {output : Bytes} {items : List YsonItem}

theorem Partial.add (h : Partial count output items) {node : YsonNode} (hnode : node.Plain) :
    Partial count (output ++ node.encode ++ itemSeparator) (items ++ node.items) := by
  have hplain : ∀ {nodes : List YsonNode}, YsonNode.PlainList nodes →
      YsonNode.PlainList (nodes ++ [node]) :=
    fun h => plainList_append h ⟨hnode, trivial⟩
  cases h with
  | @first nodes hnodes =>
    have := Partial.first (hplain hnodes)
    simpa only [encodeList_append, itemsOfList_append, encodeList, itemsOfList,
      append_nil, append_assoc, cons_append] using this
  | @deeper count output items nodes houter hnodes =>
    have := Partial.deeper houter (hplain hnodes)
    simpa only [encodeList_append, itemsOfList_append, encodeList, itemsOfList,
      append_nil, append_assoc, cons_append] using this

theorem Partial.begin (h : Partial (count + 1) output items) :
    Partial (count + 2) (output ++ itemBytes .beginList) (items ++ [.beginList]) := by
  simpa only [encodeList, itemsOfList, append_nil] using
    Partial.deeper h (show YsonNode.PlainList [] from trivial)

theorem Partial.finish (h : Partial (count + 2) output items) :
    Partial (count + 1) (output ++ itemBytes .endList ++ itemSeparator) (items ++ [.endList]) := by
  cases h with
  | @deeper _ output items nodes houter hn =>
    have := houter.add (show (YsonNode.list nodes).Plain from hn)
    simpa only [encode, YsonNode.items, append_assoc, cons_append] using this

theorem Partial.finish_last (h : Partial 1 output items) : ∃ node : YsonNode, node.Plain ∧
      output ++ itemBytes .endList = node.encode ∧ items ++ [.endList] = node.items := by
  cases h with
  | @first nodes hn => exact ⟨.list nodes, hn, rfl, rfl⟩

theorem Partial.close : ∀ {count : ℕ} {output : Bytes} {items : List YsonItem},
    Partial (count + 1) output items →
    ∃ node : YsonNode, node.Plain ∧ closeLists (count + 1) output = node.encode ∧
      node.items = items ++ replicate (count + 1) .endList
  | 0, output, items, h => by
    obtain ⟨node, hplain, ho, hi⟩ := h.finish_last
    exact ⟨node, hplain, by simpa [closeLists] using ho, by simpa using hi.symm⟩
  | count + 1, output, items, h => by
    obtain ⟨node, hplain, ho, hi⟩ := h.finish.close
    refine ⟨node, hplain, ?_, ?_⟩
    · rw [closeLists, if_pos (by omega)]
      exact ho
    · rw [hi, append_assoc, singleton_append, ← replicate_succ]

end

def closeCost (count : ℕ) : ℤ := if count = 0 then 0 else 2 * count - 1

theorem closeCost_succ (count : ℕ) :
    closeCost (count + 1) = closeCost count + 1 + (separator count).length := by
  rw [separator_length]
  rcases Nat.eq_zero_or_pos count with rfl | h
  · rfl
  · rw [closeCost, closeCost, if_neg (by omega), if_neg (by omega), if_neg (by omega)]
    push_cast
    ring

theorem closeLists_length : ∀ (count : ℕ) (output : Bytes),
    ((closeLists count output).length : ℤ) = output.length + closeCost count
  | 0, _ => by simp [closeLists, closeCost]
  | count + 1, output => by
    have hs : (if count ≠ 0 then itemSeparator else []) = separator count := by
      unfold separator
      by_cases hc : count = 0 <;> simp [hc]
    rw [closeLists, hs, closeLists_length count, closeCost_succ]
    simp only [length_append, itemBytes, length_singleton]
    push_cast
    ring

/-! ### What is left to read -/

theorem items_cases : ∀ node : YsonNode, (∃ x, node.items = [x] ∧ IsScalar x) ∨
    (∃ nodes, node = .list nodes) ∨
    ∃ x xs, node.items = x :: xs ∧ (x = .beginMap ∨ x = .beginAttributes)
  | .entity => .inl ⟨_, rfl, .entity, trivial, rfl, rfl⟩
  | .boolean value => .inl ⟨_, rfl, .boolean value, trivial, rfl, rfl⟩
  | .int64 value => .inl ⟨_, rfl, .int64 value, trivial, rfl, rfl⟩
  | .uint64 value => .inl ⟨_, rfl, .uint64 value, trivial, rfl, rfl⟩
  | .double value => .inl ⟨_, rfl, .double value, trivial, rfl, rfl⟩
  | .string value => .inl ⟨_, rfl, .string value, trivial, rfl, rfl⟩
  | .list nodes => .inr (.inl ⟨nodes, rfl⟩)
  | .map _ => .inr (.inr ⟨_, _, rfl, .inl rfl⟩)
  | .attributed _ _ => .inr (.inr ⟨_, _, rfl, .inr rfl⟩)

/-- The rest of a node with `count` lists open. -/
inductive Rest : ℕ → List YsonItem → Prop
  | done : Rest 0 []
  | inside {count : ℕ} {rest : List YsonItem} (nodes : List YsonNode) (h : Rest count rest) :
    Rest (count + 1) (itemsOfList nodes ++ .endList :: rest)

/-- The item the loop meets, and what is left after it. -/
inductive Head : ℕ → YsonItem → List YsonItem → Prop
  | scalar {count : ℕ} {x : YsonItem} {rest : List YsonItem} (hx : IsScalar x)
    (h : Rest count rest) : Head count x rest
  | beginList {count : ℕ} {rest : List YsonItem} (h : Rest (count + 1) rest) :
    Head count .beginList rest
  | endList {count : ℕ} {rest : List YsonItem} (h : Rest count rest) : Head (count + 1) .endList rest
  | last {count : ℕ} {x : YsonItem} {rest : List YsonItem}
    (hx : x = .beginMap ∨ x = .beginAttributes) : Head count x rest

theorem head_node {count : ℕ} {rest : List YsonItem} (h : Rest count rest) (node : YsonNode) :
    ∃ x xs, node.items ++ rest = x :: xs ∧ Head count x xs := by
  rcases items_cases node with ⟨x, hi, hx⟩ | ⟨nodes, rfl⟩ | ⟨x, xs, hi, hx⟩
  · exact ⟨x, rest, by rw [hi]; rfl, .scalar hx h⟩
  · refine ⟨.beginList, _, ?_, .beginList (.inside nodes h)⟩
    rw [YsonNode.items, cons_append, append_assoc, singleton_append]
  · exact ⟨x, xs ++ rest, by rw [hi]; rfl, .last hx⟩

theorem Rest.head {count : ℕ} {items : List YsonItem} (h : Rest count items) :
    count = 0 ∧ items = [] ∨ ∃ x rest, items = x :: rest ∧ Head count x rest := by
  cases h with
  | done => exact .inl ⟨rfl, rfl⟩
  | @inside count rest nodes h =>
    right
    cases nodes with
    | nil => exact ⟨.endList, rest, rfl, .endList h⟩
    | cons node nodes =>
      rw [itemsOfList, append_assoc]
      exact head_node (.inside nodes h) node

/-! ### Read and written -/

/-- The written items are the ones read, or less than them at some place. -/
def Reached (written read : List YsonItem) : Prop :=
  written = read ∨ ∃ p x y s t, written = p ++ x :: s ∧ read = p ++ y :: t ∧ x.type = y.type ∧
    itemKey x < itemKey y

theorem Reached.append {out read : List YsonItem} (h : Reached out read) {w x : YsonItem}
    (ht : w.type = x.type)
    (hle : w = x ∨ itemKey w < itemKey x) : Reached (out ++ [w]) (read ++ [x]) := by
  rcases h with rfl | ⟨p, a, b, s, t, rfl, rfl, hab, hlt⟩
  · rcases hle with rfl | hlt
    · exact .inl rfl
    · exact .inr ⟨out, w, x, [], [], rfl, rfl, ht, hlt⟩
  · exact .inr ⟨p, a, b, s ++ [w], t ++ [x], by simp, by simp, hab, hlt⟩

theorem truncateItem_type (item : YsonItem) (length : ℕ) :
    (truncateItem item length).type = item.type := by
  cases item <;> rfl

theorem truncateItem_le (item : YsonItem) (length : ℕ) :
    truncateItem item length = item ∨ itemKey (truncateItem item length) < itemKey item := by
  cases item with
  | stringValue value =>
    by_cases h : value.take length = value
    · exact .inl (congrArg stringValue h)
    · right
      exact Prod.Lex.toLex_lt_toLex.mpr (.inr ⟨rfl, Prod.Lex.toLex_lt_toLex.mpr (.inr ⟨rfl, take_lt h⟩)⟩)
  | _ => exact .inl rfl

theorem stringSize_truncateItem (item : YsonItem) (length : ℕ) :
    stringSize (truncateItem item length) ≤ length := by
  cases item with
  | stringValue value => exact length_take_le length value
  | _ => exact Nat.zero_le _

theorem shortStrings_truncateItem {item : YsonItem} (h : ShortStrings [item]) (length : ℕ) :
    ShortStrings [truncateItem item length] := by
  cases item with
  | stringValue value =>
    intro cut hc
    obtain rfl := stringValue.inj (mem_singleton.mp hc)
    exact lt_of_le_of_lt (length_take_le' length value) (h value (by simp))
  | _ => exact h

theorem itemBytes_truncateItem {item : YsonItem} (h : ShortStrings [item]) (length : ℕ) :
    ((itemBytes (truncateItem item length)).length : ℤ) ≤
      getBinarySize item - stringSize item + stringSize (truncateItem item length) := by
  rw [itemBytes_length]
  cases item with
  | stringValue value =>
    have hle : (value.take length).length ≤ value.length := length_take_le' length value
    have := varInt32_length_mono hle (h value (by simp))
    simp only [truncateItem, getBinarySize, stringSize]
    omega
  | _ => simp [truncateItem, stringSize]

/-! ### The loop -/

/-- How far the copy is: before the node, inside lists, or after the node. -/
inductive Stage (node : YsonNode) : List YsonItem → List YsonItem → ℕ → Bool → Bytes → Prop
  | start : Stage node [] node.items 0 true []
  | opened {written rest : List YsonItem} {count : ℕ} {output : Bytes}
    (hwritten : Partial (count + 1) output written)
    (hrest : Rest (count + 1) rest) : Stage node written rest (count + 1) false output
  | finished {result : YsonNode} (hplain : result.Plain) :
    Stage node result.items [] 0 false result.encode

section

variable {node : YsonNode} {out rest : List YsonItem} {count : ℕ} {empty : Bool} {output : Bytes}
  {x : YsonItem}

theorem Stage.head (h : Stage node out (x :: rest) count empty output) : Head count x rest := by
  generalize hi : x :: rest = items at h
  cases h with
  | start =>
    obtain ⟨y, ys, hy, hh⟩ := head_node .done node
    rw [append_nil, ← hi] at hy
    obtain ⟨rfl, rfl⟩ := cons.inj hy
    exact hh
  | opened _ hrest =>
    rcases hrest.head with ⟨h0, -⟩ | ⟨y, ys, hy, hh⟩
    · omega
    · rw [← hi] at hy
      obtain ⟨rfl, rfl⟩ := cons.inj hy
      exact hh
  | finished => cases hi

theorem Stage.of_not_empty (h : Stage node out rest count false output) :
    (∃ k, count = k + 1 ∧ Partial count output out ∧ Rest count rest) ∨ count = 0 ∧ rest = [] ∧
      ∃ result : YsonNode, result.Plain ∧ out = result.items ∧ output = result.encode := by
  generalize he : false = empty at h
  cases h with
  | start => cases he
  | opened hwritten hrest => exact .inl ⟨_, rfl, hwritten, hrest⟩
  | finished hplain => exact .inr ⟨rfl, rfl, _, hplain, rfl, rfl⟩

theorem Stage.scalar (h : Stage node out (x :: rest) count empty output)
    {w : YsonItem} (hrest : Rest count rest) (hw : IsScalar w) :
      Stage node (out ++ [w]) rest count false (output ++ itemBytes w ++ separator count) := by
  obtain ⟨result, hplain, hi, hb⟩ := hw
  generalize heq : x :: rest = items at h
  cases h with
  | start =>
    cases hrest
    have : Stage node result.items [] 0 false result.encode := .finished hplain
    simpa only [hi, hb, nil_append, separator, ↓reduceIte, append_nil] using this
  | @opened _ _ count _ hwritten _ =>
    refine .opened ?_ hrest
    have := hwritten.add hplain
    rwa [hi, hb] at this
  | finished => cases heq

theorem Stage.beginList (h : Stage node out (x :: rest) count empty output)
    (hrest : Rest (count + 1) rest) :
    Stage node (out ++ [.beginList]) rest (count + 1) false (output ++ itemBytes .beginList) := by
  generalize hi : x :: rest = items at h
  cases h with
  | start => exact .opened (.first (show YsonNode.PlainList [] from trivial)) hrest
  | opened hwritten _ => exact .opened hwritten.begin hrest
  | finished => cases hi

theorem Stage.endList (h : Stage node out (x :: rest) (count + 1) empty output)
    (hrest : Rest count rest) : Stage node (out ++ [.endList]) rest count false
      (output ++ itemBytes .endList ++ separator count) := by
  generalize x :: rest = items at h
  cases h with
  | opened hwritten _ =>
    cases count with
    | zero =>
      cases hrest
      obtain ⟨result, hplain, hb, hi⟩ := hwritten.finish_last
      rw [separator, if_pos rfl, append_nil, hb, hi]
      exact .finished hplain
    | succ count => exact .opened hwritten.finish hrest

end

def levelsAfter (level : ℕ) (items : List YsonItem) : ℕ :=
  items.foldl (fun level item => levelAfter item level) level

theorem levelsOk_append : ∀ {p q : List YsonItem} {level : ℕ},
    LevelsOk level (p ++ q) ↔ LevelsOk level p ∧ LevelsOk (levelsAfter level p) q
  | [], q, level => (and_iff_right trivial).symm
  | x :: p, q, level => by
    rw [cons_append, LevelsOk, LevelsOk, levelsOk_append, and_assoc]
    rfl

theorem levelsAfter_append (level : ℕ) (items : List YsonItem) (x : YsonItem) :
    levelsAfter level (items ++ [x]) = levelAfter x (levelsAfter level items) := by
  simp [levelsAfter]

/-- What the loop keeps. -/
structure Truncating (node : YsonNode) (size : ℤ) (read written rest : List YsonItem)
    (remaining : ℤ) (count : ℕ) (empty : Bool) (output : Bytes) : Prop where
  items : node.items = read ++ rest
  levels : LevelsOk 0 read
  stage : Stage node written rest count empty output
  size : output.length + closeCost count + remaining ≤ size
  remaining : 0 ≤ remaining
  reached : Reached written read
  short : ShortStrings written

def truncateState (read rest : List YsonItem) (remaining : ℤ) (count : ℕ) (empty : Bool)
    (output : Bytes) : TruncateState :=
  ⟨⟨rest, none, levelsAfter 0 read⟩, remaining, count, empty, output⟩

/-- Where the loop ends: at the end of the node, or before an item that does not end a list. -/
def Stopped (read rest : List YsonItem) : Prop :=
  rest = [] ∨ ∃ x xs, rest = x :: xs ∧ x ≠ .endList ∧ LevelOk x (levelsAfter 0 read)

section

variable {node : YsonNode} {size : ℤ} {read out rest : List YsonItem} {left : ℤ} {count : ℕ}
  {empty : Bool}
  {output : Bytes} {x : YsonItem}

theorem Truncating.next (h : Truncating node size read out (x :: rest) left count empty output)
    (hlevel : LevelOk x (levelsAfter 0 read)) {w : YsonItem} (ht : w.type = x.type)
    (hle : w = x ∨ itemKey w < itemKey x)
    (hshort : ShortStrings [w]) {remaining' : ℤ} {count' : ℕ} {output' : Bytes}
    (hstage : Stage node (out ++ [w]) rest count' false output')
    (hsize : (output'.length : ℤ) + closeCost count' + remaining' ≤
      output.length + closeCost count + left) (hr : 0 ≤ remaining') :
    Truncating node size (read ++ [x]) (out ++ [w]) rest remaining' count' false output' where
  items := by rw [h.items, append_assoc, singleton_append]
  levels := levelsOk_append.mpr ⟨h.levels, hlevel, trivial⟩
  stage := hstage
  size := hsize.trans h.size
  remaining := hr
  reached := h.reached.append ht hle
  short value hvalue := (mem_append.mp hvalue).elim (h.short value) (hshort value)

theorem truncateStep_spec (hshort : ShortStrings node.items)
    (h : Truncating node size read out rest left count empty output) {state' : TruncateState}
    {isLast : Bool} (hstep : truncateStep (truncateState read rest left count empty output) =
      .ok (state', isLast)) :
    isLast = true ∧ state' = truncateState read rest left count empty output ∧ Stopped read rest ∨
    isLast = false ∧ ∃ read' written' rest' remaining' count' output',
      state' = truncateState read' rest' remaining' count' false output' ∧
      Truncating node size read' written' rest' remaining' count' false output' := by
  cases rest with
  | nil =>
    rw [truncateStep_last (show PullParser.next _ = .ok (.endOfStream, _) from rfl) (.inl rfl)] at hstep
    cases hstep
    exact .inl ⟨rfl, rfl, .inl rfl⟩
  | cons x rest =>
    have hshortx : ShortStrings [x] := fun value hv =>
      hshort value
        (by rw [h.items]; exact mem_append_right _ (mem_cons.mpr (.inl (mem_singleton.mp hv))))
    have hl : LevelOk x (levelsAfter 0 read) := by
      by_contra hl
      rw [truncateState, truncateStep, next_error hl] at hstep
      cases hstep
    have hstop : x ≠ .endList → Stopped read (x :: rest) := fun hne => .inr ⟨x, rest, rfl, hne, hl⟩
    have hl' : levelsAfter 0 (read ++ [x]) = levelAfter x (levelsAfter 0 read) :=
      levelsAfter_append 0 read x
    cases h.stage.head with
    | last hx =>
      rw [truncateStep_last (next_cons hl) (by rcases hx with rfl | rfl <;> simp [type])] at hstep
      cases hstep
      exact .inl ⟨rfl, rfl, hstop (by rcases hx with rfl | rfl <;> simp)⟩
    | beginList hrest =>
      rw [truncateState, truncateStep_beginList hl] at hstep
      split_ifs at hstep with hcost
      · cases hstep
        exact .inl ⟨rfl, rfl, hstop (by simp)⟩
      · cases hstep
        refine .inr ⟨rfl, read ++ [.beginList], _, rest, left - (2 + (separator count).length),
          count + 1, _, ?_, h.next hl rfl (.inl rfl) hshortx (h.stage.beginList hrest) ?_ ?_⟩
        · rw [truncateState, hl']
          rfl
        · rw [closeCost_succ]
          simp only [length_append, itemBytes, length_singleton]
          omega
        · omega
    | @endList count _ hrest =>
      rw [truncateState, truncateStep_endList h.remaining] at hstep
      cases hstep
      refine .inr ⟨rfl, read ++ [.endList], _, rest, left, count, _, ?_,
        h.next hl rfl (.inl rfl) hshortx (h.stage.endList hrest) ?_ h.remaining⟩
      · rw [truncateState, hl']
        rfl
      · rw [closeCost_succ]
        simp only [length_append, itemBytes, length_singleton]
        omega
    | scalar hx hrest =>
      have he : x ≠ .endList := by
        rintro rfl
        simpa [type] using hx.type_cases
      have ha : levelAfter x (levelsAfter 0 read) = levelsAfter 0 read := by
        unfold levelAfter
        rcases hx.type_cases with ht | ht | ht | ht | ht | ht <;> rw [ht]
      rw [truncateState, truncateStep_scalar hx] at hstep
      split_ifs at hstep with hcost
      · cases hstep
        exact .inl ⟨rfl, rfl, hstop he⟩
      · cases hstep
        generalize hcut : (left - scalarCost x count).toNat = length
        have hstring := stringSize_truncateItem x length
        have hb := itemBytes_truncateItem hshortx length
        have hcost' : scalarCost x count =
          getBinarySize x - stringSize x + (separator count).length := rfl
        refine .inr ⟨rfl, read ++ [x], _, rest,
          left - (scalarCost x count + stringSize (truncateItem x length)), count,
          _, ?_, h.next hl (truncateItem_type x length) (truncateItem_le x length)
            (shortStrings_truncateItem hshortx length)
              (h.stage.scalar hrest (hx.truncate length)) ?_ ?_⟩
        · rw [truncateState, hl', ha]
        · simp only [length_append]
          omega
        · omega

theorem truncateLoop_spec (hshort : ShortStrings node.items) :
    ∀ {fuel : ℕ} {read out rest : List YsonItem} {left : ℤ}
    {count : ℕ} {empty : Bool} {output : Bytes} {state' : TruncateState},
    Truncating node size read out rest left count empty output →
    truncateLoop fuel (truncateState read rest left count empty output) = .ok state' →
    ∃ read' written' rest' remaining' count' empty' output',
      state' = truncateState read' rest' remaining' count' empty' output' ∧
      Truncating node size read' written' rest' remaining' count' empty' output' ∧
        Stopped read' rest'
  | 0, _, _, _, _, _, _, _, _, _, h => by cases h
  | fuel + 1, read, out, rest, left, count, empty, output, state', hi, h => by
    obtain ⟨⟨state₁, isLast⟩, hstep, hl⟩ := bind_eq_ok.mp h
    rcases truncateStep_spec hshort hi hstep with
      ⟨rfl, rfl, hstop⟩ | ⟨rfl, read', written', rest', remaining', count', output', rfl, hi'⟩
    · cases hl
      exact ⟨_, _, _, _, _, _, _, rfl, hi, hstop⟩
    · exact truncateLoop_spec hshort hi' hl

end

/-! ### The result -/

theorem compareLoop_mismatch : ∀ {p s t : List YsonItem} {x y : YsonItem} {fuel level : ℕ},
    (∀ z ∈ p, Comparable z) → Comparable x → Comparable y → LevelsOk level (p ++ [x]) →
    LevelsOk level (p ++ [y]) → itemKey x ≠ itemKey y →
    p.length < fuel → compareLoop fuel ⟨p ++ x :: s, none, level⟩ ⟨p ++ y :: t, none, level⟩ =
      .ok (ternaryCompare (itemKey x) (itemKey y))
  | _, _, _, _, _, 0, _, _, _, _, _, _, _, hf => by omega
  | [], s, t, x, y, fuel + 1, level, _, hx, hy, hlx, hly, hne, _ => by
    rw [nil_append, nil_append, compareLoop_cons hx hy hlx.1 hly.1,
      if_pos (mt ternaryCompare_eq_zero.mp hne)]
  | z :: p, s, t, x, y, fuel + 1, level, hp, hx, hy, hlx, hly, hne, hf => by
    have hz := hp z (by simp)
    rw [cons_append, cons_append, compareLoop_cons hz hz hlx.1 hlx.1,
      if_neg (by simp [ternaryCompare_self])]
    exact compareLoop_mismatch (fun z hz => hp z (by simp [hz])) hx hy hlx.2 hly.2 hne
      (by simpa using hf)

theorem endList_lt {x : YsonItem} (hx : Comparable x) (hne : x ≠ .endList) :
    itemKey .endList < itemKey x := by
  refine Prod.Lex.toLex_lt_toLex.mpr (.inl ?_)
  cases x <;> first | exact absurd rfl hx | exact absurd rfl hne | simp [typeRank, type,
    EValueType.code]

section

variable {node : YsonNode} {size : ℤ} {read out rest : List YsonItem} {left : ℤ} {count : ℕ}
  {output : Bytes}

theorem Truncating.result (h : Truncating node size read out rest left count false output) :
    ∃ result : YsonNode, result.Plain ∧ closeLists count output = result.encode ∧
      result.items = out ++ replicate count .endList := by
  rcases h.stage.of_not_empty with ⟨k, rfl, hwritten, -⟩ | ⟨rfl, -, result, hplain, rfl, rfl⟩
  · exact hwritten.close
  · exact ⟨result, hplain, rfl, by simp⟩

/-- The node that is made is not greater than the original. -/
theorem Truncating.compare (h : Truncating node size read out rest left count false output)
    (hs : Stopped read rest) (hnode : node.Plain) {result : YsonNode} (hr : result.Plain)
    (hi : result.items = out ++ replicate count .endList) :
    ∃ r, compareYsonValues result.scan node.scan = .ok r ∧ r ≤ 0 := by
  have hcomparable := comparable_items hnode
  have hnodeI := h.items
  rcases h.reached with rfl | ⟨p, x, y, s, t, rfl, rfl, ht, hlt⟩
  · rcases hs with rfl | ⟨x, xs, rfl, hx, hlevel⟩
    · -- the whole node was copied
      have hcount : count = 0 := by
        rcases h.stage.of_not_empty with ⟨k, -, -, hrest⟩ | ⟨h0, -⟩
        · rcases hrest.head with ⟨h0, -⟩ | ⟨_, _, hcons, -⟩
          · exact h0
          · cases hcons
        · exact h0
      rw [hcount, replicate_zero, ← hnodeI.trans (append_nil _)] at hi
      have hd : node.depth < nestingLevelLimit := (levelsOk_node hnode).mp (by
        rw [hnodeI, append_nil]
        exact h.levels)
      refine ⟨0, ?_, le_rfl⟩
      rw [show result.scan = node.scan by rw [scan, scan, hi, append_nil],
        compareYsonValues_eq hnode hnode hd hd, ternaryCompare_self]
    · -- the end of a list against an item that was not copied
      obtain ⟨k, rfl⟩ : ∃ k, count = k + 1 := by
        rcases h.stage.of_not_empty with ⟨k, hk, -⟩ | ⟨-, hnil, -⟩
        · exact ⟨k, hk⟩
        · cases hnil
      have hx' : Comparable x := hcomparable x (by simp [hnodeI])
      have hlt := endList_lt hx' hx
      refine ⟨_, ?_, (ternaryCompare_le.mpr hlt.le)⟩
      simp only [scan, hi, hnodeI]
      exact compareLoop_mismatch (fun z hz => hcomparable z (by simp [hnodeI, hz]))
        (fun h => by cases h) hx' (levelsOk_append.mpr ⟨h.levels, trivial, trivial⟩)
          (levelsOk_append.mpr ⟨h.levels, hlevel, trivial⟩) hlt.ne
        (by simp only [length_append]; omega)
  · -- a string that was cut
    rw [append_assoc, cons_append] at hi hnodeI
    have hx : Comparable x := comparable_items hr x (by simp [hi])
    have hy : Comparable y := hcomparable y (by simp [hnodeI])
    have hly : LevelsOk 0 (p ++ [y]) := by
      have := h.levels
      rw [← singleton_append, ← append_assoc] at this
      exact (levelsOk_append.mp this).1
    refine ⟨_, ?_, (ternaryCompare_le.mpr hlt.le)⟩
    simp only [scan, hi, hnodeI]
    exact compareLoop_mismatch (fun z hz => hcomparable z (by simp [hnodeI, hz])) hx hy
      ((levelsOk_replace ht).mpr hly) hly hlt.ne (by simp only [length_append]; omega)

end

/-! ### A node that fits -/

theorem truncateLoop_step {fuel : ℕ} {state state' : TruncateState}
    (h : truncateStep state = .ok (state', false)) :
    truncateLoop (fuel + 1) state = truncateLoop fuel state' := by
  rw [truncateLoop, h, ok_bind]
  rfl

theorem truncateLoop_scalar {x : YsonItem} (hx : IsScalar x) {rest : List YsonItem}
    {fuel level count : ℕ} {left : ℤ} {empty : Bool} {output : Bytes}
    (h : ((itemBytes x).length : ℤ) + (separator count).length ≤ left) :
    truncateLoop (fuel + 1) ⟨⟨x :: rest, none, level⟩, left, count, empty, output⟩ =
      truncateLoop fuel ⟨⟨rest, none, level⟩,
        left - ((itemBytes x).length + (separator count).length), count, false,
        output ++ itemBytes x ++ separator count⟩ := by
  rw [itemBytes_length] at h ⊢
  have hc : scalarCost x count = getBinarySize x - stringSize x + (separator count).length := rfl
  have hw : truncateItem x (left - scalarCost x count).toNat = x := by
    cases x with
    | stringValue value =>
      simp only [truncateItem, stringSize] at hc ⊢
      rw [take_of_length_le (by omega)]
    | _ => rfl
  rw [truncateLoop_step (by rw [truncateStep_scalar hx, if_neg (by omega)])]
  simp only [hw]
  rw [show scalarCost x count + stringSize x = getBinarySize x + (separator count).length by omega]

mutual

/-- A node that the budget pays for is copied whole. -/
theorem truncateLoop_node : ∀ {node : YsonNode}, node.Plain →
    ∀ {rest : List YsonItem} {fuel level count : ℕ}
    {left : ℤ} {empty : Bool} {output : Bytes}, level + node.depth < nestingLevelLimit →
    (node.encode.length : ℤ) + (separator count).length ≤ left →
    truncateLoop (fuel + node.items.length)
      ⟨⟨node.items ++ rest, none, level⟩, left, count, empty, output⟩ = truncateLoop fuel
        ⟨⟨rest, none, level⟩, left - (node.encode.length + (separator count).length), count, false,
        output ++ node.encode ++ separator count⟩
  | .entity, _, _, _, _, _, _, _, _, _, h => truncateLoop_scalar ⟨.entity, trivial, rfl, rfl⟩ h
  | .boolean value, _, _, _, _, _, _, _, _, _, h =>
    truncateLoop_scalar ⟨.boolean value, trivial, rfl, rfl⟩ h
  | .int64 value, _, _, _, _, _, _, _, _, _, h =>
    truncateLoop_scalar ⟨.int64 value, trivial, rfl, rfl⟩ h
  | .uint64 value, _, _, _, _, _, _, _, _, _, h =>
    truncateLoop_scalar ⟨.uint64 value, trivial, rfl, rfl⟩ h
  | .double value, _, _, _, _, _, _, _, _, _, h =>
    truncateLoop_scalar ⟨.double value, trivial, rfl, rfl⟩ h
  | .string value, _, _, _, _, _, _, _, _, _, h =>
    truncateLoop_scalar ⟨.string value, trivial, rfl, rfl⟩ h
  | .list nodes, hplain, rest, fuel, level, count, left, empty, output, hd, h => by
    rw [depth] at hd
    have hb : LevelOk .beginList level := show level + 1 < nestingLevelLimit by omega
    have hl : ((YsonNode.list nodes).encode.length : ℤ) = 2 + (encodeList nodes).length := by
      simp only [encode, itemBytes, length_append, length_singleton]
      push_cast
      ring
    rw [hl] at h ⊢
    rw [show fuel + (YsonNode.list nodes).items.length = (fuel + 1 + (itemsOfList nodes).length) + 1 by
        simp only [YsonNode.items, length_cons, length_append, length_nil]; omega,
      YsonNode.items, cons_append, append_assoc, singleton_append,
      truncateLoop_step (by rw [truncateStep_beginList hb, if_neg (by omega)]), truncateLoop_list hplain,
      truncateLoop_step (truncateStep_endList (by omega)), Nat.add_sub_cancel, encode]
    · simp only [append_assoc]
      congr 2
      omega
    · omega
    · omega

theorem truncateLoop_list : ∀ {nodes : List YsonNode}, YsonNode.PlainList nodes →
    ∀ {rest : List YsonItem} {fuel level count : ℕ} {left : ℤ} {output : Bytes},
      level + depthOfList nodes < nestingLevelLimit →
    ((encodeList nodes).length : ℤ) ≤ left → truncateLoop (fuel + (itemsOfList nodes).length)
        ⟨⟨itemsOfList nodes ++ rest, none, level⟩, left, (count + 1 : ℕ), false, output⟩ =
      truncateLoop fuel ⟨⟨rest, none, level⟩, left - (encodeList nodes).length, (count + 1 : ℕ),
        false, output ++ encodeList nodes⟩
  | [], _, _, _, _, _, _, _, _, _ => by
    simp [itemsOfList, encodeList]
  | node :: nodes, hplain, rest, fuel, level, count, left, output, hd, h => by
    rw [depthOfList] at hd
    have hl : ((encodeList (node :: nodes)).length : ℤ) =
        node.encode.length + (separator (count + 1)).length + (encodeList nodes).length := by
      simp only [encodeList, length_append]
      push_cast
      rfl
    rw [hl] at h ⊢
    rw [itemsOfList, length_append, append_assoc, Nat.add_comm node.items.length, ← Nat.add_assoc,
      truncateLoop_node hplain.1, truncateLoop_list hplain.2, encodeList]
    · simp only [append_assoc]
      congr 2
      omega
    all_goals omega

end

theorem encode_ne_nil {node : YsonNode} (hn : node.Plain) : node.encode ≠ [] := by
  cases node with
  | map entries | attributed attributes node => exact hn.elim
  | _ => simp [encode, itemBytes]

/-- A node that fits is copied whole. -/
theorem truncateYsonValue_copy {node : YsonNode} {size : ℤ} (hnode : node.Plain)
    (hdepth : node.depth < nestingLevelLimit) (hfits : (node.encode.length : ℤ) ≤ size) :
    truncateYsonValue node.scan size = .ok (some node.encode) := by
  have hpos := length_pos_of_ne_nil (encode_ne_nil hnode)
  have hsize : size ≥ 0 := by omega
  have hloop : truncateLoop (node.items.length + 1) ⟨PullParser.start node.scan, size, 0, true,
      []⟩ = .ok ⟨⟨[], none, 0⟩, size - node.encode.length, 0, false, node.encode⟩ := by
    have hcopy : truncateLoop (1 + node.items.length)
        ⟨⟨node.items ++ [], none, 0⟩, size, (0 : ℕ), true, []⟩ = _ :=
      truncateLoop_node hnode (by omega) (by simpa [separator] using hfits)
    rw [append_nil, Nat.add_comm] at hcopy
    refine hcopy.trans ?_
    rw [truncateLoop, truncateStep_last (show PullParser.next _ = .ok (.endOfStream, _) from rfl)
      (.inl rfl), ok_bind]
    simp [separator]
  rw [truncateYsonValue, ytVerify_true hsize, ok_bind, if_neg (by omega)]
  simp only [YsonNode.scan] at hloop ⊢
  rw [hloop]
  rfl

/-- A truncated value is a node within the size and not greater than the original; a node that fits
is copied whole. -/
theorem truncateYsonValue_spec {node : YsonNode} (hshort : ShortStrings node.items) {size : ℤ}
    (hsize : 0 ≤ size) : (∀ output, truncateYsonValue node.scan size = .ok (some output) →
      ∃ result : YsonNode, result.Plain ∧ ShortStrings result.items ∧ output = result.encode ∧
        (output.length : ℤ) ≤ size ∧
        (node.Plain → ∃ r, compareYsonValues result.scan node.scan = .ok r ∧ r ≤ 0)) ∧
    (node.Plain → node.depth < nestingLevelLimit → (node.encode.length : ℤ) ≤ size →
      truncateYsonValue node.scan size = .ok (some node.encode)) := by
  have hstart : Truncating node size [] [] node.items size 0 true [] :=
    ⟨rfl, trivial, .start, by simp [closeCost], hsize, .inl rfl, by simp [ShortStrings]⟩
  refine ⟨fun output h => ?_, truncateYsonValue_copy⟩
  rw [truncateYsonValue, ytVerify_true hsize, ok_bind] at h
  split_ifs at h with hzero
  · cases h
  · obtain ⟨state, hloop, h⟩ := bind_eq_ok.mp h
    obtain ⟨read, written, rest, remaining, count, empty, output', rfl, hinv, hstopped⟩ :=
      truncateLoop_spec hshort hstart hloop
    have hcount : (truncateState read rest remaining count empty output').unclosedListCount ≥ 0 :=
      Int.natCast_nonneg count
    cases empty with
    | true => cases h
    | false =>
      obtain ⟨result, hplain, hencode, hitems⟩ := hinv.result
      have houtput : output = closeLists count output' := by
        cases h
        rfl
      refine ⟨result, hplain, ?_, houtput.trans hencode, ?_, fun hnode =>
        hinv.compare hstopped hnode hplain hitems⟩
      · intro value hvalue
        rw [hitems] at hvalue
        rcases mem_append.mp hvalue with hv | hv
        · exact hinv.short value hv
        · cases eq_of_mem_replicate hv
      · have hlength := closeLists_length count output'
        have := hinv.size
        have := hinv.remaining
        rw [houtput]
        omega

/-- `[["abcd"]; 1]` in ten bytes is `[["ab"]]`, which is not greater; all of it fits in a hundred.
-/
theorem truncateYsonValue_fits :
    let node := YsonNode.list [.list [.string [97, 98, 99, 100]], .int64 1]
    truncateYsonValue node.scan 10 = .ok (some (YsonNode.list [.list [.string [97, 98]]]).encode) ∧
      (∃ result : YsonNode, (YsonNode.list [.list [.string [97, 98]]]).encode = result.encode ∧
        ∃ r, compareYsonValues result.scan node.scan = .ok r ∧ r ≤ 0) ∧
      truncateYsonValue node.scan 100 = .ok (some node.encode) := by
  intro node
  have hshort : ShortStrings node.items := by
    intro value h
    obtain rfl : value = [97, 98, 99, 100] := by
      simpa [node, YsonNode.items, YsonNode.itemsOfList] using h
    decide
  have hcut : truncateYsonValue node.scan 10 =
      .ok (some (YsonNode.list [.list [.string [97, 98]]]).encode) := by
    decide +kernel
  have hplain : node.Plain := ⟨⟨trivial, trivial⟩, trivial, trivial⟩
  obtain ⟨result, -, -, hencode, -, hcompare⟩ := (truncateYsonValue_spec hshort (by decide)).1 _ hcut
  exact ⟨hcut, ⟨result, hencode, hcompare hplain⟩,
    (truncateYsonValue_spec hshort (by decide)).2 hplain (by decide) (by decide +kernel)⟩

/-- A list that nests to the limit ends the loop with an error. -/
theorem truncateLoop_nested :
    ∀ (n : ℕ) {rest : List YsonItem} {fuel level count : ℕ} {left : ℤ} {empty : Bool}
    {output : Bytes}, level + n + 1 = nestingLevelLimit → n < fuel → 3 * (n : ℤ) ≤ left →
    truncateLoop fuel ⟨⟨(nested n).items ++ rest, none, level⟩, left, count, empty, output⟩ =
      .error (.exception "Depth limit exceeded while parsing YSON")
  | n, _, 0, _, _, _, _, _, _, hf, _ => by omega
  | 0, rest, fuel + 1, level, count, left, empty, output, hl, _, _ => by
    have hd : ¬LevelOk .beginList level := fun h => by
      have : level + 1 < nestingLevelLimit := h
      omega
    rw [truncateLoop, truncateStep, nested, YsonNode.items, cons_append]
    simp only [next_error hd]
    rfl
  | n + 1, rest, fuel + 1, level, count, left, empty, output, hl, hf, hc => by
    have hb : LevelOk .beginList level := show level + 1 < nestingLevelLimit by omega
    have hs := separator_length count
    rw [nested, YsonNode.items, itemsOfList, itemsOfList, append_nil, cons_append,
      append_assoc, truncateLoop_step (by
        rw [truncateStep_beginList hb, if_neg (by split_ifs at hs <;> push_cast at hc <;> omega)])]
    exact truncateLoop_nested n (by omega) (by omega) (by split_ifs at hs <;> push_cast at hc <;> omega)

theorem nested_encode_length : ∀ n : ℕ, (nested n).encode.length = 3 * n + 2
  | 0 => rfl
  | n + 1 => by
    rw [nested, encode, encodeList, encodeList]
    simp only [length_append, nested_encode_length n, itemBytes, itemSeparator,
      length_singleton, length_nil]
    omega

/-- A list that nests 256 deep is not copied, though it fits, and a string of `2 ^ 31` bytes is
written as no node. -/
theorem truncateYsonValue_deep : (YsonNode.nested 255).Plain ∧
    ((YsonNode.nested 255).encode.length : ℤ) ≤ 1000 ∧
    truncateYsonValue (YsonNode.nested 255).scan 1000 =
      .error (.exception "Depth limit exceeded while parsing YSON") ∧ ∃ output,
      truncateYsonValue (YsonNode.string (replicate (2 ^ 31) 0)).scan (2 ^ 32) = .ok (some output) ∧
      ∀ result : YsonNode, ShortStrings result.items → result.encode ≠ output := by
  have hlong : (replicate (2 ^ 31) (0 : Fin 256)).length = 2 ^ 31 := length_replicate
  have hcopy : truncateYsonValue (YsonNode.string (replicate (2 ^ 31) 0)).scan (2 ^ 32) = .ok (some _) :=
    truncateYsonValue_copy trivial (show 0 < nestingLevelLimit by decide) (by
      rw [YsonNode.encode, itemBytes_length, getBinarySize, hlong]
      decide +kernel)
  refine ⟨YsonNode.nested_plain 255, by rw [nested_encode_length]; norm_num, ?_, _, hcopy,
    fun result hshort => encode_ne_of_long hlong hshort⟩
  have hloop : truncateLoop ((YsonNode.nested 255).items.length + 1)
      ⟨⟨(YsonNode.nested 255).items ++ [], none, 0⟩, 1000, (0 : ℕ), true, []⟩ =
        .error (.exception "Depth limit exceeded while parsing YSON") :=
    truncateLoop_nested 255 rfl (by have := YsonNode.nested_items_length 255; omega) (by norm_num)
  rw [append_nil] at hloop
  rw [truncateYsonValue, ytVerify_true (by norm_num), ok_bind, if_neg (by norm_num)]
  exact congrArg (· >>= _) hloop

end Ytsaurus.TableClient.Composite
