/-
# The quotient generator

`TQuotientGenerator` and `TQuotientValueGenerator` of
`query/engine/new_range_inferrer.cpp` enumerate values of an integer key column
between two values, for a list of divisors: the first value, and then the places
where the quotient by some divisor is thought to change. The places are kept as
offsets from the first value in a heap with one item for a divisor; an item
holds the next place of its divisor, and the places of a divisor are `divisor`
apart, with an addition that saturates.

Words are natural numbers below `2 ^ 64`, and a conversion between the signed
and the unsigned type is written out (`toInt64`, `toUint64`). The remainder of
the least signed integer by `-1` and a remainder by zero are undefined.

The generator yields the offset zero and then the places up to the limit in
order, once each (`drain_spec`).
-/
import Ytsaurus.Query.Constraints
import Ytsaurus.Query.Expression
import Ytsaurus.Lib.BinaryHeap

namespace Ytsaurus.Query

open List TableClient Lib

/-! ### Words -/

def maxUint64 : ℕ := 2 ^ 64 - 1

def minInt64 : ℤ := -2 ^ 63

def maxInt64 : ℤ := 2 ^ 63 - 1

def toUint64 (value : ℤ) : ℕ := (value % 2 ^ 64).toNat

def toInt64 (word : ℕ) : ℤ := if word < 2 ^ 63 then word else word - 2 ^ 64

def remUint64 (lhs rhs : ℕ) : Result ℕ :=
  if rhs = 0 then .error .undefined else .ok (lhs % rhs)

/-- The remainder of `i64`, which truncates. -/
def remInt64 (lhs rhs : ℤ) : Result ℤ :=
  if rhs = 0 ∨ (lhs = minInt64 ∧ rhs = -1) then .error .undefined else .ok (lhs.tmod rhs)

def saturationArithmeticSum (lhs rhs : ℕ) : ℕ :=
  if maxUint64 < lhs + rhs then maxUint64 else lhs + rhs

theorem saturationArithmeticSum_eq (lhs rhs : ℕ) :
    saturationArithmeticSum lhs rhs = min (lhs + rhs) maxUint64 := by
  unfold saturationArithmeticSum
  split_ifs <;> omega

/-! ### TQuotientGenerator -/

structure QueueItem where
  nextValue : ℕ
  divisor : ℕ
  deriving DecidableEq, Repr

structure QuotientGenerator where
  limit : ℕ
  nextOffset : ℕ := 0
  finished : Bool := true
  divisorQueue : List QueueItem
  deriving DecidableEq, Repr

namespace QuotientGenerator

/-- The constructor. -/
def new (limit : ℕ) (divisors : List ℕ) : QuotientGenerator :=
  { limit, divisorQueue := divisors.map fun divisor => ⟨0, divisor⟩ }

/-- The first place after `lower`, for `ResetUnsigned`. -/
def unsignedOffset (lower divisor : ℕ) : Result ℕ := do
  let rem ← remUint64 lower divisor
  let nextValue := toUint64 (divisor - rem)
  ytVerify (nextValue ≠ 0)
  return nextValue

/-- The first place after `lower`, for `ResetSigned`. -/
def signedOffset (lower : ℤ) (divisor : ℕ) : Result ℕ := do
  let rem ← remInt64 lower (toInt64 divisor)
  let nextValue := if 0 ≤ lower then toUint64 (divisor - rem) else toUint64 (-rem)
  return if nextValue = 0 then divisor else nextValue

/-- What `ResetUnsigned` and `ResetSigned` share: the items get their first places. -/
def resetWith (generator : QuotientGenerator) (offsetOf : ℕ → Result ℕ) :
    Result QuotientGenerator := do
  ytVerify (generator.finished = true)
  let queue ← generator.divisorQueue.mapM fun item => do
    let nextValue ← offsetOf item.divisor
    return { item with nextValue }
  return { generator with
    nextOffset := 0, finished := false, divisorQueue := makeHeap QueueItem.nextValue queue }

def resetUnsigned (generator : QuotientGenerator) (lower : ℕ) : Result QuotientGenerator :=
  generator.resetWith (unsignedOffset lower)

def resetSigned (generator : QuotientGenerator) (lower : ℤ) : Result QuotientGenerator :=
  generator.resetWith (signedOffset lower)

/-- The loop of `Next` over the items at the place `next`. -/
def advance (next : ℕ) : ℕ → List QueueItem → Result (List QueueItem)
  | 0, _ => .error .fuel
  | _ + 1, [] => .error .undefined
  | fuel + 1, top :: rest =>
    let queue := adjustHeapFront QueueItem.nextValue
      ({ top with nextValue := saturationArithmeticSum next top.divisor } :: rest)
    if (queue.head?.map QueueItem.nextValue) = some next then advance next fuel queue else .ok queue

def next (generator : QuotientGenerator) : Result (ℕ × QuotientGenerator) := do
  ytVerify (generator.finished = false)
  match generator.divisorQueue with
  | [] => .error .undefined
  | top :: _ =>
    let result := generator.nextOffset
    let nextOffset := top.nextValue
    if generator.limit ≤ result ∨ generator.limit < nextOffset then
      return (result, { generator with nextOffset, finished := true })
    else if nextOffset ≠ maxUint64 then
      let queue ← advance nextOffset generator.divisorQueue.length generator.divisorQueue
      return (result, { generator with nextOffset, divisorQueue := queue })
    else
      return (result, { generator with nextOffset })

end QuotientGenerator

/-! ### TQuotientValueGenerator -/

def Scalar.dataUint64 : Scalar → ℕ
  | .int64 value => toUint64 value
  | .uint64 value => value
  | _ => 0

def valueToUint64 (value : Scalar) (signedType : Bool) : ℕ :=
  if value = .null then if signedType then toUint64 minInt64 else 0 else value.dataUint64

structure QuotientValueGenerator extends QuotientGenerator where
  start : ℕ
  lowerIsNull : Bool
  upperIsNull : Bool
  signedType : Bool
  deriving DecidableEq, Repr

namespace QuotientValueGenerator

/-- The constructor from values. -/
def new (signedType : Bool) (lower upper : Scalar) (divisors : List ℕ) :
    Result QuotientValueGenerator := do
  let limit := toUint64 (valueToUint64 upper signedType - valueToUint64 lower signedType)
  let generator : QuotientValueGenerator :=
    { QuotientGenerator.new limit divisors with
      start := valueToUint64 lower signedType
      lowerIsNull := lower = .null
      upperIsNull := upper = .null
      signedType }
  ytVerify (upper ≠ .null ∨ lower = .null)
  return generator

variable (generator : QuotientValueGenerator)

def valueAt (offset : ℕ) : Scalar :=
  let current := (generator.start + offset) % 2 ^ 64
  if generator.signedType then .int64 (toInt64 current) else .uint64 current

def doNext : Result (Scalar × QuotientValueGenerator) := do
  let (offset, rest) ← generator.toQuotientGenerator.next
  return (generator.valueAt offset, { generator with toQuotientGenerator := rest })

/-- The part of `Reset` that evaluates the first places. -/
def resetPlaces : Result QuotientGenerator :=
  if generator.signedType then generator.resetSigned (toInt64 generator.start)
  else generator.resetUnsigned generator.start

def reset : Result (Scalar × QuotientValueGenerator) := do
  ytVerify (generator.finished = true)
  let rest ← if generator.upperIsNull then .ok generator.toQuotientGenerator
    else generator.resetPlaces
  let generator := { generator with toQuotientGenerator := rest }
  if generator.lowerIsNull then return (.null, generator) else generator.doNext

def next : Result (Scalar × QuotientValueGenerator) := do
  ytVerify (generator.finished = false)
  generator.doNext

/-- `Next` until `IsFinished`, at most `fuel` times. -/
def drain : ℕ → QuotientValueGenerator → Result (List Scalar)
  | 0, generator => if generator.finished then .ok [] else .error .fuel
  | fuel + 1, generator =>
    if generator.finished then .ok []
    else do
      let (value, generator) ← generator.next
      let values ← drain fuel generator
      return value :: values

/-- The values of a new generator: `Reset`, and `Next` until `IsFinished`. -/
def enumerate (fuel : ℕ) (signedType : Bool) (lower upper : Scalar) (divisors : List ℕ) :
    Result (List Scalar) := do
  let generator ← new signedType lower upper divisors
  let (value, generator) ← generator.reset
  let values ← drain fuel generator
  return value :: values

end QuotientValueGenerator

/-! ### Places -/

section Places

variable (first : ℕ → ℕ)

/-- A place of a divisor: the first one, and from there every `divisor`. -/
def Stop (divisor offset : ℕ) : Prop := ∃ k, offset = first divisor + k * divisor

/-- The item holds the next place of its divisor after `offset`, or the largest word. -/
def HoldsNext (offset : ℕ) (item : QueueItem) : Prop :=
  ∃ stop, IsLeast {s | Stop first item.divisor s ∧ offset < s} stop ∧
    item.nextValue = min stop maxUint64

/-- The heap of a generator that is at `offset`. -/
structure Queued (divisors : List ℕ) (offset : ℕ) (queue : List QueueItem) : Prop where
  heap : HeapFrom QueueItem.nextValue 0 queue
  divisors_perm : (queue.map QueueItem.divisor).Perm divisors
  items : ∀ item ∈ queue, HoldsNext first offset item

/-- The heap in the loop of `Next`: some items still are at `offset`. -/
structure Advancing (divisors : List ℕ) (offset : ℕ) (queue : List QueueItem) : Prop where
  heap : HeapFrom QueueItem.nextValue 0 queue
  divisors_perm : (queue.map QueueItem.divisor).Perm divisors
  items : ∀ item ∈ queue, HoldsNext first offset item ∨
    (item.nextValue = offset ∧ Stop first item.divisor offset)

/-- The offsets that a generator yields from `offset` on. -/
structure Offsets (divisors : List ℕ) (limit offset : ℕ) (offsets : List ℕ) : Prop where
  head : offsets.head? = some offset
  sorted : offsets.Pairwise (· < ·)
  bounds : ∀ o ∈ offsets, offset ≤ o ∧ o ≤ limit
  stops : ∀ d ∈ divisors, ∀ s, Stop first d s → offset < s → s ≤ limit → s ∈ offsets
  only : ∀ o ∈ offsets, o = offset ∨ (∃ d ∈ divisors, Stop first d o) ∨ o = maxUint64

variable {first} {divisors : List ℕ} {offset limit : ℕ} {item : QueueItem} {queue : List QueueItem}

theorem holdsNext_of_stop {div : ℕ} (hp : 0 < div) (hs : Stop first div offset) :
    HoldsNext first offset ⟨saturationArithmeticSum offset div, div⟩ := by
  obtain ⟨k, hk⟩ := hs
  refine ⟨offset + div, ⟨⟨⟨k + 1, by rw [hk]; ring⟩, by omega⟩, ?_⟩, saturationArithmeticSum_eq ..⟩
  rintro s ⟨⟨k', hs : s = first div + k' * div⟩, hlt⟩
  have hkk : k < k' := by
    by_contra hge
    have := Nat.mul_le_mul_right div (not_lt.mp hge)
    omega
  have := Nat.mul_le_mul_right div (Nat.succ_le_of_lt hkk)
  rw [Nat.succ_mul] at this
  omega

section

variable (h : HoldsNext first offset item)

include h

theorem HoldsNext.lt (ho : offset < maxUint64) : offset < item.nextValue := by
  obtain ⟨stop, hl, hv⟩ := h
  have := hl.1.2
  omega

theorem HoldsNext.le_stop {s : ℕ} (hs : Stop first item.divisor s) (hlt : offset < s) :
    item.nextValue ≤ s := by
  obtain ⟨stop, hleast, hv⟩ := h
  have : stop ≤ s := hleast.2 ⟨hs, hlt⟩
  omega

theorem HoldsNext.stop_or :
    Stop first item.divisor item.nextValue ∨ item.nextValue = maxUint64 := by
  obtain ⟨stop, hleast, hv⟩ := h
  rcases le_total stop maxUint64 with hle | hle
  · rw [hv, min_eq_left hle]
    exact .inl hleast.1.1
  · exact .inr (hv.trans (min_eq_right hle))

theorem HoldsNext.later {offset' : ℕ} (hle : offset ≤ offset')
    (hlt : offset' < item.nextValue) : HoldsNext first offset' item := by
  obtain ⟨stop, hleast, hv⟩ := h
  refine ⟨stop, ⟨⟨hleast.1.1, by omega⟩, fun s hs => hleast.2 ⟨hs.1, hle.trans_lt hs.2⟩⟩, hv⟩

theorem HoldsNext.last (ho : offset < maxUint64) (hp : 0 < item.divisor)
    (hm : item.nextValue = maxUint64) : HoldsNext first maxUint64 item := by
  obtain ⟨stop, hleast, hv⟩ := h
  have hge : maxUint64 ≤ stop := by omega
  obtain rfl | hlt := hge.eq_or_lt
  · obtain ⟨stop', hleast', -⟩ := holdsNext_of_stop hp hleast.1.1
    have ha := hleast'.1.2
    exact ⟨stop', hleast', by omega⟩
  · exact ⟨stop, ⟨⟨hleast.1.1, hlt⟩, fun s hs => hleast.2 ⟨hs.1, ho.trans hs.2⟩⟩, hv⟩

end

/-! ### Next -/

theorem Advancing.le (h : Advancing first divisors offset queue) (ho : offset < maxUint64) :
    ∀ item ∈ queue, offset ≤ item.nextValue := by
  intro item hi
  rcases h.items item hi with hn | ⟨hat, -⟩
  · exact (hn.lt ho).le
  · exact hat.ge

variable {top : QueueItem} {rest : List QueueItem}

theorem Advancing.step (h : Advancing first divisors offset (top :: rest))
    (hpos : ∀ d ∈ divisors, 0 < d) (hs : Stop first top.divisor offset) :
    Advancing first divisors offset (adjustHeapFront QueueItem.nextValue
      ({ top with nextValue := saturationArithmeticSum offset top.divisor } :: rest)) := by
  obtain ⟨hperm, hh⟩ := adjustHeapFront_spec
    { top with nextValue := saturationArithmeticSum offset top.divisor } h.heap
  have hd : 0 < top.divisor := hpos _ (h.divisors_perm.subset (by simp))
  refine ⟨hh, (hperm.map _).trans (by simpa using h.divisors_perm), fun item hi => ?_⟩
  rcases mem_cons.mp (hperm.subset hi) with rfl | hi
  · exact .inl (holdsNext_of_stop hd hs)
  · exact h.items item (mem_cons_of_mem _ hi)

theorem Advancing.queued (h : Advancing first divisors offset queue) (ho : offset < maxUint64)
    (hh : queue.head?.map QueueItem.nextValue ≠ some offset) : Queued first divisors offset queue := by
  refine ⟨h.heap, h.divisors_perm, fun item hi => (h.items item hi).resolve_right fun ⟨hat, _⟩ => ?_⟩
  cases queue with
  | nil => simp at hi
  | cons top rest =>
    have hle := h.heap.head_le_of_mem hi
    have hge := h.le ho top (by simp)
    apply hh
    simp only [head?_cons, Option.map_some]
    congr 1
    omega

theorem advance_spec (hpos : ∀ d ∈ divisors, 0 < d) (ho : offset < maxUint64) :
    ∀ (fuel : ℕ) {queue : List QueueItem},
    Advancing first divisors offset queue → (∃ item ∈ queue, item.nextValue = offset) →
    queue.countP (·.nextValue = offset) ≤ fuel →
    ∃ queue', QuotientGenerator.advance offset fuel queue = .ok queue' ∧
      Queued first divisors offset queue'
  | fuel, [], _, hat, _ => by simp at hat
  | 0, top :: rest, _, ⟨item, hi, hat⟩, hf => by
    have : 0 < (top :: rest).countP (·.nextValue = offset) :=
      countP_pos_iff.mpr ⟨item, hi, by simpa using hat⟩
    omega
  | fuel + 1, top :: rest, h, ⟨item, hi, hat⟩, hf => by
    -- the front is least, so it is at `offset`
    have ht : top.nextValue = offset := by
      have hle := h.heap.head_le_of_mem hi
      have hge := h.le ho top (by simp)
      omega
    have hstop : Stop first top.divisor offset := by
      rcases h.items top (by simp) with hn | ⟨-, hstop⟩
      · exact absurd (hn.lt ho) (by omega)
      · exact hstop
    have hstep := h.step hpos hstop
    have hperm := (adjustHeapFront_spec
      { top with nextValue := saturationArithmeticSum offset top.divisor } h.heap).1
    rw [QuotientGenerator.advance]
    split_ifs with hh
    · obtain ⟨item', hi', hat'⟩ := Option.map_eq_some_iff.mp hh
      refine advance_spec hpos ho fuel hstep ⟨item', mem_of_mem_head? hi', hat'⟩ ?_
      have hd : 0 < top.divisor := hpos _ (h.divisors_perm.subset (by simp))
      have hm : saturationArithmeticSum offset top.divisor ≠ offset := by
        rw [saturationArithmeticSum_eq]
        omega
      rw [hperm.countP_eq, countP_cons_of_neg (by simpa using hm)]
      rw [countP_cons_of_pos (by simpa using ht)] at hf
      omega
    · exact ⟨_, rfl, hstep.queued ho hh⟩

theorem Queued.exists_item (h : Queued first divisors offset queue) {d : ℕ} (hd : d ∈ divisors) :
    ∃ item ∈ queue, item.divisor = d := mem_map.mp (h.divisors_perm.symm.subset hd)

theorem Queued.divisor_mem (h : Queued first divisors offset queue) (hi : item ∈ queue) :
    item.divisor ∈ divisors :=
  h.divisors_perm.subset (mem_map_of_mem hi)

theorem Queued.head_le_stop (h : Queued first divisors offset (top :: rest))
    {d s : ℕ} (hd : d ∈ divisors) (hs : Stop first d s) (hlt : offset < s) : top.nextValue ≤ s := by
  obtain ⟨item, hi, rfl⟩ := h.exists_item hd
  exact (h.heap.head_le_of_mem hi).trans ((h.items item hi).le_stop hs hlt)

theorem Queued.advancing (h : Queued first divisors offset (top :: rest))
    (ho : offset < maxUint64) (hm : top.nextValue ≠ maxUint64) :
    Advancing first divisors top.nextValue (top :: rest) := by
  refine ⟨h.heap, h.divisors_perm, fun item hi => ?_⟩
  have hn := h.items item hi
  have ht := (h.items top (by simp)).lt ho
  obtain hat | hlt := (h.heap.head_le_of_mem hi).eq_or_lt
  · refine .inr ⟨hat.symm, ?_⟩
    rw [hat] at hm ⊢
    exact hn.stop_or.resolve_right hm
  · exact .inl (hn.later ht.le hlt)

/-- What `Next` does from `offset`: it finishes and no place up to the limit is
left, or it goes on to the next place. -/
theorem next_spec {gen : QuotientGenerator} (hpos : ∀ d ∈ divisors, 0 < d) (hne : divisors ≠ [])
    (hlimit : gen.limit ≤ maxUint64) (hactive : gen.finished = false)
    (hq : Queued first divisors gen.nextOffset gen.divisorQueue) :
    ∃ gen', gen.next = .ok (gen.nextOffset, gen') ∧ gen'.limit = gen.limit ∧
      ((gen'.finished = true ∧
          ∀ d ∈ divisors, ∀ s, Stop first d s → gen.nextOffset < s → gen.limit < s) ∨
        (gen'.finished = false ∧ gen.nextOffset < gen'.nextOffset ∧
          gen'.nextOffset ≤ gen.limit ∧
          (∀ d ∈ divisors, ∀ s, Stop first d s → gen.nextOffset < s → gen'.nextOffset ≤ s) ∧
          ((∃ d ∈ divisors, Stop first d gen'.nextOffset) ∨ gen'.nextOffset = maxUint64) ∧
          Queued first divisors gen'.nextOffset gen'.divisorQueue)) := by
  obtain ⟨limit, offset, finished, queue⟩ := gen
  dsimp only at hlimit hactive hq ⊢
  subst hactive
  cases queue with
  | nil => exact absurd (hq.divisors_perm.symm.eq_nil) hne
  | cons top rest =>
    simp only [QuotientGenerator.next, ytVerify_true, ok_bind]
    by_cases hstop : limit ≤ offset ∨ limit < top.nextValue
    · refine ⟨_, if_pos hstop, rfl, .inl ⟨rfl, fun d hd s hs hlt => ?_⟩⟩
      have := hq.head_le_stop hd hs hlt
      omega
    rw [if_neg hstop]
    have ho : offset < maxUint64 := by omega
    have hle : top.nextValue ≤ limit := by omega
    have ht := hq.items top (by simp)
    have hstops : ∀ d ∈ divisors, ∀ s, Stop first d s → offset < s → top.nextValue ≤ s :=
      fun d hd s hs hlt => hq.head_le_stop hd hs hlt
    have hplace : (∃ d ∈ divisors, Stop first d top.nextValue) ∨ top.nextValue = maxUint64 :=
      ht.stop_or.imp_left fun hs => ⟨_, hq.divisor_mem (by simp), hs⟩
    by_cases hm : top.nextValue = maxUint64
    · -- no item has a place below the largest word
      refine ⟨_, if_neg (not_not.mpr hm), rfl, .inr ⟨rfl, ht.lt ho, hle, hstops, hplace, ?_⟩⟩
      refine ⟨hq.heap, hq.divisors_perm, fun item hi => ?_⟩
      have hle := hq.heap.head_le_of_mem hi
      obtain ⟨stop, hleast, hv⟩ := hq.items item hi
      rw [hm]
      exact (hq.items item hi).last ho (hpos _ (hq.divisor_mem hi)) (by omega)
    · obtain ⟨queue', hr, hq'⟩ :=
        advance_spec hpos (show top.nextValue < maxUint64 by omega) _ (hq.advancing ho hm)
        ⟨top, by simp, rfl⟩ countP_le_length
      refine ⟨_, by rw [if_pos hm, hr]; rfl, rfl, .inr ⟨rfl, ht.lt ho, hle, hstops, hplace, hq'⟩⟩

theorem offsets_singleton (hle : offset ≤ limit)
    (hstops : ∀ d ∈ divisors, ∀ s, Stop first d s → offset < s → limit < s)
    : Offsets first divisors limit offset [offset] := by
  refine ⟨rfl, pairwise_singleton _ _, by simpa using hle, fun d hd s hs hlt hs' => ?_, by simp⟩
  have := hstops d hd s hs hlt
  omega

theorem Offsets.cons {offset' : ℕ} {offsets : List ℕ}
    (h : Offsets first divisors limit offset' offsets)
    (hlt : offset < offset') (hle : offset' ≤ limit)
    (hstops : ∀ d ∈ divisors, ∀ s, Stop first d s → offset < s → offset' ≤ s)
    (hp : (∃ d ∈ divisors, Stop first d offset') ∨ offset' = maxUint64) :
    Offsets first divisors limit offset (offset :: offsets) := by
  refine ⟨rfl, pairwise_cons.mpr ⟨fun o ho => hlt.trans_le (h.bounds o ho).1, h.sorted⟩, ?_, ?_, ?_⟩
  · intro o ho
    rcases mem_cons.mp ho with rfl | ho
    · omega
    · have := h.bounds o ho
      omega
  · intro d hd s hs hs1 hs2
    refine mem_cons_of_mem _ ?_
    obtain rfl | ha := (hstops d hd s hs hs1).eq_or_lt
    · exact mem_of_mem_head? h.head
    · exact h.stops d hd s hs ha hs2
  · intro o ho
    rcases mem_cons.mp ho with rfl | ho
    · exact .inl rfl
    · rcases h.only o ho with rfl | hother
      · exact .inr hp
      · exact .inr hother

/-- `Next` until `IsFinished`: the places up to the limit in order, if the fuel is enough for them.
-/
theorem drain_spec (hpos : ∀ d ∈ divisors, 0 < d) (hne : divisors ≠ []) :
    ∀ (n : ℕ) (gen : QuotientValueGenerator), gen.limit ≤ maxUint64 → gen.finished = false →
      gen.nextOffset ≤ gen.limit → gen.limit < n + gen.nextOffset →
      Queued first divisors gen.nextOffset gen.divisorQueue →
      ∃ offsets, Offsets first divisors gen.limit gen.nextOffset offsets ∧
        ∀ fuel, QuotientValueGenerator.drain fuel gen =
        if offsets.length ≤ fuel then .ok (offsets.map gen.valueAt) else .error .fuel
  | 0, gen, _, _, hle, hf, _ => by omega
  | n + 1, gen, hlimit, ha, hle, hf, hq => by
    obtain ⟨rest, hnext, hsame, hc⟩ := next_spec hpos hne hlimit ha hq
    have hdrain : ∀ fuel, QuotientValueGenerator.drain (fuel + 1) gen = (do
        let values ← QuotientValueGenerator.drain fuel { gen with toQuotientGenerator := rest }
        return gen.valueAt gen.nextOffset :: values) := fun fuel => by
      rw [QuotientValueGenerator.drain, ha, if_neg Bool.false_ne_true, QuotientValueGenerator.next,
        ytVerify_true ha, ok_bind, QuotientValueGenerator.doNext, hnext]
      rfl
    rcases hc with ⟨hdone, hstops⟩ | ⟨hg, hlt, hle', hstops, hplace, hq'⟩
    · refine ⟨[gen.nextOffset], offsets_singleton hle hstops, fun fuel => ?_⟩
      cases fuel with
      | zero => simp [QuotientValueGenerator.drain, ha]
      | succ fuel =>
        rw [hdrain]
        cases fuel <;> simp [QuotientValueGenerator.drain, hdone]
    · obtain ⟨offsets, ho, hrec⟩ := drain_spec hpos hne n { gen with toQuotientGenerator := rest }
        (hsame.le.trans hlimit) hg (hle'.trans hsame.ge)
          (show rest.limit < n + rest.nextOffset by omega) hq'
      rw [hsame] at ho
      refine ⟨gen.nextOffset :: offsets, ho.cons hlt hle' hstops hplace, fun fuel => ?_⟩
      cases fuel with
      | zero => simp [QuotientValueGenerator.drain, ha]
      | succ fuel =>
        rw [hdrain, hrec, length_cons]
        simp only [Nat.add_le_add_iff_right]
        split_ifs <;> rfl

theorem resetWith_spec {gen : QuotientGenerator} {offsetOf : ℕ → Result ℕ}
    (hfin : gen.finished = true) (hd : gen.divisorQueue.map QueueItem.divisor = divisors)
    (hfirst : ∀ d ∈ divisors, offsetOf d = .ok (first d) ∧ 0 < first d ∧ first d ≤ maxUint64) :
    ∃ queue, gen.resetWith offsetOf =
        .ok { gen with nextOffset := 0, finished := false, divisorQueue := queue } ∧
      Queued first divisors 0 queue := by
  let firstItem : QueueItem → QueueItem := fun item => { item with nextValue := first item.divisor }
  have hm : ∀ item ∈ gen.divisorQueue, item.divisor ∈ divisors :=
    fun item hi => hd ▸ mem_map_of_mem hi
  have hr := mapM_eq_map (g := firstItem) (f := fun item => do
      let nextValue ← offsetOf item.divisor
      return { item with nextValue }) fun item hi => by rw [(hfirst _ (hm item hi)).1]; rfl
  obtain ⟨hperm, hh⟩ := makeHeap_spec QueueItem.nextValue (gen.divisorQueue.map firstItem)
  refine ⟨_, by rw [QuotientGenerator.resetWith, ytVerify_true hfin, ok_bind, hr]; rfl, hh, ?_, ?_⟩
  · rw [← hd]
    simpa [firstItem, Function.comp_def] using hperm.map QueueItem.divisor
  · intro item hi
    obtain ⟨item', hi', rfl⟩ := mem_map.mp (hperm.subset hi)
    obtain ⟨-, hpos, hle⟩ := hfirst _ (hm item' hi')
    refine ⟨first item'.divisor, ⟨⟨⟨0, by simp [firstItem]⟩, hpos⟩, ?_⟩, (min_eq_left hle).symm⟩
    rintro s ⟨⟨k, rfl⟩, -⟩
    exact Nat.le_add_right _ _

end Places

end Ytsaurus.Query
