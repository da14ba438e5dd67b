/-
# Attachment streams deliver in order and once

The invariant of a run (`Inv`) follows the data through the queue, the payloads and the window: what
was pulled and what is queued make up what was written, and what was read and what is queued at the
reader make up the payloads that left the window. Positions are sizes of these lists, so
acknowledged positions tell what was read.

Promises of `Write` wait in the confirmation queue behind increasing positions, so they are set in
order. A `Write` after `Close` is refused at once, before promises that still wait.
-/
import Ytsaurus.Lib.Search
import Ytsaurus.Rpc.SlidingWindow

namespace Ytsaurus.Rpc

open List OutputStream

/-! ### Sizes -/

def totalSize (attachments : List Attachment) : ℤ :=
  (attachments.map getStreamingAttachmentSize).sum

theorem size_pos (att : Attachment) : 0 < getStreamingAttachmentSize att := by
  cases att with
  | none => decide
  | some data =>
    show 0 < if data.length = 0 then (1 : ℤ) else data.length
    split_ifs
    · decide
    · omega

@[simp] theorem totalSize_nil : totalSize [] = 0 := rfl

@[simp] theorem totalSize_cons (att : Attachment) (l : List Attachment) :
    totalSize (att :: l) = getStreamingAttachmentSize att + totalSize l := by
  simp [totalSize]

@[simp] theorem totalSize_append (l l' : List Attachment) :
    totalSize (l ++ l') = totalSize l + totalSize l' := by
  simp [totalSize]

theorem totalSize_nonneg : ∀ l : List Attachment, 0 ≤ totalSize l
  | [] => le_rfl
  | att :: l => by
    have := size_pos att
    have := totalSize_nonneg l
    rw [totalSize_cons]
    omega

theorem totalSize_eq_zero {l : List Attachment} (h : totalSize l ≤ 0) : l = [] := by
  cases l with
  | nil => rfl
  | cons att l =>
    have := size_pos att
    have := totalSize_nonneg l
    rw [totalSize_cons] at h
    omega

/-! ### The sliding window -/

/-- The numbers of the entries are their places in `payloads`. -/
def Numbered (payloads : List Payload) (window : SlidingWindow Payload) : Prop :=
  ∀ entry ∈ window.window, ∃ i : ℕ, entry.1 = i ∧ payloads[i]? = some entry.2

/-- The packets that leave the window are the next ones. -/
theorem slide_spec {payloads : List Payload} :
    ∀ (rounds : ℕ) (window : SlidingWindow Payload) (n : ℕ),
    Numbered payloads window → window.nextPacketSequenceNumber = n → n ≤ payloads.length →
    ∃ m : ℕ, (window.slide rounds).1.nextPacketSequenceNumber = m ∧ m ≤ payloads.length ∧
      Numbered payloads (window.slide rounds).1 ∧
        payloads.take m = payloads.take n ++ (window.slide rounds).2
  | 0, window, n, h, hnext, hn => ⟨n, hnext, hn, h, (append_nil _).symm⟩
  | rounds + 1, window, n, h, hnext, hn => by
    unfold SlidingWindow.slide
    cases hf : window.find window.nextPacketSequenceNumber with
    | none => exact ⟨n, hnext, hn, h, (append_nil _).symm⟩
    | some packet =>
      obtain ⟨i, hi, hpacket⟩ := h _ (find_some hf)
      obtain rfl : n = i := by
        have : (n : ℤ) = i := hnext.symm.trans hi
        exact_mod_cast this
      have hlt : n < payloads.length := Lib.lt_of_getElem? hpacket
      have hpop : Numbered payloads window.pop := fun entry he => h entry (mem_filter.mp he).1
      obtain ⟨m, hm, hle, hnum, ht⟩ := slide_spec rounds window.pop (n + 1) hpop
        (by simp [SlidingWindow.pop, hnext]) hlt
      refine ⟨m, hm, hle, hnum, ?_⟩
      rw [ht, take_add_one, hpacket]
      simp

variable {payload : Payload}

theorem addPacket_spec {payloads : List Payload} {window window' : SlidingWindow Payload}
    {ready : List Payload} {n i maxSize : ℕ} (h : Numbered payloads window)
    (hnext : window.nextPacketSequenceNumber = n) (hn : n ≤ payloads.length)
    (hi : payloads[i]? = some payload) (hnum : payload.sequenceNumber = (i : ℤ).bmod (2 ^ 32))
    (hc : (payloads.length : ℤ) - n < maxWindowSize)
    (hok : window.addPacket maxSize payload.sequenceNumber payload = .ok (window', ready)) :
    ∃ m : ℕ, window'.nextPacketSequenceNumber = m ∧ m ≤ payloads.length ∧
      Numbered payloads window' ∧ payloads.take m = payloads.take n ++ ready := by
  unfold SlidingWindow.addPacket at hok
  split_ifs at hok with hsmall hq hf
  have hi' := Lib.lt_of_getElem? hi
  -- the number has not wrapped, as few payloads are outstanding
  have hp : payload.sequenceNumber = i := by
    rw [hnum] at hsmall ⊢
    unfold maxWindowSize at hc
    rw [Int.bmod_def] at hsmall ⊢
    split_ifs at hsmall ⊢ <;> omega
  have hslide := Except.ok.inj hok
  have ha : Numbered payloads
      { window with window := (payload.sequenceNumber, payload) :: window.window } :=
    forall_mem_cons.mpr ⟨⟨i, hp, hi⟩, h⟩
  have hspec := slide_spec (window.window.length + 1) _ n ha hnext hn
  rwa [hslide] at hspec

/-! ### The invariant -/

def attachmentsOf (payloads : List Payload) : List Attachment :=
  payloads.flatMap Payload.attachments

@[simp] theorem attachmentsOf_append (l l' : List Payload) :
    attachmentsOf (l ++ l') = attachmentsOf l ++ attachmentsOf l' := by
  simp [attachmentsOf]

/-- The data on its way: queue, payloads, window, queue of the reader. -/
structure DataOk (s : System) : Prop where
  queued : attachmentsOf s.pulled ++ s.output.dataQueue = s.stream
  written : s.output.writePosition = totalSize s.stream
  sent : s.output.sentPosition = totalSize (attachmentsOf s.pulled)
  number : s.output.payloadSequenceNumber = (s.pulled.length : ℤ).bmod (2 ^ 32)
  numbers : ∀ (i : ℕ) (payload : Payload), s.pulled[i]? = some payload →
    payload.sequenceNumber = (i : ℤ).bmod (2 ^ 32)
  flying : ∀ payload ∈ s.inFlight, ∃ i : ℕ, s.pulled[i]? = some payload
  few : s.outstanding < maxWindowSize
  window : Numbered s.pulled s.input.window
  released : ∃ n : ℕ, s.input.window.nextPacketSequenceNumber = n ∧ n ≤ s.pulled.length ∧
    s.returned ++ s.input.queue.map QueueEntry.attachment = attachmentsOf (s.pulled.take n)
  sizes : ∀ entry ∈ s.input.queue, entry.compressedSize = getStreamingAttachmentSize entry.attachment
  read : s.input.readPosition = totalSize s.returned
  closed : s.input.closed = true ↔ none ∈ s.returned

/-- Acknowledged positions, and the flow control. -/
structure FlowOk (windowSize : ℤ) (s : System) : Prop where
  window : s.output.windowSize = windowSize
  feedbacks : ∀ position ∈ s.feedbacks, position ≤ totalSize s.returned
  acknowledged : s.output.readPosition ≤ totalSize s.returned
  flow : ∃ attachment ∈ s.written.map some ++ [none],
    s.output.sentPosition - s.output.readPosition ≤
      max windowSize (getStreamingAttachmentSize attachment)

def setWrite : FutureSet → Option ℕ
  | .write promise => some promise
  | _ => none

def refusedWrite : FutureSet → Option ℕ
  | .writeError promise _ => some promise
  | _ => none

theorem refused_append_write (futures : List FutureSet) (i : ℕ) :
    (futures ++ [FutureSet.write i]).filterMap refusedWrite = futures.filterMap refusedWrite := by
  rw [filterMap_append]
  exact append_nil _

/-- The promises: `k` of the accepted calls of `Write` are set, the others wait in order. -/
structure FuturesOk (s : System) (k : ℕ) : Prop where
  count : s.output.closePromise = false → s.writeCount = s.written.length
  count_le : s.written.length ≤ s.writeCount
  set : s.futures.filterMap setWrite = range k
  waiting : s.output.confirmationQueue.filterMap ConfirmationEntry.promise =
    range' k (s.written.length - k)
  le : k ≤ s.written.length
  increasing : s.output.confirmationQueue.Pairwise fun entry entry' =>
    entry.position < entry'.position
  bounded : ∀ entry ∈ s.output.confirmationQueue, entry.position ≤ s.output.writePosition
  blocked : ∀ entry ∈ s.output.confirmationQueue, ∀ i, entry.promise = some i →
    s.output.readPosition + s.output.windowSize < entry.position ∧
      entry.position = totalSize (s.stream.take (i + 1))
  refused : s.futures.filterMap refusedWrite = range' s.written.length
    (s.writeCount - s.written.length)
  closing : FutureSet.close ∈ s.futures → s.output.closePromise = true ∧
    s.output.readPosition = s.output.writePosition

structure Inv (windowSize : ℤ) (s : System) : Prop where
  data : DataOk s
  flow : FlowOk windowSize s
  futures : ∃ k, FuturesOk s k

variable {s : System}

theorem DataOk.returned_prefix (h : DataOk s) : s.returned <+: s.stream := by
  obtain ⟨n, -, -, hr⟩ := h.released
  refine ⟨s.input.queue.map QueueEntry.attachment ++ attachmentsOf (s.pulled.drop n) ++
    s.output.dataQueue, ?_⟩
  rw [← append_assoc, ← append_assoc, hr, ← attachmentsOf_append, take_append_drop, h.queued]

theorem DataOk.returned_eq (h : DataOk s) (hle : s.output.writePosition ≤ totalSize s.returned) :
    s.returned = s.stream := by
  obtain ⟨rest, hr⟩ := h.returned_prefix
  have hs := congrArg totalSize hr
  rw [totalSize_append, ← h.written] at hs
  have hn : rest = [] := totalSize_eq_zero (by omega)
  rw [← hr, hn, append_nil]

theorem DataOk.returned_of_none (h : DataOk s) (hn : none ∈ s.returned) :
    s.output.closePromise = true ∧ s.returned = s.stream := by
  obtain ⟨rest, hr⟩ := h.returned_prefix
  have hm : none ∈ s.stream := hr ▸ mem_append_left _ hn
  unfold System.stream at hm hr
  cases hc : s.output.closePromise with
  | false => simp [hc] at hm
  | true =>
    refine ⟨rfl, ?_⟩
    unfold System.stream
    rw [hc, if_pos rfl] at hr ⊢
    -- only the last attachment is null
    rcases eq_nil_or_concat' rest with rfl | ⟨front, last, rfl⟩
    · rwa [append_nil] at hr
    · rw [← append_assoc] at hr
      have hf := (append_inj' hr rfl).1
      have : (none : Attachment) ∈ s.written.map some := hf ▸ mem_append_left _ hn
      simp at this

theorem inv_init (size : ℤ) : Inv size (System.init size) := by
  have hd : DataOk (System.init size) := by
    refine ⟨rfl, rfl, rfl, by simp [System.init], ?_, ?_, ?_, ?_, ⟨0, rfl, le_rfl, rfl⟩, ?_, rfl,
      by simp [System.init]⟩
    · simp [System.init]
    · simp [System.init]
    · simp [System.outstanding, System.init, maxWindowSize]
    · simp [Numbered, System.init]
    · simp [System.init]
  have hf : FlowOk size (System.init size) := by
    refine ⟨rfl, by simp [System.init], le_rfl, none, by simp, le_max_of_le_right ?_⟩
    simp [System.init, getStreamingAttachmentSize]
  refine ⟨hd, hf, 0, fun _ => rfl, le_rfl, rfl, rfl, le_rfl, .nil, ?_, ?_, rfl, ?_⟩ <;>
    simp [System.init]

/-! ### `Write` and `Close` -/

/-- An attachment is put into the data queue; `promise` waits for its position. -/
def OutputStream.push (attachment : Attachment) (promise : Option ℕ) (stream : OutputStream) :
    OutputStream :=
  let writePosition := stream.writePosition + getStreamingAttachmentSize attachment
  { stream with
    writePosition
    dataQueue := stream.dataQueue ++ [attachment]
    confirmationQueue := stream.confirmationQueue ++ [⟨writePosition, promise⟩] }

def System.push (attachment : Attachment) (promise : Option ℕ) (closePromise : Bool)
    (written : List (List UInt8))
    (writeCount : ℕ) (futures : List FutureSet) (s : System) : System :=
  { s with
    output := { s.output.push attachment promise with closePromise }, written, writeCount, futures }

section Push

variable {att : Attachment} {promise : Option ℕ} {closePromise : Bool} {written : List (List UInt8)}
  {writeCount k m : ℕ} {futures : List FutureSet} {windowSize size : ℤ}

theorem DataOk.push (h : DataOk s)
    (hs : (s.push att promise closePromise written writeCount futures).stream = s.stream ++ [att]) :
    DataOk (s.push att promise closePromise written writeCount futures) := by
  refine { h with queued := ?_, written := ?_ }
  · rw [hs, ← h.queued, append_assoc]
    rfl
  · rw [hs, totalSize_append, ← h.written, totalSize_cons, totalSize_nil, add_zero]
    rfl

theorem FlowOk.push (h : FlowOk size s) (hw : s.written ⊆ written) :
    FlowOk size (s.push att promise closePromise written writeCount futures) := by
  obtain ⟨last, hm, hf⟩ := h.flow
  refine ⟨h.window, h.feedbacks, h.acknowledged, last, ?_, hf⟩
  rw [mem_append] at hm ⊢
  exact hm.imp_left fun hl => map_subset some hw hl

/-- Before `Close`: what is put into the queue waits, or no promise waits. -/
theorem FuturesOk.push (h : FuturesOk s k) (hd : DataOk s) (ho : s.output.closePromise = false)
    (hstream : (s.push att promise closePromise written writeCount futures).stream =
      s.stream ++ [att]) (hprom : ∀ i, promise = some i → i = s.stream.length ∧
      s.output.readPosition + s.output.windowSize <
      s.output.writePosition + getStreamingAttachmentSize att)
    (hcount : writeCount = written.length) (hset : futures.filterMap setWrite = range m)
    (hm : m ≤ written.length)
    (hw : range' k (s.written.length - k) ++ promise.toList = range' m (written.length - m))
    (hr : futures.filterMap refusedWrite = s.futures.filterMap refusedWrite)
    (hclose : FutureSet.close ∈ futures → FutureSet.close ∈ s.futures) :
    FuturesOk (s.push att promise closePromise written writeCount futures) m := by
  have hpos := size_pos att
  refine ⟨fun _ => hcount, hcount.ge, hset, ?_, hm, ?_, ?_, ?_, ?_, fun hmem => ?_⟩
  · refine ((filterMap_append ..).trans ?_).trans hw
    rw [h.waiting]
    cases promise <;> rfl
  · refine pairwise_append.mpr ⟨h.increasing, pairwise_singleton _ _, fun entry he entry' he' => ?_⟩
    have := h.bounded entry he
    rw [mem_singleton.mp he']
    show entry.position < s.output.writePosition + getStreamingAttachmentSize att
    omega
  · refine forall_mem_append.mpr ⟨fun entry he => ?_, forall_mem_singleton.mpr le_rfl⟩
    exact (h.bounded entry he).trans (le_add_of_nonneg_right hpos.le)
  · intro entry he i hi
    rw [hstream]
    rcases mem_append.mp he with he | he
    · obtain ⟨hb, hposition⟩ := h.blocked entry he i hi
      refine ⟨hb, ?_⟩
      -- a waiting promise stands for data that is in the stream already
      have hlt : i < s.stream.length := by
        have hmem : i ∈ s.output.confirmationQueue.filterMap ConfirmationEntry.promise :=
          mem_filterMap.mpr ⟨entry, he, hi⟩
        rw [h.waiting, mem_range'_1] at hmem
        have hlen : s.written.length ≤ s.stream.length := by simp [System.stream]
        omega
      rw [hposition, take_append_of_le_length (by omega)]
    · rw [mem_singleton.mp he] at hi ⊢
      obtain ⟨rfl, hb⟩ := hprom i hi
      refine ⟨hb, ?_⟩
      show s.output.writePosition + getStreamingAttachmentSize att = _
      rw [take_of_length_le (by simp), totalSize_append, totalSize_cons, totalSize_nil,
        ← hd.written, add_zero]
  · -- nothing was refused yet
    show futures.filterMap refusedWrite = range' written.length (writeCount - written.length)
    rw [hr, h.refused, h.count ho, hcount, Nat.sub_self, Nat.sub_self, range'_zero, range'_zero]
  · have := (h.closing (hclose hmem)).1
    rw [ho] at this
    cases this

end Push

variable {windowSize size : ℤ}

/-- A `Write` after `Close` only sets its own promise. -/
theorem inv_write_closed (h : Inv size s) (data : List UInt8)
    (hc : s.output.closePromise = true) : Inv size (s.write data) := by
  have hw : s.write data = { s with
      futures := s.futures ++ [.writeError s.writeCount "Stream is already closed"]
      writeCount := s.writeCount + 1 } := by
    simp [System.write, write, hc]
  obtain ⟨hd, hf, k, hk⟩ := h
  rw [hw]
  refine ⟨{ hd with }, { hf with }, k, ?_⟩
  refine ⟨fun ho => ?_, hk.count_le.trans (Nat.le_succ _), ?_, hk.waiting, hk.le, hk.increasing,
    hk.bounded, hk.blocked, ?_, ?_⟩
  · exact absurd (hc.symm.trans ho) (by decide)
  · rw [filterMap_append, hk.set]
    exact append_nil _
  · rw [filterMap_append, hk.refused, Nat.succ_sub hk.count_le, range'_1_concat,
      Nat.add_sub_cancel' hk.count_le]
    rfl
  · intro hm
    exact hk.closing (by simpa using hm)

theorem inv_write_open (h : Inv size s) (data : List UInt8)
    (ho : s.output.closePromise = false) : Inv size (s.write data) := by
  obtain ⟨hd, hf, k, hk⟩ := h
  have hc := hk.count ho
  have hle := hk.le
  have hlen : s.stream.length = s.written.length := by simp [System.stream, ho]
  have hlength : s.writeCount + 1 = (s.written ++ [data]).length := by
    rw [hc, length_append, length_singleton]
  have hs : (s.write data).stream = s.stream ++ [some data] := by
    unfold System.write write
    split_ifs <;> simp_all [System.stream]
  by_cases hr : s.output.writePosition + getStreamingAttachmentSize
    (some data) - s.output.readPosition ≤ s.output.windowSize
  · -- the promise is set at once, so none may wait
    have hw : s.write data = s.push (some data) none false (s.written ++ [data]) (s.writeCount + 1)
        (s.futures ++ [.write s.writeCount]) := by
      simp [System.write, write, System.push, push, ho, hr]
    obtain rfl : k = s.written.length := by
      by_contra hne
      have hm : k ∈ s.output.confirmationQueue.filterMap ConfirmationEntry.promise := by
        rw [hk.waiting, mem_range'_1]
        omega
      obtain ⟨entry, he, hp⟩ := mem_filterMap.mp hm
      have := (hk.blocked entry he k hp).1
      have := hk.bounded entry he
      have := size_pos (some data)
      omega
    rw [hw] at hs ⊢
    refine ⟨hd.push hs, hf.push (by simp), s.written.length + 1,
      hk.push hd ho hs (by simp) hlength ?_ (by simp) (by simp) (refused_append_write ..) (by simp)⟩
    rw [filterMap_append, hk.set, range_succ, ← hc]
    rfl
  · have hw : s.write data = s.push (some data) (some s.writeCount) false (s.written ++ [data])
        (s.writeCount + 1) s.futures := by
      simp [System.write, write, System.push, push, ho, hr]
    rw [hw] at hs ⊢
    refine ⟨hd.push hs, hf.push (by simp), k, hk.push hd ho hs (fun i hi => ?_) hlength hk.set
      (by omega) ?_ rfl id⟩
    · obtain rfl := Option.some.inj hi
      exact ⟨hc.trans hlen.symm, by omega⟩
    · rw [← hlength, hc, show s.written.length + 1 - k = s.written.length - k + 1 by omega,
        range'_concat]
      simp
      omega

theorem inv_close (h : Inv size s) : Inv size s.close := by
  cases ho : s.output.closePromise with
  | true =>
    have : s.close = s := by simp [System.close, close, ho]
    rwa [this]
  | false =>
    obtain ⟨hd, hf, k, hk⟩ := h
    have hc : s.close = s.push none none true s.written s.writeCount s.futures := by
      simp [System.close, close, System.push, push, ho]
    have hs : s.close.stream = s.stream ++ [none] := by
      simp [hc, System.stream, System.push, ho]
    rw [hc] at hs ⊢
    exact ⟨hd.push hs, hf.push (Subset.refl _), k,
      hk.push hd ho hs (by simp) (hk.count ho) hk.set hk.le (append_nil _) rfl id⟩

/-! ### `TryPull` -/

theorem pullLoop_queue (size readPosition : ℤ) :
    ∀ (queue : List Attachment) (first : Bool) (sent : ℤ),
    (pullLoop size readPosition first sent queue).1 ++
        (pullLoop size readPosition first sent queue).2.1 = queue ∧
      (pullLoop size readPosition first sent queue).2.2 =
        sent + totalSize (pullLoop size readPosition first sent queue).1
  | [], _, _ => by simp [pullLoop]
  | att :: queue, first, sent => by
    unfold pullLoop
    split_ifs
    · obtain ⟨hq, hs⟩ := pullLoop_queue size readPosition queue false
        (sent + getStreamingAttachmentSize att)
      refine ⟨congrArg (att :: ·) hq, ?_⟩
      rw [hs, totalSize_cons]
      omega
    · simp

theorem getElem?_append_some {α : Type} {l l' : List α} {a : α} {i : ℕ} (h : l[i]? = some a) :
    (l ++ l')[i]? = some a :=
  (getElem?_append_left (Lib.lt_of_getElem? h)).trans h

/-- A payload fits into the window, unless it is one attachment and nothing is on its way. -/
theorem pullLoop_flow (size readPosition : ℤ) :
    ∀ (queue : List Attachment) (first : Bool) (sent : ℤ),
    (pullLoop size readPosition first sent queue).1 = [] ∨
      (pullLoop size readPosition first sent queue).2.2 - readPosition ≤ size ∨ first = true ∧
        sent = readPosition ∧ ∃ att, (pullLoop size readPosition first sent queue).1 = [att]
  | [], _, _ => .inl rfl
  | att :: queue, first, sent => by
    unfold pullLoop
    split_ifs with hp
    · obtain ⟨-, hs⟩ := pullLoop_queue size readPosition queue false
        (sent + getStreamingAttachmentSize att)
      refine .inr ?_
      rcases pullLoop_flow size readPosition queue false (sent + getStreamingAttachmentSize att) with
        hn | hfits | ⟨hfirst, -⟩
      · rw [hn, totalSize_nil, add_zero] at hs
        simp only [canPullMore, Bool.or_eq_true, Bool.and_eq_true, decide_eq_true_eq] at hp
        rcases hp with hfits | ⟨hfirst, heq⟩
        · exact .inl (by rw [hs]; omega)
        · exact .inr ⟨hfirst, heq, att, congrArg (att :: ·) hn⟩
      · exact .inl hfits
      · cases hfirst
    · exact .inl rfl

theorem tryPull_of_acknowledged {stream : OutputStream} (hq : stream.dataQueue ≠ [])
    (hs : stream.sentPosition = stream.readPosition) : ∃ payload, stream.tryPull.2 = some payload := by
  obtain ⟨att, queue, hc⟩ := exists_cons_of_ne_nil hq
  unfold tryPull pullLoop
  rw [hc]
  simp [canPullMore, hs]

theorem nextInt_bmod (n : ℕ) :
    nextInt ((n : ℤ).bmod (2 ^ 32)) = ((n + 1 : ℕ) : ℤ).bmod (2 ^ 32) := by
  unfold nextInt
  rw [Int.bmod_add_bmod]
  rfl

theorem inv_tryPull (h : Inv size s) (hfew : s.tryPull.outstanding < maxWindowSize) :
    Inv size s.tryPull := by
  obtain ⟨hd, hf, k, hk⟩ := h
  obtain ⟨hq, hsent⟩ := pullLoop_queue s.output.windowSize s.output.readPosition s.output.dataQueue
    true s.output.sentPosition
  have hflow := pullLoop_flow s.output.windowSize s.output.readPosition s.output.dataQueue true
    s.output.sentPosition
  revert hq hsent hflow hfew
  unfold System.tryPull tryPull
  generalize pullLoop s.output.windowSize s.output.readPosition true s.output.sentPosition
    s.output.dataQueue = result
  obtain ⟨pulled, rest, sentPosition⟩ := result
  dsimp only
  intro hfew hq hsent hflow
  cases pulled with
  | nil =>
    simp only [isEmpty_nil, if_true, Option.toList_none, append_nil]
    exact ⟨hd, hf, k, hk⟩
  | cons att attachments =>
    refine ⟨⟨?_, hd.written, ?_, ?_, ?_, ?_, hfew, ?_, ?_, hd.sizes, hd.read, hd.closed⟩,
      ⟨hf.window, hf.feedbacks, hf.acknowledged, ?_⟩, k, ?_⟩
    · refine Eq.trans ?_ hd.queued
      rw [attachmentsOf_append, append_assoc, ← hq]
      simp [attachmentsOf]
    · show sentPosition = totalSize (attachmentsOf (s.pulled ++ [_]))
      rw [attachmentsOf_append, totalSize_append, ← hd.sent, hsent]
      simp [attachmentsOf]
    · show nextInt s.output.payloadSequenceNumber = _
      rw [hd.number, nextInt_bmod, length_append]
      rfl
    · intro i payload hi
      rcases Nat.lt_or_ge i s.pulled.length with hlt | hge
      · rw [getElem?_append_left hlt] at hi
        exact hd.numbers i payload hi
      · rw [getElem?_append_right hge] at hi
        cases hn : i - s.pulled.length <;> rw [hn] at hi <;> cases hi
        obtain rfl : i = s.pulled.length := by omega
        exact hd.number
    · refine forall_mem_append.mpr
        ⟨fun payload hp => ?_, forall_mem_singleton.mpr ⟨s.pulled.length, by simp⟩⟩
      obtain ⟨i, hi⟩ := hd.flying payload hp
      exact ⟨i, getElem?_append_some hi⟩
    · intro entry hentry
      obtain ⟨i, hi, hp⟩ := hd.window entry hentry
      exact ⟨i, hi, getElem?_append_some hp⟩
    · obtain ⟨n, hnext, hn, hr⟩ := hd.released
      refine ⟨n, hnext, hn.trans (by simp), ?_⟩
      show _ = attachmentsOf ((s.pulled ++ [_]).take n)
      rw [take_append_of_le_length hn]
      exact hr
    · rcases hflow with hnil | hfits | ⟨-, heq, single, hsingle⟩
      · cases hnil
      · exact ⟨none, by simp, le_max_of_le_left (hf.window ▸ hfits)⟩
      · -- one attachment of what was written
        refine ⟨single, ?_, le_max_of_le_right ?_⟩
        · have hm : single ∈ s.stream := by
            rw [← hd.queued, ← hq, hsingle]
            simp
          unfold System.stream at hm
          split_ifs at hm
          · exact hm
          · exact mem_append_left _ (by simpa using hm)
        · rw [hsingle] at hsent
          show sentPosition - s.output.readPosition ≤ _
          rw [hsent, heq]
          simp
    · exact { hk with }

/-! ### Feedback -/

theorem inv_getFeedback (h : Inv size s) : Inv size s.getFeedback := by
  obtain ⟨hd, hf, k, hk⟩ := h
  refine ⟨{ hd with }, { hf with feedbacks := ?_ }, k, { hk with }⟩
  exact forall_mem_cons.mpr ⟨hd.read.le, hf.feedbacks⟩

theorem trySet_writes : ∀ (promises : List ℕ) (futures : List FutureSet), promises.Nodup →
    (∀ i ∈ promises, FutureSet.write i ∉ futures) →
    (promises.map FutureSet.write).foldl System.trySet futures = futures ++ promises.map .write
  | [], futures, _, _ => (append_nil _).symm
  | i :: promises, futures, hnodup, hf => by
    obtain ⟨hi, hr⟩ := forall_mem_cons.mp hf
    obtain ⟨hnotin, hnodup'⟩ := nodup_cons.mp hnodup
    rw [map_cons, foldl_cons, System.trySet, if_neg hi, trySet_writes promises _ hnodup', append_assoc]
    · rfl
    · intro j hj hm
      rcases mem_append.mp hm with hm | hm
      · exact hr j hj hm
      · obtain rfl : j = i := FutureSet.write.inj (mem_singleton.mp hm)
        exact hnotin hj

theorem set_append_writes (futures : List FutureSet) (promises : List ℕ) :
    (futures ++ promises.map FutureSet.write).filterMap setWrite = futures.filterMap setWrite ++
      promises := by
  rw [filterMap_append, filterMap_map]
  congr 1
  exact filterMap_some

theorem refused_append_writes (futures : List FutureSet) (promises : List ℕ) :
    (futures ++ promises.map FutureSet.write).filterMap refusedWrite =
      futures.filterMap refusedWrite := by
  rw [filterMap_append, filterMap_map]
  have : promises.filterMap (refusedWrite ∘ FutureSet.write) = [] :=
    filterMap_eq_nil_iff.mpr fun _ _ => rfl
  rw [this, append_nil]

theorem filterMap_trySet_close {f : FutureSet → Option ℕ} (hf : f .close = none)
    (futures : List FutureSet) :
    (System.trySet futures .close).filterMap f = futures.filterMap f := by
  unfold System.trySet
  split_ifs
  · rfl
  · rw [filterMap_append, filterMap_cons, hf]
    simp

/-- The promises after feedback that moves the read position. -/
theorem FuturesOk.confirm {k : ℕ} (h : FuturesOk s k) {pos : ℤ}
    (hread : s.output.readPosition < pos) (hw : pos ≤ s.output.writePosition) :
    ∃ confirmationQueue closed futures m, s.handleFeedback pos = { s with
        output := { s.output with readPosition := pos, confirmationQueue, closed }, futures } ∧
      FuturesOk (s.handleFeedback pos) (k + m) := by
  unfold System.handleFeedback handleFeedback
  rw [if_neg (by omega), if_neg (by omega), pure_eq_ok]
  dsimp only
  set bound := pos + s.output.windowSize
  set popped := (s.output.confirmationQueue.takeWhile fun entry =>
    decide (entry.position ≤ bound)).filterMap ConfirmationEntry.promise with hp
  set closes := s.output.closePromise && decide (pos = s.output.writePosition) with hcloses
  have hsplit : popped ++ (s.output.confirmationQueue.dropWhile fun entry =>
      decide (entry.position ≤ bound)).filterMap
      ConfirmationEntry.promise = range' k (s.written.length - k) := by
    rw [hp, ← filterMap_append, takeWhile_append_dropWhile, h.waiting]
  obtain ⟨m, hm, hnow, hl⟩ := range'_eq_append_iff.mp hsplit.symm
  have hfresh : ∀ i ∈ popped, FutureSet.write i ∉ s.futures := by
    intro i hi hmem
    have hge : k ≤ i := by
      rw [hnow] at hi
      exact (mem_range'_1.mp hi).1
    have : i ∈ s.futures.filterMap setWrite := mem_filterMap.mpr ⟨_, hmem, rfl⟩
    rw [h.set, mem_range] at this
    omega
  have hnodup : popped.Nodup := hnow ▸ nodup_range'
  have hfutures : ∃ futures, (popped.map FutureSet.write ++ if closes then [FutureSet.close]
      else []).foldl System.trySet s.futures =
      futures ∧ futures.filterMap setWrite = range (k + m) ∧
      futures.filterMap refusedWrite = s.futures.filterMap refusedWrite ∧
      (FutureSet.close ∈ futures → closes = true ∨ FutureSet.close ∈ s.futures) := by
    refine ⟨_, rfl, ?_⟩
    rw [foldl_append, trySet_writes popped s.futures hnodup hfresh]
    have hset : (s.futures ++ popped.map FutureSet.write).filterMap setWrite = range (k + m) := by
      rw [set_append_writes, h.set, hnow, range_eq_range', range_eq_range', ← range'_append,
        zero_add, one_mul]
    have href := refused_append_writes s.futures popped
    cases closes with
    | true =>
      exact ⟨(filterMap_trySet_close rfl _).trans hset, (filterMap_trySet_close rfl _).trans href,
        fun _ => .inl rfl⟩
    | false =>
      refine ⟨hset, href, fun hmem => .inr ?_⟩
      rcases mem_append.mp hmem with hmem | hmem
      · exact hmem
      · obtain ⟨i, -, hi⟩ := mem_map.mp hmem
        cases hi
  obtain ⟨futures, heq, hset, href, hclose⟩ := hfutures
  refine ⟨_, _, _, m, rfl, ?_⟩
  rw [heq]
  refine ⟨h.count, h.count_le, hset, ?_, ?_, ?_, ?_, ?_, ?_, ?_⟩
  · refine hl.trans ?_
    rw [mul_one, Nat.sub_sub]
  · show k + m ≤ s.written.length
    have := h.le
    omega
  · exact h.increasing.sublist (dropWhile_sublist _)
  · exact fun entry hentry => h.bounded entry ((dropWhile_sublist _).subset hentry)
  · intro entry hentry i hi
    refine ⟨Lib.lt_of_mem_dropWhile (h.increasing.imp le_of_lt) entry hentry, ?_⟩
    exact (h.blocked entry ((dropWhile_sublist _).subset hentry) i hi).2
  · rw [href]
    exact h.refused
  · intro hmem
    rcases hclose hmem with hnew | ho
    · rw [hcloses, Bool.and_eq_true, decide_eq_true_eq] at hnew
      exact hnew
    · have := (h.closing ho).2
      omega

theorem inv_handleFeedback (h : Inv size s) {pos : ℤ} (hm : pos ∈ s.feedbacks) :
    Inv size (s.handleFeedback pos) := by
  have hi := h
  obtain ⟨hd, hf, k, hk⟩ := h
  have hp := hf.feedbacks pos hm
  obtain ⟨rest, hrest⟩ := hd.returned_prefix
  -- nothing is read that was not written
  have hwrite : pos ≤ s.output.writePosition := by
    have hsize := congrArg totalSize hrest
    rw [totalSize_append, ← hd.written] at hsize
    have := totalSize_nonneg rest
    omega
  by_cases hread : pos ≤ s.output.readPosition
  · have hsame : s.handleFeedback pos = s := by
      unfold System.handleFeedback handleFeedback
      rw [if_pos hread]
      rfl
    rwa [hsame]
  · obtain ⟨_, _, _, m, hs, hfutures⟩ := hk.confirm (not_le.mp hread) hwrite
    rw [hs] at hfutures ⊢
    refine ⟨{ hd with }, ⟨hf.window, hf.feedbacks, hp, ?_⟩, _, hfutures⟩
    obtain ⟨att, ha, hflow⟩ := hf.flow
    refine ⟨att, ha, ?_⟩
    show s.output.sentPosition - pos ≤ _
    omega

/-! ### The reader -/

theorem Inv.of_reader (h : Inv size s) {input : InputStream} {inFlight : List Payload}
    {more : List Attachment}
    (hd : DataOk { s with input := input, inFlight := inFlight, returned := s.returned ++ more }) :
    Inv size { s with input := input, inFlight := inFlight, returned := s.returned ++ more } := by
  obtain ⟨-, hf, k, hk⟩ := h
  have hm : totalSize s.returned ≤ totalSize (s.returned ++ more) := by
    have := totalSize_nonneg more
    rw [totalSize_append]
    omega
  exact ⟨hd, ⟨hf.window, fun pos hp => (hf.feedbacks pos hp).trans hm,
    hf.acknowledged.trans hm, hf.flow⟩, k, { hk with }⟩

theorem DataOk.queue_of_closed (h : DataOk s) (hc : s.input.closed = true) : s.input.queue = [] := by
  obtain ⟨n, -, -, hr⟩ := h.released
  have ha := (h.returned_of_none (h.closed.mp hc)).2
  have hq := h.queued
  rw [← take_append_drop n s.pulled, attachmentsOf_append, ← hr, ← ha, append_assoc, append_assoc]
    at hq
  have hn := append_right_eq_self.mp hq
  exact map_eq_nil_iff.mp (append_eq_nil_iff.mp hn).1

/-- The front of the queue is returned, and the check of `take` holds. -/
theorem DataOk.take {s : System} (h : DataOk s) {entry : QueueEntry} {queue : List QueueEntry}
    (promise : Bool) (hq : s.input.queue = entry :: queue) :
    ∃ input, InputStream.take entry queue { s.input with promise := promise } = .ok input ∧
      DataOk { s with input := input, returned := s.returned ++ [entry.attachment] } := by
  have hv : entry.attachment = none → s.input.closed = false := by
    intro _
    by_contra hc
    rw [h.queue_of_closed (Bool.not_eq_false _ ▸ hc)] at hq
    cases hq
  refine ⟨{ s.input with
    queue := queue, promise := promise, readPosition := s.input.readPosition + entry.compressedSize,
    closed := s.input.closed || entry.attachment.isNone }, ?_, ?_⟩
  · unfold InputStream.take
    rw [ytVerify_true hv, ok_bind]
    rfl
  · refine { h with released := ?_, sizes := ?_, read := ?_, closed := ?_ }
    · obtain ⟨n, hnext, hn, hr⟩ := h.released
      refine ⟨n, hnext, hn, ?_⟩
      rw [← hr, hq, map_cons]
      simp
    · exact fun e he => h.sizes e (hq ▸ mem_cons_of_mem _ he)
    · show s.input.readPosition + entry.compressedSize = _
      rw [h.read, h.sizes entry (hq ▸ mem_cons_self), totalSize_append, totalSize_cons,
        totalSize_nil, add_zero]
    · show (s.input.closed || entry.attachment.isNone) = true ↔ _
      rw [Bool.or_eq_true, h.closed, mem_append, mem_singleton, Option.isNone_iff_eq_none]
      exact or_congr_right eq_comm

theorem DataOk.servePromise {s : System} (h : DataOk s) :
    ∃ input value, s.input.servePromise = .ok (input, value) ∧
      DataOk { s with input := input, returned := s.returned ++ value.toList } := by
  by_cases hp : s.input.promise
  · cases hq : s.input.queue with
    | nil =>
      refine ⟨s.input, none, ?_, by simpa using h⟩
      unfold InputStream.servePromise
      rw [if_pos hp, hq]
      rfl
    | cons entry queue =>
      obtain ⟨input, ht, hd⟩ := h.take false hq
      refine ⟨input, some entry.attachment, ?_, hd⟩
      unfold InputStream.servePromise
      rw [if_pos hp]
      split
      · next hn => exact absurd (hq.symm.trans hn) (cons_ne_nil _ _)
      · next entry' queue' hc =>
        obtain ⟨rfl, rfl⟩ := cons.inj (hq.symm.trans hc)
        rw [ht, ok_bind]
        rfl
  · refine ⟨s.input, none, ?_, by simpa using h⟩
    unfold InputStream.servePromise
    rw [if_neg hp]
    rfl

variable {before after : List Payload}

theorem DataOk.drop (h : DataOk s) (hf : s.inFlight = before ++ payload :: after) :
    DataOk { s with inFlight := before ++ after } :=
  { h with flying := fun p hp =>
    h.flying p (hf ▸ ((sublist_cons_self payload after).append_left before).subset hp) }

theorem DataOk.accept (h : DataOk s) {ready : List Payload}
    {window : SlidingWindow Payload} (hflying : s.inFlight = before ++ payload :: after)
    (ha : s.input.window.addPacket maxWindowSize payload.sequenceNumber payload =
      .ok (window, ready)) : DataOk { s with
      input := { s.input with window := window, queue :=
        s.input.queue ++ ready.flatMap InputStream.entriesOf }
      inFlight := before ++ after } := by
  obtain ⟨n, hnext, hn, hr⟩ := h.released
  obtain ⟨i, hi⟩ := h.flying payload (hflying ▸ by simp)
  have hfew := h.few
  unfold System.outstanding at hfew
  rw [hnext] at hfew
  obtain ⟨m, hm, hle, hnum, ht⟩ :=
    addPacket_spec h.window hnext hn hi (h.numbers i payload hi) hfew ha
  refine { h.drop hflying with few := ?_, window := hnum, released := ⟨m, hm, hle, ?_⟩, sizes := ?_ }
  · have hnm : n ≤ m := by
      have hlen := congrArg length ht
      rw [length_append, length_take, length_take] at hlen
      omega
    show (s.pulled.length : ℤ) - window.nextPacketSequenceNumber < maxWindowSize
    omega
  · show s.returned ++ (s.input.queue ++ ready.flatMap InputStream.entriesOf).map
      QueueEntry.attachment = _
    rw [map_append, ← append_assoc, hr, ht, attachmentsOf_append]
    congr 1
    rw [map_flatMap]
    refine congrArg (ready.flatMap ·) (funext fun p => ?_)
    simp [InputStream.entriesOf, Function.comp_def]
  · refine forall_mem_append.mpr ⟨h.sizes, fun entry he => ?_⟩
    obtain ⟨p, -, hp⟩ := mem_flatMap.mp he
    obtain ⟨att, -, rfl⟩ := mem_map.mp hp
    rfl

theorem inv_deliver (h : Inv size s) (hf : s.inFlight = before ++ payload :: after) :
    ∃ s', s.deliver payload (before ++ after) = .ok s' ∧ Inv size s' := by
  unfold System.deliver InputStream.enqueuePayload
  cases ha : s.input.window.addPacket maxWindowSize payload.sequenceNumber payload with
  | error failure =>
    have he : ∃ message, failure = .exception message := by
      unfold SlidingWindow.addPacket at ha
      split_ifs at ha <;> cases ha <;> exact ⟨_, rfl⟩
    obtain ⟨message, rfl⟩ := he
    refine ⟨_, rfl, ?_⟩
    have hdata : DataOk { s with inFlight := before ++ after, returned := s.returned ++ [] } := by
      rw [append_nil]
      exact h.data.drop hf
    have hdrop := h.of_reader hdata
    rwa [append_nil] at hdrop
  | ok added =>
    obtain ⟨input, value, hs, hd⟩ := (h.data.accept hf ha).servePromise
    refine ⟨{ s with input := input, inFlight := before ++ after, returned :=
      s.returned ++ value.toList }, ?_, h.of_reader hd⟩
    rw [ok_bind]
    rw [hs]

/-- `Read` succeeds unless another one is in progress. -/
theorem inv_read (h : Inv size s) (hp : s.input.closed = false →
    s.input.promise = false) : ∃ s', s.read = .ok s' ∧ Inv size s' := by
  have hs : ∀ input : InputStream, DataOk { s with input := input } → Inv size { s with
      input := input, returned := s.returned ++ [] } := fun input hd =>
    h.of_reader (by rw [append_nil]; exact hd)
  unfold System.read InputStream.read
  by_cases hc : s.input.closed
  · rw [if_pos hc, pure_eq_ok, ok_bind]
    exact ⟨{ s with returned := s.returned ++ [] }, rfl, hs s.input h.data⟩
  · have hf := hp (Bool.not_eq_true _ ▸ hc)
    rw [if_neg hc, ytVerify_true hf, ok_bind]
    cases hq : s.input.queue with
    | nil =>
      refine ⟨{ s with input := { s.input with promise := true }, returned := s.returned ++ [] },
        ?_, hs _ ?_⟩
      · dsimp only
        rw [hq]
        rfl
      exact { h.data with }
    | cons entry queue =>
      obtain ⟨input, ht, hd⟩ := h.data.take s.input.promise hq
      have ht' : s.input.take entry queue = .ok input := ht
      refine ⟨{ s with input := input, inFlight := s.inFlight, returned :=
        s.returned ++ [entry.attachment] }, ?_, h.of_reader hd⟩
      dsimp only
      rw [ht', ok_bind]
      rfl

/-! ### Runs -/

theorem Inv.step (h : Inv size s) (hs : Step s s') : Inv size s' := by
  cases hs with
  | write data =>
    cases hc : s.output.closePromise with
    | true => exact inv_write_closed h data hc
    | false => exact inv_write_open h data hc
  | close => exact inv_close h
  | tryPull hfew => exact inv_tryPull h hfew
  | getFeedback => exact inv_getFeedback h
  | handleFeedback pos hm => exact inv_handleFeedback h hm
  | deliver _ payload before after hflying hd =>
    obtain ⟨s'', hok, hi⟩ := inv_deliver h hflying
    rwa [Except.ok.inj (hd.symm.trans hok)]
  | read _ hr =>
    -- a second `Read` while one is in progress fails its check
    have hp : s.input.closed = false → s.input.promise = false := by
      intro hopen
      by_contra hb
      unfold System.read InputStream.read at hr
      rw [if_neg (by simp [hopen]), ytVerify, if_neg hb] at hr
      cases hr
    obtain ⟨s'', hok, hi⟩ := inv_read h hp
    rwa [Except.ok.inj (hr.symm.trans hok)]

theorem Run.inv (h : Run size s) : Inv size s := by
  induction h with
  | init => exact inv_init size
  | step _ hs ih => exact ih.step hs

/-- **Streams deliver in order and once.** In every state of a run: what `Read` returned is a prefix
of what was written, and the end marker comes after all of it; the flow control bounds what is sent
and not acknowledged; the promises of calls of `Write` before `Close` are set once each and in
order, and one that is not set stands behind the window; every `Write` after `Close` is refused,
once and in order; `Close` completes only after the reader has read everything; and queued data can
be pulled when everything sent was acknowledged. -/
theorem stream_exactly_once {windowSize : ℤ} {s : System} (h : Run windowSize s) :
    s.returned <+: s.written.map some ++ (if s.output.closePromise then [none] else []) ∧
    (none ∈ s.returned → s.returned = s.written.map some ++ [none]) ∧
    (∃ attachment ∈ s.written.map some ++ [none], s.output.sentPosition - s.output.readPosition ≤
        max windowSize (getStreamingAttachmentSize attachment)) ∧
    (∃ k ≤ s.written.length, s.futures.filterMap setWrite = range k ∧
      ∀ i, k ≤ i → i < s.written.length →
        s.output.readPosition + windowSize < totalSize ((s.written.map some).take (i + 1))) ∧
    s.futures.filterMap refusedWrite = range' s.written.length (s.writeCount - s.written.length) ∧
    (FutureSet.close ∈ s.futures → s.returned = s.written.map some ++ [none]) ∧
    (s.output.dataQueue ≠ [] → s.output.sentPosition = s.output.readPosition →
      ∃ payload, s.output.tryPull.2 = some payload) := by
  obtain ⟨hd, hf, k, hk⟩ := h.inv
  have hstream : s.output.closePromise = true → s.stream = s.written.map some ++ [none] := by
    intro hclose
    unfold System.stream
    rw [hclose, if_pos rfl]
  refine ⟨hd.returned_prefix, fun hnone => ?_, hf.flow, ⟨k, hk.le, hk.set, fun i hki hi => ?_⟩,
    hk.refused, fun hclose => ?_, tryPull_of_acknowledged⟩
  · obtain ⟨hclose, hall⟩ := hd.returned_of_none hnone
    rw [hall, hstream hclose]
  · -- the promise waits in the confirmation queue
    have hmem : i ∈ s.output.confirmationQueue.filterMap ConfirmationEntry.promise := by
      rw [hk.waiting, mem_range'_1]
      omega
    obtain ⟨entry, hentry, hpromise⟩ := mem_filterMap.mp hmem
    obtain ⟨hblocked, hposition⟩ := hk.blocked entry hentry i hpromise
    rw [hf.window, hposition] at hblocked
    unfold System.stream at hblocked
    rwa [take_append_of_le_length (by simpa using hi)] at hblocked
  · obtain ⟨hclosing, hread⟩ := hk.closing hclose
    rw [← hstream hclosing]
    exact hd.returned_eq (hread ▸ hf.acknowledged)

/-- An attachment is written, pulled, delivered and read while a second one waits; a third one is
refused. -/
theorem stream_exactly_once_example : ∃ s, Run 1 s ∧ s.returned = [some [7, 8]] ∧
    s.written = [[7, 8], [9]] ∧
    s.returned <+: s.written.map some ++ (if s.output.closePromise then [none] else []) ∧
    s.futures.filterMap refusedWrite = [2] := by
  have hclosed : Run 1 ((((System.init 1).write [7, 8]).write [9]).close.write [5]) :=
    .step (.step (.step (.step .init (.write _ _)) (.write _ _)) (.close _)) (.write _ _)
  have hpull : Run 1 _ := .step hclosed (.tryPull _ (by decide +kernel))
  have hread : Run 1 _ := .step (.step hpull (.deliver _ _ ⟨0, [some [7, 8]]⟩ [] [] rfl rfl))
    (.read _ _ rfl)
  obtain ⟨hdelivered, -, -, -, hrefused, -⟩ := stream_exactly_once hread
  exact ⟨_, hread, rfl, rfl, hdelivered, hrefused⟩

/-- A `Write` after `Close` is refused while the promise of an earlier one still waits. -/
theorem write_after_close_overtakes :
    ∃ s, Run 1 s ∧ s.writeCount = 2 ∧ s.futures = [.writeError 1 "Stream is already closed"] :=
  ⟨(((System.init 1).write [7, 8]).close).write [9],
    .step (.step (.step .init (.write _ _)) (.close _)) (.write _ _), rfl, by decide +kernel⟩

end Ytsaurus.Rpc
