/-
# Attachment streams

`TAttachmentsOutputStream` and `TAttachmentsInputStream` of `core/rpc/stream.cpp` for the codec
`None`, with the `TSlidingWindow` that puts payloads in order, and the system of the two streams,
the payloads on their way and the feedback on its way back.

Nothing aborts a stream and no timeout fires, so `Error_` stays empty and is left out, as are the
timers. Positions are `ssize_t` and are taken as integers; the sequence number of payloads is an
`int` and wraps. A null reference is `none`. `Write` verifies that its data is not null.
-/
import Ytsaurus.Lib.Result

namespace Ytsaurus.Rpc

def maxWindowSize : ℕ := 16384

/-- `TSharedRef`. -/
abbrev Attachment := Option (List UInt8)

def getStreamingAttachmentSize : Attachment → ℤ
  | none => 1
  | some data => if data.length = 0 then 1 else data.length

/-- `TStreamingPayload`. -/
structure Payload where
  sequenceNumber : ℤ
  attachments : List Attachment
  deriving DecidableEq, Repr

/-! ### The sliding window -/

/-- `TSlidingWindow`; the hash map is a list of its entries. -/
structure SlidingWindow (π : Type) where
  nextPacketSequenceNumber : ℤ
  window : List (ℤ × π)

namespace SlidingWindow

variable {π : Type}

def find (window : SlidingWindow π) (sequenceNumber : ℤ) : Option π :=
  (window.window.find? fun entry => decide (entry.1 = sequenceNumber)).map Prod.snd

def pop (window : SlidingWindow π) : SlidingWindow π :=
  ⟨window.nextPacketSequenceNumber + 1,
    window.window.filter fun entry => decide (entry.1 ≠ window.nextPacketSequenceNumber)⟩

/-- The loop of `AddPacket`: packets leave while the next one is there. Every round takes an entry
out, so the number of entries bounds the rounds. -/
def slide : ℕ → SlidingWindow π → SlidingWindow π × List π
  | 0, window => (window, [])
  | rounds + 1, window =>
    match window.find window.nextPacketSequenceNumber with
    | none => (window, [])
    | some packet =>
      let rest := slide rounds window.pop
      (rest.1, packet :: rest.2)

/-- `AddPacket`; the packets that the callback gets are returned. -/
def addPacket (maxSize : ℕ) (sequenceNumber : ℤ) (packet : π) (window : SlidingWindow π) :
    Result (SlidingWindow π × List π) :=
  if sequenceNumber < window.nextPacketSequenceNumber then
    throw (.exception "Packet sequence number is too small")
  else if (window.find sequenceNumber).isSome then
    throw (.exception "Packet with this sequence number is already queued")
  else if maxSize ≤ window.window.length then throw (.exception "Packet window overflow")
  else
    return slide (window.window.length + 1)
      { window with window := (sequenceNumber, packet) :: window.window }

end SlidingWindow

/-! ### The input stream -/

structure QueueEntry where
  attachment : Attachment
  compressedSize : ℤ

/-- `TAttachmentsInputStream`. -/
structure InputStream where
  window : SlidingWindow Payload
  queue : List QueueEntry
  /-- A `Read` is in progress. -/
  promise : Bool
  readPosition : ℤ
  closed : Bool

/-- What `Read` returns: a null future past the end, a future that is not set yet or a value. -/
inductive ReadResult
  | null | pending | value (attachment : Attachment)
  deriving DecidableEq, Repr

namespace InputStream

def take (entry : QueueEntry) (queue : List QueueEntry) (stream : InputStream) :
    Result InputStream := do
  ytVerify (entry.attachment = none → stream.closed = false)
  return { stream with
    queue := queue
    readPosition := stream.readPosition + entry.compressedSize
    closed := stream.closed || entry.attachment.isNone }

def read (stream : InputStream) : Result (InputStream × ReadResult) :=
  if stream.closed then return (stream, .null)
  else do
    ytVerify (stream.promise = false)
    match stream.queue with
    | [] => return ({ stream with promise := true }, .pending)
    | entry :: queue =>
      let taken ← stream.take entry queue
      return (taken, .value entry.attachment)

def entriesOf (payload : Payload) : List QueueEntry :=
  payload.attachments.map fun attachment => ⟨attachment, getStreamingAttachmentSize attachment⟩

/-- The end of `DoEnqueuePayload`: sets the promise of a `Read` in progress. -/
def servePromise (stream : InputStream) : Result (InputStream × Option Attachment) :=
  if stream.promise then
    match stream.queue with
    | [] => return (stream, none)
    | entry :: queue => do
      let taken ← take entry queue { stream with promise := false }
      return (taken, some entry.attachment)
  else return (stream, none)

/-- `EnqueuePayload`, with the value that the promise of `Read` is set to. -/
def enqueuePayload (payload : Payload) (stream : InputStream) :
    Result (InputStream × Option Attachment) := do
  let added ← stream.window.addPacket maxWindowSize payload.sequenceNumber payload
  servePromise { stream with window := added.1, queue := stream.queue ++ added.2.flatMap entriesOf }

end InputStream

/-! ### The output stream -/

/-- `TConfirmationEntry`; promises are numbered like the calls of `Write`. -/
structure ConfirmationEntry where
  position : ℤ
  promise : Option ℕ

/-- `TAttachmentsOutputStream`. -/
structure OutputStream where
  windowSize : ℤ
  dataQueue : List Attachment
  confirmationQueue : List ConfirmationEntry
  closePromise : Bool
  closed : Bool
  writePosition : ℤ
  sentPosition : ℤ
  readPosition : ℤ
  payloadSequenceNumber : ℤ

/-- A promise that is set: of a `Write`, with an error or without, or of `Close`. -/
inductive FutureSet
  | write (promise : ℕ)
  | writeError (promise : ℕ) (message : String)
  | close
  deriving DecidableEq, Repr

namespace OutputStream

/-- `Write` with `OnWindowPacketsReady`, and the promises it sets. -/
def write (data : List UInt8) (promise : ℕ) (stream : OutputStream) :
    OutputStream × List FutureSet :=
  if stream.closePromise then (stream, [.writeError promise "Stream is already closed"])
  else
    let writePosition := stream.writePosition + getStreamingAttachmentSize (some data)
    let ready := writePosition - stream.readPosition ≤ stream.windowSize
    ({ stream with
        writePosition := writePosition
        dataQueue := stream.dataQueue ++ [some data]
        confirmationQueue := stream.confirmationQueue ++
          [⟨writePosition, if ready then none else some promise⟩] },
      if ready then [.write promise] else [])

def close (stream : OutputStream) : OutputStream :=
  if stream.closePromise then stream
  else
    let writePosition := stream.writePosition + getStreamingAttachmentSize none
    { stream with
      closePromise := true
      dataQueue := stream.dataQueue ++ [none]
      writePosition := writePosition
      confirmationQueue := stream.confirmationQueue ++ [⟨writePosition, none⟩] }

/-- `HandleFeedback`, and the promises it tries to set. -/
def handleFeedback (position : ℤ) (stream : OutputStream) : Result (OutputStream × List FutureSet) :=
  if position ≤ stream.readPosition then return (stream, [])
  else if stream.writePosition < position then
    throw (.exception ("Stream read position exceeds write position: " ++ toString position ++
      " > " ++ toString stream.writePosition))
  else
    let confirmed := fun entry : ConfirmationEntry =>
      decide (entry.position ≤ position + stream.windowSize)
    let closes := stream.closePromise && decide (position = stream.writePosition)
    return ({ stream with
        readPosition := position
        confirmationQueue := stream.confirmationQueue.dropWhile confirmed
        closed := stream.closed || closes },
      ((stream.confirmationQueue.takeWhile confirmed).filterMap ConfirmationEntry.promise).map .write ++
        if closes then [.close] else [])

def canPullMore (first : Bool) (windowSize sentPosition readPosition : ℤ) : List Attachment → Bool
  | [] => false
  | attachment :: _ =>
    decide (sentPosition - readPosition + getStreamingAttachmentSize attachment ≤ windowSize) ||
      (first && decide (sentPosition = readPosition))

/-- The loop of `TryPull`: the attachments of the payload, those that stay, and the sent position.
-/
def pullLoop (windowSize readPosition : ℤ) : Bool → ℤ → List Attachment →
    List Attachment × List Attachment × ℤ
  | _, sentPosition, [] => ([], [], sentPosition)
  | first, sentPosition, attachment :: queue =>
    if canPullMore first windowSize sentPosition readPosition (attachment :: queue) then
      let rest := pullLoop windowSize readPosition false
        (sentPosition + getStreamingAttachmentSize attachment) queue
      (attachment :: rest.1, rest.2)
    else ([], attachment :: queue, sentPosition)

/-- An `int` after an increment. -/
def nextInt (n : ℤ) : ℤ := (n + 1).bmod (2 ^ 32)

def tryPull (stream : OutputStream) : OutputStream × Option Payload :=
  let pulled := pullLoop stream.windowSize stream.readPosition true stream.sentPosition
    stream.dataQueue
  if pulled.1.isEmpty then (stream, none)
  else
    ({ stream with
        dataQueue := pulled.2.1
        sentPosition := pulled.2.2
        payloadSequenceNumber := nextInt stream.payloadSequenceNumber },
      some ⟨stream.payloadSequenceNumber, pulled.1⟩)

end OutputStream

/-! ### The system -/

/-- Both streams, what is on its way between them, and what their callers have seen. -/
structure System where
  output : OutputStream
  input : InputStream
  /-- Payloads that were pulled and not delivered. -/
  inFlight : List Payload
  /-- Values of `GetFeedback`. -/
  feedbacks : List ℤ
  /-- Promises of the output stream in the order in which they were set. -/
  futures : List FutureSet
  /-- Values that `Read` has returned. -/
  returned : List Attachment
  /-- The number of calls of `Write`. -/
  writeCount : ℕ
  /-- The data of the calls of `Write` before `Close`. -/
  written : List (List UInt8)
  /-- All payloads that were pulled. -/
  pulled : List Payload

namespace System

def init (windowSize : ℤ) : System where
  output := ⟨windowSize, [], [], false, false, 0, 0, 0, 0⟩
  input := ⟨⟨0, []⟩, [], false, 0, false⟩
  inFlight := []
  feedbacks := []
  futures := []
  returned := []
  writeCount := 0
  written := []
  pulled := []

/-- What was put into the data queue so far. -/
def stream (system : System) : List Attachment :=
  system.written.map some ++ if system.output.closePromise then [none] else []

def trySet (futures : List FutureSet) (future : FutureSet) : List FutureSet :=
  if future ∈ futures then futures else futures ++ [future]

def write (data : List UInt8) (system : System) : System :=
  let result := system.output.write data system.writeCount
  { system with
    output := result.1
    futures := system.futures ++ result.2
    writeCount := system.writeCount + 1
    written := if system.output.closePromise then system.written else system.written ++ [data] }

def close (system : System) : System := { system with output := system.output.close }

def tryPull (system : System) : System :=
  let result := system.output.tryPull
  { system with
    output := result.1
    inFlight := system.inFlight ++ result.2.toList
    pulled := system.pulled ++ result.2.toList }

/-- A call of `HandleFeedback` that throws changes nothing. -/
def handleFeedback (position : ℤ) (system : System) : System :=
  match system.output.handleFeedback position with
  | .ok result => { system with output := result.1, futures := result.2.foldl trySet system.futures }
  | .error _ => system

def getFeedback (system : System) : System :=
  { system with feedbacks := system.input.readPosition :: system.feedbacks }

/-- Delivery of a payload; a call of `EnqueuePayload` that throws changes nothing in the stream. -/
def deliver (payload : Payload) (inFlight : List Payload) (system : System) : Result System :=
  match system.input.enqueuePayload payload with
  | .ok result =>
    .ok { system with input := result.1, inFlight := inFlight, returned :=
      system.returned ++ result.2.toList }
  | .error (.exception _) => .ok { system with inFlight := inFlight }
  | .error failure => .error failure

/-- `Read`, which may fail a check. -/
def read (system : System) : Result System := do
  let result ← system.input.read
  return { system with
    input := result.1
    returned := system.returned ++ match result.2 with
      | .value attachment => [attachment]
      | _ => [] }

/-- Payloads that were pulled and have not left the window of the input stream. -/
def outstanding (system : System) : ℤ :=
  system.pulled.length - system.input.window.nextPacketSequenceNumber

end System

/-- One call. Payloads are delivered in any order and at most once, feedback in any order and any
number of times. -/
inductive Step : System → System → Prop
  | write (system : System) (data : List UInt8) : Step system (system.write data)
  | close (system : System) : Step system system.close
  | tryPull (system : System) : system.tryPull.outstanding < maxWindowSize →
    Step system system.tryPull
  | getFeedback (system : System) : Step system system.getFeedback
  | handleFeedback (system : System) (position : ℤ) : position ∈ system.feedbacks →
      Step system (system.handleFeedback position)
  | deliver (system system' : System) (payload : Payload) (before after : List Payload) :
      system.inFlight = before ++ payload :: after → system.deliver payload (before ++ after) =
        .ok system' →
      Step system system'
  | read (system system' : System) : system.read = .ok system' → Step system system'

/-- The states that calls in any order lead to. -/
inductive Run (windowSize : ℤ) : System → Prop
  | init : Run windowSize (System.init windowSize)
  | step {system system' : System} : Run windowSize system → Step system system' →
    Run windowSize system'

end Ytsaurus.Rpc
