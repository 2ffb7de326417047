import Cantrip.Lib.Run

/-!
# The credit of a channel (`worker-link-gateway.ts`)

A client may send as many bytes as it has credit. The gateway takes the bytes of a data frame off the credit, gives them to the adapter,
and gives the credit back when the adapter has written them: at once, or from the queue of controls that the carrier has refused.
-/

namespace Cantrip.Gateway

open Lib

inductive WorkerLinkDirection
  | clientToWorker
  | workerToClient
  deriving DecidableEq

def WORKER_LINK_MAX_PAYLOAD_BYTES : Nat := 8 + 8 * 1024 + (64 * 1024 + 16)

def WORKER_LINK_MAX_CREDIT_BYTES : Nat := 8 * 1024 * 1024

def MAX_PENDING_ADAPTER_EMISSIONS : Nat := 128

inductive PendingCarrierControl
  | credit (direction : WorkerLinkDirection) (bytes : Nat)
  | halfClose
  | error (code : String)
  deriving DecidableEq

inductive ReliableControlResult
  | queued
  | sent
  | failed
  deriving DecidableEq

/-- `ActiveChannel`, with what its grant and its adapter allow. -/
structure ActiveChannel where
  routeGeneration : Nat
  /-- `stream:write` and an adapter that can write. -/
  mayWrite : Bool
  mayHalfClose : Bool
  mayRead : Bool
  /-- The responder has `waitForCapacity`. -/
  canWait : Bool
  inboundCreditBytes : Nat
  inboundSequence : Nat := 0
  outboundCreditBytes : Nat
  outboundSequence : Nat := 1
  pendingCarrierControls : List PendingCarrierControl := []
  carrierCapacityWait : Bool := false

inductive Detail
  | data (direction : WorkerLinkDirection) (bytes : Nat)
  | credit (direction : WorkerLinkDirection) (bytes : Nat)
  | halfClose (direction : WorkerLinkDirection)
  | close
  /-- `accept`, `reject` and `error` -/
  | workerOnly

structure Frame where
  routeGeneration : Nat
  sequence : Nat
  detail : Detail

/-- What `#handleChannelFrame` waits for. -/
inductive Handling
  | write (bytes : Nat)
  | call
  /-- It has thrown, and the channel is still to be closed. -/
  | failed

structure Link where
  channel : ActiveChannel
  initialCreditBytes : Nat
  isOpen : Bool := true
  handling : Option Handling := none
  inputTail : List Frame := []
  /-- Bytes whose write has come to its end. -/
  written : Nat := 0
  toClient : List Nat := []
  sent : Nat := 0
  received : Nat := 0
  /-- The client has never sent more than it had credit for. -/
  obedient : Bool := true

def Link.open (initialCreditBytes routeGeneration : Nat) (mayWrite mayHalfClose mayRead canWait : Bool) : Link where
  channel :=
    { routeGeneration, mayWrite, mayHalfClose, mayRead, canWait, inboundCreditBytes := initialCreditBytes,
      outboundCreditBytes := initialCreditBytes }
  initialCreditBytes

namespace Link

def close (l : Link) : Link := { l with isOpen := false, handling := none, inputTail := [] }

/-! ## Controls -/

/-- `#respond`, where the responder takes the frame. -/
def respond (l : Link) (detail : PendingCarrierControl) : Link :=
  { l with
    channel := { l.channel with outboundSequence := l.channel.outboundSequence + 1 }
    toClient := match detail with
      | .credit .clientToWorker bytes => l.toClient ++ [bytes]
      | _ => l.toClient }

def restore (l : Link) (bytes : Nat) : Link :=
  { l with
    channel := { l.channel with inboundCreditBytes := min WORKER_LINK_MAX_CREDIT_BYTES (l.channel.inboundCreditBytes + bytes) } }

def setPending (l : Link) (pending : List PendingCarrierControl) : Link :=
  { l with channel := { l.channel with pendingCarrierControls := pending } }

def waitForCarrierCapacity (l : Link) : Link :=
  if l.channel.canWait then { l with channel := { l.channel with carrierCapacityWait := true } } else l

/-- A credit is added to one before it, but not to the first in the queue. -/
def mergeLast (detail : PendingCarrierControl) (pending : List PendingCarrierControl) : Option (List PendingCarrierControl) :=
  match pending.getLast?, detail with
  | some (.credit last bytes), .credit direction more =>
    if pending.length > 1 ∧ last = direction ∧ bytes + more ≤ WORKER_LINK_MAX_CREDIT_BYTES then
      some (pending.dropLast ++ [.credit direction (bytes + more)])
    else none
  | _, _ => none

def queueCarrierControl (l : Link) (detail : PendingCarrierControl) : Option Link :=
  match mergeLast detail l.channel.pendingCarrierControls with
  | some pending => some (l.setPending pending)
  | none =>
    if l.channel.pendingCarrierControls.length ≥ MAX_PENDING_ADAPTER_EMISSIONS then none
    else some (l.setPending (l.channel.pendingCarrierControls ++ [detail]))

/-- `accepts` is what the responder says, if it is asked. -/
def emitReliableControl (l : Link) (detail : PendingCarrierControl) (accepts : Bool) : Link × ReliableControlResult :=
  if l.channel.pendingCarrierControls.isEmpty && accepts then (l.respond detail, .sent)
  else if l.channel.pendingCarrierControls.isEmpty && !l.channel.canWait then (l, .failed)
  else
    match l.queueCarrierControl detail with
    | none => (l, .failed)
    | some l => (l.waitForCarrierCapacity, .queued)

def flushCarrierControls (l : Link) : List Bool → Link × Bool
  | [] => (l, l.channel.pendingCarrierControls.isEmpty)
  | accepts :: more =>
    match l.channel.pendingCarrierControls with
    | [] => (l, true)
    | detail :: pending =>
      if accepts then
        let l := (l.respond detail).setPending pending
        match detail with
        | .credit .clientToWorker bytes => (l.restore bytes).flushCarrierControls more
        | _ => l.flushCarrierControls more
      else (l, false)

/-- `#handleChannelFrame` up to its first wait. -/
def handleChannelFrame (l : Link) (frame : Frame) : Link :=
  let c := l.channel
  if frame.routeGeneration ≠ c.routeGeneration || frame.sequence ≠ c.inboundSequence + 1 then { l with handling := some .failed }
  else
    let c := { c with inboundSequence := frame.sequence }
    match frame.detail with
    | .data direction bytes =>
      if direction ≠ .clientToWorker || bytes = 0 || bytes > WORKER_LINK_MAX_PAYLOAD_BYTES || bytes > c.inboundCreditBytes || !c.mayWrite then
        { l with channel := c, handling := some .failed }
      else { l with channel := { c with inboundCreditBytes := c.inboundCreditBytes - bytes }, handling := some (.write bytes) }
    | .credit direction bytes =>
      if direction ≠ .workerToClient then { l with channel := c, handling := some .failed }
      else
        { l with
          channel := { c with outboundCreditBytes := min WORKER_LINK_MAX_CREDIT_BYTES (c.outboundCreditBytes + bytes) }
          handling := some .call }
    | .halfClose direction =>
      { l with channel := c, handling := some (if direction ≠ .clientToWorker || !c.mayHalfClose then .failed else .call) }
    | .close => l.close
    | .workerOnly => { l with channel := c, handling := some .failed }

/-- `#handleChannelFrame` after the write. -/
def finishWrite (l : Link) (bytes : Nat) (accepts : Bool) : Link :=
  let l := { l with handling := none, written := l.written + bytes }
  match l.emitReliableControl (.credit .clientToWorker bytes) accepts with
  | (l, .sent) => l.restore bytes
  | (l, .failed) => l.close
  | (l, .queued) => l

/-- `#emitData` -/
def emitData (l : Link) (bytes : Nat) (accepts : Bool) : Link :=
  let c := l.channel
  if !c.mayRead || bytes = 0 || bytes > WORKER_LINK_MAX_PAYLOAD_BYTES || bytes > c.outboundCreditBytes || !c.pendingCarrierControls.isEmpty then
    l
  else if accepts then
    { l with
      channel := { c with outboundSequence := c.outboundSequence + 1, outboundCreditBytes := c.outboundCreditBytes - bytes } }
  else l.waitForCarrierCapacity

end Link

/-! ## Steps -/

def Frame.bytes (frame : Frame) : Nat :=
  match frame.detail with
  | .data _ bytes => bytes
  | _ => 0

/-- Only data has a payload, which is neither empty nor too long. -/
def Frame.valid (frame : Frame) : Bool :=
  match frame.detail with
  | .data _ bytes => 0 < bytes && bytes ≤ WORKER_LINK_MAX_PAYLOAD_BYTES
  | _ => true

inductive Event
  /-- The client sends a frame, which reaches the channel if its payload is valid. -/
  | send (frame : Frame)
  /-- A credit reaches the client. -/
  | receive
  | handle
  /-- The write has come to its end. -/
  | written (accepts : Bool)
  /-- Another call of the adapter has come to its end. -/
  | returned
  /-- The adapter has thrown, or the frame was refused, and the channel is closed. -/
  | thrown
  /-- The adapter half-closes or reports an error. -/
  | emit (detail : PendingCarrierControl) (accepts : Bool)
  | emitData (bytes : Nat) (accepts : Bool)
  | capacity (available : Bool) (accepts : List Bool)
  | close

inductive Label
  | quiet
  /-- A frame is handled, with so much credit. -/
  | handled (frame : Frame) (credit : Nat)

def step (l : Link) : Event → Option (Link × Label)
  | .send frame =>
    let obedient := l.obedient && l.sent + frame.bytes ≤ l.initialCreditBytes + l.received
    let l := { l with sent := l.sent + frame.bytes, obedient }
    some (if l.isOpen && frame.valid then { l with inputTail := l.inputTail ++ [frame] } else l, .quiet)
  | .receive =>
    match l.toClient with
    | [] => none
    | bytes :: toClient => some ({ l with toClient, received := l.received + bytes }, .quiet)
  | .handle =>
    match l.handling, l.inputTail with
    | none, frame :: inputTail =>
      some ({ l with inputTail }.handleChannelFrame frame, .handled frame l.channel.inboundCreditBytes)
    | _, _ => none
  | .written accepts =>
    match l.handling with
    | some (.write bytes) => some (l.finishWrite bytes accepts, .quiet)
    | _ => none
  | .returned =>
    match l.handling with
    | some .call => some ({ l with handling := none }, .quiet)
    | _ => none
  | .thrown => if l.handling.isSome then some (l.close, .quiet) else none
  | .emit detail accepts =>
    match detail with
    | .credit _ _ => none
    | .halfClose =>
      if l.isOpen && l.channel.mayHalfClose then some ((l.emitReliableControl .halfClose accepts).1, .quiet) else some (l, .quiet)
    | .error code => if l.isOpen then some ((l.emitReliableControl (.error code) accepts).1, .quiet) else some (l, .quiet)
  | .emitData bytes accepts => if l.isOpen then some (l.emitData bytes accepts, .quiet) else some (l, .quiet)
  | .capacity available accepts =>
    if l.isOpen && l.channel.carrierCapacityWait then
      let l := { l with channel := { l.channel with carrierCapacityWait := false } }
      if !available then some (l.close, .quiet)
      else
        match l.flushCarrierControls accepts with
        | (l, true) => some (l, .quiet)
        | (l, false) => some (l.waitForCarrierCapacity, .quiet)
    else none
  | .close => some (l.close, .quiet)

end Cantrip.Gateway
