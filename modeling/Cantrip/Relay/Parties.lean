import Cantrip.Lib.Flight
import Cantrip.Relay.Connection

/-!
# The parties of a relay connection

The relay between a client and a worker that keep to the protocol of the channels, over links that deliver in order.
Each side of a channel numbers its frames one after another. The client sends on a channel from its opening until it
has closed it or has heard that it ended. The worker (`worker-link-gateway.ts`) accepts or rejects an opening first,
sends until it has ended the channel, and answers the close of the client with one end (`#closeChannel`: a reject
when it has not accepted the channel).
-/

namespace Cantrip.Relay

open Lib

/-! ## The two sides of a channel -/

structure ClientSide where
  opening : Header
  /-- The sequence of the next frame. -/
  next : Nat
  /-- The client has closed the channel or taken its end. -/
  ended : Bool

structure WorkerSide where
  opening : Header
  next : Nat
  /-- The close of the client has come. -/
  closed : Bool
  /-- The worker has sent its close or reject. -/
  ended : Bool

/-- What a client sends on a channel that it has opened. -/
def Kind.ofClient : Kind → Bool
  | .data | .credit | .halfClose | .close => true
  | _ => false

/-- What a worker sends on a channel that it has accepted. -/
def Kind.ofWorker : Kind → Bool
  | .data | .credit | .halfClose | .close | .error => true
  | _ => false

def Session.names (session : Session) (h : Header) : Bool :=
  h.sessionId = session.sessionId && h.routeGeneration = session.routeGeneration && h.effectiveRoute = .relay

def ClientSide.maySend (c : ClientSide) (h : Header) : Bool := !c.ended && h.sequence = c.next && h.kind.ofClient

def WorkerSide.maySend (w : WorkerSide) (h : Header) : Bool :=
  !w.ended && w.opening.agrees h && h.sequence = w.next &&
    (if w.next = 0 then h.kind.answers else h.kind.ofWorker) && (!w.closed || h.kind.ends)

/-- A frame of the relay comes to the worker. -/
def WorkerSide.take (side : Option WorkerSide) (h : Header) : Option WorkerSide :=
  match side with
  | none => if h.kind.isOpen then some ⟨h, 0, false, false⟩ else none
  | some w => if h.kind = .close then some { w with closed := true } else some w

/-! ## The system -/

def Event.sentToWorker : Event → Option Header
  | .fromClient _ frame true => some frame.header
  | .retired _ header => header
  | _ => none

def Event.sentToClient : Event → Option Frame
  | .toClient _ frame => some frame
  | _ => none

def Event.endsChannel (id : Utf16) : Event → Bool
  | .fromWorker _ frame => frame.header.channelId = id && frame.header.kind.ends
  | _ => false

structure Exchange where
  client : Utf16 → Option ClientSide
  toRelay : List Frame
  relay : Connection
  toWorker : List Header
  worker : Utf16 → Option WorkerSide
  fromWorker : List Frame
  toClient : List Frame

namespace Exchange

def start : Exchange :=
  { client := fun _ => none, toRelay := [], relay := .attach, toWorker := [], worker := fun _ => none, fromWorker := [],
    toClient := [] }

def relayDoes (s : Exchange) (k : Connection) : Exchange :=
  let events := k.log.drop s.relay.log.length
  { s with relay := k, toWorker := s.toWorker ++ events.filterMap Event.sentToWorker,
           toClient := s.toClient ++ events.filterMap Event.sentToClient }

def setClient (s : Exchange) (id : Utf16) (side : Option ClientSide) : Exchange :=
  { s with client := fun other => if other = id then side else s.client other }

def setWorker (s : Exchange) (id : Utf16) (side : Option WorkerSide) : Exchange :=
  { s with worker := fun other => if other = id then side else s.worker other }

inductive Act
  | clientSends (frame : Frame)
  | relayTakesClient (answers : Connection.ClientAnswers)
  | workerTakes
  | workerSends (frame : Frame)
  | relayTakesWorker (consume : Bool) (answers : Connection.SocketAnswers)
  | clientTakes
  /-- Anything else that happens to the connection. -/
  | relayCalled (call : Connection.Call)

def bringsFrame : Connection.Call → Bool
  | .receiveClient .. | .receiveWorker .. => true
  | _ => false

def clientSends (session : Session) (s : Exchange) (frame : Frame) : Option Exchange :=
  let h := frame.header
  let sent := { s with toRelay := s.toRelay ++ [frame] }
  if !session.names h then none
  else
    match s.client h.channelId with
    | none => if h.kind.isOpen then some (sent.setClient h.channelId (some ⟨h, h.sequence + 1, false⟩)) else none
    | some c =>
      if c.maySend h then
        some (sent.setClient h.channelId (some { c with next := h.sequence + 1, ended := decide (h.kind = .close) }))
      else none

def workerSends (session : Session) (s : Exchange) (frame : Frame) : Option Exchange :=
  let h := frame.header
  match s.worker h.channelId with
  | none => none
  | some w =>
    if session.names h && w.maySend h then
      some ({ s with fromWorker := s.fromWorker ++ [frame] }.setWorker h.channelId
        (some { w with next := h.sequence + 1, ended := h.kind.ends }))
    else none

def step (session : Session) (limits : Lane → Limit) (s : Exchange) : Act → Option Exchange
  | .clientSends frame => s.clientSends session frame
  | .relayTakesClient answers =>
    match s.toRelay with
    | [] => none
    | frame :: rest =>
      some ({ s with toRelay := rest }.relayDoes (s.relay.step session limits (.receiveClient true (some frame) answers)))
  | .workerTakes =>
    match s.toWorker with
    | [] => none
    | h :: rest => some ({ s with toWorker := rest }.setWorker h.channelId (WorkerSide.take (s.worker h.channelId) h))
  | .workerSends frame => s.workerSends session frame
  | .relayTakesWorker consume answers =>
    match s.fromWorker with
    | [] => none
    | frame :: rest =>
      some ({ s with fromWorker := rest }.relayDoes (s.relay.step session limits (.receiveWorker frame consume answers)))
  | .clientTakes =>
    match s.toClient with
    | [] => none
    | frame :: rest =>
      some ({ s with toClient := rest }.setClient frame.header.channelId
        ((s.client frame.header.channelId).map fun c : ClientSide => { c with ended := c.ended || frame.header.kind.ends }))
  | .relayCalled call => if bringsFrame call then none else some (s.relayDoes (s.relay.step session limits call))

def run (session : Session) (limits : Lane → Limit) (s : Exchange) : List Act → Option Exchange
  | [] => some s
  | act :: acts => (s.step session limits act).bind fun s' => run session limits s' acts

/-! ## Crossings -/

def endedByWorker (s : Exchange) (id : Utf16) : Bool := s.relay.log.any (Event.endsChannel id)

/-- While the socket is open the relay takes no frame of the client on a channel after the worker's end of it, and no
close of the client while 1024 others are not answered. -/
def Meets (s : Exchange) : Act → Prop
  | .relayTakesClient _ =>
    ∀ frame ∈ s.toRelay.head?, s.relay.isOpen →
      (frame.header.kind.isOpen = false → s.endedByWorker frame.header.channelId = false) ∧
      (frame.header.kind = .close → s.relay.closing.length < 1024)
  | _ => True

instance (s : Exchange) : (act : Act) → Decidable (s.Meets act)
  | .relayTakesClient _ =>
    inferInstanceAs (Decidable (∀ frame ∈ s.toRelay.head?, s.relay.isOpen →
      (frame.header.kind.isOpen = false → s.endedByWorker frame.header.channelId = false) ∧
      (frame.header.kind = .close → s.relay.closing.length < 1024)))
  | .clientSends _ | .workerTakes | .workerSends _ | .relayTakesWorker _ _ | .clientTakes | .relayCalled _ => isTrue trivial

def MeetsAlong (session : Session) (limits : Lane → Limit) (s : Exchange) : List Act → Prop
  | [] => True
  | act :: acts => s.Meets act ∧ ∀ s' ∈ s.step session limits act, MeetsAlong session limits s' acts

instance MeetsAlong.decidable (session : Session) (limits : Lane → Limit) :
    ∀ (s : Exchange) (acts : List Act), Decidable (MeetsAlong session limits s acts)
  | _, [] => isTrue trivial
  | s, act :: acts =>
    have (s' : Exchange) := MeetsAlong.decidable session limits s' acts
    inferInstanceAs (Decidable (s.Meets act ∧ ∀ s' ∈ s.step session limits act, MeetsAlong session limits s' acts))

end Exchange

end Cantrip.Relay
