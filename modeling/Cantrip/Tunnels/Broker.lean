import Cantrip.Lib.Keyed
import Cantrip.Tunnels.Frame

/-!
# The tunnel broker (`tunnels/broker/mod.rs`, `tunnels/broker/receive.rs`)

A route joins a source and a destination endpoint and carries any number of connections. The broker forwards
the frames of a connection unchanged while they are in order, and ends the connection at the first that is
not. What the callbacks answer is given with every call; they do not call the broker back, so a route or a
connection that was there before a callback is there after it. The order of the calls of `send` is kept in a log.
-/

namespace Cantrip.Tunnels

open Lib

/-- The limits of a broker. `elapsed now then ms` is `now - then >= ms` on whatever the clock shows. -/
structure Options (Time : Type) where
  idleMs : Nat
  lifetimeMs : Nat
  bytesPerSecond : Nat
  maxConnections : Nat
  maxConnectionsPerTunnel : Nat
  maxRoutes : Nat
  elapsed : Time → Time → Nat → Bool

structure Registration where
  tunnel : Utf16
  attachment : Utf16
  source : Utf16
  destination : Utf16
  target : Target
  owner : Option Utf16
  worker : Option Utf16
  diagnostic : Option Utf16
  deriving DecidableEq

structure Route where
  serial : Nat
  registration : Registration
  deriving DecidableEq

def Route.key (route : Route) : Utf16 := route.registration.tunnel ++ 0 :: route.registration.attachment

def connectionKey (route : Route) (id : Utf16) : Utf16 := route.key ++ 0 :: id

/-- What is kept of one side: `source_sequence`, `source_credit` and `source_half`, or those of the destination. -/
structure Flow where
  /-- The sequence of its next frame. -/
  sequence : Nat
  /-- The bytes that it may still send. -/
  credit : Nat
  half : Bool
  deriving DecidableEq

structure Connection (Time : Type) where
  serial : Nat
  route : Route
  id : Utf16
  created : Time
  last : Time
  window : Time
  bandwidth : Nat
  source : Flow
  destination : Flow
  isOpen : Bool

namespace Connection

variable {Time : Type}

def key (c : Connection Time) : Utf16 := connectionKey c.route c.id

def flow (c : Connection Time) : Side → Flow
  | .source => c.source
  | .destination => c.destination

def setFlow (c : Connection Time) (side : Side) (flow : Flow) : Connection Time :=
  match side with
  | .source => { c with source := flow }
  | .destination => { c with destination := flow }

/-- `Broker::allowed`. -/
def allowed (c : Connection Time) (sender : Side) : Kind → Bool
  | .open _ | .connect .. => false
  | .accepted _ | .rejected _ => sender = .destination && !c.isOpen
  | .data direction _ => c.isOpen && !(c.flow sender).half && direction = sender.direction
  | .credit direction _ => direction = sender.other.direction
  | .halfClose direction => !(c.flow sender).half && direction = sender.direction
  | .close _ | .error _ => true

end Connection

inductive Origin
  | connect | forwarded | closing | refusal
  deriving DecidableEq, Repr

/-- One call of `send_source` or `send_destination`. -/
structure Entry where
  /-- The connection it belongs to; none for the refusal of a new one. -/
  connection : Option Nat
  origin : Origin
  recipient : Side
  header : Header
  payload : Bytes
  delivered : Bool

structure Broker (Time : Type) where
  routes : List Route
  connections : List (Connection Time)
  bytesFrom : Nat
  bytesTo : Nat
  closed : Nat
  opened : Nat
  rejected : Nat
  terminations : CloseCode → Nat
  /-- Every route that was ever registered: its handle may be used at any later time. -/
  issued : List Route
  log : List Entry

/-- What the callbacks answer during a call. -/
structure Answers (Time : Type) where
  activity : Bool
  now : Time
  /-- The clock at a data frame, read a second time. -/
  later : Time
  consume : Bool
  sent : Bool
  closing : Nat → Side → Bool

namespace Broker

variable {Time : Type}

def new : Broker Time :=
  { routes := [], connections := [], bytesFrom := 0, bytesTo := 0, closed := 0, opened := 0, rejected := 0,
    terminations := fun _ => 0, issued := [], log := [] }

def find (b : Broker Time) (key : Utf16) : Option (Connection Time) := b.connections.find? fun c => c.key = key

def put (b : Broker Time) (c : Connection Time) : Broker Time :=
  { b with connections := putKey Connection.key c b.connections }

def record (b : Broker Time) (entry : Entry) : Broker Time := { b with log := b.log ++ [entry] }

def register (options : Options Time) (b : Broker Time) (registration : Registration) : Broker Time × Option Route :=
  let route : Route := ⟨b.issued.length, registration⟩
  if registration.source = registration.destination then (b, none)
  else if b.routes.any fun r => r.key = route.key then (b, none)
  else if options.maxRoutes ≤ b.routes.length then (b, none)
  else ({ b with routes := b.routes ++ [route], issued := b.issued ++ [route] }, some route)

def currentRoute (b : Broker Time) (route : Route) : Bool :=
  (b.routes.find? fun r => r.key = route.key).any fun r => r.serial = route.serial

/-- The header of a frame that the broker makes. -/
def identities (route : Route) (id : Utf16) (sequence : Nat) (kind : Kind) : Header :=
  { tunnelId := route.registration.tunnel, attachmentId := route.registration.attachment,
    sourceEndpointId := route.registration.source, destinationEndpointId := route.registration.destination,
    connectionId := id, sequence, kind }

def finish (b : Broker Time) (c : Connection Time) : Broker Time :=
  if (b.find c.key).isSome then
    { b with connections := b.connections.filter fun other => other.key ≠ c.key, closed := b.closed + 1 }
  else b

/-- The close frame that the broker sends to one side, numbered as the next frame of the other. -/
def closeEntry (c : Connection Time) (reason : CloseCode) (recipient : Side) (delivered : Bool) : Entry :=
  { connection := some c.serial, origin := .closing, recipient,
    header := identities c.route c.id (c.flow recipient.other).sequence (.close reason), payload := [], delivered }

def terminate (b : Broker Time) (c : Connection Time) (reason : CloseCode) (closing : Nat → Side → Bool) : Broker Time :=
  if (b.find c.key).isSome then
    let b := { b with terminations := fun r => if r = reason then b.terminations r + 1 else b.terminations r }
    let b := b.record (closeEntry c reason .source (closing c.serial .source))
    let b := b.record (closeEntry c reason .destination (closing c.serial .destination))
    b.finish c
  else b

def forwardEntry (c : Connection Time) (sender : Side) (header : Header) (payload : Bytes) (delivered : Bool) : Entry :=
  { connection := some c.serial, origin := .forwarded, recipient := sender.other, header, payload, delivered }

def forward (b : Broker Time) (c : Connection Time) (sender : Side) (header : Header) (payload : Bytes)
    (answers : Answers Time) : Broker Time :=
  let b := b.record (forwardEntry c sender header payload answers.sent)
  if answers.sent then b else b.terminate c .congested answers.closing

def remove (b : Broker Time) (route : Route) (reason : CloseCode) (closing : Nat → Side → Bool) : Broker Time :=
  if b.currentRoute route then
    let connections := b.connections.filter fun c => c.route.serial = route.serial
    let b := { b with routes := b.routes.filter fun r => r.key ≠ route.key }
    connections.foldl (fun b c => b.terminate c reason closing) b
  else b

def revokeAttachment (b : Broker Time) (attachment : Utf16) (closing : Nat → Side → Bool) : Broker Time :=
  (b.routes.filter fun r => r.registration.attachment = attachment).foldl (fun b r => b.remove r .revoked closing) b

/-- Why a sweep ends the connection. -/
def expiry (options : Options Time) (now : Time) (c : Connection Time) : Option CloseCode :=
  if options.elapsed now c.created options.lifetimeMs then some .lifetimeExpired
  else if options.elapsed now c.last options.idleMs then some .idleTimeout
  else none

def sweep (options : Options Time) (b : Broker Time) (now : Time) (closing : Nat → Side → Bool) : Broker Time :=
  b.connections.foldl (fun b c =>
    match expiry options now c with
    | some reason => b.terminate c reason closing
    | none => b) b

def close (b : Broker Time) (closing : Nat → Side → Bool) : Broker Time :=
  b.routes.foldl (fun b r => b.remove r .endpointDisconnected closing) b

/-! ## Frames -/

def reject (b : Broker Time) (route : Route) (id : Utf16) (code : RejectionCode) (answers : Answers Time) : Broker Time :=
  { b with rejected := b.rejected + 1 }.record
    { connection := none, origin := .refusal, recipient := .source, header := identities route id 0 (.rejected code),
      payload := [], delivered := answers.sent }

def full (options : Options Time) (b : Broker Time) (tunnel : Utf16) : Bool :=
  options.maxConnections ≤ b.connections.length ||
    options.maxConnectionsPerTunnel ≤ (b.connections.filter fun c => c.route.registration.tunnel = tunnel).length

def opening (b : Broker Time) (route : Route) (id : Utf16) (credit : Credit) (now : Time) : Connection Time :=
  { serial := b.opened, route, id, created := now, last := now, window := now, bandwidth := 0,
    source := { sequence := 1, credit := 0, half := false },
    destination := { sequence := 0, credit := credit.bytes, half := false }, isOpen := false }

def connectEntry (c : Connection Time) (credit : Credit) (delivered : Bool) : Entry :=
  -- an empty diagnostic identity is left out
  let diagnostic := c.route.registration.diagnostic.filter fun text => !text.isEmpty
  { connection := some c.serial, origin := .connect, recipient := .destination,
    header := identities c.route c.id 0 (.connect c.route.registration.target credit diagnostic), payload := [], delivered }

/-- A new connection, offered to the destination. -/
def connect (b : Broker Time) (route : Route) (id : Utf16) (credit : Credit) (answers : Answers Time) : Broker Time :=
  let c := b.opening route id credit answers.now
  let b := { b with connections := b.connections ++ [c], opened := b.opened + 1 }
  let b := b.record (connectEntry c credit answers.sent)
  if answers.sent then b else b.terminate c .congested answers.closing

/-- A frame that belongs to no connection: only an opening by the source means anything. -/
def receiveNew (options : Options Time) (b : Broker Time) (route : Route) (sender : Side) (header : Header)
    (payload : Bytes) (answers : Answers Time) : Broker Time :=
  match sender, header.kind with
  | .source, .open credit =>
    if header.sequence ≠ 0 ∨ !header.kind.admits payload then b.reject route header.connectionId .protocolError answers
    else if b.full options route.registration.tunnel then b.reject route header.connectionId .limitExceeded answers
    else if !b.currentRoute route then b
    else if !answers.activity then b.reject route header.connectionId .unauthorized answers
    else b.connect route header.connectionId credit answers
  | _, _ => b

/-- `owner` and `worker` are there, so that the bytes count for a quota. -/
def metered (registration : Registration) : Bool :=
  (registration.owner.any fun text => !text.isEmpty) && registration.worker.any fun text => !text.isEmpty

def throttled (options : Options Time) (c : Connection Time) (bytes : Nat) (later : Time) : Connection Time :=
  let c := if options.elapsed later c.window 1000 then { c with window := later, bandwidth := 0 } else c
  { c with bandwidth := c.bandwidth + bytes }

def receiveData (options : Options Time) (b : Broker Time) (c : Connection Time) (route : Route) (sender : Side)
    (header : Header) (payload : Bytes) (answers : Answers Time) : Broker Time :=
  let c := throttled options c payload.length answers.later
  let b := b.put c
  if options.bytesPerSecond < c.bandwidth then b.terminate c .bandwidthLimit answers.closing
  else if metered route.registration && !answers.consume then b.terminate c .bandwidthLimit answers.closing
  else
    let flow := c.flow sender
    if flow.credit < header.kind.flow payload then b.terminate c .protocolError answers.closing
    else
      let c := c.setFlow sender { flow with credit := flow.credit - header.kind.flow payload }
      let b := b.put c
      let b := match sender with
        | .source => { b with bytesFrom := b.bytesFrom + payload.length }
        | .destination => { b with bytesTo := b.bytesTo + payload.length }
      b.forward c sender header payload answers

/-- A frame in order, of a connection that is in `b` as `c`. -/
def receiveKind (options : Options Time) (b : Broker Time) (c : Connection Time) (route : Route) (sender : Side)
    (header : Header) (payload : Bytes) (answers : Answers Time) : Broker Time :=
  match header.kind with
  | .accepted credit =>
    let c := { c with isOpen := true, source := { c.source with credit := credit.bytes } }
    (b.put c).forward c .destination header payload answers
  | .rejected _ =>
    ({ b with rejected := b.rejected + 1 }.forward c .destination header payload answers).finish c
  | .data .. => b.receiveData options c route sender header payload answers
  | .credit _ bytes =>
    let flow := c.flow sender.other
    if maxCreditBytes < flow.credit + bytes.bytes then b.terminate c .protocolError answers.closing
    else
      let c := c.setFlow sender.other { flow with credit := flow.credit + bytes.bytes }
      (b.put c).forward c sender header payload answers
  | .halfClose _ =>
    let c := c.setFlow sender { c.flow sender with half := true }
    (b.put c).forward c sender header payload answers
  | .close _ | .error _ => (b.forward c sender header payload answers).finish c
  | .open _ | .connect .. => b

def receiveOn (options : Options Time) (b : Broker Time) (c : Connection Time) (route : Route) (sender : Side)
    (header : Header) (payload : Bytes) (answers : Answers Time) : Broker Time :=
  if !header.kind.admits payload then b.terminate c .protocolError answers.closing
  else
    let flow := c.flow sender
    if header.sequence ≠ flow.sequence then b.terminate c .protocolError answers.closing
    else
      -- the sequence is used up before the frame is judged
      let c := { c.setFlow sender { flow with sequence := flow.sequence + 1 } with last := answers.now }
      let b := b.put c
      if !c.allowed sender header.kind then b.terminate c .protocolError answers.closing
      else if !(answers.activity && b.currentRoute route) then b.terminate c .endpointDisconnected answers.closing
      else b.receiveKind options c route sender header payload answers

def receive (options : Options Time) (b : Broker Time) (route : Route) (sender : Side) (header : Header)
    (payload : Bytes) (answers : Answers Time) : Broker Time :=
  let r := route.registration
  if header.tunnelId ≠ r.tunnel ∨ header.attachmentId ≠ r.attachment ∨ header.sourceEndpointId ≠ r.source ∨
      header.destinationEndpointId ≠ r.destination then b
  else
    match b.find (connectionKey route header.connectionId) with
    | none => b.receiveNew options route sender header payload answers
    | some c => b.receiveOn options c route sender header payload answers

end Broker

/-- A call of the broker or of the handle of a route, which is given by its number. -/
inductive Call (Time : Type)
  | register (registration : Registration)
  | receive (route : Nat) (sender : Side) (header : Header) (payload : Bytes) (answers : Answers Time)
  | revokeAttachment (attachment : Utf16) (closing : Nat → Side → Bool)
  | sweep (now : Time) (closing : Nat → Side → Bool)
  | close (closing : Nat → Side → Bool)
  | closeRoute (route : Nat) (closing : Nat → Side → Bool)
  | disconnectRoute (route : Nat) (closing : Nat → Side → Bool)

namespace Broker

variable {Time : Type}

def step (options : Options Time) (b : Broker Time) : Call Time → Broker Time
  | .register registration => (b.register options registration).1
  | .receive route sender header payload answers =>
    match b.issued[route]? with
    | some route => b.receive options route sender header payload answers
    | none => b
  | .revokeAttachment attachment closing => b.revokeAttachment attachment closing
  | .sweep now closing => b.sweep options now closing
  | .close closing => b.close closing
  | .closeRoute route closing =>
    match b.issued[route]? with
    | some route => b.remove route .normal closing
    | none => b
  | .disconnectRoute route closing =>
    match b.issued[route]? with
    | some route => b.remove route .endpointDisconnected closing
    | none => b

def run (options : Options Time) (calls : List (Call Time)) : Broker Time := calls.foldl (step options) new

end Broker

end Cantrip.Tunnels
