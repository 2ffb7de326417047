import Mathlib.Logic.Function.Basic
import Mathlib.Data.List.Basic

/-!
# The live hub (`live/hub.rs`)

Connections subscribe to scopes, and every publication of an owner is numbered, kept for replay and sent to the
connections that are subscribed to its scope. The state is behind one lock, so that an operation is one step up to
its awaits. A connection has the number under which it was attached. What a socket answers to a sending is left open:
the sendings are numbered, and each has its answer.

The log tells what was published, what was sent to whom and which connections were closed.
-/

namespace Cantrip.Live

/-- A scope is what its key is made from. -/
inductive Scope
  | currentUser
  | project (projectId : String)
  | chat (chatId : String)
  deriving DecidableEq

/-- A publication with its number, as it is retained and sent. -/
structure Event where
  owner : String
  cursor : Nat
  scope : Scope
  bytes : Nat
  deriving DecidableEq

/-- What is to be published: the bytes of the event at a cursor, where the schema takes it. -/
structure Publication where
  owner : String
  scope : Scope
  encoded : Nat → Option Nat

inductive Reason
  | serverEpochChanged
  | cursorExpired
  deriving DecidableEq

inductive Code
  | invalidMessage
  | notInitialized
  | alreadyInitialized
  | unsupportedVersion
  | unauthorizedScope
  | subscriptionLimit
  | payloadTooLarge
  deriving DecidableEq

/-- The messages that can answer a request, which are remembered. -/
inductive Reply
  | subscribed (requestId : String) (scopes : List Scope) (cursor : Nat)
  | unsubscribed (requestId : String) (scopes : List Scope) (cursor : Nat)
  | resyncRequired (cursor : Nat) (reason : Reason) (scopes : List Scope)
  | error (requestId : Option String) (code : Code)
  deriving DecidableEq

inductive Mode
  | notRequested
  | replaying
  | resyncRequired
  deriving DecidableEq

inductive Message
  | ready (currentCursor : Nat) (resume : Mode)
  | event (event : Event)
  | caughtUp (cursor replayedCount : Nat)
  | pong (cursor : Nat)
  /-- A request to the client. -/
  | control
  | reply (reply : Reply)
  deriving DecidableEq

inductive Entry
  | published (event : Event)
  | sent (id : Nat) (message : Message)
  | closed (id : Nat)
  deriving DecidableEq

/-! ## State -/

structure Resume where
  cursor : Nat
  reason : Option Reason
  deriving DecidableEq

/-- `Connection`, with its `Local`. -/
structure Connection where
  owner : String
  closed : Bool
  initialized : Bool
  violations : Nat
  history : List (String × Reply)
  resume : Option Resume
  scopes : List Scope

def Connection.fresh (owner : String) : Connection :=
  { owner, closed := false, initialized := false, violations := 0, history := [], resume := none, scopes := [] }

inductive Kind
  | subscribe
  | resyncAck (cursor : Nat)
  deriving DecidableEq

structure Request where
  kind : Kind
  requestId : String
  scopes : List Scope

structure Hub where
  closed : Bool
  attached : Nat
  connection : Nat → Connection
  subscribers : String → Scope → List Nat
  cursors : String → Nat
  replay : List Event
  replayBytes : Nat
  pending : Nat → Option Request
  sends : Nat
  log : List Entry

def Hub.start : Hub :=
  { closed := false, attached := 0, connection := fun _ => { Connection.fresh "" with closed := true }, subscribers := fun _ _ => [],
    cursors := fun _ => 0, replay := [], replayBytes := 0, pending := fun _ => none, sends := 0, log := [] }

structure Options where
  epoch : String
  maxBufferedBytes : Nat
  maxReplayEvents : Nat
  maxReplayBytes : Nat
  /-- The bytes of a message that is not an event. -/
  size : Message → Nat

def Options.bytes (o : Options) : Message → Nat
  | .event e => e.bytes
  | m => o.size m

/-- What a socket says at one sending. -/
structure Answer where
  isOpen : Bool
  bufferedAmount : Nat
  takes : Bool

namespace Hub

def write (h : Hub) (entry : Entry) : Hub := { h with log := h.log ++ [entry] }

def setConnection (h : Hub) (id : Nat) (c : Connection) : Hub := { h with connection := Function.update h.connection id c }

/-! ## Subscriptions -/

def removeSubscription (h : Hub) (id : Nat) (scope : Scope) : Hub :=
  let c := h.connection id
  if scope ∈ c.scopes then
    { h.setConnection id { c with scopes := c.scopes.erase scope } with
      subscribers := fun owner s =>
        if owner = c.owner ∧ s = scope then (h.subscribers owner s).erase id else h.subscribers owner s }
  else h

def addSubscription (h : Hub) (id : Nat) (scope : Scope) : Hub :=
  let c := h.connection id
  if c.closed then h
  else if scope ∈ c.scopes then h
  else
    { h.setConnection id { c with scopes := c.scopes ++ [scope] } with
      subscribers := fun owner s =>
        if owner = c.owner ∧ s = scope then
          if id ∈ h.subscribers owner s then h.subscribers owner s else h.subscribers owner s ++ [id]
        else h.subscribers owner s }

def removeSubscriptions (h : Hub) (id : Nat) (scopes : List Scope) : Hub :=
  scopes.foldl (fun h scope => h.removeSubscription id scope) h

def addSubscriptions (h : Hub) (id : Nat) (scopes : List Scope) : Hub :=
  scopes.foldl (fun h scope => h.addSubscription id scope) h

def replaceSubscriptions (h : Hub) (id : Nat) (scopes : List Scope) : Hub :=
  if (h.connection id).closed then h
  else (h.removeSubscriptions id ((h.connection id).scopes.filter fun old => !scopes.contains old)).addSubscriptions id scopes

/-! ## Sending -/

/-- `disconnect_connection`, and `close_connection` as far as the hub is concerned. -/
def disconnectConnection (h : Hub) (id : Nat) : Hub :=
  let c := h.connection id
  if c.closed then h
  else ((h.setConnection id { c with closed := true }).removeSubscriptions id c.scopes).write (.closed id)

section Sending

variable (o : Options) (socket : Nat → Answer)

def sendEncoded (h : Hub) (id : Nat) (message : Message) : Hub × Bool :=
  let answer := socket h.sends
  let h := { h with sends := h.sends + 1 }
  if (h.connection id).closed || !answer.isOpen then (h.disconnectConnection id, false)
  else if answer.bufferedAmount + o.bytes message > o.maxBufferedBytes then (h.disconnectConnection id, false)
  else if !answer.takes then (h.disconnectConnection id, false)
  else (h.write (.sent id message), true)

def send (h : Hub) (id : Nat) (message : Message) : Hub := (h.sendEncoded o socket id message).1

def violation (h : Hub) (id : Nat) (requestId : Option String) (code : Code) : Hub :=
  let c := h.connection id
  let h := (h.setConnection id { c with violations := c.violations + 1 }).send o socket id (.reply (.error requestId code))
  if (h.connection id).violations ≥ 5 then h.disconnectConnection id else h

def remember (h : Hub) (id : Nat) (requestId : String) (reply : Reply) : Hub :=
  let c := h.connection id
  let history :=
    if c.history.any fun e => e.1 = requestId then c.history.map fun e => if e.1 = requestId then (requestId, reply) else e
    else c.history ++ [(requestId, reply)]
  h.setConnection id { c with history := if history.length > 256 then history.tail else history }

def rememberSend (h : Hub) (id : Nat) (requestId : String) (reply : Reply) : Hub :=
  (h.remember id requestId reply).send o socket id (.reply reply)

def resumeReason (h : Hub) (owner epoch : String) (cursor : Nat) : Option Reason :=
  if epoch ≠ o.epoch then some .serverEpochChanged
  else
    let current := h.cursors owner
    let oldest := (h.replay.find? fun e => e.owner = owner).map Event.cursor
    if cursor > current ∨ (oldest.elim false fun first => decide (cursor < first - 1)) = true ∨ oldest = none ∧ cursor ≠ current then
      some .cursorExpired
    else none

/-- The sendings of a replay, up to the first that fails, and how many were made. -/
def replayEvents (h : Hub) (id : Nat) : List Event → Nat → Hub × Option Nat
  | [], count => (h, some count)
  | e :: events, count =>
    let result := h.sendEncoded o socket id (.event e)
    if result.2 then result.1.replayEvents id events (count + 1) else (result.1, none)

def replayFrom (h : Hub) (id : Nat) (cursor : Nat) : Hub :=
  let h := h.setConnection id { h.connection id with resume := none }
  let c := h.connection id
  let events := h.replay.filter fun e => e.owner = c.owner ∧ e.cursor > cursor ∧ e.scope ∈ c.scopes
  let result := h.replayEvents o socket id events 0
  match result.2 with
  | none => result.1
  | some count => result.1.send o socket id (.caughtUp (result.1.cursors c.owner) count)

def finishResume (h : Hub) (id : Nat) : Hub :=
  let c := h.connection id
  match c.resume with
  | none => h
  | some resume =>
    match resume.reason with
    | some reason => h.send o socket id (.reply (.resyncRequired (h.cursors c.owner) reason c.scopes))
    | none => h.replayFrom o socket id resume.cursor

/-! ## Publishing -/

/-- The oldest events go, whoever they are of. -/
def evict : List Event → Nat → List Event × Nat
  | [], bytes => ([], bytes)
  | e :: events, bytes =>
    if (e :: events).length > o.maxReplayEvents ∨ bytes > o.maxReplayBytes then evict events (bytes - e.bytes)
    else (e :: events, bytes)

def eligible (h : Hub) (id : Nat) : Bool := (h.connection id).initialized && (h.connection id).resume.isNone

/-- The event goes to the subscribers that are past their resume. -/
def deliver (h : Hub) (e : Event) (ids : List Nat) : Hub :=
  ids.foldl (fun h id => if h.eligible id then h.send o socket id (.event e) else h) h

def retain (h : Hub) (e : Event) : Hub :=
  let kept := evict o (h.replay ++ [e]) (h.replayBytes + e.bytes)
  { h with cursors := Function.update h.cursors e.owner e.cursor, replay := kept.1, replayBytes := kept.2,
           log := h.log ++ [.published e] }

/-- `publication`: nothing where it is refused. -/
def publication (h : Hub) (p : Publication) : Option Hub :=
  if h.closed then none
  else
    (p.encoded (h.cursors p.owner + 1)).map fun bytes =>
      let e : Event := { owner := p.owner, cursor := h.cursors p.owner + 1, scope := p.scope, bytes }
      (h.retain o e).deliver o socket e (h.subscribers p.owner p.scope)

/-- `publish_group`, up to the first that is refused. -/
def publishGroup (h : Hub) : List Publication → Hub
  | [] => h
  | p :: publications =>
    match h.publication o socket p with
    | none => h
    | some h => h.publishGroup publications

end Sending

end Hub

end Cantrip.Live
