import Cantrip.Live.Hub

/-!
# Client messages (`live/hub/protocol.rs`)

The frames of one connection are handled one after the other. A request for scopes waits until they are authorized,
and is gone on with at any later time; whatever else happens in between.
-/

namespace Cantrip.Live

namespace Hub

section Messages

variable (o : Options) (socket : Nat → Answer)

def initializeWith (h : Hub) (id : Nat) (resume : Option (String × Nat)) : Hub :=
  let c := h.connection id
  if c.initialized then h.violation o socket id none .alreadyInitialized
  else
    let resumed : Option Resume := resume.map fun r => ⟨r.2, h.resumeReason o c.owner r.1 r.2⟩
    let mode := resumed.elim Mode.notRequested fun r => if r.reason.isSome then .resyncRequired else .replaying
    (h.setConnection id { c with initialized := true, resume := resumed.or c.resume }).send o socket id
      (.ready (h.cursors c.owner) mode)

def ping (h : Hub) (id : Nat) : Hub :=
  let c := h.connection id
  if c.initialized then h.send o socket id (.pong (h.cursors c.owner)) else h.violation o socket id none .notInitialized

def answered (c : Connection) (requestId : String) : Option Reply := (c.history.find? fun e => e.1 = requestId).map Prod.snd

def unsubscribe (h : Hub) (id : Nat) (requestId : String) (scopes : List Scope) : Hub :=
  let c := h.connection id
  if c.initialized = false then h.violation o socket id (some requestId) .notInitialized
  else
    match answered c requestId with
    | some previous => h.send o socket id (.reply previous)
    | none => (h.removeSubscriptions id scopes).rememberSend o socket id requestId (.unsubscribed requestId scopes (h.cursors c.owner))

/-- `subscribe` and `resync-ack` up to the authorization. -/
def request (h : Hub) (id : Nat) (r : Request) : Hub :=
  let c := h.connection id
  if c.initialized = false then h.violation o socket id (some r.requestId) .notInitialized
  else
    match answered c r.requestId with
    | some previous => h.send o socket id (.reply previous)
    | none =>
      if r.kind = .subscribe ∧ (c.scopes.union r.scopes).length > 128 then
        h.rememberSend o socket id r.requestId (.error (some r.requestId) .subscriptionLimit)
      else { h with pending := Function.update h.pending id (some r) }

/-- `subscribe` with authorized scopes. -/
def subscribe (h : Hub) (id : Nat) (r : Request) : Hub :=
  ((h.addSubscriptions id r.scopes).rememberSend o socket id r.requestId
    (.subscribed r.requestId r.scopes (h.cursors (h.connection id).owner))).finishResume o socket id

/-- `resync-ack` with authorized scopes. -/
def resyncAck (h : Hub) (id : Nat) (r : Request) (cursor : Nat) : Hub :=
  let owner := (h.connection id).owner
  let reason := h.resumeReason o owner o.epoch cursor
  let h := h.replaceSubscriptions id r.scopes
  match reason with
  | some reason =>
    (h.setConnection id { h.connection id with resume := some ⟨cursor, some reason⟩ }).rememberSend o socket id r.requestId
      (.resyncRequired (h.cursors owner) reason (h.connection id).scopes)
  | none =>
    (h.rememberSend o socket id r.requestId (.subscribed r.requestId r.scopes (h.cursors owner))).replayFrom o socket id cursor

def authorized (h : Hub) (id : Nat) (r : Request) (allowed : Bool) : Hub :=
  let h := { h with pending := Function.update h.pending id none }
  if allowed = false then h.rememberSend o socket id r.requestId (.error (some r.requestId) .unauthorizedScope)
  else
    match r.kind with
    | .subscribe => h.subscribe o socket id r
    | .resyncAck cursor => h.resyncAck o socket id r cursor

end Messages

/-! ## Steps -/

/-- The number of the new connection is the next one. -/
def attach (h : Hub) (owner : String) : Hub :=
  { h.setConnection h.attached (.fresh owner) with attached := h.attached + 1 }

def closeAll (h : Hub) : Hub := (List.range h.attached).foldl (fun h id => h.disconnectConnection id) { h with closed := true }

end Hub

inductive Act
  | attach (owner : String)
  | initializeWith (id : Nat) (resume : Option (String × Nat))
  | ping (id : Nat)
  | unsubscribe (id : Nat) (requestId : String) (scopes : List Scope)
  | request (id : Nat) (request : Request)
  | authorized (id : Nat) (allowed : Bool)
  /-- A frame that is not a message. -/
  | malformed (id : Nat) (requestId : Option String) (code : Code)
  | control (id : Nat)
  /-- `publish`, `publish_group`, `publish_confirmed` and `receive_external`. -/
  | publish (publications : List Publication)
  /-- The socket is gone, its session was revoked or is no longer active, or its heartbeat timed out. -/
  | disconnect (id : Nat)
  | close

namespace Hub

section Steps

variable (o : Options) (socket : Nat → Answer)

/-- The connection is there, and none of its frames is being handled. -/
def handles (h : Hub) (id : Nat) : Prop := id < h.attached ∧ (h.pending id).isNone

instance (h : Hub) (id : Nat) : Decidable (h.handles id) := inferInstanceAs (Decidable (_ ∧ _))

def step (h : Hub) : Act → Option Hub
  | .attach owner => if h.closed then none else some (h.attach owner)
  | .initializeWith id resume => if h.handles id then some (h.initializeWith o socket id resume) else none
  | .ping id => if h.handles id then some (h.ping o socket id) else none
  | .unsubscribe id requestId scopes => if h.handles id then some (h.unsubscribe o socket id requestId scopes) else none
  | .request id r => if h.handles id then some (h.request o socket id r) else none
  | .authorized id allowed => (h.pending id).map fun r => h.authorized o socket id r allowed
  | .malformed id requestId code => if h.handles id then some (h.violation o socket id requestId code) else none
  | .control id => if id < h.attached then some (h.send o socket id .control) else none
  | .publish publications => some (h.publishGroup o socket publications)
  | .disconnect id => if id < h.attached then some (h.disconnectConnection id) else none
  | .close => some h.closeAll

def run (h : Hub) : List Act → Option Hub
  | [] => some h
  | act :: acts => (h.step o socket act).bind fun h => h.run acts

end Steps

end Hub

end Cantrip.Live
