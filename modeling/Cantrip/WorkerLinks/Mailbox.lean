import Cantrip.Lib.Run
import Cantrip.Wire.Syntax
import Mathlib.Logic.Function.Basic

/-!
# The mailbox of a peer (`worker_links/peers.rs`)

A peer has two boxes of messages from its worker, which the client reads, and a queue in which the signals of the client
go to the worker one at a time. The record of the peer can be removed at any time; who has found it before may still come
to it.
-/

namespace Cantrip.WorkerLinks.Mailbox

open Lib Wire

variable {F : Numbers}

inductive Kind
  | signal
  | advertisement
  deriving DecidableEq

/-- A checked envelope or advertisement: the fields that are looked at, and all of it. -/
structure Message (F : Numbers) where
  sessionId : String
  routeGeneration : Nat
  route : String
  sequence : Nat
  value : Value F

structure Authority where
  peerSessionId : String
  sessionId : String
  routeGeneration : Nat
  route : String
  expiresAt : Int

/-- How far the call of `signal_peer` is that has its turn. -/
inductive Turn (F : Numbers)
  | allowed (envelope : Message F)
  | handed (envelope : Message F)
  /-- The worker has accepted it, and the peer was still there. -/
  | confirmed (envelope : Message F)

/-- `signals` and `advertisements` with `last_worker` and `last_advertisement`. -/
structure PeerState (F : Numbers) where
  ready : Bool := false
  peer : Authority
  records : Kind → List (Message F) := fun _ => []
  last : Kind → Int := fun _ => -1
  lastClient : Int := -1
  signalQueue : Option (Turn F) := none

structure State (F : Numbers) where
  workerId : String
  current : Bool := true
  listed : Bool := true
  /-- A violation has been seen, and the peer is still to be removed. -/
  revoking : Bool := false
  record : PeerState F

def start (workerId : String) (peer : Authority) : State F := { workerId, record := { peer } }

def MAX_PEER_SIGNALS : Nat := 256

def MAX_PEER_SIGNALING_BYTES : Nat := 4 * 1024 * 1024

/-! ## From the worker -/

def boxes (signals advertisements : List (Message F)) : Value F :=
  .object [(jsText "signals", .array (signals.map Message.value)),
    (jsText "candidateAdvertisements", .array (advertisements.map Message.value))]

namespace PeerState

def push (p : PeerState F) (kind : Kind) (message : Message F) : PeerState F :=
  { p with
    records := Function.update p.records kind (p.records kind ++ [message])
    last := Function.update p.last kind message.sequence }

def size (p : PeerState F) : Nat := byteLength (boxes (p.records .signal) (p.records .advertisement))

/-- There is no room for one more. -/
def full (p : PeerState F) (kind : Kind) (message : Message F) : Bool :=
  (p.records kind).length ≥ MAX_PEER_SIGNALS || (p.push kind message).size > MAX_PEER_SIGNALING_BYTES

/-- Whether the message is not of this peer, or comes too late. -/
def foreign (p : PeerState F) (message : Message F) (now : Int) : Bool :=
  message.sessionId ≠ p.peer.sessionId || message.routeGeneration ≠ p.peer.routeGeneration || message.route ≠ p.peer.route ||
    p.peer.expiresAt ≤ now

end PeerState

inductive Verdict
  | violation
  | known
  | taken
  deriving DecidableEq

/-- What `receive_notification` finds under the lock of the record. -/
def State.judge (s : State F) (kind : Kind) (worker : String) (message : Message F) (now : Int) : Verdict :=
  let p := s.record
  if s.workerId ≠ worker || p.foreign message now then .violation
  else if (message.sequence : Int) ≤ p.last kind then
    match (p.records kind).find? fun m => m.sequence = message.sequence with
    | some m => if stringify m.value ≠ stringify message.value then .violation else .known
    | none => .known
  else if (message.sequence : Int) ≠ p.last kind + 1 || p.full kind message then .violation
  else .taken

/-! ## Steps -/

/-- The sequences after which a client reads. -/
abbrev Cursors := Kind → Option Nat

inductive Event (F : Numbers)
  /-- The worker has answered the installation, for the route that the session has or not. -/
  | install (accepted sameGeneration : Bool)
  | renew (expiresAt : Int)
  /-- The lease has ended, the route has been replaced or the peer revoked. -/
  | revoke
  | revokeSession
  /-- A message from a worker. It finds the record as long as that is listed, or did find it before. -/
  | notify (kind : Kind) (found : Bool) (worker : String) (message : Message F) (now : Int)
  /-- The end of a peer after a violation. -/
  | revoked
  | read (found : Bool) (authorized : Bool) (after : Cursors) (now : Int)
  /-- The turn of a call of `signal_peer`. -/
  | post (authorized : Bool) (fromClient : Bool) (envelope : Message F) (now : Int)
  | hand
  | answer (accepted : Bool)
  /-- The call is dropped while the worker has the signal. -/
  | cancel
  | commit

/-- What a step shows. -/
inductive Label (F : Numbers)
  | quiet
  | refused
  | violation
  | taken (kind : Kind) (message : Message F)
  /-- A read after the cursors, with the mailbox, if that passes its own check. -/
  | mailbox (after : Cursors) (answer : Option (List (Message F) × List (Message F)))
  | handed (envelope : Message F)
  /-- `signal_peer` has come back without an error. -/
  | accepted (envelope : Message F)

/-- What is still to be read after the cursor. -/
def unread (after : Option Nat) (records : List (Message F)) : List (Message F) :=
  match after with
  | some after => records.filter fun m => after < m.sequence
  | none => records

def PeerState.retain (p : PeerState F) (after : Cursors) : PeerState F :=
  { p with records := fun kind => unread (after kind) (p.records kind) }

def PeerState.validCursor (p : PeerState F) (after : Cursors) (kind : Kind) : Bool :=
  match after kind with
  | some after => (after : Int) ≤ p.last kind
  | none => true

def mailbox (number : Nat → F.Number) (peer : Authority) (signals advertisements : List (Message F)) : Value F :=
  .object [(jsText "peerSessionId", .string (jsText peer.peerSessionId)), (jsText "sessionId", .string (jsText peer.sessionId)),
    (jsText "routeGeneration", .number (number peer.routeGeneration)), (jsText "route", .string (jsText peer.route)),
    (jsText "signals", .array (signals.map Message.value)),
    (jsText "candidateAdvertisements", .array (advertisements.map Message.value))]

/-- `workerLinkPeerMailboxSchema`: its fields are checked before, and what is left is the limit on all its bytes. -/
def fits (number : Nat → F.Number) (peer : Authority) (signals advertisements : List (Message F)) : Bool :=
  byteLength (mailbox number peer signals advertisements) ≤ MAX_PEER_SIGNALING_BYTES

def PeerState.readable (p : PeerState F) (authorized : Bool) (after : Cursors) (now : Int) : Bool :=
  authorized && p.ready && now < p.peer.expiresAt && p.validCursor after .signal && p.validCursor after .advertisement

/-- `read_peer_mailbox`. -/
def State.read (number : Nat → F.Number) (s : State F) (authorized : Bool) (after : Cursors) (now : Int) : State F × Label F :=
  let p := s.record
  if !p.readable authorized after now then (s, .refused)
  else
    let p := p.retain after
    let signals := p.records .signal
    let advertisements := p.records .advertisement
    ({ s with record := p },
      .mailbox after (if fits number p.peer signals advertisements then some (signals, advertisements) else none))

/-- `signal_peer`, from its turn to the request. -/
def State.post (s : State F) (authorized fromClient : Bool) (envelope : Message F) (now : Int) : State F × Label F :=
  let p := s.record
  if !authorized || !fromClient || !p.ready || p.foreign envelope now || !s.current || !s.listed then (s, .refused)
  else if (envelope.sequence : Int) ≠ p.lastClient + 1 then (s, .refused)
  else if envelope.sequence ≥ MAX_PEER_SIGNALS then ({ s with listed := false }, .violation)
  else ({ s with record := { p with signalQueue := some (.allowed envelope) } }, .quiet)

def State.turn (s : State F) (turn : Option (Turn F)) : State F := { s with record := { s.record with signalQueue := turn } }

def step (number : Nat → F.Number) (s : State F) : Event F → Option (State F × Label F)
  | .install accepted sameGeneration =>
    if s.record.ready then none
    else if !accepted then some ({ s with listed := false }, .quiet)
    else if s.current && s.listed && sameGeneration then some ({ s with record := { s.record with ready := true } }, .quiet)
    else some (s, .refused)
  | .renew expiresAt => some ({ s with record := { s.record with peer := { s.record.peer with expiresAt } } }, .quiet)
  | .revoke => some ({ s with listed := false }, .quiet)
  | .revokeSession => some ({ s with current := false, listed := false }, .quiet)
  | .notify kind found worker message now =>
    if found then
      match s.judge kind worker message now with
      | .violation => some ({ s with revoking := true }, .violation)
      | .known => some (s, .quiet)
      | .taken => some ({ s with record := s.record.push kind message }, .taken kind message)
    else if s.listed then none
    else some (s, .quiet)
  | .revoked => if s.revoking then some ({ s with revoking := false, listed := false }, .quiet) else none
  | .read found authorized after now =>
    if found then some (s.read number authorized after now)
    else if s.listed then none
    else some (s, .refused)
  | .post authorized fromClient envelope now =>
    match s.record.signalQueue with
    | none => some (s.post authorized fromClient envelope now)
    | some _ => none
  | .hand =>
    match s.record.signalQueue with
    | some (.allowed envelope) => some (s.turn (some (.handed envelope)), .handed envelope)
    | _ => none
  | .answer accepted =>
    match s.record.signalQueue with
    | some (.handed envelope) =>
      if !accepted then some (s.turn none, .refused)
      else if s.current && s.listed then some (s.turn (some (.confirmed envelope)), .quiet)
      else some (s.turn none, .accepted envelope)
    | _ => none
  | .cancel =>
    match s.record.signalQueue with
    | some (.handed _) => some (s.turn none, .quiet)
    | _ => none
  | .commit =>
    match s.record.signalQueue with
    | some (.confirmed envelope) =>
      some ({ s with record := { s.record with lastClient := envelope.sequence, signalQueue := none } }, .accepted envelope)
    | _ => none

end Cantrip.WorkerLinks.Mailbox
