import Mathlib.Logic.Function.Basic
import Mathlib.Data.List.Basic

/-!
# The worker bridge (`workers/bridge.rs`)

The bridge correlates the requests to a worker with its responses and events. The connection of a worker may be
interrupted; within a grace period it can be attached again. A request has a task of its own that gives its events to the
handler, one after another, and then reports the response; whatever else ends a request reports at once.

What happens under the locks is one step. A request, a generation of an interruption and a peer have numbers of their own.
The log tells which events came for a request, which were given to its handler, whether that failed and what was reported.
-/

namespace Cantrip.Workers

structure Continuity where
  owner : String
  credential : String
  processGeneration : String
  deriving DecidableEq

structure Peer where
  id : Nat
  /-- Of a legacy peer nothing is known. -/
  continuity : Option Continuity
  deriving DecidableEq

structure CommandError where
  message : String
  code : Option String
  unavailable : Bool
  requestId : Option Nat
  deriving DecidableEq

def CommandError.unavailableError (message : String) : CommandError :=
  { message, code := none, unavailable := true, requestId := none }

def CommandError.command (message code : String) (request : Nat) : CommandError :=
  { message, code := some code, unavailable := false, requestId := some request }

section Types

variable (ε ρ : Type)

abbrev Outcome := Except CommandError ρ

/-- What the task of a request is sent. -/
inductive Delivery
  | event (event : ε)
  | response (outcome : Outcome ρ)
  | finished

inductive Task
  | waiting
  /-- The handler has an event. -/
  | handling
  | ended
  deriving DecidableEq

/-- `Pending`, with its task; it is active while the bridge has it. -/
structure Request where
  worker : String
  command : String
  hasHandler : Bool
  active : Bool
  delivery : List (Delivery ε ρ)
  /-- The outcome is still to be reported. -/
  completion : Bool
  timer : Bool
  task : Task

/-- What ended a request. -/
inductive Cause
  | response
  | handler
  | timeout
  | termination
  | dispatch
  deriving DecidableEq

inductive Entry
  | received (id : Nat) (event : ε)
  | handed (id : Nat) (event : ε)
  /-- The handler failed. -/
  | failed (id : Nat)
  | reported (id : Nat) (cause : Cause) (outcome : Outcome ρ)

structure Bridge where
  closed : Bool
  peers : String → Option Peer
  continuities : String → Option (Option Continuity)
  interruptions : String → Option Nat
  timers : String → Option Nat
  /-- The workers that were attached. -/
  workers : List String
  isOpen : Nat → Bool
  requests : Nat → Option (Request ε ρ)
  nextRequest : Nat
  nextGeneration : Nat
  routed : Nat
  succeeded : Nat
  failed : Nat
  log : List (Entry ε ρ)

end Types

variable {ε ρ : Type}

namespace Bridge

def start : Bridge ε ρ :=
  { closed := false, peers := fun _ => none, continuities := fun _ => none, interruptions := fun _ => none, timers := fun _ => none, workers := [],
    isOpen := fun _ => true, requests := fun _ => none, nextRequest := 0, nextGeneration := 0, routed := 0, succeeded := 0, failed := 0, log := [] }

def setRequest (b : Bridge ε ρ) (id : Nat) (r : Request ε ρ) : Bridge ε ρ := { b with requests := Function.update b.requests id (some r) }

def write (b : Bridge ε ρ) (entry : Entry ε ρ) : Bridge ε ρ := { b with log := b.log ++ [entry] }

def finish (b : Bridge ε ρ) (id : Nat) (r : Request ε ρ) (cause : Cause) (outcome : Outcome ρ) : Bridge ε ρ :=
  if r.completion then
    { (b.setRequest id { r with completion := false, timer := false, delivery := r.delivery ++ [.finished] }).write (.reported id cause outcome) with
      succeeded := if outcome.isOk then b.succeeded + 1 else b.succeeded
      failed := if outcome.isOk then b.failed else b.failed + 1 }
  else b.setRequest id r

def fail (error : CommandError) (worker : String) (b : Bridge ε ρ) (id : Nat) : Bridge ε ρ :=
  match b.requests id with
  | none => b
  | some r => if r.active ∧ r.worker = worker then b.finish id { r with active := false, timer := false } .termination (.error error) else b

/-- The connection of the worker and what is known of it; its socket may be closed. -/
def unregister (b : Bridge ε ρ) (worker : String) (close : Bool) : Bridge ε ρ :=
  { b with
    peers := Function.update b.peers worker none
    continuities := Function.update b.continuities worker none
    interruptions := Function.update b.interruptions worker none
    timers := Function.update b.timers worker none
    isOpen := match b.peers worker with
      | some peer => if close then Function.update b.isOpen peer.id false else b.isOpen
      | none => b.isOpen }

/-- `terminate` and the closing of its socket in `finish_termination`. -/
def terminate (b : Bridge ε ρ) (worker : String) (error : CommandError) (close : Bool) : Bridge ε ρ :=
  (List.range b.nextRequest).foldl (fail error worker) (b.unregister worker close)

def offline (worker : String) : CommandError := .unavailableError s!"Worker {worker} disconnected."

def known (b : Bridge ε ρ) (worker : String) : Bool := (b.peers worker).isSome || (b.interruptions worker).isSome

/-- Requests of another continuity end. -/
def fence (b : Bridge ε ρ) (worker : String) (peer : Peer) : Bridge ε ρ :=
  if b.known worker ∧ (b.continuities worker).join ≠ peer.continuity then
    b.terminate worker (.unavailableError s!"Worker {worker} continuity identity changed.") true
  else b

def register (b : Bridge ε ρ) (worker : String) (peer : Peer) : Bridge ε ρ :=
  { b with
    peers := Function.update b.peers worker (some peer)
    continuities := Function.update b.continuities worker (some peer.continuity)
    interruptions := Function.update b.interruptions worker none
    timers := Function.update b.timers worker none
    workers := worker :: b.workers
    isOpen := match b.peers worker with
      | some previous => if previous.id ≠ peer.id then Function.update b.isOpen previous.id false else b.isOpen
      | none => b.isOpen }

/-- The flag says whether the readiness could be queued. -/
def attach (b : Bridge ε ρ) (worker : String) (peer : Peer) (ready : Bool) : Bridge ε ρ :=
  if b.closed || !b.isOpen peer.id then b
  else
    let b := b.fence worker peer
    if !b.isOpen peer.id then b else if !ready then b else b.register worker peer

def isConnected (b : Bridge ε ρ) (worker : String) : Bool := (b.peers worker).any fun peer => b.isOpen peer.id

def disconnect (b : Bridge ε ρ) (worker : String) : Bridge ε ρ := b.terminate worker (offline worker) true

def interrupted (b : Bridge ε ρ) (worker : String) (peer : Nat) (grace : Bool) : Bridge ε ρ :=
  if (b.peers worker).map Peer.id ≠ some peer then b
  else
    let b := { b with
      peers := Function.update b.peers worker none
      interruptions := Function.update b.interruptions worker (some b.nextGeneration)
      timers := Function.update b.timers worker (if grace then some b.nextGeneration else none)
      nextGeneration := b.nextGeneration + 1 }
    if grace then b else b.terminate worker (offline worker) false

def expired (b : Bridge ε ρ) (worker : String) (generation : Nat) : Bridge ε ρ :=
  if b.peers worker = none ∧ b.interruptions worker = some generation then b.terminate worker (offline worker) false else b

def addressed (b : Bridge ε ρ) (worker : String) (peer id : Nat) : Option (Request ε ρ) :=
  if (b.peers worker).map Peer.id = some peer then (b.requests id).filter fun r => r.active && r.worker == worker else none

def response (b : Bridge ε ρ) (worker : String) (peer id : Nat) (outcome : Outcome ρ) : Bridge ε ρ :=
  match b.addressed worker peer id with
  | none => b
  | some r => b.setRequest id { r with active := false, timer := false, delivery := r.delivery ++ [.response outcome] }

def event (b : Bridge ε ρ) (worker : String) (peer id : Nat) (event : ε) : Bridge ε ρ :=
  match b.addressed worker peer id with
  | none => b
  | some r => (b.setRequest id { r with delivery := r.delivery ++ [.event event] }).write (.received id event)

/-- `request` up to its first await; the flag says whether the command could be sent. -/
def request (b : Bridge ε ρ) (worker command : String) (timeout hasHandler sent : Bool) : Bridge ε ρ :=
  if !b.isConnected worker then b
  else
    let id := b.nextRequest
    let r : Request ε ρ := { worker, command, hasHandler, active := true, delivery := [], completion := true, timer := timeout, task := .waiting }
    let b := { b with nextRequest := id + 1, routed := b.routed + 1 }
    if sent then b.setRequest id r
    else
      b.finish id { r with active := false } .dispatch
        (.error (.command s!"Worker command {command} could not be dispatched." "worker-command-dispatch-failed" id))

def timedOut (b : Bridge ε ρ) (id : Nat) : Option (Bridge ε ρ) :=
  (b.requests id).bind fun r =>
    if r.timer ∧ r.active then
      some (b.finish id { r with active := false } .timeout
        (.error (.command s!"Worker command {r.command} timed out." "worker-command-timeout" id)))
    else none

/-- The task takes its next message. -/
def deliver (b : Bridge ε ρ) (id : Nat) : Option (Bridge ε ρ) :=
  (b.requests id).bind fun r =>
    match r.task, r.delivery with
    | .waiting, .finished :: rest => some (b.setRequest id { r with delivery := rest, task := .ended })
    | .waiting, .event event :: rest =>
      some (if r.hasHandler then (b.setRequest id { r with delivery := rest, task := .handling }).write (.handed id event)
        else b.setRequest id { r with delivery := rest })
    | .waiting, .response outcome :: rest => some (b.finish id { r with delivery := rest, task := .ended } .response outcome)
    | _, _ => none

/-- The handler is through with its event. -/
def handled (b : Bridge ε ρ) (id : Nat) (error : Option CommandError) : Option (Bridge ε ρ) :=
  (b.requests id).bind fun r =>
    if r.task = .handling then
      some (match error with
        | none => b.setRequest id { r with task := .waiting }
        | some error => (b.write (.failed id)).finish id { r with active := false, timer := false, task := .ended } .handler (.error error))
    else none

def close (b : Bridge ε ρ) : Bridge ε ρ :=
  b.workers.foldl (fun b worker => b.terminate worker (.unavailableError "Server is shutting down.") true) { b with closed := true }

end Bridge

section Steps

variable (ε ρ)

inductive Act
  | attach (worker : String) (peer : Peer) (ready : Bool)
  | disconnect (worker : String)
  | interrupted (worker : String) (peer : Nat) (grace : Bool)
  | expired (worker : String) (generation : Nat)
  | response (worker : String) (peer id : Nat) (outcome : Outcome ρ)
  | event (worker : String) (peer id : Nat) (event : ε)
  | request (worker command : String) (timeout hasHandler sent : Bool)
  | timedOut (id : Nat)
  | deliver (id : Nat)
  | handled (id : Nat) (error : Option CommandError)
  /-- The socket of a peer is closed from its other end. -/
  | gone (peer : Nat)
  | close

end Steps

namespace Bridge

def step (b : Bridge ε ρ) : Act ε ρ → Option (Bridge ε ρ)
  | .attach worker peer ready => some (b.attach worker peer ready)
  | .disconnect worker => some (b.disconnect worker)
  | .interrupted worker peer grace => some (b.interrupted worker peer grace)
  | .expired worker generation => some (b.expired worker generation)
  | .response worker peer id outcome => some (b.response worker peer id outcome)
  | .event worker peer id event => some (b.event worker peer id event)
  | .request worker command timeout hasHandler sent => some (b.request worker command timeout hasHandler sent)
  | .timedOut id => b.timedOut id
  | .deliver id => b.deliver id
  | .handled id error => b.handled id error
  | .gone peer => some { b with isOpen := Function.update b.isOpen peer false }
  | .close => some b.close

def run (b : Bridge ε ρ) : List (Act ε ρ) → Option (Bridge ε ρ)
  | [] => some b
  | act :: acts => (b.step act).bind fun b => b.run acts

end Bridge

end Cantrip.Workers
