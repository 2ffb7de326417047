import Cantrip.Interaction.Ownership

/-!
# Delivery of input (`cantrip_interaction/src/host.rs`)

The backend is any object with a state of its own that answers every call as it likes or panics. A panic leaves the
host as it was when the call was made, and unwinds through the operation. Beside its state the host keeps the
list of everything it has posted.
-/

namespace Cantrip.Interaction

open Lib

inductive Prepared (C P : Type)
  | down (control : C) (packet release : P)
  | up (control : C) (packet : Option P)
  | repeat (control : C) (packet : P)
  | moveHeld (control : C) (packet release : P)
  | action (controls : List C) (packet : P)

inductive PostFailure (E : Type)
  | notDispatched (error : E)
  | uncertain (error : E)
  | backendPanicked

/-- How a call ends. -/
inductive Outcome (α : Type)
  | returned (value : α)
  | panicked

/-- `trait InputBackend`, with the events it translates. -/
structure InputBackend where
  State : Type
  Target : Type
  Control : Type
  Packet : Type
  Error : Type
  Event : Type
  Invalid : Type
  control : DecidableEq Control
  validate : Event → Except Invalid Unit
  prepare : State → Target → Event → List (Control × Packet) → State × Outcome (Except Error (Prepared Control Packet))
  post : State → Target → Packet → State × Outcome (Except (PostFailure Error) Unit)
  refreshed : State → Target → Target → State × Outcome Unit
  closed : State → Target → State × Outcome Unit

instance (B : InputBackend) : DecidableEq B.Control := B.control

inductive InputFailure (B : InputBackend)
  | ownership (error : OwnershipError)
  | invalid (error : B.Invalid)
  | prepare (error : B.Error)
  | post (failure : PostFailure B.Error) (cleanup : List (PostFailure B.Error))

inductive Purpose (B : InputBackend)
  | down (control : B.Control) (release : B.Packet)
  | up (control : B.Control)
  | repeat (control : B.Control)
  | moveHeld (control : B.Control) (release : B.Packet)
  | action
  /-- At the close of the participant. -/
  | release (control : B.Control)

structure Post (B : InputBackend) where
  owner : Participant
  purpose : Purpose B
  packet : B.Packet
  outcome : Outcome (Except (PostFailure B.Error) Unit)

structure InputHost (B : InputBackend) where
  backend : B.State
  ownership : Ownership B.Control B.Packet
  targets : Map Participant B.Target
  log : List (Post B)

/-- The first part of a dispatch: what it is for, and what is undone where nothing was dispatched. -/
structure Reservation (B : InputBackend) where
  ownership : Ownership B.Control B.Packet
  purpose : Purpose B
  packet : B.Packet
  /-- The release that a move replaces. -/
  moved : Option B.Packet

namespace InputHost

variable {B : InputBackend}

def new (backend : B.State) (registry maxSessions maxHeld : Nat) : InputHost B :=
  { backend, ownership := .new registry maxSessions maxHeld, targets := ∅, log := [] }

def open_ (host : InputHost B) (identity : TargetIdentity) (collisionDomain : String) (target : B.Target) :
    InputHost B × Except OwnershipError Participant :=
  match host.ownership.open_ identity collisionDomain with
  | .error error => (host, .error error)
  | .ok (ownership, owner) => ({ host with ownership, targets := host.targets.insert owner target }, .ok owner)

def post (host : InputHost B) (owner : Participant) (target : B.Target) (purpose : Purpose B) (packet : B.Packet) :
    InputHost B × Outcome (Except (PostFailure B.Error) Unit) :=
  let (backend, outcome) := B.post host.backend target packet
  ({ host with backend, log := host.log ++ [{ owner, purpose, packet, outcome }] }, outcome)

def postReleases (host : InputHost B) (owner : Participant) (target : B.Target) :
    List (B.Control × B.Packet) → InputHost B × List (PostFailure B.Error)
  | [] => (host, [])
  | (control, packet) :: releases =>
    let (host, outcome) := host.post owner target (.release control) packet
    let (host, failures) := host.postReleases owner target releases
    match outcome with
    | .returned (.error error) => (host, error :: failures)
    | .returned (.ok _) => (host, failures)
    | .panicked => (host, .backendPanicked :: failures)

def close (host : InputHost B) (owner : Participant) : InputHost B × List (PostFailure B.Error) :=
  let (ownership, releases) := host.ownership.close owner
  match host.targets.lookup owner with
  | none => ({ host with ownership }, [])
  | some target =>
    let host := { host with ownership, targets := host.targets.erase owner }
    let (host, failures) := host.postReleases owner target releases
    match B.closed host.backend target with
    | (backend, .returned _) => ({ host with backend }, failures)
    | (backend, .panicked) => ({ host with backend }, failures ++ [.backendPanicked])

def unwindScoped {α : Type} (host : InputHost B) (owner : Participant) (operation : InputHost B → InputHost B × Outcome α) :
    InputHost B × Outcome α :=
  match operation host with
  | (host, .returned value) => (host, .returned value)
  | (host, .panicked) => ((host.close owner).1, .panicked)

def updateDestination (host : InputHost B) (owner : Participant) (identity : TargetIdentity) (target : B.Target) :
    InputHost B × Outcome (Except OwnershipError Unit) :=
  match host.ownership.target owner with
  | .error error => (host, .returned (.error error))
  | .ok current =>
    if current ≠ identity then (host, .returned (.error .staleInput))
    else host.unwindScoped owner fun host =>
      match host.targets.lookup owner with
      | none => (host, .panicked)
      | some previous =>
        match B.refreshed host.backend previous target with
        | (backend, .panicked) => ({ host with backend }, .panicked)
        | (backend, .returned _) =>
          ({ host with backend, targets := host.targets.insert owner target }, .returned (.ok ()))

def accept (host : InputHost B) (owner : Participant) (target : TargetIdentity) (sequence : Nat) :
    Except OwnershipError (InputHost B) := do
  let current ← host.ownership.target owner
  if current ≠ target then .error .staleInput
  else
    let ownership ← host.ownership.acceptSequence owner sequence
    .ok { host with ownership }

/-- What a prepared event is posted for, with its effect on the holds. -/
def reserve (ownership : Ownership B.Control B.Packet) (owner : Participant) :
    Prepared B.Control B.Packet → Except OwnershipError (Reservation B)
  | .down control packet release => do
    let ownership ← ownership.hold owner control release
    .ok { ownership, purpose := .down control release, packet, moved := none }
  | .up control packet => do
    let (ownership, release) ← ownership.release owner control
    .ok { ownership, purpose := .up control, packet := packet.getD release, moved := none }
  | .repeat control packet => do
    let _release ← ownership.held owner control
    .ok { ownership, purpose := .repeat control, packet, moved := none }
  | .moveHeld control packet release => do
    let (ownership, old) ← ownership.replaceRelease owner control release
    .ok { ownership, purpose := .moveHeld control release, packet, moved := some old }
  | .action controls packet => do
    controls.forM fun control => ownership.available owner control
    .ok { ownership, purpose := .action, packet, moved := none }

/-- The holds as they were, after the backend certified that no input was posted. -/
def rollback (reserved : Reservation B) (owner : Participant) (ownership : Ownership B.Control B.Packet) :
    Ownership B.Control B.Packet :=
  match reserved.purpose, reserved.moved with
  | .down control _, _ =>
    match ownership.release owner control with
    | .ok (ownership, _) => ownership
    | .error _ => ownership
  | .moveHeld control _, some old =>
    match ownership.updateRelease owner control old with
    | .ok ownership => ownership
    | .error _ => ownership
  | _, _ => ownership

/-- An Up that was definitely not sent gets one cleanup attempt. -/
def retry (host : InputHost B) (owner : Participant) (target : B.Target) (reserved : Reservation B) :
    InputHost B × Outcome (List (PostFailure B.Error)) :=
  match reserved.purpose with
  | .up control =>
    match host.post owner target (.up control) reserved.packet with
    | (host, .returned (.error error)) => (host, .returned [error])
    | (host, .returned (.ok _)) => (host, .returned [])
    | (host, .panicked) => (host, .panicked)
  | _ => (host, .returned [])

def dispatch (host : InputHost B) (owner : Participant) (prepared : Prepared B.Control B.Packet) :
    InputHost B × Outcome (Except (InputFailure B) Unit) :=
  match reserve host.ownership owner prepared with
  | .error error => (host, .returned (.error (.ownership error)))
  | .ok reserved =>
    let host := { host with ownership := reserved.ownership }
    match host.targets.lookup owner with
    | none => (host, .panicked)
    | some target =>
      match host.post owner target reserved.purpose reserved.packet with
      | (host, .panicked) => (host, .panicked)
      | (host, .returned (.ok _)) => (host, .returned (.ok ()))
      | (host, .returned (.error (.notDispatched error))) =>
        let host := { host with ownership := rollback reserved owner host.ownership }
        match host.retry owner target reserved with
        | (host, .panicked) => (host, .panicked)
        | (host, .returned cleanup) =>
          let (host, failures) := host.close owner
          (host, .returned (.error (.post (.notDispatched error) (cleanup ++ failures))))
      | (host, .returned (.error failure)) =>
        let (host, failures) := host.close owner
        (host, .returned (.error (.post failure failures)))

def translate (host : InputHost B) (owner : Participant) (event : B.Event) :
    InputHost B × Outcome (Except (InputFailure B) (Prepared B.Control B.Packet)) :=
  match host.targets.lookup owner with
  | none => (host, .panicked)
  | some target =>
    match host.ownership.holds owner with
    | .error error => (host, .returned (.error (.ownership error)))
    | .ok held =>
      match B.prepare host.backend target event held with
      | (backend, .panicked) => ({ host with backend }, .panicked)
      | (backend, .returned (.error error)) => ({ host with backend }, .returned (.error (.prepare error)))
      | (backend, .returned (.ok prepared)) => ({ host with backend }, .returned (.ok prepared))

def submit (host : InputHost B) (owner : Participant) (identity : TargetIdentity) (sequence : Nat) (event : B.Event) :
    InputHost B × Outcome (Except (InputFailure B) Unit) :=
  match host.accept owner identity sequence with
  | .error error => (host, .returned (.error (.ownership error)))
  | .ok host =>
    match B.validate event with
    | .error error => (host, .returned (.error (.invalid error)))
    | .ok _ => host.unwindScoped owner fun host =>
      match host.translate owner event with
      | (host, .panicked) => (host, .panicked)
      | (host, .returned (.error failure)) => (host, .returned (.error failure))
      | (host, .returned (.ok prepared)) => host.dispatch owner prepared

def submitPrepared (host : InputHost B) (owner : Participant) (identity : TargetIdentity) (sequence : Nat)
    (packet : Prepared B.Control B.Packet) : InputHost B × Outcome (Except (InputFailure B) Unit) :=
  match host.accept owner identity sequence with
  | .error error => (host, .returned (.error (.ownership error)))
  | .ok host => host.unwindScoped owner fun host => host.dispatch owner packet

/-- The callback owns any native resources it uses. -/
def submitAction (host : InputHost B) (owner : Participant) (identity : TargetIdentity) (sequence : Nat)
    (controls : List B.Control)
    (action : B.State → B.Target → B.State × Outcome (Except (PostFailure B.Error) Unit)) :
    InputHost B × Outcome (Except (InputFailure B) Unit) :=
  match host.accept owner identity sequence with
  | .error error => (host, .returned (.error (.ownership error)))
  | .ok host =>
    match controls.forM fun control => host.ownership.available owner control with
    | .error error => (host, .returned (.error (.ownership error)))
    | .ok _ => host.unwindScoped owner fun host =>
      match host.targets.lookup owner with
      | none => (host, .panicked)
      | some target =>
        match action host.backend target with
        | (backend, .panicked) => ({ host with backend }, .panicked)
        | (backend, .returned (.ok _)) => ({ host with backend }, .returned (.ok ()))
        | (backend, .returned (.error failure)) =>
          let (host, cleanup) := { host with backend }.close owner
          (host, .returned (.error (.post failure cleanup)))

/-- `Drop`: the participants are closed in the order of their tokens. -/
def drop (host : InputHost B) : InputHost B :=
  host.ownership.participants.foldl (fun host owner => (host.close owner).1) host

end InputHost

/-! ## Calls -/

inductive Call (B : InputBackend)
  | open (identity : TargetIdentity) (collisionDomain : String) (target : B.Target)
  | submit (owner : Participant) (identity : TargetIdentity) (sequence : Nat) (event : B.Event)
  | submitPrepared (owner : Participant) (identity : TargetIdentity) (sequence : Nat) (packet : Prepared B.Control B.Packet)
  | submitAction (owner : Participant) (identity : TargetIdentity) (sequence : Nat) (controls : List B.Control)
      (action : B.State → B.Target → B.State × Outcome (Except (PostFailure B.Error) Unit))
  | updateDestination (owner : Participant) (identity : TargetIdentity) (target : B.Target)
  | close (owner : Participant)

inductive Answer (B : InputBackend)
  | done
  | opened (owner : Participant)
  | failed (failure : InputFailure B)
  | closed (failures : List (PostFailure B.Error))
  | unwound

def Outcome.answer {B : InputBackend} : Outcome (Except (InputFailure B) Unit) → Answer B
  | .returned (.ok _) => .done
  | .returned (.error failure) => .failed failure
  | .panicked => .unwound

namespace InputHost

variable {B : InputBackend}

def step (host : InputHost B) : Call B → InputHost B × Answer B
  | .open identity collisionDomain target =>
    match host.open_ identity collisionDomain target with
    | (host, .ok owner) => (host, .opened owner)
    | (host, .error error) => (host, .failed (.ownership error))
  | .submit owner identity sequence event =>
    let (host, outcome) := host.submit owner identity sequence event
    (host, outcome.answer)
  | .submitPrepared owner identity sequence packet =>
    let (host, outcome) := host.submitPrepared owner identity sequence packet
    (host, outcome.answer)
  | .submitAction owner identity sequence controls action =>
    let (host, outcome) := host.submitAction owner identity sequence controls action
    (host, outcome.answer)
  | .updateDestination owner identity target =>
    match host.updateDestination owner identity target with
    | (host, .returned (.ok _)) => (host, .done)
    | (host, .returned (.error error)) => (host, .failed (.ownership error))
    | (host, .panicked) => (host, .unwound)
  | .close owner =>
    let (host, failures) := host.close owner
    (host, .closed failures)

def run (host : InputHost B) (calls : List (Call B)) : InputHost B := calls.foldl (fun host call => (host.step call).1) host

end InputHost

end Cantrip.Interaction
