import Cantrip.Lib.Run
import Cantrip.Wire.Contracts
import Cantrip.Workers.Limits

/-!
# Admission of commands (`workers/command_bus.rs`)

A command that is admitted holds a permit: one place of its owner and one of its worker, in its lane. Whoever first changes the
flag of the permit gives the places back, a moment later and under the lock of the bus: the handler of an event which says that an
inference has begun, or the drop of the request, which comes at whatever point the request ends.
-/

namespace Cantrip.Workers.Admission

open Lib Wire

variable {F : Numbers}

/-! ## Lanes -/

def isExecutionControl (command : Value F) : Bool :=
  let type := Contracts.index command "type"
  if Contracts.isText type "chat.runtime.handoff" then Contracts.isText (Contracts.index command "intent") "cancel"
  else if Contracts.isText type "chat.native-control" then
    ["interrupt", "pause", "reply"].any (Contracts.isText (Contracts.index (Contracts.index command "control") "kind"))
  else
    ["inference.status", "model.operation.cancel", "inference.configure", "inference.revoke", "inference.task-revoke",
      "worker.version", "worker.restart", "worker.credential.rotate", "worker.encryption.refresh", "chat.interrupt",
      "chat.pause.set", "chat.queue.changed", "chat.settings.read", "chat.queue.prepare", "chat.automation.resume",
      "chat.goal.recover", "chat.goal.claim-recover", "task.goal.recover", "task.goal.source", "agent.interaction.respond",
      "agent.interaction.respond.protected", "agent.interaction.cancel", "chat.native-logical.cancel",
      "chat.native-logical.complete", "chat.goal.get", "chat.goal.clear"].any (Contracts.isText type)

structure CommandLimits where
  accountConcurrency : Nat
  accountRatePerMinute : Nat
  workerConcurrency : Nat
  workerRatePerMinute : Nat
  account_pos : 0 < accountRatePerMinute
  worker_pos : 0 < workerRatePerMinute

namespace CommandLimits

def account (limits : CommandLimits) (control : Bool) : Nat :=
  if control then min limits.accountConcurrency 8 else limits.accountConcurrency

def worker (limits : CommandLimits) (control : Bool) : Nat :=
  if control then min limits.workerConcurrency 8 else limits.workerConcurrency

end CommandLimits

structure CommandLane where
  accountActive : ActiveLimit
  workerActive : ActiveLimit
  accountRate : SlidingWindow
  workerRate : SlidingWindow

def CommandLane.new (limits : CommandLimits) (control : Bool) : CommandLane where
  accountActive := { limit := limits.account control }
  workerActive := { limit := limits.worker control }
  accountRate := { limit := limits.accountRatePerMinute, limit_pos := limits.account_pos }
  workerRate := { limit := limits.workerRatePerMinute, limit_pos := limits.worker_pos }

/-! ## Permits -/

/-- The flag of a permit, with what its first change is still to do. -/
inductive Flag
  | held
  /-- It has been changed, by the drop or not, and the places are not yet back. -/
  | changed (byDrop : Bool)
  | released
  deriving DecidableEq

inductive Ending
  | running
  | dropping
  | gone
  deriving DecidableEq

structure Permit where
  owner : String
  worker : String
  control : Bool
  flag : Flag := .held
  ending : Ending := .running

structure Bus where
  lane : Bool → CommandLane
  quotas : RelayQuotas
  failed : Nat := 0
  routed : Nat := 0
  succeeded : Nat := 0
  activeRequests : Nat := 0
  permits : List Permit := []

def Bus.new (limits : CommandLimits) (quotas : RelayQuotas) : Bus := { lane := CommandLane.new limits, quotas }

/-! ## Admission -/

structure Rejection where
  reason : String
  error : RelayLimitError
  deriving DecidableEq

structure Clock where
  bytes : Int
  account : Int
  worker : Int

def CommandLane.admitCommand (lane : CommandLane) (owner worker : String) (clock : Clock) : CommandLane × Option Rejection :=
  let account := lane.accountRate.consume owner clock.account
  let workerRetry := lane.workerRate.consume worker clock.worker
  let lane := { lane with accountRate := account.1, workerRate := workerRetry.1 }
  let retry := max (account.2.getD 0) (workerRetry.2.getD 0)
  if retry > 0 then
    (lane, some ⟨"command-rate-limit", { message := "Worker command rate limit reached. Retry shortly.", retryAfterSeconds := retry }⟩)
  else
    let accountActive := lane.accountActive.acquire owner
    if !accountActive.2 then
      ({ lane with accountActive := accountActive.1 }, some ⟨"account-concurrency-limit",
        { message := "Account worker-command concurrency limit reached.", retryAfterSeconds := 1 }⟩)
    else
      let workerActive := lane.workerActive.acquire worker
      if !workerActive.2 then
        ({ lane with accountActive := accountActive.1.release owner, workerActive := workerActive.1 },
          some ⟨"worker-concurrency-limit", { message := "Worker command concurrency limit reached.", retryAfterSeconds := 1 }⟩)
      else ({ lane with accountActive := accountActive.1, workerActive := workerActive.1 }, none)

def Bus.setLane (b : Bus) (control : Bool) (lane : CommandLane) : Bus := { b with lane := Function.update b.lane control lane }

/-- `admit`, of a command of so many bytes. -/
def Bus.admitBytes (b : Bus) (owner worker : String) (control : Bool) (bytes : Nat) (clock : Clock) : Bus × Option Rejection :=
  let relay := b.quotas.consumeRelayAt owner worker bytes clock.bytes
  let b := { b with quotas := relay.1 }
  let result := if !relay.2 then
      (b.lane control, some ⟨"relay-bandwidth-quota",
        { message := "Relay bandwidth quota reached. Retry later.", retryAfterSeconds := 1 }⟩)
    else (b.lane control).admitCommand owner worker clock
  let b := b.setLane control result.1
  match result.2 with
  | some rejection => ({ b with failed := b.failed + 1 }, some { rejection with error := rejection.error.beforeDispatch })
  | none =>
    ({ b with
        routed := b.routed + 1
        activeRequests := b.activeRequests + 1
        permits := b.permits ++ [{ owner := owner, worker, control }] }, none)

def Bus.admitCommand (b : Bus) (owner worker : String) (command : Value F) (clock : Clock) : Bus × Option Rejection :=
  b.admitBytes owner worker (isExecutionControl command) (byteLength command) clock

/-! ## Steps -/

inductive Event (F : Numbers)
  | admitCommand (owner worker : String) (command : Value F) (clock : Clock)
  /-- Whatever else takes bytes from the quotas, such as the events and the result of a command. -/
  | relay (owner worker : String) (bytes : Nat) (now : Int)
  /-- An event says that the inference of the command has begun. -/
  | release (id : Nat)
  /-- The lock is there for who changed the flag. -/
  | settle (id : Nat)
  /-- The command has a result. -/
  | outcome (id : Nat) (ok : Bool)
  /-- The request is dropped, with its result, by a panic or because its task is cancelled. -/
  | drop (id : Nat)
  /-- The end of the drop. -/
  | dropped (id : Nat)

/-- What a step shows. -/
inductive Label
  | admitted (id : Nat)
  | rejected (rejection : Rejection)
  | released (id : Nat)
  | quiet
  deriving DecidableEq

def Bus.setPermit (b : Bus) (id : Nat) (p : Permit) : Bus := { b with permits := b.permits.set id p }

/-- `AdmissionPermit::release`, under the lock. -/
def CommandLane.release (lane : CommandLane) (p : Permit) : CommandLane :=
  { lane with workerActive := lane.workerActive.release p.worker, accountActive := lane.accountActive.release p.owner }

def Permit.change (p : Permit) (byDrop : Bool) : Permit :=
  match p.flag with
  | .held => { p with flag := .changed byDrop }
  | _ => p

def step (b : Bus) : Event F → Option (Bus × Label)
  | .admitCommand owner worker command clock =>
    match b.admitCommand owner worker command clock with
    | (b', some rejection) => some (b', .rejected rejection)
    | (b', none) => some (b', .admitted b.permits.length)
  | .relay owner worker bytes now => some ({ b with quotas := (b.quotas.consumeRelayAt owner worker bytes now).1 }, .quiet)
  | .release id =>
    match b.permits[id]? with
    | some p => some (b.setPermit id (p.change false), .quiet)
    | none => none
  | .settle id =>
    match b.permits[id]? with
    | some p =>
      match p.flag with
      | .changed _ => some ((b.setLane p.control ((b.lane p.control).release p)).setPermit id { p with flag := .released }, .released id)
      | _ => none
    | none => none
  | .outcome id ok =>
    match b.permits[id]? with
    | some p =>
      if p.ending = .running then
        some (if ok then { b with succeeded := b.succeeded + 1 } else { b with failed := b.failed + 1 }, .quiet)
      else none
    | none => none
  | .drop id =>
    match b.permits[id]? with
    | some p => if p.ending = .running then some (b.setPermit id { p.change true with ending := .dropping }, .quiet) else none
    | none => none
  | .dropped id =>
    match b.permits[id]? with
    | some p =>
      -- the drop has come back from `release`
      if p.ending = .dropping ∧ p.flag ≠ .changed true then
        some ({ b with activeRequests := b.activeRequests - 1 }.setPermit id { p with ending := .gone }, .quiet)
      else none
    | none => none

end Cantrip.Workers.Admission
