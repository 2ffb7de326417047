import Cantrip.Lib.News
import Cantrip.Lib.Utf8

/-!
# The directory of workers (`coordination/redis.rs`, `coordination/core.rs`)

The server instances share a record in Redis that names the connection of a worker, and each keeps a copy. The model
is of one worker. An operation of an instance runs up to its next command to Redis, the command is carried out at any
later time, and the operation goes on at any time after that. Messages are kept: they may be delivered late, again or
in another order. All clocks are one.

The changes of the record are numbered, and so is what an instance heard of them: with the reply to its own command,
with a message or with the reply to a reading.
-/

namespace Cantrip.Coordination

open Lib

/-! ## Presences (`core.rs`) -/

structure Continuity where
  ownerId : Utf16
  credentialId : Utf16
  workerProcessGeneration : Utf16
  deriving DecidableEq

structure Presence where
  connectionId : Utf16
  instanceId : Utf16
  ownerId : Utf16
  workerId : Utf16
  continuityIdentity : Option Continuity
  expiresAt : Int
  deriving DecidableEq

/-- `string`. -/
def string (value : Utf16) (maximum : Nat) : Bool := !value.isEmpty && decide (value.length ≤ maximum)

def presence (value : Presence) : Option Presence :=
  if [value.connectionId, value.instanceId, value.ownerId, value.workerId].all (string · 512) &&
      value.continuityIdentity.all fun c =>
        string c.credentialId 512 && string c.workerProcessGeneration 512 && decide (c.ownerId = value.ownerId) then
    some value
  else none

/-- `Core::cached`: what is over is dropped. -/
def cached (now : Int) (kept : Option Presence) : Option Presence := kept.filter fun p => now < p.expiresAt

/-- `Core::remove`. -/
def remove (connection : Utf16) (kept : Option Presence) : Option Presence :=
  kept.filter fun p => connection ≠ p.connectionId

structure Claim where
  connectionId : Utf16
  ownerId : Utf16
  workerId : Utf16
  continuityIdentity : Option Continuity

def Claim.record (input : Claim) (instanceId : Utf16) (expiresAt : Int) : Presence :=
  { connectionId := input.connectionId, instanceId, ownerId := input.ownerId, workerId := input.workerId,
    continuityIdentity := input.continuityIdentity, expiresAt }

structure Message where
  sourceInstanceId : Utf16
  online : Bool
  presence : Presence
  expiresAt : Int
  /-- The number of the change that it tells of. -/
  change : Nat

/-! ## Operations (`redis.rs`) -/

inductive Operation
  | find
  | claim (input : Claim)
  | refresh (connection : Utf16)
  | release (connection : Utf16)

inductive Answer
  | found (presence : Option Presence)
  | claimed (previous : Option Presence)
  | refreshed (retained : Bool)
  | released (done : Bool)

inductive Stage
  | getting (operation : Operation)
  | got (operation : Operation) (raw : Option Presence) (change : Nat)
  | setting (record : Presence) (previous : Option Presence)
  | wasSet (record : Presence) (previous : Option Presence) (change : Nat)
  /-- `REPLACE`. -/
  | replacing (connection : Utf16) (raw next : Presence)
  | replaced (next : Presence) (change : Option Nat)
  /-- `REMOVE`. -/
  | removing (connection : Utf16) (raw : Presence)
  | removed (raw : Presence) (change : Option Nat)
  | publishing (message : Message) (answer : Answer)
  | published (answer : Answer)
  | answered (answer : Answer)
  /-- The connection to Redis was lost. -/
  | failed

structure Task where
  instanceId : Utf16
  stage : Stage

/-- A value in Redis, and when it goes away. -/
structure Entry where
  value : Presence
  deadline : Int

structure Directory where
  now : Int
  entry : Option Entry
  kept : Utf16 → Option Presence
  tasks : List Task
  messages : List Message
  changes : List (Change Presence)
  heard : Utf16 → List Nat
  /-- The connections whose claims were stored, in order. -/
  claimants : List Utf16

namespace Directory

def start : Directory :=
  { now := 0, entry := none, kept := fun _ => none, tasks := [], messages := [], changes := [], heard := fun _ => [],
    claimants := [] }

/-- `GET`. -/
def stored (d : Directory) : Option Presence := (d.entry.filter fun e => d.now ≤ e.deadline).map Entry.value

def keep (d : Directory) (i : Utf16) (kept : Option Presence) : Directory :=
  { d with kept := fun other => if other = i then kept else d.kept other }

def hear (d : Directory) (i : Utf16) (change : Nat) (kept : Option Presence) : Directory :=
  { d.keep i kept with heard := fun other => if other = i then d.heard i ++ [change] else d.heard other }

/-- `Core::cached`. -/
def lookUp (d : Directory) (i : Utf16) : Directory := d.keep i (cached d.now (d.kept i))

/-- An operation up to its first command. -/
def begins (ttl : Nat) (d : Directory) (i : Utf16) : Operation → Directory × Stage
  | .find =>
    match cached d.now (d.kept i) with
    | some p => (d.lookUp i, .answered (.found (some p)))
    | none => (d.lookUp i, .getting .find)
  | .claim input =>
    match cached d.now (d.kept i) with
    | some p => (d.lookUp i, .setting (input.record i (d.now + ttl)) (some p))
    | none => (d.lookUp i, .getting (.claim input))
  | .refresh connection => (d, .getting (.refresh connection))
  | .release connection => (d, .getting (.release connection))

/-- Redis carries a command out. -/
def execute (ttl : Nat) (d : Directory) : Stage → Option (Directory × Stage)
  | .getting operation => some (d, .got operation d.stored (d.changes.length - 1))
  | .setting record previous =>
    some ({ d with entry := some ⟨record, d.now + ttl⟩, changes := d.changes ++ [.set record],
                   claimants := d.claimants ++ [record.connectionId] }, .wasSet record previous d.changes.length)
  | .replacing _ raw next =>
    if d.stored = some raw then
      some ({ d with entry := some ⟨next, d.now + ttl⟩, changes := d.changes ++ [.set next] },
        .replaced next (some d.changes.length))
    else some (d, .replaced next none)
  | .removing _ raw =>
    if d.stored = some raw then
      some ({ d with entry := none, changes := d.changes ++ [.del raw] }, .removed raw (some d.changes.length))
    else some (d, .removed raw none)
  | .publishing message answer => some ({ d with messages := d.messages ++ [message] }, .published answer)
  | _ => none

/-- `find_worker`, with the reply. -/
def found (d : Directory) (i : Utf16) (raw : Option Presence) (change : Nat) : Directory × Option Presence :=
  match (raw.bind presence).filter fun p => d.now < p.expiresAt with
  | some p => (d.hear i change (some p), some p)
  | none => (d, none)

def envelope (d : Directory) (i : Utf16) (online : Bool) (presence : Presence) (change : Nat) : Message :=
  { sourceInstanceId := i, online, presence, expiresAt := d.now + 60000, change }

def resume (ttl : Nat) (d : Directory) (i : Utf16) : Stage → Option (Directory × Stage)
  | .got .find raw change => let f := d.found i raw change; some (f.1, .answered (.found f.2))
  | .got (.claim input) raw change =>
    let f := d.found i raw change
    some (f.1, .setting (input.record i (d.now + ttl)) f.2)
  | .got (.refresh connection) raw _ =>
    match raw.bind presence with
    | none => some (d, .answered (.refreshed false))
    | some p =>
      if p.connectionId ≠ connection ∨ p.instanceId ≠ i then some (d, .answered (.refreshed false))
      else some (d, .replacing connection p { p with expiresAt := d.now + ttl })
  | .got (.release connection) raw _ =>
    match raw.bind presence with
    | none => some (d, .answered (.released false))
    | some p =>
      if p.connectionId ≠ connection ∨ p.instanceId ≠ i then some (d, .answered (.released false))
      else some (d, .removing connection p)
  | .wasSet record previous change =>
    some (d.hear i change (some record), .publishing (d.envelope i true record change) (.claimed previous))
  | .replaced _ none => some (d, .answered (.refreshed false))
  | .replaced next (some change) =>
    some (d.hear i change (some next), .publishing (d.envelope i true next change) (.refreshed true))
  | .removed _ none => some (d, .answered (.released false))
  | .removed raw (some change) =>
    some (d.hear i change (remove raw.connectionId (d.kept i)), .publishing (d.envelope i false raw change) (.released true))
  | .published answer => some (d, .answered answer)
  | _ => none

/-- `Core::receive`, for a presence. -/
def receive (d : Directory) (i : Utf16) (message : Message) : Directory :=
  if message.expiresAt ≤ d.now then d
  else if message.sourceInstanceId = i then d
  else
    match presence message.presence with
    | none => d
    | some p =>
      if message.online then d.hear i message.change (some p)
      else d.hear i message.change (remove p.connectionId (d.kept i))

inductive Act
  | tick (milliseconds : Nat)
  | begins (instanceId : Utf16) (operation : Operation)
  /-- Redis carries out the command of the operation with the number. -/
  | execute (n : Nat)
  | resume (n : Nat)
  | fail (n : Nat)
  | deliver (instanceId : Utf16) (message : Nat)

def putTask (n : Nat) (task : Task) (result : Directory × Stage) : Directory :=
  { result.1 with tasks := result.1.tasks.set n { task with stage := result.2 } }

def step (ttl : Nat) (d : Directory) : Act → Option Directory
  | .tick milliseconds => some { d with now := d.now + milliseconds }
  | .begins i operation =>
    let result := d.begins ttl i operation
    some { result.1 with tasks := result.1.tasks ++ [⟨i, result.2⟩] }
  | .execute n => d.tasks[n]?.bind fun task => (d.execute ttl task.stage).map (putTask n task)
  | .resume n => d.tasks[n]?.bind fun task => (d.resume ttl task.instanceId task.stage).map (putTask n task)
  | .fail n => d.tasks[n]?.map fun task => putTask n task (d, .failed)
  | .deliver i m => d.messages[m]?.map (d.receive i)

def run (ttl : Nat) (d : Directory) : List Act → Option Directory
  | [] => some d
  | act :: acts => (d.step ttl act).bind fun d' => run ttl d' acts

end Directory

end Cantrip.Coordination
