import Cantrip.Usage.Meter
import Cantrip.Lib.Run

/-!
# Flushing the meter (`usage/meter_service.rs`, `usage/repository.rs`)

A flush hands a batch to the database and takes its share out of the buffer when the database answers. The
database notes every batch it writes and writes none twice. An attempt may be reported to have failed although its
transaction is written, before the report or after it. At most one attempt is under way at a time.
-/

namespace Cantrip.Usage

open Lib

/-! ## The database -/

/-- A row of `account_bandwidth_flushes`. -/
structure FlushRow where
  meterId : String
  sequence : Int
  entryCount : Nat
  bytes : Int
  flushedAt : DateTime

/-- An hourly row of `account_bandwidth_usage_buckets`. -/
structure BucketRow where
  entry : BandwidthEntry
  updatedAt : DateTime

def BucketRow.key (row : BucketRow) : Key := row.entry.key

structure Database where
  users : List String
  flushes : List FlushRow
  buckets : List BucketRow

def I32_MAX : Nat := 2147483647

def upsert (at' : DateTime) (rows : List BucketRow) (e : BandwidthEntry) : Except String (List BucketRow) :=
  match rows.find? fun row => row.key = e.key with
  | none => .ok (rows ++ [⟨e, at'⟩])
  | some row =>
    if I64_MAX < row.entry.bytes + e.bytes ∨ I64_MAX < row.entry.operationCount + e.operationCount then
      .error "bigint out of range"
    else
      .ok (putKey BucketRow.key ⟨{ row.entry with
        bytes := row.entry.bytes + e.bytes
        operationCount := row.entry.operationCount + e.operationCount }, at'⟩ rows)

def Database.flushed (db : Database) (batch : FlushBatch) : Prop :=
  ∃ row ∈ db.flushes, row.meterId = batch.meterId ∧ row.sequence = batch.sequence

instance (db : Database) (batch : FlushBatch) : Decidable (db.flushed batch) :=
  inferInstanceAs (Decidable (∃ row ∈ db.flushes, row.meterId = batch.meterId ∧ row.sequence = batch.sequence))

/-- The transaction of `flush_bandwidth`. Entries of owners without an account are left out. -/
def flushBandwidth (db : Database) (batch : FlushBatch) : Except String (FlushResult × Database) :=
  if batch.entries = [] then .ok (⟨false, []⟩, db)
  else
    let owners := db.users.filter fun user => user ∈ batch.entries.map (·.ownerId)
    let bytes := total (·.bytes) batch.entries
    if I64_MAX < bytes ∨ I32_MAX < batch.entries.length then .error "integer out of range"
    else if db.flushed batch then .ok (⟨false, owners⟩, db)
    else
      let flushes := db.flushes ++ [⟨batch.meterId, batch.sequence, batch.entries.length, bytes, batch.flushedAt⟩]
      let entries := batch.entries.filter fun e => e.ownerId ∈ owners
      if ¬(entries.map BandwidthEntry.key).Nodup then .error "row affected a second time"
      else do
        let buckets ← entries.foldlM (upsert batch.flushedAt) db.buckets
        .ok (⟨true, owners⟩, { db with flushes, buckets })

/-! ## The service -/

/-- The attempt under way: its transaction may be written, and when it has ended its completion is still shared
until the next turn. -/
inductive Attempt
  | running (batch : FlushBatch) (result : Option FlushResult)
  | finished

structure Service where
  state : State
  inFlight : Option Attempt
  database : Database
  /-- Every batch that was handed to the database, from which a late transaction may still come. -/
  sent : List FlushBatch

inductive Action
  | record (input : Measurement) (now : DateTime)
  | flush (now : DateTime)
  | write
  | writeLate (batch : FlushBatch)
  | succeed (now : DateTime) (durationMs : Int)
  | fail (durationMs : Int)
  | settle
  | close
  | accounts (users : List String)

inductive Event
  | measured (closed : Bool) (input : Measurement) (now : DateTime) (outcome : RecordOutcome)
  | attempted (batch : FlushBatch)
  | joined
  | idle
  | written (batch : FlushBatch) (users : List String)
  /-- The accounts have changed; these rows were there before. -/
  | accounts (users : List String) (buckets : List BucketRow)
  | refused (reason : String)
  | completed (owners : List String)
  | failed
  | internal

/-- Other accounts; the rows of those that are gone are deleted with them. -/
def Database.setUsers (db : Database) (users : List String) : Database :=
  { db with users, buckets := db.buckets.filter fun row => decide (row.entry.ownerId ∈ users) }

/-- Run the transaction of a batch; an error rolls it back. -/
def Service.transact (s : Service) (batch : FlushBatch) : Except String (Service × FlushResult × Event) := do
  let (result, database) ← flushBandwidth s.database batch
  .ok ({ s with database }, result, if result.applied then .written batch s.database.users else .internal)

def step (s : Service) : Action → Option (Service × Event)
  | .record input now =>
    let (state, outcome, _) := s.state.recordWithHooks input (some now)
    some ({ s with state }, .measured s.state.closed input now outcome)
  | .flush now =>
    match s.inFlight with
    | some _ => some (s, .joined)
    | none =>
      if s.state.hasWork then
        match s.state.capture now with
        | (state, some batch) =>
          some ({ s with state, inFlight := some (.running batch none), sent := batch :: s.sent }, .attempted batch)
        | (_, none) => none
      else some (s, .idle)
  | .write =>
    match s.inFlight with
    | some (.running batch none) =>
      match s.transact batch with
      | .ok (s', result, event) => some ({ s' with inFlight := some (.running batch (some result)) }, event)
      | .error reason => some (s, .refused reason)
    | _ => none
  | .writeLate batch =>
    if batch ∈ s.sent then
      match s.transact batch with
      | .ok (s', _, event) => some (s', event)
      | .error reason => some (s, .refused reason)
    else none
  | .succeed now durationMs =>
    match s.inFlight with
    | some (.running _ (some result)) =>
      match s.state.committed result now durationMs with
      | some (state, owners) => some ({ s with state, inFlight := some .finished }, .completed owners)
      -- `completion-state-failed`
      | none => some ({ s with inFlight := some .finished }, .failed)
    | _ => none
  | .fail durationMs =>
    match s.inFlight with
    | some (.running _ _) => some ({ s with state := s.state.failed durationMs, inFlight := some .finished }, .failed)
    | _ => none
  | .settle =>
    match s.inFlight with
    | some .finished => some ({ s with inFlight := none }, .internal)
    | _ => none
  | .close => some ({ s with state := { s.state with closed := true } }, .internal)
  | .accounts users => some ({ s with database := s.database.setUsers users }, .accounts users s.database.buckets)

def Service.new (options : Options) (database : Database) : Except String Service := do
  .ok ⟨← State.new options, none, database, []⟩

end Cantrip.Usage
