import Cantrip.Lib.Float64
import Cantrip.Lib.Totals
import Cantrip.Text

/-!
# The usage meter (`usage/meter.rs`)

Measurements are added up in a bounded buffer, one entry for an owner, an hour, a channel and a direction. A flush
captures what is buffered as a batch; the captured entries stay in the buffer, where further measurements may join
them, until the batch is known to be committed and its share is taken out.
-/

namespace Cantrip.Usage

open Lib List

def CHANNELS : List String :=
  ["http", "client-live-websocket", "worker-control-websocket", "worker-log-stream", "terminal-relay",
    "remote-surface-relay", "tunnel-relay", "attachment-transfer", "code-relay", "project-share-relay", "other"]

def DIRECTIONS : List String := ["ingress", "egress"]

def MAX_SAFE_INTEGER : Int := 9007199254740991

def I64_MAX : Int := 9223372036854775807

/-- `DateTime<Utc>` to the millisecond. -/
structure DateTime where
  timestampMillis : Int
  inRange : -8334601228800000 ≤ timestampMillis ∧ timestampMillis ≤ 8210266876799999
  deriving DecidableEq

def DateTime.fromTimestampMillis (ms : Int) : Option DateTime :=
  if h : -8334601228800000 ≤ ms ∧ ms ≤ 8210266876799999 then some ⟨ms, h⟩ else none

inductive Counter
  | number (value : Double)
  | integer (value : Int)

def Counter.checked : Counter → Option Int
  | number (.int value) => if 0 ≤ value ∧ value ≤ MAX_SAFE_INTEGER then some value else none
  | number _ => none
  | integer value => if 0 ≤ value ∧ value ≤ I64_MAX then some value else none

structure Measurement where
  ownerId : String
  bytes : Counter
  operationCount : Option Counter
  channel : String
  direction : String
  notifyChange : Option Bool

structure NormalizedMeasurement where
  ownerId : String
  bytes : Int
  operationCount : Int
  channel : String
  direction : String
  notifyChange : Option Bool

structure Options where
  meterId : String
  maxBufferedEntries : Nat
  flushThresholdBytes : Int
  flushIntervalMs : Nat

/-- What an entry is added up over. The source joins the four into a text, see `Key.text_injective`. -/
structure Key where
  ownerId : String
  bucketStart : DateTime
  channel : String
  direction : String
  deriving DecidableEq

def Key.text (iso : DateTime → List Char) (k : Key) : List Char :=
  k.ownerId.toList ++ Char.ofNat 0 :: iso k.bucketStart ++ Char.ofNat 0 :: k.channel.toList ++
    Char.ofNat 0 :: k.direction.toList

theorem append_cons_unique {x : Char} {a a' b b' : List Char} (hb : x ∉ b) (hb' : x ∉ b') (h : a ++ x :: b = a' ++ x :: b') :
    a = a' ∧ b = b' := by
  obtain ⟨c, rfl, hc⟩ | ⟨c, rfl, hc⟩ := append_eq_append_iff.mp h
  · match c with
    | [] => simpa using hc
    | y :: c =>
      rw [cons_append, List.cons.injEq] at hc
      exact absurd (hc.2 ▸ by simp) hb
  · match c with
    | [] => simpa [eq_comm] using hc
    | y :: c =>
      rw [cons_append, List.cons.injEq] at hc
      exact absurd (hc.2 ▸ by simp) hb'

theorem Key.text_injective {iso : DateTime → List Char} (hiso : Function.Injective iso) (hnul : ∀ t, Char.ofNat 0 ∉ iso t)
    {k k' : Key} (hchannel : k.channel ∈ CHANNELS) (hchannel' : k'.channel ∈ CHANNELS) (hdirection : k.direction ∈ DIRECTIONS)
    (hdirection' : k'.direction ∈ DIRECTIONS) (h : k.text iso = k'.text iso) : k = k' := by
  have hchannels : ∀ c ∈ CHANNELS, Char.ofNat 0 ∉ c.toList := by decide
  have hdirections : ∀ c ∈ DIRECTIONS, Char.ofNat 0 ∉ c.toList := by decide
  unfold Key.text at h
  obtain ⟨h, hd⟩ := append_cons_unique (hdirections _ hdirection) (hdirections _ hdirection') h
  obtain ⟨h, hc⟩ := append_cons_unique (hchannels _ hchannel) (hchannels _ hchannel') h
  obtain ⟨ho, hb⟩ := append_cons_unique (hnul _) (hnul _) h
  obtain ⟨owner, bucket, channel, direction⟩ := k
  obtain ⟨owner', bucket', channel', direction'⟩ := k'
  simp only [Key.mk.injEq]
  exact ⟨String.toList_inj.mp ho, hiso hb, String.toList_inj.mp hc, String.toList_inj.mp hd⟩

structure BandwidthEntry where
  bucketStart : DateTime
  bytes : Int
  channel : String
  direction : String
  operationCount : Int
  ownerId : String
  deriving DecidableEq

def BandwidthEntry.key (e : BandwidthEntry) : Key := ⟨e.ownerId, e.bucketStart, e.channel, e.direction⟩

def BandwidthEntry.amount (e : BandwidthEntry) : Int × Int := (e.bytes, e.operationCount)

structure BufferedEntry where
  entry : BandwidthEntry
  notifyMeasurements : Int

def BufferedEntry.key (e : BufferedEntry) : Key := e.entry.key

structure FlushBatch where
  entries : List BandwidthEntry
  flushedAt : DateTime
  meterId : String
  sequence : Int
  deriving DecidableEq

structure FlushResult where
  applied : Bool
  ownerIds : List String

structure Pending where
  batch : FlushBatch
  entries : List BufferedEntry

structure Stats where
  bufferedBytes : Int
  droppedBytes : Int
  droppedMeasurements : Int
  flushCount : Nat
  flushFailureCount : Nat
  lastFlushDurationMs : Option Int
  lastFlushedAt : Option DateTime

inductive RecordOutcome
  | rejected
  | noop
  | recorded
  deriving DecidableEq

def RecordOutcome.accepted (outcome : RecordOutcome) : Bool := outcome ≠ .rejected

structure State where
  options : Options
  buffer : List BufferedEntry
  pending : Option Pending
  sequence : Int
  closed : Bool
  stats : Stats

/-- What `record` shows to its caller on the way. -/
inductive Hook
  | observe (measurement : NormalizedMeasurement)
  | capacityReached (entries : Nat)

namespace State

/-- `State::new`. -/
def new (options : Options) : Except String State :=
  if Text.trim options.meterId ≠ "" ∧ 0 < options.maxBufferedEntries ∧ (options.maxBufferedEntries : Int) ≤ MAX_SAFE_INTEGER ∧
      0 < options.flushThresholdBytes ∧ 0 < options.flushIntervalMs ∧ (options.flushIntervalMs : Int) ≤ MAX_SAFE_INTEGER then
    .ok ⟨options, [], none, 0, false, ⟨0, 0, 0, 0, 0, none, none⟩⟩
  else .error "Account usage meter options are invalid."

end State

/-! ## Recording -/

/-- The checks of `record_with_hooks`: what is wrong with a measurement is not looked into further. -/
def Measurement.check (input : Measurement) (now : Option DateTime) : Option (NormalizedMeasurement × DateTime) := do
  let owner := Text.trim input.ownerId
  let bytes ← input.bytes.checked
  let operations ← (input.operationCount.map Counter.checked).getD (some 1)
  let now ← now
  guard (owner ≠ "" ∧ Text.length owner ≤ 200 ∧ input.channel ∈ CHANNELS ∧ input.direction ∈ DIRECTIONS)
  some (⟨owner, bytes, operations, input.channel, input.direction, input.notifyChange⟩, now)

def hourStart (now : DateTime) : Option DateTime := DateTime.fromTimestampMillis (now.timestampMillis / 3600000 * 3600000)

namespace NormalizedMeasurement

def key (m : NormalizedMeasurement) (bucketStart : DateTime) : Key := ⟨m.ownerId, bucketStart, m.channel, m.direction⟩

def notify (m : NormalizedMeasurement) : Int := if m.notifyChange ≠ some false then 1 else 0

def fresh (m : NormalizedMeasurement) (bucketStart : DateTime) : BufferedEntry :=
  ⟨⟨bucketStart, m.bytes, m.channel, m.direction, m.operationCount, m.ownerId⟩, m.notify⟩

def join (m : NormalizedMeasurement) (current : BufferedEntry) : BufferedEntry :=
  { entry := { current.entry with
      bytes := current.entry.bytes + m.bytes
      operationCount := current.entry.operationCount + m.operationCount }
    notifyMeasurements := current.notifyMeasurements + m.notify }

/-- An entry is full when one of its counters would leave the range of a database integer. -/
def overflows (m : NormalizedMeasurement) (current : BufferedEntry) : Bool :=
  I64_MAX < current.entry.bytes + m.bytes ∨ I64_MAX < current.entry.operationCount + m.operationCount

end NormalizedMeasurement

namespace State

def find (s : State) (k : Key) : Option BufferedEntry := s.buffer.find? fun e => e.key = k

def drop (s : State) (m : NormalizedMeasurement) : State :=
  { s with stats := { s.stats with
      droppedBytes := s.stats.droppedBytes + m.bytes
      droppedMeasurements := s.stats.droppedMeasurements + 1 } }

def store (s : State) (m : NormalizedMeasurement) (buffer : List BufferedEntry) : State :=
  { s with buffer, stats := { s.stats with bufferedBytes := s.stats.bufferedBytes + m.bytes } }

def take (s : State) (m : NormalizedMeasurement) (bucketStart : DateTime) : State × RecordOutcome × List Hook :=
  match s.find (m.key bucketStart) with
  | none =>
    if s.options.maxBufferedEntries ≤ s.buffer.length then
      (s.drop m, .rejected, [.observe m, .capacityReached s.buffer.length])
    else (s.store m (s.buffer ++ [m.fresh bucketStart]), .recorded, [.observe m])
  | some current =>
    if m.overflows current then (s.drop m, .rejected, [.observe m])
    else (s.store m (putKey BufferedEntry.key (m.join current) s.buffer), .recorded, [.observe m])

def recordWithHooks (s : State) (input : Measurement) (now : Option DateTime) : State × RecordOutcome × List Hook :=
  if s.closed then (s, .rejected, [])
  else
    match input.check now with
    | none => (s, .rejected, [])
    | some (m, now) =>
      if m.bytes = 0 ∧ m.operationCount = 0 then (s, .noop, [])
      else
        match hourStart now with
        | none => (s, .rejected, [.observe m])
        | some bucketStart => s.take m bucketStart

/-! ## Flushing -/

def hasWork (s : State) : Bool := s.pending.isSome || !s.buffer.isEmpty

/-- Failed attempts keep exactly the same batch. -/
def capture (s : State) (at' : DateTime) : State × Option FlushBatch :=
  match s.pending with
  | some pending => (s, some pending.batch)
  | none =>
    if s.buffer = [] then (s, none)
    else
      let batch : FlushBatch := ⟨s.buffer.map (·.entry), at', s.options.meterId, s.sequence + 1⟩
      ({ s with sequence := s.sequence + 1, pending := some ⟨batch, s.buffer⟩ }, some batch)

def failed (s : State) (durationMs : Int) : State :=
  { s with stats := { s.stats with
      flushFailureCount := s.stats.flushFailureCount + 1, lastFlushDurationMs := some durationMs } }

end State

def BufferedEntry.minus (current flushed : BufferedEntry) : BufferedEntry :=
  { entry := { current.entry with
      bytes := current.entry.bytes - flushed.entry.bytes
      operationCount := current.entry.operationCount - flushed.entry.operationCount }
    notifyMeasurements := current.notifyMeasurements - flushed.notifyMeasurements }

def BufferedEntry.isZero (e : BufferedEntry) : Bool :=
  e.entry.bytes = 0 ∧ e.entry.operationCount = 0 ∧ e.notifyMeasurements = 0

def release (buffer : List BufferedEntry × Int) (flushed : BufferedEntry) : List BufferedEntry × Int :=
  match buffer.1.find? fun e => e.key = flushed.key with
  | none => buffer
  | some current =>
    (if (current.minus flushed).isZero then buffer.1.filter fun e => e.key ≠ flushed.key
      else putKey BufferedEntry.key (current.minus flushed) buffer.1,
      buffer.2 - flushed.entry.bytes)

/-- `committed`, with the owners to notify; `none` when no batch is pending. -/
def State.committed (s : State) (result : FlushResult) (at' : DateTime) (durationMs : Int) : Option (State × List String) := do
  let pending ← s.pending
  let notifying := (pending.entries.filter fun e => 0 < e.notifyMeasurements).map fun e => e.entry.ownerId
  let rest := pending.entries.foldl release (s.buffer, s.stats.bufferedBytes)
  some ({ s with
        pending := none
        buffer := rest.1
        stats := { s.stats with
          bufferedBytes := rest.2
          flushCount := s.stats.flushCount + 1
          lastFlushDurationMs := some durationMs
          lastFlushedAt := some at' } },
      result.ownerIds.filter (· ∈ notifying))

end Cantrip.Usage
