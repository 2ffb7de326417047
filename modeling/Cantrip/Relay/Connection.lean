import Cantrip.Lib.Utf8
import Mathlib.Data.Finset.Basic

/-!
# A relay connection (`worker_links/relay`)

A client reaches a worker over channels. The relay hands the frames of the client to the worker and those of the
worker to the client, the latter through a queue for each lane when the socket of the client is slow. Every
operation holds the connection's lock, so the calls of the model are whole. What the socket, the worker and the
quotas answer is given with the call. Frames are handed on as they came; the meters are left out.
-/

namespace Cantrip.Relay

open Lib

/-! ## Frames (`packages/protocol/src/worker-link.ts`) -/

inductive Lane
  | interactive | realtime | events | stream | bulk
  deriving DecidableEq, Repr

/-- `LANES`, in the order in which they are drained. -/
def laneOrder : List Lane := [.interactive, .realtime, .events, .stream, .bulk]

inductive Route
  | «local» | lan | wan | relay
  deriving DecidableEq, Repr

inductive Resource
  | terminal | browser | remoteDesktop | projectShare | tunnel | observations
  deriving DecidableEq, Repr

def Resource.remoteSurface : Resource → Bool
  | .browser | .remoteDesktop => true
  | _ => false

inductive Kind
  | open (grantId : Utf16) (resource : Resource)
  | accept | reject | data | credit | halfClose | close | error
  deriving DecidableEq

def Kind.isOpen : Kind → Bool
  | .open .. => true
  | _ => false

def Kind.answers : Kind → Bool
  | .accept | .reject => true
  | _ => false

/-- What ends a channel when it comes from the worker. -/
def Kind.ends : Kind → Bool
  | .close | .reject => true
  | _ => false

/-- The largest safe integer, the last number of `sequenceSchema`. -/
def maxSequence : Nat := 2 ^ 53 - 1

structure Header where
  sessionId : Utf16
  routeGeneration : Nat
  effectiveRoute : Route
  channelId : Utf16
  connectionId : Utf16
  lane : Lane
  sequence : Nat
  safe : sequence ≤ maxSequence
  kind : Kind
  deriving DecidableEq

/-- `canonical`: the same channel on the same lane. -/
def Header.agrees (a b : Header) : Bool := a.channelId = b.channelId && a.connectionId = b.connectionId && a.lane = b.lane

structure Frame where
  header : Header
  bytes : Bytes
  payload : Bytes
  deriving DecidableEq

/-! ## The connection -/

structure Session where
  sessionId : Utf16
  routeGeneration : Nat

structure Limit where
  maxQueuedFrames : Nat
  maxQueuedBytes : Nat

/-- A channel, shared by whoever holds it. Two channels are the same object when they have the same number. -/
structure Channel where
  serial : Nat
  /-- The sequence of the last frame that the worker took, or -1. -/
  delivered : Int
  clientSequence : Nat
  workerSequence : Int
  grant : Utf16
  header : Header
  deriving DecidableEq

def Channel.id (c : Channel) : Utf16 := c.header.channelId

def Channel.expects (c : Channel) (h : Header) : Bool :=
  c.header.agrees h && h.sequence = c.workerSequence + 1 && (h.kind.answers = decide (c.workerSequence < 0))

structure Queued where
  channel : Nat
  frame : Frame
  deriving DecidableEq

structure Queue where
  bytes : Nat
  frames : List Queued

structure Surface where
  grant : Utf16
  channels : Finset Utf16

/-- What happens to the channels, by their numbers. -/
inductive Event
  /-- A frame of the client, in order; whether the worker took it. -/
  | fromClient (channel : Nat) (frame : Frame) (handed : Bool)
  /-- A frame of the worker, in order. -/
  | fromWorker (channel : Nat) (frame : Frame)
  | toClient (channel : Nat) (frame : Frame)
  | released (channel : Nat)
  /-- The connection was retired while the channel was open; the close frame that the worker was sent for it. -/
  | retired (channel : Nat) (header : Option Header)
  deriving DecidableEq

structure Connection where
  /-- The socket is open. -/
  isOpen : Bool
  /-- The code with which the relay closed the socket. -/
  closedWith : Option Nat
  /-- The connection is the one that the relay has for its session. -/
  current : Bool
  closed : Bool
  channels : List Channel
  closing : List Channel
  lanes : Lane → Queue
  surfaces : List Surface
  bytes : Nat
  frames : Nat
  stalledAt : Option Int
  drainScheduled : Bool
  /-- The number of the next channel. -/
  opened : Nat
  log : List Event

namespace Connection

def maxBuffered : Nat := 8 * 1024 * 1024

/-- `attach`. -/
def attach : Connection :=
  { isOpen := true, closedWith := none, current := true, closed := false, channels := [], closing := [], lanes := fun _ => ⟨0, []⟩, surfaces := [],
    bytes := 0, frames := 0, stalledAt := none, drainScheduled := false, opened := 0, log := [] }

def record (k : Connection) (event : Event) : Connection := { k with log := k.log ++ [event] }

/-- `Peer::close`: from now on nothing is sent. Of several codes the first counts. -/
def closeSocket (k : Connection) (code : Nat) : Connection :=
  { k with isOpen := false, closedWith := if k.isOpen then some code else k.closedWith }

def modify (k : Connection) (n : Nat) (f : Channel → Channel) : Connection :=
  let change := fun c : Channel => if c.serial = n then f c else c
  { k with channels := k.channels.map change, closing := k.closing.map change }

def find (table : List Channel) (id : Utf16) : Option Channel := table.find? fun c => c.id = id

/-! ## The end of a channel and of the connection -/

def awaiting (closing : List Channel) (channel : Channel) : List Channel :=
  let closing := if closing.any fun c => c.id = channel.id then closing.map fun c => if c.id = channel.id then channel else c
    else closing ++ [channel]
  if 1024 < closing.length then closing.drop 1 else closing

def freeSurface (surfaces : List Surface) (grant id : Utf16) : List Surface :=
  let surfaces := surfaces.map fun s => if s.grant = grant then { s with channels := s.channels.erase id } else s
  surfaces.filter fun s => !(s.grant = grant && s.channels = ∅)

def release (k : Connection) (id : Utf16) (awaitClose : Bool) : Connection :=
  match find k.channels id with
  | none => k
  | some channel =>
    { k with channels := k.channels.filter fun c => c.id ≠ id,
             closing := if awaitClose then awaiting k.closing channel else k.closing,
             surfaces := freeSurface k.surfaces channel.grant id }.record (.released channel.serial)

/-- The close frame that a retirement sends for a channel: none when nothing was delivered, or when there is no
number for it. -/
def closeHeader (c : Channel) : Option Header :=
  if c.delivered < 0 then none
  else if h : c.delivered.toNat + 1 ≤ maxSequence then
    some { c.header with sequence := c.delivered.toNat + 1, safe := h, kind := .close }
  else none

def retire (k : Connection) : Connection :=
  if k.closed then k
  else
    { k with closed := true, current := false, closing := [], lanes := fun _ => ⟨0, []⟩, bytes := 0, frames := 0,
             drainScheduled := false, channels := [], surfaces := [],
             log := k.log ++ k.channels.map fun c => .retired c.serial (closeHeader c) }

/-! ## Frames of the client -/

structure ClientAnswers where
  acquire : Bool
  consume : Bool
  worker : Bool

/-- `retain_surface`. -/
def retainSurface (k : Connection) (grant : Utf16) (resource : Resource) (id : Utf16) (acquire : Bool) : Option Connection :=
  if !resource.remoteSurface then some k
  else if k.surfaces.any fun s => s.grant = grant then
    some { k with surfaces := k.surfaces.map fun s => if s.grant = grant then { s with channels := insert id s.channels } else s }
  else if acquire then some { k with surfaces := k.surfaces ++ [⟨grant, {id}⟩] }
  else none

def openChannel (serial : Nat) (grant : Utf16) (h : Header) : Channel :=
  { serial, delivered := -1, clientSequence := h.sequence, workerSequence := -1, grant, header := h }

def hand (k : Connection) (channel : Channel) (frame : Frame) (answers : ClientAnswers) : Connection :=
  if !(frame.payload.isEmpty || answers.consume) then (k.record (.fromClient channel.serial frame false)).closeSocket 1013
  else if !answers.worker then (k.record (.fromClient channel.serial frame false)).closeSocket 1013
  else
    let k := k.modify channel.serial fun c => { c with delivered := frame.header.sequence }
    let k := k.record (.fromClient channel.serial frame true)
    if frame.header.kind = .close then k.release channel.id true else k

/-- `receive_client`. A frame that cannot be decoded is none. -/
def receiveClient (session : Session) (k : Connection) (binary : Bool) (frame : Option Frame) (answers : ClientAnswers) :
    Connection :=
  if !binary then k.closeSocket 1003
  else if k.closed || !k.current then k
  else
    match frame with
    | none => k.closeSocket 1003
    | some frame =>
      let h := frame.header
      if h.sessionId ≠ session.sessionId ∨ h.routeGeneration ≠ session.routeGeneration ∨ h.effectiveRoute ≠ .relay then
        k.closeSocket 1008
      else
        match h.kind with
        | .open grant resource =>
          if (find k.channels h.channelId).isSome || (find k.closing h.channelId).isSome then k.closeSocket 1008
          else
            match k.retainSurface grant resource h.channelId answers.acquire with
            | none => k.closeSocket 1013
            | some k =>
              let channel := openChannel k.opened grant h
              let k := { k with channels := k.channels ++ [channel], opened := k.opened + 1 }
              k.hand channel frame answers
        | _ =>
          match find k.channels h.channelId with
          | none => k.closeSocket 1008
          | some channel =>
            if h.sequence ≠ channel.clientSequence + 1 then k.closeSocket 1008
            else
              let k := k.modify channel.serial fun c => { c with clientSequence := h.sequence }
              k.hand channel frame answers

/-! ## Frames of the worker -/

structure SocketAnswers where
  buffered : Nat → Nat
  sent : Nat → Bool
  now : Nat → Int

def sendNow (k : Connection) (channel : Nat) (frame : Frame) (sent : Bool) : Connection × Bool :=
  if k.isOpen && sent then (k.record (.toClient channel frame), true) else (k.closeSocket 1011, false)

def schedule (k : Connection) : Connection := if k.closed || k.drainScheduled then k else { k with drainScheduled := true }

def setLane (k : Connection) (lane : Lane) (queue : Queue) : Connection :=
  { k with lanes := fun other => if other = lane then queue else k.lanes other }

/-- `send_or_queue`. -/
def sendOrQueue (limits : Lane → Limit) (k : Connection) (channel : Nat) (frame : Frame) (answers : SocketAnswers) :
    Connection × Bool :=
  let lane := frame.header.lane
  if !k.isOpen then (k, false)
  else if !(k.lanes lane).frames.isEmpty || maxBuffered < answers.buffered 0 then
    let queue := k.lanes lane
    if (limits lane).maxQueuedFrames ≤ queue.frames.length ||
        (limits lane).maxQueuedBytes < queue.bytes + frame.bytes.length then (k.closeSocket 1013, false)
    else
      let k := k.setLane lane ⟨queue.bytes + frame.bytes.length, queue.frames ++ [⟨channel, frame⟩]⟩
      ({ k with bytes := k.bytes + frame.bytes.length, frames := k.frames + 1,
                stalledAt := some (k.stalledAt.getD (answers.now 0)) }.schedule, true)
  else k.sendNow channel frame (answers.sent 0)

/-- `receive_worker`. -/
def receiveWorker (session : Session) (limits : Lane → Limit) (k : Connection) (frame : Frame) (consume : Bool)
    (answers : SocketAnswers) : Connection :=
  let h := frame.header
  if !k.current || h.sessionId ≠ session.sessionId || h.routeGeneration ≠ session.routeGeneration ||
      h.effectiveRoute ≠ .relay then k
  else
    let closing := (find k.closing h.channelId).isSome
    match (find k.channels h.channelId).or (find k.closing h.channelId) with
    | none => k.closeSocket 1008
    | some channel =>
      if !channel.expects h then k.closeSocket 1008
      else
        let k := k.modify channel.serial fun c => { c with workerSequence := h.sequence }
        let k := k.record (.fromWorker channel.serial frame)
        if closing then
          if h.kind.ends then { k with closing := k.closing.filter fun c => c.id ≠ h.channelId } else k
        else if !(frame.payload.isEmpty || consume) then k.closeSocket 1013
        else
          let result := k.sendOrQueue limits channel.serial frame answers
          if result.2 && h.kind.ends then result.1.release h.channelId false else result.1

/-! ## Draining the lanes -/

def pop (k : Connection) (lane : Lane) : Option (Queued × Connection) :=
  match (k.lanes lane).frames with
  | [] => none
  | next :: rest =>
    let bytes := next.frame.bytes.length
    let k := k.setLane lane ⟨(k.lanes lane).bytes - bytes, rest⟩
    some (next, { k with bytes := k.bytes - bytes, frames := k.frames - 1 })

/-- How a turn over the lanes ends. -/
inductive Turn
  | failed | idle | sent
  deriving DecidableEq, Repr

/-- One turn over the lanes. The `time` numbers the readings of the socket. -/
def drainTurn (answers : SocketAnswers) : List Lane → Connection → Nat → Turn → Connection × Nat × Turn
  | [], k, time, turn => (k, time, turn)
  | lane :: rest, k, time, turn =>
    match k.pop lane with
    | none => drainTurn answers rest k time turn
    | some (next, popped) =>
      let result := popped.sendNow next.channel next.frame (answers.sent time)
      if !result.2 then (result.1, time + 1, .failed)
      else
        let k := { result.1 with stalledAt := some (answers.now time) }
        if maxBuffered < answers.buffered (time + 1) then (k, time + 2, .sent) else drainTurn answers rest k (time + 2) .sent

def queued (k : Connection) : List Queued := laneOrder.flatMap fun lane => (k.lanes lane).frames

theorem length_pop {k popped : Connection} {lane : Lane} {next : Queued} (h : k.pop lane = some (next, popped)) :
    popped.queued.length + 1 = k.queued.length := by
  unfold pop at h
  split at h
  · cases h
  · next first rest hframes =>
    cases h
    cases lane <;> simp [queued, laneOrder, setLane, hframes] <;> omega

theorem queued_sendNow {k : Connection} (channel : Nat) (frame : Frame) (sent : Bool) :
    (k.sendNow channel frame sent).1.queued = k.queued := by
  unfold sendNow
  split <;> rfl

theorem drainTurn_length (answers : SocketAnswers) (ls : List Lane) (k : Connection) (time : Nat) (turn : Turn) :
    (drainTurn answers ls k time turn).1.queued.length ≤ k.queued.length ∧
      (turn = .idle → (drainTurn answers ls k time turn).2.2 = .sent →
        (drainTurn answers ls k time turn).1.queued.length < k.queued.length) := by
  fun_induction drainTurn answers ls k time turn with
  | case1 k time turn =>
    refine ⟨Nat.le_refl _, fun hidle hsent => ?_⟩
    rw [hidle] at hsent
    cases hsent
  | case2 lane rest k time turn hpop ih => exact ih
  | case3 lane rest k time turn next popped hpop result hfailed =>
    have hlength := length_pop hpop
    have hqueued : result.1.queued = popped.queued := queued_sendNow _ _ _
    rw [hqueued]
    exact ⟨by omega, fun _ hsent => by cases hsent⟩
  | case4 lane rest k time turn next popped hpop result hsent k' hfull =>
    have hlength := length_pop hpop
    have hqueued : k'.queued = popped.queued := queued_sendNow _ _ _
    rw [hqueued]
    exact ⟨by omega, fun _ _ => by omega⟩
  | case5 lane rest k time turn next popped hpop result hsent k' hroom ih =>
    have hlength := length_pop hpop
    have hqueued : k'.queued = popped.queued := queued_sendNow _ _ _
    rw [hqueued] at ih
    exact ⟨by omega, fun _ _ => by omega⟩

/-- While the socket takes frames, turn after turn until the lanes are empty; false when a frame was not taken. -/
def drainLoop (answers : SocketAnswers) (k : Connection) (time : Nat) : Connection × Bool :=
  if maxBuffered < answers.buffered time then (k, true)
  else
    let result := drainTurn answers laneOrder k (time + 1) .idle
    if result.2.2 = .failed then (result.1, false)
    else if h : result.2.2 = .sent then
      have := (drainTurn_length answers laneOrder k (time + 1) .idle).2 rfl h
      drainLoop answers result.1 result.2.1
    else (result.1, true)
termination_by k.queued.length

def drain (k : Connection) (answers : SocketAnswers) : Connection :=
  if !k.current || k.closed then k
  else
    let k := { k with drainScheduled := false }
    if !k.isOpen then k.retire
    else if maxBuffered < answers.buffered 0 then
      if k.stalledAt.any fun since => 5000 ≤ answers.now 0 - since then k.closeSocket 1013 else k.schedule
    else
      let result := drainLoop answers k 1
      if !result.2 then result.1
      else if result.1.frames = 0 then { result.1 with stalledAt := none }
      else result.1.schedule

/-- `Relay::close`, for a connection that the relay has. -/
def close (k : Connection) : Connection := if k.current then (k.closeSocket 1001).retire else k

inductive Call
  | receiveClient (binary : Bool) (frame : Option Frame) (answers : ClientAnswers)
  | receiveWorker (frame : Frame) (consume : Bool) (answers : SocketAnswers)
  | drain (answers : SocketAnswers)
  | retire
  | close
  /-- The socket is lost, or somebody else closes it: the session was revoked, the worker is offline. -/
  | hangUp
  /-- The client attaches again. -/
  | replaced

def Call.isClient : Call → Bool
  | .receiveClient .. => true
  | _ => false

def step (session : Session) (limits : Lane → Limit) (k : Connection) : Call → Connection
  | .receiveClient binary frame answers => k.receiveClient session binary frame answers
  | .receiveWorker frame consume answers => k.receiveWorker session limits frame consume answers
  | .drain answers => k.drain answers
  | .retire => k.retire
  | .close => k.close
  | .hangUp => { k with isOpen := false }
  | .replaced => { k.closeSocket 1012 with current := false }

def run (session : Session) (limits : Lane → Limit) (calls : List Call) : Connection :=
  calls.foldl (step session limits) attach

end Connection

end Cantrip.Relay
