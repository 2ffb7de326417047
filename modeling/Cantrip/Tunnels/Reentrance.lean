import Cantrip.Tunnels.Broker

/-!
# The tunnel broker, called back (`tunnels/broker/mod.rs`, `tunnels/broker/receive.rs`)

`send`, `activity` and `consume` are called in the middle of a call, on a lock that the same thread may take again, and
each may call the broker before it answers. So a call is worked off in pieces. The stack holds what the calls under way
have still to do, the innermost first: while a callback is on top of it, the next input is a further call or the answer;
a job on top is done next, and up to the next callback nothing can come between. A call may still hold a connection that
has ended, so all are kept, at their numbers; the table says which one is found under a key.
-/

namespace Cantrip.Tunnels

open Lib

/-- A callback under way, with what its answer is for. A frame that is sent is at position `i` of the log. -/
inductive Callback
  | refusing (i : Nat)
  | recording
  | admitting (route : Route) (id : Utf16) (credit : Credit)
  | judging (n : Nat) (route : Route) (sender : Side) (header : Header) (payload : Bytes)
  | charging (n : Nat) (sender : Side) (header : Header) (payload : Bytes)
  | sending (n i : Nat)
  /-- A close frame of the broker, with the one that is sent next. -/
  | closing (n i : Nat) (next : Option Entry)

/-- What a call does next by itself. A connection is ended with a frame `lost` when this is over a frame that is already
counted and that the other side was not given, or did not take. -/
inductive Job (Time : Type)
  | receive (route : Route) (sender : Side) (header : Header) (payload : Bytes)
  | terminate (n : Nat) (reason : CloseCode) (lost : Bool)
  | finish (n : Nat)
  | expire (now : Time) (n : Nat)
  | remove (route : Route) (reason : CloseCode)

inductive Task (Time : Type)
  | callback (callback : Callback)
  | job (job : Job Time)

/-- A call of the broker or of the handle of a route, which is given by its number. -/
inductive Request (Time : Type)
  | register (registration : Registration)
  | receive (route : Nat) (sender : Side) (header : Header) (payload : Bytes)
  | recordActivity (tunnel attachment : Utf16)
  | revokeAttachment (attachment : Utf16)
  | sweep (now : Time)
  | close
  | closeRoute (route : Nat)
  | disconnectRoute (route : Nat)

/-- `now` is what the clock shows until the next callback. -/
inductive Input (Time : Type)
  | call (request : Request Time)
  | answer (value : Bool) (now : Time)
  | proceed (now : Time)

def Entry.answered (delivered : Bool) (entry : Entry) : Entry := { entry with delivered }

structure Machine (Time : Type) where
  routes : List Route
  /-- Every connection that was opened, at its number. -/
  objects : List (Connection Time)
  /-- `State::connections`: the numbers, under their keys. -/
  connections : List (Utf16 × Nat)
  bytesFrom : Nat
  bytesTo : Nat
  closed : Nat
  opened : Nat
  rejected : Nat
  terminations : CloseCode → Nat
  issued : List Route
  /-- What was sent; it counts as delivered until its callback answers otherwise. -/
  log : List Entry
  /-- What was counted in `terminations`. -/
  terminated : List (Nat × CloseCode)
  /-- What was counted in `closed`: the connection that was to be finished, and the one that left the table. -/
  finished : List (Nat × Nat)
  stack : List (Task Time)

namespace Machine

variable {Time : Type}

def new : Machine Time :=
  { routes := [], objects := [], connections := [], bytesFrom := 0, bytesTo := 0, closed := 0, opened := 0, rejected := 0,
    terminations := fun _ => 0, issued := [], log := [], terminated := [], finished := [], stack := [] }

def find (m : Machine Time) (key : Utf16) : Option Nat := (m.connections.find? fun e => e.1 = key).map Prod.snd

/-- The connection that is found under the key of connection `n`. -/
def holder (m : Machine Time) (n : Nat) : Option Nat := m.objects[n]?.bind fun c => m.find c.key

def put (m : Machine Time) (n : Nat) (c : Connection Time) : Machine Time := { m with objects := m.objects.set n c }

def push (m : Machine Time) (tasks : List (Task Time)) : Machine Time := { m with stack := tasks ++ m.stack }

def record (m : Machine Time) (entry : Entry) : Machine Time := { m with log := m.log ++ [entry] }

/-- What `send` answers for the frame at position `i`. -/
def settle (m : Machine Time) (i : Nat) (delivered : Bool) : Machine Time :=
  { m with log := m.log.modify i (Entry.answered delivered) }

def currentRoute (m : Machine Time) (route : Route) : Bool :=
  (m.routes.find? fun r => r.key = route.key).any fun r => r.serial = route.serial

/-! ## Connections -/

def finish (m : Machine Time) (n : Nat) : Machine Time :=
  match m.objects[n]? with
  | none => m
  | some c =>
    match m.find c.key with
    | some k => { m with connections := m.connections.filter fun e => e.1 ≠ c.key, closed := m.closed + 1,
                         finished := m.finished ++ [(n, k)] }
    | none => m

def counted (m : Machine Time) (n : Nat) (reason : CloseCode) : Machine Time :=
  { m with terminations := fun r => if r = reason then m.terminations r + 1 else m.terminations r,
           terminated := m.terminated ++ [(n, reason)] }

def sendClose (m : Machine Time) (n : Nat) (entry : Entry) (next : Option Entry) : Machine Time :=
  (m.record entry).push [.callback (.closing n m.log.length next)]

/-- Both headers are made before the first is sent. -/
def terminate (m : Machine Time) (n : Nat) (reason : CloseCode) : Machine Time :=
  match m.objects[n]? with
  | none => m
  | some c =>
    if (m.find c.key).isSome then
      let next := Broker.closeEntry c reason .destination true
      (m.counted n reason).sendClose n (Broker.closeEntry c reason .source true) (some next)
    else m

def afterClose (m : Machine Time) (n : Nat) : Option Entry → Machine Time
  | some entry => m.sendClose n entry none
  | none => m.finish n

def fail (m : Machine Time) (n : Nat) (reason : CloseCode) (lost : Bool) : Machine Time :=
  m.push [.job (.terminate n reason lost)]

def forward (m : Machine Time) (n : Nat) (c : Connection Time) (sender : Side) (header : Header) (payload : Bytes) :
    Machine Time :=
  (m.record (Broker.forwardEntry c sender header payload true)).push [.callback (.sending n m.log.length)]

def remove (m : Machine Time) (route : Route) (reason : CloseCode) : Machine Time :=
  if m.currentRoute route then
    let ended := m.connections.filter fun e => m.objects[e.2]?.any fun c => c.route.serial = route.serial
    let m := { m with routes := m.routes.filter fun r => r.key ≠ route.key }
    m.push (ended.map fun e => .job (.terminate e.2 reason false))
  else m

def expire (options : Options Time) (m : Machine Time) (now : Time) (n : Nat) : Machine Time :=
  match m.objects[n]?.bind (Broker.expiry options now) with
  | some reason => m.fail n reason false
  | none => m

/-! ## Frames -/

def reject (m : Machine Time) (route : Route) (id : Utf16) (code : RejectionCode) : Machine Time :=
  let m := { m with rejected := m.rejected + 1 }
  (m.record { connection := none, origin := .refusal, recipient := .source,
              header := Broker.identities route id 0 (.rejected code), payload := [], delivered := true }).push
    [.callback (.refusing m.log.length)]

def full (options : Options Time) (m : Machine Time) (tunnel : Utf16) : Bool :=
  options.maxConnections ≤ m.connections.length ||
    options.maxConnectionsPerTunnel ≤
      (m.connections.filter fun e => m.objects[e.2]?.any fun c => c.route.registration.tunnel = tunnel).length

/-- `IndexMap::insert`. -/
def insert (key : Utf16) (n : Nat) (connections : List (Utf16 × Nat)) : List (Utf16 × Nat) :=
  if connections.any fun e => e.1 = key then putKey Prod.fst (key, n) connections else connections ++ [(key, n)]

def opening (m : Machine Time) (route : Route) (id : Utf16) (credit : Credit) (now : Time) : Connection Time :=
  { serial := m.objects.length, route, id, created := now, last := now, window := now, bandwidth := 0,
    source := { sequence := 1, credit := 0, half := false },
    destination := { sequence := 0, credit := credit.bytes, half := false }, isOpen := false }

def connect (m : Machine Time) (route : Route) (id : Utf16) (credit : Credit) (now : Time) : Machine Time :=
  let c := m.opening route id credit now
  let m := { m with objects := m.objects ++ [c], connections := insert c.key c.serial m.connections, opened := m.opened + 1 }
  (m.record (Broker.connectEntry c credit true)).push [.callback (.sending c.serial m.log.length)]

/-- What follows the activity callback for an opening. The table is not looked at again. -/
def admitted (m : Machine Time) (route : Route) (id : Utf16) (credit : Credit) (value : Bool) (now : Time) : Machine Time :=
  if !m.currentRoute route then m
  else if !value then m.reject route id .unauthorized
  else m.connect route id credit now

/-- A frame that belongs to no connection: only an opening by the source means anything. -/
def receiveNew (options : Options Time) (m : Machine Time) (route : Route) (sender : Side) (header : Header)
    (payload : Bytes) : Machine Time :=
  match sender, header.kind with
  | .source, .open credit =>
    if header.sequence ≠ 0 ∨ !header.kind.admits payload then m.reject route header.connectionId .protocolError
    else if m.full options route.registration.tunnel then m.reject route header.connectionId .limitExceeded
    else m.push [.callback (.admitting route header.connectionId credit)]
  | _, _ => m

/-- The frame takes its number, before it is judged. -/
def receiveOn (m : Machine Time) (n : Nat) (route : Route) (sender : Side) (header : Header) (payload : Bytes)
    (now : Time) : Machine Time :=
  match m.objects[n]? with
  | none => m
  | some c =>
    if !header.kind.admits payload then m.fail n .protocolError false
    else
      let flow := c.flow sender
      if header.sequence ≠ flow.sequence then m.fail n .protocolError false
      else
        let c := { c.setFlow sender { flow with sequence := flow.sequence + 1 } with last := now }
        let m := m.put n c
        if !c.allowed sender header.kind then m.fail n .protocolError true
        else m.push [.callback (.judging n route sender header payload)]

def receive (options : Options Time) (m : Machine Time) (route : Route) (sender : Side) (header : Header)
    (payload : Bytes) (now : Time) : Machine Time :=
  let r := route.registration
  if header.tunnelId ≠ r.tunnel ∨ header.attachmentId ≠ r.attachment ∨ header.sourceEndpointId ≠ r.source ∨
      header.destinationEndpointId ≠ r.destination then m
  else
    match m.find (connectionKey route header.connectionId) with
    | none => m.receiveNew options route sender header payload
    | some n => m.receiveOn n route sender header payload now

def carry (m : Machine Time) (bytes : Nat) : Side → Machine Time
  | .source => { m with bytesFrom := m.bytesFrom + bytes }
  | .destination => { m with bytesTo := m.bytesTo + bytes }

/-- Data that may pass as far as bandwidth and quota go. -/
def spend (m : Machine Time) (n : Nat) (sender : Side) (header : Header) (payload : Bytes) : Machine Time :=
  match m.objects[n]? with
  | none => m
  | some c =>
    let flow := c.flow sender
    if flow.credit < header.kind.flow payload then m.fail n .protocolError true
    else
      let c := c.setFlow sender { flow with credit := flow.credit - header.kind.flow payload }
      ((m.put n c).carry payload.length sender).forward n c sender header payload

def receiveData (options : Options Time) (m : Machine Time) (n : Nat) (c : Connection Time) (route : Route) (sender : Side)
    (header : Header) (payload : Bytes) (now : Time) : Machine Time :=
  let c := Broker.throttled options c payload.length now
  let m := m.put n c
  if options.bytesPerSecond < c.bandwidth then m.fail n .bandwidthLimit true
  else if Broker.metered route.registration then m.push [.callback (.charging n sender header payload)]
  else m.spend n sender header payload

def receiveKind (options : Options Time) (m : Machine Time) (n : Nat) (c : Connection Time) (route : Route) (sender : Side)
    (header : Header) (payload : Bytes) (now : Time) : Machine Time :=
  match header.kind with
  | .accepted credit =>
    let c := { c with isOpen := true, source := { c.source with credit := credit.bytes } }
    (m.put n c).forward n c .destination header payload
  | .rejected _ =>
    ({ m with rejected := m.rejected + 1 }.push [.job (.finish n)]).forward n c .destination header payload
  | .data .. => m.receiveData options n c route sender header payload now
  | .credit _ bytes =>
    let flow := c.flow sender.other
    if maxCreditBytes < flow.credit + bytes.bytes then m.fail n .protocolError true
    else
      let c := c.setFlow sender.other { flow with credit := flow.credit + bytes.bytes }
      (m.put n c).forward n c sender header payload
  | .halfClose _ =>
    let c := c.setFlow sender { c.flow sender with half := true }
    (m.put n c).forward n c sender header payload
  | .close _ | .error _ => (m.push [.job (.finish n)]).forward n c sender header payload
  | .open _ | .connect .. => m

/-- What follows the activity callback for a frame in order. Only here is the table looked at again. -/
def judge (options : Options Time) (m : Machine Time) (n : Nat) (route : Route) (sender : Side) (header : Header)
    (payload : Bytes) (value : Bool) (now : Time) : Machine Time :=
  if !(value && m.currentRoute route) then m.fail n .endpointDisconnected true
  else if m.find (connectionKey route header.connectionId) ≠ some n then m
  else
    match m.objects[n]? with
    | none => m
    | some c => m.receiveKind options n c route sender header payload now

/-! ## Steps -/

def answered (options : Options Time) (m : Machine Time) (value : Bool) (now : Time) : Callback → Machine Time
  | .refusing i => m.settle i value
  | .recording => m
  | .admitting route id credit => m.admitted route id credit value now
  | .judging n route sender header payload => m.judge options n route sender header payload value now
  | .charging n sender header payload => if value then m.spend n sender header payload else m.fail n .bandwidthLimit true
  | .sending n i => if value then m.settle i true else (m.settle i false).fail n .congested true
  | .closing n i next => (m.settle i value).afterClose n next

def work (options : Options Time) (m : Machine Time) (now : Time) : Job Time → Machine Time
  | .receive route sender header payload => m.receive options route sender header payload now
  | .terminate n reason _ => m.terminate n reason
  | .finish n => m.finish n
  | .expire at_ n => m.expire options at_ n
  | .remove route reason => m.remove route reason

def register (options : Options Time) (m : Machine Time) (registration : Registration) : Machine Time :=
  let route : Route := ⟨m.issued.length, registration⟩
  if registration.source = registration.destination then m
  else if m.routes.any fun r => r.key = route.key then m
  else if options.maxRoutes ≤ m.routes.length then m
  else { m with routes := m.routes ++ [route], issued := m.issued ++ [route] }

def removeAll (m : Machine Time) (routes : List Route) (reason : CloseCode) : Machine Time :=
  m.push (routes.map fun route => .job (.remove route reason))

def call (options : Options Time) (m : Machine Time) : Request Time → Machine Time
  | .register registration => m.register options registration
  | .receive route sender header payload =>
    m.push (m.issued[route]?.toList.map fun route => .job (.receive route sender header payload))
  | .recordActivity tunnel attachment =>
    if m.routes.any fun r => r.key = tunnel ++ 0 :: attachment then m.push [.callback .recording] else m
  | .revokeAttachment attachment =>
    m.removeAll (m.routes.filter fun r => r.registration.attachment = attachment) .revoked
  | .sweep now => m.push (m.connections.map fun e => .job (.expire now e.2))
  | .close => m.removeAll m.routes .endpointDisconnected
  | .closeRoute route => m.removeAll m.issued[route]?.toList .normal
  | .disconnectRoute route => m.removeAll m.issued[route]?.toList .endpointDisconnected

/-- One input. What does not fit the top of the stack changes nothing. -/
def step (options : Options Time) (m : Machine Time) (input : Input Time) : Machine Time :=
  match m.stack, input with
  | [], .call request => m.call options request
  | .callback _ :: _, .call request => m.call options request
  | .callback callback :: rest, .answer value now => { m with stack := rest }.answered options value now callback
  | .job job :: rest, .proceed now => { m with stack := rest }.work options now job
  | _, _ => m

def run (options : Options Time) (inputs : List (Input Time)) : Machine Time := inputs.foldl (step options) new

end Machine

end Cantrip.Tunnels
