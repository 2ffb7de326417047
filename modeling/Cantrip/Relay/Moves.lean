import Cantrip.Lib.History
import Cantrip.Lib.Keyed
import Cantrip.Relay.Connection
import Mathlib.Logic.Relation

/-!
# What a call of the relay does

Every call is a chain of moves (`step_moves`): a frame of the client or of the worker is counted on its channel, a
frame is sent, queued or taken from a queue, a channel is released, the connection is retired. What the moves
keep, the calls keep. The moves that count a frame of the client are told whether the socket must be open.
-/

namespace Cantrip.Relay

open Lib List Option

/-! ## Reading the log -/

namespace Event

def channel : Event → Nat
  | .fromClient n _ _ | .fromWorker n _ | .toClient n _ | .released n | .retired n _ => n

/-- A frame comes or goes. -/
def isFrame : Event → Bool
  | .fromClient .. | .fromWorker .. | .toClient .. => true
  | _ => false

/-- The frame of the client on channel `n`. -/
def admits (n : Nat) : Event → Option Frame
  | .fromClient m frame _ => if m = n then some frame else none
  | _ => none

/-- The frame of the client on channel `n` that the worker took. -/
def hands (n : Nat) : Event → Option Frame
  | .fromClient m frame taken => if m = n && taken then some frame else none
  | _ => none

/-- The frame of the worker on channel `n`. -/
def arrives (n : Nat) : Event → Option Frame
  | .fromWorker m frame => if m = n then some frame else none
  | _ => none

/-- The frame of channel `n` that the client was sent. -/
def shows (n : Nat) : Event → Option Frame
  | .toClient m frame => if m = n then some frame else none
  | _ => none

/-- The retirement of channel `n`, with the close frame that the worker was sent. -/
def retires (n : Nat) : Event → Option (Option Header)
  | .retired m header => if m = n then some header else none
  | _ => none

/-- What the worker was handed on channel `n`. -/
def reaches (n : Nat) : Event → Option Header
  | .fromClient m frame taken => if m = n && taken then some frame.header else none
  | .retired m header => if m = n then header else none
  | _ => none

end Event

def admitted (n : Nat) (log : List Event) : List Frame := log.filterMap (Event.admits n)

def handed (n : Nat) (log : List Event) : List Frame := log.filterMap (Event.hands n)

def arrived (n : Nat) (log : List Event) : List Frame := log.filterMap (Event.arrives n)

def shown (n : Nat) (log : List Event) : List Frame := log.filterMap (Event.shows n)

def retirements (n : Nat) (log : List Event) : List (Option Header) := log.filterMap (Event.retires n)

def toWorker (n : Nat) (log : List Event) : List Header := log.filterMap (Event.reaches n)

section Log

variable (n : Nat) (log : List Event) (event : Event)

theorem filterMap_concat {α β : Type} (f : α → Option β) (l : List α) (a : α) :
    (l ++ [a]).filterMap f = l.filterMap f ++ (f a).toList := by
  rw [filterMap_append]
  cases h : f a <;> simp [h]

theorem admitted_concat : admitted n (log ++ [event]) = admitted n log ++ (event.admits n).toList := filterMap_concat _ _ _

theorem handed_concat : handed n (log ++ [event]) = handed n log ++ (event.hands n).toList := filterMap_concat _ _ _

theorem arrived_concat : arrived n (log ++ [event]) = arrived n log ++ (event.arrives n).toList := filterMap_concat _ _ _

theorem shown_concat : shown n (log ++ [event]) = shown n log ++ (event.shows n).toList := filterMap_concat _ _ _

theorem retirements_concat : retirements n (log ++ [event]) = retirements n log ++ (event.retires n).toList :=
  filterMap_concat _ _ _

theorem toWorker_concat : toWorker n (log ++ [event]) = toWorker n log ++ (event.reaches n).toList := filterMap_concat _ _ _

end Log

namespace Connection

/-! ## Moves -/

def advance (frame : Frame) (taken : Bool) (c : Channel) : Channel :=
  { c with clientSequence := frame.header.sequence, delivered := if taken then frame.header.sequence else c.delivered }

def hear (frame : Frame) (c : Channel) : Channel := { c with workerSequence := frame.header.sequence }

/-- A frame of the client on channel `n`; the socket is closed when it was not taken. -/
def counted (k : Connection) (n : Nat) (frame : Frame) (taken : Bool) : Connection :=
  { (k.modify n (advance frame taken)).record (.fromClient n frame taken) with
    isOpen := k.isOpen && taken, closedWith := if taken then k.closedWith else (k.closeSocket 1013).closedWith }

def withChannel (k : Connection) (grant : Utf16) (frame : Frame) : Connection :=
  { k with channels := k.channels ++ [openChannel k.opened grant frame.header], opened := k.opened + 1 }

def heard (k : Connection) (n : Nat) (frame : Frame) : Connection :=
  (k.modify n (hear frame)).record (.fromWorker n frame)

def enqueue (k : Connection) (n : Nat) (frame : Frame) : Connection :=
  let queue := k.lanes frame.header.lane
  let k := k.setLane frame.header.lane ⟨queue.bytes + frame.bytes.length, queue.frames ++ [⟨n, frame⟩]⟩
  { k with bytes := k.bytes + frame.bytes.length, frames := k.frames + 1 }

/-- Nothing happens to the channels and the queues. -/
structure Quiet (k k' : Connection) : Prop where
  isOpen : k'.isOpen → k.isOpen
  closedWith : k.isOpen = false → k'.closedWith = k.closedWith
  current : k'.current → k.current
  closed : k'.closed = k.closed
  channels : k'.channels = k.channels
  closing : k'.closing = k.closing
  lanes : k'.lanes = k.lanes
  surfaces : k'.surfaces = k.surfaces
  bytes : k'.bytes = k.bytes
  frames : k'.frames = k.frames
  opened : k'.opened = k.opened
  log : k'.log = k.log

structure Heard (table : List Channel) (frame : Frame) (c : Channel) : Prop where
  found : find table frame.header.channelId = some c
  expected : c.expects frame.header

variable (attended : Prop) (limits : Lane → Limit)

inductive Move : Connection → Connection → Prop
  | quiet {k k' : Connection} (h : Quiet k k') : Move k k'
  | opening {k k' : Connection} (frame : Frame) (grant : Utf16) (resource : Resource) (acquire taken : Bool)
      (hclosed : k.closed = false) (hattended : attended → k.isOpen) (hkind : frame.header.kind = .open grant resource)
      (hchannels : find k.channels frame.header.channelId = none) (hclosing : find k.closing frame.header.channelId = none)
      (hretain : k.retainSurface grant resource frame.header.channelId acquire = some k') :
      Move k ((k'.withChannel grant frame).counted k'.opened frame taken)
  | next {k : Connection} {c : Channel} (frame : Frame) (taken : Bool) (hclosed : k.closed = false)
      (hattended : attended → k.isOpen) (hkind : frame.header.kind.isOpen = false)
      (hfound : find k.channels frame.header.channelId = some c) (hsequence : frame.header.sequence = c.clientSequence + 1) :
      Move k (k.counted c.serial frame taken)
  | released {k : Connection} {c : Channel} (id : Utf16) (awaitClose : Bool) (hclosed : k.closed = false)
      (hfound : find k.channels id = some c)
      (hreason : (∃ frame, (handed c.serial k.log).getLast? = some frame ∧ frame.header.kind = .close) ∨
        ∃ frame, (arrived c.serial k.log).getLast? = some frame ∧ frame.header.kind.ends) :
      Move k (k.release id awaitClose)
  | awaited {k : Connection} {c : Channel} (frame : Frame) (hclosed : k.closed = false) (h : Heard k.closing frame c) :
      Move k (k.heard c.serial frame)
  | forgotten {k : Connection} (id : Utf16) : Move k { k with closing := k.closing.filter fun c => c.id ≠ id }
  | dropped {k : Connection} {c : Channel} {code : Nat} (frame : Frame) (hclosed : k.closed = false)
      (h : Heard k.channels frame c) : Move k ((k.heard c.serial frame).closeSocket code)
  | sent {k : Connection} {c : Channel} (frame : Frame) (hclosed : k.closed = false) (h : Heard k.channels frame c)
      (hopen : k.isOpen) (hempty : (k.lanes frame.header.lane).frames = []) :
      Move k ((k.heard c.serial frame).record (.toClient c.serial frame))
  | queued {k : Connection} {c : Channel} (frame : Frame) (hclosed : k.closed = false) (h : Heard k.channels frame c)
      (hopen : k.isOpen)
      (hframes : (k.lanes frame.header.lane).frames.length < (limits frame.header.lane).maxQueuedFrames)
      (hbytes : (k.lanes frame.header.lane).bytes + frame.bytes.length ≤ (limits frame.header.lane).maxQueuedBytes) :
      Move k ((k.heard c.serial frame).enqueue c.serial frame)
  | popped {k k' : Connection} {q : Queued} (lane : Lane) (hclosed : k.closed = false) (hopen : k.isOpen)
      (hpop : k.pop lane = some (q, k')) : Move k (k'.record (.toClient q.channel q.frame))
  | lost {k k' : Connection} {q : Queued} (lane : Lane) (hclosed : k.closed = false) (hpop : k.pop lane = some (q, k')) :
      Move k (k'.closeSocket 1011)
  | retired {k : Connection} (hclosed : k.closed = false) : Move k k.retire

abbrev Moves : Connection → Connection → Prop := Relation.ReflTransGen (Move attended limits)

variable {attended : Prop} {limits : Lane → Limit} {k k' : Connection}

theorem Quiet.refl (k : Connection) : Quiet k k := ⟨id, fun _ => rfl, id, rfl, rfl, rfl, rfl, rfl, rfl, rfl, rfl, rfl⟩

theorem Quiet.shut (h : Quiet k k') (hshut : k.isOpen = false) : k'.isOpen = false := by
  cases hopen : k'.isOpen
  · rfl
  · rw [← hshut, h.isOpen hopen]

theorem Quiet.trans {k'' : Connection} (h : Quiet k k') (h' : Quiet k' k'') : Quiet k k'' :=
  ⟨fun ho => h.isOpen (h'.isOpen ho), fun ho => (h'.closedWith (h.shut ho)).trans (h.closedWith ho),
    fun hc => h.current (h'.current hc), h'.closed.trans h.closed,
    h'.channels.trans h.channels, h'.closing.trans h.closing, h'.lanes.trans h.lanes, h'.surfaces.trans h.surfaces,
    h'.bytes.trans h.bytes, h'.frames.trans h.frames, h'.opened.trans h.opened, h'.log.trans h.log⟩

theorem quiet_closeSocket (k : Connection) (code : Nat) : Quiet k (k.closeSocket code) :=
  ⟨nofun, fun hshut => by simp [closeSocket, hshut], id, rfl, rfl, rfl, rfl, rfl, rfl, rfl, rfl, rfl⟩

theorem moves_closeSocket (code : Nat) : Moves attended limits k (k.closeSocket code) := .single (.quiet (quiet_closeSocket k code))

theorem quiet_schedule (k : Connection) : Quiet k k.schedule := by
  unfold schedule
  split
  · exact .refl k
  · exact ⟨id, fun _ => rfl, id, rfl, rfl, rfl, rfl, rfl, rfl, rfl, rfl, rfl⟩

theorem quiet_stalled (k : Connection) (stalledAt : Option Int) : Quiet k { k with stalledAt } :=
  ⟨id, fun _ => rfl, id, rfl, rfl, rfl, rfl, rfl, rfl, rfl, rfl, rfl⟩

/-! ## Calls are chains of moves -/

theorem modify_modify {n : Nat} {f g : Channel → Channel} (hf : ∀ c, (f c).serial = c.serial) :
    (k.modify n f).modify n g = k.modify n fun c => g (f c) := by
  have hmap : ∀ table : List Channel, ((table.map fun c => if c.serial = n then f c else c).map
      fun c => if c.serial = n then g c else c) = table.map fun c => if c.serial = n then g (f c) else c := by
    intro table
    rw [List.map_map]
    refine map_congr_left fun c _ => ?_
    by_cases hserial : c.serial = n
    · simp [hserial, hf]
    · simp [hserial]
  unfold modify
  dsimp only
  rw [hmap, hmap]

theorem hand_eq (channel : Channel) (frame : Frame) (answers : ClientAnswers) : k.hand channel frame answers =
    if (frame.payload.isEmpty || answers.consume) && answers.worker then
      let k := (k.modify channel.serial fun c => { c with delivered := frame.header.sequence }).record
        (.fromClient channel.serial frame true)
      if frame.header.kind = .close then k.release channel.id true else k
    else (k.record (.fromClient channel.serial frame false)).closeSocket 1013 := by
  unfold hand
  cases frame.payload.isEmpty || answers.consume <;> cases answers.worker <;> rfl

theorem counted_false (n : Nat) (frame : Frame) : k.counted n frame false =
    ((k.modify n fun c => { c with clientSequence := frame.header.sequence }).record
      (.fromClient n frame false)).closeSocket 1013 := by
  simp [counted, closeSocket, record, advance, modify]

theorem counted_true (n : Nat) (frame : Frame) : k.counted n frame true =
    ((k.modify n fun c => { c with clientSequence := frame.header.sequence }).modify n
      fun c => { c with delivered := frame.header.sequence }).record (.fromClient n frame true) := by
  rw [modify_modify]
  · simp [counted, record, advance, modify]
  · intro c
    rfl

theorem find_modify (n : Nat) (f : Channel → Channel) (id : Utf16) (hf : ∀ c, (f c).header = c.header) :
    find (k.modify n f).channels id = (find k.channels id).map fun c => if c.serial = n then f c else c := by
  have hid : ∀ c : Channel, (if c.serial = n then f c else c).id = c.id := by
    intro c
    by_cases hserial : c.serial = n
    · simp only [hserial, if_true, Channel.id, hf]
    · simp only [hserial, if_false]
  unfold find modify
  rw [find?_map]
  congr 2
  funext c
  simp only [Function.comp, hid]

theorem hand_moves {m : Connection} {channel : Channel} {frame : Frame} {answers : ClientAnswers} (hclosed : m.closed = false)
    {c : Channel} (hfound : find m.channels channel.id = some c) (hserial : c.serial = channel.serial)
    (hfalse : Move attended limits k ((m.record (.fromClient channel.serial frame false)).closeSocket 1013))
    (htrue : Move attended limits k ((m.modify channel.serial fun c => { c with delivered := frame.header.sequence }).record
      (.fromClient channel.serial frame true))) :
    Moves attended limits k (m.hand channel frame answers) := by
  rw [hand_eq]
  split
  · dsimp only
    split
    · next hclose =>
      refine .tail (.single htrue) ?_
      have hfind := @find_modify m channel.serial (fun c => { c with delivered := frame.header.sequence }) channel.id
        fun _ => rfl
      rw [hfound, map_some, if_pos hserial] at hfind
      refine .released _ _ hclosed hfind (.inl ⟨frame, ?_, hclose⟩)
      dsimp only [record]
      rw [hserial, handed_concat]
      simp [Event.hands]
    · exact .single htrue
  · exact .single hfalse

theorem retainSurface_eq {grant id : Utf16} {resource : Resource} {acquire : Bool}
    (h : k.retainSurface grant resource id acquire = some k') : ∃ surfaces, k' = { k with surfaces } := by
  unfold retainSurface at h
  split at h
  · cases h
    exact ⟨k.surfaces, rfl⟩
  · split at h
    · cases h
      exact ⟨_, rfl⟩
    · split at h
      · cases h
        exact ⟨_, rfl⟩
      · cases h

theorem withChannel_modify (grant : Utf16) (frame : Frame) (f : Channel → Channel)
    (hfresh : ∀ c ∈ k.channels ++ k.closing, c.serial < k.opened) : (k.withChannel grant frame).modify k.opened f =
      { k with channels := k.channels ++ [f (openChannel k.opened grant frame.header)], opened := k.opened + 1 } := by
  have hne : ∀ c ∈ k.channels ++ k.closing, c.serial ≠ k.opened := fun c hc => (hfresh c hc).ne
  have hmap : ∀ table : List Channel, table ⊆ k.channels ++ k.closing →
      (table.map fun c => if c.serial = k.opened then f c else c) = table := by
    intro table htable
    conv_rhs => rw [← List.map_id table]
    exact map_congr_left fun c hc => if_neg (hne c (htable hc))
  unfold modify withChannel
  dsimp only
  rw [map_append, hmap k.channels (subset_append_left _ _), hmap k.closing (subset_append_right _ _)]
  simp [openChannel]

theorem receiveClient_moves (session : Session) (binary : Bool) (frame : Option Frame) (answers : ClientAnswers)
    (hfresh : ∀ c ∈ k.channels ++ k.closing, c.serial < k.opened) (hattended : attended → k.isOpen) :
    Moves attended limits k (k.receiveClient session binary frame answers) := by
  unfold receiveClient
  split
  · exact moves_closeSocket _
  · split
    · exact .refl
    · next hlive =>
      have hclosed : k.closed = false := by
        cases hk : k.closed
        · rfl
        · simp [hk] at hlive
      cases frame with
      | none => exact moves_closeSocket _
      | some frame =>
        dsimp only
        split
        · exact moves_closeSocket _
        · split
          · next grant resource hkind =>
            split
            · exact moves_closeSocket _
            · next hnew =>
              have hnone : find k.channels frame.header.channelId = none ∧ find k.closing frame.header.channelId = none := by
                simpa using hnew
              cases hretain : k.retainSurface grant resource frame.header.channelId answers.acquire with
              | none => exact moves_closeSocket _
              | some k' =>
                dsimp only
                obtain ⟨surfaces, hk'⟩ := retainSurface_eq hretain
                have hfresh' : ∀ c ∈ k'.channels ++ k'.closing, c.serial < k'.opened := by
                  rw [hk']
                  exact hfresh
                have hmove : ∀ taken, Move attended limits k ((k'.withChannel grant frame).counted k'.opened frame taken) :=
                  fun taken => .opening frame grant resource answers.acquire taken hclosed hattended hkind hnone.1 hnone.2 hretain
                have hadvance : ((k'.withChannel grant frame).modify k'.opened
                    fun c => { c with clientSequence := frame.header.sequence }) = k'.withChannel grant frame :=
                  withChannel_modify grant frame _ hfresh'
                have hfind : find (k'.withChannel grant frame).channels frame.header.channelId =
                    some (openChannel k'.opened grant frame.header) := by
                  have hnone' : find k'.channels frame.header.channelId = none := by
                    rw [hk']
                    exact hnone.1
                  unfold find withChannel at *
                  rw [find?_append, hnone', none_or]
                  exact find?_cons_of_pos (by simp [Channel.id, openChannel])
                refine hand_moves (m := k'.withChannel grant frame) ?_ hfind rfl ?_ ?_
                · rw [hk']
                  exact hclosed
                · have hfalse := hmove false
                  rw [counted_false, hadvance] at hfalse
                  exact hfalse
                · have htrue := hmove true
                  rw [counted_true, hadvance] at htrue
                  exact htrue
          · next hkind =>
            cases hfound : find k.channels frame.header.channelId with
            | none => exact moves_closeSocket _
            | some channel =>
              dsimp only
              split
              · exact moves_closeSocket _
              · next hsequence =>
                have hopen : frame.header.kind.isOpen = false := by
                  cases hk : frame.header.kind with
                  | «open» grant resource => exact absurd hk (hkind grant resource)
                  | _ => rfl
                have hmove : ∀ taken, Move attended limits k (k.counted channel.serial frame taken) :=
                  fun taken => .next frame taken hclosed hattended hopen hfound (by simpa using hsequence)
                have hid : channel.id = frame.header.channelId := by simpa using find?_some hfound
                have hfind := @find_modify k channel.serial (fun c => { c with clientSequence := frame.header.sequence })
                  channel.id fun _ => rfl
                rw [hid, hfound, map_some, if_pos rfl, ← hid] at hfind
                refine hand_moves hclosed hfind rfl ?_ ?_
                · have hfalse := hmove false
                  rw [counted_false] at hfalse
                  exact hfalse
                · have htrue := hmove true
                  rw [counted_true] at htrue
                  exact htrue

theorem closeSocket_eq_self (h : k.isOpen = false) (code : Nat) : k.closeSocket code = k := by
  cases k
  cases h
  rfl

theorem released_after_heard {c : Channel} {frame : Frame} (h : Heard k.channels frame c) (hclosed : k'.closed = false)
    (hchannels : k'.channels = (k.heard c.serial frame).channels)
    (harrived : arrived c.serial k'.log = arrived c.serial k.log ++ [frame]) (hends : frame.header.kind.ends) :
    Move attended limits k' (k'.release frame.header.channelId false) := by
  have hfind := @find_modify k c.serial (hear frame) frame.header.channelId fun _ => rfl
  rw [h.found, map_some, if_pos rfl] at hfind
  refine .released _ _ hclosed (c := hear frame c) ?_ (.inr ⟨frame, ?_, hends⟩)
  · rw [hchannels]
    exact hfind
  · have hlast : (arrived c.serial k'.log).getLast? = some frame := by
      rw [harrived, getLast?_concat]
    exact hlast

theorem sendOrQueue_moves {c : Channel} {frame : Frame} (answers : SocketAnswers) (hclosed : k.closed = false)
    (h : Heard k.channels frame c) :
    Moves attended limits k ((k.heard c.serial frame).sendOrQueue limits c.serial frame answers).1 ∧
      (((k.heard c.serial frame).sendOrQueue limits c.serial frame answers).2 →
        ((k.heard c.serial frame).sendOrQueue limits c.serial frame answers).1.closed = false ∧
        ((k.heard c.serial frame).sendOrQueue limits c.serial frame answers).1.channels = (k.heard c.serial frame).channels ∧
        arrived c.serial ((k.heard c.serial frame).sendOrQueue limits c.serial frame answers).1.log =
          arrived c.serial k.log ++ [frame]) := by
  have hdropped : ∀ code, Moves attended limits k ((k.heard c.serial frame).closeSocket code) := fun code =>
    .single (.dropped frame hclosed h)
  have harrived : arrived c.serial (k.heard c.serial frame).log = arrived c.serial k.log ++ [frame] := by
    refine (arrived_concat c.serial k.log _).trans ?_
    simp [Event.arrives]
  unfold sendOrQueue
  dsimp only
  split
  · next hopen =>
    have hopen' : (k.heard c.serial frame).isOpen = false := by simpa using hopen
    have hself := hdropped 1013
    rw [closeSocket_eq_self hopen'] at hself
    exact ⟨hself, nofun⟩
  · next hopen =>
    have hopen' : (k.heard c.serial frame).isOpen = true := by simpa using hopen
    split
    · split
      · exact ⟨hdropped _, nofun⟩
      · next hroom =>
        have hroom' : (k.lanes frame.header.lane).frames.length < (limits frame.header.lane).maxQueuedFrames ∧
            (k.lanes frame.header.lane).bytes + frame.bytes.length ≤ (limits frame.header.lane).maxQueuedBytes := by
          simp only [Bool.or_eq_true, decide_eq_true_eq, not_or, not_le, not_lt] at hroom
          exact hroom
        have hqueued : Move attended limits k ((k.heard c.serial frame).enqueue c.serial frame) :=
          .queued frame hclosed h hopen' hroom'.1 hroom'.2
        have hquiet : ∀ stalledAt, Quiet ((k.heard c.serial frame).enqueue c.serial frame)
            { (k.heard c.serial frame).enqueue c.serial frame with stalledAt }.schedule := fun stalledAt =>
          (quiet_stalled _ stalledAt).trans (quiet_schedule _)
        refine ⟨.tail (.single hqueued) (.quiet (hquiet _)), fun _ => ⟨?_, ?_, ?_⟩⟩
        · exact (hquiet _).closed.trans hclosed
        · exact (hquiet _).channels
        · exact (congrArg _ (hquiet _).log).trans harrived
    · next hdirect =>
      have hempty : (k.lanes frame.header.lane).frames = [] := by
        simp only [Bool.or_eq_true, not_or, Bool.not_eq_true, Bool.not_eq_false', List.isEmpty_iff] at hdirect
        exact hdirect.1
      unfold sendNow
      split
      · refine ⟨.single (.sent frame hclosed h hopen' hempty), fun _ => ⟨hclosed, rfl, ?_⟩⟩
        refine (arrived_concat c.serial _ _).trans ?_
        rw [harrived]
        simp [Event.arrives]
      · exact ⟨hdropped _, nofun⟩

theorem find_closing_eq_none {id : Utf16} {c : Channel} (hids : ((k.channels ++ k.closing).map Channel.id).Nodup)
    (h : find k.channels id = some c) : find k.closing id = none := by
  have hid : c.id = id := by simpa using find?_some h
  refine find?_eq_none.mpr fun d hd hsame => ?_
  rw [map_append, nodup_append] at hids
  refine hids.2.2 c.id (List.mem_map_of_mem (mem_of_find?_eq_some h)) d.id (List.mem_map_of_mem hd) ?_
  rw [hid]
  simpa using (of_decide_eq_true hsame).symm

theorem receiveWorker_moves (session : Session) (frame : Frame) (consume : Bool) (answers : SocketAnswers)
    (hids : ((k.channels ++ k.closing).map Channel.id).Nodup) (hcurrent : k.closed → k.current = false) :
    Moves attended limits k (k.receiveWorker session limits frame consume answers) := by
  unfold receiveWorker
  dsimp only
  split
  · exact .refl
  · next hlive =>
    have hclosed : k.closed = false := by
      cases hk : k.closed
      · rfl
      · simp [hcurrent hk] at hlive
    cases hclosing : find k.closing frame.header.channelId with
    | some c =>
      have hnone : find k.channels frame.header.channelId = none := by
        cases hfound : find k.channels frame.header.channelId with
        | none => rfl
        | some c' =>
          rw [find_closing_eq_none hids hfound] at hclosing
          cases hclosing
      rw [hnone, none_or]
      dsimp only
      split
      · exact moves_closeSocket _
      · next hexpects =>
        have hmove : Move attended limits k (k.heard c.serial frame) := .awaited frame hclosed ⟨hclosing, by simpa using hexpects⟩
        simp only [isSome_some, if_true]
        split
        · exact .tail (.single hmove) (.forgotten _)
        · exact .single hmove
    | none =>
      cases hfound : find k.channels frame.header.channelId with
      | none => exact moves_closeSocket _
      | some c =>
        rw [some_or]
        dsimp only
        split
        · exact moves_closeSocket _
        · next hexpects =>
          have hheard : Heard k.channels frame c := ⟨hfound, by simpa using hexpects⟩
          simp only [isSome_none, Bool.false_eq_true, if_false]
          split
          · exact .single (.dropped frame hclosed hheard)
          · obtain ⟨hmoves, hafter⟩ := @sendOrQueue_moves attended limits k c frame answers hclosed hheard
            split
            · next hends =>
              have hends' := Bool.and_eq_true_iff.mp hends
              obtain ⟨hclosed', hchannels, harrived⟩ := hafter hends'.1
              exact .tail hmoves (released_after_heard hheard hclosed' hchannels harrived hends'.2)
            · exact hmoves

/-! Draining -/

theorem pop_eq {lane : Lane} {q : Queued} (h : k.pop lane = some (q, k')) :
    ∃ lanes bytes frames, k' = { k with lanes, bytes, frames } := by
  unfold pop at h
  split at h
  · cases h
  · cases h
    exact ⟨_, _, _, rfl⟩

theorem sendNow_cases (k : Connection) (n : Nat) (frame : Frame) (sent : Bool) :
    k.sendNow n frame sent = (k.record (.toClient n frame), true) ∨ k.sendNow n frame sent = (k.closeSocket 1011, false) := by
  unfold sendNow
  split
  · exact .inl rfl
  · exact .inr rfl

theorem popped_moves {q : Queued} {lane : Lane} {answers : SocketAnswers} {time : Nat} (hclosed : k.closed = false)
    (hopen : k.isOpen) (hpop : k.pop lane = some (q, k'))
    (hsent : (k'.sendNow q.channel q.frame (answers.sent time)).2) :
    Moves attended limits k
        { (k'.sendNow q.channel q.frame (answers.sent time)).1 with stalledAt := some (answers.now time) } ∧
      (k'.sendNow q.channel q.frame (answers.sent time)).1.closed = false ∧
      (k'.sendNow q.channel q.frame (answers.sent time)).1.isOpen := by
  obtain ⟨_, _, _, hkept⟩ := pop_eq hpop
  rcases sendNow_cases k' q.channel q.frame (answers.sent time) with h | h
  · rw [h]
    refine ⟨.tail (.single (.popped lane hclosed hopen hpop)) (.quiet (quiet_stalled _ _)), ?_, ?_⟩
    · rw [hkept]
      exact hclosed
    · rw [hkept]
      exact hopen
  · rw [h] at hsent
    cases hsent

theorem drainTurn_moves (answers : SocketAnswers) (ls : List Lane) (k : Connection) (time : Nat) (turn : Turn)
    (hclosed : k.closed = false) (hopen : k.isOpen) (hturn : turn ≠ .failed) :
    Moves attended limits k (drainTurn answers ls k time turn).1 ∧ (drainTurn answers ls k time turn).1.closed = false ∧
      ((drainTurn answers ls k time turn).2.2 ≠ .failed → (drainTurn answers ls k time turn).1.isOpen) := by
  fun_induction drainTurn answers ls k time turn with
  | case1 k time turn => exact ⟨.refl, hclosed, fun _ => hopen⟩
  | case2 lane rest k time turn hpop ih => exact ih hclosed hopen hturn
  | case3 lane rest k time turn next popped hpop result hfailed =>
    obtain ⟨_, _, _, hkept⟩ := pop_eq hpop
    have hresult : result.1 = popped.closeSocket 1011 := by
      rcases sendNow_cases popped next.channel next.frame (answers.sent time) with h | h
      · simp [result, h] at hfailed
      · exact congrArg Prod.fst h
    rw [hresult]
    refine ⟨.single (.lost lane hclosed hpop), ?_, fun hnot => absurd rfl hnot⟩
    rw [hkept]
    exact hclosed
  | case4 lane rest k time turn next popped hpop result hsent k' hfull =>
    obtain ⟨hmoves, hclosed', hopen'⟩ := @popped_moves attended limits k popped next lane answers time hclosed hopen hpop
      (by simpa [result] using hsent)
    exact ⟨hmoves, hclosed', fun _ => hopen'⟩
  | case5 lane rest k time turn next popped hpop result hsent k' hroom ih =>
    obtain ⟨hmoves, hclosed', hopen'⟩ := @popped_moves attended limits k popped next lane answers time hclosed hopen hpop
      (by simpa [result] using hsent)
    obtain ⟨hrest, hafter⟩ := ih hclosed' hopen' (by simp)
    exact ⟨hmoves.trans hrest, hafter⟩

theorem drainLoop_moves (answers : SocketAnswers) (k : Connection) (time : Nat) (hclosed : k.closed = false) (hopen : k.isOpen) :
    Moves attended limits k (drainLoop answers k time).1 := by
  fun_induction drainLoop answers k time with
  | case1 => exact .refl
  | case2 k time hroom result hfailed => exact (drainTurn_moves answers _ k _ _ hclosed hopen (by simp)).1
  | case3 k time hroom result hgoing hsent hless ih =>
    obtain ⟨hmoves, hclosed', hopen'⟩ := @drainTurn_moves attended limits answers laneOrder k (time + 1) .idle hclosed hopen
      (by simp)
    exact hmoves.trans (ih hclosed' (hopen' hgoing))
  | case4 k time hroom result hgoing hidle => exact (drainTurn_moves answers _ k _ _ hclosed hopen (by simp)).1

theorem drain_moves (answers : SocketAnswers) : Moves attended limits k (k.drain answers) := by
  unfold drain
  split
  · exact .refl
  · next hlive =>
    have hclosed : k.closed = false := by
      cases hk : k.closed
      · rfl
      · simp [hk] at hlive
    have hquiet : Move attended limits k { k with drainScheduled := false } :=
      .quiet ⟨id, fun _ => rfl, id, rfl, rfl, rfl, rfl, rfl, rfl, rfl, rfl, rfl⟩
    dsimp only
    split
    · exact .tail (.single hquiet) (.retired hclosed)
    · next hopen =>
      split
      · split
        · exact .tail (.single hquiet) (.quiet (quiet_closeSocket _ _))
        · exact .tail (.single hquiet) (.quiet (quiet_schedule _))
      · have hloop : Moves attended limits k (drainLoop answers { k with drainScheduled := false } 1).1 :=
          .trans (.single hquiet) (drainLoop_moves answers _ 1 hclosed (by simpa using hopen))
        split
        · exact hloop
        · split
          · exact .tail hloop (.quiet (quiet_stalled _ _))
          · exact .tail hloop (.quiet (quiet_schedule _))

theorem retire_moves : Moves attended limits k k.retire := by
  cases hclosed : k.closed
  · exact .single (.retired hclosed)
  · have hself : k.retire = k := by
      unfold retire
      rw [if_pos hclosed]
    rw [hself]

theorem step_moves (session : Session) (call : Call) (hfresh : ∀ c ∈ k.channels ++ k.closing, c.serial < k.opened)
    (hids : ((k.channels ++ k.closing).map Channel.id).Nodup) (hcurrent : k.closed → k.current = false)
    (hattended : attended → call.isClient → k.isOpen) : Moves attended limits k (k.step session limits call) := by
  cases call with
  | receiveClient binary frame answers =>
    exact receiveClient_moves session binary frame answers hfresh fun ha => hattended ha rfl
  | receiveWorker frame consume answers => exact receiveWorker_moves session frame consume answers hids hcurrent
  | drain answers => exact drain_moves answers
  | retire => exact retire_moves
  | close =>
    simp only [step, close]
    split
    · exact (moves_closeSocket _).trans retire_moves
    · exact .refl
  | hangUp => exact .single (.quiet ⟨nofun, fun _ => rfl, id, rfl, rfl, rfl, rfl, rfl, rfl, rfl, rfl, rfl⟩)
  | replaced => exact .single (.quiet ⟨nofun, fun hshut => by simp [step, closeSocket, hshut], nofun, rfl, rfl, rfl, rfl, rfl, rfl, rfl, rfl, rfl⟩)

end Connection

end Cantrip.Relay
