import Cantrip.Relay.Ordering
import Cantrip.Relay.Parties

/-!
# The codes with which the relay closes a socket

A socket is closed once, and a connection that is closed or replaced answers nothing more (`idle_step`). A frame that
its channel expects is counted or heard, or the socket is closed for want of a quota, of the worker or of room: never
with 1008.
-/

namespace Cantrip.Relay

open Lib List Option Bool

namespace Connection

variable {attended : Prop} {limits : Lane → Limit} {session : Session} {k k' : Connection}

/-! ## Closed sockets -/

/-- The socket is closed, but not for a fault of the client or the worker. -/
structure Spared (k : Connection) : Prop where
  shut : k.isOpen = false
  code : k.closedWith ≠ some 1008

theorem spared_closeSocket {code : Nat} (hopen : k.isOpen) (hcode : code ≠ 1008) : (k.closeSocket code).Spared := by
  refine ⟨rfl, ?_⟩
  unfold closeSocket
  dsimp only
  rw [if_pos hopen]
  exact fun h => hcode (some.inj h)

theorem closedWith_closeSocket {code : Nat} (hcode : code ≠ 1008) (h : k.closedWith ≠ some 1008) :
    (k.closeSocket code).closedWith ≠ some 1008 := by
  unfold closeSocket
  dsimp only
  split
  · exact fun he => hcode (some.inj he)
  · exact h

theorem release_socket (id : Utf16) (awaitClose : Bool) :
    (k.release id awaitClose).isOpen = k.isOpen ∧ (k.release id awaitClose).closedWith = k.closedWith := by
  unfold release
  split <;> exact ⟨rfl, rfl⟩

theorem Move.shut (h : Move attended limits k k') (hshut : k.isOpen = false) :
    k'.isOpen = false ∧ k'.closedWith = k.closedWith := by
  have hclose : ∀ code, (k.closeSocket code).closedWith = k.closedWith := fun code => by rw [closeSocket_eq_self hshut]
  cases h with
  | quiet h => exact ⟨h.shut hshut, h.closedWith hshut⟩
  | opening frame grant resource acquire taken hclosed hattended hkind hchannels hclosing hretain =>
    obtain ⟨surfaces, rfl⟩ := retainSurface_eq hretain
    refine ⟨by simp [Connection.counted, withChannel, hshut], ?_⟩
    cases taken
    · exact hclose 1013
    · rfl
  | next frame taken hclosed hattended hkind hfound hsequence =>
    refine ⟨by simp [Connection.counted, hshut], ?_⟩
    cases taken
    · exact hclose 1013
    · rfl
  | released id awaitClose hclosed hfound hreason =>
    obtain ⟨hisOpen, hclosedWith⟩ := @release_socket k id awaitClose
    exact ⟨hisOpen.trans hshut, hclosedWith⟩
  | awaited frame hclosed hheard => exact ⟨hshut, rfl⟩
  | forgotten id => exact ⟨hshut, rfl⟩
  | dropped frame hclosed hheard => exact ⟨rfl, hclose _⟩
  | sent frame hclosed hheard hopen => exact absurd hopen (by rw [hshut]; exact Bool.false_ne_true)
  | queued frame hclosed hheard hopen => exact absurd hopen (by rw [hshut]; exact Bool.false_ne_true)
  | popped lane hclosed hopen hpop => exact absurd hopen (by rw [hshut]; exact Bool.false_ne_true)
  | lost lane hclosed hpop =>
    obtain ⟨lanes, bytes, frames, rfl⟩ := pop_eq hpop
    exact ⟨rfl, hclose 1011⟩
  | retired hclosed =>
    unfold retire
    split <;> exact ⟨hshut, rfl⟩

theorem Moves.shut (h : Moves attended limits k k') (hshut : k.isOpen = false) :
    k'.isOpen = false ∧ k'.closedWith = k.closedWith := by
  induction h with
  | refl => exact ⟨hshut, rfl⟩
  | tail _ hmove ih =>
    obtain ⟨hisOpen, hclosedWith⟩ := hmove.shut ih.1
    exact ⟨hisOpen, hclosedWith.trans ih.2⟩

/-- The socket is closed or the relay has another connection for the session. -/
def Idle (k : Connection) : Prop := k.isOpen = false ∨ k.current = false

theorem idle_step (hsound : k.Sound limits) (hidle : k.Idle) (hcode : k.closedWith ≠ some 1008) (call : Call) :
    (k.step session limits call).Idle ∧ (k.step session limits call).closedWith ≠ some 1008 := by
  rcases hidle with hshut | hcurrent
  · obtain ⟨hisOpen, hclosedWith⟩ := Moves.shut (@Sound.step_moves False limits k hsound session call nofun) hshut
    exact ⟨.inl hisOpen, by rwa [hclosedWith]⟩
  · cases call with
    | receiveClient binary frame answers =>
      cases binary
      · exact ⟨.inl rfl, closedWith_closeSocket (by decide) hcode⟩
      · simp only [step, receiveClient, hcurrent, Bool.not_true, false_eq_true, if_false, Bool.not_false,
          Bool.or_true, if_true]
        exact ⟨.inr hcurrent, hcode⟩
    | receiveWorker frame consume answers =>
      simp only [step, receiveWorker, hcurrent, Bool.not_false, Bool.true_or, if_true]
      exact ⟨.inr hcurrent, hcode⟩
    | drain answers =>
      simp only [step, drain, hcurrent, Bool.not_false, Bool.true_or, if_true]
      exact ⟨.inr hcurrent, hcode⟩
    | retire =>
      simp only [step, retire]
      split
      · exact ⟨.inr hcurrent, hcode⟩
      · exact ⟨.inr rfl, hcode⟩
    | close =>
      simp only [step, close, hcurrent, false_eq_true, if_false]
      exact ⟨.inr hcurrent, hcode⟩
    | hangUp => exact ⟨.inl rfl, hcode⟩
    | replaced => exact ⟨.inl rfl, closedWith_closeSocket (by decide) hcode⟩

/-! ## Frames that the channel expects -/

structure Serves (k k' : Connection) : Prop where
  current : k'.current = k.current
  closedWith : k'.closedWith = k.closedWith
  channels : k'.channels = k.channels
  closing : k'.closing = k.closing
  log : ∃ more, k'.log = k.log ++ more ∧ ∀ event ∈ more, ∃ n frame, event = .toClient n frame

theorem Serves.silent (hcurrent : k'.current = k.current) (hclosed : k'.closedWith = k.closedWith) (hchannels : k'.channels = k.channels)
    (hclosing : k'.closing = k.closing) (hlog : k'.log = k.log) : Serves k k' :=
  ⟨hcurrent, hclosed, hchannels, hclosing, [], by rw [hlog, append_nil], by simp⟩

theorem Serves.refl (k : Connection) : Serves k k := .silent rfl rfl rfl rfl rfl

theorem Serves.trans {k'' : Connection} (h : Serves k k') (h' : Serves k' k'') : Serves k k'' := by
  obtain ⟨more, hlog, hmore⟩ := h.log
  obtain ⟨more', hlog', hmore'⟩ := h'.log
  refine ⟨h'.current.trans h.current, h'.closedWith.trans h.closedWith, h'.channels.trans h.channels, h'.closing.trans h.closing, more ++ more', ?_, ?_⟩
  · rw [hlog', hlog, append_assoc]
  · intro event hevent
    rcases mem_append.mp hevent with hevent | hevent
    · exact hmore event hevent
    · exact hmore' event hevent

theorem serves_schedule : Serves k k.schedule := by
  unfold schedule
  split
  · exact .refl k
  · exact .silent rfl rfl rfl rfl rfl

theorem serves_toClient (n : Nat) (frame : Frame) : Serves k (k.record (.toClient n frame)) := by
  refine ⟨rfl, rfl, rfl, rfl, [.toClient n frame], rfl, fun event hevent => ⟨n, frame, mem_singleton.mp hevent⟩⟩

theorem sendNow_serves (hopen : k.isOpen) (n : Nat) (frame : Frame) (sent : Bool) :
    ((k.sendNow n frame sent).2 = true ∧ Serves k (k.sendNow n frame sent).1 ∧ (k.sendNow n frame sent).1.isOpen) ∨
      ((k.sendNow n frame sent).2 = false ∧ (k.sendNow n frame sent).1.Spared) := by
  unfold sendNow
  split
  · exact .inl ⟨rfl, serves_toClient n frame, hopen⟩
  · exact .inr ⟨rfl, spared_closeSocket hopen (by decide)⟩

theorem sendOrQueue_serves (hopen : k.isOpen) (n : Nat) (frame : Frame) (answers : SocketAnswers) :
    ((k.sendOrQueue limits n frame answers).2 = true ∧ Serves k (k.sendOrQueue limits n frame answers).1) ∨
      ((k.sendOrQueue limits n frame answers).2 = false ∧ (k.sendOrQueue limits n frame answers).1.Spared) := by
  unfold sendOrQueue
  dsimp only
  rw [if_neg (by simp [hopen])]
  split
  · split
    · exact .inr ⟨rfl, spared_closeSocket hopen (by decide)⟩
    · refine .inl ⟨rfl, Serves.trans ?_ serves_schedule⟩
      exact .silent rfl rfl rfl rfl rfl
  · obtain ⟨htrue, hserves, -⟩ | hfalse := sendNow_serves hopen n frame (answers.sent 0)
    · exact .inl ⟨htrue, hserves⟩
    · exact .inr hfalse

theorem receiveClient_next {c : Channel} {frame : Frame} (answers : ClientAnswers) (hopen : k.isOpen) (hclosed : k.closed = false)
    (hcurrent : k.current) (hnames : session.names frame.header) (hkind : frame.header.kind.isOpen = false)
    (hfound : find k.channels frame.header.channelId = some c) (hsequence : frame.header.sequence = c.clientSequence + 1) :
    (k.receiveClient session true (some frame) answers).Spared ∨ k.receiveClient session true (some frame) answers =
        if frame.header.kind = .close then (k.counted c.serial frame true).release frame.header.channelId true
        else k.counted c.serial frame true := by
  have hid : c.id = frame.header.channelId := by simpa using find?_some hfound
  simp only [Session.names, and_eq_true, decide_eq_true_eq] at hnames
  unfold receiveClient
  rw [if_neg (by simp), if_neg (by simp [hclosed, hcurrent])]
  dsimp only
  rw [if_neg (by simp [hnames])]
  split
  · next grant resource hk => simp [hk, Kind.isOpen] at hkind
  · rw [hfound]
    dsimp only
    rw [if_neg (by simp [hsequence]), hand_eq]
    split
    · refine .inr ?_
      dsimp only
      rw [counted_true, hid]
    · exact .inl (spared_closeSocket hopen (by decide))

theorem receiveClient_open {frame : Frame} (answers : ClientAnswers) (hopen : k.isOpen) (hclosed : k.closed = false)
    (hcurrent : k.current) (hfresh : ∀ c ∈ k.channels ++ k.closing, c.serial < k.opened) (hnames : session.names frame.header)
    (hkind : frame.header.kind.isOpen) (hchannels : find k.channels frame.header.channelId = none)
    (hclosing : find k.closing frame.header.channelId = none) :
    (k.receiveClient session true (some frame) answers).Spared ∨
      ∃ grant surfaces, k.receiveClient session true (some frame) answers =
        ({ k with surfaces }.withChannel grant frame).counted k.opened frame true := by
  simp only [Session.names, and_eq_true, decide_eq_true_eq] at hnames
  unfold receiveClient
  rw [if_neg (by simp), if_neg (by simp [hclosed, hcurrent])]
  dsimp only
  rw [if_neg (by simp [hnames])]
  split
  · next grant resource hk =>
    rw [if_neg (by simp [hchannels, hclosing])]
    cases hretain : k.retainSurface grant resource frame.header.channelId answers.acquire with
    | none => exact .inl (spared_closeSocket hopen (by decide))
    | some m =>
      obtain ⟨surfaces, rfl⟩ := retainSurface_eq hretain
      dsimp only
      rw [hand_eq]
      split
      · refine .inr ⟨grant, surfaces, ?_⟩
        dsimp only
        rw [if_neg (by rw [hk]; exact Kind.noConfusion), counted_true]
        have hadvance : (({ k with surfaces }.withChannel grant frame).modify k.opened
            fun c => { c with clientSequence := frame.header.sequence }) = { k with surfaces }.withChannel grant frame :=
          @withChannel_modify { k with surfaces } grant frame _ hfresh
        rw [hadvance]
        rfl
      · exact .inl (spared_closeSocket hopen (by decide))
  · next hk =>
    cases hkind' : frame.header.kind with
    | «open» grant resource => exact absurd hkind' (hk grant resource)
    | _ => simp [hkind', Kind.isOpen] at hkind

theorem receiveWorker_next {c : Channel} {frame : Frame} (consume : Bool) (answers : SocketAnswers) (hopen : k.isOpen)
    (hcurrent : k.current) (hnames : session.names frame.header) (hfound : find k.channels frame.header.channelId = some c)
    (hclosing : find k.closing frame.header.channelId = none) (hexpects : c.expects frame.header) :
    (k.receiveWorker session limits frame consume answers).Spared ∨
      ∃ k₁, Serves (k.heard c.serial frame) k₁ ∧ k.receiveWorker session limits frame consume answers =
        if frame.header.kind.ends then k₁.release frame.header.channelId false else k₁ := by
  simp only [Session.names, and_eq_true, decide_eq_true_eq] at hnames
  unfold receiveWorker
  dsimp only
  rw [if_neg (by simp [hcurrent, hnames]), hfound, hclosing]
  dsimp only [Option.or]
  rw [if_neg (by simp [hexpects]), if_neg (by simp)]
  split
  · exact .inl (spared_closeSocket hopen (by decide))
  · have hserved := @sendOrQueue_serves limits (k.heard c.serial frame) hopen c.serial frame answers
    unfold heard hear at hserved ⊢
    generalize sendOrQueue limits _ c.serial frame answers = result at hserved ⊢
    obtain ⟨hsent, hserves⟩ | ⟨hsent, hspared⟩ := hserved
    · refine .inr ⟨result.1, hserves, ?_⟩
      rw [hsent, Bool.true_and]
    · refine .inl ?_
      rw [hsent, Bool.false_and, if_neg Bool.false_ne_true]
      exact hspared

theorem receiveWorker_awaited {c : Channel} {frame : Frame} (consume : Bool) (answers : SocketAnswers) (hcurrent : k.current)
    (hnames : session.names frame.header) (hfound : find k.channels frame.header.channelId = none)
    (hclosing : find k.closing frame.header.channelId = some c) (hexpects : c.expects frame.header) :
    k.receiveWorker session limits frame consume answers =
      if frame.header.kind.ends then
        { k.heard c.serial frame with closing := (k.heard c.serial frame).closing.filter fun d => d.id ≠ frame.header.channelId }
      else k.heard c.serial frame := by
  simp only [Session.names, and_eq_true, decide_eq_true_eq] at hnames
  unfold receiveWorker
  dsimp only
  rw [if_neg (by simp [hcurrent, hnames]), hfound, hclosing]
  dsimp only [Option.or]
  rw [if_neg (by simp [hexpects]), if_pos (by simp)]
  rfl

/-! ## Other calls -/

theorem serves_pop {lane : Lane} {q : Queued} (hpop : k.pop lane = some (q, k')) : Serves k k' ∧ k'.isOpen = k.isOpen := by
  obtain ⟨lanes, bytes, frames, rfl⟩ := pop_eq hpop
  exact ⟨.silent rfl rfl rfl rfl rfl, rfl⟩

theorem drainTurn_serves (answers : SocketAnswers) (ls : List Lane) (k : Connection) (time : Nat) (turn : Turn)
    (hopen : k.isOpen) (hturn : turn ≠ .failed) :
    ((drainTurn answers ls k time turn).2.2 ≠ .failed ∧ Serves k (drainTurn answers ls k time turn).1 ∧
        (drainTurn answers ls k time turn).1.isOpen) ∨
      ((drainTurn answers ls k time turn).2.2 = .failed ∧ (drainTurn answers ls k time turn).1.Spared) := by
  fun_induction drainTurn answers ls k time turn with
  | case1 k time turn => exact .inl ⟨hturn, .refl k, hopen⟩
  | case2 lane rest k time turn hpop ih => exact ih hopen hturn
  | case3 lane rest k time turn next popped hpop result hfailed =>
    have hopen' : popped.isOpen := (serves_pop hpop).2.trans hopen
    obtain ⟨hsent, -⟩ | ⟨-, hspared⟩ := sendNow_serves hopen' next.channel next.frame (answers.sent time)
    · exact absurd hsent (by simpa [result] using hfailed)
    · exact .inr ⟨rfl, hspared⟩
  | case4 lane rest k time turn next popped hpop result hsent k' hfull =>
    obtain ⟨hserves, hisOpen⟩ := serves_pop hpop
    obtain ⟨-, hserves', hopen'⟩ | ⟨hfailed, -⟩ := sendNow_serves (hisOpen.trans hopen) next.channel next.frame (answers.sent time)
    · exact .inl ⟨Turn.noConfusion, (hserves.trans hserves').trans (.silent rfl rfl rfl rfl rfl), hopen'⟩
    · exact absurd hfailed (by simpa [result] using hsent)
  | case5 lane rest k time turn next popped hpop result hsent k' hroom ih =>
    obtain ⟨hserves, hisOpen⟩ := serves_pop hpop
    obtain ⟨-, hserves', hopen'⟩ | ⟨hfailed, -⟩ := sendNow_serves (hisOpen.trans hopen) next.channel next.frame (answers.sent time)
    · have hstalled : Serves k k' := (hserves.trans hserves').trans (.silent rfl rfl rfl rfl rfl)
      obtain ⟨hturn', hserves'', hopen''⟩ | hspared := ih hopen' Turn.noConfusion
      · exact .inl ⟨hturn', hstalled.trans hserves'', hopen''⟩
      · exact .inr hspared
    · exact absurd hfailed (by simpa [result] using hsent)

theorem drainLoop_serves (answers : SocketAnswers) (k : Connection) (time : Nat) (hopen : k.isOpen) :
    ((drainLoop answers k time).2 = true ∧ Serves k (drainLoop answers k time).1) ∨
      ((drainLoop answers k time).2 = false ∧ (drainLoop answers k time).1.Spared) := by
  fun_induction drainLoop answers k time with
  | case1 k time hfull => exact .inl ⟨rfl, .refl k⟩
  | case2 k time hroom result hfailed =>
    obtain ⟨hturn, -⟩ | ⟨-, hspared⟩ := drainTurn_serves answers laneOrder k (time + 1) .idle hopen Turn.noConfusion
    · exact absurd hfailed hturn
    · exact .inr ⟨rfl, hspared⟩
  | case3 k time hroom result hfailed hsent _ ih =>
    obtain ⟨-, hserves, hopen'⟩ | ⟨hturn, -⟩ := drainTurn_serves answers laneOrder k (time + 1) .idle hopen Turn.noConfusion
    · obtain ⟨htrue, hserves'⟩ | hspared := ih hopen'
      · exact .inl ⟨htrue, hserves.trans hserves'⟩
      · exact .inr hspared
    · exact absurd hturn hfailed
  | case4 k time hroom result hfailed hsent =>
    obtain ⟨-, hserves, -⟩ | ⟨hturn, -⟩ := drainTurn_serves answers laneOrder k (time + 1) .idle hopen Turn.noConfusion
    · exact .inl ⟨rfl, hserves⟩
    · exact absurd hturn hfailed

theorem drain_serves (answers : SocketAnswers) (hopen : k.isOpen) : Serves k (k.drain answers) ∨ (k.drain answers).Spared := by
  have hscheduled : Serves k { k with drainScheduled := false } := .silent rfl rfl rfl rfl rfl
  unfold drain
  dsimp only
  split
  · exact .inl (.refl k)
  · rw [if_neg (by simp [hopen])]
    split
    · split
      · exact .inr (spared_closeSocket hopen (by decide))
      · exact .inl (hscheduled.trans serves_schedule)
    · obtain ⟨htrue, hserves⟩ | ⟨hfalse, hspared⟩ := drainLoop_serves answers { k with drainScheduled := false } 1 hopen
      · rw [if_neg (by simp [htrue])]
        refine .inl (hscheduled.trans (hserves.trans ?_))
        split
        · exact .silent rfl rfl rfl rfl rfl
        · exact serves_schedule
      · rw [if_pos (by simp [hfalse])]
        exact .inr hspared

theorem called_step {call : Call} (hcall : Exchange.bringsFrame call = false) (hopen : k.isOpen) (hcode : k.closedWith ≠ some 1008) :
    Serves k (k.step session limits call) ∨
      (k.step session limits call).Idle ∧ (k.step session limits call).closedWith ≠ some 1008 := by
  cases call with
  | receiveClient => cases hcall
  | receiveWorker => cases hcall
  | drain answers =>
    obtain hserves | hspared := @drain_serves k answers hopen
    · exact .inl hserves
    · exact .inr ⟨.inl hspared.shut, hspared.code⟩
  | retire =>
    simp only [step, retire]
    split
    · exact .inl (.refl k)
    · exact .inr ⟨.inr rfl, hcode⟩
  | close =>
    simp only [step, close]
    split
    · unfold retire
      split
      · exact .inr ⟨.inl rfl, closedWith_closeSocket (by decide) hcode⟩
      · exact .inr ⟨.inl rfl, closedWith_closeSocket (by decide) hcode⟩
    · exact .inl (.refl k)
  | hangUp => exact .inr ⟨.inl rfl, hcode⟩
  | replaced => exact .inr ⟨.inl rfl, closedWith_closeSocket (by decide) hcode⟩

end Connection

end Cantrip.Relay
