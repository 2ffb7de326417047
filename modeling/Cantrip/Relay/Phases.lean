import Cantrip.Relay.Parties
import Cantrip.Relay.Moves

/-!
# The phases of a channel

What concerns one channel is its `View`: both sides, the frames on their way and what the relay has of it. Between
parties that keep to the protocol a channel goes through the phases of `Phase`.
-/

namespace Cantrip.Relay

open Lib List Option

/-! ## One channel -/

structure View where
  client : Option ClientSide
  up : List Frame
  channel : Option Channel
  closing : Option Channel
  /-- The relay has taken an end from the worker. -/
  answered : Bool
  down : List Header
  worker : Option WorkerSide
  back : List Frame

abbrev Frame.channelId (frame : Frame) : Utf16 := frame.header.channelId

abbrev Frame.sequence (frame : Frame) : Nat := frame.header.sequence

namespace Exchange

def view (s : Exchange) (id : Utf16) : View :=
  { client := s.client id, up := ofStream Frame.channelId id s.toRelay, channel := Connection.find s.relay.channels id,
    closing := Connection.find s.relay.closing id, answered := s.endedByWorker id,
    down := ofStream Header.channelId id s.toWorker, worker := s.worker id, back := ofStream Frame.channelId id s.fromWorker }

end Exchange

/-- The frames of the client after the opening, on their way to the relay. -/
abbrev UpFlight (session : Session) : Bool → Nat → List Frame → Nat → Prop :=
  Flight Frame.sequence (fun frame => session.names frame.header ∧ frame.header.kind.isOpen = false)
    fun frame => frame.header.kind = .close

/-- The frames of the worker on their way to the relay. -/
abbrev BackFlight (session : Session) (opening : Header) : Bool → Nat → List Frame → Nat → Prop :=
  Flight Frame.sequence (fun frame => session.names frame.header ∧ opening.agrees frame.header ∧
      frame.header.kind.answers = decide (frame.header.sequence = 0))
    fun frame => frame.header.kind.ends

/-- No opening is among the frames. -/
def NoOpening (headers : List Header) : Prop := ∀ h ∈ headers, h.kind.isOpen = false

inductive Heeded (session : Session) (v : View) (c : Channel) : Prop
  | unheard (rest : List Header) (hworker : v.worker = none) (hdown : v.down = c.header :: rest) (hopen : c.header.kind.isOpen)
      (hrest : NoOpening rest) (hback : v.back = []) (hsequence : c.workerSequence = -1)
  | heard (w : WorkerSide) (first : Nat) (hworker : v.worker = some w) (hopening : w.opening = c.header)
      (hdown : NoOpening v.down) (hsequence : c.workerSequence + 1 = first)
      (hback : BackFlight session w.opening w.ended first v.back w.next)

structure Unknown (v : View) : Prop where
  channel : v.channel = none
  closing : v.closing = none
  down : v.down = []
  worker : v.worker = none
  back : v.back = []

inductive Phase (session : Session) (v : View) : Prop
  | unopened (hclient : v.client = none) (hup : v.up = []) (hunknown : Unknown v)
  /-- The opening is on its way. -/
  | opening (c : ClientSide) (frame : Frame) (rest : List Frame) (hclient : v.client = some c) (hup : v.up = frame :: rest)
      (hnames : session.names frame.header) (hopen : frame.header.kind.isOpen)
      (hrest : UpFlight session c.ended (frame.sequence + 1) rest c.next) (hunknown : Unknown v)
  | open (c : ClientSide) (channel : Channel) (hclient : v.client = some c) (hchannel : v.channel = some channel)
      (hclosing : v.closing = none) (hup : UpFlight session c.ended (channel.clientSequence + 1) v.up c.next)
      (hheeded : Heeded session v channel)
  /-- The relay has passed on the close of the client. -/
  | closing (c : ClientSide) (channel : Channel) (hclient : v.client = some c) (hended : c.ended) (hup : v.up = [])
      (hchannel : v.channel = none) (hclosing : v.closing = some channel) (hheeded : Heeded session v channel)
  /-- The relay has taken the end from the worker. -/
  | ended (c : ClientSide) (w : WorkerSide) (hclient : v.client = some c) (hup : ∀ frame ∈ v.up, frame.header.kind.isOpen = false)
      (hchannel : v.channel = none) (hclosing : v.closing = none) (hanswered : v.answered) (hworker : v.worker = some w)
      (hended : w.ended) (hdown : NoOpening v.down) (hback : v.back = [])

section Parties

variable {session : Session} {v : View}

theorem Heeded.same {v' : View} {c : Channel} (h : Heeded session v c) (hdown : v'.down = v.down) (hworker : v'.worker = v.worker)
    (hback : v'.back = v.back) : Heeded session v' c := by
  cases h with
  | unheard rest hw hd hopen hrest hb hsequence => exact .unheard rest (hworker.trans hw) (hdown.trans hd) hopen hrest (hback.trans hb) hsequence
  | heard w first hw hopening hd hsequence hb =>
    refine .heard w first (hworker.trans hw) hopening ?_ hsequence ?_
    · rw [hdown]
      exact hd
    · rw [hback]
      exact hb

theorem Unknown.same {v' : View} (h : Unknown v) (hchannel : v'.channel = v.channel) (hclosing : v'.closing = v.closing)
    (hdown : v'.down = v.down) (hworker : v'.worker = v.worker) (hback : v'.back = v.back) : Unknown v' :=
  ⟨hchannel.trans h.channel, hclosing.trans h.closing, hdown.trans h.down, hworker.trans h.worker, hback.trans h.back⟩

theorem Phase.opens {frame : Frame} (h : Phase session v) (hclient : v.client = none) (hnames : session.names frame.header)
    (hopen : frame.header.kind.isOpen) :
    Phase session { v with client := some ⟨frame.header, frame.header.sequence + 1, false⟩, up := v.up ++ [frame] } := by
  cases h with
  | unopened _ hup hunknown =>
    refine .opening ⟨frame.header, frame.header.sequence + 1, false⟩ frame [] rfl ?_ hnames hopen flight_nil ?_
    · rw [hup, nil_append]
    · exact hunknown.same rfl rfl rfl rfl rfl
  | opening c f rest hc => rw [hclient] at hc; cases hc
  | «open» c channel hc => rw [hclient] at hc; cases hc
  | closing c channel hc => rw [hclient] at hc; cases hc
  | ended c w hc => rw [hclient] at hc; cases hc

theorem Kind.isOpen_of_ofClient {kind : Kind} (h : kind.ofClient) : kind.isOpen = false := by
  cases kind <;> first | rfl | cases h

theorem Phase.sends {c : ClientSide} {frame : Frame} (h : Phase session v) (hclient : v.client = some c)
    (hnames : session.names frame.header) (hmay : c.maySend frame.header) :
    Phase session { v with client := some { c with next := frame.header.sequence + 1, ended := decide (frame.header.kind = .close) },
                           up := v.up ++ [frame] } := by
  simp only [ClientSide.maySend, Bool.and_eq_true, Bool.not_eq_true', decide_eq_true_eq] at hmay
  obtain ⟨⟨hended, hsequence⟩, hkind⟩ := hmay
  have hopen := Kind.isOpen_of_ofClient hkind
  have hflight : ∀ {first : Nat} {frames : List Frame}, UpFlight session c.ended first frames c.next →
      UpFlight session (decide (frame.header.kind = .close)) first (frames ++ [frame]) (frame.header.sequence + 1) := by
    intro first frames hflight
    rw [hended] at hflight
    rw [hsequence]
    exact hflight.concat hsequence ⟨hnames, hopen⟩ id
  cases h with
  | unopened hc => rw [hclient] at hc; cases hc
  | opening c' f rest hc hup hf hopen' hrest hunknown =>
    obtain rfl : c = c' := some.inj (hclient.symm.trans hc)
    refine .opening _ f (rest ++ [frame]) rfl ?_ hf hopen' (hflight hrest) (hunknown.same rfl rfl rfl rfl rfl)
    rw [hup, cons_append]
  | «open» c' channel hc hchannel hclosing hup hheeded =>
    obtain rfl : c = c' := some.inj (hclient.symm.trans hc)
    exact .open _ channel rfl hchannel hclosing (hflight hup) (hheeded.same rfl rfl rfl)
  | closing c' channel hc hended' =>
    obtain rfl : c = c' := some.inj (hclient.symm.trans hc)
    exact absurd hended' (by rw [hended]; exact Bool.false_ne_true)
  | ended c' w hc hup hchannel hclosing hanswered hworker hw hdown hback =>
    refine .ended _ w rfl ?_ hchannel hclosing hanswered hworker hw hdown hback
    intro f hf
    rcases mem_append.mp hf with hf | hf
    · exact hup f hf
    · rw [mem_singleton.mp hf]
      exact hopen

theorem Phase.hears (h : Phase session v) (ends : Bool) :
    Phase session { v with client := v.client.map fun c : ClientSide => { c with ended := c.ended || ends } } := by
  cases h with
  | unopened hc hup hunknown => exact .unopened (by simp [hc]) hup (hunknown.same rfl rfl rfl rfl rfl)
  | opening c f rest hc hup hf hopen hrest hunknown =>
    exact .opening _ f rest (by rw [hc]; rfl) hup hf hopen (hrest.end ends) (hunknown.same rfl rfl rfl rfl rfl)
  | «open» c channel hc hchannel hclosing hup hheeded =>
    exact .open _ channel (by rw [hc]; rfl) hchannel hclosing (hup.end ends) (hheeded.same rfl rfl rfl)
  | closing c channel hc hended hup hchannel hclosing hheeded =>
    exact .closing _ channel (by rw [hc]; rfl) (by simp [hended]) hup hchannel hclosing (hheeded.same rfl rfl rfl)
  | ended c w hc hup hchannel hclosing hanswered hworker hw hdown hback =>
    exact .ended _ w (by rw [hc]; rfl) hup hchannel hclosing hanswered hworker hw hdown hback

theorem Heeded.takes {c : Channel} {h : Header} {rest : List Header} (hheeded : Heeded session v c) (hdown : v.down = h :: rest) :
    Heeded session { v with down := rest, worker := WorkerSide.take v.worker h } c := by
  cases hheeded with
  | unheard rest' hworker hd hopen hrest hback hsequence =>
    rw [hdown] at hd
    cases hd
    refine .heard ⟨c.header, 0, false, false⟩ 0 ?_ rfl hrest (by omega) ?_
    · simp [WorkerSide.take, hworker, hopen]
    · rw [hback]
      exact flight_nil
  | heard w first hworker hopening hd hsequence hback =>
    have hrest : NoOpening rest := fun h' hmem => hd h' (hdown ▸ mem_cons_of_mem h hmem)
    rw [hworker]
    by_cases hkind : h.kind = .close
    · exact .heard { w with closed := true } first (by simp [WorkerSide.take, hkind]) hopening hrest hsequence hback
    · exact .heard w first (by simp [WorkerSide.take, hkind]) hopening hrest hsequence hback

theorem Phase.workerTakes {h : Header} {rest : List Header} (hphase : Phase session v) (hdown : v.down = h :: rest) :
    Phase session { v with down := rest, worker := WorkerSide.take v.worker h } := by
  cases hphase with
  | unopened hc hup hunknown => exact absurd hdown (by rw [hunknown.down]; exact cons_ne_nil _ _ ∘ Eq.symm)
  | opening c f rest' hc hup hf hopen hrest hunknown =>
    exact absurd hdown (by rw [hunknown.down]; exact cons_ne_nil _ _ ∘ Eq.symm)
  | «open» c channel hc hchannel hclosing hup hheeded =>
    exact .open c channel hc hchannel hclosing hup (hheeded.takes hdown)
  | closing c channel hc hended hup hchannel hclosing hheeded =>
    exact .closing c channel hc hended hup hchannel hclosing (hheeded.takes hdown)
  | ended c w hc hup hchannel hclosing hanswered hworker hw hd hback =>
    have hrest : NoOpening rest := fun h' hmem => hd h' (hdown ▸ mem_cons_of_mem h hmem)
    rw [hworker]
    by_cases hkind : h.kind = .close
    · exact .ended c { w with closed := true } hc hup hchannel hclosing hanswered (by simp [WorkerSide.take, hkind]) hw hrest hback
    · exact .ended c w hc hup hchannel hclosing hanswered (by simp [WorkerSide.take, hkind]) hw hrest hback

theorem Heeded.sends {c : Channel} {w : WorkerSide} {frame : Frame} (hheeded : Heeded session v c) (hworker : v.worker = some w)
    (hnames : session.names frame.header) (hmay : w.maySend frame.header) :
    Heeded session { v with worker := some { w with next := frame.header.sequence + 1, ended := frame.header.kind.ends },
                            back := v.back ++ [frame] } c := by
  cases hheeded with
  | unheard rest' hw => rw [hworker] at hw; cases hw
  | heard w' first hw hopening hd hsequence hback =>
    obtain rfl : w = w' := some.inj (hworker.symm.trans hw)
    simp only [WorkerSide.maySend, Bool.and_eq_true, Bool.not_eq_true', decide_eq_true_eq] at hmay
    obtain ⟨⟨⟨⟨hended, hagrees⟩, hnext⟩, hkind⟩, -⟩ := hmay
    refine .heard _ first rfl hopening hd hsequence ?_
    rw [hended] at hback
    dsimp only
    rw [hnext]
    refine hback.concat hnext ⟨hnames, hagrees, ?_⟩ id
    rw [hnext]
    split at hkind
    · next hzero => simp [hkind, hzero]
    · next hzero =>
      simp only [hzero, decide_false]
      cases hk : frame.header.kind <;> first | rfl | (rw [hk] at hkind; cases hkind)

theorem Phase.workerSends {w : WorkerSide} {frame : Frame} (h : Phase session v) (hworker : v.worker = some w)
    (hnames : session.names frame.header) (hmay : w.maySend frame.header) :
    Phase session { v with worker := some { w with next := frame.header.sequence + 1, ended := frame.header.kind.ends },
                           back := v.back ++ [frame] } := by
  cases h with
  | unopened hc hup hunknown => rw [hunknown.worker] at hworker; cases hworker
  | opening c f rest' hc hup hf hopen hrest hunknown => rw [hunknown.worker] at hworker; cases hworker
  | «open» c channel hc hchannel hclosing hup hheeded =>
    exact .open c channel hc hchannel hclosing hup (hheeded.sends hworker hnames hmay)
  | closing c channel hc hended hup hchannel hclosing hheeded =>
    exact .closing c channel hc hended hup hchannel hclosing (hheeded.sends hworker hnames hmay)
  | ended c w' hc hup hchannel hclosing hanswered hw hended hd hback =>
    obtain rfl : w = w' := some.inj (hworker.symm.trans hw)
    simp [WorkerSide.maySend, hended] at hmay

end Parties

section Relay

variable {session : Session} {v : View}

theorem Heeded.handed {v' : View} {c c' : Channel} {h : Header} (hheeded : Heeded session v c) (hopen : h.kind.isOpen = false)
    (hheader : c'.header = c.header) (hsequence : c'.workerSequence = c.workerSequence) (hdown : v'.down = v.down ++ [h])
    (hworker : v'.worker = v.worker) (hback : v'.back = v.back) : Heeded session v' c' := by
  have hconcat : ∀ {headers : List Header}, NoOpening headers → NoOpening (headers ++ [h]) := by
    intro headers hheaders h' hmem
    rcases mem_append.mp hmem with hmem | hmem
    · exact hheaders h' hmem
    · rw [mem_singleton.mp hmem]
      exact hopen
  cases hheeded with
  | unheard rest hw hd hop hrest hb hnone =>
    refine .unheard (rest ++ [h]) (hworker.trans hw) ?_ (hheader ▸ hop) (hconcat hrest) (hback.trans hb) (hsequence.trans hnone)
    rw [hdown, hd, hheader, cons_append]
  | heard w first hw hopening hd hfirst hb =>
    refine .heard w first (hworker.trans hw) (hopening.trans hheader.symm) ?_ (by rw [hsequence]; exact hfirst) ?_
    · rw [hdown]
      exact hconcat hd
    · rw [hback]
      exact hb

theorem Heeded.introduced {c : Channel} (h : Unknown v) (hopen : c.header.kind.isOpen) (hsequence : c.workerSequence = -1)
    {v' : View} (hdown : v'.down = v.down ++ [c.header]) (hworker : v'.worker = v.worker) (hback : v'.back = v.back) :
    Heeded session v' c := by
  refine .unheard [] (hworker.trans h.worker) ?_ hopen nofun (hback.trans h.back) hsequence
  rw [hdown, h.down, nil_append]

theorem Heeded.next {c : Channel} {frame : Frame} {rest : List Frame} (hheeded : Heeded session v c)
    (hback : v.back = frame :: rest) : session.names frame.header ∧ c.expects frame.header ∧
      (∀ {v' : View} {c' : Channel}, c' = Connection.hear frame c → v'.down = v.down → v'.worker = v.worker → v'.back = rest →
        Heeded session v' c') ∧
      (frame.header.kind.ends → rest = [] ∧ ∃ w, v.worker = some w ∧ w.ended ∧ NoOpening v.down) := by
  cases hheeded with
  | unheard rest' hw hd hopen hrest hb hsequence => rw [hback] at hb; cases hb
  | heard w first hw hopening hd hsequence hb =>
    rw [hback] at hb
    obtain ⟨hnumber, ⟨hnames, hagrees, hanswers⟩, hlast, hflight⟩ := flight_cons.mp hb
    have hfirst : frame.header.sequence = first := hnumber
    rw [hopening] at hagrees hflight
    refine ⟨hnames, ?_, ?_, ?_⟩
    · have hnegative : decide (c.workerSequence < 0) = decide (frame.header.sequence = 0) := by
        rw [decide_eq_decide]
        omega
      simp only [Channel.expects, hagrees, hanswers, hnegative, Bool.true_and, Bool.and_eq_true, decide_eq_true_eq, and_true]
      omega
    · intro v' c' hc' hdown hworker hback'
      subst hc'
      refine .heard w (first + 1) (hworker.trans hw) hopening ?_ ?_ ?_
      · rw [hdown]
        exact hd
      · simp only [Connection.hear]
        omega
      · rw [hback', hopening]
        exact hflight
    · intro hends
      obtain ⟨hrest, hended⟩ := hlast hends
      exact ⟨hrest, w, hw, hended, hd⟩

end Relay

end Cantrip.Relay
