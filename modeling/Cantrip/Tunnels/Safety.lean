import Cantrip.Tunnels.Streams
import Mathlib.Data.List.Induction

/-!
# The broker's calls keep the streams

Each call of the broker, whatever the callbacks answer, leads from a sound broker to a sound one, so every log of a
run is conforming: frames are forwarded in order, data only between an acceptance and the sender's half-close and
only within the credit that was granted.
-/

namespace Cantrip.Tunnels

open Lib List Option

/-! ## Receiving a frame -/

namespace Connection

variable {Time : Type} {c₀ c c' : Connection Time} {sender : Side} {header : Header} {payload : Bytes} {log : List Entry}

@[simp] theorem setFlow_serial (c : Connection Time) (side : Side) (flow : Flow) : (c.setFlow side flow).serial = c.serial := by
  cases side <;> rfl

@[simp] theorem setFlow_route (c : Connection Time) (side : Side) (flow : Flow) : (c.setFlow side flow).route = c.route := by
  cases side <;> rfl

@[simp] theorem setFlow_id (c : Connection Time) (side : Side) (flow : Flow) : (c.setFlow side flow).id = c.id := by
  cases side <;> rfl

@[simp] theorem setFlow_isOpen (c : Connection Time) (side : Side) (flow : Flow) : (c.setFlow side flow).isOpen = c.isOpen := by
  cases side <;> rfl

theorem flow_setFlow (c : Connection Time) (side other : Side) (flow : Flow) :
    (c.setFlow side flow).flow other = if other = side then flow else c.flow other := by
  cases side <;> cases other <;> rfl

structure Same (c c' : Connection Time) : Prop where
  serial : c'.serial = c.serial
  route : c'.route = c.route
  id : c'.id = c.id

theorem Same.key (h : c.Same c') : c'.key = c.key := by
  unfold Connection.key
  rw [h.route, h.id]

structure Advanced (c₀ c : Connection Time) (sender : Side) : Prop where
  serial : c.serial = c₀.serial
  isOpen : c.isOpen = c₀.isOpen
  sequence : ∀ side, (c.flow side).sequence = (c₀.flow side).sequence + if side = sender then 1 else 0
  credit : ∀ side, (c.flow side).credit = (c₀.flow side).credit
  half : ∀ side, (c.flow side).half = (c₀.flow side).half

theorem Tracks.legal (h : c₀.Tracks log) (hadvanced : c₀.Advanced c sender) (hserial : c'.serial = c.serial)
    (hsequence : header.sequence = (c₀.flow sender).sequence) (hallowed : c.allowed sender header.kind)
    (hcredit : header.kind.isData → header.kind.flow payload ≤ (c₀.flow sender).credit) (delivered : Bool) :
    (Broker.forwardEntry c' sender header payload delivered).Legal log c'.serial sender := by
  rw [hserial, hadvanced.serial]
  refine ⟨?_, fun haccepted => ?_, fun hdata => ?_⟩
  · exact hsequence.trans (h.sequence sender)
  · cases hkind : header.kind with
    | accepted credit =>
      rw [hkind] at hallowed
      have hclosed : sender = .destination ∧ c.isOpen = false := by simpa [allowed] using hallowed
      refine ⟨hclosed.1, fun hopen => ?_⟩
      rw [← h.isOpen, ← hadvanced.isOpen, hclosed.2] at hopen
      cases hopen
    | _ => simp [Broker.forwardEntry, hkind, Kind.isAccepted] at haccepted
  · cases hkind : header.kind with
    | data direction protection =>
      rw [hkind] at hallowed
      have hopen : (c.isOpen ∧ (c.flow sender).half = false) ∧ direction = sender.direction := by
        simpa [allowed] using hallowed
      refine ⟨?_, fun hhalf => ?_, ?_⟩
      · rw [← h.isOpen, ← hadvanced.isOpen]
        exact hopen.1.1
      · rw [← h.half sender, ← hadvanced.half sender, hopen.1.2] at hhalf
        cases hhalf
      · have hspent := h.credit sender
        have hflow := hcredit hdata
        dsimp only [Broker.forwardEntry]
        omega
    | _ => simp [Broker.forwardEntry, hkind, Kind.isData] at hdata

theorem Tracks.counts_data {c₁ : Connection Time} (h : c₀.Tracks log) (hadvanced : c₀.Advanced c sender)
    (hserial : c₁.serial = c.serial) (hopen : c₁.isOpen = c.isOpen) (hflow : ∀ side, c₁.flow side = c.flow side)
    (hdata : header.kind.isData) (hcredit : header.kind.flow payload ≤ (c₀.flow sender).credit)
    (hc' : c₁.setFlow sender { c₁.flow sender with credit := (c₁.flow sender).credit - header.kind.flow payload } = c') :
    c₀.Counts c' sender header.kind payload := by
  have hkind : header.kind.isAccepted = false ∧ header.kind.isHalfClose = false := by
    cases hkind : header.kind <;> simp_all [Kind.isData, Kind.isAccepted, Kind.isHalfClose]
  subst hc'
  refine ⟨?_, fun side => ?_, ?_, fun side => ?_, ?_, ?_, fun side => ?_⟩
  · rw [setFlow_serial, hserial, hadvanced.serial]
  · rw [← hadvanced.sequence side, ← hflow side, flow_setFlow]
    split
    · next hside => rw [hside]
    · rfl
  · simp [hopen, hadvanced.isOpen, hkind.1]
  · rw [← hadvanced.half side, ← hflow side, flow_setFlow]
    split
    · next hside => simp [hside, hkind.2]
    · next hside => simp [hside]
  · rw [flow_setFlow, if_pos rfl, if_pos hdata, hflow, hadvanced.credit]
    dsimp only
    omega
  · rw [flow_setFlow, if_neg (Side.other_ne sender), hflow, hadvanced.credit]
    omega
  · have hbounded := h.bounded side
    rw [flow_setFlow]
    split
    · next hside =>
      rw [hflow, hadvanced.credit, ← hside]
      dsimp only
      omega
    · rw [hflow, hadvanced.credit]
      exact hbounded

theorem Tracks.counts_accepted (h : c₀.Tracks log) (hadvanced : c₀.Advanced c .destination) (credit : Credit) :
    c₀.Counts { c with isOpen := true, source := { c.source with credit := credit.bytes } } .destination
      (.accepted credit) payload := by
  have hdestination := hadvanced.credit .destination
  refine ⟨hadvanced.serial, fun side => ?_, ?_, fun side => ?_, ?_, ?_, fun side => ?_⟩
  · rw [← hadvanced.sequence side]
    cases side <;> rfl
  · simp [Kind.isAccepted]
  · rw [← hadvanced.half side]
    cases side <;> simp [flow, Kind.isHalfClose]
  · simpa [flow, Kind.isData] using hdestination.le
  · exact Nat.le_add_left _ _
  · cases side with
    | source => exact credit.le
    | destination => exact hdestination.le.trans (h.bounded .destination)

theorem Tracks.counts_credit (h : c₀.Tracks log) (hadvanced : c₀.Advanced c sender) (direction : Direction) (bytes : Credit)
    (hle : (c.flow sender.other).credit + bytes.bytes ≤ maxCreditBytes) :
    c₀.Counts (c.setFlow sender.other { c.flow sender.other with credit := (c.flow sender.other).credit + bytes.bytes })
      sender (.credit direction bytes) payload := by
  refine ⟨?_, fun side => ?_, ?_, fun side => ?_, ?_, ?_, fun side => ?_⟩
  · rw [setFlow_serial, hadvanced.serial]
  · rw [← hadvanced.sequence side, flow_setFlow]
    split
    · next hside => rw [hside]
    · rfl
  · simp [hadvanced.isOpen, Kind.isAccepted]
  · rw [← hadvanced.half side, flow_setFlow]
    split
    · next hside => simp [hside, Kind.isHalfClose]
    · simp [Kind.isHalfClose]
  · rw [flow_setFlow, if_neg (Ne.symm (Side.other_ne sender)), hadvanced.credit]
    simp [Kind.isData]
  · rw [flow_setFlow, if_pos rfl, hadvanced.credit]
    exact Nat.le_refl _
  · rw [flow_setFlow]
    split
    · exact hle
    · rw [hadvanced.credit]
      exact h.bounded side

theorem Tracks.counts_halfClose (h : c₀.Tracks log) (hadvanced : c₀.Advanced c sender) (direction : Direction) :
    c₀.Counts (c.setFlow sender { c.flow sender with half := true }) sender (.halfClose direction) payload := by
  have hcredit : ∀ side, ((c.setFlow sender { c.flow sender with half := true }).flow side).credit = (c₀.flow side).credit := by
    intro side
    rw [← hadvanced.credit side, flow_setFlow]
    split
    · next hside => rw [hside]
    · rfl
  refine ⟨?_, fun side => ?_, ?_, fun side => ?_, ?_, ?_, fun side => ?_⟩
  · rw [setFlow_serial, hadvanced.serial]
  · rw [← hadvanced.sequence side, flow_setFlow]
    split
    · next hside => rw [hside]
    · rfl
  · simp [hadvanced.isOpen, Kind.isAccepted]
  · rw [← hadvanced.half side, flow_setFlow]
    split
    · next hside => simp [hside, Kind.isHalfClose]
    · next hside => simp [hside]
  · rw [hcredit]
    simp [Kind.isData]
  · rw [hcredit]
    exact Nat.le_add_right _ _
  · rw [hcredit]
    exact h.bounded side

end Connection

namespace Broker.SoundBut

variable {Time : Type} {options : Options Time} {b : Broker Time} {c₀ c c' : Connection Time} {sender : Side}
  {header : Header} {payload : Bytes} {answers : Answers Time} {route : Route}

section

variable (h : b.SoundBut options (some c.serial))
include h

theorem rewrite (hfind : b.find c.key = some c) (hsame : c.Same c') :
    (b.put c').SoundBut options (some c'.serial) ∧ (b.put c').find c'.key = some c' := by
  have hmem : c ∈ b.connections := mem_of_find?_eq_some hfind
  constructor
  · rw [hsame.serial]
    refine h.put ?_ hsame.serial hsame.route
    rw [hsame.key]
    exact hfind
  · refine find?_put_self c' b.connections ?_
    rw [hsame.key]
    exact mem_map_of_mem hmem

theorem ended (hfind : b.find c.key = some c) (reason : CloseCode)
    (closing : Nat → Side → Bool) : (b.terminate c reason closing).Sound options := by
  have hmem : c ∈ b.connections := mem_of_find?_eq_some hfind
  refine h.terminate (fun d hd hserial => ?_) (h.fresh c hmem) reason closing
  rw [h.unique hmem hd hserial]

theorem forward_put (hfind : b.find c.key = some c) (hsame : c.Same c')
    (htracks : c₀.Tracks b.log) (hcounts : c₀.Counts c' sender header.kind payload)
    (hlegal : (forwardEntry c' sender header payload answers.sent).Legal b.log c'.serial sender) :
    ((b.put c').forward c' sender header payload answers).Sound options := by
  obtain ⟨hput, hfind'⟩ := h.rewrite hfind hsame
  exact (hput.forward hfind' hlegal).2.2 (htracks.forward hcounts)

theorem forward_finish (hfind : b.find c.key = some c)
    (hlegal : (forwardEntry c sender header payload answers.sent).Legal b.log c.serial sender) :
    ((b.forward c sender header payload answers).finish c).Sound options := by
  obtain ⟨hforward, hkeys, -⟩ := h.forward hfind hlegal
  exact hforward.finish hkeys

theorem receiveData (hfind : b.find c.key = some c) (htracks : c₀.Tracks b.log)
    (hadvanced : c₀.Advanced c sender) (hsequence : header.sequence = (c₀.flow sender).sequence)
    (hallowed : c.allowed sender header.kind) (hdata : header.kind.isData) :
    (b.receiveData options c route sender header payload answers).Sound options := by
  unfold Broker.receiveData
  generalize hthrottled : throttled options c payload.length answers.later = c₁
  have hsame : c.Same c₁ := by
    subst hthrottled
    unfold throttled
    split <;> exact ⟨rfl, rfl, rfl⟩
  have hflow : ∀ side, c₁.flow side = c.flow side := by
    subst hthrottled
    intro side
    unfold throttled
    cases side <;> split <;> rfl
  have hopen : c₁.isOpen = c.isOpen := by
    subst hthrottled
    unfold throttled
    split <;> rfl
  obtain ⟨hput, hfind₁⟩ := h.rewrite hfind hsame
  dsimp only
  split
  · exact hput.ended hfind₁ _ _
  · split
    · exact hput.ended hfind₁ _ _
    · split
      · exact hput.ended hfind₁ _ _
      · next hcredit =>
        rw [hflow, hadvanced.credit] at hcredit
        generalize hc₂ : c₁.setFlow sender { c₁.flow sender with credit := (c₁.flow sender).credit - header.kind.flow payload } = c₂
        have hsame₂ : c₁.Same c₂ := by
          subst hc₂
          exact ⟨by simp, by simp, by simp⟩
        have hlegal : (forwardEntry c₂ sender header payload answers.sent).Legal b.log c₂.serial sender :=
          htracks.legal hadvanced (hsame₂.serial.trans hsame.serial) hsequence hallowed (fun _ => by omega) _
        have hcounts : c₀.Counts c₂ sender header.kind payload :=
          htracks.counts_data hadvanced hsame.serial hopen hflow hdata (by omega) hc₂
        obtain ⟨hput₂, hfind₂⟩ := hput.rewrite hfind₁ hsame₂
        have hcounted : ∀ bytesFrom bytesTo,
            ({ (b.put c₁).put c₂ with bytesFrom, bytesTo }.forward c₂ sender header payload answers).Sound options := by
          intro bytesFrom bytesTo
          have hcount := hput₂.count_irrelevant bytesFrom bytesTo b.rejected b.terminations
          exact (hcount.forward hfind₂ hlegal).2.2 (htracks.forward hcounts)
        cases sender with
        | source => exact hcounted _ _
        | destination => exact hcounted _ _

theorem receiveKind (hfind : b.find c.key = some c) (htracks : c₀.Tracks b.log)
    (hadvanced : c₀.Advanced c sender) (hsequence : header.sequence = (c₀.flow sender).sequence)
    (hallowed : c.allowed sender header.kind) :
    (b.receiveKind options c route sender header payload answers).Sound options := by
  -- whatever is not data is legal as far as it is allowed
  have hlegal : header.kind.isData = false → ∀ c' : Connection Time, c'.serial = c.serial →
      (forwardEntry c' sender header payload answers.sent).Legal b.log c'.serial sender :=
    fun hdata c' hserial => htracks.legal hadvanced hserial hsequence hallowed (by simp [hdata]) _
  unfold Broker.receiveKind
  cases hkind : header.kind with
  | accepted credit =>
    have hsender : sender = .destination := by
      rw [hkind] at hallowed
      have hallowed' : sender = .destination ∧ c.isOpen = false := by simpa [Connection.allowed] using hallowed
      exact hallowed'.1
    subst hsender
    refine h.forward_put hfind ⟨rfl, rfl, rfl⟩ htracks ?_ (hlegal (by simp [hkind, Kind.isData]) _ rfl)
    rw [hkind]
    exact htracks.counts_accepted hadvanced credit
  | rejected code =>
    have hsender : sender = .destination := by
      rw [hkind] at hallowed
      have hallowed' : sender = .destination ∧ c.isOpen = false := by simpa [Connection.allowed] using hallowed
      exact hallowed'.1
    subst hsender
    have hcount := h.count_irrelevant b.bytesFrom b.bytesTo (b.rejected + 1) b.terminations
    exact hcount.forward_finish hfind (hlegal (by simp [hkind, Kind.isData]) c rfl)
  | data direction protection =>
    exact h.receiveData hfind htracks hadvanced hsequence hallowed (by simp [hkind, Kind.isData])
  | credit direction bytes =>
    dsimp only
    split
    · exact h.ended hfind _ _
    · next hle =>
      refine h.forward_put hfind ⟨by simp, by simp, by simp⟩ htracks ?_
        (hlegal (by simp [hkind, Kind.isData]) _ (by simp))
      rw [hkind]
      exact htracks.counts_credit hadvanced direction bytes (by omega)
  | halfClose direction =>
    refine h.forward_put hfind ⟨by simp, by simp, by simp⟩ htracks ?_ (hlegal (by simp [hkind, Kind.isData]) _ (by simp))
    rw [hkind]
    exact htracks.counts_halfClose hadvanced direction
  | close code => exact h.forward_finish hfind (hlegal (by simp [hkind, Kind.isData]) c rfl)
  | error code => exact h.forward_finish hfind (hlegal (by simp [hkind, Kind.isData]) c rfl)
  | «open» credit =>
    rw [hkind] at hallowed
    cases hallowed
  | connect target credit trace =>
    rw [hkind] at hallowed
    cases hallowed

end

theorem receiveOn (h : b.Sound options) (hfind : b.find c.key = some c) :
    (b.receiveOn options c route sender header payload answers).Sound options := by
  have hmem : c ∈ b.connections := mem_of_find?_eq_some hfind
  have hexempt := h.exempting (some c.serial)
  unfold Broker.receiveOn
  split
  · exact hexempt.ended hfind _ _
  · dsimp only
    split
    · exact hexempt.ended hfind _ _
    · next hsequence =>
      have hsequence' : header.sequence = (c.flow sender).sequence := by simpa using hsequence
      generalize hc' : { c.setFlow sender { c.flow sender with sequence := (c.flow sender).sequence + 1 } with
        last := answers.now } = c'
      have hsame : c.Same c' := by
        subst hc'
        exact ⟨by simp, by simp, by simp⟩
      have hadvanced : c.Advanced c' sender := by
        have hflow : ∀ side, c'.flow side =
            if side = sender then { c.flow sender with sequence := (c.flow sender).sequence + 1 } else c.flow side := by
          subst hc'
          intro side
          cases side <;> cases sender <;> rfl
        refine ⟨hsame.serial, by subst hc'; simp, fun side => ?_, fun side => ?_, fun side => ?_⟩
        · rw [hflow]
          split
          · next hside => rw [hside]
          · rfl
        · rw [hflow]
          split
          · next hside => rw [hside]
          · rfl
        · rw [hflow]
          split
          · next hside => rw [hside]
          · rfl
      obtain ⟨hput, hfind'⟩ := hexempt.rewrite hfind hsame
      split
      · exact hput.ended hfind' _ _
      · next hallowed =>
        split
        · exact hput.ended hfind' _ _
        · exact hput.receiveKind hfind' (h.tracks c hmem (by simp)) hadvanced hsequence' (by simpa using hallowed)

end Broker.SoundBut

section Opening

variable {Time : Type} {n : Nat} {log : List Entry} {entry : Entry}

section

variable (h : ∀ entry ∈ log, entry.connection ≠ some n)
include h

theorem forwarded_eq_nil (side : Side) : forwarded n side log = [] := by
  refine filter_eq_nil_iff.mpr fun entry hentry => ?_
  simp [Entry.forwards, h entry hentry]

theorem not_accepted : ¬Accepted n log := by
  rintro ⟨entry, hentry, hforwards, -⟩
  simp [Entry.forwards, h entry hentry] at hforwards

theorem not_halfClosed (side : Side) : ¬HalfClosed n side log := by
  rintro ⟨entry, hentry, hforwards, -⟩
  simp [Entry.forwards, h entry hentry] at hforwards

theorem spent_eq_zero (side : Side) : spent n side log = 0 := by
  have hzero : log.map (Entry.spends n side) = log.map fun _ => 0 :=
    map_congr_left fun entry hentry => by simp [Entry.spends, Entry.forwards, h entry hentry]
  simp [spent, hzero]

end

theorem Connection.Tracks.connect {c : Connection Time} (h : ∀ entry ∈ log, entry.connection ≠ some c.serial)
    (horigin : entry.origin = .connect) (hconnection : entry.connection = some c.serial)
    (hsource : c.source = { sequence := 1, credit := 0, half := false })
    (hdestination : c.destination = { sequence := 0, credit := entry.header.kind.grant, half := false })
    (hopen : c.isOpen = false) (hle : entry.header.kind.grant ≤ maxCreditBytes) : c.Tracks (log ++ [entry]) := by
  have hforwards : ∀ side, entry.forwards c.serial side = false := by
    intro side
    simp [Entry.forwards, horigin]
  refine ⟨fun side => ?_, ?_, fun side => ?_, fun side => ?_, fun side => ?_⟩
  · rw [forwarded_concat, forwarded_eq_nil h, hforwards]
    cases side <;> simp [Connection.flow, hsource, hdestination, Side.first]
  · rw [accepted_concat, hforwards, hopen]
    simpa using not_accepted h
  · have hhalf : (c.flow side).half = false := by cases side <;> simp [Connection.flow, hsource, hdestination]
    rw [halfClosed_concat, hforwards, hhalf]
    simpa using not_halfClosed h side
  · rw [spent_concat, granted_concat, spent_eq_zero h, Entry.spends, hforwards]
    cases side with
    | source => simp [Connection.flow, hsource]
    | destination => simp [Connection.flow, hdestination, Side.other, Entry.grants, hconnection, horigin]
  · cases side <;> simp [Connection.flow, hsource, hdestination, hle]

end Opening

namespace Broker.SoundBut

variable {Time : Type} {options : Options Time} {b : Broker Time} {exempt : Option Nat} {c : Connection Time} {sender : Side}
  {header : Header} {payload : Bytes} {answers : Answers Time} {route : Route} {id : Utf16}

theorem mem_routes (h : b.SoundBut options exempt) (hissued : route ∈ b.issued) (hcurrent : b.currentRoute route) :
    route ∈ b.routes := by
  unfold Broker.currentRoute at hcurrent
  cases hfind : b.routes.find? fun r => r.key = route.key with
  | none => simp [hfind] at hcurrent
  | some found =>
    have hserial : found.serial = route.serial := by simpa [hfind] using hcurrent
    have hfound : found ∈ b.routes := mem_of_find?_eq_some hfind
    obtain ⟨i, hi⟩ := mem_iff_getElem?.mp hissued
    obtain ⟨j, hj⟩ := mem_iff_getElem?.mp (h.registered hfound)
    have hij : i = j := by rw [← h.numbered i route hi, ← h.numbered j found hj, hserial]
    rw [hij, hj] at hi
    rw [← some.inj hi]
    exact hfound

theorem added (h : b.Sound options) (hserial : c.serial = b.opened) (hroute : c.route ∈ b.routes) (hfind : b.find c.key = none)
    (hfull : b.full options c.route.registration.tunnel = false) :
    { b with connections := b.connections ++ [c], opened := b.opened + 1 }.SoundBut options (some c.serial) := by
  have hroom : b.connections.length < options.maxConnections ∧
      (b.connections.filter fun d => d.route.registration.tunnel = c.route.registration.tunnel).length <
        options.maxConnectionsPerTunnel := by
    simpa [Broker.full] using hfull
  refine ⟨?_, ?_, fun d hd => ?_, fun d hd => ?_, h.routeKeys, h.numbered, h.registered, ?_, ?_, fun tunnel => ?_,
    fun d hd hne => ?_, h.conforming, fun entry hentry n hn => Nat.lt_succ_of_lt (h.logged entry hentry n hn)⟩
  · rw [map_append, map_singleton, nodup_append]
    refine ⟨h.keys, nodup_singleton _, fun key hkey key' hkey' => ?_⟩
    obtain ⟨d, hd, rfl⟩ := mem_map.mp hkey
    rw [mem_singleton.mp hkey']
    simpa using find?_eq_none.mp hfind d hd
  · rw [map_append, map_singleton, nodup_append]
    refine ⟨h.serials, nodup_singleton _, fun n hn n' hn' => ?_⟩
    obtain ⟨d, hd, rfl⟩ := mem_map.mp hn
    rw [mem_singleton.mp hn', hserial]
    exact (h.fresh d hd).ne
  · rcases mem_append.mp hd with hd | hd
    · exact Nat.lt_succ_of_lt (h.fresh d hd)
    · rw [mem_singleton.mp hd, hserial]
      exact Nat.lt_succ_self _
  · rcases mem_append.mp hd with hd | hd
    · exact h.routed d hd
    · rw [mem_singleton.mp hd]
      exact hroute
  · have hcount := h.count
    simp only [length_append, length_singleton]
    omega
  · simp only [length_append, length_singleton]
    omega
  · dsimp only
    rw [filter_append, length_append, filter_singleton]
    by_cases htunnel : c.route.registration.tunnel = tunnel
    · subst htunnel
      simpa using Nat.succ_le_of_lt hroom.2
    · simpa [htunnel] using h.tunnelLimit tunnel
  · rcases mem_append.mp hd with hd | hd
    · exact h.tracks d hd (by simp)
    · exact absurd (by rw [mem_singleton.mp hd]) hne

theorem reject (h : b.SoundBut options exempt) (code : RejectionCode) : (b.reject route id code answers).SoundBut options exempt := by
  have hcount := h.count_irrelevant b.bytesFrom b.bytesTo (b.rejected + 1) b.terminations
  refine hcount.record (fun n sender hforwards => ?_) (fun d _ _ => ?_) fun n hn => ?_
  · simp [Entry.forwards] at hforwards
  · simp [Entry.foreign]
  · cases hn

theorem connect (h : b.Sound options) (hroute : route ∈ b.routes) (hfind : b.find (connectionKey route id) = none)
    (hfull : b.full options route.registration.tunnel = false) (credit : Credit) :
    (b.connect route id credit answers).Sound options := by
  have hadded := added (c := b.opening route id credit answers.now) h rfl hroute hfind hfull
  have hconnect : b.connect route id credit answers = if answers.sent then
      { b with connections := b.connections ++ [b.opening route id credit answers.now], opened := b.opened + 1 }.record
        (connectEntry (b.opening route id credit answers.now) credit answers.sent)
    else
      ({ b with connections := b.connections ++ [b.opening route id credit answers.now], opened := b.opened + 1 }.record
        (connectEntry (b.opening route id credit answers.now) credit answers.sent)).terminate
        (b.opening route id credit answers.now) .congested answers.closing := rfl
  rw [hconnect]
  generalize hc : b.opening route id credit answers.now = c at *
  have hserial : c.serial = b.opened := by rw [← hc]; rfl
  have hmem : c ∈ b.connections ++ [c] := by simp
  have hrecord : ({ b with connections := b.connections ++ [c], opened := b.opened + 1 }.record
      (connectEntry c credit answers.sent)).SoundBut options (some c.serial) := by
    refine hadded.record (fun n sender hforwards => ?_) (fun d _ hne => ?_) fun n hn => ?_
    · simp [Entry.forwards, connectEntry] at hforwards
    · have hne' : c.serial ≠ d.serial := fun he => hne (congrArg some he.symm)
      simp [Entry.foreign, connectEntry, hne']
    · obtain rfl : c.serial = n := by simpa [connectEntry] using hn
      exact hadded.fresh c hmem
  have htracks : c.Tracks (b.log ++ [connectEntry c credit answers.sent]) := by
    refine Connection.Tracks.connect (fun entry hentry hn => ?_) rfl rfl (by rw [← hc]; rfl) (by rw [← hc]; rfl)
      (by rw [← hc]; rfl) credit.le
    have hlt := h.logged entry hentry c.serial hn
    omega
  split
  · refine { hrecord with tracks := fun d hd _ => ?_ }
    by_cases hd' : d.serial = c.serial
    · rw [hrecord.unique hmem hd hd']
      exact htracks
    · exact hrecord.tracks d hd fun he => hd' (some.inj he)
  · refine hrecord.terminate (fun d hd hd' => ?_) (hrecord.fresh c hmem) _ _
    rw [hrecord.unique hmem hd hd']

theorem receiveNew (h : b.Sound options) (hissued : route ∈ b.issued)
    (hfind : b.find (connectionKey route header.connectionId) = none) :
    (b.receiveNew options route sender header payload answers).Sound options := by
  unfold Broker.receiveNew
  split
  · split
    · exact h.reject _
    · split
      · exact h.reject _
      · next hfull =>
        split
        · exact h
        · next hcurrent =>
          split
          · exact h.reject _
          · exact h.connect (h.mem_routes hissued (by simpa using hcurrent)) hfind (by simpa using hfull) _
  · exact h

theorem receive (h : b.Sound options) (hissued : route ∈ b.issued) :
    (b.receive options route sender header payload answers).Sound options := by
  unfold Broker.receive
  dsimp only
  split
  · exact h
  · cases hfind : b.find (connectionKey route header.connectionId) with
    | none => exact h.receiveNew hissued hfind
    | some c =>
      have hkey : c.key = connectionKey route header.connectionId := by simpa using find?_some hfind
      refine h.receiveOn ?_
      rw [hkey]
      exact hfind

end Broker.SoundBut

/-! ## Routes -/

namespace Broker

variable {Time : Type} {options : Options Time} {b : Broker Time} {c : Connection Time} {route : Route} {reason : CloseCode}
  {closing : Nat → Side → Bool}

theorem terminate_connections : (b.terminate c reason closing).connections = b.connections.filter fun d => d.key ≠ c.key := by
  unfold terminate
  split
  · next hfind =>
    unfold finish
    exact congrArg Broker.connections (if_pos hfind)
  · next hfind =>
    have hnone : b.find c.key = none := by simpa using hfind
    refine (filter_eq_self.mpr fun d hd => ?_).symm
    simpa using find?_eq_none.mp hnone d hd

theorem terminate_opened : (b.terminate c reason closing).opened = b.opened := by
  unfold terminate finish
  dsimp only
  split
  · split <;> rfl
  · rfl

theorem terminate_routes (routes : List Route) :
    { b with routes }.terminate c reason closing = { b.terminate c reason closing with routes } := by
  cases hfind : (b.find c.key).isSome <;> simp only [find] at hfind <;> simp [terminate, finish, find, record, hfind]

/-- Ending connections one after another, with nothing else changed. -/
def terminateAll (closing : Nat → Side → Bool) (b : Broker Time) (ends : List (Connection Time × CloseCode)) : Broker Time :=
  ends.foldl (fun b e => b.terminate e.1 e.2 closing) b

theorem Sound.terminate (h : b.Sound options) (hfresh : c.serial < b.opened) : (b.terminate c reason closing).Sound options := by
  refine (h.exempting (some b.opened)).terminate (fun d hd hserial => ?_) hfresh reason closing
  have hlt := h.fresh d hd
  omega

theorem Sound.terminateAll (h : b.Sound options) (ends : List (Connection Time × CloseCode))
    (hfresh : ∀ e ∈ ends, e.1.serial < b.opened) : (b.terminateAll closing ends).Sound options := by
  induction ends generalizing b with
  | nil => exact h
  | cons e ends ih =>
    refine ih (h.terminate (hfresh e (by simp))) fun e' he' => ?_
    rw [terminate_opened]
    exact hfresh e' (by simp [he'])

theorem mem_terminateAll {d : Connection Time} (ends : List (Connection Time × CloseCode))
    (hd : d ∈ (b.terminateAll closing ends).connections) : d ∈ b.connections ∧ ∀ e ∈ ends, d.key ≠ e.1.key := by
  induction ends generalizing b with
  | nil => exact ⟨hd, by simp⟩
  | cons e ends ih =>
    obtain ⟨hmem, hkeys⟩ := ih hd
    rw [terminate_connections] at hmem
    have hmem' := mem_filter.mp hmem
    refine ⟨hmem'.1, fun e' he' => ?_⟩
    rcases mem_cons.mp he' with rfl | he'
    · simpa using hmem'.2
    · exact hkeys e' he'

theorem terminateAll_routes (routes : List Route) (ends : List (Connection Time × CloseCode)) :
    { b with routes }.terminateAll closing ends = { b.terminateAll closing ends with routes } := by
  induction ends generalizing b with
  | nil => rfl
  | cons e ends ih =>
    unfold terminateAll at ih ⊢
    rw [foldl_cons, terminate_routes, ih]
    rfl

theorem routes_terminateAll (ends : List (Connection Time × CloseCode)) :
    (b.terminateAll closing ends).routes = b.routes := by
  have hroutes := congrArg Broker.routes (@terminateAll_routes _ b closing b.routes ends)
  exact hroutes

theorem remove_eq (hcurrent : b.currentRoute route) : b.remove route reason closing =
    { b.terminateAll closing ((b.connections.filter fun c => c.route.serial = route.serial).map fun c => (c, reason)) with
      routes := b.routes.filter fun r => r.key ≠ route.key } := by
  rw [← terminateAll_routes]
  unfold remove terminateAll
  rw [if_pos hcurrent, foldl_map]

theorem sweep_eq (now : Time) : b.sweep options now closing =
    b.terminateAll closing (b.connections.filterMap fun c => (expiry options now c).map fun reason => (c, reason)) := by
  unfold sweep terminateAll
  rw [foldl_filterMap]
  congr 1
  funext b c
  cases expiry options now c <;> rfl

theorem Sound.sweep (h : b.Sound options) (now : Time) : (b.sweep options now closing).Sound options := by
  rw [sweep_eq]
  refine h.terminateAll _ fun e he => ?_
  obtain ⟨c, hc, hreason⟩ := mem_filterMap.mp he
  obtain ⟨reason, -, rfl⟩ := map_eq_some_iff.mp hreason
  exact h.fresh c hc

theorem Sound.remove (h : b.Sound options) : (b.remove route reason closing).Sound options := by
  by_cases hcurrent : b.currentRoute route
  · have hends : ∀ e ∈ (b.connections.filter fun c => c.route.serial = route.serial).map fun c => (c, reason),
        e.1.serial < b.opened := by
      intro e he
      obtain ⟨c, hc, rfl⟩ := mem_map.mp he
      exact h.fresh c (mem_filter.mp hc).1
    have hall := @Sound.terminateAll _ options b closing h _ hends
    have hkeys := hall.routeKeys
    have hregistered := hall.registered
    rw [routes_terminateAll] at hkeys hregistered
    rw [remove_eq hcurrent]
    refine { hall with routed := fun d hd => ?_, routeKeys := hkeys.sublist (filter_sublist.map _),
                       registered := fun r hr => hregistered (mem_filter.mp hr).1 }
    obtain ⟨hmem, hended⟩ := mem_terminateAll _ hd
    have hroute := h.routed d hmem
    refine mem_filter.mpr ⟨hroute, ?_⟩
    have hserial : d.route.serial ≠ route.serial := by
      intro hserial
      have hd' : d ∈ b.connections.filter fun c => c.route.serial = route.serial :=
        mem_filter.mpr ⟨hmem, by simpa using hserial⟩
      exact hended (d, reason) (mem_map.mpr ⟨d, hd', rfl⟩) rfl
    -- the route that is registered under the key is the one that is removed
    have hkey : d.route.key ≠ route.key := by
      intro hkey
      unfold currentRoute at hcurrent
      rw [← hkey, find?_eq_of_mem h.routeKeys hroute] at hcurrent
      exact hserial (by simpa using hcurrent)
    simpa using hkey
  · rw [Broker.remove, if_neg hcurrent]
    exact h

theorem Sound.removeAll (h : b.Sound options) (routes : List Route) :
    (routes.foldl (fun b r => b.remove r reason closing) b).Sound options :=
  foldlRecOn routes _ h fun _ hb _ _ => Sound.remove hb

theorem Sound.register (h : b.Sound options) (registration : Registration) : (b.register options registration).1.Sound options := by
  unfold Broker.register
  dsimp only
  split
  · exact h
  · split
    · exact h
    · next hany =>
      split
      · exact h
      · have hkey : ∀ r ∈ b.routes, r.key ≠ (⟨b.issued.length, registration⟩ : Route).key := by simpa using hany
        refine { h with routed := fun c hc => mem_append_left _ (h.routed c hc), routeKeys := ?_, numbered := ?_,
                        registered := ?_ }
        · rw [map_append, map_singleton, nodup_append]
          refine ⟨h.routeKeys, nodup_singleton _, fun key hkey' key' hnew => ?_⟩
          obtain ⟨r, hr, rfl⟩ := mem_map.mp hkey'
          rw [mem_singleton.mp hnew]
          exact hkey r hr
        · intro i route hi
          rw [getElem?_append] at hi
          split at hi
          · exact h.numbered i route hi
          · obtain ⟨hi', rfl⟩ := List.getElem?_eq_some_iff.mp hi
            simp at hi' ⊢
            omega
        · intro r hr
          rcases mem_append.mp hr with hr | hr
          · exact mem_append_left _ (h.registered hr)
          · exact mem_append_right _ hr

theorem Sound.new : (new : Broker Time).Sound options := by
  refine ⟨nodup_nil, nodup_nil, ?_, ?_, nodup_nil, ?_, ?_, rfl, Nat.zero_le _, ?_, ?_, Each.nil, ?_⟩ <;>
    simp [Broker.new]

theorem Sound.step (h : b.Sound options) (call : Call Time) : (b.step options call).Sound options := by
  cases call with
  | register registration => exact h.register registration
  | receive n sender header payload answers =>
    simp only [Broker.step]
    split
    · next route hroute => exact h.receive (mem_of_getElem? hroute)
    · exact h
  | revokeAttachment attachment closing => exact h.removeAll _
  | sweep now closing => exact h.sweep now
  | close closing => exact h.removeAll _
  | closeRoute n closing =>
    simp only [Broker.step]
    split
    · exact h.remove
    · exact h
  | disconnectRoute n closing =>
    simp only [Broker.step]
    split
    · exact h.remove
    · exact h

theorem run_sound (calls : List (Call Time)) : (run options calls).Sound options := by
  unfold run
  exact foldlRecOn calls _ Sound.new fun _ h call _ => h.step call

end Broker

/-! ## What a run forwards -/

/-- The frames of connection `n` as its sides are sent them. -/
structure StreamSafe (n : Nat) (log : List Entry) : Prop where
  /-- One number after the other, none twice. -/
  consecutive : ∀ sender, (forwarded n sender log).map (fun entry => entry.header.sequence) =
    List.range' sender.first (forwarded n sender log).length
  acceptedOnce : (forwarded n .destination log).countP (fun entry => entry.header.kind.isAccepted) ≤ 1 ∧
    (forwarded n .source log).countP (fun entry => entry.header.kind.isAccepted) = 0
  acceptedFirst : ∀ before entry after sender, log = before ++ entry :: after → entry.forwards n sender →
    entry.header.kind.isData → Accepted n before
  beforeHalfClose : ∀ before entry after sender, log = before ++ entry :: after → entry.forwards n sender →
    entry.header.kind.isData → ¬HalfClosed n sender before
  withinCredit : ∀ before, before <+: log → ∀ sender, spent n sender before ≤ granted n sender.other before

section Conforming

variable {log before after : List Entry} {entry : Entry} {n : Nat}

theorem Conforming.legal (h : Conforming log) (hlog : log = before ++ entry :: after) {sender : Side}
    (hforwards : entry.forwards n sender) : entry.Legal before n sender :=
  h.get hlog n sender hforwards

theorem Conforming.consecutive (h : Conforming log) (n : Nat) (sender : Side) :
    (forwarded n sender log).map (fun entry => entry.header.sequence) =
      range' sender.first (forwarded n sender log).length := by
  induction log using reverseRecOn with
  | nil => rfl
  | append_singleton log entry ih =>
    have hearlier := ih (h.of_prefix (prefix_append log [entry]))
    rw [forwarded_concat]
    by_cases hforwards : entry.forwards n sender
    · have hlegal := Conforming.legal h rfl hforwards
      rw [if_pos hforwards, map_append, hearlier, length_append, length_singleton, range'_concat]
      simp [hlegal.sequence]
    · rw [if_neg hforwards]
      simpa using hearlier

theorem Conforming.countP_accepted (h : Conforming log) (n : Nat) (sender : Side) :
    (forwarded n sender log).countP (fun entry => entry.header.kind.isAccepted) ≤ (if sender = .destination then 1 else 0) ∧
      (¬Accepted n log → (forwarded n sender log).countP (fun entry => entry.header.kind.isAccepted) = 0) := by
  induction log using reverseRecOn with
  | nil => simp [forwarded]
  | append_singleton log entry ih =>
    obtain ⟨hle, hnone⟩ := ih (h.of_prefix (prefix_append log [entry]))
    rw [forwarded_concat, countP_append]
    by_cases haccepts : entry.forwards n sender ∧ entry.header.kind.isAccepted
    · obtain ⟨hforwards, haccepted⟩ := haccepts
      have hlegal := (Conforming.legal h rfl hforwards).accepted haccepted
      rw [if_pos hforwards, hnone hlegal.2, hlegal.1]
      refine ⟨by simp [haccepted], fun hnot => absurd ?_ hnot⟩
      rw [accepted_concat]
      exact .inr ⟨hlegal.1 ▸ hforwards, haccepted⟩
    · have hzero : (if entry.forwards n sender then [entry] else []).countP
          (fun entry => entry.header.kind.isAccepted) = 0 := by
        by_cases hforwards : entry.forwards n sender
        · have haccepted : entry.header.kind.isAccepted = false := by simpa [hforwards] using haccepts
          simp [hforwards, haccepted]
        · simp [hforwards]
      rw [hzero]
      refine ⟨hle, fun hnot => hnone fun haccepted => hnot ?_⟩
      rw [accepted_concat]
      exact .inl haccepted

theorem Conforming.withinCredit (h : Conforming log) (n : Nat) (sender : Side) :
    spent n sender log ≤ granted n sender.other log := by
  induction log using reverseRecOn with
  | nil => exact Nat.le_refl _
  | append_singleton log entry ih =>
    have hearlier := ih (h.of_prefix (prefix_append log [entry]))
    rw [spent_concat, granted_concat, Entry.spends]
    split
    · next hdata =>
      have hdata' : entry.forwards n sender ∧ entry.header.kind.isData := by simpa using hdata
      have hlegal := ((Conforming.legal h rfl hdata'.1).data hdata'.2).2.2
      omega
    · omega

theorem Conforming.streamSafe (h : Conforming log) (n : Nat) : StreamSafe n log := by
  refine ⟨h.consecutive n, ⟨?_, ?_⟩, ?_, ?_, ?_⟩
  · exact (h.countP_accepted n .destination).1
  · exact Nat.le_zero.mp (h.countP_accepted n .source).1
  · intro before entry after sender hlog hforwards hdata
    exact ((h.legal hlog hforwards).data hdata).1
  · intro before entry after sender hlog hforwards hdata
    exact ((h.legal hlog hforwards).data hdata).2.1
  · intro before hbegun sender
    exact Conforming.withinCredit (h.of_prefix hbegun) n sender

end Conforming

/-- After any calls, whatever was answered: the streams are safe, the credits bounded, the limits kept, every
connection belongs to a registered route and what was opened is active or closed. -/
theorem broker_stream_safety {Time : Type} (options : Options Time) (calls : List (Call Time)) :
    (∀ n, StreamSafe n (Broker.run options calls).log) ∧
      (∀ c ∈ (Broker.run options calls).connections, ∀ side, (c.flow side).credit ≤ maxCreditBytes) ∧
      (Broker.run options calls).connections.length ≤ options.maxConnections ∧
      (∀ tunnel, ((Broker.run options calls).connections.filter fun c => c.route.registration.tunnel = tunnel).length ≤
        options.maxConnectionsPerTunnel) ∧
      (∀ c ∈ (Broker.run options calls).connections, c.route ∈ (Broker.run options calls).routes) ∧
      (Broker.run options calls).opened =
        (Broker.run options calls).connections.length + (Broker.run options calls).closed := by
  have h := @Broker.run_sound _ options calls
  refine ⟨Conforming.streamSafe h.conforming, fun c hc => ?_, h.limit, h.tunnelLimit, h.routed, h.count⟩
  exact (h.tracks c hc (by simp)).bounded

end Cantrip.Tunnels
