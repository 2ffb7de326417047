import Cantrip.Tunnels.Books

/-!
# The numbers of the broker's close frames

The counter that a close frame is numbered by is advanced before a frame is judged, charged for or passed on. So the
number is the one that is expected as long as no connection is ended over a frame that is counted (`losing`), nor while
one of its frames is being judged or its close frames are being sent (`inStep`).
-/

namespace Cantrip.Tunnels

open Lib List Option Bool

def ClosesInSequence (log : List Entry) : Prop :=
  ∀ i entry n, log[i]? = some entry → entry.origin = .closing → entry.connection = some n →
    entry.header.sequence = expected n entry.recipient (log.take i)

namespace Machine

variable {Time : Type} {options : Options Time} {m m' : Machine Time}

def takes (m : Machine Time) (route : Route) (sender : Side) (header : Header) (payload : Bytes) : Option Nat :=
  let r := route.registration
  if header.tunnelId ≠ r.tunnel ∨ header.attachmentId ≠ r.attachment ∨ header.sourceEndpointId ≠ r.source ∨
      header.destinationEndpointId ≠ r.destination then none
  else (m.find (connectionKey route header.connectionId)).filter fun n =>
    m.objects[n]?.any fun c => header.kind.admits payload && header.sequence = (c.flow sender).sequence

/-- The connection that is ended next, over a frame that is counted. -/
def losing (m : Machine Time) : Option Nat :=
  match m.stack with
  | .job (.terminate n _ true) :: _ => some n
  | _ => none

/-- The input does not end a connection over a frame that is counted, nor while one of its frames is being judged or its
close frames are being sent; no frame is counted while one of the same sender is being judged, or, from the source,
while the source is being closed; and no side fails to take a frame of a connection that was closed meanwhile. -/
def inStep (m : Machine Time) (input : Input Time) : Bool :=
  match m.stack, input with
  | .job (.terminate n _ lost) :: _, .proceed _ =>
    (m.holder n).isNone || (m.unshared n && !lost && !(m.frames.any fun f => f.1 = n) && !m.ending n)
  | .callback (.sending n _) :: _, .answer false _ => !m.hasClosed n
  | .job (.receive route sender header payload) :: _, .proceed _ =>
    (m.takes route sender header payload).all fun n =>
      pending n sender m.frames = 0 && !(sender = .source && m.owes n)
  | _, _ => true

def runsInStep (options : Options Time) : Machine Time → List (Input Time) → Bool
  | _, [] => true
  | m, input :: inputs => m.inStep input && runsInStep options (m.step options input) inputs

namespace Books

/-! ## What a step does -/

variable {hand : List (Nat × Side × Nat)} {exempt : Option Nat}

variable {n : Nat}

theorem put (h : m.Books hand exempt) {c c' : Connection Time} (hc : m.objects[n]? = some c)
    (hsame : c'.serial = c.serial ∧ c'.key = c.key) (hsequence : ∀ side, (c'.flow side).sequence = (c.flow side).sequence) :
    (m.put n c').Books hand exempt :=
  h.alike ⟨map_set_of_eq hc hsame.1, map_set_of_eq hc hsame.2, fun side => map_set_of_eq hc (hsequence side), rfl, rfl, rfl⟩

theorem other (h : m.Books hand exempt) (routes issued : List Route) (bytesFrom bytesTo rejected : Nat)
    (terminations : CloseCode → Nat) (terminated : List (Nat × CloseCode)) :
    { m with routes, issued, bytesFrom, bytesTo, rejected, terminations, terminated }.Books hand exempt :=
  h.alike ⟨rfl, rfl, fun _ => rfl, rfl, rfl, rfl⟩

theorem carry (h : m.Books hand exempt) (bytes : Nat) (side : Side) : (m.carry bytes side).Books hand exempt := by
  cases side with
  | source => exact h.other m.routes m.issued (m.bytesFrom + bytes) m.bytesTo m.rejected m.terminations m.terminated
  | destination => exact h.other m.routes m.issued m.bytesFrom (m.bytesTo + bytes) m.rejected m.terminations m.terminated

theorem lose {sender : Side} {sequence : Nat} (h : m.Books [(n, sender, sequence)] none) (reason : CloseCode) :
    (m.fail n reason true).Books [] (m.fail n reason true).losing :=
  ((h.exempting (some n)).drop (.inl rfl)).fail n reason true

theorem keep (h : m.Books [] none) : m.Books [] m.losing := h.exempting m.losing

theorem passOn {sender : Side} {header : Header} (h : m.Books [(n, sender, header.sequence)] none)
    {c : Connection Time} (hserial : c.serial = n) (payload : Bytes) :
    (m.forward n c sender header payload).Books [] (m.forward n c sender header payload).losing := by
  refine ((h.forward hserial payload).push fun task htask => ?_).keep
  rw [mem_singleton.mp htask]
  refine ⟨rfl, rfl, Broker.forwardEntry c sender header payload true, getElem?_concat_length, ?_,
    fun horigin => Origin.noConfusion horigin⟩
  exact congrArg some hserial

section Flow

variable {c : Connection Time} {side : Side} {flow : Flow}

theorem sequence_setFlow (h : flow.sequence = (c.flow side).sequence) (side' : Side) :
    ((c.setFlow side flow).flow side').sequence = (c.flow side').sequence := by
  cases side <;> cases side' <;> first | exact h | rfl

theorem sequence_setFlow_succ (side' : Side) :
    ((c.setFlow side { c.flow side with sequence := (c.flow side).sequence + 1 }).flow side').sequence =
      (c.flow side').sequence + if side' = side then 1 else 0 := by
  cases side <;> cases side' <;> rfl

end Flow

variable {payload : Bytes} {header : Header} {n : Nat} {route : Route} {sender : Side}

theorem hand_found {sequence : Nat} (h : m.Books [(n, sender, sequence)] none) : m.objects[n]? ≠ none := by
  have hlt : n < m.objects.length := h.known.2.1 _ mem_cons_self
  rw [getElem?_eq_getElem hlt]
  exact some_ne_none _

section

variable (h : m.Books [(n, sender, header.sequence)] none)
include h

theorem spend (payload : Bytes) :
    (m.spend n sender header payload).Books [] (m.spend n sender header payload).losing := by
  unfold Machine.spend
  split
  · next hnone => exact absurd hnone h.hand_found
  · next c hc =>
    dsimp only
    split
    · exact h.lose _
    · apply Books.passOn
      · apply Books.carry
        exact h.put hc Quiet.same_setFlow (sequence_setFlow rfl)
      · exact Quiet.same_setFlow.1.trans (h.serial hc)

theorem receiveData
    {c : Connection Time} (hc : m.objects[n]? = some c) (route : Route) (payload : Bytes) (now : Time) :
    (m.receiveData options n c route sender header payload now).Books []
      (m.receiveData options n c route sender header payload now).losing := by
  have hput : (m.put n (Broker.throttled options c payload.length now)).Books [(n, sender, header.sequence)] none := by
    refine h.put hc (Quiet.same_throttled c payload.length now) fun side => ?_
    unfold Broker.throttled
    split <;> cases side <;> rfl
  unfold Machine.receiveData
  dsimp only
  split
  · exact hput.lose _
  · split
    · exact (hput.pushFrame (.callback (.charging n sender header payload)) rfl rfl trivial).keep
    · exact hput.spend payload

theorem receiveKind
    {c c' : Connection Time} (hc : m.objects[n]? = some c) (hallowed : c'.allowed sender header.kind) (route : Route)
    (payload : Bytes) (now : Time) :
    (m.receiveKind options n c route sender header payload now).Books []
      (m.receiveKind options n c route sender header payload now).losing := by
  have hserial := h.serial hc
  have hfinish : ∀ task ∈ [Task.job (.finish n : Job Time)], task.frame? = none ∧ task.closing? = none ∧
      task.Points (m.objects.map Connection.key) m.log := by
    intro task htask
    rw [mem_singleton.mp htask]
    exact ⟨rfl, rfl, trivial⟩
  unfold Machine.receiveKind
  split
  · next credit hkind =>
    obtain ⟨rfl, -⟩ : sender = .destination ∧ c'.isOpen = false := by simpa [hkind, Connection.allowed] using hallowed
    dsimp only
    apply Books.passOn
    · refine h.put hc ⟨rfl, rfl⟩ fun side => ?_
      cases side <;> rfl
    · exact hserial
  · next hkind =>
    obtain ⟨rfl, -⟩ : sender = .destination ∧ c'.isOpen = false := by simpa [hkind, Connection.allowed] using hallowed
    apply Books.passOn ?_ hserial payload
    exact (h.other m.routes m.issued m.bytesFrom m.bytesTo (m.rejected + 1) m.terminations m.terminated).push hfinish
  · exact h.receiveData hc route payload now
  · dsimp only
    split
    · exact h.lose _
    · apply Books.passOn
      · exact h.put hc Quiet.same_setFlow (sequence_setFlow rfl)
      · exact Quiet.same_setFlow.1.trans hserial
  · apply Books.passOn
    · exact h.put hc Quiet.same_setFlow (sequence_setFlow rfl)
    · exact Quiet.same_setFlow.1.trans hserial
  · exact (h.push hfinish).passOn hserial payload
  · exact (h.push hfinish).passOn hserial payload
  · next hkind => simp [hkind, Connection.allowed] at hallowed
  · next hkind => simp [hkind, Connection.allowed] at hallowed

theorem judge
    (hpoints : (Task.callback (.judging n route sender header payload) : Task Time).Points
      (m.objects.map Connection.key) m.log) (value : Bool) (now : Time) :
    (m.judge options n route sender header payload value now).Books []
      (m.judge options n route sender header payload value now).losing := by
  obtain ⟨hkey, c', hallowed⟩ := hpoints
  unfold Machine.judge
  split
  · exact h.lose _
  · split
    · next hfind => exact (h.drop (.inr fun hn => hfind (h.find_key hn hkey))).keep
    · split
      · next hnone => exact absurd hnone h.hand_found
      · next c hc => exact h.receiveKind hc hallowed route payload now

end

theorem reject (h : m.Books [] none) (route : Route) (id : Utf16) (code : RejectionCode) :
    (m.reject route id code).Books [] (m.reject route id code).losing := by
  have hother := h.other m.routes m.issued m.bytesFrom m.bytesTo (m.rejected + 1) m.terminations m.terminated
  unfold Machine.reject
  dsimp only
  refine ((hother.record rfl).push fun task htask => ?_).keep
  rw [mem_singleton.mp htask]
  exact ⟨rfl, rfl, _, getElem?_concat_length, rfl⟩

theorem admitted (h : m.Books [] none) (route : Route) (id : Utf16) (credit : Credit) (value : Bool) (now : Time) :
    (m.admitted route id credit value now).Books [] (m.admitted route id credit value now).losing := by
  unfold Machine.admitted
  split
  · exact h.keep
  · split
    · exact h.reject route id _
    · exact (h.connect route id credit now).keep

theorem receiveNew (h : m.Books [] none) (route : Route) (sender : Side) (header : Header) (payload : Bytes) :
    (m.receiveNew options route sender header payload).Books [] (m.receiveNew options route sender header payload).losing := by
  unfold Machine.receiveNew
  split
  · split
    · exact h.reject route _ _
    · split
      · exact h.reject route _ _
      · refine (h.push fun task htask => ?_).keep
        rw [mem_singleton.mp htask]
        exact ⟨rfl, rfl, trivial⟩
  · exact h.keep

theorem receiveOn (h : m.Books [] none) (hfind : m.find (connectionKey route header.connectionId) = some n)
    (hfree : (m.objects[n]?.any fun c => header.kind.admits payload && header.sequence = (c.flow sender).sequence) →
      pending n sender m.frames = 0 ∧ (sender = .source → m.owes n = false)) (now : Time) :
    (m.receiveOn n route sender header payload now).Books [] (m.receiveOn n route sender header payload now).losing := by
  obtain ⟨hin, hkey⟩ := h.key_of_find hfind
  unfold Machine.receiveOn
  split
  · exact h.keep
  · next c hc =>
    split
    · exact (h.fail n _ false).keep
    · next hadmits =>
      dsimp only
      split
      · exact (h.fail n _ false).keep
      · next hsequence =>
        rw [not_eq_true', not_eq_false] at hadmits
        rw [not_ne_iff] at hsequence
        obtain ⟨hnone, howes⟩ := hfree (by simp [hc, hadmits, hsequence])
        generalize hc' : ({ c.setFlow sender { c.flow sender with sequence := (c.flow sender).sequence + 1 } with last := now } :
          Connection Time) = c'
        have hsame : c'.serial = c.serial ∧ c'.key = c.key := by
          rw [← hc']
          exact Quiet.same_setFlow
        have hnext : ∀ side, (c'.flow side).sequence = (c.flow side).sequence + if side = sender then 1 else 0 := by
          rw [← hc']
          exact fun side => sequence_setFlow_succ side
        have hkeys : (m.put n c').objects.map Connection.key = m.objects.map Connection.key := map_set_of_eq hc hsame.2
        have hcount := h.count hc hin hsame hsequence hnext hnone howes
        split
        · exact hcount.lose _
        · next hallowed =>
          rw [not_eq_true', not_eq_false] at hallowed
          refine (hcount.pushFrame (.callback (.judging n route sender header payload)) rfl rfl ⟨?_, _, hallowed⟩).keep
          rw [hkeys]
          exact hkey

theorem receive (h : m.Books [] none) (hin : (m.takes route sender header payload).all fun n =>
      pending n sender m.frames = 0 && !(sender = .source && m.owes n)) (now : Time) :
    (m.receive options route sender header payload now).Books [] (m.receive options route sender header payload now).losing := by
  unfold Machine.receive
  dsimp only
  split
  · exact h.keep
  · next hsame =>
    split
    · exact h.receiveNew route sender header payload
    · next n hfind =>
      refine h.receiveOn hfind (fun hcounts => ?_) now
      rw [takes, if_neg hsame, hfind, filter_some, if_pos hcounts, all_some] at hin
      simpa [← imp_iff_not_or] using hin

theorem shrink (h : m.Books hand exempt) {connections : List (Utf16 × Nat)} (hsub : connections.Sublist m.connections)
    (closed : Nat) (finished : List (Nat × Nat)) : { m with connections, closed, finished }.Books hand exempt :=
  ⟨h.serials, fun e he => h.keyed e (hsub.subset he), h.keys.sublist (hsub.map _),
    fun e he => h.counter e (hsub.subset he), h.single, h.number, h.known, h.numbers,
    fun n hn => h.taken n (hn.imp_left fun hin => ⟨(hsub.map Prod.snd).subset hin.1, hin.2⟩), h.once, h.next, h.sent, h.fits⟩

theorem finish (h : m.Books hand exempt) (n : Nat) : (m.finish n).Books hand exempt := by
  unfold Machine.finish
  split
  · exact h
  · split
    · exact h.shrink filter_sublist _ _
    · exact h

theorem spare (h : m.Books hand exempt) (hgone : ∀ n, exempt = some n → n ∉ m.connections.map Prod.snd) : m.Books hand none :=
  { h with
    counter := fun e he _ => h.counter e he fun hexempt => hgone e.2 hexempt (List.mem_map_of_mem he)
    taken := fun n hn => h.taken n (hn.imp_left fun hin => ⟨hin.1, fun hexempt => hgone n hexempt hin.1⟩) }

theorem terminate (h : m.Books [] none) (hin : n ∈ m.connections.map Prod.snd) (hquiet : ∀ side, pending n side m.frames = 0)
    (hending : m.ending n = false) (hclosed : m.hasClosed n = false) (reason : CloseCode) : (m.terminate n reason).Books [] none := by
  have hnone : ∀ side, closes n side m.log = 0 := by
    refine fun side => Nat.eq_zero_of_not_pos fun hpos => ?_
    rw [hasClosed_iff.mpr ⟨side, hpos⟩] at hclosed
    cases hclosed
  unfold Machine.terminate
  split
  · exact h
  · next c hc =>
    have hserial := h.serial hc
    split
    · have hsequence : ∀ recipient, (c.flow recipient.other).sequence = (carried n recipient m.log).length := by
        intro recipient
        obtain ⟨e, he, rfl⟩ := List.mem_map.mp hin
        have hcounter := h.counter e he (by simp) recipient.other
        rw [sequences, getElem?_map, hc, nil_append, hquiet, Side.other_other] at hcounter
        exact some.inj hcounter
      have hcounted := h.other m.routes m.issued m.bytesFrom m.bytesTo m.rejected (m.counted n reason).terminations
        (m.counted n reason).terminated
      have hof : ∀ recipient k side, (Broker.closeEntry c reason recipient true).closes k side =
          (decide (k = n) && decide (side = recipient)) := by
        intro recipient k side
        rw [closes_closeEntry, hserial]
      refine hcounted.sendClose _ (hof .source) (List.getElem?_eq_some_iff.mp hc).1 (.inl hin) (hnone .source) hending
        (hsequence .source) fun entry' hentry' => ?_
      rw [← some.inj hentry']
      exact ⟨rfl, hof .destination, hsequence .destination, hquiet .source, hnone .destination⟩
    · exact h

theorem answer (h : m.Books [] none) {rest : List (Task Time)} {i : Nat} {next : Option Entry} (value : Bool)
    (hstack : m.stack = .callback (.closing n i next) :: rest) : ({ m with stack := rest }.settle i value).Books [] none := by
  refine (h.pop hstack rfl).settle i (.inr fun entry hentry k _ hopen => ?_)
  obtain ⟨entry', hentry', horigin⟩ := h.sent _ (hstack ▸ mem_cons_self)
  rw [some.inj (hentry.symm.trans hentry')] at hopen
  exact absurd horigin hopen

theorem closeNext (h : m.Books [] none) {rest : List (Task Time)} {i : Nat} {next : Entry} (value : Bool)
    (hstack : m.stack = .callback (.closing n i (some next)) :: rest) :
    (({ m with stack := rest }.settle i value).afterClose n (some next)).Books [] none := by
  have hclosings := Ledger.closings_of_stack hstack
  have hmem : (n, some next) ∈ m.closings := by
    rw [hclosings]
    exact mem_cons_self
  obtain ⟨hof, hsequence, -, hhas, hnone⟩ := h.next _ hmem next rfl
  have honce : { m with stack := rest }.ending n = false := by
    have hnodup := h.once
    rw [hclosings, map_cons, nodup_cons] at hnodup
    refine List.any_eq_false.mpr fun e he heq => hnodup.1 ?_
    exact List.mem_map.mpr ⟨e, he, of_decide_eq_true heq⟩
  have hquiet := @Quiet.settle _ { m with stack := rest } i value
  have hlength : (carried n .destination ({ m with stack := rest }.settle i value).log).length =
      (carried n .destination m.log).length := length_carried_settle i value n .destination
  refine (h.answer value hstack).sendClose none hof (h.known.2.2 _ hmem) (.inr ?_) ?_ honce (hsequence.trans hlength.symm) fun _ hnone => nomatch hnone
  · rw [hquiet.hasClosed]
    exact hhas
  · rw [hquiet.closes]
    exact hnone

end Books

/-! ## Endings under way -/

/-- A connection of the table that the broker has sent a close frame for is being ended. -/
def Ended (m : Machine Time) : Prop := ∀ n ∈ m.connections.map Prod.snd, m.hasClosed n → m.ending n

namespace Ended

theorem of_quiet (h : m.Ended) (hquiet : Quiet m m') : m'.Ended := by
  intro n hn hclosed
  rw [hquiet.connections] at hn
  rw [hquiet.hasClosed] at hclosed
  rw [hquiet.ending]
  exact h n hn hclosed

variable {n : Nat}

theorem hasClosed_sendClose {entry : Entry} (next : Option Entry)
    (hof : ∀ k side', entry.closes k side' → k = n) {k : Nat} (h : (m.sendClose n entry next).hasClosed k) :
    m.hasClosed k ∨ k = n := by
  rw [Books.hasClosed_sendClose, or_eq_true] at h
  refine h.imp_right fun hends => hof k entry.recipient ?_
  unfold Entry.closes
  rw [decide_eq_true rfl, Bool.and_true]
  exact hends

theorem sendClose {entry : Entry} (next : Option Entry) (hof : ∀ k side, entry.closes k side → k = n)
    (h : ∀ k ∈ m.connections.map Prod.snd, m.hasClosed k → n = k ∨ m.ending k) : (m.sendClose n entry next).Ended := by
  intro k hk hclosed
  rw [ending_sendClose, or_eq_true]
  rcases hasClosed_sendClose next hof hclosed with hold | rfl
  · exact (h k hk hold).imp_left fun heq => decide_eq_true heq
  · exact .inl (decide_eq_true rfl)

theorem connect (h : m.Ended) {hand : List (Nat × Side × Nat)} {exempt : Option Nat} (hbooks : m.Books hand exempt)
    (route : Route) (id : Utf16) (credit : Credit) (now : Time) : (m.connect route id credit now).Ended := by
  have hquiet := @Quiet.send _
    { m with objects := m.objects ++ [m.opening route id credit now],
             connections := insert (m.opening route id credit now).key m.objects.length m.connections, opened := m.opened + 1 }
    (Broker.connectEntry (m.opening route id credit now) credit true) (.sending m.objects.length m.log.length)
    (fun horigin => Origin.noConfusion horigin) rfl
  refine of_quiet (fun n hn hclosed => ?_) hquiet
  obtain ⟨e, he, rfl⟩ := List.mem_map.mp hn
  rcases Books.mem_insert he with rfl | he
  · exact absurd hclosed (eq_false_iff.mp hbooks.unclosed)
  · exact h e.2 (List.mem_map_of_mem he) hclosed

theorem terminate (h : m.Ended) {hand : List (Nat × Side × Nat)} {exempt : Option Nat} (hbooks : m.Books hand exempt)
    (n : Nat) (reason : CloseCode) : (m.terminate n reason).Ended := by
  unfold Machine.terminate
  split
  · exact h
  · next c hc =>
    split
    · refine sendClose _ (fun k side hcloses => ?_) fun k hk hclosed => .inr (h k hk hclosed)
      rw [closes_closeEntry, hbooks.serial hc, and_eq_true] at hcloses
      exact of_decide_eq_true hcloses.1
    · exact h

theorem closeNext (h : m.Ended) {hand : List (Nat × Side × Nat)} {exempt : Option Nat} (hbooks : m.Books hand exempt)
    {rest : List (Task Time)} {i : Nat} {next : Entry} (value : Bool)
    (hstack : m.stack = .callback (.closing n i (some next)) :: rest) :
    (({ m with stack := rest }.settle i value).afterClose n (some next)).Ended := by
  have hclosings := Ledger.closings_of_stack hstack
  obtain ⟨hof, -⟩ := hbooks.next (n, some next) (hclosings ▸ mem_cons_self) next rfl
  refine sendClose none (fun k side hcloses => ?_) fun k hk hclosed => ?_
  · rw [hof, and_eq_true] at hcloses
    exact of_decide_eq_true hcloses.1
  · rw [Quiet.hasClosed (Quiet.settle i value)] at hclosed
    have hending := h k hk hclosed
    rw [Machine.ending, hclosings, any_cons, or_eq_true, decide_eq_true_eq] at hending
    exact hending

theorem mem_finish {hand : List (Nat × Side × Nat)} {exempt : Option Nat} (hbooks : m.Books hand exempt) {k : Nat}
    (hk : k ∈ (m.finish n).connections.map Prod.snd) : k ∈ m.connections.map Prod.snd ∧ n ≠ k := by
  have hold : k ∈ m.connections.map Prod.snd := by
    revert hk
    unfold Machine.finish
    split
    · exact id
    · split
      · exact fun hk => (filter_sublist.map Prod.snd).subset hk
      · exact id
  refine ⟨hold, ?_⟩
  rintro rfl
  obtain ⟨e, he, rfl⟩ := List.mem_map.mp hold
  have hkey := hbooks.keyed e he
  rw [getElem?_map] at hkey
  obtain ⟨c, hc, hkey⟩ := map_eq_some_iff.mp hkey
  have hfind := hbooks.find_of_mem he
  rw [← hkey] at hfind
  unfold Machine.finish at hk
  rw [hc] at hk
  dsimp only at hk
  rw [hfind] at hk
  obtain ⟨e', he', hsame⟩ := List.mem_map.mp hk
  obtain ⟨he', hne⟩ := mem_filter.mp he'
  have hkey' := hbooks.keyed e' he'
  rw [hsame, hbooks.keyed e he] at hkey'
  exact of_decide_eq_true hne ((some.inj hkey').symm.trans hkey.symm)

theorem finish (h : ∀ k ∈ m.connections.map Prod.snd, m.hasClosed k → n = k ∨ m.ending k)
    {hand : List (Nat × Side × Nat)} {exempt : Option Nat} (hbooks : m.Books hand exempt) : (m.finish n).Ended := by
  intro k hk hclosed
  obtain ⟨hold, hne⟩ := mem_finish hbooks hk
  have hending : m.ending k := by
    refine (h k hold ?_).resolve_left hne
    rw [← hclosed]
    unfold hasClosed Machine.finish
    split
    · rfl
    · split <;> rfl
  rw [Machine.ending, closings, Ledger.finish_stack]
  exact hending

theorem ends (h : m.Ended) (hbooks : m.Books [] none) {rest : List (Task Time)} {i : Nat} (value : Bool)
    (hstack : m.stack = .callback (.closing n i none) :: rest) :
    (({ m with stack := rest }.settle i value).finish n).Ended := by
  have hquiet := @Quiet.settle _ { m with stack := rest } i value
  refine finish (fun k hk hclosed => ?_) (hbooks.answer value hstack)
  rw [hquiet.hasClosed] at hclosed
  have hending := h k hk hclosed
  rw [Machine.ending, Ledger.closings_of_stack hstack, any_cons, or_eq_true, decide_eq_true_eq] at hending
  exact hending

theorem step (h : m.Ended) (hbooks : m.Books [] m.losing) (input : Input Time) : (m.step options input).Ended := by
  have hmoves := moves options m input
  generalize m.step options input = m' at hmoves
  cases hmoves with
  | quiet hquiet => exact h.of_quiet hquiet
  | connects hstack hinput hcurrent =>
    exact (h.of_quiet (Quiet.pop hstack rfl)).connect (hbooks.pop hstack rfl) _ _ _ _
  | terminates hstack hinput => exact (h.of_quiet (Quiet.pop hstack rfl)).terminate (hbooks.pop hstack rfl) _ _
  | closes hstack hinput => exact h.closeNext hbooks _ hstack
  | ends hstack hinput =>
    rw [losing, hstack] at hbooks
    exact h.ends hbooks _ hstack
  | finishes hstack hinput =>
    exact finish (fun k hk hclosed => .inr ((h.of_quiet (Quiet.pop hstack rfl)) k hk hclosed)) (hbooks.pop hstack rfl)

end Ended

namespace Books

/-! ## Runs -/

theorem call (h : m.Books [] none) (request : Request Time) :
    (m.call options request).Books [] (m.call options request).losing := by
  cases request with
  | register registration =>
    simp only [Machine.call, Machine.register]
    split
    · exact h.keep
    · split
      · exact h.keep
      · split
        · exact h.keep
        · exact (h.other _ _ m.bytesFrom m.bytesTo m.rejected m.terminations m.terminated).keep
  | receive route sender header payload => exact (h.jobs _ _).keep
  | recordActivity tunnel attachment =>
    simp only [Machine.call]
    split
    · refine (h.push fun task htask => ?_).keep
      rw [mem_singleton.mp htask]
      exact ⟨rfl, rfl, trivial⟩
    · exact h.keep
  | revokeAttachment attachment => exact (h.jobs _ _).keep
  | sweep now => exact (h.jobs _ _).keep
  | close => exact (h.jobs _ _).keep
  | closeRoute route => exact (h.jobs _ _).keep
  | disconnectRoute route => exact (h.jobs _ _).keep

theorem endsInStep (h : m.Books [] m.losing) (hended : m.Ended) {rest : List (Task Time)} {n : Nat} {reason : CloseCode} {lost : Bool}
    (hstack : m.stack = .job (.terminate n reason lost) :: rest)
    (hin : (m.holder n).isNone || (m.unshared n && !lost && !(m.frames.any fun f => f.1 = n) && !m.ending n)) :
    ({ m with stack := rest }.terminate n reason).Books [] none := by
  simp only [or_eq_true, and_eq_true, isNone_iff_eq_none, not_eq_true'] at hin
  have hpop := h.pop hstack rfl
  have hquiet : Quiet m { m with stack := rest } := Quiet.pop hstack rfl
  have hout : m.holder n = none → n ∉ m.connections.map Prod.snd ∧ ({ m with stack := rest }.terminate n reason) = { m with stack := rest } := by
    intro hnone
    unfold holder at hnone
    unfold Machine.terminate
    cases hc : m.objects[n]? with
    | none =>
      refine ⟨fun hn => ?_, rfl⟩
      obtain ⟨e, he, rfl⟩ := List.mem_map.mp hn
      have hkey := h.keyed e he
      rw [getElem?_map, hc] at hkey
      cases hkey
    | some c =>
      rw [hc, bind_some] at hnone
      refine ⟨fun hn => ?_, ?_⟩
      · rw [h.find_key hn (by rw [getElem?_map, hc]; rfl)] at hnone
        cases hnone
      · dsimp only
        exact if_neg (not_isSome_iff_eq_none.mpr hnone)
  rcases hin with hnone | ⟨⟨⟨hshared, hlost⟩, hquietly⟩, hending⟩
  · obtain ⟨hgone, hsame⟩ := hout hnone
    rw [hsame]
    refine hpop.spare fun k hk => ?_
    unfold losing at hk
    rw [hstack] at hk
    cases lost with
    | false => cases hk
    | true =>
      rw [← some.inj hk]
      exact hgone
  · subst hlost
    have hnone : m.losing = none := by
      unfold losing
      rw [hstack]
    rw [hnone] at hpop
    rcases holder_of_unshared hshared with hholder | hholder
    · rw [(hout hholder).2]
      exact hpop
    · have hmem : n ∈ m.connections.map Prod.snd := by
        obtain ⟨c, hc, hfind⟩ := bind_eq_some_iff.mp hholder
        exact (h.key_of_find hfind).1
      refine hpop.terminate hmem (fun side => ?_) ((hquiet.ending n).trans hending) ?_ reason
      · refine countP_eq_zero.mpr fun f hf hof => ?_
        rw [frames_pop hstack rfl] at hf
        exact List.any_eq_false.mp hquietly f hf (and_eq_true_iff.mp hof).1
      · rw [hquiet.hasClosed, eq_false_iff]
        intro hclosed
        rw [hended n hmem hclosed] at hending
        cases hending

theorem step (h : m.Books [] m.losing) (hended : m.Ended) {input : Input Time} (hin : m.inStep input) :
    (m.step options input).Books [] (m.step options input).losing := by
  unfold inStep at hin
  unfold Machine.step
  split
  · next request hstack =>
    rw [losing, hstack] at h
    exact h.call request
  · next callback rest request hstack =>
    rw [losing, hstack] at h
    exact h.call request
  · next callback rest value now hstack =>
    rw [losing, hstack] at h
    rw [hstack] at hin
    cases callback with
    | refusing i =>
      refine ((h.pop hstack rfl).settle i (.inr fun entry hentry n hn _ => ?_)).keep
      obtain ⟨entry', hentry', hnone⟩ := h.sent _ (hstack ▸ mem_cons_self)
      rw [some.inj (hentry.symm.trans hentry'), hnone] at hn
      cases hn
    | recording => exact (h.pop hstack rfl).keep
    | admitting route id credit => exact (h.pop hstack rfl).admitted route id credit value now
    | judging n route sender header payload =>
      exact (h.popFrame hstack rfl).judge (h.sent _ (hstack ▸ mem_cons_self)) value now
    | charging n sender header payload =>
      simp only [answered]
      split
      · exact (h.popFrame hstack rfl).spend payload
      · exact (h.popFrame hstack rfl).lose _
    | sending n i =>
      simp only [answered]
      cases value with
      | true => exact ((h.pop hstack rfl).settle i (.inl rfl)).keep
      | false =>
        refine (((h.pop hstack rfl).exempting (some n)).settle i (.inr fun entry hentry k hk _ => ?_)).fail n _ true
        obtain ⟨entry', hentry', hof, -⟩ := h.sent _ (hstack ▸ mem_cons_self)
        rw [some.inj (hentry.symm.trans hentry'), hof] at hk
        rw [← some.inj hk]
        simp only [not_eq_true'] at hin
        exact ⟨hin, .inr rfl⟩
    | closing n i next =>
      cases next with
      | some next => exact (h.closeNext value hstack).keep
      | none => exact ((h.answer value hstack).finish n).keep
  · next job rest now hstack =>
    cases job with
    | receive route sender header payload =>
      rw [losing, hstack] at h
      rw [hstack] at hin
      have hpop := h.pop hstack rfl
      have howes : ∀ n, { m with stack := rest }.owes n = m.owes n := by
        intro n
        unfold owes
        rw [(Quiet.pop hstack rfl).closings]
      refine hpop.receive ?_ now
      rw [frames_pop hstack rfl]
      simp only [howes]
      exact hin
    | terminate n reason lost =>
      rw [hstack] at hin
      exact (h.endsInStep hended hstack hin).keep
    | finish n =>
      rw [losing, hstack] at h
      exact ((h.pop hstack rfl).finish n).keep
    | expire at_ n =>
      rw [losing, hstack] at h
      simp only [work, Machine.expire]
      split
      · exact ((h.pop hstack rfl).fail n _ false).keep
      · exact (h.pop hstack rfl).keep
    | remove route reason =>
      rw [losing, hstack] at h
      simp only [work, Machine.remove]
      split
      · have hpop := h.pop hstack rfl
        refine Books.keep (Books.jobs ?_ _ _)
        exact hpop.other _ m.issued m.bytesFrom m.bytesTo m.rejected m.terminations m.terminated
      · exact (h.pop hstack rfl).keep
  · exact h

theorem foldl (inputs : List (Input Time)) (h : m.Books [] m.losing) (hended : m.Ended) (hin : runsInStep options m inputs) :
    (inputs.foldl (Machine.step options) m).Books [] (inputs.foldl (Machine.step options) m).losing := by
  induction inputs generalizing m with
  | nil => exact h
  | cons input inputs ih =>
    rw [runsInStep, and_eq_true] at hin
    exact ih (h.step hended hin.1) (hended.step h input) hin.2

theorem closesInSequence (h : m.Books hand exempt) : ClosesInSequence m.log := by
  intro i entry n hentry horigin hn
  obtain ⟨hplain, hsequence⟩ := h.fits i entry hentry horigin n hn
  rw [hsequence, hplain.expected_eq]

end Books

end Machine

/-- In a run in which no connection is ended over a frame that is counted, the close frames of the broker come in
sequence. -/
theorem closes_in_sequence {Time : Type} (options : Options Time) (inputs : List (Input Time))
    (hin : Machine.runsInStep options Machine.new inputs) : ClosesInSequence (Machine.run options inputs).log := by
  have hended : (Machine.new : Machine Time).Ended := fun n hn => nomatch hn
  exact (Machine.Books.new.foldl inputs hended hin).closesInSequence

namespace Sample

def slow : Options Unit := { options with bytesPerSecond := 2 }

/-- A connection is opened and accepted, and the source sends three bytes, one more than the bandwidth allows. Both sides
take their close frames. -/
def overspent : List (Input Unit) :=
  .call (.register registration) :: opened 0 ++
    [.call (.receive 0 .destination (frame 0 (.accepted credit)) []), .proceed (), .answer true (), .answer true (),
     .call (.receive 0 .source (frame 1 (.data .sourceToDestination false)) [1, 2, 3]), .proceed (), .answer true (), .proceed (),
     .answer true (), .answer true ()]

end Sample

theorem closes_in_sequence_nested : ClosesInSequence (Machine.run Sample.options Sample.nested).log ∧
    (Machine.run Sample.options Sample.nested).log.length = 3 :=
  ⟨closes_in_sequence Sample.options Sample.nested (by decide), by decide⟩

/-- The destination is closed with number 2, after the connect frame with number 0. -/
theorem overspent_out_of_sequence : ¬ ClosesInSequence (Machine.run Sample.slow Sample.overspent).log := by
  intro h
  have hclose : (Machine.run Sample.slow Sample.overspent).log[3]?.any fun entry => entry.origin = .closing &&
      entry.connection = some 0 && entry.header.sequence ≠ expected 0 entry.recipient
        ((Machine.run Sample.slow Sample.overspent).log.take 3) := by
    decide
  obtain ⟨entry, hentry, hparts⟩ := (Option.any_eq_true _ _).mp hclose
  simp only [Bool.and_eq_true, decide_eq_true_eq] at hparts
  exact hparts.2 (h 3 entry 0 hentry hparts.1.1 hparts.1.2)

end Cantrip.Tunnels
