import Cantrip.Live.Retention

/-!
# Delivery

A connection that is past its resume is sent every event that is published in its scopes (`Steady`), at once and in
order, as long as nothing but the publications, the other connections and harmless messages of its own happen.
-/

namespace Cantrip.Live

open Hub List

def Entry.delivered (id : Nat) : Entry → Option Event
  | .sent j (.event e) => if j = id then some e else none
  | _ => none

/-- The events that were sent to a connection, in order. -/
def deliveries (id : Nat) (log : List Entry) : List Event := log.filterMap (Entry.delivered id)

@[simp] theorem deliveries_append (id : Nat) (log more : List Entry) :
    deliveries id (log ++ more) = deliveries id log ++ deliveries id more :=
  filterMap_append

def Connection.wants (c : Connection) (e : Event) : Bool :=
  c.initialized && c.resume.isNone && decide (e.owner = c.owner ∧ e.scope ∈ c.scopes)

theorem wants_of_same {c c' : Connection} (h : Same c c') : c'.wants = c.wants := by
  funext e
  unfold Connection.wants
  rw [h.owner, h.initialized, h.resume, h.scopes]

theorem deliveries_plain (id : Nat) {sent : List Message} (h : ∀ m ∈ sent, m.plain = true) :
    deliveries id (sent.map (Entry.sent id)) = [] := by
  unfold deliveries
  rw [filterMap_eq_nil_iff]
  intro entry hentry
  obtain ⟨m, hm, rfl⟩ := mem_map.mp hentry
  have hplain := h m hm
  cases m <;> first | rfl | exact absurd hplain Bool.false_ne_true

theorem deliveries_events (id : Nat) (events : List Event) : deliveries id ((events.map Message.event).map (Entry.sent id)) = events := by
  induction events with
  | nil => rfl
  | cons e events ih =>
    show deliveries id ([Entry.sent id (.event e)] ++ (events.map Message.event).map (Entry.sent id)) = e :: events
    rw [deliveries_append, ih]
    simp [deliveries, Entry.delivered]

theorem deliveries_other {id j : Nat} (hj : j ≠ id) {more : List Entry} (h : ∀ entry ∈ more, entry = .closed j ∨ ∃ m, entry = .sent j m) :
    deliveries id more = [] := by
  unfold deliveries
  rw [filterMap_eq_nil_iff]
  intro entry hentry
  obtain rfl | ⟨m, rfl⟩ := h entry hentry
  · rfl
  · cases m <;> simp [Entry.delivered, hj]

namespace Hub

variable {o : Options} {socket : Nat → Answer} {h h' h'' : Hub} {id j : Nat}

/-- Nothing of it tells the connection that it has caught up. -/
def Uncaught (id : Nat) (more : List Entry) : Prop := ∀ entry ∈ more, ∀ cursor count, entry ≠ .sent id (.caughtUp cursor count)

structure Steady (id : Nat) (h h' : Hub) : Prop where
  log : ∃ more, h'.log = h.log ++ more ∧ Uncaught id more ∧
    (h'.isOpen id → deliveries id more = (published more).filter (h.connection id).wants)
  same : h'.isOpen id → h.isOpen id ∧ Same (h.connection id) (h'.connection id)

theorem Steady.refl (id : Nat) (h : Hub) : Steady id h h :=
  ⟨⟨[], (append_nil _).symm, forall_mem_nil _, fun _ => rfl⟩, fun hopen => ⟨hopen, .refl _⟩⟩

theorem Steady.trans (hs : Steady id h h') (hs' : Steady id h' h'') : Steady id h h'' := by
  obtain ⟨more, hlog, huncaught, hmore⟩ := hs.log
  obtain ⟨more', hlog', huncaught', hmore'⟩ := hs'.log
  refine ⟨⟨more ++ more', by rw [hlog', hlog, append_assoc], fun entry hentry => ?_, fun hopen => ?_⟩, fun hopen => ?_⟩
  · rcases mem_append.mp hentry with hentry | hentry
    · exact huncaught entry hentry
    · exact huncaught' entry hentry
  · obtain ⟨hopen', hsame'⟩ := hs'.same hopen
    obtain ⟨-, hsame⟩ := hs.same hopen'
    rw [deliveries_append, published_append, filter_append, hmore hopen', hmore' hopen, wants_of_same hsame]
  · obtain ⟨hopen', hsame'⟩ := hs'.same hopen
    obtain ⟨hopen'', hsame⟩ := hs.same hopen'
    exact ⟨hopen'', hsame.trans hsame'⟩

variable {sent : List Message}

theorem Does.steady_other (hd : Does j h h' sent) (hj : j ≠ id) : Steady id h h' := by
  obtain ⟨more, hlog, hmore⟩ := hd.entries
  have hentries : ∀ entry ∈ more, entry = .closed j ∨ ∃ m, entry = .sent j m := fun entry hentry =>
    (hmore entry hentry).imp_right fun ⟨m, _, hm⟩ => ⟨m, hm⟩
  refine ⟨⟨more, hlog, fun entry hentry cursor count => ?_, fun _ => ?_⟩, fun hopen => ?_⟩
  · obtain rfl | ⟨m, rfl⟩ := hentries entry hentry
    · exact Entry.noConfusion
    · exact fun heq => hj (Entry.sent.inj heq).1
  · rw [deliveries_other hj hentries, published_of_done hentries, filter_nil]
  · unfold isOpen at hopen ⊢
    rw [hd.others id (Ne.symm hj)] at hopen ⊢
    exact ⟨hopen, .refl _⟩

theorem Does.log_open (hd : Does id h h' sent) (hopen : h'.isOpen id) : h'.log = h.log ++ sent.map (Entry.sent id) := by
  obtain ⟨part, rest, hlog, -, -, hsent, -⟩ := hd.log
  obtain ⟨rfl, rfl⟩ := hsent hopen
  rw [hlog, append_nil]

theorem published_sent (id : Nat) (sent : List Message) : published (sent.map (Entry.sent id)) = [] := by
  unfold published
  rw [filterMap_map, filterMap_eq_nil_iff]
  intro m _
  rfl

theorem uncaught_of_does (hd : Does id h h' sent) (hplain : ∀ m ∈ sent, m.plain = true) (more : List Entry)
    (hlog : h'.log = h.log ++ more) : Uncaught id more := by
  obtain ⟨more', hlog', hmore⟩ := hd.entries
  obtain rfl : more = more' := append_cancel_left (hlog.symm.trans hlog')
  intro entry hentry cursor count heq
  obtain rfl | ⟨m, hm, rfl⟩ := hmore entry hentry
  · exact Entry.noConfusion heq
  · have hm' := hplain m hm
    rw [(Entry.sent.inj heq).2] at hm'
    exact absurd hm' Bool.false_ne_true

theorem steady_of_does (hd : Does id h h' sent) (hplain : ∀ m ∈ sent, m.plain = true)
    (hsame : h'.isOpen id → Same (h.connection id) (h'.connection id)) : Steady id h h' := by
  have huncaught := uncaught_of_does hd hplain
  by_cases hopen : h'.isOpen id
  · refine ⟨⟨sent.map (Entry.sent id), hd.log_open hopen, huncaught _ (hd.log_open hopen), fun _ => ?_⟩,
      fun _ => ⟨hd.opened hopen, hsame hopen⟩⟩
    rw [deliveries_plain id hplain, published_sent, filter_nil]
  · obtain ⟨more, hlog, -⟩ := hd.entries
    exact ⟨⟨more, hlog, huncaught more hlog, fun hopen' => absurd hopen' hopen⟩, fun hopen' => absurd hopen' hopen⟩

theorem Keeps.steady (hk : Keeps j h h') (id : Nat) : Steady id h h' := by
  obtain ⟨sent, hdoes, hplain⟩ := hk.does
  by_cases hj : j = id
  · subst hj
    exact steady_of_does hdoes hplain hk.same
  · exact hdoes.steady_other hj

/-! ## Publications -/

theorem deliver_spec {e : Event} {ids : List Nat} (hnodup : ids.Nodup) (h : Hub) :
    ∃ more, (h.deliver o socket e ids).log = h.log ++ more ∧ published more = [] ∧
      (∀ entry ∈ more, (∃ j, entry = .closed j) ∨ ∃ j, entry = .sent j (.event e)) ∧
      ((h.deliver o socket e ids).isOpen id → deliveries id more = (if id ∈ ids ∧ h.eligible id = true then [e] else []) ∧
        (h.deliver o socket e ids).connection id = h.connection id) := by
  induction ids generalizing h with
  | nil => exact ⟨[], (append_nil _).symm, rfl, forall_mem_nil _, fun _ => ⟨rfl, rfl⟩⟩
  | cons j ids ih =>
    rw [nodup_cons] at hnodup
    generalize hnext : (if h.eligible j then h.send o socket j (.event e) else h) = next
    have hdeliver : h.deliver o socket e (j :: ids) = next.deliver o socket e ids := by
      rw [← hnext]
      rfl
    have hdoes : ∃ sent, Does j h next sent ∧ (∀ m ∈ sent, m = .event e) ∧ (sent = if h.eligible j = true then [.event e] else []) ∧
        (next.isOpen j → next.connection j = h.connection j) := by
      rw [← hnext]
      split
      · exact ⟨[.event e], does_send h j _, by simp, rfl, fun hopen => send_connection hopen⟩
      · exact ⟨[], .refl j h, by simp, rfl, fun _ => rfl⟩
    obtain ⟨sent, hd, hevents, hsent, hself⟩ := hdoes
    obtain ⟨first, hfirst, hentries⟩ := hd.entries
    have hfirst' : ∀ entry ∈ first, entry = .closed j ∨ ∃ m, entry = .sent j m := fun entry hentry =>
      (hentries entry hentry).imp_right fun ⟨m, _, hm⟩ => ⟨m, hm⟩
    obtain ⟨more, hmore, hpublished, hrest, hid⟩ := ih hnodup.2 next
    rw [hdeliver]
    refine ⟨first ++ more, by rw [hmore, hfirst, append_assoc], ?_, ?_, fun hopen => ?_⟩
    · rw [published_append, published_of_done hfirst', hpublished, nil_append]
    · intro entry hentry
      rcases mem_append.mp hentry with hentry | hentry
      · obtain rfl | ⟨m, hm, rfl⟩ := hentries entry hentry
        · exact .inl ⟨j, rfl⟩
        · exact .inr ⟨j, by rw [hevents m hm]⟩
      · exact hrest entry hentry
    · obtain ⟨hdeliveries, hconnection⟩ := hid hopen
      have hopen' : next.isOpen id := by
        unfold isOpen at hopen ⊢
        rwa [hconnection] at hopen
      rw [deliveries_append, hdeliveries, hconnection]
      by_cases hj : j = id
      · subst hj
        have hlog := hd.log_open hopen'
        have hfirst'' : first = sent.map (Entry.sent j) := append_cancel_left (hfirst.symm.trans hlog)
        have helig : next.eligible j = h.eligible j := by
          unfold eligible
          rw [hself hopen']
        rw [hself hopen', if_neg (fun hin : j ∈ ids ∧ next.eligible j = true => hnodup.1 hin.1), append_nil, hfirst'', hsent]
        refine ⟨?_, rfl⟩
        by_cases heligible : h.eligible j = true
        · rw [if_pos heligible, if_pos (⟨mem_cons_self .., heligible⟩ : j ∈ j :: ids ∧ h.eligible j = true)]
          exact deliveries_events j [e]
        · rw [if_neg heligible, if_neg (fun hin : j ∈ j :: ids ∧ h.eligible j = true => heligible hin.2)]
          rfl
      · have hother : next.connection id = h.connection id := hd.others id (Ne.symm hj)
        have helig : next.eligible id = h.eligible id := by
          unfold eligible
          rw [hother]
        rw [deliveries_other hj hfirst', hother, helig, nil_append]
        refine ⟨?_, rfl⟩
        have hiff : (id ∈ j :: ids) ↔ id ∈ ids := by simp [Ne.symm hj]
        simp only [hiff]

theorem deliver_keeps {P : Hub → Prop} (hkeeps : ∀ j h h' sent, Does j h h' sent → P h → P h') (e : Event) (ids : List Nat) {h : Hub} (hp : P h) :
    P (h.deliver o socket e ids) := by
  induction ids generalizing h with
  | nil => exact hp
  | cons j ids ih =>
    refine ih ?_
    dsimp only
    split
    · exact hkeeps j h _ _ (does_send h j _) hp
    · exact hp

theorem closeAll_keeps {P : Hub → Prop} (hkeeps : ∀ j h, P h → P (h.disconnectConnection j)) {h : Hub} (hp : P { h with closed := true }) :
    P h.closeAll := by
  unfold closeAll
  generalize { h with closed := true } = closing at hp
  induction range h.attached generalizing closing with
  | nil => exact hp
  | cons j ids ih => exact ih _ (hkeeps j closing hp)

theorem publication_spec {p : Publication} (hpublished : h.publication o socket p = some h') : ∃ bytes,
    let e : Event := { owner := p.owner, cursor := h.cursors p.owner + 1, scope := p.scope, bytes }
    h' = (h.retain o e).deliver o socket e (h.subscribers p.owner p.scope) := by
  unfold publication at hpublished
  split at hpublished
  · cases hpublished
  · obtain ⟨bytes, -, hbytes⟩ := Option.map_eq_some_iff.mp hpublished
    exact ⟨bytes, hbytes.symm⟩

theorem publication_steady {p : Publication} (htables : h.Tables) (hpublished : h.publication o socket p = some h') (id : Nat) :
    Steady id h h' := by
  obtain ⟨bytes, rfl⟩ := publication_spec hpublished
  generalize he : ({ owner := p.owner, cursor := h.cursors p.owner + 1, scope := p.scope, bytes } : Event) = e
  have howner : p.owner = e.owner := by rw [← he]
  have hscope : p.scope = e.scope := by rw [← he]
  rw [howner, hscope]
  obtain ⟨more, hlog, hnone, hentries, hid⟩ := @deliver_spec o socket id e _ (htables.nodup e.owner e.scope) (h.retain o e)
  refine ⟨⟨.published e :: more, ?_, fun entry hentry cursor count => ?_, fun hopen => ?_⟩, fun hopen => ?_⟩
  · rw [hlog]
    show (h.log ++ [.published e]) ++ more = _
    rw [append_assoc]
    rfl
  · rcases mem_cons.mp hentry with rfl | hentry
    · exact Entry.noConfusion
    · obtain ⟨j, rfl⟩ | ⟨j, rfl⟩ := hentries entry hentry
      · exact Entry.noConfusion
      · exact fun heq => Message.noConfusion (Entry.sent.inj heq).2
  · have hevent : published (.published e :: more) = [e] := by
      show published ([.published e] ++ more) = [e]
      rw [published_append, hnone]
      rfl
    have hdelivered : deliveries id (.published e :: more) = deliveries id more := rfl
    rw [hevent, hdelivered, (hid hopen).1]
    have hwants : (id ∈ h.subscribers e.owner e.scope ∧ (h.retain o e).eligible id = true) ↔ (h.connection id).wants e = true := by
      rw [htables.members]
      show _ ∧ ((h.connection id).initialized && (h.connection id).resume.isNone) = true ↔ _
      unfold Connection.wants
      rw [Bool.and_eq_true, Bool.and_eq_true, Bool.and_eq_true, decide_eq_true_iff, and_comm, @eq_comm _ e.owner]
    simp only [hwants, filter_cons, filter_nil]
  · have hconnection := (hid hopen).2
    unfold isOpen at hopen ⊢
    rw [hconnection] at hopen ⊢
    exact ⟨hopen, .refl _⟩

end Hub

end Cantrip.Live
