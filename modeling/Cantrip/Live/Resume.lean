import Cantrip.Live.Steps

/-!
# Resuming

A connection that is told that it has caught up was sent the events after its cursor, and is sent every later event of
its scopes. A resume is decided when the connection is initialized, but replayed when it subscribes: the events between
may have been evicted by then, and nobody looks again. `meets` says that they were not.
-/

namespace Cantrip.Live

open List Option Bool Function

def Connection.subscribed (c : Connection) (e : Event) : Bool := decide (e.owner = c.owner ∧ e.scope ∈ c.scopes)

namespace Hub

variable {o : Options} {socket : Nat → Answer} {h h' h'' : Hub} {id j cursor : Nat} {act : Act} {acts : List Act}

section Statements

variable (o : Options) (socket : Nat → Answer)

def owed (id : Nat) (h : Hub) : List Act → List Event
  | [] => []
  | act :: acts =>
    match h.step o socket act with
    | none => []
    | some h' => (published (h'.log.drop h.log.length)).filter (h.connection id).subscribed ++ owed id h' acts

def meets (h : Hub) : Act → Bool
  | .authorized id true =>
    match h.pending id, (h.connection id).resume with
    | some ⟨.subscribe, _, scopes⟩, some ⟨cursor, none⟩ =>
      (eventsAfter h.log ((h.addSubscriptions id scopes).connection id) cursor).all fun e => e ∈ h.replay
    | _, _ => true
  | _ => true

def meetsAlong (h : Hub) : List Act → Bool
  | [] => true
  | act :: acts => meets h act && (h.step o socket act).all fun h' => meetsAlong h' acts

end Statements

/-! ## After the resume -/

theorem Follows.wants (hf : Follows id h) : (h.connection id).wants = (h.connection id).subscribed := by
  funext e
  unfold Connection.wants Connection.subscribed
  rw [hf.initialized, hf.resume]
  rfl

theorem follows_step (hs : h.Sound) (hf : Follows id h) (hstep : h.step o socket act = some h') (hstays : act.stays id) (hopen : h'.isOpen id) :
    ∃ more, h'.log = h.log ++ more ∧ deliveries id more = (published more).filter (h.connection id).subscribed ∧ Follows id h' ∧
      (h'.connection id).owner = (h.connection id).owner := by
  obtain hordinary | ⟨r, -, hr, rfl⟩ := step_cases hs hstep id
  · obtain ⟨hsteady, hfollows⟩ := hordinary.follows hstays hf hopen
    obtain ⟨more, hlog, -, hmore⟩ := hsteady.log
    refine ⟨more, hlog, ?_, hfollows, (hsteady.same hopen).2.owner⟩
    rw [hmore hopen, hf.wants]
  · have hkind := hf.asked r hr
    unfold answer at hopen ⊢
    rw [hkind] at hopen ⊢
    dsimp only at hopen ⊢
    obtain ⟨count, hdoes, hsame, -⟩ := @does_subscribe o socket (h.taken id) id r
    have hresume : ((h.taken id).connection id).resume = none := hf.resume
    have hadded : (((h.taken id).addSubscriptions id r.scopes).connection id) =
        { (h.taken id).connection id with scopes := withScopes ((h.taken id).connection id).scopes r.scopes } := by
      rw [addSubscriptions_connection (h.taken id) id r.scopes hf.opened, update_self]
    have hnothing : ((h.taken id).addSubscriptions id r.scopes).resumed id count = [] := by
      unfold resumed
      rw [hadded]
      dsimp only
      rw [hresume]
    have hsame' := hsame hopen
    refine ⟨_, hdoes.log_open hopen, ?_, ⟨hopen, ?_, ?_, fun r' hr' => ?_⟩, ?_⟩
    · rw [hnothing, published_sent]
      rfl
    · rw [hsame'.initialized, hadded]
      exact hf.initialized
    · rw [hsame'.resume, hresume]
      rfl
    · rw [hdoes.pending] at hr'
      exact absurd (hr'.symm.trans (update_self ..)) (some_ne_none r')
    · rw [hsame'.owner, hadded]
      rfl

theorem step_attached (hs : h.Sound) (hstep : h.step o socket act = some h') : h.attached ≤ h'.attached := by
  obtain hordinary | ⟨r, -, -, rfl⟩ := step_cases hs hstep 0
  · exact hordinary.attached
  · obtain ⟨sent, hdoes⟩ := @does_answer o socket h 0 r
    exact Nat.le_of_eq hdoes.attached.symm

theorem step_opened (hs : h.Sound) (hstep : h.step o socket act = some h') (hid : id < h.attached) (hopen : h'.isOpen id) : h.isOpen id := by
  obtain hordinary | ⟨r, -, -, rfl⟩ := step_cases hs hstep id
  · exact hordinary.opened hid hopen
  · obtain ⟨sent, hdoes⟩ := @does_answer o socket h id r
    exact hdoes.opened hopen

theorem run_opened (hs : h.Sound) (hrun : h.run o socket acts = some h') (hid : id < h.attached) (hopen : h'.isOpen id) : h.isOpen id := by
  induction acts generalizing h with
  | nil => exact some.inj hrun ▸ hopen
  | cons act acts ih =>
    obtain ⟨next, hstep, hrest⟩ := bind_eq_some_iff.mp hrun
    exact step_opened hs hstep hid (ih (step_sound hs hstep) hrest (Nat.lt_of_lt_of_le hid (step_attached hs hstep)))

theorem follows_run (hs : h.Sound) (hf : Follows id h) (hrun : h.run o socket acts = some h') (hstays : ∀ act ∈ acts, act.stays id)
    (hopen : h'.isOpen id) :
    ∃ more, h'.log = h.log ++ more ∧ deliveries id more = owed o socket id h acts ∧
      (owed o socket id h acts).Sublist ((published more).filter fun e => e.owner = (h.connection id).owner) := by
  induction acts generalizing h with
  | nil => exact ⟨[], by rw [append_nil, some.inj hrun], rfl, List.Sublist.refl _⟩
  | cons act acts ih =>
    obtain ⟨next, hstep, hrest⟩ := bind_eq_some_iff.mp hrun
    have hid := hs.attached id hf.opened
    have hnext := step_sound hs hstep
    have hopen' := run_opened hnext hrest (Nat.lt_of_lt_of_le hid (step_attached hs hstep)) hopen
    obtain ⟨more, hlog, hmore, hfollows, howner⟩ := follows_step hs hf hstep (hstays act (mem_cons_self ..)) hopen'
    obtain ⟨more', hlog', hmore', hsub⟩ := ih hnext hfollows hrest fun a ha => hstays a (mem_cons_of_mem _ ha)
    have howed : owed o socket id h (act :: acts) = (published more).filter (h.connection id).subscribed ++ owed o socket id next acts := by
      have hdrop : next.log.drop h.log.length = more := by rw [hlog, drop_left]
      rw [owed, hstep]
      dsimp only
      rw [hdrop]
    refine ⟨more ++ more', by rw [hlog', hlog, append_assoc], ?_, ?_⟩
    · rw [deliveries_append, hmore, hmore', howed]
    · rw [howed, published_append, filter_append]
      rw [howner] at hsub
      refine List.Sublist.append ?_ hsub
      refine monotone_filter_right _ fun e he => ?_
      unfold Connection.subscribed at he
      rw [decide_eq_true_iff] at he ⊢
      exact he.1

/-! ## Answers -/

structure Replayed (id cursor : Nat) (h h' : Hub) : Prop where
  follows : Follows id h'
  sent : ∃ reply current count, h'.log = h.log ++ (.sent id (.reply reply) ::
    ((eventsAfter h.log (h'.connection id) cursor).map fun e => .sent id (.event e)) ++ [.sent id (.caughtUp current count)])
  kept : ∀ e ∈ eventsAfter h.log (h'.connection id) cursor, e ∈ h.replay

/-- The connection was told to resync. -/
def Refused (id : Nat) (h h' : Hub) : Prop :=
  ∃ more, h'.log = h.log ++ more ∧ Uncaught id more ∧ deliveries id more = [] ∧
    ∃ current reason scopes, .sent id (.reply (.resyncRequired current reason scopes)) ∈ more

theorem uncaught_of_untold (hu : Untold id h h') (more : List Entry) (hlog : h'.log = h.log ++ more) : Uncaught id more := by
  obtain ⟨sent, hdoes, hsent⟩ := hu
  obtain ⟨more', hlog', hmore⟩ := hdoes.entries
  obtain rfl : more = more' := append_cancel_left (hlog.symm.trans hlog')
  intro entry hentry cursor count heq
  obtain rfl | ⟨m, hm, rfl⟩ := hmore entry hentry
  · exact Entry.noConfusion heq
  · have hm' := hsent m hm
    rw [(Entry.sent.inj heq).2] at hm'
    exact absurd hm'.symm Bool.false_ne_true

theorem eventsAfter_congr {c c' : Connection} (log : List Entry) (cursor : Nat) (howner : c'.owner = c.owner) (hscopes : c'.scopes = c.scopes) :
    eventsAfter log c' cursor = eventsAfter log c cursor := by
  unfold eventsAfter
  rw [howner, hscopes]

theorem replayed_of_does {reply : Reply} {current count : Nat} {events : List Event}
    (hd : Does id (h.taken id) h' (.reply reply :: (events.map .event ++ [.caughtUp current count]))) (hopen : h'.isOpen id)
    (hevents : events = eventsAfter h.log (h'.connection id) cursor) (hkept : ∀ e ∈ events, e ∈ h.replay)
    (hinitialized : (h'.connection id).initialized = true) (hresume : (h'.connection id).resume = none) : Replayed id cursor h h' := by
  refine ⟨⟨hopen, hinitialized, hresume, fun r hr => ?_⟩, ⟨reply, current, count, ?_⟩, hevents ▸ hkept⟩
  · rw [hd.pending] at hr
    exact absurd (hr.symm.trans (update_self ..)) (some_ne_none r)
  · rw [hd.log_open hopen, ← hevents]
    show h.log ++ _ = h.log ++ _
    rw [map_cons, map_append, List.map_map]
    rfl

theorem refused_of_does {sent : List Message} (hd : Does id (h.taken id) h' sent) (hopen : h'.isOpen id) (hplain : ∀ m ∈ sent, m.plain = true)
    {current : Nat} {reason : Reason} {scopes : List Scope} (hrequired : .reply (.resyncRequired current reason scopes) ∈ sent) :
    Refused id h h' :=
  ⟨_, hd.log_open hopen, uncaught_of_does hd hplain _ (hd.log_open hopen), deliveries_plain id hplain, current, reason, scopes,
    List.mem_map_of_mem hrequired⟩

variable {r : Request}

theorem answer_subscribe (hs : h.Sound) (hr : h.pending id = some r) (hkind : r.kind = .subscribe)
    (hmeets : meets h (.authorized id true) = true) (hopen : ((h.taken id).subscribe o socket id r).isOpen id) :
    (∃ cursor, (h.connection id).resume = some ⟨cursor, none⟩ ∧ Replayed id cursor h ((h.taken id).subscribe o socket id r)) ∨
      ((h.connection id).resume = none ∧ Untold id (h.taken id) ((h.taken id).subscribe o socket id r)) ∨
      Refused id h ((h.taken id).subscribe o socket id r) := by
  have hinitialized := (hs.asked id (by rw [hr]; rfl)).2
  obtain ⟨count, hdoes, hsame, -⟩ := @does_subscribe o socket (h.taken id) id r
  have hsame := hsame hopen
  have hopen' : (h.taken id).isOpen id := hdoes.opened hopen
  have hadds := does_addSubscriptions (h.taken id) id r.scopes
  have hadded : ((h.taken id).addSubscriptions id r.scopes).connection id = (h.addSubscriptions id r.scopes).connection id := by
    rw [addSubscriptions_connection (h.taken id) id r.scopes hopen', addSubscriptions_connection h id r.scopes hopen']
    rfl
  have hquiet := addSubscriptions_quiet (h.taken id) id r.scopes
  generalize (h.taken id).addSubscriptions id r.scopes = added at *
  have hresume : (added.connection id).resume = (h.connection id).resume := by
    rw [hadded, addSubscriptions_connection h id r.scopes hopen', update_self]
  unfold resumed at hdoes
  rw [hresume] at hdoes
  obtain hnone | ⟨⟨cursor, reason⟩, hsome⟩ := eq_none_or_eq_some (h.connection id).resume
  · rw [hnone] at hdoes
    exact .inr (.inl ⟨hnone, _, hdoes, by simp [Message.caught]⟩)
  · obtain rfl | ⟨reason', rfl⟩ := eq_none_or_eq_some reason
    · refine .inl ⟨cursor, hsome, ?_⟩
      rw [hsome] at hdoes
      have hkept : ∀ e ∈ eventsAfter added.log (added.connection id) cursor, e ∈ added.replay := by
        obtain ⟨kind, requestId, scopes⟩ := r
        obtain rfl : kind = .subscribe := hkind
        simp only [meets, hr, hsome, List.all_eq_true, decide_eq_true_iff] at hmeets
        rw [hquiet.log, hquiet.replay, hadded]
        exact hmeets
      have hevents := toReplay_eq (hadds.retains (taken_sound hs id).retains) hkept
      refine replayed_of_does hdoes hopen ?_ ?_ ?_ ?_
      · rw [hevents, hquiet.log]
        exact (eventsAfter_congr _ _ hsame.owner hsame.scopes).symm
      · rw [hevents]
        intro e he
        have hmem := hkept e he
        rwa [hquiet.replay] at hmem
      · rw [hsame.initialized]
        exact hadds.initialized hinitialized
      · rw [hsame.resume]
        show Resume.left (h.connection id).resume = none
        rw [hsome]
        rfl
    · rw [hsome] at hdoes
      refine .inr (.inr (refused_of_does hdoes hopen ?_ (mem_cons_of_mem _ (mem_cons_self ..))))
      simp [Message.plain]

theorem answer_resyncAck (hs : h.Sound) (hr : h.pending id = some r) (hopen : ((h.taken id).resyncAck o socket id r cursor).isOpen id) :
    Replayed id cursor h ((h.taken id).resyncAck o socket id r cursor) ∨ Refused id h ((h.taken id).resyncAck o socket id r cursor) := by
  have hinitialized := (hs.asked id (by rw [hr]; rfl)).2
  obtain ⟨count, hdoes, hsame, -⟩ := @does_resyncAck o socket (h.taken id) id r cursor
  have hsame := hsame hopen
  have hreplaces := does_replaceSubscriptions (h.taken id) id r.scopes
  have hlog : ((h.taken id).replaceSubscriptions id r.scopes).log = h.log := (replaceSubscriptions_quiet (h.taken id) id r.scopes).log
  generalize (h.taken id).replaceSubscriptions id r.scopes = replaced at *
  obtain hnone | ⟨reason, hsome⟩ := eq_none_or_eq_some ((h.taken id).resumeReason o ((h.taken id).connection id).owner o.epoch cursor)
  · rw [hnone] at hdoes hsame
    have hkept : ∀ e ∈ eventsAfter replaced.log (replaced.connection id) cursor, e ∈ replaced.replay := by
      intro e he
      obtain ⟨hmem, hwanted⟩ := mem_filter.mp he
      rw [decide_eq_true_iff] at hwanted
      rw [hreplaces.replay]
      rw [hlog] at hmem
      exact retained_of_resumable (taken_sound hs id).retains hnone hmem (hwanted.1.trans hreplaces.owner) hwanted.2.1
    have hevents := toReplay_eq (hreplaces.retains (taken_sound hs id).retains) hkept
    refine .inl (replayed_of_does hdoes hopen ?_ ?_ ?_ ?_)
    · rw [hevents, hlog]
      exact (eventsAfter_congr _ _ hsame.owner hsame.scopes).symm
    · rw [hevents]
      intro e he
      have hmem := hkept e he
      rwa [hreplaces.replay] at hmem
    · rw [hsame.initialized]
      exact hreplaces.initialized hinitialized
    · rw [hsame.resume]
      rfl
  · rw [hsome] at hdoes
    refine .inr (refused_of_does hdoes hopen ?_ (mem_cons_self ..))
    simp [resynced, Message.plain]

theorem answer_closed (hclosed : ¬ (h.answer o socket id r).isOpen id) : Untold id (h.taken id) (h.answer o socket id r) := by
  unfold answer at hclosed ⊢
  split
  · rename_i hkind
    rw [hkind] at hclosed
    obtain ⟨count, -, -, huntold⟩ := @does_subscribe o socket (h.taken id) id r
    exact huntold hclosed
  · rename_i cursor hkind
    rw [hkind] at hclosed
    obtain ⟨count, -, -, huntold⟩ := @does_resyncAck o socket (h.taken id) id r cursor
    exact huntold hclosed

theorem answer_resume (hopen : (h.answer o socket id r).isOpen id) (cursor : Nat) :
    ((h.answer o socket id r).connection id).resume ≠ some ⟨cursor, none⟩ := by
  unfold answer at hopen ⊢
  split
  · rename_i hkind
    rw [hkind] at hopen
    obtain ⟨count, -, hsame, -⟩ := @does_subscribe o socket (h.taken id) id r
    rw [(hsame hopen).resume]
    intro hleft
    obtain ⟨⟨c, reason⟩, -, hc⟩ := bind_eq_some_iff.mp hleft
    obtain ⟨hreason, heq⟩ := ite_none_right_eq_some.mp hc
    rw [some.inj heq] at hreason
    exact Bool.false_ne_true hreason
  · rename_i c hkind
    rw [hkind] at hopen
    obtain ⟨count, -, hsame, -⟩ := @does_resyncAck o socket (h.taken id) id r c
    rw [(hsame hopen).resume]
    intro hleft
    obtain ⟨reason, -, hc⟩ := map_eq_some_iff.mp hleft
    exact some_ne_none reason (Resume.mk.inj hc).2

theorem resume_known (hs : h.Sound) (hrun : h.run o socket acts = some h') (hopen : h'.isOpen id)
    (hresume : (h'.connection id).resume = some ⟨cursor, none⟩) :
    (h.isOpen id ∧ (h.connection id).resume = some ⟨cursor, none⟩) ∨ .initializeWith id (some (o.epoch, cursor)) ∈ acts := by
  induction acts generalizing h with
  | nil => exact .inl (some.inj hrun ▸ ⟨hopen, hresume⟩)
  | cons act acts ih =>
    obtain ⟨next, hstep, hrest⟩ := bind_eq_some_iff.mp hrun
    obtain ⟨hopen', hresume'⟩ | hmem := ih (step_sound hs hstep) hrest
    · obtain hordinary | ⟨r, -, -, rfl⟩ := step_cases hs hstep id
      · obtain hbefore | hact := hordinary.resumes hopen' cursor hresume'
        · exact .inl hbefore
        · rw [hact]
          exact .inr (mem_cons_self ..)
      · exact absurd hresume' (answer_resume hopen' cursor)
    · exact .inr (mem_cons_of_mem _ hmem)

theorem meets_last (hrun : h.run o socket acts = some h') (hmeets : h.meetsAlong o socket (acts ++ [act]) = true) : meets h' act = true := by
  induction acts generalizing h with
  | nil => exact some.inj hrun ▸ (and_eq_true_iff.mp hmeets).1
  | cons a acts ih =>
    obtain ⟨next, hstep, hrest⟩ := bind_eq_some_iff.mp hrun
    obtain ⟨-, hlater⟩ := and_eq_true_iff.mp hmeets
    rw [hstep] at hlater
    exact ih hrest hlater

theorem Retains.ordered (hr : h.Retains) (owner : String) :
    ((published h.log).filter fun e => e.owner = owner).Pairwise fun a b => a.cursor < b.cursor := by
  have hsorted : (range' 1 (h.cursors owner)).Pairwise (· < ·) := pairwise_lt_range'
  rw [← hr.numbered owner, pairwise_map] at hsorted
  exact hsorted

theorem eventsAfter_sublist (log : List Entry) (c : Connection) (cursor : Nat) :
    (eventsAfter log c cursor).Sublist ((published log).filter fun e => e.owner = c.owner) := by
  refine monotone_filter_right _ fun e he => ?_
  rw [decide_eq_true_iff] at he ⊢
  exact he.1

/-- What happens after a replay: everything the connection is owed is sent, and all of it in the order of the cursors. -/
def Continues (o : Options) (socket : Nat → Answer) (id cursor : Nat) (h h' : Hub) : Prop :=
  ∀ acts h'', h'.run o socket acts = some h'' → (∀ act ∈ acts, act.stays id) → h''.isOpen id →
    deliveries id (h''.log.drop h'.log.length) = owed o socket id h' acts ∧
      (eventsAfter h.log (h'.connection id) cursor ++ owed o socket id h' acts).Pairwise fun a b => a.cursor < b.cursor

theorem continues_of_replayed (hs : h'.Sound) (hreplayed : Replayed id cursor h h') : Continues o socket id cursor h h' := by
  intro acts h'' hrun hstays hopen
  obtain ⟨more, hlog, hmore, hsub⟩ := follows_run hs hreplayed.follows hrun hstays hopen
  have hsound := run_sound hs hrun
  refine ⟨by rw [hlog, drop_left, hmore], ?_⟩
  obtain ⟨reply, current, count, hsent⟩ := hreplayed.sent
  refine List.Pairwise.sublist ?_ (hsound.retains.ordered (h'.connection id).owner)
  rw [hlog, published_append, filter_append]
  refine List.Sublist.append ?_ hsub
  rw [hsent, published_append, filter_append]
  exact (eventsAfter_sublist h.log _ cursor).trans (sublist_append_left _ _)

def Answers (o : Options) (acts : List Act) (h : Hub) (act : Act) (id cursor : Nat) : Prop :=
  act = .authorized id true ∧ ∃ r, h.pending id = some r ∧ (r.kind = .resyncAck cursor ∨
      r.kind = .subscribe ∧ (h.connection id).resume = some ⟨cursor, none⟩ ∧ .initializeWith id (some (o.epoch, cursor)) ∈ acts)

/-- A request is answered for which the events after a cursor are asked. -/
def Asks (h : Hub) (act : Act) (id cursor : Nat) : Prop :=
  act = .authorized id true ∧ ∃ r, h.pending id = some r ∧
    (r.kind = .resyncAck cursor ∨ r.kind = .subscribe ∧ ∃ reason, (h.connection id).resume = some ⟨cursor, reason⟩)

theorem answer_cases (hs : h.Sound) (hr : h.pending id = some r) (hmeets : meets h (.authorized id true) = true)
    (hopen : (h.answer o socket id r).isOpen id) :
    (∃ cursor, (r.kind = .resyncAck cursor ∨ r.kind = .subscribe ∧ (h.connection id).resume = some ⟨cursor, none⟩) ∧
      Replayed id cursor h (h.answer o socket id r)) ∨
    (r.kind = .subscribe ∧ (h.connection id).resume = none ∧ Untold id (h.taken id) (h.answer o socket id r)) ∨
    Refused id h (h.answer o socket id r) := by
  unfold answer at hopen ⊢
  split
  · rename_i hkind
    rw [hkind] at hopen
    obtain ⟨cursor, hresume, hreplayed⟩ | ⟨hnone, huntold⟩ | hrefused := answer_subscribe hs hr hkind hmeets hopen
    · exact .inl ⟨cursor, .inr ⟨hkind, hresume⟩, hreplayed⟩
    · exact .inr (.inl ⟨hkind, hnone, huntold⟩)
    · exact .inr (.inr hrefused)
  · rename_i cursor hkind
    rw [hkind] at hopen
    obtain hreplayed | hrefused := answer_resyncAck hs hr hopen
    · exact .inl ⟨cursor, .inl hkind, hreplayed⟩
    · exact .inr (.inr hrefused)

/-- Where no event is evicted between the decision and the replay, a resume leaves no gap: what is caught up was sent
every event after its cursor and is sent every later one, and where an event is gone the client is told to resync. -/
theorem resume_leaves_no_gap (hrun : start.run o socket acts = some h) (hmeets : start.meetsAlong o socket (acts ++ [act]) = true)
    (hstep : h.step o socket act = some h') (id : Nat) :
    (∀ current count, Entry.sent id (.caughtUp current count) ∈ h'.log.drop h.log.length →
      ∃ cursor, Answers o acts h act id cursor ∧ Replayed id cursor h h' ∧ Continues o socket id cursor h h') ∧
    (∀ cursor, Asks h act id cursor → h'.isOpen id → (∃ e ∈ eventsAfter h.log (h'.connection id) cursor, e ∉ h.replay) → Refused id h h') := by
  have hs := run_sound sound_start hrun
  have hlast := meets_last hrun hmeets
  constructor
  · intro current count hcaught
    obtain hordinary | ⟨r, rfl, hr, rfl⟩ := step_cases hs hstep id
    · obtain ⟨more, hlog, huncaught⟩ := hordinary.uncaught
      rw [hlog, drop_left] at hcaught
      exact absurd rfl (huncaught _ hcaught current count)
    · have hfresh : ∀ k : Hub, k.log = h.log → ¬ Untold id k (h.answer o socket id r) := by
        intro k hk huntold
        obtain ⟨sent, hdoes, hsent⟩ := huntold
        obtain ⟨more, hlog, hmore⟩ := hdoes.entries
        rw [hlog, hk, drop_left] at hcaught
        exact absurd rfl (uncaught_of_untold ⟨sent, hdoes, hsent⟩ more hlog _ hcaught current count)
      by_cases hopen : (h.answer o socket id r).isOpen id
      · obtain ⟨cursor, hasked, hreplayed⟩ | ⟨-, -, huntold⟩ | ⟨more, hlog, huncaught, -⟩ := answer_cases hs hr hlast hopen
        · refine ⟨cursor, ⟨rfl, r, hr, hasked.imp_right fun hsubscribe => ⟨hsubscribe.1, hsubscribe.2, ?_⟩⟩, hreplayed,
            continues_of_replayed (step_sound hs hstep) hreplayed⟩
          obtain ⟨sent, hdoes⟩ := @does_answer o socket h id r
          obtain ⟨hnever, -⟩ | hmem := resume_known sound_start hrun (hdoes.opened hopen) hsubscribe.2
          · exact absurd hnever Bool.noConfusion
          · exact hmem
        · exact absurd huntold (hfresh _ rfl)
        · rw [hlog, drop_left] at hcaught
          exact absurd rfl (huncaught _ hcaught current count)
      · exact absurd (answer_closed hopen) (hfresh _ rfl)
  · rintro cursor ⟨rfl, r, hr, hasks⟩ hopen ⟨e, he, hgone⟩
    obtain ⟨r', hr', hanswer⟩ := map_eq_some_iff.mp hstep
    obtain rfl : r = r' := Option.some.inj (hr.symm.trans hr')
    obtain rfl : h.answer o socket id r = h' := hanswer
    obtain ⟨c, hasked, hreplayed⟩ | ⟨hkind, hnone, -⟩ | hrefused := answer_cases hs hr hlast hopen
    · have hsame : c = cursor := by
        rcases hasked with hack | ⟨hsubscribe, hresume⟩
        · rcases hasks with hack' | ⟨hsubscribe, -⟩
          · exact Kind.resyncAck.inj (hack.symm.trans hack')
          · exact absurd (hack.symm.trans hsubscribe) Kind.noConfusion
        · rcases hasks with hack | ⟨-, reason, hresume'⟩
          · exact absurd (hack.symm.trans hsubscribe) Kind.noConfusion
          · exact (Resume.mk.inj (Option.some.inj (hresume.symm.trans hresume'))).1
      exact absurd (hreplayed.kept e (hsame ▸ he)) hgone
    · rcases hasks with hack | ⟨-, reason, hresume⟩
      · exact absurd (hack.symm.trans hkind) Kind.noConfusion
      · exact absurd (hnone.symm.trans hresume) (some_ne_none _).symm
    · exact hrefused

/-! ## Runs -/

/-- One event is retained, and every sending is taken. -/
def small : Options := { epoch := "epoch", maxBufferedBytes := 9, maxReplayEvents := 1, maxReplayBytes := 9, size := fun _ => 0 }

def taking (_ : Nat) : Answer := { isOpen := true, bufferedAmount := 0, takes := true }

def news : Publication := { owner := "ada", scope := .currentUser, encoded := fun _ => some 1 }

def follow : Request := { kind := .subscribe, requestId := "r", scopes := [.currentUser] }

/-- A client resumes at the start, where two events were published since and one of them is evicted before it subscribes. -/
def evicted : List Act :=
  [.publish [news], .attach "ada", .initializeWith 0 (some ("epoch", 0)), .publish [news], .request 0 follow]

/-- The same without the second event. -/
def retained : List Act := [.publish [news], .attach "ada", .initializeWith 0 (some ("epoch", 0)), .request 0 follow]

theorem resume_leaves_no_gap_retained : ∃ h h', start.run small taking retained = some h ∧ h.step small taking (.authorized 0 true) = some h' ∧
    .sent 0 (.caughtUp 1 1) ∈ h'.log.drop h.log.length ∧
    ∃ cursor, Answers small retained h (.authorized 0 true) 0 cursor ∧ Replayed 0 cursor h h' ∧ Continues small taking 0 cursor h h' := by
  have hrun : (start.run small taking retained).isSome := by decide
  obtain ⟨h, hrun'⟩ := isSome_iff_exists.mp hrun
  have hstep : (h.step small taking (.authorized 0 true)).isSome ∧
      ∀ h' ∈ h.step small taking (.authorized 0 true), .sent 0 (.caughtUp 1 1) ∈ h'.log.drop h.log.length := by
    obtain rfl := Option.some.inj hrun'
    decide
  obtain ⟨h', hstep'⟩ := isSome_iff_exists.mp hstep.1
  have hcaught := hstep.2 h' hstep'
  exact ⟨h, h', hrun', hstep', hcaught, (resume_leaves_no_gap hrun' (by decide) hstep' 0).1 1 1 hcaught⟩

theorem resume_gap : ((start.run small taking (evicted ++ [.authorized 0 true])).map fun h =>
    (deliveries 0 h.log, eventsAfter h.log (h.connection 0) 0, h.log.getLast?)) =
      some ([⟨"ada", 2, .currentUser, 1⟩], [⟨"ada", 1, .currentUser, 1⟩, ⟨"ada", 2, .currentUser, 1⟩], some (.sent 0 (.caughtUp 2 1))) := by
  decide

/-- After every run the hub lists under a scope exactly the open connections of the owner that are subscribed to it, each
once, and what it keeps for replay are the last events of each owner without a gap. -/
theorem bookkeeping (hrun : start.run o socket acts = some h) :
    (∀ owner scope id, id ∈ h.subscribers owner scope ↔
        h.isOpen id ∧ (h.connection id).owner = owner ∧ scope ∈ (h.connection id).scopes) ∧
      (∀ owner scope, (h.subscribers owner scope).Nodup) ∧
      ∀ owner, ∃ lost, ((h.replay.filter fun e => e.owner = owner).map Event.cursor) = range' (lost + 1) (h.cursors owner - lost) := by
  obtain ⟨htables, hshut, hretains, _, _⟩ := run_sound sound_start hrun
  refine ⟨fun owner scope id => ?_, htables.nodup, fun owner => ?_⟩
  · rw [htables.members]
    refine ⟨fun ⟨howner, hscope⟩ => ⟨?_, howner, hscope⟩, And.right⟩
    by_contra hclosed
    rw [hshut id (Bool.not_eq_false _ ▸ hclosed)] at hscope
    exact not_mem_nil hscope
  · have hsuffix := (hretains.suffix.filter fun e => decide (e.owner = owner)).map Event.cursor
    rw [hretains.numbered] at hsuffix
    obtain ⟨front, hfront⟩ := hsuffix
    refine ⟨front.length, ?_⟩
    have hdrop := congrArg (drop front.length) hfront
    rw [drop_left, drop_range'] at hdrop
    rw [hdrop, Nat.mul_one, Nat.add_comm]

/-- A subscriber whose first event was evicted by the second. -/
theorem bookkeeping_retained : ∃ h, start.run small taking (evicted ++ [.authorized 0 true]) = some h ∧
    h.subscribers "ada" .currentUser = [0] ∧ h.replay.map Event.cursor = [2] ∧
    (∀ owner scope id, id ∈ h.subscribers owner scope ↔
      h.isOpen id ∧ (h.connection id).owner = owner ∧ scope ∈ (h.connection id).scopes) ∧
    ∀ owner, ∃ lost, ((h.replay.filter fun e => e.owner = owner).map Event.cursor) = range' (lost + 1) (h.cursors owner - lost) := by
  have hkept : ∃ h ∈ start.run small taking (evicted ++ [.authorized 0 true]),
      h.subscribers "ada" .currentUser = [0] ∧ h.replay.map Event.cursor = [2] := by decide
  obtain ⟨h, hrun, hlisted, hreplay⟩ := hkept
  obtain ⟨hmembers, -, hretained⟩ := bookkeeping hrun
  exact ⟨h, hrun, hlisted, hreplay, hmembers, hretained⟩

end Hub

end Cantrip.Live
