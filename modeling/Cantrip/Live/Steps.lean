import Cantrip.Live.Runs

/-!
# Steps

A connection that is past its resume stays so (`Follows`), and every step but the answer to one of its own requests is
steady for it.
-/

namespace Cantrip.Live

open List Option Function

/-- The message neither takes scopes away from the connection nor asks for another resume. -/
def Act.stays (id : Nat) : Act → Prop
  | .unsubscribe j _ _ => j ≠ id
  | .request j r => j = id → r.kind = .subscribe
  | _ => True

namespace Hub

variable {o : Options} {socket : Nat → Answer} {h h' h'' : Hub} {id j : Nat} {act : Act} {acts : List Act}

structure Follows (id : Nat) (h : Hub) : Prop where
  opened : h.isOpen id
  initialized : (h.connection id).initialized = true
  resume : (h.connection id).resume = none
  asked : ∀ r, h.pending id = some r → r.kind = .subscribe

structure Ordinary (o : Options) (id : Nat) (act : Act) (h h' : Hub) : Prop where
  sound : h'.Sound
  uncaught : ∃ more, h'.log = h.log ++ more ∧ Uncaught id more
  attached : h.attached ≤ h'.attached
  opened : id < h.attached → h'.isOpen id → h.isOpen id
  resumes : h'.isOpen id → ∀ cursor, (h'.connection id).resume = some ⟨cursor, none⟩ →
    (h.isOpen id ∧ (h.connection id).resume = some ⟨cursor, none⟩) ∨ act = .initializeWith id (some (o.epoch, cursor))
  follows : act.stays id → Follows id h → h'.isOpen id → Steady id h h' ∧ Follows id h'

theorem Steady.follows (hs : Steady id h h') (hf : Follows id h) (hopen : h'.isOpen id)
    (hasked : ∀ r, h'.pending id = some r → r.kind = .subscribe) :
    Follows id h' := by
  obtain ⟨-, hsame⟩ := hs.same hopen
  exact ⟨hopen, hsame.initialized.trans hf.initialized, hsame.resume.trans hf.resume, hasked⟩

theorem Steady.resumes (hs : Steady id h h') (hopen : h'.isOpen id) (cursor : Nat)
    (hresume : (h'.connection id).resume = some ⟨cursor, none⟩) :
    (h.isOpen id ∧ (h.connection id).resume = some ⟨cursor, none⟩) ∨
      act = .initializeWith id (some (o.epoch, cursor)) := by
  obtain ⟨hopen', hsame⟩ := hs.same hopen
  exact .inl ⟨hopen', hsame.resume.symm.trans hresume⟩

theorem Steady.ordinary (hs : Steady id h h') (hsound : h'.Sound) (hattached : h.attached ≤ h'.attached)
    (hasked : act.stays id → Follows id h → ∀ r, h'.pending id = some r → r.kind = .subscribe) :
    Ordinary o id act h h' := by
  obtain ⟨more, hlog, huncaught, -⟩ := hs.log
  exact ⟨hsound, ⟨more, hlog, huncaught⟩, hattached, fun _ hopen => (hs.same hopen).1, hs.resumes,
    fun hstays hf hopen => ⟨hs, hs.follows hf hopen (hasked hstays hf)⟩⟩

theorem steady_of_eq (hlog : h'.log = h.log) (hconnection : h'.connection = h.connection) : Steady id h h' := by
  refine ⟨⟨[], by rw [hlog, append_nil], forall_mem_nil _, fun _ => rfl⟩, fun hopen => ?_⟩
  unfold isOpen at hopen ⊢
  rw [hconnection] at hopen ⊢
  exact ⟨hopen, .refl _⟩

theorem Keeps.ordinary (hk : Keeps j h h') (hs : h.Sound) : Ordinary o id act h h' := by
  obtain ⟨sent, hdoes, -⟩ := hk.does
  refine (hk.steady id).ordinary (hdoes.sound hs) (Nat.le_of_eq hdoes.attached.symm) fun _ hf r hr => ?_
  rw [hdoes.pending] at hr
  exact hf.asked r hr

theorem Does.ordinary_other {sent : List Message} (hd : Does j h h' sent) (hj : j ≠ id) (hs : h.Sound) :
    Ordinary o id act h h' :=
  (hd.steady_other hj).ordinary (hd.sound hs) (Nat.le_of_eq hd.attached.symm) fun _ hf r hr => by
    rw [hd.pending] at hr
    exact hf.asked r hr

/-! ## Kinds of steps -/

theorem initializeWith_resume {resume : Option (String × Nat)} {cursor : Nat} (h : Hub) (id : Nat)
    (hopen : (h.initializeWith o socket id resume).isOpen id)
    (hcursor : ((h.initializeWith o socket id resume).connection id).resume = some ⟨cursor, none⟩) :
    (h.isOpen id ∧ (h.connection id).resume = some ⟨cursor, none⟩) ∨
      Act.initializeWith id resume = .initializeWith id (some (o.epoch, cursor)) := by
  obtain ⟨⟨sent, hdoes, -⟩, -⟩ := @initializeWith_spec o socket h id resume
  have hopen' := hdoes.opened hopen
  unfold initializeWith at hopen hcursor
  dsimp only at hopen hcursor
  split at hcursor
  · rename_i hinitialized
    rw [if_pos hinitialized] at hopen
    rw [((keeps_violation h id none .alreadyInitialized).same hopen).resume] at hcursor
    exact .inl ⟨hopen', hcursor⟩
  · rename_i hinitialized
    rw [if_neg hinitialized] at hopen
    rw [send_connection hopen, setConnection_self] at hcursor
    obtain rfl | ⟨⟨epoch, c⟩, rfl⟩ := eq_none_or_eq_some resume
    · exact .inl ⟨hopen', hcursor⟩
    · have hresumed : (⟨c, h.resumeReason o (h.connection id).owner epoch c⟩ : Resume) = ⟨cursor, none⟩ :=
        some.inj hcursor
      obtain ⟨rfl, hreason⟩ := Resume.mk.inj hresumed
      unfold resumeReason at hreason
      split at hreason
      · cases hreason
      · rename_i hepoch
        exact .inr (by rw [not_not.mp hepoch])

theorem unsubscribe_resume {requestId : String} {scopes : List Scope} (h : Hub) (id : Nat)
    (hopen : (h.unsubscribe o socket id requestId scopes).isOpen id) :
    ((h.unsubscribe o socket id requestId scopes).connection id).resume = (h.connection id).resume := by
  unfold unsubscribe at hopen ⊢
  dsimp only at hopen ⊢
  by_cases hinitialized : (h.connection id).initialized = false
  · rw [if_pos hinitialized] at hopen ⊢
    exact ((keeps_violation h id _ _).same hopen).resume
  · rw [if_neg hinitialized] at hopen ⊢
    obtain hnone | ⟨previous, hsome⟩ := eq_none_or_eq_some (answered (h.connection id) requestId)
    · rw [hnone] at hopen ⊢
      dsimp only at hopen ⊢
      rw [((keeps_rememberSend _ id requestId _).same hopen).resume, removeSubscriptions_connection, update_self]
    · rw [hsome] at hopen ⊢
      exact ((keeps_send h id rfl).same hopen).resume

theorem attach_ordinary (hs : h.Sound) (owner : String) : Ordinary o id act h (h.attach owner) := by
  have hclosed : ¬ h.isOpen h.attached := fun hopen => Nat.lt_irrefl _ (hs.attached _ hopen)
  have hself : (h.attach owner).connection h.attached = .fresh owner := update_self ..
  have hother : ∀ j, j ≠ h.attached → (h.attach owner).connection j = h.connection j := fun j hj => update_of_ne hj ..
  have hnone : (h.connection h.attached).scopes = [] := hs.shut _ (by simpa [isOpen] using hclosed)
  refine ⟨⟨⟨fun key scope j => ?_, hs.tables.nodup, fun j => ?_⟩, fun j hj => ?_,
    ⟨hs.retains.numbered, hs.retains.suffix⟩,
    fun j hopen => ?_, fun j hsome => ?_⟩,
    ⟨[], (append_nil _).symm, forall_mem_nil _⟩, Nat.le_succ _, fun hlt hopen => ?_, fun hopen cursor hresume => ?_,
    fun _ hf hopen => ?_⟩
  · show j ∈ h.subscribers key scope ↔ _
    rw [hs.tables.members]
    by_cases hj : j = h.attached
    · subst hj
      rw [hself, hnone]
      exact ⟨fun hm => absurd hm.2 not_mem_nil, fun hm => absurd hm.2 not_mem_nil⟩
    · rw [hother j hj]
  · by_cases hj : j = h.attached
    · subst hj
      rw [hself]
      exact nodup_nil
    · rw [hother j hj]
      exact hs.tables.distinct j
  · by_cases hid : j = h.attached
    · subst hid
      rw [hself]
      rfl
    · rw [hother j hid] at hj ⊢
      exact hs.shut j hj
  · show j < h.attached + 1
    by_cases hj : j = h.attached
    · omega
    · unfold isOpen at hopen
      rw [hother j hj] at hopen
      exact Nat.lt_succ_of_lt (hs.attached j hopen)
  · obtain ⟨hlt, hinitialized⟩ := hs.asked j hsome
    rw [hother j (Nat.ne_of_lt hlt)]
    exact ⟨Nat.lt_succ_of_lt hlt, hinitialized⟩
  · unfold isOpen at hopen
    rwa [hother id (Nat.ne_of_lt hlt)] at hopen
  · by_cases hid : id = h.attached
    · rw [hid, hself] at hresume
      exact absurd hresume (some_ne_none _).symm
    · unfold isOpen at hopen
      rw [hother id hid] at hopen hresume
      exact .inl ⟨hopen, hresume⟩
  · have hid : id ≠ h.attached := fun heq => hclosed (heq ▸ hf.opened)
    refine ⟨⟨⟨[], (append_nil _).symm, forall_mem_nil _, fun _ => rfl⟩, fun _ => ⟨hf.opened, ?_⟩⟩, hopen, ?_, ?_,
      hf.asked⟩
    · rw [hother id hid]
      exact .refl _
    · rw [hother id hid]
      exact hf.initialized
    · rw [hother id hid]
      exact hf.resume

theorem initializeWith_ordinary (hs : h.Sound) (resume : Option (String × Nat)) :
    Ordinary o id (.initializeWith j resume) h (h.initializeWith o socket j resume) := by
  obtain ⟨⟨sent, hdoes, hplain⟩, hsame⟩ := @initializeWith_spec o socket h j resume
  by_cases hj : j = id
  · subst hj
    refine ⟨hdoes.sound hs, ?_, Nat.le_of_eq hdoes.attached.symm, fun _ => hdoes.opened,
      fun hopen cursor hcursor => initializeWith_resume h j hopen hcursor, fun _ hf hopen => ?_⟩
    · obtain ⟨more, hlog, -⟩ := hdoes.entries
      exact ⟨more, hlog, uncaught_of_does hdoes hplain more hlog⟩
    · have hsteady := steady_of_does hdoes hplain (hsame hf.initialized)
      refine ⟨hsteady, hsteady.follows hf hopen fun r hr => ?_⟩
      rw [hdoes.pending] at hr
      exact hf.asked r hr
  · exact hdoes.ordinary_other hj hs

theorem unsubscribe_ordinary (hs : h.Sound) (requestId : String) (scopes : List Scope) (hact : act.stays id → j ≠ id) :
    Ordinary o id act h (h.unsubscribe o socket j requestId scopes) := by
  obtain ⟨sent, hdoes, hplain⟩ := @does_unsubscribe o socket h j requestId scopes
  by_cases hj : j = id
  · subst hj
    refine ⟨hdoes.sound hs, ?_, Nat.le_of_eq hdoes.attached.symm, fun _ => hdoes.opened,
      fun hopen cursor hcursor => .inl ⟨hdoes.opened hopen, ?_⟩, fun hstays => absurd rfl (hact hstays)⟩
    · obtain ⟨more, hlog, -⟩ := hdoes.entries
      exact ⟨more, hlog, uncaught_of_does hdoes hplain more hlog⟩
    · rwa [unsubscribe_resume h j hopen] at hcursor
  · exact hdoes.ordinary_other hj hs

theorem request_ordinary (hs : h.Sound) (hj : j < h.attached) (r : Request)
    (hact : act.stays id → j = id → r.kind = .subscribe) :
    Ordinary o id act h (h.request o socket j r) := by
  obtain hkeeps | ⟨hinitialized, hwaits⟩ := @request_spec o socket h j r
  · exact hkeeps.ordinary hs
  · rw [hwaits]
    refine Steady.ordinary (steady_of_eq rfl rfl) (hs.pending fun k hsome => ?_) (Nat.le_refl _)
      fun hstays hf r' hr' => ?_
    · by_cases hk : k = j
      · rw [hk]
        exact ⟨hj, hinitialized⟩
      · rw [update_of_ne hk] at hsome
        exact hs.asked k hsome
    · change update h.pending j (some r) id = some r' at hr'
      by_cases hj : id = j
      · rw [hj, update_self] at hr'
        exact some.inj hr' ▸ hact hstays hj.symm
      · rw [update_of_ne hj] at hr'
        exact hf.asked r' hr'

/-- The request is no longer waiting. -/
def taken (h : Hub) (j : Nat) : Hub := { h with pending := Function.update h.pending j none }

theorem taken_pending {r : Request} (hr : (h.taken j).pending id = some r) : h.pending id = some r := by
  change update h.pending j none id = some r at hr
  by_cases hj : id = j
  · rw [hj, update_self] at hr
    cases hr
  · rwa [update_of_ne hj] at hr

theorem taken_sound (hs : h.Sound) (j : Nat) : (h.taken j).Sound := by
  refine hs.pending fun k hsome => ?_
  obtain ⟨r, hr⟩ := isSome_iff_exists.mp hsome
  exact hs.asked k (isSome_iff_exists.mpr ⟨r, taken_pending hr⟩)

theorem taken_follows (hf : Follows id h) (j : Nat) : Follows id (h.taken j) :=
  ⟨hf.opened, hf.initialized, hf.resume, fun r hr => hf.asked r (taken_pending hr)⟩

theorem ordinary_of_taken (hordinary : Ordinary o id act (h.taken j) h') : Ordinary o id act h h' := by
  refine ⟨hordinary.sound, hordinary.uncaught, hordinary.attached, hordinary.opened, hordinary.resumes,
    fun hstays hf hopen => ?_⟩
  obtain ⟨hsteady, hfollows⟩ := hordinary.follows hstays (taken_follows hf j) hopen
  exact ⟨(steady_of_eq rfl rfl : Steady id h (h.taken j)).trans hsteady, hfollows⟩

theorem close_ordinary (hs : h.Sound) : Ordinary o id act h h.closeAll := by
  have hclosing : Steady id h h.closeAll ∧ h.closeAll.Sound ∧ Alike h h.closeAll := by
    refine closeAll_keeps (P := fun k => Steady id h k ∧ k.Sound ∧ Alike h k)
      (fun j k hk => ?_) ⟨steady_of_eq rfl rfl, ?_, rfl, rfl, fun _ hi => hi⟩
    · obtain ⟨hsteady, hsound, halike⟩ := hk
      have hdoes := does_disconnect k j
      exact ⟨hsteady.trans ((keeps_disconnect k j).steady id), hdoes.sound hsound, halike.does hdoes⟩
    · exact ⟨⟨hs.tables.members, hs.tables.nodup, hs.tables.distinct⟩, hs.shut,
        ⟨hs.retains.numbered, hs.retains.suffix⟩, hs.attached, hs.asked⟩
  obtain ⟨hsteady, hsound, halike⟩ := hclosing
  refine hsteady.ordinary hsound (Nat.le_of_eq halike.attached.symm) fun _ hf r hr => ?_
  rw [halike.pending] at hr
  exact hf.asked r hr

theorem publish_ordinary (hs : h.Sound) (publications : List Publication) :
    Ordinary o id act h (h.publishGroup o socket publications) := by
  obtain ⟨hsound, hsteady⟩ := @publishGroup_spec o socket h hs publications id
  have halike := @publishGroup_alike o socket h publications
  refine hsteady.ordinary hsound (Nat.le_of_eq halike.attached.symm) fun _ hf r hr => ?_
  rw [halike.pending] at hr
  exact hf.asked r hr

def answer (o : Options) (socket : Nat → Answer) (h : Hub) (id : Nat) (r : Request) : Hub :=
  match r.kind with
  | .subscribe => (h.taken id).subscribe o socket id r
  | .resyncAck cursor => (h.taken id).resyncAck o socket id r cursor

theorem does_answer (h : Hub) (id : Nat) (r : Request) :
    ∃ sent, Does id (h.taken id) (h.answer o socket id r) sent := by
  unfold answer
  split
  · obtain ⟨count, hdoes, -⟩ := @does_subscribe o socket (h.taken id) id r
    exact ⟨_, hdoes⟩
  · obtain ⟨count, hdoes, -⟩ := @does_resyncAck o socket (h.taken id) id r _
    exact ⟨_, hdoes⟩

theorem step_cases (hs : h.Sound) (hstep : h.step o socket act = some h') (id : Nat) :
    Ordinary o id act h h' ∨ ∃ r, act = .authorized id true ∧ h.pending id = some r ∧ h' = h.answer o socket id r := by
  cases act with
  | attach owner =>
    obtain ⟨-, ⟨⟩⟩ := ite_none_left_eq_some.mp hstep
    exact .inl (attach_ordinary hs owner)
  | initializeWith j resume =>
    obtain ⟨-, ⟨⟩⟩ := ite_none_right_eq_some.mp hstep
    exact .inl (initializeWith_ordinary hs resume)
  | ping j =>
    obtain ⟨-, ⟨⟩⟩ := ite_none_right_eq_some.mp hstep
    exact .inl ((keeps_ping h j).ordinary hs)
  | unsubscribe j requestId scopes =>
    obtain ⟨-, ⟨⟩⟩ := ite_none_right_eq_some.mp hstep
    exact .inl (unsubscribe_ordinary hs requestId scopes fun hstays => hstays)
  | request j r =>
    obtain ⟨hhandles, ⟨⟩⟩ := ite_none_right_eq_some.mp hstep
    exact .inl (request_ordinary hs hhandles.1 r fun hstays => hstays)
  | authorized j allowed =>
    obtain ⟨r, hr, rfl⟩ := map_eq_some_iff.mp hstep
    cases allowed with
    | false => exact .inl (ordinary_of_taken ((keeps_rememberSend (h.taken j) j _ _).ordinary (taken_sound hs j)))
    | true =>
      by_cases hj : j = id
      · subst hj
        exact .inr ⟨r, rfl, hr, rfl⟩
      · obtain ⟨sent, hdoes⟩ := @does_answer o socket h j r
        exact .inl (ordinary_of_taken (hdoes.ordinary_other hj (taken_sound hs j)))
  | malformed j requestId code =>
    obtain ⟨-, ⟨⟩⟩ := ite_none_right_eq_some.mp hstep
    exact .inl ((keeps_violation h j requestId code).ordinary hs)
  | control j =>
    obtain ⟨-, ⟨⟩⟩ := ite_none_right_eq_some.mp hstep
    exact .inl ((keeps_send h j rfl).ordinary hs)
  | publish publications =>
    obtain rfl := some.inj hstep
    exact .inl (publish_ordinary hs publications)
  | disconnect j =>
    obtain ⟨-, ⟨⟩⟩ := ite_none_right_eq_some.mp hstep
    exact .inl ((keeps_disconnect h j).ordinary hs)
  | close =>
    obtain rfl := some.inj hstep
    exact .inl (close_ordinary hs)

theorem step_sound (hs : h.Sound) (hstep : h.step o socket act = some h') : h'.Sound := by
  obtain hordinary | ⟨r, -, -, rfl⟩ := step_cases hs hstep 0
  · exact hordinary.sound
  · obtain ⟨sent, hdoes⟩ := @does_answer o socket h 0 r
    exact hdoes.sound (taken_sound hs 0)

theorem run_sound (hs : h.Sound) (hrun : h.run o socket acts = some h') : h'.Sound := by
  induction acts generalizing h with
  | nil => exact some.inj hrun ▸ hs
  | cons act acts ih =>
    obtain ⟨next, hstep, hrest⟩ := bind_eq_some_iff.mp hrun
    exact ih (step_sound hs hstep) hrest

end Hub

end Cantrip.Live
