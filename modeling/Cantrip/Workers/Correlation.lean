import Cantrip.Workers.Runs

/-!
# Requests, responses and events

A request is reported once. Its handler is given the events that came, in their order; a response is reported when all of
them were given. What ends the request otherwise is reported at once, and the handler is given what is queued after that.
-/

namespace Cantrip.Workers

open Finset Option Function

variable {ε ρ : Type}

/-- The worker whose peer, or whose connection, an act comes from. -/
def Act.sender : Act ε ρ → Option String
  | .attach worker .. | .disconnect worker | .interrupted worker .. | .expired worker _
  | .response worker .. | .event worker .. => some worker
  | _ => none

namespace Bridge

variable {b b' : Bridge ε ρ} {id : Nat} {r : Request ε ρ} {worker : String} {peer : Peer}

section Generations

theorem interruptions_of_unregister {generation : Nat} {close : Bool} {error : CommandError} {other : String}
    (h : (b.terminate worker error close).interruptions other = some generation) : b.interruptions other = some generation := by
  rw [(terminate_connections b worker error close).2.1] at h
  by_cases hne : other = worker
  · rw [hne, update_self] at h
    exact absurd h (by simp)
  · rwa [update_of_ne hne] at h

theorem interruptions_of_foldl {error : CommandError} {workers : List String} {other : String} {generation : Nat}
    (h : (workers.foldl (fun b worker => b.terminate worker error true) b).interruptions other = some generation) :
    b.interruptions other = some generation := by
  induction workers generalizing b with
  | nil => exact h
  | cons worker workers ih => exact interruptions_of_unregister (ih h)

theorem foldl_terminate_generation (error : CommandError) (workers : List String) (b : Bridge ε ρ) :
    (workers.foldl (fun b worker => b.terminate worker error true) b).nextGeneration = b.nextGeneration := by
  induction workers generalizing b with
  | nil => rfl
  | cons worker workers ih => exact (ih _).trans (terminate_connections ..).2.2.1

/-- The interruptions after a step are those before it, and new ones. -/
def Grows (b b' : Bridge ε ρ) : Prop :=
  b.nextGeneration ≤ b'.nextGeneration ∧
    ∀ worker generation, b'.interruptions worker = some generation → b.interruptions worker = some generation ∨ b.nextGeneration ≤ generation

theorem Grows.refl (b : Bridge ε ρ) : Grows b b := ⟨le_rfl, fun _ _ h => .inl h⟩

theorem Grows.of_connections (h : b'.connections = b.connections) : Grows b b' := by
  have hinterruptions : b'.interruptions = b.interruptions := congrArg Connections.interruptions h
  have hgeneration : b'.nextGeneration = b.nextGeneration := congrArg Connections.nextGeneration h
  exact ⟨hgeneration.ge, fun worker generation hsome => .inl (by rwa [hinterruptions] at hsome)⟩

theorem Grows.terminate (b : Bridge ε ρ) (worker : String) (error : CommandError) (close : Bool) : Grows b (b.terminate worker error close) :=
  ⟨(terminate_connections b worker error close).2.2.1.ge, fun _ _ h => .inl (interruptions_of_unregister h)⟩

theorem Grows.trans {b'' : Bridge ε ρ} (h : Grows b b') (h' : Grows b' b'') : Grows b b'' := by
  refine ⟨h.1.trans h'.1, fun worker generation hsome => ?_⟩
  obtain hold | hnew := h'.2 worker generation hsome
  · exact h.2 worker generation hold
  · exact .inr (h.1.trans hnew)

theorem Grows.fence (b : Bridge ε ρ) (worker : String) (peer : Peer) : Grows b (b.fence worker peer) := by
  unfold Bridge.fence
  split
  · exact .terminate ..
  · exact .refl b

theorem Grows.register (b : Bridge ε ρ) (worker : String) (peer : Peer) : Grows b (b.register worker peer) := by
  refine ⟨le_rfl, fun other generation h => .inl ?_⟩
  have h' : Function.update b.interruptions worker none other = some generation := h
  by_cases hne : other = worker
  · rw [hne, update_self] at h'
    exact absurd h' (by simp)
  · rwa [update_of_ne hne] at h'

theorem Grows.attach (b : Bridge ε ρ) (worker : String) (peer : Peer) (ready : Bool) : Grows b (b.attach worker peer ready) := by
  unfold Bridge.attach
  dsimp only
  split
  · exact .refl b
  · split
    · exact .fence b worker peer
    · split
      · exact .fence b worker peer
      · exact (Grows.fence b worker peer).trans (.register ..)

theorem Grows.interrupted (b : Bridge ε ρ) (worker : String) (peer : Nat) (grace : Bool) : Grows b (b.interrupted worker peer grace) := by
  have hinterrupt : ∀ timers, Grows b { b with
      peers := Function.update b.peers worker none
      interruptions := Function.update b.interruptions worker (some b.nextGeneration)
      timers
      nextGeneration := b.nextGeneration + 1 } := fun timers => by
    refine ⟨Nat.le_succ _, fun other generation h => ?_⟩
    have h' : Function.update b.interruptions worker (some b.nextGeneration) other = some generation := h
    by_cases hne : other = worker
    · rw [hne, update_self] at h'
      exact .inr (Option.some.inj h').le
    · rw [update_of_ne hne] at h'
      exact .inl h'
  unfold Bridge.interrupted
  dsimp only
  split
  · exact .refl b
  · split
    · exact hinterrupt _
    · exact (hinterrupt _).trans (.terminate ..)

theorem Grows.step {act : Act ε ρ} (h : b.step act = some b') : Grows b b' := by
  cases act with
  | attach worker peer ready => exact Option.some.inj h ▸ .attach b worker peer ready
  | disconnect worker => exact Option.some.inj h ▸ .terminate b worker _ true
  | interrupted worker peer grace => exact Option.some.inj h ▸ .interrupted b worker peer grace
  | expired worker generation =>
    obtain rfl := Option.some.inj h
    unfold Bridge.expired
    split
    · exact .terminate ..
    · exact .refl b
  | response worker peer id outcome =>
    obtain rfl := Option.some.inj h
    unfold Bridge.response
    split
    · exact .refl b
    · exact .of_connections rfl
  | event worker peer id e =>
    obtain rfl := Option.some.inj h
    unfold Bridge.event
    split
    · exact .refl b
    · exact .of_connections rfl
  | request worker command timeout hasHandler sent =>
    obtain rfl := Option.some.inj h
    unfold Bridge.request
    dsimp only
    split
    · exact .refl b
    · split
      · exact ⟨le_rfl, fun _ _ hsome => .inl hsome⟩
      · have hadmit : Grows b { b with nextRequest := b.nextRequest + 1, routed := b.routed + 1 } := ⟨le_rfl, fun _ _ hsome => .inl hsome⟩
        exact hadmit.trans (.of_connections (finish_connections ..))
  | timedOut id =>
    obtain ⟨r, -, h⟩ := bind_eq_some_iff.mp h
    obtain ⟨-, h⟩ := ite_none_right_eq_some.mp h
    exact Option.some.inj h ▸ .of_connections (finish_connections ..)
  | deliver id =>
    obtain ⟨r, -, h⟩ := bind_eq_some_iff.mp h
    split at h
    · exact Option.some.inj h ▸ .of_connections rfl
    · obtain rfl := Option.some.inj h
      split <;> exact .of_connections rfl
    · exact Option.some.inj h ▸ .of_connections (finish_connections ..)
    · exact absurd h (by simp)
  | handled id error =>
    obtain ⟨r, -, h⟩ := bind_eq_some_iff.mp h
    obtain ⟨-, h⟩ := ite_none_right_eq_some.mp h
    obtain rfl := Option.some.inj h
    obtain _ | error := error
    · exact .of_connections rfl
    · exact .of_connections (finish_connections ..)
  | gone peer => exact Option.some.inj h ▸ ⟨le_rfl, fun _ _ hsome => .inl hsome⟩
  | close =>
    obtain rfl := Option.some.inj h
    exact ⟨(foldl_terminate_generation (.unavailableError "Server is shutting down.") b.workers { b with closed := true }).ge,
      fun _ _ hsome => .inl (interruptions_of_foldl (b := { b with closed := true }) hsome)⟩

theorem Grows.run {acts : List (Act ε ρ)} (h : b.run acts = some b') : Grows b b' := by
  induction acts generalizing b with
  | nil => exact Option.some.inj h ▸ .refl b
  | cons act acts ih =>
    obtain ⟨b₁, hstep, hrun⟩ := bind_eq_some_iff.mp h
    exact (Grows.step hstep).trans (ih hrun)

theorem Sound.expired_of_attached (h : Sound b) (hpeer : b.peers worker ≠ none) {generation : Nat} (hold : generation < b.nextGeneration)
    {acts : List (Act ε ρ)} (hrun : b.run acts = some b') : b'.expired worker generation = b' := by
  refine if_neg fun hboth => ?_
  obtain hsome | hnew := (Grows.run hrun).2 worker generation hboth.2
  · exact absurd ((h.silent worker hpeer).symm.trans hsome) (by simp)
  · omega

end Generations

section Peers

theorem unheard {peer : Nat} (h : (b.peers worker).map Peer.id ≠ some peer) :
    (∀ id outcome, b.response worker peer id outcome = b) ∧ (∀ id e, b.event worker peer id e = b) ∧ ∀ grace, b.interrupted worker peer grace = b := by
  have hnone : ∀ id, b.addressed worker peer id = none := fun id => if_neg h
  refine ⟨fun id outcome => ?_, fun id e => ?_, fun grace => if_pos h⟩
  · unfold response
    rw [hnone]
  · unfold event
    rw [hnone]

theorem attach_requests (b : Bridge ε ρ) (worker : String) (peer : Peer) (ready : Bool) :
    (b.attach worker peer ready).requests = b.requests ∧ (b.attach worker peer ready).log = b.log ∨
      (b.attach worker peer ready).requests = (b.fence worker peer).requests ∧ (b.attach worker peer ready).log = (b.fence worker peer).log := by
  unfold attach
  dsimp only
  split
  · exact .inl ⟨rfl, rfl⟩
  · split
    · exact .inr ⟨rfl, rfl⟩
    · split <;> exact .inr ⟨rfl, rfl⟩

theorem attach_same (ready : Bool) (h : (b.continuities worker).join = peer.continuity) :
    (b.attach worker peer ready).requests = b.requests ∧ (b.attach worker peer ready).log = b.log := by
  have hfence : b.fence worker peer = b := if_neg fun hboth => hboth.2 h
  obtain hkept | hfenced := attach_requests b worker peer ready
  · exact hkept
  · rwa [hfence] at hfenced

theorem attach_other (hb : Sound b) (ready : Bool) (hclosed : b.closed = false) (hopen : b.isOpen peer.id = true)
    (h : (b.continuities worker).join ≠ peer.continuity) (hr : b.requests id = some r) (hworker : r.worker = worker) (hactive : r.active = true) :
    (b.attach worker peer ready).isActive id = false ∧
      .reported id .termination (.error (.unavailableError s!"Worker {worker} continuity identity changed.")) ∈ (b.attach worker peer ready).log := by
  have hfence : b.fence worker peer = b.terminate worker (.unavailableError s!"Worker {worker} continuity identity changed.") true :=
    if_pos ⟨hworker ▸ hb.known id r hr hactive, h⟩
  have hattach : (b.attach worker peer ready).requests = (b.fence worker peer).requests ∧
      (b.attach worker peer ready).log = (b.fence worker peer).log := by
    unfold attach
    rw [if_neg (by simp [hclosed, hopen])]
    dsimp only
    split
    · exact ⟨rfl, rfl⟩
    · split <;> exact ⟨rfl, rfl⟩
  rw [hattach.2, hfence]
  unfold isActive
  rw [hattach.1, hfence]
  refine ⟨Bool.eq_false_of_not_eq_true fun htrue => ?_, ?_⟩
  · obtain ⟨r', hr', hactive'⟩ := Option.any_eq_true _ _ |>.mp htrue
    obtain ⟨hr'', hne⟩ := active_of_terminate hb.toCorrelated hr' hactive'
    exact hne (Option.some.inj (hr''.symm.trans hr) ▸ hworker)
  · have hcorr : Correlated (b.unregister worker true) := hb.toCorrelated.frame rfl rfl rfl rfl rfl rfl
    exact reported_of_foldl hcorr hr hactive hworker (List.mem_range.mpr (hb.toCorrelated.lt hr))

def Spared (id : Nat) (b b' : Bridge ε ρ) : Prop :=
  b'.requests id = b.requests id ∧ (b'.log.filter fun entry => entry.id = id) = b.log.filter fun entry => entry.id = id

theorem Spared.trans {b'' : Bridge ε ρ} (h : Spared id b b') (h' : Spared id b' b'') : Spared id b b'' :=
  ⟨h'.1.trans h.1, h'.2.trans h.2⟩

theorem spared_of_finish {j : Nat} (hj : id ≠ j) (cause : Cause) (outcome : Outcome ρ) (b : Bridge ε ρ) (r : Request ε ρ) :
    Spared id b (b.finish j r cause outcome) := by
  refine ⟨finish_of_ne b r cause outcome hj, ?_⟩
  unfold finish
  split
  · simp [write, setRequest, Entry.id, hj.symm]
  · rfl

theorem spared_of_fail (hr : b.requests id = some r) (hne : r.worker ≠ worker) (error : CommandError) (j : Nat) :
    Spared id b (fail error worker b j) := by
  unfold fail
  split
  · exact ⟨rfl, rfl⟩
  · next r' hr' =>
    split
    · next hboth =>
      refine spared_of_finish (fun hj => ?_) _ _ _ _
      rw [← hj, hr] at hr'
      exact hne (some.inj hr' ▸ hboth.2)
    · exact ⟨rfl, rfl⟩

theorem spared_of_foldl (hr : b.requests id = some r) (hne : r.worker ≠ worker) (error : CommandError) (ids : List Nat) :
    Spared id b (ids.foldl (fail error worker) b) := by
  induction ids generalizing b with
  | nil => exact ⟨rfl, rfl⟩
  | cons j ids ih =>
    have hfirst := spared_of_fail hr hne error j
    exact hfirst.trans (ih (hfirst.1.trans hr))

theorem spared_of_terminate (hr : b.requests id = some r) (hne : r.worker ≠ worker) (error : CommandError) (close : Bool) :
    Spared id b (b.terminate worker error close) :=
  spared_of_foldl (b := b.unregister worker close) hr hne error _

theorem spared_of_addressed {j peer : Nat} (hr : b.requests id = some r) (hne : r.worker ≠ worker) {r' : Request ε ρ}
    (hr' : b.addressed worker peer j = some r') : id ≠ j := by
  rintro rfl
  obtain ⟨hsame, -, hworker⟩ := Sound.addressed hr'
  exact hne (some.inj (hr.symm.trans hsame) ▸ hworker)

theorem spared_of_step {act : Act ε ρ} (hr : b.requests id = some r) (hact : act.sender = some worker) (hne : r.worker ≠ worker)
    (hb : b.step act = some b') : Spared id b b' := by
  cases act with
  | attach worker' peer ready =>
    obtain rfl := some.inj hact
    obtain rfl := some.inj hb
    have hfence : Spared id b (b.fence worker' peer) := by
      unfold fence
      split
      · exact spared_of_terminate hr hne _ _
      · exact ⟨rfl, rfl⟩
    obtain ⟨hrequests, hlog⟩ | ⟨hrequests, hlog⟩ := attach_requests b worker' peer ready
    · exact ⟨congrFun hrequests id, congrArg _ hlog⟩
    · exact ⟨(congrFun hrequests id).trans hfence.1, (congrArg _ hlog).trans hfence.2⟩
  | disconnect worker' =>
    obtain rfl := some.inj hact
    obtain rfl := some.inj hb
    exact spared_of_terminate hr hne _ _
  | interrupted worker' peer grace =>
    obtain rfl := some.inj hact
    obtain rfl := some.inj hb
    unfold interrupted
    split
    · exact ⟨rfl, rfl⟩
    · dsimp only
      split
      · exact ⟨rfl, rfl⟩
      · refine Spared.trans ?_ (spared_of_terminate ?_ hne _ _)
        · exact ⟨rfl, rfl⟩
        · exact hr
  | expired worker' generation =>
    obtain rfl := some.inj hact
    obtain rfl := some.inj hb
    unfold expired
    split
    · exact spared_of_terminate hr hne _ _
    · exact ⟨rfl, rfl⟩
  | response worker' peer j outcome =>
    obtain rfl := some.inj hact
    obtain rfl := some.inj hb
    unfold response
    split
    · exact ⟨rfl, rfl⟩
    · next r' hr' => exact ⟨update_of_ne (spared_of_addressed hr hne hr') .., rfl⟩
  | event worker' peer j e =>
    obtain rfl := some.inj hact
    obtain rfl := some.inj hb
    unfold event
    split
    · exact ⟨rfl, rfl⟩
    · next r' hr' =>
      have hj := spared_of_addressed hr hne hr'
      exact ⟨update_of_ne hj .., by simp [write, setRequest, Entry.id, hj.symm]⟩
  | request | timedOut | deliver | handled | gone | close => exact absurd hact (by simp [Act.sender])

end Peers

section Quiet

def Quiet (b : Bridge ε ρ) : Prop := ∀ id r, b.requests id = some r → r.task ≠ .handling ∧ b.deliver id = none

theorem Quiet.task (h : Quiet b) (hr : b.requests id = some r) : r.task = .waiting ∧ r.delivery = [] ∨ r.task = .ended := by
  obtain ⟨htask, hdeliver⟩ := h id r hr
  unfold deliver at hdeliver
  rw [hr, bind_some] at hdeliver
  cases ht : r.task with
  | handling => exact absurd ht htask
  | ended => exact .inr rfl
  | waiting =>
    rw [ht] at hdeliver
    cases hdelivery : r.delivery with
    | nil => exact .inl ⟨rfl, rfl⟩
    | cons first rest =>
      rw [hdelivery] at hdeliver
      cases first <;> simp at hdeliver

theorem Quiet.request (h : Quiet b) (hr : b.requests id = some r) (hkept : Kept id r b.log) :
    r.completion = r.active ∧ (r.hasHandler = true → .failed id ∉ b.log → handedOf id b.log = receivedOf id b.log) := by
  obtain ⟨htask, hdelivery⟩ | htask := h.task hr
  · have hopen : r.task ≠ .ended := by simp [htask]
    have hshape := hkept.shape hopen
    have hhanded := hkept.handed
    rw [hdelivery] at hshape hhanded
    exact ⟨hshape.nil, fun hhandler _ => by simpa [queued] using (hhanded hhandler hopen).symm⟩
  · obtain ⟨hactive, hcompletion⟩ := hkept.ended htask
    exact ⟨hcompletion.trans hactive.symm, fun hhandler hfailed => (hkept.through hhandler htask).resolve_left hfailed⟩

theorem completed (hkept : Kept id r b.log) (hactive : r.active = false) (hqueued : ∀ outcome, .response outcome ∉ r.delivery) :
    r.completion = false := by
  by_cases htask : r.task = .ended
  · exact (hkept.ended htask).2
  · obtain ⟨events, tail, hdelivery, htail⟩ := hkept.shape htask
    cases hcompletion : r.completion with
    | false => rfl
    | true =>
      rw [hactive, hcompletion] at htail
      obtain - | outcome := htail
      exact absurd (hdelivery ▸ List.mem_append_right _ (List.mem_singleton.mpr rfl)) (hqueued outcome)

theorem Quiet.counted (h : Quiet b) (hb : Sound b) : b.routed = b.succeeded + b.failed + #{id ∈ range b.nextRequest | b.isActive id} := by
  rw [hb.counted]
  refine congrArg _ (congrArg card (filter_congr fun id _ => ?_))
  unfold opened isActive
  obtain hnone | ⟨r, hr⟩ := eq_none_or_eq_some (b.requests id)
  · rw [hnone]
    rfl
  · rw [hr, any_some, any_some, (h.request hr (hb.kept id r hr)).1]

end Quiet

section Results

/-- Whatever is sent, whatever fails and whoever connects: the requests are reported once, their events are handed over in
order, a response after all of them; only the attached peer is heard; and what was routed has succeeded, has failed or is
active once no task has anything to do. -/
theorem requests_correlate (acts : List (Act ε ρ)) (b : Bridge ε ρ) (hrun : (start : Bridge ε ρ).run acts = some b) :
    (∀ id, id < b.nextRequest → ∃ r, b.requests id = some r ∧ (reportsOf id b.log).length ≤ 1 ∧
      (r.active = false → (∀ outcome, .response outcome ∉ r.delivery) → (reportsOf id b.log).length = 1) ∧
      (r.active = true → b.known r.worker = true ∧ b.closed = false ∧ reportsOf id b.log = []) ∧
      handedOf id b.log <+: receivedOf id b.log ∧
      (r.hasHandler = false → handedOf id b.log = []) ∧
      Ordered id r.hasHandler b.log ∧
      (b.Quiet → (reportsOf id b.log).length = (if r.active then 0 else 1) ∧
        (r.hasHandler = true → .failed id ∉ b.log → handedOf id b.log = receivedOf id b.log))) ∧
    (∀ worker peer, (b.peers worker).map Peer.id ≠ some peer →
      (∀ id outcome, b.response worker peer id outcome = b) ∧ (∀ id e, b.event worker peer id e = b) ∧
        ∀ grace, b.interrupted worker peer grace = b) ∧
    (∀ act worker id r b', b.requests id = some r → act.sender = some worker → r.worker ≠ worker → b.step act = some b' →
      b'.requests id = some r ∧ (b'.log.filter fun entry => entry.id = id) = b.log.filter fun entry => entry.id = id) ∧
    (∀ worker peer ready, (b.continuities worker).join = peer.continuity →
      (b.attach worker peer ready).requests = b.requests ∧ (b.attach worker peer ready).log = b.log) ∧
    (∀ worker peer ready, b.closed = false → b.isOpen peer.id = true → (b.continuities worker).join ≠ peer.continuity →
      ∀ id r, b.requests id = some r → r.worker = worker → r.active = true → (b.attach worker peer ready).isActive id = false ∧
        .reported id .termination (.error (.unavailableError s!"Worker {worker} continuity identity changed.")) ∈
          (b.attach worker peer ready).log) ∧
    (∀ worker, b.peers worker ≠ none → ∀ generation, generation < b.nextGeneration → ∀ acts' b', b.run acts' = some b' →
      b'.expired worker generation = b') ∧
    (b.Quiet → b.routed = b.succeeded + b.failed + #{id ∈ range b.nextRequest | b.isActive id}) := by
  have hsound : Sound b := Sound.start.run hrun
  refine ⟨fun id hid => ?_, fun worker peer h => unheard h,
    fun act worker id r b' hr hact hne hb => (spared_of_step hr hact hne hb).imp_left fun hsame => hsame.trans hr,
    fun worker peer ready h => attach_same ready h,
    fun worker peer ready hclosed hopen h id r hr hworker hactive => attach_other hsound ready hclosed hopen h hr hworker hactive,
    fun worker hpeer generation hold acts' b' hrun' => hsound.expired_of_attached hpeer hold hrun', fun hquiet => hquiet.counted hsound⟩
  obtain ⟨r, hr⟩ := hsound.present id hid
  have hkept := hsound.kept id r hr
  refine ⟨r, hr, ?_, fun hactive hqueued => ?_, fun hactive => ?_, hkept.given, hkept.none, hkept.ordered, fun hquiet => ?_⟩
  · rw [hkept.reports]
    split <;> simp
  · rw [hkept.reports, completed hkept hactive hqueued]
    rfl
  · have hshape := hkept.shape (hkept.task_of_active hactive)
    rw [hactive] at hshape
    have hknown := hsound.known id r hr hactive
    refine ⟨hknown, Bool.eq_false_of_not_eq_true fun hclosed => ?_, List.length_eq_zero_iff.mp ?_⟩
    · exact absurd (hknown.symm.trans (hsound.shut hclosed r.worker)) Bool.false_ne_true.symm
    · rw [hkept.reports, hshape.queue.1]
      rfl
  · obtain ⟨hcompletion, hhanded⟩ := hquiet.request hr hkept
    refine ⟨?_, hhanded⟩
    rw [hkept.reports, hcompletion]

def interleaved : List (Act Nat Nat) :=
  [.attach "worker" { id := 0, continuity := none } true, .request "worker" "chat.turn" true true true, .event "worker" 0 0 7, .disconnect "worker",
    .deliver 0]

theorem requests_correlate_interleaved : ∃ b, (start : Bridge Nat Nat).run interleaved = some b ∧ (reportsOf 0 b.log).length ≤ 1 := by
  obtain ⟨b, hb⟩ : ∃ b, (start : Bridge Nat Nat).run interleaved = some b := ⟨_, rfl⟩
  obtain ⟨r, -, hreports, -⟩ := (requests_correlate interleaved b hb).1 0 (by obtain rfl := Option.some.inj hb; decide)
  exact ⟨b, hb, hreports⟩

/-- Its failure is reported, and the event is handed over after that. -/
theorem event_after_report : ¬ ∀ (acts : List (Act Nat Nat)) (b : Bridge Nat Nat), start.run acts = some b → ∀ id before after cause outcome,
    b.log = before ++ .reported id cause outcome :: after → handedOf id after = [] := by
  intro h
  have hnone := h interleaved _ rfl 0 [.received 0 7] [.handed 0 7] .termination (.error (offline "worker")) rfl
  exact absurd hnone (by decide)

end Results

end Bridge

end Cantrip.Workers
