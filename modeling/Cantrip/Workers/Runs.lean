import Cantrip.Workers.Settlement

/-!
# Runs of the bridge

Every step keeps what is known about the requests and about the connections (`Sound`), so every run does.
-/

namespace Cantrip.Workers

open List Option Function

variable {ε ρ : Type}

namespace Bridge

variable {b b' : Bridge ε ρ} {id : Nat} {r r' : Request ε ρ} {worker : String}

structure Sound (b : Bridge ε ρ) : Prop extends Correlated b where
  known : ∀ id r, b.requests id = some r → r.active = true → b.known r.worker = true
  listed : ∀ worker, b.known worker = true → worker ∈ b.workers
  shut : b.closed = true → ∀ worker, b.known worker = false
  silent : ∀ worker, b.peers worker ≠ none → b.interruptions worker = none
  old : ∀ worker generation, b.interruptions worker = some generation → generation < b.nextGeneration

theorem known_congr (h : b'.connections = b.connections) (worker : String) : b'.known worker = b.known worker := by
  have hpeers : b'.peers = b.peers := congrArg Connections.peers h
  have hinterruptions : b'.interruptions = b.interruptions := congrArg Connections.interruptions h
  unfold Bridge.known
  rw [hpeers, hinterruptions]

namespace Sound

theorem requests (h : Sound b) (hcorr : Correlated b') (hconn : b'.connections = b.connections)
    (hactive : ∀ id r', b'.requests id = some r' → r'.active = true → ∃ r, b.requests id = some r ∧ r.active = true ∧ r.worker = r'.worker) :
    Sound b' := by
  have hpeers : b'.peers = b.peers := congrArg Connections.peers hconn
  have hinterruptions : b'.interruptions = b.interruptions := congrArg Connections.interruptions hconn
  have hworkers : b'.workers = b.workers := congrArg Connections.workers hconn
  have hclosed : b'.closed = b.closed := congrArg Connections.closed hconn
  have hgeneration : b'.nextGeneration = b.nextGeneration := congrArg Connections.nextGeneration hconn
  refine { hcorr with known := fun id r' hr' ha => ?_, listed := fun worker => ?_, shut := ?_, silent := ?_, old := ?_ }
  · obtain ⟨r, hr, ha, hworker⟩ := hactive id r' hr' ha
    rw [known_congr hconn, ← hworker]
    exact h.known id r hr ha
  · rw [known_congr hconn, hworkers]
    exact h.listed worker
  · rw [hclosed]
    exact fun hshut worker => (known_congr hconn worker).trans (h.shut hshut worker)
  · rw [hpeers, hinterruptions]
    exact h.silent
  · rw [hinterruptions, hgeneration]
    exact h.old

theorem request (h : Sound b) (hr : b.requests id = some r) (hcorr : Correlated b') (hconn : b'.connections = b.connections)
    (hother : ∀ j, j ≠ id → b'.requests j = b.requests j) (hself : ∃ r', b'.requests id = some r' ∧ (r'.active = true → r.active = true) ∧
      r'.worker = r.worker) : Sound b' := by
  refine h.requests hcorr hconn fun j rj hj hactive => ?_
  by_cases hji : j = id
  · subst hji
    obtain ⟨r', hr', hactive', hworker⟩ := hself
    obtain rfl := some.inj (hr'.symm.trans hj)
    exact ⟨r, hr, hactive' hactive, hworker.symm⟩
  · exact ⟨rj, (hother j hji).symm.trans hj, hactive, rfl⟩

theorem finish (h : Sound b) (hr : b.requests id = some r) {cause : Cause} {outcome : Outcome ρ} (hcorr : Correlated (b.finish id r' cause outcome))
    (hactive : r'.active = true → r.active = true) (hworker : r'.worker = r.worker) : Sound (b.finish id r' cause outcome) := by
  obtain ⟨r'', hr'', hactive'', hworker'', -⟩ := finish_active b id r' cause outcome
  exact h.request hr hcorr (finish_connections ..) (fun j hj => finish_of_ne b r' cause outcome hj)
    ⟨r'', hr'', fun ha => hactive (hactive''.symm.trans ha), hworker''.trans hworker⟩

section

variable (h : Sound b)
include h

theorem set (hr : b.requests id = some r) (hcompletion : r'.completion = r.completion) (hkept : Kept id r' b.log)
    (hactive : r'.active = true → r.active = true) (hworker : r'.worker = r.worker) : Sound (b.setRequest id r') :=
  h.request hr (h.toCorrelated.set hr hcompletion hkept) rfl (fun _ hj => update_of_ne hj ..) ⟨r', update_self .., hactive, hworker⟩

theorem set_write (hr : b.requests id = some r) {entry : Entry ε ρ} (hentry : entry.id = id) (hcompletion : r'.completion = r.completion)
    (hkept : Kept id r' (b.log ++ [entry])) (hactive : r'.active = true → r.active = true) (hworker : r'.worker = r.worker) :
    Sound ((b.setRequest id r').write entry) :=
  h.request hr (h.toCorrelated.set_write hr hentry hcompletion hkept) rfl (fun _ hj => update_of_ne hj ..)
    ⟨r', update_self .., hactive, hworker⟩

theorem terminate (worker : String) (error : CommandError) (close : Bool) : Sound (b.terminate worker error close) := by
  obtain ⟨hpeers, hinterruptions, hgeneration, hworkers, hclosed⟩ := terminate_connections b worker error close
  have hknown : ∀ other, (b.terminate worker error close).known other = if other = worker then false else b.known other := fun other => by
    unfold Bridge.known
    rw [hpeers, hinterruptions]
    by_cases hother : other = worker
    · simp [hother]
    · simp [hother]
  refine { h.toCorrelated.terminate worker error close with
    known := fun id r hr hactive => ?_, listed := fun other hother => ?_, shut := fun hshut other => ?_, silent := fun other hother => ?_,
    old := fun other generation hother => ?_ }
  · obtain ⟨hr', hworker⟩ := active_of_terminate h.toCorrelated hr hactive
    rw [hknown, if_neg hworker]
    exact h.known id r hr' hactive
  · rw [hknown] at hother
    split at hother
    · exact absurd hother Bool.false_ne_true
    · exact hworkers ▸ h.listed other hother
  · rw [hknown]
    split
    · rfl
    · exact h.shut (hclosed ▸ hshut) other
  · rw [hpeers] at hother
    rw [hinterruptions]
    by_cases hne : other = worker
    · rw [hne, update_self]
    · rw [update_of_ne hne] at hother ⊢
      exact h.silent other hother
  · rw [hinterruptions] at hother
    by_cases hne : other = worker
    · rw [hne, update_self] at hother
      exact absurd hother (by simp)
    · rw [update_of_ne hne] at hother
      exact hgeneration ▸ h.old other generation hother

theorem fence (worker : String) (peer : Peer) : Sound (b.fence worker peer) := by
  unfold Bridge.fence
  split
  · exact h.terminate ..
  · exact h

theorem register (hclosed : b.closed = false) (worker : String) (peer : Peer) : Sound (b.register worker peer) := by
  have hknown : ∀ other, (b.register worker peer).known other = if other = worker then true else b.known other := fun other => by
    unfold Bridge.known Bridge.register
    by_cases hother : other = worker
    · simp [hother]
    · simp [hother]
  refine { h.toCorrelated.frame rfl rfl rfl rfl rfl rfl with
    known := fun id r hr hactive => ?_, listed := fun other hother => ?_, shut := fun hshut => ?_, silent := fun other hother => ?_,
    old := fun other generation hother => ?_ }
  · rw [hknown]
    split
    · rfl
    · exact h.known id r hr hactive
  · rw [hknown] at hother
    split at hother
    · rename_i heq
      exact heq ▸ mem_cons_self
    · exact mem_cons_of_mem _ (h.listed other hother)
  · exact absurd (hclosed.symm.trans hshut) Bool.false_ne_true
  · show Function.update b.interruptions worker none other = none
    by_cases hne : other = worker
    · rw [hne, update_self]
    · have hother' : Function.update b.peers worker (some peer) other ≠ none := hother
      rw [update_of_ne hne] at hother' ⊢
      exact h.silent other hother'
  · have hother' : Function.update b.interruptions worker none other = some generation := hother
    by_cases hne : other = worker
    · rw [hne, update_self] at hother'
      exact absurd hother' (by simp)
    · rw [update_of_ne hne] at hother'
      exact h.old other generation hother'

theorem attach (worker : String) (peer : Peer) (ready : Bool) : Sound (b.attach worker peer ready) := by
  unfold Bridge.attach
  split
  · exact h
  · rename_i hopen
    have hclosed : b.closed = false := by
      simp only [Bool.or_eq_true, not_or, Bool.not_eq_true] at hopen
      exact hopen.1
    have hclosed' : (b.fence worker peer).closed = false := by
      unfold Bridge.fence
      split
      · exact (terminate_connections ..).2.2.2.2.trans hclosed
      · exact hclosed
    dsimp only
    split
    · exact h.fence worker peer
    · split
      · exact h.fence worker peer
      · exact (h.fence worker peer).register hclosed' worker peer

theorem interrupt (worker : String) (timer : Option Nat) (hknown : b.known worker = true) : Sound { b with
      peers := Function.update b.peers worker none
      interruptions := Function.update b.interruptions worker (some b.nextGeneration)
      timers := Function.update b.timers worker timer
      nextGeneration := b.nextGeneration + 1 } := by
  have hsame : ∀ other, ((Function.update b.peers worker none other).isSome ||
      (Function.update b.interruptions worker (some b.nextGeneration) other).isSome) = b.known other := fun other => by
    by_cases hother : other = worker
    · simp [hother, hknown]
    · simp [hother, Bridge.known]
  refine { h.toCorrelated.frame rfl rfl rfl rfl rfl rfl with
    known := fun id r hr hactive => (hsame r.worker).trans (h.known id r hr hactive)
    listed := fun other hother => h.listed other ((hsame other).symm.trans hother)
    shut := fun hshut other => (hsame other).trans (h.shut hshut other)
    silent := fun other hother => ?_, old := fun other generation hother => ?_ }
  · have hother' : Function.update b.peers worker none other ≠ none := hother
    show Function.update b.interruptions worker (some b.nextGeneration) other = none
    by_cases hne : other = worker
    · exact absurd (hne ▸ update_self ..) hother'
    · rw [update_of_ne hne] at hother' ⊢
      exact h.silent other hother'
  · have hother' : Function.update b.interruptions worker (some b.nextGeneration) other = some generation := hother
    show generation < b.nextGeneration + 1
    by_cases hne : other = worker
    · rw [hne, update_self] at hother'
      exact some.inj hother' ▸ Nat.lt_succ_self _
    · rw [update_of_ne hne] at hother'
      exact Nat.lt_succ_of_lt (h.old other generation hother')

theorem interrupted (worker : String) (peer : Nat) (grace : Bool) : Sound (b.interrupted worker peer grace) := by
  unfold Bridge.interrupted
  split
  · exact h
  · rename_i hpeer
    have hknown : b.known worker = true := by
      obtain ⟨p, hp, -⟩ := map_eq_some_iff.mp (not_not.mp hpeer)
      simp [Bridge.known, hp]
    dsimp only
    split
    · exact h.interrupt worker _ hknown
    · exact (h.interrupt worker _ hknown).terminate ..

theorem expired (worker : String) (generation : Nat) : Sound (b.expired worker generation) := by
  unfold Bridge.expired
  split
  · exact h.terminate ..
  · exact h

end

theorem addressed {peer : Nat} (hr : b.addressed worker peer id = some r) : b.requests id = some r ∧ r.active = true ∧ r.worker = worker := by
  obtain ⟨-, hr⟩ := ite_none_right_eq_some.mp hr
  obtain ⟨hr, hactive⟩ := filter_eq_some_iff.mp hr
  simp only [Bool.and_eq_true, beq_iff_eq] at hactive
  exact ⟨hr, hactive⟩

theorem response (h : Sound b) (worker : String) (peer id : Nat) (outcome : Outcome ρ) : Sound (b.response worker peer id outcome) := by
  unfold Bridge.response
  obtain hnone | ⟨r, hr⟩ := eq_none_or_eq_some (b.addressed worker peer id)
  · rw [hnone]
    exact h
  · rw [hr]
    obtain ⟨hr, hactive, -⟩ := addressed hr
    exact h.set hr rfl ((h.kept id r hr).response hactive outcome) (fun hfalse => absurd hfalse Bool.false_ne_true) rfl

theorem event (h : Sound b) (worker : String) (peer id : Nat) (e : ε) : Sound (b.event worker peer id e) := by
  unfold Bridge.event
  obtain hnone | ⟨r, hr⟩ := eq_none_or_eq_some (b.addressed worker peer id)
  · rw [hnone]
    exact h
  · rw [hr]
    obtain ⟨hr, hactive, -⟩ := addressed hr
    exact h.set_write hr rfl rfl ((h.kept id r hr).event hactive e) (fun _ => hactive) rfl

theorem timedOut (h : Sound b) (hb : b.timedOut id = some b') : Sound b' := by
  obtain ⟨r, hr, hb⟩ := bind_eq_some_iff.mp hb
  obtain ⟨⟨-, hactive⟩, hb⟩ := ite_none_right_eq_some.mp hb
  obtain rfl := some.inj hb
  exact h.finish hr (h.toCorrelated.finish_active hr hactive r.timer (by simp)) (fun _ => hactive) rfl

theorem handled {error : Option CommandError} (h : Sound b) (hb : b.handled id error = some b') : Sound b' := by
  obtain ⟨r, hr, hb⟩ := bind_eq_some_iff.mp hb
  obtain ⟨htask, hb⟩ := ite_none_right_eq_some.mp hb
  obtain rfl := some.inj hb
  have hkept := h.kept id r hr
  obtain _ | error := error
  · exact h.set hr rfl (hkept.wait htask) (fun ha => ha) rfl
  · have hkept' : Kept id r (b.log ++ [.failed id]) := hkept.frame (of_failed id)
    have hfailed : .failed id ∈ b.log ++ [(.failed id : Entry ε ρ)] := mem_append_right _ (mem_singleton.mpr rfl)
    have hwrite : Sound (b.write (.failed id)) :=
      h.request hr
        (h.toCorrelated.change hr (update_eq_self_iff.mpr hr.symm).symm rfl rfl (by simp [Entry.id]) hkept' rfl) rfl (fun _ _ => rfl)
        ⟨r, hr, fun ha => ha, rfl⟩
    refine hwrite.finish hr (hwrite.toCorrelated.finish hr rfl (fun hcompletion => ?_) fun hclosed => hkept'.stop hclosed hfailed)
      (fun hfalse => absurd hfalse Bool.false_ne_true) rfl
    exact hkept'.fail hcompletion .handler (by simp) (.error error) .ended (.inl ⟨rfl, hfailed⟩)

theorem deliver (h : Sound b) (hb : b.deliver id = some b') : Sound b' := by
  obtain ⟨r, hr, hb⟩ := bind_eq_some_iff.mp hb
  have hkept := h.kept id r hr
  split at hb
  · rename_i rest htask hdelivery
    obtain rfl := some.inj hb
    have hshape := hkept.shape (by simp [htask])
    rw [hdelivery] at hshape
    exact h.set hr rfl (hkept.finished htask hdelivery) (fun ha => ha) rfl
  · rename_i e rest htask hdelivery
    obtain rfl := some.inj hb
    split
    · rename_i hhandler
      exact h.set_write hr rfl rfl (hkept.give htask hdelivery hhandler) (fun ha => ha) rfl
    · rename_i hhandler
      exact h.set hr rfl (hkept.drop htask hdelivery (Bool.eq_false_of_not_eq_true hhandler)) (fun ha => ha) rfl
  · rename_i outcome rest htask hdelivery
    obtain rfl := some.inj hb
    obtain ⟨hcompletion, hreport⟩ := hkept.report htask hdelivery
    exact h.finish hr (h.toCorrelated.finish hr rfl (fun _ => hreport) fun hclosed => absurd (hclosed.symm.trans hcompletion) Bool.false_ne_true)
      (fun ha => ha) rfl
  · exact absurd hb (by simp)

theorem add (h : Sound b) (r : Request ε ρ) (hknown : b.known r.worker = true) (hactive : r.active = true) (hcompletion : r.completion = true)
    (hdelivery : r.delivery = []) (htask : r.task = .waiting) :
    Sound ({ b with nextRequest := b.nextRequest + 1, routed := b.routed + 1 }.setRequest b.nextRequest r) := by
  have hlog : ∀ entry ∈ b.log, entry.id ≠ b.nextRequest := fun entry hentry => Nat.ne_of_lt (h.logged entry hentry)
  refine { kept := fun j rj hj => ?_, fresh := fun j hj => ?_, present := fun j hj => ?_, logged := fun entry hentry => ?_, counted := ?_,
           known := fun j rj hj ha => ?_, listed := h.listed, shut := h.shut, silent := h.silent, old := h.old }
  · have hj' : Function.update b.requests b.nextRequest (some r) j = some rj := hj
    by_cases hji : j = b.nextRequest
    · rw [hji, update_self] at hj'
      rw [← some.inj hj', hji]
      exact (Kept.start r hlog hactive hcompletion hdelivery htask : Kept b.nextRequest r b.log)
    · rw [update_of_ne hji] at hj'
      exact h.kept j rj hj'
  · have hj' : b.nextRequest + 1 ≤ j := hj
    exact (update_of_ne (by omega) ..).trans (h.fresh j (by omega))
  · have hj' : j < b.nextRequest + 1 := hj
    show ∃ rj, Function.update b.requests b.nextRequest (some r) j = some rj
    by_cases hji : j = b.nextRequest
    · exact ⟨r, hji ▸ update_self ..⟩
    · rw [update_of_ne hji]
      exact h.present j (by omega)
  · exact Nat.lt_succ_of_lt (h.logged entry hentry)
  · show b.routed + 1 = b.succeeded + b.failed + (Finset.filter (fun j => opened _ j) (Finset.range (b.nextRequest + 1))).card
    have hsame : ∀ j ∈ Finset.range b.nextRequest, (opened ({ b with nextRequest := b.nextRequest + 1, routed := b.routed + 1 }.setRequest b.nextRequest r)
        j : Prop) ↔ b.opened j := fun j hj => by
      show Option.any Request.completion (Function.update b.requests b.nextRequest (some r) j) = true ↔ _
      rw [update_of_ne (Nat.ne_of_lt (Finset.mem_range.mp hj))]
      rfl
    rw [Finset.range_add_one, Finset.filter_insert, if_pos (by simp [opened, setRequest, hcompletion]), Finset.card_insert_of_notMem (by simp),
      Finset.filter_congr hsame]
    have hcounted := h.counted
    omega
  · have hj' : Function.update b.requests b.nextRequest (some r) j = some rj := hj
    by_cases hji : j = b.nextRequest
    · rw [hji, update_self] at hj'
      exact some.inj hj' ▸ hknown
    · rw [update_of_ne hji] at hj'
      exact h.known j rj hj' ha

theorem finish_set (b : Bridge ε ρ) (id : Nat) (r r' : Request ε ρ) (cause : Cause) (outcome : Outcome ρ) :
    (b.setRequest id r).finish id r' cause outcome = b.finish id r' cause outcome := by
  unfold Bridge.finish setRequest
  split
  · simp only [update_idem]
  · simp only [update_idem]

theorem makeRequest (h : Sound b) (worker command : String) (timeout hasHandler sent : Bool) :
    Sound (b.request worker command timeout hasHandler sent) := by
  unfold Bridge.request
  split
  · exact h
  · rename_i hconnected
    have hknown : b.known worker = true := by
      have hpeer : (b.peers worker).isSome = true := by
        obtain hnone | ⟨p, hp⟩ := eq_none_or_eq_some (b.peers worker)
        · simp [isConnected, hnone] at hconnected
        · rw [hp]
          rfl
      simp [Bridge.known, hpeer]
    have hadd := h.add { worker, command, hasHandler, active := true, delivery := [], completion := true, timer := timeout, task := .waiting } hknown
      rfl rfl rfl rfl
    dsimp only
    split
    · exact hadd
    · rw [← finish_set]
      exact hadd.finish (update_self ..) (hadd.toCorrelated.finish_active (update_self ..) rfl timeout (by simp)) (fun _ => rfl) rfl

theorem foldl_terminate (h : Sound b) (error : CommandError) (workers : List String) :
    Sound (workers.foldl (fun b worker => b.terminate worker error true) b) := by
  induction workers generalizing b with
  | nil => exact h
  | cons worker workers ih => exact ih (h.terminate worker error true)

end Sound

theorem known_of_foldl (error : CommandError) (workers : List String) {b : Bridge ε ρ} {worker : String}
    (h : (workers.foldl (fun b worker => b.terminate worker error true) b).known worker = true) : worker ∉ workers ∧ b.known worker = true := by
  induction workers generalizing b with
  | nil => exact ⟨not_mem_nil, h⟩
  | cons first workers ih =>
    obtain ⟨hmem, hknown⟩ := ih h
    obtain ⟨hpeers, hinterruptions, -⟩ := terminate_connections b first error true
    unfold Bridge.known at hknown
    rw [hpeers, hinterruptions] at hknown
    by_cases hne : worker = first
    · simp [hne] at hknown
    · rw [update_of_ne hne, update_of_ne hne] at hknown
      exact ⟨fun hmem' => (mem_cons.mp hmem').elim hne hmem, hknown⟩

theorem fail_close (error : CommandError) (worker : String) (b : Bridge ε ρ) (id : Nat) :
    fail error worker { b with closed := true } id = { fail error worker b id with closed := true } := by
  unfold fail
  dsimp only
  split
  · rfl
  · split
    · unfold finish
      split <;> rfl
    · rfl

theorem foldl_fail_close (error : CommandError) (worker : String) (ids : List Nat) (b : Bridge ε ρ) :
    ids.foldl (fail error worker) { b with closed := true } = { ids.foldl (fail error worker) b with closed := true } := by
  induction ids generalizing b with
  | nil => rfl
  | cons id ids ih => exact (congrArg (ids.foldl (fail error worker)) (fail_close error worker b id)).trans (ih _)

theorem foldl_terminate_close (error : CommandError) (workers : List String) (b : Bridge ε ρ) :
    workers.foldl (fun b worker => b.terminate worker error true) { b with closed := true } =
      { workers.foldl (fun b worker => b.terminate worker error true) b with closed := true } := by
  induction workers generalizing b with
  | nil => rfl
  | cons worker workers ih =>
    have hterminate : terminate { b with closed := true } worker error true = { b.terminate worker error true with closed := true } :=
      foldl_fail_close error worker (range b.nextRequest) (b.unregister worker true)
    exact (congrArg (workers.foldl fun b worker => b.terminate worker error true) hterminate).trans (ih _)

theorem Sound.close (h : Sound b) : Sound b.close := by
  have hsound := h.foldl_terminate (.unavailableError "Server is shutting down.") b.workers
  have heq : b.close = _ := foldl_terminate_close (.unavailableError "Server is shutting down.") b.workers b
  rw [heq]
  refine { hsound.toCorrelated.frame rfl rfl rfl rfl rfl rfl with
    known := hsound.known, listed := hsound.listed, shut := fun _ worker => Bool.eq_false_of_not_eq_true fun hknown => ?_, silent := hsound.silent,
    old := hsound.old }
  obtain ⟨hmem, hknown⟩ := known_of_foldl (.unavailableError "Server is shutting down.") b.workers hknown
  exact hmem (h.listed worker hknown)

theorem Sound.start : Sound (start : Bridge ε ρ) where
  kept _ _ hr := absurd hr (by simp [Bridge.start])
  fresh _ _ := rfl
  present id hid := absurd hid (Nat.not_lt_zero id)
  logged := forall_mem_nil _
  counted := rfl
  known _ _ hr := absurd hr (by simp [Bridge.start])
  listed _ hknown := absurd hknown Bool.false_ne_true
  shut _ _ := rfl
  silent _ h := absurd rfl h
  old _ _ h := absurd h (by simp [Bridge.start])

theorem Sound.step {act : Act ε ρ} (h : Sound b) (hb : b.step act = some b') : Sound b' := by
  cases act with
  | attach worker peer ready => exact some.inj hb ▸ h.attach worker peer ready
  | disconnect worker => exact some.inj hb ▸ h.terminate worker _ true
  | interrupted worker peer grace => exact some.inj hb ▸ h.interrupted worker peer grace
  | expired worker generation => exact some.inj hb ▸ h.expired worker generation
  | response worker peer id outcome => exact some.inj hb ▸ h.response worker peer id outcome
  | event worker peer id e => exact some.inj hb ▸ h.event worker peer id e
  | request worker command timeout hasHandler sent => exact some.inj hb ▸ h.makeRequest worker command timeout hasHandler sent
  | timedOut id => exact h.timedOut hb
  | deliver id => exact h.deliver hb
  | handled id error => exact h.handled hb
  | gone peer =>
    obtain rfl := some.inj hb
    exact { h.toCorrelated.frame rfl rfl rfl rfl rfl rfl with
      known := h.known, listed := h.listed, shut := h.shut, silent := h.silent, old := h.old }
  | close => exact some.inj hb ▸ h.close

theorem Sound.run {acts : List (Act ε ρ)} (h : Sound b) (hb : b.run acts = some b') : Sound b' := by
  induction acts generalizing b with
  | nil => exact some.inj hb ▸ h
  | cons act acts ih =>
    obtain ⟨b₁, hstep, hrun⟩ := bind_eq_some_iff.mp hb
    exact ih (h.step hstep) hrun

end Bridge

end Cantrip.Workers
