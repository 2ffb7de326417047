import Cantrip.Workers.Requests
import Mathlib.Data.Finset.Card

/-!
# What the bridge keeps

Every request that was routed is one that succeeded, one that failed or one that is open; and only a worker that has a
connection, or had one that was interrupted, has active requests.
-/

namespace Cantrip.Workers

variable {ε ρ : Type}

open Finset

structure Connections where
  closed : Bool
  peers : String → Option Peer
  continuities : String → Option (Option Continuity)
  interruptions : String → Option Nat
  timers : String → Option Nat
  workers : List String
  isOpen : Nat → Bool
  nextRequest : Nat
  nextGeneration : Nat
  routed : Nat

namespace Bridge

variable {b b' : Bridge ε ρ} {id : Nat} {r r' : Request ε ρ} {more : List (Entry ε ρ)} {worker : String} {error : CommandError}

def connections (b : Bridge ε ρ) : Connections :=
  { closed := b.closed, peers := b.peers, continuities := b.continuities, interruptions := b.interruptions, timers := b.timers, workers := b.workers,
    isOpen := b.isOpen, nextRequest := b.nextRequest, nextGeneration := b.nextGeneration, routed := b.routed }

/-- A request whose outcome is still to be reported. -/
def opened (b : Bridge ε ρ) (id : Nat) : Bool := (b.requests id).any Request.completion

def isActive (b : Bridge ε ρ) (id : Nat) : Bool := (b.requests id).any Request.active

structure Correlated (b : Bridge ε ρ) : Prop where
  kept : ∀ id r, b.requests id = some r → Kept id r b.log
  fresh : ∀ id, b.nextRequest ≤ id → b.requests id = none
  present : ∀ id, id < b.nextRequest → ∃ r, b.requests id = some r
  logged : ∀ entry ∈ b.log, entry.id < b.nextRequest
  counted : b.routed = b.succeeded + b.failed + #{id ∈ range b.nextRequest | b.opened id}

namespace Correlated

theorem lt (h : Correlated b) (hr : b.requests id = some r) : id < b.nextRequest := by
  by_contra hge
  exact absurd (hr.symm.trans (h.fresh id (Nat.not_lt.mp hge))) (Option.some_ne_none r)

theorem frame (h : Correlated b) (hrequests : b'.requests = b.requests) (hlog : b'.log = b.log) (hnext : b'.nextRequest = b.nextRequest)
    (hrouted : b'.routed = b.routed) (hsucceeded : b'.succeeded = b.succeeded) (hfailed : b'.failed = b.failed) : Correlated b' := by
  refine ⟨?_, ?_, ?_, ?_, ?_⟩
  · rw [hrequests, hlog]
    exact h.kept
  · rw [hrequests, hnext]
    exact h.fresh
  · rw [hrequests, hnext]
    exact h.present
  · rw [hlog, hnext]
    exact h.logged
  · unfold opened
    rw [hrequests, hnext, hrouted, hsucceeded, hfailed]
    exact h.counted

theorem change (h : Correlated b) (hr : b.requests id = some r) (hrequests : b'.requests = Function.update b.requests id (some r'))
    (hlog : b'.log = b.log ++ more) (hconn : b'.connections = b.connections) (hmore : ∀ entry ∈ more, entry.id = id)
    (hkept : Kept id r' (b.log ++ more))
    (hcount : b'.succeeded + b'.failed + r'.completion.toNat = b.succeeded + b.failed + r.completion.toNat) : Correlated b' := by
  have hnext : b'.nextRequest = b.nextRequest := congrArg Connections.nextRequest hconn
  have hrouted : b'.routed = b.routed := congrArg Connections.routed hconn
  have hid := h.lt hr
  refine ⟨fun j rj hj => ?_, fun j hj => ?_, fun j hj => ?_, fun entry hentry => ?_, ?_⟩
  · rw [hlog]
    rw [hrequests] at hj
    by_cases hji : j = id
    · subst hji
      rw [Function.update_self] at hj
      exact Option.some.inj hj ▸ hkept
    · rw [Function.update_of_ne hji] at hj
      exact (h.kept j rj hj).frame (of_others fun entry hentry heq => hji (heq.symm.trans (hmore entry hentry)))
  · rw [hrequests, Function.update_of_ne (by omega)]
    exact h.fresh j (by omega)
  · rw [hrequests]
    by_cases hji : j = id
    · exact ⟨r', hji ▸ Function.update_self ..⟩
    · rw [Function.update_of_ne hji]
      exact h.present j (by omega)
  · rw [hlog] at hentry
    obtain hentry | hentry := List.mem_append.mp hentry
    · exact hnext ▸ h.logged entry hentry
    · rw [hmore entry hentry]
      omega
  · -- away from `id` the same requests are open
    have hsplit : ∀ c : Bridge ε ρ, c.nextRequest = b.nextRequest → #{j ∈ range c.nextRequest | c.opened j} =
        #{j ∈ (range b.nextRequest).erase id | c.opened j} + (c.opened id).toNat := fun c hc => by
      rw [hc, ← insert_erase (mem_range.mpr hid), filter_insert]
      rw [erase_insert (notMem_erase id _)]
      by_cases hopened : c.opened id = true
      · rw [if_pos hopened, card_insert_of_notMem (by simp), hopened]
        rfl
      · rw [if_neg hopened, Bool.eq_false_of_not_eq_true hopened]
        rfl
    have hsame : #{j ∈ (range b.nextRequest).erase id | b'.opened j} = #{j ∈ (range b.nextRequest).erase id | b.opened j} := by
      refine congrArg card (filter_congr fun j hj => ?_)
      unfold opened
      rw [hrequests, Function.update_of_ne (ne_of_mem_erase hj)]
    have hopened : b.opened id = r.completion := by simp [opened, hr]
    have hopened' : b'.opened id = r'.completion := by simp [opened, hrequests]
    have hcounted := h.counted
    rw [hsplit b rfl, hopened] at hcounted
    rw [hsplit b' hnext, hrouted, hsame, hopened']
    omega

end Correlated

section Finish

variable {cause : Cause} {outcome : Outcome ρ}

theorem finish_of_open (b : Bridge ε ρ) (id : Nat) (cause : Cause) (outcome : Outcome ρ) (h : r.completion = true) :
    (b.finish id r cause outcome).requests =
      Function.update b.requests id (some { r with completion := false, timer := false, delivery := r.delivery ++ [.finished] }) ∧
    (b.finish id r cause outcome).log = b.log ++ [.reported id cause outcome] ∧ (b.finish id r cause outcome).connections = b.connections ∧
    (b.finish id r cause outcome).succeeded + (b.finish id r cause outcome).failed = b.succeeded + b.failed + 1 := by
  unfold finish
  rw [if_pos h]
  refine ⟨rfl, rfl, rfl, ?_⟩
  show (if outcome.isOk then b.succeeded + 1 else b.succeeded) + (if outcome.isOk then b.failed else b.failed + 1) = _
  split <;> omega

theorem finish_of_closed (b : Bridge ε ρ) (id : Nat) (cause : Cause) (outcome : Outcome ρ) (h : r.completion = false) :
    b.finish id r cause outcome = b.setRequest id r := if_neg (by simp [h])

theorem mem_log_of_finish (b : Bridge ε ρ) (id : Nat) (cause : Cause) (outcome : Outcome ρ) (h : r.completion = true) :
    .reported id cause outcome ∈ (b.finish id r cause outcome).log := by
  rw [(finish_of_open b id cause outcome h).2.1]
  exact List.mem_append_right _ (List.mem_singleton.mpr rfl)

theorem finish_connections (b : Bridge ε ρ) (id : Nat) (r : Request ε ρ) (cause : Cause) (outcome : Outcome ρ) :
    (b.finish id r cause outcome).connections = b.connections := by
  unfold finish
  split <;> rfl

theorem finish_of_ne (b : Bridge ε ρ) (r : Request ε ρ) (cause : Cause) (outcome : Outcome ρ) {j : Nat} (h : j ≠ id) :
    (b.finish id r cause outcome).requests j = b.requests j := by
  unfold finish
  split <;> exact Function.update_of_ne h ..

theorem finish_active (b : Bridge ε ρ) (id : Nat) (r : Request ε ρ) (cause : Cause) (outcome : Outcome ρ) :
    ∃ r', (b.finish id r cause outcome).requests id = some r' ∧ r'.active = r.active ∧ r'.worker = r.worker ∧ r'.hasHandler = r.hasHandler := by
  unfold finish
  split
  · exact ⟨_, Function.update_self .., rfl, rfl, rfl⟩
  · exact ⟨_, Function.update_self .., rfl, rfl, rfl⟩

namespace Correlated

theorem finish (h : Correlated b) (hr : b.requests id = some r) (hcompletion : r'.completion = r.completion)
    (hopen : r.completion = true → Kept id { r' with completion := false, timer := false, delivery := r'.delivery ++ [.finished] }
      (b.log ++ [.reported id cause outcome]))
    (hclosed : r.completion = false → Kept id r' b.log) : Correlated (b.finish id r' cause outcome) := by
  cases hc : r.completion with
  | true =>
    obtain ⟨hrequests, hlog, hconn, hcount⟩ := finish_of_open b id cause outcome (hcompletion.trans hc)
    refine h.change hr hrequests hlog hconn (by simp [Entry.id]) (hopen hc) ?_
    rw [hcount, hc]
    rfl
  | false =>
    rw [finish_of_closed b id cause outcome (hcompletion.trans hc)]
    exact h.change hr rfl (List.append_nil _).symm rfl (List.forall_mem_nil _) (by simpa using hclosed hc) (by rw [hcompletion]; rfl)

theorem set (h : Correlated b) (hr : b.requests id = some r) (hcompletion : r'.completion = r.completion) (hkept : Kept id r' b.log) :
    Correlated (b.setRequest id r') :=
  h.change hr rfl (List.append_nil _).symm rfl (List.forall_mem_nil _) (by simpa using hkept) (by rw [hcompletion]; rfl)

theorem set_write (h : Correlated b) (hr : b.requests id = some r) {entry : Entry ε ρ} (hentry : entry.id = id)
    (hcompletion : r'.completion = r.completion) (hkept : Kept id r' (b.log ++ [entry])) : Correlated ((b.setRequest id r').write entry) :=
  h.change hr rfl rfl rfl (by simpa using hentry) hkept (by rw [hcompletion]; rfl)

theorem finish_active (h : Correlated b) (hr : b.requests id = some r) (hactive : r.active = true) (timer : Bool) (hcause : cause ≠ .response) :
    Correlated (b.finish id { r with active := false, timer } cause outcome) := by
  have hkept := h.kept id r hr
  have hcompletion : r.completion = true := by
    have hshape := hkept.shape (hkept.task_of_active hactive)
    rw [hactive] at hshape
    exact hshape.queue.1
  exact h.finish hr rfl (fun _ => hkept.fail hcompletion cause hcause outcome r.task (.inr ⟨rfl, hactive⟩))
    fun hclosed => absurd (hclosed.symm.trans hcompletion) Bool.false_ne_true

theorem fail (h : Correlated b) (error : CommandError) (worker : String) (id : Nat) : Correlated (Bridge.fail error worker b id) := by
  unfold Bridge.fail
  split
  · exact h
  · rename_i r hr
    split
    · rename_i hactive
      exact h.finish_active hr hactive.1 false (by simp)
    · exact h

theorem foldl_fail (error : CommandError) (worker : String) (ids : List Nat) {b : Bridge ε ρ} (h : Correlated b) :
    Correlated (ids.foldl (Bridge.fail error worker) b) := by
  induction ids generalizing b with
  | nil => exact h
  | cons id ids ih => exact ih (h.fail error worker id)

theorem terminate (h : Correlated b) (worker : String) (error : CommandError) (close : Bool) : Correlated (b.terminate worker error close) :=
  .foldl_fail error worker _ (h.frame rfl rfl rfl rfl rfl rfl)

end Correlated

end Finish

section Terminate

theorem fail_connections (error : CommandError) (worker : String) (b : Bridge ε ρ) (id : Nat) : (fail error worker b id).connections = b.connections := by
  unfold fail
  split
  · rfl
  · split
    · exact finish_connections ..
    · rfl

theorem foldl_fail_connections (error : CommandError) (worker : String) (ids : List Nat) (b : Bridge ε ρ) :
    (ids.foldl (fail error worker) b).connections = b.connections := by
  induction ids generalizing b with
  | nil => rfl
  | cons id ids ih => exact (ih _).trans (fail_connections error worker b id)

theorem active_of_fail {id j : Nat} (hr : (fail error worker b id).requests j = some r) (hactive : r.active = true) :
    b.requests j = some r ∧ (j = id → r.worker ≠ worker) := by
  unfold fail at hr
  split at hr
  · rename_i hnone
    exact ⟨hr, fun hj => absurd (hj ▸ hr) (by simp [hnone])⟩
  · rename_i r0 hr0
    split at hr
    · by_cases hj : j = id
      · obtain ⟨r', hr', hactive', -⟩ := finish_active b id { r0 with active := false, timer := false } .termination (.error error)
        rw [hj, hr'] at hr
        exact absurd (hactive'.symm.trans (Option.some.inj hr ▸ hactive)) Bool.false_ne_true
      · rw [finish_of_ne b _ _ _ hj] at hr
        exact ⟨hr, fun hj' => absurd hj' hj⟩
    · rename_i hother
      refine ⟨hr, fun hj hworker => hother ?_⟩
      rw [← hj, hr] at hr0
      obtain rfl := Option.some.inj hr0
      exact ⟨hactive, hworker⟩

theorem active_of_foldl {ids : List Nat} {j : Nat} (hr : (ids.foldl (fail error worker) b).requests j = some r) (hactive : r.active = true) :
    b.requests j = some r ∧ (j ∈ ids → r.worker ≠ worker) := by
  induction ids generalizing b with
  | nil => exact ⟨hr, fun hmem => absurd hmem List.not_mem_nil⟩
  | cons id ids ih =>
    obtain ⟨hr', hids⟩ := ih hr
    obtain ⟨hr'', hid⟩ := active_of_fail hr' hactive
    exact ⟨hr'', fun hmem => (List.mem_cons.mp hmem).elim hid hids⟩

theorem terminate_connections (b : Bridge ε ρ) (worker : String) (error : CommandError) (close : Bool) :
    (b.terminate worker error close).peers = Function.update b.peers worker none ∧
    (b.terminate worker error close).interruptions = Function.update b.interruptions worker none ∧
    (b.terminate worker error close).nextGeneration = b.nextGeneration ∧ (b.terminate worker error close).workers = b.workers ∧
    (b.terminate worker error close).closed = b.closed := by
  have hconn : (b.terminate worker error close).connections = (b.unregister worker close).connections :=
    foldl_fail_connections error worker (List.range b.nextRequest) _
  exact ⟨congrArg Connections.peers hconn, congrArg Connections.interruptions hconn, congrArg Connections.nextGeneration hconn,
    congrArg Connections.workers hconn, congrArg Connections.closed hconn⟩

theorem active_of_terminate (h : Correlated b) {close : Bool} (hr : (b.terminate worker error close).requests id = some r) (hactive : r.active = true) :
    b.requests id = some r ∧ r.worker ≠ worker := by
  obtain ⟨hr', hids⟩ := active_of_foldl hr hactive
  exact ⟨hr', hids (List.mem_range.mpr (h.lt hr'))⟩

theorem finish_log (b : Bridge ε ρ) (id : Nat) (r : Request ε ρ) (cause : Cause) (outcome : Outcome ρ) :
    b.log <+: (b.finish id r cause outcome).log := by
  unfold finish
  split
  · exact List.prefix_append _ _
  · exact List.prefix_refl _

theorem fail_log (error : CommandError) (worker : String) (b : Bridge ε ρ) (id : Nat) : b.log <+: (fail error worker b id).log := by
  unfold fail
  split
  · exact List.prefix_refl _
  · split
    · exact finish_log ..
    · exact List.prefix_refl _

theorem foldl_fail_log (error : CommandError) (worker : String) (ids : List Nat) (b : Bridge ε ρ) :
    b.log <+: (ids.foldl (fail error worker) b).log := by
  induction ids generalizing b with
  | nil => exact List.prefix_refl _
  | cons id ids ih => exact (fail_log error worker b id).trans (ih _)

theorem reported_of_foldl {ids : List Nat} {j : Nat} (h : Correlated b) (hr : b.requests j = some r) (hactive : r.active = true)
    (hworker : r.worker = worker) (hmem : j ∈ ids) : .reported j .termination (.error error) ∈ (ids.foldl (fail error worker) b).log := by
  induction ids generalizing b with
  | nil => exact absurd hmem List.not_mem_nil
  | cons id ids ih =>
    by_cases hj : j = id
    · subst hj
      have hcompletion : r.completion = true := by
        have hshape := (h.kept j r hr).shape ((h.kept j r hr).task_of_active hactive)
        rw [hactive] at hshape
        exact hshape.queue.1
      refine (foldl_fail_log error worker ids _).mem ?_
      unfold fail
      rw [hr]
      dsimp only
      rw [if_pos ⟨hactive, hworker⟩]
      exact mem_log_of_finish b j .termination (.error error) hcompletion
    · refine ih (h.fail error worker id) ?_ ((List.mem_cons.mp hmem).resolve_left hj)
      unfold fail
      split
      · exact hr
      · split
        · rw [finish_of_ne b _ _ _ hj]
          exact hr
        · exact hr

end Terminate

end Bridge

end Cantrip.Workers
