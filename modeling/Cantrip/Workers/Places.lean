import Cantrip.Wire.Canonical
import Cantrip.Workers.Admission

/-!
# The places of admitted commands

The counts of a lane are those of the permits that still hold their places (`Sound`): an admission adds a permit where it takes
two places, the end of a release takes away one that held them, and no other step changes who holds any.
-/

namespace Cantrip.Workers.Admission

open Lib Wire List Function

variable {F : Numbers}

/-! ## Who holds places -/

def Permit.holds (p : Permit) : Bool := p.flag ≠ .released

/-- How many permits of a lane hold a place of `key`. -/
def held (who : Permit → String) (permits : List Permit) (control : Bool) (key : String) : Nat :=
  permits.countP fun p => p.holds && p.control = control && who p = key

variable {permits : List Permit} {p p' : Permit} {id : Nat} {control : Bool}

theorem held_admitted (who : Permit → String) (permits : List Permit) (hflag : p.holds = true) (key : String) :
    held who (permits ++ [p]) p.control key =
      Function.update (held who permits p.control) (who p) (held who permits p.control (who p) + 1) key := by
  rw [held, countP_append, countP_singleton, hflag]
  by_cases hkey : key = who p
  · subst hkey
    rw [update_self]
    simp [held]
  · rw [update_of_ne hkey]
    simp [held, Ne.symm hkey]

theorem held_admit_other (who : Permit → String) (permits : List Permit) (hcontrol : control ≠ p.control) (key : String) :
    held who (permits ++ [p]) control key = held who permits control key := by
  rw [held, countP_append, countP_singleton]
  simp [held, Ne.symm hcontrol]

theorem held_set (who : Permit → String) (hid : permits[id]? = some p) (hholds : p'.holds = p.holds) (hcontrol : p'.control = p.control)
    (hwho : who p' = who p) (control : Bool) (key : String) : held who (permits.set id p') control key = held who permits control key := by
  have hadd := @countP_set_add _ (fun p => p.holds && p.control = control && who p = key) _ _ p' _ hid
  rw [hholds, hcontrol, hwho] at hadd
  exact Nat.add_right_cancel hadd

theorem held_released (who : Permit → String) (hid : permits[id]? = some p) (hholds : p.holds = true) (hgone : p'.holds = false) (key : String) :
    held who (permits.set id p') p.control key =
      Function.update (held who permits p.control) (who p) (held who permits p.control (who p) - 1) key := by
  have hadd := @countP_set_add _ (fun q => q.holds && q.control = p.control && who q = key) _ _ p' _ hid
  rw [hholds, hgone] at hadd
  by_cases hkey : key = who p
  · subst hkey
    rw [update_self]
    simp at hadd
    unfold held
    omega
  · rw [update_of_ne hkey]
    simpa [held, Ne.symm hkey] using hadd

theorem held_released_other (who : Permit → String) (hid : permits[id]? = some p) (hsame : p'.control = p.control) (hcontrol : control ≠ p.control)
    (key : String) : held who (permits.set id p') control key = held who permits control key := by
  have hadd := @countP_set_add _ (fun q => q.holds && q.control = control && who q = key) _ _ p' _ hid
  rw [hsame] at hadd
  simpa [held, Ne.symm hcontrol] using hadd

/-! ## Admission -/

variable {lane lane' : CommandLane} {owner worker : String} {clock : Clock} {f g : String → Nat}

theorem admit_active (h : (lane.admitCommand owner worker clock).2 = none) :
    (lane.accountActive.acquire owner).2 = true ∧ (lane.workerActive.acquire worker).2 = true ∧
      (lane.admitCommand owner worker clock).1.accountActive = (lane.accountActive.acquire owner).1 ∧
      (lane.admitCommand owner worker clock).1.workerActive = (lane.workerActive.acquire worker).1 := by
  unfold CommandLane.admitCommand at h ⊢
  dsimp only at h ⊢
  split at h
  · cases h
  · split at h
    · cases h
    · split at h
      · cases h
      · rename_i hretry haccount hworker
        rw [if_neg hretry, if_neg haccount, if_neg hworker]
        simp only [Bool.not_eq_true', Bool.not_eq_false] at haccount hworker
        exact ⟨haccount, hworker, rfl, rfl⟩

theorem refused_active {rejection : Rejection} (h : (lane.admitCommand owner worker clock).2 = some rejection) :
    ((lane.admitCommand owner worker clock).1.accountActive = lane.accountActive ∨
      (lane.accountActive.acquire owner).2 = true ∧
        (lane.admitCommand owner worker clock).1.accountActive = (lane.accountActive.acquire owner).1.release owner) ∧
      (lane.admitCommand owner worker clock).1.workerActive = lane.workerActive := by
  unfold CommandLane.admitCommand at h ⊢
  dsimp only at h ⊢
  split
  · exact ⟨.inl rfl, rfl⟩
  · split
    · rename_i haccount
      simp only [Bool.not_eq_true'] at haccount
      exact ⟨.inl (ActiveLimit.acquire_false haccount), rfl⟩
    · rename_i hretry haccount
      rw [if_neg hretry, if_neg haccount] at h
      split
      · rename_i hworker
        simp only [Bool.not_eq_true', Bool.not_eq_false] at haccount hworker
        exact ⟨.inr ⟨haccount, rfl⟩, ActiveLimit.acquire_false hworker⟩
      · rename_i hworker
        rw [if_neg hworker] at h
        cases h

/-- The active counts of a lane that has refused a command. -/
structure Refused (lane after : CommandLane) (owner : String) : Prop where
  account : after.accountActive = lane.accountActive ∨
    (lane.accountActive.acquire owner).2 = true ∧ after.accountActive = (lane.accountActive.acquire owner).1.release owner
  worker : after.workerActive = lane.workerActive

theorem refused_refl (lane : CommandLane) (owner : String) : Refused lane lane owner := ⟨.inl rfl, rfl⟩

theorem Refused.count (h : Refused lane lane' owner) (key : String) :
    lane'.accountActive.count key = lane.accountActive.count key ∧ lane'.workerActive.count key = lane.workerActive.count key := by
  rw [h.worker]
  refine ⟨?_, rfl⟩
  rcases h.account with haccount | ⟨htaken, haccount⟩
  · rw [haccount]
  · rw [haccount]
    exact ActiveLimit.count_release_acquire htaken key

theorem Refused.holds (h : Refused lane lane' owner) (haccount : lane.accountActive.Holds f) : lane'.accountActive.Holds f := by
  rcases h.account with hsame | ⟨htaken, hsame⟩
  · rw [hsame]
    exact haccount
  · rw [hsame]
    exact haccount.undo htaken

theorem Refused.limit (h : Refused lane lane' owner) : lane'.accountActive.limit = lane.accountActive.limit := by
  rcases h.account with hsame | ⟨-, hsame⟩
  · rw [hsame]
  · rw [hsame, ActiveLimit.limit_release, ActiveLimit.limit_acquire]

variable {b b' : Bus} {command : Value F} {rejection : Rejection}

theorem admit_rejected (h : b.admitCommand owner worker command clock = (b', some rejection)) :
    b'.permits = b.permits ∧ b'.activeRequests = b.activeRequests ∧ b'.routed = b.routed ∧
      ∀ control, Refused (b.lane control) (b'.lane control) owner := by
  unfold Bus.admitCommand Bus.admitBytes at h
  dsimp only at h
  split at h
  · rename_i refusal hrefusal
    obtain ⟨rfl, -⟩ := Prod.mk.inj h
    refine ⟨rfl, rfl, rfl, ?_⟩
    intro control
    dsimp only [Bus.setLane]
    by_cases hcontrol : control = isExecutionControl command
    · subst hcontrol
      rw [update_self]
      split at hrefusal
      · rename_i hrelay
        rw [if_pos hrelay]
        exact refused_refl _ _
      · rename_i hrelay
        rw [if_neg hrelay]
        obtain ⟨haccount, hworker⟩ := refused_active hrefusal
        exact ⟨haccount, hworker⟩
    · rw [update_of_ne hcontrol]
      exact refused_refl _ _
  · cases (Prod.mk.inj h).2

theorem admit_admitted (h : b.admitCommand owner worker command clock = (b', none)) :
    ∃ lane, (b.lane (isExecutionControl command)).admitCommand owner worker clock = (lane, none) ∧
      b'.lane = Function.update b.lane (isExecutionControl command) lane ∧
      b'.permits = b.permits ++ [{ owner := owner, worker := worker, control := isExecutionControl command }] ∧
      b'.activeRequests = b.activeRequests + 1 ∧ b'.routed = b.routed + 1 := by
  unfold Bus.admitCommand Bus.admitBytes at h
  dsimp only at h
  split at h
  · cases (Prod.mk.inj h).2
  · rename_i hnone
    obtain ⟨rfl, -⟩ := Prod.mk.inj h
    split at hnone
    · cases hnone
    · rename_i hrelay
      refine ⟨_, Prod.ext rfl hnone, ?_, rfl, rfl, rfl⟩
      dsimp only [Bus.setLane]
      rw [if_neg hrelay]

/-! ## The invariant -/

/-- `labels` is what the bus has shown. -/
structure Sound (limits : CommandLimits) (b : Bus) (labels : List Label) : Prop where
  owners : ∀ control, (b.lane control).accountActive.Holds (held Permit.owner b.permits control)
  workers : ∀ control, (b.lane control).workerActive.Holds (held Permit.worker b.permits control)
  account : ∀ control, (b.lane control).accountActive.limit = limits.account control
  worker : ∀ control, (b.lane control).workerActive.limit = limits.worker control
  active : b.activeRequests = b.permits.countP fun p => p.ending ≠ .gone
  routed : b.routed = b.permits.length
  once : ∀ id p, b.permits[id]? = some p → labels.count (.released id) = if p.holds then 0 else 1
  unknown : ∀ id, b.permits.length ≤ id → labels.count (.released id) = 0
  /-- A request that is dropped has changed the flag or found it changed, and one that is gone does not change it. -/
  dropping : ∀ p ∈ b.permits, p.ending ≠ .running → p.flag ≠ .held
  gone : ∀ p ∈ b.permits, p.ending = .gone → p.flag ≠ .changed true

variable {limits : CommandLimits} {labels : List Label}

theorem sound_new (limits : CommandLimits) (quotas : RelayQuotas) : Sound limits (Bus.new limits quotas) [] where
  owners _ := ActiveLimit.holds_new _
  workers _ := ActiveLimit.holds_new _
  account _ := rfl
  worker _ := rfl
  active := rfl
  routed := rfl
  once _ _ h := by cases h
  unknown _ _ := rfl
  dropping _ h := by cases h
  gone _ h := by cases h

theorem count_released (labels : List Label) {label : Label} (hlabel : ∀ id, label ≠ .released id) (id : Nat) :
    (labels ++ [label]).count (.released id) = labels.count (.released id) := by
  have hzero : [label].count (.released id) = 0 := by
    rw [count_eq_zero, mem_singleton]
    exact fun h => hlabel id h.symm
  rw [count_append, hzero, Nat.add_zero]

section

variable (h : Sound limits b labels)
include h

theorem Sound.same (hlane : b'.lane = b.lane) (hpermits : b'.permits = b.permits)
    (hactive : b'.activeRequests = b.activeRequests) (hrouted : b'.routed = b.routed) : Sound limits b' (labels ++ [.quiet]) where
  owners := by rw [hlane, hpermits]; exact h.owners
  workers := by rw [hlane, hpermits]; exact h.workers
  account := by rw [hlane]; exact h.account
  worker := by rw [hlane]; exact h.worker
  active := by rw [hactive, hpermits]; exact h.active
  routed := by rw [hrouted, hpermits]; exact h.routed
  once id p hp := by
    rw [count_released labels (fun _ => by simp)]
    exact h.once id p (hpermits ▸ hp)
  unknown id hid := by
    rw [count_released labels (fun _ => by simp)]
    exact h.unknown id (hpermits ▸ hid)
  dropping := by rw [hpermits]; exact h.dropping
  gone := by rw [hpermits]; exact h.gone

theorem Sound.rejected (hadmits : b.admitCommand owner worker command clock = (b', some rejection)) :
    Sound limits b' (labels ++ [.rejected rejection]) := by
  obtain ⟨hpermits, hactive, hrouted, hlane⟩ := admit_rejected hadmits
  refine ⟨?_, ?_, ?_, ?_, ?_, ?_, ?_, ?_, ?_, ?_⟩
  · intro control
    rw [hpermits]
    exact (hlane control).holds (h.owners control)
  · intro control
    rw [hpermits, (hlane control).worker]
    exact h.workers control
  · intro control
    exact (hlane control).limit.trans (h.account control)
  · intro control
    rw [(hlane control).worker]
    exact h.worker control
  · rw [hactive, hpermits]
    exact h.active
  · rw [hrouted, hpermits]
    exact h.routed
  · intro id p hp
    rw [count_released labels (fun _ => by simp)]
    exact h.once id p (hpermits ▸ hp)
  · intro id hid
    rw [count_released labels (fun _ => by simp)]
    exact h.unknown id (hpermits ▸ hid)
  · rw [hpermits]
    exact h.dropping
  · rw [hpermits]
    exact h.gone

theorem Sound.admitted (hadmits : b.admitCommand owner worker command clock = (b', none)) :
    Sound limits b' (labels ++ [.admitted b.permits.length]) := by
  obtain ⟨lane, hlane, hlanes, hpermits, hactive, hrouted⟩ := admit_admitted hadmits
  obtain ⟨hownerTaken, hworkerTaken, haccount, hworker⟩ := admit_active (congrArg Prod.snd hlane)
  rw [hlane] at haccount hworker
  dsimp only at haccount hworker
  refine ⟨?_, ?_, ?_, ?_, ?_, ?_, ?_, ?_, ?_, ?_⟩
  · intro control
    rw [hlanes, hpermits]
    by_cases hcontrol : control = isExecutionControl command
    · subst hcontrol
      rw [update_self, haccount]
      exact ((h.owners _).acquire hownerTaken).congr (held_admitted Permit.owner b.permits rfl)
    · rw [update_of_ne hcontrol]
      exact (h.owners control).congr (held_admit_other Permit.owner b.permits hcontrol)
  · intro control
    rw [hlanes, hpermits]
    by_cases hcontrol : control = isExecutionControl command
    · subst hcontrol
      rw [update_self, hworker]
      exact ((h.workers _).acquire hworkerTaken).congr (held_admitted Permit.worker b.permits rfl)
    · rw [update_of_ne hcontrol]
      exact (h.workers control).congr (held_admit_other Permit.worker b.permits hcontrol)
  · intro control
    rw [hlanes]
    by_cases hcontrol : control = isExecutionControl command
    · subst hcontrol
      rw [update_self, haccount, ActiveLimit.limit_acquire]
      exact h.account _
    · rw [update_of_ne hcontrol]
      exact h.account control
  · intro control
    rw [hlanes]
    by_cases hcontrol : control = isExecutionControl command
    · subst hcontrol
      rw [update_self, hworker, ActiveLimit.limit_acquire]
      exact h.worker _
    · rw [update_of_ne hcontrol]
      exact h.worker control
  · rw [hactive, hpermits, countP_append, h.active]
    rfl
  · rw [hrouted, hpermits, length_append, h.routed]
    rfl
  · intro id p hp
    rw [count_released labels (fun _ => by simp)]
    rw [hpermits] at hp
    by_cases hid : id < b.permits.length
    · rw [getElem?_append_left hid] at hp
      exact h.once id p hp
    · rw [getElem?_append_right (by omega), getElem?_singleton] at hp
      split at hp
      · cases hp
        exact h.unknown id (by omega)
      · cases hp
  · intro id hid
    rw [count_released labels (fun _ => by simp)]
    rw [hpermits, length_append] at hid
    exact h.unknown id (by omega)
  · intro p hp hending
    rw [hpermits, mem_append, mem_singleton] at hp
    rcases hp with hp | rfl
    · exact h.dropping p hp hending
    · exact absurd rfl hending
  · intro p hp hending
    rw [hpermits, mem_append, mem_singleton] at hp
    rcases hp with hp | rfl
    · exact h.gone p hp hending
    · cases hending

theorem Sound.replace (hid : b.permits[id]? = some p) (p' : Permit) (n : Nat) (hholds : p'.holds = p.holds)
    (hcontrol : p'.control = p.control) (howner : p'.owner = p.owner) (hworker : p'.worker = p.worker)
    (hdropping : p'.ending ≠ .running → p'.flag ≠ .held) (hgone : p'.ending = .gone → p'.flag ≠ .changed true)
    (hactive : n + (if p.ending ≠ .gone then 1 else 0) = b.activeRequests + if p'.ending ≠ .gone then 1 else 0) :
    Sound limits ({ b with activeRequests := n }.setPermit id p') (labels ++ [.quiet]) := by
  have hlt := (List.getElem?_eq_some_iff.1 hid).1
  refine ⟨?_, ?_, h.account, h.worker, ?_, ?_, ?_, ?_, ?_, ?_⟩
  · intro control
    exact (h.owners control).congr (held_set Permit.owner hid hholds hcontrol howner control)
  · intro control
    exact (h.workers control).congr (held_set Permit.worker hid hholds hcontrol hworker control)
  · have hadd := countP_set_add (fun p : Permit => decide (p.ending ≠ .gone)) (a := p') hid
    rw [← h.active] at hadd
    simp only [decide_eq_true_eq] at hadd
    dsimp only [Bus.setPermit]
    omega
  · dsimp only [Bus.setPermit]
    rw [length_set]
    exact h.routed
  · intro i q hq
    rw [count_released labels (fun _ => by simp)]
    dsimp only [Bus.setPermit] at hq
    by_cases hi : i = id
    · subst hi
      rw [getElem?_set_self hlt] at hq
      cases hq
      rw [hholds]
      exact h.once i p hid
    · rw [getElem?_set_ne (Ne.symm hi)] at hq
      exact h.once i q hq
  · intro i hi
    rw [count_released labels (fun _ => by simp)]
    dsimp only [Bus.setPermit] at hi
    rw [length_set] at hi
    exact h.unknown i hi
  · intro q hq
    rcases mem_or_eq_of_mem_set hq with hq | rfl
    · exact h.dropping q hq
    · exact hdropping
  · intro q hq
    rcases mem_or_eq_of_mem_set hq with hq | rfl
    · exact h.gone q hq
    · exact hgone

theorem Sound.settled (hid : b.permits[id]? = some p) {byDrop : Bool} (hflag : p.flag = .changed byDrop) :
    Sound limits ((b.setLane p.control ((b.lane p.control).release p)).setPermit id { p with flag := .released })
      (labels ++ [.released id]) := by
  have hlt := (List.getElem?_eq_some_iff.1 hid).1
  have hholds : p.holds = true := by simp [Permit.holds, hflag]
  refine ⟨?_, ?_, ?_, ?_, ?_, ?_, ?_, ?_, ?_, ?_⟩
  · intro control
    dsimp only [Bus.setPermit, Bus.setLane]
    by_cases hcontrol : control = p.control
    · subst hcontrol
      rw [update_self]
      exact ((h.owners _).release p.owner).congr (held_released Permit.owner hid hholds rfl)
    · rw [update_of_ne hcontrol]
      refine (h.owners control).congr (held_released_other Permit.owner hid ?_ hcontrol)
      rfl
  · intro control
    dsimp only [Bus.setPermit, Bus.setLane]
    by_cases hcontrol : control = p.control
    · subst hcontrol
      rw [update_self]
      exact ((h.workers _).release p.worker).congr (held_released Permit.worker hid hholds rfl)
    · rw [update_of_ne hcontrol]
      refine (h.workers control).congr (held_released_other Permit.worker hid ?_ hcontrol)
      rfl
  · intro control
    dsimp only [Bus.setPermit, Bus.setLane]
    by_cases hcontrol : control = p.control
    · subst hcontrol
      rw [update_self, CommandLane.release, ActiveLimit.limit_release]
      exact h.account _
    · rw [update_of_ne hcontrol]
      exact h.account control
  · intro control
    dsimp only [Bus.setPermit, Bus.setLane]
    by_cases hcontrol : control = p.control
    · subst hcontrol
      rw [update_self, CommandLane.release, ActiveLimit.limit_release]
      exact h.worker _
    · rw [update_of_ne hcontrol]
      exact h.worker control
  · have hadd := countP_set_add (fun p : Permit => decide (p.ending ≠ .gone)) (a := { p with flag := .released }) hid
    exact h.active.trans (Nat.add_right_cancel hadd).symm
  · dsimp only [Bus.setPermit, Bus.setLane]
    rw [length_set]
    exact h.routed
  · intro i q hq
    dsimp only [Bus.setPermit, Bus.setLane] at hq
    rw [count_append, count_singleton]
    by_cases hi : i = id
    · subst hi
      rw [getElem?_set_self hlt] at hq
      cases hq
      rw [h.once i p hid, hholds]
      simp [Permit.holds]
    · rw [getElem?_set_ne (Ne.symm hi)] at hq
      rw [h.once i q hq]
      simp [Ne.symm hi]
  · intro i hi
    dsimp only [Bus.setPermit, Bus.setLane] at hi
    rw [length_set] at hi
    rw [count_append, count_singleton, h.unknown i hi]
    have hne : id ≠ i := by omega
    simp [hne]
  · intro q hq
    rcases mem_or_eq_of_mem_set hq with hq | rfl
    · exact h.dropping q hq
    · intro _ hheld
      cases hheld
  · intro q hq
    rcases mem_or_eq_of_mem_set hq with hq | rfl
    · exact h.gone q hq
    · intro _ hchanged
      cases hchanged

end

theorem change_fields (p : Permit) (byDrop : Bool) :
    (p.change byDrop).holds = p.holds ∧ (p.change byDrop).control = p.control ∧ (p.change byDrop).owner = p.owner ∧
      (p.change byDrop).worker = p.worker ∧ (p.change byDrop).ending = p.ending ∧ (p.change byDrop).flag ≠ .held := by
  cases hflag : p.flag <;> simp [Permit.change, Permit.holds, hflag]

theorem change_of_ne (byDrop : Bool) (h : p.flag ≠ .held) : p.change byDrop = p := by
  cases hflag : p.flag <;> simp_all [Permit.change]

theorem Sound.step {label : Label} {event : Event F} (h : Sound limits b labels) (hstep : step b event = some (b', label)) :
    Sound limits b' (labels ++ [label]) := by
  cases event with
  | admitCommand owner worker command clock =>
    dsimp only [Admission.step] at hstep
    split at hstep <;> cases hstep <;> rename_i hadmits
    · exact h.rejected hadmits
    · exact h.admitted hadmits
  | relay owner worker bytes now =>
    cases hstep
    exact h.same rfl rfl rfl rfl
  | release id =>
    dsimp only [Admission.step] at hstep
    split at hstep <;> cases hstep
    rename_i p hid
    obtain ⟨hholds, hcontrol, howner, hworker, hending, hflag⟩ := change_fields p false
    have hmem := mem_of_getElem? hid
    refine h.replace hid (p.change false) b.activeRequests hholds hcontrol howner hworker (fun _ => hflag) ?_ (by rw [hending])
    intro hgone
    rw [hending] at hgone
    have hdropped := h.dropping p hmem (by rw [hgone]; decide)
    rw [change_of_ne false hdropped]
    exact h.gone p hmem hgone
  | settle id =>
    dsimp only [Admission.step] at hstep
    split at hstep
    · split at hstep <;> cases hstep
      rename_i p hid _ byDrop hflag
      exact h.settled hid hflag
    · cases hstep
  | outcome id ok =>
    dsimp only [Admission.step] at hstep
    split at hstep
    · split at hstep <;> cases hstep
      split <;> exact h.same rfl rfl rfl rfl
    · cases hstep
  | drop id =>
    dsimp only [Admission.step] at hstep
    split at hstep
    · split at hstep <;> cases hstep
      rename_i p hid hrunning
      obtain ⟨hholds, hcontrol, howner, hworker, -, hflag⟩ := change_fields p true
      refine h.replace hid { p.change true with ending := .dropping } b.activeRequests hholds hcontrol howner hworker (fun _ => hflag) ?_
        (by simp [hrunning])
      intro hgone
      cases hgone
    · cases hstep
  | dropped id =>
    dsimp only [Admission.step] at hstep
    split at hstep
    · split at hstep <;> cases hstep
      rename_i p hid hback
      obtain ⟨hdropping, hchanged⟩ := hback
      have hmem := mem_of_getElem? hid
      have hheld := h.dropping p hmem (by rw [hdropping]; decide)
      have hpos : 0 < b.activeRequests := by
        rw [h.active]
        exact countP_pos_iff.2 ⟨p, hmem, by simp [hdropping]⟩
      refine h.replace hid { p with ending := .gone } (b.activeRequests - 1) rfl rfl rfl rfl (fun _ => hheld) (fun _ => hchanged) ?_
      simp only [hdropping, ne_eq, not_true, if_false, if_true, reduceCtorEq, not_false_iff]
      omega
    · cases hstep

theorem sound_run (limits : CommandLimits) (quotas : RelayQuotas) {events : List (Event F)}
    (h : runSteps step (Bus.new limits quotas) events = some (b, labels)) : Sound limits b labels := by
  have hrun := runSteps_invariant (I := Sound limits) (fun _ _ _ _ _ hsound hstep => hsound.step hstep) events _ [] b labels
    (sound_new limits quotas) h
  exact hrun

/-! ## The accounts -/

/-- Nobody is between the change of a flag and the return of the places. -/
def Bus.Quiescent (b : Bus) : Prop := ∀ p ∈ b.permits, ∀ byDrop, p.flag ≠ .changed byDrop

/-- The commands of a lane that are admitted and not yet released. -/
def outstanding (who : Permit → String) (b : Bus) (control : Bool) (key : String) : List Permit :=
  b.permits.filter fun p => p.flag = .held && p.control = control && who p = key

theorem Bus.Quiescent.held (h : b.Quiescent) (who : Permit → String) (control : Bool) (key : String) :
    held who b.permits control key = (outstanding who b control key).length := by
  rw [Admission.held, outstanding, ← countP_eq_length_filter]
  apply countP_congr
  intro p hp
  have hchanged := h p hp
  cases hflag : p.flag with
  | held => simp [Permit.holds, hflag]
  | changed byDrop => exact absurd hflag (hchanged byDrop)
  | released => simp [Permit.holds, hflag]

theorem Sound.gone_released (h : Sound limits b labels) (hquiescent : b.Quiescent) (hmem : p ∈ b.permits) (hgone : p.ending = .gone) :
    p.flag = .released := by
  have hheld := h.dropping p hmem (by rw [hgone]; decide)
  have hchanged := hquiescent p hmem
  cases hflag : p.flag with
  | held => exact absurd hflag hheld
  | changed byDrop => exact absurd hflag (hchanged byDrop)
  | released => rfl

/-- The accounts after any run: the counts, the limits, the releases, a refusal, and the end of all commands. -/
theorem admission_accounts (limits : CommandLimits) (quotas : RelayQuotas) (events : List (Event F)) (b : Bus) (labels : List Label)
    (h : runSteps step (Bus.new limits quotas) events = some (b, labels)) :
    (b.Quiescent → ∀ control key, (b.lane control).accountActive.count key = (outstanding Permit.owner b control key).length ∧
        (b.lane control).workerActive.count key = (outstanding Permit.worker b control key).length) ∧
    (∀ control key, (b.lane control).accountActive.count key ≤ limits.account control ∧
      (b.lane control).workerActive.count key ≤ limits.worker control) ∧
    (∀ id p, b.permits[id]? = some p → labels.count (.released id) = (if p.flag = .released then 1 else 0) ∧
        (b.Quiescent → p.ending = .gone → labels.count (.released id) = 1)) ∧
    (∀ event b' rejection, step b (event : Event F) = some (b', .rejected rejection) → b'.activeRequests = b.activeRequests ∧
      ∀ control key, (b'.lane control).accountActive.count key = (b.lane control).accountActive.count key ∧
        (b'.lane control).workerActive.count key = (b.lane control).workerActive.count key) ∧
    ((∀ p ∈ b.permits, p.ending = .gone) → b.Quiescent → b.activeRequests = 0 ∧
      ∀ control, (b.lane control).accountActive.counts.entries = [] ∧ (b.lane control).workerActive.counts.entries = []) := by
  have hsound := sound_run limits quotas h
  refine ⟨?_, ?_, ?_, ?_, ?_⟩
  · intro hquiescent control key
    rw [(hsound.owners control).count, (hsound.workers control).count, hquiescent.held, hquiescent.held]
    exact ⟨rfl, rfl⟩
  · intro control key
    rw [(hsound.owners control).count, (hsound.workers control).count, ← hsound.account, ← hsound.worker]
    exact ⟨(hsound.owners control).bound key, (hsound.workers control).bound key⟩
  · intro id p hid
    have honce := hsound.once id p hid
    refine ⟨?_, ?_⟩
    · rw [honce]
      by_cases hflag : p.flag = .released <;> simp [Permit.holds, hflag]
    · intro hquiescent hgone
      have hreleased := hsound.gone_released hquiescent (mem_of_getElem? hid) hgone
      rw [honce]
      simp [Permit.holds, hreleased]
  · intro event b' rejection hstep
    cases event with
    | admitCommand owner worker command clock =>
      dsimp only [Admission.step] at hstep
      split at hstep <;> cases hstep
      rename_i hadmits
      obtain ⟨-, hactive, -, hlane⟩ := admit_rejected hadmits
      exact ⟨hactive, fun control key => (hlane control).count key⟩
    | relay owner worker bytes now => cases hstep
    | release id | settle id | outcome id ok | drop id | dropped id =>
      dsimp only [Admission.step] at hstep
      repeat' split at hstep
      all_goals cases hstep
  · intro hgone hquiescent
    have hzero : ∀ (who : Permit → String) (control : Bool) (key : String), held who b.permits control key = 0 := by
      intro who control key
      rw [held, countP_eq_zero]
      intro p hp
      simp [Permit.holds, hsound.gone_released hquiescent hp (hgone p hp)]
    refine ⟨?_, ?_⟩
    · rw [hsound.active, countP_eq_zero]
      intro p hp
      simp [hgone p hp]
    · intro control
      exact ⟨(hsound.owners control).counts.entries_eq_nil (hzero Permit.owner control),
        (hsound.workers control).counts.entries_eq_nil (hzero Permit.worker control)⟩

/-! ## One place for two commands -/

namespace Sample

def onePlace : CommandLimits := ⟨1, 60, 2, 60, by decide, by decide⟩

def kilobyte : RelayQuotas := { accountRelay := { limit := 1000 }, workerRelay := { limit := 1000 } }

def nothing : Value Wire.Sample.digits := .null

/-- The second command is refused; an event gives the place of the first one back before it ends. -/
def events : List (Event Wire.Sample.digits) :=
  [.admitCommand "owner" "worker" nothing ⟨0, 0, 0⟩, .admitCommand "owner" "worker" nothing ⟨1, 1, 1⟩, .release 0, .settle 0, .outcome 0 true,
    .drop 0, .dropped 0]

theorem admission_accounts_once : ∃ b labels, runSteps step (Bus.new onePlace kilobyte) events = some (b, labels) ∧
    labels.count (.released 0) = 1 ∧ b.activeRequests = 0 ∧ (b.lane false).accountActive.counts.entries = [] := by
  have hlength : byteLength nothing = 4 := by simp [byteLength, stringify, write, nothing, Char.utf8Size]
  have hadmits : ∀ (b : Bus) clock, b.admitCommand "owner" "worker" nothing clock = b.admitBytes "owner" "worker" false 4 clock := by
    intro b clock
    rw [Bus.admitCommand, hlength]
    rfl
  have hrun : (runSteps step (Bus.new onePlace kilobyte) events).map (fun r => r.1.permits) =
      some [⟨"owner", "worker", false, .released, .gone⟩] := by
    simp only [events, runSteps, step, hadmits]
    rfl
  rw [Option.map_eq_some_iff] at hrun
  obtain ⟨⟨b, labels⟩, hrun, hpermits⟩ := hrun
  dsimp only at hpermits
  have hgone : ∀ p ∈ b.permits, p.ending = .gone := by rw [hpermits]; decide
  have hquiescent : b.Quiescent := by
    intro p hp byDrop
    rw [hpermits, mem_singleton] at hp
    rw [hp]
    exact fun h => by cases h
  obtain ⟨-, -, honce, -, hend⟩ := admission_accounts onePlace kilobyte events b labels hrun
  have hreleased := honce 0 ⟨"owner", "worker", false, .released, .gone⟩ (by rw [hpermits]; rfl)
  exact ⟨b, labels, hrun, hreleased.1, (hend hgone hquiescent).1, ((hend hgone hquiescent).2 false).1⟩

end Sample

end Cantrip.Workers.Admission
