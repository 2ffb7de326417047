import Cantrip.Web.Reads

/-!
# Permits

The semaphores account for the fetches (`Permits`): a fetch holds a permit of all fetches from the first grant until it is
settled, and one of its host from the grant until the request is over, and only semaphores in use are kept.
-/

namespace Cantrip.Web

open Lib Option Function

def Stage.hasGlobal : Stage → Bool
  | .waitingGlobal => false
  | .settled _ => false
  | _ => true

def Stage.hasHost : Stage → Bool
  | .grantedHost => true
  | .beforeRequest _ => true
  | .requesting => true
  | _ => false

@[simp] theorem hasHost_grantedGlobal : Stage.grantedGlobal.hasHost = false := rfl

@[simp] theorem hasHost_settled (ok : Bool) : (Stage.settled ok).hasHost = false := rfl

@[simp] theorem hasGlobal_settled (ok : Bool) : (Stage.settled ok).hasGlobal = false := rfl

namespace State

variable {s : State} {id j : Nat} {f g : Fetch} {hostname : String}

def has (s : State) (p : Fetch → Prop) (id : Nat) : Prop := ∃ f, s.fetches id = some f ∧ p f

def holdsGlobal (s : State) : Nat → Prop := s.has fun f => f.stage.hasGlobal = true

def waitsGlobal (s : State) : Nat → Prop := s.has fun f => f.stage = .waitingGlobal

def holdsHost (s : State) (hostname : String) : Nat → Prop := s.has fun f => f.current.hostname = hostname ∧ f.stage.hasHost = true

def waitsHost (s : State) (hostname : String) : Nat → Prop := s.has fun f => f.current.hostname = hostname ∧ f.stage = .waitingHost

/-- The permits are those of the fetches and of some that are about to be given back. -/
structure PermitsAnd (s : State) (globals : Nat → Prop) (locals : String → Nat → Prop) : Prop where
  global : s.global.Accounts 8 (fun j => s.holdsGlobal j ∨ globals j) s.waitsGlobal
  hosts : ∀ h, ((s.hosts h).getD .empty).Accounts 2 (fun j => s.holdsHost h j ∨ locals h j) (s.waitsHost h)
  kept : ∀ h semaphore, s.hosts h = some semaphore → semaphore.idle = false
  fresh : ∀ id, s.next ≤ id → s.fetches id = none

def nobody (_ : Nat) : Prop := False
def nowhere (_ : String) (_ : Nat) : Prop := False

abbrev Permits (s : State) : Prop := s.PermitsAnd nobody nowhere

theorem permits_start : start.Permits := by
  have hnone : ∀ (p : Fetch → Prop) (id : Nat), ¬ start.has p id := fun p id ⟨f, hf, _⟩ => absurd hf (some_ne_none f).symm
  refine ⟨Semaphore.accounts_empty 8 (fun id h => h.elim (hnone _ id) fun h => h) (hnone _),
    fun h => Semaphore.accounts_empty 2 (fun id h => h.elim (hnone _ id) fun h => h) (hnone _), fun h semaphore hs => ?_, fun _ _ => rfl⟩
  exact absurd hs (some_ne_none semaphore).symm

theorem has_setFetch (s : State) (p : Fetch → Prop) (id : Nat) (f : Fetch) (j : Nat) :
    (s.setFetch id f).has p j ↔ (j = id ∧ p f) ∨ (j ≠ id ∧ s.has p j) := by
  unfold has setFetch
  by_cases hj : j = id
  · subst hj
    simp
  · simp [hj]

variable {p : Fetch → Prop} {s' : State}

theorem has_congr (h : s'.fetches = s.fetches) (p : Fetch → Prop) : s'.has p = s.has p := by
  unfold has
  rw [h]

theorem has_setFetch_iff (hf : s.fetches id = some f) (hp : p g ↔ p f) (j : Nat) : (s.setFetch id g).has p j ↔ s.has p j := by
  rw [has_setFetch]
  by_cases hj : j = id
  · subst hj
    unfold has
    simp [hf, hp]
  · simp [hj]

theorem PermitsAnd.setFetch {globals : Nat → Prop} {locals : String → Nat → Prop} (h : s.PermitsAnd globals locals) (hf : s.fetches id = some f)
    (hcurrent : g.current = f.current) (hglobal : g.stage.hasGlobal = f.stage.hasGlobal) (hhost : g.stage.hasHost = f.stage.hasHost)
    (hwaits : g.stage = .waitingGlobal ↔ f.stage = .waitingGlobal) (hwaitsHost : g.stage = .waitingHost ↔ f.stage = .waitingHost) :
    (s.setFetch id g).PermitsAnd globals locals := by
  refine ⟨h.global.congr (fun j => ?_) (fun j => ?_), fun k => (h.hosts k).congr (fun j => ?_) (fun j => ?_), h.kept, fun j hj => ?_⟩
  · unfold holdsGlobal
    rw [has_setFetch_iff hf (by rw [hglobal])]
  · unfold waitsGlobal
    rw [has_setFetch_iff hf hwaits]
  · unfold holdsHost
    rw [has_setFetch_iff hf (by rw [hcurrent, hhost])]
  · unfold waitsHost
    rw [has_setFetch_iff hf (by rw [hcurrent, hwaitsHost])]
  · have hne : j ≠ id := fun heq => absurd ((h.fresh j hj).symm.trans (heq ▸ hf)) (some_ne_none f).symm
    show update s.fetches id (some g) j = none
    rw [update_of_ne hne]
    exact h.fresh j hj

/-! ## Giving back -/

structure Grants (s s' : State) : Prop where
  tasks : s'.tasks = s.tasks
  next : s'.next = s.next
  fetches : ∀ j, s'.fetches j = s.fetches j ∨ ∃ f stage, s.fetches j = some f ∧ (f.stage = .waitingGlobal ∨ f.stage = .waitingHost) ∧
    (stage = .grantedGlobal ∨ stage = .grantedHost) ∧ s'.fetches j = some { f with stage }

theorem Grants.trans {s'' : State} (h : Grants s s') (h' : Grants s' s'') : Grants s s'' := by
  refine ⟨h'.tasks.trans h.tasks, h'.next.trans h.next, fun j => ?_⟩
  obtain hsame | ⟨f, stage, hf, hwaits, hgranted, hset⟩ := h.fetches j
  · rw [← hsame]
    exact h'.fetches j
  · obtain hsame | ⟨f', stage', hf', hwaits', -, -⟩ := h'.fetches j
    · exact .inr ⟨f, stage, hf, hwaits, hgranted, hsame.trans hset⟩
    · obtain rfl := some.inj (hset.symm.trans hf')
      rcases hgranted with rfl | rfl <;> rcases hwaits' with hwaits' | hwaits' <;> exact absurd hwaits' Stage.noConfusion

theorem grants_grant {t : State} (hreads : t.tasks = s.tasks) (hnext : t.next = s.next) (hfetches : t.fetches = s.fetches) {stage : Stage}
    (hgranted : stage = .grantedGlobal ∨ stage = .grantedHost) {n : Option Nat}
    (hwaits : ∀ i, n = some i → ∃ f, s.fetches i = some f ∧ (f.stage = .waitingGlobal ∨ f.stage = .waitingHost)) : Grants s (t.grant stage n) := by
  obtain rfl | ⟨i, rfl⟩ := eq_none_or_eq_some n
  · exact ⟨hreads, hnext, fun j => .inl (by rw [← hfetches]; rfl)⟩
  · obtain ⟨f, hf, hf'⟩ := hwaits i rfl
    refine ⟨hreads, hnext, fun j => ?_⟩
    show update t.fetches i _ j = _ ∨ _
    rw [hfetches]
    by_cases hj : j = i
    · subst hj
      refine .inr ⟨f, stage, hf, hf', hgranted, ?_⟩
      rw [← hfetches] at hf
      show update t.fetches j ((t.fetches j).map fun f => { f with stage }) j = _
      rw [update_self, hf]
      rfl
    · rw [update_of_ne hj]
      exact .inl rfl

theorem has_grant (s : State) (p : Fetch → Prop) (stage : Stage) (n j : Nat) :
    (s.grant stage (some n)).has p j ↔ (j = n ∧ ∃ f, s.fetches n = some f ∧ p { f with stage }) ∨ (j ≠ n ∧ s.has p j) := by
  unfold has grant
  by_cases hj : j = n
  · subst hj
    simp
  · simp [hj]

theorem has_grant_iff {stage : Stage} {n : Nat} (hf : s.fetches n = some f) (hp : p { f with stage } ↔ p f) (j : Nat) :
    (s.grant stage (some n)).has p j ↔ s.has p j := by
  rw [has_grant]
  by_cases hj : j = n
  · subst hj
    unfold has
    simp [hf, hp]
  · simp [hj]

theorem grant_fresh {stage : Stage} {n : Option Nat} (h : ∀ id, s.next ≤ id → s.fetches id = none) (j : Nat) (hj : (s.grant stage n).next ≤ j) :
    (s.grant stage n).fetches j = none := by
  unfold grant at hj ⊢
  split at hj
  · exact h j hj
  · rename_i n
    show update s.fetches n _ j = none
    by_cases hn : j = n
    · subst hn
      rw [update_self, h j hj]
      rfl
    · rw [update_of_ne hn]
      exact h j hj

theorem accounts_dropped {limit : Nat} {semaphore : Semaphore Nat} {holds waits : Nat → Prop} (h : semaphore.Accounts limit holds waits) :
    ((if semaphore.idle then none else some semaphore).getD .empty).Accounts limit holds waits := by
  split
  · rename_i hidle
    obtain ⟨hholds, hwaits⟩ := h.idle_iff.mp hidle
    exact Semaphore.accounts_empty limit hholds hwaits
  · exact h

theorem waits_not_holds {j : Nat} (h : s.waitsHost hostname j) : ¬ s.holdsHost hostname j := by
  rintro ⟨f', hf', -, hhas⟩
  obtain ⟨f, hf, -, hstage⟩ := h
  obtain rfl := some.inj (hf.symm.trans hf')
  rw [hstage] at hhas
  exact Bool.false_ne_true hhas

theorem releaseHost_hosts {semaphore : Semaphore Nat} (hsome : s.hosts hostname = some semaphore) : s.releaseHost hostname =
      { s with hosts := update s.hosts hostname (if semaphore.release.1.idle then none else some semaphore.release.1) }.grant
        .grantedHost semaphore.release.2 := by
  unfold releaseHost
  rw [hsome]

theorem releaseHost_permits {globals : Nat → Prop} (h : s.PermitsAnd globals fun k j => k = hostname ∧ j = id)
    (hholds : ¬ s.holdsHost hostname id) (hwaits : ¬ s.waitsHost hostname id) :
    (s.releaseHost hostname).PermitsAnd globals nowhere ∧ Grants s (s.releaseHost hostname) := by
  have hhost := h.hosts hostname
  obtain hnone | ⟨semaphore, hsome⟩ := eq_none_or_eq_some (s.hosts hostname)
  · rw [hnone] at hhost
    exact absurd (.inr ⟨rfl, rfl⟩) ((hhost.idle_iff.mp rfl).1 id)
  · rw [hsome] at hhost
    change semaphore.Accounts 2 _ _ at hhost
    have hdisjoint : ∀ j, s.waitsHost hostname j → ¬ (s.holdsHost hostname j ∨ hostname = hostname ∧ j = id) := by
      rintro j hj (hj' | ⟨-, rfl⟩)
      · exact waits_not_holds hj hj'
      · exact hwaits hj
    obtain ⟨hreleased, hnext⟩ := hhost.release hdisjoint (.inr ⟨rfl, rfl⟩)
    have hidle := accounts_dropped hreleased
    rw [releaseHost_hosts hsome]
    refine ⟨?_, grants_grant (by rfl) (by rfl) (by rfl) (.inr rfl) fun i hi => (hnext i hi).imp fun f hf => ⟨hf.1, .inr hf.2.2⟩⟩
    generalize hhosts : update s.hosts hostname _ = hosts
    have hhere : hosts hostname = if semaphore.release.1.idle then none else some semaphore.release.1 := by
      rw [← hhosts, update_self]
    have hthere : ∀ k, k ≠ hostname → hosts k = s.hosts k := fun k hk => by rw [← hhosts, update_of_ne hk]
    have hkept : ∀ k semaphore, hosts k = some semaphore → semaphore.idle = false := by
      intro k other hother
      by_cases hk : k = hostname
      · rw [hk, hhere] at hother
        obtain ⟨hbusy, heq⟩ := ite_none_left_eq_some.mp hother
        rw [← some.inj heq]
        exact Bool.not_eq_true _ ▸ hbusy
      · rw [hthere k hk] at hother
        exact h.kept k other hother
    rw [← hhere] at hidle
    obtain hnone | ⟨n, hn⟩ := eq_none_or_eq_some semaphore.release.2
    · rw [hnone] at hidle ⊢
      refine ⟨h.global, fun k => ?_, hkept, h.fresh⟩
      show ((hosts k).getD .empty).Accounts 2 (fun j => s.holdsHost k j ∨ False) (s.waitsHost k)
      by_cases hk : k = hostname
      · subst hk
        refine hidle.congr (fun j => ?_) fun j => ?_
        · constructor
          · rintro (hj | hj)
            · exact .inr ⟨.inl hj, fun heq => hholds (heq ▸ hj)⟩
            · exact hj.elim
          · rintro (hj | ⟨hj | ⟨-, hj⟩, hne⟩)
            · exact absurd hj (some_ne_none j)
            · exact .inl hj
            · exact absurd hj hne
        · simp
      · rw [hthere k hk]
        exact (h.hosts k).congr (fun j => by simp [hk]) fun j => Iff.rfl
    · rw [hn] at hidle ⊢
      obtain ⟨f, hf, hname, hstage⟩ := hnext n hn
      have hn' : n ≠ id := fun heq => hwaits (heq ▸ hnext n hn)
      have hsame : ∀ (p : Fetch → Prop), (p { f with stage := .grantedHost } ↔ p f) → ∀ j,
          ({ s with hosts }.grant .grantedHost (some n)).has p j ↔ s.has p j := fun p hp j => has_grant_iff (s := { s with hosts }) hf hp j
      refine ⟨?_, fun k => ?_, fun k other hother => ?_, fun j hj => ?_⟩
      · refine h.global.congr (fun j => ?_) fun j => ?_
        · unfold holdsGlobal
          rw [hsame _ (by simp [hstage, Stage.hasGlobal])]
        · unfold waitsGlobal
          rw [hsame _ (by simp [hstage])]
      · show ((hosts k).getD .empty).Accounts 2 _ _
        by_cases hk : k = hostname
        · subst hk
          refine hidle.congr (fun j => ?_) fun j => ?_
          · unfold holdsHost
            rw [has_grant]
            constructor
            · rintro ((⟨rfl, -⟩ | ⟨-, hj⟩) | hj)
              · exact .inl rfl
              · exact .inr ⟨.inl hj, fun heq => hholds (heq ▸ hj)⟩
              · exact hj.elim
            · rintro (hj | ⟨hj | ⟨-, hj⟩, hne⟩)
              · exact .inl (.inl ⟨some.inj hj, f, hf, hname, rfl⟩)
              · exact .inl (.inr ⟨fun heq => waits_not_holds (hnext n hn) (heq ▸ hj), hj⟩)
              · exact absurd hj hne
          · unfold waitsHost
            rw [has_grant]
            constructor
            · rintro (⟨-, f', -, -, hf'⟩ | ⟨hne, hj⟩)
              · exact absurd hf' Stage.noConfusion
              · exact ⟨hj, fun heq => hne (some.inj heq)⟩
            · rintro ⟨hj, hne⟩
              exact .inr ⟨fun heq => hne (heq ▸ rfl), hj⟩
        · rw [hthere k hk]
          refine (h.hosts k).congr (fun j => ?_) fun j => ?_
          · unfold holdsHost
            rw [hsame _ (by simp [hname, Ne.symm hk])]
            simp [hk, nowhere]
          · unfold waitsHost
            rw [hsame _ (by simp [hname, Ne.symm hk])]
      · exact hkept k other hother
      · exact grant_fresh (s := { s with hosts }) h.fresh j hj

theorem releaseGlobal_permits (h : s.PermitsAnd (fun j => j = id) nowhere) (hholds : ¬ s.holdsGlobal id) (hwaits : ¬ s.waitsGlobal id) :
    s.releaseGlobal.Permits ∧ Grants s s.releaseGlobal := by
  have hdisjoint : ∀ j, s.waitsGlobal j → ¬ (s.holdsGlobal j ∨ j = id) := by
    rintro j ⟨f, hf, hstage⟩ (⟨f', hf', hhas⟩ | rfl)
    · obtain rfl := some.inj (hf.symm.trans hf')
      rw [hstage] at hhas
      exact Bool.false_ne_true hhas
    · exact hwaits ⟨f, hf, hstage⟩
  obtain ⟨hreleased, hnext⟩ := h.global.release hdisjoint (.inr rfl)
  unfold releaseGlobal
  dsimp only
  refine ⟨?_, grants_grant (by rfl) (by rfl) (by rfl) (.inl rfl) fun i hi => (hnext i hi).imp fun f hf => ⟨hf.1, .inl hf.2⟩⟩
  obtain hnone | ⟨n, hn⟩ := eq_none_or_eq_some s.global.release.2
  · rw [hnone] at hreleased ⊢
    refine ⟨hreleased.congr (fun j => ?_) fun j => ?_, h.hosts, h.kept, h.fresh⟩
    · constructor
      · rintro (hj | hj)
        · exact .inr ⟨.inl hj, fun heq => hholds (heq ▸ hj)⟩
        · exact hj.elim
      · rintro (hj | ⟨hj | hj, hne⟩)
        · exact absurd hj (some_ne_none j)
        · exact .inl hj
        · exact absurd hj hne
    · show s.waitsGlobal j ↔ _
      simp
  · rw [hn] at hreleased ⊢
    obtain ⟨f, hf, hstage⟩ := hnext n hn
    have hsame : ∀ (p : Fetch → Prop), (p { f with stage := .grantedGlobal } ↔ p f) → ∀ j,
        ({ s with global := s.global.release.1 }.grant .grantedGlobal (some n)).has p j ↔ s.has p j :=
      fun p hp j => has_grant_iff (s := { s with global := s.global.release.1 }) hf hp j
    refine ⟨hreleased.congr (fun j => ?_) fun j => ?_, fun k => (h.hosts k).congr (fun j => ?_) fun j => ?_, h.kept,
      fun j hj => grant_fresh (s := { s with global := s.global.release.1 }) h.fresh j hj⟩
    · unfold holdsGlobal
      rw [has_grant]
      constructor
      · rintro ((⟨rfl, -⟩ | ⟨-, hj⟩) | hj)
        · exact .inl rfl
        · exact .inr ⟨.inl hj, fun heq => hholds (heq ▸ hj)⟩
        · exact hj.elim
      · rintro (hj | ⟨hj | hj, hne⟩)
        · exact .inl (.inl ⟨some.inj hj, f, hf, rfl⟩)
        · exact .inl (.inr ⟨fun heq => hdisjoint n (hnext n hn) (.inl (heq ▸ hj)), hj⟩)
        · exact absurd hj hne
    · unfold waitsGlobal
      rw [has_grant]
      constructor
      · rintro (⟨-, f', -, hf'⟩ | ⟨hne, hj⟩)
        · exact absurd hf' Stage.noConfusion
        · exact ⟨hj, fun heq => hne (some.inj heq)⟩
      · rintro ⟨hj, hne⟩
        exact .inr ⟨fun heq => hne (heq ▸ rfl), hj⟩
    · unfold holdsHost
      rw [hsame _ (by simp [hstage, Stage.hasHost])]
    · unfold waitsHost
      rw [hsame _ (by simp [hstage])]

theorem setFetch_fresh (h : ∀ id, s.next ≤ id → s.fetches id = none) (hid : id < s.next) (g : Fetch) (j : Nat) (hj : s.next ≤ j) :
    (s.setFetch id g).fetches j = none := by
  show update s.fetches id (some g) j = none
  rw [update_of_ne (by omega)]
  exact h j hj

theorem fresh_lt (h : ∀ id, s.next ≤ id → s.fetches id = none) (hf : s.fetches id = some f) : id < s.next := by
  by_contra hnot
  exact absurd ((h id (by omega)).symm.trans hf) (some_ne_none f).symm

theorem acquireHost_permits (h : s.Permits) (hf : s.fetches id = some f) (hstage : f.stage = .grantedGlobal) : (s.acquireHost id f).Permits := by
  have hid := fresh_lt h.fresh hf
  have hhas : ∀ p : Fetch → Prop, s.has p id ↔ p f := fun p =>
    ⟨fun ⟨f', hf', hp⟩ => some.inj (hf.symm.trans hf') ▸ hp, fun hp => ⟨f, hf, hp⟩⟩
  have hholds : ∀ k, ¬ s.holdsHost k id := fun k hk => absurd ((hhas _).mp hk).2 (by simp [hstage, Stage.hasHost])
  have hwaits : ∀ k, ¬ s.waitsHost k id := fun k hk => absurd ((hhas _).mp hk).2 (by simp [hstage])
  have hhost := h.hosts f.current.hostname
  have hbusy := @Semaphore.acquire_busy _ 2 ((s.hosts f.current.hostname).getD .empty) id
  unfold acquireHost
  dsimp only
  rw [Semaphore.acquire_snd]
  have hkept : ∀ k semaphore, update s.hosts f.current.hostname (some (((s.hosts f.current.hostname).getD .empty).acquire 2 id).1) k =
      some semaphore → semaphore.idle = false := by
    intro k semaphore hk
    by_cases hname : k = f.current.hostname
    · rw [hname, update_self] at hk
      exact some.inj hk ▸ hbusy
    · rw [update_of_ne hname] at hk
      exact h.kept k semaphore hk
  by_cases hlt : ((s.hosts f.current.hostname).getD .empty).active < 2
  · rw [if_pos (decide_eq_true hlt)]
    have hacquired := hhost.acquire_granted hlt (fun hj => hj.elim (hholds _) fun hj => hj)
    refine ⟨?_, fun k => ?_, hkept, setFetch_fresh h.fresh hid _⟩
    · exact h.global.congr (fun j => or_congr (has_setFetch_iff hf (by simp [hstage, Stage.hasGlobal]) j) Iff.rfl)
        fun j => has_setFetch_iff hf (by simp [hstage]) j
    · show ((update s.hosts f.current.hostname _ k).getD .empty).Accounts 2 _ _
      by_cases hname : k = f.current.hostname
      · subst hname
        rw [update_self]
        refine hacquired.congr (fun j => ?_) fun j => has_setFetch_iff hf (by simp [hstage]) j
        show ((s.setFetch id _).has _ j ∨ False) ↔ _
        rw [has_setFetch]
        constructor
        · rintro ((⟨rfl, -⟩ | ⟨-, hj⟩) | hj)
          · exact .inl rfl
          · exact .inr (.inl hj)
          · exact hj.elim
        · rintro (rfl | hj | hj)
          · exact .inl (.inl ⟨rfl, rfl, rfl⟩)
          · exact .inl (.inr ⟨fun heq => hholds _ (heq ▸ hj), hj⟩)
          · exact hj.elim
      · rw [update_of_ne hname]
        exact (h.hosts k).congr (fun j => or_congr (has_setFetch_iff hf (by simp [Ne.symm hname]) j) Iff.rfl)
          fun j => has_setFetch_iff hf (by simp [Ne.symm hname]) j
  · rw [if_neg (by simpa using hlt)]
    have hacquired := hhost.acquire_queued hlt (hwaits _)
    refine ⟨?_, fun k => ?_, hkept, setFetch_fresh h.fresh hid _⟩
    · exact h.global.congr (fun j => or_congr (has_setFetch_iff hf (by simp [hstage, Stage.hasGlobal]) j) Iff.rfl)
        fun j => has_setFetch_iff hf (by simp [hstage]) j
    · show ((update s.hosts f.current.hostname _ k).getD .empty).Accounts 2 _ _
      by_cases hname : k = f.current.hostname
      · subst hname
        rw [update_self]
        refine hacquired.congr (fun j => or_congr (has_setFetch_iff hf (by simp [hstage, Stage.hasHost]) j) Iff.rfl) fun j => ?_
        show (s.setFetch id _).has _ j ↔ _
        rw [has_setFetch]
        constructor
        · rintro (⟨rfl, -⟩ | ⟨-, hj⟩)
          · exact .inl rfl
          · exact .inr hj
        · rintro (rfl | hj)
          · exact .inl ⟨rfl, rfl, rfl⟩
          · exact .inr ⟨fun heq => hwaits _ (heq ▸ hj), hj⟩
      · rw [update_of_ne hname]
        exact (h.hosts k).congr (fun j => or_congr (has_setFetch_iff hf (by simp [Ne.symm hname]) j) Iff.rfl)
          fun j => has_setFetch_iff hf (by simp [Ne.symm hname]) j

/-! ## The steps of a fetch -/

theorem has_at (hf : s.fetches id = some f) : s.has p id ↔ p f :=
  ⟨fun ⟨_, hf', hp⟩ => some.inj (hf.symm.trans hf') ▸ hp, fun hp => ⟨f, hf, hp⟩⟩

theorem setFetch_self (s : State) (id : Nat) (f : Fetch) : (s.setFetch id f).fetches id = some f := update_self ..

theorem left_permits (h : s.Permits) (hf : s.fetches id = some f) (hhas : f.stage.hasHost = true) (hstage : g.stage = .grantedGlobal) :
    (s.setFetch id g).PermitsAnd nobody fun k j => k = f.current.hostname ∧ j = id := by
  have hglobal : f.stage.hasGlobal = true ∧ f.stage ≠ .waitingGlobal ∧ f.stage ≠ .waitingHost := by
    cases hf' : f.stage <;> simp_all [Stage.hasHost, Stage.hasGlobal]
  refine ⟨h.global.congr (fun j => or_congr (has_setFetch_iff hf (by rw [hstage, hglobal.1]; rfl) j) Iff.rfl)
    fun j => has_setFetch_iff hf (by simp [hstage, hglobal]) j, fun k => (h.hosts k).congr (fun j => ?_) fun j => ?_, h.kept,
    setFetch_fresh h.fresh (fresh_lt h.fresh hf) _⟩
  · unfold holdsHost
    rw [has_setFetch, nowhere]
    by_cases hj : j = id
    · subst hj
      rw [has_at hf]
      simpa [hhas, hstage] using eq_comm
    · simp [hj]
  · exact has_setFetch_iff hf (by simp [hstage, hglobal]) j

theorem settled_permits (h : s.Permits) (hf : s.fetches id = some f) (hhas : f.stage.hasHost = true) (ok : Bool) :
    (s.setFetch id { f with stage := .settled ok }).PermitsAnd (fun j => j = id) fun k j => k = f.current.hostname ∧ j = id := by
  have hglobal : f.stage.hasGlobal = true ∧ f.stage ≠ .waitingGlobal ∧ f.stage ≠ .waitingHost := by
    cases hf' : f.stage <;> simp_all [Stage.hasHost, Stage.hasGlobal]
  refine ⟨h.global.congr (fun j => ?_) fun j => has_setFetch_iff hf (by simp [hglobal]) j,
    fun k => (h.hosts k).congr (fun j => ?_) fun j => has_setFetch_iff hf (by simp [hglobal]) j, h.kept,
    setFetch_fresh h.fresh (fresh_lt h.fresh hf) _⟩
  · unfold holdsGlobal
    rw [has_setFetch, nobody]
    by_cases hj : j = id
    · subst hj
      rw [has_at hf]
      simp [hglobal]
    · simp [hj]
  · unfold holdsHost
    rw [has_setFetch, nowhere]
    by_cases hj : j = id
    · subst hj
      rw [has_at hf]
      simpa [hhas] using eq_comm
    · simp [hj]

theorem Grants.same (h : Grants s s') (hf : s.fetches id = some f) (hglobal : f.stage ≠ .waitingGlobal) (hhost : f.stage ≠ .waitingHost) :
    s'.fetches id = some f := by
  obtain hsame | ⟨f', -, hf', hwaits, -, -⟩ := h.fetches id
  · exact hsame.trans hf
  · obtain rfl := some.inj (hf.symm.trans hf')
    rcases hwaits with hwaits | hwaits
    · exact absurd hwaits hglobal
    · exact absurd hwaits hhost

theorem settle_permits (h : s.Permits) (hf : s.fetches id = some f) (hhas : f.stage.hasHost = true) (ok : Bool) :
    (s.settle id f ok).Permits ∧ Grants (s.setFetch id { f with stage := .settled ok }) (s.settle id f ok) := by
  have hself := setFetch_self s id { f with stage := .settled ok }
  obtain ⟨hreleased, hgrants⟩ := releaseHost_permits (settled_permits h hf hhas ok) (fun hk => Bool.false_ne_true ((has_at hself).mp hk).2)
    (fun hk => Stage.noConfusion ((has_at hself).mp hk).2)
  have hself' := hgrants.same hself Stage.noConfusion Stage.noConfusion
  obtain ⟨hdone, hgrants'⟩ := releaseGlobal_permits hreleased (fun hk => Bool.false_ne_true ((has_at hself').mp hk))
    (fun hk => Stage.noConfusion ((has_at hself').mp hk))
  exact ⟨hdone, hgrants.trans hgrants'⟩

theorem moved_permits (h : s.Permits) (hf : s.fetches id = some f) (hhas : f.stage.hasHost = true) (hstage : g.stage = .grantedGlobal) :
    (((s.setFetch id g).releaseHost f.current.hostname).acquireHost id g).Permits ∧
      ∃ t, Grants (s.setFetch id g) t ∧ t.fetches id = some g ∧ ((s.setFetch id g).releaseHost f.current.hostname).acquireHost id g = t.acquireHost id g := by
  have hself := setFetch_self s id g
  have hsilent : g.stage.hasHost ≠ true ∧ g.stage ≠ .waitingGlobal ∧ g.stage ≠ .waitingHost := by simp [hstage]
  obtain ⟨hreleased, hgrants⟩ := releaseHost_permits (left_permits h hf hhas hstage) (fun hk => hsilent.1 ((has_at hself).mp hk).2)
    (fun hk => hsilent.2.2 ((has_at hself).mp hk).2)
  have hself' := hgrants.same hself hsilent.2.1 hsilent.2.2
  exact ⟨acquireHost_permits hreleased hself' hstage, _, hgrants, hself', rfl⟩

theorem safeFetch_permits (h : s.Permits) (page : Bool) (owner : Owner) (url : Url) : (s.safeFetch page owner url).Permits := by
  have hnone : ∀ p : Fetch → Prop, ¬ s.has p s.next := fun p ⟨f, hf, _⟩ =>
    absurd ((h.fresh s.next (Nat.le_refl _)).symm.trans hf) (some_ne_none f).symm
  unfold safeFetch
  dsimp only
  rw [Semaphore.acquire_snd]
  have hkeeps : ∀ (p : Fetch → Prop) (g : Fetch), ¬ p g → ∀ j, (s.setFetch s.next g).has p j ↔ s.has p j := by
    intro p g hp j
    rw [has_setFetch]
    by_cases hj : j = s.next
    · subst hj
      simp [hp, hnone p]
    · simp [hj]
  have hfresh : ∀ g j, s.next + 1 ≤ j → (s.setFetch s.next g).fetches j = none := fun g j hj => by
    show update s.fetches s.next (some g) j = none
    rw [update_of_ne (by omega)]
    exact h.fresh j (by omega)
  by_cases hlt : s.global.active < 8
  · rw [if_pos (decide_eq_true hlt)]
    refine ⟨(h.global.acquire_granted hlt fun hj => hj.elim (hnone _) fun hj => hj).congr (fun j => ?_) fun j => hkeeps _ _ (by simp) j,
      fun k => (h.hosts k).congr (fun j => or_congr (hkeeps _ _ (by simp) j) Iff.rfl) fun j => hkeeps _ _ (by simp) j, h.kept, hfresh _⟩
    show ((s.setFetch s.next _).has _ j ∨ False) ↔ _
    rw [has_setFetch]
    constructor
    · rintro ((⟨rfl, -⟩ | ⟨-, hj⟩) | hj)
      · exact .inl rfl
      · exact .inr (.inl hj)
      · exact hj.elim
    · rintro (rfl | hj | hj)
      · exact .inl (.inl ⟨rfl, rfl⟩)
      · exact .inl (.inr ⟨fun heq => hnone _ (heq ▸ hj), hj⟩)
      · exact hj.elim
  · rw [if_neg (by simpa using hlt)]
    refine ⟨(h.global.acquire_queued hlt (hnone _)).congr (fun j => or_congr (hkeeps _ _ (by simp [Stage.hasGlobal]) j) Iff.rfl) fun j => ?_,
      fun k => (h.hosts k).congr (fun j => or_congr (hkeeps _ _ (by simp [Stage.hasHost]) j) Iff.rfl) fun j => hkeeps _ _ (by simp) j,
      h.kept, hfresh _⟩
    show (s.setFetch s.next _).has _ j ↔ _
    rw [has_setFetch]
    constructor
    · rintro (⟨rfl, -⟩ | ⟨-, hj⟩)
      · exact .inl rfl
      · exact .inr hj
    · rintro (rfl | hj)
      · exact .inl ⟨rfl, rfl⟩
      · exact .inr ⟨fun heq => hnone _ (heq ▸ hj), hj⟩

theorem drop_permits {ok : Bool} (h : s.Permits) (hf : s.fetches id = some f) (hstage : f.stage = .settled ok) : (s.drop id).Permits := by
  have hsame : ∀ p : Fetch → Prop, ¬ p f → ∀ j, (s.drop id).has p j ↔ s.has p j := by
    intro p hp j
    unfold has drop
    by_cases hj : j = id
    · subst hj
      simp [hf, hp]
    · simp [hj]
  refine ⟨h.global.congr (fun j => or_congr (hsame _ (by simp [hstage]) j) Iff.rfl) fun j => hsame _ (by simp [hstage]) j,
    fun k => (h.hosts k).congr (fun j => or_congr (hsame _ (by simp [hstage]) j) Iff.rfl) fun j => hsame _ (by simp [hstage]) j, h.kept, fun j hj => ?_⟩
  show update s.fetches id none j = none
  by_cases hid : j = id
  · rw [hid, update_self]
  · rw [update_of_ne hid]
    exact h.fresh j hj

theorem PermitsAnd.of_eq (h : s.Permits) (hglobal : s'.global = s.global) (hhosts : s'.hosts = s.hosts) (hnext : s.next ≤ s'.next)
    (hfetches : s'.fetches = s.fetches) : s'.Permits := by
  have hhas : s'.has = s.has := funext fun p => has_congr hfetches p
  unfold Permits at *
  refine ⟨?_, fun k => ?_, fun k => ?_, fun j hj => ?_⟩
  · unfold holdsGlobal waitsGlobal
    rw [hglobal, hhas]
    exact h.global
  · unfold holdsHost waitsHost
    rw [hhosts, hhas]
    exact h.hosts k
  · rw [hhosts]
    exact h.kept k
  · rw [hfetches]
    exact h.fresh j (Nat.le_trans hnext hj)

end State

end Cantrip.Web
