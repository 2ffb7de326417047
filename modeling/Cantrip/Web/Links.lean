import Cantrip.Web.Permits

/-!
# Who waits for whom

Each fetch is waited for by one read, or by the hook of one page (`Links`), and rules have no hook. A step that only
changes how far fetches are leaves this as it is (`Restages`).
-/

namespace Cantrip.Web

open Lib Option Function

/-- The fetch of rules that a hook waits for. -/
def Stage.robots? : Stage → Option Nat
  | .beforeRequest robots => some robots
  | _ => none

theorem robots_eq_some {stage : Stage} {c : Nat} : stage.robots? = some c ↔ stage = .beforeRequest c := by
  cases stage <;> simp [Stage.robots?]

namespace State

variable {s s' s'' : State} {id c r : Nat} {f g : Fetch}

structure Links (s : State) : Prop where
  /-- A fetch of a read is what the read waits for. -/
  reading : ∀ id f r, s.fetches id = some f → f.owner = .task r →
    ∃ phase, s.tasks r = some phase ∧ phase.fetch? = some id
  /-- A fetch of a hook is what the hook waits for, and has none itself. -/
  hooking : ∀ id f p, s.fetches id = some f → f.owner = .hook p →
    f.page = false ∧ ∃ g, s.fetches p = some g ∧ g.stage.robots? = some id
  read : ∀ r phase c, s.tasks r = some phase → phase.fetch? = some c → ∃ f, s.fetches c = some f ∧ f.owner = .task r
  hooked : ∀ p g c, s.fetches p = some g → g.stage.robots? = some c →
    g.page = true ∧ ∃ f, s.fetches c = some f ∧ f.owner = .hook p
  fresh : ∀ r, s.next ≤ r → s.tasks r = none

theorem links_start : start.Links :=
  ⟨fun _ f _ h => absurd h (some_ne_none f).symm, fun _ f _ h => absurd h (some_ne_none f).symm,
    fun _ phase _ h => absurd h (some_ne_none phase).symm, fun _ f _ h => absurd h (some_ne_none f).symm,
      fun _ _ => rfl⟩

/-- Fetches are further, and nothing else has changed. -/
structure Restages (s s' : State) : Prop where
  tasks : s'.tasks = s.tasks
  next : s'.next = s.next
  fetches : ∀ j, s'.fetches j = s.fetches j ∨ ∃ f f', s.fetches j = some f ∧ s'.fetches j = some f' ∧
    f'.page = f.page ∧ f'.owner = f.owner ∧
    f.stage.robots? = none ∧ f'.stage.robots? = none

theorem Restages.trans (h : Restages s s') (h' : Restages s' s'') : Restages s s'' := by
  refine ⟨h'.tasks.trans h.tasks, h'.next.trans h.next, fun j => ?_⟩
  obtain hsame' | ⟨f', f'', hf', hf'', hpage', howner', hrobots', hrobots''⟩ := h'.fetches j
  · rw [hsame']
    exact h.fetches j
  · obtain hsame | ⟨f, g, hf, hg, hpage, howner, hrobots, -⟩ := h.fetches j
    · exact .inr ⟨f', f'', hsame ▸ hf', hf'', hpage', howner', hrobots', hrobots''⟩
    · obtain rfl := some.inj (hg.symm.trans hf')
      exact .inr ⟨f, f'', hf, hf'', hpage'.trans hpage, howner'.trans howner, hrobots, hrobots''⟩

theorem restages_setFetch (hf : s.fetches id = some f) (hpage : g.page = f.page) (howner : g.owner = f.owner)
    (hrobots : f.stage.robots? = none)
    (hrobots' : g.stage.robots? = none) : Restages s (s.setFetch id g) := by
  refine ⟨rfl, rfl, fun j => ?_⟩
  by_cases hj : j = id
  · subst hj
    exact .inr ⟨f, g, hf, setFetch_self s j g, hpage, howner, hrobots, hrobots'⟩
  · exact .inl (update_of_ne hj ..)

theorem Grants.restages (h : Grants s s') : Restages s s' := by
  refine ⟨h.tasks, h.next, fun j => ?_⟩
  obtain hsame | ⟨f, stage, hf, hwaits, hgranted, hset⟩ := h.fetches j
  · exact .inl hsame
  · refine .inr ⟨f, _, hf, hset, rfl, rfl, ?_, ?_⟩
    · rcases hwaits with hwaits | hwaits <;> rw [hwaits] <;> rfl
    · rcases hgranted with rfl | rfl <;> rfl

theorem Links.restages (h : s.Links) (hr : Restages s s') : s'.Links := by
  have hforth : ∀ j f', s'.fetches j = some f' → ∃ f, s.fetches j = some f ∧ f'.page = f.page ∧ f'.owner = f.owner ∧
      f'.stage.robots? = f.stage.robots? := by
    intro j f' hf'
    obtain hsame | ⟨f, f'', hf, hf'', hpage, howner, hrobots, hrobots'⟩ := hr.fetches j
    · exact ⟨f', hsame ▸ hf', rfl, rfl, rfl⟩
    · obtain rfl := some.inj (hf''.symm.trans hf')
      exact ⟨f, hf, hpage, howner, hrobots'.trans hrobots.symm⟩
  have hback : ∀ j f, s.fetches j = some f → ∃ f', s'.fetches j = some f' ∧ f'.owner = f.owner ∧
    f'.stage.robots? = f.stage.robots? := by
    intro j f hf
    obtain hsame | ⟨f', f'', hf', hf'', -, howner, hrobots, hrobots'⟩ := hr.fetches j
    · exact ⟨f, hsame.trans hf, rfl, rfl⟩
    · obtain rfl := some.inj (hf.symm.trans hf')
      exact ⟨f'', hf'', howner, hrobots'.trans hrobots.symm⟩
  refine ⟨fun id f' r hf' howner => ?_, fun id f' p hf' howner => ?_, fun r phase c hread hphase => ?_,
    fun p g' c hg' hrobots => ?_, fun r hlt => ?_⟩
  · obtain ⟨f, hf, -, hsame, -⟩ := hforth id f' hf'
    rw [hr.tasks]
    exact h.reading id f r hf (hsame.symm.trans howner)
  · obtain ⟨f, hf, hpage, hsame, -⟩ := hforth id f' hf'
    obtain ⟨hnot, g, hg, hwaits⟩ := h.hooking id f p hf (hsame.symm.trans howner)
    obtain ⟨g', hg', -, hrobots⟩ := hback p g hg
    exact ⟨hpage.trans hnot, g', hg', hrobots.trans hwaits⟩
  · rw [hr.tasks] at hread
    obtain ⟨f, hf, howner⟩ := h.read r phase c hread hphase
    obtain ⟨f', hf', hsame, -⟩ := hback c f hf
    exact ⟨f', hf', hsame.trans howner⟩
  · obtain ⟨g, hg, hpage, -, hsame⟩ := hforth p g' hg'
    obtain ⟨hhook, f, hf, howner⟩ := h.hooked p g c hg (hsame.symm.trans hrobots)
    obtain ⟨f', hf', hsame', -⟩ := hback c f hf
    exact ⟨hpage.trans hhook, f', hf', hsame'.trans howner⟩
  · rw [hr.tasks]
    exact h.fresh r (hr.next ▸ hlt)

theorem safeFetch_fetches (s : State) (page : Bool) (owner : Owner) (url : Url) :
    ∃ g, (s.safeFetch page owner url).fetches = update s.fetches s.next (some g) ∧
    g.page = page ∧ g.owner = owner ∧ g.stage.robots? = none := by
  unfold safeFetch
  dsimp only
  refine ⟨_, rfl, rfl, rfl, ?_⟩
  dsimp only
  split <;> rfl

theorem links_read {phase : Phase} (h : s.Links) (hfresh : ∀ id, s.next ≤ id → s.fetches id = none) (page : Bool)
    (url : Url) (hid : r < s.next) (hidle : ∀ phase, s.tasks r = some phase → phase.fetch? = none)
    (hphase : phase.fetch? = some s.next) :
    ((s.setTask r (some phase)).safeFetch page (.task r) url).Links := by
  obtain ⟨g, hfetches, hpage, howner, hrobots⟩ := safeFetch_fetches (s.setTask r (some phase)) page (.task r) url
  change _ = update s.fetches s.next (some g) at hfetches
  have hnew : s.fetches s.next = none := hfresh s.next (Nat.le_refl _)
  have hold : ∀ j f, s.fetches j = some f → j ≠ s.next :=
    fun j f hf heq => absurd (hnew.symm.trans (heq ▸ hf)) (some_ne_none f).symm
  have hreads : ∀ j, j ≠ r → ((s.setTask r (some phase)).safeFetch page (.task r) url).tasks j = s.tasks j :=
    fun j hj => update_of_ne hj ..
  have hself : ((s.setTask r (some phase)).safeFetch page (.task r) url).tasks r = some phase := update_self ..
  have hother : ∀ j, j ≠ s.next → update s.fetches s.next (some g) j = s.fetches j := fun j hj => update_of_ne hj ..
  refine ⟨fun id f k hf hread => ?_, fun id f p hf hhook => ?_, fun k other c hread hc => ?_, fun p g' c hg' hc => ?_,
    fun k hk => ?_⟩
  · rw [hfetches] at hf
    by_cases hj : id = s.next
    · rw [hj, update_self] at hf
      obtain rfl := some.inj hf
      obtain rfl : r = k := Owner.task.inj (howner.symm.trans hread)
      exact ⟨phase, hself, hj ▸ hphase⟩
    · rw [hother id hj] at hf
      obtain ⟨other, hk, hwaits⟩ := h.reading id f k hf hread
      have hne : k ≠ r := fun heq => absurd ((hidle other (heq ▸ hk)).symm.trans hwaits) (some_ne_none id).symm
      exact ⟨other, (hreads k hne).trans hk, hwaits⟩
  · rw [hfetches] at hf ⊢
    by_cases hj : id = s.next
    · rw [hj, update_self] at hf
      obtain rfl := some.inj hf
      exact absurd (howner.symm.trans hhook) Owner.noConfusion
    · rw [hother id hj] at hf
      obtain ⟨hnot, g', hg', hwaits⟩ := h.hooking id f p hf hhook
      exact ⟨hnot, g', (hother p (hold p g' hg')).trans hg', hwaits⟩
  · rw [hfetches]
    by_cases hk : k = r
    · subst hk
      obtain rfl := some.inj (hself.symm.trans hread)
      obtain rfl := some.inj (hphase.symm.trans hc)
      exact ⟨g, update_self .., howner⟩
    · rw [hreads k hk] at hread
      obtain ⟨f, hf, hread'⟩ := h.read k other c hread hc
      exact ⟨f, (hother c (hold c f hf)).trans hf, hread'⟩
  · rw [hfetches] at hg' ⊢
    by_cases hj : p = s.next
    · rw [hj, update_self] at hg'
      obtain rfl := some.inj hg'
      exact absurd (hrobots.symm.trans hc) (some_ne_none c).symm
    · rw [hother p hj] at hg'
      obtain ⟨hhook, f, hf, howner'⟩ := h.hooked p g' c hg' hc
      exact ⟨hhook, f, (hother c (hold c f hf)).trans hf, howner'⟩
  · change s.next + 1 ≤ k at hk
    rw [hreads k (by omega)]
    exact h.fresh k (by omega)

theorem links_hook (h : s.Links) (hfresh : ∀ id, s.next ≤ id → s.fetches id = none) (hf : s.fetches id = some f)
    (hpage : f.page = true)
    (hrobots : f.stage.robots? = none) (url : Url) :
    ((s.setFetch id { f with stage := .beforeRequest s.next }).safeFetch false (.hook id) url).Links := by
  obtain ⟨g, hfetches, hnot, howner, hnone⟩ :=
    safeFetch_fetches (s.setFetch id { f with stage := .beforeRequest s.next }) false (.hook id) url
  change _ = update (update s.fetches id (some { f with stage := .beforeRequest s.next })) s.next (some g) at hfetches
  have hnew : s.fetches s.next = none := hfresh s.next (Nat.le_refl _)
  have hold : ∀ j f, s.fetches j = some f → j ≠ s.next :=
    fun j f hf heq => absurd (hnew.symm.trans (heq ▸ hf)) (some_ne_none f).symm
  generalize hafter : (s.setFetch id { f with stage := .beforeRequest s.next }).safeFetch
    false (.hook id) url = after at hfetches
  have hreads : after.tasks = s.tasks := by rw [← hafter]; rfl
  have hnext : after.next = s.next + 1 := by rw [← hafter]; rfl
  have hat : after.fetches s.next = some g := by rw [hfetches, update_self]
  have hid : after.fetches id = some { f with stage := .beforeRequest s.next } := by
    rw [hfetches, update_of_ne (hold id f hf), update_self]
  have hother : ∀ j, j ≠ s.next → j ≠ id → after.fetches j = s.fetches j := fun j hj hj' => by
    rw [hfetches, update_of_ne hj, update_of_ne hj']
  have hback : ∀ j k, s.fetches j = some k → ∃ k', after.fetches j = some k' ∧ k'.owner = k.owner ∧ k'.page = k.page ∧
      (k.stage.robots? ≠ none → k' = k) := by
    intro j k hk
    by_cases hj : j = id
    · subst hj
      obtain rfl := some.inj (hf.symm.trans hk)
      exact ⟨_, hid, rfl, rfl, fun hne => absurd hrobots hne⟩
    · exact ⟨k, (hother j (hold j k hk) hj).trans hk, rfl, rfl, fun _ => rfl⟩
  have hforth : ∀ j k', after.fetches j = some k' → (j = s.next ∧ k' = g) ∨
    (j = id ∧ k' = { f with stage := .beforeRequest s.next }) ∨ s.fetches j = some k' := by
    intro j k' hk'
    by_cases hj : j = s.next
    · exact .inl ⟨hj, some.inj ((hj ▸ hk').symm.trans hat)⟩
    · by_cases hj' : j = id
      · exact .inr (.inl ⟨hj', some.inj ((hj' ▸ hk').symm.trans hid)⟩)
      · exact .inr (.inr ((hother j hj hj').symm.trans hk'))
  refine ⟨fun j k r hk hread => ?_, fun j k p hk hhook => ?_, fun r phase c hread hc => ?_, fun p k c hk hc => ?_,
    fun r hr => ?_⟩
  · rw [hreads]
    obtain ⟨-, rfl⟩ | ⟨rfl, rfl⟩ | hk := hforth j k hk
    · exact absurd (howner.symm.trans hread) Owner.noConfusion
    · exact h.reading j f r hf hread
    · exact h.reading j k r hk hread
  · obtain ⟨rfl, rfl⟩ | ⟨rfl, rfl⟩ | hk := hforth j k hk
    · obtain rfl : id = p := Owner.hook.inj (howner.symm.trans hhook)
      exact ⟨hnot, _, hid, rfl⟩
    · exact absurd (hpage.symm.trans (h.hooking j f p hf hhook).1).symm Bool.false_ne_true
    · obtain ⟨hrules, g', hg', hwaits⟩ := h.hooking j k p hk hhook
      obtain ⟨g'', hg'', -, -, hsame⟩ := hback p g' hg'
      obtain rfl := hsame (by rw [hwaits]; exact some_ne_none j)
      exact ⟨hrules, g'', hg'', hwaits⟩
  · rw [hreads] at hread
    obtain ⟨k, hk, howner'⟩ := h.read r phase c hread hc
    obtain ⟨k', hk', hsame, -⟩ := hback c k hk
    exact ⟨k', hk', hsame.trans howner'⟩
  · obtain ⟨-, rfl⟩ | ⟨rfl, rfl⟩ | hk := hforth p k hk
    · exact absurd (hnone.symm.trans hc) (some_ne_none c).symm
    · obtain rfl : s.next = c := some.inj hc
      exact ⟨hpage, g, hat, howner⟩
    · obtain ⟨hpage', k', hk', howner'⟩ := h.hooked p k c hk hc
      obtain ⟨k'', hk'', hsame, -⟩ := hback c k' hk'
      exact ⟨hpage', k'', hk'', hsame.trans howner'⟩
  · rw [hreads]
    exact h.fresh r (by omega)

theorem drop_fetches (s : State) (c : Nat) {j : Nat} (hj : j ≠ c) :
    (s.drop c).fetches j = s.fetches j := update_of_ne hj ..

theorem drop_self (s : State) (c : Nat) : (s.drop c).fetches c = none := update_self ..

theorem links_unhook (h : s.Links) (hf : s.fetches id = some f) (hrobots : f.stage.robots? = some c)
    (hpage : g.page = f.page)
    (howner : g.owner = f.owner) (hnone : g.stage.robots? = none) : ((s.drop c).setFetch id g).Links := by
  obtain ⟨hhook, k, hk, hkowner⟩ := h.hooked id f c hf hrobots
  obtain ⟨hrules, -⟩ := h.hooking c k id hk hkowner
  have hne : id ≠ c := by
    rintro rfl
    obtain rfl := some.inj (hf.symm.trans hk)
    exact absurd (hhook.symm.trans hrules).symm Bool.false_ne_true
  have hid : ((s.drop c).setFetch id g).fetches id = some g := update_self ..
  have hc : ((s.drop c).setFetch id g).fetches c = none := (update_of_ne (Ne.symm hne) ..).trans (drop_self s c)
  have hother : ∀ j, j ≠ c → j ≠ id → ((s.drop c).setFetch id g).fetches j = s.fetches j := fun j hj hj' =>
    (update_of_ne hj' ..).trans (drop_fetches s c hj)
  generalize hafter : (s.drop c).setFetch id g = after at *
  have hreads : after.tasks = s.tasks := by rw [← hafter]; rfl
  have hnext : after.next = s.next := by rw [← hafter]; rfl
  have hforth : ∀ j k', after.fetches j = some k' → j ≠ c ∧ ((j = id ∧ k' = g) ∨ (j ≠ id ∧ s.fetches j = some k')) := by
    intro j k' hk'
    have hj : j ≠ c := fun heq => absurd (hc.symm.trans (heq ▸ hk')) (some_ne_none k').symm
    by_cases hj' : j = id
    · exact ⟨hj, .inl ⟨hj', some.inj ((hj' ▸ hk').symm.trans hid)⟩⟩
    · exact ⟨hj, .inr ⟨hj', (hother j hj hj').symm.trans hk'⟩⟩
  have hback : ∀ j k', s.fetches j = some k' → j ≠ c → ∃ k'', after.fetches j = some k'' ∧ k''.owner = k'.owner ∧
    (j ≠ id → k'' = k') := by
    intro j k' hk' hj
    by_cases hj' : j = id
    · subst hj'
      obtain rfl := some.inj (hf.symm.trans hk')
      exact ⟨g, hid, howner, fun hne => absurd rfl hne⟩
    · exact ⟨k', (hother j hj hj').trans hk', rfl, fun _ => rfl⟩
  refine ⟨fun j k' r hk' hread => ?_, fun j k' p hk' hp => ?_, fun r phase c' hread hc' => ?_,
    fun p k' c' hk' hc' => ?_, fun r hr => ?_⟩
  · rw [hreads]
    obtain ⟨-, ⟨rfl, rfl⟩ | ⟨-, hk''⟩⟩ := hforth j k' hk'
    · exact h.reading j f r hf (howner.symm.trans hread)
    · exact h.reading j k' r hk'' hread
  · obtain ⟨hj, ⟨rfl, rfl⟩ | ⟨-, hk''⟩⟩ := hforth j k' hk'
    · exact absurd (hhook.symm.trans (h.hooking j f p hf (howner.symm.trans hp)).1).symm Bool.false_ne_true
    · obtain ⟨hrules', g', hg', hwaits⟩ := h.hooking j k' p hk'' hp
      have hp' : p ≠ id := by
        rintro rfl
        obtain rfl := some.inj (hf.symm.trans hg')
        exact hj (some.inj (hwaits.symm.trans hrobots))
      have hpc : p ≠ c := by
        rintro rfl
        obtain rfl := some.inj (hk.symm.trans hg')
        exact absurd ((h.hooked p k j hk hwaits).1.symm.trans hrules).symm Bool.false_ne_true
      exact ⟨hrules', g', (hother p hpc hp').trans hg', hwaits⟩
  · rw [hreads] at hread
    obtain ⟨k', hk', hread'⟩ := h.read r phase c' hread hc'
    have hne' : c' ≠ c := by
      rintro rfl
      obtain rfl := some.inj (hk.symm.trans hk')
      exact absurd (hkowner.symm.trans hread') Owner.noConfusion
    obtain ⟨k'', hk'', hsame, -⟩ := hback c' k' hk' hne'
    exact ⟨k'', hk'', hsame.trans hread'⟩
  · obtain ⟨hp, ⟨rfl, rfl⟩ | ⟨hp', hk''⟩⟩ := hforth p k' hk'
    · exact absurd (hnone.symm.trans hc') (some_ne_none c').symm
    · obtain ⟨hhook', k'', hk'', howner'⟩ := h.hooked p k' c' hk'' hc'
      have hne' : c' ≠ c := by
        rintro rfl
        obtain rfl := some.inj (hk.symm.trans hk'')
        exact hp' (Owner.hook.inj (howner'.symm.trans hkowner))
      obtain ⟨k₃, hk₃, hsame, -⟩ := hback c' k'' hk'' hne'
      exact ⟨hhook', k₃, hk₃, hsame.trans howner'⟩
  · rw [hreads]
    exact h.fresh r (hnext ▸ hr)

theorem links_unread {phase' : Option Phase} (h : s.Links) (hid : r < s.next)
    (hdropped : ∀ phase c, s.tasks r = some phase → phase.fetch? = some c →
      ∃ f, s.fetches c = some f ∧ f.stage.robots? = none)
    (hphase' : ∀ phase, phase' = some phase → phase.fetch? = none) (s' : State)
    (hreads : s'.tasks = update s.tasks r phase') (hnext : s'.next = s.next)
    (hfetches : ∀ j, s'.fetches j = if (s.tasks r).bind Phase.fetch? = some j then none else s.fetches j) :
    s'.Links := by
  have hforth : ∀ j k, s'.fetches j = some k → (s.tasks r).bind Phase.fetch? ≠ some j ∧ s.fetches j = some k := by
    intro j k hk
    rw [hfetches] at hk
    obtain ⟨hnot, heq⟩ := ite_none_left_eq_some.mp hk
    exact ⟨hnot, heq⟩
  have hback : ∀ j, (s.tasks r).bind Phase.fetch? ≠ some j → s'.fetches j = s.fetches j :=
    fun j hj => by rw [hfetches, if_neg hj]
  have howned : ∀ j, (s.tasks r).bind Phase.fetch? = some j → ∃ k, s.fetches j = some k ∧ k.owner = .task r ∧
    k.stage.robots? = none := by
    intro j hj
    obtain ⟨phase, hread, hphase⟩ := bind_eq_some_iff.mp hj
    obtain ⟨k, hk, howner⟩ := h.read r phase j hread hphase
    obtain ⟨k', hk', hrobots⟩ := hdropped phase j hread hphase
    obtain rfl := some.inj (hk.symm.trans hk')
    exact ⟨k, hk, howner, hrobots⟩
  have hother : ∀ j, j ≠ r → s'.tasks j = s.tasks j := fun j hj => by rw [hreads, update_of_ne hj]
  refine ⟨fun j k r' hk hread => ?_, fun j k p hk hp => ?_, fun r' phase c hread hc => ?_, fun p k c hk hc => ?_,
    fun r' hr' => ?_⟩
  · obtain ⟨hkept, hk'⟩ := hforth j k hk
    obtain ⟨phase, hphase, hwaits⟩ := h.reading j k r' hk' hread
    have hne : r' ≠ r := fun heq => hkept (bind_eq_some_iff.mpr ⟨phase, heq ▸ hphase, hwaits⟩)
    exact ⟨phase, (hother r' hne).trans hphase, hwaits⟩
  · obtain ⟨-, hk'⟩ := hforth j k hk
    obtain ⟨hrules, g, hg, hwaits⟩ := h.hooking j k p hk' hp
    refine ⟨hrules, g, (hback p fun hdrop => ?_).trans hg, hwaits⟩
    obtain ⟨g', hg', -, hnone⟩ := howned p hdrop
    obtain rfl := some.inj (hg.symm.trans hg')
    exact absurd (hnone.symm.trans hwaits) (some_ne_none j).symm
  · by_cases hr : r' = r
    · rw [hr, hreads, update_self] at hread
      exact absurd ((hphase' phase hread).symm.trans hc) (some_ne_none c).symm
    · rw [hother r' hr] at hread
      obtain ⟨k, hk, howner⟩ := h.read r' phase c hread hc
      refine ⟨k, (hback c fun hdrop => ?_).trans hk, howner⟩
      obtain ⟨k', hk', howner', -⟩ := howned c hdrop
      obtain rfl := some.inj (hk.symm.trans hk')
      exact hr (Owner.task.inj (howner.symm.trans howner'))
  · obtain ⟨-, hk'⟩ := hforth p k hk
    obtain ⟨hhook, f, hf, howner⟩ := h.hooked p k c hk' hc
    refine ⟨hhook, f, (hback c fun hdrop => ?_).trans hf, howner⟩
    obtain ⟨f', hf', howner', -⟩ := howned c hdrop
    obtain rfl := some.inj (hf.symm.trans hf')
    exact Owner.noConfusion (howner.symm.trans howner')
  · rw [hother r' (by omega)]
    exact h.fresh r' (hnext ▸ hr')

end State

end Cantrip.Web
