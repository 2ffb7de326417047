import Cantrip.Web.Links

/-!
# Steps

Every step keeps the permits and the links (`Sound`), and only the hook of a page that finds no rules starts to wait for
a fetch (`Quiet`).
-/

namespace Cantrip.Web

open Lib Option Function

namespace State

variable {s s' s'' : State} {id c r : Nat} {f g : Fetch} {act : Act}

structure Sound (s : State) : Prop where
  permits : s.Permits
  links : s.Links

/-- No hook waits that did not. -/
def Quiet (s s' : State) : Prop := ∀ j f c, s'.fetches j = some f → f.stage.robots? = some c → s.fetches j = some f

theorem Quiet.trans (h : Quiet s s') (h' : Quiet s' s'') : Quiet s s'' := fun j f c hf hc => h j f c (h' j f c hf hc) hc

theorem Restages.quiet (h : Restages s s') : Quiet s s' := by
  intro j f c hf hc
  obtain hsame | ⟨-, f', -, hf', -, -, -, hnone⟩ := h.fetches j
  · exact hsame ▸ hf
  · obtain rfl := some.inj (hf.symm.trans hf')
    exact absurd (hnone.symm.trans hc) (some_ne_none c).symm

theorem quiet_of_eq (h : s'.fetches = s.fetches) : Quiet s s' := fun _ _ _ hf _ => h ▸ hf

theorem quiet_drop (s : State) (c : Nat) : Quiet s (s.drop c) := by
  intro j f k hf _
  by_cases hj : j = c
  · exact absurd ((hj ▸ hf).symm.trans (drop_self s c)) (some_ne_none f)
  · exact (drop_fetches s c hj).symm.trans hf

theorem quiet_setFetch (hg : g.stage.robots? = none) : Quiet s (s.setFetch id g) := by
  intro j f c hf hc
  by_cases hj : j = id
  · obtain rfl := some.inj ((hj ▸ hf).symm.trans (setFetch_self s id g))
    exact absurd (hg.symm.trans hc) (some_ne_none c).symm
  · exact (update_of_ne hj ..).symm.trans hf

theorem quiet_safeFetch (s : State) (page : Bool) (owner : Owner) (url : Url) :
    Quiet s (s.safeFetch page owner url) := by
  obtain ⟨g, hfetches, -, -, hnone⟩ := safeFetch_fetches s page owner url
  intro j f c hf hc
  rw [hfetches] at hf
  by_cases hj : j = s.next
  · rw [hj, update_self] at hf
    obtain rfl := some.inj hf
    exact absurd (hnone.symm.trans hc) (some_ne_none c).symm
  · rwa [update_of_ne hj] at hf

/-! ## Fetches -/

theorem restages_acquireHost (hf : s.fetches id = some f) (hrobots : f.stage.robots? = none) :
    Restages s (s.acquireHost id f) := by
  have hset : Restages s (s.setFetch id { f with
      stage := if (((s.hosts f.current.hostname).getD .empty).acquire 2 id).2 then .grantedHost else .waitingHost }) :=
    restages_setFetch hf rfl rfl hrobots (by dsimp only; split <;> rfl)
  exact ⟨hset.tasks, hset.next, hset.fetches⟩

theorem restages_settle (hs : s.Permits) (hf : s.fetches id = some f) (hhas : f.stage.hasHost = true)
    (hrobots : f.stage.robots? = none) (ok : Bool) :
    Restages s (s.settle id f ok) :=
  (restages_setFetch (g := { f with stage := .settled ok }) hf rfl rfl hrobots rfl).trans
    (settle_permits hs hf hhas ok).2.restages

theorem Sound.restages (hs : s.Sound) (hpermits : s'.Permits) (hr : Restages s s') : s'.Sound ∧ Quiet s s' :=
  ⟨⟨hpermits, hs.links.restages hr⟩, hr.quiet⟩

theorem settle_sound (hs : s.Sound) (hf : s.fetches id = some f) (hhas : f.stage.hasHost = true)
    (hrobots : f.stage.robots? = none) (ok : Bool) :
    (s.settle id f ok).Sound ∧ Quiet s (s.settle id f ok) :=
  hs.restages (settle_permits hs.permits hf hhas ok).1 (restages_settle hs.permits hf hhas hrobots ok)

theorem followRedirect_sound (hs : s.Sound) (hf : s.fetches id = some f) (hstage : f.stage = .requesting) (url : Url) :
    (s.followRedirect id f url).Sound ∧ Quiet s (s.followRedirect id f url) := by
  have hhas : f.stage.hasHost = true := by rw [hstage]; rfl
  have hrobots : f.stage.robots? = none := by rw [hstage]; rfl
  unfold followRedirect
  split
  · exact settle_sound hs hf hhas hrobots false
  · split
    · exact settle_sound hs hf hhas hrobots false
    · dsimp only
      generalize hg : ({ f with current := url, redirect := f.redirect + 1, stage := .grantedGlobal } : Fetch) = g
      have hmoving : g.stage = .grantedGlobal := by rw [← hg]
      have hnone : g.stage.robots? = none := by rw [hmoving]; rfl
      obtain ⟨hpermits, t, hgrants, ht, heq⟩ := moved_permits hs.permits hf hhas hmoving
      refine hs.restages hpermits ?_
      rw [heq]
      have hset : Restages s (s.setFetch id g) := restages_setFetch hf (by rw [← hg]) (by rw [← hg]) hrobots hnone
      exact (hset.trans hgrants.restages).trans (restages_acquireHost ht hnone)

theorem hook_sound (hs : s.Sound) (hf : s.fetches id = some f) (hstage : f.stage = .grantedHost) (now : Nat)
    (allowed : Bool) :
    (s.hook id f now allowed).Sound ∧
      (Quiet s (s.hook id f now allowed) ∨ f.page = true ∧ s.cached f.current now = false ∧
          ∀ j k c, (s.hook id f now allowed).fetches j = some k → k.stage.robots? = some c → s.fetches j = some k ∨
            j = id ∧ k.current = f.current) := by
  have hhas : f.stage.hasHost = true := by rw [hstage]; rfl
  have hrobots : f.stage.robots? = none := by rw [hstage]; rfl
  have hrequesting : (s.setFetch id { f with stage := .requesting }).Sound ∧
      Quiet s (s.setFetch id { f with stage := .requesting }) :=
    hs.restages (hs.permits.setFetch hf rfl (by rw [hstage]; rfl) (by rw [hstage]; rfl) (by simp [hstage])
      (by simp [hstage]))
      (restages_setFetch hf rfl rfl hrobots rfl)
  unfold hook
  split
  · exact hrequesting.imp_right .inl
  · split
    · split
      · exact hrequesting.imp_right .inl
      · exact (settle_sound hs hf hhas hrobots false).imp_right .inl
    · rename_i hpage hcold
      have hpage' : f.page = true := by simpa using hpage
      have hwaiting : (s.setFetch id { f with stage := .beforeRequest s.next }).Permits :=
        hs.permits.setFetch hf rfl (by rw [hstage]; rfl) (by rw [hstage]; rfl) (by simp [hstage]) (by simp [hstage])
      refine ⟨⟨safeFetch_permits hwaiting _ _ _, links_hook hs.links hs.permits.fresh hf hpage' hrobots _⟩,
        .inr ⟨hpage', by simpa using hcold, ?_⟩⟩
      intro j k c hk hc
      have hk' := quiet_safeFetch _ _ _ _ j k c hk hc
      by_cases hj : j = id
      · obtain rfl := some.inj ((hj ▸ hk').symm.trans (setFetch_self s id _))
        exact .inr ⟨hj, rfl⟩
      · exact .inl ((update_of_ne hj ..).symm.trans hk')

theorem proceed_sound (hs : s.Sound) {now : Nat} {allowed : Bool} (hstep : s.proceed id now allowed = some s') :
    s'.Sound ∧ (Quiet s s' ∨ ∃ f, s.fetches id = some f ∧ f.stage = .grantedHost ∧ f.page = true ∧
      s.cached f.current now = false ∧
      ∀ j k c, s'.fetches j = some k → k.stage.robots? = some c → s.fetches j = some k ∨ j = id ∧
        k.current = f.current) := by
  obtain ⟨f, hf, hproceed⟩ := bind_eq_some_iff.mp hstep
  split at hproceed
  · rename_i hstage
    obtain rfl := some.inj hproceed
    exact (hs.restages (acquireHost_permits hs.permits hf hstage)
      (restages_acquireHost hf (by rw [hstage]; rfl))).imp_right .inl
  · rename_i hstage
    obtain rfl := some.inj hproceed
    exact (hook_sound hs hf hstage now allowed).imp_right fun h => h.imp_right fun h => ⟨f, hf, hstage, h⟩
  · cases hproceed

theorem respond_sound (hs : s.Sound) {outcome : Outcome} (hstep : s.respond id outcome = some s') :
    s'.Sound ∧ Quiet s s' := by
  obtain ⟨f, hf, hrespond⟩ := bind_eq_some_iff.mp hstep
  obtain ⟨hstage, ⟨⟩⟩ := ite_none_right_eq_some.mp hrespond
  have hhas : f.stage.hasHost = true := by rw [hstage]; rfl
  have hrobots : f.stage.robots? = none := by rw [hstage]; rfl
  cases outcome with
  | failed => exact settle_sound hs hf hhas hrobots false
  | redirected url => exact followRedirect_sound hs hf hstage url
  | answered => exact settle_sound hs hf hhas hrobots true

theorem remember_eq (s : State) (origin : Url) (now : Nat) (verdict : Verdict) :
    (s.remember origin now verdict).global = s.global ∧ (s.remember origin now verdict).hosts = s.hosts ∧
      (s.remember origin now verdict).next = s.next ∧ (s.remember origin now verdict).fetches = s.fetches ∧
      (s.remember origin now verdict).tasks = s.tasks := by
  unfold remember
  split <;> exact ⟨rfl, rfl, rfl, rfl, rfl⟩

theorem unhooked_sound {t : State} {ok : Bool} (hs : s.Sound) (hf : s.fetches id = some f)
    (hstage : f.stage = .beforeRequest c) (hg : s.fetches c = some g)
    (hsettled : g.stage = .settled ok) (hglobal : t.global = s.global) (hhosts : t.hosts = s.hosts)
    (hnext : t.next = s.next)
    (hfetches : t.fetches = (s.drop c).fetches) (hreads : t.tasks = s.tasks) :
    ((t.setFetch id { f with stage := .requesting }).Sound ∧ Quiet s (t.setFetch id { f with stage := .requesting })) ∧
      (t.settle id f false).Sound ∧ Quiet s (t.settle id f false) := by
  have hrobots : f.stage.robots? = some c := by rw [hstage]; rfl
  have hhas : f.stage.hasHost = true := by rw [hstage]; rfl
  have hne : id ≠ c := by
    rintro rfl
    obtain rfl := some.inj (hf.symm.trans hg)
    exact Stage.noConfusion (hstage.symm.trans hsettled)
  have hpermits : t.Permits := (drop_permits hs.permits hg hsettled).of_eq hglobal hhosts
    (Nat.le_of_eq hnext.symm) hfetches
  have hft : t.fetches id = some f := by rw [hfetches, drop_fetches s c hne, hf]
  have hquiet : Quiet s t := (quiet_drop s c).trans (quiet_of_eq hfetches)
  have hlinks : ∀ g : Fetch, g.page = f.page → g.owner = f.owner → g.stage.robots? = none →
    (t.setFetch id g).Links := by
    intro g hpage howner hnone
    refine (links_unhook hs.links hf hrobots hpage howner hnone).restages ⟨hreads, hnext, fun j => .inl ?_⟩
    show update t.fetches id (some g) j = update (s.drop c).fetches id (some g) j
    rw [hfetches]
  constructor
  · refine ⟨⟨hpermits.setFetch hft rfl (by rw [hstage]; rfl) (by rw [hstage]; rfl) (by simp [hstage])
      (by simp [hstage]), hlinks _ rfl rfl rfl⟩,
      hquiet.trans (quiet_setFetch rfl)⟩
  · obtain ⟨hdone, hgrants⟩ := settle_permits hpermits hft hhas false
    have hsettled := hlinks { f with stage := .settled false } rfl rfl rfl
    exact ⟨⟨hdone, hsettled.restages hgrants.restages⟩,
      (hquiet.trans (quiet_setFetch rfl)).trans hgrants.restages.quiet⟩

theorem checked_sound (hs : s.Sound) {now : Nat} {verdict : Verdict} (hstep : s.checked id now verdict = some s') :
    s'.Sound ∧ Quiet s s' := by
  obtain ⟨f, hf, hchecked⟩ := bind_eq_some_iff.mp hstep
  split at hchecked
  · rename_i c hstage
    obtain hnone | ⟨g, hg⟩ := eq_none_or_eq_some (s.fetches c)
    · rw [hnone] at hchecked
      cases hchecked
    · rw [hg] at hchecked
      dsimp only [map_some] at hchecked
      split at hchecked
      · rename_i hsettled
        obtain rfl := some.inj hchecked
        obtain ⟨hglobal, hhosts, hnext, hfetches, hreads⟩ := remember_eq (s.drop c) f.current now verdict
        obtain ⟨hgoes, hover⟩ := unhooked_sound hs hf hstage hg (some.inj hsettled) hglobal hhosts hnext hfetches hreads
        split
        · exact hgoes
        · exact hover
      · rename_i hsettled
        obtain rfl := some.inj hchecked
        exact (unhooked_sound (t := s.drop c) hs hf hstage hg (some.inj hsettled) rfl rfl rfl rfl rfl).2
      · cases hchecked
  · cases hchecked

/-! ## Reads -/

theorem Links.read_lt {phase : Phase} (h : s.Links) (hread : s.tasks r = some phase) : r < s.next := by
  by_contra hnot
  exact absurd ((h.fresh r (by omega)).symm.trans hread) (some_ne_none phase).symm

theorem spawn_sound {phase : Phase} (hs : s.Sound) (hid : r < s.next)
    (hidle : ∀ phase, s.tasks r = some phase → phase.fetch? = none)
    (hphase : phase.fetch? = some s.next) (page : Bool) (url : Url) :
    ((s.setTask r (some phase)).safeFetch page (.task r) url).Sound ∧
      Quiet s ((s.setTask r (some phase)).safeFetch page (.task r) url) := by
  have hpermits : (s.setTask r (some phase)).Permits := hs.permits.of_eq rfl rfl (Nat.le_refl _) rfl
  refine ⟨⟨safeFetch_permits hpermits _ _ _, links_read hs.links hs.permits.fresh page url hid hidle hphase⟩, ?_⟩
  have hset : Quiet s (s.setTask r (some phase)) := quiet_of_eq rfl
  exact hset.trans (quiet_safeFetch _ _ _ _)

theorem idle_sound {phase' : Option Phase} (hs : s.Sound) (hid : r < s.next)
    (hidle : ∀ phase, s.tasks r = some phase → phase.fetch? = none)
    (hphase' : ∀ phase, phase' = some phase → phase.fetch? = none) :
    (s.setTask r phase').Sound ∧ Quiet s (s.setTask r phase') := by
  refine ⟨⟨hs.permits.of_eq rfl rfl (Nat.le_refl _) rfl, ?_⟩, quiet_of_eq rfl⟩
  refine links_unread hs.links hid (fun phase c hread hc => ?_) hphase' _ rfl rfl fun j => ?_
  · exact absurd ((hidle phase hread).symm.trans hc) (some_ne_none c).symm
  · rw [if_neg]
    · rfl
    · intro hbind
      obtain ⟨phase, hread, hj⟩ := bind_eq_some_iff.mp hbind
      exact absurd ((hidle phase hread).symm.trans hj) (some_ne_none j).symm

theorem permitted_sound (hs : s.Sound) (hid : r < s.next)
    (hidle : ∀ phase, s.tasks r = some phase → phase.fetch? = none) (url : Url) (always : Bool) :
    (s.permitted r url always).Sound ∧ Quiet s (s.permitted r url always) := by
  unfold permitted
  split
  · exact idle_sound hs hid hidle fun phase hphase => some.inj hphase ▸ rfl
  · exact spawn_sound hs hid hidle rfl true url

theorem permitted_setTask (s : State) (r : Nat) (phase : Option Phase) (url : Url) (always : Bool) :
    (s.setTask r phase).permitted r url always = s.permitted r url always := by
  have hset : ∀ phase', (s.setTask r phase).setTask r phase' = s.setTask r phase' := by
    intro phase'
    unfold setTask
    dsimp only
    rw [update_idem]
  unfold permitted
  rw [hset, hset]
  rfl

theorem next_sound (hs : s.Sound) :
    ({ s with next := s.next + 1 } : State).Sound ∧ Quiet s { s with next := s.next + 1 } ∧
    ∀ phase, ({ s with next := s.next + 1 } : State).tasks s.next = some phase → phase.fetch? = none := by
  refine ⟨⟨hs.permits.of_eq rfl rfl (Nat.le_succ _) rfl, ?_⟩, quiet_of_eq rfl, fun phase hphase => ?_⟩
  · exact ⟨hs.links.reading, hs.links.hooking, hs.links.read, hs.links.hooked,
      fun r hr => hs.links.fresh r (Nat.le_of_succ_le hr)⟩
  · exact absurd ((hs.links.fresh s.next (Nat.le_refl _)).symm.trans hphase) (some_ne_none phase).symm

theorem startRead_sound (hs : s.Sound) (url : Url) (always : Bool) (now : Nat) (allowed : Bool) :
    (s.startRead url always now allowed).Sound ∧ Quiet s (s.startRead url always now allowed) := by
  obtain ⟨hnext, hquiet, hidle⟩ := next_sound hs
  unfold startRead
  dsimp only
  split
  · split
    · exact (permitted_sound hnext (Nat.lt_succ_self _) hidle url always).imp_right hquiet.trans
    · exact ⟨hnext, hquiet⟩
  · exact (spawn_sound hnext (Nat.lt_succ_self _) hidle rfl false url).imp_right hquiet.trans

theorem picked_sound {t : State} {phase : Phase} {ok : Bool} (hs : s.Sound) (hread : s.tasks r = some phase)
    (hphase : phase.fetch? = some c) (hg : s.fetches c = some g) (hsettled : g.stage = .settled ok)
    (hglobal : t.global = s.global) (hhosts : t.hosts = s.hosts) (hnext : t.next = s.next)
    (hfetches : t.fetches = (s.drop c).fetches) (hreads : t.tasks = s.tasks) {phase' : Option Phase}
    (hphase' : ∀ phase, phase' = some phase → phase.fetch? = none) :
    (t.setTask r phase').Sound ∧ Quiet s (t.setTask r phase') := by
  have hid := hs.links.read_lt hread
  have hbind : (s.tasks r).bind Phase.fetch? = some c := bind_eq_some_iff.mpr ⟨phase, hread, hphase⟩
  refine ⟨⟨(drop_permits hs.permits hg hsettled).of_eq hglobal hhosts (Nat.le_of_eq hnext.symm) hfetches, ?_⟩,
    (quiet_drop s c).trans (quiet_of_eq hfetches)⟩
  refine links_unread hs.links hid (fun phase' c' hread' hc' => ?_) hphase' _ (by rw [← hreads]; rfl) hnext fun j => ?_
  · obtain rfl := some.inj (hread.symm.trans hread')
    obtain rfl := some.inj (hphase.symm.trans hc')
    exact ⟨g, hg, by rw [hsettled]; rfl⟩
  · show t.fetches j = _
    rw [hfetches, hbind]
    by_cases hj : j = c
    · rw [hj, if_pos rfl, drop_self]
    · rw [drop_fetches s c hj, if_neg fun heq => hj (some.inj heq).symm]

theorem resume_sound (hs : s.Sound) {now : Nat} {verdict : Verdict} {render : Bool}
    (hstep : s.resume id now verdict render = some s') :
    s'.Sound ∧ Quiet s s' := by
  obtain ⟨phase, hread, hresume⟩ := bind_eq_some_iff.mp hstep
  obtain ⟨c, hphase, hresume⟩ := bind_eq_some_iff.mp hresume
  obtain hnone | ⟨g, hg⟩ := eq_none_or_eq_some (s.fetches c)
  · rw [hnone] at hresume
    cases hresume
  · rw [hg] at hresume
    dsimp only [map_some] at hresume
    split at hresume
    · rename_i ok hsettled
      obtain rfl := some.inj hresume
      have hsettled := some.inj hsettled
      have hid := hs.links.read_lt hread
      have hnothing : ∀ phase, (none : Option Phase) = some phase → phase.fetch? = none :=
        fun phase h => absurd h (some_ne_none phase).symm
      have hrendering : ∀ phase, some Phase.rendering = some phase → phase.fetch? = none :=
        fun phase h => some.inj h ▸ rfl
      have hplain := fun (phase' : Option Phase) (hphase' : ∀ phase, phase' = some phase → phase.fetch? = none) =>
        picked_sound (t := s.drop c) hs hread hphase hg hsettled rfl rfl rfl rfl rfl hphase'
      cases phase with
      | rendering => exact absurd hphase (some_ne_none c).symm
      | fetching fetch =>
        unfold resumed
        dsimp only
        split
        · exact hplain _ hrendering
        · exact hplain _ hnothing
      | navigating fetch url reader =>
        obtain ⟨hglobal, hhosts, hnext, hfetches, hreads⟩ := remember_eq (s.drop c) url now verdict
        unfold resumed
        dsimp only
        split
        · exact picked_sound hs hread hphase hg hsettled hglobal hhosts hnext hfetches hreads hnothing
        · exact hplain _ hnothing
      | checking fetch url always =>
        obtain ⟨hglobal, hhosts, hnext, hfetches, hreads⟩ := remember_eq (s.drop c) url now verdict
        unfold resumed
        dsimp only
        split
        · split
          · have hpicked := picked_sound hs hread hphase hg hsettled hglobal hhosts hnext hfetches hreads hnothing
            have hidle : ∀ phase, (((s.drop c).remember url now verdict).setTask id none).tasks id = some phase →
              phase.fetch? = none :=
              fun phase hphase => absurd ((update_self ..).symm.trans hphase) (some_ne_none phase).symm
            obtain ⟨hsound, hquiet⟩ := permitted_sound hpicked.1 (hnext.symm ▸ hid) hidle url always
            rw [permitted_setTask] at hsound hquiet
            exact ⟨hsound, hpicked.2.trans hquiet⟩
          · exact picked_sound hs hread hphase hg hsettled hglobal hhosts hnext hfetches hreads hnothing
        · exact hplain _ hnothing
    · cases hresume

theorem rendering_idle (hread : s.tasks r = some .rendering) :
    ∀ phase, s.tasks r = some phase → phase.fetch? = none := fun _ hphase =>
  some.inj (hread.symm.trans hphase) ▸ rfl

theorem navigate_sound (hs : s.Sound) {url : Url} {now : Nat} (hstep : s.navigate id url now = some s') :
    s'.Sound ∧ Quiet s s' := by
  obtain ⟨-, ⟨⟩⟩ := ite_none_right_eq_some.mp hstep
  split
  · exact ⟨hs, quiet_of_eq rfl⟩
  · obtain ⟨hnext, hquiet, hidle⟩ := next_sound hs
    exact (spawn_sound hnext (Nat.lt_succ_self _) hidle rfl false url).imp_right hquiet.trans

theorem step_sound (hs : s.Sound) (hstep : s.step act = some s') :
    s'.Sound ∧ (Quiet s s' ∨ ∃ id now allowed f, act = .proceed id now allowed ∧ s.fetches id = some f ∧
      f.stage = .grantedHost ∧ f.page = true ∧
      s.cached f.current now = false ∧
      ∀ j k c, s'.fetches j = some k → k.stage.robots? = some c → s.fetches j = some k ∨ j = id ∧
        k.current = f.current) := by
  cases act with
  | read url always now allowed =>
    obtain rfl := some.inj hstep
    exact (startRead_sound hs url always now allowed).imp_right .inl
  | proceed id now allowed =>
    exact (proceed_sound hs hstep).imp_right fun h => h.imp_right fun ⟨f, hf⟩ => ⟨id, now, allowed, f, rfl, hf⟩
  | checked id now verdict => exact (checked_sound hs hstep).imp_right .inl
  | respond id outcome => exact (respond_sound hs hstep).imp_right .inl
  | resume id now verdict render => exact (resume_sound hs hstep).imp_right .inl
  | navigate id url now => exact (navigate_sound hs hstep).imp_right .inl
  | rendered id =>
    obtain ⟨hread, ⟨⟩⟩ := ite_none_right_eq_some.mp hstep
    exact (idle_sound hs (hs.links.read_lt hread) (rendering_idle hread) fun phase h =>
      absurd h (some_ne_none phase).symm).imp_right .inl

theorem sound_start : start.Sound := ⟨permits_start, links_start⟩

end State

end Cantrip.Web
