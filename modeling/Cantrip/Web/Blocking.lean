import Cantrip.Web.Steps

/-!
# Blocking

A fetch is blocked where all that it waits for is blocked. Hooks that wait for rules keep the permits of their pages, so
that two pages of a host, or eight pages, can wait for rules which wait for permits of theirs. Where no two hooks of a
host and never eight hooks wait at a time, and no page is left whose navigations wait for rules (`modest`), nothing is
ever blocked.
-/

namespace Cantrip.Web

open Lib List Option Bool

def Phase.reader? : Phase → Option Nat
  | .navigating _ _ reader => some reader
  | _ => none

namespace State

variable {s s' : State} {id : Nat} {f g : Fetch} {act : Act} {acts : List Act}

/-- The hook of the page waits for rules. -/
def nests (s : State) (id : Nat) : Bool := (s.fetches id).any fun f => f.stage.robots?.isSome

/-- The page whose hook is to wait for rules. -/
def asking (s : State) : Act → Option Fetch
  | .proceed id now _ => (s.fetches id).filter fun f => f.stage = .grantedHost ∧ f.page = true ∧ s.cached f.current now = false
  | _ => none

/-- No navigation of a page waits for rules when the browser is done with the page. -/
def attends (s : State) : Act → Bool
  | .rendered r => (List.range s.next).all fun n => (s.tasks n).all fun phase => phase.reader? ≠ some r
  | _ => true

/-- Where a hook is to wait for rules, no hook of a page of the host does, and less than seven others do. -/
def modest (s : State) (act : Act) : Bool :=
  s.attends act && (s.asking act).all fun f =>
    let nesting := (List.range s.next).filter s.nests
    nesting.length < 7 && nesting.all fun j => (s.fetches j).all fun g => g.current.hostname ≠ f.current.hostname

def modestAlong (s : State) : List Act → Bool
  | [] => true
  | act :: acts => s.modest act && (s.step act).all fun s => s.modestAlong acts

/-- All that the fetches of a set wait for is held or done by fetches of the set. -/
def Deadlocked (s : State) (blocked : Nat → Prop) : Prop :=
  ∀ id, blocked id → ∃ f, s.fetches id = some f ∧ ((f.stage = .waitingGlobal ∧ ∀ j, s.holdsGlobal j → blocked j) ∨
      (f.stage = .waitingHost ∧ ∀ j, s.holdsHost f.current.hostname j → blocked j) ∨
      ∃ c, f.stage = .beforeRequest c ∧ blocked c)

def reads (s : State) (r : Nat) : Prop := ∃ phase, s.tasks r = some phase ∧ phase.reader? = none

def pends (s : State) (c : Nat) : Prop :=
  ∃ f, s.fetches c = some f ∧ (f.stage = .waitingGlobal ∨ f.stage = .waitingHost ∨
    ∃ k g, f.stage = .beforeRequest k ∧ s.fetches k = some g ∧ (g.stage = .waitingGlobal ∨ g.stage = .waitingHost))

def waits (s : State) (r : Nat) : Prop :=
  (∃ phase c, s.tasks r = some phase ∧ phase.fetch? = some c ∧ s.pends c) ∨
    (∃ n c url, s.tasks n = some (.navigating c url r)) ∧ ∀ n c url, s.tasks n = some (.navigating c url r) → s.pends c

/-- Navigations are those of pages that are still rendered. -/
def Attended (s : State) : Prop := ∀ n c url r, s.tasks n = some (.navigating c url r) → s.tasks r = some .rendering

/-- No two hooks of a host wait for rules, and never more than seven. -/
structure Modest (s : State) : Prop where
  apart : ∀ i j f g c d, s.fetches i = some f → s.fetches j = some g → f.stage = .beforeRequest c → g.stage = .beforeRequest d →
    f.current.hostname = g.current.hostname → i = j
  few : ∀ ids : List Nat, ids.Nodup → (∀ i ∈ ids, s.nests i = true) → ids.length ≤ 7

theorem nests_iff : s.nests id = true ↔ ∃ f c, s.fetches id = some f ∧ f.stage = .beforeRequest c := by
  unfold nests
  rw [Option.any_eq_true]
  constructor
  · rintro ⟨f, hf, hrobots⟩
    obtain ⟨c, hc⟩ := isSome_iff_exists.mp hrobots
    exact ⟨f, c, hf, robots_eq_some.mp hc⟩
  · rintro ⟨f, c, hf, hstage⟩
    exact ⟨f, hf, by rw [hstage]; rfl⟩

theorem modest_start : start.Modest := by
  refine ⟨fun i j f g c d hf => absurd hf (some_ne_none f).symm, fun ids _ hids => ?_⟩
  cases ids with
  | nil => exact Nat.zero_le 7
  | cons i ids => exact absurd (hids i (mem_cons_self ..)) Bool.false_ne_true

theorem Modest.quiet (hm : s.Modest) (hq : Quiet s s') : s'.Modest := by
  refine ⟨fun i j f g c d hf hg hc hd => ?_, fun ids hnodup hids => hm.few ids hnodup fun i hi => ?_⟩
  · exact hm.apart i j f g c d (hq i f c hf (robots_eq_some.mpr hc)) (hq j g d hg (robots_eq_some.mpr hd)) hc hd
  · obtain ⟨f, c, hf, hc⟩ := nests_iff.mp (hids i hi)
    exact nests_iff.mpr ⟨f, c, hq i f c hf (robots_eq_some.mpr hc), hc⟩

theorem step_modest (hs : s.Sound) (hm : s.Modest) (hmodest : s.modest act = true) (hstep : s.step act = some s') : s'.Modest := by
  obtain ⟨-, hquiet | ⟨id, now, allowed, f, rfl, hf, hstage, hpage, hcold, hnew⟩⟩ := step_sound hs hstep
  · exact hm.quiet hquiet
  · have hasking : s.asking (.proceed id now allowed) = some f := by
      unfold asking
      dsimp only
      rw [hf]
      simp [hstage, hpage, hcold]
    unfold modest at hmodest
    rw [hasking, all_some, and_eq_true, and_eq_true, decide_eq_true_iff, List.all_eq_true] at hmodest
    obtain ⟨-, hfew, hapart⟩ := hmodest
    have hmem : ∀ j g c, s.fetches j = some g → g.stage = .beforeRequest c → j ∈ (range s.next).filter s.nests := fun j g c hg hc =>
      mem_filter.mpr ⟨mem_range.mpr (fresh_lt hs.permits.fresh hg), nests_iff.mpr ⟨g, c, hg, hc⟩⟩
    have hother : ∀ j g c, s.fetches j = some g → g.stage = .beforeRequest c → g.current.hostname ≠ f.current.hostname := by
      intro j g c hg hc
      have hall := hapart j (hmem j g c hg hc)
      rw [hg] at hall
      simpa using hall
    constructor
    · intro i j g k c d hg hk hc hd hname
      obtain hg' | ⟨rfl, hgcurrent⟩ := hnew i g c hg (robots_eq_some.mpr hc)
      · obtain hk' | ⟨rfl, hkcurrent⟩ := hnew j k d hk (robots_eq_some.mpr hd)
        · exact hm.apart i j g k c d hg' hk' hc hd hname
        · exact absurd (hname.trans (congrArg Url.hostname hkcurrent)) (hother i g c hg' hc)
      · obtain hk' | ⟨rfl, hkcurrent⟩ := hnew j k d hk (robots_eq_some.mpr hd)
        · exact absurd (hname.symm.trans (congrArg Url.hostname hgcurrent)) (hother j k d hk' hd)
        · rfl
    · intro ids hnodup hids
      have hsub : ids.erase id ⊆ (range s.next).filter s.nests := by
        intro i hi
        rw [hnodup.mem_erase_iff] at hi
        obtain ⟨g, c, hg, hc⟩ := nests_iff.mp (hids i hi.2)
        obtain hg' | ⟨rfl, -⟩ := hnew i g c hg (robots_eq_some.mpr hc)
        · exact hmem i g c hg' hc
        · exact absurd rfl hi.1
      have hlength := (subperm_of_subset (hnodup.erase id) hsub).length_le
      have herase : ids.length ≤ (ids.erase id).length + 1 := by
        rw [length_erase]
        split <;> omega
      omega

/-! ## Pages -/

theorem grant_tasks (s : State) (stage : Stage) (n : Option Nat) : (s.grant stage n).tasks = s.tasks := by
  unfold grant
  split <;> rfl

theorem releaseHost_tasks (s : State) (hostname : String) : (s.releaseHost hostname).tasks = s.tasks := by
  unfold releaseHost
  split
  · rfl
  · exact grant_tasks ..

theorem settle_tasks (s : State) (id : Nat) (f : Fetch) (ok : Bool) : (s.settle id f ok).tasks = s.tasks :=
  (grant_tasks ..).trans (releaseHost_tasks ..)

theorem followRedirect_tasks (s : State) (id : Nat) (f : Fetch) (url : Url) : (s.followRedirect id f url).tasks = s.tasks := by
  unfold followRedirect
  split
  · exact settle_tasks ..
  · split
    · exact settle_tasks ..
    · exact releaseHost_tasks ..

theorem proceed_tasks {now : Nat} {allowed : Bool} (hstep : s.proceed id now allowed = some s') : s'.tasks = s.tasks := by
  obtain ⟨f, -, hproceed⟩ := bind_eq_some_iff.mp hstep
  split at hproceed
  · obtain rfl := some.inj hproceed
    rfl
  · obtain rfl := some.inj hproceed
    unfold hook
    split
    · rfl
    · split
      · split
        · rfl
        · exact settle_tasks ..
      · rfl
  · cases hproceed

theorem respond_tasks {outcome : Outcome} (hstep : s.respond id outcome = some s') : s'.tasks = s.tasks := by
  obtain ⟨f, -, hrespond⟩ := bind_eq_some_iff.mp hstep
  obtain ⟨-, ⟨⟩⟩ := ite_none_right_eq_some.mp hrespond
  cases outcome with
  | failed => exact settle_tasks ..
  | redirected url => exact followRedirect_tasks ..
  | answered => exact settle_tasks ..

theorem checked_tasks {now : Nat} {verdict : Verdict} (hstep : s.checked id now verdict = some s') : s'.tasks = s.tasks := by
  obtain ⟨f, -, hchecked⟩ := bind_eq_some_iff.mp hstep
  split at hchecked
  · rename_i robots _
    split at hchecked
    · obtain rfl := some.inj hchecked
      have hdropped := (remember_eq (s.drop robots) f.current now verdict).2.2.2.2
      split
      · exact hdropped
      · exact (settle_tasks ..).trans hdropped
    · obtain rfl := some.inj hchecked
      exact settle_tasks ..
    · cases hchecked
  · cases hchecked

/-- What a step does to the reads and navigations: a page that is rendered has one more, or one that is not a page that is
rendered, or is done, goes on and is no navigation. -/
theorem tasks_of_step (hs : s.Sound) (hstep : s.step act = some s') : s'.tasks = s.tasks ∨ ∃ r phase, s'.tasks = Function.update s.tasks r phase ∧
    ((∃ c url reader, phase = some (.navigating c url reader) ∧ s.tasks reader = some .rendering ∧ r = s.next) ∨
      (∀ p, phase = some p → p.reader? = none) ∧ (s.tasks r ≠ some .rendering ∨ act = .rendered r)) := by
  have hnone : ∀ p, (none : Option Phase) = some p → p.reader? = none := fun p h => absurd h (some_ne_none p).symm
  have hsome : ∀ phase : Phase, phase.reader? = none → ∀ p, some phase = some p → p.reader? = none := fun phase h p hp => some.inj hp ▸ h
  have hpermitted : ∀ (t : State) (r : Nat) (url : Url) (always : Bool), ∃ phase, (t.permitted r url always).tasks = Function.update t.tasks r phase ∧
      ∀ p, phase = some p → p.reader? = none := by
    intro t r url always
    cases always with
    | false => exact ⟨_, rfl, hsome _ rfl⟩
    | true => exact ⟨_, rfl, hsome _ rfl⟩
  have hnew : s.tasks s.next ≠ some .rendering := by
    rw [hs.links.fresh s.next (Nat.le_refl _)]
    exact (some_ne_none _).symm
  cases act with
  | read url always now allowed =>
    obtain rfl := some.inj hstep
    unfold startRead
    dsimp only
    split
    · split
      · obtain ⟨phase, htasks, hphase⟩ := hpermitted { s with next := s.next + 1 } s.next url always
        exact .inr ⟨s.next, phase, htasks, .inr ⟨hphase, .inl hnew⟩⟩
      · exact .inl rfl
    · exact .inr ⟨s.next, _, rfl, .inr ⟨hsome _ rfl, .inl hnew⟩⟩
  | proceed id now allowed => exact .inl (proceed_tasks hstep)
  | checked id now verdict => exact .inl (checked_tasks hstep)
  | respond id outcome => exact .inl (respond_tasks hstep)
  | resume id now verdict render =>
    obtain ⟨phase, hread, hresume⟩ := bind_eq_some_iff.mp hstep
    obtain ⟨c, hphase, hresume⟩ := bind_eq_some_iff.mp hresume
    have hidle : s.tasks id ≠ some .rendering := by
      rw [hread]
      rintro ⟨⟩
      cases hphase
    split at hresume
    · rename_i ok _
      obtain rfl := some.inj hresume
      have hremember : ∀ url, ((s.drop c).remember url now verdict).tasks = s.tasks := fun url => (remember_eq (s.drop c) url now verdict).2.2.2.2
      cases phase with
      | rendering => exact absurd hread hidle
      | fetching fetch =>
        refine .inr ⟨id, _, rfl, .inr ⟨?_, .inl hidle⟩⟩
        split
        · exact hsome _ rfl
        · exact hnone
      | navigating fetch url reader =>
        refine .inr ⟨id, none, ?_, .inr ⟨hnone, .inl hidle⟩⟩
        cases ok with
        | false => rfl
        | true =>
          show Function.update ((s.drop c).remember url now verdict).tasks id none = _
          rw [hremember]
      | checking fetch url always =>
        cases ok with
        | false => exact .inr ⟨id, none, rfl, .inr ⟨hnone, .inl hidle⟩⟩
        | true =>
          unfold resumed
          dsimp only
          rw [if_pos rfl]
          split
          · obtain ⟨phase, htasks, hphase⟩ := hpermitted ((s.drop c).remember url now verdict) id url always
            rw [hremember] at htasks
            exact .inr ⟨id, phase, htasks, .inr ⟨hphase, .inl hidle⟩⟩
          · refine .inr ⟨id, none, ?_, .inr ⟨hnone, .inl hidle⟩⟩
            show Function.update ((s.drop c).remember url now verdict).tasks id none = _
            rw [hremember]
    · cases hresume
  | navigate id url now =>
    obtain ⟨hread, ⟨⟩⟩ := ite_none_right_eq_some.mp hstep
    dsimp only
    split
    · exact .inl rfl
    · exact .inr ⟨s.next, _, rfl, .inl ⟨_, url, id, rfl, hread, rfl⟩⟩
  | rendered id =>
    obtain ⟨-, ⟨⟩⟩ := ite_none_right_eq_some.mp hstep
    exact .inr ⟨id, none, rfl, .inr ⟨hnone, .inr rfl⟩⟩

theorem step_attended (hs : s.Sound) (ha : s.Attended) (hattends : s.attends act = true) (hstep : s.step act = some s') : s'.Attended := by
  intro n c url reader hn
  obtain hsame | ⟨r, phase, htasks, hcases⟩ := tasks_of_step hs hstep
  · rw [hsame] at hn ⊢
    exact ha n c url reader hn
  · rw [htasks] at hn ⊢
    obtain ⟨c', url', reader', rfl, hrendering, rfl⟩ | ⟨hphase, hleft⟩ := hcases
    · have hne : ∀ q, s.tasks q = some .rendering → q ≠ s.next := fun q hq heq =>
        absurd ((hs.links.fresh s.next (Nat.le_refl _)).symm.trans (heq ▸ hq)) (some_ne_none _).symm
      by_cases hnext : n = s.next
      · rw [hnext, Function.update_self] at hn
        obtain ⟨-, -, rfl⟩ := Phase.navigating.inj (some.inj hn)
        rw [Function.update_of_ne (hne _ hrendering)]
        exact hrendering
      · rw [Function.update_of_ne hnext] at hn
        have hreader := ha n c url reader hn
        rwa [Function.update_of_ne (hne _ hreader)]
    · by_cases hr : n = r
      · rw [hr, Function.update_self] at hn
        exact absurd (hphase _ hn).symm (some_ne_none reader).symm
      · rw [Function.update_of_ne hr] at hn
        have hreader := ha n c url reader hn
        have hother : reader ≠ r := by
          rintro rfl
          obtain hidle | rfl := hleft
          · exact hidle hreader
          · have hall := List.all_eq_true.mp hattends n (mem_range.mpr (hs.links.read_lt hn))
            rw [hn] at hall
            simp [Phase.reader?] at hall
        rwa [Function.update_of_ne hother]

/-! ## Nothing is blocked -/

theorem beforeRequest_of_hasHost {stage : Stage} (hhas : stage.hasHost = true)
    (hwaits : stage = .waitingGlobal ∨ stage = .waitingHost ∨ ∃ c, stage = .beforeRequest c) :
    ∃ c, stage = .beforeRequest c := by
  obtain rfl | rfl | hhook := hwaits
  · exact absurd hhas Bool.false_ne_true
  · exact absurd hhas Bool.false_ne_true
  · exact hhook

variable {blocked : Nat → Prop}

theorem Deadlocked.stage (hd : s.Deadlocked blocked) (hid : blocked id) (hf : s.fetches id = some f) :
    f.stage = .waitingGlobal ∨ f.stage = .waitingHost ∨ ∃ c, f.stage = .beforeRequest c := by
  obtain ⟨f', hf', hstage⟩ := hd id hid
  obtain rfl := some.inj (hf.symm.trans hf')
  obtain ⟨hstage, -⟩ | ⟨hstage, -⟩ | ⟨c, hstage, -⟩ := hstage
  · exact .inl hstage
  · exact .inr (.inl hstage)
  · exact .inr (.inr ⟨c, hstage⟩)

theorem not_waitingHost (hs : s.Sound) (hm : s.Modest) (hd : s.Deadlocked blocked) (hid : blocked id)
    (hf : s.fetches id = some f) : f.stage ≠ .waitingHost := by
  intro hstage
  obtain ⟨f', hf', hwaits⟩ := hd id hid
  obtain rfl := some.inj (hf.symm.trans hf')
  have hheld : ∀ j, s.holdsHost f.current.hostname j → blocked j := by
    obtain ⟨hother, -⟩ | ⟨-, hheld⟩ | ⟨c, hother, -⟩ := hwaits
    · exact absurd (hother.symm.trans hstage) Stage.noConfusion
    · exact hheld
    · exact absurd (hother.symm.trans hstage) Stage.noConfusion
  obtain ⟨holders, hnodup, hlength, hholds⟩ := (hs.permits.hosts f.current.hostname).holders_of_waits ⟨f, hf, rfl, hstage⟩
  obtain ⟨i, j, rfl⟩ := length_eq_two.mp hlength
  have hne : i ≠ j := by simpa using hnodup
  have hnesting : ∀ k, k ∈ [i, j] → ∃ g c, s.fetches k = some g ∧ g.stage = .beforeRequest c ∧ g.current.hostname = f.current.hostname := by
    intro k hk
    have hk' := (hholds k hk).resolve_right fun hnot => hnot
    obtain ⟨g, hg, hname, hhas⟩ := hk'
    obtain ⟨c, hc⟩ := beforeRequest_of_hasHost hhas (hd.stage (hheld k ⟨g, hg, hname, hhas⟩) hg)
    exact ⟨g, c, hg, hc, hname⟩
  obtain ⟨g, c, hg, hc, hname⟩ := hnesting i (mem_cons_self ..)
  obtain ⟨k, d, hk, hd', hname'⟩ := hnesting j (mem_cons_of_mem _ (mem_cons_self ..))
  exact hne (hm.apart i j g k c d hg hk hc hd' (hname.trans hname'.symm))

theorem not_waitingGlobal (hs : s.Sound) (hm : s.Modest) (hd : s.Deadlocked blocked) (hid : blocked id)
    (hf : s.fetches id = some f) : f.stage ≠ .waitingGlobal := by
  intro hstage
  obtain ⟨f', hf', hwaits⟩ := hd id hid
  obtain rfl := some.inj (hf.symm.trans hf')
  have hheld : ∀ j, s.holdsGlobal j → blocked j := by
    obtain ⟨-, hheld⟩ | ⟨hother, -⟩ | ⟨c, hother, -⟩ := hwaits
    · exact hheld
    · exact absurd (hother.symm.trans hstage) Stage.noConfusion
    · exact absurd (hother.symm.trans hstage) Stage.noConfusion
  obtain ⟨holders, hnodup, hlength, hholds⟩ := hs.permits.global.holders_of_waits ⟨f, hf, hstage⟩
  have hfew := hm.few holders hnodup fun i hi => by
    obtain ⟨g, hg, hhas⟩ := (hholds i hi).resolve_right fun hnot => hnot
    have hi' := hheld i ⟨g, hg, hhas⟩
    obtain hwaiting | hwaiting | ⟨c, hc⟩ := hd.stage hi' hg
    · rw [hwaiting] at hhas
      exact absurd hhas Bool.false_ne_true
    · exact absurd hwaiting (not_waitingHost hs hm hd hi' hg)
    · exact nests_iff.mpr ⟨g, c, hg, hc⟩
  omega

theorem not_deadlocked (hs : s.Sound) (hm : s.Modest) (hd : s.Deadlocked blocked) (id : Nat) : ¬ blocked id := by
  intro hid
  have hrules : ∀ k g, blocked k → s.fetches k = some g → ∃ c, g.stage = .beforeRequest c := by
    intro k g hk hg
    obtain hstage | hstage | hhook := hd.stage hk hg
    · exact absurd hstage (not_waitingGlobal hs hm hd hk hg)
    · exact absurd hstage (not_waitingHost hs hm hd hk hg)
    · exact hhook
  obtain ⟨f, hf, hwaits⟩ := hd id hid
  obtain ⟨hstage, -⟩ | ⟨hstage, -⟩ | ⟨c, hstage, hc⟩ := hwaits
  · exact not_waitingGlobal hs hm hd hid hf hstage
  · exact not_waitingHost hs hm hd hid hf hstage
  · -- The rules have no hook, so that they wait for a permit.
    obtain ⟨-, g, hg, howner⟩ := hs.links.hooked id f c hf (robots_eq_some.mpr hstage)
    obtain ⟨d, hd'⟩ := hrules c g hc hg
    exact absurd ((hs.links.hooked c g d hg (robots_eq_some.mpr hd')).1.symm.trans (hs.links.hooking c g id hg howner).1).symm Bool.false_ne_true

theorem owner_cases (f : Fetch) : (∃ r, f.owner = .task r) ∨ ∃ p, f.owner = .hook p := by
  cases f.owner with
  | task r => exact .inl ⟨r, rfl⟩
  | hook p => exact .inr ⟨p, rfl⟩

theorem page_reader (hs : s.Sound) (hf : s.fetches id = some f) (hpage : f.page = true) : ∃ r, f.owner = .task r := by
  obtain hread | ⟨p, hp⟩ := owner_cases f
  · exact hread
  · exact absurd (hpage.symm.trans (hs.links.hooking id f p hf hp).1).symm Bool.false_ne_true

theorem read_of_fetch (hs : s.Sound) (hf : s.fetches id = some f) : ∃ r phase, s.tasks r = some phase := by
  obtain ⟨r, hread⟩ | ⟨p, hp⟩ := owner_cases f
  · obtain ⟨phase, hphase, -⟩ := hs.links.reading id f r hf hread
    exact ⟨r, phase, hphase⟩
  · obtain ⟨-, g, hg, hrobots⟩ := hs.links.hooking id f p hf hp
    obtain ⟨r, hread⟩ := page_reader hs hg (hs.links.hooked p g id hg hrobots).1
    obtain ⟨phase, hphase, -⟩ := hs.links.reading p g r hg hread
    exact ⟨r, phase, hphase⟩

theorem read_pends {r : Nat} {phase : Phase} (ha : s.Attended) (hall : ∀ r, s.reads r → s.waits r) (hread : s.tasks r = some phase)
    (hreader : phase.reader? = none) (hphase : phase.fetch? = some id) : s.pends id := by
  obtain ⟨phase', c, hread', hphase', hpends⟩ | ⟨⟨n, c, url, hn⟩, -⟩ := hall r ⟨phase, hread, hreader⟩
  · obtain rfl := some.inj (hread.symm.trans hread')
    obtain rfl := some.inj (hphase.symm.trans hphase')
    exact hpends
  · obtain rfl := some.inj (hread.symm.trans (ha n c url r hn))
    exact absurd hphase (some_ne_none id).symm

theorem deadlocked_of_waits (hs : s.Sound) (ha : s.Attended) (hall : ∀ r, s.reads r → s.waits r) :
    s.Deadlocked fun id => (s.fetches id).isSome := by
  have hheld : ∀ (p : Fetch → Prop) j, s.has p j → (s.fetches j).isSome = true := fun p j ⟨f, hf, _⟩ => by rw [hf]; rfl
  have hreading : ∀ id f r, s.fetches id = some f → f.owner = .task r → f.stage = .waitingGlobal ∨ f.stage = .waitingHost ∨
      ∃ k g, f.stage = .beforeRequest k ∧ s.fetches k = some g ∧ (g.stage = .waitingGlobal ∨ g.stage = .waitingHost) := by
    intro id f r hf howner
    obtain ⟨phase, hread, hphase⟩ := hs.links.reading id f r hf howner
    have hpends : s.pends id := by
      cases phase with
      | rendering => exact absurd hphase (some_ne_none id).symm
      | navigating c url q =>
        obtain rfl := some.inj hphase
        have hq := ha r c url q hread
        obtain ⟨phase', c', hread', hphase', -⟩ | ⟨-, hpages⟩ := hall q ⟨_, hq, rfl⟩
        · obtain rfl := some.inj (hq.symm.trans hread')
          exact absurd hphase' (some_ne_none c').symm
        · exact hpages r c url hread
      | checking c url always => exact read_pends ha hall hread rfl hphase
      | fetching c => exact read_pends ha hall hread rfl hphase
    obtain ⟨f', hf', hwaits⟩ := hpends
    obtain rfl := some.inj (hf.symm.trans hf')
    exact hwaits
  intro id hid
  obtain ⟨f, hf⟩ := isSome_iff_exists.mp hid
  refine ⟨f, hf, ?_⟩
  obtain ⟨r, howner⟩ | ⟨p, howner⟩ := owner_cases f
  · obtain hstage | hstage | ⟨k, g, hstage, hg, -⟩ := hreading id f r hf howner
    · exact .inl ⟨hstage, fun j hj => hheld _ j hj⟩
    · exact .inr (.inl ⟨hstage, fun j hj => hheld _ j hj⟩)
    · exact .inr (.inr ⟨k, hstage, isSome_iff_exists.mpr ⟨g, hg⟩⟩)
  · obtain ⟨-, g, hg, hrobots⟩ := hs.links.hooking id f p hf howner
    have hpage := (hs.links.hooked p g id hg hrobots).1
    obtain ⟨r, hgowner⟩ := page_reader hs hg hpage
    have hhook := robots_eq_some.mp hrobots
    obtain hstage | hstage | ⟨k, f', hstage, hf', hwaits⟩ := hreading p g r hg hgowner
    · exact absurd (hstage.symm.trans hhook) Stage.noConfusion
    · exact absurd (hstage.symm.trans hhook) Stage.noConfusion
    · obtain rfl := Stage.beforeRequest.inj (hstage.symm.trans hhook)
      obtain rfl := some.inj (hf.symm.trans hf')
      rcases hwaits with hwaiting | hwaiting
      · exact .inl ⟨hwaiting, fun j hj => hheld _ j hj⟩
      · exact .inr (.inl ⟨hwaiting, fun j hj => hheld _ j hj⟩)

/-! ## Runs -/

theorem run_modest (hs : s.Sound) (hm : s.Modest) (ha : s.Attended) (hmodest : s.modestAlong acts = true) (hrun : s.run acts = some s') :
    s'.Sound ∧ s'.Modest ∧ s'.Attended := by
  induction acts generalizing s with
  | nil => exact some.inj hrun ▸ ⟨hs, hm, ha⟩
  | cons act acts ih =>
    obtain ⟨next, hstep, hrest⟩ := bind_eq_some_iff.mp hrun
    obtain ⟨hhere, hlater⟩ := and_eq_true_iff.mp hmodest
    rw [hstep] at hlater
    have hattended := step_attended hs ha (and_eq_true_iff.mp hhere).1 hstep
    exact ih (step_sound hs hstep).1 (step_modest hs hm hhere hstep) hattended hlater hrest

theorem run_sound (hs : s.Sound) (hrun : s.run acts = some s') : s'.Sound := by
  induction acts generalizing s with
  | nil => exact some.inj hrun ▸ hs
  | cons act acts ih =>
    obtain ⟨next, hstep, hrest⟩ := bind_eq_some_iff.mp hrun
    exact ih (step_sound hs hstep).1 hrest

/-- Eight permits of all and two of each host, every one of them free and no semaphore kept where no read and no navigation
is left. -/
structure Bounded (s : State) : Prop where
  global : ∀ ids : List Nat, ids.Nodup → (∀ id ∈ ids, s.holdsGlobal id) → ids.length ≤ 8
  hosts : ∀ hostname, ∀ ids : List Nat, ids.Nodup → (∀ id ∈ ids, s.holdsHost hostname id) → ids.length ≤ 2
  free : (∀ r, s.tasks r = none) → s.global = .empty ∧ ∀ hostname, s.hosts hostname = none

theorem Sound.bounded (hs : s.Sound) : s.Bounded := by
  refine ⟨fun ids hnodup hids => hs.permits.global.at_most hnodup fun i hi => .inl (hids i hi),
    fun hostname ids hnodup hids => (hs.permits.hosts hostname).at_most hnodup fun i hi => .inl (hids i hi), fun hnone => ?_⟩
  have hno : ∀ (p : Fetch → Prop) id, ¬ s.has p id := by
    rintro p id ⟨f, hf, -⟩
    obtain ⟨r, phase, hread⟩ := read_of_fetch hs hf
    exact absurd ((hnone r).symm.trans hread) (some_ne_none phase).symm
  refine ⟨Semaphore.eq_empty_of_idle (hs.permits.global.idle_iff.mpr ⟨fun i h => h.elim (hno _ i) fun h => h, hno _⟩), fun hostname => ?_⟩
  obtain hfree | ⟨semaphore, hsome⟩ := eq_none_or_eq_some (s.hosts hostname)
  · exact hfree
  · have hidle := (hs.permits.hosts hostname).idle_iff.mpr ⟨fun i h => h.elim (hno _ i) fun h => h, hno _⟩
    rw [hsome] at hidle
    exact absurd ((hs.permits.kept hostname semaphore hsome).symm.trans hidle) Bool.false_ne_true

theorem tasks_eq_none (ha : s.Attended) (hnone : ∀ r, ¬ s.reads r) (r : Nat) : s.tasks r = none := by
  obtain hr | ⟨phase, hr⟩ := eq_none_or_eq_some (s.tasks r)
  · exact hr
  · cases phase with
    | navigating c url q => exact absurd ⟨_, ha r c url q hr, rfl⟩ (hnone q)
    | checking c url always => exact absurd ⟨_, hr, rfl⟩ (hnone r)
    | fetching c => exact absurd ⟨_, hr, rfl⟩ (hnone r)
    | rendering => exact absurd ⟨_, hr, rfl⟩ (hnone r)

/-- Where steps are modest, the permits are bounded and come back when no read is left, no fetches block one another, and
some read goes on until none is left. -/
theorem reads_never_block (hmodest : start.modestAlong acts = true) (hrun : start.run acts = some s) :
    s.Bounded ∧ ((∀ r, ¬ s.reads r) → s.global = .empty ∧ ∀ hostname, s.hosts hostname = none) ∧
      (∀ blocked : Nat → Prop, s.Deadlocked blocked → ∀ id, ¬ blocked id) ∧
      ((∃ r, s.reads r) → ∃ r, s.reads r ∧ ¬ s.waits r) := by
  obtain ⟨hs, hm, ha⟩ := run_modest sound_start modest_start (fun _ _ _ _ h => absurd h (some_ne_none _).symm) hmodest hrun
  refine ⟨hs.bounded, fun hnone => hs.bounded.free (tasks_eq_none ha hnone), fun blocked hd => not_deadlocked hs hm hd, fun ⟨r, hread⟩ => ?_⟩
  by_contra hall
  have hwaits : ∀ r, s.reads r → s.waits r := fun r hread => by
    by_contra hgoes
    exact hall ⟨r, hread, hgoes⟩
  have hblocked := deadlocked_of_waits hs ha hwaits
  have hpends : ∃ c, s.pends c := by
    obtain ⟨-, c, -, -, hc⟩ | ⟨⟨n, c, url, hn⟩, hpages⟩ := hwaits r hread
    · exact ⟨c, hc⟩
    · exact ⟨c, hpages n c url hn⟩
  obtain ⟨c, f, hf, -⟩ := hpends
  exact not_deadlocked hs hm hblocked c (isSome_iff_exists.mpr ⟨f, hf⟩)

/-! ## A host that is blocked -/

def siteA : Url := { https := true, hostname := "a.example" }
def siteB : Url := { https := true, hostname := "b.example" }

/-- Two reads of a site are sent on to another one, the rules of which nobody has asked for. -/
def redirectedReads : List Act :=
  [.read siteA false 0 true, .proceed 1 0 true, .proceed 1 0 true, .respond 1 .answered, .resume 0 0 (.rules true) false,
    .read siteA false 0 true, .proceed 2 0 true, .proceed 4 0 true, .proceed 2 0 true, .proceed 4 0 true,
    .respond 2 (.redirected siteB), .respond 4 (.redirected siteB)]

/-- A page is rendered, and two of its frames go to the second site at once. -/
def framedRead : List Act := [.read siteA true 0 true, .navigate 5 siteB 0, .navigate 5 siteB 0, .proceed 7 0 true, .proceed 9 0 true]

def leftPage : List Act :=
  [.read siteA true 0 true, .proceed 1 0 true, .proceed 1 0 true, .respond 1 .answered, .resume 0 0 (.rules true) false,
    .navigate 0 siteB 0, .rendered 0]

def bothAsk : List Act := [.proceed 2 0 true, .proceed 4 0 true, .proceed 5 0 true, .proceed 6 0 true]

theorem reads_never_block_redirected : ∃ s, start.run (redirectedReads ++ framedRead) = some s ∧ s.Bounded ∧
    ((∀ r, ¬ s.reads r) → s.global = .empty ∧ ∀ hostname, s.hosts hostname = none) ∧
    (∀ blocked : Nat → Prop, s.Deadlocked blocked → ∀ id, ¬ blocked id) ∧
      ((∃ r, s.reads r) → ∃ r, s.reads r ∧ ¬ s.waits r) := by
  have hrun : (start.run (redirectedReads ++ framedRead)).isSome := by decide
  obtain ⟨s, hrun⟩ := isSome_iff_exists.mp hrun
  exact ⟨s, hrun, reads_never_block (by decide) hrun⟩

theorem both_wait : ∃ s, start.run (redirectedReads ++ bothAsk) = some s ∧ (∃ r, s.reads r) ∧ ∀ r, s.reads r → s.waits r := by
  have hrun : (start.run (redirectedReads ++ bothAsk)).isSome := by decide
  obtain ⟨s, hrun⟩ := isSome_iff_exists.mp hrun
  have hreads : s.next = 7 ∧ s.tasks 0 = some (.fetching 2) ∧ s.tasks 3 = some (.fetching 4) ∧
      ∀ r ∈ List.range 7, s.tasks r = none ∨ r = 0 ∨ r = 3 := by
    obtain rfl := Option.some.inj hrun
    decide
  have hfetches : (s.fetches 2).map Fetch.stage = some (.beforeRequest 5) ∧ (s.fetches 4).map Fetch.stage = some (.beforeRequest 6) ∧
      (s.fetches 5).map Fetch.stage = some .waitingHost ∧ (s.fetches 6).map Fetch.stage = some .waitingHost := by
    obtain rfl := Option.some.inj hrun
    decide
  obtain ⟨hnext, hfirst, hsecond, hothers⟩ := hreads
  obtain ⟨h2, h4, h5, h6⟩ := hfetches
  obtain ⟨f2, hf2, hs2⟩ := map_eq_some_iff.mp h2
  obtain ⟨f4, hf4, hs4⟩ := map_eq_some_iff.mp h4
  obtain ⟨f5, hf5, hs5⟩ := map_eq_some_iff.mp h5
  obtain ⟨f6, hf6, hs6⟩ := map_eq_some_iff.mp h6
  refine ⟨s, hrun, ⟨0, _, hfirst, rfl⟩, fun r ⟨phase, hread, _⟩ => .inl ?_⟩
  have hlt : r < 7 := hnext ▸ (run_sound sound_start hrun).links.read_lt hread
  obtain hnone | rfl | rfl := hothers r (mem_range.mpr hlt)
  · exact absurd (hnone.symm.trans hread) (some_ne_none phase).symm
  · exact ⟨_, 2, hfirst, rfl, f2, hf2, .inr (.inr ⟨5, f5, hs2, hf5, .inr hs5⟩)⟩
  · exact ⟨_, 4, hsecond, rfl, f4, hf4, .inr (.inr ⟨6, f6, hs4, hf6, .inr hs6⟩)⟩

/-- Reads wait for ever, and when no read is left a permit may be out. -/
theorem reads_block : (∃ s, start.run (redirectedReads ++ bothAsk) = some s ∧ (∃ r, s.reads r) ∧ ∀ r, s.reads r → s.waits r) ∧
    ∃ s, start.run leftPage = some s ∧ (∀ r, ¬ s.reads r) ∧ s.global.idle = false := by
  refine ⟨both_wait, ?_⟩
  have hrun : (start.run leftPage).isSome := by decide
  obtain ⟨s, hrun⟩ := isSome_iff_exists.mp hrun
  have htasks : s.next = 4 ∧ s.global.idle = false ∧ ∀ r ∈ List.range 4, (s.tasks r).all fun phase => phase.reader?.isSome := by
    obtain rfl := Option.some.inj hrun
    decide
  refine ⟨s, hrun, fun r ⟨phase, hread, hreader⟩ => ?_, htasks.2.1⟩
  have hlt : r < 4 := htasks.1 ▸ (run_sound sound_start hrun).links.read_lt hread
  have hnavigates := htasks.2.2 r (mem_range.mpr hlt)
  rw [hread] at hnavigates
  simp [hreader] at hnavigates

end State

end Cantrip.Web
