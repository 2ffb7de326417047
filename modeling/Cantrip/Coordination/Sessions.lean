import Cantrip.Coordination.Directory

/-!
# Claims of WorkerLink sessions (`coordination/redis.rs`)

The record of a session in Redis names the instance that has authority over it, until the lease of the session ends.
The model is of one session. An instance holds the session from the moment when Redis takes its claim or its refresh,
until the claim expires or Redis takes its release.
-/

namespace Cantrip.Coordination

open Lib List Option

structure SessionClaim where
  authorityInstanceId : Utf16
  session : Utf16
  /-- The end of the lease in the session. -/
  leaseExpiresAt : Int
  expiresAt : Int
  deriving DecidableEq

def sessionClaim (now : Int) (value : SessionClaim) : Option SessionClaim :=
  if string value.authorityInstanceId 512 && decide (value.expiresAt = value.leaseExpiresAt) &&
      decide (now < value.leaseExpiresAt) then some value
  else none

/-- The time for which Redis keeps a claim. -/
def SessionClaim.remaining (c : SessionClaim) (now : Int) : Int := max (c.expiresAt - now) 1

namespace Sessions

inductive Operation
  | find
  | claim (input : SessionClaim)
  | refresh (input : SessionClaim)
  | release (authority : Utf16)

inductive Answer
  | found (claim : Option SessionClaim)
  | claimed (previous : Option SessionClaim)
  | refreshed (done : Bool)
  | released (done : Bool)
  /-- "WorkerLink session claim is invalid." -/
  | invalid

inductive Stage
  | getting (operation : Operation)
  | got (operation : Operation) (raw : Option SessionClaim)
  /-- `SET`, if there is none. -/
  | adding (claim : SessionClaim) (ttl : Int)
  | added (done : Bool)
  | gettingAgain
  | gotAgain (raw : Option SessionClaim)
  | replacing (raw next : SessionClaim) (ttl : Int)
  | replaced (done : Bool)
  | removing (raw : SessionClaim)
  | removed (done : Bool)
  | answered (answer : Answer)
  | failed

structure Entry where
  value : SessionClaim
  deadline : Int

structure State where
  now : Int
  entry : Option Entry
  stages : List Stage
  /-- Until when an instance holds the session. -/
  held : Utf16 → Option Int

def start : State := { now := 0, entry := none, stages := [], held := fun _ => none }

def State.stored (s : State) : Option SessionClaim := (s.entry.filter fun e => s.now ≤ e.deadline).map Entry.value

def State.hold (s : State) (authority : Utf16) (until? : Option Int) : State :=
  { s with held := fun other => if other = authority then until? else s.held other }

/-- An operation up to its first command. -/
def begins (s : State) : Operation → Stage
  | .find => .getting .find
  | .claim input =>
    match sessionClaim s.now input with
    | none => .answered .invalid
    | some parsed => .getting (.claim parsed)
  | .refresh input =>
    match sessionClaim s.now input with
    | none => .answered (.refreshed false)
    | some parsed => .getting (.refresh parsed)
  | .release authority => .getting (.release authority)

/-- Redis carries a command out. -/
def execute (s : State) : Stage → Option (State × Stage)
  | .getting operation => some (s, .got operation s.stored)
  | .gettingAgain => some (s, .gotAgain s.stored)
  | .adding claim ttl =>
    if s.stored = none then
      some ({ s with entry := some ⟨claim, s.now + ttl⟩ }.hold claim.authorityInstanceId (some claim.expiresAt), .added true)
    else some (s, .added false)
  | .replacing raw next ttl =>
    if s.stored = some raw then
      some ({ s with entry := some ⟨next, s.now + ttl⟩ }.hold next.authorityInstanceId (some next.expiresAt), .replaced true)
    else some (s, .replaced false)
  | .removing raw =>
    if s.stored = some raw then some ({ s with entry := none }.hold raw.authorityInstanceId none, .removed true)
    else some (s, .removed false)
  | _ => none

/-- An operation goes on with the reply. -/
def resume (s : State) : Stage → Option Stage
  | .got .find raw => some (.answered (.found (raw.bind (sessionClaim s.now))))
  | .got (.claim parsed) raw =>
    match raw.bind (sessionClaim s.now) with
    | some previous => some (.answered (.claimed (some previous)))
    | none => some (.adding parsed (parsed.remaining s.now))
  | .got (.refresh parsed) raw =>
    match raw.bind (sessionClaim s.now) with
    | none => some (.answered (.refreshed false))
    | some current =>
      if current.authorityInstanceId ≠ parsed.authorityInstanceId then some (.answered (.refreshed false))
      else some (.replacing current parsed (parsed.remaining s.now))
  | .got (.release authority) raw =>
    match raw.bind (sessionClaim s.now) with
    | none => some (.answered (.released false))
    | some current =>
      if current.authorityInstanceId ≠ authority then some (.answered (.released false)) else some (.removing current)
  | .added true => some (.answered (.claimed none))
  | .added false => some .gettingAgain
  | .gotAgain raw => some (.answered (.claimed (raw.bind (sessionClaim s.now))))
  | .replaced done => some (.answered (.refreshed done))
  | .removed done => some (.answered (.released done))
  | _ => none

inductive Act
  | tick (milliseconds : Nat)
  | begins (operation : Operation)
  | execute (n : Nat)
  | resume (n : Nat)
  | fail (n : Nat)

def step (s : State) : Act → Option State
  | .tick milliseconds => some { s with now := s.now + milliseconds }
  | .begins operation => some { s with stages := s.stages ++ [begins s operation] }
  | .execute n =>
    s.stages[n]?.bind fun stage => (execute s stage).map fun result => { result.1 with stages := result.1.stages.set n result.2 }
  | .resume n => s.stages[n]?.bind fun stage => (resume s stage).map fun next => { s with stages := s.stages.set n next }
  | .fail n => s.stages[n]?.map fun _ => { s with stages := s.stages.set n .failed }

def run (s : State) : List Act → Option State
  | [] => some s
  | act :: acts => (step s act).bind fun s' => run s' acts

/-! ## Holders -/

/-- The instance holds the session. -/
def State.Holds (s : State) (authority : Utf16) : Prop := ∃ deadline, s.held authority = some deadline ∧ s.now < deadline

/-- What a command was computed from. -/
def Knows (s : State) : Stage → Prop
  | .adding claim ttl => claim.expiresAt ≤ s.now + ttl
  | .replacing raw next ttl => raw.authorityInstanceId = next.authorityInstanceId ∧ next.expiresAt ≤ s.now + ttl
  | _ => True

/-- Who holds the session is named by the record, and the record stays as long. -/
structure Coherent (s : State) : Prop where
  named : ∀ authority deadline, s.held authority = some deadline → s.now < deadline →
    ∃ e, s.entry = some e ∧ e.value.authorityInstanceId = authority ∧ deadline ≤ e.deadline
  knows : ∀ stage ∈ s.stages, Knows s stage

variable {s s' : State} {stage stage' : Stage}

theorem coherent_start : Coherent start := ⟨nofun, nofun⟩

theorem Knows.later (h : Knows s stage) (hnow : s.now ≤ s'.now) : Knows s' stage := by
  cases stage with
  | adding claim ttl =>
    simp only [Knows] at h ⊢
    omega
  | replacing raw next ttl =>
    obtain ⟨hsame, hexpires⟩ := h
    exact ⟨hsame, by omega⟩
  | _ => trivial

theorem expiresAt_le_remaining (c : SessionClaim) (now : Int) : c.expiresAt ≤ now + c.remaining now := by
  unfold SessionClaim.remaining
  omega

theorem begins_knows (s : State) (operation : Operation) : Knows s (begins s operation) := by
  cases operation <;> unfold begins <;> dsimp only <;> first | trivial | (split <;> trivial)

theorem Coherent.stored (h : Coherent s) {authority : Utf16} (hholds : s.Holds authority) :
    ∃ c, s.stored = some c ∧ c.authorityInstanceId = authority := by
  obtain ⟨deadline, hheld, hlt⟩ := hholds
  obtain ⟨e, hentry, hauthority, hdeadline⟩ := h.named authority deadline hheld hlt
  refine ⟨e.value, ?_, hauthority⟩
  have hkept : s.entry.filter (fun e => s.now ≤ e.deadline) = some e := by
    refine filter_eq_some_iff.mpr ⟨hentry, ?_⟩
    simp only [decide_eq_true_eq]
    omega
  unfold State.stored
  rw [hkept, map_some]

theorem named_set (claim : SessionClaim) (ttl : Int) (hexpires : claim.expiresAt ≤ s.now + ttl)
    (hothers : ∀ authority, s.Holds authority → authority = claim.authorityInstanceId) :
    ∀ authority deadline, ({ s with entry := some ⟨claim, s.now + ttl⟩ }.hold claim.authorityInstanceId
        (some claim.expiresAt)).held authority = some deadline → s.now < deadline →
      ∃ e, some (⟨claim, s.now + ttl⟩ : Entry) = some e ∧ e.value.authorityInstanceId = authority ∧ deadline ≤ e.deadline := by
  intro authority deadline hheld hlt
  refine ⟨_, rfl, ?_⟩
  unfold State.hold at hheld
  dsimp only at hheld
  split at hheld
  · next hsame =>
    cases hheld
    exact ⟨hsame.symm, hexpires⟩
  · next hne => exact absurd (hothers authority ⟨deadline, hheld, hlt⟩) hne

theorem execute_coherent (h : Coherent s) (hknows : Knows s stage) (hstep : execute s stage = some (s', stage')) :
    (∀ authority deadline, s'.held authority = some deadline → s'.now < deadline →
      ∃ e, s'.entry = some e ∧ e.value.authorityInstanceId = authority ∧ deadline ≤ e.deadline) ∧
      s'.now = s.now ∧ s'.stages = s.stages ∧ Knows s stage' := by
  cases stage with
  | getting operation =>
    cases hstep
    exact ⟨h.named, rfl, rfl, trivial⟩
  | gettingAgain =>
    cases hstep
    exact ⟨h.named, rfl, rfl, trivial⟩
  | adding claim ttl =>
    unfold execute at hstep
    dsimp only at hstep
    split at hstep
    · next hnone =>
      cases hstep
      refine ⟨named_set claim ttl hknows fun authority hholds => ?_, rfl, rfl, trivial⟩
      obtain ⟨c, hstored, -⟩ := h.stored hholds
      rw [hnone] at hstored
      cases hstored
    · cases hstep
      exact ⟨h.named, rfl, rfl, trivial⟩
  | replacing raw next ttl =>
    obtain ⟨hsame, hexpires⟩ := hknows
    unfold execute at hstep
    dsimp only at hstep
    split at hstep
    · next hraw =>
      cases hstep
      refine ⟨named_set next ttl hexpires fun authority hholds => ?_, rfl, rfl, trivial⟩
      obtain ⟨c, hstored, hauthority⟩ := h.stored hholds
      rw [hraw] at hstored
      cases hstored
      rw [← hauthority, hsame]
    · cases hstep
      exact ⟨h.named, rfl, rfl, trivial⟩
  | removing raw =>
    unfold execute at hstep
    dsimp only at hstep
    split at hstep
    · next hraw =>
      cases hstep
      refine ⟨fun authority deadline hheld hlt => ?_, rfl, rfl, trivial⟩
      unfold State.hold at hheld
      dsimp only at hheld
      split at hheld
      · cases hheld
      · next hne =>
        obtain ⟨c, hstored, hauthority⟩ := h.stored ⟨deadline, hheld, hlt⟩
        rw [hraw] at hstored
        cases hstored
        exact absurd hauthority.symm hne
    · cases hstep
      exact ⟨h.named, rfl, rfl, trivial⟩
  | _ => cases hstep

theorem resume_knows (hstep : resume s stage = some stage') : Knows s stage' := by
  unfold resume at hstep
  split at hstep
  case h_2 parsed raw =>
    split at hstep <;> cases hstep
    · trivial
    · exact expiresAt_le_remaining parsed s.now
  case h_3 parsed raw =>
    split at hstep
    · cases hstep
      trivial
    · split at hstep
      · cases hstep
        trivial
      · next hsame =>
        cases hstep
        exact ⟨not_not.mp hsame, expiresAt_le_remaining parsed s.now⟩
  case h_4 authority raw =>
    split at hstep
    · cases hstep
      trivial
    · split at hstep <;> cases hstep <;> trivial
  all_goals cases hstep
  all_goals trivial

theorem Coherent.step {act : Act} (h : Coherent s) (hstep : Sessions.step s act = some s') : Coherent s' := by
  cases act with
  | tick milliseconds =>
    cases hstep
    refine ⟨fun authority deadline hheld hlt => h.named authority deadline hheld ?_, fun stage hstage => ?_⟩
    · simp only at hlt
      omega
    · exact (h.knows stage hstage).later (by simp)
  | begins operation =>
    cases hstep
    refine ⟨h.named, fun stage hstage => ?_⟩
    rcases mem_append.mp hstage with hstage | hstage
    · exact (h.knows stage hstage).later (le_refl _)
    · rw [mem_singleton.mp hstage]
      exact (begins_knows s operation).later (le_refl _)
  | execute n =>
    obtain ⟨stage, hstage, hresult⟩ := bind_eq_some_iff.mp hstep
    obtain ⟨⟨s₁, stage₁⟩, hexecute, rfl⟩ := map_eq_some_iff.mp hresult
    obtain ⟨hnamed, hnow, hstages, hknows⟩ := execute_coherent h (h.knows stage (mem_of_getElem? hstage)) hexecute
    refine ⟨hnamed, fun st hst => ?_⟩
    dsimp only at hst
    rw [hstages] at hst
    rcases mem_or_eq_of_mem_set hst with hst | rfl
    · exact (h.knows st hst).later (le_of_eq hnow.symm)
    · exact hknows.later (le_of_eq hnow.symm)
  | resume n =>
    obtain ⟨stage, hstage, hresult⟩ := bind_eq_some_iff.mp hstep
    obtain ⟨stage₁, hresume, rfl⟩ := map_eq_some_iff.mp hresult
    refine ⟨h.named, fun st hst => ?_⟩
    rcases mem_or_eq_of_mem_set hst with hst | rfl
    · exact (h.knows st hst).later (le_refl _)
    · exact (resume_knows hresume).later (le_refl _)
  | fail n =>
    obtain ⟨stage, hstage, rfl⟩ := map_eq_some_iff.mp hstep
    refine ⟨h.named, fun st hst => ?_⟩
    rcases mem_or_eq_of_mem_set hst with hst | rfl
    · exact (h.knows st hst).later (le_refl _)
    · trivial

theorem Coherent.run {acts : List Act} (h : Coherent s) (hrun : Sessions.run s acts = some s') : Coherent s' := by
  induction acts generalizing s with
  | nil =>
    cases hrun
    exact h
  | cons act acts ih =>
    obtain ⟨m, hstep, hrun'⟩ := bind_eq_some_iff.mp hrun
    exact ih (h.step hstep) hrun'

theorem Coherent.one_holder (h : Coherent s) {a b : Utf16} (ha : s.Holds a) (hb : s.Holds b) : a = b := by
  obtain ⟨c, hstored, rfl⟩ := h.stored ha
  obtain ⟨c', hstored', rfl⟩ := h.stored hb
  rw [hstored] at hstored'
  cases hstored'
  rfl

end Sessions

end Cantrip.Coordination
