import Cantrip.Lib.Post
import Mathlib.Data.List.AList
import Mathlib.Data.List.Sort

/-!
# Input ownership (`cantrip_interaction/src/ownership.rs`)

A participant is an open session with the controls it holds, each with the release prepared for it. The
release of every held control is `heldRelease`; each operation is described by what it does to that function.
-/

namespace Cantrip.Interaction

open Lib List Except

/-- `BTreeMap`. Nothing depends on the order of its bindings. -/
abbrev Map (κ α : Type) := AList fun _ : κ => α

structure TargetIdentity where
  id : String
  generation : Nat
  deriving DecidableEq, Repr

/-- A process-local session generation. -/
structure Participant where
  registry : Nat
  sequence : Nat
  deriving DecidableEq, Repr

inductive OwnershipError
  | sessionNotFound | capacity | alreadyHeld | conflict | notHeld | staleInput
  deriving DecidableEq, Repr

structure Hold (R : Type) where
  release : R
  ordinal : Nat

structure Session (C R : Type) where
  target : TargetIdentity
  domain : String
  holds : Map C (Hold R)
  ordinal : Nat
  lastSequence : Option Nat

structure Ownership (C R : Type) where
  sessions : Map Participant (Session C R)
  owners : Map (String × C) Participant
  registry : Nat
  next : Nat
  maxSessions : Nat
  maxHeld : Nat

def maxU64 : Nat := 0xffffffffffffffff

namespace Ownership

variable {C R : Type} [DecidableEq C]

/-- `registry` is the number drawn for this table, 0 when there are none left. -/
def new (registry maxSessions maxHeld : Nat) : Ownership C R :=
  { sessions := ∅, owners := ∅, registry, next := 0, maxSessions, maxHeld }

def open_ (table : Ownership C R) (target : TargetIdentity) (domain : String) :
    Except OwnershipError (Ownership C R × Participant) :=
  if table.registry = 0 ∨ table.maxSessions ≤ table.sessions.entries.length then .error .capacity
  else if maxU64 ≤ table.next then .error .capacity
  else
    let owner : Participant := ⟨table.registry, table.next + 1⟩
    let session := { target, domain, holds := ∅, ordinal := 0, lastSequence := none }
    .ok ({ table with next := table.next + 1, sessions := table.sessions.insert owner session }, owner)

def session (table : Ownership C R) (owner : Participant) : Except OwnershipError (Session C R) :=
  match table.sessions.lookup owner with
  | some session => .ok session
  | none => .error .sessionNotFound

def putSession (table : Ownership C R) (owner : Participant) (session : Session C R) : Ownership C R :=
  { table with sessions := table.sessions.insert owner session }

def target (table : Ownership C R) (owner : Participant) : Except OwnershipError TargetIdentity := do
  let session ← table.session owner
  .ok session.target

/-- Fence transport reordering before dispatch. -/
def acceptSequence (table : Ownership C R) (owner : Participant) (sequence : Nat) :
    Except OwnershipError (Ownership C R) := do
  let session ← table.session owner
  if session.lastSequence.any fun previous => sequence ≤ previous then .error .staleInput
  else .ok (table.putSession owner { session with lastSequence := some sequence })

def available (table : Ownership C R) (owner : Participant) (control : C) : Except OwnershipError Unit := do
  let session ← table.session owner
  match table.owners.lookup (session.domain, control) with
  | some current => if current = owner then .error .alreadyHeld else .error .conflict
  | none => .ok ()

def hold (table : Ownership C R) (owner : Participant) (control : C) (release : R) :
    Except OwnershipError (Ownership C R) := do
  let session ← table.session owner
  if (session.holds.lookup control).isSome then .error .alreadyHeld
  else if table.maxHeld ≤ session.holds.entries.length then .error .capacity
  else if (table.owners.lookup (session.domain, control)).isSome then .error .conflict
  else if maxU64 ≤ session.ordinal then .error .capacity
  else
    let ordinal := session.ordinal + 1
    let session' := { session with ordinal, holds := session.holds.insert control { release, ordinal } }
    .ok { table.putSession owner session' with owners := table.owners.insert (session.domain, control) owner }

def held (table : Ownership C R) (owner : Participant) (control : C) : Except OwnershipError R := do
  let session ← table.session owner
  match session.holds.lookup control with
  | some hold => .ok hold.release
  | none => .error .notHeld

def holds (table : Ownership C R) (owner : Participant) : Except OwnershipError (List (C × R)) := do
  let session ← table.session owner
  .ok (session.holds.entries.map fun binding => (binding.1, binding.2.release))

/-- The release in place of the present one, which is returned. -/
def replaceRelease (table : Ownership C R) (owner : Participant) (control : C) (release : R) :
    Except OwnershipError (Ownership C R × R) := do
  let session ← table.session owner
  match session.holds.lookup control with
  | some hold =>
    let session' := { session with holds := session.holds.insert control { hold with release } }
    .ok (table.putSession owner session', hold.release)
  | none => .error .notHeld

def updateRelease (table : Ownership C R) (owner : Participant) (control : C) (release : R) :
    Except OwnershipError (Ownership C R) := do
  let (table, _) ← table.replaceRelease owner control release
  .ok table

def release (table : Ownership C R) (owner : Participant) (control : C) : Except OwnershipError (Ownership C R × R) := do
  let session ← table.session owner
  match session.holds.lookup control with
  | some hold =>
    let table := table.putSession owner { session with holds := session.holds.erase control }
    .ok ({ table with owners := table.owners.erase (session.domain, control) }, hold.release)
  | none => .error .notHeld

/-- The releases in reverse order of acquisition, each with the control it is for. -/
def close (table : Ownership C R) (owner : Participant) : Ownership C R × List (C × R) :=
  match table.sessions.lookup owner with
  | none => (table, [])
  | some session =>
    let held := session.holds.entries.insertionSort fun a b => b.2.ordinal ≤ a.2.ordinal
    ({ table with
       sessions := table.sessions.erase owner
       owners := session.holds.keys.foldl (fun owners control => owners.erase (session.domain, control)) table.owners },
     held.map fun binding => (binding.1, binding.2.release))

/-- In the order of their tokens. -/
def participants (table : Ownership C R) : List Participant :=
  table.sessions.keys.insertionSort fun a b => a.sequence ≤ b.sequence

/-! ## What the operations do to the releases -/

def heldRelease (table : Ownership C R) (owner : Participant) (control : C) : Option R :=
  ((table.sessions.lookup owner).bind fun session => session.holds.lookup control).map (·.release)

end Ownership

def setRelease {C R : Type} [DecidableEq C] (releases : Participant → C → Option R) (owner : Participant) (control : C)
    (release : Option R) : Participant → C → Option R :=
  fun p c => if p = owner ∧ c = control then release else releases p c

@[simp] theorem setRelease_self {C R : Type} [DecidableEq C] (releases : Participant → C → Option R) (owner : Participant)
    (control : C) (release : Option R) : setRelease releases owner control release owner control = release := by
  simp [setRelease]

theorem setRelease_setRelease {C R : Type} [DecidableEq C] (releases : Participant → C → Option R) (owner : Participant)
    (control : C) (release release' : Option R) :
    setRelease (setRelease releases owner control release) owner control release' =
      setRelease releases owner control release' := by
  funext p c
  unfold setRelease
  split <;> rfl

theorem setRelease_eq_self {C R : Type} [DecidableEq C] {releases : Participant → C → Option R} {owner : Participant}
    {control : C} {release : Option R} (h : releases owner control = release) :
    setRelease releases owner control release = releases := by
  funext p c
  unfold setRelease
  split
  · next hsame => rw [hsame.1, hsame.2, h]
  · rfl

namespace Ownership

section

variable {C R : Type} {table table' : Ownership C R} {owner : Participant}

/-- The operation touches the session of one participant, which stays open. -/
structure Within (table table' : Ownership C R) (owner : Participant) : Prop where
  others : ∀ p ≠ owner, table'.sessions.lookup p = table.sessions.lookup p
  keys : ∀ p, (table'.sessions.lookup p).isSome = (table.sessions.lookup p).isSome
  registry : table'.registry = table.registry
  next : table'.next = table.next

theorem Within.refl (table : Ownership C R) (owner : Participant) : table.Within table owner :=
  ⟨fun _ _ => rfl, fun _ => rfl, rfl, rfl⟩

theorem Within.trans {table'' : Ownership C R} (h : table.Within table' owner) (h' : table'.Within table'' owner) :
    table.Within table'' owner :=
  ⟨fun p hp => (h'.others p hp).trans (h.others p hp), fun p => (h'.keys p).trans (h.keys p),
    h'.registry.trans h.registry, h'.next.trans h.next⟩

theorem session_eq_ok {session : Session C R} : table.session owner = .ok session ↔ table.sessions.lookup owner = some session := by
  unfold Ownership.session
  cases table.sessions.lookup owner <;> simp

theorem putSession_within (hopen : (table.sessions.lookup owner).isSome) (session : Session C R) :
    table.Within (table.putSession owner session) owner := by
  refine ⟨fun p hp => AList.lookup_insert_ne hp, fun p => ?_, rfl, rfl⟩
  by_cases hp : p = owner
  · subst hp
    rw [hopen, putSession]
    simp
  · rw [putSession]
    exact congrArg Option.isSome (AList.lookup_insert_ne hp)

theorem target_eq_ok {identity : TargetIdentity} :
    table.target owner = .ok identity ↔ ∃ session, table.sessions.lookup owner = some session ∧ session.target = identity := by
  unfold target
  rw [bind_eq_ok]
  simp [session_eq_ok]

end

variable {C R : Type} [DecidableEq C] {table table' : Ownership C R} {owner : Participant} {control : C}

theorem heldRelease_putSession {session session' : Session C R} {release : Option R}
    (hsession : table.sessions.lookup owner = some session)
    (hcontrol : (session'.holds.lookup control).map (·.release) = release)
    (hothers : ∀ c ≠ control, session'.holds.lookup c = session.holds.lookup c) :
    (table.putSession owner session').heldRelease = setRelease table.heldRelease owner control release := by
  funext p c
  unfold heldRelease setRelease putSession
  by_cases hp : p = owner
  · subst hp
    rw [AList.lookup_insert]
    by_cases hc : c = control
    · subst hc
      simpa using hcontrol
    · simp [hc, hsession, hothers c hc]
  · rw [AList.lookup_insert_ne hp]
    simp [hp]

theorem acceptSequence_eq_ok {sequence : Nat} (h : table.acceptSequence owner sequence = .ok table') :
    table'.heldRelease = table.heldRelease ∧ table.Within table' owner ∧ (table.sessions.lookup owner).isSome := by
  obtain ⟨session, hsession, hrun⟩ := bind_eq_ok.mp h
  have hlookup := session_eq_ok.mp hsession
  split at hrun
  · simp at hrun
  · obtain rfl := ok.inj hrun
    have hopen : (table.sessions.lookup owner).isSome := by simp [hlookup]
    refine ⟨?_, putSession_within hopen _, hopen⟩
    funext p c
    unfold heldRelease putSession
    by_cases hp : p = owner
    · subst hp
      simp [hlookup]
    · rw [AList.lookup_insert_ne hp]

theorem hold_eq_ok {release : R} (h : table.hold owner control release = .ok table') :
    table.heldRelease owner control = none ∧
      table'.heldRelease = setRelease table.heldRelease owner control (some release) ∧ table.Within table' owner := by
  obtain ⟨session, hsession, hrun⟩ := bind_eq_ok.mp h
  have hlookup := session_eq_ok.mp hsession
  split at hrun
  · simp at hrun
  next hfree =>
  split at hrun
  · simp at hrun
  split at hrun
  · simp at hrun
  split at hrun
  · simp at hrun
  obtain rfl := ok.inj hrun
  have hnone : session.holds.lookup control = none := by simpa using hfree
  refine ⟨by simp [heldRelease, hlookup, hnone], ?_, ?_⟩
  · refine heldRelease_putSession hlookup (by simp) ?_
    intro c hc
    exact AList.lookup_insert_ne hc
  · have hopen : (table.sessions.lookup owner).isSome := by simp [hlookup]
    have hput := putSession_within hopen { session with
      ordinal := session.ordinal + 1
      holds := session.holds.insert control { release, ordinal := session.ordinal + 1 } }
    exact ⟨hput.others, hput.keys, rfl, rfl⟩

theorem replaceRelease_eq_ok {release old : R} (h : table.replaceRelease owner control release = .ok (table', old)) :
    table.heldRelease owner control = some old ∧
      table'.heldRelease = setRelease table.heldRelease owner control (some release) ∧ table.Within table' owner := by
  obtain ⟨session, hsession, hrun⟩ := bind_eq_ok.mp h
  have hlookup := session_eq_ok.mp hsession
  split at hrun
  · next hold hhold =>
    obtain ⟨rfl, rfl⟩ := Prod.mk.inj (ok.inj hrun)
    refine ⟨by simp [heldRelease, hlookup, hhold], ?_, putSession_within (by simp [hlookup]) _⟩
    refine heldRelease_putSession hlookup (by simp) ?_
    intro c hc
    exact AList.lookup_insert_ne hc
  · simp at hrun

theorem updateRelease_of_held {old : R} (release : R) (h : table.heldRelease owner control = some old) :
    ∃ table', table.updateRelease owner control release = .ok table' ∧
      table'.heldRelease = setRelease table.heldRelease owner control (some release) ∧ table.Within table' owner := by
  unfold heldRelease at h
  cases hlookup : table.sessions.lookup owner with
  | none => simp [hlookup] at h
  | some session =>
    cases hhold : session.holds.lookup control with
    | none => simp [hlookup, hhold] at h
    | some hold =>
      have hreplace : table.replaceRelease owner control release =
          .ok (table.putSession owner { session with holds := session.holds.insert control { hold with release } },
            hold.release) := by
        refine bind_eq_ok.mpr ⟨session, session_eq_ok.mpr hlookup, ?_⟩
        rw [hhold]
      exact ⟨_, bind_eq_ok.mpr ⟨_, hreplace, rfl⟩, (replaceRelease_eq_ok hreplace).2⟩

theorem release_eq_ok {taken : R} (h : table.release owner control = .ok (table', taken)) :
    table.heldRelease owner control = some taken ∧
      table'.heldRelease = setRelease table.heldRelease owner control none ∧ table.Within table' owner := by
  obtain ⟨session, hsession, hrun⟩ := bind_eq_ok.mp h
  have hlookup := session_eq_ok.mp hsession
  split at hrun
  · next hold hhold =>
    obtain ⟨rfl, rfl⟩ := Prod.mk.inj (ok.inj hrun)
    refine ⟨by simp [heldRelease, hlookup, hhold], ?_, ?_⟩
    · refine heldRelease_putSession hlookup (by simp) ?_
      intro c hc
      exact AList.lookup_erase_ne hc
    · have hopen : (table.sessions.lookup owner).isSome := by simp [hlookup]
      have hput := putSession_within hopen { session with holds := session.holds.erase control }
      exact ⟨hput.others, hput.keys, rfl, rfl⟩
  · simp at hrun

theorem release_of_held {taken : R} (h : table.heldRelease owner control = some taken) :
    ∃ table', table.release owner control = .ok (table', taken) := by
  unfold heldRelease at h
  cases hlookup : table.sessions.lookup owner with
  | none => simp [hlookup] at h
  | some session =>
    cases hhold : session.holds.lookup control with
    | none => simp [hlookup, hhold] at h
    | some hold =>
      obtain rfl : hold.release = taken := by simpa [hlookup, hhold] using h
      refine ⟨{ table.putSession owner { session with holds := session.holds.erase control } with
        owners := table.owners.erase (session.domain, control) }, ?_⟩
      refine bind_eq_ok.mpr ⟨session, session_eq_ok.mpr hlookup, ?_⟩
      rw [hhold]
      rfl

theorem held_eq_ok {taken : R} (h : table.held owner control = .ok taken) : table.heldRelease owner control = some taken := by
  obtain ⟨session, hsession, hrun⟩ := bind_eq_ok.mp h
  have hlookup := session_eq_ok.mp hsession
  split at hrun
  · next hold hhold =>
    obtain rfl := ok.inj hrun
    simp [heldRelease, hlookup, hhold]
  · simp at hrun

theorem open_eq_ok {identity : TargetIdentity} {domain : String} (h : table.open_ identity domain = .ok (table', owner))
    (hfresh : ∀ p, (table.sessions.lookup p).isSome → p.sequence ≤ table.next) :
    table.sessions.lookup owner = none ∧ table'.heldRelease = table.heldRelease ∧
      (∀ p ≠ owner, table'.sessions.lookup p = table.sessions.lookup p) ∧ (table'.sessions.lookup owner).isSome ∧
      table'.next = table.next + 1 ∧ owner.sequence = table.next + 1 := by
  unfold open_ at h
  split at h
  · simp at h
  split at h
  · simp at h
  obtain ⟨rfl, rfl⟩ := Prod.mk.inj (ok.inj h)
  have hnone : table.sessions.lookup ⟨table.registry, table.next + 1⟩ = none := by
    rw [← Option.not_isSome_iff_eq_none]
    intro hopen
    exact Nat.not_succ_le_self _ (hfresh _ hopen)
  refine ⟨hnone, ?_, fun p hp => AList.lookup_insert_ne hp, by simp, rfl, rfl⟩
  funext p c
  unfold heldRelease
  by_cases hp : p = ⟨table.registry, table.next + 1⟩
  · subst hp
    simp [hnone]
  · rw [AList.lookup_insert_ne hp]

theorem close_spec (table : Ownership C R) (owner : Participant) :
    (∀ p c, (table.close owner).1.heldRelease p c = if p = owner then none else table.heldRelease p c) ∧
      (∀ c r, (c, r) ∈ (table.close owner).2 ↔ table.heldRelease owner c = some r) ∧
      ((table.close owner).2.map Prod.fst).Nodup ∧
      (∀ p ≠ owner, (table.close owner).1.sessions.lookup p = table.sessions.lookup p) ∧
      (table.close owner).1.sessions.lookup owner = none ∧ (table.close owner).1.next = table.next := by
  unfold close
  cases hlookup : table.sessions.lookup owner with
  | none =>
    refine ⟨fun p c => ?_, fun c r => ?_, nodup_nil, fun _ _ => rfl, hlookup, rfl⟩
    · by_cases hp : p = owner
      · subst hp
        simp [heldRelease, hlookup]
      · simp [hp]
    · simp [heldRelease, hlookup]
  | some session =>
    have hperm := perm_insertionSort (fun a b => b.2.ordinal ≤ a.2.ordinal) session.holds.entries
    refine ⟨fun p c => ?_, fun c r => ?_, ?_, fun p hp => AList.lookup_erase_ne hp, AList.lookup_erase _ _, rfl⟩
    · unfold heldRelease
      by_cases hp : p = owner
      · subst hp
        simp
      · simp only [AList.lookup_erase_ne hp, if_neg hp]
    · rw [mem_map]
      unfold heldRelease
      rw [hlookup, Option.bind_some, Option.map_eq_some_iff]
      constructor
      · rintro ⟨⟨c', hold⟩, hmem, he⟩
        obtain ⟨rfl, rfl⟩ := Prod.mk.inj he
        exact ⟨hold, AList.mem_lookup_iff.mpr (hperm.mem_iff.mp hmem), rfl⟩
      · rintro ⟨hold, hhold, rfl⟩
        exact ⟨⟨c, hold⟩, hperm.mem_iff.mpr (AList.mem_lookup_iff.mp hhold), rfl⟩
    · rw [map_map]
      exact ((hperm.map Sigma.fst).nodup_iff).mpr session.holds.keys_nodup

end Ownership

end Cantrip.Interaction
