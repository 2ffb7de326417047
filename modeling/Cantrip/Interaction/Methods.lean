import Cantrip.Interaction.Ownership

/-!
# The methods of the ownership table (`cantrip_interaction/src/ownership.rs`)

Every method that takes `&mut self` is written out with its writes in the order of the source, so that a write
before an error would stay. None has one: each method is the operation of `Cantrip.Interaction.Ownership`
(`perform_eq`), which has no table to return with an error.
-/

namespace Cantrip.Interaction

open Lib

/-- A method that takes `&mut self`: what it has written stays when it returns an error. -/
abbrev Method (C R α : Type) := EStateM OwnershipError (Ownership C R) α

namespace Method

variable {C R : Type} [DecidableEq C]

/-- `self.sessions.get_mut(&owner)`. -/
def session (owner : Participant) : Method C R (Session C R) := do
  match (← get).sessions.lookup owner with
  | some session => pure session
  | none => throw .sessionNotFound

/-- A write through `&mut Session`. -/
def write (owner : Participant) (session : Session C R) : Method C R Unit :=
  modify fun table => table.putSession owner session

def open_ (target : TargetIdentity) (domain : String) : Method C R Participant := do
  let table ← get
  if table.registry = 0 ∨ table.maxSessions ≤ table.sessions.entries.length then throw .capacity
  else if maxU64 ≤ table.next then throw .capacity
  else
    modify fun table => { table with next := table.next + 1 }
    let owner : Participant := ⟨table.registry, table.next + 1⟩
    write owner { target, domain, holds := ∅, ordinal := 0, lastSequence := none }
    pure owner

def acceptSequence (owner : Participant) (sequence : Nat) : Method C R Unit := do
  let session ← Method.session owner
  if session.lastSequence.any fun previous => sequence ≤ previous then throw .staleInput
  else write owner { session with lastSequence := some sequence }

def hold (owner : Participant) (control : C) (release : R) : Method C R Unit := do
  let session ← Method.session owner
  let table ← get
  let key := (session.domain, control)
  if (session.holds.lookup control).isSome then throw .alreadyHeld
  else if table.maxHeld ≤ session.holds.entries.length then throw .capacity
  else if (table.owners.lookup key).isSome then throw .conflict
  else if maxU64 ≤ session.ordinal then throw .capacity
  else
    let session := { session with ordinal := session.ordinal + 1 }
    write owner session
    write owner { session with holds := session.holds.insert control { release, ordinal := session.ordinal } }
    modify fun table => { table with owners := table.owners.insert key owner }

def replaceRelease (owner : Participant) (control : C) (release : R) : Method C R R := do
  let session ← Method.session owner
  match session.holds.lookup control with
  | some hold =>
    write owner { session with holds := session.holds.insert control { hold with release } }
    pure hold.release
  | none => throw .notHeld

def release (owner : Participant) (control : C) : Method C R R := do
  let session ← Method.session owner
  match session.holds.lookup control with
  | some hold =>
    write owner { session with holds := session.holds.erase control }
    modify fun table => { table with owners := table.owners.erase (session.domain, control) }
    pure hold.release
  | none => throw .notHeld

/-- The owners of the controls go one after the other, in the loop that collects the holds. -/
def disown (domain : String) : List C → Method C R Unit
  | [] => pure ()
  | control :: controls => do
    modify fun table => { table with owners := table.owners.erase (domain, control) }
    disown domain controls

def close (owner : Participant) : Method C R (List R) := do
  match (← get).sessions.lookup owner with
  | none => pure []
  | some session =>
    modify fun table => { table with sessions := table.sessions.erase owner }
    disown session.domain session.holds.keys
    let holds := session.holds.entries.insertionSort fun a b => b.2.ordinal ≤ a.2.ordinal
    pure (holds.map fun binding => binding.2.release)

end Method

/-- The operations that change the table. -/
inductive Operation (C R : Type)
  | open_ (target : TargetIdentity) (domain : String)
  | acceptSequence (owner : Participant) (sequence : Nat)
  | hold (owner : Participant) (control : C) (release : R)
  | replaceRelease (owner : Participant) (control : C) (release : R)
  | release (owner : Participant) (control : C)
  | close (owner : Participant)

inductive Returned (R : Type)
  | opened (owner : Participant)
  | done
  | taken (release : R)
  | closed (releases : List R)

namespace Operation

variable {C R : Type} [DecidableEq C]

def perform : Operation C R → Method C R (Returned R)
  | open_ target domain => do return .opened (← Method.open_ target domain)
  | acceptSequence owner sequence => do
    Method.acceptSequence owner sequence
    return .done
  | hold owner control prepared => do
    Method.hold owner control prepared
    return .done
  | replaceRelease owner control prepared => do return .taken (← Method.replaceRelease owner control prepared)
  | release owner control => do return .taken (← Method.release owner control)
  | close owner => do return .closed (← Method.close owner)

def apply (table : Ownership C R) : Operation C R → Except OwnershipError (Ownership C R × Returned R)
  | open_ target domain => do
    let (table, owner) ← table.open_ target domain
    .ok (table, .opened owner)
  | acceptSequence owner sequence => do
    let table ← table.acceptSequence owner sequence
    .ok (table, .done)
  | hold owner control prepared => do
    let table ← table.hold owner control prepared
    .ok (table, .done)
  | replaceRelease owner control prepared => do
    let (table, old) ← table.replaceRelease owner control prepared
    .ok (table, .taken old)
  | release owner control => do
    let (table, taken) ← table.release owner control
    .ok (table, .taken taken)
  | close owner =>
    let (table, releases) := table.close owner
    .ok (table, .closed (releases.map Prod.snd))

def outcome {α : Type} (table : Ownership C R) :
    Except OwnershipError (Ownership C R × α) → EStateM.Result OwnershipError (Ownership C R) α
  | .ok (table', a) => .ok a table'
  | .error error => .error error table

theorem run_disown (domain : String) (controls : List C) (table : Ownership C R) : Method.disown domain controls table =
      .ok () { table with owners := controls.foldl (fun owners control => owners.erase (domain, control)) table.owners } := by
  induction controls generalizing table with
  | nil => rfl
  | cons control controls ih =>
    rw [Method.disown, run_modify, ih]
    rfl

omit [DecidableEq C] in
theorem run_with_session {α : Type} (table : Ownership C R) (owner : Participant) (f : Session C R → Method C R α) :
    (Method.session owner >>= f) table =
      match table.session owner with
      | .ok session => f session table
      | .error error => .error error table := by
  cases hlookup : table.sessions.lookup owner with
  | some session =>
    have hrun : Method.session owner table = .ok session table := by
      unfold Method.session
      rw [run_get, hlookup]
      rfl
    rw [run_bind hrun, Ownership.session, hlookup]
  | none =>
    have hrun : Method.session owner table = .error .sessionNotFound table := by
      unfold Method.session
      rw [run_get, hlookup]
      rfl
    rw [Ownership.session, hlookup]
    simp only [bind, EStateM.bind, hrun]

omit [DecidableEq C] in
theorem run_then {α β : Type} {table : Ownership C R} {method : Method C R α}
    {result : Except OwnershipError (Ownership C R × α)} {f : α → β} (h : method table = outcome table result) :
    (method >>= fun a => pure (f a)) table = outcome table (result.map fun r => (r.1, f r.2)) := by
  simp only [bind, EStateM.bind, h]
  cases result <;> rfl

omit [DecidableEq C] in
theorem run_open (table : Ownership C R) (target : TargetIdentity) (domain : String) :
    Method.open_ target domain table = outcome table (table.open_ target domain) := by
  rw [Method.open_, run_get, Ownership.open_]
  split_ifs <;> rfl

omit [DecidableEq C] in
theorem run_acceptSequence (table : Ownership C R) (owner : Participant) (sequence : Nat) :
    Method.acceptSequence owner sequence table =
      outcome table ((table.acceptSequence owner sequence).map fun table' => (table', ())) := by
  rw [Method.acceptSequence, Ownership.acceptSequence, run_with_session]
  cases table.session owner with
  | error error => rfl
  | ok session =>
    simp only [bind, Except.bind]
    split_ifs <;> rfl

theorem run_hold (table : Ownership C R) (owner : Participant) (control : C) (release : R) :
    Method.hold owner control release table =
      outcome table ((table.hold owner control release).map fun table' => (table', ())) := by
  rw [Method.hold, Ownership.hold, run_with_session]
  cases table.session owner with
  | error error => rfl
  | ok session =>
    refine run_get.trans ?_
    simp only [bind, Except.bind]
    split_ifs
    · rfl
    · rfl
    · rfl
    · rfl
    · -- the session is written twice, and the second write counts
      refine run_modify.trans ?_
      refine run_modify.trans ?_
      simp only [Ownership.putSession, AList.insert_insert, outcome, Except.map]
      rfl

theorem run_replaceRelease (table : Ownership C R) (owner : Participant) (control : C) (release : R) :
    Method.replaceRelease owner control release table = outcome table (table.replaceRelease owner control release) := by
  rw [Method.replaceRelease, Ownership.replaceRelease, run_with_session]
  cases table.session owner with
  | error error => rfl
  | ok session =>
    simp only [bind, Except.bind]
    cases session.holds.lookup control <;> rfl

theorem run_release (table : Ownership C R) (owner : Participant) (control : C) :
    Method.release owner control table = outcome table (table.release owner control) := by
  rw [Method.release, Ownership.release, run_with_session]
  cases table.session owner with
  | error error => rfl
  | ok session =>
    simp only [bind, Except.bind]
    cases session.holds.lookup control <;> rfl

theorem run_close (table : Ownership C R) (owner : Participant) :
    Method.close owner table = outcome table (.ok ((table.close owner).1, (table.close owner).2.map Prod.snd)) := by
  rw [Method.close, run_get, Ownership.close]
  cases table.sessions.lookup owner with
  | none => rfl
  | some session =>
    simp only [run_modify, run_bind (run_disown _ _ _), List.map_map]
    rfl

theorem perform_eq (operation : Operation C R) (table : Ownership C R) :
    operation.perform table = outcome table (operation.apply table) := by
  cases operation with
  | open_ target domain =>
    refine (run_then (run_open table target domain)).trans ?_
    rw [apply]
    cases table.open_ target domain <;> rfl
  | acceptSequence owner sequence =>
    refine (run_then (f := fun _ => (.done : Returned R)) (run_acceptSequence table owner sequence)).trans ?_
    rw [apply]
    cases table.acceptSequence owner sequence <;> rfl
  | hold owner control prepared =>
    refine (run_then (f := fun _ => (.done : Returned R)) (run_hold table owner control prepared)).trans ?_
    rw [apply]
    cases table.hold owner control prepared <;> rfl
  | replaceRelease owner control prepared =>
    refine (run_then (run_replaceRelease table owner control prepared)).trans ?_
    rw [apply]
    cases table.replaceRelease owner control prepared <;> rfl
  | release owner control =>
    refine (run_then (run_release table owner control)).trans ?_
    rw [apply]
    cases table.release owner control <;> rfl
  | close owner => exact run_then (run_close table owner)

end Operation

end Cantrip.Interaction
