import Cantrip.Coordination.Presence
import Cantrip.Coordination.Sessions

/-!
# Ownership of workers and sessions

What holds of the directory after any run. The copies of the instances are under no order of their own: an old message
that comes after a newer one is believed (`late_news_kept`).
-/

namespace Cantrip.Coordination

open Lib Option

namespace Directory

variable {ttl : Nat} {d : Directory} {i : Utf16}

def Stage.isAnswered : Stage → Bool
  | .answered _ => true
  | _ => false

def Settled (d : Directory) (i : Utf16) : Prop :=
  (∀ task ∈ d.tasks, Stage.isAnswered task.stage) ∧ ∀ m ∈ d.messages, m.sourceInstanceId = i ∨ m.change ∈ d.heard i

instance (d : Directory) (i : Utf16) : Decidable (d.Settled i) :=
  inferInstanceAs (Decidable ((∀ task ∈ d.tasks, Stage.isAnswered task.stage = true) ∧
    ∀ m ∈ d.messages, m.sourceInstanceId = i ∨ m.change ∈ d.heard i))

theorem heard_all (h : Coherent ttl d) (hsettled : d.Settled i) : ∀ n, n < d.changes.length → n ∈ d.heard i := by
  obtain ⟨hanswered, htaken⟩ := hsettled
  intro n hn
  obtain ⟨k, task, htask, hcarries⟩ | ⟨m, hm, rfl⟩ := h.told n hn
  · have hstage := hanswered task (List.mem_of_getElem? htask)
    cases hcase : task.stage with
    | answered answer =>
      rw [hcase] at hcarries
      exact absurd hcarries id
    | _ =>
      rw [hcase] at hstage
      cases hstage
  · obtain hsource | hheard := htaken m hm
    · exact hsource ▸ (h.core.tells m hm).heard
    · exact hheard

theorem kept_eq_stored (h : Coherent ttl d) (hsettled : d.Settled i) (hordered : (d.heard i).Pairwise (· ≤ ·)) :
    cached d.now (d.kept i) = none ∨ cached d.now (d.kept i) = d.stored := by
  obtain hnone | ⟨p, hp⟩ := eq_none_or_eq_some (cached d.now (d.kept i))
  · exact .inl hnone
  · obtain ⟨hkept, hexpires⟩ := filter_eq_some_iff.mp hp
    have hcurrent := (h.core.believes i hordered).complete h.core.sound (heard_all h hsettled) hkept
    rw [← h.core.value] at hcurrent
    obtain ⟨e, hentry, rfl⟩ := map_eq_some_iff.mp hcurrent
    have hdeadline := h.core.deadline e hentry
    have hstored : d.entry.filter (fun e => d.now ≤ e.deadline) = some e := by
      refine filter_eq_some_iff.mpr ⟨hentry, ?_⟩
      simp only [decide_eq_true_eq] at hexpires ⊢
      omega
    refine .inr ?_
    unfold stored
    rw [hp, hstored, map_some]

/-- The connection that a command to Redis acts for, and its answer when the record is not what it read. -/
def Stage.actsFor : Stage → Option (Utf16 × Answer)
  | .replacing connection _ _ => some (connection, .refreshed false)
  | .removing connection _ => some (connection, .released false)
  | _ => none

theorem refused (h : Coherent ttl d) {task : Task} (htask : task ∈ d.tasks) {connection : Utf16} {answer : Answer}
    (hacts : Stage.actsFor task.stage = some (connection, answer)) (hother : d.claimants.getLast? ≠ some connection) :
    ∃ stage, d.execute ttl task.stage = some (d, stage) ∧ d.resume ttl task.instanceId stage = some (d, .answered answer) := by
  have hknows := h.knows task htask
  have hdiffers : ∀ raw : Presence, raw.connectionId = connection → d.stored ≠ some raw := by
    intro raw hraw hstored
    obtain ⟨e, hentry, hvalue⟩ := map_eq_some_iff.mp (stored_eq_some hstored)
    refine hother ?_
    rw [h.core.claimant e hentry, hvalue, hraw]
  cases hstage : task.stage with
  | replacing c raw next =>
    rw [hstage] at hacts hknows
    cases hacts
    exact ⟨.replaced next none, by simp [execute, hdiffers raw hknows.1], rfl⟩
  | removing c raw =>
    rw [hstage] at hacts hknows
    cases hacts
    exact ⟨.removed raw none, by simp [execute, hdiffers raw hknows], rfl⟩
  | _ =>
    rw [hstage] at hacts
    cases hacts

/-- What holds of the record of a worker. -/
structure OneOwner (ttl : Nat) (d : Directory) : Prop where
  /-- The record names the connection that claimed last. -/
  named : ∀ p, d.stored = some p → d.claimants.getLast? = some p.connectionId
  /-- A refresh or a release by another connection leaves everything as it is and reports false. -/
  refused : ∀ task ∈ d.tasks, ∀ connection answer, Stage.actsFor task.stage = some (connection, answer) →
    d.claimants.getLast? ≠ some connection →
    ∃ stage, d.execute ttl task.stage = some (d, stage) ∧ d.resume ttl task.instanceId stage = some (d, .answered answer)
  /-- An instance that took all news in order keeps the record or nothing. -/
  kept : ∀ i, d.Settled i → (d.heard i).Pairwise (· ≤ ·) → cached d.now (d.kept i) = none ∨ cached d.now (d.kept i) = d.stored

theorem Coherent.oneOwner (h : Coherent ttl d) : OneOwner ttl d where
  named := by
    intro p hp
    obtain ⟨e, hentry, hvalue⟩ := map_eq_some_iff.mp (stored_eq_some hp)
    rw [h.core.claimant e hentry, hvalue]
  refused := fun _ htask _ _ hacts hother => Directory.refused h htask hacts hother
  kept := fun _ hsettled hordered => kept_eq_stored h hsettled hordered

end Directory

/-- A worker has one owner, and so has a session, whatever the order of commands, replies and messages. -/
theorem presence_has_one_owner : (∀ ttl acts d, Directory.run ttl Directory.start acts = some d → Directory.OneOwner ttl d) ∧
      ∀ acts s, Sessions.run Sessions.start acts = some s → ∀ a b, s.Holds a → s.Holds b → a = b :=
  ⟨fun ttl _ _ hrun => ((Directory.coherent_start ttl).run hrun).oneOwner,
    fun _ _ hrun _ _ ha hb => (Sessions.coherent_start.run hrun).one_holder ha hb⟩

def sampleClaim (connectionId : Utf16) : Claim := { connectionId, ownerId := [7], workerId := [8], continuityIdentity := none }

/-- The first instance takes the news of both claims in order. -/
theorem news_in_order_kept : ∃ d, Directory.run 30000 Directory.start
      [.begins [1] (.claim (sampleClaim [4])), .execute 0, .resume 0, .execute 0, .resume 0, .execute 0, .resume 0,
        .deliver [2] 0, .begins [2] (.claim (sampleClaim [5])), .execute 1, .resume 1, .execute 1, .resume 1,
        .deliver [1] 1] = some d ∧
    d.Settled [1] ∧ (d.heard [1]).Pairwise (· ≤ ·) ∧
    cached d.now (d.kept [1]) = some ((sampleClaim [5]).record [2] 30000) ∧ d.stored = cached d.now (d.kept [1]) :=
  ⟨_, rfl, by decide, by decide, by decide, by decide⟩

/-- Two instances claim the worker one after the other, and the message of the first comes last to the second. -/
def lateNews : List Directory.Act :=
  [.begins [1] (.claim (sampleClaim [4])), .execute 0, .resume 0, .execute 0, .resume 0,
    .begins [2] (.claim (sampleClaim [5])), .execute 1, .resume 1, .execute 1, .resume 1, .execute 1, .resume 1,
    .execute 0, .resume 0, .deliver [1] 0, .deliver [2] 1]

/-- All is settled, and the second instance keeps the connection of the first. -/
theorem late_news_kept : ∃ d, Directory.run 30000 Directory.start lateNews = some d ∧ d.Settled [1] ∧ d.Settled [2] ∧
    cached d.now (d.kept [2]) = some ((sampleClaim [4]).record [1] 30000) ∧
    d.stored = some ((sampleClaim [5]).record [2] 30000) :=
  ⟨_, rfl, by decide, by decide, by decide, by decide⟩

end Cantrip.Coordination
