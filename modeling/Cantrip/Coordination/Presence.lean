import Cantrip.Coordination.Directory

/-!
# One owner of a worker

The record names the connection that claimed it last (`Core.claimant`): a refresh or a release changes it only where
it finds what it has read. Every change is told by an operation or by a message (`Coherent.told`), and an instance that has
heard of all changes in order keeps the record or nothing (`kept_eq_stored`).
-/

namespace Cantrip.Coordination

open Lib List Option

namespace Directory

variable {ttl : Nat} {d d' : Directory} {i : Utf16} {stage stage' : Stage}

/-! ## Invariants -/

structure Tells (d : Directory) (m : Message) : Prop where
  change : d.changes[m.change]? = some (if m.online then .set m.presence else .del m.presence)
  heard : m.change ∈ d.heard m.sourceInstanceId

def Knows (ttl : Nat) (d : Directory) (i : Utf16) : Stage → Prop
  | .got _ raw change => ∀ p, raw = some p → d.changes[change]? = some (.set p)
  | .setting record _ => record.expiresAt ≤ d.now + ttl
  | .wasSet record _ change => d.changes[change]? = some (.set record)
  | .replacing connection raw next =>
    raw.connectionId = connection ∧ next.connectionId = connection ∧ next.expiresAt ≤ d.now + ttl
  | .replaced next (some change) => d.changes[change]? = some (.set next)
  | .removing connection raw => raw.connectionId = connection
  | .removed raw (some change) => d.changes[change]? = some (.del raw)
  | .publishing message _ => d.Tells message ∧ message.sourceInstanceId = i
  | _ => True

/-- The operation has yet to tell of the change. -/
def Carries (n : Nat) : Stage → Prop
  | .wasSet _ _ change => change = n
  | .replaced _ change => change = some n
  | .removed _ change => change = some n
  | .publishing message _ => message.change = n
  | .failed => True
  | _ => False

structure Core (d : Directory) : Prop where
  value : d.entry.map Entry.value = current d.changes
  deadline : ∀ e, d.entry = some e → e.value.expiresAt ≤ e.deadline
  claimant : ∀ e, d.entry = some e → d.claimants.getLast? = some e.value.connectionId
  sound : Sound d.changes
  tells : ∀ m ∈ d.messages, d.Tells m
  believes : ∀ i, (d.heard i).Pairwise (· ≤ ·) → Believes Presence.connectionId d.changes (d.heard i) (d.kept i)

structure Later (d d' : Directory) : Prop where
  now : d.now ≤ d'.now
  changes : d.changes <+: d'.changes
  heard : ∀ i, d.heard i ⊆ d'.heard i

theorem Later.refl (d : Directory) : Later d d := ⟨le_refl _, prefix_refl _, fun _ => List.Subset.refl _⟩

variable {n : Nat} {p : Presence}

theorem Later.get (h : Later d d') {change : Change Presence} (hn : d.changes[n]? = some change) :
    d'.changes[n]? = some change := by
  obtain ⟨more, hmore⟩ := h.changes
  obtain ⟨hlt, -⟩ := List.getElem?_eq_some_iff.mp hn
  rw [← hmore, getElem?_append_left hlt]
  exact hn

theorem Tells.later {m : Message} (h : d.Tells m) (hlater : Later d d') : d'.Tells m :=
  ⟨hlater.get h.change, hlater.heard _ h.heard⟩

theorem Knows.later (h : Knows ttl d i stage) (hlater : Later d d') : Knows ttl d' i stage := by
  have hnow := hlater.now
  cases stage with
  | got operation raw change => exact fun p hp => hlater.get (h p hp)
  | setting record previous =>
    simp only [Knows] at h ⊢
    omega
  | wasSet record previous change => exact hlater.get h
  | replacing connection raw next =>
    obtain ⟨hraw, hnext, hexpires⟩ := h
    exact ⟨hraw, hnext, by omega⟩
  | replaced next change =>
    cases change with
    | none => trivial
    | some change => exact hlater.get h
  | removing connection raw => exact h
  | removed raw change =>
    cases change with
    | none => trivial
    | some change => exact hlater.get h
  | publishing message answer => exact ⟨h.1.later hlater, h.2⟩
  | _ => trivial

/-- An operation takes a step. -/
structure Advances (ttl : Nat) (i : Utf16) (d d' : Directory) (stage stage' : Stage) : Prop where
  core : Core d'
  later : Later d d'
  tasks : d'.tasks = d.tasks
  knows : Knows ttl d' i stage'
  messages : d.messages ⊆ d'.messages
  carried : ∀ n, Carries n stage → Carries n stage' ∨ ∃ m ∈ d'.messages, m.change = n
  fresh : ∀ n, d.changes.length ≤ n → n < d'.changes.length → Carries n stage'

/-! ## Hearing -/

theorem later_keep (d : Directory) (i : Utf16) (kept : Option Presence) : Later d (d.keep i kept) :=
  ⟨le_refl _, prefix_refl _, fun _ => List.Subset.refl _⟩

theorem Core.keep (h : Core d) (i : Utf16) (kept : Option Presence) (hkept : ∀ p, kept = some p → d.kept i = some p) :
    Core (d.keep i kept) := by
  refine ⟨h.value, h.deadline, h.claimant, h.sound, fun m hm => (h.tells m hm).later (later_keep d i kept), fun j hj => ?_⟩
  have hbelieves := h.believes j hj
  unfold Directory.keep
  dsimp only
  split
  · next hji =>
    subst hji
    exact fun p hp => hbelieves p (hkept p hp)
  · exact hbelieves

theorem later_hear (d : Directory) (i : Utf16) (change : Nat) (kept : Option Presence) : Later d (d.hear i change kept) := by
  refine ⟨le_refl _, prefix_refl _, fun j => ?_⟩
  unfold hear
  dsimp only
  split
  · next hji =>
    subst hji
    exact subset_append_left _ _
  · exact List.Subset.refl _

theorem Core.hear {change : Nat} {kept : Option Presence} (h : Core d) (hheard : (d.heard i ++ [change]).Pairwise (· ≤ ·) →
      Believes Presence.connectionId d.changes (d.heard i ++ [change]) kept) : Core (d.hear i change kept) := by
  have hlater := later_hear d i change kept
  refine ⟨h.value, h.deadline, h.claimant, h.sound, fun m hm => (h.tells m hm).later hlater, fun j hj => ?_⟩
  have hbelieves := h.believes j
  unfold Directory.hear Directory.keep at hj ⊢
  dsimp only at hj ⊢
  split at hj
  · next hji =>
    subst hji
    rw [if_pos rfl, if_pos rfl]
    exact hheard hj
  · next hji =>
    rw [if_neg hji, if_neg hji]
    exact hbelieves hj

theorem le_of_pairwise_concat {ns : List Nat} (h : (ns ++ [n]).Pairwise (· ≤ ·)) : ∀ m ∈ ns, m ≤ n :=
  fun m hm => (pairwise_append.mp h).2.2 m hm n (mem_singleton.mpr rfl)

theorem Core.hear_set {change : Nat} (h : Core d) (hchange : d.changes[change]? = some (.set p)) :
    Core (d.hear i change (some p)) :=
  h.hear fun hordered => Believes.set hchange (le_of_pairwise_concat hordered)

theorem Core.hear_del {change : Nat} (h : Core d) (hchange : d.changes[change]? = some (.del p)) :
    Core (d.hear i change (remove p.connectionId (d.kept i))) := by
  refine h.hear fun hordered => ?_
  exact (h.believes i (pairwise_append.mp hordered).1).del hchange

theorem mem_heard_hear (d : Directory) (i : Utf16) (change : Nat) (kept : Option Presence) :
    change ∈ (d.hear i change kept).heard i := by
  unfold Directory.hear
  dsimp only
  rw [if_pos rfl]
  exact mem_append_right _ (mem_singleton.mpr rfl)

/-! ## Commands -/

theorem stored_eq_some (h : d.stored = some p) : d.entry.map Entry.value = some p := by
  unfold stored at h
  obtain ⟨e, he, rfl⟩ := map_eq_some_iff.mp h
  rw [(filter_eq_some_iff.mp he).1]
  rfl

theorem Core.last (h : Core d) (hp : d.stored = some p) : d.changes[d.changes.length - 1]? = some (.set p) := by
  have hcurrent : current d.changes = some p := h.value ▸ stored_eq_some hp
  unfold current at hcurrent
  obtain ⟨change, hlast, hchange⟩ := bind_eq_some_iff.mp hcurrent
  rw [← getLast?_eq_getElem?, hlast]
  cases change with
  | set value =>
    cases hchange
    rfl
  | del value => cases hchange

theorem Core.store (h : Core d) (hexpires : p.expiresAt ≤ d.now + ttl) (claimants : List Utf16)
    (hclaimant : claimants.getLast? = some p.connectionId) :
    Core { d with entry := some ⟨p, d.now + ttl⟩, changes := d.changes ++ [.set p], claimants } := by
  have hlater : Later d { d with entry := some ⟨p, d.now + ttl⟩, changes := d.changes ++ [.set p], claimants } :=
    ⟨le_refl _, prefix_append _ _, fun _ => List.Subset.refl _⟩
  refine ⟨?_, ?_, ?_, h.sound.set p, fun m hm => (h.tells m hm).later hlater, fun j hj => (h.believes j hj).later _⟩
  · exact (current_concat d.changes (.set p)).symm
  · intro e he
    cases he
    exact hexpires
  · intro e he
    cases he
    exact hclaimant

theorem getElem?_concat_length {α : Type} (l : List α) (a : α) : (l ++ [a])[l.length]? = some a := by simp

theorem fresh_concat {α : Type} {l : List α} {a : α} (hle : l.length ≤ n) (hlt : n < (l ++ [a]).length) : l.length = n := by
  rw [length_append, length_singleton] at hlt
  omega

theorem execute_advances (h : Core d) (hknows : Knows ttl d i stage) (hstep : d.execute ttl stage = some (d', stage')) :
    Advances ttl i d d' stage stage' := by
  cases stage with
  | getting operation =>
    cases hstep
    refine ⟨h, .refl d, rfl, fun p hp => h.last hp, List.Subset.refl _, fun n hn => absurd hn id, fun n hle hlt => ?_⟩
    omega
  | setting record previous =>
    cases hstep
    have hlater : Later d { d with entry := some ⟨record, d.now + ttl⟩, changes := d.changes ++ [.set record],
                                   claimants := d.claimants ++ [record.connectionId] } :=
      ⟨le_refl _, prefix_append _ _, fun _ => List.Subset.refl _⟩
    refine ⟨h.store hknows _ getLast?_concat, hlater, rfl, getElem?_concat_length _ _, List.Subset.refl _,
      fun n hn => absurd hn id, fun n hle hlt => fresh_concat hle hlt⟩
  | replacing connection raw next =>
    obtain ⟨hraw, hnext, hexpires⟩ := hknows
    unfold execute at hstep
    dsimp only at hstep
    split at hstep
    · next hsame =>
      cases hstep
      obtain ⟨e, he, hvalue⟩ := map_eq_some_iff.mp (stored_eq_some hsame)
      have hclaimant : d.claimants.getLast? = some next.connectionId := by
        rw [h.claimant e he, hvalue, hraw, hnext]
      refine ⟨h.store hexpires _ hclaimant, ⟨le_refl _, prefix_append _ _, fun _ => List.Subset.refl _⟩, rfl,
        getElem?_concat_length _ _, List.Subset.refl _, fun n hn => absurd hn id, fun n hle hlt => ?_⟩
      exact congrArg some (fresh_concat hle hlt)
    · cases hstep
      refine ⟨h, .refl d, rfl, trivial, List.Subset.refl _, fun n hn => absurd hn id, fun n hle hlt => ?_⟩
      omega
  | removing connection raw =>
    unfold execute at hstep
    dsimp only at hstep
    split at hstep
    · next hsame =>
      cases hstep
      have hlater : Later d { d with entry := none, changes := d.changes ++ [.del raw] } :=
        ⟨le_refl _, prefix_append _ _, fun _ => List.Subset.refl _⟩
      have hcurrent : current d.changes = some raw := h.value ▸ stored_eq_some hsame
      have hcore : Core { d with entry := none, changes := d.changes ++ [.del raw] } :=
        ⟨(current_concat d.changes (.del raw)).symm, nofun, nofun, h.sound.del hcurrent, fun m hm => (h.tells m hm).later hlater,
          fun j hj => (h.believes j hj).later _⟩
      refine ⟨hcore, hlater, rfl, getElem?_concat_length _ _, List.Subset.refl _, fun n hn => absurd hn id,
        fun n hle hlt => ?_⟩
      exact congrArg some (fresh_concat hle hlt)
    · cases hstep
      refine ⟨h, .refl d, rfl, trivial, List.Subset.refl _, fun n hn => absurd hn id, fun n hle hlt => ?_⟩
      omega
  | publishing message answer =>
    cases hstep
    obtain ⟨htells, -⟩ := hknows
    have hcore : Core { d with messages := d.messages ++ [message] } := by
      refine ⟨h.value, h.deadline, h.claimant, h.sound, fun m hm => ?_, h.believes⟩
      rcases mem_append.mp hm with hm | hm
      · exact ⟨(h.tells m hm).change, (h.tells m hm).heard⟩
      · rw [mem_singleton.mp hm]
        exact ⟨htells.change, htells.heard⟩
    refine ⟨hcore, ⟨le_refl _, prefix_refl _, fun _ => List.Subset.refl _⟩, rfl, trivial, subset_append_left _ _,
      fun n hn => .inr ⟨message, mem_append_right _ (mem_singleton.mpr rfl), hn⟩, fun n hle hlt => ?_⟩
    exact absurd hle (Nat.not_le.mpr hlt)
  | _ => cases hstep

/-! ## Replies -/

theorem presence_eq {q : Presence} (h : presence p = some q) : q = p := by
  unfold presence at h
  split at h
  · exact (some.inj h).symm
  · cases h

theorem raw_of_presence {raw : Option Presence} (h : raw.bind presence = some p) : raw = some p := by
  obtain ⟨q, hq, hp⟩ := bind_eq_some_iff.mp h
  rw [hq, presence_eq hp]

theorem found_core {raw : Option Presence} {change : Nat} (h : Core d)
    (hraw : ∀ p, raw = some p → d.changes[change]? = some (.set p)) :
    Core (d.found i raw change).1 ∧ Later d (d.found i raw change).1 ∧ (d.found i raw change).1.tasks = d.tasks ∧
      (d.found i raw change).1.messages = d.messages ∧ (d.found i raw change).1.changes = d.changes ∧
      (d.found i raw change).1.now = d.now := by
  unfold found
  split
  · next p hp =>
    have hchange := hraw p (raw_of_presence (filter_eq_some_iff.mp hp).1)
    exact ⟨h.hear_set hchange, later_hear _ _ _ _, rfl, rfl, rfl, rfl⟩
  · exact ⟨h, .refl d, rfl, rfl, rfl, rfl⟩

theorem advances_self (h : Core d) (hknows : Knows ttl d i stage') (hcarries : ∀ n, Carries n stage → Carries n stage') :
    Advances ttl i d d stage stage' := by
  refine ⟨h, .refl d, rfl, hknows, List.Subset.refl _, fun n hn => .inl (hcarries n hn), fun n hle hlt => ?_⟩
  exact absurd hle (Nat.not_le.mpr hlt)

theorem advances_hear {change : Nat} {kept : Option Presence} {online : Bool} {p : Presence} {answer : Answer}
    (hcore : Core (d.hear i change kept)) (hchange : d.changes[change]? = some (if online then .set p else .del p))
    (hcarries : ∀ n, Carries n stage → change = n) :
    Advances ttl i d (d.hear i change kept) stage (.publishing (d.envelope i online p change) answer) := by
  refine ⟨hcore, later_hear _ _ _ _, rfl, ⟨⟨hchange, mem_heard_hear _ _ _ _⟩, rfl⟩, List.Subset.refl _,
    fun n hn => .inl (hcarries n hn), fun n hle hlt => ?_⟩
  exact absurd hle (Nat.not_le.mpr hlt)

theorem resume_advances (h : Core d) (hknows : Knows ttl d i stage) (hstep : d.resume ttl i stage = some (d', stage')) :
    Advances ttl i d d' stage stage' := by
  cases stage with
  | got operation raw change =>
    obtain ⟨hcore, hlater, htasks, hmessages, hchanges, hnow⟩ := @found_core d i raw change h hknows
    have hfresh : ∀ n, d.changes.length ≤ n → ¬n < (d.found i raw change).1.changes.length := by
      intro n hle
      rw [hchanges]
      omega
    cases operation with
    | find =>
      cases hstep
      exact ⟨hcore, hlater, htasks, trivial, fun m hm => hmessages ▸ hm, fun n hn => absurd hn id,
        fun n hle hlt => absurd hlt (hfresh n hle)⟩
    | claim input =>
      cases hstep
      refine ⟨hcore, hlater, htasks, ?_, fun m hm => hmessages ▸ hm, fun n hn => absurd hn id,
        fun n hle hlt => absurd hlt (hfresh n hle)⟩
      simp only [Knows, Claim.record, hnow]
      exact le_refl _
    | refresh connection =>
      unfold resume at hstep
      dsimp only at hstep
      split at hstep
      · cases hstep
        exact advances_self h trivial fun n hn => hn
      · split at hstep
        · cases hstep
          exact advances_self h trivial fun n hn => hn
        · next hmine =>
          cases hstep
          simp only [ne_eq, not_or, not_not] at hmine
          exact advances_self h ⟨hmine.1, hmine.1, le_refl _⟩ fun n hn => hn
    | release connection =>
      unfold resume at hstep
      dsimp only at hstep
      split at hstep
      · cases hstep
        exact advances_self h trivial fun n hn => hn
      · split at hstep
        · cases hstep
          exact advances_self h trivial fun n hn => hn
        · next hmine =>
          cases hstep
          simp only [ne_eq, not_or, not_not] at hmine
          exact advances_self h hmine.1 fun n hn => hn
  | wasSet record previous change =>
    cases hstep
    exact @advances_hear ttl d i _ change (some record) true record _ (h.hear_set hknows) hknows fun n hn => hn
  | replaced next change =>
    cases change with
    | none =>
      cases hstep
      exact advances_self h trivial fun n hn => by cases hn
    | some change =>
      cases hstep
      exact @advances_hear ttl d i _ change (some next) true next _ (h.hear_set hknows) hknows fun n hn => some.inj hn
  | removed raw change =>
    cases change with
    | none =>
      cases hstep
      exact advances_self h trivial fun n hn => by cases hn
    | some change =>
      cases hstep
      exact @advances_hear ttl d i _ change _ false raw _ (h.hear_del hknows) hknows fun n hn => some.inj hn
  | published answer =>
    cases hstep
    exact advances_self h trivial fun n hn => hn
  | _ => cases hstep

theorem receive_core {m : Message} (h : Core d) (hm : d.Tells m) :
    Core (d.receive i m) ∧ Later d (d.receive i m) ∧ (d.receive i m).tasks = d.tasks ∧
      (d.receive i m).messages = d.messages ∧ (d.receive i m).changes = d.changes := by
  have hchange := hm.change
  unfold receive
  split
  · exact ⟨h, .refl d, rfl, rfl, rfl⟩
  · split
    · exact ⟨h, .refl d, rfl, rfl, rfl⟩
    · split
      · exact ⟨h, .refl d, rfl, rfl, rfl⟩
      · next p hp =>
        rw [← presence_eq hp] at hchange
        split
        · next honline =>
          rw [if_pos honline] at hchange
          exact ⟨h.hear_set hchange, later_hear _ _ _ _, rfl, rfl, rfl⟩
        · next honline =>
          rw [if_neg honline] at hchange
          exact ⟨h.hear_del hchange, later_hear _ _ _ _, rfl, rfl, rfl⟩

/-! ## Runs -/

structure Coherent (ttl : Nat) (d : Directory) : Prop where
  core : Core d
  knows : ∀ task ∈ d.tasks, Knows ttl d task.instanceId task.stage
  told : ∀ n, n < d.changes.length →
    (∃ (k : Nat) (task : Task), d.tasks[k]? = some task ∧ Carries n task.stage) ∨ ∃ m ∈ d.messages, m.change = n

theorem coherent_start (ttl : Nat) : Coherent ttl start := by
  refine ⟨⟨rfl, nofun, nofun, sound_nil, nofun, fun _ _ => believes_none⟩, nofun, fun n hn => ?_⟩
  exact absurd hn (Nat.not_lt_zero n)

theorem Coherent.advance {task : Task} (h : Coherent ttl d) (htask : d.tasks[n]? = some task)
    (hadvances : Advances ttl task.instanceId d d' task.stage stage') : Coherent ttl (putTask n task (d', stage')) := by
  obtain ⟨hlt, -⟩ := List.getElem?_eq_some_iff.mp htask
  have htasks := hadvances.tasks
  refine ⟨⟨hadvances.core.value, hadvances.core.deadline, hadvances.core.claimant, hadvances.core.sound,
    fun m hm => ⟨(hadvances.core.tells m hm).change, (hadvances.core.tells m hm).heard⟩, hadvances.core.believes⟩, ?_, ?_⟩
  · intro t ht
    have hlater : Later d' (putTask n task (d', stage')) := ⟨le_refl _, prefix_refl _, fun _ => List.Subset.refl _⟩
    unfold putTask at ht
    dsimp only at ht
    rw [htasks] at ht
    rcases mem_or_eq_of_mem_set ht with hmem | rfl
    · exact ((h.knows t hmem).later hadvances.later).later hlater
    · exact hadvances.knows.later hlater
  · intro m hm
    have hset : (putTask n task (d', stage')).tasks[n]? = some { task with stage := stage' } := by
      unfold putTask
      dsimp only
      rw [htasks, getElem?_set_self hlt]
    by_cases hnew : d.changes.length ≤ m
    · exact .inl ⟨n, _, hset, hadvances.fresh m hnew hm⟩
    · obtain ⟨k, t, ht, hcarries⟩ | ⟨message, hmessage, hchange⟩ := h.told m (by omega)
      · by_cases hk : k = n
        · subst hk
          rw [htask] at ht
          cases ht
          obtain hcarries' | hmessage := hadvances.carried m hcarries
          · exact .inl ⟨k, _, hset, hcarries'⟩
          · exact .inr hmessage
        · refine .inl ⟨k, t, ?_, hcarries⟩
          unfold putTask
          dsimp only
          rw [htasks, getElem?_set_ne (Ne.symm hk)]
          exact ht
      · exact .inr ⟨message, hadvances.messages hmessage, hchange⟩

theorem Coherent.same (h : Coherent ttl d) (hcore : Core d') (hlater : Later d d') (htasks : d'.tasks = d.tasks)
    (hmessages : d'.messages = d.messages) (hchanges : d'.changes = d.changes) : Coherent ttl d' := by
  refine ⟨hcore, fun task ht => ?_, ?_⟩
  · rw [htasks] at ht
    exact (h.knows task ht).later hlater
  · rw [hchanges, htasks, hmessages]
    exact h.told

theorem begins_core (h : Core d) (operation : Operation) :
    Core (d.begins ttl i operation).1 ∧ Later d (d.begins ttl i operation).1 ∧
      (d.begins ttl i operation).1.tasks = d.tasks ∧ (d.begins ttl i operation).1.messages = d.messages ∧
      (d.begins ttl i operation).1.changes = d.changes ∧
      Knows ttl (d.begins ttl i operation).1 i (d.begins ttl i operation).2 := by
  have hlookUp : Core (d.lookUp i) := h.keep i _ fun p hp => (filter_eq_some_iff.mp hp).1
  have hlater : Later d (d.lookUp i) := later_keep _ _ _
  cases operation with
  | find =>
    unfold begins
    dsimp only
    split <;> exact ⟨hlookUp, hlater, rfl, rfl, rfl, trivial⟩
  | claim input =>
    unfold begins
    dsimp only
    split
    · exact ⟨hlookUp, hlater, rfl, rfl, rfl, le_refl _⟩
    · exact ⟨hlookUp, hlater, rfl, rfl, rfl, trivial⟩
  | refresh connection => exact ⟨h, .refl d, rfl, rfl, rfl, trivial⟩
  | release connection => exact ⟨h, .refl d, rfl, rfl, rfl, trivial⟩

theorem Coherent.step {act : Act} (h : Coherent ttl d) (hstep : d.step ttl act = some d') : Coherent ttl d' := by
  cases act with
  | tick milliseconds =>
    cases hstep
    have hlater : Later d { d with now := d.now + milliseconds } :=
      ⟨by simp, prefix_refl _, fun _ => List.Subset.refl _⟩
    refine h.same ?_ hlater rfl rfl rfl
    exact ⟨h.core.value, h.core.deadline, h.core.claimant, h.core.sound, fun m hm => (h.core.tells m hm).later hlater,
      h.core.believes⟩
  | begins i operation =>
    cases hstep
    obtain ⟨hcore, hlater, htasks, hmessages, hchanges, hknows⟩ := @begins_core ttl d i h.core operation
    have hsame := h.same hcore hlater htasks hmessages hchanges
    have hlater' : ∀ tasks, Later (d.begins ttl i operation).1 { (d.begins ttl i operation).1 with tasks } :=
      fun _ => ⟨le_refl _, prefix_refl _, fun _ => List.Subset.refl _⟩
    refine ⟨⟨hcore.value, hcore.deadline, hcore.claimant, hcore.sound, fun m hm => (hcore.tells m hm).later (hlater' _),
      hcore.believes⟩, fun task ht => ?_, fun n hn => ?_⟩
    · rcases mem_append.mp ht with ht | ht
      · exact (hsame.knows task ht).later (hlater' _)
      · rw [mem_singleton.mp ht]
        exact hknows.later (hlater' _)
    · obtain ⟨k, task, ht, hcarries⟩ | hmessage := hsame.told n hn
      · obtain ⟨hlt, -⟩ := List.getElem?_eq_some_iff.mp ht
        refine .inl ⟨k, task, ?_, hcarries⟩
        dsimp only
        rw [getElem?_append_left hlt]
        exact ht
      · exact .inr hmessage
  | execute n =>
    obtain ⟨task, htask, hresult⟩ := bind_eq_some_iff.mp hstep
    obtain ⟨⟨d₁, stage₁⟩, hexecute, rfl⟩ := map_eq_some_iff.mp hresult
    exact h.advance htask (execute_advances h.core (h.knows task (mem_of_getElem? htask)) hexecute)
  | resume n =>
    obtain ⟨task, htask, hresult⟩ := bind_eq_some_iff.mp hstep
    obtain ⟨⟨d₁, stage₁⟩, hresume, rfl⟩ := map_eq_some_iff.mp hresult
    exact h.advance htask (resume_advances h.core (h.knows task (mem_of_getElem? htask)) hresume)
  | fail n =>
    obtain ⟨task, htask, rfl⟩ := map_eq_some_iff.mp hstep
    exact h.advance htask (advances_self h.core trivial fun n hn => trivial)
  | deliver i m =>
    obtain ⟨message, hmessage, rfl⟩ := map_eq_some_iff.mp hstep
    obtain ⟨hcore, hlater, htasks, hmessages, hchanges⟩ :=
      @receive_core d i message h.core (h.core.tells message (mem_of_getElem? hmessage))
    exact h.same hcore hlater htasks hmessages hchanges

theorem Coherent.run {acts : List Act} (h : Coherent ttl d) (hrun : Directory.run ttl d acts = some d') : Coherent ttl d' := by
  induction acts generalizing d with
  | nil =>
    cases hrun
    exact h
  | cons act acts ih =>
    obtain ⟨m, hstep, hrun'⟩ := bind_eq_some_iff.mp hrun
    exact ih (h.step hstep) hrun'

end Directory

end Cantrip.Coordination
