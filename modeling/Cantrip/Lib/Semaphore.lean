import Mathlib.Data.List.Nodup
import Mathlib.Data.List.Perm.Subperm
import Mathlib.Data.List.Basic

/-!
# Counting semaphores

A semaphore counts the permits that are taken and queues those who wait; a permit that is given back goes to the first
of them. `Accounts` says that the count and the queue are right: who holds a permit, who waits, and that somebody waits
only where every permit is taken.
-/

namespace Cantrip.Lib

open List Option

structure Semaphore (ι : Type) where
  active : Nat
  waiting : List ι
  deriving DecidableEq

namespace Semaphore

variable {ι : Type} {limit : Nat} {s : Semaphore ι} {i : ι} {holds waits holds' waits' : ι → Prop}

def empty : Semaphore ι := { active := 0, waiting := [] }

def idle (s : Semaphore ι) : Bool := s.active == 0 && s.waiting.isEmpty

/-- A permit where there is one; who gets none waits. -/
def acquire (limit : Nat) (s : Semaphore ι) (i : ι) : Semaphore ι × Bool :=
  if s.active < limit then ({ s with active := s.active + 1 }, true) else ({ s with waiting := s.waiting ++ [i] }, false)

/-- The permit goes to the first who waits. -/
def release (s : Semaphore ι) : Semaphore ι × Option ι :=
  match s.waiting with
  | next :: rest => ({ s with waiting := rest }, some next)
  | [] => ({ s with active := s.active - 1 }, none)

theorem eq_empty_of_idle (h : s.idle = true) : s = empty := by
  unfold idle at h
  rw [Bool.and_eq_true, beq_iff_eq, List.isEmpty_iff] at h
  obtain ⟨active, waiting⟩ := s
  obtain ⟨rfl, rfl⟩ := h
  rfl

structure Accounts (limit : Nat) (s : Semaphore ι) (holds waits : ι → Prop) : Prop where
  holders : ∃ holders : List ι, holders.Nodup ∧ holders.length = s.active ∧ ∀ i, i ∈ holders ↔ holds i
  bound : s.active ≤ limit
  nodup : s.waiting.Nodup
  queue : ∀ i, i ∈ s.waiting ↔ waits i
  full : s.waiting ≠ [] → s.active = limit

theorem Accounts.congr (h : Accounts limit s holds waits) (hholds : ∀ i, holds' i ↔ holds i) (hwaits : ∀ i, waits' i ↔ waits i) :
    Accounts limit s holds' waits' := by
  obtain ⟨holders, hnodup, hlength, hmem⟩ := h.holders
  exact ⟨⟨holders, hnodup, hlength, fun i => (hmem i).trans (hholds i).symm⟩, h.bound, h.nodup,
    fun i => (h.queue i).trans (hwaits i).symm, h.full⟩

theorem accounts_empty (limit : Nat) (hholds : ∀ i, ¬ holds i) (hwaits : ∀ i, ¬ waits i) : Accounts limit empty holds waits :=
  ⟨⟨[], nodup_nil, rfl, fun i => iff_of_false not_mem_nil (hholds i)⟩, Nat.zero_le limit, nodup_nil,
    fun i => iff_of_false not_mem_nil (hwaits i), fun h => absurd rfl h⟩

section

variable (h : Accounts limit s holds waits)
include h

theorem Accounts.at_most {ids : List ι} (hnodup : ids.Nodup) (hids : ∀ i ∈ ids, holds i) :
    ids.length ≤ limit := by
  obtain ⟨holders, -, hlength, hmem⟩ := h.holders
  have hsub : ids ⊆ holders := fun i hi => (hmem i).mpr (hids i hi)
  calc
    ids.length ≤ holders.length := (subperm_of_subset hnodup hsub).length_le
    _ = s.active := hlength
    _ ≤ limit := h.bound

theorem Accounts.holders_of_waits (hi : waits i) :
    ∃ holders : List ι, holders.Nodup ∧ holders.length = limit ∧ ∀ j ∈ holders, holds j := by
  obtain ⟨holders, hnodup, hlength, hmem⟩ := h.holders
  have hwaiting := h.full (ne_nil_of_mem ((h.queue i).mpr hi))
  exact ⟨holders, hnodup, hlength.trans hwaiting, fun j hj => (hmem j).mp hj⟩

theorem Accounts.idle_iff : s.idle = true ↔ (∀ i, ¬ holds i) ∧ ∀ i, ¬ waits i := by
  obtain ⟨holders, -, hlength, hmem⟩ := h.holders
  unfold idle
  rw [Bool.and_eq_true, beq_iff_eq, List.isEmpty_iff, ← hlength, length_eq_zero_iff, eq_nil_iff_forall_not_mem,
    eq_nil_iff_forall_not_mem]
  simp only [hmem, h.queue]

theorem Accounts.acquire_granted (hlt : s.active < limit) (hi : ¬ holds i) :
    Accounts limit (s.acquire limit i).1 (fun j => j = i ∨ holds j) waits := by
  obtain ⟨holders, hnodup, hlength, hmem⟩ := h.holders
  unfold acquire
  rw [if_pos hlt]
  refine ⟨⟨i :: holders, nodup_cons.mpr ⟨fun him => hi ((hmem i).mp him), hnodup⟩, ?_, fun j => ?_⟩, hlt, h.nodup, h.queue, ?_⟩
  · show holders.length + 1 = s.active + 1
    rw [hlength]
  · rw [mem_cons, hmem]
  · intro hwaiting
    exact absurd (h.full hwaiting) (Nat.ne_of_lt hlt)

theorem Accounts.acquire_queued (hnot : ¬ s.active < limit) (hi : ¬ waits i) :
    Accounts limit (s.acquire limit i).1 holds fun j => j = i ∨ waits j := by
  unfold acquire
  rw [if_neg hnot]
  refine ⟨h.holders, h.bound, ?_, fun j => ?_, fun _ => Nat.le_antisymm h.bound (Nat.le_of_not_lt hnot)⟩
  · exact h.nodup.append (nodup_singleton i) (by simpa using fun him => hi ((h.queue i).mp him))
  · rw [mem_append, mem_singleton, h.queue, or_comm]

end

theorem acquire_snd (s : Semaphore ι) (i : ι) : (s.acquire limit i).2 = decide (s.active < limit) := by
  unfold acquire
  split
  · exact (decide_eq_true ‹_›).symm
  · exact (decide_eq_false ‹_›).symm

theorem acquire_busy (s : Semaphore ι) (i : ι) : (s.acquire limit i).1.idle = false := by
  unfold acquire idle
  split <;> simp

theorem Accounts.release [DecidableEq ι] (h : Accounts limit s holds waits) (hdisjoint : ∀ j, waits j → ¬ holds j) (hi : holds i) :
    Accounts limit s.release.1 (fun j => some j = s.release.2 ∨ holds j ∧ j ≠ i) (fun j => waits j ∧ some j ≠ s.release.2) ∧
      ∀ n, s.release.2 = some n → waits n := by
  obtain ⟨holders, hnodup, hlength, hmem⟩ := h.holders
  have him := (hmem i).mpr hi
  have herase := length_erase_of_mem him
  have hpositive := length_pos_of_mem him
  unfold Semaphore.release
  obtain hnone | ⟨next, rest, hsome⟩ : s.waiting = [] ∨ ∃ next rest, s.waiting = next :: rest := by
    cases s.waiting with
    | nil => exact .inl rfl
    | cons next rest => exact .inr ⟨next, rest, rfl⟩
  · rw [hnone]
    refine ⟨⟨⟨holders.erase i, hnodup.erase i, ?_, fun j => ?_⟩, ?_, nodup_nil, fun j => ?_, fun hne => absurd rfl hne⟩,
      fun n hn => absurd hn (Option.some_ne_none n).symm⟩
    · show (holders.erase i).length = s.active - 1
      omega
    · rw [hnodup.mem_erase_iff, hmem]
      simp [and_comm]
    · exact Nat.le_trans (Nat.sub_le ..) h.bound
    · have hnot : ¬ waits j := fun hj => absurd ((h.queue j).mpr hj) (hnone ▸ not_mem_nil)
      exact iff_of_false not_mem_nil fun hj => hnot hj.1
  · rw [hsome]
    have hqueued : next ∈ s.waiting := hsome ▸ mem_cons_self ..
    have hfull := h.full (ne_nil_of_mem hqueued)
    have hrest := h.nodup
    rw [hsome, nodup_cons] at hrest
    have hnext : next ∉ holders := fun hin => hdisjoint next ((h.queue next).mp hqueued) ((hmem next).mp hin)
    refine ⟨⟨⟨next :: holders.erase i, ?_, ?_, fun j => ?_⟩, h.bound, hrest.2, fun j => ?_, fun _ => hfull⟩, fun n hn => ?_⟩
    · exact nodup_cons.mpr ⟨fun hin => hnext (mem_of_mem_erase hin), hnodup.erase i⟩
    · show (holders.erase i).length + 1 = s.active
      omega
    · rw [mem_cons, hnodup.mem_erase_iff, hmem, Option.some_inj, and_comm]
    · rw [← h.queue, hsome, mem_cons]
      constructor
      · intro hj
        exact ⟨.inr hj, fun heq => hrest.1 (some.inj heq ▸ hj)⟩
      · rintro ⟨rfl | hj, hne⟩
        · exact absurd rfl hne
        · exact hj
    · exact some.inj hn ▸ (h.queue next).mp hqueued

end Semaphore

end Cantrip.Lib
