import Mathlib.Data.List.Basic
import Mathlib.Data.List.Pairwise

/-!
# A register and those who hear of it

The changes of a register are numbered. A listener hears of changes by their numbers and keeps the value it believes
the register to have: a set value replaces what it kept, a deletion removes what has the same key. A listener that
hears of the changes in order and of all of them keeps the value of the register or nothing (`Believes.complete`).
-/

namespace Cantrip.Lib

open List

variable {α κ : Type}

inductive Change (α : Type)
  | set (value : α)
  | del (value : α)

/-- What is left after the change. -/
def Change.outcome : Change α → Option α
  | .set value => some value
  | .del _ => none

/-- The value after the changes. -/
def current (changes : List (Change α)) : Option α := changes.getLast?.bind Change.outcome

@[simp] theorem current_nil : current ([] : List (Change α)) = none := rfl

@[simp] theorem current_concat (changes : List (Change α)) (change : Change α) :
    current (changes ++ [change]) = change.outcome := by
  simp [current]

def Sound : List (Change α) → Prop := fun changes =>
  ∀ n value, changes[n]? = some (.del value) → current (changes.take n) = some value

theorem sound_nil : Sound ([] : List (Change α)) := by
  intro n value h
  cases h

theorem Sound.set {changes : List (Change α)} (h : Sound changes) (value : α) : Sound (changes ++ [.set value]) := by
  intro n v hn
  rcases Nat.lt_or_ge n changes.length with hlt | hge
  · rw [getElem?_append_left hlt] at hn
    rw [take_append_of_le_length (Nat.le_of_lt hlt)]
    exact h n v hn
  · rw [getElem?_append_right hge, getElem?_singleton] at hn
    split at hn <;> cases hn

theorem Sound.del {changes : List (Change α)} {value : α} (h : Sound changes) (hvalue : current changes = some value) :
    Sound (changes ++ [.del value]) := by
  intro n v hn
  rcases Nat.lt_or_ge n changes.length with hlt | hge
  · rw [getElem?_append_left hlt] at hn
    rw [take_append_of_le_length (Nat.le_of_lt hlt)]
    exact h n v hn
  · rw [getElem?_append_right hge, getElem?_singleton] at hn
    split at hn
    · next hzero =>
      cases hn
      have hn' : n = changes.length := by omega
      rw [hn', take_left]
      exact hvalue
    · cases hn

section Listener

variable (key : α → κ)

def Believes (changes : List (Change α)) (heard : List Nat) (kept : Option α) : Prop :=
  ∀ value, kept = some value → ∃ n ∈ heard, changes[n]? = some (.set value) ∧
    ∀ m ∈ heard, n < m → ∃ deleted, changes[m]? = some (.del deleted) ∧ key deleted ≠ key value

variable {key} {changes : List (Change α)} {heard : List Nat} {kept : Option α}

theorem believes_none : Believes key changes heard none := nofun

theorem Believes.later (h : Believes key changes heard kept) (more : List (Change α)) :
    Believes key (changes ++ more) heard kept := by
  have hget : ∀ {n : Nat} {change : Change α}, changes[n]? = some change → (changes ++ more)[n]? = some change := by
    intro n change hn
    obtain ⟨hlt, -⟩ := List.getElem?_eq_some_iff.mp hn
    rw [getElem?_append_left hlt]
    exact hn
  intro value hvalue
  obtain ⟨n, hn, hset, hafter⟩ := h value hvalue
  refine ⟨n, hn, hget hset, fun m hm hlt => ?_⟩
  obtain ⟨deleted, hdel, hkey⟩ := hafter m hm hlt
  exact ⟨deleted, hget hdel, hkey⟩

theorem Believes.set {n : Nat} {value : α} (hchange : changes[n]? = some (.set value)) (hlast : ∀ m ∈ heard, m ≤ n) :
    Believes key changes (heard ++ [n]) (some value) := by
  intro v hv
  cases hv
  refine ⟨n, mem_append_right _ (mem_singleton.mpr rfl), hchange, fun m hm hlt => ?_⟩
  rcases mem_append.mp hm with hm | hm
  · have hle := hlast m hm
    omega
  · rw [mem_singleton.mp hm] at hlt
    omega

theorem Believes.del [DecidableEq κ] {n : Nat} {value : α} (h : Believes key changes heard kept)
    (hchange : changes[n]? = some (.del value)) :
    Believes key changes (heard ++ [n]) (kept.filter fun v => key value ≠ key v) := by
  intro v hv
  obtain ⟨hkept, hkey⟩ := Option.filter_eq_some_iff.mp hv
  obtain ⟨m, hm, hset, hafter⟩ := h v hkept
  refine ⟨m, mem_append_left _ hm, hset, fun l hl hlt => ?_⟩
  rcases mem_append.mp hl with hl | hl
  · exact hafter l hl hlt
  · rw [mem_singleton.mp hl]
    exact ⟨value, hchange, by simpa using hkey⟩

theorem Believes.complete (h : Believes key changes heard kept) (hsound : Sound changes)
    (hall : ∀ n, n < changes.length → n ∈ heard) {value : α} (hkept : kept = some value) : current changes = some value := by
  obtain ⟨n, -, hset, hafter⟩ := h value hkept
  obtain ⟨hlt, -⟩ := List.getElem?_eq_some_iff.mp hset
  have htake : current (changes.take (n + 1)) = some value := by
    rw [take_add_one, hset]
    exact current_concat _ _
  rcases Nat.lt_or_ge (n + 1) changes.length with hnext | hend
  · -- The next change would be a deletion of the value, with another key.
    obtain ⟨deleted, hdel, hkey⟩ := hafter (n + 1) (hall _ hnext) (Nat.lt_succ_self n)
    have hvalue := hsound (n + 1) deleted hdel
    rw [htake] at hvalue
    cases hvalue
    exact absurd rfl hkey
  · rw [take_of_length_le hend] at htake
    exact htake

end Listener

end Cantrip.Lib
