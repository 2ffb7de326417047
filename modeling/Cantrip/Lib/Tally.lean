import Mathlib.Data.List.Basic
import Mathlib.Logic.Function.Basic

/-!
# Tallies

A tally keeps a number for each key that somebody holds, and nothing for the others. `Counts` says that the numbers are those of
a given function; to take one more and to give one back change it at one key.
-/

namespace Cantrip.Lib

open List Function

theorem countP_set_add {α : Type} (p : α → Bool) {l : List α} {i : Nat} {a b : α} (h : l[i]? = some b) :
    (l.set i a).countP p + (if p b then 1 else 0) = l.countP p + if p a then 1 else 0 := by
  obtain ⟨hi, hb⟩ := List.getElem?_eq_some_iff.1 h
  have hle := @boole_getElem_le_countP α p l i hi
  rw [countP_set hi, hb]
  rw [hb] at hle
  omega

structure Tally (κ : Type) where
  entries : List (κ × Nat) := []

namespace Tally

variable {κ : Type} [DecidableEq κ]

def get (t : Tally κ) (key : κ) : Option Nat := (t.entries.find? fun entry => entry.1 = key).map Prod.snd

def remove (t : Tally κ) (key : κ) : Tally κ := ⟨t.entries.filter fun entry => entry.1 ≠ key⟩

def insert (t : Tally κ) (key : κ) (n : Nat) : Tally κ := ⟨(key, n) :: (t.remove key).entries⟩

def count (t : Tally κ) (key : κ) : Nat := (t.get key).getD 0

variable {t : Tally κ} {f g : κ → Nat} {key other : κ}

@[simp] theorem get_remove_self (t : Tally κ) (key : κ) : (t.remove key).get key = none := by
  simp [get, remove, find?_eq_none]

@[simp] theorem get_remove_of_ne (t : Tally κ) (h : other ≠ key) : (t.remove key).get other = t.get other := by
  have hfind : (t.entries.filter fun entry => entry.1 ≠ key).find? (fun entry => entry.1 = other) =
      t.entries.find? fun entry => entry.1 = other := by
    rw [find?_filter]
    congr 1
    funext entry
    by_cases he : entry.1 = other
    · simp [he, h]
    · simp [he]
  rw [get, get, remove, hfind]

@[simp] theorem get_insert_self (t : Tally κ) (key : κ) (n : Nat) : (t.insert key n).get key = some n := by
  simp [get, insert]

@[simp] theorem get_insert_of_ne (t : Tally κ) (n : Nat) (h : other ≠ key) : (t.insert key n).get other = t.get other := by
  have htail := get_remove_of_ne t h
  rw [← htail, get, get, insert, find?_cons_of_neg]
  simpa using fun e : key = other => h e.symm

/-- The tally has the numbers of `f`, and only those that are not zero. -/
def Counts (t : Tally κ) (f : κ → Nat) : Prop := ∀ key, t.get key = if f key = 0 then none else some (f key)

theorem counts_empty : Counts ({} : Tally κ) fun _ => 0 := by
  intro key
  rfl

theorem Counts.count (h : t.Counts f) (key : κ) : t.count key = f key := by
  rw [Tally.count, h key]
  by_cases hzero : f key = 0
  · rw [if_pos hzero, hzero]
    rfl
  · rw [if_neg hzero]
    rfl

theorem Counts.congr (h : t.Counts f) (hfg : ∀ key, g key = f key) : t.Counts g := by
  intro key
  rw [hfg key]
  exact h key

theorem Counts.entries_eq_nil (h : t.Counts f) (hzero : ∀ key, f key = 0) : t.entries = [] := by
  cases hentries : t.entries with
  | nil => rfl
  | cons entry entries =>
    have hget := h entry.1
    rw [if_pos (hzero entry.1), get, hentries, find?_cons_of_pos (by simp)] at hget
    cases hget

theorem Counts.insert (h : t.Counts f) (key : κ) {n : Nat} (hn : n ≠ 0) : (t.insert key n).Counts (update f key n) := by
  intro k
  by_cases hk : k = key
  · rw [hk, get_insert_self, update_self, if_neg hn]
  · rw [get_insert_of_ne t n hk, update_of_ne hk]
    exact h k

theorem Counts.remove (h : t.Counts f) (key : κ) : (t.remove key).Counts (update f key 0) := by
  intro k
  by_cases hk : k = key
  · rw [hk, get_remove_self, update_self, if_pos rfl]
  · rw [get_remove_of_ne t hk, update_of_ne hk]
    exact h k

end Tally

end Cantrip.Lib
