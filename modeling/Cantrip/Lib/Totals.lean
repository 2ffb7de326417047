import Cantrip.Lib.Keyed
import Mathlib.Algebra.BigOperators.Group.List.Basic
import Mathlib.Tactic.Abel

/-!
# Totals over lists of records under keys

A total adds up one quantity of every record. Writing over a record or removing it changes the total by that
record alone.
-/

namespace Cantrip.Lib

open List

variable {α κ A : Type} [AddCommGroup A]

def total (f : α → A) (l : List α) : A := (l.map f).sum

@[simp] theorem total_nil (f : α → A) : total f [] = 0 := rfl

@[simp] theorem total_cons (f : α → A) (a : α) (l : List α) : total f (a :: l) = f a + total f l := by
  unfold total
  rw [map_cons, sum_cons]

@[simp] theorem total_append (f : α → A) (l l' : List α) : total f (l ++ l') = total f l + total f l' := by
  unfold total
  rw [map_append, sum_append]

theorem total_map {β : Type} (f : α → A) (g : β → α) (l : List β) : total f (l.map g) = total (fun b => f (g b)) l := by
  unfold total
  rw [map_map]
  rfl

theorem total_filter_add (f : α → A) (p : α → Bool) (l : List α) :
    total f (l.filter p) + total f (l.filter fun a => !p a) = total f l := by
  induction l with
  | nil => simp
  | cons a l ih =>
    cases h : p a
    · rw [filter_cons_of_neg (by simp [h]), filter_cons_of_pos (by simp [h]), total_cons, total_cons, ← ih]
      abel
    · rw [filter_cons_of_pos h, filter_cons_of_neg (by simp [h]), total_cons, total_cons, ← ih]
      abel

variable [DecidableEq κ] {key : α → κ}

theorem total_put (f : α → A) {a b : α} {l : List α} (h : l.find? (fun x => key x = key a) = some b) :
    total f (putKey key a l) = total f l - f b + f a := by
  obtain ⟨pre, post, rfl, hb, hpre⟩ := exists_append_of_find? h
  rw [put_append_cons a b pre post hpre hb]
  simp only [total_append, total_cons]
  abel

theorem total_filter_key_ne (f : α → A) {k : κ} {b : α} {l : List α} (hnodup : (l.map key).Nodup)
    (h : l.find? (fun x => key x = k) = some b) : total f (l.filter fun x => key x ≠ k) = total f l - f b := by
  obtain ⟨pre, post, rfl, hb, hpre⟩ := exists_append_of_find? h
  rw [filter_key_ne k b pre post hnodup hb]
  simp only [total_append, total_cons]
  abel

end Cantrip.Lib
