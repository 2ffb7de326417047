import Mathlib.Data.List.Basic

/-!
# Writing at one place of a list, unseen

What is read off a list through a filter or a view stays as it is when one place is written over by a value that the
filter and the view cannot tell from the old one.
-/

namespace Cantrip.Lib

open List

variable {α β : Type} {f : α → α} {p : α → Bool} {g : α → β}

theorem map_set_of_eq {l : List α} {i : Nat} {a b : α} (ha : l[i]? = some a) (hg : g b = g a) : (l.set i b).map g = l.map g := by
  rw [map_set, hg]
  apply ext_getElem?
  intro j
  rw [getElem?_set]
  split
  · next h =>
    subst h
    have hlt : i < l.length := (List.getElem?_eq_some_iff.mp ha).1
    rw [length_map, if_pos hlt, getElem?_map, ha]
    rfl
  · rfl

theorem map_filter_modify (hp : ∀ a, p (f a) = p a) (hg : ∀ a, g (f a) = g a) (l : List α) (i : Nat) :
    ((l.modify i f).filter p).map g = (l.filter p).map g := by
  induction l generalizing i with
  | nil => rw [modify_nil]
  | cons a l ih =>
    cases i with
    | zero =>
      rw [modify_zero_cons, filter_cons, filter_cons, hp]
      split
      · rw [map_cons, map_cons, hg]
      · rfl
    | succ i =>
      rw [modify_succ_cons, filter_cons, filter_cons]
      split
      · rw [map_cons, map_cons, ih]
      · exact ih i

theorem countP_modify (hp : ∀ a, p (f a) = p a) (l : List α) (i : Nat) : (l.modify i f).countP p = l.countP p := by
  have hmap := congrArg length (@map_filter_modify α Unit f p (fun _ => ()) hp (fun _ => rfl) l i)
  rwa [length_map, length_map, ← countP_eq_length_filter, ← countP_eq_length_filter] at hmap

theorem any_modify (hp : ∀ a, p (f a) = p a) (l : List α) (i : Nat) : (l.modify i f).any p = l.any p := by
  rw [Bool.eq_iff_iff, any_eq_true, any_eq_true, ← countP_pos_iff, ← countP_pos_iff, countP_modify hp]

theorem mem_modify {l : List α} {i : Nat} {a : α} (h : a ∈ l.modify i f) : a ∈ l ∨ ∃ b, l[i]? = some b ∧ a = f b := by
  obtain ⟨j, hj⟩ := mem_iff_getElem?.mp h
  rw [getElem?_modify] at hj
  obtain ⟨b, hb, hab⟩ := Option.map_eq_some_iff.mp hj
  split at hab
  · next hij => exact .inr ⟨b, hij ▸ hb, hab.symm⟩
  · exact .inl (hab ▸ mem_of_getElem? hb)

end Cantrip.Lib
