import Mathlib.Data.List.Nodup
import Mathlib.Data.List.Perm.Basic

/-!
# Lists of records under keys

`putKey` writes a record over the first one with its key, which is how a copy is stored back into the list it
was taken from. Where the keys are distinct, the list around the record is all that matters
(`exists_append_of_find?`): `putKey`, `find?` and removal by key are then read off `pre ++ a :: post`.
-/

namespace Cantrip.Lib

open List

section Keyed

variable {α κ β : Type} [DecidableEq κ] (key : α → κ)

/-- Write `a` over the first record that has its key. -/
def putKey (a : α) : List α → List α
  | [] => []
  | b :: l => if key b = key a then a :: l else b :: putKey a l

variable {key}

@[simp] theorem put_nil (a : α) : putKey key a [] = [] := rfl

@[simp] theorem map_key_put (a : α) (l : List α) : (putKey key a l).map key = l.map key := by
  induction l with
  | nil => rfl
  | cons b l ih =>
    by_cases h : key b = key a
    · simp [putKey, h]
    · simp [putKey, h, ih]

@[simp] theorem length_put (a : α) (l : List α) : (putKey key a l).length = l.length := by
  have h := congrArg length (@map_key_put α κ _ key a l)
  rwa [length_map, length_map] at h

theorem put_append_cons (a b : α) (pre post : List α) (hpre : ∀ x ∈ pre, key x ≠ key a) (hb : key b = key a) :
    putKey key a (pre ++ b :: post) = pre ++ a :: post := by
  induction pre with
  | nil => simp [putKey, hb]
  | cons x pre ih =>
    have hx := hpre x (by simp)
    simp only [cons_append, putKey, hx, if_false]
    rw [ih fun y hy => hpre y (by simp [hy])]

theorem find?_key_append_cons (k : κ) (b : α) (pre post : List α) (hpre : ∀ x ∈ pre, key x ≠ k) (hb : key b = k) :
    (pre ++ b :: post).find? (fun x => key x = k) = some b := by
  rw [find?_append, find?_eq_none.mpr (by simpa using hpre)]
  simp [hb]

variable {l : List α} {b : α} {k : κ}

theorem exists_append_of_find? (h : l.find? (fun x => key x = k) = some b) :
    ∃ pre post, l = pre ++ b :: post ∧ key b = k ∧ ∀ x ∈ pre, key x ≠ k := by
  obtain ⟨hb, pre, post, hl, hpre⟩ := find?_eq_some_iff_append.mp h
  exact ⟨pre, post, hl, by simpa using hb, fun x hx => by simpa using hpre x hx⟩

theorem put_self_of_find? (h : l.find? (fun x => key x = k) = some b) : putKey key b l = l := by
  obtain ⟨pre, post, rfl, rfl, hpre⟩ := exists_append_of_find? h
  exact put_append_cons b b pre post hpre rfl

theorem put_put (a b : α) (l : List α) (h : key a = key b) : putKey key a (putKey key b l) = putKey key a l := by
  induction l with
  | nil => rfl
  | cons x l ih =>
    by_cases hx : key x = key b
    · simp [putKey, hx, h]
    · have hx' : key x ≠ key a := h ▸ hx
      simp [putKey, hx, hx', ih]

theorem put_comm (a b : α) (l : List α) (h : key a ≠ key b) : putKey key a (putKey key b l) = putKey key b (putKey key a l) := by
  induction l with
  | nil => rfl
  | cons x l ih =>
    by_cases hb : key x = key b
    · have ha : key x ≠ key a := fun e => h (e.symm.trans hb)
      simp [putKey, hb, Ne.symm h]
    · by_cases ha : key x = key a
      · simp [putKey, ha, h]
      · simp [putKey, ha, hb, ih]

theorem map_eq_put (a : α) (l : List α) (hnodup : (l.map key).Nodup) :
    (l.map fun x => if key x = key a then a else x) = putKey key a l := by
  induction l with
  | nil => rfl
  | cons x l ih =>
    rw [map_cons, nodup_cons] at hnodup
    by_cases hx : key x = key a
    · have hrest : (l.map fun x => if key x = key a then a else x) = l := by
        conv_rhs => rw [← map_id l]
        refine map_congr_left fun y hy => if_neg fun e => hnodup.1 ?_
        rw [hx, ← e]
        exact mem_map_of_mem hy
      simp [putKey, hx, hrest]
    · simp [putKey, hx, ih hnodup.2]

theorem find?_put_self (a : α) (l : List α) (h : key a ∈ l.map key) :
    (putKey key a l).find? (fun x => key x = key a) = some a := by
  induction l with
  | nil => simp at h
  | cons x l ih =>
    by_cases hx : key x = key a
    · simp [putKey, hx]
    · have hmem : key a ∈ l.map key := by
        rcases mem_cons.mp h with h | h
        · exact absurd h.symm hx
        · exact h
      simp [putKey, hx, ih hmem]

theorem find?_put_of_ne (a : α) (l : List α) (h : key a ≠ k) :
    (putKey key a l).find? (fun x => key x = k) = l.find? (fun x => key x = k) := by
  induction l with
  | nil => rfl
  | cons x l ih =>
    by_cases hx : key x = key a
    · simp [putKey, hx, h]
    · by_cases hk : key x = k
      · have hka : k ≠ key a := fun e => h e.symm
        simp [putKey, hk, hka]
      · simp [putKey, hx, hk, ih]

theorem findIdx?_key_append_cons (k : κ) (b : α) (pre post : List α) (hpre : ∀ x ∈ pre, key x ≠ k) (hb : key b = k) :
    (pre ++ b :: post).findIdx? (fun x => key x = k) = some pre.length := by
  rw [findIdx?_append, findIdx?_eq_none_iff.mpr (by simpa using hpre)]
  simp [findIdx?_cons, hb]

theorem eraseIdx_append_cons (b : α) (pre post : List α) : (pre ++ b :: post).eraseIdx pre.length = pre ++ post := by
  rw [eraseIdx_append_of_length_le (Nat.le_refl _)]
  simp

theorem mem_put {a x : α} (h : l.find? (fun x => key x = key a) = some b) (hx : x ∈ putKey key a l) : x = a ∨ x ∈ l := by
  obtain ⟨pre, post, rfl, hb, hpre⟩ := exists_append_of_find? h
  rw [put_append_cons a b pre post hpre hb] at hx
  simp only [mem_append, mem_cons] at hx ⊢
  tauto

theorem map_put (f : α → β) {a : α} (h : l.find? (fun x => key x = key a) = some b) (hf : f a = f b) :
    (putKey key a l).map f = l.map f := by
  obtain ⟨pre, post, rfl, hb, hpre⟩ := exists_append_of_find? h
  rw [put_append_cons a b pre post hpre hb]
  simp [hf]

theorem filter_key_ne (k : κ) (b : α) (pre post : List α) (hnodup : ((pre ++ b :: post).map key).Nodup) (hb : key b = k) :
    (pre ++ b :: post).filter (fun x => key x ≠ k) = pre ++ post := by
  rw [map_append, map_cons, nodup_middle, nodup_cons, ← map_append, mem_map] at hnodup
  have hne : ∀ x ∈ pre ++ post, key x ≠ k := fun x hx e => hnodup.1 ⟨x, hx, e.trans hb.symm⟩
  rw [filter_append, filter_cons_of_neg (by simpa using hb), ← filter_append]
  exact filter_eq_self.mpr fun x hx => by simpa using hne x hx

theorem find?_filter_key_ne {k' : κ} (l : List α) (h : k' ≠ k) :
    (l.filter fun x => key x ≠ k).find? (fun x => key x = k') = l.find? (fun x => key x = k') := by
  rw [find?_filter]
  congr 1
  funext x
  by_cases hx : key x = k'
  · simp [hx, h]
  · simp [hx]

theorem find?_isSome_of_mem (h : k ∈ l.map key) : ∃ b, l.find? (fun x => key x = k) = some b := by
  obtain ⟨b, hb, rfl⟩ := mem_map.mp h
  cases hf : l.find? fun x => key x = key b with
  | none => simpa using find?_eq_none.mp hf b hb
  | some c => exact ⟨c, rfl⟩

theorem find?_eq_of_mem (hnodup : (l.map key).Nodup) (h : b ∈ l) : l.find? (fun x => key x = key b) = some b := by
  obtain ⟨pre, post, rfl⟩ := append_of_mem h
  refine find?_key_append_cons _ b pre post (fun x hx e => ?_) rfl
  rw [map_append, map_cons, nodup_middle, nodup_cons] at hnodup
  exact hnodup.1 (by rw [← e]; exact mem_append_left _ (mem_map_of_mem hx))

theorem find?_perm {l' : List α} (hnodup : (l.map key).Nodup) (h : l.Perm l') :
    l'.find? (fun x => key x = k) = l.find? (fun x => key x = k) := by
  have hnodup' : (l'.map key).Nodup := (h.map key).nodup_iff.mp hnodup
  obtain hnone | ⟨b, hb⟩ := Option.eq_none_or_eq_some (l.find? fun x => key x = k)
  · rw [hnone, find?_eq_none]
    intro x hx
    exact find?_eq_none.mp hnone x (h.mem_iff.mpr hx)
  · have hkey : key b = k := by simpa using find?_some hb
    rw [hb, ← hkey]
    exact find?_eq_of_mem hnodup' (h.mem_iff.mp (mem_of_find?_eq_some hb))

omit [DecidableEq κ] in
theorem map_key_mapIdx {f : Nat → α → α} (l : List α) (hf : ∀ i x, key (f i x) = key x) : (l.mapIdx f).map key = l.map key := by
  induction l generalizing f with
  | nil => rfl
  | cons x l ih =>
    rw [mapIdx_cons, map_cons, map_cons, hf, ih fun i x => hf (i + 1) x]

theorem find?_mapIdx {f : Nat → α → α} (l : List α) (hf : ∀ i x, key (f i x) = key x) :
    (l.find? (fun x => key x = k) = none ∧ (l.mapIdx f).find? (fun x => key x = k) = none) ∨
      ∃ i x, l.find? (fun x => key x = k) = some x ∧ (l.mapIdx f).find? (fun x => key x = k) = some (f i x) := by
  induction l generalizing f with
  | nil => exact .inl ⟨rfl, rfl⟩
  | cons x l ih =>
    rw [mapIdx_cons]
    by_cases hx : key x = k
    · exact .inr ⟨0, x, by simp [hx], by simp [hf, hx]⟩
    · have hfx : key (f 0 x) ≠ k := by rwa [hf]
      simp only [find?_cons, hx, hfx, decide_false]
      obtain h | ⟨i, y, hy, hfy⟩ := ih fun i x => hf (i + 1) x
      · exact .inl h
      · exact .inr ⟨i + 1, y, hy, hfy⟩

theorem nodup_map_of_subperm {α β : Type} {f : α → β} {l l' : List α} (h : l.Subperm l') (hnodup : (l'.map f).Nodup) :
    (l.map f).Nodup := by
  obtain ⟨m, hperm, hsub⟩ := h
  exact (hperm.map f).nodup_iff.mp (hnodup.sublist (hsub.map f))

end Keyed

end Cantrip.Lib
