import Cantrip.Lib.Bytes

/-!
# A list spread over pages

`pageOf n xs k` is the `k`-th page of `n` elements of `xs`; there is none past the end. Appending to the
list touches only the page the new element falls on, and so does replacing an element.
-/

namespace Cantrip.Lib

open List

variable {α : Type} {n : Nat}

def pageOf (n : Nat) (xs : List α) (k : Nat) : Option (List α) :=
  if n * k < xs.length then some (slice xs (n * k) n) else none

theorem pageOf_some {xs : List α} {k : Nat} (h : n * k < xs.length) : pageOf n xs k = some (slice xs (n * k) n) :=
  if_pos h

theorem pageOf_length {xs page : List α} {k : Nat} (h : pageOf n xs k = some page) :
    page.length = min n (xs.length - n * k) := by
  unfold pageOf at h
  split_ifs at h
  cases h
  simp [slice]

theorem pageOf_mem {xs page : List α} {k : Nat} (h : pageOf n xs k = some page) : ∀ x ∈ page, x ∈ xs := by
  unfold pageOf at h
  split_ifs at h
  cases h
  exact fun x hx => mem_of_mem_drop (mem_of_mem_take hx)

theorem pageOf_get (hn : 0 < n) {xs : List α} {i : Nat} (h : i < xs.length) :
    ∃ page, pageOf n xs (i / n) = some page ∧ i % n < page.length ∧ page[i % n]? = xs[i]? := by
  have hdiv := Nat.div_add_mod i n
  have hmod := Nat.mod_lt i hn
  have hsome : pageOf n xs (i / n) = some _ := pageOf_some (by omega)
  refine ⟨_, hsome, ?_, ?_⟩
  · rw [pageOf_length hsome]
    omega
  · rw [slice_getElem? _ _ _ _ hmod, hdiv]

theorem pageOf_last (hn : 0 < n) (xs : List α) : (xs.length % n = 0 → pageOf n xs (xs.length / n) = none) ∧
      (xs.length % n ≠ 0 → ∃ page, pageOf n xs (xs.length / n) = some page ∧ page.length = xs.length % n) := by
  have hdiv := Nat.div_add_mod xs.length n
  have hmod := Nat.mod_lt xs.length hn
  constructor
  · intro h
    exact if_neg (by omega)
  · intro h
    have hsome : pageOf n xs (xs.length / n) = some _ := pageOf_some (by omega)
    refine ⟨_, hsome, ?_⟩
    rw [pageOf_length hsome]
    omega

theorem slice_append_single (xs : List α) (x : α) {offset : Nat} (hlow : offset ≤ xs.length)
    (hroom : xs.length < offset + n) : slice (xs ++ [x]) offset n = slice xs offset n ++ [x] := by
  rw [slice, slice, drop_append_of_le_length hlow, take_append]
  congr 1
  · rw [length_drop]
    obtain ⟨j, hj⟩ : ∃ j, n - (xs.length - offset) = j + 1 := ⟨n - (xs.length - offset) - 1, by omega⟩
    rw [hj]
    simp

theorem pageOf_append (hn : 0 < n) (xs : List α) (x : α) (k : Nat) : pageOf n (xs ++ [x]) k =
      if k = xs.length / n then some ((pageOf n xs k).getD [] ++ [x]) else pageOf n xs k := by
  have hdiv := Nat.div_add_mod xs.length n
  have hmod := Nat.mod_lt xs.length hn
  by_cases hk : k = xs.length / n
  · rw [if_pos hk]
    subst hk
    rw [pageOf_some (by rw [length_append, length_singleton]; omega), slice_append_single xs x (by omega) (by omega)]
    congr 2
    by_cases hfull : xs.length % n = 0
    · rw [(pageOf_last hn xs).1 hfull]
      exact slice_eq_nil_of_le _ (by omega)
    · rw [pageOf_some (by omega)]
      rfl
  · rw [if_neg hk]
    rcases Nat.lt_or_gt_of_ne hk with hlt | hgt
    · -- an earlier page is full
      have hle : n * (k + 1) ≤ n * (xs.length / n) := Nat.mul_le_mul_left n hlt
      rw [Nat.mul_succ] at hle
      rw [pageOf_some (by rw [length_append]; omega), pageOf_some (by omega), slice, slice,
        drop_append_of_le_length (by omega), take_append_of_le_length (by rw [length_drop]; omega)]
    · have hle : n * (xs.length / n + 1) ≤ n * k := Nat.mul_le_mul_left n hgt
      rw [Nat.mul_succ] at hle
      rw [pageOf, pageOf, if_neg (by rw [length_append, length_singleton]; omega), if_neg (by omega)]

theorem pageOf_set (hn : 0 < n) (xs : List α) (i : Nat) (x : α) (k : Nat) :
    pageOf n (xs.set i x) k = if k = i / n then (pageOf n xs k).map (·.set (i % n) x) else pageOf n xs k := by
  have hdiv := Nat.div_add_mod i n
  have hmod := Nat.mod_lt i hn
  unfold pageOf
  simp only [length_set]
  by_cases hin : n * k < xs.length
  · simp only [if_pos hin, Option.map_some]
    have hset : ∀ j, (slice (xs.set i x) (n * k) n)[j]? =
        if j < n ∧ n * k + j = i ∧ i < xs.length then some x else (slice xs (n * k) n)[j]? := by
      intro j
      by_cases hj : j < n
      · rw [slice_getElem? _ _ _ _ hj, slice_getElem? _ _ _ _ hj, getElem?_set]
        by_cases hij : i = n * k + j
        · rw [if_pos hij]
          by_cases hlt : i < xs.length
          · rw [if_pos (by omega), if_pos ⟨hj, hij.symm, hlt⟩]
          · rw [if_neg (by omega), if_neg (fun h => hlt h.2.2), getElem?_eq_none (by omega)]
        · rw [if_neg hij, if_neg (fun h => hij h.2.1.symm)]
      · rw [if_neg (fun h => hj h.1), getElem?_eq_none, getElem?_eq_none]
        · exact le_trans (slice_length_le _ _ _) (by omega)
        · exact le_trans (slice_length_le _ _ _) (by omega)
    by_cases hk : k = i / n
    · rw [if_pos hk]
      subst hk
      congr 1
      apply ext_getElem?
      intro j
      rw [hset j, getElem?_set]
      have hlen : (slice xs (n * (i / n)) n).length = min n (xs.length - n * (i / n)) := by simp [slice]
      by_cases hj : i % n = j
      · subst hj
        by_cases hlt : i < xs.length
        · rw [if_pos ⟨hmod, hdiv, hlt⟩, if_pos rfl, if_pos (by omega)]
        · rw [if_neg (fun h => hlt h.2.2), if_pos rfl, if_neg (by omega), getElem?_eq_none (by omega)]
      · rw [if_neg (fun h => hj (by omega)), if_neg hj]
    · rw [if_neg hk]
      congr 1
      apply ext_getElem?
      intro j
      rw [hset j, if_neg]
      rintro ⟨hj, hij, -⟩
      apply hk
      rw [← hij, Nat.mul_add_div hn, Nat.div_eq_of_lt hj, Nat.add_zero]
  · simp [if_neg hin]

end Cantrip.Lib
