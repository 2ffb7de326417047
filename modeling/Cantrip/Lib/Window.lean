import Mathlib.Data.List.Infix

/-!
# Tests that look for a window

A test for a needle succeeds when some window of a fixed length is a hit. Such a test can be run over the parts of a
text when the last elements are carried over from part to part (`Windowed.stream`).
-/

namespace Cantrip.Lib

open List Bool

variable {α : Type}

structure Windowed (width : Nat) (hit : List α → Prop) (test : List α → Bool) : Prop where
  width_pos : 0 < width
  hit_length : ∀ w, hit w → w.length = width
  test_iff : ∀ text, test text = true ↔ ∃ w, w <:+: text ∧ hit w

/-- The last `keep` elements. -/
def lastPart (keep : Nat) (l : List α) : List α := l.drop (l.length - keep)

theorem lastPart_suffix (keep : Nat) (l : List α) : lastPart keep l <:+ l := drop_suffix _ _

theorem lastPart_whole {keep : Nat} {l : List α} (h : l.length ≤ keep) : lastPart keep l = l := by
  rw [lastPart, Nat.sub_eq_zero_of_le h, drop_zero]

theorem lastPart_of_suffix {keep : Nat} {s l : List α} (hs : s <:+ l) (h : keep ≤ s.length) :
    lastPart keep s = lastPart keep l := by
  obtain ⟨p, rfl⟩ := hs
  rw [lastPart, lastPart, length_append, Nat.add_sub_assoc h, drop_length_add_append]

theorem lastPart_append (keep : Nat) (a b : List α) : lastPart keep (lastPart keep a ++ b) = lastPart keep (a ++ b) := by
  by_cases h : a.length ≤ keep
  · rw [lastPart_whole h]
  · refine lastPart_of_suffix ?_ ?_
    · obtain ⟨p, hp⟩ := lastPart_suffix keep a
      exact ⟨p, by rw [← append_assoc, hp]⟩
    · rw [length_append, lastPart, length_drop]
      omega

theorem infix_append_last {a b w : List α} (hw : w <:+: a ++ b) (hne : w ≠ []) :
    w <:+: a ∨ ∃ u, w.getLast? = some u ∧ u ∈ b := by
  obtain ⟨s, t, hst⟩ := hw
  by_cases hin : (s ++ w).length ≤ a.length
  · left
    have hprefix : s ++ w <+: a := prefix_of_prefix_length_le ⟨t, hst⟩ (prefix_append a b) hin
    exact (suffix_append s w).isInfix.trans hprefix.isInfix
  · right
    obtain ⟨b', hb'⟩ := prefix_of_prefix_length_le (prefix_append a b) ⟨t, hst⟩ (Nat.le_of_not_le hin)
    have hb : b' <+: b := by
      have hwhole : a ++ (b' ++ t) = a ++ b := by rw [← append_assoc, hb', hst]
      exact ⟨t, append_cancel_left hwhole⟩
    have hb'ne : b' ≠ [] := by
      rintro rfl
      rw [append_nil] at hb'
      exact hin (by rw [hb'])
    have hlast : w.getLast? = b'.getLast? := by
      rw [← getLast?_append_of_ne_nil s hne, ← hb', getLast?_append_of_ne_nil a hb'ne]
    refine ⟨b'.getLast hb'ne, ?_, hb.subset (getLast_mem hb'ne)⟩
    rw [hlast, getLast?_eq_some_getLast hb'ne]

namespace Windowed

variable {width : Nat} {hit : List α → Prop} {test : List α → Bool}

section

variable (h : Windowed width hit test)
include h

theorem mono {a b : List α} (hab : a <:+: b) (ha : test a = true) : test b = true := by
  obtain ⟨w, hw, hhit⟩ := (h.test_iff a).mp ha
  exact (h.test_iff b).mpr ⟨w, hw.trans hab, hhit⟩

theorem test_nil : test [] = false := by
  refine eq_false_iff.mpr fun ht => ?_
  obtain ⟨w, hw, hhit⟩ := (h.test_iff []).mp ht
  have hlength := h.hit_length w hhit
  rw [infix_nil.mp hw] at hlength
  exact absurd hlength h.width_pos.ne

theorem infix_append {keep : Nat} (hkeep : width ≤ keep + 1) {a b w : List α}
    (hw : w <:+: a ++ b) (hhit : hit w) : w <:+: a ∨ w <:+: lastPart keep a ++ b := by
  have hlength := h.hit_length w hhit
  obtain ⟨s, t, hst⟩ := hw
  by_cases hin : s.length + w.length ≤ a.length
  · left
    have hprefix : s ++ w <+: a := by
      refine prefix_of_prefix_length_le ⟨t, hst⟩ (prefix_append a b) ?_
      rw [length_append]
      exact hin
    exact (suffix_append s w).isInfix.trans hprefix.isInfix
  · right
    have hsplit : a ++ b = a.take (a.length - keep) ++ (lastPart keep a ++ b) := by
      rw [← append_assoc, lastPart, take_append_drop]
    have hsuffix : w ++ t <:+ a ++ b := ⟨s, by rw [← hst, append_assoc]⟩
    have hshort : w ++ t <:+ lastPart keep a ++ b := by
      refine suffix_of_suffix_length_le hsuffix ⟨_, hsplit.symm⟩ ?_
      have htotal := congrArg length hst
      rw [length_append, length_append, length_append] at htotal
      rw [length_append, length_append, lastPart, length_drop]
      omega
    exact (prefix_append w t).isInfix.trans hshort.isInfix

theorem test_append {keep : Nat} (hkeep : width ≤ keep + 1) (a b : List α) :
    test (a ++ b) = (test a || test (lastPart keep a ++ b)) := by
  rw [Bool.eq_iff_iff, or_eq_true]
  constructor
  · intro hab
    obtain ⟨w, hw, hhit⟩ := (h.test_iff _).mp hab
    rcases h.infix_append hkeep hw hhit with hin | hin
    · exact .inl ((h.test_iff _).mpr ⟨w, hin, hhit⟩)
    · exact .inr ((h.test_iff _).mpr ⟨w, hin, hhit⟩)
  · rintro (ha | hb)
    · exact h.mono (prefix_append a b).isInfix ha
    · refine h.mono (List.IsSuffix.isInfix ?_) hb
      obtain ⟨s, hs⟩ := lastPart_suffix keep a
      exact ⟨s, by rw [← append_assoc, hs]⟩

theorem stream {keep : Nat} (hkeep : width ≤ keep + 1) (parts : List (List α)) (a : List α) :
    parts.foldl (fun s part => (s.1 || test (s.2 ++ part), lastPart keep (s.2 ++ part))) (test a, lastPart keep a) =
      (test (a ++ parts.flatten), lastPart keep (a ++ parts.flatten)) := by
  induction parts generalizing a with
  | nil => rw [flatten_nil, append_nil, foldl_nil]
  | cons part parts ih =>
    rw [foldl_cons, flatten_cons, ← append_assoc, ← ih]
    dsimp only
    rw [← h.test_append hkeep, lastPart_append]

end

end Windowed

end Cantrip.Lib
