import Mathlib.Data.List.Basic

/-!
# Lists with immediate retries

A sender that tries again at once sends several records with one key in a row. `lastOfRuns` keeps the last of each row.
-/

namespace Cantrip.Lib

open List

variable {α κ : Type} [DecidableEq κ] (key : α → κ)

def lastOfRuns : List α → List α
  | [] => []
  | [a] => [a]
  | a :: b :: rest => if key a = key b then lastOfRuns (b :: rest) else a :: lastOfRuns (b :: rest)

variable {key} {l : List α} {a b : α}

theorem lastOfRuns_ne_nil (a : α) (l : List α) : lastOfRuns key (a :: l) ≠ [] := by
  induction l generalizing a with
  | nil => simp [lastOfRuns]
  | cons b l ih =>
    rw [lastOfRuns]
    split
    · exact ih b
    · simp

theorem getLast?_lastOfRuns (l : List α) : (lastOfRuns key l).getLast? = l.getLast? := by
  induction l using lastOfRuns.induct key with
  | case1 => rfl
  | case2 a => rfl
  | case3 a b rest hkey ih => rw [lastOfRuns, if_pos hkey, ih, getLast?_cons_cons]
  | case4 a b rest hkey ih =>
    obtain ⟨c, t, ht⟩ := exists_cons_of_ne_nil (@lastOfRuns_ne_nil _ _ _ key b rest)
    rw [lastOfRuns, if_neg hkey, getLast?_cons_cons, ← ih, ht, getLast?_cons_cons]

theorem lastOfRuns_retry (hl : l.getLast? = some a) (hkey : key a = key b) :
    lastOfRuns key (l ++ [b]) = (lastOfRuns key l).dropLast ++ [b] := by
  induction l using lastOfRuns.induct key with
  | case1 => cases hl
  | case2 c =>
    have hc : c = a := by simpa using hl
    rw [← hc] at hkey
    simp [lastOfRuns, hkey]
  | case3 c d rest hcd ih =>
    rw [getLast?_cons_cons] at hl
    rw [cons_append, cons_append, lastOfRuns, if_pos hcd, lastOfRuns, if_pos hcd]
    exact ih hl
  | case4 c d rest hcd ih =>
    rw [getLast?_cons_cons] at hl
    rw [cons_append, cons_append, lastOfRuns, if_neg hcd, lastOfRuns, if_neg hcd,
      dropLast_cons_of_ne_nil (lastOfRuns_ne_nil d rest)]
    exact congrArg (c :: ·) (ih hl)

theorem lastOfRuns_next (hl : ∀ a, l.getLast? = some a → key a ≠ key b) : lastOfRuns key (l ++ [b]) = lastOfRuns key l ++ [b] := by
  induction l using lastOfRuns.induct key with
  | case1 => rfl
  | case2 c =>
    have hc := hl c rfl
    simp [lastOfRuns, hc]
  | case3 c d rest hcd ih =>
    rw [cons_append, cons_append, lastOfRuns, if_pos hcd, lastOfRuns, if_pos hcd]
    apply ih
    intro a ha
    exact hl a (by rw [getLast?_cons_cons, ha])
  | case4 c d rest hcd ih =>
    rw [cons_append, cons_append, lastOfRuns, if_neg hcd, lastOfRuns, if_neg hcd]
    refine congrArg (c :: ·) (ih ?_)
    intro a ha
    exact hl a (by rw [getLast?_cons_cons, ha])

end Cantrip.Lib
