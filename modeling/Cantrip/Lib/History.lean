import Mathlib.Data.List.Basic

/-!
# Logs

A log grows by one entry at a time. `Each P log` says that every entry was such (`P`) when it was written, given
the entries before it; it is kept by writing an entry that is (`Each.concat`) and read at any place of the log
(`Each.get`).
-/

namespace Cantrip.Lib

open List

variable {α : Type} {P Q : List α → α → Prop} {log before after : List α} {entry : α}

def Each (P : List α → α → Prop) (log : List α) : Prop := ∀ before entry, before ++ [entry] <+: log → P before entry

namespace Each

@[simp] theorem nil : Each P [] := by
  intro before entry h
  simp at h

theorem concat (h : Each P log) (hentry : P log entry) : Each P (log ++ [entry]) := by
  intro before last hbegun
  rcases prefix_concat_iff.mp hbegun with he | hearlier
  · obtain ⟨rfl, hlast⟩ := append_inj' he rfl
    obtain rfl := singleton_inj.mp hlast
    exact hentry
  · exact h before last hearlier

theorem of_prefix (h : Each P after) (hbegun : before <+: after) : Each P before :=
  fun earlier entry he => h earlier entry (he.trans hbegun)

theorem get (h : Each P log) (hlog : log = before ++ entry :: after) : P before entry :=
  h before entry ⟨after, by rw [hlog, append_assoc, singleton_append]⟩

end Each

end Cantrip.Lib
