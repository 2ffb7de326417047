import Mathlib.Data.List.Basic

/-!
# Runs of a labelled step function

A system is given by a partial step function: in a state an action is either not enabled or leads to a
state and is observed as a label. `runSteps` is a finite run with the labels it shows. What a step
preserves, a run preserves (`runSteps_invariant`).
-/

namespace Cantrip.Lib

variable {σ α β : Type}

/-- Take the actions one after another. -/
def runSteps (step : σ → α → Option (σ × β)) : σ → List α → Option (σ × List β)
  | s, [] => some (s, [])
  | s, a :: as =>
    match step s a with
    | none => none
    | some (s', b) => (runSteps step s' as).map fun r => (r.1, b :: r.2)

theorem runSteps_cons {step : σ → α → Option (σ × β)} {s s' : σ} {a : α} {as : List α} {bs : List β}
    (h : runSteps step s (a :: as) = some (s', bs)) :
    ∃ m b rest, step s a = some (m, b) ∧ runSteps step m as = some (s', rest) ∧ bs = b :: rest := by
  rw [runSteps] at h
  match hstep : step s a with
  | none =>
    rw [hstep] at h
    cases h
  | some (m, b) =>
    rw [hstep] at h
    simp only [Option.map_eq_some_iff] at h
    obtain ⟨⟨t, rest⟩, hrun, heq⟩ := h
    cases heq
    exact ⟨m, b, rest, rfl, hrun, rfl⟩

theorem runSteps_invariant {step : σ → α → Option (σ × β)} {I : σ → List β → Prop}
    (hstep : ∀ s bs a s' b, I s bs → step s a = some (s', b) → I s' (bs ++ [b])) (as : List α) :
    ∀ s bs s' bs', I s bs → runSteps step s as = some (s', bs') → I s' (bs ++ bs') := by
  induction as with
  | nil =>
    intro s bs s' bs' hi h
    cases h
    simpa using hi
  | cons a as ih =>
    intro s bs s' bs' hi h
    obtain ⟨m, b, rest, hs, hrun, rfl⟩ := runSteps_cons h
    have := ih m (bs ++ [b]) s' rest (hstep s bs a m b hi hs) hrun
    rwa [List.append_assoc] at this

theorem runSteps_split {step : σ → α → Option (σ × β)} (as : List α) :
    ∀ s s' bs₁ b bs₂, runSteps step s as = some (s', bs₁ ++ b :: bs₂) →
      ∃ as₁ a as₂ m m', runSteps step s as₁ = some (m, bs₁) ∧ step m a = some (m', b) ∧
        runSteps step m' as₂ = some (s', bs₂) := by
  induction as with
  | nil =>
    intro s s' bs₁ b bs₂ h
    rw [runSteps] at h
    simp at h
  | cons a as ih =>
    intro s s' bs₁ b bs₂ h
    obtain ⟨m, c, rest, hs, hrun, heq⟩ := runSteps_cons h
    match bs₁ with
    | [] =>
      cases heq
      exact ⟨[], a, as, s, m, rfl, hs, hrun⟩
    | c' :: bs₁ =>
      cases heq
      obtain ⟨as₁, a', as₂, m₁, m₂, h₁, h₂, h₃⟩ := ih m s' bs₁ b bs₂ hrun
      refine ⟨a :: as₁, a', as₂, m₁, m₂, ?_, h₂, h₃⟩
      rw [runSteps, hs]
      simp only [h₁, Option.map_some]

end Cantrip.Lib
