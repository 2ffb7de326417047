/-!
# Postconditions of stateful computations that may fail

`Post m s E Q`: run from `s`, `m` returns a value and a state with `Q`, or fails in a state with `E`. The
state survives an error, so that both outcomes are constrained. A computation without state that may fail is
taken apart where it is known to succeed (`bind_eq_ok`).
-/

namespace Cantrip.Lib

theorem bind_eq_ok {ε α β : Type} {x : Except ε α} {f : α → Except ε β} {b : β} :
    (x >>= f) = .ok b ↔ ∃ a, x = .ok a ∧ f a = .ok b := by
  cases x with
  | error e => simp [bind, Except.bind]
  | ok a => simp [bind, Except.bind]

theorem map_eq_ok {ε α β : Type} {f : α → β} {x : Except ε α} {b : β} : f <$> x = .ok b ↔ ∃ a, x = .ok a ∧ f a = b := by
  cases x with
  | error e => simp [Functor.map, Except.map]
  | ok a => simp [Functor.map, Except.map]

theorem mapError_eq_ok {ε ε' α : Type} {f : ε → ε'} {x : Except ε α} {a : α} : x.mapError f = .ok a ↔ x = .ok a := by
  cases x with
  | ok b =>
    have hmap : (Except.ok b : Except ε α).mapError f = .ok b := rfl
    rw [hmap, Except.ok.injEq, Except.ok.injEq]
  | error e =>
    have hmap : (Except.error e : Except ε α).mapError f = .error (f e) := rfl
    rw [hmap]
    simp only [reduceCtorEq]

/-! ## Postconditions -/

variable {ε σ α β : Type} {E : σ → Prop}

variable {s : σ}

theorem run_bind {m : EStateM ε σ α} {f : α → EStateM ε σ β} {s' : σ} {a : α} (h : m s = .ok a s') :
    (m >>= f) s = f a s' := by
  simp only [bind, EStateM.bind, h]

theorem run_get {f : σ → EStateM ε σ β} : (get >>= f) s = f s s := rfl

theorem run_set {f : PUnit → EStateM ε σ β} {s' : σ} : (set s' >>= f) s = f ⟨⟩ s' := rfl

theorem run_modify {f : PUnit → EStateM ε σ β} {g : σ → σ} : (modify g >>= f) s = f ⟨⟩ (g s) := rfl

def Post (m : EStateM ε σ α) (s : σ) (E : σ → Prop) (Q : α → σ → Prop) : Prop :=
  match m s with
  | .ok a s' => Q a s'
  | .error _ s' => E s'

namespace Post

variable {m : EStateM ε σ α} {Q : α → σ → Prop} {s s' : σ}

theorem mono {R : α → σ → Prop} (h : Post m s E Q) (hQR : ∀ a s', Q a s' → R a s') : Post m s E R := by
  unfold Post at h ⊢
  match hm : m s with
  | .ok a s' =>
    rw [hm] at h
    exact hQR a s' h
  | .error e s' =>
    rw [hm] at h
    exact h

theorem imp {E' : σ → Prop} {R : α → σ → Prop} (h : Post m s E Q) (hE : ∀ s', E s' → E' s')
    (hQR : ∀ a s', Q a s' → R a s') : Post m s E' R := by
  unfold Post at h ⊢
  cases hm : m s with
  | ok a s' =>
    rw [hm] at h
    exact hQR a s' h
  | error e s' =>
    rw [hm] at h
    exact hE s' h

theorem ok {a : α} (h : Post m s E Q) (hm : m s = .ok a s') : Q a s' := by
  unfold Post at h
  rw [hm] at h
  exact h

theorem error {e : ε} (h : Post m s E Q) (hm : m s = .error e s') : E s' := by
  unfold Post at h
  rw [hm] at h
  exact h

theorem bind {f : α → EStateM ε σ β} {Q : β → σ → Prop}
    (h : Post m s E fun a s' => Post (f a) s' E Q) : Post (m >>= f) s E Q := by
  unfold Post at h ⊢
  simp only [Bind.bind, EStateM.bind]
  match hm : m s with
  | .ok a s' =>
    rw [hm] at h
    exact h
  | .error e s' =>
    rw [hm] at h
    exact h

theorem pure {a : α} (h : Q a s) : Post (Pure.pure a : EStateM ε σ α) s E Q := h

theorem throw {e : ε} (h : E s) : Post (MonadExcept.throw e : EStateM ε σ α) s E Q := h

theorem get {f : σ → EStateM ε σ β} {Q : β → σ → Prop} (h : Post (f s) s E Q) : Post (MonadState.get >>= f) s E Q := h

theorem set {f : PUnit → EStateM ε σ β} {Q : β → σ → Prop} (h : Post (f ⟨⟩) s' E Q) :
    Post (MonadStateOf.set s' >>= f) s E Q := h

theorem update {f : PUnit → EStateM ε σ β} {g : σ → σ} {Q : β → σ → Prop} (h : Post (f ⟨⟩) (g s) E Q) :
    Post (modify g >>= f) s E Q := h

theorem ite {c : Prop} [Decidable c] {x y : EStateM ε σ α} (hx : c → Post x s E Q)
    (hy : ¬c → Post y s E Q) : Post (if c then x else y) s E Q := by
  by_cases hc : c
  · rw [if_pos hc]
    exact hx hc
  · rw [if_neg hc]
    exact hy hc

theorem map {f : α → β} {Q : β → σ → Prop} (h : Post m s E fun a s' => Q (f a) s') : Post (f <$> m) s E Q := by
  unfold Post at h ⊢
  simp only [Functor.map, EStateM.map]
  match hm : m s with
  | .ok a s' =>
    rw [hm] at h
    exact h
  | .error e s' =>
    rw [hm] at h
    exact h

theorem discard {Q : PUnit → σ → Prop} (h : Post m s E fun _ s' => Q ⟨⟩ s') : Post (Functor.discard m) s E Q := by
  unfold Post at h ⊢
  simp only [Functor.discard, Functor.mapConst, EStateM.map, Function.comp]
  match hm : m s with
  | .ok a s' =>
    rw [hm] at h
    exact h
  | .error e s' =>
    rw [hm] at h
    exact h

end Post

end Cantrip.Lib
