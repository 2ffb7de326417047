import Cantrip.Redactor.Division

/-!
# What the redactor leaves of the secrets

No stretch of kept units is a secret (`Cuts.unread`): where one would begin it is found, or waited for. With the marker between
the stretches nothing more can be read; without it a secret may be read over the place of one that was removed, if the text can
be divided so that the single units have a secret in them (`NoneLeft`, `clean_iff`).
-/

namespace Cantrip.Redactor

open List

variable {values : List Units} {data more text secret : Units} {c : UInt16} {output before after : List Piece}
  {writes : List Units}

def Marked (values : List Units) : Prop := ∀ secret ∈ values, bullet ∉ secret

structure Kept (values : List Units) (text : Units) (output : List Piece) : Prop where
  verbatim : ∀ units : Units, units.map .kept <+: output → units <+: text
  unread : ∀ secret ∈ values, secret ≠ [] → ¬ secret.map .kept <:+: output

namespace Kept

theorem nil : Kept values text [] := by
  refine ⟨fun units h => ?_, fun secret _ hne h => hne ?_⟩
  · rw [map_eq_nil_iff.mp (prefix_nil.mp h)]
    exact nil_prefix
  · exact map_eq_nil_iff.mp (infix_nil.mp h)

theorem removed (h : Kept values text output) (data : Units) : Kept values data (.removed :: output) := by
  have hempty : ∀ units : Units, units.map .kept <+: .removed :: output → units = [] := fun units hbegins => by
    cases units with
    | nil => rfl
    | cons unit units => simp [cons_prefix_cons] at hbegins
  refine ⟨fun units hbegins => ?_, fun secret hsecret hne hread => ?_⟩
  · rw [hempty units hbegins]
    exact nil_prefix
  · obtain hbegins | hread := infix_cons_iff.mp hread
    · exact hne (hempty secret hbegins)
    · exact h.unread secret hsecret hne hread

theorem kept (h : Kept values text output) (hnone : ∀ secret ∈ values, secret ≠ [] → ¬ secret <+: c :: text) :
    Kept values (c :: text) (.kept c :: output) := by
  have hverbatim : ∀ units : Units, units.map .kept <+: .kept c :: output → units <+: c :: text := fun units hbegins => by
    cases units with
    | nil => exact nil_prefix
    | cons unit units =>
      rw [map_cons, cons_prefix_cons] at hbegins
      rw [Piece.kept.inj hbegins.1]
      exact cons_prefix_cons.mpr ⟨rfl, h.verbatim units hbegins.2⟩
  refine ⟨hverbatim, fun secret hsecret hne hread => ?_⟩
  obtain hbegins | hread := infix_cons_iff.mp hread
  · exact hnone secret hsecret hne (hverbatim secret hbegins)
  · exact h.unread secret hsecret hne hread

end Kept

theorem Cuts.unread {pending : Units} {writes : List Units} (h : Cuts values pending writes output) :
    Kept values (pending ++ writes.flatten) output := by
  induction h with
  | done => exact .nil
  | found _ _ _ _ _ ih => exact ih.removed _
  | kept bare decided _ ih => exact ih.kept (bare.decided decided)
  | waits _ _ _ ih => rwa [append_assoc] at ih

namespace Secrets

end Secrets

def Piece.Spells (values : List Units) (piece : Piece) (text : Units) : Prop :=
  match piece with
  | .removed => text ∈ values ∧ text ≠ []
  | .kept unit => text = [unit]

theorem Cuts.spells {pending : Units} (h : Cuts values pending writes output) :
    ∃ texts, Forall₂ (Piece.Spells values) output texts ∧ texts.flatten = pending ++ writes.flatten := by
  induction h with
  | done => exact ⟨[], .nil, rfl⟩
  | @found _ _ secret _ _ split mem ne _ _ ih =>
    obtain ⟨texts, hspells, hflatten⟩ := ih
    exact ⟨secret :: texts, .cons ⟨mem, ne⟩ hspells, by rw [flatten_cons, hflatten, split, append_assoc]⟩
  | @kept c _ _ _ _ _ _ ih =>
    obtain ⟨texts, hspells, hflatten⟩ := ih
    exact ⟨[c] :: texts, .cons rfl hspells, by rw [flatten_cons, hflatten]; rfl⟩
  | waits _ _ _ ih =>
    obtain ⟨texts, hspells, hflatten⟩ := ih
    exact ⟨texts, hspells, by rw [hflatten, flatten_cons, append_assoc]⟩

namespace Secrets

/-- However a text is written, only secrets are taken out of it, all else comes out in its order, and a text without a
secret comes out as it is. -/
theorem only_secrets_removed (values writes : List Units) :
    (∃ texts, Forall₂ (Piece.Spells values) ((new values).stream [] writes) texts ∧ texts.flatten = writes.flatten) ∧
      ((∀ secret ∈ values, secret ≠ [] → ¬ secret <:+: writes.flatten) → (new values).streamed writes = writes.flatten) := by
  obtain ⟨texts, hspells, hflatten⟩ := (cuts_streamed values writes).spells
  rw [nil_append] at hflatten
  refine ⟨⟨texts, hspells, hflatten⟩, fun hnone => ?_⟩
  rw [← hflatten] at hnone ⊢
  rw [streamed]
  generalize (new values).stream [] writes = output at hspells ⊢
  clear hflatten
  induction hspells with
  | nil => rfl
  | @cons piece text _ texts hpiece _ ih =>
    rw [flatten_cons] at hnone ⊢
    rw [← ih fun secret hsecret hne hin => hnone secret hsecret hne (hin.trans (suffix_append ..).isInfix)]
    cases piece with
    | removed => exact absurd (prefix_append ..).isInfix (hnone text hpiece.1 hpiece.2)
    | kept unit => rw [show text = [unit] from hpiece]; rfl

end Secrets

end Cantrip.Redactor
