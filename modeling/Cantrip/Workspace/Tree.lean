import Cantrip.Workspace.Commands

/-!
# Center trees under the commands

What removing, replacing, resizing and reordering leaves does to the leaves, the split identities and the
bounds of a tree.
-/

namespace Cantrip.Workspace

/-- The leaves of a tree that may be empty. -/
def rootLeaves (root : Option Node) : List Identity := (root.map (·.leaves)).getD []

def rootSplits (root : Option Node) : List Identity := (root.map (·.splitIds)).getD []

@[simp] theorem rootLeaves_none : rootLeaves none = [] := rfl

@[simp] theorem rootLeaves_some (root : Node) : rootLeaves (some root) = root.leaves := rfl

@[simp] theorem rootSplits_none : rootSplits none = [] := rfl

@[simp] theorem rootSplits_some (root : Node) : rootSplits (some root) = root.splitIds := rfl

theorem Node.leaves_ne_nil (root : Node) : root.leaves ≠ [] := by
  induction root with
  | pane id => simp [Node.leaves]
  | split id direction fraction first second ihf ihs => simp [Node.leaves, ihf]

namespace Node

theorem removeLeaf_split (pane id : Identity) (direction : Direction) (fraction : SplitFraction) (first second : Node) :
    removeLeaf pane (.split id direction fraction first second) =
      match removeLeaf pane first, removeLeaf pane second with
      | none, second => second
      | some first, none => some first
      | some first, some second => some (.split id direction fraction first second) := rfl

theorem leaves_removeLeaf (pane : Identity) (root : Node) :
    rootLeaves (root.removeLeaf pane) = root.leaves.filter fun id => id ≠ pane := by
  induction root with
  | pane id =>
    by_cases h : id = pane
    · simp [removeLeaf, leaves, h]
    · simp [removeLeaf, leaves, h]
  | split id direction fraction first second ihf ihs =>
    rw [removeLeaf_split, leaves, List.filter_append, ← ihf, ← ihs]
    rcases removeLeaf pane first with _ | first <;> rcases removeLeaf pane second with _ | second <;> simp [leaves]

theorem splitIds_removeLeaf (pane : Identity) (root : Node) : (rootSplits (root.removeLeaf pane)).Sublist root.splitIds := by
  induction root with
  | pane id =>
    by_cases h : id = pane
    · simp [removeLeaf, splitIds, h]
    · simp [removeLeaf, splitIds, h]
  | split id direction fraction first second ihf ihs =>
    have happend := (ihf.append ihs).trans (List.sublist_cons_self id _)
    rw [removeLeaf_split, splitIds]
    rcases hf : removeLeaf pane first with _ | f <;> rcases hs : removeLeaf pane second with _ | s <;>
      rw [hf, hs] at happend
    · simp
    · simpa using happend
    · simpa using happend
    · rw [hf] at ihf
      rw [hs] at ihs
      simpa [splitIds] using ihf.append ihs

theorem bounds_removeLeaf (pane : Identity) (root rest : Node) (h : root.removeLeaf pane = some rest) :
    rest.size ≤ root.size ∧ rest.depth ≤ root.depth := by
  induction root generalizing rest with
  | pane id =>
    unfold removeLeaf at h
    split at h
    · simp at h
    · simp only [Option.some.injEq] at h
      subst h
      exact ⟨le_rfl, le_rfl⟩
  | split id direction fraction first second ihf ihs =>
    rw [removeLeaf_split] at h
    rcases hf : removeLeaf pane first with _ | f <;> rcases hs : removeLeaf pane second with _ | s <;>
      rw [hf, hs] at h
    · simp at h
    · obtain rfl : s = rest := by simpa using h
      have := ihs s hs
      simp only [size, depth]
      omega
    · obtain rfl : f = rest := by simpa using h
      have := ihf f hf
      simp only [size, depth]
      omega
    · obtain rfl : split id direction fraction f s = rest := by simpa using h
      have := ihf f hf
      have := ihs s hs
      simp only [size, depth]
      omega

end Node

end Cantrip.Workspace
