import Cantrip.Lib.Post
import Cantrip.Workspace.Tree

/-!
# The other center trees (`pane_layouts/center.rs`, `project_layout/center.rs`)

Two older modules rewrite the same persisted tree as `workspace_layouts/tree.rs` (`Node.removeLeaf`, `Node.resize`,
`Node.reorder`), each with a convention of its own for what is absent. `Null` is `none`, so that no split can have
an empty side.
-/

namespace Cantrip.Workspace

open Lib List

namespace PaneLayouts

/-- The leaves take the identities in order; `order` is what the iterator has left. -/
def visit : Node → List Identity → Except String (Node × List Identity)
  | .pane _, id :: order => .ok (.pane id, order)
  | .pane _, [] => .error "The center pane order is incomplete."
  | .split id direction fraction first second, order => do
    let (first, order) ← visit first order
    let (second, order) ← visit second order
    .ok (.split id direction fraction first second, order)

def reorder (root : Node) (order : List Identity) : Except String Node := do
  let (next, _) ← visit root order
  .ok next

def resize (root : Node) (id : Identity) (fraction : SplitFraction) : Node × Bool :=
  match root with
  | .pane paneId => (.pane paneId, false)
  | .split splitId direction previous first second =>
    if splitId = id then (.split splitId direction fraction first second, true)
    else
      let (child, changed) := resize first id fraction
      if changed then (.split splitId direction previous child second, true)
      else
        let (child, changed) := resize second id fraction
        if changed then (.split splitId direction previous first child, true)
        else (.split splitId direction previous first second, false)

def replace (root : Node) (pane : Identity) (replacement : Option Node) : Option Node × Bool :=
  match root with
  | .pane paneId => if paneId = pane then (replacement, true) else (some (.pane paneId), false)
  | .split id direction fraction first second =>
    match replace first pane replacement with
    | (none, true) => (some second, true)
    | (some child, true) => (some (.split id direction fraction child second), true)
    | (_, false) =>
      match replace second pane replacement with
      | (none, true) => (some first, true)
      | (some child, true) => (some (.split id direction fraction first child), true)
      | (_, false) => (some (.split id direction fraction first second), false)

end PaneLayouts

/-! ## `project_layout/center.rs` -/

namespace ProjectLayout

inductive TreeError
  | bounds
  | pane (id : Identity)
  | split (id : Identity)
  deriving DecidableEq

def TreeError.message : TreeError → List Nat
  | .bounds => text "The center layout exceeds its supported topology bounds."
  | .pane id => text "Center pane " ++ utf16Scalars id.units ++ text " appears more than once in the layout tree."
  | .split id => text "Center split " ++ utf16Scalars id.units ++ text " appears more than once in the layout tree."
where
  text (s : String) : List Nat := s.toList.map Char.toNat

/-- The loop of `leaf_ids`: `left` nodes may still be counted, and every pending node stands with its depth. -/
def leafIdsLoop : Nat → List (Node × Nat) → List Identity → List Identity → List Identity → Except TreeError (List Identity)
  | _, [], _, _, result => .ok result
  | 0, _ :: _, _, _, _ => .error .bounds
  | left + 1, (node, depth) :: pending, splits, panes, result =>
    if 32 < depth then .error .bounds
    else
      match node with
      | .pane id =>
        if id ∈ panes then .error (.pane id) else leafIdsLoop left pending splits (id :: panes) (result ++ [id])
      | .split id _ _ first second =>
        if id ∈ splits then .error (.split id)
        else leafIdsLoop left ((first, depth + 1) :: (second, depth + 1) :: pending) (id :: splits) panes result

def leafIds (root : Option Node) : Except TreeError (List Identity) :=
  match root with
  | none => .ok []
  | some root => leafIdsLoop 255 [(root, 1)] [] [] []

def removeFirst (node : Node) (pane : Identity) : Option Node × Bool :=
  match node with
  | .pane paneId => if paneId = pane then (none, true) else (some (.pane paneId), false)
  | .split id direction fraction first second =>
    match removeFirst first pane with
    | (none, true) => (some second, true)
    | (some next, true) => (some (.split id direction fraction next second), true)
    | (_, false) =>
      match removeFirst second pane with
      | (none, true) => (some first, true)
      | (some next, true) => (some (.split id direction fraction first next), true)
      | (_, false) => (some (.split id direction fraction first second), false)

end ProjectLayout

/-! ## Removal -/

namespace Node

theorem removeLeaf_of_notMem {pane : Identity} {root : Node} (h : pane ∉ root.leaves) : root.removeLeaf pane = some root := by
  induction root with
  | pane id =>
    have hne : id ≠ pane := fun he => h (by simp [leaves, he])
    simp [removeLeaf, hne]
  | split id direction fraction first second ihf ihs =>
    simp only [leaves, mem_append, not_or] at h
    rw [removeLeaf_split, ihf h.1, ihs h.2]

end Node

/-- What a removal that reports whether it found the pane gives. -/
def removal (root : Node) (pane : Identity) : Option Node × Bool := (root.removeLeaf pane, decide (pane ∈ root.leaves))

theorem removal_pane (paneId pane : Identity) :
    removal (.pane paneId) pane = if paneId = pane then (none, true) else (some (.pane paneId), false) := by
  unfold removal
  by_cases h : paneId = pane
  · simp [Node.removeLeaf, Node.leaves, h]
  · simp [Node.removeLeaf, Node.leaves, h, Ne.symm h]

theorem removal_split (pane id : Identity) (direction : Direction) (fraction : SplitFraction) (first second : Node)
    (h : (first.leaves ++ second.leaves).Nodup) :
    removal (.split id direction fraction first second) pane =
      match removal first pane with
      | (none, true) => (some second, true)
      | (some next, true) => (some (.split id direction fraction next second), true)
      | (_, false) =>
        match removal second pane with
        | (none, true) => (some first, true)
        | (some next, true) => (some (.split id direction fraction first next), true)
        | (_, false) => (some (.split id direction fraction first second), false) := by
  have hdisjoint := (nodup_append'.mp h).2.2
  unfold removal
  rw [Node.removeLeaf_split, Node.leaves]
  by_cases hfirst : pane ∈ first.leaves
  · have hsecond : pane ∉ second.leaves := fun hs => hdisjoint hfirst hs
    simp only [Node.removeLeaf_of_notMem hsecond, mem_append, hfirst, true_or, decide_true]
    cases first.removeLeaf pane <;> rfl
  · simp only [Node.removeLeaf_of_notMem hfirst, mem_append, hfirst, false_or, decide_false]
    by_cases hsecond : pane ∈ second.leaves
    · simp only [hsecond, decide_true]
      cases second.removeLeaf pane <;> rfl
    · simp only [Node.removeLeaf_of_notMem hsecond, hsecond, decide_false]

theorem PaneLayouts.replace_eq {root : Node} (pane : Identity) (h : root.leaves.Nodup) :
    replace root pane none = removal root pane := by
  induction root with
  | pane id => rw [removal_pane, replace]
  | split id direction fraction first second ihf ihs =>
    rw [Node.leaves] at h
    obtain ⟨hf, hs, -⟩ := nodup_append'.mp h
    rw [removal_split pane id direction fraction first second h, replace, ihf hf, ihs hs]

theorem ProjectLayout.removeFirst_eq {root : Node} (pane : Identity) (h : root.leaves.Nodup) :
    removeFirst root pane = removal root pane := by
  induction root with
  | pane id => rw [removal_pane, removeFirst]
  | split id direction fraction first second ihf ihs =>
    rw [Node.leaves] at h
    obtain ⟨hf, hs, -⟩ := nodup_append'.mp h
    rw [removal_split pane id direction fraction first second h, removeFirst, ihf hf, ihs hs]

/-! ## Splits -/

/-- A split with the leaves of its two sides. -/
structure Split where
  id : Identity
  direction : Direction
  fraction : SplitFraction
  first : List Identity
  second : List Identity

namespace Split

def without (pane : Identity) (split : Split) : Option Split :=
  let first := split.first.filter fun id => id ≠ pane
  let second := split.second.filter fun id => id ≠ pane
  if first = [] ∨ second = [] then none else some { split with first, second }

end Split

namespace Node

/-- The splits of a tree, a split before those of its sides. -/
def splits : Node → List Split
  | .pane _ => []
  | .split id direction fraction first second =>
    ⟨id, direction, fraction, first.leaves, second.leaves⟩ :: (first.splits ++ second.splits)

/-- The tree with one identity in all leaves: what is left where the leaves do not count. -/
def relabel (label : Identity) : Node → Node
  | .pane _ => .pane label
  | .split id direction fraction first second => .split id direction fraction (first.relabel label) (second.relabel label)

theorem removeLeaf_eq_none {pane : Identity} {root : Node} :
    root.removeLeaf pane = none ↔ root.leaves.filter (fun id => id ≠ pane) = [] := by
  rw [← leaves_removeLeaf]
  cases h : root.removeLeaf pane with
  | none => simp
  | some rest => simpa using rest.leaves_ne_nil

theorem leaves_of_removeLeaf {pane : Identity} {root rest : Node} (h : root.removeLeaf pane = some rest) :
    rest.leaves = root.leaves.filter fun id => id ≠ pane := by
  rw [← leaves_removeLeaf, h, rootLeaves_some]

theorem splits_removeLeaf (pane : Identity) (root : Node) :
    ((root.removeLeaf pane).map (·.splits)).getD [] = root.splits.filterMap (Split.without pane) := by
  induction root with
  | pane id =>
    by_cases h : id = pane
    · simp [removeLeaf, splits, h]
    · simp [removeLeaf, splits, h]
  | split id direction fraction first second ihf ihs =>
    rw [removeLeaf_split, splits, filterMap_cons, filterMap_append, ← ihf, ← ihs, Split.without]
    cases hf : first.removeLeaf pane with
    | none =>
      rw [if_pos (.inl (removeLeaf_eq_none.mp hf))]
      simp
    | some f =>
      have hfirst : first.leaves.filter (fun id => id ≠ pane) ≠ [] := fun he => by simp [removeLeaf_eq_none.mpr he] at hf
      cases hs : second.removeLeaf pane with
      | none =>
        rw [if_pos (.inr (removeLeaf_eq_none.mp hs))]
        simp
      | some s =>
        have hsecond : second.leaves.filter (fun id => id ≠ pane) ≠ [] :=
          fun he => by simp [removeLeaf_eq_none.mpr he] at hs
        rw [if_neg (not_or.mpr ⟨hfirst, hsecond⟩)]
        simp [splits, leaves_of_removeLeaf hf, leaves_of_removeLeaf hs]

theorem splits_sides (root : Node) : ∀ split ∈ root.splits, split.first ≠ [] ∧ split.second ≠ [] := by
  induction root with
  | pane id => simp [splits]
  | split id direction fraction first second ihf ihs =>
    intro split hmem
    rcases mem_cons.mp hmem with rfl | hmem
    · exact ⟨first.leaves_ne_nil, second.leaves_ne_nil⟩
    · rcases mem_append.mp hmem with hmem | hmem
      · exact ihf split hmem
      · exact ihs split hmem

theorem splitIds_eq (root : Node) : root.splitIds = root.splits.map (·.id) := by
  induction root with
  | pane id => rfl
  | split id direction fraction first second ihf ihs =>
    rw [splitIds, splits, ihf, ihs, map_cons, map_append]

theorem resize_cases (id : Identity) (fraction : SplitFraction) (root : Node) :
    (root.resize id fraction = none ∧ id ∉ root.splitIds) ∨
      ∃ resized before split after, root.resize id fraction = some resized ∧ root.splits = before ++ split :: after ∧
        split.id = id ∧ (∀ earlier ∈ before, earlier.id ≠ id) ∧
        resized.splits = before ++ { split with fraction } :: after ∧ resized.leaves = root.leaves := by
  induction root with
  | pane paneId => exact .inl ⟨rfl, by simp [splitIds]⟩
  | split splitId direction previous first second ihf ihs =>
    rw [resize]
    by_cases hid : splitId = id
    · right
      rw [if_pos hid]
      exact ⟨_, [], _, _, rfl, rfl, hid, by simp, rfl, rfl⟩
    rw [if_neg hid]
    rcases ihf with ⟨hf, hfirst⟩ | ⟨f, before, changed, after, hf, hsplits, hchanged, hearlier, hfs, hfl⟩
    · rw [hf]
      rcases ihs with ⟨hs, hsecond⟩ | ⟨s, before, changed, after, hs, hsplits, hchanged, hearlier, hss, hsl⟩
      · left
        refine ⟨by simp [hs], ?_⟩
        simp [splitIds, hfirst, hsecond, Ne.symm hid]
      · right
        refine ⟨.split splitId direction previous first s,
          ⟨splitId, direction, previous, first.leaves, second.leaves⟩ :: (first.splits ++ before), changed, after,
          by simp [hs], by simp [splits, hsplits], hchanged, ?_, by simp [splits, hss, hsl], by simp [leaves, hsl]⟩
        intro earlier hmem
        rcases mem_cons.mp hmem with rfl | hmem
        · exact hid
        · rcases mem_append.mp hmem with hmem | hmem
          · intro he
            rw [splitIds_eq] at hfirst
            exact hfirst (mem_map.mpr ⟨earlier, hmem, he⟩)
          · exact hearlier earlier hmem
    · right
      rw [hf]
      refine ⟨.split splitId direction previous f second,
        ⟨splitId, direction, previous, first.leaves, second.leaves⟩ :: before, changed, after ++ second.splits,
        rfl, by simp [splits, hsplits], hchanged, ?_, by simp [splits, hfs, hfl], by simp [leaves, hfl]⟩
      intro earlier hmem
      rcases mem_cons.mp hmem with rfl | hmem
      · exact hid
      · exact hearlier earlier hmem

theorem reorder_eq_ok {root placed : Node} {ids rest : List Identity} (h : root.reorder ids = .ok (placed, rest)) :
    ids = placed.leaves ++ rest ∧ ∀ label, placed.relabel label = root.relabel label := by
  induction root generalizing placed ids rest with
  | pane id =>
    cases ids with
    | nil => cases h
    | cons next ids =>
      cases h
      exact ⟨rfl, fun _ => rfl⟩
  | split id direction fraction first second ihf ihs =>
    obtain ⟨⟨f, between⟩, hf, h⟩ := bind_eq_ok.mp h
    obtain ⟨⟨s, last⟩, hs, h⟩ := bind_eq_ok.mp h
    cases h
    obtain ⟨rfl, hfirst⟩ := ihf hf
    obtain ⟨rfl, hsecond⟩ := ihs hs
    refine ⟨by rw [leaves, append_assoc], fun label => ?_⟩
    rw [relabel, relabel, hfirst, hsecond]

end Node

theorem PaneLayouts.visit_eq (root : Node) (ids : List Identity) :
    (visit root ids).toOption = (root.reorder ids).toOption := by
  induction root generalizing ids with
  | pane id => cases ids <;> rfl
  | split id direction fraction first second ihf ihs =>
    simp only [visit, Node.reorder, bind, Except.bind]
    have hf := ihf ids
    cases hvisit : visit first ids with
    | error message =>
      cases hreorder : first.reorder ids with
      | error failure => rfl
      | ok result =>
        rw [hvisit, hreorder] at hf
        cases hf
    | ok result =>
      obtain ⟨f, rest⟩ := result
      cases hreorder : first.reorder ids with
      | error failure =>
        rw [hvisit, hreorder] at hf
        cases hf
      | ok result' =>
        rw [hvisit, hreorder] at hf
        cases hf
        have hs := ihs rest
        simp only
        cases hvisit' : visit second rest with
        | error message =>
          cases hreorder' : second.reorder rest with
          | error failure => rfl
          | ok result =>
            rw [hvisit', hreorder'] at hs
            cases hs
        | ok result =>
          cases hreorder' : second.reorder rest with
          | error failure =>
            rw [hvisit', hreorder'] at hs
            cases hs
          | ok result' =>
            rw [hvisit', hreorder'] at hs
            cases hs
            rfl

theorem PaneLayouts.resize_eq (root : Node) (id : Identity) (fraction : SplitFraction) :
    resize root id fraction = ((root.resize id fraction).getD root, (root.resize id fraction).isSome) := by
  induction root with
  | pane paneId => rfl
  | split splitId direction previous first second ihf ihs =>
    rw [resize, Node.resize]
    by_cases hid : splitId = id
    · rw [if_pos hid, if_pos hid]
      rfl
    · rw [if_neg hid, if_neg hid, ihf, ihs]
      cases first.resize id fraction with
      | some f => rfl
      | none => cases second.resize id fraction <;> rfl

/-! ## Accepted trees -/

namespace ProjectLayout

/-- What is still to be visited is accepted, besides what was. -/
structure Acceptable (left : Nat) (pending : List (Node × Nat)) (splits panes : List Identity) : Prop where
  size : (pending.map fun entry => entry.1.size).sum ≤ left
  depth : ∀ entry ∈ pending, entry.1.depth + entry.2 ≤ 32
  splits : (splits.reverse ++ pending.flatMap fun entry => entry.1.splitIds).Nodup
  panes : (panes.reverse ++ pending.flatMap fun entry => entry.1.leaves).Nodup

theorem size_pos (root : Node) : 0 < root.size := by
  cases root with
  | pane id => exact Nat.one_pos
  | split id direction fraction first second =>
    rw [Node.size]
    omega

variable {left depth : Nat} {pending : List (Node × Nat)} {splits panes result out : List Identity}

theorem acceptable_nil (hsplits : splits.Nodup) (hpanes : panes.Nodup) : Acceptable left [] splits panes :=
  ⟨Nat.zero_le _, by simp, by simpa using hsplits, by simpa using hpanes⟩

theorem acceptable_pane {id : Identity} (hdepth : depth ≤ 32) :
    Acceptable (left + 1) ((.pane id, depth) :: pending) splits panes ↔ Acceptable left pending splits (id :: panes) := by
  constructor
  · rintro ⟨hsize, hlevels, hsplits, hpanes⟩
    refine ⟨?_, fun entry he => hlevels entry (mem_cons_of_mem _ he), hsplits, ?_⟩
    · simp only [map_cons, sum_cons, Node.size] at hsize
      omega
    · simpa [Node.leaves] using hpanes
  · rintro ⟨hsize, hlevels, hsplits, hpanes⟩
    refine ⟨?_, forall_mem_cons.mpr ⟨?_, hlevels⟩, hsplits, ?_⟩
    · simp only [map_cons, sum_cons, Node.size]
      omega
    · simpa [Node.depth] using hdepth
    · simpa [Node.leaves] using hpanes

theorem acceptable_split {id : Identity} {direction : Direction} {fraction : SplitFraction} {first second : Node} :
    Acceptable (left + 1) ((.split id direction fraction first second, depth) :: pending) splits panes ↔
      Acceptable left ((first, depth + 1) :: (second, depth + 1) :: pending) (id :: splits) panes := by
  constructor
  · rintro ⟨hsize, hlevels, hsplits, hpanes⟩
    obtain ⟨hroot, hrest⟩ := forall_mem_cons.mp hlevels
    simp only [Node.depth] at hroot
    refine ⟨?_, forall_mem_cons.mpr ⟨?_, forall_mem_cons.mpr ⟨?_, hrest⟩⟩, ?_, ?_⟩
    · simp only [map_cons, sum_cons, Node.size] at hsize ⊢
      omega
    · simp only
      omega
    · simp only
      omega
    · simpa [Node.splitIds] using hsplits
    · simpa [Node.leaves] using hpanes
  · rintro ⟨hsize, hlevels, hsplits, hpanes⟩
    obtain ⟨hfirst, hlevels⟩ := forall_mem_cons.mp hlevels
    obtain ⟨hsecond, hrest⟩ := forall_mem_cons.mp hlevels
    simp only at hfirst hsecond
    refine ⟨?_, forall_mem_cons.mpr ⟨?_, hrest⟩, ?_, ?_⟩
    · simp only [map_cons, sum_cons, Node.size] at hsize ⊢
      omega
    · simp only [Node.depth]
      omega
    · simpa [Node.splitIds] using hsplits
    · simpa [Node.leaves] using hpanes

theorem leafIdsLoop_eq_ok (hsplits : splits.Nodup) (hpanes : panes.Nodup) :
    leafIdsLoop left pending splits panes result = .ok out ↔
      Acceptable left pending splits panes ∧ out = result ++ pending.flatMap fun entry => entry.1.leaves := by
  induction left generalizing pending splits panes result with
  | zero =>
    cases pending with
    | nil => simp [leafIdsLoop, acceptable_nil hsplits hpanes, eq_comm]
    | cons entry pending =>
      refine iff_of_false (by simp [leafIdsLoop]) fun h => ?_
      have hsize := h.1.size
      have hpos := size_pos entry.1
      simp only [map_cons, sum_cons] at hsize
      omega
  | succ left ih =>
    cases pending with
    | nil => simp [leafIdsLoop, acceptable_nil hsplits hpanes, eq_comm]
    | cons entry pending =>
      obtain ⟨node, depth⟩ := entry
      unfold leafIdsLoop
      by_cases hdepth : 32 < depth
      · rw [if_pos hdepth]
        refine iff_of_false (by simp) fun h => ?_
        have hle := h.1.depth (node, depth) mem_cons_self
        simp only at hle
        omega
      rw [if_neg hdepth]
      cases node with
      | pane id =>
        rw [acceptable_pane (by omega)]
        simp only
        by_cases hmem : id ∈ panes
        · rw [if_pos hmem]
          refine iff_of_false (by simp) fun h => ?_
          have hnodup := h.1.panes
          rw [nodup_append', nodup_reverse] at hnodup
          exact (nodup_cons.mp hnodup.1).1 hmem
        · rw [if_neg hmem, ih hsplits (nodup_cons.mpr ⟨hmem, hpanes⟩)]
          simp [Node.leaves]
      | split id direction fraction first second =>
        rw [acceptable_split]
        simp only
        by_cases hmem : id ∈ splits
        · rw [if_pos hmem]
          refine iff_of_false (by simp) fun h => ?_
          have hnodup := h.1.splits
          rw [nodup_append', nodup_reverse] at hnodup
          exact (nodup_cons.mp hnodup.1).1 hmem
        · rw [if_neg hmem, ih (nodup_cons.mpr ⟨hmem, hsplits⟩) hpanes]
          simp [Node.leaves]

theorem leafIds_eq_ok {root : Node} : leafIds (some root) = .ok out ↔
      (root.leaves.Nodup ∧ root.splitIds.Nodup ∧ root.depth + 1 ≤ 32 ∧ root.size ≤ 255) ∧ out = root.leaves := by
  rw [leafIds, leafIdsLoop_eq_ok nodup_nil nodup_nil]
  refine and_congr ⟨fun h => ?_, fun ⟨hpanes, hsplits, hdepth, hsize⟩ => ?_⟩ (by simp)
  · exact ⟨by simpa using h.panes, by simpa using h.splits, h.depth _ mem_cons_self, by simpa using h.size⟩
  · exact ⟨by simpa using hsize, by simpa using hdepth, by simpa using hsplits, by simpa using hpanes⟩

theorem leafIds_removeLeaf {root : Node} (pane : Identity) (h : leafIds (some root) = .ok out) :
    leafIds (root.removeLeaf pane) = .ok (out.filter fun id => id ≠ pane) := by
  obtain ⟨⟨hpanes, hsplits, hdepth, hsize⟩, rfl⟩ := leafIds_eq_ok.mp h
  cases hrest : root.removeLeaf pane with
  | none => rw [Node.removeLeaf_eq_none.mp hrest, leafIds]
  | some rest =>
    have hbounds := Node.bounds_removeLeaf pane root rest hrest
    have hsublist := Node.splitIds_removeLeaf pane root
    rw [hrest, rootSplits_some] at hsublist
    have hleaves := Node.leaves_of_removeLeaf hrest
    refine leafIds_eq_ok.mpr ⟨⟨?_, hsplits.sublist hsublist, by omega, by omega⟩, hleaves.symm⟩
    rw [hleaves]
    exact hpanes.filter _

end ProjectLayout

structure TreesAgree (root : Node) (pane : Identity) : Prop where
  removed : pane ∈ root.leaves → PaneLayouts.replace root pane none = (root.removeLeaf pane, true) ∧
    ProjectLayout.removeFirst root pane = (root.removeLeaf pane, true)
  absent : pane ∉ root.leaves → root.removeLeaf pane = some root ∧
    PaneLayouts.replace root pane none = (some root, false) ∧ ProjectLayout.removeFirst root pane = (some root, false)
  leaves : rootLeaves (root.removeLeaf pane) = root.leaves.filter fun id => id ≠ pane
  splits : ((root.removeLeaf pane).map (·.splits)).getD [] = root.splits.filterMap (Split.without pane)
  sides : ∀ rest ∈ root.removeLeaf pane, ∀ split ∈ rest.splits, split.first ≠ [] ∧ split.second ≠ []
  reordered : ∀ ids, (PaneLayouts.reorder root ids).toOption = ((root.reorder ids).map Prod.fst).toOption
  leaves_only : ∀ ids placed rest, root.reorder ids = .ok (placed, rest) →
    ids = placed.leaves ++ rest ∧ ∀ label, placed.relabel label = root.relabel label
  resized : ∀ id fraction,
    PaneLayouts.resize root id fraction = ((root.resize id fraction).getD root, (root.resize id fraction).isSome)
  fraction_only : ∀ id fraction, (root.resize id fraction = none ∧ id ∉ root.splitIds) ∨
    ∃ next before split after, root.resize id fraction = some next ∧ root.splits = before ++ split :: after ∧
      split.id = id ∧ (∀ earlier ∈ before, earlier.id ≠ id) ∧
      next.splits = before ++ { split with fraction } :: after ∧ next.leaves = root.leaves
  accepted : ∀ out, ProjectLayout.leafIds (some root) = .ok out ↔
    (root.leaves.Nodup ∧ root.splitIds.Nodup ∧ root.depth + 1 ≤ 32 ∧ root.size ≤ 255) ∧ out = root.leaves
  accepted_without : ∀ out, ProjectLayout.leafIds (some root) = .ok out →
    ProjectLayout.leafIds (root.removeLeaf pane) = .ok (out.filter fun id => id ≠ pane)

theorem center_trees_agree (root : Node) (pane : Identity) (hnodup : root.leaves.Nodup) : TreesAgree root pane := by
  have hreplace := PaneLayouts.replace_eq pane hnodup
  have hfirst := ProjectLayout.removeFirst_eq pane hnodup
  unfold removal at hreplace hfirst
  refine ⟨fun hmem => ?_, fun hmem => ?_, Node.leaves_removeLeaf pane root, Node.splits_removeLeaf pane root,
    fun rest _ => rest.splits_sides, fun ids => ?_, fun _ _ _ => Node.reorder_eq_ok, PaneLayouts.resize_eq root,
    fun id fraction => root.resize_cases id fraction, fun _ => ProjectLayout.leafIds_eq_ok,
    fun _ => ProjectLayout.leafIds_removeLeaf pane⟩
  · rw [hreplace, hfirst, decide_eq_true hmem]
    exact ⟨rfl, rfl⟩
  · rw [hreplace, hfirst, decide_eq_false hmem, Node.removeLeaf_of_notMem hmem]
    exact ⟨rfl, rfl, rfl⟩
  · have hvisit := PaneLayouts.visit_eq root ids
    unfold PaneLayouts.reorder
    simp only [bind, Except.bind]
    cases hv : PaneLayouts.visit root ids <;> cases hr : root.reorder ids <;> rw [hv, hr] at hvisit
    · rfl
    · cases hvisit
    · cases hvisit
    · cases hvisit
      rfl

/-- A pane beside two others. -/
def threePanes : Node :=
  .split ⟨[115], by decide⟩ .horizontal half (.pane ⟨[97], by decide⟩)
    (.split ⟨[116], by decide⟩ .vertical half (.pane ⟨[98], by decide⟩) (.pane ⟨[99], by decide⟩))

theorem center_trees_agree_three : TreesAgree threePanes ⟨[98], by decide⟩ :=
  center_trees_agree threePanes ⟨[98], by decide⟩ (by decide)

end Cantrip.Workspace
