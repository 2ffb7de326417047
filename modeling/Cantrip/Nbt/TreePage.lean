import Cantrip.Lib.Forest
import Cantrip.Nbt.DocTree
import Mathlib.Algebra.BigOperators.Group.List.Basic
import Mathlib.Algebra.Order.BigOperators.Group.List

/-!
# Pages of the tree view (`packages/nbt/src/view/tree.ts`)

`nbtTreePage` never lists the children of a node. It sums the rows below the expanded containers bottom-up, and finds
the row at a rank by skipping over the expanded children of one container after the other. Waiting and the abort
signal are left out; what a read model says is a function of the identity that is asked for.
-/

namespace Cantrip.Nbt

open List Option Bool

namespace TreeView

open Lib

/-! ## The code -/

/-- What the tree view asks of a document. The node under an identity has that identity. -/
structure NbtReadModel (Row : Type) where
  root : Option String
  getNode : String → Option ViewNode
  getChildren (parent : String) (offset limit : Nat) : List ViewNode
  describe : ViewNode → Row
  getNode_id : ∀ {id : String} {node : ViewNode}, getNode id = some node → node.id = id

structure NbtPathEntry where
  id : String
  parent : Option String
  ordinal : Nat
  type : NbtTag
  deriving DecidableEq, Repr

structure NbtTreeRow (Row : Type) where
  row : Row
  depth : Nat
  index : Nat
  expanded : Bool
  deriving DecidableEq, Repr

structure NbtTreePage (Row : Type) where
  rows : List (NbtTreeRow Row)
  total : Nat
  anchorIndex : Option Nat
  deriving DecidableEq, Repr

def nbtContainer (node : ViewNode) : Bool := node.type == .list || node.type == .compound

def ViewNode.entry (node : ViewNode) : NbtPathEntry :=
  { id := node.id, parent := node.parent, ordinal := node.ordinal, type := node.type }

variable {Row : Type}

/-- The loop of `nbtAncestors`. The path grows by one entry each time, so the check that it is no longer than 4096
is a budget that runs out. -/
def ancestors (model : NbtReadModel Row) : Nat → Option String → List NbtPathEntry → Except NbtError (List NbtPathEntry)
  | _, none, path => .ok path
  | 0, some _, _ => .error ⟨0, "NBT ancestor budget exceeded"⟩
  | budget + 1, some current, path =>
    match model.getNode current with
    | none => .error ⟨0, "Indexed node is unavailable"⟩
    | some node => ancestors model budget node.parent (node.entry :: path)

def nbtAncestors (model : NbtReadModel Row) (id : String) : Except NbtError (List NbtPathEntry) :=
  ancestors model (4096 + 1) (some id) []

/-- The expanded containers are a map in the order they were first named in. -/
def lookup (expanded : List ViewNode) (id : String) : Option ViewNode := expanded.find? (·.id == id)

def collect (model : NbtReadModel Row) (expandedIds : List String) : List ViewNode :=
  expandedIds.foldl (fun expanded id =>
    if (lookup expanded id).isSome then expanded
    else match model.getNode id with
      | some node => if nbtContainer node then expanded ++ [node] else expanded
      | none => expanded) []

def parentOf (expanded : List ViewNode) (id : String) : Option String := do
  let item ← lookup expanded id
  let parent ← item.parent
  (lookup expanded parent).map (·.id)

def childItems (expanded : List ViewNode) (id : String) : List ViewNode :=
  expanded.filter fun item => parentOf expanded item.id == some id

def sortedChildren (expanded : List ViewNode) (id : String) : List ViewNode :=
  (childItems expanded id).mergeSort fun a b => a.ordinal ≤ b.ordinal

/-- The rows below each expanded container, resolved bottom-up; a container is added to its parent at most once. -/
def resolve (expanded : List ViewNode) : Except NbtError (String → Nat) :=
  let sums := drain (parentOf expanded) expanded.length
    { value := fun id => ((lookup expanded id).map (·.childCount)).getD 0
      left := fun id => (childItems expanded id).length
      queue := ((expanded.filter fun item => (childItems expanded item.id).isEmpty).map (·.id)).reverse
      processed := 0 }
  if sums.processed ≠ expanded.length then .error ⟨0, "Expanded ancestry contains a cycle"⟩ else .ok sums.value

/-- What the scan over the expanded children of a container says about a rank below it. -/
inductive Pick
  | descend (child : ViewNode) (rank : Nat)
  | select (ordinal : Nat)
  deriving DecidableEq, Repr

def pick (extra : String → Nat) : List ViewNode → Nat → Pick
  | [], childRank => .select childRank
  | child :: rest, childRank =>
    if childRank < child.ordinal then .select childRank
    else if childRank ≤ child.ordinal + extra child.id then .descend child (childRank - child.ordinal)
    else pick extra rest (childRank - extra child.id)

theorem pick_rank {extra : String → Nat} {children : List ViewNode} {childRank rank : Nat} {child : ViewNode}
    (h : pick extra children childRank = .descend child rank) : rank ≤ childRank := by
  induction children generalizing childRank with
  | nil => cases h
  | cons first rest ih =>
    rw [pick] at h
    split at h
    · cases h
    · split at h
      · cases h
        exact Nat.sub_le _ _
      · exact (ih h).trans (Nat.sub_le _ _)

def locate (model : NbtReadModel Row) (expanded : List ViewNode) (extra : String → Nat) (node : ViewNode)
    (rank depth : Nat) : Except NbtError (ViewNode × Nat) :=
  if rank = 0 then .ok (node, depth)
  else match lookup expanded node.id with
    | none => .error ⟨node.start, "Tree rank is unavailable"⟩
    | some _ =>
      match h : pick extra (sortedChildren expanded node.id) (rank - 1) with
      | .descend child rest => locate model expanded extra child rest (depth + 1)
      | .select ordinal =>
        match (model.getChildren node.id ordinal 1)[0]? with
        | none => .error ⟨node.start, "Tree child is unavailable"⟩
        | some child => .ok (child, depth + 1)
termination_by rank
decreasing_by
  have := pick_rank h
  omega

def rankAlong (expanded : List ViewNode) (extra : String → Nat) (parent : NbtPathEntry) (rank : Nat) :
    List NbtPathEntry → Option Nat
  | [] => some rank
  | child :: path =>
    match lookup expanded parent.id with
    | none => none
    | some item =>
      let before := (sortedChildren expanded item.id).filter fun other => other.ordinal < child.ordinal
      rankAlong expanded extra child (rank + (1 + child.ordinal + (before.map fun other => extra other.id).sum)) path

def anchorRank (expanded : List ViewNode) (extra : String → Nat) (root : ViewNode) : List NbtPathEntry → Option Nat
  | [] => none
  | first :: path => if first.id = root.id then rankAlong expanded extra first 0 path else none

def findAnchor (model : NbtReadModel Row) (expanded : List ViewNode) (extra : String → Nat) (root : ViewNode) :
    Option String → Except NbtError (Option Nat)
  | none => .ok none
  | some anchor =>
    if anchor = "" then .ok none
    else (nbtAncestors model anchor).map (anchorRank expanded extra root)

def pageRow (model : NbtReadModel Row) (expanded : List ViewNode) (extra : String → Nat) (root : ViewNode)
    (index : Nat) : Except NbtError (NbtTreeRow Row) := do
  let found ← locate model expanded extra root index 0
  return { row := model.describe found.1, depth := found.2, index := index
           expanded := (lookup expanded found.1.id).isSome }

def nbtTreePage (model : NbtReadModel Row) (expandedIds : List String) (first limit : Nat) (anchor : Option String) :
    Except NbtError (NbtTreePage Row) := do
  assertRange first limit
  if limit > 128 then throw ⟨0, "Tree pages are limited to 128 rows"⟩
  match model.root with
  | none => return { rows := [], total := 0, anchorIndex := none }
  | some rootId =>
    if rootId = "" then return { rows := [], total := 0, anchorIndex := none }
    match model.getNode rootId with
    | none => return { rows := [], total := 0, anchorIndex := none }
    | some root =>
      let expanded := collect model expandedIds
      let extra ← resolve expanded
      let total := 1 + ((lookup expanded root.id).map fun item => extra item.id).getD 0
      let anchorIndex ← findAnchor model expanded extra root anchor
      let rows ← (List.range' first (min total (first + limit) - first)).mapM (pageRow model expanded extra root)
      return { rows := rows, total := total, anchorIndex := anchorIndex }

/-! ## Documents -/

structure Document where
  tree : DocTree
  nodup : ((Place.places ⟨none, 0, 0, tree⟩).map Place.id).Nodup
  named : ∀ p ∈ Place.places ⟨none, 0, 0, tree⟩, p.id ≠ ""

namespace Document

def top (doc : Document) : Place := ⟨none, 0, 0, doc.tree⟩

def places (doc : Document) : List Place := doc.top.places

def place (doc : Document) (id : String) : Option Place := doc.places.find? fun p => p.id == id

variable {p : Place}

theorem mem_of_place {doc : Document} {id : String} (h : doc.place id = some p) : p ∈ doc.places ∧ p.id = id :=
  ⟨mem_of_find?_eq_some h, by simpa using find?_some h⟩

theorem eq_of_id {doc : Document} {q : Place} (hp : p ∈ doc.places) (hq : q ∈ doc.places) (h : p.id = q.id) : p = q :=
  inj_on_of_nodup_map doc.nodup hp hq h

theorem place_of_mem {doc : Document} (hp : p ∈ doc.places) : doc.place p.id = some p := by
  have hsome : (doc.place p.id).isSome := find?_isSome.mpr ⟨p, hp, beq_self_eq_true _⟩
  obtain ⟨q, hq⟩ := isSome_iff_exists.mp hsome
  obtain ⟨hmem, hid⟩ := mem_of_place hq
  rw [hq, eq_of_id hmem hp hid]

def model (doc : Document) (describe : ViewNode → Row) : NbtReadModel Row where
  root := some doc.tree.id
  getNode id := (doc.place id).map Place.node
  getChildren parent offset limit :=
    match doc.place parent with
    | none => []
    | some p => ((p.children.drop offset).take limit).map Place.node
  describe := describe
  getNode_id h := by
    obtain ⟨p, hp, rfl⟩ := map_eq_some_iff.mp h
    exact (mem_of_place hp).2

/-- The nodes whose children are shown: expanded containers. -/
def isOpen (expandedIds : List String) (tree : DocTree) : Bool :=
  (tree.type == .list || tree.type == .compound) && expandedIds.contains tree.id

/-- The visible rows in preorder: the children of a node are listed when the node is an expanded container. -/
def visible (doc : Document) (expandedIds : List String) : List Place := doc.top.listing (isOpen expandedIds)

theorem top_mem (doc : Document) : doc.top ∈ doc.places := Place.self_mem_places _

theorem child_mem {doc : Document} {c : Place} (hp : p ∈ doc.places) (hc : c ∈ p.children) : c ∈ doc.places :=
  Place.child_mem_places hp hc

theorem exists_parent {doc : Document} {c : Place} (hc : c ∈ doc.places) :
    c = doc.top ∨ ∃ p ∈ doc.places, c ∈ p.children := by
  suffices h : ∀ {p : Place} {way : List Place}, p ∈ doc.places → Place.Path p way c →
      c = p ∨ ∃ q ∈ doc.places, c ∈ q.children by
    obtain ⟨way, hway⟩ := Place.path_of_mem hc
    exact h doc.top_mem hway
  intro p way hp hway
  induction hway with
  | here p => exact .inl rfl
  | step hchild hway ih =>
    rcases ih hc (child_mem hp hchild) with rfl | h
    · exact .inr ⟨_, hp, hchild⟩
    · exact .inr h

theorem nodup_below {doc : Document} (hp : p ∈ doc.places) : (p.places.map Place.id).Nodup :=
  ((Place.places_sublist hp).map Place.id).nodup doc.nodup

theorem nodup_children {doc : Document} (hp : p ∈ doc.places) : (p.children.map Place.id).Nodup :=
  ((Place.children_sublist p).map Place.id).nodup (nodup_below hp)

end Document

section Page

variable {doc : Document} {describe : ViewNode → Row} {expandedIds : List String}

open Document

structure Collected (doc : Document) (expandedIds : List String) (expanded : List ViewNode) : Prop where
  nodup : (expanded.map (·.id)).Nodup
  mem : ∀ item, item ∈ expanded ↔ ∃ p ∈ doc.places, isOpen expandedIds p.tree ∧ item = p.node

namespace Collected

variable {expanded : List ViewNode}

section

variable (h : Collected doc expandedIds expanded)
include h

theorem lookup_eq {p : Place} (hp : p ∈ doc.places) :
    lookup expanded p.id = if isOpen expandedIds p.tree then some p.node else none := by
  split
  · next hopen =>
    have hmem : p.node ∈ expanded := (h.mem _).mpr ⟨p, hp, hopen, rfl⟩
    have hsome : (lookup expanded p.id).isSome := find?_isSome.mpr ⟨p.node, hmem, beq_self_eq_true _⟩
    obtain ⟨item, hitem⟩ := isSome_iff_exists.mp hsome
    have hid : item.id = p.id := by simpa using find?_some hitem
    rw [hitem, inj_on_of_nodup_map h.nodup (mem_of_find?_eq_some hitem) hmem hid]
  · next hclosed =>
    refine find?_eq_none.mpr fun item hitem => ?_
    obtain ⟨q, hq, hopen, rfl⟩ := (h.mem item).mp hitem
    intro hid
    rw [eq_of_id hq hp (beq_iff_eq.mp hid)] at hopen
    exact hclosed hopen

theorem lookup_none {id : String} (hplace : doc.place id = none) :
    lookup expanded id = none := by
  refine find?_eq_none.mpr fun item hitem => ?_
  obtain ⟨p, hp, -, rfl⟩ := (h.mem item).mp hitem
  have hid := find?_eq_none.mp hplace p hp
  exact hid

theorem congr {ids : List String}
    (hsame : ∀ p ∈ doc.places, isOpen ids p.tree = true ↔ isOpen expandedIds p.tree = true) : Collected doc ids expanded := by
  refine ⟨h.nodup, fun item => (h.mem item).trans ?_⟩
  refine exists_congr fun p => and_congr_right fun hp => and_congr_left fun _ => ?_
  rw [hsame p hp]

theorem push {q : Place} (hq : q ∈ doc.places) {ids : List String}
    (hnew : lookup expanded q.id = none) (hopen : isOpen ids q.tree = true)
    (hsame : ∀ p ∈ doc.places, p ≠ q → (isOpen ids p.tree = true ↔ isOpen expandedIds p.tree = true)) :
    Collected doc ids (expanded ++ [q.node]) := by
  have hfresh : ∀ item ∈ expanded, item.id ≠ q.id := fun item hitem hid =>
    find?_eq_none.mp hnew item hitem (beq_iff_eq.mpr hid)
  constructor
  · rw [map_append, nodup_append]
    refine ⟨h.nodup, nodup_singleton _, fun id hid id' hid' => ?_⟩
    obtain ⟨item, hitem, rfl⟩ := List.mem_map.mp hid
    rw [map_singleton, mem_singleton] at hid'
    rw [hid']
    exact hfresh item hitem
  · intro item
    rw [mem_append, mem_singleton]
    constructor
    · rintro (hitem | rfl)
      · obtain ⟨p, hp, hpopen, rfl⟩ := (h.mem item).mp hitem
        refine ⟨p, hp, (hsame p hp ?_).mpr hpopen, rfl⟩
        rintro rfl
        exact hfresh _ hitem rfl
      · exact ⟨q, hq, hopen, rfl⟩
    · rintro ⟨p, hp, hpopen, rfl⟩
      by_cases hpq : p = q
      · exact .inr (by rw [hpq])
      · exact .inl ((h.mem _).mpr ⟨p, hp, (hsame p hp hpq).mp hpopen, rfl⟩)

end

end Collected

theorem collect_append (model : NbtReadModel Row) (ids : List String) (id : String) :
    collect model (ids ++ [id]) =
      if (lookup (collect model ids) id).isSome then collect model ids
      else match model.getNode id with
        | some node => if nbtContainer node then collect model ids ++ [node] else collect model ids
        | none => collect model ids := by
  rw [collect, foldl_append]
  rfl

theorem isOpen_append (ids : List String) (id : String) (p : Place) :
    isOpen (ids ++ [id]) p.tree = true ↔ isOpen ids p.tree = true ∨ (nbtContainer p.node = true ∧ p.id = id) := by
  rw [isOpen, isOpen, and_eq_true, and_eq_true, contains_iff_mem, contains_iff_mem, mem_append,
    mem_singleton, and_or_left]
  rfl

theorem collected (doc : Document) (describe : ViewNode → Row) (expandedIds : List String) :
    Collected doc expandedIds (collect (doc.model describe) expandedIds) := by
  induction expandedIds using reverseRecOn with
  | nil =>
    refine ⟨nodup_nil, fun item => ⟨fun h => absurd h not_mem_nil, ?_⟩⟩
    rintro ⟨p, -, hopen, -⟩
    rw [isOpen, contains_nil, Bool.and_false] at hopen
    cases hopen
  | append_singleton ids id ih =>
    rw [collect_append]
    have hother : ∀ p : Place, p.id ≠ id → (isOpen (ids ++ [id]) p.tree = true ↔ isOpen ids p.tree = true) := by
      intro p hp
      rw [isOpen_append, or_iff_left fun h => hp h.2]
    match hplace : doc.place id with
    | none =>
      have hnone : (doc.model describe).getNode id = none := congrArg (Option.map Place.node) hplace
      rw [ih.lookup_none hplace, hnone]
      exact ih.congr fun p hp => hother p fun hid => find?_eq_none.mp hplace p hp (beq_iff_eq.mpr hid)
    | some q =>
      obtain ⟨hq, rfl⟩ := mem_of_place hplace
      have hsome : (doc.model describe).getNode q.id = some q.node := congrArg (Option.map Place.node) hplace
      have hrest : ∀ p ∈ doc.places, p ≠ q → (isOpen (ids ++ [q.id]) p.tree = true ↔ isOpen ids p.tree = true) :=
        fun p hp hne => hother p fun hid => hne (eq_of_id hp hq hid)
      -- the named place is open already, is a new container, or is no container
      by_cases hopen : isOpen ids q.tree = true
      · rw [ih.lookup_eq hq, if_pos hopen, isSome_some, if_pos rfl]
        refine ih.congr fun p hp => ?_
        by_cases hpq : p = q
        · rw [hpq, isOpen_append]
          exact or_iff_left_of_imp fun _ => hopen
        · exact hrest p hp hpq
      · have hnew := ih.lookup_eq hq
        rw [if_neg hopen] at hnew
        rw [hnew, hsome, isSome_none, if_neg Bool.false_ne_true]
        dsimp only
        split
        · next hcontainer => exact ih.push hq hnew ((isOpen_append ids q.id q).mpr (.inr ⟨hcontainer, rfl⟩)) hrest
        · next hleaf =>
          refine ih.congr fun p hp => ?_
          by_cases hpq : p = q
          · rw [hpq, isOpen_append]
            exact or_iff_left fun h => hleaf h.1
          · exact hrest p hp hpq

/-! ## Expanded children -/

def openChildren (expandedIds : List String) (p : Place) : List Place := p.children.filter fun c => isOpen expandedIds c.tree

namespace Collected

variable {expanded : List ViewNode}

variable {c p : Place}

section

variable (h : Collected doc expandedIds expanded)
include h

theorem parentOf_eq (hp : p ∈ doc.places) (hc : c ∈ p.children)
    (hopen : isOpen expandedIds c.tree = true) :
    parentOf expanded c.id = if isOpen expandedIds p.tree then some p.id else none := by
  rw [parentOf, h.lookup_eq (child_mem hp hc), if_pos hopen]
  change (c.parent.bind fun parent => (lookup expanded parent).map (·.id)) = _
  rw [(Place.child_of_mem hc).1, bind_some, h.lookup_eq hp]
  split <;> rfl

theorem parentOf_top : parentOf expanded doc.top.id = none := by
  rw [parentOf, h.lookup_eq doc.top_mem]
  split <;> rfl

theorem parentOf_some {id : String} (hc : c ∈ doc.places)
    (hopen : isOpen expandedIds c.tree = true) (hparent : parentOf expanded c.id = some id) :
    ∃ p ∈ doc.places, isOpen expandedIds p.tree = true ∧ p.id = id ∧ c ∈ p.children := by
  rcases exists_parent hc with rfl | ⟨p, hp, hchild⟩
  · rw [h.parentOf_top] at hparent
    cases hparent
  · rw [h.parentOf_eq hp hchild hopen] at hparent
    split at hparent
    · next hpopen => exact ⟨p, hp, hpopen, some.inj hparent, hchild⟩
    · cases hparent

theorem parentOf_iff (hp : p ∈ doc.places) (hc : c ∈ doc.places)
    (hpopen : isOpen expandedIds p.tree = true) (hopen : isOpen expandedIds c.tree = true) :
    parentOf expanded c.id = some p.id ↔ c ∈ p.children := by
  constructor
  · intro hparent
    obtain ⟨q, hq, -, hid, hchild⟩ := h.parentOf_some hc hopen hparent
    rw [← eq_of_id hq hp hid]
    exact hchild
  · intro hchild
    rw [h.parentOf_eq hp hchild hopen, if_pos hpopen]

theorem nodup_items : expanded.Nodup := List.Nodup.of_map (·.id) h.nodup

theorem childItems_perm (hp : p ∈ doc.places)
    (hopen : isOpen expandedIds p.tree = true) :
    (childItems expanded p.id).Perm ((openChildren expandedIds p).map Place.node) := by
  have hids : ((openChildren expandedIds p).map Place.id).Nodup :=
    (filter_sublist.map Place.id).nodup (nodup_children hp)
  have hnodup : ((openChildren expandedIds p).map Place.node).Nodup := by
    refine List.Nodup.of_map (·.id) ?_
    rw [List.map_map]
    exact hids
  refine (perm_ext_iff_of_nodup (h.nodup_items.filter _) hnodup).mpr fun item => ?_
  rw [mem_filter, h.mem, List.mem_map]
  constructor
  · rintro ⟨⟨c, hc, hcopen, rfl⟩, hparent⟩
    exact ⟨c, mem_filter.mpr ⟨(h.parentOf_iff hp hc hopen hcopen).mp (beq_iff_eq.mp hparent), hcopen⟩, rfl⟩
  · rintro ⟨c, hc, rfl⟩
    obtain ⟨hchild, hcopen⟩ := mem_filter.mp hc
    exact ⟨⟨c, child_mem hp hchild, hcopen, rfl⟩,
      beq_iff_eq.mpr ((h.parentOf_iff hp (child_mem hp hchild) hopen hcopen).mpr hchild)⟩

end

end Collected

theorem ordinals_pairwise (parent : String) (depth ordinal : Nat) (ts : List DocTree) :
    (Place.childrenFrom parent depth ordinal ts).Pairwise fun a b => a.ordinal < b.ordinal := by
  induction ts generalizing ordinal with
  | nil => exact List.Pairwise.nil
  | cons t ts ih =>
    refine pairwise_cons.mpr ⟨fun c hc => ?_, ih (ordinal + 1)⟩
    obtain ⟨i, hi⟩ := getElem?_of_mem hc
    rw [Place.getElem?_childrenFrom] at hi
    obtain ⟨t', -, rfl⟩ := map_eq_some_iff.mp hi
    show ordinal < ordinal + 1 + i
    omega

variable {p : Place}

theorem Collected.sortedChildren_eq {expanded : List ViewNode} (h : Collected doc expandedIds expanded)
    (hp : p ∈ doc.places) (hopen : isOpen expandedIds p.tree = true) :
    sortedChildren expanded p.id = (openChildren expandedIds p).map Place.node := by
  have hperm : (sortedChildren expanded p.id).Perm ((openChildren expandedIds p).map Place.node) :=
    (mergeSort_perm _ _).trans (h.childItems_perm hp hopen)
  have hstrict : ((openChildren expandedIds p).map Place.node).Pairwise fun a b => a.ordinal < b.ordinal :=
    pairwise_map.mpr ((ordinals_pairwise _ _ _ _).filter _)
  have hsorted : (sortedChildren expanded p.id).Pairwise fun a b => a.ordinal ≤ b.ordinal := by
    refine (pairwise_mergeSort ?_ ?_ _).imp of_decide_eq_true
    · intro a b c hab hbc
      exact decide_eq_true ((of_decide_eq_true hab).trans (of_decide_eq_true hbc))
    · intro a b
      rcases Nat.le_total a.ordinal b.ordinal with hle | hle
      · rw [decide_eq_true hle, Bool.true_or]
      · rw [decide_eq_true hle, Bool.or_true]
  refine hperm.eq_of_pairwise (fun a b ha hb hab hba => ?_) hsorted (hstrict.imp Nat.le_of_lt)
  obtain ⟨c, hc, rfl⟩ := List.mem_map.mp (hperm.subset ha)
  obtain ⟨c', hc', rfl⟩ := List.mem_map.mp hb
  obtain ⟨-, hat, -⟩ := Place.child_of_mem (mem_of_mem_filter hc)
  obtain ⟨-, hat', -⟩ := Place.child_of_mem (mem_of_mem_filter hc')
  have hordinal : c.ordinal = c'.ordinal := Nat.le_antisymm hab hba
  rw [hordinal, hat'] at hat
  rw [some.inj hat]

/-! ## Rows below the expanded containers -/

def below (doc : Document) (expandedIds : List String) (id : String) : Nat :=
  ((doc.place id).map fun p => (p.listing (isOpen expandedIds)).length - 1).getD 0

theorem length_listing (hp : p ∈ doc.places) : (p.listing (isOpen expandedIds)).length = 1 + below doc expandedIds p.id := by
  have hpos : 0 < (p.listing (isOpen expandedIds)).length := p.length_listing_pos
  rw [below, place_of_mem hp, map_some, getD_some]
  omega

theorem length_children_listing (cs : List Place) (hcs : ∀ c ∈ cs, c ∈ doc.places) :
    (cs.flatMap (Place.listing (isOpen expandedIds))).length =
      cs.length + ((cs.filter fun c => isOpen expandedIds c.tree).map fun c => below doc expandedIds c.id).sum := by
  induction cs with
  | nil => rfl
  | cons c cs ih =>
    have hrest := ih fun c hc => hcs c (mem_cons_of_mem _ hc)
    rw [flatMap_cons, length_append, hrest, length_cons]
    by_cases hopen : isOpen expandedIds c.tree = true
    · rw [filter_cons, if_pos hopen, map_cons, sum_cons, length_listing (hcs c mem_cons_self)]
      omega
    · rw [filter_cons, if_neg hopen, Place.listing_closed (eq_false_iff.mpr hopen), length_singleton]
      omega

theorem below_open (hp : p ∈ doc.places) (hopen : isOpen expandedIds p.tree = true) : below doc expandedIds p.id =
      p.node.childCount + ((openChildren expandedIds p).map fun c => below doc expandedIds c.id).sum := by
  have hlength : (p.listing (isOpen expandedIds)).length = _ := length_listing hp
  rw [Place.listing_open hopen, length_cons, length_children_listing _ fun c hc => child_mem hp hc,
    Place.length_children] at hlength
  rw [openChildren]
  omega

namespace Collected

variable {expanded : List ViewNode}

/-- The identities of the expanded containers. -/
def ids (expanded : List ViewNode) : Finset String := (expanded.map (·.id)).toFinset

theorem mem_ids (h : Collected doc expandedIds expanded) {id : String} :
    id ∈ ids expanded ↔ ∃ p ∈ doc.places, isOpen expandedIds p.tree = true ∧ p.id = id := by
  rw [ids, List.mem_toFinset, List.mem_map]
  constructor
  · rintro ⟨item, hitem, rfl⟩
    obtain ⟨p, hp, hopen, rfl⟩ := (h.mem item).mp hitem
    exact ⟨p, hp, hopen, rfl⟩
  · rintro ⟨p, hp, hopen, rfl⟩
    exact ⟨p.node, (h.mem _).mpr ⟨p, hp, hopen, rfl⟩, rfl⟩

theorem card_ids (h : Collected doc expandedIds expanded) : (ids expanded).card = expanded.length := by
  rw [ids, toFinset_card_of_nodup h.nodup, length_map]

theorem childrenIn_eq (h : Collected doc expandedIds expanded) {p : Place} (hp : p ∈ doc.places)
    (hopen : isOpen expandedIds p.tree = true) :
    childrenIn (parentOf expanded) (ids expanded) p.id = ((openChildren expandedIds p).map Place.id).toFinset := by
  ext id
  rw [mem_childrenIn, h.mem_ids, List.mem_toFinset, List.mem_map]
  constructor
  · rintro ⟨⟨c, hc, hcopen, rfl⟩, hparent⟩
    exact ⟨c, mem_filter.mpr ⟨(h.parentOf_iff hp hc hopen hcopen).mp hparent, hcopen⟩, rfl⟩
  · rintro ⟨c, hc, rfl⟩
    obtain ⟨hchild, hcopen⟩ := mem_filter.mp hc
    exact ⟨⟨c, child_mem hp hchild, hcopen, rfl⟩, (h.parentOf_iff hp (child_mem hp hchild) hopen hcopen).mpr hchild⟩

theorem nodup_openChildren {p : Place} (hp : p ∈ doc.places) : ((openChildren expandedIds p).map Place.id).Nodup :=
  (filter_sublist.map Place.id).nodup (nodup_children hp)

theorem isForest (h : Collected doc expandedIds expanded) :
    IsForest (ids expanded) (parentOf expanded) (fun id => ((lookup expanded id).map (·.childCount)).getD 0)
      (below doc expandedIds) := by
  refine ⟨fun id hid parent hparent => ?_, ⟨fun id => ((doc.place id).map fun p => sizeOf p.tree).getD 0, ?_⟩, ?_⟩
  · obtain ⟨c, hc, hopen, rfl⟩ := h.mem_ids.mp hid
    obtain ⟨p, hp, hpopen, hpid, -⟩ := h.parentOf_some hc hopen hparent
    exact h.mem_ids.mpr ⟨p, hp, hpopen, hpid⟩
  · intro id hid parent hparent
    obtain ⟨c, hc, hopen, rfl⟩ := h.mem_ids.mp hid
    obtain ⟨p, hp, -, rfl, hchild⟩ := h.parentOf_some hc hopen hparent
    beta_reduce
    rw [place_of_mem hc, place_of_mem hp]
    exact Place.sizeOf_child hchild
  · intro id hid
    obtain ⟨p, hp, hopen, rfl⟩ := h.mem_ids.mp hid
    rw [h.childrenIn_eq hp hopen, sum_toFinset _ (nodup_openChildren hp), List.map_map, h.lookup_eq hp, if_pos hopen]
    exact below_open hp hopen

theorem drained (h : Collected doc expandedIds expanded) :
    Drained (ids expanded) (parentOf expanded) (fun id => ((lookup expanded id).map (·.childCount)).getD 0)
      (below doc expandedIds)
      { value := fun id => ((lookup expanded id).map (·.childCount)).getD 0
        left := fun id => (childItems expanded id).length
        queue := ((expanded.filter fun item => (childItems expanded item.id).isEmpty).map (·.id)).reverse
        processed := 0 } ∅ := by
  have hcount : ∀ id ∈ ids expanded,
      (childItems expanded id).length = (childrenIn (parentOf expanded) (ids expanded) id).card := by
    intro id hid
    obtain ⟨p, hp, hopen, rfl⟩ := h.mem_ids.mp hid
    rw [h.childrenIn_eq hp hopen, toFinset_card_of_nodup (nodup_openChildren hp), length_map,
      (h.childItems_perm hp hopen).length_eq, length_map]
  have hready : ∀ id ∈ ids expanded,
      (childItems expanded id).isEmpty = true ↔ childrenIn (parentOf expanded) (ids expanded) id ⊆ ∅ := by
    intro id hid
    rw [isEmpty_iff_length_eq_zero, hcount id hid, Finset.card_eq_zero, Finset.subset_empty]
  have hmem : ∀ id, id ∈ ids expanded ↔ ∃ item ∈ expanded, item.id = id := by
    intro id
    rw [ids, List.mem_toFinset, List.mem_map]
  constructor
  case sub => exact Finset.empty_subset _
  case nodup => exact nodup_reverse.mpr ((filter_sublist.map _).nodup h.nodup)
  case ready =>
    intro id
    rw [mem_reverse, List.mem_map]
    constructor
    · rintro ⟨item, hitem, rfl⟩
      obtain ⟨hin, hempty⟩ := mem_filter.mp hitem
      have hid := (hmem item.id).mpr ⟨item, hin, rfl⟩
      exact ⟨hid, Finset.notMem_empty _, (hready _ hid).mp hempty⟩
    · rintro ⟨hid, -, hnone⟩
      obtain ⟨item, hin, rfl⟩ := (hmem id).mp hid
      exact ⟨item, mem_filter.mpr ⟨hin, (hready _ hid).mpr hnone⟩, rfl⟩
  case closed => exact fun id hid => absurd hid (Finset.notMem_empty id)
  case value =>
    intro id _
    rw [childrenIn, Finset.filter_empty, Finset.sum_empty, Nat.add_zero]
  case left =>
    intro id hid
    rw [Finset.sdiff_empty]
    exact hcount id hid
  case processed => rfl

theorem resolve_eq (h : Collected doc expandedIds expanded) :
    ∃ extra, resolve expanded = .ok extra ∧
      ∀ p ∈ doc.places, isOpen expandedIds p.tree = true → extra p.id = below doc expandedIds p.id := by
  obtain ⟨-, hprocessed, hvalue⟩ := drain_total h.isForest expanded.length h.drained (by
    rw [h.card_ids]
    exact Nat.sub_le _ _)
  rw [h.card_ids] at hprocessed
  refine ⟨_, if_neg (not_not_intro hprocessed), fun p hp hopen => ?_⟩
  exact hvalue p.id (h.mem_ids.mpr ⟨p, hp, hopen, rfl⟩)

end Collected

/-! ## Rows by rank -/

def Counts (doc : Document) (expandedIds : List String) (extra : String → Nat) : Prop :=
  ∀ p ∈ doc.places, isOpen expandedIds p.tree = true → extra p.id = below doc expandedIds p.id

theorem pick_select {extra : String → Nat} {children : List ViewNode} {childRank : Nat}
    (h : ∀ child ∈ children, childRank < child.ordinal) : pick extra children childRank = .select childRank := by
  match children with
  | [] => rfl
  | child :: rest => exact if_pos (h child mem_cons_self)

variable {way : List Place} {c p q : Place}

theorem ordinal_le {parent : String} {depth ordinal : Nat} {ts : List DocTree}
    (h : c ∈ Place.childrenFrom parent depth ordinal ts) : ordinal ≤ c.ordinal := by
  obtain ⟨i, hi⟩ := getElem?_of_mem h
  rw [Place.getElem?_childrenFrom] at hi
  obtain ⟨t, -, rfl⟩ := map_eq_some_iff.mp hi
  exact Nat.le_add_right _ _

def Leads (expandedIds : List String) (cs : List Place) (ordinal : Nat) (q : Place) : Pick → Prop
  | .descend child rank => ∃ c ∈ cs, child = c.node ∧ (c.listing (isOpen expandedIds))[rank]? = some q
  | .select i => ordinal ≤ i ∧ cs[i - ordinal]? = some q

theorem Leads.cons {cs : List Place} {ordinal : Nat} {q : Place} {found : Pick} (c : Place)
    (h : Leads expandedIds cs (ordinal + 1) q found) : Leads expandedIds (c :: cs) ordinal q found := by
  cases found with
  | descend child rank =>
    obtain ⟨d, hd, hchild, hrow⟩ := h
    exact ⟨d, mem_cons_of_mem _ hd, hchild, hrow⟩
  | select i =>
    obtain ⟨hle, hrow⟩ := h
    refine ⟨Nat.le_of_succ_le hle, ?_⟩
    rw [show i - ordinal = i - (ordinal + 1) + 1 by omega, getElem?_cons_succ]
    exact hrow

theorem pick_children {extra : String → Nat} (hextra : Counts doc expandedIds extra) {parent : String} {depth ordinal : Nat}
    {ts : List DocTree} {offset : Nat} (hmem : ∀ c ∈ Place.childrenFrom parent depth ordinal ts, c ∈ doc.places)
    (hq : ((Place.childrenFrom parent depth ordinal ts).flatMap (Place.listing (isOpen expandedIds)))[offset]? = some q) :
    Leads expandedIds (Place.childrenFrom parent depth ordinal ts) ordinal q
      (pick extra (((Place.childrenFrom parent depth ordinal ts).filter fun c => isOpen expandedIds c.tree).map Place.node)
        (ordinal + offset)) := by
  induction ts generalizing ordinal offset with
  | nil => cases hq
  | cons t ts ih =>
    rw [Place.childrenFrom] at hmem hq ⊢
    generalize hc : (⟨some parent, ordinal, depth, t⟩ : Place) = c at hmem hq ⊢
    have hordinal : c.node.ordinal = ordinal := by rw [← hc]; rfl
    have hin := hmem c mem_cons_self
    have hrest := fun d hd => hmem d (mem_cons_of_mem c hd)
    rw [flatMap_cons] at hq
    rw [filter_cons]
    by_cases hopen : isOpen expandedIds c.tree = true
    · have hlength : (c.listing (isOpen expandedIds)).length = _ := length_listing hin
      rw [← hextra c hin hopen] at hlength
      rw [if_pos hopen, map_cons, pick, hordinal, if_neg (Nat.not_lt.mpr (Nat.le_add_right _ _)), Place.node_id]
      by_cases hbelow : offset ≤ extra c.id
      · -- the row is under this child, or is this child
        rw [if_pos (Nat.add_le_add_left hbelow ordinal), Nat.add_sub_cancel_left]
        rw [getElem?_append_left (by omega)] at hq
        exact ⟨c, mem_cons_self, rfl, hq⟩
      · rw [if_neg (by omega), show ordinal + offset - extra c.id = ordinal + 1 + (offset - (1 + extra c.id)) by omega]
        rw [getElem?_append_right (by omega), hlength] at hq
        exact (ih hrest hq).cons c
    · rw [if_neg hopen]
      rw [Place.listing_closed (eq_false_iff.mpr hopen)] at hq
      cases offset with
      | zero =>
        rw [pick_select fun item hitem => ?_]
        · refine ⟨Nat.le_add_right _ _, ?_⟩
          rw [Nat.add_sub_cancel_left]
          exact hq
        · obtain ⟨d, hd, rfl⟩ := List.mem_map.mp hitem
          exact ordinal_le (mem_of_mem_filter hd)
      | succ offset =>
        rw [show ordinal + (offset + 1) = ordinal + 1 + offset by omega]
        exact (ih hrest hq).cons c

theorem getChildren_one (hp : p ∈ doc.places) {i : Nat} (h : p.children[i]? = some q) :
    ((doc.model describe).getChildren p.id i 1)[0]? = some q.node := by
  have hchildren : (doc.model describe).getChildren p.id i 1 = ((p.children.drop i).take 1).map Place.node := by
    change (match doc.place p.id with | none => [] | some p => ((p.children.drop i).take 1).map Place.node) = _
    rw [place_of_mem hp]
  rw [hchildren, getElem?_map, getElem?_take_of_lt Nat.one_pos, getElem?_drop, Nat.add_zero, h]
  rfl

theorem locate_eq {expanded : List ViewNode} (h : Collected doc expandedIds expanded) {extra : String → Nat}
    (hextra : Counts doc expandedIds extra) {rank : Nat} (hp : p ∈ doc.places)
    (hq : (p.listing (isOpen expandedIds))[rank]? = some q) :
    locate (doc.model describe) expanded extra p.node rank p.depth = .ok (q.node, q.depth) := by
  induction p using Place.induct generalizing rank with
  | step p ih =>
    rw [locate]
    cases rank with
    | zero =>
      rw [if_pos rfl]
      rw [Place.listing_eq, getElem?_cons_zero] at hq
      cases hq
      rfl
    | succ rank =>
      rw [if_neg (Nat.succ_ne_zero rank), Place.node_id, h.lookup_eq hp]
      by_cases hopen : isOpen expandedIds p.tree = true
      · rw [if_pos hopen]
        rw [Place.listing_open hopen, getElem?_cons_succ] at hq
        have hleads : Leads expandedIds p.children 0 q (pick extra ((openChildren expandedIds p).map Place.node) rank) := by
          have hpick := pick_children hextra (fun c hc => child_mem hp hc) hq
          rw [Nat.zero_add] at hpick
          exact hpick
        rw [← h.sortedChildren_eq hp hopen] at hleads
        dsimp only
        rw [Nat.add_sub_cancel]
        split
        · next child rest hpick =>
          rw [hpick] at hleads
          obtain ⟨c, hc, rfl, hrow⟩ := hleads
          obtain ⟨-, -, hdepth, -⟩ := Place.child_of_mem hc
          rw [← hdepth]
          exact ih c hc (child_mem hp hc) hrow
        · next i hpick =>
          rw [hpick] at hleads
          obtain ⟨-, hchild⟩ := hleads
          obtain ⟨-, -, hdepth, -⟩ := Place.child_eq hchild
          rw [Nat.sub_zero] at hchild
          rw [getChildren_one hp hchild, hdepth]
      · rw [Place.listing_closed (eq_false_iff.mpr hopen)] at hq
        cases hq

/-! ## Anchors -/

theorem ancestors_none (model : NbtReadModel Row) (budget : Nat) (path : List NbtPathEntry) :
    ancestors model budget none path = .ok path := by
  cases budget <;> rfl

theorem ancestors_step (hp : p ∈ doc.places) (budget : Nat) (path : List NbtPathEntry) :
    ancestors (doc.model describe) (budget + 1) (some p.id) path =
      ancestors (doc.model describe) budget p.parent (p.node.entry :: path) := by
  have hnode : (doc.model describe).getNode p.id = some p.node := congrArg (Option.map Place.node) (place_of_mem hp)
  rw [ancestors, hnode]
  rfl

theorem ancestors_walk (hway : Place.Path p way q) (hp : p ∈ doc.places) (budget : Nat) (path : List NbtPathEntry) :
    ancestors (doc.model describe) (way.length + budget) (some q.id) path =
      ancestors (doc.model describe) budget (some p.id) (way.map (·.node.entry) ++ path) := by
  induction hway generalizing budget with
  | here p => rw [length_nil, Nat.zero_add, map_nil, nil_append]
  | @step p c q way hc hway ih =>
    have hcin := child_mem hp hc
    rw [length_cons, show way.length + 1 + budget = way.length + (budget + 1) by omega, ih hcin, ancestors_step hcin,
      (Place.child_of_mem hc).1]
    rfl

theorem ancestors_exceeded (hway : Place.Path p way q) (hp : p ∈ doc.places)
    {budget : Nat} (hbudget : budget ≤ way.length) (path : List NbtPathEntry) :
    ancestors (doc.model describe) budget (some q.id) path = .error ⟨0, "NBT ancestor budget exceeded"⟩ := by
  induction hway with
  | here p =>
    rw [Nat.le_zero.mp hbudget]
    rfl
  | @step p c q way hc hway ih =>
    have hcin := child_mem hp hc
    by_cases hle : budget ≤ way.length
    · exact ih hcin hle
    · have hlast : budget = way.length + 1 := by
        rw [length_cons] at hbudget
        omega
      rw [hlast, ancestors_walk hway hcin, ancestors_step hcin, (Place.child_of_mem hc).1]
      rfl

theorem nbtAncestors_eq (hway : Place.Path doc.top way q) : nbtAncestors (doc.model describe) q.id =
      if 4096 < q.depth then .error ⟨0, "NBT ancestor budget exceeded"⟩
      else .ok (doc.top.node.entry :: way.map (·.node.entry)) := by
  have hdepth : q.depth = way.length := by
    rw [hway.depth]
    exact Nat.zero_add _
  rw [nbtAncestors, hdepth]
  split
  · next hdeep => exact ancestors_exceeded hway doc.top_mem hdeep []
  · next hshallow =>
    rw [show 4096 + 1 = way.length + (4096 - way.length + 1) by omega, ancestors_walk hway doc.top_mem,
      ancestors_step doc.top_mem, append_nil]
    exact ancestors_none _ _ _

theorem findIdx?_elsewhere {cs : List Place} (hcs : ∀ d ∈ cs, d ∈ doc.places ∧ d.places.Disjoint c.places)
    (hc : c ∈ doc.places) (hq : q ∈ c.places) :
    (cs.flatMap (Place.listing (isOpen expandedIds))).findIdx? (fun r => r.id == q.id) = none := by
  refine findIdx?_eq_none_iff.mpr fun r hr => beq_eq_false_iff_ne.mpr fun hid => ?_
  obtain ⟨d, hd, hrd⟩ := mem_flatMap.mp hr
  obtain ⟨hin, hdisjoint⟩ := hcs d hd
  have hrd := (Place.listing_sublist d).subset hrd
  have hsame := eq_of_id (Place.places_trans hin hrd) (Place.places_trans hc hq) hid
  exact hdisjoint hrd (hsame ▸ hq)

theorem children_split (hp : p ∈ doc.places) (hc : c ∈ p.children) :
    ∃ before after, p.children = before ++ c :: after ∧ before.length = c.ordinal ∧
      (∀ d ∈ before, d.ordinal < c.ordinal ∧ d.places.Disjoint c.places) ∧
      ∀ d ∈ after, c.ordinal < d.ordinal ∧ d.places.Disjoint c.places := by
  obtain ⟨hlt, hat⟩ := List.getElem?_eq_some_iff.mp (Place.child_of_mem hc).2.1
  have hsplit : p.children = p.children.take c.ordinal ++ c :: p.children.drop (c.ordinal + 1) := by
    have hdrop := drop_eq_getElem_cons hlt
    rw [hat] at hdrop
    rw [← hdrop, take_append_drop]
  have hordered : p.children.Pairwise fun a b => a.ordinal < b.ordinal := ordinals_pairwise _ _ _ _
  have hapart : p.children.Pairwise (Function.onFun List.Disjoint Place.places) := by
    have hnodup := List.Nodup.of_map Place.id (nodup_below hp)
    rw [Place.places_eq, nodup_cons] at hnodup
    exact (nodup_flatMap.mp hnodup.2).2
  rw [hsplit, pairwise_append, pairwise_cons] at hordered hapart
  refine ⟨_, _, hsplit, length_take_of_le hlt.le, fun d hd => ⟨?_, ?_⟩, fun d hd => ⟨?_, ?_⟩⟩
  · exact hordered.2.2 d hd c mem_cons_self
  · exact hapart.2.2 d hd c mem_cons_self
  · exact hordered.2.1.1 d hd
  · exact (hapart.2.1.1 d hd).symm

theorem length_before {expanded : List ViewNode} (h : Collected doc expandedIds expanded) {extra : String → Nat}
    (hextra : Counts doc expandedIds extra) {before after : List Place} (hp : p ∈ doc.places)
    (hopen : isOpen expandedIds p.tree = true) (hchildren : p.children = before ++ c :: after)
    (hlength : before.length = c.ordinal) (hbefore : ∀ d ∈ before, d.ordinal < c.ordinal)
    (hafter : ∀ d ∈ after, c.ordinal < d.ordinal) :
    (before.flatMap (Place.listing (isOpen expandedIds))).length =
      c.ordinal + (((sortedChildren expanded p.id).filter fun other => other.ordinal < c.ordinal).map
        fun other => extra other.id).sum := by
  have hin : ∀ d ∈ before, d ∈ doc.places := fun d hd => child_mem hp (by
    rw [hchildren]
    exact mem_append_left _ hd)
  have hskipped : (p.children.filter fun d => d.ordinal < c.ordinal) = before := by
    rw [hchildren, filter_append, filter_eq_self.mpr fun d hd => decide_eq_true (hbefore d hd),
      filter_eq_nil_iff.mpr fun d hd => ?_, append_nil]
    rw [decide_eq_true_eq, Nat.not_lt]
    rcases mem_cons.mp hd with rfl | hd
    · exact Nat.le_refl _
    · exact (hafter d hd).le
  have hitems : ((sortedChildren expanded p.id).filter fun other => other.ordinal < c.ordinal) =
      (before.filter fun d => isOpen expandedIds d.tree).map Place.node := by
    rw [h.sortedChildren_eq hp hopen, List.filter_map, openChildren, List.filter_filter, ← hskipped, List.filter_filter]
    congr 2
    funext d
    exact Bool.and_comm _ _
  rw [length_children_listing before hin, hlength, hitems, List.map_map]
  congr 2
  refine map_congr_left fun d hd => ?_
  obtain ⟨hd, hdopen⟩ := mem_filter.mp hd
  exact (hextra d (hin d hd) hdopen).symm

theorem rankAlong_eq {expanded : List ViewNode} (h : Collected doc expandedIds expanded) {extra : String → Nat}
    (hextra : Counts doc expandedIds extra) (hway : Place.Path p way q) (hp : p ∈ doc.places) (rank : Nat) :
    rankAlong expanded extra p.node.entry rank (way.map (·.node.entry)) =
      ((p.listing (isOpen expandedIds)).findIdx? fun r => r.id == q.id).map (rank + ·) := by
  induction hway generalizing rank with
  | here p =>
    rw [map_nil, rankAlong, Place.listing_eq, findIdx?_cons, if_pos (beq_self_eq_true _)]
    rfl
  | @step p c q way hc hway ih =>
    have hcin := child_mem hp hc
    have hq : q ∈ c.places := hway.mem
    have hne : ¬(p.id == q.id) = true := by
      intro hid
      have hnodup := nodup_below hp
      rw [Place.places_eq, map_cons, nodup_cons] at hnodup
      rw [beq_iff_eq.mp hid] at hnodup
      exact hnodup.1 (List.mem_map_of_mem (mem_flatMap.mpr ⟨c, hc, hq⟩))
    rw [map_cons, rankAlong, show p.node.entry.id = p.id from rfl, h.lookup_eq hp]
    by_cases hopen : isOpen expandedIds p.tree = true
    · obtain ⟨before, after, hchildren, hlength, hbefore, hafter⟩ := children_split hp hc
      have hin : ∀ d, d ∈ before ∨ d ∈ after → d ∈ doc.places := fun d hd => child_mem hp (by
        rw [hchildren, mem_append, mem_cons]
        exact hd.imp_right .inr)
      have hnone : (before.flatMap (Place.listing (isOpen expandedIds))).findIdx? _ = none := findIdx?_elsewhere
        (fun d hd => ⟨hin d (.inl hd), (hbefore d hd).2⟩) hcin hq
      have hnone' : (after.flatMap (Place.listing (isOpen expandedIds))).findIdx? _ = none := findIdx?_elsewhere
        (fun d hd => ⟨hin d (.inr hd), (hafter d hd).2⟩) hcin hq
      have hrows := length_before h hextra hp hopen hchildren hlength (fun d hd => (hbefore d hd).1)
        fun d hd => (hafter d hd).1
      rw [if_pos hopen]
      dsimp only
      rw [Place.node_id, show c.node.entry.ordinal = c.ordinal from rfl, ih hcin, Place.listing_open hopen, findIdx?_cons, if_neg hne, hchildren,
        flatMap_append, flatMap_cons, findIdx?_append, findIdx?_append, hnone, hnone', hrows]
      cases (c.listing (isOpen expandedIds)).findIdx? fun r => r.id == q.id with
      | none => rfl
      | some i =>
        change some (rank + (1 + c.ordinal + _) + i) = some (rank + (i + (c.ordinal + _) + 1))
        congr 1
        omega
    · rw [if_neg hopen, Place.listing_closed (eq_false_iff.mpr hopen), findIdx?_cons, if_neg hne]
      rfl

/-! ## Pages -/

/-- The visible rows from one index on, at most `limit` of them. -/
def Document.rows (doc : Document) (describe : ViewNode → Row) (expandedIds : List String) (first limit : Nat) :
    List (NbtTreeRow Row) :=
  ((((doc.visible expandedIds).drop first).take limit).zipIdx first).map fun (p, index) =>
    { row := describe p.node, depth := p.depth, index := index, expanded := isOpen expandedIds p.tree }

/-- Where a node stands among the visible rows. -/
def Document.position (doc : Document) (expandedIds : List String) (id : String) : Option Nat :=
  (doc.visible expandedIds).findIdx? fun p => p.id == id

def Document.anchorIndex (doc : Document) (expandedIds : List String) : Option String → Except NbtError (Option Nat)
  | none => .ok none
  | some anchor =>
    if anchor = "" then .ok none
    else match doc.place anchor with
      | none => .error ⟨0, "Indexed node is unavailable"⟩
      | some p =>
        if 4096 < p.depth then .error ⟨0, "NBT ancestor budget exceeded"⟩ else .ok (doc.position expandedIds anchor)

theorem findAnchor_eq {expanded : List ViewNode} (h : Collected doc expandedIds expanded) {extra : String → Nat}
    (hextra : Counts doc expandedIds extra) (anchor : Option String) :
    findAnchor (doc.model describe) expanded extra doc.top.node anchor = doc.anchorIndex expandedIds anchor := by
  match anchor with
  | none => rfl
  | some anchor =>
    rw [findAnchor, anchorIndex]
    split
    · rfl
    · match hplace : doc.place anchor with
      | none =>
        have hnode : (doc.model describe).getNode anchor = none := congrArg (Option.map Place.node) hplace
        rw [nbtAncestors, ancestors, hnode]
        rfl
      | some q =>
        obtain ⟨hq, rfl⟩ := mem_of_place hplace
        obtain ⟨way, hway⟩ := Place.path_of_mem hq
        rw [nbtAncestors_eq hway]
        dsimp only
        split
        · rfl
        · rw [Except.map, anchorRank, if_pos (show doc.top.node.entry.id = doc.top.node.id from rfl), rankAlong_eq h hextra hway doc.top_mem]
          simp only [Nat.zero_add, Option.map_id']
          rfl

theorem mapM_rows {f : Nat → Except NbtError (NbtTreeRow Row)} {g : Place × Nat → NbtTreeRow Row} {ps : List Place}
    {first : Nat} (h : ∀ i q, ps[i]? = some q → f (first + i) = .ok (g (q, first + i))) :
    (range' first ps.length).mapM f = .ok ((ps.zipIdx first).map g) := by
  induction ps generalizing first with
  | nil => rfl
  | cons p ps ih =>
    have hhead := h 0 p rfl
    rw [Nat.add_zero] at hhead
    have htail := @ih (first + 1) fun i q hq => by
      rw [Nat.add_assoc, Nat.add_comm 1 i]
      exact h (i + 1) q hq
    rw [length_cons, range'_succ, mapM_cons, hhead, htail, zipIdx_cons]
    rfl

theorem rows_eq {expanded : List ViewNode} (h : Collected doc expandedIds expanded) {extra : String → Nat}
    (hextra : Counts doc expandedIds extra) (first limit : Nat) :
    (range' first (min (doc.visible expandedIds).length (first + limit) - first)).mapM
      (pageRow (doc.model describe) expanded extra doc.top.node) = .ok (doc.rows describe expandedIds first limit) := by
  have hlength : min (doc.visible expandedIds).length (first + limit) - first =
      (((doc.visible expandedIds).drop first).take limit).length := by
    rw [length_take, length_drop]
    omega
  rw [hlength]
  refine mapM_rows fun i q hq => ?_
  have hrow : (doc.visible expandedIds)[first + i]? = some q := by
    rw [getElem?_take] at hq
    split at hq
    · rw [getElem?_drop] at hq
      exact hq
    · cases hq
  have hin : q ∈ doc.places := (Place.listing_sublist _).subset (mem_of_getElem? hrow)
  have hlocate : locate (doc.model describe) expanded extra doc.top.node (first + i) 0 = .ok (q.node, q.depth) :=
    locate_eq h hextra doc.top_mem hrow
  have hexpanded : (lookup expanded q.node.id).isSome = isOpen expandedIds q.tree := by
    rw [Place.node_id, h.lookup_eq hin]
    cases isOpen expandedIds q.tree <;> rfl
  rw [pageRow, hlocate]
  change Except.ok (⟨_, _, _, (lookup expanded q.node.id).isSome⟩ : NbtTreeRow Row) = _
  rw [hexpanded]
  rfl

theorem total_eq {expanded : List ViewNode} (h : Collected doc expandedIds expanded) {extra : String → Nat}
    (hextra : Counts doc expandedIds extra) :
    1 + ((lookup expanded doc.top.node.id).map fun item => extra item.id).getD 0 = (doc.visible expandedIds).length := by
  rw [Place.node_id, h.lookup_eq doc.top_mem]
  by_cases hopen : isOpen expandedIds doc.top.tree = true
  · rw [if_pos hopen, map_some, getD_some, Place.node_id, hextra _ doc.top_mem hopen]
    exact (length_listing doc.top_mem).symm
  · rw [if_neg hopen, visible, Place.listing_closed (eq_false_iff.mpr hopen)]
    rfl

theorem nbtTreePage_model (doc : Document) (describe : ViewNode → Row) (expandedIds : List String) (first limit : Nat)
    (anchor : Option String) :
    nbtTreePage (doc.model describe) expandedIds first limit anchor = (do
      assertRange first limit
      if limit > 128 then throw ⟨0, "Tree pages are limited to 128 rows"⟩
      let extra ← resolve (collect (doc.model describe) expandedIds)
      let total := 1 + ((lookup (collect (doc.model describe) expandedIds) doc.top.node.id).map fun item => extra item.id).getD 0
      let anchorIndex ← findAnchor (doc.model describe) (collect (doc.model describe) expandedIds) extra doc.top.node anchor
      let rows ← (range' first (min total (first + limit) - first)).mapM
        (pageRow (doc.model describe) (collect (doc.model describe) expandedIds) extra doc.top.node)
      return { rows := rows, total := total, anchorIndex := anchorIndex }) := by
  have hnode : (doc.model describe).getNode doc.tree.id = some doc.top.node :=
    congrArg (Option.map Place.node) (place_of_mem doc.top_mem)
  have hroot : (doc.model describe).root = some doc.tree.id := rfl
  have hnamed : doc.tree.id ≠ "" := doc.named _ doc.top_mem
  simp only [nbtTreePage, hroot, hnode, hnamed, if_false]

/-- A page of a document holds its visible rows. An anchor that is no node, or that has more than 4096 ancestors, is
refused whether its row is visible or not. -/
theorem tree_page_rows (doc : Document) (describe : ViewNode → Row) (expandedIds : List String) (first limit : Nat)
    (anchor : Option String) :
    nbtTreePage (doc.model describe) expandedIds first limit anchor = (do
      assertRange first limit
      if limit > 128 then throw ⟨0, "Tree pages are limited to 128 rows"⟩
      let anchorIndex ← doc.anchorIndex expandedIds anchor
      return { rows := doc.rows describe expandedIds first limit, total := (doc.visible expandedIds).length
               anchorIndex := anchorIndex }) := by
  have h := collected doc describe expandedIds
  obtain ⟨extra, hresolve, hextra⟩ := h.resolve_eq
  rw [nbtTreePage_model, hresolve]
  have hrows := @rows_eq Row doc describe expandedIds _ h _ hextra first limit
  rw [← total_eq h hextra] at hrows ⊢
  simp only [bind, Except.bind, findAnchor_eq h hextra, hrows]

/-! ### A chain of compounds -/

def chainName (k : Nat) : String := String.ofList (List.replicate (k + 1) 'n')

/-- Compounds inside each other, the innermost of which is empty. -/
def chain : Nat → DocTree
  | 0 => .node (chainName 0) .compound 0 []
  | k + 1 => .node (chainName (k + 1)) .compound 0 [chain k]

def chainIds (n : Nat) : List String := (List.range (n + 1)).map chainName

theorem chainName_injective : Function.Injective chainName := by
  intro j k h
  have hlength := congrArg length (String.ofList_injective h)
  rw [length_replicate, length_replicate] at hlength
  omega

theorem chain_ids (n ordinal depth : Nat) (parent : Option String) :
    (Place.places ⟨parent, ordinal, depth, chain n⟩).map Place.id = (chainIds n).reverse := by
  induction n generalizing parent ordinal depth with
  | zero => rfl
  | succ n ih =>
    rw [Place.places_eq, chainIds, range_succ, map_append, reverse_append, map_cons]
    change chainName (n + 1) :: ([(⟨some (chainName (n + 1)), 0, depth + 1, chain n⟩ : Place)].flatMap Place.places).map Place.id = _
    rw [flatMap_singleton, ih]
    rfl

def chainDocument (n : Nat) : Document where
  tree := chain n
  nodup := by
    rw [chain_ids]
    exact nodup_reverse.mpr (nodup_range.map chainName_injective)
  named p hp := by
    have hid := List.mem_map_of_mem (f := Place.id) hp
    rw [chain_ids, mem_reverse] at hid
    obtain ⟨k, -, hk⟩ := List.mem_map.mp hid
    rw [← hk]
    intro h
    have := congrArg String.toList h
    rw [chainName, String.toList_ofList] at this
    cases this

theorem chain_bottom {n k : Nat} (hk : k ≤ n) (p : Place) (hp : p.tree = chain k) :
    ∃ way q, Place.Path p way q ∧ way.length = k ∧ q.id = chainName 0 ∧ q ∈ p.listing (isOpen (chainIds n)) := by
  induction k generalizing p with
  | zero =>
    refine ⟨[], p, .here p, rfl, congrArg DocTree.id hp, ?_⟩
    rw [Place.listing_eq]
    exact mem_cons_self
  | succ k ih =>
    have hopen : isOpen (chainIds n) p.tree = true := by
      rw [hp, isOpen, and_eq_true, contains_iff_mem]
      exact ⟨rfl, List.mem_map_of_mem (mem_range.mpr (Nat.lt_succ_of_le hk))⟩
    have hchild : (⟨some p.id, 0, p.depth + 1, chain k⟩ : Place) ∈ p.children := by
      rw [Place.children, hp]
      exact mem_cons_self
    obtain ⟨way, q, hway, hlength, hid, hlisted⟩ := ih (Nat.le_of_succ_le hk) ⟨some p.id, 0, p.depth + 1, chain k⟩ rfl
    refine ⟨_, q, .step hchild hway, by rw [length_cons, hlength], hid, ?_⟩
    rw [Place.listing_open hopen]
    exact mem_cons_of_mem _ (mem_flatMap.mpr ⟨_, hchild, hlisted⟩)

/-- An anchor that is no node is refused, and so is the row of a tag inside 4097 others, which is visible. -/
theorem tree_page_refuses_deep_anchor :
    nbtTreePage ((chainDocument 0).model fun node => node.id) [] 0 1 (some (chainName 1)) =
      .error ⟨0, "Indexed node is unavailable"⟩ ∧
    ((chainDocument 4097).position (chainIds 4097) (chainName 0)).isSome = true ∧
      nbtTreePage ((chainDocument 4097).model fun node => node.id) (chainIds 4097) 0 1 (some (chainName 0)) =
        .error ⟨0, "NBT ancestor budget exceeded"⟩ := by
  obtain ⟨way, q, hway, hlength, hid, hlisted⟩ := chain_bottom (Nat.le_refl 4097) (chainDocument 4097).top rfl
  refine ⟨by decide, ?_, ?_⟩
  · rw [position, findIdx?_isSome, List.any_eq_true]
    exact ⟨q, hlisted, beq_iff_eq.mpr hid⟩
  · have h := collected (chainDocument 4097) (fun node => node.id) (chainIds 4097)
    obtain ⟨extra, hresolve, hextra⟩ := h.resolve_eq
    have hdeep : 4096 < q.depth := by
      rw [hway.depth, hlength]
      decide
    have hanchor : (chainDocument 4097).anchorIndex (chainIds 4097) (some q.id) =
        .error ⟨0, "NBT ancestor budget exceeded"⟩ := by
      rw [anchorIndex, if_neg ((chainDocument 4097).named q hway.mem), place_of_mem hway.mem]
      exact if_pos hdeep
    have hfind := @findAnchor_eq String _ (fun node => node.id) _ _ h _ hextra (some q.id)
    rw [hanchor] at hfind
    have hrange : assertRange 0 1 = .ok () := rfl
    rw [nbtTreePage_model, hresolve, ← hid, hrange]
    simp only [bind, Except.bind, hfind]
    rfl

end Page

end TreeView

end Cantrip.Nbt
