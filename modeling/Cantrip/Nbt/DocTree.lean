import Cantrip.Nbt.Types

/-!
# Trees of nodes and their rows

A document seen as a tree of nodes. `Place.listing` walks it in preorder and goes below the open nodes only; with
every node open it gives all the places of the tree.
-/

namespace Cantrip.Nbt

open List

namespace TreeView

/-- What the view reads of a node (`NbtNode` of `packages/nbt/src/types.ts`). -/
structure ViewNode where
  id : String
  parent : Option String
  ordinal : Nat
  type : NbtTag
  start : Nat
  childCount : Nat
  deriving DecidableEq, Repr

/-- A tag with the tags inside it. -/
inductive DocTree
  | node (id : String) (type : NbtTag) (start : Nat) (children : List DocTree)

namespace DocTree

def id : DocTree → String
  | .node id _ _ _ => id

def type : DocTree → NbtTag
  | .node _ type _ _ => type

def start : DocTree → Nat
  | .node _ _ start _ => start

def children : DocTree → List DocTree
  | .node _ _ _ children => children

end DocTree

structure Place where
  parent : Option String
  ordinal : Nat
  depth : Nat
  tree : DocTree

namespace Place

def id (p : Place) : String := p.tree.id

def node (p : Place) : ViewNode :=
  { id := p.id, parent := p.parent, ordinal := p.ordinal, type := p.tree.type, start := p.tree.start
    childCount := p.tree.children.length }

@[simp] theorem node_id (p : Place) : p.node.id = p.id := rfl

def childrenFrom (parent : String) (depth : Nat) : Nat → List DocTree → List Place
  | _, [] => []
  | ordinal, t :: ts => ⟨some parent, ordinal, depth, t⟩ :: childrenFrom parent depth (ordinal + 1) ts

def children (p : Place) : List Place := childrenFrom p.id (p.depth + 1) 0 p.tree.children

end Place

mutual

def DocTree.listing (isOpen : DocTree → Bool) (parent : Option String) (ordinal depth : Nat) : DocTree → List Place
  | .node id type start children =>
    ⟨parent, ordinal, depth, .node id type start children⟩ ::
      if isOpen (.node id type start children) then listingFrom isOpen id (depth + 1) 0 children else []

def listingFrom (isOpen : DocTree → Bool) (parent : String) (depth : Nat) : Nat → List DocTree → List Place
  | _, [] => []
  | ordinal, t :: ts =>
    t.listing isOpen (some parent) ordinal depth ++ listingFrom isOpen parent depth (ordinal + 1) ts

end

namespace Place

variable {isOpen : DocTree → Bool}

def listing (isOpen : DocTree → Bool) (p : Place) : List Place := p.tree.listing isOpen p.parent p.ordinal p.depth

def places (p : Place) : List Place := p.listing fun _ => true

theorem listingFrom_eq (parent : String) (depth ordinal : Nat) (ts : List DocTree) :
    listingFrom isOpen parent depth ordinal ts = (childrenFrom parent depth ordinal ts).flatMap (listing isOpen) := by
  induction ts generalizing ordinal with
  | nil => rw [listingFrom, childrenFrom, flatMap_nil]
  | cons t ts ih =>
    rw [listingFrom, childrenFrom, flatMap_cons, ih]
    rfl

theorem listing_eq (p : Place) :
    p.listing isOpen = p :: if isOpen p.tree then p.children.flatMap (listing isOpen) else [] := by
  obtain ⟨parent, ordinal, depth, ⟨id, type, start, children⟩⟩ := p
  rw [listing, DocTree.listing, listingFrom_eq]
  rfl

variable {c p q : Place}

theorem listing_closed (h : isOpen p.tree = false) : p.listing isOpen = [p] := by
  rw [listing_eq, h]
  rfl

theorem listing_open (h : isOpen p.tree = true) : p.listing isOpen = p :: p.children.flatMap (listing isOpen) := by
  rw [listing_eq, h, if_pos rfl]

theorem places_eq (p : Place) : p.places = p :: p.children.flatMap places := listing_open rfl

theorem length_listing_pos (p : Place) : 0 < (p.listing isOpen).length := by
  rw [listing_eq]
  exact Nat.succ_pos _

/-! ## Children -/

@[simp] theorem length_childrenFrom (parent : String) (depth ordinal : Nat) (ts : List DocTree) :
    (childrenFrom parent depth ordinal ts).length = ts.length := by
  induction ts generalizing ordinal with
  | nil => rfl
  | cons t ts ih => rw [childrenFrom, length_cons, length_cons, ih]

theorem length_children (p : Place) : p.children.length = p.node.childCount := length_childrenFrom _ _ _ _

theorem getElem?_childrenFrom (parent : String) (depth ordinal : Nat) (ts : List DocTree) (i : Nat) :
    (childrenFrom parent depth ordinal ts)[i]? = ts[i]?.map fun t => ⟨some parent, ordinal + i, depth, t⟩ := by
  induction ts generalizing ordinal i with
  | nil => rfl
  | cons t ts ih =>
    cases i with
    | zero => rfl
    | succ i =>
      rw [childrenFrom, getElem?_cons_succ, getElem?_cons_succ, ih]
      congr 2
      funext t
      congr 1
      omega

theorem child_eq {i : Nat} (h : p.children[i]? = some c) :
    c.parent = some p.id ∧ c.ordinal = i ∧ c.depth = p.depth + 1 ∧ c.tree ∈ p.tree.children := by
  rw [children, getElem?_childrenFrom] at h
  obtain ⟨t, ht, rfl⟩ := Option.map_eq_some_iff.mp h
  exact ⟨rfl, Nat.zero_add i, rfl, mem_of_getElem? ht⟩

theorem child_of_mem (h : c ∈ p.children) :
    c.parent = some p.id ∧ p.children[c.ordinal]? = some c ∧ c.depth = p.depth + 1 ∧ c.tree ∈ p.tree.children := by
  obtain ⟨i, hi⟩ := getElem?_of_mem h
  obtain ⟨hparent, rfl, hdepth, hmem⟩ := child_eq hi
  exact ⟨hparent, hi, hdepth, hmem⟩

theorem sizeOf_child (h : c ∈ p.children) : sizeOf c.tree < sizeOf p.tree := by
  obtain ⟨-, -, -, hmem⟩ := child_of_mem h
  obtain ⟨parent, ordinal, depth, ⟨id, type, start, children⟩⟩ := p
  have hlt := sizeOf_lt_of_mem hmem
  rw [DocTree.children] at hlt
  rw [DocTree.node.sizeOf_spec]
  omega

theorem induct {P : Place → Prop} (step : ∀ p, (∀ c ∈ p.children, P c) → P p) (p : Place) : P p :=
  step p fun c _hc => induct step c
termination_by sizeOf p.tree
decreasing_by exact sizeOf_child _hc

/-! ## Ways down -/

inductive Path : Place → List Place → Place → Prop
  | here (p : Place) : Path p [] p
  | step {p c q : Place} {way : List Place} (hc : c ∈ p.children) (hway : Path c way q) : Path p (c :: way) q

theorem Path.depth {way : List Place} (h : Path p way q) : q.depth = p.depth + way.length := by
  induction h with
  | here p => rfl
  | step hc hway ih =>
    obtain ⟨-, -, hdepth, -⟩ := child_of_mem hc
    rw [ih, hdepth, length_cons]
    omega

theorem self_mem_places (p : Place) : p ∈ p.places := by
  rw [places_eq]
  exact mem_cons_self

theorem mem_places : q ∈ p.places ↔ q = p ∨ ∃ c ∈ p.children, q ∈ c.places := by
  rw [places_eq, mem_cons, mem_flatMap]

theorem path_of_mem (h : q ∈ p.places) : ∃ way, Path p way q := by
  induction p using induct with
  | step p ih =>
    rcases mem_places.mp h with rfl | ⟨c, hc, hq⟩
    · exact ⟨[], .here _⟩
    · obtain ⟨way, hway⟩ := ih c hc hq
      exact ⟨c :: way, .step hc hway⟩

theorem Path.mem {way : List Place} (h : Path p way q) : q ∈ p.places := by
  induction h with
  | here p => exact self_mem_places p
  | step hc hway ih => exact mem_places.mpr (.inr ⟨_, hc, ih⟩)

theorem places_trans {r : Place} (hq : q ∈ p.places) (hr : r ∈ q.places) : r ∈ p.places := by
  induction p using induct with
  | step p ih =>
    rcases mem_places.mp hq with rfl | ⟨c, hc, hqc⟩
    · exact hr
    · exact mem_places.mpr (.inr ⟨c, hc, ih c hc hqc⟩)

theorem child_mem_places (hq : q ∈ p.places) (hc : c ∈ q.children) : c ∈ p.places :=
  places_trans hq (mem_places.mpr (.inr ⟨c, hc, self_mem_places c⟩))

theorem places_sublist (h : q ∈ p.places) : q.places.Sublist p.places := by
  induction p using induct with
  | step p ih =>
    rcases mem_places.mp h with rfl | ⟨c, hc, hq⟩
    · exact List.Sublist.refl _
    · rw [places_eq p, flatMap_def]
      have hsub := sublist_flatten_of_mem (mem_map_of_mem (f := places) hc)
      exact ((ih c hc hq).trans hsub).trans (sublist_cons_self _ _)

theorem children_sublist (p : Place) : p.children.Sublist p.places := by
  have h : (p.children.flatMap fun c => [c]).Sublist (p.children.flatMap places) :=
    List.Sublist.flatMap_right _ fun c _ => singleton_sublist.mpr (self_mem_places c)
  rw [flatMap_singleton'] at h
  rw [places_eq]
  exact h.trans (sublist_cons_self _ _)

theorem listing_sublist (p : Place) : (p.listing isOpen).Sublist p.places := by
  induction p using induct with
  | step p ih =>
    rw [listing_eq, places_eq]
    refine List.Sublist.cons_cons _ ?_
    split
    · exact List.Sublist.flatMap_right _ ih
    · exact nil_sublist _

end Place

end TreeView

end Cantrip.Nbt
