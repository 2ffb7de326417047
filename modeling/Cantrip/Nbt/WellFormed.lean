import Cantrip.Nbt.Document

/-!
# Well-formed indexes

`WellFormed` says what the index of a document looks like to its readers: the identities number the nodes in
preorder, the records and the lists of children agree, the byte range of a child lies inside that of its parent and
siblings follow each other without a gap. An index that holds a document is well formed (`Indexed.wellFormed`).
-/

namespace Cantrip.Nbt

open Lib List Option

namespace MemoryNbtIndex

/-- The nodes below `id` in preorder, to a depth of at most `fuel`. -/
def preorder (ix : MemoryNbtIndex) : Nat → Nat → List Nat
  | 0, _ => []
  | fuel + 1, id => id :: (ix.lists id).flatMap fun child => child.elim [] (ix.preorder fuel)

/-- The node `child` is number `k` of the children of `node`. -/
structure ChildAt (ix : MemoryNbtIndex) (node : NbtNode) (k : Nat) (child : NbtNode) : Prop where
  listed : (ix.lists node.id)[k]? = some (some child.id)
  record : ix.nodes child.id = some child
  parent : child.parent = some node.id
  ordinal : child.ordinal = k

/-- The children of `node` stand where its record says. -/
structure NodeFormed (ix : MemoryNbtIndex) (node : NbtNode) (finish : Nat) : Prop where
  endAt : node.endAt = some finish
  counted : (ix.lists node.id).length = node.childCount
  length : node.type = .list → node.length = some node.childCount
  children : ∀ k < node.childCount, ∃ child, ix.ChildAt node k child
  inside : ∀ k child, ix.ChildAt node k child → ∃ childEnd, child.endAt = some childEnd ∧ node.start ≤ child.start ∧
    child.start ≤ childEnd ∧ childEnd ≤ finish
  adjacent : ∀ k child next, ix.ChildAt node k child → ix.ChildAt node (k + 1) next → child.endAt = some next.start

/-- An index of `count` nodes with the root 0. -/
structure WellFormed (ix : MemoryNbtIndex) (count : Nat) : Prop where
  numbered : ∀ i, (ix.nodes i).isSome ↔ i < count
  preorder : ∀ fuel, count ≤ fuel → ix.preorder fuel 0 = List.range count
  identity : ∀ i node, ix.nodes i = some node → node.id = i ∧ (node.parent = none ↔ i = 0)
  formed : ∀ i node, ix.nodes i = some node → ∃ finish, ix.NodeFormed node finish

end MemoryNbtIndex

open MemoryNbtIndex

/-! ## The children of a node and their places -/

namespace Raw

def itemPlaces (parent ordinal id at_ : Nat) : List Raw → List (Place × Raw)
  | [] => []
  | r :: rs =>
    (Place.item parent ordinal id at_, r) :: itemPlaces parent (ordinal + 1) (id + r.size) (at_ + r.payload.length) rs

def entryPlaces (parent ordinal id at_ : Nat) : List (RawText × Raw) → List (Place × Raw)
  | [] => []
  | (name, r) :: es =>
    (Place.entry parent ordinal id at_ name, r) ::
      entryPlaces parent (ordinal + 1) (id + r.size) (at_ + 1 + name.bytes.length + r.payload.length) es

/-- The children of a node that stands at `pl`. -/
def childPlaces (pl : Place) : Raw → List (Place × Raw)
  | list _ lengthBytes _ items => itemPlaces pl.id 0 (pl.id + 1) (pl.payload + 1 + lengthBytes.length) items
  | compound entries => entryPlaces pl.id 0 (pl.id + 1) pl.payload entries
  | _ => []

end Raw

/-- Where a node ends. -/
def Raw.finish (pl : Place) (r : Raw) : Nat := pl.payload + r.payload.length

/-- Siblings that follow each other, from identity `id` and byte `at_` on, up to identity `past` and byte `finish`. -/
def Spread (parent : Nat) : Nat → Nat → Nat → List (Place × Raw) → Nat → Nat → Prop
  | _, id, at_, [], past, finish => past = id ∧ finish = at_
  | ordinal, id, at_, (pl, r) :: cs, past, finish =>
    pl.parent = some parent ∧ pl.ordinal = ordinal ∧ pl.id = id ∧ pl.start = at_ ∧ at_ ≤ pl.payload ∧
      Spread parent (ordinal + 1) (id + r.size) (r.finish pl) cs past finish

theorem itemPlaces_spread (parent : Nat) (items : List Raw) (ordinal id at_ : Nat) :
    Spread parent ordinal id at_ (Raw.itemPlaces parent ordinal id at_ items) (id + Raw.sizes items)
      (at_ + (Raw.payloads items).length) := by
  induction items generalizing ordinal id at_ with
  | nil => exact ⟨rfl, rfl⟩
  | cons r rs ih =>
    refine ⟨rfl, rfl, rfl, rfl, le_rfl, ?_⟩
    have h := ih (ordinal + 1) (id + r.size) (at_ + r.payload.length)
    rw [Nat.add_assoc id, Nat.add_assoc at_, ← length_append] at h
    exact h

theorem entryPlaces_spread (parent : Nat) (entries : List (RawText × Raw)) (ordinal id at_ : Nat) :
    Spread parent ordinal id at_ (Raw.entryPlaces parent ordinal id at_ entries) (id + Raw.entriesSize entries)
      (at_ + (Raw.entriesBytes entries).length) := by
  induction entries generalizing ordinal id at_ with
  | nil => exact ⟨rfl, rfl⟩
  | cons entry es ih =>
    obtain ⟨name, r⟩ := entry
    refine ⟨rfl, rfl, rfl, rfl, by simp only [Place.entry]; omega, ?_⟩
    have h := ih (ordinal + 1) (id + r.size) (at_ + 1 + name.bytes.length + r.payload.length)
    have hlen : at_ + (Raw.entriesBytes ((name, r) :: es)).length
        = at_ + 1 + name.bytes.length + r.payload.length + (Raw.entriesBytes es).length := by
      simp only [Raw.entriesBytes, length_append, length_cons]
      omega
    rw [hlen, Raw.entriesSize, ← Nat.add_assoc]
    exact h

theorem childPlaces_spread (r : Raw) (pl : Place) : ∃ at_ finish, pl.payload ≤ at_ ∧ finish ≤ r.finish pl ∧
      Spread pl.id 0 (pl.id + 1) at_ (r.childPlaces pl) (pl.id + r.size) finish := by
  cases r with
  | list elementType lengthBytes declared items =>
    refine ⟨_, _, ?_, ?_, by rw [Raw.size, ← Nat.add_assoc]; exact itemPlaces_spread pl.id items 0 (pl.id + 1) _⟩
    · omega
    · simp only [Raw.finish, Raw.payload, length_append, length_cons]
      omega
  | compound entries =>
    refine ⟨_, _, le_rfl, ?_, by rw [Raw.size, ← Nat.add_assoc]; exact entryPlaces_spread pl.id entries 0 (pl.id + 1) _⟩
    simp only [Raw.finish, Raw.payload, length_append]
    omega
  | scalar | string | array => exact ⟨pl.payload, pl.payload, le_rfl, Nat.le_add_right _ _, rfl, rfl⟩

section Spread

variable {parent ordinal id at_ past finish : Nat} {cs : List (Place × Raw)}

section

variable (h : Spread parent ordinal id at_ cs past finish)
include h

theorem Spread.bounds :
    id ≤ past ∧ at_ ≤ finish ∧ ∀ c ∈ cs, c.1.parent = some parent ∧ id ≤ c.1.id ∧ c.1.id + c.2.size ≤ past ∧
      at_ ≤ c.1.start ∧ c.1.start ≤ c.1.payload ∧ c.2.finish c.1 ≤ finish := by
  induction cs generalizing ordinal id at_ with
  | nil =>
    obtain ⟨rfl, rfl⟩ := h
    exact ⟨le_rfl, le_rfl, by simp⟩
  | cons c cs ih =>
    obtain ⟨pl, r⟩ := c
    obtain ⟨hparent, -, rfl, rfl, hpayload, h⟩ := h
    obtain ⟨h₁, h₂, h₃⟩ := ih h
    have hfinish : pl.payload ≤ r.finish pl := Nat.le_add_right _ _
    refine ⟨by omega, by omega, ?_⟩
    rintro c (_ | ⟨_, hc⟩)
    · exact ⟨hparent, le_rfl, h₁, le_rfl, hpayload, h₂⟩
    · obtain ⟨h₄, h₅, h₆, h₇, h₈, h₉⟩ := h₃ c hc
      exact ⟨h₄, by omega, h₆, by omega, h₈, h₉⟩

theorem Spread.get {k : Nat} {c : Place × Raw}
    (hc : cs[k]? = some c) : c.1.parent = some parent ∧ c.1.ordinal = ordinal + k ∧
      ∀ d, cs[k + 1]? = some d → d.1.start = c.2.finish c.1 := by
  induction cs generalizing ordinal id at_ k with
  | nil => simp at hc
  | cons c' cs ih =>
    obtain ⟨pl, r⟩ := c'
    obtain ⟨hparent, hordinal, -, -, -, h⟩ := h
    cases k with
    | zero =>
      cases hc
      refine ⟨hparent, hordinal, fun d hd => ?_⟩
      cases cs with
      | nil => simp at hd
      | cons d' cs =>
        cases hd
        exact h.2.2.2.1
    | succ k =>
      rw [getElem?_cons_succ] at hc
      obtain ⟨h₁, h₂, h₃⟩ := ih h hc
      exact ⟨h₁, by omega, fun d hd => h₃ d (by rwa [getElem?_cons_succ] at hd)⟩

theorem Spread.cover {i : Nat} (hlow : id ≤ i) (hhigh : i < past) :
    ∃ c ∈ cs, c.1.id ≤ i ∧ i < c.1.id + c.2.size := by
  induction cs generalizing ordinal id at_ with
  | nil =>
    obtain ⟨rfl, -⟩ := h
    omega
  | cons c cs ih =>
    obtain ⟨pl, r⟩ := c
    obtain ⟨-, -, rfl, -, -, h⟩ := h
    by_cases hi : i < pl.id + r.size
    · exact ⟨(pl, r), by simp, hlow, hi⟩
    · obtain ⟨c, hc, h₁, h₂⟩ := ih h (by omega)
      exact ⟨c, by simp [hc], h₁, h₂⟩

theorem Spread.flatMap_range (walk : Nat → List Nat)
    (hwalk : ∀ c ∈ cs, walk c.1.id = range' c.1.id c.2.size) :
    cs.flatMap (fun c => walk c.1.id) = range' id (past - id) := by
  induction cs generalizing ordinal id at_ with
  | nil =>
    obtain ⟨rfl, -⟩ := h
    simp
  | cons c cs ih =>
    obtain ⟨pl, r⟩ := c
    obtain ⟨-, -, rfl, -, -, h⟩ := h
    have hle := h.bounds.1
    rw [flatMap_cons, hwalk (pl, r) (by simp), ih h fun c hc => hwalk c (by simp [hc])]
    rw [show past - pl.id = r.size + (past - (pl.id + r.size)) by omega, ← range'_append_1]

end

end Spread

/-! ## Indexed documents -/

theorem Raw.record_start (r : Raw) (pl : Place) : (r.record pl).start = pl.start := by cases r <;> rfl

theorem itemPlaces_ids (parent : Nat) (items : List Raw) (ordinal id at_ : Nat) :
    (Raw.itemPlaces parent ordinal id at_ items).map (·.1.id) = Raw.itemIds id items := by
  induction items generalizing ordinal id at_ with
  | nil => rfl
  | cons r rs ih => exact congrArg (id :: ·) (ih _ _ _)

theorem entryPlaces_ids (parent : Nat) (entries : List (RawText × Raw)) (ordinal id at_ : Nat) :
    (Raw.entryPlaces parent ordinal id at_ entries).map (·.1.id) = Raw.entryIds id entries := by
  induction entries generalizing ordinal id at_ with
  | nil => rfl
  | cons entry es ih => exact congrArg (id :: ·) (ih _ _ _)

theorem childPlaces_ids (r : Raw) (pl : Place) : (r.childPlaces pl).map (·.1.id) = r.childIds pl := by
  cases r with
  | list elementType lengthBytes declared items => exact itemPlaces_ids _ _ _ _ _
  | compound entries => exact entryPlaces_ids _ _ _ _ _
  | scalar | string | array => rfl

theorem itemIds_length (items : List Raw) (id : Nat) : (Raw.itemIds id items).length = items.length := by
  induction items generalizing id with
  | nil => rfl
  | cons r rs ih => rw [Raw.itemIds, length_cons, ih, length_cons]

theorem entryIds_length (entries : List (RawText × Raw)) (id : Nat) : (Raw.entryIds id entries).length = entries.length := by
  induction entries generalizing id with
  | nil => rfl
  | cons entry es ih => rw [Raw.entryIds, length_cons, ih, length_cons]

theorem childIds_length (r : Raw) (pl : Place) : (r.childIds pl).length = r.childCount := by
  cases r with
  | list elementType lengthBytes declared items => exact itemIds_length items _
  | compound entries => exact entryIds_length entries _
  | scalar | string | array => rfl

section Indexed

variable {ix : MemoryNbtIndex} {encoding : NbtEncoding}

theorem IndexedItems.mem {items : List Raw} {parent ordinal id at_ : Nat} (h : IndexedItems ix parent ordinal id at_ items) :
    ∀ c ∈ Raw.itemPlaces parent ordinal id at_ items, Indexed ix c.1 c.2 := by
  induction items generalizing ordinal id at_ with
  | nil => simp [Raw.itemPlaces]
  | cons r rs ih => exact forall_mem_cons.mpr ⟨h.1, ih h.2⟩

theorem IndexedEntries.mem {entries : List (RawText × Raw)} {parent ordinal id at_ : Nat}
    (h : IndexedEntries ix parent ordinal id at_ entries) :
    ∀ c ∈ Raw.entryPlaces parent ordinal id at_ entries, Indexed ix c.1 c.2 := by
  induction entries generalizing ordinal id at_ with
  | nil => simp [Raw.entryPlaces]
  | cons entry es ih => exact forall_mem_cons.mpr ⟨h.1, ih h.2⟩

variable {pl : Place} {r : Raw}

theorem Indexed.children (h : Indexed ix pl r) : ∀ c ∈ r.childPlaces pl, Indexed ix c.1 c.2 := by
  cases r with
  | list elementType lengthBytes declared items => exact h.2.2.mem
  | compound entries => exact h.2.2.mem
  | scalar | string | array => simp [Raw.childPlaces]

theorem childPlaces_size {c : Place × Raw} (hc : c ∈ r.childPlaces pl) : c.2.size < r.size := by
  obtain ⟨at_, finish, -, -, hspread⟩ := childPlaces_spread r pl
  obtain ⟨-, h₁, h₂, -⟩ := hspread.bounds.2.2 c hc
  omega

theorem itemPlaces_valid {items : List Raw} {parent ordinal id at_ : Nat} (h : ValidItems encoding items) :
    ∀ c ∈ Raw.itemPlaces parent ordinal id at_ items, c.2.Valid encoding := by
  induction items generalizing ordinal id at_ with
  | nil => simp [Raw.itemPlaces]
  | cons r rs ih => exact forall_mem_cons.mpr ⟨h.1, ih h.2⟩

theorem entryPlaces_valid {entries : List (RawText × Raw)} {parent ordinal id at_ : Nat} (h : ValidEntries encoding entries) :
    ∀ c ∈ Raw.entryPlaces parent ordinal id at_ entries, c.2.Valid encoding := by
  induction entries generalizing ordinal id at_ with
  | nil => simp [Raw.entryPlaces]
  | cons entry es ih => exact forall_mem_cons.mpr ⟨h.2.1, ih h.2.2⟩

theorem childPlaces_valid (h : r.Valid encoding) : ∀ c ∈ r.childPlaces pl, c.2.Valid encoding := by
  cases r with
  | list elementType lengthBytes declared items => exact itemPlaces_valid h.2.2.2.2
  | compound entries => exact entryPlaces_valid h
  | scalar | string | array => simp [Raw.childPlaces]

theorem Indexed.preorder_eq (h : Indexed ix pl r) {fuel : Nat} (hfuel : r.size ≤ fuel) :
    ix.preorder fuel pl.id = range' pl.id r.size := by
  induction fuel generalizing pl r with
  | zero =>
    have := r.size_pos
    omega
  | succ fuel ih =>
    obtain ⟨at_, finish, -, -, hspread⟩ := childPlaces_spread r pl
    have hwalk := hspread.flatMap_range (ix.preorder fuel) fun c hc => by
      have hsize := childPlaces_size hc
      exact ih (h.children c hc) (by omega)
    have hpos := r.size_pos
    rw [MemoryNbtIndex.preorder, h.lists, ← childPlaces_ids, List.map_map, flatMap_map]
    refine (congrArg (pl.id :: ·) hwalk).trans ?_
    rw [show pl.id + r.size - (pl.id + 1) = r.size - 1 by omega, ← range'_succ, Nat.sub_add_cancel hpos]

theorem Indexed.find (h : Indexed ix pl r) (hv : r.Valid encoding) (hstart : pl.start ≤ pl.payload)
    {i : Nat} (hlow : pl.id ≤ i) (hhigh : i < pl.id + r.size) :
    ∃ pl' r', pl'.id = i ∧ Indexed ix pl' r' ∧ r'.Valid encoding ∧ pl'.start ≤ pl'.payload ∧
      (pl' = pl ∨ (pl'.parent.isSome ∧ pl.id < i)) := by
  induction hn : r.size using Nat.strong_induction_on generalizing pl r with
  | _ n ih =>
    subst hn
    by_cases hi : i = pl.id
    · exact ⟨pl, r, hi.symm, h, hv, hstart, .inl rfl⟩
    · obtain ⟨at_, finish, -, -, hspread⟩ := childPlaces_spread r pl
      obtain ⟨c, hc, h₁, h₂⟩ := hspread.cover (by omega) hhigh
      obtain ⟨hparent, -, -, -, hpayload, -⟩ := hspread.bounds.2.2 c hc
      obtain ⟨pl', r', hid, hix, hv', hstart', hplace⟩ :=
        ih c.2.size (childPlaces_size hc) (h.children c hc) (childPlaces_valid hv c hc) hpayload h₁ h₂ rfl
      refine ⟨pl', r', hid, hix, hv', hstart', .inr ⟨?_, by omega⟩⟩
      rcases hplace with rfl | hplace
      · rw [hparent]
        rfl
      · exact hplace.1

theorem Indexed.childAt_iff (h : Indexed ix pl r) {k : Nat} {child : NbtNode} :
    ix.ChildAt (r.record pl) k child ↔ ∃ c, (r.childPlaces pl)[k]? = some c ∧ child = c.2.record c.1 := by
  obtain ⟨at_, finish, -, -, hspread⟩ := childPlaces_spread r pl
  have hlisted : ∀ id, (ix.lists (r.record pl).id)[k]? = some (some id) ↔
      ∃ c, (r.childPlaces pl)[k]? = some c ∧ c.1.id = id := by
    intro id
    rw [Raw.record_id, h.lists, ← childPlaces_ids, List.map_map, getElem?_map, map_eq_some_iff]
    simp only [Function.comp_apply, some.injEq]
  constructor
  · intro hchild
    obtain ⟨c, hc, hid⟩ := (hlisted child.id).mp hchild.listed
    have hnode := (h.children c (mem_of_getElem? hc)).node
    rw [hid, hchild.record] at hnode
    exact ⟨c, hc, some.inj hnode⟩
  · rintro ⟨c, hc, rfl⟩
    obtain ⟨hparent, hordinal, -⟩ := hspread.get hc
    have hnode := (h.children c (mem_of_getElem? hc)).node
    refine ⟨(hlisted _).mpr ⟨c, hc, (Raw.record_id _ _).symm⟩, ?_, ?_, ?_⟩
    · rw [Raw.record_id]
      exact hnode
    · rw [Raw.record_parent, hparent, Raw.record_id]
    · rw [Raw.record_ordinal, hordinal, Nat.zero_add]

theorem Raw.record_length (hv : r.Valid encoding) (htype : (r.record pl).type = .list) :
    (r.record pl).length = some r.childCount := by
  cases r with
  | list elementType lengthBytes declared items => rfl
  | scalar type bs =>
    obtain rfl : type = .list := htype
    exact hv.elim
  | array type lengthBytes content length =>
    obtain rfl : type = .list := htype
    cases hv.1
  | string text => cases htype
  | compound entries => cases htype

theorem Indexed.formed (h : Indexed ix pl r) (hv : r.Valid encoding)
    (hstart : pl.start ≤ pl.payload) : ix.NodeFormed (r.record pl) (r.finish pl) := by
  obtain ⟨at_, finish, hat, hfinish, hspread⟩ := childPlaces_spread r pl
  have hlen : (r.childPlaces pl).length = r.childCount := by
    rw [← childIds_length r pl, ← childPlaces_ids, length_map]
  refine ⟨rfl, ?_, Raw.record_length hv, ?_, ?_, ?_⟩
  · rw [Raw.record_id, h.lists, length_map, childIds_length]
    rfl
  · intro k hk
    obtain ⟨c, hc⟩ : ∃ c, (r.childPlaces pl)[k]? = some c :=
      ⟨_, getElem?_eq_getElem (by rw [hlen]; exact hk)⟩
    exact ⟨_, h.childAt_iff.mpr ⟨c, hc, rfl⟩⟩
  · intro k child hchild
    obtain ⟨c, hc, rfl⟩ := h.childAt_iff.mp hchild
    obtain ⟨-, -, -, h₁, h₂, h₃⟩ := hspread.bounds.2.2 c (mem_of_getElem? hc)
    refine ⟨c.2.finish c.1, rfl, ?_, ?_, h₃.trans hfinish⟩
    · rw [Raw.record_start, Raw.record_start]
      omega
    · rw [Raw.record_start]
      exact h₂.trans (Nat.le_add_right _ _)
  · intro k child next hchild hnext
    obtain ⟨c, hc, rfl⟩ := h.childAt_iff.mp hchild
    obtain ⟨d, hd, rfl⟩ := h.childAt_iff.mp hnext
    rw [Raw.record_start, (hspread.get hc).2.2 d hd]
    rfl

theorem Indexed.wellFormed (h : Indexed ix pl r) (hv : r.Valid encoding)
    (hfresh : ix.Fresh (pl.id + r.size)) (hid : pl.id = 0) (hparent : pl.parent = none) (hstart : pl.start ≤ pl.payload) :
    ix.WellFormed r.size := by
  have hlt : ∀ i node, ix.nodes i = some node → i < pl.id + r.size := by
    intro i node hnode
    by_contra hge
    rw [(hfresh i (by omega)).1] at hnode
    cases hnode
  have hfind : ∀ i node, ix.nodes i = some node → ∃ pl' r', pl'.id = i ∧ Indexed ix pl' r' ∧ r'.Valid encoding ∧
      pl'.start ≤ pl'.payload ∧ (pl' = pl ∨ (pl'.parent.isSome ∧ pl.id < i)) ∧ node = r'.record pl' := by
    intro i node hnode
    obtain ⟨pl', r', rfl, hix, hv', hstart', hplace⟩ := h.find hv hstart (by omega) (hlt i node hnode)
    rw [hix.node] at hnode
    exact ⟨pl', r', rfl, hix, hv', hstart', hplace, (some.inj hnode).symm⟩
  refine ⟨fun i => ⟨fun hsome => ?_, fun hi => ?_⟩, fun fuel hfuel => ?_, fun i node hnode => ?_, fun i node hnode => ?_⟩
  · obtain ⟨node, hnode⟩ := isSome_iff_exists.mp hsome
    have := hlt i node hnode
    omega
  · obtain ⟨pl', r', rfl, hix, -⟩ := h.find hv hstart (show pl.id ≤ i by omega) (by omega)
    rw [hix.node]
    rfl
  · have hwalk := h.preorder_eq hfuel
    rw [hid] at hwalk
    rw [hwalk, range_eq_range']
  · obtain ⟨pl', r', rfl, -, -, -, hplace, rfl⟩ := hfind i node hnode
    rw [Raw.record_id, Raw.record_parent]
    refine ⟨rfl, ?_⟩
    rcases hplace with rfl | ⟨hsome, hpos⟩
    · simp [hparent, hid]
    · refine ⟨fun hnone => ?_, fun hzero => by omega⟩
      rw [hnone] at hsome
      cases hsome
  · obtain ⟨pl', r', rfl, hix, hv', hstart', -, rfl⟩ := hfind i node hnode
    exact ⟨_, hix.formed hv' hstart'⟩

end Indexed

end Cantrip.Nbt
