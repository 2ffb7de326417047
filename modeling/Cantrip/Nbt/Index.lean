import Cantrip.Nbt.ScanRaw

/-!
# The index of a document

`Indexed ix pl r` says that the index holds the final records of the document `r` standing at `pl`
and lists the children of every container in order. Putting the records a scan publishes into an
index where the identities from `pl.id` on are unused succeeds and leaves the document indexed
(`puts_indexed`); with the scan of a valid document this gives `scanNbt_raw`.
-/

namespace Cantrip.Nbt

open Lib Function List

namespace MemoryNbtIndex

/-- No identity from `n` on has been used. -/
def Fresh (ix : MemoryNbtIndex) (n : Nat) : Prop := ∀ i, n ≤ i → ix.nodes i = none ∧ ix.lists i = []

theorem fresh_empty : Fresh empty 0 := fun _ _ => ⟨rfl, rfl⟩

theorem assign_length (children : List (Option Nat)) (id : Nat) :
    assign children children.length id = children ++ [some id] := by
  have h : children.length + 1 - children.length = 1 := by omega
  rw [assign, h]
  simp

variable {ix : MemoryNbtIndex} {node : NbtNode}

theorem put_root (hnew : ix.nodes node.id = none) (hp : node.parent = none) :
    ix.put node = .ok { ix with nodes := update ix.nodes node.id (some node) } := by
  simp [put, hnew, hp]

theorem put_child {p : Nat} (hnew : ix.nodes node.id = none)
    (hp : node.parent = some p) (hord : node.ordinal = (ix.lists p).length) :
    ix.put node = .ok ⟨update ix.nodes node.id (some node),
      update ix.lists p (ix.lists p ++ [some node.id])⟩ := by
  simp [put, hnew, hp, hord, assign_length]

theorem put_again {previous : NbtNode} (hold : ix.nodes node.id = some previous)
    (hp : previous.parent = node.parent) (hord : previous.ordinal = node.ordinal) :
    ix.put node = .ok { ix with nodes := update ix.nodes node.id (some node) } := by
  simp [put, hold, hp, hord]

end MemoryNbtIndex

open MemoryNbtIndex

namespace Raw

/-- The identities of the children of a container, the first of them being `id`. -/
def itemIds (id : Nat) : List Raw → List Nat
  | [] => []
  | r :: rs => id :: itemIds (id + r.size) rs

def entryIds (id : Nat) : List (RawText × Raw) → List Nat
  | [] => []
  | (_, r) :: es => id :: entryIds (id + r.size) es

/-- The identities of the children of a node that stands at `pl`. -/
def childIds (pl : Place) : Raw → List Nat
  | list _ _ _ items => itemIds (pl.id + 1) items
  | compound entries => entryIds (pl.id + 1) entries
  | _ => []

theorem size_pos (r : Raw) : 0 < r.size := by
  cases r <;> simp [size]

end Raw

mutual

/-- The index holds the document `r` at `pl`. -/
def Indexed (ix : MemoryNbtIndex) (pl : Place) : Raw → Prop
  | r@(.scalar ..) => ix.nodes pl.id = some (r.record pl) ∧ ix.lists pl.id = []
  | r@(.string _) => ix.nodes pl.id = some (r.record pl) ∧ ix.lists pl.id = []
  | r@(.array ..) => ix.nodes pl.id = some (r.record pl) ∧ ix.lists pl.id = []
  | r@(.list _ lengthBytes _ items) =>
    ix.nodes pl.id = some (r.record pl) ∧ ix.lists pl.id = (r.childIds pl).map some ∧
      IndexedItems ix pl.id 0 (pl.id + 1) (pl.payload + 1 + lengthBytes.length) items
  | r@(.compound entries) =>
    ix.nodes pl.id = some (r.record pl) ∧ ix.lists pl.id = (r.childIds pl).map some ∧
      IndexedEntries ix pl.id 0 (pl.id + 1) pl.payload entries

def IndexedItems (ix : MemoryNbtIndex) (parent ordinal id at_ : Nat) : List Raw → Prop
  | [] => True
  | r :: rs =>
    Indexed ix (Place.item parent ordinal id at_) r ∧
      IndexedItems ix parent (ordinal + 1) (id + r.size) (at_ + r.payload.length) rs

def IndexedEntries (ix : MemoryNbtIndex) (parent ordinal id at_ : Nat) : List (RawText × Raw) → Prop
  | [] => True
  | (name, r) :: es =>
    Indexed ix (Place.entry parent ordinal id at_ name) r ∧
      IndexedEntries ix parent (ordinal + 1) (id + r.size) (at_ + 1 + name.bytes.length + r.payload.length) es

end

variable {ix : MemoryNbtIndex}

theorem Indexed.node {pl : Place} {r : Raw} (h : Indexed ix pl r) : ix.nodes pl.id = some (r.record pl) := by
  cases r <;> exact h.1

theorem Indexed.lists {pl : Place} {r : Raw} (h : Indexed ix pl r) : ix.lists pl.id = (r.childIds pl).map some := by
  cases r with
  | scalar | string | array => exact h.2
  | list | compound => exact h.2.1

def AgreeOn (ix ix' : MemoryNbtIndex) (low high : Nat) : Prop :=
  ∀ i, low ≤ i → i < high → ix'.nodes i = ix.nodes i ∧ ix'.lists i = ix.lists i

theorem AgreeOn.mono {ix' : MemoryNbtIndex} {low high low' high' : Nat} (h : AgreeOn ix ix' low high)
    (hl : low ≤ low') (hh : high' ≤ high) : AgreeOn ix ix' low' high' :=
  fun i h1 h2 => h i (by omega) (by omega)

mutual

theorem Indexed.congr {ix ix' : MemoryNbtIndex} (r : Raw) (pl : Place)
    (hag : AgreeOn ix ix' pl.id (pl.id + r.size)) (h : Indexed ix pl r) : Indexed ix' pl r := by
  have hself := hag pl.id le_rfl (by have := r.size_pos; omega)
  match r with
  | .scalar .. => exact ⟨hself.1.trans h.1, hself.2.trans h.2⟩
  | .string _ => exact ⟨hself.1.trans h.1, hself.2.trans h.2⟩
  | .array .. => exact ⟨hself.1.trans h.1, hself.2.trans h.2⟩
  | .list _ lengthBytes _ items =>
    exact ⟨hself.1.trans h.1, hself.2.trans h.2.1,
      IndexedItems.congr items _ _ _ _ (hag.mono (by omega) (by simp only [Raw.size]; omega)) h.2.2⟩
  | .compound entries =>
    exact ⟨hself.1.trans h.1, hself.2.trans h.2.1,
      IndexedEntries.congr entries _ _ _ _ (hag.mono (by omega) (by simp only [Raw.size]; omega)) h.2.2⟩

theorem IndexedItems.congr {ix ix' : MemoryNbtIndex} (items : List Raw) (parent ordinal id at_ : Nat)
    (hag : AgreeOn ix ix' id (id + Raw.sizes items)) (h : IndexedItems ix parent ordinal id at_ items) :
    IndexedItems ix' parent ordinal id at_ items := by
  match items with
  | [] => trivial
  | r :: rs =>
    simp only [Raw.sizes] at hag
    exact ⟨Indexed.congr r _ (hag.mono le_rfl (by simp only [Place.item]; omega)) h.1,
      IndexedItems.congr rs _ _ _ _ (hag.mono (by omega) (by omega)) h.2⟩

theorem IndexedEntries.congr {ix ix' : MemoryNbtIndex} (entries : List (RawText × Raw)) (parent ordinal id at_ : Nat)
    (hag : AgreeOn ix ix' id (id + Raw.entriesSize entries)) (h : IndexedEntries ix parent ordinal id at_ entries) :
    IndexedEntries ix' parent ordinal id at_ entries := by
  match entries with
  | [] => trivial
  | (name, r) :: es =>
    simp only [Raw.entriesSize] at hag
    exact ⟨Indexed.congr r _ (hag.mono le_rfl (by simp only [Place.entry]; omega)) h.1,
      IndexedEntries.congr es _ _ _ _ (hag.mono (by omega) (by omega)) h.2⟩

end

/-! ## Putting the records of a scan -/

/-- What the records of one document leave of the rest of the index: nothing below `pl.id` changes but
the list of the parent, which gains `pl.id`, and the identities past the document stay unused. -/
structure Extends (ix ix' : MemoryNbtIndex) (pl : Place) (size : Nat) : Prop where
  fresh : Fresh ix' (pl.id + size)
  nodes : ∀ i < pl.id, ix'.nodes i = ix.nodes i
  lists : ∀ i < pl.id, some i ≠ pl.parent → ix'.lists i = ix.lists i
  parent : ∀ p, pl.parent = some p → ix'.lists p = ix.lists p ++ [some pl.id]

/-- A place whose parent is known and waits for exactly this child. -/
def Ready (ix : MemoryNbtIndex) (pl : Place) : Prop :=
  ∀ p, pl.parent = some p → p < pl.id ∧ (ix.lists p).length = pl.ordinal

variable {ids : List Nat} {ix : MemoryNbtIndex} {parent : Nat} {pl : Place}

theorem put_first {node : NbtNode} (hfresh : Fresh ix pl.id) (hready : Ready ix pl)
    (hid : node.id = pl.id) (hp : node.parent = pl.parent) (ho : node.ordinal = pl.ordinal) :
    ∃ ix', ix.put node = .ok ix' ∧ Extends ix ix' pl 1 ∧ ix'.nodes pl.id = some node ∧ ix'.lists pl.id = [] := by
  have hnew : ix.nodes node.id = none := by rw [hid]; exact (hfresh pl.id le_rfl).1
  cases hparent : pl.parent with
  | none =>
    refine ⟨_, put_root hnew (by rw [hp, hparent]), ⟨?_, ?_, ?_, ?_⟩, ?_, ?_⟩
    · intro i hi
      have := hfresh i (by omega)
      simp only [hid, update_of_ne (show i ≠ pl.id by omega)]
      exact this
    · intro i hi
      simp only [hid, update_of_ne (show i ≠ pl.id by omega)]
    · intro i hi _
      rfl
    · intro p h
      rw [hparent] at h
      cases h
    · simp only [hid, update_self]
    · exact (hfresh pl.id le_rfl).2
  | some p =>
    obtain ⟨hlt, hlen⟩ := hready p hparent
    refine ⟨_, put_child hnew (by rw [hp, hparent]) (by rw [ho, hlen]), ⟨?_, ?_, ?_, ?_⟩, ?_, ?_⟩
    · intro i hi
      have := hfresh i (by omega)
      simp only [hid, update_of_ne (show i ≠ pl.id by omega), update_of_ne (show i ≠ p by omega)]
      exact this
    · intro i hi
      simp only [hid, update_of_ne (show i ≠ pl.id by omega)]
    · intro i hi hne
      have : i ≠ p := by
        rintro rfl
        exact hne hparent.symm
      simp only [update_of_ne this]
    · intro q hq
      rw [hparent] at hq
      cases hq
      simp only [update_self, hid]
    · simp only [hid, update_self]
    · simp only [update_of_ne (show pl.id ≠ p by omega)]
      exact (hfresh pl.id le_rfl).2

theorem put_later (node previous : NbtNode)
    (hold : ix.nodes pl.id = some previous) (hid : node.id = pl.id) (hp : previous.parent = node.parent)
    (ho : previous.ordinal = node.ordinal) :
    ∃ ix', ix.put node = .ok ix' ∧ ix'.nodes pl.id = some node ∧ (∀ i, i ≠ pl.id → ix'.nodes i = ix.nodes i) ∧
      ∀ i, ix'.lists i = ix.lists i := by
  refine ⟨_, put_again (by rw [hid]; exact hold) hp ho, ?_, ?_, fun i => rfl⟩
  · simp only [hid, update_self]
  · intro i hi
    simp only [hid, update_of_ne hi]

theorem foldlM_cons_eq {τ : Type} {put : τ → NbtNode → Except NbtError τ} {a : NbtNode} {b : List NbtNode} {s m : τ}
    (h : put s a = .ok m) : (a :: b).foldlM put s = b.foldlM put m := by
  rw [foldlM_cons, h]
  rfl

theorem foldlM_append_eq {τ : Type} {put : τ → NbtNode → Except NbtError τ} {a b : List NbtNode} {s m : τ}
    (h : a.foldlM put s = .ok m) : (a ++ b).foldlM put s = b.foldlM put m := by
  rw [foldlM_append, h]
  rfl

theorem foldlM_singleton_eq {τ : Type} {put : τ → NbtNode → Except NbtError τ} {a : NbtNode} {s m : τ}
    (h : put s a = .ok m) : [a].foldlM put s = .ok m := by
  rw [foldlM_cons_eq h]
  rfl

theorem Raw.record_id (r : Raw) (pl : Place) : (r.record pl).id = pl.id := by cases r <;> rfl

theorem Raw.record_parent (r : Raw) (pl : Place) : (r.record pl).parent = pl.parent := by cases r <;> rfl

theorem Raw.record_ordinal (r : Raw) (pl : Place) : (r.record pl).ordinal = pl.ordinal := by cases r <;> rfl

theorem close_node {ix₁ ix₂ : MemoryNbtIndex} {r : Raw} {n : Nat} (hready : Ready ix pl) (h₁ : Extends ix ix₁ pl 1)
    (hnode₁ : ix₁.nodes pl.id = some (r.opened pl)) (hfresh₂ : Fresh ix₂ (pl.id + 1 + n))
    (hnodes₂ : ∀ i < pl.id + 1, ix₂.nodes i = ix₁.nodes i)
    (hlists₂ : ∀ i < pl.id, ix₂.lists i = ix₁.lists i) :
    ∃ ix', ix₂.put (r.record pl) = .ok ix' ∧ Extends ix ix' pl (1 + n) ∧ ix'.nodes pl.id = some (r.record pl) ∧
      (∀ i, ix'.lists i = ix₂.lists i) ∧ AgreeOn ix₂ ix' (pl.id + 1) (pl.id + 1 + n) := by
  have hopen : (r.opened pl).parent = pl.parent ∧ (r.opened pl).ordinal = pl.ordinal := by cases r <;> exact ⟨rfl, rfl⟩
  obtain ⟨ix', hput, hself, hnodes, hlists⟩ := put_later (r.record pl) (r.opened pl)
    (by rw [hnodes₂ pl.id (by omega)]; exact hnode₁) (r.record_id pl)
    (by rw [hopen.1, r.record_parent]) (by rw [hopen.2, r.record_ordinal])
  refine ⟨ix', hput, ⟨?_, ?_, ?_, ?_⟩, hself, hlists, ?_⟩
  · intro i hi
    have := hfresh₂ i (by omega)
    rw [hnodes i (by omega), hlists i]
    exact this
  · intro i hi
    rw [hnodes i (by omega), hnodes₂ i (by omega), h₁.nodes i hi]
  · intro i hi hne
    rw [hlists i, hlists₂ i hi, h₁.lists i hi hne]
  · intro p hp
    rw [hlists p]
    rw [hlists₂ p (hready p hp).1, h₁.parent p hp]
  · intro i h1 _
    exact ⟨hnodes i (by omega), hlists i⟩

/-- What the records of a run of children leave: the parent's list gains their identities. -/
structure Grows (ix ix' : MemoryNbtIndex) (parent id size : Nat) (ids : List Nat) : Prop where
  fresh : Fresh ix' (id + size)
  nodes : ∀ i < id, ix'.nodes i = ix.nodes i
  lists : ∀ i < id, i ≠ parent → ix'.lists i = ix.lists i
  parent : ix'.lists parent = ix.lists parent ++ ids.map some

theorem Grows.refl {id : Nat} (h : Fresh ix id) : Grows ix ix parent id 0 [] :=
  ⟨h, fun _ _ => rfl, fun _ _ _ => rfl, by simp⟩

theorem Extends.trans_grows {ix₁ ix₂ : MemoryNbtIndex} {size size' : Nat}
    (hp : pl.parent = some parent) (h : Extends ix ix₁ pl size)
    (h' : Grows ix₁ ix₂ parent (pl.id + size) size' ids) :
    Grows ix ix₂ parent pl.id (size + size') (pl.id :: ids) := by
  refine ⟨?_, ?_, ?_, ?_⟩
  · rw [← Nat.add_assoc]
    exact h'.fresh
  · intro i hi
    rw [h'.nodes i (by omega), h.nodes i hi]
  · intro i hi hne
    rw [h'.lists i (by omega) hne, h.lists i hi]
    rw [hp]
    simpa using hne
  · rw [h'.parent, h.parent parent hp, append_assoc]
    rfl

theorem Grows.agreeOn {ix' : MemoryNbtIndex} {id size low : Nat}
    (h : Grows ix ix' parent id size ids) (hlt : parent < low) : AgreeOn ix ix' low id :=
  fun i h1 h2 => ⟨h.nodes i h2, h.lists i h2 (by omega)⟩

theorem container_indexed (r : Raw) (childPuts : List NbtNode) {n : Nat}
    (children : MemoryNbtIndex → Prop) (hfresh : Fresh ix pl.id) (hready : Ready ix pl) (hids : r.childIds pl = ids)
    (hchildren : ∀ ix₁, Fresh ix₁ (pl.id + 1) → ix₁.lists pl.id = [] →
      ∃ ix₂, childPuts.foldlM put ix₁ = .ok ix₂ ∧ children ix₂ ∧ Grows ix₁ ix₂ pl.id (pl.id + 1) n ids)
    (hcongr : ∀ ix₁ ix₂, AgreeOn ix₁ ix₂ (pl.id + 1) (pl.id + 1 + n) → children ix₁ → children ix₂) :
    ∃ ix', (r.opened pl :: childPuts ++ [r.record pl]).foldlM put ix = .ok ix' ∧
      (ix'.nodes pl.id = some (r.record pl) ∧ ix'.lists pl.id = (r.childIds pl).map some ∧ children ix') ∧
      Extends ix ix' pl (1 + n) := by
  have hopen : (r.opened pl).id = pl.id ∧ (r.opened pl).parent = pl.parent ∧ (r.opened pl).ordinal = pl.ordinal := by
    cases r <;> exact ⟨rfl, rfl, rfl⟩
  obtain ⟨ix₁, hput₁, hext₁, hnode₁, hlists₁⟩ := put_first hfresh hready hopen.1 hopen.2.1 hopen.2.2
  obtain ⟨ix₂, hput₂, hchild₂, hgrow⟩ := hchildren ix₁ hext₁.fresh hlists₁
  obtain ⟨ix', hput', hext', hnode', hlists', hagree⟩ := close_node hready hext₁ hnode₁ hgrow.fresh hgrow.nodes
    (fun i hi => hgrow.lists i (by omega) (by omega))
  refine ⟨ix', ?_, ⟨hnode', ?_, hcongr ix₂ ix' hagree hchild₂⟩, hext'⟩
  · rw [cons_append, foldlM_cons_eq hput₁, foldlM_append_eq hput₂]
    exact foldlM_singleton_eq hput'
  · rw [hlists', hgrow.parent, hlists₁, hids]
    rfl

theorem leaf_indexed (r : Raw) (hfresh : Fresh ix pl.id) (hready : Ready ix pl) :
    ∃ ix', [r.record pl].foldlM put ix = .ok ix' ∧
      (ix'.nodes pl.id = some (r.record pl) ∧ ix'.lists pl.id = []) ∧ Extends ix ix' pl 1 := by
  obtain ⟨ix', hput, hext, hnode, hlists⟩ := put_first hfresh hready (r.record_id pl) (r.record_parent pl)
    (r.record_ordinal pl)
  exact ⟨ix', foldlM_singleton_eq hput, ⟨hnode, hlists⟩, hext⟩

mutual

theorem puts_indexed (r : Raw) (pl : Place) (ix : MemoryNbtIndex) (hfresh : Fresh ix pl.id) (hready : Ready ix pl) :
    ∃ ix', (r.puts pl).foldlM put ix = .ok ix' ∧ Indexed ix' pl r ∧ Extends ix ix' pl r.size := by
  match r with
  | .scalar type bs => exact leaf_indexed (.scalar type bs) hfresh hready
  | .string text => exact leaf_indexed (.string text) hfresh hready
  | .array type lengthBytes content length =>
    obtain ⟨ix', hput, ⟨hnode, hlists, -⟩, hext⟩ := container_indexed (n := 0) (.array type lengthBytes content length)
      [] (fun _ => True) hfresh hready rfl
      (fun ix₁ h₁ _ => ⟨ix₁, rfl, trivial, Grows.refl h₁⟩) (fun _ _ _ h => h)
    exact ⟨ix', hput, ⟨hnode, hlists⟩, hext⟩
  | .list elementType lengthBytes declared items =>
    exact container_indexed (.list elementType lengthBytes declared items) _
      (fun ix => IndexedItems ix pl.id 0 (pl.id + 1) (pl.payload + 1 + lengthBytes.length) items)
      hfresh hready rfl
      (fun ix₁ h₁ hl => itemsPuts_indexed items pl.id 0 (pl.id + 1) (pl.payload + 1 + lengthBytes.length) ix₁ h₁
        (by omega) (by rw [hl]; rfl))
      (fun ix₁ ix₂ hag h => IndexedItems.congr items _ _ _ _ hag h)
  | .compound entries =>
    exact container_indexed (.compound entries) _
      (fun ix => IndexedEntries ix pl.id 0 (pl.id + 1) pl.payload entries) hfresh hready rfl
      (fun ix₁ h₁ hl => entriesPuts_indexed entries pl.id 0 (pl.id + 1) pl.payload ix₁ h₁ (by omega)
        (by rw [hl]; rfl))
      (fun ix₁ ix₂ hag h => IndexedEntries.congr entries _ _ _ _ hag h)

theorem itemsPuts_indexed (items : List Raw) (parent ordinal id at_ : Nat) (ix : MemoryNbtIndex) (hfresh : Fresh ix id)
    (hlt : parent < id) (hlen : (ix.lists parent).length = ordinal) :
    ∃ ix', (Raw.itemsPuts parent ordinal id at_ items).foldlM put ix = .ok ix' ∧
      IndexedItems ix' parent ordinal id at_ items ∧
      Grows ix ix' parent id (Raw.sizes items) (Raw.itemIds id items) := by
  match items with
  | [] => exact ⟨ix, rfl, trivial, Grows.refl hfresh⟩
  | r :: rs =>
    obtain ⟨ix₁, hput₁, hix₁, hext⟩ := puts_indexed r (Place.item parent ordinal id at_) ix hfresh
      (by rintro p ⟨⟩; exact ⟨hlt, hlen⟩)
    have hlists : ix₁.lists parent = ix.lists parent ++ [some id] := hext.parent parent rfl
    obtain ⟨ix₂, hput₂, hix₂, hgrow⟩ := itemsPuts_indexed rs parent (ordinal + 1) (id + r.size)
      (at_ + r.payload.length) ix₁ hext.fresh (by omega) (by rw [hlists]; simp [hlen])
    refine ⟨ix₂, ?_, ⟨?_, hix₂⟩, hext.trans_grows rfl hgrow⟩
    · rw [Raw.itemsPuts, foldlM_append_eq hput₁, hput₂]
    · exact Indexed.congr r _ (hgrow.agreeOn hlt) hix₁

theorem entriesPuts_indexed (entries : List (RawText × Raw)) (parent ordinal id at_ : Nat) (ix : MemoryNbtIndex)
    (hfresh : Fresh ix id) (hlt : parent < id) (hlen : (ix.lists parent).length = ordinal) :
    ∃ ix', (Raw.entriesPuts parent ordinal id at_ entries).foldlM put ix = .ok ix' ∧
      IndexedEntries ix' parent ordinal id at_ entries ∧
      Grows ix ix' parent id (Raw.entriesSize entries) (Raw.entryIds id entries) := by
  match entries with
  | [] => exact ⟨ix, rfl, trivial, Grows.refl hfresh⟩
  | (name, r) :: es =>
    obtain ⟨ix₁, hput₁, hix₁, hext⟩ := puts_indexed r (Place.entry parent ordinal id at_ name) ix hfresh
      (by rintro p ⟨⟩; exact ⟨hlt, hlen⟩)
    have hlists : ix₁.lists parent = ix.lists parent ++ [some id] := hext.parent parent rfl
    obtain ⟨ix₂, hput₂, hix₂, hgrow⟩ := entriesPuts_indexed es parent (ordinal + 1) (id + r.size)
      (at_ + 1 + name.bytes.length + r.payload.length) ix₁ hext.fresh (by omega) (by rw [hlists]; simp [hlen])
    refine ⟨ix₂, ?_, ⟨?_, hix₂⟩, hext.trans_grows rfl hgrow⟩
    · rw [Raw.entriesPuts, foldlM_append_eq hput₁, hput₂]
    · exact Indexed.congr r _ (hgrow.agreeOn hlt) hix₁

end

end Cantrip.Nbt
