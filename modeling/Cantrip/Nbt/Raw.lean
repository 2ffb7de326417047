import Cantrip.Nbt.Scan

/-!
# Documents as their bytes spell them

`Raw` is a document with all its bytes: every length field as it was written, which need not be the
shortest or even a canonical one. `Raw.payload` puts the bytes together again, `Raw.Valid` says that
every field reads as what the node claims, and `Raw.puts` lists the index records a scan of the node
publishes, in order. A scan of the bytes of a valid `Raw` document succeeds and publishes exactly
these records (`scanNbt_raw`).
-/

namespace Cantrip.Nbt

open Lib List

structure RawText where
  lengthBytes : Bytes
  content : Bytes
  deriving DecidableEq, Repr

def RawText.bytes (t : RawText) : Bytes := t.lengthBytes ++ t.content

inductive Raw
  | scalar (type : NbtTag) (payload : Bytes)
  | string (text : RawText)
  | array (type : NbtTag) (lengthBytes content : Bytes) (length : Nat)
  | list (elementType : NbtTag) (lengthBytes : Bytes) (declared : Int) (items : List Raw)
  | compound (entries : List (RawText × Raw))

namespace Raw

def type : Raw → NbtTag
  | scalar t _ => t
  | string _ => .string
  | array t _ _ _ => t
  | list .. => .list
  | compound _ => .compound

mutual

/-- The bytes of a node after its header. -/
def payload : Raw → Bytes
  | scalar _ bs => bs
  | string t => t.bytes
  | array _ lengthBytes content _ => lengthBytes ++ content
  | list elementType lengthBytes _ items => elementType.code :: lengthBytes ++ payloads items
  | compound entries => entriesBytes entries ++ [NbtTag.end.code]

def payloads : List Raw → Bytes
  | [] => []
  | r :: rs => payload r ++ payloads rs

def entriesBytes : List (RawText × Raw) → Bytes
  | [] => []
  | (name, r) :: es => r.type.code :: name.bytes ++ payload r ++ entriesBytes es

end

mutual

/-- Tags in the document. -/
def size : Raw → Nat
  | scalar .. | string _ | array .. => 1
  | list _ _ _ items => 1 + sizes items
  | compound entries => 1 + entriesSize entries

def sizes : List Raw → Nat
  | [] => 0
  | r :: rs => size r + sizes rs

def entriesSize : List (RawText × Raw) → Nat
  | [] => 0
  | (_, r) :: es => size r + entriesSize es

end

mutual

/-- Nested containers. -/
def depth : Raw → Nat
  | scalar .. | string _ | array .. => 0
  | list _ _ _ items => 1 + depths items
  | compound entries => 1 + entriesDepth entries

def depths : List Raw → Nat
  | [] => 0
  | r :: rs => max (depth r) (depths rs)

def entriesDepth : List (RawText × Raw) → Nat
  | [] => 0
  | (_, r) :: es => max (depth r) (entriesDepth es)

end

end Raw

/-! ## Fields at a position -/

/-- The bytes `part` stand at offset `p`. -/
def Holds (bytes : Bytes) (p : Nat) (part : Bytes) : Prop :=
  p + part.length ≤ bytes.length ∧ slice bytes p part.length = part

theorem holds_append {bytes : Bytes} {p : Nat} {a b : Bytes} :
    Holds bytes p (a ++ b) ↔ Holds bytes p a ∧ Holds bytes (p + a.length) b := by
  unfold Holds
  rw [length_append, ← slice_append_slice]
  constructor
  · rintro ⟨hle, heq⟩
    have hlen : (slice bytes p a.length).length = a.length := slice_length bytes (by omega)
    obtain ⟨h1, h2⟩ := append_inj heq hlen
    exact ⟨⟨by omega, h1⟩, by omega, h2⟩
  · rintro ⟨⟨-, h1⟩, hle, h2⟩
    exact ⟨by omega, by rw [h1, h2]⟩

theorem holds_cons {bytes : Bytes} {p : Nat} {b : UInt8} {bs : Bytes} :
    Holds bytes p (b :: bs) ↔ Holds bytes p [b] ∧ Holds bytes (p + 1) bs := by
  rw [show b :: bs = [b] ++ bs by rfl, holds_append]
  rfl

theorem holds_self (bytes : Bytes) : Holds bytes 0 bytes := by
  simp [Holds, slice]

theorem flatByte_holds {bytes : Bytes} {p : Nat} {b : UInt8} (h : Holds bytes p [b]) : flatByte bytes p = .ok (b, p + 1) := by
  obtain ⟨hle, heq⟩ := h
  rw [length_singleton] at hle heq
  rw [flatByte_eq bytes (by omega)]
  have h0 := congrArg (·[0]?) heq
  rw [slice_getElem? _ _ _ 0 (by decide), Nat.add_zero, getElem?_eq_getElem (by omega)] at h0
  simpa using h0

theorem flatBytes_holds {bytes : Bytes} {p : Nat} {bs : Bytes} (h : Holds bytes p bs) :
    flatBytes bytes bs.length p = .ok (bs, p + bs.length) := by
  rw [flatBytes_eq bytes h.1, h.2]

section Spells

variable (encoding : NbtEncoding)

/-- The bytes `bs` are read as the zigzag variable-length integer `v` of `bits` bits. -/
def SpellsVarint (bits : Nat) (zigzag : Bool) (bs : Bytes) (v : Int) : Prop :=
  ∀ bytes p known, Holds bytes p bs → (flatCursor bytes known encoding).varint bits zigzag p = .ok (v, p + bs.length)

/-- The bytes `bs` are read as the fixed-width integer `v` of `n` bytes. -/
def SpellsFixed (n : Nat) (unsigned : Bool) (bs : Bytes) (v : Int) : Prop :=
  ∀ bytes p known, Holds bytes p bs → (flatCursor bytes known encoding).fixed n unsigned p = .ok (v, p + bs.length)

/-- The bytes `bs` are read as the 32-bit integer `v` (an array or list length). -/
def SpellsInt (bs : Bytes) (v : Int) : Prop :=
  ∀ bytes p known, Holds bytes p bs → (flatCursor bytes known encoding).int encoding p = .ok (v, p + bs.length)

/-- The length field of `t` is read as the length of its content. -/
def RawText.Valid (t : RawText) : Prop :=
  ∀ bytes p known, Holds bytes p t.lengthBytes → (flatCursor bytes known encoding).stringLength encoding p
      = .ok ((t.content.length : Int), p + t.lengthBytes.length)

def ScalarValid (type : NbtTag) (bs : Bytes) : Prop :=
  match type with
  | .byte => bs.length = 1
  | .short => bs.length = 2
  | .int => if encoding.varints then ∃ v, SpellsVarint encoding 32 true bs v else bs.length = 4
  | .long => if encoding.varints then ∃ v, SpellsVarint encoding 64 true bs v else bs.length = 8
  | .float => bs.length = 4
  | .double => bs.length = 8
  | _ => False

mutual

/-- Every field reads as what the node says it is. -/
def Raw.Valid : Raw → Prop
  | .scalar type bs => ScalarValid encoding type bs
  | .string t => t.Valid encoding
  | .array type lengthBytes content length =>
    type.isArray = true ∧ SpellsInt encoding lengthBytes length ∧ content.length = length * type.width
  | .list elementType lengthBytes declared items =>
    SpellsInt encoding lengthBytes declared ∧ items.length = declared.toNat ∧
      (0 < declared → elementType ≠ .end) ∧ (∀ r ∈ items, r.type = elementType) ∧ ValidItems items
  | .compound entries => ValidEntries entries

def ValidItems : List Raw → Prop
  | [] => True
  | r :: rs => Raw.Valid r ∧ ValidItems rs

def ValidEntries : List (RawText × Raw) → Prop
  | [] => True
  | (name, r) :: es => name.Valid encoding ∧ Raw.Valid r ∧ ValidEntries es

end

end Spells

theorem Raw.type_ne_end {encoding : NbtEncoding} {r : Raw} (h : r.Valid encoding) : r.type ≠ .end := by
  cases r with
  | scalar type bs =>
    intro htype
    simp only [Raw.type] at htype
    subst htype
    simp [Raw.Valid, ScalarValid] at h
  | array type lb content length =>
    intro htype
    simp only [Raw.type] at htype
    subst htype
    simp [Raw.Valid, NbtTag.isArray] at h
  | _ => simp [Raw.type]

/-! ## Records -/

/-- Where a node stands: its identity, its place among its siblings and its byte positions. -/
structure Place where
  id : Nat
  parent : Option Nat
  ordinal : Nat
  name : Option NbtSpan
  start : Nat
  payload : Nat

/-- The record of a node as it is first made. -/
def Place.node (pl : Place) (type : NbtTag) : NbtNode :=
  { id := pl.id, parent := pl.parent, ordinal := pl.ordinal, type := type, name := pl.name, start := pl.start
    payload := pl.payload, endAt := none, childCount := 0 }

/-- The place of a list element. -/
def Place.item (parent ordinal id at_ : Nat) : Place := ⟨id, some parent, ordinal, none, at_, at_⟩

/-- The place of a compound entry whose header starts at `at_`. -/
def Place.entry (parent ordinal id at_ : Nat) (name : RawText) : Place :=
  ⟨id, some parent, ordinal, some ⟨at_ + 1 + name.lengthBytes.length, name.content.length⟩, at_, at_ + 1 + name.bytes.length⟩

namespace Raw

/-- The record of a node before its children are counted and its end is known. -/
def opened (pl : Place) : Raw → NbtNode
  | scalar type _ => pl.node type
  | string t => { pl.node .string with data := some ⟨pl.payload + t.lengthBytes.length, t.content.length⟩ }
  | array type lengthBytes content length =>
    { pl.node type with length := some length, data := some ⟨pl.payload + lengthBytes.length, content.length⟩ }
  | list elementType _ declared items =>
    { pl.node .list with elementType := some elementType, declaredLength := some declared, length := some items.length }
  | compound _ => pl.node .compound

/-- The number of children of a node. -/
def childCount : Raw → Nat
  | list _ _ _ items => items.length
  | compound entries => entries.length
  | _ => 0

def record (pl : Place) (r : Raw) : NbtNode :=
  { r.opened pl with childCount := r.childCount, endAt := some (pl.payload + r.payload.length) }

mutual

def puts (pl : Place) : Raw → List NbtNode
  | r@(scalar ..) => [r.record pl]
  | r@(string _) => [r.record pl]
  | r@(array ..) => [r.opened pl, r.record pl]
  | r@(list _ lengthBytes _ items) =>
    r.opened pl :: itemsPuts pl.id 0 (pl.id + 1) (pl.payload + 1 + lengthBytes.length) items ++ [r.record pl]
  | r@(compound entries) =>
    r.opened pl :: entriesPuts pl.id 0 (pl.id + 1) pl.payload entries ++ [r.record pl]

def itemsPuts (parent ordinal id at_ : Nat) : List Raw → List NbtNode
  | [] => []
  | r :: rs =>
    puts (Place.item parent ordinal id at_) r ++ itemsPuts parent (ordinal + 1) (id + r.size) (at_ + r.payload.length) rs

def entriesPuts (parent ordinal id at_ : Nat) : List (RawText × Raw) → List NbtNode
  | [] => []
  | (name, r) :: es =>
    puts (Place.entry parent ordinal id at_ name) r ++
      entriesPuts parent (ordinal + 1) (id + r.size) (at_ + 1 + name.bytes.length + r.payload.length) es

end

mutual

/-- Turns of the scan loop after the node has been read. -/
def turns : Raw → Nat
  | scalar .. | string _ | array .. => 0
  | list _ _ _ items => itemsTurns items + 1
  | compound entries => entriesTurns entries + 1

def itemsTurns : List Raw → Nat
  | [] => 0
  | r :: rs => 1 + turns r + itemsTurns rs

def entriesTurns : List (RawText × Raw) → Nat
  | [] => 0
  | (_, r) :: es => 1 + turns r + entriesTurns es

end

end Raw

end Cantrip.Nbt
