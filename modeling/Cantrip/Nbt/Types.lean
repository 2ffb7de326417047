import Cantrip.Lib.Varint
import Cantrip.Lib.Utf8

/-!
# NBT types (`packages/nbt/src/types.ts`)

Tags, encodings, byte spans, index records and errors. Identities of scanned nodes are the numbers
`k` of `node:k`; byte offsets and lengths are natural numbers, with `assertRange` keeping them inside
the safe integers.
-/

namespace Cantrip.Nbt

open Lib

/-- Standard NBT tags. `End` is a compound terminator, never a value. -/
inductive NbtTag
  | end | byte | short | int | long | float | double | byteArray | string | list | compound | intArray | longArray
  deriving DecidableEq, Repr

namespace NbtTag

def toNat : NbtTag → Nat
  | .end => 0 | .byte => 1 | .short => 2 | .int => 3 | .long => 4 | .float => 5 | .double => 6
  | .byteArray => 7 | .string => 8 | .list => 9 | .compound => 10 | .intArray => 11 | .longArray => 12

/-- The byte a tag is written as. -/
def code (t : NbtTag) : UInt8 := UInt8.ofNat t.toNat

def ofNat? : Nat → Option NbtTag
  | 0 => some .end | 1 => some .byte | 2 => some .short | 3 => some .int | 4 => some .long
  | 5 => some .float | 6 => some .double | 7 => some .byteArray | 8 => some .string | 9 => some .list
  | 10 => some .compound | 11 => some .intArray | 12 => some .longArray | _ => none

@[simp] theorem ofNat?_toNat (t : NbtTag) : ofNat? t.toNat = some t := by cases t <;> rfl

@[simp] theorem ofNat?_code (t : NbtTag) : ofNat? t.code.toNat = some t := by cases t <;> rfl

theorem toNat_of_ofNat? {n : Nat} {t : NbtTag} (h : ofNat? n = some t) : t.toNat = n := by
  unfold ofNat? at h
  split at h
  all_goals first | (cases h; rfl) | exact absurd h (by simp)

theorem code_of_ofNat? {b : UInt8} {t : NbtTag} (h : ofNat? b.toNat = some t) : t.code = b := by
  apply UInt8.toNat_inj.mp
  have hb := b.toNat_lt
  rw [code, toNat_of_ofNat? h, UInt8.toNat_ofNat']
  omega

theorem toNat_le (t : NbtTag) : t.toNat ≤ 12 := by cases t <;> decide

/-- Compounds and lists (`nbtContainer`). -/
def isContainer (t : NbtTag) : Bool := t == .compound || t == .list

/-- The three numeric arrays (`nbtArray`). -/
def isArray (t : NbtTag) : Bool := t == .byteArray || t == .intArray || t == .longArray

def width (t : NbtTag) : Nat := if t = .byteArray then 1 else if t = .intArray then 4 else 8

end NbtTag

inductive NbtEndian
  | big | little | littleVarint
  deriving DecidableEq, Repr

inductive NbtStrings
  | mutf8 | utf8
  deriving DecidableEq, Repr

structure NbtEncoding where
  endian : NbtEndian
  namedRoot : Bool
  strings : NbtStrings
  bedrockLevel : Bool
  deriving DecidableEq, Repr

/-- `encoding.endian !== "big"`. -/
def NbtEncoding.isLittle (e : NbtEncoding) : Bool := e.endian != .big

/-- `encoding.endian === "little-varint"`. -/
def NbtEncoding.varints (e : NbtEncoding) : Bool := e.endian == .littleVarint

inductive NbtCompression
  | none | gzip | zlib
  deriving DecidableEq, Repr

structure NbtFormat extends NbtEncoding where
  compression : NbtCompression
  deriving DecidableEq, Repr

/-- A byte range of the immutable file bytes. -/
structure NbtSpan where
  offset : Nat
  length : Nat
  deriving DecidableEq, Repr

structure NbtError where
  offset : Nat
  message : String
  deriving DecidableEq, Repr

/-- One index record. No parsed value lives in it: names and values stay byte ranges. -/
structure NbtNode where
  id : Nat
  parent : Option Nat
  ordinal : Nat
  type : NbtTag
  name : Option NbtSpan
  start : Nat
  payload : Nat
  endAt : Option Nat
  childCount : Nat
  elementType : Option NbtTag := none
  length : Option Nat := none
  declaredLength : Option Int := none
  data : Option NbtSpan := none
  deriving DecidableEq, Repr

/-- Immutable snapshot of `size` bytes, when the size is known; short reads are allowed, an empty read
means the end of the bytes. -/
structure NbtByteSource where
  size : Option Nat
  read : Nat → Nat → Except NbtError Bytes

def NBT_CHUNK_BYTES : Nat := 64 * 1024

/-- Bytes of a page of the encrypted cache (`storage/types.ts`). -/
def NBT_PAGE_BYTES : Nat := 64 * 1024

/-- `Number.MAX_SAFE_INTEGER`. -/
def maxSafeInteger : Nat := 2 ^ 53 - 1

def assertTag (type offset : Nat) : Except NbtError NbtTag :=
  match NbtTag.ofNat? type with
  | some t => .ok t
  | none => .error ⟨offset, "Unknown NBT tag type"⟩

@[simp] theorem assertTag_code (t : NbtTag) (offset : Nat) : assertTag t.code.toNat offset = .ok t := by
  simp [assertTag]

theorem assertTag_ok {b : UInt8} {offset : Nat} {t : NbtTag} (h : assertTag b.toNat offset = .ok t) : b = t.code := by
  unfold assertTag at h
  split at h
  · next t' heq =>
    cases h
    exact (NbtTag.code_of_ofNat? heq).symm
  · cases h

/-- Offsets and lengths are natural numbers already; what is left to check is that the end of the range
is a safe integer. -/
def assertRange (offset length : Nat) : Except NbtError Unit :=
  if offset + length ≤ maxSafeInteger then .ok () else .error ⟨offset, "Invalid byte range"⟩

theorem assertRange_ok {offset length : Nat} (h : offset + length ≤ maxSafeInteger) :
    assertRange offset length = .ok () := if_pos h

end Cantrip.Nbt
