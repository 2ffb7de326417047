import Cantrip.Nbt.Raw

/-!
# Reading values (`packages/nbt/src/values.ts`, `readNbtRange` of `cursor.ts`)

The index holds byte ranges; names, strings, scalars and pages of numeric arrays are decoded on demand.
Over a source that serves `bytes` every reader returns what the bytes of its range stand for.
-/

namespace Cantrip.Nbt

open Lib List

/-- The loop of `readNbtRange`: every turn reads at least one byte. -/
def readRangeGo (source : NbtByteSource) : Nat → Nat → Nat → Except NbtError Bytes
  | _, _, 0 => .ok []
  | 0, offset, _ + 1 => .error ⟨offset, "Invalid source read length"⟩
  | turns + 1, offset, n + 1 => do
    let length := min NBT_CHUNK_BYTES (n + 1)
    let chunk ← source.read offset length
    if chunk = [] ∨ length < chunk.length then .error ⟨offset, "Invalid source read length"⟩
    else do
      let rest ← readRangeGo source turns (offset + chunk.length) (n + 1 - chunk.length)
      .ok (chunk ++ rest)

def readNbtRange (source : NbtByteSource) (span : NbtSpan) : Except NbtError Bytes := do
  assertRange span.offset span.length
  if NBT_CHUNK_BYTES < span.length then .error ⟨span.offset, "Use bounded pages for byte ranges"⟩
  else readRangeGo source span.length span.offset span.length

structure NbtText where
  text : Utf16
  truncated : Bool
  nextByte : Nat
  deriving DecidableEq, Repr

/-- Walk back over continuation bytes. -/
def characterStart (bytes : Bytes) : Nat → Nat
  | 0 => 0
  | i + 1 => if (bytes.getD (i + 1) 0).toNat &&& 0xc0 = 0x80 then characterStart bytes i else i + 1

/-- The width a lead byte announces. -/
def characterWidth (strings : NbtStrings) (first : Nat) : Nat :=
  if first < 0x80 then 1
  else if first &&& 0xe0 = 0xc0 then 2
  else if first &&& 0xf0 = 0xe0 then 3
  else if strings = .utf8 ∧ first &&& 0xf8 = 0xf0 then 4
  else 1

/-- The length of a page that was cut at `length` bytes, moved back to a complete character. -/
def completeLength (strings : NbtStrings) (bytes : Bytes) (length : Nat) : Nat :=
  let start := characterStart bytes (length - 1)
  if length < start + characterWidth strings (bytes.getD start 0).toNat then start else length

/-- One page of a string. The second call, for a page too small for its first character, always makes
progress, so `retries = 1` is enough. -/
def readNbtTextGo (source : NbtByteSource) (span : NbtSpan) (encoding : NbtEncoding) : Nat → Nat → Except NbtError NbtText
  | retries, maxBytes => do
    let length := min span.length maxBytes
    let bytes ← readNbtRange source ⟨span.offset, length⟩
    let length :=
      if length < span.length ∧ length ≠ 0 then completeLength encoding.strings bytes length else length
    if length = 0 ∧ span.length ≠ 0 then
      match retries with
      | 0 => .error ⟨span.offset, "Invalid string page size"⟩
      | retries + 1 => readNbtTextGo source span encoding retries (min span.length 4)
    else do
      let text ← decodeNbtString (bytes.take length) encoding.strings span.offset
      .ok ⟨text, decide (length < span.length), span.offset + length⟩

def readNbtText (source : NbtByteSource) (span : NbtSpan) (encoding : NbtEncoding) (maxBytes : Nat) :
    Except NbtError NbtText :=
  if maxBytes < 1 ∨ maxSafeInteger < maxBytes then .error ⟨span.offset, "Invalid string page size"⟩
  else readNbtTextGo source span encoding 1 maxBytes

/-- A decoded scalar; a floating-point number is given by its bit pattern. -/
inductive NbtScalar
  | number (n : Int)
  | bigint (n : Int)
  | float (bits : Nat)
  | double (bits : Nat)
  | text (value : Utf16)
  deriving DecidableEq, Repr

/-- The source `readNbtScalar` decodes from: it ends where the scalar does. -/
def scalarSource (source : NbtByteSource) (endAt : Nat) : NbtByteSource where
  size := some endAt
  read offset length := source.read offset (min length (endAt - offset))

/-- The `switch` of `readNbtScalar`, for a record that ends at `endAt`. -/
def readScalarValue (source : NbtByteSource) (node : NbtNode) (encoding : NbtEncoding) (endAt : Nat) :
    Except NbtError NbtScalar :=
  let reader := nbtCursor (scalarSource source endAt) encoding
  let start : NbtCursor := { position := node.payload }
  match node.type with
  | .byte => (fun r => .number r.1) <$> reader.fixed 1 false start
  | .short => (fun r => .number r.1) <$> reader.fixed 2 false start
  | .int => (fun r => .number r.1) <$> reader.int encoding start
  | .long =>
    (fun r => .bigint r.1) <$> if encoding.varints then reader.varint 64 true start else reader.fixed 8 false start
  | .float => (fun bs => .float (getUint encoding.isLittle bs)) <$> readNbtRange source ⟨node.payload, 4⟩
  | .double => (fun bs => .double (getUint encoding.isLittle bs)) <$> readNbtRange source ⟨node.payload, 8⟩
  | _ => .error ⟨node.start, "Tag is not a scalar"⟩

def readNbtScalar (source : NbtByteSource) (node : NbtNode) (encoding : NbtEncoding) : Except NbtError (NbtScalar × Bool) :=
  if node.type = .string then do
    -- the record of a string always has its range
    let text ← readNbtText source (node.data.getD ⟨0, 0⟩) encoding 65535
    .ok (.text text.text, text.truncated)
  else if node.type.toNat < NbtTag.byte.toNat ∨ NbtTag.double.toNat < node.type.toNat then
    .error ⟨node.start, "Tag is not a scalar"⟩
  else
    match node.endAt with
    | none => .error ⟨node.start, "Scalar index record is incomplete"⟩
    | some endAt =>
      if endAt < node.payload ∨ 10 < endAt - node.payload then .error ⟨node.start, "Scalar index record is incomplete"⟩
      else (·, false) <$> readScalarValue source node encoding endAt

def pageElements (little : Bool) (width : Nat) (bytes : Bytes) (count : Nat) : List NbtScalar :=
  (List.range count).map fun i =>
    let element := getInt little (slice bytes (i * width) width)
    if width = 8 then .bigint element else .number element

def readNbtArrayPage (source : NbtByteSource) (node : NbtNode) (encoding : NbtEncoding) (offset limit : Nat) :
    Except NbtError (List NbtScalar) := do
  assertRange offset limit
  if 4096 < limit then .error ⟨node.start, "Array pages are limited to 4096 elements"⟩
  else if node.type.isArray then
    match node.data, node.length with
    | some data, some length => do
      let width := node.type.width
      let count := min limit (length - offset)
      let bytes ← readNbtRange source ⟨data.offset + min offset length * width, count * width⟩
      .ok (pageElements encoding.isLittle width bytes count)
    | _, _ => .error ⟨node.start, "Tag is not a numeric array"⟩
  else .error ⟨node.start, "Tag is not a numeric array"⟩

section Conforming

variable {source : NbtByteSource} {bytes : Bytes}

theorem readRangeGo_eq (hsrc : Conforms source bytes) (turns : Nat) :
    ∀ offset n, n ≤ turns → offset + n ≤ bytes.length → readRangeGo source turns offset n = .ok (slice bytes offset n) := by
  induction turns with
  | zero =>
    intro offset n hn _
    have : n = 0 := by omega
    subst this
    simp [readRangeGo]
  | succ turns ih =>
    intro offset n hn hle
    match n with
    | 0 => simp [readRangeGo]
    | n + 1 =>
      obtain ⟨chunk, hread, hprefix, hempty⟩ := hsrc.read_ok offset (min NBT_CHUNK_BYTES (n + 1)) (by omega) (by omega)
      have hslice : (slice bytes offset (min NBT_CHUNK_BYTES (n + 1))).length = min NBT_CHUNK_BYTES (n + 1) :=
        slice_length bytes (by omega)
      have hchunk : chunk.length ≤ min NBT_CHUNK_BYTES (n + 1) := hslice ▸ hprefix.length_le
      have hne : chunk ≠ [] := by
        intro h
        rw [hempty h, length_nil] at hslice
        have : 0 < NBT_CHUNK_BYTES := by decide
        omega
      have hpos := length_pos_iff.mpr hne
      have hchunk_eq : chunk = slice bytes offset chunk.length := by
        have htake := prefix_iff_eq_take.mp hprefix
        rw [slice, take_take, Nat.min_eq_left hchunk] at htake
        exact htake
      have hjoin : chunk ++ slice bytes (offset + chunk.length) (n + 1 - chunk.length) = slice bytes offset (n + 1) := by
        have happ := slice_append_slice bytes offset chunk.length (n + 1 - chunk.length)
        rw [← hchunk_eq, Nat.add_sub_of_le (by omega)] at happ
        exact happ
      rw [readRangeGo]
      simp only [hread, bind, Except.bind]
      rw [if_neg (by simp only [hne, false_or]; omega), ih _ _ (by omega) (by omega)]
      simp only [hjoin]

theorem readNbtRange_eq (hsrc : Conforms source bytes) (span : NbtSpan) (hchunk : span.length ≤ NBT_CHUNK_BYTES)
    (hend : span.offset + span.length ≤ bytes.length) :
    readNbtRange source span = .ok (slice bytes span.offset span.length) := by
  have hsafe := hsrc.addressable
  rw [readNbtRange, assertRange_ok (by omega)]
  simp only [bind, Except.bind]
  rw [if_neg (by omega)]
  exact readRangeGo_eq hsrc _ _ _ le_rfl hend

theorem readNbtText_eq (hsrc : Conforms source bytes) {span : NbtSpan} {encoding : NbtEncoding} {text : Utf16}
    (hpage : span.length ≤ 65535) (hend : span.offset + span.length ≤ bytes.length)
    (htext : decodeNbtString (slice bytes span.offset span.length) encoding.strings span.offset = .ok text) :
    readNbtText source span encoding 65535 = .ok ⟨text, false, span.offset + span.length⟩ := by
  have hmin : min span.length 65535 = span.length := by omega
  have hrange := readNbtRange_eq hsrc span (by rw [NBT_CHUNK_BYTES]; omega) hend
  have hfull : (slice bytes span.offset span.length).take span.length = slice bytes span.offset span.length := by
    simp [slice, take_take]
  rw [readNbtText, if_neg (by decide), readNbtTextGo.eq_def]
  simp only [hmin, hrange, bind, Except.bind, lt_irrefl, false_and, if_false, hfull, htext, decide_false]
  rw [if_neg (by omega)]

theorem scalarSource_conforms (hsrc : Conforms source bytes) {endAt : Nat} (hend : endAt ≤ bytes.length) :
    Conforms (scalarSource source endAt) (bytes.take endAt) where
  addressable := by
    have := hsrc.addressable
    rw [length_take]
    omega
  size_eq n hn := by
    cases hn
    rw [length_take]
    omega
  read_ok offset length hoffset hlength := by
    rw [length_take] at hoffset
    have hslice : slice (bytes.take endAt) offset length = slice bytes offset (min length (endAt - offset)) := by
      simp only [slice, drop_take, take_take]
    rw [hslice]
    exact hsrc.read_ok offset (min length (endAt - offset)) (by omega) (by omega)
  read_past offset length hlt hlength hsafe := by
    rw [length_take] at hlt
    have hzero : min length (endAt - offset) = 0 := by omega
    simp only [scalarSource, hzero]
    rcases Nat.lt_or_ge bytes.length offset with h | h
    · exact hsrc.read_past offset 0 h (by omega) (by omega)
    · obtain ⟨chunk, hread, hprefix, -⟩ := hsrc.read_ok offset 0 h (by omega)
      rw [slice_zero] at hprefix
      rw [hread, prefix_nil.mp hprefix]

end Conforming

end Cantrip.Nbt
