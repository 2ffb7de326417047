import Cantrip.Lib.Chunks
import Cantrip.Nbt.Cursor

/-!
# The encoder (`packages/nbt/src/encode.ts`)

`parts` is the generator of the source, run to its end: a machine with the value that is read next and a
stack of open containers, each with the rest of its iterator. A run that throws is an error; what it
yielded before is dropped. `encodeNbtPayload` packs the parts into chunks.

An `NbtValue` is a finite tree, so the check against cyclic values never fires and is left out, as are
cancellation and the tag checks that the types already make.
-/

namespace Cantrip.Nbt

open Lib

/-! ## Values -/

/-- A JavaScript number, as far as the encoder looks at it outside of floating-point tags: an integer, or
a number that fails `Number.isInteger`. -/
inductive JsNumber
  | int (n : Int)
  | nan
  | other
  deriving DecidableEq, Repr

/-- What an iterable of numbers may yield. -/
inductive NbtNumber
  | number (value : JsNumber)
  | bigint (n : Int)
  deriving DecidableEq, Repr

/-- The typed arrays the encoder knows by `instanceof`. -/
inductive ViewKind
  | uint8 | int8 | int32 | uint32 | bigInt64 | bigUint64
  deriving DecidableEq, Repr

namespace ViewKind

/-- `BYTES_PER_ELEMENT`. -/
def width : ViewKind → Nat
  | uint8 | int8 => 1
  | int32 | uint32 => 4
  | bigInt64 | bigUint64 => 8

def unsigned : ViewKind → Bool
  | uint8 | uint32 | bigUint64 => true
  | int8 | int32 | bigInt64 => false

def big : ViewKind → Bool
  | bigInt64 | bigUint64 => true
  | _ => false

def element (kind : ViewKind) (word : BitVec (8 * kind.width)) : Int :=
  if kind.unsigned then word.toNat else word.toInt

end ViewKind

/-- The `value` of an array tag: any iterable, or a view of memory that holds words. -/
inductive ArrayValues
  | iterable (values : List NbtNumber)
  | view (kind : ViewKind) (words : List (BitVec (8 * kind.width)))

namespace ArrayValues

/-- What `Symbol.iterator` gives. -/
def elements : ArrayValues → List NbtNumber
  | iterable values => values
  | view kind words =>
    words.map fun w => if kind.big then .bigint (kind.element w) else .number (.int (kind.element w))

end ArrayValues

inductive NbtValue
  | byte (value : JsNumber)
  | short (value : JsNumber)
  | int (value : JsNumber)
  | long (value : Int)
  | float (value : Float)
  | double (value : Float)
  | string (value : Utf16)
  | byteArray (value : ArrayValues) (length : JsNumber)
  | intArray (value : ArrayValues) (length : JsNumber)
  | longArray (value : ArrayValues) (length : JsNumber)
  | list (elementType : NbtTag) (value : List NbtValue) (length : JsNumber)
  | compound (value : List (Utf16 × NbtValue))

structure NbtEntry where
  name : Utf16
  tag : NbtValue

def NbtValue.type : NbtValue → NbtTag
  | byte _ => .byte
  | short _ => .short
  | int _ => .int
  | long _ => .long
  | float _ => .float
  | double _ => .double
  | string _ => .string
  | byteArray .. => .byteArray
  | intArray .. => .intArray
  | longArray .. => .longArray
  | list .. => .list
  | compound _ => .compound

/-- `integer(value, min, max)`. -/
def integer (value : JsNumber) (min max : Int) : Except NbtError Int :=
  match value with
  | .int n => if n < min ∨ max < n then .error ⟨0, "Integer exceeds tag range"⟩ else .ok n
  | .nan | .other => .error ⟨0, "Integer exceeds tag range"⟩

def nbtVariableInteger (value : Int) (bits : Nat) (zigzagged : Bool) : Except NbtError Bytes :=
  if zigzagged then
    if value < -2 ^ (bits - 1) ∨ 2 ^ (bits - 1) ≤ value then .error ⟨0, "Integer exceeds tag range"⟩
    else .ok (varintBytes (bits / 7) (zigzag bits value).toNat)
  else if value < 0 ∨ 2 ^ bits ≤ value then .error ⟨0, "Unsigned integer exceeds tag range"⟩
  else .ok (varintBytes (bits / 7) value.toNat)

def nbtFixedInteger (value : NbtNumber) (width : Nat) (little unsigned : Bool) : Except NbtError Bytes :=
  if width = 8 then
    match value with
    | .bigint n =>
      if n < -2 ^ 63 ∨ 2 ^ 63 ≤ n then .error ⟨0, "Long exceeds signed 64-bit range"⟩ else .ok (setInt little 8 n)
    | .number _ => .error ⟨0, "Long exceeds signed 64-bit range"⟩
  else
    match value with
    | .bigint _ => .error ⟨0, "Expected a numeric integer"⟩
    | .number value => do
      let n ← integer value (if unsigned then 0 else -2 ^ (width * 8 - 1))
        (if unsigned then 2 ^ (width * 8) - 1 else 2 ^ (width * 8 - 1) - 1)
      .ok (setInt little width n)

section Parts

variable (encoding : NbtEncoding)

/-- The inner generator `string`: a length and the bytes. -/
def stringParts (text : Utf16) : Except NbtError (List Bytes) := do
  let bytes ← encodeNbtString text encoding.strings
  let length ←
    if encoding.varints then nbtVariableInteger bytes.length 32 false
    else nbtFixedInteger (.number (.int bytes.length)) 2 encoding.isLittle true
  .ok [length, bytes]

def i32 (value : JsNumber) : Except NbtError Bytes := do
  let n ← integer value (-2 ^ 31) (2 ^ 31 - 1)
  if encoding.varints then nbtVariableInteger n 32 true
  else nbtFixedInteger (.number (.int n)) 4 encoding.isLittle false

/-- The bits `setFloat32` or `setFloat64` writes. -/
def floatPart (type : NbtTag) (value : Float) : Except NbtError Bytes :=
  if type = .float then
    if value.isFinite && !value.toFloat32.isFinite then .error ⟨0, "Float exceeds 32-bit range"⟩
    else .ok (setUint encoding.isLittle 4 value.toFloat32.toBits.toNat)
  else .ok (setUint encoding.isLittle 8 value.toBits.toNat)

def viewMemory (hostLittle : Bool) (kind : ViewKind) (words : List (BitVec (8 * kind.width))) : Bytes :=
  words.flatMap fun w => setUint hostLittle kind.width w.toNat

/-- Reverse every group of `width` bytes, as the loop over `output.subarray(i, i + width)` does. -/
def reverseGroups (width : Nat) (bytes : Bytes) : Nat → Bytes
  | 0 => []
  | groups + 1 => (bytes.take width).reverse ++ reverseGroups width (bytes.drop width) groups

/-- The loop over the memory of a view, in slices of `NBT_CHUNK_BYTES`. -/
def swappedParts (width : Nat) (bytes : Bytes) : Nat → List Bytes
  | 0 => []
  | slices + 1 =>
    if bytes = [] then []
    else
      let output := bytes.take NBT_CHUNK_BYTES
      reverseGroups width output ((output.length + width - 1) / width)
        :: swappedParts width (bytes.drop NBT_CHUNK_BYTES) slices

/-- The fast path of arrays given as a view of the tag's own width. -/
def viewParts (hostLittle : Bool) (kind : ViewKind) (words : List (BitVec (8 * kind.width))) (length : JsNumber) :
    Except NbtError (List Bytes) := do
  let n ← integer length 0 (2 ^ 31 - 1)
  if (words.length : Int) ≠ n then .error ⟨0, "Container length does not match its elements"⟩
  else do
    let header ← i32 encoding length
    let bytes := viewMemory hostLittle kind words
    if kind.width = 1 ∨ encoding.isLittle = hostLittle then .ok [header, bytes]
    else .ok (header :: swappedParts kind.width bytes bytes.length)

inductive PartIterator
  | entries (rest : List (Utf16 × NbtValue))
  | values (rest : List NbtValue)
  | numbers (rest : List NbtNumber)

/-- An open container. `length` is the declared length of a tag that has one. -/
structure PartFrame where
  type : NbtTag
  elementType : NbtTag
  length : Option JsNumber
  iterator : PartIterator
  count : Nat

structure PartState where
  next : Option NbtValue
  stack : List PartFrame

def openCounted (type elementType : NbtTag) (length : JsNumber) (iterator : PartIterator) (stack : List PartFrame)
    (head : List Bytes) : Except NbtError (List Bytes × PartState) := do
  let _ ← integer length 0 (2 ^ 31 - 1)
  let header ← i32 encoding length
  .ok (head ++ [header], ⟨none, ⟨type, elementType, some length, iterator, 0⟩ :: stack⟩)

def arrayParts (hostLittle : Bool) (type : NbtTag) (value : ArrayValues) (length : JsNumber) (stack : List PartFrame) :
    Except NbtError (List Bytes × PartState) :=
  match value with
  | .view kind words =>
    if kind.width = type.width then (·, ⟨none, stack⟩) <$> viewParts encoding hostLittle kind words length
    else openCounted encoding type .end length (.numbers (ArrayValues.view kind words).elements) stack []
  | .iterable values => openCounted encoding type .end length (.numbers values) stack []

def JsNumber.truthy : JsNumber → Bool
  | int n => n != 0
  | nan => false
  | other => true

/-- The branch of the loop that reads the value `next`. -/
def partValue (hostLittle : Bool) (stack : List PartFrame) : NbtValue → Except NbtError (List Bytes × PartState)
  | .byte value => (([·], ⟨none, stack⟩)) <$> nbtFixedInteger (.number value) 1 encoding.isLittle false
  | .short value => (([·], ⟨none, stack⟩)) <$> nbtFixedInteger (.number value) 2 encoding.isLittle false
  | .int value => (([·], ⟨none, stack⟩)) <$> i32 encoding value
  | .long value =>
    (([·], ⟨none, stack⟩)) <$>
      if encoding.varints then nbtVariableInteger value 64 true
      else nbtFixedInteger (.bigint value) 8 encoding.isLittle false
  | .float value => (([·], ⟨none, stack⟩)) <$> floatPart encoding .float value
  | .double value => (([·], ⟨none, stack⟩)) <$> floatPart encoding .double value
  | .string value => ((·, ⟨none, stack⟩)) <$> stringParts encoding value
  | .byteArray value length => arrayParts encoding hostLittle .byteArray value length stack
  | .intArray value length => arrayParts encoding hostLittle .intArray value length stack
  | .longArray value length => arrayParts encoding hostLittle .longArray value length stack
  | .list elementType value length =>
    if length.truthy && elementType == .end then .error ⟨0, "A nonempty list cannot contain End"⟩
    else openCounted encoding .list elementType length (.values value) stack [[elementType.code]]
  | .compound value => .ok ([], ⟨none, ⟨.compound, .end, none, .entries value, 0⟩ :: stack⟩)

/-- `"length" in tag && frame.count > tag.length`; a length that has been written is an integer. -/
def overfull (length : Option JsNumber) (count : Nat) : Bool :=
  match length with
  | some (.int n) => decide (n < count)
  | _ => false

def partEnd (frame : PartFrame) (stack : List PartFrame) : Except NbtError (List Bytes × PartState) :=
  if frame.type = .compound then .ok ([[NbtTag.end.code]], ⟨none, stack⟩)
  else if frame.length ≠ some (.int frame.count) then .error ⟨0, "Container length does not match its elements"⟩
  else .ok ([], ⟨none, stack⟩)

def elementPart (type : NbtTag) (value : NbtNumber) : Except NbtError Bytes :=
  match type with
  | .byteArray =>
    match value with
    | .number value => do
      let n ← integer value (-128) 127
      .ok [UInt8.ofNat (ofSigned 1 n)]
    | .bigint _ => .error ⟨0, "Integer exceeds tag range"⟩
  | .intArray => nbtFixedInteger value 4 encoding.isLittle false
  | .longArray => nbtFixedInteger value 8 encoding.isLittle false
  | _ => .error ⟨0, "Tag is not a container"⟩

/-- The branch of the loop that advances the innermost iterator. -/
def partNext (frame : PartFrame) (stack : List PartFrame) : Except NbtError (List Bytes × PartState) :=
  let frame' := { frame with count := frame.count + 1 }
  match frame.iterator with
  | .entries [] | .values [] | .numbers [] => partEnd frame stack
  | .entries ((name, tag) :: rest) =>
    if overfull frame.length (frame.count + 1) then .error ⟨0, "Container contains too many elements"⟩
    else do
      let text ← stringParts encoding name
      .ok ([tag.type.code] :: text, ⟨some tag, { frame' with iterator := .entries rest } :: stack⟩)
  | .values (tag :: rest) =>
    if overfull frame.length (frame.count + 1) then .error ⟨0, "Container contains too many elements"⟩
    else if tag.type ≠ frame.elementType then .error ⟨0, "List element type does not match its declaration"⟩
    else .ok ([], ⟨some tag, { frame' with iterator := .values rest } :: stack⟩)
  | .numbers (value :: rest) =>
    if overfull frame.length (frame.count + 1) then .error ⟨0, "Container contains too many elements"⟩
    else do
      let part ← elementPart encoding frame.type value
      .ok ([part], ⟨none, { frame' with iterator := .numbers rest } :: stack⟩)

/-- The loop of `parts`, for at most `fuel` turns. -/
def partsLoop (hostLittle : Bool) : Nat → PartState → Except NbtError (List Bytes)
  | 0, _ => .error ⟨0, "encoder fuel exhausted"⟩
  | fuel + 1, state =>
    match state with
    | ⟨some tag, stack⟩ => do
      let (yielded, state) ← partValue encoding hostLittle stack tag
      let rest ← partsLoop hostLittle fuel state
      .ok (yielded ++ rest)
    | ⟨none, frame :: stack⟩ => do
      let (yielded, state) ← partNext encoding frame stack
      let rest ← partsLoop hostLittle fuel state
      .ok (yielded ++ rest)
    | ⟨none, []⟩ => .ok []

def ArrayValues.turns (type : NbtTag) : ArrayValues → Nat
  | .view kind words => if kind.width = type.width then 1 else words.length + 2
  | .iterable values => values.length + 2

mutual

/-- Turns of the loop from reading a value to having closed it. -/
def NbtValue.turns : NbtValue → Nat
  | .byteArray value _ => value.turns .byteArray
  | .intArray value _ => value.turns .intArray
  | .longArray value _ => value.turns .longArray
  | .list _ value _ => NbtValue.listTurns value + 2
  | .compound value => NbtValue.entryTurns value + 2
  | _ => 1

def NbtValue.listTurns : List NbtValue → Nat
  | [] => 0
  | v :: vs => 1 + NbtValue.turns v + NbtValue.listTurns vs

def NbtValue.entryTurns : List (Utf16 × NbtValue) → Nat
  | [] => 0
  | (_, v) :: es => 1 + NbtValue.turns v + NbtValue.entryTurns es

end

/-- `if (encoding.namedRoot) yield* string(root.name)`. -/
def rootNameParts (name : Utf16) : Except NbtError (List Bytes) :=
  if encoding.namedRoot then stringParts encoding name else .ok []

/-- The generator `parts`: everything it yields, or the error it throws. The loop takes at most one turn
more than `NbtValue.turns` counts. -/
def parts (hostLittle : Bool) (root : NbtEntry) : Except NbtError (List Bytes) := do
  let name ← rootNameParts encoding root.name
  let rest ← partsLoop encoding hostLittle (root.tag.turns + 1) ⟨some root.tag, []⟩
  .ok ([root.tag.type.code] :: name ++ rest)

end Parts

def encodeNbtPayload (encoding : NbtEncoding) (hostLittle : Bool) (root : NbtEntry) : Except NbtError (List Bytes) :=
  packParts NBT_CHUNK_BYTES [] <$> parts encoding hostLittle root

theorem encodeNbtPayload_flatten {encoding : NbtEncoding} {hostLittle : Bool} {root : NbtEntry} {chunks : List Bytes}
    (h : encodeNbtPayload encoding hostLittle root = .ok chunks) :
    ∃ ps, parts encoding hostLittle root = .ok ps ∧ chunks.flatten = ps.flatten := by
  unfold encodeNbtPayload at h
  match hp : parts encoding hostLittle root with
  | .error e =>
    rw [hp] at h
    cases h
  | .ok ps =>
    rw [hp] at h
    cases h
    exact ⟨ps, rfl, by rw [packParts_flatten (by decide) ps [] (by decide), List.nil_append]⟩

end Cantrip.Nbt
