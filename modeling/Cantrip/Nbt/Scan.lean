import Cantrip.Nbt.Cursor

/-!
# The scanner (`packages/nbt/src/scan.ts`, `packages/nbt/src/source.ts`)

`scanNbt` indexes the structure of a document with an explicit stack of open containers. It is written
over any cursor and any index store; the store sees every `put`, also those made before a scan fails,
so the scan runs in a monad that keeps its state on errors. The loop of the source is unbounded and
takes a `fuel` argument here. Cancellation, progress reports and control yields do not touch the index
and are left out.
-/

namespace Cantrip.Nbt

open Lib

/-- An open container: `remaining` counts the elements a list still has to read. -/
structure Frame where
  node : NbtNode
  remaining : Option Nat := none
  deriving DecidableEq, Repr

structure ScanState (σ τ : Type) where
  cursor : σ
  stack : List Frame
  nodes : Nat
  store : τ

/-- What a scan uses of an index store with state `τ`. -/
structure IndexStore (τ : Type) where
  put : τ → NbtNode → Except NbtError τ

structure NbtScanResult where
  root : Nat
  bytes : Nat
  nodes : Nat
  levelVersion : Option Nat := none
  deriving DecidableEq, Repr

abbrev ScanM (σ τ : Type) := EStateM NbtError (ScanState σ τ)

section Scan

variable {σ τ α : Type}

def onCursor (f : σ → Except NbtError (α × σ)) : ScanM σ τ α := fun st =>
  match f st.cursor with
  | .ok (a, c) => .ok a { st with cursor := c }
  | .error e => .error e st

def orThrow (x : Except NbtError α) : ScanM σ τ α := fun st =>
  match x with
  | .ok a => .ok a st
  | .error e => .error e st

variable (cur : CursorOps σ) (encoding : NbtEncoding) (store : IndexStore τ)

def skipBytes (length : Nat) : ScanM σ τ Unit := onCursor fun c => (cur.skip length c).map ((), ·)

def putNode (node : NbtNode) : ScanM σ τ Unit := fun st =>
  match store.put st.store node with
  | .ok s => .ok () { st with store := s }
  | .error e => .error e st

def pushFrame (frame : Frame) : ScanM σ τ Unit := fun st => .ok () { st with stack := frame :: st.stack }

/-- `parent.childCount++` on the container the new node belongs to. -/
def countChild : List Frame → List Frame
  | [] => []
  | f :: rest => { f with node := { f.node with childCount := f.node.childCount + 1 } } :: rest

def readArray (node : NbtNode) : ScanM σ τ NbtNode := do
  let length ← onCursor (cur.int encoding)
  if length < 0 then throw ⟨node.payload, "Negative array length"⟩
  let st ← get
  let data : NbtSpan := ⟨cur.position st.cursor, length.toNat * node.type.width⟩
  let node := { node with length := some length.toNat, data := some data }
  -- published before waiting for a large payload; `endAt = none` marks it provisional
  putNode store node
  skipBytes cur data.length
  pure node

/-- The header of a list, which is left open. -/
def readList (node : NbtNode) : ScanM σ τ NbtNode := do
  let elementType ← onCursor cur.byte
  let length ← onCursor (cur.int encoding)
  let elementType ← orThrow (assertTag elementType.toNat node.payload)
  if length > 0 && elementType == .end then throw ⟨node.payload, "A nonempty list cannot contain End"⟩
  let node := { node with
    elementType := some elementType
    declaredLength := some length
    length := some length.toNat }
  pushFrame ⟨node, some length.toNat⟩
  pure node

/-- The `switch` of `readNode`: read the payload of `node`, or open it. -/
def readPayload (node : NbtNode) : ScanM σ τ NbtNode :=
  match node.type with
  | .end => throw ⟨node.start, "End cannot be a value"⟩
  | .byte => do skipBytes cur 1; pure node
  | .short => do skipBytes cur 2; pure node
  | .int => do
    if encoding.varints then discard (onCursor (cur.varint 32 true)) else skipBytes cur 4
    pure node
  | .long => do
    if encoding.varints then discard (onCursor (cur.varint 64 true)) else skipBytes cur 8
    pure node
  | .float => do skipBytes cur 4; pure node
  | .double => do skipBytes cur 8; pure node
  | .string => do
    let span ← onCursor (cur.string encoding)
    pure { node with data := some span }
  | .byteArray | .intArray | .longArray => readArray cur encoding store node
  | .list => readList cur encoding node
  | .compound => do
    pushFrame ⟨node, none⟩
    pure node

def readNode (maxDepth : Nat) (type : NbtTag) (start : Nat) (name : Option NbtSpan) : ScanM σ τ NbtNode := do
  if type = .end then throw ⟨start, "End cannot be a value"⟩
  let st ← get
  let parent := st.stack.head?.map Frame.node
  let node : NbtNode := {
    id := st.nodes, parent := parent.map NbtNode.id, ordinal := (parent.map NbtNode.childCount).getD 0
    type, name, start, payload := cur.position st.cursor, endAt := none, childCount := 0 }
  set { st with stack := countChild st.stack }
  let node ← readPayload cur encoding store node
  modify fun st => { st with nodes := st.nodes + 1 }
  let st ← get
  let node := if type.isContainer then node else { node with endAt := some (cur.position st.cursor) }
  putNode store node
  let st ← get
  if maxDepth < st.stack.length then throw ⟨start, "NBT nesting budget exceeded"⟩
  pure node

/-- End the innermost container here. -/
def closeFrame (frame : Frame) (rest : List Frame) : ScanM σ τ Unit := do
  let st ← get
  putNode store { frame.node with endAt := some (cur.position st.cursor) }
  modify fun st => { st with stack := rest }

/-- One turn of the loop, with `frame` innermost. -/
def scanStep (maxDepth : Nat) (frame : Frame) (rest : List Frame) : ScanM σ τ Unit := do
  let st ← get
  let start := cur.position st.cursor
  match frame.remaining with
  | none =>
    let type ← onCursor cur.byte
    let type ← orThrow (assertTag type.toNat start)
    if type = .end then closeFrame cur store frame rest
    else
      let name ← onCursor (cur.string encoding)
      discard (readNode cur encoding store maxDepth type start (some name))
  | some 0 => closeFrame cur store frame rest
  | some (k + 1) =>
    set { st with stack := { frame with remaining := some k } :: rest }
    discard (readNode cur encoding store maxDepth (frame.node.elementType.getD .end) start none)

def scanLoop (maxDepth : Nat) : Nat → ScanM σ τ Unit
  | 0 => throw ⟨0, "scan fuel exhausted"⟩
  | fuel + 1 => do
    let st ← get
    match st.stack with
    | [] => pure ()
    | frame :: rest =>
      scanStep cur encoding store maxDepth frame rest
      scanLoop maxDepth fuel

/-- The checks after the loop. -/
def scanEnd (expectedEnd : Option Nat) : ScanM σ τ Nat := do
  let st ← get
  let position := cur.position st.cursor
  if let some expected := expectedEnd then
    if expected ≠ position then throw ⟨position, "Bedrock envelope length does not match payload"⟩
  let more ← orThrow (cur.rest st.cursor)
  if more ≠ 0 then throw ⟨position, "Trailing bytes after NBT root"⟩
  if let some size := cur.size then
    if position ≠ size then throw ⟨position, "Source snapshot length does not match NBT"⟩
  pure position

def readEnvelope : ScanM σ τ (Option Nat × Option Nat) := do
  if encoding.bedrockLevel then
    let version ← onCursor (cur.fixed 4 true)
    let length ← onCursor (cur.fixed 4 true)
    pure (some version.toNat, some (8 + length.toNat))
  else pure (none, none)

def scanNbt (maxDepth fuel : Nat) : ScanM σ τ NbtScanResult := do
  if encoding.bedrockLevel && encoding.endian != .little then
    throw ⟨0, "Bedrock envelope requires little-endian NBT"⟩
  let (levelVersion, expectedEnd) ← readEnvelope cur encoding
  let st ← get
  let first := cur.position st.cursor
  let rootType ← onCursor cur.byte
  let rootType ← orThrow (assertTag rootType.toNat first)
  let name ← if encoding.namedRoot then some <$> onCursor (cur.string encoding) else pure none
  let root ← readNode cur encoding store maxDepth rootType first name
  scanLoop cur encoding store maxDepth fuel
  let bytes ← scanEnd cur expectedEnd
  let st ← get
  pure { root := root.id, bytes, nodes := st.nodes, levelVersion }

end Scan

/-- `options.maxDepth ?? 4096`. -/
def defaultMaxDepth : Nat := 4096

/-! ## The in-memory index -/

/-- `MemoryNbtIndex`: the last record put for every node, and the children of every parent by ordinal
(a slot never assigned is a hole). -/
structure MemoryNbtIndex where
  nodes : Nat → Option NbtNode
  lists : Nat → List (Option Nat)

namespace MemoryNbtIndex

def empty : MemoryNbtIndex := ⟨fun _ => none, fun _ => []⟩

/-- `children[ordinal] = id` on a JavaScript array: a write past the end leaves holes. -/
def assign (children : List (Option Nat)) (ordinal id : Nat) : List (Option Nat) :=
  (children ++ List.replicate (ordinal + 1 - children.length) none).set ordinal (some id)

def put (ix : MemoryNbtIndex) (node : NbtNode) : Except NbtError MemoryNbtIndex :=
  match ix.nodes node.id with
  | some previous =>
    if previous.parent ≠ node.parent ∨ previous.ordinal ≠ node.ordinal then
      .error ⟨node.start, "Node identity changed"⟩
    else .ok { ix with nodes := Function.update ix.nodes node.id (some node) }
  | none =>
    let nodes := Function.update ix.nodes node.id (some node)
    match node.parent with
    | some p => .ok ⟨nodes, Function.update ix.lists p (assign (ix.lists p) node.ordinal node.id)⟩
    | none => .ok { ix with nodes := nodes }

def get (ix : MemoryNbtIndex) (id : Nat) : Option NbtNode := ix.nodes id

/-- `children(parent, offset, limit)`; a hole or a dangling identity gives no record. -/
def children (ix : MemoryNbtIndex) (parent offset limit : Nat) : Except NbtError (List (Option NbtNode)) := do
  assertRange offset limit
  .ok ((slice (ix.lists parent) offset limit).map fun id => id.bind ix.get)

/-- `MemoryNbtIndex` as the store of a scan. -/
def store : IndexStore MemoryNbtIndex := ⟨put⟩

end MemoryNbtIndex

end Cantrip.Nbt
