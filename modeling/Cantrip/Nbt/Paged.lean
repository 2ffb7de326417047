import Cantrip.Lib.Float64
import Cantrip.Lib.WriteBack
import Cantrip.Nbt.Scan

/-!
# The paged index (`packages/nbt/src/paged`)

`PagedNbtIndex` keeps node descriptors as records of 14 numbers on pages of 256, and the children of every
node as pages of 256 identities, over an encrypted page cache. The cache is a key/value store: its keys are
the node pages, the child pages and the metadata of one index prefix. Calls are serialized by the source, so
that an operation is one step of the state.
-/

namespace Cantrip.Nbt

open Lib

inductive IndexError
  | nbt (error : NbtError)
  | storage (message : String)
  deriving DecidableEq, Repr

/-! ## Pages (`pages.ts`) -/

def INDEX_FANOUT : Nat := 256

def NODE_FIELDS : Nat := 14

def MAGIC : Nat := 0x3149424e

inductive IndexPage
  | nodes (records : List (List Double))
  | children (offsets : List Nat)
  deriving DecidableEq, Repr

/-- The `i`-th number of a record. -/
def field (record : List Double) (i : Nat) : Double := record.getD i .other

def nonnegative (n : Double) : Bool := n.isSafeInteger && decide (0 ≤ n.toInt)

/-- `-1` stands for an absent value. -/
def absent (n : Double) : Bool := n == .int (-1)

def isInteger : Double → Bool
  | .int _ => true
  | _ => false

def validRecord (record : List Double) : Bool :=
  record.length == NODE_FIELDS &&
  [0, 2, 3, 5, 6, 8, 13].all (fun i => nonnegative (field record i)) &&
  [1, 4, 7, 9, 10, 12].all (fun i => absent (field record i) || nonnegative (field record i)) &&
  decide (1 ≤ (field record 3).toInt) &&
  decide ((field record 3).toInt ≤ 12) &&
  (absent (field record 9) || decide ((field record 9).toInt ≤ 12)) &&
  decide ((field record 0).toInt ≤ (field record 6).toInt) &&
  (absent (field record 7) || decide ((field record 6).toInt ≤ (field record 7).toInt)) &&
  ((field record 11).isNaN ||
    (isInteger (field record 11) && decide (-2147483648 ≤ (field record 11).toInt) &&
      decide ((field record 11).toInt ≤ 2147483647)))

def IndexPage.count : IndexPage → Nat
  | nodes records => records.length
  | children offsets => offsets.length

def IndexPage.kind : IndexPage → Nat
  | nodes _ => 1
  | children _ => 2

def IndexPage.numbers : IndexPage → List Double
  | nodes records => records.flatten
  | children offsets => offsets.map fun n : Nat => .int n

def IndexPage.invalidRecord : IndexPage → Bool
  | nodes records => records.any (!validRecord ·)
  | children _ => false

def encodeIndexPage (page : IndexPage) : Except IndexError Bytes :=
  if INDEX_FANOUT < page.count then .error (.storage "NBT index page overflow.")
  else if page.invalidRecord then
    .error (.storage "Invalid NBT descriptor record.")
  else
    .ok (setUint true 4 MAGIC ++ setUint true 4 page.kind ++ setUint true 4 page.count ++
      page.numbers.flatMap (setFloat64 true))

def badPage : IndexError := .storage "Invalid NBT index page."

def pageOfNumbers (kind count : Nat) (numbers : List Double) : Except IndexError IndexPage :=
  if kind = 2 then
    if numbers.any (!nonnegative ·) then .error badPage else .ok (.children (numbers.map Double.toNat))
  else
    let records := (List.range count).map fun i => slice numbers (i * NODE_FIELDS) NODE_FIELDS
    if records.any (!validRecord ·) then .error badPage else .ok (.nodes records)

/-- How many numbers a page of this kind has. -/
def fieldCount (kind count : Nat) : Option Nat :=
  if kind = 1 then some (count * NODE_FIELDS) else if kind = 2 then some count else none

def decodeIndexPage (bytes : Bytes) : Except IndexError IndexPage :=
  if bytes.length < 12 then .error badPage
  else
    let kind := getUint true (slice bytes 4 4)
    let count := getUint true (slice bytes 8 4)
    match fieldCount kind count with
    | none => .error badPage
    | some fields =>
      if getUint true (slice bytes 0 4) ≠ MAGIC ∨ INDEX_FANOUT < count ∨ bytes.length ≠ 12 + fields * 8 then
        .error badPage
      else
        pageOfNumbers kind count ((List.range fields).map fun i => getFloat64 true (slice bytes (12 + i * 8) 8))

/-- The keys of one index in the page cache; `prefix-meta` is kept apart. -/
inductive PageKey
  | nodes (page : Nat)
  | children (id page : Nat)
  deriving DecidableEq, Repr

def indexCodec : PageCodec IndexPage Bytes IndexError where
  encode := encodeIndexPage
  decode := decodeIndexPage
  pinBudget := .storage "NBT index page pin budget exceeded."
  unavailable := .storage "NBT index page is unavailable. Reopen the document."

abbrev NbtIndexPager := WriteBack PageKey IndexPage Bytes

/-! ## Descriptors -/

/-- `sequence`: the number of `node:k` must be a safe integer. -/
def PagedNbtIndex.sequence (id : Nat) : Except IndexError Nat :=
  match assertRange id 0 with
  | .ok _ => .ok id
  | .error e => .error (.nbt e)

/-- `value ?? -1`. -/
def orAbsent (value : Option Nat) : Double :=
  match value with
  | some n => .int n
  | none => .int (-1)

def packFields (n : NbtNode) : List Double :=
  [.int n.start, orAbsent n.parent, .int n.ordinal, .int n.type.toNat, orAbsent (n.name.map NbtSpan.offset),
    .int ((n.name.map NbtSpan.length).getD 0 : Nat), .int n.payload, orAbsent n.endAt, .int n.childCount,
    orAbsent (n.elementType.map NbtTag.toNat), orAbsent n.length,
    (match n.declaredLength with | some d => .int d | none => .nan),
    orAbsent (n.data.map NbtSpan.offset), .int ((n.data.map NbtSpan.length).getD 0 : Nat)]

def pack (n : NbtNode) : Except IndexError (List Double) :=
  match n.parent with
  | none => .ok (packFields n)
  | some p => (PagedNbtIndex.sequence p).map fun _ => packFields n

/-- The value of a field that may be absent. -/
def present (n : Double) : Option Nat := if absent n then none else some n.toNat

def tagOf (n : Double) : NbtTag := (NbtTag.ofNat? n.toNat).getD .end

def unpack (id : Nat) (record : List Double) : NbtNode where
  id := id
  start := (field record 0).toNat
  parent := present (field record 1)
  ordinal := (field record 2).toNat
  type := tagOf (field record 3)
  name := (present (field record 4)).map fun offset => ⟨offset, (field record 5).toNat⟩
  payload := (field record 6).toNat
  endAt := present (field record 7)
  childCount := (field record 8).toNat
  elementType := if absent (field record 9) then none else some (tagOf (field record 9))
  length := present (field record 10)
  declaredLength := if (field record 11).isNaN then none else some (field record 11).toInt
  data := (present (field record 12)).map fun offset => ⟨offset, (field record 13).toNat⟩

/-! ## The index (`index.ts`) -/

/-- `count` descriptors over a pager; `metadata` is what the cache holds under `prefix-meta`. -/
structure PagedNbtIndex where
  pager : NbtIndexPager
  metadata : Option Bytes
  maxPages : Nat
  count : Nat
  closed : Bool

abbrev PagedM := EStateM IndexError PagedNbtIndex

namespace PagedNbtIndex

variable {α : Type}

def readMetadata (bytes : Bytes) : Except IndexError Nat :=
  let bad : IndexError := .storage "Invalid NBT index metadata."
  if bytes.length ≠ 16 then .error bad
  else
    let count := getFloat64 true (slice bytes 8 8)
    if getUint true (slice bytes 0 4) ≠ 1 ∨ !nonnegative count then .error bad
    else .ok count.toNat

def «open» (store : PageKey → Option Bytes) (metadata : Option Bytes) (maxPages : Nat) : Except IndexError PagedNbtIndex :=
  if maxSafeInteger < maxPages ∨ maxPages < 1 then
    .error (.storage "NBT index requires at least one bounded cache page.")
  else
    match metadata with
    | none => .ok ⟨⟨[], store, 0⟩, none, maxPages, 0, false⟩
    | some bytes => (readMetadata bytes).map fun count => ⟨⟨[], store, 0⟩, some bytes, maxPages, count, false⟩

def orFail (x : Except IndexError α) : PagedM α := fun ix =>
  match x with
  | .ok a => .ok a ix
  | .error e => .error e ix

def serial (run : PagedM α) : PagedM α := fun ix =>
  if ix.closed then .error (.storage "NBT index is closed.") ix else run ix

def usePage (key : PageKey) (create : Option IndexPage) (body : IndexPage → Except IndexError (α × Option IndexPage)) :
    PagedM α := fun ix =>
  match WriteBack.withPage indexCodec ix.maxPages key create body ix.pager with
  | .ok a pager => .ok a { ix with pager := pager }
  | .error e pager => .error e { ix with pager := pager }

def nodeKey (id : Nat) : PageKey := .nodes (id / INDEX_FANOUT)

def childKey (id ordinal : Nat) : PageKey := .children id (ordinal / INDEX_FANOUT)

def incomplete : IndexError := .storage "NBT descriptor page is incomplete."

def readRecord (id : Nat) (page : IndexPage) : Except IndexError (List Double × Option IndexPage) :=
  match page with
  | .nodes records =>
    match records[id % INDEX_FANOUT]? with
    | some record => .ok (record, none)
    | none => .error incomplete
  | .children _ => .error incomplete

def record (id : Nat) : PagedM (Option (List Double)) := do
  let ix ← get
  if ix.count ≤ id then pure none else some <$> usePage (nodeKey id) none (readRecord id)

/-- `records[at] = record` for a slot in the array or right after it. -/
def writeRecord (id : Nat) (record : List Double) (added : Bool) (page : IndexPage) :
    Except IndexError (Unit × Option IndexPage) :=
  let at_ := id % INDEX_FANOUT
  match page with
  | .nodes records =>
    if records.length < (if added then at_ else at_ + 1) then .error incomplete
    else .ok ((), some (.nodes (records.take at_ ++ record :: records.drop (at_ + 1))))
  | .children _ => .error incomplete

def write (id : Nat) (record : List Double) (added : Bool) : PagedM Unit :=
  usePage (nodeKey id) (if added ∧ id % INDEX_FANOUT = 0 then some (.nodes []) else none) (writeRecord id record added)

def pushChild (start ordinal id : Nat) (page : IndexPage) : Except IndexError (Unit × Option IndexPage) :=
  match page with
  | .children offsets =>
    if offsets.length ≠ ordinal % INDEX_FANOUT then .error (.nbt ⟨start, "Invalid child checkpoint"⟩)
    else .ok ((), some (.children (offsets ++ [id])))
  | .nodes _ => .error (.nbt ⟨start, "Invalid child checkpoint"⟩)

def check (condition : Bool) (e : IndexError) : PagedM Unit := if condition then pure () else throw e

def parentRecord (node : NbtNode) : PagedM (Option (List Double)) :=
  match node.parent with
  | none => pure none
  | some p => do
    let p ← orFail (sequence p)
    let parent ← record p
    check parent.isSome (.nbt ⟨node.start, "Indexed parent is missing"⟩)
    pure parent

def addChild (node : NbtNode) (parentId : Nat) (parent : List Double) : PagedM Unit := do
  usePage (childKey parentId node.ordinal)
    (if node.ordinal % INDEX_FANOUT = 0 then some (.children []) else none) (pushChild node.start node.ordinal node.id)
  write parentId (parent.set 8 (.int (node.ordinal + 1 : Nat))) false

/-- The writes of `put`, once its checks have passed. -/
def publish (node : NbtNode) (values : List Double) (added : Bool) (parent : Option (List Double)) : PagedM Unit := do
  write node.id values added
  if added then
    modify fun ix => { ix with count := ix.count + 1 }
    match node.parent, parent with
    | some p, some parent => addChild node p parent
    | _, _ => pure ()

def put (node : NbtNode) : PagedM Unit := serial do
  let id ← orFail (sequence node.id)
  orFail ((assertRange node.start 0).mapError .nbt)
  orFail ((assertRange node.ordinal 0).mapError .nbt)
  orFail ((assertRange node.childCount 0).mapError .nbt)
  let ix ← get
  check (id ≤ ix.count) (.nbt ⟨node.start, "Node sequences must be contiguous"⟩)
  let previous ← record id
  let values ← orFail (pack node)
  let added := id == ix.count
  check (previous.all fun p => [0, 1, 2].all fun i => field p i == field values i)
    (.nbt ⟨node.start, "Node identity changed"⟩)
  let parent ← parentRecord node
  check (!added || parent.all fun p => field p 8 == .int node.ordinal)
    (.nbt ⟨node.start, "Child ordinals must be contiguous"⟩)
  publish node values added parent

def get (id : Nat) : PagedM (Option NbtNode) := serial do
  let id ← orFail (sequence id)
  let value ← record id
  pure (value.map (unpack id))

def readOffsets (start ordinal end_ : Nat) (page : IndexPage) : Except IndexError (List Nat × Option IndexPage) :=
  match page with
  | .children offsets =>
    let at_ := ordinal % INDEX_FANOUT
    .ok (slice offsets at_ (min (end_ - ordinal) (INDEX_FANOUT - at_)), none)
  | .nodes _ => .error (.nbt ⟨start, "Invalid child checkpoint"⟩)

def childNodes (start : Nat) : List Nat → PagedM (List NbtNode)
  | [] => pure []
  | id :: ids => do
    let value ← record id
    match value with
    | none => throw (.nbt ⟨start, "Missing indexed child"⟩)
    | some value => do
      let rest ← childNodes start ids
      pure (unpack id value :: rest)

/-- The loop of `children`; every turn reads at least one child. -/
def childrenGo (parentId start end_ : Nat) : Nat → Nat → PagedM (List NbtNode)
  | 0, _ => pure []
  | fuel + 1, ordinal =>
    if ordinal < end_ then do
      let ids ← usePage (childKey parentId ordinal) none (readOffsets start ordinal end_)
      check (!ids.isEmpty) (.nbt ⟨start, "Missing child checkpoint"⟩)
      let nodes ← childNodes start ids
      let rest ← childrenGo parentId start end_ fuel (ordinal + ids.length)
      pure (nodes ++ rest)
    else pure []

def children (parent first limit : Nat) : PagedM (List NbtNode) := serial do
  orFail ((assertRange first limit).mapError .nbt)
  check (limit ≤ 512) (.nbt ⟨0, "Child pages are limited to 512 rows"⟩)
  let parentId ← orFail (sequence parent)
  let record ← record parentId
  match record with
  | none => pure []
  | some record =>
    let end_ := min (first + limit) (field record 8).toNat
    childrenGo parentId (field record 0).toNat end_ (end_ - first) first

def metadataBytes (count : Nat) : Bytes := setUint true 4 1 ++ setUint true 4 0 ++ setFloat64 true (.int count)

def flush : PagedM Unit := serial fun ix =>
  match WriteBack.flush indexCodec ix.pager with
  | .ok _ pager => .ok () { ix with pager := pager, metadata := some (metadataBytes ix.count) }
  | .error e pager => .error e { ix with pager := pager }

end PagedNbtIndex

end Cantrip.Nbt
