import Cantrip.Lib.Chunks
import Cantrip.Lib.Run
import Cantrip.Nbt.Types

/-!
# The recovery journal (`packages/nbt/src/recovery/journal.ts`)

A store holds a head record under a revision and encrypted pages; any number of `NbtRecoveryJournal`
instances work on it. An instance runs one operation at a time (`serial`): it writes pages under a new
random identity and then moves the head by a compare-and-swap on the revision it knows. Operations of
different instances interleave at every access to the store, so an operation in flight is a list of pages
still to be put and the head to be committed last.

The page cipher, the hash and the JSON texts are taken from a `Platform`. Identities are the 128 bits of a
random UUID and hashes the 256 bits of a digest, so the checks of their text forms hold by type.
-/

namespace Cantrip.Recovery

open Lib Nbt

abbrev Uuid := BitVec 128

abbrev Sha256 := BitVec 256

structure BlobReference where
  id : Uuid
  size : Nat
  pages : Nat
  sha256 : Sha256
  deriving DecidableEq, Repr

structure Head where
  version : Nat
  format : NbtFormat
  baselineVersion : String
  baseline : BlobReference
  tail : Option BlobReference
  events : Nat
  deriving DecidableEq, Repr

structure Entry (ε : Type) where
  version : Nat
  sequence : Nat
  previous : Option BlobReference
  event : ε
  deriving DecidableEq, Repr

def NBT_PAGE_BYTES : Nat := 64 * 1024

/-- What a sealed text is bound to: `"head-" + revision` or `id + ":" + index`. -/
inductive CipherKey
  | head (revision : Nat)
  | page (id : Uuid) (index : Nat)
  deriving DecidableEq, Repr

/-- What the journal uses of its surroundings: the page cipher (with the nonce it draws), the hash, and the
JSON texts of heads and entries. `entryText` gives nothing where `JSON.stringify` throws. -/
structure Platform (ε : Type) where
  encrypt : CipherKey → Nat → Bytes → Bytes
  decrypt : CipherKey → Bytes → Option Bytes
  sha256 : Bytes → Sha256
  headText : Head → Bytes
  parseHead : Bytes → Option Head
  entryText : Entry ε → Option Bytes
  parseEntry : Bytes → Option (Entry ε)

/-- The cipher opens what it sealed under the same key and adds 29 bytes; a text is parsed to what it was
written from. -/
structure Platform.Lawful {ε : Type} (P : Platform ε) : Prop where
  decrypt_encrypt : ∀ key nonce bytes, P.decrypt key (P.encrypt key nonce bytes) = some bytes
  encrypt_length : ∀ key nonce bytes, (P.encrypt key nonce bytes).length = bytes.length + 29
  parse_head : ∀ head, P.parseHead (P.headText head) = some head
  parse_entry : ∀ entry bytes, P.entryText entry = some bytes → P.parseEntry bytes = some entry

inductive RecoveryError
  | nbt (error : NbtError)
  | storage (message : String)
  | conflict
  deriving DecidableEq, Repr

def fault {α : Type} (message : String) : Except RecoveryError α := .error (.nbt ⟨0, message⟩)

/-! ## The store (`recovery/indexeddb.ts`) -/

structure NbtRecoveryStore where
  revision : Nat
  head : Option Bytes
  pages : Uuid → Nat → Option Bytes

namespace NbtRecoveryStore

def empty : NbtRecoveryStore := ⟨0, none, fun _ _ => none⟩

def put (store : NbtRecoveryStore) (id : Uuid) (index : Nat) (bytes : Bytes) : NbtRecoveryStore :=
  { store with pages := Function.update store.pages id (Function.update (store.pages id) index (some bytes)) }

def commit (store : NbtRecoveryStore) (expectedRevision : Nat) (bytes : Option Bytes) :
    Except RecoveryError NbtRecoveryStore :=
  if maxSafeInteger ≤ expectedRevision then .error (.storage "Invalid NBT recovery revision.")
  else if NBT_PAGE_BYTES + 29 < (bytes.getD []).length then .error (.storage "NBT recovery head exceeds its page budget.")
  else if store.revision ≠ expectedRevision then .error .conflict
  else .ok ⟨expectedRevision + 1, bytes, if bytes = none then fun _ _ => none else store.pages⟩

end NbtRecoveryStore

/-- `reference`: a safe size and the number of pages it takes. -/
def reference (ref : BlobReference) : Except RecoveryError Unit :=
  if maxSafeInteger < ref.size ∨ ref.pages ≠ (ref.size + NBT_PAGE_BYTES - 1) / NBT_PAGE_BYTES then
    fault "Invalid NBT recovery byte reference"
  else .ok ()

def readHead (head : Head) : Except RecoveryError Head :=
  if head.version ≠ 1 ∨ head.baselineVersion = "" ∨ maxSafeInteger < head.events ∨
      (decide (head.events = 0)) ≠ head.tail.isNone then
    fault "Invalid NBT recovery journal header"
  else do
    reference head.baseline
    match head.tail with
    | some tail => reference tail
    | none => .ok ()
    .ok head

section Journal

variable {ε : Type}

/-! ## Reading -/

variable (P : Platform ε) (store : NbtRecoveryStore)

def page (ref : BlobReference) (index : Nat) : Except RecoveryError Bytes :=
  match store.pages ref.id index with
  | none => fault "NBT recovery page is missing or oversized"
  | some encrypted =>
    if NBT_PAGE_BYTES + 29 < encrypted.length then fault "NBT recovery page is missing or oversized"
    else
      match P.decrypt (.page ref.id index) encrypted with
      | none => .error (.storage "NBT page authentication failed")
      | some bytes =>
        if bytes.length ≠ min NBT_PAGE_BYTES (ref.size - index * NBT_PAGE_BYTES) then
          fault "NBT recovery page has an invalid length"
        else .ok bytes

/-- The pages from `index` on, `count` of them. -/
def blobPages (ref : BlobReference) : Nat → Nat → Except RecoveryError Bytes
  | _, 0 => .ok []
  | index, count + 1 => do
    let bytes ← page P store ref index
    let rest ← blobPages ref (index + 1) count
    .ok (bytes ++ rest)

def entry (ref : BlobReference) : Except RecoveryError (Entry ε) := do
  reference ref
  if 512 * 1024 < ref.size then fault "NBT recovery event is oversized"
  else do
    let bytes ← blobPages P store ref 0 ref.pages
    if P.sha256 bytes ≠ ref.sha256 then fault "NBT recovery event checksum failed"
    else
      match P.parseEntry bytes with
      | none => fault "NBT recovery event is invalid"
      | some value =>
        if value.version ≠ 1 ∨ maxSafeInteger < value.sequence ∨ value.sequence < 1 then
          fault "NBT recovery event is invalid"
        else do
          match value.previous with
          | some previous => reference previous
          | none => .ok ()
          .ok value

/-- The first loop of `events`: the references of the chain, newest first. -/
def references : Nat → Option BlobReference → Except RecoveryError (List BlobReference)
  | 0, none => .ok []
  | 0, some _ => fault "NBT recovery journal has an invalid origin"
  | _ + 1, none => fault "NBT recovery journal is truncated"
  | sequence + 1, some tail => do
    let value ← entry P store tail
    if value.sequence ≠ sequence + 1 then fault "NBT recovery event sequence is invalid"
    else do
      let rest ← references sequence value.previous
      .ok (tail :: rest)

/-- What `events` yields, run to its end. -/
def events (head : Option Head) : Except RecoveryError (List ε) :=
  match head with
  | none => .ok []
  | some head => do
    let refs ← references P store head.events head.tail
    refs.reverse.mapM fun ref => do
      let value ← entry P store ref
      .ok value.event

/-! ## Instances -/

/-- What an operation in flight is, once it has started. -/
inductive OperationKind (ε : Type)
  | append (event : ε)
  | baseline
  | clear
  | claim
  deriving DecidableEq, Repr

/-- An operation that has started: the pages still to be put, each with its index, and the head to commit. -/
structure Operation (ε : Type) where
  kind : OperationKind ε
  id : Option Uuid
  puts : List (Nat × Bytes)
  head : Option Head

structure NbtRecoveryJournal (ε : Type) where
  head : Option Head
  revision : Nat
  closed : Bool := false
  pending : Option (Operation ε) := none

/-- `NbtRecoveryJournal.open`. -/
def openJournal : Except RecoveryError (NbtRecoveryJournal ε) :=
  match store.head with
  | none => .ok { head := none, revision := store.revision }
  | some bytes =>
    match (P.decrypt (.head store.revision) bytes).bind P.parseHead with
    | none => .error (.storage "NBT page authentication failed")
    | some value => do
      let head ← readHead value
      .ok { head := some head, revision := store.revision }

def streamSize : Nat → List Bytes → Except RecoveryError Nat
  | size, [] => .ok size
  | size, bytes :: rest =>
    if size + bytes.length ≤ maxSafeInteger then streamSize (size + bytes.length) rest
    else .error (.nbt ⟨size, "Invalid byte range"⟩)

/-- `writeBytes`: the pages it puts and the reference it returns. -/
def writeBytes (id : Uuid) (stream : List Bytes) : Except RecoveryError (List Bytes × BlobReference) := do
  let size ← streamSize 0 stream
  let pages := packParts NBT_PAGE_BYTES [] stream
  .ok (pages, ⟨id, size, pages.length, P.sha256 stream.flatten⟩)

inductive Call (ε : Type)
  | prepare (format : NbtFormat) (version : String) (bytes : List Bytes)
  | replace (format : NbtFormat) (version : String) (bytes : List Bytes)
  | append (event : ε)
  | clear
  | claim

/-- `some` operation that now accesses the store, or `none` when the call returns at once. -/
def writeBaseline (journal : NbtRecoveryJournal ε) (id : Uuid) (format : NbtFormat) (version : String)
    (bytes : List Bytes) (replace : Bool) : Except RecoveryError (Option (Operation ε)) :=
  let write : Except RecoveryError (Option (Operation ε)) :=
    if version = "" then fault "NBT recovery requires a baseline version"
    else do
      let (pages, baseline) ← writeBytes P id bytes
      let head ← readHead ⟨1, format, version, baseline, none, 0⟩
      .ok (some ⟨.baseline, some id, pages.zipIdx.map fun p => (p.2, p.1), some head⟩)
  match journal.head with
  | some head =>
    if replace then write
    else if head.baselineVersion ≠ version ∨ head.format ≠ format then
      fault "NBT recovery belongs to a different baseline"
    else .ok none
  | none => write

def append (journal : NbtRecoveryJournal ε) (id : Uuid) (event : ε) : Except RecoveryError (Option (Operation ε)) :=
  match journal.head with
  | none => fault "Prepare the NBT recovery baseline before editing"
  | some head =>
    if maxSafeInteger ≤ head.events then fault "NBT recovery sequence is exhausted"
    else
      match P.entryText ⟨1, head.events + 1, head.tail, event⟩ with
      | none => fault "JSON.stringify failed"
      | some bytes =>
        if 512 * 1024 < bytes.length then fault "NBT recovery operation exceeds its bounded batch size"
        else do
          let (pages, tail) ← writeBytes P id [bytes]
          .ok (some ⟨.append event, some id, pages.zipIdx.map fun p => (p.2, p.1),
            some { head with tail := some tail, events := head.events + 1 }⟩)

/-- The part of a call before its first access to the store. -/
def begin_ (journal : NbtRecoveryJournal ε) (id : Uuid) : Call ε → Except RecoveryError (Option (Operation ε))
  | .prepare format version bytes => writeBaseline P journal id format version bytes false
  | .replace format version bytes => writeBaseline P journal id format version bytes true
  | .append event => append P journal id event
  | .clear => .ok (some ⟨.clear, none, [], none⟩)
  | .claim => .ok (some ⟨.claim, none, [], journal.head⟩)

/-! ## The system -/

/-- The store, the instances that were opened on it, and the identities that were drawn. -/
structure System (ε : Type) where
  store : NbtRecoveryStore
  journals : List (NbtRecoveryJournal ε)
  drawn : List Uuid

/-- What happens next: an instance opens, starts a call, puts its next page, commits, fails for a reason of
its own (a cancelled signal, a failing stream or store) or is closed. An operation that passed its last
`check` still reaches the store when its instance is closed meanwhile. -/
inductive Action (ε : Type)
  | open
  | call (index : Nat) (call : Call ε) (id : Uuid)
  | put (index : Nat) (nonce : Nat)
  | commit (index : Nat) (nonce : Nat)
  | fail (index : Nat)
  | close (index : Nat)

/-- What the callers see: `kept` is a `prepare` that found its baseline; `committed`, `lost` and `failed` end
an operation that was in flight. -/
inductive Label (ε : Type)
  | silent
  | rejected (index : Nat)
  | kept (index : Nat)
  | committed (index : Nat) (kind : OperationKind ε)
  | lost (index : Nat) (id : Option Uuid)
  | failed (index : Nat) (id : Option Uuid)
  deriving DecidableEq, Repr

namespace System

def initial : System ε := ⟨NbtRecoveryStore.empty, [], []⟩

/-- The instance has ended its operation. -/
def settle (sys : System ε) (index : Nat) (journal : NbtRecoveryJournal ε) : System ε :=
  { sys with journals := sys.journals.set index { journal with pending := none } }

/-- Start a call on an idle instance. The identity is one that was never drawn. -/
def startCall (sys : System ε) (index : Nat) (call : Call ε) (id : Uuid) (journal : NbtRecoveryJournal ε) :
    Option (System ε × Label ε) :=
  if journal.closed ∨ journal.pending.isSome ∨ id ∈ sys.drawn then none
  else
    match begin_ P journal id call with
    | .error _ => some (sys, .rejected index)
    | .ok none => some (sys, .kept index)
    | .ok (some operation) =>
      some ({ sys with
        journals := sys.journals.set index { journal with pending := some operation }
        drawn := id :: sys.drawn }, .silent)

def putPage (sys : System ε) (index nonce : Nat) (journal : NbtRecoveryJournal ε) (operation : Operation ε) :
    Option (System ε × Label ε) :=
  match operation.id, operation.puts with
  | some id, (k, bytes) :: rest =>
    some ({ sys with
      store := sys.store.put id k (P.encrypt (.page id k) nonce bytes)
      journals := sys.journals.set index { journal with pending := some { operation with puts := rest } } }, .silent)
  | _, _ => none

/-- `commit`: the compare-and-swap on the revision the instance knows. -/
def commitHead (sys : System ε) (index nonce : Nat) (journal : NbtRecoveryJournal ε) (operation : Operation ε) :
    Option (System ε × Label ε) :=
  if operation.puts ≠ [] then none
  else
    let ciphertext := operation.head.map fun head => P.encrypt (.head (journal.revision + 1)) nonce (P.headText head)
    match sys.store.commit journal.revision ciphertext with
    | .ok store =>
      some ({ sys with
        store := store
        journals := sys.journals.set index
          { journal with revision := store.revision, head := operation.head, pending := none } },
        .committed index operation.kind)
    | .error .conflict => some (sys.settle index journal, .lost index operation.id)
    | .error _ => some (sys.settle index journal, .failed index operation.id)

def step (sys : System ε) : Action ε → Option (System ε × Label ε)
  | .open =>
    match openJournal P sys.store with
    | .ok journal => some ({ sys with journals := sys.journals ++ [journal] }, .silent)
    | .error _ => some (sys, .rejected sys.journals.length)
  | .call index call id => do
    let journal ← sys.journals[index]?
    startCall P sys index call id journal
  | .put index nonce => do
    let journal ← sys.journals[index]?
    let operation ← journal.pending
    putPage P sys index nonce journal operation
  | .commit index nonce => do
    let journal ← sys.journals[index]?
    let operation ← journal.pending
    commitHead P sys index nonce journal operation
  | .fail index => do
    let journal ← sys.journals[index]?
    let operation ← journal.pending
    some (sys.settle index journal, .failed index operation.id)
  | .close index => do
    let journal ← sys.journals[index]?
    some ({ sys with journals := sys.journals.set index { journal with closed := true } }, .silent)

/-- A run from an empty store. -/
def run (actions : List (Action ε)) : Option (System ε × List (Label ε)) := runSteps (step P) initial actions

end System

def acknowledged : List (Label ε) → List ε :=
  List.foldl (fun told label =>
    match label with
    | .committed _ (.append event) => told ++ [event]
    | .committed _ .baseline | .committed _ .clear => []
    | _ => told) []

/-- The identities of operations that ended without a commit. -/
def abandoned : List (Label ε) → List Uuid :=
  List.filterMap fun label =>
    match label with
    | .lost _ id | .failed _ id => id
    | _ => none

end Journal

end Cantrip.Recovery
