import Cantrip.Lib.Plain
import Cantrip.Lib.Keyed

/-!
# Native history (`native-history-state.ts`, `native-history.ts`, `native-history-observation.ts`)

What the worker keeps of a thread of the native runtime, and what it observes of one: notifications, and snapshots
that were read. The sequence of a cursor is written in canonical decimals, so it is its number here.
-/

namespace Cantrip.NativeHistory

open Lib

/-- `nativeHistoryCursorSchema`. -/
structure Cursor where
  epoch : String
  sequence : Nat
  previousSequence : Option Nat
  deriving DecidableEq

inductive OriginKind
  | snapshot
  | notification
  deriving DecidableEq

/-- `historyOriginSchema`. -/
structure Origin where
  generation : String
  sequence : Nat
  kind : OriginKind
  nativeCursor : Option Cursor
  deriving DecidableEq

inductive Lifecycle
  | started
  | completed
  | unknown
  deriving DecidableEq

inductive IdentityKind
  | canonical
  | legacy
  deriving DecidableEq

/-! ## The state -/

variable {N : Type}

/-- `candidateSchema`. -/
structure Candidate (N : Type) where
  body : Fields N
  lifecycle : Lifecycle
  completeBody : Bool
  startedAtMs : Option N
  completedAtMs : Option N
  origin : Origin

/-- `nativeHistoryStateItemSchema`. -/
structure Item (N : Type) extends Candidate N where
  id : String
  identityKind : IdentityKind
  revision : Nat
  ordinal : Nat
  conflicts : List (Candidate N)

def Item.key (item : Item N) : IdentityKind × String := (item.identityKind, item.id)

/-- `nativeHistoryStateTurnSchema`. -/
structure Turn (N : Type) where
  id : String
  ordinal : Nat
  revision : Nat
  body : Fields N
  metadata : Option (Fields N)
  terminalNotification : Option (Json N)
  origin : Origin
  items : List (Item N)
  conflicts : List (Fields N)

structure Evidence (N : Type) where
  recordId : String
  method : String
  params : Fields N

/-- The last notification of a generation. -/
structure Boundary where
  generation : String
  sequence : Nat
  deriving DecidableEq

/-- `nativeHistoryStateSchema`. -/
structure State (N : Type) where
  threadId : String
  turns : List (Turn N)
  evidence : List (Evidence N)
  notifications : List Boundary

/-! ## Frames -/

/-- `nativeItemSchema`. -/
structure CodexItem (N : Type) where
  id : String
  body : Fields N

/-- `nativeTurnSchema`, with the fields beside the items. -/
structure CodexTurn (N : Type) where
  id : String
  fields : Fields N
  items : List (CodexItem N)

structure LiveItem (N : Type) where
  turnId : String
  item : CodexItem N
  state : Lifecycle
  cursor : Cursor
  startedAtMs : Option N
  completedAtMs : Option N

structure Live (N : Type) where
  epoch : String
  throughSequence : Nat
  items : List (LiveItem N)

structure ItemEvidence (N : Type) where
  itemId : String
  state : Lifecycle
  startedAtMs : Option N
  completedAtMs : Option N

structure TurnMetadata (N : Type) where
  turnId : String
  source : IdentityKind
  contexts : List (Json N)
  initialSettings : Option (Json N)
  initialSettingsConflict : Bool
  items : List (ItemEvidence N)
  fields : Fields N

/-- `historyMetadataSchema`. The header has the fields beside the turns and the live items. -/
structure History (N : Type) where
  header : Fields N
  currentTurnId : Option String
  currentTurnLive : Bool
  live : Option (Live N)
  turns : List (TurnMetadata N)

/-- `CodexNativeHistorySnapshot`. -/
structure Snapshot (N : Type) where
  extra : Fields N
  threadHeader : Fields N
  turns : List (CodexTurn N)
  history : Option (History N)

/-- `NativeHistoryNotification`. -/
structure Notification (N : Type) where
  generation : String
  sequence : Nat
  threadId : String
  method : String
  params : Fields N
  nativeCursor : Option Cursor

/-- `NativeHistorySnapshotObservation`. -/
structure Observation (N : Type) where
  generation : String
  threadId : String
  readBarrierSequence : Nat
  snapshot : Snapshot N

inductive Frame (N : Type)
  | notification (frame : Notification N)
  | snapshot (frame : Observation N)

/-- A record of the source journal. -/
structure Record (N : Type) where
  recordId : String
  frame : Frame N

section Schemas

/-- `z.object(..).strict()`. -/
def strictObject (shape : List (String × (Json N → Bool))) (value : Json N) : Bool :=
  value.asObject.elim false fun o =>
    (shape.all fun e => (o.get e.1).elim false e.2) && o.all fun e => shape.any fun s => s.1 = e.1

def isString (value : Json N) : Bool := value.asString.isSome

def isBool : Json N → Bool
  | .bool _ => true
  | _ => false

def nullable (check : Json N → Bool) (value : Json N) : Bool := value.isNull || check value

/-- `.length`, in UTF-16 units. -/
def jsLength (s : String) : Nat := s.toList.foldl (fun length c => if 65536 ≤ c.toNat then length + 2 else length + 1) 0

def nonempty (value : Json N) : Bool := value.asString.elim false fun s => s ≠ ""

/-- `z.string().min(1).max(255)`. -/
def publicId (value : Json N) : Bool := nonempty value && value.asString.elim false fun s => jsLength s ≤ 255

def oneOf (texts : List String) (value : Json N) : Bool := value.asString.elim false texts.contains

def nativeInitialTurnSettingsSchema : Json N → Bool :=
  strictObject [("model", isString), ("modelProvider", isString), ("reasoningEffort", nullable isString),
    ("effectiveReasoningEffort", nullable isString), ("serviceTier", nullable isString),
    ("effectiveServiceTier", nullable isString), ("collaborationMode", isString)]

def nativeModelAttributionSchema (value : Json N) : Bool :=
  strictObject [("status", oneOf ["resolved"]), ("workerId", publicId), ("providerId", publicId),
      ("providerAccountId", nullable publicId), ("modelId", publicId), ("routeId", publicId)] value ||
    strictObject [("status", oneOf ["unavailable", "unmapped", "ambiguous"])] value

def nativeTurnModelAttributionSchema : Json N → Bool :=
  strictObject [("threadId", nonempty), ("turnId", nonempty), ("isRoot", isBool), ("reasoningEffort", nullable isString),
    ("selection", nativeModelAttributionSchema)]

end Schemas

end Cantrip.NativeHistory
