import Cantrip.NativeHistory.Reducer

/-!
# Snapshots and records (`native-history-reducer.ts`)

`snapshot` goes through what was read, and `reduceNativeHistory` through the records of a page.
-/

namespace Cantrip.NativeHistory

open Lib

section Order

variable {α κ : Type} [DecidableEq κ] (key : α → κ)

/-- What was placed and what remains, past the observed one. -/
def orderStep (r : List α × List α) (observedId : κ) : List α × List α :=
  match r.2.findIdx? fun e => key e = observedId with
  | none => r
  | some index => (r.1 ++ r.2.take (index + 1), r.2.drop (index + 1))

def order (existing : List α) (observed : List κ) : List α :=
  let placed := observed.foldl (orderStep key) ([], existing)
  placed.1 ++ placed.2

/-- A new entry goes before the first retained one that was observed after it. -/
def place (observed : List κ) (retained : List α) (entry : α) : List α :=
  let later := (observed.idxOf? (key entry)).elim observed fun position => observed.drop (position + 1)
  match later.find? fun candidate => retained.any fun e => key e = candidate with
  | none => retained ++ [entry]
  | some next => retained.insertIdx (retained.findIdx fun e => key e = next) entry

def arrange (old observed : List κ) (entries : List α) : List α :=
  let inserted := entries.filter fun e => !old.contains (key e)
  let retained := entries.filter fun e => old.contains (key e)
  order key (inserted.foldl (place key observed) retained) observed

end Order

variable {N : Type} [DecidableEq N] [JsNumber N]

/-! ## Snapshots -/

def provisional (raw : CodexTurn N) (history : Option (History N)) : Bool :=
  sameValue (raw.fields.get "status") (some (.string "interrupted")) && (time (raw.fields.get "completedAt")).isNone &&
    history.elim false fun h => h.currentTurnLive && decide (h.currentTurnId = some raw.id)

def Turn.noteSettingsConflict (turn : Turn N) : Turn N :=
  let turn :=
    if turn.conflicts.any fun entry => sameValue (entry.get "initialSettingsConflict") (some (.bool true)) then turn
    else { turn with conflicts := turn.conflicts ++ [[("initialSettingsConflict", .bool true)]], revision := turn.revision + 1 }
  match (turn.metadatum "initialSettings").filter Json.truthy with
  | none => turn
  | some settings =>
    { turn with
      conflicts := turn.conflicts ++ [[("initialSettings", settings)]]
      metadata := turn.metadata.map fun m => m.erase "initialSettings"
      revision := turn.revision + 1 }

/-- The contexts that were kept, and those that are new. -/
def mergedContexts (turn : Turn N) (metadata : TurnMetadata N) : List (Json N) :=
  metadata.contexts.foldl (fun contexts context =>
    if contexts.any fun previous => previous.deepEqual context then contexts else contexts ++ [context])
    (((turn.metadatum "contexts").bind Json.asArray).getD [])

def kept (turn : Turn N) (key : String) : Fields N :=
  ((turn.metadatum key).filter Json.truthy).elim [] fun v => [(key, v)]

def retainedMetadata (turn : Turn N) (metadata : TurnMetadata N) : Fields N :=
  let contexts := mergedContexts turn metadata
  ((metadata.fields.spread (kept turn "cantripModelAttribution")).spread
    (if contexts.isEmpty then [] else [("contexts", .array contexts)])).spread (kept turn "initialSettings")

def retainMetadata (turn : Turn N) (metadata : TurnMetadata N) (origin : Origin) : Turn N :=
  if concurrent turn.origin origin then turn
  else if turn.metadata.elim false fun m => m.equal (retainedMetadata turn metadata) then turn
  else { turn with metadata := some (retainedMetadata turn metadata), revision := turn.revision + 1 }

def fullView (raw : Fields N) : Bool :=
  !sameValue (raw.get "itemsView") (some (.string "summary")) && !sameValue (raw.get "itemsView") (some (.string "notLoaded"))

def liveCandidate (live : LiveItem N) (origin : Origin) : Candidate N :=
  { body := live.item.body, lifecycle := live.state, completeBody := true, startedAtMs := live.startedAtMs,
    completedAtMs := live.completedAtMs, origin := { origin with nativeCursor := some live.cursor } }

def liveItems (history : Option (History N)) : List (LiveItem N) :=
  (history.bind fun h => h.live).elim [] fun live => live.items

def findLive (history : Option (History N)) (turnId itemId : String) : Option (LiveItem N) :=
  (liveItems history).find? fun live => live.turnId = turnId ∧ live.item.id = itemId

def snapshotItem (history : Option (History N)) (raw : CodexTurn N) (metadata : Option (TurnMetadata N)) (kind : IdentityKind)
    (origin : Origin) (turn : Turn N) (item : CodexItem N) : Turn N :=
  match findLive history raw.id item.id with
  | some live => applyItem turn item.id .canonical (liveCandidate live origin) false
  | none =>
    let evidence := metadata.bind fun m => m.items.find? fun entry => entry.itemId = item.id
    applyItem turn item.id kind
      { body := item.body, lifecycle := evidence.elim .unknown fun e => e.state, completeBody := fullView raw.fields,
        startedAtMs := evidence.bind fun e => e.startedAtMs, completedAtMs := evidence.bind fun e => e.completedAtMs, origin } false

def snapshotTurn (history : Option (History N)) (raw : CodexTurn N) (origin : Origin) (turn : Turn N) : Turn N :=
  let provisional := provisional raw history
  let turn := if provisional then turn.noteConflict [("inferredInterruption", .object raw.fields)] else turn
  let turn := applyTurn turn (if provisional then raw.fields.put "status" (.string "inProgress") else raw.fields) origin false
  let metadata := history.bind fun h => h.turns.find? fun entry => entry.turnId = raw.id
  let turn := if metadata.elim false fun m => m.initialSettingsConflict then turn.noteSettingsConflict else turn
  let turn := retainInitialSettings turn (metadata.bind fun m => m.initialSettings)
  let turn := metadata.elim turn fun m => retainMetadata turn m origin
  let kind := metadata.elim .legacy fun m => m.source
  let oldKeys := turn.items.map Item.key
  let turn := raw.items.foldl (snapshotItem history raw metadata kind origin) turn
  { turn with items := arrange Item.key oldKeys (raw.items.map fun item => (kind, item.id)) turn.items }

/-- Change the turn, which is created where it is not known. -/
def onTurn (turnId : String) (origin : Origin) (f : Turn N → Turn N) (turns : List (Turn N)) : List (Turn N) :=
  let turns := ensureTurn turns turnId origin
  (turns.find? fun t => t.id = turnId).elim turns fun turn => putKey Turn.id (f turn) turns

def snapshot (turns : List (Turn N)) (value : Snapshot N) (origin : Origin) : List (Turn N) :=
  let oldTurnIds := turns.map Turn.id
  let turns := value.turns.foldl (fun turns raw => onTurn raw.id origin (snapshotTurn value.history raw origin) turns) turns
  let turns := arrange Turn.id oldTurnIds (value.turns.map CodexTurn.id) turns
  (liveItems value.history).foldl (fun turns live =>
    if value.turns.any fun turn => turn.id = live.turnId && turn.items.any fun item => item.id = live.item.id then turns
    else onTurn live.turnId origin (fun turn => applyItem turn live.item.id .canonical (liveCandidate live origin) false) turns)
    turns

/-- What is kept of the reading itself. -/
def readEvidence (value : Snapshot N) : Fields N :=
  value.extra.spread [("thread", .object value.threadHeader),
    ("history", value.history.elim .null fun h => .object (h.header.spread (h.live.elim [] fun live =>
      [("live", .object [("epoch", .string live.epoch), ("throughSequence", .string (toString live.throughSequence))])])))]

/-! ## Records -/

inductive Failure
  | error (message : String)
  /-- A schema does not take the value. -/
  | zod
  deriving DecidableEq

/-- `nativeHistoryStateSchema.parse`, where the types leave something open. -/
def parseState (state : State N) : Except Failure (State N) :=
  if state.threadId ≠ "" ∧ ∀ turn ∈ state.turns, turn.terminalNotification.all (oneOf ["completed", "failed", "interrupted"]) then
    .ok state
  else .error .zod

def openState (previous : Option (State N)) (threadId : String) : Except Failure (State N) :=
  (parseState (previous.getD { threadId, turns := [], evidence := [], notifications := [] })).bind fun state =>
    if state.threadId ≠ threadId then .error (.error "Native history state belongs to another thread.") else .ok state

def retainAttribution (threadId : String) (turn : Turn N) (input : Option (Json N)) : Turn N :=
  match input.filter nativeTurnModelAttributionSchema with
  | none => turn
  | some data =>
    let names (key text : String) := sameValue (data.asObject.bind fun o => o.get key) (some (.string text))
    if names "threadId" threadId && names "turnId" turn.id then
      match (turn.metadatum "cantripModelAttribution").filter Json.truthy with
      | none =>
        { turn with
          metadata := some (Fields.spread (turn.metadata.getD []) [("cantripModelAttribution", data)])
          revision := turn.revision + 1 }
      | some prior => if prior.deepEqual data then turn else turn.noteConflict [("cantripModelAttribution", data)]
    else turn

def turnItem (raw : Fields N) (origin : Origin) (turn : Turn N) (candidate : Json N) : Turn N :=
  match candidate.asObject with
  | none => turn
  | some item =>
    match idOf (item.get "id"), idOf (item.get "type") with
    | some itemId, some _ =>
      applyItem turn itemId .canonical
        { body := item, lifecycle := .unknown, completeBody := fullView raw, startedAtMs := none, completedAtMs := none, origin } false
    | _, _ => turn

def turnNotification (threadId method : String) (params raw : Fields N) (origin : Origin) (turn : Turn N) : Turn N :=
  let turn := applyTurn turn raw origin (method = "turn/completed")
  let turn :=
    if method = "turn/started" then
      retainAttribution threadId (retainInitialSettings turn (params.get "initialSettings")) (params.get "cantripModelAttribution")
    else turn
  (((raw.get "items").bind Json.asArray).getD []).foldl (turnItem raw origin) turn

/-- The item of `item/started` and `item/completed`. -/
def notifiedItem (method : String) (params : Fields N) : Option (String × Fields N) :=
  if method = "item/started" ∨ method = "item/completed" then
    ((params.get "item").bind Json.asObject).bind fun item =>
      (idOf (item.get "id")).bind fun itemId => (idOf (item.get "type")).map fun _ => (itemId, item)
  else none

def itemNotification (method : String) (params : Fields N) (item : String × Fields N) (origin : Origin) (turn : Turn N) : Turn N :=
  applyItem turn item.1 .canonical
    { body := item.2, lifecycle := if method = "item/completed" then .completed else .started, completeBody := true,
      startedAtMs := time (params.get "startedAtMs"), completedAtMs := time (params.get "completedAtMs"), origin }
    (method = "item/started")

def turnIdOf (params : Fields N) : Option String :=
  (idOf (params.get "turnId")).or (((params.get "turn").bind Json.asObject).bind fun raw => idOf (raw.get "id"))

def notify (threadId : String) (frame : Notification N) (origin : Origin) (turn : Turn N) : Option (Turn N) :=
  let raw := ((frame.params.get "turn").bind Json.asObject).filter fun _ =>
    frame.method = "turn/started" ∨ frame.method = "turn/completed"
  match raw, notifiedItem frame.method frame.params with
  | some raw, _ => some (turnNotification threadId frame.method frame.params raw origin turn)
  | none, some item => some (itemNotification frame.method frame.params item origin turn)
  | none, none => delta turn frame.params frame.method origin

def Notification.origin (frame : Notification N) : Origin :=
  { kind := .notification, generation := frame.generation, sequence := frame.sequence, nativeCursor := frame.nativeCursor }

/-- Whether the notification is behind the last one of its generation. -/
def State.passed (state : State N) (frame : Notification N) : Bool :=
  (state.notifications.find? fun b => b.generation = frame.generation).elim false fun b => frame.sequence ≤ b.sequence

def advanceBoundary (boundaries : List Boundary) (frame : Notification N) : List Boundary :=
  let last : Boundary := ⟨frame.generation, frame.sequence⟩
  if boundaries.any fun b => b.generation = frame.generation then putKey Boundary.generation last boundaries
  else boundaries ++ [last]

def State.addEvidence (state : State N) (recordId method : String) (params : Fields N) : State N :=
  { state with evidence := state.evidence ++ [⟨recordId, method, params⟩] }

def reduceNotification (state : State N) (recordId : String) (frame : Notification N) : State N :=
  if state.passed frame then state
  else
    let state := { state with notifications := advanceBoundary state.notifications frame }
    match turnIdOf frame.params with
    | none => state.addEvidence recordId frame.method frame.params
    | some turnId =>
      let turns := ensureTurn state.turns turnId frame.origin
      match (turns.find? fun t => t.id = turnId).bind (notify state.threadId frame frame.origin) with
      | some turn => { state with turns := putKey Turn.id turn turns }
      | none => { state with turns }.addEvidence recordId frame.method frame.params

def reduceObservation (state : State N) (recordId : String) (frame : Observation N) : State N :=
  if state.evidence.any fun entry => entry.recordId = recordId then state
  else
    let origin : Origin :=
      { kind := .snapshot, generation := frame.generation, sequence := frame.readBarrierSequence, nativeCursor := none }
    { state with turns := snapshot state.turns frame.snapshot origin }.addEvidence recordId "thread/read" (readEvidence frame.snapshot)

def Frame.threadId : Frame N → String
  | .notification frame => frame.threadId
  | .snapshot frame => frame.threadId

def reduceRecord (threadId : String) (state : State N) (record : Record N) : Except Failure (State N) :=
  if record.frame.threadId ≠ threadId then .error (.error "Native history source belongs to another thread.")
  else
    match record.frame with
    | .snapshot frame => .ok (reduceObservation state record.recordId frame)
    | .notification frame => .ok (reduceNotification state record.recordId frame)

def Item.number (item : Item N) (ordinal : Nat) : Item N :=
  if item.ordinal ≠ ordinal then { item with ordinal, revision := item.revision + 1 } else item

def Turn.number (turn : Turn N) (ordinal : Nat) : Turn N :=
  let turn := if turn.ordinal ≠ ordinal then { turn with ordinal, revision := turn.revision + 1 } else turn
  { turn with items := turn.items.mapIdx fun ordinal item => item.number ordinal }

def State.number (state : State N) : State N := { state with turns := state.turns.mapIdx fun ordinal turn => turn.number ordinal }

def reduceNativeHistory (previous : Option (State N)) (records : List (Record N)) (threadId : String) : Except Failure (State N) :=
  (openState previous threadId).bind fun state =>
    (records.foldlM (reduceRecord threadId) state).bind fun state => parseState state.number

end Cantrip.NativeHistory
