import Cantrip.NativeHistory.State

/-!
# The reducer (`native-history-reducer.ts`)

Objects that the source changes in place are handed on. `applyItem` and `applyTurn` give back the turn, `delta` gives
back the turn or says that it did not take the update.
-/

namespace Cantrip.NativeHistory

open Lib

variable {N : Type} [DecidableEq N] [JsNumber N]

def time (value : Option (Json N)) : Option N :=
  value.bind fun v => match v with
    | .number n => if JsNumber.isFinite n then some n else none
    | _ => none

/-- `id`, with what it is. -/
def idOf (value : Option (Json N)) : Option String := (value.bind Json.asString).filter fun s => s ≠ ""

def terminal (value : Option (Json N)) : Bool :=
  value.elim false fun v => ["completed", "failed", "interrupted"].contains v.toText

/-- `===` of properties. -/
def sameValue : Option (Json N) → Option (Json N) → Bool
  | none, none => true
  | some a, some b => a.same b
  | _, _ => false

def truthy (value : Option (Json N)) : Bool := value.elim false Json.truthy

def covers (a b : Fields N) : Bool := b.all fun e => (a.get e.1).elim false fun v => v.deepEqual e.2

def concurrent (previous next : Origin) : Bool :=
  decide (next.kind = .snapshot ∧ previous.generation = next.generation ∧ next.sequence < previous.sequence)

def nativeOrder (previous next : Origin) : Option Ordering :=
  match previous.nativeCursor, next.nativeCursor with
  | some a, some b => if a.epoch = b.epoch then some (compare b.sequence a.sequence) else none
  | _, _ => none

/-! ## Turns -/

def ensureTurn (turns : List (Turn N)) (turnId : String) (origin : Origin) : List (Turn N) :=
  if turns.any fun t => t.id = turnId then turns
  else
    turns ++ [{ id := turnId, ordinal := turns.length, revision := 1, body := [("id", .string turnId)], metadata := none,
                terminalNotification := none, origin, items := [], conflicts := [] }]

/-- Keep a conflict once. -/
def Turn.noteConflict (turn : Turn N) (conflict : Fields N) : Turn N :=
  if turn.conflicts.any fun entry => entry.equal conflict then turn
  else { turn with conflicts := turn.conflicts ++ [conflict], revision := turn.revision + 1 }

/-- `turn.metadata?.[key]`. -/
def Turn.metadatum (turn : Turn N) (key : String) : Option (Json N) := turn.metadata.bind fun m => m.get key

def Turn.dropSettings (turn : Turn N) : Turn N :=
  if turn.metadata.elim false fun m => m.has "initialSettings" then
    { turn with metadata := turn.metadata.map fun m => m.erase "initialSettings", revision := turn.revision + 1 }
  else turn

def retainInitialSettings (turn : Turn N) (input : Option (Json N)) : Turn N :=
  match input.filter nativeInitialTurnSettingsSchema with
  | none => turn
  | some next =>
    let previous := turn.metadatum "initialSettings"
    let conflict := turn.conflicts.any fun entry =>
      entry.has "initialSettings" || sameValue (entry.get "initialSettingsConflict") (some (.bool true))
    if conflict || truthy previous && !previous.elim false fun p => p.deepEqual next then
      (([previous, some next].filter truthy).foldl
        (fun turn value => value.elim turn fun v => turn.noteConflict [("initialSettings", v)]) turn).dropSettings
    else if !truthy previous then
      { turn with metadata := some (Fields.spread (turn.metadata.getD []) [("initialSettings", next)]), revision := turn.revision + 1 }
    else turn

/-- The fields that a completion or a correction may set to null. -/
def outcomeFields : List String := ["error", "completedAt", "durationMs"]

def Turn.revised (before turn : Turn N) : Turn N :=
  if before.body.equal turn.body && turn.conflicts.length == before.conflicts.length &&
      before.terminalNotification.elim turn.terminalNotification.isNone fun a =>
        turn.terminalNotification.elim false fun b => a.deepEqual b then turn
  else { turn with revision := turn.revision + 1 }

def applyTurn (turn : Turn N) (raw : Fields N) (origin : Origin) (completion : Bool) : Turn N :=
  if concurrent turn.origin origin then turn
  else
    let body := raw.erase "items"
    let status := turn.body.get "status"
    let confirmed := sameValue turn.terminalNotification status && turn.terminalNotification.isSome
    let actualCompletion := completion && terminal (body.get "status")
    let contradicts := terminal status && terminal (body.get "status") && !sameValue status (body.get "status")
    let corrects := !confirmed &&
      (actualCompletion || (time (body.get "completedAt")).isSome && (time (turn.body.get "completedAt")).isNone)
    let replace := !contradicts || corrects
    let terminalCorrection := contradicts && corrects
    let conflict := if corrects then turn.body else body
    let conflicts :=
      if contradicts && !turn.conflicts.any fun entry => entry.equal conflict then turn.conflicts ++ [conflict]
      else turn.conflicts
    let observed := if terminal status && !terminal (body.get "status") then body.erase "status" else body
    let merged := observed.foldl (fun kept e =>
      if !e.2.isNull || !kept.has e.1 || (actualCompletion || terminalCorrection) && outcomeFields.contains e.1 then
        kept.put e.1 e.2
      else kept) turn.body
    turn.revised
      (if replace then
        { turn with
          body := merged, conflicts, origin
          terminalNotification := if actualCompletion then body.get "status" else turn.terminalNotification }
      else { turn with conflicts })

/-! ## Items -/

def sameCandidate (a b : Candidate N) : Bool :=
  a.body.equal b.body && decide (a.lifecycle = b.lifecycle ∧ a.completeBody = b.completeBody ∧ a.startedAtMs = b.startedAtMs ∧
    a.completedAtMs = b.completedAtMs ∧ a.origin = b.origin)

/-- Equal `itemMaterial`. -/
def sameMaterial (a b : Item N) : Bool :=
  a.body.equal b.body && decide (a.lifecycle = b.lifecycle ∧ a.completeBody = b.completeBody ∧ a.startedAtMs = b.startedAtMs ∧
      a.completedAtMs = b.completedAtMs ∧ a.id = b.id ∧ a.identityKind = b.identityKind ∧ a.ordinal = b.ordinal ∧
      a.conflicts.length = b.conflicts.length) &&
    (a.conflicts.zip b.conflicts).all fun pair => sameCandidate pair.1 pair.2

inductive Verdict
  | replace
  | keep
  | conflict
  deriving DecidableEq

/-- Which of two completed bodies stays. -/
def verdict (ordering : Option Ordering) (previous : Item N) (next : Candidate N) : Verdict :=
  if previous.lifecycle = .completed ∧ next.lifecycle = .completed ∧ previous.body.equal next.body = false then
    if ordering = some .gt then .replace
    else if ordering = some .lt then .keep
    else if covers previous.body next.body then .keep
    else if covers next.body previous.body then .replace
    else
      let later := previous.completedAtMs.bind fun a => next.completedAtMs.bind fun b =>
        if JsNumber.same a b then none else some (JsNumber.lt a b)
      match later with
      | some true => .replace
      | some false => .keep
      | none =>
        if next.origin.kind = .notification ∧ previous.origin.generation = next.origin.generation ∧
            previous.origin.sequence < next.origin.sequence then .replace
        else .conflict
  else .replace

def Item.replaced (previous : Item N) (next : Candidate N) : Item N :=
  { previous with
    body := next.body
    lifecycle := if next.lifecycle = .unknown then previous.lifecycle else next.lifecycle
    completeBody := next.completeBody
    completedAtMs := next.completedAtMs.elim previous.completedAtMs fun b =>
      some (previous.completedAtMs.elim b fun a => JsNumber.max a b)
    origin := next.origin }

def settle (ordering : Option Ordering) (previous : Item N) (next : Candidate N) : Item N :=
  match verdict ordering previous next with
  | .replace => previous.replaced next
  | .keep => previous
  | .conflict =>
    if previous.conflicts.any fun entry => entry.body.equal next.body && decide (entry.lifecycle = next.lifecycle) then previous
    else { previous with conflicts := previous.conflicts ++ [next] }

/-- The fields of the live item stay, with those that only the snapshot has. -/
def enriched (previous : Item N) (next : Candidate N) : Candidate N :=
  if next.origin.kind = .snapshot ∧ next.origin.nativeCursor = none ∧ next.lifecycle = .started ∧
      previous.lifecycle = .started ∧ previous.origin.kind = .notification ∧
      previous.origin.generation = next.origin.generation then
    { next with body := next.body.spread previous.body, origin := previous.origin }
  else next

def begun (previous : Item N) (next : Candidate N) (initial : Bool) : Candidate N :=
  if initial = true ∧ previous.lifecycle = .started then
    { next with
      origin := if previous.origin.kind = .snapshot ∧ previous.body.equal next.body = false then previous.origin else next.origin
      body := next.body.spread previous.body }
  else next

def stale (previous next : Origin) : Bool :=
  match nativeOrder previous next with
  | none => concurrent previous next
  | some order => decide (order = .lt)

def downgrade (previous : Item N) (next : Candidate N) : Bool :=
  decide (previous.lifecycle = .completed ∧ next.lifecycle ≠ .completed) || previous.completeBody && !next.completeBody

/-- What is not known of the times is taken over. -/
def Item.timed (item : Item N) (next : Candidate N) : Item N :=
  let started := { item with startedAtMs := item.startedAtMs.or next.startedAtMs }
  if started.completedAtMs = none ∧ started.lifecycle = .completed then { started with completedAtMs := next.completedAtMs }
  else started

def Item.revised (previous item : Item N) : Item N :=
  if sameMaterial previous item then item else { item with revision := item.revision + 1 }

def Item.revise (previous : Item N) (candidate : Candidate N) (initial : Bool) : Item N :=
  let next := begun previous (enriched previous candidate) initial
  let settled :=
    if !stale previous.origin candidate.origin && !downgrade previous candidate then
      settle (nativeOrder previous.origin candidate.origin) previous next
    else previous
  previous.revised (settled.timed next)

def applyItem (turn : Turn N) (itemId : String) (identityKind : IdentityKind) (next : Candidate N) (initial : Bool) : Turn N :=
  match turn.items.find? fun item => item.key = (identityKind, itemId) with
  | none =>
    { turn with
      items := turn.items ++
        [{ next with id := itemId, identityKind, revision := 1, ordinal := turn.items.length, conflicts := [] }] }
  | some previous => { turn with items := putKey Item.key (previous.revise next initial) turn.items }

/-! ## Deltas -/

def deltaKind (method : String) : Option String :=
  if method = "item/agentMessage/delta" then some "agentMessage"
  else if method = "item/commandExecution/outputDelta" then some "commandExecution"
  else if method = "item/fileChange/patchUpdated" then some "fileChange"
  else if "item/reasoning/summary".toList.isPrefixOf method.toList then some "reasoning"
  else none

inductive Route
  | covered
  | missing
  | applies
  deriving DecidableEq

/-- Where the cursor of a delta stands to that of the item. -/
def route : Option Cursor → Option Cursor → Route
  | some cursor, some previous =>
    if cursor.epoch ≠ previous.epoch then .missing
    else if cursor.sequence ≤ previous.sequence then .covered
    else if cursor.previousSequence ≠ some previous.sequence then .missing
    else .applies
  | none, none => .applies
  | _, _ => .missing

/-- `typeof body[field] === "string" ? body[field] : ""`. -/
def textField (body : Fields N) (field : String) : String := ((body.get field).bind Json.asString).getD ""

/-- `body.summaryParts`, or the strings of `body.summary`. -/
def summaryParts (body : Fields N) : Fields N :=
  ((body.get "summaryParts").bind Json.asObject).getD
    ((((body.get "summary").bind Json.asArray).getD []).zipIdx.filterMap fun e =>
      e.1.asString.map fun text => (toString e.2, .string text))

/-- `parts[index] ?? undefined`. -/
def part (parts : Fields N) (index : String) : Option (Json N) := (parts.get index).filter fun v => !v.isNull

def summaryIndex (params : Fields N) : Option Nat :=
  (params.get "summaryIndex").bind fun v => match v with
    | .number n => JsNumber.index n
    | _ => none

def streamed (method kind : String) (params body : Fields N) : Option (Fields N) :=
  if method = "item/fileChange/patchUpdated" then
    ((params.get "changes").bind Json.asArray).map fun changes => body.put "changes" (.array changes)
  else if kind = "reasoning" then
    (summaryIndex params).bind fun i =>
      let parts := summaryParts body
      let index := toString i
      if method = "item/reasoning/summaryTextDelta" then
        ((params.get "delta").bind Json.asString).map fun text =>
          body.put "summaryParts" (.object (parts.put index (.string (((part parts index).elim "" Json.toText) ++ text))))
      else if method = "item/reasoning/summaryPartAdded" then
        some (body.put "summaryParts" (.object (if (part parts index).isNone then parts.put index (.string "") else parts)))
      else none
  else
    ((params.get "delta").bind Json.asString).map fun text =>
      let field := if kind = "agentMessage" then "text" else "aggregatedOutput"
      body.put field (.string (textField body field ++ text))

/-- Without a cursor, the base has to be live and of the same transport. -/
def uncertain (item : Option (Item N)) (origin : Origin) : Bool :=
  item.elim false fun i =>
    decide (i.origin.nativeCursor = none ∧ (i.origin.generation ≠ origin.generation ∨ i.origin.kind = .snapshot))

def continued (item : Option (Item N)) (body : Fields N) (origin : Origin) : Candidate N :=
  { body, lifecycle := .started, completeBody := item.elim false fun i => i.completeBody,
    startedAtMs := item.bind fun i => i.startedAtMs, completedAtMs := none, origin }

/-- The turn once the update is dealt with, or nothing. -/
def delta (turn : Turn N) (params : Fields N) (method : String) (origin : Origin) : Option (Turn N) :=
  (idOf (params.get "itemId")).bind fun itemId => (deltaKind method).bind fun kind =>
    let item := turn.items.find? fun item => item.key = (.canonical, itemId)
    if item.elim false fun i => decide (i.lifecycle = .completed) then some turn
    else
      match route origin.nativeCursor (item.bind fun i => i.origin.nativeCursor) with
      | .covered => some turn
      | .missing => none
      | .applies =>
        if uncertain item origin then none
        else
          (streamed method kind params (item.elim [("id", .string itemId), ("type", .string kind)] fun i => i.body)).map
            fun body => applyItem turn itemId .canonical (continued item body origin) false

end Cantrip.NativeHistory
