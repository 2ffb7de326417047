import Cantrip.Lib.UpdateLog
import Cantrip.NativeHistory.Items

/-!
# Native items

An item of the native runtime in one epoch: the body it starts with, a chain of updates that each name the one
before, and the body it is completed with. `textAt` is what is streamed of it at a cursor. The runtime tells of it in
notifications, one for the start, for each update and for the completion, and in the live entries of snapshots.
-/

namespace Cantrip.NativeHistory

open Lib

/-! ## Streamed text -/

/-- `text`, `aggregatedOutput` and the parts of the summary. -/
@[ext] structure Streams where
  text : String
  output : String
  parts : Nat → Option String

variable {N : Type} [DecidableEq N] [JsNumber N]

def streams (body : Fields N) : Streams where
  text := textField body "text"
  output := textField body "aggregatedOutput"
  parts := fun i => (part (summaryParts body) (toString i)).map Json.toText

inductive Change
  | text (delta : String)
  | output (delta : String)
  | summaryText (index : Nat) (delta : String)
  | summaryPart (index : Nat)
  /-- Of another field. -/
  | other
  deriving DecidableEq

def Change.apply : Change → Streams → Streams
  | .text delta, s => { s with text := s.text ++ delta }
  | .output delta, s => { s with output := s.output ++ delta }
  | .summaryText index delta, s => { s with parts := Function.update s.parts index (some ((s.parts index).getD "" ++ delta)) }
  | .summaryPart index, s => { s with parts := Function.update s.parts index (some ((s.parts index).getD "")) }
  | .other, s => s

def textMethods : List String :=
  ["item/agentMessage/delta", "item/commandExecution/outputDelta", "item/reasoning/summaryTextDelta",
    "item/reasoning/summaryPartAdded"]

def wholeMethods : List String := ["turn/started", "turn/completed", "item/started", "item/completed"]

def Change.Written (method : String) (params : Fields N) : Change → Prop
  | .text delta => method = "item/agentMessage/delta" ∧ params.get "delta" = some (.string delta)
  | .output delta => method = "item/commandExecution/outputDelta" ∧ params.get "delta" = some (.string delta)
  | .summaryText index delta =>
    method = "item/reasoning/summaryTextDelta" ∧ summaryIndex params = some index ∧ params.get "delta" = some (.string delta)
  | .summaryPart index => method = "item/reasoning/summaryPartAdded" ∧ summaryIndex params = some index
  | .other => method ∉ textMethods ∧ method ∉ wholeMethods

/-! ## The item -/

structure NativeItem (N : Type) where
  turnId : String
  itemId : String
  epoch : String
  startSequence : Nat
  startBody : Fields N
  updates : List (Link Change)
  completion : Option (Nat × Fields N)
  linked : Linked startSequence updates
  completesLast : ∀ e ∈ completion, startSequence < e.1 ∧ ∀ link ∈ updates, link.sequence < e.1

namespace NativeItem

def textAt (n : NativeItem N) (cursor : Nat) : Streams :=
  (n.completion.filter fun e => e.1 ≤ cursor).elim (valueAt Change.apply (streams n.startBody) n.updates cursor)
    fun e => streams e.2

def lifecycleAt (n : NativeItem N) (cursor : Nat) : Lifecycle :=
  if n.completion.any fun e => e.1 ≤ cursor then .completed else .started

def HasCursor (n : NativeItem N) (cursor : Nat) : Prop :=
  cursor = n.startSequence ∨ (∃ link ∈ n.updates, link.sequence = cursor) ∨ ∃ e ∈ n.completion, e.1 = cursor

structure Holds (n : NativeItem N) (candidate : Candidate N) (cursor : Nat) : Prop where
  origin : ∃ previous, candidate.origin.nativeCursor = some ⟨n.epoch, cursor, previous⟩
  known : n.HasCursor cursor
  text : streams candidate.body = n.textAt cursor
  /-- The body at the start is the one that the item starts with. -/
  start : cursor = n.startSequence → ∀ key, candidate.body.get key = n.startBody.get key
  lifecycle : candidate.lifecycle = n.lifecycleAt cursor
  complete : candidate.completeBody = true

/-! ## What the runtime tells -/

def listed (params : Fields N) : List (Json N) :=
  (((((params.get "turn").bind Json.asObject).bind fun raw => raw.get "items").bind Json.asArray)).getD []

def Mentioned (n : NativeItem N) (frame : Notification N) : Prop :=
  turnIdOf frame.params = some n.turnId ∧ (((frame.method = "turn/started" ∨ frame.method = "turn/completed") ∧
        ∃ entry ∈ listed frame.params, ∃ item, entry.asObject = some item ∧ idOf (item.get "id") = some n.itemId) ∨
      (∃ body, notifiedItem frame.method frame.params = some (n.itemId, body)) ∨
      ((deltaKind frame.method).isSome ∧ idOf (frame.params.get "itemId") = some n.itemId))

structure TellsWhole (n : NativeItem N) (method : String) (cursor : Nat) (body : Fields N) (frame : Notification N) : Prop where
  named : frame.method = method
  turn : turnIdOf frame.params = some n.turnId
  item : notifiedItem frame.method frame.params = some (n.itemId, body)
  origin : ∃ previous, frame.nativeCursor = some ⟨n.epoch, cursor, previous⟩

structure TellsUpdate (n : NativeItem N) (link : Link Change) (frame : Notification N) : Prop where
  listed : link ∈ n.updates
  written : link.update.Written frame.method frame.params
  turn : turnIdOf frame.params = some n.turnId
  item : idOf (frame.params.get "itemId") = some n.itemId
  origin : frame.nativeCursor = some ⟨n.epoch, link.sequence, some link.previous⟩

def Carried (n : NativeItem N) (live : LiveItem N) : Prop :=
  ∃ cursor, n.HasCursor cursor ∧ live.cursor.epoch = n.epoch ∧ live.cursor.sequence = cursor ∧ live.state = n.lifecycleAt cursor ∧
    streams live.item.body = n.textAt cursor ∧ (cursor = n.startSequence → live.item.body = n.startBody)

inductive Built (n : NativeItem N) : Frame N → Prop
  | started {frame : Notification N} (h : n.TellsWhole "item/started" n.startSequence n.startBody frame) : Built n (.notification frame)
  | updated {frame : Notification N} {link : Link Change} (h : n.TellsUpdate link frame) : Built n (.notification frame)
  | completed {frame : Notification N} {e : Nat × Fields N} (he : e ∈ n.completion) (h : n.TellsWhole "item/completed" e.1 e.2 frame) :
    Built n (.notification frame)
  | elsewhere {frame : Notification N} (h : ¬ n.Mentioned frame) : Built n (.notification frame)
  | read {frame : Observation N}
      (hitems : ∀ turn ∈ frame.snapshot.turns, turn.id = n.turnId → ∀ item ∈ turn.items, item.id = n.itemId →
        (findLive frame.snapshot.history n.turnId n.itemId).isSome)
      (hlive : ∀ live ∈ liveItems frame.snapshot.history, live.turnId = n.turnId → live.item.id = n.itemId → n.Carried live) :
    Built n (.snapshot frame)

end NativeItem

end Cantrip.NativeHistory
