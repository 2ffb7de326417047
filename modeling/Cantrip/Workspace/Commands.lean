import Cantrip.Lib.Keyed
import Cantrip.Workspace.Refine

/-!
# Command helpers of the server (`workspace_layouts/tree.rs`, `workspace_layouts/commands/mod.rs`)

A command runs on a clone of the layout with a clone of the current window beside it. Panes and windows are
looked up by identity, copied, changed and stored back by identity. An `expect`, an `unwrap` or an index
out of range is a `Failure.fault`.
-/

namespace Cantrip.Workspace

open Lib

def expect {α : Type} (value : Option α) (message : String) : Except Failure α :=
  match value with
  | some a => .ok a
  | none => .error (.fault message)

/-- `ok_or_else(|| missing(message))`. -/
def orMissing {α : Type} (value : Option α) (message : String) : Except Failure α :=
  match value with
  | some a => .ok a
  | none => missing message

namespace Node

def removeLeaf (pane : Identity) : Node → Option Node
  | .pane paneId => if paneId = pane then none else some (.pane paneId)
  | .split id direction fraction first second =>
    match removeLeaf pane first, removeLeaf pane second with
    | none, second => second
    | some first, none => some first
    | some first, some second => some (.split id direction fraction first second)

def replaceLeaf (node : Node) (pane : Identity) (replacement : Node) : Node :=
  match node with
  | .pane paneId => if paneId = pane then replacement else .pane paneId
  | .split id direction fraction first second =>
    .split id direction fraction (first.replaceLeaf pane replacement) (second.replaceLeaf pane replacement)

def resize (id : Identity) (fraction : SplitFraction) : Node → Option Node
  | .pane _ => none
  | .split splitId direction previous first second =>
    if splitId = id then some (.split splitId direction fraction first second)
    else match resize id fraction first with
      | some first => some (.split splitId direction previous first second)
      | none => (resize id fraction second).map fun second => .split splitId direction previous first second

/-- The leaves take the identities in order; `ids` are those not yet used. -/
def reorder : Node → List Identity → Except Failure (Node × List Identity)
  | .pane _, id :: ids => .ok (.pane id, ids)
  | .pane _, [] => .error (.fault "index out of bounds")
  | .split id direction fraction first second, ids => do
    let (first, ids) ← reorder first ids
    let (second, ids) ← reorder second ids
    .ok (.split id direction fraction first second, ids)

end Node

/-! ## The state of a command -/

/-- `struct Command`. -/
structure State where
  layout : Layout
  window : Window
  focusWindow : Option Identity
  retired : List Identity
  deriving DecidableEq

namespace State

def windows (state : State) : List Window :=
  state.layout.windows.map fun w => if w.id = state.window.id then state.window else w

def otherWindow (state : State) (id : Identity) (message : String) : Except Failure Window :=
  orMissing (state.windows.find? fun w => w.id = id) message

def storeWindow (state : State) (window : Window) : State :=
  if window.id = state.window.id then { state with window }
  else { state with layout := { state.layout with windows := putKey (·.id) window state.layout.windows } }

def allTabs (state : State) : List Tab := state.windows.flatMap fun w => w.panes.flatMap paneViews

end State

/-- A pending transfer names the view. -/
def Layout.reserved (layout : Layout) (id : Identity) : Bool := layout.transfers.any fun t => t.tabIds.contains id

/-! ## Panes -/

/-- `pane["conversationView"]["id"]`. -/
def Pane.directId (pane : Pane) : Option Identity := pane.direct.map (·.id)

def selectedViewId (pane : Pane) : Option Identity :=
  match pane.selection with
  | some (.conversation viewId) => viewId
  | some (.tab tabId) => tabId
  | none => pane.activeTabId

def normalizePane (pane : Pane) : Pane :=
  { pane with
    conversationView := some (pane.conversationView.getD none)
    selection := some (pane.selection.getD (.tab pane.activeTabId)) }

def findPane (window : Window) (id : Identity) : Option Pane := window.panes.find? fun p => p.id = id

def paneById (window : Window) (id : Identity) : Except Failure Pane :=
  orMissing (findPane window id) "Pane does not belong to this window."

def findView (pane : Pane) (id : Identity) : Option Tab := (paneViews pane).find? fun t => t.id = id

def tabById (window : Window) (id : Identity) : Except Failure (Pane × Tab) :=
  orMissing (window.panes.findSome? fun pane => (findView pane id).map fun tab => (pane, tab))
    "Tab does not belong to this window."

def Window.putPane (window : Window) (pane : Pane) : Window := { window with panes := putKey (·.id) pane window.panes }

def storePane (window : Window) (pane : Pane) : Except Failure Window := do
  let _existing ← expect (findPane window pane.id) "existing pane"
  .ok (window.putPane pane)

def Pane.putTab (pane : Pane) (tab : Tab) : Pane := { pane with tabs := putKey (·.id) tab pane.tabs }

def front (id : Identity) (previous : List Identity) : List Identity := id :: previous.filter fun v => v ≠ id

/-- What `focus` does to the pane. -/
def focusPane (pane : Pane) (tabId : Option Identity) : Pane :=
  if pane.directId = tabId then { pane with selection := some (.conversation tabId) }
  else { pane with activeTabId := tabId, selection := pane.selection.map fun _ => .tab tabId }

/-- A `null` view would stand first in `recentTabIds` until the end of the command, where views that are
not owned are dropped. -/
def focus (window : Window) (paneId : Identity) (tabId : Option Identity) : Except Failure Window := do
  let pane ← expect (findPane window paneId) "focus belongs to window"
  let recentTabIds := window.recentTabIds.getD []
  .ok { window.putPane (focusPane pane tabId) with
    focusedPaneId := some paneId
    recentPaneIds := front paneId window.recentPaneIds
    recentTabIds := some (match tabId with
      | some id => front id recentTabIds
      | none => recentTabIds) }

/-- Explicit navigation retires the temporary sidebar conversation in this pane. -/
def retireConversation (layout : Layout) (pane : Pane) (tabId : Option Identity) : Except Failure Pane :=
  match pane.direct with
  | some view =>
    if some view.id ≠ tabId then
      if layout.reserved view.id then invalid "Conversation is reserved for a pending transfer."
      else .ok { pane with conversationView := some none }
    else .ok pane
  | none => .ok pane

def navigate (layout : Layout) (window : Window) (paneId tabId : Identity) : Except Failure Window := do
  let pane ← expect (findPane window paneId) "navigation belongs to window"
  let pane ← retireConversation layout pane (some tabId)
  focus (window.putPane pane) paneId (some tabId)

def nextFocus (panes : List Pane) (recentPaneIds : List Identity) : Option Identity :=
  recentPaneIds.head?.or (((panes.find? fun p => p.region = .center).map (·.id)).or (panes.head?.map (·.id)))

def removePane (window : Window) (pane : Pane) : Window :=
  let panes := window.panes.filter fun p => p.id ≠ pane.id
  let recentPaneIds := window.recentPaneIds.filter fun id => id ≠ pane.id
  let window := { window with panes, recentPaneIds, centerRoot := window.centerRoot.bind (Node.removeLeaf pane.id) }
  if window.focusedPaneId = some pane.id then
    match nextFocus panes recentPaneIds with
    | some next => { window with focusedPaneId := some next, recentPaneIds := front next recentPaneIds }
    | none => { window with focusedPaneId := none }
  else window

def takeTab (window : Window) (pane : Pane) (tab : Tab) : Except Failure Window :=
  let selected := selectedViewId pane = some tab.id
  if pane.directId = some tab.id then
    let updated := { pane with conversationView := some none }
    if updated.tabs = [] then .ok (removePane window pane)
    else storePane window (if selected then { updated with selection := some (.tab updated.activeTabId) } else updated)
  else do
    let index ← expect (pane.tabs.findIdx? fun t => t.id = tab.id) "owned tab"
    let remaining := pane.tabs.eraseIdx index
    let updated := { pane with tabs := remaining }
    if paneViews updated = [] then .ok (removePane window pane)
    else
      let updated := if updated.activeTabId = some tab.id then
          { updated with activeTabId := ((remaining[index]?).or remaining.getLast?).map (·.id) }
        else updated
      storePane window (if selected ∧ updated.selection ≠ none then
          { updated with selection := some (if updated.activeTabId = none then .conversation updated.directId
            else .tab updated.activeTabId) }
        else updated)

def newPane (id : Identity) (region : Region) (tab : Tab) : Pane :=
  { id, region, titleProtection := none, tabs := [tab], activeTabId := some tab.id, conversationView := none,
    selection := none }

/-- A new leaf right of the whole tree. -/
def besideRoot (root : Option Node) (splitId paneId : Identity) : Node :=
  match root with
  | none => .pane paneId
  | some root => .split splitId .horizontal half root (.pane paneId)

end Cantrip.Workspace
