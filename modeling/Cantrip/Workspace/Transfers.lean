import Cantrip.Workspace.Views

/-!
# Attachments and transfers (`workspace_layouts/commands/transfers.rs`) and `apply`

A transfer is prepared by its source, acknowledged twice by its destination and committed or cancelled by its
source. `apply` checks the command against the layout, runs the action, brings the panes and the recent tabs
up to date and validates the layout once more.
-/

namespace Cantrip.Workspace

open Lib

def Placement.isConversation (placement : Placement) : Bool := placement.viewKind = some .conversation

namespace State

def retire (state : State) (id : Identity) : State :=
  { state with
    layout := { state.layout with windows := state.layout.windows.filter fun w => w.id ≠ id }
    retired := state.retired ++ [id] }

def placement (state : State) (pane : Pane) (tabPosition : Nat) (viewKind : Option ViewKind) :
    Except Failure Placement := do
  let panePosition ← expect (state.window.panes.findIdx? fun p => p.id = pane.id) "unwrap"
  .ok { panePosition, tabPosition, viewKind, region := pane.region, centerRoot := state.window.centerRoot }

def touches (state : State) (transfer : Transfer) : Bool :=
  transfer.sourceWindowId = state.window.id || transfer.destinationWindowId = state.window.id

def replaceAttachment (state : State) (rendererId : Identity) : Except Failure State :=
  if state.window.rendererId = some rendererId then .ok state
  else
    let previous := state.layout.transfers
    let staged := previous.any fun t => t.destinationWindowId = state.window.id && !t.returning
    if staged ∧ state.window.rendererId = none then
      .ok { state with window := { state.window with rendererId := some rendererId } }
    else
      let generation := state.window.attachmentGeneration + 1
      if generation > maxSafe then
        .error (.command .attachment "Workspace attachment generation is exhausted.")
      else
        let interrupted := previous.filter state.touches
        let retired := interrupted.foldl (fun state transfer =>
          if !transfer.returning then state.retire transfer.destinationWindowId else state) state
        .ok { retired with
          layout := { retired.layout with pendingTransfers := some (previous.filter fun t => !state.touches t) }
          window := { state.window with attachmentGeneration := generation, rendererId := some rendererId } }

def transferred (pane : Pane) (tabId : Option Identity) : Except Failure (List Tab) :=
  match tabId with
  | some id => do
    let view ← orMissing (findView pane id) "Tab does not belong to the source pane."
    .ok [view]
  | none => .ok (paneViews pane)

def inUse (transfers : List Transfer) (transferId : Identity) (selected : List Tab) : Bool :=
  transfers.any fun t => t.id = transferId || t.tabIds.any fun id => selected.any fun tab => tab.id = id

def ownsPane (state : State) (id : Identity) : Bool := state.windows.any fun w => w.panes.any fun p => p.id = id

/-- A conversation that is transferred by itself stays one. -/
def singleKind (pane : Pane) (tabId : Option Identity) : Option ViewKind :=
  if tabId.isSome ∧ pane.directId = tabId then some .conversation else none

def prepared (state : State) (pane : Pane) (selected : List Tab) (transferId : Identity) (tabId : Option Identity)
    (destinationWindowId : Identity) (destinationGeneration : Nat) (destinationPaneId : Identity)
    (returnSplitId : Option Identity) : Except Failure Transfer := do
  let first ← expect selected.head? "index out of bounds"
  let tabPosition ← expect ((paneViews pane).findIdx? fun t => t.id = first.id) "unwrap"
  let sourcePlacement ← state.placement pane tabPosition (singleKind pane tabId)
  .ok { id := transferId, sourceWindowId := state.window.id, sourceGeneration := state.window.attachmentGeneration,
        sourcePaneId := pane.id, sourcePlacement, tabIds := selected.map (·.id), wholePane := tabId.isNone,
        destinationWindowId, destinationGeneration, destinationPaneId, returnSplitId, phase := .preparing }

def prepareReturn (state : State) (transferId paneId : Identity) (tabId destinationPaneId : Option Identity)
    (splitId : Identity) : Except Failure State := do
  if state.window.id = state.layout.mainWindowId then invalid "The main window cannot return to itself."
  else
    let pane ← paneById state.window paneId
    let selected ← transferred pane tabId
    let mismatch := match tabId, destinationPaneId with
      | some _, none => true
      | some _, some id => state.ownsPane id
      | none, some id => id ≠ pane.id
      | none, none => false
    if mismatch then
      invalid "A pane transfer preserves its identity; a tab transfer requires a new pane identity."
    else
      let destination ← state.otherWindow state.layout.mainWindowId "Main window is unavailable."
      let transfers := state.layout.transfers
      if inUse transfers transferId selected then invalid "Transfer identity or views are already in use."
      else
        let destinationPane := if tabId.isSome then destinationPaneId.getD pane.id else pane.id
        let transfer ← state.prepared pane selected transferId tabId destination.id destination.attachmentGeneration
          destinationPane (some splitId)
        .ok { state with layout := { state.layout with pendingTransfers := some (transfers ++ [transfer]) } }

def emptyWindow (id : Identity) : Window :=
  { id, attachmentGeneration := 0, rendererId := none, panes := [], centerRoot := none, focusedPaneId := none,
    recentPaneIds := [], recentTabIds := none, returnPlacement := none }

def prepareDetach (state : State) (transferId paneId : Identity) (tabId : Option Identity)
    (destinationWindowId destinationPaneId : Identity) : Except Failure State := do
  let pane ← paneById state.window paneId
  let selected ← transferred pane tabId
  let transfers := state.layout.transfers
  if (state.windows.any fun w => w.id = destinationWindowId) || inUse transfers transferId selected then
    invalid "Transfer identity, destination, or views are already in use."
  else if (if tabId.isSome then state.ownsPane destinationPaneId else decide (destinationPaneId ≠ pane.id)) then
    invalid "A pane transfer preserves its identity; a tab transfer requires a new pane identity."
  else
    let windows := state.layout.windows ++ [emptyWindow destinationWindowId]
    let transfer ← state.prepared pane selected transferId tabId destinationWindowId 0 destinationPaneId none
    .ok { state with layout := { state.layout with windows, pendingTransfers := some (transfers ++ [transfer]) } }

def transferById (state : State) (transferId : Identity) : Except Failure Transfer :=
  orMissing (state.layout.transfers.find? fun t => t.id = transferId) "Transfer no longer exists."

def putTransfer (state : State) (transfer : Transfer) : State :=
  { state with layout := { state.layout with
    pendingTransfers := some (putKey (·.id) transfer state.layout.transfers) } }

def transferReady (state : State) (transferId : Identity) : Except Failure State := do
  let transfer ← state.transferById transferId
  if transfer.destinationWindowId ≠ state.window.id then
    .error (.command .scope "Only the destination can acknowledge readiness.")
  else .ok (state.putTransfer
    (if transfer.phase = .preparing then { transfer with phase := .destinationReady } else transfer))

def transferStateReady (state : State) (transferId : Identity) : Except Failure State := do
  let transfer ← state.transferById transferId
  if transfer.destinationWindowId ≠ state.window.id then
    .error (.command .scope "Only the destination can acknowledge restored state.")
  else if transfer.phase = .preparing then
    invalid "Destination application readiness has not been acknowledged."
  else .ok (state.putTransfer { transfer with phase := .stateReady })

def dropTransfer (state : State) (transferId : Identity) : State :=
  { state with layout := { state.layout with
    pendingTransfers := some (state.layout.transfers.filter fun t => t.id ≠ transferId) } }

def cancelTransfer (state : State) (transferId : Identity) : Except Failure State := do
  let transfer ← state.transferById transferId
  if transfer.sourceWindowId ≠ state.window.id then
    .error (.command .scope "Only the source can cancel this transfer.")
  else
    let state := if !transfer.returning then state.retire transfer.destinationWindowId else state
    .ok (state.dropTransfer transferId)

/-! ## Committing -/

/-- The place a detached pane or view came from, when it goes back to the window it came from. -/
def originalPlacement (window : Window) (transfer : Transfer) (destination : Window) (source : Pane) :
    Option ReturnPlacement :=
  window.returnPlacement.filter fun previous =>
    transfer.returning ∧ previous.sourceWindowId = destination.id ∧
    (previous.detachedPaneId = some source.id ∨ (previous.wholePane ∧ previous.sourcePaneId = source.id) ∨
      (previous.detachedPaneId = none ∧ !previous.wholePane ∧ window.panes.length = 1))

def takeMoved (window : Window) (transfer : Transfer) (source : Pane) (selected : List Tab) :
    Except Failure (Window × Pane) :=
  if transfer.wholePane then .ok (removePane window source, { source with region := .center })
  else
    match selected with
    | [view] => do
      let window ← takeTab window source view
      if transfer.sourcePlacement.isConversation then
        .ok (window, { id := transfer.destinationPaneId, region := .center, titleProtection := source.titleProtection,
                       tabs := [], activeTabId := none, conversationView := some (some view),
                       selection := some (.conversation (some view.id)) })
      else
        .ok (window, { id := transfer.destinationPaneId, region := .center, titleProtection := source.titleProtection,
                       tabs := [view], activeTabId := some view.id, conversationView := none, selection := none })
    | _ => invalid "Single-tab transfer contains multiple tabs."

def originalPane (original : ReturnPlacement) (moved : Pane) (destination : Window) : Option Pane :=
  let conversation := original.sourcePlacement.isConversation
  if !original.wholePane ∧
      (if conversation then moved.direct ≠ none ∧ moved.tabs = [] else moved.direct = none) then
    (destination.panes.find? fun p =>
      p.id = original.sourcePaneId ∧ (!conversation ∨ (p.region = .center ∧ p.direct = none))).or
    (if conversation then none
      else (destination.panes.find? fun p =>
        some p.id = destination.focusedPaneId ∧ p.region = original.sourcePlacement.region).or
        (destination.panes.find? fun p => p.region = original.sourcePlacement.region))
  else none

def rejoin (original : ReturnPlacement) (moved : Pane) (destination : Window) (pane : Pane) :
    Except Failure Window := do
  let pane := if original.sourcePlacement.isConversation then
      { pane with conversationView := some moved.direct }
    else
      let place := if pane.id = original.sourcePaneId then min original.sourcePlacement.tabPosition pane.tabs.length
        else pane.tabs.length
      { pane with tabs := pane.tabs.take place ++ moved.tabs ++ pane.tabs.drop place }
  let destination ← storePane destination pane
  focus destination pane.id (selectedViewId moved)

def returnRoot (original : Option ReturnPlacement) (destination : Window) (returnSplitId : Identity)
    (movedId : Identity) : Node :=
  let originalTree := (original.filter (·.wholePane)).bind (·.sourcePlacement.centerRoot)
  match originalTree.filter fun tree => tree.removeLeaf movedId = destination.centerRoot with
  | some tree => tree
  | none => besideRoot destination.centerRoot returnSplitId movedId

def readmit (original : Option ReturnPlacement) (moved : Pane) (destination : Window) (returnSplitId : Identity) :
    Except Failure Window :=
  let moved := { moved with region :=
    if moved.direct ≠ none then .center else (original.map (·.sourcePlacement.region)).getD .center }
  let length := destination.panes.length
  let place := min ((original.map (·.sourcePlacement.panePosition)).getD length) length
  let destination := { destination with
    panes := destination.panes.insertIdx place moved
    centerRoot := if moved.region = .center then some (returnRoot original destination returnSplitId moved.id)
      else destination.centerRoot }
  focus destination moved.id (selectedViewId moved)

def arrive (transfer : Transfer) (moved : Pane) (destination : Window) : Except Failure Window :=
  focus { destination with
    panes := [moved]
    centerRoot := some (.pane moved.id)
    returnPlacement := some { detachedPaneId := some moved.id, sourceWindowId := transfer.sourceWindowId,
                              sourcePaneId := transfer.sourcePaneId, sourcePlacement := transfer.sourcePlacement,
                              wholePane := transfer.wholePane } } moved.id (selectedViewId moved)

def commit (state : State) (transferId : Identity) : Except Failure State := do
  let transfer ← state.transferById transferId
  if transfer.sourceWindowId ≠ state.window.id then
    .error (.command .scope "Only the source can commit transfer ownership after retiring its renderers.")
  else if transfer.phase ≠ .stateReady then invalid "Destination state restoration has not been acknowledged."
  else
    let source ← paneById state.window transfer.sourcePaneId
    let destination ← state.otherWindow transfer.destinationWindowId "Destination window no longer exists."
    let selected ← transfer.tabIds.mapM fun id => orMissing (findView source id)
      "Transferred tab no longer belongs to the prepared source pane."
    if transfer.wholePane ∧ (paneViews source).map (·.id) ≠ transfer.tabIds then
      invalid "Source pane membership changed during transfer preparation."
    else
      let original := originalPlacement state.window transfer destination source
      let (window, moved) ← takeMoved state.window transfer source selected
      let destination ← match transfer.returnSplitId with
        | some returnSplitId =>
          match original.bind fun o => (originalPane o moved destination).map fun pane => (o, pane) with
          | some (o, pane) => rejoin o moved destination pane
          | none => readmit original moved destination returnSplitId
        | none => arrive transfer moved destination
      let state := { state with window, focusWindow := some destination.id }
      .ok ((state.storeWindow destination).dropTransfer transfer.id)

end State

/-! ## Applying a command -/

def State.run (state : State) : Action → Except Failure State
  | .openConversation expected view paneId newPaneId splitId => state.openConversation expected view paneId newPaneId splitId
  | .closeConversation viewId => state.edit fun _ => Server.closeConversation viewId
  | .migrateCodeFiles tabId codeId views => state.migrateCodeFiles tabId codeId views
  | .migrateExplorerFile tabId explorerId documentId mode retainedViews =>
    state.migrateExplorerFile tabId explorerId documentId mode retainedViews
  | .replaceAttachment rendererId => state.replaceAttachment rendererId
  | .prepareReturn transferId paneId tabId destinationPaneId splitId =>
    state.prepareReturn transferId paneId tabId destinationPaneId splitId
  | .prepareDetach transferId paneId tabId destinationWindowId destinationPaneId =>
    state.prepareDetach transferId paneId tabId destinationWindowId destinationPaneId
  | .transferReady transferId => state.transferReady transferId
  | .transferStateReady transferId => state.transferStateReady transferId
  | .commitTransfer transferId => state.commit transferId
  | .cancelTransfer transferId => state.cancelTransfer transferId
  | .select tabId => state.edit (Server.select tabId)
  | .home => state.edit fun _ => Server.home
  | .closeTab tabId => state.edit (Server.closeTab tabId)
  | .closePane paneId => state.edit fun _ => Server.closePane paneId
  | .pin tabId => state.edit fun _ => Server.pin tabId
  | .fileMode tabId mode => state.edit fun _ => Server.fileMode tabId mode
  | .renamePane paneId titleProtection => state.edit fun _ => Server.renamePane paneId titleProtection
  | .dockPresentation tabId presentation => state.edit fun _ => Server.dockPresentation tabId presentation
  | .reorderPanes region paneIds => state.edit fun _ => Server.reorderPanes region paneIds
  | .moveNewPane tabId paneId region position splitId => state.edit (Server.moveNewPane tabId paneId region position splitId)
  | .reorder paneId tabIds => state.edit fun _ => Server.reorder paneId tabIds
  | .move tabId targetPaneId position => state.edit (Server.move tabId targetPaneId position)
  | .split tabId targetPaneId paneId splitId edge fraction =>
    state.edit (Server.split tabId targetPaneId paneId splitId edge fraction)
  | .resize splitId fraction => state.edit fun _ => Server.resize splitId fraction
  | .open tab replacePreviewTabId target => state.open_ tab replacePreviewTabId target

/-- The actions that a reserved destination still takes. -/
def Action.handshake : Action → Bool
  | .transferReady _ | .transferStateReady _ | .replaceAttachment _ => true
  | _ => false

def Window.mapPanes (window : Window) (f : Pane → Pane) : Window := { window with panes := window.panes.map f }

def migrated (layout : Layout) (action : Action) : Layout :=
  match action, layout.version with
  | .openConversation .., .v1 =>
    { layout with version := .v2, windows := layout.windows.map fun w => w.mapPanes normalizePane }
  | _, _ => layout

def Window.dropRecent (window : Window) : Window :=
  { window with recentTabIds := window.recentTabIds.map fun ids => ids.filter fun id => id ∈ window.viewIds }

/-- A window at the end of a command. -/
def Window.finish (version : Version) (window : Window) : Window :=
  (if version = .v2 then window.mapPanes normalizePane else window).dropRecent

/-- The layout at the end of a command. -/
def State.finish (state : State) : Layout :=
  { state.layout with
    windows := state.windows.map (Window.finish state.layout.version)
    revision := state.layout.revision + 1 }

/-- The checks before an action runs, and the state it runs in. -/
def precheck (layout : Layout) (command : Command) : Except Failure State :=
  if command.workspaceId ≠ layout.id ∨ command.projectId ≠ layout.projectId then
    .error (.command .scope "Command belongs to a different workspace or project.")
  else if command.expectedRevision ≠ layout.revision then
    .error (.command .revision "Workspace revision changed; rebase the pending operation.")
  else do
    let window ← orMissing (layout.findWindow command.windowId) "Command window no longer exists."
    if command.attachmentGeneration ≠ window.attachmentGeneration then
      .error (.command .attachment "The command's renderer no longer owns this window.")
    else if (layout.transfers.any fun t => t.destinationWindowId = window.id && !t.returning) ∧
        !command.action.handshake then
      invalid "The destination is reserved for a pending transfer."
    else .ok { layout, window, focusWindow := none, retired := [] }

def State.conclude (state : State) (hadPanes : Bool) (operationId : Identity) : Except Failure CommandResult :=
  let layout := state.finish
  if layout.Owned then
    let retired := if hadPanes ∧ state.window.id ≠ layout.mainWindowId ∧ state.window.panes = [] then
        state.retired ++ [state.window.id]
      else state.retired
    .ok { layout, operationId, focusWindowId := state.focusWindow, emptyWindowIds := retired }
  else invalid "The command would create invalid workspace ownership."

def apply (initial : Layout) (command : Command) : Except Failure CommandResult :=
  if command.accepted ∧ initial.Owned then do
    let state ← precheck (migrated initial command.action) command
    let hadPanes := !state.window.panes.isEmpty
    let state ← state.run command.action
    state.conclude hadPanes command.operationId
  else .error .schema

end Cantrip.Workspace
