import Cantrip.Workspace.Types
import Mathlib.Tactic.MkIffOfInductiveProp
import Mathlib.Data.List.Nodup

/-!
# The ownership refinement (`wire/workspaces.rs`, `workspaceOwnershipSchema`)

`Layout.Owned` holds of the layouts for which the refinement raises no issue: every field of the structures
below is one issue that is not raised. `Command.Accepted` is what the command schema asks beyond the types.
-/

namespace Cantrip.Workspace

/-- `Number.MAX_SAFE_INTEGER`. -/
def maxSafe : Nat := 9007199254740991

/-- The refinement of `workspaceTabSchema`. -/
def Tab.refined (tab : Tab) : Bool :=
  (tab.fileMode.isNone || tab.resource.isFile) && (tab.fileViewer.isNone || tab.resource.isFile) &&
  match tab.resource with
  | .builtin definitionId => tab.builtInState.map (·.definitionId) == some definitionId
  | .entity _ _ => tab.builtInState.isNone

/-- `workspaceConversationViewSchema`: a permanent Agent view. -/
def Tab.conversation (tab : Tab) : Bool :=
  tab.refined && !tab.preview && match tab.resource with
  | .entity .agent _ => true
  | _ => false

/-! ## Panes -/

/-- The direct conversation of a pane, absent or `null` in the same way. -/
def Pane.direct (pane : Pane) : Option Tab := pane.conversationView.join

def Pane.tabIds (pane : Pane) : List Identity := pane.tabs.map (·.id)

/-- Interactive owners, including a retained inactive conversation. -/
def paneViews (pane : Pane) : List Tab := pane.tabs ++ pane.direct.toList

def Pane.viewIds (pane : Pane) : List Identity := (paneViews pane).map (·.id)

def Pane.Shows (pane : Pane) : Selection → Prop
  | .tab tabId => tabId = pane.activeTabId ∧ ∃ id ∈ pane.activeTabId, id ∈ pane.tabIds
  | .conversation viewId => ∃ view ∈ pane.direct, viewId = some view.id

instance (pane : Pane) : DecidablePred pane.Shows
  | .tab tabId => inferInstanceAs (Decidable (tabId = pane.activeTabId ∧ ∃ id ∈ pane.activeTabId, id ∈ pane.tabIds))
  | .conversation viewId => inferInstanceAs (Decidable (∃ view ∈ pane.direct, viewId = some view.id))

@[mk_iff]
structure Pane.Refined (version : Version) (pane : Pane) : Prop where
  /-- Conversation content requires workspace version 2. -/
  version1 : version = .v1 → pane.conversationView = none ∧ pane.selection = none
  /-- Version 2 panes require conversation content and selection. -/
  version2 : version = .v2 → pane.conversationView ≠ none ∧ pane.selection ≠ none
  /-- A pane must own at least one view. -/
  views : paneViews pane ≠ []
  /-- The active tab must belong to this pane. -/
  active : (pane.activeTabId = none → pane.tabs = []) ∧ ∀ id ∈ pane.activeTabId, id ∈ pane.tabIds
  /-- Direct conversations require a center pane. -/
  center : ∀ _view ∈ pane.direct, pane.region = .center
  /-- The selected tab or conversation must belong to this pane. -/
  shows : ∀ selection ∈ pane.selection, pane.Shows selection
  tabs : ∀ tab ∈ pane.tabs, tab.refined
  conversation : ∀ view ∈ pane.direct, view.conversation

instance (version : Version) (pane : Pane) : Decidable (pane.Refined version) :=
  decidable_of_iff _ (Pane.refined_iff version pane).symm

def Node.leaves : Node → List Identity
  | .pane paneId => [paneId]
  | .split _ _ _ first second => first.leaves ++ second.leaves

def Node.splitIds : Node → List Identity
  | .pane _ => []
  | .split id _ _ first second => id :: (first.splitIds ++ second.splitIds)

def Node.size : Node → Nat
  | .pane _ => 1
  | .split _ _ _ first second => 1 + first.size + second.size

def Node.depth : Node → Nat
  | .pane _ => 0
  | .split _ _ _ first second => 1 + max first.depth second.depth

/-! ## Windows -/

def Window.paneIds (window : Window) : List Identity := window.panes.map (·.id)

def Window.viewIds (window : Window) : List Identity := window.panes.flatMap (·.viewIds)

def Window.centerIds (window : Window) : List Identity :=
  (window.panes.filter fun pane => pane.region = .center).map (·.id)

def Window.leaves (window : Window) : List Identity := (window.centerRoot.map (·.leaves)).getD []

def Window.splitIds (window : Window) : List Identity := (window.centerRoot.map (·.splitIds)).getD []

/-- The checks on one window that need nothing of the others. -/
@[mk_iff]
structure Window.Refined (version : Version) (window : Window) : Prop where
  safe : window.attachmentGeneration ≤ maxSafe
  /-- Focus must belong to this window. -/
  focus : ∀ id ∈ window.focusedPaneId, id ∈ window.paneIds
  /-- Recent tabs must be unique and belong to this window. -/
  recentTabs : (window.recentTabIds.getD []).Nodup ∧ ∀ id ∈ window.recentTabIds.getD [], id ∈ window.viewIds
  /-- Recent panes must be unique and belong to this window. -/
  recentPanes : window.recentPaneIds.Nodup ∧ ∀ id ∈ window.recentPaneIds, id ∈ window.paneIds
  panes : ∀ pane ∈ window.panes, pane.Refined version
  /-- Window topology exceeds supported bounds. -/
  bounds : ∀ root ∈ window.centerRoot, root.size ≤ 255 ∧ root.depth ≤ 32
  /-- Tree leaves must reference each local center pane exactly once. -/
  leaves : window.leaves.Nodup ∧ ∀ id ∈ window.leaves, id ∈ window.centerIds
  /-- Every center pane must appear in its owning window's tree. -/
  centers : ∀ id ∈ window.centerIds, id ∈ window.leaves

instance (version : Version) (window : Window) : Decidable (window.Refined version) :=
  decidable_of_iff _ (Window.refined_iff version window).symm

/-! ## Layouts -/

def Layout.windowIds (layout : Layout) : List Identity := layout.windows.map (·.id)

def Layout.paneIds (layout : Layout) : List Identity := layout.windows.flatMap (·.paneIds)

def Layout.viewIds (layout : Layout) : List Identity := layout.windows.flatMap (·.viewIds)

def Layout.splitIds (layout : Layout) : List Identity := layout.windows.flatMap (·.splitIds)

def Layout.transfers (layout : Layout) : List Transfer := layout.pendingTransfers.getD []

def Layout.codeImports (layout : Layout) : List CodeImport := layout.legacyCodeImports.getD []

def Layout.findWindow (layout : Layout) (id : Identity) : Option Window := layout.windows.find? fun w => w.id = id

def Transfer.returning (transfer : Transfer) : Bool := transfer.returnSplitId.isSome

@[mk_iff]
structure Transfer.Refined (layout : Layout) (transfer : Transfer) : Prop where
  views : transfer.tabIds ≠ []
  /-- Destination pane identities must be reserved: a pane keeps its own, a single view gets a new one. -/
  reserved : if transfer.wholePane then transfer.destinationPaneId = transfer.sourcePaneId
    else transfer.destinationPaneId ∉ layout.paneIds
  distinct : transfer.sourceWindowId ≠ transfer.destinationWindowId
  /-- Transfer generations must match their window attachments. -/
  source : ∃ window ∈ layout.findWindow transfer.sourceWindowId, window.attachmentGeneration = transfer.sourceGeneration
  /-- A pending transfer requires a distinct empty destination window. -/
  destination : ∃ window ∈ layout.findWindow transfer.destinationWindowId,
    window.attachmentGeneration = transfer.destinationGeneration ∧
    if transfer.returning then window.id = layout.mainWindowId
    else window.id ≠ layout.mainWindowId ∧ window.panes = []

instance (layout : Layout) (transfer : Transfer) : Decidable (transfer.Refined layout) :=
  decidable_of_iff _ (Transfer.refined_iff layout transfer).symm

@[mk_iff]
structure CodeImport.Refined (entry : CodeImport) : Prop where
  views : entry.views ≠ []
  tabIds : (entry.views.map (·.tabId)).Nodup
  documentIds : (entry.views.map (·.documentId)).Nodup
  distinct : ∀ view ∈ entry.views, view.tabId ≠ entry.tabId

instance (entry : CodeImport) : Decidable entry.Refined :=
  decidable_of_iff _ (CodeImport.refined_iff entry).symm

/-- `workspaceOwnershipSchema` accepts the layout. -/
@[mk_iff]
structure Layout.Owned (layout : Layout) : Prop where
  revision : layout.revision ≤ maxSafe
  limit : layout.transfers.length ≤ 128
  /-- Code conversion receipts must be unique. -/
  receipts : (layout.codeImports.map (·.tabId)).Nodup
  imports : ∀ entry ∈ layout.codeImports, entry.Refined
  /-- Window identities must be unique. -/
  windowIds : layout.windowIds.Nodup
  windows : ∀ window ∈ layout.windows, window.Refined layout.version
  /-- A pane must have exactly one window owner. -/
  paneIds : layout.paneIds.Nodup
  /-- A view must have exactly one pane owner. -/
  viewIds : layout.viewIds.Nodup
  /-- Split identities must be unique. -/
  splitIds : layout.splitIds.Nodup
  /-- The main window must exist in this workspace. -/
  main : layout.mainWindowId ∈ layout.windowIds
  /-- Transfer and destination identities must be unique. -/
  transferIds : (layout.transfers.map (·.id)).Nodup
  destinations : ((layout.transfers.filter (!·.returning)).map (·.destinationWindowId)).Nodup
  /-- Destination pane identities must be uniquely reserved. -/
  reservedPanes : (layout.transfers.map (·.destinationPaneId)).Nodup
  /-- A tab cannot participate in overlapping transfers. -/
  reservedTabs : (layout.transfers.flatMap (·.tabIds)).Nodup
  transfers : ∀ transfer ∈ layout.transfers, transfer.Refined layout

instance (layout : Layout) : Decidable layout.Owned := decidable_of_iff _ (Layout.owned_iff layout).symm

/-- The checks of `workspaceActionSchema` that the types do not carry. -/
def Action.accepted : Action → Bool
  | .openConversation _ view _ _ _ => view.conversation
  | .migrateCodeFiles _ _ views => !views.isEmpty
  | .moveNewPane _ _ _ position _ => position ≤ maxSafe
  | .reorder _ tabIds => !tabIds.isEmpty
  | .move _ _ position => position ≤ maxSafe
  | .open tab _ _ => tab.refined
  | _ => true

def Command.accepted (command : Command) : Bool :=
  command.attachmentGeneration ≤ maxSafe && command.expectedRevision ≤ maxSafe && command.action.accepted

end Cantrip.Workspace
