import Cantrip.Lib.Bytes
import Cantrip.Lib.Utf8

/-!
# Workspace layouts and commands (`packages/protocol/src/workspace-ownership.ts`, `workspace-command.ts`)

A layout nests windows, panes and tabs. Absent, `null` and present are three things for a field that is both
optional and nullable: such a field is an `Option (Option _)`. What the wire schema checks of one value by
itself (an identity is not empty, a fraction lies in its range, an entity view names an entity surface)
holds by type; the checks that relate values to each other are in `Cantrip.Workspace.Refine`.
-/

namespace Cantrip.Workspace

open Lib

/-- `z.string().min(1)`: a UTF-16 text with at least one unit, so it is truthy. -/
structure Identity where
  units : Utf16
  nonempty : units ≠ []
  deriving DecidableEq

/-- A number between two positive doubles, all given by their bits (positive doubles are ordered as these). -/
structure Fraction (lower upper : UInt64) where
  bits : UInt64
  ge : lower ≤ bits
  le : bits ≤ upper
  deriving DecidableEq

/-- `z.number().min(0.1).max(0.9)`. -/
abbrev SplitFraction := Fraction 0x3fb999999999999a 0x3feccccccccccccd

/-- `z.number().min(0.05).max(0.95)`. -/
abbrev DockFraction := Fraction 0x3fa999999999999a 0x3fee666666666666

def half : SplitFraction := ⟨0x3fe0000000000000, by decide, by decide⟩

/-- An encrypted display label. The layout carries it and reads nothing of it. -/
structure PrivateLabel where
  text : Utf16
  deriving DecidableEq

inductive Region
  | center | right | bottom | left
  deriving DecidableEq, Repr

inductive FileMode
  | preview | visual | edit
  deriving DecidableEq, Repr

inductive DockMode
  | closed | split | full
  deriving DecidableEq, Repr

structure DockPresentation where
  preferredMode : DockMode
  splitFraction : DockFraction
  restoreFraction : DockFraction
  deriving DecidableEq

/-- The surfaces an entity view can show (`project.agent`, `project.file`, …). -/
inductive EntityDefinition
  | agent | terminal | explorer | file | browser | code | remoteDesktop | gitHistory | gitGraph
  | githubIssues | githubPullRequests | githubActions
  deriving DecidableEq, Repr

inductive BuiltinDefinition
  | overview | tasks | alerts | history | graph | issues | pullRequests | actions
  deriving DecidableEq, Repr

inductive Resource
  | entity (definitionId : EntityDefinition) (resourceId : Identity)
  | builtin (definitionId : BuiltinDefinition)
  deriving DecidableEq

/-- `definitionId === "project.file"`: only an entity has that definition. -/
def Resource.isFile : Resource → Bool
  | .entity .file _ => true
  | _ => false

structure BuiltInState where
  definitionId : BuiltinDefinition
  worktreeId : Option Identity
  deriving DecidableEq

structure Tab where
  id : Identity
  resource : Resource
  preview : Bool
  fileMode : Option FileMode
  fileViewer : Option (Option Utf16)
  titleProtection : Option PrivateLabel
  builtInState : Option BuiltInState
  dockPresentation : Option DockPresentation
  deriving DecidableEq

/-- What a pane shows. Commands copy a nullable identity into it, so it is nullable here until the layout
is validated again. -/
inductive Selection
  | tab (tabId : Option Identity)
  | conversation (viewId : Option Identity)
  deriving DecidableEq

structure Pane where
  id : Identity
  region : Region
  titleProtection : Option PrivateLabel
  tabs : List Tab
  activeTabId : Option Identity
  conversationView : Option (Option Tab)
  selection : Option Selection
  deriving DecidableEq

inductive Direction
  | horizontal | vertical
  deriving DecidableEq, Repr

/-- The tree of center panes of one window (`projectCenterLayoutNodeSchema`). -/
inductive Node
  | pane (paneId : Identity)
  | split (id : Identity) (direction : Direction) (fraction : SplitFraction) (first second : Node)
  deriving DecidableEq

inductive ViewKind
  | tab | conversation
  deriving DecidableEq, Repr

structure Placement where
  panePosition : Nat
  tabPosition : Nat
  viewKind : Option ViewKind
  region : Region
  centerRoot : Option Node
  deriving DecidableEq

inductive Phase
  | preparing | destinationReady | stateReady
  deriving DecidableEq, Repr

structure Transfer where
  id : Identity
  sourceWindowId : Identity
  sourceGeneration : Nat
  sourcePaneId : Identity
  sourcePlacement : Placement
  tabIds : List Identity
  wholePane : Bool
  destinationWindowId : Identity
  destinationGeneration : Nat
  destinationPaneId : Identity
  /-- Present for a return into the main window. -/
  returnSplitId : Option Identity
  phase : Phase
  deriving DecidableEq

structure ReturnPlacement where
  detachedPaneId : Option Identity
  sourceWindowId : Identity
  sourcePaneId : Identity
  sourcePlacement : Placement
  wholePane : Bool
  deriving DecidableEq

structure Window where
  id : Identity
  attachmentGeneration : Nat
  rendererId : Option Identity
  panes : List Pane
  centerRoot : Option Node
  focusedPaneId : Option Identity
  recentPaneIds : List Identity
  recentTabIds : Option (List Identity)
  returnPlacement : Option ReturnPlacement
  deriving DecidableEq

structure FileView where
  tabId : Identity
  documentId : Identity
  mode : FileMode
  deriving DecidableEq

structure CodeImport where
  tabId : Identity
  codeId : Identity
  views : List FileView
  deriving DecidableEq

structure FileImport where
  windowId : Identity
  paneId : Identity
  views : List FileView
  deriving DecidableEq

inductive Version
  | v1 | v2
  deriving DecidableEq, Repr

structure Layout where
  version : Version
  id : Identity
  projectId : Identity
  revision : Nat
  mainWindowId : Identity
  windows : List Window
  pendingTransfers : Option (List Transfer)
  legacyFileImports : Option (List FileImport)
  legacyCodeImports : Option (List CodeImport)
  deriving DecidableEq

/-! ## Commands -/

inductive Edge
  | left | right | top | bottom
  deriving DecidableEq, Repr

inductive OpenTarget
  | pane (paneId : Identity)
  | newPane (paneId : Identity) (region : Region) (splitId : Identity)
  deriving DecidableEq

/-- `workspaceActionSchema`. The expected worker, worktree and state of a migration are checked by the
caller; no command function reads them. -/
inductive Action
  | openConversation (expectedConversationViewId : Option (Option Identity)) (view : Tab) (paneId : Option Identity)
      (newPaneId splitId : Identity)
  | closeConversation (viewId : Identity)
  | migrateCodeFiles (tabId codeId : Identity) (views : List FileView)
  | migrateExplorerFile (tabId explorerId documentId : Identity) (mode : FileMode) (retainedViews : List FileView)
  | replaceAttachment (rendererId : Identity)
  | prepareReturn (transferId paneId : Identity) (tabId destinationPaneId : Option Identity) (splitId : Identity)
  | prepareDetach (transferId paneId : Identity) (tabId : Option Identity) (destinationWindowId destinationPaneId : Identity)
  | transferReady (transferId : Identity)
  | transferStateReady (transferId : Identity)
  | commitTransfer (transferId : Identity)
  | cancelTransfer (transferId : Identity)
  | select (tabId : Identity)
  | home
  | closeTab (tabId : Identity)
  | closePane (paneId : Identity)
  | pin (tabId : Identity)
  | fileMode (tabId : Identity) (mode : FileMode)
  | renamePane (paneId : Identity) (titleProtection : Option PrivateLabel)
  | dockPresentation (tabId : Identity) (presentation : DockPresentation)
  | reorderPanes (region : Region) (paneIds : List Identity)
  | moveNewPane (tabId paneId : Identity) (region : Region) (position : Nat) (splitId : Identity)
  | reorder (paneId : Identity) (tabIds : List Identity)
  | move (tabId targetPaneId : Identity) (position : Nat)
  | split (tabId targetPaneId paneId splitId : Identity) (edge : Edge) (fraction : SplitFraction)
  | resize (splitId : Identity) (fraction : SplitFraction)
  | open (tab : Tab) (replacePreviewTabId : Option Identity) (target : OpenTarget)
  deriving DecidableEq

structure Command where
  operationId : Identity
  workspaceId : Identity
  projectId : Identity
  windowId : Identity
  attachmentGeneration : Nat
  expectedRevision : Nat
  action : Action
  deriving DecidableEq

inductive Code
  | scope | revision | attachment | missing | invalid
  deriving DecidableEq, Repr

/-- How a command fails: `ModelError::command` and `WorkspaceCommandError` with their code, a value the wire
schema refuses, or an `expect` or a `TypeError` that no code answers for. -/
inductive Failure
  | command (code : Code) (message : String)
  | schema
  | fault (message : String)
  deriving DecidableEq, Repr

def Failure.code : Failure → Option Code
  | .command code _ => some code
  | _ => none

def invalid {α : Type} (message : String) : Except Failure α := .error (.command .invalid message)

def missing {α : Type} (message : String) : Except Failure α := .error (.command .missing message)

/-- What a command answers (`WorkspaceCommandResult`). -/
structure CommandResult where
  layout : Layout
  operationId : Identity
  focusWindowId : Option Identity
  emptyWindowIds : List Identity
  deriving DecidableEq

end Cantrip.Workspace
