import Cantrip.Workspace.Commands

/-!
# View, conversation and migration commands of the server

`workspace_layouts/commands/views.rs`, `conversations.rs` and `migrations.rs`. One definition per action. Those
that read the layout and change the current window are functions of the two; `State.edit` runs them.
-/

namespace Cantrip.Workspace

open Lib

def sameResource (a b : Tab) : Bool :=
  match a.resource, b.resource with
  | .builtin d, .builtin d' => d = d'
  | .entity d r, .entity d' r' => d = d' ∧ r = r'
  | _, _ => false

def exactIds (ids members : List Identity) : Bool :=
  let available := members.dedup
  ids.length = available.length ∧ (∀ id ∈ ids, id ∈ available) ∧ ids.Nodup

def focusNext (window : Window) (wasFocused : Bool) : Except Failure Window :=
  if wasFocused then
    match window.panes.find? fun p => some p.id = window.focusedPaneId with
    | some next => focus window next.id (selectedViewId next)
    | none => .ok window
  else .ok window

namespace Server

def home (window : Window) : Except Failure Window := .ok { window with focusedPaneId := none }

def select (tabId : Identity) (layout : Layout) (window : Window) : Except Failure Window := do
  let (pane, tab) ← tabById window tabId
  navigate layout window pane.id tab.id

def closeTab (tabId : Identity) (layout : Layout) (window : Window) : Except Failure Window := do
  let (pane, tab) ← tabById window tabId
  if pane.directId = some tab.id then invalid "Use close-conversation for a direct view."
  else
    let focused := window.focusedPaneId = some pane.id ∧ selectedViewId pane = some tab.id
    let current ← match pane.selection with
      | some (.tab _) => retireConversation layout pane (selectedViewId pane)
      | _ => .ok pane
    let window ← takeTab window current tab
    focusNext window focused

def closePane (paneId : Identity) (window : Window) : Except Failure Window := do
  let pane ← paneById window paneId
  let focused := window.focusedPaneId = some pane.id
  focusNext (removePane window pane) focused

/-- The view replaced by a changed copy of itself, a conversation or a tab. -/
def storeView (pane : Pane) (tab : Tab) : Except Failure Pane :=
  if pane.directId = some tab.id then .ok { pane with conversationView := some (some tab) }
  else do
    let _existing ← expect (pane.tabs.find? fun t => t.id = tab.id) "owned tab"
    .ok (pane.putTab tab)

/-- `pin`, `file-mode` and `dock-presentation` change one view of the window. -/
def editView (tabId : Identity) (edit : Pane → Tab → Except Failure Tab) (window : Window) : Except Failure Window := do
  let (pane, tab) ← tabById window tabId
  let tab ← edit pane tab
  let pane ← storeView pane tab
  storePane window pane

def pin (tabId : Identity) : Window → Except Failure Window :=
  editView tabId fun _ tab => .ok { tab with preview := false }

def fileMode (tabId : Identity) (mode : FileMode) : Window → Except Failure Window :=
  editView tabId fun _ tab =>
    if !tab.resource.isFile then invalid "File mode requires a file view." else .ok { tab with fileMode := some mode }

def dockPresentation (tabId : Identity) (presentation : DockPresentation) : Window → Except Failure Window :=
  editView tabId fun pane tab =>
    if pane.region ≠ .right ∧ pane.region ≠ .bottom then invalid "Dock presentation requires a right or bottom pane."
    else .ok { tab with dockPresentation := some presentation }

def renamePane (paneId : Identity) (titleProtection : Option PrivateLabel) (window : Window) : Except Failure Window := do
  let pane ← paneById window paneId
  storePane window { pane with titleProtection }

/-- The panes of the region take the places of the region in the order of `ids`. -/
def reorderRegion (region : Region) (members : List Pane) : List Pane → List Identity → Except Failure (List Pane)
  | [], _ => .ok []
  | pane :: panes, ids =>
    if pane.region = region then
      match ids with
      | [] => .error (.fault "index out of bounds")
      | id :: ids => do
        let member ← expect (members.find? fun p => p.id = id) "unwrap"
        let panes ← reorderRegion region members panes ids
        .ok (member :: panes)
    else do
      let panes ← reorderRegion region members panes ids
      .ok (pane :: panes)

def reorderPanes (region : Region) (paneIds : List Identity) (window : Window) : Except Failure Window := do
  let members := window.panes.filter fun p => p.region = region
  if !exactIds paneIds (members.map (·.id)) then
    invalid "Pane order must contain every local region member exactly once."
  else
    let panes ← reorderRegion region members window.panes paneIds
    let centerRoot ← match window.centerRoot with
      | none => .ok none
      | some root =>
        if region = .center then (fun placed => some placed.1) <$> root.reorder paneIds else .ok (some root)
    .ok { window with panes, centerRoot }

def reorder (paneId : Identity) (tabIds : List Identity) (window : Window) : Except Failure Window := do
  let pane ← paneById window paneId
  if !exactIds tabIds pane.tabIds then invalid "Tab order must contain each pane member exactly once."
  else
    let tabs ← tabIds.mapM fun id => expect (pane.tabs.find? fun t => t.id = id) "unwrap"
    storePane window { pane with tabs }

def move (tabId targetPaneId : Identity) (position : Nat) (layout : Layout) (window : Window) : Except Failure Window := do
  let (pane, tab) ← tabById window tabId
  let target ← paneById window targetPaneId
  let same := target.id = pane.id
  let direct := pane.directId = some tab.id
  let maximum := target.tabs.length - (if same ∧ ¬direct then 1 else 0)
  if position > maximum then invalid "Target tab position is outside the pane."
  else
    let (window, target) ←
      if same then
        if direct then .ok (window, { target with conversationView := some none })
        else .ok (window, { target with tabs := target.tabs.filter fun t => t.id ≠ tab.id })
      else do
        let window ← takeTab window pane tab
        .ok (window, target)
    let target := { target with tabs := target.tabs.insertIdx position tab }
    let window ← storePane window target
    navigate layout window target.id tab.id

/-- Where a pane stands at `position` among those of a region. -/
def insertion (panes region : List Pane) (position : Nat) : Except Failure Nat :=
  match region[position]?, (if position = 0 then none else region[position - 1]?) with
  | some neighbor, _ => expect (panes.findIdx? fun p => p.id = neighbor.id) "unwrap"
  | none, some previous => (· + 1) <$> expect (panes.findIdx? fun p => p.id = previous.id) "unwrap"
  | none, none => .ok panes.length

/-- The center tree with a new leaf at `position` among the center panes. -/
def insertLeaf (root : Option Node) (region : List Pane) (position : Nat) (splitId paneId : Identity) : Except Failure Node :=
  match root with
  | none => .ok (.pane paneId)
  | some root =>
    match region[position]?, (if position = 0 then none else region[position - 1]?) with
    | some neighbor, _ =>
      .ok (root.replaceLeaf neighbor.id (.split splitId .horizontal half (.pane paneId) (.pane neighbor.id)))
    | none, some previous =>
      .ok (root.replaceLeaf previous.id (.split splitId .horizontal half (.pane previous.id) (.pane paneId)))
    | none, none => .error (.fault "surviving center region")

def moveNewPane (tabId paneId : Identity) (region : Region) (position : Nat) (splitId : Identity) (layout : Layout)
    (window : Window) : Except Failure Window := do
  let (pane, tab) ← tabById window tabId
  let count := (window.panes.filter fun p =>
    p.region = region ∧ ¬(p.id = pane.id ∧ (paneViews pane).length = 1)).length
  if position > count then invalid "Target pane position is outside the region."
  else
    let window ← takeTab window pane tab
    let target := newPane paneId region tab
    let members := window.panes.filter fun p => p.region = region
    let place ← insertion window.panes members position
    let centerRoot ← if target.region = .center then
        some <$> insertLeaf window.centerRoot members position splitId target.id
      else .ok window.centerRoot
    navigate layout { window with panes := window.panes.insertIdx place target, centerRoot } target.id tab.id

def split (tabId targetPaneId paneId splitId : Identity) (edge : Edge) (fraction : SplitFraction) (layout : Layout)
    (window : Window) : Except Failure Window := do
  let (pane, tab) ← tabById window tabId
  let target ← paneById window targetPaneId
  if target.region ≠ .center ∨ (pane.id = target.id ∧ (paneViews pane).length = 1) then
    invalid "A split requires a surviving center target pane."
  else
    let window ← takeTab window pane tab
    let new := newPane paneId .center tab
    let newFirst := edge = .left ∨ edge = .top
    let first := Node.pane (if newFirst then new.id else target.id)
    let second := Node.pane (if newFirst then target.id else new.id)
    let root ← orMissing window.centerRoot "Center tree is missing."
    let direction := if edge = .left ∨ edge = .right then Direction.horizontal else .vertical
    let centerRoot := some (root.replaceLeaf target.id (.split splitId direction fraction first second))
    let position ← expect (window.panes.findIdx? fun p => p.id = target.id) "unwrap"
    navigate layout { window with
      centerRoot, panes := window.panes.insertIdx (position + if newFirst then 0 else 1) new } new.id tab.id

def resize (splitId : Identity) (fraction : SplitFraction) (window : Window) : Except Failure Window := do
  let root ← orMissing (window.centerRoot.bind (Node.resize splitId fraction)) "Split does not belong to this window."
  .ok { window with centerRoot := some root }

/-! ## Opening -/

def findResource (windows : List Window) (view : Tab) : Option (Window × Pane × Tab) :=
  windows.findSome? fun owner => owner.panes.findSome? fun pane =>
    ((paneViews pane).find? fun tab => sameResource tab view).map fun tab => (owner, pane, tab)

/-- A view that is open already takes the pin and the file viewer of the command. -/
def reopened (layout : Layout) (tab action : Tab) : Except Failure Tab := do
  let tab := if action.preview then tab else { tab with preview := false }
  match action.fileViewer with
  | none => .ok tab
  | some viewer =>
    let changed := tab.fileViewer ≠ some viewer ∨ ∃ mode ∈ action.fileMode, tab.fileMode ≠ some mode
    if changed ∧ layout.reserved tab.id then invalid "File view is reserved for a pending transfer."
    else .ok { tab with fileViewer := some viewer, fileMode := action.fileMode.or tab.fileMode }

def reopen (layout : Layout) (action : Tab) (owner : Window) (pane : Pane) (tab : Tab) : Except Failure Window := do
  let tab ← reopened layout tab action
  let pane ← storeView pane tab
  let owner ← storePane owner pane
  navigate layout owner pane.id tab.id

def openInPane (tab : Tab) (replacePreviewTabId : Option Identity) (paneId : Identity) (layout : Layout)
    (window : Window) : Except Failure Window := do
  let target ← paneById window paneId
  let replacing ← match replacePreviewTabId with
    | some id => some <$> tabById window id
    | none => .ok none
  if ∃ found ∈ replacing, found.1.id ≠ target.id ∨ !found.2.resource.isFile ∨ !tab.resource.isFile ∨ !tab.preview then
    invalid "Preview replacement requires file views in the same pane."
  else
    let target ← match replacing.filter (·.2.preview) with
      | some (_, old) =>
        if layout.reserved old.id then invalid "Preview is reserved for a pending transfer."
        else do
          let index ← expect (target.tabs.findIdx? fun t => t.id = old.id) "unwrap"
          .ok { target with tabs := target.tabs.set index tab }
      | none => .ok { target with tabs := target.tabs ++ [tab] }
    let window ← storePane window target
    navigate layout window target.id tab.id

def openNewPane (tab : Tab) (replacePreviewTabId : Option Identity) (paneId : Identity) (region : Region)
    (splitId : Identity) (layout : Layout) (window : Window) : Except Failure Window :=
  if replacePreviewTabId.isSome then invalid "Preview replacement requires an existing pane."
  else
    let target := newPane paneId region tab
    let window := { window with
      panes := window.panes ++ [target]
      centerRoot := if target.region = .center then some (besideRoot window.centerRoot splitId target.id)
        else window.centerRoot }
    navigate layout window target.id tab.id

/-! ## Direct conversations -/

def closeConversation (viewId : Identity) (window : Window) : Except Failure Window := do
  let (pane, tab) ← tabById window viewId
  if pane.directId ≠ some tab.id then invalid "View is not a direct conversation."
  else
    let selected := selectedViewId pane = some tab.id
    let window ← takeTab window pane tab
    focusNext window selected

def recentCenter (window : Window) : Option Pane :=
  (window.recentPaneIds.findSome? fun id => window.panes.find? fun p => p.id = id ∧ p.region = .center).or
    (window.panes.find? fun p => p.region = .center)

def conversationPane (window : Window) (paneId : Option Identity) (newPaneId splitId : Identity) :
    Except Failure (Window × Pane) := do
  let target ← match paneId with
    | some id => some <$> paneById window id
    | none => .ok (recentCenter window)
  match target with
  | some pane =>
    if pane.region ≠ .center then invalid "Direct conversations require a center pane."
    else .ok (window, pane)
  | none =>
    let pane : Pane := { id := newPaneId, region := .center, titleProtection := none, tabs := [], activeTabId := none,
                         conversationView := some none, selection := none }
    .ok ({ window with
      panes := window.panes ++ [pane]
      centerRoot := some (besideRoot window.centerRoot splitId pane.id) }, pane)

def converse (expected : Option (Option Identity)) (view : Tab) (paneId : Option Identity)
    (newPaneId splitId : Identity) (layout : Layout) (window : Window) : Except Failure Window := do
  let (window, pane) ← conversationPane window paneId newPaneId splitId
  if ∃ direct ∈ pane.direct, layout.reserved direct.id then
    invalid "Conversation is reserved for a pending transfer."
  else if ∃ id ∈ expected, id ≠ pane.directId then
    invalid "Conversation selection changed during draft preparation."
  else
    let window ← storePane window { pane with conversationView := some (some view) }
    focus window pane.id (some view.id)

end Server

namespace State

/-- An action on the current window alone. -/
def edit (state : State) (f : Layout → Window → Except Failure Window) : Except Failure State := do
  let window ← f state.layout state.window
  .ok { state with window }

def storeFocused (state : State) (owner : Window) : State :=
  let state := if owner.id ≠ state.window.id then { state with focusWindow := some owner.id } else state
  state.storeWindow owner

def open_ (state : State) (tab : Tab) (replacePreviewTabId : Option Identity) (target : OpenTarget) : Except Failure State :=
  match Server.findResource state.windows tab with
  | some (owner, pane, existing) => do
    let owner ← Server.reopen state.layout tab owner pane existing
    .ok (state.storeFocused owner)
  | none =>
    match target with
    | .pane paneId => state.edit (Server.openInPane tab replacePreviewTabId paneId)
    | .newPane paneId region splitId => state.edit (Server.openNewPane tab replacePreviewTabId paneId region splitId)

def openConversation (state : State) (expected : Option (Option Identity)) (view : Tab) (paneId : Option Identity)
    (newPaneId splitId : Identity) : Except Failure State :=
  match Server.findResource state.windows view with
  | some (owner, pane, existing) => do
    let owner ← focus owner pane.id (some existing.id)
    .ok (state.storeFocused owner)
  | none => state.edit (Server.converse expected view paneId newPaneId splitId)

/-! ## Migrations -/

def file (view : FileView) (dock : Option DockPresentation) : Tab :=
  { id := view.tabId, resource := .entity .file view.documentId, preview := false, fileMode := some view.mode,
    fileViewer := none, titleProtection := none, builtInState := none, dockPresentation := dock }

def documentIds (tabs : List Tab) : List Identity :=
  tabs.filterMap fun t => match t.resource with
    | .entity .file resourceId => some resourceId
    | _ => none

def occupy : List Identity → List Identity → List FileView → Except Failure Unit
  | _, _, [] => .ok ()
  | occupied, documents, view :: views =>
    if occupied.contains view.tabId || documents.contains view.documentId then
      invalid "Migration view or document identity is already in use."
    else occupy (view.tabId :: occupied) (view.documentId :: documents) views

def insertAfter (tabs : List Tab) (index : Nat) (added : List Tab) : List Tab :=
  tabs.take (index + 1) ++ added ++ tabs.drop (index + 1)

def migrateCodeFiles (state : State) (tabId codeId : Identity) (views : List FileView) : Except Failure State := do
  let (pane, tab) ← tabById state.window tabId
  if tab.resource ≠ .entity .code codeId then invalid "Legacy Code binding changed."
  else
    let receipt : CodeImport := ⟨tab.id, codeId, views⟩
    match state.layout.codeImports.find? fun r => r.tabId = tab.id with
    | some prior =>
      if prior ≠ receipt then invalid "Code conversion receipt does not match."
      else .ok state
    | none =>
      if state.layout.reserved tab.id then invalid "Legacy view is reserved for a pending transfer."
      else
        let all := state.allTabs
        occupy (all.map (·.id)) (documentIds all) views
        let files := views.map fun view => file view tab.dockPresentation
        let index ← expect (pane.tabs.findIdx? fun t => t.id = tab.id) "unwrap"
        let pane := { pane with tabs := insertAfter pane.tabs index files }
        let window ← if pane.activeTabId = some tab.id then do
            let first ← expect files.head? "index out of bounds"
            let window ← storePane state.window { pane with activeTabId := some first.id }
            if state.window.focusedPaneId = some pane.id then focus window pane.id (some first.id) else .ok window
          else storePane state.window pane
        .ok { state with window,
                         layout := { state.layout with legacyCodeImports := some (state.layout.codeImports ++ [receipt]) } }

def migrateExplorerFile (state : State) (tabId explorerId documentId : Identity) (mode : FileMode)
    (retainedViews : List FileView) : Except Failure State := do
  let (pane, tab) ← tabById state.window tabId
  if tab.resource ≠ .entity .explorer explorerId then invalid "Legacy Explorer binding changed."
  else if state.layout.reserved tab.id then invalid "Legacy view is reserved for a pending transfer."
  else
    occupy (state.allTabs.map (·.id)) [documentId] retainedViews
    let tab := { tab with resource := .entity .file documentId, fileMode := some mode, titleProtection := none }
    let retained := retainedViews.map fun view => file view tab.dockPresentation
    let index ← expect (pane.tabs.findIdx? fun t => t.id = tab.id) "unwrap"
    let pane := { pane with tabs := insertAfter (pane.tabs.set index tab) index retained }
    let window ← storePane state.window pane
    .ok { state with window }

end State

end Cantrip.Workspace
