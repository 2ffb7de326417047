import Cantrip.Workspace.Origin
import Cantrip.Workspace.Protocol

/-!
# Executing commands against the database (`workspace_layouts/repository.rs`)

A call is one transaction on the row of one workspace: it locks the stored layout, looks for the receipt of
its operation, applies the command and writes the new layout together with a receipt. Everything else that it
reads (the project's authority, labels, worktrees, legacy editors) is given with the call and may be different at
every call; any statement of it may fail, and a transaction that ends in an error changes nothing.
-/

namespace Cantrip.Workspace

open Lib List Option Except Bool

/-! ## The tables -/

/-- A text parameter of a statement: `JsString::lossy`. -/
def Identity.text (id : Identity) : List Nat := utf16Scalars id.units

/-- `tabKind` of a surface definition. The last six are rows of `project_views` of that kind. -/
inductive TabKind
  | chat | terminal | explorer | browser | code | remoteDesktop | history | graph | issues | prs | actions
  deriving DecidableEq, Repr

def EntityDefinition.tabKind : EntityDefinition → TabKind
  | .agent => .chat
  | .terminal => .terminal
  | .explorer | .file => .explorer
  | .browser => .browser
  | .code => .code
  | .remoteDesktop => .remoteDesktop
  | .gitHistory => .history
  | .gitGraph => .graph
  | .githubIssues => .issues
  | .githubPullRequests => .prs
  | .githubActions => .actions

/-- The encrypted state of an Explorer. -/
structure SealedState where
  text : Utf16
  deriving DecidableEq

/-- A row of `code_tabs` or `explorers`. -/
structure EditorRow where
  activeWorkerId : Option Utf16
  worktreeId : Option Utf16
  protectedState : Option SealedState

/-- A row of `file_documents` in a ready worktree of the project and on a linked worker of the owner. -/
structure DocumentRow where
  id : Identity
  workerId : Utf16
  worktreeId : Utf16

/-- The rows that a transaction reads beside the layout and its receipts. -/
structure Tables where
  authority : Bool
  conversation : List Nat → Option (Option PrivateLabel)
  document : List Nat → Bool
  label : TabKind → List Nat → Option (Option PrivateLabel)
  worktree : List Nat → Bool
  codeTab : List Nat → Option EditorRow
  explorer : List Nat → Option EditorRow
  documents : List DocumentRow

inductive Statement
  | authority | locked | receiptGet | migration | documents | conversation | document | label | worktree | update
  | receiptInsert | commit
  deriving DecidableEq, Repr

/-- What a migration expects of the legacy editor it converts. -/
inductive Expected
  | code (expectedWorkerId expectedWorktreeId : Identity)
  | explorer (expectedWorkerId expectedWorktreeId : Identity) (expectedStateProtection : SealedState)
  deriving DecidableEq

def Action.carries : Action → Option Expected → Bool
  | .migrateCodeFiles .., some (.code ..) => true
  | .migrateExplorerFile .., some (.explorer ..) => true
  | .migrateCodeFiles .., _ | .migrateExplorerFile .., _ => false
  | _, expected => expected.isNone

/-- A whole `workspaceCommandSchema` value. -/
structure Request where
  command : Command
  expected : Option Expected
  carried : command.action.carries expected
  /-- One of its numbers is sent as `-0`, which is read as zero. -/
  negativeZero : Bool := false
  deriving DecidableEq

/-- The request as `jsonb` gives it back, which has no negative zero. -/
def Request.stored (request : Request) : Request := { request with negativeZero := false }

structure Call where
  request : Request
  supportedVersion : Nat
  tables : Tables
  fails : Statement → Bool

/-- A row of `workspace_command_receipts`. -/
structure Receipt where
  request : Request
  appliedRevision : Nat

def Receipt.operation (receipt : Receipt) : List Nat := receipt.request.command.operationId.text

/-- The rows of one workspace; its receipts have the operation as primary key. -/
structure Store where
  layout : Option Layout
  receipts : List Receipt
  distinct : (receipts.map (·.operation)).Nodup

structure Reply where
  layout : Layout
  operationId : Identity
  appliedRevision : Nat
  replayed : Bool
  focusWindowId : Option Identity
  emptyWindowIds : List Identity
  deriving DecidableEq

inductive Refusal
  | version (message : String)
  | command (failure : Failure)
  | database
  deriving DecidableEq, Repr

/-! ## One transaction -/

def Call.ask {α : Type} (call : Call) (statement : Statement) (rows : α) : Except Refusal α :=
  if call.fails statement then .error .database else .ok rows

def refuse {α : Type} (code : Code) (message : String) : Except Refusal α := .error (.command (.command code message))

/-- `ok_or_else(|| command_error(code, message))`. -/
def orRefuse {α : Type} (value : Option α) (code : Code) (message : String) : Except Refusal α :=
  match value with
  | some a => .ok a
  | none => refuse code message

def assertVersion (version supported : Nat) : Except Refusal Unit :=
  if supported < version then .error (.version "Update Cantrip to open this workspace with conversation views.")
  else .ok ()

def Version.number : Version → Nat
  | .v1 => 1
  | .v2 => 2

def Command.version (command : Command) (layout : Layout) : Nat :=
  match command.action with
  | .openConversation .. => 2
  | _ => layout.version.number

/-- `project.overview` is in no pane, and only the Explorer goes to the left. -/
def Resource.placeable (region : Region) : Resource → Bool
  | .entity .explorer _ => true
  | .entity _ _ => region ≠ .left
  | .builtin .overview => false
  | .builtin _ => region ≠ .left

def placements (layout : Layout) : Except Refusal Unit :=
  if layout.windows.all fun window => window.panes.all fun pane =>
      (paneViews pane).all fun tab => tab.resource.placeable pane.region then .ok ()
  else refuse .invalid "The surface does not support this pane placement."

def Call.resolve (call : Call) (definitionId : EntityDefinition) (resourceId : Identity) :
    Except Refusal (Option (Option PrivateLabel)) := do
  let document ← if definitionId = .file then call.ask .document (call.tables.document resourceId.text) else .ok false
  if document then .ok (some none) else call.ask .label (call.tables.label definitionId.tabKind resourceId.text)

def EditorRow.bound (source : EditorRow) (workerId worktreeId : Identity) : Bool :=
  source.activeWorkerId = some workerId.units && source.worktreeId = some worktreeId.units

def Call.migrationDocuments (call : Call) (ids : List Identity) : Except Refusal (List DocumentRow) := do
  let documents ← call.ask .documents (call.tables.documents.filter fun row => row.id.text ∈ ids.map (·.text))
  if documents.length ≠ ids.length then refuse .missing "Migration document is unavailable in this project."
  else .ok documents

def Call.migrateCode (call : Call) (codeId : Identity) (views : List FileView)
    (expectedWorkerId expectedWorktreeId : Identity) : Except Refusal Unit := do
  let row ← call.ask .migration (call.tables.codeTab codeId.text)
  let source ← orRefuse row .missing "Legacy editor is unavailable in this project."
  if !source.bound expectedWorkerId expectedWorktreeId then
    refuse .invalid "Legacy editor binding changed before migration."
  else do
    let _documents ← call.migrationDocuments (views.map (·.documentId))
    .ok ()

def Call.migrateExplorer (call : Call) (explorerId documentId : Identity) (retainedViews : List FileView)
    (expectedWorkerId expectedWorktreeId : Identity) (expectedStateProtection : SealedState) : Except Refusal Unit := do
  let row ← call.ask .migration (call.tables.explorer explorerId.text)
  let source ← orRefuse row .missing "Legacy editor is unavailable in this project."
  if !source.bound expectedWorkerId expectedWorktreeId || source.protectedState ≠ some expectedStateProtection then
    refuse .invalid "Legacy editor binding changed before migration."
  else do
    let documents ← call.migrationDocuments (documentId :: retainedViews.map (·.documentId))
    match documents.find? fun row => row.id = documentId with
    | none => .error (.command (.fault "Cannot read properties of undefined (reading 'workerId')"))
    | some selected =>
      if some selected.workerId ≠ source.activeWorkerId ∨ some selected.worktreeId ≠ source.worktreeId then
        refuse .invalid "Migration document does not match the Explorer worktree."
      else .ok ()

def Call.migration (call : Call) : Except Refusal Unit :=
  match call.request.command.action, call.request.expected with
  | .migrateCodeFiles _ codeId views, some (.code workerId worktreeId) => call.migrateCode codeId views workerId worktreeId
  | .migrateExplorerFile _ explorerId documentId _ retainedViews, some (.explorer workerId worktreeId state) =>
    call.migrateExplorer explorerId documentId retainedViews workerId worktreeId state
  | _, _ => .ok ()

def Call.labelled (call : Call) (tab : Tab) : Except Refusal Tab :=
  match tab.resource with
  | .entity definitionId resourceId => do
    let found ← call.resolve definitionId resourceId
    let label ← orRefuse found .missing "The resource is unavailable in this project."
    .ok { tab with titleProtection := label }
  | .builtin _ => .ok tab

def Call.checkWorktree (call : Call) (tab : Tab) : Except Refusal Unit :=
  match tab.builtInState.bind (·.worktreeId) with
  | some worktreeId => do
    let ready ← call.ask .worktree (call.tables.worktree worktreeId.text)
    if ready then .ok () else refuse .missing "The worktree is unavailable in this project."
  | none => .ok ()

def Call.titled (call : Call) : Action → Except Refusal Action
  | .openConversation expected view paneId newPaneId splitId => do
    -- a conversation view shows an entity: the schema refuses any other
    let resourceId := match view.resource with
      | .entity _ resourceId => resourceId.text
      | .builtin _ => []
    let row ← call.ask .conversation (call.tables.conversation resourceId)
    let label ← orRefuse row .missing "The Agent conversation is unavailable in this project."
    .ok (.openConversation expected { view with titleProtection := label } paneId newPaneId splitId)
  | .open tab replacePreviewTabId target => do
    let tab' ← call.labelled tab
    call.checkWorktree tab
    .ok (.open tab' replacePreviewTabId target)
  | action => .ok action

/-- The command that is applied (`effective`). -/
def Call.effective (call : Call) : Except Refusal Command := do
  call.migration
  let action ← call.titled call.request.command.action
  .ok { call.request.command with action }

def Store.admit (store : Store) (call : Call) : Except Refusal (Option Layout) := do
  let authority ← call.ask .authority call.tables.authority
  if !authority then .ok none
  else do
    let row ← call.ask .locked store.layout
    match row with
    | none => .ok none
    | some layout =>
      if ¬layout.Owned then .error (.command .schema)
      else do
        assertVersion (call.request.command.version layout) call.supportedVersion
        if (layout.findWindow call.request.command.windowId).map (·.attachmentGeneration) ≠
            some call.request.command.attachmentGeneration then
          refuse .attachment "The window attachment is no longer current."
        else .ok (some layout)

def Store.receipt (store : Store) (operationId : Identity) : Option Receipt :=
  store.receipts.find? fun receipt => receipt.operation = operationId.text

/-- `update` and `receipt_insert`. The insertion fails where the operation has a receipt. -/
def Store.write (store : Store) (layout : Layout) (receipt : Receipt) : Except Refusal Store :=
  if h : receipt.operation ∈ store.receipts.map (·.operation) then .error .database
  else .ok {
    layout := some layout
    receipts := store.receipts ++ [receipt]
    distinct := by
      rw [map_append, map_singleton]
      exact nodup_append_comm.mp (nodup_cons.mpr ⟨h, store.distinct⟩) }

/-- The answer to a repeat of the command. -/
def Receipt.reply (receipt : Receipt) (layout : Layout) : Reply :=
  { layout
    operationId := receipt.request.command.operationId
    appliedRevision := receipt.appliedRevision
    replayed := true
    focusWindowId := none
    emptyWindowIds := [] }

/-- `strict_equal` tells a negative zero from the zero that was stored for it. -/
def Receipt.answer (receipt : Receipt) (request : Request) (layout : Layout) : Except Refusal Reply :=
  if receipt.request.stored ≠ request then refuse .invalid "The operation identity was already used for another command."
  else .ok (receipt.reply layout)

def CommandResult.reply (result : CommandResult) : Reply :=
  { layout := result.layout
    operationId := result.operationId
    appliedRevision := result.layout.revision
    replayed := false
    focusWindowId := result.focusWindowId
    emptyWindowIds := result.emptyWindowIds }

def Store.perform (store : Store) (call : Call) (layout : Layout) : Except Refusal (Store × Reply) := do
  let command ← call.effective
  let result ← (apply layout command).mapError Refusal.command
  placements result.layout
  call.ask .update ()
  call.ask .receiptInsert ()
  let store ← store.write result.layout { request := call.request, appliedRevision := result.layout.revision }
  .ok (store, result.reply)

def Store.transact (store : Store) (call : Call) : Except Refusal (Store × Option Reply) :=
  if !call.request.command.accepted then .error (.command .schema)
  else do
    match ← store.admit call with
    | none => .ok (store, none)
    | some layout =>
      match ← call.ask .receiptGet (store.receipt call.request.command.operationId) with
      | some receipt =>
        let reply ← receipt.answer call.request layout
        .ok (store, some reply)
      | none =>
        let (store, reply) ← store.perform call layout
        .ok (store, some reply)

def Store.executeWithVersion (store : Store) (call : Call) : Store × Except Refusal (Option Reply) :=
  match store.transact call with
  | .error refusal => (store, .error refusal)
  | .ok (store', reply) => if call.fails .commit then (store, .error .database) else (store', .ok reply)

/-! ## What a transaction goes through -/

variable {call : Call} {command : Command} {layout : Layout} {receipt : Receipt} {store : Store}

@[simp] theorem ask_eq_ok {α : Type} {statement : Statement} {rows a : α} :
    call.ask statement rows = .ok a ↔ call.fails statement = false ∧ rows = a := by
  unfold Call.ask
  cases call.fails statement <;> simp

@[simp] theorem refuse_ne_ok {α : Type} (code : Code) (message : String) (a : α) :
    (refuse code message : Except Refusal α) ≠ .ok a := by
  simp [refuse]

theorem assertVersion_eq_ok {version supported : Nat} : assertVersion version supported = .ok () ↔ version ≤ supported := by
  unfold assertVersion
  split
  · simp; omega
  · simp; omega

structure Store.Admits (store : Store) (call : Call) (layout : Layout) : Prop where
  authority : call.tables.authority
  stored : store.layout = some layout
  owned : layout.Owned
  version : call.request.command.version layout ≤ call.supportedVersion
  attached : ∃ window, layout.findWindow call.request.command.windowId = some window ∧
    window.attachmentGeneration = call.request.command.attachmentGeneration

theorem admit_eq_ok : store.admit call = .ok (some layout) ↔
      call.fails .authority = false ∧ call.fails .locked = false ∧ store.Admits call layout := by
  unfold Store.admit
  constructor
  · intro h
    obtain ⟨authority, hauthority, hrun⟩ := bind_eq_ok.mp h
    obtain ⟨hanswered, rfl⟩ := ask_eq_ok.mp hauthority
    split at hrun
    · simp at hrun
    next hallowed =>
    obtain ⟨row, hrow, hrun⟩ := bind_eq_ok.mp hrun
    obtain ⟨hlocked, rfl⟩ := ask_eq_ok.mp hrow
    cases hstored : store.layout with
    | none => simp [hstored] at hrun
    | some stored =>
      rw [hstored] at hrun
      dsimp only at hrun
      split at hrun
      · simp at hrun
      next howned =>
      obtain ⟨_, hversion, hrun⟩ := bind_eq_ok.mp hrun
      split at hrun
      · exact absurd hrun (refuse_ne_ok _ _ _)
      next hattached =>
      obtain rfl := some.inj (ok.inj hrun)
      rw [ne_eq, Classical.not_not, map_eq_some_iff] at hattached
      exact ⟨hanswered, hlocked, by simpa using hallowed, hstored, not_not.mp howned, assertVersion_eq_ok.mp hversion, hattached⟩
  · rintro ⟨hanswered, hlocked, h⟩
    refine bind_eq_ok.mpr ⟨true, ask_eq_ok.mpr ⟨hanswered, h.authority⟩, ?_⟩
    refine bind_eq_ok.mpr ⟨some layout, ask_eq_ok.mpr ⟨hlocked, h.stored⟩, ?_⟩
    dsimp only
    rw [if_neg (not_not.mpr h.owned)]
    refine bind_eq_ok.mpr ⟨(), assertVersion_eq_ok.mpr h.version, ?_⟩
    rw [if_neg]
    rw [ne_eq, Classical.not_not, map_eq_some_iff]
    exact h.attached

/-- The statements that every call sends. -/
def Call.answered (call : Call) : Bool :=
  !call.fails .authority && !call.fails .locked && !call.fails .receiptGet && !call.fails .commit

/-- The call changes nothing and is answered by an error, or by nothing where there is no such workspace. -/
def Store.Rejects (store : Store) (call : Call) : Prop :=
  (store.executeWithVersion call).1 = store ∧
    ((∃ refusal, (store.executeWithVersion call).2 = .error refusal) ∨
      ((store.executeWithVersion call).2 = .ok none ∧ (call.tables.authority = false ∨ store.layout = none)))

structure Store.Replays (store : Store) (call : Call) (layout : Layout) (receipt : Receipt) : Prop where
  answered : call.answered
  accepted : call.request.command.accepted
  admits : store.Admits call layout
  found : store.receipt call.request.command.operationId = some receipt
  same : receipt.request.stored = call.request
  result : store.executeWithVersion call = (store, .ok (some (receipt.reply layout)))

structure Store.Applies (store : Store) (call : Call) (layout : Layout) (command : Command) (result : CommandResult) :
    Prop where
  accepted : call.request.command.accepted
  admits : store.Admits call layout
  unused : store.receipt call.request.command.operationId = none
  effective : call.effective = .ok command
  apply : apply layout command = .ok result
  layout : (store.executeWithVersion call).1.layout = some result.layout
  receipts : (store.executeWithVersion call).1.receipts = store.receipts ++ [⟨call.request, result.layout.revision⟩]
  reply : (store.executeWithVersion call).2 = .ok (some result.reply)

theorem admit_eq_none (h : store.admit call = .ok none) : call.tables.authority = false ∨ store.layout = none := by
  unfold Store.admit at h
  obtain ⟨authority, hauthority, hrun⟩ := bind_eq_ok.mp h
  obtain ⟨-, rfl⟩ := ask_eq_ok.mp hauthority
  split at hrun
  · next hdenied => exact .inl (by simpa using hdenied)
  obtain ⟨row, hrow, hrun⟩ := bind_eq_ok.mp hrun
  obtain ⟨-, rfl⟩ := ask_eq_ok.mp hrow
  cases hstored : store.layout with
  | none => exact .inr rfl
  | some stored =>
    rw [hstored] at hrun
    dsimp only at hrun
    split at hrun
    · simp at hrun
    obtain ⟨_, -, hrun⟩ := bind_eq_ok.mp hrun
    split at hrun
    · exact absurd hrun (refuse_ne_ok _ _ _)
    · simp at hrun

theorem answer_eq_ok {request : Request} {reply : Reply} :
    receipt.answer request layout = .ok reply ↔ receipt.request.stored = request ∧ reply = receipt.reply layout := by
  unfold Receipt.answer
  split
  · next h => simp [h]
  · next h =>
    rw [ne_eq, Classical.not_not] at h
    simp [h, eq_comm]

theorem write_eq_ok {store' : Store} (h : store.write layout receipt = .ok store') :
    store'.layout = some layout ∧ store'.receipts = store.receipts ++ [receipt] := by
  unfold Store.write at h
  split at h
  · simp at h
  · obtain rfl := ok.inj h
    exact ⟨rfl, rfl⟩

theorem perform_eq_ok {store' : Store} {reply : Reply}
    (h : store.perform call layout = .ok (store', reply)) : ∃ command result, call.effective = .ok command ∧
      apply layout command = .ok result ∧ store'.layout = some result.layout ∧
      store'.receipts = store.receipts ++ [⟨call.request, result.layout.revision⟩] ∧ reply = result.reply := by
  obtain ⟨command, hcommand, hrun⟩ := bind_eq_ok.mp h
  obtain ⟨result, hresult, hrun⟩ := bind_eq_ok.mp hrun
  obtain ⟨_, -, hrun⟩ := bind_eq_ok.mp hrun
  obtain ⟨_, -, hrun⟩ := bind_eq_ok.mp hrun
  obtain ⟨_, -, hrun⟩ := bind_eq_ok.mp hrun
  obtain ⟨written, hwrite, hrun⟩ := bind_eq_ok.mp hrun
  obtain ⟨rfl, rfl⟩ := Prod.mk.inj (ok.inj hrun)
  obtain ⟨hlayout, hreceipts⟩ := write_eq_ok hwrite
  exact ⟨command, result, hcommand, mapError_eq_ok.mp hresult, hlayout, hreceipts, rfl⟩

theorem execute_cases (store : Store) (call : Call) : store.Rejects call ∨
    (∃ layout receipt, store.Replays call layout receipt) ∨
    ∃ layout command result, store.Applies call layout command result := by
  cases htransact : store.transact call with
  | error refusal =>
    have hexecute : store.executeWithVersion call = (store, .error refusal) := by rw [Store.executeWithVersion, htransact]
    exact .inl ⟨by rw [hexecute], .inl ⟨refusal, by rw [hexecute]⟩⟩
  | ok done =>
    obtain ⟨store', reply⟩ := done
    cases hcommit : call.fails .commit with
    | true =>
      have hexecute : store.executeWithVersion call = (store, .error .database) := by
        simp only [Store.executeWithVersion, htransact, hcommit, if_true]
      exact .inl ⟨by rw [hexecute], .inl ⟨.database, by rw [hexecute]⟩⟩
    | false =>
      have hexecute : store.executeWithVersion call = (store', .ok reply) := by
        simp [Store.executeWithVersion, htransact, hcommit]
      unfold Store.transact at htransact
      split at htransact
      · simp at htransact
      next haccepted =>
      obtain ⟨admitted, hadmitted, hrun⟩ := bind_eq_ok.mp htransact
      cases admitted with
      | none =>
        obtain ⟨rfl, rfl⟩ := Prod.mk.inj (ok.inj hrun)
        exact .inl ⟨by rw [hexecute], .inr ⟨by rw [hexecute], admit_eq_none hadmitted⟩⟩
      | some layout =>
        obtain ⟨hauthority, hlocked, hadmits⟩ := admit_eq_ok.mp hadmitted
        obtain ⟨found, hfound, hrun⟩ := bind_eq_ok.mp hrun
        obtain ⟨hreceiptGet, rfl⟩ := ask_eq_ok.mp hfound
        cases hreceipt : store.receipt call.request.command.operationId with
        | some receipt =>
          rw [hreceipt] at hrun
          obtain ⟨answer, hanswer, hrun⟩ := bind_eq_ok.mp hrun
          obtain ⟨rfl, rfl⟩ := Prod.mk.inj (ok.inj hrun)
          obtain ⟨hsame, rfl⟩ := answer_eq_ok.mp hanswer
          exact .inr (.inl ⟨layout, receipt, by simp [Call.answered, hauthority, hlocked, hreceiptGet, hcommit],
            by simpa using haccepted, hadmits, hreceipt, hsame, hexecute⟩)
        | none =>
          rw [hreceipt] at hrun
          obtain ⟨⟨performed, answer⟩, hperform, hrun⟩ := bind_eq_ok.mp hrun
          obtain ⟨rfl, rfl⟩ := Prod.mk.inj (ok.inj hrun)
          obtain ⟨command, result, hcommand, hresult, hlayout, hreceipts, rfl⟩ := perform_eq_ok hperform
          exact .inr (.inr ⟨layout, command, result, by simpa using haccepted, hadmits, hreceipt, hcommand, hresult,
            by rw [hexecute]; exact hlayout, by rw [hexecute]; exact hreceipts, by rw [hexecute]⟩)

theorem replays_of_found (hanswered : call.answered)
    (haccepted : call.request.command.accepted) (hadmits : store.Admits call layout)
    (hfound : store.receipt call.request.command.operationId = some receipt) (hsame : receipt.request.stored = call.request) :
    store.Replays call layout receipt := by
  refine ⟨hanswered, haccepted, hadmits, hfound, hsame, ?_⟩
  simp only [Call.answered, and_eq_true, not_eq_true'] at hanswered
  obtain ⟨⟨⟨hauthority, hlocked⟩, hreceiptGet⟩, hcommit⟩ := hanswered
  have htransact : store.transact call = .ok (store, some (receipt.reply layout)) := by
    rw [Store.transact, haccepted]
    refine bind_eq_ok.mpr ⟨some layout, admit_eq_ok.mpr ⟨hauthority, hlocked, hadmits⟩, ?_⟩
    refine bind_eq_ok.mpr ⟨some receipt, ask_eq_ok.mpr ⟨hreceiptGet, hfound⟩, ?_⟩
    exact bind_eq_ok.mpr ⟨receipt.reply layout, answer_eq_ok.mpr ⟨hsame, rfl⟩, rfl⟩
  simp [Store.executeWithVersion, htransact, hcommit]

theorem receipt_eq_some {operationId : Identity} (hmem : receipt ∈ store.receipts)
    (hkey : receipt.operation = operationId.text) : store.receipt operationId = some receipt := by
  rw [Store.receipt, ← hkey]
  exact find?_eq_of_mem store.distinct hmem

/-! ## The command that is applied -/

def Action.untitled : Action → Action
  | .openConversation expected view paneId newPaneId splitId =>
    .openConversation expected { view with titleProtection := none } paneId newPaneId splitId
  | .open tab replacePreviewTabId target => .open { tab with titleProtection := none } replacePreviewTabId target
  | action => action

theorem titled_eq_ok {action action' : Action} (h : call.titled action = .ok action') :
    action'.untitled = action.untitled := by
  cases action with
  | openConversation expected view paneId newPaneId splitId =>
    obtain ⟨row, -, hrun⟩ := bind_eq_ok.mp h
    obtain ⟨label, -, hrun⟩ := bind_eq_ok.mp hrun
    obtain rfl := ok.inj hrun
    rfl
  | «open» tab replacePreviewTabId target =>
    obtain ⟨tab', htab, hrun⟩ := bind_eq_ok.mp h
    obtain ⟨_, -, hrun⟩ := bind_eq_ok.mp hrun
    obtain rfl := ok.inj hrun
    unfold Call.labelled at htab
    split at htab
    · obtain ⟨found, -, hlabel⟩ := bind_eq_ok.mp htab
      obtain ⟨label, -, hlabel⟩ := bind_eq_ok.mp hlabel
      obtain rfl := ok.inj hlabel
      rfl
    · obtain rfl := ok.inj htab
      rfl
  | _ =>
    obtain rfl := ok.inj h
    rfl

/-- The applied command is the submitted one but for the titles of the views it opens. -/
structure Request.Titled (request : Request) (command : Command) : Prop where
  action : command.action.untitled = request.command.action.untitled
  rest : { command with action := request.command.action } = request.command

theorem effective_eq_ok (h : call.effective = .ok command) : call.request.Titled command := by
  obtain ⟨_, -, hrun⟩ := bind_eq_ok.mp h
  obtain ⟨action, haction, hrun⟩ := bind_eq_ok.mp hrun
  obtain rfl := ok.inj hrun
  exact ⟨titled_eq_ok haction, rfl⟩

theorem Request.Titled.expectedRevision {request : Request} (h : request.Titled command) :
    command.expectedRevision = request.command.expectedRevision := by
  rw [← h.rest]

theorem apply_revision {result : CommandResult} (h : apply layout command = .ok result) :
    command.expectedRevision = layout.revision ∧ result.layout.revision = layout.revision + 1 := by
  obtain ⟨-, howned, state, state', hstate, hrun, hresult, -, -, -⟩ := apply_eq_ok h
  have hmigrated : (migrated layout command.action).revision = layout.revision := by
    rcases migrated_cases layout command.action with he | he
    · rw [he]
    · rw [he]
  have hsound := (precheck_sound howned hstate).1
  obtain ⟨-, -, hexpected, window, -, -, -, rfl⟩ := precheck_eq_ok hstate
  refine ⟨hexpected.trans hmigrated, ?_⟩
  rw [hresult]
  show state'.layout.revision + 1 = layout.revision + 1
  rw [(run_sameScope hsound hrun).revision]
  exact congrArg (· + 1) hmigrated

/-! ## Sequences of calls -/

def Store.serve (store : Store) (calls : List Call) : Store := calls.foldl (fun s call => (s.executeWithVersion call).1) store

def Store.appliesNow (store : Store) (call : Call) : Bool :=
  match (store.executeWithVersion call).2 with
  | .ok (some reply) => !reply.replayed
  | _ => false

def Store.applied : Store → List Call → List Call
  | _, [] => []
  | store, call :: calls =>
    let later := (store.executeWithVersion call).1.applied calls
    if store.appliesNow call then call :: later else later

theorem Store.Rejects.not_applied (h : store.Rejects call) : store.appliesNow call = false := by
  unfold Store.appliesNow
  rcases h.2 with ⟨refusal, he⟩ | ⟨he, -⟩
  · rw [he]
  · rw [he]

theorem Store.Replays.not_applied (h : store.Replays call layout receipt) : store.appliesNow call = false := by
  simp [Store.appliesNow, h.result, Receipt.reply]

theorem Store.Applies.is_applied {result : CommandResult}
    (h : store.Applies call layout command result) : store.appliesNow call = true := by
  simp [Store.appliesNow, h.reply, CommandResult.reply]

theorem execute_step (store : Store) (call : Call) :
    ((store.executeWithVersion call).1 = store ∧ store.appliesNow call = false) ∨
      (store.appliesNow call = true ∧ ∃ layout command result, store.Applies call layout command result) := by
  rcases execute_cases store call with h | ⟨layout, receipt, h⟩ | ⟨layout, command, result, h⟩
  · exact .inl ⟨h.1, h.not_applied⟩
  · exact .inl ⟨by rw [h.result], h.not_applied⟩
  · exact .inr ⟨h.is_applied, layout, command, result, h⟩

theorem serve_receipts (store : Store) (calls : List Call) :
    (store.serve calls).receipts.map (·.request) =
      store.receipts.map (·.request) ++ (store.applied calls).map (·.request) := by
  induction calls generalizing store with
  | nil => simp [Store.serve, Store.applied]
  | cons call calls ih =>
    have hlater := ih (store.executeWithVersion call).1
    change ((store.executeWithVersion call).1.serve calls).receipts.map _ = _
    rw [hlater, Store.applied]
    rcases execute_step store call with ⟨hsame, hno⟩ | ⟨hyes, layout, command, result, h⟩
    · rw [hsame, hno]
      rfl
    · rw [hyes, h.receipts]
      simp

theorem serve_layout (store : Store) (calls : List Call) (hstored : store.layout = some layout) :
    ∃ commands final, List.Forall₂ (fun call command => call.effective = .ok command) (store.applied calls) commands ∧
      (store.serve calls).layout = some final ∧ applyAll layout commands = .ok final ∧
      final.revision = layout.revision + (store.applied calls).length ∧
      (store.serve calls).receipts.map (·.appliedRevision) =
        store.receipts.map (·.appliedRevision) ++ range' (layout.revision + 1) (store.applied calls).length := by
  induction calls generalizing store layout with
  | nil => exact ⟨[], layout, .nil, hstored, rfl, rfl, by simp [Store.serve, Store.applied]⟩
  | cons call calls ih =>
    change ∃ commands final, _ ∧ ((store.executeWithVersion call).1.serve calls).layout = some final ∧ _ ∧ _ ∧
      ((store.executeWithVersion call).1.serve calls).receipts.map _ = _
    rw [Store.applied]
    rcases execute_step store call with ⟨hsame, hno⟩ | ⟨hyes, current, command, result, h⟩
    · rw [hsame, hno]
      exact ih store hstored
    · obtain rfl : current = layout := some.inj (h.admits.stored.symm.trans hstored)
      obtain ⟨commands, final, heffective, hfinal, happly, hrevision, hreceipts⟩ := ih _ h.layout
      have hstep := (apply_revision h.apply).2
      refine ⟨command :: commands, final, ?_, hfinal, bind_eq_ok.mpr ⟨result, h.apply, happly⟩, ?_, ?_⟩
      · rw [hyes, if_pos rfl]
        exact .cons h.effective heffective
      · rw [hrevision, hstep, hyes, if_pos rfl, length_cons]
        omega
      · rw [hreceipts, h.receipts, hyes, if_pos rfl, length_cons, range'_succ, hstep]
        simp

theorem serve_none (store : Store) (calls : List Call) (hnone : store.layout = none) : store.applied calls = [] := by
  induction calls with
  | nil => rfl
  | cons call calls ih =>
    rw [Store.applied]
    rcases execute_step store call with ⟨hsame, hno⟩ | ⟨-, layout, command, result, h⟩
    · rw [hsame, hno]
      exact ih
    · simpa [hnone] using h.admits.stored

theorem applied_accepted (store : Store) (calls : List Call) : ∀ call ∈ store.applied calls, call.request.command.accepted := by
  induction calls generalizing store with
  | nil => simp [Store.applied]
  | cons call calls ih =>
    intro other hother
    rw [Store.applied] at hother
    rcases execute_step store call with ⟨-, hno⟩ | ⟨hyes, layout, command, result, h⟩
    · rw [hno] at hother
      exact ih _ other hother
    · rw [hyes] at hother
      rcases mem_cons.mp hother with rfl | hlater
      · exact h.accepted
      · exact ih _ other hlater

theorem execute_used (hmem : receipt ∈ store.receipts) (hkey : receipt.operation = call.request.command.operationId.text) :
    store.Rejects call ∨ (receipt.request.stored = call.request ∧ ∃ layout, store.Replays call layout receipt) := by
  have hfound := receipt_eq_some hmem hkey
  rcases execute_cases store call with h | ⟨layout, receipt', h⟩ | ⟨layout, command, result, h⟩
  · exact .inl h
  · obtain rfl : receipt' = receipt := some.inj (h.found.symm.trans hfound)
    exact .inr ⟨h.same, layout, h⟩
  · exact absurd (h.unused.symm.trans hfound) (by simp)

theorem execute_detached (hstored : store.layout = some layout)
    (hstale : (layout.findWindow call.request.command.windowId).map (·.attachmentGeneration) ≠
      some call.request.command.attachmentGeneration) : store.Rejects call := by
  have hno : ∀ current, ¬store.Admits call current := by
    intro current h
    obtain rfl : current = layout := some.inj (h.stored.symm.trans hstored)
    obtain ⟨window, hwindow, hgeneration⟩ := h.attached
    exact hstale (by rw [hwindow, map_some, hgeneration])
  rcases execute_cases store call with h | ⟨current, receipt, h⟩ | ⟨current, command, result, h⟩
  · exact h
  · exact absurd h.admits (hno current)
  · exact absurd h.admits (hno current)

theorem execute_stale (hstored : store.layout = some layout)
    (hunused : call.request.command.operationId.text ∉ store.receipts.map (·.operation))
    (hstale : call.request.command.expectedRevision ≠ layout.revision) : store.Rejects call := by
  rcases execute_cases store call with h | ⟨current, receipt, h⟩ | ⟨current, command, result, h⟩
  · exact h
  · have hfound := h.found
    rw [Store.receipt] at hfound
    have hkey : receipt.operation = call.request.command.operationId.text := by simpa using find?_some hfound
    exact absurd (hkey ▸ List.mem_map_of_mem (mem_of_find?_eq_some hfound)) hunused
  · obtain rfl : current = layout := some.inj (h.admits.stored.symm.trans hstored)
    have hexpected := (apply_revision h.apply).1
    rw [(effective_eq_ok h.effective).expectedRevision] at hexpected
    exact absurd hexpected hstale

def Call.operation (call : Call) : List Nat := call.request.command.operationId.text

/-- After any calls on a workspace, in any order and with any repeats:
the operations that were applied are distinct and had no receipt before;
the stored layout is what the applied commands make of the first one, each with the revision after the one before;
a repeat of an applied command, with a zero for each negative zero, changes nothing and is answered as replayed
exactly where the workspace admits its window, at the attachment generation the command names; another command under
its operation is rejected, and a repeat with a negative zero counts as another one;
so is a call for a stale generation, and a new operation for a stale revision;
and a call that is applied takes the stored revision one further. -/
theorem execute_exactly_once (initial : Store) (calls : List Call) :
    (initial.receipts.map (·.operation) ++ (initial.applied calls).map (·.operation)).Nodup ∧
    (initial.layout = none → initial.applied calls = []) ∧
    (∀ layout, initial.layout = some layout → ∃ commands final,
      List.Forall₂ (fun call command => call.effective = .ok command ∧ call.request.Titled command)
        (initial.applied calls) commands ∧
      (initial.serve calls).layout = some final ∧ applyAll layout commands = .ok final ∧
      final.revision = layout.revision + (initial.applied calls).length) ∧
    (∀ call : Call, ∀ before ∈ initial.applied calls, call.request = before.request.stored →
      ((initial.serve calls).executeWithVersion call).1 = initial.serve calls ∧
      (((∃ layout, (initial.serve calls).Admits call layout) ∧ call.answered →
        ∃ layout reply, (initial.serve calls).layout = some layout ∧
          ((initial.serve calls).executeWithVersion call).2 = .ok (some reply) ∧ reply.replayed = true ∧
          reply.layout = layout) ∧
       (¬((∃ layout, (initial.serve calls).Admits call layout) ∧ call.answered) → (initial.serve calls).Rejects call))) ∧
    (∀ call : Call, ∀ before ∈ initial.applied calls, call.operation = before.operation →
      call.request ≠ before.request.stored → (initial.serve calls).Rejects call) ∧
    (∀ call layout, (initial.serve calls).layout = some layout →
      (layout.findWindow call.request.command.windowId).map (·.attachmentGeneration) ≠
        some call.request.command.attachmentGeneration → (initial.serve calls).Rejects call) ∧
    (∀ call layout, (initial.serve calls).layout = some layout →
      call.operation ∉ (initial.serve calls).receipts.map (·.operation) →
      call.request.command.expectedRevision ≠ layout.revision → (initial.serve calls).Rejects call) ∧
    (∀ call, (initial.serve calls).appliesNow call = true → ∃ layout layout',
      (initial.serve calls).layout = some layout ∧
      ((initial.serve calls).executeWithVersion call).1.layout = some layout' ∧ layout'.revision = layout.revision + 1) := by
  have hrequests := serve_receipts initial calls
  have hkeys : (initial.serve calls).receipts.map (·.operation) =
      initial.receipts.map (·.operation) ++ (initial.applied calls).map (·.operation) := by
    have hmap := congrArg (List.map fun r : Request => r.command.operationId.text) hrequests
    simpa [Function.comp_def, Receipt.operation, Call.operation] using hmap
  have hrecorded : ∀ before ∈ initial.applied calls, ∃ receipt ∈ (initial.serve calls).receipts,
      receipt.request = before.request := by
    intro before hbefore
    have hmem : before.request ∈ (initial.serve calls).receipts.map (·.request) := by
      rw [hrequests]
      exact mem_append_right _ (List.mem_map_of_mem hbefore)
    exact List.mem_map.mp hmem
  refine ⟨hkeys ▸ (initial.serve calls).distinct, serve_none initial calls, ?_, ?_, ?_, ?_, ?_, ?_⟩
  · intro layout hstored
    obtain ⟨commands, final, heffective, hfinal, happly, hrevision, -⟩ := serve_layout initial calls hstored
    exact ⟨commands, final, heffective.imp fun call command h => ⟨h, effective_eq_ok h⟩, hfinal, happly, hrevision⟩
  · intro call before hbefore hsame
    obtain ⟨receipt, hmem, hrequest⟩ := hrecorded before hbefore
    have hkey : receipt.operation = call.request.command.operationId.text := by
      rw [Receipt.operation, hrequest, hsame, Request.stored]
    rcases execute_used hmem hkey with h | ⟨-, layout, h⟩
    · refine ⟨h.1, ?_, fun _ => h⟩
      rintro ⟨⟨layout, hadmits⟩, hanswered⟩
      have haccepted : call.request.command.accepted := by
        rw [hsame]
        exact applied_accepted initial calls before hbefore
      have hreplays := replays_of_found hanswered haccepted hadmits (receipt_eq_some hmem hkey) (hrequest ▸ hsame.symm)
      exact ⟨layout, receipt.reply layout, hadmits.stored, by rw [hreplays.result], rfl, rfl⟩
    · refine ⟨by rw [h.result], ?_, fun hno => absurd ⟨⟨layout, h.admits⟩, h.answered⟩ hno⟩
      rintro -
      exact ⟨layout, receipt.reply layout, h.admits.stored, by rw [h.result], rfl, rfl⟩
  · intro call before hbefore hkey hother
    obtain ⟨receipt, hmem, hrequest⟩ := hrecorded before hbefore
    have hoperation : receipt.operation = call.request.command.operationId.text := by
      rw [Receipt.operation, hrequest]
      exact hkey.symm
    rcases execute_used hmem hoperation with h | ⟨hsame, -⟩
    · exact h
    · exact absurd (hrequest ▸ hsame.symm) hother
  · intro call layout
    exact execute_detached
  · intro call layout
    exact execute_stale
  · intro call happlied
    rcases execute_step (initial.serve calls) call with ⟨-, hno⟩ | ⟨-, layout, command, result, h⟩
    · exact absurd happlied (by simp [hno])
    · exact ⟨layout, result.layout, h.admits.stored, h.layout, (apply_revision h.apply).2⟩

def explorerStore : Store := { layout := some explorerLayout, receipts := [], distinct := nodup_nil }

def takeover : Call :=
  { request := { command := windowCommand 5 0 (.replaceAttachment (named 40)), expected := none, carried := rfl }
    supportedVersion := 2
    tables := { authority := true, conversation := fun _ => none, document := fun _ => false, label := fun _ _ => none,
                worktree := fun _ => false, codeTab := fun _ => none, explorer := fun _ => none, documents := [] }
    fails := fun _ => false }

/-- The takeover ends the generation of the window that it was sent for, so its repeat is refused. -/
theorem takeover_not_replayed : explorerStore.applied [takeover] = [takeover] ∧
    ((explorerStore.serve [takeover]).executeWithVersion takeover).2 =
      .error (.command (.command .attachment "The window attachment is no longer current.")) := by
  have happlied : explorerStore.appliesNow takeover = true := by decide
  refine ⟨?_, by decide⟩
  rw [Store.applied, happlied]
  rfl

theorem apply_scope {result : CommandResult} (h : apply layout command = .ok result) :
    command.workspaceId = layout.id ∧ command.projectId = layout.projectId ∧ result.layout.id = layout.id ∧
      result.layout.projectId = layout.projectId ∧ result.layout.mainWindowId = layout.mainWindowId ∧
      (layout.version = .v2 → result.layout.version = .v2) := by
  obtain ⟨-, howned, state, state', hstate, hrun, hresult, -, -, -⟩ := apply_eq_ok h
  have hscope := run_sameScope (precheck_sound howned hstate).1 hrun
  obtain ⟨hid, hproject, -, window, -, -, -, rfl⟩ := precheck_eq_ok hstate
  rw [hresult, hid, hproject]
  have hversion : state'.finish.version = state'.layout.version := rfl
  refine ⟨?_, ?_, hscope.id.trans ?_, hscope.projectId.trans ?_, hscope.mainWindowId.trans ?_, fun hv2 => ?_⟩
  all_goals rcases migrated_cases layout command.action with he | he
  all_goals simp [hscope.version, *]

/-- The accepted commands of a run are serialized by the revisions they expect, all of one workspace; its scope, its main
window and what it owns stay valid, and a window that has panes all along keeps its placement. -/
theorem runs_serialized {initial : Layout} (h : Runs initial trace layout) :
    (trace.map fun step => step.2.expectedRevision) = range' initial.revision trace.length ∧
      layout.revision = initial.revision + trace.length ∧
      (∀ step ∈ trace, step.2.workspaceId = initial.id ∧ step.2.projectId = initial.projectId) ∧
      (layout.id = initial.id ∧ layout.projectId = initial.projectId ∧ layout.mainWindowId = initial.mainWindowId) ∧
      (initial.version = .v2 → layout.version = .v2) ∧ (initial.Owned → layout.Owned) ∧
      ∀ id window window', initial.findWindow id = some window → layout.findWindow id = some window' →
        (∀ step ∈ trace, ∃ w, step.1.findWindow id = some w ∧ w.panes ≠ []) →
        window'.returnPlacement = window.returnPlacement := by
  induction h with
  | start =>
    refine ⟨rfl, rfl, (fun _ hstep => nomatch hstep), ⟨rfl, rfl, rfl⟩, id, id, fun id window window' hw hw' _ => ?_⟩
    rw [Option.some.inj (hw.symm.trans hw')]
  | @step trace layout command result _ happly ih =>
    obtain ⟨hexpected, hrevision, hscope, ⟨hid, hproject, hmain⟩, hversion, -, horigin⟩ := ih
    obtain ⟨hworkspace, hof, hid', hproject', hmain', hversion'⟩ := apply_scope happly
    obtain ⟨hnow, hnext⟩ := apply_revision happly
    obtain ⟨-, -, _, _, -, -, -, howned, -, -⟩ := apply_eq_ok happly
    refine ⟨?_, ?_, fun step hstep => ?_, ⟨hid'.trans hid, hproject'.trans hproject, hmain'.trans hmain⟩,
      fun hv2 => hversion' (hversion hv2), fun _ => howned, fun id window window' hw hw' hpanes => ?_⟩
    · rw [map_append, hexpected, length_append, length_singleton, range'_concat, map_singleton, hnow, hrevision, one_mul]
    · rw [hnext, hrevision, length_append, length_singleton, Nat.add_assoc]
    · rcases mem_append.mp hstep with hstep | hstep
      · exact hscope step hstep
      · obtain rfl := mem_singleton.mp hstep
        exact ⟨hworkspace.trans hid, hof.trans hproject⟩
    · obtain ⟨w, hfind, hheld⟩ := hpanes (layout, command) (mem_append_right _ (mem_singleton_self _))
      exact (apply_origin happly hfind hheld hw').trans
        (horigin id window w hw hfind fun step hstep => hpanes step (mem_append_left _ hstep))

theorem runs_serialized_detaching : ∃ trace layout, Runs explorerLayout trace layout ∧ trace.length = 3 ∧
    layout.revision = explorerLayout.revision + 3 := by
  have hdone : (applyAll explorerLayout (detachment :: acknowledgements)).isOk = true := by decide
  cases hlayout : applyAll explorerLayout (detachment :: acknowledgements) with
  | error e => simp [hlayout, Except.isOk, Except.toBool] at hdone
  | ok layout =>
    obtain ⟨trace, htrace, hruns⟩ := Runs.start.applyAll hlayout
    have hlength : trace.length = 3 := (length_map Prod.snd).symm.trans (congrArg length htrace)
    exact ⟨trace, layout, hruns, hlength, hlength ▸ (runs_serialized hruns).2.1⟩

end Cantrip.Workspace
