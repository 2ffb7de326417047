import Cantrip.Workspace.Origin
import Cantrip.Workspace.Protocol

/-!
# A pane detached and returned

A whole pane that leaves the main window and comes back finds its place again: the tree it left is the remembered
one without its leaf as long as nothing else changed there, and its position, its region and its active view are
those it took along. Panes are compared in the form that version 2 gives them (`normalizePane`), since a
conversation opened elsewhere may migrate the layout in between.
-/

namespace Cantrip.Workspace

open Lib List Option Except Function

/-! ## Panes and windows at rest -/

theorem Pane.Refined.settle_eq {version : Version} {pane : Pane} (h : pane.Refined version) :
    settlePane version pane = pane := by
  unfold settlePane
  split
  · next hv =>
    obtain ⟨hconversation, hselection⟩ := h.version2 hv
    obtain ⟨view, hview⟩ := ne_none_iff_exists'.mp hconversation
    obtain ⟨selection, hselected⟩ := ne_none_iff_exists'.mp hselection
    cases pane
    subst hview hselected
    rfl
  · rfl

theorem Window.Refined.finish_eq {version : Version} {window : Window} (h : window.Refined version) :
    window.finish version = window := by
  have hpanes : (window.finish version).panes = window.panes := by
    rw [panes_finish]
    exact (map_congr_left fun p hp => (h.panes p hp).settle_eq).trans (List.map_id _)
  have htabs : (window.finish version).recentTabIds = window.recentTabIds := by
    rw [(finish_fields version window).2.2.2.2.2]
    cases hr : window.recentTabIds with
    | none => rfl
    | some ids =>
      have howned : ∀ id ∈ ids, id ∈ window.viewIds := by simpa [hr] using h.recentTabs.2
      rw [map_some, filter_eq_self.mpr (by simpa using howned)]
  have hrest : window.finish version = { window with
      panes := (window.finish version).panes, recentTabIds := (window.finish version).recentTabIds } := by
    unfold Window.finish
    split <;> rfl
  rw [hrest, hpanes, htabs]

@[simp] theorem normalizePane_settlePane (version : Version) (pane : Pane) :
    normalizePane (settlePane version pane) = normalizePane pane := by
  unfold settlePane
  split
  · simp [normalizePane]
  · rfl

theorem Pane.Refined.normalize_inj {version : Version} {p q : Pane} (hp : p.Refined version) (hq : q.Refined version)
    (h : normalizePane p = normalizePane q) : p = q := by
  cases version with
  | v1 =>
    obtain ⟨hpview, hpselection⟩ := hp.version1 rfl
    obtain ⟨hqview, hqselection⟩ := hq.version1 rfl
    cases p
    cases q
    subst hpview hpselection hqview hqselection
    simp only [normalizePane, Pane.mk.injEq] at h ⊢
    exact ⟨h.1, h.2.1, h.2.2.1, h.2.2.2.1, h.2.2.2.2.1, trivial, trivial⟩
  | v2 =>
    have hp' := hp.settle_eq
    have hq' := hq.settle_eq
    rw [settlePane, if_pos rfl] at hp' hq'
    rw [← hp', ← hq', h]

@[simp] theorem selectedViewId_normalizePane (pane : Pane) : selectedViewId (normalizePane pane) = selectedViewId pane := by
  cases hs : pane.selection with
  | none => simp [selectedViewId, normalizePane, hs]
  | some selection => simp [selectedViewId, normalizePane, hs]

theorem focusPane_selected {version : Version} {pane : Pane} (h : pane.Refined version) (hviews : pane.viewIds.Nodup) :
    focusPane pane (selectedViewId pane) = pane := by
  -- a tab and the direct conversation of one pane are different views
  have hother : ∀ id ∈ pane.tabIds, pane.directId ≠ some id := by
    intro id hid hdirect
    rw [Pane.viewIds_eq, hdirect, toList_some, nodup_append'] at hviews
    exact hviews.2.2 hid (mem_singleton_self id)
  cases hs : pane.selection with
  | none =>
    have hactive : pane.activeTabId ≠ none ∧ pane.direct = none := h.loose.hidden hs
    obtain ⟨id, hid⟩ := ne_none_iff_exists'.mp hactive.1
    have hin : id ∈ pane.tabIds := h.active.2 id hid
    rw [selectedViewId, hs, focusPane, hid, if_neg (hother id hin), hs, ← hid]
    exact congrArg (fun selection => { pane with selection }) hs.symm
  | some selection =>
    have hshows := h.shows selection hs
    cases selection with
    | tab tabId =>
      obtain ⟨rfl, id, hid, hin⟩ := hshows
      rw [selectedViewId, hs, focusPane, mem_def.mp hid, if_neg (hother id hin), hs, ← mem_def.mp hid]
      exact congrArg (fun selection => { pane with selection }) hs.symm
    | conversation viewId =>
      obtain ⟨view, hview, rfl⟩ := hshows
      have hdirect : pane.directId = some view.id := by
        rw [Pane.directId, mem_def.mp hview]
        rfl
      rw [selectedViewId, hs, focusPane, if_pos hdirect]
      exact congrArg (fun selection => { pane with selection }) hs.symm

theorem focus_arrived {version : Version} {window window' : Window} {pane : Pane} (h : pane.Refined version)
    (hviews : pane.viewIds.Nodup) (hnodup : window.paneIds.Nodup) (hmem : pane ∈ window.panes)
    (hfocus : focus window pane.id (selectedViewId pane) = .ok window') :
    window'.panes = window.panes ∧ window'.centerRoot = window.centerRoot := by
  obtain ⟨found, hfound, hrun⟩ := bind_eq_ok.mp hfocus
  have hfind : findPane window pane.id = some pane := findPane_of_mem hnodup hmem
  rw [expect_eq_ok, hfind] at hfound
  obtain rfl := some.inj hfound
  obtain rfl := ok.inj hrun
  rw [focusPane_selected h hviews]
  exact ⟨put_self_of_find? hfind, rfl⟩

/-! ## Commands of a window -/

def Layout.Issues (layout : Layout) (windowId : Identity) (action : Action) (result : CommandResult) : Prop :=
  ∃ command, command.windowId = windowId ∧ command.action = action ∧ apply layout command = .ok result

theorem apply_emptyWindowIds {layout : Layout} {command : Command} {result : CommandResult} {state state' : State}
    (h : apply layout command = .ok result) (hstate : precheck (migrated layout command.action) command = .ok state)
    (hrun : state.run command.action = .ok state') :
    result.emptyWindowIds =
      if !state.window.panes.isEmpty ∧ state'.window.id ≠ state'.layout.mainWindowId ∧ state'.window.panes = [] then
        state'.retired ++ [state'.window.id]
      else state'.retired := by
  unfold apply at h
  split at h
  · obtain ⟨started, hstarted, hfinished⟩ := bind_eq_ok.mp h
    obtain ⟨ran, hran, hfinished⟩ := bind_eq_ok.mp hfinished
    obtain rfl := ok.inj (hstarted.symm.trans hstate)
    obtain rfl := ok.inj (hran.symm.trans hrun)
    unfold State.conclude at hfinished
    dsimp only at hfinished
    split at hfinished
    · obtain rfl := ok.inj hfinished
      rfl
    · exact absurd hfinished (invalid_ne_ok _ _)
  · simp at h

/-- What a command on a layout that is not migrated goes through. -/
structure Issued (layout : Layout) (windowId : Identity) (action : Action) (result : CommandResult) (state state' : State) :
    Prop where
  owned : layout.Owned
  current : layout.findWindow windowId = some state.window
  initial : state = { layout, window := state.window, focusWindow := none, retired := [] }
  sound : state.Sound
  windows : state.windows = layout.windows
  ran : state.run action = .ok state'
  scope : layout.SameScope state'.layout
  finished : result.layout = state'.finish
  valid : result.layout.Owned
  empties : result.emptyWindowIds =
    if !state.window.panes.isEmpty ∧ state'.window.id ≠ state'.layout.mainWindowId ∧ state'.window.panes = [] then
      state'.retired ++ [state'.window.id]
    else state'.retired

theorem Layout.Issues.issued {layout : Layout} {windowId : Identity} {action : Action} {result : CommandResult}
    (h : layout.Issues windowId action result) (hmigrated : migrated layout action = layout) :
    ∃ state state', Issued layout windowId action result state state' := by
  obtain ⟨command, rfl, rfl, happly⟩ := h
  obtain ⟨-, howned, state, state', hstate, hrun, hlayout, hresult, -, -⟩ := apply_eq_ok happly
  have hempties := apply_emptyWindowIds happly hstate hrun
  obtain ⟨hs, -⟩ := precheck_sound howned hstate
  have hscope := run_sameScope hs hrun
  rw [hmigrated] at hstate
  have hwindows := precheck_windows howned.windowIds hstate
  obtain ⟨-, -, -, window, hfind, -, -, rfl⟩ := precheck_eq_ok hstate
  exact ⟨_, state', howned, hfind, rfl, hs, hwindows, hrun, hscope, hlayout, hresult, hempties⟩

namespace Issued

variable {layout : Layout} {windowId : Identity} {action : Action} {result : CommandResult} {state state' : State}

section

variable (h : Issued layout windowId action result state state')
include h

theorem version : result.layout.version = layout.version := by
  rw [h.finished]
  exact h.scope.version

theorem mainWindowId :
    result.layout.mainWindowId = layout.mainWindowId := by
  rw [h.finished]
  exact h.scope.mainWindowId

theorem transfers :
    result.layout.transfers = state'.layout.transfers := by
  rw [h.finished]
  rfl

theorem findWindow (id : Identity) :
    result.layout.findWindow id = (state'.windows.find? fun w => w.id = id).map (Window.finish layout.version) := by
  have hkey : (fun w : Window => decide (w.id = id)) ∘ Window.finish layout.version = fun w => decide (w.id = id) := by
    funext w
    rw [comp_apply, (finish_fields layout.version w).1]
  rw [h.finished, Layout.findWindow, State.finish]
  dsimp only
  rw [find?_map, h.scope.version, hkey]

theorem findWindow_of_kept {id : Identity} {window : Window}
    (hwindow : layout.findWindow id = some window) (hkept : (state'.windows.find? fun w => w.id = id) = some window) :
    result.layout.findWindow id = some window := by
  rw [h.findWindow, hkept, map_some, (h.owned.windows window (mem_of_find?_eq_some hwindow)).finish_eq]

end

end Issued

/-! ## Preparing and acknowledging -/

/-- The windows of the second layout that the first has too are the same, and so is its scope. -/
structure Layout.Extends (layout layout' : Layout) : Prop where
  version : layout'.version = layout.version
  mainWindowId : layout'.mainWindowId = layout.mainWindowId
  windows : ∀ id window, layout.findWindow id = some window → layout'.findWindow id = some window

theorem Layout.Extends.trans {layout layout' layout'' : Layout} (h : layout.Extends layout')
    (h' : layout'.Extends layout'') : layout.Extends layout'' :=
  ⟨h'.version.trans h.version, h'.mainWindowId.trans h.mainWindowId, fun id w hw => h'.windows id w (h.windows id w hw)⟩

def Layout.findTransfer (layout : Layout) (id : Identity) : Option Transfer := layout.transfers.find? fun t => t.id = id

theorem Issued.kept {layout : Layout} {windowId : Identity} {action : Action} {result : CommandResult} {state state' : State}
    (h : Issued layout windowId action result state state') (hwindows : state'.windows = state.windows) :
    layout.Extends result.layout := by
  refine ⟨h.version, h.mainWindowId, fun id window hwindow => h.findWindow_of_kept hwindow ?_⟩
  rw [hwindows, h.windows]
  exact hwindow

variable {transferId : Identity} {transfer : Transfer}

theorem issues_ready {layout : Layout} {windowId transferId : Identity} {result : CommandResult}
    (h : layout.Issues windowId (.transferReady transferId) result)
    (hpending : layout.findTransfer transferId = some transfer) (hphase : transfer.phase = .preparing) :
    layout.Extends result.layout ∧
      result.layout.findTransfer transferId = some { transfer with phase := .destinationReady } := by
  obtain ⟨state, state', hissued⟩ := h.issued rfl
  have hrun : state.transferReady transferId = .ok state' := hissued.ran
  refine ⟨hissued.kept (State.transferReady_windows hrun), ?_⟩
  obtain ⟨found, hfound, hdone⟩ := bind_eq_ok.mp hrun
  have hlayout : state.layout = layout := by rw [hissued.initial]
  have hfind : state.layout.transfers.find? (fun t => t.id = transferId) = some transfer := by rw [hlayout]; exact hpending
  obtain rfl := some.inj ((orMissing_eq_ok.mp hfound).symm.trans hfind)
  have hid : found.id = transferId := by simpa using find?_some hfind
  split at hdone
  · simp at hdone
  · obtain rfl := ok.inj hdone
    rw [Layout.findTransfer, hissued.transfers]
    have hmem : found.id ∈ state.layout.transfers.map (·.id) := List.mem_map_of_mem (mem_of_find?_eq_some hfind)
    rw [← hid]
    exact find?_put_self { found with phase := Phase.destinationReady } _ hmem

theorem issues_stateReady {layout : Layout} {windowId transferId : Identity} {result : CommandResult}
    (h : layout.Issues windowId (.transferStateReady transferId) result)
    (hpending : layout.findTransfer transferId = some transfer) :
    layout.Extends result.layout ∧ result.layout.findTransfer transferId = some { transfer with phase := .stateReady } := by
  obtain ⟨state, state', hissued⟩ := h.issued rfl
  have hrun : state.transferStateReady transferId = .ok state' := hissued.ran
  refine ⟨hissued.kept (State.transferStateReady_windows hrun), ?_⟩
  obtain ⟨found, hfound, hdone⟩ := bind_eq_ok.mp hrun
  have hlayout : state.layout = layout := by rw [hissued.initial]
  have hfind : state.layout.transfers.find? (fun t => t.id = transferId) = some transfer := by rw [hlayout]; exact hpending
  obtain rfl := some.inj ((orMissing_eq_ok.mp hfound).symm.trans hfind)
  have hid : found.id = transferId := by simpa using find?_some hfind
  split at hdone
  · simp at hdone
  · obtain ⟨-, hdone⟩ := check_eq_ok.mp hdone
    obtain rfl := ok.inj hdone
    rw [Layout.findTransfer, hissued.transfers]
    have hmem : found.id ∈ state.layout.transfers.map (·.id) := List.mem_map_of_mem (mem_of_find?_eq_some hfind)
    rw [← hid]
    exact find?_put_self { found with phase := Phase.stateReady } _ hmem

structure Transfer.Takes (transfer : Transfer) (window : Window) (pane : Pane) (destinationWindowId : Identity)
    (returnSplitId : Option Identity) : Prop where
  source : transfer.sourceWindowId = window.id
  taken : transfer.sourcePaneId = pane.id
  whole : transfer.wholePane = true
  destination : transfer.destinationWindowId = destinationWindowId
  returnSplit : transfer.returnSplitId = returnSplitId
  position : window.panes.findIdx? (fun p => p.id = pane.id) = some transfer.sourcePlacement.panePosition
  region : transfer.sourcePlacement.region = pane.region
  root : transfer.sourcePlacement.centerRoot = window.centerRoot

theorem State.prepared_takes {state : State} {pane : Pane} {selected : List Tab}
    {destinationWindowId destinationPaneId : Identity} {returnSplitId : Option Identity} {generation : Nat}
    (h : state.prepared pane selected transferId none destinationWindowId generation destinationPaneId returnSplitId =
      .ok transfer) :
    transfer.Takes state.window pane destinationWindowId returnSplitId := by
  obtain ⟨first, -, hrun⟩ := bind_eq_ok.mp h
  obtain ⟨tabPosition, -, hrun⟩ := bind_eq_ok.mp hrun
  obtain ⟨sourcePlacement, hplacement, hrun⟩ := bind_eq_ok.mp hrun
  obtain rfl := ok.inj hrun
  obtain ⟨panePosition, hposition, hplacement⟩ := bind_eq_ok.mp hplacement
  obtain rfl := ok.inj hplacement
  exact ⟨rfl, rfl, rfl, rfl, rfl, expect_eq_ok.mp hposition, rfl, rfl⟩

theorem find?_inUse {transfers : List Transfer} {selected : List Tab}
    (hunused : State.inUse transfers transferId selected = false) (hid : transfer.id = transferId) :
    (transfers ++ [transfer]).find? (fun t => t.id = transferId) = some transfer := by
  have hnone : transfers.find? (fun t => t.id = transferId) = none := by
    rw [find?_eq_none]
    intro t ht
    have hne := List.any_eq_false.mp hunused t ht
    simp only [Bool.or_eq_true, decide_eq_true_eq, not_or] at hne
    simpa using hne.1
  rw [find?_append, hnone]
  simp [hid]

theorem issues_prepareDetach {layout : Layout} {windowId transferId paneId destinationWindowId destinationPaneId : Identity}
    {result : CommandResult} {window : Window} {pane : Pane}
    (h : layout.Issues windowId (.prepareDetach transferId paneId none destinationWindowId destinationPaneId) result)
    (hwindow : layout.findWindow windowId = some window) (hpane : findPane window paneId = some pane) :
    layout.Extends result.layout ∧ layout.findWindow destinationWindowId = none ∧ ∃ transfer,
      result.layout.findTransfer transferId = some transfer ∧ transfer.phase = .preparing ∧
      transfer.Takes window pane destinationWindowId none := by
  obtain ⟨state, state', hissued⟩ := h.issued rfl
  have hrun : state.prepareDetach transferId paneId none destinationWindowId destinationPaneId = .ok state' := hissued.ran
  have hcurrent : state.window = window := some.inj (hissued.current.symm.trans hwindow)
  have hwindows := State.prepareDetach_windows hissued.sound hrun
  obtain ⟨found, selected, transfer, hfound, -, hnew, hunused, hprepared, hstate'⟩ := State.prepareDetach_eq_ok hrun
  obtain ⟨hid, -, -, -, -, hphase⟩ := State.prepared_eq_ok hprepared
  have htakes := State.prepared_takes hprepared
  rw [hcurrent] at htakes
  rw [hcurrent, paneById, orMissing_eq_ok, hpane] at hfound
  obtain rfl := some.inj hfound
  rw [hissued.windows] at hnew hwindows
  refine ⟨⟨hissued.version, hissued.mainWindowId, ?_⟩, ?_, transfer, ?_, hphase, htakes⟩
  · intro id w hw
    refine hissued.findWindow_of_kept hw ?_
    rw [hwindows, find?_append]
    exact or_eq_some_iff.mpr (.inl hw)
  · exact find?_eq_none.mpr fun w hw => by simpa using hnew w hw
  · rw [Layout.findTransfer, hissued.transfers, hstate']
    exact find?_inUse hunused hid

theorem issues_prepareReturn {layout : Layout} {windowId transferId paneId splitId : Identity}
    {destinationPaneId : Option Identity} {result : CommandResult} {window : Window} {pane : Pane}
    (h : layout.Issues windowId (.prepareReturn transferId paneId none destinationPaneId splitId) result)
    (hwindow : layout.findWindow windowId = some window) (hpane : findPane window paneId = some pane) :
    layout.Extends result.layout ∧ windowId ≠ layout.mainWindowId ∧ ∃ transfer,
      result.layout.findTransfer transferId = some transfer ∧ transfer.phase = .preparing ∧
      transfer.Takes window pane layout.mainWindowId (some splitId) := by
  obtain ⟨state, state', hissued⟩ := h.issued rfl
  have hrun : state.prepareReturn transferId paneId none destinationPaneId splitId = .ok state' := hissued.ran
  have hcurrent : state.window = window := some.inj (hissued.current.symm.trans hwindow)
  have hextends := hissued.kept (State.prepareReturn_windows hrun)
  have hlayout : state.layout = layout := by rw [hissued.initial]
  have hwindowId : window.id = windowId := by simpa using find?_some hwindow
  obtain ⟨hmain, hrun⟩ := check_eq_ok.mp hrun
  obtain ⟨found, hfound, hrun⟩ := bind_eq_ok.mp hrun
  obtain ⟨selected, -, hrun⟩ := bind_eq_ok.mp hrun
  obtain ⟨-, hrun⟩ := check_eq_ok.mp hrun
  obtain ⟨destination, hdestination, hrun⟩ := bind_eq_ok.mp hrun
  obtain ⟨hunused, hrun⟩ := check_eq_ok.mp hrun
  obtain ⟨transfer, hprepared, hdone⟩ := bind_eq_ok.mp hrun
  obtain ⟨hid, -, -, -, -, hphase⟩ := State.prepared_eq_ok hprepared
  have htakes := State.prepared_takes hprepared
  have hdestinationId : destination.id = layout.mainWindowId := by
    rw [← hlayout]
    simpa using find?_some (orMissing_eq_ok.mp hdestination)
  rw [hcurrent] at htakes
  rw [hcurrent, paneById, orMissing_eq_ok, hpane] at hfound
  obtain rfl := some.inj hfound
  rw [hcurrent, hlayout, hwindowId] at hmain
  refine ⟨hextends, hmain, transfer, ?_, hphase, hdestinationId ▸ htakes⟩
  rw [Layout.findTransfer, hissued.transfers, ← ok.inj hdone]
  exact find?_inUse (by simpa using hunused) hid

def Layout.HandsOver (layout : Layout) (sourceId destinationId : Identity) (prepare : Action) (transferId : Identity)
    (result : CommandResult) : Prop :=
  ∃ prepared ready restored : CommandResult, layout.Issues sourceId prepare prepared ∧
    prepared.layout.Issues destinationId (.transferReady transferId) ready ∧
    ready.layout.Issues destinationId (.transferStateReady transferId) restored ∧
    restored.layout.Issues sourceId (.commitTransfer transferId) result

theorem acknowledged {layout : Layout} {prepared ready restored : CommandResult} {destinationId : Identity}
    (hextends : layout.Extends prepared.layout)
    (hpending : prepared.layout.findTransfer transferId = some transfer) (hphase : transfer.phase = .preparing)
    (hready : prepared.layout.Issues destinationId (.transferReady transferId) ready)
    (hrestored : ready.layout.Issues destinationId (.transferStateReady transferId) restored) :
    layout.Extends restored.layout ∧
      restored.layout.findTransfer transferId = some { transfer with phase := .stateReady } := by
  obtain ⟨hextends₁, hpending₁⟩ := issues_ready hready hpending hphase
  obtain ⟨hextends₂, hpending₂⟩ := issues_stateReady hrestored hpending₁
  exact ⟨hextends.trans (hextends₁.trans hextends₂), hpending₂⟩

structure Carried (layout : Layout) (windowId : Identity) (window : Window) (pane : Pane) (transfer : Transfer)
    (result : CommandResult) (destination destination' : Window) : Prop where
  owned : layout.Owned
  valid : result.layout.Owned
  version : result.layout.version = layout.version
  mainWindowId : result.layout.mainWindowId = layout.mainWindowId
  target : layout.findWindow transfer.destinationWindowId = some destination
  arrival : State.Arrival transfer (State.originalPlacement window transfer destination pane) pane destination destination'
  left : result.layout.findWindow windowId = some ((removePane window pane).finish layout.version)
  arrived : result.layout.findWindow transfer.destinationWindowId = some (destination'.finish layout.version)
  empties : result.emptyWindowIds =
    if windowId ≠ layout.mainWindowId ∧ (removePane window pane).panes = [] then [windowId] else []

theorem issues_commit {layout : Layout} {windowId transferId destinationWindowId : Identity} {result : CommandResult}
    {window window₀ : Window} {pane pane₀ : Pane} {returnSplitId : Option Identity}
    (h : layout.Issues windowId (.commitTransfer transferId) result) (hwindow : layout.findWindow windowId = some window)
    (hpane : findPane window pane₀.id = some pane) (hcenter : pane.region = .center)
    (hpending : layout.findTransfer transferId = some transfer)
    (htakes : transfer.Takes window₀ pane₀ destinationWindowId returnSplitId) :
    ∃ destination destination', Carried layout windowId window pane transfer result destination destination' := by
  obtain ⟨state, state', hissued⟩ := h.issued rfl
  obtain ⟨found, source, moved, destination, window', destination', selected, hcommits⟩ := State.commits_of_ok hissued.ran
  have hstores := hcommits.stores hissued.sound
  obtain rfl : state.window = window := some.inj (hissued.current.symm.trans hwindow)
  have hwindowId : state.window.id = windowId := by simpa using find?_some hwindow
  have hlayout : state.layout = layout := by rw [hissued.initial]
  obtain rfl : found = transfer := by
    have hfound := orMissing_eq_ok.mp hcommits.found
    rw [hlayout] at hfound
    exact some.inj (hfound.symm.trans hpending)
  obtain rfl : source = pane := by
    have hsource := hcommits.pane
    rw [htakes.taken, paneById, orMissing_eq_ok] at hsource
    exact some.inj (hsource.symm.trans hpane)
  have htarget := hcommits.target
  have hdestinationId : destination.id = found.destinationWindowId := by simpa using find?_some htarget
  -- the pane as it moves: a center pane already
  have htaken := hcommits.taken
  unfold State.takeMoved at htaken
  rw [if_pos htakes.whole] at htaken
  obtain ⟨rfl, hmoved⟩ := Prod.mk.inj (ok.inj htaken)
  obtain rfl : source = moved := by
    rw [← hmoved, ← hcenter]
  have harrival := hcommits.arrival
  have hfindCurrent : (state'.windows.find? fun w => w.id = windowId) = some (removePane state.window source) := by
    have hne : destination'.id ≠ windowId := by
      rw [hstores.destination, ← hwindowId]
      exact hstores.other
    have hmem : (removePane state.window source).id ∈ state.windows.map (·.id) := by
      rw [hstores.source.id]
      exact List.mem_map_of_mem (mem_of_find?_eq_some hissued.sound.mem_current)
    rw [hstores.windows, find?_put_of_ne _ _ hne, ← hwindowId, ← hstores.source.id]
    exact find?_put_self _ _ hmem
  have hfindDestination : (state'.windows.find? fun w => w.id = found.destinationWindowId) = some destination' := by
    have hmem : destination'.id ∈ (putKey (·.id) (removePane state.window source) state.windows).map (·.id) := by
      rw [map_key_put, hstores.destination]
      exact List.mem_map_of_mem (mem_of_find?_eq_some htarget)
    rw [hstores.windows, ← hdestinationId, ← hstores.destination]
    exact find?_put_self _ _ hmem
  refine ⟨destination, destination', hissued.owned, hissued.valid, hissued.version, hissued.mainWindowId, ?_, harrival,
    ?_, ?_, ?_⟩
  · rw [hissued.windows] at htarget
    exact htarget
  · rw [hissued.findWindow, hfindCurrent, map_some]
  · rw [hissued.findWindow, hfindDestination, map_some]
  · have hstate' := hcommits.result
    have hother : destination'.id ≠ (removePane state.window source).id := by
      rw [hstores.destination, hstores.source.id]
      exact hstores.other
    have hwindow' : state'.window = removePane state.window source := by
      rw [hstate', State.storeWindow]
      dsimp only
      rw [if_neg hother]
      rfl
    have hretired : state'.retired = [] := by
      rw [hstate', State.storeWindow]
      dsimp only
      rw [if_neg hother]
      exact congrArg State.retired hissued.initial
    have hpanes : (!state.window.panes.isEmpty) = true := by
      have hmem := (mem_of_findPane hpane).1
      cases hl : state.window.panes with
      | nil => simp [hl] at hmem
      | cons p ps => rfl
    rw [hissued.empties, hwindow', hretired, hstores.source.id, hwindowId, hissued.scope.mainWindowId, hpanes]
    simp

/-! ## Away and back -/

def Layout.mainPlan (layout : Layout) : Option (List Pane × Option Node) :=
  (layout.findWindow layout.mainWindowId).map fun w => (w.panes.map normalizePane, w.centerRoot)

def Layout.paneAt (layout : Layout) (windowId paneId : Identity) : Option Pane :=
  (layout.findWindow windowId).bind fun w => (findPane w paneId).map normalizePane

inductive Spared (windowId paneId : Identity) (initial : Layout) : Layout → Prop
  | start : Spared windowId paneId initial initial
  | step {layout : Layout} {command : Command} {result : CommandResult} (hspared : Spared windowId paneId initial layout)
    (happly : apply layout command = .ok result) (hmain : result.layout.mainPlan = layout.mainPlan)
    (hpane : result.layout.paneAt windowId paneId = layout.paneAt windowId paneId) :
    Spared windowId paneId initial result.layout

structure Layout.Holding (layout : Layout) (windowId : Identity) (pane : Pane) (origin : ReturnPlacement) : Prop where
  pane : layout.paneAt windowId pane.id = some (normalizePane pane)
  origin : ∃ window, layout.findWindow windowId = some window ∧ window.returnPlacement = some origin

theorem Spared.keeps {windowId : Identity} {initial layout : Layout} {pane : Pane} {origin : ReturnPlacement}
    (h : Spared windowId pane.id initial layout) (hholding : initial.Holding windowId pane origin) :
    layout.mainWindowId = initial.mainWindowId ∧ layout.mainPlan = initial.mainPlan ∧
      layout.Holding windowId pane origin := by
  induction h with
  | start => exact ⟨rfl, rfl, hholding⟩
  | @step layout command result hspared happly hmain hpane ih =>
    obtain ⟨hid, hplan, hheld⟩ := ih
    have hmainId : result.layout.mainWindowId = layout.mainWindowId := by
      obtain ⟨-, howned, state, state', hstate, hrun, hlayout, -, -, -⟩ := apply_eq_ok happly
      obtain ⟨hs, -⟩ := precheck_sound howned hstate
      obtain ⟨-, -, -, window, -, -, -, rfl⟩ := precheck_eq_ok hstate
      rw [hlayout]
      refine (run_sameScope hs hrun).mainWindowId.trans ?_
      rcases migrated_cases layout command.action with he | he
      · rw [he]
      · rw [he]
    refine ⟨hmainId.trans hid, hmain.trans hplan, hpane.trans hheld.pane, ?_⟩
    -- the window has the pane before and after the command, so it keeps its placement
    obtain ⟨window, hwindow, horigin⟩ := hheld.origin
    obtain ⟨window', hwindow', -⟩ := bind_eq_some_iff.mp (hpane.trans hheld.pane)
    have hpanes : window.panes ≠ [] := by
      intro hempty
      have hfound := hheld.pane
      rw [Layout.paneAt, hwindow, bind_some, findPane, hempty] at hfound
      simp at hfound
    exact ⟨window', hwindow', (apply_origin happly hwindow hpanes hwindow').trans horigin⟩

structure ReturnPlacement.Remembers (origin : ReturnPlacement) (main : Window) (pane : Pane) : Prop where
  detached : origin.detachedPaneId = some pane.id
  source : origin.sourceWindowId = main.id
  whole : origin.wholePane = true
  position : main.panes.findIdx? (fun p => p.id = pane.id) = some origin.sourcePlacement.panePosition
  region : origin.sourcePlacement.region = pane.region
  root : origin.sourcePlacement.centerRoot = main.centerRoot

theorem detached_holding {layout : Layout} {main : Window} {pane : Pane} {windowId transferId destinationPaneId : Identity}
    {detached : CommandResult} (hmain : layout.findWindow layout.mainWindowId = some main) (hpane : pane ∈ main.panes)
    (hcenter : pane.region = .center)
    (h : layout.HandsOver layout.mainWindowId windowId (.prepareDetach transferId pane.id none windowId destinationPaneId)
      transferId detached) :
    detached.layout.version = layout.version ∧ detached.layout.mainWindowId = layout.mainWindowId ∧
    detached.layout.mainPlan = some ((main.panes.filter fun p => p.id ≠ pane.id).map normalizePane,
      main.centerRoot.bind (Node.removeLeaf pane.id)) ∧
    ∃ origin, origin.Remembers main pane ∧ detached.layout.Holding windowId pane origin := by
  obtain ⟨prepared, ready, restored, hprepare, hready, hrestored, hcommit⟩ := h
  have howned : layout.Owned := by
    obtain ⟨state, state', hissued⟩ := hprepare.issued rfl
    exact hissued.owned
  have hmainMem := mem_of_find?_eq_some hmain
  have hmainId : main.id = layout.mainWindowId := by simpa using find?_some hmain
  have hrefined := (howned.windows main hmainMem).panes pane hpane
  obtain ⟨hfind, hviews⟩ := (howned.distinct hmainMem).pane hpane
  obtain ⟨hextends, -, transfer, hpending, hphase, htakes⟩ := issues_prepareDetach hprepare hmain hfind
  obtain ⟨hextends', hpending'⟩ := acknowledged hextends hpending hphase hready hrestored
  have htakes' : Transfer.Takes { transfer with phase := .stateReady } main pane windowId none :=
    ⟨htakes.source, htakes.taken, htakes.whole, htakes.destination, htakes.returnSplit, htakes.position, htakes.region,
      htakes.root⟩
  obtain ⟨destination, destination', hcarried⟩ :=
    issues_commit hcommit (hextends'.windows _ _ hmain) hfind hcenter hpending' htakes'
  have hleft := hcarried.left
  have harrived := hcarried.arrived
  rw [htakes'.destination] at harrived
  refine ⟨hcarried.version.trans hextends'.version, hcarried.mainWindowId.trans hextends'.mainWindowId, ?_, ?_⟩
  · rw [Layout.mainPlan, hcarried.mainWindowId, hextends'.mainWindowId, hleft, map_some, panes_finish,
      (finish_fields _ _).2.2.1, panes_removePane, centerRoot_removePane, List.map_map]
    simp only [comp_def, normalizePane_settlePane]
  · cases hcarried.arrival with
    | rejoined hsplit _ _ _ => exact absurd htakes.returnSplit hsplit
    | readmitted hsplit _ _ => exact absurd (htakes.returnSplit.symm.trans hsplit) (by simp)
    | arrived _ harrive =>
      have horigin := (Window.SameOrigin.focus harrive).returnPlacement
      obtain ⟨hpanes, -⟩ := focus_arrived hrefined hviews (by simp [Window.paneIds]) (by simp) harrive
      refine ⟨_, ⟨rfl, htakes.source, htakes.whole, htakes.position, htakes.region, htakes.root⟩, ?_, _, harrived,
        (returnPlacement_finish _ _).trans horigin⟩
      rw [Layout.paneAt, harrived, bind_some, findPane, panes_finish, hpanes]
      simp [normalizePane_settlePane]

/-! ### The return -/

theorem readmit_remembered {version : Version} {origin : ReturnPlacement} {destination destination' : Window}
    {moved : Pane} {splitId : Identity} {root : Node} (hrefined : moved.Refined version) (hviews : moved.viewIds.Nodup)
    (hcenter : moved.region = .center) (hwhole : origin.wholePane = true) (hregion : origin.sourcePlacement.region = .center)
    (hroot : origin.sourcePlacement.centerRoot = some root) (hleft : destination.centerRoot = root.removeLeaf moved.id)
    (hnodup : destination.paneIds.Nodup) (hnew : moved.id ∉ destination.paneIds)
    (h : State.readmit (some origin) moved destination splitId = .ok destination') :
    destination'.panes =
        destination.panes.insertIdx (min origin.sourcePlacement.panePosition destination.panes.length) moved ∧
      destination'.centerRoot = some root := by
  have htree : State.returnRoot (some origin) destination splitId moved.id = root := by
    unfold State.returnRoot
    simp [Option.filter, hwhole, hroot, hleft]
  have hmoved : { moved with region := Region.center } = moved := by rw [← hcenter]
  unfold State.readmit at h
  dsimp only at h
  generalize hback : (if moved.direct ≠ none then Region.center
    else ((some origin).map (·.sourcePlacement.region)).getD .center) = region at h
  obtain rfl : region = .center := by
    rw [← hback, map_some, getD_some, hregion, ite_self]
  rw [if_pos rfl, hmoved, htree, map_some, getD_some] at h
  have hperm := perm_insertIdx moved destination.panes
    (Nat.min_le_right origin.sourcePlacement.panePosition destination.panes.length)
  refine focus_arrived hrefined hviews ?_ ?_ h
  · rw [Window.paneIds, (hperm.map _).nodup_iff, map_cons, nodup_cons]
    exact ⟨hnew, hnodup⟩
  · exact hperm.mem_iff.mpr mem_cons_self

theorem insertIdx_append_length {α : Type} (pre post : List α) (a : α) :
    (pre ++ post).insertIdx pre.length a = pre ++ a :: post := by
  induction pre with
  | nil => simp
  | cons b pre ih => simp [ih]

theorem Layout.Holding.window {layout : Layout} {windowId : Identity} {pane : Pane} {origin : ReturnPlacement}
    (h : layout.Holding windowId pane origin) :
    ∃ window held, layout.findWindow windowId = some window ∧ window.returnPlacement = some origin ∧
      findPane window pane.id = some held ∧ normalizePane held = normalizePane pane := by
  obtain ⟨window, hwindow, horigin⟩ := h.origin
  have hpane := h.pane
  rw [Layout.paneAt, hwindow, bind_some] at hpane
  obtain ⟨held, hheld, hsame⟩ := map_eq_some_iff.mp hpane
  exact ⟨window, held, hwindow, horigin, hheld, hsame⟩

theorem same_of_normalize {p q : Pane} (h : normalizePane p = normalizePane q) :
    p.id = q.id ∧ p.region = q.region ∧ p.tabs = q.tabs ∧ selectedViewId p = selectedViewId q := by
  have hfield : ∀ {α : Type} (f : Pane → α), f (normalizePane p) = f (normalizePane q) := fun f => congrArg f h
  refine ⟨hfield Pane.id, hfield Pane.region, hfield Pane.tabs, ?_⟩
  rw [← selectedViewId_normalizePane p, h, selectedViewId_normalizePane]

theorem returned_plan {away : Layout} {main : Window} {pane : Pane} {origin : ReturnPlacement}
    {windowId transferId splitId : Identity} {destinationPaneId : Option Identity} {returned : CommandResult}
    (hpane : pane ∈ main.panes) (hnodup : main.paneIds.Nodup) (hcenter : pane.region = .center)
    (hleaf : pane.id ∈ main.leaves) (hremembers : origin.Remembers main pane) (hmainId : main.id = away.mainWindowId)
    (hholding : away.Holding windowId pane origin)
    (hplan : away.mainPlan = some ((main.panes.filter fun p => p.id ≠ pane.id).map normalizePane,
      main.centerRoot.bind (Node.removeLeaf pane.id)))
    (h : away.HandsOver windowId away.mainWindowId (.prepareReturn transferId pane.id none destinationPaneId splitId)
      transferId returned) :
    returned.layout.Owned ∧ ∃ back source left, returned.layout.findWindow away.mainWindowId = some back ∧
      back.panes.map normalizePane = main.panes.map normalizePane ∧ back.centerRoot = main.centerRoot ∧
      away.findWindow windowId = some source ∧ returned.layout.findWindow windowId = some left ∧
      left.panes = source.panes.filter (fun p => p.id ≠ pane.id) ∧
      returned.emptyWindowIds = if left.panes = [] then [windowId] else [] := by
  obtain ⟨prepared, ready, restored, hprepare, hready, hrestored, hcommit⟩ := h
  obtain ⟨source, held, hsource, horigin, hheld, hsame⟩ := hholding.window
  obtain ⟨hid, hregion, -, -⟩ := same_of_normalize hsame
  obtain ⟨hextends, hnotMain, transfer, hpending, hphase, htakes⟩ := issues_prepareReturn hprepare hsource hheld
  obtain ⟨hextends', hpending'⟩ := acknowledged hextends hpending hphase hready hrestored
  have htakes' : Transfer.Takes { transfer with phase := .stateReady } source held away.mainWindowId (some splitId) :=
    ⟨htakes.source, htakes.taken, htakes.whole, htakes.destination, htakes.returnSplit, htakes.position, htakes.region,
      htakes.root⟩
  obtain ⟨destination, destination', hcarried⟩ :=
    issues_commit hcommit (hextends'.windows _ _ hsource) (by rw [hid]; exact hheld) (hregion.trans hcenter) hpending'
      htakes'
  -- the main window as the commit finds it
  obtain ⟨m, hm, hform⟩ := map_eq_some_iff.mp hplan
  obtain ⟨hpanes, hroot⟩ := Prod.mk.inj hform
  obtain rfl : m = destination := by
    have htarget := hcarried.target
    rw [htakes'.destination] at htarget
    exact some.inj ((hextends'.windows _ _ hm).symm.trans htarget)
  have hmId : m.id = main.id := by
    rw [hmainId]
    simpa using find?_some hm
  have hids : m.paneIds = (main.panes.filter fun p => p.id ≠ pane.id).map (·.id) := by
    have hmap := congrArg (List.map (·.id)) hpanes
    rw [List.map_map, List.map_map] at hmap
    exact hmap
  obtain ⟨root, hmainRoot⟩ : ∃ root, main.centerRoot = some root := by
    cases hr : main.centerRoot with
    | none => simp [Window.leaves, hr] at hleaf
    | some root => exact ⟨root, rfl⟩
  have hmem := mem_of_find?_eq_some (hextends'.windows _ _ hsource)
  have hmMem := mem_of_find?_eq_some (hextends'.windows _ _ hm)
  have hrefined := (hcarried.owned.windows source hmem).panes held (mem_of_findPane hheld).1
  have hviews := ((hcarried.owned.distinct hmem).pane (mem_of_findPane hheld).1).2
  have horiginal : State.originalPlacement source { transfer with phase := .stateReady } m held = some origin := by
    have hreturning : Transfer.returning { transfer with phase := .stateReady } = true := by
      rw [Transfer.returning, htakes'.returnSplit]
      rfl
    rw [State.originalPlacement, horigin, filter_some, if_pos]
    simp [hreturning, hremembers.source, hremembers.detached, hmId, hid]
  have harrival := hcarried.arrival
  rw [horiginal] at harrival
  obtain ⟨hback, hbackRoot⟩ : destination'.panes =
        m.panes.insertIdx (min origin.sourcePlacement.panePosition m.panes.length) held ∧
      destination'.centerRoot = some root := by
    cases harrival with
    | arrived hsplit _ => exact absurd (htakes'.returnSplit.symm.trans hsplit) (by simp)
    | rejoined _ ho hfits _ =>
      obtain rfl := some.inj ho
      rw [State.originalPane, if_neg (by simp [hremembers.whole])] at hfits
      simp at hfits
    | readmitted _ _ hreadmit =>
      refine readmit_remembered hrefined hviews (hregion.trans hcenter) hremembers.whole (hremembers.region.trans hcenter)
        (hremembers.root.trans hmainRoot) ?_ ?_ ?_ hreadmit
      · rw [hroot, hmainRoot, bind_some, hid]
      · exact (hcarried.owned.distinct hmMem).paneIds
      · rw [hids, hid]
        simp
  have hleftPanes : ((removePane source held).finish restored.layout.version).panes =
      source.panes.filter fun p => p.id ≠ pane.id := by
    rw [panes_finish, panes_removePane, hid]
    refine (map_congr_left fun p hp => ?_).trans (List.map_id _)
    exact ((hcarried.owned.windows source hmem).panes p (mem_of_mem_filter hp)).settle_eq
  have harrived := hcarried.arrived
  rw [htakes'.destination] at harrived
  refine ⟨hcarried.valid, destination'.finish restored.layout.version, source,
    (removePane source held).finish restored.layout.version, harrived, ?_, ?_, hsource, hcarried.left, ?_, ?_⟩
  · obtain ⟨pre, post, hmainPanes, -, hpre⟩ := exists_append_of_find? (find?_eq_of_mem hnodup hpane)
    have hwithout := filter_key_ne pane.id pane pre post (by rw [← hmainPanes]; exact hnodup) rfl
    have hplace : origin.sourcePlacement.panePosition = pre.length := by
      have hposition := hremembers.position
      rw [hmainPanes, findIdx?_key_append_cons pane.id pane pre post hpre rfl] at hposition
      exact (some.inj hposition).symm
    rw [hmainPanes, hwithout] at hpanes
    have hlength : m.panes.length = pre.length + post.length := by
      have hmap := congrArg length hpanes
      rwa [length_map, length_map, length_append] at hmap
    have hmin : min pre.length m.panes.length = (pre.map normalizePane).length := by
      rw [hlength, length_map]
      omega
    rw [panes_finish, List.map_map]
    simp only [comp_def, normalizePane_settlePane]
    rw [hback, map_insertIdx, hpanes, hplace, hmin, map_append, insertIdx_append_length, hsame, hmainPanes,
      map_append, map_cons]
  · rw [(finish_fields _ _).2.2.1, hbackRoot, hmainRoot]
  · exact hleftPanes
  · have hmainId' : windowId ≠ restored.layout.mainWindowId := by
      rw [hextends'.mainWindowId]
      exact hnotMain
    rw [hcarried.empties, hleftPanes, panes_removePane, hid]
    simp only [ne_eq, hmainId', not_false_eq_true, true_and]

theorem eq_of_normalize {version : Version} {ps qs : List Pane} (hp : ∀ p ∈ ps, p.Refined version)
    (hq : ∀ q ∈ qs, q.Refined version) (h : ps.map normalizePane = qs.map normalizePane) : ps = qs := by
  induction ps generalizing qs with
  | nil => exact (map_eq_nil_iff.mp h.symm).symm
  | cons p ps ih =>
    obtain ⟨q, rest, rfl, hhead, htail⟩ := map_eq_cons_iff.mp h.symm
    rw [(hp p (by simp)).normalize_inj (hq q (by simp)) hhead.symm,
      ih (fun x hx => hp x (by simp [hx])) (fun x hx => hq x (by simp [hx])) htail.symm]

/-- Where every command is accepted, a center pane that is detached whole and returned leaves the main window as
it was; the window it was in keeps its other panes, and is reported as empty where it has none. -/
theorem detach_then_return {layout away : Layout} {main : Window} {pane : Pane}
    {windowId detachId returnId destinationPaneId splitId : Identity} {returnPaneId : Option Identity}
    {detached returned : CommandResult} (hmain : layout.findWindow layout.mainWindowId = some main)
    (hpane : pane ∈ main.panes) (hcenter : pane.region = .center)
    (hdetach : layout.HandsOver layout.mainWindowId windowId
      (.prepareDetach detachId pane.id none windowId destinationPaneId) detachId detached)
    (hspared : Spared windowId pane.id detached.layout away)
    (hreturn : away.HandsOver windowId layout.mainWindowId
      (.prepareReturn returnId pane.id none returnPaneId splitId) returnId returned) :
    ∃ back source left : Window, returned.layout.findWindow layout.mainWindowId = some back ∧
      back.centerRoot = main.centerRoot ∧ back.panes.map normalizePane = main.panes.map normalizePane ∧
      (returned.layout.version = layout.version → back.panes = main.panes) ∧
      (∀ index : Nat, main.panes[index]? = some pane → ∃ p, back.panes[index]? = some p ∧ p.id = pane.id ∧
        p.region = .center ∧ p.tabs = pane.tabs ∧ selectedViewId p = selectedViewId pane) ∧
      away.findWindow windowId = some source ∧ returned.layout.findWindow windowId = some left ∧
      left.panes = source.panes.filter (fun p => p.id ≠ pane.id) ∧
      returned.emptyWindowIds = if left.panes = [] then [windowId] else [] := by
  have howned : layout.Owned := by
    obtain ⟨prepared, ready, restored, hprepare, -⟩ := hdetach
    obtain ⟨state, state', hissued⟩ := hprepare.issued rfl
    exact hissued.owned
  have hmem := mem_of_find?_eq_some hmain
  have hmainId : main.id = layout.mainWindowId := by simpa using find?_some hmain
  have hrefined := howned.windows main hmem
  have hleaf : pane.id ∈ main.leaves :=
    hrefined.centers _ (List.mem_map_of_mem (mem_filter.mpr ⟨hpane, by simpa using hcenter⟩))
  obtain ⟨-, hdetachedMain, hplan, origin, hremembers, hholding⟩ := detached_holding hmain hpane hcenter hdetach
  obtain ⟨hawayMain, hawayPlan, hawayHolding⟩ := hspared.keeps hholding
  have hsameMain : away.mainWindowId = layout.mainWindowId := hawayMain.trans hdetachedMain
  rw [← hsameMain] at hreturn hmainId ⊢
  obtain ⟨hvalid, back, source, left, hback, hform, hroot, hsource, hleft, hpanes, hempties⟩ :=
    returned_plan hpane (howned.distinct hmem).paneIds hcenter hleaf hremembers hmainId hawayHolding
      (hawayPlan.trans hplan) hreturn
  refine ⟨back, source, left, hback, hroot, hform, ?_, ?_, hsource, hleft, hpanes, hempties⟩
  · intro hversion
    have hbackRefined := hvalid.windows back (mem_of_find?_eq_some hback)
    rw [hversion] at hbackRefined
    exact eq_of_normalize hbackRefined.panes hrefined.panes hform
  · intro index hindex
    have hat : (back.panes.map normalizePane)[index]? = (main.panes.map normalizePane)[index]? := by rw [hform]
    rw [getElem?_map, getElem?_map, hindex, map_some] at hat
    obtain ⟨p, hp, hsame⟩ := map_eq_some_iff.mp hat
    obtain ⟨hid, hregion, htabs, hselected⟩ := same_of_normalize hsame
    exact ⟨p, hp, hid, hregion.trans hcenter, htabs, hselected⟩

/-! ### A pane away from a window of two -/

def terminal (id : UInt16) : Tab :=
  { id := named id, resource := .entity .terminal (named id), preview := false, fileMode := none, fileViewer := none,
    titleProtection := none, builtInState := none, dockPresentation := none }

/-- Two panes of a terminal each under the split `50`. -/
def pairWindow : Window :=
  { id := named 5, attachmentGeneration := 0, rendererId := none,
    panes := [newPane (named 3) .center (terminal 1), newPane (named 4) .center (terminal 2)],
    centerRoot := some (.split (named 50) .vertical half (.pane (named 3)) (.pane (named 4))),
    focusedPaneId := some (named 4), recentPaneIds := [named 4], recentTabIds := none, returnPlacement := none }

def pairLayout : Layout :=
  { version := .v1, id := named 6, projectId := named 7, revision := 0, mainWindowId := named 5, windows := [pairWindow],
    pendingTransfers := none, legacyFileImports := none, legacyCodeImports := none }

/-- The pane `4` is to go to the window `31`. -/
def detaching : List Command :=
  [windowCommand 5 0 (.prepareDetach (named 30) (named 4) none (named 31) (named 4)),
   windowCommand 31 1 (.transferReady (named 30)), windowCommand 31 2 (.transferStateReady (named 30))]

def detached : Command := windowCommand 5 3 (.commitTransfer (named 30))

/-- The pane `4` is to go back, from the given revision on. -/
def returning (revision : Nat) : List Command :=
  [windowCommand 31 revision (.prepareReturn (named 35) (named 4) none none (named 36)),
   windowCommand 5 (revision + 1) (.transferReady (named 35)),
   windowCommand 5 (revision + 2) (.transferStateReady (named 35))]

def returned (revision : Nat) : Command := windowCommand 31 (revision + 3) (.commitTransfer (named 35))

/-- A terminal in a new center pane of the window `31`. -/
def opening (revision : Nat) (id splitId : UInt16) : Command :=
  windowCommand 31 revision (.open (terminal id) none (.newPane (named (id + 1)) .center (named splitId)))

theorem any_toOption {ε α : Type} {x : Except ε α} {p : α → Bool} : x.toOption.any p = true ↔ ∃ a, x = .ok a ∧ p a = true := by
  cases x with
  | error e => simp [Except.toOption]
  | ok a => simp [Except.toOption]

/-- The main window and the pane `4` are the same in both layouts. -/
def spares (layout layout' : Layout) : Bool :=
  layout'.mainPlan = layout.mainPlan ∧ layout'.paneAt (named 31) (named 4) = layout.paneAt (named 31) (named 4)

theorem handsOver_of_applied {layout layout' : Layout} {source destination : UInt16} {revision : Nat} {prepare : Action}
    {transferId : Identity} {result : CommandResult}
    (h : applyAll layout [windowCommand source revision prepare, windowCommand destination (revision + 1) (.transferReady transferId),
      windowCommand destination (revision + 2) (.transferStateReady transferId)] = .ok layout')
    (hcommit : apply layout' (windowCommand source (revision + 3) (.commitTransfer transferId)) = .ok result) :
    layout.HandsOver (named source) (named destination) prepare transferId result := by
  obtain ⟨prepared, hprepared, h⟩ := bind_eq_ok.mp h
  obtain ⟨ready, hready, h⟩ := bind_eq_ok.mp h
  obtain ⟨restored, hrestored, h⟩ := bind_eq_ok.mp h
  obtain rfl := ok.inj h
  exact ⟨prepared, ready, restored, ⟨_, rfl, rfl, hprepared⟩, ⟨_, rfl, rfl, hready⟩, ⟨_, rfl, rfl, hrestored⟩,
    ⟨_, rfl, rfl, hcommit⟩⟩

theorem handsOver_detached {layout : Layout} {result : CommandResult} (h : applyAll pairLayout detaching = .ok layout)
    (hcommit : apply layout detached = .ok result) :
    pairLayout.HandsOver (named 5) (named 31) (.prepareDetach (named 30) (named 4) none (named 31) (named 4)) (named 30)
      result :=
  handsOver_of_applied h hcommit

theorem handsOver_returned {away layout : Layout} {result : CommandResult} {revision : Nat}
    (h : applyAll away (returning revision) = .ok layout) (hcommit : apply layout (returned revision) = .ok result) :
    away.HandsOver (named 31) (named 5) (.prepareReturn (named 35) (named 4) none none (named 36)) (named 35) result :=
  handsOver_of_applied h hcommit

theorem spared_step {layout : Layout} {command : Command} {gone result : CommandResult}
    (hspared : Spared (named 31) (named 4) gone.layout layout) (happly : apply layout command = .ok result)
    (h : spares layout result.layout = true) : Spared (named 31) (named 4) gone.layout result.layout := by
  obtain ⟨hmain, hpane⟩ := of_decide_eq_true h
  exact hspared.step happly hmain hpane

/-- The pane comes back while its window shows its home: the same panes, the same tree and an empty window. -/
theorem detach_then_return_home : ∃ gone away back : CommandResult,
    pairLayout.HandsOver (named 5) (named 31) (.prepareDetach (named 30) (named 4) none (named 31) (named 4)) (named 30)
      gone ∧
    Spared (named 31) (named 4) gone.layout away.layout ∧
    away.layout.HandsOver (named 31) (named 5) (.prepareReturn (named 35) (named 4) none none (named 36)) (named 35) back ∧
    ∃ main, back.layout.findWindow (named 5) = some main ∧ main.centerRoot = pairWindow.centerRoot ∧
      main.panes = pairWindow.panes ∧ back.emptyWindowIds = [named 31] := by
  have hdone : ((applyAll pairLayout detaching).toOption.any fun ready => (apply ready detached).toOption.any fun gone =>
      (apply gone.layout (windowCommand 31 4 .home)).toOption.any fun away => spares gone.layout away.layout &&
      (applyAll away.layout (returning 5)).toOption.any fun ready => (apply ready (returned 5)).toOption.any fun back =>
        decide (back.layout.version = .v1 ∧ back.emptyWindowIds = [named 31])) = true := by decide
  simp only [any_toOption, Bool.and_eq_true, decide_eq_true_eq] at hdone
  obtain ⟨detachReady, hdetaching, gone, hdetached, away, haway, hspares, returnReady, hreturning, back, hreturned, hversion,
    hempty⟩ := hdone
  have hdetach := handsOver_detached hdetaching hdetached
  have hspared := spared_step .start haway hspares
  have hreturn := handsOver_returned hreturning hreturned
  have hpane : newPane (named 4) .center (terminal 2) ∈ pairWindow.panes := by decide
  have hmain : pairLayout.findWindow pairLayout.mainWindowId = some pairWindow := rfl
  obtain ⟨main, -, -, hback, hroot, -, hpanes, -⟩ := detach_then_return hmain hpane rfl hdetach hspared hreturn
  exact ⟨gone, away, back, hdetach, hspared, hreturn, main, hback, hroot, hpanes hversion, hempty⟩

/-- A terminal opened beside the pane leaves its window with a pane; and where the terminals are split under the
identity of the split that the detachment removed, the return is refused. -/
theorem return_beside_terminals : (∃ gone away back : CommandResult,
      pairLayout.HandsOver (named 5) (named 31) (.prepareDetach (named 30) (named 4) none (named 31) (named 4)) (named 30)
        gone ∧
      Spared (named 31) (named 4) gone.layout away.layout ∧
      away.layout.HandsOver (named 31) (named 5) (.prepareReturn (named 35) (named 4) none none (named 36)) (named 35) back ∧
      back.emptyWindowIds = [] ∧ ∃ left ∈ back.layout.windows, left.id = named 31 ∧ left.panes ≠ []) ∧
    ∃ (gone away : CommandResult) (ready : Layout),
      pairLayout.HandsOver (named 5) (named 31) (.prepareDetach (named 30) (named 4) none (named 31) (named 4)) (named 30)
        gone ∧
      Spared (named 31) (named 4) gone.layout away.layout ∧ applyAll away.layout (returning 6) = .ok ready ∧
      ∀ back, apply ready (returned 6) ≠ .ok back := by
  constructor
  · have hdone : ((applyAll pairLayout detaching).toOption.any fun ready => (apply ready detached).toOption.any fun gone =>
        (apply gone.layout (opening 4 40 51)).toOption.any fun away => spares gone.layout away.layout &&
        (applyAll away.layout (returning 5)).toOption.any fun ready => (apply ready (returned 5)).toOption.any fun back =>
          decide (back.emptyWindowIds = [] ∧ ∃ left ∈ back.layout.windows, left.id = named 31 ∧ left.panes ≠ [])) =
        true := by decide
    simp only [any_toOption, Bool.and_eq_true, decide_eq_true_eq] at hdone
    obtain ⟨detachReady, hdetaching, gone, hdetached, away, haway, hspares, returnReady, hreturning, back, hreturned,
      hleft⟩ := hdone
    exact ⟨gone, away, back, handsOver_detached hdetaching hdetached, spared_step .start haway hspares,
      handsOver_returned hreturning hreturned, hleft⟩
  · have hdone : ((applyAll pairLayout detaching).toOption.any fun ready => (apply ready detached).toOption.any fun gone =>
        (apply gone.layout (opening 4 40 51)).toOption.any fun first => spares gone.layout first.layout &&
        (apply first.layout (opening 5 42 50)).toOption.any fun away => spares first.layout away.layout &&
        (applyAll away.layout (returning 6)).toOption.any fun ready => (apply ready (returned 6)).toOption.isNone) =
        true := by decide
    simp only [any_toOption, Bool.and_eq_true] at hdone
    obtain ⟨detachReady, hdetaching, gone, hdetached, first, hfirst, hspares, away, haway, hspares', returnReady, hreturning,
      hrefused⟩ := hdone
    refine ⟨gone, away, returnReady, handsOver_detached hdetaching hdetached,
      spared_step (spared_step .start hfirst hspares) haway hspares', hreturning, fun back hback => ?_⟩
    simp [hback, Except.toOption] at hrefused

end Cantrip.Workspace
