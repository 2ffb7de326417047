import Cantrip.Workspace.Unique

/-!
# Where a detached pane came from

A window gets its return placement when the pane it was made for arrives, and keeps it for as long as it has
panes: every other action copies the windows it changes with the placement they had (`Window.SameOrigin`).
-/

namespace Cantrip.Workspace

open Lib List Except Option

/-- The window after a change that leaves its identity and its return placement. -/
structure Window.SameOrigin (window window' : Window) : Prop where
  id : window'.id = window.id
  returnPlacement : window'.returnPlacement = window.returnPlacement

namespace Window.SameOrigin

variable {layout : Layout} {window window' window'' : Window}

theorem refl (window : Window) : window.SameOrigin window := ⟨rfl, rfl⟩

theorem trans (h : window.SameOrigin window') (h' : window'.SameOrigin window'') : window.SameOrigin window'' :=
  ⟨h'.id.trans h.id, h'.returnPlacement.trans h.returnPlacement⟩

/-! ## The helpers -/

theorem storePane {pane : Pane} (h : storePane window pane = .ok window') : window.SameOrigin window' := by
  obtain ⟨old, -, rfl⟩ := storePane_eq_ok h
  exact ⟨rfl, rfl⟩

theorem focus {paneId : Identity} {tabId : Option Identity} (h : focus window paneId tabId = .ok window') :
    window.SameOrigin window' := by
  obtain ⟨pane, -, hrun⟩ := bind_eq_ok.mp h
  obtain rfl := ok.inj hrun
  exact ⟨rfl, rfl⟩

theorem navigate {paneId tabId : Identity} (h : navigate layout window paneId tabId = .ok window') :
    window.SameOrigin window' := by
  obtain ⟨pane, -, hrun⟩ := bind_eq_ok.mp h
  obtain ⟨retired, -, hrun⟩ := bind_eq_ok.mp hrun
  have hput : window.SameOrigin (window.putPane retired) := ⟨rfl, rfl⟩
  exact hput.trans (focus hrun)

theorem removePane (window : Window) (pane : Pane) : window.SameOrigin (removePane window pane) := by
  unfold Workspace.removePane
  dsimp only
  split
  · split
    · exact ⟨rfl, rfl⟩
    · exact ⟨rfl, rfl⟩
  · exact ⟨rfl, rfl⟩

theorem takeTab {pane : Pane} {tab : Tab} (h : takeTab window pane tab = .ok window') : window.SameOrigin window' := by
  unfold Workspace.takeTab at h
  dsimp only at h
  split at h
  · split at h
    · obtain rfl := ok.inj h
      exact removePane window pane
    · exact storePane h
  · obtain ⟨index, -, hrun⟩ := bind_eq_ok.mp h
    split at hrun
    · obtain rfl := ok.inj hrun
      exact removePane window pane
    · exact storePane hrun

theorem focusNext {wasFocused : Bool} (h : focusNext window wasFocused = .ok window') : window.SameOrigin window' := by
  unfold Workspace.focusNext at h
  split at h
  · split at h
    · exact focus h
    · exact ok.inj h ▸ refl window
  · exact ok.inj h ▸ refl window

/-! ## The actions on one window -/

variable {paneId splitId tabId : Identity} {moved : Pane} {region : Region} {tab : Tab}

theorem select (h : Server.select tabId layout window = .ok window') : window.SameOrigin window' := by
  obtain ⟨⟨pane, tab⟩, -, hrun⟩ := bind_eq_ok.mp h
  exact navigate hrun

theorem home (h : Server.home window = .ok window') : window.SameOrigin window' := by
  obtain rfl := ok.inj h
  exact ⟨rfl, rfl⟩

theorem closeTab (h : Server.closeTab tabId layout window = .ok window') : window.SameOrigin window' := by
  obtain ⟨⟨pane, tab⟩, -, hrun⟩ := bind_eq_ok.mp h
  dsimp only at hrun
  obtain ⟨-, hrun⟩ := check_eq_ok.mp hrun
  split at hrun
  · obtain ⟨current, -, hrun⟩ := bind_eq_ok.mp hrun
    obtain ⟨taken, htaken, hrun⟩ := bind_eq_ok.mp hrun
    exact (takeTab htaken).trans (focusNext hrun)
  · obtain ⟨current, -, hrun⟩ := bind_eq_ok.mp hrun
    obtain ⟨taken, htaken, hrun⟩ := bind_eq_ok.mp hrun
    exact (takeTab htaken).trans (focusNext hrun)

theorem closePane (h : Server.closePane paneId window = .ok window') : window.SameOrigin window' := by
  obtain ⟨pane, -, hrun⟩ := bind_eq_ok.mp h
  exact (removePane window pane).trans (focusNext hrun)

theorem closeConversation {viewId : Identity} (h : Server.closeConversation viewId window = .ok window') :
    window.SameOrigin window' := by
  obtain ⟨⟨pane, tab⟩, -, hrun⟩ := bind_eq_ok.mp h
  dsimp only at hrun
  obtain ⟨-, hrun⟩ := check_eq_ok.mp hrun
  obtain ⟨taken, htaken, hrun⟩ := bind_eq_ok.mp hrun
  exact (takeTab htaken).trans (focusNext hrun)

theorem editView {edit : Pane → Tab → Except Failure Tab}
    (h : Server.editView tabId edit window = .ok window') : window.SameOrigin window' := by
  obtain ⟨⟨pane, tab⟩, -, hrun⟩ := bind_eq_ok.mp h
  obtain ⟨tab', -, hrun⟩ := bind_eq_ok.mp hrun
  obtain ⟨pane', -, hrun⟩ := bind_eq_ok.mp hrun
  exact storePane hrun

theorem renamePane {titleProtection : Option PrivateLabel}
    (h : Server.renamePane paneId titleProtection window = .ok window') : window.SameOrigin window' := by
  obtain ⟨pane, -, hrun⟩ := bind_eq_ok.mp h
  exact storePane hrun

theorem reorderPanes {paneIds : List Identity} (h : Server.reorderPanes region paneIds window = .ok window') :
    window.SameOrigin window' := by
  obtain ⟨-, hrun⟩ := check_eq_ok.mp h
  obtain ⟨panes, -, hrun⟩ := bind_eq_ok.mp hrun
  split at hrun
  · obtain rfl := ok.inj hrun
    exact ⟨rfl, rfl⟩
  · split at hrun
    · obtain ⟨root, -, hrun⟩ := bind_eq_ok.mp hrun
      obtain rfl := ok.inj hrun
      exact ⟨rfl, rfl⟩
    · obtain rfl := ok.inj hrun
      exact ⟨rfl, rfl⟩

theorem reorder {tabIds : List Identity} (h : Server.reorder paneId tabIds window = .ok window') :
    window.SameOrigin window' := by
  obtain ⟨pane, -, hrun⟩ := bind_eq_ok.mp h
  obtain ⟨-, hrun⟩ := check_eq_ok.mp hrun
  obtain ⟨tabs, -, hrun⟩ := bind_eq_ok.mp hrun
  exact storePane hrun

theorem move {targetPaneId : Identity} {position : Nat}
    (h : Server.move tabId targetPaneId position layout window = .ok window') : window.SameOrigin window' := by
  obtain ⟨⟨pane, tab⟩, -, hrun⟩ := bind_eq_ok.mp h
  obtain ⟨target, -, hrun⟩ := bind_eq_ok.mp hrun
  dsimp only at hrun
  obtain ⟨-, hrun⟩ := check_eq_ok.mp hrun
  -- a tab that stays in its pane is not taken out of the window
  split at hrun
  · split at hrun
    · obtain ⟨landing, hlanding, hrun⟩ := bind_eq_ok.mp hrun
      obtain rfl := ok.inj hlanding
      obtain ⟨stored, hstored, hrun⟩ := bind_eq_ok.mp hrun
      exact (storePane hstored).trans (navigate hrun)
    · obtain ⟨landing, hlanding, hrun⟩ := bind_eq_ok.mp hrun
      obtain rfl := ok.inj hlanding
      obtain ⟨stored, hstored, hrun⟩ := bind_eq_ok.mp hrun
      exact (storePane hstored).trans (navigate hrun)
  · obtain ⟨taken, htaken, hrun⟩ := bind_eq_ok.mp hrun
    obtain ⟨landing, hlanding, hrun⟩ := bind_eq_ok.mp hrun
    obtain rfl := ok.inj hlanding
    obtain ⟨stored, hstored, hrun⟩ := bind_eq_ok.mp hrun
    exact ((takeTab htaken).trans (storePane hstored)).trans (navigate hrun)

theorem moveNewPane {position : Nat}
    (h : Server.moveNewPane tabId paneId region position splitId layout window = .ok window') : window.SameOrigin window' := by
  obtain ⟨⟨pane, tab⟩, -, hrun⟩ := bind_eq_ok.mp h
  dsimp only at hrun
  obtain ⟨-, hrun⟩ := check_eq_ok.mp hrun
  obtain ⟨taken, htaken, hrun⟩ := bind_eq_ok.mp hrun
  obtain ⟨place, -, hrun⟩ := bind_eq_ok.mp hrun
  have hadded : ∀ panes centerRoot, taken.SameOrigin { taken with panes, centerRoot } := fun panes centerRoot => ⟨rfl, rfl⟩
  split at hrun
  · obtain ⟨centerRoot, -, hrun⟩ := bind_eq_ok.mp hrun
    exact ((takeTab htaken).trans (hadded _ _)).trans (navigate hrun)
  · obtain ⟨centerRoot, -, hrun⟩ := bind_eq_ok.mp hrun
    exact ((takeTab htaken).trans (hadded _ _)).trans (navigate hrun)

theorem split {targetPaneId : Identity} {edge : Edge} {fraction : SplitFraction}
    (h : Server.split tabId targetPaneId paneId splitId edge fraction layout window = .ok window') :
    window.SameOrigin window' := by
  obtain ⟨⟨pane, tab⟩, -, hrun⟩ := bind_eq_ok.mp h
  obtain ⟨target, -, hrun⟩ := bind_eq_ok.mp hrun
  dsimp only at hrun
  obtain ⟨-, hrun⟩ := check_eq_ok.mp hrun
  obtain ⟨taken, htaken, hrun⟩ := bind_eq_ok.mp hrun
  obtain ⟨root, -, hrun⟩ := bind_eq_ok.mp hrun
  obtain ⟨position, -, hrun⟩ := bind_eq_ok.mp hrun
  have hadded : ∀ panes centerRoot, taken.SameOrigin { taken with panes, centerRoot } := fun panes centerRoot => ⟨rfl, rfl⟩
  exact ((takeTab htaken).trans (hadded _ _)).trans (navigate hrun)

theorem resize {fraction : SplitFraction} (h : Server.resize splitId fraction window = .ok window') :
    window.SameOrigin window' := by
  obtain ⟨root, -, hrun⟩ := bind_eq_ok.mp h
  obtain rfl := ok.inj hrun
  exact ⟨rfl, rfl⟩

theorem reopen {action : Tab} {pane : Pane} (h : Server.reopen layout action window pane tab = .ok window') :
    window.SameOrigin window' := by
  obtain ⟨tab', -, hrun⟩ := bind_eq_ok.mp h
  obtain ⟨pane', -, hrun⟩ := bind_eq_ok.mp hrun
  obtain ⟨stored, hstored, hrun⟩ := bind_eq_ok.mp hrun
  exact (storePane hstored).trans (navigate hrun)

theorem openInPane {replacePreviewTabId : Option Identity}
    (h : Server.openInPane tab replacePreviewTabId paneId layout window = .ok window') : window.SameOrigin window' := by
  obtain ⟨target, -, hrun⟩ := bind_eq_ok.mp h
  -- whichever view was looked up, a changed target is stored and navigated to
  have hland : ∀ (landed : Pane) (paneId : Identity),
      (do let stored ← Workspace.storePane window landed
          Workspace.navigate layout stored paneId tab.id) = .ok window' → window.SameOrigin window' := by
    intro landed paneId hlanded
    obtain ⟨stored, hstored, hlanded⟩ := bind_eq_ok.mp hlanded
    exact (storePane hstored).trans (navigate hlanded)
  cases replacePreviewTabId with
  | none =>
    obtain ⟨replacing, hnone, hrun⟩ := bind_eq_ok.mp hrun
    obtain rfl := ok.inj hnone
    obtain ⟨-, hrun⟩ := check_eq_ok.mp hrun
    obtain ⟨landed, -, hrun⟩ := bind_eq_ok.mp hrun
    exact hland landed landed.id hrun
  | some id =>
    obtain ⟨replacing, -, hrun⟩ := bind_eq_ok.mp hrun
    obtain ⟨-, hrun⟩ := check_eq_ok.mp hrun
    dsimp only at hrun
    split at hrun
    · split at hrun
      · obtain ⟨landed, -, hrun⟩ := bind_eq_ok.mp hrun
        exact hland landed landed.id hrun
      · obtain ⟨index, -, hrun⟩ := bind_eq_ok.mp hrun
        obtain ⟨landed, -, hrun⟩ := bind_eq_ok.mp hrun
        exact hland landed landed.id hrun
    · obtain ⟨landed, -, hrun⟩ := bind_eq_ok.mp hrun
      exact hland landed landed.id hrun

theorem openNewPane {replacePreviewTabId : Option Identity}
    (h : Server.openNewPane tab replacePreviewTabId paneId region splitId layout window = .ok window') :
    window.SameOrigin window' := by
  obtain ⟨-, hrun⟩ := check_eq_ok.mp h
  have hadded : ∀ panes centerRoot, window.SameOrigin { window with panes, centerRoot } := fun panes centerRoot => ⟨rfl, rfl⟩
  exact (hadded _ _).trans (navigate hrun)

theorem converse {expected : Option (Option Identity)} {view : Tab} {paneId : Option Identity} {newPaneId : Identity}
    (h : Server.converse expected view paneId newPaneId splitId layout window = .ok window') : window.SameOrigin window' := by
  obtain ⟨⟨owner, pane⟩, hpane, hrun⟩ := bind_eq_ok.mp h
  have howner : window.SameOrigin owner := by
    rcases Server.conversationPane_eq_ok hpane with ⟨-, -, rfl⟩ | ⟨-, -, centerRoot, rfl⟩
    · exact refl owner
    · exact ⟨rfl, rfl⟩
  dsimp only at hrun
  obtain ⟨-, hrun⟩ := check_eq_ok.mp hrun
  obtain ⟨-, hrun⟩ := check_eq_ok.mp hrun
  obtain ⟨stored, hstored, hrun⟩ := bind_eq_ok.mp hrun
  exact (howner.trans (storePane hstored)).trans (focus hrun)

/-! ## The two ends of a commit -/

theorem takeMoved {transfer : Transfer} {source : Pane} {selected : List Tab}
    (h : State.takeMoved window transfer source selected = .ok (window', moved)) : window.SameOrigin window' := by
  unfold State.takeMoved at h
  split at h
  · obtain ⟨rfl, -⟩ := Prod.mk.inj (ok.inj h)
    exact removePane window source
  · split at h
    · obtain ⟨taken, htaken, hrun⟩ := bind_eq_ok.mp h
      split at hrun
      · obtain ⟨rfl, -⟩ := Prod.mk.inj (ok.inj hrun)
        exact takeTab htaken
      · obtain ⟨rfl, -⟩ := Prod.mk.inj (ok.inj hrun)
        exact takeTab htaken
    · exact absurd h (invalid_ne_ok _ _)

theorem rejoin {original : ReturnPlacement} {pane : Pane} (h : State.rejoin original moved window pane = .ok window') :
    window.SameOrigin window' := by
  obtain ⟨stored, hstored, hrun⟩ := bind_eq_ok.mp h
  exact (storePane hstored).trans (focus hrun)

theorem readmit {original : Option ReturnPlacement} {returnSplitId : Identity}
    (h : State.readmit original moved window returnSplitId = .ok window') : window.SameOrigin window' := by
  have hadded : ∀ panes centerRoot, window.SameOrigin { window with panes, centerRoot } := fun panes centerRoot => ⟨rfl, rfl⟩
  exact (hadded _ _).trans (focus h)

end Window.SameOrigin

namespace State

variable {state state' : State}

inductive Arrival (transfer : Transfer) (original : Option ReturnPlacement) (moved : Pane) (destination destination' : Window) :
    Prop
  | arrived (hsplit : transfer.returnSplitId = none) (h : arrive transfer moved destination = .ok destination')
  | rejoined {o : ReturnPlacement} {pane : Pane} (hsplit : transfer.returnSplitId ≠ none) (ho : original = some o)
    (hpane : originalPane o moved destination = some pane) (h : rejoin o moved destination pane = .ok destination')
  | readmitted {returnSplitId : Identity} (hsplit : transfer.returnSplitId = some returnSplitId)
    (hnone : ∀ o ∈ original, originalPane o moved destination = none)
    (h : readmit original moved destination returnSplitId = .ok destination')

/-- A commit, step by step. -/
structure Commits (state : State) (transferId : Identity) (state' : State) (transfer : Transfer) (source moved : Pane)
    (destination window' destination' : Window) (selected : List Tab) : Prop where
  found : state.transferById transferId = .ok transfer
  current : transfer.sourceWindowId = state.window.id
  phase : transfer.phase = .stateReady
  pane : paneById state.window transfer.sourcePaneId = .ok source
  target : state.windows.find? (fun w => w.id = transfer.destinationWindowId) = some destination
  whole : transfer.wholePane → (paneViews source).map (·.id) = transfer.tabIds
  taken : takeMoved state.window transfer source selected = .ok (window', moved)
  arrival : Arrival transfer (originalPlacement state.window transfer destination source) moved destination destination'
  result : state' = (State.storeWindow { state with window := window', focusWindow := some destination'.id }
    destination').dropTransfer transfer.id

theorem commits_of_ok {transferId : Identity} (h : state.commit transferId = .ok state') :
    ∃ transfer source moved destination window' destination' selected,
      state.Commits transferId state' transfer source moved destination window' destination' selected := by
  obtain ⟨transfer, htransfer, hrun⟩ := bind_eq_ok.mp h
  split at hrun
  · simp at hrun
  next hsource =>
  rw [ne_eq, not_not] at hsource
  obtain ⟨hphase, hrun⟩ := check_eq_ok.mp hrun
  rw [ne_eq, not_not] at hphase
  obtain ⟨source, hpane, hrun⟩ := bind_eq_ok.mp hrun
  obtain ⟨destination, hdestination, hrun⟩ := bind_eq_ok.mp hrun
  obtain ⟨selected, -, hrun⟩ := bind_eq_ok.mp hrun
  obtain ⟨hwhole, hrun⟩ := check_eq_ok.mp hrun
  obtain ⟨⟨window', moved⟩, htaken, hrun⟩ := bind_eq_ok.mp hrun
  have hmembers : transfer.wholePane → (paneViews source).map (·.id) = transfer.tabIds := by
    intro hall
    by_contra hne
    exact hwhole ⟨hall, hne⟩
  have hfound := orMissing_eq_ok.mp hdestination
  cases hsplit : transfer.returnSplitId with
  | none =>
    rw [hsplit] at hrun
    obtain ⟨destination', harrive, hrun⟩ := bind_eq_ok.mp hrun
    exact ⟨transfer, source, moved, destination, window', destination', selected, htransfer, hsource, hphase, hpane, hfound,
      hmembers, htaken, .arrived hsplit harrive, (ok.inj hrun).symm⟩
  | some returnSplitId =>
    rw [hsplit] at hrun
    dsimp only at hrun
    split at hrun
    · next o pane hback =>
      obtain ⟨destination', hrejoin, hdone⟩ := bind_eq_ok.mp hrun
      obtain ⟨original, horiginal, hchosen⟩ := bind_eq_some_iff.mp hback
      obtain ⟨p, hp, he⟩ := map_eq_some_iff.mp hchosen
      obtain ⟨rfl, rfl⟩ := Prod.mk.inj he
      exact ⟨transfer, source, moved, destination, window', destination', selected, htransfer, hsource, hphase, hpane, hfound,
        hmembers, htaken, .rejoined (by simp [hsplit]) horiginal hp hrejoin, (ok.inj hdone).symm⟩
    · next hback =>
      obtain ⟨destination', hreadmit, hrun⟩ := bind_eq_ok.mp hrun
      refine ⟨transfer, source, moved, destination, window', destination', selected, htransfer, hsource, hphase, hpane, hfound,
        hmembers, htaken, .readmitted hsplit ?_ hreadmit, (ok.inj hrun).symm⟩
      intro o ho
      rw [mem_def.mp ho, bind_some, map_eq_none_iff] at hback
      exact hback

end State

/-! ## What a command does to the placements -/

def KeepsOrigins (windows windows' : List Window) : Prop :=
  ∀ w ∈ windows, w.panes ≠ [] → ∀ w' ∈ windows', w'.id = w.id → w'.returnPlacement = w.returnPlacement

namespace KeepsOrigins

variable {windows windows' : List Window} {window window' : Window}

theorem refl (hnodup : (windows.map (·.id)).Nodup) : KeepsOrigins windows windows := by
  intro w hw _ w' hw' hid
  rw [inj_on_of_nodup_map hnodup hw' hw hid]

theorem put (h : KeepsOrigins windows windows') (hnodup : (windows.map (·.id)).Nodup) (hmem : window ∈ windows)
    (hid : window'.id = window.id) (hin : window.id ∈ windows'.map (·.id))
    (hsame : window.panes ≠ [] → window'.returnPlacement = window.returnPlacement) :
    KeepsOrigins windows (putKey (·.id) window' windows') := by
  intro w hw hpanes w' hw' hwid
  obtain ⟨old, hold⟩ := find?_isSome_of_mem hin
  rcases mem_put (by rw [hid]; exact hold) hw' with rfl | hw'
  · obtain rfl : w = window := inj_on_of_nodup_map hnodup hw hmem (hwid.symm.trans hid)
    exact hsame hpanes
  · exact h w hw hpanes w' hw' hwid

theorem filter (h : KeepsOrigins windows windows') (p : Window → Bool) : KeepsOrigins windows (windows'.filter p) :=
  fun w hw hpanes w' hw' hid => h w hw hpanes w' (mem_of_mem_filter hw') hid

end KeepsOrigins

namespace State

variable {state state' : State}

section

variable (hs : state.Coherent)
include hs

theorem keepsOrigins_current {window : Window} {layout : Layout}
    (hlayout : layout.windows = state.layout.windows) (h : state.window.SameOrigin window) :
    KeepsOrigins state.windows (State.windows { state with window, layout }) := by
  have hstored := @Coherent.storeWindow state hs window
  rw [storeWindow, if_pos h.id] at hstored
  have hwindows : State.windows { state with window, layout } = State.windows { state with window } := by
    unfold State.windows
    rw [hlayout]
  have hnodup : (state.windows.map (·.id)).Nodup := hs.ids ▸ hs.windowIds
  have hmem := mem_of_find?_eq_some hs.mem_current
  rw [hwindows, hstored.2]
  exact (KeepsOrigins.refl hnodup).put hnodup hmem h.id (mem_map_of_mem hmem) fun _ => h.returnPlacement

theorem edit_origins (f : Layout → Window → Except Failure Window) (h : state.edit f = .ok state')
    (hf : ∀ window', f state.layout state.window = .ok window' → state.window.SameOrigin window') :
    KeepsOrigins state.windows state'.windows := by
  obtain ⟨window', hwindow, hrun⟩ := bind_eq_ok.mp h
  obtain rfl := ok.inj hrun
  exact keepsOrigins_current hs rfl (hf window' hwindow)

theorem storeFocused_origins {owner owner' : Window} (hmem : owner ∈ state.windows)
    (h : owner.SameOrigin owner') : KeepsOrigins state.windows (state.storeFocused owner').windows := by
  have hwindows : (state.storeFocused owner').windows = (state.storeWindow owner').windows := by
    unfold storeFocused storeWindow
    by_cases hid : owner'.id = state.window.id
    · simp [hid]
    · simp only [hid, ne_eq, not_false_eq_true, if_true, if_false]
      rfl
  have hnodup : (state.windows.map (·.id)).Nodup := hs.ids ▸ hs.windowIds
  rw [hwindows, (@Coherent.storeWindow state hs owner').2]
  exact (KeepsOrigins.refl hnodup).put hnodup hmem h.id (mem_map_of_mem hmem) fun _ => h.returnPlacement

theorem open_origins {tab : Tab} {replacePreviewTabId : Option Identity} {target : OpenTarget}
    (h : state.open_ tab replacePreviewTabId target = .ok state') : KeepsOrigins state.windows state'.windows := by
  unfold open_ at h
  cases hfind : Server.findResource state.windows tab with
  | some found =>
    obtain ⟨owner, pane, existing⟩ := found
    rw [hfind] at h
    obtain ⟨owner', hreopen, hrun⟩ := bind_eq_ok.mp h
    obtain rfl := ok.inj hrun
    exact storeFocused_origins hs (findResource_eq_some hfind).1 (.reopen hreopen)
  | none =>
    rw [hfind] at h
    cases target with
    | pane paneId => exact edit_origins hs _ h fun _ => .openInPane
    | newPane paneId region splitId => exact edit_origins hs _ h fun _ => .openNewPane

theorem openConversation_origins {expected : Option (Option Identity)} {view : Tab}
    {paneId : Option Identity} {newPaneId splitId : Identity}
    (h : state.openConversation expected view paneId newPaneId splitId = .ok state') :
    KeepsOrigins state.windows state'.windows := by
  unfold openConversation at h
  cases hfind : Server.findResource state.windows view with
  | some found =>
    obtain ⟨owner, pane, existing⟩ := found
    rw [hfind] at h
    obtain ⟨owner', hfocus, hrun⟩ := bind_eq_ok.mp h
    obtain rfl := ok.inj hrun
    exact storeFocused_origins hs (findResource_eq_some hfind).1 (.focus hfocus)
  | none =>
    rw [hfind] at h
    exact edit_origins hs _ h fun _ => .converse

theorem migrateCodeFiles_origins {tabId codeId : Identity} {views : List FileView}
    (h : state.migrateCodeFiles tabId codeId views = .ok state') : KeepsOrigins state.windows state'.windows := by
  have hnodup : (state.windows.map (·.id)).Nodup := hs.ids ▸ hs.windowIds
  obtain ⟨⟨pane, tab⟩, -, hrun⟩ := bind_eq_ok.mp h
  obtain ⟨-, hrun⟩ := check_eq_ok.mp hrun
  dsimp only at hrun
  split at hrun
  · obtain ⟨-, hrun⟩ := check_eq_ok.mp hrun
    obtain rfl := ok.inj hrun
    exact .refl hnodup
  · obtain ⟨-, hrun⟩ := check_eq_ok.mp hrun
    obtain ⟨_, -, hrun⟩ := bind_eq_ok.mp hrun
    obtain ⟨index, -, hrun⟩ := bind_eq_ok.mp hrun
    split at hrun
    · obtain ⟨first, -, hrun⟩ := bind_eq_ok.mp hrun
      obtain ⟨stored, hstored, hrun⟩ := bind_eq_ok.mp hrun
      split at hrun
      · obtain ⟨window', hfocus, hrun⟩ := bind_eq_ok.mp hrun
        obtain rfl := ok.inj hrun
        exact keepsOrigins_current hs rfl ((Window.SameOrigin.storePane hstored).trans (.focus hfocus))
      · obtain rfl := ok.inj hrun
        exact keepsOrigins_current hs rfl (.storePane hstored)
    · obtain ⟨stored, hstored, hrun⟩ := bind_eq_ok.mp hrun
      obtain rfl := ok.inj hrun
      exact keepsOrigins_current hs rfl (.storePane hstored)

theorem migrateExplorerFile_origins {tabId explorerId documentId : Identity} {mode : FileMode}
    {retainedViews : List FileView}
    (h : state.migrateExplorerFile tabId explorerId documentId mode retainedViews = .ok state') :
    KeepsOrigins state.windows state'.windows := by
  obtain ⟨⟨pane, tab⟩, -, hrun⟩ := bind_eq_ok.mp h
  obtain ⟨-, hrun⟩ := check_eq_ok.mp hrun
  obtain ⟨-, hrun⟩ := check_eq_ok.mp hrun
  obtain ⟨_, -, hrun⟩ := bind_eq_ok.mp hrun
  obtain ⟨index, -, hrun⟩ := bind_eq_ok.mp hrun
  obtain ⟨stored, hstored, hrun⟩ := bind_eq_ok.mp hrun
  obtain rfl := ok.inj hrun
  exact keepsOrigins_current hs rfl (.storePane hstored)

end

/-- The windows after a commit: the source without the moved pane, and the destination with it. -/
structure Stores (state state' : State) (destination window' destination' : Window) : Prop where
  other : destination.id ≠ state.window.id
  source : state.window.SameOrigin window'
  destination : destination'.id = destination.id
  windows : state'.windows = putKey (·.id) destination' (putKey (·.id) window' state.windows)

theorem Commits.stores {transferId : Identity} {transfer : Transfer} {source moved : Pane}
    {destination window' destination' : Window} {selected : List Tab} (hs : state.Sound)
    (h : state.Commits transferId state' transfer source moved destination window' destination' selected) :
    state.Stores state' destination window' destination' := by
  have hdestinationId : destination.id = transfer.destinationWindowId := by simpa using find?_some h.target
  have htransfer : transfer ∈ state.layout.transfers := mem_of_find?_eq_some (orMissing_eq_ok.mp h.found)
  have hother : destination.id ≠ state.window.id := by
    rw [hdestinationId, ← h.current]
    exact (hs.ends transfer htransfer).symm
  have hsource := Window.SameOrigin.takeMoved h.taken
  have hid : destination'.id = destination.id := by
    cases h.arrival with
    | arrived _ harrive => exact (Window.SameOrigin.focus harrive).id
    | rejoined _ _ _ hrejoin => exact (Window.SameOrigin.rejoin hrejoin).id
    | readmitted _ _ hreadmit => exact (Window.SameOrigin.readmit hreadmit).id
  obtain ⟨hcoherent, hwindows⟩ := @Coherent.storeWindow state hs.toCoherent window'
  refine ⟨hother, hsource, hid, ?_⟩
  rw [← hwindows, ← (@Coherent.storeWindow _ hcoherent destination').2, h.result]
  simp only [storeWindow, hsource.id, hid, hother, if_true, if_false]
  rfl

theorem Commits.origins {transferId : Identity} {transfer : Transfer} {source moved : Pane}
    {destination window' destination' : Window} {selected : List Tab} (hs : state.Sound)
    (h : state.Commits transferId state' transfer source moved destination window' destination' selected) :
    KeepsOrigins state.windows state'.windows := by
  have hnodup : (state.windows.map (·.id)).Nodup := hs.ids ▸ hs.windowIds
  have hcurrent := mem_of_find?_eq_some hs.mem_current
  have hdestination := mem_of_find?_eq_some h.target
  have hstores := h.stores hs
  have hplacement : destination.panes ≠ [] → destination'.returnPlacement = destination.returnPlacement := by
    intro hpanes
    cases h.arrival with
    | arrived hsplit _ =>
      have htransfer : transfer ∈ state.layout.transfers := mem_of_find?_eq_some (orMissing_eq_ok.mp h.found)
      have hreturning : transfer.returning = false := by rw [Transfer.returning, hsplit]; rfl
      have hempty := hs.staged transfer htransfer hreturning destination hdestination (by simpa using find?_some h.target)
      exact absurd hempty hpanes
    | rejoined _ _ _ hrejoin => exact (Window.SameOrigin.rejoin hrejoin).returnPlacement
    | readmitted _ _ hreadmit => exact (Window.SameOrigin.readmit hreadmit).returnPlacement
  rw [hstores.windows]
  refine KeepsOrigins.put ?_ hnodup hdestination hstores.destination ?_ hplacement
  · exact (KeepsOrigins.refl hnodup).put hnodup hcurrent hstores.source.id (mem_map_of_mem hcurrent)
      fun _ => hstores.source.returnPlacement
  · rw [map_key_put]
    exact mem_map_of_mem hdestination

theorem run_origins {action : Action} (hs : state.Sound) (h : state.run action = .ok state') :
    KeepsOrigins state.windows state'.windows := by
  have hc := hs.toCoherent
  have hnodup : (state.windows.map (·.id)).Nodup := hs.ids ▸ hs.windowIds
  cases action with
  | openConversation expected view paneId newPaneId splitId => exact openConversation_origins hc h
  | «open» tab replacePreviewTabId target => exact open_origins hc h
  | closeConversation viewId =>
    exact edit_origins hc (fun _ => Server.closeConversation viewId) h fun _ => .closeConversation
  | migrateCodeFiles tabId codeId views => exact migrateCodeFiles_origins hc h
  | migrateExplorerFile tabId explorerId documentId mode retainedViews => exact migrateExplorerFile_origins hc h
  | replaceAttachment rendererId =>
    rcases replaceAttachment_eq_ok h with rfl | ⟨-, -, rfl⟩ | ⟨hlayout, hwindow⟩
    · exact .refl hnodup
    · exact keepsOrigins_current hc rfl ⟨rfl, rfl⟩
    · intro w hw hpanes w' hw' hid
      unfold windows at hw'
      rw [hlayout, hwindow] at hw'
      obtain ⟨x, hx, rfl⟩ := mem_map.mp hw'
      dsimp only at hid ⊢
      split at hid
      · next hcurrent =>
        have hmem := mem_of_find?_eq_some hc.mem_current
        rw [if_pos hcurrent]
        exact KeepsOrigins.refl hnodup w hw hpanes state.window hmem hid
      · next hcurrent =>
        have hmem : x ∈ state.windows := by
          refine mem_map.mpr ⟨x, mem_of_mem_filter hx, ?_⟩
          rw [if_neg hcurrent]
        rw [if_neg hcurrent]
        exact KeepsOrigins.refl hnodup w hw hpanes x hmem hid
  | prepareReturn transferId paneId tabId destinationPaneId splitId =>
    rw [prepareReturn_windows h]
    exact .refl hnodup
  | prepareDetach transferId paneId tabId destinationWindowId destinationPaneId =>
    obtain ⟨pane, selected, transfer, -, -, hnew, -, -, -⟩ := prepareDetach_eq_ok h
    rw [prepareDetach_windows hs h]
    intro w hw hpanes w' hw' hid
    rcases mem_append.mp hw' with hw' | hw'
    · exact KeepsOrigins.refl hnodup w hw hpanes w' hw' hid
    · obtain rfl := mem_singleton.mp hw'
      exact absurd hid.symm (hnew w hw)
  | transferReady transferId =>
    rw [transferReady_windows h]
    exact .refl hnodup
  | transferStateReady transferId =>
    rw [transferStateReady_windows h]
    exact .refl hnodup
  | commitTransfer transferId =>
    obtain ⟨transfer, source, moved, destination, window', destination', selected, hcommits⟩ := commits_of_ok h
    exact hcommits.origins hs
  | cancelTransfer transferId =>
    obtain ⟨transfer, -, hrun⟩ := bind_eq_ok.mp h
    split at hrun
    · simp at hrun
    · obtain rfl := ok.inj hrun
      cases transfer.returning with
      | true => exact .refl hnodup
      | false =>
        have hfilter := (KeepsOrigins.refl hnodup).filter fun w => w.id ≠ transfer.destinationWindowId
        rw [← windows_retire] at hfilter
        exact hfilter
  | select tabId => exact edit_origins hc _ h fun _ => .select
  | home => exact edit_origins hc (fun _ => Server.home) h fun _ => .home
  | closeTab tabId => exact edit_origins hc _ h fun _ => .closeTab
  | closePane paneId => exact edit_origins hc (fun _ => Server.closePane paneId) h fun _ => .closePane
  | pin tabId => exact edit_origins hc (fun _ => Server.pin tabId) h fun _ => .editView
  | fileMode tabId mode => exact edit_origins hc (fun _ => Server.fileMode tabId mode) h fun _ => .editView
  | renamePane paneId titleProtection =>
    exact edit_origins hc (fun _ => Server.renamePane paneId titleProtection) h fun _ => .renamePane
  | dockPresentation tabId presentation =>
    exact edit_origins hc (fun _ => Server.dockPresentation tabId presentation) h fun _ => .editView
  | reorderPanes region paneIds =>
    exact edit_origins hc (fun _ => Server.reorderPanes region paneIds) h fun _ => .reorderPanes
  | moveNewPane tabId paneId region position splitId => exact edit_origins hc _ h fun _ => .moveNewPane
  | reorder paneId tabIds => exact edit_origins hc (fun _ => Server.reorder paneId tabIds) h fun _ => .reorder
  | move tabId targetPaneId position => exact edit_origins hc _ h fun _ => .move
  | split tabId targetPaneId paneId splitId edge fraction => exact edit_origins hc _ h fun _ => .split
  | resize splitId fraction => exact edit_origins hc (fun _ => Server.resize splitId fraction) h fun _ => .resize

end State

@[simp] theorem returnPlacement_finish (version : Version) (window : Window) :
    (window.finish version).returnPlacement = window.returnPlacement := by
  unfold Window.finish
  split <;> rfl

theorem precheck_windows {layout : Layout} {command : Command} {state : State} (hnodup : layout.windowIds.Nodup)
    (h : precheck layout command = .ok state) : state.windows = layout.windows := by
  obtain ⟨-, -, -, window, hfind, -, -, rfl⟩ := precheck_eq_ok h
  have hid : window.id = command.windowId := by simpa using find?_some hfind
  have hc : State.Coherent { layout, window, focusWindow := none, retired := [] } :=
    ⟨hnodup, mem_map_of_mem (mem_of_find?_eq_some hfind)⟩
  rw [hc.windows_eq]
  refine put_self_of_find? (k := window.id) ?_
  rw [hid]
  exact hfind

theorem apply_origin {layout : Layout} {command : Command} {result : CommandResult} {id : Identity} {window window' : Window}
    (h : apply layout command = .ok result) (hwindow : layout.findWindow id = some window) (hpanes : window.panes ≠ [])
    (hwindow' : result.layout.findWindow id = some window') : window'.returnPlacement = window.returnPlacement := by
  obtain ⟨-, howned, state, state', hstate, hrun, hlayout, -, -, -⟩ := apply_eq_ok h
  obtain ⟨hs, -⟩ := precheck_sound howned hstate
  have hid : window.id = id := by simpa using find?_some hwindow
  have hid' : window'.id = id := by simpa using find?_some hwindow'
  have hmem := mem_of_find?_eq_some hwindow
  have hmem' := mem_of_find?_eq_some hwindow'
  rw [hlayout] at hmem'
  obtain ⟨w', hw', rfl⟩ := mem_map.mp hmem'
  -- the window as the action finds it
  obtain ⟨w, hw, hwid, hwpanes, horigin⟩ : ∃ w ∈ state.windows, w.id = window.id ∧ w.panes ≠ [] ∧
      w.returnPlacement = window.returnPlacement := by
    rw [precheck_windows (by rw [windowIds_migrated]; exact howned.windowIds) hstate]
    rcases migrated_cases layout command.action with he | he
    · rw [he]
      exact ⟨window, hmem, rfl, hpanes, rfl⟩
    · rw [he]
      exact ⟨window.mapPanes normalizePane, mem_map_of_mem hmem, rfl, by simpa [Window.mapPanes] using hpanes, rfl⟩
  rw [(finish_fields _ w').1] at hid'
  rw [returnPlacement_finish, ← horigin]
  exact State.run_origins hs hrun w hw hwpanes w' hw' (by rw [hid', hwid, hid])

end Cantrip.Workspace
