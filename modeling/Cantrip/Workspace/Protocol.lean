import Cantrip.Workspace.Unique

/-!
# The transfer protocol

A run is a list of accepted commands with the layout each was applied to. A pending transfer was prepared by a step
of the run and has been pending ever since; its phase tells which acknowledgements of its destination came
after that, in this order (`Standing`). A view goes from one window to another only where such a transfer is committed.
-/

namespace Cantrip.Workspace

open Lib List Except

/-! ## Views and windows -/

def Layout.Holds (layout : Layout) (windowId id : Identity) : Prop :=
  ∃ window ∈ layout.windows, window.id = windowId ∧ id ∈ window.viewIds

variable {action : Action} {command : Command} {result : CommandResult} {id windowId : Identity} {layout : Layout}
  {trace : List (Layout × Command)} {windows : List Window} {state state' : State} {transfer : Transfer}

theorem mem_placed {card : Card} : (windowId, card) ∈ placed windows ↔ ∃ w ∈ windows, w.id = windowId ∧ card ∈ w.cards := by
  unfold placed
  induction windows with
  | nil => simp
  | cons w ws ih =>
    rw [map_cons, sum_cons, Multiset.mem_add, ih, Window.placed, Multiset.mem_map]
    simp only [mem_cons, exists_eq_or_imp, Prod.mk.injEq]
    refine or_congr ?_ Iff.rfl
    constructor
    · rintro ⟨c, hc, hid, rfl⟩
      exact ⟨hid, hc⟩
    · rintro ⟨hid, hc⟩
      exact ⟨card, hc, hid, rfl⟩

theorem mem_viewIds {window : Window} : id ∈ window.viewIds ↔ ∃ resource, (id, resource) ∈ window.cards := by
  unfold Window.viewIds
  rw [mem_flatMap]
  constructor
  · rintro ⟨pane, hpane, hid⟩
    obtain ⟨tab, htab, rfl⟩ := List.mem_map.mp hid
    exact ⟨tab.resource, mem_cards.mpr ⟨pane, hpane, tab, htab, rfl⟩⟩
  · rintro ⟨resource, hcard⟩
    obtain ⟨pane, hpane, tab, htab, he⟩ := mem_cards.mp hcard
    exact ⟨pane, hpane, List.mem_map.mpr ⟨tab, htab, congrArg Prod.fst he⟩⟩

theorem holds_iff : layout.Holds windowId id ↔ ∃ resource, (windowId, (id, resource)) ∈ placed layout.windows := by
  unfold Layout.Holds
  simp only [mem_placed, mem_viewIds]
  constructor
  · rintro ⟨w, hw, hid, resource, hcard⟩
    exact ⟨resource, w, hw, hid, hcard⟩
  · rintro ⟨resource, w, hw, hid, hcard⟩
    exact ⟨w, hw, hid, resource, hcard⟩

theorem viewIds_eq_placed (windows : List Window) :
    (placed windows).map (fun x => x.2.1) = ↑(windows.flatMap Window.viewIds) := by
  have hids : (allCards windows).map Prod.fst = ↑(windows.flatMap Window.viewIds) := by
    rw [allCards_eq_views, Multiset.map_coe, List.map_map, map_flatMap]
    congr 2
    funext w
    rw [map_flatMap, Window.viewIds]
    rfl
  rw [← hids, allCards, Multiset.map_map]
  rfl

theorem Layout.Owned.holds_unique {w w' : Identity} (h : layout.Owned) (hw : layout.Holds w id)
    (hw' : layout.Holds w' id) : w = w' := by
  obtain ⟨resource, hmem⟩ := holds_iff.mp hw
  obtain ⟨resource', hmem'⟩ := holds_iff.mp hw'
  have hnodup : ((placed layout.windows).map fun x => x.2.1).Nodup := by
    rw [viewIds_eq_placed, Multiset.coe_nodup]
    exact h.viewIds
  exact congrArg Prod.fst (Multiset.inj_on_of_nodup_map hnodup _ hmem _ hmem' rfl)

/-! ## What a step does to the views -/

theorem run_creates (hs : state.Sound) (hnone : state.focusWindow = none)
    (hcreates : action.creates = true) (h : state.run action = .ok state') :
    ∃ id added lost, state.Exchange state' id added lost := by
  have hopens : ∀ view : Tab, (view.resource ∈ resources state.windows ∧ state.Fronted state' view) ∨
      (view.resource ∉ resources state.windows ∧ ∃ lost, state.Exchange state' state.window.id {view.card} lost) →
      ∃ id added lost, state.Exchange state' id added lost := by
    rintro view (⟨-, hfronted⟩ | ⟨-, lost, hexchange⟩)
    · obtain ⟨id, lost, hkept⟩ := hfronted.kept
      exact ⟨id, 0, lost, hkept⟩
    · exact ⟨_, _, lost, hexchange⟩
  cases action with
  | «open» tab replacePreviewTabId target => exact hopens tab (open_cases hs hnone h)
  | openConversation expected view paneId newPaneId splitId => exact hopens view (openConversation_cases hs hnone h)
  | migrateCodeFiles tabId codeId views =>
    rcases migrateCodeFiles_cases hs h with rfl | ⟨-, -, hexchange⟩
    · exact ⟨state'.window.id, 0, 0, rfl⟩
    · exact ⟨_, _, _, hexchange⟩
  | migrateExplorerFile tabId explorerId documentId mode retainedViews =>
    exact ⟨_, _, _, (migrateExplorerFile_cases hs h).2⟩
  | _ => simp [Action.creates] at hcreates

theorem State.Exchange.mem_iff {added lost : Multiset Card} {card : Card}
    (h : state.Exchange state' id added lost) (hne : windowId ≠ id) :
    (windowId, card) ∈ placed state'.windows ↔ (windowId, card) ∈ placed state.windows := by
  have hout : ∀ cards : Multiset Card, (windowId, card) ∉ cards.map (Prod.mk id) := by
    intro cards hmem
    obtain ⟨c, -, he⟩ := Multiset.mem_map.mp hmem
    exact hne (congrArg Prod.fst he).symm
  have hmem : (windowId, card) ∈ placed state'.windows + lost.map (Prod.mk id) ↔
      (windowId, card) ∈ placed state.windows + added.map (Prod.mk id) := by rw [h]
  rw [Multiset.mem_add, Multiset.mem_add, or_iff_left (hout lost), or_iff_left (hout added)] at hmem
  exact hmem

theorem apply_holds (h : apply layout command = .ok result)
    {w w' : Identity} (hbefore : layout.Holds w id) (hafter : result.layout.Holds w' id) (hne : w ≠ w') :
    ∃ transfer ∈ layout.transfers, command.action = .commitTransfer transfer.id ∧
      command.windowId = transfer.sourceWindowId ∧ transfer.phase = .stateReady ∧ id ∈ transfer.tabIds ∧
      w = transfer.sourceWindowId ∧ w' = transfer.destinationWindowId := by
  obtain ⟨-, howned, state, state', hstate, hrun, hlayout, howned', -, -⟩ := apply_eq_ok h
  obtain ⟨hs, hplaced⟩ := precheck_sound howned hstate
  obtain ⟨-, -, -, window, hfind, -, -, hinit⟩ := precheck_eq_ok hstate
  have hfinish : placed result.layout.windows = placed state'.windows := by
    rw [hlayout]
    exact placed_finish _ _
  have hwindow : state.window.id = command.windowId := by
    rw [hinit]
    simpa using find?_some hfind
  -- a window that keeps what it held leaves the view with one owner
  have hstays : layout.Holds w' id → False := fun hw' => hne (howned.holds_unique hbefore hw')
  have hstayed : result.layout.Holds w id → False := fun hw => hne (howned'.holds_unique hw hafter)
  obtain ⟨resource', hmem'⟩ := holds_iff.mp hafter
  obtain ⟨resource, hmem⟩ := holds_iff.mp hbefore
  rw [hfinish] at hmem'
  rw [← hplaced] at hmem
  cases hcreates : command.action.creates with
  | true =>
    obtain ⟨changed, added, lost, hexchange⟩ := run_creates hs (by rw [hinit]) hcreates hrun
    by_cases hw' : w' = changed
    · have hw : w ≠ changed := fun e => hne (e.trans hw'.symm)
      exact (hstayed (holds_iff.mpr ⟨resource, by rw [hfinish]; exact (hexchange.mem_iff hw).mpr hmem⟩)).elim
    · exact (hstays (holds_iff.mpr ⟨resource', by rw [← hplaced]; exact (hexchange.mem_iff hw').mp hmem'⟩)).elim
  | false =>
    cases hcommits : command.action.commits with
    | false =>
      obtain ⟨lost, hkept⟩ := run_placed hs hcreates hcommits hrun
      refine (hstays (holds_iff.mpr ⟨resource', ?_⟩)).elim
      rw [← hplaced, ← hkept]
      exact Multiset.mem_add.mpr (.inl hmem')
    | true =>
      obtain ⟨transferId, haction⟩ : ∃ transferId, command.action = .commitTransfer transferId := by
        cases ha : command.action <;> simp [ha, Action.commits] at hcommits
        exact ⟨_, rfl⟩
      rw [haction] at hrun
      obtain ⟨transfer, htransfer, hid, hsource, hphase, moved, hlisted, hmoved⟩ := State.commit_placed hs hrun
      have htransfer' : transfer ∈ layout.transfers := by
        rw [hinit] at htransfer
        simpa using htransfer
      have hin : (w', (id, resource')) ∈ placed state.windows + moved.map (Prod.mk transfer.destinationWindowId) := by
        rw [← hmoved]
        exact Multiset.mem_add.mpr (.inl hmem')
      rcases Multiset.mem_add.mp hin with hin | hin
      · exact (hstays (holds_iff.mpr ⟨resource', by rw [← hplaced]; exact hin⟩)).elim
      · obtain ⟨card, hcard, he⟩ := Multiset.mem_map.mp hin
        obtain ⟨hdestination, rfl⟩ := Prod.mk.inj he
        have hview : id ∈ transfer.tabIds := by
          rw [← Multiset.mem_coe, ← hlisted]
          exact Multiset.mem_map_of_mem Prod.fst hcard
        -- the view was among those of the source, which is its one owner
        have hfrom : layout.Holds transfer.sourceWindowId id := by
          refine holds_iff.mpr ⟨resource', ?_⟩
          rw [← hplaced]
          have hleft : (transfer.sourceWindowId, (id, resource')) ∈
              placed state'.windows + moved.map (Prod.mk transfer.sourceWindowId) :=
            Multiset.mem_add.mpr (.inr (Multiset.mem_map_of_mem _ hcard))
          rw [hmoved] at hleft
          rcases Multiset.mem_add.mp hleft with hleft | hleft
          · exact hleft
          · obtain ⟨_, -, he⟩ := Multiset.mem_map.mp hleft
            exact absurd (congrArg Prod.fst he).symm (hs.ends transfer htransfer)
        refine ⟨transfer, htransfer', by rw [haction, hid], ?_, hphase, hview, ?_, hdestination.symm⟩
        · rw [← hwindow, hsource]
        · exact howned.holds_unique hbefore hfrom

/-! ## What a step does to the transfers -/

def Action.prepares : Action → Option Identity
  | .prepareReturn transferId _ _ _ _ => some transferId
  | .prepareDetach transferId _ _ _ _ => some transferId
  | _ => none

def Transfer.Follows (action : Action) (windowId : Identity) (transfer transfer' : Transfer) : Prop :=
  transfer' = transfer ∨
  (action = .transferReady transfer.id ∧ transfer.destinationWindowId = windowId ∧ transfer.phase = .preparing ∧
    transfer' = { transfer with phase := .destinationReady }) ∨
  (action = .transferStateReady transfer.id ∧ transfer.destinationWindowId = windowId ∧ transfer.phase ≠ .preparing ∧
    transfer' = { transfer with phase := .stateReady })

structure Transfer.Begins (action : Action) (window : Window) (transfer : Transfer) : Prop where
  prepares : action.prepares = some transfer.id
  source : transfer.sourceWindowId = window.id
  generation : transfer.sourceGeneration = window.attachmentGeneration
  phase : transfer.phase = .preparing
  views : ∃ pane ∈ window.panes, pane.id = transfer.sourcePaneId ∧ ∀ id ∈ transfer.tabIds, id ∈ pane.viewIds

theorem begins_of_prepared {pane : Pane} {selected : List Tab}
    {paneId transferId destinationWindowId destinationPaneId : Identity} {tabId returnSplitId : Option Identity}
    {destinationGeneration : Nat} (hprepares : action.prepares = some transferId)
    (hpane : paneById state.window paneId = .ok pane) (hselected : State.transferred pane tabId = .ok selected)
    (h : state.prepared pane selected transferId tabId destinationWindowId destinationGeneration destinationPaneId
      returnSplitId = .ok transfer) : transfer.Begins action state.window := by
  obtain ⟨hid, hsource, hgeneration, hsourcePane, htabs, hphase⟩ := State.prepared_eq_ok h
  refine ⟨by rw [hid]; exact hprepares, hsource, hgeneration, hphase, pane, (paneById_eq_ok hpane).2.1, hsourcePane.symm, ?_⟩
  intro id hmem
  rw [htabs] at hmem
  obtain ⟨tab, htab, rfl⟩ := List.mem_map.mp hmem
  exact List.mem_map_of_mem (State.transferred_eq_ok hselected htab)

/-- What no action changes of a layout. -/
structure Layout.SameScope (layout layout' : Layout) : Prop where
  version : layout'.version = layout.version
  id : layout'.id = layout.id
  projectId : layout'.projectId = layout.projectId
  revision : layout'.revision = layout.revision
  mainWindowId : layout'.mainWindowId = layout.mainWindowId

/-- The pending transfers are the same, too. -/
structure Layout.SameTransfers (layout layout' : Layout) : Prop extends layout.SameScope layout' where
  transfers : layout'.transfers = layout.transfers

theorem Layout.SameTransfers.refl (layout : Layout) : layout.SameTransfers layout := ⟨⟨rfl, rfl, rfl, rfl, rfl⟩, rfl⟩

theorem storeWindow_sameTransfers (state : State) (window : Window) :
    state.layout.SameTransfers (state.storeWindow window).layout := by
  unfold State.storeWindow
  split
  · exact .refl _
  · exact ⟨⟨rfl, rfl, rfl, rfl, rfl⟩, rfl⟩

theorem storeFocused_sameTransfers (state : State) (owner : Window) :
    state.layout.SameTransfers (state.storeFocused owner).layout := by
  unfold State.storeFocused
  dsimp only
  split
  · exact storeWindow_sameTransfers { state with focusWindow := some owner.id } owner
  · exact storeWindow_sameTransfers state owner

theorem edit_sameTransfers {f : Layout → Window → Except Failure Window} (h : state.edit f = .ok state') :
    state.layout.SameTransfers state'.layout := by
  obtain ⟨window', -, hrun⟩ := bind_eq_ok.mp h
  obtain rfl := ok.inj hrun
  exact .refl _

theorem open_sameTransfers {tab : Tab} {replacePreviewTabId : Option Identity} {target : OpenTarget}
    (h : state.open_ tab replacePreviewTabId target = .ok state') : state.layout.SameTransfers state'.layout := by
  unfold State.open_ at h
  split at h
  · obtain ⟨owner, -, hrun⟩ := bind_eq_ok.mp h
    obtain rfl := ok.inj hrun
    exact storeFocused_sameTransfers state owner
  · split at h
    · exact edit_sameTransfers h
    · exact edit_sameTransfers h

theorem openConversation_sameTransfers {expected : Option (Option Identity)} {view : Tab}
    {paneId : Option Identity} {newPaneId splitId : Identity}
    (h : state.openConversation expected view paneId newPaneId splitId = .ok state') :
    state.layout.SameTransfers state'.layout := by
  unfold State.openConversation at h
  split at h
  · obtain ⟨owner, -, hrun⟩ := bind_eq_ok.mp h
    obtain rfl := ok.inj hrun
    exact storeFocused_sameTransfers state owner
  · exact edit_sameTransfers h

theorem migrateCodeFiles_sameTransfers {tabId codeId : Identity} {views : List FileView}
    (h : state.migrateCodeFiles tabId codeId views = .ok state') : state.layout.SameTransfers state'.layout := by
  obtain ⟨⟨pane, tab⟩, -, hrun⟩ := bind_eq_ok.mp h
  obtain ⟨-, hrun⟩ := check_eq_ok.mp hrun
  dsimp only at hrun
  split at hrun
  · obtain ⟨-, hrun⟩ := check_eq_ok.mp hrun
    obtain rfl := ok.inj hrun
    exact .refl _
  · obtain ⟨-, hrun⟩ := check_eq_ok.mp hrun
    obtain ⟨_, -, hrun⟩ := bind_eq_ok.mp hrun
    obtain ⟨index, -, hrun⟩ := bind_eq_ok.mp hrun
    split at hrun
    · obtain ⟨first, -, hrun⟩ := bind_eq_ok.mp hrun
      obtain ⟨stored, -, hrun⟩ := bind_eq_ok.mp hrun
      split at hrun
      · obtain ⟨window', -, hrun⟩ := bind_eq_ok.mp hrun
        obtain rfl := ok.inj hrun
        exact ⟨⟨rfl, rfl, rfl, rfl, rfl⟩, rfl⟩
      · obtain rfl := ok.inj hrun
        exact ⟨⟨rfl, rfl, rfl, rfl, rfl⟩, rfl⟩
    · obtain ⟨stored, -, hrun⟩ := bind_eq_ok.mp hrun
      obtain rfl := ok.inj hrun
      exact ⟨⟨rfl, rfl, rfl, rfl, rfl⟩, rfl⟩

theorem migrateExplorerFile_sameTransfers {tabId explorerId documentId : Identity} {mode : FileMode}
    {retainedViews : List FileView}
    (h : state.migrateExplorerFile tabId explorerId documentId mode retainedViews = .ok state') :
    state.layout.SameTransfers state'.layout := by
  obtain ⟨⟨pane, tab⟩, -, hrun⟩ := bind_eq_ok.mp h
  obtain ⟨-, hrun⟩ := check_eq_ok.mp hrun
  obtain ⟨-, hrun⟩ := check_eq_ok.mp hrun
  obtain ⟨_, -, hrun⟩ := bind_eq_ok.mp hrun
  obtain ⟨index, -, hrun⟩ := bind_eq_ok.mp hrun
  obtain ⟨stored, -, hrun⟩ := bind_eq_ok.mp hrun
  obtain rfl := ok.inj hrun
  exact .refl _

theorem run_transfers (hs : state.Sound) (h : state.run action = .ok state')
    {transfer' : Transfer} (hmem : transfer' ∈ state'.layout.transfers) :
    (∃ transfer ∈ state.layout.transfers, transfer.Follows action state.window.id transfer') ∨
      transfer'.Begins action state.window := by
  have hsame : ∀ transfers : List Transfer, transfers = state.layout.transfers → transfer' ∈ transfers →
      (∃ transfer ∈ state.layout.transfers, transfer.Follows action state.window.id transfer') ∨
        transfer'.Begins action state.window := by
    rintro _ rfl hmem
    exact .inl ⟨transfer', hmem, .inl rfl⟩
  cases action with
  | openConversation expected view paneId newPaneId splitId => exact hsame _ (openConversation_sameTransfers h).transfers hmem
  | «open» tab replacePreviewTabId target => exact hsame _ (open_sameTransfers h).transfers hmem
  | migrateCodeFiles tabId codeId views => exact hsame _ (migrateCodeFiles_sameTransfers h).transfers hmem
  | migrateExplorerFile tabId explorerId documentId mode retainedViews =>
    exact hsame _ (migrateExplorerFile_sameTransfers h).transfers hmem
  | replaceAttachment rendererId =>
    rcases State.replaceAttachment_eq_ok h with rfl | ⟨-, -, rfl⟩ | ⟨hlayout, -⟩
    · exact hsame _ rfl hmem
    · exact hsame _ rfl hmem
    · rw [hlayout] at hmem
      exact hsame _ rfl (mem_of_mem_filter hmem)
  | prepareReturn transferId paneId tabId destinationPaneId splitId =>
    obtain ⟨pane, selected, transfer, destination, destinationPane, hpane, hselected, -, hprepared, rfl⟩ :=
      State.prepareReturn_eq_ok h
    rcases mem_append.mp hmem with hmem | hmem
    · exact hsame _ rfl hmem
    · obtain rfl := mem_singleton.mp hmem
      exact .inr (begins_of_prepared rfl hpane hselected hprepared)
  | prepareDetach transferId paneId tabId destinationWindowId destinationPaneId =>
    obtain ⟨pane, selected, transfer, hpane, hselected, -, -, hprepared, rfl⟩ := State.prepareDetach_eq_ok h
    rcases mem_append.mp hmem with hmem | hmem
    · exact hsame _ rfl hmem
    · obtain rfl := mem_singleton.mp hmem
      exact .inr (begins_of_prepared rfl hpane hselected hprepared)
  | transferReady transferId =>
    obtain ⟨transfer, hfind, hrun⟩ := bind_eq_ok.mp h
    have hfound := orMissing_eq_ok.mp hfind
    have htransfer := mem_of_find?_eq_some hfound
    have hid : transfer.id = transferId := by simpa using find?_some hfound
    split at hrun
    · simp at hrun
    next hdestination =>
    rw [ne_eq, not_not] at hdestination
    obtain rfl := ok.inj hrun
    refine .inl ?_
    have hkey : (if transfer.phase = .preparing then { transfer with phase := .destinationReady } else transfer).id = transfer.id := by
      split <;> rfl
    have hput := mem_put (by rw [hkey, hid]; exact hfound) hmem
    rcases hput with rfl | hkept
    · refine ⟨transfer, htransfer, ?_⟩
      split
      · next hphase => exact .inr (.inl ⟨by rw [hid], hdestination, hphase, rfl⟩)
      · exact .inl rfl
    · exact ⟨transfer', hkept, .inl rfl⟩
  | transferStateReady transferId =>
    obtain ⟨transfer, hfind, hrun⟩ := bind_eq_ok.mp h
    have hfound := orMissing_eq_ok.mp hfind
    have htransfer := mem_of_find?_eq_some hfound
    have hid : transfer.id = transferId := by simpa using find?_some hfound
    split at hrun
    · simp at hrun
    next hdestination =>
    rw [ne_eq, not_not] at hdestination
    obtain ⟨hphase, hrun⟩ := check_eq_ok.mp hrun
    obtain rfl := ok.inj hrun
    refine .inl ?_
    have hput := mem_put (a := { transfer with phase := .stateReady }) (by rw [← hid] at hfound; exact hfound) hmem
    rcases hput with rfl | hkept
    · exact ⟨transfer, htransfer, .inr (.inr ⟨by rw [hid], hdestination, hphase, rfl⟩)⟩
    · exact ⟨transfer', hkept, .inl rfl⟩
  | commitTransfer transferId =>
    obtain ⟨transfer, -, -, -, -, source, -, -, destination, -, -, window', destination', moved, -, -, -, -, rfl⟩ :=
      State.commit_eq_ok hs h
    refine hsame _ rfl ?_
    have hkept := mem_of_mem_filter hmem
    rwa [(storeWindow_sameTransfers _ _).transfers] at hkept
  | cancelTransfer transferId =>
    obtain ⟨transfer, -, hrun⟩ := bind_eq_ok.mp h
    split at hrun
    · simp at hrun
    · obtain rfl := ok.inj hrun
      refine hsame _ rfl ?_
      have hkept := mem_of_mem_filter hmem
      split at hkept
      · exact hkept
      · exact hkept
  | _ =>
    rw [State.run] at h
    exact hsame _ (edit_sameTransfers h).transfers hmem

theorem run_sameScope (hs : state.Sound) (h : state.run action = .ok state') : state.layout.SameScope state'.layout := by
  cases action with
  | openConversation expected view paneId newPaneId splitId => exact (openConversation_sameTransfers h).toSameScope
  | «open» tab replacePreviewTabId target => exact (open_sameTransfers h).toSameScope
  | migrateCodeFiles tabId codeId views => exact (migrateCodeFiles_sameTransfers h).toSameScope
  | migrateExplorerFile tabId explorerId documentId mode retainedViews =>
    exact (migrateExplorerFile_sameTransfers h).toSameScope
  | replaceAttachment rendererId =>
    rcases State.replaceAttachment_eq_ok h with rfl | ⟨-, -, rfl⟩ | ⟨hlayout, -⟩
    · exact (Layout.SameTransfers.refl _).toSameScope
    · exact (Layout.SameTransfers.refl _).toSameScope
    · rw [hlayout]
      exact ⟨rfl, rfl, rfl, rfl, rfl⟩
  | prepareReturn transferId paneId tabId destinationPaneId splitId =>
    obtain ⟨pane, selected, transfer, destination, destinationPane, -, -, -, -, rfl⟩ := State.prepareReturn_eq_ok h
    exact ⟨rfl, rfl, rfl, rfl, rfl⟩
  | prepareDetach transferId paneId tabId destinationWindowId destinationPaneId =>
    obtain ⟨pane, selected, transfer, -, -, -, -, -, rfl⟩ := State.prepareDetach_eq_ok h
    exact ⟨rfl, rfl, rfl, rfl, rfl⟩
  | transferReady transferId =>
    obtain ⟨transfer, -, hrun⟩ := bind_eq_ok.mp h
    split at hrun
    · simp at hrun
    · obtain rfl := ok.inj hrun
      exact ⟨rfl, rfl, rfl, rfl, rfl⟩
  | transferStateReady transferId =>
    obtain ⟨transfer, -, hrun⟩ := bind_eq_ok.mp h
    split at hrun
    · simp at hrun
    · obtain ⟨-, hrun⟩ := check_eq_ok.mp hrun
      obtain rfl := ok.inj hrun
      exact ⟨rfl, rfl, rfl, rfl, rfl⟩
  | commitTransfer transferId =>
    obtain ⟨transfer, -, -, -, -, source, -, -, destination, -, -, window', destination', moved, -, -, -, -, rfl⟩ :=
      State.commit_eq_ok hs h
    have hstore := storeWindow_sameTransfers { state with window := window', focusWindow := some destination'.id } destination'
    exact ⟨hstore.version, hstore.id, hstore.projectId, hstore.revision, hstore.mainWindowId⟩
  | cancelTransfer transferId =>
    obtain ⟨transfer, -, hrun⟩ := bind_eq_ok.mp h
    split at hrun
    · simp at hrun
    · obtain rfl := ok.inj hrun
      cases transfer.returning with
      | true => exact ⟨rfl, rfl, rfl, rfl, rfl⟩
      | false => exact ⟨rfl, rfl, rfl, rfl, rfl⟩
  | _ =>
    rw [State.run] at h
    exact (edit_sameTransfers h).toSameScope

/-! ## Runs -/

inductive Runs (initial : Layout) : List (Layout × Command) → Layout → Prop
  | start : Runs initial [] initial
  | step {trace : List (Layout × Command)} {layout : Layout} {command : Command} {result : CommandResult} :
    Runs initial trace layout → apply layout command = .ok result → Runs initial (trace ++ [(layout, command)]) result.layout

def applyAll (layout : Layout) : List Command → Except Failure Layout
  | [] => .ok layout
  | command :: commands => do
    let result ← apply layout command
    applyAll result.layout commands

theorem Runs.applyAll {initial final : Layout} {commands : List Command}
    (hruns : Runs initial trace layout) (h : applyAll layout commands = .ok final) :
    ∃ more, more.map Prod.snd = commands ∧ Runs initial (trace ++ more) final := by
  induction commands generalizing layout trace with
  | nil =>
    obtain rfl := ok.inj h
    exact ⟨[], rfl, by simpa using hruns⟩
  | cons command commands ih =>
    obtain ⟨result, hresult, hrest⟩ := bind_eq_ok.mp h
    obtain ⟨more, hmore, hruns'⟩ := ih (hruns.step hresult) hrest
    exact ⟨(layout, command) :: more, by rw [map_cons, hmore], by simpa using hruns'⟩

structure Transfer.PreparedBy (transfer : Transfer) (step : Layout × Command) : Prop where
  action : step.2.action.prepares = some transfer.id
  window : step.2.windowId = transfer.sourceWindowId
  generation : step.2.attachmentGeneration = transfer.sourceGeneration
  views : ∃ window ∈ step.1.windows, window.id = transfer.sourceWindowId ∧
    ∃ pane ∈ window.panes, pane.id = transfer.sourcePaneId ∧ ∀ id ∈ transfer.tabIds, id ∈ pane.viewIds

/-- The step acknowledges the transfer, in its destination window at the recorded generation. -/
structure Transfer.AcknowledgedBy (transfer : Transfer) (action : Identity → Action) (step : Layout × Command) : Prop where
  action : step.2.action = action transfer.id
  window : step.2.windowId = transfer.destinationWindowId
  generation : step.2.attachmentGeneration = transfer.destinationGeneration

def Transfer.Acknowledged (transfer : Transfer) (steps : List (Layout × Command)) : Prop :=
  match transfer.phase with
  | .preparing => True
  | .destinationReady => ∃ early ready late, steps = early ++ ready :: late ∧ transfer.AcknowledgedBy .transferReady ready
  | .stateReady => ∃ early ready middle restored late, steps = early ++ ready :: (middle ++ restored :: late) ∧
      transfer.AcknowledgedBy .transferReady ready ∧ transfer.AcknowledgedBy .transferStateReady restored

/-- The transfer was prepared in the run, is pending ever since and was acknowledged as its phase says. -/
def Transfer.Standing (transfer : Transfer) (trace : List (Layout × Command)) : Prop :=
  ∃ before prepared steps, trace = before ++ prepared :: steps ∧ transfer.PreparedBy prepared ∧
    (∀ step ∈ steps, ∃ phase, { transfer with phase } ∈ step.1.transfers) ∧ transfer.Acknowledged steps

theorem Transfer.Acknowledged.append {steps : List (Layout × Command)} (h : transfer.Acknowledged steps)
    (step : Layout × Command) : transfer.Acknowledged (steps ++ [step]) := by
  unfold Transfer.Acknowledged at h ⊢
  cases hphase : transfer.phase with
  | preparing => trivial
  | destinationReady =>
    rw [hphase] at h
    obtain ⟨early, ready, late, rfl, hready⟩ := h
    exact ⟨early, ready, late ++ [step], by simp, hready⟩
  | stateReady =>
    rw [hphase] at h
    obtain ⟨early, ready, middle, restored, late, rfl, hready, hrestored⟩ := h
    exact ⟨early, ready, middle, restored, late ++ [step], by simp, hready, hrestored⟩

theorem Transfer.Standing.follow {transfer' : Transfer} (h : transfer.Standing trace) (hpending : transfer ∈ layout.transfers)
    (hgeneration : command.windowId = transfer.destinationWindowId →
      command.attachmentGeneration = transfer.destinationGeneration)
    (hfollows : transfer.Follows command.action command.windowId transfer') :
    transfer'.Standing (trace ++ [(layout, command)]) := by
  obtain ⟨before, prepared, steps, rfl, hprepared, hsteps, hacknowledged⟩ := h
  have hsteps' : ∀ step ∈ steps ++ [(layout, command)], ∃ phase, { transfer with phase } ∈ step.1.transfers := by
    intro step hstep
    rcases mem_append.mp hstep with hstep | hstep
    · exact hsteps step hstep
    · obtain rfl := mem_singleton.mp hstep
      exact ⟨transfer.phase, hpending⟩
  rcases hfollows with rfl | ⟨haction, hwindow, hphase, rfl⟩ | ⟨haction, hwindow, hphase, rfl⟩
  · exact ⟨before, prepared, _, by simp, hprepared, hsteps', hacknowledged.append _⟩
  · refine ⟨before, prepared, steps ++ [(layout, command)], by simp,
      ⟨hprepared.action, hprepared.window, hprepared.generation, hprepared.views⟩, hsteps', ?_⟩
    exact ⟨steps, (layout, command), [], rfl, haction, hwindow.symm, hgeneration hwindow.symm⟩
  · refine ⟨before, prepared, steps ++ [(layout, command)], by simp,
      ⟨hprepared.action, hprepared.window, hprepared.generation, hprepared.views⟩, hsteps', ?_⟩
    obtain ⟨early, ready, late, hsplit, hready⟩ : ∃ early ready late, steps = early ++ ready :: late ∧
        transfer.AcknowledgedBy .transferReady ready := by
      unfold Transfer.Acknowledged at hacknowledged
      cases hp : transfer.phase with
      | preparing => exact absurd hp hphase
      | destinationReady =>
        rw [hp] at hacknowledged
        exact hacknowledged
      | stateReady =>
        rw [hp] at hacknowledged
        obtain ⟨early, ready, middle, restored, late, hsplit, hready, -⟩ := hacknowledged
        exact ⟨early, ready, _, hsplit, hready⟩
    exact ⟨early, ready, late, (layout, command), [], by simp [hsplit],
      ⟨hready.action, hready.window, hready.generation⟩, haction, hwindow.symm, hgeneration hwindow.symm⟩

theorem Runs.standing {initial : Layout} (hnone : initial.transfers = [])
    (h : Runs initial trace layout) : ∀ transfer ∈ layout.transfers, transfer.Standing trace := by
  induction h with
  | start =>
    rw [hnone]
    exact fun transfer ht => absurd ht (not_mem_nil)
  | @step trace layout command result hruns happly ih =>
    intro transfer' hmem
    obtain ⟨-, howned, state, state', hstate, hrun, hlayout, -, -, -⟩ := apply_eq_ok happly
    obtain ⟨hs, -⟩ := precheck_sound howned hstate
    obtain ⟨-, -, -, window, hfind, hgeneration, -, hinit⟩ := precheck_eq_ok hstate
    rw [hlayout] at hmem
    have hwindowId : window.id = command.windowId := by simpa using find?_some hfind
    obtain ⟨w, hw, hwid, -, -, -, hwgeneration⟩ := mem_migrated (mem_of_find?_eq_some hfind)
    rcases run_transfers hs hrun hmem with ⟨transfer, htransfer, hfollows⟩ | hbegins
    · rw [hinit] at htransfer hfollows
      simp only [transfers_migrated] at htransfer
      refine (ih transfer htransfer).follow htransfer ?_ (hwindowId ▸ hfollows)
      intro hdestination
      obtain ⟨d, hd, hdgeneration, -⟩ := (howned.transfers transfer htransfer).destination
      have hsame : d = w := by
        have hfound : layout.windows.find? (fun x => x.id = w.id) = some w := find?_eq_of_mem howned.windowIds hw
        rw [← hwid, hwindowId, hdestination] at hfound
        exact Option.some.inj (hd.symm.trans hfound)
      rw [hgeneration, hwgeneration, ← hsame, hdgeneration]
    · rw [hinit] at hbegins
      refine ⟨trace, (layout, command), [], rfl, ⟨hbegins.prepares, ?_, ?_, ?_⟩, by simp, ?_⟩
      · rw [hbegins.source, hwindowId]
      · rw [hbegins.generation, hgeneration]
      · obtain ⟨pane, hpane, hid, hviews⟩ := hbegins.views
        obtain ⟨v, hv, hvid, p, hp, hpid, hpviews⟩ := mem_views_migrated (mem_of_find?_eq_some hfind) hpane
        refine ⟨v, hv, hvid.trans hbegins.source.symm, p, hp, hpid.trans hid, ?_⟩
        intro id hmemId
        rw [Pane.viewIds, hpviews]
        exact hviews id hmemId
      · unfold Transfer.Acknowledged
        rw [hbegins.phase]
        trivial

/-! ## Cancelling and replacing an attachment -/

def Window.contents (window : Window) : List (Identity × List Tab) := window.panes.map fun p => (p.id, paneViews p)

structure Untouched (windows windows' : List Window) : Prop where
  stays : ∀ window ∈ windows, window.panes = [] ∨
    ∃ window' ∈ windows', window'.id = window.id ∧ window'.contents = window.contents
  came : ∀ window' ∈ windows', ∃ window ∈ windows, window'.id = window.id ∧ window'.contents = window.contents

theorem Untouched.of_filter {keep : Identity → Bool}
    (h : ∀ w ∈ windows, keep w.id = false → w.panes = []) : Untouched windows (windows.filter fun w => keep w.id) := by
  refine ⟨fun w hw => ?_, fun w hw => ⟨w, mem_of_mem_filter hw, rfl, rfl⟩⟩
  cases hkeep : keep w.id with
  | false => exact .inl (h w hw hkeep)
  | true => exact .inr ⟨w, mem_filter.mpr ⟨hw, hkeep⟩, rfl, rfl⟩

theorem Untouched.trans {windows' windows'' : List Window} (h : Untouched windows windows')
    (h' : Untouched windows' windows'') : Untouched windows windows'' := by
  have hempty : ∀ w w' : Window, w'.contents = w.contents → w'.panes = [] → w.panes = [] := by
    intro w w' hcontents hpanes
    rw [Window.contents, Window.contents, hpanes] at hcontents
    simpa using hcontents.symm
  refine ⟨fun w hw => ?_, fun w'' hw'' => ?_⟩
  · rcases h.stays w hw with hpanes | ⟨w', hw', hid, hcontents⟩
    · exact .inl hpanes
    · rcases h'.stays w' hw' with hpanes | ⟨w'', hw'', hid', hcontents'⟩
      · exact .inl (hempty w w' hcontents hpanes)
      · exact .inr ⟨w'', hw'', hid'.trans hid, hcontents'.trans hcontents⟩
  · obtain ⟨w', hw', hid', hcontents'⟩ := h'.came w'' hw''
    obtain ⟨w, hw, hid, hcontents⟩ := h.came w' hw'
    exact ⟨w, hw, hid'.trans hid, hcontents'.trans hcontents⟩

theorem Untouched.of_map {f g : Window → Window}
    (h : ∀ w, (g w).id = (f w).id ∧ (g w).contents = (f w).contents) : Untouched (windows.map f) (windows.map g) := by
  refine ⟨fun w hw => ?_, fun w hw => ?_⟩
  · obtain ⟨v, hv, rfl⟩ := List.mem_map.mp hw
    exact .inr ⟨g v, List.mem_map_of_mem hv, h v⟩
  · obtain ⟨v, hv, rfl⟩ := List.mem_map.mp hw
    exact ⟨f v, List.mem_map_of_mem hv, h v⟩

theorem untouched_finish (version : Version) (windows : List Window) : Untouched windows (windows.map (Window.finish version)) := by
  have hmap := @Untouched.of_map windows id (Window.finish version) fun w => ?_
  · rwa [List.map_id] at hmap
  · refine ⟨?_, ?_⟩
    · unfold Window.finish
      split <;> rfl
    · rw [Window.contents, panes_finish, List.map_map]
      refine map_congr_left fun p _ => ?_
      rw [Function.comp_apply, id_settlePane]
      unfold settlePane
      split
      · rw [paneViews_normalizePane]
      · rfl

theorem cancelTransfer_untouched {transferId : Identity} (hs : state.Sound)
    (h : state.cancelTransfer transferId = .ok state') : Untouched state.windows state'.windows := by
  obtain ⟨transfer, hfind, hrun⟩ := bind_eq_ok.mp h
  have hmem : transfer ∈ state.layout.transfers := mem_of_find?_eq_some (orMissing_eq_ok.mp hfind)
  split at hrun
  · simp at hrun
  · obtain rfl := ok.inj hrun
    cases hreturning : transfer.returning with
    | true => exact @Untouched.of_map state.layout.windows _ _ fun w => ⟨rfl, rfl⟩
    | false =>
      have hfilter : Untouched state.windows (state.windows.filter fun w => decide (w.id ≠ transfer.destinationWindowId)) :=
        @Untouched.of_filter state.windows (fun id => decide (id ≠ transfer.destinationWindowId)) fun w hw hp =>
          hs.staged transfer hmem hreturning w hw (by simpa using hp)
      rw [← State.windows_retire] at hfilter
      exact hfilter

theorem replaceAttachment_untouched {rendererId : Identity} (hs : state.Sound)
    (h : state.replaceAttachment rendererId = .ok state') : Untouched state.windows state'.windows := by
  -- the current window under another attachment
  have hattached : ∀ (window : Window) (windows : List Window), window.id = state.window.id →
      window.panes = state.window.panes →
      Untouched (windows.map fun w => if w.id = state.window.id then state.window else w)
        (windows.map fun w => if w.id = window.id then window else w) := by
    intro window windows hid hpanes
    refine Untouched.of_map fun w => ?_
    rw [hid]
    split
    · exact ⟨hid, by rw [Window.contents, hpanes]; rfl⟩
    · exact ⟨rfl, rfl⟩
  rcases State.replaceAttachment_eq_ok h with rfl | ⟨-, -, rfl⟩ | ⟨hlayout, hwindow⟩
  · exact @Untouched.of_map state'.layout.windows _ _ fun w => ⟨rfl, rfl⟩
  · exact hattached { state.window with rendererId := some rendererId } _ rfl rfl
  · have hfilter : Untouched state.windows (state.windows.filter fun w => state.survives w.id) := by
      refine Untouched.of_filter fun w hw hp => ?_
      simp only [State.survives, Bool.not_eq_false', List.any_eq_true, Bool.and_eq_true, decide_eq_true_eq,
        Bool.not_eq_true'] at hp
      obtain ⟨t, ht, hreturning, hid⟩ := hp
      exact hs.staged t (mem_of_mem_filter ht) hreturning w hw hid
    rw [← State.windows_filter] at hfilter
    refine hfilter.trans ?_
    unfold State.windows
    rw [hlayout, hwindow]
    exact hattached { state.window with
      attachmentGeneration := state.window.attachmentGeneration + 1
      rendererId := some rendererId } _ rfl rfl

theorem apply_untouched (h : apply layout command = .ok result)
    (haction : (∃ transferId, command.action = .cancelTransfer transferId) ∨
      ∃ rendererId, command.action = .replaceAttachment rendererId) : Untouched layout.windows result.layout.windows := by
  obtain ⟨-, howned, state, state', hstate, hrun, hlayout, -, -, -⟩ := apply_eq_ok h
  obtain ⟨hs, -⟩ := precheck_sound howned hstate
  obtain ⟨-, -, -, window, hfind, -, -, hinit⟩ := precheck_eq_ok hstate
  have hmigrated : migrated layout command.action = layout := by
    rcases haction with ⟨_, ha⟩ | ⟨_, ha⟩
    · rw [ha]; rfl
    · rw [ha]; rfl
  have hwindows : state.windows = layout.windows := by
    rw [hs.windows_eq, hinit]
    dsimp only
    rw [hmigrated] at hfind ⊢
    have hid : window.id = command.windowId := by simpa using find?_some hfind
    refine put_self_of_find? (k := window.id) ?_
    rw [hid]
    exact hfind
  have hran : Untouched state.windows state'.windows := by
    rcases haction with ⟨_, ha⟩ | ⟨_, ha⟩
    · rw [ha] at hrun
      exact cancelTransfer_untouched hs hrun
    · rw [ha] at hrun
      exact replaceAttachment_untouched hs hrun
  rw [hwindows] at hran
  rw [hlayout]
  exact hran.trans (untouched_finish _ _)

/-! ## Committing -/

theorem apply_commit (h : apply layout command = .ok result) (hpending : transfer ∈ layout.transfers)
    (haction : command.action = .commitTransfer transfer.id) (hid : id ∈ transfer.tabIds) :
    (∃ window ∈ layout.windows, window.id = transfer.sourceWindowId ∧
      ∃ pane ∈ window.panes, pane.id = transfer.sourcePaneId ∧ id ∈ pane.viewIds) ∧
    result.layout.viewIds.count id = 1 ∧ result.layout.Holds transfer.destinationWindowId id := by
  obtain ⟨-, howned, state, state', hstate, hrun, hlayout, howned', -, -⟩ := apply_eq_ok h
  obtain ⟨hs, -⟩ := precheck_sound howned hstate
  obtain ⟨-, -, -, window, hfind, -, -, hinit⟩ := precheck_eq_ok hstate
  have hfinish : placed result.layout.windows = placed state'.windows := by
    rw [hlayout]
    exact placed_finish _ _
  rw [haction] at hrun
  obtain ⟨t, ht, htid, hsource, -, source, hsourceMem, hsourceId, -, -, -, -, -, moved, -, -, hle, hlisted, -⟩ :=
    State.commit_eq_ok hs hrun
  obtain ⟨t', ht', ht'id, -, -, moved', hlisted', hmoved'⟩ := State.commit_placed hs hrun
  -- the transfers the two lemmas speak of are the pending one
  have hone : ∀ t ∈ state.layout.transfers, t.id = transfer.id → t = transfer := by
    intro t ht he
    rw [hinit] at ht
    simp only [transfers_migrated] at ht
    exact inj_on_of_nodup_map howned.transferIds ht hpending he
  obtain rfl := hone t ht htid
  obtain rfl := hone t' ht' ht'id
  have hafter : result.layout.Holds t'.destinationWindowId id := by
    rw [← Multiset.mem_coe, ← hlisted'] at hid
    obtain ⟨card, hcard, rfl⟩ := Multiset.mem_map.mp hid
    refine holds_iff.mpr ⟨card.2, ?_⟩
    rw [hfinish]
    have hin : (t'.destinationWindowId, card) ∈ placed state'.windows + moved'.map (Prod.mk t'.sourceWindowId) := by
      rw [hmoved']
      exact Multiset.mem_add.mpr (.inr (Multiset.mem_map_of_mem _ hcard))
    rcases Multiset.mem_add.mp hin with hin | hin
    · exact hin
    · obtain ⟨_, -, he⟩ := Multiset.mem_map.mp hin
      exact absurd (congrArg Prod.fst he) (hs.ends t' ht')
  refine ⟨?_, ?_, hafter⟩
  · rw [hinit] at hsourceMem hsource
    obtain ⟨w, hw, hwid, p, hp, hpid, hviews⟩ := mem_views_migrated (mem_of_find?_eq_some hfind) hsourceMem
    refine ⟨w, hw, hwid.trans hsource.symm, p, hp, hpid.trans hsourceId, ?_⟩
    rw [← Multiset.mem_coe, ← hlisted] at hid
    obtain ⟨card, hcard, rfl⟩ := Multiset.mem_map.mp hid
    have hcards := Multiset.mem_of_le hle hcard
    rw [Pane.cards, Multiset.mem_coe] at hcards
    obtain ⟨tab, htab, rfl⟩ := List.mem_map.mp hcards
    rw [Pane.viewIds, hviews]
    exact List.mem_map_of_mem htab
  · refine count_eq_one_of_mem howned'.viewIds ?_
    obtain ⟨w, hw, -, hview⟩ := hafter
    exact mem_flatMap.mpr ⟨w, hw, hview⟩

/-! ## The protocol -/

/-- Every accepted step of every run that begins without pending transfers keeps to the protocol. -/
theorem transfer_protocol {initial layout : Layout} {trace : List (Layout × Command)} {command : Command}
    {result : CommandResult} (hnone : initial.transfers = []) (hruns : Runs initial trace layout)
    (h : apply layout command = .ok result) :
    (∀ id w w', layout.Holds w id → result.layout.Holds w' id → w ≠ w' →
      ∃ transfer ∈ layout.transfers, id ∈ transfer.tabIds ∧ w = transfer.sourceWindowId ∧
        w' = transfer.destinationWindowId ∧ command.action = .commitTransfer transfer.id ∧
        command.windowId = transfer.sourceWindowId ∧ command.attachmentGeneration = transfer.sourceGeneration ∧
        transfer.phase = .stateReady ∧ transfer.Standing trace) ∧
    (∀ transfer ∈ layout.transfers, command.action = .commitTransfer transfer.id → ∀ id ∈ transfer.tabIds,
      (∃ window ∈ layout.windows, window.id = transfer.sourceWindowId ∧
        ∃ pane ∈ window.panes, pane.id = transfer.sourcePaneId ∧ id ∈ pane.viewIds) ∧
      result.layout.viewIds.count id = 1 ∧ result.layout.Holds transfer.destinationWindowId id) ∧
    (layout.transfers.flatMap (·.tabIds)).Nodup ∧ (result.layout.transfers.flatMap (·.tabIds)).Nodup ∧
    ((∃ transferId, command.action = .cancelTransfer transferId) ∨
      (∃ rendererId, command.action = .replaceAttachment rendererId) →
      Untouched layout.windows result.layout.windows) := by
  obtain ⟨-, howned, state, state', hstate, -, -, howned', -, -⟩ := apply_eq_ok h
  obtain ⟨-, -, -, window, hfind, hgeneration, -, -⟩ := precheck_eq_ok hstate
  refine ⟨?_, fun transfer ht ha id hid => apply_commit h ht ha hid, howned.reservedTabs, howned'.reservedTabs,
    apply_untouched h⟩
  intro id w w' hbefore hafter hne
  obtain ⟨transfer, ht, haction, hwindow, hphase, hid, hw, hw'⟩ := apply_holds h hbefore hafter hne
  refine ⟨transfer, ht, hid, hw, hw', haction, hwindow, ?_, hphase, hruns.standing hnone transfer ht⟩
  obtain ⟨v, hv, hvid, -, -, -, hvgeneration⟩ := mem_migrated (mem_of_find?_eq_some hfind)
  obtain ⟨s, hsource, hsgeneration⟩ := (howned.transfers transfer ht).source
  have hsame : s = v := by
    have hfound : layout.windows.find? (fun x => x.id = v.id) = some v := find?_eq_of_mem howned.windowIds hv
    have hid : window.id = command.windowId := by simpa using find?_some hfind
    rw [← hvid, hid, hwindow] at hfound
    exact Option.some.inj (hsource.symm.trans hfound)
  rw [hgeneration, hvgeneration, ← hsame, hsgeneration]

/-! ### The Explorer view of a layout detached -/

/-- A command of the main window `5` or of the window `31` of a detached view. -/
def windowCommand (windowId : UInt16) (revision : Nat) (action : Action) : Command :=
  { operationId := named 8, workspaceId := named 6, projectId := named 7, windowId := named windowId,
    attachmentGeneration := 0, expectedRevision := revision, action }

/-- The view `1` of the pane `4` is to go to the pane `32` of the window `31`. -/
def detachment : Command :=
  windowCommand 5 0 (.prepareDetach (named 30) (named 4) (some (named 1)) (named 31) (named 32))

def acknowledgements : List Command :=
  [windowCommand 31 1 (.transferReady (named 30)), windowCommand 31 2 (.transferStateReady (named 30))]

/-- The listed view goes to a pane of its own while its transfer is pending. -/
theorem listed_view_moved : explorerLayout.transfers = [] ∧ ∃ trace layout, Runs explorerLayout trace layout ∧
    (∀ step ∈ trace, step.2.action.commits = false) ∧ ∃ transfer ∈ layout.transfers, ∃ id ∈ transfer.tabIds,
      ¬∃ window ∈ layout.windows, window.id = transfer.sourceWindowId ∧
        ∃ pane ∈ window.panes, pane.id = transfer.sourcePaneId ∧ id ∈ pane.viewIds := by
  let commands := [detachment, windowCommand 5 1 (.moveNewPane (named 1) (named 33) .right 0 (named 34))]
  have hdone : (applyAll explorerLayout commands).toOption.any (fun layout => layout.transfers.any fun transfer =>
      transfer.tabIds.any fun id => !decide (∃ window ∈ layout.windows, window.id = transfer.sourceWindowId ∧
        ∃ pane ∈ window.panes, pane.id = transfer.sourcePaneId ∧ id ∈ pane.viewIds)) = true := by decide
  cases hresult : applyAll explorerLayout commands with
  | error e => simp [hresult, Except.toOption] at hdone
  | ok layout =>
    obtain ⟨trace, htrace, hruns⟩ := Runs.start.applyAll hresult
    refine ⟨rfl, trace, layout, hruns, ?_, ?_⟩
    · intro step hstep
      have hmem : step.2 ∈ commands := htrace ▸ List.mem_map_of_mem hstep
      revert hmem
      generalize step.2 = command
      revert command
      decide
    · rw [hresult] at hdone
      simpa [Except.toOption] using hdone

theorem transfer_protocol_detached : explorerLayout.transfers = [] ∧ ∃ trace layout result,
    Runs explorerLayout trace layout ∧ apply layout (windowCommand 5 3 (.commitTransfer (named 30))) = .ok result ∧
      result.layout.Holds (named 31) (named 1) := by
  have hdone : (applyAll explorerLayout (detachment :: acknowledgements)).toOption.any (fun layout =>
      (apply layout (windowCommand 5 3 (.commitTransfer (named 30)))).isOk && layout.transfers.any fun transfer =>
        transfer.id = named 30 && transfer.tabIds.contains (named 1) && transfer.destinationWindowId = named 31) = true := by
    decide
  cases hlayout : applyAll explorerLayout (detachment :: acknowledgements) with
  | error e => simp [hlayout, Except.toOption] at hdone
  | ok layout =>
    obtain ⟨trace, -, hruns⟩ := Runs.start.applyAll hlayout
    rw [hlayout] at hdone
    simp only [Except.toOption, Option.any_some, Bool.and_eq_true, List.any_eq_true, decide_eq_true_eq,
      contains_iff_mem] at hdone
    obtain ⟨hok, transfer, htransfer, ⟨hid, hlisted⟩, hdestination⟩ := hdone
    cases hresult : apply layout (windowCommand 5 3 (.commitTransfer (named 30))) with
    | error e => simp [hresult, Except.isOk, Except.toBool] at hok
    | ok result =>
      have hprotocol := (transfer_protocol rfl hruns hresult).2.1 transfer htransfer (by rw [hid]; rfl) (named 1) hlisted
      exact ⟨rfl, trace, layout, result, hruns, hresult, hdestination ▸ hprotocol.2.2⟩

end Cantrip.Workspace
