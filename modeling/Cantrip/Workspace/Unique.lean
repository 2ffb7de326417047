import Cantrip.Workspace.Handover

/-!
# One view per resource

Opening looks for the resource in every window first; the migration of Code views refuses documents that are open.
The migration of an Explorer view compares its documents only with each other, so it keeps resources unique
exactly when none of its documents is open.
-/

namespace Cantrip.Workspace

open Lib List Except

theorem sameResource_iff {a b : Tab} : sameResource a b = true ↔ a.resource = b.resource := by
  unfold sameResource
  split
  · next ha hb => simp [ha, hb]
  · next ha hb => simp [ha, hb]
  · next hbuiltin hentity =>
    cases ha : a.resource with
    | entity d r =>
      cases hb : b.resource with
      | entity d' r' => exact absurd hb (hentity _ _ _ _ ha)
      | builtin d' => simp
    | builtin d =>
      cases hb : b.resource with
      | entity d' r' => simp
      | builtin d' => exact absurd hb (hbuiltin _ _ ha)

def Layout.views (layout : Layout) : List Tab := layout.windows.flatMap fun w => w.panes.flatMap paneViews

def Layout.NoDuplicates (layout : Layout) : Prop := layout.views.Pairwise fun a b => sameResource a b = false

instance (layout : Layout) : Decidable layout.NoDuplicates :=
  inferInstanceAs (Decidable (layout.views.Pairwise fun a b => sameResource a b = false))

/-! ## Views as cards -/

variable {action : Action} {paneId tabId : Identity} {layout : Layout} {windows windows' : List Window}
  {lost : Multiset Card} {pane : Pane} {state state' : State} {tab view : Tab} {owner window : Window}

theorem mem_cards {card : Card} : card ∈ window.cards ↔ ∃ pane ∈ window.panes, ∃ tab ∈ paneViews pane, tab.card = card := by
  unfold Window.cards
  induction window.panes with
  | nil => simp
  | cons pane panes ih =>
    rw [map_cons, sum_cons, Multiset.mem_add, ih]
    simp [Pane.cards]

theorem mem_allCards {card : Card} :
    card ∈ allCards windows ↔ ∃ w ∈ windows, ∃ pane ∈ w.panes, ∃ tab ∈ paneViews pane, tab.card = card := by
  rw [allCards_eq]
  induction windows with
  | nil => simp
  | cons w ws ih =>
    rw [map_cons, sum_cons, Multiset.mem_add, ih, mem_cards]
    simp

theorem allCards_eq_views (windows : List Window) :
    allCards windows = ↑((windows.flatMap fun w => w.panes.flatMap paneViews).map Tab.card) := by
  have hpanes : ∀ panes : List Pane, (panes.map Pane.cards).sum = (↑((panes.flatMap paneViews).map Tab.card) : Multiset Card) := by
    intro panes
    induction panes with
    | nil => rfl
    | cons p ps ih =>
      rw [map_cons, sum_cons, ih, Pane.cards, Multiset.coe_add, ← map_append, flatMap_cons]
  rw [allCards_eq]
  induction windows with
  | nil => rfl
  | cons w ws ih =>
    rw [map_cons, sum_cons, ih, Window.cards, hpanes, Multiset.coe_add, ← map_append, flatMap_cons]

def resources (windows : List Window) : Multiset Resource := (allCards windows).map Prod.snd

theorem noDuplicates_iff (layout : Layout) : layout.NoDuplicates ↔ (resources layout.windows).Nodup := by
  unfold Layout.NoDuplicates resources
  rw [allCards_eq_views, Multiset.map_coe, Multiset.coe_nodup, map_map, List.Nodup, pairwise_map]
  refine List.Pairwise.iff fun a b => ?_
  rw [Bool.eq_false_iff, ne_eq, sameResource_iff]
  rfl

theorem findResource_eq_some (h : Server.findResource windows view = some (owner, pane, tab)) :
    owner ∈ windows ∧ pane ∈ owner.panes ∧ tab ∈ paneViews pane ∧ tab.resource = view.resource := by
  obtain ⟨w, hw, h⟩ := exists_of_findSome?_eq_some h
  obtain ⟨p, hp, h⟩ := exists_of_findSome?_eq_some h
  obtain ⟨t, ht, he⟩ := Option.map_eq_some_iff.mp h
  simp only [Prod.mk.injEq] at he
  obtain ⟨rfl, rfl, rfl⟩ := he
  have hsame := find?_some (p := fun tab => sameResource tab view) ht
  exact ⟨hw, hp, mem_of_find?_eq_some ht, sameResource_iff.mp hsame⟩

theorem findResource_eq_none (h : Server.findResource windows view = none) : view.resource ∉ resources windows := by
  intro hmem
  obtain ⟨card, hcard, hres⟩ := Multiset.mem_map.mp hmem
  obtain ⟨w, hw, pane, hpane, tab, htab, rfl⟩ := mem_allCards.mp hcard
  have hwindow := findSome?_eq_none_iff.mp h w hw
  have hnone := Option.map_eq_none_iff.mp (findSome?_eq_none_iff.mp hwindow pane hpane)
  exact absurd (sameResource_iff.mpr hres) (find?_eq_none.mp hnone tab htab)

/-! ## Focus -/

def Window.FocusedOn (window : Window) (paneId tabId : Identity) : Prop :=
  window.focusedPaneId = some paneId ∧ ∃ pane ∈ window.panes, pane.id = paneId ∧ selectedViewId pane = some tabId

theorem selectedViewId_focusPane (pane : Pane) (tabId : Option Identity) : selectedViewId (focusPane pane tabId) = tabId := by
  unfold focusPane
  split
  · rfl
  · unfold selectedViewId
    cases pane.selection <;> rfl

theorem focus_focusedOn {window' : Window} (h : focus window paneId (some tabId) = .ok window') :
    window'.FocusedOn paneId tabId := by
  obtain ⟨pane, hfind, hrun⟩ := bind_eq_ok.mp h
  rw [expect_eq_ok] at hfind
  obtain rfl := ok.inj hrun
  obtain ⟨hmem, hid⟩ := mem_of_findPane hfind
  have hpane : (focusPane pane (some tabId)).id = paneId := (id_focusPane pane _).trans hid
  have hin : (focusPane pane (some tabId)).id ∈ window.paneIds := by
    rw [id_focusPane]
    exact mem_map_of_mem hmem
  exact ⟨rfl, _, (mem_of_findPane (findPane_putPane hin)).1, hpane, selectedViewId_focusPane pane _⟩

theorem navigate_focusedOn {window' : Window}
    (h : navigate layout window paneId tabId = .ok window') : window'.FocusedOn paneId tabId := by
  obtain ⟨pane, -, hrun⟩ := bind_eq_ok.mp h
  obtain ⟨pane', -, hrun⟩ := bind_eq_ok.mp hrun
  exact focus_focusedOn hrun

theorem reopen_focusedOn {owner' : Window} {action : Tab}
    (h : Server.reopen layout action owner pane tab = .ok owner') : owner'.FocusedOn pane.id tab.id := by
  obtain ⟨tab', htab', hrun⟩ := bind_eq_ok.mp h
  obtain ⟨pane', hpane', hrun⟩ := bind_eq_ok.mp hrun
  obtain ⟨stored, -, hrun⟩ := bind_eq_ok.mp hrun
  have hid : tab'.id = tab.id := congrArg Prod.fst (Server.reopened_card htab')
  have hpane : pane'.id = pane.id := by
    unfold Server.storeView at hpane'
    split at hpane'
    · exact (congrArg Pane.id (ok.inj hpane')).symm
    · obtain ⟨_, -, hpane'⟩ := bind_eq_ok.mp hpane'
      exact (congrArg Pane.id (ok.inj hpane')).symm
  have := navigate_focusedOn hrun
  rwa [hid, hpane] at this

theorem Window.FocusedOn.finish (h : window.FocusedOn paneId tabId)
    (version : Version) : (window.finish version).FocusedOn paneId tabId := by
  obtain ⟨hfocus, pane, hpane, hid, hselected⟩ := h
  refine ⟨?_, settlePane version pane, ?_, by rw [id_settlePane]; exact hid, ?_⟩
  · unfold Window.finish
    split <;> exact hfocus
  · rw [panes_finish]
    exact mem_map_of_mem hpane
  · unfold settlePane
    split
    · rw [← hselected]
      unfold selectedViewId normalizePane
      cases pane.selection <;> rfl
    · exact hselected

/-! ## What actions add -/

def Action.opened : Action → Option Tab
  | .open tab _ _ => some tab
  | .openConversation _ view _ _ _ => some view
  | _ => none

structure State.Fronted (state state' : State) (view : Tab) : Prop where
  kept : ∃ id lost, state.Exchange state' id 0 lost
  focused : ∃ owner ∈ state.windows, ∃ pane ∈ owner.panes, ∃ existing ∈ paneViews pane, existing.resource = view.resource ∧
    (∃ owner' ∈ state'.windows, owner'.id = owner.id ∧ owner'.FocusedOn pane.id existing.id) ∧
    state'.focusWindow = if owner.id = state.window.id then none else some owner.id

theorem storeFocused_fronted {owner' : Window} {existing : Tab}
    (hs : state.Sound) (hnone : state.focusWindow = none) (howner : owner ∈ state.windows) (hpane : pane ∈ owner.panes)
    (hexisting : existing ∈ paneViews pane) (hsame : existing.resource = view.resource)
    (htrade : owner.Trade owner' 0 lost) (hfocused : owner'.FocusedOn pane.id existing.id) :
    state.Fronted (state.storeFocused owner') view := by
  have hwindows : (state.storeFocused owner').windows = (state.storeWindow owner').windows := by
    unfold State.storeFocused State.storeWindow
    by_cases hid : owner'.id = state.window.id
    · simp [hid]
    · simp only [hid, ne_eq, not_false_eq_true, if_true, if_false]
      rfl
  have hstored := @State.Coherent.storeWindow state hs.toCoherent owner'
  refine ⟨⟨owner.id, lost, ?_⟩, owner, howner, pane, hpane, existing, hexisting, hsame, ⟨owner', ?_, htrade.id, hfocused⟩, ?_⟩
  · unfold State.Exchange
    rw [hwindows]
    exact hs.trade howner htrade
  · rw [hwindows, hstored.2]
    have hmem : owner'.id ∈ state.windows.map (·.id) := by
      rw [htrade.id]
      exact mem_map_of_mem howner
    exact mem_of_find?_eq_some (find?_put_self owner' state.windows hmem)
  · unfold State.storeFocused State.storeWindow
    rw [← htrade.id]
    by_cases hid : owner'.id = state.window.id
    · simp [hid, hnone]
    · simp [hid]

theorem open_cases {replacePreviewTabId : Option Identity} {target : OpenTarget}
    (hs : state.Sound) (hnone : state.focusWindow = none) (h : state.open_ tab replacePreviewTabId target = .ok state') :
    (tab.resource ∈ resources state.windows ∧ state.Fronted state' tab) ∨ (tab.resource ∉ resources state.windows ∧
        ∃ lost, state.Exchange state' state.window.id {tab.card} lost) := by
  have hcurrent := hs.distinct state.window (mem_of_find?_eq_some hs.mem_current)
  unfold State.open_ at h
  cases hfind : Server.findResource state.windows tab with
  | some found =>
    obtain ⟨owner, pane, existing⟩ := found
    rw [hfind] at h
    obtain ⟨owner', hreopen, hrun⟩ := bind_eq_ok.mp h
    obtain rfl := ok.inj hrun
    obtain ⟨howner, hpane, hexisting, hsame⟩ := findResource_eq_some hfind
    obtain ⟨lost, htrade, -⟩ := Server.reopen_trade (hs.distinct owner howner) hpane hexisting hreopen
    refine .inl ⟨?_, storeFocused_fronted hs hnone howner hpane hexisting hsame htrade (reopen_focusedOn hreopen)⟩
    rw [← hsame]
    exact Multiset.mem_map_of_mem Prod.snd (mem_allCards.mpr ⟨owner, howner, pane, hpane, existing, hexisting, rfl⟩)
  | none =>
    rw [hfind] at h
    refine .inr ⟨findResource_eq_none hfind, ?_⟩
    cases target with
    | pane paneId =>
      obtain ⟨window', hopen, hplaced⟩ := hs.edit h
      obtain ⟨_, -, -, replaced, lost, htrade, -⟩ := Server.openInPane_trade hcurrent hopen
      exact ⟨_, hplaced _ _ htrade⟩
    | newPane paneId region splitId =>
      obtain ⟨window', hopen, hplaced⟩ := hs.edit h
      obtain ⟨lost, htrade, -⟩ := Server.openNewPane_trade hopen
      exact ⟨_, hplaced _ _ htrade⟩

theorem openConversation_cases {expected : Option (Option Identity)}
    {paneId : Option Identity} {newPaneId splitId : Identity} (hs : state.Sound) (hnone : state.focusWindow = none)
    (h : state.openConversation expected view paneId newPaneId splitId = .ok state') :
    (view.resource ∈ resources state.windows ∧ state.Fronted state' view) ∨ (view.resource ∉ resources state.windows ∧
        ∃ lost, state.Exchange state' state.window.id {view.card} lost) := by
  have hcurrent := hs.distinct state.window (mem_of_find?_eq_some hs.mem_current)
  unfold State.openConversation at h
  cases hfind : Server.findResource state.windows view with
  | some found =>
    obtain ⟨owner, pane, existing⟩ := found
    rw [hfind] at h
    obtain ⟨owner', hfocus, hrun⟩ := bind_eq_ok.mp h
    obtain rfl := ok.inj hrun
    obtain ⟨howner, hpane, hexisting, hsame⟩ := findResource_eq_some hfind
    refine .inl ⟨?_, storeFocused_fronted hs hnone howner hpane hexisting hsame (.focus hfocus) (focus_focusedOn hfocus)⟩
    rw [← hsame]
    exact Multiset.mem_map_of_mem Prod.snd (mem_allCards.mpr ⟨owner, howner, pane, hpane, existing, hexisting, rfl⟩)
  | none =>
    rw [hfind] at h
    obtain ⟨window', hconverse, hplaced⟩ := hs.edit h
    obtain ⟨lost, htrade, -⟩ := Server.converse_trade hcurrent hconverse
    exact .inr ⟨findResource_eq_none hfind, _, hplaced _ _ htrade⟩

/-! ## Migrations -/

theorem cards_insertAfter (pane : Pane) (index : Nat) (added : List Tab) :
    Pane.cards { pane with tabs := State.insertAfter pane.tabs index added } = pane.cards + ↑(added.map Tab.card) := by
  have hsplit : pane.tabs = pane.tabs.take (index + 1) ++ pane.tabs.drop (index + 1) := (take_append_drop _ _).symm
  rw [Pane.cards_eq, Pane.cards_eq pane]
  conv_rhs => rw [hsplit]
  simp only [State.insertAfter, map_append, ← Multiset.coe_add]
  have hsum : ∀ a b c d : Multiset Card, a + b + c + d = a + c + d + b := fun a b c d => by abel
  exact hsum _ _ _ _

theorem occupy_eq_ok {occupied documents : List Identity} {views : List FileView}
    (h : State.occupy occupied documents views = .ok ()) :
    (views.map (·.documentId)).Nodup ∧ ∀ view ∈ views, view.documentId ∉ documents := by
  induction views generalizing occupied documents with
  | nil => exact ⟨nodup_nil, by simp⟩
  | cons view views ih =>
    obtain ⟨hfree, hrest⟩ := check_eq_ok.mp h
    obtain ⟨hnodup, hnew⟩ := ih hrest
    rw [Bool.or_eq_true, not_or, contains_iff_mem, contains_iff_mem] at hfree
    refine ⟨?_, ?_⟩
    · rw [map_cons, nodup_cons]
      refine ⟨fun hmem => ?_, hnodup⟩
      obtain ⟨v, hv, he⟩ := mem_map.mp hmem
      exact hnew v hv (by rw [he]; exact mem_cons_self)
    · intro v hv
      rcases mem_cons.mp hv with rfl | hv
      · exact hfree.2
      · exact fun hmem => hnew v hv (mem_cons_of_mem _ hmem)

theorem mem_documentIds {tabs : List Tab} {id : Identity} :
    id ∈ State.documentIds tabs ↔ ∃ tab ∈ tabs, tab.resource = .entity .file id := by
  unfold State.documentIds
  rw [mem_filterMap]
  refine exists_congr fun tab => and_congr_right fun _ => ?_
  split
  · next resourceId hres => simp [hres]
  · next hno =>
    refine ⟨fun h => by simp at h, fun h => absurd h (hno id)⟩

theorem mem_resources {resource : Resource} :
    resource ∈ resources windows ↔ ∃ tab ∈ windows.flatMap fun w => w.panes.flatMap paneViews, tab.resource = resource := by
  unfold resources
  rw [allCards_eq_views, Multiset.map_coe, Multiset.mem_coe, map_map, mem_map]
  rfl

theorem migrateCodeFiles_cases {codeId : Identity} {views : List FileView} (hs : state.Sound)
    (h : state.migrateCodeFiles tabId codeId views = .ok state') :
    state' = state ∨ ((views.map (·.documentId)).Nodup ∧
      (∀ view ∈ views, Resource.entity .file view.documentId ∉ resources state.windows) ∧
      state.Exchange state' state.window.id
        ↑(views.map fun view => (view.tabId, Resource.entity .file view.documentId)) 0) := by
  obtain ⟨⟨pane, tab⟩, hfound, hrun⟩ := bind_eq_ok.mp h
  obtain ⟨-, hrun⟩ := check_eq_ok.mp hrun
  obtain ⟨hpane, htab, -⟩ := tabById_eq_ok hfound
  have hcurrentMem := mem_of_find?_eq_some hs.mem_current
  have hcurrent := hs.distinct state.window hcurrentMem
  dsimp only at hrun
  cases hreceipt : state.layout.codeImports.find? fun r => r.tabId = tab.id with
  | some prior =>
    rw [hreceipt] at hrun
    obtain ⟨-, hrun⟩ := check_eq_ok.mp hrun
    exact .inl (ok.inj hrun).symm
  | none =>
    rw [hreceipt] at hrun
    obtain ⟨-, hrun⟩ := check_eq_ok.mp hrun
    obtain ⟨⟨⟩, hoccupy, hrun⟩ := bind_eq_ok.mp hrun
    obtain ⟨index, hindex, hrun⟩ := bind_eq_ok.mp hrun
    obtain ⟨hnodup, hnew⟩ := occupy_eq_ok hoccupy
    refine .inr ⟨hnodup, ?_, ?_⟩
    · intro view hview hmem
      refine hnew view hview (mem_documentIds.mpr ?_)
      exact mem_resources.mp hmem
    · have hcards := cards_insertAfter pane index (views.map fun view => State.file view tab.dockPresentation)
      have hfiles : (views.map fun view => State.file view tab.dockPresentation).map Tab.card =
          views.map fun view => (view.tabId, Resource.entity .file view.documentId) := by
        rw [map_map]
        rfl
      rw [hfiles] at hcards
      -- the pane with the files, its active tab changed or not
      have hput : ∀ activeTabId, state.window.Trade (state.window.putPane { pane with
          tabs := State.insertAfter pane.tabs index (views.map fun view => State.file view tab.dockPresentation)
          activeTabId }) ↑(views.map fun view => (view.tabId, Resource.entity .file view.documentId)) 0 :=
        fun activeTabId => .putPane pane (hcurrent.pane hpane).1 (by rw [add_zero]; exact hcards)
      have hdone : ∀ window', state.window.Trade window' ↑(views.map fun view => (view.tabId, Resource.entity .file view.documentId)) 0 →
          ∀ layout, layout.windows = state.layout.windows →
          state.Exchange { state with window := window', layout } state.window.id
            ↑(views.map fun view => (view.tabId, Resource.entity .file view.documentId)) 0 := by
        intro window' htrade layout hlayout
        have hall := hs.trade hcurrentMem htrade
        rw [State.storeWindow, if_pos htrade.id] at hall
        unfold State.Exchange State.windows at hall ⊢
        rw [hlayout]
        exact hall
      split at hrun
      · obtain ⟨first, -, hrun⟩ := bind_eq_ok.mp hrun
        obtain ⟨stored, hstore, hrun⟩ := bind_eq_ok.mp hrun
        obtain ⟨_, -, rfl⟩ := storePane_eq_ok hstore
        split at hrun
        · obtain ⟨window', hfocus, hrun⟩ := bind_eq_ok.mp hrun
          obtain rfl := ok.inj hrun
          exact hdone window' ((hput _).then_keep (.focus hfocus)) _ rfl
        · obtain rfl := ok.inj hrun
          exact hdone _ (hput _) _ rfl
      · obtain ⟨stored, hstore, hrun⟩ := bind_eq_ok.mp hrun
        obtain ⟨_, -, rfl⟩ := storePane_eq_ok hstore
        obtain rfl := ok.inj hrun
        exact hdone _ (hput _) _ rfl

theorem migrateExplorerFile_cases {explorerId documentId : Identity} {mode : FileMode}
    {retainedViews : List FileView} (hs : state.Sound)
    (h : state.migrateExplorerFile tabId explorerId documentId mode retainedViews = .ok state') :
    (documentId :: retainedViews.map (·.documentId)).Nodup ∧ state.Exchange state' state.window.id
        ↑((tabId, Resource.entity .file documentId) ::
          retainedViews.map fun view => (view.tabId, Resource.entity .file view.documentId))
        {(tabId, Resource.entity .explorer explorerId)} := by
  obtain ⟨⟨pane, tab⟩, hfound, hrun⟩ := bind_eq_ok.mp h
  obtain ⟨hexplorer, hrun⟩ := check_eq_ok.mp hrun
  obtain ⟨-, hrun⟩ := check_eq_ok.mp hrun
  obtain ⟨⟨⟩, hoccupy, hrun⟩ := bind_eq_ok.mp hrun
  obtain ⟨index, hindex, hrun⟩ := bind_eq_ok.mp hrun
  obtain ⟨stored, hstore, hrun⟩ := bind_eq_ok.mp hrun
  obtain ⟨_, -, rfl⟩ := storePane_eq_ok hstore
  obtain ⟨hpane, htab, hid⟩ := tabById_eq_ok hfound
  rw [ne_eq, not_not] at hexplorer
  rw [expect_eq_ok] at hindex
  have hcurrentMem := mem_of_find?_eq_some hs.mem_current
  have hcurrent := hs.distinct state.window hcurrentMem
  obtain ⟨hnodup, hnew⟩ := occupy_eq_ok hoccupy
  refine ⟨?_, ?_⟩
  · rw [nodup_cons]
    refine ⟨fun hmem => ?_, hnodup⟩
    obtain ⟨view, hview, he⟩ := mem_map.mp hmem
    exact hnew view hview (by simp [he])
  obtain ⟨hfind, hviews⟩ := hcurrent.pane hpane
  let file : Tab := { tab with resource := .entity .file documentId, fileMode := some mode, titleProtection := none }
  let retained := retainedViews.map fun view => State.file view tab.dockPresentation
  have hset : Pane.cards { pane with tabs := pane.tabs.set index file } + {tab.card} = pane.cards + {file.card} :=
    Server.cards_set hviews htab hindex
  have hretained : retained.map Tab.card = retainedViews.map fun view => (view.tabId, Resource.entity .file view.documentId) := by
    rw [map_map]
    rfl
  have hcards : Pane.cards { pane with tabs := State.insertAfter (pane.tabs.set index file) index retained } + {tab.card} =
      pane.cards + ↑(file.card :: retained.map Tab.card) := by
    refine (congrArg (· + {tab.card}) (cards_insertAfter { pane with tabs := pane.tabs.set index file } index retained)).trans ?_
    rw [← Multiset.cons_coe, ← Multiset.singleton_add, ← add_assoc, ← hset]
    abel
  have htrade : state.window.Trade (state.window.putPane { pane with
      tabs := State.insertAfter (pane.tabs.set index file) index retained }) ↑(file.card :: retained.map Tab.card) {tab.card} :=
    .putPane pane hfind hcards
  have hall := hs.trade hcurrentMem htrade
  rw [State.storeWindow, if_pos htrade.id, hretained] at hall
  have hfile : file.card = (tabId, Resource.entity .file documentId) := by rw [← hid]; rfl
  have hold : tab.card = (tabId, Resource.entity .explorer explorerId) := by rw [← hid, Tab.card, hexplorer]
  rw [hfile, hold] at hall
  obtain rfl := ok.inj hrun
  exact hall

/-- The actions that make new views. -/
def Action.creates : Action → Bool
  | .open .. | .openConversation .. | .migrateCodeFiles .. | .migrateExplorerFile .. => true
  | _ => false

def Action.commits : Action → Bool
  | .commitTransfer _ => true
  | _ => false

theorem run_placed (hs : state.Sound) (hcreates : action.creates = false)
    (hcommits : action.commits = false) (h : state.run action = .ok state') :
    ∃ lost, placed state'.windows + lost = placed state.windows := by
  have hcurrent := hs.distinct state.window (mem_of_find?_eq_some hs.mem_current)
  have hkept : ∀ {windows : List Window}, placed windows = placed state.windows →
      ∃ lost, placed windows + lost = placed state.windows := fun h => ⟨0, by rw [add_zero, h]⟩
  -- an action on the current window that gains nothing
  have hedit : ∀ f : Layout → Window → Except Failure Window, state.edit f = .ok state' →
      (∀ window', f state.layout state.window = .ok window' → ∃ lost, state.window.Trade window' 0 lost) →
      ∃ lost, placed state'.windows + lost = placed state.windows := by
    intro f hf htrades
    obtain ⟨window', hwindow, hplaced⟩ := hs.edit hf
    obtain ⟨lost, htrade⟩ := htrades window' hwindow
    exact ⟨_, by have := hplaced _ _ htrade; rwa [State.Exchange, Multiset.map_zero, add_zero] at this⟩
  cases action with
  | openConversation => simp [Action.creates] at hcreates
  | migrateCodeFiles => simp [Action.creates] at hcreates
  | migrateExplorerFile => simp [Action.creates] at hcreates
  | «open» => simp [Action.creates] at hcreates
  | commitTransfer => simp [Action.commits] at hcommits
  | closeConversation viewId =>
    refine hedit (fun _ => Server.closeConversation viewId) h fun window' hw => ?_
    obtain ⟨_, -, _, -, -, htrade⟩ := Server.closeConversation_trade hw hcurrent
    exact ⟨_, htrade⟩
  | replaceAttachment rendererId => exact hkept (State.replaceAttachment_placed hs h)
  | prepareReturn => exact hkept (by rw [State.prepareReturn_windows h])
  | prepareDetach => exact hkept (State.prepareDetach_placed hs h)
  | transferReady => exact hkept (by rw [State.transferReady_windows h])
  | transferStateReady => exact hkept (by rw [State.transferStateReady_windows h])
  | cancelTransfer => exact hkept (State.cancelTransfer_placed hs h)
  | select tabId =>
    refine hedit (Server.select tabId) h fun window' hw => ?_
    obtain ⟨_, -, lost, -, htrade, -⟩ := Server.select_trade hw hcurrent
    exact ⟨lost, htrade⟩
  | home => exact hedit (fun _ => Server.home) h fun window' hw => ⟨0, Server.home_trade hw⟩
  | closeTab tabId =>
    refine hedit (Server.closeTab tabId) h fun window' hw => ?_
    obtain ⟨_, -, _, -, -, lost, htrade, -⟩ := Server.closeTab_trade hw hcurrent
    exact ⟨_, htrade⟩
  | closePane paneId =>
    refine hedit (fun _ => Server.closePane paneId) h fun window' hw => ?_
    obtain ⟨_, -, -, htrade⟩ := Server.closePane_trade hw hcurrent
    exact ⟨_, htrade⟩
  | pin tabId => exact hedit (fun _ => Server.pin tabId) h fun window' hw => ⟨0, Server.pin_trade hw hcurrent⟩
  | fileMode tabId mode =>
    exact hedit (fun _ => Server.fileMode tabId mode) h fun window' hw => ⟨0, Server.fileMode_trade hw hcurrent⟩
  | renamePane paneId titleProtection =>
    exact hedit (fun _ => Server.renamePane paneId titleProtection) h fun window' hw => ⟨0, Server.renamePane_trade hw⟩
  | dockPresentation tabId presentation =>
    exact hedit (fun _ => Server.dockPresentation tabId presentation) h fun window' hw => ⟨0, Server.dockPresentation_trade hw hcurrent⟩
  | reorderPanes region paneIds =>
    exact hedit (fun _ => Server.reorderPanes region paneIds) h fun window' hw => ⟨0, Server.reorderPanes_trade hw hcurrent⟩
  | moveNewPane tabId paneId region position splitId =>
    refine hedit (Server.moveNewPane tabId paneId region position splitId) h fun window' hw => ?_
    obtain ⟨lost, htrade, -⟩ := Server.moveNewPane_trade hw hcurrent
    exact ⟨lost, htrade⟩
  | reorder paneId tabIds =>
    exact hedit (fun _ => Server.reorder paneId tabIds) h fun window' hw => ⟨0, Server.reorder_trade hw hcurrent⟩
  | move tabId targetPaneId position =>
    refine hedit (Server.move tabId targetPaneId position) h fun window' hw => ?_
    obtain ⟨_, -, -, lost, htrade, -⟩ := Server.move_trade hw hcurrent
    exact ⟨lost, htrade⟩
  | split tabId targetPaneId paneId splitId edge fraction =>
    refine hedit (Server.split tabId targetPaneId paneId splitId edge fraction) h fun window' hw => ?_
    obtain ⟨lost, htrade, -⟩ := Server.split_trade hw hcurrent
    exact ⟨lost, htrade⟩
  | resize splitId fraction =>
    exact hedit (fun _ => Server.resize splitId fraction) h fun window' hw => ⟨0, Server.resize_trade hw⟩

theorem run_keeps (hs : state.Sound) (hcreates : action.creates = false)
    (h : state.run action = .ok state') : ∃ lost, allCards state'.windows + lost = allCards state.windows := by
  cases hcommits : action.commits with
  | false =>
    obtain ⟨lost, hplaced⟩ := run_placed hs hcreates hcommits h
    refine ⟨lost.map Prod.snd, ?_⟩
    unfold allCards
    rw [← Multiset.map_add, hplaced]
  | true =>
    obtain ⟨transferId, rfl⟩ : ∃ transferId, action = .commitTransfer transferId := by
      cases action <;> simp [Action.commits] at hcommits
      exact ⟨_, rfl⟩
    obtain ⟨transfer, -, -, -, -, moved, -, hplaced⟩ := State.commit_placed hs h
    refine ⟨0, ?_⟩
    have hmap := congrArg (Multiset.map Prod.snd) hplaced
    simp only [Multiset.map_add, Multiset.map_map, Function.comp_def, Multiset.map_id'] at hmap
    rw [add_zero]
    exact add_right_cancel hmap

/-! ## Uniqueness -/

def Action.NewDocuments (views : List Tab) : Action → Prop
  | .migrateExplorerFile _ _ documentId _ retainedViews =>
    ∀ id ∈ documentId :: retainedViews.map (·.documentId), id ∉ State.documentIds views
  | _ => True

theorem nodup_of_kept (h : allCards windows' + lost = allCards windows)
    (hnodup : (resources windows).Nodup) : (resources windows').Nodup := by
  refine Multiset.nodup_of_le (Multiset.map_le_map ?_) hnodup
  rw [← h]
  exact Multiset.le_add_right _ _

theorem nodup_of_added {added : Multiset Card}
    (h : allCards windows' + lost = allCards windows + added) (hnodup : (resources windows).Nodup)
    (hadded : (added.map Prod.snd).Nodup) (hnew : ∀ resource ∈ added.map Prod.snd, resource ∉ resources windows) :
    (resources windows').Nodup := by
  have hall : ((allCards windows + added).map Prod.snd).Nodup := by
    rw [Multiset.map_add]
    exact Multiset.nodup_add.mpr ⟨hnodup, hadded, Multiset.disjoint_right.mpr (hnew _)⟩
  refine Multiset.nodup_of_le (Multiset.map_le_map ?_) hall
  rw [← h]
  exact Multiset.le_add_right _ _

theorem run_explorer_unique {explorerId documentId : Identity} {mode : FileMode}
    {retainedViews : List FileView} (hs : state.Sound) (hnodup : (resources state.windows).Nodup)
    (h : state.migrateExplorerFile tabId explorerId documentId mode retainedViews = .ok state') :
    (resources state'.windows).Nodup ↔
      ∀ id ∈ documentId :: retainedViews.map (·.documentId), Resource.entity .file id ∉ resources state.windows := by
  obtain ⟨hdocuments, hexchange⟩ := migrateExplorerFile_cases hs h
  have hcards := hexchange.allCards
  have hadded : (Multiset.map Prod.snd (↑((tabId, Resource.entity .file documentId) ::
      retainedViews.map fun view => (view.tabId, Resource.entity .file view.documentId)) : Multiset Card)) =
      ↑((documentId :: retainedViews.map (·.documentId)).map (Resource.entity .file)) := by
    rw [Multiset.map_coe]
    simp [Function.comp_def]
  constructor
  · intro hresult id hid hopen
    have hmap := congrArg (Multiset.map Prod.snd) hcards
    rw [Multiset.map_add, Multiset.map_add, hadded] at hmap
    -- the document is counted twice on the right, and the Explorer is not a file
    have hcount := congrArg (Multiset.count (Resource.entity .file id)) hmap
    rw [Multiset.count_add, Multiset.count_add] at hcount
    have hone : Multiset.count (Resource.entity .file id) (Multiset.map Prod.snd (allCards state'.windows)) ≤ 1 :=
      Multiset.nodup_iff_count_le_one.mp hresult _
    have hzero : Multiset.count (Resource.entity .file id)
        (Multiset.map Prod.snd {(tabId, Resource.entity .explorer explorerId)}) = 0 := by
      rw [Multiset.count_eq_zero]
      simp
    have hleft : 1 ≤ Multiset.count (Resource.entity .file id) (Multiset.map Prod.snd (allCards state.windows)) :=
      Multiset.one_le_count_iff_mem.mpr hopen
    have hright : 1 ≤ Multiset.count (Resource.entity .file id)
        (↑((documentId :: retainedViews.map (·.documentId)).map (Resource.entity .file)) : Multiset Resource) :=
      Multiset.one_le_count_iff_mem.mpr (Multiset.mem_coe.mpr (mem_map_of_mem hid))
    omega
  · intro hnew
    refine nodup_of_added hcards hnodup ?_ ?_
    · rw [hadded, Multiset.coe_nodup]
      exact hdocuments.map fun a b he => by simpa using he
    · intro resource hresource
      rw [hadded, Multiset.mem_coe] at hresource
      obtain ⟨id, hid, rfl⟩ := mem_map.mp hresource
      exact hnew id hid

theorem run_unique (hs : state.Sound) (hnone : state.focusWindow = none)
    (hnodup : (resources state.windows).Nodup) (h : state.run action = .ok state') :
    ((resources state'.windows).Nodup ↔ action.NewDocuments (state.windows.flatMap fun w => w.panes.flatMap paneViews)) ∧
      ∀ view ∈ action.opened, view.resource ∈ resources state.windows → state.Fronted state' view := by
  have hopens : ∀ view : Tab, (view.resource ∈ resources state.windows ∧ state.Fronted state' view) ∨
      (view.resource ∉ resources state.windows ∧ ∃ lost, state.Exchange state' state.window.id {view.card} lost) →
      (resources state'.windows).Nodup ∧ (view.resource ∈ resources state.windows → state.Fronted state' view) := by
    rintro view (⟨-, hfronted⟩ | ⟨hnew, lost, hexchange⟩)
    · obtain ⟨id, lost, hkept⟩ := hfronted.kept
      exact ⟨nodup_of_kept (by simpa using hkept.allCards) hnodup, fun _ => hfronted⟩
    · refine ⟨nodup_of_added hexchange.allCards hnodup (by simp) ?_, fun hold => absurd hold hnew⟩
      intro resource hresource
      rw [Multiset.map_singleton, Multiset.mem_singleton] at hresource
      exact hresource ▸ hnew
  cases hcreates : action.creates with
  | false =>
    obtain ⟨lost, hkept⟩ := run_keeps hs hcreates h
    have hresult := nodup_of_kept hkept hnodup
    cases action <;> simp_all [Action.creates, Action.NewDocuments, Action.opened]
  | true =>
    cases action with
    | «open» tab replacePreviewTabId target =>
      obtain ⟨hresult, hfronted⟩ := hopens tab (open_cases hs hnone h)
      refine ⟨iff_of_true hresult trivial, ?_⟩
      intro view hview
      obtain rfl := Option.some.inj hview
      exact hfronted
    | openConversation expected view paneId newPaneId splitId =>
      obtain ⟨hresult, hfronted⟩ := hopens view (openConversation_cases hs hnone h)
      refine ⟨iff_of_true hresult trivial, ?_⟩
      intro v hv
      obtain rfl := Option.some.inj hv
      exact hfronted
    | migrateCodeFiles tabId codeId views =>
      refine ⟨iff_of_true ?_ trivial, by simp [Action.opened]⟩
      rcases migrateCodeFiles_cases hs h with rfl | ⟨hdocuments, hnew, hexchange⟩
      · exact hnodup
      · have hmap : Multiset.map Prod.snd (↑(views.map fun view => (view.tabId, Resource.entity .file view.documentId)) :
            Multiset Card) = ↑((views.map (·.documentId)).map (Resource.entity .file)) := by
          rw [Multiset.map_coe]
          simp [Function.comp_def]
        refine nodup_of_added hexchange.allCards hnodup ?_ ?_
        · rw [hmap, Multiset.coe_nodup]
          exact hdocuments.map fun a b he => by simpa using he
        · intro resource hresource
          rw [hmap, Multiset.mem_coe, map_map] at hresource
          obtain ⟨view, hview, rfl⟩ := mem_map.mp hresource
          exact hnew view hview
    | migrateExplorerFile tabId explorerId documentId mode retainedViews =>
      refine ⟨(run_explorer_unique hs hnodup h).trans ?_, by simp [Action.opened]⟩
      refine forall₂_congr fun id _ => not_congr ?_
      rw [mem_resources, mem_documentIds]
    | _ => simp [Action.creates] at hcreates

theorem newDocuments_congr (action : Action) (h : resources windows = resources windows') :
    action.NewDocuments (windows.flatMap fun w => w.panes.flatMap paneViews) ↔
      action.NewDocuments (windows'.flatMap fun w => w.panes.flatMap paneViews) := by
  cases action with
  | migrateExplorerFile tabId explorerId documentId mode retainedViews =>
    refine forall₂_congr fun id _ => not_congr ?_
    rw [mem_documentIds, ← mem_resources, h, mem_resources, mem_documentIds]
  | _ => exact Iff.rfl

theorem mem_views_migrated (howner : owner ∈ (migrated layout action).windows) (hpane : pane ∈ owner.panes) :
    ∃ w ∈ layout.windows, w.id = owner.id ∧ ∃ p ∈ w.panes, p.id = pane.id ∧ paneViews p = paneViews pane := by
  rcases migrated_cases layout action with he | he
  · rw [he] at howner
    exact ⟨owner, howner, rfl, pane, hpane, rfl, rfl⟩
  · rw [he] at howner
    obtain ⟨w, hw, rfl⟩ := mem_map.mp howner
    obtain ⟨p, hp, rfl⟩ := mem_map.mp hpane
    exact ⟨w, hw, rfl, p, hp, rfl, (paneViews_normalizePane p).symm⟩

structure Reopened (layout : Layout) (command : Command) (result : CommandResult) (view : Tab) : Prop where
  kept : ∃ lost, allCards result.layout.windows + lost = allCards layout.windows
  focused : ∃ owner ∈ layout.windows, ∃ pane ∈ owner.panes, ∃ existing ∈ paneViews pane, sameResource existing view ∧
    (∃ owner' ∈ result.layout.windows, owner'.id = owner.id ∧ owner'.FocusedOn pane.id existing.id) ∧
    result.focusWindowId = if owner.id = command.windowId then none else some owner.id

theorem allCards_finish (state : State) : allCards state.finish.windows = allCards state.windows := by
  unfold allCards State.finish
  rw [placed_finish]

theorem apply_unique_iff {layout : Layout} {command : Command} {result : CommandResult} (hunique : layout.NoDuplicates)
    (h : apply layout command = .ok result) :
    (result.layout.NoDuplicates ∧ ∀ view ∈ command.action.opened,
      (∃ existing ∈ layout.views, sameResource existing view) → Reopened layout command result view) ↔
    command.action.NewDocuments layout.views := by
  obtain ⟨-, howned, state, state', hstate, hrun, hlayout, -, hfocus, -⟩ := apply_eq_ok h
  obtain ⟨hs, hplaced⟩ := precheck_sound howned hstate
  obtain ⟨-, -, -, window, hfind, -, -, hinit⟩ := precheck_eq_ok hstate
  have hcards : allCards state.windows = allCards layout.windows := by rw [allCards, hplaced, allCards]
  have hresources : resources state.windows = resources layout.windows := by rw [resources, hcards, resources]
  rw [noDuplicates_iff, ← hresources] at hunique
  obtain ⟨hiff, hfronted⟩ := run_unique hs (by rw [hinit]) hunique hrun
  have hresult : result.layout.NoDuplicates ↔ (resources state'.windows).Nodup := by
    rw [noDuplicates_iff, hlayout, resources, allCards_finish, resources]
  rw [hresult, hiff, newDocuments_congr command.action hresources]
  refine and_iff_left ?_
  rintro view hview ⟨existing, hexisting, hsame⟩
  have hopen : view.resource ∈ resources state.windows := by
    rw [hresources]
    exact mem_resources.mpr ⟨existing, hexisting, sameResource_iff.mp hsame⟩
  obtain ⟨⟨id, lost, hkept⟩, owner, howner, pane, hpane, tab, htab, hresource, ⟨owner', howner', hid', hfocused⟩, hwindow⟩ :=
    hfronted view hview hopen
  have hall := hkept.allCards
  rw [add_zero] at hall
  refine ⟨⟨lost, by rw [hlayout, allCards_finish, hall, hcards]⟩, ?_⟩
  have hwindows : state.windows = (migrated layout command.action).windows := by
    rw [hs.windows_eq, hinit]
    have hid : window.id = command.windowId := by simpa using find?_some hfind
    refine put_self_of_find? (k := window.id) ?_
    rw [hid]
    exact hfind
  rw [hwindows] at howner
  obtain ⟨w, hw, hwid, p, hp, hpid, hviews⟩ := mem_views_migrated howner hpane
  refine ⟨w, hw, p, hp, tab, hviews ▸ htab, sameResource_iff.mpr hresource,
    ⟨owner'.finish state'.layout.version, ?_, ?_, ?_⟩, ?_⟩
  · rw [hlayout]
    exact List.mem_map_of_mem howner'
  · have hfinish : (owner'.finish state'.layout.version).id = owner'.id := by
      unfold Window.finish
      split <;> rfl
    rw [hfinish, hid', hwid]
  · rw [hpid]
    exact hfocused.finish _
  · have hcurrent : state.window.id = command.windowId := by
      rw [hinit]
      simpa using find?_some hfind
    rw [hfocus, hwindow, hwid, hcurrent]

/-! ### An Explorer view beside an open file -/

def named (unit : UInt16) : Identity := ⟨[unit], by simp⟩

/-- An Explorer view `1` of `10` and a file view `2` of the document `20` in one pane. -/
def explorerPane : Pane :=
  let view (id : UInt16) (resource : Resource) : Tab :=
    { id := named id, resource, preview := false, fileMode := none, fileViewer := none, titleProtection := none,
      builtInState := none, dockPresentation := none }
  { id := named 4, region := .center, titleProtection := none,
    tabs := [view 1 (.entity .explorer (named 10)), view 2 (.entity .file (named 20))],
    activeTabId := some (named 1), conversationView := none, selection := none }

def explorerLayout : Layout :=
  { version := .v1, id := named 6, projectId := named 7, revision := 0, mainWindowId := named 5,
    windows := [{ id := named 5, attachmentGeneration := 0, rendererId := none, panes := [explorerPane],
                  centerRoot := some (.pane (named 4)), focusedPaneId := some (named 4), recentPaneIds := [named 4],
                  recentTabIds := none, returnPlacement := none }],
    pendingTransfers := none, legacyFileImports := none, legacyCodeImports := none }

def explorerMigration (documentId : UInt16) : Command :=
  { operationId := named 8, workspaceId := named 6, projectId := named 7, windowId := named 5, attachmentGeneration := 0,
    expectedRevision := 0,
    action := .migrateExplorerFile (named 1) (named 10) (named documentId) .edit [] }

theorem explorer_migrated_twice : explorerLayout.NoDuplicates ∧ ∃ result,
    apply explorerLayout (explorerMigration 20) = .ok result ∧ ¬result.layout.NoDuplicates := by
  refine ⟨by decide, ?_⟩
  have hdone : (apply explorerLayout (explorerMigration 20)).toOption.any (fun r => !decide r.layout.NoDuplicates) = true := by
    decide
  cases hresult : apply explorerLayout (explorerMigration 20) with
  | error e => simp [hresult, Except.toOption] at hdone
  | ok result => exact ⟨result, rfl, by simpa [hresult, Except.toOption] using hdone⟩

theorem explorer_migrated_fresh : explorerLayout.NoDuplicates ∧ ∃ result,
    apply explorerLayout (explorerMigration 21) = .ok result ∧ result.layout.NoDuplicates := by
  have hunique : explorerLayout.NoDuplicates := by decide
  have hdone : (apply explorerLayout (explorerMigration 21)).isOk = true := by decide
  cases hresult : apply explorerLayout (explorerMigration 21) with
  | error e => simp [hresult, Except.isOk, Except.toBool] at hdone
  | ok result =>
    have hnew : (explorerMigration 21).action.NewDocuments explorerLayout.views := by
      intro id hid
      obtain rfl := mem_singleton.mp hid
      decide
    exact ⟨hunique, result, rfl, ((apply_unique_iff hunique hresult).mpr hnew).1⟩

end Cantrip.Workspace
