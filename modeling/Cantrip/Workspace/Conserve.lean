import Cantrip.Workspace.Cards

/-!
# What each action does to the views of its window

One trade per action of `views.rs` and `conversations.rs`, exact about what the window gains and loses. Explicit
navigation loses at most the unreserved conversation of the pane it ends in (`Window.Sheds`).
-/

namespace Cantrip.Workspace

open Lib List Option Except

def Layout.Sheds (layout : Layout) (pane : Pane) (lost : Multiset Card) : Prop :=
  lost = 0 ∨ ∃ view ∈ pane.direct, layout.reserved view.id = false ∧ lost = {view.card}

theorem Layout.Releases.sheds {layout : Layout} {pane : Pane} {tabId : Option Identity} (h : layout.Releases pane tabId) :
    layout.Sheds pane (pane.leaving tabId) := by
  cases hdirect : pane.direct with
  | none => exact .inl (by simp [Pane.leaving, hdirect])
  | some view =>
    by_cases hid : some view.id = tabId
    · exact .inl (by simp [Pane.leaving, hdirect, hid])
    · exact .inr ⟨view, hdirect, h view hdirect hid, by simp [Pane.leaving, hdirect, hid]⟩

theorem Layout.Sheds.of_direct {layout : Layout} {pane pane' : Pane} {lost : Multiset Card}
    (h : layout.Sheds pane' lost) (hdirect : pane'.direct = pane.direct ∨ pane'.direct = none) : layout.Sheds pane lost := by
  rcases h with h | ⟨view, hview, h⟩
  · exact .inl h
  · rcases hdirect with hd | hd
    · exact .inr ⟨view, hd ▸ hview, h⟩
    · rw [hd] at hview
      exact absurd hview (by simp)

theorem focusNext_trade {window window' : Window} {wasFocused : Bool} (h : focusNext window wasFocused = .ok window') :
    window.Trade window' 0 0 := by
  unfold focusNext at h
  split at h
  · split at h
    · exact .focus h
    · exact ok.inj h ▸ .refl window
  · exact ok.inj h ▸ .refl window

namespace Server

variable {layout : Layout} {window window' : Window}

variable {paneId splitId tabId : Identity} {panes : List Pane} {position : Nat} {pane : Pane} {region : Region}
  {tab : Tab} {stored : Window}

theorem select_trade (h : select tabId layout window = .ok window') (hw : window.Distinct) :
    ∃ pane ∈ window.panes, ∃ lost, tabId ∈ pane.viewIds ∧ window.Trade window' 0 lost ∧ layout.Sheds pane lost := by
  obtain ⟨⟨pane, tab⟩, hfound, hrun⟩ := bind_eq_ok.mp h
  obtain ⟨hpane, htab, rfl⟩ := tabById_eq_ok hfound
  obtain ⟨target, hfind, htrade, hreleases⟩ := Window.Trade.navigate hrun
  obtain rfl := some.inj ((hw.pane hpane).1.symm.trans hfind)
  exact ⟨pane, hpane, _, List.mem_map_of_mem htab, htrade, hreleases.sheds⟩

theorem closeTab_trade (h : closeTab tabId layout window = .ok window') (hw : window.Distinct) :
    ∃ pane ∈ window.panes, ∃ tab ∈ pane.tabs, tab.id = tabId ∧
      ∃ lost, window.Trade window' 0 (tab.card ::ₘ lost) ∧ layout.Sheds pane lost := by
  obtain ⟨⟨pane, tab⟩, hfound, hrun⟩ := bind_eq_ok.mp h
  obtain ⟨hpane, htab, rfl⟩ := tabById_eq_ok hfound
  obtain ⟨hfind, hviews⟩ := hw.pane hpane
  dsimp only at hrun
  split_ifs at hrun with hdirect
  · exact absurd hrun (invalid_ne_ok _ _)
  have hin : tab ∈ pane.tabs := by
    rcases mem_append.mp htab with htab | htab
    · exact htab
    · refine absurd ?_ hdirect
      rw [Pane.directId, mem_toList.mp htab]
      rfl
  obtain ⟨current, hcurrent, hrun⟩ : ∃ current,
      (current = pane ∨ retireConversation layout pane (selectedViewId pane) = .ok current) ∧
      (takeTab window current tab >>= fun window' => focusNext window'
        (decide (window.focusedPaneId = some pane.id ∧ selectedViewId pane = some tab.id))) = .ok window' := by
    split at hrun
    · obtain ⟨current, hretire, hrun⟩ := bind_eq_ok.mp hrun
      exact ⟨current, .inr hretire, hrun⟩
    · exact ⟨pane, .inl rfl, hrun⟩
  obtain ⟨taken, htaken, hrun⟩ := bind_eq_ok.mp hrun
  -- the pane as it is taken apart: without its conversation when a tab is selected
  obtain ⟨hid, lost, hcards, htabs, hsheds⟩ : current.id = pane.id ∧ ∃ lost, current.cards + lost = pane.cards ∧
      (tab ∈ paneViews current ∧ current.viewIds.Nodup) ∧ layout.Sheds pane lost := by
    rcases hcurrent with rfl | hretire
    · exact ⟨rfl, 0, add_zero _, ⟨htab, hviews⟩, .inl rfl⟩
    · obtain ⟨hid, hcards, hreleases⟩ := cards_retireConversation hretire
      refine ⟨hid, _, hcards, ?_, hreleases.sheds⟩
      rcases retireConversation_cases layout pane (selectedViewId pane) with ⟨hr, -⟩ | ⟨view, -, -, ⟨-, hr⟩ | ⟨-, hr⟩⟩
      · obtain rfl := ok.inj (hr.symm.trans hretire)
        exact ⟨htab, hviews⟩
      · exact absurd (hr.symm.trans hretire) (invalid_ne_ok _ _)
      · obtain rfl := ok.inj (hr.symm.trans hretire)
        refine ⟨mem_append_left _ hin, ?_⟩
        rw [viewIds_bare]
        rw [Pane.viewIds_eq] at hviews
        exact (nodup_append'.mp hviews).1
  have htrade := Window.Trade.takeTab hw.paneIds (by rw [hid]; exact hfind) htabs.2 htabs.1 hcards htaken
  exact ⟨pane, hpane, tab, hin, rfl, lost, htrade.then_keep (focusNext_trade hrun), hsheds⟩

theorem closePane_trade (h : closePane paneId window = .ok window') (hw : window.Distinct) :
    ∃ pane ∈ window.panes, pane.id = paneId ∧ window.Trade window' 0 pane.cards := by
  obtain ⟨pane, hfound, hrun⟩ := bind_eq_ok.mp h
  obtain ⟨hfind, hpane, rfl⟩ := paneById_eq_ok hfound
  exact ⟨pane, hpane, rfl, (Window.Trade.removePane hw.paneIds hfind).then_keep (focusNext_trade hrun)⟩

theorem closeConversation_trade {viewId : Identity} (h : closeConversation viewId window = .ok window')
    (hw : window.Distinct) :
    ∃ pane ∈ window.panes, ∃ view ∈ pane.direct, view.id = viewId ∧ window.Trade window' 0 {view.card} := by
  obtain ⟨⟨pane, tab⟩, hfound, hrun⟩ := bind_eq_ok.mp h
  obtain ⟨hpane, htab, rfl⟩ := tabById_eq_ok hfound
  obtain ⟨hfind, hviews⟩ := hw.pane hpane
  dsimp only at hrun
  split_ifs at hrun with hdirect
  · exact absurd hrun (invalid_ne_ok _ _)
  obtain ⟨taken, htaken, hrun⟩ := bind_eq_ok.mp hrun
  rw [ne_eq, not_not] at hdirect
  obtain ⟨view, hview, hid⟩ := map_eq_some_iff.mp hdirect
  have hin : view ∈ paneViews pane := by simp [paneViews, hview]
  obtain rfl := view_eq_of_id hviews hin htab hid
  have htrade := Window.Trade.takeTab hw.paneIds hfind hviews htab (add_zero _) htaken
  exact ⟨pane, hpane, view, hview, rfl, htrade.then_keep (focusNext_trade hrun)⟩

/-! ## Edits in place -/

theorem storeView_cards {pane' : Pane} {tab' : Tab} (h : storeView pane tab' = .ok pane') (htab : tab ∈ paneViews pane)
    (hcard : tab'.card = tab.card) (hviews : pane.viewIds.Nodup) :
    pane'.id = pane.id ∧ pane'.cards = pane.cards ∧ pane'.region = pane.region ∧ pane'.viewIds = pane.viewIds := by
  have hid : tab'.id = tab.id := congrArg Prod.fst hcard
  unfold storeView at h
  split_ifs at h with hdirect
  · obtain rfl := ok.inj h
    obtain ⟨view, hview, hv⟩ := map_eq_some_iff.mp hdirect
    have hin : view ∈ paneViews pane := by simp [paneViews, hview]
    obtain rfl := view_eq_of_id hviews hin htab (hv.trans hid)
    refine ⟨rfl, ?_, rfl, ?_⟩
    · rw [Pane.cards_eq, Pane.cards_eq pane, hview]
      simp [Pane.direct, hcard]
    · rw [Pane.viewIds_eq, Pane.viewIds_eq, Pane.directId, Pane.directId, hview]
      simp [Pane.direct, Pane.tabIds, hid]
  · obtain ⟨existing, hfind, hrun⟩ := bind_eq_ok.mp h
    rw [expect_eq_ok] at hfind
    obtain rfl := ok.inj hrun
    obtain ⟨pre, post, htabs, hex, hpre⟩ := exists_append_of_find? hfind
    have hin : existing ∈ paneViews pane := by simp [paneViews, htabs]
    obtain rfl := view_eq_of_id hviews hin htab (hex.trans hid)
    have hput : (pane.putTab tab').tabs = pre ++ tab' :: post := by
      rw [Pane.putTab]
      dsimp only
      rw [htabs, put_append_cons tab' existing pre post hpre hex]
    refine ⟨rfl, ?_, rfl, ?_⟩
    · rw [Pane.cards_eq, Pane.cards_eq pane, hput, htabs]
      simp [hcard, Pane.putTab, Pane.direct]
    · rw [Pane.viewIds_eq, Pane.viewIds_eq, Pane.tabIds, hput, Pane.tabIds, htabs]
      simp [hid, Pane.putTab, Pane.directId, Pane.direct]

theorem editView_trade {edit : Pane → Tab → Except Failure Tab}
    (hedit : ∀ pane tab tab', edit pane tab = .ok tab' → tab'.card = tab.card)
    (h : editView tabId edit window = .ok window') (hw : window.Distinct) : window.Trade window' 0 0 := by
  obtain ⟨⟨pane, tab⟩, hfound, hrun⟩ := bind_eq_ok.mp h
  obtain ⟨tab', htab', hrun⟩ := bind_eq_ok.mp hrun
  obtain ⟨pane', hstore, hrun⟩ := bind_eq_ok.mp hrun
  obtain ⟨hpane, htab, rfl⟩ := tabById_eq_ok hfound
  obtain ⟨hfind, hviews⟩ := hw.pane hpane
  obtain ⟨hid, hcards, -⟩ := storeView_cards hstore htab (hedit pane tab tab' htab') hviews
  obtain ⟨old, hold, rfl⟩ := storePane_eq_ok hrun
  rw [hid, hfind] at hold
  obtain rfl := some.inj hold
  exact .putPane pane (by rw [hid]; exact hfind) (by rw [hcards])

theorem pin_trade (h : pin tabId window = .ok window') (hw : window.Distinct) : window.Trade window' 0 0 := by
  refine editView_trade ?_ h hw
  rintro pane tab tab' h
  obtain rfl := ok.inj h
  rfl

theorem card_of_allowed {refused : Prop} [Decidable refused] {message : String} {tab next tab' : Tab}
    (h : (if refused then invalid message else .ok next) = .ok tab') (hcard : next.card = tab.card) : tab'.card = tab.card := by
  split at h
  · exact absurd h (invalid_ne_ok _ _)
  · obtain rfl := ok.inj h
    exact hcard

theorem fileMode_trade {mode : FileMode} (h : fileMode tabId mode window = .ok window')
    (hw : window.Distinct) : window.Trade window' 0 0 := by
  refine editView_trade ?_ h hw
  intro pane tab tab' h
  exact card_of_allowed h rfl

theorem dockPresentation_trade {presentation : DockPresentation}
    (h : dockPresentation tabId presentation window = .ok window') (hw : window.Distinct) : window.Trade window' 0 0 := by
  refine editView_trade ?_ h hw
  intro pane tab tab' h
  exact card_of_allowed h rfl

theorem renamePane_trade {titleProtection : Option PrivateLabel}
    (h : renamePane paneId titleProtection window = .ok window') : window.Trade window' 0 0 := by
  obtain ⟨pane, hfound, hrun⟩ := bind_eq_ok.mp h
  obtain ⟨hfind, -, rfl⟩ := paneById_eq_ok hfound
  obtain ⟨old, hold, rfl⟩ := storePane_eq_ok hrun
  exact .putPane pane hfind rfl

theorem home_trade (h : home window = .ok window') : window.Trade window' 0 0 := by
  obtain rfl := ok.inj h
  exact .keep rfl rfl

theorem resize_trade {fraction : SplitFraction} (h : resize splitId fraction window = .ok window') :
    window.Trade window' 0 0 := by
  obtain ⟨root, -, hrun⟩ := bind_eq_ok.mp h
  obtain rfl := ok.inj hrun
  exact .keep rfl rfl

/-! ## Orders -/

theorem perm_of_keys {α κ : Type} {key : α → κ} {a b : List α} (hnodup : (a.map key).Nodup) (hsub : a ⊆ b)
    (hlen : b.length ≤ a.length) : a.Perm b :=
  (subperm_of_subset hnodup.of_map hsub).perm_of_length_le hlen

theorem lookups_eq_ok {α κ ε : Type} {key : α → κ} {l : List α} {find : κ → Except ε α} {keys : List κ} {found : List α}
    (hfind : ∀ k a, find k = .ok a → key a = k ∧ a ∈ l) (h : keys.mapM find = .ok found) :
    found.map key = keys ∧ found ⊆ l := by
  induction keys generalizing found with
  | nil =>
    obtain rfl := ok.inj h
    exact ⟨rfl, nil_subset l⟩
  | cons k keys ih =>
    rw [mapM_cons] at h
    obtain ⟨a, ha, h⟩ := bind_eq_ok.mp h
    obtain ⟨rest, hrest, h⟩ := bind_eq_ok.mp h
    obtain rfl := ok.inj h
    obtain ⟨hkey, hmem⟩ := hfind k a ha
    obtain ⟨hkeys, hsub⟩ := ih hrest
    exact ⟨by rw [map_cons, hkey, hkeys], cons_subset.mpr ⟨hmem, hsub⟩⟩

theorem exactIds_eq_true {ids members : List Identity} (h : exactIds ids members = true) (hnodup : members.Nodup) :
    ids.length = members.length ∧ (∀ id ∈ ids, id ∈ members) ∧ ids.Nodup := by
  unfold exactIds at h
  simp only [hnodup.dedup, decide_eq_true_eq] at h
  exact h

theorem reorder_trade {tabIds : List Identity} (h : reorder paneId tabIds window = .ok window')
    (hw : window.Distinct) : window.Trade window' 0 0 := by
  obtain ⟨pane, hfound, hrun⟩ := bind_eq_ok.mp h
  obtain ⟨hfind, hpane, rfl⟩ := paneById_eq_ok hfound
  split_ifs at hrun with hexact
  · exact absurd hrun (invalid_ne_ok _ _)
  obtain ⟨tabs, htabs, hrun⟩ := bind_eq_ok.mp hrun
  obtain ⟨old, hold, rfl⟩ := storePane_eq_ok hrun
  have hnodup : pane.tabIds.Nodup := by
    have := (hw.pane hpane).2
    rw [Pane.viewIds_eq] at this
    exact (nodup_append'.mp this).1
  obtain ⟨hlen, -, hids⟩ := exactIds_eq_true (by simpa using hexact) hnodup
  have hlookup : ∀ id tab, expect (pane.tabs.find? fun t => t.id = id) "unwrap" = .ok tab → tab.id = id ∧ tab ∈ pane.tabs := by
    intro id tab hfound
    rw [expect_eq_ok] at hfound
    exact ⟨by simpa using find?_some hfound, mem_of_find?_eq_some hfound⟩
  obtain ⟨hmap, hsub⟩ := lookups_eq_ok hlookup htabs
  have hperm : tabs.Perm pane.tabs := by
    have hcount := congrArg length hmap
    rw [length_map, hlen, Pane.tabIds, length_map] at hcount
    exact perm_of_keys (by rw [hmap]; exact hids) hsub hcount.ge
  refine .putPane pane hfind ?_
  rw [Pane.cards_eq, Pane.cards_eq pane]
  have : (↑(tabs.map Tab.card) : Multiset Card) = ↑(pane.tabs.map Tab.card) := Multiset.coe_eq_coe.mpr (hperm.map _)
  rw [this]
  rfl

theorem reorderRegion_perm {members panes' : List Pane} {ids : List Identity}
    (h : reorderRegion region members panes ids = .ok panes') :
    ∃ placed rest, ids = placed.map (·.id) ++ rest ∧ placed.length = (panes.filter fun p => p.region = region).length ∧
      placed ⊆ members ∧ panes'.Perm (placed ++ panes.filter fun p => ¬p.region = region) := by
  induction panes generalizing ids panes' with
  | nil =>
    obtain rfl := ok.inj h
    exact ⟨[], ids, rfl, rfl, nil_subset _, .refl _⟩
  | cons pane panes ih =>
    unfold reorderRegion at h
    split_ifs at h with hregion
    · cases ids with
      | nil => exact absurd h (by simp)
      | cons id ids =>
        obtain ⟨member, hmember, h⟩ := bind_eq_ok.mp h
        obtain ⟨tail, htail, h⟩ := bind_eq_ok.mp h
        obtain rfl := ok.inj h
        rw [expect_eq_ok] at hmember
        have hid : member.id = id := by simpa using find?_some hmember
        obtain ⟨placed, rest, rfl, hlen, hsub, hperm⟩ := ih htail
        refine ⟨member :: placed, rest, ?_, ?_, ?_, ?_⟩
        · rw [map_cons, cons_append, hid]
        · rw [filter_cons_of_pos (by simpa using hregion), length_cons, length_cons, hlen]
        · exact cons_subset.mpr ⟨mem_of_find?_eq_some hmember, hsub⟩
        · rw [filter_cons_of_neg (by simpa using hregion)]
          exact hperm.cons member
    · obtain ⟨tail, htail, h⟩ := bind_eq_ok.mp h
      obtain rfl := ok.inj h
      obtain ⟨placed, rest, rfl, hlen, hsub, hperm⟩ := ih htail
      refine ⟨placed, rest, rfl, ?_, hsub, ?_⟩
      · rw [filter_cons_of_neg (by simpa using hregion), hlen]
      · rw [filter_cons_of_pos (by simpa using hregion)]
        exact (hperm.cons pane).trans perm_middle.symm

theorem reorderPanes_perm {paneIds : List Identity} (h : reorderPanes region paneIds window = .ok window')
    (hw : window.Distinct) : window'.id = window.id ∧ window'.panes.Perm window.panes := by
  unfold reorderPanes at h
  dsimp only at h
  by_cases hexact : (!exactIds paneIds ((window.panes.filter fun p => p.region = region).map (·.id))) = true
  · rw [if_pos hexact] at h
    exact absurd h (invalid_ne_ok _ _)
  rw [if_neg hexact] at h
  obtain ⟨panes, hpanes, hrun⟩ := bind_eq_ok.mp h
  obtain ⟨placed, rest, hids, hcount, hsub, hperm⟩ := reorderRegion_perm hpanes
  have hmembers : ((window.panes.filter fun p => p.region = region).map (·.id)).Nodup :=
    hw.paneIds.sublist (filter_sublist.map _)
  obtain ⟨hlen, -, hnodup⟩ := exactIds_eq_true (by simpa using hexact) hmembers
  rw [length_map] at hlen
  have hplaced : placed.Perm (window.panes.filter fun p => p.region = region) := by
    rw [hids] at hnodup
    exact perm_of_keys (nodup_append'.mp hnodup).1 hsub hcount.ge
  have hall : panes.Perm window.panes := by
    refine hperm.trans ((hplaced.append_right _).trans ?_)
    simpa using filter_append_perm (fun p : Pane => decide (p.region = region)) window.panes
  have hwindow : window'.id = window.id ∧ window'.panes = panes := by
    split at hrun
    · obtain rfl := ok.inj hrun
      exact ⟨rfl, rfl⟩
    · split at hrun
      · obtain ⟨root, -, hrun⟩ := bind_eq_ok.mp hrun
        obtain rfl := ok.inj hrun
        exact ⟨rfl, rfl⟩
      · obtain rfl := ok.inj hrun
        exact ⟨rfl, rfl⟩
  exact ⟨hwindow.1, hwindow.2 ▸ hall⟩

theorem reorderPanes_trade {paneIds : List Identity} (h : reorderPanes region paneIds window = .ok window')
    (hw : window.Distinct) : window.Trade window' 0 0 := by
  obtain ⟨hid, hperm⟩ := reorderPanes_perm h hw
  exact .keep hid (hperm.map Pane.cards).sum_eq

/-! ## Moves -/

theorem takeTab_trade (hw : window.Distinct) (hpane : pane ∈ window.panes)
    (htab : tab ∈ paneViews pane) (h : takeTab window pane tab = .ok window') :
    window.Trade window' 0 {tab.card} ∧ window' = window.taken pane tab.id := by
  obtain ⟨hfind, hviews⟩ := hw.pane hpane
  refine ⟨.takeTab hw.paneIds hfind hviews htab (add_zero _) h, ?_⟩
  rw [takeTab_eq hfind (List.mem_map_of_mem htab)] at h
  exact (ok.inj h).symm

theorem cards_insertIdx (pane : Pane) (h : position ≤ pane.tabs.length) :
    Pane.cards { pane with tabs := pane.tabs.insertIdx position tab } = tab.card ::ₘ pane.cards := by
  have hperm : ((pane.tabs.insertIdx position tab).map Tab.card).Perm (tab.card :: pane.tabs.map Tab.card) :=
    (perm_insertIdx tab pane.tabs h).map _
  rw [Pane.cards_eq, Pane.cards_eq pane, ← Multiset.cons_add, Multiset.cons_coe, Multiset.coe_eq_coe.mpr hperm]
  rfl

theorem cards_filter (hviews : pane.viewIds.Nodup) (htab : tab ∈ pane.tabs) :
    tab.card ::ₘ Pane.cards { pane with tabs := pane.tabs.filter fun t => t.id ≠ tab.id } = pane.cards := by
  have hids : pane.tabIds.Nodup := by
    rw [Pane.viewIds_eq] at hviews
    exact (nodup_append'.mp hviews).1
  obtain ⟨pre, post, htabs⟩ := append_of_mem htab
  have hrest : pane.tabs.filter (fun t => t.id ≠ tab.id) = pre ++ post := by
    rw [htabs]
    exact filter_key_ne tab.id tab pre post (by rw [← htabs]; exact hids) rfl
  rw [hrest, Pane.cards_eq, Pane.cards_eq pane, htabs, ← Multiset.cons_add, Multiset.cons_coe, map_append,
    map_append, map_cons, Multiset.coe_eq_coe.mpr (perm_middle (a := tab.card)).symm]
  rfl

theorem land_trade {target landed : Pane} {added : Multiset Card}
    (hstore : storePane window landed = .ok stored) (h : navigate layout stored landed.id tabId = .ok window')
    (hfind : findPane window target.id = some target) (hid : landed.id = target.id)
    (hcards : landed.cards = target.cards + added) (hdirect : landed.direct = target.direct ∨ landed.direct = none) :
    ∃ lost, window.Trade window' added lost ∧ layout.Sheds target lost := by
  obtain ⟨old, hold, rfl⟩ := storePane_eq_ok hstore
  have hput : window.Trade (window.putPane landed) added 0 :=
    .putPane target (by rw [hid]; exact hfind) (by rw [add_zero, hcards])
  have hmem : landed.id ∈ window.paneIds := by
    obtain ⟨hp, he⟩ := mem_of_findPane hfind
    rw [hid]
    exact List.mem_map_of_mem hp
  obtain ⟨p, hp, htrade, hreleases⟩ := Window.Trade.navigate h
  obtain rfl := some.inj ((findPane_putPane hmem).symm.trans hp)
  have := hput.trans htrade
  rw [add_zero, zero_add] at this
  exact ⟨_, this, hreleases.sheds.of_direct hdirect⟩

theorem move_trade {targetPaneId : Identity}
    (h : move tabId targetPaneId position layout window = .ok window') (hw : window.Distinct) :
    ∃ target ∈ window.panes, target.id = targetPaneId ∧ ∃ lost, window.Trade window' 0 lost ∧ layout.Sheds target lost := by
  obtain ⟨⟨pane, tab⟩, hfound, hrun⟩ := bind_eq_ok.mp h
  obtain ⟨target, htarget, hmain⟩ := bind_eq_ok.mp hrun
  obtain ⟨hpane, htab, rfl⟩ := tabById_eq_ok hfound
  obtain ⟨hfind, htargetMem, rfl⟩ := paneById_eq_ok htarget
  refine ⟨target, htargetMem, rfl, ?_⟩
  dsimp only at hmain
  by_cases hposition : position > target.tabs.length - (if target.id = pane.id ∧ ¬pane.directId = some tab.id then 1 else 0)
  · rw [if_pos hposition] at hmain
    exact absurd hmain (invalid_ne_ok _ _)
  rw [if_neg hposition] at hmain
  by_cases hsame : target.id = pane.id
  · have htargetEq : target = pane := by
      have := (hw.pane hpane).1
      rw [← hsame, hfind] at this
      exact some.inj this
    subst htargetEq
    have hviews := (hw.pane hpane).2
    rw [if_pos hsame] at hmain
    by_cases hdirect : target.directId = some tab.id
    · -- the conversation becomes a tab of its own pane
      rw [if_pos hdirect] at hmain
      obtain ⟨_, hpair, hmain⟩ := bind_eq_ok.mp hmain
      obtain rfl := ok.inj hpair
      obtain ⟨stored, hstore, hmain⟩ := bind_eq_ok.mp hmain
      obtain ⟨view, hview, hid⟩ := map_eq_some_iff.mp hdirect
      have hin : view ∈ paneViews target := by simp [paneViews, hview]
      obtain rfl := view_eq_of_id hviews hin htab hid
      refine land_trade hstore hmain hfind rfl ?_ (.inr rfl)
      have hbare : position ≤ target.bare.tabs.length := by
        simp only [hdirect, not_true_eq_false, and_false, if_false] at hposition
        exact Nat.le_of_not_gt hposition
      rw [add_zero]
      refine (cards_insertIdx target.bare hbare).trans ?_
      rw [Pane.cards_eq target, hview, Pane.cards_eq, direct_bare, ← Multiset.singleton_add, add_comm]
      simp [Pane.bare]
    · rw [if_neg hdirect] at hmain
      obtain ⟨_, hpair, hmain⟩ := bind_eq_ok.mp hmain
      obtain rfl := ok.inj hpair
      obtain ⟨stored, hstore, hmain⟩ := bind_eq_ok.mp hmain
      have hin : tab ∈ target.tabs := by
        rcases mem_append.mp htab with htab | htab
        · exact htab
        · refine absurd ?_ hdirect
          rw [Pane.directId, mem_toList.mp htab]
          rfl
      refine land_trade hstore hmain hfind rfl ?_ (.inl rfl)
      have hlen : position ≤ (target.tabs.filter fun t => t.id ≠ tab.id).length := by
        have hcard := congrArg Multiset.card (cards_filter hviews hin)
        simp only [Multiset.card_cons, Pane.cards, Multiset.coe_card, length_map, paneViews, length_append] at hcard
        simp only [hdirect, not_false_eq_true, and_self, if_true] at hposition
        have hsameDirect : Pane.direct { target with tabs := target.tabs.filter fun t => t.id ≠ tab.id } = target.direct := rfl
        rw [hsameDirect] at hcard
        omega
      rw [add_zero, ← cards_filter hviews hin]
      exact cards_insertIdx { target with tabs := target.tabs.filter fun t => t.id ≠ tab.id } hlen
  · rw [if_neg hsame] at hmain
    obtain ⟨taken, htake, hmain⟩ := bind_eq_ok.mp hmain
    obtain ⟨_, hpair, hmain⟩ := bind_eq_ok.mp hmain
    obtain rfl := ok.inj hpair
    obtain ⟨stored, hstore, hmain⟩ := bind_eq_ok.mp hmain
    obtain ⟨htrade, heq⟩ := takeTab_trade hw hpane htab htake
    have hfind' : findPane taken target.id = some target := by rw [heq, findPane_taken hsame, hfind]
    have hlen : position ≤ target.tabs.length := by
      simp only [hsame, false_and, if_false] at hposition
      exact Nat.le_of_not_gt hposition
    have hcards : Pane.cards { target with tabs := target.tabs.insertIdx position tab } = target.cards + {tab.card} := by
      rw [cards_insertIdx target hlen, ← Multiset.singleton_add, add_comm]
    obtain ⟨lost, hland, hsheds⟩ := land_trade hstore hmain hfind' rfl hcards (.inl rfl)
    refine ⟨lost, ?_, hsheds⟩
    have := htrade.trans hland
    rw [zero_add] at this
    exact Window.Trade.cancel {tab.card} (by rw [add_zero]; exact this)

theorem appear_trade {centerRoot : Option Node} (hperm : panes.Perm (newPane paneId region tab :: window.panes))
    (h : navigate layout { window with panes, centerRoot } paneId tab.id = .ok window') :
    ∃ lost, window.Trade window' {tab.card} lost ∧ (lost = 0 ∨ ¬window'.paneIds.Nodup) := by
  obtain ⟨p, hp, htrade, -⟩ := Window.Trade.navigate h
  have hinsert : window.Trade { window with panes, centerRoot } {tab.card} 0 := .insert hperm
  have hsum := hinsert.trans htrade
  rw [add_zero, zero_add] at hsum
  refine ⟨_, hsum, ?_⟩
  by_cases hnodup : window'.paneIds.Nodup
  · left
    rw [paneIds_navigate h] at hnodup
    have hmem : newPane paneId region tab ∈ panes := hperm.mem_iff.mpr (by simp)
    have hnew : findPane { window with panes, centerRoot } paneId = some (newPane paneId region tab) :=
      findPane_of_mem hnodup hmem
    obtain rfl := some.inj (hnew.symm.trans hp)
    simp [Pane.leaving, newPane, Pane.direct]
  · exact .inr hnodup

theorem insertion_le {region : List Pane} {place : Nat} (h : insertion panes region position = .ok place) :
    place ≤ panes.length := by
  unfold insertion at h
  split at h
  · rw [expect_eq_ok] at h
    exact (findIdx?_eq_some_iff_getElem.mp h).1.le
  · obtain ⟨index, hindex, rfl⟩ := map_eq_ok.mp h
    rw [expect_eq_ok] at hindex
    have := (findIdx?_eq_some_iff_getElem.mp hindex).1
    omega
  · exact (ok.inj h).ge

theorem moveNewPane_trade
    (h : moveNewPane tabId paneId region position splitId layout window = .ok window') (hw : window.Distinct) :
    ∃ lost, window.Trade window' 0 lost ∧ (lost = 0 ∨ ¬window'.paneIds.Nodup) := by
  obtain ⟨⟨pane, tab⟩, hfound, hrun⟩ := bind_eq_ok.mp h
  obtain ⟨hpane, htab, -⟩ := tabById_eq_ok hfound
  dsimp only at hrun
  split at hrun
  · exact absurd hrun (invalid_ne_ok _ _)
  obtain ⟨taken, htaken, hrun⟩ := bind_eq_ok.mp hrun
  obtain ⟨place, hplace, hrun⟩ := bind_eq_ok.mp hrun
  obtain ⟨centerRoot, hnavigate⟩ : ∃ centerRoot, navigate layout
      { taken with panes := taken.panes.insertIdx place (newPane paneId region tab), centerRoot } paneId tab.id = .ok window' := by
    split at hrun
    · obtain ⟨root, -, hrun⟩ := bind_eq_ok.mp hrun
      exact ⟨root, hrun⟩
    · exact ⟨taken.centerRoot, hrun⟩
  obtain ⟨htrade, -⟩ := takeTab_trade hw hpane htab htaken
  obtain ⟨lost, happear, hlost⟩ := appear_trade (perm_insertIdx _ _ (insertion_le hplace)) hnavigate
  have hsum := htrade.trans happear
  rw [zero_add] at hsum
  exact ⟨lost, Window.Trade.cancel {tab.card} (by rw [add_zero]; exact hsum), hlost⟩

theorem split_trade {targetPaneId : Identity} {edge : Edge} {fraction : SplitFraction}
    (h : split tabId targetPaneId paneId splitId edge fraction layout window = .ok window') (hw : window.Distinct) :
    ∃ lost, window.Trade window' 0 lost ∧ (lost = 0 ∨ ¬window'.paneIds.Nodup) := by
  obtain ⟨⟨pane, tab⟩, hfound, hrun⟩ := bind_eq_ok.mp h
  obtain ⟨target, -, hrun⟩ := bind_eq_ok.mp hrun
  obtain ⟨hpane, htab, -⟩ := tabById_eq_ok hfound
  dsimp only at hrun
  by_cases hsurvives : target.region ≠ .center ∨ (pane.id = target.id ∧ (paneViews pane).length = 1)
  · rw [if_pos hsurvives] at hrun
    exact absurd hrun (invalid_ne_ok _ _)
  rw [if_neg hsurvives] at hrun
  obtain ⟨taken, htaken, hrun⟩ := bind_eq_ok.mp hrun
  obtain ⟨root, -, hrun⟩ := bind_eq_ok.mp hrun
  obtain ⟨place, hplace, hrun⟩ := bind_eq_ok.mp hrun
  rw [expect_eq_ok] at hplace
  have hbound := (findIdx?_eq_some_iff_getElem.mp hplace).1
  obtain ⟨htrade, -⟩ := takeTab_trade hw hpane htab htaken
  obtain ⟨lost, happear, hlost⟩ := appear_trade (perm_insertIdx _ _ (by split <;> omega)) hrun
  have hsum := htrade.trans happear
  rw [zero_add] at hsum
  exact ⟨lost, Window.Trade.cancel {tab.card} (by rw [add_zero]; exact hsum), hlost⟩

/-! ## Opening -/

theorem openNewPane_trade {replacePreviewTabId : Option Identity}
    (h : openNewPane tab replacePreviewTabId paneId region splitId layout window = .ok window') :
    ∃ lost, window.Trade window' {tab.card} lost ∧ (lost = 0 ∨ ¬window'.paneIds.Nodup) := by
  unfold openNewPane at h
  split at h
  · exact absurd h (invalid_ne_ok _ _)
  · exact appear_trade (perm_append_singleton _ _) h

theorem reopened_card {action tab' : Tab} (h : reopened layout tab action = .ok tab') : tab'.card = tab.card := by
  unfold reopened at h
  dsimp only at h
  generalize hpinned : (if action.preview then tab else { tab with preview := false }) = pinned at h
  have hcard : pinned.card = tab.card := by
    rw [← hpinned]
    split <;> rfl
  cases hviewer : action.fileViewer with
  | none =>
    rw [hviewer] at h
    exact ok.inj h ▸ hcard
  | some viewer =>
    rw [hviewer] at h
    dsimp only at h
    split at h
    · exact absurd h (invalid_ne_ok _ _)
    · exact ok.inj h ▸ hcard

theorem reopen_trade {owner owner' : Window} {action : Tab} (hw : owner.Distinct) (hpane : pane ∈ owner.panes)
    (htab : tab ∈ paneViews pane) (h : reopen layout action owner pane tab = .ok owner') :
    ∃ lost, owner.Trade owner' 0 lost ∧ layout.Sheds pane lost := by
  obtain ⟨tab', htab', hrun⟩ := bind_eq_ok.mp h
  obtain ⟨pane', hpane', hrun⟩ := bind_eq_ok.mp hrun
  obtain ⟨stored, hstore, hrun⟩ := bind_eq_ok.mp hrun
  obtain ⟨hfind, hviews⟩ := hw.pane hpane
  have hcard := reopened_card htab'
  obtain ⟨hid, hcards, -⟩ := storeView_cards hpane' htab hcard hviews
  obtain ⟨old, hold, rfl⟩ := storePane_eq_ok hstore
  have hput : owner.Trade (owner.putPane pane') 0 0 := .putPane pane (by rw [hid]; exact hfind) (by rw [hcards])
  have hmem : pane'.id ∈ owner.paneIds := by
    rw [hid]
    exact List.mem_map_of_mem hpane
  obtain ⟨p, hp, htrade, hreleases⟩ := Window.Trade.navigate hrun
  obtain rfl := some.inj ((findPane_putPane hmem).symm.trans hp)
  have hsum := hput.trans htrade
  rw [zero_add, zero_add] at hsum
  refine ⟨_, hsum, ?_⟩
  -- a conversation that was brought up to date is the one navigated to
  unfold storeView at hpane'
  split_ifs at hpane' with hdirect
  · obtain rfl := ok.inj hpane'
    exact .inl (by simp [Pane.leaving, Pane.direct])
  · obtain ⟨existing, -, hpane'⟩ := bind_eq_ok.mp hpane'
    obtain rfl := ok.inj hpane'
    exact hreleases.sheds.of_direct (.inl rfl)

def Replaced (layout : Layout) (target : Pane) (replacePreviewTabId : Option Identity) (replaced : Multiset Card) : Prop :=
  replaced = 0 ∨ ∃ old ∈ target.tabs, replacePreviewTabId = some old.id ∧ old.preview ∧ layout.reserved old.id = false ∧
    replaced = {old.card}

theorem cards_set {old : Tab} {index : Nat} (hviews : pane.viewIds.Nodup) (hold : old ∈ paneViews pane)
    (hindex : (pane.tabs.findIdx? fun t => t.id = old.id) = some index) :
    Pane.cards { pane with tabs := pane.tabs.set index tab } + {old.card} = pane.cards + {tab.card} := by
  obtain ⟨hbound, hat, -⟩ := findIdx?_eq_some_iff_getElem.mp hindex
  have hin : pane.tabs[index] ∈ pane.tabs := getElem_mem hbound
  have hold' : pane.tabs[index] = old :=
    view_eq_of_id hviews (mem_append_left _ hin) hold (by simpa using hat)
  have htabs : pane.tabs = pane.tabs.take index ++ old :: pane.tabs.drop (index + 1) := by
    rw [← hold', getElem_cons_drop, take_append_drop]
  rw [Pane.cards_eq, Pane.cards_eq pane, set_eq_take_append_cons_drop, if_pos hbound]
  conv_rhs => rw [htabs]
  simp only [map_append, map_cons, ← Multiset.coe_add, ← Multiset.cons_coe, ← Multiset.singleton_add]
  have hsum : ∀ a b c d e : Multiset Card, a + (b + c) + d + e = a + (e + c) + d + b := fun a b c d e => by abel
  exact hsum _ _ _ _ _

theorem replace_trade {old : Tab} {index : Nat} (hw : window.Distinct)
    (hpane : pane ∈ window.panes) (hold : old ∈ paneViews pane)
    (hindex : (pane.tabs.findIdx? fun t => t.id = old.id) = some index)
    (hstore : storePane window { pane with tabs := pane.tabs.set index tab } = .ok stored)
    (h : navigate layout stored pane.id tab.id = .ok window') :
    ∃ lost, window.Trade window' {tab.card} ({old.card} + lost) ∧ layout.Sheds pane lost := by
  obtain ⟨hfind, hviews⟩ := hw.pane hpane
  obtain ⟨_, -, rfl⟩ := storePane_eq_ok hstore
  have hput : window.Trade (window.putPane { pane with tabs := pane.tabs.set index tab }) {tab.card} {old.card} :=
    .putPane pane hfind (cards_set hviews hold hindex)
  have hmem : pane.id ∈ window.paneIds := List.mem_map_of_mem hpane
  have hself : findPane (window.putPane { pane with tabs := pane.tabs.set index tab }) pane.id =
      some { pane with tabs := pane.tabs.set index tab } :=
    @findPane_putPane { pane with tabs := pane.tabs.set index tab } window hmem
  obtain ⟨p, hp, htrade, hreleases⟩ := Window.Trade.navigate h
  obtain rfl := some.inj (hself.symm.trans hp)
  have hall := hput.trans htrade
  rw [add_zero] at hall
  exact ⟨_, hall, hreleases.sheds.of_direct (.inl rfl)⟩

theorem append_trade {target : Pane} (hw : window.Distinct) (htarget : target ∈ window.panes)
    (hstore : storePane window { target with tabs := target.tabs ++ [tab] } = .ok stored)
    (h : navigate layout stored target.id tab.id = .ok window') :
    ∃ lost, window.Trade window' {tab.card} lost ∧ layout.Sheds target lost := by
  have hcards : Pane.cards { target with tabs := target.tabs ++ [tab] } = target.cards + {tab.card} := by
    rw [Pane.cards_eq, Pane.cards_eq target, map_append, ← Multiset.coe_add]
    have hsum : ∀ a b c : Multiset Card, a + b + c = a + c + b := fun a b c => by abel
    exact hsum _ _ _
  exact land_trade hstore h (hw.pane htarget).1 rfl hcards (.inl rfl)

theorem openInPane_trade {replacePreviewTabId : Option Identity} (hw : window.Distinct)
    (h : openInPane tab replacePreviewTabId paneId layout window = .ok window') :
    ∃ target ∈ window.panes, target.id = paneId ∧ ∃ replaced lost, window.Trade window' {tab.card} (replaced + lost) ∧
      layout.Sheds target lost ∧ Replaced layout target replacePreviewTabId replaced := by
  obtain ⟨target, htarget, hrun⟩ := bind_eq_ok.mp h
  obtain ⟨-, hpane, hid⟩ := paneById_eq_ok htarget
  refine ⟨target, hpane, hid, ?_⟩
  have happend : ∀ stored, storePane window { target with tabs := target.tabs ++ [tab] } = .ok stored →
      navigate layout stored target.id tab.id = .ok window' → ∃ replaced lost,
        window.Trade window' {tab.card} (replaced + lost) ∧ layout.Sheds target lost ∧
          Replaced layout target replacePreviewTabId replaced := by
    intro stored hstore hnavigate
    obtain ⟨lost, htrade, hsheds⟩ := append_trade hw hpane hstore hnavigate
    exact ⟨0, lost, by rw [zero_add]; exact htrade, hsheds, .inl rfl⟩
  cases replacePreviewTabId with
  | none =>
    obtain ⟨_, hnone, hrun⟩ := bind_eq_ok.mp hrun
    obtain rfl := ok.inj hnone
    obtain ⟨-, hrun⟩ := check_eq_ok.mp hrun
    obtain ⟨_, hlanded, hrun⟩ := bind_eq_ok.mp hrun
    obtain rfl := ok.inj hlanded
    obtain ⟨stored, hstore, hnavigate⟩ := bind_eq_ok.mp hrun
    exact happend stored hstore hnavigate
  | some id =>
    obtain ⟨_, hfound, hlooked⟩ := bind_eq_ok.mp hrun
    obtain ⟨⟨pane, old⟩, hview, rfl⟩ := map_eq_ok.mp hfound
    obtain ⟨hsame, hmain⟩ := check_eq_ok.mp hlooked
    obtain ⟨holdPane, hold, rfl⟩ := tabById_eq_ok hview
    have htargetEq : pane = target := by
      by_contra hne
      refine hsame ⟨(pane, old), rfl, .inl fun he => hne ?_⟩
      have hfind := (hw.pane holdPane).1
      rw [show pane.id = target.id from he, (hw.pane hpane).1] at hfind
      exact (some.inj hfind).symm
    subst htargetEq
    by_cases hpreview : old.preview = true
    · have hfilter : (some (pane, old)).filter (·.2.preview) = some (pane, old) := by simp [hpreview]
      rw [hfilter] at hmain
      dsimp only at hmain
      split at hmain
      · obtain ⟨_, hrefused, -⟩ := bind_eq_ok.mp hmain
        exact absurd hrefused (invalid_ne_ok _ _)
      next hreserved =>
      obtain ⟨index, hindex, hlater⟩ := bind_eq_ok.mp hmain
      obtain ⟨_, hlanded, hlater⟩ := bind_eq_ok.mp hlater
      obtain rfl := ok.inj hlanded
      obtain ⟨stored, hstore, hnavigate⟩ := bind_eq_ok.mp hlater
      rw [expect_eq_ok] at hindex
      obtain ⟨lost, htrade, hsheds⟩ := replace_trade hw hpane hold hindex hstore hnavigate
      have hin : old ∈ pane.tabs := by
        obtain ⟨hbound, hat, -⟩ := findIdx?_eq_some_iff_getElem.mp hindex
        have hget : pane.tabs[index] ∈ pane.tabs := getElem_mem hbound
        rwa [view_eq_of_id (hw.pane hpane).2 (mem_append_left _ hget) hold (by simpa using hat)] at hget
      exact ⟨_, lost, htrade, hsheds, .inr ⟨old, hin, rfl, hpreview, by simpa using hreserved, rfl⟩⟩
    · have hfilter : (some (pane, old)).filter (·.2.preview) = none := by simp [hpreview]
      rw [hfilter] at hmain
      obtain ⟨_, hlanded, hlater⟩ := bind_eq_ok.mp hmain
      obtain rfl := ok.inj hlanded
      obtain ⟨stored, hstore, hnavigate⟩ := bind_eq_ok.mp hlater
      exact happend stored hstore hnavigate

theorem conversationPane_eq_ok {paneId : Option Identity} {newPaneId : Identity}
    (h : conversationPane window paneId newPaneId splitId = .ok (window', pane)) :
    (pane ∈ window.panes ∧ pane.region = .center ∧ window' = window) ∨ (pane.direct = none ∧ pane.cards = 0 ∧
        ∃ centerRoot, window' = { window with panes := window.panes ++ [pane], centerRoot }) := by
  have hexisting : ∀ p ∈ window.panes, (if p.region ≠ .center then invalid "Direct conversations require a center pane."
      else .ok (window, p)) = (.ok (window', pane) : Except Failure (Window × Pane)) →
      pane ∈ window.panes ∧ pane.region = .center ∧ window' = window := by
    intro p hp h
    obtain ⟨hcenter, h⟩ := check_eq_ok.mp h
    obtain ⟨rfl, rfl⟩ := Prod.mk.inj (ok.inj h)
    exact ⟨hp, by simpa using hcenter, rfl⟩
  cases paneId with
  | none =>
    obtain ⟨_, htarget, hrun⟩ := bind_eq_ok.mp h
    obtain rfl := ok.inj htarget
    cases hcenter : recentCenter window with
    | none =>
      rw [hcenter] at hrun
      obtain ⟨rfl, rfl⟩ := Prod.mk.inj (ok.inj hrun)
      exact .inr ⟨rfl, rfl, _, rfl⟩
    | some p =>
      rw [hcenter] at hrun
      refine .inl (hexisting p ?_ hrun)
      rw [recentCenter, or_eq_some_iff] at hcenter
      rcases hcenter with hp | ⟨-, hp⟩
      · obtain ⟨id, -, hp⟩ := exists_of_findSome?_eq_some hp
        exact mem_of_find?_eq_some hp
      · exact mem_of_find?_eq_some hp
  | some id =>
    obtain ⟨_, htarget, hrun⟩ := bind_eq_ok.mp h
    obtain ⟨p, hfound, rfl⟩ := map_eq_ok.mp htarget
    exact .inl (hexisting p (paneById_eq_ok hfound).2.1 hrun)

theorem converse_trade {expected : Option (Option Identity)} {view : Tab} {paneId : Option Identity}
    {newPaneId : Identity} (hw : window.Distinct)
    (h : converse expected view paneId newPaneId splitId layout window = .ok window') :
    ∃ lost, window.Trade window' {view.card} lost ∧ (lost = 0 ∨ ¬window'.paneIds.Nodup ∨
      ∃ pane ∈ window.panes, pane.region = .center ∧ layout.Sheds pane lost) := by
  obtain ⟨⟨window₁, pane⟩, hpane, hrun⟩ := bind_eq_ok.mp h
  dsimp only at hrun
  split at hrun
  · exact absurd hrun (invalid_ne_ok _ _)
  next hreserved =>
  split at hrun
  · exact absurd hrun (invalid_ne_ok _ _)
  obtain ⟨stored, hstore, hrun⟩ := bind_eq_ok.mp hrun
  obtain ⟨old, hold, rfl⟩ := storePane_eq_ok hstore
  have hcards : Pane.cards { pane with conversationView := some (some view) } + ↑(pane.direct.toList.map Tab.card) =
      pane.cards + {view.card} := by
    rw [Pane.cards_eq, Pane.cards_eq pane]
    have hsum : ∀ a b c : Multiset Card, a + b + c = a + c + b := fun a b c => by abel
    exact hsum _ _ _
  rcases conversationPane_eq_ok hpane with ⟨hin, hcenter, rfl⟩ | ⟨hdirect, hempty, centerRoot, rfl⟩
  · have hput : window₁.Trade (window₁.putPane { pane with conversationView := some (some view) }) {view.card} _ :=
      .putPane pane (hw.pane hin).1 hcards
    refine ⟨_, hput.then_keep (.focus hrun), .inr (.inr ⟨pane, hin, hcenter, ?_⟩)⟩
    cases hdirect : pane.direct with
    | none => exact .inl (by simp)
    | some previous =>
      refine .inr ⟨previous, hdirect, ?_, by simp⟩
      by_contra hres
      exact hreserved ⟨previous, hdirect, by simpa using hres⟩
  · -- where the identity of the new pane is taken, the older pane is written over
    have hinsert : window.Trade { window with panes := window.panes ++ [pane], centerRoot } pane.cards 0 :=
      .insert (perm_append_singleton _ _)
    have hstored : Window.Trade { window with panes := window.panes ++ [pane], centerRoot } window' {view.card} old.cards := by
      refine Window.Trade.then_keep (.putPane old hold ?_) (.focus hrun)
      rw [hdirect, hempty, zero_add] at hcards
      simp only [toList_none, map_nil, Multiset.coe_nil, add_zero] at hcards
      rw [hcards, add_comm]
    have hall := hinsert.trans hstored
    rw [hempty, zero_add, zero_add] at hall
    refine ⟨_, hall, ?_⟩
    by_cases hnodup : window'.paneIds.Nodup
    · rw [paneIds_focus hrun, paneIds_putPane] at hnodup
      have hfind : findPane { window with panes := window.panes ++ [pane], centerRoot } pane.id = some pane :=
        findPane_of_mem hnodup (by simp)
      obtain rfl := some.inj (hfind.symm.trans hold)
      exact .inl hempty
    · exact .inr (.inl hnodup)

end Server

end Cantrip.Workspace
