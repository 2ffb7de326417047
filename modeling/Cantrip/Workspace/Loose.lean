import Cantrip.Workspace.Transfers
import Cantrip.Workspace.Tree

/-!
# Windows in the middle of a command

Between its steps a command holds a window whose new panes have no selection yet and whose recent tabs may
name views that are gone. `Window.Loose` is what the helpers of the commands keep: the checks of the
refinement on one window, up to what `Window.finish` repairs at the end.
-/

namespace Cantrip.Workspace

open Lib List

/-! ## Panes -/

structure Pane.Loose (version : Version) (pane : Pane) : Prop where
  plain : version = .v1 → pane.conversationView = none ∧ pane.selection = none
  views : paneViews pane ≠ []
  active : (pane.activeTabId = none → pane.tabs = []) ∧ ∀ id ∈ pane.activeTabId, id ∈ pane.tabIds
  center : ∀ _view ∈ pane.direct, pane.region = .center
  shows : ∀ selection ∈ pane.selection, pane.Shows selection
  hidden : pane.selection = none → pane.activeTabId ≠ none ∧ pane.direct = none
  tabs : ∀ tab ∈ pane.tabs, tab.refined
  conversation : ∀ view ∈ pane.direct, view.conversation

/-- What the end of a command makes of a pane. -/
def settlePane (version : Version) (pane : Pane) : Pane := if version = .v2 then normalizePane pane else pane

@[simp] theorem direct_normalizePane (pane : Pane) : (normalizePane pane).direct = pane.direct := by
  rcases hc : pane.conversationView with _ | _ | view <;> simp [normalizePane, Pane.direct, hc]

@[simp] theorem paneViews_normalizePane (pane : Pane) : paneViews (normalizePane pane) = paneViews pane := by
  rw [paneViews, paneViews, direct_normalizePane]
  rfl

@[simp] theorem id_settlePane (version : Version) (pane : Pane) : (settlePane version pane).id = pane.id := by
  unfold settlePane
  split <;> rfl

theorem Pane.viewIds_eq (pane : Pane) : pane.viewIds = pane.tabIds ++ pane.directId.toList := by
  unfold Pane.viewIds paneViews Pane.tabIds Pane.directId
  cases pane.direct <;> simp

variable {id : Identity} {pane : Pane} {window : Window}

theorem Pane.Refined.loose {version : Version} (h : pane.Refined version) : pane.Loose version where
  plain := h.version1
  views := h.views
  active := h.active
  center := h.center
  shows := h.shows
  hidden := by
    intro hselection
    cases version with
    | v1 =>
      have hdirect : pane.direct = none := by simp [Pane.direct, (h.version1 rfl).1]
      exact ⟨fun hactive => h.views (by simp [paneViews, hdirect, h.active.1 hactive]), hdirect⟩
    | v2 => exact absurd hselection (h.version2 rfl).2
  tabs := h.tabs
  conversation := h.conversation

@[simp] theorem id_focusPane (pane : Pane) (tabId : Option Identity) : (focusPane pane tabId).id = pane.id := by
  unfold focusPane
  split <;> rfl

@[simp] theorem paneViews_focusPane (pane : Pane) (tabId : Option Identity) :
    paneViews (focusPane pane tabId) = paneViews pane := by
  unfold focusPane
  split <;> rfl

def Pane.bare (pane : Pane) : Pane := { pane with conversationView := some none }

@[simp] theorem direct_bare (pane : Pane) : pane.bare.direct = none := rfl

@[simp] theorem viewIds_bare (pane : Pane) : pane.bare.viewIds = pane.tabIds := by
  rw [Pane.viewIds_eq, Pane.directId, direct_bare]
  simp [Pane.bare, Pane.tabIds]

theorem retireConversation_cases (layout : Layout) (pane : Pane) (tabId : Option Identity) :
    (retireConversation layout pane tabId = .ok pane ∧ (pane.directId = none ∨ pane.directId = tabId)) ∨
    (∃ view, pane.direct = some view ∧ some view.id ≠ tabId ∧ ((layout.reserved view.id = true ∧
          retireConversation layout pane tabId = invalid "Conversation is reserved for a pending transfer.") ∨
        (layout.reserved view.id = false ∧ retireConversation layout pane tabId = .ok pane.bare))) := by
  unfold retireConversation Pane.directId
  rcases hd : pane.direct with _ | view
  · simp
  · by_cases hid : some view.id = tabId
    · simp [hid]
    · by_cases hr : layout.reserved view.id = true
      · simp [hid, hr]
      · simp [hid, hr, Pane.bare]

@[simp] theorem panes_finish (version : Version) (window : Window) :
    (window.finish version).panes = window.panes.map (settlePane version) := by
  unfold Window.finish settlePane
  split
  · rfl
  · simp [Window.dropRecent]

theorem finish_fields (version : Version) (window : Window) : (window.finish version).id = window.id ∧
    (window.finish version).attachmentGeneration = window.attachmentGeneration ∧
    (window.finish version).centerRoot = window.centerRoot ∧
    (window.finish version).focusedPaneId = window.focusedPaneId ∧
    (window.finish version).recentPaneIds = window.recentPaneIds ∧
    (window.finish version).recentTabIds =
      window.recentTabIds.map fun ids => ids.filter fun id => id ∈ window.viewIds := by
  have hviews : (window.mapPanes normalizePane).viewIds = window.viewIds := by
    simp [Window.mapPanes, Window.viewIds, flatMap_map, Pane.viewIds]
  unfold Window.finish
  split
  · refine ⟨rfl, rfl, rfl, rfl, rfl, ?_⟩
    simp only [Window.dropRecent, hviews]
    rfl
  · exact ⟨rfl, rfl, rfl, rfl, rfl, rfl⟩

/-! ### Storing a pane -/

@[simp] theorem paneIds_putPane (window : Window) (pane : Pane) : (window.putPane pane).paneIds = window.paneIds :=
  map_key_put pane window.panes

theorem mem_of_findPane (h : findPane window id = some pane) : pane ∈ window.panes ∧ pane.id = id :=
  ⟨mem_of_find?_eq_some h, by simpa using find?_some h⟩

theorem findPane_of_mem (hnodup : window.paneIds.Nodup) (h : pane ∈ window.panes) : findPane window pane.id = some pane :=
  find?_eq_of_mem hnodup h

theorem findPane_putPane (h : pane.id ∈ window.paneIds) : findPane (window.putPane pane) pane.id = some pane :=
  find?_put_self pane window.panes h

theorem findPane_putPane_of_ne (h : pane.id ≠ id) : findPane (window.putPane pane) id = findPane window id :=
  find?_put_of_ne pane window.panes h

/-! ### Focus -/

@[simp] theorem panes_removePane (window : Window) (pane : Pane) :
    (removePane window pane).panes = window.panes.filter fun p => p.id ≠ pane.id := by
  unfold removePane
  simp only
  split
  · split <;> rfl
  · rfl

@[simp] theorem centerRoot_removePane (window : Window) (pane : Pane) :
    (removePane window pane).centerRoot = window.centerRoot.bind (Node.removeLeaf pane.id) := by
  unfold removePane
  simp only
  split
  · split <;> rfl
  · rfl

/-! ### Taking a view out of a pane -/

def activeAfter (remaining : List Tab) (index : Nat) : Option Identity :=
  ((remaining[index]?).or remaining.getLast?).map (·.id)

def Pane.withoutTab (pane : Pane) (remaining : List Tab) (index : Nat) (id : Identity) : Pane :=
  let activeTabId := if pane.activeTabId = some id then activeAfter remaining index else pane.activeTabId
  { pane with
    tabs := remaining
    activeTabId
    selection := if selectedViewId pane = some id ∧ pane.selection ≠ none then
        some (if activeTabId = none then .conversation pane.directId else .tab activeTabId)
      else pane.selection }

def Pane.withoutDirect (pane : Pane) (id : Identity) : Pane :=
  if selectedViewId pane = some id then { pane.bare with selection := some (.tab pane.activeTabId) } else pane.bare

def Pane.without (pane : Pane) (id : Identity) : Pane :=
  if pane.directId = some id then pane.withoutDirect id
  else
    let index := pane.tabs.findIdx fun t => t.id = id
    pane.withoutTab (pane.tabs.eraseIdx index) index id

theorem exists_tabs (h : id ∈ pane.tabIds) :
    ∃ pre tab post, pane.tabs = pre ++ tab :: post ∧ tab.id = id ∧ ∀ t ∈ pre, t.id ≠ id := by
  obtain ⟨tab, htab⟩ := find?_isSome_of_mem h
  obtain ⟨pre, post, hl, hid, hpre⟩ := exists_append_of_find? htab
  exact ⟨pre, tab, post, hl, hid, hpre⟩

theorem without_eq_withoutTab {tab : Tab} {pre post : List Tab} (hdirect : pane.directId ≠ some tab.id)
    (htabs : pane.tabs = pre ++ tab :: post) (hpre : ∀ t ∈ pre, t.id ≠ tab.id) :
    pane.without tab.id = pane.withoutTab (pre ++ post) pre.length tab.id := by
  have hindex : (pane.tabs.findIdx fun t => t.id = tab.id) = pre.length := by
    have := findIdx?_key_append_cons tab.id tab pre post hpre rfl
    rw [← htabs] at this
    exact (findIdx?_eq_some_iff_findIdx_eq.mp this).2
  rw [Pane.without, if_neg hdirect]
  simp only [hindex]
  rw [htabs, eraseIdx_append_cons]

theorem storePane_eq {old : Pane} (h : findPane window pane.id = some old) :
    storePane window pane = .ok (window.putPane pane) := by
  simp [storePane, h, expect, bind, Except.bind]

def Window.taken (window : Window) (pane : Pane) (id : Identity) : Window :=
  if pane.viewIds = [id] then removePane window pane else window.putPane (pane.without id)

theorem takeTab_eq {old : Pane} {tab : Tab} (hfind : findPane window pane.id = some old) (hmem : tab.id ∈ pane.viewIds) :
    takeTab window pane tab = .ok (window.taken pane tab.id) := by
  unfold takeTab Window.taken
  simp only
  by_cases hdirect : pane.directId = some tab.id
  · rw [if_pos hdirect]
    have hviews : pane.viewIds = [tab.id] ↔ pane.tabs = [] := by simp [Pane.viewIds_eq, hdirect, Pane.tabIds]
    by_cases htabs : pane.tabs = []
    · rw [if_pos htabs, if_pos (hviews.mpr htabs)]
    · rw [if_neg htabs, if_neg (fun h => htabs (hviews.mp h)), Pane.without, if_pos hdirect]
      unfold Pane.withoutDirect
      split <;> exact storePane_eq hfind
  · have htab : tab.id ∈ pane.tabIds := by
      rw [Pane.viewIds_eq] at hmem
      rcases mem_append.mp hmem with hmem | hmem
      · exact hmem
      · exact absurd (by simpa using hmem) hdirect
    obtain ⟨pre, t, post, htabs, hid, hpre⟩ := exists_tabs htab
    have hindex : (pane.tabs.findIdx? fun x => x.id = tab.id) = some pre.length := by
      rw [htabs]
      exact findIdx?_key_append_cons tab.id t pre post hpre hid
    rw [if_neg hdirect, hindex]
    simp only [expect, bind, Except.bind]
    rw [htabs, eraseIdx_append_cons]
    have hviews : pane.viewIds = [tab.id] ↔ paneViews { pane with tabs := pre ++ post } = [] := by
      have hsame : Pane.direct { pane with tabs := pre ++ post } = pane.direct := rfl
      rw [Pane.viewIds, paneViews, paneViews, hsame, htabs]
      cases pane.direct <;> cases pre <;> cases post <;> simp [hid]
    by_cases hlast : pane.viewIds = [tab.id]
    · rw [if_pos (hviews.mp hlast), if_pos hlast]
    · rw [if_neg (fun h => hlast (hviews.mpr h)), if_neg hlast, ← hid,
        without_eq_withoutTab (hid ▸ hdirect) htabs (hid ▸ hpre), hid]
      unfold Pane.withoutTab activeAfter
      by_cases hactive : pane.activeTabId = some tab.id
      · simp only [hactive, if_true]
        rw [apply_ite (storePane window)]
        split <;> exact storePane_eq hfind
      · simp only [hactive, if_false]
        rw [apply_ite (storePane window)]
        split <;> exact storePane_eq hfind

@[simp] theorem id_without (pane : Pane) (id : Identity) : (pane.without id).id = pane.id := by
  unfold Pane.without Pane.withoutDirect
  split
  · split <;> rfl
  · rfl

theorem view_cases (hmem : id ∈ pane.viewIds) : pane.directId = some id ∨ (pane.directId ≠ some id ∧ id ∈ pane.tabIds) := by
  by_cases hdirect : pane.directId = some id
  · exact .inl hdirect
  · rw [Pane.viewIds_eq] at hmem
    rcases mem_append.mp hmem with hmem | hmem
    · exact .inr ⟨hdirect, hmem⟩
    · exact absurd (by simpa using hmem) hdirect

end Cantrip.Workspace
