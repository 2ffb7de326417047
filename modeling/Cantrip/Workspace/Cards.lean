import Cantrip.Lib.Post
import Cantrip.Workspace.Loose
import Mathlib.Algebra.BigOperators.Group.List.Basic
import Mathlib.Algebra.Order.Group.Multiset
import Mathlib.Tactic.Abel

/-!
# What commands do to the views

A view counts by its identity and its resource (`Card`). `Window.Trade` says which cards a window gains and
loses on the way to another state of it, as an equation between multisets: every helper of the commands has one
such equation, and those of the actions follow by composing them.
-/

namespace Cantrip.Workspace

open Lib List Except

/-- The identity of a view and what it shows. -/
abbrev Card := Identity × Resource

def Tab.card (tab : Tab) : Card := (tab.id, tab.resource)

def Pane.cards (pane : Pane) : Multiset Card := ↑((paneViews pane).map Tab.card)

def Window.cards (window : Window) : Multiset Card := (window.panes.map Pane.cards).sum

@[simp] theorem expect_eq_ok {α : Type} {value : Option α} {message : String} {a : α} :
    expect value message = .ok a ↔ value = some a := by
  cases value <;> simp [expect]

@[simp] theorem orMissing_eq_ok {α : Type} {value : Option α} {message : String} {a : α} :
    orMissing value message = .ok a ↔ value = some a := by
  cases value <;> simp [orMissing, missing]

@[simp] theorem invalid_ne_ok {α : Type} (message : String) (a : α) : (invalid message : Except Failure α) ≠ .ok a := by
  simp [invalid]

theorem check_eq_ok {α : Type} {refused : Prop} [Decidable refused] {message : String} {x : Except Failure α} {a : α} :
    (if refused then invalid message else x) = .ok a ↔ ¬refused ∧ x = .ok a := by
  by_cases h : refused
  · simp [h]
  · simp [h]

/-! ## Trades -/

theorem sum_map_put {α κ M : Type} [DecidableEq κ] [AddCommMonoid M] {key : α → κ} (f : α → M) {a b : α} {l : List α}
    (h : l.find? (fun x => key x = key a) = some b) : ((putKey key a l).map f).sum + f b = (l.map f).sum + f a := by
  obtain ⟨pre, post, rfl, hb, hpre⟩ := exists_append_of_find? h
  rw [put_append_cons a b pre post hpre hb]
  simp only [map_append, map_cons, sum_append, sum_cons]
  abel

/-- The window gains `added` and loses `lost` on the way to `window'`. -/
structure Window.Trade (window window' : Window) (added lost : Multiset Card) : Prop where
  id : window'.id = window.id
  cards : window'.cards + lost = window.cards + added

namespace Window.Trade

variable {window window' window'' : Window} {added lost added' lost' : Multiset Card}

theorem keep (hid : window'.id = window.id) (hcards : window'.cards = window.cards) : window.Trade window' 0 0 :=
  ⟨hid, by simp [hcards]⟩

theorem refl (window : Window) : window.Trade window 0 0 := keep rfl rfl

theorem trans (h : window.Trade window' added lost) (h' : window'.Trade window'' added' lost') :
    window.Trade window'' (added + added') (lost + lost') := by
  refine ⟨h'.id.trans h.id, ?_⟩
  calc window''.cards + (lost + lost') = window''.cards + lost' + lost := by abel
    _ = window'.cards + lost + added' := by rw [h'.cards]; abel
    _ = window.cards + (added + added') := by rw [h.cards]; abel

theorem then_keep (h : window.Trade window' added lost) (h' : window'.Trade window'' 0 0) :
    window.Trade window'' added lost := by
  have := h.trans h'
  rwa [add_zero, add_zero] at this

theorem cancel (both : Multiset Card) (h : window.Trade window' (both + added) (both + lost)) :
    window.Trade window' added lost := by
  refine ⟨h.id, ?_⟩
  apply add_right_cancel (b := both)
  calc window'.cards + lost + both = window'.cards + (both + lost) := by abel
    _ = window.cards + added + both := by rw [h.cards]; abel

end Window.Trade

/-! ## Panes -/

@[simp] theorem cards_normalizePane (pane : Pane) : (normalizePane pane).cards = pane.cards := by
  rw [Pane.cards, paneViews_normalizePane, Pane.cards]

@[simp] theorem cards_focusPane (pane : Pane) (tabId : Option Identity) : (focusPane pane tabId).cards = pane.cards := by
  rw [Pane.cards, paneViews_focusPane, Pane.cards]

theorem Pane.cards_eq (pane : Pane) : pane.cards = ↑(pane.tabs.map Tab.card) + ↑(pane.direct.toList.map Tab.card) := by
  rw [Pane.cards, paneViews, map_append, Multiset.coe_add]

/-- The direct conversation that navigation to another view of the pane retires. -/
def Pane.leaving (pane : Pane) (tabId : Option Identity) : Multiset Card :=
  ↑((pane.direct.toList.filter fun view => some view.id ≠ tabId).map Tab.card)

/-- What navigation retires is not reserved. -/
def Layout.Releases (layout : Layout) (pane : Pane) (tabId : Option Identity) : Prop :=
  ∀ view ∈ pane.direct, some view.id ≠ tabId → layout.reserved view.id = false

variable {paneId : Identity} {layout : Layout} {tabId : Option Identity} {tab : Tab}

theorem cards_retireConversation {pane pane' : Pane} (h : retireConversation layout pane tabId = .ok pane') :
    pane'.id = pane.id ∧ pane'.cards + pane.leaving tabId = pane.cards ∧ layout.Releases pane tabId := by
  unfold retireConversation at h
  cases hdirect : pane.direct with
  | none =>
    rw [hdirect] at h
    obtain rfl := ok.inj h
    exact ⟨rfl, by simp [Pane.leaving, hdirect], by simp [Layout.Releases, hdirect]⟩
  | some view =>
    rw [hdirect] at h
    dsimp only at h
    split_ifs at h with hid hres
    · exact absurd h (invalid_ne_ok _ _)
    · obtain rfl := ok.inj h
      refine ⟨rfl, ?_, ?_⟩
      · have hleaving : pane.leaving tabId = {view.card} := by simp [Pane.leaving, hdirect, hid]
        rw [hleaving, Pane.cards_eq pane, hdirect, Pane.cards_eq]
        simp [Pane.direct]
      · intro v hv _
        rw [Option.mem_def, hdirect] at hv
        obtain rfl := Option.some.inj hv
        simpa using hres
    · obtain rfl := ok.inj h
      rw [ne_eq, not_not] at hid
      refine ⟨rfl, by simp [Pane.leaving, hdirect, hid], ?_⟩
      intro v hv hne
      rw [Option.mem_def, hdirect] at hv
      obtain rfl := Option.some.inj hv
      exact absurd hid hne

/-! ## Windows -/

theorem Window.Trade.putPane {window : Window} {pane : Pane} (old : Pane) {added lost : Multiset Card}
    (h : findPane window pane.id = some old) (hcards : pane.cards + lost = old.cards + added) :
    window.Trade (window.putPane pane) added lost := by
  refine ⟨rfl, ?_⟩
  have hsum := sum_map_put Pane.cards h
  apply add_right_cancel (b := old.cards)
  calc (window.putPane pane).cards + lost + old.cards = (window.putPane pane).cards + old.cards + lost := by abel
    _ = window.cards + pane.cards + lost := by rw [Window.cards, Window.putPane, hsum]; rfl
    _ = window.cards + (pane.cards + lost) := by abel
    _ = window.cards + added + old.cards := by rw [hcards]; abel

theorem storePane_eq_ok {window window' : Window} {pane : Pane} (h : storePane window pane = .ok window') :
    ∃ old, findPane window pane.id = some old ∧ window' = window.putPane pane := by
  obtain ⟨old, hfind, h⟩ := bind_eq_ok.mp h
  exact ⟨old, expect_eq_ok.mp hfind, (ok.inj h).symm⟩

theorem Window.Trade.focus {window window' : Window}
    (h : focus window paneId tabId = .ok window') : window.Trade window' 0 0 := by
  obtain ⟨pane, hfind, h⟩ := bind_eq_ok.mp h
  rw [expect_eq_ok] at hfind
  obtain rfl := ok.inj h
  have hid : (focusPane pane tabId).id = paneId := (id_focusPane pane tabId).trans (mem_of_findPane hfind).2
  have hput : window.Trade (window.putPane (focusPane pane tabId)) 0 0 :=
    .putPane pane (by rw [hid]; exact hfind) (by simp)
  exact ⟨hput.id, hput.cards⟩

theorem Window.Trade.navigate {window window' : Window} {tabId : Identity}
    (h : navigate layout window paneId tabId = .ok window') :
    ∃ pane, findPane window paneId = some pane ∧ window.Trade window' 0 (pane.leaving (some tabId)) ∧
      layout.Releases pane (some tabId) := by
  obtain ⟨pane, hfind, h⟩ := bind_eq_ok.mp h
  obtain ⟨pane', hretire, h⟩ := bind_eq_ok.mp h
  rw [expect_eq_ok] at hfind
  obtain ⟨hid, hcards, hreleases⟩ := cards_retireConversation hretire
  have hpane : pane'.id = paneId := hid.trans (mem_of_findPane hfind).2
  have hput : window.Trade (window.putPane pane') 0 (pane.leaving (some tabId)) :=
    .putPane pane (by rw [hpane]; exact hfind) (by rw [hcards, add_zero])
  exact ⟨pane, hfind, hput.then_keep (.focus h), hreleases⟩

theorem paneIds_focus {window window' : Window}
    (h : focus window paneId tabId = .ok window') : window'.paneIds = window.paneIds := by
  obtain ⟨pane, -, h⟩ := bind_eq_ok.mp h
  obtain rfl := ok.inj h
  exact paneIds_putPane window _

theorem paneIds_navigate {window window' : Window} {tabId : Identity}
    (h : navigate layout window paneId tabId = .ok window') : window'.paneIds = window.paneIds := by
  obtain ⟨pane, -, h⟩ := bind_eq_ok.mp h
  obtain ⟨pane', -, h⟩ := bind_eq_ok.mp h
  rw [paneIds_focus h, paneIds_putPane]

theorem Window.Trade.removePane {window : Window} {pane old : Pane} (hnodup : window.paneIds.Nodup)
    (h : findPane window pane.id = some old) : window.Trade (removePane window pane) 0 old.cards := by
  obtain ⟨pre, post, hl, hid, hpre⟩ := exists_append_of_find? h
  have hkeep : window.panes.filter (fun p => p.id ≠ pane.id) = pre ++ post := by
    rw [hl]
    exact filter_key_ne pane.id old pre post (by rw [← hl]; exact hnodup) hid
  refine ⟨?_, ?_⟩
  · unfold Workspace.removePane
    dsimp only
    split
    · split <;> rfl
    · rfl
  · rw [Window.cards, panes_removePane, hkeep, Window.cards, hl]
    simp only [map_append, map_cons, sum_append, sum_cons]
    abel

/-! ## Lookups that succeed -/

structure Window.Distinct (window : Window) : Prop where
  paneIds : window.paneIds.Nodup
  viewIds : window.viewIds.Nodup

theorem Window.Distinct.pane {window : Window} {pane : Pane} (h : window.Distinct) (hpane : pane ∈ window.panes) :
    findPane window pane.id = some pane ∧ pane.viewIds.Nodup :=
  ⟨findPane_of_mem h.paneIds hpane, (nodup_flatMap.mp h.viewIds).1 pane hpane⟩

theorem paneById_eq_ok {window : Window} {id : Identity} {pane : Pane} (h : paneById window id = .ok pane) :
    findPane window id = some pane ∧ pane ∈ window.panes ∧ pane.id = id := by
  have hfind := orMissing_eq_ok.mp h
  exact ⟨hfind, mem_of_findPane hfind⟩

theorem tabById_eq_ok {window : Window} {id : Identity} {pane : Pane} (h : tabById window id = .ok (pane, tab)) :
    pane ∈ window.panes ∧ tab ∈ paneViews pane ∧ tab.id = id := by
  obtain ⟨p, hp, hview⟩ := exists_of_findSome?_eq_some (orMissing_eq_ok.mp h)
  obtain ⟨t, ht, he⟩ := Option.map_eq_some_iff.mp hview
  obtain ⟨rfl, rfl⟩ := Prod.mk.inj he
  exact ⟨hp, mem_of_find?_eq_some ht, by simpa using find?_some ht⟩

theorem view_eq_of_id {pane : Pane} {a b : Tab} (hnodup : pane.viewIds.Nodup) (ha : a ∈ paneViews pane)
    (hb : b ∈ paneViews pane) (hid : a.id = b.id) : a = b :=
  inj_on_of_nodup_map hnodup ha hb hid

/-! ## Taking a view -/

theorem cards_without {pane : Pane} (hnodup : pane.viewIds.Nodup) (htab : tab ∈ paneViews pane) :
    tab.card ::ₘ (pane.without tab.id).cards = pane.cards := by
  have hmem : tab.id ∈ pane.viewIds := mem_map_of_mem htab
  rcases view_cases hmem with hdirect | ⟨hdirect, hid⟩
  · obtain ⟨view, hview, hid⟩ := Option.map_eq_some_iff.mp hdirect
    have hin : view ∈ paneViews pane := by simp [paneViews, hview]
    obtain rfl := view_eq_of_id hnodup hin htab hid
    have hsame : (pane.without view.id).cards = ↑(pane.tabs.map Tab.card) := by
      have hbare : ∀ selection, Pane.cards { pane.bare with selection } = ↑(pane.tabs.map Tab.card) := by
        intro selection
        rw [Pane.cards_eq]
        simp [Pane.bare, Pane.direct]
      rw [Pane.without, if_pos hdirect, Pane.withoutDirect]
      split
      · exact hbare _
      · exact hbare pane.selection
    rw [hsame, Pane.cards_eq, hview]
    simp [← Multiset.singleton_add, add_comm]
  · obtain ⟨pre, t, post, htabs, ht, hpre⟩ := exists_tabs hid
    have hin : t ∈ paneViews pane := by simp [paneViews, htabs]
    obtain rfl := view_eq_of_id hnodup hin htab ht
    rw [without_eq_withoutTab hdirect htabs hpre, Pane.cards_eq, Pane.cards_eq pane, htabs]
    have hsame : Pane.direct (pane.withoutTab (pre ++ post) pre.length t.id) = pane.direct := rfl
    rw [hsame, ← Multiset.singleton_add, ← add_assoc]
    congr 1
    simp only [Pane.withoutTab, map_append, map_cons, ← Multiset.coe_add, ← Multiset.cons_coe, ← Multiset.singleton_add]
    abel

theorem Window.Trade.takeTab {window window' : Window} {pane old : Pane} {retired : Multiset Card}
    (hnodup : window.paneIds.Nodup) (hfind : findPane window pane.id = some old) (hviews : pane.viewIds.Nodup)
    (htab : tab ∈ paneViews pane) (hold : pane.cards + retired = old.cards) (h : takeTab window pane tab = .ok window') :
    window.Trade window' 0 (tab.card ::ₘ retired) := by
  rw [takeTab_eq hfind (mem_map_of_mem htab)] at h
  obtain rfl := ok.inj h
  unfold Window.taken
  split
  · next hlast =>
    have hsingle : paneViews pane = [tab] := by
      obtain ⟨t, ht⟩ : ∃ t, paneViews pane = [t] := by
        rw [← length_eq_one_iff, ← length_map (f := (·.id))]
        exact congrArg length hlast
      rw [ht, mem_singleton] at htab
      rw [ht, htab]
    have hcards : old.cards = tab.card ::ₘ retired := by
      rw [← hold, Pane.cards, hsingle]
      rfl
    exact hcards ▸ .removePane hnodup hfind
  · refine .putPane old (by rw [id_without]; exact hfind) ?_
    rw [add_zero, ← hold, ← cards_without hviews htab, Multiset.cons_add, Multiset.add_cons]

theorem findPane_taken {window : Window} {pane : Pane} {id other : Identity} (h : other ≠ pane.id) :
    findPane (window.taken pane id) other = findPane window other := by
  unfold Window.taken
  split
  · rw [findPane, panes_removePane]
    exact find?_filter_key_ne window.panes h
  · refine findPane_putPane_of_ne ?_
    rw [id_without]
    exact fun e => h e.symm

theorem Window.Trade.insert {window : Window} {pane : Pane} {panes : List Pane} {centerRoot : Option Node}
    (hperm : panes.Perm (pane :: window.panes)) :
    window.Trade { window with panes, centerRoot } pane.cards 0 := by
  refine ⟨rfl, ?_⟩
  have hsum := (hperm.map Pane.cards).sum_eq
  rw [map_cons, sum_cons] at hsum
  rw [add_zero, Window.cards, hsum, add_comm]
  rfl

@[simp] theorem cards_newPane (id : Identity) (region : Region) (tab : Tab) : (newPane id region tab).cards = {tab.card} :=
  rfl

end Cantrip.Workspace
