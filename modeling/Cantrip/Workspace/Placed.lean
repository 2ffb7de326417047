import Cantrip.Workspace.Conserve

/-!
# Views and the windows they are in

`placed` counts every view of a list of windows together with the window that owns it. A command stores at most
two windows back; what that does to the count follows from the trades of the two.
-/

namespace Cantrip.Workspace

open Lib List Function Except

def Window.placed (window : Window) : Multiset (Identity × Card) := window.cards.map (Prod.mk window.id)

def placed (windows : List Window) : Multiset (Identity × Card) := (windows.map Window.placed).sum

def allCards (windows : List Window) : Multiset Card := (placed windows).map Prod.snd

theorem allCards_eq (windows : List Window) : allCards windows = (windows.map Window.cards).sum := by
  unfold allCards placed
  induction windows with
  | nil => rfl
  | cons w ws ih =>
    rw [map_cons, sum_cons, Multiset.map_add, ih, map_cons, sum_cons, Window.placed, Multiset.map_map]
    simp

theorem placed_put {window window' : Window} {windows : List Window} {added lost : Multiset Card}
    (hfind : (windows.find? fun w => w.id = window'.id) = some window) (h : window.Trade window' added lost) :
    placed (putKey (·.id) window' windows) + lost.map (Prod.mk window.id) =
      placed windows + added.map (Prod.mk window.id) := by
  have hsum := sum_map_put Window.placed hfind
  have hplaced : window'.placed + lost.map (Prod.mk window.id) = window.placed + added.map (Prod.mk window.id) := by
    rw [Window.placed, Window.placed, h.id, ← Multiset.map_add, ← Multiset.map_add, h.cards]
  apply add_right_cancel (b := window.placed)
  calc placed (putKey (·.id) window' windows) + lost.map (Prod.mk window.id) + window.placed
      = placed (putKey (·.id) window' windows) + window.placed + lost.map (Prod.mk window.id) := by abel
    _ = placed windows + (window'.placed + lost.map (Prod.mk window.id)) := by rw [placed, hsum, placed]; abel
    _ = placed windows + added.map (Prod.mk window.id) + window.placed := by rw [hplaced]; abel

theorem placed_filter {windows : List Window} {p : Window → Bool} (h : ∀ w ∈ windows, p w = false → w.panes = []) :
    placed (windows.filter p) = placed windows := by
  induction windows with
  | nil => rfl
  | cons w ws ih =>
    have hrest := ih fun v hv => h v (by simp [hv])
    by_cases hp : p w = true
    · rw [filter_cons_of_pos hp]
      simp only [placed, map_cons, sum_cons] at hrest ⊢
      rw [hrest]
    · have hempty : w.placed = 0 := by
        rw [Window.placed, Window.cards, h w (by simp) (by simpa using hp)]
        rfl
      rw [filter_cons_of_neg hp, hrest]
      simp [placed, hempty]

theorem placed_finish (version : Version) (windows : List Window) :
    placed (windows.map (Window.finish version)) = placed windows := by
  unfold placed
  rw [map_map]
  congr 1
  refine map_congr_left fun w _ => ?_
  have hcards : (w.finish version).cards = w.cards := by
    rw [Window.cards, panes_finish, Window.cards, map_map]
    congr 1
    refine map_congr_left fun p _ => ?_
    unfold settlePane
    simp only [comp_apply]
    split
    · exact cards_normalizePane p
    · rfl
  have hid : (w.finish version).id = w.id := by
    unfold Window.finish
    split <;> rfl
  rw [comp_apply, Window.placed, hcards, hid, Window.placed]

/-! ## The windows of a state -/

/-- One window of the state, of the given identity, gains `added` and loses `lost`. -/
def State.Exchange (state state' : State) (id : Identity) (added lost : Multiset Card) : Prop :=
  placed state'.windows + lost.map (Prod.mk id) = placed state.windows + added.map (Prod.mk id)

theorem State.Exchange.allCards {state state' : State} {id : Identity} {added lost : Multiset Card}
    (h : state.Exchange state' id added lost) : allCards state'.windows + lost = allCards state.windows + added := by
  have hmap := congrArg (Multiset.map Prod.snd) h
  simpa [Multiset.map_map, Workspace.allCards] using hmap

structure State.Coherent (state : State) : Prop where
  windowIds : state.layout.windowIds.Nodup
  current : state.window.id ∈ state.layout.windowIds

namespace State.Coherent

variable {state : State}

theorem windows_eq (h : state.Coherent) : state.windows = putKey (·.id) state.window state.layout.windows :=
  map_eq_put state.window state.layout.windows h.windowIds

theorem ids (h : state.Coherent) : state.windows.map (·.id) = state.layout.windowIds := by
  rw [h.windows_eq, map_key_put]
  rfl

theorem mem_current (h : state.Coherent) : state.windows.find? (fun w => w.id = state.window.id) = some state.window := by
  rw [h.windows_eq]
  exact find?_put_self state.window _ h.current

theorem find (h : state.Coherent) {window : Window} (hmem : window ∈ state.windows) :
    state.windows.find? (fun w => w.id = window.id) = some window := by
  refine find?_eq_of_mem ?_ hmem
  rw [h.ids]
  exact h.windowIds

theorem storeWindow (h : state.Coherent) {window : Window} :
    (state.storeWindow window).Coherent ∧ (state.storeWindow window).windows = putKey (·.id) window state.windows := by
  unfold State.storeWindow
  split
  · next hid =>
    have hc : State.Coherent { state with window } := ⟨h.windowIds, by rw [hid]; exact h.current⟩
    refine ⟨hc, ?_⟩
    rw [hc.windows_eq, h.windows_eq, put_put window state.window _ hid]
  · next hid =>
    have hids : (putKey (·.id) window state.layout.windows).map (·.id) = state.layout.windowIds := map_key_put window _
    have hc : State.Coherent { state with layout := { state.layout with windows := putKey (·.id) window state.layout.windows } } :=
      ⟨by rw [Layout.windowIds, hids]; exact h.windowIds, by rw [Layout.windowIds, hids]; exact h.current⟩
    refine ⟨hc, ?_⟩
    rw [hc.windows_eq, h.windows_eq]
    exact put_comm state.window window _ fun e => hid e.symm

theorem trade (h : state.Coherent) {window window' : Window} {added lost : Multiset Card} (hmem : window ∈ state.windows)
    (htrade : window.Trade window' added lost) :
    state.Exchange (state.storeWindow window') window.id added lost := by
  unfold State.Exchange
  rw [h.storeWindow.2]
  refine placed_put ?_ htrade
  rw [htrade.id]
  exact h.find hmem

theorem edit (h : state.Coherent) {f : Layout → Window → Except Failure Window} {state' : State}
    (hedit : state.edit f = .ok state') :
    ∃ window', f state.layout state.window = .ok window' ∧
      ∀ added lost, state.window.Trade window' added lost → state.Exchange state' state.window.id added lost := by
  obtain ⟨window', hwindow, hrun⟩ := bind_eq_ok.mp hedit
  obtain rfl := ok.inj hrun
  refine ⟨window', hwindow, fun added lost htrade => ?_⟩
  have hstore := h.trade (mem_of_find?_eq_some h.mem_current) htrade
  rwa [State.storeWindow, if_pos htrade.id] at hstore

end State.Coherent

/-! ## The state a command runs in -/

/-- What the checks before an action leave: distinct identities, and empty windows where a detached pane is to
arrive. -/
structure State.Sound (state : State) : Prop extends state.Coherent where
  distinct : ∀ window ∈ state.windows, window.Distinct
  staged : ∀ transfer ∈ state.layout.transfers, transfer.returning = false →
    ∀ window ∈ state.windows, window.id = transfer.destinationWindowId → window.panes = []
  ends : ∀ transfer ∈ state.layout.transfers, transfer.sourceWindowId ≠ transfer.destinationWindowId

@[simp] theorem id_mapPanes (window : Window) (f : Pane → Pane) : (window.mapPanes f).id = window.id := rfl

theorem migrated_cases (layout : Layout) (action : Action) : migrated layout action = layout ∨ migrated layout action =
        { layout with version := .v2, windows := layout.windows.map fun w => w.mapPanes normalizePane } := by
  unfold migrated
  split
  · exact .inr rfl
  · exact .inl rfl

theorem viewIds_normalizePane (pane : Pane) : (normalizePane pane).viewIds = pane.viewIds := by
  rw [Pane.viewIds, paneViews_normalizePane, Pane.viewIds]

variable {command : Command} {layout : Layout}

theorem Layout.Owned.distinct (h : layout.Owned) {window : Window} (hw : window ∈ layout.windows) : window.Distinct :=
  ⟨(nodup_flatMap.mp h.paneIds).1 window hw, (nodup_flatMap.mp h.viewIds).1 window hw⟩

theorem mem_migrated {action : Action} {window : Window} (h : window ∈ (migrated layout action).windows) :
    ∃ w ∈ layout.windows, window.id = w.id ∧ window.paneIds = w.paneIds ∧ window.viewIds = w.viewIds ∧
      (w.panes = [] → window.panes = []) ∧ window.attachmentGeneration = w.attachmentGeneration := by
  rcases migrated_cases layout action with he | he
  · rw [he] at h
    exact ⟨window, h, rfl, rfl, rfl, id, rfl⟩
  · rw [he] at h
    obtain ⟨w, hw, rfl⟩ := mem_map.mp h
    refine ⟨w, hw, rfl, ?_, ?_, ?_, rfl⟩
    · simp [Window.paneIds, Window.mapPanes, normalizePane, comp_def]
    · simp [Window.viewIds, Window.mapPanes, flatMap_map, viewIds_normalizePane]
    · intro hpanes
      simp [Window.mapPanes, hpanes]

@[simp] theorem windowIds_migrated (layout : Layout) (action : Action) :
    (migrated layout action).windowIds = layout.windowIds := by
  rcases migrated_cases layout action with he | he
  · rw [he]
  · rw [he]
    simp [Layout.windowIds, comp_def]

@[simp] theorem transfers_migrated (layout : Layout) (action : Action) :
    (migrated layout action).transfers = layout.transfers := by
  rcases migrated_cases layout action with he | he
  · rw [he]
  · rw [he]
    rfl

theorem placed_migrated (layout : Layout) (action : Action) : placed (migrated layout action).windows = placed layout.windows := by
  rcases migrated_cases layout action with he | he
  · rw [he]
  · rw [he]
    unfold placed
    dsimp only
    rw [map_map]
    congr 1
    refine map_congr_left fun w _ => ?_
    have hcards : (w.mapPanes normalizePane).cards = w.cards := by
      rw [Window.cards, Window.mapPanes, map_map, Window.cards]
      congr 1
      exact map_congr_left fun p _ => cards_normalizePane p
    rw [comp_apply, Window.placed, hcards]
    rfl

theorem precheck_eq_ok {state : State} (h : precheck layout command = .ok state) :
    command.workspaceId = layout.id ∧ command.projectId = layout.projectId ∧ command.expectedRevision = layout.revision ∧
      ∃ window, layout.findWindow command.windowId = some window ∧
        command.attachmentGeneration = window.attachmentGeneration ∧
        ((layout.transfers.any fun t => t.destinationWindowId = window.id && !t.returning) → command.action.handshake) ∧
        state = { layout, window, focusWindow := none, retired := [] } := by
  unfold precheck at h
  split at h
  · simp at h
  next hscope =>
  split at h
  · simp at h
  next hrevision =>
  obtain ⟨window, hfind, hrun⟩ := bind_eq_ok.mp h
  split at hrun
  · simp at hrun
  next hgeneration =>
  split at hrun
  · exact absurd hrun (invalid_ne_ok _ _)
  next hreserved =>
  push Not at hscope hrevision hgeneration
  refine ⟨hscope.1, hscope.2, hrevision, window, orMissing_eq_ok.mp hfind, hgeneration, ?_, (ok.inj hrun).symm⟩
  intro hany
  by_contra hno
  exact hreserved ⟨hany, by simpa using hno⟩

theorem apply_eq_ok {result : CommandResult} (h : apply layout command = .ok result) :
    command.accepted ∧ layout.Owned ∧ ∃ state state', precheck (migrated layout command.action) command = .ok state ∧
      state.run command.action = .ok state' ∧ result.layout = state'.finish ∧ result.layout.Owned ∧
      result.focusWindowId = state'.focusWindow ∧ result.operationId = command.operationId := by
  unfold apply at h
  split at h
  · next hgood =>
    obtain ⟨state, hstate, hrun⟩ := bind_eq_ok.mp h
    obtain ⟨state', hstate', hrun⟩ := bind_eq_ok.mp hrun
    refine ⟨hgood.1, hgood.2, state, state', hstate, hstate', ?_⟩
    unfold State.conclude at hrun
    dsimp only at hrun
    split at hrun
    · next howned =>
      obtain rfl := ok.inj hrun
      exact ⟨rfl, howned, rfl, rfl⟩
    · exact absurd hrun (invalid_ne_ok _ _)
  · simp at h

theorem precheck_sound {state : State} (howned : layout.Owned)
    (h : precheck (migrated layout command.action) command = .ok state) :
    state.Sound ∧ placed state.windows = placed layout.windows := by
  obtain ⟨-, -, -, window, hfind, -, -, rfl⟩ := precheck_eq_ok h
  have hmem : window ∈ (migrated layout command.action).windows := mem_of_find?_eq_some hfind
  have hc : State.Coherent { layout := migrated layout command.action, window, focusWindow := none, retired := [] } :=
    ⟨by rw [windowIds_migrated]; exact howned.windowIds, mem_map_of_mem hmem⟩
  have hwindows : State.windows { layout := migrated layout command.action, window, focusWindow := none, retired := [] } =
      (migrated layout command.action).windows := by
    rw [hc.windows_eq]
    refine put_self_of_find? (k := window.id) ?_
    have hid : window.id = command.windowId := by simpa using find?_some hfind
    rw [hid]
    exact hfind
  refine ⟨⟨hc, ?_, ?_, ?_⟩, by rw [hwindows, placed_migrated]⟩
  · intro w hw
    rw [hwindows] at hw
    obtain ⟨v, hv, -, hpanes, hviews, -⟩ := mem_migrated hw
    have hd := howned.distinct hv
    exact ⟨hpanes ▸ hd.paneIds, hviews ▸ hd.viewIds⟩
  · intro transfer htransfer hreturning w hw hid
    rw [hwindows] at hw
    obtain ⟨v, hv, hidv, -, -, hempty, -⟩ := mem_migrated hw
    simp only [transfers_migrated] at htransfer
    obtain ⟨d, hd, -, hcases⟩ := (howned.transfers transfer htransfer).destination
    rw [hreturning] at hcases
    have hsame : v = d := by
      have hfindv : layout.windows.find? (fun w => w.id = v.id) = some v := find?_eq_of_mem howned.windowIds hv
      rw [← hidv, hid] at hfindv
      exact Option.some.inj (hfindv.symm.trans hd)
    exact hempty (hsame ▸ hcases.2)
  · intro transfer htransfer
    simp only [transfers_migrated] at htransfer
    exact (howned.transfers transfer htransfer).distinct

end Cantrip.Workspace
