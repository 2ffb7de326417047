import Cantrip.Workspace.Placed

/-!
# Attachments and transfers on the views

Everything but a commit leaves each view in its window and removes only windows without panes. A commit takes
the listed views out of the source and puts the same views into the destination.
-/

namespace Cantrip.Workspace

open Lib List Option Except

namespace State

variable {state state' : State}

/-! ## Retired windows -/

theorem placed_congr {α : Type} {l : List α} {f g : α → Window} (h : ∀ a ∈ l, (f a).id = (g a).id ∧ (f a).panes = (g a).panes) :
    placed (l.map f) = placed (l.map g) := by
  unfold placed
  rw [List.map_map, List.map_map]
  congr 1
  refine map_congr_left fun a ha => ?_
  obtain ⟨hid, hpanes⟩ := h a ha
  rw [Function.comp_apply, Function.comp_apply, Window.placed, Window.placed, Window.cards, Window.cards, hid, hpanes]

theorem windows_filter (state : State) (keep : Identity → Bool) :
    windows { state with layout := { state.layout with windows := state.layout.windows.filter fun w => keep w.id } } =
      state.windows.filter fun w => keep w.id := by
  unfold windows
  rw [List.filter_map]
  congr 1
  refine filter_congr fun w _ => ?_
  rw [Function.comp_apply]
  split
  · next h => rw [h]
  · rfl

theorem windows_retire (state : State) (id : Identity) : (state.retire id).windows = state.windows.filter fun w => w.id ≠ id :=
  windows_filter state fun i => decide (i ≠ id)

theorem layout_foldl_retire (transfers : List Transfer) (state : State) : (transfers.foldl (fun state transfer =>
        if !transfer.returning then state.retire transfer.destinationWindowId else state) state).layout =
      { state.layout with
        windows := state.layout.windows.filter fun w =>
          !(transfers.any fun t => !t.returning && decide (w.id = t.destinationWindowId)) } := by
  induction transfers generalizing state with
  | nil => simp
  | cons t ts ih =>
    rw [foldl_cons, ih]
    cases hreturning : t.returning with
    | true => simp [hreturning]
    | false =>
      simp only [Bool.not_false, if_true, retire, List.filter_filter]
      congr 1
      refine filter_congr fun w _ => ?_
      by_cases h : w.id = t.destinationWindowId
      · simp [hreturning, h]
      · simp [hreturning, h]

/-- The windows that stay when an attachment is replaced: all but the empty ones its detachments were to fill. -/
def survives (state : State) (id : Identity) : Bool :=
  !((state.layout.transfers.filter state.touches).any fun t => !t.returning && decide (id = t.destinationWindowId))

/-- What replacing an attachment does: nothing, a renderer for a staged window, or a new generation that ends the
transfers the window takes part in. -/
theorem replaceAttachment_eq_ok {rendererId : Identity} (h : state.replaceAttachment rendererId = .ok state') :
    state' = state ∨
    ((state.layout.transfers.any fun t => t.destinationWindowId = state.window.id && !t.returning) ∧
      state.window.rendererId = none ∧
      state' = { state with window := { state.window with rendererId := some rendererId } }) ∨
    (state'.layout = { state.layout with
        windows := state.layout.windows.filter fun w => state.survives w.id
        pendingTransfers := some (state.layout.transfers.filter fun t => !state.touches t) } ∧
      state'.window = { state.window with
        attachmentGeneration := state.window.attachmentGeneration + 1
        rendererId := some rendererId }) := by
  unfold replaceAttachment at h
  dsimp only at h
  split at h
  · exact .inl (ok.inj h).symm
  split at h
  · next hstaged => exact .inr (.inl ⟨hstaged.1, hstaged.2, (ok.inj h).symm⟩)
  split at h
  · simp at h
  · obtain rfl := ok.inj h
    refine .inr (.inr ⟨?_, rfl⟩)
    rw [layout_foldl_retire]
    rfl

theorem placed_attached (state : State) (window : Window) (windows : List Window) (hid : window.id = state.window.id)
    (hpanes : window.panes = state.window.panes) :
    placed (windows.map fun w => if w.id = window.id then window else w) =
      placed (windows.map fun w => if w.id = state.window.id then state.window else w) := by
  refine placed_congr fun w _ => ?_
  rw [hid]
  split
  · exact ⟨hid, hpanes⟩
  · exact ⟨rfl, rfl⟩

theorem replaceAttachment_placed {rendererId : Identity} (hs : state.Sound)
    (h : state.replaceAttachment rendererId = .ok state') : placed state'.windows = placed state.windows := by
  rcases replaceAttachment_eq_ok h with rfl | ⟨-, -, rfl⟩ | ⟨hlayout, hwindow⟩
  · rfl
  · exact placed_attached state { state.window with rendererId := some rendererId } state.layout.windows rfl rfl
  · have hkept : placed ((state.layout.windows.filter fun w => state.survives w.id).map fun w =>
        if w.id = state.window.id then state.window else w) = placed state.windows := by
      refine (congrArg placed (windows_filter state state.survives)).trans (placed_filter fun w hw hp => ?_)
      simp only [survives, Bool.not_eq_false', List.any_eq_true, Bool.and_eq_true, decide_eq_true_eq, Bool.not_eq_true'] at hp
      obtain ⟨t, ht, hreturning, hid⟩ := hp
      exact hs.staged t (mem_of_mem_filter ht) hreturning w hw hid
    unfold windows at hkept ⊢
    rw [hlayout, hwindow]
    exact (placed_attached state { state.window with
      attachmentGeneration := state.window.attachmentGeneration + 1
      rendererId := some rendererId } _ rfl rfl).trans hkept

variable {destinationPaneId destinationWindowId paneId transferId : Identity} {selected : List Tab}
  {tabId : Option Identity} {moved pane : Pane} {transfer : Transfer} {destination destination' : Window}

theorem cancelTransfer_placed (hs : state.Sound)
    (h : state.cancelTransfer transferId = .ok state') : placed state'.windows = placed state.windows := by
  obtain ⟨transfer, hfind, hrun⟩ := bind_eq_ok.mp h
  have hmem : transfer ∈ state.layout.transfers := mem_of_find?_eq_some (orMissing_eq_ok.mp hfind)
  split at hrun
  · simp at hrun
  · obtain rfl := ok.inj hrun
    cases hreturning : transfer.returning with
    | true => rfl
    | false =>
      refine (congrArg placed (windows_retire state transfer.destinationWindowId)).trans (placed_filter fun w hw hp => ?_)
      exact hs.staged transfer hmem hreturning w hw (by simpa using hp)

/-! ## Preparing and acknowledging -/

theorem transferred_eq_ok (h : transferred pane tabId = .ok selected) : selected ⊆ paneViews pane := by
  cases tabId with
  | none =>
    obtain rfl := ok.inj h
    exact List.Subset.refl _
  | some id =>
    obtain ⟨view, hview, hrun⟩ := bind_eq_ok.mp h
    obtain rfl := ok.inj hrun
    intro t ht
    obtain rfl := mem_singleton.mp ht
    exact mem_of_find?_eq_some (orMissing_eq_ok.mp hview)

theorem prepared_eq_ok {returnSplitId : Option Identity} {destinationGeneration : Nat}
    (h : state.prepared pane selected transferId tabId destinationWindowId destinationGeneration destinationPaneId
      returnSplitId = .ok transfer) :
    transfer.id = transferId ∧ transfer.sourceWindowId = state.window.id ∧
      transfer.sourceGeneration = state.window.attachmentGeneration ∧ transfer.sourcePaneId = pane.id ∧
      transfer.tabIds = selected.map (·.id) ∧ transfer.phase = .preparing := by
  obtain ⟨first, -, hrun⟩ := bind_eq_ok.mp h
  obtain ⟨tabPosition, -, hrun⟩ := bind_eq_ok.mp hrun
  obtain ⟨sourcePlacement, -, hrun⟩ := bind_eq_ok.mp hrun
  obtain rfl := ok.inj hrun
  exact ⟨rfl, rfl, rfl, rfl, rfl, rfl⟩

theorem prepareReturn_eq_ok {splitId : Identity} {destinationPaneId : Option Identity}
    (h : state.prepareReturn transferId paneId tabId destinationPaneId splitId = .ok state') :
    ∃ pane selected transfer, ∃ (destination : Window) (destinationPane : Identity), paneById state.window paneId = .ok pane ∧
      transferred pane tabId = .ok selected ∧ inUse state.layout.transfers transferId selected = false ∧
      state.prepared pane selected transferId tabId destination.id destination.attachmentGeneration destinationPane
        (some splitId) = .ok transfer ∧
      state' = { state with layout :=
        { state.layout with pendingTransfers := some (state.layout.transfers ++ [transfer]) } } := by
  obtain ⟨-, h⟩ := check_eq_ok.mp h
  obtain ⟨pane, hpane, hrun⟩ := bind_eq_ok.mp h
  obtain ⟨selected, hselected, hrun⟩ := bind_eq_ok.mp hrun
  obtain ⟨-, hrun⟩ := check_eq_ok.mp hrun
  obtain ⟨destination, -, hrun⟩ := bind_eq_ok.mp hrun
  obtain ⟨hunused, hrun⟩ := check_eq_ok.mp hrun
  obtain ⟨transfer, htransfer, hrun⟩ := bind_eq_ok.mp hrun
  exact ⟨pane, selected, transfer, destination, _, hpane, hselected, by simpa using hunused, htransfer,
    (ok.inj hrun).symm⟩

theorem prepareReturn_windows {splitId : Identity} {destinationPaneId : Option Identity}
    (h : state.prepareReturn transferId paneId tabId destinationPaneId splitId = .ok state') : state'.windows = state.windows := by
  obtain ⟨pane, selected, transfer, destination, destinationPane, -, -, -, -, rfl⟩ := prepareReturn_eq_ok h
  rfl

theorem prepareDetach_eq_ok
    (h : state.prepareDetach transferId paneId tabId destinationWindowId destinationPaneId = .ok state') :
    ∃ pane selected transfer, paneById state.window paneId = .ok pane ∧ transferred pane tabId = .ok selected ∧
      (∀ w ∈ state.windows, w.id ≠ destinationWindowId) ∧ inUse state.layout.transfers transferId selected = false ∧
      state.prepared pane selected transferId tabId destinationWindowId 0 destinationPaneId none = .ok transfer ∧
      state' = { state with layout := { state.layout with
        windows := state.layout.windows ++ [emptyWindow destinationWindowId]
        pendingTransfers := some (state.layout.transfers ++ [transfer]) } } := by
  obtain ⟨pane, hpane, hrun⟩ := bind_eq_ok.mp h
  obtain ⟨selected, hselected, hrun⟩ := bind_eq_ok.mp hrun
  obtain ⟨hunused, hrun⟩ := check_eq_ok.mp hrun
  obtain ⟨-, hrun⟩ := check_eq_ok.mp hrun
  obtain ⟨transfer, htransfer, hrun⟩ := bind_eq_ok.mp hrun
  rw [Bool.or_eq_true, not_or, Bool.not_eq_true, Bool.not_eq_true] at hunused
  refine ⟨pane, selected, transfer, hpane, hselected, ?_, hunused.2, htransfer, (ok.inj hrun).symm⟩
  intro w hw
  simpa using List.any_eq_false.mp hunused.1 w hw

theorem prepareDetach_windows (hs : state.Sound)
    (h : state.prepareDetach transferId paneId tabId destinationWindowId destinationPaneId = .ok state') :
    state'.windows = state.windows ++ [emptyWindow destinationWindowId] := by
  obtain ⟨pane, selected, transfer, -, -, hnew, -, -, rfl⟩ := prepareDetach_eq_ok h
  have hother : (emptyWindow destinationWindowId).id ≠ state.window.id :=
    (hnew state.window (mem_of_find?_eq_some hs.mem_current)).symm
  simp only [windows, map_append, map_cons, map_nil, if_neg hother]

theorem prepareDetach_placed (hs : state.Sound)
    (h : state.prepareDetach transferId paneId tabId destinationWindowId destinationPaneId = .ok state') :
    placed state'.windows = placed state.windows := by
  rw [prepareDetach_windows hs h]
  simp [placed, Window.placed, Window.cards, emptyWindow]

theorem transferReady_windows (h : state.transferReady transferId = .ok state') : state'.windows = state.windows := by
  obtain ⟨transfer, -, hrun⟩ := bind_eq_ok.mp h
  split at hrun
  · simp at hrun
  · obtain rfl := ok.inj hrun
    rfl

theorem transferStateReady_windows (h : state.transferStateReady transferId = .ok state') :
    state'.windows = state.windows := by
  obtain ⟨transfer, -, hrun⟩ := bind_eq_ok.mp h
  split at hrun
  · simp at hrun
  split at hrun
  · exact absurd hrun (invalid_ne_ok _ _)
  · obtain rfl := ok.inj hrun
    rfl

/-! ## Committing -/

theorem takeMoved_trade {window window' : Window} {source : Pane}
    (hw : window.Distinct) (hsource : source ∈ window.panes) (hselected : selected ⊆ paneViews source)
    (h : takeMoved window transfer source selected = .ok (window', moved)) :
    window.Trade window' 0 moved.cards ∧ (moved.cards = source.cards ∧ transfer.wholePane ∨
        ∃ view, selected = [view] ∧ moved.cards = {view.card} ∧ transfer.wholePane = false) ∧
      (moved.direct = none ∨ moved.tabs = [] ∨ transfer.wholePane) := by
  unfold takeMoved at h
  split at h
  · next hwhole =>
    obtain ⟨rfl, rfl⟩ := Prod.mk.inj (ok.inj h)
    have htrade : window.Trade (removePane window source) 0 source.cards := .removePane hw.paneIds (hw.pane hsource).1
    exact ⟨htrade, .inl ⟨rfl, hwhole⟩, .inr (.inr hwhole)⟩
  · next hwhole =>
    rw [Bool.not_eq_true] at hwhole
    split at h
    · next view =>
      obtain ⟨taken, htaken, hrun⟩ := bind_eq_ok.mp h
      have hview : view ∈ paneViews source := hselected (by simp)
      obtain ⟨htrade, -⟩ := Server.takeTab_trade hw hsource hview htaken
      split at hrun
      · obtain ⟨rfl, rfl⟩ := Prod.mk.inj (ok.inj hrun)
        exact ⟨htrade, .inr ⟨view, rfl, rfl, hwhole⟩, .inr (.inl rfl)⟩
      · obtain ⟨rfl, rfl⟩ := Prod.mk.inj (ok.inj hrun)
        exact ⟨htrade, .inr ⟨view, rfl, rfl, hwhole⟩, .inl rfl⟩
    · exact absurd h (invalid_ne_ok _ _)

theorem originalPane_eq_some {original : ReturnPlacement} (h : originalPane original moved destination = some pane) :
    pane ∈ destination.panes ∧
      (if original.sourcePlacement.isConversation then moved.direct ≠ none ∧ moved.tabs = [] ∧ pane.direct = none
        else moved.direct = none) := by
  unfold originalPane at h
  dsimp only at h
  cases hkind : original.sourcePlacement.isConversation with
  | true =>
    simp only [hkind, if_true, or_none] at h ⊢
    by_cases hfits : (!original.wholePane) = true ∧ moved.direct ≠ none ∧ moved.tabs = []
    · rw [if_pos hfits] at h
      have hp := find?_some h
      simp only [Bool.not_true, Bool.false_eq_true, false_or, decide_eq_true_eq] at hp
      exact ⟨mem_of_find?_eq_some h, hfits.2.1, hfits.2.2, hp.2.2⟩
    · rw [if_neg hfits] at h
      exact absurd h (by simp)
  | false =>
    simp only [hkind, Bool.false_eq_true, if_false] at h ⊢
    by_cases hfits : (!original.wholePane) = true ∧ moved.direct = none
    · rw [if_pos hfits, or_eq_some_iff, or_eq_some_iff] at h
      refine ⟨?_, hfits.2⟩
      rcases h with h | ⟨-, h | ⟨-, h⟩⟩
      · exact mem_of_find?_eq_some h
      · exact mem_of_find?_eq_some h
      · exact mem_of_find?_eq_some h
    · rw [if_neg hfits] at h
      exact absurd h (by simp)

theorem rejoin_trade {original : ReturnPlacement}
    (hw : destination.Distinct) (hpane : originalPane original moved destination = some pane)
    (h : rejoin original moved destination pane = .ok destination') : destination.Trade destination' moved.cards 0 := by
  obtain ⟨hmem, hkind⟩ := originalPane_eq_some hpane
  obtain ⟨stored, hstore, hrun⟩ := bind_eq_ok.mp h
  obtain ⟨old, hold, rfl⟩ := storePane_eq_ok hstore
  cases hc : original.sourcePlacement.isConversation with
  | true =>
    simp only [hc, if_true] at hkind hrun hold
    apply (Window.Trade.then_keep · (.focus hrun))
    refine .putPane pane (hw.pane hmem).1 ?_
    rw [Pane.cards_eq, Pane.cards_eq pane, Pane.cards_eq moved, hkind.2.1, hkind.2.2]
    simp [Pane.direct]
  | false =>
    simp only [hc, Bool.false_eq_true, if_false] at hkind hrun hold
    apply (Window.Trade.then_keep · (.focus hrun))
    refine .putPane pane (hw.pane hmem).1 ?_
    generalize (if pane.id = original.sourcePaneId then min original.sourcePlacement.tabPosition pane.tabs.length
      else pane.tabs.length) = place
    have hsplit : pane.tabs = pane.tabs.take place ++ pane.tabs.drop place := (take_append_drop _ _).symm
    rw [Pane.cards_eq, Pane.cards_eq pane, Pane.cards_eq moved, hkind]
    conv_rhs => rw [hsplit]
    simp only [map_append, ← Multiset.coe_add, toList_none, map_nil, Multiset.coe_nil, add_zero]
    have hsum : ∀ a b c d : Multiset Card, a + b + c + d = a + c + d + b := fun a b c d => by abel
    exact hsum _ _ _ _

theorem readmit_trade {original : Option ReturnPlacement}
    {returnSplitId : Identity} (h : readmit original moved destination returnSplitId = .ok destination') :
    destination.Trade destination' moved.cards 0 := by
  unfold readmit at h
  dsimp only at h
  generalize hregion : (if moved.direct ≠ none then Region.center
    else (original.map (·.sourcePlacement.region)).getD .center) = region at h
  apply (Window.Trade.then_keep · (.focus h))
  have hperm := perm_insertIdx { moved with region } destination.panes
    (Nat.min_le_right ((original.map (·.sourcePlacement.panePosition)).getD destination.panes.length) _)
  have hcards : Pane.cards { moved with region } = moved.cards := rfl
  exact hcards ▸ .insert hperm

theorem arrive_trade (hempty : destination.panes = [])
    (h : arrive transfer moved destination = .ok destination') : destination.Trade destination' moved.cards 0 := by
  unfold arrive at h
  apply (Window.Trade.then_keep · (.focus h))
  exact ⟨rfl, by simp [Window.cards, hempty]⟩

theorem commit_eq_ok (hs : state.Sound) (h : state.commit transferId = .ok state') :
    ∃ transfer ∈ state.layout.transfers, transfer.id = transferId ∧ transfer.sourceWindowId = state.window.id ∧
      transfer.phase = .stateReady ∧ ∃ source ∈ state.window.panes, source.id = transfer.sourcePaneId ∧
      ∃ destination ∈ state.windows, destination.id = transfer.destinationWindowId ∧
      ∃ window' destination' moved, state.window.Trade window' 0 moved ∧
        destination.Trade destination' moved 0 ∧ moved ≤ source.cards ∧ (moved.map Prod.fst) = ↑transfer.tabIds ∧
        state' = ((State.storeWindow { state with window := window', focusWindow := some destination'.id }
          destination').dropTransfer transfer.id) := by
  obtain ⟨transfer, htransfer, hrun⟩ := bind_eq_ok.mp h
  have hmem := mem_of_find?_eq_some (orMissing_eq_ok.mp htransfer)
  have hid : transfer.id = transferId := by simpa using find?_some (orMissing_eq_ok.mp htransfer)
  split at hrun
  · simp at hrun
  next hsource =>
  rw [ne_eq, not_not] at hsource
  obtain ⟨hphase, hrun⟩ := check_eq_ok.mp hrun
  rw [ne_eq, not_not] at hphase
  obtain ⟨source, hsourcePane, hrun⟩ := bind_eq_ok.mp hrun
  obtain ⟨destination, hdestination, hrun⟩ := bind_eq_ok.mp hrun
  obtain ⟨selected, hselected, hrun⟩ := bind_eq_ok.mp hrun
  obtain ⟨hwhole, hrun⟩ := check_eq_ok.mp hrun
  obtain ⟨⟨window', moved⟩, hmoved, hrun⟩ := bind_eq_ok.mp hrun
  obtain ⟨-, hsourceMem, hsourceId⟩ := paneById_eq_ok hsourcePane
  have hfindDestination := orMissing_eq_ok.mp hdestination
  have hdestinationMem := mem_of_find?_eq_some hfindDestination
  have hdestinationId : destination.id = transfer.destinationWindowId := by simpa using find?_some hfindDestination
  have hlookup : ∀ id tab, orMissing (findView source id) "Transferred tab no longer belongs to the prepared source pane." =
      .ok tab → tab.id = id ∧ tab ∈ paneViews source := by
    intro id tab hfound
    rw [orMissing_eq_ok] at hfound
    exact ⟨by simpa using find?_some hfound, mem_of_find?_eq_some hfound⟩
  obtain ⟨hids, hsub⟩ := Server.lookups_eq_ok hlookup hselected
  have hcurrent := hs.distinct state.window (mem_of_find?_eq_some hs.mem_current)
  obtain ⟨htrade, hcards, -⟩ := takeMoved_trade hcurrent hsourceMem hsub hmoved
  have hlisted : (moved.cards.map Prod.fst) = ↑transfer.tabIds ∧ moved.cards ≤ source.cards := by
    rcases hcards with ⟨hcards, hall⟩ | ⟨view, rfl, hcards, -⟩
    · have hviews : (paneViews source).map (·.id) = transfer.tabIds := by
        by_contra hne
        exact hwhole ⟨hall, hne⟩
      rw [hcards, Pane.cards, Multiset.map_coe, List.map_map, ← hviews]
      exact ⟨rfl, le_refl _⟩
    · rw [hcards, ← hids]
      refine ⟨rfl, Multiset.singleton_le.mpr ?_⟩
      rw [Pane.cards, Multiset.mem_coe]
      exact List.mem_map_of_mem (hsub (by simp))
  obtain ⟨destination', hdestination', hrun⟩ : ∃ destination', destination.Trade destination' moved.cards 0 ∧
      Except.ok ((State.storeWindow { state with window := window', focusWindow := some destination'.id }
          destination').dropTransfer transfer.id) = (.ok state' : Except Failure State) := by
    have hdistinct := hs.distinct destination hdestinationMem
    cases hsplit : transfer.returnSplitId with
    | none =>
      rw [hsplit] at hrun
      obtain ⟨destination', harrive, hrun⟩ := bind_eq_ok.mp hrun
      have hreturning : transfer.returning = false := by rw [Transfer.returning, hsplit]; rfl
      exact ⟨destination', arrive_trade (hs.staged transfer hmem hreturning destination hdestinationMem hdestinationId) harrive,
        hrun⟩
    | some returnSplitId =>
      rw [hsplit] at hrun
      dsimp only at hrun
      split at hrun
      · next original pane hback =>
        obtain ⟨destination', hrejoin, hdone⟩ := bind_eq_ok.mp hrun
        obtain ⟨o, -, hchosen⟩ := bind_eq_some_iff.mp hback
        obtain ⟨p, hpane, he⟩ := map_eq_some_iff.mp hchosen
        obtain ⟨rfl, rfl⟩ := Prod.mk.inj he
        exact ⟨destination', rejoin_trade hdistinct hpane hrejoin, hdone⟩
      · obtain ⟨destination', hreadmit, hrun⟩ := bind_eq_ok.mp hrun
        exact ⟨destination', readmit_trade hreadmit, hrun⟩
  exact ⟨transfer, hmem, hid, hsource, hphase, source, hsourceMem, hsourceId, destination, hdestinationMem, hdestinationId,
    window', destination', moved.cards, htrade, hdestination', hlisted.2, hlisted.1, (ok.inj hrun).symm⟩

theorem commit_placed (hs : state.Sound) (h : state.commit transferId = .ok state') :
    ∃ transfer ∈ state.layout.transfers, transfer.id = transferId ∧ transfer.sourceWindowId = state.window.id ∧
      transfer.phase = .stateReady ∧ ∃ moved : Multiset Card, (moved.map Prod.fst) = ↑transfer.tabIds ∧
      placed state'.windows + moved.map (Prod.mk transfer.sourceWindowId) =
        placed state.windows + moved.map (Prod.mk transfer.destinationWindowId) := by
  obtain ⟨transfer, hmem, hid, hsource, hphase, source, hsourceMem, -, destination, hdestination, hdestinationId,
    window', destination', moved, htrade, harrived, -, hlisted, rfl⟩ := commit_eq_ok hs h
  refine ⟨transfer, hmem, hid, hsource, hphase, moved, hlisted, ?_⟩
  have hother : destination.id ≠ state.window.id := by
    rw [hdestinationId, ← hsource]
    exact (hs.ends transfer hmem).symm
  have hleft := hs.trade (mem_of_find?_eq_some hs.mem_current) htrade
  obtain ⟨hcoherent, hwindows⟩ := @Coherent.storeWindow state hs.toCoherent window'
  have hstill : destination ∈ (state.storeWindow window').windows := by
    rw [hwindows]
    have hfind : (putKey (·.id) window' state.windows).find? (fun w => w.id = destination.id) = some destination := by
      rw [find?_put_of_ne window' state.windows (by rw [htrade.id]; exact hother.symm)]
      exact hs.find hdestination
    exact mem_of_find?_eq_some hfind
  have hright := hcoherent.trade hstill harrived
  have hsame : placed ((State.storeWindow { state with window := window', focusWindow := some destination'.id }
      destination').dropTransfer transfer.id).windows = placed ((state.storeWindow window').storeWindow destination').windows := by
    simp only [State.storeWindow, htrade.id, harrived.id, hother, if_true, if_false]
    rfl
  rw [hsame, hsource, ← hdestinationId]
  simp only [State.Exchange, Multiset.map_zero, add_zero] at hleft hright
  rw [hright, ← hleft]
  abel


end State

end Cantrip.Workspace
