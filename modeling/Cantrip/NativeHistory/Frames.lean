import Cantrip.NativeHistory.Advance

/-!
# Frames that tell of an item

A snapshot and a notification that are built of what the native runtime tells take the item on (`moves_snapshot`,
`moves_notification`).
-/


namespace Cantrip.NativeHistory

open Lib Option List

variable {N : Type} [DecidableEq N] [JsNumber N] {n : NativeItem N}

namespace NativeItem

/-! ## Snapshots -/

omit [DecidableEq N] [JsNumber N] in
theorem findLive_spec {history : Option (History N)} {turnId itemId : String} {live : LiveItem N}
    (h : findLive history turnId itemId = some live) :
    live ∈ liveItems history ∧ live.turnId = turnId ∧ live.item.id = itemId := by
  have hmem := mem_of_find?_eq_some h
  have hnames := find?_some h
  exact ⟨hmem, by simpa using hnames⟩

section Snapshot

variable {history : Option (History N)}

theorem follows_live (turn : Turn N) {live : LiveItem N} (origin : Origin)
    (hlive : turn.id = n.turnId → live.item.id = n.itemId → n.Carried live) :
    n.Follows turn (applyItem turn live.item.id .canonical (liveCandidate live origin) false) := by
  by_cases hnames : turn.id = n.turnId ∧ live.item.id = n.itemId
  · obtain ⟨d, hd⟩ := holds_liveCandidate (hlive hnames.1 hnames.2) origin
    rw [hnames.2]
    exact follows_applyItem turn hd fun h => absurd h Bool.false_ne_true
  · refine follows_applyItem_ne turn _ false fun hid heq => hnames ⟨hid, ?_⟩
    exact (Prod.mk.inj heq).2

theorem follows_snapshotItem {raw : CodexTurn N} (metadata : Option (TurnMetadata N)) (kind : IdentityKind) (origin : Origin)
    {turn : Turn N} (hid : turn.id = raw.id) {item : CodexItem N}
    (hitem : raw.id = n.turnId → item.id = n.itemId → (findLive history n.turnId n.itemId).isSome)
    (hlive : ∀ live ∈ liveItems history, live.turnId = n.turnId → live.item.id = n.itemId → n.Carried live) :
    n.Follows turn (snapshotItem history raw metadata kind origin turn item) := by
  unfold snapshotItem
  obtain hnone | ⟨live, hfound⟩ := eq_none_or_eq_some (findLive history raw.id item.id)
  · rw [hnone]
    refine follows_applyItem_ne turn _ false fun hturn heq => ?_
    have hraw : raw.id = n.turnId := hid.symm.trans hturn
    have hnamed : item.id = n.itemId := (Prod.mk.inj heq).2
    have hsome := hitem hraw hnamed
    rw [← hraw, ← hnamed, hnone] at hsome
    exact absurd hsome Bool.false_ne_true
  · rw [hfound]
    obtain ⟨hmem, hturn, hnamed⟩ := findLive_spec hfound
    show n.Follows turn (applyItem turn item.id .canonical (liveCandidate live origin) false)
    rw [← hnamed]
    exact follows_live turn origin fun h hi => hlive live hmem (hturn.trans (hid.symm.trans h)) hi

omit [DecidableEq N] in
theorem follows_arranged (turn : Turn N) (old observed : List (IdentityKind × String)) :
    n.Follows turn { turn with items := arrange Item.key old observed turn.items } := by
  have hperm := @arrange_perm (Item N) _ _ Item.key old observed turn.items
  refine ⟨rfl, fun hdistinct => ?_, fun _ hdistinct hsound => ?_⟩
  · exact (hperm.map Item.key).nodup_iff.mpr hdistinct
  · refine (Advances.refl hsound).of_eq ?_
    unfold Turn.canonical
    exact find?_perm hdistinct hperm.symm

theorem follows_snapshotTurn {raw : CodexTurn N} (origin : Origin) {turn : Turn N} (hid : turn.id = raw.id)
    (hitems : raw.id = n.turnId → ∀ item ∈ raw.items, item.id = n.itemId → (findLive history n.turnId n.itemId).isSome)
    (hlive : ∀ live ∈ liveItems history, live.turnId = n.turnId → live.item.id = n.itemId → n.Carried live) :
    n.Follows turn (snapshotTurn history raw origin turn) := by
  unfold snapshotTurn
  dsimp only
  refine Follows.trans ?_ (follows_arranged _ _ _)
  generalize (history.bind fun h => h.turns.find? fun entry => entry.turnId = raw.id) = metadata
  -- everything before the items keeps them
  have hprovisional : turn.SameItems (if provisional raw history then turn.noteConflict [("inferredInterruption", .object raw.fields)] else turn) := by
    split
    · exact sameItems_noteConflict turn _
    · exact .refl turn
  have hturn := hprovisional.trans (sameItems_applyTurn _
    (if provisional raw history then raw.fields.put "status" (.string "inProgress") else raw.fields) origin false)
  generalize @applyTurn N _ _ _ _ origin false = applied at hturn ⊢
  have hconflict : applied.SameItems (if (metadata.elim false fun m => m.initialSettingsConflict) = true then
      applied.noteSettingsConflict else applied) := by
    split
    · exact sameItems_noteSettingsConflict applied
    · exact .refl applied
  have hsettings := (hturn.trans hconflict).trans (sameItems_retainInitialSettings _ (metadata.bind fun m => m.initialSettings))
  generalize @retainInitialSettings N _ _ _ _ = settled at hsettings ⊢
  have hmetadata : settled.SameItems (metadata.elim settled fun m => retainMetadata settled m origin) := by
    cases metadata with
    | none => exact .refl settled
    | some m => exact sameItems_retainMetadata settled m origin
  have hsame := hsettings.trans hmetadata
  refine (Follows.of_same hsame).trans ?_
  refine Follows.foldl raw.id (fun t ht item hitem => ?_) _ (hsame.1.trans hid)
  exact follows_snapshotItem metadata _ origin ht (fun hraw hnamed => hitems hraw item hitem hnamed) hlive

end Snapshot

theorem moves_snapshot {turns : List (Turn N)} (hdistinct : Distinct turns) (h : n.Sound (n.itemIn turns)) (value : Snapshot N)
    (origin : Origin)
    (hitems : ∀ turn ∈ value.turns, turn.id = n.turnId → ∀ item ∈ turn.items, item.id = n.itemId →
      (findLive value.history n.turnId n.itemId).isSome)
    (hlive : ∀ live ∈ liveItems value.history, live.turnId = n.turnId → live.item.id = n.itemId → n.Carried live) :
    n.Moves turns (snapshot turns value origin) := by
  -- a fold of steps that each move the turns
  have hfold : ∀ {α : Type} (step : List (Turn N) → α → List (Turn N)) (l : List α),
      (∀ turns, Distinct turns → n.Sound (n.itemIn turns) → ∀ a ∈ l, n.Moves turns (step turns a)) →
      ∀ turns, Distinct turns → n.Sound (n.itemIn turns) → n.Moves turns (l.foldl step turns) := by
    intro α step l
    induction l with
    | nil => exact fun _ turns hdistinct h => .refl hdistinct h
    | cons a l ih =>
      intro hstep turns hdistinct h
      have hfirst := hstep turns hdistinct h a (by simp)
      exact hfirst.trans (ih (fun turns hd hs b hb => hstep turns hd hs b (by simp [hb])) _ hfirst.distinct hfirst.advances.sound)
  unfold snapshot
  dsimp only
  have hturns := hfold (fun turns raw => onTurn raw.id origin (snapshotTurn value.history raw origin) turns) value.turns
    (fun turns hd hs raw hraw => moves_onTurn hd hs fun turn hid =>
      follows_snapshotTurn origin hid (fun hrawId item hitem hnamed => hitems raw hraw hrawId item hitem hnamed) hlive) turns hdistinct h
  refine hturns.trans ?_
  have harranged := moves_arrange hturns.distinct hturns.advances.sound (turns.map Turn.id) (value.turns.map CodexTurn.id)
  refine harranged.trans (hfold _ _ (fun turns hd hs live hlive' => ?_) _ harranged.distinct harranged.advances.sound)
  split
  · exact .refl hd hs
  · exact moves_onTurn hd hs fun turn hid => follows_live turn origin fun hturn hnamed => hlive live hlive' (hid.symm.trans hturn) hnamed

/-! ## Notifications -/

variable {params : Fields N} {frame : Notification N} {origin : Origin} {method threadId : String} {turn turn' : Turn N}

theorem follows_turnNotification {raw : Fields N} (origin : Origin) (turn : Turn N)
    (hraw : (params.get "turn").bind Json.asObject = some raw)
    (h : turn.id = n.turnId → ∀ entry ∈ listed params, ∀ item, entry.asObject = some item → idOf (item.get "id") ≠ some n.itemId) :
    n.Follows turn (turnNotification threadId method params raw origin turn) := by
  unfold turnNotification
  dsimp only
  have happlied := sameItems_applyTurn turn raw origin (decide (method = "turn/completed"))
  generalize @applyTurn N _ _ turn raw origin (decide (method = "turn/completed")) = applied at happlied ⊢
  have hstarted : applied.SameItems (if method = "turn/started" then
      retainAttribution threadId (retainInitialSettings applied (params.get "initialSettings")) (params.get "cantripModelAttribution")
      else applied) := by
    split
    · exact (sameItems_retainInitialSettings applied _).trans (sameItems_retainAttribution threadId _ _)
    · exact .refl applied
  have hsame := happlied.trans hstarted
  refine (Follows.of_same hsame).trans (Follows.foldl turn.id (fun t ht entry hentry => ?_) _ hsame.1)
  have hlisted : entry ∈ listed params := by
    unfold listed
    rw [hraw]
    exact hentry
  unfold turnItem
  obtain hnone | ⟨item, hitem⟩ := eq_none_or_eq_some entry.asObject
  · rw [hnone]
    exact .of_same (.refl t)
  · rw [hitem]
    dsimp only
    split
    · rename_i itemId _ hid _
      refine follows_applyItem_ne t _ false fun hturn heq => h (ht.symm.trans hturn) entry hlisted item hitem ?_
      rw [hid, (Prod.mk.inj heq).2]
    · exact .of_same (.refl t)

theorem delta_id (h : delta turn params method origin = some turn') :
    turn' = turn ∨ ∃ itemId next, idOf (params.get "itemId") = some itemId ∧ (deltaKind method).isSome ∧
      turn' = applyItem turn itemId .canonical next false := by
  unfold delta at h
  obtain ⟨itemId, hitemId, h⟩ := bind_eq_some_iff.mp h
  obtain ⟨kind, hkind, h⟩ := bind_eq_some_iff.mp h
  dsimp only at h
  split at h
  · exact .inl (some.inj h).symm
  · split at h
    · exact .inl (some.inj h).symm
    · cases h
    · split at h
      · cases h
      · obtain ⟨body, -, rfl⟩ := map_eq_some_iff.mp h
        exact .inr ⟨itemId, _, hitemId, by rw [hkind]; rfl, rfl⟩

theorem follows_delta_ne (h : delta turn params method origin = some turn')
    (hother : turn.id = n.turnId → (deltaKind method).isSome → idOf (params.get "itemId") ≠ some n.itemId) : n.Follows turn turn' := by
  obtain rfl | ⟨itemId, next, hitemId, hkind, rfl⟩ := delta_id h
  · exact .of_same (.refl turn')
  · refine follows_applyItem_ne turn next false fun hturn heq => hother hturn hkind ?_
    rw [hitemId, (Prod.mk.inj heq).2]

theorem notify_cases (h : notify threadId frame origin turn = some turn') :
    (∃ raw, (frame.params.get "turn").bind Json.asObject = some raw ∧
        (frame.method = "turn/started" ∨ frame.method = "turn/completed") ∧
        turn' = turnNotification threadId frame.method frame.params raw origin turn) ∨
      (∃ item, notifiedItem frame.method frame.params = some item ∧ turn' = itemNotification frame.method frame.params item origin turn) ∨
      notifiedItem frame.method frame.params = none ∧ delta turn frame.params frame.method origin = some turn' := by
  unfold notify at h
  dsimp only at h
  split at h
  · rename_i raw hraw
    obtain ⟨hobject, hmethod⟩ := filter_eq_some_iff.mp hraw
    exact .inl ⟨raw, hobject, of_decide_eq_true hmethod, (some.inj h).symm⟩
  · rename_i item _ hitem
    exact .inr (.inl ⟨item, hitem, (some.inj h).symm⟩)
  · rename_i _ hitem
    exact .inr (.inr ⟨hitem, h⟩)

omit [DecidableEq N] [JsNumber N] in
theorem notifiedItem_method {item : String × Fields N} (h : notifiedItem method params = some item) :
    method = "item/started" ∨ method = "item/completed" := by
  unfold notifiedItem at h
  split at h
  · assumption
  · cases h

omit [DecidableEq N] in
theorem written_not_whole {change : Change} (h : change.Written method params) : method ∉ wholeMethods := by
  cases change with
  | text delta => rw [h.1]; decide
  | output delta => rw [h.1]; decide
  | summaryText index delta => rw [h.1]; decide
  | summaryPart index => rw [h.1]; decide
  | other => exact h.2

theorem notify_told {link : Link Change} (htold : n.TellsUpdate link frame) (origin : Origin)
    (turn : Turn N) : notify threadId frame origin turn = delta turn frame.params frame.method origin := by
  have hwhole := written_not_whole htold.written
  simp only [wholeMethods, mem_cons, not_mem_nil, or_false, not_or] at hwhole
  obtain ⟨hstarted, hcompleted, hitemStarted, hitemCompleted⟩ := hwhole
  have hraw : (((frame.params.get "turn").bind Json.asObject).filter fun _ =>
      decide (frame.method = "turn/started" ∨ frame.method = "turn/completed")) = none := by
    rw [filter_eq_none_iff]
    intro raw _
    simp [hstarted, hcompleted]
  have hitem : notifiedItem frame.method frame.params = none := if_neg (by simp [hitemStarted, hitemCompleted])
  unfold notify
  dsimp only
  rw [hraw, hitem]

theorem follows_elsewhere (hmentioned : ¬ n.Mentioned frame)
    (hturn : turnIdOf frame.params = some turn.id) (h : notify threadId frame frame.origin turn = some turn') : n.Follows turn turn' := by
  obtain ⟨raw, hraw, hmethod, rfl⟩ | ⟨item, hitem, rfl⟩ | ⟨-, hdelta⟩ := notify_cases h
  · refine follows_turnNotification frame.origin turn hraw fun hid entry hentry item hitem hnamed => hmentioned ?_
    exact ⟨hid ▸ hturn, .inl ⟨hmethod, entry, hentry, item, hitem, hnamed⟩⟩
  · refine follows_applyItem_ne turn _ _ fun hid heq => hmentioned ⟨hid ▸ hturn, .inr (.inl ⟨item.2, ?_⟩)⟩
    rw [hitem, ← (Prod.mk.inj heq).2]
  · exact follows_delta_ne hdelta fun hid hkind hnamed => hmentioned ⟨hid ▸ hturn, .inr (.inr ⟨hkind, hnamed⟩)⟩

theorem follows_whole {cursor : Nat} {body : Fields N}
    (htold : n.TellsWhole method cursor body frame) (hknown : n.HasCursor cursor) (htext : streams body = n.textAt cursor)
    (hstart : cursor = n.startSequence → body = n.startBody)
    (hlifecycle : n.lifecycleAt cursor = if method = "item/completed" then .completed else .started)
    (hinitial : method = "item/started" → cursor = n.startSequence)
    (h : notify threadId frame frame.origin turn = some turn') : n.Follows turn turn' := by
  have hitemMethod := notifiedItem_method htold.item
  obtain ⟨raw, hraw, hmethod, rfl⟩ | ⟨item, hitem, rfl⟩ | ⟨hnone, -⟩ := notify_cases h
  · exfalso
    rcases hitemMethod with heq | heq <;> rw [heq] at hmethod <;> revert hmethod <;> decide
  · obtain rfl : item = (n.itemId, body) := some.inj (hitem.symm.trans htold.item)
    refine follows_applyItem turn (d := cursor) ⟨htold.origin, hknown, htext, fun hc key => by rw [← hstart hc], ?_, rfl⟩ fun hs => ?_
    · rw [hlifecycle, htold.named]
    · exact hinitial (htold.named ▸ of_decide_eq_true hs)
  · rw [htold.item] at hnone
    cases hnone

theorem follows_notify (hbuilt : n.Built (.notification frame))
    (hturn : turnIdOf frame.params = some turn.id) (h : notify threadId frame frame.origin turn = some turn') : n.Follows turn turn' := by
  cases hbuilt with
  | started htold =>
    refine follows_whole htold (.inl rfl) textAt_start.symm (fun _ => rfl) ?_ (fun _ => rfl) h
    unfold lifecycleAt
    rw [if_neg]
    · rfl
    · intro hany
      have hcompleted : n.lifecycleAt n.startSequence = .completed := if_pos hany
      obtain ⟨e, he, hle⟩ := lifecycleAt_eq_completed.mp hcompleted
      have hlast := (n.completesLast e he).1
      omega
  | @completed _ e he htold =>
    refine follows_whole htold (.inr (.inr ⟨e, he, rfl⟩)) (textAt_completion he).symm ?_ ?_ ?_ h
    · intro heq
      have hlast := (n.completesLast e he).1
      omega
    · rw [if_pos rfl]
      exact lifecycleAt_eq_completed.mpr ⟨e, he, Nat.le_refl _⟩
    · intro hmethod
      exact absurd hmethod (by decide)
  | elsewhere hmentioned => exact follows_elsewhere hmentioned hturn h
  | @updated _ link htold =>
    rw [notify_told htold] at h
    obtain ⟨hid, hdistinct⟩ : turn'.id = turn.id ∧ (turn.Distinct → turn'.Distinct) := by
      obtain rfl | ⟨itemId, next, -, -, rfl⟩ := delta_id h
      · exact ⟨rfl, id⟩
      · exact ⟨applyItem_id .., fun hdistinct => distinct_applyItem hdistinct _ _ _ _⟩
    refine ⟨hid, hdistinct, fun _ _ hsound => ?_⟩
    obtain rfl | ⟨hprogress, item, hitem, hholds⟩ := delta_told htold hsound h
    · exact .refl hsound
    · have hbounds := n.linked.bounds htold.listed
      rw [hitem]
      refine ⟨fun i hi => ?_, ?_⟩
      · obtain rfl := some.inj hi
        exact ⟨_, hholds⟩
      · rw [hprogress, hholds.progress]
        exact WithBot.coe_le_coe.mpr (Nat.le_of_lt hbounds.2)

theorem moves_notification {state : State N} (recordId : String) (hdistinct : Distinct state.turns)
    (h : n.Sound (n.itemIn state.turns)) (hbuilt : n.Built (.notification frame)) :
    n.Moves state.turns (reduceNotification state recordId frame).turns := by
  unfold reduceNotification
  split
  · exact .refl hdistinct h
  · dsimp only
    obtain hnone | ⟨turnId, hturnId⟩ := eq_none_or_eq_some (turnIdOf frame.params)
    · rw [hnone]
      exact .refl hdistinct h
    · rw [hturnId]
      dsimp only
      have hensured := moves_ensureTurn hdistinct h turnId frame.origin
      obtain ⟨turn, hfound, hturn, -⟩ := find?_ensureTurn state.turns turnId frame.origin
      rw [hfound, bind_some]
      split
      · rename_i turn' hnotify
        refine hensured.trans (moves_put hensured.distinct hensured.advances.sound hfound ?_)
        exact follows_notify hbuilt (hturnId.trans (congrArg some hturn.symm)) hnotify
      · exact hensured

theorem moves_record {state state' : State N} {record : Record N} (hdistinct : Distinct state.turns)
    (h : n.Sound (n.itemIn state.turns)) (hbuilt : n.Built record.frame) (hstep : reduceRecord threadId state record = .ok state') :
    n.Moves state.turns state'.turns := by
  unfold reduceRecord at hstep
  split at hstep
  · cases hstep
  · obtain ⟨recordId, frame⟩ := record
    cases frame with
    | notification frame =>
      cases hstep
      exact moves_notification recordId hdistinct h hbuilt
    | snapshot frame =>
      cases hstep
      unfold reduceObservation
      split
      · exact .refl hdistinct h
      · cases hbuilt with
        | read hitems hlive => exact moves_snapshot hdistinct h frame.snapshot _ hitems hlive

end NativeItem

end Cantrip.NativeHistory
