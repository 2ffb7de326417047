import Cantrip.NativeHistory.Merge
import Mathlib.Algebra.Order.Monoid.Unbundled.WithTop

/-!
# How far an item is

Where the item of a state stands (`progress`), and what each function of the reducer does to it, given a frame in
which the native runtime tells of the item: the item stays the native item at some cursor, and the cursor does not
fall (`Advances`).
-/


namespace Cantrip.NativeHistory

open Lib List Option

variable {N : Type} [JsNumber N] {n : NativeItem N}

def progress (item : Option (Item N)) : WithBot ℕ :=
  (item.bind fun i => i.origin.nativeCursor).elim ⊥ fun cursor => (cursor.sequence : WithBot ℕ)

namespace NativeItem

def Sound (n : NativeItem N) (item : Option (Item N)) : Prop := ∀ i ∈ item, ∃ c, n.Holds i.toCandidate c

structure Advances (n : NativeItem N) (item item' : Option (Item N)) : Prop where
  sound : n.Sound item'
  ahead : progress item ≤ progress item'

theorem Advances.refl {item : Option (Item N)} (h : n.Sound item) : n.Advances item item := ⟨h, le_refl _⟩

theorem Advances.trans {a b c : Option (Item N)} (h : n.Advances a b) (h' : n.Advances b c) : n.Advances a c :=
  ⟨h'.sound, h.ahead.trans h'.ahead⟩

theorem Advances.of_eq {a b c : Option (Item N)} (h : n.Advances a b) (heq : c = b) : n.Advances a c := heq ▸ h

variable {item : Item N} {link : Link Change} {turns : List (Turn N)} {frame : Notification N} {turn turn' : Turn N}

theorem Holds.progress {c : Nat} (h : n.Holds item.toCandidate c) : progress (some item) = (c : WithBot ℕ) := by
  obtain ⟨p, hp⟩ := h.origin
  show (item.origin.nativeCursor).elim _ _ = _
  rw [hp]
  rfl

theorem Advances.applyItem [DecidableEq N] {next : Candidate N} {d : Nat} {initial : Bool} (h : n.Sound (turn.canonical n.itemId))
    (hnext : n.Holds next d) (hinitial : initial = true → d = n.startSequence) :
    n.Advances (turn.canonical n.itemId) ((applyItem turn n.itemId .canonical next initial).canonical n.itemId) := by
  rw [canonical_applyItem]
  obtain hnone | ⟨item, hitem⟩ := eq_none_or_eq_some (turn.canonical n.itemId)
  · rw [hnone]
    refine ⟨?_, bot_le⟩
    intro i hi
    obtain rfl := some.inj hi
    exact ⟨d, hnext.congr rfl rfl rfl rfl⟩
  · rw [hitem]
    obtain ⟨c, hc⟩ := h item hitem
    have hrevised := hc.revise hnext hinitial
    constructor
    · intro i hi
      obtain rfl := some.inj hi
      exact ⟨max c d, hrevised⟩
    · show NativeHistory.progress (some item) ≤ NativeHistory.progress (some (item.revise next initial))
      rw [hc.progress, hrevised.progress]
      exact WithBot.coe_le_coe.mpr (Nat.le_max_left c d)

theorem holds_liveCandidate {live : LiveItem N} (h : n.Carried live) (origin : Origin) : ∃ c, n.Holds (liveCandidate live origin) c := by
  obtain ⟨c, hknown, hepoch, hsequence, hstate, htext, hstart⟩ := h
  refine ⟨c, ⟨live.cursor.previousSequence, ?_⟩, hknown, htext, fun hc key => ?_, hstate, rfl⟩
  · show some live.cursor = _
    rw [← hepoch, ← hsequence]
  · rw [← hstart hc]
    rfl

/-! ## Updates -/

theorem Holds.route {c : Nat} (h : n.Holds item.toCandidate c) (sequence : Nat) (previous : Option Nat) :
    route (some ⟨n.epoch, sequence, previous⟩) item.origin.nativeCursor =
      if sequence ≤ c then .covered else if previous ≠ some c then .missing else .applies := by
  obtain ⟨p, hp⟩ := h.origin
  rw [hp]
  show (if n.epoch ≠ n.epoch then Route.missing else _) = _
  rw [if_neg (not_not_intro rfl)]

theorem Holds.continued {kind : String} {body : Fields N}
    (h : n.Holds item.toCandidate link.previous) (htold : n.TellsUpdate link frame) (hkind : deltaKind frame.method = some kind)
    (hbody : streamed frame.method kind frame.params item.body = some body) :
    n.Holds (continued (some item) body frame.origin) link.sequence where
  origin := ⟨_, htold.origin⟩
  known := .inr (.inl ⟨link, htold.listed, rfl⟩)
  text := by
    rw [textAt_link htold.listed, ← h.text]
    exact streams_streamed hkind htold.written hbody
  start := by
    intro heq
    have hbounds := n.linked.bounds htold.listed
    omega
  lifecycle := (lifecycleAt_of_le htold.listed (Nat.le_refl _)).symm
  complete := h.complete

theorem delta_told [DecidableEq N] (htold : n.TellsUpdate link frame)
    (h : n.Sound (turn.canonical n.itemId)) (hdelta : delta turn frame.params frame.method frame.origin = some turn') :
    turn' = turn ∨ NativeHistory.progress (turn.canonical n.itemId) = (link.previous : WithBot ℕ) ∧
        ∃ item', turn'.canonical n.itemId = some item' ∧ n.Holds item'.toCandidate link.sequence := by
  unfold delta at hdelta
  rw [htold.item, bind_some] at hdelta
  obtain ⟨kind, hkind, hdelta⟩ := bind_eq_some_iff.mp hdelta
  have horigin : frame.origin.nativeCursor = some ⟨n.epoch, link.sequence, some link.previous⟩ := htold.origin
  change (if (turn.canonical n.itemId).elim false _ = true then some turn else _) = _ at hdelta
  rw [horigin] at hdelta
  obtain hnone | ⟨item, hitem⟩ := eq_none_or_eq_some (turn.canonical n.itemId)
  · rw [show (turn.items.find? fun item => item.key = (IdentityKind.canonical, n.itemId)) = none from hnone] at hdelta
    rw [hnone] at hdelta
    cases hdelta
  · obtain ⟨c, hc⟩ := h item hitem
    rw [show (turn.items.find? fun item => item.key = (IdentityKind.canonical, n.itemId)) = some item from hitem] at hdelta
    rw [hitem, bind_some, hc.route] at hdelta
    by_cases hcompleted : item.lifecycle = .completed
    · rw [if_pos (by simp [hcompleted])] at hdelta
      exact .inl (some.inj hdelta).symm
    · rw [if_neg (by simp [hcompleted])] at hdelta
      by_cases hcovered : link.sequence ≤ c
      · rw [if_pos hcovered] at hdelta
        exact .inl (some.inj hdelta).symm
      · rw [if_neg hcovered] at hdelta
        by_cases hprevious : some link.previous ≠ some c
        · rw [if_pos hprevious] at hdelta
          cases hdelta
        · rw [if_neg hprevious] at hdelta
          obtain rfl : link.previous = c := by simpa using hprevious
          have hcertain : uncertain (some item) frame.origin = false := by
            obtain ⟨p, hp⟩ := hc.origin
            simp [uncertain, hp]
          dsimp only at hdelta
          rw [if_neg (by simp [hcertain])] at hdelta
          obtain ⟨body, hbody, rfl⟩ := map_eq_some_iff.mp hdelta
          have hrevised : n.Holds (item.revise (continued (some item) body frame.origin) false).toCandidate _ :=
            hc.revise (hc.continued htold hkind hbody) fun h => absurd h Bool.false_ne_true
          rw [Nat.max_eq_right (by omega)] at hrevised
          refine .inr ⟨by rw [hitem]; exact hc.progress, _, canonical_applyItem turn n.itemId _ false, ?_⟩
          rw [hitem]
          exact hrevised

theorem delta_missing [DecidableEq N] (htold : n.TellsUpdate link frame)
    (h : n.Sound (turn.canonical n.itemId)) (hmissing : NativeHistory.progress (turn.canonical n.itemId) < (link.previous : WithBot ℕ)) :
    delta turn frame.params frame.method frame.origin = none := by
  have horigin : frame.origin.nativeCursor = some ⟨n.epoch, link.sequence, some link.previous⟩ := htold.origin
  have hbounds := n.linked.bounds htold.listed
  unfold delta
  rw [htold.item, bind_some]
  obtain hkind | ⟨kind, hkind⟩ := eq_none_or_eq_some (deltaKind frame.method)
  · rw [hkind]
    rfl
  · rw [hkind, bind_some, horigin]
    obtain hnone | ⟨item, hitem⟩ := eq_none_or_eq_some (turn.canonical n.itemId)
    · rw [show (turn.items.find? fun item => item.key = (IdentityKind.canonical, n.itemId)) = none from hnone]
      rfl
    · obtain ⟨c, hc⟩ := h item hitem
      rw [hitem, hc.progress] at hmissing
      have hlt : c < link.previous := WithBot.coe_lt_coe.mp hmissing
      have hstarted : item.lifecycle = .started := hc.lifecycle.trans (lifecycleAt_of_le htold.listed (by omega))
      rw [show (turn.items.find? fun item => item.key = (IdentityKind.canonical, n.itemId)) = some item from hitem]
      dsimp only
      rw [if_neg (by simp [hstarted]), bind_some, hc.route, if_neg (by omega), if_pos]
      intro heq
      have := some.inj heq
      omega

structure Follows (n : NativeItem N) (turn turn' : Turn N) : Prop where
  id : turn'.id = turn.id
  distinct : turn.Distinct → turn'.Distinct
  advances : turn.id = n.turnId → turn.Distinct → n.Sound (turn.canonical n.itemId) →
    n.Advances (turn.canonical n.itemId) (turn'.canonical n.itemId)

theorem Follows.trans {a b c : Turn N} (h : n.Follows a b) (h' : n.Follows b c) : n.Follows a c where
  id := h'.id.trans h.id
  distinct := fun hdistinct => h'.distinct (h.distinct hdistinct)
  advances := by
    intro hid hdistinct hsound
    have hab := h.advances hid hdistinct hsound
    exact hab.trans (h'.advances (h.id.trans hid) (h.distinct hdistinct) hab.sound)

theorem Follows.of_eq (hid : turn'.id = turn.id) (hdistinct : turn.Distinct → turn'.Distinct)
    (h : turn.id = n.turnId → turn'.canonical n.itemId = turn.canonical n.itemId) : n.Follows turn turn' :=
  ⟨hid, hdistinct, fun hturn _ hsound => (Advances.refl hsound).of_eq (h hturn)⟩

theorem Follows.of_same (h : turn.SameItems turn') : n.Follows turn turn' :=
  .of_eq h.1 h.distinct fun _ => h.canonical n.itemId

theorem Follows.foldl {α : Type} {f : Turn N → α → Turn N} {l : List α} (turnId : String)
    (h : ∀ turn, turn.id = turnId → ∀ a ∈ l, n.Follows turn (f turn a)) (turn : Turn N) (hid : turn.id = turnId) :
    n.Follows turn (l.foldl f turn) := by
  induction l generalizing turn with
  | nil => exact .of_same (.refl turn)
  | cons a l ih =>
    have hstep := h turn hid a (by simp)
    exact hstep.trans (ih (fun t ht b hb => h t ht b (by simp [hb])) (f turn a) (hstep.id.trans hid))

theorem follows_applyItem_ne [DecidableEq N] (turn : Turn N) {itemId : String} {kind : IdentityKind} (next : Candidate N) (initial : Bool)
    (h : turn.id = n.turnId → (kind, itemId) ≠ (IdentityKind.canonical, n.itemId)) : n.Follows turn (applyItem turn itemId kind next initial) :=
  .of_eq (applyItem_id turn itemId kind next initial) (fun hdistinct => distinct_applyItem hdistinct itemId kind next initial)
    fun hid => canonical_applyItem_ne turn next initial (h hid)

theorem follows_applyItem [DecidableEq N] (turn : Turn N) {next : Candidate N} {d : Nat} {initial : Bool} (hnext : n.Holds next d)
    (hinitial : initial = true → d = n.startSequence) : n.Follows turn (applyItem turn n.itemId .canonical next initial) :=
  ⟨applyItem_id turn n.itemId .canonical next initial, fun hdistinct => distinct_applyItem hdistinct n.itemId .canonical next initial,
    fun _ _ hsound => Advances.applyItem hsound hnext hinitial⟩

/-! ## Turns -/

def Distinct (turns : List (Turn N)) : Prop := (turns.map Turn.id).Nodup ∧ ∀ turn ∈ turns, turn.Distinct

def itemIn (n : NativeItem N) (turns : List (Turn N)) : Option (Item N) :=
  (turns.find? fun t => t.id = n.turnId).bind fun turn => turn.canonical n.itemId

structure Moves (n : NativeItem N) (turns turns' : List (Turn N)) : Prop where
  distinct : Distinct turns'
  advances : n.Advances (n.itemIn turns) (n.itemIn turns')

theorem Moves.refl (hdistinct : Distinct turns) (h : n.Sound (n.itemIn turns)) : n.Moves turns turns :=
  ⟨hdistinct, .refl h⟩

theorem Moves.trans {a b c : List (Turn N)} (h : n.Moves a b) (h' : n.Moves b c) : n.Moves a c :=
  ⟨h'.distinct, h.advances.trans h'.advances⟩

omit [JsNumber N] in
theorem canonical_of_items_nil (h : turn.items = []) (itemId : String) : turn.canonical itemId = none := by
  unfold Turn.canonical
  rw [h]
  rfl

omit [JsNumber N] in
theorem find?_ensureTurn (turns : List (Turn N)) (turnId : String) (origin : Origin) : ∃ turn,
    (ensureTurn turns turnId origin).find? (fun t => t.id = turnId) = some turn ∧ turn.id = turnId ∧
      (ensureTurn turns turnId origin = turns ∨
        (turns.find? fun t => t.id = turnId) = none ∧ turn.items = [] ∧ ensureTurn turns turnId origin = turns ++ [turn]) := by
  unfold ensureTurn
  by_cases hany : (turns.any fun t => t.id = turnId) = true
  · rw [if_pos hany]
    obtain ⟨t, ht, hid⟩ := List.any_eq_true.mp hany
    have hmem : turnId ∈ turns.map Turn.id := by
      rw [← of_decide_eq_true hid]
      exact List.mem_map_of_mem ht
    obtain ⟨turn, hturn⟩ := find?_isSome_of_mem hmem
    exact ⟨turn, hturn, by simpa using find?_some hturn, .inl rfl⟩
  · rw [if_neg hany]
    have hnone : (turns.find? fun t => t.id = turnId) = none := by
      rw [find?_eq_none]
      intro t ht hid
      exact hany (List.any_eq_true.mpr ⟨t, ht, hid⟩)
    refine ⟨_, find?_key_append_cons turnId _ turns [] (fun t ht hid => ?_) rfl, rfl, .inr ⟨hnone, rfl, rfl⟩⟩
    exact hany (List.any_eq_true.mpr ⟨t, ht, decide_eq_true hid⟩)

omit [JsNumber N] in
theorem distinct_ensureTurn (h : Distinct turns) (turnId : String) (origin : Origin) :
    Distinct (ensureTurn turns turnId origin) := by
  obtain ⟨turn, -, hid, heq | ⟨hnone, hitems, heq⟩⟩ := find?_ensureTurn turns turnId origin
  · rw [heq]
    exact h
  · rw [heq]
    constructor
    · rw [map_append, nodup_append]
      refine ⟨h.1, by simp, ?_⟩
      intro k hk k' hk' hkk
      obtain ⟨t, ht, rfl⟩ := List.mem_map.mp hk
      have hk' : k' = turnId := by simpa [hid] using hk'
      exact absurd (hkk.trans hk') (by simpa using find?_eq_none.mp hnone t ht)
    · intro t ht
      rcases mem_append.mp ht with ht | ht
      · exact h.2 t ht
      · obtain rfl : t = turn := by simpa using ht
        unfold Turn.Distinct
        rw [hitems]
        exact nodup_nil

omit [JsNumber N] in
theorem itemIn_ensureTurn (turns : List (Turn N)) (turnId : String) (origin : Origin) :
    n.itemIn (ensureTurn turns turnId origin) = n.itemIn turns := by
  obtain ⟨turn, -, hid, heq | ⟨hnone, hitems, heq⟩⟩ := find?_ensureTurn turns turnId origin
  · rw [heq]
  · rw [heq]
    unfold itemIn
    rw [find?_append]
    by_cases hturn : turnId = n.turnId
    · subst hturn
      rw [hnone]
      simp [hid, canonical_of_items_nil hitems]
    · have hother : ([turn].find? fun t => t.id = n.turnId) = none := by simp [hid, hturn]
      rw [hother, or_none]

theorem moves_ensureTurn (hdistinct : Distinct turns) (h : n.Sound (n.itemIn turns)) (turnId : String)
    (origin : Origin) : n.Moves turns (ensureTurn turns turnId origin) :=
  ⟨distinct_ensureTurn hdistinct turnId origin, (Advances.refl h).of_eq (itemIn_ensureTurn turns turnId origin)⟩

theorem sound_found (h : n.Sound (n.itemIn turns))
    (hfound : (turns.find? fun t => t.id = n.turnId) = some turn) : n.Sound (turn.canonical n.itemId) := by
  unfold itemIn at h
  rwa [hfound] at h

theorem moves_put {turnId : String} (hdistinct : Distinct turns)
    (h : n.Sound (n.itemIn turns)) (hfound : (turns.find? fun t => t.id = turnId) = some turn) (hfollows : n.Follows turn turn') :
    n.Moves turns (putKey Turn.id turn' turns) := by
  have hturn : turn.id = turnId := by simpa using find?_some hfound
  have hmem := mem_of_find?_eq_some hfound
  have hid : turn'.id = turnId := hfollows.id.trans hturn
  subst hid
  constructor
  · refine ⟨by rw [map_key_put]; exact hdistinct.1, ?_⟩
    intro t ht
    obtain rfl | ht := mem_put hfound ht
    · exact hfollows.distinct (hdistinct.2 turn hmem)
    · exact hdistinct.2 t ht
  · by_cases hnamed : turn'.id = n.turnId
    · rw [hnamed] at hfound hturn
      have hadvances := hfollows.advances hturn (hdistinct.2 turn hmem) (sound_found h hfound)
      have hkey : turn'.id ∈ turns.map Turn.id := by
        rw [hnamed, ← hturn]
        exact List.mem_map_of_mem hmem
      have hput := find?_put_self turn' turns hkey
      rw [hnamed] at hput
      unfold itemIn
      rw [hput, hfound]
      exact hadvances
    · unfold itemIn at h ⊢
      rw [find?_put_of_ne turn' turns hnamed]
      exact .refl h

theorem moves_onTurn {turnId : String} {origin : Origin} {f : Turn N → Turn N} (hdistinct : Distinct turns)
    (h : n.Sound (n.itemIn turns)) (hfollows : ∀ turn, turn.id = turnId → n.Follows turn (f turn)) :
    n.Moves turns (onTurn turnId origin f turns) := by
  have hensured := moves_ensureTurn hdistinct h turnId origin
  obtain ⟨turn, hfound, hturn, -⟩ := find?_ensureTurn turns turnId origin
  unfold onTurn
  dsimp only
  rw [hfound]
  exact hensured.trans (moves_put hensured.distinct hensured.advances.sound hfound (hfollows turn hturn))

theorem moves_arrange (hdistinct : Distinct turns) (h : n.Sound (n.itemIn turns)) (old observed : List String) :
    n.Moves turns (arrange Turn.id old observed turns) := by
  have hperm := @arrange_perm (Turn N) String _ Turn.id old observed turns
  refine ⟨⟨(hperm.map Turn.id).nodup_iff.mpr hdistinct.1, fun t ht => hdistinct.2 t (hperm.mem_iff.mp ht)⟩, ?_⟩
  refine (Advances.refl h).of_eq ?_
  unfold itemIn
  rw [find?_perm hdistinct.1 hperm.symm]

end NativeItem

end Cantrip.NativeHistory
