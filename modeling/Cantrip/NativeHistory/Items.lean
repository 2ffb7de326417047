import Cantrip.NativeHistory.Reduce

/-!
# What the reducer leaves alone

What becomes of the item under one key. `applyItem` revises it or puts it there (`canonical_applyItem`); everything
else that is done to a turn keeps its items, and the order in which turns and items stand is not looked at, as the
keys stay distinct.
-/


namespace Cantrip.NativeHistory

open Lib List Option

section Order

variable {α κ : Type} [DecidableEq κ] {key : α → κ}

theorem orderStep_append (r : List α × List α) (observedId : κ) : (orderStep key r observedId).1 ++ (orderStep key r observedId).2 = r.1 ++ r.2 := by
  unfold orderStep
  split
  · rfl
  · rw [append_assoc, take_append_drop]

theorem order_eq (existing : List α) (observed : List κ) : order key existing observed = existing := by
  have hloop : ∀ (observed : List κ) (placed : List α × List α),
      (observed.foldl (orderStep key) placed).1 ++ (observed.foldl (orderStep key) placed).2 = placed.1 ++ placed.2 := by
    intro observed
    induction observed with
    | nil =>
      intro placed
      rfl
    | cons id observed ih =>
      intro placed
      rw [foldl_cons]
      exact (ih _).trans (orderStep_append placed id)
  exact hloop observed ([], existing)

theorem place_perm (observed : List κ) (retained : List α) (entry : α) :
    (place key observed retained entry).Perm (entry :: retained) := by
  unfold place
  dsimp only
  split
  · exact perm_append_comm
  · exact perm_insertIdx entry retained (findIdx_le_length)

theorem places_perm (observed : List κ) (inserted retained : List α) :
    (inserted.foldl (place key observed) retained).Perm (inserted ++ retained) := by
  induction inserted generalizing retained with
  | nil => exact List.Perm.refl _
  | cons entry inserted ih =>
    rw [foldl_cons]
    have hplaced := (@place_perm α κ _ key observed retained entry).append_left inserted
    exact (ih _).trans (hplaced.trans perm_middle)

theorem arrange_perm (old observed : List κ) (entries : List α) : (arrange key old observed entries).Perm entries := by
  unfold arrange
  rw [order_eq]
  refine (places_perm observed _ _).trans ?_
  refine perm_append_comm.trans ?_
  exact filter_append_perm (fun e => old.contains (key e)) entries

end Order

variable {N : Type} [DecidableEq N] [JsNumber N]

/-! ## Items of a turn -/

def Turn.canonical (turn : Turn N) (itemId : String) : Option (Item N) :=
  turn.items.find? fun item => item.key = (.canonical, itemId)

def Turn.Distinct (turn : Turn N) : Prop := (turn.items.map Item.key).Nodup

theorem settle_key (ordering : Option Ordering) (previous : Item N) (next : Candidate N) :
    (settle ordering previous next).key = previous.key := by
  unfold settle
  split
  · rfl
  · rfl
  · split <;> rfl

omit [DecidableEq N] [JsNumber N] in
@[simp] theorem timed_key (item : Item N) (next : Candidate N) : (item.timed next).key = item.key := by
  unfold Item.timed
  dsimp only
  split <;> rfl

omit [JsNumber N] in
@[simp] theorem revised_key (previous item : Item N) : (previous.revised item).key = item.key := by
  unfold Item.revised
  split <;> rfl

theorem revise_key (previous : Item N) (candidate : Candidate N) (initial : Bool) :
    (previous.revise candidate initial).key = previous.key := by
  unfold Item.revise
  rw [revised_key, timed_key]
  split
  · exact settle_key _ previous _
  · rfl

def newItem (turn : Turn N) (itemId : String) (identityKind : IdentityKind) (next : Candidate N) : Item N :=
  { next with id := itemId, identityKind, revision := 1, ordinal := turn.items.length, conflicts := [] }

theorem applyItem_items (turn : Turn N) (itemId : String) (kind : IdentityKind) (next : Candidate N) (initial : Bool) :
    (applyItem turn itemId kind next initial).items =
      (turn.items.find? fun item => item.key = (kind, itemId)).elim (turn.items ++ [newItem turn itemId kind next])
        fun previous => putKey Item.key (previous.revise next initial) turn.items := by
  unfold applyItem
  split
  · rename_i hnone
    rw [hnone]
    rfl
  · rename_i previous hprevious
    rw [hprevious]
    rfl

@[simp] theorem applyItem_id (turn : Turn N) (itemId : String) (kind : IdentityKind) (next : Candidate N) (initial : Bool) :
    (applyItem turn itemId kind next initial).id = turn.id := by
  unfold applyItem
  split <;> rfl

theorem canonical_applyItem (turn : Turn N) (itemId : String) (next : Candidate N) (initial : Bool) :
    (applyItem turn itemId .canonical next initial).canonical itemId =
      some ((turn.canonical itemId).elim (newItem turn itemId .canonical next) fun previous => previous.revise next initial) := by
  unfold Turn.canonical
  rw [applyItem_items]
  obtain hnone | ⟨previous, hprevious⟩ :=
    eq_none_or_eq_some (turn.items.find? fun item => item.key = (.canonical, itemId))
  · rw [hnone]
    refine find?_key_append_cons (IdentityKind.canonical, itemId) _ _ [] (fun x hx => ?_) rfl
    simpa using find?_eq_none.mp hnone x hx
  · rw [hprevious]
    have hkey : previous.key = (.canonical, itemId) := by simpa using find?_some hprevious
    have hrevised : (previous.revise next initial).key = (.canonical, itemId) := (revise_key previous next initial).trans hkey
    show (putKey Item.key (previous.revise next initial) turn.items).find? _ = some (previous.revise next initial)
    rw [← hrevised]
    refine find?_put_self _ _ ?_
    rw [hrevised, ← hkey]
    exact mem_map_of_mem (mem_of_find?_eq_some hprevious)

theorem canonical_applyItem_ne (turn : Turn N) {itemId other : String} {kind : IdentityKind} (next : Candidate N) (initial : Bool)
    (h : (kind, other) ≠ (IdentityKind.canonical, itemId)) :
    (applyItem turn other kind next initial).canonical itemId = turn.canonical itemId := by
  unfold Turn.canonical
  rw [applyItem_items]
  obtain hnone | ⟨previous, hprevious⟩ := eq_none_or_eq_some (turn.items.find? fun item => item.key = (kind, other))
  · rw [hnone]
    show (turn.items ++ [newItem turn other kind next]).find? _ = _
    rw [find?_append]
    have hother : ([newItem turn other kind next].find? fun item => item.key = (IdentityKind.canonical, itemId)) = none := by
      refine find?_eq_none.mpr fun item hmem hkey => h ?_
      rw [mem_singleton.mp hmem] at hkey
      exact of_decide_eq_true hkey
    rw [hother, or_none]
  · rw [hprevious]
    have hkey : previous.key = (kind, other) := by simpa using find?_some hprevious
    refine find?_put_of_ne _ _ ?_
    rw [revise_key, hkey]
    exact h

theorem distinct_applyItem {turn : Turn N} (h : turn.Distinct) (itemId : String) (kind : IdentityKind) (next : Candidate N)
    (initial : Bool) : (applyItem turn itemId kind next initial).Distinct := by
  unfold Turn.Distinct at h ⊢
  rw [applyItem_items]
  obtain hnone | ⟨previous, hprevious⟩ := eq_none_or_eq_some (turn.items.find? fun item => item.key = (kind, itemId))
  · rw [hnone]
    show ((turn.items ++ [newItem turn itemId kind next]).map Item.key).Nodup
    rw [map_append, nodup_append]
    refine ⟨h, by simp, ?_⟩
    intro k hk k' hk' heq
    have hnew : k' = (kind, itemId) := by simpa [newItem, Item.key] using hk'
    obtain ⟨item, hitem, rfl⟩ := mem_map.mp hk
    exact absurd (heq.trans hnew) (by simpa using find?_eq_none.mp hnone item hitem)
  · rw [hprevious]
    show ((putKey Item.key (previous.revise next initial) turn.items).map Item.key).Nodup
    rw [map_key_put]
    exact h

/-! ## Changes to a turn that keep its items -/

def Turn.SameItems (turn turn' : Turn N) : Prop := turn'.id = turn.id ∧ turn'.items = turn.items

omit [DecidableEq N] [JsNumber N] in
theorem Turn.SameItems.trans {a b c : Turn N} (h : a.SameItems b) (h' : b.SameItems c) : a.SameItems c :=
  ⟨h'.1.trans h.1, h'.2.trans h.2⟩

omit [DecidableEq N] [JsNumber N] in
theorem Turn.SameItems.refl (turn : Turn N) : turn.SameItems turn := ⟨rfl, rfl⟩

omit [DecidableEq N] [JsNumber N] in
theorem Turn.SameItems.canonical {turn turn' : Turn N} (h : turn.SameItems turn') (itemId : String) :
    turn'.canonical itemId = turn.canonical itemId := by
  unfold Turn.canonical
  rw [h.2]

omit [DecidableEq N] [JsNumber N] in
theorem Turn.SameItems.distinct {turn turn' : Turn N} (h : turn.SameItems turn') (hdistinct : turn.Distinct) : turn'.Distinct := by
  unfold Turn.Distinct
  rw [h.2]
  exact hdistinct

omit [JsNumber N] in
theorem sameItems_noteConflict (turn : Turn N) (conflict : Fields N) : turn.SameItems (turn.noteConflict conflict) := by
  unfold Turn.noteConflict
  split
  · exact .refl turn
  · exact ⟨rfl, rfl⟩

omit [DecidableEq N] [JsNumber N] in
theorem sameItems_dropSettings (turn : Turn N) : turn.SameItems turn.dropSettings := by
  unfold Turn.dropSettings
  split
  · exact ⟨rfl, rfl⟩
  · exact .refl turn

theorem sameItems_retainInitialSettings (turn : Turn N) (input : Option (Json N)) :
    turn.SameItems (retainInitialSettings turn input) := by
  unfold retainInitialSettings
  split
  · exact .refl turn
  · rename_i next _
    dsimp only
    split
    · refine Turn.SameItems.trans ?_ (sameItems_dropSettings _)
      generalize [turn.metadatum "initialSettings", some next].filter truthy = values
      have hnotes : ∀ turn : Turn N, turn.SameItems (values.foldl
          (fun turn value => value.elim turn fun v => turn.noteConflict [("initialSettings", v)]) turn) := by
        induction values with
        | nil => exact .refl
        | cons value values ih =>
          intro turn
          rw [foldl_cons]
          refine Turn.SameItems.trans ?_ (ih _)
          cases value with
          | none => exact .refl turn
          | some v => exact sameItems_noteConflict turn _
      exact hnotes turn
    · split
      · exact ⟨rfl, rfl⟩
      · exact .refl turn

omit [JsNumber N] in
theorem sameItems_revised (before turn : Turn N) : turn.SameItems (before.revised turn) := by
  unfold Turn.revised
  split
  · exact .refl turn
  · exact ⟨rfl, rfl⟩

theorem sameItems_applyTurn (turn : Turn N) (raw : Fields N) (origin : Origin) (completion : Bool) :
    turn.SameItems (applyTurn turn raw origin completion) := by
  unfold applyTurn
  split
  · exact .refl turn
  · refine Turn.SameItems.trans ?_ (sameItems_revised _ _)
    split <;> exact ⟨rfl, rfl⟩

omit [DecidableEq N] in
theorem sameItems_noteSettingsConflict (turn : Turn N) : turn.SameItems turn.noteSettingsConflict := by
  unfold Turn.noteSettingsConflict
  dsimp only
  split <;> split <;> exact ⟨rfl, rfl⟩

theorem sameItems_retainMetadata (turn : Turn N) (metadata : TurnMetadata N) (origin : Origin) :
    turn.SameItems (retainMetadata turn metadata origin) := by
  unfold retainMetadata
  split
  · exact .refl turn
  · split
    · exact .refl turn
    · exact ⟨rfl, rfl⟩

theorem sameItems_retainAttribution (threadId : String) (turn : Turn N) (input : Option (Json N)) :
    turn.SameItems (retainAttribution threadId turn input) := by
  unfold retainAttribution
  split
  · exact .refl turn
  · dsimp only
    split
    · split
      · exact ⟨rfl, rfl⟩
      · split
        · exact .refl turn
        · exact sameItems_noteConflict turn _
    · exact .refl turn

end Cantrip.NativeHistory
