import Cantrip.Lib.History
import Cantrip.NativeHistory.Frames
import Mathlib.Data.List.Induction
import Mathlib.Data.Nat.Cast.Order.Ring

/-!
# Streamed text is exact

Records come in pages. A `Moment` is in the middle of a page; the state there is reached through the pages before it
and the records so far. Whatever the records are that tell of a native item, its text in the state is the native text
at its cursor, the cursor never falls, and an update that does not follow it is kept as evidence.
-/


namespace Cantrip.NativeHistory

open Lib List Option Except

variable {N : Type}

/-! ## Moments -/

def deliver [DecidableEq N] [JsNumber N] (threadId : String) (pages : List (List (Record N))) :
    Except Failure (Option (State N)) :=
  pages.foldlM (fun previous page => (reduceNativeHistory previous page threadId).map some) none

structure Moment (N : Type) where
  pages : List (List (Record N))
  records : List (Record N)

namespace Moment

def log (m : Moment N) : List (Record N) := m.pages.flatten ++ m.records

def state [DecidableEq N] [JsNumber N] (threadId : String) (m : Moment N) : Except Failure (State N) :=
  (deliver threadId m.pages).bind fun previous =>
    (openState previous threadId).bind fun state => m.records.foldlM (reduceRecord threadId) state

def add (m : Moment N) (record : Record N) : Moment N := { m with records := m.records ++ [record] }

def finish (m : Moment N) : Moment N := ⟨m.pages ++ [m.records], []⟩

inductive Later (m : Moment N) : Moment N → Prop
  | refl : Later m m
  | add {m' : Moment N} (record : Record N) (h : Later m m') : Later m (m'.add record)
  | finish {m' : Moment N} (h : Later m m') : Later m m'.finish

@[simp] theorem log_add (m : Moment N) (record : Record N) : (m.add record).log = m.log ++ [record] :=
  (append_assoc _ _ _).symm

@[simp] theorem log_finish (m : Moment N) : m.finish.log = m.log := by
  simp [log, finish]

theorem Later.trans {a b c : Moment N} (h : a.Later b) (h' : b.Later c) : a.Later c := by
  induction h' with
  | refl => exact h
  | add record _ ih => exact .add record ih
  | finish _ ih => exact .finish ih

theorem Later.log {a b : Moment N} (h : a.Later b) : a.log <+: b.log := by
  induction h with
  | refl => exact prefix_rfl
  | add record _ ih =>
    rw [log_add]
    exact ih.trans (prefix_append _ _)
  | finish _ ih =>
    rw [log_finish]
    exact ih

theorem later_start (m : Moment N) : Later ⟨[], []⟩ m := by
  obtain ⟨pages, records⟩ := m
  have hpages : Later ⟨[], []⟩ (⟨pages, []⟩ : Moment N) := by
    induction pages using reverseRecOn with
    | nil => exact .refl
    | append_singleton pages page ih =>
      have hpage : Later ⟨[], []⟩ (⟨pages, page⟩ : Moment N) := by
        induction page using reverseRecOn with
        | nil => exact ih
        | append_singleton page record ih => exact .add record ih
      exact .finish hpage
  induction records using reverseRecOn with
  | nil => exact hpages
  | append_singleton records record ih => exact .add record ih

theorem exists_of_mem {m : Moment N} {record : Record N} (h : record ∈ m.log) : ∃ m₁ : Moment N, (m₁.add record).Later m := by
  have hm := later_start m
  induction hm with
  | refl => cases h
  | @add m' last _ ih =>
    rw [log_add] at h
    rcases mem_append.mp h with h | h
    · obtain ⟨m₁, hm₁⟩ := ih h
      exact ⟨m₁, .add last hm₁⟩
    · obtain rfl : record = last := by simpa using h
      exact ⟨m', .refl⟩
  | finish _ ih =>
    rw [log_finish] at h
    obtain ⟨m₁, hm₁⟩ := ih h
    exact ⟨m₁, .finish hm₁⟩

variable [DecidableEq N] [JsNumber N]

theorem state_add (threadId : String) (m : Moment N) (record : Record N) :
    (m.add record).state threadId = (m.state threadId).bind fun s => reduceRecord threadId s record := by
  unfold state add
  dsimp only
  cases deliver threadId m.pages with
  | error e => rfl
  | ok previous =>
    show (openState previous threadId).bind _ = ((openState previous threadId).bind _).bind _
    cases openState previous threadId with
    | error e => rfl
    | ok s =>
      show (m.records ++ [record]).foldlM (reduceRecord threadId) s = (m.records.foldlM (reduceRecord threadId) s).bind _
      rw [foldlM_append]
      show (m.records.foldlM (reduceRecord threadId) s).bind _ = _
      congr 1
      funext s
      show (reduceRecord threadId s record).bind _ = _
      cases reduceRecord threadId s record <;> rfl

theorem state_finish (threadId : String) (m : Moment N) :
    m.finish.state threadId =
      (m.state threadId).bind fun s => (parseState s.number).bind fun s => openState (some s) threadId := by
  unfold state finish deliver
  dsimp only
  rw [foldlM_append]
  show (Except.bind (deliver threadId m.pages) _).bind _ = (Except.bind (deliver threadId m.pages) _).bind _
  cases deliver threadId m.pages with
  | error e => rfl
  | ok previous =>
    show (Except.bind (Except.map some ((openState previous threadId).bind _)) _).bind _ = ((openState previous threadId).bind _).bind _
    cases openState previous threadId with
    | error e => rfl
    | ok s =>
      show (Except.bind (Except.map some ((m.records.foldlM (reduceRecord threadId) s).bind _)) _).bind _ =
        (m.records.foldlM (reduceRecord threadId) s).bind _
      cases m.records.foldlM (reduceRecord threadId) s with
      | error e => rfl
      | ok s =>
        show (Except.bind (Except.map some (parseState s.number)) _).bind _ = (parseState s.number).bind _
        cases parseState s.number with
        | error e => rfl
        | ok s =>
          show (openState (some s) threadId).bind _ = openState (some s) threadId
          cases openState (some s) threadId <;> rfl

end Moment

/-! ## The end of a page -/

theorem item_number_key (item : Item N) (ordinal : Nat) : (item.number ordinal).key = item.key := by
  unfold Item.number
  split <;> rfl

theorem turn_number_id (turn : Turn N) (ordinal : Nat) : (turn.number ordinal).id = turn.id := by
  unfold Turn.number
  dsimp only
  split <;> rfl

theorem turn_number_items (turn : Turn N) (ordinal : Nat) :
    (turn.number ordinal).items = turn.items.mapIdx fun ordinal item => item.number ordinal := by
  unfold Turn.number
  dsimp only
  split <;> rfl

theorem parseState_ok {s s' : State N} (h : parseState s = .ok s') : s' = s := by
  unfold parseState at h
  split at h
  · exact (ok.inj h).symm
  · cases h

theorem openState_ok {previous : Option (State N)} {threadId : String} {s : State N} (h : openState previous threadId = .ok s) :
    s = previous.getD { threadId, turns := [], evidence := [], notifications := [] } := by
  unfold openState at h
  cases hparse : parseState (previous.getD { threadId, turns := [], evidence := [], notifications := [] }) with
  | error e =>
    rw [hparse] at h
    cases h
  | ok s' =>
    rw [hparse] at h
    obtain rfl := parseState_ok hparse
    change (if _ then _ else _) = _ at h
    split at h
    · cases h
    · exact (ok.inj h).symm

variable [DecidableEq N] [JsNumber N]

theorem ok_bind {ε α β : Type} {x : Except ε α} {f : α → Except ε β} {b : β} (h : x.bind f = .ok b) : ∃ a, x = .ok a ∧ f a = .ok b := by
  cases x with
  | error e => cases h
  | ok a => exact ⟨a, rfl, h⟩

namespace NativeItem

variable {n : NativeItem N}

omit [DecidableEq N] in
theorem Holds.number {item : Item N} {c : Nat} (h : n.Holds item.toCandidate c) (ordinal : Nat) :
    n.Holds (item.number ordinal).toCandidate c := by
  unfold Item.number
  split
  · exact h.congr rfl rfl rfl rfl
  · exact h

omit [DecidableEq N] in
theorem follows_number (turn : Turn N) (ordinal : Nat) : n.Follows turn (turn.number ordinal) := by
  refine ⟨turn_number_id turn ordinal, fun hdistinct => ?_, fun _ _ hsound => ?_⟩
  · unfold Turn.Distinct
    rw [turn_number_items, map_key_mapIdx turn.items fun i x => item_number_key x i]
    exact hdistinct
  · unfold Turn.canonical at hsound ⊢
    rw [turn_number_items]
    obtain ⟨hnone, hnone'⟩ | ⟨i, item, hitem, hitem'⟩ :=
      @find?_mapIdx _ _ _ Item.key (IdentityKind.canonical, n.itemId) (fun ordinal item => item.number ordinal) turn.items
        fun i x => item_number_key x i
    · rw [hnone] at hsound ⊢
      rw [hnone']
      exact .refl hsound
    · obtain ⟨c, hc⟩ := hsound item hitem
      rw [hitem, hitem']
      refine ⟨fun x hx => ?_, ?_⟩
      · obtain rfl := some.inj hx
        exact ⟨c, hc.number i⟩
      · rw [hc.progress, (hc.number i).progress]

omit [DecidableEq N] in
theorem moves_number {state : State N} (hdistinct : Distinct state.turns) (h : n.Sound (n.itemIn state.turns)) :
    n.Moves state.turns state.number.turns := by
  have hfollows := fun (turn : Turn N) (i : Nat) => @follows_number N _ n turn i
  constructor
  · constructor
    · show ((state.turns.mapIdx _).map Turn.id).Nodup
      rw [map_key_mapIdx state.turns fun i x => turn_number_id x i]
      exact hdistinct.1
    · intro turn hturn
      obtain ⟨i, hi, rfl⟩ := mem_mapIdx.mp hturn
      exact (hfollows _ i).distinct (hdistinct.2 _ (getElem_mem hi))
  · unfold itemIn at h ⊢
    show n.Advances _ (((state.turns.mapIdx fun ordinal turn => turn.number ordinal).find? _).bind _)
    obtain ⟨hnone, hnone'⟩ | ⟨i, turn, hturn, hturn'⟩ :=
      @find?_mapIdx _ _ _ Turn.id n.turnId (fun ordinal turn => turn.number ordinal) state.turns fun i x => turn_number_id x i
    · rw [hnone] at h ⊢
      rw [hnone']
      exact .refl h
    · rw [hturn] at h ⊢
      rw [hturn']
      exact (hfollows turn i).advances (by simpa using find?_some hturn)
        (hdistinct.2 turn (mem_of_find?_eq_some hturn)) h

end NativeItem

/-! ## What is kept of the frames -/

variable {log : List (Record N)} {frame : Notification N} {state : State N}

theorem evidence_record {threadId : String} {state' : State N} {record : Record N}
    (h : reduceRecord threadId state record = .ok state') : state.evidence <+: state'.evidence := by
  unfold reduceRecord at h
  split at h
  · cases h
  · split at h
    · cases h
      unfold reduceObservation
      split
      · exact prefix_rfl
      · exact prefix_append _ _
    · cases h
      unfold reduceNotification
      split
      · exact prefix_rfl
      · dsimp only
        split
        · exact prefix_append _ _
        · split
          · exact prefix_rfl
          · exact prefix_append _ _

def Bounded (log : List (Record N)) (boundaries : List Boundary) : Prop :=
  ∀ b ∈ boundaries, ∃ record ∈ log, ∃ frame, record.frame = .notification frame ∧ frame.generation = b.generation ∧ frame.sequence = b.sequence

omit [DecidableEq N] [JsNumber N] in
theorem Bounded.mono {log' : List (Record N)} {boundaries : List Boundary} (h : Bounded log boundaries)
    (hlog : ∀ record ∈ log, record ∈ log') : Bounded log' boundaries := by
  intro b hb
  obtain ⟨record, hrecord, hframe⟩ := h b hb
  exact ⟨record, hlog record hrecord, hframe⟩

omit [DecidableEq N] [JsNumber N] in
theorem mem_advanceBoundary {boundaries : List Boundary} {b : Boundary}
    (h : b ∈ advanceBoundary boundaries frame) : b = ⟨frame.generation, frame.sequence⟩ ∨ b ∈ boundaries := by
  unfold advanceBoundary at h
  dsimp only at h
  split at h
  · rename_i hany
    obtain ⟨old, hold, hgeneration⟩ := List.any_eq_true.mp hany
    have hmem : frame.generation ∈ boundaries.map Boundary.generation := by
      rw [← of_decide_eq_true hgeneration]
      exact List.mem_map_of_mem hold
    obtain ⟨found, hfound⟩ := find?_isSome_of_mem hmem
    exact mem_put hfound h
  · rcases mem_append.mp h with h | h
    · exact .inr h
    · exact .inl (by simpa using h)

theorem notifications_record {threadId : String} {state' : State N} {record : Record N}
    (hbounded : Bounded log state.notifications) (h : reduceRecord threadId state record = .ok state') :
    Bounded (log ++ [record]) state'.notifications := by
  have hbefore : Bounded (log ++ [record]) state.notifications := hbounded.mono fun r hr => mem_append_left _ hr
  unfold reduceRecord at h
  split at h
  · cases h
  · split at h
    · cases h
      unfold reduceObservation
      split <;> exact hbefore
    · rename_i frame hframe
      cases h
      have hadvanced : Bounded (log ++ [record]) (advanceBoundary state.notifications frame) := by
        intro b hb
        obtain rfl | hb := mem_advanceBoundary hb
        · exact ⟨record, by simp, frame, hframe, rfl, rfl⟩
        · exact hbefore b hb
      unfold reduceNotification
      split
      · exact hbefore
      · dsimp only
        split
        · exact hadvanced
        · split <;> exact hadvanced

def Increasing (log : List (Record N)) : Prop :=
  Each (fun before record => ∀ frame, record.frame = .notification frame → (∃ r ∈ before, r.frame = record.frame) ∨
    ∀ r ∈ before, ∀ f, r.frame = .notification f → f.generation = frame.generation → f.sequence < frame.sequence) log

/-- The raw notification is there for reconciliation. -/
def Retained (state : State N) (frame : Notification N) : Prop :=
  ∃ entry ∈ state.evidence, entry.method = frame.method ∧ entry.params = frame.params

omit [DecidableEq N] [JsNumber N] in
theorem Retained.mono {s s' : State N} (h : Retained s frame) (hevidence : s.evidence <+: s'.evidence) :
    Retained s' frame := by
  obtain ⟨entry, hentry, hframe⟩ := h
  exact ⟨entry, hevidence.subset hentry, hframe⟩

omit [DecidableEq N] [JsNumber N] in
theorem passed_of_fresh (hbounded : Bounded log state.notifications)
    (hfresh : ∀ r ∈ log, ∀ f, r.frame = .notification f → f.generation = frame.generation → f.sequence < frame.sequence) :
    state.passed frame = false := by
  unfold State.passed
  obtain hnone | ⟨b, hb⟩ := eq_none_or_eq_some (state.notifications.find? fun b => b.generation = frame.generation)
  · rw [hnone]
    rfl
  · obtain ⟨r, hr, f, hf, hgeneration, hsequence⟩ := hbounded b (mem_of_find?_eq_some hb)
    have hsame : b.generation = frame.generation := by simpa using find?_some hb
    have hlt := hfresh r hr f hf (hgeneration.trans hsame)
    rw [hb]
    exact decide_eq_false (by omega)

namespace NativeItem

variable {n : NativeItem N}

variable {link : Link Change} {m m' : Moment N} {frame : Notification N} {record : Record N} {s s' : State N}
  {threadId : String}

theorem missing_record
    (hsound : n.Sound (n.itemIn s.turns)) (hframe : record.frame = .notification frame) (htold : n.TellsUpdate link frame)
    (hpassed : s.passed frame = false) (hmissing : progress (n.itemIn s.turns) < (link.previous : WithBot ℕ))
    (h : reduceRecord threadId s record = .ok s') : n.itemIn s'.turns = n.itemIn s.turns ∧ Retained s' frame := by
  unfold reduceRecord at h
  split at h
  · cases h
  · rw [hframe] at h
    obtain rfl := (ok.inj h).symm
    unfold reduceNotification
    rw [if_neg (by simp [hpassed]), htold.turn]
    dsimp only
    obtain ⟨turn, hfound, hturn, -⟩ := find?_ensureTurn s.turns n.turnId frame.origin
    have hensured : n.itemIn (ensureTurn s.turns n.turnId frame.origin) = turn.canonical n.itemId := by
      unfold itemIn
      rw [hfound, bind_some]
    rw [← itemIn_ensureTurn s.turns n.turnId frame.origin, hensured] at hsound hmissing
    rw [hfound, bind_some, notify_told htold, delta_missing htold hsound hmissing]
    exact ⟨itemIn_ensureTurn s.turns n.turnId frame.origin, _, mem_append_right _ (mem_singleton_self _), rfl, rfl⟩

theorem updated_record (hsound : n.Sound (n.itemIn s.turns)) (hframe : record.frame = .notification frame)
    (htold : n.TellsUpdate link frame) (h : reduceRecord threadId s record = .ok s') :
    n.itemIn s'.turns = n.itemIn s.turns ∨
      progress (n.itemIn s.turns) = (link.previous : WithBot ℕ) ∧ progress (n.itemIn s'.turns) = (link.sequence : WithBot ℕ) := by
  unfold reduceRecord at h
  split at h
  · cases h
  · rw [hframe] at h
    obtain rfl := (ok.inj h).symm
    unfold reduceNotification
    split
    · exact .inl rfl
    · rw [htold.turn]
      dsimp only
      obtain ⟨turn, hfound, hturn, -⟩ := find?_ensureTurn s.turns n.turnId frame.origin
      have hensured : n.itemIn (ensureTurn s.turns n.turnId frame.origin) = turn.canonical n.itemId := by
        unfold itemIn
        rw [hfound, bind_some]
      rw [← itemIn_ensureTurn s.turns n.turnId frame.origin, hensured] at hsound ⊢
      rw [hfound, bind_some, notify_told htold]
      split
      · rename_i turn' hdelta
        have hid : turn'.id = n.turnId := by
          obtain rfl | ⟨_, _, -, -, rfl⟩ := delta_id hdelta
          · exact hturn
          · exact (applyItem_id ..).trans hturn
        have hput : n.itemIn (putKey Turn.id turn' (ensureTurn s.turns n.turnId frame.origin)) = turn'.canonical n.itemId := by
          have hkey : turn'.id ∈ (ensureTurn s.turns n.turnId frame.origin).map Turn.id := by
            rw [hid.trans hturn.symm]
            exact List.mem_map_of_mem (mem_of_find?_eq_some hfound)
          have hself := find?_put_self turn' _ hkey
          unfold itemIn
          rw [hid] at hself
          rw [hself, bind_some]
        show n.itemIn (putKey Turn.id turn' _) = _ ∨ _ ∧ progress (n.itemIn (putKey Turn.id turn' _)) = _
        rw [hput]
        obtain rfl | ⟨hprogress, item, hitem, hholds⟩ := delta_told htold hsound hdelta
        · exact .inl rfl
        · rw [hitem]
          exact .inr ⟨hprogress, hholds.progress⟩
      · exact .inl hensured

/-! ## Runs -/

/-- What holds of the state at a moment. -/
structure Kept (n : NativeItem N) (log : List (Record N)) (s : State N) : Prop where
  distinct : Distinct s.turns
  sound : n.Sound (n.itemIn s.turns)
  bounded : Bounded log s.notifications

structure Goes (n : NativeItem N) (s s' : State N) : Prop where
  ahead : progress (n.itemIn s.turns) ≤ progress (n.itemIn s'.turns)
  evidence : s.evidence <+: s'.evidence

theorem kept_record {log : List (Record N)} (h : n.Kept log s)
    (hbuilt : n.Built record.frame) (hstep : reduceRecord threadId s record = .ok s') :
    n.Kept (log ++ [record]) s' ∧ n.Goes s s' := by
  have hmoves := moves_record h.distinct h.sound hbuilt hstep
  exact ⟨⟨hmoves.distinct, hmoves.advances.sound, notifications_record h.bounded hstep⟩, hmoves.advances.ahead, evidence_record hstep⟩

omit [DecidableEq N] in
theorem kept_number {log : List (Record N)} (h : n.Kept log s) : n.Kept log s.number ∧ n.Goes s s.number := by
  have hmoves := moves_number h.distinct h.sound
  exact ⟨⟨hmoves.distinct, hmoves.advances.sound, h.bounded⟩, hmoves.advances.ahead, prefix_rfl⟩

theorem later_kept (h : m.Later m') (hbuilt : ∀ r ∈ m'.log, n.Built r.frame) (hs' : m'.state threadId = .ok s') :
    ∃ s, m.state threadId = .ok s ∧ (n.Kept m.log s → n.Kept m'.log s' ∧ n.Goes s s') := by
  induction h generalizing s' with
  | refl => exact ⟨s', hs', fun hkept => ⟨hkept, le_refl _, prefix_rfl⟩⟩
  | @add m₁ record _ ih =>
    rw [Moment.state_add] at hs'
    obtain ⟨s₁, hs₁, hstep⟩ := ok_bind hs'
    rw [Moment.log_add] at hbuilt ⊢
    obtain ⟨s, hs, hgoes⟩ := ih (fun r hr => hbuilt r (mem_append_left _ hr)) hs₁
    refine ⟨s, hs, fun hkept => ?_⟩
    obtain ⟨hkept₁, hgoes₁⟩ := hgoes hkept
    obtain ⟨hkept', hgoes'⟩ := kept_record hkept₁ (hbuilt record (by simp)) hstep
    exact ⟨hkept', hgoes₁.ahead.trans hgoes'.ahead, hgoes₁.evidence.trans hgoes'.evidence⟩
  | @finish m₁ _ ih =>
    rw [Moment.state_finish] at hs'
    obtain ⟨s₁, hs₁, hend⟩ := ok_bind hs'
    obtain ⟨s₂, hparse, hopen⟩ := ok_bind hend
    obtain rfl := parseState_ok hparse
    obtain rfl := openState_ok hopen
    rw [Moment.log_finish] at hbuilt ⊢
    obtain ⟨s, hs, hgoes⟩ := ih hbuilt hs₁
    refine ⟨s, hs, fun hkept => ?_⟩
    obtain ⟨hkept₁, hgoes₁⟩ := hgoes hkept
    obtain ⟨hkept', hgoes'⟩ := kept_number hkept₁
    exact ⟨hkept', hgoes₁.ahead.trans hgoes'.ahead, hgoes₁.evidence.trans hgoes'.evidence⟩

theorem kept_moment (hbuilt : ∀ r ∈ m.log, n.Built r.frame) (hs : m.state threadId = .ok s) : n.Kept m.log s := by
  obtain ⟨s₀, hs₀, hkept⟩ := later_kept (Moment.later_start m) hbuilt hs
  refine (hkept ?_).1
  change (openState none threadId).bind (fun s => Except.ok s) = .ok s₀ at hs₀
  obtain ⟨s₁, hopen, heq⟩ := ok_bind hs₀
  obtain rfl := (ok.inj heq).symm
  obtain rfl := openState_ok hopen
  exact ⟨⟨nodup_nil, forall_mem_nil _⟩, fun i hi => absurd hi (not_mem_none i), forall_mem_nil _⟩

structure Delivered (n : NativeItem N) (threadId : String) (m : Moment N) (s : State N) : Prop where
  state : m.state threadId = .ok s
  built : ∀ record ∈ m.log, n.Built record.frame
  increasing : Increasing m.log

theorem Delivered.kept (h : n.Delivered threadId m s) : n.Kept m.log s :=
  kept_moment h.built h.state

theorem Delivered.before (hlater : m.Later m') (h : n.Delivered threadId m' s') :
    ∃ s, n.Delivered threadId m s ∧ n.Goes s s' := by
  obtain ⟨s, hs, hgoes⟩ := later_kept hlater h.built h.state
  have hbuilt : ∀ record ∈ m.log, n.Built record.frame := fun record hrecord => h.built record (hlater.log.subset hrecord)
  exact ⟨s, ⟨hs, hbuilt, h.increasing.of_prefix hlater.log⟩, (hgoes (kept_moment hbuilt hs)).2⟩

theorem Delivered.goes (h : n.Delivered threadId m s) (hlater : m.Later m')
    (h' : n.Delivered threadId m' s') : n.Goes s s' := by
  obtain ⟨s₁, h₁, hgoes⟩ := h'.before hlater
  obtain rfl : s = s₁ := ok.inj (h.state.symm.trans h₁.state)
  exact hgoes

theorem Delivered.step (h : n.Delivered threadId m s)
    (h' : n.Delivered threadId (m.add record) s') : reduceRecord threadId s record = .ok s' := by
  have hs' := h'.state
  rw [Moment.state_add, h.state] at hs'
  exact hs'

theorem Delivered.retained (h : n.Delivered threadId m s) (h' : n.Delivered threadId (m.add record) s')
    (hframe : record.frame = .notification frame) (htold : n.TellsUpdate link frame)
    (hmissing : progress (n.itemIn s.turns) < (link.previous : WithBot ℕ)) : Retained s' frame := by
  induction hlength : m.log.length using Nat.strongRecOn generalizing m s s' record with
  | ind length ih =>
    subst hlength
    have hentry := (Each.get h'.increasing (Moment.log_add m record)) frame hframe
    obtain ⟨r, hr, hsame⟩ | hfresh := hentry
    · obtain ⟨m₁, hlater⟩ := Moment.exists_of_mem hr
      obtain ⟨s₁', h₁', -⟩ := h.before hlater
      obtain ⟨s₁, h₁, hgoes⟩ := h₁'.before (.add r .refl)
      have hlt : m₁.log.length < m.log.length := by
        have hle := hlater.log.length_le
        rw [Moment.log_add, length_append, length_singleton] at hle
        omega
      have hbehind := (h₁.goes ((Moment.Later.add r .refl).trans hlater) h).ahead
      have hretained := ih _ hlt h₁ h₁' (hsame.trans hframe) (lt_of_le_of_lt hbehind hmissing) rfl
      exact hretained.mono (h₁'.goes (hlater.trans (.add record .refl)) h').evidence
    · exact (missing_record h.kept.sound hframe htold (passed_of_fresh h.kept.bounded hfresh) hmissing (h.step h')).2

end NativeItem

open NativeItem

/-- The streamed text of the item is the native text at its cursor, the cursor does not fall, and of the updates that
come, one whose predecessor is missing is not applied but kept as evidence, and none is applied twice. -/
theorem streamed_text_exact (threadId : String) (n : NativeItem N) (m : Moment N) (s : State N) (h : n.Delivered threadId m s) :
    (∀ item, n.itemIn s.turns = some item → ∃ cursor, item.origin.nativeCursor = some cursor ∧ cursor.epoch = n.epoch ∧
      n.HasCursor cursor.sequence ∧ streams item.body = n.textAt cursor.sequence) ∧
    (∀ m' s', m.Later m' → n.Delivered threadId m' s' → progress (n.itemIn s.turns) ≤ progress (n.itemIn s'.turns)) ∧
    (∀ record s' frame link, n.Delivered threadId (m.add record) s' → record.frame = .notification frame → n.TellsUpdate link frame →
      (progress (n.itemIn s.turns) < (link.previous : WithBot ℕ) → n.itemIn s'.turns = n.itemIn s.turns ∧
        ∀ m'' s'', (m.add record).Later m'' → n.Delivered threadId m'' s'' → Retained s'' frame) ∧
      (n.itemIn s'.turns ≠ n.itemIn s.turns → ∀ m₂ s₂ record₂ s₂' frame₂, (m.add record).Later m₂ → n.Delivered threadId m₂ s₂ →
        n.Delivered threadId (m₂.add record₂) s₂' → record₂.frame = .notification frame₂ → n.TellsUpdate link frame₂ →
        n.itemIn s₂'.turns = n.itemIn s₂.turns)) := by
  refine ⟨?_, fun m' s' hlater h' => (h.goes hlater h').ahead, ?_⟩
  · intro item hitem
    obtain ⟨c, hc⟩ := h.kept.sound item hitem
    obtain ⟨p, hp⟩ := hc.origin
    exact ⟨_, hp, rfl, hc.known, hc.text⟩
  · intro record s' frame link h' hframe htold
    have hbounds := n.linked.bounds htold.listed
    have hupdated := updated_record h.kept.sound hframe htold (h.step h')
    refine ⟨fun hmissing => ⟨?_, fun m'' s'' hlater h'' => ?_⟩, ?_⟩
    · obtain hsame | ⟨hfollows, -⟩ := hupdated
      · exact hsame
      · rw [hfollows] at hmissing
        exact absurd hmissing (lt_irrefl _)
    · exact (h.retained h' hframe htold hmissing).mono (h'.goes hlater h'').evidence
    · intro happlied m₂ s₂ record₂ s₂' frame₂ hlater h₂ h₂' hframe₂ htold₂
      obtain hsame | ⟨-, hprogress⟩ := hupdated
      · exact absurd hsame happlied
      · have hahead := (h'.goes hlater h₂).ahead
        obtain hsame | ⟨hfollows, -⟩ := updated_record h₂.kept.sound hframe₂ htold₂ (h₂.step h₂')
        · exact hsame
        · rw [hprogress, hfollows] at hahead
          have hle : link.sequence ≤ link.previous := by exact_mod_cast hahead
          omega

/-! ## A sample -/

instance : JsNumber Nat where
  isFinite := fun _ => true
  index := some
  text := toString
  truthy := fun n => n ≠ 0
  same := fun a b => a = b
  lt := fun a b => a < b
  max := fun a b => if a < b then b else a

def sampleBody (text : String) : Fields Nat := [("id", .string "i"), ("type", .string "agentMessage"), ("text", .string text)]

def sampleItem : NativeItem Nat where
  turnId := "t"
  itemId := "i"
  epoch := "e"
  startSequence := 1
  startBody := sampleBody ""
  updates := [⟨1, 2, .text "he"⟩, ⟨2, 3, .text "llo"⟩]
  completion := some (4, sampleBody "hello")
  linked := by decide
  completesLast := by
    intro e he
    obtain rfl := Option.some.inj he
    decide

def sampleUpdate (sequence : Nat) (link : Link Change) (text : String) : Notification Nat :=
  { generation := "g", sequence, threadId := "h", method := "item/agentMessage/delta",
    params := [("turnId", .string "t"), ("itemId", .string "i"), ("delta", .string text)],
    nativeCursor := some ⟨"e", link.sequence, some link.previous⟩ }

/-- The first update comes before the start, and again after it. -/
def sampleMoment : Moment Nat where
  pages := [[⟨"1", .notification (sampleUpdate 1 ⟨1, 2, .text "he"⟩ "he")⟩]]
  records := [⟨"2", .notification
    { generation := "g", sequence := 2, threadId := "h", method := "item/started",
      params := [("turnId", .string "t"), ("item", .object (sampleBody ""))], nativeCursor := some ⟨"e", 1, none⟩ }⟩,
    ⟨"3", .notification (sampleUpdate 3 ⟨1, 2, .text "he"⟩ "he")⟩]

theorem sampleItem_told {sequence : Nat} {link : Link Change} {text : String} (hlink : link ∈ sampleItem.updates)
    (htext : link.update = .text text) : sampleItem.TellsUpdate link (sampleUpdate sequence link text) :=
  ⟨hlink, by rw [htext]; exact ⟨rfl, rfl⟩, rfl, rfl, rfl⟩

theorem sampleMoment_built : ∀ record ∈ sampleMoment.log, sampleItem.Built record.frame := by
  intro record hrecord
  have hrecord' : record ∈ sampleMoment.pages.flatten ++ sampleMoment.records := hrecord
  simp only [sampleMoment, flatten_cons, flatten_nil, append_nil, cons_append, nil_append, mem_cons,
    not_mem_nil, or_false] at hrecord'
  obtain rfl | rfl | rfl := hrecord'
  · exact .updated (sampleItem_told (mem_cons_self ..) rfl)
  · exact .started ⟨rfl, rfl, rfl, none, rfl⟩
  · exact .updated (sampleItem_told (mem_cons_self ..) rfl)

theorem sampleMoment_increasing : Increasing sampleMoment.log := by
  have hlog : sampleMoment.log = [] ++ [⟨"1", _⟩] ++ [⟨"2", _⟩] ++ [⟨"3", _⟩] := rfl
  unfold Increasing
  rw [hlog]
  refine Each.concat (Each.concat (Each.concat Each.nil ?_) ?_) ?_
  all_goals
    intro frame hframe
    right
    intro r hr f hf _
    obtain rfl := Frame.notification.inj hframe
    simp only [nil_append, cons_append, mem_cons, not_mem_nil, or_false] at hr
  · obtain rfl := hr
    obtain rfl := Frame.notification.inj hf
    decide
  · obtain rfl | rfl := hr <;> obtain rfl := Frame.notification.inj hf <;> decide

/-- In the end the item is at the first update. -/
theorem streamed_text_exact_sample : ∃ s, sampleItem.Delivered "h" sampleMoment s ∧
    (sampleItem.itemIn s.turns).map (fun item => (streams item.body).text) = some "he" ∧
    ∀ item, sampleItem.itemIn s.turns = some item → ∃ cursor, item.origin.nativeCursor = some cursor ∧ cursor.epoch = sampleItem.epoch ∧
      sampleItem.HasCursor cursor.sequence ∧ streams item.body = sampleItem.textAt cursor.sequence := by
  have hdelivered : ∀ s, sampleMoment.state "h" = .ok s → sampleItem.Delivered "h" sampleMoment s := fun s hs =>
    ⟨hs, sampleMoment_built, sampleMoment_increasing⟩
  exact ⟨_, hdelivered _ rfl, by decide, (streamed_text_exact "h" sampleItem sampleMoment _ (hdelivered _ rfl)).1⟩

end Cantrip.NativeHistory
