import Mathlib.Data.List.Nodup
import Mathlib.Data.List.Lattice
import Cantrip.Live.Protocol

/-!
# The tables of the hub

A connection is listed under a scope of its owner exactly when it has the scope (`Tables`). What is done for one
connection changes no other, sends to no other, and leaves what is retained as it is (`Does`): the messages that it is
said to send are sent in order, up to where the connection closes.
-/

namespace Cantrip.Live

open List Function Bool

namespace Hub

variable {h h' h'' : Hub} {id : Nat}

def isOpen (h : Hub) (id : Nat) : Prop := (h.connection id).closed = false

instance (h : Hub) (id : Nat) : Decidable (h.isOpen id) := inferInstanceAs (Decidable (_ = _))

structure Tables (h : Hub) : Prop where
  members : ∀ owner scope id, id ∈ h.subscribers owner scope ↔ (h.connection id).owner = owner ∧ scope ∈ (h.connection id).scopes
  nodup : ∀ owner scope, (h.subscribers owner scope).Nodup
  distinct : ∀ id, (h.connection id).scopes.Nodup

def Shut (h : Hub) : Prop := ∀ id, (h.connection id).closed = true → (h.connection id).scopes = []

@[simp] theorem setConnection_self (h : Hub) (id : Nat) (c : Connection) : (h.setConnection id c).connection id = c :=
  update_self ..

theorem setConnection_ne (h : Hub) (c : Connection) {j : Nat} (hj : j ≠ id) : (h.setConnection id c).connection j = h.connection j :=
  update_of_ne hj ..

/-! ## Subscriptions -/

theorem removeSubscription_connection (h : Hub) (id : Nat) (scope : Scope) : (h.removeSubscription id scope).connection =
      update h.connection id { h.connection id with scopes := (h.connection id).scopes.erase scope } := by
  unfold removeSubscription
  by_cases hmem : scope ∈ (h.connection id).scopes
  · rw [if_pos hmem]
    rfl
  · rw [if_neg hmem, erase_of_not_mem hmem]
    exact (update_eq_self id h.connection).symm

theorem removeSubscription_tables (htables : h.Tables) (id : Nat) (scope : Scope) : (h.removeSubscription id scope).Tables := by
  by_cases hmem : scope ∈ (h.connection id).scopes
  · have hconnection := removeSubscription_connection h id scope
    have hsubscribers : (h.removeSubscription id scope).subscribers = fun owner s =>
        if owner = (h.connection id).owner ∧ s = scope then (h.subscribers owner s).erase id else h.subscribers owner s := by
      unfold removeSubscription
      rw [if_pos hmem]
    have hdistinct := htables.distinct id
    refine ⟨fun owner s j => ?_, fun owner s => ?_, fun j => ?_⟩
    · rw [hsubscribers, hconnection]
      by_cases hj : j = id
      · subst hj
        simp only [update_self, hdistinct.mem_erase_iff]
        by_cases hkey : owner = (h.connection j).owner ∧ s = scope
        · rw [if_pos hkey, (htables.nodup owner s).mem_erase_iff]
          simp [hkey.2]
        · rw [if_neg hkey, htables.members]
          constructor
          · rintro ⟨rfl, hs⟩
            exact ⟨rfl, fun heq => hkey ⟨rfl, heq⟩, hs⟩
          · rintro ⟨rfl, -, hs⟩
            exact ⟨rfl, hs⟩
      · rw [update_of_ne hj]
        dsimp only
        by_cases hkey : owner = (h.connection id).owner ∧ s = scope
        · rw [if_pos hkey, (htables.nodup owner s).mem_erase_iff, htables.members]
          exact ⟨And.right, fun hm => ⟨hj, hm⟩⟩
        · rw [if_neg hkey, htables.members]
    · rw [hsubscribers]
      dsimp only
      split
      · exact (htables.nodup owner s).erase id
      · exact htables.nodup owner s
    · rw [hconnection]
      by_cases hj : j = id
      · subst hj
        rw [update_self]
        exact hdistinct.erase scope
      · rw [update_of_ne hj]
        exact htables.distinct j
  · unfold removeSubscription
    rw [if_neg hmem]
    exact htables

theorem addSubscription_connection (h : Hub) (id : Nat) (scope : Scope) (hopen : h.isOpen id) :
    (h.addSubscription id scope).connection = update h.connection id
        { h.connection id with scopes := if scope ∈ (h.connection id).scopes then (h.connection id).scopes
                                         else (h.connection id).scopes ++ [scope] } := by
  unfold addSubscription
  dsimp only
  rw [if_neg (by rw [show (h.connection id).closed = false from hopen]; exact Bool.false_ne_true)]
  split
  · exact (update_eq_self id h.connection).symm
  · rfl

theorem addSubscription_tables (htables : h.Tables) (id : Nat) (scope : Scope) : (h.addSubscription id scope).Tables := by
  unfold addSubscription
  dsimp only
  split
  · exact htables
  · split
    · exact htables
    · rename_i hnot
      have habsent : ∀ owner s, owner = (h.connection id).owner ∧ s = scope → id ∉ h.subscribers owner s := by
        rintro owner s ⟨rfl, rfl⟩ hmem
        exact hnot ((htables.members _ _ _).mp hmem).2
      refine ⟨fun owner s j => ?_, fun owner s => ?_, fun j => ?_⟩
      · dsimp only
        by_cases hj : j = id
        · subst hj
          rw [setConnection_self]
          by_cases hkey : owner = (h.connection j).owner ∧ s = scope
          · rw [if_pos hkey, if_neg (habsent owner s hkey)]
            simp [hkey.1, hkey.2]
          · rw [if_neg hkey, htables.members]
            simp only [mem_append, mem_singleton]
            constructor
            · exact fun hm => ⟨hm.1, .inl hm.2⟩
            · rintro ⟨rfl, hs | hs⟩
              · exact ⟨rfl, hs⟩
              · exact absurd ⟨rfl, hs⟩ hkey
        · rw [setConnection_ne h _ hj]
          by_cases hkey : owner = (h.connection id).owner ∧ s = scope
          · rw [if_pos hkey, if_neg (habsent owner s hkey), mem_append, htables.members]
            simp [hj]
          · rw [if_neg hkey, htables.members]
      · dsimp only
        by_cases hkey : owner = (h.connection id).owner ∧ s = scope
        · rw [if_pos hkey, if_neg (habsent owner s hkey)]
          exact (htables.nodup owner s).append (nodup_singleton id) (by simpa using habsent owner s hkey)
        · rw [if_neg hkey]
          exact htables.nodup owner s
      · dsimp only
        by_cases hj : j = id
        · subst hj
          rw [setConnection_self]
          exact (htables.distinct j).append (nodup_singleton scope) (by simpa using hnot)
        · rw [setConnection_ne h _ hj]
          exact htables.distinct j

theorem setConnection_tables (htables : h.Tables) {c : Connection} (howner : c.owner = (h.connection id).owner)
    (hscopes : c.scopes = (h.connection id).scopes) : (h.setConnection id c).Tables := by
  have hsame : ∀ j, ((h.setConnection id c).connection j).owner = (h.connection j).owner ∧
      ((h.setConnection id c).connection j).scopes = (h.connection j).scopes := by
    intro j
    by_cases hj : j = id
    · subst hj
      rw [setConnection_self]
      exact ⟨howner, hscopes⟩
    · rw [setConnection_ne h c hj]
      exact ⟨rfl, rfl⟩
  refine ⟨fun owner s j => ?_, htables.nodup, fun j => ?_⟩
  · rw [(hsame j).1, (hsame j).2]
    exact htables.members owner s j
  · rw [(hsame j).2]
    exact htables.distinct j

/-! ## Many subscriptions -/

/-- Only connections and subscribers differ. -/
structure Quiet (h h' : Hub) : Prop where
  log : h'.log = h.log
  cursors : h'.cursors = h.cursors
  replay : h'.replay = h.replay
  attached : h'.attached = h.attached
  pending : h'.pending = h.pending

theorem Quiet.refl (h : Hub) : Quiet h h := ⟨rfl, rfl, rfl, rfl, rfl⟩

theorem Quiet.trans (hq : Quiet h h') (hq' : Quiet h' h'') : Quiet h h'' :=
  ⟨hq'.log.trans hq.log, hq'.cursors.trans hq.cursors, hq'.replay.trans hq.replay, hq'.attached.trans hq.attached,
    hq'.pending.trans hq.pending⟩

theorem removeSubscription_quiet (h : Hub) (id : Nat) (scope : Scope) : Quiet h (h.removeSubscription id scope) := by
  unfold removeSubscription
  dsimp only
  split <;> exact ⟨rfl, rfl, rfl, rfl, rfl⟩

theorem addSubscription_quiet (h : Hub) (id : Nat) (scope : Scope) : Quiet h (h.addSubscription id scope) := by
  unfold addSubscription
  dsimp only
  split
  · exact .refl h
  · split <;> exact ⟨rfl, rfl, rfl, rfl, rfl⟩

theorem removeSubscriptions_quiet (h : Hub) (id : Nat) (scopes : List Scope) : Quiet h (h.removeSubscriptions id scopes) := by
  induction scopes generalizing h with
  | nil => exact .refl h
  | cons scope scopes ih => exact (removeSubscription_quiet h id scope).trans (ih _)

theorem addSubscriptions_quiet (h : Hub) (id : Nat) (scopes : List Scope) : Quiet h (h.addSubscriptions id scopes) := by
  induction scopes generalizing h with
  | nil => exact .refl h
  | cons scope scopes ih => exact (addSubscription_quiet h id scope).trans (ih _)

theorem replaceSubscriptions_quiet (h : Hub) (id : Nat) (scopes : List Scope) : Quiet h (h.replaceSubscriptions id scopes) := by
  unfold replaceSubscriptions
  split
  · exact .refl h
  · exact (removeSubscriptions_quiet h id _).trans (addSubscriptions_quiet _ id scopes)

theorem removeSubscriptions_tables (htables : h.Tables) (id : Nat) (scopes : List Scope) : (h.removeSubscriptions id scopes).Tables := by
  induction scopes generalizing h with
  | nil => exact htables
  | cons scope scopes ih => exact ih (removeSubscription_tables htables id scope)

theorem addSubscriptions_tables (htables : h.Tables) (id : Nat) (scopes : List Scope) : (h.addSubscriptions id scopes).Tables := by
  induction scopes generalizing h with
  | nil => exact htables
  | cons scope scopes ih => exact ih (addSubscription_tables htables id scope)

theorem removeSubscriptions_connection (h : Hub) (id : Nat) (scopes : List Scope) :
    (h.removeSubscriptions id scopes).connection =
      update h.connection id { h.connection id with scopes := (h.connection id).scopes.diff scopes } := by
  induction scopes generalizing h with
  | nil =>
    rw [diff_nil]
    exact (update_eq_self id h.connection).symm
  | cons scope scopes ih =>
    show ((h.removeSubscription id scope).removeSubscriptions id scopes).connection = _
    rw [ih, removeSubscription_connection, update_self, update_idem, diff_cons]

theorem diff_same (scopes : List Scope) : scopes.diff scopes = [] := by
  induction scopes with
  | nil => rfl
  | cons scope scopes ih => rw [diff_cons, erase_cons_head, ih]

/-- The scopes with those that are new. -/
def withScopes (scopes more : List Scope) : List Scope :=
  more.foldl (fun scopes scope => if scope ∈ scopes then scopes else scopes ++ [scope]) scopes

theorem addSubscriptions_connection (h : Hub) (id : Nat) (scopes : List Scope) (hopen : h.isOpen id) :
    (h.addSubscriptions id scopes).connection =
      update h.connection id { h.connection id with scopes := withScopes (h.connection id).scopes scopes } := by
  induction scopes generalizing h with
  | nil => exact (update_eq_self id h.connection).symm
  | cons scope scopes ih =>
    have hconnection := addSubscription_connection h id scope hopen
    have hopen' : (h.addSubscription id scope).isOpen id := by
      unfold isOpen
      rw [hconnection, update_self]
      exact hopen
    show ((h.addSubscription id scope).addSubscriptions id scopes).connection = _
    rw [ih _ hopen', hconnection, update_self, update_idem]
    rfl

theorem addSubscriptions_closed (h : Hub) (id : Nat) (scopes : List Scope) (hclosed : ¬ h.isOpen id) : h.addSubscriptions id scopes = h := by
  have hclosed' : (h.connection id).closed = true := by simpa [isOpen] using hclosed
  have hone : ∀ scope, h.addSubscription id scope = h := fun scope => if_pos hclosed'
  induction scopes with
  | nil => rfl
  | cons scope scopes ih =>
    show (h.addSubscription id scope).addSubscriptions id scopes = h
    rw [hone, ih]

/-! ## What is done for one connection -/

structure Does (id : Nat) (h h' : Hub) (sent : List Message) : Prop where
  others : ∀ j, j ≠ id → h'.connection j = h.connection j
  owner : (h'.connection id).owner = (h.connection id).owner
  opened : h'.isOpen id → h.isOpen id
  log : ∃ part rest, h'.log = h.log ++ part.map (Entry.sent id) ++ rest ∧ part <+: sent ∧ (∀ entry ∈ rest, entry = .closed id) ∧
    (h'.isOpen id → part = sent ∧ rest = []) ∧ (¬ h.isOpen id → part = [])
  cursors : h'.cursors = h.cursors
  replay : h'.replay = h.replay
  attached : h'.attached = h.attached
  pending : h'.pending = h.pending
  initialized : (h.connection id).initialized = true → (h'.connection id).initialized = true
  tables : h.Tables → h'.Tables
  shut : h.Shut → h'.Shut

theorem silent_log (id : Nat) (hlog : h'.log = h.log) : ∃ part rest, h'.log = h.log ++ part.map (Entry.sent id) ++ rest ∧ part <+: [] ∧
    (∀ entry ∈ rest, entry = .closed id) ∧ (h'.isOpen id → part = [] ∧ rest = []) ∧ (¬ h.isOpen id → part = []) := by
  refine ⟨[], [], ?_, prefix_rfl, forall_mem_nil _, fun _ => ⟨rfl, rfl⟩, fun _ => rfl⟩
  rw [hlog, map_nil, append_nil, append_nil]

theorem Does.refl (id : Nat) (h : Hub) : Does id h h [] :=
  ⟨fun _ _ => rfl, rfl, fun hopen => hopen, silent_log id rfl, rfl, rfl, rfl, rfl, fun hi => hi, fun ht => ht, fun hs => hs⟩

theorem Does.trans {a b : List Message} (hd : Does id h h' a) (hd' : Does id h' h'' b) : Does id h h'' (a ++ b) := by
  obtain ⟨part, rest, hlog, hpart, hrest, hsent, hsilent⟩ := hd.log
  obtain ⟨part', rest', hlog', hpart', hrest', hsent', hsilent'⟩ := hd'.log
  refine ⟨fun j hj => (hd'.others j hj).trans (hd.others j hj), hd'.owner.trans hd.owner, fun hopen => hd.opened (hd'.opened hopen), ?_,
    hd'.cursors.trans hd.cursors, hd'.replay.trans hd.replay, hd'.attached.trans hd.attached, hd'.pending.trans hd.pending,
    fun hi => hd'.initialized (hd.initialized hi), fun ht => hd'.tables (hd.tables ht), fun hs => hd'.shut (hd.shut hs)⟩
  by_cases hopen : h'.isOpen id
  · obtain ⟨rfl, rfl⟩ := hsent hopen
    refine ⟨part ++ part', rest', ?_, (prefix_append_right_inj part).mpr hpart', hrest', fun hopen'' => ?_, fun hclosed => ?_⟩
    · rw [hlog', hlog, map_append, append_nil, append_assoc h.log]
    · obtain ⟨rfl, rfl⟩ := hsent' hopen''
      exact ⟨rfl, rfl⟩
    · exact absurd (hd.opened hopen) hclosed
  · obtain rfl := hsilent' hopen
    refine ⟨part, rest ++ rest', ?_, hpart.trans (prefix_append _ _), ?_, fun hopen'' => absurd (hd'.opened hopen'') hopen, hsilent⟩
    · rw [hlog', hlog, map_nil, append_nil, append_assoc]
    · intro entry hentry
      rcases mem_append.mp hentry with hentry | hentry
      · exact hrest entry hentry
      · exact hrest' entry hentry

theorem Does.nil_trans {b : List Message} (hd : Does id h h' []) (hd' : Does id h' h'' b) : Does id h h'' b := hd.trans hd'

theorem Does.trans_nil {a : List Message} (hd : Does id h h' a) (hd' : Does id h' h'' []) : Does id h h'' a := by
  have hboth := hd.trans hd'
  rwa [append_nil] at hboth

/-- What concerns events: whose they are, and whether they are sent. -/
structure Same (c c' : Connection) : Prop where
  owner : c'.owner = c.owner
  initialized : c'.initialized = c.initialized
  resume : c'.resume = c.resume
  scopes : c'.scopes = c.scopes

theorem Same.refl (c : Connection) : Same c c := ⟨rfl, rfl, rfl, rfl⟩

theorem Same.trans {a b c : Connection} (hs : Same a b) (hs' : Same b c) : Same a c :=
  ⟨hs'.owner.trans hs.owner, hs'.initialized.trans hs.initialized, hs'.resume.trans hs.resume, hs'.scopes.trans hs.scopes⟩

theorem does_setConnection {c : Connection} (howner : c.owner = (h.connection id).owner) (hclosed : c.closed = (h.connection id).closed)
    (hscopes : c.scopes = (h.connection id).scopes) (hinitialized : (h.connection id).initialized = true → c.initialized = true) :
    Does id h (h.setConnection id c) [] := by
  have hopened : (h.setConnection id c).isOpen id ↔ h.isOpen id := by
    unfold isOpen
    rw [setConnection_self, hclosed]
  refine ⟨fun j hj => setConnection_ne h c hj, by rw [setConnection_self]; exact howner, hopened.mp, silent_log id rfl, rfl, rfl, rfl,
    rfl, fun hi => by rw [setConnection_self]; exact hinitialized hi, fun ht => setConnection_tables ht howner hscopes, fun hs j hj => ?_⟩
  by_cases hid : j = id
  · subst hid
    rw [setConnection_self] at hj ⊢
    rw [hscopes]
    exact hs j (hclosed.symm.trans hj)
  · rw [setConnection_ne h c hid] at hj ⊢
    exact hs j hj

theorem does_counted (h : Hub) (id n : Nat) : Does id h { h with sends := n } [] :=
  ⟨fun _ _ => rfl, rfl, fun hopen => hopen, silent_log id rfl, rfl, rfl, rfl, rfl, fun hi => hi,
    fun ht => ⟨ht.members, ht.nodup, ht.distinct⟩, fun hs => hs⟩

theorem disconnectConnection_closed (h : Hub) (id : Nat) : ¬ (h.disconnectConnection id).isOpen id := by
  unfold disconnectConnection
  dsimp only
  split
  · rename_i hclosed
    unfold isOpen
    rw [hclosed]
    exact true_eq_false.mp
  · unfold isOpen write
    rw [removeSubscriptions_connection, update_self, setConnection_self]
    exact true_eq_false.mp

theorem does_disconnect (h : Hub) (id : Nat) : Does id h (h.disconnectConnection id) [] := by
  have hshut := disconnectConnection_closed h id
  unfold disconnectConnection at hshut ⊢
  dsimp only at hshut ⊢
  split
  · exact .refl id h
  · rename_i hclosed
    rw [if_neg hclosed] at hshut
    generalize hclosing : h.setConnection id { h.connection id with closed := true } = closing
    rw [hclosing] at hshut
    have hself : closing.connection id = { h.connection id with closed := true } := by rw [← hclosing, setConnection_self]
    have hother : ∀ j, j ≠ id → closing.connection j = h.connection j := fun j hj => by rw [← hclosing, setConnection_ne h _ hj]
    have hquiet := removeSubscriptions_quiet closing id (h.connection id).scopes
    have hconnection := removeSubscriptions_connection closing id (h.connection id).scopes
    refine ⟨fun j hj => ?_, ?_, fun hopen => absurd hopen hshut, ⟨[], [.closed id], ?_, prefix_rfl, by simp,
      fun hopen => absurd hopen hshut, fun _ => rfl⟩, ?_, ?_, ?_, ?_, fun hi => ?_, fun ht => ?_, fun hs j hj => ?_⟩
    · show (closing.removeSubscriptions id _).connection j = _
      rw [hconnection, update_of_ne hj, hother j hj]
    · show ((closing.removeSubscriptions id _).connection id).owner = _
      rw [hconnection, update_self, hself]
    · show (closing.removeSubscriptions id _).log ++ [_] = _
      rw [hquiet.log, ← hclosing, map_nil, append_nil]
      rfl
    · exact hquiet.cursors.trans (by rw [← hclosing]; rfl)
    · exact hquiet.replay.trans (by rw [← hclosing]; rfl)
    · exact hquiet.attached.trans (by rw [← hclosing]; rfl)
    · exact hquiet.pending.trans (by rw [← hclosing]; rfl)
    · show ((closing.removeSubscriptions id _).connection id).initialized = true
      rw [hconnection, update_self, hself]
      exact hi
    · have hremoved : (closing.removeSubscriptions id (h.connection id).scopes).Tables :=
        removeSubscriptions_tables (hclosing ▸ setConnection_tables ht rfl rfl) id _
      exact ⟨hremoved.members, hremoved.nodup, hremoved.distinct⟩
    · change ((closing.removeSubscriptions id _).connection j).closed = true at hj
      show ((closing.removeSubscriptions id _).connection j).scopes = []
      rw [hconnection] at hj ⊢
      by_cases hid : j = id
      · subst hid
        rw [update_self, hself]
        exact diff_same _
      · rw [update_of_ne hid, hother j hid] at hj ⊢
        exact hs j hj

end Hub

end Cantrip.Live
