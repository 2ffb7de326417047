import Cantrip.Live.Tables

/-!
# What each message does

What the handling of one message sends to its connection, and how the connection is left where it is still open.
-/

namespace Cantrip.Live

open List Function Option

/-- Neither an event nor the end of a replay. -/
def Message.plain : Message → Bool
  | .event _ => false
  | .caughtUp _ _ => false
  | _ => true

/-- The end of a replay. -/
def Message.caught : Message → Bool
  | .caughtUp _ _ => true
  | _ => false

namespace Hub

variable {o : Options} {socket : Nat → Answer} {h h' h'' : Hub} {id : Nat}

theorem does_sendEncoded (h : Hub) (id : Nat) (m : Message) : Does id h (h.sendEncoded o socket id m).1 [m] ∧
      ((h.sendEncoded o socket id m).2 = true → (h.sendEncoded o socket id m).1.isOpen id) ∧
      ((h.sendEncoded o socket id m).2 = false → ¬ (h.sendEncoded o socket id m).1.isOpen id) ∧
      ((h.sendEncoded o socket id m).1.isOpen id → (h.sendEncoded o socket id m).1.connection id = h.connection id) := by
  have hcounted := does_counted h id (h.sends + 1)
  have hgone : ∀ k : Hub, Does id h k [] → Does id h (k.disconnectConnection id) [m] := by
    intro k hk
    have hdone := hk.trans_nil (does_disconnect k id)
    have hclosed := disconnectConnection_closed k id
    obtain ⟨part, rest, hlog, hpart, hrest, -, hsilent⟩ := hdone.log
    exact { hdone with log := ⟨part, rest, hlog, hpart.trans nil_prefix, hrest, fun hopen => absurd hopen hclosed, hsilent⟩ }
  have hclosed := disconnectConnection_closed { h with sends := h.sends + 1 } id
  unfold sendEncoded
  dsimp only
  split
  · exact ⟨hgone _ hcounted, Bool.noConfusion, fun _ => hclosed, fun hopen => absurd hopen hclosed⟩
  · rename_i hnot
    split
    · exact ⟨hgone _ hcounted, Bool.noConfusion, fun _ => hclosed, fun hopen => absurd hopen hclosed⟩
    · split
      · exact ⟨hgone _ hcounted, Bool.noConfusion, fun _ => hclosed, fun hopen => absurd hopen hclosed⟩
      · have hopen : h.isOpen id := by
          unfold isOpen
          simp only [Bool.or_eq_true, not_or] at hnot
          simpa using hnot.1
        refine ⟨⟨fun _ _ => rfl, rfl, fun _ => hopen, ⟨[m], [], ?_, prefix_rfl, forall_mem_nil _, fun _ => ⟨rfl, rfl⟩,
          fun hshut => absurd hopen hshut⟩, rfl, rfl, rfl, rfl, fun hi => hi, fun ht => ⟨ht.members, ht.nodup, ht.distinct⟩, fun hs => hs⟩,
          fun _ => hopen, Bool.noConfusion, fun _ => rfl⟩
        rw [append_nil]
        rfl

theorem does_send (h : Hub) (id : Nat) (m : Message) : Does id h (h.send o socket id m) [m] := (does_sendEncoded h id m).1

variable {m : Message}

theorem unsent (hclosed : ¬ (h.send o socket id m).isOpen id) : Does id h (h.send o socket id m) [] := by
  obtain ⟨hdoes, hopen, -, -⟩ := @does_sendEncoded o socket h id m
  have hfailed : (h.sendEncoded o socket id m).2 = false := by
    by_contra hsent
    exact hclosed (hopen (by simpa using hsent))
  unfold send
  unfold sendEncoded at hfailed ⊢
  have hcounted := does_counted h id (h.sends + 1)
  dsimp only at hfailed ⊢
  split
  · exact hcounted.trans_nil (does_disconnect _ id)
  · split
    · exact hcounted.trans_nil (does_disconnect _ id)
    · split
      · exact hcounted.trans_nil (does_disconnect _ id)
      · rename_i h₁ h₂ h₃
        rw [if_neg h₁, if_neg h₂, if_neg h₃] at hfailed
        exact absurd hfailed.symm Bool.false_ne_true

theorem send_connection (hopen : (h.send o socket id m).isOpen id) : (h.send o socket id m).connection id = h.connection id :=
  (does_sendEncoded h id m).2.2.2 hopen

theorem does_remember (h : Hub) (id : Nat) (requestId : String) (reply : Reply) :
    Does id h (h.remember id requestId reply) [] ∧ Same (h.connection id) ((h.remember id requestId reply).connection id) := by
  unfold remember
  dsimp only
  rw [setConnection_self]
  exact ⟨does_setConnection rfl rfl rfl (fun hi => hi), rfl, rfl, rfl, rfl⟩

theorem does_rememberSend (h : Hub) (id : Nat) (requestId : String) (reply : Reply) :
    Does id h (h.rememberSend o socket id requestId reply) [.reply reply] ∧
      ((h.rememberSend o socket id requestId reply).isOpen id →
        Same (h.connection id) ((h.rememberSend o socket id requestId reply).connection id)) := by
  obtain ⟨hremembered, hsame⟩ := does_remember h id requestId reply
  refine ⟨hremembered.nil_trans (does_send _ id _), fun hopen => ?_⟩
  have hconnection := send_connection hopen
  unfold rememberSend
  rw [hconnection]
  exact hsame

theorem does_violation (h : Hub) (id : Nat) (requestId : Option String) (code : Code) :
    Does id h (h.violation o socket id requestId code) [.reply (.error requestId code)] ∧
      ((h.violation o socket id requestId code).isOpen id →
        Same (h.connection id) ((h.violation o socket id requestId code).connection id)) := by
  have hcounted : Does id h (h.setConnection id { h.connection id with violations := (h.connection id).violations + 1 }) [] :=
    does_setConnection rfl rfl rfl fun hi => hi
  have hsent := hcounted.nil_trans (@does_send o socket _ id (.reply (.error requestId code)))
  unfold violation
  dsimp only
  split
  · exact ⟨hsent.trans_nil (does_disconnect _ id), fun hopen => absurd hopen (disconnectConnection_closed _ id)⟩
  · refine ⟨hsent, fun hopen => ?_⟩
    rw [send_connection hopen, setConnection_self]
    exact ⟨rfl, rfl, rfl, rfl⟩

/-! ## Replaying -/

theorem does_replayEvents (h : Hub) (id : Nat) (events : List Event) (count : Nat) :
    Does id h (h.replayEvents o socket id events count).1 (events.map .event) ∧
      ((h.replayEvents o socket id events count).1.isOpen id →
        (h.replayEvents o socket id events count).1.connection id = h.connection id) ∧
      ((h.replayEvents o socket id events count).2 = none → ¬ (h.replayEvents o socket id events count).1.isOpen id) := by
  induction events generalizing h count with
  | nil => exact ⟨.refl id h, fun _ => rfl, fun hnone => absurd hnone (some_ne_none count)⟩
  | cons e events ih =>
    obtain ⟨hsent, -, hfailed, hsame⟩ := @does_sendEncoded o socket h id (.event e)
    unfold replayEvents
    dsimp only
    split
    · obtain ⟨hdone, hconnection, hnone⟩ := ih (h.sendEncoded o socket id (.event e)).1 (count + 1)
      refine ⟨hsent.trans hdone, fun hopen => ?_, hnone⟩
      exact (hconnection hopen).trans (hsame (hdone.opened hopen))
    · rename_i hnot
      have hclosed := hfailed (by simpa using hnot)
      obtain ⟨part, rest, hlog, hpart, hrest, -, hsilent⟩ := hsent.log
      refine ⟨{ hsent with log := ⟨part, rest, hlog, ?_, hrest, fun hopen => absurd hopen hclosed, hsilent⟩ },
        fun hopen => absurd hopen hclosed, fun _ => hclosed⟩
      exact hpart.trans (prefix_append [Message.event e] (events.map .event))

def toReplay (h : Hub) (id cursor : Nat) : List Event :=
  h.replay.filter fun e => e.owner = (h.connection id).owner ∧ e.cursor > cursor ∧ e.scope ∈ (h.connection id).scopes

/-- What was done has not told the connection that it has caught up. -/
def Untold (id : Nat) (h h' : Hub) : Prop := ∃ sent : List Message, Does id h h' sent ∧ ∀ m ∈ sent, m.caught = false

theorem Does.untold {sent : List Message} (hd : Does id h h' sent) (hsent : ∀ m ∈ sent, m.caught = false) (hu : Untold id h' h'') :
    Untold id h h'' := by
  obtain ⟨more, hd', hmore⟩ := hu
  refine ⟨sent ++ more, hd.trans hd', fun m hm => ?_⟩
  rcases mem_append.mp hm with hm | hm
  · exact hsent m hm
  · exact hmore m hm

theorem uncaught_events (events : List Event) : ∀ m ∈ events.map Message.event, m.caught = false := by
  intro m hm
  obtain ⟨e, -, rfl⟩ := mem_map.mp hm
  rfl

theorem does_replayFrom (h : Hub) (id cursor : Nat) : ∃ count, Does id h (h.replayFrom o socket id cursor)
      ((h.toReplay id cursor).map .event ++ [.caughtUp (h.cursors (h.connection id).owner) count]) ∧
      ((h.replayFrom o socket id cursor).isOpen id →
        (h.replayFrom o socket id cursor).connection id = { h.connection id with resume := none }) ∧
      (¬ (h.replayFrom o socket id cursor).isOpen id → Untold id h (h.replayFrom o socket id cursor)) := by
  have hset : Does id h (h.setConnection id { h.connection id with resume := none }) [] := does_setConnection rfl rfl rfl fun hi => hi
  generalize hbegun : h.setConnection id { h.connection id with resume := none } = begun at hset
  have hself : begun.connection id = { h.connection id with resume := none } := by rw [← hbegun, setConnection_self]
  have hevents : (begun.replay.filter fun e => e.owner = (begun.connection id).owner ∧ e.cursor > cursor ∧
      e.scope ∈ (begun.connection id).scopes) = h.toReplay id cursor := by
    rw [hself, hset.replay]
    rfl
  obtain ⟨hdone, hconnection, hfailed⟩ := @does_replayEvents o socket begun id (h.toReplay id cursor) 0
  have hcursor : (begun.replayEvents o socket id (h.toReplay id cursor) 0).1.cursors (begun.connection id).owner =
      h.cursors (h.connection id).owner := by
    rw [hdone.cursors, hset.cursors, hself]
  have hfrom : h.replayFrom o socket id cursor =
      (begun.replayEvents o socket id (h.toReplay id cursor) 0).2.elim (begun.replayEvents o socket id (h.toReplay id cursor) 0).1
        fun count => (begun.replayEvents o socket id (h.toReplay id cursor) 0).1.send o socket id
          (.caughtUp (h.cursors (h.connection id).owner) count) := by
    unfold replayFrom
    dsimp only
    rw [hbegun, hevents, hcursor]
    split
    · rename_i hnone
      rw [hnone]
      rfl
    · rename_i count hsome
      rw [hsome]
      rfl
  obtain hnone | ⟨count, hsome⟩ :=
    eq_none_or_eq_some (begun.replayEvents o socket id (h.toReplay id cursor) 0).2
  · rw [hfrom, hnone, elim_none]
    have hclosed := hfailed hnone
    have hall := hset.nil_trans hdone
    obtain ⟨part, rest, hlog, hpart, hrest, -, hsilent⟩ := hall.log
    refine ⟨0, { hall with log := ⟨part, rest, hlog, ?_, hrest, fun hopen => absurd hopen hclosed, hsilent⟩ },
      fun hopen => absurd hopen hclosed, fun _ => ⟨_, hall, uncaught_events _⟩⟩
    exact hpart.trans (prefix_append _ _)
  · rw [hfrom, hsome, elim_some]
    refine ⟨count, (hset.nil_trans hdone).trans (does_send _ id _), fun hopen => ?_, fun hclosed => ?_⟩
    · rw [send_connection hopen, hconnection ((does_send _ id _).opened hopen), hself]
    · exact ⟨_, (hset.nil_trans hdone).trans_nil (unsent hclosed), uncaught_events _⟩

/-! ## Messages of a connection -/

/-- The handling of a message that leaves the subscriptions and the resume alone. -/
structure Keeps (id : Nat) (h h' : Hub) : Prop where
  does : ∃ sent : List Message, Does id h h' sent ∧ ∀ m ∈ sent, m.plain = true
  same : h'.isOpen id → Same (h.connection id) (h'.connection id)

theorem Keeps.of (hdoes : Does id h h' [m]) (hplain : m.plain = true)
    (hsame : h'.isOpen id → Same (h.connection id) (h'.connection id)) : Keeps id h h' :=
  ⟨⟨[m], hdoes, by simpa using hplain⟩, hsame⟩

theorem keeps_send (h : Hub) (id : Nat) (hplain : m.plain = true) : Keeps id h (h.send o socket id m) :=
  .of (does_send h id m) hplain fun hopen => by rw [send_connection hopen]; exact .refl _

theorem keeps_rememberSend (h : Hub) (id : Nat) (requestId : String) (reply : Reply) :
    Keeps id h (h.rememberSend o socket id requestId reply) :=
  .of (does_rememberSend h id requestId reply).1 rfl (does_rememberSend h id requestId reply).2

theorem keeps_violation (h : Hub) (id : Nat) (requestId : Option String) (code : Code) :
    Keeps id h (h.violation o socket id requestId code) :=
  .of (does_violation h id requestId code).1 rfl (does_violation h id requestId code).2

theorem keeps_disconnect (h : Hub) (id : Nat) : Keeps id h (h.disconnectConnection id) :=
  ⟨⟨[], does_disconnect h id, forall_mem_nil _⟩, fun hopen => absurd hopen (disconnectConnection_closed h id)⟩

theorem keeps_ping (h : Hub) (id : Nat) : Keeps id h (h.ping o socket id) := by
  unfold ping
  dsimp only
  split
  · exact keeps_send h id rfl
  · exact keeps_violation h id _ _

theorem request_spec (h : Hub) (id : Nat) (r : Request) : Keeps id h (h.request o socket id r) ∨
      (h.connection id).initialized = true ∧ h.request o socket id r = { h with pending := update h.pending id (some r) } := by
  unfold request
  dsimp only
  split
  · exact .inl (keeps_violation h id _ _)
  · rename_i hinitialized
    split
    · exact .inl (keeps_send h id rfl)
    · split
      · exact .inl (keeps_rememberSend h id _ _)
      · exact .inr ⟨by simpa using hinitialized, rfl⟩

theorem initializeWith_spec (h : Hub) (id : Nat) (resume : Option (String × Nat)) :
    (∃ sent : List Message, Does id h (h.initializeWith o socket id resume) sent ∧ ∀ m ∈ sent, m.plain = true) ∧
      ((h.connection id).initialized = true → (h.initializeWith o socket id resume).isOpen id →
        Same (h.connection id) ((h.initializeWith o socket id resume).connection id)) := by
  unfold initializeWith
  dsimp only
  split
  · rename_i hinitialized
    have hkeeps := @keeps_violation o socket h id none .alreadyInitialized
    exact ⟨hkeeps.does, fun _ hopen => hkeeps.same hopen⟩
  · rename_i hnot
    refine ⟨⟨[_], Does.nil_trans ?_ (does_send _ id _), by simp [Message.plain]⟩, fun hinitialized => absurd hinitialized hnot⟩
    exact does_setConnection rfl rfl rfl fun _ => rfl

theorem does_removeSubscriptions (h : Hub) (id : Nat) (scopes : List Scope) : Does id h (h.removeSubscriptions id scopes) [] := by
  have hquiet := removeSubscriptions_quiet h id scopes
  have hconnection := removeSubscriptions_connection h id scopes
  have hopened : (h.removeSubscriptions id scopes).isOpen id ↔ h.isOpen id := by
    unfold isOpen
    rw [hconnection, update_self]
  refine ⟨fun j hj => by rw [hconnection, update_of_ne hj], by rw [hconnection, update_self], hopened.mp,
    silent_log id hquiet.log, hquiet.cursors, hquiet.replay, hquiet.attached, hquiet.pending, fun hi => ?_,
    fun ht => removeSubscriptions_tables ht id scopes, fun hs j hj => ?_⟩
  · rw [hconnection, update_self]
    exact hi
  rw [hconnection] at hj ⊢
  by_cases hid : j = id
  · subst hid
    rw [update_self] at hj ⊢
    show (h.connection j).scopes.diff scopes = []
    rw [hs j hj]
    exact nil_diff scopes
  · rw [update_of_ne hid] at hj ⊢
    exact hs j hj

theorem does_addSubscriptions (h : Hub) (id : Nat) (scopes : List Scope) : Does id h (h.addSubscriptions id scopes) [] := by
  by_cases hopen : h.isOpen id
  · have hquiet := addSubscriptions_quiet h id scopes
    have hconnection := addSubscriptions_connection h id scopes hopen
    refine ⟨fun j hj => by rw [hconnection, update_of_ne hj], by rw [hconnection, update_self], fun _ => hopen,
      silent_log id hquiet.log, hquiet.cursors, hquiet.replay, hquiet.attached, hquiet.pending, fun hi => ?_,
      fun ht => addSubscriptions_tables ht id scopes, fun hs j hj => ?_⟩
    · rw [hconnection, update_self]
      exact hi
    rw [hconnection] at hj ⊢
    by_cases hid : j = id
    · subst hid
      rw [update_self] at hj
      exact absurd hj (by rw [show (h.connection j).closed = false from hopen]; exact Bool.false_ne_true)
    · rw [update_of_ne hid] at hj ⊢
      exact hs j hj
  · rw [addSubscriptions_closed h id scopes hopen]
    exact .refl id h

theorem does_replaceSubscriptions (h : Hub) (id : Nat) (scopes : List Scope) : Does id h (h.replaceSubscriptions id scopes) [] := by
  unfold replaceSubscriptions
  split
  · exact .refl id h
  · exact (does_removeSubscriptions h id _).nil_trans (does_addSubscriptions _ id scopes)

theorem does_unsubscribe (h : Hub) (id : Nat) (requestId : String) (scopes : List Scope) :
    ∃ sent : List Message, Does id h (h.unsubscribe o socket id requestId scopes) sent ∧ ∀ m ∈ sent, m.plain = true := by
  unfold unsubscribe
  dsimp only
  split
  · exact (keeps_violation h id _ _).does
  · split
    · exact (keeps_send h id rfl).does
    · exact ⟨_, (does_removeSubscriptions h id scopes).nil_trans (does_rememberSend _ id requestId _).1, by simp [Message.plain]⟩

end Hub

end Cantrip.Live
