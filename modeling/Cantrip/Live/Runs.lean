import Cantrip.Live.Delivery

/-!
# Along a run

What every step keeps (`Sound`), and what a connection that is past its resume is sent from then on (`owed`).
-/

namespace Cantrip.Live

open List Option

namespace Hub

variable {o : Options} {socket : Nat → Answer} {h h' h'' : Hub} {id j : Nat} {act : Act} {acts : List Act}

structure Sound (h : Hub) : Prop where
  tables : h.Tables
  shut : h.Shut
  retains : h.Retains
  /-- A connection that is not attached yet is closed. -/
  attached : ∀ id, h.isOpen id → id < h.attached
  /-- Scopes are authorized for connections that are initialized. -/
  asked : ∀ id, (h.pending id).isSome → id < h.attached ∧ (h.connection id).initialized = true

theorem sound_start : start.Sound := by
  refine ⟨⟨?_, fun _ _ => nodup_nil, fun _ => nodup_nil⟩, fun _ _ => rfl, ⟨fun _ => rfl, suffix_rfl⟩, ?_, ?_⟩
  · intro owner scope id
    exact ⟨fun hm => absurd hm not_mem_nil, fun hm => absurd hm.2 not_mem_nil⟩
  · exact fun id hopen => absurd hopen Bool.noConfusion
  · exact fun id hsome => absurd hsome Bool.noConfusion

variable {sent : List Message}

theorem Does.initialized_any (hd : Does j h h' sent) (id : Nat) (hi : (h.connection id).initialized = true) :
    (h'.connection id).initialized = true := by
  by_cases hj : id = j
  · subst hj
    exact hd.initialized hi
  · rwa [hd.others id hj]

theorem Does.opened_any (hd : Does j h h' sent) (id : Nat) (hopen : h'.isOpen id) : h.isOpen id := by
  by_cases hj : id = j
  · subst hj
    exact hd.opened hopen
  · unfold isOpen at hopen ⊢
    rwa [hd.others id hj] at hopen

theorem Does.sound (hd : Does j h h' sent) (hs : h.Sound) : h'.Sound := by
  refine ⟨hd.tables hs.tables, hd.shut hs.shut, hd.retains hs.retains, fun id hopen => ?_, fun id hsome => ?_⟩
  · rw [hd.attached]
    exact hs.attached id (hd.opened_any id hopen)
  · rw [hd.pending] at hsome
    rw [hd.attached]
    exact ⟨(hs.asked id hsome).1, hd.initialized_any id (hs.asked id hsome).2⟩

theorem Sound.pending (hs : h.Sound) {pending : Nat → Option Request}
    (hasked : ∀ id, (pending id).isSome → id < h.attached ∧ (h.connection id).initialized = true) : { h with pending }.Sound :=
  ⟨⟨hs.tables.members, hs.tables.nodup, hs.tables.distinct⟩, hs.shut, ⟨hs.retains.numbered, hs.retains.suffix⟩, hs.attached, hasked⟩

theorem sound_retain {e : Event} (hs : h.Sound) (hcursor : e.cursor = h.cursors e.owner + 1) : (h.retain o e).Sound :=
  ⟨⟨hs.tables.members, hs.tables.nodup, hs.tables.distinct⟩, hs.shut, retains_retain hs.retains hcursor, hs.attached, hs.asked⟩

theorem publication_sound {p : Publication} (hs : h.Sound) (hpublished : h.publication o socket p = some h') : h'.Sound := by
  obtain ⟨bytes, rfl⟩ := publication_spec hpublished
  exact deliver_keeps (fun j h h' sent hd hs => hd.sound hs) _ _ (sound_retain hs rfl)

/-! ## Publishing -/

theorem publishGroup_spec (hs : h.Sound) (publications : List Publication) (id : Nat) :
    (h.publishGroup o socket publications).Sound ∧ Steady id h (h.publishGroup o socket publications) := by
  induction publications generalizing h with
  | nil => exact ⟨hs, .refl id h⟩
  | cons p publications ih =>
    unfold publishGroup
    split
    · exact ⟨hs, .refl id h⟩
    · rename_i next hnext
      obtain ⟨hsound, hsteady⟩ := ih (publication_sound hs hnext)
      exact ⟨hsound, (publication_steady hs.tables hnext id).trans hsteady⟩

/-- Only the connections differ, and none of them is less initialized. -/
structure Alike (h h' : Hub) : Prop where
  pending : h'.pending = h.pending
  attached : h'.attached = h.attached
  initialized : ∀ id, (h.connection id).initialized = true → (h'.connection id).initialized = true

theorem Alike.refl (h : Hub) : Alike h h := ⟨rfl, rfl, fun _ hi => hi⟩

theorem Alike.does (ha : Alike h h') (hd : Does j h' h'' sent) : Alike h h'' :=
  ⟨hd.pending.trans ha.pending, hd.attached.trans ha.attached, fun id hi => hd.initialized_any id (ha.initialized id hi)⟩

theorem publishGroup_alike (publications : List Publication) : Alike h (h.publishGroup o socket publications) := by
  suffices hfrom : ∀ k, Alike h k → Alike h (k.publishGroup o socket publications) from hfrom h (.refl h)
  intro k hk
  induction publications generalizing k with
  | nil => exact hk
  | cons p publications ih =>
    unfold publishGroup
    split
    · exact hk
    · rename_i next hnext
      refine ih next ?_
      obtain ⟨bytes, rfl⟩ := publication_spec hnext
      exact deliver_keeps (fun j k k' sent hd ha => ha.does hd) _ _ ⟨hk.pending, hk.attached, hk.initialized⟩

/-! ## Answering -/

theorem Does.gone {a b : List Message} (hd : Does id h h' a) (hclosed : ¬ h'.isOpen id) (hab : a <+: b) : Does id h h' b := by
  obtain ⟨part, rest, hlog, hpart, hrest, -, hsilent⟩ := hd.log
  exact { hd with log := ⟨part, rest, hlog, hpart.trans hab, hrest, fun hopen => absurd hopen hclosed, hsilent⟩ }

theorem Does.silent {a : List Message} (hd : Does id h h' a) (hclosed : ¬ h.isOpen id) : Does id h h' [] := by
  obtain ⟨part, rest, hlog, -, hrest, -, hsilent⟩ := hd.log
  obtain rfl := hsilent hclosed
  exact { hd with log := ⟨[], rest, hlog, prefix_rfl, hrest, fun hopen => absurd (hd.opened hopen) hclosed, hsilent⟩ }

/-- What ends a resume sends. -/
def resumed (h : Hub) (id count : Nat) : List Message :=
  match (h.connection id).resume with
  | none => []
  | some resume =>
    match resume.reason with
    | some reason => [.reply (.resyncRequired (h.cursors (h.connection id).owner) reason (h.connection id).scopes)]
    | none => (h.toReplay id resume.cursor).map .event ++ [.caughtUp (h.cursors (h.connection id).owner) count]

def Resume.left (resume : Option Resume) : Option Resume := resume.bind fun r => if r.reason.isSome then some r else none

theorem does_finishResume (h : Hub) (id : Nat) : ∃ count, Does id h (h.finishResume o socket id) (h.resumed id count) ∧
    ((h.finishResume o socket id).isOpen id →
      (h.finishResume o socket id).connection id = { h.connection id with resume := Resume.left (h.connection id).resume }) ∧
    (¬ (h.finishResume o socket id).isOpen id → Untold id h (h.finishResume o socket id)) := by
  unfold finishResume resumed
  dsimp only
  obtain hnone | ⟨⟨cursor, reason⟩, hsome⟩ := eq_none_or_eq_some (h.connection id).resume
  · rw [hnone]
    refine ⟨0, .refl id h, fun _ => ?_, fun _ => ⟨[], .refl id h, forall_mem_nil _⟩⟩
    show h.connection id = { h.connection id with resume := none }
    rw [← hnone]
  · rw [hsome]
    obtain hnone | ⟨reason', hreason⟩ := eq_none_or_eq_some reason
    · rw [hnone]
      exact does_replayFrom h id cursor
    · rw [hreason]
      refine ⟨0, does_send h id _, fun hopen => ?_, fun _ => ⟨_, does_send h id _, by simp [Message.caught]⟩⟩
      rw [send_connection hopen]
      show h.connection id = { h.connection id with resume := some ⟨cursor, some reason'⟩ }
      rw [← hreason, ← hsome]

theorem does_subscribe (h : Hub) (id : Nat) (r : Request) : ∃ count,
    Does id h (h.subscribe o socket id r)
      (.reply (.subscribed r.requestId r.scopes (h.cursors (h.connection id).owner)) :: (h.addSubscriptions id r.scopes).resumed id count) ∧
      ((h.subscribe o socket id r).isOpen id →
        Same { (h.addSubscriptions id r.scopes).connection id with resume := Resume.left (h.connection id).resume }
          ((h.subscribe o socket id r).connection id)) ∧
      (¬ (h.subscribe o socket id r).isOpen id → Untold id h (h.subscribe o socket id r)) := by
  have hadded := does_addSubscriptions h id r.scopes
  have hresume : ((h.addSubscriptions id r.scopes).connection id).resume = (h.connection id).resume := by
    by_cases hopen : h.isOpen id
    · rw [addSubscriptions_connection h id r.scopes hopen, Function.update_self]
    · rw [addSubscriptions_closed h id r.scopes hopen]
  unfold subscribe
  generalize h.addSubscriptions id r.scopes = added at *
  obtain ⟨hreply, hsame⟩ := @does_rememberSend o socket added id r.requestId (.subscribed r.requestId r.scopes (h.cursors (h.connection id).owner))
  generalize added.rememberSend o socket id r.requestId _ = told at *
  obtain ⟨count, hfinish, hconnection, huntold⟩ := @does_finishResume o socket told id
  refine ⟨count, ?_, fun hopen => ?_, fun hclosed => (hadded.nil_trans hreply).untold (by simp [Message.caught]) (huntold hclosed)⟩
  · by_cases hopen : told.isOpen id
    · have hresumed : told.resumed id count = added.resumed id count := by
        unfold resumed toReplay
        rw [(hsame hopen).resume, (hsame hopen).owner, (hsame hopen).scopes, hreply.cursors, hreply.replay]
      rw [hresumed] at hfinish
      exact (hadded.nil_trans hreply).trans hfinish
    · exact ((hadded.nil_trans hreply).trans_nil (hfinish.silent hopen)).gone (fun hopen' => hopen (hfinish.opened hopen'))
        (prefix_append [_] _)
  · have htold := hsame (hfinish.opened hopen)
    rw [hconnection hopen]
    exact ⟨htold.owner, htold.initialized, by rw [htold.resume, hresume], htold.scopes⟩

/-- What an acknowledged resync sends. -/
def resynced (h : Hub) (id : Nat) (r : Request) (cursor count : Nat) : Option Reason → List Message
  | some reason => [.reply (.resyncRequired (h.cursors (h.connection id).owner) reason (h.connection id).scopes)]
  | none => .reply (.subscribed r.requestId r.scopes (h.cursors (h.connection id).owner)) ::
      ((h.toReplay id cursor).map .event ++ [.caughtUp (h.cursors (h.connection id).owner) count])

theorem does_resyncAck (h : Hub) (id : Nat) (r : Request) (cursor : Nat) : ∃ count,
    let reason := h.resumeReason o (h.connection id).owner o.epoch cursor
    Does id h (h.resyncAck o socket id r cursor) ((h.replaceSubscriptions id r.scopes).resynced id r cursor count reason) ∧
      ((h.resyncAck o socket id r cursor).isOpen id →
        Same { (h.replaceSubscriptions id r.scopes).connection id with resume := reason.map fun reason => ⟨cursor, some reason⟩ }
          ((h.resyncAck o socket id r cursor).connection id)) ∧
      (¬ (h.resyncAck o socket id r cursor).isOpen id → Untold id h (h.resyncAck o socket id r cursor)) := by
  have hreplaced := does_replaceSubscriptions h id r.scopes
  unfold resyncAck
  dsimp only
  generalize h.replaceSubscriptions id r.scopes = replaced at *
  rw [← hreplaced.owner]
  obtain hnone | ⟨reason, hsome⟩ := eq_none_or_eq_some (h.resumeReason o (replaced.connection id).owner o.epoch cursor)
  · rw [hnone]
    dsimp only [resynced]
    obtain ⟨hreply, hsame⟩ := @does_rememberSend o socket replaced id r.requestId
      (.subscribed r.requestId r.scopes (replaced.cursors (replaced.connection id).owner))
    generalize replaced.rememberSend o socket id r.requestId _ = told at *
    obtain ⟨count, hreplay, hconnection, huntold⟩ := @does_replayFrom o socket told id cursor
    refine ⟨count, ?_, fun hopen => ?_, fun hclosed => (hreplaced.nil_trans hreply).untold (by simp [Message.caught]) (huntold hclosed)⟩
    · by_cases hopen : told.isOpen id
      · have hevents : told.toReplay id cursor = replaced.toReplay id cursor := by
          unfold toReplay
          rw [(hsame hopen).owner, (hsame hopen).scopes, hreply.replay]
        rw [hevents, hreply.cursors, (hsame hopen).owner] at hreplay
        exact (hreplaced.nil_trans hreply).trans hreplay
      · exact ((hreplaced.nil_trans hreply).trans_nil (hreplay.silent hopen)).gone (fun hopen' => hopen (hreplay.opened hopen'))
          (prefix_append [_] _)
    · have htold := hsame (hreplay.opened hopen)
      rw [hconnection hopen]
      exact ⟨htold.owner, htold.initialized, rfl, htold.scopes⟩
  · rw [hsome]
    dsimp only [resynced]
    have hset : Does id replaced (replaced.setConnection id { replaced.connection id with resume := some ⟨cursor, some reason⟩ }) [] :=
      does_setConnection rfl rfl rfl fun hi => hi
    obtain ⟨hreply, hsame⟩ := @does_rememberSend o socket
      (replaced.setConnection id { replaced.connection id with resume := some ⟨cursor, some reason⟩ }) id r.requestId
      (.resyncRequired (replaced.cursors (replaced.connection id).owner) reason (replaced.connection id).scopes)
    rw [setConnection_self] at hsame
    exact ⟨0, (hreplaced.nil_trans hset).nil_trans hreply, hsame, fun _ => ⟨_, (hreplaced.nil_trans hset).nil_trans hreply, by simp [Message.caught]⟩⟩

end Hub

end Cantrip.Live
