import Cantrip.Lib.Retries
import Cantrip.Wire.Canonical
import Cantrip.WorkerLinks.Mailbox

/-!
# What goes through the mailbox

The messages that were taken have the sequences from 0 on, and the boxes hold those of them that no read has acknowledged
(`Boxed`). The signals that the worker was handed are, without immediate retries, those that were accepted and at most one more
(`Sent`); both are kept by every step.
-/

namespace Cantrip.WorkerLinks.Mailbox

open Lib Wire List

variable {F : Numbers}

/-! ## What a run has shown -/

def Label.takenBy (kind : Kind) : Label F → Option (Message F)
  | .taken k message => if k = kind then some message else none
  | _ => none

def Label.cursorOf (kind : Kind) : Label F → Option Nat
  | .mailbox after _ => after kind
  | _ => none

def Label.handedBy : Label F → Option (Message F)
  | .handed envelope => some envelope
  | _ => none

def Label.acceptedBy : Label F → Option (Message F)
  | .accepted envelope => some envelope
  | _ => none

def taken (kind : Kind) (labels : List (Label F)) : List (Message F) := labels.filterMap (Label.takenBy kind)

/-- The cursors that reads have come with. -/
def cursors (kind : Kind) (labels : List (Label F)) : List Nat := labels.filterMap (Label.cursorOf kind)

/-- The signals of the client that the worker was handed. -/
def handed (labels : List (Label F)) : List (Message F) := labels.filterMap Label.handedBy

/-- Those of the client's signals that were accepted. -/
def accepted (labels : List (Label F)) : List (Message F) := labels.filterMap Label.acceptedBy

/-- Labels that leave the boxes as they are. -/
def Label.Boxless (label : Label F) : Prop := ∀ kind, label.takenBy kind = none ∧ label.cursorOf kind = none

/-- Labels that leave the signals of the client as they are. -/
def Label.Sendless (label : Label F) : Prop := label.handedBy = none ∧ label.acceptedBy = none

/-! ## The boxes -/

section

variable (p : PeerState F) {kind k : Kind} (message : Message F)

theorem records_push_self : (p.push kind message).records kind = p.records kind ++ [message] := Function.update_self _ _ _

theorem records_push_of_ne (h : k ≠ kind) : (p.push kind message).records k = p.records k := Function.update_of_ne h _ _

theorem last_push_self : (p.push kind message).last kind = message.sequence := Function.update_self _ _ _

theorem last_push_of_ne (h : k ≠ kind) : (p.push kind message).last k = p.last k := Function.update_of_ne h _ _

end

structure Boxed (p : PeerState F) (labels : List (Label F)) : Prop where
  sequences : ∀ kind, (taken kind labels).map Message.sequence = List.range (taken kind labels).length
  last : ∀ kind, p.last kind + 1 = (taken kind labels).length
  cursors : ∀ kind, ∀ after ∈ cursors kind labels, (after : Int) ≤ p.last kind
  records : ∀ kind, p.records kind = (taken kind labels).filter fun m => (Mailbox.cursors kind labels).all (· < m.sequence)

variable {p p' : PeerState F} {labels : List (Label F)} {label : Label F} {kind : Kind} {message : Message F}

theorem boxed_start (peer : Authority) : Boxed ({ peer } : PeerState F) [] where
  sequences _ := rfl
  last _ := rfl
  cursors _ _ h := by cases h
  records _ := rfl

theorem Boxed.same (h : Boxed p labels) (hlabel : label.Boxless) (hrecords : p'.records = p.records) (hlast : p'.last = p.last) :
    Boxed p' (labels ++ [label]) := by
  have htaken : ∀ kind, taken kind (labels ++ [label]) = taken kind labels := by
    intro kind
    simp [taken, (hlabel kind).1]
  have hcursors : ∀ kind, Mailbox.cursors kind (labels ++ [label]) = Mailbox.cursors kind labels := by
    intro kind
    simp [Mailbox.cursors, (hlabel kind).2]
  refine ⟨?_, ?_, ?_, ?_⟩
  · intro kind
    rw [htaken]
    exact h.sequences kind
  · intro kind
    rw [htaken, hlast]
    exact h.last kind
  · intro kind after hafter
    rw [hcursors] at hafter
    rw [hlast]
    exact h.cursors kind after hafter
  · intro kind
    rw [htaken, hcursors, hrecords]
    exact h.records kind

theorem Boxed.push (h : Boxed p labels) (hsequence : (message.sequence : Int) = p.last kind + 1) :
    Boxed (p.push kind message) (labels ++ [.taken kind message]) := by
  have hlength : message.sequence = (taken kind labels).length := by
    have hlast := h.last kind
    omega
  have hself : taken kind (labels ++ [.taken kind message]) = taken kind labels ++ [message] := by simp [taken, Label.takenBy]
  have hother : ∀ k, k ≠ kind → taken k (labels ++ [.taken kind message]) = taken k labels := by
    intro k hk
    simp [taken, Label.takenBy, Ne.symm hk]
  have hcursors : ∀ k, Mailbox.cursors k (labels ++ [.taken kind message]) = Mailbox.cursors k labels := by
    intro k
    simp [Mailbox.cursors, Label.cursorOf]
  refine ⟨?_, ?_, ?_, ?_⟩
  · intro k
    by_cases hk : k = kind
    · rw [hk, hself, map_append, h.sequences, length_append, length_singleton, range_succ, hlength.symm]
      rfl
    · rw [hother k hk]
      exact h.sequences k
  · intro k
    by_cases hk : k = kind
    · rw [hk, hself, length_append, last_push_self, hlength]
      rfl
    · rw [hother k hk, last_push_of_ne p message hk]
      exact h.last k
  · intro k after hafter
    rw [hcursors] at hafter
    have hle := h.cursors k after hafter
    by_cases hk : k = kind
    · subst hk
      rw [last_push_self]
      omega
    · rw [last_push_of_ne p message hk]
      exact hle
  · intro k
    rw [hcursors]
    by_cases hk : k = kind
    · subst hk
      have hnew : (Mailbox.cursors k labels).all (· < message.sequence) = true := by
        rw [all_eq_true]
        intro after hafter
        have hle := h.cursors k after hafter
        rw [decide_eq_true_eq]
        omega
      rw [hself, filter_append, filter_singleton, hnew, records_push_self, h.records k]
      rfl
    · rw [hother k hk, records_push_of_ne p message hk]
      exact h.records k

theorem Boxed.retain (h : Boxed p labels) {after : Cursors} {answer : Option (List (Message F) × List (Message F))}
    (hvalid : ∀ kind, p.validCursor after kind = true) : Boxed (p.retain after) (labels ++ [.mailbox after answer]) := by
  have htaken : ∀ kind, taken kind (labels ++ [.mailbox after answer]) = taken kind labels := by
    intro kind
    simp [taken, Label.takenBy]
  have hcursors : ∀ kind, Mailbox.cursors kind (labels ++ [.mailbox after answer]) = Mailbox.cursors kind labels ++ (after kind).toList := by
    intro kind
    cases hafter : after kind <;> simp [Mailbox.cursors, Label.cursorOf, hafter]
  refine ⟨?_, ?_, ?_, ?_⟩
  · intro kind
    rw [htaken]
    exact h.sequences kind
  · intro kind
    rw [htaken]
    exact h.last kind
  · intro kind cursor hcursor
    rw [hcursors, mem_append] at hcursor
    rcases hcursor with hcursor | hcursor
    · exact h.cursors kind cursor hcursor
    · have hkind := hvalid kind
      rw [Option.mem_toList] at hcursor
      rw [PeerState.validCursor, hcursor] at hkind
      exact of_decide_eq_true hkind
  · intro kind
    rw [htaken, hcursors, PeerState.retain]
    dsimp only
    rw [h.records kind]
    cases hafter : after kind with
    | none => simp [unread]
    | some cursor => simp [unread, filter_filter, Bool.and_comm]

/-! ## The signals of the client -/

/-- The signal that has its turn is the next one, and once the worker has been handed it, it is the last one handed. -/
def OnTurn (count : Nat) (pending : List (Message F)) : Option (Turn F) → Prop
  | none => True
  | some (.allowed envelope) => envelope.sequence = count
  | some (.handed envelope) => pending = [envelope]
  | some (.confirmed envelope) => pending = [envelope]

/-- `pending` is what was handed last, unless that was accepted. -/
structure SentWith (s : State F) (labels : List (Label F)) (pending : List (Message F)) : Prop where
  sequences : (accepted labels).map Message.sequence = List.range (accepted labels).length
  runs : lastOfRuns Message.sequence (handed labels) = accepted labels ++ pending
  pending_le : pending.length ≤ 1
  next : ∀ m ∈ pending, m.sequence = (accepted labels).length
  client : s.current = true → s.listed = true → s.record.lastClient + 1 = (accepted labels).length
  turn : OnTurn (accepted labels).length pending s.record.signalQueue

def Sent (s : State F) (labels : List (Label F)) : Prop := ∃ pending, SentWith s labels pending

variable {s s' : State F} {envelope : Message F} {pending : List (Message F)}

theorem sent_start (workerId : String) (peer : Authority) : Sent (start workerId peer : State F) [] :=
  ⟨[], rfl, rfl, Nat.zero_le 1, fun _ h => (not_mem_nil h).elim, fun _ _ => rfl, trivial⟩

theorem handed_concat (labels : List (Label F)) {label : Label F} (h : label.handedBy = none) :
    handed (labels ++ [label]) = handed labels := by
  simp [handed, h]

theorem accepted_concat (labels : List (Label F)) {label : Label F} (h : label.acceptedBy = none) :
    accepted (labels ++ [label]) = accepted labels := by
  simp [accepted, h]

theorem SentWith.same (h : SentWith s labels pending) (hlabel : label.Sendless)
    (hpresent : s'.current = true → s'.listed = true → s.current = true ∧ s.listed = true)
    (hclient : s'.record.lastClient = s.record.lastClient)
    (hturn : OnTurn (accepted labels).length pending s'.record.signalQueue) : SentWith s' (labels ++ [label]) pending := by
  have haccepted := accepted_concat labels hlabel.2
  refine ⟨?_, ?_, h.pending_le, ?_, ?_, ?_⟩
  · rw [haccepted]
    exact h.sequences
  · rw [haccepted, handed_concat labels hlabel.1]
    exact h.runs
  · rw [haccepted]
    exact h.next
  · intro hcurrent hlisted
    obtain ⟨hcurrent, hlisted⟩ := hpresent hcurrent hlisted
    rw [haccepted, hclient]
    exact h.client hcurrent hlisted
  · rw [haccepted]
    exact hturn

theorem SentWith.hand (h : SentWith s labels pending) (hturn : s.record.signalQueue = some (.allowed envelope)) :
    SentWith (s.turn (some (.handed envelope))) (labels ++ [.handed envelope]) [envelope] := by
  have hsequence : envelope.sequence = (accepted labels).length := by
    have honTurn := h.turn
    rw [hturn] at honTurn
    exact honTurn
  have haccepted : accepted (labels ++ [.handed envelope]) = accepted labels := accepted_concat labels rfl
  have hhanded : handed (labels ++ [.handed envelope]) = handed labels ++ [envelope] := by simp [handed, Label.handedBy]
  have hlast : (handed labels).getLast? = (accepted labels ++ pending).getLast? := by rw [← h.runs, getLast?_lastOfRuns]
  refine ⟨?_, ?_, Nat.le_refl 1, ?_, ?_, rfl⟩
  · rw [haccepted]
    exact h.sequences
  · rw [haccepted, hhanded]
    match pending, h with
    | [], h =>
      rw [append_nil] at hlast
      have hnext : ∀ m, (handed labels).getLast? = some m → m.sequence ≠ envelope.sequence := by
        intro m hm heq
        rw [hlast] at hm
        have hmem : m.sequence ∈ (accepted labels).map Message.sequence := mem_map_of_mem (mem_of_getLast? hm)
        rw [h.sequences, mem_range] at hmem
        omega
      rw [lastOfRuns_next hnext, h.runs, append_nil]
    | [m], h =>
      have hm : (handed labels).getLast? = some m := by rw [hlast, getLast?_concat]
      have hretry : m.sequence = envelope.sequence := by rw [h.next m (by simp), hsequence]
      rw [lastOfRuns_retry hm hretry, h.runs, dropLast_concat]
    | _ :: _ :: _, h =>
      have hle := h.pending_le
      simp at hle
  · intro m hm
    rw [mem_singleton] at hm
    rw [hm, haccepted]
    exact hsequence
  · intro hcurrent hlisted
    rw [haccepted]
    exact h.client hcurrent hlisted

theorem SentWith.accept (h : SentWith s labels [envelope]) (hclient : s'.current = true → s'.listed = true →
    s'.record.lastClient = envelope.sequence) (hturn : s'.record.signalQueue = none) :
    SentWith s' (labels ++ [.accepted envelope]) [] := by
  have hsequence := h.next envelope (by simp)
  have haccepted : accepted (labels ++ [.accepted envelope]) = accepted labels ++ [envelope] := by
    simp [accepted, Label.acceptedBy]
  refine ⟨?_, ?_, Nat.zero_le 1, fun _ hm => (not_mem_nil hm).elim, ?_, ?_⟩
  · rw [haccepted, map_append, h.sequences, length_append, length_singleton, range_succ, hsequence.symm]
    rfl
  · rw [haccepted, handed_concat labels rfl, h.runs, append_nil]
  · intro hcurrent hlisted
    rw [hclient hcurrent hlisted, haccepted, length_append, hsequence]
    rfl
  · rw [hturn]
    trivial

/-! ## Steps -/

variable {number : Nat → F.Number}

theorem judge_taken {worker : String} {now : Int} (h : s.judge kind worker message now = .taken) :
    (message.sequence : Int) = s.record.last kind + 1 := by
  unfold State.judge at h
  dsimp only at h
  split at h
  · cases h
  · split at h
    · split at h
      · split at h <;> cases h
      · cases h
    · split at h
      · cases h
      · rename_i hroom
        simp only [Bool.or_eq_true, decide_eq_true_eq, not_or, ne_eq, not_not] at hroom
        exact hroom.1

theorem post_cases {authorized fromClient : Bool} {now : Int} (h : s.post authorized fromClient envelope now = (s', label)) :
    (s' = s ∧ label = .refused) ∨ (s' = { s with listed := false } ∧ label = .violation) ∨
      (s.current = true ∧ s.listed = true ∧ (envelope.sequence : Int) = s.record.lastClient + 1 ∧
        s' = s.turn (some (.allowed envelope)) ∧ label = .quiet) := by
  unfold State.post at h
  dsimp only at h
  split at h
  · cases h
    exact .inl ⟨rfl, rfl⟩
  · rename_i hallowed
    simp only [Bool.or_eq_true, Bool.not_eq_true', not_or, Bool.not_eq_false] at hallowed
    split at h
    · cases h
      exact .inl ⟨rfl, rfl⟩
    · rename_i hsequence
      split at h
      · cases h
        exact .inr (.inl ⟨rfl, rfl⟩)
      · cases h
        exact .inr (.inr ⟨hallowed.1.2, hallowed.2, not_not.1 hsequence, rfl, rfl⟩)

theorem read_cases {authorized : Bool} {after : Cursors} {now : Int} (h : s.read number authorized after now = (s', label)) :
    (s' = s ∧ label = .refused) ∨ ((∀ kind, s.record.validCursor after kind = true) ∧ s' = { s with record := s.record.retain after } ∧
      ∃ answer, label = .mailbox after answer ∧ ∀ signals advertisements, answer = some (signals, advertisements) →
        signals = unread (after .signal) (s.record.records .signal) ∧
          advertisements = unread (after .advertisement) (s.record.records .advertisement)) := by
  unfold State.read at h
  dsimp only at h
  split at h
  · cases h
    exact .inl ⟨rfl, rfl⟩
  · rename_i hvalid
    simp only [Bool.not_eq_true', Bool.not_eq_false, PeerState.readable, Bool.and_eq_true] at hvalid
    cases h
    refine .inr ⟨?_, rfl, _, rfl, ?_⟩
    · intro kind
      cases kind with
      | signal => exact hvalid.1.2
      | advertisement => exact hvalid.2
    · intro signals advertisements hanswer
      split at hanswer
      · cases hanswer
        exact ⟨rfl, rfl⟩
      · cases hanswer

structure Kept (s : State F) (labels : List (Label F)) : Prop where
  boxed : Boxed s.record labels
  sent : Sent s labels

theorem kept_start (workerId : String) (peer : Authority) : Kept (start workerId peer : State F) [] :=
  ⟨boxed_start peer, sent_start workerId peer⟩

theorem boxless_quiet : (.quiet : Label F).Boxless ∧ (.quiet : Label F).Sendless := ⟨fun _ => ⟨rfl, rfl⟩, rfl, rfl⟩

theorem boxless_refused : (.refused : Label F).Boxless ∧ (.refused : Label F).Sendless := ⟨fun _ => ⟨rfl, rfl⟩, rfl, rfl⟩

theorem boxless_violation : (.violation : Label F).Boxless ∧ (.violation : Label F).Sendless := ⟨fun _ => ⟨rfl, rfl⟩, rfl, rfl⟩

theorem Kept.same (h : Kept s labels) (hlabel : label.Boxless ∧ label.Sendless) (hrecords : s'.record.records = s.record.records)
    (hlast : s'.record.last = s.record.last) (hclient : s'.record.lastClient = s.record.lastClient)
    (hturn : s'.record.signalQueue = s.record.signalQueue ∨ s'.record.signalQueue = none)
    (hpresent : s'.current = true → s'.listed = true → s.current = true ∧ s.listed = true) : Kept s' (labels ++ [label]) := by
  obtain ⟨pending, hsent⟩ := h.sent
  refine ⟨h.boxed.same hlabel.1 hrecords hlast, pending, hsent.same hlabel.2 hpresent hclient ?_⟩
  rcases hturn with hturn | hturn
  · rw [hturn]
    exact hsent.turn
  · rw [hturn]
    trivial

theorem Kept.step {event : Event F} (h : Kept s labels) (hstep : step number s event = some (s', label)) :
    Kept s' (labels ++ [label]) := by
  have hid : s.current = true → s.listed = true → s.current = true ∧ s.listed = true := fun hc hl => ⟨hc, hl⟩
  have hnever : ∀ {c : Bool}, c = true → false = true → s.current = true ∧ s.listed = true := fun _ h => by cases h
  cases event with
  | install accepted sameGeneration =>
    dsimp only [Mailbox.step] at hstep
    split at hstep
    · cases hstep
    · split at hstep
      · cases hstep
        exact h.same boxless_quiet rfl rfl rfl (.inl rfl) hnever
      · split at hstep <;> cases hstep
        · exact h.same boxless_quiet rfl rfl rfl (.inl rfl) hid
        · exact h.same boxless_refused rfl rfl rfl (.inl rfl) hid
  | renew expiresAt =>
    cases hstep
    exact h.same boxless_quiet rfl rfl rfl (.inl rfl) hid
  | revoke =>
    cases hstep
    exact h.same boxless_quiet rfl rfl rfl (.inl rfl) hnever
  | revokeSession =>
    cases hstep
    exact h.same boxless_quiet rfl rfl rfl (.inl rfl) hnever
  | notify kind found worker message now =>
    dsimp only [Mailbox.step] at hstep
    split at hstep
    · split at hstep <;> cases hstep <;> rename_i hjudge
      · exact h.same boxless_violation rfl rfl rfl (.inl rfl) hid
      · exact h.same boxless_quiet rfl rfl rfl (.inl rfl) hid
      · obtain ⟨pending, hsent⟩ := h.sent
        exact ⟨h.boxed.push (judge_taken hjudge), pending, hsent.same ⟨rfl, rfl⟩ hid rfl hsent.turn⟩
    · split at hstep <;> cases hstep
      exact h.same boxless_quiet rfl rfl rfl (.inl rfl) hid
  | revoked =>
    dsimp only [Mailbox.step] at hstep
    split at hstep <;> cases hstep
    exact h.same boxless_quiet rfl rfl rfl (.inl rfl) hnever
  | read found authorized after now =>
    dsimp only [Mailbox.step] at hstep
    split at hstep
    · rcases read_cases (Option.some.inj hstep) with ⟨rfl, rfl⟩ | ⟨hvalid, rfl, answer, rfl, -⟩
      · exact h.same boxless_refused rfl rfl rfl (.inl rfl) hid
      · obtain ⟨pending, hsent⟩ := h.sent
        exact ⟨h.boxed.retain hvalid, pending, hsent.same ⟨rfl, rfl⟩ hid rfl hsent.turn⟩
    · split at hstep <;> cases hstep
      exact h.same boxless_refused rfl rfl rfl (.inl rfl) hid
  | post authorized fromClient envelope now =>
    dsimp only [Mailbox.step] at hstep
    split at hstep
    · rcases post_cases (Option.some.inj hstep) with ⟨rfl, rfl⟩ | ⟨rfl, rfl⟩ | ⟨hcurrent, hlisted, hsequence, rfl, rfl⟩
      · exact h.same boxless_refused rfl rfl rfl (.inl rfl) hid
      · exact h.same boxless_violation rfl rfl rfl (.inl rfl) hnever
      · obtain ⟨pending, hsent⟩ := h.sent
        have hclient := hsent.client hcurrent hlisted
        have hnext : envelope.sequence = (accepted labels).length := by omega
        exact ⟨h.boxed.same boxless_quiet.1 rfl rfl, pending, hsent.same boxless_quiet.2 hid rfl hnext⟩
    · cases hstep
  | hand =>
    dsimp only [Mailbox.step] at hstep
    split at hstep <;> cases hstep
    rename_i hturn
    obtain ⟨pending, hsent⟩ := h.sent
    exact ⟨h.boxed.same (fun _ => ⟨rfl, rfl⟩) rfl rfl, _, hsent.hand hturn⟩
  | answer accepted =>
    dsimp only [Mailbox.step] at hstep
    split at hstep
    · rename_i hturn
      obtain ⟨pending, hsent⟩ := h.sent
      have hpending := hsent.turn
      rw [hturn] at hpending
      dsimp only [OnTurn] at hpending
      split at hstep
      · cases hstep
        exact h.same boxless_refused rfl rfl rfl (.inr rfl) hid
      · split at hstep <;> cases hstep
        · exact ⟨h.boxed.same boxless_quiet.1 rfl rfl, pending, hsent.same boxless_quiet.2 hid rfl hpending⟩
        · rename_i hgone
          rw [hpending] at hsent
          refine ⟨h.boxed.same (fun _ => ⟨rfl, rfl⟩) rfl rfl, [], hsent.accept ?_ rfl⟩
          intro hcurrent hlisted
          refine absurd ?_ hgone
          rw [Bool.and_eq_true]
          exact ⟨hcurrent, hlisted⟩
    · cases hstep
  | cancel =>
    dsimp only [Mailbox.step] at hstep
    split at hstep <;> cases hstep
    exact h.same boxless_quiet rfl rfl rfl (.inr rfl) hid
  | commit =>
    dsimp only [Mailbox.step] at hstep
    split at hstep <;> cases hstep
    rename_i hturn
    obtain ⟨pending, hsent⟩ := h.sent
    have hpending := hsent.turn
    rw [hturn] at hpending
    dsimp only [OnTurn] at hpending
    rw [hpending] at hsent
    exact ⟨h.boxed.same (fun _ => ⟨rfl, rfl⟩) rfl rfl, [], hsent.accept (fun _ _ => rfl) rfl⟩

theorem kept_run {workerId : String} {peer : Authority} {events : List (Event F)}
    (h : runSteps (step number) (start workerId peer) events = some (s, labels)) : Kept s labels := by
  have hrun := @runSteps_invariant _ _ _ (step number) Kept (fun _ _ _ _ _ hkept hstep => hkept.step hstep) events _ [] s labels
    (kept_start workerId peer) h
  exact hrun

/-! ## Messages that come again, and those that do not fit -/

section

variable {now : Int} (h : Boxed s.record labels) (hown : s.record.foreign message now = false)

theorem Boxed.nodup (h : Boxed p labels) (kind : Kind) : ((p.records kind).map Message.sequence).Nodup := by
  rw [h.records kind]
  refine List.Nodup.sublist (filter_sublist.map _) ?_
  rw [h.sequences kind]
  exact nodup_range

include h hown

theorem judge_next (hsequence : message.sequence = (taken kind labels).length) :
    s.judge kind s.workerId message now = if s.record.full kind message then .violation else .taken := by
  have hlast := h.last kind
  unfold State.judge
  dsimp only
  rw [hown, if_neg (by simp), if_neg (by omega)]
  have hnext : ¬ (message.sequence : Int) ≠ s.record.last kind + 1 := by omega
  simp only [hnext, decide_false, Bool.false_or]

theorem judge_gap (hsequence : (taken kind labels).length < message.sequence) : s.judge kind s.workerId message now = .violation := by
  have hlast := h.last kind
  have hgap : (message.sequence : Int) ≠ s.record.last kind + 1 := by omega
  unfold State.judge
  dsimp only
  rw [hown, if_neg (by simp), if_neg (by omega), if_pos (by simp [hgap])]

theorem judge_repeat (hsequence : message.sequence < (taken kind labels).length) : s.judge kind s.workerId message now =
      if ∃ m ∈ s.record.records kind, m.sequence = message.sequence ∧ stringify m.value ≠ stringify message.value then .violation
      else .known := by
  have hlast := h.last kind
  have hnodup := h.nodup kind
  unfold State.judge
  dsimp only
  rw [hown, if_neg (by simp), if_pos (by omega)]
  split
  · rename_i m hfind
    have hmem := mem_of_find?_eq_some hfind
    have hsame : m.sequence = message.sequence := by simpa using find?_some hfind
    by_cases htext : stringify m.value ≠ stringify message.value
    · rw [if_pos htext, if_pos ⟨m, hmem, hsame, htext⟩]
    · rw [if_neg htext, if_neg]
      rintro ⟨other, hother, hotherSame, hdiffers⟩
      have heq : other = m := inj_on_of_nodup_map hnodup hother hmem (hotherSame.trans hsame.symm)
      exact htext (heq ▸ hdiffers)
  · rename_i hfind
    rw [if_neg]
    rintro ⟨other, hother, hotherSame, -⟩
    rw [find?_eq_none] at hfind
    exact hfind other hother (by simpa using hotherSame)

end

/-- A message from the worker of the session and of this peer changes nothing, is added, or ends the peer. -/
inductive Received (s : State F) (count : Nat) (kind : Kind) (message : Message F) : State F → Label F → Prop
  | known (hsequence : message.sequence < count)
      (hsame : ∀ m ∈ s.record.records kind, m.sequence = message.sequence → stringify m.value = stringify message.value) :
      Received s count kind message s .quiet
  | taken (hsequence : message.sequence = count) (hroom : s.record.full kind message = false) :
      Received s count kind message { s with record := s.record.push kind message } (.taken kind message)
  | violation (hviolates : count < message.sequence ∨ message.sequence = count ∧ s.record.full kind message = true ∨
      ∃ m ∈ s.record.records kind, m.sequence = message.sequence ∧ stringify m.value ≠ stringify message.value) :
      Received s count kind message { s with revoking := true } .violation

theorem notify_received {now : Int} (h : Boxed s.record labels) (hown : s.record.foreign message now = false)
    (hstep : step number s (.notify kind true s.workerId message now) = some (s', label)) :
    Received s (taken kind labels).length kind message s' label := by
  dsimp only [Mailbox.step] at hstep
  rw [if_pos rfl] at hstep
  rcases Nat.lt_trichotomy message.sequence (taken kind labels).length with hlt | heq | hgt
  · rw [judge_repeat h hown hlt] at hstep
    split at hstep <;> rename_i hjudge <;> split at hjudge <;> cases hjudge <;> cases hstep <;> rename_i hconflict
    · exact .violation (.inr (.inr hconflict))
    · refine .known hlt ?_
      intro m hm hsame
      by_contra hdiffers
      exact hconflict ⟨m, hm, hsame, hdiffers⟩
  · rw [judge_next h hown heq] at hstep
    cases hfull : s.record.full kind message with
    | true =>
      rw [hfull] at hstep
      cases hstep
      exact .violation (.inr (.inl ⟨heq, hfull⟩))
    | false =>
      rw [hfull] at hstep
      cases hstep
      exact .taken heq hfull
  · rw [judge_gap h hown hgt] at hstep
    cases hstep
    exact .violation (.inl hgt)

/-- The mailbox after any run: the messages of the worker, a read, a message that comes, the end of a peer, and the signals of
the client. -/
theorem peer_mailbox (number : Nat → F.Number) (workerId : String) (peer : Authority)
    (events : List (Event F)) (s : State F) (labels : List (Label F))
    (h : runSteps (step number) (start workerId peer) events = some (s, labels)) :
    (∀ kind, (taken kind labels).map Message.sequence = List.range (taken kind labels).length ∧
      s.record.records kind = (taken kind labels).filter fun m => (cursors kind labels).all (· < m.sequence)) ∧
    (∀ authorized after now s' signals advertisements,
      step number s (.read true authorized after now) = some (s', .mailbox after (some (signals, advertisements))) →
        signals = unread (after .signal) (s.record.records .signal) ∧
          advertisements = unread (after .advertisement) (s.record.records .advertisement)) ∧
    (∀ authorized after now, s.record.readable authorized after now = true →
      fits number s.record.peer (unread (after .signal) (s.record.records .signal))
        (unread (after .advertisement) (s.record.records .advertisement)) = true →
      step number s (.read true authorized after now) = some ({ s with record := s.record.retain after },
        .mailbox after (some (unread (after .signal) (s.record.records .signal),
          unread (after .advertisement) (s.record.records .advertisement))))) ∧
    (∀ kind message now s' label, s.record.foreign message now = false →
      step number s (.notify kind true s.workerId message now) = some (s', label) →
        Received s (taken kind labels).length kind message s' label) ∧
    (s.revoking = true → step number s .revoked = some ({ s with revoking := false, listed := false }, .quiet)) ∧
    ∃ pending, pending.length ≤ 1 ∧ lastOfRuns Message.sequence (handed labels) = accepted labels ++ pending ∧
      (accepted labels ++ pending).map Message.sequence = List.range (accepted labels ++ pending).length := by
  have hkept := kept_run h
  refine ⟨?_, ?_, ?_, ?_, ?_, ?_⟩
  · intro kind
    exact ⟨hkept.boxed.sequences kind, hkept.boxed.records kind⟩
  · intro authorized after now s' signals advertisements hstep
    dsimp only [Mailbox.step] at hstep
    rw [if_pos rfl] at hstep
    rcases read_cases (Option.some.inj hstep) with ⟨-, hlabel⟩ | ⟨-, -, answer, hlabel, hanswer⟩
    · cases hlabel
    · cases hlabel
      exact hanswer signals advertisements rfl
  · intro authorized after now hreadable hfits
    simp [Mailbox.step, State.read, PeerState.retain, hreadable, hfits]
  · intro kind message now s' label hown hstep
    exact notify_received hkept.boxed hown hstep
  · intro hrevoking
    dsimp only [Mailbox.step]
    rw [if_pos hrevoking]
  · obtain ⟨pending, hsent⟩ := hkept.sent
    refine ⟨pending, hsent.pending_le, hsent.runs, ?_⟩
    match pending, hsent with
    | [], hsent =>
      rw [append_nil]
      exact hsent.sequences
    | [m], hsent =>
      rw [map_append, hsent.sequences, length_append, length_singleton, range_succ, map_singleton, hsent.next m (by simp)]
    | _ :: _ :: _, hsent =>
      have hle := hsent.pending_le
      simp at hle

/-! ## An acknowledged message, and a signal that the worker does not take -/

namespace Sample

def peer : Authority := ⟨"peer", "session", 1, "lan", 100⟩

def numbered (sequence : Nat) (value : Value Wire.Sample.digits) : Message Wire.Sample.digits :=
  ⟨"session", 1, "lan", sequence, value⟩

def afterFirst : Cursors
  | .signal => some 0
  | .advertisement => none

def digit (n : Nat) : Wire.Sample.digits.Number := Wire.Sample.readDigit [Char.ofNat (48 + n)]

/-- The first of two signals is acknowledged and then comes again with another content; the worker refuses the client's signal. -/
def events : List (Event Wire.Sample.digits) :=
  [.install true true, .notify .signal true "worker" (numbered 0 .null) 0, .notify .signal true "worker" (numbered 1 .null) 0,
    .read true true afterFirst 0, .notify .signal true "worker" (numbered 0 (.bool true)) 0, .post true true (numbered 0 .null) 0,
    .hand, .answer false]

def ready : State Wire.Sample.digits := { workerId := "worker", record := { ready := true, peer } }

def first : State Wire.Sample.digits := { ready with record := ready.record.push .signal (numbered 0 .null) }

def second : State Wire.Sample.digits := { first with record := first.record.push .signal (numbered 1 .null) }

theorem size_first : first.record.size = 47 := by
  have hsize : first.record.size = byteLength (boxes [numbered 0 .null] []) := rfl
  rw [hsize, byteLength, stringify_eq]
  decide +kernel

theorem size_second : second.record.size = 52 := by
  have hsize : second.record.size = byteLength (boxes [numbered 0 .null, numbered 1 .null] []) := rfl
  rw [hsize, byteLength, stringify_eq]
  decide +kernel

theorem fits_second : fits digit peer [numbered 1 .null] [] = true := by
  rw [fits, byteLength, stringify_eq]
  decide +kernel

theorem boxed_ready : Boxed ready.record [] := ⟨fun _ => rfl, fun _ => rfl, fun _ _ h => (not_mem_nil h).elim, fun _ => rfl⟩

theorem notify_first : step digit ready (.notify .signal true "worker" (numbered 0 .null) 0) =
    some (first, .taken .signal (numbered 0 .null)) := by
  have hfull : ready.record.full .signal (numbered 0 .null) = false := by
    have hsize : (ready.record.push .signal (numbered 0 .null)).size = 47 := size_first
    rw [PeerState.full, hsize]
    decide
  have hjudge : ready.judge .signal "worker" (numbered 0 .null) 0 =
      if ready.record.full .signal (numbered 0 .null) then .violation else .taken := judge_next boxed_ready rfl rfl
  rw [hfull] at hjudge
  simp only [step, if_true, hjudge]
  rfl

theorem notify_second : step digit first (.notify .signal true "worker" (numbered 1 .null) 0) =
    some (second, .taken .signal (numbered 1 .null)) := by
  have hfull : first.record.full .signal (numbered 1 .null) = false := by
    have hsize : (first.record.push .signal (numbered 1 .null)).size = 52 := size_second
    rw [PeerState.full, hsize]
    decide
  have hboxed : Boxed first.record [.taken .signal (numbered 0 .null)] := boxed_ready.push rfl
  have hjudge : first.judge .signal "worker" (numbered 1 .null) 0 =
      if first.record.full .signal (numbered 1 .null) then .violation else .taken := judge_next hboxed rfl rfl
  rw [hfull] at hjudge
  simp only [step, if_true, hjudge]
  rfl

theorem events_run : ∃ s labels, runSteps (step digit) (start "worker" peer) events = some (s, labels) ∧
    s.record.records .signal = [numbered 1 .null] ∧ handed labels = [numbered 0 .null] ∧ accepted labels = [] ∧
    s.record.readable true (fun _ => none) 0 = true ∧ s.record.peer = peer ∧ s.record.records .advertisement = [] := by
  have hinstall : step digit (start "worker" peer) (.install true true) = some (ready, .quiet) := rfl
  simp only [events, runSteps, hinstall, notify_first, notify_second]
  exact ⟨_, _, rfl, rfl, rfl, rfl, rfl, rfl, rfl⟩

theorem peer_mailbox_two : ∃ s labels, runSteps (step digit) (start "worker" peer) events = some (s, labels) ∧
    s.record.records .signal = (taken .signal labels).filter (fun m => (cursors .signal labels).all (· < m.sequence)) ∧
    step digit s (.read true true (fun _ => none) 0) = some ({ s with record := s.record.retain fun _ => none },
      .mailbox (fun _ => none) (some ([numbered 1 .null], []))) := by
  obtain ⟨s, labels, hrun, hstored, -, -, hreadable, hpeer, hnone⟩ := events_run
  obtain ⟨hboxes, -, hread, -⟩ := peer_mailbox digit "worker" peer events s labels hrun
  have hanswer := hread true (fun _ => none) 0 hreadable
  rw [hpeer, hstored, hnone] at hanswer
  exact ⟨s, labels, hrun, (hboxes .signal).2, hanswer fits_second⟩

/-- What is stored need not begin with 0, and a signal may be handed that is never accepted. -/
theorem stored_from_one : (¬ ∀ events s labels, runSteps (step digit) (start "worker" peer) events = some (s, labels) →
      (s.record.records .signal).map Message.sequence = List.range (s.record.records .signal).length) ∧
    ¬ ∀ events s labels, runSteps (step digit) (start "worker" peer) events = some (s, labels) →
      lastOfRuns Message.sequence (handed labels) = accepted labels := by
  obtain ⟨s, labels, hrun, hstored, hhanded, haccepted, -⟩ := events_run
  refine ⟨?_, ?_⟩
  · intro h
    have hrange := h events s labels hrun
    rw [hstored] at hrange
    cases hrange
  · intro h
    have hall := h events s labels hrun
    rw [hhanded, haccepted] at hall
    cases hall

end Sample

end Cantrip.WorkerLinks.Mailbox
