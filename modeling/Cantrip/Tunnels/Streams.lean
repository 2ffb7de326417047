import Cantrip.Lib.History
import Cantrip.Tunnels.Broker

/-!
# What the broker forwards

The log of a connection tells what each side has been sent. A forwarded frame is legal when it is numbered as
the next of its sender, an acceptance when there was none before it, and data when there was one, its
sender has not half-closed and the other side has granted the bytes. A connection of the broker keeps the
counters of its log (`Tracks`); while a frame is handled the one connection that it belongs to may be ahead of its
log, until the frame is forwarded or the connection is ended (`SoundBut`).
-/

namespace Cantrip.Tunnels

open Lib List Option

/-! ## Reading the log -/

/-- The frame of the sender was forwarded on connection `n`. -/
def Entry.forwards (n : Nat) (sender : Side) (entry : Entry) : Bool :=
  entry.connection = some n && entry.origin = .forwarded && entry.recipient = sender.other

def Kind.isAccepted : Kind → Bool
  | .accepted _ => true
  | _ => false

def Kind.isData : Kind → Bool
  | .data .. => true
  | _ => false

def Kind.isHalfClose : Kind → Bool
  | .halfClose _ => true
  | _ => false

/-- The frames of the sender that were forwarded on connection `n`. -/
def forwarded (n : Nat) (sender : Side) (log : List Entry) : List Entry := log.filter (Entry.forwards n sender)

def Accepted (n : Nat) (log : List Entry) : Prop := ∃ entry ∈ log, entry.forwards n .destination ∧ entry.header.kind.isAccepted

def HalfClosed (n : Nat) (sender : Side) (log : List Entry) : Prop :=
  ∃ entry ∈ log, entry.forwards n sender ∧ entry.header.kind.isHalfClose

def Entry.spends (n : Nat) (sender : Side) (entry : Entry) : Nat :=
  if entry.forwards n sender && entry.header.kind.isData then entry.header.kind.flow entry.payload else 0

/-- The bytes that a frame of this kind allows the other side to send. -/
def Kind.grant : Kind → Nat
  | .connect _ initialCreditBytes _ => initialCreditBytes.bytes
  | .accepted initialCreditBytes => initialCreditBytes.bytes
  | .credit _ bytes => bytes.bytes
  | _ => 0

def Entry.grants (n : Nat) (side : Side) (entry : Entry) : Nat :=
  if entry.forwards n side || (side = .source && entry.connection = some n && entry.origin = .connect) then
    entry.header.kind.grant
  else 0

def spent (n : Nat) (sender : Side) (log : List Entry) : Nat := (log.map (Entry.spends n sender)).sum

def granted (n : Nat) (side : Side) (log : List Entry) : Nat := (log.map (Entry.grants n side)).sum

/-- The number of the side's first frame that is forwarded: that of the source which opens is 0. -/
def Side.first : Side → Nat
  | .source => 1
  | .destination => 0

structure Entry.Legal (log : List Entry) (entry : Entry) (n : Nat) (sender : Side) : Prop where
  sequence : entry.header.sequence = sender.first + (forwarded n sender log).length
  accepted : entry.header.kind.isAccepted → sender = .destination ∧ ¬Accepted n log
  data : entry.header.kind.isData → Accepted n log ∧ ¬HalfClosed n sender log ∧
    spent n sender log + entry.header.kind.flow entry.payload ≤ granted n sender.other log

def Conforming (log : List Entry) : Prop :=
  Each (fun before entry => ∀ n sender, entry.forwards n sender → entry.Legal before n sender) log

structure Connection.Tracks {Time : Type} (c : Connection Time) (log : List Entry) : Prop where
  sequence : ∀ side, (c.flow side).sequence = side.first + (forwarded c.serial side log).length
  isOpen : c.isOpen ↔ Accepted c.serial log
  half : ∀ side, (c.flow side).half ↔ HalfClosed c.serial side log
  credit : ∀ side, spent c.serial side log + (c.flow side).credit ≤ granted c.serial side.other log
  bounded : ∀ side, (c.flow side).credit ≤ maxCreditBytes

section Log

variable {Time : Type} {n : Nat} {side : Side} {log : List Entry} {entry : Entry}

theorem forwarded_concat : forwarded n side (log ++ [entry]) =
    forwarded n side log ++ if entry.forwards n side then [entry] else [] := by
  unfold forwarded
  rw [filter_append]
  cases h : entry.forwards n side <;> simp [h]

theorem spent_concat : spent n side (log ++ [entry]) = spent n side log + entry.spends n side := by
  simp [spent]

theorem granted_concat : granted n side (log ++ [entry]) = granted n side log + entry.grants n side := by
  simp [granted]

theorem accepted_concat : Accepted n (log ++ [entry]) ↔
    Accepted n log ∨ (entry.forwards n .destination ∧ entry.header.kind.isAccepted) := by
  unfold Accepted
  simp [or_and_right, exists_or]

theorem halfClosed_concat : HalfClosed n side (log ++ [entry]) ↔
    HalfClosed n side log ∨ (entry.forwards n side ∧ entry.header.kind.isHalfClose) := by
  unfold HalfClosed
  simp [or_and_right, exists_or]

/-- The entry says nothing about connection `n`. -/
def Entry.foreign (n : Nat) (entry : Entry) : Bool := entry.connection ≠ some n || entry.origin = .closing

theorem forwards_foreign (h : entry.foreign n) (side : Side) : entry.forwards n side = false := by
  unfold Entry.foreign at h
  unfold Entry.forwards
  rcases Bool.or_eq_true _ _ ▸ h with h | h
  · have hne : entry.connection ≠ some n := by simpa using h
    simp [hne]
  · have horigin : entry.origin = .closing := by simpa using h
    simp [horigin]

theorem granted_foreign (h : entry.foreign n) (side : Side) : entry.grants n side = 0 := by
  have hforwards := forwards_foreign h side
  unfold Entry.foreign at h
  unfold Entry.grants
  rcases Bool.or_eq_true _ _ ▸ h with h | h
  · have hne : entry.connection ≠ some n := by simpa using h
    simp [hforwards, hne]
  · have horigin : entry.origin = .closing := by simpa using h
    simp [hforwards, horigin]

theorem Connection.Tracks.foreign {c : Connection Time} (h : c.Tracks log) (hforeign : entry.foreign c.serial) :
    c.Tracks (log ++ [entry]) := by
  have hforwards := forwards_foreign hforeign
  refine ⟨fun side => ?_, ?_, fun side => ?_, fun side => ?_, h.bounded⟩
  · rw [h.sequence side, forwarded_concat, hforwards]
    simp
  · rw [h.isOpen, accepted_concat, hforwards]
    simp
  · rw [h.half side, halfClosed_concat, hforwards]
    simp
  · rw [spent_concat, granted_concat, Entry.spends, hforwards, granted_foreign hforeign]
    simpa using h.credit side

end Log

/-! ## The invariant -/

namespace Broker

variable {Time : Type} {options : Options Time} {b : Broker Time}

structure SoundBut (options : Options Time) (b : Broker Time) (exempt : Option Nat) : Prop where
  keys : (b.connections.map Connection.key).Nodup
  serials : (b.connections.map Connection.serial).Nodup
  fresh : ∀ c ∈ b.connections, c.serial < b.opened
  routed : ∀ c ∈ b.connections, c.route ∈ b.routes
  routeKeys : (b.routes.map Route.key).Nodup
  numbered : ∀ i, ∀ route : Route, b.issued[i]? = some route → route.serial = i
  registered : b.routes ⊆ b.issued
  count : b.opened = b.connections.length + b.closed
  limit : b.connections.length ≤ options.maxConnections
  tunnelLimit : ∀ tunnel, (b.connections.filter fun c => c.route.registration.tunnel = tunnel).length ≤
    options.maxConnectionsPerTunnel
  tracks : ∀ c ∈ b.connections, some c.serial ≠ exempt → c.Tracks b.log
  conforming : Conforming b.log
  logged : ∀ entry ∈ b.log, ∀ n, entry.connection = some n → n < b.opened

/-- Between two calls. -/
abbrev Sound (options : Options Time) (b : Broker Time) : Prop := b.SoundBut options none

namespace SoundBut

variable {exempt : Option Nat} {n : Nat} {c c' : Connection Time}

theorem exempting (h : b.Sound options) (exempt : Option Nat) : b.SoundBut options exempt :=
  { h with tracks := fun c hc _ => h.tracks c hc (by simp) }

theorem count_irrelevant (h : b.SoundBut options exempt) (bytesFrom bytesTo rejected : Nat) (terminations : CloseCode → Nat) :
    { b with bytesFrom, bytesTo, rejected, terminations }.SoundBut options exempt :=
  ⟨h.keys, h.serials, h.fresh, h.routed, h.routeKeys, h.numbered, h.registered, h.count, h.limit, h.tunnelLimit, h.tracks,
    h.conforming, h.logged⟩

theorem put (h : b.SoundBut options (some c.serial)) (hfind : b.find c'.key = some c) (hserial : c'.serial = c.serial)
    (hroute : c'.route = c.route) : (b.put c').SoundBut options (some c.serial) := by
  have hmem : c ∈ b.connections := mem_of_find?_eq_some hfind
  have hcases : ∀ d ∈ (b.put c').connections, d = c' ∨ d ∈ b.connections := fun d hd => mem_put hfind hd
  have htunnels : ∀ tunnel, ((b.put c').connections.filter fun d => d.route.registration.tunnel = tunnel).length =
      (b.connections.filter fun d => d.route.registration.tunnel = tunnel).length := by
    intro tunnel
    have hmap := map_put (fun d : Connection Time => d.route.registration.tunnel) hfind (by rw [hroute])
    have hcount := congrArg (countP fun t => decide (t = tunnel)) hmap
    rw [countP_map, countP_map, countP_eq_length_filter, countP_eq_length_filter] at hcount
    exact hcount
  refine ⟨?_, ?_, ?_, ?_, h.routeKeys, h.numbered, h.registered, ?_, ?_, ?_, ?_, h.conforming, h.logged⟩
  · rw [Broker.put, map_key_put]
    exact h.keys
  · rw [Broker.put, map_put Connection.serial hfind hserial]
    exact h.serials
  · intro d hd
    rcases hcases d hd with rfl | hd
    · rw [hserial]
      exact h.fresh c hmem
    · exact h.fresh d hd
  · intro d hd
    rcases hcases d hd with rfl | hd
    · rw [hroute]
      exact h.routed c hmem
    · exact h.routed d hd
  · rw [Broker.put, length_put]
    exact h.count
  · rw [Broker.put, length_put]
    exact h.limit
  · intro tunnel
    rw [htunnels]
    exact h.tunnelLimit tunnel
  · intro d hd hne
    rcases hcases d hd with rfl | hd
    · exact absurd (by rw [hserial]) hne
    · exact h.tracks d hd hne

theorem record {entry : Entry} (h : b.SoundBut options exempt)
    (hlegal : ∀ n sender, entry.forwards n sender → entry.Legal b.log n sender)
    (hforeign : ∀ d ∈ b.connections, some d.serial ≠ exempt → entry.foreign d.serial)
    (hfresh : ∀ n, entry.connection = some n → n < b.opened) : (b.record entry).SoundBut options exempt := by
  refine ⟨h.keys, h.serials, h.fresh, h.routed, h.routeKeys, h.numbered, h.registered, h.count, h.limit, h.tunnelLimit, ?_,
    h.conforming.concat hlegal, ?_⟩
  · intro d hd hne
    exact (h.tracks d hd hne).foreign (hforeign d hd hne)
  · intro e he n hn
    rcases mem_append.mp he with he | he
    · exact h.logged e he n hn
    · obtain rfl := mem_singleton.mp he
      exact hfresh n hn

theorem finish (h : b.SoundBut options (some n)) (hexempt : ∀ d ∈ b.connections, d.serial = n → d.key = c.key) :
    (b.finish c).Sound options := by
  have hgone : ∀ d ∈ b.connections, d.key ≠ c.key → some d.serial ≠ some n := by
    intro d hd hkey hserial
    exact hkey (hexempt d hd (some.inj hserial))
  unfold Broker.finish
  cases hfind : b.find c.key with
  | none =>
    have hnone : ∀ d ∈ b.connections, d.key ≠ c.key := by
      intro d hd
      simpa using find?_eq_none.mp hfind d hd
    simp only [Option.isSome_none, Bool.false_eq_true, if_false]
    exact { h with tracks := fun d hd _ => h.tracks d hd (hgone d hd (hnone d hd)) }
  | some found =>
    have hsub : (b.connections.filter fun other => other.key ≠ c.key).Sublist b.connections := filter_sublist
    simp only [Option.isSome_some, if_true]
    refine ⟨h.keys.sublist (hsub.map _), h.serials.sublist (hsub.map _), fun d hd => h.fresh d (hsub.subset hd),
      fun d hd => h.routed d (hsub.subset hd), h.routeKeys, h.numbered, h.registered, ?_, hsub.length_le.trans h.limit,
      fun tunnel => (hsub.filter _).length_le.trans (h.tunnelLimit tunnel), ?_, h.conforming, h.logged⟩
    · obtain ⟨pre, post, hlist, hkey, -⟩ := exists_append_of_find? hfind
      have hnodup := h.keys
      have hcount := h.count
      rw [hlist] at hnodup hcount
      dsimp only
      rw [hlist, filter_key_ne c.key found pre post hnodup hkey]
      simp only [length_append, length_cons] at hcount ⊢
      omega
    · intro d hd _
      have hd' := mem_filter.mp hd
      exact h.tracks d hd'.1 (hgone d hd'.1 (by simpa using hd'.2))

theorem closeEntry_foreign (c : Connection Time) (reason : CloseCode) (recipient : Side) (delivered : Bool) (n : Nat) :
    (closeEntry c reason recipient delivered).foreign n := by
  simp [Entry.foreign, closeEntry]

theorem recordClose (h : b.SoundBut options exempt) (hfresh : c.serial < b.opened) (reason : CloseCode) (recipient : Side)
    (delivered : Bool) : (b.record (closeEntry c reason recipient delivered)).SoundBut options exempt := by
  refine h.record (fun n sender hforwards => ?_) (fun d _ _ => closeEntry_foreign c reason recipient delivered d.serial)
    fun n hn => ?_
  · rw [forwards_foreign (closeEntry_foreign c reason recipient delivered n)] at hforwards
    cases hforwards
  · obtain rfl : c.serial = n := by simpa [closeEntry] using hn
    exact hfresh

theorem terminate (h : b.SoundBut options (some n)) (hexempt : ∀ d ∈ b.connections, d.serial = n → d.key = c.key)
    (hfresh : c.serial < b.opened) (reason : CloseCode) (closing : Nat → Side → Bool) :
    (b.terminate c reason closing).Sound options := by
  unfold Broker.terminate
  split
  · have hcounted := h.count_irrelevant b.bytesFrom b.bytesTo b.rejected
      fun r => if r = reason then b.terminations r + 1 else b.terminations r
    exact ((hcounted.recordClose hfresh reason .source _).recordClose hfresh reason .destination _).finish hexempt
  · next hnone =>
    have hgone : ∀ d ∈ b.connections, d.key ≠ c.key := by
      intro d hd
      have hfind : b.find c.key = none := by simpa using hnone
      simpa using find?_eq_none.mp hfind d hd
    exact { h with tracks := fun d hd _ => h.tracks d hd fun hserial => hgone d hd (hexempt d hd (some.inj hserial)) }

theorem unique (h : b.SoundBut options exempt) (hc : c ∈ b.connections) (hc' : c' ∈ b.connections)
    (hserial : c'.serial = c.serial) : c' = c :=
  inj_on_of_nodup_map h.serials hc' hc hserial

theorem terminate_subset (b : Broker Time) (c : Connection Time) (reason : CloseCode) (closing : Nat → Side → Bool) :
    (b.terminate c reason closing).connections ⊆ b.connections := by
  unfold Broker.terminate
  split
  · unfold Broker.finish
    dsimp only
    split
    · exact filter_subset_self _
    · exact List.Subset.refl _
  · exact List.Subset.refl _

end SoundBut

end Broker

section Forward

open Broker (forwardEntry)

variable {Time : Type} {c c₀ : Connection Time} {log : List Entry} {sender : Side} {header : Header} {payload : Bytes}
  {delivered : Bool}

theorem forwards_forwardEntry (side : Side) :
    (forwardEntry c sender header payload delivered).forwards c.serial side = decide (side = sender) := by
  cases side <;> cases sender <;> simp [Entry.forwards, forwardEntry, Side.other]

theorem forwards_forwardEntry_iff {n : Nat} {side : Side} :
    (forwardEntry c sender header payload delivered).forwards n side ↔ n = c.serial ∧ side = sender := by
  constructor
  · intro h
    have hn : n = c.serial := by
      simp only [Entry.forwards, forwardEntry, Bool.and_eq_true] at h
      exact (some.inj (of_decide_eq_true h.1.1)).symm
    subst hn
    rw [forwards_forwardEntry] at h
    exact ⟨rfl, of_decide_eq_true h⟩
  · rintro ⟨rfl, rfl⟩
    rw [forwards_forwardEntry]
    simp

theorem spends_forwardEntry (side : Side) : (forwardEntry c sender header payload delivered).spends c.serial side =
    if side = sender ∧ header.kind.isData then header.kind.flow payload else 0 := by
  rw [Entry.spends, forwards_forwardEntry]
  simp [forwardEntry]

theorem grants_forwardEntry (side : Side) : (forwardEntry c sender header payload delivered).grants c.serial side =
    if side = sender then header.kind.grant else 0 := by
  rw [Entry.grants, forwards_forwardEntry]
  simp [forwardEntry]

structure Connection.Counts (c₀ c : Connection Time) (sender : Side) (kind : Kind) (payload : Bytes) : Prop where
  serial : c.serial = c₀.serial
  sequence : ∀ side, (c.flow side).sequence = (c₀.flow side).sequence + if side = sender then 1 else 0
  isOpen : c.isOpen ↔ c₀.isOpen ∨ (sender = .destination ∧ kind.isAccepted)
  half : ∀ side, (c.flow side).half ↔ (c₀.flow side).half ∨ (side = sender ∧ kind.isHalfClose)
  spent : (c.flow sender).credit + (if kind.isData then kind.flow payload else 0) ≤ (c₀.flow sender).credit
  granted : (c.flow sender.other).credit ≤ (c₀.flow sender.other).credit + kind.grant
  bounded : ∀ side, (c.flow side).credit ≤ maxCreditBytes

theorem Connection.Tracks.forward (h : c₀.Tracks log) (hc : c₀.Counts c sender header.kind payload) :
    c.Tracks (log ++ [forwardEntry c sender header payload delivered]) := by
  refine ⟨fun side => ?_, ?_, fun side => ?_, fun side => ?_, hc.bounded⟩
  · rw [hc.sequence side, h.sequence side, forwarded_concat, forwards_forwardEntry, hc.serial]
    by_cases hside : side = sender
    · simp [hside, Nat.add_assoc]
    · simp [hside]
  · rw [hc.isOpen, h.isOpen, accepted_concat, forwards_forwardEntry, hc.serial]
    have hside : Side.destination = sender ↔ sender = .destination := eq_comm
    simp [forwardEntry, hside]
  · rw [hc.half side, h.half side, halfClosed_concat, forwards_forwardEntry, hc.serial]
    simp [forwardEntry]
  · rw [spent_concat, granted_concat, spends_forwardEntry, grants_forwardEntry, hc.serial]
    have hcredit := h.credit side
    by_cases hside : side = sender
    · subst hside
      have hspent := hc.spent
      simp only [true_and, Side.other_ne, if_false]
      omega
    · obtain rfl : side = sender.other := by cases side <;> cases sender <;> simp_all [Side.other]
      have hgranted := hc.granted
      simp only [Side.other_ne, false_and, if_false, Side.other_other, if_true] at hcredit ⊢
      omega

end Forward

namespace Broker.SoundBut

variable {Time : Type} {options : Options Time} {b : Broker Time} {c : Connection Time} {sender : Side} {header : Header}
  {payload : Bytes} {answers : Answers Time}

theorem forward (h : b.SoundBut options (some c.serial)) (hfind : b.find c.key = some c)
    (hlegal : (forwardEntry c sender header payload answers.sent).Legal b.log c.serial sender) :
    (b.forward c sender header payload answers).SoundBut options (some c.serial) ∧
      (∀ d ∈ (b.forward c sender header payload answers).connections, d.serial = c.serial → d.key = c.key) ∧
      (c.Tracks (b.log ++ [forwardEntry c sender header payload answers.sent]) →
        (b.forward c sender header payload answers).Sound options) := by
  have hmem : c ∈ b.connections := mem_of_find?_eq_some hfind
  have hrecord : (b.record (forwardEntry c sender header payload answers.sent)).SoundBut options (some c.serial) := by
    refine h.record ?_ ?_ ?_
    · intro n side hforwards
      obtain ⟨rfl, rfl⟩ := forwards_forwardEntry_iff.mp hforwards
      exact hlegal
    · intro d _ hne
      have hserial : c.serial ≠ d.serial := fun he => hne (congrArg some he.symm)
      simp [Entry.foreign, forwardEntry, hserial]
    · intro n hn
      obtain rfl : c.serial = n := by simpa [forwardEntry] using hn
      exact h.fresh c hmem
  have hkey : ∀ d ∈ b.connections, d.serial = c.serial → d.key = c.key := fun d hd hserial => by
    rw [h.unique hmem hd hserial]
  have hforward : b.forward c sender header payload answers =
      if answers.sent then b.record (forwardEntry c sender header payload answers.sent)
      else (b.record (forwardEntry c sender header payload answers.sent)).terminate c .congested answers.closing := rfl
  rw [hforward]
  split
  · refine ⟨hrecord, hkey, fun htracks => { hrecord with tracks := fun d hd _ => ?_ }⟩
    by_cases hserial : d.serial = c.serial
    · rw [h.unique hmem hd hserial]
      exact htracks
    · exact hrecord.tracks d hd fun he => hserial (some.inj he)
  · have hended := hrecord.terminate hkey (h.fresh c hmem) .congested answers.closing
    have hsubset := terminate_subset (b.record (forwardEntry c sender header payload answers.sent)) c .congested
      answers.closing
    exact ⟨hended.exempting (some c.serial), fun d hd => hkey d (hsubset hd), fun _ => hended⟩

end Broker.SoundBut

end Cantrip.Tunnels
