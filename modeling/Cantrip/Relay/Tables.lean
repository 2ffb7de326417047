import Cantrip.Relay.Moves
import Mathlib.Data.List.Induction

/-!
# The channels of a relay connection

Channels have distinct names and numbers. A channel counts what the log has of it (`Channel.Tracks`), every frame
is the next of its sender (`Conforming`), and a channel that was opened is open, released for a reason that the log
shows or retired with the connection.
-/

namespace Cantrip.Relay

open Lib List

/-! ## Legal logs -/

/-- The frame of the client is the next on channel `n`. -/
def ClientNext (before : List Event) (n : Nat) (frame : Frame) : Prop :=
  (admitted n before = [] ∧ frame.header.kind.isOpen) ∨
    ∃ first, (admitted n before).head? = some first ∧ frame.header.kind.isOpen = false ∧
      frame.header.channelId = first.header.channelId ∧
      frame.header.sequence = first.header.sequence + (admitted n before).length

/-- The frame of the worker is the next on channel `n`. -/
def WorkerNext (before : List Event) (n : Nat) (frame : Frame) : Prop :=
  frame.header.sequence = (arrived n before).length ∧ (frame.header.kind.answers ↔ arrived n before = []) ∧
    ∃ first, (admitted n before).head? = some first ∧ first.header.agrees frame.header

/-- The close frame of the client was handed over, or an end came from the worker. -/
def MayRelease (before : List Event) (n : Nat) : Prop :=
  (∃ frame, (handed n before).getLast? = some frame ∧ frame.header.kind = .close) ∨
    ∃ frame, (arrived n before).getLast? = some frame ∧ frame.header.kind.ends

/-- The close frame for channel `n`: one more than the last frame handed over, when there is one and a number
for it. -/
def ClosesAfter (before : List Event) (n : Nat) (header : Option Header) : Prop :=
  (handed n before = [] ∧ header = none) ∨
    ∃ first last, (admitted n before).head? = some first ∧ (handed n before).getLast? = some last ∧
      ((last.header.sequence = maxSequence ∧ header = none) ∨
        ∃ close, header = some close ∧ close.kind = .close ∧ close.sequence = last.header.sequence + 1 ∧
          first.header.agrees close)

def Event.Legal (before : List Event) : Event → Prop
  | .fromClient n frame _ => ClientNext before n frame
  | .fromWorker n frame => WorkerNext before n frame
  | .toClient _ _ => True
  | .released n => MayRelease before n
  | .retired _ _ => True

def Conforming (log : List Event) : Prop := Each Event.Legal log

/-! ## Channels and their log -/

def lastSequence (frames : List Frame) : Int := (frames.getLast?.map fun frame => (frame.header.sequence : Int)).getD (-1)

@[simp] theorem lastSequence_nil : lastSequence [] = -1 := rfl

@[simp] theorem lastSequence_concat (frames : List Frame) (frame : Frame) :
    lastSequence (frames ++ [frame]) = frame.header.sequence := by
  simp [lastSequence]

structure Channel.Tracks (c : Channel) (log : List Event) : Prop where
  first : ∃ frame, (admitted c.serial log).head? = some frame ∧ frame.header = c.header
  client : c.clientSequence + 1 = c.header.sequence + (admitted c.serial log).length
  delivered : c.delivered = lastSequence (handed c.serial log)
  worker : c.workerSequence + 1 = (arrived c.serial log).length
  grant : ∃ resource, c.header.kind = .open c.grant resource

/-- The event changes no counter of channel `n`. -/
def Event.foreign (n : Nat) (event : Event) : Prop :=
  event.admits n = none ∧ event.hands n = none ∧ event.arrives n = none

theorem foreign_of_ne {n : Nat} {event : Event} (h : event.channel ≠ n) : event.foreign n := by
  cases event <;> simp_all [Event.channel, Event.foreign, Event.admits, Event.hands, Event.arrives]

theorem Channel.Tracks.foreign {c : Channel} {log : List Event} {event : Event} (h : c.Tracks log)
    (hforeign : event.foreign c.serial) : c.Tracks (log ++ [event]) := by
  obtain ⟨hadmits, hhands, harrives⟩ := hforeign
  have hadmitted : admitted c.serial (log ++ [event]) = admitted c.serial log := by simp [admitted_concat, hadmits]
  have hhanded : handed c.serial (log ++ [event]) = handed c.serial log := by simp [handed_concat, hhands]
  have harrived : arrived c.serial (log ++ [event]) = arrived c.serial log := by simp [arrived_concat, harrives]
  exact ⟨by rw [hadmitted]; exact h.first, by rw [hadmitted]; exact h.client, by rw [hhanded]; exact h.delivered,
    by rw [harrived]; exact h.worker, h.grant⟩

section Frames

variable {c : Channel} {log : List Event} {frame : Frame} {taken : Bool}

theorem head?_append_of_head? {frames more : List Frame} {first : Frame} (h : frames.head? = some first) :
    (frames ++ more).head? = some first := by
  rw [head?_append, h, Option.some_or]

theorem Channel.Tracks.clientNext (h : c.Tracks log) (hkind : frame.header.kind.isOpen = false)
    (hid : c.id = frame.header.channelId) (hsequence : frame.header.sequence = c.clientSequence + 1) :
    ClientNext log c.serial frame := by
  obtain ⟨first, hfirst, hheader⟩ := h.first
  refine .inr ⟨first, hfirst, hkind, ?_, ?_⟩
  · rw [hheader, ← hid]
    rfl
  · rw [hheader, hsequence, h.client]

theorem Channel.Tracks.advance (h : c.Tracks log) (hsequence : frame.header.sequence = c.clientSequence + 1) :
    (Connection.advance frame taken c).Tracks (log ++ [.fromClient c.serial frame taken]) := by
  obtain ⟨first, hfirst, hheader⟩ := h.first
  have hclient := h.client
  refine ⟨⟨first, ?_, hheader⟩, ?_, ?_, ?_, h.grant⟩
  · dsimp only [Connection.advance]
    rw [admitted_concat]
    exact head?_append_of_head? hfirst
  · dsimp only [Connection.advance]
    rw [admitted_concat]
    simp only [Event.admits, if_true, Option.toList_some, length_append, length_singleton]
    omega
  · dsimp only [Connection.advance]
    rw [handed_concat]
    cases taken
    · simpa [Event.hands] using h.delivered
    · simp [Event.hands]
  · dsimp only [Connection.advance]
    rw [arrived_concat]
    simpa [Event.arrives] using h.worker

theorem Channel.Tracks.workerNext (h : c.Tracks log) (hexpects : c.expects frame.header) : WorkerNext log c.serial frame := by
  obtain ⟨first, hfirst, hheader⟩ := h.first
  have hworker := h.worker
  have hexpects' : (c.header.agrees frame.header ∧ (frame.header.sequence : Int) = c.workerSequence + 1) ∧
      frame.header.kind.answers = decide (c.workerSequence < 0) := by
    simpa [Channel.expects] using hexpects
  obtain ⟨⟨hagrees, hsequence⟩, hanswers⟩ := hexpects'
  refine ⟨by omega, ?_, first, hfirst, by rw [hheader]; exact hagrees⟩
  rw [hanswers, decide_eq_true_iff, ← length_eq_zero_iff]
  omega

theorem Channel.Tracks.hear (h : c.Tracks log) (hexpects : c.expects frame.header) :
    (Connection.hear frame c).Tracks (log ++ [.fromWorker c.serial frame]) := by
  obtain ⟨first, hfirst, hheader⟩ := h.first
  have hsequence := (h.workerNext hexpects).1
  refine ⟨⟨first, ?_, hheader⟩, ?_, ?_, ?_, h.grant⟩
  · dsimp only [Connection.hear]
    rw [admitted_concat]
    exact head?_append_of_head? hfirst
  · dsimp only [Connection.hear]
    rw [admitted_concat]
    simpa [Event.admits] using h.client
  · dsimp only [Connection.hear]
    rw [handed_concat]
    simpa [Event.hands] using h.delivered
  · dsimp only [Connection.hear]
    rw [arrived_concat, hsequence]
    simp [Event.arrives]

theorem counts_eq_nil {n : Nat} (h : ∀ event ∈ log, event.foreign n) :
    admitted n log = [] ∧ handed n log = [] ∧ arrived n log = [] :=
  ⟨filterMap_eq_nil_iff.mpr fun event hevent => (h event hevent).1,
    filterMap_eq_nil_iff.mpr fun event hevent => (h event hevent).2.1,
    filterMap_eq_nil_iff.mpr fun event hevent => (h event hevent).2.2⟩

theorem Channel.Tracks.opened {n : Nat} {grant : Utf16} {resource : Resource} (hlog : ∀ event ∈ log, event.foreign n)
    (hkind : frame.header.kind = .open grant resource) :
    (Connection.advance frame taken (Connection.openChannel n grant frame.header)).Tracks
      (log ++ [.fromClient n frame taken]) := by
  obtain ⟨hadmitted, hhanded, harrived⟩ := counts_eq_nil hlog
  refine ⟨⟨frame, ?_, rfl⟩, ?_, ?_, ?_, ⟨resource, hkind⟩⟩
  · simp [Connection.advance, Connection.openChannel, admitted_concat, hadmitted, Event.admits]
  · simp [Connection.advance, Connection.openChannel, admitted_concat, hadmitted, Event.admits]
  · cases taken <;> simp [Connection.advance, Connection.openChannel, handed_concat, hhanded, Event.hands, lastSequence]
  · simp [Connection.advance, Connection.openChannel, arrived_concat, harrived, Event.arrives]

end Frames

namespace Connection

variable {attended : Prop} {limits : Lane → Limit} {k k' : Connection}

def all (k : Connection) : List Channel := k.channels ++ k.closing

structure Tables (k : Connection) : Prop where
  ids : (k.all.map Channel.id).Nodup
  serials : (k.all.map Channel.serial).Nodup
  fresh : ∀ c ∈ k.all, c.serial < k.opened
  logged : ∀ event ∈ k.log, ∀ n, k.opened ≤ n → event.foreign n
  current : k.closed → k.current = false
  tracks : ∀ c ∈ k.all, c.Tracks k.log
  conforming : Conforming k.log

namespace Tables

theorem shrink (h : k.Tables) (hall : k'.all.Subperm k.all) (hopened : k'.opened = k.opened) (hlog : k'.log = k.log)
    (hcurrent : k'.closed → k'.current = false) : k'.Tables := by
  refine ⟨nodup_map_of_subperm hall h.ids, nodup_map_of_subperm hall h.serials, ?_, ?_, hcurrent, ?_, ?_⟩
  · intro c hc
    rw [hopened]
    exact h.fresh c (hall.subset hc)
  · rw [hlog, hopened]
    exact h.logged
  · intro c hc
    rw [hlog]
    exact h.tracks c (hall.subset hc)
  · rw [hlog]
    exact h.conforming

theorem unique (h : k.Tables) {c c' : Channel} (hc : c ∈ k.all) (hc' : c' ∈ k.all) (hserial : c'.serial = c.serial) : c' = c :=
  inj_on_of_nodup_map h.serials hc' hc hserial

theorem record {event : Event} (h : k.Tables) (hlegal : event.Legal k.log) (hforeign : ∀ c ∈ k.all, event.foreign c.serial)
    (hfresh : ∀ n, k.opened ≤ n → event.foreign n) : (k.record event).Tables := by
  refine ⟨h.ids, h.serials, h.fresh, ?_, h.current, fun c hc => (h.tracks c hc).foreign (hforeign c hc),
    h.conforming.concat hlegal⟩
  intro e he
  rcases mem_append.mp he with he | he
  · exact h.logged e he
  · rw [mem_singleton.mp he]
    exact hfresh

theorem update {n : Nat} {f : Channel → Channel} {event : Event} (h : k.Tables)
    (hf : ∀ c, (f c).serial = c.serial ∧ (f c).header = c.header) (hchannel : event.channel = n) (hn : n < k.opened)
    (hlegal : event.Legal k.log) (htracks : ∀ c ∈ k.all, c.serial = n → (f c).Tracks (k.log ++ [event])) :
    ((k.modify n f).record event).Tables := by
  have hall : ((k.modify n f).record event).all = k.all.map fun c => if c.serial = n then f c else c :=
    (map_append).symm
  have hserial : ∀ c, (if c.serial = n then f c else c).serial = c.serial := by
    intro c
    split
    · exact (hf c).1
    · rfl
  have hid : ∀ c, (if c.serial = n then f c else c).id = c.id := by
    intro c
    unfold Channel.id
    split
    · rw [(hf c).2]
    · rfl
  refine ⟨?_, ?_, fun c hc => ?_, ?_, h.current, fun c hc => ?_, h.conforming.concat hlegal⟩
  · rw [hall, map_map]
    exact (map_congr_left fun c _ => hid c) ▸ h.ids
  · rw [hall, map_map]
    exact (map_congr_left fun c _ => hserial c) ▸ h.serials
  · rw [hall] at hc
    obtain ⟨c₀, hc₀, rfl⟩ := mem_map.mp hc
    rw [hserial]
    exact h.fresh c₀ hc₀
  · intro e he
    rcases mem_append.mp he with he | he
    · exact h.logged e he
    · rw [mem_singleton.mp he]
      intro m hm
      have hm' : k.opened ≤ m := hm
      exact foreign_of_ne (by omega)
  · rw [hall] at hc
    obtain ⟨c₀, hc₀, rfl⟩ := mem_map.mp hc
    by_cases hn' : c₀.serial = n
    · rw [if_pos hn']
      exact htracks c₀ hc₀ hn'
    · rw [if_neg hn']
      exact (h.tracks c₀ hc₀).foreign (foreign_of_ne (hchannel ▸ fun he => hn' he.symm))

theorem quiet (h : k.Tables) (hquiet : Quiet k k') : k'.Tables := by
  have hall : k'.all = k.all := by rw [all, all, hquiet.channels, hquiet.closing]
  refine h.shrink (hall ▸ List.Subperm.refl _) hquiet.opened hquiet.log fun hclosed => ?_
  rw [hquiet.closed] at hclosed
  cases hcurrent : k'.current
  · rfl
  · rw [← h.current hclosed, hquiet.current hcurrent]

theorem mem_all {id : Utf16} {c : Channel} (h : find k.channels id = some c) : c ∈ k.all :=
  mem_append_left _ (mem_of_find?_eq_some h)

theorem counted {c : Channel} {frame : Frame} {taken : Bool} (h : k.Tables) (hkind : frame.header.kind.isOpen = false)
    (hfound : find k.channels frame.header.channelId = some c) (hsequence : frame.header.sequence = c.clientSequence + 1) :
    (k.counted c.serial frame taken).Tables := by
  have hmem := mem_all hfound
  have hid : c.id = frame.header.channelId := by simpa using find?_some hfound
  have hupdate : ((k.modify c.serial (advance frame taken)).record (.fromClient c.serial frame taken)).Tables := by
    refine h.update (fun _ => ⟨rfl, rfl⟩) rfl (h.fresh c hmem) ((h.tracks c hmem).clientNext hkind hid hsequence) ?_
    intro c' hc' hserial
    rw [h.unique hmem hc' hserial]
    exact (h.tracks c hmem).advance hsequence
  exact ⟨hupdate.ids, hupdate.serials, hupdate.fresh, hupdate.logged, hupdate.current, hupdate.tracks, hupdate.conforming⟩

theorem heard {c : Channel} {frame : Frame} (h : k.Tables) (hmem : c ∈ k.all) (hexpects : c.expects frame.header) :
    (k.heard c.serial frame).Tables := by
  refine h.update (fun _ => ⟨rfl, rfl⟩) rfl (h.fresh c hmem) ((h.tracks c hmem).workerNext hexpects) ?_
  intro c' hc' hserial
  rw [h.unique hmem hc' hserial]
  exact (h.tracks c hmem).hear hexpects

theorem opening {frame : Frame} {grant : Utf16} {resource : Resource} {taken : Bool} (h : k.Tables)
    (hkind : frame.header.kind = .open grant resource) (hchannels : find k.channels frame.header.channelId = none)
    (hclosing : find k.closing frame.header.channelId = none) :
    ((k.withChannel grant frame).counted k.opened frame taken).Tables := by
  unfold Connection.counted
  rw [withChannel_modify grant frame _ h.fresh]
  generalize hc : advance frame taken (openChannel k.opened grant frame.header) = c
  have hserial : c.serial = k.opened := by rw [← hc]; rfl
  have hid : c.id = frame.header.channelId := by rw [← hc]; rfl
  have hnew : ∀ d ∈ k.all, d.id ≠ c.id := by
    intro d hd
    rw [hid]
    rcases mem_append.mp hd with hd | hd
    · simpa using find?_eq_none.mp hchannels d hd
    · simpa using find?_eq_none.mp hclosing d hd
  have hperm : ((k.channels ++ [c]) ++ k.closing).Perm (c :: k.all) := by
    rw [append_assoc, singleton_append]
    exact perm_middle
  have hlogged : ∀ event ∈ k.log, event.foreign k.opened := fun event hevent => h.logged event hevent _ (Nat.le_refl _)
  refine ⟨?_, ?_, fun d hd => ?_, fun event hevent => ?_, h.current, fun d hd => ?_, h.conforming.concat (.inl ⟨?_, ?_⟩)⟩
  · refine (hperm.map _).nodup_iff.mpr (nodup_cons.mpr ⟨fun hmem => ?_, h.ids⟩)
    obtain ⟨d, hd, hsame⟩ := mem_map.mp hmem
    exact hnew d hd hsame
  · refine (hperm.map _).nodup_iff.mpr (nodup_cons.mpr ⟨fun hmem => ?_, h.serials⟩)
    obtain ⟨d, hd, hsame⟩ := mem_map.mp hmem
    exact (h.fresh d hd).ne (hsame.trans hserial)
  · rcases mem_cons.mp (hperm.subset hd) with rfl | hd
    · rw [hserial]
      exact Nat.lt_succ_self _
    · exact Nat.lt_succ_of_lt (h.fresh d hd)
  · intro n hn
    rcases mem_append.mp hevent with hevent | hevent
    · exact h.logged event hevent n (Nat.le_of_succ_le hn)
    · rw [mem_singleton.mp hevent]
      exact foreign_of_ne (Nat.ne_of_lt hn)
  · rcases mem_cons.mp (hperm.subset hd) with rfl | hd
    · rw [← hc]
      exact .opened hlogged hkind
    · exact (h.tracks d hd).foreign (foreign_of_ne (h.fresh d hd).ne')
  · exact (counts_eq_nil hlogged).1
  · rw [hkind]
    rfl

theorem awaiting_subperm {closing : List Channel} {c : Channel} (h : ∀ d ∈ closing, d.id ≠ c.id) :
    (awaiting closing c).Subperm (c :: closing) := by
  have hnew : (closing.any fun d => d.id = c.id) = false := by simpa using h
  have hperm : (closing ++ [c]).Perm (c :: closing) := perm_append_singleton c closing
  unfold awaiting
  simp only [hnew, Bool.false_eq_true, if_false]
  split
  · exact (drop_sublist 1 _).subperm.trans hperm.subperm
  · exact hperm.subperm

theorem released {c : Channel} {id : Utf16} (h : k.Tables) (awaitClose : Bool) (hfound : find k.channels id = some c)
    (hreason : MayRelease k.log c.serial) : (k.release id awaitClose).Tables := by
  unfold release
  rw [hfound]
  dsimp only
  refine record (h.shrink ?_ rfl rfl h.current) hreason (fun _ _ => ⟨rfl, rfl, rfl⟩) fun _ _ => ⟨rfl, rfl, rfl⟩
  obtain ⟨pre, post, hchannels, hid, -⟩ := exists_append_of_find? hfound
  have hids := h.ids
  rw [all, map_append, nodup_append] at hids
  have hfilter : (k.channels.filter fun d => d.id ≠ id) = pre ++ post := by
    rw [hchannels]
    refine filter_key_ne id c pre post ?_ hid
    rw [← hchannels]
    exact hids.1
  have hclosing : (if awaitClose then awaiting k.closing c else k.closing).Subperm (c :: k.closing) := by
    split
    · refine awaiting_subperm fun d hd hsame => ?_
      refine hids.2.2 c.id ?_ d.id (mem_map_of_mem hd) hsame.symm
      exact mem_map_of_mem (mem_of_find?_eq_some hfound)
    · exact List.Subperm.cons_self
  unfold all
  dsimp only
  rw [hfilter, hchannels]
  have hleft := (List.Subperm.refl (pre ++ post)).append hclosing
  refine hleft.trans (List.Perm.subperm ?_)
  simp only [append_assoc, cons_append]
  exact List.Perm.append_left pre perm_middle

theorem closesAfter {c : Channel} {log : List Event} (h : c.Tracks log) : ClosesAfter log c.serial (closeHeader c) := by
  obtain ⟨first, hfirst, hheader⟩ := h.first
  have hdelivered := h.delivered
  unfold closeHeader
  cases hlast : (handed c.serial log).getLast? with
  | none =>
    have hnil : handed c.serial log = [] := getLast?_eq_none_iff.mp hlast
    rw [hnil, lastSequence_nil] at hdelivered
    rw [if_pos (by omega)]
    exact .inl ⟨hnil, rfl⟩
  | some last =>
    have hsequence : c.delivered = last.header.sequence := by simpa [lastSequence, hlast] using hdelivered
    have hnat : c.delivered.toNat = last.header.sequence := by omega
    refine .inr ⟨first, last, hfirst, hlast, ?_⟩
    rw [if_neg (by omega)]
    split
    · refine .inr ⟨_, rfl, rfl, ?_, ?_⟩
      · dsimp only
        rw [hnat]
      · rw [hheader]
        simp [Header.agrees]
    · have hsafe := last.header.safe
      exact .inl ⟨by omega, rfl⟩

theorem filterMap_retired {β : Type} {f : Event → Option β} (hf : ∀ n header, f (.retired n header) = none)
    (log : List Event) (cs : List Channel) :
    (log ++ cs.map fun c => Event.retired c.serial (closeHeader c)).filterMap f = log.filterMap f := by
  rw [filterMap_append, filterMap_map]
  have hnil : cs.filterMap (f ∘ fun c => Event.retired c.serial (closeHeader c)) = [] :=
    filterMap_eq_nil_iff.mpr fun c _ => hf _ _
  rw [hnil, append_nil]

theorem conforming_retired (h : k.Tables) (cs : List Channel) :
    Conforming (k.log ++ cs.map fun c => Event.retired c.serial (closeHeader c)) := by
  induction cs using reverseRecOn with
  | nil => simpa using h.conforming
  | append_singleton cs c ih =>
    rw [map_append, map_singleton, ← append_assoc]
    exact Each.concat ih trivial

theorem retire (h : k.Tables) (hclosed : k.closed = false) : k.retire.Tables := by
  unfold Connection.retire
  rw [if_neg (by simp [hclosed])]
  refine ⟨nodup_nil, nodup_nil, nofun, fun event hevent => ?_, fun _ => rfl, nofun, h.conforming_retired k.channels⟩
  rcases mem_append.mp hevent with hevent | hevent
  · exact h.logged event hevent
  · obtain ⟨c, hc, rfl⟩ := mem_map.mp hevent
    exact fun _ _ => ⟨rfl, rfl, rfl⟩

theorem move (h : k.Tables) (hmove : Move attended limits k k') : k'.Tables := by
  cases hmove with
  | quiet hquiet => exact h.quiet hquiet
  | opening frame grant resource acquire taken hclosed hattended hkind hchannels hclosing hretain =>
    obtain ⟨surfaces, rfl⟩ := retainSurface_eq hretain
    refine opening (h.shrink (List.Subperm.refl _) rfl rfl h.current) hkind hchannels hclosing
  | next frame taken hclosed hattended hkind hfound hsequence => exact h.counted hkind hfound hsequence
  | released id awaitClose hclosed hfound hreason => exact h.released awaitClose hfound hreason
  | awaited frame hclosed hheard =>
    exact h.heard (mem_append_right _ (mem_of_find?_eq_some hheard.found)) hheard.expected
  | forgotten id =>
    exact h.shrink ((List.Sublist.refl _).append filter_sublist).subperm rfl rfl h.current
  | dropped frame hclosed hheard => exact (h.heard (mem_all hheard.found) hheard.expected).quiet (quiet_closeSocket _ _)
  | sent frame hclosed hheard hopen hempty =>
    exact (h.heard (mem_all hheard.found) hheard.expected).record trivial (fun _ _ => ⟨rfl, rfl, rfl⟩)
      fun _ _ => ⟨rfl, rfl, rfl⟩
  | queued frame hclosed hheard hopen hframes hbytes =>
    exact (h.heard (mem_all hheard.found) hheard.expected).shrink (List.Subperm.refl _) rfl rfl h.current
  | popped lane hclosed hopen hpop =>
    obtain ⟨lanes, bytes, frames, rfl⟩ := pop_eq hpop
    have hpopped : { k with lanes, bytes, frames }.Tables := h.shrink (List.Subperm.refl _) rfl rfl h.current
    refine record hpopped ?_ (fun _ _ => ⟨rfl, rfl, rfl⟩) fun _ _ => ⟨rfl, rfl, rfl⟩
    trivial
  | lost lane hclosed hpop =>
    obtain ⟨lanes, bytes, frames, rfl⟩ := pop_eq hpop
    exact h.shrink (List.Subperm.refl _) rfl rfl h.current
  | retired hclosed => exact h.retire hclosed

end Tables

/-! ## What became of the channels -/

structure Account (k : Connection) : Prop where
  accounted : ∀ n, n < k.opened →
    n ∈ k.channels.map Channel.serial ∨ .released n ∈ k.log ∨ ∃ header, .retired n header ∈ k.log
  unreleased : ∀ n ∈ k.channels.map Channel.serial, .released n ∉ k.log
  known : ∀ n, .released n ∈ k.log → n < k.opened
  emptied : k.closed → k.channels = []
  unretired : k.closed = false → ∀ n, retirements n k.log = []
  once : ∀ n, (retirements n k.log).length ≤ 1
  exclusive : ∀ n, .released n ∈ k.log → retirements n k.log = []
  ordered : ∀ n, toWorker n k.log = (handed n k.log).map Frame.header ++ (retirements n k.log).filterMap id
  closes : ∀ n, ∀ header ∈ retirements n k.log, ClosesAfter k.log n header

namespace Account

theorem quiet (h : k.Account) (hserials : k'.channels.map Channel.serial = k.channels.map Channel.serial)
    (hclosed : k'.closed = k.closed) (hopened : k'.opened = k.opened) (hlog : k'.log = k.log) : k'.Account := by
  refine ⟨?_, ?_, ?_, fun hc => ?_, ?_, ?_, ?_, ?_, ?_⟩
  · rw [hserials, hopened, hlog]
    exact h.accounted
  · rw [hserials, hlog]
    exact h.unreleased
  · rw [hopened, hlog]
    exact h.known
  · rw [hclosed] at hc
    rw [h.emptied hc] at hserials
    exact map_eq_nil_iff.mp hserials
  · rw [hclosed, hlog]
    exact h.unretired
  · rw [hlog]
    exact h.once
  · rw [hlog]
    exact h.exclusive
  · rw [hlog]
    exact h.ordered
  · rw [hlog]
    exact h.closes

theorem record {event : Event} (h : k.Account) (hframe : event.isFrame) (hclosed : k.closed = false) :
    (k.record event).Account := by
  have hretires : ∀ n, event.retires n = none := by
    intro n
    cases event <;> first | rfl | cases hframe
  have hreleased : ∀ n, .released n ∈ (k.record event).log ↔ .released n ∈ k.log := by
    intro n
    have hne : Event.released n ≠ event := fun he => by rw [← he] at hframe; cases hframe
    simp [Connection.record, hne]
  have hretirements : ∀ n, retirements n (k.record event).log = retirements n k.log := by
    intro n
    refine (retirements_concat n k.log event).trans ?_
    rw [hretires]
    simp
  refine ⟨fun n hn => ?_, fun n hn => ?_, fun n hn => h.known n ((hreleased n).mp hn), h.emptied, fun hc n => ?_,
    fun n => ?_, fun n hn => ?_, fun n => ?_, fun n header hheader => ?_⟩
  · rcases h.accounted n hn with hopen | hended | ⟨header, hretired⟩
    · exact .inl hopen
    · exact .inr (.inl ((hreleased n).mpr hended))
    · exact .inr (.inr ⟨header, mem_append_left _ hretired⟩)
  · rw [hreleased]
    exact h.unreleased n hn
  · rw [hretirements]
    exact h.unretired hc n
  · rw [hretirements]
    exact h.once n
  · rw [hretirements]
    exact h.exclusive n ((hreleased n).mp hn)
  · rw [hretirements, h.unretired hclosed n]
    refine (toWorker_concat n k.log event).trans ?_
    have hhanded : handed n (k.record event).log = handed n k.log ++ (event.hands n).toList := handed_concat n k.log event
    rw [h.ordered n, hhanded, h.unretired hclosed n]
    cases event with
    | fromClient m frame taken =>
      simp only [Event.reaches, Event.hands]
      split <;> simp
    | fromWorker m frame => simp [Event.reaches, Event.hands]
    | toClient m frame => simp [Event.reaches, Event.hands]
    | released m => cases hframe
    | retired m header => cases hframe
  · rw [hretirements, h.unretired hclosed n] at hheader
    cases hheader

theorem serials_modify {n : Nat} {f : Channel → Channel} (hf : ∀ c, (f c).serial = c.serial) :
    (k.modify n f).channels.map Channel.serial = k.channels.map Channel.serial := by
  unfold modify
  rw [map_map]
  refine map_congr_left fun c _ => ?_
  simp only [Function.comp]
  split
  · exact hf c
  · rfl

theorem modify {n : Nat} {f : Channel → Channel} (h : k.Account) (hf : ∀ c, (f c).serial = c.serial) :
    (k.modify n f).Account :=
  h.quiet (serials_modify hf) rfl rfl rfl

theorem counted (h : k.Account) (hclosed : k.closed = false) (n : Nat) (frame : Frame) (taken : Bool) :
    (k.counted n frame taken).Account :=
  quiet (record (h.modify (n := n) (f := advance frame taken) fun _ => rfl) rfl hclosed) rfl rfl rfl rfl

theorem heard (h : k.Account) (hclosed : k.closed = false) (n : Nat) (frame : Frame) : (k.heard n frame).Account :=
  record (h.modify fun _ => rfl) rfl hclosed

theorem withChannel (h : k.Account) (hclosed : k.closed = false) (grant : Utf16) (frame : Frame) :
    (k.withChannel grant frame).Account := by
  have hserials : (k.withChannel grant frame).channels.map Channel.serial = k.channels.map Channel.serial ++ [k.opened] := by
    simp [Connection.withChannel, openChannel]
  refine ⟨fun n hn => ?_, fun n hn => ?_, fun n hn => Nat.lt_succ_of_lt (h.known n hn), fun hc => ?_, h.unretired, h.once,
    h.exclusive, h.ordered, h.closes⟩
  · rw [hserials]
    rcases Nat.lt_succ_iff_lt_or_eq.mp hn with hn | rfl
    · exact (h.accounted n hn).imp_left fun hmem => mem_append_left _ hmem
    · exact .inl (by simp)
  · rw [hserials] at hn
    rcases mem_append.mp hn with hn | hn
    · exact h.unreleased n hn
    · rw [mem_singleton.mp hn]
      exact fun hreleased => (h.known _ hreleased).ne rfl
  · exact absurd (hclosed.symm.trans hc) (by simp)

theorem release {id : Utf16} {c : Channel} (h : k.Account) (ht : k.Tables) (awaitClose : Bool) (hclosed : k.closed = false)
    (hfound : find k.channels id = some c) : (k.release id awaitClose).Account := by
  have hmem : c ∈ k.channels := mem_of_find?_eq_some hfound
  have hid : c.id = id := by simpa using find?_some hfound
  have hall : ∀ {d}, d ∈ k.channels → d ∈ k.all := fun hd => mem_append_left _ hd
  have hserials : ∀ n, n ∈ (k.channels.filter fun d => d.id ≠ id).map Channel.serial ↔
      n ∈ k.channels.map Channel.serial ∧ n ≠ c.serial := by
    intro n
    constructor
    · intro hn
      obtain ⟨d, hd, rfl⟩ := mem_map.mp hn
      have hd' := mem_filter.mp hd
      refine ⟨mem_map_of_mem hd'.1, fun hserial => ?_⟩
      rw [ht.unique (hall hmem) (hall hd'.1) hserial, hid] at hd'
      simp at hd'
    · rintro ⟨hn, hne⟩
      obtain ⟨d, hd, rfl⟩ := mem_map.mp hn
      refine mem_map_of_mem (mem_filter.mpr ⟨hd, ?_⟩)
      have hne' : d.id ≠ c.id := fun hsame => hne (by rw [inj_on_of_nodup_map ht.ids (hall hd) (hall hmem) hsame])
      rw [hid] at hne'
      simpa using hne'
  have hreleased : ∀ n, .released n ∈ k.log ++ [.released c.serial] ↔ .released n ∈ k.log ∨ n = c.serial := by
    intro n
    simp
  have hretirements : ∀ n, retirements n (k.log ++ [.released c.serial]) = [] := by
    intro n
    rw [retirements_concat, h.unretired hclosed n]
    rfl
  unfold Connection.release
  rw [hfound]
  refine ⟨fun n hn => ?_, fun n hn => ?_, fun n hn => ?_, fun hc => ?_, fun _ => hretirements, fun n => ?_,
    fun n _ => hretirements n, fun n => ?_, fun n header hheader => ?_⟩
  · by_cases hn' : n = c.serial
    · exact .inr (.inl ((hreleased n).mpr (.inr hn')))
    · rcases h.accounted n hn with hopen | hended | ⟨header, hretired⟩
      · exact .inl ((hserials n).mpr ⟨hopen, hn'⟩)
      · exact .inr (.inl ((hreleased n).mpr (.inl hended)))
      · exact .inr (.inr ⟨header, mem_append_left _ hretired⟩)
  · obtain ⟨hopen, hne⟩ := (hserials n).mp hn
    intro hmem'
    rcases (hreleased n).mp hmem' with hended | hsame
    · exact h.unreleased n hopen hended
    · exact hne hsame
  · rcases (hreleased n).mp hn with hended | rfl
    · exact h.known n hended
    · exact ht.fresh c (hall hmem)
  · exact absurd (hclosed.symm.trans hc) (by simp)
  · dsimp only [Connection.record]
    rw [hretirements]
    exact Nat.zero_le _
  · dsimp only [Connection.record]
    rw [hretirements, toWorker_concat, handed_concat, h.ordered n, h.unretired hclosed n]
    simp [Event.reaches, Event.hands]
  · dsimp only [Connection.record] at hheader
    rw [hretirements] at hheader
    cases hheader

theorem retire (h : k.Account) (ht : k.Tables) (hclosed : k.closed = false) : k.retire.Account := by
  have hserials : (k.channels.map Channel.serial).Nodup := by
    have hnodup := ht.serials
    rw [all, map_append] at hnodup
    exact (nodup_append.mp hnodup).1
  -- the retirements of a channel are those of its place among the channels
  have hretirements : ∀ n, retirements n (k.log ++ k.channels.map fun c => Event.retired c.serial (closeHeader c)) =
      (k.channels.filter fun c => c.serial = n).map closeHeader := by
    intro n
    have hlog := h.unretired hclosed n
    unfold retirements at *
    rw [filterMap_append, hlog, nil_append, filterMap_map, ← filterMap_eq_map, filterMap_filter]
    congr 1
    funext c
    by_cases hn : c.serial = n <;> simp [Event.retires, hn]
  have hreleased : ∀ n, .released n ∈ k.log ++ k.channels.map (fun c => Event.retired c.serial (closeHeader c)) →
      .released n ∈ k.log := by
    intro n hn
    simpa using hn
  unfold Connection.retire
  rw [if_neg (by simp [hclosed])]
  refine ⟨fun n hn => ?_, nofun, fun n hn => h.known n (hreleased n hn), fun _ => rfl, nofun, fun n => ?_, fun n hn => ?_,
    fun n => ?_, fun n header hheader => ?_⟩
  · rcases h.accounted n hn with hopen | hended | ⟨header, hretired⟩
    · obtain ⟨c, hc, rfl⟩ := mem_map.mp hopen
      exact .inr (.inr ⟨closeHeader c, mem_append_right _ (mem_map_of_mem hc)⟩)
    · exact .inr (.inl (mem_append_left _ hended))
    · exact .inr (.inr ⟨header, mem_append_left _ hretired⟩)
  · dsimp only
    rw [hretirements, length_map, ← countP_eq_length_filter]
    have hcount := nodup_iff_count_le_one.mp hserials n
    rw [count, countP_map] at hcount
    exact hcount
  · dsimp only
    rw [hretirements]
    refine map_eq_nil_iff.mpr (filter_eq_nil_iff.mpr fun c hc hserial => ?_)
    refine h.unreleased n ?_ (hreleased n hn)
    rw [← of_decide_eq_true hserial]
    exact mem_map_of_mem hc
  · dsimp only
    have hhanded := Tables.filterMap_retired (f := Event.hands n) (fun _ _ => rfl) k.log k.channels
    have hordered := h.ordered n
    rw [h.unretired hclosed n] at hordered
    rw [hretirements]
    unfold handed toWorker at *
    rw [hhanded, filterMap_append, hordered, filterMap_map]
    simp only [filterMap_nil, append_nil, append_cancel_left_eq]
    rw [filterMap_map, filterMap_filter]
    congr 1
    funext c
    by_cases hn : c.serial = n <;> simp [Event.reaches, hn]
  · dsimp only at hheader ⊢
    rw [hretirements] at hheader
    obtain ⟨c, hc, rfl⟩ := mem_map.mp hheader
    obtain ⟨hmem, hserial⟩ := mem_filter.mp hc
    have hcloses := Tables.closesAfter (ht.tracks c (mem_append_left _ hmem))
    have hadmitted := Tables.filterMap_retired (f := Event.admits n) (fun _ _ => rfl) k.log k.channels
    have hhanded := Tables.filterMap_retired (f := Event.hands n) (fun _ _ => rfl) k.log k.channels
    rw [of_decide_eq_true hserial] at hcloses
    unfold ClosesAfter admitted handed at *
    rw [hadmitted, hhanded]
    exact hcloses

theorem move (h : k.Account) (ht : k.Tables) (hmove : Move attended limits k k') : k'.Account := by
  cases hmove with
  | quiet hquiet => exact h.quiet (by rw [hquiet.channels]) hquiet.closed hquiet.opened hquiet.log
  | opening frame grant resource acquire taken hclosed hattended hkind hchannels hclosing hretain =>
    obtain ⟨surfaces, rfl⟩ := retainSurface_eq hretain
    have hsurfaces : { k with surfaces }.Account := h.quiet rfl rfl rfl rfl
    exact (hsurfaces.withChannel hclosed grant frame).counted hclosed _ frame taken
  | next frame taken hclosed hattended hkind hfound hsequence => exact h.counted hclosed _ frame taken
  | released id awaitClose hclosed hfound hreason => exact h.release ht awaitClose hclosed hfound
  | awaited frame hclosed hheard => exact h.heard hclosed _ frame
  | forgotten id => exact h.quiet rfl rfl rfl rfl
  | dropped frame hclosed hheard => exact (h.heard hclosed _ frame).quiet rfl rfl rfl rfl
  | sent frame hclosed hheard hopen hempty => exact (h.heard hclosed _ frame).record rfl hclosed
  | queued frame hclosed hheard hopen hframes hbytes => exact (h.heard hclosed _ frame).quiet rfl rfl rfl rfl
  | popped lane hclosed hopen hpop =>
    obtain ⟨lanes, bytes, frames, rfl⟩ := pop_eq hpop
    have hpopped : { k with lanes, bytes, frames }.Account := h.quiet rfl rfl rfl rfl
    exact hpopped.record rfl hclosed
  | lost lane hclosed hpop =>
    obtain ⟨lanes, bytes, frames, rfl⟩ := pop_eq hpop
    exact h.quiet rfl rfl rfl rfl
  | retired hclosed => exact h.retire ht hclosed

end Account

end Connection

end Cantrip.Relay
