import Cantrip.Relay.Codes
import Cantrip.Relay.Phases

/-!
# The relay and parties that keep to the protocol

A step of a party or of the relay changes the view of one channel. While no frame of the client crosses the end that
the worker sent, and the relay need not forget a channel that the client closed, each frame is one that the relay
expects.
-/

namespace Cantrip.Relay

open Lib List Option

/-! ## The tables of the relay -/

namespace Connection

variable {k : Connection} {c : Channel} {id : Utf16}

theorem find_changed (n : Nat) (f : Channel → Channel) (hf : ∀ c, (f c).header = c.header) (table : List Channel) (id : Utf16) :
    find (table.map fun c => if c.serial = n then f c else c) id = (find table id).map fun c => if c.serial = n then f c else c := by
  have hid : ∀ c : Channel, (if c.serial = n then f c else c).id = c.id := by
    intro c
    by_cases hserial : c.serial = n
    · simp only [hserial, if_true, Channel.id, hf]
    · simp only [hserial, if_false]
  unfold find
  rw [find?_map]
  congr 2
  funext c
  simp only [Function.comp, hid]

theorem id_of_find {table : List Channel} (h : find table id = some c) : c.id = id := by simpa using find?_some h

theorem find_changed_other (f : Channel → Channel) (ht : k.Tables) (hc : c ∈ k.all) (hne : c.id ≠ id)
    (hf : ∀ c, (f c).header = c.header) {table : List Channel} (htable : table ⊆ k.all) :
    find (table.map fun d => if d.serial = c.serial then f d else d) id = find table id := by
  rw [find_changed c.serial f hf]
  cases hfound : find table id with
  | none => rfl
  | some d =>
    have hserial : d.serial ≠ c.serial := by
      intro hserial
      have hsame := ht.unique hc (htable (mem_of_find?_eq_some hfound)) hserial
      exact hne (hsame ▸ id_of_find hfound)
    rw [map_some, if_neg hserial]

theorem find_filter (table : List Channel) (x id : Utf16) :
    find (table.filter fun c => c.id ≠ x) id = if id = x then none else find table id := by
  unfold find
  induction table with
  | nil => simp
  | cons d table ih =>
    by_cases hd : d.id = x
    · rw [filter_cons_of_neg (by simp [hd]), ih]
      by_cases hid : id = x
      · rw [if_pos hid, if_pos hid]
      · rw [if_neg hid, if_neg hid, find?_cons_of_neg]
        simp only [hd, decide_eq_true_eq]
        exact Ne.symm hid
    · rw [filter_cons_of_pos (by simp [hd])]
      by_cases hid : d.id = id
      · rw [find?_cons_of_pos (by simp [hid]), find?_cons_of_pos (by simp [hid]), if_neg (hid ▸ hd)]
      · rw [find?_cons_of_neg (by simp [hid]), find?_cons_of_neg (by simp [hid]), ih]

theorem find_concat (table : List Channel) (c : Channel) (id : Utf16) :
    find (table ++ [c]) id = (find table id).or (if c.id = id then some c else none) := by
  unfold find
  rw [find?_append, find?_singleton]
  simp only [decide_eq_true_eq]

theorem awaiting_eq {closing : List Channel} (hnew : find closing c.id = none) (hroom : closing.length < 1024) :
    awaiting closing c = closing ++ [c] := by
  have hany : (closing.any fun d => d.id = c.id) = false := by
    rw [← Bool.not_eq_true, List.any_eq_true]
    rintro ⟨d, hd, hid⟩
    exact find?_eq_none.mp hnew d hd hid
  unfold awaiting
  simp only [hany, Bool.false_eq_true, if_false, length_append, length_singleton]
  rw [if_neg (by omega)]

theorem release_eq (awaitClose : Bool) (hfound : find k.channels id = some c) :
    (k.release id awaitClose).channels = k.channels.filter (fun d => d.id ≠ id) ∧
      (k.release id awaitClose).closing = (if awaitClose then awaiting k.closing c else k.closing) ∧
      (k.release id awaitClose).log = k.log ++ [.released c.serial] := by
  unfold release
  rw [hfound]
  exact ⟨rfl, rfl, rfl⟩

end Connection

/-! ## The system -/

namespace Exchange

variable {session : Session} {limits : Lane → Limit} {s : Exchange} {k : Connection} {id : Utf16}

theorem view_relayDoes {events : List Event} (hlog : k.log = s.relay.log ++ events) (id : Utf16) : (s.relayDoes k).view id =
    { s.view id with channel := Connection.find k.channels id, closing := Connection.find k.closing id,
                     answered := (s.view id).answered || events.any (Event.endsChannel id),
                     down := (s.view id).down ++ ofStream Header.channelId id (events.filterMap Event.sentToWorker) } := by
  unfold relayDoes view endedByWorker
  rw [hlog, drop_left]
  dsimp only
  rw [ofStream_append, any_append]

theorem view_serves (h : Connection.Serves s.relay k) (id : Utf16) : (s.relayDoes k).view id = s.view id := by
  obtain ⟨more, hlog, hmore⟩ := h.log
  have hany : more.any (Event.endsChannel id) = false := by
    rw [← Bool.not_eq_true, List.any_eq_true]
    rintro ⟨event, hevent, hends⟩
    obtain ⟨n, frame, rfl⟩ := hmore event hevent
    cases hends
  have hsent : more.filterMap Event.sentToWorker = [] := by
    rw [filterMap_eq_nil_iff]
    intro event hevent
    obtain ⟨n, frame, rfl⟩ := hmore event hevent
    rfl
  rw [view_relayDoes hlog, h.channels, h.closing, hany, hsent, ofStream_nil, append_nil, Bool.or_false]
  rfl

structure Elsewhere (id : Utf16) (k k' : Connection) (events : List Event) : Prop where
  channels : Connection.find k'.channels id = Connection.find k.channels id
  closing : Connection.find k'.closing id = Connection.find k.closing id
  ends : events.any (Event.endsChannel id) = false
  sent : ofStream Header.channelId id (events.filterMap Event.sentToWorker) = []

theorem view_elsewhere {events : List Event} (hlog : k.log = s.relay.log ++ events) (h : Elsewhere id s.relay k events) :
    (s.relayDoes k).view id = s.view id := by
  rw [view_relayDoes hlog, h.channels, h.closing, h.ends, h.sent, append_nil, Bool.or_false]
  rfl

theorem up_self {frame : Frame} {rest : List Frame} (h : s.toRelay = frame :: rest) :
    (s.view frame.channelId).up = frame :: ofStream Frame.channelId frame.channelId rest := by
  unfold view
  rw [h]
  exact ofStream_cons_self rfl

theorem view_toRelay_ne {frame : Frame} {rest : List Frame} (h : s.toRelay = frame :: rest) (hid : frame.channelId ≠ id) :
    ({ s with toRelay := rest } : Exchange).view id = s.view id := by
  unfold view
  rw [h, ofStream_cons_ne hid]
  rfl

theorem back_self {frame : Frame} {rest : List Frame} (h : s.fromWorker = frame :: rest) :
    (s.view frame.channelId).back = frame :: ofStream Frame.channelId frame.channelId rest := by
  unfold view
  rw [h]
  exact ofStream_cons_self rfl

theorem view_fromWorker_ne {frame : Frame} {rest : List Frame} (h : s.fromWorker = frame :: rest) (hid : frame.channelId ≠ id) :
    ({ s with fromWorker := rest } : Exchange).view id = s.view id := by
  unfold view
  rw [h, ofStream_cons_ne hid]
  rfl

end Exchange

namespace Connection

variable {k : Connection} {c : Channel} {frame : Frame} {id : Utf16}

theorem counted_opening (hfresh : ∀ c ∈ k.channels ++ k.closing, c.serial < k.opened) (grant : Utf16) (surfaces : List Surface) :
    (({ k with surfaces }.withChannel grant frame).counted k.opened frame true).channels =
        k.channels ++ [advance frame true (openChannel k.opened grant frame.header)] ∧
      (({ k with surfaces }.withChannel grant frame).counted k.opened frame true).closing = k.closing ∧
      (({ k with surfaces }.withChannel grant frame).counted k.opened frame true).log =
        k.log ++ [.fromClient k.opened frame true] := by
  have hmodify := @withChannel_modify { k with surfaces } grant frame (advance frame true) hfresh
  unfold Connection.counted
  rw [hmodify]
  exact ⟨rfl, rfl, rfl⟩

theorem find_counted (ht : k.Tables) (hfound : find k.channels frame.channelId = some c) :
    find (k.counted c.serial frame true).channels frame.channelId = some (advance frame true c) ∧
      find (k.counted c.serial frame true).closing frame.channelId = none ∧
      ∀ id, frame.channelId ≠ id → find (k.counted c.serial frame true).channels id = find k.channels id ∧
        find (k.counted c.serial frame true).closing id = find k.closing id := by
  have hid := id_of_find hfound
  have hclosing := find_closing_eq_none ht.ids hfound
  refine ⟨?_, ?_, fun id hne => ⟨?_, ?_⟩⟩
  · refine (find_changed c.serial (advance frame true) (fun _ => rfl) k.channels frame.channelId).trans ?_
    rw [hfound, map_some, if_pos rfl]
  · refine (find_changed c.serial (advance frame true) (fun _ => rfl) k.closing frame.channelId).trans ?_
    rw [hclosing, map_none]
  · exact find_changed_other (advance frame true) ht (Tables.mem_all hfound) (hid ▸ hne) (fun _ => rfl) (subset_append_left _ _)
  · exact find_changed_other (advance frame true) ht (Tables.mem_all hfound) (hid ▸ hne) (fun _ => rfl) (subset_append_right _ _)

theorem find_heard (ht : k.Tables) (hc : c ∈ k.all) (hid : c.id = frame.channelId) {table : List Channel} (htable : table ⊆ k.all) :
    find (table.map fun d => if d.serial = c.serial then hear frame d else d) frame.channelId =
        (find table frame.channelId).map (hear frame) ∧
      ∀ id, frame.channelId ≠ id →
        find (table.map fun d => if d.serial = c.serial then hear frame d else d) id = find table id := by
  refine ⟨?_, fun id hne => find_changed_other (hear frame) ht hc (hid ▸ hne) (fun _ => rfl) htable⟩
  rw [find_changed c.serial (hear frame) fun _ => rfl]
  cases hfound : find table frame.channelId with
  | none => rfl
  | some d =>
    have hsame : d = c := by
      refine inj_on_of_nodup_map ht.ids (htable (mem_of_find?_eq_some hfound)) hc ?_
      rw [id_of_find hfound, hid]
    rw [map_some, if_pos (by rw [hsame]), map_some]

end Connection

namespace Exchange

open Connection

variable {session : Session} {limits : Lane → Limit} {s : Exchange} {id : Utf16} {frame : Frame} {rest : List Frame}

theorem ofStream_header (frame : Frame) : ofStream Header.channelId frame.channelId [frame.header] = [frame.header] :=
  ofStream_cons_self rfl

theorem elsewhere_client {k k' : Connection} {n : Nat} {more : List Event} (hne : frame.channelId ≠ id)
    (hchannels : find k'.channels id = find k.channels id) (hclosing : find k'.closing id = find k.closing id)
    (hmore : more = [] ∨ more = [.released n]) : Elsewhere id k k' (.fromClient n frame true :: more) := by
  refine ⟨hchannels, hclosing, ?_, ?_⟩
  · rcases hmore with rfl | rfl <;> rfl
  · have hsent : (Event.fromClient n frame true :: more).filterMap Event.sentToWorker = [frame.header] := by
      rcases hmore with rfl | rfl <;> rfl
    rw [hsent]
    exact ofStream_cons_ne hne

variable {k' : Connection} {s' : Exchange} {more : List Event} {n : Nat}

theorem takes_opening {c : ClientSide} {channel : Channel}
    (hphases : ∀ id, Phase session (s.view id)) (hrelay : s.toRelay = frame :: rest)
    (hclient : (s.view frame.channelId).client = some c) (hopen : frame.header.kind.isOpen)
    (hrest : UpFlight session c.ended (frame.sequence + 1) (ofStream Frame.channelId frame.channelId rest) c.next)
    (hunknown : Unknown (s.view frame.channelId)) (hheader : channel.header = frame.header)
    (hsequence : channel.clientSequence = frame.sequence) (hworker : channel.workerSequence = -1)
    (hchannels : k'.channels = s.relay.channels ++ [channel]) (hclosing : k'.closing = s.relay.closing)
    (hlog : k'.log = s.relay.log ++ [.fromClient n frame true]) (id : Utf16) :
    Phase session (({ s with toRelay := rest }.relayDoes k').view id) := by
  have hid' : channel.id = frame.channelId := by rw [Channel.id, hheader]
  by_cases hid : frame.channelId = id
  · subst hid
    have hnone : find s.relay.channels frame.channelId = none := hunknown.channel
    rw [@view_relayDoes { s with toRelay := rest } k' _ hlog, hchannels, hclosing, find_concat, hnone, none_or, if_pos hid']
    refine .open c channel hclient rfl hunknown.closing (hsequence ▸ hrest) ?_
    refine Heeded.introduced hunknown (hheader ▸ hopen) hworker ?_ rfl rfl
    rw [hheader]
    exact congrArg _ (ofStream_header frame)
  · have helse : Elsewhere id s.relay k' [.fromClient n frame true] := by
      refine @elsewhere_client id frame s.relay k' n [] hid ?_ ?_ (.inl rfl)
      · rw [hchannels, find_concat, if_neg (hid' ▸ hid), or_none]
      · rw [hclosing]
    rw [@view_elsewhere { s with toRelay := rest } k' id _ hlog helse, view_toRelay_ne hrelay hid]
    exact hphases id

theorem takes_next {c : ClientSide} {channel : Channel} (ht : s.relay.Tables)
    (hphases : ∀ id, Phase session (s.view id)) (hrelay : s.toRelay = frame :: rest)
    (hclient : (s.view frame.channelId).client = some c) (hchannel : (s.view frame.channelId).channel = some channel)
    (hopen : frame.header.kind.isOpen = false)
    (hrest : UpFlight session c.ended (frame.sequence + 1) (ofStream Frame.channelId frame.channelId rest) c.next)
    (hheeded : Heeded session (s.view frame.channelId) channel) (hk : k' = s.relay.counted channel.serial frame true) (id : Utf16) :
    Phase session (({ s with toRelay := rest }.relayDoes k').view id) := by
  obtain ⟨hself, hnone, hother⟩ := find_counted ht hchannel
  rw [← hk] at hself hnone hother
  have hlog : k'.log = s.relay.log ++ [.fromClient channel.serial frame true] := by rw [hk]; rfl
  by_cases hid : frame.channelId = id
  · subst hid
    rw [@view_relayDoes { s with toRelay := rest } k' _ hlog, hself, hnone]
    refine .open c (advance frame true channel) hclient rfl rfl hrest ?_
    exact hheeded.handed hopen rfl rfl (congrArg ((s.view frame.channelId).down ++ ·) (ofStream_header frame)) rfl rfl
  · have helse : Elsewhere id s.relay k' [.fromClient channel.serial frame true] :=
      @elsewhere_client id frame s.relay k' channel.serial [] hid (hother id hid).1 (hother id hid).2 (.inl rfl)
    rw [@view_elsewhere { s with toRelay := rest } k' id _ hlog helse, view_toRelay_ne hrelay hid]
    exact hphases id

theorem takes_close {c : ClientSide} {channel : Channel} (ht : s.relay.Tables)
    (hphases : ∀ id, Phase session (s.view id)) (hrelay : s.toRelay = frame :: rest)
    (hclient : (s.view frame.channelId).client = some c) (hended : c.ended)
    (hrest : ofStream Frame.channelId frame.channelId rest = []) (hchannel : (s.view frame.channelId).channel = some channel)
    (hopen : frame.header.kind.isOpen = false) (hroom : s.relay.closing.length < 1024)
    (hheeded : Heeded session (s.view frame.channelId) channel)
    (hk : k' = (s.relay.counted channel.serial frame true).release frame.header.channelId true) (id : Utf16) :
    Phase session (({ s with toRelay := rest }.relayDoes k').view id) := by
  obtain ⟨hself, hnone, hother⟩ := find_counted ht hchannel
  obtain ⟨hchannels, hclosing, hlog⟩ := release_eq true hself
  have hid' : (advance frame true channel).id = frame.channelId := id_of_find hself
  have hroom' : (s.relay.counted channel.serial frame true).closing.length < 1024 := by
    refine lt_of_eq_of_lt ?_ hroom
    exact length_map _
  rw [if_pos rfl, awaiting_eq (hid' ▸ hnone) hroom'] at hclosing
  rw [← hk] at hchannels hclosing hlog
  have hlog' : k'.log = s.relay.log ++ [.fromClient channel.serial frame true, .released channel.serial] := by
    rw [hlog]
    exact append_assoc _ [_] [_]
  by_cases hid : frame.channelId = id
  · subst hid
    rw [@view_relayDoes { s with toRelay := rest } k' _ hlog', hchannels, hclosing, find_filter, if_pos rfl, find_concat, hnone,
      none_or, if_pos hid']
    refine .closing c (advance frame true channel) hclient hended hrest rfl rfl ?_
    exact hheeded.handed hopen rfl rfl (congrArg ((s.view frame.channelId).down ++ ·) (ofStream_header frame)) rfl rfl
  · have helse : Elsewhere id s.relay k' [.fromClient channel.serial frame true, .released channel.serial] := by
      refine elsewhere_client hid ?_ ?_ (.inr rfl)
      · rw [hchannels, find_filter, if_neg (Ne.symm hid)]
        exact (hother id hid).1
      · rw [hclosing, find_concat, if_neg (hid' ▸ hid), or_none]
        exact (hother id hid).2
    rw [@view_elsewhere { s with toRelay := rest } k' id _ hlog' helse, view_toRelay_ne hrelay hid]
    exact hphases id

theorem takes_client (hsound : s.relay.Sound limits) (hopen : s.relay.isOpen) (hcurrent : s.relay.current)
    (hphases : ∀ id, Phase session (s.view id)) (hrelay : s.toRelay = frame :: rest) (answers : ClientAnswers)
    (hmeets : s.Meets (.relayTakesClient answers)) : (s.relay.receiveClient session true (some frame) answers).Spared ∨
      (s.relay.receiveClient session true (some frame) answers).closedWith = s.relay.closedWith ∧ ∀ id, Phase session
        (({ s with toRelay := rest }.relayDoes (s.relay.receiveClient session true (some frame) answers)).view id) := by
  have ht := hsound.tables
  have hclosed : s.relay.closed = false := by
    rw [← Bool.not_eq_true]
    exact fun hclosed => absurd hcurrent (by rw [ht.current hclosed]; exact Bool.false_ne_true)
  obtain ⟨hcrosses, hroom⟩ := hmeets frame (by rw [hrelay]; rfl) hopen
  have hup := up_self hrelay
  cases hphases frame.channelId with
  | unopened hclient hempty hunknown => rw [hup] at hempty; cases hempty
  | opening c f rest' hclient hhead hnames hkind hrest hunknown =>
    rw [hup] at hhead
    cases hhead
    obtain hspared | ⟨grant, surfaces, heq⟩ :=
      @receiveClient_open session s.relay frame answers hopen hclosed hcurrent ht.fresh hnames hkind hunknown.channel hunknown.closing
    · exact .inl hspared
    · refine .inr ⟨by rw [heq]; rfl, fun id => ?_⟩
      rw [heq]
      obtain ⟨hchannels, hclosing, hlog⟩ := @counted_opening s.relay frame ht.fresh grant surfaces
      exact takes_opening hphases hrelay hclient hkind hrest hunknown rfl rfl rfl hchannels hclosing hlog id
  | «open» c channel hclient hchannel hclosing hflight hheeded =>
    rw [hup] at hflight
    obtain ⟨hnumber, ⟨hnames, hkind⟩, hlast, hrest⟩ := flight_cons.mp hflight
    have hsequence : frame.header.sequence = channel.clientSequence + 1 := hnumber
    obtain hspared | heq :=
      @receiveClient_next session s.relay channel frame answers hopen hclosed hcurrent hnames hkind hchannel hsequence
    · exact .inl hspared
    · refine .inr ?_
      rw [← hnumber] at hrest
      by_cases hclose : frame.header.kind = .close
      · obtain ⟨hempty, hended⟩ := hlast (by simpa using hclose)
        rw [if_pos hclose] at heq
        refine ⟨?_, takes_close ht hphases hrelay hclient hended hempty hchannel hkind (hroom hclose) hheeded heq⟩
        rw [heq]
        exact (release_socket _ _).2
      · rw [if_neg hclose] at heq
        refine ⟨?_, takes_next ht hphases hrelay hclient hchannel hkind hrest hheeded heq⟩
        rw [heq]
        rfl
  | closing c channel hclient hended hempty => rw [hup] at hempty; cases hempty
  | ended c w hclient hkinds hchannel hclosing hanswered =>
    -- The frame crosses the end that the relay has taken from the worker.
    have hkind : frame.header.kind.isOpen = false := hkinds frame (by rw [hup]; exact mem_cons_self)
    have hends : s.endedByWorker frame.channelId := hanswered
    exact absurd hends (by rw [hcrosses hkind]; exact Bool.false_ne_true)

theorem elsewhere_worker {k k' : Connection} (hne : frame.channelId ≠ id)
    (hchannels : find k'.channels id = find k.channels id) (hclosing : find k'.closing id = find k.closing id)
    (hmore : ∀ event ∈ more, Event.endsChannel id event = false ∧ event.sentToWorker = none) :
    Elsewhere id k k' (.fromWorker n frame :: more) := by
  refine ⟨hchannels, hclosing, ?_, ?_⟩
  · rw [any_cons, Bool.or_eq_false_iff]
    refine ⟨?_, List.any_eq_false.mpr fun event hevent => ?_⟩
    · simp [Event.endsChannel, hne]
    · rw [(hmore event hevent).1]
      exact Bool.false_ne_true
  · have hsent : (Event.fromWorker n frame :: more).filterMap Event.sentToWorker = [] := by
      rw [filterMap_cons_none rfl, filterMap_eq_nil_iff]
      exact fun event hevent => (hmore event hevent).2
    rw [hsent, ofStream_nil]

theorem view_heard (hlog : k'.log = s.relay.log ++ .fromWorker n frame :: more)
    (hmore : ∀ id, ∀ event ∈ more, Event.endsChannel id event = false ∧ event.sentToWorker = none) :
    ({ s with fromWorker := rest }.relayDoes k').view frame.channelId = { s.view frame.channelId with
        channel := find k'.channels frame.channelId, closing := find k'.closing frame.channelId,
        answered := (s.view frame.channelId).answered || frame.header.kind.ends,
        back := ofStream Frame.channelId frame.channelId rest } := by
  have hany : (Event.fromWorker n frame :: more).any (Event.endsChannel frame.channelId) = frame.header.kind.ends := by
    have hnone : more.any (Event.endsChannel frame.channelId) = false := by
      refine List.any_eq_false.mpr fun event hevent => ?_
      rw [(hmore _ event hevent).1]
      exact Bool.false_ne_true
    rw [any_cons, hnone, Bool.or_false]
    simp [Event.endsChannel]
  have hsent : (Event.fromWorker n frame :: more).filterMap Event.sentToWorker = [] := by
    rw [filterMap_cons_none rfl, filterMap_eq_nil_iff]
    exact fun event hevent => (hmore frame.channelId event hevent).2
  rw [@view_relayDoes { s with fromWorker := rest } k' _ hlog, hany, hsent, ofStream_nil, append_nil]
  rfl

theorem quiet_toClient (h : ∀ event ∈ more, ∃ n frame, event = .toClient n frame) (id : Utf16) :
    ∀ event ∈ more, Event.endsChannel id event = false ∧ event.sentToWorker = none := by
  intro event hevent
  obtain ⟨n, frame, rfl⟩ := h event hevent
  exact ⟨rfl, rfl⟩

theorem takes_worker (hsound : s.relay.Sound limits) (hopen : s.relay.isOpen) (hcurrent : s.relay.current)
    (hphases : ∀ id, Phase session (s.view id)) (hworker : s.fromWorker = frame :: rest) (consume : Bool)
    (answers : SocketAnswers) : (s.relay.receiveWorker session limits frame consume answers).Spared ∨
      (s.relay.receiveWorker session limits frame consume answers).closedWith = s.relay.closedWith ∧ ∀ id, Phase session
        (({ s with fromWorker := rest }.relayDoes (s.relay.receiveWorker session limits frame consume answers)).view id) := by
  have ht := hsound.tables
  have hback := back_self hworker
  cases hphases frame.channelId with
  | unopened hclient hup hunknown => rw [hunknown.back] at hback; cases hback
  | opening c f rest' hclient hup hnames hkind hrest hunknown => rw [hunknown.back] at hback; cases hback
  | ended c w hclient hkinds hchannel hclosing hanswered hw hended hdown hempty => rw [hempty] at hback; cases hback
  | «open» c channel hclient hchannel hclosing hup hheeded =>
    obtain ⟨hnames, hexpects, hafter, hends⟩ := hheeded.next hback
    have hmem : channel ∈ s.relay.all := Tables.mem_all hchannel
    have hid : channel.id = frame.channelId := id_of_find hchannel
    obtain ⟨hself, hother⟩ := find_heard ht hmem hid (subset_append_left s.relay.channels s.relay.closing)
    obtain ⟨hself', hother'⟩ := find_heard ht hmem hid (subset_append_right s.relay.channels s.relay.closing)
    have hfound : find s.relay.channels frame.channelId = some channel := hchannel
    have hnone : find s.relay.closing frame.channelId = none := hclosing
    rw [hfound, map_some] at hself
    rw [hnone, map_none] at hself'
    obtain hspared | ⟨k₁, hserves, heq⟩ := @receiveWorker_next limits session s.relay channel frame consume answers hopen
      hcurrent hnames hchannel hclosing hexpects
    · exact .inl hspared
    · refine .inr ⟨?_, fun id => ?_⟩
      · rw [heq]
        split
        · exact (release_socket _ _).2.trans hserves.closedWith
        · exact hserves.closedWith
      obtain ⟨more, hlog, hmore⟩ := hserves.log
      have hlog' : k₁.log = s.relay.log ++ .fromWorker channel.serial frame :: more := by
        rw [hlog]
        exact append_assoc _ [_] more
      by_cases hkind : frame.header.kind.ends
      · -- The end releases the channel.
        rw [if_pos hkind] at heq
        have hfound₁ : find k₁.channels frame.channelId = some (hear frame channel) := by
          rw [hserves.channels]
          exact hself
        obtain ⟨hchannels₂, hclosing₂, hlog₂⟩ := release_eq false hfound₁
        rw [← heq] at hchannels₂ hclosing₂ hlog₂
        have hlog₃ : (s.relay.receiveWorker session limits frame consume answers).log =
            s.relay.log ++ .fromWorker channel.serial frame :: (more ++ [.released (hear frame channel).serial]) := by
          rw [hlog₂, hlog', append_assoc, cons_append]
        have hquiet : ∀ id, ∀ event ∈ more ++ [.released (hear frame channel).serial],
            Event.endsChannel id event = false ∧ event.sentToWorker = none := by
          intro id event hevent
          rcases mem_append.mp hevent with hevent | hevent
          · exact quiet_toClient hmore id event hevent
          · rw [mem_singleton.mp hevent]
            exact ⟨rfl, rfl⟩
        by_cases hid' : frame.channelId = id
        · subst hid'
          obtain ⟨hempty, w, hw, hended, hdown⟩ := hends hkind
          rw [view_heard hlog₃ hquiet, hchannels₂, hclosing₂, if_neg Bool.false_ne_true, find_filter, if_pos rfl, hserves.closing]
          refine .ended c w hclient ?_ rfl hself' (by simp [hkind]) hw hended hdown hempty
          exact fun f hf => (hup.forall_legal f hf).2
        · have helse : Elsewhere id s.relay (s.relay.receiveWorker session limits frame consume answers)
              (.fromWorker channel.serial frame :: (more ++ [.released (hear frame channel).serial])) := by
            refine elsewhere_worker hid' ?_ ?_ (hquiet id)
            · rw [hchannels₂, find_filter, if_neg (Ne.symm hid'), hserves.channels]
              exact hother id hid'
            · rw [hclosing₂, if_neg Bool.false_ne_true, hserves.closing]
              exact hother' id hid'
          rw [@view_elsewhere { s with fromWorker := rest } _ id _ hlog₃ helse, view_fromWorker_ne hworker hid']
          exact hphases id
      · rw [if_neg hkind] at heq
        rw [heq]
        by_cases hid' : frame.channelId = id
        · subst hid'
          rw [view_heard hlog' (quiet_toClient hmore), hserves.channels, hserves.closing]
          exact .open c (hear frame channel) hclient hself hself' hup (hafter rfl rfl rfl rfl)
        · have helse : Elsewhere id s.relay k₁ (.fromWorker channel.serial frame :: more) := by
            refine elsewhere_worker hid' ?_ ?_ (quiet_toClient hmore id)
            · rw [hserves.channels]
              exact hother id hid'
            · rw [hserves.closing]
              exact hother' id hid'
          rw [@view_elsewhere { s with fromWorker := rest } _ id _ hlog' helse, view_fromWorker_ne hworker hid']
          exact hphases id
  | closing c channel hclient hended hup hchannel hclosing hheeded =>
    obtain ⟨hnames, hexpects, hafter, hends⟩ := hheeded.next hback
    have hmem : channel ∈ s.relay.all := mem_append_right _ (mem_of_find?_eq_some hclosing)
    have hid : channel.id = frame.channelId := id_of_find hclosing
    obtain ⟨hself, hother⟩ := find_heard ht hmem hid (subset_append_left s.relay.channels s.relay.closing)
    obtain ⟨hself', hother'⟩ := find_heard ht hmem hid (subset_append_right s.relay.channels s.relay.closing)
    have hnone : find s.relay.channels frame.channelId = none := hchannel
    have hfound : find s.relay.closing frame.channelId = some channel := hclosing
    rw [hnone, map_none] at hself
    rw [hfound, map_some] at hself'
    have heq := @receiveWorker_awaited limits session s.relay channel frame consume answers hcurrent hnames hnone hfound hexpects
    refine .inr ⟨?_, fun id => ?_⟩
    · rw [heq]
      split <;> rfl
    have hquiet : ∀ id, ∀ event ∈ ([] : List Event), Event.endsChannel id event = false ∧ event.sentToWorker = none :=
      fun _ event hevent => absurd hevent not_mem_nil
    by_cases hkind : frame.header.kind.ends
    · rw [if_pos hkind] at heq
      rw [heq]
      by_cases hid' : frame.channelId = id
      · subst hid'
        obtain ⟨hempty, w, hw, hended', hdown⟩ := hends hkind
        rw [view_heard rfl hquiet, find_filter, if_pos rfl]
        refine .ended c w hclient ?_ hself rfl (by simp [hkind]) hw hended' hdown hempty
        rw [hup]
        exact fun f hf => absurd hf not_mem_nil
      · have helse : Elsewhere id s.relay { s.relay.heard channel.serial frame with
            closing := (s.relay.heard channel.serial frame).closing.filter fun d => d.id ≠ frame.header.channelId }
            [.fromWorker channel.serial frame] := by
          refine elsewhere_worker hid' (hother id hid') ?_ (hquiet id)
          rw [find_filter, if_neg (Ne.symm hid')]
          exact hother' id hid'
        rw [@view_elsewhere { s with fromWorker := rest } _ id _ rfl helse, view_fromWorker_ne hworker hid']
        exact hphases id
    · rw [if_neg hkind] at heq
      rw [heq]
      by_cases hid' : frame.channelId = id
      · subst hid'
        rw [view_heard rfl hquiet]
        exact .closing c (hear frame channel) hclient hended hup hself hself' (hafter rfl rfl rfl rfl)
      · have helse : Elsewhere id s.relay (s.relay.heard channel.serial frame) [.fromWorker channel.serial frame] :=
          elsewhere_worker hid' (hother id hid') (hother' id hid') (hquiet id)
        rw [@view_elsewhere { s with fromWorker := rest } _ id _ rfl helse, view_fromWorker_ne hworker hid']
        exact hphases id

/-! ## Runs -/

/-- The relay has not closed the socket for a fault of the parties. While it answers, every channel is in a phase. -/
structure Courteous (session : Session) (limits : Lane → Limit) (s : Exchange) : Prop where
  sound : s.relay.Sound limits
  code : s.relay.closedWith ≠ some 1008
  phases : ¬s.relay.Idle → ∀ id, Phase session (s.view id)

theorem courteous_start (session : Session) (limits : Lane → Limit) : Courteous session limits start :=
  ⟨sound_attach, nofun, fun _ _ => .unopened rfl rfl ⟨rfl, rfl, rfl, rfl, rfl⟩⟩

theorem not_idle_iff {k : Connection} : ¬k.Idle ↔ k.isOpen ∧ k.current := by
  unfold Idle
  rw [not_or, Bool.not_eq_false, Bool.not_eq_false]

theorem Courteous.parties (h : Courteous session limits s) (hrelay : s'.relay = s.relay)
    (hphases : (∀ id, Phase session (s.view id)) → ∀ id, Phase session (s'.view id)) : Courteous session limits s' := by
  refine ⟨?_, ?_, fun hidle => hphases (h.phases ?_)⟩
  · rw [hrelay]
    exact h.sound
  · rw [hrelay]
    exact h.code
  · rw [← hrelay]
    exact hidle

theorem Courteous.called (h : Courteous session limits s) (call : Call) (hrelay : s'.relay = s.relay.step session limits call)
    (hlive : s.relay.isOpen → s.relay.current →
      ((s.relay.step session limits call).Idle ∧ (s.relay.step session limits call).closedWith ≠ some 1008) ∨
        (s.relay.step session limits call).closedWith ≠ some 1008 ∧ ∀ id, Phase session (s'.view id)) :
    Courteous session limits s' := by
  have hsound : s'.relay.Sound limits := by
    rw [hrelay]
    exact h.sound.step session call
  by_cases hidle : s.relay.Idle
  · obtain ⟨hidle', hcode⟩ := @idle_step limits session s.relay h.sound hidle h.code call
    rw [← hrelay] at hidle' hcode
    exact ⟨hsound, hcode, fun hnot => absurd hidle' hnot⟩
  · obtain ⟨hopen, hcurrent⟩ := not_idle_iff.mp hidle
    obtain ⟨hidle', hcode⟩ | ⟨hcode, hphases⟩ := hlive hopen hcurrent
    · rw [← hrelay] at hidle' hcode
      exact ⟨hsound, hcode, fun hnot => absurd hidle' hnot⟩
    · rw [← hrelay] at hcode
      exact ⟨hsound, hcode, fun _ => hphases⟩

/-! What the parties do, as one channel sees it -/

theorem view_sent_self (s : Exchange) (frame : Frame) (side : Option ClientSide) :
    ({ s with toRelay := s.toRelay ++ [frame] }.setClient frame.channelId side).view frame.channelId =
      { s.view frame.channelId with client := side, up := (s.view frame.channelId).up ++ [frame] } := by
  unfold view setClient
  dsimp only
  rw [if_pos rfl, ofStream_concat_self rfl]
  rfl

theorem view_sent_ne (s : Exchange) (side : Option ClientSide) (hid : frame.channelId ≠ id) :
    ({ s with toRelay := s.toRelay ++ [frame] }.setClient frame.channelId side).view id = s.view id := by
  unfold view setClient
  dsimp only
  rw [if_neg (Ne.symm hid), ofStream_concat_ne hid]
  rfl

theorem clientSends_phases (hsends : s.clientSends session frame = some s') :
    s'.relay = s.relay ∧ ((∀ id, Phase session (s.view id)) → ∀ id, Phase session (s'.view id)) := by
  unfold clientSends at hsends
  dsimp only at hsends
  split at hsends
  · cases hsends
  · next hnames =>
    have hnames' : session.names frame.header := by simpa using hnames
    split at hsends
    · next hclient =>
      split at hsends
      · next hopen =>
        cases hsends
        refine ⟨rfl, fun hphases id => ?_⟩
        by_cases hid : frame.channelId = id
        · subst hid
          rw [view_sent_self]
          exact (hphases _).opens hclient hnames' hopen
        · rw [view_sent_ne s _ hid]
          exact hphases id
      · cases hsends
    · next c hclient =>
      split at hsends
      · next hmay =>
        cases hsends
        refine ⟨rfl, fun hphases id => ?_⟩
        by_cases hid : frame.channelId = id
        · subst hid
          rw [view_sent_self]
          exact (hphases _).sends hclient hnames' hmay
        · rw [view_sent_ne s _ hid]
          exact hphases id
      · cases hsends

theorem workerSends_phases (hsends : s.workerSends session frame = some s') :
    s'.relay = s.relay ∧ ((∀ id, Phase session (s.view id)) → ∀ id, Phase session (s'.view id)) := by
  unfold workerSends at hsends
  dsimp only at hsends
  split at hsends
  · cases hsends
  · next w hworker =>
    split at hsends
    · next hmay =>
      obtain ⟨hnames, hmay⟩ := Bool.and_eq_true_iff.mp hmay
      cases hsends
      refine ⟨rfl, fun hphases id => ?_⟩
      by_cases hid : frame.channelId = id
      · subst hid
        have hphase := (hphases frame.channelId).workerSends hworker hnames hmay
        unfold view at hphase ⊢
        unfold setWorker
        dsimp only at hphase ⊢
        rw [if_pos rfl, ofStream_concat_self rfl]
        exact hphase
      · have hphase := hphases id
        unfold view at hphase ⊢
        unfold setWorker
        dsimp only at hphase ⊢
        rw [if_neg (Ne.symm hid), ofStream_concat_ne hid]
        exact hphase
    · cases hsends

theorem workerTakes_phases {h : Header} {rest : List Header} (hworker : s.toWorker = h :: rest)
    (hphases : ∀ id, Phase session (s.view id)) (id : Utf16) : Phase session
      (({ s with toWorker := rest }.setWorker h.channelId (WorkerSide.take (s.worker h.channelId) h)).view id) := by
  by_cases hid : h.channelId = id
  · subst hid
    have hdown : (s.view h.channelId).down = h :: ofStream Header.channelId h.channelId rest := by
      unfold view
      rw [hworker]
      exact ofStream_cons_self rfl
    have hphase := (hphases h.channelId).workerTakes hdown
    unfold view at hphase ⊢
    unfold setWorker
    dsimp only at hphase ⊢
    rw [if_pos rfl]
    exact hphase
  · have hphase := hphases id
    unfold view at hphase ⊢
    unfold setWorker
    dsimp only at hphase ⊢
    rw [if_neg (Ne.symm hid)]
    rw [hworker, ofStream_cons_ne hid] at hphase
    exact hphase

theorem clientTakes_phases (ends : Bool) (toClient : List Frame) (hphases : ∀ id, Phase session (s.view id)) (x id : Utf16) :
    Phase session (({ s with toClient }.setClient x
      ((s.client x).map fun c : ClientSide => { c with ended := c.ended || ends })).view id) := by
  by_cases hid : id = x
  · subst hid
    have hphase := (hphases id).hears ends
    unfold view at hphase ⊢
    unfold setClient
    dsimp only at hphase ⊢
    rw [if_pos rfl]
    exact hphase
  · have hphase := hphases id
    unfold view at hphase ⊢
    unfold setClient
    dsimp only at hphase ⊢
    rw [if_neg hid]
    exact hphase

theorem Courteous.step {s' : Exchange} {act : Act} (h : Courteous session limits s) (hmeets : s.Meets act)
    (hstep : s.step session limits act = some s') : Courteous session limits s' := by
  cases act with
  | clientSends frame => exact h.parties (clientSends_phases hstep).1 (clientSends_phases hstep).2
  | relayTakesClient answers =>
    unfold Exchange.step at hstep
    dsimp only at hstep
    split at hstep
    · cases hstep
    · next frame rest hrelay =>
      cases hstep
      refine h.called (.receiveClient true (some frame) answers) rfl fun hopen hcurrent => ?_
      obtain hspared | ⟨hcode, hphases⟩ :=
        takes_client h.sound hopen hcurrent (h.phases (not_idle_iff.mpr ⟨hopen, hcurrent⟩)) hrelay answers hmeets
      · exact .inl ⟨.inl hspared.shut, hspared.code⟩
      · exact .inr ⟨fun hcode' => h.code (hcode.symm.trans hcode'), hphases⟩
  | workerTakes =>
    unfold Exchange.step at hstep
    dsimp only at hstep
    split at hstep
    · cases hstep
    · next header rest hworker =>
      cases hstep
      exact h.parties rfl fun hphases id => workerTakes_phases hworker hphases id
  | workerSends frame => exact h.parties (workerSends_phases hstep).1 (workerSends_phases hstep).2
  | relayTakesWorker consume answers =>
    unfold Exchange.step at hstep
    dsimp only at hstep
    split at hstep
    · cases hstep
    · next frame rest hworker =>
      cases hstep
      refine h.called (.receiveWorker frame consume answers) rfl fun hopen hcurrent => ?_
      obtain hspared | ⟨hcode, hphases⟩ :=
        takes_worker h.sound hopen hcurrent (h.phases (not_idle_iff.mpr ⟨hopen, hcurrent⟩)) hworker consume answers
      · exact .inl ⟨.inl hspared.shut, hspared.code⟩
      · exact .inr ⟨fun hcode' => h.code (hcode.symm.trans hcode'), hphases⟩
  | clientTakes =>
    unfold Exchange.step at hstep
    dsimp only at hstep
    split at hstep
    · cases hstep
    · next frame rest hclient =>
      cases hstep
      exact h.parties rfl fun hphases id => clientTakes_phases _ rest hphases frame.channelId id
  | relayCalled call =>
    unfold Exchange.step at hstep
    dsimp only at hstep
    split at hstep
    · cases hstep
    · next hcall =>
      cases hstep
      refine h.called call rfl fun hopen hcurrent => ?_
      obtain hserves | hidle := @called_step limits session s.relay call (by simpa using hcall) hopen h.code
      · refine .inr ⟨?_, fun id => ?_⟩
        · rw [hserves.closedWith]
          exact h.code
        · rw [view_serves hserves]
          exact h.phases (not_idle_iff.mpr ⟨hopen, hcurrent⟩) id
      · exact .inl hidle

theorem Courteous.run {acts : List Act} (h : Courteous session limits s) (hmeets : MeetsAlong session limits s acts)
    (hrun : Exchange.run session limits s acts = some s') : Courteous session limits s' := by
  induction acts generalizing s with
  | nil =>
    cases hrun
    exact h
  | cons act acts ih =>
    obtain ⟨hact, hrest⟩ := hmeets
    obtain ⟨m, hstep, hrun'⟩ := bind_eq_some_iff.mp hrun
    exact ih (h.step hact hstep) (hrest m hstep) hrun'

end Exchange

open Exchange

/-- While no frame of the client crosses the worker's end of its channel, and no more than 1024 closes of the client
are unanswered, the relay never closes the socket with 1008, whatever the order of the steps. -/
theorem relay_courteous (session : Session) (limits : Lane → Limit) (acts : List Act) (s : Exchange)
    (hrun : Exchange.run session limits start acts = some s) (hmeets : MeetsAlong session limits start acts) :
    s.relay.closedWith ≠ some 1008 :=
  ((courteous_start session limits).run hmeets hrun).code

def sampleSession : Session := ⟨[1], 1⟩

def sampleLimits : Lane → Limit := fun _ => ⟨8, 65536⟩

def frameOn (channel : Utf16) (sequence : Nat) (safe : sequence ≤ maxSequence) (kind : Kind) : Frame :=
  { header := { sessionId := [1], routeGeneration := 1, effectiveRoute := .relay, channelId := channel, connectionId := [3],
                lane := .stream, sequence, safe, kind },
    bytes := [], payload := [] }

def granted : Connection.ClientAnswers := { acquire := true, consume := true, worker := true }

def ready : Connection.SocketAnswers := { buffered := fun _ => 0, sent := fun _ => true, now := fun _ => 0 }

/-- Two channels are opened and both sides close the first, at the same time. -/
def bothClose : List Act :=
  [.clientSends (frameOn [4] 0 (by decide) (.open [5] .terminal)), .relayTakesClient granted, .workerTakes,
    .clientSends (frameOn [6] 0 (by decide) (.open [5] .terminal)), .relayTakesClient granted, .workerTakes,
    .workerSends (frameOn [4] 0 (by decide) .accept), .relayTakesWorker true ready,
    .workerSends (frameOn [4] 1 (by decide) .close), .clientSends (frameOn [4] 1 (by decide) .close)]

/-- The close of the client is the first to reach the relay. -/
theorem relay_courteous_bothClose : ∃ s,
    Exchange.run sampleSession sampleLimits start (bothClose ++ [.relayTakesClient granted, .relayTakesWorker true ready]) = some s ∧
      s.relay.closedWith ≠ some 1008 :=
  ⟨_, rfl, relay_courteous sampleSession sampleLimits
    (bothClose ++ [.relayTakesClient granted, .relayTakesWorker true ready]) _ rfl (by decide)⟩

/-- The close of the worker is the first to reach the relay, and the socket of both channels is closed. -/
theorem crossing_close_punished : (Exchange.run sampleSession sampleLimits start
        (bothClose ++ [.relayTakesWorker true ready, .relayTakesClient granted])).map
      (fun s => (s.relay.closedWith, s.relay.channels.map Channel.id)) = some (some 1008, [[6]]) := by
  decide

end Cantrip.Relay
