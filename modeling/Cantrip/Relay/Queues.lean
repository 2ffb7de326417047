import Cantrip.Relay.Tables

/-!
# The lanes of a relay connection

A frame is queued on its own lane and behind the frames that are there, so what the client was sent of a channel,
followed by what is queued of it, is what the worker sent (`Streams`). The counters are the sums over the queues
(`Queues`).
-/

namespace Cantrip.Relay

open Lib List

namespace Connection

variable {attended : Prop} {limits : Lane → Limit} {k k' : Connection}

/-! ## Counters -/

structure Queues (limits : Lane → Limit) (k : Connection) : Prop where
  placed : ∀ lane, ∀ q ∈ (k.lanes lane).frames, q.frame.header.lane = lane
  laneBytes : ∀ lane, (k.lanes lane).bytes = ((k.lanes lane).frames.map fun q => q.frame.bytes.length).sum
  laneFrames : ∀ lane, (k.lanes lane).frames.length ≤ (limits lane).maxQueuedFrames
  laneLimit : ∀ lane, (k.lanes lane).bytes ≤ (limits lane).maxQueuedBytes
  bytes : k.bytes = (laneOrder.map fun lane => (k.lanes lane).bytes).sum
  frames : k.frames = (laneOrder.map fun lane => (k.lanes lane).frames.length).sum

namespace Queues

theorem sum_setLane (f : Queue → Nat) (lane : Lane) (queue : Queue) :
    (laneOrder.map fun other => f ((k.setLane lane queue).lanes other)).sum + f (k.lanes lane) =
      (laneOrder.map fun other => f (k.lanes other)).sum + f queue := by
  cases lane <;> simp [laneOrder, setLane] <;> omega

theorem same (h : k.Queues limits) (hlanes : k'.lanes = k.lanes) (hbytes : k'.bytes = k.bytes) (hframes : k'.frames = k.frames) :
    k'.Queues limits := by
  refine ⟨?_, ?_, ?_, ?_, ?_, ?_⟩
  · rw [hlanes]
    exact h.placed
  · rw [hlanes]
    exact h.laneBytes
  · rw [hlanes]
    exact h.laneFrames
  · rw [hlanes]
    exact h.laneLimit
  · rw [hlanes, hbytes]
    exact h.bytes
  · rw [hlanes, hframes]
    exact h.frames

theorem setLane {lane : Lane} {queue : Queue} {bytes frames : Nat} (h : k.Queues limits)
    (hplaced : ∀ q ∈ queue.frames, q.frame.header.lane = lane)
    (hsum : queue.bytes = (queue.frames.map fun q => q.frame.bytes.length).sum)
    (hlength : queue.frames.length ≤ (limits lane).maxQueuedFrames) (hlimit : queue.bytes ≤ (limits lane).maxQueuedBytes)
    (hbytes : bytes + (k.lanes lane).bytes = k.bytes + queue.bytes)
    (hframes : frames + (k.lanes lane).frames.length = k.frames + queue.frames.length) :
    { k.setLane lane queue with bytes, frames }.Queues limits := by
  have hlanes : ∀ other, (k.setLane lane queue).lanes other = if other = lane then queue else k.lanes other := fun _ => rfl
  refine ⟨fun other => ?_, fun other => ?_, fun other => ?_, fun other => ?_, ?_, ?_⟩
  · dsimp only
    rw [hlanes]
    split
    · next hsame => exact hsame ▸ hplaced
    · exact h.placed other
  · dsimp only
    rw [hlanes]
    split
    · exact hsum
    · exact h.laneBytes other
  · dsimp only
    rw [hlanes]
    split
    · next hsame => exact hsame ▸ hlength
    · exact h.laneFrames other
  · dsimp only
    rw [hlanes]
    split
    · next hsame => exact hsame ▸ hlimit
    · exact h.laneLimit other
  · have htotal := @sum_setLane k Queue.bytes lane queue
    have hk := h.bytes
    dsimp only at htotal ⊢
    omega
  · have htotal := @sum_setLane k (fun queue => queue.frames.length) lane queue
    have hk := h.frames
    dsimp only at htotal ⊢
    omega

theorem le_bytes (h : k.Queues limits) (lane : Lane) : (k.lanes lane).bytes ≤ k.bytes := by
  rw [h.bytes]
  cases lane <;> simp [laneOrder] <;> omega

theorem le_frames (h : k.Queues limits) (lane : Lane) : (k.lanes lane).frames.length ≤ k.frames := by
  rw [h.frames]
  cases lane <;> simp [laneOrder] <;> omega

theorem enqueue {n : Nat} {frame : Frame} (h : k.Queues limits)
    (hframes : (k.lanes frame.header.lane).frames.length < (limits frame.header.lane).maxQueuedFrames)
    (hbytes : (k.lanes frame.header.lane).bytes + frame.bytes.length ≤ (limits frame.header.lane).maxQueuedBytes) :
    (k.enqueue n frame).Queues limits := by
  refine h.setLane (fun q hq => ?_) ?_ ?_ hbytes ?_ ?_
  · rcases mem_append.mp hq with hq | hq
    · exact h.placed _ q hq
    · rw [mem_singleton.mp hq]
  · simp [h.laneBytes frame.header.lane]
  · simpa using Nat.succ_le_of_lt hframes
  · exact Nat.add_right_comm _ _ _ |>.trans (Nat.add_assoc _ _ _)
  · simp only [length_append, length_singleton]
    exact Nat.add_right_comm _ _ _ |>.trans (Nat.add_assoc _ _ _)

theorem pop {lane : Lane} {q : Queued} (h : k.Queues limits) (hpop : k.pop lane = some (q, k')) : k'.Queues limits := by
  unfold Connection.pop at hpop
  split at hpop
  · cases hpop
  · next first rest hlane =>
    cases hpop
    have hplaced := h.placed lane
    have hsum := h.laneBytes lane
    have hlength := h.laneFrames lane
    have hlimit := h.laneLimit lane
    have hle := h.le_bytes lane
    have hle' := h.le_frames lane
    rw [hlane] at hplaced hsum hlength hle'
    simp only [map_cons, sum_cons, length_cons] at hsum hlength hle'
    refine h.setLane (fun q hq => hplaced q (mem_cons_of_mem _ hq)) ?_ ?_ ?_ ?_ ?_
    · dsimp only
      omega
    · dsimp only
      omega
    · dsimp only
      omega
    · dsimp only [Connection.setLane]
      omega
    · dsimp only [Connection.setLane]
      rw [hlane]
      simp only [length_cons]
      omega

theorem move (h : k.Queues limits) (hmove : Move attended limits k k') : k'.Queues limits := by
  cases hmove with
  | quiet hquiet => exact h.same hquiet.lanes hquiet.bytes hquiet.frames
  | opening frame grant resource acquire taken hclosed hattended hkind hchannels hclosing hretain =>
    obtain ⟨surfaces, rfl⟩ := retainSurface_eq hretain
    exact h.same rfl rfl rfl
  | next => exact h.same rfl rfl rfl
  | released id awaitClose hclosed hfound hreason =>
    unfold release
    rw [hfound]
    exact h.same rfl rfl rfl
  | awaited => exact h.same rfl rfl rfl
  | forgotten => exact h.same rfl rfl rfl
  | dropped => exact h.same rfl rfl rfl
  | sent => exact h.same rfl rfl rfl
  | queued frame hclosed hheard hopen hframes hbytes =>
    exact enqueue (h.same rfl rfl rfl) hframes hbytes
  | popped lane hclosed hopen hpop => exact (h.pop hpop).same rfl rfl rfl
  | lost lane hclosed hpop => exact (h.pop hpop).same rfl rfl rfl
  | retired hclosed =>
    unfold retire
    rw [if_neg (by simp [hclosed])]
    exact ⟨nofun, fun _ => rfl, fun _ => Nat.zero_le _, fun _ => Nat.zero_le _, rfl, rfl⟩

end Queues

/-! ## Streams to the client -/

def on (lane : Lane) (frames : List Frame) : List Frame := frames.filter fun frame => frame.header.lane = lane

/-- What is queued of channel `n` on the lane. -/
def queuedOn (k : Connection) (n : Nat) (lane : Lane) : List Frame :=
  ((k.lanes lane).frames.filter fun q => q.channel = n).map Queued.frame

/-- What the client was sent is a beginning of what came from the worker, with what is queued while the socket is
open, and all of it for an open channel. -/
structure Streams (k : Connection) : Prop where
  begun : ∀ n lane, on lane (shown n k.log) <+: on lane (arrived n k.log)
  pending : k.isOpen → ∀ n lane, on lane (shown n k.log) ++ k.queuedOn n lane <+: on lane (arrived n k.log)
  complete : k.isOpen → ∀ n ∈ k.channels.map Channel.serial, ∀ lane,
    on lane (shown n k.log) ++ k.queuedOn n lane = on lane (arrived n k.log)

namespace Streams

theorem of_begun (hbegun : ∀ n lane, on lane (shown n k.log) <+: on lane (arrived n k.log)) (hshut : k.isOpen = false) :
    k.Streams := by
  refine ⟨hbegun, fun hopen => ?_, fun hopen => ?_⟩
  · rw [hshut] at hopen
    cases hopen
  · rw [hshut] at hopen
    cases hopen

theorem neutral (h : k.Streams) (hisOpen : k'.isOpen → k.isOpen) (hlanes : k'.lanes = k.lanes)
    (hserials : k'.channels.map Channel.serial ⊆ k.channels.map Channel.serial) (hshown : ∀ n, shown n k'.log = shown n k.log)
    (harrived : ∀ n, arrived n k'.log = arrived n k.log) : k'.Streams := by
  have hqueued : ∀ n lane, k'.queuedOn n lane = k.queuedOn n lane := fun n lane => by unfold queuedOn; rw [hlanes]
  refine ⟨fun n lane => ?_, fun hopen n lane => ?_, fun hopen n hn lane => ?_⟩
  · rw [hshown, harrived]
    exact h.begun n lane
  · rw [hshown, harrived, hqueued]
    exact h.pending (hisOpen hopen) n lane
  · rw [hshown, harrived, hqueued]
    exact h.complete (hisOpen hopen) n (hserials hn) lane

theorem on_append (lane : Lane) (frames more : List Frame) : on lane (frames ++ more) = on lane frames ++ on lane more :=
  filter_append ..

theorem arrive {n : Nat} {frame : Frame} (h : k.Streams) (hn : k.isOpen → n ∉ k.channels.map Channel.serial) :
    (k.heard n frame).Streams := by
  have hshown : ∀ m, shown m (k.heard n frame).log = shown m k.log := by
    intro m
    refine (shown_concat m k.log _).trans ?_
    simp [Event.shows]
  have harrived : ∀ m, arrived m (k.heard n frame).log = arrived m k.log ++ (Event.arrives m (.fromWorker n frame)).toList :=
    fun m => arrived_concat m k.log _
  have hserials : (k.heard n frame).channels.map Channel.serial = k.channels.map Channel.serial :=
    Account.serials_modify fun _ => rfl
  refine ⟨fun m lane => ?_, fun hopen m lane => ?_, fun hopen m hm lane => ?_⟩
  · rw [hshown, harrived, on_append]
    exact (h.begun m lane).trans (prefix_append _ _)
  · rw [hshown, harrived, on_append]
    exact (h.pending hopen m lane).trans (prefix_append _ _)
  · rw [hserials] at hm
    have hne : n ≠ m := fun he => hn hopen (he ▸ hm)
    have hsame : arrived m (k.heard n frame).log = arrived m k.log := by
      rw [harrived]
      simp [Event.arrives, hne]
    rw [hshown, hsame]
    exact h.complete hopen m hm lane

theorem on_singleton (lane : Lane) (frame : Frame) : on lane [frame] = if frame.header.lane = lane then [frame] else [] := by
  unfold on
  rw [filter_singleton]
  by_cases h : frame.header.lane = lane <;> simp [h]

theorem send {n : Nat} {frame : Frame} (h : k.Streams) (hopen : k.isOpen) (hn : n ∈ k.channels.map Channel.serial)
    (hempty : (k.lanes frame.header.lane).frames = []) : ((k.heard n frame).record (.toClient n frame)).Streams := by
  have hshown : ∀ m, shown m ((k.heard n frame).record (.toClient n frame)).log =
      shown m k.log ++ if n = m then [frame] else [] := by
    intro m
    refine (shown_concat m (k.log ++ [.fromWorker n frame]) _).trans ?_
    rw [shown_concat]
    by_cases hm : n = m <;> simp [Event.shows, hm]
  have harrived : ∀ m, arrived m ((k.heard n frame).record (.toClient n frame)).log =
      arrived m k.log ++ if n = m then [frame] else [] := by
    intro m
    refine (arrived_concat m (k.log ++ [.fromWorker n frame]) _).trans ?_
    rw [arrived_concat]
    by_cases hm : n = m <;> simp [Event.arrives, hm]
  have hserials : (k.heard n frame).channels.map Channel.serial = k.channels.map Channel.serial :=
    Account.serials_modify fun _ => rfl
  have hcomplete : ∀ m ∈ k.channels.map Channel.serial, ∀ lane,
      on lane (shown m ((k.heard n frame).record (.toClient n frame)).log) ++ k.queuedOn m lane =
        on lane (arrived m ((k.heard n frame).record (.toClient n frame)).log) := by
    intro m hm lane
    have hall := h.complete hopen m hm lane
    rw [hshown, harrived, on_append, on_append, ← hall]
    by_cases hsame : n = m
    · rw [if_pos hsame, on_singleton]
      by_cases hlane : frame.header.lane = lane
      · subst hlane
        simp [queuedOn, hempty]
      · simp [hlane]
    · simp [hsame, on]
  have hpending : ∀ m lane, on lane (shown m ((k.heard n frame).record (.toClient n frame)).log) ++ k.queuedOn m lane <+:
      on lane (arrived m ((k.heard n frame).record (.toClient n frame)).log) := by
    intro m lane
    by_cases hsame : n = m
    · rw [hcomplete m (hsame ▸ hn) lane]
    · rw [hshown, harrived]
      simpa [hsame] using h.pending hopen m lane
  refine ⟨fun m lane => (prefix_append _ _).trans (hpending m lane), fun _ => hpending, fun _ m hm => ?_⟩
  refine hcomplete m ?_
  rw [← hserials]
  exact hm

theorem queuedOn_enqueue (n m : Nat) (frame : Frame) (lane : Lane) : (k.enqueue n frame).queuedOn m lane =
    k.queuedOn m lane ++ if n = m then on lane [frame] else [] := by
  rw [on_singleton]
  unfold queuedOn Connection.enqueue Connection.setLane
  dsimp only
  by_cases hlane : lane = frame.header.lane
  · subst hlane
    rw [if_pos rfl, filter_append, filter_singleton]
    by_cases hm : n = m <;> simp [hm]
  · have hlane' : frame.header.lane ≠ lane := fun he => hlane he.symm
    simp [hlane, hlane']

theorem enqueue {n : Nat} {frame : Frame} (h : k.Streams) (hopen : k.isOpen) (hn : n ∈ k.channels.map Channel.serial) :
    ((k.heard n frame).enqueue n frame).Streams := by
  have hshown : ∀ m, shown m ((k.heard n frame).enqueue n frame).log = shown m k.log := by
    intro m
    refine (shown_concat m k.log _).trans ?_
    simp [Event.shows]
  have harrived : ∀ m, arrived m ((k.heard n frame).enqueue n frame).log =
      arrived m k.log ++ if n = m then [frame] else [] := by
    intro m
    refine (arrived_concat m k.log _).trans ?_
    by_cases hm : n = m <;> simp [Event.arrives, hm]
  have hqueued : ∀ m lane, ((k.heard n frame).enqueue n frame).queuedOn m lane =
      k.queuedOn m lane ++ if n = m then on lane [frame] else [] := fun m lane => queuedOn_enqueue n m frame lane
  have hserials : (k.heard n frame).channels.map Channel.serial = k.channels.map Channel.serial :=
    Account.serials_modify fun _ => rfl
  have hcomplete : ∀ m ∈ k.channels.map Channel.serial, ∀ lane,
      on lane (shown m ((k.heard n frame).enqueue n frame).log) ++ ((k.heard n frame).enqueue n frame).queuedOn m lane =
        on lane (arrived m ((k.heard n frame).enqueue n frame).log) := by
    intro m hm lane
    rw [hshown, harrived, hqueued, on_append, ← append_assoc, h.complete hopen m hm lane]
    by_cases hsame : n = m
    · rw [if_pos hsame, if_pos hsame]
    · rw [if_neg hsame, if_neg hsame]
      rfl
  have hpending : ∀ m lane,
      on lane (shown m ((k.heard n frame).enqueue n frame).log) ++ ((k.heard n frame).enqueue n frame).queuedOn m lane <+:
        on lane (arrived m ((k.heard n frame).enqueue n frame).log) := by
    intro m lane
    by_cases hsame : n = m
    · rw [hcomplete m (hsame ▸ hn) lane]
    · rw [hshown, harrived, hqueued]
      simpa [hsame] using h.pending hopen m lane
  refine ⟨fun m lane => (prefix_append _ _).trans (hpending m lane), fun _ => hpending, fun _ m hm => ?_⟩
  refine hcomplete m ?_
  rw [← hserials]
  exact hm

theorem pop {lane : Lane} {q : Queued} (h : k.Streams) (hq : k.Queues limits) (hopen : k.isOpen)
    (hpop : k.pop lane = some (q, k')) : (k'.record (.toClient q.channel q.frame)).Streams := by
  unfold Connection.pop at hpop
  split at hpop
  · cases hpop
  · next first rest hframes =>
    cases hpop
    have hlane : q.frame.header.lane = lane := hq.placed lane q (by rw [hframes]; exact mem_cons_self)
    generalize hk : ({ k.setLane lane ⟨(k.lanes lane).bytes - q.frame.bytes.length, rest⟩ with
      bytes := _, frames := _ } : Connection) = popped
    -- what is sent and what is queued are together what they were
    have hqueued : ∀ m other, k.queuedOn m other =
        (if q.channel = m then on other [q.frame] else []) ++ popped.queuedOn m other := by
      intro m other
      rw [on_singleton, hlane, ← hk]
      unfold queuedOn Connection.setLane
      dsimp only
      by_cases hother : other = lane
      · rw [if_pos hother, hother, hframes, filter_cons]
        by_cases hm : q.channel = m <;> simp [hm]
      · have hother' : lane ≠ other := fun he => hother he.symm
        simp [hother, hother']
    have hshown : ∀ m, shown m (popped.record (.toClient q.channel q.frame)).log =
        shown m k.log ++ if q.channel = m then [q.frame] else [] := by
      intro m
      rw [← hk]
      refine (shown_concat m k.log _).trans ?_
      by_cases hm : q.channel = m <;> simp [Event.shows, hm]
    have harrived : ∀ m, arrived m (popped.record (.toClient q.channel q.frame)).log = arrived m k.log := by
      intro m
      rw [← hk]
      refine (arrived_concat m k.log _).trans ?_
      simp [Event.arrives]
    have htogether : ∀ m other, on other (shown m (popped.record (.toClient q.channel q.frame)).log) ++
        popped.queuedOn m other = on other (shown m k.log) ++ k.queuedOn m other := by
      intro m other
      rw [hshown, hqueued, on_append, append_assoc]
      by_cases hm : q.channel = m
      · rw [if_pos hm, if_pos hm]
      · rw [if_neg hm, if_neg hm]
        rfl
    have hchannels : popped.channels = k.channels := by rw [← hk]; rfl
    refine ⟨fun m other => ?_, fun _ m other => ?_, fun _ m hm other => ?_⟩
    · rw [harrived]
      refine (prefix_append _ (popped.queuedOn m other)).trans ?_
      rw [htogether]
      exact h.pending hopen m other
    · rw [harrived]
      exact (htogether m other).symm ▸ h.pending hopen m other
    · rw [harrived]
      refine (htogether m other).trans (h.complete hopen m ?_ other)
      rw [← hchannels]
      exact hm

theorem withChannel (h : k.Streams) (ht : k.Tables) (grant : Utf16) (frame : Frame) : (k.withChannel grant frame).Streams := by
  refine ⟨h.begun, h.pending, fun hopen n hn lane => ?_⟩
  have hserials : (k.withChannel grant frame).channels.map Channel.serial = k.channels.map Channel.serial ++ [k.opened] := by
    simp [Connection.withChannel, openChannel]
  rw [hserials] at hn
  rcases mem_append.mp hn with hn | hn
  · exact h.complete hopen n hn lane
  · obtain rfl := mem_singleton.mp hn
    have harrived : arrived k.opened k.log = [] :=
      (counts_eq_nil fun event hevent => ht.logged event hevent _ (Nat.le_refl _)).2.2
    have hbegun := h.pending hopen k.opened lane
    rw [harrived] at hbegun
    refine (prefix_nil.mp hbegun).trans ?_
    dsimp only [Connection.withChannel]
    rw [harrived]
    rfl

theorem counted (h : k.Streams) (n : Nat) (frame : Frame) (taken : Bool) : (k.counted n frame taken).Streams := by
  have hserials : (k.counted n frame taken).channels.map Channel.serial = k.channels.map Channel.serial :=
    Account.serials_modify fun _ => rfl
  refine h.neutral (fun hopen => ?_) rfl (by rw [hserials]; exact List.Subset.refl _) (fun m => ?_) fun m => ?_
  · exact (Bool.and_eq_true_iff.mp hopen).1
  · refine (shown_concat m k.log _).trans ?_
    simp [Event.shows]
  · refine (arrived_concat m k.log _).trans ?_
    simp [Event.arrives]

theorem retire (h : k.Streams) (hclosed : k.closed = false) : k.retire.Streams := by
  have hshown : ∀ n, shown n (k.log ++ k.channels.map fun c => Event.retired c.serial (closeHeader c)) = shown n k.log :=
    fun n => Tables.filterMap_retired (fun _ _ => rfl) k.log k.channels
  have harrived : ∀ n, arrived n (k.log ++ k.channels.map fun c => Event.retired c.serial (closeHeader c)) = arrived n k.log :=
    fun n => Tables.filterMap_retired (fun _ _ => rfl) k.log k.channels
  unfold Connection.retire
  rw [if_neg (by simp [hclosed])]
  refine ⟨fun n lane => ?_, fun _ n lane => ?_, nofun⟩
  · dsimp only
    rw [hshown, harrived]
    exact h.begun n lane
  · dsimp only
    rw [hshown, harrived]
    simpa [queuedOn] using h.begun n lane

theorem move (h : k.Streams) (ht : k.Tables) (hq : k.Queues limits) (hmove : Move attended limits k k') : k'.Streams := by
  cases hmove with
  | quiet hquiet =>
    refine h.neutral hquiet.isOpen hquiet.lanes ?_ (fun n => by rw [hquiet.log]) fun n => by rw [hquiet.log]
    rw [hquiet.channels]
    exact List.Subset.refl _
  | opening frame grant resource acquire taken hclosed hattended hkind hchannels hclosing hretain =>
    obtain ⟨surfaces, rfl⟩ := retainSurface_eq hretain
    have hsurfaces : { k with surfaces }.Streams := ⟨h.begun, h.pending, h.complete⟩
    have htables : { k with surfaces }.Tables := ht.shrink (List.Subperm.refl _) rfl rfl ht.current
    exact (hsurfaces.withChannel htables grant frame).counted _ frame taken
  | next frame taken hclosed hattended hkind hfound hsequence => exact h.counted _ frame taken
  | released id awaitClose hclosed hfound hreason =>
    unfold release
    rw [hfound]
    refine h.neutral (fun hopen => hopen) rfl ?_ (fun n => ?_) fun n => ?_
    · exact map_subset _ (filter_subset_self _)
    · refine (shown_concat n k.log _).trans ?_
      simp [Event.shows]
    · refine (arrived_concat n k.log _).trans ?_
      simp [Event.arrives]
  | awaited frame hclosed hheard =>
    have hmem := mem_of_find?_eq_some hheard.found
    refine h.arrive fun _ hn => ?_
    have hserials := ht.serials
    rw [all, map_append, nodup_append] at hserials
    exact hserials.2.2 _ hn _ (mem_map_of_mem hmem) rfl
  | forgotten => exact h.neutral (fun hopen => hopen) rfl (List.Subset.refl _) (fun _ => rfl) fun _ => rfl
  | dropped frame hclosed hheard =>
    have hshut : { k with isOpen := false }.Streams := of_begun h.begun rfl
    exact of_begun (hshut.arrive fun hopen => absurd hopen Bool.false_ne_true).begun rfl
  | sent frame hclosed hheard hopen hempty =>
    exact h.send hopen (mem_map_of_mem (mem_of_find?_eq_some hheard.found)) hempty
  | queued frame hclosed hheard hopen hframes hbytes =>
    exact h.enqueue hopen (mem_map_of_mem (mem_of_find?_eq_some hheard.found))
  | popped lane hclosed hopen hpop => exact h.pop hq hopen hpop
  | lost lane hclosed hpop =>
    obtain ⟨lanes, bytes, frames, rfl⟩ := pop_eq hpop
    exact of_begun h.begun rfl
  | retired hclosed => exact h.retire hclosed

end Streams

end Connection

end Cantrip.Relay
