import Cantrip.Relay.Queues

/-!
# Relay ordering and accounting

The worker is handed the frames of the client in order, as long as they are read from an open socket, and a close
frame after them when the connection is retired under an open channel; the client is sent the frames of the
worker in order, whichever way they took; the counters are those of the queues; and a permit for remote surfaces is
held while a channel needs it.
-/

namespace Cantrip.Relay

open Lib List

def Channel.surface (c : Channel) : Bool :=
  match c.header.kind with
  | .open _ resource => resource.remoteSurface
  | _ => false

namespace Connection

variable {attended : Prop} {limits : Lane → Limit} {k k' : Connection}

/-! ## Permits -/

/-- What the permits have to know of the channels. -/
def faces (k : Connection) : List (Utf16 × Utf16 × Bool) := k.channels.map fun c => (c.id, c.grant, c.surface)

structure Permits (k : Connection) : Prop where
  grants : (k.surfaces.map Surface.grant).Nodup
  used : ∀ s ∈ k.surfaces, s.channels ≠ ∅
  held : ∀ s ∈ k.surfaces, ∀ id, id ∈ s.channels ↔ (id, s.grant, true) ∈ k.faces
  covered : ∀ id grant, (id, grant, true) ∈ k.faces → ∃ s ∈ k.surfaces, s.grant = grant

namespace Permits

theorem same (h : k.Permits) (hfaces : k'.faces = k.faces) (hsurfaces : k'.surfaces = k.surfaces) : k'.Permits := by
  refine ⟨?_, ?_, ?_, ?_⟩
  · rw [hsurfaces]
    exact h.grants
  · rw [hsurfaces]
    exact h.used
  · rw [hsurfaces, hfaces]
    exact h.held
  · rw [hsurfaces, hfaces]
    exact h.covered

theorem faces_modify {n : Nat} {f : Channel → Channel} (hf : ∀ c, (f c).header = c.header ∧ (f c).grant = c.grant) :
    (k.modify n f).faces = k.faces := by
  unfold faces modify
  rw [map_map]
  refine map_congr_left fun c _ => ?_
  simp only [Function.comp]
  split
  · simp [Channel.id, Channel.surface, hf c]
  · rfl

theorem opening {grant : Utf16} {resource : Resource} {frame : Frame} {acquire : Bool} (h : k.Permits)
    (hkind : frame.header.kind = .open grant resource)
    (hretain : k.retainSurface grant resource frame.header.channelId acquire = some k') :
    (k'.withChannel grant frame).Permits := by
  have hnew : (openChannel k'.opened grant frame.header).surface = resource.remoteSurface := by
    simp [openChannel, Channel.surface, hkind]
  unfold retainSurface at hretain
  split at hretain
  · next hplain =>
    cases hretain
    have hfaces : ∀ id g, (id, g, true) ∈ (k.withChannel grant frame).faces ↔ (id, g, true) ∈ k.faces := by
      intro id g
      have hplain' : resource.remoteSurface = false := by simpa using hplain
      simp [faces, withChannel, hnew, hplain']
    exact ⟨h.grants, h.used, fun s hs id => (h.held s hs id).trans (hfaces id s.grant).symm,
      fun id g hface => h.covered id g ((hfaces id g).mp hface)⟩
  · next hsurface =>
    have hsurface' : resource.remoteSurface = true := by simpa using hsurface
    have hfaces : ∀ k₁ : Connection, k₁.channels = k.channels → ∀ id g, (id, g, true) ∈ (k₁.withChannel grant frame).faces ↔
        (id, g, true) ∈ k.faces ∨ (id = frame.header.channelId ∧ g = grant) := by
      intro k₁ hk₁ id g
      have hnew₁ : (openChannel k₁.opened grant frame.header).surface = true := by
        simp [openChannel, Channel.surface, hkind, hsurface']
      simp [faces, withChannel, hk₁, hnew₁]
      simp [openChannel, Channel.id]
    split at hretain
    · next hany =>
      cases hretain
      have hgrant : ∀ s : Surface, (if s.grant = grant then { s with channels := insert frame.header.channelId s.channels }
          else s).grant = s.grant := fun s => by split <;> rfl
      refine ⟨?_, fun s' hs' => ?_, fun s' hs' id => ?_, fun id g hface => ?_⟩
      · dsimp only [withChannel]
        rw [map_map]
        exact (map_congr_left fun s _ => hgrant s) ▸ h.grants
      · obtain ⟨s, hs, rfl⟩ := mem_map.mp hs'
        split
        · exact Finset.insert_ne_empty _ _
        · exact h.used s hs
      · obtain ⟨s, hs, rfl⟩ := mem_map.mp hs'
        refine Iff.trans ?_ (hfaces _ ?_ _ _).symm
        rotate_left
        · rfl
        rw [hgrant]
        by_cases hsame : s.grant = grant
        · simp only [hsame, if_true, Finset.mem_insert, and_true]
          rw [h.held s hs, hsame, or_comm]
        · simp only [hsame, if_false, and_false, or_false]
          exact h.held s hs id
      · have hexists : ∃ s ∈ k.surfaces, s.grant = g := by
          rcases (hfaces _ (by rfl) id g).mp hface with hold | ⟨-, rfl⟩
          · exact h.covered id g hold
          · simpa using hany
        obtain ⟨s, hs, rfl⟩ := hexists
        exact ⟨_, mem_map_of_mem hs, hgrant s⟩
    · next hnone =>
      have hnone' : ∀ s ∈ k.surfaces, s.grant ≠ grant := by simpa using hnone
      split at hretain
      · cases hretain
        refine ⟨?_, fun s' hs' => ?_, fun s' hs' id => ?_, fun id g hface => ?_⟩
        · dsimp only [withChannel]
          rw [map_append, map_singleton, nodup_append]
          refine ⟨h.grants, nodup_singleton _, fun g hg g' hg' => ?_⟩
          obtain ⟨s, hs, rfl⟩ := mem_map.mp hg
          rw [mem_singleton.mp hg']
          exact hnone' s hs
        · rcases mem_append.mp hs' with hs | hs
          · exact h.used s' hs
          · rw [mem_singleton.mp hs]
            exact Finset.singleton_ne_empty _
        · refine Iff.trans ?_ (hfaces _ ?_ _ _).symm
          rotate_left
          · rfl
          rcases mem_append.mp hs' with hs | hs
          · rw [h.held s' hs id]
            simp [hnone' s' hs]
          · rw [mem_singleton.mp hs]
            have hnot : (id, grant, true) ∉ k.faces := by
              intro hface
              obtain ⟨s, hs, hsame⟩ := h.covered id grant hface
              exact hnone' s hs hsame
            simp [hnot]
        · rcases (hfaces _ (by rfl) id g).mp hface with hold | ⟨-, rfl⟩
          · obtain ⟨s, hs, hsame⟩ := h.covered id g hold
            exact ⟨s, mem_append_left _ hs, hsame⟩
          · exact ⟨_, mem_append_right _ mem_cons_self, rfl⟩
      · cases hretain

theorem release {id : Utf16} {c : Channel} (h : k.Permits) (ht : k.Tables) (awaitClose : Bool)
    (hfound : find k.channels id = some c) : (k.release id awaitClose).Permits := by
  have hmem : c ∈ k.channels := mem_of_find?_eq_some hfound
  have hid : c.id = id := by simpa using find?_some hfound
  have hfaces : ∀ other g, (other, g, true) ∈ (k.release id awaitClose).faces ↔ (other, g, true) ∈ k.faces ∧ other ≠ id := by
    intro other g
    unfold Connection.release
    rw [hfound]
    simp only [faces, Connection.record, mem_map, mem_filter, Prod.mk.injEq]
    constructor
    · rintro ⟨d, ⟨hd, hne⟩, rfl, rfl, hsurface⟩
      exact ⟨⟨d, hd, rfl, rfl, hsurface⟩, by simpa using hne⟩
    · rintro ⟨⟨d, hd, rfl, rfl, hsurface⟩, hne⟩
      exact ⟨d, ⟨hd, by simpa using hne⟩, rfl, rfl, hsurface⟩
  -- the channel of that name is under its own grant
  have hgrant : ∀ g, (id, g, true) ∈ k.faces → g = c.grant := by
    intro g hface
    obtain ⟨d, hd, hsame⟩ := mem_map.mp hface
    simp only [Prod.mk.injEq] at hsame
    rw [← hsame.2.1]
    congr 1
    exact inj_on_of_nodup_map ht.ids (mem_append_left _ hd) (mem_append_left _ hmem) (hsame.1.trans hid.symm)
  have hsurfaces : (k.release id awaitClose).surfaces = freeSurface k.surfaces c.grant id := by
    unfold Connection.release
    rw [hfound]
    rfl
  have hfreed : ∀ s : Surface, (if s.grant = c.grant then { s with channels := s.channels.erase id } else s).grant = s.grant :=
    fun s => by split <;> rfl
  have hmem' : ∀ s', s' ∈ (k.release id awaitClose).surfaces ↔ ∃ s ∈ k.surfaces,
      (if s.grant = c.grant then { s with channels := s.channels.erase id } else s) = s' ∧
        ¬(s'.grant = c.grant ∧ s'.channels = ∅) := by
    intro s'
    rw [hsurfaces]
    unfold freeSurface
    simp only [mem_filter, mem_map]
    constructor
    · rintro ⟨⟨s, hs, hs'⟩, hkept⟩
      exact ⟨s, hs, hs', not_and_or.mpr (by simpa using hkept)⟩
    · rintro ⟨s, hs, hs', hkept⟩
      have hkept' := not_and_or.mp hkept
      exact ⟨⟨s, hs, hs'⟩, by simpa using hkept'⟩
  refine ⟨?_, fun s' hs' hempty => ?_, fun s' hs' other => ?_, fun other g hface => ?_⟩
  · rw [hsurfaces]
    refine List.Nodup.sublist (filter_sublist.map _) ?_
    rw [map_map]
    exact (map_congr_left fun s _ => hfreed s) ▸ h.grants
  · obtain ⟨s, hs, hsame, hkept⟩ := (hmem' s').mp hs'
    by_cases hg : s'.grant = c.grant
    · exact hkept ⟨hg, hempty⟩
    · have hg' : s.grant ≠ c.grant := by
        rw [← hsame, hfreed] at hg
        exact hg
      rw [if_neg hg'] at hsame
      exact h.used s hs (hsame ▸ hempty)
  · obtain ⟨s, hs, rfl, -⟩ := (hmem' s').mp hs'
    rw [hfaces, hfreed, ← h.held s hs]
    by_cases hg : s.grant = c.grant
    · simp only [hg, if_true, Finset.mem_erase]
      exact and_comm
    · simp only [hg, if_false]
      refine ⟨fun hother => ⟨hother, ?_⟩, And.left⟩
      rintro rfl
      exact hg (hgrant s.grant ((h.held s hs other).mp hother))
  · obtain ⟨hold, hne⟩ := (hfaces other g).mp hface
    obtain ⟨s, hs, rfl⟩ := h.covered other g hold
    refine ⟨_, (hmem' _).mpr ⟨s, hs, rfl, fun hgone => ?_⟩, hfreed s⟩
    have hother : other ∈ s.channels := (h.held s hs other).mpr hold
    by_cases hg : s.grant = c.grant
    · have hleft : other ∈ s.channels.erase id := Finset.mem_erase.mpr ⟨hne, hother⟩
      rw [if_pos hg] at hgone
      have hempty : s.channels.erase id = ∅ := hgone.2
      rw [hempty] at hleft
      exact absurd hleft (Finset.notMem_empty _)
    · rw [hfreed] at hgone
      exact hg hgone.1

theorem move (h : k.Permits) (ht : k.Tables) (hmove : Move attended limits k k') : k'.Permits := by
  have hheard : ∀ (n : Nat) (frame : Frame), (k.heard n frame).faces = k.faces := fun n frame =>
    faces_modify fun _ => ⟨rfl, rfl⟩
  cases hmove with
  | quiet hquiet => exact h.same (by unfold faces; rw [hquiet.channels]) hquiet.surfaces
  | opening frame grant resource acquire taken hclosed hattended hkind hchannels hclosing hretain =>
    have hcounted : ∀ (m : Connection) (n : Nat), (m.counted n frame taken).faces = m.faces := fun m n =>
      faces_modify fun _ => ⟨rfl, rfl⟩
    exact (h.opening hkind hretain).same (hcounted _ _) rfl
  | next frame taken hclosed hattended hkind hfound hsequence => exact h.same (faces_modify fun _ => ⟨rfl, rfl⟩) rfl
  | released id awaitClose hclosed hfound hreason => exact h.release ht awaitClose hfound
  | awaited frame hclosed hc => exact h.same (hheard _ _) rfl
  | forgotten id => exact h.same rfl rfl
  | dropped frame hclosed hc => exact h.same (hheard _ _) rfl
  | sent frame hclosed hc hopen hempty => exact h.same (hheard _ _) rfl
  | queued frame hclosed hc hopen hframes hbytes => exact h.same (hheard _ _) rfl
  | popped lane hclosed hopen hpop =>
    obtain ⟨lanes, bytes, frames, rfl⟩ := pop_eq hpop
    exact h.same rfl rfl
  | lost lane hclosed hpop =>
    obtain ⟨lanes, bytes, frames, rfl⟩ := pop_eq hpop
    exact h.same rfl rfl
  | retired hclosed =>
    unfold retire
    rw [if_neg (by simp [hclosed])]
    exact ⟨nodup_nil, nofun, nofun, nofun⟩

end Permits

/-! ## Streams to the worker -/

/-- The worker was handed a beginning of what the client sent, and all of it while the socket is open. -/
structure Attended (k : Connection) : Prop where
  begun : ∀ n, handed n k.log <+: admitted n k.log
  complete : k.isOpen → ∀ n, handed n k.log = admitted n k.log

namespace Attended

theorem neutral (h : k.Attended) (hisOpen : k'.isOpen → k.isOpen) (hhanded : ∀ n, handed n k'.log = handed n k.log)
    (hadmitted : ∀ n, admitted n k'.log = admitted n k.log) : k'.Attended := by
  refine ⟨fun n => ?_, fun hopen n => ?_⟩
  · rw [hhanded, hadmitted]
    exact h.begun n
  · rw [hhanded, hadmitted]
    exact h.complete (hisOpen hopen) n

theorem counted {n : Nat} {frame : Frame} {taken : Bool} (h : k.Attended) (hopen : k.isOpen) :
    (k.counted n frame taken).Attended := by
  have hhanded : ∀ m, handed m (k.counted n frame taken).log =
      admitted m k.log ++ (Event.hands m (.fromClient n frame taken)).toList := by
    intro m
    rw [← h.complete hopen m]
    exact handed_concat m k.log _
  have hadmitted : ∀ m, admitted m (k.counted n frame taken).log =
      admitted m k.log ++ (Event.admits m (.fromClient n frame taken)).toList := fun m => admitted_concat m k.log _
  refine ⟨fun m => ?_, fun htaken m => ?_⟩
  · rw [hhanded, hadmitted, prefix_append_right_inj]
    by_cases hm : n = m <;> cases taken <;> simp [Event.hands, Event.admits, hm]
  · have htaken' : taken = true := (Bool.and_eq_true_iff.mp htaken).2
    rw [hhanded, hadmitted, htaken']
    by_cases hm : n = m <;> simp [Event.hands, Event.admits, hm]

theorem record {event : Event} (h : k.Attended) (hhands : ∀ n, event.hands n = none) (hadmits : ∀ n, event.admits n = none) :
    (k.record event).Attended := by
  refine h.neutral id (fun n => ?_) fun n => ?_
  · refine (handed_concat n k.log event).trans ?_
    rw [hhands]
    simp
  · refine (admitted_concat n k.log event).trans ?_
    rw [hadmits]
    simp

theorem move (h : k.Attended) (hmove : Move True limits k k') : k'.Attended := by
  have hheard : ∀ (n : Nat) (frame : Frame), (k.heard n frame).Attended := fun n frame =>
    record (k := k.modify n (hear frame)) ⟨h.begun, h.complete⟩ (fun _ => rfl) fun _ => rfl
  cases hmove with
  | quiet hquiet => exact h.neutral hquiet.isOpen (fun n => by rw [hquiet.log]) fun n => by rw [hquiet.log]
  | opening frame grant resource acquire taken hclosed hattended hkind hchannels hclosing hretain =>
    obtain ⟨surfaces, rfl⟩ := retainSurface_eq hretain
    exact counted (k := { k with surfaces }.withChannel grant frame) ⟨h.begun, h.complete⟩ (hattended trivial)
  | next frame taken hclosed hattended hkind hfound hsequence => exact h.counted (hattended trivial)
  | released id awaitClose hclosed hfound hreason =>
    unfold release
    rw [hfound]
    exact record ⟨h.begun, h.complete⟩ (fun _ => rfl) fun _ => rfl
  | awaited frame hclosed hc => exact hheard _ frame
  | forgotten => exact ⟨h.begun, h.complete⟩
  | dropped frame hclosed hc => exact ⟨(hheard _ frame).begun, nofun⟩
  | sent frame hclosed hc hopen hempty => exact (hheard _ frame).record (fun _ => rfl) fun _ => rfl
  | queued frame hclosed hc hopen hframes hbytes => exact ⟨(hheard _ frame).begun, (hheard _ frame).complete⟩
  | popped lane hclosed hopen hpop =>
    obtain ⟨lanes, bytes, frames, rfl⟩ := pop_eq hpop
    exact record ⟨h.begun, h.complete⟩ (fun _ => rfl) fun _ => rfl
  | lost lane hclosed hpop =>
    obtain ⟨lanes, bytes, frames, rfl⟩ := pop_eq hpop
    exact ⟨h.begun, nofun⟩
  | retired hclosed =>
    unfold retire
    rw [if_neg (by simp [hclosed])]
    refine h.neutral (fun hopen => hopen) (fun n => ?_) fun n => ?_
    · exact Tables.filterMap_retired (fun _ _ => rfl) k.log k.channels
    · exact Tables.filterMap_retired (fun _ _ => rfl) k.log k.channels

theorem moves (h : k.Attended) (hmoves : Moves True limits k k') : k'.Attended := by
  induction hmoves with
  | refl => exact h
  | tail _ hmove ih => exact ih.move hmove

end Attended

/-! ## Runs -/

structure Sound (limits : Lane → Limit) (k : Connection) : Prop where
  tables : k.Tables
  account : k.Account
  queues : k.Queues limits
  streams : k.Streams
  permits : k.Permits

theorem Sound.move (h : k.Sound limits) (hmove : Move attended limits k k') : k'.Sound limits :=
  ⟨h.tables.move hmove, h.account.move h.tables hmove, h.queues.move hmove, h.streams.move h.tables h.queues hmove,
    h.permits.move h.tables hmove⟩

theorem Sound.moves (h : k.Sound limits) (hmoves : Moves attended limits k k') : k'.Sound limits := by
  induction hmoves with
  | refl => exact h
  | tail _ hmove ih => exact ih.move hmove

theorem Sound.step_moves (h : k.Sound limits) (session : Session) (call : Call)
    (hattended : attended → call.isClient → k.isOpen) : Moves attended limits k (k.step session limits call) :=
  Connection.step_moves session call h.tables.fresh h.tables.ids h.tables.current hattended

theorem Sound.step (h : k.Sound limits) (session : Session) (call : Call) : (k.step session limits call).Sound limits :=
  h.moves (@Sound.step_moves False limits k h session call nofun)

theorem sound_attach : attach.Sound limits := by
  refine ⟨⟨nodup_nil, nodup_nil, nofun, nofun, nofun, nofun, Each.nil⟩, ?_, ?_, ?_, ?_⟩
  · exact ⟨nofun, nofun, nofun, fun _ => rfl, fun _ _ => rfl, fun _ => Nat.zero_le _, fun _ _ => rfl, fun _ => rfl, nofun⟩
  · exact ⟨nofun, fun _ => rfl, fun _ => Nat.zero_le _, fun _ => Nat.zero_le _, rfl, rfl⟩
  · exact ⟨fun _ _ => prefix_refl _, fun _ _ _ => prefix_refl _, nofun⟩
  · exact ⟨nodup_nil, nofun, nofun, nofun⟩

theorem run_sound (session : Session) (limits : Lane → Limit) (calls : List Call) : (run session limits calls).Sound limits :=
  foldlRecOn calls _ sound_attach fun _ h call _ => h.step session call

theorem run_concat (session : Session) (limits : Lane → Limit) (calls : List Call) (call : Call) :
    run session limits (calls ++ [call]) = (run session limits calls).step session limits call := by
  simp [run]

def ReadOpen (session : Session) (limits : Lane → Limit) (calls : List Call) : Prop :=
  ∀ before call after, calls = before ++ call :: after → call.isClient → (run session limits before).isOpen

theorem run_attended (session : Session) (limits : Lane → Limit) (calls : List Call) (h : ReadOpen session limits calls) :
    (run session limits calls).Attended := by
  induction calls using reverseRecOn with
  | nil => exact ⟨fun _ => prefix_refl _, fun _ _ => rfl⟩
  | append_singleton calls call ih =>
    have hearlier := ih fun before c after hcalls => h before c (after ++ [call]) (by rw [hcalls]; simp)
    have hmoves := @Sound.step_moves True limits _ (run_sound session limits calls) session call
      fun _ hclient => h calls call [] rfl hclient
    rw [run_concat]
    exact hearlier.moves hmoves

end Connection

/-! ## What a run shows -/

/-- The frames of the client on channel `n`: an opening, then one number after the other. -/
structure ClientStream (n : Nat) (log : List Event) : Prop where
  opened : ∀ first, (admitted n log).head? = some first → first.header.kind.isOpen
  continued : ∀ frame ∈ (admitted n log).tail, frame.header.kind.isOpen = false
  consecutive : ∀ first, (admitted n log).head? = some first →
    (admitted n log).map (fun frame => frame.header.sequence) = List.range' first.header.sequence (admitted n log).length
  named : ∀ first, (admitted n log).head? = some first →
    ∀ frame ∈ admitted n log, frame.header.channelId = first.header.channelId

/-- The frames of the worker on channel `n`: an answer, then one number after the other. -/
structure WorkerStream (n : Nat) (log : List Event) : Prop where
  answered : ∀ first, (arrived n log).head? = some first → first.header.kind.answers
  continued : ∀ frame ∈ (arrived n log).tail, frame.header.kind.answers = false
  consecutive : (arrived n log).map (fun frame => frame.header.sequence) = List.range (arrived n log).length
  agreeing : ∀ frame ∈ arrived n log, ∃ first, (admitted n log).head? = some first ∧ first.header.agrees frame.header

section Conforming

variable {log : List Event} {event : Event} {n : Nat}

theorem Conforming.init (h : Conforming (log ++ [event])) : Conforming log := h.of_prefix (prefix_append log [event])

theorem Conforming.last (h : Conforming (log ++ [event])) : event.Legal log := h.get rfl

theorem clientStream (h : Conforming log) : ClientStream n log := by
  induction log using reverseRecOn with
  | nil =>
    refine ⟨?_, ?_, ?_, ?_⟩ <;>
      · intro frame hframe
        cases hframe
  | append_singleton log event ih =>
    have hearlier := ih h.init
    cases hadmits : event.admits n with
    | none =>
      have hsame : admitted n (log ++ [event]) = admitted n log := by simp [admitted_concat, hadmits]
      exact ⟨by rw [hsame]; exact hearlier.opened, by rw [hsame]; exact hearlier.continued,
        by rw [hsame]; exact hearlier.consecutive, by rw [hsame]; exact hearlier.named⟩
    | some frame =>
      have hmore : admitted n (log ++ [event]) = admitted n log ++ [frame] := by simp [admitted_concat, hadmits]
      have hnext : ClientNext log n frame := by
        have hlegal := Conforming.last h
        cases event with
        | fromClient m other taken =>
          by_cases hm : m = n
          · simp only [Event.admits, hm, if_true, Option.some.injEq] at hadmits
            rw [← hm, ← hadmits]
            exact hlegal
          · simp [Event.admits, hm] at hadmits
        | _ => cases hadmits
      rcases hnext with ⟨hnil, hopen⟩ | ⟨first, hfirst, hkind, hname, hsequence⟩
      · have hone : admitted n (log ++ [event]) = [frame] := by rw [hmore, hnil, nil_append]
        refine ⟨fun first hfirst => ?_, ?_, fun first hfirst => ?_, fun first hfirst => ?_⟩
        · rw [hone] at hfirst
          obtain rfl : frame = first := by simpa using hfirst
          exact hopen
        · rw [hone]
          intro other hother
          cases hother
        · rw [hone] at hfirst ⊢
          obtain rfl : frame = first := by simpa using hfirst
          rfl
        · rw [hone] at hfirst ⊢
          obtain rfl : frame = first := by simpa using hfirst
          simp
      · have hhead : (admitted n log ++ [frame]).head? = some first := head?_append_of_head? hfirst
        have hne : admitted n log ≠ [] := fun hnil => by rw [hnil] at hfirst; cases hfirst
        refine ⟨fun first' hfirst' => ?_, fun other hother => ?_, fun first' hfirst' => ?_, fun first' hfirst' => ?_⟩
        · rw [hmore, hhead] at hfirst'
          cases hfirst'
          exact hearlier.opened first hfirst
        · rw [hmore, tail_append_of_ne_nil hne] at hother
          rcases mem_append.mp hother with hother | hother
          · exact hearlier.continued other hother
          · rw [mem_singleton.mp hother]
            exact hkind
        · rw [hmore, hhead] at hfirst'
          cases hfirst'
          rw [hmore, map_append, hearlier.consecutive first hfirst, length_append, length_singleton, range'_concat]
          simp [hsequence]
        · rw [hmore, hhead] at hfirst'
          cases hfirst'
          intro other hother
          rw [hmore] at hother
          rcases mem_append.mp hother with hother | hother
          · exact hearlier.named first hfirst other hother
          · rw [mem_singleton.mp hother]
            exact hname

theorem workerStream (h : Conforming log) : WorkerStream n log := by
  induction log using reverseRecOn with
  | nil => exact ⟨nofun, nofun, rfl, nofun⟩
  | append_singleton log event ih =>
    have hearlier := ih h.init
    have hfirst : ∀ first, (admitted n log).head? = some first → (admitted n (log ++ [event])).head? = some first := by
      intro first hfirst
      rw [admitted_concat]
      exact head?_append_of_head? hfirst
    cases harrives : event.arrives n with
    | none =>
      have hsame : arrived n (log ++ [event]) = arrived n log := by simp [arrived_concat, harrives]
      refine ⟨by rw [hsame]; exact hearlier.answered, by rw [hsame]; exact hearlier.continued,
        by rw [hsame]; exact hearlier.consecutive, fun frame hframe => ?_⟩
      rw [hsame] at hframe
      obtain ⟨first, hhead, hagrees⟩ := hearlier.agreeing frame hframe
      exact ⟨first, hfirst first hhead, hagrees⟩
    | some frame =>
      have hmore : arrived n (log ++ [event]) = arrived n log ++ [frame] := by simp [arrived_concat, harrives]
      have hnext : WorkerNext log n frame := by
        have hlegal := Conforming.last h
        cases event with
        | fromWorker m other =>
          by_cases hm : m = n
          · simp only [Event.arrives, hm, if_true, Option.some.injEq] at harrives
            rw [← hm, ← harrives]
            exact hlegal
          · simp [Event.arrives, hm] at harrives
        | _ => cases harrives
      obtain ⟨hsequence, hanswers, first, hhead, hagrees⟩ := hnext
      refine ⟨fun first' hfirst' => ?_, fun other hother => ?_, ?_, fun other hother => ?_⟩
      · rw [hmore] at hfirst'
        cases hold : (arrived n log).head? with
        | none =>
          have hnil : arrived n log = [] := head?_eq_none_iff.mp hold
          rw [hnil] at hfirst'
          obtain rfl : frame = first' := by simpa using hfirst'
          exact hanswers.mpr hnil
        | some old =>
          rw [head?_append_of_head? hold] at hfirst'
          cases hfirst'
          exact hearlier.answered _ hold
      · rw [hmore] at hother
        by_cases hnil : arrived n log = []
        · rw [hnil] at hother
          cases hother
        · rw [tail_append_of_ne_nil hnil] at hother
          rcases mem_append.mp hother with hother | hother
          · exact hearlier.continued other hother
          · rw [mem_singleton.mp hother]
            cases hkind : frame.header.kind.answers
            · rfl
            · exact absurd (hanswers.mp hkind) hnil
      · rw [hmore, map_append, hearlier.consecutive, length_append, length_singleton, range_succ]
        simp [hsequence]
      · rw [hmore] at hother
        rcases mem_append.mp hother with hother | hother
        · obtain ⟨first', hhead', hagrees'⟩ := hearlier.agreeing other hother
          exact ⟨first', hfirst first' hhead', hagrees'⟩
        · rw [mem_singleton.mp hother]
          exact ⟨first, hfirst first hhead, hagrees⟩

theorem prefix_of_lanes (lane : Lane) {frames arriving : List Frame}
    (hlanes : ∀ lane, Connection.on lane frames <+: Connection.on lane arriving)
    (hone : ∀ frame ∈ arriving, frame.header.lane = lane) : frames <+: arriving := by
  have harriving : Connection.on lane arriving = arriving :=
    filter_eq_self.mpr fun frame hframe => by simpa using hone frame hframe
  have hframes : Connection.on lane frames = frames := by
    refine filter_eq_self.mpr fun frame hframe => ?_
    have hon : frame ∈ Connection.on frame.header.lane frames := mem_filter.mpr ⟨hframe, by simp⟩
    have hmem := (mem_filter.mp ((hlanes frame.header.lane).subset hon)).1
    simpa using hone frame hmem
  have hbegun := hlanes lane
  rwa [harriving, hframes] at hbegun

theorem shown_prefix (h : Conforming log) (hlanes : ∀ lane, Connection.on lane (shown n log) <+: Connection.on lane (arrived n log)) :
    shown n log <+: arrived n log := by
  have hagreeing := (@workerStream log n h).agreeing
  cases hfirst : (admitted n log).head? with
  | none =>
    have hnil : arrived n log = [] := by
      refine eq_nil_iff_forall_not_mem.mpr fun frame hframe => ?_
      obtain ⟨first, hhead, -⟩ := hagreeing frame hframe
      rw [hfirst] at hhead
      cases hhead
    exact prefix_of_lanes .bulk hlanes (by rw [hnil]; nofun)
  | some first =>
    refine prefix_of_lanes first.header.lane hlanes fun frame hframe => ?_
    obtain ⟨first', hhead, hagrees⟩ := hagreeing frame hframe
    rw [hfirst] at hhead
    cases hhead
    simp only [Header.agrees, Bool.and_eq_true, decide_eq_true_eq] at hagrees
    exact hagrees.2.symm

theorem handed_sublist (n : Nat) (log : List Event) : (handed n log).Sublist (admitted n log) := by
  induction log with
  | nil => exact List.Sublist.slnil
  | cons event log ih =>
    unfold handed admitted at *
    rw [filterMap_cons, filterMap_cons]
    cases event with
    | fromClient m frame taken =>
      by_cases hm : m = n
      · cases taken
        · simpa [Event.hands, Event.admits, hm] using ih.cons frame
        · simpa [Event.hands, Event.admits, hm] using ih
      · simpa [Event.hands, Event.admits, hm] using ih
    | _ => simpa [Event.hands, Event.admits] using ih

end Conforming

structure Ordered (limits : Lane → Limit) (k : Connection) : Prop where
  client : ∀ n, ClientStream n k.log
  worker : ∀ n, WorkerStream n k.log
  /-- The worker is handed the frames of the client in their order, -/
  handedOver : ∀ n, (handed n k.log).Sublist (admitted n k.log)
  /-- then at most one close frame, -/
  followed : ∀ n, toWorker n k.log = (handed n k.log).map Frame.header ++ (retirements n k.log).filterMap id
  once : ∀ n, (retirements n k.log).length ≤ 1
  /-- for a channel that is open when the connection is retired. -/
  closes : ∀ n, ∀ header ∈ retirements n k.log, ClosesAfter k.log n header
  accounted : ∀ n, n < k.opened →
    n ∈ k.channels.map Channel.serial ∨ .released n ∈ k.log ∨ ∃ header, .retired n header ∈ k.log
  exclusive : ∀ n, .released n ∈ k.log → retirements n k.log = [] ∧ n ∉ k.channels.map Channel.serial
  released : ∀ before n after, k.log = before ++ .released n :: after → MayRelease before n
  retired : k.closed → k.channels = []
  unretired : k.closed = false → ∀ n, retirements n k.log = []
  /-- The client is sent the frames of the worker in their order. -/
  shown : ∀ n, shown n k.log <+: arrived n k.log
  laneBytes : ∀ lane, (k.lanes lane).bytes = ((k.lanes lane).frames.map fun q => q.frame.bytes.length).sum
  laneFrames : ∀ lane, (k.lanes lane).frames.length ≤ (limits lane).maxQueuedFrames
  laneLimit : ∀ lane, (k.lanes lane).bytes ≤ (limits lane).maxQueuedBytes
  bytes : k.bytes = (laneOrder.map fun lane => (k.lanes lane).bytes).sum
  frames : k.frames = (laneOrder.map fun lane => (k.lanes lane).frames.length).sum
  /-- A permit is held exactly for the grants of open channels for remote surfaces. -/
  permits : ∀ grant, (∃ s ∈ k.surfaces, s.grant = grant) ↔ ∃ c ∈ k.channels, c.grant = grant ∧ c.surface
  permitOnce : (k.surfaces.map Surface.grant).Nodup

namespace Connection

theorem Permits.held_iff {k : Connection} (h : k.Permits) (grant : Utf16) :
    (∃ s ∈ k.surfaces, s.grant = grant) ↔ ∃ c ∈ k.channels, c.grant = grant ∧ c.surface := by
  constructor
  · rintro ⟨s, hs, rfl⟩
    obtain ⟨id, hid⟩ := Finset.nonempty_iff_ne_empty.mpr (h.used s hs)
    obtain ⟨c, hc, hface⟩ := mem_map.mp ((h.held s hs id).mp hid)
    simp only [Prod.mk.injEq] at hface
    exact ⟨c, hc, hface.2.1, hface.2.2⟩
  · rintro ⟨c, hc, rfl, hsurface⟩
    refine h.covered c.id c.grant (mem_map.mpr ⟨c, hc, ?_⟩)
    rw [hsurface]

theorem Sound.ordered {limits : Lane → Limit} {k : Connection} (h : k.Sound limits) : Ordered limits k where
  client _ := clientStream h.tables.conforming
  worker _ := workerStream h.tables.conforming
  handedOver n := handed_sublist n k.log
  followed := h.account.ordered
  once := h.account.once
  closes := h.account.closes
  accounted := h.account.accounted
  exclusive n hn := ⟨h.account.exclusive n hn, fun hopen => h.account.unreleased n hopen hn⟩
  released _ _ _ hlog := h.tables.conforming.get hlog
  retired := h.account.emptied
  unretired := h.account.unretired
  shown n := shown_prefix h.tables.conforming (h.streams.begun n)
  laneBytes := h.queues.laneBytes
  laneFrames := h.queues.laneFrames
  laneLimit := h.queues.laneLimit
  bytes := h.queues.bytes
  frames := h.queues.frames
  permits := h.permits.held_iff
  permitOnce := h.permits.grants

/-- After any calls the connection keeps order and accounts; and while frames are read from an open socket only,
none is left out on the way to the worker. -/
theorem relay_ordering (session : Session) (limits : Lane → Limit) (calls : List Call) :
    Ordered limits (run session limits calls) ∧ (ReadOpen session limits calls →
      ∀ n, handed n (run session limits calls).log <+: admitted n (run session limits calls).log) :=
  ⟨(run_sound session limits calls).ordered, fun h => (run_attended session limits calls h).begun⟩

def sampleFrame (sequence : Nat) (safe : sequence ≤ maxSequence) (kind : Kind) (payload : Bytes) : Frame :=
  { header := { sessionId := [1], routeGeneration := 1, effectiveRoute := .relay, channelId := [2], connectionId := [3],
                lane := .stream, sequence, safe, kind },
    bytes := payload, payload }

def taken : ClientAnswers := { acquire := true, consume := true, worker := true }

def refused : ClientAnswers := { acquire := true, consume := true, worker := false }

/-- Two frames are handed over while the socket is open. -/
theorem relay_ordering_open : ∃ session limits calls, ReadOpen session limits calls ∧
    (handed 0 (run session limits calls).log).map (fun frame => frame.header.sequence) = [0, 1] ∧
    handed 0 (run session limits calls).log <+: admitted 0 (run session limits calls).log := by
  let calls : List Call := [.receiveClient true (some (sampleFrame 0 (by decide) (.open [4] .terminal) [])) taken,
    .receiveClient true (some (sampleFrame 1 (by decide) .data [0])) taken]
  have hopen : ReadOpen ⟨[1], 1⟩ (fun _ => ⟨0, 0⟩) calls := by
    have hstays : ∀ k < 2, (run ⟨[1], 1⟩ (fun _ => ⟨0, 0⟩) (calls.take k)).isOpen := by decide
    intro before call after hcalls _
    have hlength : 2 = (before ++ call :: after).length := congrArg length hcalls
    rw [length_append, length_cons] at hlength
    have hbefore := hstays before.length (by omega)
    rwa [hcalls, take_left] at hbefore
  exact ⟨_, _, calls, hopen, by decide, (relay_ordering ⟨[1], 1⟩ (fun _ => ⟨0, 0⟩) calls).2 hopen 0⟩

/-- A frame that the worker does not take closes the socket, but the frame behind it is handed over. And a channel
opened with the last number gets no close frame. -/
theorem relay_leaves_out_frames :
    (∃ session limits calls, (handed 0 (run session limits calls).log).map (fun frame => frame.header.sequence) = [0, 2]) ∧
      ∃ session limits calls, 0 ∈ (run session limits calls).channels.map Channel.serial ∧
        (handed 0 (run session limits calls).log).length = 1 ∧
        (toWorker 0 (run session limits (calls ++ [.retire])).log).length = 1 := by
  refine ⟨⟨⟨[1], 1⟩, fun _ => ⟨0, 0⟩, [.receiveClient true (some (sampleFrame 0 (by decide) (.open [4] .terminal) [])) taken,
      .receiveClient true (some (sampleFrame 1 (by decide) .data [0])) refused,
      .receiveClient true (some (sampleFrame 2 (by decide) .data [0])) taken], by decide⟩,
    ⟨⟨[1], 1⟩, fun _ => ⟨0, 0⟩,
      [.receiveClient true (some (sampleFrame maxSequence (Nat.le_refl _) (.open [4] .terminal) [])) taken], ?_, ?_, ?_⟩⟩
  · decide
  · decide
  · decide

end Connection

end Cantrip.Relay
