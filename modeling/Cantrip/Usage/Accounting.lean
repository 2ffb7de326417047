import Cantrip.Lib.Post
import Cantrip.Usage.Service
import Cantrip.Usage.Share

/-!
# Usage is metered exactly once

What the database holds, with what is buffered and not yet in the database, is what was accepted, less what was
written off because its owner had no account or lost it. The identity is an invariant of every run: a batch is pending until
its row is known to be written, so a batch that was sent before is either pending or noted in the database, and a
late transaction of it is the pending one or writes nothing.
-/

namespace Cantrip.Usage

open Lib List Option

/-! ## What a transaction writes -/

def Database.durable (db : Database) (k : Key) : Int × Int := total (fun row => amountAt k row.entry) db.buckets

theorem upsert_durable {at' : DateTime} {rows rows' : List BucketRow} {e : BandwidthEntry} (h : upsert at' rows e = .ok rows')
    (k : Key) : total (fun row => amountAt k row.entry) rows' = total (fun row => amountAt k row.entry) rows + amountAt k e := by
  unfold upsert at h
  match hfind : rows.find? fun row => row.key = e.key with
  | none =>
    rw [hfind] at h
    cases h
    rw [total_append, total_cons, total_nil, add_zero]
  | some row =>
    rw [hfind] at h
    have hrow : row.key = e.key := by simpa using find?_some hfind
    have hkey : row.entry.key = e.key := hrow
    simp only at h
    split at h
    · cases h
    · cases h
      rw [total_put _ (by rw [← hfind]; exact congrArg (fun k => rows.find? fun x => decide (x.key = k)) hkey)]
      have hsum : amountAt k { row.entry with
          bytes := row.entry.bytes + e.bytes
          operationCount := row.entry.operationCount + e.operationCount } = amountAt k row.entry + amountAt k e := by
        unfold amountAt
        rw [hkey, show BandwidthEntry.key { row.entry with
          bytes := row.entry.bytes + e.bytes
          operationCount := row.entry.operationCount + e.operationCount } = e.key from hkey]
        split
        · rfl
        · rfl
      rw [hsum]
      abel

theorem upserts_durable {at' : DateTime} (entries : List BandwidthEntry) (k : Key) : ∀ rows rows' : List BucketRow,
    entries.foldlM (upsert at') rows = .ok rows' →
      total (fun row => amountAt k row.entry) rows' = total (fun row => amountAt k row.entry) rows + share k entries := by
  induction entries with
  | nil =>
    intro rows rows' h
    cases h
    unfold share
    rw [total_nil, add_zero]
  | cons e entries ih =>
    intro rows rows' h
    rw [foldlM_cons, bind_eq_ok] at h
    obtain ⟨mid, hone, hrest⟩ := h
    rw [ih mid rows' hrest, upsert_durable hone k]
    unfold share
    rw [total_cons]
    abel

def leftOut (k : Key) (batch : FlushBatch) (users : List String) : Int × Int :=
  share k (batch.entries.filter fun e => !decide (e.ownerId ∈ users))

/-- What goes with the accounts that are no more. -/
def gone (k : Key) (users : List String) (buckets : List BucketRow) : Int × Int :=
  total (fun row => amountAt k row.entry) (buckets.filter fun row => !decide (row.entry.ownerId ∈ users))

theorem flushBandwidth_cases {db db' : Database} {batch : FlushBatch} {result : FlushResult} (hentries : batch.entries ≠ [])
    (h : flushBandwidth db batch = .ok (result, db')) :
    db.flushed batch ∧ result.applied = false ∧ db' = db ∨ ¬db.flushed batch ∧ result.applied = true ∧ db'.flushed batch ∧
        (∀ row ∈ db'.flushes, row ∈ db.flushes ∨ row.meterId = batch.meterId ∧ row.sequence = batch.sequence) ∧
        (∀ row ∈ db.flushes, row ∈ db'.flushes) ∧
        ∀ k, db'.durable k + leftOut k batch db.users = db.durable k + share k batch.entries := by
  unfold flushBandwidth at h
  rw [if_neg hentries] at h
  simp only at h
  split at h
  · cases h
  split at h
  · rename_i hflushed
    cases h
    exact .inl ⟨hflushed, rfl, rfl⟩
  · rename_i hflushed
    split at h
    · cases h
    · rw [bind_eq_ok] at h
      obtain ⟨buckets, hbuckets, h⟩ := h
      cases h
      refine .inr ⟨hflushed, rfl, ⟨_, mem_append_right _ (mem_singleton.mpr rfl), rfl, rfl⟩, ?_, ?_, ?_⟩
      · intro row hrow
        obtain hrow | hrow := mem_append.mp hrow
        · exact .inl hrow
        · rw [mem_singleton.mp hrow]
          exact .inr ⟨rfl, rfl⟩
      · intro row hrow
        exact mem_append_left _ hrow
      · intro k
        have hfilter : (batch.entries.filter fun e =>
            decide (e.ownerId ∈ db.users.filter fun user => user ∈ batch.entries.map (·.ownerId))) =
            batch.entries.filter fun e => decide (e.ownerId ∈ db.users) := by
          refine filter_congr fun e he => ?_
          have howner : e.ownerId ∈ batch.entries.map (·.ownerId) := mem_map_of_mem he
          simp only [mem_filter, howner, decide_true, and_true]
        rw [hfilter] at hbuckets
        have hadd := total_filter_add (amountAt k) (fun e => decide (e.ownerId ∈ db.users)) batch.entries
        unfold Database.durable leftOut
        rw [upserts_durable _ k _ _ hbuckets]
        unfold share
        rw [← hadd]
        abel

/-! ## What a run shows -/

namespace Event

def accepted (k : Key) : Event → Int × Int
  | .measured _ input now outcome => acceptedAt k input now outcome
  | _ => 0

def dropped : Event → Int × Int
  | .measured closed input now outcome => droppedAt closed input now outcome
  | _ => 0

/-- What the database does not take of a batch, and what it deletes with an account. -/
def writtenOff (k : Key) : Event → Int × Int
  | .written batch users => leftOut k batch users
  | .accounts users buckets => gone k users buckets
  | _ => 0

def uncommitted (last : Option FlushBatch) : Event → Option FlushBatch
  | .attempted batch => some batch
  | .completed _ => none
  | _ => last

end Event

def uncommitted (es : List Event) : Option FlushBatch := es.foldl Event.uncommitted none

/-- An attempt after one that did not complete carries the very same batch. -/
def Retries (es : List Event) : Prop :=
  ∀ before batch behind, es = before ++ .attempted batch :: behind → ∀ last, uncommitted before = some last → batch = last

theorem uncommitted_append (es : List Event) (e : Event) : uncommitted (es ++ [e]) = e.uncommitted (uncommitted es) := by
  unfold uncommitted
  rw [foldl_append, foldl_cons, foldl_nil]

theorem Retries.append {es : List Event} {e : Event} (h : Retries es)
    (he : ∀ batch, e = .attempted batch → ∀ last, uncommitted es = some last → batch = last) : Retries (es ++ [e]) := by
  intro before batch behind heq
  obtain rfl | ⟨behind, e', rfl⟩ := eq_nil_or_concat behind
  · obtain ⟨rfl, hlast⟩ := append_inj' heq rfl
    simp only [List.cons.injEq, and_true] at hlast
    exact he batch hlast
  · rw [concat_eq_append, ← cons_append, ← append_assoc] at heq
    obtain ⟨rfl, -⟩ := append_inj' heq rfl
    exact h before batch behind rfl

/-! ## The invariant -/

namespace Service

def pendingDurable (s : Service) (k : Key) : Int × Int :=
  match s.state.pending with
  | some p => if s.database.flushed p.batch then share k p.batch.entries else 0
  | none => 0

/-- A batch is still to be committed. -/
def Awaits (s : Service) (batch : FlushBatch) : Prop := ∃ p, s.state.pending = some p ∧ p.batch = batch

structure Sound (initial : Database) (s : Service) (es : List Event) : Prop where
  state : s.state.Sound
  identity : ∀ k, s.database.durable k + s.state.buffered k - s.pendingDurable k + total (Event.writtenOff k) es =
    initial.durable k + total (Event.accepted k) es
  dropped : (s.state.stats.droppedBytes, s.state.stats.droppedMeasurements) = total Event.dropped es
  sent : ∀ batch ∈ s.sent, batch.entries ≠ [] ∧ batch.meterId = s.state.options.meterId ∧
    batch.sequence ≤ s.state.sequence ∧ (s.database.flushed batch ∨ s.Awaits batch)
  flushes : ∀ row ∈ s.database.flushes, row.meterId = s.state.options.meterId → row.sequence ≤ s.state.sequence
  running : ∀ batch result, s.inFlight = some (.running batch result) →
    batch ∈ s.sent ∧ s.Awaits batch ∧ (result ≠ none → s.database.flushed batch)
  uncommitted : ∀ batch, uncommitted es = some batch → s.Awaits batch
  retries : Retries es

variable {initial : Database} {s s' : Service} {es : List Event} {e : Event}

theorem Sound.quiet (h : s.Sound initial es) (hquiet : ∀ last, e.uncommitted last = last)
    (hattempt : ∀ batch, e ≠ .attempted batch) :
    (∀ batch, Usage.uncommitted (es ++ [e]) = some batch → s.Awaits batch) ∧ Retries (es ++ [e]) := by
  refine ⟨?_, h.retries.append fun batch he => absurd he (hattempt batch)⟩
  intro batch hlast
  rw [uncommitted_append, hquiet] at hlast
  exact h.uncommitted batch hlast

theorem Sound.still (h : s.Sound initial es) (hstate : s'.state.Sound) (hpending : s'.state.pending = s.state.pending)
    (hoptions : s'.state.options = s.state.options) (hsequence : s'.state.sequence = s.state.sequence)
    (hbuffer : s'.state.buffer = s.state.buffer)
    (hstats : (s'.state.stats.droppedBytes, s'.state.stats.droppedMeasurements) =
      (s.state.stats.droppedBytes, s.state.stats.droppedMeasurements))
    (hdatabase : s'.database.flushes = s.database.flushes)
    (hrows : ∀ k, s'.database.durable k + e.writtenOff k = s.database.durable k) (hsent : s'.sent = s.sent)
    (hrunning : ∀ batch result, s'.inFlight = some (.running batch result) → s.inFlight = some (.running batch result))
    (hquiet : ∀ last, e.uncommitted last = last) (hattempt : ∀ batch, e ≠ .attempted batch)
    (haccepted : ∀ k, e.accepted k = 0) (hdropped : e.dropped = 0) : s'.Sound initial (es ++ [e]) := by
  have hflushed : ∀ batch, s'.database.flushed batch ↔ s.database.flushed batch := by
    intro batch
    unfold Database.flushed
    rw [hdatabase]
  have hawaits : ∀ batch, s'.Awaits batch ↔ s.Awaits batch := by
    intro batch
    unfold Awaits
    rw [hpending]
  have hdurable : ∀ k, s'.pendingDurable k = s.pendingDurable k := by
    intro k
    unfold pendingDurable
    rw [hpending]
    simp only [hflushed]
  obtain ⟨huncommitted, hretries⟩ := h.quiet hquiet hattempt
  refine ⟨hstate, ?_, ?_, ?_, ?_, ?_, ?_, hretries⟩
  · intro k
    have hbuffered : s'.state.buffered k = s.state.buffered k := by
      unfold State.buffered
      rw [hbuffer]
    rw [hbuffered, hdurable, total_append, total_append, total_cons, total_cons, haccepted, total_nil, total_nil, add_zero,
      add_zero, add_zero, ← h.identity k, ← hrows k]
    abel
  · rw [hstats, h.dropped, total_append, total_cons, hdropped, total_nil, add_zero, add_zero]
  · rw [hsent, hoptions, hsequence]
    intro batch hbatch
    simp only [hflushed, hawaits]
    exact h.sent batch hbatch
  · rw [hdatabase, hoptions, hsequence]
    exact h.flushes
  · intro batch result hrun
    rw [hsent, hawaits, hflushed]
    exact h.running batch result (hrunning batch result hrun)
  · intro batch hlast
    rw [hawaits]
    exact huncommitted batch hlast

theorem Sound.idle (h : s.Sound initial es) (hstate : s'.state = s.state) (hdatabase : s'.database.flushes = s.database.flushes)
    (hbuckets : s'.database.buckets = s.database.buckets) (hsent : s'.sent = s.sent)
    (hrunning : ∀ batch result, s'.inFlight = some (.running batch result) → s.inFlight = some (.running batch result))
    (hquiet : ∀ last, e.uncommitted last = last) (hattempt : ∀ batch, e ≠ .attempted batch)
    (haccepted : ∀ k, e.accepted k = 0) (hdropped : e.dropped = 0) (hoff : ∀ k, e.writtenOff k = 0) :
    s'.Sound initial (es ++ [e]) :=
  h.still (hstate ▸ h.state) (by rw [hstate]) (by rw [hstate]) (by rw [hstate]) (by rw [hstate]) (by rw [hstate]) hdatabase
    (fun k => by rw [hoff, add_zero, Database.durable, Database.durable, hbuckets]) hsent hrunning hquiet hattempt haccepted
    hdropped

theorem Sound.fail (h : s.Sound initial es) (durationMs : Int) :
    Service.Sound initial { s with state := s.state.failed durationMs, inFlight := some .finished } (es ++ [.failed]) :=
  h.still (State.Sound.of_same h.state rfl rfl rfl rfl rfl) rfl rfl rfl rfl rfl rfl (fun _ => add_zero _) rfl (fun _ _ hrun => by cases hrun)
    (fun _ => rfl) (fun _ heq => by cases heq) (fun _ => rfl) rfl

theorem Sound.close (h : s.Sound initial es) :
    Service.Sound initial { s with state := { s.state with closed := true } } (es ++ [.internal]) :=
  h.still (State.Sound.of_same h.state rfl rfl rfl rfl rfl) rfl rfl rfl rfl rfl rfl (fun _ => add_zero _) rfl (fun _ _ hrun => hrun)
    (fun _ => rfl) (fun _ heq => by cases heq) (fun _ => rfl) rfl

theorem Sound.accounts (h : s.Sound initial es) (users : List String) :
    Service.Sound initial { s with database := s.database.setUsers users } (es ++ [.accounts users s.database.buckets]) :=
  h.still h.state rfl rfl rfl rfl rfl rfl
    (fun k => total_filter_add (fun row : BucketRow => amountAt k row.entry) (fun row => decide (row.entry.ownerId ∈ users)) _) rfl
    (fun _ _ hrun => hrun) (fun _ => rfl) (fun _ heq => by cases heq) (fun _ => rfl) rfl

theorem Sound.record (h : s.Sound initial es) (input : Measurement) (now : DateTime) :
    Service.Sound initial { s with state := (s.state.recordWithHooks input (some now)).1 }
      (es ++ [.measured s.state.closed input now (s.state.recordWithHooks input (some now)).2.1]) := by
  have hrecord := record_cases s.state input now
  obtain ⟨hpending, hsequence, hoptions⟩ := hrecord.frame
  have hawaits : ∀ batch, Awaits { s with state := (s.state.recordWithHooks input (some now)).1 } batch ↔ s.Awaits batch := by
    intro batch
    unfold Awaits
    rw [hpending]
  obtain ⟨huncommitted, hretries⟩ := h.quiet (e := .measured s.state.closed input now
    (s.state.recordWithHooks input (some now)).2.1) (fun last => rfl) (fun batch heq => by cases heq)
  refine ⟨hrecord.sound h.state, ?_, ?_, ?_, ?_, ?_, ?_, hretries⟩
  · intro k
    have hdurable : pendingDurable { s with state := (s.state.recordWithHooks input (some now)).1 } k = s.pendingDurable k := by
      unfold pendingDurable
      rw [hpending]
    have hidentity := h.identity k
    rw [hdurable, total_append, total_append, total_cons, total_cons, total_nil, total_nil]
    simp only [Event.accepted, Event.writtenOff, hrecord.buffered k]
    rw [add_zero, add_zero, add_zero, ← add_assoc (initial.durable k), ← hidentity]
    abel
  · rw [total_append, total_cons, total_nil, ← h.dropped, add_zero]
    exact hrecord.dropped_stats
  · intro batch hbatch
    rw [hoptions, hsequence, hawaits]
    exact h.sent batch hbatch
  · rw [hoptions, hsequence]
    exact h.flushes
  · intro batch result hrun
    rw [hawaits]
    exact h.running batch result hrun
  · intro batch hlast
    rw [hawaits]
    exact huncommitted batch hlast

theorem Sound.transact {batch : FlushBatch} {result : FlushResult} (h : s.Sound initial es) (hsent : batch ∈ s.sent)
    (ht : s.transact batch = .ok (s', result, e)) :
    s'.Sound initial (es ++ [e]) ∧ s'.database.flushed batch ∧ s'.state = s.state ∧ s'.inFlight = s.inFlight ∧
      s'.sent = s.sent := by
  obtain ⟨hentries, hmeter, hsequence, hknown⟩ := h.sent batch hsent
  unfold Service.transact at ht
  rw [bind_eq_ok] at ht
  obtain ⟨⟨result', database⟩, hflush, ht⟩ := ht
  cases ht
  obtain ⟨hflushed, hresult, rfl⟩ | ⟨hnew, hresult, hflushed, honly, hold, hamount⟩ := flushBandwidth_cases hentries hflush
  · rw [hresult]
    refine ⟨h.idle rfl rfl rfl rfl ?_ ?_ ?_ ?_ rfl ?_, hflushed, rfl, rfl, rfl⟩
    · exact fun _ _ hrun => hrun
    · exact fun _ => rfl
    · exact fun _ heq => by cases heq
    · exact fun _ => rfl
    · exact fun _ => rfl
  · obtain ⟨p, hpending, rfl⟩ : s.Awaits batch := hknown.resolve_left hnew
    rw [hresult]
    obtain ⟨huncommitted, hretries⟩ := h.quiet (e := .written p.batch s.database.users) (fun last => rfl)
      (fun batch heq => by cases heq)
    have hmono : ∀ b, s.database.flushed b → database.flushed b := by
      intro b ⟨row, hrow, heq⟩
      exact ⟨row, hold row hrow, heq⟩
    refine ⟨⟨h.state, ?_, ?_, ?_, ?_, ?_, huncommitted, hretries⟩, hflushed, rfl, rfl, rfl⟩
    · intro k
      have hbefore : s.pendingDurable k = 0 := by
        unfold pendingDurable
        rw [hpending]
        exact if_neg hnew
      have hafter : pendingDurable { s with database } k = share k p.batch.entries := by
        unfold pendingDurable
        simp only [hpending]
        exact if_pos hflushed
      have hidentity := h.identity k
      rw [hbefore, sub_zero] at hidentity
      simp only [if_true, total_append, total_cons, total_nil, Event.writtenOff, Event.accepted, add_zero]
      rw [hafter, ← hidentity]
      have hdurable : database.durable k = s.database.durable k + share k p.batch.entries - leftOut k p.batch s.database.users := by
        rw [← hamount k]
        abel
      rw [hdurable]
      abel
    · simp only [if_true, total_append, total_cons, total_nil, Event.dropped, add_zero]
      exact h.dropped
    · intro b hb
      obtain ⟨h1, h2, h3, h4⟩ := h.sent b hb
      exact ⟨h1, h2, h3, h4.imp_left (hmono b)⟩
    · intro row hrow hid
      obtain hrow | ⟨-, hseq⟩ := honly row hrow
      · exact h.flushes row hrow hid
      · rw [hseq]
        exact hsequence
    · intro b r hrun
      obtain ⟨h1, h2, h3⟩ := h.running b r hrun
      exact ⟨h1, h2, fun hr => hmono b (h3 hr)⟩

theorem Sound.retry {p : Pending} (h : s.Sound initial es) (hpending : s.state.pending = some p) :
    Service.Sound initial { s with inFlight := some (.running p.batch none), sent := p.batch :: s.sent }
      (es ++ [.attempted p.batch]) := by
  refine ⟨h.state, ?_, ?_, ?_, h.flushes, ?_, ?_, ?_⟩
  · intro k
    rw [total_append, total_append, total_cons, total_cons, total_nil, total_nil, add_zero, add_zero]
    simp only [Event.writtenOff, Event.accepted, add_zero]
    exact h.identity k
  · simp only [total_append, total_cons, total_nil, Event.dropped, add_zero]
    exact h.dropped
  · intro b hb
    obtain rfl | hb := mem_cons.mp hb
    · have hp := h.state.pending p hpending
      refine ⟨?_, hp.meterId, Int.le_of_eq hp.sequence, .inr ⟨p, hpending, rfl⟩⟩
      rw [hp.entries]
      intro hmap
      exact hp.nonempty (map_eq_nil_iff.mp hmap)
    · exact h.sent b hb
  · intro b r hrun
    cases hrun
    exact ⟨mem_cons_self, ⟨p, hpending, rfl⟩, fun hr => absurd rfl hr⟩
  · intro b hlast
    rw [uncommitted_append] at hlast
    cases hlast
    exact ⟨p, hpending, rfl⟩
  · refine h.retries.append fun b hb last hlast => ?_
    cases hb
    obtain ⟨q, hq, rfl⟩ := h.uncommitted last hlast
    rw [hpending] at hq
    cases hq
    rfl

theorem Sound.capture {now : DateTime} (h : s.Sound initial es) (hpending : s.state.pending = none)
    (hbuffer : s.state.buffer ≠ []) :
    let batch : FlushBatch :=
      ⟨s.state.buffer.map (·.entry), now, s.state.options.meterId, s.state.sequence + 1⟩
    Service.Sound initial { s with
        state := { s.state with sequence := s.state.sequence + 1, pending := some ⟨batch, s.state.buffer⟩ }
        inFlight := some (.running batch none), sent := batch :: s.sent }
      (es ++ [.attempted batch]) := by
  intro batch
  have hsound := capture_sound h.state now
  rw [capture_none now hpending hbuffer] at hsound
  have hnone : ∀ b, ¬s.Awaits b := by
    intro b ⟨p, hp, _⟩
    rw [hpending] at hp
    cases hp
  have hnew : ¬s.database.flushed batch := by
    intro ⟨row, hrow, hmeter, hsequence⟩
    have hle := h.flushes row hrow hmeter
    rw [hsequence] at hle
    exact absurd hle (by simp [batch])
  refine ⟨hsound, ?_, ?_, ?_, ?_, ?_, ?_, ?_⟩
  · intro k
    have hbefore : s.pendingDurable k = 0 := by
      unfold pendingDurable
      rw [hpending]
    have hidentity := h.identity k
    rw [hbefore, sub_zero] at hidentity
    unfold pendingDurable
    simp only [hnew, if_false, sub_zero, total_append, total_cons, total_nil, add_zero, Event.writtenOff, Event.accepted]
    exact hidentity
  · simp only [total_append, total_cons, total_nil, Event.dropped, add_zero]
    exact h.dropped
  · intro b hb
    obtain rfl | hb := mem_cons.mp hb
    · refine ⟨?_, rfl, Int.le_refl _, .inr ⟨_, rfl, rfl⟩⟩
      intro hmap
      exact hbuffer (map_eq_nil_iff.mp hmap)
    · obtain ⟨h1, h2, h3, h4⟩ := h.sent b hb
      exact ⟨h1, h2, by simp only; omega, .inl (h4.resolve_right (hnone b))⟩
  · intro row hrow hid
    have hle := h.flushes row hrow hid
    simp only
    omega
  · intro b r hrun
    cases hrun
    exact ⟨mem_cons_self, ⟨_, rfl, rfl⟩, fun hr => absurd rfl hr⟩
  · intro b hlast
    rw [uncommitted_append] at hlast
    cases hlast
    exact ⟨_, rfl, rfl⟩
  · exact h.retries.append fun b _ last hlast => absurd (h.uncommitted last hlast) (hnone last)

theorem Sound.commit {batch : FlushBatch} {result : FlushResult} {state : State} {now : DateTime} {durationMs : Int}
    {owners : List String} (h : s.Sound initial es) (hrun : s.inFlight = some (.running batch (some result)))
    (hcommit : s.state.committed result now durationMs = some (state, owners)) :
    Service.Sound initial { s with state, inFlight := some .finished } (es ++ [.completed owners]) := by
  obtain ⟨-, ⟨p, hpending, rfl⟩, hflushed⟩ := h.running batch (some result) hrun
  replace hflushed := hflushed (some_ne_none result)
  obtain ⟨hstate, hnone, hsequence, hoptions, hbuffered, hdropped⟩ := committed_spec h.state hpending hcommit
  refine ⟨hstate, ?_, ?_, ?_, ?_, ?_, ?_, ?_⟩
  · intro k
    have hbefore : s.pendingDurable k = share k p.batch.entries := by
      unfold pendingDurable
      rw [hpending]
      exact if_pos hflushed
    have hidentity := h.identity k
    rw [hbefore] at hidentity
    unfold pendingDurable
    simp only [hnone, sub_zero, total_append, total_cons, total_nil, add_zero, Event.writtenOff, Event.accepted, hbuffered]
    rw [← hidentity]
    abel
  · simp only [total_append, total_cons, total_nil, Event.dropped, add_zero]
    rw [hdropped]
    exact h.dropped
  · intro b hb
    obtain ⟨h1, h2, h3, h4⟩ := h.sent b hb
    simp only [hoptions, hsequence]
    refine ⟨h1, h2, h3, .inl ?_⟩
    obtain h4 | ⟨q, hq, rfl⟩ := h4
    · exact h4
    · rw [hpending] at hq
      cases hq
      exact hflushed
  · simp only [hoptions, hsequence]
    exact h.flushes
  · intro b r hrun'
    cases hrun'
  · intro b hlast
    rw [uncommitted_append] at hlast
    cases hlast
  · exact h.retries.append fun b hb => by cases hb

theorem step_sound {action : Action} (h : s.Sound initial es) (hstep : step s action = some (s', e)) :
    s'.Sound initial (es ++ [e]) := by
  cases action with
  | record input now =>
    cases hstep
    exact h.record input now
  | flush now =>
    simp only [step] at hstep
    match hflight : s.inFlight with
    | some attempt =>
      rw [hflight] at hstep
      cases hstep
      exact h.idle rfl rfl rfl rfl (fun _ _ hrun => hrun) (fun _ => rfl) (fun _ heq => by cases heq) (fun _ => rfl) rfl
        (fun _ => rfl)
    | none =>
      rw [hflight] at hstep
      simp only at hstep
      by_cases hwork : s.state.hasWork = true
      · rw [if_pos hwork] at hstep
        match hpending : s.state.pending with
        | some p =>
          rw [capture_some now hpending] at hstep
          cases hstep
          exact h.retry hpending
        | none =>
          have hbuffer : s.state.buffer ≠ [] := by
            intro hnil
            simp [State.hasWork, hpending, hnil] at hwork
          rw [capture_none now hpending hbuffer] at hstep
          cases hstep
          exact h.capture hpending hbuffer
      · rw [if_neg hwork] at hstep
        cases hstep
        exact h.idle rfl rfl rfl rfl (fun _ _ hrun => hrun) (fun _ => rfl) (fun _ heq => by cases heq) (fun _ => rfl) rfl
          (fun _ => rfl)
  | write =>
    simp only [step] at hstep
    match hflight : s.inFlight with
    | none =>
      rw [hflight] at hstep
      cases hstep
    | some .finished =>
      rw [hflight] at hstep
      cases hstep
    | some (.running batch (some result)) =>
      rw [hflight] at hstep
      cases hstep
    | some (.running batch none) =>
      rw [hflight] at hstep
      simp only at hstep
      obtain ⟨hsent, hawaits, -⟩ := h.running batch none hflight
      match htransact : s.transact batch with
      | .error reason =>
        rw [htransact] at hstep
        cases hstep
        exact h.idle rfl rfl rfl rfl (fun _ _ hrun => hrun) (fun _ => rfl) (fun _ heq => by cases heq) (fun _ => rfl) rfl
          (fun _ => rfl)
      | .ok (t, result, event) =>
        rw [htransact] at hstep
        cases hstep
        obtain ⟨ht, hflushed, hstate, -, hsent'⟩ := h.transact hsent htransact
        refine ⟨ht.state, ht.identity, ht.dropped, ht.sent, ht.flushes, ?_, ht.uncommitted, ht.retries⟩
        intro b r hrun
        cases hrun
        refine ⟨hsent' ▸ hsent, ?_, fun _ => hflushed⟩
        obtain ⟨p, hp, hb⟩ := hawaits
        exact ⟨p, hstate ▸ hp, hb⟩
  | writeLate batch =>
    simp only [step] at hstep
    by_cases hsent : batch ∈ s.sent
    · rw [if_pos hsent] at hstep
      match htransact : s.transact batch with
      | .error reason =>
        rw [htransact] at hstep
        cases hstep
        exact h.idle rfl rfl rfl rfl (fun _ _ hrun => hrun) (fun _ => rfl) (fun _ heq => by cases heq) (fun _ => rfl) rfl
          (fun _ => rfl)
      | .ok (t, result, event) =>
        rw [htransact] at hstep
        cases hstep
        exact (h.transact hsent htransact).1
    · rw [if_neg hsent] at hstep
      cases hstep
  | succeed now durationMs =>
    simp only [step] at hstep
    match hflight : s.inFlight with
    | none =>
      rw [hflight] at hstep
      cases hstep
    | some .finished =>
      rw [hflight] at hstep
      cases hstep
    | some (.running batch none) =>
      rw [hflight] at hstep
      cases hstep
    | some (.running batch (some result)) =>
      rw [hflight] at hstep
      simp only at hstep
      match hcommit : s.state.committed result now durationMs with
      | none =>
        rw [hcommit] at hstep
        cases hstep
        exact h.idle rfl rfl rfl rfl (fun _ _ hrun => by cases hrun) (fun _ => rfl) (fun _ heq => by cases heq)
          (fun _ => rfl) rfl (fun _ => rfl)
      | some (state, owners) =>
        rw [hcommit] at hstep
        cases hstep
        exact h.commit hflight hcommit
  | fail durationMs =>
    simp only [step] at hstep
    split at hstep
    · cases hstep
      exact h.fail durationMs
    · cases hstep
  | settle =>
    simp only [step] at hstep
    split at hstep
    · cases hstep
      exact h.idle rfl rfl rfl rfl (fun _ _ hrun => by cases hrun) (fun _ => rfl) (fun _ heq => by cases heq)
        (fun _ => rfl) rfl (fun _ => rfl)
    · cases hstep
  | close =>
    cases hstep
    exact h.close
  | accounts users =>
    cases hstep
    exact h.accounts users

theorem new_sound {options : Options} {database : Database} (h : Service.new options database = .ok s)
    (hfresh : ∀ row ∈ database.flushes, row.meterId ≠ options.meterId) : s.Sound database [] := by
  unfold Service.new at h
  rw [bind_eq_ok] at h
  obtain ⟨state, hstate, h⟩ := h
  cases h
  have hsound := Usage.new_sound hstate
  unfold State.new at hstate
  split at hstate
  · cases hstate
    refine ⟨hsound, ?_, rfl, ?_, ?_, ?_, ?_, ?_⟩
    · intro k
      simp only [State.buffered, pendingDurable, total_nil, add_zero, sub_zero]
    · intro batch hbatch
      simp at hbatch
    · intro row hrow hid
      exact absurd hid (hfresh row hrow)
    · intro batch result hrun
      cases hrun
    · intro batch hlast
      cases hlast
    · intro before batch behind heq
      simp at heq
  · cases hstate

theorem run_sound {actions : List Action} (h : s.Sound initial []) (hrun : runSteps step s actions = some (s', es)) :
    s'.Sound initial es := by
  have hinvariant := @runSteps_invariant Service Action Event step (fun s es => s.Sound initial es)
    (fun s es a s' e hs hstep => step_sound hs hstep) actions s [] s' es h hrun
  rwa [nil_append] at hinvariant

end Service

theorem total_others {α : Type} {k : Key} {users : List String} (howner : k.ownerId ∈ users) (f : α → BandwidthEntry)
    (rows : List α) :
    total (fun row => amountAt k (f row)) (rows.filter fun row => !decide ((f row).ownerId ∈ users)) = 0 := by
  induction rows with
  | nil => rfl
  | cons row rows ih =>
    by_cases hmem : (f row).ownerId ∈ users
    · rw [filter_cons_of_neg (by simp [hmem])]
      exact ih
    · rw [filter_cons_of_pos (by simp [hmem])]
      have hne : (f row).key ≠ k := by
        rintro rfl
        exact hmem howner
      rw [total_cons, ih, amountAt, if_neg hne, add_zero]

theorem writtenOff_eq_zero {k : Key} {es : List Event} (hwritten : ∀ batch users, .written batch users ∈ es → k.ownerId ∈ users)
    (haccounts : ∀ users buckets, .accounts users buckets ∈ es → k.ownerId ∈ users) : total (Event.writtenOff k) es = 0 := by
  induction es with
  | nil => rfl
  | cons e es ih =>
    rw [total_cons, ih (fun batch users hmem => hwritten batch users (mem_cons_of_mem _ hmem))
      (fun users buckets hmem => haccounts users buckets (mem_cons_of_mem _ hmem)), add_zero]
    cases e with
    | written batch users => exact total_others (hwritten batch users mem_cons_self) id batch.entries
    | accounts users buckets => exact total_others (haccounts users buckets mem_cons_self) BucketRow.entry buckets
    | measured => rfl
    | attempted => rfl
    | joined => rfl
    | idle => rfl
    | refused => rfl
    | completed => rfl
    | failed => rfl
    | internal => rfl

theorem record_rejected {s : State} {input : Measurement} {now : DateTime} {m : NormalizedMeasurement} {bucketStart : DateTime}
    (h : Valid s input now m bucketStart) :
    (s.recordWithHooks input (some now)).2.1 = .rejected ↔ Drops s m bucketStart := by
  obtain ⟨t, hcheck, hbucket⟩ := h.check
  unfold State.recordWithHooks
  rw [if_neg (by simp [h.isOpen]), hcheck]
  simp only
  rw [if_neg h.counts, hbucket]
  simp only [State.take, Drops]
  obtain hfind | ⟨current, hfind⟩ := eq_none_or_eq_some (s.find (m.key bucketStart))
  · rw [hfind]
    by_cases hfull : s.options.maxBufferedEntries ≤ s.buffer.length
    · simp [hfull]
    · simp [hfull]
  · rw [hfind]
    by_cases hover : m.overflows current = true
    · simp [hover]
    · simp [hover]

/-- Metering is exactly once, up to the usage of owners without an account, which is written off with its batch, and to what
was durable of an account that is deleted. -/
theorem metering_exact {options : Options} {database : Database} {s₀ s : Service} {actions : List Action} {es : List Event}
    (hnew : Service.new options database = .ok s₀) (hfresh : ∀ row ∈ database.flushes, row.meterId ≠ options.meterId)
    (hrun : runSteps step s₀ actions = some (s, es)) :
    (∀ k, s.database.durable k + s.state.buffered k - s.pendingDurable k + total (Event.writtenOff k) es =
      database.durable k + total (Event.accepted k) es) ∧
    (∀ k, (∀ batch users, .written batch users ∈ es → k.ownerId ∈ users) →
      (∀ users buckets, .accounts users buckets ∈ es → k.ownerId ∈ users) → total (Event.writtenOff k) es = 0) ∧
    s.state.stats.bufferedBytes = total (·.entry.bytes) s.state.buffer ∧
    (∀ e ∈ s.state.buffer, 0 ≤ e.entry.bytes ∧ 0 ≤ e.entry.operationCount ∧ 0 ≤ e.notifyMeasurements) ∧
    s.state.buffer.length ≤ s.state.options.maxBufferedEntries ∧
    Retries es ∧
    (s.state.stats.droppedBytes, s.state.stats.droppedMeasurements) = total Event.dropped es ∧
    ∀ input now m bucketStart, Valid s.state input now m bucketStart →
      ((s.state.recordWithHooks input (some now)).2.1 = .rejected ↔ Drops s.state m bucketStart) := by
  have hsound := Service.run_sound (Service.new_sound hnew hfresh) hrun
  refine ⟨hsound.identity, fun k hwritten haccounts => writtenOff_eq_zero hwritten haccounts, hsound.state.bytes, ?_, hsound.state.size, hsound.retries,
    hsound.dropped, fun input now m bucketStart hvalid => record_rejected hvalid⟩
  intro e he
  have hcounts := hsound.state.counts e he
  exact ⟨hcounts.bytes, hcounts.operationCount, hcounts.notifyMeasurements⟩

/-! ## Runs with an owner who has an account and with one who has none -/

namespace Stray

def options : Options := ⟨"meter", 4, 1048576, 60000⟩

def input : Measurement := ⟨"gone", .integer 5, none, "http", "ingress", none⟩

def now : DateTime := ⟨7200000, by decide⟩

def actions : List Action := [.record input now, .flush now, .write, .succeed now 1]

def key : Key := ⟨"gone", now, "http", "ingress"⟩

/-- An attempt is reported to have failed, is written all the same, and is tried again; then the account is deleted. -/
def retrying : List Action :=
  [.record input now, .flush now, .fail 1, .record input now, .settle, .flush now, .writeLate
    ⟨[⟨now, 5, "http", "ingress", 1, "gone"⟩], now, "meter", 1⟩, .write, .succeed now 1, .accounts []]

end Stray

theorem metering_exact_retrying :
    ∃ s₀ s es, Service.new Stray.options ⟨["gone"], [], []⟩ = .ok s₀ ∧ runSteps step s₀ Stray.retrying = some (s, es) ∧
      Retries es ∧ ∀ k, s.database.durable k + s.state.buffered k - s.pendingDurable k + total (Event.writtenOff k) es =
        Database.durable ⟨["gone"], [], []⟩ k + total (Event.accepted k) es :=
  have h := @metering_exact Stray.options ⟨["gone"], [], []⟩ _ _ Stray.retrying _ rfl (by simp) rfl
  ⟨_, _, _, rfl, rfl, h.2.2.2.2.2.1, h.1⟩

/-- Usage of an owner without an account is accepted, flushed and then nowhere. -/
theorem stray_usage_lost :
    ∃ s₀ s es, Service.new Stray.options ⟨[], [], []⟩ = .ok s₀ ∧ runSteps step s₀ Stray.actions = some (s, es) ∧
      s.database.durable Stray.key + s.state.buffered Stray.key - s.pendingDurable Stray.key = (0, 0) ∧
      total (Event.accepted Stray.key) es = (5, 1) :=
  ⟨_, _, _, rfl, rfl, by decide, by decide⟩

end Cantrip.Usage
