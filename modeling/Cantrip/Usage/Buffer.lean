import Cantrip.Usage.Meter
import Mathlib.Algebra.Group.Prod
import Mathlib.Algebra.Group.Int.Defs

/-!
# The buffer of the meter

`State.Sound` is what holds of every meter: entries under distinct keys, no counter below zero, no more entries than
allowed, the buffered bytes their sum, and whatever was captured still in the buffer. `Records` lists what a
measurement can do.
-/

namespace Cantrip.Usage

open Lib List Option

def amountAt (k : Key) (e : BandwidthEntry) : Int × Int := if e.key = k then e.amount else 0

def share (k : Key) (entries : List BandwidthEntry) : Int × Int := total (amountAt k) entries

def Covers (buffer captured : List BufferedEntry) : Prop :=
  ∀ e ∈ captured, ∃ current, buffer.find? (fun x => x.key = e.key) = some current ∧ e.entry.bytes ≤ current.entry.bytes ∧
    e.entry.operationCount ≤ current.entry.operationCount ∧ e.notifyMeasurements ≤ current.notifyMeasurements

/-- No counter is below zero. -/
structure BufferedEntry.Counts (e : BufferedEntry) : Prop where
  bytes : 0 ≤ e.entry.bytes
  operationCount : 0 ≤ e.entry.operationCount
  notifyMeasurements : 0 ≤ e.notifyMeasurements

structure Pending.Sound (s : State) (p : Pending) : Prop where
  entries : p.batch.entries = p.entries.map (·.entry)
  meterId : p.batch.meterId = s.options.meterId
  sequence : p.batch.sequence = s.sequence
  nonempty : p.entries ≠ []
  nodup : (p.entries.map BufferedEntry.key).Nodup
  covers : Covers s.buffer p.entries

structure State.Sound (s : State) : Prop where
  nodup : (s.buffer.map BufferedEntry.key).Nodup
  counts : ∀ e ∈ s.buffer, e.Counts
  size : s.buffer.length ≤ s.options.maxBufferedEntries
  bytes : s.stats.bufferedBytes = total (·.entry.bytes) s.buffer
  pending : ∀ p, s.pending = some p → p.Sound s

/-! ## Recording -/

theorem hourStart_isSome (now : DateTime) : ∃ bucketStart, hourStart now = some bucketStart := by
  obtain ⟨ms, hlo, hhi⟩ := now
  refine ⟨⟨ms / 3600000 * 3600000, by omega⟩, ?_⟩
  unfold hourStart DateTime.fromTimestampMillis
  rw [dif_pos]

theorem Counter.checked_nonneg {c : Counter} {n : Int} (h : c.checked = some n) : 0 ≤ n := by
  unfold checked at h
  split at h
  · split at h
    · simp only [some.injEq] at h
      omega
    · simp at h
  · simp at h
  · split at h
    · simp only [some.injEq] at h
      omega
    · simp at h

theorem check_nonneg {input : Measurement} {now t : DateTime} {m : NormalizedMeasurement}
    (h : input.check (some now) = some (m, t)) : 0 ≤ m.bytes ∧ 0 ≤ m.operationCount := by
  unfold Measurement.check at h
  simp only [bind_eq_bind, bind_some, bind_eq_some_iff, some.injEq, Prod.mk.injEq] at h
  obtain ⟨bytes, hbytes, operations, hoperations, -, -, rfl, -⟩ := h
  refine ⟨Counter.checked_nonneg hbytes, ?_⟩
  match hcount : input.operationCount with
  | none =>
    rw [hcount] at hoperations
    simp only [map_none, getD_none, some.injEq] at hoperations
    simp only
    omega
  | some c =>
    rw [hcount] at hoperations
    exact Counter.checked_nonneg hoperations

def Drops (s : State) (m : NormalizedMeasurement) (bucketStart : DateTime) : Prop :=
  s.find (m.key bucketStart) = none ∧ s.options.maxBufferedEntries ≤ s.buffer.length ∨
    ∃ current, s.find (m.key bucketStart) = some current ∧ m.overflows current

structure Valid (s : State) (input : Measurement) (now : DateTime) (m : NormalizedMeasurement) (bucketStart : DateTime) :
    Prop where
  isOpen : s.closed = false
  check : ∃ t, input.check (some now) = some (m, t) ∧ hourStart t = some bucketStart
  counts : ¬(m.bytes = 0 ∧ m.operationCount = 0)

inductive Records (s : State) (input : Measurement) (now : DateTime) : State → RecordOutcome → Prop
  | closed (h : s.closed = true) : Records s input now s .rejected
  | invalid (h : input.check (some now) = none) : Records s input now s .rejected
  | noop {m t} (h : input.check (some now) = some (m, t)) (hbytes : m.bytes = 0) (hops : m.operationCount = 0) :
      Records s input now s .noop
  | dropped {m bucketStart} (h : Valid s input now m bucketStart) (hroom : Drops s m bucketStart) :
      Records s input now (s.drop m) .rejected
  | fresh {m bucketStart} (h : Valid s input now m bucketStart) (hfind : s.find (m.key bucketStart) = none)
      (hroom : s.buffer.length < s.options.maxBufferedEntries) :
      Records s input now (s.store m (s.buffer ++ [m.fresh bucketStart])) .recorded
  | joined {m bucketStart current} (h : Valid s input now m bucketStart)
      (hfind : s.find (m.key bucketStart) = some current) (hroom : m.overflows current = false) :
      Records s input now (s.store m (putKey BufferedEntry.key (m.join current) s.buffer)) .recorded

theorem record_cases (s : State) (input : Measurement) (now : DateTime) :
    Records s input now (s.recordWithHooks input (some now)).1 (s.recordWithHooks input (some now)).2.1 := by
  unfold State.recordWithHooks
  by_cases hclosed : s.closed
  · rw [if_pos hclosed]
    exact .closed hclosed
  rw [if_neg hclosed]
  obtain hcheck | ⟨⟨m, t⟩, hcheck⟩ := eq_none_or_eq_some (input.check (some now))
  · rw [hcheck]
    exact .invalid hcheck
  rw [hcheck]
  simp only
  by_cases hzero : m.bytes = 0 ∧ m.operationCount = 0
  · rw [if_pos hzero]
    exact .noop hcheck hzero.1 hzero.2
  rw [if_neg hzero]
  obtain ⟨bucketStart, hbucket⟩ := hourStart_isSome t
  have hvalid : Valid s input now m bucketStart := ⟨by simpa using hclosed, ⟨t, hcheck, hbucket⟩, hzero⟩
  rw [hbucket]
  simp only [State.take]
  obtain hfind | ⟨current, hfind⟩ := eq_none_or_eq_some (s.find (m.key bucketStart))
  · rw [hfind]
    by_cases hfull : s.options.maxBufferedEntries ≤ s.buffer.length
    · simp only [if_pos hfull]
      exact .dropped hvalid (.inl ⟨hfind, hfull⟩)
    · simp only [if_neg hfull]
      exact .fresh hvalid hfind (by omega)
  · rw [hfind]
    by_cases hover : m.overflows current
    · simp only [if_pos hover]
      exact .dropped hvalid (.inr ⟨current, hfind, hover⟩)
    · simp only [if_neg hover]
      exact .joined hvalid hfind (by simpa using hover)

def NormalizedMeasurement.amountAt (k : Key) (m : NormalizedMeasurement) (bucketStart : DateTime) : Int × Int :=
  if m.key bucketStart = k then (m.bytes, m.operationCount) else 0

def acceptedAt (k : Key) (input : Measurement) (now : DateTime) (outcome : RecordOutcome) : Int × Int :=
  match input.check (some now) with
  | none => 0
  | some (m, t) =>
    match hourStart t with
    | none => 0
    | some bucketStart => if outcome.accepted then m.amountAt k bucketStart else 0

def droppedAt (closed : Bool) (input : Measurement) (now : DateTime) (outcome : RecordOutcome) : Int × Int :=
  match input.check (some now) with
  | none => 0
  | some (m, _) =>
    if closed = false ∧ outcome = .rejected ∧ ¬(m.bytes = 0 ∧ m.operationCount = 0) then (m.bytes, 1) else 0

def State.buffered (s : State) (k : Key) : Int × Int := total (fun e => amountAt k e.entry) s.buffer

section

variable {s s' : State} {input : Measurement} {now : DateTime} {m : NormalizedMeasurement} {bucketStart : DateTime}
  {outcome : RecordOutcome} {k : Key}

theorem find_key {current : BufferedEntry} (h : s.find k = some current) : current.key = k := by
  simpa using find?_some h

theorem find_join {current : BufferedEntry} (h : s.find (m.key bucketStart) = some current) :
    s.buffer.find? (fun x => x.key = (m.join current).key) = some current := by
  have hkey : current.key = m.key bucketStart := find_key h
  rw [show (m.join current).key = m.key bucketStart from hkey]
  exact h

theorem amountAt_fresh (m : NormalizedMeasurement) (bucketStart : DateTime) :
    amountAt k (m.fresh bucketStart).entry = m.amountAt k bucketStart := rfl

theorem amountAt_join {current : BufferedEntry} (h : current.key = m.key bucketStart) :
    amountAt k (m.join current).entry = amountAt k current.entry + m.amountAt k bucketStart := by
  have hkey : (m.join current).entry.key = m.key bucketStart := h
  have hkey' : current.entry.key = m.key bucketStart := h
  unfold amountAt NormalizedMeasurement.amountAt
  rw [hkey, hkey']
  split
  · rfl
  · rfl

theorem Valid.acceptedAt (h : Valid s input now m bucketStart) (houtcome : outcome.accepted = true) :
    Usage.acceptedAt k input now outcome = m.amountAt k bucketStart := by
  obtain ⟨t, hcheck, hbucket⟩ := h.check
  unfold Usage.acceptedAt
  rw [hcheck]
  simp only
  rw [hbucket]
  simp only
  rw [if_pos houtcome]

theorem Records.frame (h : Records s input now s' outcome) :
    s'.pending = s.pending ∧ s'.sequence = s.sequence ∧ s'.options = s.options := by
  cases h with
  | closed => exact ⟨rfl, rfl, rfl⟩
  | invalid => exact ⟨rfl, rfl, rfl⟩
  | noop => exact ⟨rfl, rfl, rfl⟩
  | dropped => exact ⟨rfl, rfl, rfl⟩
  | fresh => exact ⟨rfl, rfl, rfl⟩
  | joined => exact ⟨rfl, rfl, rfl⟩

theorem Records.buffered (h : Records s input now s' outcome) (k : Key) :
    s'.buffered k = s.buffered k + acceptedAt k input now outcome := by
  have hrejected : acceptedAt k input now .rejected = 0 := by
    unfold acceptedAt
    split
    · rfl
    · split
      · rfl
      · rfl
  cases h with
  | closed => rw [hrejected, add_zero]
  | invalid => rw [hrejected, add_zero]
  | noop hcheck hbytes hops =>
    have hzero : acceptedAt k input now .noop = 0 := by
      unfold acceptedAt NormalizedMeasurement.amountAt
      rw [hcheck]
      simp only [hbytes, hops]
      split
      · rfl
      · split
        · split <;> rfl
        · rfl
    rw [hzero, add_zero]
  | dropped =>
    rw [hrejected, add_zero]
    rfl
  | fresh hvalid =>
    rw [hvalid.acceptedAt rfl]
    unfold State.buffered State.store
    rw [total_append, total_cons, total_nil, amountAt_fresh, add_zero]
  | joined hvalid hfind =>
    rw [hvalid.acceptedAt rfl]
    unfold State.buffered State.store
    rw [total_put _ (find_join hfind), amountAt_join (find_key hfind)]
    abel

theorem Records.dropped_stats (h : Records s input now s' outcome) : (s'.stats.droppedBytes, s'.stats.droppedMeasurements) =
      (s.stats.droppedBytes, s.stats.droppedMeasurements) + droppedAt s.closed input now outcome := by
  cases h with
  | closed hclosed =>
    have hzero : droppedAt s.closed input now .rejected = 0 := by
      unfold droppedAt
      split
      · rfl
      · rw [if_neg (by simp [hclosed])]
    rw [hzero, add_zero]
  | invalid hcheck =>
    unfold droppedAt
    rw [hcheck]
    simp
  | noop hcheck hbytes hops =>
    unfold droppedAt
    rw [hcheck]
    simp
  | dropped hvalid hroom =>
    obtain ⟨t, hcheck, -⟩ := hvalid.check
    unfold droppedAt
    rw [hcheck]
    simp only
    rw [if_pos ⟨hvalid.isOpen, trivial, hvalid.counts⟩]
    rfl
  | fresh hvalid =>
    obtain ⟨t, hcheck, -⟩ := hvalid.check
    unfold droppedAt
    rw [hcheck]
    simp [State.store]
  | joined hvalid =>
    obtain ⟨t, hcheck, -⟩ := hvalid.check
    unfold droppedAt
    rw [hcheck]
    simp [State.store]

end

/-! ## What a step keeps -/

theorem Covers.append {buffer captured : List BufferedEntry} (h : Covers buffer captured) (extra : List BufferedEntry) :
    Covers (buffer ++ extra) captured := by
  intro e he
  obtain ⟨current, hfind, hle⟩ := h e he
  exact ⟨current, by rw [find?_append, hfind, some_or], hle⟩

theorem Covers.put {buffer captured : List BufferedEntry} {a b : BufferedEntry} (h : Covers buffer captured)
    (hfind : buffer.find? (fun x => x.key = a.key) = some b) (hbytes : b.entry.bytes ≤ a.entry.bytes)
    (hops : b.entry.operationCount ≤ a.entry.operationCount) (hnotify : b.notifyMeasurements ≤ a.notifyMeasurements) :
    Covers (putKey BufferedEntry.key a buffer) captured := by
  intro e he
  obtain ⟨current, hcurrent, hle⟩ := h e he
  by_cases hkey : a.key = e.key
  · rw [← hkey, hfind, some.injEq] at hcurrent
    refine ⟨a, ?_, ?_⟩
    · rw [← hkey]
      refine find?_put_self a buffer ?_
      rw [← show b.key = a.key by simpa using find?_some hfind]
      exact List.mem_map_of_mem (mem_of_find?_eq_some hfind)
    · rw [hcurrent] at hbytes hops hnotify
      omega
  · exact ⟨current, by rw [find?_put_of_ne a buffer hkey, hcurrent], hle⟩

theorem covers_refl {buffer : List BufferedEntry} (hnodup : (buffer.map BufferedEntry.key).Nodup) : Covers buffer buffer :=
  fun e he => ⟨e, find?_eq_of_mem hnodup he, by omega, by omega, by omega⟩

theorem new_sound {options : Options} {s : State} (h : State.new options = .ok s) : s.Sound := by
  unfold State.new at h
  split at h
  · cases h
    refine ⟨nodup_nil, ?_, Nat.zero_le _, rfl, ?_⟩
    · intro e he
      simp at he
    · intro p hp
      cases hp
  · cases h

theorem fresh_counts {m : NormalizedMeasurement} (bucketStart : DateTime) (hbytes : 0 ≤ m.bytes) (hops : 0 ≤ m.operationCount) :
    (m.fresh bucketStart).Counts := by
  refine ⟨hbytes, hops, ?_⟩
  unfold NormalizedMeasurement.fresh NormalizedMeasurement.notify
  simp only
  split <;> omega

theorem notify_nonneg (m : NormalizedMeasurement) : 0 ≤ m.notify := by
  unfold NormalizedMeasurement.notify
  split <;> omega

theorem Records.sound {s s' : State} {input : Measurement} {now : DateTime} {outcome : RecordOutcome}
    (h : Records s input now s' outcome) (hs : s.Sound) : s'.Sound := by
  cases h with
  | closed => exact hs
  | invalid => exact hs
  | noop => exact hs
  | dropped =>
    refine ⟨hs.nodup, hs.counts, hs.size, hs.bytes, ?_⟩
    intro p hp
    obtain ⟨h1, h2, h3, h4, h5, h6⟩ := hs.pending p hp
    exact ⟨h1, h2, h3, h4, h5, h6⟩
  | @fresh m bucketStart hvalid hfind hroom =>
    obtain ⟨t, hcheck, -⟩ := hvalid.check
    obtain ⟨hbytes, hops⟩ := check_nonneg hcheck
    have hnew : ∀ e ∈ s.buffer, e.key ≠ (m.fresh bucketStart).key := by
      intro e he
      have hne := find?_eq_none.mp hfind e he
      rw [decide_eq_true_eq] at hne
      exact hne
    refine ⟨?_, ?_, ?_, ?_, ?_⟩
    · simp only [State.store, map_append, map_cons, map_nil]
      refine nodup_append.mpr ⟨hs.nodup, by simp, ?_⟩
      intro x hx y hy
      obtain ⟨e, he, rfl⟩ := List.mem_map.mp hx
      rw [mem_singleton.mp hy]
      exact hnew e he
    · intro e he
      obtain he | he := mem_append.mp he
      · exact hs.counts e he
      · rw [mem_singleton.mp he]
        exact fresh_counts bucketStart hbytes hops
    · simp only [State.store, length_append, length_cons, length_nil]
      omega
    · simp only [State.store, total_append, total_cons, total_nil, hs.bytes, add_zero]
      rfl
    · intro p hp
      obtain ⟨h1, h2, h3, h4, h5, h6⟩ := hs.pending p hp
      exact ⟨h1, h2, h3, h4, h5, h6.append _⟩
  | @joined m bucketStart current hvalid hfind hroom =>
    obtain ⟨t, hcheck, -⟩ := hvalid.check
    obtain ⟨hbytes, hops⟩ := check_nonneg hcheck
    have hnotify := notify_nonneg m
    have hjoin := find_join hfind
    refine ⟨?_, ?_, ?_, ?_, ?_⟩
    · simp only [State.store, map_key_put]
      exact hs.nodup
    · intro e he
      obtain rfl | he := mem_put hjoin he
      · obtain ⟨h1, h2, h3⟩ := hs.counts current (mem_of_find?_eq_some hfind)
        refine ⟨?_, ?_, ?_⟩
        · exact Int.add_nonneg h1 hbytes
        · exact Int.add_nonneg h2 hops
        · exact Int.add_nonneg h3 hnotify
      · exact hs.counts e he
    · simp only [State.store, length_put]
      exact hs.size
    · have hbuffered : (m.join current).entry.bytes = current.entry.bytes + m.bytes := rfl
      simp only [State.store, total_put _ hjoin, hs.bytes, hbuffered]
      omega
    · intro p hp
      obtain ⟨h1, h2, h3, h4, h5, h6⟩ := hs.pending p hp
      refine ⟨h1, h2, h3, h4, h5, h6.put hjoin ?_ ?_ ?_⟩
      · exact Int.le_add_of_nonneg_right hbytes
      · exact Int.le_add_of_nonneg_right hops
      · exact Int.le_add_of_nonneg_right hnotify

theorem State.Sound.of_same {s s' : State} (h : s.Sound) (hbuffer : s'.buffer = s.buffer) (hpending : s'.pending = s.pending)
    (hoptions : s'.options = s.options) (hsequence : s'.sequence = s.sequence)
    (hbytes : s'.stats.bufferedBytes = s.stats.bufferedBytes) : s'.Sound := by
  refine ⟨?_, ?_, ?_, ?_, ?_⟩
  · rw [hbuffer]
    exact h.nodup
  · rw [hbuffer]
    exact h.counts
  · rw [hbuffer, hoptions]
    exact h.size
  · rw [hbytes, hbuffer]
    exact h.bytes
  · rw [hpending]
    intro p hp
    obtain ⟨h1, h2, h3, h4, h5, h6⟩ := h.pending p hp
    exact ⟨h1, hoptions ▸ h2, hsequence ▸ h3, h4, h5, hbuffer ▸ h6⟩

end Cantrip.Usage
