import Cantrip.Usage.Buffer

/-!
# Taking the flushed share out of the buffer

A committed batch takes out of every entry what was captured of it. Since a captured entry stays in the buffer and
only grows, no counter falls below zero, and the buffer loses exactly the batch.
-/

namespace Cantrip.Usage

open Lib List Option

structure Released (buffer : List BufferedEntry × Int) (captured : List BufferedEntry) (rest : List BufferedEntry × Int) : Prop where
  nodup : (rest.1.map BufferedEntry.key).Nodup
  counts : ∀ e ∈ rest.1, e.Counts
  size : rest.1.length ≤ buffer.1.length
  bytes : rest.2 - total (·.entry.bytes) rest.1 = buffer.2 - total (·.entry.bytes) buffer.1
  share : ∀ k, total (fun e => amountAt k e.entry) rest.1 =
    total (fun e => amountAt k e.entry) buffer.1 - total (fun e => amountAt k e.entry) captured

theorem amountAt_minus {current flushed : BufferedEntry} (k : Key) (h : current.key = flushed.key) :
    amountAt k (current.minus flushed).entry = amountAt k current.entry - amountAt k flushed.entry := by
  have hkey : (current.minus flushed).entry.key = flushed.entry.key := h
  have hkey' : current.entry.key = flushed.entry.key := h
  unfold amountAt
  rw [hkey, hkey']
  split
  · rfl
  · rfl

theorem amountAt_of_isZero {current flushed : BufferedEntry} (k : Key) (h : current.key = flushed.key)
    (hzero : (current.minus flushed).isZero = true) : amountAt k current.entry = amountAt k flushed.entry := by
  have hrest : amountAt k (current.minus flushed).entry = 0 := by
    simp only [BufferedEntry.isZero, decide_eq_true_eq] at hzero
    unfold amountAt BandwidthEntry.amount
    rw [hzero.1, hzero.2.1]
    split
    · rfl
    · rfl
  rw [amountAt_minus k h] at hrest
  exact sub_eq_zero.mp hrest

theorem release_spec {buffer : List BufferedEntry} {bytes : Int} {flushed current : BufferedEntry}
    (hnodup : (buffer.map BufferedEntry.key).Nodup) (hcounts : ∀ e ∈ buffer, e.Counts)
    (hfind : buffer.find? (fun x => x.key = flushed.key) = some current) (hbytes : flushed.entry.bytes ≤ current.entry.bytes)
    (hops : flushed.entry.operationCount ≤ current.entry.operationCount)
    (hnotify : flushed.notifyMeasurements ≤ current.notifyMeasurements) :
    Released (buffer, bytes) [flushed] (release (buffer, bytes) flushed) ∧ ∀ k, flushed.key ≠ k →
        (release (buffer, bytes) flushed).1.find? (fun x => x.key = k) = buffer.find? (fun x => x.key = k) := by
  have hkey : current.key = flushed.key := by simpa using find?_some hfind
  have hminus : (current.minus flushed).key = flushed.key := hkey
  have hrelease : release (buffer, bytes) flushed =
      (if (current.minus flushed).isZero then buffer.filter fun e => e.key ≠ flushed.key
        else putKey BufferedEntry.key (current.minus flushed) buffer, bytes - flushed.entry.bytes) := by
    unfold release
    rw [hfind]
  rw [hrelease]
  by_cases hzero : (current.minus flushed).isZero = true
  · rw [if_pos hzero]
    refine ⟨⟨?_, ?_, ?_, ?_, ?_⟩, ?_⟩
    · exact hnodup.sublist (filter_sublist.map _)
    · intro e he
      exact hcounts e (mem_of_mem_filter he)
    · exact length_filter_le _ _
    · have hsame : current.entry.bytes = flushed.entry.bytes := by
        simp only [BufferedEntry.isZero, decide_eq_true_eq] at hzero
        exact sub_eq_zero.mp hzero.1
      simp only [total_filter_key_ne (·.entry.bytes) hnodup hfind, hsame]
      omega
    · intro k
      simp only [total_filter_key_ne (fun e => amountAt k e.entry) hnodup hfind, total_cons, total_nil, add_zero,
        amountAt_of_isZero k hkey hzero]
    · intro k hne
      exact find?_filter_key_ne buffer (Ne.symm hne)
  · rw [if_neg hzero]
    have hput : buffer.find? (fun x => x.key = (current.minus flushed).key) = some current := by
      rw [hminus]
      exact hfind
    refine ⟨⟨?_, ?_, ?_, ?_, ?_⟩, ?_⟩
    · rw [map_key_put]
      exact hnodup
    · intro e he
      obtain rfl | he := mem_put hput he
      · exact ⟨Int.sub_nonneg.mpr hbytes, Int.sub_nonneg.mpr hops, Int.sub_nonneg.mpr hnotify⟩
      · exact hcounts e he
    · rw [length_put]
    · have hrest : (current.minus flushed).entry.bytes = current.entry.bytes - flushed.entry.bytes := rfl
      simp only [total_put (·.entry.bytes) hput, hrest]
      omega
    · intro k
      simp only [total_put (fun e => amountAt k e.entry) hput, total_cons, total_nil, add_zero, amountAt_minus k hkey]
      abel
    · intro k hne
      exact find?_put_of_ne _ buffer (hminus ▸ hne)

theorem releases_spec (captured : List BufferedEntry) : ∀ buffer : List BufferedEntry × Int,
    (buffer.1.map BufferedEntry.key).Nodup → (∀ e ∈ buffer.1, e.Counts) → (captured.map BufferedEntry.key).Nodup →
      Covers buffer.1 captured → Released buffer captured (captured.foldl release buffer) := by
  induction captured with
  | nil =>
    intro buffer hnodup hcounts _ _
    exact ⟨hnodup, hcounts, Nat.le_refl _, rfl, fun k => by simp⟩
  | cons flushed captured ih =>
    intro ⟨buffer, bytes⟩ hnodup hcounts hkeys hcovers
    rw [map_cons, nodup_cons] at hkeys
    obtain ⟨current, hfind, hbytes, hops, hnotify⟩ := hcovers flushed (by simp)
    obtain ⟨hone, hother⟩ := @release_spec buffer bytes flushed current hnodup hcounts hfind hbytes hops hnotify
    have hcovers' : Covers (release (buffer, bytes) flushed).1 captured := by
      intro e he
      obtain ⟨current', hfind', hle⟩ := hcovers e (by simp [he])
      refine ⟨current', ?_, hle⟩
      rw [hother e.key fun heq => hkeys.1 (heq ▸ mem_map_of_mem he)]
      exact hfind'
    have hrest := ih (release (buffer, bytes) flushed) hone.nodup hone.counts hkeys.2 hcovers'
    refine ⟨hrest.nodup, hrest.counts, Nat.le_trans hrest.size hone.size, ?_, ?_⟩
    · rw [foldl_cons, hrest.bytes, hone.bytes]
    · intro k
      rw [foldl_cons, hrest.share k, hone.share k, total_cons, total_cons, total_nil]
      abel

theorem capture_none {s : State} (at' : DateTime) (hpending : s.pending = none) (hbuffer : s.buffer ≠ []) :
    s.capture at' = ({ s with
      sequence := s.sequence + 1
      pending := some ⟨⟨s.buffer.map (·.entry), at', s.options.meterId, s.sequence + 1⟩, s.buffer⟩ },
      some ⟨s.buffer.map (·.entry), at', s.options.meterId, s.sequence + 1⟩) := by
  unfold State.capture
  rw [hpending]
  simp only
  rw [if_neg hbuffer]

theorem capture_some {s : State} {p : Pending} (at' : DateTime) (hpending : s.pending = some p) :
    s.capture at' = (s, some p.batch) := by
  unfold State.capture
  rw [hpending]

theorem capture_sound {s : State} (hs : s.Sound) (at' : DateTime) : (s.capture at').1.Sound := by
  match hpending : s.pending with
  | some p =>
    rw [capture_some at' hpending]
    exact hs
  | none =>
    by_cases hbuffer : s.buffer = []
    · unfold State.capture
      rw [hpending]
      simp only
      rw [if_pos hbuffer]
      exact hs
    · rw [capture_none at' hpending hbuffer]
      refine ⟨hs.nodup, hs.counts, hs.size, hs.bytes, ?_⟩
      intro p hp
      cases hp
      exact ⟨rfl, rfl, rfl, hbuffer, hs.nodup, covers_refl hs.nodup⟩

theorem committed_spec {s s' : State} {p : Pending} {result : FlushResult} {at' : DateTime} {durationMs : Int}
    {owners : List String} (hs : s.Sound) (hpending : s.pending = some p)
    (h : s.committed result at' durationMs = some (s', owners)) :
    s'.Sound ∧ s'.pending = none ∧ s'.sequence = s.sequence ∧ s'.options = s.options ∧
      (∀ k, s'.buffered k = s.buffered k - share k p.batch.entries) ∧
      (s'.stats.droppedBytes, s'.stats.droppedMeasurements) = (s.stats.droppedBytes, s.stats.droppedMeasurements) := by
  have hp := hs.pending p hpending
  have hreleased := releases_spec p.entries (s.buffer, s.stats.bufferedBytes) hs.nodup hs.counts hp.nodup hp.covers
  unfold State.committed at h
  simp only [hpending, bind_eq_bind, bind_some, some.injEq, Prod.mk.injEq] at h
  obtain ⟨rfl, -⟩ := h
  refine ⟨⟨hreleased.nodup, hreleased.counts, Nat.le_trans hreleased.size hs.size, ?_, ?_⟩, rfl, rfl, rfl, ?_, rfl⟩
  · have hbytes := hreleased.bytes
    simp only [hs.bytes, sub_self] at hbytes
    simp only
    rw [hs.bytes]
    omega
  · intro q hq
    cases hq
  · intro k
    unfold share
    rw [hp.entries, total_map]
    exact hreleased.share k

end Cantrip.Usage
