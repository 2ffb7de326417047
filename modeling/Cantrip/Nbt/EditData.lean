import Cantrip.Lib.Buffer
import Cantrip.Nbt.Types
import Mathlib.Logic.Function.Basic
import Mathlib.Logic.Relation

/-!
# Edit bytes (`packages/nbt/src/edit/data.ts`)

`NbtEditData` keeps the bytes of a draft in pages of an encrypted cache and in a partial page in memory. Appends run
one after the other, and each await of the cache is a point where reads and other calls go on: an append is
suspended while a page is stored, a read while a page is fetched. The cache takes a page at some moment before it
answers, and it may answer with an error whether or not it took the page. Once `close` was called every turn of a loop
throws before it looks at a byte, so that what `close` erases later is left out; so are spans of the baseline and ropes
of spans (`span.source` other than `"edit"`) and the abort signal.
-/

namespace Cantrip.Nbt

open Lib List Option Function

namespace EditData

/-- An append: `working` holds the page at `position` with `used` bytes, of which the last come from `snapshot`. -/
structure Append where
  snapshot : Bytes
  working : Bytes
  used : Nat
  position : Nat
  at_ : Nat
  offset : Nat
  deriving DecidableEq, Repr

inductive ReadPhase
  /-- Suspended in `cache.get`. -/
  | fetching
  /-- The cache has looked the page up. -/
  | fetched (page : Option Bytes)
  | done (result : Except NbtError Bytes)

/-- A call of `read`. -/
structure Read where
  span : NbtSpan
  bytes : Bytes
  used : Nat
  phase : ReadPhase
  /-- The appends that had settled when the read was called. -/
  since : Nat

/-- `writing` is the append suspended in `cache.set`, and whether the cache has taken the page. `settled` are the
appends that returned or threw, with what they returned. -/
structure State where
  pending : Bytes := zeros NBT_PAGE_BYTES
  pendingLength : Nat := 0
  length : Nat := 0
  closed : Bool := false
  cache : Nat → Option Bytes := fun _ => none
  queue : List Bytes := []
  writing : Option (Append × Bool) := none
  settled : List (Bytes × Except NbtError NbtSpan) := []
  reads : List Read := []

def closedError : NbtError := ⟨0, "NBT edit bytes are closed"⟩

/-! ## Appends -/

def settle (s : State) (snapshot : Bytes) (result : Except NbtError NbtSpan) : State :=
  { s with writing := none, settled := s.settled ++ [(snapshot, result)] }

/-- What follows the loop of `append`. -/
def commit (s : State) (w : Append) : State :=
  if s.closed then settle s w.snapshot (.error closedError)
  else
    settle { s with
      pending := overwrite (zeros s.pending.length) 0 (w.working.take w.used)
      pendingLength := w.used
      length := s.length + w.snapshot.length } w.snapshot (.ok ⟨w.offset, w.snapshot.length⟩)

/-- The loop of `append`, up to the next `cache.set`; every turn takes a byte at least. -/
def appendLoop (s : State) : Nat → Append → State
  | 0, w => commit s w
  | fuel + 1, w =>
    if w.at_ < w.snapshot.length then
      let count := min (NBT_PAGE_BYTES - w.used) (w.snapshot.length - w.at_)
      let w := { w with
        working := overwrite w.working w.used (slice w.snapshot w.at_ count)
        used := w.used + count
        at_ := w.at_ + count }
      if w.used = NBT_PAGE_BYTES then { s with writing := some (w, false) } else appendLoop s fuel w
    else commit s w

/-- The turn of an append has come. -/
def begin (s : State) (snapshot : Bytes) : State :=
  if s.closed then settle s snapshot (.error closedError)
  else
    match assertRange s.length snapshot.length with
    | .error e => settle s snapshot (.error e)
    | .ok () =>
      appendLoop s snapshot.length ⟨snapshot, s.pending, s.pendingLength, s.length - s.pendingLength, 0, s.length⟩

def stored (s : State) (w : Append) : State :=
  if s.closed then settle s w.snapshot (.error closedError)
  else
    appendLoop s (w.snapshot.length - w.at_)
      { w with working := zeros w.working.length, used := 0, position := w.position + NBT_PAGE_BYTES }

/-- The loop of `read`, up to the next `cache.get`; every turn reads a byte at least. -/
def readLoop (s : State) : Nat → Read → Read
  | 0, r => { r with phase := .done (.ok r.bytes) }
  | fuel + 1, r =>
    if r.used < r.bytes.length then
      if s.closed then { r with phase := .done (.error closedError) }
      else
        let position := r.span.offset + r.used
        let pageOffset := position % NBT_PAGE_BYTES
        let count := min (r.bytes.length - r.used) (NBT_PAGE_BYTES - pageOffset)
        if s.length - s.pendingLength ≤ position then
          readLoop s fuel { r with
            bytes := overwrite r.bytes r.used (slice s.pending pageOffset count), used := r.used + count }
        else { r with phase := .fetching }
    else { r with phase := .done (.ok r.bytes) }

/-- A call of `read`, up to its first await. -/
def read (s : State) (span : NbtSpan) : Read :=
  let refuse (e : NbtError) : Read := ⟨span, [], 0, .done (.error e), s.settled.length⟩
  if s.closed then refuse closedError
  else
    match assertRange span.offset span.length with
    | .error e => refuse e
    | .ok () =>
      if 256 * 1024 < span.length then refuse ⟨0, "Edit byte reads require bounded pages"⟩
      else if s.length < span.offset + span.length then refuse ⟨0, "Edit span is unavailable"⟩
      else readLoop s span.length ⟨span, zeros span.length, 0, .fetching, s.settled.length⟩

/-- The read goes on with what the cache answered. -/
def resume (s : State) (r : Read) (page : Option Bytes) : Read :=
  let position := r.span.offset + r.used
  match page with
  | none => { r with phase := .done (.error ⟨position, "Edited byte page is unavailable"⟩) }
  | some page =>
    if page.length ≠ NBT_PAGE_BYTES then
      { r with phase := .done (.error ⟨position, "Edited byte page is incomplete"⟩) }
    else
      let pageOffset := position % NBT_PAGE_BYTES
      let count := min (r.bytes.length - r.used) (NBT_PAGE_BYTES - pageOffset)
      readLoop s (r.bytes.length - (r.used + count))
        { r with bytes := overwrite r.bytes r.used (slice page pageOffset count), used := r.used + count }

inductive Action
  | append (bytes : Bytes)
  /-- The next append starts. -/
  | begin
  /-- The cache takes the page that is being stored. -/
  | store
  /-- `cache.set` returns. -/
  | resolve
  /-- `cache.set` throws. -/
  | reject (error : NbtError)
  | close
  | read (span : NbtSpan)
  /-- The cache looks up the page of a read. -/
  | fetch (read : Nat)
  /-- `cache.get` returns. -/
  | resume (read : Nat)

def step (s : State) : Action → Option State
  | .append bytes => some { s with queue := s.queue ++ [bytes] }
  | .begin =>
    match s.writing, s.queue with
    | none, snapshot :: rest => some (begin { s with queue := rest } snapshot)
    | _, _ => none
  | .store =>
    s.writing.map fun w =>
      { s with cache := Function.update s.cache (w.1.position / NBT_PAGE_BYTES) (some w.1.working), writing := some (w.1, true) }
  | .resolve =>
    match s.writing with
    | some (w, true) => some (stored s w)
    | _ => none
  | .reject e => s.writing.map fun w => settle s w.1.snapshot (.error e)
  | .close => some { s with closed := true }
  | .read span => some { s with reads := s.reads ++ [read s span] }
  | .fetch i =>
    match s.reads[i]? with
    | some r =>
      match r.phase with
      | .fetching =>
        let page := s.cache ((r.span.offset + r.used) / NBT_PAGE_BYTES)
        some { s with reads := s.reads.set i { r with phase := .fetched page } }
      | _ => none
    | none => none
  | .resume i =>
    match s.reads[i]? with
    | some r =>
      match r.phase with
      | .fetched page => some { s with reads := s.reads.set i (resume s r page) }
      | _ => none
    | none => none

/-- The states that calls and answers of the cache can lead to, in any order. -/
inductive Reachable : State → Prop
  | start : Reachable {}
  | step {s t : State} (a : Action) (h : Reachable s) (hstep : step s a = some t) : Reachable t

/-! ## The invariant -/

/-- The bytes of an append that succeeded. -/
def committedBytes (settled : List (Bytes × Except NbtError NbtSpan)) : Bytes :=
  settled.flatMap fun r => match r.2 with
    | .ok _ => r.1
    | .error _ => []

/-- The edit bytes: those of all appends that succeeded. -/
def State.committed (s : State) : Bytes := committedBytes s.settled

/-- Where the partial page starts. -/
def State.base (s : State) : Nat := s.length - s.pendingLength

def SpansOk (settled : List (Bytes × Except NbtError NbtSpan)) : Prop :=
  ∀ before bytes span, before ++ [(bytes, .ok span)] <+: settled → span = ⟨(committedBytes before).length, bytes.length⟩

/-- An append under way, with the page it fills next: `bytes` are the edit bytes if it succeeds. -/
structure Filling (s : State) (w : Append) : Prop where
  offset : w.offset = s.length
  safe : s.length + w.snapshot.length ≤ maxSafeInteger
  buffer : w.working.length = NBT_PAGE_BYTES
  used : w.used ≤ NBT_PAGE_BYTES
  aligned : w.position % NBT_PAGE_BYTES = 0
  base : s.base ≤ w.position
  filled : w.position + w.used = s.length + w.at_
  at_ : w.at_ ≤ w.snapshot.length
  working : w.working.take w.used = slice (s.committed ++ w.snapshot) w.position w.used
  written : ∀ p, s.base ≤ p * NBT_PAGE_BYTES → p * NBT_PAGE_BYTES + NBT_PAGE_BYTES ≤ w.position →
    s.cache p = some (pageAt NBT_PAGE_BYTES (s.committed ++ w.snapshot) p)

/-- A read that is not over: what it has is what the edit bytes hold, and the next page is a full one. -/
structure Reading (s : State) (r : Read) : Prop where
  size : r.bytes.length = r.span.length
  used : r.used ≤ r.span.length
  inside : r.span.offset + r.span.length ≤ s.committed.length
  read : r.bytes.take r.used = slice s.committed r.span.offset r.used

structure Fetching (s : State) (r : Read) : Prop extends Reading s r where
  more : r.used < r.span.length
  full : (r.span.offset + r.used) / NBT_PAGE_BYTES * NBT_PAGE_BYTES + NBT_PAGE_BYTES ≤ s.base

/-- The span asks for what no append that had settled before the read returned, or for too much at once. -/
def Unavailable (s : State) (r : Read) : Prop :=
  256 * 1024 < r.span.length ∨ maxSafeInteger < r.span.offset + r.span.length ∨
    (committedBytes (s.settled.take r.since)).length < r.span.offset + r.span.length

def ReadOk (s : State) (r : Read) : Prop :=
  match r.phase with
  | .fetching => Fetching s r
  | .fetched p => Fetching s r ∧ p = some (pageAt NBT_PAGE_BYTES s.committed ((r.span.offset + r.used) / NBT_PAGE_BYTES))
  | .done (.ok bytes) => r.span.offset + r.span.length ≤ s.committed.length ∧
      bytes = slice s.committed r.span.offset r.span.length
  | .done (.error _) => s.closed = true ∨ Unavailable s r

structure Inv (s : State) : Prop where
  length : s.committed.length = s.length
  safe : s.length ≤ maxSafeInteger
  buffer : s.pending.length = NBT_PAGE_BYTES
  short : s.pendingLength < NBT_PAGE_BYTES
  pendingLength : s.pendingLength ≤ s.length
  aligned : s.base % NBT_PAGE_BYTES = 0
  tail : s.pending.take s.pendingLength = slice s.committed s.base s.pendingLength
  pages : ∀ p, p * NBT_PAGE_BYTES + NBT_PAGE_BYTES ≤ s.base → s.cache p = some (pageAt NBT_PAGE_BYTES s.committed p)
  writing : ∀ w taken, s.writing = some (w, taken) → Filling s w ∧ w.used = NBT_PAGE_BYTES ∧
    (taken = true → s.cache (w.position / NBT_PAGE_BYTES) = some w.working)
  reads : ∀ r ∈ s.reads, r.since ≤ s.settled.length ∧ ReadOk s r
  spans : SpansOk s.settled

/-! ## What appends keep -/

/-- Edit bytes only grow, full pages stay full and settled appends stay settled. -/
structure Later (s t : State) : Prop where
  committed : s.committed <+: t.committed
  settled : s.settled <+: t.settled
  base : s.base ≤ t.base
  closed : s.closed = true → t.closed = true

theorem slice_of_prefix_le {a b : Bytes} (h : a <+: b) {offset length : Nat} (hle : offset + length ≤ a.length) :
    slice b offset length = slice a offset length := by
  obtain ⟨more, rfl⟩ := h
  exact slice_append_of_le hle

variable {w : Append} {i : Nat} {r : Read} {s t : State}

theorem Fetching.later (hs : s.committed.length = s.length) (h : Later s t) (hr : Fetching s r) : Fetching t r := by
  have hinside := hr.inside
  have hmore := hr.more
  refine ⟨⟨hr.size, hr.used, hinside.trans h.committed.length_le, ?_⟩, hr.more, hr.full.trans h.base⟩
  rw [hr.read, slice_of_prefix_le h.committed (by omega)]

theorem ReadOk.later (hs : s.committed.length = s.length) (hsince : r.since ≤ s.settled.length)
    (h : Later s t) (hr : ReadOk s r) : ReadOk t r := by
  unfold ReadOk at hr ⊢
  match hphase : r.phase with
  | .fetching =>
    rw [hphase] at hr
    exact hr.later hs h
  | .fetched p =>
    rw [hphase] at hr
    obtain ⟨hfetch, rfl⟩ := hr
    have hfull := hfetch.full
    refine ⟨hfetch.later hs h, ?_⟩
    rw [pageAt, pageAt, slice_of_prefix_le h.committed]
    rw [hs]
    exact hfull.trans (Nat.sub_le _ _)
  | .done (.ok bytes) =>
    rw [hphase] at hr
    obtain ⟨hinside, rfl⟩ := hr
    exact ⟨hinside.trans h.committed.length_le, (slice_of_prefix_le h.committed hinside).symm⟩
  | .done (.error e) =>
    rw [hphase] at hr
    rcases hr with hclosed | hlong | hunsafe | hbeyond
    · exact .inl (h.closed hclosed)
    · exact .inr (.inl hlong)
    · exact .inr (.inr (.inl hunsafe))
    · obtain ⟨more, hmore⟩ := h.settled
      refine .inr (.inr (.inr ?_))
      rw [← hmore, take_append_of_le_length hsince]
      exact hbeyond

/-- States that differ in what is suspended only. -/
structure Same (s t : State) : Prop where
  pending : t.pending = s.pending
  pendingLength : t.pendingLength = s.pendingLength
  length : t.length = s.length
  closed : t.closed = s.closed
  cache : t.cache = s.cache
  settled : t.settled = s.settled

theorem Same.committed (h : Same s t) : t.committed = s.committed := by
  rw [State.committed, h.settled]
  rfl

theorem Same.base (h : Same s t) : t.base = s.base := by
  rw [State.base, h.length, h.pendingLength]
  rfl

theorem Same.later (h : Same s t) : Later s t :=
  ⟨by rw [h.committed], by rw [h.settled], by rw [h.base], by rw [h.closed]; exact id⟩

theorem Filling.same (hw : Filling s w) (h : Same s t) : Filling t w := by
  refine ⟨?_, ?_, hw.buffer, hw.used, hw.aligned, ?_, ?_, hw.at_, ?_, ?_⟩
  · rw [h.length]
    exact hw.offset
  · rw [h.length]
    exact hw.safe
  · rw [h.base]
    exact hw.base
  · rw [h.length]
    exact hw.filled
  · rw [h.committed]
    exact hw.working
  · rw [h.base, h.committed, h.cache]
    exact hw.written

theorem Inv.same (h : Inv s) (hst : Same s t)
    (hwriting : ∀ w taken, t.writing = some (w, taken) → Filling s w ∧ w.used = NBT_PAGE_BYTES ∧
      (taken = true → s.cache (w.position / NBT_PAGE_BYTES) = some w.working))
    (hreads : ∀ r ∈ t.reads, r.since ≤ s.settled.length ∧ ReadOk s r) : Inv t := by
  refine ⟨?_, ?_, ?_, ?_, ?_, ?_, ?_, ?_, ?_, ?_, ?_⟩
  · rw [hst.committed, hst.length]
    exact h.length
  · rw [hst.length]
    exact h.safe
  · rw [hst.pending]
    exact h.buffer
  · rw [hst.pendingLength]
    exact h.short
  · rw [hst.pendingLength, hst.length]
    exact h.pendingLength
  · rw [hst.base]
    exact h.aligned
  · rw [hst.pending, hst.pendingLength, hst.committed, hst.base]
    exact h.tail
  · rw [hst.base, hst.cache, hst.committed]
    exact h.pages
  · intro w taken hw
    obtain ⟨hfilling, hused, htaken⟩ := hwriting w taken hw
    rw [hst.cache]
    exact ⟨hfilling.same hst, hused, htaken⟩
  · intro r hr
    obtain ⟨hsince, hok⟩ := hreads r hr
    rw [hst.settled]
    exact ⟨hsince, hok.later h.length hsince hst.later⟩
  · rw [hst.settled]
    exact h.spans

theorem committedBytes_append (a b : List (Bytes × Except NbtError NbtSpan)) :
    committedBytes (a ++ b) = committedBytes a ++ committedBytes b := flatMap_append

theorem reads_later (h : Inv s) (hst : Later s t) (hreads : t.reads = s.reads) :
    ∀ r ∈ t.reads, r.since ≤ t.settled.length ∧ ReadOk t r := by
  intro r hr
  rw [hreads] at hr
  obtain ⟨hsince, hok⟩ := h.reads r hr
  exact ⟨hsince.trans hst.settled.length_le, hok.later h.length hsince hst⟩

theorem SpansOk.settle {settled : List (Bytes × Except NbtError NbtSpan)} (h : SpansOk settled) {snapshot : Bytes}
    {result : Except NbtError NbtSpan}
    (hresult : ∀ span, result = .ok span → span = ⟨(committedBytes settled).length, snapshot.length⟩) :
    SpansOk (settled ++ [(snapshot, result)]) := by
  intro before bytes span hprefix
  rcases prefix_concat_iff.mp hprefix with heq | hold
  · obtain ⟨rfl, hlast⟩ := append_inj' heq rfl
    obtain ⟨rfl, rfl⟩ := Prod.mk.inj (singleton_inj.mp hlast)
    exact hresult span rfl
  · exact h before bytes span hold

theorem settle_error_inv (h : Inv s) (snapshot : Bytes) (e : NbtError) : Inv (settle s snapshot (.error e)) := by
  have hcommitted : (settle s snapshot (.error e)).committed = s.committed := by
    simp only [State.committed, settle, committedBytes_append]
    exact append_nil _
  have hlater : Later s (settle s snapshot (.error e)) :=
    ⟨by rw [hcommitted], prefix_append _ _, le_rfl, id⟩
  refine ⟨?_, h.safe, h.buffer, h.short, h.pendingLength, h.aligned, ?_, ?_, ?_, reads_later h hlater rfl,
    h.spans.settle fun span hspan => nomatch hspan⟩
  · rw [hcommitted]
    exact h.length
  · rw [hcommitted]
    exact h.tail
  · rw [hcommitted]
    exact h.pages
  · rintro w taken ⟨⟩

theorem commit_inv (h : Inv s) (hw : Filling s w) (hused : w.used < NBT_PAGE_BYTES)
    (hall : w.at_ = w.snapshot.length) : Inv (commit s w) := by
  unfold commit
  split
  · exact settle_error_inv h _ _
  · set t := settle { s with
      pending := overwrite (zeros s.pending.length) 0 (w.working.take w.used)
      pendingLength := w.used
      length := s.length + w.snapshot.length } w.snapshot (.ok ⟨w.offset, w.snapshot.length⟩) with ht
    have hcommitted : t.committed = s.committed ++ w.snapshot := by
      simp only [ht, State.committed, settle, committedBytes_append]
      exact congrArg _ (append_nil _)
    have hfilled := hw.filled
    have hbase : t.base = w.position := by
      simp only [ht, State.base, settle]
      omega
    have htake : (w.working.take w.used).length = w.used := by
      rw [length_take, hw.buffer, Nat.min_eq_left hw.used]
    have hlater : Later s t := by
      refine ⟨by rw [hcommitted]; exact prefix_append _ _, prefix_append _ _, ?_, id⟩
      rw [hbase]
      exact hw.base
    refine ⟨?_, ?_, ?_, hused, ?_, ?_, ?_, ?_, ?_, reads_later h hlater rfl, h.spans.settle ?_⟩
    · rw [hcommitted, length_append, h.length]
      rfl
    · exact hw.safe
    · have hlen : 0 + (w.working.take w.used).length ≤ (zeros s.pending.length).length := by
        rw [htake, zeros_length, h.buffer, Nat.zero_add]
        exact hw.used
      rw [show t.pending = overwrite (zeros s.pending.length) 0 (w.working.take w.used) from rfl, overwrite_length hlen,
        zeros_length, h.buffer]
    · simp only [ht, settle]
      omega
    · rw [hbase]
      exact hw.aligned
    · have htail := @overwrite_take (zeros s.pending.length) (w.working.take w.used) 0 (Nat.zero_le _)
      rw [htake, Nat.zero_add, take_zero, nil_append] at htail
      rw [hcommitted, hbase, show t.pendingLength = w.used from rfl, ← hw.working]
      exact htail
    · intro p hp
      rw [hbase] at hp
      rw [hcommitted]
      by_cases hold : p * NBT_PAGE_BYTES + NBT_PAGE_BYTES ≤ s.base
      · have hinside : p * NBT_PAGE_BYTES + NBT_PAGE_BYTES ≤ s.committed.length := by
          rw [h.length]
          exact hold.trans (Nat.sub_le _ _)
        rw [pageAt, slice_append_of_le hinside]
        exact h.pages p hold
      · have haligned := h.aligned
        refine hw.written p ?_ hp
        simp only [NBT_PAGE_BYTES] at hold haligned ⊢
        omega
    · rintro w taken ⟨⟩
    · rintro span ⟨⟩
      rw [hw.offset, ← h.length]
      rfl

/-- One turn of the loop of an append. -/
def Append.fill (w : Append) (count : Nat) : Append :=
  { w with
    working := overwrite w.working w.used (slice w.snapshot w.at_ count), used := w.used + count, at_ := w.at_ + count }

theorem Filling.fill {s : State} (h : Inv s) {w : Append} (hw : Filling s w) {count : Nat}
    (hroom : w.used + count ≤ NBT_PAGE_BYTES) (hmore : w.at_ + count ≤ w.snapshot.length) : Filling s (w.fill count) := by
  have hpart : (slice w.snapshot w.at_ count).length = count := slice_length _ hmore
  have hfit : w.used + (slice w.snapshot w.at_ count).length ≤ w.working.length := by
    rw [hpart, hw.buffer]
    exact hroom
  have hfilled := hw.filled
  refine ⟨hw.offset, hw.safe, ?_, hroom, hw.aligned, hw.base, ?_, hmore, ?_, hw.written⟩
  · rw [Append.fill, overwrite_length hfit, hw.buffer]
  · simp only [Append.fill]
    omega
  · have htake := @overwrite_take w.working (slice w.snapshot w.at_ count) w.used (by omega)
    rw [hpart, hw.working] at htake
    simp only [Append.fill, htake]
    rw [← slice_append_slice, hfilled, ← h.length, slice_append_right]

theorem appendLoop_inv (h : Inv s) (fuel : Nat) (w : Append) (hw : Filling s w)
    (hused : w.used < NBT_PAGE_BYTES) (hfuel : w.snapshot.length - w.at_ ≤ fuel) : Inv (appendLoop s fuel w) := by
  induction fuel generalizing w with
  | zero =>
    have hat := hw.at_
    exact commit_inv h hw hused (by omega)
  | succ fuel ih =>
    have hat := hw.at_
    rw [appendLoop]
    by_cases hmore : w.at_ < w.snapshot.length
    · rw [if_pos hmore]
      set count := min (NBT_PAGE_BYTES - w.used) (w.snapshot.length - w.at_) with hcount
      have hfill : Filling s (w.fill count) := hw.fill h (by omega) (by omega)
      by_cases hfull : w.used + count = NBT_PAGE_BYTES
      · refine (if_pos hfull).symm ▸ ?_
        refine h.same ⟨rfl, rfl, rfl, rfl, rfl, rfl⟩ ?_ h.reads
        rintro w' taken ⟨⟩
        exact ⟨hfill, hfull, fun htaken => nomatch htaken⟩
      · refine (if_neg hfull).symm ▸ ?_
        exact ih (w.fill count) hfill (lt_of_le_of_ne (by simp only [Append.fill]; omega) hfull)
          (by simp only [Append.fill]; omega)
    · rw [if_neg hmore]
      exact commit_inv h hw hused (by omega)

theorem begin_inv (h : Inv s) (snapshot : Bytes) : Inv (begin s snapshot) := by
  unfold begin
  split_ifs with hclosed
  · exact settle_error_inv h _ _
  · split
    · exact settle_error_inv h _ _
    · next hrange =>
      have hsafe : s.length + snapshot.length ≤ maxSafeInteger := by
        unfold assertRange at hrange
        split_ifs at hrange with hle
        exact hle
      have hbase := Nat.sub_add_cancel h.pendingLength
      refine appendLoop_inv h _ _ ⟨rfl, hsafe, h.buffer, h.short.le, h.aligned, le_rfl, ?_, Nat.zero_le _, ?_, ?_⟩
        h.short (Nat.sub_le _ _)
      · exact hbase
      · rw [slice_append_of_le]
        · exact h.tail
        · rw [h.length, hbase]
      · intro p hlow hhigh
        have hbefore : p * NBT_PAGE_BYTES + NBT_PAGE_BYTES ≤ s.base := hhigh
        simp only [NBT_PAGE_BYTES] at hlow hbefore
        omega

theorem stored_inv (h : Inv s) (hw : Filling s w) (hused : w.used = NBT_PAGE_BYTES)
    (htaken : s.cache (w.position / NBT_PAGE_BYTES) = some w.working) : Inv (stored s w) := by
  unfold stored
  split_ifs with hclosed
  · exact settle_error_inv h _ _
  · have hfilled := hw.filled
    have haligned := hw.aligned
    have hworking : w.working = slice (s.committed ++ w.snapshot) w.position NBT_PAGE_BYTES := by
      rw [← hused, ← hw.working, take_of_length_le]
      rw [hw.buffer, hused]
    refine appendLoop_inv h _ _ ⟨hw.offset, hw.safe, ?_, Nat.zero_le _, ?_, ?_, ?_, hw.at_, ?_, ?_⟩
      (show 0 < NBT_PAGE_BYTES by decide) le_rfl
    · rw [zeros_length, hw.buffer]
    · rw [Nat.add_mod_right]
      exact haligned
    · exact hw.base.trans (Nat.le_add_right _ _)
    · simp only
      omega
    · rw [take_zero, slice_zero]
    · intro p hlow hhigh
      simp only at hhigh
      by_cases hnew : p * NBT_PAGE_BYTES + NBT_PAGE_BYTES ≤ w.position
      · exact hw.written p hlow hnew
      · have hp : w.position = p * NBT_PAGE_BYTES := by
          simp only [NBT_PAGE_BYTES] at haligned hhigh hnew ⊢
          omega
        have hdiv : w.position / NBT_PAGE_BYTES = p := by
          rw [hp, Nat.mul_div_cancel _ (by decide)]
        rw [hdiv] at htaken
        rw [htaken, hworking, pageAt, hp]

/-! ## What reads keep -/

theorem Reading.read_part (hr : Reading s r) {part : Bytes} {count : Nat}
    (hcount : r.used + count ≤ r.span.length) (hpart : part = slice s.committed (r.span.offset + r.used) count) :
    Reading s { r with bytes := overwrite r.bytes r.used part, used := r.used + count } := by
  have hinside := hr.inside
  have hlen : part.length = count := by
    rw [hpart]
    exact slice_length _ (by omega)
  have hsize := hr.size
  refine ⟨?_, hcount, hinside, ?_⟩
  · rw [overwrite_length (by omega)]
    exact hsize
  · have htake := @overwrite_take r.bytes part r.used (by omega)
    rw [hlen, hr.read] at htake
    refine htake.trans ?_
    rw [hpart]
    exact slice_append_slice _ _ _ _

theorem Reading.done (hr : Reading s r) (hall : ¬r.used < r.bytes.length) :
    r.bytes = slice s.committed r.span.offset r.span.length := by
  have hused := hr.used
  have hsize := hr.size
  have hread := hr.read
  rw [take_of_length_le (by omega), show r.used = r.span.length by omega] at hread
  exact hread

theorem pending_slice (h : Inv s) {position count : Nat} (hbase : s.base ≤ position)
    (hend : position + count ≤ s.length) (hlt : position < s.length) :
    slice s.pending (position % NBT_PAGE_BYTES) count = slice s.committed position count := by
  have haligned := h.aligned
  have hshort := h.short
  have hsum := Nat.sub_add_cancel h.pendingLength
  have hoffset : position % NBT_PAGE_BYTES = position - s.base := by
    simp only [State.base, NBT_PAGE_BYTES] at haligned hshort hbase hsum ⊢
    omega
  have hfits : position - s.base + count ≤ s.pendingLength := by
    simp only [State.base] at hbase ⊢
    omega
  rw [hoffset, ← slice_take s.pending hfits, h.tail, slice_slice _ _ _ _ _ hfits, Nat.add_sub_cancel' hbase]

theorem readLoop_ok (h : Inv s) (fuel : Nat) (r : Read) (hr : Reading s r)
    (hfuel : r.bytes.length - r.used ≤ fuel) : (readLoop s fuel r).since = r.since ∧ ReadOk s (readLoop s fuel r) := by
  induction fuel generalizing r with
  | zero => exact ⟨rfl, hr.inside, hr.done (by omega)⟩
  | succ fuel ih =>
    rw [readLoop]
    by_cases hmore : r.used < r.bytes.length
    · rw [if_pos hmore]
      by_cases hclosed : s.closed = true
      · rw [if_pos hclosed]
        exact ⟨rfl, .inl hclosed⟩
      · rw [if_neg hclosed]
        have hsize := hr.size
        have hinside := hr.inside
        rw [h.length] at hinside
        set position := r.span.offset + r.used with hposition
        set count := min (r.bytes.length - r.used) (NBT_PAGE_BYTES - position % NBT_PAGE_BYTES) with hcount
        have hpos : 0 < count := by
          have := Nat.mod_lt position (show 0 < NBT_PAGE_BYTES by decide)
          omega
        by_cases htail : s.length - s.pendingLength ≤ position
        · refine (if_pos htail).symm ▸ ?_
          refine ih _ (hr.read_part (by omega) (pending_slice h htail (by omega) (by omega))) ?_
          have hpart : (slice s.pending (position % NBT_PAGE_BYTES) count).length = count := by
            rw [pending_slice h htail (by omega) (by omega)]
            exact slice_length _ (by rw [h.length]; omega)
          have hfits : r.used + (slice s.pending (position % NBT_PAGE_BYTES) count).length ≤ r.bytes.length := by
            rw [hpart]
            omega
          rw [overwrite_length hfits]
          simp only
          omega
        · refine (if_neg htail).symm ▸ ?_
          refine ⟨rfl, ⟨hr.size, hr.used, hr.inside, hr.read⟩, by rw [← hsize]; exact hmore, ?_⟩
          have haligned := h.aligned
          simp only [State.base, NBT_PAGE_BYTES] at haligned htail ⊢
          omega
    · rw [if_neg hmore]
      exact ⟨rfl, hr.inside, hr.done hmore⟩

theorem read_ok (h : Inv s) (span : NbtSpan) : (read s span).since = s.settled.length ∧ ReadOk s (read s span) := by
  unfold read
  by_cases hclosed : s.closed = true
  · rw [if_pos hclosed]
    exact ⟨rfl, .inl hclosed⟩
  · rw [if_neg hclosed]
    by_cases hsafe : span.offset + span.length ≤ maxSafeInteger
    · rw [assertRange_ok hsafe]
      dsimp only
      by_cases hlong : 256 * 1024 < span.length
      · rw [if_pos hlong]
        exact ⟨rfl, .inr (.inl hlong)⟩
      · rw [if_neg hlong]
        by_cases hbeyond : s.length < span.offset + span.length
        · rw [if_pos hbeyond]
          refine ⟨rfl, .inr (.inr (.inr ?_))⟩
          rw [take_length, show (committedBytes s.settled).length = s.length from h.length]
          exact hbeyond
        · rw [if_neg hbeyond]
          refine readLoop_ok h _ _ ⟨zeros_length _, Nat.zero_le _, ?_, ?_⟩ ?_
          · rw [h.length]
            exact not_lt.mp hbeyond
          · rw [take_zero, slice_zero]
          · rw [zeros_length]
            exact Nat.sub_le _ _
    · rw [assertRange, if_neg hsafe]
      exact ⟨rfl, .inr (.inr (.inl (not_le.mp hsafe)))⟩

theorem resume_ok (h : Inv s) (hr : Fetching s r) :
    (resume s r (some (pageAt NBT_PAGE_BYTES s.committed ((r.span.offset + r.used) / NBT_PAGE_BYTES)))).since = r.since ∧
      ReadOk s (resume s r (some (pageAt NBT_PAGE_BYTES s.committed ((r.span.offset + r.used) / NBT_PAGE_BYTES)))) := by
  have hsize := hr.size
  have hmore := hr.more
  have hinside := hr.inside
  set position := r.span.offset + r.used with hposition
  have hmod := Nat.mod_lt position (show 0 < NBT_PAGE_BYTES by decide)
  have hlen : (pageAt NBT_PAGE_BYTES s.committed (position / NBT_PAGE_BYTES)).length = NBT_PAGE_BYTES := by
    refine slice_length _ ?_
    rw [h.length]
    exact hr.full.trans (Nat.sub_le _ _)
  simp only [resume, ← hposition, hlen, ne_eq, not_true_eq_false, if_false]
  set count := min (r.bytes.length - r.used) (NBT_PAGE_BYTES - position % NBT_PAGE_BYTES) with hcount
  have hpart : slice (pageAt NBT_PAGE_BYTES s.committed (position / NBT_PAGE_BYTES)) (position % NBT_PAGE_BYTES) count
      = slice s.committed position count := slice_pageAt _ (by omega)
  refine readLoop_ok h _ _ (hr.toReading.read_part (by omega) hpart) ?_
  rw [hpart, overwrite_length]
  rw [slice_length _ (by omega)]
  omega

theorem inv_start : Inv {} := by
  refine ⟨rfl, by decide, zeros_length _, by decide, le_rfl, rfl, rfl, ?_, ?_, by simp, ?_⟩
  · intro p hp
    simp only [State.base, NBT_PAGE_BYTES] at hp
    omega
  · rintro w taken ⟨⟩
  · intro before bytes span hprefix
    simp at hprefix

theorem step_inv {a : Action} (h : Inv s) (hstep : step s a = some t) : Inv t := by
  cases a with
  | append bytes =>
    cases hstep
    exact h.same ⟨rfl, rfl, rfl, rfl, rfl, rfl⟩ h.writing h.reads
  | begin =>
    simp only [step] at hstep
    split at hstep
    · next snapshot rest hidle hqueue =>
      cases hstep
      have hpopped : Inv { s with queue := rest } := h.same ⟨rfl, rfl, rfl, rfl, rfl, rfl⟩ h.writing h.reads
      exact begin_inv hpopped snapshot
    · cases hstep
  | store =>
    obtain ⟨⟨w, taken⟩, hwriting, rfl⟩ := map_eq_some_iff.mp hstep
    obtain ⟨hw, hused, -⟩ := h.writing w taken hwriting
    have hposition := hw.base
    have hother : ∀ p, p * NBT_PAGE_BYTES + NBT_PAGE_BYTES ≤ w.position → p ≠ w.position / NBT_PAGE_BYTES := by
      rintro p hp rfl
      simp only [NBT_PAGE_BYTES] at hp
      omega
    refine ⟨h.length, h.safe, h.buffer, h.short, h.pendingLength, h.aligned, h.tail, ?_, ?_, ?_, h.spans⟩
    · intro p hp
      simp only [update_of_ne (hother p (hp.trans hposition))]
      exact h.pages p hp
    · rintro w' taken' ⟨⟩
      refine ⟨⟨hw.offset, hw.safe, hw.buffer, hw.used, hw.aligned, hw.base, hw.filled, hw.at_, hw.working, ?_⟩, hused,
        fun _ => update_self _ _ _⟩
      intro p hlow hhigh
      simp only [update_of_ne (hother p hhigh)]
      exact hw.written p hlow hhigh
    · intro r hr
      obtain ⟨hsince, hok⟩ := h.reads r hr
      exact ⟨hsince, hok.later h.length hsince ⟨prefix_rfl, prefix_rfl, le_rfl, id⟩⟩
  | resolve =>
    simp only [step] at hstep
    split at hstep
    · next w hwriting =>
      cases hstep
      obtain ⟨hw, hused, htaken⟩ := h.writing w true hwriting
      exact stored_inv h hw hused (htaken rfl)
    · cases hstep
  | reject e =>
    obtain ⟨w, -, rfl⟩ := map_eq_some_iff.mp hstep
    exact settle_error_inv h _ _
  | close =>
    cases hstep
    refine ⟨h.length, h.safe, h.buffer, h.short, h.pendingLength, h.aligned, h.tail, h.pages, ?_, ?_, h.spans⟩
    · intro w taken hwriting
      obtain ⟨hw, hrest⟩ := h.writing w taken hwriting
      exact ⟨⟨hw.offset, hw.safe, hw.buffer, hw.used, hw.aligned, hw.base, hw.filled, hw.at_, hw.working, hw.written⟩, hrest⟩
    · intro r hr
      obtain ⟨hsince, hok⟩ := h.reads r hr
      exact ⟨hsince, hok.later h.length hsince ⟨prefix_rfl, prefix_rfl, le_rfl, fun _ => rfl⟩⟩
  | read span =>
    cases hstep
    refine h.same ⟨rfl, rfl, rfl, rfl, rfl, rfl⟩ h.writing fun r hr => ?_
    rcases mem_append.mp hr with hr | hr
    · exact h.reads r hr
    · obtain rfl := mem_singleton.mp hr
      obtain ⟨hsince, hok⟩ := read_ok h span
      exact ⟨hsince.le, hok⟩
  | fetch i =>
    simp only [step] at hstep
    split at hstep
    · next r hget =>
      split at hstep
      · next hphase =>
        cases hstep
        obtain ⟨hsince, hok⟩ := h.reads r (mem_of_getElem? hget)
        rw [ReadOk, hphase] at hok
        refine h.same ⟨rfl, rfl, rfl, rfl, rfl, rfl⟩ h.writing fun r' hr' => ?_
        rcases mem_or_eq_of_mem_set hr' with hr' | rfl
        · exact h.reads r' hr'
        · exact ⟨hsince, ⟨⟨hok.size, hok.used, hok.inside, hok.read⟩, hok.more, hok.full⟩, h.pages _ hok.full⟩
      · cases hstep
    · cases hstep
  | resume i =>
    simp only [step] at hstep
    split at hstep
    · next r hget =>
      split at hstep
      · next p hphase =>
        cases hstep
        obtain ⟨hsince, hok⟩ := h.reads r (mem_of_getElem? hget)
        rw [ReadOk, hphase] at hok
        obtain ⟨hfetch, rfl⟩ := hok
        refine h.same ⟨rfl, rfl, rfl, rfl, rfl, rfl⟩ h.writing fun r' hr' => ?_
        rcases mem_or_eq_of_mem_set hr' with hr' | rfl
        · exact h.reads r' hr'
        · obtain ⟨hsame, hok'⟩ := resume_ok h hfetch
          exact ⟨hsame.trans_le hsince, hok'⟩
      · cases hstep
    · cases hstep

theorem Reachable.inv (h : Reachable s) : Inv s := by
  induction h with
  | start => exact inv_start
  | step a _ hstep ih => exact step_inv ih hstep

/-! ## Appends return -/

/-- The cache takes the page of the append under way, or tells so. -/
def Stores (s t : State) : Prop := step s .store = some t ∨ step s .resolve = some t

/-- No append is under way. -/
structure State.Rests (s : State) (queue : List Bytes) : Prop where
  opened : s.closed = false
  idle : s.writing = none
  queued : s.queue = queue

theorem appendLoop_cases {s : State} (hopen : s.closed = false) (fuel : Nat) (w : Append) (hused : w.used < NBT_PAGE_BYTES) :
    (appendLoop s fuel w).Rests s.queue ∧
        (appendLoop s fuel w).settled = s.settled ++ [(w.snapshot, .ok ⟨w.offset, w.snapshot.length⟩)] ∨
      ∃ w', appendLoop s fuel w = { s with writing := some (w', false) } ∧ w'.snapshot = w.snapshot ∧
        w'.offset = w.offset ∧ w.at_ < w'.at_ ∧ w'.at_ ≤ w.snapshot.length := by
  have hcommit (w : Append) : (commit s w).Rests s.queue ∧
      (commit s w).settled = s.settled ++ [(w.snapshot, .ok ⟨w.offset, w.snapshot.length⟩)] := by
    rw [commit, hopen]
    exact ⟨⟨rfl, rfl, rfl⟩, rfl⟩
  induction fuel generalizing w with
  | zero => exact .inl (hcommit w)
  | succ fuel ih =>
    rw [appendLoop]
    by_cases hmore : w.at_ < w.snapshot.length
    · rw [if_pos hmore]
      set count := min (NBT_PAGE_BYTES - w.used) (w.snapshot.length - w.at_) with hcount
      by_cases hfull : w.used + count = NBT_PAGE_BYTES
      · refine (if_pos hfull).symm ▸ .inr ⟨_, rfl, rfl, rfl, ?_, ?_⟩
        · simp only
          omega
        · simp only
          omega
      · refine (if_neg hfull).symm ▸ ?_
        rcases ih (w.fill count) (lt_of_le_of_ne (by simp only [Append.fill]; omega) hfull) with hdone | hwait
        · exact .inl hdone
        · obtain ⟨w', hloop, hsnapshot, hoffset, hat, hend⟩ := hwait
          exact .inr ⟨w', hloop, hsnapshot, hoffset, (Nat.le_add_right _ _).trans_lt hat, hend⟩
    · rw [if_neg hmore]
      exact .inl (hcommit w)

theorem append_returns {s : State} {w : Append} {taken : Bool} (hopen : s.closed = false)
    (hwriting : s.writing = some (w, taken)) :
    ∃ t, Relation.ReflTransGen Stores s t ∧ t.Rests s.queue ∧
      t.settled = s.settled ++ [(w.snapshot, .ok ⟨w.offset, w.snapshot.length⟩)] := by
  generalize hleft : w.snapshot.length - w.at_ = left
  induction left using Nat.strong_induction_on generalizing s w taken with
  | _ left ih =>
    -- The page is taken (once more), and the append goes on.
    obtain ⟨t, hstore, htaken, hsame⟩ : ∃ t, Stores s t ∧ t.writing = some (w, true) ∧
        t.closed = false ∧ t.queue = s.queue ∧ t.settled = s.settled := by
      refine ⟨{ s with
        cache := update s.cache (w.position / NBT_PAGE_BYTES) (some w.working), writing := some (w, true) },
        .inl ?_, rfl, hopen, rfl, rfl⟩
      rw [step, hwriting]
      rfl
    obtain ⟨hopen', hqueue, hsettled⟩ := hsame
    have hresolve : Stores t (stored t w) := by
      refine .inr ?_
      rw [step, htaken]
    have hgoes : stored t w = appendLoop t (w.snapshot.length - w.at_)
        { w with working := zeros w.working.length, used := 0, position := w.position + NBT_PAGE_BYTES } := by
      rw [stored, hopen']
      rfl
    have hsteps : Relation.ReflTransGen Stores s (stored t w) :=
      (Relation.ReflTransGen.single hstore).tail hresolve
    rw [hgoes] at hsteps
    rcases appendLoop_cases hopen' (w.snapshot.length - w.at_)
      { w with working := zeros w.working.length, used := 0, position := w.position + NBT_PAGE_BYTES }
      (show 0 < NBT_PAGE_BYTES by decide) with hdone | hwait
    · obtain ⟨hrests, hdone⟩ := hdone
      refine ⟨_, hsteps, hqueue ▸ hrests, ?_⟩
      rw [hdone, hsettled]
    · obtain ⟨w', hloop, hsnapshot, hoffset, hat, hend⟩ := hwait
      rw [hloop] at hsteps
      simp only at hsnapshot hoffset hat hend
      obtain ⟨u, hrest, hrests, hlast⟩ := @ih (w'.snapshot.length - w'.at_) (by rw [hsnapshot]; omega)
        { t with writing := some (w', false) } w' false hopen' rfl rfl
      refine ⟨u, hsteps.trans hrest, hqueue ▸ hrests, ?_⟩
      rw [hlast, hsnapshot, hoffset]
      simp only [hsettled]

theorem Reachable.stores (h : Reachable s) (hsteps : Relation.ReflTransGen Stores s t) : Reachable t := by
  induction hsteps with
  | refl => exact h
  | tail _ hstep ih => exact hstep.elim (.step _ ih) (.step _ ih)

theorem Reachable.append_begins {s : State} (h : Reachable s) (hrests : s.Rests []) {bytes : Bytes}
    (hsafe : s.length + bytes.length ≤ maxSafeInteger) : Reachable (appendLoop s bytes.length
      ⟨bytes, s.pending, s.pendingLength, s.length - s.pendingLength, 0, s.length⟩) := by
  cases s
  cases hrests.opened
  cases hrests.idle
  cases hrests.queued
  refine .step .begin (.step (.append bytes) h rfl) ?_
  simp only [EditData.step, begin, Bool.false_eq_true, if_false, assertRange_ok hsafe, nil_append]

theorem Reachable.append_returns {s : State} (h : Reachable s) (hrests : s.Rests []) {bytes : Bytes}
    (hsafe : s.length + bytes.length ≤ maxSafeInteger) :
    ∃ t, Reachable t ∧ t.Rests [] ∧ t.settled = s.settled ++ [(bytes, .ok ⟨s.length, bytes.length⟩)] := by
  have hbegun := h.append_begins hrests hsafe
  rcases appendLoop_cases hrests.opened bytes.length
    ⟨bytes, s.pending, s.pendingLength, s.length - s.pendingLength, 0, s.length⟩ h.inv.short with hdone | hwait
  · exact ⟨_, hbegun, hrests.queued ▸ hdone⟩
  · obtain ⟨w, hloop, hsnapshot, hoffset, -, -⟩ := hwait
    rw [hloop] at hbegun
    obtain ⟨t, hsteps, hstill, hlast⟩ :=
      @EditData.append_returns { s with writing := some (w, false) } w false hrests.opened rfl
    rw [hsnapshot, hoffset] at hlast
    exact ⟨t, hbegun.stores hsteps, hrests.queued ▸ hstill, hlast⟩

/-- An append that fills a page can fail. -/
theorem Reachable.append_fails {s : State} (h : Reachable s) (hrests : s.Rests []) {bytes : Bytes}
    (hsafe : s.length + bytes.length ≤ maxSafeInteger) (hlong : NBT_PAGE_BYTES ≤ bytes.length) (e : NbtError) :
    ∃ t, Reachable t ∧ t.Rests [] ∧ t.length = s.length ∧ t.settled = s.settled ++ [(bytes, .error e)] := by
  have hbegun := h.append_begins hrests hsafe
  have hshort := h.inv.short
  obtain ⟨n, hn⟩ := Nat.exists_eq_add_one.mpr (show 0 < bytes.length by omega)
  have hfull : s.pendingLength + min (NBT_PAGE_BYTES - s.pendingLength) (n + 1 - 0) = NBT_PAGE_BYTES := by omega
  rw [hn, appendLoop] at hbegun
  simp only [hn, if_pos (Nat.succ_pos n), if_pos hfull] at hbegun
  exact ⟨_, .step (.reject e) hbegun rfl, ⟨hrests.opened, rfl, hrests.queued⟩, rfl, rfl⟩

/-! ## Reads return -/

/-- The cache answers read `i`. -/
def Answers (i : Nat) (s t : State) : Prop := step s (.fetch i) = some t ∨ step s (.resume i) = some t

theorem readLoop_cases (s : State) (fuel : Nat) (r : Read) :
    (readLoop s fuel r).span = r.span ∧ r.used ≤ (readLoop s fuel r).used ∧
      ((readLoop s fuel r).phase = .fetching ∨ ∃ result, (readLoop s fuel r).phase = .done result) := by
  induction fuel generalizing r with
  | zero => exact ⟨rfl, le_rfl, .inr ⟨_, rfl⟩⟩
  | succ fuel ih =>
    rw [readLoop]
    split
    · split
      · exact ⟨rfl, le_rfl, .inr ⟨_, rfl⟩⟩
      · dsimp only
        split
        · obtain ⟨hspan, hused, hphase⟩ := ih { r with
            bytes := overwrite r.bytes r.used (slice s.pending ((r.span.offset + r.used) % NBT_PAGE_BYTES)
              (min (r.bytes.length - r.used) (NBT_PAGE_BYTES - (r.span.offset + r.used) % NBT_PAGE_BYTES)))
            used := r.used + min (r.bytes.length - r.used) (NBT_PAGE_BYTES - (r.span.offset + r.used) % NBT_PAGE_BYTES) }
          exact ⟨hspan, (Nat.le_add_right _ _).trans hused, hphase⟩
        · exact ⟨rfl, le_rfl, .inl rfl⟩
    · exact ⟨rfl, le_rfl, .inr ⟨_, rfl⟩⟩

theorem read_span (s : State) (span : NbtSpan) : (read s span).span = span := by
  unfold read
  dsimp only
  split
  · rfl
  · split
    · rfl
    · split
      · rfl
      · split
        · rfl
        · exact (readLoop_cases s _ _).1

theorem Reachable.answers (h : Reachable s) (hsteps : Relation.ReflTransGen (Answers i) s t) : Reachable t := by
  induction hsteps with
  | refl => exact h
  | tail _ hstep ih => exact hstep.elim (.step _ ih) (.step _ ih)

theorem resume_cases (h : Inv s) {p : Option Bytes} (hget : s.reads[i]? = some r) (hphase : r.phase = .fetched p) :
    ∃ t r', Answers i s t ∧ t.closed = s.closed ∧ t.settled = s.settled ∧ t.reads[i]? = some r' ∧ r'.span = r.span ∧
      r'.since = r.since ∧ ((∃ result, r'.phase = .done result) ∨ r'.phase = .fetching ∧ r.used < r'.used) := by
  obtain ⟨-, hok⟩ := h.reads r (mem_of_getElem? hget)
  rw [ReadOk, hphase] at hok
  obtain ⟨hfetch, hp⟩ := hok
  obtain ⟨hi, -⟩ := List.getElem?_eq_some_iff.mp hget
  have hstep : Answers i s { s with reads := s.reads.set i (resume s r p) } := by
    refine .inr ?_
    simp only [step, hget, hphase]
  refine ⟨_, resume s r p, hstep, rfl, rfl, getElem?_set_self hi, ?_⟩
  have hsince : (resume s r p).since = r.since := by
    rw [hp]
    exact (resume_ok h hfetch).1
  have hsize := hfetch.size
  have hmore := hfetch.more
  have hmod := Nat.mod_lt (r.span.offset + r.used) (show 0 < NBT_PAGE_BYTES by decide)
  match p with
  | none => exact ⟨rfl, hsince, .inl ⟨_, rfl⟩⟩
  | some page =>
    by_cases hpart : page.length ≠ NBT_PAGE_BYTES
    · have hthrows : resume s r (some page)
          = { r with phase := .done (.error ⟨r.span.offset + r.used, "Edited byte page is incomplete"⟩) } := if_pos hpart
      rw [hthrows]
      exact ⟨rfl, rfl, .inl ⟨_, rfl⟩⟩
    · set count := min (r.bytes.length - r.used) (NBT_PAGE_BYTES - (r.span.offset + r.used) % NBT_PAGE_BYTES) with hcount
      set r₁ : Read := { r with
        bytes := overwrite r.bytes r.used (slice page ((r.span.offset + r.used) % NBT_PAGE_BYTES) count)
        used := r.used + count } with hr₁
      have hgoes : resume s r (some page) = readLoop s (r.bytes.length - (r.used + count)) r₁ := if_neg hpart
      obtain ⟨hspan, hused, hnext⟩ := readLoop_cases s (r.bytes.length - (r.used + count)) r₁
      rw [hgoes] at hsince ⊢
      refine ⟨hspan, hsince, hnext.symm.imp_right fun hnext => ⟨hnext, ?_⟩⟩
      have hstart : r₁.used = r.used + count := rfl
      omega

theorem read_returns (h : Inv s) (hget : s.reads[i]? = some r) :
    ∃ t r' result, Relation.ReflTransGen (Answers i) s t ∧ t.closed = s.closed ∧ t.settled = s.settled ∧
      t.reads[i]? = some r' ∧ r'.span = r.span ∧ r'.since = r.since ∧ r'.phase = .done result := by
  generalize hleft : r.span.length - r.used = left
  induction left using Nat.strong_induction_on generalizing s r with
  | _ left ih =>
    have answered {s : State} (h : Inv s) {r : Read} {p : Option Bytes} (hget : s.reads[i]? = some r)
        (hleft : r.span.length - r.used = left) (hphase : r.phase = .fetched p) :
        ∃ t r' result, Relation.ReflTransGen (Answers i) s t ∧ t.closed = s.closed ∧ t.settled = s.settled ∧
          t.reads[i]? = some r' ∧ r'.span = r.span ∧ r'.since = r.since ∧ r'.phase = .done result := by
      obtain ⟨t, r', hstep, hclosed, hsettled, hget', hspan, hsince, hdone | ⟨hwait, hused⟩⟩ := resume_cases h hget hphase
      · obtain ⟨result, hdone⟩ := hdone
        exact ⟨t, r', result, .single hstep, hclosed, hsettled, hget', hspan, hsince, hdone⟩
      · have ht : Inv t := hstep.elim (step_inv h) (step_inv h)
        obtain ⟨-, hok⟩ := h.reads r (mem_of_getElem? hget)
        rw [ReadOk, hphase] at hok
        have hmore := hok.1.more
        obtain ⟨u, r'', result, hsteps, hclosed', hsettled', hget'', hspan', hsince', hdone⟩ :=
          ih (r'.span.length - r'.used) (by rw [hspan]; omega) ht hget' rfl
        exact ⟨u, r'', result, hsteps.head hstep, hclosed'.trans hclosed, hsettled'.trans hsettled, hget'',
          hspan'.trans hspan, hsince'.trans hsince, hdone⟩
    match hphase : r.phase with
    | .done result => exact ⟨s, r, result, .refl, rfl, rfl, hget, rfl, rfl, hphase⟩
    | .fetched p => exact answered h hget hleft hphase
    | .fetching =>
      obtain ⟨hi, -⟩ := List.getElem?_eq_some_iff.mp hget
      have hstep : step s (.fetch i) = some { s with
          reads := s.reads.set i { r with phase := .fetched (s.cache ((r.span.offset + r.used) / NBT_PAGE_BYTES)) } } := by
        simp only [step, hget, hphase]
      obtain ⟨t, r', result, hsteps, hrest⟩ := answered (step_inv h hstep) (getElem?_set_self hi) hleft rfl
      exact ⟨t, r', result, hsteps.head (.inl hstep), hrest⟩

theorem span_bytes (h : Inv s) {n : Nat} {bytes : Bytes} {span : NbtSpan} (hspan : (bytes, .ok span) ∈ s.settled.take n) :
    span.length = bytes.length ∧ span.offset + span.length ≤ (committedBytes (s.settled.take n)).length ∧
      ∀ offset length, offset + length ≤ bytes.length →
        slice s.committed (span.offset + offset) length = slice bytes offset length := by
  obtain ⟨before, after, hsplit⟩ := append_of_mem hspan
  have hall : s.settled = before ++ (bytes, .ok span) :: (after ++ s.settled.drop n) := by
    conv_lhs => rw [← take_append_drop n s.settled, hsplit]
    rw [append_assoc, cons_append]
  have hprefix : before ++ [(bytes, .ok span)] <+: s.settled := by
    refine ⟨after ++ s.settled.drop n, ?_⟩
    rw [append_assoc]
    exact hall.symm
  obtain rfl := h.spans before bytes span hprefix
  have hcommitted : ∀ rest, committedBytes (before ++ (bytes, .ok ⟨(committedBytes before).length, bytes.length⟩) :: rest)
      = committedBytes before ++ (bytes ++ committedBytes rest) := by
    intro rest
    rw [committedBytes_append]
    rfl
  refine ⟨rfl, ?_, fun offset length hinside => ?_⟩
  · rw [hsplit, hcommitted]
    simp
  · rw [State.committed, hall, hcommitted, slice_append_right, slice_append_of_le hinside]

/-- Edit bytes never change, whatever appends, failed writes of pages and reads come in between. A span that was
returned has the length of its argument; a later read of at most 256 KiB of it gives these bytes of the argument, and
comes to its end as soon as the cache answers, unless the store was closed; and an append comes to its end as soon as
the cache takes its pages. -/
theorem edit_bytes_never_change {s : State} (h : Reachable s) :
    (∀ bytes span, (bytes, .ok span) ∈ s.settled → span.length = bytes.length) ∧
    (∀ r ∈ s.reads, ∀ bytes span, (bytes, .ok span) ∈ s.settled.take r.since →
      ∀ offset, r.span.offset = span.offset + offset → offset + r.span.length ≤ span.length →
      r.span.length ≤ 256 * 1024 → ∀ result, r.phase = .done result →
      result = .ok (slice bytes offset r.span.length) ∨ s.closed = true ∧ ∃ e, result = .error e) ∧
    (∀ i r, s.reads[i]? = some r → ∃ t r' result, Relation.ReflTransGen (Answers i) s t ∧ t.closed = s.closed ∧
      t.settled = s.settled ∧ t.reads[i]? = some r' ∧ r'.span = r.span ∧ r'.since = r.since ∧ r'.phase = .done result) ∧
    (s.closed = false → ∀ w taken, s.writing = some (w, taken) → ∃ t, Relation.ReflTransGen Stores s t ∧
      t.settled = s.settled ++ [(w.snapshot, .ok ⟨w.offset, w.snapshot.length⟩)]) := by
  have hinv := h.inv
  refine ⟨fun bytes span hspan => ?_, fun r hr bytes span hspan offset hoffset hinside hshort result hdone => ?_,
    fun i r hget => read_returns hinv hget, fun hopen w taken hwriting => ?_⟩
  · rw [← take_length (l := s.settled)] at hspan
    exact (span_bytes hinv hspan).1
  · obtain ⟨-, hok⟩ := hinv.reads r hr
    obtain ⟨hlength, hend, hbytes⟩ := span_bytes hinv hspan
    rw [ReadOk, hdone] at hok
    match result with
    | .ok read =>
      obtain ⟨-, rfl⟩ := hok
      rw [hoffset, hbytes offset _ (hlength ▸ hinside)]
      exact .inl rfl
    | .error e =>
      rcases hok with hclosed | hlong | hunsafe | hbeyond
      · exact .inr ⟨hclosed, e, rfl⟩
      · omega
      · have hsafe := hinv.safe
        have htotal : (committedBytes (s.settled.take r.since)).length ≤ s.committed.length := by
          rw [State.committed, ← take_append_drop r.since s.settled, committedBytes_append]
          simp
        rw [hinv.length] at htotal
        omega
      · omega
  · obtain ⟨t, hsteps, -, hlast⟩ := append_returns hopen hwriting
    exact ⟨t, hsteps, hlast⟩

/-- Three bytes across the end of a page, read after an append that failed and one that did not. -/
theorem edit_bytes_never_change_boundary : ∃ s bytes e, Reachable s ∧
    s.settled = [(bytes, .ok ⟨0, NBT_PAGE_BYTES + 3⟩), (bytes, .error e), ([9], .ok ⟨NBT_PAGE_BYTES + 3, 1⟩)] ∧
    ∃ r ∈ s.reads, r.span = ⟨NBT_PAGE_BYTES - 1, 3⟩ ∧ r.phase = .done (.ok [0, 1, 2]) := by
  obtain ⟨bytes, hbytes, hslice⟩ : ∃ bytes : Bytes, bytes.length = NBT_PAGE_BYTES + 3 ∧
      slice bytes (NBT_PAGE_BYTES - 1) 3 = [0, 1, 2] := by
    refine ⟨zeros (NBT_PAGE_BYTES - 1) ++ [0, 1, 2, 3], by simp [NBT_PAGE_BYTES], ?_⟩
    rw [slice, drop_left' (zeros_length _)]
    rfl
  have hfits : 0 + bytes.length ≤ maxSafeInteger := by
    rw [hbytes]
    decide
  obtain ⟨s₁, h₁, hrests₁, hsettled₁⟩ := Reachable.start.append_returns ⟨rfl, rfl, rfl⟩ hfits
  have hlength₁ : s₁.length = NBT_PAGE_BYTES + 3 := by
    rw [← h₁.inv.length, State.committed, hsettled₁, ← hbytes]
    exact congrArg length (append_nil bytes)
  have hfits₁ : s₁.length + bytes.length ≤ maxSafeInteger := by
    rw [hlength₁, hbytes]
    decide
  obtain ⟨s₂, h₂, hrests₂, hlength₂, hsettled₂⟩ := h₁.append_fails hrests₁ hfits₁ (by omega) ⟨0, "QuotaExceededError"⟩
  have hfits₂ : s₂.length + ([9] : Bytes).length ≤ maxSafeInteger := by
    rw [hlength₂, hlength₁]
    decide
  obtain ⟨t, ht, hrests, hsettled⟩ := h₂.append_returns hrests₂ hfits₂
  rw [hsettled₂, hsettled₁, hlength₂, hlength₁, hbytes] at hsettled
  have hasked : Reachable { t with reads := t.reads ++ [read t ⟨NBT_PAGE_BYTES - 1, 3⟩] } :=
    .step (.read ⟨NBT_PAGE_BYTES - 1, 3⟩) ht rfl
  have hspan : (read t ⟨NBT_PAGE_BYTES - 1, 3⟩).span = ⟨NBT_PAGE_BYTES - 1, 3⟩ := read_span t _
  have hsince : (read t ⟨NBT_PAGE_BYTES - 1, 3⟩).since = 3 := by
    rw [(read_ok ht.inv _).1, hsettled]
    rfl
  obtain ⟨-, -, hreturns, -⟩ := edit_bytes_never_change hasked
  obtain ⟨s, r, result, hsteps, hclosed, hsame, hget, hspan', hsince', hdone⟩ :=
    hreturns t.reads.length (read t ⟨NBT_PAGE_BYTES - 1, 3⟩) List.getElem?_concat_length
  have hs : Reachable s := hasked.answers hsteps
  have hfirst : (bytes, .ok ⟨0, NBT_PAGE_BYTES + 3⟩) ∈ s.settled.take r.since := by
    rw [hsame, hsince', hsince, hsettled]
    exact mem_cons_self
  refine ⟨s, bytes, _, hs, hsame.trans hsettled, r, mem_of_getElem? hget, hspan'.trans hspan, ?_⟩
  rw [hspan] at hspan'
  rcases (edit_bytes_never_change hs).2.1 r (mem_of_getElem? hget) _ _ hfirst (NBT_PAGE_BYTES - 1) (by rw [hspan', Nat.zero_add])
    (by rw [hspan']; decide) (by rw [hspan']; decide) result hdone with hread | ⟨hclosed', -⟩
  · rw [hdone, hread, hspan', hslice]
  · rw [hclosed, hrests.opened] at hclosed'
    cases hclosed'

/-- A span of more than 256 KiB is returned, and a read of it is refused. -/
theorem edit_span_refused : ∃ s, Reachable s ∧ s.closed = false ∧ ∃ bytes span, (bytes, .ok span) ∈ s.settled ∧
    ∃ r ∈ s.reads, r.span = span ∧ r.since = s.settled.length ∧
      r.phase = .done (.error ⟨0, "Edit byte reads require bounded pages"⟩) := by
  obtain ⟨bytes, hbytes⟩ : ∃ bytes : Bytes, bytes.length = 256 * 1024 + 1 := ⟨zeros _, zeros_length _⟩
  have hsafe : 0 + bytes.length ≤ maxSafeInteger := by
    rw [hbytes]
    decide
  obtain ⟨t, ht, ⟨hopen, -, -⟩, hsettled⟩ := Reachable.start.append_returns ⟨rfl, rfl, rfl⟩ hsafe
  refine ⟨_, .step (.read ⟨0, bytes.length⟩) ht rfl, hopen, bytes, ⟨0, bytes.length⟩, ?_,
    read t ⟨0, bytes.length⟩, mem_append_right _ (mem_singleton.mpr rfl), ?_⟩
  · simp only [hsettled]
    exact mem_append_right _ (mem_singleton.mpr rfl)
  · have hlong : 256 * 1024 < bytes.length := by
      rw [hbytes]
      exact Nat.lt_succ_self _
    simp only [read, hopen, Bool.false_eq_true, if_false, assertRange_ok hsafe, if_pos hlong, and_self]

end EditData

end Cantrip.Nbt
