import Cantrip.Lib.Buffer
import Cantrip.Nbt.Types
import Mathlib.Logic.Function.Basic

/-!
# The byte spool (`packages/nbt/src/storage/spool.ts`)

`NbtByteSpool` is a byte source that grows. Appends and the finish run one after the other, readers wait for their
bytes; every await is a point where all other calls go on: the one of a page that is stored, the one of a page that is
fetched, and those of a reader that waits, is told to look again, or goes on after its wait. The cache takes a page at
some moment before it answers, may answer with an error whether or not it took it, and may drop any page at any time.
The abort signal is left out. `given` are the bytes of all appends that were accepted, in the order of the calls.
-/

namespace Cantrip.Nbt

open Lib List Option

namespace ByteSpool

inductive Failure
  | range (error : NbtError)
  /-- A storage error, or what the cache or the caller of `fail` gives. -/
  | storage (message : String)
  deriving DecidableEq, Repr

inductive Job
  | append (snapshot : Bytes)
  | finish
  deriving DecidableEq, Repr

/-- What goes on after the page was stored. -/
inductive Rest
  | append (snapshot : Bytes) (offset count : Nat)
  | finish
  deriving DecidableEq, Repr

/-- A job suspended in `cache.set`, and whether the cache has taken the page. -/
structure Write where
  rest : Rest
  page : Nat
  bytes : Bytes
  taken : Bool
  deriving DecidableEq, Repr

inductive ReadPhase
  /-- Suspended in `wait`, told to look again or not. -/
  | waiting (notified : Bool)
  /-- `wait` has returned. -/
  | ready
  /-- Suspended in `cache.get`. -/
  | fetching
  /-- The cache has looked the page up. -/
  | fetched (page : Option Bytes)
  | done (result : Except Failure Bytes)
  deriving DecidableEq

/-- A call of `read`. -/
structure Read where
  offset : Nat
  length : Nat
  count : Nat := 0
  result : Bytes := []
  used : Nat := 0
  phase : ReadPhase
  deriving DecidableEq

/-- `queue` are the jobs that wait for their turn. -/
structure State where
  pending : Bytes := zeros NBT_PAGE_BYTES
  pendingLength : Nat := 0
  length : Nat := 0
  finished : Bool := false
  finishing : Bool := false
  failed : Option Failure := none
  cache : Nat → Option Bytes := fun _ => none
  queue : List Job := []
  writing : Option Write := none
  given : Bytes := []
  reads : List Read := []

/-! ## Appends and the finish -/

def Read.notify (r : Read) : Read :=
  match r.phase with
  | .waiting _ => { r with phase := .waiting true }
  | _ => r

def wake (s : State) : State := { s with reads := s.reads.map Read.notify }

def fail (s : State) (error : Failure) : State :=
  match s.failed with
  | some _ => s
  | none => wake { s with failed := some error, pending := zeros s.pending.length }

/-- The end of a turn of the loop of `append`. -/
def advance (s : State) (count : Nat) : State := wake { s with length := s.length + count }

/-- The loop of `append`, up to the next `cache.set`; every turn takes a byte at least. -/
def appendLoop (snapshot : Bytes) : Nat → State → Nat → State
  | 0, s, _ => s
  | fuel + 1, s, offset =>
    if offset < snapshot.length then
      let count := min (s.pending.length - s.pendingLength) (snapshot.length - offset)
      let s := { s with
        pending := overwrite s.pending s.pendingLength (slice snapshot offset count)
        pendingLength := s.pendingLength + count }
      let offset := offset + count
      if s.pendingLength = NBT_PAGE_BYTES then
        { s with writing := some ⟨.append snapshot offset count, s.length / NBT_PAGE_BYTES, s.pending, false⟩ }
      else appendLoop snapshot fuel (advance s count) offset
    else s

/-- What `finish` does after the last page was stored. -/
def finishEnd (s : State) : State :=
  match s.failed with
  | some _ => s
  | none => wake { s with finished := true, pending := zeros s.pending.length, pendingLength := 0 }

/-- The turn of a job has come. -/
def begin (s : State) : Job → State
  | .append snapshot =>
    match s.failed with
    | some _ => s
    | none =>
      if s.finished then fail s (.storage "NBT byte spool is complete.")
      else appendLoop snapshot snapshot.length s 0
  | .finish =>
    match s.failed with
    | some _ => s
    | none =>
      if s.finished then s
      else if s.pendingLength ≠ 0 then
        { s with writing := some ⟨.finish, s.length / NBT_PAGE_BYTES, s.pending.take s.pendingLength, false⟩ }
      else finishEnd s

/-- The job goes on after its page was stored. -/
def stored (s : State) : Rest → State
  | .append snapshot offset count =>
    match s.failed with
    | some _ => s
    | none =>
      appendLoop snapshot (snapshot.length - offset)
        (advance { s with pending := zeros s.pending.length, pendingLength := 0 } count) offset
  | .finish => finishEnd s

/-! ## Reads -/

/-- The loop of `wait`, up to its next await. -/
def wait (s : State) (r : Read) : Read :=
  match s.failed with
  | some e => { r with phase := .done (.error e) }
  | none =>
    if s.length < r.offset + r.length ∧ s.finished = false then { r with phase := .waiting false }
    else { r with phase := .ready }

/-- What `read` does with the bytes of one page. -/
def Read.copy (r : Read) (data : Bytes) : Except Failure Read :=
  let within := (r.offset + r.used) % NBT_PAGE_BYTES
  let size := min (r.count - r.used) (data.length - within)
  if size = 0 then .error (.storage "NBT cache page is incomplete.")
  else .ok { r with result := overwrite r.result r.used (slice data within size), used := r.used + size }

/-- The loop of `read`, up to the next `cache.get`; every turn reads a byte at least. -/
def readLoop (s : State) : Nat → Read → Read
  | 0, r => { r with phase := .done (.ok r.result) }
  | fuel + 1, r =>
    match s.failed with
    | some e => { r with phase := .done (.error e) }
    | none =>
      if r.used < r.count then
        let page := (r.offset + r.used) / NBT_PAGE_BYTES
        if s.finished = false ∧ page = s.length / NBT_PAGE_BYTES then
          match r.copy (s.pending.take s.pendingLength) with
          | .error e => { r with phase := .done (.error e) }
          | .ok r => readLoop s fuel r
        else { r with phase := .fetching }
      else { r with phase := .done (.ok r.result) }

/-- A call of `read`, up to its first await. -/
def read (s : State) (offset length : Nat) : Read :=
  match assertRange offset length with
  | .error e => { offset, length, phase := .done (.error (.range e)) }
  | .ok () =>
    if 256 * 1024 < length then
      { offset, length, phase := .done (.error (.storage "NBT byte reads require bounded pages.")) }
    else if length = 0 then { offset, length, phase := .done (.ok []) }
    else wait s { offset, length, phase := .waiting false }

/-- The read goes on after `wait` has returned. -/
def proceed (s : State) (r : Read) : Read :=
  let count := min r.length (s.length - r.offset)
  readLoop s (count + 1) { r with count, result := zeros count, used := 0 }

def resume (s : State) (r : Read) (page : Option Bytes) : Read :=
  match page with
  | none => { r with phase := .done (.error (.storage "NBT cache bytes were evicted. Reopen the source document.")) }
  | some data =>
    match r.copy data with
    | .error e => { r with phase := .done (.error e) }
    | .ok r => readLoop s (r.count - r.used + 1) r

/-! ## Steps -/

inductive ReadAction
  /-- A reader that was told so looks again. -/
  | recheck
  /-- A reader goes on after its wait. -/
  | proceed
  /-- The cache looks up the page of a read. -/
  | fetch
  /-- `cache.get` returns. -/
  | resume
  /-- `cache.get` throws. -/
  | refuse (error : Failure)

inductive Action
  | append (bytes : Bytes)
  | finish
  /-- `fail`, and `close`, which fails the spool and closes the cache. -/
  | fail (error : Failure)
  /-- The next job starts. -/
  | begin
  /-- The cache takes the page that is being stored. -/
  | store
  /-- `cache.set` returns. -/
  | resolve
  /-- `cache.set` throws. -/
  | reject (error : Failure)
  /-- The cache loses a page. -/
  | evict (page : Nat)
  | read (offset length : Nat)
  | goOn (read : Nat) (action : ReadAction)

def stepRead (s : State) (r : Read) : ReadAction → Option Read
  | .recheck => if r.phase = .waiting true then some (wait s r) else none
  | .proceed => if r.phase = .ready then some (proceed s r) else none
  | .fetch =>
    if r.phase = .fetching then some { r with phase := .fetched (s.cache ((r.offset + r.used) / NBT_PAGE_BYTES)) } else none
  | .resume =>
    match r.phase with
    | .fetched page => some (resume s r page)
    | _ => none
  | .refuse e => if r.phase = .fetching then some { r with phase := .done (.error e) } else none

def step (s : State) : Action → Option State
  | .append bytes =>
    if s.finishing then some s
    else some { s with queue := s.queue ++ [.append bytes], given := s.given ++ bytes }
  | .finish => if s.finishing then some s else some { s with finishing := true, queue := s.queue ++ [.finish] }
  | .fail e => some (fail s e)
  | .begin =>
    match s.writing, s.queue with
    | none, job :: queue => some (begin { s with queue } job)
    | _, _ => none
  | .store =>
    s.writing.map fun w =>
      { s with cache := Function.update s.cache w.page (some w.bytes), writing := some { w with taken := true } }
  | .resolve =>
    match s.writing with
    | some w => if w.taken then some (stored { s with writing := none } w.rest) else none
    | none => none
  | .reject e => s.writing.map fun _ => fail { s with writing := none } e
  | .evict p => some { s with cache := Function.update s.cache p none }
  | .read offset length => some { s with reads := s.reads ++ [read s offset length] }
  | .goOn i a => s.reads[i]?.bind fun r => (stepRead s r a).map fun r => { s with reads := s.reads.set i r }

/-- The states that calls, awaits and answers of the cache can lead to, in any order. -/
inductive Reachable : State → Prop
  | start : Reachable {}
  | step {s t : State} (a : Action) (h : Reachable s) (hstep : step s a = some t) : Reachable t

/-! ## The invariant -/

/-- Where the page of the end starts. -/
def State.base (s : State) : Nat := s.length / NBT_PAGE_BYTES * NBT_PAGE_BYTES

def Job.bytes : Job → Bytes
  | .append snapshot => snapshot
  | .finish => []

/-- The bytes of the jobs that wait. -/
def State.queued (s : State) : Bytes := s.queue.flatMap Job.bytes

/-- The cache has page `p` of the bytes given, or has lost it. -/
def Kept (s : State) (p : Nat) : Prop := s.cache p = none ∨ s.cache p = some (pageAt NBT_PAGE_BYTES s.given p)

/-- The pages up to the partial page are stored, the partial page holds what follows, and `rest` is still to come. -/
structure Filled (s : State) (rest : Bytes) : Prop where
  buffer : s.pending.length = NBT_PAGE_BYTES
  inside : s.base + s.pendingLength ≤ s.given.length
  tail : s.pending.take s.pendingLength = slice s.given s.base s.pendingLength
  rest : s.given.drop (s.base + s.pendingLength) = rest
  pages : ∀ p < s.length / NBT_PAGE_BYTES, Kept s p

/-- Between two turns of a loop the partial page ends with the bytes. -/
structure Idle (s : State) (rest : Bytes) : Prop extends Filled s rest where
  short : s.pendingLength < NBT_PAGE_BYTES
  length : s.length = s.base + s.pendingLength

structure Complete (s : State) : Prop where
  queue : s.queue = []
  length : s.length = s.given.length
  pages : ∀ p, p * NBT_PAGE_BYTES < s.length → Kept s p

/-- The job that is suspended, by what it does next. -/
def Suspended (s : State) (w : Write) : Prop :=
  match w.rest with
  | .append snapshot offset count =>
    Filled s (snapshot.drop offset ++ s.queued) ∧ s.pendingLength = NBT_PAGE_BYTES ∧ 0 < count ∧
      s.length + count = s.base + NBT_PAGE_BYTES ∧ w.bytes = s.pending
  | .finish => Idle s [] ∧ s.queue = [] ∧ w.bytes = s.pending.take s.pendingLength

structure Writing (s : State) (w : Write) : Prop where
  unfinished : s.finished = false
  page : w.page = s.length / NBT_PAGE_BYTES
  taken : w.taken = true → s.cache w.page = none ∨ s.cache w.page = some w.bytes
  suspended : Suspended s w

def WriterOk (s : State) : Prop :=
  match s.writing with
  | some w => Writing s w
  | none => (s.finished = false → Idle s s.queued) ∧ (s.finished = true → Complete s)

/-- The finish is the last job, and nothing is accepted once it was asked for. -/
structure Order (s : State) : Prop where
  last : ∀ before after, s.queue = before ++ .finish :: after → after = []
  asked : s.finishing = false → .finish ∉ s.queue ∧ ∀ w, s.writing = some w → w.rest ≠ .finish
  finished : s.finished = true → s.finishing = true

/-- What a read may take from the cache. -/
def Stored (s : State) (p : Nat) : Prop :=
  p * NBT_PAGE_BYTES + NBT_PAGE_BYTES ≤ s.length ∨ s.finished = true ∧ p * NBT_PAGE_BYTES < s.length

/-- A read past its wait asks for bytes that are there, or for all there will be. -/
def Counted (s : State) (r : Read) : Prop :=
  r.count = r.length ∧ r.offset + r.length ≤ s.length ∨ s.finished = true ∧ r.count = min r.length (s.length - r.offset)

structure Reading (s : State) (r : Read) : Prop where
  counted : Counted s r
  size : r.result.length = r.count
  used : r.used ≤ r.count
  read : r.result.take r.used = slice s.given r.offset r.used

def ReadOk (s : State) (r : Read) : Prop :=
  match r.phase with
  | .waiting _ => True
  | .ready => s.failed = none → r.offset + r.length ≤ s.length ∨ s.finished = true
  | .fetching => s.failed = none → Reading s r ∧ r.used < r.count ∧ Stored s ((r.offset + r.used) / NBT_PAGE_BYTES)
  | .fetched p => s.failed = none → Reading s r ∧ r.used < r.count ∧
      (p = none ∨ p = some (pageAt NBT_PAGE_BYTES s.given ((r.offset + r.used) / NBT_PAGE_BYTES)) ∧
        Stored s ((r.offset + r.used) / NBT_PAGE_BYTES))
  | .done (.ok bytes) => bytes = slice s.given r.offset r.length ∧ (bytes.length < r.length → s.finished = true)
  | .done (.error _) => True

structure Inv (s : State) : Prop where
  order : Order s
  writer : s.failed = none → WriterOk s
  reads : ∀ r ∈ s.reads, ReadOk s r

theorem Inv.inside {s : State} (h : Inv s) (halive : s.failed = none) :
    s.length ≤ s.given.length ∧ (s.finished = true → s.length = s.given.length) := by
  have hwriter := h.writer halive
  unfold WriterOk at hwriter
  split at hwriter
  · next w hw =>
    refine ⟨?_, fun hfinished => absurd hfinished (by rw [hwriter.unfinished]; decide)⟩
    have hsuspended := hwriter.suspended
    unfold Suspended at hsuspended
    split at hsuspended
    · obtain ⟨hfilled, hfull, -, hcount, -⟩ := hsuspended
      have hinside := hfilled.inside
      omega
    · obtain ⟨hidle, -, -⟩ := hsuspended
      have hinside := hidle.inside
      exact hidle.length ▸ hinside
  · obtain ⟨hopen, hcomplete⟩ := hwriter
    cases hfinished : s.finished with
    | false => exact ⟨(hopen hfinished).length ▸ (hopen hfinished).inside, fun h => nomatch h⟩
    | true => exact ⟨(hcomplete hfinished).length.le, fun _ => (hcomplete hfinished).length⟩

theorem Inv.filled {s : State} (h : Inv s) (halive : s.failed = none) (hopen : s.finished = false) :
    ∃ rest, Filled s rest := by
  have hwriter := h.writer halive
  unfold WriterOk at hwriter
  split at hwriter
  · have hsuspended := hwriter.suspended
    unfold Suspended at hsuspended
    split at hsuspended
    · exact ⟨_, hsuspended.1⟩
    · exact ⟨_, hsuspended.1.toFilled⟩
  · exact ⟨_, (hwriter.1 hopen).toFilled⟩

variable {rest : Bytes} {job : Job} {p : Nat} {r : Read}

theorem Inv.kept {s : State} (h : Inv s) (halive : s.failed = none) (hp : Stored s p) : Kept s p := by
  cases hfinished : s.finished with
  | false =>
    obtain ⟨rest, hfilled⟩ := h.filled halive hfinished
    rcases hp with hp | ⟨hdone, -⟩
    · refine hfilled.pages p ?_
      simp only [NBT_PAGE_BYTES] at hp ⊢
      omega
    · rw [hfinished] at hdone
      cases hdone
  | true =>
    have hcomplete : Complete s := by
      have hwriter := h.writer halive
      unfold WriterOk at hwriter
      split at hwriter
      · rw [hwriter.unfinished] at hfinished
        cases hfinished
      · exact hwriter.2 hfinished
    refine hcomplete.pages p ?_
    rcases hp with hp | ⟨-, hp⟩
    · simp only [NBT_PAGE_BYTES] at hp ⊢
      omega
    · exact hp

/-! ## What later states keep of a read -/

/-- The bytes given grow until the end is known, and so does the length, unless the spool fails. -/
structure Later (s t : State) : Prop where
  failed : t.failed = none → s.failed = none
  given : s.given <+: t.given
  finished : s.finished = true → t.finished = true ∧ t.given = s.given
  length : t.failed = none → s.length ≤ t.length ∧ (s.finished = true → t.length = s.length)

theorem Stored.later {s t : State} (h : Later s t) (halive : t.failed = none) (hp : Stored s p) : Stored t p := by
  obtain ⟨hle, hsame⟩ := h.length halive
  rcases hp with hp | ⟨hfinished, hp⟩
  · exact .inl (hp.trans hle)
  · exact .inr ⟨(h.finished hfinished).1, by rw [hsame hfinished]; exact hp⟩

theorem Counted.later {s t : State} (h : Later s t) (halive : t.failed = none) (hr : Counted s r) : Counted t r := by
  obtain ⟨hle, hsame⟩ := h.length halive
  rcases hr with ⟨hcount, hend⟩ | ⟨hfinished, hcount⟩
  · exact .inl ⟨hcount, hend.trans hle⟩
  · exact .inr ⟨(h.finished hfinished).1, by rw [hsame hfinished]; exact hcount⟩

theorem Later.slice_eq {s t : State} (h : Later s t) {offset length : Nat}
    (hstill : s.finished = true ∨ length = 0 ∨ offset + length ≤ s.given.length) :
    slice t.given offset length = slice s.given offset length := by
  rcases hstill with hfinished | rfl | hinside
  · rw [(h.finished hfinished).2]
  · rw [slice_zero, slice_zero]
  · obtain ⟨more, hmore⟩ := h.given
    rw [← hmore, slice_append_of_le hinside]

theorem Counted.inside {s : State} (hr : Counted s r) (hmore : r.used < r.count) : r.offset + r.count ≤ s.length := by
  rcases hr with ⟨hcount, hend⟩ | ⟨-, hcount⟩
  · omega
  · omega

theorem Reading.later {s t : State} (h : Later s t) (halive : t.failed = none)
    (hinside : s.length ≤ s.given.length) (hr : Reading s r) : Reading t r := by
  refine ⟨hr.counted.later h halive, hr.size, hr.used, ?_⟩
  have hused := hr.used
  rw [hr.read, h.slice_eq]
  rcases hr.counted with ⟨hcount, hend⟩ | ⟨hfinished, -⟩
  · exact .inr (.inr (by omega))
  · exact .inl hfinished

theorem ReadOk.later {s t : State} (hs : s.failed = none → s.length ≤ s.given.length) (h : Later s t) (hr : ReadOk s r) : ReadOk t r := by
  unfold ReadOk at hr ⊢
  match hphase : r.phase with
  | .waiting _ => trivial
  | .ready =>
    rw [hphase] at hr
    intro halive
    exact (hr (h.failed halive)).imp (fun hend => hend.trans (h.length halive).1) fun hfinished => (h.finished hfinished).1
  | .fetching =>
    rw [hphase] at hr
    intro halive
    obtain ⟨hreading, hmore, hstored⟩ := hr (h.failed halive)
    exact ⟨hreading.later h halive (hs (h.failed halive)), hmore, hstored.later h halive⟩
  | .fetched p =>
    rw [hphase] at hr
    intro halive
    obtain ⟨hreading, hmore, hpage⟩ := hr (h.failed halive)
    have hinside := hs (h.failed halive)
    refine ⟨hreading.later h halive hinside, hmore, hpage.imp_right fun ⟨hp, hstored⟩ => ⟨?_, hstored.later h halive⟩⟩
    rw [hp, pageAt, pageAt, h.slice_eq]
    exact hstored.symm.imp (fun hfinished => hfinished.1) fun hfull => .inr (hfull.trans hinside)
  | .done (.ok bytes) =>
    rw [hphase] at hr
    obtain ⟨rfl, hshort⟩ := hr
    have hstill : s.finished = true ∨ r.length = 0 ∨ r.offset + r.length ≤ s.given.length := by
      by_cases hfull : (slice s.given r.offset r.length).length < r.length
      · exact .inl (hshort hfull)
      · rw [slice, length_take, length_drop] at hfull
        omega
    exact ⟨(h.slice_eq hstill).symm, fun hless => (h.finished (hshort hless)).1⟩
  | .done (.error e) => trivial

theorem ReadOk.notify {s : State} (hr : ReadOk s r) : ReadOk s r.notify := by
  unfold Read.notify
  split
  · trivial
  · exact hr

/-! ## What reads keep -/

theorem Reading.copy {s : State} {r' : Read} (hr : Reading s r) {data : Bytes} {n : Nat}
    (hdata : data = slice s.given ((r.offset + r.used) / NBT_PAGE_BYTES * NBT_PAGE_BYTES) n) (h : r.copy data = .ok r') :
    Reading s r' ∧ r'.count = r.count ∧ r.used < r'.used := by
  unfold Read.copy at h
  dsimp only at h
  set within := (r.offset + r.used) % NBT_PAGE_BYTES with hwithin
  set size := min (r.count - r.used) (data.length - within) with hsize
  split at h
  · cases h
  · next hpos =>
    cases h
    have hn : data.length ≤ n := by
      rw [hdata]
      exact slice_length_le _ _ _
    have hpart : slice data within size = slice s.given (r.offset + r.used) size := by
      rw [hdata, slice_slice _ _ _ _ _ (by omega), Nat.div_add_mod']
    have hlen : (slice data within size).length = size := slice_length _ (by omega)
    have hused := hr.used
    have hres := hr.size
    refine ⟨⟨hr.counted, ?_, ?_, ?_⟩, rfl, ?_⟩
    · simp only
      rw [overwrite_length (by omega)]
      exact hr.size
    · simp only
      omega
    · have htake := @overwrite_take r.result (slice data within size) r.used (by omega)
      rw [hlen, hr.read] at htake
      refine htake.trans ?_
      rw [hpart]
      exact slice_append_slice _ _ _ _
    · simp only
      omega

theorem Reading.done {s : State} (hs : s.finished = true → s.length = s.given.length) (hr : Reading s r)
    (hall : ¬r.used < r.count) :
    r.result = slice s.given r.offset r.length ∧ (r.result.length < r.length → s.finished = true) := by
  have hused := hr.used
  have hsize := hr.size
  have hread := hr.read
  rw [take_of_length_le (by omega), show r.used = r.count by omega] at hread
  rcases hr.counted with ⟨hcount, -⟩ | ⟨hfinished, hcount⟩
  · exact ⟨by rw [hread, hcount], fun hless => by omega⟩
  · refine ⟨?_, fun _ => hfinished⟩
    rw [hread, hcount, hs hfinished, slice, slice, ← length_drop, ← take_eq_take_min]

theorem readLoop_ok {s : State} (h : Inv s) (fuel : Nat) (r : Read) (hr : s.failed = none → Reading s r)
    (hfuel : r.count - r.used < fuel) : ReadOk s (readLoop s fuel r) := by
  induction fuel generalizing r with
  | zero => omega
  | succ fuel ih =>
    rw [readLoop]
    match halive : s.failed with
    | some e => exact trivial
    | none =>
      have hreading := hr halive
      by_cases hmore : r.used < r.count
      · simp only [if_pos hmore]
        by_cases hpartial : s.finished = false ∧ (r.offset + r.used) / NBT_PAGE_BYTES = s.length / NBT_PAGE_BYTES
        · rw [if_pos hpartial]
          obtain ⟨hopen, hpage⟩ := hpartial
          obtain ⟨rest, hfilled⟩ := h.filled halive hopen
          have hdata := hfilled.tail
          rw [State.base, ← hpage] at hdata
          match hcopy : r.copy (s.pending.take s.pendingLength) with
          | .error e => exact trivial
          | .ok r' =>
            obtain ⟨hreading', hcount, hused⟩ := hreading.copy hdata hcopy
            exact ih r' (fun _ => hreading') (by omega)
        · rw [if_neg hpartial]
          refine fun _ => ⟨⟨hreading.counted, hreading.size, hreading.used, hreading.read⟩, hmore, ?_⟩
          have hinside := hreading.counted.inside hmore
          cases hfinished : s.finished with
          | true =>
            refine .inr ⟨hfinished, ?_⟩
            have hpage := Nat.div_mul_le_self (r.offset + r.used) NBT_PAGE_BYTES
            simp only
            omega
          | false =>
            have hother : (r.offset + r.used) / NBT_PAGE_BYTES ≠ s.length / NBT_PAGE_BYTES :=
              fun hpage => hpartial ⟨hfinished, hpage⟩
            refine .inl ?_
            simp only [NBT_PAGE_BYTES] at hother ⊢
            omega
      · simp only [if_neg hmore]
        exact hreading.done (h.inside halive).2 hmore

theorem wait_ok (s : State) (r : Read) : ReadOk s (wait s r) := by
  unfold wait
  split
  · trivial
  · split
    · trivial
    · next hdone =>
      intro _
      have hcases := not_and_or.mp hdone
      rw [not_lt, Bool.not_eq_false] at hcases
      exact hcases

theorem read_ok (s : State) (offset length : Nat) : ReadOk s (read s offset length) := by
  unfold read
  split
  · trivial
  · split
    · trivial
    · split
      · next hzero => exact ⟨by rw [hzero, slice_zero], fun hless => absurd hless (by rw [hzero]; exact Nat.not_lt_zero _)⟩
      · exact wait_ok _ _

theorem proceed_ok {s : State} (h : Inv s)
    (hr : s.failed = none → r.offset + r.length ≤ s.length ∨ s.finished = true) : ReadOk s (proceed s r) := by
  refine readLoop_ok h _ _ (fun halive => ⟨?_, zeros_length _, Nat.zero_le _, ?_⟩) ?_
  · rcases hr halive with hend | hfinished
    · exact .inl ⟨by simp only; omega, hend⟩
    · exact .inr ⟨hfinished, rfl⟩
  · rw [take_zero, slice_zero]
  · exact Nat.lt_succ_of_le (Nat.sub_le _ _)

theorem resume_ok {s : State} (h : Inv s) {p : Option Bytes} (hr : s.failed = none → Reading s r ∧
    (p = none ∨ p = some (pageAt NBT_PAGE_BYTES s.given ((r.offset + r.used) / NBT_PAGE_BYTES)))) :
    ReadOk s (resume s r p) := by
  unfold resume
  match p with
  | none => trivial
  | some data =>
    dsimp only
    match hcopy : r.copy data with
    | .error e => trivial
    | .ok r' =>
      refine readLoop_ok h _ _ (fun halive => ?_) (Nat.lt_succ_self _)
      obtain ⟨hreading, hlost | hdata⟩ := hr halive
      · cases hlost
      · exact (hreading.copy (some.inj hdata) hcopy).1

/-! ## What the writer keeps -/

theorem Filled.fill {s : State} {part : Bytes} (h : Filled s (part ++ rest))
    (hroom : s.pendingLength + part.length ≤ NBT_PAGE_BYTES) :
    Filled { s with
      pending := overwrite s.pending s.pendingLength part, pendingLength := s.pendingLength + part.length } rest := by
  have hbuffer := h.buffer
  have hcome : (s.given.drop (s.base + s.pendingLength)).length = part.length + rest.length := by
    rw [h.rest, length_append]
  rw [length_drop] at hcome
  have hold := h.inside
  have hpart : part = slice s.given (s.base + s.pendingLength) part.length := by
    rw [slice, h.rest, take_left]
  have htail : (overwrite s.pending s.pendingLength part).take (s.pendingLength + part.length)
      = slice s.given s.base (s.pendingLength + part.length) := by
    rw [overwrite_take (by omega), h.tail, ← slice_append_slice, ← hpart]
  refine ⟨?_, ?_, htail, ?_, h.pages⟩
  · simp only
    rw [overwrite_length (by omega), hbuffer]
  · simp only [State.base] at hcome hold ⊢
    omega
  · have hrest : s.given.drop (s.base + (s.pendingLength + part.length)) = rest := by
      rw [← Nat.add_assoc, ← drop_drop, h.rest, drop_left]
    exact hrest

theorem Idle.advance {s : State} {count : Nat} (h : Filled s rest) (hshort : s.pendingLength < NBT_PAGE_BYTES)
    (hcount : s.length + count = s.base + s.pendingLength) : Idle (advance s count) rest := by
  have hpage : (s.length + count) / NBT_PAGE_BYTES = s.length / NBT_PAGE_BYTES := by
    simp only [State.base, NBT_PAGE_BYTES] at hcount hshort ⊢
    omega
  have hbase : (ByteSpool.advance s count).base = s.base := congrArg (· * NBT_PAGE_BYTES) hpage
  refine ⟨⟨h.buffer, ?_, ?_, ?_, ?_⟩, hshort, ?_⟩
  · rw [hbase]
    exact h.inside
  · rw [hbase]
    exact h.tail
  · rw [hbase]
    exact h.rest
  · intro p hp
    exact h.pages p (hpage ▸ hp)
  · rw [hbase]
    exact hcount

theorem Idle.stored {s : State} {count : Nat} (h : Filled s rest) (hfull : s.pendingLength = NBT_PAGE_BYTES)
    (hcount : s.length + count = s.base + NBT_PAGE_BYTES)
    (htaken : s.cache (s.length / NBT_PAGE_BYTES) = none ∨ s.cache (s.length / NBT_PAGE_BYTES) = some s.pending) :
    Idle (ByteSpool.advance { s with pending := zeros s.pending.length, pendingLength := 0 } count) rest := by
  set t := ByteSpool.advance { s with pending := zeros s.pending.length, pendingLength := 0 } count with ht
  have hpage : (s.length + count) / NBT_PAGE_BYTES = s.length / NBT_PAGE_BYTES + 1 := by
    simp only [State.base, NBT_PAGE_BYTES] at hcount ⊢
    omega
  have hbase : t.base = s.base + NBT_PAGE_BYTES := by
    refine (congrArg (· * NBT_PAGE_BYTES) hpage).trans ?_
    simp only [State.base, Nat.add_mul, Nat.one_mul]
  have hinside := h.inside
  have hrest := h.rest
  rw [hfull] at hinside hrest
  refine ⟨⟨(zeros_length _).trans h.buffer, ?_, ?_, ?_, ?_⟩, (by decide : 0 < NBT_PAGE_BYTES), ?_⟩
  · rw [hbase, show t.pendingLength = 0 from rfl, Nat.add_zero]
    exact hinside
  · exact (slice_zero _ _).symm
  · rw [hbase, show t.pendingLength = 0 from rfl, Nat.add_zero]
    exact hrest
  · intro p hp
    have hlt : p < s.length / NBT_PAGE_BYTES + 1 := hpage ▸ hp
    rcases Nat.lt_succ_iff_lt_or_eq.mp hlt with hold | rfl
    · exact h.pages p hold
    · refine htaken.imp id fun hpending => hpending.trans (congrArg some ?_)
      have htail := h.tail
      rw [hfull, take_of_length_le h.buffer.le] at htail
      exact htail
  · rw [hbase, show t.pendingLength = 0 from rfl, Nat.add_zero]
    exact hcount

theorem Order.same {s t : State} (h : Order s) (hqueue : t.queue = s.queue) (hfinishing : t.finishing = s.finishing)
    (hfinished : t.finished = s.finished)
    (hwriting : ∀ w, t.writing = some w → w.rest = .finish → ∃ w', s.writing = some w' ∧ w'.rest = .finish) : Order t := by
  refine ⟨?_, ?_, ?_⟩
  · rw [hqueue]
    exact h.last
  · rw [hqueue, hfinishing]
    intro hunasked
    obtain ⟨hnone, hidle⟩ := h.asked hunasked
    refine ⟨hnone, fun w hw hrest => ?_⟩
    obtain ⟨w', hw', hrest'⟩ := hwriting w hw hrest
    exact hidle w' hw' hrest'
  · rw [hfinishing, hfinished]
    exact h.finished

theorem idle_inv {s : State} (horder : Order s) (hreads : ∀ r ∈ s.reads, ReadOk s r) (hidle : s.writing = none)
    (hopen : s.finished = false) (h : Idle s s.queued) : Inv s := by
  refine ⟨horder, fun _ => ?_, hreads⟩
  rw [WriterOk, hidle]
  exact ⟨fun _ => h, fun hfinished => absurd hfinished (by rw [hopen]; decide)⟩

theorem appendLoop_inv (snapshot : Bytes) (fuel : Nat) (s : State) (offset : Nat) (horder : Order s)
    (hreads : ∀ r ∈ s.reads, ReadOk s r) (hidle : s.writing = none) (halive : s.failed = none) (hopen : s.finished = false)
    (h : Idle s (snapshot.drop offset ++ s.queued)) (hfuel : snapshot.length - offset ≤ fuel) :
    Inv (appendLoop snapshot fuel s offset) := by
  induction fuel generalizing s offset with
  | zero =>
    rw [drop_eq_nil_of_le (by omega), nil_append] at h
    exact idle_inv horder hreads hidle hopen h
  | succ fuel ih =>
    rw [appendLoop]
    by_cases hmore : offset < snapshot.length
    · rw [if_pos hmore]
      set count := min (s.pending.length - s.pendingLength) (snapshot.length - offset) with hcount
      have hbuffer := h.buffer
      have hshort := h.short
      have hlength := h.length
      have hpart : (slice snapshot offset count).length = count := slice_length _ (by omega)
      have hsplit : snapshot.drop offset = slice snapshot offset count ++ snapshot.drop (offset + count) := by
        rw [slice, ← drop_drop, take_append_drop]
      have hbefore := h.toFilled
      rw [hsplit, append_assoc] at hbefore
      have hfilled := hbefore.fill (by rw [hpart]; omega)
      rw [hpart] at hfilled
      set s' : State := { s with
        pending := overwrite s.pending s.pendingLength (slice snapshot offset count)
        pendingLength := s.pendingLength + count } with hs'
      have hlater : Later s s' := ⟨id, prefix_rfl, fun hf => ⟨hf, rfl⟩, fun _ => ⟨le_rfl, fun _ => rfl⟩⟩
      have hinside : s.failed = none → s.length ≤ s.given.length := fun _ => hlength ▸ h.inside
      by_cases hfull : s.pendingLength + count = NBT_PAGE_BYTES
      · refine (if_pos hfull).symm ▸ ?_
        refine ⟨horder.same rfl rfl rfl ?_, fun _ => ?_, fun r hr => (hreads r hr).later hinside ?_⟩
        · rintro w ⟨⟩ hrest
          cases hrest
        · refine ⟨hopen, rfl, fun htaken => absurd htaken Bool.false_ne_true, ?_⟩
          refine ⟨⟨hfilled.buffer, hfilled.inside, hfilled.tail, hfilled.rest, hfilled.pages⟩, hfull, by omega, ?_, rfl⟩
          simp only [State.base] at hlength ⊢
          omega
        · exact ⟨id, prefix_rfl, fun hf => ⟨hf, rfl⟩, fun _ => ⟨le_rfl, fun _ => rfl⟩⟩
      · refine (if_neg hfull).symm ▸ ?_
        have hnext : Idle (advance s' count) (snapshot.drop (offset + count) ++ s.queued) := by
          refine Idle.advance hfilled (lt_of_le_of_ne (by simp only [hs']; omega) hfull) ?_
          simp only [hs', State.base] at hlength ⊢
          omega
        refine ih (advance s' count) (offset + count) (horder.same rfl rfl rfl ?_) ?_ hidle halive hopen hnext (by omega)
        · intro w hw
          rw [show (advance s' count).writing = s.writing from rfl, hidle] at hw
          cases hw
        · intro r hr
          obtain ⟨r₀, hr₀, rfl⟩ := List.mem_map.mp hr
          refine ((hreads r₀ hr₀).later hinside ?_).notify
          exact ⟨id, prefix_rfl, fun hf => ⟨hf, rfl⟩,
            fun _ => ⟨Nat.le_add_right _ _, fun hf => absurd hf (by rw [hopen]; decide)⟩⟩
    · rw [if_neg hmore]
      rw [drop_eq_nil_of_le (by omega), nil_append] at h
      exact idle_inv horder hreads hidle hopen h

theorem reads_later {s t : State} (hreads : ∀ r ∈ s.reads, ReadOk s r)
    (hinside : s.failed = none → s.length ≤ s.given.length) (h : Later s t) :
    (t.reads = s.reads ∨ t.reads = s.reads.map Read.notify) → ∀ r ∈ t.reads, ReadOk t r := by
  rintro (hsame | hwoken) r hr
  · rw [hsame] at hr
    exact (hreads r hr).later hinside h
  · rw [hwoken] at hr
    obtain ⟨r₀, hr₀, rfl⟩ := List.mem_map.mp hr
    exact ((hreads r₀ hr₀).later hinside h).notify

theorem Later.same {s t : State} (hfailed : t.failed = s.failed) (hgiven : t.given = s.given)
    (hfinished : t.finished = s.finished) (hlength : t.length = s.length) : Later s t :=
  ⟨fun h => hfailed ▸ h, by rw [hgiven], fun h => ⟨hfinished.trans h, hgiven⟩, fun _ => ⟨hlength.ge, fun _ => hlength⟩⟩

theorem fail_inv {s : State} (horder : Order s) (hreads : ∀ r ∈ s.reads, ReadOk s r)
    (hinside : s.failed = none → s.length ≤ s.given.length) (e : Failure) : Inv (fail s e) := by
  unfold fail
  split
  · next hfailed => exact ⟨horder, fun halive => absurd halive (by rw [hfailed]; exact some_ne_none _), hreads⟩
  · refine ⟨horder.same rfl rfl rfl fun w hw hrest => ⟨w, hw, hrest⟩, fun halive => (nomatch halive),
      reads_later hreads hinside ⟨fun halive => (nomatch halive), prefix_rfl, fun h => ⟨h, rfl⟩,
        fun halive => (nomatch halive)⟩ (.inr rfl)⟩

structure Ending (s : State) : Prop extends Idle s [] where
  unfinished : s.finished = false
  asked : s.finishing = true
  queue : s.queue = []
  last : 0 < s.pendingLength → s.cache (s.length / NBT_PAGE_BYTES) = none ∨
    s.cache (s.length / NBT_PAGE_BYTES) = some (s.pending.take s.pendingLength)

theorem finishEnd_inv {s : State} (horder : Order s) (hreads : ∀ r ∈ s.reads, ReadOk s r) (hidle : s.writing = none)
    (h : s.failed = none → Ending s) : Inv (finishEnd s) := by
  unfold finishEnd
  split
  · next hfailed => exact ⟨horder, fun halive => absurd halive (by rw [hfailed]; exact some_ne_none _), hreads⟩
  · next halive =>
    have hend := h halive
    have hlast := hend.last
    have hlength := hend.length
    have hinside := hend.inside
    have hnone := drop_eq_nil_iff.mp hend.rest
    have htotal : s.length = s.given.length := by omega
    refine ⟨⟨horder.last, fun hunasked => absurd (hend.asked.symm.trans hunasked) (by decide),
      fun _ => hend.asked⟩, fun _ => ?_, reads_later hreads (fun _ => htotal.le) ⟨id, prefix_rfl, ?_, ?_⟩ (.inr rfl)⟩
    · rw [WriterOk, show (wake { s with
        finished := true, pending := zeros s.pending.length, pendingLength := 0 }).writing = none from hidle]
      refine ⟨fun hf => (nomatch hf), fun _ => ⟨hend.queue, htotal, fun p hp => ?_⟩⟩
      by_cases hold : p < s.length / NBT_PAGE_BYTES
      · exact hend.pages p hold
      · have hshort := hend.short
        have hp' : p * NBT_PAGE_BYTES < s.length := hp
        have hpage : s.length / NBT_PAGE_BYTES = p := by
          simp only [NBT_PAGE_BYTES] at hp' hold ⊢
          omega
        have hbase : s.base = p * NBT_PAGE_BYTES := by rw [State.base, hpage]
        rw [hpage, hend.tail] at hlast
        have hrest : (s.given.drop s.base).length ≤ s.pendingLength := by
          rw [length_drop]
          omega
        have htail : slice s.given s.base s.pendingLength = pageAt NBT_PAGE_BYTES s.given p := by
          rw [pageAt, ← hbase, slice, slice, take_of_length_le hrest, take_of_length_le (hrest.trans hshort.le)]
        exact (hlast (by omega)).imp id fun hstored => hstored.trans (congrArg some htail)
    · intro hf
      rw [hend.unfinished] at hf
      cases hf
    · exact fun _ => ⟨le_rfl, fun _ => rfl⟩

theorem Order.pop {s : State} {queue : List Job} (h : Order s) (hqueue : s.queue = job :: queue) :
    Order { s with queue := queue } := by
  refine ⟨fun before after hsplit => ?_, fun hunasked => ?_, h.finished⟩
  · refine h.last (job :: before) after ?_
    rw [hqueue, cons_append]
    exact congrArg _ hsplit
  · obtain ⟨hnone, hidle⟩ := h.asked hunasked
    rw [hqueue, mem_cons, not_or] at hnone
    exact ⟨hnone.2, hidle⟩

theorem begin_append {s : State} (halive : s.failed = none) (hopen : s.finished = false) (snapshot : Bytes) :
    begin s (.append snapshot) = appendLoop snapshot snapshot.length s 0 := by
  simp only [begin, halive, hopen, Bool.false_eq_true, if_false]

theorem begin_finish {s : State} (halive : s.failed = none) (hopen : s.finished = false) :
    begin s .finish = if s.pendingLength ≠ 0 then
      { s with writing := some ⟨.finish, s.length / NBT_PAGE_BYTES, s.pending.take s.pendingLength, false⟩ }
    else finishEnd s := by
  rw [begin, halive, hopen]
  rfl

theorem begin_failed {s : State} {e : Failure} (hfailed : s.failed = some e) (job : Job) : begin s job = s := by
  cases job with
  | append snapshot => rw [begin, hfailed]
  | finish => rw [begin, hfailed]

structure Turn (s : State) (job : Job) : Prop where
  order : Order s
  reads : ∀ r ∈ s.reads, ReadOk s r
  inside : s.failed = none → s.length ≤ s.given.length
  idle : s.writing = none
  next : s.failed = none → s.finished = false ∧ Idle s (job.bytes ++ s.queued)
  last : job = .finish → s.queue = [] ∧ s.finishing = true

theorem Inv.turn {s : State} (h : Inv s) {queue : List Job} (hqueue : s.queue = job :: queue)
    (hidle : s.writing = none) : Turn { s with queue := queue } job := by
  have hinside (halive : s.failed = none) : s.length ≤ s.given.length := (h.inside halive).1
  refine ⟨h.order.pop hqueue, reads_later h.reads hinside (.same rfl rfl rfl rfl) (.inl rfl), hinside, hidle,
    fun halive => ?_, ?_⟩
  · have hwriter := h.writer halive
    rw [WriterOk, hidle] at hwriter
    obtain ⟨hopen, hcomplete⟩ := hwriter
    have hunfinished : s.finished = false := by
      refine Bool.eq_false_iff.mpr fun hfinished => ?_
      have hempty := (hcomplete hfinished).queue
      rw [hqueue] at hempty
      cases hempty
    have hnow := hopen hunfinished
    rw [State.queued, hqueue, flatMap_cons] at hnow
    exact ⟨hunfinished, ⟨hnow.buffer, hnow.inside, hnow.tail, hnow.rest, hnow.pages⟩, hnow.short, hnow.length⟩
  · rintro rfl
    refine ⟨h.order.last [] queue hqueue, ?_⟩
    cases hasked : s.finishing with
    | true => rfl
    | false =>
      refine absurd ?_ (h.order.asked hasked).1
      rw [hqueue]
      exact mem_cons_self

theorem begin_inv {s : State} (h : Turn s job) : Inv (begin s job) := by
  cases hfailed : s.failed with
  | some e =>
    rw [begin_failed hfailed]
    exact ⟨h.order, fun halive => absurd (hfailed.symm.trans halive) (some_ne_none _), h.reads⟩
  | none =>
    obtain ⟨hopen, hnow⟩ := h.next hfailed
    cases job with
    | append snapshot =>
      rw [begin_append hfailed hopen]
      exact appendLoop_inv snapshot _ _ 0 h.order h.reads h.idle hfailed hopen hnow le_rfl
    | finish =>
      obtain ⟨hempty, hasked⟩ := h.last rfl
      rw [State.queued, hempty] at hnow
      rw [begin_finish hfailed hopen]
      split
      · refine ⟨⟨h.order.last, fun hunasked => ?_, h.order.finished⟩, fun _ => ?_, ?_⟩
        · exact absurd (hasked.symm.trans hunasked) (by decide)
        · exact ⟨hopen, rfl, fun htaken => (nomatch htaken),
            ⟨⟨hnow.buffer, hnow.inside, hnow.tail, hnow.rest, hnow.pages⟩, hnow.short, hnow.length⟩, hempty, rfl⟩
        · exact reads_later h.reads h.inside (.same rfl rfl rfl rfl) (.inl rfl)
      · next hpart =>
        exact finishEnd_inv h.order h.reads h.idle fun _ => ⟨hnow, hopen, hasked, hempty, fun hpos => absurd hpos.ne' hpart⟩

theorem stored_failed {s : State} {e : Failure} (hfailed : s.failed = some e) (rest : Rest) : stored s rest = s := by
  cases rest with
  | append snapshot offset count => rw [stored, hfailed]
  | finish => rw [stored, finishEnd, hfailed]

theorem stored_append {s : State} (halive : s.failed = none) (snapshot : Bytes) (offset count : Nat) :
    stored s (.append snapshot offset count) = appendLoop snapshot (snapshot.length - offset)
      (advance { s with pending := zeros s.pending.length, pendingLength := 0 } count) offset := by
  rw [stored]
  split
  · next hfailed =>
    rw [halive] at hfailed
    cases hfailed
  · rfl

theorem Order.unwritten {s : State} (h : Order s) : Order { s with writing := none } :=
  h.same rfl rfl rfl fun _ hw => (nomatch hw)

/-- What holds when the page of a job was stored. -/
def After (s : State) : Rest → Prop
  | .append snapshot offset count =>
    s.finished = false ∧ Filled s (snapshot.drop offset ++ s.queued) ∧ s.pendingLength = NBT_PAGE_BYTES ∧
      s.length + count = s.base + NBT_PAGE_BYTES ∧
      (s.cache (s.length / NBT_PAGE_BYTES) = none ∨ s.cache (s.length / NBT_PAGE_BYTES) = some s.pending)
  | .finish => Ending s

theorem stored_inv {s : State} {rest : Rest} (horder : Order s) (hreads : ∀ r ∈ s.reads, ReadOk s r)
    (hinside : s.failed = none → s.length ≤ s.given.length) (hidle : s.writing = none)
    (h : s.failed = none → After s rest) : Inv (stored s rest) := by
  cases hfailed : s.failed with
  | some e =>
    rw [stored_failed hfailed]
    exact ⟨horder, fun halive => absurd (hfailed.symm.trans halive) (some_ne_none _), hreads⟩
  | none =>
    cases rest with
    | append snapshot offset count =>
      obtain ⟨hopen, hfilled, hfull, hcount, htaken⟩ := h hfailed
      rw [stored_append hfailed]
      refine appendLoop_inv snapshot _ _ offset ?_ ?_ hidle hfailed hopen (Idle.stored hfilled hfull hcount htaken) le_rfl
      · exact horder.same rfl rfl rfl fun w hw hrest => ⟨w, hw, hrest⟩
      · exact reads_later hreads hinside ⟨id, prefix_rfl, fun hf => ⟨hf, rfl⟩,
          fun _ => ⟨Nat.le_add_right _ _, fun hf => absurd hf (by rw [hopen]; decide)⟩⟩ (.inr rfl)
    | finish => exact finishEnd_inv horder hreads hidle h

theorem Inv.after {s : State} (h : Inv s) (halive : s.failed = none) {w : Write} (hw : s.writing = some w)
    (htaken : w.taken = true) : After { s with writing := none } w.rest := by
  have hwriter := h.writer halive
  rw [WriterOk, hw] at hwriter
  have hpage := hwriter.taken htaken
  rw [hwriter.page] at hpage
  have hsuspended := hwriter.suspended
  unfold Suspended at hsuspended
  match hrest : w.rest with
  | .append snapshot offset count =>
    rw [hrest] at hsuspended
    obtain ⟨hfilled, hfull, -, hcount, hbytes⟩ := hsuspended
    rw [hbytes] at hpage
    exact ⟨hwriter.unfinished, ⟨hfilled.buffer, hfilled.inside, hfilled.tail, hfilled.rest, hfilled.pages⟩, hfull, hcount,
      hpage⟩
  | .finish =>
    rw [hrest] at hsuspended
    obtain ⟨hend, hqueue, hbytes⟩ := hsuspended
    rw [hbytes] at hpage
    have hasked : s.finishing = true := by
      cases hasked : s.finishing with
      | true => rfl
      | false => exact absurd hrest ((h.order.asked hasked).2 w hw)
    exact ⟨⟨⟨hend.buffer, hend.inside, hend.tail, hend.rest, hend.pages⟩, hend.short, hend.length⟩, hwriter.unfinished,
      hasked, hqueue, fun _ => hpage⟩

/-! ## Every order of steps -/

theorem inv_start : Inv {} := by
  refine ⟨⟨?_, fun _ => ⟨not_mem_nil, fun w hw => (nomatch hw)⟩, fun h => (nomatch h)⟩, fun _ => ?_, ?_⟩
  · intro before after hsplit
    simp at hsplit
  · refine ⟨fun _ => ⟨⟨zeros_length _, Nat.zero_le _, ?_, rfl, fun p hp => ?_⟩, by decide, rfl⟩, fun h => (nomatch h)⟩
    · exact take_zero.trans (slice_zero _ _).symm
    · exact absurd hp (Nat.not_lt_zero _)
  · intro r hr
    exact absurd hr not_mem_nil

theorem Filled.append {s : State} (h : Filled s rest) (hlength : s.length ≤ s.given.length) (bytes : Bytes)
    (queue : List Job) : Filled { s with queue := queue, given := s.given ++ bytes } (rest ++ bytes) := by
  have hinside := h.inside
  refine ⟨h.buffer, ?_, ?_, ?_, fun p hp => ?_⟩
  · simp only [length_append]
    exact hinside.trans (Nat.le_add_right _ _)
  · simp only
    rw [h.tail]
    exact (slice_append_of_le hinside).symm
  · have hrest : (s.given ++ bytes).drop (s.base + s.pendingLength) = rest ++ bytes := by
      rw [drop_append_of_le_length hinside, h.rest]
    exact hrest
  · have hp' : p * NBT_PAGE_BYTES + NBT_PAGE_BYTES ≤ s.length := by
      simp only [NBT_PAGE_BYTES] at hp ⊢
      omega
    refine (h.pages p hp).imp id fun hpage => ?_
    simp only
    rw [hpage, pageAt, pageAt, slice_append_of_le (hp'.trans hlength)]

theorem step_append_inv {s : State} (h : Inv s) (hasked : s.finishing = false) (bytes : Bytes) :
    Inv { s with queue := s.queue ++ [.append bytes], given := s.given ++ bytes } := by
  have hinside (halive : s.failed = none) : s.length ≤ s.given.length := (h.inside halive).1
  obtain ⟨hnone, hwriting⟩ := h.order.asked hasked
  have hopen : s.finished = false := by
    refine Bool.eq_false_iff.mpr fun hfinished => ?_
    rw [h.order.finished hfinished] at hasked
    cases hasked
  have hqueued : ∀ rest, rest ++ State.queued { s with queue := s.queue ++ [.append bytes], given := s.given ++ bytes }
      = (rest ++ s.queued) ++ bytes := by
    intro rest
    simp only [State.queued, flatMap_append, flatMap_singleton, Job.bytes, append_assoc]
  refine ⟨⟨fun before after hsplit => ?_, fun _ => ⟨?_, hwriting⟩, h.order.finished⟩, fun halive => ?_, ?_⟩
  · have hmem : Job.finish ∈ s.queue ++ [.append bytes] := by
      simp only at hsplit
      rw [hsplit]
      exact mem_append_right _ mem_cons_self
    simp [hnone] at hmem
  · simp [hnone]
  · have hwriter := h.writer halive
    unfold WriterOk at hwriter ⊢
    simp only
    split at hwriter
    · next w hw =>
      have hsuspended := hwriter.suspended
      refine ⟨hwriter.unfinished, hwriter.page, hwriter.taken, ?_⟩
      unfold Suspended at hsuspended ⊢
      match hrest : w.rest with
      | .append snapshot offset count =>
        rw [hrest] at hsuspended
        obtain ⟨hfilled, hfull, hpos, hcount, hbytes⟩ := hsuspended
        refine ⟨?_, hfull, hpos, hcount, hbytes⟩
        rw [hqueued]
        exact hfilled.append (hinside halive) bytes _
      | .finish => exact absurd hrest (hwriting w hw)
    · have hnow := hwriter.1 hopen
      have hfilled := hnow.toFilled.append (hinside halive) bytes (s.queue ++ [.append bytes])
      refine ⟨fun _ => ⟨?_, hnow.short, hnow.length⟩, fun hfinished => ?_⟩
      · have hrest := hqueued []
        rw [nil_append, nil_append] at hrest
        rw [hrest]
        exact hfilled
      · rw [show State.finished _ = _ from hopen] at hfinished
        cases hfinished
  · refine reads_later h.reads hinside ⟨id, prefix_append _ _, fun hfinished => ?_, fun _ => ⟨le_rfl, fun _ => rfl⟩⟩ (.inl rfl)
    rw [hopen] at hfinished
    cases hfinished

theorem step_finish_inv {s : State} (h : Inv s) (hasked : s.finishing = false) :
    Inv { s with finishing := true, queue := s.queue ++ [.finish] } := by
  have hinside (halive : s.failed = none) : s.length ≤ s.given.length := (h.inside halive).1
  obtain ⟨hnone, hwriting⟩ := h.order.asked hasked
  have hqueued : State.queued { s with finishing := true, queue := s.queue ++ [.finish] } = s.queued := by
    simp only [State.queued, flatMap_append, flatMap_singleton, Job.bytes, append_nil]
  refine ⟨⟨fun before after hsplit => ?_, fun hunasked => (nomatch hunasked), fun _ => rfl⟩, fun halive => ?_, ?_⟩
  · rcases eq_nil_or_concat after with hnil | ⟨init, last, rfl⟩
    · exact hnil
    · refine absurd ?_ hnone
      simp only [concat_eq_append] at hsplit
      rw [← cons_append, ← append_assoc] at hsplit
      rw [(append_inj' hsplit rfl).1]
      exact mem_append_right _ mem_cons_self
  · have hwriter := h.writer halive
    unfold WriterOk at hwriter ⊢
    simp only
    split at hwriter
    · next w hw =>
      have hsuspended := hwriter.suspended
      refine ⟨hwriter.unfinished, hwriter.page, hwriter.taken, ?_⟩
      unfold Suspended at hsuspended ⊢
      match hrest : w.rest with
      | .append snapshot offset count =>
        rw [hrest] at hsuspended
        obtain ⟨hfilled, hmore⟩ := hsuspended
        refine ⟨?_, hmore⟩
        rw [hqueued]
        exact ⟨hfilled.buffer, hfilled.inside, hfilled.tail, hfilled.rest, hfilled.pages⟩
      | .finish => exact absurd hrest (hwriting w hw)
    · refine ⟨fun hopen => ?_, fun hfinished => ?_⟩
      · have hnow := hwriter.1 hopen
        rw [hqueued]
        exact ⟨⟨hnow.buffer, hnow.inside, hnow.tail, hnow.rest, hnow.pages⟩, hnow.short, hnow.length⟩
      · rw [h.order.finished hfinished] at hasked
        cases hasked
  · exact reads_later h.reads hinside (.same rfl rfl rfl rfl) (.inl rfl)

theorem Kept.evict {s t : State} (hgiven : t.given = s.given)
    (hcache : t.cache p = none ∨ t.cache p = s.cache p) (h : Kept s p) : Kept t p := by
  rcases hcache with hlost | hsame
  · exact .inl hlost
  · rw [Kept, hsame, hgiven]
    exact h

section Evict

variable {s : State} {cache : Nat → Option Bytes} {writing : Option Write} {reads : List Read}

theorem Filled.evict {rest : Bytes} (h : Filled s rest)
    (hcache : ∀ p < s.length / NBT_PAGE_BYTES, cache p = none ∨ cache p = s.cache p) :
    Filled { s with cache := cache, writing := writing, reads := reads } rest :=
  ⟨h.buffer, h.inside, h.tail, h.rest, fun p hp => Kept.evict (s := s) rfl (hcache p hp) (h.pages p hp)⟩

theorem Suspended.evict {w w' : Write} (h : Suspended s w) (hrest : w'.rest = w.rest) (hbytes : w'.bytes = w.bytes)
    (hcache : ∀ p < s.length / NBT_PAGE_BYTES, cache p = none ∨ cache p = s.cache p) :
    Suspended { s with cache := cache, writing := writing, reads := reads } w' := by
  unfold Suspended at h ⊢
  rw [hrest, hbytes]
  match hrest' : w.rest with
  | .append snapshot offset count =>
    rw [hrest'] at h
    obtain ⟨hfilled, hmore⟩ := h
    exact ⟨hfilled.evict hcache, hmore⟩
  | .finish =>
    rw [hrest'] at h
    obtain ⟨hend, hmore⟩ := h
    exact ⟨⟨hend.toFilled.evict hcache, hend.short, hend.length⟩, hmore⟩

theorem WriterOk.evict (h : WriterOk s) (hcache : ∀ p, cache p = none ∨ cache p = s.cache p) :
    WriterOk { s with cache := cache, reads := reads } := by
  unfold WriterOk at h ⊢
  simp only
  split at h
  · next w hw =>
    refine ⟨h.unfinished, h.page, fun htaken => ?_, ?_⟩
    · rcases hcache w.page with hlost | hsame
      · exact .inl hlost
      · simp only [hsame]
        exact h.taken htaken
    · rw [hw]
      exact h.suspended.evict rfl rfl fun p _ => hcache p
  · obtain ⟨hopen, hcomplete⟩ := h
    refine ⟨fun hunfinished => ?_, fun hfinished => ?_⟩
    · have hnow := hopen hunfinished
      exact ⟨hnow.toFilled.evict fun p _ => hcache p, hnow.short, hnow.length⟩
    · have hall := hcomplete hfinished
      exact ⟨hall.queue, hall.length, fun p hp => Kept.evict (s := s) rfl (hcache p) (hall.pages p hp)⟩

end Evict

theorem step_store_inv {s : State} (h : Inv s) {w : Write} (hw : s.writing = some w) :
    Inv { s with cache := Function.update s.cache w.page (some w.bytes), writing := some { w with taken := true } } := by
  refine ⟨h.order.same rfl rfl rfl ?_, fun halive => ?_, ?_⟩
  · rintro w' ⟨⟩ hrest
    exact ⟨w, hw, hrest⟩
  · have hwriter := h.writer halive
    rw [WriterOk, hw] at hwriter
    refine ⟨hwriter.unfinished, hwriter.page, fun _ => .inr (Function.update_self _ _ _), ?_⟩
    refine hwriter.suspended.evict rfl rfl fun p hp => .inr ?_
    have hother : p ≠ w.page := by
      rw [hwriter.page]
      exact hp.ne
    exact Function.update_of_ne hother _ _
  · exact reads_later h.reads (fun halive => (h.inside halive).1) (.same rfl rfl rfl rfl) (.inl rfl)

theorem step_evict_inv {s : State} (h : Inv s) (p : Nat) : Inv { s with cache := Function.update s.cache p none } := by
  have hcache (q : Nat) : Function.update s.cache p none q = none ∨ Function.update s.cache p none q = s.cache q := by
    by_cases hq : q = p
    · rw [hq]
      exact .inl (Function.update_self _ _ _)
    · exact .inr (Function.update_of_ne hq _ _)
  exact ⟨h.order.same rfl rfl rfl fun w hw hrest => ⟨w, hw, hrest⟩, fun halive => (h.writer halive).evict hcache,
    reads_later h.reads (fun halive => (h.inside halive).1) (.same rfl rfl rfl rfl) (.inl rfl)⟩

theorem step_reads_inv {s : State} (h : Inv s) {reads : List Read} (hreads : ∀ r ∈ reads, r ∈ s.reads ∨ ReadOk s r) :
    Inv { s with reads := reads } := by
  refine ⟨h.order.same rfl rfl rfl fun w hw hrest => ⟨w, hw, hrest⟩, fun halive => (h.writer halive).evict fun p => .inr rfl,
    fun r hr => ?_⟩
  exact ((hreads r hr).elim (h.reads r) id).later (fun halive => (h.inside halive).1) (.same rfl rfl rfl rfl)

theorem stepRead_ok {s : State} (h : Inv s) {r r' : Read} {a : ReadAction} (hr : ReadOk s r)
    (hstep : stepRead s r a = some r') : ReadOk s r' := by
  cases a with
  | recheck =>
    obtain ⟨-, hr'⟩ := ite_none_right_eq_some.mp hstep
    cases hr'
    exact wait_ok s r
  | proceed =>
    obtain ⟨hphase, hr'⟩ := ite_none_right_eq_some.mp hstep
    cases hr'
    rw [ReadOk, hphase] at hr
    exact proceed_ok h hr
  | fetch =>
    obtain ⟨hphase, hr'⟩ := ite_none_right_eq_some.mp hstep
    cases hr'
    rw [ReadOk, hphase] at hr
    intro halive
    obtain ⟨hreading, hmore, hstored⟩ := hr halive
    exact ⟨⟨hreading.counted, hreading.size, hreading.used, hreading.read⟩, hmore,
      (h.kept halive hstored).imp id fun hkept => ⟨hkept, hstored⟩⟩
  | resume =>
    rw [stepRead] at hstep
    split at hstep
    · next page hphase =>
      cases hstep
      rw [ReadOk, hphase] at hr
      refine resume_ok h fun halive => ?_
      obtain ⟨hreading, -, hpage⟩ := hr halive
      exact ⟨hreading, hpage.imp id fun hkept => hkept.1⟩
    · cases hstep
  | refuse e =>
    obtain ⟨-, hr'⟩ := ite_none_right_eq_some.mp hstep
    cases hr'
    exact trivial

theorem step_inv {s t : State} {a : Action} (h : Inv s) (hstep : step s a = some t) : Inv t := by
  have hinside (halive : s.failed = none) : s.length ≤ s.given.length := (h.inside halive).1
  cases a with
  | append bytes =>
    cases hasked : s.finishing with
    | true =>
      rw [step, if_pos hasked] at hstep
      cases hstep
      exact h
    | false =>
      rw [step, if_neg (by rw [hasked]; decide)] at hstep
      cases hstep
      exact step_append_inv h hasked bytes
  | finish =>
    cases hasked : s.finishing with
    | true =>
      rw [step, if_pos hasked] at hstep
      cases hstep
      exact h
    | false =>
      rw [step, if_neg (by rw [hasked]; decide)] at hstep
      cases hstep
      exact step_finish_inv h hasked
  | fail e =>
    cases hstep
    exact fail_inv h.order h.reads hinside e
  | begin =>
    simp only [step] at hstep
    split at hstep
    · next job queue hidle hqueue =>
      cases hstep
      exact begin_inv (h.turn hqueue hidle)
    · cases hstep
  | store =>
    obtain ⟨w, hw, rfl⟩ := map_eq_some_iff.mp hstep
    exact step_store_inv h hw
  | resolve =>
    simp only [step] at hstep
    split at hstep
    · next w hw =>
      obtain ⟨htaken, ht⟩ := ite_none_right_eq_some.mp hstep
      cases ht
      exact stored_inv h.order.unwritten (reads_later h.reads hinside (.same rfl rfl rfl rfl) (.inl rfl)) hinside rfl
        fun halive => h.after halive hw htaken
    · cases hstep
  | reject e =>
    obtain ⟨w, -, rfl⟩ := map_eq_some_iff.mp hstep
    exact fail_inv h.order.unwritten (reads_later h.reads hinside (.same rfl rfl rfl rfl) (.inl rfl)) hinside e
  | evict p =>
    cases hstep
    exact step_evict_inv h p
  | read offset length =>
    cases hstep
    refine step_reads_inv h fun r hr => ?_
    rcases mem_append.mp hr with hold | hnew
    · exact .inl hold
    · rw [mem_singleton.mp hnew]
      exact .inr (read_ok s offset length)
  | goOn i a =>
    obtain ⟨r, hget, hmap⟩ := bind_eq_some_iff.mp hstep
    obtain ⟨r', hr', rfl⟩ := map_eq_some_iff.mp hmap
    refine step_reads_inv h fun r₁ hr₁ => ?_
    rcases mem_or_eq_of_mem_set hr₁ with hold | rfl
    · exact .inl hold
    · exact .inr (stepRead_ok h (h.reads r (mem_of_getElem? hget)) hr')

theorem Reachable.inv {s : State} (h : Reachable s) : Inv s := by
  induction h with
  | start => exact inv_start
  | step a _ hstep ih => exact step_inv ih hstep

/-- A read of a growing spool that completes gives the bytes of its range, in every later state too: those of the range
in what all accepted appends gave, and fewer than asked for only when the end of the bytes is known. -/
theorem spool_reads_exact {s : State} (h : Reachable s) {r : Read} (hr : r ∈ s.reads) {bytes : Bytes}
    (hdone : r.phase = .done (.ok bytes)) :
    bytes = slice s.given r.offset r.length ∧ (bytes.length < r.length → s.finished = true) := by
  have hok := h.inv.reads r hr
  rw [ReadOk, hdone] at hok
  exact hok

def paged (page : Bytes) (reads : List Read) : State :=
  { length := NBT_PAGE_BYTES, given := page, cache := Function.update (fun _ => none) 0 (some page)
    finishing := true, finished := true, reads }

theorem paged_reachable {page : Bytes} (hlength : page.length = NBT_PAGE_BYTES) : Reachable (paged page []) := by
  have hfilled : Reachable
      { pending := page, pendingLength := NBT_PAGE_BYTES, given := page
        writing := some ⟨.append page NBT_PAGE_BYTES NBT_PAGE_BYTES, 0, page, false⟩ } := by
    have hwhole : slice page 0 65536 = page := by
      rw [slice, drop_zero, ← show page.length = 65536 from hlength, take_length]
    have hpending : overwrite (zeros 65536) 0 page = page := by simp [overwrite, hlength, NBT_PAGE_BYTES]
    refine .step .begin (.step (.append page) .start rfl) ?_
    simp [step, begin, appendLoop, hlength, hwhole, hpending, NBT_PAGE_BYTES]
  have hstored : Reachable
      { length := NBT_PAGE_BYTES, given := page, cache := Function.update (fun _ => none) 0 (some page) } := by
    refine .step .resolve (.step .store hfilled rfl) ?_
    simp [step, stored, appendLoop, advance, wake, hlength]
  refine .step .begin (.step .finish hstored rfl) ?_
  simp [step, begin, finishEnd, wake, paged]

theorem resume_done {s : State} {r r' : Read} {data : Bytes} (halive : s.failed = none) (hcopy : r.copy data = .ok r')
    (hall : r'.count ≤ r'.used) : resume s r (some data) = { r' with phase := .done (.ok r'.result) } := by
  simp [resume, hcopy, readLoop, halive, Nat.not_lt.mpr hall]

/-- The last byte of a full page, fetched from the cache after the finish by a read of two. -/
theorem spool_reads_exact_page : ∃ s, Reachable s ∧ s.finished = true ∧
    s.reads = [⟨NBT_PAGE_BYTES - 1, 2, 1, [7], 1, .done (.ok [7])⟩] ∧ [7] = slice s.given (NBT_PAGE_BYTES - 1) 2 := by
  obtain ⟨page, hlength, hlast⟩ : ∃ page : Bytes, page.length = NBT_PAGE_BYTES ∧ page.drop 65535 = [7] :=
    ⟨zeros 65535 ++ [7], by simp [NBT_PAGE_BYTES], drop_left' (zeros_length _)⟩
  have hzeros : zeros 1 = [0] := rfl
  have hread : Reachable (paged page [⟨NBT_PAGE_BYTES - 1, 2, 0, [], 0, .ready⟩]) := by
    refine .step (.read (NBT_PAGE_BYTES - 1) 2) (paged_reachable hlength) ?_
    simp [step, read, wait, assertRange, paged, NBT_PAGE_BYTES, maxSafeInteger]
  have hasked : Reachable (paged page [⟨NBT_PAGE_BYTES - 1, 2, 1, [0], 0, .fetching⟩]) := by
    refine .step (.goOn 0 .proceed) hread ?_
    simp [step, stepRead, proceed, readLoop, paged, hzeros, NBT_PAGE_BYTES]
  have hfetched : Reachable (paged page [⟨NBT_PAGE_BYTES - 1, 2, 1, [0], 0, .fetched (some page)⟩]) := by
    refine .step (.goOn 0 .fetch) hasked ?_
    simp [step, stepRead, paged, NBT_PAGE_BYTES]
  have hcopy : (⟨NBT_PAGE_BYTES - 1, 2, 1, [0], 0, .fetched (some page)⟩ : Read).copy page =
      .ok ⟨NBT_PAGE_BYTES - 1, 2, 1, [7], 1, .fetched (some page)⟩ := by
    simp [Read.copy, slice, overwrite, hlast, hlength, NBT_PAGE_BYTES]
  have hdone : Reachable (paged page [⟨NBT_PAGE_BYTES - 1, 2, 1, [7], 1, .done (.ok [7])⟩]) :=
    .step (.goOn 0 .resume) hfetched (congrArg (fun r => some (paged page [r])) (resume_done rfl hcopy le_rfl))
  exact ⟨_, hdone, rfl, rfl, (spool_reads_exact hdone (mem_singleton.mpr rfl) rfl).1⟩
end ByteSpool
end Cantrip.Nbt
