import Cantrip.Tunnels.Endings

/-!
# The broker's counters

A close frame to one side takes its number from the counter of the other side. `Books` holds the counters of the
connections against what was sent, and against the frames that are counted and still being handled: on the stack, or in
hand, between the callback that is answered and what follows from it. Here is what keeps the books when a frame is
counted, passed on or given up, when a `send` is answered, and when a close frame goes out.
-/

namespace Cantrip.Tunnels

open Lib List

theorem Side.other_inj {side side' : Side} : side.other = side'.other ↔ side = side' := by
  cases side <;> cases side' <;> simp [Side.other]

/-! ## What was sent -/

/-- A frame of connection `n` to one side. -/
def Entry.to (n : Nat) (side : Side) (entry : Entry) : Bool := entry.connection = some n && entry.recipient = side

def Entry.carries (n : Nat) (side : Side) (entry : Entry) : Bool := entry.to n side && entry.origin ≠ .closing

/-- The entry is a close frame of the broker for connection `n`. -/
def Entry.ends (n : Nat) (entry : Entry) : Bool := entry.connection = some n && entry.origin = .closing

/-- The frames of connection `n` to one side, without the closes of the broker. -/
def carried (n : Nat) (side : Side) (log : List Entry) : List Entry := log.filter (Entry.carries n side)

def expected (n : Nat) (side : Side) (log : List Entry) : Nat :=
  ((log.filter fun entry => entry.to n side && entry.delivered).getLast?.map fun entry => entry.header.sequence + 1).getD 0

/-- The frames to one side are numbered from 0, all delivered, and none is a close of the broker. -/
structure Plain (n : Nat) (side : Side) (log : List Entry) : Prop where
  open_ : ∀ entry ∈ log, entry.to n side → entry.origin ≠ .closing ∧ entry.delivered
  sequences : (log.filter (Entry.to n side)).map (fun entry => entry.header.sequence) =
    List.range (log.filter (Entry.to n side)).length

theorem Plain.expected_eq {n : Nat} {side : Side} {log : List Entry} (h : Plain n side log) :
    expected n side log = (log.filter (Entry.to n side)).length := by
  have hfilter : (log.filter fun entry => entry.to n side && entry.delivered) = log.filter (Entry.to n side) := by
    refine filter_congr fun entry hentry => ?_
    cases hto : entry.to n side with
    | false => rfl
    | true => rw [(h.open_ entry hentry hto).2, Bool.and_true]
  unfold expected
  rw [hfilter]
  obtain hnil | ⟨before, last, hlast⟩ := eq_nil_or_concat' (log.filter (Entry.to n side))
  · rw [hnil]
    rfl
  · have hsequences := h.sequences
    rw [hlast, map_append, map_singleton, length_append, length_singleton, range_succ] at hsequences
    have hsequence := singleton_inj.mp (append_inj' hsequences rfl).2
    rw [hlast, getLast?_concat, length_append, length_singleton, Option.map_some, Option.getD_some, hsequence]

def Entry.Fits (before : List Entry) (entry : Entry) : Prop :=
  entry.origin = .closing → ∀ n, entry.connection = some n → Plain n entry.recipient before ∧
    entry.header.sequence = (before.filter (Entry.to n entry.recipient)).length

section Log

variable {n : Nat} {side : Side} {log : List Entry} {entry : Entry}

theorem carries_iff : entry.carries n side ↔ (entry.connection = some n ∧ entry.recipient = side) ∧ entry.origin ≠ .closing := by
  unfold Entry.carries Entry.to
  rw [Bool.and_eq_true, Bool.and_eq_true, decide_eq_true_eq, decide_eq_true_eq, decide_eq_true_eq]

theorem carried_concat : carried n side (log ++ [entry]) = carried n side log ++ if entry.carries n side then [entry] else [] := by
  unfold carried
  rw [filter_append]
  cases hcarries : entry.carries n side <;> simp [hcarries]

theorem fits_concat (h : ∀ i (e : Entry), log[i]? = some e → e.Fits (log.take i)) (hentry : entry.Fits log) :
    ∀ i (e : Entry), (log ++ [entry])[i]? = some e → e.Fits ((log ++ [entry]).take i) := by
  intro i e he
  rw [getElem?_append] at he
  split at he
  · next hlt =>
    rw [take_append_of_le_length hlt.le]
    exact h i e he
  · next hge =>
    obtain ⟨hlt, rfl⟩ := List.getElem?_eq_some_iff.mp he
    rw [length_singleton] at hlt
    have hi : i = log.length := by omega
    subst hi
    simpa using hentry

end Log

def Task.frame? {Time : Type} : Task Time → Option (Nat × Side × Nat)
  | .callback (.judging n _ sender header _) => some (n, sender, header.sequence)
  | .callback (.charging n sender header _) => some (n, sender, header.sequence)
  | _ => none

/-- A `send` under way is that of the entry at its position, and a frame that is being judged belongs to the connection
and was allowed on it. -/
def Task.Points {Time : Type} (keys : List Utf16) (log : List Entry) : Task Time → Prop
  | .callback (.refusing i) => ∃ entry, log[i]? = some entry ∧ entry.connection = none
  | .callback (.judging n route sender header _) =>
    keys[n]? = some (connectionKey route header.connectionId) ∧ ∃ c : Connection Time, c.allowed sender header.kind
  | .callback (.sending n i) => ∃ entry, log[i]? = some entry ∧ entry.connection = some n ∧ entry.origin ≠ .closing
  | .callback (.closing _ i _) => ∃ entry, log[i]? = some entry ∧ entry.origin = .closing
  | _ => True

theorem Task.Points.mono {Time : Type} {keys keys' : List Utf16} {log log' : List Entry} {task : Task Time}
    (h : task.Points keys log) (hkeys : ∀ (i : Nat) (key : Utf16), keys[i]? = some key → keys'[i]? = some key)
    (hget : ∀ (i : Nat) (e : Entry), log[i]? = some e →
      ∃ e', log'[i]? = some e' ∧ e'.connection = e.connection ∧ e'.origin = e.origin) : task.Points keys' log' := by
  unfold Task.Points at h ⊢
  split at h
  · obtain ⟨e, he, hconnection⟩ := h
    obtain ⟨e', he', hconnection', -⟩ := hget _ e he
    exact ⟨e', he', hconnection'.trans hconnection⟩
  · exact h.imp_left (hkeys _ _)
  · obtain ⟨e, he, hconnection, horigin⟩ := h
    obtain ⟨e', he', hconnection', horigin'⟩ := hget _ e he
    exact ⟨e', he', hconnection'.trans hconnection, horigin' ▸ horigin⟩
  · obtain ⟨e, he, horigin⟩ := h
    obtain ⟨e', he', -, horigin'⟩ := hget _ e he
    exact ⟨e', he', horigin'.trans horigin⟩
  · trivial

theorem Task.Points.concat {Time : Type} {keys : List Utf16} {log : List Entry} {entry : Entry} {task : Task Time}
    (h : task.Points keys log) : task.Points keys (log ++ [entry]) := by
  refine h.mono (fun _ _ hk => hk) fun i e he => ⟨e, ?_, rfl, rfl⟩
  rw [getElem?_append_left (List.getElem?_eq_some_iff.mp he).1]
  exact he

def pending (n : Nat) (side : Side) (frames : List (Nat × Side × Nat)) : Nat :=
  frames.countP fun f => f.1 = n && f.2.1 = side

namespace Machine

variable {Time : Type} {options : Options Time} {m m' : Machine Time}

/-- The frames that are being judged or charged for, the innermost first. -/
def frames (m : Machine Time) : List (Nat × Side × Nat) := m.stack.filterMap Task.frame?

/-- The broker has sent a close frame for the connection. -/
def hasClosed (m : Machine Time) (n : Nat) : Bool := m.log.any (Entry.ends n)

/-- The close frame to the destination has still to be sent. -/
def owes (m : Machine Time) (n : Nat) : Bool := m.closings.any fun e => e.1 = n && e.2.isSome

theorem hasClosed_iff {n : Nat} : m.hasClosed n ↔ ∃ side, 0 < closes n side m.log := by
  unfold hasClosed closes
  simp only [any_eq_true, countP_pos_iff]
  constructor
  · rintro ⟨entry, hentry, hends⟩
    refine ⟨entry.recipient, entry, hentry, ?_⟩
    unfold Entry.closes
    rw [decide_eq_true rfl, Bool.and_true]
    exact hends
  · rintro ⟨side, entry, hentry, hcloses⟩
    unfold Entry.closes at hcloses
    exact ⟨entry, hentry, (Bool.and_eq_true_iff.mp hcloses).1⟩

theorem Quiet.hasClosed (h : Quiet m m') (n : Nat) : m'.hasClosed n = m.hasClosed n := by
  rw [Bool.eq_iff_iff, hasClosed_iff, hasClosed_iff]
  simp only [h.closes]

theorem Quiet.ending (h : Quiet m m') (n : Nat) : m'.ending n = m.ending n := by
  rw [Machine.ending, h.closings, Machine.ending]

theorem length_carried_settle (i : Nat) (delivered : Bool) (n : Nat) (side : Side) :
    (carried n side (m.settle i delivered).log).length = (carried n side m.log).length := by
  have hcarries : ∀ entry : Entry, (entry.answered delivered).carries n side = entry.carries n side := fun _ => rfl
  unfold carried
  rw [← countP_eq_length_filter, ← countP_eq_length_filter]
  exact countP_modify hcarries m.log i

/-! ## The books -/

def sequences (m : Machine Time) (side : Side) : List Nat := m.objects.map fun c => (c.flow side).sequence

/-- The counters agree with what was sent and with the frames that are being handled: those of the stack and those in
`hand`. The connection that is about to be ended over a frame is exempt. -/
structure Books (m : Machine Time) (hand : List (Nat × Side × Nat)) (exempt : Option Nat) : Prop where
  serials : m.objects.map Connection.serial = List.range m.objects.length
  keyed : ∀ e ∈ m.connections, (m.objects.map Connection.key)[e.2]? = some e.1
  keys : (m.connections.map Prod.fst).Nodup
  counter : ∀ e ∈ m.connections, exempt ≠ some e.2 → ∀ side,
    (m.sequences side)[e.2]? = some ((carried e.2 side.other m.log).length + pending e.2 side (hand ++ m.frames))
  single : ∀ n side, pending n side (hand ++ m.frames) ≤ 1
  number : ∀ f ∈ hand ++ m.frames, f.2.2 = (carried f.1 f.2.1.other m.log).length
  known : (∀ entry ∈ m.log, ∀ n, entry.connection = some n → n < m.objects.length) ∧
    (∀ f ∈ hand ++ m.frames, f.1 < m.objects.length) ∧ ∀ e ∈ m.closings, e.1 < m.objects.length
  numbers : ∀ n side, (carried n side m.log).map (fun entry => entry.header.sequence) =
    List.range (carried n side m.log).length
  taken : ∀ n, (n ∈ m.connections.map Prod.snd ∧ exempt ≠ some n) ∨ m.hasClosed n → ∀ side, ∀ entry ∈ carried n side m.log,
    entry.delivered
  once : (m.closings.map Prod.fst).Nodup
  next : ∀ e ∈ m.closings, ∀ entry, e.2 = some entry → (∀ n side, entry.closes n side = (decide (n = e.1) && side = .destination)) ∧
    entry.header.sequence = (carried e.1 .destination m.log).length ∧ pending e.1 .source (hand ++ m.frames) = 0 ∧
    m.hasClosed e.1 ∧ closes e.1 .destination m.log = 0
  sent : ∀ task ∈ m.stack, task.Points (m.objects.map Connection.key) m.log
  fits : ∀ i (entry : Entry), m.log[i]? = some entry → entry.Fits (m.log.take i)

namespace Books

variable {hand : List (Nat × Side × Nat)} {exempt : Option Nat} {task : Task Time} {rest tasks : List (Task Time)}

theorem new : (new : Machine Time).Books [] none := by
  refine ⟨rfl, ?_, nodup_nil, ?_, ?_, ?_, ?_, ?_, ?_, nodup_nil, ?_, ?_, ?_⟩ <;>
    simp [Machine.new, frames, closings, pending, carried, hasClosed]

/-- What the books do not see. -/
structure Alike (m m' : Machine Time) : Prop where
  serials : m'.objects.map Connection.serial = m.objects.map Connection.serial
  keys : m'.objects.map Connection.key = m.objects.map Connection.key
  sequences : ∀ side, m'.sequences side = m.sequences side
  connections : m'.connections = m.connections
  log : m'.log = m.log
  stack : m'.stack = m.stack

theorem alike (h : m.Books hand exempt) (halike : Alike m m') : m'.Books hand exempt := by
  obtain ⟨hserials, hkeys, hsequences, hconnections, hlog, hstack⟩ := halike
  have hlength : m'.objects.length = m.objects.length := by
    have hmap := congrArg length hserials
    rwa [length_map, length_map] at hmap
  have hframes : m'.frames = m.frames := by rw [frames, hstack, frames]
  have hclosings : m'.closings = m.closings := by rw [closings, hstack, closings]
  have hclosed : ∀ n, m'.hasClosed n = m.hasClosed n := fun n => by rw [hasClosed, hlog, hasClosed]
  refine ⟨?_, ?_, ?_, ?_, ?_, ?_, ?_, ?_, ?_, ?_, ?_, ?_, ?_⟩
  · rw [hserials, hlength]
    exact h.serials
  · rw [hconnections, hkeys]
    exact h.keyed
  · rw [hconnections]
    exact h.keys
  · rw [hconnections, hlog, hframes]
    intro e he hne side
    rw [hsequences]
    exact h.counter e he hne side
  · rw [hframes]
    exact h.single
  · rw [hframes, hlog]
    exact h.number
  · rw [hframes, hlog, hclosings, hlength]
    exact h.known
  · rw [hlog]
    exact h.numbers
  · intro n
    rw [hconnections, hclosed, hlog]
    exact h.taken n
  · rw [hclosings]
    exact h.once
  · intro e
    rw [hclosings, hframes, hclosed, hlog]
    exact h.next e
  · rw [hstack, hkeys, hlog]
    exact h.sent
  · rw [hlog]
    exact h.fits

theorem restack (h : m.Books hand exempt) {hand' : List (Nat × Side × Nat)} {stack : List (Task Time)}
    (hframes : hand' ++ stack.filterMap Task.frame? = hand ++ m.frames)
    (hclosings : (stack.filterMap Task.closing?).Sublist m.closings)
    (hsent : ∀ task ∈ stack, task.Points (m.objects.map Connection.key) m.log) : { m with stack }.Books hand' exempt := by
  have hframes' : hand' ++ { m with stack }.frames = hand ++ m.frames := hframes
  refine ⟨h.serials, h.keyed, h.keys, ?_, ?_, ?_, ?_, h.numbers, h.taken, ?_, ?_, hsent, h.fits⟩
  · rw [hframes']
    exact h.counter
  · rw [hframes']
    exact h.single
  · rw [hframes']
    exact h.number
  · rw [hframes']
    exact ⟨h.known.1, h.known.2.1, fun e he => h.known.2.2 e (hclosings.subset he)⟩
  · exact h.once.sublist (hclosings.map _)
  · rw [hframes']
    exact fun e he => h.next e (hclosings.subset he)

theorem frames_pop (hstack : m.stack = task :: rest) (hframe : task.frame? = none) : { m with stack := rest }.frames = m.frames := by
  rw [frames, frames, hstack, filterMap_cons_none hframe]

theorem pop (h : m.Books hand exempt) (hstack : m.stack = task :: rest) (hframe : task.frame? = none) :
    { m with stack := rest }.Books hand exempt := by
  apply h.restack
  · exact congrArg (hand ++ ·) (frames_pop hstack hframe)
  · rw [closings, hstack]
    exact (sublist_cons_self task rest).filterMap _
  · intro task htask
    apply h.sent
    rw [hstack]
    exact mem_cons_of_mem _ htask

variable {c : Connection Time} {frame : Nat × Side × Nat} {key : Utf16}

theorem popFrame (h : m.Books [] exempt) (hstack : m.stack = task :: rest)
    (hframe : task.frame? = some frame) : { m with stack := rest }.Books [frame] exempt := by
  apply h.restack
  · rw [frames, hstack, filterMap_cons_some hframe]
    rfl
  · rw [closings, hstack]
    exact (sublist_cons_self task rest).filterMap _
  · intro task htask
    apply h.sent
    rw [hstack]
    exact mem_cons_of_mem _ htask

theorem push (h : m.Books hand exempt)
    (htasks : ∀ task ∈ tasks, task.frame? = none ∧ task.closing? = none ∧ task.Points (m.objects.map Connection.key) m.log) :
    (m.push tasks).Books hand exempt := by
  apply h.restack
  · rw [filterMap_append, filterMap_eq_nil_iff.mpr fun task htask => (htasks task htask).1]
    rfl
  · rw [filterMap_append, filterMap_eq_nil_iff.mpr fun task htask => (htasks task htask).2.1]
    exact List.Sublist.refl _
  · intro task htask
    rcases mem_append.mp htask with htask | htask
    · exact (htasks task htask).2.2
    · exact h.sent task htask

theorem jobs (h : m.Books hand exempt) {α : Type} (f : α → Job Time) (l : List α) :
    (m.push (l.map fun a => .job (f a))).Books hand exempt := by
  refine h.push fun task htask => ?_
  obtain ⟨a, -, rfl⟩ := mem_map.mp htask
  exact ⟨rfl, rfl, trivial⟩

theorem pushFrame (h : m.Books [frame] exempt) (task : Task Time) (hframe : task.frame? = some frame)
    (hclosing : task.closing? = none) (hpoints : task.Points (m.objects.map Connection.key) m.log) :
    (m.push [task]).Books [] exempt := by
  apply h.restack
  · rw [cons_append, nil_append, filterMap_cons_some hframe]
    rfl
  · rw [cons_append, nil_append, filterMap_cons_none hclosing]
    exact List.Sublist.refl _
  · intro task' htask
    rcases mem_cons.mp htask with rfl | htask
    · exact hpoints
    · exact h.sent task' htask

theorem pending_cons (n : Nat) (side : Side) (f : Nat × Side × Nat) (fs : List (Nat × Side × Nat)) :
    pending n side (f :: fs) = pending n side fs + if n = f.1 ∧ side = f.2.1 then 1 else 0 := by
  have hn : f.1 = n ↔ n = f.1 := eq_comm
  have hside : f.2.1 = side ↔ side = f.2.1 := eq_comm
  unfold pending
  rw [countP_cons]
  simp [hn, hside]

theorem exempting (h : m.Books hand none) (exempt : Option Nat) : m.Books hand exempt :=
  { h with counter := fun e he _ => h.counter e he (by simp),
           taken := fun n hn => h.taken n (hn.imp_left fun hn => ⟨hn.1, by simp⟩) }

theorem drop (h : m.Books [frame] exempt)
    (hgone : exempt = some frame.1 ∨ frame.1 ∉ m.connections.map Prod.snd) : m.Books [] exempt := by
  have hle : ∀ n side, pending n side ([] ++ m.frames) ≤ pending n side ([frame] ++ m.frames) := by
    intro n side
    rw [cons_append, nil_append, pending_cons]
    exact Nat.le_add_right _ _
  refine { h with counter := fun e he hne side => ?_, single := fun n side => (hle n side).trans (h.single n side),
                  number := fun f hf => h.number f (mem_cons_of_mem _ hf),
                  known := ⟨h.known.1, fun f hf => h.known.2.1 f (mem_cons_of_mem _ hf), h.known.2.2⟩,
                  next := fun e he entry hentry => ?_ }
  · have hcounter := h.counter e he hne side
    have hother : e.2 ≠ frame.1 := by
      rintro heq
      rcases hgone with rfl | hgone
      · exact hne (congrArg some heq.symm)
      · exact hgone (heq ▸ mem_map_of_mem he)
    rw [cons_append, nil_append, pending_cons, if_neg fun hsame => hother hsame.1, Nat.add_zero] at hcounter
    exact hcounter
  · obtain ⟨hcloses, hnumber, hpending, hclosed⟩ := h.next e he entry hentry
    exact ⟨hcloses, hnumber, Nat.le_zero.mp ((hle e.1 .source).trans hpending.le), hclosed⟩

theorem fail (h : m.Books hand exempt) (n : Nat) (reason : CloseCode) (lost : Bool) : (m.fail n reason lost).Books hand exempt := by
  refine h.push fun task htask => ?_
  rw [mem_singleton.mp htask]
  exact ⟨rfl, rfl, trivial⟩

theorem hasClosed_record (n : Nat) (entry : Entry) : (m.record entry).hasClosed n = (m.hasClosed n || entry.ends n) := by
  simp [hasClosed, Machine.record]

theorem record (h : m.Books hand exempt) {entry : Entry} (hentry : entry.connection = none) :
    (m.record entry).Books hand exempt := by
  have hcarried : ∀ n side, carried n side (m.log ++ [entry]) = carried n side m.log := by
    intro n side
    rw [carried_concat]
    simp [Entry.carries, Entry.to, hentry]
  have hclosed : ∀ n, (m.record entry).hasClosed n = m.hasClosed n := by
    intro n
    rw [hasClosed_record]
    simp [Entry.ends, hentry]
  have hcloses : ∀ n side, closes n side (m.log ++ [entry]) = closes n side m.log := by
    intro n side
    rw [closes_append]
    simp [Entry.closes, hentry]
  refine ⟨h.serials, h.keyed, h.keys, ?_, h.single, ?_, ⟨?_, h.known.2⟩, ?_, ?_, h.once, ?_, ?_, ?_⟩
  · intro e he hne side
    rw [Machine.record, hcarried]
    exact h.counter e he hne side
  · intro f hf
    rw [Machine.record, hcarried]
    exact h.number f hf
  · intro e he n hn
    rcases mem_append.mp he with he | he
    · exact h.known.1 e he n hn
    · rw [mem_singleton.mp he, hentry] at hn
      cases hn
  · intro n side
    rw [Machine.record, hcarried]
    exact h.numbers n side
  · intro n hn side
    rw [hclosed] at hn
    rw [Machine.record, hcarried]
    exact h.taken n hn side
  · intro e he entry' hentry'
    rw [hclosed, Machine.record, hcarried, hcloses]
    exact h.next e he entry' hentry'
  · exact fun task htask => (h.sent task htask).concat
  · apply fits_concat h.fits
    intro _ n hn
    rw [hentry] at hn
    cases hn

theorem forward {n : Nat} {sender : Side} {header : Header} (h : m.Books [(n, sender, header.sequence)] none)
    (hserial : c.serial = n) (payload : Bytes) :
    (m.record (Broker.forwardEntry c sender header payload true)).Books [] none := by
  have hcarries : ∀ k side, (Broker.forwardEntry c sender header payload true).carries k side =
      (decide (k = n) && decide (side = sender.other)) := by
    intro k side
    have hk : n = k ↔ k = n := eq_comm
    have hside : sender.other = side ↔ side = sender.other := eq_comm
    simp [Entry.carries, Entry.to, Broker.forwardEntry, hserial, hk, hside]
  have hcarried : ∀ k side, carried k side (m.log ++ [Broker.forwardEntry c sender header payload true]) =
      carried k side m.log ++ if k = n ∧ side = sender.other then [Broker.forwardEntry c sender header payload true] else [] := by
    intro k side
    rw [carried_concat, hcarries]
    simp
  have hlength : ∀ k side, (carried k side (m.log ++ [Broker.forwardEntry c sender header payload true])).length =
      (carried k side m.log).length + if k = n ∧ side = sender.other then 1 else 0 := by
    intro k side
    rw [hcarried, length_append]
    split <;> rfl
  have hpending : ∀ k side, pending k side ([(n, sender, header.sequence)] ++ m.frames) =
      pending k side ([] ++ m.frames) + if k = n ∧ side = sender then 1 else 0 := fun k side => pending_cons k side _ _
  have hclosed : ∀ k, (m.record (Broker.forwardEntry c sender header payload true)).hasClosed k = m.hasClosed k := by
    intro k
    rw [hasClosed_record]
    simp [Entry.ends, Broker.forwardEntry]
  have hcloses : ∀ k side, closes k side (m.log ++ [Broker.forwardEntry c sender header payload true]) = closes k side m.log := by
    intro k side
    rw [closes_append]
    simp [Entry.closes, Broker.forwardEntry]
  have hnumber : header.sequence = (carried n sender.other m.log).length := h.number _ mem_cons_self
  refine ⟨h.serials, h.keyed, h.keys, ?_, ?_, ?_, ⟨?_, ?_, h.known.2.2⟩, ?_, ?_, h.once, ?_, ?_, ?_⟩
  · intro e he hne side
    have hcounter := h.counter e he hne side
    rw [hpending, ← Nat.add_assoc] at hcounter
    rw [Machine.record, hlength, Nat.add_right_comm]
    simp only [Side.other_inj]
    exact hcounter
  · intro k side
    have hle := h.single k side
    rw [hpending] at hle
    exact (Nat.le_add_right _ _).trans hle
  · -- no other frame of this sender is being handled
    intro f hf
    have hother : ¬(f.1 = n ∧ f.2.1.other = sender.other) := by
      rw [Side.other_inj]
      rintro ⟨rfl, rfl⟩
      have hle := h.single f.1 f.2.1
      have hpos : 0 < pending f.1 f.2.1 ([] ++ m.frames) := countP_pos_iff.mpr ⟨f, hf, by simp⟩
      rw [hpending, if_pos ⟨rfl, rfl⟩] at hle
      omega
    rw [Machine.record, hlength, if_neg hother]
    exact h.number f (mem_cons_of_mem _ hf)
  · intro entry hentry k hk
    rcases mem_append.mp hentry with hentry | hentry
    · exact h.known.1 entry hentry k hk
    · rw [mem_singleton.mp hentry] at hk
      obtain rfl : c.serial = k := Option.some.inj hk
      rw [hserial]
      exact h.known.2.1 _ mem_cons_self
  · exact fun f hf => h.known.2.1 f (mem_cons_of_mem _ hf)
  · intro k side
    rw [Machine.record, hlength, hcarried, map_append, h.numbers]
    split
    · next hsame =>
      rw [map_singleton, range_succ, hsame.1, hsame.2, ← hnumber]
      rfl
    · rw [map_nil, append_nil, Nat.add_zero]
  · intro k hk side entry hentry
    rw [hclosed] at hk
    rw [Machine.record, hcarried] at hentry
    rcases mem_append.mp hentry with hold | hnew
    · exact h.taken k hk side entry hold
    · split at hnew
      · rw [mem_singleton.mp hnew]
        rfl
      · cases hnew
  · intro e he entry hentry
    obtain ⟨hof, hnext, hnone, hhas, hzero⟩ := h.next e he entry hentry
    rw [hpending] at hnone
    have hother : ¬(e.1 = n ∧ Side.destination = sender.other) := by
      rintro ⟨hn, hside⟩
      have hsource : Side.source = sender := Side.other_inj.mp hside
      rw [if_pos ⟨hn, hsource⟩] at hnone
      omega
    rw [hclosed, Machine.record, hlength, if_neg hother, hcloses]
    exact ⟨hof, hnext, (Nat.add_eq_zero_iff.mp hnone).1, hhas, hzero⟩
  · exact fun task htask => (h.sent task htask).concat
  · apply fits_concat h.fits
    intro horigin
    cases horigin

/-- A `send` is answered. A frame that is not taken is of no connection, of one that is about to be ended over it, or of
one that has left the table without a close frame. -/
theorem settle (h : m.Books hand exempt) (i : Nat) {delivered : Bool}
    (htaken : delivered = true ∨ ∀ entry, m.log[i]? = some entry → ∀ n, entry.connection = some n → entry.origin ≠ .closing →
      m.hasClosed n = false ∧ (n ∉ m.connections.map Prod.snd ∨ exempt = some n)) :
    (m.settle i delivered).Books hand exempt := by
  have hcarries : ∀ n side (entry : Entry), (entry.answered delivered).carries n side = entry.carries n side :=
    fun _ _ _ => rfl
  have hsequence : ∀ entry : Entry, (entry.answered delivered).header.sequence = entry.header.sequence := fun _ => rfl
  have hmap : ∀ n side, (carried n side (m.settle i delivered).log).map (fun entry => entry.header.sequence) =
      (carried n side m.log).map fun entry => entry.header.sequence :=
    fun n side => map_filter_modify (hcarries n side) hsequence m.log i
  have hlength := @length_carried_settle _ m i delivered
  have hcloses : ∀ n side, closes n side (m.settle i delivered).log = closes n side m.log := (Quiet.settle i delivered).closes
  have hclosed : ∀ n, (m.settle i delivered).hasClosed n = m.hasClosed n := by
    have hends : ∀ n (entry : Entry), (entry.answered delivered).ends n = entry.ends n := fun _ _ => rfl
    exact fun n => any_modify (hends n) m.log i
  have hmem : ∀ log : List Entry, (∀ e, log[i]? = some e → m.log[i]? = some e) → ∀ n side, ∀ entry ∈ log.modify i (Entry.answered delivered),
      (∀ e ∈ log, e.carries n side → e.delivered) → (m.hasClosed n ∨ n ∈ m.connections.map Prod.snd ∧ exempt ≠ some n) →
      entry.carries n side → entry.delivered := by
    intro log hlog n side entry hentry hall hn hcarried
    rcases mem_modify hentry with hold | ⟨e, he, rfl⟩
    · exact hall entry hold hcarried
    · rcases htaken with rfl | htaken
      · rfl
      · have hparts := carries_iff.mp ((hcarries n side e).symm.trans hcarried)
        obtain ⟨hnot, hout⟩ := htaken e (hlog e he) n hparts.1.1 hparts.2
        rcases hn with hhas | ⟨hin, hne⟩
        · rw [hnot] at hhas
          cases hhas
        · exact absurd hout (not_or.mpr ⟨fun hgone => hgone hin, hne⟩)
  refine ⟨h.serials, h.keyed, h.keys, ?_, h.single, ?_, ⟨?_, h.known.2⟩, ?_, ?_, h.once, ?_, ?_, ?_⟩
  · intro e he hne side
    rw [hlength]
    exact h.counter e he hne side
  · intro f hf
    rw [hlength]
    exact h.number f hf
  · intro entry hentry n hn
    rcases mem_modify hentry with hold | ⟨e, he, rfl⟩
    · exact h.known.1 entry hold n hn
    · exact h.known.1 e (mem_of_getElem? he) n hn
  · intro n side
    rw [hmap, hlength]
    exact h.numbers n side
  · intro n hn side entry hentry
    rw [hclosed] at hn
    obtain ⟨hentry, hcarried⟩ := mem_filter.mp hentry
    refine hmem m.log (fun _ he => he) n side entry hentry (fun e he hcarried => ?_) hn.symm hcarried
    exact h.taken n hn side e (mem_filter.mpr ⟨he, hcarried⟩)
  · intro e he entry hentry
    rw [hclosed, hlength, hcloses]
    exact h.next e he entry hentry
  · refine fun task htask => (h.sent task htask).mono (fun _ _ hk => hk) fun j e he => ?_
    by_cases hij : i = j
    · exact ⟨e.answered delivered, by simp [Machine.settle, he, hij], rfl, rfl⟩
    · exact ⟨e, by simp [Machine.settle, he, hij], rfl, rfl⟩
  · intro j entry hentry
    rw [Machine.settle, getElem?_modify] at hentry
    obtain ⟨e, he, hsame⟩ := Option.map_eq_some_iff.mp hentry
    have hview : entry.origin = e.origin ∧ entry.connection = e.connection ∧ entry.recipient = e.recipient ∧
        entry.header = e.header := by
      rw [← hsame]
      split <;> exact ⟨rfl, rfl, rfl, rfl⟩
    intro horigin n hn
    obtain ⟨hplain, hnumber⟩ := h.fits j e he (hview.1 ▸ horigin) n (hview.2.1 ▸ hn)
    have hhas : m.hasClosed n := any_eq_true.mpr ⟨e, mem_of_getElem? he, by
      simp [Entry.ends, ← hview.1, ← hview.2.1, horigin, hn]⟩
    have htake : (m.settle i delivered).log.take j = (m.log.take j).modify i (Entry.answered delivered) := take_modify _ _ _ _
    have hto : ∀ side (e : Entry), (e.answered delivered).to n side = e.to n side := fun _ _ => rfl
    have hnumbers : (((m.log.take j).modify i (Entry.answered delivered)).filter (Entry.to n e.recipient)).map
        (fun f => f.header.sequence) = ((m.log.take j).filter (Entry.to n e.recipient)).map fun f => f.header.sequence :=
      map_filter_modify (hto e.recipient) hsequence _ i
    have hcount : (((m.log.take j).modify i (Entry.answered delivered)).filter (Entry.to n e.recipient)).length =
        ((m.log.take j).filter (Entry.to n e.recipient)).length := by
      have hlengths := congrArg length hnumbers
      rwa [length_map, length_map] at hlengths
    rw [htake, hview.2.2.1, hview.2.2.2]
    refine ⟨⟨fun f hf hfto => ?_, ?_⟩, ?_⟩
    · have hopen : f.origin ≠ .closing := by
        rcases mem_modify hf with hold | ⟨g, hg, rfl⟩
        · exact (hplain.open_ f hold hfto).1
        · exact (hplain.open_ g (mem_of_getElem? hg) hfto).1
      refine ⟨hopen, ?_⟩
      refine hmem (m.log.take j) (fun g hg => ?_) n e.recipient f hf (fun g hg hcarried => ?_) (.inl hhas) ?_
      · rw [getElem?_take] at hg
        split at hg
        · exact hg
        · cases hg
      · unfold Entry.carries at hcarried
        exact (hplain.open_ g hg (Bool.and_eq_true_iff.mp hcarried).1).2
      · unfold Entry.carries
        rw [hfto, Bool.true_and]
        exact decide_eq_true hopen
    · rw [hnumbers, hcount]
      exact hplain.sequences
    · rw [hcount]
      exact hnumber

theorem count (h : m.Books [] none) {n : Nat} {c' : Connection Time} {sender : Side} {sequence : Nat}
    (hc : m.objects[n]? = some c) (hin : n ∈ m.connections.map Prod.snd)
    (hsame : c'.serial = c.serial ∧ c'.key = c.key) (hsequence : sequence = (c.flow sender).sequence)
    (hcount : ∀ side, (c'.flow side).sequence = (c.flow side).sequence + if side = sender then 1 else 0)
    (hnone : pending n sender m.frames = 0) (howes : sender = .source → m.owes n = false) :
    (m.put n c').Books [(n, sender, sequence)] none := by
  have hlength : (m.put n c').objects.length = m.objects.length := length_set
  have hkeys : (m.put n c').objects.map Connection.key = m.objects.map Connection.key := map_set_of_eq hc hsame.2
  have hlt : n < m.objects.length := (List.getElem?_eq_some_iff.mp hc).1
  have hpending : ∀ k side, pending k side ([(n, sender, sequence)] ++ (m.put n c').frames) =
      pending k side ([] ++ m.frames) + if k = n ∧ side = sender then 1 else 0 := fun k side => pending_cons k side _ _
  have hcounter : ∀ side, (c.flow side).sequence = (carried n side.other m.log).length + pending n side ([] ++ m.frames) := by
    intro side
    obtain ⟨e, he, rfl⟩ := mem_map.mp hin
    have hcounter := h.counter e he (by simp) side
    rw [sequences, getElem?_map, hc] at hcounter
    exact Option.some.inj hcounter
  refine ⟨?_, ?_, h.keys, ?_, ?_, ?_, ⟨?_, ?_, ?_⟩, h.numbers, h.taken, h.once, ?_, ?_, h.fits⟩
  · rw [hlength, ← h.serials]
    exact map_set_of_eq hc hsame.1
  · rw [hkeys]
    exact h.keyed
  · intro e he hne side
    rw [hpending, ← Nat.add_assoc]
    by_cases hn : e.2 = n
    · subst hn
      rw [sequences, Machine.put, getElem?_map, getElem?_set_self hlt, Option.map_some, hcount, hcounter]
      simp
    · have hcounter := h.counter e he hne side
      have hother : ((m.put n c').sequences side)[e.2]? = (m.sequences side)[e.2]? := by
        rw [sequences, Machine.put, getElem?_map, getElem?_set_ne (Ne.symm hn), sequences, getElem?_map]
      rw [if_neg fun hsame => hn hsame.1, Nat.add_zero]
      exact hother.trans hcounter
  · intro k side
    rw [hpending]
    have hle := h.single k side
    split
    · next hsame =>
      rw [hsame.1, hsame.2]
      exact (congrArg (· + 1) hnone).le
    · exact hle
  · intro f hf
    rcases mem_cons.mp hf with rfl | hf
    · have hsender := hcounter sender
      rw [nil_append, hnone] at hsender
      exact hsequence.trans hsender
    · exact h.number f hf
  · rw [hlength]
    exact h.known.1
  · intro f hf
    rw [hlength]
    rcases mem_cons.mp hf with rfl | hf
    · exact hlt
    · exact h.known.2.1 f hf
  · rw [hlength]
    exact h.known.2.2
  · intro e he entry hentry
    obtain ⟨hof, hnext, hzero, hrest⟩ := h.next e he entry hentry
    refine ⟨hof, hnext, ?_, hrest⟩
    have hother : ¬(e.1 = n ∧ Side.source = sender) := by
      rintro ⟨rfl, hside⟩
      have hfalse := howes hside.symm
      have htrue : m.owes e.1 := any_eq_true.mpr ⟨e, he, by simp [hentry]⟩
      rw [hfalse] at htrue
      cases htrue
    rw [hpending, if_neg hother]
    exact hzero
  · rw [hkeys]
    exact h.sent

theorem mem_insert {n : Nat} {l : List (Utf16 × Nat)} {e : Utf16 × Nat} (he : e ∈ insert key n l) : e = (key, n) ∨ e ∈ l := by
  unfold insert at he
  split at he
  · next hany =>
    obtain ⟨b, hb, hsame⟩ := any_eq_true.mp hany
    obtain ⟨c, hc⟩ := @find?_isSome_of_mem _ _ _ Prod.fst l key (mem_map.mpr ⟨b, hb, of_decide_eq_true hsame⟩)
    exact mem_put hc he
  · exact (mem_append.mp he).symm.imp_left mem_singleton.mp

theorem keys_insert {n : Nat} {l : List (Utf16 × Nat)} (h : (l.map Prod.fst).Nodup) :
    ((insert key n l).map Prod.fst).Nodup := by
  unfold insert
  split
  · rw [map_key_put]
    exact h
  · next hany =>
    rw [map_append, map_singleton, nodup_append]
    refine ⟨h, nodup_singleton _, fun k hold k' hnew => ?_⟩
    obtain ⟨e, he, rfl⟩ := mem_map.mp hold
    rw [mem_singleton.mp hnew]
    exact fun hsame => hany (any_eq_true.mpr ⟨e, he, decide_eq_true hsame⟩)

theorem unclosed (h : m.Books hand exempt) : m.hasClosed m.objects.length = false := by
  refine any_eq_false.mpr fun entry hentry hends => ?_
  unfold Entry.ends at hends
  rw [Bool.and_eq_true, decide_eq_true_eq] at hends
  exact absurd (h.known.1 entry hentry _ hends.1) (Nat.lt_irrefl _)

theorem connect (h : m.Books [] none) (route : Route) (id : Utf16) (credit : Credit) (now : Time) :
    (m.connect route id credit now).Books [] none := by
  have hnew : ∀ side, carried m.objects.length side m.log = [] := by
    intro side
    refine filter_eq_nil_iff.mpr fun entry hentry hcarries => ?_
    exact absurd (h.known.1 entry hentry _ (carries_iff.mp hcarries).1.1) (Nat.lt_irrefl _)
  have hquiet : ∀ side, pending m.objects.length side m.frames = 0 := by
    refine fun side => countP_eq_zero.mpr fun f hf hof => ?_
    simp only [Bool.and_eq_true, decide_eq_true_eq] at hof
    exact absurd (hof.1 ▸ h.known.2.1 f hf) (Nat.lt_irrefl _)
  generalize hc : m.opening route id credit now = c
  have hserial : c.serial = m.objects.length := by rw [← hc]; rfl
  have hfirst : ∀ side, (c.flow side).sequence = if side = .source then 1 else 0 := by
    rw [← hc]
    intro side
    cases side <;> rfl
  have hconnect : m.connect route id credit now =
      ({ m with objects := m.objects ++ [c], connections := insert c.key c.serial m.connections,
                opened := m.opened + 1 }.record (Broker.connectEntry c credit true)).push
        [.callback (.sending c.serial m.log.length)] := by rw [← hc]; rfl
  have hcarried : ∀ k side, carried k side (m.log ++ [Broker.connectEntry c credit true]) = carried k side m.log ++
      if k = m.objects.length ∧ side = .destination then [Broker.connectEntry c credit true] else [] := by
    intro k side
    rw [carried_concat]
    have hcarries : (Broker.connectEntry c credit true).carries k side ↔ k = m.objects.length ∧ side = .destination := by
      rw [carries_iff, ← hserial]
      unfold Broker.connectEntry
      constructor
      · exact fun hof => ⟨(Option.some.inj hof.1.1).symm, hof.1.2.symm⟩
      · rintro ⟨rfl, rfl⟩
        exact ⟨⟨rfl, rfl⟩, fun horigin => Origin.noConfusion horigin⟩
    simp only [hcarries]
  have hold : ∀ k side, k < m.objects.length →
      carried k side (m.log ++ [Broker.connectEntry c credit true]) = carried k side m.log := by
    intro k side hk
    rw [hcarried, if_neg fun hsame => Nat.ne_of_lt hk hsame.1, append_nil]
  have hclosed : ∀ k, (m.connect route id credit now).hasClosed k = m.hasClosed k := by
    intro k
    rw [hconnect]
    apply (hasClosed_record k _).trans
    have hends : (Broker.connectEntry c credit true).ends k = false := by simp [Entry.ends, Broker.connectEntry]
    rw [hends, Bool.or_false]
    rfl
  have hcloses : ∀ k side, closes k side (m.log ++ [Broker.connectEntry c credit true]) = closes k side m.log := by
    intro k side
    rw [closes_append]
    simp [Entry.closes, Broker.connectEntry]
  have hlt : ∀ e ∈ m.connections, e.2 < m.objects.length := by
    intro e he
    have hkey := (List.getElem?_eq_some_iff.mp (h.keyed e he)).1
    rwa [length_map] at hkey
  have hlength : (m.objects ++ [c]).length = m.objects.length + 1 := by rw [length_append, length_singleton]
  rw [hconnect] at hclosed ⊢
  have hserials : (m.objects ++ [c]).map Connection.serial = range (m.objects ++ [c]).length := by
    rw [hlength, map_append, h.serials, map_singleton, hserial, range_succ]
  have hkept : ∀ (i : Nat) (key : Utf16), (m.objects.map Connection.key)[i]? = some key →
      ((m.objects ++ [c]).map Connection.key)[i]? = some key := by
    intro i key hkey
    rw [map_append, getElem?_append_left (List.getElem?_eq_some_iff.mp hkey).1]
    exact hkey
  have hkeyed : ∀ e ∈ insert c.key c.serial m.connections, ((m.objects ++ [c]).map Connection.key)[e.2]? = some e.1 := by
    intro e he
    rcases mem_insert he with rfl | he
    · rw [hserial, map_append, getElem?_append_right (by simp)]
      simp
    · exact hkept _ _ (h.keyed e he)
  have hcounter : ∀ e ∈ insert c.key c.serial m.connections, ∀ side,
      ((m.objects ++ [c]).map fun c => (c.flow side).sequence)[e.2]? =
        some ((carried e.2 side.other (m.log ++ [Broker.connectEntry c credit true])).length + pending e.2 side m.frames) := by
    intro e he side
    rw [map_append, map_singleton]
    rcases mem_insert he with rfl | he
    · rw [hserial, getElem?_append_right (by simp), hcarried, hnew, hquiet]
      cases side <;> simp [hfirst, Side.other]
    · rw [getElem?_append_left (by rw [length_map]; exact hlt e he), hold _ _ (hlt e he)]
      exact h.counter e he (by simp) side
  have hnumber : ∀ f ∈ m.frames, f.2.2 = (carried f.1 f.2.1.other (m.log ++ [Broker.connectEntry c credit true])).length := by
    intro f hf
    rw [hold _ _ (h.known.2.1 f hf)]
    exact h.number f hf
  have hentries : ∀ entry ∈ m.log ++ [Broker.connectEntry c credit true], ∀ k, entry.connection = some k →
      k < (m.objects ++ [c]).length := by
    intro entry hentry k hk
    rw [hlength]
    rcases mem_append.mp hentry with hentry | hentry
    · exact Nat.lt_succ_of_lt (h.known.1 entry hentry k hk)
    · rw [mem_singleton.mp hentry] at hk
      obtain rfl : c.serial = k := Option.some.inj hk
      rw [hserial]
      exact Nat.lt_succ_self _
  have hgrown : ∀ k, k < m.objects.length → k < (m.objects ++ [c]).length := fun k hk => hlength ▸ Nat.lt_succ_of_lt hk
  have hnumbers : ∀ k side, (carried k side (m.log ++ [Broker.connectEntry c credit true])).map (fun entry => entry.header.sequence) =
      range (carried k side (m.log ++ [Broker.connectEntry c credit true])).length := by
    intro k side
    rw [hcarried]
    split
    · next hsame =>
      rw [hsame.1, hnew]
      rfl
    · rw [append_nil]
      exact h.numbers k side
  refine ⟨hserials, hkeyed, keys_insert h.keys, fun e he _ => hcounter e he, h.single, hnumber,
    ⟨hentries, fun f hf => hgrown _ (h.known.2.1 f hf), fun e he => hgrown _ (h.known.2.2 e he)⟩, hnumbers, ?_, h.once,
    ?_, ?_, ?_⟩
  · intro k hk side entry hentry
    rw [hclosed] at hk
    rcases mem_append.mp (hcarried k side ▸ hentry) with hentry | hentry
    · refine h.taken k (hk.imp_left fun hin => ⟨?_, hin.2⟩) side entry hentry
      obtain ⟨e, he, rfl⟩ := mem_map.mp hin.1
      rcases mem_insert he with rfl | he
      · rw [hserial, hnew] at hentry
        cases hentry
      · exact mem_map_of_mem he
    · split at hentry
      · rw [mem_singleton.mp hentry]
        rfl
      · cases hentry
  · intro e he entry hentry
    obtain ⟨hof, hnext, hzero, hhas, hnone⟩ := h.next e he entry hentry
    refine ⟨hof, ?_, hzero, (hclosed e.1).trans hhas, (hcloses e.1 .destination).trans hnone⟩
    exact hnext.trans (congrArg length (hold _ _ (h.known.2.2 e he))).symm
  · intro task htask
    rcases mem_cons.mp htask with rfl | htask
    · refine ⟨Broker.connectEntry c credit true, ?_, rfl, fun horigin => Origin.noConfusion horigin⟩
      exact getElem?_concat_length
    · exact (h.sent task htask).concat.mono hkept fun i e he => ⟨e, he, rfl, rfl⟩
  · exact fits_concat h.fits fun horigin => Origin.noConfusion horigin

theorem hasClosed_sendClose {n : Nat} {entry : Entry} {next : Option Entry} (k : Nat) :
    (m.sendClose n entry next).hasClosed k = (m.hasClosed k || entry.ends k) := hasClosed_record k entry

theorem plain (h : m.Books hand exempt) {n : Nat} {side : Side} (hn : (n ∈ m.connections.map Prod.snd ∧ exempt ≠ some n) ∨ m.hasClosed n)
    (hnone : closes n side m.log = 0) :
    Plain n side m.log ∧ (m.log.filter (Entry.to n side)).length = (carried n side m.log).length := by
  have hopen : ∀ entry ∈ m.log, entry.to n side → entry.origin ≠ .closing := by
    intro entry hentry hto horigin
    have hpos : 0 < closes n side m.log := by
      refine countP_pos_iff.mpr ⟨entry, hentry, ?_⟩
      unfold Entry.to at hto
      unfold Entry.closes
      simp only [Bool.and_eq_true, decide_eq_true_eq] at hto ⊢
      exact ⟨⟨hto.1, horigin⟩, hto.2⟩
    omega
  have hsame : m.log.filter (Entry.to n side) = carried n side m.log := by
    refine filter_congr fun entry hentry => ?_
    unfold Entry.carries
    cases hto : entry.to n side with
    | false => rfl
    | true => rw [decide_eq_true (hopen entry hentry hto), Bool.and_true]
  refine ⟨⟨fun entry hentry hto => ⟨hopen entry hentry hto, ?_⟩, ?_⟩, congrArg length hsame⟩
  · refine h.taken n hn side entry (hsame ▸ mem_filter.mpr ⟨hentry, hto⟩)
  · rw [hsame]
    exact h.numbers n side

theorem sendClose (h : m.Books [] none) {n : Nat} {side : Side} {entry : Entry} (next : Option Entry)
    (hof : ∀ k side', entry.closes k side' = (decide (k = n) && decide (side' = side))) (hlt : n < m.objects.length)
    (hn : n ∈ m.connections.map Prod.snd ∨ m.hasClosed n) (hfirst : closes n side m.log = 0) (honce : m.ending n = false)
    (hnumber : entry.header.sequence = (carried n side m.log).length)
    (hnext : ∀ entry', next = some entry' → side = .source ∧ (∀ k side', entry'.closes k side' = (decide (k = n) && side' = .destination)) ∧
      entry'.header.sequence = (carried n .destination m.log).length ∧ pending n .source m.frames = 0 ∧
      closes n .destination m.log = 0) : (m.sendClose n entry next).Books [] none := by
  have hself : entry.closes n side := by rw [hof]; simp
  have hparts : (entry.connection = some n ∧ entry.origin = .closing) ∧ entry.recipient = side := by
    unfold Entry.closes at hself
    simpa using hself
  have hcarried : ∀ k side', carried k side' (m.log ++ [entry]) = carried k side' m.log := by
    intro k side'
    rw [carried_concat]
    simp [Entry.carries, hparts.1.2]
  have hclosed : ∀ k, (m.sendClose n entry next).hasClosed k = (m.hasClosed k || decide (k = n)) := by
    intro k
    rw [hasClosed_sendClose]
    have hk : n = k ↔ k = n := eq_comm
    simp [Entry.ends, hparts.1.1, hparts.1.2, hk]
  have hframes : (m.sendClose n entry next).frames = m.frames := rfl
  refine ⟨h.serials, h.keyed, h.keys, ?_, h.single, ?_, ⟨?_, h.known.2.1, ?_⟩, ?_, ?_, ?_, ?_, ?_, ?_⟩
  · intro e he hne side'
    have hcounter := h.counter e he hne side'
    rw [← hcarried] at hcounter
    exact hcounter
  · intro f hf
    have hnumber := h.number f hf
    rw [← hcarried] at hnumber
    exact hnumber
  · intro e he k hk
    rcases mem_append.mp he with he | he
    · exact h.known.1 e he k hk
    · rw [mem_singleton.mp he, hparts.1.1] at hk
      exact Option.some.inj hk ▸ hlt
  · intro e he
    rcases mem_cons.mp he with rfl | he
    · exact hlt
    · exact h.known.2.2 e he
  · intro k side'
    have hnumbers := h.numbers k side'
    rw [← hcarried] at hnumbers
    exact hnumbers
  · intro k hk side' e he
    rw [hclosed] at hk
    have he' : e ∈ carried k side' m.log := hcarried k side' ▸ he
    refine h.taken k ?_ side' e he'
    rcases hk with hk | hk
    · exact .inl hk
    · rcases Bool.or_eq_true_iff.mp hk with hk | hk
      · exact .inr hk
      · rw [of_decide_eq_true hk]
        exact hn.imp_left fun hin => ⟨hin, by simp⟩
  · refine nodup_cons.mpr ⟨fun hmem => ?_, h.once⟩
    obtain ⟨e, he, rfl⟩ := mem_map.mp hmem
    have hending : m.ending e.1 := any_eq_true.mpr ⟨e, he, by simp⟩
    rw [honce] at hending
    cases hending
  · intro e he entry' hentry'
    rcases mem_cons.mp he with rfl | hold
    · obtain ⟨hside, hof', hsequence, hzero, hnone⟩ := hnext entry' hentry'
      refine ⟨hof', hsequence.trans (congrArg length (hcarried n .destination)).symm, hzero, ?_, ?_⟩
      · rw [hclosed, decide_eq_true rfl, Bool.or_true]
      · apply (closes_append n .destination m.log entry).trans
        rw [hof, hnone, hside]
        simp
    · obtain ⟨hof', hsequence, hzero, hhas, hnone⟩ := h.next e hold entry' hentry'
      have hne : e.1 ≠ n := by
        rintro rfl
        have hending : m.ending e.1 := any_eq_true.mpr ⟨e, hold, by simp⟩
        rw [honce] at hending
        cases hending
      refine ⟨hof', hsequence.trans (congrArg length (hcarried e.1 .destination)).symm, hzero, ?_, ?_⟩
      · rw [hclosed, hhas, Bool.true_or]
      · apply (closes_append e.1 .destination m.log entry).trans
        rw [hof, hnone, decide_eq_false hne]
        simp
  · intro task htask
    rcases mem_cons.mp htask with rfl | htask
    · exact ⟨entry, getElem?_concat_length, hparts.1.2⟩
    · exact (h.sent task htask).concat
  · apply fits_concat h.fits
    intro _ k hk
    obtain rfl : n = k := Option.some.inj (hparts.1.1.symm.trans hk)
    obtain ⟨hplain, hcount⟩ := h.plain (hn.imp_left fun hin => ⟨hin, by simp⟩) hfirst
    rw [hparts.2]
    exact ⟨hplain, hnumber.trans hcount.symm⟩

theorem serial (h : m.Books hand exempt) {n : Nat} (hc : m.objects[n]? = some c) : c.serial = n := by
  have hlt : n < m.objects.length := (List.getElem?_eq_some_iff.mp hc).1
  have hserial := congrArg (fun l => l[n]?) h.serials
  simp only [getElem?_map, hc, getElem?_range hlt] at hserial
  exact Option.some.inj hserial

theorem find_of_mem (h : m.Books hand exempt) {e : Utf16 × Nat} (he : e ∈ m.connections) : m.find e.1 = some e.2 := by
  unfold Machine.find
  rw [find?_eq_of_mem h.keys he]
  rfl

theorem find_key (h : m.Books hand exempt) {n : Nat} (hn : n ∈ m.connections.map Prod.snd)
    (hkey : (m.objects.map Connection.key)[n]? = some key) : m.find key = some n := by
  obtain ⟨e, he, rfl⟩ := mem_map.mp hn
  rw [h.keyed e he] at hkey
  rw [← Option.some.inj hkey]
  exact h.find_of_mem he

theorem key_of_find (h : m.Books hand exempt) {n : Nat} (hfind : m.find key = some n) :
    n ∈ m.connections.map Prod.snd ∧ (m.objects.map Connection.key)[n]? = some key := by
  have hmem := Ledger.find_eq_some hfind
  exact ⟨mem_map_of_mem hmem, h.keyed _ hmem⟩

end Books

end Machine

end Cantrip.Tunnels
