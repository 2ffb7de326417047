import Cantrip.Lib.Unseen
import Cantrip.Tunnels.Reentrance
import Mathlib.Data.List.Nodup
import Mathlib.Data.List.Perm.Basic

/-!
# How often the broker ends a connection

What a step does to the table and to the close frames is one of a few things (`Moves`): a connection is put into the
table, its first close is sent, its second, it is taken out; every other step is quiet (`Quiet`). `Ledger` is kept by
all of them, as long as no callback crosses the ending of the connection that it is called for (`orderly`): then every
connection is closed once and counted once, and the one that leaves the table is the one that was to be ended.
-/

namespace Cantrip.Tunnels

open Lib List Option

/-! ## Closes -/

/-- The entry is a close frame of the broker to one side of connection `n`. -/
def Entry.closes (n : Nat) (side : Side) (entry : Entry) : Bool :=
  entry.connection = some n && entry.origin = .closing && entry.recipient = side

/-- How many close frames the broker has sent. -/
def closes (n : Nat) (side : Side) (log : List Entry) : Nat := log.countP (Entry.closes n side)

theorem closes_append (n : Nat) (side : Side) (log : List Entry) (entry : Entry) :
    closes n side (log ++ [entry]) = closes n side log + if entry.closes n side then 1 else 0 := by
  unfold closes
  rw [countP_append, countP_singleton]

theorem closes_closeEntry {Time : Type} (c : Connection Time) (reason : CloseCode) (recipient : Side) (delivered : Bool)
    (n : Nat) (side : Side) :
    (Broker.closeEntry c reason recipient delivered).closes n side = (decide (n = c.serial) && decide (side = recipient)) := by
  have hconnection : some c.serial = some n ↔ n = c.serial := by rw [some.injEq, eq_comm]
  have hside : recipient = side ↔ side = recipient := eq_comm
  simp [Entry.closes, Broker.closeEntry, hconnection, hside]

/-- The close frame that is under way, with the one after it. -/
def Task.closing? {Time : Type} : Task Time → Option (Nat × Option Entry)
  | .callback (.closing n _ next) => some (n, next)
  | _ => none

namespace Machine

variable {Time : Type} {options : Options Time} {m m' m'' : Machine Time}

/-- The connections whose close frames are being sent, the innermost first. -/
def closings (m : Machine Time) : List (Nat × Option Entry) := m.stack.filterMap Task.closing?

/-- A close frame for connection `n` is under way. -/
def ending (m : Machine Time) (n : Nat) : Bool := m.closings.any fun e => e.1 = n

/-- Under the key of connection `n` there is no other. -/
def unshared (m : Machine Time) (n : Nat) : Bool := (m.holder n).all fun k => k = n

theorem holder_of_unshared {n : Nat} (h : m.unshared n) : m.holder n = none ∨ m.holder n = some n := by
  unfold unshared at h
  cases hholder : m.holder n with
  | none => exact .inl rfl
  | some k =>
    rw [hholder] at h
    exact .inr (congrArg some (of_decide_eq_true h))

/-- The input does not let a call end a connection whose close frames are being sent, or one after which another was
opened under its key, nor open one under a key that is taken. -/
def orderly (m : Machine Time) (input : Input Time) : Bool :=
  match m.stack, input with
  | .job (.terminate n _ _) :: _, .proceed _ => (m.holder n).isNone || (m.unshared n && !m.ending n)
  | .job (.finish n) :: _, .proceed _ => m.unshared n
  | .callback (.closing n _ none) :: _, .answer _ _ => m.unshared n
  | .callback (.admitting route id _) :: _, .answer true _ =>
    !m.currentRoute route || (m.find (connectionKey route id)).isNone
  | _, _ => true

def runsOrderly (options : Options Time) : Machine Time → List (Input Time) → Bool
  | _, [] => true
  | m, input :: inputs => m.orderly input && runsOrderly options (m.step options input) inputs

/-! ## What a step does -/

/-- The table, what was counted, the connections' keys and the close frames are as before. -/
structure Quiet (m m' : Machine Time) : Prop where
  connections : m'.connections = m.connections
  opened : m'.opened = m.opened
  closed : m'.closed = m.closed
  terminations : m'.terminations = m.terminations
  terminated : m'.terminated = m.terminated
  finished : m'.finished = m.finished
  serials : m'.objects.map Connection.serial = m.objects.map Connection.serial
  keys : m'.objects.map Connection.key = m.objects.map Connection.key
  closes : ∀ n side, closes n side m'.log = closes n side m.log
  closings : m'.closings = m.closings

namespace Quiet

theorem refl (m : Machine Time) : Quiet m m := ⟨rfl, rfl, rfl, rfl, rfl, rfl, rfl, rfl, fun _ _ => rfl, rfl⟩

theorem trans (h : Quiet m m') (h' : Quiet m' m'') : Quiet m m'' :=
  ⟨h'.connections.trans h.connections, h'.opened.trans h.opened, h'.closed.trans h.closed,
    h'.terminations.trans h.terminations, h'.terminated.trans h.terminated, h'.finished.trans h.finished,
    h'.serials.trans h.serials, h'.keys.trans h.keys, fun n side => (h'.closes n side).trans (h.closes n side),
    h'.closings.trans h.closings⟩

theorem push {tasks : List (Task Time)} (h : ∀ task ∈ tasks, task.closing? = none) : Quiet m (m.push tasks) := by
  refine { refl m with closings := ?_ }
  unfold Machine.closings Machine.push
  rw [filterMap_append, filterMap_eq_nil_iff.mpr h, nil_append]

theorem pop {task : Task Time} {rest : List (Task Time)} (hstack : m.stack = task :: rest) (h : task.closing? = none) :
    Quiet m { m with stack := rest } := by
  refine { refl m with closings := ?_ }
  unfold Machine.closings
  rw [hstack, filterMap_cons_none h]

theorem record {entry : Entry} (h : entry.origin ≠ .closing) : Quiet m (m.record entry) := by
  refine { refl m with closes := fun n side => ?_ }
  simp [Machine.record, Tunnels.closes, Entry.closes, h]

theorem settle (i : Nat) (delivered : Bool) : Quiet m (m.settle i delivered) := by
  refine { refl m with closes := fun n side => ?_ }
  have hunseen : ∀ entry : Entry, (entry.answered delivered).closes n side = entry.closes n side := fun _ => rfl
  exact countP_modify hunseen m.log i

theorem put {n : Nat} {c c' : Connection Time} (hc : m.objects[n]? = some c) (hsame : c'.serial = c.serial ∧ c'.key = c.key) :
    Quiet m (m.put n c') := by
  refine { refl m with serials := ?_, keys := ?_ }
  · exact map_set_of_eq hc hsame.1
  · exact map_set_of_eq hc hsame.2

theorem other (routes issued : List Route) (bytesFrom bytesTo rejected : Nat) :
    Quiet m { m with routes, issued, bytesFrom, bytesTo, rejected } :=
  ⟨rfl, rfl, rfl, rfl, rfl, rfl, rfl, rfl, fun _ _ => rfl, rfl⟩

theorem carry (bytes : Nat) (side : Side) : Quiet m (m.carry bytes side) := by
  cases side with
  | source => exact other m.routes m.issued (m.bytesFrom + bytes) m.bytesTo m.rejected
  | destination => exact other m.routes m.issued m.bytesFrom (m.bytesTo + bytes) m.rejected

theorem fail (n : Nat) (reason : CloseCode) (lost : Bool) : Quiet m (m.fail n reason lost) :=
  push fun task htask => by rw [mem_singleton.mp htask]; rfl

theorem jobs {α : Type} (f : α → Job Time) (l : List α) : Quiet m (m.push (l.map fun a => .job (f a))) := by
  refine push fun task htask => ?_
  obtain ⟨a, -, rfl⟩ := List.mem_map.mp htask
  rfl

theorem send (entry : Entry) {callback : Callback} (hentry : entry.origin ≠ .closing)
    (hcallback : (Task.callback callback : Task Time).closing? = none) :
    Quiet m ((m.record entry).push [.callback callback]) := by
  refine (record hentry).trans (push fun task htask => ?_)
  rw [mem_singleton.mp htask]
  exact hcallback

theorem reject (route : Route) (id : Utf16) (code : RejectionCode) : Quiet m (m.reject route id code) := by
  apply (other m.routes m.issued m.bytesFrom m.bytesTo (m.rejected + 1)).trans
  exact send _ (fun h => Origin.noConfusion h) rfl

theorem forward (n : Nat) (c : Connection Time) (sender : Side) (header : Header) (payload : Bytes) :
    Quiet m (m.forward n c sender header payload) :=
  send _ (fun h => Origin.noConfusion h) rfl

theorem remove (route : Route) (reason : CloseCode) : Quiet m (m.remove route reason) := by
  unfold Machine.remove
  split
  · apply (other (m.routes.filter fun r => r.key ≠ route.key) m.issued m.bytesFrom m.bytesTo m.rejected).trans
    exact jobs _ _
  · exact refl m

theorem expire (now : Time) (n : Nat) : Quiet m (m.expire options now n) := by
  unfold Machine.expire
  split
  · exact fail n _ false
  · exact refl m

theorem receiveNew (route : Route) (sender : Side) (header : Header) (payload : Bytes) :
    Quiet m (m.receiveNew options route sender header payload) := by
  unfold Machine.receiveNew
  split
  · split
    · exact reject route _ _
    · split
      · exact reject route _ _
      · exact push (by simp [Task.closing?])
  · exact refl m

section Flow

variable {c : Connection Time} {side : Side} {flow : Flow}

theorem same_setFlow : (c.setFlow side flow).serial = c.serial ∧ (c.setFlow side flow).key = c.key := by
  cases side <;> exact ⟨rfl, rfl⟩

end Flow

theorem receiveOn (n : Nat) (route : Route) (sender : Side) (header : Header) (payload : Bytes) (now : Time) :
    Quiet m (m.receiveOn n route sender header payload now) := by
  unfold Machine.receiveOn
  split
  · exact refl m
  · next c hc =>
    split
    · exact fail n _ false
    · dsimp only
      split
      · exact fail n _ false
      · have hsame : ∀ flow : Flow, { c.setFlow sender flow with last := now }.serial = c.serial ∧
            { c.setFlow sender flow with last := now }.key = c.key := fun flow => same_setFlow
        split
        · exact (put hc (hsame _)).trans (fail n _ true)
        · exact (put hc (hsame _)).trans (push (by simp [Task.closing?]))

theorem receive (route : Route) (sender : Side) (header : Header) (payload : Bytes) (now : Time) :
    Quiet m (m.receive options route sender header payload now) := by
  unfold Machine.receive
  dsimp only
  split
  · exact refl m
  · split
    · exact receiveNew route sender header payload
    · exact receiveOn _ route sender header payload now

theorem spend (n : Nat) (sender : Side) (header : Header) (payload : Bytes) : Quiet m (m.spend n sender header payload) := by
  unfold Machine.spend
  split
  · exact refl m
  · next c hc =>
    dsimp only
    split
    · exact fail n _ true
    · apply (put hc same_setFlow).trans
      exact (carry payload.length sender).trans (forward n _ sender header payload)

theorem same_throttled (c : Connection Time) (bytes : Nat) (now : Time) :
    (Broker.throttled options c bytes now).serial = c.serial ∧ (Broker.throttled options c bytes now).key = c.key := by
  unfold Broker.throttled
  split <;> exact ⟨rfl, rfl⟩

theorem receiveData {n : Nat} {c : Connection Time} (hc : m.objects[n]? = some c) (route : Route) (sender : Side)
    (header : Header) (payload : Bytes) (now : Time) :
    Quiet m (m.receiveData options n c route sender header payload now) := by
  unfold Machine.receiveData
  apply (put hc (same_throttled c payload.length now)).trans
  dsimp only
  split
  · exact fail n _ true
  · split
    · exact push (by simp [Task.closing?])
    · exact spend n sender header payload

theorem receiveKind {n : Nat} {c : Connection Time} (hc : m.objects[n]? = some c) (route : Route) (sender : Side)
    (header : Header) (payload : Bytes) (now : Time) :
    Quiet m (m.receiveKind options n c route sender header payload now) := by
  unfold Machine.receiveKind
  split
  · dsimp only
    refine (put hc ?_).trans (forward n _ _ header payload)
    exact ⟨rfl, rfl⟩
  · apply (other m.routes m.issued m.bytesFrom m.bytesTo (m.rejected + 1)).trans
    exact (push (by simp [Task.closing?])).trans (forward n c _ header payload)
  · exact receiveData hc route sender header payload now
  · dsimp only
    split
    · exact fail n _ true
    · exact (put hc same_setFlow).trans (forward n _ _ header payload)
  · apply (put hc same_setFlow).trans
    exact forward n _ _ header payload
  · exact (push (by simp [Task.closing?])).trans (forward n c _ header payload)
  · exact (push (by simp [Task.closing?])).trans (forward n c _ header payload)
  · exact refl m
  · exact refl m

theorem judge (n : Nat) (route : Route) (sender : Side) (header : Header) (payload : Bytes) (value : Bool) (now : Time) :
    Quiet m (m.judge options n route sender header payload value now) := by
  unfold Machine.judge
  split
  · exact fail n _ true
  · split
    · exact refl m
    · split
      · exact refl m
      · next c hc => exact receiveKind hc route sender header payload now

theorem call (request : Request Time) : Quiet m (m.call options request) := by
  cases request with
  | register registration =>
    simp only [Machine.call, Machine.register]
    split
    · exact refl m
    · split
      · exact refl m
      · split
        · exact refl m
        · exact other _ _ m.bytesFrom m.bytesTo m.rejected
  | receive route sender header payload => exact jobs _ _
  | recordActivity tunnel attachment =>
    simp only [Machine.call]
    split
    · exact push (by simp [Task.closing?])
    · exact refl m
  | revokeAttachment attachment => exact jobs _ _
  | sweep now => exact jobs _ _
  | close => exact jobs _ _
  | closeRoute route => exact jobs _ _
  | disconnectRoute route => exact jobs _ _

end Quiet

inductive Moves (options : Options Time) (m : Machine Time) (input : Input Time) : Machine Time → Prop
  | quiet {m' : Machine Time} (h : Quiet m m') : Moves options m input m'
  | connects {rest : List (Task Time)} {route : Route} {id : Utf16} {credit : Credit} {now : Time}
      (hstack : m.stack = .callback (.admitting route id credit) :: rest) (hinput : input = .answer true now)
      (hcurrent : m.currentRoute route) : Moves options m input ({ m with stack := rest }.connect route id credit now)
  | terminates {rest : List (Task Time)} {n : Nat} {reason : CloseCode} {lost : Bool} {now : Time}
      (hstack : m.stack = .job (.terminate n reason lost) :: rest) (hinput : input = .proceed now) :
      Moves options m input ({ m with stack := rest }.terminate n reason)
  | closes {rest : List (Task Time)} {n i : Nat} {next : Entry} {value : Bool} {now : Time}
      (hstack : m.stack = .callback (.closing n i (some next)) :: rest) (hinput : input = .answer value now) :
      Moves options m input (({ m with stack := rest }.settle i value).afterClose n (some next))
  | ends {rest : List (Task Time)} {n i : Nat} {value : Bool} {now : Time}
      (hstack : m.stack = .callback (.closing n i none) :: rest) (hinput : input = .answer value now) :
      Moves options m input (({ m with stack := rest }.settle i value).finish n)
  | finishes {rest : List (Task Time)} {n : Nat} {now : Time}
      (hstack : m.stack = .job (.finish n) :: rest) (hinput : input = .proceed now) :
      Moves options m input ({ m with stack := rest }.finish n)

theorem moves (options : Options Time) (m : Machine Time) (input : Input Time) : Moves options m input (m.step options input) := by
  unfold step
  split
  · exact .quiet (Quiet.call _)
  · exact .quiet (Quiet.call _)
  · next callback rest value now hstack =>
    cases callback with
    | refusing i => exact .quiet ((Quiet.pop hstack rfl).trans (Quiet.settle i value))
    | recording => exact .quiet (Quiet.pop hstack rfl)
    | admitting route id credit =>
      have hpop := Quiet.pop hstack rfl
      simp only [answered, admitted]
      split
      · exact .quiet hpop
      · next hcurrent =>
        split
        · exact .quiet (hpop.trans (Quiet.reject route id _))
        · next hvalue =>
          obtain rfl : value = true := by simpa using hvalue
          rw [Bool.not_eq_true', Bool.not_eq_false] at hcurrent
          exact .connects hstack rfl hcurrent
    | judging n route sender header payload => exact .quiet ((Quiet.pop hstack rfl).trans (Quiet.judge n route sender header payload value now))
    | charging n sender header payload =>
      have hpop := Quiet.pop hstack rfl
      simp only [answered]
      split
      · exact .quiet (hpop.trans (Quiet.spend n sender header payload))
      · exact .quiet (hpop.trans (Quiet.fail n _ true))
    | sending n i =>
      have hpop := Quiet.pop hstack rfl
      simp only [answered]
      split
      · exact .quiet (hpop.trans (Quiet.settle i true))
      · exact .quiet ((hpop.trans (Quiet.settle i false)).trans (Quiet.fail n _ true))
    | closing n i next =>
      cases next with
      | some next => exact .closes hstack rfl
      | none => exact .ends hstack rfl
  · next job rest now hstack =>
    cases job with
    | receive route sender header payload =>
      exact .quiet ((Quiet.pop hstack rfl).trans (Quiet.receive route sender header payload now))
    | terminate n reason lost => exact .terminates hstack rfl
    | finish n => exact .finishes hstack rfl
    | expire at_ n => exact .quiet ((Quiet.pop hstack rfl).trans (Quiet.expire at_ n))
    | remove route reason => exact .quiet ((Quiet.pop hstack rfl).trans (Quiet.remove route reason))
  · exact .quiet (Quiet.refl m)

/-! ## The ledger -/

/-- The second close frame for connection `n` has still to be sent. -/
def owed (m : Machine Time) (n : Nat) : Nat := m.closings.countP fun e => e.1 = n && e.2.isSome

theorem closings_sendClose (n : Nat) (entry : Entry) (next : Option Entry) :
    (m.sendClose n entry next).closings = (n, next) :: m.closings := rfl

theorem ending_sendClose (n k : Nat) (entry : Entry) (next : Option Entry) :
    (m.sendClose n entry next).ending k = (decide (n = k) || m.ending k) := rfl

theorem owed_sendClose (n k : Nat) (entry : Entry) (next : Option Entry) :
    (m.sendClose n entry next).owed k = m.owed k + if n = k ∧ next.isSome then 1 else 0 := by
  unfold owed
  rw [closings_sendClose, countP_cons]
  simp

/-- What was opened is in the table or was finished, by a call for it, and what was terminated was closed to both sides,
or is being closed. -/
structure Ledger (m : Machine Time) : Prop where
  serials : m.objects.map Connection.serial = List.range m.opened
  keyed : ∀ e ∈ m.connections, (m.objects.map Connection.key)[e.2]? = some e.1
  keys : (m.connections.map Prod.fst).Nodup
  split : (m.connections.map Prod.snd ++ m.finished.map Prod.snd).Perm (List.range m.opened)
  own : ∀ e ∈ m.finished, e.1 = e.2
  closed : m.closed = m.finished.length
  reasons : ∀ reason, m.terminations reason = m.terminated.countP fun e => e.2 = reason
  once : (m.terminated.map Prod.fst).Nodup
  known : ∀ e ∈ m.terminated, e.1 < m.opened
  source : ∀ n, closes n .source m.log = (m.terminated.map Prod.fst).count n
  destination : ∀ n, closes n .destination m.log + m.owed n = (m.terminated.map Prod.fst).count n
  next : ∀ e ∈ m.closings, ∀ entry, e.2 = some entry → ∀ n side, entry.closes n side = (decide (n = e.1) && side = .destination)
  ending : ∀ n ∈ m.terminated.map Prod.fst, n ∈ m.connections.map Prod.snd → m.ending n

namespace Ledger

theorem of_quiet (h : m.Ledger) (hquiet : Quiet m m') : m'.Ledger := by
  obtain ⟨hconnections, hopened, hclosed, hterminations, hterminated, hfinished, hserials, hkeys, hcloses, hclosings⟩ := hquiet
  refine ⟨?_, ?_, ?_, ?_, ?_, ?_, ?_, ?_, ?_, ?_, ?_, ?_, ?_⟩
  · rw [hserials, hopened]
    exact h.serials
  · rw [hconnections, hkeys]
    exact h.keyed
  · rw [hconnections]
    exact h.keys
  · rw [hconnections, hfinished, hopened]
    exact h.split
  · rw [hfinished]
    exact h.own
  · rw [hclosed, hfinished]
    exact h.closed
  · rw [hterminations, hterminated]
    exact h.reasons
  · rw [hterminated]
    exact h.once
  · rw [hterminated, hopened]
    exact h.known
  · intro n
    rw [hcloses, hterminated]
    exact h.source n
  · intro n
    rw [hcloses, owed, hclosings, hterminated]
    exact h.destination n
  · rw [hclosings]
    exact h.next
  · rw [hterminated, hconnections]
    unfold Machine.ending
    rw [hclosings]
    exact h.ending

theorem new : (new : Machine Time).Ledger := by
  refine ⟨rfl, ?_, nodup_nil, List.Perm.refl _, ?_, rfl, fun _ => rfl, nodup_nil, ?_, fun _ => rfl, fun _ => rfl, ?_, ?_⟩ <;>
    simp [Machine.new, closings]

theorem length_objects (h : m.Ledger) : m.objects.length = m.opened := by
  have hlength := congrArg length h.serials
  rwa [length_map, length_range] at hlength

variable {rest : List (Task Time)} {i n : Nat}

theorem serial (h : m.Ledger) {c : Connection Time} (hc : m.objects[n]? = some c) : c.serial = n := by
  have hlt : n < m.opened := h.length_objects ▸ (List.getElem?_eq_some_iff.mp hc).1
  have hserial := congrArg (fun l => l[n]?) h.serials
  simp only [getElem?_map, hc, getElem?_range hlt] at hserial
  exact some.inj hserial

theorem find_eq_some {key : Utf16} (hfind : m.find key = some n) : (key, n) ∈ m.connections := by
  obtain ⟨e, he, rfl⟩ := map_eq_some_iff.mp hfind
  have hkey : e.1 = key := by simpa using find?_some he
  rw [← hkey]
  exact mem_of_find?_eq_some he

theorem find_of_mem (h : m.Ledger) {e : Utf16 × Nat} (he : e ∈ m.connections) : m.find e.1 = some e.2 := by
  unfold Machine.find
  rw [find?_eq_of_mem h.keys he]
  rfl

theorem holder_of_mem (h : m.Ledger) (hn : n ∈ m.connections.map Prod.snd) : m.holder n = some n := by
  obtain ⟨e, he, rfl⟩ := List.mem_map.mp hn
  have hkey := h.keyed e he
  rw [getElem?_map] at hkey
  obtain ⟨c, hc, hkey⟩ := map_eq_some_iff.mp hkey
  unfold holder
  rw [hc, bind_some, hkey, h.find_of_mem he]

theorem connect (h : m.Ledger) {route : Route} {id : Utf16} (hfree : m.find (connectionKey route id) = none) (credit : Credit)
    (now : Time) : (m.connect route id credit now).Ledger := by
  apply of_quiet ?_ (Quiet.send _ (fun h => Origin.noConfusion h) rfl)
  have hlength := h.length_objects
  have hkey : ∀ e ∈ m.connections, e.1 ≠ connectionKey route id := by
    intro e he hkey
    rw [← hkey, h.find_of_mem he] at hfree
    cases hfree
  have hinsert : insert (connectionKey route id) m.objects.length m.connections =
      m.connections ++ [(connectionKey route id, m.objects.length)] := by
    refine if_neg fun hany => ?_
    obtain ⟨e, he, hsame⟩ := List.any_eq_true.mp hany
    exact hkey e he (of_decide_eq_true hsame)
  refine ⟨?_, ?_, ?_, ?_, h.own, h.closed, h.reasons, h.once, ?_, h.source, h.destination, h.next, ?_⟩
  · rw [map_append, h.serials, range_succ, ← hlength]
    rfl
  · intro e he
    rw [map_append]
    rcases mem_append.mp (hinsert ▸ he) with he | he
    · have hold := h.keyed e he
      rw [getElem?_append_left (List.getElem?_eq_some_iff.mp hold).1]
      exact hold
    · obtain rfl := mem_singleton.mp he
      rw [getElem?_append_right (by simp)]
      simp [opening, Connection.key]
  · have hnodup : ((m.connections ++ [(connectionKey route id, m.objects.length)]).map Prod.fst).Nodup := by
      rw [map_append, map_singleton, nodup_append]
      refine ⟨h.keys, nodup_singleton _, fun key hold key' hnew => ?_⟩
      obtain ⟨e, he, rfl⟩ := List.mem_map.mp hold
      rw [mem_singleton.mp hnew]
      exact hkey e he
    exact hinsert ▸ hnodup
  · have hsplit : ((m.connections ++ [(connectionKey route id, m.objects.length)]).map Prod.snd ++
        m.finished.map Prod.snd).Perm (range (m.opened + 1)) := by
      rw [map_append, map_singleton, append_assoc, range_succ, ← hlength]
      apply (perm_append_comm.append_left _).trans
      rw [← append_assoc]
      exact (hlength ▸ h.split).append_right _
    exact hinsert ▸ hsplit
  · exact fun e he => Nat.lt_succ_of_lt (h.known e he)
  · intro n hn hmem
    have hmem' : n ∈ (m.connections ++ [(connectionKey route id, m.objects.length)]).map Prod.snd := hinsert ▸ hmem
    rw [map_append, mem_append] at hmem'
    rcases hmem' with hold | hnew
    · exact h.ending n hn hold
    · obtain ⟨e, he, rfl⟩ := List.mem_map.mp hn
      have hlt := h.known e he
      have heq : e.1 = m.objects.length := mem_singleton.mp hnew
      omega

theorem terminate (h : m.Ledger) (horderly : m.holder n = none ∨ m.holder n = some n ∧ m.ending n = false)
    (reason : CloseCode) : (m.terminate n reason).Ledger := by
  unfold Machine.terminate
  cases hc : m.objects[n]? with
  | none => exact h
  | some c =>
    have hserial := h.serial hc
    have hholder : m.holder n = m.find c.key := by rw [holder, hc, bind_some]
    rw [hholder] at horderly
    dsimp only
    rcases horderly with hnone | ⟨hsome, hnot⟩
    · rw [hnone]
      exact h
    · rw [hsome, isSome_some, if_pos rfl]
      have hnew : n ∉ m.terminated.map Prod.fst := by
        intro hmem
        have hending := h.ending n hmem (List.mem_map_of_mem (find_eq_some hsome))
        rw [hnot] at hending
        cases hending
      have hreasons : ∀ r, (if r = reason then m.terminations r + 1 else m.terminations r) =
          (m.terminated ++ [(n, reason)]).countP fun e => e.2 = r := by
        intro r
        rw [countP_append, ← h.reasons, countP_singleton]
        by_cases hr : r = reason
        · simp [hr]
        · simp [hr, Ne.symm hr]
      have honce : ((m.terminated ++ [(n, reason)]).map Prod.fst).Nodup := by
        rw [map_append, map_singleton, nodup_append]
        refine ⟨h.once, nodup_singleton _, fun k hold k' hlast => ?_⟩
        rw [mem_singleton.mp hlast]
        exact ne_of_mem_of_not_mem hold hnew
      have hknown : ∀ e ∈ m.terminated ++ [(n, reason)], e.1 < m.opened := by
        intro e he
        rcases mem_append.mp he with he | he
        · exact h.known e he
        · rw [mem_singleton.mp he, ← h.length_objects]
          exact (List.getElem?_eq_some_iff.mp hc).1
      have hcount : ∀ k, ((m.terminated ++ [(n, reason)]).map Prod.fst).count k =
          (m.terminated.map Prod.fst).count k + if k = n then 1 else 0 := by
        intro k
        rw [map_append, map_singleton, count_append, count_singleton]
        by_cases hk : k = n
        · simp [hk]
        · simp [hk, Ne.symm hk]
      have hsource : ∀ k, closes k .source (m.log ++ [Broker.closeEntry c reason .source true]) =
          ((m.terminated ++ [(n, reason)]).map Prod.fst).count k := by
        intro k
        rw [closes_append, closes_closeEntry, hserial, hcount, h.source]
        by_cases hk : k = n <;> simp [hk]
      have hdestination : ∀ k, closes k .destination (m.log ++ [Broker.closeEntry c reason .source true]) =
          closes k .destination m.log := by
        intro k
        rw [closes_append, closes_closeEntry]
        simp
      refine ⟨h.serials, h.keyed, h.keys, h.split, h.own, h.closed, hreasons, honce, hknown, hsource, ?_, ?_, ?_⟩
      · intro k
        apply (congrArg₂ (· + ·) (hdestination k) (owed_sendClose n k _ _)).trans
        apply Eq.trans _ (hcount k).symm
        rw [← h.destination k, Nat.add_assoc]
        apply congrArg (closes k .destination m.log + ·)
        by_cases hk : k = n
        · simp [owed, hk]
          rfl
        · simp [hk, Ne.symm hk]
          rfl
      · intro e he entry hentry k side
        rcases mem_cons.mp he with rfl | he
        · obtain rfl := some.inj hentry
          rw [closes_closeEntry, hserial]
        · exact h.next e he entry hentry k side
      · intro k hk hmem
        rw [ending_sendClose, Bool.or_eq_true]
        have hk' : k ∈ (m.terminated ++ [(n, reason)]).map Prod.fst := hk
        rw [map_append, mem_append] at hk'
        rcases hk' with hold | hlast
        · exact .inr (h.ending k hold hmem)
        · exact .inl (by simp [mem_singleton.mp hlast])

theorem closings_of_stack {next : Option Entry}
    (hstack : m.stack = .callback (.closing n i next) :: rest) : m.closings = (n, next) :: { m with stack := rest }.closings := by
  unfold closings
  rw [hstack]
  rfl

theorem closeNext (h : m.Ledger) {next : Entry} (value : Bool)
    (hstack : m.stack = .callback (.closing n i (some next)) :: rest) :
    (({ m with stack := rest }.settle i value).afterClose n (some next)).Ledger := by
  have hclosings := closings_of_stack hstack
  have hnext : ∀ k side, next.closes k side = (decide (k = n) && side = .destination) := by
    apply h.next (n, some next) _ next rfl
    rw [hclosings]
    exact mem_cons_self
  have hlog : ∀ k side, closes k side ({ m with stack := rest }.settle i value).log = closes k side m.log :=
    (Quiet.settle i value).closes
  have hsource : ∀ k, closes k .source (({ m with stack := rest }.settle i value).log ++ [next]) =
      (m.terminated.map Prod.fst).count k := by
    intro k
    rw [closes_append, hlog, h.source, hnext]
    simp
  have hdestination : ∀ k, closes k .destination (({ m with stack := rest }.settle i value).log ++ [next]) +
      { m with stack := rest }.owed k = (m.terminated.map Prod.fst).count k := by
    intro k
    rw [closes_append, hlog, hnext, ← h.destination k, owed, owed, hclosings, countP_cons]
    by_cases hk : k = n
    · simp [hk]
      omega
    · simp [hk, Ne.symm hk]
  refine ⟨h.serials, h.keyed, h.keys, h.split, h.own, h.closed, h.reasons, h.once, h.known, hsource, ?_, ?_, ?_⟩
  · intro k
    have howed := @owed_sendClose _ ({ m with stack := rest }.settle i value) n k next none
    simp only [isSome_none, Bool.false_eq_true, and_false, if_false, Nat.add_zero] at howed
    exact (congrArg _ howed).trans (hdestination k)
  · intro e he entry hentry
    rcases mem_cons.mp he with rfl | he
    · cases hentry
    · apply h.next e _ entry hentry
      rw [hclosings]
      exact mem_cons_of_mem _ he
  · intro k hk hmem
    have hending := h.ending k hk hmem
    rw [Machine.ending, hclosings] at hending
    exact hending

theorem finish (h : m.Ledger) (hshared : m.unshared n) : (m.finish n).Ledger ∧ n ∉ (m.finish n).connections.map Prod.snd := by
  have hout : m.holder n = none → n ∉ m.connections.map Prod.snd := by
    intro hnone hmem
    rw [h.holder_of_mem hmem] at hnone
    cases hnone
  unfold unshared at hshared
  unfold Machine.finish
  cases hc : m.objects[n]? with
  | none => exact ⟨h, hout (by rw [holder, hc, bind_none])⟩
  | some c =>
    have hholder : m.holder n = m.find c.key := by rw [holder, hc, bind_some]
    rw [hholder] at hshared hout
    dsimp only
    cases hfind : m.find c.key with
    | none => exact ⟨h, hout hfind⟩
    | some k =>
      rw [hfind] at hshared
      obtain rfl : k = n := of_decide_eq_true hshared
      have hmem := find_eq_some hfind
      obtain ⟨pre, post, hlist⟩ := append_of_mem hmem
      have hfilter : (m.connections.filter fun e => e.1 ≠ c.key) = pre ++ post := by
        have hkeys := h.keys
        rw [hlist] at hkeys ⊢
        exact filter_key_ne c.key (c.key, k) pre post hkeys rfl
      have hsplit : (k :: ((pre ++ post).map Prod.snd ++ m.finished.map Prod.snd)).Perm (range m.opened) := by
        have hold := h.split
        rw [hlist, map_append, map_cons] at hold
        apply (List.Perm.append_right _ perm_middle).symm.trans at hold
        rw [map_append]
        exact hold
      have hnew := (nodup_cons.mp (hsplit.nodup_iff.mpr nodup_range)).1
      have hsplit' : ((pre ++ post).map Prod.snd ++ (m.finished ++ [(k, k)]).map Prod.snd).Perm (range m.opened) := by
        have hlast : (m.finished ++ [(k, k)]).map Prod.snd = m.finished.map Prod.snd ++ [k] := map_append
        rw [hlast, ← append_assoc]
        exact (perm_append_singleton _ _).trans hsplit
      have hsub : ∀ e ∈ m.connections.filter (fun e => e.1 ≠ c.key), e ∈ m.connections := fun e he => (mem_filter.mp he).1
      have hown : ∀ e ∈ m.finished ++ [(k, k)], e.1 = e.2 := by
        intro e he
        rcases mem_append.mp he with he | he
        · exact h.own e he
        · rw [mem_singleton.mp he]
      refine ⟨⟨h.serials, fun e he => h.keyed e (hsub e he), h.keys.sublist (filter_sublist.map _), ?_, hown, ?_,
        h.reasons, h.once, h.known, h.source, h.destination, h.next, fun n hn hmem => ?_⟩, ?_⟩
      · rw [hfilter]
        exact hsplit'
      · rw [length_append, ← h.closed]
        rfl
      · obtain ⟨e, he, rfl⟩ := List.mem_map.mp hmem
        exact h.ending e.2 hn (List.mem_map_of_mem (hsub e he))
      · rw [hfilter]
        exact fun hmem => hnew (mem_append_left _ hmem)

theorem finish_comm {value : Bool} :
    ({ m with stack := rest }.settle i value).finish n = { m.finish n with stack := rest }.settle i value := by
  unfold Machine.finish Machine.settle
  dsimp only
  cases m.objects[n]? with
  | none => rfl
  | some c =>
    dsimp only
    unfold Machine.find
    dsimp only
    cases (m.connections.find? fun e => e.1 = c.key) <;> rfl

theorem finish_stack (m : Machine Time) (n : Nat) : (m.finish n).stack = m.stack := by
  unfold Machine.finish
  cases m.objects[n]? with
  | none => rfl
  | some c =>
    dsimp only
    cases m.find c.key <;> rfl

theorem ends (h : m.Ledger) (value : Bool)
    (hstack : m.stack = .callback (.closing n i none) :: rest) (hshared : m.unshared n) :
    (({ m with stack := rest }.settle i value).finish n).Ledger := by
  obtain ⟨hfinish, hgone⟩ := h.finish hshared
  have hclosings := closings_of_stack ((finish_stack m n).trans hstack)
  rw [finish_comm]
  apply of_quiet ?_ (Quiet.settle i value)
  refine ⟨hfinish.serials, hfinish.keyed, hfinish.keys, hfinish.split, hfinish.own, hfinish.closed, hfinish.reasons,
    hfinish.once, hfinish.known, hfinish.source, fun k => ?_, fun e he => ?_, fun k hk hmem => ?_⟩
  · have hdestination := hfinish.destination k
    rw [owed, hclosings, countP_cons] at hdestination
    unfold owed
    simpa using hdestination
  · apply hfinish.next e
    rw [hclosings]
    exact mem_cons_of_mem _ he
  · have hending := hfinish.ending k hk hmem
    have hne : n ≠ k := (ne_of_mem_of_not_mem hmem hgone).symm
    rw [Machine.ending, hclosings, any_cons, Bool.or_eq_true] at hending
    exact hending.resolve_left fun h => hne (of_decide_eq_true h)

theorem step (h : m.Ledger) {input : Input Time} (horderly : m.orderly input) : (m.step options input).Ledger := by
  have hmoves := moves options m input
  generalize m.step options input = m' at hmoves
  unfold orderly at horderly
  cases hmoves with
  | quiet hquiet => exact h.of_quiet hquiet
  | connects hstack hinput hcurrent =>
    simp only [hstack, hinput, hcurrent, Bool.not_true, Bool.false_or, isNone_iff_eq_none] at horderly
    exact (h.of_quiet (Quiet.pop hstack rfl)).connect horderly _ _
  | terminates hstack hinput =>
    simp only [hstack, hinput, Bool.or_eq_true, Bool.and_eq_true, isNone_iff_eq_none, Bool.not_eq_true'] at horderly
    have hpop := Quiet.pop hstack rfl
    apply (h.of_quiet hpop).terminate
    rcases horderly with hnone | ⟨hshared, hnot⟩
    · exact .inl hnone
    · refine (holder_of_unshared hshared).imp_right fun hsome => ⟨hsome, ?_⟩
      rw [Machine.ending, hpop.closings]
      exact hnot
  | closes hstack hinput => exact h.closeNext _ hstack
  | ends hstack hinput =>
    simp only [hstack, hinput] at horderly
    exact h.ends _ hstack horderly
  | finishes hstack hinput =>
    simp only [hstack, hinput] at horderly
    exact ((h.of_quiet (Quiet.pop hstack rfl)).finish horderly).1

theorem foldl (inputs : List (Input Time)) (h : m.Ledger) (horderly : runsOrderly options m inputs) :
    (inputs.foldl (Machine.step options) m).Ledger := by
  induction inputs generalizing m with
  | nil => exact h
  | cons input inputs ih =>
    rw [runsOrderly, Bool.and_eq_true] at horderly
    exact ih (h.step horderly.1) horderly.2

end Ledger

/-- Every connection is closed to each side and counted as terminated at most once, it is counted as closed exactly
once when it has left the table, and it is the one that was to be finished. -/
structure ExactlyOnce (m : Machine Time) : Prop where
  closes : ∀ n side, closes n side m.log ≤ 1
  terminated : ∀ n, (m.terminated.map Prod.fst).count n ≤ 1
  reasons : ∀ reason, m.terminations reason = m.terminated.countP fun e => e.2 = reason
  finished : ∀ n < m.opened, (m.finished.map Prod.snd).count n = if n ∈ m.connections.map Prod.snd then 0 else 1
  closed : m.closed = m.finished.length
  own : ∀ e ∈ m.finished, e.1 = e.2
  balance : m.opened = m.connections.length + m.closed

theorem Ledger.exactlyOnce (h : m.Ledger) : m.ExactlyOnce := by
  have honce : ∀ n, (m.terminated.map Prod.fst).count n ≤ 1 := nodup_iff_count_le_one.mp h.once
  refine ⟨fun n side => ?_, honce, h.reasons, fun n hn => ?_, h.closed, h.own, ?_⟩
  · cases side with
    | source => exact (h.source n).le.trans (honce n)
    | destination =>
      have hdestination := h.destination n
      have hle := honce n
      omega
  · have hcount := h.split.count_eq n
    rw [count_append, count_eq_one_of_mem nodup_range (mem_range.mpr hn)] at hcount
    split
    · next hmem =>
      have hpos := count_pos_iff.mpr hmem
      omega
    · next hmem =>
      rw [count_eq_zero_of_not_mem hmem] at hcount
      omega
  · have hlength := h.split.length_eq
    rw [length_append, length_map, length_map, length_range] at hlength
    rw [h.closed]
    exact hlength.symm

end Machine

/-- In a run in which no callback crosses an ending, every connection is ended exactly once. -/
theorem endings_exactly_once {Time : Type} (options : Options Time) (inputs : List (Input Time))
    (horderly : Machine.runsOrderly options Machine.new inputs) : (Machine.run options inputs).ExactlyOnce :=
  (Machine.Ledger.new.foldl inputs horderly).exactlyOnce

/-! ## Callbacks that cross an ending -/

namespace Sample

def options : Options Unit :=
  { idleMs := 0, lifetimeMs := 0, bytesPerSecond := 100, maxConnections := 4, maxConnectionsPerTunnel := 4, maxRoutes := 4,
    elapsed := fun _ _ _ => false }

def registration : Registration :=
  { tunnel := [1], attachment := [2], source := [3], destination := [4], target := ⟨[]⟩, owner := none, worker := none,
    diagnostic := none }

def frame (sequence : Nat) (kind : Kind) : Header :=
  { tunnelId := [1], attachmentId := [2], sourceEndpointId := [3], destinationEndpointId := [4], connectionId := [7],
    sequence, kind }

def credit : Credit := ⟨8, by decide, by decide⟩

def fromSource (route sequence : Nat) (kind : Kind) : List (Input Unit) :=
  [.call (.receive route .source (frame sequence kind) []), .proceed ()]

/-- A connection is opened on the route, and the destination takes its connect frame. -/
def opened (route : Nat) : List (Input Unit) := fromSource route 0 (.open credit) ++ [.answer true (), .answer true ()]

/-- The route is disconnected with the connection on it, both sides take their close frames. -/
def disconnected (route : Nat) : List (Input Unit) :=
  [.call (.disconnectRoute route), .proceed (), .proceed (), .answer true (), .answer true ()]

/-- While its close frame is sent for a frame out of order, the source disconnects the route. -/
def crossedClose : List (Input Unit) :=
  .call (.register registration) :: opened 0 ++ fromSource 0 5 (.close .normal) ++ .proceed () :: disconnected 0 ++
    [.answer true (), .answer true ()]

/-- While the source's close frame is forwarded, the destination disconnects the route, and the connection is opened once
more on a new one. -/
def crossedForward : List (Input Unit) :=
  .call (.register registration) :: opened 0 ++ fromSource 0 1 (.close .normal) ++ .answer true () :: disconnected 0 ++
    .call (.register registration) :: opened 1 ++ [.answer true (), .proceed ()]

/-- While the activity callback is asked for an opening, the same connection is opened. -/
def crossedOpening : List (Input Unit) :=
  .call (.register registration) :: fromSource 0 0 (.open credit) ++ opened 0 ++ [.answer true (), .answer true ()]

/-- A source that disconnects a route of another connection while its close frame is sent, and both are ended. -/
def nested : List (Input Unit) :=
  .call (.register registration) :: .call (.register { registration with attachment := [9] }) :: opened 0 ++
    fromSource 0 5 (.close .normal) ++ [.proceed (), .call (.closeRoute 1), .proceed (), .answer true (), .answer true ()]

end Sample

theorem endings_exactly_once_nested : (Machine.run Sample.options Sample.nested).ExactlyOnce ∧
    (Machine.run Sample.options Sample.nested).closed = 1 := by
  refine ⟨endings_exactly_once Sample.options Sample.nested ?_, ?_⟩
  · decide
  · decide

/-- Two close frames and two terminations; a connection that is taken from the table for another one; and one that is
opened and neither active nor closed. Each time all calls have returned. -/
theorem crossed_endings : (closes 0 .source (Machine.run Sample.options Sample.crossedClose).log = 2 ∧
      ((Machine.run Sample.options Sample.crossedClose).terminated.map Prod.fst).count 0 = 2) ∧
    (0, 1) ∈ (Machine.run Sample.options Sample.crossedForward).finished ∧
    ((Machine.run Sample.options Sample.crossedOpening).stack.length = 0 ∧
      (Machine.run Sample.options Sample.crossedOpening).opened = 2 ∧
      (Machine.run Sample.options Sample.crossedOpening).connections.length +
        (Machine.run Sample.options Sample.crossedOpening).closed = 1) := by
  decide

end Cantrip.Tunnels
