import Mathlib.Algebra.Ring.Nat
import Mathlib.Logic.Function.Basic
import Cantrip.Lib.Tally

/-!
# Limits (`workers/limits.rs`, `relay/quotas.rs`)

How many attempts and how many bytes a key may have in a minute, and how much it may have at one time.
-/

namespace Cantrip.Workers

open Lib Function

/-- `(milliseconds as f64 / 1000.0).ceil().max(1.0)` -/
def retrySeconds (milliseconds : Int) : Nat := (max 1 (-(-milliseconds / 1000))).toNat

section

variable {α : Type}

/-- Keys go from the front, the oldest one first, but not beyond one without a name. -/
def evict : List (String × α) → List (String × α)
  | [] => []
  | (key, a) :: rest => if rest.length + 1 > 20000 && key ≠ "" then evict rest else (key, a) :: rest

/-- Every 256th time the keys go that have nothing younger than the cutoff. -/
def sweep (last : α → Option Int) (cutoff : Int) (consumed : Nat) (entries : List (String × α)) : List (String × α) :=
  if consumed % 256 = 0 then evict (entries.filter fun entry => (last entry.2).any (· > cutoff)) else entries

def lookupKey (entries : List (String × α)) (key : String) : Option α :=
  (entries.find? fun entry => entry.1 = key).map Prod.snd

/-- What stands under a key is changed where it is, and a new key comes last. -/
def store (key : String) (a : α) : List (String × α) → List (String × α)
  | [] => [(key, a)]
  | (k, v) :: rest => if k = key then (k, a) :: rest else (k, v) :: store key a rest

end

structure SlidingWindow where
  attempts : List (String × List Int) := []
  consumed : Nat := 0
  limit : Nat
  limit_pos : 0 < limit

namespace SlidingWindow

def consume (w : SlidingWindow) (key : String) (now : Int) : SlidingWindow × Option Nat :=
  let cutoff := now - 60000
  let consumed := (w.consumed + 1) % 2 ^ 64
  let attempts := sweep List.getLast? cutoff consumed w.attempts
  let times := ((lookupKey attempts key).getD []).filter (· > cutoff)
  if h : times.length ≥ w.limit then
    have hpos := w.limit_pos
    ({ w with attempts := store key times attempts, consumed },
      some (retrySeconds (times.head (List.ne_nil_of_length_pos (by omega)) + 60000 - now)))
  else ({ w with attempts := store key (times ++ [now]) attempts, consumed }, none)

end SlidingWindow

/-! ## Bytes in a minute -/

structure ByteWindow where
  buckets : List (String × List (Int × Nat)) := []
  consumed : Nat := 0
  limit : Nat

namespace ByteWindow

/-- A sum that does not fit 64 bits is over the limit as well. -/
def retryAfter (w : ByteWindow) (key : String) (bytes : Nat) (now : Int) : Option Nat :=
  if bytes = 0 then none
  else
    let live := ((lookupKey w.buckets key).getD []).filter fun bucket => bucket.1 > now - 60000
    if (live.map Prod.snd).sum + bytes ≤ w.limit then none
    else some (retrySeconds ((live.head?.map Prod.fst).getD now + 60000 - now))

def add (bytes : Nat) (now : Int) (buckets : List (Int × Nat)) : List (Int × Nat) :=
  match buckets.getLast? with
  | some (at_, total) => if at_ = now then buckets.dropLast ++ [(at_, total + bytes)] else buckets ++ [(now, bytes)]
  | none => [(now, bytes)]

def consume (w : ByteWindow) (key : String) (bytes : Nat) (now : Int) : ByteWindow × Option Nat :=
  if bytes = 0 then (w, none)
  else
    match w.retryAfter key bytes now with
    | some retry => (w, some retry)
    | none =>
      let cutoff := now - 60000
      let consumed := (w.consumed + 1) % 2 ^ 64
      let buckets := sweep (fun buckets => buckets.getLast?.map Prod.fst) cutoff consumed w.buckets
      let own := ((lookupKey buckets key).getD []).filter fun bucket => bucket.1 > cutoff
      ({ w with buckets := store key (add bytes now own) buckets, consumed }, none)

end ByteWindow

/-- `RelayQuotas`, of which a command takes only the relay's bytes. -/
structure RelayQuotas where
  accountRelay : ByteWindow
  workerRelay : ByteWindow
  rejectedRelayBandwidth : Nat := 0
  relayBytes : Nat := 0

def RelayQuotas.consumeRelayAt (q : RelayQuotas) (owner worker : String) (bytes : Nat) (now : Int) : RelayQuotas × Bool :=
  if (q.accountRelay.retryAfter owner bytes now).isSome || (q.workerRelay.retryAfter worker bytes now).isSome then
    ({ q with rejectedRelayBandwidth := q.rejectedRelayBandwidth + 1 }, false)
  else
    ({ q with
        accountRelay := (q.accountRelay.consume owner bytes now).1
        workerRelay := (q.workerRelay.consume worker bytes now).1
        relayBytes := q.relayBytes + bytes }, true)

structure RelayLimitError where
  message : String
  retryAfterSeconds : Nat
  notDispatched : Bool := false
  deriving DecidableEq

def RelayLimitError.beforeDispatch (e : RelayLimitError) : RelayLimitError := { e with notDispatched := true }

/-! ## At one time -/

structure ActiveLimit where
  counts : Tally String := {}
  limit : Nat

namespace ActiveLimit

def count (l : ActiveLimit) (key : String) : Nat := l.counts.count key

def acquire (l : ActiveLimit) (key : String) : ActiveLimit × Bool :=
  if l.count key ≥ l.limit then (l, false) else ({ l with counts := l.counts.insert key (l.count key + 1) }, true)

def release (l : ActiveLimit) (key : String) : ActiveLimit :=
  match l.counts.get key with
  | some n => if n ≤ 1 then { l with counts := l.counts.remove key } else { l with counts := l.counts.insert key (n - 1) }
  | none => { l with counts := l.counts.remove key }

/-- The limit counts the holders `f` of each key, and none has too many. -/
structure Holds (l : ActiveLimit) (f : String → Nat) : Prop where
  counts : l.counts.Counts f
  bound : ∀ key, f key ≤ l.limit

variable {l : ActiveLimit} {f g : String → Nat} {key : String}

theorem holds_new (limit : Nat) : Holds { limit } fun _ => 0 := ⟨Tally.counts_empty, fun _ => Nat.zero_le limit⟩

theorem Holds.count (h : l.Holds f) (key : String) : l.count key = f key := h.counts.count key

theorem Holds.congr (h : l.Holds f) (hfg : ∀ key, g key = f key) : l.Holds g := by
  refine ⟨h.counts.congr hfg, ?_⟩
  intro key
  rw [hfg key]
  exact h.bound key

@[simp] theorem limit_acquire (l : ActiveLimit) (key : String) : (l.acquire key).1.limit = l.limit := by
  unfold acquire
  split <;> rfl

@[simp] theorem limit_release (l : ActiveLimit) (key : String) : (l.release key).limit = l.limit := by
  unfold release
  split
  · split <;> rfl
  · rfl

theorem acquire_false (h : (l.acquire key).2 = false) : (l.acquire key).1 = l := by
  unfold acquire at h ⊢
  split
  · rfl
  · rename_i hlimit
    rw [if_neg hlimit] at h
    cases h

theorem Holds.acquire (h : l.Holds f) (hkey : (l.acquire key).2 = true) :
    (l.acquire key).1.Holds (update f key (f key + 1)) := by
  have hcount := h.count key
  unfold ActiveLimit.acquire at hkey ⊢
  split at hkey
  · cases hkey
  · rename_i hlimit
    rw [if_neg hlimit, hcount]
    refine ⟨h.counts.insert key (by omega), ?_⟩
    intro k
    have hk := h.bound k
    by_cases he : k = key
    · rw [he, update_self]
      dsimp only
      omega
    · rw [update_of_ne he]
      exact hk

theorem Holds.release (h : l.Holds f) (key : String) : (l.release key).Holds (update f key (f key - 1)) := by
  have hbound : ∀ k, update f key (f key - 1) k ≤ l.limit := by
    intro k
    have hk := h.bound k
    by_cases he : k = key
    · rw [he] at hk
      rw [he, update_self]
      omega
    · rw [update_of_ne he]
      exact hk
  have hkey := h.counts key
  refine ⟨?_, by rw [limit_release]; exact hbound⟩
  unfold ActiveLimit.release
  by_cases hzero : f key = 0
  · rw [if_pos hzero] at hkey
    rw [hkey, hzero]
    exact h.counts.remove key
  · rw [if_neg hzero] at hkey
    rw [hkey]
    dsimp only
    by_cases hone : f key ≤ 1
    · have hlast : f key - 1 = 0 := by omega
      rw [if_pos hone, hlast]
      exact h.counts.remove key
    · rw [if_neg hone]
      exact h.counts.insert key (by omega)

theorem Holds.undo (h : l.Holds f) (hkey : (l.acquire key).2 = true) : ((l.acquire key).1.release key).Holds f := by
  apply ((h.acquire hkey).release key).congr
  intro k
  by_cases hk : k = key
  · rw [hk, update_self, update_self, Nat.add_sub_cancel]
  · rw [update_of_ne hk, update_of_ne hk]

theorem count_release_acquire (h : (l.acquire key).2 = true) (k : String) : ((l.acquire key).1.release key).count k = l.count k := by
  unfold acquire at h ⊢
  split at h
  · cases h
  · rename_i hlimit
    rw [if_neg hlimit]
    unfold release
    rw [Tally.get_insert_self]
    dsimp only
    by_cases hk : k = key
    · subst hk
      split
      · have hzero : l.count k = 0 := by omega
        rw [hzero, count, Tally.count, Tally.get_remove_self]
        rfl
      · rw [count, Tally.count, Tally.get_insert_self]
        rfl
    · split
      · rw [count, count, Tally.count, Tally.count, Tally.get_remove_of_ne _ hk, Tally.get_insert_of_ne _ _ hk]
        rfl
      · rw [count, count, Tally.count, Tally.count, Tally.get_insert_of_ne _ _ hk, Tally.get_insert_of_ne _ _ hk]
        rfl

end ActiveLimit

end Cantrip.Workers
