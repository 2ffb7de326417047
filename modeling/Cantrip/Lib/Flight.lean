import Mathlib.Data.List.Basic

/-!
# Numbered messages in flight

A link carries the messages of many streams in order. On each stream the messages have consecutive numbers, and one
that is the last of its stream is followed by none. `Flight` says so of the messages of one stream between what the
receiver expects next and what the sender sends next: the sender adds at the end (`Flight.concat`), the receiver
takes from the front (`flight_cons`).
-/

namespace Cantrip.Lib

open List

variable {α κ : Type}

section Streams

variable [DecidableEq κ] (key : α → κ) (stream : κ)

def ofStream (link : List α) : List α := link.filter fun message => key message = stream

@[simp] theorem ofStream_nil : ofStream key stream [] = [] := rfl

theorem ofStream_append (link more : List α) :
    ofStream key stream (link ++ more) = ofStream key stream link ++ ofStream key stream more :=
  filter_append ..

variable {key stream} {message : α} {link : List α}

theorem ofStream_cons_self (h : key message = stream) :
    ofStream key stream (message :: link) = message :: ofStream key stream link :=
  filter_cons_of_pos (by simpa using h)

theorem ofStream_cons_ne (h : key message ≠ stream) : ofStream key stream (message :: link) = ofStream key stream link :=
  filter_cons_of_neg (by simpa using h)

theorem ofStream_concat_self (h : key message = stream) :
    ofStream key stream (link ++ [message]) = ofStream key stream link ++ [message] := by
  rw [ofStream_append, ofStream_cons_self h, ofStream_nil]

theorem ofStream_concat_ne (h : key message ≠ stream) :
    ofStream key stream (link ++ [message]) = ofStream key stream link := by
  rw [ofStream_append, ofStream_cons_ne h, ofStream_nil, append_nil]

end Streams

section Flights

variable (number : α → Nat) (legal : α → Prop) (last : α → Bool)

/-- The messages are legal and numbered from `first` on up to `next`. One that is the last has none after it, and its
sender has ended the stream. -/
def Flight (ended : Bool) : Nat → List α → Nat → Prop
  | first, [], next => first = next
  | first, message :: rest, next => number message = first ∧ legal message ∧ (last message → rest = [] ∧ ended) ∧
      Flight ended (first + 1) rest next

variable {number legal last} {ended : Bool} {first next : Nat} {messages : List α} {message : α}

theorem flight_nil : Flight number legal last ended next [] next := rfl

theorem flight_cons : Flight number legal last ended first (message :: messages) next ↔
    number message = first ∧ legal message ∧ (last message → messages = [] ∧ ended) ∧
      Flight number legal last ended (first + 1) messages next := Iff.rfl

theorem Flight.end (h : Flight number legal last ended first messages next) (ended' : Bool) :
    Flight number legal last (ended || ended') first messages next := by
  induction messages generalizing first with
  | nil => exact h
  | cons message rest ih =>
    obtain ⟨hnumber, hlegal, hlast, hrest⟩ := h
    refine ⟨hnumber, hlegal, fun hl => ⟨(hlast hl).1, ?_⟩, ih hrest⟩
    rw [(hlast hl).2, Bool.true_or]

theorem Flight.concat (h : Flight number legal last false first messages next) (hnumber : number message = next)
    (hlegal : legal message) (hended : last message → ended) :
    Flight number legal last ended first (messages ++ [message]) (next + 1) := by
  induction messages generalizing first with
  | nil =>
    have hfirst : first = next := h
    exact ⟨hnumber.trans hfirst.symm, hlegal, fun hl => ⟨rfl, hended hl⟩, by rw [hfirst]; exact flight_nil⟩
  | cons head rest ih =>
    obtain ⟨hhead, hlegal', hlast, hrest⟩ := h
    exact ⟨hhead, hlegal', fun hl => absurd (hlast hl).2 Bool.false_ne_true, ih hrest⟩

theorem Flight.forall_legal (h : Flight number legal last ended first messages next) : ∀ m ∈ messages, legal m := by
  induction messages generalizing first with
  | nil => exact fun m hm => absurd hm not_mem_nil
  | cons message rest ih =>
    obtain ⟨-, hlegal, -, hrest⟩ := h
    intro m hm
    rcases mem_cons.mp hm with rfl | hm
    · exact hlegal
    · exact ih hrest m hm

end Flights

end Cantrip.Lib
