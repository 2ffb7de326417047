import Cantrip.Lib.Bytes

/-!
# Buffers and pages

A buffer is a byte string of fixed length that is written in place (`overwrite`). A byte string that only grows is
kept in pages of `n` bytes: what one page shows of the string (`slice_pageAt`), and what stays when the string grows
(`slice_append_of_le`).
-/

namespace Cantrip.Lib

open List

/-- `buffer.set(part, at)`. -/
def overwrite (buffer : Bytes) (at_ : Nat) (part : Bytes) : Bytes :=
  buffer.take at_ ++ part ++ buffer.drop (at_ + part.length)

/-- `new Uint8Array(n)`. -/
def zeros (n : Nat) : Bytes := List.replicate n 0

@[simp] theorem zeros_length (n : Nat) : (zeros n).length = n := length_replicate

theorem overwrite_length {buffer part : Bytes} {at_ : Nat} (h : at_ + part.length ≤ buffer.length) :
    (overwrite buffer at_ part).length = buffer.length := by
  simp only [overwrite, length_append, length_take, length_drop]
  omega

theorem overwrite_take {buffer part : Bytes} {at_ : Nat} (h : at_ ≤ buffer.length) :
    (overwrite buffer at_ part).take (at_ + part.length) = buffer.take at_ ++ part := by
  have hlen : (buffer.take at_ ++ part).length = at_ + part.length := by
    rw [length_append, length_take, Nat.min_eq_left h]
  rw [overwrite, ← hlen, take_left]

section Slice

variable {α : Type}

theorem slice_append_of_le {xs more : List α} {offset length : Nat} (h : offset + length ≤ xs.length) :
    slice (xs ++ more) offset length = slice xs offset length := by
  rw [slice, slice, drop_append_of_le_length (by omega), take_append_of_le_length]
  rw [length_drop]
  omega

theorem slice_take (xs : List α) {offset length n : Nat} (h : offset + length ≤ n) :
    slice (xs.take n) offset length = slice xs offset length := by
  rw [slice, slice, drop_take, take_take, Nat.min_eq_left (by omega)]

/-- Page `p` of a string that is kept in pages of `n`. -/
def pageAt (n : Nat) (xs : List α) (p : Nat) : List α := slice xs (p * n) n

theorem slice_pageAt (xs : List α) {n position count : Nat} (h : position % n + count ≤ n) :
    slice (pageAt n xs (position / n)) (position % n) count = slice xs position count := by
  rw [pageAt, slice_slice xs _ _ _ _ h, Nat.div_add_mod']

end Slice

end Cantrip.Lib
