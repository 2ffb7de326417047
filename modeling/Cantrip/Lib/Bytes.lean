import Mathlib.Data.Int.Bitwise
import Mathlib.Data.Nat.Bitwise
import Mathlib.Tactic.Ring
import Mathlib.Tactic.NormNum

/-!
# Byte strings and fixed-width integers

Byte strings are lists of `UInt8`. `leBytes w n` writes the `w` low bytes of `n`, least significant
first, and `leNat` reads a byte string back; `setUint` and `getUint` add the byte order, and
`toSigned` and `ofSigned` move between a `w`-byte word and the integer it stands for in two's
complement. A slice of a byte string is addressed by offset and length.
-/

namespace Cantrip.Lib

open List

abbrev Bytes := List UInt8

/-- The `length` bytes from `offset` on, cut at the end of the string. -/
def slice {α : Type} (xs : List α) (offset length : Nat) : List α := (xs.drop offset).take length

section Slice

variable {α : Type}

theorem slice_length_le (xs : List α) (offset length : Nat) : (slice xs offset length).length ≤ length := by
  simp [slice]

theorem slice_length (xs : List α) {offset length : Nat} (h : offset + length ≤ xs.length) :
    (slice xs offset length).length = length := by
  simp [slice]; omega

@[simp] theorem slice_zero (xs : List α) (offset : Nat) : slice xs offset 0 = [] := by simp [slice]

theorem slice_eq_nil_of_le (xs : List α) {offset length : Nat} (h : xs.length ≤ offset) : slice xs offset length = [] := by
  simp [slice, drop_eq_nil_of_le h]

theorem slice_append_right (pre xs : List α) (offset length : Nat) :
    slice (pre ++ xs) (pre.length + offset) length = slice xs offset length := by
  simp [slice, drop_append, drop_eq_nil_of_le]

theorem slice_middle (pre mid post : List α) : slice (pre ++ mid ++ post) pre.length mid.length = mid := by
  simp [slice, append_assoc]

theorem slice_eq_middle {pre mid post xs : List α} {offset length : Nat} (hxs : xs = pre ++ mid ++ post)
    (hoffset : offset = pre.length) (hlength : length = mid.length) : slice xs offset length = mid := by
  subst hxs hoffset hlength
  exact slice_middle pre mid post

theorem slice_slice (xs : List α) (offset length a b : Nat) (h : a + b ≤ length) :
    slice (slice xs offset length) a b = slice xs (offset + a) b := by
  simp only [slice, drop_take, drop_drop, take_take]
  congr 1
  omega

theorem slice_append_slice (xs : List α) (offset a b : Nat) :
    slice xs offset a ++ slice xs (offset + a) b = slice xs offset (a + b) := by
  simp only [slice, ← drop_drop]
  exact (take_add).symm

theorem slice_getElem? (xs : List α) (offset length i : Nat) (h : i < length) :
    (slice xs offset length)[i]? = xs[offset + i]? := by
  simp [slice, h]

end Slice

/-! ## Little-endian words -/

/-- The `w` low bytes of `n`, least significant first. -/
def leBytes : Nat → Nat → Bytes
  | 0, _ => []
  | w + 1, n => UInt8.ofNat n :: leBytes w (n / 256)

/-- The number a little-endian byte string stands for. -/
def leNat : Bytes → Nat
  | [] => 0
  | b :: bs => b.toNat + 256 * leNat bs

@[simp] theorem leBytes_length (w n : Nat) : (leBytes w n).length = w := by
  induction w generalizing n with
  | zero => rfl
  | succ w ih => simp [leBytes, ih]

theorem leNat_leBytes (w n : Nat) : leNat (leBytes w n) = n % 256 ^ w := by
  induction w generalizing n with
  | zero => simp [leBytes, leNat, Nat.mod_one]
  | succ w ih =>
    have hbyte : (UInt8.ofNat n).toNat = n % 256 := UInt8.toNat_ofNat'
    rw [leBytes, leNat, ih, hbyte, pow_succ, Nat.mul_comm (256 ^ w) 256, Nat.mod_mul]

theorem leNat_lt (bs : Bytes) : leNat bs < 256 ^ bs.length := by
  induction bs with
  | nil => simp [leNat]
  | cons b bs ih =>
    have hb := b.toNat_lt
    simp only [leNat, length_cons, pow_succ]
    omega

/-! ## Byte order -/

/-- Write the `w` low bytes of `n` in the given byte order. -/
def setUint (little : Bool) (w n : Nat) : Bytes := if little then leBytes w n else (leBytes w n).reverse

/-- Read a byte string as a number in the given byte order. -/
def getUint (little : Bool) (bs : Bytes) : Nat := if little then leNat bs else leNat bs.reverse

@[simp] theorem setUint_length (little : Bool) (w n : Nat) : (setUint little w n).length = w := by
  cases little <;> simp [setUint]

theorem getUint_setUint (little : Bool) (w n : Nat) : getUint little (setUint little w n) = n % 256 ^ w := by
  cases little <;> simp [getUint, setUint, leNat_leBytes]

theorem getUint_lt (little : Bool) (bs : Bytes) : getUint little bs < 256 ^ bs.length := by
  cases little
  · simpa [getUint] using leNat_lt bs.reverse
  · simpa [getUint] using leNat_lt bs

theorem setUint_reverse (little : Bool) (w n : Nat) : (setUint little w n).reverse = setUint (!little) w n := by
  cases little <;> simp [setUint]

/-! ## Two's complement -/

/-- The integer a `w`-byte word stands for. -/
def toSigned (w n : Nat) : Int := if 2 * n < 256 ^ w then (n : Int) else (n : Int) - (256 ^ w : Nat)

/-- The `w`-byte word of an integer. -/
def ofSigned (w : Nat) (v : Int) : Nat := (v % (256 ^ w : Nat)).toNat

theorem pow256_pos (w : Nat) : 0 < 256 ^ w := Nat.pow_pos (by decide)

theorem ofSigned_lt (w : Nat) (v : Int) : ofSigned w v < 256 ^ w := by
  have hpos : (0 : Int) < (256 ^ w : Nat) := by exact_mod_cast pow256_pos w
  have h1 := Int.emod_nonneg v (ne_of_gt hpos)
  have h2 := Int.emod_lt_of_pos v hpos
  unfold ofSigned
  omega

theorem toSigned_ofSigned (w : Nat) (v : Int) (hlow : -(256 ^ w : Nat) ≤ 2 * v) (hhigh : 2 * v < (256 ^ w : Nat)) :
    toSigned w (ofSigned w v) = v := by
  have hpos : (0 : Int) < (256 ^ w : Nat) := by exact_mod_cast pow256_pos w
  unfold toSigned ofSigned
  rcases lt_or_ge v 0 with hneg | hnonneg
  · have hmod : v % (256 ^ w : Nat) = v + (256 ^ w : Nat) := by
      rw [← Int.add_emod_right, Int.emod_eq_of_lt (by omega) (by omega)]
    rw [hmod, if_neg (by omega)]
    omega
  · have hmod : v % (256 ^ w : Nat) = v := Int.emod_eq_of_lt hnonneg (by omega)
    rw [hmod, if_pos (by omega)]
    omega

theorem ofSigned_toSigned (w n : Nat) (h : n < 256 ^ w) : ofSigned w (toSigned w n) = n := by
  have hn : ((n : Int) % (256 ^ w : Nat)) = n := Int.emod_eq_of_lt (by omega) (by exact_mod_cast h)
  unfold ofSigned toSigned
  split
  · rw [hn]; rfl
  · rw [Int.sub_emod_right, hn]; rfl

theorem toSigned_bounds (w n : Nat) (h : n < 256 ^ w) :
    -(256 ^ w : Nat) ≤ 2 * toSigned w n ∧ 2 * toSigned w n < (256 ^ w : Nat) := by
  unfold toSigned
  split <;> constructor <;> omega

/-- Write an integer as a `w`-byte word in the given byte order. -/
def setInt (little : Bool) (w : Nat) (v : Int) : Bytes := setUint little w (ofSigned w v)

/-- Read a byte string as a two's complement integer in the given byte order. -/
def getInt (little : Bool) (bs : Bytes) : Int := toSigned bs.length (getUint little bs)

@[simp] theorem setInt_length (little : Bool) (w : Nat) (v : Int) : (setInt little w v).length = w := by
  simp [setInt]

theorem getInt_setInt (little : Bool) (w : Nat) (v : Int) (hlow : -(256 ^ w : Nat) ≤ 2 * v)
    (hhigh : 2 * v < (256 ^ w : Nat)) : getInt little (setInt little w v) = v := by
  rw [getInt, setInt, setUint_length, getUint_setUint, Nat.mod_eq_of_lt (ofSigned_lt w v), toSigned_ofSigned w v hlow hhigh]

end Cantrip.Lib
