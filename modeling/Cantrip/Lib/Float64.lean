import Cantrip.Lib.Bytes
import Mathlib.Data.Nat.Log

/-!
# Double precision numbers that hold integers

A `Double` is what a table of integers needs of a double: an integer, a NaN, or anything else (a
fraction or an infinity). `float64Bits` is the binary64 pattern of such a number, rounded to nearest even
where an integer has more than 53 significant bits, and `readFloat64` reads a pattern back. Integers of at
most 53 bits come back unchanged (`readFloat64_bits`).
-/

namespace Cantrip.Lib

/-- A double, up to the identity of its fractions and infinities. -/
inductive Double
  | int (n : Int)
  | nan
  | other
  deriving DecidableEq, Repr

namespace Double

/-- `Number.isSafeInteger`. -/
def isSafeInteger : Double → Bool
  | int n => n.natAbs < 2 ^ 53
  | _ => false

/-- `Number.isNaN`. -/
def isNaN : Double → Bool
  | nan => true
  | _ => false

/-- The integer of a number that holds one. -/
def toInt : Double → Int
  | int n => n
  | _ => 0

def toNat (x : Double) : Nat := x.toInt.toNat

@[simp] theorem toInt_int (n : Int) : (int n).toInt = n := rfl

@[simp] theorem toNat_int (n : Nat) : (int n).toNat = n := rfl

end Double

/-- `m / 2 ^ shift`, to nearest, ties to even. -/
def roundShift (m shift : Nat) : Nat :=
  let q := m / 2 ^ shift
  let r := m % 2 ^ shift
  if 2 ^ shift < 2 * r ∨ (2 ^ shift = 2 * r ∧ q % 2 = 1) then q + 1 else q

def magnitudeBits (m : Nat) : Nat :=
  if m = 0 then 0
  else
    let e := Nat.log 2 m
    -- the leading bit of the significand carries into the exponent field
    if e ≤ 52 then (e + 1022) * 2 ^ 52 + m * 2 ^ (52 - e)
    else min ((e + 1022) * 2 ^ 52 + roundShift m (e - 52)) (2047 * 2 ^ 52)

def float64Bits : Double → Nat
  | .int n => (if n < 0 then 2 ^ 63 else 0) + magnitudeBits n.natAbs
  | .nan => 2047 * 2 ^ 52 + 2 ^ 51
  | .other => 2047 * 2 ^ 52

/-- The value of a pattern without its sign: an integer, or none. -/
def readMagnitude (exponent fraction : Nat) : Option Nat :=
  let significand := fraction + 2 ^ 52
  if exponent = 0 then if fraction = 0 then some 0 else none
  else if 1075 ≤ exponent then some (significand * 2 ^ (exponent - 1075))
  else if significand % 2 ^ (1075 - exponent) = 0 then some (significand / 2 ^ (1075 - exponent))
  else none

def readFloat64 (bits : Nat) : Double :=
  let exponent := bits / 2 ^ 52 % 2048
  let fraction := bits % 2 ^ 52
  if exponent = 2047 then if fraction = 0 then .other else .nan
  else
    match readMagnitude exponent fraction with
    | some m => .int (if 2 ^ 63 ≤ bits then -m else m)
    | none => .other

/-! ## Round trip -/

theorem magnitudeBits_fields {m : Nat} (hpos : 0 < m) (hm : m < 2 ^ 53) :
    ∃ e f, e ≤ 52 ∧ f < 2 ^ 52 ∧ magnitudeBits m = (e + 1023) * 2 ^ 52 + f ∧ f + 2 ^ 52 = m * 2 ^ (52 - e) := by
  have he : Nat.log 2 m ≤ 52 := Nat.lt_succ_iff.mp (Nat.log_lt_of_lt_pow (by omega) hm)
  have hlow : 2 ^ Nat.log 2 m ≤ m := Nat.pow_log_le_self 2 (by omega)
  have hhigh : m < 2 ^ (Nat.log 2 m + 1) := Nat.lt_pow_succ_log_self (by omega) m
  have hone : 2 ^ 52 ≤ m * 2 ^ (52 - Nat.log 2 m) := by
    calc 2 ^ 52 = 2 ^ Nat.log 2 m * 2 ^ (52 - Nat.log 2 m) := by rw [← Nat.pow_add]; congr 1; omega
      _ ≤ _ := Nat.mul_le_mul_right _ hlow
  have htwo : m * 2 ^ (52 - Nat.log 2 m) < 2 ^ 53 := by
    calc m * 2 ^ (52 - Nat.log 2 m) < 2 ^ (Nat.log 2 m + 1) * 2 ^ (52 - Nat.log 2 m) :=
          Nat.mul_lt_mul_of_pos_right hhigh (by positivity)
      _ = 2 ^ 53 := by rw [← Nat.pow_add]; congr 1; omega
  refine ⟨Nat.log 2 m, m * 2 ^ (52 - Nat.log 2 m) - 2 ^ 52, he, by omega, ?_, by omega⟩
  rw [magnitudeBits, if_neg (by omega)]
  simp only
  rw [if_pos he]
  omega

theorem readMagnitude_fields {m e f : Nat} (he : e ≤ 52) (hf : f + 2 ^ 52 = m * 2 ^ (52 - e)) :
    readMagnitude (e + 1023) f = some m := by
  rw [readMagnitude, if_neg (by omega)]
  by_cases h52 : 1075 ≤ e + 1023
  · have : e = 52 := by omega
    subst this
    rw [if_pos h52, hf]
    simp
  · rw [if_neg h52, hf, show 1075 - (e + 1023) = 52 - e by omega, if_pos (Nat.mul_mod_left m _),
      Nat.mul_div_cancel _ (by positivity)]

theorem magnitudeBits_lt {m : Nat} (hm : m < 2 ^ 53) : magnitudeBits m < 2 ^ 63 := by
  rcases Nat.eq_zero_or_pos m with rfl | hpos
  · decide
  · obtain ⟨e, f, he, hf, hbits, -⟩ := magnitudeBits_fields hpos hm
    omega

theorem readFloat64_bits {n : Int} (hn : n.natAbs < 2 ^ 53) : readFloat64 (float64Bits (.int n)) = .int n := by
  have hlt := magnitudeBits_lt hn
  rcases Nat.eq_zero_or_pos n.natAbs with hzero | hpos
  · have : n = 0 := by omega
    subst this
    decide
  · obtain ⟨e, f, he, hf, hbits, hsig⟩ := magnitudeBits_fields hpos hn
    have hexp : float64Bits (.int n) / 2 ^ 52 % 2048 = e + 1023 := by
      simp only [float64Bits, hbits]
      split_ifs <;> omega
    have hfrac : float64Bits (.int n) % 2 ^ 52 = f := by
      simp only [float64Bits, hbits]
      split_ifs <;> omega
    rw [readFloat64, hexp, hfrac, if_neg (by omega), readMagnitude_fields he hsig]
    simp only [float64Bits]
    congr 1
    split_ifs <;> omega

theorem float64Bits_lt {x : Double} (hx : x.isSafeInteger ∨ x.isNaN) : float64Bits x < 256 ^ 8 := by
  cases x with
  | int n =>
    have := magnitudeBits_lt (m := n.natAbs) (by simpa [Double.isSafeInteger, Double.isNaN] using hx)
    rw [float64Bits]
    split_ifs <;> omega
  | nan => decide
  | other => simp [Double.isSafeInteger, Double.isNaN] at hx

/-- `DataView.setFloat64`. -/
def setFloat64 (little : Bool) (x : Double) : Bytes := setUint little 8 (float64Bits x)

/-- `DataView.getFloat64`. -/
def getFloat64 (little : Bool) (bs : Bytes) : Double := readFloat64 (getUint little bs)

@[simp] theorem setFloat64_length (little : Bool) (x : Double) : (setFloat64 little x).length = 8 := by
  simp [setFloat64, setUint_length]

theorem getFloat64_setFloat64 (little : Bool) {x : Double} (hx : x.isSafeInteger ∨ x.isNaN) :
    getFloat64 little (setFloat64 little x) = x := by
  rw [getFloat64, setFloat64, getUint_setUint, Nat.mod_eq_of_lt (float64Bits_lt hx)]
  cases x with
  | int n => exact readFloat64_bits (by simpa [Double.isSafeInteger, Double.isNaN] using hx)
  | nan => decide
  | other => simp [Double.isSafeInteger, Double.isNaN] at hx

end Cantrip.Lib
