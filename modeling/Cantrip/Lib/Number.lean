import Cantrip.Lib.Utf8
import Mathlib.Data.Int.Log
import Mathlib.Data.List.TakeWhile
import Mathlib.Data.Rat.Floor

/-!
# Numbers of texts

What `Number(text)` and `BigInt(text)` read. A literal stands for a rational number, and its double is the nearest one,
ties to even (`nearest`). Integers of at most 53 bits are read exactly (`toNumber_integer`).
-/

namespace Cantrip.Lib

open List Option

/-! ## Doubles -/

/-- A double by its value. Two doubles are the same for `Object.is` when they are equal. -/
inductive DoubleValue
  | nan
  | infinity (negative : Bool)
  | negZero
  | finite (value : ℚ)
  deriving DecidableEq

namespace DoubleValue

def isFinite : DoubleValue → Bool
  | nan => false
  | infinity _ => false
  | _ => true

def isInteger : DoubleValue → Bool
  | negZero => true
  | finite value => value.den == 1
  | _ => false

/-- `BigInt` of an integer. -/
def toInt : DoubleValue → Int
  | finite value => value.num
  | _ => 0

/-- `value === 0`. -/
def isZero : DoubleValue → Bool
  | negZero => true
  | finite value => value == 0
  | _ => false

/-- `low <= value && value <= high`. -/
def within (low high : Int) : DoubleValue → Bool
  | negZero => decide (low ≤ 0 ∧ 0 ≤ high)
  | finite value => decide ((low : ℚ) ≤ value ∧ value ≤ (high : ℚ))
  | _ => false

end DoubleValue

/-- The nearest integer, ties to even. -/
def roundHalfEven (x : ℚ) : Int :=
  let below := x.floor
  let rest := x - below
  if rest < 1 / 2 then below else if 1 / 2 < rest then below + 1 else if below % 2 = 0 then below else below + 1

theorem roundHalfEven_int (n : Int) : roundHalfEven n = n := by
  have hfloor : (n : ℚ).floor = n := Rat.floor_intCast n
  simp only [roundHalfEven, hfloor, sub_self]
  rw [if_pos (by norm_num)]

def signed (negative : Bool) (magnitude : ℚ) : DoubleValue :=
  if magnitude = 0 then if negative then .negZero else .finite 0 else .finite (if negative then -magnitude else magnitude)

def nearest (negative : Bool) (x : ℚ) : DoubleValue :=
  if x = 0 then signed negative 0
  else
    let exponent := max (Int.log 2 x - 52) (-1074)
    let magnitude := (roundHalfEven (x / 2 ^ exponent) : ℚ) * 2 ^ exponent
    if 2 ^ 1024 ≤ magnitude then .infinity negative else signed negative magnitude

theorem nearest_natCast (negative : Bool) {n : Nat} (hpos : 0 < n) (hn : n < 2 ^ 53) :
    nearest negative n = .finite (if negative then -n else n) := by
  have hne : (n : ℚ) ≠ 0 := Nat.cast_ne_zero.mpr hpos.ne'
  have hlog : Int.log 2 (n : ℚ) - 52 ≤ 0 := by
    rw [Int.log_natCast]
    have := Nat.log_lt_of_lt_pow hpos.ne' hn
    omega
  obtain ⟨k, hk⟩ : ∃ k : Nat, max (Int.log 2 (n : ℚ) - 52) (-1074) = -(k : Int) :=
    ⟨(-max (Int.log 2 (n : ℚ) - 52) (-1074)).toNat, by omega⟩
  have hscaled : (n : ℚ) / 2 ^ (-(k : Int)) = ((n * 2 ^ k : Nat) : Int) := by
    rw [zpow_neg, div_inv_eq_mul, zpow_natCast]
    push_cast
    rfl
  have hback : (((n * 2 ^ k : Nat) : Int) : ℚ) * 2 ^ (-(k : Int)) = n := by
    rw [← hscaled, div_mul_cancel₀]
    exact zpow_ne_zero _ two_ne_zero
  have hbound : ¬(2 : ℚ) ^ 1024 ≤ n := by
    rw [not_le]
    exact_mod_cast hn.trans (Nat.pow_lt_pow_right (by omega) (by omega))
  rw [nearest, if_neg hne]
  dsimp only
  rw [hk, hscaled, roundHalfEven_int, hback, if_neg hbound, signed, if_neg hne]

/-! ## Literals -/

/-- `[0-9]`. -/
def isDigit (u : UInt16) : Bool := decide (48 ≤ u.toNat ∧ u.toNat ≤ 57)

/-- White space and line terminators. -/
def isSpace (u : UInt16) : Bool :=
  let u := u.toNat
  (0x0009 ≤ u && u ≤ 0x000d) || u == 0x0020 || u == 0x00a0 || u == 0x1680 || (0x2000 ≤ u && u ≤ 0x200a) || u == 0x2028 ||
    u == 0x2029 || u == 0x202f || u == 0x205f || u == 0x3000 || u == 0xfeff

/-- `text.trim()`. -/
def trim (text : Utf16) : Utf16 := ((text.dropWhile isSpace).reverse.dropWhile isSpace).reverse

def splitSign : Utf16 → Bool × Utf16
  | [] => (false, [])
  | u :: rest => if u = 0x2b then (false, rest) else if u = 0x2d then (true, rest) else (false, u :: rest)

def digitsValue (digits : Utf16) : Nat := digits.foldl (fun n u => n * 10 + (u.toNat - 48)) 0

/-- `BigInt` of a text of the form `[+-]?[0-9]+`. -/
def readInteger (text : Utf16) : Option Int :=
  let digits := (splitSign text).2
  if digits ≠ [] ∧ digits.all isDigit = true then
    some (if (splitSign text).1 then -(digitsValue digits : Int) else digitsValue digits)
  else none

/-- `(?:[eE][+-]?[0-9]+)?` -/
def readExponent : Utf16 → Option Int
  | [] => some 0
  | u :: rest => if u = 0x65 ∨ u = 0x45 then readInteger rest else none

/-- `[+-]?(?:[0-9]+(?:\.[0-9]*)?|\.[0-9]+)(?:[eE][+-]?[0-9]+)?` -/
def readDecimal (text : Utf16) : Option (Bool × ℚ) :=
  let rest := (splitSign text).2
  let whole := rest.takeWhile isDigit
  let (fraction, after) := match rest.dropWhile isDigit with
    | [] => (([] : Utf16), ([] : Utf16))
    | u :: tail => if u = 0x2e then (tail.takeWhile isDigit, tail.dropWhile isDigit) else ([], u :: tail)
  if whole = [] ∧ fraction = [] then none
  else (readExponent after).map fun (exponent : Int) =>
    ((splitSign text).1, (digitsValue (whole ++ fraction) : ℚ) * 10 ^ (exponent - (fraction.length : Int)))

def radixDigit (u : UInt16) : Nat :=
  if isDigit u then u.toNat - 48
  else if 0x61 ≤ u.toNat ∧ u.toNat ≤ 0x66 then u.toNat - 87
  else if 0x41 ≤ u.toNat ∧ u.toNat ≤ 0x46 then u.toNat - 55
  else 16

/-- `0x`, `0o` and `0b` literals. -/
def readRadix : Utf16 → Option Nat
  | zero :: mark :: digits =>
    let radix := if mark = 0x78 ∨ mark = 0x58 then 16 else if mark = 0x6f ∨ mark = 0x4f then 8
      else if mark = 0x62 ∨ mark = 0x42 then 2 else 0
    if zero = 0x30 ∧ digits ≠ [] ∧ digits.all (fun u => decide (radixDigit u < radix)) = true then
      some (digits.foldl (fun n u => n * radix + radixDigit u) 0)
    else none
  | _ => none

def infinityText : Utf16 := [0x49, 0x6e, 0x66, 0x69, 0x6e, 0x69, 0x74, 0x79]

/-- `Number(text)`. -/
def toNumber (text : Utf16) : DoubleValue :=
  let text := trim text
  if text = [] then .finite 0
  else if (splitSign text).2 = infinityText then .infinity (splitSign text).1
  else match readRadix text with
    | some n => nearest false n
    | none =>
      match readDecimal text with
      | some (negative, value) => nearest negative value
      | none => .nan

theorem trim_of_all {text : Utf16} (h : ∀ u ∈ text, isSpace u = false) : trim text = text := by
  have hdrop : ∀ t : Utf16, (∀ u ∈ t, isSpace u = false) → t.dropWhile isSpace = t := by
    intro t ht
    cases t with
    | nil => rfl
    | cons u t => rw [dropWhile_cons, if_neg (by rw [ht u mem_cons_self]; exact Bool.false_ne_true)]
  rw [trim, hdrop text h, hdrop _ (fun u hu => h u (mem_reverse.mp hu)), reverse_reverse]

theorem isSpace_digit {u : UInt16} (h : isDigit u = true) : isSpace u = false := by
  have := of_decide_eq_true h
  simp only [isSpace]
  grind

theorem readInteger_some {text : Utf16} {i : Int} (h : readInteger text = some i) :
    (splitSign text).2 ≠ [] ∧ (∀ u ∈ (splitSign text).2, isDigit u = true) ∧
      i = if (splitSign text).1 then -(digitsValue (splitSign text).2 : Int) else digitsValue (splitSign text).2 := by
  simp only [readInteger] at h
  split at h
  · next hdigits => exact ⟨hdigits.1, all_eq_true.mp hdigits.2, (some.inj h).symm⟩
  · cases h

theorem splitSign_cases (text : Utf16) :
    text = (splitSign text).2 ∨ text = 0x2b :: (splitSign text).2 ∨ text = 0x2d :: (splitSign text).2 := by
  cases text with
  | nil => exact .inl rfl
  | cons u rest =>
    rw [splitSign]
    split
    · next h => exact .inr (.inl (by rw [h]))
    · split
      · next h => exact .inr (.inr (by rw [h]))
      · exact .inl rfl

theorem readRadix_integer {text : Utf16} (hdigits : ∀ u ∈ (splitSign text).2, isDigit u = true) : readRadix text = none := by
  match text with
  | [] => rfl
  | [u] => rfl
  | zero :: mark :: digits =>
    rw [readRadix]
    refine if_neg ?_
    rintro ⟨rfl, hne, hall⟩
    -- a literal that starts with a digit has a digit where the mark would be
    have hmark : isDigit mark = true := hdigits mark (mem_cons_of_mem _ mem_cons_self)
    obtain ⟨u, rest, rfl⟩ := exists_cons_of_ne_nil hne
    have hu := of_decide_eq_true (all_eq_true.mp hall u mem_cons_self)
    have hrange := of_decide_eq_true hmark
    have hother : ∀ v : UInt16, 57 < v.toNat → mark ≠ v := by
      rintro v hv rfl
      omega
    rw [if_neg (not_or.mpr ⟨hother _ (by decide), hother _ (by decide)⟩),
      if_neg (not_or.mpr ⟨hother _ (by decide), hother _ (by decide)⟩),
      if_neg (not_or.mpr ⟨hother _ (by decide), hother _ (by decide)⟩)] at hu
    exact absurd hu (Nat.not_lt_zero _)

theorem readDecimal_integer {text : Utf16} (hne : (splitSign text).2 ≠ []) (hdigits : ∀ u ∈ (splitSign text).2, isDigit u = true) :
    readDecimal text = some ((splitSign text).1, (digitsValue (splitSign text).2 : ℚ)) := by
  have htake : (splitSign text).2.takeWhile isDigit = (splitSign text).2 := takeWhile_eq_self_iff.mpr hdigits
  have hdrop : (splitSign text).2.dropWhile isDigit = [] := dropWhile_eq_nil_iff.mpr hdigits
  simp only [readDecimal, htake, hdrop]
  rw [if_neg (fun h => hne h.1), readExponent, map_some, append_nil, length_nil]
  simp

theorem toNumber_integer {text : Utf16} {i : Int} (h : readInteger text = some i) (hzero : i ≠ 0) (hi : i.natAbs < 2 ^ 53) :
    toNumber text = .finite i := by
  obtain ⟨hne, hdigits, hvalue⟩ := readInteger_some h
  have hspace : ∀ u ∈ text, isSpace u = false := by
    intro u hu
    rcases splitSign_cases text with htext | htext | htext <;> rw [htext] at hu
    · exact isSpace_digit (hdigits u hu)
    · rcases mem_cons.mp hu with rfl | hu
      · rfl
      · exact isSpace_digit (hdigits u hu)
    · rcases mem_cons.mp hu with rfl | hu
      · rfl
      · exact isSpace_digit (hdigits u hu)
  have htext : text ≠ [] := by
    rintro rfl
    exact hne rfl
  have hinfinity : (splitSign text).2 ≠ infinityText := by
    intro heq
    rw [heq] at hdigits
    exact absurd (hdigits 0x49 mem_cons_self) (by decide)
  have hpos : 0 < digitsValue (splitSign text).2 := by
    refine Nat.pos_of_ne_zero fun hnil => hzero ?_
    rw [hvalue, hnil]
    split <;> rfl
  have hsmall : digitsValue (splitSign text).2 < 2 ^ 53 := by
    rw [hvalue] at hi
    split at hi <;> omega
  simp only [toNumber, trim_of_all hspace, readRadix_integer hdigits, readDecimal_integer hne hdigits]
  rw [if_neg htext, if_neg hinfinity, nearest_natCast _ hpos hsmall, hvalue]
  split <;> push_cast <;> rfl

end Cantrip.Lib
