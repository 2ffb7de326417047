import Cantrip.Lib.Bytes
import Mathlib.Tactic.Linarith
import Mathlib.Tactic.Positivity

/-!
# Base-128 variable-length integers

`varintBytes k n` writes `n` in groups of seven bits, least significant group first, with the
continuation bit on every byte but the last; `k + 1` bytes are enough below `128 ^ (k + 1)`.
`zigzag` folds the signed numbers into the natural ones, so that small magnitudes stay short.
-/

namespace Cantrip.Lib

/-- The base-128 bytes of `n`, at most `k + 1` of them. -/
def varintBytes : Nat → Nat → Bytes
  | 0, n => [UInt8.ofNat (n % 128)]
  | k + 1, n =>
    if n / 128 = 0 then [UInt8.ofNat (n % 128)]
    else UInt8.ofNat (n % 128 ||| 128) :: varintBytes k (n / 128)

theorem varintBytes_length (k n : Nat) : 0 < (varintBytes k n).length ∧ (varintBytes k n).length ≤ k + 1 := by
  induction k generalizing n with
  | zero => simp [varintBytes]
  | succ k ih =>
    rw [varintBytes]
    split
    · simp
    · have := ih (n / 128)
      simp only [List.length_cons]
      omega

theorem or_128 (x : Nat) (h : x < 128) : x ||| 128 = x + 128 := by
  rw [Nat.or_comm, show 128 = 2 ^ 7 * 1 by rfl, ← Nat.two_pow_add_eq_or_of_lt h]
  omega

/-- The seven payload bits of a byte. -/
def payload7 (b : UInt8) : Nat := b.toNat &&& 127

/-- The continuation bit of a byte. -/
def continues (b : UInt8) : Bool := decide (b.toNat &&& 128 ≠ 0)

theorem payload7_eq (b : UInt8) : payload7 b = b.toNat % 128 := Nat.and_two_pow_sub_one_eq_mod b.toNat 7

theorem continues_eq (b : UInt8) : continues b = decide (128 ≤ b.toNat) := by
  have hbit : b.toNat &&& 128 = (b.toNat / 128 % 2) * 128 := by
    have h := Nat.and_two_pow b.toNat 7
    rw [Nat.testBit_eq_decide_div_mod_eq] at h
    norm_num at h
    rw [h]
    rcases Nat.mod_two_eq_zero_or_one (b.toNat / 128) with h0 | h0 <;> simp [h0]
  have hb := b.toNat_lt
  rw [continues, hbit]
  congr 1
  apply propext
  omega

theorem payload7_last (n : Nat) : payload7 (UInt8.ofNat (n % 128)) = n % 128 := by
  rw [payload7_eq, UInt8.toNat_ofNat']
  omega

theorem continues_last (n : Nat) : continues (UInt8.ofNat (n % 128)) = false := by
  rw [continues_eq, UInt8.toNat_ofNat']
  simp
  omega

theorem payload7_more (n : Nat) : payload7 (UInt8.ofNat (n % 128 ||| 128)) = n % 128 := by
  rw [or_128 _ (Nat.mod_lt n (by decide)), payload7_eq, UInt8.toNat_ofNat']
  omega

theorem continues_more (n : Nat) : continues (UInt8.ofNat (n % 128 ||| 128)) = true := by
  rw [or_128 _ (Nat.mod_lt n (by decide)), continues_eq, UInt8.toNat_ofNat']
  simp
  omega

/-! ## Zigzag -/

/-- `(v << 1) ^ (v >> (bits - 1))`. -/
def zigzag (bits : Nat) (v : Int) : Int := Int.xor (v * 2) (v >>> (bits - 1))

/-- `(n >> 1) ^ -(n & 1)`. -/
def unzigzag (n : Nat) : Int := Int.xor (n / 2 : Nat) (-(n % 2 : Nat))

theorem xor_zero_right (v : Int) : Int.xor v 0 = v := by
  cases v <;> simp [Int.xor]

theorem xor_neg_one (v : Int) : Int.xor v (-1) = -v - 1 := by
  cases v with
  | ofNat n =>
    show Int.negSucc (n ^^^ 0) = -(n : Int) - 1
    rw [Nat.xor_zero]
    omega
  | negSucc n =>
    show ((n ^^^ 0 : Nat) : Int) = _
    rw [Nat.xor_zero]
    omega

theorem zigzag_nonneg (bits : Nat) (v : Int) (h0 : 0 ≤ v) (h : v < 2 ^ (bits - 1)) : zigzag bits v = 2 * v := by
  have hshift : v >>> (bits - 1) = 0 := by
    rw [Int.shiftRight_eq_div_pow]
    exact Int.ediv_eq_zero_of_lt h0 (by exact_mod_cast h)
  rw [zigzag, hshift, xor_zero_right]
  omega

theorem zigzag_neg (bits : Nat) (v : Int) (h0 : v < 0) (h : -2 ^ (bits - 1) ≤ v) : zigzag bits v = -2 * v - 1 := by
  have hpow : (0 : Int) < 2 ^ (bits - 1) := by positivity
  have hshift : v >>> (bits - 1) = -1 := by
    rw [Int.shiftRight_eq_div_pow]
    have hcast : ((2 ^ (bits - 1) : Nat) : Int) = 2 ^ (bits - 1) := by push_cast; rfl
    rw [hcast, Int.ediv_eq_iff_of_pos hpow]
    constructor <;> linarith
  rw [zigzag, hshift, xor_neg_one]
  omega

theorem zigzag_bounds (bits : Nat) (v : Int) (hbits : 0 < bits) (hlow : -2 ^ (bits - 1) ≤ v)
    (hhigh : v < 2 ^ (bits - 1)) : 0 ≤ zigzag bits v ∧ zigzag bits v < 2 ^ bits := by
  have hpow : (2 : Int) ^ bits = 2 * 2 ^ (bits - 1) := by
    rw [← pow_succ', Nat.sub_add_cancel hbits]
  rcases lt_or_ge v 0 with h | h
  · rw [zigzag_neg bits v h hlow]
    constructor <;> linarith
  · rw [zigzag_nonneg bits v h hhigh]
    constructor <;> linarith

theorem unzigzag_zigzag (bits : Nat) (v : Int) (hlow : -2 ^ (bits - 1) ≤ v) (hhigh : v < 2 ^ (bits - 1)) :
    unzigzag (zigzag bits v).toNat = v := by
  rcases lt_or_ge v 0 with h | h
  · rw [zigzag_neg bits v h hlow]
    have hdiv : (-2 * v - 1).toNat / 2 = (-v - 1).toNat := by omega
    have hmod : (-2 * v - 1).toNat % 2 = 1 := by omega
    rw [unzigzag, hdiv, hmod]
    have : ((-v - 1).toNat : Int) = -v - 1 := by omega
    rw [this]
    simp [xor_neg_one]
  · rw [zigzag_nonneg bits v h hhigh]
    have hdiv : (2 * v).toNat / 2 = v.toNat := by omega
    have hmod : (2 * v).toNat % 2 = 0 := by omega
    rw [unzigzag, hdiv, hmod]
    simp [xor_zero_right, h]

end Cantrip.Lib
