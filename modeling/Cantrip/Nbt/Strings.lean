import Cantrip.Nbt.Types

/-!
# NBT strings (`packages/nbt/src/strings.ts`)

Java's modified UTF-8 writes every UTF-16 code unit by itself, so it keeps lone surrogates; the UTF-8
profile refuses them before it calls the platform's encoder. Whatever `encodeNbtString` accepts,
`decodeNbtString` returns (`decodeNbtString_encodeNbtString`).
-/

namespace Cantrip.Nbt

open Lib List

/-- `new TextDecoder("utf-8", { fatal: true, ignoreBOM: true }).decode(bytes)`. -/
def textDecoder (bytes : Bytes) : Option Utf16 := (utf8Decode bytes).map (·.flatMap utf16Units)

/-- `new TextEncoder().encode(text)`. -/
def textEncoder (text : Utf16) : Bytes := utf8Encode text

/-- The modified UTF-8 loop, `at` bytes into the string. -/
def decodeMutf8 (offset : Nat) : Nat → Bytes → Except NbtError Utf16
  | _, [] => .ok []
  | i, first :: rest =>
    if first.toNat < 0x80 then (first.toUInt16 :: ·) <$> decodeMutf8 offset (i + 1) rest
    else if first.toNat &&& 0xe0 = 0xc0 then
      match rest with
      | b :: rest =>
        if b.toNat &&& 0xc0 ≠ 0x80 then .error ⟨offset + i + 1, "Invalid modified UTF-8 continuation"⟩
        else (UInt16.ofNat (((first.toNat &&& 0x1f) <<< 6) ||| (b.toNat &&& 0x3f)) :: ·) <$> decodeMutf8 offset (i + 2) rest
      | [] => .error ⟨offset + i, "Invalid modified UTF-8 string"⟩
    else if first.toNat &&& 0xf0 = 0xe0 then
      match rest with
      | b :: c :: rest =>
        if b.toNat &&& 0xc0 ≠ 0x80 then .error ⟨offset + i + 1, "Invalid modified UTF-8 continuation"⟩
        else if c.toNat &&& 0xc0 ≠ 0x80 then .error ⟨offset + i + 2, "Invalid modified UTF-8 continuation"⟩
        else (UInt16.ofNat (((((first.toNat &&& 0xf) <<< 6) ||| (b.toNat &&& 0x3f)) <<< 6) ||| (c.toNat &&& 0x3f)) :: ·)
          <$> decodeMutf8 offset (i + 3) rest
      | _ => .error ⟨offset + i, "Invalid modified UTF-8 string"⟩
    else .error ⟨offset + i, "Invalid modified UTF-8 string"⟩

def decodeNbtString (bytes : Bytes) (encoding : NbtStrings) (offset : Nat) : Except NbtError Utf16 :=
  match encoding with
  | .utf8 =>
    match textDecoder bytes with
    | some text => .ok text
    | none => .error ⟨offset, "Invalid UTF-8 string"⟩
  | .mutf8 => decodeMutf8 offset 0 bytes

def mutf8Unit (c : Nat) : Bytes :=
  if 0 < c ∧ c < 0x80 then [UInt8.ofNat c]
  else if c < 0x800 then [UInt8.ofNat (0xc0 ||| (c >>> 6)), UInt8.ofNat (0x80 ||| (c &&& 63))]
  else [UInt8.ofNat (0xe0 ||| (c >>> 12)), UInt8.ofNat (0x80 ||| ((c >>> 6) &&& 63)), UInt8.ofNat (0x80 ||| (c &&& 63))]

def encodeNbtString (text : Utf16) (encoding : NbtStrings) : Except NbtError Bytes :=
  match encoding with
  | .utf8 =>
    -- the platform encoder replaces lone surrogates; never silently change an edited value
    if wellFormed text then .ok (textEncoder text) else .error ⟨0, "Unpaired UTF-8 surrogate"⟩
  | .mutf8 => .ok (text.flatMap fun c => mutf8Unit c.toNat)

/-! ## Round trip -/

theorem and_63 (n : Nat) : n &&& 63 = n % 64 := Nat.and_two_pow_sub_one_eq_mod n 6

theorem or_high {k x : Nat} (m : Nat) (h : x < 2 ^ k) : (2 ^ k * m) ||| x = 2 ^ k * m + x :=
  (Nat.two_pow_add_eq_or_of_lt h m).symm

theorem or_c0 {x : Nat} (h : x < 32) : 0xc0 ||| x = 0xc0 + x := by
  have := or_high (k := 5) 6 h
  norm_num at this
  exact this

theorem or_e0 {x : Nat} (h : x < 16) : 0xe0 ||| x = 0xe0 + x := by
  have := or_high (k := 4) 14 h
  norm_num at this
  exact this

theorem or_80 {x : Nat} (h : x < 64) : 0x80 ||| x = 0x80 + x := by
  have := or_high (k := 6) 2 h
  norm_num at this
  exact this

theorem shl_or (a : Nat) {x : Nat} (h : x < 64) : (a <<< 6) ||| x = a * 64 + x := by
  have := or_high (k := 6) a h
  rw [Nat.shiftLeft_eq]
  norm_num at this ⊢
  rw [Nat.mul_comm a 64]
  exact this

theorem lead2 : ∀ x < 32, (0xc0 + x) &&& 0xe0 = 0xc0 ∧ (0xc0 + x) &&& 0x1f = x := by decide

theorem lead3 : ∀ x < 16, (0xe0 + x) &&& 0xe0 ≠ 0xc0 ∧ (0xe0 + x) &&& 0xf0 = 0xe0 ∧ (0xe0 + x) &&& 0xf = x := by
  decide

theorem continuation : ∀ x < 64, (0x80 + x) &&& 0xc0 = 0x80 ∧ (0x80 + x) &&& 0x3f = x := by decide

theorem decodeMutf8_unit (offset i : Nat) (c : UInt16) (rest : Bytes) :
    ∃ j, decodeMutf8 offset i (mutf8Unit c.toNat ++ rest) = (c :: ·) <$> decodeMutf8 offset j rest := by
  have hc : c.toNat < 0x10000 := c.toNat_lt
  have h6 : c.toNat >>> 6 = c.toNat / 64 := Nat.shiftRight_eq_div_pow c.toNat 6
  have h12 : c.toNat >>> 12 = c.toNat / 4096 := Nat.shiftRight_eq_div_pow c.toNat 12
  have hlow : c.toNat % 64 < 64 := Nat.mod_lt _ (by decide)
  obtain ⟨hcont, hbits⟩ := continuation _ hlow
  unfold mutf8Unit
  split_ifs with h1 h2
  · refine ⟨i + 1, ?_⟩
    have hval : (UInt8.ofNat c.toNat).toNat = c.toNat := toNat_ofNat_lt (by omega)
    have hunit : (UInt8.ofNat c.toNat).toUInt16 = c := by
      apply UInt16.toNat_inj.mp
      rw [UInt8.toNat_toUInt16, hval]
    rw [cons_append, nil_append, decodeMutf8.eq_def]
    simp only [hval, hunit, if_pos h1.2]
  · refine ⟨i + 2, ?_⟩
    have hx : c.toNat / 64 < 32 := by omega
    obtain ⟨hlead, hlow5⟩ := lead2 _ hx
    have hvalue : UInt16.ofNat (c.toNat / 64 * 64 + c.toNat % 64) = c := by
      rw [Nat.div_add_mod', UInt16.ofNat_toNat]
    rw [h6, and_63, or_c0 hx, or_80 hlow, cons_append, cons_append, nil_append, decodeMutf8.eq_def]
    simp only [toNat_ofNat_lt (show 0xc0 + c.toNat / 64 < 256 by omega),
      toNat_ofNat_lt (show 0x80 + c.toNat % 64 < 256 by omega), hlead, hlow5, hcont, hbits, ne_eq, not_true_eq_false,
      if_true, if_false, shl_or _ hlow, hvalue]
    rw [if_neg (by omega)]
  · refine ⟨i + 3, ?_⟩
    have hx : c.toNat / 4096 < 16 := by omega
    have hmid : c.toNat / 64 % 64 < 64 := Nat.mod_lt _ (by decide)
    obtain ⟨hno, hlead, hlow4⟩ := lead3 _ hx
    obtain ⟨hcont', hbits'⟩ := continuation _ hmid
    have hvalue : UInt16.ofNat ((c.toNat / 4096 * 64 + c.toNat / 64 % 64) * 64 + c.toNat % 64) = c := by
      have h : (c.toNat / 4096 * 64 + c.toNat / 64 % 64) * 64 + c.toNat % 64 = c.toNat := by omega
      rw [h, UInt16.ofNat_toNat]
    rw [h12, h6, and_63, and_63, or_e0 hx, or_80 hlow, or_80 hmid, cons_append, cons_append,
      cons_append, nil_append, decodeMutf8.eq_def]
    simp only [toNat_ofNat_lt (show 0xe0 + c.toNat / 4096 < 256 by omega),
      toNat_ofNat_lt (show 0x80 + c.toNat % 64 < 256 by omega),
      toNat_ofNat_lt (show 0x80 + c.toNat / 64 % 64 < 256 by omega), hno, hlead, hlow4, hcont, hbits, hcont', hbits',
      ne_eq, not_true_eq_false, if_true, if_false, shl_or _ hlow, shl_or _ hmid, hvalue]
    rw [if_neg (by omega)]

theorem decodeMutf8_encode (offset i : Nat) (text : Utf16) :
    decodeMutf8 offset i (text.flatMap fun c => mutf8Unit c.toNat) = .ok text := by
  induction text generalizing i with
  | nil => simp [decodeMutf8]
  | cons c text ih =>
    obtain ⟨j, hj⟩ := decodeMutf8_unit offset i c (text.flatMap fun c => mutf8Unit c.toNat)
    rw [flatMap_cons, hj, ih j]
    rfl

theorem decodeNbtString_encodeNbtString {text : Utf16} {encoding : NbtStrings} {bytes : Bytes} (offset : Nat)
    (h : encodeNbtString text encoding = .ok bytes) : decodeNbtString bytes encoding offset = .ok text := by
  cases encoding with
  | mutf8 =>
    cases h
    exact decodeMutf8_encode offset 0 text
  | utf8 =>
    simp only [encodeNbtString] at h
    split at h
    · next hwf =>
      cases h
      have hdecode : textDecoder (textEncoder text) = some text := utf8Decode_utf8Encode text hwf
      simp only [decodeNbtString, hdecode]
    · cases h

end Cantrip.Nbt
