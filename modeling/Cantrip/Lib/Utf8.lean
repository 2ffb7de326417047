import Cantrip.Lib.Bytes

/-!
# UTF-16 and UTF-8 text

Text is a list of UTF-16 code units. `utf16Units` and `utf16Scalars` move between scalar values and
code units, `utf8Bytes` encodes one scalar value, and `utf8Decode` is the strict decoder: it refuses
overlong forms, surrogates, values past `0x10ffff` and truncated sequences. Well-formed text survives
the trip through its bytes (`utf8Decode_utf8Encode`).
-/

namespace Cantrip.Lib

open List Bool

abbrev Utf16 := List UInt16

def isHighSurrogate (c : Nat) : Bool := decide (0xd800 ≤ c ∧ c ≤ 0xdbff)

def isLowSurrogate (c : Nat) : Bool := decide (0xdc00 ≤ c ∧ c ≤ 0xdfff)

/-- A Unicode scalar value: a code point that is no surrogate. -/
def IsScalar (c : Nat) : Prop := c < 0x110000 ∧ ¬(0xd800 ≤ c ∧ c ≤ 0xdfff)

/-- The code units of one scalar value. -/
def utf16Units (c : Nat) : Utf16 :=
  if c < 0x10000 then [UInt16.ofNat c]
  else [UInt16.ofNat (0xd800 + (c - 0x10000) / 0x400), UInt16.ofNat (0xdc00 + (c - 0x10000) % 0x400)]

/-- The scalar values of a text; a surrogate without its partner is replaced by `0xfffd`. -/
def utf16Scalars : Utf16 → List Nat
  | [] => []
  | [c] => [if isHighSurrogate c.toNat || isLowSurrogate c.toNat then 0xfffd else c.toNat]
  | c :: d :: rest =>
    if isHighSurrogate c.toNat then
      if isLowSurrogate d.toNat then
        (0x10000 + (c.toNat - 0xd800) * 0x400 + (d.toNat - 0xdc00)) :: utf16Scalars rest
      else 0xfffd :: utf16Scalars (d :: rest)
    else if isLowSurrogate c.toNat then 0xfffd :: utf16Scalars (d :: rest)
    else c.toNat :: utf16Scalars (d :: rest)

/-- Every surrogate of the text stands in a pair. -/
def wellFormed : Utf16 → Bool
  | [] => true
  | [c] => !(isHighSurrogate c.toNat || isLowSurrogate c.toNat)
  | c :: d :: rest =>
    if isHighSurrogate c.toNat then isLowSurrogate d.toNat && wellFormed rest
    else !isLowSurrogate c.toNat && wellFormed (d :: rest)

theorem isScalar_of_not_surrogate {c : UInt16} (hh : isHighSurrogate c.toNat = false)
    (hl : isLowSurrogate c.toNat = false) : IsScalar c.toNat := by
  have hc := c.toNat_lt
  simp only [isHighSurrogate, isLowSurrogate, decide_eq_false_iff_not] at hh hl
  exact ⟨by omega, by omega⟩

theorem utf16Units_single (c : UInt16) : utf16Units c.toNat = [c] := by
  have hc : c.toNat < 0x10000 := c.toNat_lt
  rw [utf16Units, if_pos hc, UInt16.ofNat_toNat]

theorem utf16Units_pair {c d : UInt16} (hc : isHighSurrogate c.toNat = true) (hd : isLowSurrogate d.toNat = true) :
    utf16Units (0x10000 + (c.toNat - 0xd800) * 0x400 + (d.toNat - 0xdc00)) = [c, d] := by
  simp only [isHighSurrogate, isLowSurrogate, decide_eq_true_eq] at hc hd
  have h1 : 0xd800 + (0x10000 + (c.toNat - 0xd800) * 0x400 + (d.toNat - 0xdc00) - 0x10000) / 0x400 = c.toNat := by
    omega
  have h2 : 0xdc00 + (0x10000 + (c.toNat - 0xd800) * 0x400 + (d.toNat - 0xdc00) - 0x10000) % 0x400 = d.toNat := by
    omega
  rw [utf16Units, if_neg (by omega), h1, h2, UInt16.ofNat_toNat, UInt16.ofNat_toNat]

theorem utf16Scalars_isScalar (text : Utf16) (h : wellFormed text = true) : ∀ c ∈ utf16Scalars text, IsScalar c := by
  induction text using utf16Scalars.induct with
  | case1 => simp [utf16Scalars]
  | case2 c =>
    simp only [wellFormed, not_eq_true', or_eq_false_iff] at h
    simp only [utf16Scalars, h.1, h.2, Bool.or_self, false_eq_true, if_false, mem_singleton, forall_eq]
    exact isScalar_of_not_surrogate h.1 h.2
  | case3 c d rest hc hd ih =>
    simp only [wellFormed, hc, hd, if_true, Bool.true_and] at h
    simp only [utf16Scalars, hc, hd, if_true, mem_cons, forall_eq_or_imp]
    refine ⟨?_, ih h⟩
    simp only [isHighSurrogate, isLowSurrogate, decide_eq_true_eq] at hc hd
    exact ⟨by omega, by omega⟩
  | case4 c d rest hc hd ih => simp [wellFormed, hc, hd] at h
  | case5 c d rest hc hl ih => simp [wellFormed, hc, hl] at h
  | case6 c d rest hc hl ih =>
    simp only [not_eq_true] at hc hl
    simp only [wellFormed, hc, hl, false_eq_true, if_false, Bool.not_false, Bool.true_and] at h
    simp only [utf16Scalars, hc, hl, false_eq_true, if_false, mem_cons, forall_eq_or_imp]
    exact ⟨isScalar_of_not_surrogate hc hl, ih h⟩

theorem utf16Units_utf16Scalars (text : Utf16) (h : wellFormed text = true) :
    (utf16Scalars text).flatMap utf16Units = text := by
  induction text using utf16Scalars.induct with
  | case1 => rfl
  | case2 c =>
    simp only [wellFormed, not_eq_true', or_eq_false_iff] at h
    simp [utf16Scalars, h.1, h.2, utf16Units_single]
  | case3 c d rest hc hd ih =>
    simp only [wellFormed, hc, hd, if_true, Bool.true_and] at h
    simp only [utf16Scalars, hc, hd, if_true, flatMap_cons, utf16Units_pair hc hd, ih h]
    rfl
  | case4 c d rest hc hd ih => simp [wellFormed, hc, hd] at h
  | case5 c d rest hc hl ih => simp [wellFormed, hc, hl] at h
  | case6 c d rest hc hl ih =>
    simp only [not_eq_true] at hc hl
    simp only [wellFormed, hc, hl, false_eq_true, if_false, Bool.not_false, Bool.true_and] at h
    simp only [utf16Scalars, hc, hl, false_eq_true, if_false, flatMap_cons, utf16Units_single, ih h]
    rfl

/-! ## UTF-8 -/

def utf8Bytes (c : Nat) : Bytes :=
  if c < 0x80 then [UInt8.ofNat c]
  else if c < 0x800 then [UInt8.ofNat (0xc0 + c / 0x40), UInt8.ofNat (0x80 + c % 0x40)]
  else if c < 0x10000 then
    [UInt8.ofNat (0xe0 + c / 0x1000), UInt8.ofNat (0x80 + c / 0x40 % 0x40), UInt8.ofNat (0x80 + c % 0x40)]
  else
    [UInt8.ofNat (0xf0 + c / 0x40000), UInt8.ofNat (0x80 + c / 0x1000 % 0x40),
      UInt8.ofNat (0x80 + c / 0x40 % 0x40), UInt8.ofNat (0x80 + c % 0x40)]

def utf8Encode (text : Utf16) : Bytes := (utf16Scalars text).flatMap utf8Bytes

def inRange (b : UInt8) (low high : Nat) : Bool := decide (low ≤ b.toNat ∧ b.toNat ≤ high)

/-- The strict decoder. The second byte's range depends on the first, which is what excludes overlong
forms, surrogates and values past `0x10ffff`. -/
def utf8Decode : Bytes → Option (List Nat)
  | [] => some []
  | a :: rest =>
    if a.toNat < 0x80 then (utf8Decode rest).map (a.toNat :: ·)
    else if inRange a 0xc2 0xdf then
      match rest with
      | b :: rest =>
        if inRange b 0x80 0xbf then
          (utf8Decode rest).map (((a.toNat - 0xc0) * 0x40 + (b.toNat - 0x80)) :: ·)
        else none
      | _ => none
    else if inRange a 0xe0 0xef then
      match rest with
      | b :: c :: rest =>
        if inRange b (if a.toNat = 0xe0 then 0xa0 else 0x80) (if a.toNat = 0xed then 0x9f else 0xbf)
            && inRange c 0x80 0xbf then
          (utf8Decode rest).map (((a.toNat - 0xe0) * 0x1000 + (b.toNat - 0x80) * 0x40 + (c.toNat - 0x80)) :: ·)
        else none
      | _ => none
    else if inRange a 0xf0 0xf4 then
      match rest with
      | b :: c :: d :: rest =>
        if inRange b (if a.toNat = 0xf0 then 0x90 else 0x80) (if a.toNat = 0xf4 then 0x8f else 0xbf)
            && inRange c 0x80 0xbf && inRange d 0x80 0xbf then
          (utf8Decode rest).map (((a.toNat - 0xf0) * 0x40000 + (b.toNat - 0x80) * 0x1000 + (c.toNat - 0x80) * 0x40
              + (d.toNat - 0x80)) :: ·)
        else none
      | _ => none
    else none

theorem toNat_ofNat_lt {n : Nat} (h : n < 256) : (UInt8.ofNat n).toNat = n := by
  rw [UInt8.toNat_ofNat']
  omega

theorem inRange_ofNat {n low high : Nat} (h : n < 256) : inRange (UInt8.ofNat n) low high = decide (low ≤ n ∧ n ≤ high) := by
  rw [inRange, toNat_ofNat_lt h]

theorem utf8Decode_utf8Bytes (c : Nat) (rest : Bytes) (hc : IsScalar c) :
    utf8Decode (utf8Bytes c ++ rest) = (utf8Decode rest).map (c :: ·) := by
  obtain ⟨hmax, hsurrogate⟩ := hc
  have hb : ∀ n, (0x80 + n % 0x40) < 256 := fun n => by omega
  have hin : ∀ n, inRange (UInt8.ofNat (0x80 + n % 0x40)) 0x80 0xbf = true := fun n => by
    rw [inRange_ofNat (hb n)]
    exact decide_eq_true (by omega)
  unfold utf8Bytes
  split_ifs with h1 h2 h3
  · rw [cons_append, nil_append, utf8Decode.eq_def]
    simp only [toNat_ofNat_lt (show c < 256 by omega), if_pos h1]
  · have ha : 0xc0 + c / 0x40 < 256 := by omega
    have hvalue : (0xc0 + c / 0x40 - 0xc0) * 0x40 + (0x80 + c % 0x40 - 0x80) = c := by omega
    rw [cons_append, cons_append, nil_append, utf8Decode.eq_def]
    simp only [toNat_ofNat_lt ha, toNat_ofNat_lt (hb c), inRange_ofNat ha, hin, hvalue, if_true]
    rw [if_neg (by omega), if_pos (decide_eq_true (by omega))]
  · have ha : 0xe0 + c / 0x1000 < 256 := by omega
    have hvalue : (0xe0 + c / 0x1000 - 0xe0) * 0x1000 + (0x80 + c / 0x40 % 0x40 - 0x80) * 0x40
        + (0x80 + c % 0x40 - 0x80) = c := by omega
    rw [cons_append, cons_append, cons_append, nil_append, utf8Decode.eq_def]
    simp only [toNat_ofNat_lt ha, toNat_ofNat_lt (hb c), toNat_ofNat_lt (hb (c / 0x40)), inRange_ofNat ha,
      inRange_ofNat (hb (c / 0x40)), hin, hvalue, Bool.and_true]
    rw [if_neg (by omega), if_neg (by simp; omega), if_pos (decide_eq_true (by omega)),
      if_pos (decide_eq_true (by split_ifs <;> omega))]
  · have ha : 0xf0 + c / 0x40000 < 256 := by omega
    have hvalue : (0xf0 + c / 0x40000 - 0xf0) * 0x40000 + (0x80 + c / 0x1000 % 0x40 - 0x80) * 0x1000
        + (0x80 + c / 0x40 % 0x40 - 0x80) * 0x40 + (0x80 + c % 0x40 - 0x80) = c := by omega
    rw [cons_append, cons_append, cons_append, cons_append, nil_append, utf8Decode.eq_def]
    simp only [toNat_ofNat_lt ha, toNat_ofNat_lt (hb c), toNat_ofNat_lt (hb (c / 0x40)),
      toNat_ofNat_lt (hb (c / 0x1000)), inRange_ofNat ha, inRange_ofNat (hb (c / 0x1000)), hin, hvalue, Bool.and_true]
    rw [if_neg (by omega), if_neg (by simp; omega), if_neg (by simp; omega), if_pos (decide_eq_true (by omega)),
      if_pos (decide_eq_true (by split_ifs <;> omega))]

theorem utf8Decode_flatMap (cs : List Nat) (h : ∀ c ∈ cs, IsScalar c) : utf8Decode (cs.flatMap utf8Bytes) = some cs := by
  induction cs with
  | nil => rfl
  | cons c cs ih =>
    rw [flatMap_cons, utf8Decode_utf8Bytes c _ (h c (by simp)), ih (fun d hd => h d (by simp [hd]))]
    rfl

theorem utf8Decode_utf8Encode (text : Utf16) (h : wellFormed text = true) :
    (utf8Decode (utf8Encode text)).map (·.flatMap utf16Units) = some text := by
  rw [utf8Encode, utf8Decode_flatMap _ (utf16Scalars_isScalar text h), Option.map_some, utf16Units_utf16Scalars text h]

end Cantrip.Lib
