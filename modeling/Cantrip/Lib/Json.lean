import Cantrip.Lib.Utf8

/-!
# The grammar of JSON texts

What the characters of a JSON text mean, up to the tree they build: whitespace, numbers as a shape, and string
bodies with the UTF-16 units they stand for. `wtf8Encode` writes units as bytes, a surrogate without its partner
like any other code point of three bytes.
-/

namespace Cantrip.Lib

open List Bool

/-! ## Whitespace and numbers -/

def isJsonSpace (c : Char) : Bool := c = ' ' || c = '\t' || c = '\r' || c = '\n'

/-- A run of whitespace. -/
def JsonSpace (t : List Char) : Prop := ∀ c ∈ t, isJsonSpace c = true

def isDigitChar (c : Char) : Bool := decide (48 ≤ c.toNat ∧ c.toNat ≤ 57)

/-- Some digits, at least one. -/
def Digits (t : List Char) : Prop := t ≠ [] ∧ ∀ c ∈ t, isDigitChar c = true

inductive JsonNumber : List Char → Prop
  | mk {sign int frac exp : List Char} (hsign : sign = [] ∨ sign = ['-'])
      (hint : int = ['0'] ∨ Digits int ∧ int.head? ≠ some '0') (hfrac : frac = [] ∨ ∃ t, Digits t ∧ frac = '.' :: t)
      (hexp : exp = [] ∨ ∃ e s t, (e = 'e' ∨ e = 'E') ∧ (s = [] ∨ s = ['+'] ∨ s = ['-']) ∧ Digits t ∧ exp = e :: (s ++ t)) :
      JsonNumber (sign ++ int ++ frac ++ exp)

def isNumberChar (c : Char) : Bool := isDigitChar c || c = '-' || c = '+' || c = '.' || c = 'e' || c = 'E'

theorem Digits.isNumberChar {t : List Char} (h : Digits t) : ∀ c ∈ t, Lib.isNumberChar c = true := by
  intro c hc
  unfold Lib.isNumberChar
  rw [h.2 c hc]
  rfl

theorem JsonNumber.chars {t : List Char} (h : JsonNumber t) : ∀ c ∈ t, isNumberChar c = true := by
  obtain ⟨hsign, hint, hfrac, hexp⟩ := h
  intro c hc
  simp only [mem_append] at hc
  obtain ((hc | hc) | hc) | hc := hc
  · obtain rfl | rfl := hsign
    · simp at hc
    · rw [mem_singleton.mp hc]
      rfl
  · obtain rfl | ⟨hdigits, -⟩ := hint
    · rw [mem_singleton.mp hc]
      rfl
    · exact hdigits.isNumberChar c hc
  · obtain rfl | ⟨t, ht, rfl⟩ := hfrac
    · simp at hc
    · obtain rfl | hc := mem_cons.mp hc
      · rfl
      · exact ht.isNumberChar c hc
  · obtain rfl | ⟨e, s, t, he, hs, ht, rfl⟩ := hexp
    · simp at hc
    · obtain rfl | hc := mem_cons.mp hc
      · obtain rfl | rfl := he
        · rfl
        · rfl
      · obtain hc | hc := mem_append.mp hc
        · obtain rfl | rfl | rfl := hs
          · simp at hc
          · rw [mem_singleton.mp hc]
            rfl
          · rw [mem_singleton.mp hc]
            rfl
        · exact ht.isNumberChar c hc

theorem JsonNumber.head {t : List Char} (h : JsonNumber t) : ∃ c rest, t = c :: rest ∧ (c = '-' ∨ isDigitChar c = true) := by
  obtain ⟨hsign, hint, -, -⟩ := h
  obtain rfl | rfl := hsign
  · obtain rfl | ⟨⟨hne, hdigits⟩, -⟩ := hint
    · exact ⟨'0', _, rfl, .inr rfl⟩
    · obtain ⟨d, ds, rfl⟩ := exists_cons_of_ne_nil hne
      exact ⟨d, _, rfl, .inr (hdigits d mem_cons_self)⟩
  · exact ⟨'-', _, rfl, .inl rfl⟩

def hexValue (c : Char) : Option Nat :=
  if 48 ≤ c.toNat ∧ c.toNat ≤ 57 then some (c.toNat - 48)
  else if 97 ≤ c.toNat ∧ c.toNat ≤ 102 then some (c.toNat - 87)
  else if 65 ≤ c.toNat ∧ c.toNat ≤ 70 then some (c.toNat - 55)
  else none

def escapeUnit (c : Char) : Option UInt16 :=
  match c with
  | '"' => some 34
  | '\\' => some 92
  | '/' => some 47
  | 'b' => some 8
  | 'f' => some 12
  | 'n' => some 10
  | 'r' => some 13
  | 't' => some 9
  | _ => none

inductive StringBody : Utf16 → List Char → Prop
  | nil : StringBody [] []
  | char {s t} (c : Char) (hquote : c ≠ '"') (hslash : c ≠ '\\') (hcontrol : 32 ≤ c.toNat) (h : StringBody s t) :
      StringBody (utf16Units c.toNat ++ s) (c :: t)
  | escape {s t u} (c : Char) (hunit : escapeUnit c = some u) (h : StringBody s t) : StringBody (u :: s) ('\\' :: c :: t)
  | unicode {s t n₁ n₂ n₃ n₄} (c₁ c₂ c₃ c₄ : Char) (h₁ : hexValue c₁ = some n₁) (h₂ : hexValue c₂ = some n₂)
      (h₃ : hexValue c₃ = some n₃) (h₄ : hexValue c₄ = some n₄) (h : StringBody s t) :
      StringBody (UInt16.ofNat (((n₁ * 16 + n₂) * 16 + n₃) * 16 + n₄) :: s) ('\\' :: 'u' :: c₁ :: c₂ :: c₃ :: c₄ :: t)

/-- The code points of a text: a pair of surrogates is one, a surrogate without its partner stands for itself. -/
def codePoints : Utf16 → List Nat
  | [] => []
  | [c] => [c.toNat]
  | c :: d :: rest =>
    if isHighSurrogate c.toNat && isLowSurrogate d.toNat then
      (0x10000 + (c.toNat - 0xd800) * 0x400 + (d.toNat - 0xdc00)) :: codePoints rest
    else c.toNat :: codePoints (d :: rest)

def wtf8Encode (text : Utf16) : Bytes := (codePoints text).flatMap utf8Bytes

theorem codePoints_lt (text : Utf16) : ∀ c ∈ codePoints text, c < 0x110000 := by
  induction text using codePoints.induct with
  | case1 => simp [codePoints]
  | case2 c =>
    have := c.toNat_lt
    simp only [codePoints, mem_singleton, forall_eq]
    omega
  | case3 c d rest hpair ih =>
    simp only [codePoints, hpair, if_true, mem_cons, forall_eq_or_imp]
    refine ⟨?_, ih⟩
    simp only [and_eq_true, isHighSurrogate, isLowSurrogate, decide_eq_true_eq] at hpair
    omega
  | case4 c d rest hpair ih =>
    have := c.toNat_lt
    simp only [codePoints, hpair, false_eq_true, if_false, mem_cons, forall_eq_or_imp] at ih ⊢
    exact ⟨by omega, ih⟩

theorem utf16Units_codePoints (text : Utf16) : (codePoints text).flatMap utf16Units = text := by
  induction text using codePoints.induct with
  | case1 => rfl
  | case2 c => simp [codePoints, utf16Units_single]
  | case3 c d rest hpair ih =>
    rw [and_eq_true] at hpair
    simp only [codePoints, hpair.1, hpair.2, Bool.and_self, if_true, flatMap_cons, utf16Units_pair hpair.1 hpair.2, ih]
    rfl
  | case4 c d rest hpair ih =>
    simp only [codePoints, hpair, false_eq_true, if_false, flatMap_cons, utf16Units_single, ih]
    rfl

end Cantrip.Lib
