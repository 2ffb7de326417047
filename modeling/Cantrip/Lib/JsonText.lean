import Cantrip.Lib.Json

/-!
# Taking JSON texts apart

A reader takes one piece off the front of a text: a fixed text, a natural number or an integer in decimal, a string.
What it takes off is what was written, whatever follows. A text as bytes is its UTF-8 encoding.
-/

namespace Cantrip.Lib

open List

/-- A piece of a text and what follows it. -/
abbrev Reader (α : Type) := List Char → Option (α × List Char)

/-! ## Fixed texts and numbers -/

def expect (t : List Char) : Reader Unit := fun text => if t <+: text then some ((), text.drop t.length) else none

theorem expect_append (t rest : List Char) : expect t (t ++ rest) = some ((), rest) := by
  rw [expect, if_pos (prefix_append _ _), drop_left]

def digits (n : Nat) : List Char := Nat.toDigits 10 n

def natural : Reader Nat := fun text =>
  let ds := text.takeWhile isDigitChar
  if ds = [] then none else some (Nat.ofDigitChars 10 ds 0, text.dropWhile isDigitChar)

def EndsNumber (rest : List Char) : Prop := ∀ c t, rest = c :: t → isDigitChar c = false

theorem endsNumber_cons {c : Char} (h : isDigitChar c = false) (rest : List Char) : EndsNumber (c :: rest) := by
  rintro d t ⟨⟩
  exact h

theorem isDigitChar_digits {n : Nat} {c : Char} (h : c ∈ digits n) : isDigitChar c = true := by
  have hdigit := Nat.isDigit_of_mem_toDigits (by decide) (by decide) h
  simp only [Char.isDigit, Bool.and_eq_true, decide_eq_true_eq, ge_iff_le] at hdigit
  exact decide_eq_true ⟨hdigit.1, hdigit.2⟩

theorem natural_digits (n : Nat) {rest : List Char} (hrest : EndsNumber rest) : natural (digits n ++ rest) = some (n, rest) := by
  have htake : (digits n ++ rest).takeWhile isDigitChar = digits n := by
    rw [takeWhile_append_of_pos fun c hc => isDigitChar_digits hc]
    match rest, hrest with
    | [], _ => simp
    | c :: t, hrest => rw [takeWhile_cons_of_neg (by rw [hrest c t rfl]; decide), append_nil]
  have hdrop : (digits n ++ rest).dropWhile isDigitChar = rest := by
    rw [dropWhile_append_of_pos fun c hc => isDigitChar_digits hc]
    match rest, hrest with
    | [], _ => rfl
    | c :: t, hrest => rw [dropWhile_cons_of_neg (by rw [hrest c t rfl]; decide)]
  simp only [natural, htake, hdrop]
  rw [if_neg (by exact Nat.toDigits_ne_nil), digits, Nat.ofDigitChars_ten_toDigits]

def integerText : Int → List Char
  | .ofNat n => digits n
  | .negSucc n => '-' :: digits (n + 1)

def integer : Reader Int
  | '-' :: text => (natural text).map fun (n, rest) => (-(n : Int), rest)
  | text => (natural text).map fun (n, rest) => ((n : Int), rest)

theorem integer_text (z : Int) {rest : List Char} (hrest : EndsNumber rest) : integer (integerText z ++ rest) = some (z, rest) := by
  match z with
  | .negSucc n =>
    rw [integerText, cons_append, integer, natural_digits _ hrest]
    rfl
  | .ofNat n =>
    obtain ⟨d, ds, hcons⟩ : ∃ d ds, digits n = d :: ds := exists_cons_of_ne_nil Nat.toDigits_ne_nil
    have hdigit : isDigitChar d = true := isDigitChar_digits (n := n) (by rw [hcons]; exact mem_cons_self)
    have hsign : d ≠ '-' := by
      rintro rfl
      cases hdigit
    have hread := natural_digits n hrest
    rw [integerText]
    rw [hcons, cons_append] at hread ⊢
    rw [integer.eq_2 _ (by rintro t ⟨⟩; exact hsign rfl), hread]
    rfl

def stringBody : Reader Utf16
  | '"' :: rest => some ([], rest)
  | '\\' :: 'u' :: a :: b :: c :: d :: rest => do
    let a ← hexValue a
    let b ← hexValue b
    let c ← hexValue c
    let d ← hexValue d
    let (units, rest) ← stringBody rest
    some (UInt16.ofNat (((a * 16 + b) * 16 + c) * 16 + d) :: units, rest)
  | '\\' :: c :: rest => do
    let unit ← escapeUnit c
    let (units, rest) ← stringBody rest
    some (unit :: units, rest)
  | c :: rest =>
    if c.toNat < 32 then none
    else do
      let (units, rest) ← stringBody rest
      some (utf16Units c.toNat ++ units, rest)
  | [] => none

theorem stringBody_append {s : Utf16} {body : List Char} (h : StringBody s body) (rest : List Char) :
    stringBody (body ++ '"' :: rest) = some (s, rest) := by
  induction h with
  | nil => rfl
  | char c hquote hslash hcontrol h ih =>
    rw [cons_append, stringBody.eq_4, if_neg (Nat.not_lt.mpr hcontrol), ih]
    · rfl
    · exact hquote
    · rintro a b c d t rfl
      exact fun _ => hslash rfl
    · rintro a t rfl
      exact fun _ => hslash rfl
  | escape c hunit h ih =>
    have hu : c ≠ 'u' := by
      rintro rfl
      cases hunit
    rw [cons_append, cons_append, stringBody.eq_3, hunit, ih]
    · rfl
    · rintro a b c d t rfl
      exact fun _ => hu rfl
  | unicode c₁ c₂ c₃ c₄ h₁ h₂ h₃ h₄ h ih =>
    simp only [cons_append, stringBody, h₁, h₂, h₃, h₄, ih]
    rfl

/-! ## Bytes -/

/-- `TextEncoder.encode`. -/
def textBytes (t : List Char) : Bytes := t.flatMap String.utf8EncodeChar

/-- `TextDecoder.decode`, for bytes that are UTF-8. -/
def bytesText (bytes : Bytes) : Option (List Char) := bytes.toByteArray.utf8Decode?.map Array.toList

theorem bytesText_textBytes (t : List Char) : bytesText (textBytes t) = some t := by
  have hencode : (textBytes t).toByteArray = t.utf8Encode := rfl
  rw [bytesText, hencode, utf8Decode?_utf8Encode]
  rfl

theorem textBytes_append (a b : List Char) : textBytes (a ++ b) = textBytes a ++ textBytes b := flatMap_append

theorem textBytes_cons (c : Char) (t : List Char) : textBytes (c :: t) = String.utf8EncodeChar c ++ textBytes t := rfl

theorem textBytes_ascii {t : List Char} (h : ∀ c ∈ t, c.toNat < 128) : (textBytes t).length = t.length := by
  induction t with
  | nil => rfl
  | cons c t ih =>
    have hc : c.utf8Size = 1 := Char.utf8Size_eq_one_iff.mpr (Nat.le_of_lt_succ (h c mem_cons_self))
    rw [textBytes_cons, length_append, String.length_utf8EncodeChar, hc,
      ih fun d hd => h d (mem_cons_of_mem _ hd), length_cons]
    exact Nat.add_comm _ _

end Cantrip.Lib
