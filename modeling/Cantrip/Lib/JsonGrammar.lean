import Cantrip.Lib.Utf8
import Mathlib.Data.List.TakeWhile

/-!
# The grammar of JSON texts, over UTF-16 units

What a text begins with, and what it leaves: each relation has the text first and the rest after it last. What a run
leaves is determined once the rest does not go on with it (`Run.eq_dropWhile`); a number needs that of the rest as well.
-/

namespace Cantrip.Lib.JsonGrammar

open Lib List

def isSpace (c : UInt16) : Bool := c = 9 || c = 10 || c = 13 || c = 32

def isDigit (c : UInt16) : Bool := 48 ≤ c && c ≤ 57

def isHex (c : UInt16) : Bool := isDigit c || (65 ≤ c && c ≤ 70) || (97 ≤ c && c ≤ 102)

/-- The units after a backslash that need no more. -/
def isEscape (c : UInt16) : Bool := c = 34 || c = 47 || c = 92 || c = 98 || c = 102 || c = 110 || c = 114 || c = 116

/-- Any number of units of a kind. -/
def Run (p : UInt16 → Bool) (t r : Utf16) : Prop := ∃ w, (∀ c ∈ w, p c) ∧ t = w ++ r

/-- The text does not go on with a unit of this kind. -/
def Ceases (p : UInt16 → Bool) (t : Utf16) : Prop := ∀ c ∈ t.head?, p c = false

section Run

variable {p q : UInt16 → Bool} {c : UInt16} {t r : Utf16}

theorem stops_nil : Ceases p [] := nofun

theorem stops_cons : Ceases p (c :: t) ↔ p c = false := by
  simp only [Ceases, head?_cons, Option.mem_some_iff, forall_eq']

theorem Ceases.mono (h : Ceases q t) (hpq : ∀ c, p c → q c) : Ceases p t := by
  intro c hc
  apply Bool.eq_false_iff.mpr
  intro hp
  exact absurd (hpq c hp) (Bool.eq_false_iff.mp (h c hc))

theorem stops_dropWhile (t : Utf16) : Ceases p (t.dropWhile p) := by
  intro c hc
  have hne : t.dropWhile p ≠ [] := by
    intro hnil
    rw [hnil] at hc
    cases hc
  have hhead := head_dropWhile_not p hne
  rw [head?_eq_some_head hne, Option.mem_some_iff] at hc
  rwa [hc] at hhead

theorem run_dropWhile (t : Utf16) : Run p t (t.dropWhile p) :=
  ⟨t.takeWhile p, fun _ hc => mem_takeWhile_imp hc, takeWhile_append_dropWhile.symm⟩

theorem Run.eq_dropWhile (h : Run p t r) (hr : Ceases p r) : r = t.dropWhile p := by
  obtain ⟨w, hw, rfl⟩ := h
  rw [dropWhile_append_of_pos hw]
  cases r with
  | nil => rfl
  | cons c r => rw [dropWhile_cons_of_neg (Bool.eq_false_iff.mp (stops_cons.mp hr))]

theorem Run.length_le (h : Run p t r) : r.length ≤ t.length := by
  obtain ⟨w, -, rfl⟩ := h
  rw [length_append]
  exact Nat.le_add_left _ _

theorem Run.stops (h : Run p t (c :: r)) (hq : ∀ d, p d → q d = false) (hc : q c = false) : Ceases q t := by
  obtain ⟨w, hw, rfl⟩ := h
  cases w with
  | nil => exact stops_cons.mpr hc
  | cons d w => exact stops_cons.mpr (hq d (hw d mem_cons_self))

end Run

abbrev Space : Utf16 → Utf16 → Prop := Run isSpace

/-! ## Numbers -/

def Digits (t r : Utf16) : Prop := ∃ d rest, t = d :: rest ∧ isDigit d ∧ Run isDigit rest r

inductive Sign : Utf16 → Utf16 → Prop
  | none {t} : Sign t t
  | minus {t} : Sign (45 :: t) t

/-- A zero is not followed by more digits, and does not go before others. -/
inductive Int : Utf16 → Utf16 → Prop
  | zero {t} : Int (48 :: t) t
  | digits {d t r} (hd : isDigit d) (hzero : d ≠ 48) (h : Run isDigit t r) : Int (d :: t) r

inductive Frac : Utf16 → Utf16 → Prop
  | none {t} : Frac t t
  | some {t r} (h : Digits t r) : Frac (46 :: t) r

inductive ExpSign : Utf16 → Utf16 → Prop
  | none {t} : ExpSign t t
  | some {s t} (hs : s = 43 ∨ s = 45) : ExpSign (s :: t) t

inductive Exp : Utf16 → Utf16 → Prop
  | none {t} : Exp t t
  | some {e t u r} (he : e = 69 ∨ e = 101) (hs : ExpSign t u) (h : Digits u r) : Exp (e :: t) r

def Number (t r : Utf16) : Prop := ∃ a b c, Sign t a ∧ Int a b ∧ Frac b c ∧ Exp c r

/-- A unit that a number may go on with. -/
def goesOn (c : UInt16) : Bool := isDigit c || c = 46 || c = 69 || c = 101

section Number

variable {c : UInt16} {t u r : Utf16}

theorem Digits.head (h : Digits t r) : ∃ d rest, t = d :: rest ∧ isDigit d := by
  obtain ⟨d, rest, rfl, hd, -⟩ := h
  exact ⟨d, rest, rfl, hd⟩

theorem Digits.length_lt (h : Digits t r) : r.length < t.length := by
  obtain ⟨d, rest, rfl, -, hrun⟩ := h
  exact Nat.lt_succ_of_le hrun.length_le

theorem Int.head (h : Int t r) : ∃ d rest, t = d :: rest ∧ isDigit d := by
  cases h with
  | zero => exact ⟨48, _, rfl, rfl⟩
  | digits hd _ _ => exact ⟨_, _, rfl, hd⟩

theorem Int.length_lt (h : Int t r) : r.length < t.length := by
  cases h with
  | zero => exact Nat.lt_succ_self _
  | digits _ _ hrun => exact Nat.lt_succ_of_le hrun.length_le

theorem Sign.length_le (h : Sign t r) : r.length ≤ t.length := by
  cases h with
  | none => exact le_rfl
  | minus => exact Nat.le_succ _

theorem ExpSign.length_le (h : ExpSign t r) : r.length ≤ t.length := by
  cases h with
  | none => exact le_rfl
  | some _ => exact Nat.le_succ _

theorem Frac.length_le (h : Frac t r) : r.length ≤ t.length := by
  cases h with
  | none => exact le_rfl
  | some hdigits => exact (hdigits.length_lt.trans (Nat.lt_succ_self _)).le

theorem Exp.length_le (h : Exp t r) : r.length ≤ t.length := by
  cases h with
  | none => exact le_rfl
  | some _ hsign hdigits => exact (hdigits.length_lt.trans_le (hsign.length_le.trans (Nat.le_succ _))).le

theorem Number.length_lt (h : Number t r) : r.length < t.length := by
  obtain ⟨a, b, c, hsign, hint, hfrac, hexp⟩ := h
  exact (hexp.length_le.trans hfrac.length_le).trans_lt (hint.length_lt.trans_le hsign.length_le)

theorem Number.head (h : Number t r) : ∃ c rest, t = c :: rest ∧ (c = 45 || isDigit c) := by
  obtain ⟨a, b, c, hsign, hint, -, -⟩ := h
  cases hsign with
  | minus => exact ⟨45, a, rfl, rfl⟩
  | none =>
    obtain ⟨d, rest, rfl, hd⟩ := hint.head
    exact ⟨d, rest, rfl, by rw [hd, Bool.or_true]⟩

theorem Exp.stops (h : Exp t r) (hr : Ceases goesOn r) : Ceases (fun c => isDigit c || c = 46) t := by
  cases h with
  | none =>
    apply hr.mono
    intro c hc
    unfold goesOn
    rw [hc, Bool.true_or, Bool.true_or]
  | some he _ _ =>
    apply stops_cons.mpr
    obtain rfl | rfl := he <;> decide

theorem Frac.stops (h : Frac t u) (hu : Ceases (fun c => isDigit c || c = 46) u) : Ceases isDigit t := by
  cases h with
  | none =>
    apply hu.mono
    intro c hc
    rw [hc, Bool.true_or]
  | some _ => exact stops_cons.mpr (by decide)

end Number

/-- A string from behind its opening quote up to its closing one. -/
inductive Body : Utf16 → Utf16 → Prop
  | quote {r} : Body (34 :: r) r
  | unit {c t r} (hquote : c ≠ 34) (hslash : c ≠ 92) (hcontrol : 32 ≤ c) (h : Body t r) : Body (c :: t) r
  | escape {e t r} (he : isEscape e) (h : Body t r) : Body (92 :: e :: t) r
  | unicode {a b c d t r} (ha : isHex a) (hb : isHex b) (hc : isHex c) (hd : isHex d) (h : Body t r) :
      Body (92 :: 117 :: a :: b :: c :: d :: t) r

theorem Body.length_lt {t r : Utf16} (h : Body t r) : r.length < t.length := by
  induction h with
  | quote => exact Nat.lt_succ_self _
  | unit _ _ _ _ ih => exact ih.trans (Nat.lt_succ_self _)
  | escape _ _ ih => exact ih.trans (by simp only [length_cons]; omega)
  | unicode _ _ _ _ _ ih => exact ih.trans (by simp only [length_cons]; omega)

/-! ## Values -/

/-- `true`, `false` and `null`. -/
def literals : List Utf16 := [[116, 114, 117, 101], [102, 97, 108, 115, 101], [110, 117, 108, 108]]

inductive Symbol
  | value
  /-- The elements of an array, and its closing bracket. -/
  | elements
  /-- The members of an object, and its closing brace. -/
  | members

inductive Derives : Symbol → Utf16 → Utf16 → Prop
  | literal {w r} (h : w ∈ literals) : Derives .value (w ++ r) r
  | number {t r} (h : Number t r) : Derives .value t r
  | string {t r} (h : Body t r) : Derives .value (34 :: t) r
  | emptyArray {t r} (h : Space t (93 :: r)) : Derives .value (91 :: t) r
  | array {t r} (h : Derives .elements t r) : Derives .value (91 :: t) r
  | emptyObject {t r} (h : Space t (125 :: r)) : Derives .value (123 :: t) r
  | object {t r} (h : Derives .members t r) : Derives .value (123 :: t) r
  | lastElement {t a b r} (hbefore : Space t a) (hvalue : Derives .value a b) (hafter : Space b (93 :: r)) :
      Derives .elements t r
  | element {t a b c r} (hbefore : Space t a) (hvalue : Derives .value a b) (hafter : Space b (44 :: c))
      (h : Derives .elements c r) : Derives .elements t r
  | lastMember {t a b c d e r} (hbefore : Space t (34 :: a)) (hname : Body a b) (hcolon : Space b (58 :: c))
      (hspace : Space c d) (hvalue : Derives .value d e) (hafter : Space e (125 :: r)) : Derives .members t r
  | member {t a b c d e f r} (hbefore : Space t (34 :: a)) (hname : Body a b) (hcolon : Space b (58 :: c)) (hspace : Space c d)
      (hvalue : Derives .value d e) (hafter : Space e (44 :: f)) (h : Derives .members f r) : Derives .members t r

section Derives

variable {c : UInt16} {t r : Utf16}

theorem derives_cons : Derives .value (c :: t) r ↔ (∃ w ∈ literals, c :: t = w ++ r) ∨ Number (c :: t) r ∨ c = 34 ∧ Body t r ∨
    c = 91 ∧ (Space t (93 :: r) ∨ Derives .elements t r) ∨ c = 123 ∧ (Space t (125 :: r) ∨ Derives .members t r) := by
  constructor
  · intro h
    generalize ht : c :: t = u at h
    cases h with
    | literal hw => exact .inl ⟨_, hw, rfl⟩
    | number hnumber => exact .inr (.inl hnumber)
    | string hbody =>
      obtain ⟨rfl, rfl⟩ := List.cons.inj ht
      exact .inr (.inr (.inl ⟨rfl, hbody⟩))
    | emptyArray hspace =>
      obtain ⟨rfl, rfl⟩ := List.cons.inj ht
      exact .inr (.inr (.inr (.inl ⟨rfl, .inl hspace⟩)))
    | array helements =>
      obtain ⟨rfl, rfl⟩ := List.cons.inj ht
      exact .inr (.inr (.inr (.inl ⟨rfl, .inr helements⟩)))
    | emptyObject hspace =>
      obtain ⟨rfl, rfl⟩ := List.cons.inj ht
      exact .inr (.inr (.inr (.inr ⟨rfl, .inl hspace⟩)))
    | object hmembers =>
      obtain ⟨rfl, rfl⟩ := List.cons.inj ht
      exact .inr (.inr (.inr (.inr ⟨rfl, .inr hmembers⟩)))
  · rintro (⟨w, hw, h⟩ | h | ⟨rfl, h⟩ | ⟨rfl, h | h⟩ | ⟨rfl, h | h⟩)
    · rw [h]
      exact .literal hw
    · exact .number h
    · exact .string h
    · exact .emptyArray h
    · exact .array h
    · exact .emptyObject h
    · exact .object h

theorem derives_nil : ¬ Derives .value [] r := by
  intro h
  generalize ht : ([] : Utf16) = u at h
  cases h with
  | literal hw =>
    simp only [literals, mem_cons, not_mem_nil, or_false] at hw
    obtain rfl | rfl | rfl := hw <;> cases ht
  | number hnumber =>
    obtain ⟨c, rest, rfl, -⟩ := hnumber.head
    cases ht
  | _ => cases ht

theorem literal_head {w : Utf16} (hw : w ∈ literals) (h : c :: t = w ++ r) : c = 116 ∨ c = 102 ∨ c = 110 := by
  simp only [literals, mem_cons, not_mem_nil, or_false] at hw
  obtain rfl | rfl | rfl := hw
  · exact .inl (List.cons.inj h).1
  · exact .inr (.inl (List.cons.inj h).1)
  · exact .inr (.inr (List.cons.inj h).1)

theorem number_head (h : Number (c :: t) r) : (c = 45 || isDigit c) = true := by
  obtain ⟨d, rest, hd, hc⟩ := h.head
  rwa [(List.cons.inj hd).1]

end Derives

/-- Whitespace, one value and whitespace. -/
def JsonText (t : Utf16) : Prop := ∃ a b, Space t a ∧ Derives .value a b ∧ Space b []

end Cantrip.Lib.JsonGrammar
