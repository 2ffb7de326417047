import Cantrip.WorkerLinks.PeerAddress
import Mathlib.Data.List.TakeWhile

/-!
# The spellings of addresses

A dotted quad has four fields of one to three decimal digits, a word of an IPv6 address one to four hexadecimal
digits. Eight words, or fewer on the two sides of a double colon, spell an address, and the last two may be a dotted
quad (`Spells`). What `parseIpv6` reads is so spelt, unless a dotted quad stands before the double colon (`Misspelt`). An
input has one of these, perhaps with a zone and in brackets (`Encloses`), or is read although a bracket is missing
(`Lopsided`).
-/

namespace Cantrip.WorkerLinks.Peer

open Lib Wire List Option

/-! ## Spellings -/

def dots (fields : List Utf16) : Utf16 := [46].intercalate fields

def colons (fields : List Utf16) : Utf16 := [58].intercalate fields

def Octet (field : Utf16) (n : Nat) : Prop :=
  1 ≤ field.length ∧ field.length ≤ 3 ∧ (∀ unit ∈ field, isDigit unit) ∧ decimalValue field = n ∧ n ≤ 255

def SpellsQuad (text : Utf16) (q : Quad) : Prop :=
  ∃ a b c d, text = dots [a, b, c, d] ∧ Octet a q.first ∧ Octet b q.second ∧ Octet c q.third ∧ Octet d q.fourth

/-- One to four hexadecimal digits. -/
def Group (field : Utf16) (word : Nat) : Prop :=
  1 ≤ field.length ∧ field.length ≤ 4 ∧ (∀ unit ∈ field, isHex unit) ∧ hexValue field = word

def Groups (fields : List Utf16) (words : List Nat) : Prop := List.Forall₂ Group fields words

def Quad.words (q : Quad) : List Nat := [q.first * 256 + q.second, q.third * 256 + q.fourth]

def Tail (fields : List Utf16) (words : List Nat) : Prop :=
  Groups fields words ∨ ∃ front quad q ws, fields = front ++ [quad] ∧ Groups front ws ∧ SpellsQuad quad q ∧ words = ws ++ q.words

/-- Words on the two sides of a run of at least one zero. -/
def around (left right : List Nat) : List Nat := left ++ List.replicate (8 - (left.length + right.length)) 0 ++ right

def SpellsWords (text : Utf16) (words : List Nat) : Prop :=
  (∃ fields, text = colons fields ∧ Tail fields words ∧ words.length = 8) ∨
    ∃ left right lw rw, text = colons left ++ 58 :: 58 :: colons right ∧ Groups left lw ∧ Tail right rw ∧
      lw.length + rw.length < 8 ∧ words = around lw rw

/-- A dotted quad that stands before a double colon, and the words it is read as. -/
def Misspelt (text : Utf16) (words : List Nat) : Prop :=
  ∃ front quad q lw right rw, text = colons (front ++ [quad]) ++ 58 :: 58 :: colons right ∧ Groups front lw ∧
    SpellsQuad quad q ∧ Tail right rw ∧ (lw ++ q.words).length + rw.length < 8 ∧ words = around (lw ++ q.words) rw

section Fields

variable {field : Utf16} {n : Nat}

theorem octet_eq_some : octet field = some n ↔ Octet field n := by
  unfold octet Octet
  simp only [ite_none_right_eq_some, some.injEq, List.all_eq_true]
  constructor
  · rintro ⟨⟨h1, h3, hdigits, hle⟩, rfl⟩
    exact ⟨h1, h3, hdigits, rfl, hle⟩
  · rintro ⟨h1, h3, hdigits, rfl, hle⟩
    exact ⟨⟨h1, h3, hdigits, hle⟩, rfl⟩

theorem isDigit_ne {unit : UInt16} (h : isDigit unit = true) : unit ≠ 46 ∧ unit ≠ 58 := by
  constructor <;> rintro rfl <;> cases h

theorem isHex_ne {unit : UInt16} (h : isHex unit = true) : unit ≠ 46 ∧ unit ≠ 58 := by
  constructor <;> rintro rfl <;> cases h

theorem Octet.not_mem (h : Octet field n) : 46 ∉ field ∧ 58 ∉ field :=
  ⟨fun hmem => (isDigit_ne (h.2.2.1 46 hmem)).1 rfl, fun hmem => (isDigit_ne (h.2.2.1 58 hmem)).2 rfl⟩

theorem Group.not_mem (h : Group field n) : 46 ∉ field ∧ 58 ∉ field :=
  ⟨fun hmem => (isHex_ne (h.2.2.1 46 hmem)).1 rfl, fun hmem => (isHex_ne (h.2.2.1 58 hmem)).2 rfl⟩

theorem parseIpv4_eq_some {text : Utf16} {q : Quad} : parseIpv4 text = some q ↔ SpellsQuad text q := by
  unfold parseIpv4
  constructor
  · intro h
    split at h
    · rename_i a b c d hsplit
      simp only [bind_eq_bind, bind_eq_some_iff, octet_eq_some] at h
      obtain ⟨n1, h1, n2, h2, n3, h3, n4, h4, heq⟩ := h
      cases heq
      refine ⟨a, b, c, d, ?_, h1, h2, h3, h4⟩
      rw [dots, ← hsplit, intercalate_splitOn]
    · cases h
  · rintro ⟨a, b, c, d, rfl, h1, h2, h3, h4⟩
    have hsplit : (dots [a, b, c, d]).splitOn 46 = [a, b, c, d] := by
      apply splitOn_intercalate 46 _ (cons_ne_nil _ _)
      simp only [forall_mem_cons]
      exact ⟨h1.not_mem.1, h2.not_mem.1, h3.not_mem.1, h4.not_mem.1, nofun⟩
    rw [hsplit]
    simp only [octet_eq_some.mpr h1, octet_eq_some.mpr h2, octet_eq_some.mpr h3, octet_eq_some.mpr h4, bind_eq_bind,
      bind_some]

theorem dots_four (a b c d : Utf16) : dots [a, b, c, d] = a ++ 46 :: (b ++ 46 :: (c ++ 46 :: d)) := by
  simp [dots, intercalate]

theorem SpellsQuad.mem {text : Utf16} {q : Quad} (h : SpellsQuad text q) {unit : UInt16} (hunit : unit ∈ text) :
    unit = 46 ∨ isDigit unit = true := by
  obtain ⟨a, b, c, d, rfl, h1, h2, h3, h4⟩ := h
  rw [dots_four] at hunit
  simp only [mem_append, mem_cons] at hunit
  obtain h | h | h | h | h | h | h := hunit
  · exact .inr (h1.2.2.1 _ h)
  · exact .inl h
  · exact .inr (h2.2.2.1 _ h)
  · exact .inl h
  · exact .inr (h3.2.2.1 _ h)
  · exact .inl h
  · exact .inr (h4.2.2.1 _ h)

theorem SpellsQuad.dot_mem {text : Utf16} {q : Quad} (h : SpellsQuad text q) : 46 ∈ text := by
  obtain ⟨a, b, c, d, rfl, -⟩ := h
  rw [dots_four]
  simp

theorem SpellsQuad.not_mem {text : Utf16} {q : Quad} (h : SpellsQuad text q) : 58 ∉ text := by
  intro hmem
  obtain heq | hdigit := h.mem hmem
  · cases heq
  · exact (isDigit_ne hdigit).2 rfl

theorem isGroup_iff {word : Nat} : Group field word ↔ isGroup field = true ∧ hexValue field = word := by
  simp only [Group, isGroup, Bool.and_eq_true, decide_eq_true_eq, List.all_eq_true, and_assoc]

theorem fieldWords_eq_some {fields : List Utf16} {words : List Nat} : fieldWords fields = some words ↔ Tail fields words := by
  induction fields generalizing words with
  | nil =>
    constructor
    · intro h
      cases h
      exact .inl .nil
    · rintro (h | ⟨front, quad, q, ws, heq, -⟩)
      · cases h
        rfl
      · cases front <;> cases heq
  | cons field fields ih =>
    unfold fieldWords
    by_cases hdot : field.contains 46 = true
    · have hmem : 46 ∈ field := contains_iff_mem.mp hdot
      rw [if_pos hdot]
      constructor
      · intro h
        split at h
        · cases h
        · rename_i hlast
          obtain ⟨q, hq, rfl⟩ := map_eq_some_iff.mp h
          rw [not_not.mp hlast]
          exact .inr ⟨[], field, q, [], rfl, .nil, parseIpv4_eq_some.mp hq, rfl⟩
      · rintro (h | ⟨front, quad, q, ws, heq, hfront, hquad, rfl⟩)
        · cases h with
          | cons hgroup _ => exact absurd hmem hgroup.not_mem.1
        · cases front with
          | nil =>
            obtain ⟨rfl, rfl⟩ := List.cons.inj heq
            cases hfront
            rw [if_neg (not_not.mpr rfl), parseIpv4_eq_some.mpr hquad]
            rfl
          | cons f front =>
            obtain ⟨rfl, rfl⟩ := List.cons.inj heq
            cases hfront with
            | cons hgroup _ => exact absurd hmem hgroup.not_mem.1
    · rw [if_neg hdot]
      have hno : ∀ q, ¬ SpellsQuad field q := fun q hq => hdot (contains_iff_mem.mpr hq.dot_mem)
      constructor
      · intro h
        split at h
        · rename_i hgroup
          obtain ⟨ws, hws, rfl⟩ := map_eq_some_iff.mp h
          have hfirst : Group field (hexValue field) := isGroup_iff.mpr ⟨hgroup, rfl⟩
          obtain htail | ⟨front, quad, q, ws', rfl, hfront, hquad, rfl⟩ := ih.mp hws
          · exact .inl (.cons hfirst htail)
          · exact .inr ⟨field :: front, quad, q, hexValue field :: ws', rfl, .cons hfirst hfront, hquad, rfl⟩
        · cases h
      · rintro (h | ⟨front, quad, q, ws, heq, hfront, hquad, rfl⟩)
        · cases h with
          | cons hgroup htail =>
            obtain ⟨hvalid, rfl⟩ := isGroup_iff.mp hgroup
            rw [if_pos hvalid, ih.mpr (.inl htail)]
            rfl
        · cases front with
          | nil =>
            obtain ⟨rfl, rfl⟩ := List.cons.inj heq
            exact absurd hquad (hno q)
          | cons f front =>
            obtain ⟨rfl, rfl⟩ := List.cons.inj heq
            cases hfront with
            | cons hgroup htail =>
              obtain ⟨hvalid, rfl⟩ := isGroup_iff.mp hgroup
              rw [if_pos hvalid, ih.mpr (.inr ⟨front, quad, q, _, rfl, htail, hquad, rfl⟩)]
              rfl

end Fields

section Sides

/-- Fields that a side is made of. -/
def Plain (fields : List Utf16) : Prop := ∀ field ∈ fields, field ≠ [] ∧ 58 ∉ field

theorem Groups.plain {fields : List Utf16} {words : List Nat} (h : Groups fields words) : Plain fields := by
  induction h with
  | nil => exact nofun
  | cons hgroup _ ih =>
    intro field hfield
    obtain rfl | hfield := mem_cons.mp hfield
    · exact ⟨ne_nil_of_length_pos hgroup.1, hgroup.not_mem.2⟩
    · exact ih field hfield

theorem Tail.plain {fields : List Utf16} {words : List Nat} (h : Tail fields words) : Plain fields := by
  obtain h | ⟨front, quad, q, ws, rfl, hfront, hquad, -⟩ := h
  · exact h.plain
  · intro field hfield
    obtain hfield | hfield := mem_append.mp hfield
    · exact hfront.plain field hfield
    · rw [mem_singleton.mp hfield]
      exact ⟨ne_nil_of_mem hquad.dot_mem, hquad.not_mem⟩

theorem colons_cons {field : Utf16} {fields : List Utf16} (h : fields ≠ []) :
    colons (field :: fields) = field ++ 58 :: colons fields := by
  match fields, h with
  | f :: fs, _ => simp [colons, intercalate]

theorem colons_ne_nil {fields : List Utf16} (h : Plain fields) (hne : fields ≠ []) : colons fields ≠ [] := by
  match fields, hne with
  | field :: fields, _ =>
    have hfield := (h field mem_cons_self).1
    by_cases hnil : fields = []
    · rw [hnil]
      simpa [colons, intercalate] using hfield
    · rw [colons_cons hnil]
      simp

theorem parseSide_eq_some {side : Utf16} {words : List Nat} :
    parseSide side = some words ↔ ∃ fields, side = colons fields ∧ Tail fields words := by
  unfold parseSide
  constructor
  · intro h
    split at h
    · rename_i hnil
      cases h
      exact ⟨[], hnil, .inl .nil⟩
    · exact ⟨side.splitOn 58, (intercalate_splitOn 58).symm, fieldWords_eq_some.mp h⟩
  · rintro ⟨fields, rfl, htail⟩
    by_cases hnil : fields = []
    · subst hnil
      rw [if_pos (show colons [] = [] from rfl), ← fieldWords_eq_some.mpr htail]
      rfl
    · rw [if_neg (colons_ne_nil htail.plain hnil), colons,
        splitOn_intercalate 58 (fun field hfield => (htail.plain field hfield).2) hnil]
      exact fieldWords_eq_some.mpr htail

end Sides

section Colons

variable {unit : UInt16} {t : Utf16}

theorem splitColons_ne_nil (t : Utf16) : splitColons t ≠ [] := by
  fun_induction splitColons t with
  | case1 => exact cons_ne_nil _ _
  | case2 unit => exact cons_ne_nil _ _
  | case3 unit next rest h ih => exact cons_ne_nil _ _
  | case4 unit next rest h ih => simpa using ih

theorem splitColons_join (t : Utf16) : [58, 58].intercalate (splitColons t) = t := by
  fun_induction splitColons t with
  | case1 => rfl
  | case2 unit => simp [intercalate]
  | case3 unit next rest h ih =>
    obtain ⟨rfl, rfl⟩ := h
    obtain ⟨part, parts, hparts⟩ := exists_cons_of_ne_nil (splitColons_ne_nil rest)
    rw [hparts] at ih ⊢
    rw [← ih]
    simp [intercalate]
  | case4 unit next rest h ih =>
    obtain ⟨part, parts, hparts⟩ := exists_cons_of_ne_nil (splitColons_ne_nil (next :: rest))
    rw [hparts] at ih ⊢
    rw [← ih]
    cases parts <;> simp [intercalate]

theorem splitColons_cons (h : unit ≠ 58 ∨ t.head? ≠ some 58) :
    splitColons (unit :: t) = (splitColons t).modifyHead (unit :: ·) := by
  cases t with
  | nil => rfl
  | cons next rest =>
    rw [splitColons, if_neg]
    rintro ⟨rfl, rfl⟩
    simp at h

theorem splitColons_append {field : Utf16} (h : 58 ∉ field) (t : Utf16) :
    splitColons (field ++ t) = (splitColons t).modifyHead (field ++ ·) := by
  induction field with
  | nil =>
    change splitColons t = (splitColons t).modifyHead id
    cases splitColons t <;> rfl
  | cons unit field ih =>
    have hunit : unit ≠ 58 := fun heq => h (heq ▸ mem_cons_self)
    rw [cons_append, splitColons_cons (.inl hunit), ih fun hmem => h (mem_cons_of_mem unit hmem), modifyHead_modifyHead]
    rfl

theorem splitColons_colons {fields : List Utf16} (h : Plain fields) (t : Utf16) :
    splitColons (colons fields ++ t) = (splitColons t).modifyHead (colons fields ++ ·) := by
  induction fields with
  | nil =>
    change splitColons t = (splitColons t).modifyHead id
    cases splitColons t <;> rfl
  | cons field fields ih =>
    have hfield := h field mem_cons_self
    have hfields : Plain fields := fun f hf => h f (mem_cons_of_mem field hf)
    by_cases hnil : fields = []
    · subst hnil
      have hone : colons [field] = field := by simp [colons, intercalate]
      rw [hone]
      exact splitColons_append hfield.2 t
    · have hhead : (colons fields ++ t).head? ≠ some 58 := by
        obtain ⟨f, fs, rfl⟩ := exists_cons_of_ne_nil hnil
        obtain ⟨unit, rest, hunit⟩ := exists_cons_of_ne_nil (hfields f mem_cons_self).1
        have hcolons : ∃ more, colons (f :: fs) = unit :: more := by
          by_cases hfs : fs = []
          · subst hfs
            exact ⟨rest, by simpa [colons, intercalate] using hunit⟩
          · rw [colons_cons hfs, hunit]
            exact ⟨_, rfl⟩
        obtain ⟨more, hmore⟩ := hcolons
        rw [hmore]
        intro heq
        cases heq
        exact (hfields f mem_cons_self).2 (by rw [hunit] ; exact mem_cons_self)
      rw [colons_cons hnil, append_assoc, splitColons_append hfield.2, cons_append, splitColons_cons (.inr hhead),
        ih hfields, modifyHead_modifyHead, modifyHead_modifyHead]
      congr 1
      funext part
      simp [Function.comp]

theorem splitColons_single {fields : List Utf16} (h : Plain fields) : splitColons (colons fields) = [colons fields] := by
  have hsplit := splitColons_colons h []
  simpa [splitColons] using hsplit

theorem splitColons_double {left right : List Utf16} (hleft : Plain left) (hright : Plain right) :
    splitColons (colons left ++ 58 :: 58 :: colons right) = [colons left, colons right] := by
  have hpair : splitColons (58 :: 58 :: colons right) = [] :: splitColons (colons right) := by
    rw [splitColons, if_pos ⟨rfl, rfl⟩]
  rw [splitColons_colons hleft, hpair, splitColons_single hright]
  simp

end Colons

section Parse

variable {text : Utf16} {words : List Nat}

theorem Groups.length_eq {fields : List Utf16} {words : List Nat} (h : Groups fields words) : words.length = fields.length :=
  (List.Forall₂.length_eq h).symm

theorem Tail.length_le {fields : List Utf16} (h : Tail fields words) : words.length ≤ fields.length + 1 := by
  obtain h | ⟨front, quad, q, ws, rfl, hfront, -, rfl⟩ := h
  · rw [h.length_eq]
    exact Nat.le_succ _
  · rw [length_append, length_append, hfront.length_eq]
    exact le_rfl

theorem parseIpv6_double {left right : List Utf16} {lw rw' : List Nat} (hleft : Tail left lw) (hright : Tail right rw')
    (hcount : lw.length + rw'.length < 8) :
    parseIpv6 (colons left ++ 58 :: 58 :: colons right) = some (around lw rw') := by
  have hcolon : (colons left ++ 58 :: 58 :: colons right).contains 58 = true := by
    apply contains_iff_mem.mpr
    simp
  unfold parseIpv6
  rw [hcolon, splitColons_double hleft.plain hright.plain]
  simp only [Bool.not_true, Bool.false_eq_true, if_false, length_cons, length_nil, getD_cons_zero,
    getD_cons_succ, parseSide_eq_some.mpr ⟨left, rfl, hleft⟩, parseSide_eq_some.mpr ⟨right, rfl, hright⟩,
    bind_eq_bind, bind_some]
  rw [if_neg (by decide), if_neg (by decide), if_neg (Nat.not_le_of_lt hcount)]
  rfl

theorem parseIpv6_eq_some : parseIpv6 text = some words ↔ SpellsWords text words ∨ Misspelt text words := by
  constructor
  · intro h
    have hjoin := splitColons_join text
    unfold parseIpv6 at h
    split at h
    · cases h
    dsimp only at h
    split at h
    · cases h
    rename_i hlength
    simp only [bind_eq_bind, bind_eq_some_iff] at h
    obtain ⟨lw, hleft, rw', hright, h⟩ := h
    match hparts : splitColons text with
    | [] => exact absurd hparts (splitColons_ne_nil text)
    | [part] =>
      rw [hparts] at hleft hright h hjoin
      simp only [intercalate, intersperse_singleton, flatten_cons, flatten_nil, append_nil] at hjoin
      subst hjoin
      cases hright
      rw [if_pos (show [part].length = 1 from rfl)] at h
      split at h
      · rename_i hcount
        cases h
        obtain ⟨fields, hfields, htail⟩ := parseSide_eq_some.mp hleft
        exact .inl (.inl ⟨fields, hfields, htail, hcount⟩)
      · cases h
    | [left, right] =>
      rw [hparts] at hleft hright h hjoin
      rw [if_neg (show ¬[left, right].length = 1 from nofun)] at h
      split at h
      · cases h
      rename_i hcount
      cases h
      obtain ⟨rfields, hrfields, hrtail⟩ := parseSide_eq_some.mp hright
      obtain ⟨lfields, hlfields, hltail⟩ := parseSide_eq_some.mp hleft
      have htext : text = colons lfields ++ 58 :: 58 :: colons rfields := by
        rw [← hjoin, ← hlfields, ← hrfields]
        simp [intercalate]
      obtain hgroups | ⟨front, quad, q, ws, rfl, hfront, hquad, rfl⟩ := hltail
      · exact .inl (.inr ⟨lfields, rfields, lw, rw', htext, hgroups, hrtail, Nat.lt_of_not_le hcount, rfl⟩)
      · exact .inr ⟨front, quad, q, ws, rfields, rw', htext, hfront, hquad, hrtail, Nat.lt_of_not_le hcount, rfl⟩
    | _ :: _ :: _ :: _ =>
      rw [hparts] at hlength
      simp at hlength
  · rintro ((⟨fields, rfl, htail, hcount⟩ | ⟨left, right, lw, rw', rfl, hleft, hright, hcount, rfl⟩) |
      ⟨front, quad, q, lw, right, rw', rfl, hfront, hquad, hright, hcount, rfl⟩)
    · have hfields : 2 ≤ fields.length := by
        have hle := htail.length_le
        omega
      have hcolon : (colons fields).contains 58 = true := by
        apply contains_iff_mem.mpr
        match fields, hfields with
        | f :: g :: fs, _ =>
          rw [colons_cons (cons_ne_nil g fs)]
          simp
      unfold parseIpv6
      rw [hcolon, splitColons_single htail.plain]
      simp only [Bool.not_true, Bool.false_eq_true, if_false, length_cons, length_nil, getD_cons_zero,
        getD_cons_succ, getD_nil, parseSide_eq_some.mpr ⟨fields, rfl, htail⟩, bind_eq_bind, bind_some]
      rw [if_neg (by decide)]
      simp [parseSide, hcount]
    · exact parseIpv6_double (.inl hleft) hright hcount
    · exact parseIpv6_double (.inr ⟨front, quad, q, lw, rfl, hfront, hquad, rfl⟩) hright hcount

end Parse

section Inputs

def Blank (text : Utf16) : Prop := ∀ unit ∈ text, isSpace unit

/-- The input without the whitespace around. -/
def Trimmed (input body : Utf16) : Prop :=
  ∃ before after, input = before ++ body ++ after ∧ Blank before ∧ Blank after ∧
    (∀ unit ∈ body.head?, ¬ isSpace unit) ∧ ∀ unit ∈ body.getLast?, ¬ isSpace unit

/-- Nothing, or a percent sign and any text. -/
def Zone (zone : Utf16) : Prop := ∀ unit ∈ zone.head?, unit = 37

/-- The input is the text, perhaps with a zone after it, and perhaps in brackets. -/
def Encloses (input text : Utf16) : Prop :=
  ∃ body zone, Trimmed input body ∧ Zone zone ∧ (body = text ++ zone ∨ body = 91 :: (text ++ zone) ++ [93])

/-- There is one of the brackets only. -/
def Lopsided (input text : Utf16) : Prop :=
  ∃ body, Trimmed input body ∧
    (body = text ++ [93] ∨ ∃ zone, Zone zone ∧ body = 91 :: (text ++ zone) ∧ body.getLast? ≠ some 93)

/-- A text without brackets and percent signs. -/
def Bare (text : Utf16) : Prop := text ≠ [] ∧ 91 ∉ text ∧ 93 ∉ text ∧ 37 ∉ text

variable {input body text zone : Utf16}

theorem dropWhile_blank {before : Utf16} (h : Blank before) (hbody : ∀ unit ∈ body.head?, ¬ isSpace unit) :
    (before ++ body).dropWhile isSpace = body := by
  rw [dropWhile_append_of_pos h]
  cases body with
  | nil => rfl
  | cons unit body => rw [dropWhile_cons_of_neg (hbody unit rfl)]

theorem trim_eq (h : Trimmed input body) : trim input = body := by
  obtain ⟨before, after, rfl, hbefore, hafter, hhead, hlast⟩ := h
  by_cases hnil : body = []
  · subst hnil
    have hblank : Blank (before ++ [] ++ after) := by
      intro unit hunit
      rw [append_nil] at hunit
      exact (mem_append.mp hunit).elim (hbefore unit) (hafter unit)
    have hnone : (before ++ [] ++ after).dropWhile isSpace = [] := dropWhile_eq_nil_iff.mpr hblank
    rw [trim, hnone]
    rfl
  · have hfirst : ∀ unit ∈ (body ++ after).head?, ¬ isSpace unit := by
      obtain ⟨unit, rest, rfl⟩ := exists_cons_of_ne_nil hnil
      exact hhead
    have hback : ∀ unit ∈ body.reverse.head?, ¬ isSpace unit := by rwa [head?_reverse]
    have hblank : Blank after.reverse := fun unit hunit => hafter unit (mem_reverse.mp hunit)
    rw [trim, append_assoc, dropWhile_blank hbefore hfirst, reverse_append, dropWhile_blank hblank hback, reverse_reverse]

theorem trimmed_trim (input : Utf16) : Trimmed input (trim input) := by
  have hfront := takeWhile_append_dropWhile (p := isSpace) (l := input)
  have hback := takeWhile_append_dropWhile (p := isSpace) (l := (input.dropWhile isSpace).reverse)
  have hsplit : trim input ++ ((input.dropWhile isSpace).reverse.takeWhile isSpace).reverse = input.dropWhile isSpace := by
    rw [trim, ← reverse_append, hback, reverse_reverse]
  refine ⟨input.takeWhile isSpace, _, by rw [append_assoc, hsplit, hfront], fun unit => mem_takeWhile_imp,
    fun unit hunit => mem_takeWhile_imp (mem_reverse.mp hunit), fun unit hunit => ?_, fun unit hunit => ?_⟩
  · have hnot := head?_dropWhile_not isSpace input
    rw [← hsplit, head?_append_of_ne_nil _ (ne_nil_of_mem (mem_of_mem_head? hunit)), Option.mem_def.mp hunit] at hnot
    simpa using hnot
  · rw [trim, getLast?_reverse] at hunit
    have hnot := head?_dropWhile_not isSpace (input.dropWhile isSpace).reverse
    rw [Option.mem_def.mp hunit] at hnot
    simpa using hnot

theorem trimmed_iff : Trimmed input body ↔ trim input = body :=
  ⟨trim_eq, fun h => h ▸ trimmed_trim input⟩

theorem takeWhile_zone (htext : 37 ∉ text) (hzone : Zone zone) : (text ++ zone).takeWhile (· ≠ 37) = text := by
  have hplain : ∀ unit ∈ text, decide (unit ≠ 37) = true := fun unit hunit =>
    decide_eq_true fun heq => htext (heq ▸ hunit)
  rw [takeWhile_append_of_pos hplain]
  cases zone with
  | nil => rw [takeWhile_nil, append_nil]
  | cons unit zone =>
    rw [hzone unit rfl, takeWhile_cons_of_neg (by simp), append_nil]

theorem zone_dropLast (htext : 93 ∉ text) (hzone : Zone zone) (hlast : (text ++ zone).getLast? = some 93) :
    ∃ front, Zone front ∧ (text ++ zone).dropLast = text ++ front := by
  by_cases hnil : zone = []
  · rw [hnil, append_nil] at hlast
    exact absurd (mem_of_getLast? hlast) htext
  · refine ⟨zone.dropLast, ?_, dropLast_append_of_ne_nil hnil⟩
    obtain ⟨unit, rest, rfl⟩ := exists_cons_of_ne_nil hnil
    cases rest with
    | nil => exact nofun
    | cons next rest => exact hzone

def withoutBrackets (body : Utf16) : Utf16 :=
  let address := if body.head? = some 91 then body.tail else body
  if address.getLast? = some 93 then address.dropLast else address

theorem bareAddress_eq (input : Utf16) : bareAddress input = (withoutBrackets (trim input)).takeWhile (· ≠ 37) := rfl

theorem head_ne_bracket (h : Bare text) (more : Utf16) : (text ++ more).head? ≠ some 91 := by
  rw [head?_append_of_ne_nil _ h.1]
  exact fun heq => h.2.1 (mem_of_mem_head? heq)

theorem bare_of_closing (h : Bare text) (hzone : Zone zone) :
    (if (text ++ zone).getLast? = some 93 then (text ++ zone).dropLast else text ++ zone).takeWhile (· ≠ 37) = text := by
  split
  · next hlast =>
    obtain ⟨front, hfront, heq⟩ := zone_dropLast h.2.2.1 hzone hlast
    rw [heq, takeWhile_zone h.2.2.2 hfront]
  · exact takeWhile_zone h.2.2.2 hzone

theorem bareAddress_eq_iff (h : Bare text) : bareAddress input = text ↔ Encloses input text ∨ Lopsided input text := by
  rw [bareAddress_eq]
  constructor
  · intro htext
    have htrim := trimmed_trim input
    generalize trim input = body at htext htrim
    obtain ⟨zone, hzone, hrest⟩ : ∃ zone, Zone zone ∧ withoutBrackets body = text ++ zone := by
      refine ⟨_, fun unit hunit => ?_, htext ▸ takeWhile_append_dropWhile.symm⟩
      have hnot := head?_dropWhile_not (· ≠ 37) (withoutBrackets body)
      rw [Option.mem_def.mp hunit] at hnot
      simpa using hnot
    unfold withoutBrackets at hrest
    by_cases hopen : body.head? = some 91
    · obtain ⟨inner, rfl⟩ : ∃ inner, body = 91 :: inner := ⟨_, (cons_head?_tail hopen).symm⟩
      simp only [head?_cons, if_true, tail_cons] at hrest
      split at hrest
      · next hclose =>
        refine .inl ⟨_, zone, htrim, hzone, .inr ?_⟩
        rw [← hrest, cons_append, dropLast_append_getLast? 93 hclose]
      · next hclose =>
        refine .inr ⟨_, htrim, .inr ⟨zone, hzone, by rw [hrest], ?_⟩⟩
        rw [hrest, ← singleton_append, getLast?_append_of_ne_nil _ (append_ne_nil_of_left_ne_nil h.1 zone), ← hrest]
        exact hclose
    · rw [if_neg hopen] at hrest
      dsimp only at hrest
      split at hrest
      · next hclose =>
        have hbody := dropLast_append_getLast? 93 hclose
        rw [hrest] at hbody
        by_cases hnil : zone = []
        · rw [hnil, append_nil] at hbody
          exact .inr ⟨body, htrim, .inl hbody.symm⟩
        · refine .inl ⟨body, zone ++ [93], htrim, ?_, .inl (by rw [← hbody, append_assoc])⟩
          rwa [Zone, head?_append_of_ne_nil _ hnil]
      · exact .inl ⟨body, zone, htrim, hzone, .inl hrest⟩
  · rintro (⟨body, zone, htrim, hzone, rfl | rfl⟩ | ⟨body, htrim, rfl | ⟨zone, hzone, rfl, hlast⟩⟩) <;> rw [trim_eq htrim, withoutBrackets]
    · rw [if_neg (head_ne_bracket h zone)]
      exact bare_of_closing h hzone
    · simp only [cons_append, head?_cons, if_true, tail_cons, getLast?_concat, dropLast_concat]
      exact takeWhile_zone h.2.2.2 hzone
    · rw [if_neg (head_ne_bracket h [93])]
      simp only [getLast?_concat, if_true, dropLast_concat]
      simpa using takeWhile_zone h.2.2.2 (show Zone [] from nofun)
    · simp only [head?_cons, if_true, tail_cons]
      exact bare_of_closing h hzone

theorem not_lopsided (h : Bare text) (hinput : Encloses input text) : ¬ Lopsided input text := by
  obtain ⟨body, zone, htrim, hzone, hbody⟩ := hinput
  rintro ⟨body', htrim', hbody'⟩
  obtain rfl := (trim_eq htrim).symm.trans (trim_eq htrim')
  obtain rfl | rfl := hbody
  · obtain heq | ⟨zone', -, heq, -⟩ := hbody'
    · rw [append_cancel_left heq] at hzone
      exact absurd (hzone 93 rfl) (by decide)
    · exact head_ne_bracket h zone (by rw [heq, head?_cons])
  · obtain heq | ⟨zone', -, -, hlast⟩ := hbody'
    · exact head_ne_bracket h [93] (by rw [← heq]; rfl)
    · exact hlast getLast?_concat

end Inputs
end Cantrip.WorkerLinks.Peer
