import Cantrip.WorkerLinks.PeerSpelling
import Mathlib.Data.Nat.Bitwise

/-!
# Classes of addresses, and the candidates a route admits

The class belongs to the address (`Address.kind`): every spelling of it is given that class. Only a text that is
misspelt may be given a class as well.
-/

namespace Cantrip.WorkerLinks.Peer

open Lib Wire List

/-! ## Addresses -/

inductive Address
  | v4 (quad : Quad)
  | v6 (words : List Nat)

/-- The IPv4 address of a mapped one. -/
def mappedQuad : List Nat → Option Quad
  | [a, b, c, d, e, f, high, low] =>
    if a = 0 ∧ b = 0 ∧ c = 0 ∧ d = 0 ∧ e = 0 ∧ f = 0xffff then some ⟨high / 256, high % 256, low / 256, low % 256⟩ else none
  | _ => none

/-- The class of an address that is not mapped, by its first bits. -/
def plainKind (words : List Nat) : PeerAddressKind :=
  if words = [0, 0, 0, 0, 0, 0, 0, 1] then .loopback
  else if words.getD 0 0 / 2 ^ 6 = 0xfe80 / 2 ^ 6 then .linkLocal
  else if words.getD 0 0 / 2 ^ 9 = 0xfc00 / 2 ^ 9 then .private_
  else if words.getD 0 0 / 2 ^ 13 = 0x2000 / 2 ^ 13 then .public_
  else .invalid

namespace Address

def kind : Address → PeerAddressKind
  | .v4 quad => classifyIpv4 quad
  | .v6 words =>
    match mappedQuad words with
    | some quad => classifyIpv4 quad
    | none => plainKind words

/-- 127.0.0.0/8 and `::1`, also where it is mapped. -/
def Loopback : Address → Prop
  | .v4 quad => quad.first = 127
  | .v6 words => words = [0, 0, 0, 0, 0, 0, 0, 1] ∨ ∃ quad, mappedQuad words = some quad ∧ quad.first = 127

def Unspecified : Address → Prop
  | .v4 quad => quad = ⟨0, 0, 0, 0⟩
  | .v6 words => words = List.replicate 8 0 ∨ mappedQuad words = some ⟨0, 0, 0, 0⟩

/-- 224.0.0.0/4 and ff00::/8. -/
def Multicast : Address → Prop
  | .v4 quad => 224 ≤ quad.first ∧ quad.first ≤ 239
  | .v6 words => 0xff00 ≤ words.getD 0 0 ∨ ∃ quad, mappedQuad words = some quad ∧ 224 ≤ quad.first ∧ quad.first ≤ 239

/-- The blocks of private networks, of links and of carriers. -/
def LocalQuad (quad : Quad) : Prop :=
  quad.first = 10 ∨ (quad.first = 172 ∧ 16 ≤ quad.second ∧ quad.second ≤ 31) ∨ (quad.first = 192 ∧ quad.second = 168) ∨
    (quad.first = 169 ∧ quad.second = 254) ∨ (quad.first = 100 ∧ 64 ≤ quad.second ∧ quad.second ≤ 127)

def Local : Address → Prop
  | .v4 quad => LocalQuad quad
  | .v6 words => (0xfc00 ≤ words.getD 0 0 ∧ words.getD 0 0 < 0xfe00) ∨ (0xfe80 ≤ words.getD 0 0 ∧ words.getD 0 0 < 0xfec0) ∨
      ∃ quad, mappedQuad words = some quad ∧ LocalQuad quad

end Address

def Spells (text : Utf16) : Address → Prop
  | .v4 quad => SpellsQuad text quad
  | .v6 words => SpellsWords text words

/-- Labels, `local` and perhaps a dot. -/
def LocalName (text : Utf16) : Prop :=
  ∃ labels last end_, labels ≠ [] ∧ (∀ label ∈ labels, label ≠ [] ∧ ∀ unit ∈ label, isLabel unit) ∧
    last.map lower = jsText "local" ∧ (end_ = [] ∨ end_ = [46]) ∧ text = dots (labels ++ [last]) ++ end_

theorem kind_mapped {words : List Nat} {quad : Quad} (h : mappedQuad words = some quad) :
    (Address.v6 words).kind = classifyIpv4 quad := by
  simp only [Address.kind, h]

theorem kind_plain {words : List Nat} (h : mappedQuad words = none) : (Address.v6 words).kind = plainKind words := by
  simp only [Address.kind, h]

section Words

theorem hexValue_lt {field : Utf16} (h : ∀ unit ∈ field, isHex unit = true) : hexValue field < 16 ^ field.length := by
  have hdigit (unit : UInt16) (hunit : isHex unit = true) :
      (if isDigit unit then unit.toNat - 48 else (lower unit).toNat - 87) < 16 := by
    simp only [isHex, isDigit, Bool.or_eq_true, Bool.and_eq_true, decide_eq_true_eq, UInt16.le_iff_toNat_le] at hunit
    change ((48 ≤ unit.toNat ∧ unit.toNat ≤ 57) ∨ 97 ≤ unit.toNat ∧ unit.toNat ≤ 102) ∨ 65 ≤ unit.toNat ∧ unit.toNat ≤ 70 at hunit
    simp only [lower, isDigit, Bool.and_eq_true, decide_eq_true_eq, UInt16.le_iff_toNat_le]
    split
    · rename_i hd
      change 48 ≤ unit.toNat ∧ unit.toNat ≤ 57 at hd
      omega
    · rename_i hd
      change ¬(48 ≤ unit.toNat ∧ unit.toNat ≤ 57) at hd
      split
      · rename_i hupper
        change 65 ≤ unit.toNat ∧ unit.toNat ≤ 90 at hupper
        have hsum : (unit + 32).toNat = unit.toNat + 32 := by
          rw [UInt16.toNat_add]
          change (unit.toNat + 32) % 65536 = unit.toNat + 32
          omega
        omega
      · rename_i hupper
        change ¬(65 ≤ unit.toNat ∧ unit.toNat ≤ 90) at hupper
        omega
  have hfold : ∀ (field : Utf16) (value : Nat), (∀ unit ∈ field, isHex unit = true) →
      field.foldl (fun value unit => value * 16 + if isDigit unit then unit.toNat - 48 else (lower unit).toNat - 87) value <
        (value + 1) * 16 ^ field.length := by
    intro field
    induction field with
    | nil =>
      intro value _
      simp
    | cons unit field ih =>
      intro value hall
      have hlt := ih (value * 16 + if isDigit unit then unit.toNat - 48 else (lower unit).toNat - 87)
        fun u hu => hall u (mem_cons_of_mem unit hu)
      have hunit := hdigit unit (hall unit mem_cons_self)
      rw [foldl_cons, length_cons, pow_succ']
      refine hlt.trans_le ?_
      rw [← mul_assoc]
      apply Nat.mul_le_mul_right
      omega
  have hlt := hfold field 0 h
  rwa [zero_add, one_mul] at hlt

theorem Groups.lt {fields : List Utf16} {words : List Nat} (h : Groups fields words) : ∀ word ∈ words, word < 65536 := by
  induction h with
  | nil => exact nofun
  | cons hgroup _ ih =>
    intro word hword
    obtain rfl | hword := mem_cons.mp hword
    · obtain ⟨-, hlength, hhex, rfl⟩ := hgroup
      exact (hexValue_lt hhex).trans_le (Nat.pow_le_pow_right (by decide) hlength)
    · exact ih word hword

theorem SpellsQuad.le {text : Utf16} {q : Quad} (h : SpellsQuad text q) :
    q.first ≤ 255 ∧ q.second ≤ 255 ∧ q.third ≤ 255 ∧ q.fourth ≤ 255 := by
  obtain ⟨a, b, c, d, -, h1, h2, h3, h4⟩ := h
  exact ⟨h1.2.2.2.2, h2.2.2.2.2, h3.2.2.2.2, h4.2.2.2.2⟩

theorem Tail.lt {fields : List Utf16} {words : List Nat} (h : Tail fields words) : ∀ word ∈ words, word < 65536 := by
  obtain h | ⟨front, quad, q, ws, -, hfront, hquad, rfl⟩ := h
  · exact h.lt
  · obtain ⟨h1, h2, h3, h4⟩ := hquad.le
    intro word hword
    simp only [Quad.words, mem_append, mem_cons, not_mem_nil, or_false] at hword
    obtain hword | rfl | rfl := hword
    · exact hfront.lt word hword
    · omega
    · omega

theorem around_words {lw rw' : List Nat} (hcount : lw.length + rw'.length < 8) (hleft : ∀ word ∈ lw, word < 65536)
    (hright : ∀ word ∈ rw', word < 65536) : (around lw rw').length = 8 ∧ ∀ word ∈ around lw rw', word < 65536 := by
  unfold around
  constructor
  · simp only [length_append, length_replicate]
    omega
  · intro word hword
    simp only [mem_append] at hword
    obtain (hword | hword) | hword := hword
    · exact hleft word hword
    · rw [eq_of_mem_replicate hword]
      decide
    · exact hright word hword

/-- Eight words of sixteen bits. -/
def Words (words : List Nat) : Prop := words.length = 8 ∧ ∀ word ∈ words, word < 65536

theorem SpellsWords.words {text : Utf16} {words : List Nat} (h : SpellsWords text words) : Words words := by
  obtain ⟨fields, -, htail, hcount⟩ | ⟨left, right, lw, rw', -, hleft, hright, hcount, rfl⟩ := h
  · exact ⟨hcount, htail.lt⟩
  · exact around_words hcount hleft.lt hright.lt

theorem Misspelt.words {text : Utf16} {words : List Nat} (h : Misspelt text words) : Words words := by
  obtain ⟨front, quad, q, lw, right, rw', -, hfront, hquad, hright, hcount, rfl⟩ := h
  have hleft : Tail (front ++ [quad]) (lw ++ q.words) := .inr ⟨front, quad, q, lw, rfl, hfront, hquad, rfl⟩
  exact around_words hcount hleft.lt hright.lt

theorem and_mask {word : Nat} (k j : Nat) (h : word < 2 ^ (k + j)) : word &&& ((2 ^ j - 1) <<< k) = word / 2 ^ k * 2 ^ k := by
  have hshift : word &&& ((2 ^ j - 1) <<< k) = ((word >>> k) &&& (2 ^ j - 1)) <<< k := by
    apply Nat.eq_of_testBit_eq
    intro i
    simp only [Nat.testBit_and, Nat.testBit_shiftLeft, Nat.testBit_shiftRight]
    by_cases hi : k ≤ i
    · simp [hi]
    · simp [hi]
  have hlt : word / 2 ^ k < 2 ^ j := by
    rw [Nat.div_lt_iff_lt_mul (Nat.two_pow_pos k), mul_comm, ← pow_add]
    exact h
  rw [hshift, Nat.and_two_pow_sub_one_eq_mod, Nat.shiftRight_eq_div_pow, Nat.mod_eq_of_lt hlt, Nat.shiftLeft_eq]

theorem classifyIpv6_eq {words : List Nat} (h : Words words) : classifyIpv6 words = (Address.v6 words).kind := by
  obtain ⟨hlength, hlt⟩ := h
  match words, hlength with
  | [a, b, c, d, e, f, high, low], _ =>
    simp only [forall_mem_cons] at hlt
    obtain ⟨ha, -, -, -, -, -, hhigh, hlow, -⟩ := hlt
    have h1 : a &&& 0xffc0 = a / 2 ^ 6 * 2 ^ 6 := and_mask 6 10 ha
    have h2 : a &&& 0xfe00 = a / 2 ^ 9 * 2 ^ 9 := and_mask 9 7 ha
    have h3 : a &&& 0xe000 = a / 2 ^ 13 * 2 ^ 13 := and_mask 13 3 ha
    have h4 (n : Nat) : n &&& 0xff = n % 256 := Nat.and_two_pow_sub_one_eq_mod n 8
    have h5 (n : Nat) : n >>> 8 = n / 256 := Nat.shiftRight_eq_div_pow n 8
    by_cases hmapped : a = 0 ∧ b = 0 ∧ c = 0 ∧ d = 0 ∧ e = 0 ∧ f = 0xffff
    · have hquad : mappedQuad [a, b, c, d, e, f, high, low] = some ⟨high / 256, high % 256, low / 256, low % 256⟩ :=
        if_pos hmapped
      obtain ⟨rfl, rfl, rfl, rfl, rfl, rfl⟩ := hmapped
      rw [kind_mapped hquad]
      simp [classifyIpv6, h4, h5]
    · have hquad : mappedQuad [a, b, c, d, e, f, high, low] = none := if_neg hmapped
      have hcode : ¬(([a, b, c, d, e, f, high, low].take 5).all (· = 0) ∧ [a, b, c, d, e, f, high, low].getD 5 0 = 0xffff) := by
        simpa [and_assoc] using hmapped
      rw [kind_plain hquad]
      unfold classifyIpv6 plainKind
      rw [if_neg hcode]
      by_cases hzero : [a, b, c, d, e, f, high, low] = replicate 8 0
      · rw [hzero]
        decide
      by_cases hone : [a, b, c, d, e, f, high, low] = [0, 0, 0, 0, 0, 0, 0, 1]
      · rw [hone]
        decide
      have hall : ¬([a, b, c, d, e, f, high, low].all fun x => decide (x = 0)) = true := by
        simpa [replicate] using hzero
      have hloop : ¬(([a, b, c, d, e, f, high, low].take 7).all (· = 0) ∧ [a, b, c, d, e, f, high, low].getD 7 0 = 1) := by
        simpa [and_assoc] using hone
      rw [if_neg hall, if_neg hloop, if_neg hone]
      simp only [h1, h2, h3, getD_cons_zero]
      have hcancel (k v x : Nat) : x * 2 ^ k = v * 2 ^ k ↔ x = v := Nat.mul_left_inj (Nat.two_pow_pos k).ne'
      have e1 : a / 2 ^ 6 * 2 ^ 6 = 0xfe80 ↔ a / 2 ^ 6 = 0xfe80 / 2 ^ 6 := hcancel 6 (0xfe80 / 2 ^ 6) _
      have e2 : a / 2 ^ 9 * 2 ^ 9 = 0xfc00 ↔ a / 2 ^ 9 = 0xfc00 / 2 ^ 9 := hcancel 9 (0xfc00 / 2 ^ 9) _
      have e3 : a / 2 ^ 13 * 2 ^ 13 = 0x2000 ↔ a / 2 ^ 13 = 0x2000 / 2 ^ 13 := hcancel 13 (0x2000 / 2 ^ 13) _
      simp only [e1, e2, e3]

end Words

section Texts

variable {text : Utf16}

theorem isLabel_ne {unit : UInt16} (h : isLabel unit = true) : unit ≠ 46 ∧ unit ≠ 58 := by
  constructor <;> rintro rfl <;> exact absurd h (by decide)

theorem jsText_local : jsText "local" = [108, 111, 99, 97, 108] := by decide

theorem lower_local {last : Utf16} (h : last.map lower = jsText "local") :
    last ≠ [] ∧ ∀ unit ∈ last, isLabel unit = true ∧ isDigit unit = false := by
  rw [jsText_local] at h
  constructor
  · rintro rfl
    cases h
  · intro unit hunit
    have hletter : lower unit ∈ ([108, 111, 99, 97, 108] : Utf16) := by
      rw [← h]
      exact mem_map_of_mem hunit
    have hrange : 97 ≤ (lower unit).toNat ∧ (lower unit).toNat ≤ 122 := by
      simp only [mem_cons, not_mem_nil, or_false] at hletter
      obtain heq | heq | heq | heq | heq := hletter <;> rw [heq] <;> decide
    constructor
    · simp only [isLabel, Bool.or_eq_true, Bool.and_eq_true, decide_eq_true_eq, UInt16.le_iff_toNat_le]
      exact .inl (.inl (.inl (.inr hrange)))
    · apply Bool.eq_false_iff.mpr
      intro hdigit
      simp only [isDigit, Bool.and_eq_true, decide_eq_true_eq, UInt16.le_iff_toNat_le] at hdigit
      change 48 ≤ unit.toNat ∧ unit.toNat ≤ 57 at hdigit
      have hsame : lower unit = unit := by
        unfold lower
        rw [if_neg]
        simp only [Bool.and_eq_true, decide_eq_true_eq, UInt16.le_iff_toNat_le]
        change ¬(65 ≤ unit.toNat ∧ unit.toNat ≤ 90)
        omega
      rw [hsame] at hrange
      omega

variable {labels : List Utf16}

theorem dots_append (last : Utf16) (h : labels ≠ []) : dots (labels ++ [last]) = dots labels ++ 46 :: last := by
  induction labels with
  | nil => exact absurd rfl h
  | cons label labels ih =>
    cases labels with
    | nil => simp [dots, intercalate]
    | cons next labels =>
      have hnext := ih (cons_ne_nil next labels)
      simp only [dots, intercalate, cons_append, intersperse_cons_cons, flatten_cons] at hnext ⊢
      rw [hnext]
      simp

/-- Labels, the last of which is `local`. -/
def IsLocal (labels : List Utf16) : Prop :=
  2 ≤ labels.length ∧ (∀ label ∈ labels, label ≠ [] ∧ ∀ unit ∈ label, isLabel unit) ∧
    ∃ last, labels.getLast? = some last ∧ last.map lower = jsText "local"

theorem isLocalName_eq : isLocalName text = true ↔
    IsLocal ((if text.getLast? = some 46 then text.dropLast else text).splitOn 46) := by
  simp [isLocalName, IsLocal, Option.any_eq_true, and_assoc]

theorem isLocal_append {last : Utf16} : IsLocal (labels ++ [last]) ↔
    labels ≠ [] ∧ (∀ label ∈ labels, label ≠ [] ∧ ∀ unit ∈ label, isLabel unit) ∧ last.map lower = jsText "local" := by
  unfold IsLocal
  constructor
  · rintro ⟨hlength, hall, last', hlast', hlocal⟩
    rw [getLast?_append, getLast?_singleton] at hlast'
    cases hlast'
    refine ⟨?_, fun label hlabel => hall label (mem_append_left _ hlabel), hlocal⟩
    rintro rfl
    exact absurd hlength (by simp)
  · rintro ⟨hne, hall, hlocal⟩
    refine ⟨?_, ?_, last, getLast?_concat, hlocal⟩
    · rw [length_append]
      exact Nat.succ_le_succ (length_pos_iff.mpr hne)
    · intro label hlabel
      obtain hlabel | hlabel := mem_append.mp hlabel
      · exact hall label hlabel
      · rw [mem_singleton.mp hlabel]
        exact ⟨(lower_local hlocal).1, fun unit hunit => ((lower_local hlocal).2 unit hunit).1⟩

theorem isLocalName_iff : isLocalName text = true ↔ LocalName text := by
  rw [isLocalName_eq]
  constructor
  · intro h
    obtain ⟨body, end_, hbody, hend, htext⟩ : ∃ body end_, body = (if text.getLast? = some 46 then text.dropLast else text) ∧
        (end_ = [] ∨ end_ = [46]) ∧ text = body ++ end_ := by
      by_cases hdot : text.getLast? = some 46
      · rw [if_pos hdot]
        exact ⟨_, [46], rfl, .inr rfl, (dropLast_append_getLast? 46 hdot).symm⟩
      · rw [if_neg hdot]
        exact ⟨_, [], rfl, .inl rfl, (append_nil text).symm⟩
    rw [← hbody] at h
    obtain ⟨labels, last, hsplit⟩ : ∃ labels last, body.splitOn 46 = labels ++ [last] :=
      ⟨_, _, (dropLast_append_getLast (splitOn_ne_nil 46 body)).symm⟩
    rw [hsplit, isLocal_append] at h
    obtain ⟨hne, hlabels, hlast⟩ := h
    refine ⟨labels, last, end_, hne, hlabels, hlast, hend, ?_⟩
    rw [htext, dots, ← hsplit, intercalate_splitOn]
  · rintro ⟨labels, last, end_, hne, hlabels, hlast, hend, rfl⟩
    obtain ⟨hlast', hunits⟩ := lower_local hlast
    have hbody : (if (dots (labels ++ [last]) ++ end_).getLast? = some 46 then (dots (labels ++ [last]) ++ end_).dropLast
        else dots (labels ++ [last]) ++ end_) = dots (labels ++ [last]) := by
      obtain rfl | rfl := hend
      · rw [append_nil, if_neg]
        obtain ⟨front, unit, rfl⟩ : ∃ front unit, last = front ++ [unit] := ⟨_, _, (dropLast_append_getLast hlast').symm⟩
        have hunit := (hunits unit (mem_append_right _ (mem_singleton_self unit))).1
        rw [dots_append _ hne, ← cons_append, ← append_assoc, getLast?_concat]
        intro heq
        exact (isLabel_ne hunit).1 (Option.some.inj heq)
      · rw [getLast?_concat, if_pos rfl, dropLast_concat]
    have hsplit : (dots (labels ++ [last])).splitOn 46 = labels ++ [last] := by
      apply splitOn_intercalate 46 _ (append_ne_nil_of_right_ne_nil _ (cons_ne_nil _ _))
      intro label hlabel hmem
      obtain hlabel | hlabel := mem_append.mp hlabel
      · exact (isLabel_ne ((hlabels label hlabel).2 46 hmem)).1 rfl
      · rw [mem_singleton.mp hlabel] at hmem
        exact (isLabel_ne (hunits 46 hmem).1).1 rfl
    rw [hbody, hsplit, isLocal_append]
    exact ⟨hne, hlabels, hlast⟩

theorem LocalName.last (h : LocalName text) : ∃ unit ∈ text, unit ≠ 46 ∧ isDigit unit = false := by
  obtain ⟨labels, last, end_, hne, -, hlast, -, rfl⟩ := h
  obtain ⟨hlast', hunits⟩ := lower_local hlast
  obtain ⟨unit, rest, rfl⟩ := exists_cons_of_ne_nil hlast'
  have hunit := hunits unit mem_cons_self
  refine ⟨unit, ?_, (isLabel_ne hunit.1).1, hunit.2⟩
  rw [dots_append _ hne]
  simp

theorem mem_intercalate {sep unit : UInt16} (h : unit ∈ [sep].intercalate labels) :
    unit = sep ∨ ∃ label ∈ labels, unit ∈ label := by
  induction labels with
  | nil => cases h
  | cons label labels ih =>
    cases labels with
    | nil =>
      simp only [intercalate, intersperse_singleton, flatten_cons, flatten_nil, append_nil] at h
      exact .inr ⟨label, mem_cons_self, h⟩
    | cons next labels =>
      simp only [intercalate, intersperse_cons_cons, flatten_cons, mem_append, mem_singleton] at h ih
      obtain h | h | h := h
      · exact .inr ⟨label, mem_cons_self, h⟩
      · exact .inl h
      · obtain heq | ⟨l, hl, hunit⟩ := ih h
        · exact .inl heq
        · exact .inr ⟨l, mem_cons_of_mem label hl, hunit⟩

theorem LocalName.mem (h : LocalName text) {unit : UInt16} (hunit : unit ∈ text) : unit = 46 ∨ isLabel unit = true := by
  obtain ⟨labels, last, end_, hne, hlabels, hlast, hend, rfl⟩ := h
  obtain hunit | hunit := mem_append.mp hunit
  · refine (mem_intercalate hunit).imp_right ?_
    rintro ⟨label, hlabel, hunit⟩
    obtain hlabel | hlabel := mem_append.mp hlabel
    · exact (hlabels label hlabel).2 unit hunit
    · rw [mem_singleton.mp hlabel] at hunit
      exact ((lower_local hlast).2 unit hunit).1
  · obtain rfl | rfl := hend
    · cases hunit
    · exact .inl (mem_singleton.mp hunit)

theorem LocalName.not_mem (h : LocalName text) : 58 ∉ text := by
  intro hmem
  obtain heq | hlabel := h.mem hmem
  · cases heq
  · exact (isLabel_ne hlabel).2 rfl

theorem LocalName.not_quad (h : LocalName text) (q : Quad) : ¬ SpellsQuad text q := by
  intro hquad
  obtain ⟨unit, hunit, hdot, hdigit⟩ := h.last
  obtain heq | hd := hquad.mem hunit
  · exact hdot heq
  · rw [hdigit] at hd
    cases hd

theorem SpellsWords.colon_mem {words : List Nat} (h : SpellsWords text words) : 58 ∈ text := by
  obtain ⟨fields, rfl, htail, hcount⟩ | ⟨left, right, lw, rw', rfl, -⟩ := h
  · have hle := htail.length_le
    match fields, (show 2 ≤ fields.length by omega) with
    | f :: g :: fs, _ =>
      rw [colons_cons (cons_ne_nil g fs)]
      simp
  · simp

theorem Misspelt.colon_mem {words : List Nat} (h : Misspelt text words) : 58 ∈ text := by
  obtain ⟨front, quad, q, lw, right, rw', rfl, -⟩ := h
  simp

theorem bare_of_mem (hne : text ≠ []) (h : ∀ unit ∈ text, unit = 46 ∨ unit = 58 ∨ isLabel unit = true) : Bare text := by
  refine ⟨hne, fun hmem => ?_, fun hmem => ?_, fun hmem => ?_⟩ <;>
    exact absurd (h _ hmem) (by decide)

theorem LocalName.bare (h : LocalName text) : Bare text := by
  obtain ⟨unit, hunit, -⟩ := h.last
  exact bare_of_mem (ne_nil_of_mem hunit) fun unit hunit => (h.mem hunit).imp_right .inr

theorem isLabel_of_isHex {unit : UInt16} (h : isHex unit = true) : isLabel unit = true := by
  have hrange : isDigit unit = true ∨ 97 ≤ (lower unit).toNat ∧ (lower unit).toNat ≤ 122 := by
    simp only [isHex, Bool.or_eq_true, Bool.and_eq_true, decide_eq_true_eq, UInt16.le_iff_toNat_le, or_assoc] at h
    refine h.imp_right fun h => ?_
    change (97 ≤ unit.toNat ∧ unit.toNat ≤ 102) ∨ 65 ≤ unit.toNat ∧ unit.toNat ≤ 70 at h
    simp only [lower, Bool.and_eq_true, decide_eq_true_eq, UInt16.le_iff_toNat_le]
    split
    · next hupper =>
      change 65 ≤ unit.toNat ∧ unit.toNat ≤ 90 at hupper
      have hsum : (unit + 32).toNat = (unit.toNat + 32) % 65536 := UInt16.toNat_add unit 32
      omega
    · next hupper =>
      change ¬(65 ≤ unit.toNat ∧ unit.toNat ≤ 90) at hupper
      omega
  simp only [isLabel, Bool.or_eq_true, Bool.and_eq_true, decide_eq_true_eq, UInt16.le_iff_toNat_le]
  exact .inl (.inl (.inl hrange))

theorem SpellsQuad.bare {q : Quad} (h : SpellsQuad text q) : Bare text :=
  bare_of_mem (ne_nil_of_mem h.dot_mem) fun _ hunit =>
    (h.mem hunit).imp_right fun hdigit => .inr (isLabel_of_isHex (by simp [isHex, hdigit]))

theorem Groups.mem {fields : List Utf16} {words : List Nat} (h : Groups fields words) {field : Utf16} (hfield : field ∈ fields)
    {unit : UInt16} (hunit : unit ∈ field) : isLabel unit = true := by
  induction h with
  | nil => cases hfield
  | cons hgroup _ ih =>
    obtain rfl | hfield := mem_cons.mp hfield
    · exact isLabel_of_isHex (hgroup.2.2.1 unit hunit)
    · exact ih hfield

theorem Tail.mem {fields : List Utf16} {words : List Nat} (h : Tail fields words) {unit : UInt16} (hunit : unit ∈ colons fields) :
    unit = 46 ∨ unit = 58 ∨ isLabel unit = true := by
  obtain heq | ⟨field, hfield, hin⟩ := mem_intercalate hunit
  · exact .inr (.inl heq)
  · obtain h | ⟨front, quad, q, ws, rfl, hfront, hquad, -⟩ := h
    · exact .inr (.inr (h.mem hfield hin))
    · obtain hfield | hfield := mem_append.mp hfield
      · exact .inr (.inr (hfront.mem hfield hin))
      · rw [mem_singleton.mp hfield] at hin
        exact (hquad.mem hin).imp_right fun hdigit => .inr (isLabel_of_isHex (by simp [isHex, hdigit]))

theorem bare_double {left right : List Utf16} {lw rw' : List Nat} (hleft : Tail left lw) (hright : Tail right rw') :
    Bare (colons left ++ 58 :: 58 :: colons right) := by
  refine bare_of_mem (by simp) fun unit hunit => ?_
  obtain hunit | hunit := mem_append.mp hunit
  · exact hleft.mem hunit
  · obtain rfl | hunit := mem_cons.mp hunit
    · exact .inr (.inl rfl)
    · obtain rfl | hunit := mem_cons.mp hunit
      · exact .inr (.inl rfl)
      · exact hright.mem hunit

theorem SpellsWords.bare {words : List Nat} (h : SpellsWords text words) : Bare text := by
  have hcolon := SpellsWords.colon_mem h
  obtain ⟨fields, rfl, htail, -⟩ | ⟨left, right, lw, rw', rfl, hleft, hright, -⟩ := h
  · exact bare_of_mem (ne_nil_of_mem hcolon) fun unit => htail.mem
  · exact bare_double (.inl hleft) hright

theorem Misspelt.bare {words : List Nat} (h : Misspelt text words) : Bare text := by
  obtain ⟨front, quad, q, lw, right, rw', rfl, hfront, hquad, hright, -⟩ := h
  exact bare_double (.inr ⟨front, quad, q, lw, rfl, hfront, hquad, rfl⟩) hright

theorem Misspelt.not_spelt {words words' : List Nat} (h : Misspelt text words) : ¬ SpellsWords text words' := by
  obtain ⟨front, quad, q, lw, right, rw', htext, hfront, hquad, hright, -⟩ := h
  have hside : Tail (front ++ [quad]) (lw ++ q.words) := .inr ⟨front, quad, q, lw, rfl, hfront, hquad, rfl⟩
  have hsplit := splitColons_double hside.plain hright.plain
  rw [← htext] at hsplit
  rintro (⟨fields, hfields, htail, -⟩ | ⟨left, right', lw', rw'', htext', hleft, hright', -⟩)
  · have hsingle := splitColons_single htail.plain
    rw [← hfields, hsplit] at hsingle
    cases hsingle
  · have hdouble := splitColons_double hleft.plain hright'.plain
    rw [← htext', hsplit] at hdouble
    obtain ⟨hsides, -⟩ := List.cons.inj hdouble
    have hne : left ≠ [] := by
      rintro rfl
      exact colons_ne_nil hside.plain (append_ne_nil_of_right_ne_nil _ (cons_ne_nil _ _)) hsides
    have heq : front ++ [quad] = left := by
      have h1 := splitOn_intercalate 58 (fun field hfield => (hside.plain field hfield).2)
        (append_ne_nil_of_right_ne_nil front (cons_ne_nil quad []))
      have h2 := splitOn_intercalate 58 (fun field hfield => (hleft.plain field hfield).2) hne
      rw [← h1, ← h2]
      exact congrArg (splitOn 58) hsides
    have hmem : quad ∈ left := by
      rw [← heq]
      exact mem_append_right _ (mem_singleton_self quad)
    obtain ⟨word, hgroup⟩ : ∃ word, Group quad word := by
      obtain ⟨i, hi, rfl⟩ := mem_iff_getElem.mp hmem
      exact ⟨_, List.Forall₂.get hleft hi (hleft.length_eq ▸ hi)⟩
    exact hgroup.not_mem.1 hquad.dot_mem

end Texts

section Classes

variable {input : Utf16} {a : Address}

/-- The input is a spelling of the address. -/
def Addresses (input : Utf16) (a : Address) : Prop := ∃ text, Encloses input text ∧ Spells text a

def Names (input : Utf16) : Prop := ∃ text, Encloses input text ∧ LocalName text

/-- What no rule for addresses allows and `classifyPeerAddress` reads: a bracket without the other one around what is spelt,
or a dotted quad before the double colon. -/
def Admits (input : Utf16) : Prop :=
  (∃ text, Lopsided input text ∧ (LocalName text ∨ ∃ a, Spells text a ∧ a.kind ≠ .invalid)) ∨
    ∃ text words, (Encloses input text ∨ Lopsided input text) ∧ Misspelt text words ∧ (Address.v6 words).kind ≠ .invalid

/-- As `Addresses`, with one of the brackets too. -/
def Reads (input : Utf16) (a : Address) : Prop := ∃ text, (Encloses input text ∨ Lopsided input text) ∧ Spells text a

theorem Spells.bare {text : Utf16} (h : Spells text a) : Bare text := by
  cases a with
  | v4 quad => exact SpellsQuad.bare h
  | v6 words => exact SpellsWords.bare h

theorem classify_local (h : LocalName (bareAddress input)) : classifyPeerAddress input = .mdns := by
  unfold classifyPeerAddress
  dsimp only
  rw [if_pos (isLocalName_iff.mpr h)]

theorem classify_words {words : List Nat} (hcolon : 58 ∈ bareAddress input) (h : parseIpv6 (bareAddress input) = some words)
    (hwords : Words words) : classifyPeerAddress input = (Address.v6 words).kind := by
  have hlocal : ¬ isLocalName (bareAddress input) = true := fun h => (isLocalName_iff.mp h).not_mem hcolon
  have hquad : parseIpv4 (bareAddress input) = none := by
    apply Option.eq_none_iff_forall_ne_some.mpr
    intro q hq
    exact (parseIpv4_eq_some.mp hq).not_mem hcolon
  unfold classifyPeerAddress
  dsimp only
  rw [if_neg hlocal, hquad, h]
  exact classifyIpv6_eq hwords

theorem classify_spelt (h : Spells (bareAddress input) a) : classifyPeerAddress input = a.kind := by
  cases a with
  | v4 quad =>
    have hlocal : ¬ isLocalName (bareAddress input) = true := fun hlocal => (isLocalName_iff.mp hlocal).not_quad quad h
    unfold classifyPeerAddress
    dsimp only
    rw [if_neg hlocal, parseIpv4_eq_some.mpr h]
    rfl
  | v6 words => exact classify_words (SpellsWords.colon_mem h) (parseIpv6_eq_some.mpr (.inl h)) (SpellsWords.words h)

theorem classify_misspelt {words : List Nat} (h : Misspelt (bareAddress input) words) :
    classifyPeerAddress input = (Address.v6 words).kind :=
  classify_words h.colon_mem (parseIpv6_eq_some.mpr (.inr h)) h.words

theorem classify_cases (input : Utf16) : LocalName (bareAddress input) ∨ (∃ a, Spells (bareAddress input) a) ∨
    (∃ words, Misspelt (bareAddress input) words) ∨ classifyPeerAddress input = .invalid := by
  by_cases hlocal : isLocalName (bareAddress input) = true
  · exact .inl (isLocalName_iff.mp hlocal)
  · refine .inr ?_
    cases hquad : parseIpv4 (bareAddress input) with
    | some q => exact .inl ⟨.v4 q, parseIpv4_eq_some.mp hquad⟩
    | none =>
      cases hparse : parseIpv6 (bareAddress input) with
      | some words =>
        obtain h | h := parseIpv6_eq_some.mp hparse
        · exact .inl ⟨.v6 words, h⟩
        · exact .inr (.inl ⟨words, h⟩)
      | none =>
        refine .inr (.inr ?_)
        unfold classifyPeerAddress
        dsimp only
        rw [if_neg hlocal, hquad, hparse]

theorem Reads.spells (h : Reads input a) : Spells (bareAddress input) a := by
  obtain ⟨text, hinput, hspells⟩ := h
  rwa [(bareAddress_eq_iff hspells.bare).mpr hinput]

theorem Addresses.reads (h : Addresses input a) : Reads input a := by
  obtain ⟨text, hinput, hspells⟩ := h
  exact ⟨text, .inl hinput, hspells⟩

/-- The class is that of the name or address that the input is a spelling of, and `invalid` where it is of none. -/
def Follows (input : Utf16) : Prop :=
  (Names input → classifyPeerAddress input = .mdns) ∧ (∀ a, Addresses input a → classifyPeerAddress input = a.kind) ∧
    (¬ Names input → (∀ a, ¬ Addresses input a) → classifyPeerAddress input = .invalid)

theorem Names.spelt (h : Names input) : Encloses input (bareAddress input) ∧ LocalName (bareAddress input) := by
  obtain ⟨text, hinput, hlocal⟩ := h
  rw [(bareAddress_eq_iff hlocal.bare).mpr (.inl hinput)]
  exact ⟨hinput, hlocal⟩

theorem Addresses.spelt (h : Addresses input a) : Encloses input (bareAddress input) ∧ Spells (bareAddress input) a := by
  obtain ⟨text, hinput, hspells⟩ := h
  rw [(bareAddress_eq_iff hspells.bare).mpr (.inl hinput)]
  exact ⟨hinput, hspells⟩

theorem not_follows (h : Admits input) : ¬ Follows input := by
  rintro ⟨-, -, hother⟩
  obtain ⟨text, hinput, hspelt⟩ | ⟨text, words, hinput, hmisspelt, hkind⟩ := h
  · have hbare : Bare text := hspelt.elim (·.bare) fun ⟨a, ha, _⟩ => ha.bare
    obtain rfl := (bareAddress_eq_iff hbare).mpr (.inr hinput)
    have hinvalid := hother (fun hname => not_lopsided hbare hname.spelt.1 hinput)
      fun a haddress => not_lopsided hbare haddress.spelt.1 hinput
    obtain hlocal | ⟨a, ha, hkind⟩ := hspelt
    · rw [classify_local hlocal] at hinvalid
      cases hinvalid
    · exact hkind ((classify_spelt ha).symm.trans hinvalid)
  · obtain rfl := (bareAddress_eq_iff hmisspelt.bare).mpr hinput
    refine hkind ((classify_misspelt hmisspelt).symm.trans (hother (fun hname => ?_) fun a haddress => ?_))
    · exact hname.spelt.2.not_mem hmisspelt.colon_mem
    · cases a with
      | v4 quad => exact SpellsQuad.not_mem haddress.spelt.2 hmisspelt.colon_mem
      | v6 words => exact hmisspelt.not_spelt haddress.spelt.2

theorem follows_iff : Follows input ↔ ¬ Admits input := by
  refine ⟨fun hfollows hadmits => not_follows hadmits hfollows, fun hnone => ?_⟩
  refine ⟨fun hname => classify_local hname.spelt.2, fun a haddress => classify_spelt haddress.spelt.2, fun hname haddress => ?_⟩
  obtain hlocal | ⟨a, ha⟩ | ⟨words, hmisspelt⟩ | hinvalid := classify_cases input
  · obtain hinput | hinput := (bareAddress_eq_iff hlocal.bare).mp rfl
    · exact absurd ⟨_, hinput, hlocal⟩ hname
    · exact absurd (.inl ⟨_, hinput, .inl hlocal⟩) hnone
  · obtain hinput | hinput := (bareAddress_eq_iff ha.bare).mp rfl
    · exact absurd ⟨_, hinput, ha⟩ (haddress a)
    · rw [classify_spelt ha]
      by_contra hkind
      exact hnone (.inl ⟨_, hinput, .inr ⟨a, ha, hkind⟩⟩)
  · rw [classify_misspelt hmisspelt]
    by_contra hkind
    exact hnone (.inr ⟨_, words, (bareAddress_eq_iff hmisspelt.bare).mp rfl, hmisspelt, hkind⟩)
  · exact hinvalid

theorem byte_pair {a b : Nat} (h : b ≤ 255) : (a * 256 + b) / 256 = a ∧ (a * 256 + b) % 256 = b := by
  omega

theorem mappedQuad_words {q : Quad} (h : q.first ≤ 255 ∧ q.second ≤ 255 ∧ q.third ≤ 255 ∧ q.fourth ≤ 255) :
    mappedQuad ([0, 0, 0, 0, 0, 0xffff] ++ q.words) = some q := by
  obtain ⟨h1, h2, h3, h4⟩ := h
  obtain ⟨hhigh, hlow⟩ := byte_pair (a := q.first) h2
  obtain ⟨hhigh', hlow'⟩ := byte_pair (a := q.third) h4
  simp [mappedQuad, Quad.words, hhigh, hlow, hhigh', hlow']

end Classes

section Admission

variable {a : Address}

variable {q : Quad}

theorem classifyIpv4_local (h : classifyIpv4 q ∈ [PeerAddressKind.private_, .linkLocal, .cgnat]) : Address.LocalQuad q := by
  by_contra hlocal
  simp only [Address.LocalQuad, not_or] at hlocal
  obtain ⟨hten, htwelve, hsixteen, hlink, hcarrier⟩ := hlocal
  have hprivate := not_or.mpr ⟨hten, not_or.mpr ⟨htwelve, hsixteen⟩⟩
  rw [classifyIpv4, if_neg hlink, if_neg hprivate, if_neg hcarrier] at h
  -- the blocks that are left are of no use, or public
  refine absurd h ?_
  repeat' refine iteInduction (motive := fun kind => kind ∉ _) (fun _ => ?_) fun _ => ?_
  all_goals decide

theorem classifyIpv4_multicast (h : 224 ≤ q.first) : classifyIpv4 q = .invalid := by
  unfold classifyIpv4
  rw [if_neg (by omega), if_neg (by omega), if_pos (.inl h)]

theorem classifyIpv4_loopback (h : q.first = 127) : classifyIpv4 q = .loopback := by
  unfold classifyIpv4
  rw [if_neg (by omega), if_pos h]

theorem classifyIpv4_ne_mdns (q : Quad) : classifyIpv4 q ≠ .mdns := by
  unfold classifyIpv4
  repeat' refine iteInduction (motive := (· ≠ PeerAddressKind.mdns)) (fun _ => ?_) fun _ => ?_
  all_goals decide

theorem kind_ne_mdns (a : Address) : a.kind ≠ .mdns := by
  cases a with
  | v4 q => exact classifyIpv4_ne_mdns q
  | v6 words =>
    cases hmapped : mappedQuad words with
    | some q =>
      rw [kind_mapped hmapped]
      exact classifyIpv4_ne_mdns q
    | none =>
      rw [kind_plain hmapped, plainKind]
      repeat' split
      all_goals decide

theorem kind_loopback (h : a.Loopback) : a.kind = .loopback := by
  cases a with
  | v4 q => exact classifyIpv4_loopback h
  | v6 words =>
    obtain rfl | ⟨q, hq, hfirst⟩ := h
    · decide
    · rw [kind_mapped hq]
      exact classifyIpv4_loopback hfirst

theorem kind_unspecified (h : a.Unspecified) : a.kind = .invalid := by
  cases a with
  | v4 q =>
    cases h
    decide
  | v6 words =>
    obtain rfl | hq := h
    · decide
    · rw [kind_mapped hq]
      decide

theorem first_of_mapped {words : List Nat} (h : mappedQuad words = some q) : words.getD 0 0 = 0 := by
  unfold mappedQuad at h
  split at h
  · split at h
    · rename_i hzero
      exact hzero.1
    · cases h
  · cases h

theorem kind_multicast (h : a.Multicast) : a.kind = .invalid := by
  cases a with
  | v4 q => exact classifyIpv4_multicast h.1
  | v6 words =>
    obtain hfirst | ⟨q, hq, hlow, -⟩ := h
    · cases hmapped : mappedQuad words with
      | some q =>
        rw [first_of_mapped hmapped] at hfirst
        exact absurd hfirst (by decide)
      | none =>
        have hone : words ≠ [0, 0, 0, 0, 0, 0, 0, 1] := by
          rintro rfl
          exact absurd hfirst (by decide)
        rw [kind_plain hmapped, plainKind, if_neg hone, if_neg (by omega), if_neg (by omega), if_neg (by omega)]
    · rw [kind_mapped hq]
      exact classifyIpv4_multicast hlow

theorem kind_local (h : a.kind ∈ [PeerAddressKind.private_, .linkLocal, .cgnat]) : a.Local := by
  cases a with
  | v4 q => exact classifyIpv4_local h
  | v6 words =>
    cases hmapped : mappedQuad words with
    | some q =>
      rw [kind_mapped hmapped] at h
      exact .inr (.inr ⟨q, hmapped, classifyIpv4_local h⟩)
    | none =>
      rw [kind_plain hmapped, plainKind] at h
      unfold Address.Local
      split_ifs at h with h1 h2 h3 h4
      · exact absurd h (by decide)
      · exact .inr (.inl (by omega))
      · exact .inl (by omega)
      · exact absurd h (by decide)
      · exact absurd h (by decide)

theorem allowed_kind {toLowerCase : Utf16 → Utf16} {candidate : Utf16} {route : PeerRoute} {context : PeerRouteContext}
    (h : peerCandidateAllowed toLowerCase candidate route context = true) :
    ∃ parsed, parsePeerCandidate toLowerCase candidate = some parsed ∧ parsed.type ≠ .relay ∧
      classifyPeerAddress parsed.address ≠ .invalid ∧ classifyPeerAddress parsed.address ≠ .loopback ∧
      (route = .lan → classifyPeerAddress parsed.address ∈ [PeerAddressKind.private_, .linkLocal, .mdns, .cgnat]) := by
  unfold peerCandidateAllowed at h
  cases hparsed : parsePeerCandidate toLowerCase candidate with
  | none =>
    rw [hparsed] at h
    cases h
  | some parsed =>
    rw [hparsed] at h
    dsimp only at h
    split at h
    · cases h
    rename_i htype
    split at h
    · cases h
    rename_i hkind
    refine ⟨parsed, rfl, fun hrelay => htype (.inr hrelay), fun hinvalid => hkind (.inl hinvalid),
      fun hloopback => hkind (.inr hloopback), ?_⟩
    rintro rfl
    rw [if_pos rfl] at h
    split at h
    · cases h
    · exact contains_iff_mem.mp (Bool.and_eq_true_iff.mp h).2

end Admission

/-- The class follows the address but where a bracket is missing or a dotted quad stands before a double colon, and what is
read has a class. Spellings of one address have one class, a mapped address that of its IPv4 address, and no candidate
that is admitted is a relay, a loopback, unspecified or multicast address, or, on the local route, an address from outside
the local blocks. -/
theorem peer_addresses (input : Utf16) :
    (Follows input ↔ ¬ Admits input) ∧
    (∀ input' a, Reads input a → Reads input' a → classifyPeerAddress input = classifyPeerAddress input') ∧
    (∀ quad, Reads input (.v6 ([0, 0, 0, 0, 0, 0xffff] ++ quad.words)) →
      quad.first ≤ 255 ∧ quad.second ≤ 255 ∧ quad.third ≤ 255 ∧ quad.fourth ≤ 255 →
      classifyPeerAddress input = (Address.v4 quad).kind) ∧
    ∀ toLowerCase candidate route context, peerCandidateAllowed toLowerCase candidate route context = true →
      ∃ parsed, parsePeerCandidate toLowerCase candidate = some parsed ∧ parsed.type ≠ .relay ∧
        ∀ a, Reads parsed.address a → ¬ a.Loopback ∧ ¬ a.Unspecified ∧ ¬ a.Multicast ∧
          (route = .lan → a.Local ∧ a.kind ≠ .public_) := by
  refine ⟨follows_iff, ?_, ?_, ?_⟩
  · intro input' a h h'
    rw [classify_spelt h.spells, classify_spelt h'.spells]
  · intro quad h hquad
    rw [classify_spelt h.spells, kind_mapped (mappedQuad_words hquad)]
    rfl
  · intro toLowerCase candidate route context h
    obtain ⟨parsed, hparsed, htype, hinvalid, hloopback, hlan⟩ := allowed_kind h
    refine ⟨parsed, hparsed, htype, ?_⟩
    intro a ha
    rw [classify_spelt ha.spells] at hinvalid hloopback hlan
    refine ⟨fun h => hloopback (kind_loopback h), fun h => hinvalid (kind_unspecified h),
      fun h => hinvalid (kind_multicast h), ?_⟩
    intro hroute
    have hkind := hlan hroute
    have hname := kind_ne_mdns a
    have hlocal : a.kind ∈ [PeerAddressKind.private_, .linkLocal, .cgnat] := by
      simp only [mem_cons, not_mem_nil, or_false] at hkind ⊢
      tauto
    refine ⟨kind_local hlocal, ?_⟩
    intro hpublic
    rw [hpublic] at hlocal
    exact absurd hlocal (by decide)

theorem mapped_reads : Reads (jsText "::ffff:10.0.0.1") (.v6 ([0, 0, 0, 0, 0, 0xffff] ++ Quad.words ⟨10, 0, 0, 1⟩)) := by
  have hquad : SpellsQuad (jsText "10.0.0.1") ⟨10, 0, 0, 1⟩ := parseIpv4_eq_some.mp (by decide)
  have hgroup : Group (jsText "ffff") 0xffff := isGroup_iff.mpr ⟨by decide, by decide⟩
  have htail : Tail [jsText "ffff", jsText "10.0.0.1"] ([0xffff] ++ Quad.words ⟨10, 0, 0, 1⟩) :=
    .inr ⟨[jsText "ffff"], jsText "10.0.0.1", ⟨10, 0, 0, 1⟩, [0xffff], rfl, .cons hgroup .nil, hquad, rfl⟩
  have hwords : SpellsWords (jsText "::ffff:10.0.0.1") ([0, 0, 0, 0, 0, 0xffff] ++ Quad.words ⟨10, 0, 0, 1⟩) :=
    .inr ⟨[], _, [], _, by decide, .nil, htail, by decide, by decide⟩
  exact ⟨_, .inl ⟨_, [], trimmed_iff.mpr (by decide), nofun, .inl (append_nil _).symm⟩, hwords⟩

theorem bracketed_reads : Reads (jsText " [0::FFFF:a00:1%eth0]") (.v6 ([0, 0, 0, 0, 0, 0xffff] ++ Quad.words ⟨10, 0, 0, 1⟩)) := by
  have hleft : Groups [jsText "0"] [0] := .cons (isGroup_iff.mpr ⟨by decide, by decide⟩) .nil
  have hright : Groups [jsText "FFFF", jsText "a00", jsText "1"] [0xffff, 2560, 1] :=
    .cons (isGroup_iff.mpr ⟨by decide, by decide⟩)
      (.cons (isGroup_iff.mpr ⟨by decide, by decide⟩)
        (.cons (isGroup_iff.mpr ⟨by decide, by decide⟩) .nil))
  have hwords : SpellsWords (jsText "0::FFFF:a00:1") ([0, 0, 0, 0, 0, 0xffff] ++ Quad.words ⟨10, 0, 0, 1⟩) :=
    .inr ⟨_, _, _, _, by decide, hleft, .inl hright, by decide, by decide⟩
  refine ⟨_, .inl ⟨jsText "[0::FFFF:a00:1%eth0]", jsText "%eth0", ?_, ?_, .inr (by decide)⟩, hwords⟩
  · exact trimmed_iff.mpr (by decide)
  · exact fun unit hunit => (Option.mem_some_iff.mp hunit).symm

theorem peer_addresses_mapped :
    classifyPeerAddress (jsText "::ffff:10.0.0.1") = classifyPeerAddress (jsText " [0::FFFF:a00:1%eth0]") ∧
    classifyPeerAddress (jsText "::ffff:10.0.0.1") = (Address.v4 ⟨10, 0, 0, 1⟩).kind ∧
    ∃ parsed, parsePeerCandidate id (jsText "candidate:1 1 udp 2113937151 192.168.1.4 54400 typ host") = some parsed ∧
      parsed.type ≠ .relay ∧ ∀ a, Reads parsed.address a → ¬ a.Loopback ∧ ¬ a.Unspecified ∧ ¬ a.Multicast ∧
        (PeerRoute.lan = .lan → a.Local ∧ a.kind ≠ .public_) :=
  ⟨(peer_addresses _).2.1 _ _ mapped_reads bracketed_reads, (peer_addresses _).2.2.1 _ mapped_reads (by decide),
    (peer_addresses []).2.2.2 id _ .lan {} (by decide)⟩

theorem lopsided_quad : Admits (jsText "[10.0.0.1") := by
  have hquad : SpellsQuad (jsText "10.0.0.1") ⟨10, 0, 0, 1⟩ := parseIpv4_eq_some.mp (by decide)
  refine .inl ⟨_, ⟨jsText "[10.0.0.1", trimmed_iff.mpr (by decide), .inr ⟨[], nofun, ?_, ?_⟩⟩,
    .inr ⟨.v4 ⟨10, 0, 0, 1⟩, hquad, by decide⟩⟩
  · decide
  · decide

theorem misspelt_quad : Admits (jsText "32.1.13.184::") := by
  have hquad : SpellsQuad (jsText "32.1.13.184") ⟨32, 1, 13, 184⟩ := parseIpv4_eq_some.mp (by decide)
  have hmisspelt : Misspelt (jsText "32.1.13.184::") [0x2001, 0xdb8, 0, 0, 0, 0, 0, 0] :=
    ⟨[], jsText "32.1.13.184", ⟨32, 1, 13, 184⟩, [], [], [], by decide, .nil, hquad, .inl .nil, by decide, by decide⟩
  exact .inr ⟨_, _, .inl ⟨_, [], trimmed_iff.mpr (by decide), nofun, .inl (append_nil _).symm⟩, hmisspelt, by decide⟩

/-- Texts that spell no address are public or private, and admitted. -/
theorem misspelt_public :
    (classifyPeerAddress (jsText "32.1.13.184::") = .public_ ∧ ¬ Follows (jsText "32.1.13.184::") ∧
      peerCandidateAllowed id (jsText "candidate:1 1 udp 2113937151 252.0.0.1::9 54400 typ host") .lan {} = true) ∧
    classifyPeerAddress (jsText "[10.0.0.1") = .private_ ∧ ¬ Follows (jsText "[10.0.0.1") ∧
      peerCandidateAllowed id (jsText "candidate:1 1 udp 2113937151 [10.0.0.1 54400 typ host") .lan {} = true := by
  refine ⟨⟨by decide, ?_, by decide⟩, by decide, ?_, by decide⟩
  · exact not_follows misspelt_quad
  · exact not_follows lopsided_quad

end Cantrip.WorkerLinks.Peer
