import Cantrip.Lib.JsonText
import Cantrip.Nbt.Types
import Cantrip.Wire.Stringify

/-!
# Rows of search results (`packages/nbt/src/search/results.ts`)

A page of results is kept as the JSON text of its rows, next to a manifest. What `JSON.stringify` writes is written
here piece by piece; `JSON.parse` is given for texts of these two shapes. A row has its bound in bytes by the length
of its node's identity (`rowsText_length`), as long as its numbers are safe integers.
-/

namespace Cantrip.Nbt

open Lib List Option
open Wire (jsonBody writeJson hexChar unicodeEscape writeUnit shortEscape jsonBody_spec joined)

/-- Node sequence, first element (-1 for a tag), run length, field mask, first result rank. -/
structure RecordRow where
  nodeId : Utf16
  element : Int
  count : Nat
  mask : Nat
  rank : Nat
  deriving DecidableEq, Repr

structure ResultManifest where
  version : Nat
  length : Nat
  parts : Nat
  deriving DecidableEq, Repr

def RecordRow.text (row : RecordRow) : List Char :=
  ['['] ++ writeJson row.nodeId ++ [','] ++ integerText row.element ++ [','] ++ digits row.count ++ [','] ++
    digits row.mask ++ [','] ++ digits row.rank ++ [']']

def rowsText (rows : List RecordRow) : List Char := ['['] ++ joined [','] (rows.map RecordRow.text) ++ [']']

def ResultManifest.text (m : ResultManifest) : List Char :=
  ('{' :: "\"version\":".toList) ++ digits m.version ++ ",\"length\":".toList ++ digits m.length ++
    ",\"parts\":".toList ++ digits m.parts ++ ['}']

/-! ## Reading -/

def readRow : Reader RecordRow := fun text => do
  let (_, text) ← expect ['[', '"'] text
  let (nodeId, text) ← stringBody text
  let (_, text) ← expect [','] text
  let (element, text) ← Lib.integer text
  let (_, text) ← expect [','] text
  let (count, text) ← natural text
  let (_, text) ← expect [','] text
  let (mask, text) ← natural text
  let (_, text) ← expect [','] text
  let (rank, text) ← natural text
  let (_, text) ← expect [']'] text
  some (⟨nodeId, element, count, mask, rank⟩, text)

def readRows : Nat → Reader (List RecordRow)
  | 0, _ => none
  | fuel + 1, text => do
    let (row, text) ← readRow text
    match text with
    | ',' :: text =>
      let (rows, text) ← readRows fuel text
      some (row :: rows, text)
    | ']' :: text => some ([row], text)
    | _ => none

/-- `JSON.parse` of a page. -/
def parseRows (text : List Char) : Option (List RecordRow) :=
  match text with
  | ['[', ']'] => some []
  | '[' :: text =>
    match readRows text.length text with
    | some (rows, []) => some rows
    | _ => none
  | _ => none

/-- `JSON.parse` of a manifest. -/
def parseManifest (text : List Char) : Option ResultManifest := do
  let (_, text) ← expect ('{' :: "\"version\":".toList) text
  let (version, text) ← natural text
  let (_, text) ← expect ",\"length\":".toList text
  let (length, text) ← natural text
  let (_, text) ← expect ",\"parts\":".toList text
  let (parts, text) ← natural text
  if text = ['}'] then some ⟨version, length, parts⟩ else none

theorem readRow_text (row : RecordRow) (rest : List Char) : readRow (row.text ++ rest) = some (row, rest) := by
  have hcomma (t : List Char) : EndsNumber ([','] ++ t) := endsNumber_cons rfl t
  have hbracket (t : List Char) : EndsNumber ([']'] ++ t) := endsNumber_cons rfl t
  have htext : row.text ++ rest = ['[', '"'] ++ (jsonBody row.nodeId ++ '"' :: ([','] ++ (integerText row.element ++
      ([','] ++ (digits row.count ++ ([','] ++ (digits row.mask ++ ([','] ++ (digits row.rank ++ ([']'] ++ rest)))))))))) := by
    simp [RecordRow.text, writeJson]
  rw [htext, readRow, expect_append, bind_eq_bind, bind_some]
  simp only [stringBody_append (jsonBody_spec row.nodeId), expect_append, bind_eq_bind, bind_some]
  rw [integer_text _ (hcomma _)]
  simp only [expect_append, bind_some]
  rw [natural_digits _ (hcomma _)]
  simp only [expect_append, bind_some]
  rw [natural_digits _ (hcomma _)]
  simp only [expect_append, bind_some]
  rw [natural_digits _ (hbracket _)]
  simp only [expect_append, bind_some]

theorem readRows_text (row : RecordRow) (rows : List RecordRow) (fuel : Nat) (hfuel : rows.length < fuel) (rest : List Char) :
    readRows fuel (joined [','] ((row :: rows).map RecordRow.text) ++ ']' :: rest) = some (row :: rows, rest) := by
  induction rows generalizing row fuel with
  | nil =>
    obtain ⟨fuel, rfl⟩ : ∃ n, fuel = n + 1 := ⟨fuel - 1, by omega⟩
    rw [map_singleton, joined, readRows, readRow_text]
    rfl
  | cons next rows ih =>
    obtain ⟨fuel, rfl⟩ : ∃ n, fuel = n + 1 := ⟨fuel - 1, by omega⟩
    have hnext := ih next fuel (Nat.lt_of_succ_lt_succ hfuel)
    rw [map_cons] at hnext
    rw [map_cons, map_cons, joined, append_assoc, append_assoc, readRows, readRow_text]
    simp only [singleton_append, bind_eq_bind, bind_some, hnext]

theorem joined_length (parts : List (List Char)) (h : ∀ t ∈ parts, t ≠ []) : parts.length ≤ (joined [','] parts).length := by
  induction parts with
  | nil => exact Nat.zero_le _
  | cons t rest ih =>
    have ht := length_pos_iff.mpr (h t mem_cons_self)
    match rest, ih with
    | [], _ => exact ht
    | u :: rest, ih =>
      have hrest := ih fun t ht => h t (mem_cons_of_mem _ ht)
      rw [joined, length_append, length_append, length_cons, length_singleton]
      omega

theorem parseRows_text (rows : List RecordRow) : parseRows (rowsText rows) = some rows := by
  match rows with
  | [] => rfl
  | row :: rows =>
    have htext : rowsText (row :: rows) = '[' :: (joined [','] ((row :: rows).map RecordRow.text) ++ ']' :: []) := by
      rw [rowsText, append_assoc]
      rfl
    have hlong := joined_length ((row :: rows).map RecordRow.text) (by simp [RecordRow.text])
    rw [length_map, length_cons] at hlong
    have hread := readRows_text row rows (joined [','] ((row :: rows).map RecordRow.text) ++ ']' :: []).length
      (by rw [length_append]; omega) []
    rw [htext, parseRows, hread]
    intro hempty
    have hshort := congrArg List.length hempty
    rw [length_append] at hshort
    simp only [length_singleton] at hshort
    omega

theorem parseManifest_text (m : ResultManifest) : parseManifest m.text = some m := by
  have hcomma (t : List Char) : EndsNumber (",\"length\":".toList ++ t) := endsNumber_cons rfl _
  have hcomma' (t : List Char) : EndsNumber (",\"parts\":".toList ++ t) := endsNumber_cons rfl _
  have hbrace : EndsNumber ['}'] := endsNumber_cons rfl _
  have htext : m.text = ('{' :: "\"version\":".toList) ++ (digits m.version ++ (",\"length\":".toList ++ (digits m.length ++
      (",\"parts\":".toList ++ (digits m.parts ++ ['}']))))) := by
    simp only [ResultManifest.text, append_assoc]
  rw [htext, parseManifest]
  simp only [expect_append, bind_eq_bind, bind_some]
  rw [natural_digits _ (hcomma _)]
  simp only [expect_append, bind_some]
  rw [natural_digits _ (hcomma' _)]
  simp only [expect_append, bind_some]
  rw [natural_digits _ hbrace]
  rfl

/-! ## Bytes of a page -/

theorem hexChar_ascii : ∀ n < 16, (hexChar n).toNat < 128 := by decide

theorem writeUnit_length (unit : UInt16) : (textBytes (writeUnit unit)).length ≤ 6 := by
  have hlt : unit.toNat < 65536 := unit.toNat_lt
  have hunicode : (textBytes (unicodeEscape unit)).length = 6 := by
    refine textBytes_ascii fun c hc => ?_
    simp only [unicodeEscape, mem_cons, not_mem_nil, or_false] at hc
    rcases hc with rfl | rfl | rfl | rfl | rfl | rfl
    · decide
    · decide
    all_goals exact hexChar_ascii _ (by omega)
  unfold writeUnit
  split
  · next c _ =>
    have hc := Char.utf8Size_le_four c
    rw [textBytes_cons, textBytes_cons, length_append, length_append, String.length_utf8EncodeChar,
      String.length_utf8EncodeChar, show Char.utf8Size '\\' = 1 from rfl]
    simp only [textBytes, flatMap_nil, length_nil]
    omega
  · split
    · exact hunicode.le
    · split
      · exact hunicode.le
      · have hc := Char.utf8Size_le_four (Char.ofNat unit.toNat)
        rw [textBytes_cons, length_append, String.length_utf8EncodeChar]
        simp only [textBytes, flatMap_nil, length_nil]
        omega

theorem jsonBody_length (s : Utf16) : (textBytes (jsonBody s)).length ≤ 6 * s.length := by
  induction s using Cantrip.Wire.jsonBody.induct with
  | case1 => exact le_rfl
  | case2 unit => exact writeUnit_length unit
  | case3 unit low rest hpair ih =>
    have hc := Char.utf8Size_le_four (Char.ofNat (0x10000 + (unit.toNat - 0xd800) * 0x400 + (low.toNat - 0xdc00)))
    rw [jsonBody, if_pos hpair, textBytes_cons, length_append, String.length_utf8EncodeChar]
    simp only [length_cons]
    omega
  | case4 unit low rest hpair ih =>
    have hunit := writeUnit_length unit
    rw [jsonBody, if_neg hpair, textBytes_append, length_append]
    rw [length_cons] at ih
    simp only [length_cons]
    omega

theorem digits_length {n : Nat} (h : n ≤ maxSafeInteger) : (textBytes (digits n)).length ≤ 16 := by
  have hascii : ∀ c ∈ digits n, c.toNat < 128 := by
    intro c hc
    have hdigit := isDigitChar_digits hc
    simp only [isDigitChar, decide_eq_true_eq] at hdigit
    omega
  rw [textBytes_ascii hascii, digits, Nat.length_toDigits_le_iff (by decide) (by decide)]
  exact h.trans_lt (by decide)

structure RecordRow.Safe (row : RecordRow) : Prop where
  element : -1 ≤ row.element ∧ row.element ≤ maxSafeInteger
  count : row.count ≤ maxSafeInteger
  mask : row.mask ≤ maxSafeInteger
  rank : row.rank ≤ maxSafeInteger

theorem integerText_length {z : Int} (hlow : -1 ≤ z) (hhigh : z ≤ maxSafeInteger) : (textBytes (integerText z)).length ≤ 16 := by
  match z with
  | .ofNat n => exact digits_length (by exact Int.ofNat_le.mp hhigh)
  | .negSucc 0 => decide
  | .negSucc (n + 1) => omega

/-- What a row is charged with in `appendRange`. -/
def RecordRow.cost (row : RecordRow) : Nat := row.nodeId.length * 6 + 128

theorem RecordRow.text_length {row : RecordRow} (h : row.Safe) : (textBytes row.text).length < row.cost := by
  have hnode := jsonBody_length row.nodeId
  have helement := integerText_length h.element.1 h.element.2
  have hcount := digits_length h.count
  have hmask := digits_length h.mask
  have hrank := digits_length h.rank
  have hquoted : (textBytes (writeJson row.nodeId)).length = 1 + (textBytes (jsonBody row.nodeId)).length + 1 := by
    rw [writeJson, textBytes_append, textBytes_cons, length_append, length_append]
    rfl
  have hopen : (textBytes ['[']).length = 1 := rfl
  have hcomma : (textBytes [',']).length = 1 := rfl
  have hclose : (textBytes [']']).length = 1 := rfl
  simp only [RecordRow.text, RecordRow.cost, textBytes_append, length_append, hquoted, hopen, hcomma, hclose]
  omega

theorem rowsText_length {rows : List RecordRow} (h : ∀ row ∈ rows, row.Safe) :
    (textBytes (rowsText rows)).length ≤ (rows.map RecordRow.cost).sum + 2 := by
  have hjoined : (textBytes (joined [','] (rows.map RecordRow.text))).length ≤ (rows.map RecordRow.cost).sum := by
    induction rows with
    | nil => exact le_rfl
    | cons row rows ih =>
      have hrow := RecordRow.text_length (h row mem_cons_self)
      have hrest := ih fun row hrow => h row (mem_cons_of_mem _ hrow)
      rw [map_cons, map_cons, sum_cons]
      match rows, hrest with
      | [], _ => exact hrow.le
      | next :: rows, hrest =>
        rw [map_cons] at hrest ⊢
        rw [joined, textBytes_append, textBytes_append, length_append, length_append,
          show (textBytes [',']).length = 1 from rfl]
        omega
  rw [rowsText, textBytes_append, textBytes_append, length_append, length_append,
    show (textBytes ['[']).length = 1 from rfl, show (textBytes [']']).length = 1 from rfl]
  omega

end Cantrip.Nbt
