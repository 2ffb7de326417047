import Cantrip.Lib.Json
import Cantrip.Lib.Keyed
import Mathlib.Data.List.Sort
import Mathlib.Algebra.BigOperators.Group.List.Basic

/-!
# JSON values (`wire/value.rs`, `wire/value/operations.rs`, `wire/coercion.rs`)

A string keeps its UTF-16 units, an object its entries in the order they were inserted. `stringify` writes a value
from a stack of parts; `stringifyPretty` lays the compact text out again, character by character. Texts are lists
of characters.
-/

namespace Cantrip.Wire

open Lib List Option Bool

/-- The doubles of a value, with how they are written, read and compared. -/
structure Numbers where
  Number : Type
  isFinite : Number → Bool
  formatFinite : Number → List Char
  parse : List Char → Option Number
  eq : Number → Number → Bool

variable {F : Numbers}

abbrev JsString := Utf16

inductive Value (F : Numbers)
  | null
  | bool (v : Bool)
  | number (v : F.Number)
  | string (v : JsString)
  | array (values : List (Value F))
  | object (entries : List (JsString × Value F))

abbrev Object (F : Numbers) := List (JsString × Value F)

/-! ## Strings -/

def hexChar (n : Nat) : Char := if n < 10 then Char.ofNat (48 + n) else Char.ofNat (87 + n)

/-- `\u` with four hexadecimal digits. -/
def unicodeEscape (unit : UInt16) : List Char :=
  let n := unit.toNat
  ['\\', 'u', hexChar (n / 4096), hexChar (n / 256 % 16), hexChar (n / 16 % 16), hexChar (n % 16)]

def shortEscape (unit : UInt16) : Option Char :=
  if unit = 34 then some '"'
  else if unit = 92 then some '\\'
  else if unit = 8 then some 'b'
  else if unit = 9 then some 't'
  else if unit = 10 then some 'n'
  else if unit = 12 then some 'f'
  else if unit = 13 then some 'r'
  else none

/-- A unit that is not the first of a pair. -/
def writeUnit (unit : UInt16) : List Char :=
  match shortEscape unit with
  | some c => ['\\', c]
  | none =>
    if unit.toNat ≤ 31 then unicodeEscape unit
    else if isHighSurrogate unit.toNat || isLowSurrogate unit.toNat then unicodeEscape unit
    else [Char.ofNat unit.toNat]

/-- What `write_json` writes between the quotes. A pair of surrogates is written as its character. -/
def jsonBody : JsString → List Char
  | [] => []
  | [unit] => writeUnit unit
  | unit :: low :: rest =>
    if isHighSurrogate unit.toNat && isLowSurrogate low.toNat then
      Char.ofNat (0x10000 + (unit.toNat - 0xd800) * 0x400 + (low.toNat - 0xdc00)) :: jsonBody rest
    else writeUnit unit ++ jsonBody (low :: rest)

def writeJson (s : JsString) : List Char := '"' :: jsonBody s ++ ['"']

/-! ## The order of keys -/

def isDigitUnit (u : UInt16) : Bool := decide (48 ≤ u.toNat ∧ u.toNat ≤ 57)

def U32_MAX : Nat := 4294967295

/-- `s.parse::<u32>()`. -/
def parseU32 (key : JsString) : Option Nat :=
  let digits := if key.head? = some 43 then key.tail else key
  if digits ≠ [] ∧ digits.all isDigitUnit then
    let n := digits.foldl (fun n u => n * 10 + (u.toNat - 48)) 0
    if n ≤ U32_MAX then some n else none
  else none

def decimal (n : Nat) : JsString := (Nat.toDigits 10 n).map fun c => UInt16.ofNat c.toNat

def arrayIndex (key : JsString) : Option Nat :=
  if wellFormed key then (parseU32 key).filter fun n => n < U32_MAX ∧ decimal n = key else none

def rank (key : JsString) : Nat × Nat :=
  match arrayIndex key with
  | some n => (0, n)
  | none => (1, 0)

def rankLe (a b : JsString) : Prop := (rank a).1 < (rank b).1 ∨ (rank a).1 = (rank b).1 ∧ (rank a).2 ≤ (rank b).2

instance (a b : JsString) : Decidable (rankLe a b) := inferInstanceAs (Decidable (_ ∨ _))

/-- `keys`, with the value each one is looked up to. -/
def sortEntries {α : Type} (entries : List (JsString × α)) : List (JsString × α) :=
  entries.insertionSort fun a b => rankLe a.1 b.1

/-! ## Writing -/

inductive Part (F : Numbers)
  | value (value : Value F)
  | key (key : JsString)
  | text (text : List Char)

mutual

/-- A bound on the parts a value is written from. -/
def Value.weight : Value F → Nat
  | .array values => 2 + weights values
  | .object entries => 2 + entryWeights entries
  | _ => 1

def weights : List (Value F) → Nat
  | [] => 0
  | v :: vs => v.weight + 1 + weights vs

def entryWeights : Object F → Nat
  | [] => 0
  | (_, v) :: es => v.weight + 4 + entryWeights es

end

def Part.weight : Part F → Nat
  | .value v => v.weight
  | _ => 1

def partsWeight (stack : List (Part F)) : Nat := (stack.map Part.weight).sum

/-- Push the items of an array so that the first one is written first. -/
def pushItems (comma : Bool) : List (Value F) → List (Part F) → List (Part F)
  | [], stack => stack
  | v :: vs, stack => (if comma then [.text [',']] else []) ++ .value v :: pushItems true vs stack

def pushEntries (comma : Bool) : Object F → List (Part F) → List (Part F)
  | [], stack => stack
  | (k, v) :: es, stack =>
    (if comma then [.text [',']] else []) ++ .key k :: .text [':'] :: .value v :: pushEntries true es stack

theorem partsWeight_cons (p : Part F) (stack : List (Part F)) : partsWeight (p :: stack) = p.weight + partsWeight stack := by
  unfold partsWeight
  rw [map_cons, sum_cons]

theorem partsWeight_pushItems (comma : Bool) (values : List (Value F)) (stack : List (Part F)) :
    partsWeight (pushItems comma values stack) ≤ weights values + partsWeight stack := by
  induction values generalizing comma with
  | nil => simp [pushItems, weights]
  | cons v vs ih =>
    have hrest := ih true
    unfold pushItems weights
    cases comma
    · simp only [false_eq_true, if_false, nil_append, partsWeight_cons, Part.weight]
      omega
    · simp only [if_true, singleton_append, partsWeight_cons, Part.weight]
      omega

theorem partsWeight_pushEntries (comma : Bool) (entries : Object F) (stack : List (Part F)) :
    partsWeight (pushEntries comma entries stack) ≤ entryWeights entries + partsWeight stack := by
  induction entries generalizing comma with
  | nil => simp [pushEntries, entryWeights]
  | cons e es ih =>
    obtain ⟨k, v⟩ := e
    have hrest := ih true
    unfold pushEntries entryWeights
    cases comma
    · simp only [false_eq_true, if_false, nil_append, partsWeight_cons, Part.weight]
      omega
    · simp only [if_true, singleton_append, partsWeight_cons, Part.weight]
      omega

theorem entryWeights_eq (entries : Object F) : entryWeights entries = (entries.map fun e => e.2.weight + 4).sum := by
  induction entries with
  | nil => rfl
  | cons e es ih =>
    rw [entryWeights, ih, map_cons, sum_cons]

theorem entryWeights_sort (entries : Object F) : entryWeights (sortEntries entries) = entryWeights entries := by
  rw [entryWeights_eq, entryWeights_eq]
  exact ((perm_insertionSort _ entries).map _).sum_eq

def boolText (v : Bool) : List Char := if v then ['t', 'r', 'u', 'e'] else ['f', 'a', 'l', 's', 'e']

def numberText (v : F.Number) : List Char := if F.isFinite v then F.formatFinite v else ['n', 'u', 'l', 'l']

/-- The loop of `stringify`, over the parts still to be written. -/
def write : List (Part F) → List Char → List Char
  | [], output => output
  | .text text :: stack, output => write stack (output ++ text)
  | .key key :: stack, output => write stack (output ++ writeJson key)
  | .value .null :: stack, output => write stack (output ++ ['n', 'u', 'l', 'l'])
  | .value (.bool v) :: stack, output => write stack (output ++ boolText v)
  | .value (.number v) :: stack, output => write stack (output ++ numberText v)
  | .value (.string v) :: stack, output => write stack (output ++ writeJson v)
  | .value (.array values) :: stack, output =>
    write (pushItems false values (.text [']'] :: stack)) (output ++ ['['])
  | .value (.object entries) :: stack, output =>
    write (pushEntries false (sortEntries entries) (.text ['}'] :: stack)) (output ++ ['{'])
termination_by stack _ => partsWeight stack
decreasing_by
  all_goals simp only [partsWeight_cons, Part.weight, Value.weight]
  case _ => omega
  case _ => omega
  case _ => omega
  case _ => omega
  case _ => omega
  case _ => omega
  case _ =>
    have h := partsWeight_pushItems false values (.text [']'] :: stack)
    simp only [partsWeight_cons, Part.weight] at h
    omega
  case _ =>
    have h := partsWeight_pushEntries false (sortEntries entries) (.text ['}'] :: stack)
    simp only [partsWeight_cons, Part.weight, entryWeights_sort] at h
    omega

def stringify (v : Value F) : List Char := write [.value v] []

/-- `stringify().len()` -/
def byteLength (v : Value F) : Nat := ((stringify v).map Char.utf8Size).sum

structure Layout where
  quoted : Bool
  escaped : Bool
  depth : Nat
  previous : Char

def newline (depth : Nat) : List Char := '\n' :: (List.replicate depth [' ', ' ']).flatten

/-- The loop of `stringify_pretty`: what is written for the rest of the compact text. -/
def layOut : Layout → List Char → List Char
  | _, [] => []
  | l, ch :: rest =>
    let l' := { l with previous := ch }
    if l.quoted then
      ch :: layOut (if l.escaped then { l' with escaped := false }
          else if ch = '\\' then { l' with escaped := true }
          else if ch = '"' then { l' with quoted := false }
          else l') rest
    else if ch = '"' then ch :: layOut { l' with quoted := true } rest
    else if ch = '{' ∨ ch = '[' then
      ch :: (if rest.head?.any fun next => ¬(next = '}' ∨ next = ']') then newline (l.depth + 1) else []) ++
        layOut { l' with depth := l.depth + 1 } rest
    else if ch = '}' ∨ ch = ']' then
      (if ¬(l.previous = '{' ∨ l.previous = '[') then newline (l.depth - 1) else []) ++
        ch :: layOut { l' with depth := l.depth - 1 } rest
    else if ch = ',' then ',' :: newline l.depth ++ layOut l' rest
    else if ch = ':' then ':' :: ' ' :: layOut l' rest
    else ch :: layOut l' rest

def stringifyPretty (v : Value F) : List Char := layOut ⟨false, false, 0, ' '⟩ (stringify v)

/-! ## Comparing -/

/-- `object.get(key)`. -/
def lookup {α : Type} (entries : List (JsString × α)) (key : JsString) : Option α :=
  (entries.find? fun e => e.1 = key).map Prod.snd

/-- The values of one object beside those of another under the same keys. -/
def pairUp (b : Object F) : Object F → Option (List (Value F × Value F))
  | [] => some []
  | (k, v) :: es => do
    let other ← lookup b k
    let rest ← pairUp b es
    some ((v, other) :: rest)

def pairsWeight (pending : List (Value F × Value F)) : Nat := (pending.map fun p => p.1.weight).sum

theorem pairsWeight_append (p q : List (Value F × Value F)) : pairsWeight (p ++ q) = pairsWeight p + pairsWeight q := by
  unfold pairsWeight
  rw [map_append, sum_append]

theorem pairsWeight_cons (p : Value F × Value F) (q : List (Value F × Value F)) :
    pairsWeight (p :: q) = p.1.weight + pairsWeight q := by
  unfold pairsWeight
  rw [map_cons, sum_cons]

theorem pairsWeight_reverse (p : List (Value F × Value F)) : pairsWeight p.reverse = pairsWeight p := by
  unfold pairsWeight
  rw [map_reverse, sum_reverse]

theorem pairsWeight_zip (a b : List (Value F)) : pairsWeight (a.zip b) ≤ weights a := by
  induction a generalizing b with
  | nil => simp [pairsWeight, weights]
  | cons v vs ih =>
    match b with
    | [] => simp [pairsWeight]
    | w :: ws =>
      have hrest := ih ws
      simp only [zip_cons_cons, pairsWeight_cons, weights]
      omega

theorem pairsWeight_pairUp {b : Object F} {a : Object F} : ∀ {pairs : List (Value F × Value F)}, pairUp b a = some pairs →
    pairsWeight pairs ≤ entryWeights a := by
  induction a with
  | nil =>
    intro pairs h
    cases h
    exact Nat.le_refl _
  | cons e es ih =>
    intro pairs h
    obtain ⟨k, v⟩ := e
    simp only [pairUp, bind_eq_bind, bind_eq_some_iff, some.injEq] at h
    obtain ⟨other, -, rest, hrest, rfl⟩ := h
    have hle := ih hrest
    simp only [pairsWeight_cons, entryWeights]
    omega

/-- `PartialEq for Value`, over the pairs still to be compared. -/
def equal : List (Value F × Value F) → Bool
  | [] => true
  | (.null, .null) :: pending => equal pending
  | (.bool a, .bool b) :: pending => if a = b then equal pending else false
  | (.number a, .number b) :: pending => if F.eq a b then equal pending else false
  | (.string a, .string b) :: pending => if a = b then equal pending else false
  | (.array a, .array b) :: pending =>
    if a.length = b.length then equal ((a.zip b).reverse ++ pending) else false
  | (.object a, .object b) :: pending =>
    if a.length = b.length then
      match _h : pairUp b a with
      | some pairs => equal (pairs.reverse ++ pending)
      | none => false
    else false
  | _ :: _ => false
termination_by pending => pairsWeight pending
decreasing_by
  all_goals simp only [pairsWeight_cons, pairsWeight_append, pairsWeight_reverse, Value.weight]
  case _ => omega
  case _ => omega
  case _ => omega
  case _ => omega
  case _ =>
    have hzip := pairsWeight_zip a b
    omega
  case _ =>
    have hpairs := pairsWeight_pairUp _h
    omega

end Cantrip.Wire
