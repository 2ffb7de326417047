import Cantrip.Lib.Loop
import Cantrip.Lib.Post
import Cantrip.Wire.Value

/-!
# JSON text diagnostics (`wire/json_text.rs`)

`Syntax` walks a text of UTF-16 units by position and says why it is no JSON text. What is still due is a stack of
states; a value that opens an object or an array leaves the state after it there. Indexing past the end and a difference
below zero are panics.
-/

namespace Cantrip.Wire

open Lib

/-- The units of a text, `JsString::from`. -/
def jsText (text : String) : JsString := text.toList.flatMap fun c => utf16Units c.toNat

inductive State
  | value | end_ | objectFirst | objectNext | colon | objectAfter | arrayFirst | arrayNext | arrayAfter
  deriving DecidableEq

inductive Failure
  | message (text : JsString)
  | panic

abbrev Outcome (α : Type) := Except Failure α

def checkedSub (a b : Nat) : Outcome Nat := if b ≤ a then .ok (a - b) else .error .panic

structure Syntax where
  source : Utf16
  at_ : Nat

namespace Syntax

def current (s : Syntax) : Option UInt16 := s.source[s.at_]?

/-- `self.at += 1`. -/
def step (s : Syntax) : Syntax := { s with at_ := s.at_ + 1 }

/-- Go on while the unit is one of these. -/
def skip (p : UInt16 → Bool) (s : Syntax) : Syntax :=
  { s with at_ := s.at_ + ((s.source.drop s.at_).takeWhile p).length }

def isSpace (c : UInt16) : Bool := c = 9 || c = 10 || c = 13 || c = 32

def isDigit (c : UInt16) : Bool := 48 ≤ c && c ≤ 57

def isHex (c : UInt16) : Bool := isDigit c || (65 ≤ c && c ≤ 70) || (97 ≤ c && c ≤ 102)

/-- The units that an escape of two units ends with. -/
def isEscape (c : UInt16) : Bool := c = 34 || c = 47 || c = 92 || c = 98 || c = 102 || c = 110 || c = 114 || c = 116

def whitespace (s : Syntax) : Syntax := s.skip isSpace

/-! ## Errors -/

def index (s : Syntax) (i : Nat) : Outcome UInt16 :=
  match s.source[i]? with
  | some unit => .ok unit
  | none => .error .panic

/-- Whether a carriage return and a line feed before the position stand here. -/
def pair (s : Syntax) (cursor : Nat) : Outcome Bool := do
  let first ← s.index cursor
  if first = 13 ∧ cursor + 1 < s.at_ then do
    let second ← s.index (cursor + 1)
    .ok (decide (second = 10))
  else .ok false

/-- The line that the position is on, and where it begins. A carriage return and a line feed end one line. -/
def lines (s : Syntax) (cursor line last : Nat) : Outcome (Nat × Nat) :=
  if cursor < s.at_ then do
    let pair ← s.pair cursor
    let next := if pair then cursor + 1 else cursor
    let unit ← s.index next
    if unit = 10 || unit = 13 then s.lines (next + 1) (line + 1) (next + 1) else s.lines (next + 1) line last
  else .ok (line, last)
termination_by s.at_ - cursor
decreasing_by
  all_goals split <;> omega

def positioned {α : Type} (s : Syntax) (message : String) : Outcome α := do
  let (line, last) ← s.lines 0 1 0
  let column ← checkedSub (1 + s.at_) last
  .error (.message (jsText message ++ jsText " at position " ++ decimal s.at_ ++ jsText " (line " ++ decimal line ++
    jsText " column " ++ decimal column ++ jsText ")"))

theorem positioned_ne_ok {α : Type} {s : Syntax} {message : String} (a : α) : s.positioned message ≠ .ok a := by
  unfold positioned
  intro h
  obtain ⟨pair, -, h⟩ := bind_eq_ok.mp h
  obtain ⟨column, -, h⟩ := bind_eq_ok.mp h
  cases h

/-- The part of the source around the position, and what stands before and after it. -/
def context (s : Syntax) : Outcome (Nat × Nat × Bool × Bool) :=
  if s.source.length < 21 then .ok (0, s.source.length, false, false)
  else if s.at_ < 10 then .ok (0, s.at_ + 10, false, true)
  else do
    let most ← checkedSub s.source.length 10
    let start ← checkedSub s.at_ 10
    if s.at_ < most then .ok (start, s.at_ + 10, true, true) else .ok (start, s.source.length, true, false)

def range (s : Syntax) (start end_ : Nat) : Outcome Utf16 :=
  if start ≤ end_ ∧ end_ ≤ s.source.length then .ok ((s.source.drop start).take (end_ - start)) else .error .panic

def unexpected {α : Type} (s : Syntax) : Outcome α :=
  match s.current with
  | none => .error (.message (jsText "Unexpected end of JSON input"))
  | some current =>
    if current = 45 || isDigit current then s.positioned "Unexpected number in JSON"
    else if current = 34 then s.positioned "Unexpected string in JSON"
    else if ["[object Object]", "undefined", "Infinity", "NaN"].any fun text => s.source = jsText text then
      .error (.message (34 :: s.source ++ jsText "\" is not valid JSON"))
    else do
      let (start, end_, leading, trailing) ← s.context
      let part ← s.range start end_
      .error (.message (jsText "Unexpected token '" ++ [current] ++ jsText "', " ++ (if leading then jsText "..." else []) ++
        34 :: part ++ 34 :: (if trailing then jsText "..." else []) ++ jsText " is not valid JSON"))

/-! ## Lexemes -/

/-- So many hexadecimal digits, from the unit after the current one on. -/
def hexes : Nat → Syntax → Outcome Syntax
  | 0, s => .ok s
  | n + 1, s => if s.step.current.any isHex then hexes n s.step else s.step.positioned "Bad Unicode escape in JSON"

theorem hexes_at {n : Nat} {s s' : Syntax} (h : hexes n s = .ok s') : s' = { s with at_ := s.at_ + n } := by
  induction n generalizing s with
  | zero =>
    cases h
    rfl
  | succ n ih =>
    unfold hexes at h
    split at h
    · rw [ih h, step, Nat.add_assoc, Nat.add_comm 1 n]
    · exact absurd h (positioned_ne_ok _)

theorem at_lt_of_current {s : Syntax} {c : UInt16} (h : s.current = some c) : s.at_ < s.source.length :=
  (List.getElem?_eq_some_iff.mp h).1

/-- The string from behind its opening quote on. -/
def stringBody (s : Syntax) : Outcome Syntax :=
  match _hcurrent : s.current with
  | none => s.positioned "Unterminated string in JSON"
  | some c =>
    if c = 34 then .ok s.step
    else if c ≤ 31 then s.positioned "Bad control character in string literal in JSON"
    else if c = 92 then
      match s.step.current with
      | none => s.step.unexpected
      | some e =>
        if 256 ≤ e then s.step.unexpected
        else if isEscape e then stringBody s.step.step
        else if e = 117 then
          match _hhexes : hexes 4 s.step with
          | .error failure => .error failure
          | .ok s' => stringBody s'.step
        else s.step.positioned "Bad escaped character in JSON"
    else stringBody s.step
termination_by s.source.length - s.at_
decreasing_by
  · have hlt := at_lt_of_current _hcurrent
    simp only [step]
    omega
  · have hlt := at_lt_of_current _hcurrent
    rw [hexes_at _hhexes]
    simp only [step]
    omega
  · have hlt := at_lt_of_current _hcurrent
    simp only [step]
    omega

def string (s : Syntax) : Outcome Syntax := s.step.stringBody

/-- Some digits, at least one. -/
def digits (s : Syntax) (message : String) : Outcome Syntax :=
  if s.at_ = (s.skip isDigit).at_ then (s.skip isDigit).positioned message else .ok (s.skip isDigit)

def whole (s : Syntax) : Outcome Syntax :=
  if s.current = some 48 then
    if s.step.current.any isDigit then s.step.positioned "Unexpected number in JSON" else .ok s.step
  else s.digits "No number after minus sign in JSON"

def fraction (s : Syntax) : Outcome Syntax :=
  if s.current = some 46 then s.step.digits "Unterminated fractional number in JSON" else .ok s

def exponent (s : Syntax) : Outcome Syntax :=
  if s.current = some 69 ∨ s.current = some 101 then
    let s := s.step
    let s := if s.current = some 43 ∨ s.current = some 45 then s.step else s
    s.digits "Exponent part is missing a number in JSON"
  else .ok s

def number (s : Syntax) : Outcome Syntax := do
  let s := if s.current = some 45 then s.step else s
  let s ← s.whole
  let s ← s.fraction
  s.exponent

def literal : Utf16 → Syntax → Outcome Syntax
  | [], s => .ok s
  | unit :: units, s => if s.current ≠ some unit then s.unexpected else literal units s.step

/-- A value, or the front of one with what is due after it. -/
def value (s : Syntax) (stack : List State) : Outcome (Syntax × List State) :=
  match s.current with
  | some c =>
    if c = 123 then .ok (s.step, .objectFirst :: stack)
    else if c = 91 then .ok (s.step, .arrayFirst :: stack)
    else if c = 34 then do .ok (← s.string, stack)
    else if c = 45 || isDigit c then do .ok (← s.number, stack)
    else if c = 116 || c = 102 || c = 110 then do
      .ok (← literal (jsText (if c = 116 then "true" else if c = 102 then "false" else "null")) s, stack)
    else s.unexpected
  | none => s.unexpected

structure Check where
  at_ : Syntax
  stack : List State

/-- One turn of `check`. -/
def checkTurn (c : Check) : Outcome (Turn Check Unit) :=
  match c.stack with
  | [] => .ok (.leave ())
  | state :: stack =>
    let s := c.at_.whitespace
    match state with
    | .value => do
      let (s, stack) ← s.value stack
      .ok (.again ⟨s, stack⟩)
    | .end_ =>
      if s.current.isSome then s.positioned "Unexpected non-whitespace character after JSON" else .ok (.again ⟨s, stack⟩)
    | .objectFirst | .objectNext =>
      if state = .objectFirst ∧ s.current = some 125 then .ok (.again ⟨s.step, stack⟩)
      else if s.current ≠ some 34 then
        s.positioned (if state = .objectFirst then "Expected property name or '\x7d' in JSON"
          else "Expected double-quoted property name in JSON")
      else do
        let s ← s.string
        .ok (.again ⟨s, .colon :: stack⟩)
    | .colon =>
      if s.current ≠ some 58 then s.positioned "Expected ':' after property name in JSON"
      else .ok (.again ⟨s.step, .value :: .objectAfter :: stack⟩)
    | .objectAfter =>
      if s.current = some 125 then .ok (.again ⟨s.step, stack⟩)
      else if s.current = some 44 then .ok (.again ⟨s.step, .objectNext :: stack⟩)
      else s.positioned "Expected ',' or '\x7d' after property value in JSON"
    | .arrayFirst | .arrayNext =>
      if state = .arrayFirst ∧ s.current = some 93 then .ok (.again ⟨s.step, stack⟩)
      else do
        let (s, stack) ← s.value (.arrayAfter :: stack)
        .ok (.again ⟨s, stack⟩)
    | .arrayAfter =>
      if s.current = some 93 then .ok (.again ⟨s.step, stack⟩)
      else if s.current = some 44 then .ok (.again ⟨s.step, .arrayNext :: stack⟩)
      else s.positioned "Expected ',' or ']' after array element in JSON"

def check (source : Utf16) : Option (Outcome Unit) := loop checkTurn (source.length + 2) ⟨⟨source, 0⟩, [.value, .end_]⟩

end Syntax

end Cantrip.Wire
