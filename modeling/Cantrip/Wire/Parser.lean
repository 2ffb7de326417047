import Cantrip.Lib.Loop
import Cantrip.Wire.Value

/-!
# Parsing JSON values (`wire/value/parser.rs`, the deserializers of `wire/value.rs`)

The parser runs over a text whose syntax is already validated and builds the tree on a stack of open containers.
It reads the text from the front; where the source would index past its end, or find a container that the
validation excludes, the model fails. String literals are decoded to bytes by the JSON library and from there to
UTF-16 units here.
-/

namespace Cantrip.Wire

open Lib

/-- The JSON library: it validates a text, and decodes a string literal to bytes. -/
structure Serde where
  rawValue : List Char → Except String (List Char)
  stringBytes : List Char → Except String Bytes

inductive Container (F : Numbers)
  | array (values : List (Value F))
  | object (entries : Object F) (key : Option JsString)

/-- `visit_bytes`. -/
def visitBytes : Bytes → Except String JsString
  | [] => .ok []
  | first :: rest =>
    if first.toNat < 0x80 then (utf16Units (first.toNat % 0x80) ++ ·) <$> visitBytes rest
    else if first.toNat < 0xe0 then
      match rest with
      | b :: rest => (utf16Units (first.toNat % 0x20 * 64 + b.toNat % 64) ++ ·) <$> visitBytes rest
      | _ => .error "invalid WTF-8 string"
    else if first.toNat < 0xf0 then
      match rest with
      | b :: c :: rest =>
        (utf16Units ((first.toNat % 0x10 * 64 + b.toNat % 64) * 64 + c.toNat % 64) ++ ·) <$> visitBytes rest
      | _ => .error "invalid WTF-8 string"
    else
      match rest with
      | b :: c :: d :: rest =>
        (utf16Units (((first.toNat % 8 * 64 + b.toNat % 64) * 64 + c.toNat % 64) * 64 + d.toNat % 64) ++ ·) <$>
          visitBytes rest
      | _ => .error "invalid WTF-8 string"

/-- The rest of a literal after its opening quote, up to the closing one, and what follows. -/
def scanString : List Char → Option (List Char × List Char)
  | [] => none
  | '"' :: rest => some (['"'], rest)
  | '\\' :: c :: rest => (scanString rest).map fun (literal, rest) => ('\\' :: c :: literal, rest)
  | c :: rest => (scanString rest).map fun (literal, rest) => (c :: literal, rest)

def outOfBounds {α : Type} : Except String α := .error "index out of bounds"

/-- `string`, from the opening quote on. -/
def parseString (S : Serde) (rest : List Char) : Except String (JsString × List Char) :=
  match scanString rest with
  | none => outOfBounds
  | some (literal, rest) => do
    let bytes ← S.stringBytes ('"' :: literal)
    let units ← visitBytes bytes
    .ok (units, rest)

/-! ## Values -/

variable {F : Numbers}

/-- `IndexMap::insert`. -/
def insertEntry (entries : Object F) (key : JsString) (value : Value F) : Object F :=
  if key ∈ entries.map Prod.fst then putKey Prod.fst (key, value) entries else entries ++ [(key, value)]

structure ParserState (F : Numbers) where
  rest : List Char
  stack : List (Container F)

/-- Hand a value to the innermost open container; without one it is the result. -/
def deliver (value : Value F) (rest : List Char) : List (Container F) → Except String (Turn (ParserState F) (Value F))
  | .array values :: stack => .ok (.again ⟨rest, .array (values ++ [value]) :: stack⟩)
  | .object entries (some key) :: stack => .ok (.again ⟨rest, .object (insertEntry entries key value) none :: stack⟩)
  | .object _ none :: _ => .error "validated object key"
  | [] => .ok (.leave value)

def deliverString (text : JsString) (rest : List Char) : List (Container F) → Except String (Turn (ParserState F) (Value F))
  | .object entries none :: stack => .ok (.again ⟨rest, .object entries (some text) :: stack⟩)
  | stack => deliver (.string text) rest stack

/-- One turn of `parse`. -/
def parseTurn (S : Serde) (s : ParserState F) : Except String (Turn (ParserState F) (Value F)) :=
  match s.rest with
  | [] => outOfBounds
  | c :: rest =>
    if isJsonSpace c || c = ',' || c = ':' then .ok (.again { s with rest })
    else if c = '[' then .ok (.again ⟨rest, .array [] :: s.stack⟩)
    else if c = '{' then .ok (.again ⟨rest, .object [] none :: s.stack⟩)
    else if c = ']' || c = '}' then
      match s.stack with
      | [] => .error "validated container"
      | .array values :: stack => deliver (.array values) rest stack
      | .object entries _ :: stack => deliver (.object entries) rest stack
    else if c = '"' then do
      let text ← parseString S rest
      deliverString text.1 text.2 s.stack
    else if c = 'n' then deliver .null (s.rest.drop 4) s.stack
    else if c = 't' then deliver (.bool true) (s.rest.drop 4) s.stack
    else if c = 'f' then deliver (.bool false) (s.rest.drop 5) s.stack
    else
      match F.parse (s.rest.takeWhile isNumberChar) with
      | none => .error "invalid float literal"
      | some n => deliver (.number n) (s.rest.dropWhile isNumberChar) s.stack

/-- `Deserialize for Value`: every turn reads a character, so the turns do not run out on a validated text. -/
def parse (S : Serde) (text : List Char) : Option (Except String (Value F)) :=
  match S.rawValue text with
  | .error e => some (.error e)
  | .ok raw => loop (parseTurn S) (raw.length + 1) ⟨raw, []⟩

end Cantrip.Wire
