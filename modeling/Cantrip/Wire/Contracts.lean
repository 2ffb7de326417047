import Cantrip.Wire.Syntax

/-!
# Contract graphs (`wire/mod.rs`, `wire/intersections.rs`, `wire/contract_blocks.rs`)

A graph is a list of nodes, which refer to each other by index, and roots with names. `run` checks and converts a value
by the node at an index; nodes may refer to themselves, so the depth of its calls is bounded by an argument. What is done to one
value without looking at the graph (conversions, the checks of a node, transforms) is a parameter.
-/

namespace Cantrip.Wire.Contracts

open Lib

variable {F : Numbers}

/-- The ways in which there is no result. -/
inductive Stop (F : Numbers)
  | operation
  | invalid (issues : List (Value F))
  | panic
  /-- The calls are deeper than was allowed. -/
  | depth

abbrev Result (F : Numbers) (α : Type) := Except (Stop F) α

/-! ## Values -/

def text (s : String) : Value F := .string (jsText s)

/-- `insert`: a key keeps its place. -/
def insert (key : JsString) (value : Value F) : Object F → Object F
  | [] => [(key, value)]
  | (k, v) :: entries => if k = key then (k, value) :: entries else (k, v) :: insert key value entries

/-- `value["key"]` -/
def index (value : Value F) (key : String) : Value F :=
  match value with
  | .object entries => (lookup entries (jsText key)).getD .null
  | _ => .null

/-- `value["key"] = item` -/
def set (value : Value F) (key : String) (item : Value F) : Result F (Value F) :=
  match value with
  | .null => .ok (.object [(jsText key, item)])
  | .object entries => .ok (.object (insert (jsText key) item entries))
  | _ => .error .panic

def isText (value : Value F) (s : String) : Bool :=
  match value with
  | .string v => v = jsText s
  | _ => false

def expect {α : Type} : Option α → Result F α
  | some a => .ok a
  | none => .error .panic

def equalOption : Option (Value F) → Option (Value F) → Bool
  | some a, some b => equal [(a, b)]
  | none, none => true
  | _, _ => false

def asObject : Option (Value F) → Option (Object F)
  | some (.object entries) => some entries
  | _ => none

def asArray : Option (Value F) → Option (List (Value F))
  | some (.array values) => some values
  | _ => none

def asString : Value F → Option JsString
  | .string v => some v
  | _ => none

/-- `coercion::keys` without `__proto__`. -/
def ownKeys (object : Object F) : List JsString := ((sortEntries object).map Prod.fst).filter fun key => key ≠ jsText "__proto__"

def joinQuoted (front : String) (keys : List JsString) : JsString :=
  jsText front ++ [44, 32].intercalate (keys.map fun key => 34 :: key ++ [34])

/-! ## Results -/

structure Parsed (F : Numbers) where
  value : Option (Value F)
  issues : List (Value F) := []
  aborted : Bool := false
  abortedOther : Bool := false

namespace Parsed

/-- `issue` and `issue_message`. The message and the path of an issue of one's own come in the other order. -/
def issue (p : Parsed F) (value : Object F) (path : List (Value F)) (message : JsString) (abort : Bool) : Parsed F :=
  let code := index (.object value) "code"
  let value := if isText code "custom" then insert (jsText "path") (.array path) (insert (jsText "message") (.string message) value)
    else insert (jsText "message") (.string message) (insert (jsText "path") (.array path) value)
  { p with
    abortedOther := p.abortedOther || (abort && !isText code "unrecognized_keys")
    issues := p.issues ++ [.object value]
    aborted := p.aborted || abort }

def merge (p other : Parsed F) : Parsed F :=
  { p with
    aborted := p.aborted || other.aborted
    abortedOther := p.abortedOther || other.abortedOther
    issues := p.issues ++ other.issues }

end Parsed

def received : Option (Value F) → String
  | none => "undefined"
  | some .null => "null"
  | some (.bool _) => "boolean"
  | some (.number _) => "number"
  | some (.string _) => "string"
  | some (.array _) => "array"
  | some (.object _) => "object"

def Parsed.invalid (p : Parsed F) (expected : String) (path : List (Value F)) : Parsed F :=
  p.issue [(jsText "expected", text expected), (jsText "code", text "invalid_type")] path
    (jsText "Invalid input: expected " ++ jsText expected ++ jsText ", received " ++ jsText (received p.value)) true

/-! ## Graphs -/

inductive Kind
  | optional | nullable | default | prefault | readonly | forward | pipe | transform | string | number | boolean | null | never
  | unknown | json | literal | enum | object | array | record | tuple | union | intersection | other
  deriving DecidableEq

structure Check (D : Type) where
  refinement : Bool
  when_ : Option String
  message : Option String
  data : D

structure Node (F : Numbers) (D : Type) where
  kind : Kind
  optionalIn : Bool := false
  optionalOut : Bool := false
  shape : List (String × Nat) := []
  innerType : Option Nat := none
  left : Option Nat := none
  right : Option Nat := none
  element : Option Nat := none
  keyType : Option Nat := none
  valueType : Option Nat := none
  catchall : Option Nat := none
  options : List Nat := []
  items : List Nat := []
  rest : Option Nat := none
  discriminator : Option String := none
  values : List (Value F) := []
  defaultValue : Value F := .null
  coerce : Bool := false
  checks : List (Check D) := []
  input : Option Nat := none
  output : Option Nat := none
  transformTag : String := ""

structure Graph (F : Numbers) (D : Type) where
  roots : List (String × Nat)
  nodes : List (Node F D)

variable {D : Type}

namespace Node

/-- The node with every reference changed. -/
def relocate (f : Nat → Nat) (node : Node F D) : Node F D :=
  { node with
    shape := node.shape.map fun entry => (entry.1, f entry.2)
    innerType := node.innerType.map f
    left := node.left.map f
    right := node.right.map f
    element := node.element.map f
    keyType := node.keyType.map f
    valueType := node.valueType.map f
    catchall := node.catchall.map f
    rest := node.rest.map f
    input := node.input.map f
    output := node.output.map f
    options := node.options.map f
    items := node.items.map f }

def references (node : Node F D) : List Nat :=
  node.shape.map Prod.snd ++ node.options ++ node.items ++
    [node.innerType, node.left, node.right, node.element, node.keyType, node.valueType, node.catchall, node.rest, node.input,
      node.output].flatMap Option.toList

end Node

namespace Graph

/-- A later root of a name takes the place of an earlier one. -/
def root (G : Graph F D) (name : String) : Option Nat := (G.roots.reverse.find? fun entry => entry.1 = name).map Prod.snd

def append (G block : Graph F D) : Graph F D where
  nodes := G.nodes ++ block.nodes.map (Node.relocate (· + G.nodes.length))
  roots := G.roots ++ block.roots.map fun entry => (entry.1, entry.2 + G.nodes.length)

/-- Indexing past the end is a panic. -/
def node (G : Graph F D) (id : Nat) : Result F (Node F D) := expect G.nodes[id]?

end Graph

structure Library (F : Numbers) (D : Type) where
  ofNat : Nat → F.Number
  isNaN : F.Number → Bool
  /-- `coercion::string` and `coercion::number`; none is an error. -/
  string : Value F → Option JsString
  number : Option (Value F) → Option F.Number
  truthy : Option (Value F) → Bool
  /-- Whether there is a length, `coercion::length`. -/
  hasLength : Option (Value F) → Option Bool
  check : Check D → Parsed F → List (Value F) → Result F (Parsed F)
  transform : String → Parsed F → List (Value F) → Result F (Parsed F)
  json : Option (Value F) → List (Value F) → Parsed F

variable (L : Library F D)

def display (value : Value F) : Result F JsString :=
  match value with
  | .string v => .ok (34 :: v ++ [34])
  | value => expect (L.string value)

def count (n : Nat) : Value F := .number (L.ofNat n)

/-! ## Leaves -/

def parseString (node : Node F D) (input : Option (Value F)) (path : List (Value F)) : Result F (Parsed F) := do
  let value ← if node.coerce then
      match input with
      | some input =>
        match L.string input with
        | some s => .ok (some (.string s))
        | none => .error .operation
      | none => .ok (some (text "undefined"))
    else .ok input
  let result : Parsed F := { value }
  match value with
  | some (.string _) => .ok result
  | _ => .ok (result.invalid "string" path)

def parseNumber (node : Node F D) (input : Option (Value F)) (path : List (Value F)) : Parsed F :=
  let result : Parsed F := { value := input }
  let isNumber := match input with
    | some (.number _) => true
    | _ => false
  if node.coerce || isNumber then
    match L.number input with
    | some value =>
      if F.isFinite value then { result with value := some (.number value) }
      else
        let received := if L.isNaN value then "NaN" else "number"
        result.issue [(jsText "expected", text "number"), (jsText "code", text "invalid_type"),
          (jsText "received", text (if L.isNaN value then "NaN" else "Infinity"))] path
          (jsText "Invalid input: expected number, received " ++ jsText received) true
    | none => result.invalid "number" path
  else result.invalid "number" path

def parseBoolean (node : Node F D) (input : Option (Value F)) (path : List (Value F)) : Parsed F :=
  let result : Parsed F := { value := if node.coerce then some (.bool (L.truthy input)) else input }
  match result.value with
  | some (.bool _) => result
  | _ => result.invalid "boolean" path

def parseNull (input : Option (Value F)) (path : List (Value F)) : Parsed F :=
  let result : Parsed F := { value := input }
  match input with
  | some .null => result
  | _ => result.invalid "null" path

def parseLiteral (node : Node F D) (input : Option (Value F)) (path : List (Value F)) : Result F (Parsed F) := do
  let result : Parsed F := { value := input }
  if input.any fun value => node.values.any fun expected => equal [(expected, value)] then .ok result
  else do
    let values ← node.values.mapM (display L)
    let message := match values with
      | [value] => jsText "Invalid input: expected " ++ value
      | _ => jsText "Invalid option: expected one of " ++ [124].intercalate values
    .ok (result.issue [(jsText "code", text "invalid_value"), (jsText "values", .array node.values)] path message true)

/-- `run`, as its callers below see it. -/
abbrev Step (F : Numbers) := Nat → Option (Value F) → List (Value F) → Result F (Parsed F)

variable (G : Graph F D) (step : Step F)

/-! ## Objects, arrays, tuples and records -/

def parseProperty (object : Object F) (path : List (Value F)) (s : Parsed F × Object F) (entry : String × Nat) :
    Result F (Parsed F × Object F) := do
  let key := jsText entry.1
  let present := (lookup object key).isSome
  let child ← step entry.2 (lookup object key) (path ++ [.string key])
  let schema ← G.node entry.2
  let child := if !present && schema.optionalIn && schema.optionalOut then
      { child with issues := [], aborted := false, abortedOther := false }
    else child
  let child := if !present && !schema.optionalIn then
      { (if child.issues.isEmpty then
          child.issue [(jsText "code", text "invalid_type"), (jsText "expected", text "nonoptional")] (path ++ [.string key])
            (jsText "Invalid input: expected nonoptional, received undefined") true
        else child) with value := none }
    else child
  let output := match child.value with
    | some value => insert key value s.2
    | none => s.2
  .ok (s.1.merge child, output)

def parseExtra (catchall : Nat) (object : Object F) (path : List (Value F)) (s : Parsed F × Object F) (key : JsString) :
    Result F (Parsed F × Object F) := do
  let child ← step catchall (lookup object key) (path ++ [.string key])
  let output := match child.value with
    | some value => insert key value s.2
    | none => s.2
  .ok (s.1.merge child, output)

def unrecognized (result : Parsed F) (extra : List JsString) (path : List (Value F)) : Parsed F :=
  if extra.isEmpty then result
  else result.issue [(jsText "code", text "unrecognized_keys"), (jsText "keys", .array (extra.map .string))] path
    (joinQuoted (if extra.length = 1 then "Unrecognized key: " else "Unrecognized keys: ") extra) true

def parseObject (node : Node F D) (input : Option (Value F)) (path : List (Value F)) : Result F (Parsed F) :=
  let result : Parsed F := { value := input }
  match asObject input with
  | none => .ok (result.invalid "object" path)
  | some object => do
    let (result, output) ← node.shape.foldlM (parseProperty G step object path) (result, [])
    let extra := (ownKeys object).filter fun key => !node.shape.any fun entry => jsText entry.1 = key
    let (result, output) ← match node.catchall with
      | none => .ok (result, output)
      | some catchall => do
        let schema ← G.node catchall
        if schema.kind = .never then .ok (unrecognized result extra path, output)
        else extra.foldlM (parseExtra step catchall object path) (result, output)
    .ok { result with value := some (.object output) }

/-- Items that one schema has, from an index on. -/
def parseItems (id : Nat) (path : List (Value F)) (s : Parsed F × List (Value F)) (item : Value F × Nat) :
    Result F (Parsed F × List (Value F)) := do
  let child ← step id (some item.1) (path ++ [count L item.2])
  .ok (s.1.merge child, s.2 ++ [child.value.getD .null])

def parseArray (node : Node F D) (input : Option (Value F)) (path : List (Value F)) : Result F (Parsed F) :=
  let result : Parsed F := { value := input }
  match asArray input with
  | none => .ok (result.invalid "array" path)
  | some array => do
    let (result, output) ← array.zipIdx.foldlM (fun s item => do
      let id ← expect node.element
      parseItems L step id path s item) (result, [])
    .ok { result with value := some (.array output) }

/-- The items up to the last one that is not optional, from the items in reverse. -/
def minimum : List Nat → Result F Nat
  | [] => .ok 0
  | id :: before => do
    let schema ← G.node id
    if !schema.optionalIn then .ok (before.length + 1) else minimum before

def parseItem (array : List (Value F)) (path : List (Value F)) (s : Parsed F × List (Value F)) (item : Nat × Nat) :
    Result F (Parsed F × List (Value F)) := do
  let child ← step item.1 array[item.2]? (path ++ [count L item.2])
  let output := if item.2 < array.length || child.value.isSome then
      s.2 ++ List.replicate (item.2 - s.2.length) .null ++ [child.value.getD .null]
    else s.2
  .ok (s.1.merge child, output)

def parseTuple (node : Node F D) (input : Option (Value F)) (path : List (Value F)) : Result F (Parsed F) :=
  let result : Parsed F := { value := input }
  match asArray input with
  | none => .ok (result.invalid "tuple" path)
  | some array => do
    let least ← minimum G node.items.reverse
    if array.length < least then
      .ok (result.issue [(jsText "code", text "too_small"), (jsText "minimum", count L least), (jsText "inclusive", .bool true),
        (jsText "origin", text "array")] path
        (jsText "Too small: expected array to have >=" ++ decimal least ++ jsText " items") true)
    else if node.rest.isNone && array.length > node.items.length then
      .ok (result.issue [(jsText "code", text "too_big"), (jsText "maximum", count L node.items.length),
        (jsText "inclusive", .bool true), (jsText "origin", text "array")] path
        (jsText "Too big: expected array to have <=" ++ decimal node.items.length ++ jsText " items") true)
    else do
      let (result, output) ← node.items.zipIdx.foldlM (parseItem L step array path) (result, [])
      let (result, output) ← match node.rest with
        | none => .ok (result, output)
        | some rest => (array.zipIdx.drop node.items.length).foldlM (parseItems L step rest path) (result, output)
      .ok { result with value := some (.array output) }

def parseEntry (keyType valueType : Nat) (object : Object F) (path : List (Value F)) (s : Parsed F × Object F)
    (key : JsString) : Result F (Parsed F × Object F) := do
  let checked ← step keyType (some (.string key)) []
  if !checked.issues.isEmpty then
    .ok (s.1.issue [(jsText "code", text "invalid_key"), (jsText "origin", text "record"), (jsText "issues", .array checked.issues)]
      (path ++ [.string key]) (jsText "Invalid key in record") true, s.2)
  else do
    let child ← step valueType (lookup object key) (path ++ [.string key])
    let output := match child.value with
      | some value => insert key value s.2
      | none => s.2
    .ok (s.1.merge child, output)

def parseRecord (node : Node F D) (input : Option (Value F)) (path : List (Value F)) : Result F (Parsed F) :=
  let result : Parsed F := { value := input }
  match asObject input with
  | none => .ok (result.invalid "record" path)
  | some object => do
    let keyType ← expect node.keyType
    let valueType ← expect node.valueType
    let finite := (← G.node keyType).values
    let keys ← if finite.isEmpty then .ok (ownKeys object) else finite.mapM fun v => expect (asString v)
    let (result, output) ← keys.foldlM (parseEntry step keyType valueType object path) (result, [])
    let extra := ((sortEntries object).map Prod.fst).filter fun key => !finite.any fun v => asString v = some key
    let result := if finite.isEmpty then result else unrecognized result extra path
    .ok { result with value := some (.object output) }

/-! ## Unions and intersections -/

def discriminatorValues : Nat → Nat → Result F (List (Option (Value F)))
  | 0, _ => .error .depth
  | depth + 1, id => do
    let node ← G.node id
    match node.kind with
    | .literal | .enum => .ok (node.values.map some)
    | .optional => do
      let values ← discriminatorValues depth (← expect node.innerType)
      .ok (values ++ [none])
    | _ => .error .operation

def discriminated (depth : Nat) (key : String) (object : Object F) (input : Option (Value F)) (path : List (Value F)) :
    List Nat → List (Option (Value F)) → Result F (Parsed F ⊕ List (Option (Value F)))
  | [], values => .ok (.inr values)
  | id :: options, values => do
    let option ← G.node id
    let candidates ← discriminatorValues G depth (← expect ((option.shape.find? fun entry => entry.1 = key).map Prod.snd))
    if candidates.any fun candidate => equalOption candidate (lookup object (jsText key)) then
      .ok (.inl (← step id input path))
    else discriminated depth key object input path options (values ++ candidates)

def alternatives (input : Option (Value F)) : List Nat → List (Parsed F) → Result F (Parsed F ⊕ List (Parsed F))
  | [], parsed => .ok (.inr parsed)
  | id :: options, parsed => do
    let alternative ← step id input []
    if alternative.issues.isEmpty then .ok (.inl alternative) else alternatives input options (parsed ++ [alternative])

def quotedValue : Option (Value F) → Result F JsString
  | some value => do .ok (39 :: (← expect (L.string value)) ++ [39])
  | none => .ok (jsText "'undefined'")

def prefixed (path : List (Value F)) (issue : Value F) : Result F (Value F) := do
  let own ← expect (asArray (some (index issue "path")))
  set issue "path" (.array (path ++ own))

def parseUnion (depth : Nat) (node : Node F D) (input : Option (Value F)) (path : List (Value F)) : Result F (Parsed F) :=
  let result : Parsed F := { value := input }
  match node.discriminator with
  | some key =>
    match asObject input with
    | none => .ok (result.issue [(jsText "code", text "invalid_type"), (jsText "expected", text "object")] path
        (jsText "Invalid input: expected object, received " ++ jsText (received input)) true)
    | some object => do
      match ← discriminated G step depth key object input path node.options [] with
      | .inl chosen => .ok chosen
      | .inr values =>
        let texts ← values.mapM (quotedValue L)
        .ok (result.issue [(jsText "code", text "invalid_union"), (jsText "errors", .array []),
          (jsText "note", text "No matching discriminator"), (jsText "discriminator", text key),
          (jsText "options", .array (values.map fun value => value.getD .null))] (path ++ [text key])
          (jsText "Invalid discriminator value. Expected " ++ [32, 124, 32].intercalate texts) true)
  | none => do
    match ← alternatives step input node.options [] with
    | .inl chosen => .ok chosen
    | .inr parsed =>
      match parsed.filter fun p => !p.aborted with
      | [chosen] => do .ok { chosen with issues := ← chosen.issues.mapM (prefixed path) }
      | _ => .ok (result.issue [(jsText "code", text "invalid_union"), (jsText "errors", .array (parsed.map fun p => .array p.issues))]
          path (jsText "Invalid input") true)

mutual

/-- `merge` of two values. -/
def mergeValues (left : Value F) : Value F → Result F (Value F)
  | .object right =>
    if equal [(left, .object right)] then .ok left
    else
      match left with
      | .object entries => do .ok (.object (← mergeEntries entries entries right))
      | _ => .error .operation
  | .array right =>
    if equal [(left, .array right)] then .ok left
    else
      match left with
      | .array values => if values.length = right.length then do .ok (.array (← mergeItems values right)) else .error .operation
      | _ => .error .operation
  | right => if equal [(left, right)] then .ok left else .error .operation

def mergeEntries (left merged : Object F) : Object F → Result F (Object F)
  | [] => .ok merged
  | (key, item) :: right => do
    let value ← match lookup left key with
      | some previous => mergeValues previous item
      | none => .ok item
    mergeEntries left (insert key value merged) right

def mergeItems : List (Value F) → List (Value F) → Result F (List (Value F))
  | left :: lefts, right :: rights => do .ok ((← mergeValues left right) :: (← mergeItems lefts rights))
  | _, _ => .ok []

end

def mergeOptions : Option (Value F) → Option (Value F) → Result F (Option (Value F))
  | some left, some right => do .ok (some (← mergeValues left right))
  | none, none => .ok none
  | _, _ => .error .operation

def sideIssue (s : List JsString × Option (Value F) × List (Value F)) (issue : Value F) :
    Result F (List JsString × Option (Value F) × List (Value F)) := do
  if isText (index issue "code") "unrecognized_keys" then
    match asArray (some (index issue "keys")) with
    | none => .error .operation
    | some listed => do
      let keys ← listed.foldlM (fun keys key =>
        match asString key with
        | none => .error .operation
        | some key => .ok (if keys.contains key then keys else keys ++ [key])) s.1
      .ok (keys, s.2.1.or (some issue), s.2.2)
  else .ok (s.1, s.2.1, s.2.2 ++ [issue])

def intersect (left right : Parsed F) (input : Option (Value F)) : Result F (Parsed F) := do
  let (leftKeys, first, issues) ← left.issues.foldlM sideIssue ([], none, [])
  let (rightKeys, _, issues) ← right.issues.foldlM sideIssue ([], none, issues)
  let keys := leftKeys.filter rightKeys.contains
  let abortedOther := left.abortedOther || right.abortedOther
  let result : Parsed F := { value := input, issues, aborted := abortedOther, abortedOther }
  let result ← match keys, first with
    | key :: more, some issue => do
      let issue ← set issue "keys" (.array (keys.map .string))
      let issue ← set issue "message"
        (.string (joinQuoted (if (key :: more).length = 1 then "Unrecognized key: " else "Unrecognized keys: ") keys))
      .ok { result with issues := result.issues ++ [issue], aborted := true }
    | _, _ => .ok result
  if result.aborted then .ok result else do .ok { result with value := ← mergeOptions left.value right.value }

def parseIntersection (node : Node F D) (input : Option (Value F)) (path : List (Value F)) : Result F (Parsed F) := do
  let left ← step (← expect node.left) input path
  let right ← step (← expect node.right) input path
  intersect left right input

/-! ## `run` -/

def isNull : Option (Value F) → Bool
  | some .null => true
  | _ => false

def parseInner (node : Node F D) (input : Option (Value F)) (path : List (Value F)) : Result F (Parsed F) := do
  step (← expect node.innerType) input path

def parsePipe (node : Node F D) (input : Option (Value F)) (path : List (Value F)) : Result F (Parsed F) := do
  let result ← step (← expect node.input) input path
  if !result.issues.isEmpty then .ok { result with aborted := true }
  else step (← expect node.output) result.value path

def parseKind (depth : Nat) (node : Node F D) (input : Option (Value F)) (path : List (Value F)) : Result F (Parsed F) :=
  let result : Parsed F := { value := input }
  match node.kind with
  | .optional => if input.isNone then .ok result else parseInner step node input path
  | .nullable => if isNull input then .ok result else parseInner step node input path
  | .default => if input.isNone then .ok { result with value := some node.defaultValue } else parseInner step node input path
  | .prefault => if input.isNone then parseInner step node (some node.defaultValue) path else parseInner step node input path
  | .readonly | .forward => parseInner step node input path
  | .pipe => parsePipe step node input path
  | .transform => L.transform node.transformTag result path
  | .string => parseString L node input path
  | .number => .ok (parseNumber L node input path)
  | .boolean => .ok (parseBoolean L node input path)
  | .null => .ok (parseNull input path)
  | .never => .ok (result.invalid "never" path)
  | .unknown => .ok result
  | .json => .ok (L.json input path)
  | .literal | .enum => parseLiteral L node input path
  | .object => parseObject G step node input path
  | .array => parseArray L step node input path
  | .record => parseRecord G step node input path
  | .tuple => parseTuple L G step node input path
  | .union => parseUnion L G step depth node input path
  | .intersection => parseIntersection step node input path
  | .other => .error .operation

def runCheck (path : List (Value F)) (result : Parsed F) (check : Check D) : Result F (Parsed F) := do
  let skipped ← if check.when_.isSome then
      match L.hasLength result.value with
      | none => .error .operation
      | some known => .ok (!known)
    else .ok result.aborted
  if skipped then .ok result
  else do
    let checked ← L.check check result path
    match check.refinement, check.message with
    | false, some message =>
      if result.issues.length ≤ checked.issues.length then do
        let added ← (checked.issues.drop result.issues.length).mapM fun issue => set issue "message" (text message)
        .ok { checked with issues := checked.issues.take result.issues.length ++ added }
      else .error .panic
    | _, _ => .ok checked

def runNode (depth : Nat) (node : Node F D) (input : Option (Value F)) (path : List (Value F)) : Result F (Parsed F) := do
  let result ← parseKind L G step depth node input path
  node.checks.foldlM (runCheck L path) result

def run (G : Graph F D) : Nat → Step F
  | 0, _, _, _ => .error .depth
  | depth + 1, id, input, path => do
    let node ← G.node id
    runNode L G (run G depth) depth node input path

/-- `run` at the root of a name. -/
def runRoot (depth : Nat) (name : String) (input : Option (Value F)) (path : List (Value F)) : Result F (Parsed F) :=
  match G.root name with
  | none => .error .operation
  | some id => run L G depth id input path

def parse (depth : Nat) (name : String) (input : Option (Value F)) : Result F (Value F) := do
  let result ← runRoot L G depth name input []
  if result.issues.isEmpty then .ok (result.value.getD .null) else .error (.invalid result.issues)

end Cantrip.Wire.Contracts
