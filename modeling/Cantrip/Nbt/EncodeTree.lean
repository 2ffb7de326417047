import Cantrip.Nbt.Encode

/-!
# The encoder by recursion

`encodeValue` writes a value by recursion over the tree, with the checks of the encoder in their order.
The stack machine of the source computes the same bytes and the same errors (`parts_flatten`).
-/

namespace Cantrip.Nbt

open Lib List Bool

section Encode

variable (encoding : NbtEncoding) (hostLittle : Bool)

def encodeNumbers (type : NbtTag) (length : JsNumber) (count : Nat) : List NbtNumber → Except NbtError Bytes
  | [] => if length ≠ .int count then .error ⟨0, "Container length does not match its elements"⟩ else .ok []
  | value :: rest =>
    if overfull (some length) (count + 1) then .error ⟨0, "Container contains too many elements"⟩
    else do
      let part ← elementPart encoding type value
      let more ← encodeNumbers type length (count + 1) rest
      .ok (part ++ more)

def encodeArray (type : NbtTag) (value : ArrayValues) (length : JsNumber) : Except NbtError Bytes :=
  let counted := do
    let _ ← integer length 0 (2 ^ 31 - 1)
    let header ← i32 encoding length
    let body ← encodeNumbers encoding type length 0 value.elements
    .ok (header ++ body)
  match value with
  | .view kind words =>
    if kind.width = type.width then List.flatten <$> viewParts encoding hostLittle kind words length else counted
  | .iterable _ => counted

mutual

def encodeValue : NbtValue → Except NbtError Bytes
  | .byte value => nbtFixedInteger (.number value) 1 encoding.isLittle false
  | .short value => nbtFixedInteger (.number value) 2 encoding.isLittle false
  | .int value => i32 encoding value
  | .long value =>
    if encoding.varints then nbtVariableInteger value 64 true
    else nbtFixedInteger (.bigint value) 8 encoding.isLittle false
  | .float value => floatPart encoding .float value
  | .double value => floatPart encoding .double value
  | .string value => List.flatten <$> stringParts encoding value
  | .byteArray value length => encodeArray encoding hostLittle .byteArray value length
  | .intArray value length => encodeArray encoding hostLittle .intArray value length
  | .longArray value length => encodeArray encoding hostLittle .longArray value length
  | .list elementType value length =>
    if length.truthy && elementType == .end then .error ⟨0, "A nonempty list cannot contain End"⟩
    else do
      let _ ← integer length 0 (2 ^ 31 - 1)
      let header ← i32 encoding length
      let body ← encodeItems elementType length 0 value
      .ok (elementType.code :: header ++ body)
  | .compound value => encodeEntries value

def encodeItems (elementType : NbtTag) (length : JsNumber) (count : Nat) : List NbtValue → Except NbtError Bytes
  | [] => if length ≠ .int count then .error ⟨0, "Container length does not match its elements"⟩ else .ok []
  | tag :: rest =>
    if overfull (some length) (count + 1) then .error ⟨0, "Container contains too many elements"⟩
    else if tag.type ≠ elementType then .error ⟨0, "List element type does not match its declaration"⟩
    else do
      let bytes ← encodeValue tag
      let more ← encodeItems elementType length (count + 1) rest
      .ok (bytes ++ more)

def encodeEntries : List (Utf16 × NbtValue) → Except NbtError Bytes
  | [] => .ok [NbtTag.end.code]
  | (name, tag) :: rest => do
    let text ← stringParts encoding name
    let bytes ← encodeValue tag
    let more ← encodeEntries rest
    .ok (tag.type.code :: text.flatten ++ bytes ++ more)

end

end Encode

section Machine

variable {encoding : NbtEncoding} {hostLittle : Bool}

def runBytes (encoding : NbtEncoding) (hostLittle : Bool) (fuel : Nat) (state : PartState) : Except NbtError Bytes :=
  List.flatten <$> partsLoop encoding hostLittle fuel state

theorem runBytes_next (fuel : Nat) (frame : PartFrame) (stack : List PartFrame) :
    runBytes encoding hostLittle (fuel + 1) ⟨none, frame :: stack⟩ = (do
      let (yielded, state) ← partNext encoding frame stack
      let rest ← runBytes encoding hostLittle fuel state
      .ok (yielded.flatten ++ rest)) := by
  rw [runBytes, partsLoop]
  cases partNext encoding frame stack with
  | error e => rfl
  | ok r =>
    obtain ⟨yielded, state⟩ := r
    simp only [runBytes, bind, Except.bind]
    cases partsLoop encoding hostLittle fuel state with
    | error e => rfl
    | ok rest => simp [Functor.map, Except.map]

theorem runBytes_value (fuel : Nat) (tag : NbtValue) (stack : List PartFrame) :
    runBytes encoding hostLittle (fuel + 1) ⟨some tag, stack⟩ = (do
      let (yielded, state) ← partValue encoding hostLittle stack tag
      let rest ← runBytes encoding hostLittle fuel state
      .ok (yielded.flatten ++ rest)) := by
  rw [runBytes, partsLoop]
  cases partValue encoding hostLittle stack tag with
  | error e => rfl
  | ok r =>
    obtain ⟨yielded, state⟩ := r
    simp only [runBytes, bind, Except.bind]
    cases partsLoop encoding hostLittle fuel state with
    | error e => rfl
    | ok rest => simp [Functor.map, Except.map]

/-- Bytes, then the rest of the run from the state `state`. -/
def followed (encoding : NbtEncoding) (hostLittle : Bool) (bytes : Except NbtError Bytes) (fuel : Nat) (stack : List PartFrame) :
    Except NbtError Bytes := do
  let a ← bytes
  let b ← runBytes encoding hostLittle fuel ⟨none, stack⟩
  .ok (a ++ b)

theorem run_numbers (type elementType : NbtTag) (length : JsNumber) (values : List NbtNumber) (htype : type ≠ .compound)
    (fuel : Nat) (stack : List PartFrame) (count : Nat) :
    runBytes encoding hostLittle (values.length + 1 + fuel)
        ⟨none, ⟨type, elementType, some length, .numbers values, count⟩ :: stack⟩
      = followed encoding hostLittle (encodeNumbers encoding type length count values) fuel stack := by
  induction values generalizing count with
  | nil =>
    rw [length_nil, Nat.zero_add, Nat.add_comm, runBytes_next, partNext, partEnd, encodeNumbers, if_neg htype]
    by_cases hlen : length = .int count
    · simp [hlen, followed, bind, Except.bind]
    · simp [hlen, followed, bind, Except.bind]
  | cons value rest ih =>
    rw [length_cons, show rest.length + 1 + 1 + fuel = rest.length + 1 + fuel + 1 by omega, runBytes_next, partNext,
      encodeNumbers]
    by_cases hover : overfull (some length) (count + 1) = true
    · simp [hover, followed, bind, Except.bind]
    · simp only [hover, false_eq_true, if_false]
      cases elementPart encoding type value with
      | error e => rfl
      | ok part =>
        simp only [bind, Except.bind, ih, followed]
        cases encodeNumbers encoding type length (count + 1) rest with
        | error e => rfl
        | ok more =>
          simp only
          cases runBytes encoding hostLittle fuel ⟨none, stack⟩ with
          | error e => rfl
          | ok tail => simp

theorem run_leaf {tag : NbtValue} {x : Except NbtError (List Bytes)} {bytes : Except NbtError Bytes} (fuel : Nat)
    (stack : List PartFrame) (hpart : partValue encoding hostLittle stack tag = (·, ⟨none, stack⟩) <$> x)
    (hbytes : bytes = flatten <$> x) :
    runBytes encoding hostLittle (1 + fuel) ⟨some tag, stack⟩ = followed encoding hostLittle bytes fuel stack := by
  rw [Nat.add_comm, runBytes_value, hpart, hbytes]
  cases x <;> rfl

theorem singleton_eq (x : Except NbtError Bytes) (stack : List PartFrame) :
    (([·], (⟨none, stack⟩ : PartState))) <$> x = (·, ⟨none, stack⟩) <$> (([·]) <$> x) ∧
      x = flatten <$> (([·]) <$> x) := by
  cases x <;> simp [Functor.map, Except.map]

theorem run_counted {tag : NbtValue} {type elementType : NbtTag} {length : JsNumber} {iterator : PartIterator}
    {head : List Bytes} {body : Except NbtError Bytes} {turns : Nat} (fuel : Nat) (stack : List PartFrame)
    (hpart : partValue encoding hostLittle stack tag = openCounted encoding type elementType length iterator stack head)
    (hbody : runBytes encoding hostLittle (turns + fuel) ⟨none, ⟨type, elementType, some length, iterator, 0⟩ :: stack⟩
      = followed encoding hostLittle body fuel stack) :
    runBytes encoding hostLittle (turns + 1 + fuel) ⟨some tag, stack⟩ = followed encoding hostLittle (do
      let _ ← integer length 0 (2 ^ 31 - 1)
      let header ← i32 encoding length
      let body ← body
      .ok (head.flatten ++ header ++ body)) fuel stack := by
  rw [show turns + 1 + fuel = turns + fuel + 1 by omega, runBytes_value, hpart, openCounted]
  cases integer length 0 (2 ^ 31 - 1) with
  | error e => rfl
  | ok n =>
    cases i32 encoding length with
    | error e => rfl
    | ok header =>
      simp only [bind, Except.bind, hbody, followed]
      cases body with
      | error e => rfl
      | ok b =>
        simp only
        cases runBytes encoding hostLittle fuel ⟨none, stack⟩ with
        | error e => rfl
        | ok tail => simp

theorem run_array {tag : NbtValue} {type : NbtTag} {value : ArrayValues} {length : JsNumber} (fuel : Nat)
    (stack : List PartFrame) (htype : type ≠ .compound)
    (hpart : partValue encoding hostLittle stack tag = arrayParts encoding hostLittle type value length stack) :
    runBytes encoding hostLittle (value.turns type + fuel) ⟨some tag, stack⟩
      = followed encoding hostLittle (encodeArray encoding hostLittle type value length) fuel stack := by
  match value with
  | .iterable values =>
    exact run_counted fuel stack hpart (run_numbers type .end length values htype fuel stack 0)
  | .view kind words =>
    rw [arrayParts] at hpart
    rw [encodeArray, ArrayValues.turns]
    by_cases hwidth : kind.width = type.width
    · simp only [hwidth, if_true] at hpart ⊢
      exact run_leaf fuel stack hpart rfl
    · simp only [hwidth, if_false] at hpart ⊢
      have hlen : words.length = (ArrayValues.view kind words).elements.length := by simp [ArrayValues.elements]
      rw [hlen]
      exact run_counted fuel stack hpart (run_numbers type .end length _ htype fuel stack 0)

mutual

theorem run_value (tag : NbtValue) (fuel : Nat) (stack : List PartFrame) :
    runBytes encoding hostLittle (tag.turns + fuel) ⟨some tag, stack⟩
      = followed encoding hostLittle (encodeValue encoding hostLittle tag) fuel stack := by
  match tag with
  | .byte _ | .short _ | .int _ | .long _ | .float _ | .double _ =>
    exact run_leaf fuel stack (singleton_eq _ stack).1 (singleton_eq _ stack).2
  | .string value => exact run_leaf fuel stack rfl rfl
  | .byteArray value length => exact run_array fuel stack (by decide) rfl
  | .intArray value length => exact run_array fuel stack (by decide) rfl
  | .longArray value length => exact run_array fuel stack (by decide) rfl
  | .list elementType value length =>
    rw [NbtValue.turns, encodeValue]
    by_cases hend : (length.truthy && elementType == .end) = true
    · rw [if_pos hend, show NbtValue.listTurns value + 2 + fuel = NbtValue.listTurns value + 1 + fuel + 1 by omega,
        runBytes_value, partValue, if_pos hend]
      rfl
    · rw [if_neg hend]
      have hpart : partValue encoding hostLittle stack (.list elementType value length)
          = openCounted encoding .list elementType length (.values value) stack [[elementType.code]] := by
        rw [partValue, if_neg hend]
      exact run_counted fuel stack hpart (run_items value elementType length fuel stack 0)
  | .compound value =>
    rw [NbtValue.turns, show NbtValue.entryTurns value + 2 + fuel = NbtValue.entryTurns value + 1 + fuel + 1 by omega,
      runBytes_value, partValue, encodeValue]
    simp only [bind, Except.bind, run_entries value fuel stack 0, flatten_nil, nil_append]
    cases followed encoding hostLittle (encodeEntries encoding hostLittle value) fuel stack <;> rfl

theorem run_items (items : List NbtValue) (elementType : NbtTag) (length : JsNumber) (fuel : Nat)
    (stack : List PartFrame) (count : Nat) :
    runBytes encoding hostLittle (NbtValue.listTurns items + 1 + fuel)
        ⟨none, ⟨.list, elementType, some length, .values items, count⟩ :: stack⟩
      = followed encoding hostLittle (encodeItems encoding hostLittle elementType length count items) fuel stack := by
  match items with
  | [] =>
    rw [NbtValue.listTurns, Nat.zero_add, Nat.add_comm, runBytes_next, partNext, partEnd, encodeItems]
    by_cases hlen : length = .int count
    · simp [hlen, followed, bind, Except.bind]
    · simp [hlen, followed, bind, Except.bind]
  | tag :: rest =>
    rw [NbtValue.listTurns, show 1 + tag.turns + NbtValue.listTurns rest + 1 + fuel
      = tag.turns + (NbtValue.listTurns rest + 1 + fuel) + 1 by omega, runBytes_next, partNext, encodeItems]
    by_cases hover : overfull (some length) (count + 1) = true
    · simp [hover, followed, bind, Except.bind]
    by_cases htype : tag.type = elementType
    · simp only [hover, false_eq_true, if_false, htype, ne_eq, not_true_eq_false, bind, Except.bind]
      rw [run_value tag, followed]
      simp only [bind, Except.bind]
      rw [run_items rest elementType length fuel stack (count + 1)]
      cases encodeValue encoding hostLittle tag with
      | error e => rfl
      | ok bytes =>
        simp only [followed, bind, Except.bind]
        cases encodeItems encoding hostLittle elementType length (count + 1) rest with
        | error e => rfl
        | ok more =>
          simp only
          cases runBytes encoding hostLittle fuel ⟨none, stack⟩ with
          | error e => rfl
          | ok tail => simp
    · simp [hover, htype, followed, bind, Except.bind]

theorem run_entries (entries : List (Utf16 × NbtValue)) (fuel : Nat) (stack : List PartFrame) (count : Nat) :
    runBytes encoding hostLittle (NbtValue.entryTurns entries + 1 + fuel)
        ⟨none, ⟨.compound, .end, none, .entries entries, count⟩ :: stack⟩
      = followed encoding hostLittle (encodeEntries encoding hostLittle entries) fuel stack := by
  match entries with
  | [] =>
    rw [NbtValue.entryTurns, Nat.zero_add, Nat.add_comm, runBytes_next, partNext, partEnd, encodeEntries, if_pos rfl]
    rfl
  | (name, tag) :: rest =>
    rw [NbtValue.entryTurns, show 1 + tag.turns + NbtValue.entryTurns rest + 1 + fuel
      = tag.turns + (NbtValue.entryTurns rest + 1 + fuel) + 1 by omega, runBytes_next, partNext, encodeEntries]
    simp only [overfull, false_eq_true, if_false]
    cases stringParts encoding name with
    | error e => rfl
    | ok text =>
      simp only [bind, Except.bind]
      rw [run_value tag, followed]
      simp only [bind, Except.bind]
      rw [run_entries rest fuel stack (count + 1)]
      cases encodeValue encoding hostLittle tag with
      | error e => rfl
      | ok bytes =>
        simp only [followed, bind, Except.bind]
        cases encodeEntries encoding hostLittle rest with
        | error e => rfl
        | ok more =>
          simp only
          cases runBytes encoding hostLittle fuel ⟨none, stack⟩ with
          | error e => rfl
          | ok tail => simp

end

def encodeDocument (encoding : NbtEncoding) (hostLittle : Bool) (root : NbtEntry) : Except NbtError Bytes := do
  let name ← rootNameParts encoding root.name
  let body ← encodeValue encoding hostLittle root.tag
  .ok (root.tag.type.code :: name.flatten ++ body)

theorem parts_flatten (root : NbtEntry) :
    flatten <$> parts encoding hostLittle root = encodeDocument encoding hostLittle root := by
  have hrun : runBytes encoding hostLittle (root.tag.turns + 1) ⟨some root.tag, []⟩
      = followed encoding hostLittle (encodeValue encoding hostLittle root.tag) 1 [] := run_value root.tag 1 []
  rw [parts, encodeDocument]
  cases rootNameParts encoding root.name with
  | error e => rfl
  | ok name =>
    simp only [bind, Except.bind]
    rw [runBytes] at hrun
    cases hloop : partsLoop encoding hostLittle (root.tag.turns + 1) ⟨some root.tag, []⟩ with
    | error e =>
      rw [hloop] at hrun
      cases hval : encodeValue encoding hostLittle root.tag with
      | error e' =>
        rw [hval] at hrun
        exact hrun
      | ok body =>
        rw [hval] at hrun
        cases hrun
    | ok ps =>
      rw [hloop] at hrun
      cases hval : encodeValue encoding hostLittle root.tag with
      | error e' =>
        rw [hval] at hrun
        cases hrun
      | ok body =>
        rw [hval] at hrun
        have hbody : ps.flatten = body ++ [] := Except.ok.inj hrun
        simp [Functor.map, Except.map, hbody]

end Machine

end Cantrip.Nbt
