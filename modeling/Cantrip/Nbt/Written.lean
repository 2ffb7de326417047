import Cantrip.Nbt.EncodeRaw

/-!
# Values and the documents they are written as

`Writes v r` relates a value to the node its bytes spell. Every value the encoder accepts is written as a
valid node of the same shape (`encodeValue_raw`), and a whole entry as a valid document
(`encodeDocument_raw`).
-/

namespace Cantrip.Nbt

open Lib List

section Writes

variable (encoding : NbtEncoding)

mutual

/-- Nested containers of a value. -/
def NbtValue.depth : NbtValue → Nat
  | .list _ value _ => 1 + NbtValue.listDepth value
  | .compound value => 1 + NbtValue.entryDepth value
  | _ => 0

def NbtValue.listDepth : List NbtValue → Nat
  | [] => 0
  | v :: vs => max (NbtValue.depth v) (NbtValue.listDepth vs)

def NbtValue.entryDepth : List (Utf16 × NbtValue) → Nat
  | [] => 0
  | (_, v) :: es => max (NbtValue.depth v) (NbtValue.entryDepth es)

end

/-- The array `value` of the given type stands in `r`. -/
def WritesArray (type : NbtTag) (value : ArrayValues) (length : JsNumber) (r : Raw) : Prop :=
  ∃ lengthBytes ints, r = .array type lengthBytes (ints.flatMap (setInt encoding.isLittle type.width)) ints.length ∧
    length = .int (ints.length : Nat) ∧ value.Stores type ints ∧ FitsWidth type.width ints

mutual

/-- The node `r` holds the value. -/
def Writes : NbtValue → Raw → Prop
  | .byte value, r => ∃ n bs, value = .int n ∧ r = .scalar .byte bs ∧ bs.length = 1 ∧ getInt encoding.isLittle bs = n
  | .short value, r => ∃ n bs, value = .int n ∧ r = .scalar .short bs ∧ bs.length = 2 ∧ getInt encoding.isLittle bs = n
  | .int value, r => ∃ n bs, value = .int n ∧ r = .scalar .int bs ∧ SpellsInt encoding bs n ∧ bs.length ≤ 10
  | .long n, r => ∃ bs, r = .scalar .long bs ∧ bs.length ≤ 10 ∧
    if encoding.varints then SpellsVarint encoding 64 true bs n else bs.length = 8 ∧ getInt encoding.isLittle bs = n
  | .float value, r => r = .scalar .float (setUint encoding.isLittle 4 value.toFloat32.toBits.toNat)
  | .double value, r => r = .scalar .double (setUint encoding.isLittle 8 value.toBits.toNat)
  | .string value, r => ∃ t : RawText, r = .string t ∧ encodeNbtString value encoding.strings = .ok t.content
  | .byteArray value length, r => WritesArray encoding .byteArray value length r
  | .intArray value length, r => WritesArray encoding .intArray value length r
  | .longArray value length, r => WritesArray encoding .longArray value length r
  | .list elementType value length, r =>
    ∃ lengthBytes items, r = .list elementType lengthBytes value.length items ∧ length = .int value.length ∧
      WritesItems value items
  | .compound value, r => ∃ entries, r = .compound entries ∧ WritesEntries value entries

def WritesItems : List NbtValue → List Raw → Prop
  | [], items => items = []
  | v :: vs, items => ∃ r rs, items = r :: rs ∧ Writes v r ∧ WritesItems vs rs

def WritesEntries : List (Utf16 × NbtValue) → List (RawText × Raw) → Prop
  | [], entries => entries = []
  | (name, v) :: es, entries => ∃ t r rs, entries = (t, r) :: rs ∧
    encodeNbtString name encoding.strings = .ok t.content ∧ Writes v r ∧ WritesEntries es rs

end

end Writes

section Encoded

variable {encoding : NbtEncoding} {hostLittle : Bool}

theorem i32_scalar {value : JsNumber} {bs : Bytes} (h : i32 encoding value = .ok bs) : ScalarValid encoding .int bs := by
  unfold ScalarValid
  obtain ⟨n, rfl, hspell, -⟩ := i32_spells h
  split_ifs with hvar
  · refine ⟨n, fun bytes p known hat => ?_⟩
    have := hspell bytes p known hat
    rwa [CursorOps.int, if_pos hvar] at this
  · unfold i32 at h
    cases hint : integer (.int n) (-2 ^ 31) (2 ^ 31 - 1) with
    | error e =>
      rw [hint] at h
      cases h
    | ok m =>
      rw [hint] at h
      simp only [bind, Except.bind, hvar, Bool.false_eq_true, if_false] at h
      obtain ⟨k, -, rfl, -, -⟩ := nbtFixedInteger_number (by decide) (by decide) h
      simp

/-- What `encodeValue_raw` says of one value. -/
def WrittenAs (encoding : NbtEncoding) (v : NbtValue) (bs : Bytes) (r : Raw) : Prop :=
  bs = r.payload ∧ r.Valid encoding ∧ r.type = v.type ∧ r.depth = v.depth ∧ Writes encoding v r

theorem written_array {type : NbtTag} {value : ArrayValues} {length : JsNumber} {bs : Bytes} (htype : type.isArray = true)
    (h : encodeArray encoding hostLittle type value length = .ok bs) :
    ∃ r, bs = r.payload ∧ r.Valid encoding ∧ r.type = type ∧ r.depth = 0 ∧ WritesArray encoding type value length r := by
  obtain ⟨lengthBytes, ints, rfl, rfl, hspell, hstores, hfit⟩ := encodeArray_ok h
  refine ⟨.array type lengthBytes (ints.flatMap (setInt encoding.isLittle type.width)) ints.length, rfl,
    ⟨htype, hspell, ?_⟩, rfl, rfl, lengthBytes, ints, rfl, rfl, hstores, hfit⟩
  exact flatMap_length type.width _ ints fun n _ => setInt_length _ _ _

mutual

theorem encodeValue_raw (v : NbtValue) (bs : Bytes) (h : encodeValue encoding hostLittle v = .ok bs) :
    ∃ r, WrittenAs encoding v bs r := by
  match v with
  | .byte value =>
    obtain ⟨n, rfl, rfl, hlow, hhigh⟩ := nbtFixedInteger_number (by decide) (by decide) h
    exact ⟨.scalar .byte _, rfl, setInt_length _ _ _, rfl, rfl, n, _, rfl, rfl, setInt_length _ _ _,
      getInt_setInt _ _ _ hlow hhigh⟩
  | .short value =>
    obtain ⟨n, rfl, rfl, hlow, hhigh⟩ := nbtFixedInteger_number (by decide) (by decide) h
    exact ⟨.scalar .short _, rfl, setInt_length _ _ _, rfl, rfl, n, _, rfl, rfl, setInt_length _ _ _,
      getInt_setInt _ _ _ hlow hhigh⟩
  | .int value =>
    obtain ⟨n, rfl, hspell, hlen⟩ := i32_spells h
    exact ⟨.scalar .int bs, rfl, i32_scalar h, rfl, rfl, n, bs, rfl, rfl, hspell, hlen⟩
  | .long n =>
    rw [encodeValue] at h
    by_cases hvar : encoding.varints = true
    · rw [if_pos hvar] at h
      obtain ⟨hspell, -, hlen⟩ := nbtVariableInteger_spells encoding (by decide) h
      refine ⟨.scalar .long bs, rfl, ?_, rfl, rfl, bs, rfl, by omega, ?_⟩
      · show ScalarValid encoding .long bs
        rw [ScalarValid, if_pos hvar]
        exact ⟨n, hspell⟩
      · rw [if_pos hvar]
        exact hspell
    · rw [if_neg hvar] at h
      obtain ⟨rfl, hlow, hhigh⟩ := nbtFixedInteger_bigint h
      refine ⟨.scalar .long _, rfl, ?_, rfl, rfl, _, rfl, by simp, ?_⟩
      · show ScalarValid encoding .long _
        rw [ScalarValid, if_neg hvar]
        exact setInt_length _ _ _
      · rw [if_neg hvar]
        exact ⟨setInt_length _ _ _, getInt_setInt _ _ _ hlow hhigh⟩
  | .float value =>
    rw [encodeValue, floatPart, if_pos rfl] at h
    split_ifs at h
    cases h
    exact ⟨.scalar .float _, rfl, setUint_length _ _ _, rfl, rfl, rfl⟩
  | .double value =>
    rw [encodeValue, floatPart, if_neg (by decide)] at h
    cases h
    exact ⟨.scalar .double _, rfl, setUint_length _ _ _, rfl, rfl, rfl⟩
  | .string value =>
    rw [encodeValue] at h
    match hparts : stringParts encoding value with
    | .error e =>
      rw [hparts] at h
      cases h
    | .ok ps =>
      rw [hparts] at h
      cases h
      obtain ⟨t, hbytes, hvalid, hcontent⟩ := stringParts_text hparts
      exact ⟨.string t, hbytes, hvalid, rfl, rfl, t, rfl, hcontent⟩
  | .byteArray value length => exact written_array rfl h
  | .intArray value length => exact written_array rfl h
  | .longArray value length => exact written_array rfl h
  | .list elementType value length =>
    rw [encodeValue] at h
    by_cases hend : (length.truthy && elementType == .end) = true
    · rw [if_pos hend] at h
      cases h
    rw [if_neg hend] at h
    match hint : integer length 0 (2 ^ 31 - 1), hheader : i32 encoding length,
        hbody : encodeItems encoding hostLittle elementType length 0 value with
    | .error e, _, _ => rw [hint] at h; cases h
    | .ok n, .error e, _ => rw [hint, hheader] at h; cases h
    | .ok n, .ok header, .error e => rw [hint, hheader, hbody] at h; cases h
    | .ok n, .ok header, .ok body =>
      rw [hint, hheader, hbody] at h
      cases h
      obtain ⟨items, rfl, hvalid, hlength, hcount, htypes, hdepth, hwrites⟩ :=
        encodeItems_raw value elementType length 0 body hbody
      rw [Nat.zero_add] at hlength
      subst hlength
      obtain ⟨m, hm, hspell, -⟩ := i32_spells hheader
      cases hm
      refine ⟨.list elementType header value.length items, rfl, ⟨hspell, by simp [hcount], ?_, htypes, hvalid⟩, rfl, ?_,
        header, items, rfl, rfl, hwrites⟩
      · intro hpos hel
        apply hend
        have : value.length ≠ 0 := by omega
        simp [JsNumber.truthy, hel, this]
      · rw [Raw.depth, NbtValue.depth, hdepth]
  | .compound value =>
    obtain ⟨entries, rfl, hvalid, hdepth, hwrites⟩ := encodeEntries_raw value bs h
    refine ⟨.compound entries, rfl, hvalid, rfl, ?_, entries, rfl, hwrites⟩
    rw [Raw.depth, NbtValue.depth, hdepth]

theorem encodeItems_raw (vs : List NbtValue) (elementType : NbtTag) (length : JsNumber) (count : Nat) (bs : Bytes)
    (h : encodeItems encoding hostLittle elementType length count vs = .ok bs) :
    ∃ items, bs = Raw.payloads items ∧ ValidItems encoding items ∧ length = .int (count + vs.length : Nat) ∧
      items.length = vs.length ∧ (∀ r ∈ items, r.type = elementType) ∧ Raw.depths items = NbtValue.listDepth vs ∧
      WritesItems encoding vs items := by
  match vs with
  | [] =>
    rw [encodeItems] at h
    split_ifs at h with hlen
    cases h
    exact ⟨[], rfl, trivial, by simpa using hlen, rfl, by simp, rfl, rfl⟩
  | tag :: rest =>
    rw [encodeItems] at h
    split_ifs at h with hover htype
    match hval : encodeValue encoding hostLittle tag,
        hmore : encodeItems encoding hostLittle elementType length (count + 1) rest with
    | .error e, _ => rw [hval] at h; cases h
    | .ok bytes, .error e => rw [hval, hmore] at h; cases h
    | .ok bytes, .ok more =>
      rw [hval, hmore] at h
      cases h
      obtain ⟨r, rfl, hvalid, hrtype, hrdepth, hwrites⟩ := encodeValue_raw tag bytes hval
      obtain ⟨items, rfl, hvalids, hlength, hcount, htypes, hdepths, hwritess⟩ :=
        encodeItems_raw rest elementType length (count + 1) more hmore
      refine ⟨r :: items, rfl, ⟨hvalid, hvalids⟩, ?_, by simp [hcount], ?_, ?_, r, items, rfl, hwrites, hwritess⟩
      · rw [hlength, length_cons, show count + 1 + rest.length = count + (rest.length + 1) by omega]
      · intro x hx
        rcases mem_cons.mp hx with rfl | hx
        · rw [hrtype]
          exact not_not.mp htype
        · exact htypes x hx
      · rw [Raw.depths, NbtValue.listDepth, hrdepth, hdepths]

theorem encodeEntries_raw (es : List (Utf16 × NbtValue)) (bs : Bytes) (h : encodeEntries encoding hostLittle es = .ok bs) :
    ∃ entries, bs = Raw.entriesBytes entries ++ [NbtTag.end.code] ∧ ValidEntries encoding entries ∧
      Raw.entriesDepth entries = NbtValue.entryDepth es ∧ WritesEntries encoding es entries := by
  match es with
  | [] =>
    cases h
    exact ⟨[], rfl, trivial, rfl, rfl⟩
  | (name, tag) :: rest =>
    rw [encodeEntries] at h
    match htext : stringParts encoding name, hval : encodeValue encoding hostLittle tag,
        hmore : encodeEntries encoding hostLittle rest with
    | .error e, _, _ => rw [htext] at h; cases h
    | .ok text, .error e, _ => rw [htext, hval] at h; cases h
    | .ok text, .ok bytes, .error e => rw [htext, hval, hmore] at h; cases h
    | .ok text, .ok bytes, .ok more =>
      rw [htext, hval, hmore] at h
      cases h
      obtain ⟨t, hbytes, hname, hcontent⟩ := stringParts_text htext
      obtain ⟨r, rfl, hvalid, hrtype, hrdepth, hwrites⟩ := encodeValue_raw tag bytes hval
      obtain ⟨entries, rfl, hvalids, hdepths, hwritess⟩ := encodeEntries_raw rest more hmore
      refine ⟨(t, r) :: entries, ?_, ⟨hname, hvalid, hvalids⟩, ?_, t, r, entries, rfl, hcontent, hwrites, hwritess⟩
      · rw [Raw.entriesBytes, hbytes, hrtype]
        simp
      · rw [Raw.entriesDepth, NbtValue.entryDepth, hrdepth, hdepths]

end

end Encoded

end Cantrip.Nbt
