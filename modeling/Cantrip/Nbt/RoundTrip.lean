import Cantrip.Nbt.Document
import Cantrip.Nbt.Written
import Cantrip.Nbt.Values

/-!
# The codec round trip

`Describes` says that an index and the bytes behind it show a value: the readers of `values.ts` decode
every name, string, scalar and array page to what the value holds, and `children` gives the children in
order. Whatever the encoder writes, the scanner indexes so (`encode_scan_describes`).
-/

namespace Cantrip.Nbt

open Lib List

section Describes

variable (source : NbtByteSource) (bytes : Bytes) (encoding : NbtEncoding) (ix : MemoryNbtIndex)

/-- The range `span` decodes to `text`; a text of one page is also read so by `readNbtText`. -/
def DescribesText (span : NbtSpan) (text : Utf16) : Prop :=
  span.offset + span.length ≤ bytes.length ∧
    decodeNbtString (slice bytes span.offset span.length) encoding.strings span.offset = .ok text ∧
    (span.length ≤ 65535 → readNbtText source span encoding 65535 = .ok ⟨text, false, span.offset + span.length⟩)

def arrayScalar (type : NbtTag) (n : Int) : NbtScalar := if type = .longArray then .bigint n else .number n

/-- The record of an array whose pages read as the elements of `value`. -/
def DescribesArray (node : NbtNode) (type : NbtTag) (value : ArrayValues) (length : JsNumber) : Prop :=
  node.type = type ∧ ∃ ints : List Int, value.Stores type ints ∧ length = .int ints.length ∧ node.length = some ints.length ∧
    ∀ offset limit, offset + limit ≤ maxSafeInteger → limit ≤ 4096 →
      readNbtArrayPage source node encoding offset limit = .ok ((slice ints offset limit).map (arrayScalar type))

/-- `children` pages through exactly the records `kids`, which are the last ones put. -/
def HasChildren (node : NbtNode) (kids : List NbtNode) : Prop :=
  node.childCount = kids.length ∧ (∀ kid ∈ kids, ix.get kid.id = some kid) ∧ ∀ offset limit, offset + limit ≤ maxSafeInteger →
      ix.children node.id offset limit = .ok ((slice kids offset limit).map some)

mutual

/-- The record `node` and what is below it show the value. -/
def Describes (node : NbtNode) : NbtValue → Prop
  | .byte value => node.type = .byte ∧ ∃ n, value = .int n ∧ readNbtScalar source node encoding = .ok (.number n, false)
  | .short value => node.type = .short ∧ ∃ n, value = .int n ∧ readNbtScalar source node encoding = .ok (.number n, false)
  | .int value => node.type = .int ∧ ∃ n, value = .int n ∧ readNbtScalar source node encoding = .ok (.number n, false)
  | .long n => node.type = .long ∧ readNbtScalar source node encoding = .ok (.bigint n, false)
  | .float value =>
    node.type = .float ∧ readNbtScalar source node encoding = .ok (.float value.toFloat32.toBits.toNat, false)
  | .double value => node.type = .double ∧ readNbtScalar source node encoding = .ok (.double value.toBits.toNat, false)
  | .string text => node.type = .string ∧ ∃ span, node.data = some span ∧ DescribesText source bytes encoding span text
  | .byteArray value length => DescribesArray source encoding node .byteArray value length
  | .intArray value length => DescribesArray source encoding node .intArray value length
  | .longArray value length => DescribesArray source encoding node .longArray value length
  | .list elementType value length =>
    node.type = .list ∧ node.elementType = some elementType ∧ length = .int value.length ∧
      node.length = some value.length ∧ ∃ kids, HasChildren ix node kids ∧ DescribesItems kids value
  | .compound value => node.type = .compound ∧ ∃ kids, HasChildren ix node kids ∧ DescribesEntries kids value

def DescribesItems (kids : List NbtNode) : List NbtValue → Prop
  | [] => kids = []
  | v :: vs => ∃ kid rest, kids = kid :: rest ∧ kid.name = none ∧ Describes kid v ∧ DescribesItems rest vs

def DescribesEntries (kids : List NbtNode) : List (Utf16 × NbtValue) → Prop
  | [] => kids = []
  | (name, v) :: es => ∃ kid rest, kids = kid :: rest ∧
    (∃ span, kid.name = some span ∧ DescribesText source bytes encoding span name) ∧ Describes kid v ∧
    DescribesEntries rest es

end

end Describes

section Reading

variable {source : NbtByteSource} {bytes : Bytes} {encoding : NbtEncoding} {ix : MemoryNbtIndex}

theorem Raw.record_name (r : Raw) (pl : Place) : (r.record pl).name = pl.name := by cases r <;> rfl

variable {bs : Bytes} {p : Nat}

theorem describesText_of_holds (hsrc : Conforms source bytes) {t : RawText} {text : Utf16}
    (hat : Holds bytes p t.bytes) (henc : encodeNbtString text encoding.strings = .ok t.content) :
    DescribesText source bytes encoding ⟨p + t.lengthBytes.length, t.content.length⟩ text := by
  obtain ⟨-, hcontent⟩ := holds_append.mp hat
  have hdec : decodeNbtString (slice bytes (p + t.lengthBytes.length) t.content.length) encoding.strings
      (p + t.lengthBytes.length) = .ok text := by
    rw [hcontent.2]
    exact decodeNbtString_encodeNbtString _ henc
  exact ⟨hcontent.1, hdec, fun hpage => readNbtText_eq hsrc hpage hcontent.1 hdec⟩

theorem holds_take (hat : Holds bytes p bs) : Holds (bytes.take (p + bs.length)) p bs := by
  obtain ⟨hle, heq⟩ := hat
  refine ⟨by rw [length_take]; omega, ?_⟩
  rw [slice, drop_take, show p + bs.length - p = bs.length by omega, take_take, Nat.min_self]
  exact heq

theorem exceptRel_ok {α σ₁ σ₂ : Type} {R : σ₁ → σ₂ → Prop} {x : Except NbtError (α × σ₁)} {a : α} {t : σ₂}
    (h : ExceptRel R x (.ok (a, t))) : ∃ s, x = .ok (a, s) := by
  match x with
  | .ok (b, s) =>
    obtain ⟨rfl, -⟩ := h
    exact ⟨s, rfl⟩
  | .error e => exact h.elim

theorem scalarCursor_shows (hat : Holds bytes p bs) : NbtCursor.Shows (bytes.take (p + bs.length)) { position := p } p :=
  ⟨rfl, by rw [length_take]; have := hat.1; omega, nil_prefix⟩

theorem scalarReader_sim (encoding : NbtEncoding) (hsrc : Conforms source bytes) (hat : Holds bytes p bs) :
    CursorOps.Sim (NbtCursor.Shows (bytes.take (p + bs.length))) (nbtCursor (scalarSource source (p + bs.length)) encoding)
      (flatCursor (bytes.take (p + bs.length)) true encoding) :=
  nbtCursor_sim (scalarSource_conforms hsrc hat.1) encoding

theorem scalar_fixed (encoding : NbtEncoding) (hsrc : Conforms source bytes) {k : Nat} {n : Int} (hat : Holds bytes p bs)
    (hk : bs.length = k) (hn : getInt encoding.isLittle bs = n) :
    ∃ s, (nbtCursor (scalarSource source (p + bs.length)) encoding).fixed k false { position := p } = .ok (n, s) := by
  have hsim := (scalarReader_sim encoding hsrc hat).fixed bs.length false _ _ (scalarCursor_shows hat)
  rw [fixed_holds encoding _ _ (holds_take hat), viewInt_signed, hn] at hsim
  subst hk
  exact exceptRel_ok hsim

theorem readNbtScalar_scalar {type : NbtTag} {pl : Place} {value : NbtScalar}
    (htype : NbtTag.byte.toNat ≤ type.toNat ∧ type.toNat ≤ NbtTag.double.toNat) (hlen : bs.length ≤ 10)
    (hvalue : readScalarValue source ((Raw.scalar type bs).record pl) encoding (pl.payload + bs.length) = .ok value) :
    readNbtScalar source ((Raw.scalar type bs).record pl) encoding = .ok (value, false) := by
  have hstring : type ≠ .string := by
    rintro rfl
    exact absurd htype.2 (by decide)
  have hrecord : ((Raw.scalar type bs).record pl).type = type ∧
      ((Raw.scalar type bs).record pl).endAt = some (pl.payload + bs.length) ∧
      ((Raw.scalar type bs).record pl).payload = pl.payload := ⟨rfl, rfl, rfl⟩
  rw [readNbtScalar, hrecord.1, if_neg hstring, if_neg (by omega), hrecord.2.1]
  simp only [hrecord.2.2]
  rw [if_neg (by omega), hvalue]
  rfl

theorem read_bits (hsrc : Conforms source bytes) {p width n : Nat} (hat : Holds bytes p (setUint encoding.isLittle width n))
    (hwidth : width ≤ 8) (hn : n < 256 ^ width) :
    (readNbtRange source ⟨p, width⟩).map (getUint encoding.isLittle) = .ok n := by
  have hle := hat.1
  have hslice := hat.2
  rw [setUint_length] at hle hslice
  rw [readNbtRange_eq hsrc ⟨p, width⟩ (le_trans hwidth (by decide)) hle, hslice]
  simp only [Except.map, getUint_setUint, Nat.mod_eq_of_lt hn]

theorem pageElements_flatMap (little : Bool) {width : Nat} (ints : List Int) (hfit : FitsWidth width ints) :
    pageElements little width (ints.flatMap (setInt little width)) ints.length
      = ints.map fun n => if width = 8 then .bigint n else .number n := by
  apply ext_getElem
  · simp [pageElements]
  intro i hi hi'
  rw [length_map] at hi'
  have hword : slice (ints.flatMap (setInt little width)) (i * width) width = setInt little width ints[i] := by
    rw [slice, (take_flatMap width (setInt little width) ints i fun n _ => setInt_length _ _ _).2,
      drop_eq_getElem_cons hi', flatMap_cons, take_left' (setInt_length _ _ _)]
  have hbounds := hfit ints[i] (getElem_mem hi')
  simp only [pageElements, getElem_map, getElem_range, hword, getInt_setInt little width _ hbounds.1 hbounds.2]

theorem describesArray_of_holds (hsrc : Conforms source bytes) {pl : Place} {type : NbtTag} {value : ArrayValues}
    {length : JsNumber} {r : Raw} (htype : type.isArray = true) (hw : WritesArray encoding type value length r)
    (hat : Holds bytes pl.payload r.payload) : DescribesArray source encoding (r.record pl) type value length := by
  obtain ⟨lengthBytes, ints, rfl, rfl, hstores, hfit⟩ := hw
  refine ⟨rfl, ints, hstores, rfl, rfl, fun offset limit hrange hlimit => ?_⟩
  obtain ⟨-, hcontent⟩ := holds_append.mp hat
  have hlen := flatMap_length type.width (setInt encoding.isLittle type.width) ints fun n _ => setInt_length _ _ _
  have hwidth : type.width ≤ 8 := by cases type <;> decide
  have hle := hcontent.1
  have hcount : (slice ints offset limit).length = min limit (ints.length - offset) := by simp [slice]
  have hmin : min offset ints.length * type.width + min limit (ints.length - offset) * type.width
      ≤ ints.length * type.width := by
    rw [← Nat.add_mul]
    exact Nat.mul_le_mul_right _ (by omega)
  have hpage : slice bytes (pl.payload + lengthBytes.length + min offset ints.length * type.width)
      (min limit (ints.length - offset) * type.width) = (slice ints offset limit).flatMap (setInt encoding.isLittle type.width) := by
    rw [← slice_slice bytes _ (ints.flatMap (setInt encoding.isLittle type.width)).length _ _ (by omega), hcontent.2,
      slice, (take_flatMap type.width _ ints (min offset ints.length) fun n _ => setInt_length _ _ _).2,
      (take_flatMap type.width _ _ (min limit (ints.length - offset)) fun n _ => setInt_length _ _ _).1]
    congr 1
    rcases Nat.le_total offset ints.length with h | h
    · rw [Nat.min_eq_left h, slice, ← length_drop]
      exact (take_eq_take_min).symm
    · rw [Nat.min_eq_right h, slice, drop_eq_nil_of_le h]
      simp
  have hread : readNbtRange source ⟨pl.payload + lengthBytes.length + min offset ints.length * type.width,
      min limit (ints.length - offset) * type.width⟩
        = .ok ((slice ints offset limit).flatMap (setInt encoding.isLittle type.width)) := by
    rw [← hpage]
    refine readNbtRange_eq hsrc _ ?_ (by simp only; omega)
    calc min limit (ints.length - offset) * type.width ≤ 4096 * 8 := Nat.mul_le_mul (by omega) hwidth
      _ ≤ NBT_CHUNK_BYTES := by decide
  rw [readNbtArrayPage, assertRange_ok hrange]
  simp only [bind, Except.bind]
  rw [if_neg (by omega), if_pos (show ((Raw.array type lengthBytes _ ints.length).record pl).type.isArray = true from htype)]
  simp only [Raw.record, Raw.opened, Place.node, hread]
  have hfit' : FitsWidth type.width (slice ints offset limit) :=
    fun n hn => hfit n (mem_of_mem_drop (mem_of_mem_take hn))
  rw [← hcount, pageElements_flatMap _ _ hfit']
  simp only [Except.ok.injEq]
  refine map_congr_left fun n _ => ?_
  cases type <;> first | rfl | exact absurd htype (by decide)

/-! ## Children -/

/-- The records of the children of a list, the first of them at `at_`. -/
def itemRecords (parent ordinal id at_ : Nat) : List Raw → List NbtNode
  | [] => []
  | r :: rs =>
    r.record (Place.item parent ordinal id at_) :: itemRecords parent (ordinal + 1) (id + r.size) (at_ + r.payload.length) rs

def entryRecords (parent ordinal id at_ : Nat) : List (RawText × Raw) → List NbtNode
  | [] => []
  | (name, r) :: es =>
    r.record (Place.entry parent ordinal id at_ name) ::
      entryRecords parent (ordinal + 1) (id + r.size) (at_ + 1 + name.bytes.length + r.payload.length) es

theorem itemRecords_length (items : List Raw) (parent ordinal id at_ : Nat) :
    (itemRecords parent ordinal id at_ items).length = items.length := by
  induction items generalizing ordinal id at_ with
  | nil => rfl
  | cons r rs ih => simp [itemRecords, ih]

theorem entryRecords_length (entries : List (RawText × Raw)) (parent ordinal id at_ : Nat) :
    (entryRecords parent ordinal id at_ entries).length = entries.length := by
  induction entries generalizing ordinal id at_ with
  | nil => rfl
  | cons e es ih => simp [entryRecords, ih]

theorem itemRecords_indexed (items : List Raw) (parent ordinal id at_ : Nat)
    (h : IndexedItems ix parent ordinal id at_ items) :
    (Raw.itemIds id items).map ix.get = (itemRecords parent ordinal id at_ items).map some ∧
      ∀ kid ∈ itemRecords parent ordinal id at_ items, ix.get kid.id = some kid := by
  induction items generalizing ordinal id at_ with
  | nil => simp [Raw.itemIds, itemRecords]
  | cons r rs ih =>
    obtain ⟨hids, hkids⟩ := ih _ _ _ h.2
    have hself : ix.get id = some (r.record (Place.item parent ordinal id at_)) := h.1.node
    refine ⟨?_, ?_⟩
    · rw [Raw.itemIds, itemRecords, map_cons, map_cons, hids, hself]
    · intro kid hkid
      rcases mem_cons.mp hkid with rfl | hkid
      · rw [Raw.record_id]
        exact hself
      · exact hkids kid hkid

theorem entryRecords_indexed (entries : List (RawText × Raw)) (parent ordinal id at_ : Nat)
    (h : IndexedEntries ix parent ordinal id at_ entries) :
    (Raw.entryIds id entries).map ix.get = (entryRecords parent ordinal id at_ entries).map some ∧
      ∀ kid ∈ entryRecords parent ordinal id at_ entries, ix.get kid.id = some kid := by
  induction entries generalizing ordinal id at_ with
  | nil => simp [Raw.entryIds, entryRecords]
  | cons e es ih =>
    obtain ⟨name, r⟩ := e
    obtain ⟨hids, hkids⟩ := ih _ _ _ h.2
    have hself : ix.get id = some (r.record (Place.entry parent ordinal id at_ name)) := h.1.node
    refine ⟨?_, ?_⟩
    · rw [Raw.entryIds, entryRecords, map_cons, map_cons, hids, hself]
    · intro kid hkid
      rcases mem_cons.mp hkid with rfl | hkid
      · rw [Raw.record_id]
        exact hself
      · exact hkids kid hkid

theorem hasChildren_of_lists {node : NbtNode} {ids : List Nat} {kids : List NbtNode}
    (hlists : ix.lists node.id = ids.map some) (hids : ids.map ix.get = kids.map some)
    (hkids : ∀ kid ∈ kids, ix.get kid.id = some kid) (hcount : node.childCount = kids.length) :
    HasChildren ix node kids := by
  refine ⟨hcount, hkids, fun offset limit hrange => ?_⟩
  have hmap : (ids.map some).map (fun id => id.bind ix.get) = kids.map some := by
    rw [map_map, ← hids]
    rfl
  rw [MemoryNbtIndex.children, assertRange_ok hrange, hlists]
  simp only [bind, Except.bind, slice, map_take, map_drop, hmap]

mutual

theorem describes_of_indexed (hsrc : Conforms source bytes) (v : NbtValue) (r : Raw) (pl : Place)
    (hw : Writes encoding v r) (hix : Indexed ix pl r) (hat : Holds bytes pl.payload r.payload) :
    Describes source bytes encoding ix (r.record pl) v := by
  match v with
  | .byte value =>
    obtain ⟨n, bs, rfl, rfl, hlen, hget⟩ := hw
    obtain ⟨s, hread⟩ := scalar_fixed encoding hsrc (show Holds bytes pl.payload bs from hat) hlen hget
    refine ⟨rfl, n, rfl, readNbtScalar_scalar (by decide) (by omega) ?_⟩
    simp only [readScalarValue, Raw.record, Raw.opened, Place.node, hread]
    rfl
  | .short value =>
    obtain ⟨n, bs, rfl, rfl, hlen, hget⟩ := hw
    obtain ⟨s, hread⟩ := scalar_fixed encoding hsrc (show Holds bytes pl.payload bs from hat) hlen hget
    refine ⟨rfl, n, rfl, readNbtScalar_scalar (by decide) (by omega) ?_⟩
    simp only [readScalarValue, Raw.record, Raw.opened, Place.node, hread]
    rfl
  | .int value =>
    obtain ⟨n, bs, rfl, rfl, hspell, hlen⟩ := hw
    have hat' : Holds bytes pl.payload bs := hat
    have hsim := CursorOps.int_sim (scalarReader_sim encoding hsrc hat') encoding _ _ (scalarCursor_shows hat')
    rw [hspell _ _ _ (holds_take hat')] at hsim
    obtain ⟨s, hread⟩ := exceptRel_ok hsim
    refine ⟨rfl, n, rfl, readNbtScalar_scalar (by decide) hlen ?_⟩
    simp only [readScalarValue, Raw.record, Raw.opened, Place.node, hread]
    rfl
  | .long n =>
    obtain ⟨bs, rfl, hlen, hspell⟩ := hw
    have hat' : Holds bytes pl.payload bs := hat
    refine ⟨rfl, readNbtScalar_scalar (by decide) hlen ?_⟩
    simp only [readScalarValue, Raw.record, Raw.opened, Place.node]
    by_cases hvar : encoding.varints = true
    · rw [if_pos hvar] at hspell ⊢
      have hsim := CursorOps.varint_sim (scalarReader_sim encoding hsrc hat') 64 true _ _ (scalarCursor_shows hat')
      rw [hspell _ _ _ (holds_take hat')] at hsim
      obtain ⟨s, hread⟩ := exceptRel_ok hsim
      rw [hread]
      rfl
    · rw [if_neg hvar] at hspell ⊢
      obtain ⟨s, hread⟩ := scalar_fixed encoding hsrc hat' hspell.1 hspell.2
      rw [hread]
      rfl
  | .float value =>
    cases hw
    have hbits := read_bits hsrc (p := pl.payload) hat (by decide) value.toFloat32.toBits.toNat_lt
    refine ⟨rfl, readNbtScalar_scalar (by decide) (by simp) ?_⟩
    simp only [readScalarValue, Raw.record, Raw.opened, Place.node]
    cases hrange : readNbtRange source ⟨pl.payload, 4⟩ with
    | error e => rw [hrange] at hbits; cases hbits
    | ok bs =>
      rw [hrange] at hbits
      exact congrArg (Except.map NbtScalar.float) hbits
  | .double value =>
    cases hw
    have hbits := read_bits hsrc (p := pl.payload) hat (by decide) value.toBits.toNat_lt
    refine ⟨rfl, readNbtScalar_scalar (by decide) (by simp) ?_⟩
    simp only [readScalarValue, Raw.record, Raw.opened, Place.node]
    cases hrange : readNbtRange source ⟨pl.payload, 8⟩ with
    | error e => rw [hrange] at hbits; cases hbits
    | ok bs =>
      rw [hrange] at hbits
      exact congrArg (Except.map NbtScalar.double) hbits
  | .string text =>
    obtain ⟨t, rfl, henc⟩ := hw
    exact ⟨rfl, _, rfl, describesText_of_holds hsrc hat henc⟩
  | .byteArray value length => exact describesArray_of_holds hsrc rfl hw hat
  | .intArray value length => exact describesArray_of_holds hsrc rfl hw hat
  | .longArray value length => exact describesArray_of_holds hsrc rfl hw hat
  | .list elementType value length =>
    obtain ⟨lengthBytes, items, rfl, rfl, hitems⟩ := hw
    obtain ⟨hhead, hbody⟩ := holds_append.mp (show Holds bytes pl.payload
      ((elementType.code :: lengthBytes) ++ Raw.payloads items) from hat)
    obtain ⟨hids, hkids⟩ := itemRecords_indexed items _ _ _ _ hix.2.2
    obtain ⟨hcount, hdesc⟩ := describesItems_of_indexed hsrc value items pl.id 0 (pl.id + 1)
      (pl.payload + 1 + lengthBytes.length) hitems hix.2.2
      (by rw [length_cons] at hbody; rwa [show pl.payload + 1 + lengthBytes.length
        = pl.payload + (lengthBytes.length + 1) by omega])
    refine ⟨rfl, rfl, rfl, by rw [hcount]; rfl, _, hasChildren_of_lists hix.2.1 hids hkids ?_, hdesc⟩
    exact (itemRecords_length items _ _ _ _).symm
  | .compound value =>
    obtain ⟨entries, rfl, hentries⟩ := hw
    obtain ⟨hbody, -⟩ := holds_append.mp (show Holds bytes pl.payload (Raw.entriesBytes entries ++ [NbtTag.end.code]) from hat)
    obtain ⟨hids, hkids⟩ := entryRecords_indexed entries _ _ _ _ hix.2.2
    refine ⟨rfl, _, hasChildren_of_lists hix.2.1 hids hkids (entryRecords_length entries _ _ _ _).symm, ?_⟩
    exact describesEntries_of_indexed hsrc value entries pl.id 0 (pl.id + 1) pl.payload hentries hix.2.2 hbody

theorem describesItems_of_indexed (hsrc : Conforms source bytes) (vs : List NbtValue) (items : List Raw)
    (parent ordinal id at_ : Nat) (hw : WritesItems encoding vs items) (hix : IndexedItems ix parent ordinal id at_ items)
    (hat : Holds bytes at_ (Raw.payloads items)) :
    vs.length = items.length ∧
      DescribesItems source bytes encoding ix (itemRecords parent ordinal id at_ items) vs := by
  match vs with
  | [] =>
    cases hw
    exact ⟨rfl, rfl⟩
  | v :: vs =>
    obtain ⟨r, rs, rfl, hr, hrs⟩ := hw
    obtain ⟨hhead, htail⟩ := holds_append.mp hat
    obtain ⟨hcount, hdesc⟩ := describesItems_of_indexed hsrc vs rs parent (ordinal + 1) (id + r.size)
      (at_ + r.payload.length) hrs hix.2 htail
    refine ⟨by simp [hcount], _, _, rfl, ?_, describes_of_indexed hsrc v r _ hr hix.1 hhead, hdesc⟩
    cases r <;> rfl

theorem describesEntries_of_indexed (hsrc : Conforms source bytes) (es : List (Utf16 × NbtValue))
    (entries : List (RawText × Raw)) (parent ordinal id at_ : Nat) (hw : WritesEntries encoding es entries)
    (hix : IndexedEntries ix parent ordinal id at_ entries) (hat : Holds bytes at_ (Raw.entriesBytes entries)) :
    DescribesEntries source bytes encoding ix (entryRecords parent ordinal id at_ entries) es := by
  match es with
  | [] =>
    cases hw
    rfl
  | (name, v) :: es =>
    obtain ⟨t, r, rs, rfl, henc, hr, hrs⟩ := hw
    obtain ⟨-, hat₁⟩ := holds_cons.mp (show Holds bytes at_
      (r.type.code :: (t.bytes ++ r.payload ++ Raw.entriesBytes rs)) from hat)
    rw [append_assoc] at hat₁
    obtain ⟨hname, hat₂⟩ := holds_append.mp hat₁
    obtain ⟨hhead, htail⟩ := holds_append.mp hat₂
    refine ⟨_, _, rfl, ⟨⟨at_ + 1 + t.lengthBytes.length, t.content.length⟩, ?_, describesText_of_holds hsrc hname henc⟩,
      describes_of_indexed hsrc v r _ hr hix.1 hhead,
      describesEntries_of_indexed hsrc es rs parent (ordinal + 1) (id + r.size)
        (at_ + 1 + t.bytes.length + r.payload.length) hrs hix.2 htail⟩
    cases r <;> rfl

end

end Reading

section Documents

variable {encoding : NbtEncoding} {hostLittle : Bool}

def DescribesRootName (source : NbtByteSource) (bytes : Bytes) (encoding : NbtEncoding) (node : NbtNode) (name : Utf16) :
    Prop :=
  if encoding.namedRoot then ∃ span, node.name = some span ∧ DescribesText source bytes encoding span name
  else node.name = none

theorem encodeDocument_raw {root : NbtEntry} {bs : Bytes} (h : encodeDocument encoding hostLittle root = .ok bs) :
    ∃ doc : RawDocument, bs = doc.bytes ∧ doc.Valid encoding ∧ doc.root.depth = root.tag.depth ∧
      Writes encoding root.tag doc.root ∧
      ∀ t, doc.name = some t → encodeNbtString root.name encoding.strings = .ok t.content := by
  unfold encodeDocument at h
  match hname : rootNameParts encoding root.name, hval : encodeValue encoding hostLittle root.tag with
  | .error e, _ => rw [hname] at h; cases h
  | .ok name, .error e => rw [hname, hval] at h; cases h
  | .ok name, .ok body =>
    rw [hname, hval] at h
    cases h
    obtain ⟨r, rfl, hvalid, htype, hdepth, hwrites⟩ := encodeValue_raw root.tag body hval
    rw [rootNameParts] at hname
    by_cases hnamed : encoding.namedRoot = true
    · rw [if_pos hnamed] at hname
      obtain ⟨t, hbytes, ht, henc⟩ := stringParts_text hname
      refine ⟨⟨some t, r⟩, ?_, ⟨hvalid, by rw [hnamed]; rfl, by rintro _ ⟨⟩; exact ht⟩, hdepth, hwrites,
        by rintro _ ⟨⟩; exact henc⟩
      simp only [RawDocument.bytes, RawDocument.nameBytes, htype, hbytes, Option.map_some, Option.getD_some]
    · rw [if_neg hnamed] at hname
      cases hname
      refine ⟨⟨none, r⟩, ?_, ⟨hvalid, ?_, by rintro _ ⟨⟩⟩, hdepth, hwrites, by rintro _ ⟨⟩⟩
      · simp only [RawDocument.bytes, RawDocument.nameBytes, htype, Option.map_none, Option.getD_none, flatten_nil]
      · simpa using hnamed

/-- Whatever the encoder writes, a scan over any source of these bytes accepts to the last byte and indexes
as the tree that was written; a typed array of the tag's own width is read back as its words, signed. -/
theorem encode_scan_describes {root : NbtEntry} {chunks : List Bytes} {source : NbtByteSource} {fuel : Nat}
    (hbedrock : encoding.bedrockLevel = false) (hdepth : root.tag.depth ≤ defaultMaxDepth)
    (henc : encodeNbtPayload encoding hostLittle root = .ok chunks) (hsrc : Conforms source chunks.flatten)
    (hfuel : 2 * chunks.flatten.length ≤ fuel) :
    ∃ result st node, scanNbt (nbtCursor source encoding) encoding MemoryNbtIndex.store defaultMaxDepth fuel
        (ScanState.initial {} MemoryNbtIndex.empty) = .ok result st ∧
      result.bytes = chunks.flatten.length ∧ st.store.get result.root = some node ∧
      DescribesRootName source chunks.flatten encoding node root.name ∧
      Describes source chunks.flatten encoding st.store node root.tag := by
  obtain ⟨ps, hparts, hflat⟩ := encodeNbtPayload_flatten henc
  have hdoc : encodeDocument encoding hostLittle root = .ok ps.flatten := by
    rw [← parts_flatten, hparts]
    rfl
  obtain ⟨doc, hbytes, hvalid, hdocdepth, hwrites, hname⟩ := encodeDocument_raw hdoc
  rw [hflat, hbytes] at hsrc hfuel ⊢
  rw [← hdocdepth] at hdepth
  obtain ⟨st, hscan, hindexed⟩ := scanNbt_document hsrc hbedrock hvalid hdepth hfuel
  -- the root stands behind its type byte and its name
  have hall : Holds doc.bytes 0 (doc.root.type.code :: (doc.nameBytes ++ doc.root.payload)) := holds_self doc.bytes
  obtain ⟨-, hrest⟩ := holds_cons.mp hall
  obtain ⟨hnameat, hroot⟩ := holds_append.mp hrest
  rw [Nat.zero_add] at hnameat hroot
  refine ⟨⟨0, doc.bytes.length, doc.root.size, none⟩, st, doc.root.record doc.place, hscan, rfl, hindexed.node, ?_,
    describes_of_indexed hsrc root.tag doc.root doc.place hwrites hindexed hroot⟩
  have hrecord : (doc.root.record doc.place).name = doc.place.name := Raw.record_name _ _
  rw [DescribesRootName, hrecord]
  match hdocname : doc.name with
  | none =>
    have hnamed : encoding.namedRoot = false := by rw [← hvalid.named, hdocname]; rfl
    simp [hnamed, RawDocument.place, hdocname]
  | some t =>
    have hnamed : encoding.namedRoot = true := by rw [← hvalid.named, hdocname]; rfl
    rw [if_pos hnamed]
    have hnb : doc.nameBytes = t.bytes := by simp [RawDocument.nameBytes, hdocname]
    refine ⟨⟨1 + t.lengthBytes.length, t.content.length⟩, by simp [RawDocument.place, hdocname], ?_⟩
    rw [hnb] at hnameat
    exact describesText_of_holds hsrc hnameat (hname t hdocname)

def javaNbt : NbtEncoding := ⟨.big, true, .mutf8, false⟩

/-- A root `r` with a byte, a list that holds an empty compound, and an array given as a `Uint8Array`. -/
def sampleEntry : NbtEntry :=
  ⟨[114], .compound [ ([97], .byte (.int (-2))), ([97], .list .compound [.compound []] (.int 1)),
    ([98], .byteArray (.view .uint8 [200#8]) (.int 1))]⟩

def sampleBytes : Bytes :=
  [10, 0, 1, 114, 1, 0, 1, 97, 254, 9, 0, 1, 97, 10, 0, 0, 0, 1, 0, 7, 0, 1, 98, 0, 0, 0, 1, 200, 0]

theorem sampleEntry_encodes : encodeNbtPayload javaNbt true sampleEntry = .ok [sampleBytes] := by rfl

theorem sampleBytes_conforms : Conforms (memoryNbtSource sampleBytes) [sampleBytes].flatten :=
  memoryNbtSource_conforms (by decide)

theorem encode_scan_describes_sample : ∃ result st node,
      scanNbt (nbtCursor (memoryNbtSource sampleBytes) javaNbt) javaNbt MemoryNbtIndex.store defaultMaxDepth 58
        (ScanState.initial {} MemoryNbtIndex.empty) = .ok result st ∧
      result.bytes = 29 ∧ st.store.get result.root = some node ∧
      DescribesRootName (memoryNbtSource sampleBytes) sampleBytes javaNbt node sampleEntry.name ∧
      Describes (memoryNbtSource sampleBytes) sampleBytes javaNbt st.store node sampleEntry.tag :=
  encode_scan_describes rfl (by decide) sampleEntry_encodes sampleBytes_conforms (by decide)

/-- The record of the root after a scan of `bytes` from memory. -/
def scannedRoot (encoding : NbtEncoding) (bytes : Bytes) : Option NbtNode :=
  match scanNbt (nbtCursor (memoryNbtSource bytes) encoding) encoding MemoryNbtIndex.store defaultMaxDepth
      (2 * bytes.length) (ScanState.initial {} MemoryNbtIndex.empty) with
  | .ok result st => st.store.get result.root
  | .error _ _ => none

/-- The element 200 of a `Uint8Array` comes back from the document as -56. -/
theorem uint8_element_read_signed : ∃ chunks node,
      encodeNbtPayload javaNbt true ⟨[], .byteArray (.view .uint8 [200#8]) (.int 1)⟩ = .ok chunks ∧
      scannedRoot javaNbt chunks.flatten = some node ∧
      (ArrayValues.view .uint8 [200#8]).elements = [.number (.int 200)] ∧
      readNbtArrayPage (memoryNbtSource chunks.flatten) node javaNbt 0 1 = .ok [.number (-56)] := by
  refine ⟨[[7, 0, 0, 0, 0, 0, 1, 200]],
    { id := 0, parent := none, ordinal := 0, type := .byteArray, name := some ⟨3, 0⟩, start := 0, payload := 3
      endAt := some 8, childCount := 0, length := some 1, data := some ⟨7, 1⟩ }, rfl, ?_, rfl, rfl⟩
  decide +kernel

end Documents

end Cantrip.Nbt
