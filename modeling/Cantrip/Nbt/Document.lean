import Cantrip.Nbt.ScanSim
import Cantrip.Nbt.Index

/-!
# Scanning a whole document

A `RawDocument` is a root node with its header. Over any source that serves its bytes, a scan of a
valid document succeeds within a number of loop turns bounded by its length, reads every byte and
leaves the document in the index (`scanNbt_document`).
-/

namespace Cantrip.Nbt

open Lib List Bool

structure RawDocument where
  name : Option RawText
  root : Raw

namespace RawDocument

def nameBytes (doc : RawDocument) : Bytes := (doc.name.map RawText.bytes).getD []

def bytes (doc : RawDocument) : Bytes := doc.root.type.code :: doc.nameBytes ++ doc.root.payload

structure Valid (encoding : NbtEncoding) (doc : RawDocument) : Prop where
  root : doc.root.Valid encoding
  named : doc.name.isSome = encoding.namedRoot
  name : ∀ t, doc.name = some t → t.Valid encoding

def place (doc : RawDocument) : Place :=
  ⟨0, none, 0, doc.name.map fun t => ⟨1 + t.lengthBytes.length, t.content.length⟩, 0, 1 + doc.nameBytes.length⟩

/-- The place of the root when the document starts at `base`. -/
def placeAt (doc : RawDocument) (base : Nat) : Place :=
  ⟨0, none, 0, doc.name.map fun t => ⟨base + 1 + t.lengthBytes.length, t.content.length⟩, base,
    base + 1 + doc.nameBytes.length⟩

theorem placeAt_zero (doc : RawDocument) : doc.placeAt 0 = doc.place := by
  simp only [placeAt, place, Nat.zero_add]

end RawDocument

section Turns

variable {encoding : NbtEncoding}

theorem not_spellsInt_nil {v : Int} : ¬SpellsInt encoding [] v := by
  intro h
  have hread := h [] 0 false ⟨le_rfl, rfl⟩
  unfold CursorOps.int at hread
  split_ifs at hread
  · cases hread
  · cases hread

theorem not_valid_nil (content : Bytes) : ¬RawText.Valid encoding ⟨[], content⟩ := by
  intro h
  have hread := h [] 0 false ⟨le_rfl, rfl⟩
  unfold CursorOps.stringLength at hread
  split_ifs at hread
  · cases hread
  · cases hread

theorem SpellsInt.length_pos {bs : Bytes} {v : Int} (h : SpellsInt encoding bs v) : 0 < bs.length := by
  rcases bs with _ | ⟨b, bs⟩
  · exact absurd h not_spellsInt_nil
  · simp

theorem RawText.Valid.length_pos {t : RawText} (h : t.Valid encoding) : 0 < t.bytes.length := by
  obtain ⟨lengthBytes, content⟩ := t
  rcases lengthBytes with _ | ⟨b, bs⟩
  · exact absurd h (not_valid_nil content)
  · simp [RawText.bytes]

theorem not_spellsVarint_nil {bits : Nat} {zigzag : Bool} {v : Int} (hbits : 0 < bits) :
    ¬SpellsVarint encoding bits zigzag [] v := by
  intro h
  have hread := h [] 0 false ⟨le_rfl, rfl⟩
  unfold CursorOps.varint at hread
  obtain ⟨k, hk⟩ := Nat.exists_eq_succ_of_ne_zero (show (bits + 6) / 7 ≠ 0 by omega)
  rw [hk] at hread
  cases hread

theorem ScalarValid.length_pos {type : NbtTag} {bs : Bytes} (h : ScalarValid encoding type bs) : 0 < bs.length := by
  have hvar : ∀ bits v, 0 < bits → SpellsVarint encoding bits true bs v → 0 < bs.length := by
    intro bits v hbits hspell
    rcases bs with _ | ⟨b, bs⟩
    · exact absurd hspell (not_spellsVarint_nil hbits)
    · simp
  cases type with
  | byte | short | float | double =>
    simp only [ScalarValid] at h
    omega
  | int | long =>
    simp only [ScalarValid] at h
    split_ifs at h
    · obtain ⟨v, hspell⟩ := h
      exact hvar _ v (by decide) hspell
    · omega
  | _ => exact h.elim

mutual

theorem turns_lt (r : Raw) (h : r.Valid encoding) : r.turns + 1 ≤ 2 * r.payload.length := by
  match r with
  | .scalar type bs =>
    have := ScalarValid.length_pos h
    simp only [Raw.turns, Raw.payload]
    omega
  | .string t =>
    have := RawText.Valid.length_pos h
    simp only [Raw.turns, Raw.payload]
    omega
  | .array type lengthBytes content length =>
    have := h.2.1.length_pos
    simp only [Raw.turns, Raw.payload, length_append]
    omega
  | .list elementType lengthBytes declared items =>
    have := itemsTurns_le items h.2.2.2.2
    simp only [Raw.turns, Raw.payload, length_append, length_cons]
    omega
  | .compound entries =>
    have := entriesTurns_le entries h
    simp only [Raw.turns, Raw.payload, length_append, length_cons]
    omega

theorem itemsTurns_le (items : List Raw) (h : ValidItems encoding items) :
    Raw.itemsTurns items ≤ 2 * (Raw.payloads items).length := by
  match items with
  | [] => simp [Raw.itemsTurns]
  | r :: rs =>
    have hr := turns_lt r h.1
    have hrs := itemsTurns_le rs h.2
    simp only [Raw.itemsTurns, Raw.payloads, length_append]
    omega

theorem entriesTurns_le (entries : List (RawText × Raw)) (h : ValidEntries encoding entries) :
    Raw.entriesTurns entries ≤ 2 * (Raw.entriesBytes entries).length := by
  match entries with
  | [] => simp [Raw.entriesTurns]
  | (name, r) :: es =>
    have hr := turns_lt r h.2.1
    have hes := entriesTurns_le es h.2.2
    simp only [Raw.entriesTurns, Raw.entriesBytes, length_append, length_cons]
    omega

end

end Turns

section Scan

variable {encoding : NbtEncoding} {doc : RawDocument} {maxDepth fuel : Nat}

def ScanState.initial {σ τ : Type} (cursor : σ) (store : τ) : ScanState σ τ := ⟨cursor, [], 0, store⟩

/-- The bytes `header` open a payload of `length` bytes: the level version and the length of a Bedrock level, and
nothing in other encodings. -/
inductive HeaderValid (encoding : NbtEncoding) : Bytes → Option Nat → Nat → Prop
  | plain (length : Nat) (level : encoding.bedrockLevel = false) : HeaderValid encoding [] none length
  | bedrock {versionBytes lengthBytes : Bytes} {version length : Int} (level : encoding.bedrockLevel = true)
      (little : encoding.endian = .little) (versionWidth : versionBytes.length = 4)
      (versionSpelled : SpellsFixed encoding 4 true versionBytes version) (lengthWidth : lengthBytes.length = 4)
      (lengthSpelled : SpellsFixed encoding 4 true lengthBytes length) :
      HeaderValid encoding (versionBytes ++ lengthBytes) (some version.toNat) length.toNat

structure RawDocument.Fills (encoding : NbtEncoding) (bytes header : Bytes) (level : Option Nat) (doc : RawDocument) :
    Prop where
  bytes_eq : bytes = header ++ doc.bytes
  header : HeaderValid encoding header level doc.bytes.length
  valid : doc.Valid encoding

theorem readEnvelope_header {τ : Type} {bytes header : Bytes} {level : Option Nat} {length : Nat}
    (h : HeaderValid encoding header level length) (known : Bool) (hat : Holds bytes 0 header) (s₀ : τ) :
    (encoding.bedrockLevel && encoding.endian != .little) = false ∧
      ∃ expected : Option Nat, (∀ e, expected = some e → e = header.length + length) ∧
        readEnvelope (flatCursor bytes known encoding) encoding (ScanState.initial 0 s₀)
          = .ok (level, expected) ⟨header.length, [], 0, s₀⟩ := by
  cases h with
  | plain _ hlevel =>
    refine ⟨by rw [hlevel]; rfl, none, by simp, ?_⟩
    simp only [readEnvelope, hlevel]
    rfl
  | @bedrock versionBytes lengthBytes version length hlevel hlittle hversionWidth hversion hlengthWidth hlength =>
    obtain ⟨hat₁, hat₂⟩ := holds_append.mp hat
    have hfirst : onCursor ((flatCursor bytes known encoding).fixed 4 true) (ScanState.initial 0 s₀)
        = .ok version ⟨versionBytes.length, [], 0, s₀⟩ := by
      have h := hversion bytes 0 known hat₁
      rw [Nat.zero_add] at h
      exact onCursor_ok _ h
    have hsecond : onCursor ((flatCursor bytes known encoding).fixed 4 true) ⟨versionBytes.length, [], 0, s₀⟩
        = .ok length ⟨(versionBytes ++ lengthBytes).length, [], 0, s₀⟩ := by
      have h := hlength bytes _ known hat₂
      rw [Nat.zero_add, ← length_append] at h
      exact onCursor_ok _ h
    refine ⟨by rw [hlevel, hlittle]; rfl, some (8 + length.toNat), ?_, ?_⟩
    · rintro e ⟨⟩
      rw [length_append, hversionWidth, hlengthWidth]
    · simp only [readEnvelope, hlevel, if_true]
      exact (bind_ok hfirst).trans ((bind_ok hsecond).trans rfl)

theorem scanNbt_fills {τ : Type} {bytes header : Bytes} {level : Option Nat} (known : Bool) (store : IndexStore τ)
    {s₀ s : τ} (hsafe : bytes.length ≤ maxSafeInteger) (hdoc : doc.Fills encoding bytes header level)
    (hdepth : doc.root.depth ≤ maxDepth) (hfuel : 2 * bytes.length ≤ fuel)
    (hputs : (doc.root.puts (doc.placeAt header.length)).foldlM store.put s₀ = .ok s) :
    scanNbt (flatCursor bytes known encoding) encoding store maxDepth fuel (ScanState.initial 0 s₀)
      = .ok ⟨0, bytes.length, doc.root.size, level⟩ ⟨bytes.length, [], doc.root.size, s⟩ := by
  have hall : Holds bytes 0 (header ++ (doc.root.type.code :: (doc.nameBytes ++ doc.root.payload))) := by
    have h := holds_self bytes
    rwa [hdoc.bytes_eq] at h ⊢
  obtain ⟨hheader, hrest⟩ := holds_append.mp hall
  rw [Nat.zero_add] at hrest
  obtain ⟨htype, hrest⟩ := holds_cons.mp hrest
  obtain ⟨hname, hroot⟩ := holds_append.mp hrest
  have hlen : bytes.length = header.length + 1 + doc.nameBytes.length + doc.root.payload.length := by
    rw [hdoc.bytes_eq]
    simp only [RawDocument.bytes, length_append, length_cons]
    omega
  have hdoclen : header.length + doc.bytes.length = bytes.length := by
    rw [hdoc.bytes_eq, length_append]
  have hturns := turns_lt doc.root hdoc.valid.root
  obtain ⟨extra, hextra⟩ := Nat.exists_eq_add_of_le (show doc.root.turns + 1 ≤ fuel by omega)
  obtain ⟨node, st', hread, hid, hloop⟩ := @readNode_raw τ bytes known encoding store maxDepth hsafe
    doc.root hdoc.valid.root (doc.placeAt header.length) ⟨(doc.placeAt header.length).payload, [], 0, s₀⟩ hroot rfl rfl
    rfl rfl (by simpa using hdepth) s hputs
  have hloop' : scanLoop (flatCursor bytes known encoding) encoding store maxDepth fuel st'
      = .ok () ⟨bytes.length, [], doc.root.size, s⟩ := by
    rw [hextra, show doc.root.turns + 1 + extra = doc.root.turns + (extra + 1) by omega, hloop]
    simp only [after, countChild, Nat.zero_add, RawDocument.placeAt, ← hlen]
    rfl
  obtain ⟨hlittle, expected, hexpected, henvelope⟩ := readEnvelope_header hdoc.header known hheader s₀
  have hend : scanEnd (flatCursor bytes known encoding) expected ⟨bytes.length, [], doc.root.size, s⟩
      = .ok bytes.length ⟨bytes.length, [], doc.root.size, s⟩ := by
    have hslice : slice bytes bytes.length 1 = [] := slice_eq_nil_of_le _ le_rfl
    have hrest : (orThrow ((flatCursor bytes known encoding).rest bytes.length) : ScanM Nat τ Nat)
        ⟨bytes.length, [], doc.root.size, s⟩ = .ok 0 ⟨bytes.length, [], doc.root.size, s⟩ := by
      simp only [flatCursor, hslice, length_nil]
      rfl
    unfold scanEnd
    rw [get_bind]
    cases expected with
    | none =>
      refine (bind_ok hrest).trans ?_
      cases known with
      | false => rfl
      | true =>
        simp only [flatCursor, ne_eq, not_true_eq_false, if_false, if_true]
        rfl
    | some e =>
      have he : e = bytes.length := (hexpected e rfl).trans hdoclen
      have hsame : ¬e ≠ (flatCursor bytes known encoding).position bytes.length := by
        rw [he]
        exact not_not.mpr rfl
      simp only [if_neg hsame]
      refine (bind_ok hrest).trans ?_
      cases known with
      | false => rfl
      | true =>
        simp only [flatCursor, ne_eq, not_true_eq_false, if_false, if_true]
        rfl
  have htail : ∀ name, name = (doc.placeAt header.length).name →
      (do let root ← readNode (flatCursor bytes known encoding) encoding store maxDepth doc.root.type header.length name
          scanLoop (flatCursor bytes known encoding) encoding store maxDepth fuel
          let bytes ← scanEnd (flatCursor bytes known encoding) expected
          let st ← get
          pure { root := root.id, bytes, nodes := st.nodes, levelVersion := level : NbtScanResult })
        ⟨(doc.placeAt header.length).payload, [], 0, s₀⟩
        = .ok ⟨0, bytes.length, doc.root.size, level⟩ ⟨bytes.length, [], doc.root.size, s⟩ := by
    rintro name rfl
    refine (bind_ok hread).trans ((bind_ok hloop').trans ((bind_ok hend).trans ?_))
    rw [hid]
    rfl
  have hbyte : onCursor (flatCursor bytes known encoding).byte ⟨header.length, [], 0, s₀⟩
      = .ok doc.root.type.code (⟨header.length + 1, [], 0, s₀⟩ : ScanState Nat τ) :=
    onCursor_ok _ (flatByte_holds htype)
  simp only [scanNbt, hlittle, false_eq_true, if_false]
  refine (bind_ok henvelope).trans ?_
  rw [get_bind]
  refine (bind_ok hbyte).trans ((bind_ok (orThrow_ok (assertTag_code doc.root.type _))).trans ?_)
  cases hdocname : doc.name with
  | none =>
    have hnamed : encoding.namedRoot = false := by rw [← hdoc.valid.named, hdocname]; rfl
    simp only [hnamed, false_eq_true, if_false]
    have hpay : (doc.placeAt header.length).payload = header.length + 1 := by
      simp [RawDocument.placeAt, RawDocument.nameBytes, hdocname]
    have := htail none (by simp [RawDocument.placeAt, hdocname])
    rw [hpay] at this
    exact this
  | some t =>
    have hnamed : encoding.namedRoot = true := by rw [← hdoc.valid.named, hdocname]; rfl
    have hbytes : doc.nameBytes = t.bytes := by simp [RawDocument.nameBytes, hdocname]
    have hpay : (doc.placeAt header.length).payload = header.length + 1 + t.bytes.length := by
      simp [RawDocument.placeAt, hbytes]
    have hstring := string_holds known hsafe (hdoc.valid.name t hdocname) (hbytes ▸ hname)
    have hthis := htail (some ⟨header.length + 1 + t.lengthBytes.length, t.content.length⟩)
      (by simp [RawDocument.placeAt, hdocname])
    rw [hpay] at hthis
    simp only [hnamed, if_true]
    have hsome : (some <$> onCursor ((flatCursor bytes known encoding).string encoding))
        (⟨header.length + 1, [], 0, s₀⟩ : ScanState Nat τ)
        = .ok (some ⟨header.length + 1 + t.lengthBytes.length, t.content.length⟩)
          ⟨header.length + 1 + t.bytes.length, [], 0, s₀⟩ := by
      simp only [Functor.map, EStateM.map, onCursor_ok (⟨header.length + 1, [], 0, s₀⟩ : ScanState Nat τ) hstring]
    exact (bind_ok hsome).trans hthis

theorem scanNbt_flat {τ : Type} (known : Bool) (store : IndexStore τ) {s₀ s : τ} (hsafe : doc.bytes.length ≤ maxSafeInteger)
    (hbedrock : encoding.bedrockLevel = false) (hv : doc.Valid encoding) (hdepth : doc.root.depth ≤ maxDepth)
    (hfuel : 2 * doc.bytes.length ≤ fuel) (hputs : (doc.root.puts doc.place).foldlM store.put s₀ = .ok s) :
    scanNbt (flatCursor doc.bytes known encoding) encoding store maxDepth fuel (ScanState.initial 0 s₀)
      = .ok ⟨0, doc.bytes.length, doc.root.size, none⟩ ⟨doc.bytes.length, [], doc.root.size, s⟩ := by
  have hfills : doc.Fills encoding doc.bytes [] none := ⟨rfl, .plain _ hbedrock, hv⟩
  exact scanNbt_fills known store hsafe hfills hdepth hfuel (doc.placeAt_zero ▸ hputs)

theorem scanNbt_document {source : NbtByteSource} (hsrc : Conforms source doc.bytes)
    (hbedrock : encoding.bedrockLevel = false) (hv : doc.Valid encoding) (hdepth : doc.root.depth ≤ maxDepth)
    (hfuel : 2 * doc.bytes.length ≤ fuel) :
    ∃ st, scanNbt (nbtCursor source encoding) encoding MemoryNbtIndex.store maxDepth fuel
        (ScanState.initial {} MemoryNbtIndex.empty) = .ok ⟨0, doc.bytes.length, doc.root.size, none⟩ st ∧
      Indexed st.store doc.place doc.root := by
  obtain ⟨ix, hputs, hindexed, -⟩ := puts_indexed doc.root doc.place MemoryNbtIndex.empty MemoryNbtIndex.fresh_empty
    (by rintro p ⟨⟩)
  have hflat := scanNbt_flat source.size.isSome MemoryNbtIndex.store hsrc.addressable hbedrock hv hdepth hfuel hputs
  have hstart : StateRel (NbtCursor.Shows doc.bytes) (ScanState.initial {} MemoryNbtIndex.empty)
      (ScanState.initial 0 MemoryNbtIndex.empty) :=
    ⟨⟨rfl, Nat.zero_le _, nil_prefix⟩, rfl, rfl, rfl⟩
  have hsim := scanNbt_sim (nbtCursor_sim hsrc encoding) encoding MemoryNbtIndex.store maxDepth fuel _ _ hstart
  rw [hflat] at hsim
  match hscan : scanNbt (nbtCursor source encoding) encoding MemoryNbtIndex.store maxDepth fuel
      (ScanState.initial {} MemoryNbtIndex.empty) with
  | .ok result st =>
    rw [hscan] at hsim
    obtain ⟨rfl, hst⟩ := hsim
    exact ⟨st, rfl, hst.store ▸ hindexed⟩
  | .error e st =>
    rw [hscan] at hsim
    exact hsim.elim

end Scan

end Cantrip.Nbt
