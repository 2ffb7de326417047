import Cantrip.Nbt.ScanPuts

/-!
# What the scanner accepts

A scan that returns has read a valid document: every field it took is a field of a `Raw` node, and the records it
put are those of the document (`scanNbt_accepts`). The induction is on the turns of the loop, with one statement
for the innermost list and one for the innermost compound; it mirrors the scan of a valid document.
-/

namespace Cantrip.Nbt

open Lib List

section Fields

variable {bytes : Bytes} {known : Bool} {encoding : NbtEncoding} {p q : Nat}

theorem flatByte_reads {b : UInt8} (h : flatByte bytes p = .ok (b, q)) : q = p + 1 ∧ Holds bytes p [b] := by
  unfold flatByte at h
  split at h
  · next b' hb =>
    cases h
    obtain ⟨hlt, hget⟩ := List.getElem?_eq_some_iff.mp hb
    refine ⟨rfl, by rw [length_singleton]; omega, ?_⟩
    rw [length_singleton, slice, drop_eq_getElem_cons hlt, hget]
    rfl
  · cases h

variable {v : Int} {n : Nat}

theorem holds_slice (h : p + n ≤ bytes.length) : Holds bytes p (slice bytes p n) := by
  have hlen := slice_length bytes h
  exact ⟨by omega, by rw [hlen]⟩

theorem skip_reads (h : (flatCursor bytes known encoding).skip n p = .ok q) :
    q = p + n ∧ Holds bytes p (slice bytes p n) ∧ (slice bytes p n).length = n := by
  obtain ⟨rfl, hle⟩ := skip_bound h
  exact ⟨rfl, holds_slice hle, slice_length bytes hle⟩

theorem fixed_reads {unsigned : Bool} (hp : p ≤ bytes.length)
    (h : (flatCursor bytes known encoding).fixed n unsigned p = .ok (v, q)) :
    ∃ bs : Bytes, bs.length = n ∧ q = p + bs.length ∧ Holds bytes p bs ∧ SpellsFixed encoding n unsigned bs v := by
  obtain ⟨rfl, hle, -⟩ := fixed_bound hp h
  have hlen := slice_length bytes hle
  have hread := flatBytes_holds (holds_slice hle)
  rw [hlen] at hread
  simp only [flatCursor, hread, bind, Except.bind] at h
  cases h
  exact ⟨slice bytes p n, hlen, by rw [hlen], holds_slice hle, spellsFixed_iff.mpr ⟨hlen, rfl⟩⟩

theorem varint_reads {bits : Nat} {zigzag : Bool} (h : (flatCursor bytes known encoding).varint bits zigzag p = .ok (v, q)) :
    ∃ bs, q = p + bs.length ∧ Holds bytes p bs ∧ SpellsVarint encoding bits zigzag bs v := by
  obtain ⟨hlt, hle, -⟩ := varint_bound h
  have hend : p + (q - p) = q := by omega
  have hlen := slice_length bytes (hend.trans_le hle)
  have hat := holds_slice (hend.trans_le hle)
  simp only [CursorOps.varint, bind, Except.bind] at h
  split at h
  · cases h
  · next pair hresult =>
    obtain ⟨result, q'⟩ := pair
    simp only [Except.ok.injEq, Prod.mk.injEq] at h
    obtain ⟨rfl, rfl⟩ := h
    rw [← hend, ← hlen] at hresult
    obtain ⟨hgrouped, hcount, hvalue, hsmall⟩ := (varintGo_iff hat Nat.one_pos).mp hresult
    rw [Nat.zero_mul, pow_zero, Nat.one_mul, Nat.zero_add] at hvalue
    exact ⟨_, by rw [hlen, hend], hat, spellsVarint_iff.mpr ⟨hgrouped, hcount, hvalue ▸ hsmall, by rw [hvalue]⟩⟩

theorem int_reads (hp : p ≤ bytes.length) (h : (flatCursor bytes known encoding).int encoding p = .ok (v, q)) :
    ∃ bs, q = p + bs.length ∧ Holds bytes p bs ∧ SpellsInt encoding bs v := by
  unfold CursorOps.int at h
  split_ifs at h with henc
  · obtain ⟨bs, rfl, hat, hspells⟩ := varint_reads h
    exact ⟨bs, rfl, hat, spellsInt_iff.mpr (by rwa [if_pos henc])⟩
  · obtain ⟨bs, -, rfl, hat, hspells⟩ := fixed_reads hp h
    exact ⟨bs, rfl, hat, spellsInt_iff.mpr (by rwa [if_neg henc])⟩

theorem string_reads {span : NbtSpan} (hp : p ≤ bytes.length)
    (h : (flatCursor bytes known encoding).string encoding p = .ok (span, q)) :
    ∃ t : RawText, t.Valid encoding ∧ Holds bytes p t.bytes ∧ q = p + t.bytes.length ∧
      span = ⟨p + t.lengthBytes.length, t.content.length⟩ := by
  simp only [CursorOps.string, bind, Except.bind] at h
  cases hlen : (flatCursor bytes known encoding).stringLength encoding p with
  | error e =>
    rw [hlen] at h
    cases h
  | ok result =>
    obtain ⟨length, p₁⟩ := result
    -- the length field, whose value is not negative
    have hfield : ∃ bs, p₁ = p + bs.length ∧ Holds bytes p bs ∧ 0 ≤ length ∧
        if encoding.varints then SpellsVarint encoding 32 false bs length else SpellsFixed encoding 2 true bs length := by
      unfold CursorOps.stringLength at hlen
      split_ifs at hlen with henc
      · obtain ⟨-, -, n, -, hv⟩ := varint_bound hlen
        obtain ⟨bs, rfl, hat, hspells⟩ := varint_reads hlen
        exact ⟨bs, rfl, hat, by rw [hv]; exact Int.natCast_nonneg n, by rwa [if_pos henc]⟩
      · obtain ⟨-, -, bs', hbs', hv⟩ := fixed_bound hp hlen
        obtain ⟨bs, -, rfl, hat, hspells⟩ := fixed_reads hp hlen
        have hnonneg : 0 ≤ length := by
          rw [hv, viewInt, hbs']
          exact Int.natCast_nonneg _
        exact ⟨bs, rfl, hat, hnonneg, by rwa [if_neg henc]⟩
    obtain ⟨bs, rfl, hat, hnonneg, hspells⟩ := hfield
    rw [hlen] at h
    simp only at h
    cases hskip : (flatCursor bytes known encoding).skip length.toNat (p + bs.length) with
    | error e =>
      rw [hskip] at h
      cases h
    | ok p₂ =>
      rw [hskip] at h
      cases h
      obtain ⟨rfl, hcontent, hcount⟩ := skip_reads hskip
      refine ⟨⟨bs, slice bytes (p + bs.length) length.toNat⟩, ?_, holds_append.mpr ⟨hat, hcontent⟩, ?_, ?_⟩
      · rw [RawText.valid_iff]
        simpa only [hcount, Int.toNat_of_nonneg hnonneg] using hspells
      · simp only [RawText.bytes, length_append, hcount]
        omega
      · simp only [hcount]
        rfl

end Fields

section Returns

variable {σ τ α β : Type}

variable {st st' : ScanState σ τ} {a : α}

theorem bind_returns {x : ScanM σ τ α} {f : α → ScanM σ τ β} {b : β} :
    (x >>= f) st = .ok b st' ↔ ∃ a s, x st = .ok a s ∧ f a s = .ok b st' := by
  simp only [bind, EStateM.bind]
  split
  · next a s hx => simp only [hx, EStateM.Result.ok.injEq, ↓existsAndEq, and_true, true_and]
  · next e s hx => simp only [hx, reduceCtorEq, false_and, exists_false]

theorem onCursor_returns {f : σ → Except NbtError (α × σ)} :
    onCursor f st = .ok a st' ↔ ∃ c, f st.cursor = .ok (a, c) ∧ st' = { st with cursor := c } := by
  unfold onCursor
  split
  · next a' c hf => simp [hf, eq_comm, and_comm]
  · next e hf => simp [hf]

theorem putNode_returns {store : IndexStore τ} {node : NbtNode} :
    putNode store node st = .ok () st' ↔ ∃ s, store.put st.store node = .ok s ∧ st' = { st with store := s } := by
  unfold putNode
  split
  · next s hs => simp [hs, eq_comm]
  · next e hs => simp [hs]

theorem orThrow_returns {x : Except NbtError α} : orThrow x st = .ok a st' ↔ x = .ok a ∧ st' = st := by
  unfold orThrow
  split
  · next a' => simp [eq_comm]
  · next e => simp

theorem skipBytes_returns {cur : CursorOps σ} {n : Nat} :
    skipBytes cur n st = .ok () st' ↔ ∃ c, cur.skip n st.cursor = .ok c ∧ st' = { st with cursor := c } := by
  rw [skipBytes, onCursor_returns]
  match cur.skip n st.cursor with
  | .ok c => simp [Except.map]
  | .error e => simp [Except.map]

theorem pure_returns {b : α} : (pure a : ScanM σ τ α) st = .ok b st' ↔ a = b ∧ st = st' := by
  simp only [pure, EStateM.pure, EStateM.Result.ok.injEq]

theorem throw_returns {e : NbtError} : (throw e : ScanM σ τ α) st = .ok a st' ↔ False := by
  refine ⟨fun h => ?_, False.elim⟩
  cases h

theorem discard_returns {x : ScanM σ τ α} : (discard x : ScanM σ τ PUnit) st = .ok ⟨⟩ st' ↔ ∃ a, x st = .ok a st' := by
  simp only [discard, Functor.mapConst, EStateM.map, Function.comp_apply]
  cases x st with
  | ok a s => simp
  | error e s => simp

end Returns

section Scan

variable {τ : Type} {bytes : Bytes} {known : Bool} {encoding : NbtEncoding} {store : IndexStore τ} {maxDepth : Nat}

/-- The place of the node that a scan in state `st` reads next. -/
def nextPlace (st : ScanState Nat τ) (start : Nat) (name : Option NbtSpan) : Place :=
  ⟨st.nodes, st.stack.head?.map (·.node.id), (st.stack.head?.map (·.node.childCount)).getD 0, name, start, st.cursor⟩

/-- The node at `pl` was read, and is no container: its records up to the last have been put. -/
structure LeafRead (bytes : Bytes) (encoding : NbtEncoding) (store : IndexStore τ) (type : NbtTag) (pl : Place)
    (st : ScanState Nat τ) (node : NbtNode) (st' : ScanState Nat τ) (r : Raw) : Prop where
  type_eq : r.type = type
  depth : r.depth = 0
  size : r.size = 1
  childCount : r.childCount = 0
  valid : r.Valid encoding
  holds : Holds bytes pl.payload r.payload
  node_eq : node = r.opened pl
  state : st' = { st with cursor := pl.payload + r.payload.length, store := st'.store }
  puts : ∀ s, store.put st'.store (r.record pl) = .ok s → (r.puts pl).foldlM store.put st.store = .ok s

/-- The list at `pl` was opened. -/
structure ListOpened (bytes : Bytes) (encoding : NbtEncoding) (pl : Place) (st : ScanState Nat τ) (node : NbtNode)
    (st' : ScanState Nat τ) (elementType : NbtTag) (lengthBytes : Bytes) (declared : Int) : Prop where
  length : SpellsInt encoding lengthBytes declared
  element : 0 < declared → elementType ≠ .end
  holds : Holds bytes pl.payload (elementType.code :: lengthBytes)
  node_eq : node = { pl.node .list with
    elementType := some elementType, declaredLength := some declared, length := some declared.toNat }
  state : st' = { st with
    cursor := pl.payload + 1 + lengthBytes.length, stack := ⟨node, some declared.toNat⟩ :: st.stack }

variable {fuel : Nat} {node : NbtNode} {type : NbtTag} {pl : Place} {st st' : ScanState Nat τ}

theorem readArray_reads (htype : type.isArray = true) (hcur : st.cursor = pl.payload) (hle : st.cursor ≤ bytes.length)
    (h : readArray (flatCursor bytes known encoding) encoding store (pl.node type) st = .ok node st') :
    ∃ r, LeafRead bytes encoding store type pl st node st' r := by
  obtain ⟨length, s₁, hlength, h⟩ := bind_returns.mp h
  obtain ⟨c, hint, rfl⟩ := onCursor_returns.mp hlength
  obtain ⟨lengthBytes, rfl, hat, hspell⟩ := int_reads hle hint
  by_cases hneg : length < 0
  · rw [if_pos hneg] at h
    obtain ⟨_, _, hthrow, _⟩ := bind_returns.mp h
    exact (throw_returns.mp hthrow).elim
  rw [if_neg hneg] at h
  simp only [get_bind] at h
  obtain ⟨_, s₂, hput, h⟩ := bind_returns.mp h
  obtain ⟨s, hstored, rfl⟩ := putNode_returns.mp hput
  obtain ⟨_, s₃, hskip, h⟩ := bind_returns.mp h
  obtain ⟨c', hmove, rfl⟩ := skipBytes_returns.mp hskip
  obtain ⟨rfl, rfl⟩ := pure_returns.mp h
  obtain ⟨rfl, hcontent, hcount⟩ := skip_reads hmove
  obtain ⟨n, rfl⟩ := Int.eq_ofNat_of_zero_le (not_lt.mp hneg)
  rw [hcur] at hat hcontent hcount
  simp only [flatCursor, Int.toNat_natCast] at hstored hcontent hcount
  have hwidth : (pl.node type).type = type := rfl
  rw [hwidth] at hcontent hcount hstored
  set content := slice bytes (pl.payload + lengthBytes.length) (n * type.width) with hdef
  refine ⟨.array type lengthBytes content n, rfl, rfl, rfl, rfl, ⟨htype, hspell, hcount⟩,
    holds_append.mpr ⟨hat, hcontent⟩, ?_, ?_, ?_⟩
  · simp only [Raw.opened, hcount, flatCursor, hcur, Int.toNat_natCast, hwidth]
  · simp only [Raw.payload, length_append, hcount, hcur, Int.toNat_natCast, hwidth, Nat.add_assoc]
  · intro s' hs'
    have hput' : store.put st.store ((Raw.array type lengthBytes content n).opened pl) = .ok s := by
      simp only [Raw.opened, hcount]
      rw [hcur] at hstored
      exact hstored
    rw [Raw.puts, foldlM_cons_eq hput']
    exact foldlM_singleton_eq hs'

theorem readList_reads (hcur : st.cursor = pl.payload)
    (h : readList (flatCursor bytes known encoding) encoding (pl.node .list) st = .ok node st') :
    ∃ elementType lengthBytes declared, ListOpened bytes encoding pl st node st' elementType lengthBytes declared := by
  obtain ⟨b, s₁, hbyte, h⟩ := bind_returns.mp h
  obtain ⟨c, htype, rfl⟩ := onCursor_returns.mp hbyte
  obtain ⟨rfl, hat⟩ := flatByte_reads htype
  obtain ⟨declared, s₂, hlength, h⟩ := bind_returns.mp h
  obtain ⟨c, hint, rfl⟩ := onCursor_returns.mp hlength
  have hle : st.cursor + 1 ≤ bytes.length := hat.le
  obtain ⟨lengthBytes, rfl, hat', hspell⟩ := int_reads hle hint
  obtain ⟨elementType, s₃, htag, h⟩ := bind_returns.mp h
  obtain ⟨hcode, rfl⟩ := orThrow_returns.mp htag
  by_cases hend : (declared > 0 && elementType == .end) = true
  · rw [if_pos hend] at h
    obtain ⟨_, _, hthrow, _⟩ := bind_returns.mp h
    exact (throw_returns.mp hthrow).elim
  rw [if_neg hend] at h
  obtain ⟨_, s₄, hpush, h⟩ := bind_returns.mp h
  cases hpush
  obtain ⟨rfl, rfl⟩ := pure_returns.mp h
  obtain rfl := assertTag_ok hcode
  rw [hcur] at hat hat'
  refine ⟨elementType, lengthBytes, declared, hspell, ?_, holds_cons.mpr ⟨hat, hat'⟩, rfl, ?_⟩
  · rintro hpos rfl
    exact hend (by simpa using hpos)
  · rw [hcur]

inductive PayloadReads (bytes : Bytes) (encoding : NbtEncoding) (store : IndexStore τ) (type : NbtTag) (pl : Place)
    (st : ScanState Nat τ) (node : NbtNode) (st' : ScanState Nat τ) : Prop
  | leaf (r : Raw) (container : type.isContainer = false) (read : LeafRead bytes encoding store type pl st node st' r)
  | list (elementType : NbtTag) (lengthBytes : Bytes) (declared : Int) (container : type = .list)
      (opened : ListOpened bytes encoding pl st node st' elementType lengthBytes declared)
  | compound (container : type = .compound) (node_eq : node = pl.node .compound)
      (state : st' = { st with stack := ⟨node, none⟩ :: st.stack })

theorem scalar_reads {c : Nat} {bs : Bytes}
    (hleaf : type.isContainer = false) (hv : ScalarValid encoding type bs) (hat : Holds bytes pl.payload bs)
    (hc : c = pl.payload + bs.length) :
    PayloadReads bytes encoding store type pl st (pl.node type) { st with cursor := c } := by
  refine .leaf (.scalar type bs) hleaf ⟨rfl, rfl, rfl, rfl, hv, hat, rfl, ?_, fun s hs => foldlM_singleton_eq hs⟩
  rw [hc]
  rfl

theorem readPayload_reads (st : ScanState Nat τ) (hcur : st.cursor = pl.payload) (hle : st.cursor ≤ bytes.length)
    (h : readPayload (flatCursor bytes known encoding) encoding store (pl.node type) st = .ok node st') :
    PayloadReads bytes encoding store type pl st node st' := by
  -- a payload of a fixed width
  have hskip : ∀ n, type.isContainer = false → (∀ bs : Bytes, bs.length = n → ScalarValid encoding type bs) →
      (do skipBytes (flatCursor bytes known encoding) n; pure (pl.node type) : ScanM Nat τ NbtNode) st = .ok node st' →
      PayloadReads bytes encoding store type pl st node st' := by
    intro n hleaf hv hrun
    obtain ⟨_, s₁, hmove, hrun⟩ := bind_returns.mp hrun
    obtain ⟨c, hread, rfl⟩ := skipBytes_returns.mp hmove
    obtain ⟨rfl, rfl⟩ := pure_returns.mp hrun
    obtain ⟨rfl, hat, hlen⟩ := skip_reads hread
    rw [hcur] at hat hlen
    exact scalar_reads hleaf (hv _ hlen) hat (by rw [hcur, hlen])
  -- an integer that is a varint in some encodings
  have hvar : ∀ n bits, type.isContainer = false →
      (∀ bs : Bytes, encoding.varints = false → bs.length = n → ScalarValid encoding type bs) →
      (∀ bs v, encoding.varints = true → SpellsVarint encoding bits true bs v → ScalarValid encoding type bs) →
      (do
          if encoding.varints then discard (onCursor ((flatCursor bytes known encoding).varint bits true))
          else skipBytes (flatCursor bytes known encoding) n
          pure (pl.node type) : ScanM Nat τ NbtNode) st = .ok node st' →
      PayloadReads bytes encoding store type pl st node st' := by
    intro n bits hleaf hfixed hvarint hrun
    cases hv : encoding.varints with
    | false =>
      simp only [hv, Bool.false_eq_true, if_false] at hrun
      exact hskip n hleaf (fun bs hbs => hfixed bs hv hbs) hrun
    | true =>
      simp only [hv, if_true] at hrun
      obtain ⟨_, s₁, hmove, hrun⟩ := bind_returns.mp hrun
      obtain ⟨v, hmove⟩ := discard_returns.mp hmove
      obtain ⟨c, hread, rfl⟩ := onCursor_returns.mp hmove
      obtain ⟨rfl, rfl⟩ := pure_returns.mp hrun
      obtain ⟨bs, rfl, hat, hspell⟩ := varint_reads hread
      rw [hcur] at hat
      exact scalar_reads hleaf (hvarint bs v hv hspell) hat (by rw [hcur])
  cases type with
  | «end» => exact (throw_returns.mp h).elim
  | byte => exact hskip 1 rfl (fun bs hbs => hbs) h
  | short => exact hskip 2 rfl (fun bs hbs => hbs) h
  | int =>
    refine hvar 4 32 rfl (fun bs hv hbs => ?_) (fun bs v hv hspell => ?_) h
    · simpa only [ScalarValid, hv, Bool.false_eq_true, if_false] using hbs
    · simpa only [ScalarValid, hv, if_true] using ⟨v, hspell⟩
  | long =>
    refine hvar 8 64 rfl (fun bs hv hbs => ?_) (fun bs v hv hspell => ?_) h
    · simpa only [ScalarValid, hv, Bool.false_eq_true, if_false] using hbs
    · simpa only [ScalarValid, hv, if_true] using ⟨v, hspell⟩
  | float => exact hskip 4 rfl (fun bs hbs => hbs) h
  | double => exact hskip 8 rfl (fun bs hbs => hbs) h
  | string =>
    obtain ⟨span, s₁, hmove, h⟩ := bind_returns.mp h
    obtain ⟨c, hread, rfl⟩ := onCursor_returns.mp hmove
    obtain ⟨rfl, rfl⟩ := pure_returns.mp h
    obtain ⟨t, hv, hat, rfl, rfl⟩ := string_reads hle hread
    rw [hcur] at hat
    refine .leaf (.string t) rfl ⟨rfl, rfl, rfl, rfl, hv, hat, ?_, ?_, fun s hs => foldlM_singleton_eq hs⟩
    · rw [Raw.opened, hcur]
    · rw [Raw.payload, hcur]
  | byteArray | intArray | longArray =>
    obtain ⟨r, hr⟩ := readArray_reads rfl hcur hle h
    exact .leaf r rfl hr
  | list =>
    obtain ⟨elementType, lengthBytes, declared, hopened⟩ := readList_reads hcur h
    exact .list elementType lengthBytes declared rfl hopened
  | compound =>
    obtain ⟨_, s₁, hpush, h⟩ := bind_returns.mp h
    cases hpush
    obtain ⟨rfl, rfl⟩ := pure_returns.mp h
    exact .compound rfl rfl rfl

/-! ## Nodes -/

theorem Raw.record_leaf {r : Raw} (h : r.childCount = 0) :
    r.record pl = { r.opened pl with endAt := some (pl.payload + r.payload.length) } := by
  rw [Raw.record, h]
  cases r <;> rfl

theorem readNode_returns {σ : Type} {cur : CursorOps σ} {start : Nat} {name : Option NbtSpan}
    {st st' : ScanState σ τ} (pl : Place)
    (hpl : pl = ⟨st.nodes, st.stack.head?.map (·.node.id), (st.stack.head?.map (·.node.childCount)).getD 0, name, start,
      cur.position st.cursor⟩) (h : readNode cur encoding store maxDepth type start name st = .ok node st') :
    type ≠ .end ∧ ∃ opened st₁ s,
      readPayload cur encoding store (pl.node type) { st with stack := countChild st.stack } = .ok opened st₁ ∧
      node = (if type.isContainer then opened else { opened with endAt := some (cur.position st₁.cursor) }) ∧
      store.put st₁.store node = .ok s ∧ st₁.stack.length ≤ maxDepth ∧
      st' = { st₁ with nodes := st₁.nodes + 1, store := s } := by
  unfold readNode at h
  by_cases hend : type = .end
  · rw [if_pos hend] at h
    obtain ⟨_, _, hthrow, _⟩ := bind_returns.mp h
    exact (throw_returns.mp hthrow).elim
  rw [if_neg hend] at h
  simp only [get_bind, set_bind, Option.map_map] at h
  obtain ⟨opened, st₁, hread, h⟩ := bind_returns.mp h
  rw [modify_bind, get_bind] at h
  obtain ⟨_, st₂, hput, h⟩ := bind_returns.mp h
  obtain ⟨s, hstored, rfl⟩ := putNode_returns.mp hput
  rw [get_bind] at h
  by_cases hdepth : maxDepth < st₁.stack.length
  · rw [if_pos hdepth] at h
    obtain ⟨_, _, hthrow, _⟩ := bind_returns.mp h
    exact (throw_returns.mp hthrow).elim
  rw [if_neg hdepth] at h
  obtain ⟨rfl, rfl⟩ := pure_returns.mp h
  subst hpl
  exact ⟨hend, opened, st₁, s, hread, rfl, hstored, not_lt.mp hdepth, rfl⟩

theorem closeFrame_returns {σ : Type} {cur : CursorOps σ} {frame : Frame} {rest : List Frame} {st st' : ScanState σ τ}
    (h : closeFrame cur store frame rest st = .ok () st') :
    ∃ s, store.put st.store { frame.node with endAt := some (cur.position st.cursor) } = .ok s ∧
      st' = { st with store := s, stack := rest } := by
  rw [closeFrame, get_bind] at h
  obtain ⟨_, st₁, hput, h⟩ := bind_returns.mp h
  obtain ⟨s, hstored, rfl⟩ := putNode_returns.mp hput
  cases h
  exact ⟨s, hstored, rfl⟩

theorem scanLoop_returns {σ : Type} {cur : CursorOps σ} {frame : Frame} {rest : List Frame}
    {st fin : ScanState σ τ} (hstack : st.stack = frame :: rest)
    (h : scanLoop cur encoding store maxDepth fuel st = .ok () fin) :
    ∃ f st', fuel = f + 1 ∧ scanStep cur encoding store maxDepth frame rest st = .ok () st' ∧
      scanLoop cur encoding store maxDepth f st' = .ok () fin := by
  cases fuel with
  | zero => exact (throw_returns.mp h).elim
  | succ f =>
    rw [scanLoop, get_bind, hstack] at h
    obtain ⟨_, st', hstep, h⟩ := bind_returns.mp h
    exact ⟨f, st', rfl, hstep, h⟩

theorem scanLoop_ends {σ : Type} {cur : CursorOps σ} {st fin : ScanState σ τ} (hstack : st.stack = [])
    (h : scanLoop cur encoding store maxDepth fuel st = .ok () fin) : fin = st := by
  cases fuel with
  | zero => exact (throw_returns.mp h).elim
  | succ f =>
    rw [scanLoop, get_bind, hstack] at h
    obtain ⟨-, rfl⟩ := pure_returns.mp h
    rfl

/-! ## The loop -/

variable (bytes known encoding store maxDepth)

/-- The node `r` was scanned from `st` to its end, and the loop goes on behind it. -/
structure NodeDone (fuel : Nat) (type : NbtTag) (pl : Place) (st fin : ScanState Nat τ) (r : Raw) (fuel' : Nat) (s : τ) :
    Prop where
  fuel : fuel' ≤ fuel
  type_eq : r.type = type
  valid : r.Valid encoding
  holds : Holds bytes pl.payload r.payload
  depth : st.stack.length + r.depth ≤ maxDepth
  puts : (r.puts pl).foldlM store.put st.store = .ok s
  loop : scanLoop (flatCursor bytes known encoding) encoding store maxDepth fuel' (after st r pl s) = .ok () fin

/-- The remaining elements of the list `node` were scanned, and the loop goes on with its end. -/
structure ItemsDone (fuel : Nat) (node : NbtNode) (rest : List Frame) (st fin : ScanState Nat τ) (items : List Raw)
    (fuel' : Nat) (s : τ) : Prop where
  fuel : fuel' ≤ fuel
  valid : ValidItems encoding items
  types : ∀ r ∈ items, r.type = node.elementType.getD .end
  holds : Holds bytes st.cursor (Raw.payloads items)
  depth : rest.length + (1 + Raw.depths items) ≤ maxDepth
  puts : (Raw.itemsPuts node.id node.childCount st.nodes st.cursor items).foldlM store.put st.store = .ok s
  loop : scanLoop (flatCursor bytes known encoding) encoding store maxDepth fuel'
    { cursor := st.cursor + (Raw.payloads items).length
      stack := ⟨{ node with childCount := node.childCount + items.length }, some 0⟩ :: rest
      nodes := st.nodes + Raw.sizes items, store := s } = .ok () fin

/-- The remaining entries of the compound `node` were scanned, and the loop goes on with its end. -/
structure EntriesDone (fuel : Nat) (node : NbtNode) (rest : List Frame) (st fin : ScanState Nat τ)
    (entries : List (RawText × Raw)) (fuel' : Nat) (s : τ) : Prop where
  fuel : fuel' ≤ fuel
  valid : ValidEntries encoding entries
  holds : Holds bytes st.cursor (Raw.entriesBytes entries ++ [NbtTag.end.code])
  depth : rest.length + (1 + Raw.entriesDepth entries) ≤ maxDepth
  puts : (Raw.entriesPuts node.id node.childCount st.nodes st.cursor entries).foldlM store.put st.store = .ok s
  loop : scanLoop (flatCursor bytes known encoding) encoding store maxDepth fuel'
    { cursor := st.cursor + (Raw.entriesBytes entries).length
      stack := ⟨{ node with childCount := node.childCount + entries.length }, none⟩ :: rest
      nodes := st.nodes + Raw.entriesSize entries, store := s } = .ok () fin

def ItemsInvert (fuel : Nat) : Prop :=
  ∀ (node : NbtNode) (k : Nat) (rest : List Frame) (st fin : ScanState Nat τ), st.stack = ⟨node, some k⟩ :: rest →
    st.cursor ≤ bytes.length → rest.length + 1 ≤ maxDepth →
    scanLoop (flatCursor bytes known encoding) encoding store maxDepth fuel st = .ok () fin →
    ∃ items fuel' s, items.length = k ∧ ItemsDone bytes known encoding store maxDepth fuel node rest st fin items fuel' s

/-- A loop that returns with a compound innermost has read the rest of the compound. -/
def EntriesInvert (fuel : Nat) : Prop :=
  ∀ (node : NbtNode) (rest : List Frame) (st fin : ScanState Nat τ), st.stack = ⟨node, none⟩ :: rest →
    st.cursor ≤ bytes.length → rest.length + 1 ≤ maxDepth →
    scanLoop (flatCursor bytes known encoding) encoding store maxDepth fuel st = .ok () fin →
    ∃ entries fuel' s, EntriesDone bytes known encoding store maxDepth fuel node rest st fin entries fuel' s

variable {bytes known encoding store maxDepth}

theorem readNode_done (hitems : ItemsInvert bytes known encoding store maxDepth fuel)
    (hentries : EntriesInvert bytes known encoding store maxDepth fuel) {start : Nat}
    {name : Option NbtSpan} (st : ScanState Nat τ) {fin : ScanState Nat τ} (hle : st.cursor ≤ bytes.length)
    (hread : readNode (flatCursor bytes known encoding) encoding store maxDepth type start name st = .ok node st')
    (hloop : scanLoop (flatCursor bytes known encoding) encoding store maxDepth fuel st' = .ok () fin) :
    node.id = st.nodes ∧ ∃ r fuel' s,
      NodeDone bytes known encoding store maxDepth fuel type (nextPlace st start name) st fin r fuel' s := by
  obtain ⟨hend, opened, st₁, s₁, hpayload, hnode, hput, hdepth, rfl⟩ :=
    readNode_returns (nextPlace st start name) rfl hread
  cases readPayload_reads { st with stack := countChild st.stack } rfl hle hpayload with
  | leaf r hleaf hr =>
    obtain ⟨cursor, stack, nodes, stored⟩ := st₁
    have hstate := hr.state
    simp only [ScanState.mk.injEq, and_true] at hstate
    obtain ⟨rfl, rfl, rfl⟩ := hstate
    have hrecord : node = r.record (nextPlace st start name) := by
      rw [hnode, hleaf, hr.node_eq, Raw.record_leaf hr.childCount]
      rfl
    rw [hrecord] at hput
    refine ⟨by rw [hrecord, Raw.record_id]; rfl, r, fuel, s₁, le_rfl, hr.type_eq, hr.valid, hr.holds, ?_, hr.puts s₁ hput, ?_⟩
    · rw [hr.depth, Nat.add_zero, ← countChild_length st.stack]
      exact hdepth
    · rw [after, hr.size]
      exact hloop
  | list elementType lengthBytes declared hlist hopened =>
    subst hlist
    obtain rfl : node = opened := hnode
    obtain rfl := hopened.state
    have hdepth' : st.stack.length + 1 ≤ maxDepth := by
      rw [← countChild_length st.stack]
      exact hdepth
    have hhead := hopened.holds.le
    rw [length_cons] at hhead
    obtain ⟨items, fuel₁, s₂, hcount, hdone⟩ := hitems node declared.toNat (countChild st.stack)
      ⟨st.cursor + 1 + lengthBytes.length, _, st.nodes + 1, s₁⟩ fin rfl (by simp only [nextPlace] at hhead ⊢; omega)
      (by rw [countChild_length]; exact hdepth') hloop
    obtain ⟨f, st₂, rfl, hstep, hrest⟩ := scanLoop_returns rfl hdone.loop
    obtain ⟨s₃, hclose, rfl⟩ := closeFrame_returns hstep
    have hopen : node = (Raw.list elementType lengthBytes declared items).opened (nextPlace st start name) := by
      rw [hopened.node_eq, Raw.opened, hcount]
    have hcursor : (nextPlace st start name).payload + 1 + lengthBytes.length + (Raw.payloads items).length
        = (nextPlace st start name).payload + (Raw.list elementType lengthBytes declared items).payload.length := by
      simp only [Raw.payload, length_append, length_cons]
      omega
    have hfuel := hdone.fuel
    have hid : node.id = st.nodes := by
      rw [hopened.node_eq]
      rfl
    have hzero : node.childCount = 0 := by
      rw [hopened.node_eq]
      rfl
    refine ⟨hid, .list elementType lengthBytes declared items, f, s₃, ⟨by omega, rfl,
      ⟨hopened.length, hcount, hopened.element, ?_, hdone.valid⟩, holds_append.mpr ⟨hopened.holds, ?_⟩, ?_, ?_, ?_⟩⟩
    · intro r hr
      rw [hdone.types r hr, hopened.node_eq]
      rfl
    · rw [length_cons, ← Nat.add_assoc, Nat.add_right_comm]
      exact hdone.holds
    · rw [Raw.depth, ← countChild_length st.stack]
      exact hdone.depth
    · have hchildren : (Raw.itemsPuts st.nodes 0 (st.nodes + 1) (st.cursor + 1 + lengthBytes.length) items).foldlM
          store.put s₁ = .ok s₂ := by
        have h := hdone.puts
        rw [hid, hzero] at h
        exact h
      rw [hopen] at hput
      rw [Raw.puts, cons_append, foldlM_cons_eq hput]
      refine (foldlM_append_eq hchildren).trans (foldlM_singleton_eq ?_)
      rw [Raw.record, ← hcursor, ← hopen]
      rw [hzero, Nat.zero_add] at hclose
      exact hclose
    · rw [after, ← hcursor, Raw.size, ← Nat.add_assoc]
      exact hrest
  | compound hcompound hopened hstate =>
    subst hcompound
    obtain rfl : node = opened := hnode
    subst hstate
    have hdepth' : st.stack.length + 1 ≤ maxDepth := by
      rw [← countChild_length st.stack]
      exact hdepth
    obtain ⟨entries, fuel₁, s₂, hdone⟩ := hentries node (countChild st.stack) ⟨st.cursor, _, st.nodes + 1, s₁⟩ fin rfl hle
      (by rw [countChild_length]; exact hdepth') hloop
    obtain ⟨f, st₂, rfl, hstep, hrest⟩ := scanLoop_returns rfl hdone.loop
    obtain ⟨hat, hatend⟩ := holds_append.mp hdone.holds
    have hbyte : onCursor (flatCursor bytes known encoding).byte
        ⟨st.cursor + (Raw.entriesBytes entries).length, _, st.nodes + 1 + Raw.entriesSize entries, s₂⟩
        = .ok NbtTag.end.code ⟨st.cursor + (Raw.entriesBytes entries).length + 1,
          ⟨{ node with childCount := node.childCount + entries.length }, none⟩ :: countChild st.stack,
          st.nodes + 1 + Raw.entriesSize entries, s₂⟩ := onCursor_ok _ (flatByte_holds hatend)
    simp only [scanStep, get_bind] at hstep
    rw [bind_ok hbyte, bind_ok (orThrow_ok (assertTag_code NbtTag.end _)), if_pos rfl] at hstep
    obtain ⟨s₃, hclose, rfl⟩ := closeFrame_returns hstep
    have hcursor : st.cursor + (Raw.entriesBytes entries).length + 1
        = (nextPlace st start name).payload + (Raw.compound entries).payload.length := by
      simp only [Raw.payload, length_append, length_cons, length_nil, nextPlace]
      omega
    have hfuel := hdone.fuel
    have hid : node.id = st.nodes := by
      rw [hopened]
      rfl
    have hzero : node.childCount = 0 := by
      rw [hopened]
      rfl
    refine ⟨hid, .compound entries, f, s₃, ⟨by omega, rfl, hdone.valid, hdone.holds, ?_, ?_, ?_⟩⟩
    · rw [Raw.depth, ← countChild_length st.stack]
      exact hdone.depth
    · have hchildren : (Raw.entriesPuts st.nodes 0 (st.nodes + 1) st.cursor entries).foldlM store.put s₁ = .ok s₂ := by
        have h := hdone.puts
        rw [hid, hzero] at h
        exact h
      have hfirst : store.put st.store ((Raw.compound entries).opened (nextPlace st start name)) = .ok s₁ := by
        rw [hopened] at hput
        exact hput
      rw [Raw.puts, cons_append, foldlM_cons_eq hfirst]
      refine (foldlM_append_eq hchildren).trans (foldlM_singleton_eq ?_)
      rw [Raw.record, ← hcursor]
      rw [hzero, Nat.zero_add, hopened] at hclose
      exact hclose
    · rw [after, ← hcursor, Raw.size, ← Nat.add_assoc]
      exact hrest

theorem items_invert (ih : ∀ f < fuel, ItemsInvert bytes known encoding store maxDepth f ∧
    EntriesInvert bytes known encoding store maxDepth f) : ItemsInvert bytes known encoding store maxDepth fuel := by
  intro node k rest st fin hstack hle hdepth hloop
  cases k with
  | zero =>
    refine ⟨[], fuel, st.store, rfl, le_rfl, trivial, by simp, ⟨by simpa [Raw.payloads] using hle, rfl⟩, ?_, rfl, ?_⟩
    · simpa [Raw.depths, Nat.add_comm] using hdepth
    · obtain ⟨cursor, stack, nodes, stored⟩ := st
      cases hstack
      exact hloop
  | succ k =>
    obtain ⟨f, st₁, rfl, hstep, hnext⟩ := scanLoop_returns hstack hloop
    simp only [scanStep, get_bind, set_bind] at hstep
    obtain ⟨element, hread⟩ := discard_returns.mp hstep
    obtain ⟨-, r, f₁, s₁, hr⟩ := readNode_done (ih f (Nat.lt_succ_self f)).1 (ih f (Nat.lt_succ_self f)).2
      { st with stack := ⟨node, some k⟩ :: rest } hle hread hnext
    have hfuel := hr.fuel
    obtain ⟨rs, f₂, s₂, hcount, hdone⟩ := (ih f₁ (by omega)).1 { node with childCount := node.childCount + 1 } k rest
      _ fin rfl hr.holds.le hdepth hr.loop
    have hfuel' := hdone.fuel
    refine ⟨r :: rs, f₂, s₂, by rw [length_cons, hcount], by omega, ⟨hr.valid, hdone.valid⟩, ?_,
      holds_append.mpr ⟨hr.holds, hdone.holds⟩, ?_, ?_, ?_⟩
    · rintro r' (_ | ⟨_, hr'⟩)
      · exact hr.type_eq
      · exact hdone.types r' hr'
    · have h₁ := hr.depth
      have h₂ := hdone.depth
      simp only [length_cons] at h₁
      rw [Raw.depths]
      omega
    · exact (foldlM_append_eq hr.puts).trans hdone.puts
    · have h := hdone.loop
      simp only [after, nextPlace] at h
      rw [Raw.payloads, length_append, Raw.sizes, length_cons, ← Nat.add_assoc, ← Nat.add_assoc st.nodes,
        Nat.add_comm rs.length, ← Nat.add_assoc node.childCount]
      exact h

theorem entries_invert (ih : ∀ f < fuel, ItemsInvert bytes known encoding store maxDepth f ∧
    EntriesInvert bytes known encoding store maxDepth f) : EntriesInvert bytes known encoding store maxDepth fuel := by
  intro node rest st fin hstack hle hdepth hloop
  obtain ⟨f, st₁, rfl, hstep, hnext⟩ := scanLoop_returns hstack hloop
  simp only [scanStep, get_bind] at hstep
  obtain ⟨b, st₂, hbyte, hrest⟩ := bind_returns.mp hstep
  obtain ⟨c, hcode, rfl⟩ := onCursor_returns.mp hbyte
  obtain ⟨rfl, hat⟩ := flatByte_reads hcode
  obtain ⟨type, st₃, htag, hbranch⟩ := bind_returns.mp hrest
  obtain ⟨hassert, rfl⟩ := orThrow_returns.mp htag
  obtain rfl := assertTag_ok hassert
  by_cases hend : type = .end
  · subst hend
    refine ⟨[], f + 1, st.store, le_rfl, trivial, hat, ?_, rfl, ?_⟩
    · simpa [Raw.entriesDepth, Nat.add_comm] using hdepth
    · obtain ⟨cursor, stack, nodes, stored⟩ := st
      cases hstack
      exact hloop
  · rw [if_neg hend] at hbranch
    obtain ⟨span, st₄, hstring, hentry⟩ := bind_returns.mp hbranch
    obtain ⟨c, hname, rfl⟩ := onCursor_returns.mp hstring
    obtain ⟨name, hvalid, hatname, rfl, rfl⟩ := string_reads hat.le hname
    obtain ⟨entry, hread⟩ := discard_returns.mp hentry
    rw [hstack] at hread
    obtain ⟨-, r, f₁, s₁, hr⟩ := readNode_done (ih f (Nat.lt_succ_self f)).1 (ih f (Nat.lt_succ_self f)).2
      ⟨st.cursor + 1 + name.bytes.length, ⟨node, none⟩ :: rest, st.nodes, st.store⟩ hatname.le hread hnext
    have hfuel := hr.fuel
    obtain ⟨es, f₂, s₂, hdone⟩ := (ih f₁ (by omega)).2 { node with childCount := node.childCount + 1 } rest
      _ fin rfl hr.holds.le hdepth hr.loop
    have hfuel' := hdone.fuel
    obtain rfl := hr.type_eq
    refine ⟨(name, r) :: es, f₂, s₂, by omega, ⟨hvalid, hr.valid, hdone.valid⟩, ?_, ?_, ?_, ?_⟩
    · simp only [Raw.entriesBytes, cons_append, append_assoc]
      exact holds_cons.mpr ⟨hat, holds_append.mpr ⟨hatname, holds_append.mpr ⟨hr.holds, hdone.holds⟩⟩⟩
    · have h₁ := hr.depth
      have h₂ := hdone.depth
      simp only [length_cons] at h₁
      rw [Raw.entriesDepth]
      omega
    · exact (foldlM_append_eq hr.puts).trans hdone.puts
    · have h := hdone.loop
      simp only [after, nextPlace] at h
      have hcursor : st.cursor + (Raw.entriesBytes ((name, r) :: es)).length
          = st.cursor + 1 + name.bytes.length + r.payload.length + (Raw.entriesBytes es).length := by
        simp only [Raw.entriesBytes, length_append, length_cons]
        omega
      rw [hcursor, Raw.entriesSize, length_cons, ← Nat.add_assoc st.nodes, Nat.add_comm es.length,
        ← Nat.add_assoc node.childCount]
      exact h

theorem loop_invert (fuel : Nat) : ItemsInvert bytes known encoding store maxDepth fuel ∧
    EntriesInvert bytes known encoding store maxDepth fuel := by
  induction fuel using Nat.strong_induction_on with
  | _ fuel ih => exact ⟨items_invert ih, entries_invert ih⟩

theorem Holds.eq_all {part : Bytes} (h : Holds bytes 0 part) (hle : bytes.length ≤ part.length) : bytes = part := by
  have hall := h.2
  rwa [slice, drop_zero, take_of_length_le hle] at hall

theorem readEnvelope_reads {s₀ : τ} {level expected : Option Nat}
    (hlittle : ¬(encoding.bedrockLevel && encoding.endian != .little) = true)
    (h : readEnvelope (flatCursor bytes known encoding) encoding (ScanState.initial 0 s₀) = .ok (level, expected) st) :
    ∃ header, Holds bytes 0 header ∧ st = ⟨header.length, [], 0, s₀⟩ ∧
      ∀ n, (∀ e, expected = some e → e = header.length + n) → HeaderValid encoding header level n := by
  cases hlevel : encoding.bedrockLevel with
  | false =>
    simp only [readEnvelope, hlevel] at h
    cases h
    exact ⟨[], ⟨Nat.zero_le _, rfl⟩, rfl, fun n _ => .plain n hlevel⟩
  | true =>
    simp only [readEnvelope, hlevel, if_true] at h
    obtain ⟨version, st₁, hversion, h⟩ := bind_returns.mp h
    obtain ⟨c, hfixed, rfl⟩ := onCursor_returns.mp hversion
    obtain ⟨versionBytes, hwidth, rfl, hat, hspell⟩ := fixed_reads (Nat.zero_le _) hfixed
    obtain ⟨length, st₂, hlength, h⟩ := bind_returns.mp h
    obtain ⟨c, hfixed', rfl⟩ := onCursor_returns.mp hlength
    obtain ⟨lengthBytes, hwidth', rfl, hat', hspell'⟩ := fixed_reads hat.le hfixed'
    obtain ⟨hresult, rfl⟩ := pure_returns.mp h
    cases hresult
    refine ⟨versionBytes ++ lengthBytes, holds_append.mpr ⟨hat, hat'⟩, ?_, fun n hn => ?_⟩
    · rw [length_append]
      simp only [ScanState.initial, Nat.zero_add]
    · have hn := hn _ rfl
      rw [length_append, hwidth, hwidth'] at hn
      obtain rfl : length.toNat = n := by omega
      have hendian : encoding.endian = .little := by
        cases hendian : encoding.endian with
        | little => rfl
        | _ => exact absurd (by rw [hlevel, hendian]; rfl) hlittle
      exact .bedrock hlevel hendian hwidth hspell hwidth' hspell'

theorem scanEnd_reads {expected : Option Nat} {position : Nat}
    (h : scanEnd (flatCursor bytes known encoding) expected st = .ok position st') :
    position = st.cursor ∧ st' = st ∧ bytes.length ≤ st.cursor ∧ ∀ e, expected = some e → e = st.cursor := by
  -- the checks behind the one of the envelope
  have hnone : ∀ position st', scanEnd (flatCursor bytes known encoding) none st = .ok position st' →
      position = st.cursor ∧ st' = st ∧ bytes.length ≤ st.cursor := by
    intro position st' h
    unfold scanEnd at h
    rw [get_bind] at h
    obtain ⟨more, st₁, hmore, h⟩ := bind_returns.mp h
    obtain ⟨hrest, hst⟩ := orThrow_returns.mp hmore
    rw [hst] at h
    by_cases hzero : more ≠ 0
    · rw [if_pos hzero] at h
      obtain ⟨_, _, hthrow, _⟩ := bind_returns.mp h
      exact (throw_returns.mp hthrow).elim
    rw [if_neg hzero] at h
    obtain rfl := not_not.mp hzero
    have hend : bytes.length ≤ st.cursor := by
      have hlen : (slice bytes st.cursor 1).length = 0 := by
        simp only [flatCursor, Except.ok.injEq] at hrest
        exact hrest
      simp only [slice, length_take, length_drop] at hlen
      omega
    cases known with
    | false =>
      obtain ⟨rfl, rfl⟩ := pure_returns.mp h
      exact ⟨rfl, rfl, hend⟩
    | true =>
      simp only [flatCursor, if_true] at h
      by_cases hsize : st.cursor ≠ bytes.length
      · rw [if_pos hsize] at h
        obtain ⟨_, _, hthrow, _⟩ := bind_returns.mp h
        exact (throw_returns.mp hthrow).elim
      rw [if_neg hsize] at h
      obtain ⟨rfl, rfl⟩ := pure_returns.mp h
      exact ⟨rfl, rfl, hend⟩
  cases expected with
  | none =>
    obtain ⟨h₁, h₂, h₃⟩ := hnone position st' h
    exact ⟨h₁, h₂, h₃, by simp⟩
  | some e =>
    unfold scanEnd at h
    rw [get_bind] at h
    by_cases he : e ≠ st.cursor
    · have hother : e ≠ (flatCursor bytes known encoding).position st.cursor := he
      simp only [if_pos hother] at h
      obtain ⟨_, _, hthrow, _⟩ := bind_returns.mp h
      exact (throw_returns.mp hthrow).elim
    · have hsame : ¬e ≠ (flatCursor bytes known encoding).position st.cursor := he
      simp only [if_neg hsame] at h
      obtain ⟨h₁, h₂, h₃⟩ := hnone position st' h
      refine ⟨h₁, h₂, h₃, ?_⟩
      rintro _ ⟨⟩
      exact not_not.mp he

theorem scanNbt_accepts {s₀ : τ} {result : NbtScanResult} {fin : ScanState Nat τ}
    (h : scanNbt (flatCursor bytes known encoding) encoding store maxDepth fuel (ScanState.initial 0 s₀) = .ok result fin) :
    ∃ header level doc s, RawDocument.Fills encoding bytes header level doc ∧ doc.root.depth ≤ maxDepth ∧
      (doc.root.puts (doc.placeAt header.length)).foldlM store.put s₀ = .ok s ∧
      result = ⟨0, bytes.length, doc.root.size, level⟩ ∧ fin = ⟨bytes.length, [], doc.root.size, s⟩ := by
  unfold scanNbt at h
  by_cases hlittle : (encoding.bedrockLevel && encoding.endian != .little) = true
  · rw [if_pos hlittle] at h
    obtain ⟨_, _, hthrow, _⟩ := bind_returns.mp h
    exact (throw_returns.mp hthrow).elim
  rw [if_neg hlittle] at h
  obtain ⟨⟨level, expected⟩, st₁, henvelope, h₁⟩ := bind_returns.mp h
  obtain ⟨header, hheader, rfl, hvalid⟩ := readEnvelope_reads hlittle henvelope
  simp only [get_bind] at h₁
  obtain ⟨b, st₂, hbyte, h₂⟩ := bind_returns.mp h₁
  obtain ⟨c, hcode, rfl⟩ := onCursor_returns.mp hbyte
  obtain ⟨rfl, hattype⟩ := flatByte_reads hcode
  obtain ⟨type, st₃, htag, h₃⟩ := bind_returns.mp h₂
  obtain ⟨hassert, rfl⟩ := orThrow_returns.mp htag
  obtain rfl := assertTag_ok hassert
  -- the root, the loop and the checks behind it
  have hpeel : ∀ name st,
      (do let root ← readNode (flatCursor bytes known encoding) encoding store maxDepth type header.length name
          scanLoop (flatCursor bytes known encoding) encoding store maxDepth fuel
          let bytes ← scanEnd (flatCursor bytes known encoding) expected
          let st ← get
          pure { root := root.id, bytes, nodes := st.nodes, levelVersion := level : NbtScanResult }) st
        = .ok result fin →
      ∃ root st₄ st₅ position,
        readNode (flatCursor bytes known encoding) encoding store maxDepth type header.length name st = .ok root st₄ ∧
        scanLoop (flatCursor bytes known encoding) encoding store maxDepth fuel st₄ = .ok () st₅ ∧
        scanEnd (flatCursor bytes known encoding) expected st₅ = .ok position fin ∧
        result = ⟨root.id, position, fin.nodes, level⟩ := by
    intro name st h
    obtain ⟨root, st₄, hread, h₄⟩ := bind_returns.mp h
    obtain ⟨_, st₅, hloop, h₅⟩ := bind_returns.mp h₄
    obtain ⟨position, st₆, hend, h₆⟩ := bind_returns.mp h₅
    rw [get_bind] at h₆
    obtain ⟨rfl, rfl⟩ := pure_returns.mp h₆
    exact ⟨root, st₄, st₅, position, hread, hloop, hend, rfl⟩
  -- the name, where the encoding names roots
  have hnamed : ∃ rootName : Option RawText, rootName.isSome = encoding.namedRoot ∧
      (∀ t, rootName = some t → t.Valid encoding) ∧
      Holds bytes (header.length + 1) ((rootName.map RawText.bytes).getD []) ∧
      ∃ root st₄ st₅ position, readNode (flatCursor bytes known encoding) encoding store maxDepth type header.length
          (rootName.map fun t => ⟨header.length + 1 + t.lengthBytes.length, t.content.length⟩)
          ⟨header.length + 1 + ((rootName.map RawText.bytes).getD []).length, [], 0, s₀⟩ = .ok root st₄ ∧
        scanLoop (flatCursor bytes known encoding) encoding store maxDepth fuel st₄ = .ok () st₅ ∧
        scanEnd (flatCursor bytes known encoding) expected st₅ = .ok position fin ∧
        result = ⟨root.id, position, fin.nodes, level⟩ := by
    cases hnamed : encoding.namedRoot with
    | false =>
      simp only [hnamed, Bool.false_eq_true, if_false] at h₃
      exact ⟨none, rfl, by simp, ⟨hattype.le, rfl⟩, hpeel _ _ h₃⟩
    | true =>
      simp only [hnamed, if_true] at h₃
      obtain ⟨name, st₄, hname, h₄⟩ := bind_returns.mp h₃
      simp only [Functor.map, EStateM.map] at hname
      split at hname
      · next span st₅ hstring =>
        cases hname
        obtain ⟨c, hread, rfl⟩ := onCursor_returns.mp hstring
        obtain ⟨t, hvalid', hatname, rfl, rfl⟩ := string_reads hattype.le hread
        refine ⟨some t, rfl, ?_, hatname, hpeel _ _ h₄⟩
        rintro _ ⟨⟩
        exact hvalid'
      · cases hname
  obtain ⟨rootName, hsome, hrootName, hatname, root, st₄, st₅, position, hread, hloop, hend, rfl⟩ := hnamed
  obtain ⟨hid, r, fuel', s, hr⟩ := readNode_done (loop_invert fuel).1 (loop_invert fuel).2 _ hatname.le hread hloop
  obtain ⟨hposition, rfl, hall, hexpected⟩ := scanEnd_reads hend
  obtain rfl := scanLoop_ends rfl hr.loop
  obtain rfl := hr.type_eq
  set doc : RawDocument := ⟨rootName, r⟩ with hdoc
  have hlen : header.length + doc.bytes.length
      = header.length + 1 + ((rootName.map RawText.bytes).getD []).length + r.payload.length := by
    simp only [hdoc, RawDocument.bytes, RawDocument.nameBytes, length_append, length_cons]
    omega
  have hholds : Holds bytes 0 (header ++ doc.bytes) := by
    refine holds_append.mpr ⟨hheader, ?_⟩
    rw [Nat.zero_add]
    exact holds_cons.mpr ⟨hattype, holds_append.mpr ⟨hatname, hr.holds⟩⟩
  have hbytes : bytes = header ++ doc.bytes := by
    refine hholds.eq_all ?_
    rw [length_append, hlen]
    exact hall
  have hcursor : header.length + 1 + ((rootName.map RawText.bytes).getD []).length + r.payload.length = bytes.length := by
    rw [← hlen, hbytes, length_append]
  refine ⟨header, level, doc, s, ⟨hbytes, hvalid _ fun e he => ?_, hr.valid, hsome, hrootName⟩, ?_, hr.puts, ?_, ?_⟩
  · rw [hexpected e he, hlen]
    rfl
  · simpa using hr.depth
  · rw [hid, hposition]
    simp only [after, nextPlace, hcursor, Nat.zero_add, hdoc]
  · simp only [after, nextPlace, hcursor, Nat.zero_add, hdoc, countChild]

end Scan

end Cantrip.Nbt
