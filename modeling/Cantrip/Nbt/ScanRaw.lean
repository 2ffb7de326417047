import Cantrip.Nbt.Raw

/-!
# Scanning a valid document

The scanner over the bytes of a valid `Raw` document: reading one node and running the loop until the
node is closed publishes `Raw.puts` and leaves the stack as it was, with the parent's child count
raised by one. The induction is on the document, with one statement for a node and one each for the
remaining elements of a list and the remaining entries of a compound.
-/

namespace Cantrip.Nbt

open Lib List

section Monad

variable {σ τ α β : Type}

variable {x : ScanM σ τ α} {st st' : ScanState σ τ} {a : α}

theorem bind_ok {f : α → ScanM σ τ β} (h : x st = .ok a st') : (x >>= f) st = f a st' := by
  simp [bind, EStateM.bind, h]

theorem bind_error {f : α → ScanM σ τ β} {e : NbtError} (h : x st = .error e st') : (x >>= f) st = .error e st' := by
  simp [bind, EStateM.bind, h]

theorem get_bind (f : ScanState σ τ → ScanM σ τ β) (st : ScanState σ τ) : (get >>= f) st = f st st := rfl

theorem set_bind (s : ScanState σ τ) (f : PUnit → ScanM σ τ β) (st : ScanState σ τ) :
    (set s >>= f) st = f ⟨⟩ s := rfl

theorem modify_bind (g : ScanState σ τ → ScanState σ τ) (f : PUnit → ScanM σ τ β) (st : ScanState σ τ) :
    ((modify g : ScanM σ τ PUnit) >>= f) st = f ⟨⟩ (g st) := rfl

theorem discard_ok (h : x st = .ok a st') : (discard x : ScanM σ τ PUnit) st = .ok ⟨⟩ st' := by
  simp [discard, Functor.mapConst, EStateM.map, h]

theorem onCursor_ok {f : σ → Except NbtError (α × σ)} (st : ScanState σ τ) {c : σ}
    (h : f st.cursor = .ok (a, c)) : onCursor f st = .ok a { st with cursor := c } := by
  simp [onCursor, h]

theorem skipBytes_ok {cur : CursorOps σ} {n : Nat} {c : σ} (h : cur.skip n st.cursor = .ok c) :
    skipBytes cur n st = .ok () { st with cursor := c } :=
  onCursor_ok _ (by rw [h]; rfl)

theorem putNode_ok {store : IndexStore τ} {node : NbtNode} (st : ScanState σ τ) {s : τ}
    (h : store.put st.store node = .ok s) : putNode store node st = .ok () { st with store := s } := by
  simp [putNode, h]

theorem orThrow_ok {x : Except NbtError α} (h : x = .ok a) : orThrow x st = .ok a st := by
  simp [orThrow, h]

end Monad

theorem foldlM_append_ok {τ : Type} {put : τ → NbtNode → Except NbtError τ} {a b : List NbtNode} {s s' : τ}
    (h : (a ++ b).foldlM put s = .ok s') : ∃ m, a.foldlM put s = .ok m ∧ b.foldlM put m = .ok s' := by
  rw [foldlM_append] at h
  match hm : a.foldlM put s with
  | .ok m =>
    rw [hm] at h
    exact ⟨m, rfl, h⟩
  | .error e =>
    rw [hm] at h
    cases h

theorem foldlM_cons_ok {τ : Type} {put : τ → NbtNode → Except NbtError τ} {a : NbtNode} {b : List NbtNode} {s s' : τ}
    (h : (a :: b).foldlM put s = .ok s') : ∃ m, put s a = .ok m ∧ b.foldlM put m = .ok s' := by
  rw [foldlM_cons] at h
  match hm : put s a with
  | .ok m =>
    rw [hm] at h
    exact ⟨m, rfl, h⟩
  | .error e =>
    rw [hm] at h
    cases h

theorem foldlM_singleton_ok {τ : Type} {put : τ → NbtNode → Except NbtError τ} {a : NbtNode} {s s' : τ}
    (h : [a].foldlM put s = .ok s') : put s a = .ok s' := by
  obtain ⟨m, h1, h2⟩ := foldlM_cons_ok h
  cases h2
  exact h1

section Fields

variable {bytes : Bytes} {known : Bool} {encoding : NbtEncoding} {p : Nat}

theorem Holds.le {part : Bytes} (h : Holds bytes p part) : p + part.length ≤ bytes.length := h.1

theorem string_holds (known : Bool) {t : RawText} (hsafe : bytes.length ≤ maxSafeInteger) (ht : t.Valid encoding)
    (h : Holds bytes p t.bytes) :
    (flatCursor bytes known encoding).string encoding p
      = .ok (⟨p + t.lengthBytes.length, t.content.length⟩, p + t.bytes.length) := by
  obtain ⟨hlen, hcontent⟩ := holds_append.mp h
  rw [CursorOps.string, ht bytes p known hlen]
  have hle := hcontent.le
  simp only [bind, Except.bind, Int.toNat_natCast]
  simp only [flatCursor]
  rw [flatSkip_eq bytes hle hsafe]
  simp only [RawText.bytes, length_append, Except.ok.injEq, Prod.mk.injEq, true_and]
  omega

theorem skip_holds {part : Bytes} (hsafe : bytes.length ≤ maxSafeInteger) (h : Holds bytes p part) :
    (flatCursor bytes known encoding).skip part.length p = .ok (p + part.length) :=
  flatSkip_eq bytes h.le hsafe

end Fields

section Scan

variable {τ : Type} {bytes : Bytes} {known : Bool} {encoding : NbtEncoding} {store : IndexStore τ} {maxDepth : Nat}

variable {type : NbtTag} {pl : Place} {s : τ}

theorem readPayload_scalar (known : Bool) (store : IndexStore τ) (st : ScanState Nat τ)
    (hsafe : bytes.length ≤ maxSafeInteger) {bs : Bytes} (hv : ScalarValid encoding type bs) (hat : Holds bytes pl.payload bs)
    (hcur : st.cursor = pl.payload) :
    readPayload (flatCursor bytes known encoding) encoding store (pl.node type) st
      = .ok (pl.node type) { st with cursor := pl.payload + bs.length } := by
  have hskip : ∀ n, bs.length = n → skipBytes (flatCursor bytes known encoding) n st
      = .ok () { st with cursor := pl.payload + bs.length } := by
    intro n hn
    exact skipBytes_ok (by rw [hcur, ← hn]; exact skip_holds hsafe hat)
  have hvarint : ∀ bits v, SpellsVarint encoding bits true bs v →
      (discard (onCursor ((flatCursor bytes known encoding).varint bits true)) : ScanM Nat τ PUnit) st
        = .ok ⟨⟩ { st with cursor := pl.payload + bs.length } := by
    intro bits v hsp
    exact discard_ok (onCursor_ok _ (by rw [hcur]; exact hsp bytes pl.payload known hat))
  cases type
  case byte => exact bind_ok (hskip 1 hv)
  case short => exact bind_ok (hskip 2 hv)
  case int =>
    simp only [ScalarValid] at hv
    simp only [readPayload, Place.node]
    split_ifs at hv with henc
    · obtain ⟨v, hsp⟩ := hv
      rw [if_pos henc]
      exact bind_ok (hvarint 32 v hsp)
    · rw [if_neg henc]
      exact bind_ok (hskip 4 hv)
  case long =>
    simp only [ScalarValid] at hv
    simp only [readPayload, Place.node]
    split_ifs at hv with henc
    · obtain ⟨v, hsp⟩ := hv
      rw [if_pos henc]
      exact bind_ok (hvarint 64 v hsp)
    · rw [if_neg henc]
      exact bind_ok (hskip 8 hv)
  case float => exact bind_ok (hskip 4 hv)
  case double => exact bind_ok (hskip 8 hv)
  all_goals exact hv.elim

theorem readPayload_string (known : Bool) (store : IndexStore τ) (st : ScanState Nat τ)
    (hsafe : bytes.length ≤ maxSafeInteger) {t : RawText} (hv : t.Valid encoding) (hat : Holds bytes pl.payload t.bytes) (hcur : st.cursor = pl.payload) :
    readPayload (flatCursor bytes known encoding) encoding store (pl.node .string) st
      = .ok ((Raw.string t).opened pl) { st with cursor := pl.payload + t.bytes.length } :=
  bind_ok (onCursor_ok _ (by rw [hcur]; exact string_holds known hsafe hv hat))

theorem readPayload_array (known : Bool) (st : ScanState Nat τ) (hsafe : bytes.length ≤ maxSafeInteger)
    {lengthBytes content : Bytes} {length : Nat} (htype : type.isArray = true)
    (hlength : SpellsInt encoding lengthBytes length) (hcontent : content.length = length * type.width)
    (hat : Holds bytes pl.payload (lengthBytes ++ content)) (hcur : st.cursor = pl.payload)
    (hput : store.put st.store ((Raw.array type lengthBytes content length).opened pl) = .ok s) :
    readPayload (flatCursor bytes known encoding) encoding store (pl.node type) st
      = .ok ((Raw.array type lengthBytes content length).opened pl)
        { st with cursor := pl.payload + (lengthBytes ++ content).length, store := s } := by
  obtain ⟨hat1, hat2⟩ := holds_append.mp hat
  have hint : onCursor ((flatCursor bytes known encoding).int encoding) st
      = .ok (length : Int) { st with cursor := pl.payload + lengthBytes.length } :=
    onCursor_ok _ (by rw [hcur]; exact hlength bytes pl.payload known hat1)
  have hskip : (flatCursor bytes known encoding).skip (length * type.width) (pl.payload + lengthBytes.length)
      = .ok (pl.payload + lengthBytes.length + content.length) := by
    rw [← hcontent]
    exact skip_holds hsafe hat2
  have hopened : (Raw.array type lengthBytes content length).opened pl = { pl.node type with
      length := some length, data := some ⟨pl.payload + lengthBytes.length, length * type.width⟩ } := by
    rw [Raw.opened, hcontent]
  rw [hopened] at hput ⊢
  have hrun : readArray (flatCursor bytes known encoding) encoding store (pl.node type) st = .ok { pl.node type with
        length := some length, data := some ⟨pl.payload + lengthBytes.length, length * type.width⟩ }
        { st with cursor := pl.payload + (lengthBytes ++ content).length, store := s } := by
    have hnonneg : ¬((length : Int) < 0) := by omega
    refine (bind_ok hint).trans ?_
    simp only [if_neg hnonneg, get_bind, Int.toNat_natCast]
    refine (bind_ok (putNode_ok { st with cursor := pl.payload + lengthBytes.length } hput)).trans ?_
    refine (bind_ok (skipBytes_ok hskip)).trans ?_
    rw [length_append, ← Nat.add_assoc]
    rfl
  cases type
  case byteArray => exact hrun
  case intArray => exact hrun
  case longArray => exact hrun
  all_goals simp [NbtTag.isArray] at htype

theorem readNode_ok (maxDepth : Nat) {σ : Type} {cur : CursorOps σ} {st st₁ : ScanState σ τ}
    {node : NbtNode} (hend : type ≠ .end) (hid : pl.id = st.nodes) (hparent : pl.parent = st.stack.head?.map (·.node.id))
    (hordinal : pl.ordinal = (st.stack.head?.map (·.node.childCount)).getD 0)
    (hpayload : pl.payload = cur.position st.cursor)
    (hread : readPayload cur encoding store (pl.node type) { st with stack := countChild st.stack } = .ok node st₁)
    (hput : store.put st₁.store
      (if type.isContainer then node else { node with endAt := some (cur.position st₁.cursor) }) = .ok s)
    (hdepth : st₁.stack.length ≤ maxDepth) :
    readNode cur encoding store maxDepth type pl.start pl.name st
      = .ok (if type.isContainer then node else { node with endAt := some (cur.position st₁.cursor) })
        { st₁ with nodes := st₁.nodes + 1, store := s } := by
  unfold readNode
  simp only [if_neg hend, get_bind, set_bind, Option.map_map]
  have hnode : ({ id := st.nodes, parent := Option.map (NbtNode.id ∘ Frame.node) st.stack.head?
                  ordinal := (Option.map (NbtNode.childCount ∘ Frame.node) st.stack.head?).getD 0
                  type := type, name := pl.name, start := pl.start, payload := cur.position st.cursor, endAt := none
                  childCount := 0 } : NbtNode) = pl.node type := by
    rw [Place.node, hid, hparent, hordinal, hpayload]
    rfl
  rw [hnode, bind_ok hread, modify_bind, get_bind]
  have hput' : putNode store
      (if type.isContainer then node else { node with endAt := some (cur.position st₁.cursor) })
      { st₁ with nodes := st₁.nodes + 1 } = .ok () { st₁ with nodes := st₁.nodes + 1, store := s } := putNode_ok _ hput
  rw [bind_ok hput', get_bind]
  rw [if_neg (by simpa using hdepth)]
  rfl

theorem readNode_leaf {σ : Type} {cur : CursorOps σ} {st st₁ : ScanState σ τ}
    {node : NbtNode} (hleaf : type.isContainer = false) (hend : type ≠ .end) (hid : pl.id = st.nodes)
    (hparent : pl.parent = st.stack.head?.map (·.node.id))
    (hordinal : pl.ordinal = (st.stack.head?.map (·.node.childCount)).getD 0)
    (hpayload : pl.payload = cur.position st.cursor)
    (hread : readPayload cur encoding store (pl.node type) { st with stack := countChild st.stack } = .ok node st₁)
    (hput : store.put st₁.store { node with endAt := some (cur.position st₁.cursor) } = .ok s)
    (hdepth : st₁.stack.length ≤ maxDepth) :
    readNode cur encoding store maxDepth type pl.start pl.name st
      = .ok { node with endAt := some (cur.position st₁.cursor) } { st₁ with nodes := st₁.nodes + 1, store := s } := by
  have h := readNode_ok maxDepth (s := s) hend hid hparent hordinal hpayload hread
  simp only [hleaf, Bool.false_eq_true, if_false] at h
  exact h hput hdepth

def after (st : ScanState Nat τ) (r : Raw) (pl : Place) (s : τ) : ScanState Nat τ :=
  { cursor := pl.payload + r.payload.length, stack := countChild st.stack, nodes := st.nodes + r.size, store := s }

theorem countChild_length (stack : List Frame) : (countChild stack).length = stack.length := by
  cases stack <;> rfl

theorem isContainer_of_scalar {bs : Bytes} (h : ScalarValid encoding type bs) : type.isContainer = false := by
  cases type <;> first | rfl | exact h.elim

theorem isContainer_of_array (h : type.isArray = true) : type.isContainer = false := by
  cases type <;> first | rfl | simp [NbtTag.isArray] at h

theorem scanLoop_cons {σ : Type} {cur : CursorOps σ} {fuel : Nat} {st st' : ScanState σ τ} {frame : Frame}
    {rest : List Frame} (hstack : st.stack = frame :: rest)
    (hstep : scanStep cur encoding store maxDepth frame rest st = .ok () st') :
    scanLoop cur encoding store maxDepth (fuel + 1) st = scanLoop cur encoding store maxDepth fuel st' := by
  rw [scanLoop, get_bind, hstack]
  exact bind_ok hstep

theorem closeFrame_ok {σ : Type} {cur : CursorOps σ} {frame : Frame} {rest : List Frame} {st : ScanState σ τ}
    (hput : store.put st.store { frame.node with endAt := some (cur.position st.cursor) } = .ok s) :
    closeFrame cur store frame rest st = .ok () { st with store := s, stack := rest } := by
  rw [closeFrame, get_bind, bind_ok (putNode_ok _ hput)]
  rfl

/-- A frame of a list whose node stands at `pl`, with `done` children read. -/
def listFrame (pl : Place) (r : Raw) (done remaining : Nat) : Frame :=
  ⟨{ r.opened pl with childCount := done }, some remaining⟩

def compoundFrame (pl : Place) (r : Raw) (done : Nat) : Frame := ⟨{ r.opened pl with childCount := done }, none⟩

theorem readPayload_list (known : Bool) (store : IndexStore τ) (st : ScanState Nat τ) {elementType : NbtTag}
    {lengthBytes : Bytes} {declared : Int} {items : List Raw} (hlength : SpellsInt encoding lengthBytes declared) (hcount : items.length = declared.toNat)
    (hend : 0 < declared → elementType ≠ .end) (hat : Holds bytes pl.payload (elementType.code :: lengthBytes))
    (hcur : st.cursor = pl.payload) :
    readPayload (flatCursor bytes known encoding) encoding store (pl.node .list) st
      = .ok ((Raw.list elementType lengthBytes declared items).opened pl)
        { st with
          cursor := pl.payload + 1 + lengthBytes.length
          stack := listFrame pl (.list elementType lengthBytes declared items) 0 items.length :: st.stack } := by
  obtain ⟨hat1, hat2⟩ := holds_cons.mp hat
  have hbyte : onCursor (flatCursor bytes known encoding).byte st
      = .ok elementType.code { st with cursor := pl.payload + 1 } :=
    onCursor_ok _ (by rw [hcur]; exact flatByte_holds hat1)
  have hint : onCursor ((flatCursor bytes known encoding).int encoding) { st with cursor := pl.payload + 1 }
      = .ok declared { st with cursor := pl.payload + 1 + lengthBytes.length } :=
    onCursor_ok _ (hlength bytes (pl.payload + 1) known hat2)
  have hcheck : (decide (declared > 0) && elementType == .end) = false := by
    by_cases h : 0 < declared
    · simp [hend h]
    · simp [h]
  refine (bind_ok hbyte).trans ((bind_ok hint).trans ((bind_ok (orThrow_ok (assertTag_code elementType _))).trans ?_))
  simp only [hcheck, Bool.false_eq_true, if_false]
  rw [← hcount]
  rfl

mutual

theorem readNode_raw (hsafe : bytes.length ≤ maxSafeInteger) (r : Raw) (hv : r.Valid encoding) (pl : Place)
    (st : ScanState Nat τ) (hat : Holds bytes pl.payload r.payload) (hcur : st.cursor = pl.payload)
    (hid : pl.id = st.nodes) (hparent : pl.parent = st.stack.head?.map (·.node.id))
    (hordinal : pl.ordinal = (st.stack.head?.map (·.node.childCount)).getD 0)
    (hdepth : st.stack.length + r.depth ≤ maxDepth) (s : τ) (hputs : (r.puts pl).foldlM store.put st.store = .ok s) :
    ∃ node st', readNode (flatCursor bytes known encoding) encoding store maxDepth r.type pl.start pl.name st
        = .ok node st' ∧ node.id = st.nodes ∧
      ∀ fuel, scanLoop (flatCursor bytes known encoding) encoding store maxDepth (r.turns + fuel) st'
        = scanLoop (flatCursor bytes known encoding) encoding store maxDepth fuel (after st r pl s) := by
  have hlen := countChild_length st.stack
  have hpos : pl.payload = (flatCursor bytes known encoding).position st.cursor := hcur.symm
  match r with
  | .scalar type bs =>
    have hcont : (Raw.scalar type bs).type.isContainer = false := isContainer_of_scalar hv
    have hread := readPayload_scalar known store { st with stack := countChild st.stack } hsafe hv hat hcur
    have hput := foldlM_singleton_ok hputs
    refine ⟨_, _, readNode_leaf hcont (Raw.type_ne_end hv) hid hparent hordinal hpos hread hput ?_, hid, ?_⟩
    · simp only [hlen]; omega
    · intro fuel; rw [Raw.turns, Nat.zero_add]; rfl
  | .string t =>
    have hread := readPayload_string known store { st with stack := countChild st.stack } hsafe hv hat hcur
    have hput := foldlM_singleton_ok hputs
    refine ⟨_, _, readNode_leaf rfl (Raw.type_ne_end hv) hid hparent hordinal hpos hread hput ?_, hid, ?_⟩
    · simp only [hlen]; omega
    · intro fuel; rw [Raw.turns, Nat.zero_add]; rfl
  | .array type lengthBytes content length =>
    obtain ⟨htype, hlength, hcontent⟩ := hv
    have hcont : type.isContainer = false := isContainer_of_array htype
    obtain ⟨s₁, hput₁, hputs₁⟩ := foldlM_cons_ok hputs
    have hput := foldlM_singleton_ok hputs₁
    have hread := readPayload_array known { st with stack := countChild st.stack } hsafe htype hlength hcontent hat hcur hput₁
    have hne : type ≠ .end := by
      intro h
      simp [h, NbtTag.isArray] at htype
    refine ⟨_, _, readNode_leaf hcont hne hid hparent hordinal hpos hread hput ?_, hid, ?_⟩
    · simp only [hlen]; omega
    · intro fuel; rw [Raw.turns, Nat.zero_add]; rfl
  | .list elementType lengthBytes declared items =>
    obtain ⟨hlength, hcount, hend, htypes, hitems⟩ := hv
    rw [Raw.payload] at hat
    obtain ⟨hat1, hat2⟩ := holds_append.mp hat
    rw [Raw.puts] at hputs
    obtain ⟨s₁, hput₁, hputs₁⟩ := foldlM_cons_ok hputs
    obtain ⟨s₂, hput₂, hputs₂⟩ := foldlM_append_ok hputs₁
    have hput₃ := foldlM_singleton_ok hputs₂
    have hread := readPayload_list known store { st with stack := countChild st.stack } hlength hcount hend hat1 hcur
    simp only [Raw.depth] at hdepth
    refine ⟨_, _, readNode_ok maxDepth (show NbtTag.list ≠ .end by decide) hid hparent hordinal hpos hread (s := s₁) hput₁ ?_, hid, ?_⟩
    · simp only [length_cons, hlen]; omega
    · intro fuel
      have hloop := scan_items hsafe items hitems elementType htypes pl (.list elementType lengthBytes declared items)
        rfl 0 { cursor := pl.payload + 1 + lengthBytes.length
                stack := listFrame pl (.list elementType lengthBytes declared items) 0 items.length
                  :: countChild st.stack
                nodes := st.nodes + 1, store := s₁ }
        (countChild st.stack) rfl
        (by rwa [length_cons, ← Nat.add_assoc, Nat.add_right_comm] at hat2) (by simp only [hlen]; omega) s₂
        (by simp only [← hid]; exact hput₂)
      rw [Raw.turns, show Raw.itemsTurns items + 1 + fuel = Raw.itemsTurns items + (fuel + 1) by omega, hloop (fuel + 1)]
      refine scanLoop_cons rfl ?_
      have hfinal : ∀ n : Nat, n = pl.payload + (Raw.list elementType lengthBytes declared items).payload.length →
          store.put s₂ { { (Raw.list elementType lengthBytes declared items).opened pl with
              childCount := 0 + items.length } with endAt := some n } = .ok s := by
        intro n hn
        rw [hn, Nat.zero_add]
        exact hput₃
      have hposn : pl.payload + 1 + lengthBytes.length + (Raw.payloads items).length
          = pl.payload + (Raw.list elementType lengthBytes declared items).payload.length := by
        simp only [Raw.payload, length_append, length_cons]
        omega
      rw [scanStep, get_bind]
      simp only [listFrame]
      rw [closeFrame_ok (hfinal _ hposn)]
      simp only [after, Raw.size, EStateM.Result.ok.injEq, true_and]
      rw [hposn, Nat.add_assoc]
  | .compound entries =>
    rw [Raw.payload] at hat
    obtain ⟨hat1, hat2⟩ := holds_append.mp hat
    rw [Raw.puts] at hputs
    obtain ⟨s₁, hput₁, hputs₁⟩ := foldlM_cons_ok hputs
    obtain ⟨s₂, hput₂, hputs₂⟩ := foldlM_append_ok hputs₁
    have hput₃ := foldlM_singleton_ok hputs₂
    have hread : readPayload (flatCursor bytes known encoding) encoding store (pl.node .compound)
        { st with stack := countChild st.stack } = .ok ((Raw.compound entries).opened pl)
          { st with stack := compoundFrame pl (.compound entries) 0 :: countChild st.stack } := rfl
    simp only [Raw.depth] at hdepth
    refine ⟨_, _, readNode_ok maxDepth (show NbtTag.compound ≠ .end by decide) hid hparent hordinal hpos hread (s := s₁) hput₁ ?_, hid, ?_⟩
    · simp only [length_cons, hlen]; omega
    · intro fuel
      have hloop := scan_entries hsafe entries hv pl (.compound entries) 0
        { cursor := st.cursor, stack := compoundFrame pl (.compound entries) 0 :: countChild st.stack
          nodes := st.nodes + 1, store := s₁ }
        (countChild st.stack) rfl (by simpa only [hcur] using hat1) (by simp only [hlen]; omega) s₂
        (by simp only [← hid, hcur]; exact hput₂)
      rw [Raw.turns, show Raw.entriesTurns entries + 1 + fuel = Raw.entriesTurns entries + (fuel + 1) by omega,
        hloop (fuel + 1)]
      refine scanLoop_cons rfl ?_
      have hbyte : onCursor (flatCursor bytes known encoding).byte
          { cursor := st.cursor + (Raw.entriesBytes entries).length
            stack := compoundFrame pl (.compound entries) (0 + entries.length) :: countChild st.stack
            nodes := st.nodes + 1 + Raw.entriesSize entries, store := s₂ }
          = .ok NbtTag.end.code { cursor := st.cursor + (Raw.entriesBytes entries).length + 1
                                  stack := compoundFrame pl (.compound entries) (0 + entries.length) :: countChild st.stack
                                  nodes := st.nodes + 1 + Raw.entriesSize entries, store := s₂ } :=
        onCursor_ok _ (by rw [hcur]; exact flatByte_holds hat2)
      have hposn : st.cursor + (Raw.entriesBytes entries).length + 1
          = pl.payload + (Raw.compound entries).payload.length := by
        simp only [Raw.payload, length_append, length_cons, length_nil]
        omega
      rw [scanStep, get_bind]
      simp only [compoundFrame]
      simp only [compoundFrame] at hbyte
      rw [bind_ok hbyte, bind_ok (orThrow_ok (assertTag_code NbtTag.end _)), if_pos rfl]
      have hfinal : store.put s₂ { { (Raw.compound entries).opened pl with childCount := 0 + entries.length } with
          endAt := some (st.cursor + (Raw.entriesBytes entries).length + 1) } = .ok s := by
        rw [hposn, Nat.zero_add]
        exact hput₃
      rw [closeFrame_ok hfinal]
      simp only [after, Raw.size, EStateM.Result.ok.injEq, true_and]
      rw [hposn, Nat.add_assoc]

theorem scan_items (hsafe : bytes.length ≤ maxSafeInteger) (items : List Raw) (hitems : ValidItems encoding items)
    (elementType : NbtTag) (htypes : ∀ r ∈ items, r.type = elementType) (pl : Place) (self : Raw)
    (helement : (self.opened pl).elementType = some elementType) (done : Nat) (st : ScanState Nat τ)
    (rest : List Frame) (hstack : st.stack = listFrame pl self done items.length :: rest)
    (hat : Holds bytes st.cursor (Raw.payloads items)) (hdepth : rest.length + (1 + Raw.depths items) ≤ maxDepth) (s : τ)
    (hputs : (Raw.itemsPuts (self.opened pl).id done st.nodes st.cursor items).foldlM store.put st.store = .ok s) :
    ∀ fuel, scanLoop (flatCursor bytes known encoding) encoding store maxDepth (Raw.itemsTurns items + fuel) st
      = scanLoop (flatCursor bytes known encoding) encoding store maxDepth fuel
        { cursor := st.cursor + (Raw.payloads items).length
          stack := listFrame pl self (done + items.length) 0 :: rest
          nodes := st.nodes + Raw.sizes items, store := s } := by
  match items with
  | [] =>
    intro fuel
    cases hputs
    rw [Raw.itemsTurns, Nat.zero_add]
    congr 1
    obtain ⟨cursor, stack, nodes, store⟩ := st
    simp only at hstack
    subst hstack
    rfl
  | r :: rs =>
    intro fuel
    obtain ⟨hv, hvs⟩ := hitems
    obtain ⟨hat1, hat2⟩ := holds_append.mp hat
    obtain ⟨s₁, hput₁, hputs₁⟩ := foldlM_append_ok hputs
    simp only [Raw.depths] at hdepth
    have hmax := le_max_left r.depth (Raw.depths rs)
    have hmax' := le_max_right r.depth (Raw.depths rs)
    obtain ⟨node, st', hread, -, hloop⟩ := readNode_raw hsafe r hv
      (Place.item (self.opened pl).id done st.nodes st.cursor)
      { st with stack := listFrame pl self done rs.length :: rest } hat1 rfl rfl rfl rfl
      (by simp only [length_cons]; omega) s₁ hput₁
    have hstep : scanStep (flatCursor bytes known encoding) encoding store maxDepth
        (listFrame pl self done (rs.length + 1)) rest st = .ok () st' := by
      rw [scanStep, get_bind]
      simp only [listFrame, set_bind]
      have hel : ({ self.opened pl with childCount := done } : NbtNode).elementType.getD .end = r.type := by
        rw [htypes r (by simp)]
        simp [helement]
      rw [hel]
      exact discard_ok hread
    rw [Raw.itemsTurns, show 1 + r.turns + Raw.itemsTurns rs + fuel = r.turns + (Raw.itemsTurns rs + fuel) + 1 by omega,
      scanLoop_cons (by simpa using hstack) hstep, hloop]
    have hnext := scan_items hsafe rs hvs elementType (fun r' h => htypes r' (by simp [h])) pl self helement (done + 1)
      (after { st with stack := listFrame pl self done rs.length :: rest } r
        (Place.item (self.opened pl).id done st.nodes st.cursor) s₁) rest rfl hat2 (by omega) s hputs₁ fuel
    rw [hnext]
    simp only [after, Place.item, Raw.payloads, Raw.sizes, length_append, length_cons]
    congr 2
    · omega
    · congr 2
      omega
    · omega

theorem scan_entries (hsafe : bytes.length ≤ maxSafeInteger) (entries : List (RawText × Raw))
    (hentries : ValidEntries encoding entries) (pl : Place) (self : Raw) (done : Nat) (st : ScanState Nat τ)
    (rest : List Frame) (hstack : st.stack = compoundFrame pl self done :: rest)
    (hat : Holds bytes st.cursor (Raw.entriesBytes entries))
    (hdepth : rest.length + (1 + Raw.entriesDepth entries) ≤ maxDepth) (s : τ)
    (hputs : (Raw.entriesPuts (self.opened pl).id done st.nodes st.cursor entries).foldlM store.put st.store = .ok s) :
    ∀ fuel, scanLoop (flatCursor bytes known encoding) encoding store maxDepth (Raw.entriesTurns entries + fuel) st
      = scanLoop (flatCursor bytes known encoding) encoding store maxDepth fuel
        { cursor := st.cursor + (Raw.entriesBytes entries).length
          stack := compoundFrame pl self (done + entries.length) :: rest
          nodes := st.nodes + Raw.entriesSize entries, store := s } := by
  match entries with
  | [] =>
    intro fuel
    cases hputs
    rw [Raw.entriesTurns, Nat.zero_add]
    congr 1
    obtain ⟨cursor, stack, nodes, store⟩ := st
    simp only at hstack
    subst hstack
    rfl
  | (name, r) :: es =>
    intro fuel
    obtain ⟨hname, hv, hvs⟩ := hentries
    rw [Raw.entriesBytes, append_assoc, cons_append, holds_cons] at hat
    obtain ⟨hattag, hat⟩ := hat
    obtain ⟨hatname, hat⟩ := holds_append.mp hat
    obtain ⟨hat1, hat2⟩ := holds_append.mp hat
    obtain ⟨s₁, hput₁, hputs₁⟩ := foldlM_append_ok hputs
    simp only [Raw.entriesDepth] at hdepth
    have hmax := le_max_left r.depth (Raw.entriesDepth es)
    have hmax' := le_max_right r.depth (Raw.entriesDepth es)
    obtain ⟨node, st', hread, -, hloop⟩ := readNode_raw hsafe r hv
      (Place.entry (self.opened pl).id done st.nodes st.cursor name)
      { st with cursor := st.cursor + 1 + name.bytes.length, stack := compoundFrame pl self done :: rest }
      hat1 rfl rfl rfl rfl (by simp only [length_cons]; omega) s₁ hput₁
    have hbyte : onCursor (flatCursor bytes known encoding).byte st = .ok r.type.code { st with cursor := st.cursor + 1 } :=
      onCursor_ok _ (flatByte_holds hattag)
    have hstring : onCursor ((flatCursor bytes known encoding).string encoding) { st with cursor := st.cursor + 1 }
        = .ok ⟨st.cursor + 1 + name.lengthBytes.length, name.content.length⟩
          { st with cursor := st.cursor + 1 + name.bytes.length } :=
      onCursor_ok _ (string_holds known hsafe hname hatname)
    have hstep : scanStep (flatCursor bytes known encoding) encoding store maxDepth (compoundFrame pl self done) rest st
        = .ok () st' := by
      rw [scanStep, get_bind]
      simp only [compoundFrame]
      rw [bind_ok hbyte, bind_ok (orThrow_ok (assertTag_code r.type _)), if_neg (Raw.type_ne_end hv), bind_ok hstring]
      rw [hstack]
      exact discard_ok hread
    rw [Raw.entriesTurns,
      show 1 + r.turns + Raw.entriesTurns es + fuel = r.turns + (Raw.entriesTurns es + fuel) + 1 by omega,
      scanLoop_cons hstack hstep, hloop]
    have hnext := scan_entries hsafe es hvs pl self (done + 1)
      (after { st with cursor := st.cursor + 1 + name.bytes.length, stack := compoundFrame pl self done :: rest } r
        (Place.entry (self.opened pl).id done st.nodes st.cursor name) s₁) rest rfl hat2 (by omega) s hputs₁ fuel
    rw [hnext]
    simp only [after, Place.entry, Raw.entriesBytes, Raw.entriesSize, length_append, length_cons]
    congr 2
    · omega
    · congr 2
      omega
    · omega

end

end Scan

end Cantrip.Nbt
