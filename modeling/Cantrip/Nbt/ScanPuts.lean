import Cantrip.Lib.Post
import Cantrip.Nbt.Document
import Cantrip.Nbt.Published
import Cantrip.Nbt.Spelling

/-!
# The records a scan publishes

Whatever bytes are scanned, and wherever the scan stops, the records put so far are `Published`, and after a
scan that returns every one of them is complete (`scanNbt_published`). The invariant `Scanning` ties the open
containers to the index: each of them is known, open, and counts the children it has been given.
-/

namespace Cantrip.Nbt

open Lib MemoryNbtIndex List Option

section Bounds

variable {bytes : Bytes} {known : Bool} {encoding : NbtEncoding} {p q : Nat}

variable {v : Int} {n : Nat}

theorem skip_bound (h : (flatCursor bytes known encoding).skip n p = .ok q) : q = p + n ∧ q ≤ bytes.length := by
  simp only [flatCursor, flatSkip, bind, Except.bind] at h
  split at h
  · cases h
  · split_ifs at h
    cases h
    exact ⟨rfl, by omega⟩

theorem varint_bound {bits : Nat} {zigzag : Bool} (h : (flatCursor bytes known encoding).varint bits zigzag p = .ok (v, q)) :
    p < q ∧ q ≤ bytes.length ∧ ∃ n < 2 ^ bits, v = if zigzag then unzigzag n else n := by
  simp only [CursorOps.varint, bind, Except.bind] at h
  split at h
  · cases h
  · next result hresult =>
    cases h
    obtain ⟨h1, h2, h3⟩ := varintGo_bound hresult
    exact ⟨h1, h2, _, h3, rfl⟩

theorem unzigzag_bounds (h : n < 2 ^ 32) : -2147483648 ≤ unzigzag n ∧ unzigzag n ≤ 2147483647 := by
  unfold unzigzag
  rcases Nat.mod_two_eq_zero_or_one n with hmod | hmod
  · rw [hmod]
    simp only [Nat.cast_zero, neg_zero, xor_zero_right]
    omega
  · rw [hmod]
    simp only [Nat.cast_one, xor_neg_one]
    omega

theorem int_bound (hp : p ≤ bytes.length) (h : (flatCursor bytes known encoding).int encoding p = .ok (v, q)) :
    p < q ∧ q ≤ bytes.length ∧ -2147483648 ≤ v ∧ v ≤ 2147483647 := by
  unfold CursorOps.int at h
  split_ifs at h
  · obtain ⟨h1, h2, n, hn, rfl⟩ := varint_bound h
    exact ⟨h1, h2, unzigzag_bounds hn⟩
  · obtain ⟨h1, h2, bs, hlen, rfl⟩ := fixed_bound hp h
    have hlt := getUint_lt encoding.isLittle bs
    rw [hlen] at hlt
    have hbounds := toSigned_bounds 4 (getUint encoding.isLittle bs) hlt
    refine ⟨by omega, h2, ?_⟩
    simp only [viewInt, Bool.false_and, Bool.false_eq_true, if_false, getInt, hlen]
    norm_num at hbounds
    omega

theorem string_bound {span : NbtSpan} (hp : p ≤ bytes.length)
    (h : (flatCursor bytes known encoding).string encoding p = .ok (span, q)) :
    p < q ∧ q ≤ bytes.length ∧ span.offset + span.length = q := by
  simp only [CursorOps.string, bind, Except.bind] at h
  match hlen : (flatCursor bytes known encoding).stringLength encoding p with
  | .error e =>
    rw [hlen] at h
    cases h
  | .ok (length, p₁) =>
    have hp₁ : p < p₁ ∧ p₁ ≤ bytes.length := by
      unfold CursorOps.stringLength at hlen
      split_ifs at hlen
      · obtain ⟨h1, h2, -⟩ := varint_bound hlen
        exact ⟨h1, h2⟩
      · obtain ⟨h1, h2, -⟩ := fixed_bound hp hlen
        exact ⟨by omega, h2⟩
    rw [hlen] at h
    simp only at h
    match hskip : (flatCursor bytes known encoding).skip length.toNat p₁ with
    | .error e =>
      rw [hskip] at h
      cases h
    | .ok p₂ =>
      rw [hskip] at h
      cases h
      obtain ⟨rfl, h2⟩ := skip_bound hskip
      exact ⟨by omega, h2, rfl⟩

end Bounds

/-! ## The invariant -/

/-- A store that only writes down what is put. -/
def logStore : IndexStore (List NbtNode) := ⟨fun log node => .ok (log ++ [node])⟩

abbrev LogState := ScanState Nat (List NbtNode)

/-- What holds wherever the scan stops. -/
def Emitted (st : LogState) : Prop := ∃ ix count, Published st.store ix count

/-- An open container. -/
structure FrameOk (ix : MemoryNbtIndex) (position : Nat) (frame : Frame) : Prop where
  previous : ∃ previous, ix.nodes frame.node.id = some previous ∧ previous.endAt = none ∧
    previous.parent = frame.node.parent ∧ previous.ordinal = frame.node.ordinal ∧ previous.start = frame.node.start
  counted : frame.node.childCount = (ix.lists frame.node.id).length
  publishable : frame.node.Publishable
  payload : frame.node.payload ≤ position

structure Scanning (bytes : Bytes) (ix : MemoryNbtIndex) (st : LogState) : Prop where
  published : Published st.store ix st.nodes
  frames : ∀ frame ∈ st.stack, FrameOk ix st.cursor frame
  distinct : (st.stack.map (·.node.id)).Nodup
  opened : ∀ i node, ix.nodes i = some node → node.endAt = none → ∃ frame ∈ st.stack, frame.node.id = i
  position : st.cursor ≤ bytes.length
  -- every node costs a byte, and a list header one more than its node
  budget : st.nodes ≤ st.cursor
  spare : ∀ frame rest, st.stack = frame :: rest → frame.remaining.isSome → st.nodes + 1 ≤ st.cursor

variable {bytes : Bytes} {known : Bool} {encoding : NbtEncoding} {ix : MemoryNbtIndex} {st : LogState}

theorem Scanning.emitted (h : Scanning bytes ix st) : Emitted st := ⟨ix, st.nodes, h.published⟩

variable {c : Nat} {node : NbtNode}

theorem Scanning.advance (h : Scanning bytes ix st) (hle : st.cursor ≤ c) (hc : c ≤ bytes.length) :
    Scanning bytes ix { st with cursor := c } := by
  refine ⟨h.published, ?_, h.distinct, h.opened, hc, le_trans h.budget hle, ?_⟩
  · intro frame hf
    have := h.frames frame hf
    exact ⟨this.previous, this.counted, this.publishable, le_trans this.payload hle⟩
  · intro frame rest hstack hsome
    exact le_trans (h.spare frame rest hstack hsome) hle

theorem post_read {α : Type} {f : Nat → Except NbtError (α × Nat)} {Q : α → LogState → Prop} (herror : Emitted st)
    (h : ∀ a c, f st.cursor = .ok (a, c) → Q a { st with cursor := c }) : Post (onCursor f) st Emitted Q := by
  unfold Post onCursor
  match hf : f st.cursor with
  | .ok (a, c) => exact h a c hf
  | .error e => exact herror

theorem post_onCursor {α β : Type} {f : Nat → Except NbtError (α × Nat)} {g : α → ScanM Nat (List NbtNode) β}
    {Q : β → LogState → Prop} (herror : Emitted st)
    (h : ∀ a c, f st.cursor = .ok (a, c) → Post (g a) { st with cursor := c } Emitted Q) :
    Post (onCursor f >>= g) st Emitted Q :=
  Post.bind (post_read herror h)

theorem post_orThrow {α β : Type} {x : Except NbtError α} {g : α → ScanM Nat (List NbtNode) β}
    {Q : β → LogState → Prop} (herror : Emitted st) (h : ∀ a, x = .ok a → Post (g a) st Emitted Q) :
    Post (orThrow x >>= g) st Emitted Q := by
  apply Post.bind
  unfold Post orThrow
  match hx : x with
  | .ok a => exact h a rfl
  | .error e => exact herror

theorem post_skip {β : Type} {n : Nat} {g : Unit → ScanM Nat (List NbtNode) β} {Q : β → LogState → Prop}
    (herror : Emitted st)
    (h : st.cursor + n ≤ bytes.length → Post (g ()) { st with cursor := st.cursor + n } Emitted Q) :
    Post (skipBytes (flatCursor bytes known encoding) n >>= g) st Emitted Q := by
  refine post_onCursor herror fun a c hc => ?_
  match hskip : (flatCursor bytes known encoding).skip n st.cursor with
  | .error e =>
    rw [hskip] at hc
    cases hc
  | .ok q =>
    rw [hskip] at hc
    cases hc
    obtain ⟨rfl, hle⟩ := skip_bound hskip
    exact h hle

theorem post_putNode {β : Type} {g : Unit → ScanM Nat (List NbtNode) β} {Q : β → LogState → Prop}
    (h : Post (g ()) { st with store := st.store ++ [node] } Emitted Q) :
    Post (putNode logStore node >>= g) st Emitted Q := h

/-! ## Payloads -/

structure SameNode (node node' : NbtNode) : Prop where
  id : node'.id = node.id
  parent : node'.parent = node.parent
  ordinal : node'.ordinal = node.ordinal
  type : node'.type = node.type
  start : node'.start = node.start
  payload : node'.payload = node.payload
  endAt : node'.endAt = node.endAt
  childCount : node'.childCount = node.childCount

theorem SameNode.refl (node : NbtNode) : SameNode node node := ⟨rfl, rfl, rfl, rfl, rfl, rfl, rfl, rfl⟩

/-- The payload of `node` was read, or the node was opened. -/
structure PayloadRead (bytes : Bytes) (st : LogState) (node node' : NbtNode) (st' : LogState) : Prop where
  same : SameNode node node'
  publishable : node'.Publishable
  nodes : st'.nodes = st.nodes
  cursor : st.cursor ≤ st'.cursor
  position : st'.cursor ≤ bytes.length
  stack : (node.type.isContainer = false ∧ st'.stack = st.stack ∧ st.cursor + 1 ≤ st'.cursor) ∨
    (node.type.isContainer = true ∧ ∃ remaining, st'.stack = ⟨node', remaining⟩ :: st.stack ∧
      (remaining.isSome → st.cursor + 2 ≤ st'.cursor))
  store : st'.store = st.store ∨ (node.type.isContainer = false ∧ st'.store = st.store ++ [node'])

theorem payloadRead_skip (hpub : node.Publishable) (hleaf : node.type.isContainer = false)
    (hlt : st.cursor < c) (hc : c ≤ bytes.length) : PayloadRead bytes st node node { st with cursor := c } :=
  ⟨.refl node, hpub, rfl, by simp only; omega, hc, .inl ⟨hleaf, rfl, hlt⟩, .inl rfl⟩

theorem readArray_read (hsafe : bytes.length ≤ maxSafeInteger) (hpub : node.Publishable)
    (hleaf : node.type.isContainer = false) (hpos : st.cursor ≤ bytes.length) (hemit : Emitted st)
    (hfirst : ∀ node', SameNode node node' → node'.Publishable → Emitted { st with store := st.store ++ [node'] }) :
    Post (readArray (flatCursor bytes known encoding) encoding logStore node) st Emitted
      (PayloadRead bytes st node) := by
  refine post_onCursor hemit fun length c hc => ?_
  obtain ⟨hlt, hle, hlow, hhigh⟩ := int_bound hpos hc
  by_cases hneg : length < 0
  · rw [if_pos hneg]
    exact hemit
  · rw [if_neg hneg]
    refine Post.get ?_
    have hwidth : node.type.width ≤ 8 := by
      cases node.type <;> decide
    have hdata : length.toNat * node.type.width ≤ maxSafeInteger := by
      calc length.toNat * node.type.width ≤ 2147483647 * 8 := Nat.mul_le_mul (by omega) hwidth
        _ ≤ maxSafeInteger := by decide
    set node' : NbtNode := { node with
      length := some length.toNat
      data := some ⟨c, length.toNat * node.type.width⟩ }
    have hsame : SameNode node node' := ⟨rfl, rfl, rfl, rfl, rfl, rfl, rfl, rfl⟩
    have hpub' : node'.Publishable := { hpub with
      length := by
        intro l hl
        cases hl
        exact le_trans (by omega : length.toNat ≤ 2147483647) (by decide)
      data := by
        intro s hs
        cases hs
        exact ⟨le_trans hle hsafe, hdata⟩ }
    refine post_putNode (post_skip ?_ fun hskip => Post.pure ?_)
    · exact hfirst node' hsame hpub'
    · exact ⟨hsame, hpub', rfl, by simp only; omega, hskip, .inl ⟨hleaf, rfl, by simp only; omega⟩, .inr ⟨hleaf, rfl⟩⟩

theorem readList_read (hpub : node.Publishable) (hlist : node.type = .list) (hemit : Emitted st) :
    Post (readList (flatCursor bytes known encoding) encoding node) st Emitted (PayloadRead bytes st node) := by
  refine post_onCursor hemit fun b c hc => post_onCursor hemit fun length d hd => ?_
  obtain ⟨rfl, hc'⟩ := flatByte_bound hc
  obtain ⟨hlt, hle, hlow, hhigh⟩ := int_bound hc' hd
  refine post_orThrow hemit fun elementType _ => ?_
  split_ifs
  · exact hemit
  · refine ⟨⟨rfl, rfl, rfl, rfl, rfl, rfl, rfl, rfl⟩, { hpub with
      length := ?_
      declaredLength := ?_ }, rfl, by simp only at hlt ⊢; omega, hle, .inr ⟨by rw [hlist]; rfl, some length.toNat, rfl, ?_⟩,
      .inl rfl⟩
    · intro l hl
      cases hl
      exact le_trans (by omega : length.toNat ≤ 2147483647) (by decide)
    · intro d hd
      cases hd
      exact ⟨hlow, hhigh⟩
    · intro _
      simp only at hlt ⊢
      omega

theorem readPayload_read (hsafe : bytes.length ≤ maxSafeInteger) (hpub : node.Publishable)
    (hpos : st.cursor ≤ bytes.length) (hemit : Emitted st)
    (hfirst : ∀ node', SameNode node node' → node'.Publishable → Emitted { st with store := st.store ++ [node'] }) :
    Post (readPayload (flatCursor bytes known encoding) encoding logStore node) st Emitted
      (PayloadRead bytes st node) := by
  have hskip : ∀ n, 0 < n → node.type.isContainer = false →
      Post (do skipBytes (flatCursor bytes known encoding) n; pure node : ScanM Nat (List NbtNode) NbtNode) st Emitted
        (PayloadRead bytes st node) := fun n hn hleaf =>
    post_skip hemit fun hle => payloadRead_skip hpub hleaf (by omega) hle
  have hvar : ∀ n bits, 0 < n → node.type.isContainer = false →
      Post (do
          if encoding.varints then discard (onCursor ((flatCursor bytes known encoding).varint bits true))
          else skipBytes (flatCursor bytes known encoding) n
          pure node : ScanM Nat (List NbtNode) NbtNode) st Emitted (PayloadRead bytes st node) := by
    intro n bits hn hleaf
    by_cases hv : encoding.varints
    · simp only [hv, if_true]
      refine Post.bind (Post.discard (post_read hemit fun v c hread => ?_))
      obtain ⟨hlt, hle, -⟩ := varint_bound hread
      exact payloadRead_skip hpub hleaf hlt hle
    · simp only [hv]
      exact hskip n hn hleaf
  unfold readPayload
  split
  · exact hemit
  · next htype => exact hskip 1 (by decide) (by rw [htype]; rfl)
  · next htype => exact hskip 2 (by decide) (by rw [htype]; rfl)
  · next htype => exact hvar 4 32 (by decide) (by rw [htype]; rfl)
  · next htype => exact hvar 8 64 (by decide) (by rw [htype]; rfl)
  · next htype => exact hskip 4 (by decide) (by rw [htype]; rfl)
  · next htype => exact hskip 8 (by decide) (by rw [htype]; rfl)
  · next htype =>
    refine post_onCursor hemit fun span c hc => ?_
    obtain ⟨hlt, hle, hspan⟩ := string_bound hpos hc
    refine ⟨⟨rfl, rfl, rfl, rfl, rfl, rfl, rfl, rfl⟩, { hpub with data := ?_ }, rfl, by simp only; omega, hle,
      .inl ⟨by rw [htype]; rfl, rfl, hlt⟩, .inl rfl⟩
    intro s hs
    cases hs
    exact ⟨by omega, by omega⟩
  · next htype => exact readArray_read hsafe hpub (by rw [htype]; rfl) hpos hemit hfirst
  · next htype => exact readArray_read hsafe hpub (by rw [htype]; rfl) hpos hemit hfirst
  · next htype => exact readArray_read hsafe hpub (by rw [htype]; rfl) hpos hemit hfirst
  · next htype => exact readList_read hpub htype hemit
  · next htype =>
    exact ⟨.refl node, hpub, rfl, le_rfl, hpos, .inr ⟨by rw [htype]; rfl, none, rfl, by simp⟩, .inl rfl⟩

/-! ## Nodes -/

theorem announce_first (h : Scanning bytes ix st) (hpub : node.Publishable) (hid : node.id = st.nodes)
    (hparent : node.parent = st.stack.head?.map (·.node.id))
    (hordinal : node.ordinal = (st.stack.head?.map (·.node.childCount)).getD 0) (hcount : node.childCount = 0) :
    ∃ ix', Published (st.store ++ [node]) ix' (st.nodes + 1) ∧
      (∀ i, ix'.nodes i = if i = node.id then some node else ix.nodes i) ∧
      ∀ i, ix'.lists i = if some i = node.parent then ix.lists i ++ [some node.id] else ix.lists i := by
  have hunder : ∀ p, node.parent = some p →
      (∃ record, ix.nodes p = some record ∧ record.endAt = none) ∧ node.ordinal = (ix.lists p).length := by
    intro p hp
    rw [hparent] at hp
    obtain ⟨frame, hframe, rfl⟩ := map_eq_some_iff.mp hp
    have hok := h.frames frame (mem_of_mem_head? hframe)
    obtain ⟨previous, hprev, hopen, -⟩ := hok.previous
    refine ⟨⟨previous, hprev, hopen⟩, ?_⟩
    rw [hordinal, hframe]
    exact hok.counted
  obtain ⟨ix', hput, -, hnodes, hlists⟩ := consistent_first h.published.consistent hpub hid hunder hcount
  exact ⟨ix', .put h.published hpub (.first hid hunder hcount) hput, hnodes, hlists⟩

theorem announce_again {log : List NbtNode} {count : Nat} (h : Published log ix count) {previous : NbtNode}
    (hpub : node.Publishable) (hold : ix.nodes node.id = some previous) (hopen : previous.endAt = none)
    (hparent : previous.parent = node.parent) (hordinal : previous.ordinal = node.ordinal)
    (hstart : previous.start = node.start) (hcount : node.childCount = (ix.lists node.id).length) :
    ∃ ix', Published (log ++ [node]) ix' count ∧ (∀ i, ix'.nodes i = if i = node.id then some node else ix.nodes i) ∧
      ∀ i, ix'.lists i = ix.lists i := by
  obtain ⟨ix', hput, -, hnodes, hlists⟩ := consistent_again h.consistent hpub hold hparent hordinal hcount
  exact ⟨ix', .put h hpub (.again previous hold hopen hparent hordinal hstart hcount) hput, hnodes, hlists⟩

theorem countChild_ids (stack : List Frame) : (countChild stack).map (·.node.id) = stack.map (·.node.id) := by
  cases stack <;> rfl

theorem frames_counted (h : Scanning bytes ix st) (hsafe : bytes.length ≤ maxSafeInteger)
    (hbudget : st.nodes + 1 ≤ st.cursor) {ix' : MemoryNbtIndex} {parent : Option Nat} (hc : st.cursor ≤ c)
    (hparent : parent = st.stack.head?.map (·.node.id)) (hcons : Consistent ix' (st.nodes + 1))
    (hnodes : ∀ i, i ≠ st.nodes → ix'.nodes i = ix.nodes i)
    (hlists : ∀ i, ix'.lists i = if some i = parent then ix.lists i ++ [some st.nodes] else ix.lists i) :
    ∀ frame ∈ countChild st.stack, FrameOk ix' c frame := by
  have hold : ∀ frame ∈ st.stack, ix'.nodes frame.node.id = ix.nodes frame.node.id := by
    intro frame hf
    obtain ⟨previous, hprev, -⟩ := (h.frames frame hf).previous
    have := h.published.consistent.lt_count hprev
    exact hnodes _ (by omega)
  have hpos := h.position
  match hstack : st.stack with
  | [] =>
    intro frame hf
    cases hf
  | top :: rest =>
    have hdistinct := h.distinct
    rw [hstack] at hparent hold hdistinct
    rw [map_cons, nodup_cons] at hdistinct
    replace hparent : parent = some top.node.id := hparent
    intro frame hf
    rcases mem_cons.mp hf with rfl | hf
    · have htop := h.frames top (by simp [hstack])
      have hlist : ix'.lists top.node.id = ix.lists top.node.id ++ [some st.nodes] := by
        rw [hlists, if_pos hparent.symm]
      have hshort := hcons.short top.node.id (by rw [hlist]; simp)
      have hcount : top.node.childCount + 1 = (ix'.lists top.node.id).length := by
        rw [hlist, length_append, length_singleton, ← htop.counted]
      refine ⟨?_, hcount, { htop.publishable with childCount := ?_ }, le_trans htop.payload hc⟩
      · obtain ⟨previous, hprev, hrest⟩ := htop.previous
        exact ⟨previous, by rw [← hprev]; exact hold top (by simp), hrest⟩
      · simp only
        omega
    · have hframe := h.frames frame (by simp [hstack, hf])
      have hne : some frame.node.id ≠ parent := by
        rw [hparent]
        intro heq
        apply hdistinct.1
        rw [← some.inj heq]
        exact mem_map.mpr ⟨frame, hf, rfl⟩
      refine ⟨?_, ?_, hframe.publishable, le_trans hframe.payload hc⟩
      · obtain ⟨previous, hprev, hrest⟩ := hframe.previous
        exact ⟨previous, by rw [← hprev]; exact hold frame (by simp [hf]), hrest⟩
      · rw [hlists, if_neg hne]
        exact hframe.counted

theorem scanning_node (h : Scanning bytes ix st) (hsafe : bytes.length ≤ maxSafeInteger)
    (hbudget : st.nodes + 1 ≤ st.cursor) {st' : LogState} {ix' : MemoryNbtIndex}
    (hid : node.id = st.nodes) (hpub : node.Publishable) (hcount : node.childCount = 0)
    (hparent : node.parent = st.stack.head?.map (·.node.id))
    (hpayload : node.payload ≤ st'.cursor) (hcursor : st.cursor ≤ st'.cursor) (hpos : st'.cursor ≤ bytes.length)
    (hcounter : st'.nodes = st.nodes + 1) (hpublished : Published st'.store ix' (st.nodes + 1))
    (hnodes : ∀ i, ix'.nodes i = if i = node.id then some node else ix.nodes i)
    (hlists : ∀ i, ix'.lists i = if some i = node.parent then ix.lists i ++ [some node.id] else ix.lists i)
    (hstack : (st'.stack = countChild st.stack ∧ node.endAt.isSome ∧ st.cursor + 1 ≤ st'.cursor) ∨
      (node.endAt = none ∧ ∃ remaining, st'.stack = ⟨node, remaining⟩ :: countChild st.stack ∧
        (remaining.isSome → st.cursor + 2 ≤ st'.cursor))) : Scanning bytes ix' st' := by
  have hcons := hpublished.consistent
  have hframes := frames_counted h hsafe hbudget hcursor hparent hcons
    (fun i hi => by rw [hnodes, if_neg (by omega)]) (fun i => by rw [hlists, hid])
  have hfresh := h.published.consistent.fresh st.nodes le_rfl
  have hstale : ∀ i old, i ≠ node.id → ix'.nodes i = some old → old.endAt = none →
      ∃ frame ∈ countChild st.stack, frame.node.id = i := by
    intro i old hi hold hopen
    rw [hnodes, if_neg hi] at hold
    obtain ⟨frame, hframe, hfid⟩ := h.opened i old hold hopen
    have hmem : i ∈ (countChild st.stack).map (·.node.id) := by
      rw [countChild_ids, ← hfid]
      exact mem_map_of_mem hframe
    exact mem_map.mp hmem
  rcases hstack with ⟨hstack, hend, hroom⟩ | ⟨hend, remaining, hstack, hroom⟩
  · refine ⟨hcounter ▸ hpublished, by rw [hstack]; exact hframes, by rw [hstack, countChild_ids]; exact h.distinct, ?_, hpos,
      by omega, fun _ _ _ _ => by omega⟩
    intro i old hold hopen
    by_cases hi : i = node.id
    · rw [hnodes, if_pos hi] at hold
      cases hold
      rw [hopen] at hend
      cases hend
    · rw [hstack]
      exact hstale i old hi hold hopen
  · refine ⟨hcounter ▸ hpublished, ?_, ?_, ?_, hpos, by omega, ?_⟩
    · intro frame hf
      rw [hstack] at hf
      rcases mem_cons.mp hf with rfl | hf
      · refine ⟨⟨node, by rw [hnodes, if_pos rfl], hend, rfl, rfl, rfl⟩, ?_, hpub, hpayload⟩
        have hne : some node.id ≠ node.parent := by
          intro heq
          rw [hparent] at heq
          obtain ⟨frame, hframe, hfid⟩ := map_eq_some_iff.mp heq.symm
          obtain ⟨previous, hprev, -⟩ := (h.frames frame (mem_of_mem_head? hframe)).previous
          have := h.published.consistent.lt_count hprev
          omega
        simp only
        rw [hcount, hlists, if_neg hne, hid, hfresh.2]
        rfl
      · exact hframes frame hf
    · rw [hstack, map_cons, countChild_ids, nodup_cons]
      refine ⟨?_, h.distinct⟩
      intro hmem
      obtain ⟨frame, hframe, hfid⟩ := mem_map.mp hmem
      obtain ⟨previous, hprev, -⟩ := (h.frames frame hframe).previous
      have := h.published.consistent.lt_count hprev
      simp only at hfid
      omega
    · intro i old hold hopen
      rw [hstack]
      by_cases hi : i = node.id
      · exact ⟨_, mem_cons_self, hi.symm⟩
      · obtain ⟨frame, hframe, hfid⟩ := hstale i old hi hold hopen
        exact ⟨frame, mem_cons_of_mem _ hframe, hfid⟩
    · intro frame rest hcons' hsome
      rw [hstack] at hcons'
      cases hcons'
      have := hroom hsome
      omega

section

variable (hsafe : bytes.length ≤ maxSafeInteger)
include hsafe

theorem readNode_scanning (h : Scanning bytes ix st)
    (hbudget : st.nodes + 1 ≤ st.cursor) (maxDepth : Nat) (type : NbtTag) {start : Nat} (hstart : start ≤ st.cursor)
    {name : Option NbtSpan} (hname : ∀ s, name = some s → s.offset ≤ maxSafeInteger ∧ s.length ≤ maxSafeInteger) :
    Post (readNode (flatCursor bytes known encoding) encoding logStore maxDepth type start name) st Emitted
      fun _ st' => ∃ ix', Scanning bytes ix' st' := by
  have hpos := h.position
  unfold readNode
  by_cases hend : type = .end
  · rw [if_pos hend]
    exact h.emitted
  rw [if_neg hend]
  refine Post.get (Post.set ?_)
  set node : NbtNode := {
    id := st.nodes, parent := (st.stack.head?.map Frame.node).map NbtNode.id
    ordinal := ((st.stack.head?.map Frame.node).map NbtNode.childCount).getD 0
    type, name, start, payload := st.cursor, endAt := none, childCount := 0 }
  have hparent : node.parent = st.stack.head?.map (·.node.id) := by
    simp only [node, Option.map_map]
    rfl
  have hordinal : node.ordinal = (st.stack.head?.map (·.node.childCount)).getD 0 := by
    simp only [node, Option.map_map]
    rfl
  have hpub : node.Publishable := {
    id := by simp only [node]; omega
    parent := by
      intro p hp
      rw [hparent] at hp
      obtain ⟨frame, hframe, rfl⟩ := map_eq_some_iff.mp hp
      exact (h.frames frame (mem_of_mem_head? hframe)).publishable.id.le
    ordinal := by
      rw [hordinal]
      match hhead : st.stack.head? with
      | none => exact Nat.zero_le _
      | some frame => exact (h.frames frame (mem_of_mem_head? hhead)).publishable.childCount
    type := hend
    name := hname
    start := hstart
    payload := le_trans hpos hsafe
    endAt := fun e he => by cases he
    childCount := Nat.zero_le _
    length := fun l hl => by cases hl
    declaredLength := fun d hd => by cases hd
    data := fun s hs => by cases hs }
  have hfirst : ∀ node', SameNode node node' → node'.Publishable →
      ∃ ix', Published (st.store ++ [node']) ix' (st.nodes + 1) ∧
        (∀ i, ix'.nodes i = if i = node'.id then some node' else ix.nodes i) ∧
        ∀ i, ix'.lists i = if some i = node'.parent then ix.lists i ++ [some node'.id] else ix.lists i := by
    intro node' hsame hpub'
    exact announce_first h hpub' hsame.id (hsame.parent.trans hparent) (hsame.ordinal.trans hordinal) hsame.childCount
  have hpayload : Post (readPayload (flatCursor bytes known encoding) encoding logStore node)
      { st with stack := countChild st.stack } Emitted
      (PayloadRead bytes { st with stack := countChild st.stack } node) := by
    refine readPayload_read hsafe hpub hpos h.emitted ?_
    intro node' hsame hpub'
    obtain ⟨ix', hpublished, -⟩ := hfirst node' hsame hpub'
    exact ⟨ix', _, hpublished⟩
  refine Post.bind (hpayload.mono ?_)
  · intro node' st' hread
    refine Post.update (Post.get (post_putNode ?_))
    have hcursor := hread.cursor
    have hposition := hread.position
    have hsame := hread.same
    simp only at hcursor
    -- the final record of the node, whether it is the first one or completes an array
    have hfinal : ∀ final, SameNode node { final with endAt := none } → final.Publishable →
        final.endAt = none ∨ final.endAt = some st'.cursor →
        (final.endAt.isSome ↔ node.type.isContainer = false) → (final.endAt = none → final = node') →
        ∃ ix', Scanning bytes ix' { st' with nodes := st'.nodes + 1, store := st'.store ++ [final] } := by
      intro final hfsame hfpub hfend hfcontainer hfopen
      have hpayload : final.payload = st.cursor := hfsame.payload
      have hfid : final.id = node.id := hfsame.id
      have hfparent : final.parent = node.parent := hfsame.parent
      have hstack : (st'.stack = countChild st.stack ∧ final.endAt.isSome ∧ st.cursor + 1 ≤ st'.cursor) ∨
          (final.endAt = none ∧ ∃ remaining, st'.stack = ⟨final, remaining⟩ :: countChild st.stack ∧
            (remaining.isSome → st.cursor + 2 ≤ st'.cursor)) := by
        rcases hread.stack with ⟨hleaf, hstack, hroom⟩ | ⟨hcontainer, remaining, hstack, hroom⟩
        · exact .inl ⟨hstack, hfcontainer.mpr hleaf, hroom⟩
        · have hnone : final.endAt = none := by
            cases hfe : final.endAt with
            | none => rfl
            | some e =>
              have := hfcontainer.mp (by rw [hfe]; rfl)
              rw [hcontainer] at this
              cases this
          exact .inr ⟨hnone, remaining, by rw [hfopen hnone]; exact hstack, hroom⟩
      have hcounter : st'.nodes + 1 = st.nodes + 1 := by rw [hread.nodes]
      rcases hread.store with hstore | ⟨hleaf, hstore⟩
      · obtain ⟨ix', hpublished, hnodes, hlists⟩ := announce_first h hfpub hfid (hfparent.trans hparent)
          (hfsame.ordinal.trans hordinal) hfsame.childCount
        refine ⟨ix', scanning_node h hsafe hbudget hfid hfpub hfsame.childCount (hfparent.trans hparent)
          (by simp only; omega) hcursor hposition hcounter ?_ hnodes hlists hstack⟩
        simp only [hstore]
        exact hpublished
      · obtain ⟨ix₁, hpublished₁, hnodes₁, hlists₁⟩ := hfirst node' hsame hread.publishable
        have hne : some node'.id ≠ node'.parent := by
          intro heq
          rw [hsame.parent, hparent] at heq
          obtain ⟨frame, hframe, hfrid⟩ := map_eq_some_iff.mp heq.symm
          obtain ⟨previous, hprev, -⟩ := (h.frames frame (mem_of_mem_head? hframe)).previous
          have := h.published.consistent.lt_count hprev
          have := hsame.id
          simp only [node] at this
          omega
        have hself : final.id = node'.id := by rw [hfid, hsame.id]
        have hempty : ix₁.lists final.id = [] := by
          rw [hself, hlists₁, if_neg hne]
          have := h.published.consistent.fresh st.nodes le_rfl
          rw [show node'.id = st.nodes from hsame.id]
          exact this.2
        obtain ⟨ix₂, hpublished₂, hnodes₂, hlists₂⟩ := announce_again hpublished₁ hfpub
          (by rw [hself, hnodes₁, if_pos rfl]) hsame.endAt (by rw [hsame.parent, hfparent])
          (by rw [hsame.ordinal]; exact hfsame.ordinal.symm) (by rw [hsame.start]; exact hfsame.start.symm)
          (by rw [hempty]; exact hfsame.childCount)
        refine ⟨ix₂, scanning_node h hsafe hbudget hfid hfpub hfsame.childCount (hfparent.trans hparent)
          (by simp only; omega) hcursor hposition hcounter ?_ ?_ ?_ hstack⟩
        · simp only [hstore]
          exact hpublished₂
        · intro i
          rw [hnodes₂, hnodes₁, hself]
          split_ifs <;> rfl
        · intro i
          rw [hlists₂, hlists₁, hself, hsame.parent, hfparent]
    have hnode : ∃ ix', Scanning bytes ix' { st' with
        nodes := st'.nodes + 1
        store := st'.store ++ [if type.isContainer then node' else { node' with endAt := some st'.cursor }] } := by
      by_cases hcontainer : type.isContainer = true
      · rw [if_pos hcontainer]
        have hnone : node'.endAt = none := hsame.endAt
        refine hfinal node' ?_ hread.publishable (.inl hnone) ?_ (fun _ => rfl)
        · exact ⟨hsame.id, hsame.parent, hsame.ordinal, hsame.type, hsame.start, hsame.payload, rfl, hsame.childCount⟩
        · rw [hnone, show node.type = type from rfl, hcontainer]
          simp
      · rw [if_neg hcontainer]
        refine hfinal _ ?_ { hread.publishable with endAt := ?_ } (.inr rfl) ?_ (fun he => by cases he)
        · exact ⟨hsame.id, hsame.parent, hsame.ordinal, hsame.type, hsame.start, hsame.payload, rfl, hsame.childCount⟩
        · intro e he
          cases he
          have := hsame.payload
          simp only [node] at this
          exact ⟨by simp only; omega, le_trans hposition hsafe⟩
        · simpa [show node.type = type from rfl] using hcontainer
    obtain ⟨ix', hscanning⟩ := hnode
    refine Post.get ?_
    by_cases hdepth : maxDepth < st'.stack.length
    · rw [if_pos hdepth]
      exact hscanning.emitted
    · rw [if_neg hdepth]
      exact ⟨ix', hscanning⟩

/-! ## The loop -/

theorem closeFrame_scanning {frame : Frame} {rest : List Frame}
    (h : Scanning bytes ix st) (hstack : st.stack = frame :: rest) (hroom : st.nodes + 1 ≤ st.cursor) :
    Post (closeFrame (flatCursor bytes known encoding) logStore frame rest) st Emitted
      fun _ st' => ∃ ix', Scanning bytes ix' st' := by
  have hframe := h.frames frame (by simp [hstack])
  obtain ⟨previous, hprev, hopen, hparent, hordinal, hstart⟩ := hframe.previous
  have hpub : ({ frame.node with endAt := some st.cursor } : NbtNode).Publishable := { hframe.publishable with
    endAt := by
      intro e he
      cases he
      exact ⟨hframe.payload, le_trans h.position hsafe⟩ }
  obtain ⟨ix', hpublished, hnodes, hlists⟩ :=
    announce_again h.published hpub hprev hopen hparent hordinal hstart hframe.counted
  have hdistinct := h.distinct
  rw [hstack, map_cons, nodup_cons] at hdistinct
  refine Post.get (post_putNode ⟨ix', hpublished, ?_, hdistinct.2, ?_, h.position, h.budget, fun _ _ _ _ => hroom⟩)
  · intro other hother
    have hok := h.frames other (by rw [hstack]; exact mem_cons_of_mem _ hother)
    have hne : other.node.id ≠ frame.node.id := by
      intro heq
      apply hdistinct.1
      rw [← heq]
      exact mem_map.mpr ⟨other, hother, rfl⟩
    refine ⟨?_, by rw [hlists]; exact hok.counted, hok.publishable, hok.payload⟩
    obtain ⟨before, hbefore, hrest⟩ := hok.previous
    exact ⟨before, by rw [hnodes, if_neg hne]; exact hbefore, hrest⟩
  · intro i node hnode hnone
    rw [hnodes] at hnode
    split_ifs at hnode with hi
    · cases hnode
      cases hnone
    · obtain ⟨other, hother, hid⟩ := h.opened i node hnode hnone
      rw [hstack] at hother
      rcases mem_cons.mp hother with rfl | hmem
      · exact absurd hid.symm hi
      · exact ⟨other, hmem, hid⟩

theorem scanStep_scanning (maxDepth : Nat) {frame : Frame} {rest : List Frame}
    (h : Scanning bytes ix st) (hstack : st.stack = frame :: rest) :
    Post (scanStep (flatCursor bytes known encoding) encoding logStore maxDepth frame rest) st Emitted
      fun _ st' => ∃ ix', Scanning bytes ix' st' := by
  have hpos := h.position
  have hbudget := h.budget
  refine Post.get ?_
  split
  · refine post_onCursor h.emitted fun b c hc => ?_
    obtain ⟨rfl, hle⟩ := flatByte_bound hc
    have hnext := h.advance (Nat.le_succ _) hle
    refine post_orThrow hnext.emitted fun type _ => ?_
    by_cases hend : type = .end
    · rw [if_pos hend]
      exact closeFrame_scanning hsafe hnext hstack (by simp only; omega)
    · rw [if_neg hend]
      refine post_onCursor hnext.emitted fun span d hd => ?_
      obtain ⟨hlt, hle', hspan⟩ := string_bound hle hd
      have hafter := hnext.advance (by simp only; omega) hle'
      refine Post.discard (readNode_scanning hsafe hafter (by simp only at hlt ⊢; omega) maxDepth type
        (by simp only at hlt ⊢; exact le_trans (Nat.le_succ _) (le_of_lt hlt)) ?_)
      intro s hs
      cases hs
      exact ⟨by omega, by omega⟩
  · next hremaining => exact closeFrame_scanning hsafe h hstack (h.spare frame rest hstack (by rw [hremaining]; rfl))
  · next k hremaining =>
    have hspare := h.spare frame rest hstack (by rw [hremaining]; rfl)
    refine Post.set (Post.discard ?_)
    have hset : Scanning bytes ix { st with stack := { frame with remaining := some k } :: rest } := by
      refine ⟨h.published, ?_, ?_, ?_, hpos, hbudget, fun _ _ _ _ => hspare⟩
      · intro other hother
        rcases mem_cons.mp hother with rfl | hmem
        · have := h.frames frame (by simp [hstack])
          exact ⟨this.previous, this.counted, this.publishable, this.payload⟩
        · exact h.frames other (by simp [hstack, hmem])
      · have := h.distinct
        rw [hstack] at this
        exact this
      · intro i node hnode hnone
        obtain ⟨other, hother, hid⟩ := h.opened i node hnode hnone
        rw [hstack] at hother
        rcases mem_cons.mp hother with rfl | hmem
        · exact ⟨_, mem_cons_self, hid⟩
        · exact ⟨other, mem_cons_of_mem _ hmem, hid⟩
    exact readNode_scanning hsafe hset hspare maxDepth _ le_rfl (fun s hs => by cases hs)

theorem scanLoop_scanning (maxDepth fuel : Nat) :
    ∀ ix (st : LogState), Scanning bytes ix st →
      Post (scanLoop (flatCursor bytes known encoding) encoding logStore maxDepth fuel) st Emitted
        fun _ st' => st'.stack = [] ∧ ∃ ix', Scanning bytes ix' st' := by
  induction fuel with
  | zero => exact fun ix st h => h.emitted
  | succ fuel ih =>
    intro ix st h
    refine Post.get ?_
    split
    · next hstack => exact ⟨hstack, ix, h⟩
    · next frame rest hstack =>
      refine Post.bind ((scanStep_scanning hsafe maxDepth h hstack).mono ?_)
      rintro - st' ⟨ix', h'⟩
      exact ih ix' st' h'

end

theorem readEnvelope_scanning (h : Scanning bytes ix st) :
    Post (readEnvelope (flatCursor bytes known encoding) encoding) st Emitted
      fun _ st' => Scanning bytes ix st' ∧ st'.nodes = st.nodes := by
  unfold readEnvelope
  split_ifs
  · refine post_onCursor h.emitted fun v c hc => ?_
    obtain ⟨hle, hpos, -⟩ := fixed_bound h.position hc
    have h₁ := h.advance (by omega) hpos
    refine post_onCursor h₁.emitted fun w d hd => ?_
    obtain ⟨hle', hpos', -⟩ := fixed_bound hpos hd
    exact ⟨h₁.advance (by simp only; omega) hpos', rfl⟩
  · exact ⟨h, rfl⟩

theorem scanEnd_keeps (h : Emitted st) (expectedEnd : Option Nat) :
    Post (scanEnd (flatCursor bytes known encoding) expectedEnd) st Emitted fun _ st' => st' = st := by
  refine Post.get ?_
  cases expectedEnd with
  | none =>
    refine post_orThrow h fun more _ => Post.ite (fun _ => h) fun _ => ?_
    cases (flatCursor bytes known encoding).size with
    | none => exact rfl
    | some size => exact Post.ite (fun _ => h) fun _ => rfl
  | some expected =>
    refine Post.ite (fun _ => h) fun _ => post_orThrow h fun more _ => Post.ite (fun _ => h) fun _ => ?_
    cases (flatCursor bytes known encoding).size with
    | none => exact rfl
    | some size => exact Post.ite (fun _ => h) fun _ => rfl

theorem flatScan_published (hsafe : bytes.length ≤ maxSafeInteger) (maxDepth fuel : Nat) :
    Post (scanNbt (flatCursor bytes known encoding) encoding logStore maxDepth fuel) ⟨0, [], 0, []⟩ Emitted
      fun _ st' => ∃ ix count, Published st'.store ix count ∧ ∀ i node, ix.nodes i = some node → node.endAt.isSome := by
  have hstart : Scanning bytes .empty (⟨0, [], 0, []⟩ : LogState) :=
    { published := .start
      frames := fun _ hf => by cases hf
      distinct := nodup_nil
      opened := fun _ _ h => by cases h
      position := Nat.zero_le _
      budget := le_rfl
      spare := fun _ _ h => by cases h }
  unfold scanNbt
  refine Post.ite (fun _ => hstart.emitted) fun _ => ?_
  refine Post.bind ((readEnvelope_scanning hstart).mono ?_)
  rintro ⟨levelVersion, expectedEnd⟩ st ⟨h, hzero⟩
  refine Post.get (post_onCursor h.emitted fun b c hc => ?_)
  obtain ⟨rfl, hle⟩ := flatByte_bound hc
  have h₁ := h.advance (Nat.le_succ _) hle
  refine post_orThrow h₁.emitted fun type _ => ?_
  have hroot : ∀ (st' : LogState) (name : Option NbtSpan), Scanning bytes .empty st' → st'.nodes = 0 →
      st.cursor + 1 ≤ st'.cursor →
      (∀ s, name = some s → s.offset ≤ maxSafeInteger ∧ s.length ≤ maxSafeInteger) →
      Post (do
        let root ← readNode (flatCursor bytes known encoding) encoding logStore maxDepth type st.cursor name
        scanLoop (flatCursor bytes known encoding) encoding logStore maxDepth fuel
        let bytes ← scanEnd (flatCursor bytes known encoding) expectedEnd
        let st ← get
        pure { root := root.id, bytes, nodes := st.nodes, levelVersion : NbtScanResult }) st' Emitted
      fun _ st' => ∃ ix count, Published st'.store ix count ∧
        ∀ i node, ix.nodes i = some node → node.endAt.isSome := by
    intro st' name h' hzero' hcursor hname
    refine Post.bind ((readNode_scanning hsafe h' (by omega) maxDepth type (by omega) hname).mono ?_)
    rintro root st₂ ⟨ix₂, h₂⟩
    refine Post.bind ((scanLoop_scanning hsafe maxDepth fuel ix₂ st₂ h₂).mono ?_)
    rintro - st₃ ⟨hempty, ix₃, h₃⟩
    refine Post.bind ((scanEnd_keeps h₃.emitted expectedEnd).mono ?_)
    rintro size st₄ rfl
    refine ⟨ix₃, _, h₃.published, ?_⟩
    intro i node hnode
    by_contra hopen
    obtain ⟨frame, hframe, -⟩ := h₃.opened i node hnode (by simpa using hopen)
    rw [hempty] at hframe
    cases hframe
  have hzero' : st.nodes = 0 := hzero
  refine Post.ite (fun _ => ?_) fun _ => ?_
  · refine Post.bind (Post.map (post_read h₁.emitted fun span d hd => ?_))
    obtain ⟨hlt, hle', hspan⟩ := string_bound hle hd
    refine hroot _ _ (h₁.advance (by simp only; omega) hle') hzero' (by simp only; omega) ?_
    intro s hs
    cases hs
    exact ⟨by omega, by omega⟩
  · exact hroot _ _ h₁ hzero' le_rfl (fun s hs => by cases hs)

/-- The records a scan of a source puts, in order, until it returns or fails. -/
def scanPuts (source : NbtByteSource) (encoding : NbtEncoding) (maxDepth fuel : Nat) : List NbtNode :=
  match scanNbt (nbtCursor source encoding) encoding logStore maxDepth fuel ⟨{}, [], 0, []⟩ with
  | .ok _ st => st.store
  | .error _ st => st.store

def ScanReturns (source : NbtByteSource) (encoding : NbtEncoding) (maxDepth fuel : Nat) : Prop :=
  ∃ result st, scanNbt (nbtCursor source encoding) encoding logStore maxDepth fuel ⟨{}, [], 0, []⟩ = .ok result st

theorem scanPuts_published {source : NbtByteSource} (hsrc : Conforms source bytes) (encoding : NbtEncoding)
    (maxDepth fuel : Nat) :
    ∃ ix count, Published (scanPuts source encoding maxDepth fuel) ix count ∧
      (ScanReturns source encoding maxDepth fuel → ∀ i node, ix.nodes i = some node → node.endAt.isSome) := by
  have hrel := scanNbt_sim (nbtCursor_sim hsrc encoding) encoding logStore maxDepth fuel ⟨{}, [], 0, []⟩ ⟨0, [], 0, []⟩
    ⟨⟨rfl, Nat.zero_le _, nil_prefix⟩, rfl, rfl, rfl⟩
  have hflat : Post (scanNbt (flatCursor bytes source.size.isSome encoding) encoding logStore maxDepth fuel)
      ⟨0, [], 0, []⟩ Emitted _ := flatScan_published hsrc.addressable maxDepth fuel
  unfold Post at hflat
  unfold scanPuts
  match hscan : scanNbt (nbtCursor source encoding) encoding logStore maxDepth fuel ⟨{}, [], 0, []⟩,
    hflat' : scanNbt (flatCursor bytes source.size.isSome encoding) encoding logStore maxDepth fuel ⟨0, [], 0, []⟩ with
  | .ok result st, .ok result' st' =>
    rw [hscan, hflat'] at hrel
    rw [hflat'] at hflat
    obtain ⟨ix, count, hpublished, hcomplete⟩ := hflat
    exact ⟨ix, count, by simp only [hrel.2.store]; exact hpublished, fun _ => hcomplete⟩
  | .error e st, .error e' st' =>
    rw [hscan, hflat'] at hrel
    rw [hflat'] at hflat
    obtain ⟨ix, count, hpublished⟩ := hflat
    refine ⟨ix, count, by simp only [hrel.2.store]; exact hpublished, ?_⟩
    rintro ⟨result, st, hok⟩
    rw [hscan] at hok
    cases hok
  | .ok .., .error .. =>
    rw [hscan, hflat'] at hrel
    exact hrel.elim
  | .error .., .ok .. =>
    rw [hscan, hflat'] at hrel
    exact hrel.elim

end Cantrip.Nbt
