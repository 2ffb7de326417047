import Cantrip.Nbt.ScanRaw

/-!
# Scans over related cursors

A scan sees its bytes only through the cursor, so two cursors whose operations agree give scans that
agree: the same result or the same error, and the same index at that point (`scanNbt_sim`). With
`nbtCursor_sim` a scan of a conforming source is the scan of its bytes by the flat cursor.
-/

namespace Cantrip.Nbt

open Lib

section Readers

variable {σ₁ σ₂ α β : Type} {R : σ₁ → σ₂ → Prop} {c₁ : CursorOps σ₁} {c₂ : CursorOps σ₂}

theorem ExceptRel.bind {x : Except NbtError (α × σ₁)} {y : Except NbtError (α × σ₂)}
    {f : α × σ₁ → Except NbtError (β × σ₁)} {g : α × σ₂ → Except NbtError (β × σ₂)} (h : ExceptRel R x y)
    (hfg : ∀ a s t, R s t → ExceptRel R (f (a, s)) (g (a, t))) : ExceptRel R (x >>= f) (y >>= g) := by
  match x, y with
  | .error _, .error _ => exact h
  | .ok (a, s), .ok (b, t) =>
    obtain ⟨rfl, hst⟩ := h
    exact hfg a s t hst
  | .error _, .ok _ => exact h.elim
  | .ok _, .error _ => exact h.elim

theorem ExceptRel.of_map {x : Except NbtError σ₁} {y : Except NbtError σ₂} (h : ExceptRel R (x.map ((), ·)) (y.map ((), ·)))
    {f : σ₁ → Except NbtError (β × σ₁)} {g : σ₂ → Except NbtError (β × σ₂)}
    (hfg : ∀ s t, R s t → ExceptRel R (f s) (g t)) : ExceptRel R (x >>= f) (y >>= g) := by
  match x, y with
  | .error _, .error _ => exact h
  | .ok s, .ok t => exact hfg s t h.2
  | .error _, .ok _ => exact h.elim
  | .ok _, .error _ => exact h.elim

namespace CursorOps

theorem varintGo_sim (hsim : Sim R c₁ c₂) (bits offset count : Nat) :
    ∀ i value s t, R s t →
      ExceptRel R (c₁.varintGo bits offset count i value s) (c₂.varintGo bits offset count i value t) := by
  induction count with
  | zero => exact fun _ _ _ _ _ => rfl
  | succ count ih =>
    intro i value s t hst
    refine (hsim.byte s t hst).bind fun b s t hst => ?_
    dsimp only
    split_ifs
    · exact ih _ _ s t hst
    · rfl
    · exact ⟨rfl, hst⟩

theorem varint_sim (hsim : Sim R c₁ c₂) (bits : Nat) (zigzag : Bool) (s : σ₁) (t : σ₂) (hst : R s t) :
    ExceptRel R (c₁.varint bits zigzag s) (c₂.varint bits zigzag t) := by
  unfold varint
  rw [hsim.position s t hst]
  exact (varintGo_sim hsim _ _ _ _ _ s t hst).bind fun a s t h => ⟨rfl, h⟩

theorem int_sim (hsim : Sim R c₁ c₂) (encoding : NbtEncoding) (s : σ₁) (t : σ₂) (hst : R s t) :
    ExceptRel R (c₁.int encoding s) (c₂.int encoding t) := by
  unfold int
  split_ifs
  · exact varint_sim hsim _ _ s t hst
  · exact hsim.fixed _ _ s t hst

theorem string_sim (hsim : Sim R c₁ c₂) (encoding : NbtEncoding) (s : σ₁) (t : σ₂) (hst : R s t) :
    ExceptRel R (c₁.string encoding s) (c₂.string encoding t) := by
  have hlength : ExceptRel R (c₁.stringLength encoding s) (c₂.stringLength encoding t) := by
    unfold stringLength
    split_ifs
    · exact varint_sim hsim _ _ s t hst
    · exact hsim.fixed _ _ s t hst
  refine hlength.bind fun length s t hst => ?_
  refine (hsim.skip length.toNat s t hst).of_map fun s' t' hst' => ⟨?_, hst'⟩
  rw [hsim.position s t hst]

end CursorOps

end Readers

section Actions

variable {σ₁ σ₂ τ α β : Type} (R : σ₁ → σ₂ → Prop)

/-- States that differ only in the cursor, and there by `R`. -/
structure StateRel (s : ScanState σ₁ τ) (t : ScanState σ₂ τ) : Prop where
  cursor : R s.cursor t.cursor
  stack : s.stack = t.stack
  nodes : s.nodes = t.nodes
  store : s.store = t.store

def ResultRel : EStateM.Result NbtError (ScanState σ₁ τ) α → EStateM.Result NbtError (ScanState σ₂ τ) α → Prop
  | .ok a s, .ok b t => a = b ∧ StateRel R s t
  | .error e s, .error f t => e = f ∧ StateRel R s t
  | _, _ => False

def Same (x : ScanM σ₁ τ α) (y : ScanM σ₂ τ α) : Prop := ∀ s t, StateRel R s t → ResultRel R (x s) (y t)

variable {R}

variable {x : ScanM σ₁ τ α} {y : ScanM σ₂ τ α}

theorem ResultRel.bind {f : α → ScanM σ₁ τ β} {g : α → ScanM σ₂ τ β}
    {s : ScanState σ₁ τ} {t : ScanState σ₂ τ} (h : ResultRel R (x s) (y t)) (hfg : ∀ a, Same R (f a) (g a)) :
    ResultRel R ((x >>= f) s) ((y >>= g) t) := by
  match hx : x s, hy : y t with
  | .ok a s', .ok b t' =>
    rw [hx, hy] at h
    obtain ⟨rfl, hst⟩ := h
    rw [bind_ok hx, bind_ok hy]
    exact hfg a s' t' hst
  | .error e s', .error e' t' =>
    rw [hx, hy] at h
    rw [bind_error hx, bind_error hy]
    exact h
  | .ok .., .error .. => rw [hx, hy] at h; exact h.elim
  | .error .., .ok .. => rw [hx, hy] at h; exact h.elim

theorem Same.bind {f : α → ScanM σ₁ τ β} {g : α → ScanM σ₂ τ β}
    (h : Same R x y) (hfg : ∀ a, Same R (f a) (g a)) : Same R (x >>= f) (y >>= g) :=
  fun s t hst => (h s t hst).bind hfg

theorem Same.pure (a : α) : Same R (pure a : ScanM σ₁ τ α) (pure a) := fun _ _ h => ⟨rfl, h⟩

theorem Same.throw (e : NbtError) : Same R (throw e : ScanM σ₁ τ α) (throw e) := fun _ _ h => ⟨rfl, h⟩

theorem same_throw_bind (e : NbtError) (f : α → ScanM σ₁ τ β) (g : α → ScanM σ₂ τ β) :
    Same R (throw e >>= f) (throw e >>= g) := fun _ _ h => ⟨rfl, h⟩

theorem Same.get {f : ScanState σ₁ τ → ScanM σ₁ τ β} {g : ScanState σ₂ τ → ScanM σ₂ τ β}
    (h : ∀ s t, StateRel R s t → ResultRel R (f s s) (g t t)) : Same R (get >>= f) (get >>= g) :=
  fun s t hst => by
    rw [get_bind, get_bind]
    exact h s t hst

theorem Same.modify {f : ScanState σ₁ τ → ScanState σ₁ τ} {g : ScanState σ₂ τ → ScanState σ₂ τ}
    (h : ∀ s t, StateRel R s t → StateRel R (f s) (g t)) :
    Same R (modify f : ScanM σ₁ τ PUnit) (modify g) :=
  fun s t hst => ⟨rfl, h s t hst⟩

theorem Same.discard (h : Same R x y) : Same R (discard x : ScanM σ₁ τ PUnit) (discard y) := by
  intro s t hst
  have := h s t hst
  simp only [Functor.discard, Functor.mapConst, EStateM.map, Function.comp]
  rcases hx : x s with ⟨a, s'⟩ | ⟨e, s'⟩ <;> rcases hy : y t with ⟨b, t'⟩ | ⟨e', t'⟩ <;> rw [hx, hy] at this
  · exact ⟨rfl, this.2⟩
  · exact this.elim
  · exact this.elim
  · exact this

theorem Same.onCursor {f : σ₁ → Except NbtError (α × σ₁)} {g : σ₂ → Except NbtError (α × σ₂)}
    (h : ∀ s t, R s t → ExceptRel R (f s) (g t)) : Same R (onCursor f : ScanM σ₁ τ α) (onCursor g) := by
  intro s t hst
  have := h _ _ hst.cursor
  unfold Nbt.onCursor
  match hf : f s.cursor, hg : g t.cursor with
  | .ok (a, c), .ok (b, d) =>
    rw [hf, hg] at this
    exact ⟨this.1, this.2, hst.stack, hst.nodes, hst.store⟩
  | .error e, .error e' =>
    rw [hf, hg] at this
    exact ⟨this, hst⟩
  | .ok _, .error _ => rw [hf, hg] at this; exact this.elim
  | .error _, .ok _ => rw [hf, hg] at this; exact this.elim

theorem Same.orThrow (x : Except NbtError α) : Same R (orThrow x : ScanM σ₁ τ α) (orThrow x) := by
  intro s t hst
  cases x <;> exact ⟨rfl, hst⟩

theorem Same.putNode (store : IndexStore τ) (node : NbtNode) :
    Same R (putNode store node : ScanM σ₁ τ Unit) (putNode store node) := by
  intro s t hst
  unfold Nbt.putNode
  rw [hst.store]
  cases store.put t.store node with
  | error e => exact ⟨rfl, hst⟩
  | ok s' => exact ⟨rfl, hst.cursor, hst.stack, hst.nodes, rfl⟩

theorem Same.pushFrame (frame : Frame) : Same R (pushFrame frame : ScanM σ₁ τ Unit) (pushFrame frame) :=
  fun _ _ hst => ⟨rfl, hst.cursor, by rw [hst.stack], hst.nodes, hst.store⟩

theorem Same.ite {c : Prop} [Decidable c] {x' : ScanM σ₁ τ α} {y' : ScanM σ₂ τ α} (h : Same R x y)
    (h' : Same R x' y') : Same R (if c then x else x') (if c then y else y') := by
  split_ifs
  · exact h
  · exact h'

end Actions

section ScanSim

variable {σ₁ σ₂ τ : Type} {R : σ₁ → σ₂ → Prop} {c₁ : CursorOps σ₁} {c₂ : CursorOps σ₂}
variable (hsim : CursorOps.Sim R c₁ c₂) (encoding : NbtEncoding) (store : IndexStore τ)

include hsim

theorem skipBytes_sim (n : Nat) : Same R (skipBytes c₁ n : ScanM σ₁ τ Unit) (skipBytes c₂ n) :=
  Same.onCursor fun s t h => hsim.skip n s t h

theorem byte_same : Same R (onCursor c₁.byte : ScanM σ₁ τ UInt8) (onCursor c₂.byte) :=
  Same.onCursor hsim.byte

theorem int_same : Same R (onCursor (c₁.int encoding) : ScanM σ₁ τ Int) (onCursor (c₂.int encoding)) :=
  Same.onCursor (CursorOps.int_sim hsim encoding)

theorem string_same : Same R (onCursor (c₁.string encoding) : ScanM σ₁ τ NbtSpan) (onCursor (c₂.string encoding)) :=
  Same.onCursor (CursorOps.string_sim hsim encoding)

theorem readArray_sim (node : NbtNode) : Same R (readArray c₁ encoding store node) (readArray c₂ encoding store node) := by
  refine (int_same hsim encoding).bind fun length => ?_
  refine Same.ite (same_throw_bind _ _ _) ?_
  refine Same.get fun s t hst => ?_
  rw [hsim.position _ _ hst.cursor]
  have := (Same.putNode (R := R) store
      { node with
        length := some length.toNat, data := some ⟨c₂.position t.cursor, length.toNat * node.type.width⟩ }).bind fun _ =>
    (skipBytes_sim hsim (length.toNat * node.type.width)).bind fun _ => Same.pure (R := R)
      { node with
        length := some length.toNat, data := some ⟨c₂.position t.cursor, length.toNat * node.type.width⟩ }
  exact this s t hst

theorem readList_sim (node : NbtNode) : Same R (readList c₁ encoding node : ScanM σ₁ τ NbtNode) (readList c₂ encoding node) := by
  refine (byte_same hsim).bind fun elementType => (int_same hsim encoding).bind fun length => ?_
  refine (Same.orThrow _).bind fun elementType => Same.ite (same_throw_bind _ _ _) ?_
  exact (Same.pushFrame _).bind fun _ => Same.pure _

theorem readPayload_sim (node : NbtNode) :
    Same R (readPayload c₁ encoding store node) (readPayload c₂ encoding store node) := by
  have hskip : ∀ n, Same R (do skipBytes c₁ n; pure node : ScanM σ₁ τ NbtNode) (do skipBytes c₂ n; pure node) :=
    fun n => (skipBytes_sim hsim n).bind fun _ => Same.pure _
  have hword : ∀ bits n, Same R
      (do if encoding.varints then discard (onCursor (c₁.varint bits true)) else skipBytes c₁ n
          pure node : ScanM σ₁ τ NbtNode)
      (do if encoding.varints then discard (onCursor (c₂.varint bits true)) else skipBytes c₂ n
          pure node) := by
    intro bits n
    by_cases hv : encoding.varints = true
    · simp only [hv, if_true]
      exact (Same.onCursor (CursorOps.varint_sim hsim bits true)).discard.bind fun _ => Same.pure _
    · simp only [hv]
      exact hskip n
  unfold readPayload
  cases node.type with
  | «end» => exact Same.throw _
  | byte => exact hskip 1
  | short => exact hskip 2
  | int => exact hword 32 4
  | long => exact hword 64 8
  | float => exact hskip 4
  | double => exact hskip 8
  | string => exact (string_same hsim encoding).bind fun _ => Same.pure _
  | byteArray => exact readArray_sim hsim encoding store node
  | intArray => exact readArray_sim hsim encoding store node
  | longArray => exact readArray_sim hsim encoding store node
  | list => exact readList_sim hsim encoding node
  | compound => exact (Same.pushFrame _).bind fun _ => Same.pure _

theorem readNode_sim (maxDepth : Nat) (type : NbtTag) (start : Nat) (name : Option NbtSpan) :
    Same R (readNode c₁ encoding store maxDepth type start name) (readNode c₂ encoding store maxDepth type start name) := by
  refine Same.ite (same_throw_bind _ _ _) (Same.get fun s t hst => ?_)
  have hset : StateRel R { s with stack := countChild s.stack } { t with stack := countChild t.stack } :=
    ⟨hst.cursor, by rw [hst.stack], hst.nodes, hst.store⟩
  simp only [hst.stack, hst.nodes, hsim.position _ _ hst.cursor] at hset ⊢
  rw [set_bind, set_bind]
  refine (readPayload_sim hsim encoding store _).bind (fun node => ?_) _ _ hset
  have hcount : Same R (modify fun st => { st with nodes := st.nodes + 1 } : ScanM σ₁ τ PUnit)
      (modify fun st => { st with nodes := st.nodes + 1 }) :=
    Same.modify fun s t hst => ⟨hst.cursor, hst.stack, congrArg (· + 1) hst.nodes, hst.store⟩
  refine hcount.bind fun _ => ?_
  refine Same.get fun s t hst => ?_
  rw [hsim.position _ _ hst.cursor]
  refine (Same.putNode store _).bind (fun _ => Same.get fun s t hst => ?_) s t hst
  rw [hst.stack]
  exact Same.ite (same_throw_bind _ _ _) (Same.pure _) s t hst

theorem closeFrame_sim (frame : Frame) (rest : List Frame) :
    Same R (closeFrame c₁ store frame rest) (closeFrame c₂ store frame rest) := by
  refine Same.get fun s t hst => ?_
  rw [hsim.position _ _ hst.cursor]
  have hpop : Same R (modify fun st => { st with stack := rest } : ScanM σ₁ τ PUnit)
      (modify fun st => { st with stack := rest }) :=
    Same.modify fun s t hst => ⟨hst.cursor, rfl, hst.nodes, hst.store⟩
  exact (Same.putNode store _).bind (fun _ => hpop) s t hst

theorem scanStep_sim (maxDepth : Nat) (frame : Frame) (rest : List Frame) :
    Same R (scanStep c₁ encoding store maxDepth frame rest) (scanStep c₂ encoding store maxDepth frame rest) := by
  refine Same.get fun s t hst => ?_
  rw [hsim.position _ _ hst.cursor]
  match frame.remaining with
  | none =>
    refine (byte_same hsim).bind (fun b => (Same.orThrow _).bind fun type => Same.ite ?_ ?_) s t hst
    · exact closeFrame_sim hsim store frame rest
    · exact (string_same hsim encoding).bind fun _ => (readNode_sim hsim encoding store _ _ _ _).discard
  | some 0 => exact closeFrame_sim hsim store frame rest s t hst
  | some (k + 1) =>
    exact (readNode_sim hsim encoding store maxDepth (frame.node.elementType.getD .end) (c₂.position t.cursor)
      none).discard { s with stack := { frame with remaining := some k } :: rest }
      { t with stack := { frame with remaining := some k } :: rest } ⟨hst.cursor, rfl, hst.nodes, hst.store⟩

theorem scanLoop_sim (maxDepth fuel : Nat) :
    Same R (scanLoop c₁ encoding store maxDepth fuel) (scanLoop c₂ encoding store maxDepth fuel) := by
  induction fuel with
  | zero => exact Same.throw _
  | succ fuel ih =>
    refine Same.get fun s t hst => ?_
    rw [hst.stack]
    match t.stack with
    | [] => exact Same.pure _ s t hst
    | frame :: rest => exact (scanStep_sim hsim encoding store maxDepth frame rest).bind (fun _ => ih) s t hst

theorem scanEnd_sim (expectedEnd : Option Nat) :
    Same R (scanEnd c₁ expectedEnd : ScanM σ₁ τ Nat) (scanEnd c₂ expectedEnd) := by
  refine Same.get fun s t hst => ?_
  -- the last read matters only for whether it is empty
  have hrest := hsim.rest _ _ hst.cursor
  have hmore : ∀ {f : Nat → ScanM σ₁ τ Nat} {g : Nat → ScanM σ₂ τ Nat},
      (∀ n m : Nat, (n ≠ 0) = (m ≠ 0) → Same R (f n) (g m)) →
      Same R (orThrow (c₁.rest s.cursor) >>= f) (orThrow (c₂.rest t.cursor) >>= g) := by
    intro f g hfg s' t' hst'
    rcases h₁ : c₁.rest s.cursor with e | n <;> rcases h₂ : c₂.rest t.cursor with e' | m <;> rw [h₁, h₂] at hrest
    · simp only [Except.map, Except.error.injEq] at hrest
      subst hrest
      exact ⟨rfl, hst'⟩
    · cases hrest
    · cases hrest
    · simp only [Except.map, Except.ok.injEq] at hrest
      have hiff : n = 0 ↔ m = 0 := by rw [← beq_iff_eq (a := n), ← beq_iff_eq (a := m), hrest]
      exact hfg n m (propext (not_congr hiff)) s' t' hst'
  dsimp only
  rw [hsim.position _ _ hst.cursor, hsim.size]
  cases expectedEnd with
  | none =>
    refine hmore (fun n m hnm => ?_) s t hst
    simp only [hnm]
    refine Same.ite (same_throw_bind _ _ _) ?_
    cases c₂.size with
    | none => exact Same.pure _
    | some size => exact Same.ite (same_throw_bind _ _ _) (Same.pure _)
  | some expected =>
    refine Same.ite (same_throw_bind _ _ _) (hmore fun n m hnm => ?_) s t hst
    simp only [hnm]
    refine Same.ite (same_throw_bind _ _ _) ?_
    cases c₂.size with
    | none => exact Same.pure _
    | some size => exact Same.ite (same_throw_bind _ _ _) (Same.pure _)

theorem readEnvelope_sim : Same R (readEnvelope c₁ encoding : ScanM σ₁ τ _) (readEnvelope c₂ encoding) := by
  refine Same.ite ?_ (Same.pure _)
  exact (Same.onCursor (hsim.fixed 4 true)).bind fun _ => (Same.onCursor (hsim.fixed 4 true)).bind fun _ => Same.pure _

theorem scanNbt_sim (maxDepth fuel : Nat) :
    Same R (scanNbt c₁ encoding store maxDepth fuel) (scanNbt c₂ encoding store maxDepth fuel) := by
  refine Same.ite (same_throw_bind _ _ _) ?_
  refine (readEnvelope_sim hsim encoding).bind fun ⟨levelVersion, expectedEnd⟩ => Same.get fun s t hst => ?_
  dsimp only
  rw [hsim.position _ _ hst.cursor]
  have hafter : ∀ type name, Same R
      (do let root ← readNode c₁ encoding store maxDepth type (c₂.position t.cursor) name
          scanLoop c₁ encoding store maxDepth fuel
          let bytes ← scanEnd c₁ expectedEnd
          let st ← get
          pure { root := root.id, bytes, nodes := st.nodes, levelVersion : NbtScanResult })
      (do let root ← readNode c₂ encoding store maxDepth type (c₂.position t.cursor) name
          scanLoop c₂ encoding store maxDepth fuel
          let bytes ← scanEnd c₂ expectedEnd
          let st ← get
          pure { root := root.id, bytes, nodes := st.nodes, levelVersion : NbtScanResult }) := by
    intro type name
    refine (readNode_sim hsim encoding store _ _ _ _).bind fun root => (scanLoop_sim hsim encoding store _ _).bind fun _ => ?_
    refine (scanEnd_sim hsim _).bind fun bytes => Same.get fun s t hst => ?_
    rw [hst.nodes]
    exact Same.pure _ s t hst
  refine (byte_same hsim).bind (fun b => (Same.orThrow _).bind fun type => Same.ite ?_ ?_) s t hst
  · exact Same.bind (fun s t hst => (string_same hsim encoding).bind (fun _ => Same.pure _) s t hst) fun name => hafter _ _
  · exact hafter _ _

end ScanSim

end Cantrip.Nbt
