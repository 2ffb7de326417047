import Cantrip.Nbt.Accepts
import Cantrip.Nbt.WellFormed

/-!
# Scanning bytes however they arrive

A source may answer every read with any nonempty part of what it was asked for, and may or may not know its size.
A scan over any such source returns exactly when the bytes are those of a document (`scanNbt_accepts` one way,
`scanNbt_fills` the other), so two sources of the same bytes are scanned alike. The loop of the scan ends: every
turn costs bytes, or opens or closes a container (`scanLoop_more`).
-/

namespace Cantrip.Nbt

open Lib List

section Ends

variable {τ : Type} {bytes : Bytes} {known : Bool} {encoding : NbtEncoding} {store : IndexStore τ} {maxDepth : Nat}

def openLists (stack : List Frame) : Nat := (stack.filter (·.remaining.isSome)).length

def openCompounds (stack : List Frame) : Nat := (stack.filter (·.remaining.isNone)).length

/-- What the turns of the loop use up. A list element of type compound is opened without reading a byte. -/
def ScanState.budget (length maxDepth : Nat) (st : ScanState Nat τ) : Nat :=
  2 * (length - st.cursor) + openLists st.stack + (maxDepth - openCompounds st.stack)

theorem openLists_countChild (stack : List Frame) : openLists (countChild stack) = openLists stack := by
  cases stack with
  | nil => rfl
  | cons frame rest => simp only [countChild, openLists, filter_cons]; split_ifs <;> rfl

theorem openCompounds_countChild (stack : List Frame) : openCompounds (countChild stack) = openCompounds stack := by
  cases stack with
  | nil => rfl
  | cons frame rest => simp only [countChild, openCompounds, filter_cons]; split_ifs <;> rfl

theorem openCompounds_le (stack : List Frame) : openCompounds stack ≤ stack.length := length_filter_le _ _

theorem readNode_spends {type : NbtTag} {start : Nat} {name : Option NbtSpan} {st st' : ScanState Nat τ} {node : NbtNode}
    (hle : st.cursor ≤ bytes.length)
    (h : readNode (flatCursor bytes known encoding) encoding store maxDepth type start name st = .ok node st') :
    st.cursor ≤ st'.cursor ∧ st'.cursor ≤ bytes.length ∧ st'.stack.length ≤ maxDepth ∧
      st'.budget bytes.length maxDepth < st.budget bytes.length maxDepth := by
  obtain ⟨-, opened, st₁, s, hpayload, -, -, hdepth, rfl⟩ := readNode_returns (nextPlace st start name) rfl h
  have hcompounds := openCompounds_le st₁.stack
  cases readPayload_reads { st with stack := countChild st.stack } rfl hle hpayload with
  | leaf r hleaf hr =>
    have hturns := turns_lt r hr.valid
    have hend : st.cursor + r.payload.length ≤ bytes.length := hr.holds.le
    rw [hr.state]
    refine ⟨Nat.le_add_right _ _, hend, by rw [hr.state] at hdepth; exact hdepth, ?_⟩
    simp only [ScanState.budget, nextPlace, openLists_countChild, openCompounds_countChild]
    omega
  | list elementType lengthBytes declared hlist hopened =>
    have hlength := hopened.length.length_pos
    have hend := hopened.holds.le
    rw [length_cons] at hend
    simp only [nextPlace] at hend
    obtain rfl := hopened.state
    refine ⟨?_, ?_, hdepth, ?_⟩
    · simp only [nextPlace]
      omega
    · simp only [nextPlace]
      omega
    · have hlists : openLists (⟨opened, some declared.toNat⟩ :: countChild st.stack) = openLists st.stack + 1 := by
        rw [← openLists_countChild st.stack]
        rfl
      have hsame : openCompounds (⟨opened, some declared.toNat⟩ :: countChild st.stack) = openCompounds st.stack := by
        rw [← openCompounds_countChild st.stack]
        rfl
      simp only [ScanState.budget, nextPlace, hlists, hsame]
      omega
  | compound hcompound hopened hstate =>
    obtain rfl := hstate
    refine ⟨le_rfl, hle, hdepth, ?_⟩
    have hlists : openLists (⟨opened, none⟩ :: countChild st.stack) = openLists st.stack := by
      rw [← openLists_countChild st.stack]
      rfl
    have hmore : openCompounds (⟨opened, none⟩ :: countChild st.stack) = openCompounds st.stack + 1 := by
      rw [← openCompounds_countChild st.stack]
      rfl
    simp only [hmore] at hcompounds
    simp only at hdepth
    simp only [ScanState.budget, hlists, hmore]
    omega

theorem scanStep_spends {frame : Frame} {rest : List Frame} {st st' : ScanState Nat τ} (hstack : st.stack = frame :: rest)
    (hle : st.cursor ≤ bytes.length) (hdepth : st.stack.length ≤ maxDepth)
    (h : scanStep (flatCursor bytes known encoding) encoding store maxDepth frame rest st = .ok () st') :
    st'.cursor ≤ bytes.length ∧ st'.stack.length ≤ maxDepth ∧
      st'.budget bytes.length maxDepth < st.budget bytes.length maxDepth := by
  obtain ⟨node, remaining⟩ := frame
  obtain ⟨cursor, stack, nodes, stored⟩ := st
  obtain rfl : stack = ⟨node, remaining⟩ :: rest := hstack
  have hcompounds := openCompounds_le rest
  simp only [length_cons] at hdepth
  match remaining with
  | none =>
    have hopen : openCompounds (⟨node, none⟩ :: rest) = openCompounds rest + 1 := rfl
    have hlists : openLists (⟨node, none⟩ :: rest) = openLists rest := rfl
    simp only [scanStep, get_bind] at h
    obtain ⟨b, st₂, hbyte, h₁⟩ := bind_returns.mp h
    obtain ⟨c, hcode, rfl⟩ := onCursor_returns.mp hbyte
    obtain ⟨rfl, hat⟩ := flatByte_reads hcode
    have hend : cursor + 1 ≤ bytes.length := hat.le
    obtain ⟨type, st₃, htag, h₂⟩ := bind_returns.mp h₁
    obtain ⟨-, rfl⟩ := orThrow_returns.mp htag
    by_cases hclose : type = .end
    · rw [if_pos hclose] at h₂
      obtain ⟨s, -, rfl⟩ := closeFrame_returns h₂
      refine ⟨hend, by simp only; omega, ?_⟩
      simp only [ScanState.budget, hopen, hlists]
      omega
    · rw [if_neg hclose] at h₂
      obtain ⟨span, st₄, hstring, hentry⟩ := bind_returns.mp h₂
      obtain ⟨c, hname, rfl⟩ := onCursor_returns.mp hstring
      obtain ⟨name, hvalid, hatname, rfl, rfl⟩ := string_reads hat.le hname
      obtain ⟨entry, hread⟩ := discard_returns.mp hentry
      obtain ⟨-, h₃, h₄, h₅⟩ := readNode_spends hatname.le hread
      refine ⟨h₃, h₄, lt_trans h₅ ?_⟩
      have hname := hvalid.length_pos
      simp only [ScanState.budget]
      omega
  | some 0 =>
    have hopen : openCompounds (⟨node, some 0⟩ :: rest) = openCompounds rest := rfl
    have hlists : openLists (⟨node, some 0⟩ :: rest) = openLists rest + 1 := rfl
    simp only [scanStep, get_bind] at h
    obtain ⟨s, -, rfl⟩ := closeFrame_returns h
    refine ⟨hle, by simp only; omega, ?_⟩
    simp only [ScanState.budget, hopen, hlists]
    omega
  | some (k + 1) =>
    simp only [scanStep, get_bind, set_bind] at h
    obtain ⟨element, hread⟩ := discard_returns.mp h
    have hbefore : cursor ≤ bytes.length := hle
    obtain ⟨-, h₃, h₄, h₅⟩ := readNode_spends hbefore hread
    exact ⟨h₃, h₄, h₅⟩

/-! ## Errors of the code -/

def Thrown (e : NbtError) : Prop := e.message ≠ "scan fuel exhausted"

def Faults {α : Type} (x : Except NbtError α) : Prop := ∀ e, x = .error e → Thrown e

theorem faults_ok {α : Type} (a : α) : Faults (.ok a : Except NbtError α) := fun _ h => nomatch h

theorem faults_error {α : Type} {e : NbtError} (h : Thrown e) : Faults (.error e : Except NbtError α) := by
  rintro _ ⟨⟩
  exact h

theorem faults_bind {α β : Type} {x : Except NbtError α} {f : α → Except NbtError β} (hx : Faults x)
    (hf : ∀ a, Faults (f a)) : Faults (x >>= f) := by
  intro e h
  cases x with
  | ok a => exact hf a e h
  | error e' =>
    cases h
    exact hx e rfl

theorem faults_map {α β : Type} {x : Except NbtError α} (f : α → β) (hx : Faults x) : Faults (x.map f) := by
  intro e h
  cases x with
  | ok a => cases h
  | error e' =>
    cases h
    exact hx e rfl

theorem byte_faults (p : Nat) : Faults ((flatCursor bytes known encoding).byte p) := by
  simp only [flatCursor, flatByte]
  split
  · exact faults_ok _
  · exact faults_error (by simp [Thrown])

theorem fixed_faults (n : Nat) (unsigned : Bool) (p : Nat) :
    Faults ((flatCursor bytes known encoding).fixed n unsigned p) := by
  refine faults_bind ?_ fun _ => faults_ok _
  induction n generalizing p with
  | zero => exact faults_ok _
  | succ n ih =>
    rw [flatBytes]
    exact faults_bind (@byte_faults bytes known encoding p) fun _ => faults_bind (ih _) fun _ => faults_ok _

theorem skip_faults (n p : Nat) : Faults ((flatCursor bytes known encoding).skip n p) := by
  simp only [flatCursor, flatSkip]
  refine faults_bind ?_ fun _ => ?_
  · unfold assertRange
    split_ifs
    · exact faults_ok _
    · exact faults_error (by simp [Thrown])
  · split_ifs
    · exact faults_error (by simp [Thrown])
    · exact faults_error (by simp [Thrown])
    · exact faults_ok _

theorem varint_faults (bits : Nat) (zigzag : Bool) (p : Nat) :
    Faults ((flatCursor bytes known encoding).varint bits zigzag p) := by
  have hgo : ∀ count offset i value p, Faults ((flatCursor bytes known encoding).varintGo bits offset count i value p) := by
    intro count
    induction count with
    | zero => exact fun _ _ _ _ => faults_error (by simp [Thrown])
    | succ count ih =>
      intro offset i value p
      rw [CursorOps.varintGo]
      refine faults_bind (byte_faults p) fun b => ?_
      dsimp only
      split_ifs
      · exact ih _ _ _ _
      · exact faults_error (by simp [Thrown])
      · exact faults_ok _
  exact faults_bind (hgo _ _ _ _ _) fun _ => faults_ok _

theorem int_faults (p : Nat) : Faults ((flatCursor bytes known encoding).int encoding p) := by
  unfold CursorOps.int
  split_ifs
  · exact varint_faults _ _ _
  · exact fixed_faults _ _ _

theorem string_faults (p : Nat) : Faults ((flatCursor bytes known encoding).string encoding p) := by
  refine faults_bind ?_ fun _ => faults_bind (skip_faults _ _) fun _ => faults_ok _
  unfold CursorOps.stringLength
  split_ifs
  · exact varint_faults _ _ _
  · exact fixed_faults _ _ _

theorem assertTag_faults (type offset : Nat) : Faults (assertTag type offset) := by
  unfold assertTag
  split
  · exact faults_ok _
  · exact faults_error (by simp [Thrown])

/-- Whatever the computation throws from `st`, the code throws. -/
def ThrowsFrom {σ α : Type} (x : ScanM σ τ α) (st : ScanState σ τ) : Prop := ∀ e st', x st = .error e st' → Thrown e

def Throws {σ α : Type} (x : ScanM σ τ α) : Prop := ∀ st, ThrowsFrom x st

section Throws

variable {σ α β : Type}

variable {x : ScanM σ τ α}

theorem throwsFrom_bind {f : α → ScanM σ τ β} {st : ScanState σ τ} (hx : ThrowsFrom x st)
    (hf : ∀ a s, x st = .ok a s → ThrowsFrom (f a) s) : ThrowsFrom (x >>= f) st := by
  intro e st' h
  simp only [bind, EStateM.bind] at h
  match hrun : x st with
  | .ok a s =>
    rw [hrun] at h
    exact hf a s hrun e st' h
  | .error e' s =>
    rw [hrun] at h
    cases h
    exact hx e st' hrun

theorem throws_bind {f : α → ScanM σ τ β} (hx : Throws x) (hf : ∀ a, Throws (f a)) : Throws (x >>= f) :=
  fun st => throwsFrom_bind (hx st) fun a s _ => hf a s

theorem throws_pure (a : α) : Throws (pure a : ScanM σ τ α) := fun _ _ _ h => nomatch h

theorem throws_throw {e : NbtError} (h : Thrown e) (f : α → ScanM σ τ β) : Throws ((throw e : ScanM σ τ α) >>= f) := by
  rintro _ _ _ ⟨⟩
  exact h

theorem throws_ite {c : Prop} [Decidable c] {y : ScanM σ τ α} (hx : Throws x) (hy : Throws y) :
    Throws (if c then x else y) := by
  split_ifs
  · exact hx
  · exact hy

theorem throws_get : Throws (get : ScanM σ τ (ScanState σ τ)) := fun _ _ _ h => nomatch h

theorem throws_set (s : ScanState σ τ) : Throws (set s : ScanM σ τ PUnit) := fun _ _ _ h => nomatch h

theorem throws_modify (g : ScanState σ τ → ScanState σ τ) : Throws (modify g : ScanM σ τ PUnit) :=
  fun _ _ _ h => nomatch h

theorem throws_map (f : α → β) (hx : Throws x) : Throws (f <$> x) := by
  intro st e st' h
  simp only [Functor.map, EStateM.map] at h
  match hrun : x st with
  | .ok a s =>
    rw [hrun] at h
    cases h
  | .error e' s =>
    rw [hrun] at h
    cases h
    exact hx st e st' hrun

theorem throws_discard (hx : Throws x) : Throws (discard x : ScanM σ τ PUnit) := throws_map _ hx

theorem throws_orThrow {x : Except NbtError α} (hx : Faults x) : Throws (orThrow x : ScanM σ τ α) := by
  intro st e st' h
  unfold orThrow at h
  cases x with
  | ok a => cases h
  | error e' =>
    cases h
    exact hx e rfl

theorem throws_onCursor {f : σ → Except NbtError (α × σ)} (hf : ∀ c, Faults (f c)) : Throws (onCursor f : ScanM σ τ α) := by
  intro st e st' h
  unfold onCursor at h
  match hrun : f st.cursor with
  | .ok (a, c) =>
    rw [hrun] at h
    cases h
  | .error e' =>
    rw [hrun] at h
    cases h
    exact hf _ e hrun

theorem throws_putNode (hstore : ∀ s node, Faults (store.put s node)) (node : NbtNode) :
    Throws (putNode store node : ScanM σ τ Unit) := by
  intro st e st' h
  unfold putNode at h
  match hrun : store.put st.store node with
  | .ok s =>
    rw [hrun] at h
    cases h
  | .error e' =>
    rw [hrun] at h
    cases h
    exact hstore _ _ e hrun

end Throws

theorem throws_skip (n : Nat) : Throws (skipBytes (flatCursor bytes known encoding) n : ScanM Nat τ Unit) :=
  throws_onCursor fun c => faults_map _ (skip_faults n c)

theorem throws_readPayload (hstore : ∀ s node, Faults (store.put s node)) (node : NbtNode) :
    Throws (readPayload (flatCursor bytes known encoding) encoding store node) := by
  have hskip : ∀ n, Throws (do skipBytes (flatCursor bytes known encoding) n; pure node : ScanM Nat τ NbtNode) :=
    fun n => throws_bind (throws_skip n) fun _ => throws_pure _
  have hvar : ∀ n bits, Throws (do
      if encoding.varints then discard (onCursor ((flatCursor bytes known encoding).varint bits true))
      else skipBytes (flatCursor bytes known encoding) n
      pure node : ScanM Nat τ NbtNode) := by
    intro n bits
    by_cases hv : encoding.varints = true
    · simp only [hv, if_true]
      exact throws_bind (throws_discard (throws_onCursor (varint_faults _ _))) fun _ => throws_pure _
    · simp only [hv]
      exact hskip n
  have harray : Throws (readArray (flatCursor bytes known encoding) encoding store node) := by
    refine throws_bind (throws_onCursor int_faults) fun length => throws_ite (throws_throw (by simp [Thrown]) _) ?_
    exact throws_bind throws_get fun _ => throws_bind (throws_putNode hstore _) fun _ =>
      throws_bind (throws_skip _) fun _ => throws_pure _
  have hlist : Throws (readList (flatCursor bytes known encoding) encoding node : ScanM Nat τ NbtNode) := by
    refine throws_bind (throws_onCursor byte_faults) fun b => throws_bind (throws_onCursor int_faults) fun length =>
      throws_bind (throws_orThrow (assertTag_faults _ _)) fun elementType => throws_ite (throws_throw (by simp [Thrown]) _) ?_
    exact throws_bind (fun _ _ _ h => nomatch h) fun _ => throws_pure _
  unfold readPayload
  split
  · rintro _ _ _ ⟨⟩
    simp [Thrown]
  · exact hskip 1
  · exact hskip 2
  · exact hvar 4 32
  · exact hvar 8 64
  · exact hskip 4
  · exact hskip 8
  · exact throws_bind (throws_onCursor string_faults) fun _ => throws_pure _
  · exact harray
  · exact harray
  · exact harray
  · exact hlist
  · exact throws_bind (fun _ _ _ h => nomatch h) fun _ => throws_pure _

section

variable (hstore : ∀ s node, Faults (store.put s node))
include hstore

theorem throws_readNode (type : NbtTag) (start : Nat) (name : Option NbtSpan) :
    Throws (readNode (flatCursor bytes known encoding) encoding store maxDepth type start name) := by
  refine throws_ite (throws_throw (by simp [Thrown]) _) ?_
  exact throws_bind throws_get fun _ => throws_bind (throws_set _) fun _ =>
    throws_bind (throws_readPayload hstore _) fun _ => throws_bind (throws_modify _) fun _ =>
    throws_bind throws_get fun _ => throws_bind (throws_putNode hstore _) fun _ => throws_bind throws_get fun _ =>
    throws_ite (throws_throw (by simp [Thrown]) _) (throws_pure _)

theorem throws_closeFrame (frame : Frame) (rest : List Frame) :
    Throws (closeFrame (flatCursor bytes known encoding) store frame rest) :=
  throws_bind throws_get fun _ => throws_bind (throws_putNode hstore _) fun _ => throws_modify _

theorem throws_scanStep (frame : Frame) (rest : List Frame) :
    Throws (scanStep (flatCursor bytes known encoding) encoding store maxDepth frame rest) := by
  refine throws_bind throws_get fun st => ?_
  match frame.remaining with
  | none =>
    refine throws_bind (throws_onCursor byte_faults) fun b => throws_bind (throws_orThrow (assertTag_faults _ _)) fun type => ?_
    exact throws_ite (throws_closeFrame hstore frame rest)
      (throws_bind (throws_onCursor string_faults) fun _ => throws_discard (throws_readNode hstore _ _ _))
  | some 0 => exact throws_closeFrame hstore frame rest
  | some (k + 1) => exact throws_bind (throws_set _) fun _ => throws_discard (throws_readNode hstore _ _ _)

theorem throws_scanLoop {fuel : Nat} (st : ScanState Nat τ)
    (hle : st.cursor ≤ bytes.length) (hdepth : st.stack.length ≤ maxDepth)
    (hfuel : st.budget bytes.length maxDepth < fuel) :
    ThrowsFrom (scanLoop (flatCursor bytes known encoding) encoding store maxDepth fuel) st := by
  induction fuel generalizing st with
  | zero => omega
  | succ fuel ih =>
    refine throwsFrom_bind (throws_get st) fun st' s hget => ?_
    cases hget
    cases hstack : st.stack with
    | nil => exact throws_pure _ st
    | cons frame rest =>
      refine throwsFrom_bind (throws_scanStep hstore frame rest st) fun _ s hstep => ?_
      obtain ⟨h₁, h₂, h₃⟩ := scanStep_spends hstack hle hdepth hstep
      exact ih s h₁ h₂ (by omega)

end

theorem throws_readEnvelope : Throws (readEnvelope (flatCursor bytes known encoding) encoding : ScanM Nat τ _) :=
  throws_ite (throws_bind (throws_onCursor (fixed_faults _ _)) fun _ =>
    throws_bind (throws_onCursor (fixed_faults _ _)) fun _ => throws_pure _) (throws_pure _)

theorem throws_scanEnd (expected : Option Nat) :
    Throws (scanEnd (flatCursor bytes known encoding) expected : ScanM Nat τ Nat) := by
  -- without an expected end only the checks of the envelope's length fall away
  have hnone : Throws (scanEnd (flatCursor bytes known encoding) none : ScanM Nat τ Nat) := by
    refine throws_bind throws_get fun st => ?_
    refine throws_bind (throws_orThrow (faults_ok _)) fun more => throws_ite (throws_throw (by simp [Thrown]) _) ?_
    split
    · exact throws_ite (throws_throw (by simp [Thrown]) _) (throws_pure _)
    · exact throws_pure _
  cases expected with
  | none => exact hnone
  | some e =>
    intro st
    refine throwsFrom_bind (throws_get st) fun a s hget => ?_
    cases hget
    by_cases he : e ≠ (flatCursor bytes known encoding).position st.cursor
    · simp only [if_pos he]
      exact throws_throw (by simp [Thrown]) _ st
    · simp only [if_neg he]
      exact hnone st

/-- Turns that are enough for any scan of `length` bytes. -/
def scanFuel (length maxDepth : Nat) : Nat := 2 * length + maxDepth + 2

theorem throws_scanNbt (hstore : ∀ s node, Faults (store.put s node)) {fuel : Nat}
    (hfuel : scanFuel bytes.length maxDepth ≤ fuel) (s₀ : τ) :
    ThrowsFrom (scanNbt (flatCursor bytes known encoding) encoding store maxDepth fuel) (ScanState.initial 0 s₀) := by
  -- what follows the name of the root
  have hroot : ∀ type start name (level expected : Option Nat) cursor, cursor ≤ bytes.length →
      ThrowsFrom (do
        let root ← readNode (flatCursor bytes known encoding) encoding store maxDepth type start name
        scanLoop (flatCursor bytes known encoding) encoding store maxDepth fuel
        let bytes ← scanEnd (flatCursor bytes known encoding) expected
        let st ← get
        pure { root := root.id, bytes, nodes := st.nodes, levelVersion := level : NbtScanResult })
        ⟨cursor, [], 0, s₀⟩ := by
    intro type start name level expected cursor hle
    refine throwsFrom_bind (throws_readNode hstore _ _ _ _) fun root st hread => ?_
    have hbefore : (⟨cursor, [], 0, s₀⟩ : ScanState Nat τ).cursor ≤ bytes.length := hle
    obtain ⟨-, h₁, h₂, h₃⟩ := readNode_spends hbefore hread
    refine throwsFrom_bind (throws_scanLoop hstore st h₁ h₂ (lt_of_lt_of_le h₃ ?_)) fun _ st' _ => ?_
    · simp only [ScanState.budget, openLists, openCompounds, scanFuel, filter_nil, length_nil] at hfuel ⊢
      omega
    · exact throws_bind (throws_scanEnd expected) (fun _ => throws_bind throws_get fun _ => throws_pure _) st'
  by_cases hlittle : (encoding.bedrockLevel && encoding.endian != .little) = true
  · simp only [scanNbt, if_pos hlittle]
    exact throws_throw (by simp [Thrown]) _ _
  · simp only [scanNbt, if_neg hlittle]
    refine throwsFrom_bind (throws_readEnvelope _) fun envelope st₁ henvelope => ?_
    obtain ⟨level, expected⟩ := envelope
    obtain ⟨header, hheader, rfl, -⟩ := readEnvelope_reads hlittle henvelope
    refine throwsFrom_bind (throws_get _) fun st st' hget => ?_
    cases hget
    refine throwsFrom_bind (throws_onCursor byte_faults _) fun b st₂ hbyte => ?_
    obtain ⟨c, hcode, rfl⟩ := onCursor_returns.mp hbyte
    obtain ⟨rfl, hattype⟩ := flatByte_reads hcode
    refine throwsFrom_bind (throws_orThrow (assertTag_faults _ _) _) fun type st₃ htag => ?_
    obtain ⟨-, rfl⟩ := orThrow_returns.mp htag
    by_cases hnamed : encoding.namedRoot = true
    · simp only [if_pos hnamed]
      refine throwsFrom_bind (throws_map some (throws_onCursor string_faults) _) fun name st₄ hname => ?_
      simp only [Functor.map, EStateM.map] at hname
      split at hname
      · next span st₅ hstring =>
        cases hname
        obtain ⟨c, hread, rfl⟩ := onCursor_returns.mp hstring
        obtain ⟨t, -, hatname, rfl, rfl⟩ := string_reads hattype.le hread
        exact hroot _ _ _ _ _ _ hatname.le
      · cases hname
    · simp only [if_neg hnamed]
      exact hroot _ _ _ _ _ _ hattype.le

end Ends

section Fragments

variable {bytes : Bytes} {size : Option Nat} {encoding : NbtEncoding}

/-- A cursor whose operation number `k` reads through `sources k`: every read may be cut short in its own way. No
operation asks for one range twice. -/
def fragmentedCursor (sources : Nat → NbtByteSource) (size : Option Nat) (encoding : NbtEncoding) :
    CursorOps (NbtCursor × Nat) where
  position s := s.1.position
  byte s := (NbtCursor.byte (sources s.2) s.1).map fun (b, c) => (b, c, s.2 + 1)
  fixed n unsigned s := (NbtCursor.fixed (sources s.2) encoding.isLittle n unsigned s.1).map fun (v, c) => (v, c, s.2 + 1)
  skip n s := (NbtCursor.skip (sources s.2) n s.1).map fun c => (c, s.2 + 1)
  rest s := ((sources s.2).read s.1.position 1).map List.length
  size := size

structure Fragments (sources : Nat → NbtByteSource) (size : Option Nat) (bytes : Bytes) : Prop where
  conforms : ∀ k, Conforms (sources k) bytes
  size_eq : ∀ k, (sources k).size = size

theorem ExceptRel.counted {α : Type} {x : Except NbtError (α × NbtCursor)} {y : Except NbtError (α × Nat)} {k : Nat}
    (h : ExceptRel (NbtCursor.Shows bytes) x y) :
    ExceptRel (fun (s : NbtCursor × Nat) p => s.1.Shows bytes p) (x.map fun (a, c) => (a, c, k)) y := by
  match x, y with
  | .error _, .error _ => exact h
  | .ok (a, c), .ok (b, p) => exact h
  | .error _, .ok _ => exact h.elim
  | .ok _, .error _ => exact h.elim

variable {sources : Nat → NbtByteSource}

theorem fragmentedCursor_sim (h : Fragments sources size bytes) (encoding : NbtEncoding) :
    CursorOps.Sim (fun s p => s.1.Shows bytes p) (fragmentedCursor sources size encoding)
      (flatCursor bytes size.isSome encoding) where
  position _ _ hs := hs.1
  byte s _ hs := (byte_sim (h.conforms s.2) hs).counted
  fixed n u s _ hs := (fixed_sim (h.conforms s.2) encoding _ n u hs).counted
  skip n s p hs := by
    have hskip := (skip_sim (h.conforms s.2) n hs).counted (k := s.2 + 1)
    rw [h.size_eq] at hskip
    have hmap : ((NbtCursor.skip (sources s.2) n s.1).map ((), ·)).map (fun (a, c) => (a, c, s.2 + 1))
        = ((NbtCursor.skip (sources s.2) n s.1).map fun c => (c, s.2 + 1)).map ((), ·) := by
      cases NbtCursor.skip (sources s.2) n s.1 <;> rfl
    rw [hmap] at hskip
    exact hskip
  rest s p hs := by
    have hrest := (nbtCursor_sim (h.conforms s.2) encoding).rest s.1 p hs
    exact hrest
  size := by
    have hsize := (nbtCursor_sim (h.conforms 0) encoding).size
    simp only [nbtCursor, flatCursor, h.size_eq] at hsize
    exact hsize

def fragmentedScan {τ : Type} (sources : Nat → NbtByteSource) (size : Option Nat) (encoding : NbtEncoding)
    (store : IndexStore τ) (maxDepth fuel : Nat) (s₀ : τ) :
    EStateM.Result NbtError (ScanState (NbtCursor × Nat) τ) NbtScanResult :=
  scanNbt (fragmentedCursor sources size encoding) encoding store maxDepth fuel (ScanState.initial ({}, 0) s₀)

theorem fragmentedScan_flat {τ : Type} (h : Fragments sources size bytes)
    (encoding : NbtEncoding) (store : IndexStore τ) (maxDepth fuel : Nat) (s₀ : τ) :
    ResultRel (fun s p => s.1.Shows bytes p) (fragmentedScan sources size encoding store maxDepth fuel s₀)
      (scanNbt (flatCursor bytes size.isSome encoding) encoding store maxDepth fuel (ScanState.initial 0 s₀)) := by
  have hstart : StateRel (fun (s : NbtCursor × Nat) p => s.1.Shows bytes p) (ScanState.initial ({}, 0) s₀)
      (ScanState.initial 0 s₀) := ⟨⟨rfl, Nat.zero_le _, nil_prefix⟩, rfl, rfl, rfl⟩
  exact scanNbt_sim (fragmentedCursor_sim h encoding) encoding store maxDepth fuel _ _ hstart

theorem fragmentedScan_cases {τ : Type} (h : Fragments sources size bytes)
    (encoding : NbtEncoding) {store : IndexStore τ} (hstore : ∀ s node, Faults (store.put s node)) {maxDepth fuel : Nat}
    (hfuel : scanFuel bytes.length maxDepth ≤ fuel) (s₀ : τ) :
    (∃ header level doc s, RawDocument.Fills encoding bytes header level doc ∧ doc.root.depth ≤ maxDepth ∧
        (doc.root.puts (doc.placeAt header.length)).foldlM store.put s₀ = .ok s ∧
        ∃ st, fragmentedScan sources size encoding store maxDepth fuel s₀
          = .ok ⟨0, bytes.length, doc.root.size, level⟩ st ∧ st.store = s) ∨
      ((¬∃ header level doc s, RawDocument.Fills encoding bytes header level doc ∧ doc.root.depth ≤ maxDepth ∧
          (doc.root.puts (doc.placeAt header.length)).foldlM store.put s₀ = .ok s) ∧
        ∃ e st, fragmentedScan sources size encoding store maxDepth fuel s₀ = .error e st ∧ Thrown e) := by
  have hsim := fragmentedScan_flat h encoding store maxDepth fuel s₀
  have hsafe := (h.conforms 0).addressable
  match hflat : scanNbt (flatCursor bytes size.isSome encoding) encoding store maxDepth fuel (ScanState.initial 0 s₀) with
  | .ok result fin =>
    obtain ⟨header, level, doc, s, hfills, hdepth, hputs, rfl, rfl⟩ := scanNbt_accepts hflat
    rw [hflat] at hsim
    match hscan : fragmentedScan sources size encoding store maxDepth fuel s₀ with
    | .ok result st =>
      rw [hscan] at hsim
      obtain ⟨rfl, hst⟩ := hsim
      exact .inl ⟨header, level, doc, s, hfills, hdepth, hputs, st, rfl, hst.store⟩
    | .error e st =>
      rw [hscan] at hsim
      exact hsim.elim
  | .error e fin =>
    have hthrown := throws_scanNbt hstore hfuel s₀ e fin hflat
    rw [hflat] at hsim
    match hscan : fragmentedScan sources size encoding store maxDepth fuel s₀ with
    | .ok result st =>
      rw [hscan] at hsim
      exact hsim.elim
    | .error e' st =>
      rw [hscan] at hsim
      obtain ⟨rfl, -⟩ := hsim
      refine .inr ⟨?_, e', st, rfl, hthrown⟩
      rintro ⟨header, level, doc, s, hfills, hdepth, hputs⟩
      rw [scanNbt_fills size.isSome store hsafe hfills hdepth (by rw [scanFuel] at hfuel; omega) hputs] at hflat
      cases hflat

theorem fragmentedScan_agree {τ : Type} (h : Fragments sources size bytes)
    {header : Bytes} {level : Option Nat} {doc : RawDocument} {store : IndexStore τ} {maxDepth fuel : Nat} {s₀ s : τ}
    (hfills : doc.Fills encoding bytes header level) (hdepth : doc.root.depth ≤ maxDepth)
    (hfuel : scanFuel bytes.length maxDepth ≤ fuel)
    (hputs : (doc.root.puts (doc.placeAt header.length)).foldlM store.put s₀ = .ok s) :
    ∃ st, fragmentedScan sources size encoding store maxDepth fuel s₀ = .ok ⟨0, bytes.length, doc.root.size, level⟩ st ∧
      st.store = s := by
  have hsim := fragmentedScan_flat h encoding store maxDepth fuel s₀
  rw [scanNbt_fills size.isSome store (h.conforms 0).addressable hfills hdepth (by rw [scanFuel] at hfuel; omega) hputs] at hsim
  match hscan : fragmentedScan sources size encoding store maxDepth fuel s₀ with
  | .ok result st =>
    rw [hscan] at hsim
    obtain ⟨rfl, hst⟩ := hsim
    exact ⟨st, rfl, hst.store⟩
  | .error e st =>
    rw [hscan] at hsim
    exact hsim.elim

theorem memory_faults (ix : MemoryNbtIndex) (node : NbtNode) : Faults (MemoryNbtIndex.store.put ix node) := by
  simp only [MemoryNbtIndex.store, MemoryNbtIndex.put]
  split
  · split_ifs
    · exact faults_error (by simp [Thrown])
    · exact faults_ok _
  · split
    · exact faults_ok _
    · exact faults_ok _

/-- Two sources of the same bytes, whatever fragments they answer in and whether or not they know their size, are
scanned alike: both scans throw, or both return the same result and leave the same index. An index that a scan
filled is well formed. -/
theorem scan_independent_of_source {sources₁ sources₂ : Nat → NbtByteSource} {size₁ size₂ : Option Nat}
    (h₁ : Fragments sources₁ size₁ bytes) (h₂ : Fragments sources₂ size₂ bytes) (encoding : NbtEncoding) {maxDepth : Nat}
    {fuel₁ fuel₂ : Nat} (hfuel₁ : scanFuel bytes.length maxDepth ≤ fuel₁) (hfuel₂ : scanFuel bytes.length maxDepth ≤ fuel₂) :
    (∃ e₁ e₂ st₁ st₂, fragmentedScan sources₁ size₁ encoding MemoryNbtIndex.store maxDepth fuel₁ .empty = .error e₁ st₁ ∧
        fragmentedScan sources₂ size₂ encoding MemoryNbtIndex.store maxDepth fuel₂ .empty = .error e₂ st₂ ∧
        Thrown e₁ ∧ Thrown e₂) ∨
      ∃ result st₁ st₂, fragmentedScan sources₁ size₁ encoding MemoryNbtIndex.store maxDepth fuel₁ .empty = .ok result st₁ ∧
        fragmentedScan sources₂ size₂ encoding MemoryNbtIndex.store maxDepth fuel₂ .empty = .ok result st₂ ∧
        st₁.store = st₂.store ∧ result.root = 0 ∧ st₁.store.WellFormed result.nodes := by
  rcases fragmentedScan_cases h₁ encoding memory_faults hfuel₁ .empty with
    ⟨header, level, doc, s, hfills, hdepth, hputs, st₁, hscan₁, rfl⟩ | ⟨hnone, e₁, st₁, hscan₁, hthrown₁⟩
  · obtain ⟨st₂, hscan₂, hstore⟩ := fragmentedScan_agree h₂ hfills hdepth hfuel₂ hputs
    refine .inr ⟨_, st₁, st₂, hscan₁, hscan₂, hstore.symm, rfl, ?_⟩
    obtain ⟨ix, hput, hindexed, hext⟩ := puts_indexed doc.root (doc.placeAt header.length) .empty
      MemoryNbtIndex.fresh_empty (by rintro p ⟨⟩)
    have hsame : st₁.store = ix := by
      have h := hputs.symm.trans hput
      exact Except.ok.inj h
    rw [hsame]
    have hstart : (doc.placeAt header.length).start ≤ (doc.placeAt header.length).payload := by
      simp only [RawDocument.placeAt]
      omega
    exact hindexed.wellFormed hfills.valid.root hext.fresh rfl rfl hstart
  · rcases fragmentedScan_cases h₂ encoding memory_faults hfuel₂ .empty with
      ⟨header, level, doc, s, hfills, hdepth, hputs, -⟩ | ⟨-, e₂, st₂, hscan₂, hthrown₂⟩
    · exact absurd ⟨header, level, doc, s, hfills, hdepth, hputs⟩ hnone
    · exact .inl ⟨e₁, e₂, st₁, st₂, hscan₁, hscan₂, hthrown₁, hthrown₂⟩

/-- A source that answers with at most `n` bytes and does not know its size. -/
def trickleSource (bytes : Bytes) (n : Nat) : NbtByteSource where
  size := none
  read offset length := .ok (slice bytes offset (min length n))

theorem trickleSource_conforms {n : Nat} (hn : 0 < n) (h : bytes.length ≤ maxSafeInteger) :
    Conforms (trickleSource bytes n) bytes where
  addressable := h
  size_eq _ hsize := by cases hsize
  read_ok offset length _ _ := by
    refine ⟨_, rfl, take_prefix_take_left (Nat.min_le_left length n), fun hnil => ?_⟩
    have hlen := congrArg List.length hnil
    simp only [slice, length_take, length_drop, length_nil] at hlen
    refine length_eq_zero_iff.mp ?_
    simp only [slice, length_take, length_drop]
    omega
  read_past offset length hlt _ _ := by
    simp only [trickleSource, slice_eq_nil_of_le bytes hlt.le]

/-- A compound with one byte, from a source that knows its size and from one that answers in one to three bytes. -/
theorem scan_independent_of_source_trickle : ∃ result st₁ st₂,
      fragmentedScan (fun _ => memoryNbtSource [10, 0, 0, 1, 0, 1, 97, 5, 0]) (some 9) ⟨.big, true, .mutf8, false⟩
        MemoryNbtIndex.store 8 28 .empty = .ok result st₁ ∧
      fragmentedScan (fun k => trickleSource [10, 0, 0, 1, 0, 1, 97, 5, 0] (k % 3 + 1)) none ⟨.big, true, .mutf8, false⟩
        MemoryNbtIndex.store 8 40 .empty = .ok result st₂ ∧
      st₁.store = st₂.store ∧ result.root = 0 ∧ st₁.store.WellFormed result.nodes := by
  have h₁ : Fragments (fun _ => memoryNbtSource [10, 0, 0, 1, 0, 1, 97, 5, 0]) (some 9) [10, 0, 0, 1, 0, 1, 97, 5, 0] :=
    ⟨fun _ => memoryNbtSource_conforms (by decide), fun _ => rfl⟩
  have h₂ : Fragments (fun k => trickleSource [10, 0, 0, 1, 0, 1, 97, 5, 0] (k % 3 + 1)) none [10, 0, 0, 1, 0, 1, 97, 5, 0] :=
    ⟨fun k => trickleSource_conforms (Nat.succ_pos _) (by decide), fun _ => rfl⟩
  rcases @scan_independent_of_source _ _ _ _ _ h₁ h₂ ⟨.big, true, .mutf8, false⟩ 8 28 40 (by decide) (by decide) with
    ⟨e₁, e₂, st₁, st₂, herror, -⟩ | hok
  · have hreturns : (match fragmentedScan (fun _ => memoryNbtSource [10, 0, 0, 1, 0, 1, 97, 5, 0]) (some 9)
        ⟨.big, true, .mutf8, false⟩ MemoryNbtIndex.store 8 28 .empty with
      | .ok .. => true
      | .error .. => false) = true := by decide +kernel
    rw [herror] at hreturns
    cases hreturns
  · exact hok

end Fragments

/-- The scan returns exactly for the bytes of a document that is no deeper than it may be, however its source cuts them. -/
theorem scan_decides {sources : Nat → NbtByteSource} {size : Option Nat} {bytes : Bytes} (h : Fragments sources size bytes)
    (encoding : NbtEncoding) {maxDepth fuel : Nat} (hfuel : scanFuel bytes.length maxDepth ≤ fuel) (result : NbtScanResult) :
    (∃ st, fragmentedScan sources size encoding MemoryNbtIndex.store maxDepth fuel .empty = .ok result st) ↔
      ∃ header level doc, RawDocument.Fills encoding bytes header level doc ∧ doc.root.depth ≤ maxDepth ∧
        result = ⟨0, bytes.length, doc.root.size, level⟩ := by
  constructor
  · rintro ⟨st, hscan⟩
    rcases fragmentedScan_cases h encoding memory_faults hfuel .empty with
      ⟨header, level, doc, _, hfills, hdepth, _, _, hscan', _⟩ | ⟨_, _, _, herror, _⟩
    · rw [hscan] at hscan'
      cases hscan'
      exact ⟨header, level, doc, hfills, hdepth, rfl⟩
    · rw [hscan] at herror
      cases herror
  · rintro ⟨header, level, doc, hfills, hdepth, rfl⟩
    obtain ⟨ix, hputs, -⟩ := puts_indexed doc.root (doc.placeAt header.length) .empty MemoryNbtIndex.fresh_empty (by rintro p ⟨⟩)
    have hput : (Raw.puts (doc.placeAt header.length) doc.root).foldlM MemoryNbtIndex.store.put .empty = .ok ix := hputs
    obtain ⟨st, hscan, -⟩ := fragmentedScan_agree h hfills hdepth hfuel hput
    exact ⟨st, hscan⟩

/-- What the scan of the compound returns says that its nine bytes are a document. -/
theorem scan_decides_compound : ∃ header level doc,
    RawDocument.Fills ⟨.big, true, .mutf8, false⟩ [10, 0, 0, 1, 0, 1, 97, 5, 0] header level doc ∧ doc.root.size = 2 := by
  have h : Fragments (fun k => trickleSource [10, 0, 0, 1, 0, 1, 97, 5, 0] (k % 3 + 1)) none [10, 0, 0, 1, 0, 1, 97, 5, 0] :=
    ⟨fun k => trickleSource_conforms (Nat.succ_pos _) (by decide), fun _ => rfl⟩
  have hreturns : (match fragmentedScan (fun k => trickleSource [10, 0, 0, 1, 0, 1, 97, 5, 0] (k % 3 + 1)) none
      ⟨.big, true, .mutf8, false⟩ MemoryNbtIndex.store 8 40 .empty with
    | .ok result _ => result.nodes == 2
    | .error .. => false) = true := by decide +kernel
  split at hreturns
  · next result st hscan =>
    obtain ⟨header, level, doc, hfills, -, rfl⟩ := (scan_decides h _ (by decide) result).mp ⟨st, hscan⟩
    exact ⟨header, level, doc, hfills, beq_iff_eq.mp hreturns⟩
  · cases hreturns

end Cantrip.Nbt
