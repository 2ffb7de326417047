import Cantrip.Nbt.Strings

/-!
# The byte cursor (`packages/nbt/src/cursor.ts`)

`NbtCursor` reads a byte source through a 64 KiB window. What the scanner uses of it is collected in
`CursorOps`, so that the scanner can also be run over a plain byte string (`flatCursor`): the window
is only a cache, and over a conforming source every operation of the windowed cursor gives the result
of the flat one at the same position (`nbtCursor_sim`).
-/

namespace Cantrip.Nbt

open Lib List Except Option

/-- What a scan uses of a cursor with state `σ`: its position, one byte, a fixed-width integer, a
skipped range, and, at the end, how many bytes one more read would give. -/
structure CursorOps (σ : Type) where
  position : σ → Nat
  byte : σ → Except NbtError (UInt8 × σ)
  fixed : Nat → Bool → σ → Except NbtError (Int × σ)
  skip : Nat → σ → Except NbtError σ
  rest : σ → Except NbtError Nat
  size : Option Nat

/-! ## Readers over any cursor -/

namespace CursorOps

variable {σ : Type} (cur : CursorOps σ)

/-- The loop of `varint`: `count` bytes may still be read, the next one at bit `7 * i`. -/
def varintGo (bits offset : Nat) : Nat → Nat → Nat → σ → Except NbtError (Nat × σ)
  | 0, _, _, _ => .error ⟨offset, "Unterminated varint"⟩
  | count + 1, i, value, s => do
    let (b, s) ← cur.byte s
    let value := value ||| (payload7 b <<< (i * 7))
    if continues b then varintGo bits offset count (i + 1) value s
    else if 2 ^ bits ≤ value then .error ⟨offset, "Varint exceeds its numeric type"⟩
    else .ok (value, s)

def varint (bits : Nat) (zigzag : Bool) (s : σ) : Except NbtError (Int × σ) := do
  let (value, s) ← cur.varintGo bits (cur.position s) ((bits + 6) / 7) 0 0 s
  .ok (if zigzag then unzigzag value else value, s)

def int (encoding : NbtEncoding) (s : σ) : Except NbtError (Int × σ) :=
  if encoding.varints then cur.varint 32 true s else cur.fixed 4 false s

def stringLength (encoding : NbtEncoding) (s : σ) : Except NbtError (Int × σ) :=
  if encoding.varints then cur.varint 32 false s else cur.fixed 2 true s

def string (encoding : NbtEncoding) (s : σ) : Except NbtError (NbtSpan × σ) := do
  let (length, s) ← cur.stringLength encoding s
  let span : NbtSpan := ⟨cur.position s, length.toNat⟩
  let s ← cur.skip length.toNat s
  .ok (span, s)

end CursorOps

/-- The number a `DataView` gives for the bytes of a fixed-width read; eight bytes are always read as
a signed 64-bit integer. -/
def viewInt (little unsigned : Bool) (bs : Bytes) : Int :=
  if unsigned && bs.length != 8 then getUint little bs else getInt little bs

/-! ## The windowed cursor -/

structure NbtCursor where
  position : Nat := 0
  buffer : Bytes := []
  start : Nat := 0
  deriving DecidableEq, Repr

namespace NbtCursor

variable (source : NbtByteSource)

/-- Fill the window at the current position unless it covers it. -/
def fill (c : NbtCursor) : Except NbtError NbtCursor :=
  if c.position < c.start ∨ c.start + c.buffer.length ≤ c.position then do
    let buffer ← source.read c.position NBT_CHUNK_BYTES
    if NBT_CHUNK_BYTES < buffer.length then .error ⟨c.position, "Source exceeded requested range"⟩
    else if buffer = [] then .error ⟨c.position, "Unexpected end of NBT"⟩
    else .ok { c with buffer := buffer, start := c.position }
  else .ok c

def byte (c : NbtCursor) : Except NbtError (UInt8 × NbtCursor) := do
  let c ← fill source c
  .ok (c.buffer.getD (c.position - c.start) 0, { c with position := c.position + 1 })

/-- `bytes` single reads. -/
def bytewise : Nat → NbtCursor → Except NbtError (Bytes × NbtCursor)
  | 0, c => .ok ([], c)
  | n + 1, c => do
    let (b, c) ← byte source c
    let (bs, c) ← bytewise n c
    .ok (b :: bs, c)

def fixed (little : Bool) (bytes : Nat) (unsigned : Bool) (c : NbtCursor) : Except NbtError (Int × NbtCursor) := do
  -- lengths and scalar headers normally fit in the current window
  let (bs, c) ←
    if c.start ≤ c.position ∧ c.position + bytes ≤ c.start + c.buffer.length then
      .ok (slice c.buffer (c.position - c.start) bytes, { c with position := c.position + bytes })
    else bytewise source bytes c
  .ok (viewInt little unsigned bs, c)

def skip (length : Nat) (c : NbtCursor) : Except NbtError NbtCursor := do
  assertRange c.position length
  let target := c.position + length
  match source.size with
  | some size => if size < target then .error ⟨c.position, "Payload exceeds source length"⟩ else .ok ()
  | none =>
    -- a buffered read already validated this range
    if length ≠ 0 ∧ ¬(c.start ≤ c.position ∧ target ≤ c.start + c.buffer.length) then do
      let last ← source.read (target - 1) 1
      if last.length ≠ 1 then .error ⟨c.position, "Truncated payload"⟩ else .ok ()
    else .ok ()
  .ok { c with position := target }

end NbtCursor

/-- The cursor `scanNbt` makes for a source. -/
def nbtCursor (source : NbtByteSource) (encoding : NbtEncoding) : CursorOps NbtCursor where
  position := NbtCursor.position
  byte := NbtCursor.byte source
  fixed := NbtCursor.fixed source encoding.isLittle
  skip := NbtCursor.skip source
  rest c := (source.read c.position 1).map List.length
  size := source.size

section Flat

variable (bytes : Bytes)

def flatByte (p : Nat) : Except NbtError (UInt8 × Nat) :=
  match bytes[p]? with
  | some b => .ok (b, p + 1)
  | none => .error ⟨p, "Unexpected end of NBT"⟩

def flatBytes : Nat → Nat → Except NbtError (Bytes × Nat)
  | 0, p => .ok ([], p)
  | n + 1, p => do
    let (b, p) ← flatByte bytes p
    let (bs, p) ← flatBytes n p
    .ok (b :: bs, p)

def flatSkip (known : Bool) (length p : Nat) : Except NbtError Nat := do
  assertRange p length
  if bytes.length < p + length then
    .error ⟨p, if known then "Payload exceeds source length" else "Truncated payload"⟩
  else .ok (p + length)

def flatCursor (known : Bool) (encoding : NbtEncoding) : CursorOps Nat where
  position p := p
  byte := flatByte bytes
  fixed n unsigned p := do
    let (bs, p) ← flatBytes bytes n p
    .ok (viewInt encoding.isLittle unsigned bs, p)
  skip := flatSkip bytes known
  rest p := .ok (slice bytes p 1).length
  size := if known then some bytes.length else none

theorem flatByte_eq {p : Nat} (h : p < bytes.length) : flatByte bytes p = .ok (bytes[p], p + 1) := by
  simp [flatByte, h]

theorem flatBytes_eq {n p : Nat} (h : p + n ≤ bytes.length) : flatBytes bytes n p = .ok (slice bytes p n, p + n) := by
  induction n generalizing p with
  | zero => simp [flatBytes]
  | succ n ih =>
    have hcons : slice bytes p (n + 1) = bytes[p] :: slice bytes (p + 1) n := by
      rw [slice, drop_eq_getElem_cons (by omega), take_succ_cons]
      rfl
    rw [flatBytes, flatByte_eq bytes (by omega)]
    simp only [bind, Except.bind]
    rw [ih (by omega), hcons]
    simp only [ok.injEq, Prod.mk.injEq, true_and]
    omega

theorem flatSkip_eq {known : Bool} {length p : Nat} (h : p + length ≤ bytes.length)
    (hsafe : bytes.length ≤ maxSafeInteger) : flatSkip bytes known length p = .ok (p + length) := by
  rw [flatSkip, assertRange_ok (by omega)]
  simp only [bind, Except.bind]
  rw [if_neg (by omega)]

end Flat

/-! ## Sources and the window -/

/-- `source` serves the byte string `bytes`: positions in it are safe integers, a read of at most one
chunk returns a prefix of what it was asked for, and an empty read means that nothing was there. -/
structure Conforms (source : NbtByteSource) (bytes : Bytes) : Prop where
  addressable : bytes.length ≤ maxSafeInteger
  size_eq : ∀ n, source.size = some n → n = bytes.length
  read_ok : ∀ offset length, offset ≤ bytes.length → length ≤ NBT_CHUNK_BYTES →
    ∃ chunk, source.read offset length = .ok chunk ∧ chunk <+: slice bytes offset length ∧
      (chunk = [] → slice bytes offset length = [])
  read_past : ∀ offset length, bytes.length < offset → length ≤ NBT_CHUNK_BYTES → offset + length ≤ maxSafeInteger →
    source.read offset length = .ok []

/-- Two results agree: the same error, or the same value with related states. -/
def ExceptRel {α σ₁ σ₂ : Type} (R : σ₁ → σ₂ → Prop) : Except NbtError (α × σ₁) → Except NbtError (α × σ₂) → Prop
  | .error e₁, .error e₂ => e₁ = e₂
  | .ok (a₁, s₁), .ok (a₂, s₂) => a₁ = a₂ ∧ R s₁ s₂
  | _, _ => False

/-- Cursors whose operations agree on related states. -/
structure CursorOps.Sim {σ₁ σ₂ : Type} (R : σ₁ → σ₂ → Prop) (c₁ : CursorOps σ₁) (c₂ : CursorOps σ₂) : Prop where
  position : ∀ s t, R s t → c₁.position s = c₂.position t
  byte : ∀ s t, R s t → ExceptRel R (c₁.byte s) (c₂.byte t)
  fixed : ∀ n u s t, R s t → ExceptRel R (c₁.fixed n u s) (c₂.fixed n u t)
  skip : ∀ n s t, R s t → ExceptRel R ((c₁.skip n s).map ((), ·)) ((c₂.skip n t).map ((), ·))
  rest : ∀ s t, R s t → (c₁.rest s).map (· == 0) = (c₂.rest t).map (· == 0)
  size : c₁.size = c₂.size

section Window

variable {source : NbtByteSource} {bytes : Bytes}

def NbtCursor.Shows (bytes : Bytes) (c : NbtCursor) (p : Nat) : Prop :=
  c.position = p ∧ p ≤ bytes.length ∧ c.buffer <+: bytes.drop c.start

theorem slice_of_prefix {buffer : Bytes} {start p n : Nat} (hpre : buffer <+: bytes.drop start) (hlow : start ≤ p)
    (hhigh : p + n ≤ start + buffer.length) : slice buffer (p - start) n = slice bytes p n := by
  obtain ⟨tail, htail⟩ := hpre
  have hdrop : bytes.drop p = buffer.drop (p - start) ++ tail := by
    rw [show p = start + (p - start) by omega, ← drop_drop, ← htail, drop_append_of_le_length (by omega)]
    congr 2
    omega
  rw [slice, slice, hdrop, take_append_of_le_length (by rw [length_drop]; omega)]

section

variable (hsrc : Conforms source bytes)
include hsrc

variable {p : Nat} {c : NbtCursor}

theorem fill_shows (hc : c.Shows bytes p) :
    (p < bytes.length → ∃ c', NbtCursor.fill source c = .ok c' ∧ c'.Shows bytes p ∧ c'.start ≤ p ∧
      p < c'.start + c'.buffer.length) ∧
    (bytes.length ≤ p → NbtCursor.fill source c = .error ⟨p, "Unexpected end of NBT"⟩) := by
  obtain ⟨hpos, hle, hpre⟩ := hc
  have hsafe := hsrc.addressable
  have hbuf : c.start + c.buffer.length ≤ bytes.length ∨ c.buffer.length = 0 := by
    have := hpre.length_le
    rw [length_drop] at this
    omega
  unfold NbtCursor.fill
  by_cases hin : c.position < c.start ∨ c.start + c.buffer.length ≤ c.position
  · rw [if_pos hin]
    obtain ⟨chunk, hread, hprefix, hempty⟩ := hsrc.read_ok c.position NBT_CHUNK_BYTES (by omega) le_rfl
    have hlen : chunk.length ≤ NBT_CHUNK_BYTES := hprefix.length_le.trans (slice_length_le _ _ _)
    simp only [hread, bind, Except.bind]
    rw [if_neg (by omega)]
    constructor
    · intro hlt
      have hne : chunk ≠ [] := by
        intro h
        have hs := congrArg List.length (hempty h)
        simp only [slice, length_take, length_drop, length_nil, NBT_CHUNK_BYTES] at hs
        omega
      rw [if_neg hne]
      refine ⟨_, rfl, ⟨hpos, hle, ?_⟩, by simp [hpos], ?_⟩
      · exact hprefix.trans ( take_prefix _ _)
      · have := length_pos_iff.mpr hne
        simp only [hpos]
        omega
    · intro hge
      have hnil : chunk = [] := by
        have := hprefix.length_le
        rw [slice_eq_nil_of_le bytes (by omega)] at this
        exact length_eq_zero_iff.mp (by simpa using this)
      rw [if_pos hnil, hpos]
  · rw [if_neg hin]
    constructor
    · intro _
      exact ⟨c, rfl, ⟨hpos, hle, hpre⟩, by omega, by omega⟩
    · intro hge
      omega

theorem byte_sim (hc : c.Shows bytes p) : ExceptRel (NbtCursor.Shows bytes) (NbtCursor.byte source c) (flatByte bytes p) := by
  obtain ⟨hin, hout⟩ := fill_shows hsrc hc
  unfold NbtCursor.byte
  by_cases hlt : p < bytes.length
  · obtain ⟨c', hfill, ⟨hpos, -, hpre⟩, hlow, hhigh⟩ := hin hlt
    rw [flatByte_eq bytes hlt, hfill]
    simp only [bind, Except.bind, ExceptRel]
    refine ⟨?_, by rw [hpos], hlt, hpre⟩
    have hget := slice_of_prefix (n := 1) hpre hlow (by omega)
    have h1 := congrArg (·[0]?) hget
    simp only [slice_getElem? _ _ _ 0 (by decide : 0 < 1), Nat.add_zero] at h1
    rw [hpos, getD_eq_getElem?_getD, h1, getElem?_eq_getElem hlt, getD_some]
  · rw [hout (by omega)]
    have hnone : bytes[p]? = none := getElem?_eq_none (by omega)
    simp [flatByte, hnone, bind, Except.bind, ExceptRel]

theorem bytewise_sim (n : Nat) (hc : c.Shows bytes p) :
    ExceptRel (NbtCursor.Shows bytes) (NbtCursor.bytewise source n c) (flatBytes bytes n p) := by
  induction n generalizing c p with
  | zero => exact ⟨rfl, hc⟩
  | succ n ih =>
    have hbyte := byte_sim hsrc hc
    unfold NbtCursor.bytewise flatBytes
    match hb : NbtCursor.byte source c, hf : flatByte bytes p with
    | .error e₁, .error e₂ =>
      rw [hb, hf] at hbyte
      exact hbyte
    | .ok (b₁, c₁), .ok (b₂, p₂) =>
      rw [hb, hf] at hbyte
      obtain ⟨rfl, hc₁⟩ := hbyte
      have hrest := ih hc₁
      simp only [bind, Except.bind]
      match hb' : NbtCursor.bytewise source n c₁, hf' : flatBytes bytes n p₂ with
      | .error e₁, .error e₂ =>
        rw [hb', hf'] at hrest
        exact hrest
      | .ok (bs₁, c₂), .ok (bs₂, p₃) =>
        rw [hb', hf'] at hrest
        exact ⟨by rw [hrest.1], hrest.2⟩
      | .error _, .ok _ => rw [hb', hf'] at hrest; exact hrest.elim
      | .ok _, .error _ => rw [hb', hf'] at hrest; exact hrest.elim
    | .error _, .ok _ => rw [hb, hf] at hbyte; exact hbyte.elim
    | .ok _, .error _ => rw [hb, hf] at hbyte; exact hbyte.elim

theorem fixed_sim (encoding : NbtEncoding) (known : Bool) (n : Nat) (unsigned : Bool)
    (hc : c.Shows bytes p) :
    ExceptRel (NbtCursor.Shows bytes) (NbtCursor.fixed source encoding.isLittle n unsigned c)
      ((flatCursor bytes known encoding).fixed n unsigned p) := by
  simp only [NbtCursor.fixed, flatCursor]
  by_cases hwin : c.start ≤ c.position ∧ c.position + n ≤ c.start + c.buffer.length
  · -- the window covers the read: it shows what the single reads would give
    obtain ⟨hpos, hle, hpre⟩ := hc
    have hlen := hpre.length_le
    rw [length_drop] at hlen
    have hend : p + n ≤ bytes.length := by
      rcases Nat.eq_zero_or_pos n with h | h <;> omega
    rw [if_pos hwin, flatBytes_eq bytes hend, slice_of_prefix hpre hwin.1 hwin.2]
    simp only [bind, Except.bind, ExceptRel]
    exact ⟨by rw [hpos], by rw [hpos], hend, hpre⟩
  · rw [if_neg hwin]
    have h := bytewise_sim hsrc n hc
    match hb : NbtCursor.bytewise source n c, hf : flatBytes bytes n p with
    | .error e₁, .error e₂ => rw [hb, hf] at h; exact h
    | .ok (bs₁, c₁), .ok (bs₂, p₂) =>
      rw [hb, hf] at h
      obtain ⟨rfl, hc₁⟩ := h
      exact ⟨rfl, hc₁⟩
    | .error _, .ok _ => rw [hb, hf] at h; exact h.elim
    | .ok _, .error _ => rw [hb, hf] at h; exact h.elim

theorem skip_sim (length : Nat) (hc : c.Shows bytes p) :
    ExceptRel (NbtCursor.Shows bytes) ((NbtCursor.skip source length c).map ((), ·))
      ((flatSkip bytes source.size.isSome length p).map ((), ·)) := by
  obtain ⟨hpos, hle, hpre⟩ := hc
  have hlen := hpre.length_le
  rw [length_drop] at hlen
  have hsafe := hsrc.addressable
  unfold NbtCursor.skip flatSkip
  rw [hpos]
  by_cases hrange : p + length ≤ maxSafeInteger
  · rw [assertRange_ok hrange]
    simp only [bind, Except.bind]
    cases hsize : source.size with
    | some size =>
      have := hsrc.size_eq size hsize
      subst this
      by_cases hend : bytes.length < p + length
      · simp [hend, ExceptRel, Except.map]
      · simp only [hend, if_false, Except.map, ExceptRel, true_and]
        exact ⟨rfl, by omega, hpre⟩
    | none =>
      by_cases hend : bytes.length < p + length
      · have hnocover : length ≠ 0 ∧ ¬(c.start ≤ p ∧ p + length ≤ c.start + c.buffer.length) := by
          constructor <;> omega
        have hread : source.read (p + length - 1) 1 = .ok [] := by
          rcases Nat.lt_or_ge bytes.length (p + length - 1) with hlt | hge
          · exact hsrc.read_past _ 1 hlt (by decide) (by omega)
          · obtain ⟨chunk, hread, hprefix, -⟩ := hsrc.read_ok (p + length - 1) 1 hge (by decide)
            have := hprefix.length_le
            rw [slice_eq_nil_of_le bytes (by omega)] at this
            rw [hread, length_eq_zero_iff.mp (show chunk.length = 0 by simpa using this)]
        simp [hnocover, hread, hend, ExceptRel, Except.map]
      · have hread : length ≠ 0 → (source.read (p + length - 1) 1).map List.length = .ok 1 := by
          intro hne
          obtain ⟨chunk, hread, hprefix, hempty⟩ := hsrc.read_ok (p + length - 1) 1 (by omega) (by decide)
          have hle1 := hprefix.length_le
          have hs : (slice bytes (p + length - 1) 1).length = 1 := slice_length bytes (by omega)
          have hne' : chunk ≠ [] := by
            intro h
            rw [hempty h] at hs
            simp at hs
          have := length_pos_iff.mpr hne'
          rw [hread]
          simp only [Except.map, ok.injEq]
          omega
        have hgoal : NbtCursor.Shows bytes { c with position := p + length } (p + length) := ⟨rfl, by omega, hpre⟩
        simp only [hend, if_false, Except.map]
        split_ifs with hcover
        · have hr := hread hcover.1
          match hsr : source.read (p + length - 1) 1 with
          | .error e => rw [hsr] at hr; cases hr
          | .ok last =>
            rw [hsr] at hr
            simp only [Except.map, ok.injEq] at hr
            simp only [hr, ne_eq, not_true_eq_false, if_false]
            exact ⟨rfl, hgoal⟩
        · exact ⟨rfl, hgoal⟩
  · simp only [assertRange, if_neg hrange, bind, Except.bind, Except.map, ExceptRel]

theorem nbtCursor_sim (encoding : NbtEncoding) :
    CursorOps.Sim (NbtCursor.Shows bytes) (nbtCursor source encoding)
      (flatCursor bytes source.size.isSome encoding) where
  position _ _ h := h.1
  byte _ _ h := byte_sim hsrc h
  fixed n u _ _ h := fixed_sim hsrc encoding _ n u h
  skip n _ _ h := skip_sim hsrc n h
  rest c p h := by
    obtain ⟨hpos, hle, -⟩ := h
    have hsafe := hsrc.addressable
    obtain ⟨chunk, hread, hprefix, hempty⟩ := hsrc.read_ok p 1 hle (by decide)
    simp only [nbtCursor, flatCursor, hpos, hread, Except.map, ok.injEq]
    have h1 := hprefix.length_le
    rcases Nat.eq_zero_or_pos chunk.length with h0 | h0
    · rw [hempty (length_eq_zero_iff.mp h0), h0]
      rfl
    · rw [beq_eq_false_iff_ne.mpr (by omega), beq_eq_false_iff_ne.mpr (by omega)]
  size := by
    simp only [nbtCursor, flatCursor]
    cases hsize : source.size with
    | none => rfl
    | some n =>
      rw [hsrc.size_eq n hsize]
      rfl

end

end Window

/-- `memoryNbtSource`. -/
def memoryNbtSource (bytes : Bytes) : NbtByteSource where
  size := some bytes.length
  read offset length := do
    assertRange offset length
    .ok (slice bytes offset length)

theorem memoryNbtSource_conforms {bytes : Bytes} (h : bytes.length + NBT_CHUNK_BYTES ≤ maxSafeInteger) :
    Conforms (memoryNbtSource bytes) bytes where
  addressable := by omega
  size_eq n hn := (some.inj hn).symm
  read_ok offset length hoffset hlength := by
    refine ⟨slice bytes offset length, ?_, prefix_rfl, id⟩
    simp only [memoryNbtSource, assertRange_ok (show offset + length ≤ maxSafeInteger by omega), bind, Except.bind]
  read_past offset length hlt _ hsafe := by
    simp only [memoryNbtSource, assertRange_ok hsafe, bind, Except.bind,
      slice_eq_nil_of_le bytes (show bytes.length ≤ offset by omega)]

end Cantrip.Nbt
