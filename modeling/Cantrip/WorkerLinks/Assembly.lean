import Cantrip.WorkerLinks.Chunk

/-!
# Both assemblers put together what was split

Both ends read the same piece of a frame from the same bytes (`readPiece`), and both assemblers answer as the receiver
of pieces does that takes them for it (`receiver`). So they answer alike to any bytes, the chunks of a frame give the
frame, and a frame that is given out is made of the chunks that were accepted last.
-/

namespace Cantrip.WorkerLinks

open Lib List

def Chunk.piece (chunk : Chunk) : Piece Nat UInt8 :=
  ⟨chunk.frameId.toNat, chunk.frameLength.toNat, chunk.offset.toNat, chunk.payload⟩

def RemoteSurfaceChunk.piece (chunk : RemoteSurfaceChunk) : Piece Nat UInt8 :=
  ⟨chunk.frameId.toNat, chunk.frameLength.toNat, chunk.offset.toNat, chunk.payload⟩

def Bounded (p : Piece Nat UInt8) : Prop :=
  p.id ≤ 0xffffffff ∧ (1 ≤ p.total ∧ p.total ≤ remoteMaxFrameBytes) ∧ p.offset < p.total ∧ p.payload ≠ [] ∧
    p.payload.length ≤ remoteChunkPayloadBytes ∧ p.offset + p.payload.length ≤ p.total

instance (p : Piece Nat UInt8) : Decidable (Bounded p) := by
  unfold Bounded
  infer_instance

theorem Bounded.within {p : Piece Nat UInt8} (h : Bounded p) : p.Within := ⟨h.2.2.2.1, h.2.2.2.2.2⟩

def outOfBounds : String := "WorkerLink Remote Surface chunk is out of bounds."

theorem validateChunk_eq (chunk : Chunk) :
    validateChunk chunk = if Bounded chunk.piece then .ok () else .error outOfBounds := by
  have hlimit : (UInt64.ofNat remoteMaxFrameBytes).toNat = remoteMaxFrameBytes := by decide
  have hid : chunk.frameId ≤ 0xffffffff ↔ chunk.frameId.toNat ≤ 0xffffffff := UInt64.le_iff_toNat_le
  have hsum : chunk.frameLength.toNat ≤ remoteMaxFrameBytes → chunk.offset.toNat < chunk.frameLength.toNat →
      chunk.payload.length ≤ remoteChunkPayloadBytes →
      (chunk.offset + UInt64.ofNat chunk.payload.length).toNat = chunk.offset.toNat + chunk.payload.length := by
    intro htotal hoffset hpayload
    have hmax : remoteMaxFrameBytes < 2 ^ 32 := by decide
    have hmost : remoteChunkPayloadBytes < 2 ^ 32 := by decide
    rw [UInt64.toNat_add, UInt64.toNat_ofNat', Nat.mod_eq_of_lt (by omega : chunk.payload.length < 2 ^ 64)]
    exact Nat.mod_eq_of_lt (by omega)
  unfold validateChunk
  rw [← ite_not]
  apply if_congr ?_ rfl rfl
  have hrange : (1 ≤ chunk.frameLength ∧ chunk.frameLength ≤ UInt64.ofNat remoteMaxFrameBytes) ↔
      1 ≤ chunk.frameLength.toNat ∧ chunk.frameLength.toNat ≤ remoteMaxFrameBytes := by
    rw [UInt64.le_iff_toNat_le, UInt64.le_iff_toNat_le, hlimit]
    rfl
  simp only [not_or, not_not, gt_iff_lt, ge_iff_le, UInt64.not_lt, UInt64.not_le, hid, hrange]
  refine and_congr_right fun _ => and_congr_right fun htotal => ?_
  rw [UInt64.lt_iff_toNat_lt]
  refine and_congr_right fun hoffset => and_congr_right fun _ => ?_
  rw [not_lt]
  refine and_congr_right fun hpayload => ?_
  rw [UInt64.le_iff_toNat_le, hsum htotal.2 hoffset hpayload]
  rfl

theorem validateRemoteSurfaceChunk_eq {chunk : RemoteSurfaceChunk} (hid : 0 ≤ chunk.frameId) (htotal : 0 ≤ chunk.frameLength)
    (hoffset : 0 ≤ chunk.offset) :
    validateRemoteSurfaceChunk chunk = if Bounded chunk.piece then .ok () else .error outOfBounds := by
  have hmax : remoteMaxFrameBytes < 2 ^ 32 := by decide
  have hempty : chunk.payload = [] ↔ chunk.payload.length = 0 := length_eq_zero_iff.symm
  unfold validateRemoteSurfaceChunk
  rw [← ite_not]
  apply if_congr ?_ rfl rfl
  unfold Bounded RemoteSurfaceChunk.piece isSafeInteger
  simp only [not_or, Bool.not_eq_true', Bool.and_eq_false_iff, decide_eq_false_iff_not, ne_eq, hempty]
  omega

/-! ## One piece -/

def invalidChunk : String := "WorkerLink Remote Surface chunk is invalid."

def fields (bytes : Bytes) : Piece Nat UInt8 :=
  ⟨getUint false (slice bytes 4 4), getUint false (slice bytes 8 4), getUint false (slice bytes 12 4), bytes.drop 16⟩

/-- What both ends read. -/
def readPiece (bytes : Bytes) : Except String (Piece Nat UInt8) :=
  if bytes.length ≤ remoteChunkHeaderBytes ∨ bytes.length > maxPayloadBytes ∨ ¬remoteMagic.isPrefixOf bytes then
    .error invalidChunk
  else if Bounded (fields bytes) then .ok (fields bytes)
  else .error outOfBounds

theorem readPiece_bounded {bytes : Bytes} {p : Piece Nat UInt8} (h : readPiece bytes = .ok p) : Bounded p := by
  unfold readPiece at h
  split at h
  · cases h
  · split at h
    · next hbounded =>
      cases h
      exact hbounded
    · cases h

theorem getUint_slice_lt (bytes : Bytes) (at_ : Nat) : getUint false (slice bytes at_ 4) < 2 ^ 32 :=
  (getUint_lt false _).trans_le (Nat.pow_le_pow_right (by decide) (slice_length_le bytes at_ 4))

theorem decodeChunk_piece (bytes : Bytes) : (decodeChunk bytes).map Chunk.piece = readPiece bytes := by
  have hread : ∀ at_, (UInt64.ofNat (getUint false (slice bytes at_ 4))).toNat = getUint false (slice bytes at_ 4) := by
    intro at_
    have hlt := getUint_slice_lt bytes at_
    rw [UInt64.toNat_ofNat', Nat.mod_eq_of_lt (by omega)]
  unfold decodeChunk readPiece
  split
  · rfl
  · dsimp only
    have hpiece : Chunk.piece ⟨UInt64.ofNat (getUint false (slice bytes 4 4)), UInt64.ofNat (getUint false (slice bytes 8 4)),
        UInt64.ofNat (getUint false (slice bytes 12 4)), bytes.drop 16⟩ = fields bytes := by
      unfold Chunk.piece fields
      simp only [hread]
    rw [validateChunk_eq, hpiece]
    split
    · exact congrArg Except.ok hpiece
    · rfl

theorem magic_iff {bytes : Bytes} (h : remoteChunkHeaderBytes < bytes.length) :
    (List.range 4).all (fun index => bytes[index]? = remoteMagic[index]?) = remoteMagic.isPrefixOf bytes := by
  match bytes, h with
  | a :: b :: c :: d :: rest, _ =>
    have hsame : ∀ x y : UInt8, (x == y) = decide (y = x) := fun x y => by rw [Bool.eq_iff_iff, beq_iff_eq, decide_eq_true_eq, eq_comm]
    simp [range_succ, remoteMagic, isPrefixOf, hsame]

theorem decodeRemoteSurfaceChunk_piece (bytes : Bytes) :
    (decodeRemoteSurfaceChunk bytes).map RemoteSurfaceChunk.piece = readPiece bytes := by
  have hguard : (bytes.length ≤ remoteChunkHeaderBytes ∨ bytes.length > maxPayloadBytes ∨
      ¬(List.range 4).all (fun index => bytes[index]? = remoteMagic[index]?)) ↔
      (bytes.length ≤ remoteChunkHeaderBytes ∨ bytes.length > maxPayloadBytes ∨ ¬remoteMagic.isPrefixOf bytes) := by
    rcases Nat.lt_or_ge remoteChunkHeaderBytes bytes.length with hlong | hshort
    · rw [magic_iff hlong]
    · simp only [hshort, true_or]
  unfold decodeRemoteSurfaceChunk readPiece
  rw [if_congr hguard rfl rfl]
  split
  · rfl
  · dsimp only
    rw [validateRemoteSurfaceChunk_eq (Int.natCast_nonneg _) (Int.natCast_nonneg _) (Int.natCast_nonneg _)]
    have hpiece : RemoteSurfaceChunk.piece ⟨(getUint false (slice bytes 4 4) : Int), (getUint false (slice bytes 8 4) : Int),
        (getUint false (slice bytes 12 4) : Int), bytes.drop remoteChunkHeaderBytes⟩ = fields bytes := rfl
    rw [hpiece]
    split
    · exact congrArg Except.ok hpiece
    · rfl

theorem decodeRemoteSurfaceChunk_nonneg {encoded : Bytes} {chunk : RemoteSurfaceChunk}
    (h : decodeRemoteSurfaceChunk encoded = .ok chunk) : 0 ≤ chunk.frameId ∧ 0 ≤ chunk.frameLength ∧ 0 ≤ chunk.offset := by
  unfold decodeRemoteSurfaceChunk at h
  split at h
  · cases h
  · dsimp only at h
    rw [validateRemoteSurfaceChunk_eq (Int.natCast_nonneg _) (Int.natCast_nonneg _) (Int.natCast_nonneg _)] at h
    split at h
    · cases h
      exact ⟨Int.natCast_nonneg _, Int.natCast_nonneg _, Int.natCast_nonneg _⟩
    · cases h

/-! ## The receiver -/

def faultText : Fault → String
  | .restarted => "WorkerLink Remote Surface frame restarted before completion."
  | .notContiguous => "WorkerLink Remote Surface chunks are not contiguous."

def receiver (replace : Bool) : Receiver Bytes Nat UInt8 String := { decode := readPiece, fault := faultText, replace }

/-- A buffer of the size of the frame that is filled up to `offset`. -/
structure Held (id : Nat) (bytes : Bytes) (offset : Nat) (q : Partial Nat UInt8) : Prop where
  named : id = q.id
  sized : bytes.length = q.total
  small : bytes.length ≤ remoteMaxFrameBytes
  filled : offset = q.bytes.length
  front : bytes.take offset = q.bytes

theorem held_start {p : Piece Nat UInt8} (h : 0 < p.total) (hsmall : p.total ≤ remoteMaxFrameBytes) :
    Held p.id (zeros p.total) 0 (Partial.start p.id p.total h) :=
  ⟨rfl, zeros_length _, (zeros_length _).trans_le hsmall, rfl, rfl⟩

section Held

variable {id : Nat} {bytes : Bytes} {offset : Nat} {q : Partial Nat UInt8} {p : Piece Nat UInt8}

theorem Held.fits (h : Held id bytes offset q) (hcontinues : q.Continues p) (hwithin : p.Within) :
    offset + p.payload.length ≤ bytes.length := by
  have hbound := hwithin.bound
  rw [hcontinues.2.2, hcontinues.2.1, ← h.filled, ← h.sized] at hbound
  exact hbound

theorem Held.write (h : Held id bytes offset q) (hcontinues : q.Continues p) (hwithin : p.Within) :
    if offset + p.payload.length ≠ bytes.length then
      ∃ q', q.add p hcontinues = (none, some q') ∧ Held id (overwrite bytes offset p.payload) (offset + p.payload.length) q'
    else q.add p hcontinues = (some (overwrite bytes offset p.payload), none) := by
  have hfits := h.fits hcontinues hwithin
  have hlength := overwrite_length hfits
  have hfront : (overwrite bytes offset p.payload).take (offset + p.payload.length) = q.bytes ++ p.payload := by
    rw [overwrite_take (Nat.le_of_add_right_le hfits), h.front]
  split
  · next hmore =>
    obtain ⟨q', hadd, hid, htotal, hbytes⟩ := Partial.add_more hcontinues (by rw [← h.filled, ← h.sized]; omega)
    refine ⟨q', hadd, h.named.trans hid.symm, (hlength.trans h.sized).trans htotal.symm, hlength.trans_le h.small, ?_, ?_⟩
    · rw [hbytes, length_append, ← h.filled]
    · rw [hbytes, hfront]
  · next hlast =>
    rw [not_ne_iff] at hlast
    rw [Partial.add_last hcontinues (by rw [← h.filled, ← h.sized]; exact hlast), ← hfront, hlast, ← hlength, take_length]

end Held

/-! ## The assembler of the server -/

namespace Assembler

/-- The assembler holds what the receiver does. -/
inductive Follows (replace : Bool) : Assembler → Option (Partial Nat UInt8) → Prop
  | idle : Follows replace ⟨none, replace⟩ none
  | held {f : ActiveFrame} {q : Partial Nat UInt8} (h : Held f.frameId.toNat f.bytes f.offset q) :
      Follows replace ⟨some f, replace⟩ (some q)

theorem Follows.replaceIncomplete {replace : Bool} {a : Assembler} {s : Option (Partial Nat UInt8)} (h : Follows replace a s) :
    a.replaceIncomplete = replace := by
  cases h <;> rfl

theorem contiguous_iff {f : ActiveFrame} {q : Partial Nat UInt8} (h : Held f.frameId.toNat f.bytes f.offset q) (chunk : Chunk) :
    (f.frameId = chunk.frameId ∧ UInt64.ofNat f.bytes.length = chunk.frameLength ∧ UInt64.ofNat f.offset = chunk.offset) ↔
      q.Continues chunk.piece := by
  have hsmall := h.small
  have hmax : remoteMaxFrameBytes < 2 ^ 64 := by decide
  have hshort := q.short
  have hfilled : f.offset < q.total := h.filled.trans_lt hshort
  rw [← h.sized] at hfilled
  have hofNat : ∀ n : Nat, n < 2 ^ 64 → ∀ x : UInt64, UInt64.ofNat n = x ↔ x.toNat = n := by
    intro n hn x
    rw [← UInt64.toNat_inj, UInt64.toNat_ofNat', Nat.mod_eq_of_lt hn, eq_comm]
  rw [hofNat _ (by omega), hofNat _ (by omega), ← UInt64.toNat_inj, h.named, h.sized, h.filled, eq_comm]
  rfl

theorem fill {f : ActiveFrame} {q : Partial Nat UInt8} (h : Held f.frameId.toNat f.bytes f.offset q) {p : Piece Nat UInt8}
    (hcontinues : q.Continues p) (hwithin : p.Within) (replace : Bool) (a : Assembler) (ha : a.replaceIncomplete = replace) :
    ∃ out, ∃ a' : Assembler, (q.add p hcontinues).1 = out ∧ Follows replace a' (q.add p hcontinues).2 ∧
      (if f.bytes.length < f.offset + p.payload.length then (.error "range end index out of range", a)
        else if f.offset + p.payload.length ≠ (overwrite f.bytes f.offset p.payload).length then
          (.ok none, { a with active := some { f with bytes := overwrite f.bytes f.offset p.payload,
                                                      offset := f.offset + p.payload.length } })
        else (.ok (some (overwrite f.bytes f.offset p.payload)), { a with active := none }) :
        Except String (Option Bytes) × Assembler) = (.ok out, a') := by
  have hfits := h.fits hcontinues hwithin
  have hwrite := h.write hcontinues hwithin
  rw [if_neg (Nat.not_lt.mpr hfits), overwrite_length hfits]
  split at hwrite
  · next hmore =>
    obtain ⟨q', hadd, hheld⟩ := hwrite
    rw [if_pos hmore, hadd, ha]
    exact ⟨_, _, rfl, .held hheld, rfl⟩
  · next hlast =>
    rw [if_neg hlast, hwrite, ha]
    exact ⟨_, _, rfl, .idle, rfl⟩

theorem push_follows (replace : Bool) (a : Assembler) (s : Option (Partial Nat UInt8)) (bytes : Bytes) (h : Follows replace a s) :
    (a.push bytes).1 = ((receiver replace).push s bytes).1 ∧
      Follows replace (a.push bytes).2 ((receiver replace).push s bytes).2 := by
  have hread := decodeChunk_piece bytes
  unfold push Receiver.push
  cases hdecode : decodeChunk bytes with
  | error e =>
    rw [hdecode] at hread
    have hread' : (receiver replace).decode bytes = .error e := hread.symm
    rw [hread']
    exact ⟨rfl, h⟩
  | ok chunk =>
    rw [hdecode] at hread
    have hread' : (receiver replace).decode bytes = .ok chunk.piece := hread.symm
    have hbounded := readPiece_bounded hread.symm
    rw [hread']
    dsimp only
    unfold assemble
    have hzero : chunk.piece.offset = 0 ↔ chunk.offset = 0 := by
      rw [← UInt64.toNat_inj]
      rfl
    by_cases hoffset : chunk.offset = 0
    · have hpos : 0 < chunk.piece.total := hbounded.2.1.1
      have hheld := held_start hpos hbounded.2.1.2
      have hcontinues := Partial.start_continues hpos (hzero.mpr hoffset)
      let f : ActiveFrame := ⟨zeros chunk.frameLength.toNat, chunk.frameId, 0⟩
      have hfilter : (some f).filter (fun active => active.frameId = chunk.frameId ∧
          UInt64.ofNat active.bytes.length = chunk.frameLength ∧ UInt64.ofNat active.offset = chunk.offset) = some f := by
        rw [Option.filter_some, if_pos (decide_eq_true ((@contiguous_iff f _ hheld chunk).mpr hcontinues))]
      obtain ⟨out, a', hout, hfollows, hfill⟩ :=
        @fill f _ hheld _ hcontinues hbounded.within replace ⟨some f, a.replaceIncomplete⟩ h.replaceIncomplete
      have hbusy : (chunk.offset = 0 ∧ a.active.isSome ∧ !a.replaceIncomplete) ↔ (s.isSome && !replace) := by
        cases h <;> simp [hoffset]
      have hreplace : (receiver replace).replace = replace := rfl
      rw [dif_pos (hzero.mpr hoffset), dif_pos hpos, hreplace, if_congr hbusy rfl rfl]
      by_cases hrefused : s.isSome && !replace
      · rw [if_pos hrefused, if_pos hrefused]
        exact ⟨rfl, h⟩
      · rw [if_neg hrefused, if_neg hrefused, if_pos hoffset]
        dsimp only
        rw [hfilter]
        refine ⟨(congrArg Prod.fst hfill).trans (congrArg Except.ok hout.symm), ?_⟩
        exact (congrArg Prod.snd hfill) ▸ hfollows
    · rw [if_neg fun hbusy => hoffset hbusy.1, dif_neg (mt hzero.mp hoffset)]
      simp only [if_neg hoffset]
      cases h with
      | idle => exact ⟨rfl, .idle⟩
      | held hheld =>
        next f q =>
        dsimp only
        rw [Option.filter_some]
        by_cases hcontinues : q.Continues chunk.piece
        · rw [if_pos (decide_eq_true ((contiguous_iff hheld chunk).mpr hcontinues)), dif_pos hcontinues]
          obtain ⟨out, a', hout, hfollows, hfill⟩ := fill hheld hcontinues hbounded.within replace ⟨some f, replace⟩ rfl
          refine ⟨(congrArg Prod.fst hfill).trans (congrArg Except.ok hout.symm), ?_⟩
          exact (congrArg Prod.snd hfill) ▸ hfollows
        · rw [if_neg fun hsame => hcontinues ((contiguous_iff hheld chunk).mp (of_decide_eq_true hsame)), dif_neg hcontinues]
          exact ⟨rfl, .held hheld⟩

end Assembler

/-! ## The assembler of the protocol package -/

namespace RemoteSurfaceFrameAssembler

/-- The assembler holds what the receiver does. -/
inductive Follows (replace : Bool) : RemoteSurfaceFrameAssembler → Option (Partial Nat UInt8) → Prop
  | idle : Follows replace ⟨none, replace⟩ none
  | held {f : RemoteSurfaceFrame} {q : Partial Nat UInt8} (hid : 0 ≤ f.frameId) (hoffset : 0 ≤ f.offset)
      (h : Held f.frameId.toNat f.bytes f.offset.toNat q) : Follows replace ⟨some f, replace⟩ (some q)

theorem Follows.replaceIncomplete {replace : Bool} {a : RemoteSurfaceFrameAssembler} {s : Option (Partial Nat UInt8)}
    (h : Follows replace a s) : a.replaceIncompleteOnFrameStart = replace := by
  cases h <;> rfl

theorem contiguous_iff {f : RemoteSurfaceFrame} {q : Partial Nat UInt8} (hid : 0 ≤ f.frameId) (hoffset : 0 ≤ f.offset)
    (h : Held f.frameId.toNat f.bytes f.offset.toNat q) {chunk : RemoteSurfaceChunk} (hcid : 0 ≤ chunk.frameId)
    (hclength : 0 ≤ chunk.frameLength) (hcoffset : 0 ≤ chunk.offset) :
    (f.frameId ≠ chunk.frameId ∨ (f.bytes.length : Int) ≠ chunk.frameLength ∨ f.offset ≠ chunk.offset) ↔
      ¬q.Continues chunk.piece := by
  have hnamed := h.named
  have hsized := h.sized
  have hfilled := h.filled
  unfold Partial.Continues RemoteSurfaceChunk.piece
  dsimp only
  omega

theorem fill {f : RemoteSurfaceFrame} {q : Partial Nat UInt8} (hid : 0 ≤ f.frameId) (hoffset : 0 ≤ f.offset)
    (h : Held f.frameId.toNat f.bytes f.offset.toNat q) {p : Piece Nat UInt8} (hcontinues : q.Continues p) (hwithin : p.Within)
    {replace : Bool} {a : RemoteSurfaceFrameAssembler} (ha : a.replaceIncompleteOnFrameStart = replace) {at_ : Int}
    (hat : at_ = f.offset) :
    ∃ out, ∃ a' : RemoteSurfaceFrameAssembler, (q.add p hcontinues).1 = out ∧ Follows replace a' (q.add p hcontinues).2 ∧
      (if at_ < 0 ∨ (f.bytes.length : Int) < at_ + p.payload.length then (.error "offset is out of bounds", a)
        else if f.offset + p.payload.length ≠ (overwrite f.bytes at_.toNat p.payload).length then
          (.ok none, { a with active := some { f with bytes := overwrite f.bytes at_.toNat p.payload,
                                                      offset := f.offset + p.payload.length } })
        else (.ok (some (overwrite f.bytes at_.toNat p.payload)), { a with active := none }) :
        Except String (Option Bytes) × RemoteSurfaceFrameAssembler) = (.ok out, a') := by
  subst hat
  have hfits := h.fits hcontinues hwithin
  have hwrite := h.write hcontinues hwithin
  have hnat : (f.offset + p.payload.length).toNat = f.offset.toNat + p.payload.length := by omega
  rw [if_neg (by omega), overwrite_length hfits]
  split at hwrite
  · next hmore =>
    obtain ⟨q', hadd, hheld⟩ := hwrite
    rw [← hnat] at hheld
    rw [if_pos (by omega), hadd, ha]
    refine ⟨_, _, rfl, .held (f := ⟨overwrite f.bytes f.offset.toNat p.payload, f.frameId, f.offset + p.payload.length⟩)
      hid (Int.add_nonneg hoffset (Int.natCast_nonneg _)) hheld, rfl⟩
  · next hlast =>
    rw [if_neg (by omega), hwrite, ha]
    exact ⟨_, _, rfl, .idle, rfl⟩

theorem push_follows (replace : Bool) (a : RemoteSurfaceFrameAssembler) (s : Option (Partial Nat UInt8)) (encoded : Bytes)
    (h : Follows replace a s) :
    (a.push encoded).1 = ((receiver replace).push s encoded).1 ∧
      Follows replace (a.push encoded).2 ((receiver replace).push s encoded).2 := by
  have hread := decodeRemoteSurfaceChunk_piece encoded
  unfold push Receiver.push
  cases hdecode : decodeRemoteSurfaceChunk encoded with
  | error e =>
    rw [hdecode] at hread
    have hread' : (receiver replace).decode encoded = .error e := hread.symm
    rw [hread']
    exact ⟨rfl, h⟩
  | ok chunk =>
    obtain ⟨hcid, hclength, hcoffset⟩ := decodeRemoteSurfaceChunk_nonneg hdecode
    rw [hdecode] at hread
    have hread' : (receiver replace).decode encoded = .ok chunk.piece := hread.symm
    have hbounded := readPiece_bounded hread.symm
    rw [hread']
    dsimp only
    unfold assemble
    have hzero : chunk.piece.offset = 0 ↔ chunk.offset = 0 := by
      unfold RemoteSurfaceChunk.piece
      dsimp only
      omega
    by_cases hoffset : chunk.offset = 0
    · have hpos : 0 < chunk.piece.total := hbounded.2.1.1
      have hheld := held_start hpos hbounded.2.1.2
      have hcontinues := Partial.start_continues hpos (hzero.mpr hoffset)
      let f : RemoteSurfaceFrame := ⟨zeros chunk.frameLength.toNat, chunk.frameId, 0⟩
      have hcontiguous := (@contiguous_iff f _ hcid le_rfl hheld chunk hcid hclength hcoffset).not.mpr (not_not.mpr hcontinues)
      obtain ⟨out, a', hout, hfollows, hfill⟩ :=
        @fill f _ hcid le_rfl hheld _ hcontinues hbounded.within replace ⟨some f, a.replaceIncompleteOnFrameStart⟩ h.replaceIncomplete
          chunk.offset hoffset
      have hbusy : (chunk.offset = 0 ∧ a.active.isSome ∧ !a.replaceIncompleteOnFrameStart) ↔ (s.isSome && !replace) := by
        cases h <;> simp [hoffset]
      have hreplace : (receiver replace).replace = replace := rfl
      rw [dif_pos (hzero.mpr hoffset), dif_pos hpos, hreplace, if_congr hbusy rfl rfl]
      by_cases hrefused : s.isSome && !replace
      · rw [if_pos hrefused, if_pos hrefused]
        exact ⟨rfl, h⟩
      · rw [if_neg hrefused, if_neg hrefused, if_pos hoffset]
        dsimp only
        rw [if_neg hcontiguous]
        refine ⟨(congrArg Prod.fst hfill).trans (congrArg Except.ok hout.symm), ?_⟩
        exact (congrArg Prod.snd hfill) ▸ hfollows
    · rw [if_neg fun hbusy => hoffset hbusy.1, dif_neg (mt hzero.mp hoffset)]
      simp only [if_neg hoffset]
      cases h with
      | idle => exact ⟨rfl, .idle⟩
      | held hid hnonneg hheld =>
        next f q =>
        dsimp only
        have hiff := contiguous_iff hid hnonneg hheld hcid hclength hcoffset
        by_cases hcontinues : q.Continues chunk.piece
        · have hsame : chunk.offset = f.offset := by
            by_contra hne
            exact hiff.mp (.inr (.inr (Ne.symm hne))) hcontinues
          obtain ⟨out, a', hout, hfollows, hfill⟩ :=
            @fill f q hid hnonneg hheld _ hcontinues hbounded.within replace ⟨some f, replace⟩ rfl chunk.offset hsame
          rw [if_neg (hiff.not.mpr (not_not.mpr hcontinues)), dif_pos hcontinues]
          refine ⟨(congrArg Prod.fst hfill).trans (congrArg Except.ok hout.symm), ?_⟩
          exact (congrArg Prod.snd hfill) ▸ hfollows
        · rw [if_pos (hiff.mpr hcontinues), dif_neg hcontinues]
          exact ⟨rfl, .held hid hnonneg hheld⟩

end RemoteSurfaceFrameAssembler

/-! ## Chunks of a frame -/

def chunkBytes (p : Piece Nat UInt8) : Bytes :=
  remoteMagic ++ (setUint false 4 p.id ++ setUint false 4 p.total ++ setUint false 4 p.offset) ++ p.payload

theorem readPiece_chunkBytes {p : Piece Nat UInt8} (h : Bounded p) : readPiece (chunkBytes p) = .ok p := by
  have hmax : remoteMaxFrameBytes < 256 ^ 4 := by decide
  have ⟨hid, htotal, hoffset, hnonempty, hlength, _⟩ := h
  have hpos := length_pos_of_ne_nil hnonempty
  have hget : ∀ n, n < 256 ^ 4 → getUint false (setUint false 4 n) = n := by
    intro n hn
    rw [getUint_setUint, Nat.mod_eq_of_lt hn]
  have hsize : (chunkBytes p).length = remoteChunkHeaderBytes + p.payload.length := by
    simp [chunkBytes, remoteMagic, remoteChunkHeaderBytes]
    omega
  have hfields : fields (chunkBytes p) = p := by
    have hid' : chunkBytes p = remoteMagic ++ setUint false 4 p.id ++
        (setUint false 4 p.total ++ setUint false 4 p.offset ++ p.payload) := by simp [chunkBytes]
    have htotal' : chunkBytes p = remoteMagic ++ setUint false 4 p.id ++ setUint false 4 p.total ++
        (setUint false 4 p.offset ++ p.payload) := by simp [chunkBytes]
    have hoffset' : chunkBytes p = remoteMagic ++ setUint false 4 p.id ++ setUint false 4 p.total ++ setUint false 4 p.offset ++
        p.payload := by simp [chunkBytes]
    have hpayload : (chunkBytes p).drop 16 = p.payload := drop_left' (by simp [remoteMagic])
    have hidSlice : slice (chunkBytes p) 4 4 = setUint false 4 p.id := slice_eq_middle hid' rfl (setUint_length false 4 _).symm
    have htotalSlice : slice (chunkBytes p) 8 4 = setUint false 4 p.total :=
      slice_eq_middle htotal' (by simp [remoteMagic]) (setUint_length false 4 _).symm
    have hoffsetSlice : slice (chunkBytes p) 12 4 = setUint false 4 p.offset :=
      slice_eq_middle hoffset' (by simp [remoteMagic]) (setUint_length false 4 _).symm
    unfold fields
    rw [hpayload, hidSlice, htotalSlice, hoffsetSlice, hget _ (by omega), hget _ (by omega), hget _ (by omega)]
  have hmagic : remoteMagic.isPrefixOf (chunkBytes p) := by
    rw [ isPrefixOf_iff_prefix]
    exact ⟨_, by rw [chunkBytes, append_assoc]⟩
  have hmost : remoteChunkPayloadBytes + remoteChunkHeaderBytes = maxPayloadBytes := rfl
  have hguard : ¬((chunkBytes p).length ≤ remoteChunkHeaderBytes ∨ (chunkBytes p).length > maxPayloadBytes ∨
      ¬remoteMagic.isPrefixOf (chunkBytes p)) := by
    rw [hsize, not_or, not_or, not_not]
    exact ⟨by omega, by omega, hmagic⟩
  unfold readPiece
  rw [if_neg hguard, hfields, if_pos h]

theorem encodeChunk_eq {p : Piece Nat UInt8} (h : Bounded p) :
    encodeChunk ⟨UInt64.ofNat p.id, UInt64.ofNat p.total, UInt64.ofNat p.offset, p.payload⟩ = .ok (chunkBytes p) := by
  have hmax : remoteMaxFrameBytes < 2 ^ 32 := by decide
  have ⟨hid, htotal, hoffset, _⟩ := h
  have hnat : ∀ n, n < 2 ^ 32 → (UInt64.ofNat n).toNat = n := by
    intro n hn
    rw [UInt64.toNat_ofNat', Nat.mod_eq_of_lt (by omega)]
  have hpiece : Chunk.piece ⟨UInt64.ofNat p.id, UInt64.ofNat p.total, UInt64.ofNat p.offset, p.payload⟩ = p := by
    unfold Chunk.piece
    dsimp only
    rw [hnat _ (by omega), hnat _ (by omega), hnat _ (by omega)]
  unfold encodeChunk
  rw [validateChunk_eq, hpiece, if_pos h]
  simp only [flatMap_cons, flatMap_nil, append_nil]
  rw [hnat _ (by omega), hnat _ (by omega), hnat _ (by omega), ← append_assoc (setUint false 4 p.id)]
  rfl

theorem encodeRemoteSurfaceChunk_eq {p : Piece Nat UInt8} (h : Bounded p) :
    encodeRemoteSurfaceChunk ⟨p.id, p.total, p.offset, p.payload⟩ = .ok (chunkBytes p) := by
  have hmax : remoteMaxFrameBytes < 2 ^ 32 := by decide
  have ⟨hid, htotal, hoffset, _⟩ := h
  have hset : ∀ n : Nat, n < 2 ^ 32 → setInt false 4 (n : Int) = setUint false 4 n := by
    intro n hn
    have hword : ofSigned 4 (n : Int) = n := by
      unfold ofSigned
      omega
    rw [setInt, hword]
  have hpiece : RemoteSurfaceChunk.piece ⟨p.id, p.total, p.offset, p.payload⟩ = p := rfl
  unfold encodeRemoteSurfaceChunk
  rw [validateRemoteSurfaceChunk_eq (Int.natCast_nonneg _) (Int.natCast_nonneg _) (Int.natCast_nonneg _), hpiece, if_pos h]
  dsimp only
  rw [hset _ (by omega), hset _ (by omega), hset _ (by omega), append_assoc remoteMagic, append_assoc remoteMagic]
  rfl

structure Cut (frame : Bytes) (parts : List Bytes) : Prop where
  whole : parts.flatten = frame
  sizes : ∀ part ∈ parts, part ≠ [] ∧ part.length ≤ remoteChunkPayloadBytes

def pieces (id total : Nat) : Nat → List Bytes → List (Piece Nat UInt8)
  | _, [] => []
  | offset, part :: parts => ⟨id, total, offset, part⟩ :: pieces id total (offset + part.length) parts

def chunks (id total : Nat) : Nat → List Bytes → List Chunk
  | _, [] => []
  | offset, part :: parts =>
    ⟨UInt64.ofNat id, UInt64.ofNat total, UInt64.ofNat offset, part⟩ :: chunks id total (offset + part.length) parts

def remoteSurfaceChunks (id total : Nat) : Nat → List Bytes → List RemoteSurfaceChunk
  | _, [] => []
  | offset, part :: parts => ⟨id, total, offset, part⟩ :: remoteSurfaceChunks id total (offset + part.length) parts

theorem gathered_pieces (id total offset : Nat) (parts : List Bytes) :
    gathered (pieces id total offset parts) = parts.flatten := by
  induction parts generalizing offset with
  | nil => rfl
  | cons part parts ih => rw [pieces, gathered_cons, ih, flatten_cons]

theorem length_pieces (id total offset : Nat) (parts : List Bytes) : (pieces id total offset parts).length = parts.length := by
  induction parts generalizing offset with
  | nil => rfl
  | cons part parts ih => rw [pieces, length_cons, ih, length_cons]

theorem coversFrom_pieces (id total offset : Nat) (parts : List Bytes) :
    CoversFrom id total offset (pieces id total offset parts) := by
  induction parts generalizing offset with
  | nil => trivial
  | cons part parts ih => exact ⟨⟨rfl, rfl, rfl⟩, ih _⟩

theorem bounded_pieces {id total offset : Nat} {parts : List Bytes} (hid : id ≤ 0xffffffff)
    (htotal : total ≤ remoteMaxFrameBytes) (hall : offset + parts.flatten.length ≤ total)
    (hsizes : ∀ part ∈ parts, part ≠ [] ∧ part.length ≤ remoteChunkPayloadBytes) :
    ∀ p ∈ pieces id total offset parts, Bounded p := by
  induction parts generalizing offset with
  | nil =>
    intro p hp
    cases hp
  | cons part parts ih =>
    obtain ⟨hnonempty, hsize⟩ := hsizes part mem_cons_self
    have hpos := length_pos_of_ne_nil hnonempty
    rw [flatten_cons, length_append] at hall
    intro p hp
    rcases mem_cons.mp hp with rfl | hp
    · refine ⟨hid, ⟨?_, htotal⟩, ?_, hnonempty, hsize, ?_⟩ <;> dsimp only <;> omega
    · exact ih (by omega) (fun part hpart => hsizes part (mem_cons_of_mem _ hpart)) p hp

theorem encode_chunks {id total offset : Nat} {parts : List Bytes} (h : ∀ p ∈ pieces id total offset parts, Bounded p) :
    (chunks id total offset parts).mapM encodeChunk = .ok ((pieces id total offset parts).map chunkBytes) ∧
      (remoteSurfaceChunks id total offset parts).mapM encodeRemoteSurfaceChunk =
        .ok ((pieces id total offset parts).map chunkBytes) := by
  induction parts generalizing offset with
  | nil => exact ⟨rfl, rfl⟩
  | cons part parts ih =>
    have hfirst : Bounded ⟨id, total, offset, part⟩ := h _ mem_cons_self
    obtain ⟨hchunks, hsurface⟩ := ih fun p hp => h p (mem_cons_of_mem _ hp)
    have hencode := encodeChunk_eq hfirst
    have hencode' := encodeRemoteSurfaceChunk_eq hfirst
    dsimp only at hencode hencode'
    rw [chunks, remoteSurfaceChunks, pieces, mapM_cons, mapM_cons, hencode, hencode', hchunks, hsurface]
    exact ⟨rfl, rfl⟩

/-! ## Both assemblers -/

def Assembler.Ready (a : Assembler) : Prop :=
  (∃ replace, a = new replace) ∨ ∃ b bytes frame, push b bytes = (.ok (some frame), a)

def RemoteSurfaceFrameAssembler.Ready (a : RemoteSurfaceFrameAssembler) : Prop :=
  (∃ replace, a = new replace) ∨ ∃ b encoded frame, push b encoded = (.ok (some frame), a)

theorem Assembler.idle_of_frame {a b : Assembler} {bytes frame : Bytes} (h : push b bytes = (.ok (some frame), a)) :
    a.active = none := by
  unfold push at h
  split at h
  · cases h
  · dsimp only at h
    split at h
    · cases h
    · split at h
      · cases h
      · split at h
        · cases h
        · split at h
          · cases h
          · cases h
            rfl

theorem RemoteSurfaceFrameAssembler.idle_of_frame {a b : RemoteSurfaceFrameAssembler} {encoded frame : Bytes}
    (h : push b encoded = (.ok (some frame), a)) : a.active = none := by
  unfold push at h
  split at h
  · cases h
  · dsimp only at h
    split at h
    · cases h
    · split at h
      · cases h
      · split at h
        · cases h
        · split at h
          · cases h
          · split at h
            · cases h
            · cases h
              rfl

/-- An assembler is idle when it is new and when it has given out a frame. -/
theorem idle_of_ready {A F : Type} (active : A → Option F) {new : Bool → A} {push : A → Bytes → Except String (Option Bytes) × A} {a : A}
    (hnew : ∀ replace, active (new replace) = none)
    (hframe : ∀ {b : A} {bytes frame : Bytes}, push b bytes = (.ok (some frame), a) → active a = none)
    (h : (∃ replace, a = new replace) ∨ ∃ b bytes frame, push b bytes = (.ok (some frame), a)) : active a = none := by
  rcases h with ⟨replace, rfl⟩ | ⟨b, bytes, frame, hpush⟩
  · exact hnew replace
  · exact hframe hpush

theorem Assembler.Ready.follows {a : Assembler} (h : a.Ready) : Follows a.replaceIncomplete a none := by
  have hidle : a.active = none := idle_of_ready active (fun _ => rfl) idle_of_frame h
  obtain ⟨active, replace⟩ := a
  subst hidle
  exact .idle

theorem RemoteSurfaceFrameAssembler.Ready.follows {a : RemoteSurfaceFrameAssembler} (h : a.Ready) :
    Follows a.replaceIncompleteOnFrameStart a none := by
  have hidle : a.active = none := idle_of_ready active (fun _ => rfl) idle_of_frame h
  obtain ⟨active, replace⟩ := a
  subst hidle
  exact .idle

theorem receiver_frame (replace : Bool) {id : Nat} {frame : Bytes} {parts : List Bytes} (hid : id ≤ 0xffffffff)
    (hframe : frame ≠ []) (hlength : frame.length ≤ remoteMaxFrameBytes) (hcut : Cut frame parts) :
    (serveAll (receiver replace).push none ((pieces id frame.length 0 parts).map chunkBytes)).1 =
      Receiver.frameAnswers String parts.length frame := by
  have hgathered : gathered (pieces id frame.length 0 parts) = frame := (gathered_pieces _ _ _ _).trans hcut.whole
  have hbounded : ∀ p ∈ pieces id frame.length 0 parts, Bounded p :=
    bounded_pieces hid hlength (by rw [hcut.whole, Nat.zero_add]) hcut.sizes
  have hdecode : ((pieces id frame.length 0 parts).map chunkBytes).map (receiver replace).decode =
      (pieces id frame.length 0 parts).map .ok := by
    rw [map_map]
    exact map_congr_left fun p hp => readPiece_chunkBytes (hbounded p hp)
  have hcovers : CoversFrom id (gathered (pieces id frame.length 0 parts)).length 0 (pieces id frame.length 0 parts) := by
    rw [hgathered]
    exact coversFrom_pieces _ _ _ _
  have hanswers := Receiver.pushAll_frame hdecode (by rw [hgathered]; exact hframe) hcovers fun p hp => (hbounded p hp).within
  rw [hanswers, hgathered, length_pieces]

theorem chunks_lossless {id : Nat} {frame : Bytes} {parts : List Bytes} (hid : id ≤ 0xffffffff) (hframe : frame ≠ [])
    (hlength : frame.length ≤ remoteMaxFrameBytes) (hcut : Cut frame parts) :
    ∃ encoded, (chunks id frame.length 0 parts).mapM encodeChunk = .ok encoded ∧
      (remoteSurfaceChunks id frame.length 0 parts).mapM encodeRemoteSurfaceChunk = .ok encoded ∧
      (∀ a : Assembler, a.Ready → (serveAll Assembler.push a encoded).1 = Receiver.frameAnswers String parts.length frame) ∧
      ∀ a : RemoteSurfaceFrameAssembler, a.Ready →
        (serveAll RemoteSurfaceFrameAssembler.push a encoded).1 = Receiver.frameAnswers String parts.length frame := by
  have hbounded : ∀ p ∈ pieces id frame.length 0 parts, Bounded p :=
    bounded_pieces hid hlength (by rw [hcut.whole, Nat.zero_add]) hcut.sizes
  obtain ⟨hchunks, hsurface⟩ := encode_chunks hbounded
  refine ⟨_, hchunks, hsurface, fun a ha => ?_, fun a ha => ?_⟩
  · rw [(serveAll_simulates (Assembler.push_follows _) ha.follows _).1]
    exact receiver_frame _ hid hframe hlength hcut
  · rw [(serveAll_simulates (RemoteSurfaceFrameAssembler.push_follows _) ha.follows _).1]
    exact receiver_frame _ hid hframe hlength hcut

theorem answers_eq (replace : Bool) (inputs : List Bytes) :
    (serveAll Assembler.push (Assembler.new replace) inputs).1 = (serveAll (receiver replace).push none inputs).1 ∧
      (serveAll RemoteSurfaceFrameAssembler.push (RemoteSurfaceFrameAssembler.new replace) inputs).1 =
        (serveAll (receiver replace).push none inputs).1 :=
  ⟨(serveAll_simulates (Assembler.push_follows replace) .idle inputs).1,
    (serveAll_simulates (RemoteSurfaceFrameAssembler.push_follows replace) .idle inputs).1⟩

/-- The pieces that the assembler of the server has accepted, up to the answer at `i`. -/
def acceptedChunks (inputs : List Bytes) (answers : List (Except String (Option Bytes))) (i : Nat) : List (Piece Nat UInt8) :=
  accepted (fun bytes => (decodeChunk bytes).map Chunk.piece) (inputs.take (i + 1)) answers

def acceptedRemoteSurfaceChunks (inputs : List Bytes) (answers : List (Except String (Option Bytes))) (i : Nat) :
    List (Piece Nat UInt8) :=
  accepted (fun encoded => (decodeRemoteSurfaceChunk encoded).map RemoteSurfaceChunk.piece) (inputs.take (i + 1)) answers

theorem receiver_madeOf (replace : Bool) (inputs : List Bytes) {i : Nat} {frame : Bytes}
    (h : (serveAll (receiver replace).push none inputs).1[i]? = some (.ok (some frame))) :
    ∃ ps, ps <:+ accepted readPiece (inputs.take (i + 1)) (serveAll (receiver replace).push none inputs).1 ∧ MadeOf frame ps := by
  have hwithin : ∀ b p, (receiver replace).decode b = .ok p → p.Within := fun b p hread => (readPiece_bounded hread).within
  have hnone : ∀ q : Partial Nat UInt8, none = some q → q.pieces <:+ [] := fun q hq => nomatch hq
  exact Receiver.accepted_madeOf hwithin hnone h

/-- Chunks give back the frame that was cut into them; both assemblers answer alike to any bytes; and a frame that is
given out is made of the chunks that were accepted last. -/
theorem remote_surface_chunks :
    (∀ (id : Nat) (frame : Bytes) (parts : List Bytes), id ≤ 0xffffffff → frame ≠ [] → frame.length ≤ remoteMaxFrameBytes →
      Cut frame parts →
      ∃ encoded, (chunks id frame.length 0 parts).mapM encodeChunk = .ok encoded ∧
        (remoteSurfaceChunks id frame.length 0 parts).mapM encodeRemoteSurfaceChunk = .ok encoded ∧
        (∀ a : Assembler, a.Ready → (serveAll Assembler.push a encoded).1 = Receiver.frameAnswers String parts.length frame) ∧
        ∀ a : RemoteSurfaceFrameAssembler, a.Ready →
          (serveAll RemoteSurfaceFrameAssembler.push a encoded).1 = Receiver.frameAnswers String parts.length frame) ∧
    ∀ (replace : Bool) (inputs : List Bytes) (server protocol : List (Except String (Option Bytes))),
      server = (serveAll Assembler.push (Assembler.new replace) inputs).1 →
      protocol = (serveAll RemoteSurfaceFrameAssembler.push (RemoteSurfaceFrameAssembler.new replace) inputs).1 →
      server = protocol ∧
        (∀ i frame, server[i]? = some (.ok (some frame)) → ∃ ps, ps <:+ acceptedChunks inputs server i ∧ MadeOf frame ps) ∧
        ∀ i frame, protocol[i]? = some (.ok (some frame)) →
          ∃ ps, ps <:+ acceptedRemoteSurfaceChunks inputs protocol i ∧ MadeOf frame ps := by
  refine ⟨fun id frame parts hid hframe hlength hcut => chunks_lossless hid hframe hlength hcut, ?_⟩
  rintro replace inputs server protocol rfl rfl
  obtain ⟨hserver, hprotocol⟩ := answers_eq replace inputs
  have hread : (fun bytes => (decodeChunk bytes).map Chunk.piece) = readPiece := funext decodeChunk_piece
  have hread' : (fun encoded => (decodeRemoteSurfaceChunk encoded).map RemoteSurfaceChunk.piece) = readPiece :=
    funext decodeRemoteSurfaceChunk_piece
  unfold acceptedChunks acceptedRemoteSurfaceChunks
  rw [hserver, hprotocol, hread, hread']
  exact ⟨rfl, fun i frame => receiver_madeOf replace inputs, fun i frame => receiver_madeOf replace inputs⟩

/-- A frame of three bytes in two chunks. -/
theorem remote_surface_chunks_three : ∃ encoded, (chunks 7 3 0 [[1, 2], [3]]).mapM encodeChunk = .ok encoded ∧
      (serveAll Assembler.push (Assembler.new false) encoded).1 = [.ok none, .ok (some [1, 2, 3])] := by
  obtain ⟨encoded, hencoded, -, hserver, -⟩ := remote_surface_chunks.1 7 [1, 2, 3] [[1, 2], [3]] (by decide) (by decide) (by decide)
    ⟨rfl, by decide⟩
  exact ⟨encoded, hencoded, hserver _ (.inl ⟨false, rfl⟩)⟩

end Cantrip.WorkerLinks
