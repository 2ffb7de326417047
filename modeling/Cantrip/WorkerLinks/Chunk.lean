import Cantrip.Lib.Buffer
import Cantrip.Lib.Reassembly

/-!
# Remote surface chunks (`worker_links/frame.rs`, `packages/protocol/src/worker-link.ts`)

A frame of the remote surface crosses the worker link in chunks: a magic, the number of the frame, its length and the
place of the chunk in it, 32 bits each, and the payload. Both ends of the link have their own codec and assembler, with
64-bit integers in the one (`Chunk`, `Assembler`) and numbers in the other (`RemoteSurfaceChunk`,
`RemoteSurfaceFrameAssembler`).
-/

namespace Cantrip.WorkerLinks

open Lib

def maxPayloadBytes : Nat := 8 + 8 * 1024 + 64 * 1024 + 16

def remoteChunkHeaderBytes : Nat := 16

def remoteChunkPayloadBytes : Nat := maxPayloadBytes - remoteChunkHeaderBytes

def remoteMaxFrameBytes : Nat := 8 + 64 * 1024 + 4 * 1024 * 1024

def remoteMagic : Bytes := [0x43, 0x54, 0x52, 0x4c]

/-! ## The server -/

structure Chunk where
  frameId : UInt64
  frameLength : UInt64
  offset : UInt64
  payload : Bytes

/-- The sum is formed only when the bounds before it hold, so it does not overflow. -/
def validateChunk (chunk : Chunk) : Except String Unit :=
  if chunk.frameId > 0xffffffff ∨ ¬(1 ≤ chunk.frameLength ∧ chunk.frameLength ≤ UInt64.ofNat remoteMaxFrameBytes) ∨
      chunk.offset ≥ chunk.frameLength ∨ chunk.payload = [] ∨ chunk.payload.length > remoteChunkPayloadBytes ∨
      chunk.offset + UInt64.ofNat chunk.payload.length > chunk.frameLength then
    .error "WorkerLink Remote Surface chunk is out of bounds."
  else .ok ()

def encodeChunk (chunk : Chunk) : Except String Bytes := do
  validateChunk chunk
  .ok (remoteMagic ++ [chunk.frameId, chunk.frameLength, chunk.offset].flatMap (fun value => setUint false 4 value.toNat) ++
    chunk.payload)

def decodeChunk (bytes : Bytes) : Except String Chunk :=
  if bytes.length ≤ remoteChunkHeaderBytes ∨ bytes.length > maxPayloadBytes ∨ ¬remoteMagic.isPrefixOf bytes then
    .error "WorkerLink Remote Surface chunk is invalid."
  else do
    let read := fun at_ => UInt64.ofNat (getUint false (slice bytes at_ 4))
    let chunk : Chunk := { frameId := read 4, frameLength := read 8, offset := read 12, payload := bytes.drop 16 }
    validateChunk chunk
    .ok chunk

structure ActiveFrame where
  bytes : Bytes
  frameId : UInt64
  offset : Nat

structure Assembler where
  active : Option ActiveFrame
  replaceIncomplete : Bool

namespace Assembler

def new (replaceIncomplete : Bool) : Assembler := ⟨none, replaceIncomplete⟩

/-- A slice that ends past the bytes of the frame is a panic. -/
def push (a : Assembler) (bytes : Bytes) : Except String (Option Bytes) × Assembler :=
  match decodeChunk bytes with
  | .error e => (.error e, a)
  | .ok chunk =>
    if chunk.offset = 0 ∧ a.active.isSome ∧ !a.replaceIncomplete then
      (.error "WorkerLink Remote Surface frame restarted before completion.", a)
    else
      let a := if chunk.offset = 0 then
          { a with active := some { bytes := zeros chunk.frameLength.toNat, frameId := chunk.frameId, offset := 0 } }
        else a
      match a.active.filter fun active => active.frameId = chunk.frameId ∧
          UInt64.ofNat active.bytes.length = chunk.frameLength ∧ UInt64.ofNat active.offset = chunk.offset with
      | none => (.error "WorkerLink Remote Surface chunks are not contiguous.", a)
      | some active =>
        let end_ := active.offset + chunk.payload.length
        if active.bytes.length < end_ then (.error "range end index out of range", a)
        else
          let active := { active with bytes := overwrite active.bytes active.offset chunk.payload, offset := end_ }
          if end_ ≠ active.bytes.length then (.ok none, { a with active := some active })
          else (.ok (some active.bytes), { a with active := none })

end Assembler

/-! ## The protocol package -/

/-- The numbers may be any integers; a number that is none is refused by the first check as one out of range. -/
structure RemoteSurfaceChunk where
  frameId : Int
  frameLength : Int
  offset : Int
  payload : Bytes

/-- `Number.isSafeInteger`. -/
def isSafeInteger (n : Int) : Bool := -(2 ^ 53 - 1) ≤ n && n ≤ 2 ^ 53 - 1

def validateRemoteSurfaceChunk (chunk : RemoteSurfaceChunk) : Except String Unit :=
  if !isSafeInteger chunk.frameId ∨ chunk.frameId < 0 ∨ chunk.frameId > 0xffffffff ∨ !isSafeInteger chunk.frameLength ∨
      chunk.frameLength < 1 ∨ chunk.frameLength > remoteMaxFrameBytes ∨ !isSafeInteger chunk.offset ∨ chunk.offset < 0 ∨
      chunk.offset ≥ chunk.frameLength ∨ chunk.payload.length < 1 ∨ chunk.payload.length > remoteChunkPayloadBytes ∨
      chunk.offset + chunk.payload.length > chunk.frameLength then
    .error "WorkerLink Remote Surface chunk is out of bounds."
  else .ok ()

def encodeRemoteSurfaceChunk (chunk : RemoteSurfaceChunk) : Except String Bytes := do
  validateRemoteSurfaceChunk chunk
  .ok (remoteMagic ++ setInt false 4 chunk.frameId ++ setInt false 4 chunk.frameLength ++ setInt false 4 chunk.offset ++
    chunk.payload)

def decodeRemoteSurfaceChunk (encoded : Bytes) : Except String RemoteSurfaceChunk :=
  if encoded.length ≤ remoteChunkHeaderBytes ∨ encoded.length > maxPayloadBytes ∨
      ¬(List.range 4).all (fun index => encoded[index]? = remoteMagic[index]?) then
    .error "WorkerLink Remote Surface chunk is invalid."
  else do
    let getUint32 := fun at_ => (getUint false (slice encoded at_ 4) : Int)
    let chunk : RemoteSurfaceChunk :=
      { frameId := getUint32 4, frameLength := getUint32 8, offset := getUint32 12,
        payload := encoded.drop remoteChunkHeaderBytes }
    validateRemoteSurfaceChunk chunk
    .ok chunk

structure RemoteSurfaceFrame where
  bytes : Bytes
  frameId : Int
  offset : Int

structure RemoteSurfaceFrameAssembler where
  active : Option RemoteSurfaceFrame
  replaceIncompleteOnFrameStart : Bool

namespace RemoteSurfaceFrameAssembler

def new (replaceIncompleteOnFrameStart : Bool) : RemoteSurfaceFrameAssembler := ⟨none, replaceIncompleteOnFrameStart⟩

/-- `set` throws when the payload does not fit in at the offset. -/
def push (a : RemoteSurfaceFrameAssembler) (encoded : Bytes) : Except String (Option Bytes) × RemoteSurfaceFrameAssembler :=
  match decodeRemoteSurfaceChunk encoded with
  | .error e => (.error e, a)
  | .ok chunk =>
    if chunk.offset = 0 ∧ a.active.isSome ∧ !a.replaceIncompleteOnFrameStart then
      (.error "WorkerLink Remote Surface frame restarted before completion.", a)
    else
      let a := if chunk.offset = 0 then
          { a with active := some { bytes := zeros chunk.frameLength.toNat, frameId := chunk.frameId, offset := 0 } }
        else a
      match a.active with
      | none => (.error "WorkerLink Remote Surface chunks are not contiguous.", a)
      | some active =>
        if active.frameId ≠ chunk.frameId ∨ (active.bytes.length : Int) ≠ chunk.frameLength ∨ active.offset ≠ chunk.offset then
          (.error "WorkerLink Remote Surface chunks are not contiguous.", a)
        else if chunk.offset < 0 ∨ (active.bytes.length : Int) < chunk.offset + chunk.payload.length then
          (.error "offset is out of bounds", a)
        else
          let active := { active with bytes := overwrite active.bytes chunk.offset.toNat chunk.payload,
                                      offset := active.offset + chunk.payload.length }
          if active.offset ≠ active.bytes.length then (.ok none, { a with active := some active })
          else (.ok (some active.bytes), { a with active := none })

end RemoteSurfaceFrameAssembler

end Cantrip.WorkerLinks
