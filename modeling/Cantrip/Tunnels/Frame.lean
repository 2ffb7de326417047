import Cantrip.Lib.Bytes
import Cantrip.Lib.Utf8

/-!
# Tunnel frames (`tunnels/frame.rs`, `packages/protocol/src/tunnel-data-plane.ts`)

A frame is a header with its payload. Numbers of a header are safe integers, which the doubles they are kept in
represent exactly.
-/

namespace Cantrip.Tunnels

open Lib

def maxPlaintextBytes : Nat := 64 * 1024

def authTagBytes : Nat := 16

def maxPayloadBytes : Nat := maxPlaintextBytes + authTagBytes

def maxCreditBytes : Nat := 8 * 1024 * 1024

/-- `creditSchema`. -/
structure Credit where
  bytes : Nat
  pos : 0 < bytes
  le : bytes ≤ maxCreditBytes
  deriving DecidableEq

inductive Side
  | source | destination
  deriving DecidableEq, Repr

def Side.other : Side → Side
  | .source => .destination
  | .destination => .source

@[simp] theorem Side.other_other (side : Side) : side.other.other = side := by
  cases side <;> rfl

@[simp] theorem Side.other_ne (side : Side) : side.other ≠ side := by
  cases side <;> simp [Side.other]

/-- `tunnelDataDirectionSchema`, by the side that the bytes come from. -/
inductive Direction
  | sourceToDestination | destinationToSource
  deriving DecidableEq, Repr

/-- The bytes that the side sends. -/
def Side.direction : Side → Direction
  | .source => .sourceToDestination
  | .destination => .destinationToSource

inductive CloseCode
  | normal | revoked | endpointDisconnected | idleTimeout | lifetimeExpired | congested | bandwidthLimit | protocolError
  deriving DecidableEq, Repr

inductive RejectionCode
  | targetUnavailable | targetRejected | limitExceeded | unauthorized | protocolError | congested
  | protectedTargetInvalid | protectedRecordUnavailable | protectedEndpointUnavailable
  deriving DecidableEq, Repr

inductive ErrorCode
  | connectionFailed | ioError | protocolError
  deriving DecidableEq, Repr

/-- Where a tunnel leads. It is handed on unread. -/
structure Target where
  text : Utf16
  deriving DecidableEq

/-- What a frame says. The protection of a data frame is told by whether there is one. -/
inductive Kind
  | open (initialCreditBytes : Credit)
  | connect (target : Target) (initialCreditBytes : Credit) (diagnosticTraceId : Option Utf16)
  | accepted (initialCreditBytes : Credit)
  | rejected (code : RejectionCode)
  | data (direction : Direction) (protection : Bool)
  | credit (direction : Direction) (bytes : Credit)
  | halfClose (direction : Direction)
  | close (code : CloseCode)
  | error (code : ErrorCode)
  deriving DecidableEq

structure Header where
  tunnelId : Utf16
  attachmentId : Utf16
  sourceEndpointId : Utf16
  destinationEndpointId : Utf16
  connectionId : Utf16
  sequence : Nat
  kind : Kind
  deriving DecidableEq

def Kind.protected : Kind → Bool
  | .data _ protection => protection
  | _ => false

/-- `payload_valid`. -/
def Kind.admits (kind : Kind) (payload : Bytes) : Bool :=
  match kind with
  | .data _ protection =>
    !payload.isEmpty && payload.length ≤ maxPayloadBytes &&
      if protection then authTagBytes < payload.length else payload.length ≤ maxPlaintextBytes
  | _ => payload.isEmpty

/-- The bytes that count for the credit: those of the plaintext. -/
def Kind.flow (kind : Kind) (payload : Bytes) : Nat := payload.length - if kind.protected then authTagBytes else 0

end Cantrip.Tunnels
