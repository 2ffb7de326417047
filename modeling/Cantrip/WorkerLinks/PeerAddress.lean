import Cantrip.Text
import Cantrip.Wire.Syntax

/-!
# Addresses of peers (`packages/protocol/src/worker-link.ts`)

A candidate line names an address, and the class of the address decides on which route the candidate may be used.
Lower-casing is the platform's, and a parameter.
-/

namespace Cantrip.WorkerLinks.Peer

open Lib Wire

inductive PeerAddressKind
  | private_ | linkLocal | cgnat | public_ | mdns | loopback | invalid
  deriving DecidableEq

def isSpace (unit : UInt16) : Bool := Text.whitespace (Char.ofNat unit.toNat)

def trim (text : Utf16) : Utf16 := ((text.dropWhile isSpace).reverse.dropWhile isSpace).reverse

/-! ## Addresses -/

def isDigit (unit : UInt16) : Bool := 48 ≤ unit && unit ≤ 57

def isHex (unit : UInt16) : Bool := isDigit unit || (97 ≤ unit && unit ≤ 102) || (65 ≤ unit && unit ≤ 70)

def lower (unit : UInt16) : UInt16 := if 65 ≤ unit && unit ≤ 90 then unit + 32 else unit

/-- `[A-Za-z0-9-]`; without regard to case, the long s and the Kelvin sign are letters too. -/
def isLabel (unit : UInt16) : Bool :=
  isDigit unit || (97 ≤ lower unit && lower unit ≤ 122) || unit = 45 || unit = 0x17f || unit = 0x212a

/-- `/^[A-Za-z0-9-]+(?:\.[A-Za-z0-9-]+)*\.local\.?$/iu` -/
def isLocalName (address : Utf16) : Bool :=
  let labels := (if address.getLast? = some 46 then address.dropLast else address).splitOn 46
  2 ≤ labels.length && labels.all (fun label => !label.isEmpty && label.all isLabel) &&
    labels.getLast?.any fun label => label.map lower = jsText "local"

structure Quad where
  first : Nat
  second : Nat
  third : Nat
  fourth : Nat
  deriving DecidableEq

def decimalValue (field : Utf16) : Nat := field.foldl (fun value unit => value * 10 + (unit.toNat - 48)) 0

def hexValue (field : Utf16) : Nat :=
  field.foldl (fun value unit => value * 16 + if isDigit unit then unit.toNat - 48 else (lower unit).toNat - 87) 0

def octet (field : Utf16) : Option Nat :=
  if 1 ≤ field.length ∧ field.length ≤ 3 ∧ field.all isDigit ∧ decimalValue field ≤ 255 then some (decimalValue field) else none

def parseIpv4 (address : Utf16) : Option Quad :=
  match address.splitOn 46 with
  | [a, b, c, d] => do .some ⟨← octet a, ← octet b, ← octet c, ← octet d⟩
  | _ => none

def classifyIpv4 (values : Quad) : PeerAddressKind :=
  if values.first = 0 then .invalid
  else if values.first = 127 then .loopback
  else if values.first ≥ 224 ∨ values.first = 255 then .invalid
  else if values.first = 169 ∧ values.second = 254 then .linkLocal
  else if values.first = 10 ∨ (values.first = 172 ∧ values.second ≥ 16 ∧ values.second ≤ 31) ∨
      (values.first = 192 ∧ values.second = 168) then .private_
  else if values.first = 100 ∧ values.second ≥ 64 ∧ values.second ≤ 127 then .cgnat
  else if values.first = 192 ∧ values.second = 0 ∧ values.third = 0 then .invalid
  else if values.first = 198 ∧ (values.second = 18 ∨ values.second = 19) then .invalid
  else if values.first = 198 ∧ values.second = 51 ∧ values.third = 100 then .invalid
  else if values.first = 203 ∧ values.second = 0 ∧ values.third = 113 then .invalid
  else if values.first ≥ 240 then .invalid
  else .public_

/-- `split("::")` -/
def splitColons : Utf16 → List Utf16
  | [] => [[]]
  | [unit] => [[unit]]
  | unit :: next :: rest =>
    if unit = 58 ∧ next = 58 then [] :: splitColons rest else (splitColons (next :: rest)).modifyHead (unit :: ·)

def isGroup (field : Utf16) : Bool := 1 ≤ field.length && field.length ≤ 4 && field.all isHex

/-- The words of the fields of a side. A dotted quad is two, and stands last. -/
def fieldWords : List Utf16 → Option (List Nat)
  | [] => some []
  | field :: fields =>
    if field.contains 46 then
      if fields ≠ [] then none
      else (parseIpv4 field).map fun ipv4 => [ipv4.first * 256 + ipv4.second, ipv4.third * 256 + ipv4.fourth]
    else if isGroup field then (fieldWords fields).map (hexValue field :: ·)
    else none

def parseSide (side : Utf16) : Option (List Nat) := if side = [] then some [] else fieldWords (side.splitOn 58)

def parseIpv6 (address : Utf16) : Option (List Nat) :=
  if !address.contains 58 then none
  else
    let compressed := splitColons address
    if compressed.length > 2 then none
    else do
      let left ← parseSide (compressed.getD 0 [])
      let right ← parseSide (compressed.getD 1 [])
      let wordCount := left.length + right.length
      if compressed.length = 1 then if wordCount = 8 then some left else none
      else if wordCount ≥ 8 then none
      else some (left ++ List.replicate (8 - wordCount) 0 ++ right)

/-- The class of eight words. -/
def classifyIpv6 (ipv6 : List Nat) : PeerAddressKind :=
  if ipv6.all (· = 0) then .invalid
  else if (ipv6.take 7).all (· = 0) ∧ ipv6.getD 7 0 = 1 then .loopback
  else if (ipv6.take 5).all (· = 0) ∧ ipv6.getD 5 0 = 0xffff then
    classifyIpv4 ⟨ipv6.getD 6 0 >>> 8, ipv6.getD 6 0 &&& 0xff, ipv6.getD 7 0 >>> 8, ipv6.getD 7 0 &&& 0xff⟩
  else
    let firstIpv6 := ipv6.getD 0 0
    if firstIpv6 &&& 0xffc0 = 0xfe80 then .linkLocal
    else if firstIpv6 &&& 0xfe00 = 0xfc00 then .private_
    else if firstIpv6 &&& 0xe000 = 0x2000 then .public_
    else .invalid

/-- The address without whitespace around it, its brackets and its zone. -/
def bareAddress (input : Utf16) : Utf16 :=
  let address := trim input
  let address := if address.head? = some 91 then address.tail else address
  let address := if address.getLast? = some 93 then address.dropLast else address
  address.takeWhile (· ≠ 37)

def classifyPeerAddress (input : Utf16) : PeerAddressKind :=
  let address := bareAddress input
  if isLocalName address then .mdns
  else
    match parseIpv4 address with
    | some ipv4 => classifyIpv4 ipv4
    | none =>
      match parseIpv6 address with
      | some ipv6 => classifyIpv6 ipv6
      | none => .invalid

/-! ## Candidates -/

inductive PeerCandidateType
  | host | srflx | prflx | relay | unknown
  deriving DecidableEq

structure ParsedPeerCandidate where
  address : Utf16
  relatedAddress : Option Utf16
  transport : Utf16
  type : PeerCandidateType

/-- `split(/\s+/u)` -/
def splitSpaces : Utf16 → List Utf16
  | [] => [[]]
  | unit :: rest =>
    if isSpace unit then
      if rest.head?.any isSpace then splitSpaces rest else [] :: splitSpaces rest
    else (splitSpaces rest).modifyHead (unit :: ·)

def candidateType (type : Utf16) : PeerCandidateType :=
  if type = jsText "host" then .host
  else if type = jsText "srflx" then .srflx
  else if type = jsText "prflx" then .prflx
  else if type = jsText "relay" then .relay
  else .unknown

def parsePeerCandidate (toLowerCase : Utf16 → Utf16) (value : Utf16) : Option ParsedPeerCandidate :=
  let candidate := trim value
  let candidate := if (jsText "a=").isPrefixOf candidate then candidate.drop 2 else candidate
  let fields := splitSpaces candidate
  if fields.length < 8 ∨ ¬ (jsText "candidate:").isPrefixOf (fields.getD 0 []) ∨
      toLowerCase (fields.getD 6 []) ≠ jsText "typ" then none
  else
    some {
      address := fields.getD 4 []
      relatedAddress := do
        let relatedIndex ← fields.findIdx? fun field => toLowerCase field = jsText "raddr"
        fields[relatedIndex + 1]?.filter fun field => !field.isEmpty
      transport := toLowerCase (fields.getD 2 [])
      type := candidateType (toLowerCase (fields.getD 7 [])) }

inductive PeerRoute
  | lan | wan
  deriving DecidableEq

structure PeerRouteContext where
  vpn : Option Bool := none
  vpnLanAllowed : Option Bool := none

def peerCandidateAllowed (toLowerCase : Utf16 → Utf16) (candidate : Utf16) (route : PeerRoute) (context : PeerRouteContext) :
    Bool :=
  match parsePeerCandidate toLowerCase candidate with
  | none => false
  | some parsed =>
    if parsed.type = .unknown ∨ parsed.type = .relay then false
    else
      let addressKind := classifyPeerAddress parsed.address
      if addressKind = .invalid ∨ addressKind = .loopback then false
      else
        let vpn := context.vpn = some true || addressKind = .cgnat
        if route = .lan then
          if vpn && !context.vpnLanAllowed.getD false then false
          else
            (parsed.type = .host || parsed.type = .prflx) &&
              [PeerAddressKind.private_, .linkLocal, .mdns, .cgnat].contains addressKind
        else if vpn then parsed.type = .host || parsed.type = .prflx
        else if parsed.type = .srflx ∨ parsed.type = .prflx then addressKind = .public_
        else parsed.type = .host && addressKind = .public_

end Cantrip.WorkerLinks.Peer
