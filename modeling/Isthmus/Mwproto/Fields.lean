import Isthmus.Mwproto.Schema

/-!
# The field codec of the MW protocol

A message is written field by field in the order of its declaration. Bytes and
32-bit integers are written as they are, strings with their length in front,
and fields of any other type as length-prefixed JSON. A length is written seven
bits at a time, the low ones first, the high bit of a byte saying that more
bytes follow.
-/

namespace Isthmus.Mwproto

/-- The Go types of the fields that are encoded as JSON. -/
inductive JsonType where
  | keyValuePairs
  | strings
  | gameOptions
  | placements
  | metadata
  | spoilerLogs
  | resultPlacements
  | stringMap
  | dataReceiveItems
  | intMap
  deriving DecidableEq

def JsonType.Carrier : JsonType → Type
  | .keyValuePairs => List KeyValuePair
  | .strings => List GoString
  | .gameOptions => GameOptions
  | .placements => GoMap GoString (List Placement)
  | .metadata => List (List KeyValuePair)
  | .spoilerLogs => SpoilerLogs
  | .resultPlacements => GoMap GoString (List ResultPlacement)
  | .stringMap => GoMap GoString GoString
  | .dataReceiveItems => List DataReceiveItem
  | .intMap => GoMap Int Int

section Kinds

variable {T : Type}

/-- The kinds of fields that the codec tells apart. `T` names the types that are
encoded as JSON. -/
inductive Kind (T : Type) where
  | uint8
  | int32
  | uint32
  | string
  | json (t : T)
  deriving DecidableEq

def Kind.Carrier (C : T → Type) : Kind T → Type
  | .uint8 => UInt8
  | .int32 => Int32
  | .uint32 => UInt32
  | .string => GoString
  | .json t => C t

/-- The values of the fields of a layout. -/
def Values (C : T → Type) : List (Kind T) → Type
  | [] => Unit
  | k :: ks => k.Carrier C × Values C ks

/-- `encoding/json` at the types of the fields; `none` is an error. -/
structure Codec (C : T → Type) where
  marshal : (t : T) → C t → Option GoString
  unmarshal : (t : T) → GoString → Option (C t)

end Kinds

abbrev FieldKind := Kind JsonType

abbrev JsonCodec := Codec JsonType.Carrier

/-- The values of a message's fields. -/
abbrev Fields := Values JsonType.Carrier

inductive ReadError where
  | eof
  | unexpectedEOF
  | lengthOutOfBounds
  | unknownMessageType
  | lengthExceedsPayload
  | unterminatedLength
  | invalidJSON
  | panic
  deriving DecidableEq

variable {T : Type} {C : T → Type}

/-! ## Writing -/

/-- `byteOrder.AppendUint32`, little-endian. -/
def putUint32 (u : UInt32) : GoString :=
  [UInt8.ofNat u.toNat, UInt8.ofNat (u.toNat / 256), UInt8.ofNat (u.toNat / 65536),
    UInt8.ofNat (u.toNat / 16777216)]

/-- The loop of `appendVarint32`. -/
def appendVarint (u : UInt32) : GoString :=
  if u >>> 7 = 0 then [(u &&& 127).toUInt8]
  else ((u &&& 127).toUInt8 ||| 128) :: appendVarint (u >>> 7)
termination_by u.toNat
decreasing_by
  rename_i h
  have hs : (u >>> 7).toNat = u.toNat / 128 := by
    rw [UInt32.toNat_shiftRight]
    exact Nat.shiftRight_eq_div_pow _ _
  have h0 : (u >>> 7).toNat ≠ 0 := fun h0 => h (UInt32.toNat_inj.mp h0)
  omega

/-- A length that does not fit 32 signed bits panics. -/
def appendVarint32 (x : Nat) : Option GoString :=
  if x < 2 ^ 31 then some (appendVarint (UInt32.ofNat x)) else none

def appendString (s : GoString) : Option GoString :=
  (appendVarint32 s.length).map (· ++ s)

/-- One field, appended to the message. A panic is `none`. -/
def appendField (J : Codec C) : (k : Kind T) → k.Carrier C → Option GoString
  | .uint8, v => some [v]
  | .int32, v => some (putUint32 v.toUInt32)
  | .uint32, v => some (putUint32 v)
  | .string, v => appendString v
  | .json t, v => (J.marshal t v).bind appendString

def appendFields (J : Codec C) : (ks : List (Kind T)) → Values C ks → Option GoString
  | [], _ => some []
  | k :: ks, (v, vs) =>
    (appendField J k v).bind fun b => (appendFields J ks vs).map (b ++ ·)

/-! ## Reading -/

/-- `byteOrder.Uint32` of the first four bytes. -/
def getUint32 : GoString → Option (UInt32 × GoString)
  | a :: b :: c :: d :: rest =>
    some (UInt32.ofNat (a.toNat + 256 * b.toNat + 65536 * c.toNat + 16777216 * d.toNat), rest)
  | _ => none

/-- The loop of `unmarshalBytes` at index `i`. The length is a 64-bit machine
integer, as are the shift, the sum and the comparison with the payload. -/
def unmarshalBytesAt (payload : GoString) (i : Nat) (length : BitVec 64) :
    GoString → Except ReadError (GoString × GoString)
  | [] => .error .unterminatedLength
  | b :: bs =>
    let length := length ||| ((b &&& 127).toBitVec.setWidth 64 <<< (i * 7))
    if b &&& 128 ≠ 0 then unmarshalBytesAt payload (i + 1) length bs
    else
      let stop := BitVec.ofNat 64 (i + 1) + length
      if (payload.length : Int) < stop.toInt then .error .lengthExceedsPayload
      else if stop.toInt < i + 1 then .error .panic
      else .ok ((payload.take stop.toNat).drop (i + 1), payload.drop stop.toNat)

def unmarshalBytes (payload : GoString) : Except ReadError (GoString × GoString) :=
  unmarshalBytesAt payload 0 0 payload

def unmarshalField (J : Codec C) :
    (k : Kind T) → GoString → Except ReadError (k.Carrier C × GoString)
  | .uint8, [] => .error .unexpectedEOF
  | .uint8, b :: payload => .ok (b, payload)
  | .int32, payload =>
    match getUint32 payload with
    | none => .error .unexpectedEOF
    | some (u, rest) => .ok (u.toInt32, rest)
  | .uint32, payload =>
    match getUint32 payload with
    | none => .error .unexpectedEOF
    | some (u, rest) => .ok (u, rest)
  | .string, payload => unmarshalBytes payload
  | .json t, payload =>
    match unmarshalBytes payload with
    | .error e => .error e
    | .ok (raw, rest) =>
      match J.unmarshal t raw with
      | none => .error .invalidJSON
      | some v => .ok (v, rest)

/-- The loop of `unmarshalInto`, with the bytes after the last field. -/
def unmarshalFields (J : Codec C) :
    (ks : List (Kind T)) → GoString → Except ReadError (Values C ks × GoString)
  | [], payload => .ok ((), payload)
  | k :: ks, payload =>
    match unmarshalField J k payload with
    | .error e => .error e
    | .ok (v, rest) =>
      match unmarshalFields J ks rest with
      | .error e => .error e
      | .ok (vs, rest) => .ok ((v, vs), rest)

/-- `unmarshalInto` ignores what follows the last field. -/
def unmarshalInto (J : Codec C) (ks : List (Kind T)) (payload : GoString) :
    Except ReadError (Values C ks) :=
  (unmarshalFields J ks payload).map Prod.fst

end Isthmus.Mwproto
