import Isthmus.Mwproto.Fields

/-!
# Framing of the MW protocol

`write` puts a 24-byte header in front of the fields of a message, and `read`
takes one frame off a byte stream. `read` picks the message type by its number
in a switch of its own, which is not the list of all types.
-/

namespace Isthmus.Mwproto

def headerSize : Nat := 24

/-- The kinds of the fields of a message, by its type. -/
def Message.layout : Message → List FieldKind
  | .connect _ => [.string]
  | .ping _ => [.uint32]
  | .disconnect => []
  | .join _ => [.string, .int32, .int32, .uint8]
  | .joinConfirm => []
  | .ready _ => [.string, .string, .uint8, .json .keyValuePairs]
  | .readyConfirm _ => [.int32, .json .strings]
  | .readyDeny _ => [.string]
  | .unready => []
  | .initiateGame _ => [.json .gameOptions]
  | .requestRando => []
  | .randoGenerated _ => [.json .placements, .int32]
  | .result _ =>
    [.int32, .int32, .json .strings, .json .metadata, .json .spoilerLogs,
      .json .resultPlacements, .json .stringMap, .string]
  | .dataReceive _ => [.string, .string, .string, .int32]
  | .datasReceive _ => [.json .dataReceiveItems, .string]
  | .dataReceiveConfirm _ => [.string, .string, .string]
  | .datasReceiveConfirm _ => [.int32, .string]
  | .save => []
  | .dataSend _ => [.string, .string, .int32, .int32]
  | .dataSendConfirm _ => [.string, .string, .int32]
  | .requestCharmNotchCosts => []
  | .announceCharmNotchCosts _ => [.int32, .json .intMap]
  | .confirmCharmNotchCostsReceived _ => [.int32]

/-- The values of the fields of a message, in the order of their declaration. -/
def Message.fields : (m : Message) → Fields m.layout
  | .connect m => (m.serverName, ())
  | .ping m => (m.replyValue, ())
  | .disconnect => ()
  | .join m => (m.displayName, m.randoID, m.playerID, m.mode, ())
  | .joinConfirm => ()
  | .ready m => (m.room, m.nickname, m.mode, m.readyMetadata, ())
  | .readyConfirm m => (m.ready, m.names, ())
  | .readyDeny m => (m.description, ())
  | .unready => ()
  | .initiateGame m => (m.options, ())
  | .requestRando => ()
  | .randoGenerated m => (m.items, m.seed, ())
  | .result m =>
    (m.playerID, m.randoID, m.nicknames, m.readyMetadata, m.itemsSpoiler, m.placements,
      m.playerItemsPlacements, m.generatedHash, ())
  | .dataReceive m => (m.label, m.content, m.sender, m.fromID, ())
  | .datasReceive m => (m.items, m.sender, ())
  | .dataReceiveConfirm m => (m.label, m.data, m.sender, ())
  | .datasReceiveConfirm m => (m.count, m.sender, ())
  | .save => ()
  | .dataSend m => (m.label, m.content, m.toPlayer, m.ttl, ())
  | .dataSendConfirm m => (m.label, m.content, m.toPlayer, ())
  | .requestCharmNotchCosts => ()
  | .announceCharmNotchCosts m => (m.playerID, m.notchCosts, ())
  | .confirmCharmNotchCostsReceived m => (m.playerID, ())

/-- `Write`: the bytes of a message, or `none` where it panics. -/
def write (J : JsonCodec) (m : Message) : Option GoString :=
  (appendFields J m.layout m.fields).bind fun body =>
    if headerSize + body.length < 2 ^ 32 then
      some (putUint32 (UInt32.ofNat (headerSize + body.length)) ++
        putUint32 m.msgType.number ++ List.replicate 16 0 ++ body)
    else none

/-- `unmarshal`: the message of one struct type, from its fields. -/
def unmarshal (J : JsonCodec) (ks : List FieldKind) (build : Fields ks → Message)
    (payload : GoString) : Except ReadError Message :=
  (unmarshalInto J ks payload).map build

/-- The switch of `Read` over the message type. -/
def decode (J : JsonCodec) (payload : GoString) : Option MessageType → Except ReadError Message
  | some .connect => unmarshal J [.string] (fun (s, _) => .connect ⟨s⟩) payload
  | some .disconnect => unmarshal J [] (fun _ => .disconnect) payload
  | some .ping => unmarshal J [.uint32] (fun (v, _) => .ping ⟨v⟩) payload
  | some .ready =>
    unmarshal J [.string, .string, .uint8, .json .keyValuePairs]
      (fun (r, n, m, d, _) => .ready ⟨r, n, m, d⟩) payload
  | some .readyConfirm =>
    unmarshal J [.int32, .json .strings] (fun (r, n, _) => .readyConfirm ⟨r, n⟩) payload
  | some .join =>
    unmarshal J [.string, .int32, .int32, .uint8]
      (fun (n, r, p, m, _) => .join ⟨n, r, p, m⟩) payload
  | some .joinConfirm => .ok .joinConfirm
  | some .unready => .ok .unready
  | some .initiateGame =>
    unmarshal J [.json .gameOptions] (fun (o, _) => .initiateGame ⟨o⟩) payload
  | some .requestRando => .ok .requestRando
  | some .randoGenerated =>
    unmarshal J [.json .placements, .int32] (fun (i, s, _) => .randoGenerated ⟨i, s⟩) payload
  | some .result =>
    unmarshal J
      [.int32, .int32, .json .strings, .json .metadata, .json .spoilerLogs,
        .json .resultPlacements, .json .stringMap, .string]
      (fun (p, r, n, m, s, pl, ip, h, _) => .result ⟨p, r, n, m, s, pl, ip, h⟩) payload
  | some .dataReceive =>
    unmarshal J [.string, .string, .string, .int32]
      (fun (l, c, s, i, _) => .dataReceive ⟨l, c, s, i⟩) payload
  | some .datasReceive =>
    unmarshal J [.json .dataReceiveItems, .string] (fun (i, s, _) => .datasReceive ⟨i, s⟩)
      payload
  | some .dataSendConfirm =>
    unmarshal J [.string, .string, .int32] (fun (l, c, t, _) => .dataSendConfirm ⟨l, c, t⟩)
      payload
  | some .announceCharmNotchCosts =>
    unmarshal J [.int32, .json .intMap] (fun (p, n, _) => .announceCharmNotchCosts ⟨p, n⟩)
      payload
  | some .requestCharmNotchCosts => .ok .requestCharmNotchCosts
  -- the payload of this one is not looked at
  | some .confirmCharmNotchCostsReceived => .ok (.confirmCharmNotchCostsReceived ⟨0⟩)
  | _ => .error .unknownMessageType

/-- `io.ReadFull` of `n` bytes off a stream that ends after `r`. -/
def readFull (n : Nat) (r : GoString) : Except ReadError GoString × GoString :=
  if n ≤ r.length then (.ok (r.take n), r.drop n)
  else if r = [] then (.error .eof, [])
  else (.error .unexpectedEOF, [])

/-- The body of a frame after its length field: the type number and the payload. -/
def decodeBody (J : JsonCodec) (body : GoString) : Except ReadError Message :=
  match getUint32 body with
  | none => .error .panic
  | some (n, _) => decode J (body.drop (headerSize - 4)) (MessageType.ofNumber n)

/-- `Read`: one message off the stream, and what is left unread. -/
def read (J : JsonCodec) (r : GoString) : Except ReadError Message × GoString :=
  match readFull 4 r with
  | (.error e, rest) => (.error e, rest)
  | (.ok lengthBuf, rest) =>
    match getUint32 lengthBuf with
    | none => (.error .panic, rest)
    | some (length, _) =>
      if length.toNat < headerSize ∨ 2 ^ 24 < length.toNat then
        -- skip the remaining bytes of the frame, none when the length is below four
        (.error .lengthOutOfBounds, rest.drop (length.toNat - 4))
      else
        match readFull (length.toNat - 4) rest with
        | (.error e, rest) => (.error e, rest)
        | (.ok body, rest) => (decodeBody J body, rest)

end Isthmus.Mwproto
