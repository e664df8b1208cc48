import Isthmus.Mwproto.Lengths
import Isthmus.Mwproto.Stream

/-!
# Reading back what was written

The field codec inverts itself on every layout, provided that JSON does on the
values of the message. `read` inverts `write` on the messages whose type its
switch decodes in full.
-/

namespace Isthmus.Mwproto

/-! ## Fixed-width integers -/

theorem getUint32_putUint32 (u : UInt32) (rest : GoString) :
    getUint32 (putUint32 u ++ rest) = some (u, rest) := by
  have hu := u.toNat_lt
  simp only [putUint32, List.cons_append, List.nil_append, getUint32, Option.some.injEq,
    Prod.mk.injEq, and_true]
  apply UInt32.toNat_inj.mp
  rw [UInt32.toNat_ofNat']
  simp only [UInt8.toNat_ofNat']
  omega

@[simp] theorem putUint32_length (u : UInt32) : (putUint32 u).length = 4 := rfl

/-! ## Lengths -/

private theorem byte_bits : ∀ n : Fin 128,
    UInt8.ofNat n &&& 128 = 0 ∧ UInt8.ofNat n &&& 127 = UInt8.ofNat n ∧
      (UInt8.ofNat n ||| 128) &&& 128 ≠ 0 ∧ (UInt8.ofNat n ||| 128) &&& 127 = UInt8.ofNat n := by
  decide

theorem low_byte (u : UInt32) : (u &&& 127).toUInt8 = UInt8.ofNat (u.toNat % 128) := by
  apply UInt8.toNat_inj.mp
  have h : (127 : UInt32).toNat = 2 ^ 7 - 1 := rfl
  rw [UInt32.toNat_toUInt8, UInt32.toNat_and, h, Nat.and_two_pow_sub_one_eq_mod,
    UInt8.toNat_ofNat']

theorem shift_seven (u : UInt32) : (u >>> 7).toNat = u.toNat / 128 := by
  rw [UInt32.toNat_shiftRight]
  exact Nat.shiftRight_eq_div_pow _ _

/-- The length that was written is spelled by its prefix. -/
theorem lengthPrefix_appendVarint (u : UInt32) (tail : GoString) :
    lengthPrefix (appendVarint u ++ tail) = some ((appendVarint u).length, u.toNat) := by
  induction hu : u.toNat using Nat.strongRecOn generalizing u with
  | ind n ih =>
    subst hu
    have hlow : u.toNat % 128 < 128 := Nat.mod_lt _ (by decide)
    obtain ⟨hb0, hb1, hb2, hb3⟩ := byte_bits ⟨u.toNat % 128, hlow⟩
    have hbyte : (UInt8.ofNat (u.toNat % 128)).toNat = u.toNat % 128 := by
      rw [UInt8.toNat_ofNat']
      omega
    have hdiv := shift_seven u
    rw [appendVarint, low_byte]
    by_cases hlast : u >>> 7 = 0
    · -- the last group is the length
      have h0 : (u >>> 7).toNat = 0 := by
        rw [hlast]
        rfl
      rw [if_pos hlast, List.singleton_append, lengthPrefix, hb0, hb1, hbyte, if_neg (by simp)]
      simp only [List.length_singleton, Option.some.injEq, Prod.mk.injEq, true_and]
      omega
    · -- more groups follow
      have hne : u.toNat / 128 ≠ 0 := by
        intro h0
        exact hlast (UInt32.toNat_inj.mp (hdiv.trans h0))
      have hrec := ih (u >>> 7).toNat (by rw [hdiv]; omega) (u >>> 7) rfl
      rw [if_neg hlast, List.cons_append, lengthPrefix, if_pos hb2, hb3, hbyte, hrec, hdiv]
      simp only [Option.map_some, List.length_cons, Option.some.injEq, Prod.mk.injEq, true_and]
      omega

/-- A rough bound: each byte of a prefix makes the length larger. -/
theorem length_appendVarint_le (u : UInt32) : (appendVarint u).length ≤ u.toNat + 1 := by
  induction hu : u.toNat using Nat.strongRecOn generalizing u with
  | ind n ih =>
    subst hu
    have hdiv := shift_seven u
    rw [appendVarint]
    by_cases hlast : u >>> 7 = 0
    · rw [if_pos hlast]
      simp
    · have hne : u.toNat / 128 ≠ 0 := by
        intro h0
        exact hlast (UInt32.toNat_inj.mp (hdiv.trans h0))
      have hrec := ih (u >>> 7).toNat (by rw [hdiv]; omega) (u >>> 7) rfl
      rw [if_neg hlast, List.length_cons]
      omega

theorem unmarshalBytes_appendString {s b : GoString} (h : appendString s = some b)
    (rest : GoString) : unmarshalBytes (b ++ rest) = .ok (s, rest) := by
  rw [appendString, appendVarint32] at h
  by_cases hs : s.length < 2 ^ 31
  · rw [if_pos hs] at h
    cases h
    have hu : (UInt32.ofNat s.length).toNat = s.length := by
      rw [UInt32.toNat_ofNat']
      omega
    have hspelled := lengthPrefix_appendVarint (UInt32.ofNat s.length) (s ++ rest)
    have hlen := length_appendVarint_le (UInt32.ofNat s.length)
    rw [hu] at hspelled
    rw [unmarshalBytes_eq, List.append_assoc, hspelled]
    simp only []
    rw [finish_of_fits (by omega), if_neg (by simp), List.drop_left, List.take_left,
      ← List.drop_drop, List.drop_left, List.drop_left]
  · rw [if_neg hs] at h
    cases h

/-! ## Fields -/

section Codec

variable {T : Type} {C : T → Type} {J : Codec C}

/-- JSON gives the value back from its own encoding of it. -/
def InvertsField (J : Codec C) : (k : Kind T) → k.Carrier C → Prop
  | .json t, v => ∀ raw, J.marshal t v = some raw → J.unmarshal t raw = some v
  | _, _ => True

def Inverts (J : Codec C) : (ks : List (Kind T)) → Values C ks → Prop
  | [], _ => True
  | k :: ks, (v, vs) => InvertsField J k v ∧ Inverts J ks vs

theorem unmarshalField_appendField {k : Kind T} {v : k.Carrier C} {b : GoString}
    (h : appendField J k v = some b) (hJ : InvertsField J k v) (rest : GoString) :
    unmarshalField J k (b ++ rest) = .ok (v, rest) := by
  cases k with
  | uint8 =>
    cases h
    rfl
  | int32 =>
    cases h
    simp only [unmarshalField, getUint32_putUint32]
    rfl
  | uint32 =>
    cases h
    have hget : getUint32 (putUint32 v ++ rest) = some (v, rest) := getUint32_putUint32 v rest
    simp only [unmarshalField, hget]
  | string => exact unmarshalBytes_appendString h rest
  | json t =>
    rw [appendField] at h
    obtain ⟨raw, hraw, hb⟩ := Option.bind_eq_some_iff.mp h
    simp only [unmarshalField, unmarshalBytes_appendString hb, hJ raw hraw]

/-- The codec reads back the fields of any layout and leaves what follows them. -/
theorem unmarshalFields_appendFields {ks : List (Kind T)} {vs : Values C ks}
    {b : GoString} (h : appendFields J ks vs = some b) (hJ : Inverts J ks vs) (rest : GoString) :
    unmarshalFields J ks (b ++ rest) = .ok (vs, rest) := by
  induction ks generalizing b with
  | nil =>
    cases h
    rfl
  | cons k ks ih =>
    obtain ⟨v, vs⟩ := vs
    rw [appendFields] at h
    obtain ⟨b₁, hb₁, h⟩ := Option.bind_eq_some_iff.mp h
    obtain ⟨b₂, hb₂, rfl⟩ := Option.map_eq_some_iff.mp h
    rw [List.append_assoc, unmarshalFields, unmarshalField_appendField hb₁ hJ.1]
    simp only [ih hb₂ hJ.2]

/-- A string is shorter than 2^31 bytes, and so is the JSON text of a value,
which gives the value back. -/
def EncodableField (J : Codec C) : (k : Kind T) → k.Carrier C → Prop
  | .string, (s : GoString) => s.length < 2 ^ 31
  | .json t, v =>
    ∃ raw, J.marshal t v = some raw ∧ raw.length < 2 ^ 31 ∧ J.unmarshal t raw = some v
  | _, _ => True

def Encodable (J : Codec C) : (ks : List (Kind T)) → Values C ks → Prop
  | [], _ => True
  | k :: ks, (v, vs) => EncodableField J k v ∧ Encodable J ks vs

theorem exists_appendString {s : GoString} (h : s.length < 2 ^ 31) :
    ∃ b, appendString s = some b := by
  rw [appendString, appendVarint32, if_pos h]
  exact ⟨_, rfl⟩

theorem EncodableField.inverts {k : Kind T} {v : k.Carrier C} (h : EncodableField J k v) :
    (∃ b, appendField J k v = some b) ∧ InvertsField J k v := by
  cases k with
  | uint8 | int32 | uint32 => exact ⟨⟨_, rfl⟩, trivial⟩
  | string => exact ⟨exists_appendString h, trivial⟩
  | json t =>
    obtain ⟨raw, hraw, hlen, hback⟩ := h
    obtain ⟨b, hb⟩ := exists_appendString hlen
    refine ⟨⟨b, ?_⟩, fun raw' hraw' => ?_⟩
    · rw [appendField, hraw, Option.bind_some, hb]
    · rw [hraw, Option.some.injEq] at hraw'
      rw [← hraw', hback]

theorem Encodable.inverts {ks : List (Kind T)} {vs : Values C ks} (h : Encodable J ks vs) :
    (∃ b, appendFields J ks vs = some b) ∧ Inverts J ks vs := by
  induction ks with
  | nil => exact ⟨⟨[], rfl⟩, trivial⟩
  | cons k ks ih =>
    obtain ⟨v, vs⟩ := vs
    obtain ⟨⟨b₁, hb₁⟩, hv⟩ := h.1.inverts
    obtain ⟨⟨b₂, hb₂⟩, hvs⟩ := ih h.2
    refine ⟨⟨b₁ ++ b₂, ?_⟩, hv, hvs⟩
    rw [appendFields, hb₁, Option.bind_some, hb₂, Option.map_some]

theorem unmarshalInto_appendFields {ks : List (Kind T)} {vs : Values C ks} {b : GoString}
    (h : appendFields J ks vs = some b) (hvs : Encodable J ks vs) (rest : GoString) :
    unmarshalInto J ks (b ++ rest) = .ok vs := by
  rw [unmarshalInto, unmarshalFields_appendFields h hvs.inverts.2]
  rfl

/-- What one encoding is the start of, it is the encoding of. -/
theorem eq_of_comparable {ks : List (Kind T)} {vs vs' : Values C ks} {b b' : GoString}
    (h : appendFields J ks vs = some b) (hvs : Encodable J ks vs)
    (h' : appendFields J ks vs' = some b') (hvs' : Encodable J ks vs') (hb : b <+: b') :
    vs = vs' := by
  obtain ⟨rest, rfl⟩ := hb
  have hback := unmarshalInto_appendFields h' hvs' []
  rw [List.append_nil, unmarshalInto_appendFields h hvs, Except.ok.injEq] at hback
  exact hback

/-- The fields of every layout are written and read back, whatever follows them,
and no encoding starts with the encoding of other values. -/
theorem fields_round_trip (J : Codec C) (ks : List (Kind T)) (vs : Values C ks)
    (h : Encodable J ks vs) :
    ∃ b, appendFields J ks vs = some b ∧
      (∀ rest, unmarshalInto J ks (b ++ rest) = .ok vs) ∧
      ∀ vs' b', Encodable J ks vs' → appendFields J ks vs' = some b' →
        (b <+: b' ∨ b' <+: b) → vs' = vs := by
  obtain ⟨b, hb⟩ := h.inverts.1
  refine ⟨b, hb, unmarshalInto_appendFields hb h, fun vs' b' h' hb' hspelled => ?_⟩
  rcases hspelled with hlt | hgt
  · exact (eq_of_comparable hb h hb' h' hlt).symm
  · exact eq_of_comparable hb' h' hb h hgt

end Codec

/-- `encoding/json` on booleans. -/
def boolJson : Codec fun _ : Unit => Bool where
  marshal _ b := some (if b then lit "true" else lit "false")
  unmarshal _ s :=
    if s = lit "true" then some true else if s = lit "false" then some false else none

/-- A number, a string, a byte and a boolean. -/
def sampleValues : Values (fun _ : Unit => Bool) [.int32, .string, .uint8, .json ()] :=
  ((-2 : Int32), lit "hk", (7 : UInt8), true, ())

theorem fields_round_trip_sample :
    ∃ b, appendFields boolJson [.int32, .string, .uint8, .json ()] sampleValues = some b ∧
      (∀ rest, unmarshalInto boolJson [.int32, .string, .uint8, .json ()] (b ++ rest) =
        .ok sampleValues) ∧
      ∀ vs' b', Encodable boolJson [.int32, .string, .uint8, .json ()] vs' →
        appendFields boolJson [.int32, .string, .uint8, .json ()] vs' = some b' →
          (b <+: b' ∨ b' <+: b) → vs' = sampleValues :=
  fields_round_trip boolJson [.int32, .string, .uint8, .json ()] sampleValues
    ⟨trivial, show (lit "hk").length < 2 ^ 31 by decide, trivial,
      ⟨lit "true", rfl, by decide, rfl⟩, trivial⟩

theorem unmarshal_appendFields {J : JsonCodec} {ks : List FieldKind} {vs : Fields ks}
    {b : GoString} (h : appendFields J ks vs = some b) (hJ : Inverts J ks vs)
    (build : Fields ks → Message) : unmarshal J ks build b = .ok (build vs) := by
  have hfields := unmarshalFields_appendFields h hJ []
  rw [List.append_nil] at hfields
  rw [unmarshal, unmarshalInto, hfields]
  rfl

/-! ## Frames -/

theorem readFull_append {n : Nat} {a : GoString} (h : a.length = n) (rest : GoString) :
    readFull n (a ++ rest) = (.ok a, rest) := by
  subst h
  simp [readFull]

/-- On a written frame `read` decodes the body and leaves what follows the frame. -/
theorem read_write {J : JsonCodec} {m : Message} {b : GoString} (h : write J m = some b)
    (hlen : b.length ≤ 2 ^ 24) :
    ∃ body, appendFields J m.layout m.fields = some body ∧
      ∀ rest, read J (b ++ rest) = (decode J body (some m.msgType), rest) := by
  rw [write] at h
  obtain ⟨body, hbody, h⟩ := Option.bind_eq_some_iff.mp h
  refine ⟨body, hbody, fun rest => ?_⟩
  split at h
  · simp only [Option.some.injEq] at h
    subst h
    simp only [List.length_append, putUint32_length, List.length_replicate] at hlen
    have hn : (UInt32.ofNat (headerSize + body.length)).toNat = headerSize + body.length := by
      rw [UInt32.toNat_ofNat']
      simp only [headerSize]
      omega
    have hget := getUint32_putUint32 (UInt32.ofNat (headerSize + body.length)) []
    rw [List.append_nil] at hget
    rw [read]
    simp only [List.append_assoc]
    rw [readFull_append (putUint32_length _)]
    simp only [hget, hn]
    rw [if_neg (by simp only [headerSize]; omega)]
    rw [← List.append_assoc, ← List.append_assoc, readFull_append (by simp [headerSize]; omega)]
    simp only [decodeBody, List.append_assoc, getUint32_putUint32, MessageType.ofNumber_number]
    congr 2
  · cases h

/-- The message type has a case in `Read`, or is matched by the setup loop or the play loop. -/
def Understood (t : MessageType) : Prop :=
  t ∈ ([.connect, .disconnect, .ping, .ready, .readyConfirm, .join, .joinConfirm, .unready,
    .initiateGame, .requestRando, .randoGenerated, .result, .dataReceive, .datasReceive,
    .dataSendConfirm, .announceCharmNotchCosts, .requestCharmNotchCosts,
    .confirmCharmNotchCostsReceived, .readyDeny] : List MessageType)

instance (t : MessageType) : Decidable (Understood t) := inferInstanceAs (Decidable (_ ∈ _))

/-- The messages that `Read` decodes in full: it has no case for the denial of a
room, and it does not read the player of the last confirmation. -/
def Decodable : Message → Prop
  | .readyDeny _ => False
  | .confirmCharmNotchCostsReceived m => m.playerID = 0
  | _ => True

theorem decode_iff {J : JsonCodec} {m : Message} {body : GoString} (hm : Understood m.msgType)
    (hbody : appendFields J m.layout m.fields = some body) (hJ : Inverts J m.layout m.fields) :
    decode J body (some m.msgType) = .ok m ↔ Decodable m := by
  have hu := fun build => unmarshal_appendFields hbody hJ build
  cases m with
  | readyDeny m => simp [Message.msgType, decode, Decodable]
  | confirmCharmNotchCostsReceived m =>
    cases m
    simp [Message.msgType, decode, Decodable, eq_comm]
  | dataReceiveConfirm m => simp [Understood, Message.msgType] at hm
  | datasReceiveConfirm m => simp [Understood, Message.msgType] at hm
  | save => simp [Understood, Message.msgType] at hm
  | dataSend m => simp [Understood, Message.msgType] at hm
  | joinConfirm => simp [Message.msgType, decode, Decodable]
  | unready => simp [Message.msgType, decode, Decodable]
  | requestRando => simp [Message.msgType, decode, Decodable]
  | requestCharmNotchCosts => simp [Message.msgType, decode, Decodable]
  | _ =>
    simp only [Decodable, iff_true]
    exact hu _

/-- **Read undoes Write**, on the understood messages, exactly for those that
`Read` decodes in full. -/
theorem read_write_iff {J : JsonCodec} {m : Message} {b : GoString} (hm : Understood m.msgType)
    (hw : write J m = some b) (hlen : b.length ≤ 2 ^ 24) (hJ : Inverts J m.layout m.fields) :
    (∀ rest, read J (b ++ rest) = (.ok m, rest)) ↔ Decodable m := by
  obtain ⟨body, hbody, hread⟩ := read_write hw hlen
  rw [← decode_iff hm hbody hJ]
  constructor
  · intro h
    have h0 := (hread []).symm.trans (h [])
    exact congrArg Prod.fst h0
  · intro h rest
    rw [hread rest, h]

/-- A codec for messages without JSON fields. -/
def noJson : JsonCodec := ⟨fun _ _ => none, fun _ _ => none⟩

theorem read_write_iff_connect :
    (∀ rest, read noJson
        ([27, 0, 0, 0, 2, 0, 0, 0] ++ List.replicate 16 0 ++ [2, 104, 107] ++ rest) =
      (.ok (.connect ⟨[104, 107]⟩), rest)) ↔ Decodable (.connect ⟨[104, 107]⟩) :=
  read_write_iff (by decide)
    (by
      have h : appendVarint 2 = [2] := by rw [appendVarint]; rfl
      simp only [write, Message.layout, Message.fields, appendFields, appendField, appendString,
        appendVarint32]
      change Option.bind (Option.bind ((some (appendVarint 2)).map (· ++ [104, 107])) _) _ = _
      rw [h]
      rfl)
    (by decide) ⟨trivial, trivial⟩

/-- The confirmation that player 5's notch costs arrived is read back as one for player 0. -/
theorem read_write_loses_player :
    ¬ ∀ (J : JsonCodec) (m : Message) (b rest : GoString), Understood m.msgType →
      write J m = some b → b.length ≤ 2 ^ 24 → Inverts J m.layout m.fields →
        read J (b ++ rest) = (.ok m, rest) := by
  intro h
  have h5 := h noJson (.confirmCharmNotchCostsReceived ⟨5⟩)
    ([28, 0, 0, 0, 22, 0, 0, 0] ++ List.replicate 16 0 ++ [5, 0, 0, 0]) [] (by decide) rfl
    (by decide) ⟨trivial, trivial⟩
  have h0 : (read noJson ([28, 0, 0, 0, 22, 0, 0, 0] ++ List.replicate 16 0 ++ [5, 0, 0, 0] ++
      [])).1 = .ok (.confirmCharmNotchCostsReceived ⟨0⟩) := rfl
  rw [h5] at h0
  simp only [Except.ok.injEq, Message.confirmCharmNotchCostsReceived.injEq,
    ConfirmCharmNotchCostsReceived.mk.injEq] at h0
  exact absurd h0 (by decide)

end Isthmus.Mwproto
