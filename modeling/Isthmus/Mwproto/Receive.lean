import Isthmus.Mwproto.RoundTrip

/-!
# Receiving off a stream

`recvMessages` reads frames off the connection until the stream ends. A frame
that is too short, too long, or has a body that cannot be decoded costs no more
than itself: the next read starts at the next frame.
-/

namespace Isthmus.Mwproto

variable {μ ε : Type}

/-! ## One read -/

/-- `Read`, for any way to decode the body of a frame. An error of the framing is
on the left, one of the body on the right. -/
def readFrame (body : GoString → Except ε μ) (r : GoString) :
    Except (ReadError ⊕ ε) μ × GoString :=
  match readFull 4 r with
  | (.error e, rest) => (.error (.inl e), rest)
  | (.ok lengthBuf, rest) =>
    match getUint32 lengthBuf with
    | none => (.error (.inl .panic), rest)
    | some (length, _) =>
      if length.toNat < headerSize ∨ 2 ^ 24 < length.toNat then
        (.error (.inl .lengthOutOfBounds), rest.drop (length.toNat - 4))
      else
        match readFull (length.toNat - 4) rest with
        | (.error e, rest) => (.error (.inl e), rest)
        | (.ok b, rest) => ((body b).mapError .inr, rest)

/-- `Read` decodes bodies by the switch over their message type. -/
theorem read_eq_readFrame (J : JsonCodec) (r : GoString) :
    read J r = ((readFrame (decodeBody J) r).1.mapError (Sum.elim id id),
      (readFrame (decodeBody J) r).2) := by
  rw [read, readFrame]
  obtain ⟨lengthBuf | lengthBuf, rest⟩ := readFull 4 r
  · rfl
  · dsimp only
    obtain _ | ⟨length, _⟩ := getUint32 lengthBuf
    · rfl
    · dsimp only
      by_cases hlen : length.toNat < headerSize ∨ 2 ^ 24 < length.toNat
      · rw [if_pos hlen, if_pos hlen]
        rfl
      · rw [if_neg hlen, if_neg hlen]
        obtain ⟨b | b, rest⟩ := readFull (length.toNat - 4) rest
        · rfl
        · dsimp only
          cases decodeBody J b <;> rfl

section Decoding

variable {T : Type} {C : T → Type} {J : Codec C}

theorem unmarshalBytesAt_ne_eof (payload : GoString) (i : Nat) (length : BitVec 64)
    (l : GoString) : unmarshalBytesAt payload i length l ≠ .error .eof := by
  induction l generalizing i length with
  | nil => simp [unmarshalBytesAt]
  | cons b bs ih =>
    simp only [unmarshalBytesAt]
    split
    · exact ih _ _
    · split
      · simp
      · split <;> simp

theorem unmarshalField_ne_eof (k : Kind T) (payload : GoString) :
    unmarshalField J k payload ≠ .error .eof := by
  have hbytes : unmarshalBytes payload ≠ .error .eof := unmarshalBytesAt_ne_eof payload 0 0 payload
  cases k with
  | uint8 => cases payload <;> simp [unmarshalField]
  | int32 | uint32 =>
    simp only [unmarshalField]
    split <;> simp
  | string => exact hbytes
  | json t =>
    simp only [unmarshalField]
    split
    · next e he =>
      rw [he] at hbytes
      simpa using hbytes
    · split <;> simp

theorem unmarshalFields_ne_eof (ks : List (Kind T)) (payload : GoString) :
    unmarshalFields J ks payload ≠ .error .eof := by
  induction ks generalizing payload with
  | nil => simp [unmarshalFields]
  | cons k ks ih =>
    have hfield := unmarshalField_ne_eof (J := J) k payload
    simp only [unmarshalFields]
    split
    · next e he =>
      rw [he] at hfield
      simpa using hfield
    · next rest _ =>
      have hrest := ih rest
      split
      · next e he =>
        rw [he] at hrest
        simpa using hrest
      · simp

end Decoding

theorem unmarshal_ne_eof (J : JsonCodec) (ks : List FieldKind) (build : Fields ks → Message)
    (payload : GoString) : unmarshal J ks build payload ≠ .error .eof := by
  have hfields := unmarshalFields_ne_eof (J := J) ks payload
  rw [unmarshal, unmarshalInto]
  cases h : unmarshalFields J ks payload with
  | ok vs => simp [Except.map]
  | error e =>
    rw [h] at hfields
    simpa [Except.map] using hfields

/-- An error of a body is not taken for the end of the stream. -/
theorem decodeBody_ne_eof (J : JsonCodec) (b : GoString) : decodeBody J b ≠ .error .eof := by
  rw [decodeBody]
  split
  · simp
  · simp only [decode]
    split <;> first | exact unmarshal_ne_eof J _ _ _ | simp

theorem readFrame_ne_eof (J : JsonCodec) (r : GoString) :
    (readFrame (decodeBody J) r).1 ≠ .error (.inr .eof) := by
  rw [readFrame]
  obtain ⟨lengthBuf | lengthBuf, rest⟩ := readFull 4 r
  · simp
  · dsimp only
    split
    · simp
    · split
      · simp
      · obtain ⟨e | b, rest⟩ := readFull _ rest
        · simp
        · have hbody := decodeBody_ne_eof J b
          dsimp only
          cases h : decodeBody J b with
          | ok m => simp [Except.mapError]
          | error e =>
            rw [h] at hbody
            simpa [Except.mapError] using hbody

/-! ## The loop -/

/-- The loop of `recvMessages`, on a stream that ends: what it delivers, and what
it leaves unread. It stops at the end of the stream, which only the framing sees;
`fuel` bounds its reads. -/
def recvMessages (body : GoString → Except ε μ) : Nat → GoString → Option (List μ × GoString)
  | 0, _ => none
  | fuel + 1, r =>
    match readFrame body r with
    | (.error (.inl .eof), rest) => some ([], rest)
    | (.error _, rest) => recvMessages body fuel rest
    | (.ok m, rest) => (recvMessages body fuel rest).map fun p => (m :: p.1, p.2)

/-- The loop goes by what `Read` returns. That only the framing sees the end of the stream is
no loss, as no body is taken for it. -/
theorem recvMessages_succ (J : JsonCodec) (fuel : Nat) (r : GoString) :
    recvMessages (decodeBody J) (fuel + 1) r =
      match read J r with
      | (.error .eof, rest) => some ([], rest)
      | (.error _, rest) => recvMessages (decodeBody J) fuel rest
      | (.ok m, rest) =>
        (recvMessages (decodeBody J) fuel rest).map fun p => (m :: p.1, p.2) := by
  have hbody : (readFrame (decodeBody J) r).1 ≠ .error (.inr .eof) := readFrame_ne_eof J r
  rw [recvMessages, read_eq_readFrame]
  generalize readFrame (decodeBody J) r = p at hbody ⊢
  obtain ⟨(e | e) | m, rest⟩ := p
  · cases e <;> rfl
  · cases e with
    | eof => exact absurd rfl hbody
    | _ => rfl
  · rfl

/-! ## Frames -/

/-- A frame: a length and as many bytes as it announces, itself included. A
length below four announces no more than itself. -/
structure Frame where
  length : UInt32
  content : GoString
  size : content.length = length.toNat - 4

namespace Frame

def bytes (f : Frame) : GoString := putUint32 f.length ++ f.content

/-- The length is one that `Read` takes. -/
def InBounds (f : Frame) : Prop := headerSize ≤ f.length.toNat ∧ f.length.toNat ≤ 2 ^ 24

instance (f : Frame) : Decidable f.InBounds := inferInstanceAs (Decidable (_ ∧ _))

/-- The message that a frame carries, if it carries one. -/
def delivered (body : GoString → Except ε μ) (f : Frame) : Option μ :=
  if f.InBounds then (body f.content).toOption else none

end Frame

/-- The bytes of frames, one after the other. -/
def stream (fs : List Frame) : GoString := (fs.map Frame.bytes).flatten

/-- The start of a frame, but not all of it. -/
def Truncated (tail : GoString) : Prop := ∃ f : Frame, tail <+: f.bytes ∧ tail ≠ f.bytes

section Reading

variable (body : GoString → Except ε μ)

theorem getUint32_length (u : UInt32) : getUint32 (putUint32 u) = some (u, []) := by
  have h := getUint32_putUint32 u []
  rwa [List.append_nil] at h

/-- A read takes one frame off the stream, and no more. -/
theorem readFrame_frame (f : Frame) (rest : GoString) :
    readFrame body (f.bytes ++ rest) =
      (if f.InBounds then (body f.content).mapError .inr
        else .error (.inl .lengthOutOfBounds), rest) := by
  rw [readFrame, Frame.bytes, List.append_assoc, readFull_append (putUint32_length _)]
  simp only [getUint32_length]
  -- the length is checked before the body is read
  by_cases hb : f.InBounds
  · have hlen : ¬ (f.length.toNat < headerSize ∨ 2 ^ 24 < f.length.toNat) := by
      rw [not_or, Nat.not_lt, Nat.not_lt]
      exact hb
    rw [if_neg hlen, if_pos hb, readFull_append f.size]
  · have hlen : f.length.toNat < headerSize ∨ 2 ^ 24 < f.length.toNat := by
      by_contra hnot
      rw [not_or, Nat.not_lt, Nat.not_lt] at hnot
      exact hb hnot
    rw [if_pos hlen, if_neg hb, ← f.size, List.drop_left]

theorem readFull_short {n : Nat} {r : GoString} (h : r.length < n) :
    ∃ e, readFull n r = (.error e, []) := by
  rw [readFull, if_neg (by omega)]
  split
  · exact ⟨_, rfl⟩
  · exact ⟨_, rfl⟩

/-- A read of a truncated frame takes all that is left, and fails. -/
theorem readFrame_truncated {tail : GoString} (h : Truncated tail) :
    ∃ e, readFrame body tail = (.error (.inl e), []) := by
  obtain ⟨f, hprefix, hne⟩ := h
  have hlt : tail.length < f.bytes.length := by
    refine Nat.lt_of_le_of_ne hprefix.length_le fun hlen => hne ?_
    exact hprefix.eq_of_length hlen
  by_cases h4 : tail.length < 4
  · obtain ⟨e, he⟩ := readFull_short h4
    rw [readFrame, he]
    exact ⟨e, rfl⟩
  · -- the length is whole, and fewer bytes follow than it announces
    have hheader : putUint32 f.length <+: tail := by
      refine List.prefix_of_prefix_length_le (List.prefix_append _ f.content) hprefix ?_
      rw [putUint32_length]
      omega
    obtain ⟨content, rfl⟩ := hheader
    have hshort : content.length < f.length.toNat - 4 := by
      rw [Frame.bytes, List.length_append, List.length_append, f.size] at hlt
      omega
    rw [readFrame, readFull_append (putUint32_length _)]
    simp only [getUint32_length]
    split
    · exact ⟨_, by rw [List.drop_eq_nil_of_le (by omega)]⟩
    · obtain ⟨e, he⟩ := readFull_short hshort
      rw [he]
      exact ⟨e, rfl⟩

theorem recvMessages_nil (fuel : Nat) : recvMessages body (fuel + 1) [] = some ([], []) := rfl

/-- At a truncated frame the loop stops, at once or after one more read. -/
theorem recvMessages_truncated {tail : GoString} (h : Truncated tail) (fuel : Nat) :
    recvMessages body (fuel + 2) tail = some ([], []) := by
  obtain ⟨e, he⟩ := readFrame_truncated body h
  rw [recvMessages, he]
  -- the end of the stream stops the loop, another error only after the next read
  cases e with
  | eof => rfl
  | _ => exact recvMessages_nil body fuel

/-- A frame costs the loop one read, and delivers its message if it has one. -/
theorem recvMessages_frame (f : Frame) (rest : GoString) (fuel : Nat) :
    recvMessages body (fuel + 1) (f.bytes ++ rest) =
      (recvMessages body fuel rest).map fun p => ((f.delivered body).toList ++ p.1, p.2) := by
  have hid : (fun p : List μ × GoString => ([] ++ p.1, p.2)) = id := by
    funext p
    rfl
  rw [recvMessages, readFrame_frame, Frame.delivered]
  by_cases hb : f.InBounds
  · rw [if_pos hb, if_pos hb]
    cases body f.content with
    | ok m => rfl
    | error e =>
      show recvMessages body fuel rest = (recvMessages body fuel rest).map fun p => ([] ++ p.1, p.2)
      rw [hid, Option.map_id]
      rfl
  · rw [if_neg hb, if_neg hb]
    show recvMessages body fuel rest = (recvMessages body fuel rest).map fun p => ([] ++ p.1, p.2)
    rw [hid, Option.map_id]
    rfl

/-- A bad frame costs no more than itself: each read takes one frame off the
stream, and the loop delivers the messages of the frames that have one, in
order, and stops at the end. -/
theorem recvMessages_stream (fs : List Frame) {tail : GoString} (h : Truncated tail) :
    (∀ f ∈ fs, ∀ rest, (readFrame body (f.bytes ++ rest)).2 = rest) ∧
      ∀ fuel, fs.length + 2 ≤ fuel →
        recvMessages body fuel (stream fs ++ tail) =
          some (fs.filterMap (Frame.delivered body), []) := by
  refine ⟨fun f _ rest => by rw [readFrame_frame], fun fuel hfuel => ?_⟩
  induction fs generalizing fuel with
  | nil =>
    obtain ⟨n, rfl⟩ := Nat.exists_eq_add_of_le' hfuel
    exact recvMessages_truncated body h n
  | cons f fs ih =>
    -- each frame takes one read off the fuel
    obtain ⟨n, rfl⟩ : ∃ n, fuel = n + 1 := ⟨fuel - 1, by omega⟩
    rw [List.length_cons] at hfuel
    have hstream : stream (f :: fs) ++ tail = f.bytes ++ (stream fs ++ tail) := by
      rw [stream, List.map_cons, List.flatten_cons, List.append_assoc]
      rfl
    rw [hstream, recvMessages_frame, ih n (by omega), Option.map_some, List.filterMap_cons]
    cases f.delivered body <;> rfl

end Reading

/-- Two frames that are too short to be messages, around one that is long enough. -/
def sampleFrames : List Frame :=
  [⟨3, [], rfl⟩, ⟨24, List.replicate 20 7, rfl⟩, ⟨23, List.replicate 19 0, rfl⟩]

/-- The stream breaks off within the length of the last frame. -/
theorem recvMessages_stream_sample :
    (∀ f ∈ sampleFrames, ∀ rest,
      (readFrame (ε := Unit) .ok (f.bytes ++ rest)).2 = rest) ∧
      ∀ fuel, sampleFrames.length + 2 ≤ fuel →
        recvMessages (ε := Unit) .ok fuel (stream sampleFrames ++ [5, 0]) =
          some (sampleFrames.filterMap (Frame.delivered (ε := Unit) .ok), []) :=
  recvMessages_stream (ε := Unit) .ok sampleFrames ⟨⟨5, [1], rfl⟩, by decide, by decide⟩

end Isthmus.Mwproto
