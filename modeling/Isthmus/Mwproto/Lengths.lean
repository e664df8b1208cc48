import Isthmus.Mwproto.Fields

/-!
# Length prefixes

The prefix of a string is what `unmarshalBytes` reads up to the first byte
without its high bit. The length that it spells has no bound, but the loop adds
it up in 64 bits, and so the end of the string may wrap.

## Main definitions

- `lengthPrefix`: the bytes of the prefix and the length that they spell
- `splitString`: the string behind a prefix and what follows it
- `Exact`: `unmarshalBytes` does what `splitString` does
-/

namespace Isthmus.Mwproto

/-- The number of bytes in the prefix and the length that they spell, seven bits
in each byte, the low ones first. -/
def lengthPrefix : GoString → Option (Nat × Nat)
  | [] => none
  | b :: bs =>
    if b &&& 128 ≠ 0 then (lengthPrefix bs).map fun p => (p.1 + 1, (b &&& 127).toNat + 128 * p.2)
    else some (1, (b &&& 127).toNat)

/-- The string behind the prefix and everything that follows it, if there is a
prefix and the payload is long enough. -/
def splitString (payload : GoString) : Option (GoString × GoString) :=
  match lengthPrefix payload with
  | none => none
  | some (start, n) =>
    if start + n ≤ payload.length then
      some ((payload.drop start).take n, payload.drop (start + n))
    else none

/-- The string is returned as it is, or there is an error. -/
def Exact (payload : GoString) : Prop :=
  match splitString payload with
  | some p => unmarshalBytes payload = .ok p
  | none => ∃ e, unmarshalBytes payload = .error e ∧ e ≠ .panic

/-! ## The sum in 64 bits -/

/-- What the loop does at the end of a prefix. -/
def finish (payload : GoString) (start : Nat) (stop : BitVec 64) :
    Except ReadError (GoString × GoString) :=
  if (payload.length : Int) < stop.toInt then .error .lengthExceedsPayload
  else if stop.toInt < start then .error .panic
  else .ok ((payload.take stop.toNat).drop start, payload.drop stop.toNat)

theorem low_bits_lt (b : UInt8) : (b &&& 127).toNat < 128 := by
  have h : (127 : UInt8).toNat = 127 := rfl
  rw [UInt8.toNat_and, h]
  exact Nat.lt_succ_of_le Nat.and_le_right

/-- Seven more bits above those already read. -/
theorem accumulate (b : UInt8) {a i : Nat} (ha : a < 2 ^ (i * 7)) :
    BitVec.ofNat 64 a ||| ((b &&& 127).toBitVec.setWidth 64 <<< (i * 7)) =
      BitVec.ofNat 64 (a + (b &&& 127).toNat * 2 ^ (i * 7)) := by
  have hb : ((b &&& 127).toBitVec.setWidth 64).toNat = (b &&& 127).toNat := by
    have hlt := low_bits_lt b
    rw [BitVec.toNat_setWidth, UInt8.toNat_toBitVec]
    omega
  have hor : a + (b &&& 127).toNat * 2 ^ (i * 7) = a ||| (b &&& 127).toNat * 2 ^ (i * 7) := by
    rw [Nat.or_comm, Nat.mul_comm, ← Nat.two_pow_add_eq_or_of_lt ha, Nat.add_comm]
  apply BitVec.eq_of_toNat_eq
  rw [hor, BitVec.toNat_or, BitVec.toNat_shiftLeft, hb, Nat.shiftLeft_eq, BitVec.toNat_ofNat,
    BitVec.toNat_ofNat, ← Nat.or_mod_two_pow]

theorem unmarshalBytesAt_eq (payload : GoString) {a i : Nat} (ha : a < 2 ^ (i * 7))
    (bs : GoString) :
    unmarshalBytesAt payload i (BitVec.ofNat 64 a) bs =
      match lengthPrefix bs with
      | none => .error .unterminatedLength
      | some (k, n) =>
        finish payload (i + k) (BitVec.ofNat 64 (i + k + (a + n * 2 ^ (i * 7)))) := by
  induction bs generalizing i a with
  | nil => rfl
  | cons b bs ih =>
    have hlow := low_bits_lt b
    have hstep : 2 ^ ((i + 1) * 7) = 128 * 2 ^ (i * 7) := by
      rw [Nat.add_mul, Nat.pow_add, Nat.mul_comm]
    have hnext : a + (b &&& 127).toNat * 2 ^ (i * 7) < 2 ^ ((i + 1) * 7) := by
      have h : ((b &&& 127).toNat + 1) * 2 ^ (i * 7) ≤ 128 * 2 ^ (i * 7) :=
        Nat.mul_le_mul_right _ hlow
      rw [Nat.add_mul] at h
      omega
    rw [unmarshalBytesAt, accumulate b ha, lengthPrefix]
    by_cases hb : b &&& 128 ≠ 0
    · -- the bytes behind this one spell the rest of the length
      rw [if_pos hb, if_pos hb, ih hnext]
      cases lengthPrefix bs with
      | none => rfl
      | some p =>
        have hsum : a + (b &&& 127).toNat * 2 ^ (i * 7) + p.2 * 2 ^ ((i + 1) * 7) =
            a + ((b &&& 127).toNat + 128 * p.2) * 2 ^ (i * 7) := by
          rw [hstep, Nat.add_mul, Nat.mul_left_comm p.2, Nat.mul_assoc, Nat.add_assoc]
        have hidx : i + 1 + p.1 = i + (p.1 + 1) := by omega
        simp only [Option.map_some, hsum, hidx]
    · rw [if_neg hb, if_neg hb]
      have hstop : BitVec.ofNat 64 (i + 1) +
          BitVec.ofNat 64 (a + (b &&& 127).toNat * 2 ^ (i * 7)) =
          BitVec.ofNat 64 (i + 1 + (a + (b &&& 127).toNat * 2 ^ (i * 7))) :=
        (BitVec.ofNat_add ..).symm
      simp only [hstop, finish]
      rfl

/-- The end of the string is the sum in 64 bits. -/
theorem unmarshalBytes_eq (payload : GoString) :
    unmarshalBytes payload =
      match lengthPrefix payload with
      | none => .error .unterminatedLength
      | some (start, n) => finish payload start (BitVec.ofNat 64 (start + n)) := by
  have h := unmarshalBytesAt_eq payload (a := 0) (i := 0) (by decide) payload
  simp only [Nat.zero_add, Nat.zero_mul, Nat.pow_zero, Nat.mul_one] at h
  exact h

/-! ## Exact decoding -/

/-- A sum that does not fit becomes less than it is. -/
theorem toInt_ofNat_lt {m : Nat} (h : 2 ^ 63 ≤ m) : (BitVec.ofNat 64 m).toInt < m := by
  have hlt := (BitVec.ofNat 64 m).toInt_lt
  simp only [Nat.reduceSub] at hlt
  omega

theorem finish_of_fits {payload : GoString} {start n : Nat} (h : start + n < 2 ^ 63) :
    finish payload start (BitVec.ofNat 64 (start + n)) =
      if payload.length < start + n then .error .lengthExceedsPayload
      else .ok ((payload.drop start).take n, payload.drop (start + n)) := by
  have hnat : (BitVec.ofNat 64 (start + n)).toNat = start + n := by
    rw [BitVec.toNat_ofNat]
    omega
  have hint : (BitVec.ofNat 64 (start + n)).toInt = (start + n : Nat) := by
    rw [BitVec.toInt_eq_toNat_of_lt (by omega), hnat]
  rw [finish, hint, hnat, List.drop_take, Nat.add_sub_cancel_left,
    if_neg (show ¬ ((start + n : Nat) : Int) < start by omega)]
  by_cases hlen : payload.length < start + n
  · rw [if_pos hlen, if_pos (by omega)]
  · rw [if_neg hlen, if_neg (by omega)]

theorem exact_iff_of_some {payload : GoString} {start n : Nat}
    (hspelled : lengthPrefix payload = some (start, n)) :
    Exact payload ↔
      start + n < 2 ^ 63 ∨ (payload.length : Int) < (BitVec.ofNat 64 (start + n)).toInt := by
  simp only [Exact, splitString, unmarshalBytes_eq, hspelled]
  by_cases hfits : start + n < 2 ^ 63
  · refine iff_of_true ?_ (.inl hfits)
    rw [finish_of_fits hfits]
    by_cases hlen : start + n ≤ payload.length
    · rw [if_pos hlen, if_neg (by omega)]
    · rw [if_neg hlen, if_pos (by omega)]
      exact ⟨_, rfl, by simp⟩
  · have hwrap := toInt_ofNat_lt (Nat.le_of_not_lt hfits)
    rw [finish]
    by_cases hbehind : (payload.length : Int) < (BitVec.ofNat 64 (start + n)).toInt
    · -- an end that wraps behind the payload was behind it before
      refine iff_of_true ?_ (.inr hbehind)
      rw [if_neg (by omega), if_pos hbehind]
      exact ⟨_, rfl, by simp⟩
    · refine iff_of_false ?_ (by simp only [hfits, hbehind, or_self, not_false_eq_true])
      rw [if_neg hbehind]
      by_cases hpanic : (BitVec.ofNat 64 (start + n)).toInt < start
      · rw [if_pos hpanic]
        split <;> simp
      · -- the string that is returned ends too early
        have hstop : ((BitVec.ofNat 64 (start + n)).toNat : Int) =
            (BitVec.ofNat 64 (start + n)).toInt := by
          have h := BitVec.toInt_eq_toNat_cond (BitVec.ofNat 64 (start + n))
          have hlt := (BitVec.ofNat 64 (start + n)).isLt
          split at h <;> omega
        rw [if_neg hpanic]
        by_cases hlen : start + n ≤ payload.length
        · rw [if_pos hlen]
          intro h
          have hrest := congrArg (fun p : GoString × GoString => p.2.length) (Except.ok.inj h)
          simp only [List.length_drop] at hrest
          omega
        · rw [if_neg hlen]
          rintro ⟨e, he, -⟩
          cases he

/-- A string is decoded exactly or rejected if and only if its end fits 63 bits
or wraps to one that is behind the payload. -/
theorem exact_iff (payload : GoString) :
    Exact payload ↔ ∀ start n, lengthPrefix payload = some (start, n) →
      start + n < 2 ^ 63 ∨ (payload.length : Int) < (BitVec.ofNat 64 (start + n)).toInt := by
  cases hspelled : lengthPrefix payload with
  | none =>
    refine iff_of_true ?_ fun start n h => by cases h
    simp only [Exact, splitString, unmarshalBytes_eq, hspelled]
    exact ⟨_, rfl, by simp⟩
  | some p =>
    refine (exact_iff_of_some hspelled).trans ⟨fun h start n hp => ?_, fun h => h p.1 p.2 rfl⟩
    cases hp
    exact h

/-- Ten bytes with a negative sum panic, and the eleventh is shifted out. -/
theorem unmarshalBytes_wraps :
    unmarshalBytes [0xff, 0xff, 0xff, 0xff, 0xff, 0xff, 0xff, 0xff, 0xff, 1] = .error .panic ∧
      ¬ Exact [0xff, 0xff, 0xff, 0xff, 0xff, 0xff, 0xff, 0xff, 0xff, 1] ∧
      unmarshalBytes [0x80, 0x80, 0x80, 0x80, 0x80, 0x80, 0x80, 0x80, 0x80, 0x80, 1] =
        .ok ([], []) ∧
      ¬ Exact [0x80, 0x80, 0x80, 0x80, 0x80, 0x80, 0x80, 0x80, 0x80, 0x80, 1] := by
  have hpanic : unmarshalBytes [0xff, 0xff, 0xff, 0xff, 0xff, 0xff, 0xff, 0xff, 0xff, 1] =
      .error .panic := by decide
  have hshift : unmarshalBytes [0x80, 0x80, 0x80, 0x80, 0x80, 0x80, 0x80, 0x80, 0x80, 0x80, 1] =
      .ok ([], []) := by decide
  have hnone₁ : splitString [0xff, 0xff, 0xff, 0xff, 0xff, 0xff, 0xff, 0xff, 0xff, 1] = none := by
    decide
  have hnone₂ :
      splitString [0x80, 0x80, 0x80, 0x80, 0x80, 0x80, 0x80, 0x80, 0x80, 0x80, 1] = none := by
    decide
  refine ⟨hpanic, ?_, hshift, ?_⟩
  · simp only [Exact, hnone₁, hpanic]
    rintro ⟨e, he, hne⟩
    cases he
    exact hne rfl
  · simp only [Exact, hnone₂, hshift]
    rintro ⟨e, he, -⟩
    cases he

end Isthmus.Mwproto
