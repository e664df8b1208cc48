import Isthmus.Go.Strings
import Mathlib.Algebra.Group.Int.Defs

/-!
# Decimal numerals

What `strconv.ParseInt` reads in base 10: an optional sign and digits, with any
number of leading zeros.
-/

namespace Isthmus.Strings

def IsDigit (b : UInt8) : Prop := 48 ≤ b ∧ b ≤ 57

instance (b : UInt8) : Decidable (IsDigit b) := inferInstanceAs (Decidable (_ ∧ _))

/-- The value of decimal digits. -/
def digitsValue (s : GoString) : Nat := s.foldl (fun n b => 10 * n + (b.toNat - 48)) 0

/-- At least one digit, and nothing else. -/
def IsDigits (s : GoString) : Prop := s ≠ [] ∧ ∀ b ∈ s, IsDigit b

/-- The string is a decimal spelling of the number. -/
inductive Spells : GoString → Int → Prop
  | plain {s : GoString} (h : IsDigits s) : Spells s (digitsValue s)
  | plus {s : GoString} (h : IsDigits s) : Spells (43 :: s) (digitsValue s)
  | minus {s : GoString} (h : IsDigits s) : Spells (45 :: s) (-digitsValue s)

/-- The number is a signed integer of this many bits. -/
def FitsBits (bits : Nat) (n : Int) : Prop := -2 ^ (bits - 1) ≤ n ∧ n < 2 ^ (bits - 1)

variable {s : GoString}

/-- Reading digits succeeds on digits only, and gives their value. -/
theorem parseDigits_eq_some_iff {acc n : Nat} : parseDigits acc s = some n ↔
    (∀ b ∈ s, IsDigit b) ∧ s.foldl (fun n b => 10 * n + (b.toNat - 48)) acc = n := by
  induction s generalizing acc with
  | nil => simp [parseDigits]
  | cons b s ih =>
    rw [parseDigits, List.forall_mem_cons, List.foldl_cons]
    by_cases hb : 48 ≤ b ∧ b ≤ 57
    · rw [if_pos hb, ih, and_iff_right (show IsDigit b from hb)]
    · rw [if_neg hb]
      constructor
      · intro h
        cases h
      · rintro ⟨⟨hdigit, -⟩, -⟩
        exact absurd hdigit hb

/-- Digits have no sign to split off. -/
theorem splitSign_digits (h : IsDigits s) : splitSign s = (false, s) := by
  obtain ⟨b, s, rfl⟩ := List.exists_cons_of_ne_nil h.1
  have hb : IsDigit b := h.2 b List.mem_cons_self
  have h43 : b ≠ 43 := by
    rintro rfl
    exact absurd hb.1 (by decide)
  have h45 : b ≠ 45 := by
    rintro rfl
    exact absurd hb.1 (by decide)
  simp [splitSign, h43, h45]

/-- The three ways in which a sign is split off. -/
theorem splitSign_cases (s : GoString) :
    splitSign s = (false, s) ∨ (∃ t, s = 43 :: t ∧ splitSign s = (false, t)) ∨
      ∃ t, s = 45 :: t ∧ splitSign s = (true, t) := by
  unfold splitSign
  split
  · next t => exact .inr (.inl ⟨t, rfl, rfl⟩)
  · next t => exact .inr (.inr ⟨t, rfl, rfl⟩)
  · exact .inl rfl

/-- A numeral is read where its digits are and its value is in range. -/
theorem parseInt_of_splitSign {bits : Nat} {minus : Bool} {t : GoString} (h : IsDigits t)
    (hs : splitSign s = (minus, t)) : parseInt s bits =
      if minus then
        if digitsValue t ≤ 2 ^ (bits - 1) then some (-(digitsValue t : Int)) else none
      else if digitsValue t < 2 ^ (bits - 1) then some (digitsValue t : Int) else none := by
  have hdigits : parseDigits 0 t = some (digitsValue t) := parseDigits_eq_some_iff.mpr ⟨h.2, rfl⟩
  rw [parseInt, hs]
  dsimp only
  rw [if_neg h.1, hdigits]

/-- What is read from a numeral, without its sign, are digits. -/
theorem isDigits_of_parseInt {bits : Nat} {n : Int} (h : parseInt s bits = some n) :
    IsDigits (splitSign s).2 := by
  unfold parseInt at h
  split at h
  · cases h
  · next hne =>
    split at h
    · cases h
    · next m hm => exact ⟨hne, (parseDigits_eq_some_iff.mp hm).1⟩

/-- `strconv.ParseInt` reads the spellings of the numbers in range. -/
theorem parseInt_eq_some_iff {bits : Nat} {n : Int} :
    parseInt s bits = some n ↔ Spells s n ∧ FitsBits bits n := by
  have hpow : ((2 ^ (bits - 1) : Nat) : Int) = 2 ^ (bits - 1) := by push_cast; rfl
  constructor
  · intro h
    have hdigits := isDigits_of_parseInt h
    obtain hs | ⟨t, rfl, hs⟩ | ⟨t, rfl, hs⟩ := splitSign_cases s
    · rw [hs] at hdigits
      rw [parseInt_of_splitSign hdigits hs, if_neg Bool.false_ne_true] at h
      split at h
      · cases h
        exact ⟨.plain hdigits, by omega, by omega⟩
      · cases h
    · rw [hs] at hdigits
      rw [parseInt_of_splitSign hdigits hs, if_neg Bool.false_ne_true] at h
      split at h
      · cases h
        exact ⟨.plus hdigits, by omega, by omega⟩
      · cases h
    · rw [hs] at hdigits
      rw [parseInt_of_splitSign hdigits hs, if_pos rfl] at h
      split at h
      · cases h
        have hpos : 0 < 2 ^ (bits - 1) := Nat.two_pow_pos _
        exact ⟨.minus hdigits, by omega, by omega⟩
      · cases h
  · rintro ⟨hspells, hmin, hmax⟩
    cases hspells with
    | plain hdigits =>
      rw [parseInt_of_splitSign hdigits (splitSign_digits hdigits), if_neg Bool.false_ne_true,
        if_pos (by omega)]
    | plus hdigits =>
      rw [parseInt_of_splitSign hdigits rfl, if_neg Bool.false_ne_true, if_pos (by omega)]
    | minus hdigits =>
      rw [parseInt_of_splitSign hdigits rfl, if_pos rfl, if_pos (by omega)]

theorem digit_not_mem {c : UInt8} (hc : ¬IsDigit c) (h : IsDigits s) : c ∉ s :=
  fun hmem => hc (h.2 c hmem)

/-- A spelling has no characters but digits and a sign. -/
theorem Spells.not_mem {n : Int} {c : UInt8} (h : Spells s n) (hc : ¬IsDigit c) (h43 : c ≠ 43)
    (h45 : c ≠ 45) : c ∉ s := by
  cases h with
  | plain hdigits => exact digit_not_mem hc hdigits
  | plus hdigits => exact List.not_mem_cons_of_ne_of_not_mem h43 (digit_not_mem hc hdigits)
  | minus hdigits => exact List.not_mem_cons_of_ne_of_not_mem h45 (digit_not_mem hc hdigits)

/-- A string spells one number only. -/
theorem Spells.unique {m n : Int} (hm : Spells s m) (hn : Spells s n) : m = n := by
  have hsign : ∀ {b : UInt8} {t : GoString}, IsDigits (b :: t) → ¬IsDigit b → False :=
    fun h hb => hb (h.2 _ List.mem_cons_self)
  cases hm with
  | plain h =>
    cases hn with
    | plain _ => rfl
    | plus _ => exact (hsign h (by decide)).elim
    | minus _ => exact (hsign h (by decide)).elim
  | plus _ =>
    cases hn with
    | plain h => exact (hsign h (by decide)).elim
    | plus _ => rfl
  | minus _ =>
    cases hn with
    | plain h => exact (hsign h (by decide)).elim
    | minus _ => rfl

/-- What is printed for a number spells it. -/
theorem spells_formatInt (n : Int) : Spells (formatInt n) n := by
  have hvalue : digitsValue (formatNat n.natAbs) = n.natAbs := by
    have hread := parseDigits_formatNat n.natAbs []
    rw [List.append_nil] at hread
    exact (parseDigits_eq_some_iff.mp hread).2
  obtain ⟨b, s, hs, -⟩ := exists_formatNat n.natAbs
  have hdigits : IsDigits (formatNat n.natAbs) :=
    ⟨by simp [hs], fun b hb => digit_of_mem_formatNat hb⟩
  by_cases hneg : n < 0
  · have hn : n = -((digitsValue (formatNat n.natAbs) : Nat) : Int) := by omega
    rw [formatInt, if_pos hneg]
    conv => rhs; rw [hn]
    exact .minus hdigits
  · have hn : n = ((digitsValue (formatNat n.natAbs) : Nat) : Int) := by omega
    rw [formatInt, if_neg hneg]
    conv => rhs; rw [hn]
    exact .plain hdigits

end Isthmus.Strings
