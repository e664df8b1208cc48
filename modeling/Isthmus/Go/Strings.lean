import Isthmus.Go.Values

/-!
# The string functions the program uses

`strings.Cut`, `strings.CutSuffix`, `strings.LastIndex`, `strings.ReplaceAll`
of one byte by another, and in base 10 `strconv.ParseInt` and what `%d` prints.
-/

namespace Isthmus.Strings

/-- `strings.Cut`: the parts before and after the first `sep`. -/
def cut (sep : GoString) : GoString → Option (GoString × GoString)
  | [] => if sep.isPrefixOf [] then some ([], []) else none
  | b :: s =>
    if sep.isPrefixOf (b :: s) then some ([], (b :: s).drop sep.length)
    else (cut sep s).map fun p => (b :: p.1, p.2)

/-- `strings.CutSuffix`: the string without the suffix, and whether it was there. -/
def cutSuffix (s suffix : GoString) : GoString × Bool :=
  if suffix.isSuffixOf s then (s.take (s.length - suffix.length), true) else (s, false)

/-- `strings.LastIndex`, with `none` for -1. -/
def lastIndex (sep : GoString) : GoString → Option Nat
  | [] => if sep.isPrefixOf [] then some 0 else none
  | b :: s =>
    match lastIndex sep s with
    | some i => some (i + 1)
    | none => if sep.isPrefixOf (b :: s) then some 0 else none

/-- `strings.ReplaceAll` of one byte by another. -/
def replaceByte (old new : UInt8) (s : GoString) : GoString :=
  s.map fun b => if b = old then new else b

/-- The digits of a decimal numeral, most significant first, after the value `acc`. -/
def parseDigits (acc : Nat) : GoString → Option Nat
  | [] => some acc
  | b :: s => if 48 ≤ b ∧ b ≤ 57 then parseDigits (10 * acc + (b.toNat - 48)) s else none

/-- The optional sign of a numeral: whether it is a minus, and the rest. -/
def splitSign : GoString → Bool × GoString
  | 43 :: s => (false, s)
  | 45 :: s => (true, s)
  | s => (false, s)

/-- `strconv.ParseInt(s, 10, bits)`, with `none` for a syntax or range error. -/
def parseInt (s : GoString) (bits : Nat) : Option Int :=
  if (splitSign s).2 = [] then none
  else
    match parseDigits 0 (splitSign s).2 with
    | none => none
    | some n =>
      if (splitSign s).1 then (if n ≤ 2 ^ (bits - 1) then some (-n) else none)
      else (if n < 2 ^ (bits - 1) then some n else none)

/-- A number parsed as 32 bits fits them. -/
theorem parseInt_fits {s : GoString} {n : Int} (h : parseInt s 32 = some n) : FitsInt32 n := by
  unfold parseInt at h
  split at h
  · cases h
  · split at h
    · cases h
    · next m _ =>
      split at h <;> split at h <;> simp only [Option.some.injEq, reduceCtorEq] at h
      · have hm : m ≤ 2147483648 := by assumption
        subst h
        constructor <;> omega
      · have hm : m < 2147483648 := by assumption
        subst h
        constructor <;> omega

/-! ## Printing -/

/-- The decimal digits of a number, most significant first. -/
def formatNat (n : Nat) : GoString := (Nat.toDigits 10 n).map fun c => UInt8.ofNat c.toNat

/-- What `%d` prints. -/
def formatInt (n : Int) : GoString :=
  if n < 0 then 45 :: formatNat n.natAbs else formatNat n.natAbs

theorem formatNat_of_lt {n : Nat} (h : n < 10) :
    formatNat n = [UInt8.ofNat (Nat.digitChar n).toNat] := by
  rw [formatNat, Nat.toDigits_of_lt_base h]
  rfl

theorem formatNat_of_le {n : Nat} (h : 10 ≤ n) :
    formatNat n = formatNat (n / 10) ++ [UInt8.ofNat (Nat.digitChar (n % 10)).toNat] := by
  rw [formatNat, Nat.toDigits_of_base_le (by decide) h, List.map_append]
  rfl

/-- A digit is read as the number it was printed for. -/
theorem digitChar_spec : ∀ d < 10,
    (48 ≤ UInt8.ofNat (Nat.digitChar d).toNat ∧ UInt8.ofNat (Nat.digitChar d).toNat ≤ 57) ∧
      (UInt8.ofNat (Nat.digitChar d).toNat).toNat - 48 = d := by
  decide

/-- Every character printed is a digit. -/
theorem digit_of_mem_formatNat {n : Nat} {b : UInt8} (h : b ∈ formatNat n) : 48 ≤ b ∧ b ≤ 57 := by
  induction n using Nat.strong_induction_on with
  | _ n ih =>
    by_cases hn : n < 10
    · rw [formatNat_of_lt hn, List.mem_singleton] at h
      exact h ▸ (digitChar_spec n hn).1
    · rw [formatNat_of_le (by omega), List.mem_append, List.mem_singleton] at h
      obtain h | h := h
      · exact ih (n / 10) (by omega) h
      · exact h ▸ (digitChar_spec (n % 10) (by omega)).1

theorem exists_formatNat (n : Nat) : ∃ b s, formatNat n = b :: s ∧ 48 ≤ b ∧ b ≤ 57 := by
  have hne : formatNat n ≠ [] := by simp [formatNat]
  obtain ⟨b, s, hs⟩ := List.exists_cons_of_ne_nil hne
  exact ⟨b, s, hs, digit_of_mem_formatNat (hs ▸ List.mem_cons_self)⟩

/-- Reading the digits of a number gives the number. -/
theorem parseDigits_formatNat (n : Nat) (s : GoString) :
    parseDigits 0 (formatNat n ++ s) = parseDigits n s := by
  induction n using Nat.strong_induction_on generalizing s with
  | _ n ih =>
    by_cases hn : n < 10
    · obtain ⟨hrange, hvalue⟩ := digitChar_spec n hn
      rw [formatNat_of_lt hn, List.singleton_append, parseDigits, if_pos hrange, hvalue]
      simp
    · obtain ⟨hrange, hvalue⟩ := digitChar_spec (n % 10) (by omega)
      rw [formatNat_of_le (by omega), List.append_assoc, ih (n / 10) (by omega),
        List.singleton_append, parseDigits, if_pos hrange, hvalue]
      congr 1
      omega

theorem formatNat_injective {m n : Nat} (h : formatNat m = formatNat n) : m = n := by
  have hm := parseDigits_formatNat m []
  rw [h, parseDigits_formatNat n []] at hm
  simp only [parseDigits, Option.some.injEq] at hm
  exact hm.symm

/-- A 64-bit integer is read back from what is printed for it. -/
theorem parseInt_formatInt (i : Int64) : parseInt (formatInt i.toInt) 64 = some i.toInt := by
  have hmin := Int64.le_toInt i
  have hmax := Int64.toInt_lt i
  generalize i.toInt = n at hmin hmax
  obtain ⟨b, s, hs, hb, hb'⟩ := exists_formatNat n.natAbs
  have hdigits : parseDigits 0 (formatNat n.natAbs) = some n.natAbs := by
    have hread := parseDigits_formatNat n.natAbs []
    rwa [List.append_nil] at hread
  have hne : formatNat n.natAbs ≠ [] := by simp [hs]
  by_cases hneg : n < 0
  · have hsign : splitSign (formatInt n) = (true, formatNat n.natAbs) := by
      rw [formatInt, if_pos hneg]
      rfl
    rw [parseInt, hsign]
    simp only [hne, if_false, hdigits, if_true]
    rw [if_pos (by omega)]
    congr 1
    omega
  · have hsign : splitSign (formatInt n) = (false, formatNat n.natAbs) := by
      rw [formatInt, if_neg hneg, hs]
      -- a digit is neither of the signs
      have h43 : b ≠ 43 := by
        rintro rfl
        exact absurd hb (by decide)
      have h45 : b ≠ 45 := by
        rintro rfl
        exact absurd hb (by decide)
      simp [splitSign, h43, h45]
    rw [parseInt, hsign]
    simp only [hne, if_false, hdigits, Bool.false_eq_true]
    rw [if_pos (by omega)]
    congr 1
    omega

example : formatInt (-120) = lit "-120" := by decide

/-! ## Suffixes -/

theorem cutSuffix_append (s suffix : GoString) : cutSuffix (s ++ suffix) suffix = (s, true) := by
  have hsuffix : suffix.isSuffixOf (s ++ suffix) = true :=
    List.isSuffixOf_iff_suffix.mpr (List.suffix_append s suffix)
  rw [cutSuffix, if_pos hsuffix, List.length_append, Nat.add_sub_cancel, List.take_left]

theorem lastIndex_eq_none {c : UInt8} {sep s : GoString} (h : c ∉ s) :
    lastIndex (c :: sep) s = none := by
  induction s with
  | nil => rfl
  | cons b s ih =>
    have hb : c ≠ b := fun heq => h (heq ▸ List.mem_cons_self)
    rw [lastIndex, ih fun hs => h (List.mem_cons_of_mem b hs)]
    simp [hb]

/-- The last separator is the one that no byte like its first follows. -/
theorem lastIndex_append {c : UInt8} {sep rest : GoString} (h : c ∉ sep ++ rest) (s : GoString) :
    lastIndex (c :: sep) (s ++ (c :: sep) ++ rest) = some s.length := by
  induction s with
  | nil =>
    have hpre : (c :: sep).isPrefixOf (c :: (sep ++ rest)) = true :=
      List.isPrefixOf_iff_prefix.mpr (List.prefix_append (c :: sep) rest)
    rw [List.nil_append, List.cons_append, lastIndex, lastIndex_eq_none h]
    dsimp only
    rw [if_pos hpre]
    rfl
  | cons b s ih =>
    rw [List.cons_append, List.cons_append, lastIndex, ih]
    rfl

/-! ## Separators -/

/-- A string is split at its last separator. -/
theorem eq_of_lastIndex {sep s : GoString} {i : Nat} (h : lastIndex sep s = some i) :
    s = s.take i ++ sep ++ s.drop (i + sep.length) := by
  have hpre : ∀ {t : GoString}, sep.isPrefixOf t = true → t = sep ++ t.drop sep.length := by
    intro t ht
    obtain ⟨rest, rfl⟩ := List.isPrefixOf_iff_prefix.mp ht
    rw [List.drop_left]
  induction s generalizing i with
  | nil =>
    rw [lastIndex] at h
    split at h
    · next ht =>
      cases h
      simpa using hpre ht
    · cases h
  | cons b s ih =>
    rw [lastIndex] at h
    split at h
    · next j hj =>
      cases h
      rw [List.take_succ_cons, Nat.add_right_comm, List.drop_succ_cons, List.cons_append,
        List.cons_append, ← ih hj]
    · split at h
      · next ht =>
        cases h
        simpa using hpre ht
      · cases h

/-- Without an index the separator is nowhere in the string. -/
theorem lastIndex_eq_none_iff {sep s : GoString} : lastIndex sep s = none ↔ ¬sep <:+: s := by
  induction s with
  | nil =>
    rw [lastIndex, List.infix_nil]
    split
    · next ht => simp [List.prefix_nil.mp (List.isPrefixOf_iff_prefix.mp ht)]
    · next ht =>
      refine iff_of_true rfl ?_
      rintro rfl
      exact ht rfl
  | cons b s ih =>
    rw [lastIndex, List.infix_cons_iff, not_or]
    split
    · next j hj =>
      refine iff_of_false (fun h => by cases h) fun h => ?_
      rw [ih.mpr h.2] at hj
      cases hj
    · next hnone =>
      rw [and_iff_left (ih.mp hnone)]
      split
      · next ht =>
        exact iff_of_false (fun h => by cases h) fun h => h (List.isPrefixOf_iff_prefix.mp ht)
      · next ht => exact iff_of_true rfl fun h => ht (List.isPrefixOf_iff_prefix.mpr h)

/-- A string is split at its first separator. -/
theorem eq_of_cut {sep s before rest : GoString} (h : cut sep s = some (before, rest)) :
    s = before ++ sep ++ rest := by
  induction s generalizing before with
  | nil =>
    rw [cut] at h
    split at h
    · next ht =>
      cases h
      rw [List.prefix_nil.mp (List.isPrefixOf_iff_prefix.mp ht)]
      rfl
    · cases h
  | cons b s ih =>
    rw [cut] at h
    split at h
    · next ht =>
      cases h
      obtain ⟨t, hts⟩ := List.isPrefixOf_iff_prefix.mp ht
      rw [← hts, List.drop_left, List.nil_append]
    · obtain ⟨p, hp, heq⟩ := Option.map_eq_some_iff.mp h
      cases heq
      rw [List.cons_append, List.cons_append, ← ih hp]

/-- The first separator is the one that no byte like its first comes before. -/
theorem cut_append {c : UInt8} {sep before : GoString} (h : c ∉ before) (rest : GoString) :
    cut (c :: sep) (before ++ (c :: sep) ++ rest) = some (before, rest) := by
  induction before with
  | nil =>
    have hpre : (c :: sep).isPrefixOf ((c :: sep) ++ rest) = true :=
      List.isPrefixOf_iff_prefix.mpr (List.prefix_append (c :: sep) rest)
    rw [List.nil_append, List.cons_append, cut, ← List.cons_append, if_pos hpre, List.drop_left]
  | cons b before ih =>
    have hb : c ≠ b := fun heq => h (heq ▸ List.mem_cons_self)
    have hpre : ¬(c :: sep).isPrefixOf (b :: (before ++ (c :: sep) ++ rest)) = true := by
      simp [hb]
    rw [List.cons_append, List.cons_append, cut, if_neg hpre,
      ih fun hmem => h (List.mem_cons_of_mem b hmem)]
    rfl

end Isthmus.Strings
