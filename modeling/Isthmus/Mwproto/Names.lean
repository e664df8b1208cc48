import Isthmus.Go.Numerals
import Isthmus.Mwproto.Discriminators

/-!
# The forms of names

Which names `ParseQualifiedName` accepts, and for which names the two functions
about discriminators agree on what a discriminator is.

## Main results

- `parseQualifiedNameResults_iff`: the names that are accepted, and their only reading
- `discriminatorsAgree_iff`: the names that are stripped of a discriminator alone
-/

namespace Isthmus.Mwproto

open Strings

theorem fitsBits_32 {n : Int} : FitsBits 32 n ↔ FitsInt32 n := by
  simp [FitsBits, FitsInt32]

theorem fitsBits_zero : FitsBits 64 0 := by
  simp [FitsBits]

/-- A numeral has no parenthesis and no underscore. -/
theorem not_mem_numeral {numeral : GoString} {n : Int} (h : Spells numeral n) :
    (41 : UInt8) ∉ numeral ∧ (95 : UInt8) ∉ numeral :=
  ⟨h.not_mem (by decide) (by decide) (by decide), h.not_mem (by decide) (by decide) (by decide)⟩

/-! ## Qualified names -/

/-- The three results of `ParseQualifiedName`. Where the number cannot be read,
the item has been set by then. -/
def parseQualifiedNameResults (name : GoString) : Int × GoString × Bool :=
  let namePrefix := lit "MW("
  if namePrefix.isPrefixOf name then
    match cut (lit ")_") (name.drop namePrefix.length) with
    | none => (0, [], false)
    | some (qualifier, item) =>
      match parseInt qualifier 32 with
      | none => (0, item, false)
      | some n => (n, item, true)
  else (0, [], false)

/-- `parseQualifiedName` is what is left of the results under `ok`. -/
theorem parseQualifiedName_eq (name : GoString) : parseQualifiedName name =
    if (parseQualifiedNameResults name).2.2 then
      some ((parseQualifiedNameResults name).1, (parseQualifiedNameResults name).2.1)
    else none := by
  unfold parseQualifiedName parseQualifiedNameResults
  dsimp only
  by_cases hprefix : (lit "MW(").isPrefixOf name
  · rw [if_pos hprefix, if_pos hprefix]
    rcases cut (lit ")_") (name.drop (lit "MW(").length) with _ | ⟨qualifier, item⟩
    · rfl
    · cases hint : parseInt qualifier 32 with
      | none => simp [hint]
      | some n => simp [hint]
  · rw [if_neg hprefix, if_neg hprefix]
    rfl

/-- The name is `MW(pid)_item`, with some spelling of a 32-bit player. -/
def Qualified (name : GoString) (pid : Int) (item : GoString) : Prop :=
  ∃ numeral, name = lit "MW(" ++ numeral ++ lit ")_" ++ item ∧ Spells numeral pid ∧ FitsInt32 pid

section Qualified

variable {name item : GoString} {pid : Int}

theorem qualified_of_results (h : parseQualifiedNameResults name = (pid, item, true)) :
    Qualified name pid item := by
  unfold parseQualifiedNameResults at h
  dsimp only at h
  split at h
  · next hprefix =>
    obtain ⟨rest, rfl⟩ := List.isPrefixOf_iff_prefix.mp hprefix
    rw [List.drop_left] at h
    split at h
    · cases h
    · next qualifier item' hcut =>
      split at h
      · cases h
      · next n hn =>
        cases h
        obtain ⟨hspells, hfits⟩ := parseInt_eq_some_iff.mp hn
        refine ⟨qualifier, ?_, hspells, fitsBits_32.mp hfits⟩
        rw [eq_of_cut hcut]
        simp only [List.append_assoc]
  · cases h

theorem results_of_qualified (h : Qualified name pid item) :
    parseQualifiedNameResults name = (pid, item, true) := by
  obtain ⟨numeral, rfl, hspells, hfits⟩ := h
  have hprefix : (lit "MW(").isPrefixOf (lit "MW(" ++ (numeral ++ lit ")_" ++ item)) = true :=
    List.isPrefixOf_iff_prefix.mpr (List.prefix_append _ _)
  have hcut : cut (lit ")_") (numeral ++ lit ")_" ++ item) = some (numeral, item) :=
    cut_append (not_mem_numeral hspells).1 item
  have hint : parseInt numeral 32 = some pid :=
    parseInt_eq_some_iff.mpr ⟨hspells, fitsBits_32.mpr hfits⟩
  rw [List.append_assoc, List.append_assoc, ← List.append_assoc numeral, parseQualifiedNameResults,
    if_pos hprefix, List.drop_left, hcut]
  dsimp only
  rw [hint]

end Qualified

/-- The names that are accepted are the qualified ones, each with one reading; with
any other, `ok` is false. A printed player and any item are read back. -/
theorem parseQualifiedNameResults_iff (name : GoString) :
    (∀ pid item, parseQualifiedNameResults name = (pid, item, true) ↔ Qualified name pid item) ∧
      ((∀ pid item, ¬Qualified name pid item) → (parseQualifiedNameResults name).2.2 = false) ∧
      (∀ pid item pid' item', Qualified name pid item → Qualified name pid' item' →
        pid = pid' ∧ item = item') ∧
      ∀ (pid : Int32) (item : GoString), parseQualifiedNameResults
        (lit "MW(" ++ formatInt pid.toInt ++ lit ")_" ++ item) = (pid.toInt, item, true) := by
  refine ⟨fun pid item => ⟨qualified_of_results, results_of_qualified⟩, fun hnone => ?_,
    fun pid item pid' item' h h' => ?_, fun pid item => ?_⟩
  · by_contra hok
    rw [Bool.not_eq_false] at hok
    exact hnone _ _ (qualified_of_results (Prod.ext rfl (Prod.ext rfl hok)))
  · have heq := (results_of_qualified h).symm.trans (results_of_qualified h')
    cases heq
    exact ⟨rfl, rfl⟩
  · exact results_of_qualified
      ⟨_, rfl, spells_formatInt pid.toInt, Int32.le_toInt pid, Int32.toInt_lt pid⟩

/-! ## Discriminated names -/

/-- The name is `base_(d)`, with some spelling of a 64-bit number. -/
def Discriminated (name base : GoString) (d : Int) : Prop :=
  ∃ numeral, name = base ++ lit "_(" ++ numeral ++ lit ")" ∧ Spells numeral d ∧ FitsBits 64 d

section Discriminated

variable {name base : GoString} {d : Int}

/-- A name is cut at its `)` exactly when that is its last byte. -/
theorem cutSuffix_paren {stem : GoString} (h : cutSuffix name (lit ")") = (stem, true)) :
    name = stem ++ lit ")" := by
  rw [cutSuffix] at h
  split at h
  · next hsuffix =>
    cases h
    obtain ⟨t, rfl⟩ := List.isSuffixOf_iff_suffix.mp hsuffix
    rw [List.length_append, Nat.add_sub_cancel, List.take_left]
  · cases h

/-- A number other than 0 is one that the name spells. -/
theorem discriminated_of_parse (h : parseDiscriminator name = some d) :
    (∃ base, Discriminated name base d) ∨ d = 0 := by
  unfold parseDiscriminator at h
  split at h
  · cases h
  · next stem hstem =>
    have hname := cutSuffix_paren hstem
    split at h
    · exact .inr (Option.some.inj h).symm
    · next i hi =>
      split at h
      · exact .inr (Option.some.inj h).symm
      · next n hn =>
        cases h
        obtain ⟨hspells, hfits⟩ := parseInt_eq_some_iff.mp hn
        refine .inl ⟨stem.take i, stem.drop (i + 2), ?_, hspells, hfits⟩
        rw [hname]
        exact congrArg (· ++ lit ")") (eq_of_lastIndex hi)

/-- The names that are refused are those without a `)` at the end. -/
theorem parseDiscriminator_eq_none_iff :
    parseDiscriminator name = none ↔ ¬lit ")" <:+ name := by
  unfold parseDiscriminator
  split
  · next stem hstem =>
    refine iff_of_true rfl fun hsuffix => ?_
    obtain ⟨t, rfl⟩ := hsuffix
    rw [cutSuffix_append] at hstem
    cases hstem
  · next stem hstem =>
    have hname := cutSuffix_paren hstem
    refine iff_of_false ?_ (not_not_intro ⟨stem, hname.symm⟩)
    split
    · exact Option.some_ne_none 0
    · split
      · exact Option.some_ne_none 0
      · exact Option.some_ne_none _

/-- The last `_(` of a discriminated name is the one before its number. -/
theorem lastIndex_numeral {numeral : GoString} (h : Spells numeral d) :
    lastIndex (lit "_(") (base ++ lit "_(" ++ numeral) = some base.length :=
  lastIndex_append (List.not_mem_cons_of_ne_of_not_mem (by decide) (not_mem_numeral h).2) base

theorem Discriminated.parse (h : Discriminated name base d) : parseDiscriminator name = some d := by
  obtain ⟨numeral, rfl, hspells, hfits⟩ := h
  have hdrop : (base ++ lit "_(" ++ numeral).drop (base.length + 2) = numeral :=
    List.drop_left' (by rw [List.length_append]; rfl)
  rw [parseDiscriminator, cutSuffix_append]
  dsimp only
  rw [lastIndex_numeral hspells]
  dsimp only
  rw [hdrop, parseInt_eq_some_iff.mpr ⟨hspells, hfits⟩]

theorem Discriminated.strip (h : Discriminated name base d) : stripDiscriminator name = base := by
  obtain ⟨numeral, rfl, hspells, -⟩ := h
  rw [stripDiscriminator, cutSuffix_append]
  dsimp only
  rw [lastIndex_numeral hspells]
  dsimp only
  rw [List.append_assoc, List.take_left]

/-- `StripDiscriminator` leaves the names alone that neither end in `)` nor have
a `_(` in them. -/
theorem stripDiscriminator_eq_self_iff :
    stripDiscriminator name = name ↔ ¬lit ")" <:+ name ∧ ¬lit "_(" <:+: name := by
  by_cases hsuffix : lit ")" <:+ name
  · -- the parenthesis is gone in any case
    refine iff_of_false (fun h => ?_) fun h => h.1 hsuffix
    obtain ⟨stem, rfl⟩ := hsuffix
    have hle : (stripDiscriminator (stem ++ lit ")")).length ≤ stem.length := by
      rw [stripDiscriminator, cutSuffix_append]
      dsimp only
      split
      · exact Nat.le_refl _
      · exact List.length_take_le' _ _
    rw [h, List.length_append] at hle
    have hone : (lit ")").length = 1 := rfl
    omega
  · have hcut : cutSuffix name (lit ")") = (name, false) :=
      if_neg fun h => hsuffix (List.isSuffixOf_iff_suffix.mp h)
    rw [stripDiscriminator, hcut, and_iff_right hsuffix, ← lastIndex_eq_none_iff]
    dsimp only
    split
    · next hnone => exact iff_of_true rfl hnone
    · next i hi =>
      refine iff_of_false (fun h => ?_) fun h => by cases hi.symm.trans h
      -- the separator is behind what is left
      have hlength := congrArg List.length (eq_of_lastIndex hi)
      rw [h, List.length_append, List.length_append] at hlength
      have htwo : (lit "_(").length = 2 := rfl
      omega

end Discriminated

/-- A discriminator that is read is what is stripped, and where none is read
nothing is stripped. -/
def DiscriminatorsAgree (name : GoString) : Prop :=
  (∀ d, parseDiscriminator name = some d →
    ∃ numeral, name = stripDiscriminator name ++ lit "_(" ++ numeral ++ lit ")" ∧
      Spells numeral d) ∧
    (parseDiscriminator name = none → stripDiscriminator name = name)

/-- The two functions agree on the names that end in a discriminator, and on those
that neither end in `)` nor have a `_(` in them. -/
theorem discriminatorsAgree_iff (name : GoString) : DiscriminatorsAgree name ↔
    (∃ base d, Discriminated name base d) ∨ ¬lit ")" <:+ name ∧ ¬lit "_(" <:+: name := by
  constructor
  · rintro ⟨hsome, hnone⟩
    cases hparse : parseDiscriminator name with
    | some d =>
      obtain ⟨numeral, hname, hspells⟩ := hsome d hparse
      have hfits : FitsBits 64 d := by
        -- the number that is given without being read is 0
        rcases discriminated_of_parse hparse with ⟨base, _, _, _, hfits⟩ | rfl
        · exact hfits
        · exact fitsBits_zero
      exact .inl ⟨_, d, numeral, hname, hspells, hfits⟩
    | none => exact .inr (stripDiscriminator_eq_self_iff.mp (hnone hparse))
  · rintro (⟨base, d, hname⟩ | hplain)
    · refine ⟨fun d' hd' => ?_, fun hnone => ?_⟩
      · cases hname.parse.symm.trans hd'
        rw [hname.strip]
        obtain ⟨numeral, heq, hspells, -⟩ := hname
        exact ⟨numeral, heq, hspells⟩
      · cases hname.parse.symm.trans hnone
    · refine ⟨fun d hd => ?_, fun _ => stripDiscriminator_eq_self_iff.mpr hplain⟩
      cases (parseDiscriminator_eq_none_iff.mpr hplain.1).symm.trans hd

/-- A word in parentheses is taken for the discriminator 0, which it does not spell;
without its parenthesis it is none, and is stripped all the same. -/
theorem parenthesised_word_is_stripped :
    (parseDiscriminator (lit "Charm_(Fragile)") = some 0 ∧
      stripDiscriminator (lit "Charm_(Fragile)") = lit "Charm" ∧
      ¬DiscriminatorsAgree (lit "Charm_(Fragile)")) ∧
    (parseDiscriminator (lit "Charm_(Fragile") = none ∧
      stripDiscriminator (lit "Charm_(Fragile") = lit "Charm" ∧
      ¬DiscriminatorsAgree (lit "Charm_(Fragile")) := by
  have hparse : parseDiscriminator (lit "Charm_(Fragile)") = some 0 := by decide
  have hstrip : stripDiscriminator (lit "Charm_(Fragile)") = lit "Charm" := by decide
  have hopen : parseDiscriminator (lit "Charm_(Fragile") = none := by decide
  refine ⟨⟨hparse, hstrip, fun h => ?_⟩, hopen, by decide, fun h => ?_⟩
  · obtain ⟨numeral, hname, hspells⟩ := h.1 0 hparse
    rw [hstrip] at hname
    have hname' : lit "Charm_(" ++ lit "Fragile" ++ lit ")" =
        lit "Charm_(" ++ numeral ++ lit ")" := hname
    rw [← List.append_cancel_left (List.append_cancel_right hname')] at hspells
    exact absurd (parseInt_eq_some_iff.mpr ⟨hspells, fitsBits_zero⟩) (by decide)
  · exact absurd (h.2 hopen) (by decide)

end Isthmus.Mwproto
