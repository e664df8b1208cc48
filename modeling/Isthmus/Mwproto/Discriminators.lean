import Isthmus.Go.Strings

/-!
# Qualified and discriminated names

The MW server writes `MW(pid)_name` for a name of another world, and this proxy
appends `_(number)` to names that must be unique.
-/

namespace Isthmus.Mwproto

/-- `MW(pid)_item`, taken apart. -/
def parseQualifiedName (name : GoString) : Option (Int × GoString) :=
  let namePrefix := lit "MW("
  if namePrefix.isPrefixOf name then
    match Strings.cut (lit ")_") (name.drop namePrefix.length) with
    | none => none
    | some (qualifier, item) =>
      match Strings.parseInt qualifier 32 with
      | none => none
      | some n => some (n, item)
  else none

/-- The number of a name that ends in `_(number)`. From the `)` at the end on `ok`
is true: where no `_(` comes before it, or no number, the discriminator is 0. -/
def parseDiscriminator (name : GoString) : Option Int :=
  match Strings.cutSuffix name (lit ")") with
  | (_, false) => none
  | (name, true) =>
    match Strings.lastIndex (lit "_(") name with
    | none => some 0
    | some i =>
      match Strings.parseInt (name.drop (i + 2)) 64 with
      | none => some 0
      | some n => some n

/-- The name without its discriminator. -/
def stripDiscriminator (name : GoString) : GoString :=
  let name := (Strings.cutSuffix name (lit ")")).1
  match Strings.lastIndex (lit "_(") name with
  | none => name
  | some i => name.take i

/-- `fmt.Sprintf("%s_(%d)", name, n)`. -/
def discriminated (name : GoString) (n : Int) : GoString :=
  name ++ lit "_(" ++ Strings.formatInt n ++ lit ")"

/-- The last `_(` of a discriminated name is the one that was appended, whatever
the name looks like: no digit or sign is an underscore. -/
theorem lastIndex_discriminated (name : GoString) (n : Int) :
    Strings.lastIndex (lit "_(") (name ++ lit "_(" ++ Strings.formatInt n) =
      some name.length := by
  have hdigits : (95 : UInt8) ∉ Strings.formatNat n.natAbs := fun h =>
    absurd (Strings.digit_of_mem_formatNat h).2 (by decide)
  have hnumber : (95 : UInt8) ∉ Strings.formatInt n := by
    rw [Strings.formatInt]
    split
    · exact List.not_mem_cons_of_ne_of_not_mem (by decide) hdigits
    · exact hdigits
  have hrest : (95 : UInt8) ∉ [40] ++ Strings.formatInt n :=
    List.not_mem_cons_of_ne_of_not_mem (by decide) hnumber
  exact Strings.lastIndex_append hrest name

/-- The discriminator of a name is read back. -/
theorem parseDiscriminator_discriminated (name : GoString) (i : Int64) :
    parseDiscriminator (discriminated name i.toInt) = some i.toInt := by
  rw [parseDiscriminator, discriminated, Strings.cutSuffix_append]
  dsimp only
  rw [lastIndex_discriminated]
  dsimp only
  have hdrop : (name ++ lit "_(" ++ Strings.formatInt i.toInt).drop (name.length + 2) =
      Strings.formatInt i.toInt :=
    List.drop_left' (by rw [List.length_append]; rfl)
  rw [hdrop, Strings.parseInt_formatInt]

theorem stripDiscriminator_discriminated (name : GoString) (n : Int) :
    stripDiscriminator (discriminated name n) = name := by
  rw [stripDiscriminator, discriminated, Strings.cutSuffix_append]
  dsimp only
  rw [lastIndex_discriminated]
  dsimp only
  rw [List.append_assoc, List.take_left]

/-- The player of a qualified name is a 32-bit integer. -/
theorem parseQualifiedName_fits {name item : GoString} {pid : Int}
    (h : parseQualifiedName name = some (pid, item)) : FitsInt32 pid := by
  unfold parseQualifiedName at h
  simp only at h
  split at h
  · split at h
    · cases h
    · split at h
      · cases h
      · next n hn =>
        simp only [Option.some.injEq, Prod.mk.injEq] at h
        exact h.1 ▸ Strings.parseInt_fits hn
  · cases h

example : parseQualifiedName (lit "MW(-12)_a)_b") = some (-12, lit "a)_b") := by decide
example : parseDiscriminator (lit "Grub_(x)_(42)") = some 42 := by decide
example : parseDiscriminator (lit "Grub)") = some 0 := by decide
example : stripDiscriminator (lit "Grub_(x)_(42)") = lit "Grub_(x)" := by decide

end Isthmus.Mwproto
