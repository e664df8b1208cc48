import Mathlib.Algebra.Group.Nat.Defs
import Mathlib.Data.List.AList

/-!
# Go values

Strings are byte strings, maps are association lists with distinct keys, and
the 64-bit integers that are only stored and compared are plain integers.
-/

namespace Isthmus

/-- A Go string: any bytes, valid UTF-8 or not. -/
abbrev GoString := List UInt8

/-- The string of an ASCII literal. -/
def lit (s : String) : GoString := s.toList.map fun c => UInt8.ofNat c.toNat

/-- A Go map. The order of the entries is one iteration order. -/
abbrev GoMap (K V : Type) := AList fun _ : K => V

/-- Indexing a map gives the zero value of the element type for a missing key. -/
def GoMap.index {K V : Type} [DecidableEq K] (m : GoMap K V) (k : K) (zero : V) : V :=
  (m.lookup k).getD zero

/-- What `encoding/json` decodes into an `any`. A number is the bit pattern of a float64. -/
inductive Json where
  | null
  | bool (b : Bool)
  | number (bits : UInt64)
  | string (s : GoString)
  | array (l : List Json)
  | object (l : List (GoString × Json))

/-- The conversion to a signed 32-bit integer. -/
def toInt32 (x : Int) : Int := x.bmod 4294967296

/-- The value is a signed 32-bit integer. -/
def FitsInt32 (x : Int) : Prop := -2147483648 ≤ x ∧ x < 2147483648

instance (x : Int) : Decidable (FitsInt32 x) := inferInstanceAs (Decidable (_ ∧ _))

theorem toInt32_of_fits {x : Int} (h : FitsInt32 x) : toInt32 x = x := by
  have h1 := h.1
  have h2 := h.2
  unfold toInt32
  rw [Int.bmod_eq_of_le] <;> omega

theorem fits_toInt32 (x : Int) : FitsInt32 (toInt32 x) := by
  have h1 := Int.le_bmod (x := x) (m := 4294967296) (by decide)
  have h2 := Int.bmod_lt (x := x) (m := 4294967296) (by decide)
  unfold FitsInt32 toInt32
  omega

end Isthmus
