import Mathlib.Data.List.Basic

/-!
# Go slices

A slice is the start of a backing array, which other slices may share. `append`
writes behind the slice where the array has room and moves to a new array where
it has not; `slices.Delete` moves the rest of the slice down and clears the end.
-/

namespace Isthmus.Slices

/-- The backing arrays, each as long as its capacity. -/
abbrev Arrays (α : Type) := List (List α)

/-- A slice from the start of a backing array. -/
structure Slice where
  array : Nat
  len : Nat
  deriving DecidableEq

variable {α : Type} (zero : α) (spare : Nat → Nat → Nat)

/-- A slice of a new array. `spare` is the room left in it, by the capacity
before and the length it is made for. -/
def make (arrays : Arrays α) (capacity : Nat) (l : List α) : Slice × Arrays α :=
  (⟨arrays.length, l.length⟩, arrays ++ [l ++ List.replicate (spare capacity l.length) zero])

namespace Slice

/-- The elements of a slice. -/
def elems (s : Slice) (arrays : Arrays α) : List α := (arrays[s.array]?.getD []).take s.len

/-- `append(s, l...)`. -/
def append (s : Slice) (arrays : Arrays α) (l : List α) : Slice × Arrays α :=
  let array := arrays[s.array]?.getD []
  if s.len + l.length ≤ array.length then
    (⟨s.array, s.len + l.length⟩,
      arrays.set s.array (array.take s.len ++ l ++ array.drop (s.len + l.length)))
  else make zero spare arrays array.length (array.take s.len ++ l)

/-- `slices.Delete(s, i, i+1)`. -/
def deleteAt (s : Slice) (arrays : Arrays α) (i : Nat) : Slice × Arrays α :=
  let array := arrays[s.array]?.getD []
  (⟨s.array, s.len - 1⟩,
    arrays.set s.array ((array.take s.len).eraseIdx i ++ zero :: array.drop s.len))

/-- The slice has its elements in its backing array. -/
structure Holds (s : Slice) (arrays : Arrays α) (l : List α) : Prop where
  elems_eq : s.elems arrays = l
  length_eq : s.len = l.length
  valid : s.array < arrays.length

variable {zero spare} {s : Slice} {arrays : Arrays α} {l l' : List α}

theorem holds_make (capacity : Nat) :
    (make zero spare arrays capacity l).1.Holds (make zero spare arrays capacity l).2 l := by
  refine ⟨?_, rfl, ?_⟩
  · simp [make, elems]
  · simp [make]

theorem holds_append (h : s.Holds arrays l) :
    (s.append zero spare arrays l').1.Holds (s.append zero spare arrays l').2 (l ++ l') := by
  have htake : (arrays[s.array]?.getD []).take s.len = l := h.elems_eq
  simp only [append]
  split
  · refine ⟨?_, ?_, ?_⟩
    · have hlen : s.len + l'.length = (l ++ l').length := by
        rw [List.length_append, h.length_eq]
      simp only [elems, htake, List.getElem?_set_self h.valid, Option.getD_some, hlen]
      exact List.take_left
    · simp [h.length_eq]
    · simpa using h.valid
  · rw [htake]
    exact holds_make _

theorem holds_deleteAt {i : Nat} (h : s.Holds arrays l) (hi : i < l.length) :
    (s.deleteAt zero arrays i).1.Holds (s.deleteAt zero arrays i).2 (l.eraseIdx i) := by
  have htake : (arrays[s.array]?.getD []).take s.len = l := h.elems_eq
  have hlen : s.len - 1 = (l.eraseIdx i).length := by
    rw [List.length_eraseIdx_of_lt hi, h.length_eq]
  refine ⟨?_, hlen, ?_⟩
  · simp only [deleteAt, elems, htake, List.getElem?_set_self h.valid, Option.getD_some, hlen]
    exact List.take_left
  · simpa [deleteAt] using h.valid

/-! ## Pointers to elements -/

/-- The address of an element: it stays the one of its array when a slice moves. -/
structure Pointer where
  array : Nat
  index : Nat
  deriving DecidableEq

namespace Pointer

def read (p : Pointer) (arrays : Arrays α) : Option α := arrays[p.array]?.bind fun l => l[p.index]?

def write (p : Pointer) (arrays : Arrays α) (a : α) : Arrays α :=
  arrays.modify p.array fun l => l.set p.index a

variable {p q : Pointer} {arrays : Arrays α} {a : α}

@[simp] theorem length_write : (p.write arrays a).length = arrays.length := List.length_modify ..

theorem read_write_self {b : α} (h : p.read arrays = some b) :
    p.read (p.write arrays a) = some a := by
  obtain ⟨l, hl, hb⟩ := Option.bind_eq_some_iff.mp h
  obtain ⟨hlt, -⟩ := List.getElem?_eq_some_iff.mp hb
  rw [read, write, List.getElem?_modify_eq, hl]
  exact List.getElem?_set_self hlt

theorem read_write_ne (h : q ≠ p) : q.read (p.write arrays a) = q.read arrays := by
  rw [read, write, read, List.getElem?_modify]
  cases arrays[q.array]? with
  | none => rfl
  | some l =>
    by_cases harray : p.array = q.array
    · have hindex : p.index ≠ q.index := by
        rintro hindex
        obtain ⟨array, index⟩ := p
        obtain rfl : array = q.array := harray
        obtain rfl : index = q.index := hindex
        exact h rfl
      simp only [if_pos harray, Option.map_eq_map, Option.map_some, Option.bind_some]
      exact List.getElem?_set_ne hindex
    · simp only [if_neg harray, Option.map_eq_map, Option.map_some]

end Pointer

/-- The array is there, and is long enough. -/
structure Valid (s : Slice) (arrays : Arrays α) : Prop where
  array_lt : s.array < arrays.length
  len_le : s.len ≤ arrays[s.array].length

theorem Valid.write (h : s.Valid arrays) {p : Pointer} {a : α} : s.Valid (p.write arrays a) := by
  refine ⟨Pointer.length_write.symm ▸ h.array_lt, ?_⟩
  simp only [Pointer.write, List.getElem_modify]
  split
  · rw [List.length_set]
    exact h.len_le
  · exact h.len_le

/-- What an element appended at the end does to every address: those of the other
arrays and of the elements stay, and the elements are where the slice now is. -/
structure Appended (s : Slice) (arrays : Arrays α) (a : α) (r : Slice × Arrays α) : Prop where
  valid : r.1.Valid r.2
  len_eq : r.1.len = s.len + 1
  length_le : arrays.length ≤ r.2.length
  array_eq : r.1.array = s.array ∨ r.1.array = arrays.length
  read_old : ∀ p : Pointer, p.array < arrays.length → (p.array = s.array → p.index < s.len) →
    p.read r.2 = p.read arrays
  read_elem : ∀ i < s.len, Pointer.read ⟨r.1.array, i⟩ r.2 = Pointer.read ⟨s.array, i⟩ arrays
  read_last : Pointer.read ⟨r.1.array, s.len⟩ r.2 = some a

theorem getElem?_take_append {r : List α} {a : α} {n i : Nat} (hn : n ≤ l.length) (hi : i < n) :
    (l.take n ++ [a] ++ r)[i]? = l[i]? := by
  have hi' : i < (l.take n).length := by rwa [List.length_take_of_le hn]
  rw [List.append_assoc, List.getElem?_append_left hi', List.getElem?_take_of_lt hi]

theorem getElem?_take_append_self {r : List α} {a : α} {n : Nat} (hn : n ≤ l.length) :
    (l.take n ++ [a] ++ r)[n]? = some a := by
  have hn' : (l.take n).length = n := List.length_take_of_le hn
  rw [List.append_assoc, List.getElem?_append_right (Nat.le_of_eq hn'), hn', Nat.sub_self]
  rfl

theorem appended {a : α} (h : s.Valid arrays) :
    s.Appended arrays a (s.append zero spare arrays [a]) := by
  obtain ⟨harray, hlen⟩ := h
  have hcell : ∀ i, Pointer.read ⟨s.array, i⟩ arrays = arrays[s.array][i]? := by
    intro i
    rw [Pointer.read, List.getElem?_eq_getElem harray, Option.bind_some]
  have htake : (arrays[s.array].take s.len).length = s.len := List.length_take_of_le hlen
  simp only [append, List.getElem?_eq_getElem harray, Option.getD_some, List.length_singleton]
  split
  · next hroom =>
    have hread : ∀ i, Pointer.read ⟨s.array, i⟩ (arrays.set s.array
        (arrays[s.array].take s.len ++ [a] ++ arrays[s.array].drop (s.len + 1))) =
          (arrays[s.array].take s.len ++ [a] ++ arrays[s.array].drop (s.len + 1))[i]? := by
      intro i
      rw [Pointer.read, List.getElem?_set_self harray, Option.bind_some]
    have hold : ∀ i < s.len, Pointer.read ⟨s.array, i⟩ (arrays.set s.array
        (arrays[s.array].take s.len ++ [a] ++ arrays[s.array].drop (s.len + 1))) =
          Pointer.read ⟨s.array, i⟩ arrays := by
      intro i hi
      rw [hread, getElem?_take_append hlen hi, hcell]
    refine ⟨⟨?_, ?_⟩, rfl, ?_, Or.inl rfl, fun p hp hi => ?_, hold, ?_⟩
    · simpa using harray
    · simp only [List.getElem_set_self, List.length_append, htake, List.length_singleton]
      omega
    · simp
    · by_cases hs : p.array = s.array
      · obtain ⟨array, i⟩ := p
        obtain rfl : array = s.array := hs
        exact hold i (hi rfl)
      · rw [Pointer.read, List.getElem?_set_ne (Ne.symm hs), Pointer.read]
    · rw [hread, getElem?_take_append_self hlen]
  · have hread : ∀ (l : List α) i,
        Pointer.read ⟨arrays.length, i⟩ (arrays ++ [l]) = l[i]? := by
      intro l i
      rw [Pointer.read, List.getElem?_concat_length, Option.bind_some]
    refine ⟨⟨?_, ?_⟩, ?_, ?_, Or.inr rfl, fun p hp _ => ?_, fun i hi => ?_, ?_⟩
    · simp [make]
    · simp [make]
    · simp [make, htake]
    · simp [make]
    · rw [make, Pointer.read, List.getElem?_append_left hp, Pointer.read]
    · rw [make, hread, getElem?_take_append hlen hi, hcell]
    · rw [make, hread, getElem?_take_append_self hlen]

end Slice

end Isthmus.Slices
