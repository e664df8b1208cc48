import Isthmus.Go.Slices
import Isthmus.Lib.Runs
import Mathlib.Data.List.Nodup

/-!
# Prepared statements

A `DB` keeps its statements in a slice, and `Prepare` returns the address of the last
element. When the slice moves to a larger array the statements are copied, so that an
earlier pointer leads to the old copy.

## Main definitions

- `DB`: a connection with its statements, and the handles that were finalized
- `DB.Holding`: what an address and the slice hold of one statement
- `DB.InPlace`: a statement is closed where the slice has it

## Main results

- `finalizedOnce_iff`: when each handle is finalized exactly once
-/

namespace Isthmus.Sqlite

open Slices Slice

/-- A statement; its handle is NULL before it is compiled and after it is closed. -/
structure Statement where
  stmt : Option Nat
  deriving DecidableEq

/-- A connection. A handle is called after the number of the `Prepare` it is from. -/
structure DB where
  arrays : Arrays Statement
  statements : Slice
  returned : List Pointer
  handles : List Nat
  finalized : List Nat

namespace DB

/-- `Open`: no statement, in an array of no capacity. -/
def opened : DB := ⟨[[]], ⟨0, 0⟩, [], [], []⟩

/-- `Prepare`. SQLite has no handle for SQL that is empty, and none where it fails. -/
def prepare (spare : Nat → Nat → Nat) (db : DB) (compiled : Bool) : DB :=
  let n := db.statements.len
  let (statements, arrays) := db.statements.append ⟨none⟩ spare db.arrays [⟨none⟩]
  let s : Pointer := ⟨statements.array, n⟩
  let handle := if compiled then some n else none
  { arrays := s.write arrays ⟨handle⟩
    statements := statements
    returned := db.returned ++ [s]
    handles := db.handles ++ handle.toList
    finalized := db.finalized }

/-- `Statement.Close`. -/
def closeStatement (db : DB) (s : Pointer) : DB :=
  match s.read db.arrays with
  | some ⟨some handle⟩ =>
    { db with arrays := s.write db.arrays ⟨none⟩, finalized := db.finalized ++ [handle] }
  | _ => db

/-- `DB.Close`: every statement of the slice. -/
def close (db : DB) : DB :=
  (List.range db.statements.len).foldl
    (fun db' i => db'.closeStatement ⟨db.statements.array, i⟩) db

end DB

/-- A call of the program: it closes statements through the pointers it was given. -/
inductive Call where
  | prepare (compiled : Bool)
  | close (i : Nat)

def DB.call (spare : Nat → Nat → Nat) (db : DB) : Call → DB
  | .prepare compiled => db.prepare spare compiled
  | .close i =>
    match db.returned[i]? with
    | none => db
    | some s => db.closeStatement s

/-- Each handle was finalized exactly once. -/
def DB.FinalizedOnce (db : DB) : Prop := ∀ handle ∈ db.handles, db.finalized.count handle = 1

namespace DB

variable {spare : Nat → Nat → Nat} {db : DB} {i : Nat} {s : Pointer}

/-- What the slice has at an index. -/
def element (db : DB) (i : Nat) : Option Statement :=
  Pointer.read ⟨db.statements.array, i⟩ db.arrays

/-- What is left of the statement at the index, where it is and where the slice has it. A
statement that was closed in an old array still has its handle in the slice. -/
inductive Holding (db : DB) (i : Nat) (s : Pointer) : Prop where
  | empty (hhandle : i ∉ db.handles) (hread : s.read db.arrays = some ⟨none⟩)
      (helem : db.element i = some ⟨none⟩)
  | opened (hhandle : i ∈ db.handles) (hread : s.read db.arrays = some ⟨some i⟩)
      (helem : db.element i = some ⟨some i⟩) (hcount : db.finalized.count i = 0)
  | closed (hhandle : i ∈ db.handles) (hread : s.read db.arrays = some ⟨none⟩)
      (helem : db.element i = some ⟨none⟩) (hcount : db.finalized.count i = 1)
  | stale (hhandle : i ∈ db.handles) (hread : s.read db.arrays = some ⟨none⟩)
      (helem : db.element i = some ⟨some i⟩) (hcount : db.finalized.count i = 1)
      (hmoved : s.array ≠ db.statements.array)

/-- The pointer that was returned for the index. -/
structure Returned (db : DB) (i : Nat) (s : Pointer) : Prop where
  index_eq : s.index = i
  array_lt : s.array < db.arrays.length
  holding : db.Holding i s

/-- The invariant of a connection. -/
structure Consistent (db : DB) : Prop where
  valid : db.statements.Valid db.arrays
  length_eq : db.returned.length = db.statements.len
  returned : ∀ i s, db.returned[i]? = some s → db.Returned i s
  handles_lt : ∀ i ∈ db.handles, i < db.statements.len
  finalized_lt : ∀ i ∈ db.finalized, i < db.statements.len

/-- No statement that was closed has its handle in the slice. -/
def NoneStale (db : DB) : Prop :=
  ∀ i s, db.returned[i]? = some s → s.read db.arrays = some ⟨none⟩ → db.element i = some ⟨none⟩

/-- A statement that has its handle is closed in the array the slice has now. -/
def InPlace (db : DB) : Call → Prop
  | .prepare _ => True
  | .close i => ∀ s handle, db.returned[i]? = some s → s.read db.arrays = some ⟨some handle⟩ →
      s.array = db.statements.array

theorem consistent_opened : opened.Consistent where
  valid := ⟨Nat.one_pos, Nat.le_refl _⟩
  length_eq := rfl
  returned i s h := by cases h
  handles_lt i h := by cases h
  finalized_lt i h := by cases h

/-- The state of a statement is what the two places have, and how often it was finalized. -/
theorem Holding.congr {db' : DB} (h : db.Holding i s) (hhandle : i ∈ db'.handles ↔ i ∈ db.handles)
    (hread : s.read db'.arrays = s.read db.arrays) (helem : db'.element i = db.element i)
    (hcount : db'.finalized.count i = db.finalized.count i)
    (hmoved : s.array = db'.statements.array → s.array = db.statements.array) :
    db'.Holding i s := by
  cases h with
  | empty h₁ h₂ h₃ => exact .empty (hhandle.not.mpr h₁) (hread.trans h₂) (helem.trans h₃)
  | opened h₁ h₂ h₃ h₄ =>
    exact .opened (hhandle.mpr h₁) (hread.trans h₂) (helem.trans h₃) (hcount.trans h₄)
  | closed h₁ h₂ h₃ h₄ =>
    exact .closed (hhandle.mpr h₁) (hread.trans h₂) (helem.trans h₃) (hcount.trans h₄)
  | stale h₁ h₂ h₃ h₄ h₅ =>
    exact .stale (hhandle.mpr h₁) (hread.trans h₂) (helem.trans h₃) (hcount.trans h₄)
      (mt hmoved h₅)

/-! ### Preparing -/

section Prepare

variable {compiled : Bool}

/-- The handle of a new statement. -/
def newHandle (db : DB) (compiled : Bool) : Option Nat :=
  if compiled then some db.statements.len else none

theorem appended_prepare (h : db.Consistent) :
    db.statements.Appended db.arrays ⟨none⟩
      (db.statements.append ⟨none⟩ spare db.arrays [⟨none⟩]) := appended h.valid

theorem arrays_prepare : (db.prepare spare compiled).arrays =
    Pointer.write ⟨(db.prepare spare compiled).statements.array, db.statements.len⟩
      (db.statements.append ⟨none⟩ spare db.arrays [⟨none⟩]).2 ⟨db.newHandle compiled⟩ := rfl

theorem handles_prepare :
    (db.prepare spare compiled).handles = db.handles ++ (db.newHandle compiled).toList := rfl

theorem mem_handles_prepare (hi : i < db.statements.len) :
    i ∈ (db.prepare spare compiled).handles ↔ i ∈ db.handles := by
  rw [handles_prepare, List.mem_append, newHandle]
  refine or_iff_left fun hmem => ?_
  split at hmem
  · exact Nat.ne_of_lt hi (List.mem_singleton.mp hmem)
  · cases hmem

theorem read_prepare (h : db.Consistent) (hs : db.Returned i s) (hi : i < db.statements.len) :
    s.read (db.prepare spare compiled).arrays = s.read db.arrays := by
  have hne : s ≠ ⟨(db.prepare spare compiled).statements.array, db.statements.len⟩ := by
    rintro rfl
    exact Nat.ne_of_lt hi hs.index_eq.symm
  rw [arrays_prepare, Pointer.read_write_ne hne]
  exact (appended_prepare h).read_old s hs.array_lt fun _ => hs.index_eq ▸ hi

theorem element_prepare (h : db.Consistent) (hi : i < db.statements.len) :
    (db.prepare spare compiled).element i = db.element i := by
  rw [element, arrays_prepare, Pointer.read_write_ne (by simp [Nat.ne_of_lt hi])]
  exact (appended_prepare h).read_elem i hi

/-- The statements that were prepared before keep their state. -/
theorem Returned.prepare (h : db.Consistent) (hs : db.Returned i s) (hi : i < db.statements.len) :
    (db.prepare spare compiled).Returned i s := by
  have happ := @appended_prepare spare _ h
  have hlen : db.arrays.length ≤ (db.prepare spare compiled).arrays.length := by
    rw [arrays_prepare, Pointer.length_write]
    exact happ.length_le
  refine ⟨hs.index_eq, Nat.lt_of_lt_of_le hs.array_lt hlen, ?_⟩
  refine hs.holding.congr (mem_handles_prepare hi) (read_prepare h hs hi) (element_prepare h hi)
    rfl fun harray => ?_
  rcases happ.array_eq with hsame | hnew
  · exact harray.trans hsame
  · exact absurd (harray.trans hnew) (Nat.ne_of_lt hs.array_lt)

/-- A statement that was just prepared is where the slice has it. -/
theorem returned_new (h : db.Consistent) : (db.prepare spare compiled).Returned db.statements.len
    ⟨(db.prepare spare compiled).statements.array, db.statements.len⟩ := by
  have happ := @appended_prepare spare _ h
  have hread : (db.prepare spare compiled).element db.statements.len =
      some ⟨db.newHandle compiled⟩ := by
    rw [element, arrays_prepare]
    exact Pointer.read_write_self happ.read_last
  have hold : db.statements.len ∉ db.handles := fun hmem => Nat.lt_irrefl _ (h.handles_lt _ hmem)
  refine ⟨rfl, ?_, ?_⟩
  · rw [arrays_prepare, Pointer.length_write]
    exact happ.valid.array_lt
  · cases compiled with
    | false =>
      refine .empty ?_ hread hread
      rw [handles_prepare]
      simpa [newHandle] using hold
    | true =>
      refine .opened ?_ hread hread ?_
      · rw [handles_prepare]
        simp [newHandle]
      · exact List.count_eq_zero.mpr fun hmem => Nat.lt_irrefl _ (h.finalized_lt _ hmem)

/-- What was returned after a `Prepare`: the pointers of before, and one more. -/
theorem returned_prepare (h : db.Consistent) :
    (db.prepare spare compiled).returned[i]? = some s ↔
      i < db.statements.len ∧ db.returned[i]? = some s ∨ i = db.statements.len ∧
        s = ⟨(db.prepare spare compiled).statements.array, db.statements.len⟩ := by
  have hreturned : (db.prepare spare compiled).returned = db.returned ++
      [⟨(db.prepare spare compiled).statements.array, db.statements.len⟩] := rfl
  rw [hreturned, ← h.length_eq]
  rcases Nat.lt_trichotomy i db.returned.length with hi | hi | hi
  · rw [List.getElem?_append_left hi]
    simp [hi, Nat.ne_of_lt hi]
  · subst hi
    rw [List.getElem?_concat_length, Option.some_inj]
    simp [eq_comm]
  · rw [List.getElem?_eq_none (by simp; omega)]
    simp [Nat.ne_of_gt hi, Nat.lt_asymm hi]

theorem consistent_prepare (h : db.Consistent) : (db.prepare spare compiled).Consistent := by
  have happ := @appended_prepare spare _ h
  have hlen : (db.prepare spare compiled).statements.len = db.statements.len + 1 := happ.len_eq
  refine ⟨happ.valid.write, ?_, fun i s hs => ?_, fun i hi => ?_, fun i hi => ?_⟩
  · show (db.returned ++ [_]).length = _
    rw [List.length_append, h.length_eq, hlen]
    rfl
  · rcases (returned_prepare h).mp hs with ⟨hi, hold⟩ | ⟨rfl, rfl⟩
    · exact (h.returned i s hold).prepare h hi
    · exact returned_new h
  · rw [hlen]
    by_contra hge
    rw [handles_prepare, List.mem_append, newHandle] at hi
    rcases hi with hi | hi
    · have := h.handles_lt i hi
      omega
    · split at hi
      · have := List.mem_singleton.mp hi
        omega
      · cases hi
  · rw [hlen]
    exact Nat.lt_succ_of_lt (h.finalized_lt i hi)

theorem noneStale_prepare (h : db.Consistent) :
    (db.prepare spare compiled).NoneStale ↔ db.NoneStale := by
  constructor
  · intro hnone i s hs hread
    have hi : i < db.statements.len := h.length_eq ▸ (List.getElem?_eq_some_iff.mp hs).1
    rw [← @element_prepare spare _ _ compiled h hi]
    refine hnone i s ((returned_prepare h).mpr (Or.inl ⟨hi, hs⟩)) ?_
    rw [read_prepare h (h.returned i s hs) hi, hread]
  · intro hnone i s hs hread
    rcases (returned_prepare h).mp hs with ⟨hi, hold⟩ | ⟨rfl, rfl⟩
    · rw [element_prepare h hi]
      refine hnone i s hold ?_
      rw [← hread, read_prepare h (h.returned i s hold) hi]
    · exact hread

end Prepare

/-! ### Closing -/

theorem closeStatement_of_closed (hread : s.read db.arrays = some ⟨none⟩) :
    db.closeStatement s = db := by
  rw [closeStatement, hread]

theorem closeStatement_of_opened {handle : Nat} (hread : s.read db.arrays = some ⟨some handle⟩) :
    db.closeStatement s =
      { db with arrays := s.write db.arrays ⟨none⟩, finalized := db.finalized ++ [handle] } := by
  rw [closeStatement, hread]

/-- A statement that is closed through its pointer has its handle in both places. -/
theorem Holding.read_cases (h : db.Holding i s) : s.read db.arrays = some ⟨none⟩ ∨
    s.read db.arrays = some ⟨some i⟩ ∧ db.element i = some ⟨some i⟩ ∧ i ∈ db.handles ∧
      db.finalized.count i = 0 := by
  cases h with
  | empty _ hread => exact Or.inl hread
  | opened hhandle hread helem hcount => exact Or.inr ⟨hread, helem, hhandle, hcount⟩
  | closed _ hread => exact Or.inl hread
  | stale _ hread => exact Or.inl hread

section Close

variable {j : Nat} {t : Pointer}

theorem element_write (hs : s.index = i) (hne : j ≠ i) {a : Statement} :
    Pointer.read ⟨db.statements.array, j⟩ (s.write db.arrays a) = db.element j := by
  refine Pointer.read_write_ne ?_
  rintro rfl
  exact hne hs

/-- The other statements keep their state. -/
theorem Returned.close_ne (hs : db.Returned i s) (ht : db.Returned j t) (hne : j ≠ i) :
    (db.closeStatement s).Returned j t ∧
      t.read (db.closeStatement s).arrays = t.read db.arrays ∧
        (db.closeStatement s).element j = db.element j := by
  have hst : t ≠ s := by
    rintro rfl
    exact hne (ht.index_eq.symm.trans hs.index_eq)
  rcases hs.holding.read_cases with hread | ⟨hread, -⟩
  · rw [closeStatement_of_closed hread]
    exact ⟨ht, rfl, rfl⟩
  · rw [closeStatement_of_opened hread]
    have hread' := @Pointer.read_write_ne Statement _ _ db.arrays ⟨none⟩ hst
    have helem := @element_write db _ _ _ hs.index_eq hne ⟨none⟩
    refine ⟨⟨ht.index_eq, ?_, ht.holding.congr Iff.rfl hread' helem ?_ id⟩, hread', helem⟩
    · rw [Pointer.length_write]
      exact ht.array_lt
    · rw [List.count_append, List.count_singleton]
      simp [hne.symm]

/-- After a `Close` the statement is closed, or stale where the slice has moved. -/
theorem Returned.close_self (hs : db.Returned i s) : (db.closeStatement s).Returned i s := by
  rcases hs.holding.read_cases with hread | ⟨hread, helem, hhandle, hcount⟩
  · rw [closeStatement_of_closed hread]
    exact hs
  · rw [closeStatement_of_opened hread]
    have hread' := Pointer.read_write_self (a := (⟨none⟩ : Statement)) hread
    have hcount' : (db.finalized ++ [i]).count i = 1 := by
      rw [List.count_append, hcount, List.count_singleton_self]
    refine ⟨hs.index_eq, ?_, ?_⟩
    · rw [Pointer.length_write]
      exact hs.array_lt
    · by_cases harray : s.array = db.statements.array
      · refine .closed hhandle hread' ?_ hcount'
        have hself : s = ⟨db.statements.array, i⟩ := by rw [← harray, ← hs.index_eq]
        exact hself ▸ hread'
      · refine .stale hhandle hread' ?_ hcount' harray
        rw [← helem]
        exact Pointer.read_write_ne fun heq => harray (congrArg Pointer.array heq).symm

theorem consistent_close (h : db.Consistent) (hs : db.returned[i]? = some s) :
    (db.closeStatement s).Consistent := by
  have hret := h.returned i s hs
  have hi : i < db.statements.len := h.length_eq ▸ (List.getElem?_eq_some_iff.mp hs).1
  have hall : ∀ j t, db.returned[j]? = some t → (db.closeStatement s).Returned j t := by
    intro j t ht
    by_cases hne : j = i
    · subst hne
      cases hs.symm.trans ht
      exact hret.close_self
    · exact (hret.close_ne (h.returned j t ht) hne).1
  rcases hret.holding.read_cases with hread | ⟨hread, -⟩
  · rw [closeStatement_of_closed hread]
    exact h
  · rw [closeStatement_of_opened hread] at hall ⊢
    refine ⟨h.valid.write, h.length_eq, hall, h.handles_lt, fun j hj => ?_⟩
    rcases List.mem_append.mp hj with hj | hj
    · exact h.finalized_lt j hj
    · exact List.mem_singleton.mp hj ▸ hi

/-- A `Close` leaves no statement stale exactly if none was, and it was in place. -/
theorem noneStale_close (h : db.Consistent) (hs : db.returned[i]? = some s) :
    (db.closeStatement s).NoneStale ↔ db.NoneStale ∧
      ∀ handle, s.read db.arrays = some ⟨some handle⟩ → s.array = db.statements.array := by
  have hret := h.returned i s hs
  rcases hret.holding.read_cases with hread | ⟨hread, helem, -⟩
  · rw [closeStatement_of_closed hread]
    refine (and_iff_left fun handle hhandle => ?_).symm
    cases hread.symm.trans hhandle
  · have hread' : s.read (db.closeStatement s).arrays = some ⟨none⟩ := by
      rw [closeStatement_of_opened hread]
      exact Pointer.read_write_self hread
    have hreturned : (db.closeStatement s).returned = db.returned := by
      rw [closeStatement_of_opened hread]
    constructor
    · intro hnone
      refine ⟨fun j t ht hclosed => ?_, fun _ _ => ?_⟩
      · have hne : j ≠ i := by
          rintro rfl
          cases hs.symm.trans ht
          cases hread.symm.trans hclosed
        obtain ⟨-, hsame, helem'⟩ := hret.close_ne (h.returned j t ht) hne
        rw [← helem']
        exact hnone j t (hreturned ▸ ht) (hsame.trans hclosed)
      · by_contra harray
        have hkept : (db.closeStatement s).element i = db.element i := by
          rw [closeStatement_of_opened hread]
          exact Pointer.read_write_ne fun heq => harray (congrArg Pointer.array heq).symm
        cases (hnone i s (hreturned ▸ hs) hread').symm.trans (hkept.trans helem)
    · rintro ⟨hnone, hplace⟩ j t ht hclosed
      rw [hreturned] at ht
      by_cases hne : j = i
      · subst hne
        have hself : s = ⟨db.statements.array, j⟩ := by rw [← hplace j hread, ← hret.index_eq]
        rw [closeStatement_of_opened hread] at hread' ⊢
        exact hself ▸ hread'
      · obtain ⟨-, hsame, helem'⟩ := hret.close_ne (h.returned j t ht) hne
        rw [helem']
        exact hnone j t ht (hsame.symm.trans hclosed)

end Close

/-! ### Runs -/

theorem consistent_call (h : db.Consistent) (call : Call) : (db.call spare call).Consistent := by
  cases call with
  | prepare compiled => exact consistent_prepare h
  | close i =>
    rw [DB.call]
    split
    · exact h
    · next s hs => exact consistent_close h hs

theorem noneStale_call (h : db.Consistent) (call : Call) :
    (db.call spare call).NoneStale ↔ db.NoneStale ∧ db.InPlace call := by
  cases call with
  | prepare compiled => exact (noneStale_prepare h).trans (and_iff_left trivial).symm
  | close i =>
    cases hs : db.returned[i]? with
    | none => simp [DB.call, InPlace, hs]
    | some s =>
      rw [DB.call, hs]
      refine (noneStale_close h hs).trans (and_congr_right fun _ => ?_)
      constructor
      · intro hplace t handle ht
        cases hs.symm.trans ht
        exact hplace handle
      · exact fun hplace handle => hplace s handle hs

theorem finalized_closeStatement : (db.closeStatement s).finalized =
    db.finalized ++ ((s.read db.arrays).bind Statement.stmt).toList := by
  rw [closeStatement]
  split
  · next hread => rw [hread]; rfl
  · next hnone =>
    cases hread : s.read db.arrays with
    | none => exact (List.append_nil _).symm
    | some a =>
      obtain ⟨_ | handle⟩ := a
      · exact (List.append_nil _).symm
      · exact absurd hread (hnone handle)

theorem read_closeStatement_ne {t : Pointer} (hne : t ≠ s) :
    t.read (db.closeStatement s).arrays = t.read db.arrays := by
  rw [closeStatement]
  split
  · exact Pointer.read_write_ne hne
  · rfl

/-- The loop of `DB.Close` finalizes what it finds in the slice. -/
theorem foldl_closeStatement (array : Nat) {l : List Nat} (hl : l.Nodup) :
    (l.foldl (fun db' i => db'.closeStatement ⟨array, i⟩) db).finalized = db.finalized ++
      l.filterMap fun i => (Pointer.read ⟨array, i⟩ db.arrays).bind Statement.stmt := by
  induction l generalizing db with
  | nil => exact (List.append_nil _).symm
  | cons i l ih =>
    obtain ⟨hi, hl⟩ := List.nodup_cons.mp hl
    have hrest : ∀ j ∈ l, Pointer.read ⟨array, j⟩ (db.closeStatement ⟨array, i⟩).arrays =
        Pointer.read ⟨array, j⟩ db.arrays := by
      intro j hj
      refine read_closeStatement_ne fun heq => hi ?_
      obtain rfl : j = i := congrArg Pointer.index heq
      exact hj
    rw [List.foldl_cons, ih hl, finalized_closeStatement, List.append_assoc,
      List.filterMap_congr fun j hj => by rw [hrest j hj], List.filterMap_cons]
    cases (Pointer.read ⟨array, i⟩ db.arrays).bind Statement.stmt <;> rfl

/-- The handles that are in the slice. -/
def remaining (db : DB) : List Nat :=
  (List.range db.statements.len).filterMap fun i => (db.element i).bind Statement.stmt

theorem finalized_close : db.close.finalized = db.finalized ++ db.remaining :=
  foldl_closeStatement _ List.nodup_range

theorem handles_close : db.close.handles = db.handles := by
  have hfold : ∀ (l : List Nat) (array : Nat) (db : DB),
      (l.foldl (fun db' i => db'.closeStatement ⟨array, i⟩) db).handles = db.handles := by
    intro l array
    induction l with
    | nil => exact fun _ => rfl
    | cons i l ih =>
      intro db
      rw [List.foldl_cons, ih, closeStatement]
      split <;> rfl
  exact hfold _ _ _

/-- The slice has the handle of a statement only at its index. -/
theorem Consistent.exists_returned (h : db.Consistent) (hi : i < db.statements.len) :
    ∃ s, db.returned[i]? = some s ∧ db.Returned i s := by
  have hs := List.getElem?_eq_getElem (h.length_eq.symm ▸ hi)
  exact ⟨_, hs, h.returned i _ hs⟩

theorem Holding.handle_eq (h : db.Holding i s) {handle : Nat}
    (hi : (db.element i).bind Statement.stmt = some handle) : handle = i := by
  cases h with
  | empty _ _ helem => rw [helem] at hi; cases hi
  | opened _ _ helem => rw [helem] at hi; cases hi; rfl
  | closed _ _ helem => rw [helem] at hi; cases hi
  | stale _ _ helem => rw [helem] at hi; cases hi; rfl

/-- The loop comes once to each handle that is in the slice. -/
theorem count_remaining (h : db.Consistent) (hi : i < db.statements.len) :
    db.remaining.count i = if db.element i = some ⟨some i⟩ then 1 else 0 := by
  have hindex : ∀ j ∈ List.range db.statements.len,
      (db.element j).bind Statement.stmt = some i → j = i := by
    intro j hj hstmt
    obtain ⟨s, -, hret⟩ := h.exists_returned (List.mem_range.mp hj)
    exact (hret.holding.handle_eq hstmt).symm
  rw [remaining, List.count_filterMap]
  split
  · next helem =>
    have hcount : (List.range db.statements.len).count i = 1 := by
      rw [List.nodup_range.count, if_pos (List.mem_range.mpr hi)]
    rw [← hcount, List.count]
    refine List.countP_congr fun j hj => ?_
    rw [beq_iff_eq, beq_iff_eq]
    refine ⟨hindex j hj, ?_⟩
    rintro rfl
    rw [helem]
    rfl
  · next helem =>
    refine List.countP_eq_zero.mpr fun j hj hstmt => helem ?_
    rw [beq_iff_eq] at hstmt
    obtain rfl := hindex j hj hstmt
    obtain ⟨⟨stmt⟩, hj, rfl⟩ := Option.bind_eq_some_iff.mp hstmt
    exact hj

theorem finalizedOnce_close (h : db.Consistent) : db.close.FinalizedOnce ↔ db.NoneStale := by
  rw [FinalizedOnce, handles_close, finalized_close]
  constructor
  · intro honce i s hs hread
    have hi : i < db.statements.len := h.length_eq ▸ (List.getElem?_eq_some_iff.mp hs).1
    cases (h.returned i s hs).holding with
    | empty _ _ helem => exact helem
    | opened _ hopen => cases hread.symm.trans hopen
    | closed _ _ helem => exact helem
    | stale hhandle _ helem hcount =>
      have htwice := honce i hhandle
      rw [List.count_append, hcount, count_remaining h hi, if_pos helem] at htwice
      cases htwice
  · intro hnone i hhandle
    have hi := h.handles_lt i hhandle
    obtain ⟨s, hs, hret⟩ := h.exists_returned hi
    rw [List.count_append, count_remaining h hi]
    cases hret.holding with
    | empty habsent => exact absurd hhandle habsent
    | opened _ _ helem hcount => rw [hcount, if_pos helem]
    | closed _ _ helem hcount => rw [hcount, helem, if_neg (by simp)]
    | stale _ hread helem => cases helem.symm.trans (hnone i s hs hread)

end DB

/-- Each handle is finalized exactly once, by the calls of the program and the `DB.Close`
at the end, exactly if no statement that has its handle is closed after the slice moved
away from the array that its pointer leads to. -/
theorem finalizedOnce_iff (spare : Nat → Nat → Nat) (calls : List Call) :
    (Runs.run (DB.call spare) DB.opened calls).close.FinalizedOnce ↔
      Runs.Meets (DB.call spare) DB.InPlace DB.opened calls := by
  have hrun : (Runs.run (DB.call spare) DB.opened calls).Consistent :=
    Runs.run_keep (fun _ call h => DB.consistent_call h call) DB.consistent_opened
  rw [DB.finalizedOnce_close hrun, Runs.run_iff_meets (fun _ call h => DB.consistent_call h call)
    (fun _ call h => DB.noneStale_call h call) DB.consistent_opened]
  refine and_iff_right fun i s hs => ?_
  cases hs

/-- The second `Prepare` moves the slice, so that the `Close` of the first statement leaves
its handle there, and `DB.Close` finalizes it again. -/
theorem closed_through_old_array : ¬∀ (spare : Nat → Nat → Nat) (calls : List Call),
    (Runs.run (DB.call spare) DB.opened calls).close.FinalizedOnce := by
  intro hall
  have htwice := hall (fun _ _ => 0) [.prepare true, .prepare true, .close 0] 0 (by decide)
  revert htwice
  decide

end Isthmus.Sqlite
