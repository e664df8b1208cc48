import Isthmus.Inapplicable
import Mathlib.Algebra.Group.Int.Defs
import Mathlib.Data.List.Infix

/-!
# Run-time panics of a `Set`

The language checks the indices of slices, the types of compared values, the maps
that are written and the counts of shifts. The interpreter with these checks is
the interpreter without them, but for the shifts: nothing keeps a client from
sending a negative count.

## Main definitions

- `Floats.arith`: the functions of two numbers, over conversions to `int64` and back
- `Loop.faults`: the checks of the language in one operation
- `updateDataStorageChecked`: `updateDataStorage` with these checks
- `NegativeShift`: a shift of one number by another that is negative as an `int64`
-/

namespace Isthmus

open Process Approto Slices

/-! ## Functions of two numbers -/

/-- The operations on floats, by their bit patterns. -/
structure Floats where
  add : UInt64 → UInt64 → UInt64
  mul : UInt64 → UInt64 → UInt64
  pow : UInt64 → UInt64 → UInt64
  mod : UInt64 → UInt64 → UInt64
  max : UInt64 → UInt64 → UInt64
  min : UInt64 → UInt64 → UInt64
  floor : UInt64 → UInt64
  ceil : UInt64 → UInt64
  toInt64 : UInt64 → Int64
  ofInt64 : Int64 → UInt64

/-- `a << n`; a negative count panics. -/
def shiftLeft (a n : Int64) : Option Int64 :=
  if n.toInt < 0 then none
  else if n.toInt < 64 then some (Int64.ofInt (a.toInt * 2 ^ n.toInt.toNat)) else some 0

/-- `a >> n`; a negative count panics. -/
def shiftRight (a n : Int64) : Option Int64 :=
  if n.toInt < 0 then none else some (Int64.ofInt (a.toInt / 2 ^ (min n.toInt 63).toNat))

/-- The functions that are passed to `mathOp`; `none` is a panic. -/
def Floats.arith (fl : Floats) : Arith → UInt64 → UInt64 → Option UInt64
  | .add, a, b => some (fl.add a b)
  | .mul, a, b => some (fl.mul a b)
  | .pow, a, b => some (fl.pow a b)
  | .mod, a, b => some (fl.mod a b)
  | .floor, a, _ => some (fl.floor a)
  | .ceil, a, _ => some (fl.ceil a)
  | .max, a, b => some (fl.max a b)
  | .min, a, b => some (fl.min a b)
  | .and, a, b => some (fl.ofInt64 (fl.toInt64 a &&& fl.toInt64 b))
  | .or, a, b => some (fl.ofInt64 (fl.toInt64 a ||| fl.toInt64 b))
  | .xor, a, b => some (fl.ofInt64 (fl.toInt64 a ^^^ fl.toInt64 b))
  | .leftShift, a, b => (shiftLeft (fl.toInt64 a) (fl.toInt64 b)).map fl.ofInt64
  | .rightShift, a, b => (shiftRight (fl.toInt64 a) (fl.toInt64 b)).map fl.ofInt64

/-- The interpreter whose numbers are these floats. -/
def Interpreter.withFloats (rt : Interpreter) (fl : Floats) : Interpreter :=
  { rt with arith := fl.arith, truncate := fun v => (fl.toInt64 v).toInt }

def Arith.isShift : Arith → Bool
  | .leftShift => true
  | .rightShift => true
  | _ => false

/-- Only a shift by a negative count panics. -/
theorem Floats.arith_eq_none {fl : Floats} {f : Arith} {a b : UInt64} :
    fl.arith f a b = none ↔ f.isShift = true ∧ (fl.toInt64 b).toInt < 0 := by
  cases f with
  | leftShift =>
    by_cases hneg : (fl.toInt64 b).toInt < 0
    · simp [arith, shiftLeft, Arith.isShift, hneg]
    · simp only [arith, shiftLeft, Arith.isShift, if_neg hneg]
      split <;> simp [hneg]
  | rightShift =>
    by_cases hneg : (fl.toInt64 b).toInt < 0 <;>
      simp [arith, shiftRight, Arith.isShift, hneg]
  | _ => simp [arith, Arith.isShift]

/-! ## The checks -/

/-- `==` of two values of type `any`; `none` is a panic. -/
def Json.equalsAny : Json → Json → Option Bool
  | .null, .null => some true
  | .bool a, .bool b => some (a == b)
  | .number a, .number b => some (floatEq a b)
  | .string a, .string b => some (a == b)
  | .array _, .array _ => none
  | .object _, .object _ => none
  | _, _ => some false

/-- `slices.Index` comes to a value that it cannot compare. -/
def indexFaults (w : Json) : List Json → Bool
  | [] => false
  | v :: l =>
    match w.equalsAny v with
    | none => true
    | some true => false
    | some false => indexFaults w l

/-- `slices.Delete(s, i, i+1)` out of bounds. -/
def Heap.deleteFaults (h : Heap) (s : Slice) (i : Nat) : Bool :=
  s.len < i + 1 || (h.arrays[s.array]?.getD []).length < s.len

def Heap.removeFaults (h : Heap) (s : Slice) (w : Json) : Bool :=
  indexFaults w (s.elems h.arrays) ||
    ((s.elems h.arrays).findIdx? w.equals).any (h.deleteFaults s)

/-- The checks of the language in one operation, but for those of the functions of
two numbers. A map that is not in memory is nil. -/
def Interpreter.faults (rt : Interpreter) (st : Loop) (op : DataStorageOperation) : Bool :=
  match op.kind, st.origVal, op.value with
  | some .remove, .slice s, .number b => st.heap.removeFaults s (.number b)
  | some .remove, .slice s, .string b => st.heap.removeFaults s (.string b)
  | some .pop, .slice s, .number v =>
    0 ≤ rt.truncate v && rt.truncate v < s.len && st.heap.deleteFaults s (rt.truncate v).toNat
  | some .update, .map m, .object d => !d.isEmpty && st.heap.maps.length ≤ m
  | _, _, _ => false

namespace Interpreter

variable (rt : Interpreter)

def operateChecked (default : Value) (st : Loop) (op : DataStorageOperation) : Except Stop Loop :=
  if rt.faults st op then .error .panic else rt.operate default st op

def operateAllChecked (default : Value) : Loop → List DataStorageOperation → Except Stop Loop
  | st, [] => .ok st
  | st, op :: ops =>
    match rt.operateChecked default st op with
    | .error e => .error e
    | .ok st' => operateAllChecked default { st' with origVal := st'.newVal } ops

def evaluateChecked (orig : Option GoString) (m : SetMessage) : Except Stop GoString :=
  match rt.startLoop orig m.default with
  | .error e => .error e
  | .ok (default, start) =>
    match rt.operateAllChecked default start m.operations with
    | .error e => .error e
    | .ok st =>
      match rt.marshal (st.heap.read st.newVal) with
      | none => .error .malformed
      | some newBytes => .ok newBytes

end Interpreter

/-- `updateDataStorage` with the checks of the language. -/
def updateDataStorageChecked (rt : Interpreter) (env : Env) (m : SetMessage) :
    Handler (Option GoString × GoString) :=
  if readOnlyKeyPrefix.isPrefixOf m.key then .fail .malformed
  else do
    let origBytes ← .read fun db : Savefile => db.getStoredData env m.key
    let newBytes ← .query fun _ : Savefile => rt.evaluateChecked origBytes m
    let _ ← (setStoredData env m.key newBytes : Handler Unit).attempt
    pure (origBytes, newBytes)

/-- A shift of a number by one that is negative as an `int64`. -/
def NegativeShift (fl : Floats) (st : Loop) (op : DataStorageOperation) : Prop :=
  ∃ f a b, op.kind = some (.math f) ∧ f.isShift = true ∧ st.origVal = .plain (.number a) ∧
    op.value = .number b ∧ (fl.toInt64 b).toInt < 0

/-! ## The values in memory -/

/-- The value is no list or dictionary, or it is one in memory. -/
def Heap.Valid (h : Heap) : Value → Prop
  | .plain v => v.isPlain = true
  | .slice s => ∃ array, h.arrays[s.array]? = some array ∧ s.len ≤ array.length
  | .map m => m < h.maps.length

/-- The second heap has what the first has, with arrays of the same lengths. -/
structure Heap.Extends (h h' : Heap) : Prop where
  arrays : h.arrays.map List.length <+: h'.arrays.map List.length
  maps : h.maps.length ≤ h'.maps.length

section Valid

variable {h h' h₁ : Heap} {x : Value}

theorem Heap.Extends.refl (h : Heap) : h.Extends h := ⟨List.prefix_rfl, Nat.le_refl _⟩

theorem Heap.Extends.valid (he : h.Extends h') (hx : h.Valid x) : h'.Valid x := by
  cases x with
  | plain v => exact hx
  | slice s =>
    obtain ⟨array, harray, hlen⟩ := hx
    have hlength : (h.arrays.map List.length)[s.array]? = some array.length := by
      rw [List.getElem?_map, harray, Option.map_some]
    have hkept : (h'.arrays.map List.length)[s.array]? = some array.length := by
      obtain ⟨rest, hrest⟩ := he.arrays
      rw [← hrest, List.getElem?_append_left (List.getElem?_eq_some_iff.mp hlength).1, hlength]
    rw [List.getElem?_map] at hkept
    obtain ⟨array', harray', hlen'⟩ := Option.map_eq_some_iff.mp hkept
    exact ⟨array', harray', hlen' ▸ hlen⟩
  | map m => exact Nat.lt_of_lt_of_le hx he.maps

theorem load_valid (rt : Interpreter) (h : Heap) (v : Json) :
    (rt.load h v).2.Valid (rt.load h v).1 ∧ h.Extends (rt.load h v).2 := by
  cases v with
  | array l =>
    refine ⟨⟨_, List.getElem?_concat_length, by simp [make]⟩, ?_, Nat.le_refl _⟩
    simp [Interpreter.load, make]
  | object l =>
    refine ⟨?_, List.prefix_rfl, ?_⟩ <;> simp [Interpreter.load, Heap.Valid]
  | _ => exact ⟨rfl, .refl h⟩

/-- An array is replaced by one of the same length. -/
theorem Heap.extends_set {i : Nat} {array array' : List Json} (hi : h.arrays[i]? = some array)
    (hlen : array'.length = array.length) :
    h.Extends { h with arrays := h.arrays.set i array' } := by
  refine ⟨?_, Nat.le_refl _⟩
  have hsame : (h.arrays.map List.length)[i]? = some array'.length := by
    rw [List.getElem?_map, hi, Option.map_some, hlen]
  obtain ⟨hlt, hget⟩ := List.getElem?_eq_some_iff.mp hsame
  show _ <+: (h.arrays.set i array').map List.length
  rw [List.map_set, ← hget, List.set_getElem_self]

end Valid

section Steps

variable {rt : Interpreter} {st st' : Loop} {w : Json} {default : Value}
  {op : DataStorageOperation}

/-- The loop goes on with a valid value, and what was valid before is so still. -/
structure Loop.Keeps (st st' : Loop) : Prop where
  valid : st'.heap.Valid st'.newVal
  extends_heap : st.heap.Extends st'.heap

theorem keeps_of_heap {x : Value} (hx : st.heap.Valid x) : st.Keeps { st with newVal := x } :=
  ⟨hx, .refl _⟩

theorem keeps_append {s : Slice} {l : List Json} (hs : st.heap.Valid (.slice s)) :
    st.Keeps { st with
      heap := { st.heap with arrays := (s.append .null rt.spare st.heap.arrays l).2 }
      newVal := .slice (s.append .null rt.spare st.heap.arrays l).1 } := by
  obtain ⟨array, harray, hlen⟩ := hs
  simp only [Slice.append, harray, Option.getD_some]
  split
  · next hfits =>
    have hlength : (array.take s.len ++ l ++ array.drop (s.len + l.length)).length =
        array.length := by
      simp only [List.length_append, List.length_take, List.length_drop]
      omega
    refine ⟨⟨_, List.getElem?_set_self (List.getElem?_eq_some_iff.mp harray).1, ?_⟩,
      Heap.extends_set harray hlength⟩
    rw [hlength]
    exact hfits
  · refine ⟨⟨_, List.getElem?_concat_length, by simp [make]⟩, ?_, Nat.le_refl _⟩
    simp [make]

theorem keeps_deleteAt {s : Slice} {index : Option Nat} (hs : st.heap.Valid (.slice s))
    (horig : st.origVal = .slice s) (hindex : ∀ i ∈ index, i < s.len) :
    st.Keeps (st.deleteAt s index) := by
  cases index with
  | none => exact keeps_of_heap (horig ▸ hs)
  | some i =>
    obtain ⟨array, harray, hlen⟩ := hs
    have hi := hindex i rfl
    have hlength : ((array.take s.len).eraseIdx i ++ .null :: array.drop s.len).length =
        array.length := by
      rw [List.length_append, List.length_eraseIdx_of_lt (by simp; omega), List.length_take,
        List.length_cons, List.length_drop]
      omega
    have hset := Heap.extends_set harray hlength
    simp only [Loop.deleteAt, Slice.deleteAt, harray, Option.getD_some]
    refine ⟨⟨_, List.getElem?_set_self (List.getElem?_eq_some_iff.mp harray).1, ?_⟩, hset⟩
    rw [hlength]
    show s.len - 1 ≤ _
    omega

theorem keeps_setMap {m : Nat} (l : Entries) (hm : st.heap.Valid (.map m))
    (horig : st.origVal = .map m) : st.Keeps (st.setMap m l) := by
  have hext : st.heap.Extends { st.heap with maps := st.heap.maps.set m l } :=
    ⟨List.prefix_rfl, by simp⟩
  refine ⟨?_, hext⟩
  show Heap.Valid _ st.origVal
  exact horig ▸ hext.valid hm

theorem findIdx?_elems_lt {s : Slice} {arrays : Arrays Json} {p : Json → Bool} {i : Nat}
    (h : (s.elems arrays).findIdx? p = some i) : i < s.len := by
  have hi := (List.findIdx?_eq_some_iff_findIdx_eq.mp h).1
  rw [Slice.elems, List.length_take] at hi
  omega

theorem operateMath_keeps {f : Arith} (h : rt.operateMath f st w = .ok st') : st.Keeps st' := by
  unfold Interpreter.operateMath Interpreter.mathOp at h
  split at h
  · next hres =>
    split at hres
    · split at hres
      · cases hres
        cases h
        exact keeps_of_heap rfl
      · cases hres
    · cases hres
  · cases h

theorem operateAdd_keeps (horig : st.heap.Valid st.origVal) (hnew : st.heap.Valid st.newVal)
    (h : rt.operateAdd st w = .ok st') : st.Keeps st' := by
  unfold Interpreter.operateAdd at h
  split at h
  · exact operateMath_keeps h
  · next s hs =>
    split at h
    · cases h
      exact keeps_append (hs ▸ horig)
    · cases h
  · cases h
    exact keeps_of_heap hnew

theorem operateRemove_keeps (horig : st.heap.Valid st.origVal)
    (h : Interpreter.operateRemove st w = .ok st') : st.Keeps st' := by
  unfold Interpreter.operateRemove at h
  split at h
  · next s hs =>
    split at h
    · cases h
      exact keeps_deleteAt (hs ▸ horig) hs fun i hi => findIdx?_elems_lt hi
    · cases h
      exact keeps_deleteAt (hs ▸ horig) hs fun i hi => findIdx?_elems_lt hi
    · cases h
  · cases h

theorem operatePop_keeps (horig : st.heap.Valid st.origVal)
    (h : rt.operatePop st w = .ok st') : st.Keeps st' := by
  unfold Interpreter.operatePop at h
  split at h
  · next s hs =>
    split at h
    · cases h
      refine keeps_deleteAt (hs ▸ horig) hs fun i hi => ?_
      split at hi
      · cases hi
        omega
      · cases hi
    · cases h
  · next m hm =>
    split at h
    · cases h
      exact keeps_setMap _ (hm ▸ horig) hm
    · cases h
  · cases h

theorem operateUpdate_keeps (horig : st.heap.Valid st.origVal)
    (h : Interpreter.operateUpdate st w = .ok st') : st.Keeps st' := by
  unfold Interpreter.operateUpdate at h
  split at h
  · next m hm =>
    split at h
    · cases h
      exact keeps_setMap _ (hm ▸ horig) hm
    · cases h
  · cases h

theorem operate_keeps (horig : st.heap.Valid st.origVal) (hdefault : st.heap.Valid default)
    (hnew : st.heap.Valid st.newVal) (h : rt.operate default st op = .ok st') : st.Keeps st' := by
  unfold Interpreter.operate at h
  split at h
  · cases h
  · cases h
    exact ⟨(load_valid rt st.heap op.value).1, (load_valid rt st.heap op.value).2⟩
  · cases h
    refine ⟨?_, .refl _⟩
    show st.heap.Valid (if st.found = true then st.origVal else default)
    split
    · exact horig
    · exact hdefault
  · exact operateAdd_keeps horig hnew h
  · exact operateMath_keeps h
  · exact operateRemove_keeps horig h
  · exact operatePop_keeps horig h
  · exact operateUpdate_keeps horig h

/-- A number or a string can be compared with every value. -/
theorem indexFaults_eq_false (hw : w.isPlain = true) (l : List Json) :
    indexFaults w l = false := by
  induction l with
  | nil => rfl
  | cons v l ih =>
    have hv : w.equalsAny v ≠ none := by
      cases w with
      | array _ => cases hw
      | object _ => cases hw
      | _ => cases v <;> simp [Json.equalsAny]
    rw [indexFaults]
    cases heq : w.equalsAny v with
    | none => exact absurd heq hv
    | some b =>
      cases b with
      | true => rfl
      | false => exact ih

theorem deleteFaults_eq_false {h : Heap} {s : Slice} {i : Nat} (hs : h.Valid (.slice s))
    (hi : i < s.len) : h.deleteFaults s i = false := by
  obtain ⟨array, harray, hlen⟩ := hs
  simp only [Heap.deleteFaults, harray, Option.getD_some, Bool.or_eq_false_iff,
    decide_eq_false_iff_not]
  omega

theorem removeFaults_eq_false {h : Heap} {s : Slice} (hs : h.Valid (.slice s))
    (hw : w.isPlain = true) : h.removeFaults s w = false := by
  rw [Heap.removeFaults, indexFaults_eq_false hw, Bool.false_or]
  cases hfind : (s.elems h.arrays).findIdx? w.equals with
  | none => rfl
  | some i => exact deleteFaults_eq_false hs (findIdx?_elems_lt hfind)

/-- On valid values no check of the language fails. -/
theorem faults_eq_false (horig : st.heap.Valid st.origVal) : rt.faults st op = false := by
  unfold Interpreter.faults
  split
  · next hs _ => exact removeFaults_eq_false (hs ▸ horig) rfl
  · next hs _ => exact removeFaults_eq_false (hs ▸ horig) rfl
  · next s v _ hs _ =>
    by_cases hv : 0 ≤ rt.truncate v ∧ rt.truncate v < s.len
    · rw [deleteFaults_eq_false (hs ▸ horig) (by omega), Bool.and_false]
    · simp only [← Bool.decide_and, hv, decide_false, Bool.false_and]
  · next m _ _ hm _ =>
    have hlt : m < st.heap.maps.length := by
      rw [hm] at horig
      exact horig
    simp only [Nat.not_le.mpr hlt, decide_false, Bool.and_false]
  · rfl

end Steps

/-! ## The loop -/

section Loops

variable {rt : Interpreter} {st : Loop} {default : Value} {orig : Option GoString}
  {m : SetMessage}

theorem operateAllChecked_eq {ops : List DataStorageOperation}
    (horig : st.heap.Valid st.origVal) (hdefault : st.heap.Valid default)
    (hnew : st.heap.Valid st.newVal) :
    rt.operateAllChecked default st ops = rt.operateAll default st ops := by
  induction ops generalizing st with
  | nil => rfl
  | cons op ops ih =>
    have hop : rt.operateChecked default st op = rt.operate default st op := by
      rw [Interpreter.operateChecked, faults_eq_false horig]
      rfl
    rw [Interpreter.operateAllChecked, Interpreter.operateAll, hop]
    cases hst' : rt.operate default st op with
    | error e => rfl
    | ok st' =>
      have hkeeps := operate_keeps horig hdefault hnew hst'
      exact ih hkeeps.valid (hkeeps.extends_heap.valid hdefault) hkeeps.valid

theorem startLoop_valid {v : Json} {start : Loop}
    (h : rt.startLoop orig v = .ok (default, start)) : start.heap.Valid start.origVal ∧
      start.heap.Valid default ∧ start.heap.Valid start.newVal := by
  have hdefault := load_valid rt .empty v
  cases orig with
  | none =>
    cases h
    exact ⟨hdefault.1, hdefault.1, rfl⟩
  | some b =>
    rw [Interpreter.startLoop] at h
    split at h
    · cases h
    · next v' _ =>
      cases h
      have hdecoded := load_valid rt (rt.load .empty v).2 v'
      exact ⟨hdecoded.1, hdecoded.2.valid hdefault.1, rfl⟩

theorem evaluateChecked_eq : rt.evaluateChecked orig m = rt.evaluate orig m := by
  unfold Interpreter.evaluateChecked Interpreter.evaluate
  cases hstart : rt.startLoop orig m.default with
  | error e => rfl
  | ok p =>
    obtain ⟨default, start⟩ := p
    obtain ⟨horig, hdefault, hnew⟩ := startLoop_valid hstart
    have hall : rt.operateAllChecked default start m.operations =
        rt.operateAll default start m.operations := operateAllChecked_eq horig hdefault hnew
    dsimp only
    generalize rt.operateAllChecked default start m.operations = checked at hall ⊢
    subst hall
    cases rt.operateAll default start m.operations with
    | error e => rfl
    | ok st => cases rt.marshal (st.heap.read st.newVal) <;> rfl

/-- No check of the language fails, but for those of the functions of two numbers. -/
theorem updateDataStorageChecked_eq (rt : Interpreter) (env : Env) (m : SetMessage) :
    updateDataStorageChecked rt env m = updateDataStorage rt env m := by
  simp only [updateDataStorageChecked, updateDataStorage, evaluateChecked_eq]

end Loops

/-- The loop comes to an operation for which `bad` is true of the state before it. -/
def Interpreter.Meets (rt : Interpreter) (orig : Option GoString) (m : SetMessage)
    (bad : Loop → DataStorageOperation → Prop) : Prop :=
  ∃ default start done op rest st, rt.startLoop orig m.default = .ok (default, start) ∧
    m.operations = done ++ op :: rest ∧ rt.operateAll default start done = .ok st ∧ bad st op

section Panics

variable {rt : Interpreter} {fl : Floats} {st : Loop} {default : Value}
  {op : DataStorageOperation} {orig : Option GoString} {m : SetMessage}

theorem operateMath_panic_iff {f : Arith} {w : Json} :
    rt.operateMath f st w = .error .panic ↔ ∃ a b, st.origVal = .plain (.number a) ∧
      w = .number b ∧ rt.arith f a b = none := by
  unfold Interpreter.operateMath Interpreter.mathOp
  constructor
  · intro h
    split at h
    · cases h
    · next hres =>
      split at hres
      · next a b ha =>
        split at hres
        · cases hres
        · next harith => exact ⟨a, b, ha, rfl, harith⟩
      · cases hres
        cases h
  · rintro ⟨a, b, ha, rfl, harith⟩
    simp only [ha, harith]

theorem operateRemove_ne_panic {w : Json} : Interpreter.operateRemove st w ≠ .error .panic := by
  intro h
  unfold Interpreter.operateRemove at h
  split at h
  · split at h <;> cases h
  · cases h

theorem operatePop_ne_panic {w : Json} : rt.operatePop st w ≠ .error .panic := by
  intro h
  unfold Interpreter.operatePop at h
  split at h
  · split at h <;> cases h
  · split at h <;> cases h
  · cases h

theorem operateUpdate_ne_panic {w : Json} : Interpreter.operateUpdate st w ≠ .error .panic := by
  intro h
  unfold Interpreter.operateUpdate at h
  split at h
  · split at h <;> cases h
  · cases h

theorem operateAdd_panic {w : Json} (h : rt.operateAdd st w = .error .panic) :
    rt.operateMath .add st w = .error .panic := by
  unfold Interpreter.operateAdd at h
  split at h
  · exact h
  · split at h <;> cases h
  · cases h

/-- Only a function of two numbers panics. -/
theorem operate_panic (h : rt.operate default st op = .error .panic) :
    ∃ f a b, (op.kind = some (.math f) ∨ f = .add) ∧ st.origVal = .plain (.number a) ∧
      op.value = .number b ∧ rt.arith f a b = none := by
  unfold Interpreter.operate at h
  split at h
  · cases h
  · cases h
  · cases h
  · obtain ⟨a, b, hab⟩ := operateMath_panic_iff.mp (operateAdd_panic h)
    exact ⟨.add, a, b, .inr rfl, hab⟩
  · next f hf =>
    obtain ⟨a, b, hab⟩ := operateMath_panic_iff.mp h
    exact ⟨f, a, b, .inl hf, hab⟩
  · exact absurd h operateRemove_ne_panic
  · exact absurd h operatePop_ne_panic
  · exact absurd h operateUpdate_ne_panic

theorem operate_panic_iff : (rt.withFloats fl).operate default st op = .error .panic ↔
    NegativeShift fl st op := by
  constructor
  · intro h
    obtain ⟨f, a, b, hf, ha, hb, harith⟩ := operate_panic h
    obtain ⟨hshift, hneg⟩ := Floats.arith_eq_none.mp harith
    rcases hf with hk | rfl
    · exact ⟨f, a, b, hk, hshift, ha, hb, hneg⟩
    · cases hshift
  · rintro ⟨f, a, b, hk, hshift, ha, hb, hneg⟩
    rw [Interpreter.operate, hk]
    exact operateMath_panic_iff.mpr ⟨a, b, ha, hb, Floats.arith_eq_none.mpr ⟨hshift, hneg⟩⟩

theorem startLoop_error {v : Json} {e : Stop} (h : rt.startLoop orig v = .error e) :
    e = .malformed := by
  cases orig with
  | none => cases h
  | some b =>
    rw [Interpreter.startLoop] at h
    split at h <;> cases h
    rfl

/-- Where the loop stops, it has come to the operation that stops it. -/
theorem operateAll_error {ops : List DataStorageOperation} {e : Stop}
    (h : rt.operateAll default st ops = .error e) : ∃ done op rest st',
      ops = done ++ op :: rest ∧ rt.operateAll default st done = .ok st' ∧
        rt.operate default st' op = .error e := by
  induction ops generalizing st with
  | nil => cases h
  | cons op ops ih =>
    rw [Interpreter.operateAll] at h
    cases hop : rt.operate default st op with
    | error e' =>
      rw [hop] at h
      cases h
      exact ⟨[], op, ops, st, rfl, rfl, hop⟩
    | ok st₁ =>
      rw [hop] at h
      obtain ⟨done, op', rest, st', rfl, hdone, hop'⟩ := ih h
      refine ⟨op :: done, op', rest, st', rfl, ?_, hop'⟩
      rw [Interpreter.operateAll, hop]
      exact hdone

/-- The evaluation fails with the operation that it comes to. -/
theorem evaluate_of_meets {bad : Loop → DataStorageOperation → Prop} {e : Stop}
    (hbad : ∀ default st op, bad st op → rt.operate default st op = .error e)
    (h : rt.Meets orig m bad) : rt.evaluate orig m = .error e := by
  obtain ⟨default, start, done, op, rest, st, hstart, hops, hdone, hop⟩ := h
  have hall : rt.operateAll default start m.operations = .error e := by
    rw [hops, Interpreter.operateAll_append, hdone]
    show rt.operateAll default st (op :: rest) = _
    rw [Interpreter.operateAll, hbad default st op hop]
  rw [Interpreter.evaluate, hstart]
  simp only [hall]

/-- Neither the start nor the end of an evaluation panics. -/
theorem meets_of_panic (h : rt.evaluate orig m = .error .panic) :
    rt.Meets orig m fun st op => ∃ default, rt.operate default st op = .error .panic := by
  rw [Interpreter.evaluate] at h
  cases hstart : rt.startLoop orig m.default with
  | error e =>
    rw [hstart] at h
    cases h
    cases startLoop_error hstart
  | ok p =>
    obtain ⟨default, start⟩ := p
    rw [hstart] at h
    dsimp only at h
    cases hall : rt.operateAll default start m.operations with
    | error e =>
      rw [hall] at h
      cases h
      obtain ⟨done, op, rest, st', hops, hdone, hop⟩ := operateAll_error hall
      exact ⟨default, start, done, op, rest, st', hstart, hops, hdone, default, hop⟩
    | ok st' =>
      rw [hall] at h
      dsimp only at h
      split at h <;> cases h

theorem evaluate_panic_iff : (rt.withFloats fl).evaluate orig m = .error .panic ↔
    (rt.withFloats fl).Meets orig m (NegativeShift fl) := by
  constructor
  · intro h
    obtain ⟨default, start, done, op, rest, st, hstart, hops, hdone, _, hop⟩ := meets_of_panic h
    exact ⟨default, start, done, op, rest, st, hstart, hops, hdone, operate_panic_iff.mp hop⟩
  · exact evaluate_of_meets fun _ _ _ => operate_panic_iff.mpr

/-- A `Set` does not panic if and only if its key is read-only or it comes to no
shift of one number by another that is negative as an `int64`. -/
theorem set_calm_iff {env : Env} {db : Savefile} :
    ((updateDataStorageChecked (rt.withFloats fl) env m).run db).result ≠ .error .panic ↔
      readOnlyKeyPrefix.isPrefixOf m.key = true ∨
        ¬ (rt.withFloats fl).Meets (db.getStoredData env m.key) m (NegativeShift fl) := by
  rw [updateDataStorageChecked_eq, ← evaluate_panic_iff]
  cases hkey : readOnlyKeyPrefix.isPrefixOf m.key with
  | true =>
    refine iff_of_true ?_ (.inl rfl)
    rw [updateDataStorage, if_pos hkey]
    exact fun h => by cases h
  | false =>
    cases heval : (rt.withFloats fl).evaluate (db.getStoredData env m.key) m with
    | error e => simp [run_updateDataStorage_error hkey heval]
    | ok b => simp [run_updateDataStorage_ok hkey heval]

end Panics

/-- Floats whose conversions are those of 0, 1 and -1. -/
def sampleFloats : Floats where
  add a _ := a
  mul a _ := a
  pow a _ := a
  mod a _ := a
  max a _ := a
  min a _ := a
  floor a := a
  ceil a := a
  toInt64 v := if v = 0x3ff0000000000000 then 1 else if v = 0xbff0000000000000 then -1 else 0
  ofInt64 i := if i = 1 then 0x3ff0000000000000 else if i = -1 then 0xbff0000000000000 else 0

/-- A new key whose default is 1 is shifted to the left by -1. -/
theorem set_panics :
    ((updateDataStorageChecked (sampleInterpreter.withFloats sampleFloats) (.inOrder false)
      ⟨lit "n", .number 0x3ff0000000000000, false,
        [⟨lit "left_shift", .number 0xbff0000000000000⟩]⟩).run storedTrue).result =
      .error .panic := by
  decide

end Isthmus
