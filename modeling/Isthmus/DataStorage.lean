import Isthmus.Go.Slices
import Isthmus.Play

/-!
# The data storage

`updateDataStorage` runs the operations of a `Set` over the value that its key
has, or over the default of the message. Lists and dictionaries are changed in
place, so the value that is computed may share its list or dictionary with the
default of the message.

## Main definitions

- `Interpreter`: what is left to `encoding/json`, to the floats and to `append`
- `Loop.operate`: one operation, over the lists and dictionaries in memory
- `Interpreter.evaluate`: the value that is stored, from the one that was stored
- `updateDataStorage`: the interpreter over the savefile
-/

namespace Isthmus

open Process Approto Slices

/-! ## Operations -/

/-- The functions of two numbers. -/
inductive Arith where
  | add
  | mul
  | pow
  | mod
  | floor
  | ceil
  | max
  | min
  | and
  | or
  | xor
  | leftShift
  | rightShift
  deriving DecidableEq

inductive Operation where
  | replace
  | default
  | add
  | math (f : Arith)
  | remove
  | pop
  | update
  deriving DecidableEq

/-- The operations by their names. -/
def operations : List (GoString × Operation) :=
  [(lit "replace", .replace), (lit "default", .default), (lit "add", .add),
    (lit "mul", .math .mul), (lit "pow", .math .pow), (lit "mod", .math .mod),
    (lit "floor", .math .floor), (lit "ceil", .math .ceil), (lit "max", .math .max),
    (lit "min", .math .min), (lit "and", .math .and), (lit "or", .math .or),
    (lit "xor", .math .xor), (lit "left_shift", .math .leftShift),
    (lit "right_shift", .math .rightShift), (lit "remove", .remove), (lit "pop", .pop),
    (lit "update", .update)]

/-- The operation of a message; `none` is an unknown one. -/
def Approto.DataStorageOperation.kind (op : DataStorageOperation) : Option Operation :=
  operations.lookup op.operation

/-- The parts of the interpreter that belong to the language and its library. -/
structure Interpreter where
  unmarshal : GoString → Option Json
  marshal : Json → Option GoString
  marshal_ne_nil : ∀ v b, marshal v = some b → b ≠ []
  /-- A function of two numbers; `none` is a panic. -/
  arith : Arith → UInt64 → UInt64 → Option UInt64
  /-- `int(v)` of a float. -/
  truncate : UInt64 → Int
  /-- The room that is left behind a slice in a new array. -/
  spare : Nat → Nat → Nat

/-- `==` on floats: NaN is not equal to itself, and both zeros are equal. -/
def floatEq (a b : UInt64) : Bool :=
  (a == b && !(a &&& 0x7fffffffffffffff > 0x7ff0000000000000)) ||
    (a &&& 0x7fffffffffffffff == 0 && b &&& 0x7fffffffffffffff == 0)

/-- `==` of a value with a number or a string. -/
def Json.equals : Json → Json → Bool
  | .number a, .number b => floatEq a b
  | .string a, .string b => a == b
  | _, _ => false

/-- The entries of a dictionary. -/
abbrev Entries := List (GoString × Json)

namespace Entries

/-- `delete(m, k)`. -/
def remove (l : Entries) (k : GoString) : Entries := l.filter fun e => e.1 ≠ k

/-- `m[k] = v`. -/
def assign (l : Entries) (k : GoString) (v : Json) : Entries :=
  if l.any fun e => e.1 = k then l.map fun e => if e.1 = k then (k, v) else e else l ++ [(k, v)]

/-- Each entry of `d` is assigned. -/
def merge (l d : Entries) : Entries := d.foldl (fun l e => l.assign e.1 e.2) l

end Entries

/-! ## The interpreter -/

/-- An `any` that JSON was decoded into. Only lists and dictionaries at the top
are ever changed, so what is inside them is a plain value. -/
inductive Value where
  | plain (v : Json)
  | slice (s : Slice)
  | map (m : Nat)

/-- The lists and dictionaries in memory. -/
structure Heap where
  arrays : Arrays Json
  maps : List Entries

namespace Heap

def empty : Heap := ⟨[], []⟩

/-- The value as JSON. -/
def read (h : Heap) : Value → Json
  | .plain v => v
  | .slice s => .array (s.elems h.arrays)
  | .map m => .object (h.maps[m]?.getD [])

end Heap

/-- What the loop over the operations carries from one to the next. -/
structure Loop where
  heap : Heap
  found : Bool
  origVal : Value
  newVal : Value

/-- `slices.Delete(w, i, i+1)` of the original value `w`, if there is an index. -/
def Loop.deleteAt (st : Loop) (w : Slice) : Option Nat → Loop
  | some i =>
    let deleted := w.deleteAt .null st.heap.arrays i
    { st with heap := { st.heap with arrays := deleted.2 }, newVal := .slice deleted.1 }
  | none => { st with newVal := st.origVal }

/-- The original value is the dictionary `m`, which gets new entries. -/
def Loop.setMap (st : Loop) (m : Nat) (entries : Entries) : Loop :=
  { st with heap := { st.heap with maps := st.heap.maps.set m entries }, newVal := st.origVal }

namespace Interpreter

variable (rt : Interpreter)

/-- A value decoded from JSON: its list or dictionary is new. -/
def load (h : Heap) : Json → Value × Heap
  | .array l =>
    let made := make .null rt.spare h.arrays 0 l
    (.slice made.1, { h with arrays := made.2 })
  | .object l => (.map h.maps.length, { h with maps := h.maps ++ [l] })
  | v => (.plain v, h)

def mathOp (f : Arith) (a : Value) (b : Json) : Except Stop Value :=
  match a, b with
  | .plain (.number a), .number b =>
    match rt.arith f a b with
    | some c => .ok (.plain (.number c))
    | none => .error .panic
  | _, _ => .error .malformed

/-- `newVal = mathOp(..)`. -/
def operateMath (f : Arith) (st : Loop) (w : Json) : Except Stop Loop :=
  match rt.mathOp f st.origVal w with
  | .ok v => .ok { st with newVal := v }
  | .error e => .error e

def operateAdd (st : Loop) (w : Json) : Except Stop Loop :=
  match st.origVal with
  | .plain (.number _) => rt.operateMath .add st w
  | .slice s =>
    match w with
    | .array l =>
      let appended := s.append .null rt.spare st.heap.arrays l
      .ok { st with heap := { st.heap with arrays := appended.2 }, newVal := .slice appended.1 }
    | _ => .error .malformed
  -- the error is set, but the loop goes on and overwrites it
  | _ => .ok st

def operateRemove (st : Loop) (w : Json) : Except Stop Loop :=
  match st.origVal with
  | .slice s =>
    match w with
    | .number _ | .string _ => .ok (st.deleteAt s ((s.elems st.heap.arrays).findIdx? w.equals))
    | _ => .error .malformed
  | _ => .error .malformed

def operatePop (st : Loop) (w : Json) : Except Stop Loop :=
  match st.origVal with
  | .slice s =>
    match w with
    | .number v =>
      .ok (st.deleteAt s
        (if 0 ≤ rt.truncate v ∧ rt.truncate v < s.len then some (rt.truncate v).toNat else none))
    | _ => .error .malformed
  | .map m =>
    match w with
    | .string k => .ok (st.setMap m ((st.heap.maps[m]?.getD []).remove k))
    | _ => .error .malformed
  | _ => .error .malformed

def operateUpdate (st : Loop) (w : Json) : Except Stop Loop :=
  match st.origVal with
  | .map m =>
    match w with
    | .object d => .ok (st.setMap m ((st.heap.maps[m]?.getD []).merge d))
    | _ => .error .malformed
  | _ => .error .malformed

/-- The body of the loop, up to `origVal = newVal`. -/
def operate (default : Value) (st : Loop) (op : DataStorageOperation) : Except Stop Loop :=
  match op.kind with
  | none => .error .malformed
  | some .replace =>
    let loaded := rt.load st.heap op.value
    .ok { st with heap := loaded.2, newVal := loaded.1 }
  | some .default =>
    -- `found` is set here and by no other operation
    .ok { st with newVal := if st.found then st.origVal else default, found := true }
  | some .add => rt.operateAdd st op.value
  | some (.math f) => rt.operateMath f st op.value
  | some .remove => operateRemove st op.value
  | some .pop => rt.operatePop st op.value
  | some .update => operateUpdate st op.value

/-- The loop over the operations. -/
def operateAll (default : Value) : Loop → List DataStorageOperation → Except Stop Loop
  | st, [] => .ok st
  | st, op :: ops =>
    match rt.operate default st op with
    | .error e => .error e
    | .ok st' => operateAll default { st' with origVal := st'.newVal } ops

/-- The loop at its start. The default of the message is in memory from its
parsing, and is the original value where nothing is stored. -/
def startLoop (orig : Option GoString) (default : Json) : Except Stop (Value × Loop) :=
  let loaded := rt.load .empty default
  match orig with
  | none => .ok (loaded.1, ⟨loaded.2, false, loaded.1, .plain .null⟩)
  | some b =>
    match rt.unmarshal b with
    | none => .error .malformed
    | some v =>
      let decoded := rt.load loaded.2 v
      .ok (loaded.1, ⟨decoded.2, true, decoded.1, .plain .null⟩)

/-- The bytes to store, from those that are stored. -/
def evaluate (orig : Option GoString) (m : SetMessage) : Except Stop GoString :=
  match rt.startLoop orig m.default with
  | .error e => .error e
  | .ok (default, start) =>
    match rt.operateAll default start m.operations with
    | .error e => .error e
    | .ok st =>
      match rt.marshal (st.heap.read st.newVal) with
      | none => .error .malformed
      | some newBytes => .ok newBytes

end Interpreter

/-- The bytes before and after. An error of the write is dropped. -/
def updateDataStorage (rt : Interpreter) (env : Env) (m : SetMessage) :
    Handler (Option GoString × GoString) :=
  if readOnlyKeyPrefix.isPrefixOf m.key then .fail .malformed
  else do
    let origBytes ← .read fun db : Savefile => db.getStoredData env m.key
    let newBytes ← .query fun _ : Savefile => rt.evaluate origBytes m
    let _ ← (setStoredData env m.key newBytes : Handler Unit).attempt
    pure (origBytes, newBytes)

section Update

variable {rt : Interpreter} {env : Env} {db : Savefile} {m : SetMessage}

theorem run_updateDataStorage_error {e : Stop} (hkey : readOnlyKeyPrefix.isPrefixOf m.key = false)
    (heval : rt.evaluate (db.getStoredData env m.key) m = .error e) :
    (updateDataStorage rt env m).run db = ⟨.error e, []⟩ := by
  rw [updateDataStorage, if_neg (by simp [hkey]), Proc.run_read_bind, Proc.run_query_bind, heval]

theorem run_updateDataStorage_ok {newBytes : GoString}
    (hkey : readOnlyKeyPrefix.isPrefixOf m.key = false)
    (heval : rt.evaluate (db.getStoredData env m.key) m = .ok newBytes) :
    (updateDataStorage rt env m).run db = ⟨.ok (db.getStoredData env m.key, newBytes),
      ((setStoredData env m.key newBytes : Handler Unit).run db).trace⟩ := by
  rw [updateDataStorage, if_neg (by simp [hkey]), Proc.run_read_bind, Proc.run_query_bind, heval]
  exact (Proc.run_bind_of_ok (Proc.run_attempt _ db)).trans (by simp)

end Update

/-- What the loop makes of the result. -/
def Session.answerSet (sess : Session) (m : SetMessage) :
    Except Stop (Option GoString × GoString) → Handler Unit
  | .error .panic => .fail .panic
  | .error _ => pure ()
  | .ok (oldValue, newValue) =>
    if m.wantReply || sess.watchedKeys.contains m.key then
      .emit (.toAP (.setReply m.key newValue oldValue sess.playerID))
    else pure ()

/-- A `Set` is handled by `updateDataStorage`. -/
theorem handleSet_eq (rt : Interpreter) (cfg : Config) (env : Env) (sess : Session)
    (m : SetMessage) :
    handleSet { cfg with evaluate := rt.evaluate } env sess m =
      (updateDataStorage rt env m).attempt >>= sess.answerSet m := by
  refine Proc.ext (funext fun db => ?_)
  rw [Proc.run_bind_of_ok (Proc.run_attempt _ db)]
  cases hkey : readOnlyKeyPrefix.isPrefixOf m.key with
  | true =>
    rw [handleSet, if_pos hkey, updateDataStorage, if_pos hkey]
    rfl
  | false =>
    rw [handleSet, if_neg (by simp [hkey]), Proc.run_read_bind]
    cases heval : rt.evaluate (db.getStoredData env m.key) m with
    | error e =>
      rw [run_updateDataStorage_error hkey heval]
      simp only [heval]
      cases e <;> rfl
    | ok newBytes =>
      rw [run_updateDataStorage_ok hkey heval]
      simp only [heval, Session.answerSet, Bool.or_eq_true, List.contains_iff_mem]
      exact Proc.run_bind_of_ok (Proc.run_attempt _ db)

/-! ## The fold -/

namespace Interpreter

variable (rt : Interpreter)

/-- A function of two numbers. -/
def applyMath (f : Arith) : Json → Json → Option Json
  | .number a, .number b => (rt.arith f a b).map .number
  | _, _ => none

def applyAdd : Json → Json → Option Json
  | .array l, .array l' => some (.array (l ++ l'))
  | v, w => rt.applyMath .add v w

/-- The first element that is equal to a number or a string is deleted. -/
def applyRemove : Json → Json → Option Json
  | .array l, .number b => some (.array (l.eraseP (Json.number b).equals))
  | .array l, .string s => some (.array (l.eraseP (Json.string s).equals))
  | _, _ => none

/-- An index or a key is deleted. -/
def applyPop : Json → Json → Option Json
  | .array l, .number b =>
    some (.array (if 0 ≤ rt.truncate b then l.eraseIdx (rt.truncate b).toNat else l))
  | .object l, .string k => some (.object (Entries.remove l k))
  | _, _ => none

def applyUpdate : Json → Json → Option Json
  | .object l, .object d => some (.object (Entries.merge l d))
  | _, _ => none

/-- What one operation makes of a value; `none` where it is not applicable. -/
def applyOperation (v : Json) (op : DataStorageOperation) : Option Json :=
  match op.kind with
  | none => none
  | some .replace => some op.value
  | some .default => some v
  | some .add => rt.applyAdd v op.value
  | some (.math f) => rt.applyMath f v op.value
  | some .remove => applyRemove v op.value
  | some .pop => rt.applyPop v op.value
  | some .update => applyUpdate v op.value

/-- The left fold of the operations. -/
def foldOperations (v : Json) (ops : List DataStorageOperation) : Option Json :=
  ops.foldlM rt.applyOperation v

/-- The value that the fold starts from: the stored one, or the default. -/
def startValue (orig : Option GoString) (default : Json) : Option Json :=
  match orig with
  | none => some default
  | some b => rt.unmarshal b

/-- The value of the fold for a message. -/
def folded (orig : Option GoString) (m : SetMessage) : Option Json :=
  (rt.startValue orig m.default).bind fun v => rt.foldOperations v m.operations

end Interpreter

/-- The operation yields what it finds, or the default of the message. -/
def Approto.DataStorageOperation.isDefault (op : DataStorageOperation) : Bool :=
  op.kind = some .default

/-- A `default` after other operations, and none before them. -/
def LateDefault (ops : List DataStorageOperation) : Prop :=
  (∃ op ∈ ops, op.isDefault = true) ∧ ∀ op ∈ ops.head?, op.isDefault = false

/-- The value is none of those that are changed in place. -/
def Json.isPlain : Json → Bool
  | .array _ | .object _ => false
  | _ => true

/-- A value in memory stands for a value of JSON. -/
inductive Heap.Holds (h : Heap) : Value → Json → Prop
  | plain {v} (hv : v.isPlain = true) : Holds h (.plain v) v
  | slice {s l} (hs : s.Holds h.arrays l) : Holds h (.slice s) (.array l)
  | map {m l} (hm : h.maps[m]? = some l) : Holds h (.map m) (.object l)

section Fold

variable {rt : Interpreter} {h : Heap} {x : Value} {v v' : Json}

theorem Heap.Holds.read_eq (hx : h.Holds x v) : h.read x = v := by
  cases hx with
  | plain hv => rfl
  | slice hs => exact congrArg Json.array hs.elems_eq
  | map hm => rw [Heap.read, hm, Option.getD_some]

theorem Heap.Holds.of_number {a : UInt64} (hx : h.Holds x (.number a)) :
    x = .plain (.number a) := by
  cases hx
  rfl

theorem Heap.Holds.of_array {l : List Json} (hx : h.Holds x (.array l)) :
    ∃ s, x = .slice s ∧ s.Holds h.arrays l := by
  cases hx with
  | plain hv => cases hv
  | @slice s l hs => exact ⟨s, rfl, hs⟩

theorem Heap.Holds.of_object {l : Entries} (hx : h.Holds x (.object l)) :
    ∃ m, x = .map m ∧ h.maps[m]? = some l := by
  cases hx with
  | plain hv => cases hv
  | @map m l hm => exact ⟨m, rfl, hm⟩

theorem load_holds (h : Heap) (v : Json) : (rt.load h v).2.Holds (rt.load h v).1 v := by
  cases v with
  | array l => exact .slice (Slice.holds_make 0)
  | object l => exact .map (by simp [Interpreter.load])
  | _ => exact .plain rfl

theorem eraseP_eq_elim (p : Json → Bool) (l : List Json) :
    l.eraseP p = (l.findIdx? p).elim l l.eraseIdx := by
  rw [List.eraseP_eq_eraseIdx]
  cases l.findIdx? p <;> rfl

/-- The loop goes on with a value in memory that stands for `v`. -/
structure Loop.Yields (st st' : Loop) (v : Json) : Prop where
  holds : st'.heap.Holds st'.newVal v
  found_eq : st'.found = st.found

variable {st : Loop} {w : Json}

theorem deleteAt_spec {s : Slice} {l : List Json} {index : Option Nat}
    (hs : s.Holds st.heap.arrays l) (horig : st.origVal = .slice s)
    (hindex : ∀ i ∈ index, i < l.length) :
    st.Yields (st.deleteAt s index) (.array (index.elim l l.eraseIdx)) := by
  cases index with
  | none =>
    refine ⟨?_, rfl⟩
    show st.heap.Holds st.origVal (.array l)
    exact horig.symm ▸ .slice hs
  | some i => exact ⟨.slice (Slice.holds_deleteAt hs (hindex i rfl)), rfl⟩

theorem setMap_spec {m : Nat} {l : Entries} (l' : Entries) (horig : st.origVal = .map m)
    (hm : st.heap.maps[m]? = some l) : st.Yields (st.setMap m l') (.object l') := by
  refine ⟨?_, rfl⟩
  show Heap.Holds _ st.origVal _
  exact horig.symm ▸ .map (List.getElem?_set_self (List.getElem?_eq_some_iff.mp hm).1)

theorem operateMath_spec {f : Arith} (hx : st.heap.Holds st.origVal v)
    (hv : rt.applyMath f v w = some v') :
    ∃ st', rt.operateMath f st w = .ok st' ∧ st.Yields st' v' := by
  cases v with
  | number a =>
    cases w with
    | number b =>
      obtain ⟨c, hc, rfl⟩ := Option.map_eq_some_iff.mp hv
      refine ⟨{ st with newVal := .plain (.number c) }, ?_, .plain rfl, rfl⟩
      rw [Interpreter.operateMath, hx.of_number, Interpreter.mathOp, hc]
    | _ => cases hv
  | _ => cases hv

theorem operateAdd_spec (hx : st.heap.Holds st.origVal v) (hv : rt.applyAdd v w = some v') :
    ∃ st', rt.operateAdd st w = .ok st' ∧ st.Yields st' v' := by
  unfold Interpreter.operateAdd
  cases v with
  | number a =>
    rw [hx.of_number]
    exact operateMath_spec hx hv
  | array l =>
    obtain ⟨s, horig, hs⟩ := hx.of_array
    rw [horig]
    cases w with
    | array l' =>
      cases hv
      exact ⟨_, rfl, .slice (Slice.holds_append hs), rfl⟩
    | _ => cases hv
  | _ => cases hv

theorem operateRemove_spec (hx : st.heap.Holds st.origVal v)
    (hv : Interpreter.applyRemove v w = some v') :
    ∃ st', Interpreter.operateRemove st w = .ok st' ∧ st.Yields st' v' := by
  unfold Interpreter.operateRemove
  cases v with
  | array l =>
    obtain ⟨s, horig, hs⟩ := hx.of_array
    have hdel : st.Yields (st.deleteAt s (l.findIdx? w.equals)) (.array (l.eraseP w.equals)) := by
      rw [eraseP_eq_elim]
      exact deleteAt_spec hs horig fun i hi => (List.findIdx?_eq_some_iff_findIdx_eq.mp hi).1
    rw [horig]
    cases w with
    | number b =>
      cases hv
      refine ⟨_, rfl, ?_⟩
      rw [hs.elems_eq]
      exact hdel
    | string b =>
      cases hv
      refine ⟨_, rfl, ?_⟩
      rw [hs.elems_eq]
      exact hdel
    | _ => cases hv
  | _ => cases hv

/-- An index behind the end deletes nothing. -/
theorem elim_eraseIdx (l : List Json) (i : Int) :
    (if 0 ≤ i ∧ i < l.length then some i.toNat else none).elim l l.eraseIdx =
      if 0 ≤ i then l.eraseIdx i.toNat else l := by
  by_cases hneg : 0 ≤ i
  · by_cases hlt : i < l.length
    · rw [if_pos ⟨hneg, hlt⟩, if_pos hneg, Option.elim_some]
    · rw [if_neg (by omega), if_pos hneg, Option.elim_none, List.eraseIdx_of_length_le (by omega)]
  · rw [if_neg (by omega), if_neg hneg, Option.elim_none]

theorem operatePop_spec (hx : st.heap.Holds st.origVal v) (hv : rt.applyPop v w = some v') :
    ∃ st', rt.operatePop st w = .ok st' ∧ st.Yields st' v' := by
  unfold Interpreter.operatePop
  cases v with
  | array l =>
    obtain ⟨s, horig, hs⟩ := hx.of_array
    rw [horig]
    cases w with
    | number b =>
      refine ⟨_, rfl, ?_⟩
      cases hv
      rw [hs.length_eq, ← elim_eraseIdx]
      refine deleteAt_spec hs horig ?_
      intro i hi
      split at hi
      · cases hi
        omega
      · cases hi
    | _ => cases hv
  | object l =>
    obtain ⟨m, horig, hm⟩ := hx.of_object
    rw [horig]
    cases w with
    | string k =>
      cases hv
      refine ⟨_, rfl, ?_⟩
      rw [hm]
      exact setMap_spec _ horig hm
    | _ => cases hv
  | _ => cases hv

theorem operateUpdate_spec (hx : st.heap.Holds st.origVal v)
    (hv : Interpreter.applyUpdate v w = some v') :
    ∃ st', Interpreter.operateUpdate st w = .ok st' ∧ st.Yields st' v' := by
  unfold Interpreter.operateUpdate
  cases v with
  | object l =>
    obtain ⟨m, horig, hm⟩ := hx.of_object
    rw [horig]
    cases w with
    | object d =>
      cases hv
      refine ⟨_, rfl, ?_⟩
      rw [hm]
      exact setMap_spec _ horig hm
    | _ => cases hv
  | _ => cases hv

/-- One operation on a value in memory does what it does on the value, if a
`default` finds the value of the key. -/
theorem operate_spec {default : Value} {op : DataStorageOperation}
    (hx : st.heap.Holds st.origVal v) (hop : rt.applyOperation v op = some v')
    (hdefault : op.isDefault = true → st.found = true ∨ default = st.origVal) :
    ∃ st', rt.operate default st op = .ok st' ∧ st'.heap.Holds st'.newVal v' ∧
      st'.found = (st.found || op.isDefault) := by
  have hyields {r : Except Stop Loop} (hother : op.isDefault = false)
      (h : ∃ st', r = .ok st' ∧ st.Yields st' v') :
      ∃ st', r = .ok st' ∧ st'.heap.Holds st'.newVal v' ∧
        st'.found = (st.found || op.isDefault) := by
    obtain ⟨st', hst', hy⟩ := h
    exact ⟨st', hst', hy.holds, by rw [hy.found_eq, hother, Bool.or_false]⟩
  unfold Interpreter.applyOperation at hop
  unfold Interpreter.operate
  unfold DataStorageOperation.isDefault at *
  cases hk : op.kind with
  | none =>
    rw [hk] at hop
    cases hop
  | some k =>
    rw [hk] at hop hdefault hyields
    cases k with
    | replace =>
      cases hop
      exact hyields rfl ⟨_, rfl, load_holds st.heap op.value, rfl⟩
    -- without a value the default of the message has to be the value still
    | default =>
      cases hop
      refine ⟨_, rfl, ?_, by simp⟩
      cases hfound : st.found with
      | true => exact hx
      | false =>
        have hsame : default = st.origVal := by simpa [hfound] using hdefault rfl
        exact hsame ▸ hx
    | math f => exact hyields rfl (operateMath_spec hx hop)
    | add => exact hyields rfl (operateAdd_spec hx hop)
    | remove => exact hyields rfl (operateRemove_spec hx hop)
    | pop => exact hyields rfl (operatePop_spec hx hop)
    | update => exact hyields rfl (operateUpdate_spec hx hop)

/-- Every `default` of the operations finds the value that the loop has. -/
def Loop.Timely (st : Loop) (default : Value) (ops : List DataStorageOperation) : Prop :=
  st.found = true ∨ (∀ op ∈ ops, op.isDefault = false) ∨ default = st.origVal ∧ ¬ LateDefault ops

theorem Loop.Timely.head {default : Value} {op : DataStorageOperation}
    {ops : List DataStorageOperation} (h : st.Timely default (op :: ops)) :
    op.isDefault = true → st.found = true ∨ default = st.origVal := by
  intro hop
  rcases h with h | h | h
  · exact .inl h
  · rw [h op List.mem_cons_self] at hop
    cases hop
  · exact .inr h.1

/-- The first operation found a value, or no later operation is a `default`. -/
theorem Loop.Timely.tail {default x : Value} {op : DataStorageOperation}
    {ops : List DataStorageOperation} (h : st.Timely default (op :: ops)) {st' : Loop}
    (hfound : st'.found = (st.found || op.isDefault)) :
    Loop.Timely { st' with origVal := x } default ops := by
  show st'.found = true ∨ _
  rw [hfound, Bool.or_eq_true]
  rcases h with h | h | h
  · exact .inl (.inl h)
  · exact .inr (.inl fun op' hop' => h op' (List.mem_cons_of_mem _ hop'))
  · cases hop : op.isDefault with
    | true => exact .inl (.inr rfl)
    | false =>
      refine .inr (.inl fun op' hop' => ?_)
      have hlate : op'.isDefault ≠ true := fun hop'' =>
        h.2 ⟨⟨op', List.mem_cons_of_mem _ hop', hop''⟩, by simpa using hop⟩
      simpa using hlate

/-- The loop computes the fold. -/
theorem operateAll_spec {default : Value} {ops : List DataStorageOperation}
    (hx : st.heap.Holds st.origVal v) (hfold : rt.foldOperations v ops = some v')
    (hdefault : st.Timely default ops) (hops : ops = [] → st.heap.Holds st.newVal v) :
    ∃ st', rt.operateAll default st ops = .ok st' ∧ st'.heap.Holds st'.newVal v' := by
  induction ops generalizing st v with
  | nil =>
    cases hfold
    exact ⟨st, rfl, hops rfl⟩
  | cons op ops ih =>
    obtain ⟨v₁, hv₁, hrest⟩ := Option.bind_eq_some_iff.mp hfold
    obtain ⟨st', hst', hholds, hfound⟩ := operate_spec hx hv₁ hdefault.head
    rw [Interpreter.operateAll, hst']
    exact ih hholds hrest (hdefault.tail hfound) fun _ => hholds

variable {orig : Option GoString} {m : SetMessage}

theorem timely_of_start {default : Value} {ops : List DataStorageOperation}
    (hfound : st.found = true ∨ orig = none ∧ default = st.origVal)
    (hdefault : orig ≠ none ∨ ¬ LateDefault ops) : st.Timely default ops := by
  rcases hfound with h | ⟨horig, hsame⟩
  · exact .inl h
  · exact .inr (.inr ⟨hsame, hdefault.resolve_left fun h => h horig⟩)

/-- The loop starts from the value that the fold starts from. -/
theorem startLoop_spec (hv : rt.startValue orig m.default = some v) :
    ∃ default st, rt.startLoop orig m.default = .ok (default, st) ∧
      st.heap.Holds st.origVal v ∧ st.newVal = .plain .null ∧
      (st.found = true ∨ orig = none ∧ default = st.origVal) := by
  cases orig with
  | none =>
    cases hv
    exact ⟨_, _, rfl, load_holds .empty m.default, rfl, .inr ⟨rfl, rfl⟩⟩
  | some b =>
    have hb : rt.unmarshal b = some v := hv
    have hholds : (rt.load (rt.load .empty m.default).2 v).2.Holds
        (rt.load (rt.load .empty m.default).2 v).1 v := load_holds _ v
    refine ⟨(rt.load .empty m.default).1, ⟨_, true, _, .plain .null⟩, ?_, hholds, rfl, .inl rfl⟩
    rw [Interpreter.startLoop, hb]

/-- The bytes of the fold are stored, if there is an operation and a `default`
finds the value of the key. -/
theorem evaluate_of_fold {b : GoString} (hv : rt.folded orig m = some v)
    (hb : rt.marshal v = some b) (hops : m.operations ≠ [])
    (hdefault : orig ≠ none ∨ ¬ LateDefault m.operations) : rt.evaluate orig m = .ok b := by
  obtain ⟨v₀, hv₀, hfold⟩ := Option.bind_eq_some_iff.mp hv
  obtain ⟨default, st, hstart, hholds, -, hfound⟩ := startLoop_spec hv₀
  obtain ⟨st', hst', hholds'⟩ := operateAll_spec hholds hfold (timely_of_start hfound hdefault)
    (fun h => absurd h hops)
  rw [Interpreter.evaluate, hstart]
  simp only [hst', hholds'.read_eq, hb]

/-- Without operations null is stored. -/
theorem evaluate_nil {b : GoString} (hv : rt.folded orig m = some v) (hops : m.operations = []) :
    rt.evaluate orig m = .ok b ↔ rt.marshal .null = some b := by
  obtain ⟨v₀, hv₀, -⟩ := Option.bind_eq_some_iff.mp hv
  obtain ⟨default, st, hstart, -, hnull, -⟩ := startLoop_spec hv₀
  have hread : st.heap.read st.newVal = .null := by rw [hnull]; rfl
  rw [Interpreter.evaluate, hstart, hops]
  simp only [Interpreter.operateAll, hread]
  cases rt.marshal .null <;> simp

end Fold

/-! ## What is stored -/

section Store

variable {rt : Interpreter} {env : Env} {db : Savefile} {m : SetMessage} {v : Json}

/-- Bytes are stored under a key, unless it is bound as NULL. -/
theorem getStoredData_setStoredData {key b : GoString} (hb : b ≠ []) :
    ((setStoredData env key b : Handler Unit).final db).getStoredData env key = some b ↔
      ¬ env.BindsNull key := by
  have hbytes : env.bindString b = some b := Env.bindString_of_not fun h => hb h.2
  by_cases hkey : env.BindsNull key
  · simp [Savefile.getStoredData, Env.bindString_of_bindsNull hkey, hkey]
  · have happly : Store.apply db (.setStoredData (env.bindString key) (env.bindString b)) =
        .ok { db with dataStorage := db.dataStorage.upsert ⟨key, b⟩ } := by
      rw [Env.bindString_of_not hkey, hbytes]
      rfl
    have hfind := Table.find_upsert db.dataStorage ⟨key, b⟩
    rw [Proc.final, setStoredData, Proc.run_commit_ok happly, replay_commit happly, replay_nil]
    simp [Savefile.getStoredData, Env.bindString_of_not hkey, hfind, hkey]

/-- The bytes of a value are returned next to those before, and are stored. -/
def Interpreter.Stores (rt : Interpreter) (env : Env) (db : Savefile) (m : SetMessage) (v : Json) :
    Prop :=
  ∃ b, rt.marshal v = some b ∧
    ((updateDataStorage rt env m).run db).result = .ok (db.getStoredData env m.key, b) ∧
    ((updateDataStorage rt env m).final db).getStoredData env m.key = some b

/-- What is returned is what is evaluated, and it is stored under a key that is
not bound as NULL. -/
theorem stores_iff (hkey : readOnlyKeyPrefix.isPrefixOf m.key = false) :
    rt.Stores env db m v ↔ (∃ b, rt.marshal v = some b ∧
      rt.evaluate (db.getStoredData env m.key) m = .ok b) ∧ ¬ env.BindsNull m.key := by
  cases heval : rt.evaluate (db.getStoredData env m.key) m with
  | error e =>
    rw [Interpreter.Stores, run_updateDataStorage_error hkey heval]
    simp
  | ok newBytes =>
    have hrun := run_updateDataStorage_ok hkey heval
    have hfinal : (updateDataStorage rt env m).final db =
        (setStoredData env m.key newBytes : Handler Unit).final db := by
      rw [Proc.final, hrun]
      rfl
    rw [Interpreter.Stores, hfinal, hrun]
    constructor
    · rintro ⟨b, hb, hres, hstored⟩
      cases hres
      exact ⟨⟨_, hb, rfl⟩, (getStoredData_setStoredData (rt.marshal_ne_nil v _ hb)).mp hstored⟩
    · rintro ⟨⟨b, hb, hnew⟩, hnull⟩
      cases hnew
      exact ⟨_, hb, rfl, (getStoredData_setStoredData (rt.marshal_ne_nil v _ hb)).mpr hnull⟩

/-- The value of the fold is stored if it has an encoding, its key is not bound
as NULL, there is an operation or null to store, and no `default` comes late
for a missing key. The first three are needed. -/
theorem updateDataStorage_stores (hkey : readOnlyKeyPrefix.isPrefixOf m.key = false)
    (hv : rt.folded (db.getStoredData env m.key) m = some v) :
    (rt.Stores env db m v → rt.marshal v ≠ none ∧ ¬ env.BindsNull m.key ∧
      (m.operations = [] → rt.marshal v = rt.marshal .null)) ∧
    (rt.marshal v ≠ none → ¬ env.BindsNull m.key →
      (m.operations = [] → rt.marshal v = rt.marshal .null) →
      db.getStoredData env m.key ≠ none ∨ ¬ LateDefault m.operations → rt.Stores env db m v) := by
  -- what is returned is what is evaluated; the rest is about the evaluation
  rw [stores_iff hkey]
  constructor
  · rintro ⟨⟨b, hb, heval⟩, hnull⟩
    refine ⟨by simp [hb], hnull, fun hops => ?_⟩
    rw [hb, (evaluate_nil hv hops).mp heval]
  · intro hmarshal hnull hnil hlate
    obtain ⟨b, hb⟩ := Option.ne_none_iff_exists'.mp hmarshal
    refine ⟨⟨b, hb, ?_⟩, hnull⟩
    by_cases hops : m.operations = []
    · exact (evaluate_nil hv hops).mpr ((hnil hops).symm.trans hb)
    · exact evaluate_of_fold hv hb hops hlate

/-- An interpreter for null and the booleans. -/
def sampleInterpreter : Interpreter where
  unmarshal b :=
    if b = lit "null" then some .null
    else if b = lit "true" then some (.bool true)
    else if b = lit "false" then some (.bool false)
    else none
  marshal
    | .null => some (lit "null")
    | .bool true => some (lit "true")
    | .bool false => some (lit "false")
    | _ => none
  marshal_ne_nil v b h := by
    cases v with
    | null => cases h; decide
    | bool x => cases x <;> cases h <;> decide
    | _ => cases h
  arith _ _ _ := none
  truncate _ := 0
  spare _ _ := 0

/-- A savefile with one stored value. -/
def storedTrue : Savefile :=
  ⟨⟨.empty _, [], .empty _, .empty _⟩, .empty _, .empty _, .empty _, [],
    ⟨[⟨lit "k", lit "true"⟩], by simp⟩⟩

theorem updateDataStorage_stores_sample :
    sampleInterpreter.Stores (.inOrder false) storedTrue
      ⟨lit "k", .null, false, [⟨lit "default", .null⟩, ⟨lit "replace", .bool false⟩]⟩
      (.bool false) :=
  (updateDataStorage_stores (by decide) rfl).2 (by decide) (by decide) (fun h => by cases h)
    (.inl (by decide))

/-- Without operations a stored value is lost, and a `default` after a `replace`
brings the default of the message back. -/
theorem updateDataStorage_forgets :
    (sampleInterpreter.folded (some (lit "true")) ⟨lit "k", .null, false, []⟩ =
        some (.bool true) ∧
      ¬ sampleInterpreter.Stores (.inOrder false) storedTrue ⟨lit "k", .null, false, []⟩
        (.bool true)) ∧
      sampleInterpreter.folded none
          ⟨lit "new", .null, false, [⟨lit "replace", .bool true⟩, ⟨lit "default", .null⟩]⟩ =
        some (.bool true) ∧
      ¬ sampleInterpreter.Stores (.inOrder false) storedTrue
        ⟨lit "new", .null, false, [⟨lit "replace", .bool true⟩, ⟨lit "default", .null⟩]⟩
        (.bool true) := by
  refine ⟨⟨rfl, ?_⟩, rfl, ?_⟩
  · rintro ⟨b, hb, hres, -⟩
    cases hb
    exact absurd hres (by decide)
  · rintro ⟨b, hb, hres, -⟩
    cases hb
    exact absurd hres (by decide)

end Store

end Isthmus
