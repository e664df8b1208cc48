import Isthmus.Pickle.Machine
import Mathlib.Algebra.Order.Ring.Nat

/-!
# Programs of the pickle machine

An instruction is an opcode with its argument, and has more than one encoding
where the argument can have more than one width. Running a program does to the
state what the machine does with any encoding of it.

## Main definitions

- `Instr`, `Instr.perform`: the instructions, and what they do to the state
- `Instr.Bytes`: the encodings of an instruction
- `Program`: the encodings of a program
- `Instr.write`: one of the encodings

## Main results

- `exec_program`: the machine runs an encoded program
-/

namespace Isthmus.Pickle

/-- The types of the values that are changed in place. -/
inductive Kind where
  | list
  | dict
  | set
  deriving DecidableEq

def Kind.empty : Kind → Cell
  | .list => .list []
  | .dict => .dict []
  | .set => .set []

inductive Instr where
  | mark
  | none
  | bool (b : Bool)
  | int (n : Int)
  | string (s : GoString)
  | emptyTuple
  | new (k : Kind)
  | tuple
  | tuple1
  | tuple2
  | tuple3
  | memoize
  | get (i : Nat)
  | frame
  | stackGlobal
  | append
  | appends
  | addItems
  | setItem
  | setItems
  | newObj
  deriving DecidableEq

/-- What the instruction does to the state. -/
def Instr.perform : Instr → State → Except Fault State
  | .mark, st => .ok (st.push .mark)
  | .none, st => .ok (st.push .none)
  | .bool b, st => .ok (st.push (.bool b))
  | .int n, st => .ok (st.push (.int n))
  | .string s, st => .ok (st.push (.string s))
  | .emptyTuple, st => .ok (st.push (.tuple []))
  | .new k, st => .ok (st.pushNew k.empty)
  | .tuple, st => st.tuple
  | .tuple1, st => st.tuple1
  | .tuple2, st => st.tuple2
  | .tuple3, st => st.tuple3
  | .memoize, st => st.memoize
  | .get i, st => st.pushMemo i
  | .frame, st => .ok st
  | .stackGlobal, st => st.stackGlobal
  | .append, st => st.append
  | .appends, st => st.appends
  | .addItems, st => st.addItems
  | .setItem, st => st.setItem
  | .setItems, st => st.setItems
  | .newObj, st => st.newObj

/-- The instructions one after the other. -/
def run (code : List Instr) (st : State) : Except Fault State :=
  code.foldlM (fun st i => i.perform st) st

theorem run_append {code code' : List Instr} {st st' : State} (h : run code st = .ok st') :
    run (code ++ code') st = run code' st' := by
  unfold run at *
  rw [List.foldlM_append, h]
  rfl

@[simp] theorem run_cons (i : Instr) (code : List Instr) (st : State) :
    run (i :: code) st = i.perform st >>= run code := rfl

theorem run_singleton {i : Instr} {st st' : State} (h : i.perform st = .ok st') :
    run [i] st = .ok st' := by
  rw [run_cons, h]
  rfl

/-- Frames do nothing. -/
theorem run_filter_frame (code : List Instr) (st : State) :
    run (code.filter (· ≠ .frame)) st = run code st := by
  induction code generalizing st with
  | nil => rfl
  | cons i code ih =>
    -- a frame is the only instruction that is dropped, and it changes nothing
    by_cases hi : i = .frame
    · subst hi
      exact ih st
    · rw [List.filter_cons_of_pos (by simpa using hi), run_cons, run_cons]
      cases i.perform st with
      | error e => rfl
      | ok st' => exact ih st'

/-! ## Encodings -/

/-- The bytes of a number, the low ones first. -/
def littleBytes : (size : Nat) → Nat → List UInt8
  | 0, _ => []
  | size + 1, n => UInt8.ofNat n :: littleBytes size (n / 256)

@[simp] theorem length_littleBytes (size n : Nat) : (littleBytes size n).length = size := by
  induction size generalizing n with
  | zero => rfl
  | succ size ih => rw [littleBytes, List.length_cons, ih]

theorem littleEndian_littleBytes {size n : Nat} (h : n < 256 ^ size) :
    Machine.littleEndian (littleBytes size n) = n := by
  induction size generalizing n with
  | zero =>
    have hn : n = 0 := by simpa using h
    rw [hn]
    rfl
  | succ size ih =>
    -- the low byte is written first, and the rest is a number of one byte less
    have hdiv : n / 256 < 256 ^ size := by
      rw [Nat.div_lt_iff_lt_mul (by decide), ← Nat.pow_succ]
      exact h
    rw [littleBytes, Machine.littleEndian, ih hdiv, UInt8.toNat_ofNat']
    have hmod : n % 2 ^ 8 = n % 256 := rfl
    omega

/-- The encodings of an instruction. A string that is too long to be allocated
is not one that the program can hold. -/
inductive Instr.Bytes : Instr → List UInt8 → Prop
  | mark : Bytes .mark [opcodeMARK]
  | none : Bytes .none [opcodeNONE]
  | newtrue : Bytes (.bool true) [opcodeNEWTRUE]
  | newfalse : Bytes (.bool false) [opcodeNEWFALSE]
  | binint1 {n : Nat} (h : n < 256) : Bytes (.int n) [opcodeBININT1, UInt8.ofNat n]
  | binint2 {n : Nat} (h : n < 65536) : Bytes (.int n) (opcodeBININT2 :: littleBytes 2 n)
  | binint {n : Int} (h : FitsInt32 n) :
    Bytes (.int n) (opcodeBININT :: littleBytes 4 (n % 4294967296).toNat)
  | shortBinunicode {s : GoString} (h : s.length < 256) :
    Bytes (.string s) (opcodeSHORT_BINUNICODE :: UInt8.ofNat s.length :: s)
  | binunicode {s : GoString} (h : s.length < 4294967296) :
    Bytes (.string s) (opcodeBINUNICODE :: (littleBytes 4 s.length ++ s))
  | binunicode8 {s : GoString} (h : s.length ≤ maxAlloc) :
    Bytes (.string s) (opcodeBINUNICODE8 :: (littleBytes 8 s.length ++ s))
  | emptyTuple : Bytes .emptyTuple [opcodeEMPTY_TUPLE]
  | emptyList : Bytes (.new .list) [opcodeEMPTY_LIST]
  | emptyDict : Bytes (.new .dict) [opcodeEMPTY_DICT]
  | emptySet : Bytes (.new .set) [opcodeEMPTY_SET]
  | tuple : Bytes .tuple [opcodeTUPLE]
  | tuple1 : Bytes .tuple1 [opcodeTUPLE1]
  | tuple2 : Bytes .tuple2 [opcodeTUPLE2]
  | tuple3 : Bytes .tuple3 [opcodeTUPLE3]
  | memoize : Bytes .memoize [opcodeMEMOIZE]
  | binget {i : Nat} (h : i < 256) : Bytes (.get i) [opcodeBINGET, UInt8.ofNat i]
  | longBinget {i : Nat} (h : i < 4294967296) :
    Bytes (.get i) (opcodeLONG_BINGET :: littleBytes 4 i)
  | frame {argument : List UInt8} (h : argument.length = 8) :
    Bytes .frame (opcodeFRAME :: argument)
  | stackGlobal : Bytes .stackGlobal [opcodeSTACK_GLOBAL]
  | append : Bytes .append [opcodeAPPEND]
  | appends : Bytes .appends [opcodeAPPENDS]
  | addItems : Bytes .addItems [opcodeADDITEMS]
  | setItem : Bytes .setItem [opcodeSETITEM]
  | setItems : Bytes .setItems [opcodeSETITEMS]
  | newobj : Bytes .newObj [opcodeNEWOBJ]
  | reduce : Bytes .newObj [opcodeREDUCE]

/-- The encodings of a program. -/
inductive Program : List Instr → List UInt8 → Prop
  | nil : Program [] []
  | cons {i : Instr} {code : List Instr} {bytes bytes' : List UInt8} (h : i.Bytes bytes)
    (hcode : Program code bytes') : Program (i :: code) (bytes ++ bytes')

/-- An encoding with the arguments of four bytes, where there are arguments. -/
def Instr.write : Instr → List UInt8
  | .mark => [opcodeMARK]
  | .none => [opcodeNONE]
  | .bool b => [if b then opcodeNEWTRUE else opcodeNEWFALSE]
  | .int n => opcodeBININT :: littleBytes 4 (n % 4294967296).toNat
  | .string s => opcodeBINUNICODE :: (littleBytes 4 s.length ++ s)
  | .emptyTuple => [opcodeEMPTY_TUPLE]
  | .new .list => [opcodeEMPTY_LIST]
  | .new .dict => [opcodeEMPTY_DICT]
  | .new .set => [opcodeEMPTY_SET]
  | .tuple => [opcodeTUPLE]
  | .tuple1 => [opcodeTUPLE1]
  | .tuple2 => [opcodeTUPLE2]
  | .tuple3 => [opcodeTUPLE3]
  | .memoize => [opcodeMEMOIZE]
  | .get i => opcodeLONG_BINGET :: littleBytes 4 i
  | .frame => opcodeFRAME :: littleBytes 8 0
  | .stackGlobal => [opcodeSTACK_GLOBAL]
  | .append => [opcodeAPPEND]
  | .appends => [opcodeAPPENDS]
  | .addItems => [opcodeADDITEMS]
  | .setItem => [opcodeSETITEM]
  | .setItems => [opcodeSETITEMS]
  | .newObj => [opcodeNEWOBJ]

/-- Four bytes are enough for the argument. -/
def Instr.Short : Instr → Prop
  | .int n => FitsInt32 n
  | .string s => s.length < 4294967296
  | .get i => i < 4294967296
  | _ => True

instance : DecidablePred Instr.Short
  | .int n => inferInstanceAs (Decidable (FitsInt32 n))
  | .string s => inferInstanceAs (Decidable (s.length < 4294967296))
  | .get i => inferInstanceAs (Decidable (i < 4294967296))
  | .mark | .none | .bool _ | .emptyTuple | .new _ | .tuple | .tuple1 | .tuple2 => .isTrue ⟨⟩
  | .tuple3 | .memoize | .frame | .stackGlobal | .append | .appends => .isTrue ⟨⟩
  | .addItems | .setItem | .setItems | .newObj => .isTrue ⟨⟩

theorem Instr.bytes_write {i : Instr} (h : i.Short) : i.Bytes i.write := by
  cases i with
  | bool b =>
    cases b with
    | true => exact .newtrue
    | false => exact .newfalse
  | int n => exact .binint h
  | string s => exact .binunicode h
  | new k =>
    cases k with
    | list => exact .emptyList
    | dict => exact .emptyDict
    | set => exact .emptySet
  | get i => exact .longBinget h
  | frame => exact .frame (length_littleBytes 8 0)
  | mark => exact .mark
  | none => exact .none
  | emptyTuple => exact .emptyTuple
  | tuple => exact .tuple
  | tuple1 => exact .tuple1
  | tuple2 => exact .tuple2
  | tuple3 => exact .tuple3
  | memoize => exact .memoize
  | stackGlobal => exact .stackGlobal
  | append => exact .append
  | appends => exact .appends
  | addItems => exact .addItems
  | setItem => exact .setItem
  | setItems => exact .setItems
  | newObj => exact .newobj

/-- A program of such instructions has an encoding. -/
theorem program_write {code : List Instr} (h : ∀ i ∈ code, i.Short) :
    Program code (code.flatMap Instr.write) := by
  induction code with
  | nil => exact .nil
  | cons i code ih =>
    obtain ⟨hi, hcode⟩ := List.forall_mem_cons.mp h
    exact .cons (Instr.bytes_write hi) (ih hcode)

/-! ## Running the bytes -/

section Exec

variable {st st' : State} {src : List UInt8}

theorem step_opcode {opcode : UInt8} {f : Machine → Except Fault Machine} {vm : Machine}
    {argument rest : List UInt8} (hop : opcode ≠ opcodeSTOP)
    (hf : instructions.lookup opcode = some f) (hvm : f ⟨st, argument ++ rest, ample⟩ = .ok vm) :
    Machine.step ⟨st, opcode :: argument ++ rest, ample⟩ = .inr vm :=
  step_eq_inr.mpr ⟨opcode, _, f, rfl, hop, hf, hvm⟩

theorem plain_ok {f : State → Except Fault State} (h : f st = .ok st') :
    Machine.plain ⟨st, src, ample⟩ f = .ok ⟨st', src, ample⟩ := by
  simp only [Machine.plain, h]
  rfl

theorem readFull_append (bytes rest : List UInt8) :
    Machine.readFull ⟨st, bytes ++ rest, ample⟩ bytes.length = .ok (bytes, ⟨st, rest, ample⟩) := by
  simp [Machine.readFull]

theorem readUint_append {size n : Nat} (h : n < 256 ^ size) (rest : List UInt8) :
    Machine.readUint ⟨st, littleBytes size n ++ rest, ample⟩ size = .ok (n, ⟨st, rest, ample⟩) := by
  have hread : Machine.readFull ⟨st, littleBytes size n ++ rest, ample⟩
      (littleBytes size n).length = .ok (littleBytes size n, ⟨st, rest, ample⟩) :=
    readFull_append _ rest
  rw [length_littleBytes] at hread
  simp only [Machine.readUint, hread]
  exact congrArg (fun n => Except.ok (n, Machine.mk st rest ample)) (littleEndian_littleBytes h)

theorem pushString_append {s : GoString} (h : s.length ≤ maxAlloc) (rest : List UInt8) :
    Machine.pushString ⟨st, s ++ rest, ample⟩ s.length =
      .ok ⟨st.push (.string s), rest, ample⟩ := by
  have hlong : ¬ 0x8000000000000000 ≤ s.length := by
    unfold maxAlloc at h
    omega
  have hroom : ¬ample st < s.length := Nat.not_lt.mpr h
  rw [Machine.pushString, if_neg hlong, if_neg hroom, readFull_append]
  rfl

theorem toNat_ofNat {n : Nat} (h : n < 256) : (UInt8.ofNat n).toNat = n := by
  rw [UInt8.toNat_ofNat']
  exact Nat.mod_eq_of_lt h

theorem toInt32_emod {n : Int} (h : FitsInt32 n) :
    toInt32 ((n % 4294967296).toNat : Int) = n := by
  have hpos : 0 ≤ n % 4294967296 := Int.emod_nonneg n (by decide)
  rw [Int.toNat_of_nonneg hpos]
  exact (Int.emod_bmod n 4294967296).trans (toInt32_of_fits h)

/-- One step of the machine reads one instruction and performs it. -/
theorem step_bytes {i : Instr} {bytes : List UInt8} (h : i.Bytes bytes)
    (hst : i.perform st = .ok st') (rest : List UInt8) :
    Machine.step ⟨st, bytes ++ rest, ample⟩ = .inr ⟨st', rest, ample⟩ := by
  cases h with
  | @binint1 n h =>
    refine step_opcode (f := Machine.binint1) (by decide) rfl ?_
    cases hst
    show Machine.pushing _ (.int (UInt8.ofNat n).toNat) = _
    rw [toNat_ofNat h]
    rfl
  | @binint2 n h =>
    refine step_opcode (f := Machine.binint2) (by decide) rfl ?_
    cases hst
    rw [Machine.binint2, readUint_append (by omega)]
    rfl
  | @binint n h =>
    refine step_opcode (f := Machine.binint) (by decide) rfl ?_
    cases hst
    rw [Machine.binint, readUint_append (by omega)]
    show Machine.pushing _ (.int (toInt32 (n % 4294967296).toNat)) = _
    rw [toInt32_emod h]
    rfl
  | @shortBinunicode s h =>
    refine step_opcode (f := Machine.shortBinunicode) (by decide) rfl ?_
    cases hst
    show Machine.pushString _ (UInt8.ofNat s.length).toNat = _
    rw [toNat_ofNat h]
    exact pushString_append (by unfold maxAlloc; omega) rest
  | @binunicode s h =>
    refine step_opcode (f := Machine.binunicode) (by decide) rfl ?_
    cases hst
    rw [Machine.binunicode, List.append_assoc, readUint_append (by omega)]
    exact pushString_append (by unfold maxAlloc; omega) rest
  | @binunicode8 s h =>
    refine step_opcode (f := Machine.binunicode8) (by decide) rfl ?_
    cases hst
    have hlt : s.length < 256 ^ 8 := by
      unfold maxAlloc at h
      omega
    rw [Machine.binunicode8, List.append_assoc, readUint_append hlt]
    exact pushString_append h rest
  | @binget i h =>
    refine step_opcode (f := Machine.binGet) (by decide) rfl ?_
    show Machine.plain _ (fun st => st.pushMemo (UInt8.ofNat i).toNat) = _
    rw [toNat_ofNat h]
    exact plain_ok hst
  | @longBinget i h =>
    refine step_opcode (f := Machine.longBinGet) (by decide) rfl ?_
    rw [Machine.longBinGet, readUint_append (by omega)]
    exact plain_ok hst
  | @frame argument h =>
    refine step_opcode (f := Machine.frame) (by decide) rfl ?_
    cases hst
    rw [Machine.frame, ← h, readFull_append]
    rfl
  -- every other instruction has no argument
  | _ => exact step_opcode (by decide) rfl (plain_ok hst)

/-- The machine runs a program, and goes on behind it. -/
theorem exec_program {code : List Instr} {bytes : List UInt8} (h : Program code bytes)
    (hrun : run code st = .ok st') (rest : List UInt8) :
    exec ⟨st, bytes ++ rest, ample⟩ = exec ⟨st', rest, ample⟩ := by
  induction h generalizing st with
  | nil =>
    cases hrun
    rfl
  | @cons i code bytes bytes' hi _ ih =>
    obtain ⟨st₁, hst₁, hrest⟩ := bind_eq_ok.mp hrun
    rw [List.append_assoc, ← ih hrest]
    exact Loop.run_next (step_bytes hi hst₁ _)

theorem exec_stop (st : State) (rest : List UInt8) :
    exec ⟨st, opcodeSTOP :: rest, ample⟩ = st.stop :=
  Loop.run_stop rfl

end Exec

end Isthmus.Pickle
