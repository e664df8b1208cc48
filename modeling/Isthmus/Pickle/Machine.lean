import Isthmus.Go.Values
import Isthmus.Lib.Loops

/-!
# The pickle machine

The machine reads opcodes from a byte stream and works on a stack, a memo and
the lists, dicts and sets that were made. These are changed in place, so the
stack and the memo hold references to them; everything else is a plain value.

## Main definitions

- `Value`, `Cell`: what is on the stack, and what the references point to
- `Machine`: the machine, with the bytes that it has not read
- `instructions`: what each opcode does
- `exec`: the loop over the opcodes
-/

namespace Isthmus.Pickle

def opcodeMARK : UInt8 := 0x28
def opcodeEMPTY_TUPLE : UInt8 := 0x29
def opcodeSTOP : UInt8 := 0x2e
def opcodeBININT : UInt8 := 0x4a
def opcodeBININT1 : UInt8 := 0x4b
def opcodeBININT2 : UInt8 := 0x4d
def opcodeNONE : UInt8 := 0x4e
def opcodeBINUNICODE : UInt8 := 0x58
def opcodeREDUCE : UInt8 := 0x52
def opcodeEMPTY_LIST : UInt8 := 0x5d
def opcodeAPPEND : UInt8 := 0x61
def opcodeAPPENDS : UInt8 := 0x65
def opcodeBINGET : UInt8 := 0x68
def opcodeLONG_BINGET : UInt8 := 0x6a
def opcodeSETITEM : UInt8 := 0x73
def opcodeTUPLE : UInt8 := 0x74
def opcodeSETITEMS : UInt8 := 0x75
def opcodeEMPTY_DICT : UInt8 := 0x7d
def opcodeNEWOBJ : UInt8 := 0x81
def opcodeTUPLE1 : UInt8 := 0x85
def opcodeTUPLE2 : UInt8 := 0x86
def opcodeTUPLE3 : UInt8 := 0x87
def opcodeNEWTRUE : UInt8 := 0x88
def opcodeNEWFALSE : UInt8 := 0x89
def opcodeSHORT_BINUNICODE : UInt8 := 0x8c
def opcodeBINUNICODE8 : UInt8 := 0x8d
def opcodeEMPTY_SET : UInt8 := 0x8f
def opcodeADDITEMS : UInt8 := 0x90
def opcodeSTACK_GLOBAL : UInt8 := 0x93
def opcodeMEMOIZE : UInt8 := 0x94
def opcodeFRAME : UInt8 := 0x95

/-! ## Values -/

/-- An `any` of the machine. A list, a dict and a set are references. -/
inductive Value where
  | none
  | bool (b : Bool)
  | int (n : Int)
  | string (s : GoString)
  | mark
  | symbol (module attr : GoString)
  | tuple (items : List Value)
  | object (cls : Value) (arguments : List Value)
  | ref (r : Nat)

/-- What a reference points to. -/
inductive Cell where
  | list (items : List Value)
  | dict (items : List (Value × Value))
  | set (items : List Value)

/-- The lists, dicts and sets by their references. -/
abbrev Heap := List Cell

/-- Why the machine stopped without a value. -/
inductive Fault where
  | eof
  | emptyStack
  | stringTooLong
  | unexpectedMarkArg
  | unpairedKey
  | memoIndex (i memoSize : Nat)
  | unexpectedType (v : Value)
  | invalidOpcode (opcode : UInt8)
  | valuesLeft (count : Nat)
  -- the process does not go on
  | panic

mutual

/-- `a == b`, for values that can be compared. -/
def Value.equals : Value → Value → Bool
  | .none, .none => true
  | .bool a, .bool b => a == b
  | .int a, .int b => a == b
  | .string a, .string b => a == b
  | .mark, .mark => true
  | .symbol module attr, .symbol module' attr' => module == module' && attr == attr'
  | .tuple items, .tuple items' => Value.equalsAll items items'
  | .object cls arguments, .object cls' arguments' =>
    cls.equals cls' && Value.equalsAll arguments arguments'
  | .ref r, .ref r' => r == r'
  | _, _ => false

def Value.equalsAll : List Value → List Value → Bool
  | [], [] => true
  | a :: l, b :: l' => a.equals b && Value.equalsAll l l'
  | _, _ => false

end

mutual

theorem Value.equals_iff : ∀ a b : Value, a.equals b = true ↔ a = b
  | .none, b | .mark, b => by cases b <;> simp [Value.equals]
  | .bool _, b | .int _, b | .string _, b | .symbol _ _, b | .ref _, b => by
    cases b <;> simp [Value.equals]
  | .tuple items, b => by
    cases b with
    | tuple items' => simp [Value.equals, Value.equalsAll_iff items items']
    | _ => simp [Value.equals]
  | .object cls arguments, b => by
    cases b with
    | object cls' arguments' =>
      simp [Value.equals, Value.equals_iff cls cls', Value.equalsAll_iff arguments arguments']
    | _ => simp [Value.equals]

theorem Value.equalsAll_iff : ∀ l l' : List Value, Value.equalsAll l l' = true ↔ l = l'
  | [], l' => by cases l' <;> simp [Value.equalsAll]
  | a :: l, l' => by
    cases l' with
    | nil => simp [Value.equalsAll]
    | cons b l' => simp [Value.equalsAll, Value.equals_iff a b, Value.equalsAll_iff l l']

end

instance : DecidableEq Value := fun a b => decidable_of_iff _ (a.equals_iff b)

mutual

/-- The value can be hashed: a list is a pointer, but a dict and a set are not. -/
def Heap.hashable (heap : Heap) : Value → Bool
  | .ref r =>
    match heap[r]? with
    | some (.list _) => true
    | _ => false
  | .tuple items => Heap.hashableAll heap items
  | .object cls arguments => Heap.hashable heap cls && Heap.hashableAll heap arguments
  | _ => true

def Heap.hashableAll (heap : Heap) : List Value → Bool
  | [] => true
  | v :: l => Heap.hashable heap v && Heap.hashableAll heap l

end

def Value.isMark : Value → Bool
  | .mark => true
  | _ => false

/-! ## The stack -/

/-- The machine without its source. The top of the stack is its head. -/
structure State where
  stack : List Value
  memo : List Value
  heap : Heap

namespace State

variable (vm : State)

def push (v : Value) : State := { vm with stack := v :: vm.stack }

def pop : Except Fault (Value × State) :=
  match vm.stack with
  | [] => .error .emptyStack
  | v :: stack =>
    if v.isMark then .error .unexpectedMarkArg else .ok (v, { vm with stack := stack })

/-- The values above the mark, from the bottom to the top. -/
def popUntilMark : Except Fault (List Value × State) :=
  match vm.stack.dropWhile (fun v => !v.isMark) with
  | [] => .error .emptyStack
  | _ :: stack =>
    .ok ((vm.stack.takeWhile fun v => !v.isMark).reverse, { vm with stack := stack })

def peek : Except Fault Value :=
  match vm.stack with
  | [] => .error .emptyStack
  | v :: _ => .ok v

/-- Push a reference to a new list, dict or set. -/
def pushNew (c : Cell) : State :=
  { vm with stack := .ref vm.heap.length :: vm.stack, heap := vm.heap ++ [c] }

/-- The cell that a value refers to. -/
def cell (v : Value) : Option (Nat × Cell) :=
  match v with
  | .ref r => vm.heap[r]?.map fun c => (r, c)
  | _ => none

/-! ## The instructions -/

def memoize : Except Fault State :=
  match vm.stack with
  | [] => .error .emptyStack
  | v :: _ => .ok { vm with memo := vm.memo ++ [v] }

def pushMemo (i : Nat) : Except Fault State :=
  match vm.memo[i]? with
  | none => .error (.memoIndex i vm.memo.length)
  | some v => .ok (vm.push v)

def stackGlobal : Except Fault State := do
  let (v, vm) ← vm.pop
  match v with
  | .string attr =>
    let (v, vm) ← vm.pop
    match v with
    | .string module => .ok (vm.push (.symbol module attr))
    | v => .error (.unexpectedType v)
  | v => .error (.unexpectedType v)

def tuple : Except Fault State := do
  let (items, vm) ← vm.popUntilMark
  .ok (vm.push (.tuple items))

def tuple1 : Except Fault State := do
  let (v1, vm) ← vm.pop
  .ok (vm.push (.tuple [v1]))

def tuple2 : Except Fault State := do
  let (v2, vm) ← vm.pop
  let (v1, vm) ← vm.pop
  .ok (vm.push (.tuple [v1, v2]))

def tuple3 : Except Fault State := do
  let (v3, vm) ← vm.pop
  let (v2, vm) ← vm.pop
  let (v1, vm) ← vm.pop
  .ok (vm.push (.tuple [v1, v2, v3]))

/-- `*list = append(*list, items...)` for the list at the top. -/
def appendItems (items : List Value) : Except Fault State := do
  let target ← vm.peek
  match vm.cell target with
  | some (r, .list l) => .ok { vm with heap := vm.heap.set r (.list (l ++ items)) }
  | _ => .error (.unexpectedType target)

def append : Except Fault State := do
  let (item, vm) ← vm.pop
  vm.appendItems [item]

def appends : Except Fault State := do
  let (items, vm) ← vm.popUntilMark
  vm.appendItems items

/-- `set[item] = struct{}{}`. -/
def addItem (heap : Heap) (l : List Value) (item : Value) : Except Fault (List Value) :=
  if heap.hashable item then .ok (if l.any item.equals then l else l ++ [item]) else .error .panic

def addItems : Except Fault State := do
  let (items, vm) ← vm.popUntilMark
  let target ← vm.peek
  match vm.cell target with
  | some (r, .set l) =>
    let l' ← items.foldlM (addItem vm.heap) l
    .ok { vm with heap := vm.heap.set r (.set l') }
  | _ => .error (.unexpectedType target)

def checkDictKey : Value → Except Fault Unit
  | .int _ | .string _ | .bool _ | .tuple _ => .ok ()
  | v => .error (.unexpectedType v)

/-- `dict[key] = value`. -/
def assign (heap : Heap) (l : List (Value × Value)) (key value : Value) :
    Except Fault (List (Value × Value)) :=
  if heap.hashable key then
    -- a key that is there stays as it is, with the new value
    .ok (if l.any fun e => key.equals e.1 then
        l.map fun e => if key.equals e.1 then (e.1, value) else e
      else l ++ [(key, value)])
  else .error .panic

def setItem : Except Fault State := do
  let (value, vm) ← vm.pop
  let (key, vm) ← vm.pop
  checkDictKey key
  let target ← vm.peek
  match vm.cell target with
  | some (r, .dict l) =>
    let l' ← assign vm.heap l key value
    .ok { vm with heap := vm.heap.set r (.dict l') }
  | _ => .error (.unexpectedType target)

/-- The loop over the keys and values of `setItems`. -/
def assignAll (heap : Heap) : List (Value × Value) → List Value →
    Except Fault (List (Value × Value))
  | l, key :: value :: kvps => do
    checkDictKey key
    let l' ← assign heap l key value
    assignAll heap l' kvps
  | l, _ => .ok l

def setItems : Except Fault State := do
  let (kvps, vm) ← vm.popUntilMark
  -- the keys are checked one by one, but their number before any of them
  if kvps.length % 2 ≠ 0 then .error .unpairedKey
  else
    let target ← vm.peek
    match vm.cell target with
    | some (r, .dict l) =>
      let l' ← assignAll vm.heap l kvps
      .ok { vm with heap := vm.heap.set r (.dict l') }
    | _ => .error (.unexpectedType target)

/-- NEWOBJ and REDUCE. -/
def newObj : Except Fault State := do
  let (v, vm) ← vm.pop
  match v with
  | .tuple args =>
    let (cls, vm) ← vm.pop
    .ok (vm.push (.object cls args))
  | v => .error (.unexpectedType v)

/-- The value at the top, with the heap that it refers to. -/
def stop : Except Fault (Value × Heap) := do
  let (v, vm) ← vm.pop
  match vm.stack with
  | [] => .ok (v, vm.heap)
  | stack => .error (.valuesLeft stack.length)

end State

/-! ## Reading -/

/-- The machine, and the Go runtime that it runs on: the longest buffer that there is
memory for, by what is held already. -/
structure Machine extends State where
  src : List UInt8
  memory : State → Nat

/-- The most bytes that an allocation can have, however much memory there is. -/
def maxAlloc : Nat := 0x1000000000000

/-- A runtime that is never out of memory. -/
def ample : State → Nat := fun _ => maxAlloc

namespace Machine

variable (vm : Machine)

/-- An instruction without an argument. -/
def plain (f : State → Except Fault State) : Except Fault Machine := do
  let st ← f vm.toState
  .ok { vm with toState := st }

def pushing (v : Value) : Except Fault Machine := vm.plain fun st => .ok (st.push v)

def readByte : Except Fault (UInt8 × Machine) :=
  match vm.src with
  | [] => .error .eof
  | b :: src => .ok (b, { vm with src := src })

/-- `io.ReadFull` and `io.CopyN`. -/
def readFull (n : Nat) : Except Fault (List UInt8 × Machine) :=
  if n ≤ vm.src.length then .ok (vm.src.take n, { vm with src := vm.src.drop n })
  else .error .eof

/-- `binary.LittleEndian`. -/
def littleEndian : List UInt8 → Nat
  | [] => 0
  | b :: bs => b.toNat + 256 * littleEndian bs

/-- `readUint16`, `readUint32` and `readUint64`, by their sizes. -/
def readUint (size : Nat) : Except Fault (Nat × Machine) := do
  let (bytes, vm) ← vm.readFull size
  .ok (littleEndian bytes, vm)

def frame : Except Fault Machine := do
  -- the argument is not used for anything
  let (_, vm) ← vm.readFull 8
  .ok vm

def binGet : Except Fault Machine := do
  let (b, vm) ← vm.readByte
  vm.plain fun st => st.pushMemo b.toNat

def longBinGet : Except Fault Machine := do
  let (i, vm) ← vm.readUint 4
  vm.plain fun st => st.pushMemo i

/-- A buffer is allocated before its bytes are read. -/
def pushString (n : Nat) : Except Fault Machine :=
  -- it would not fit in an `int64`
  if 0x8000000000000000 ≤ n then .error .stringTooLong
  -- `Grow` panics, or the runtime is out of memory and ends the process
  else if vm.memory vm.toState < n then .error .panic
  else do
    let (s, vm) ← vm.readFull n
    vm.pushing (.string s)

def shortBinunicode : Except Fault Machine := do
  let (size, vm) ← vm.readByte
  vm.pushString size.toNat

def binunicode : Except Fault Machine := do
  let (n, vm) ← vm.readUint 4
  vm.pushString n

def binunicode8 : Except Fault Machine := do
  let (n, vm) ← vm.readUint 8
  vm.pushString n

def binint : Except Fault Machine := do
  let (n, vm) ← vm.readUint 4
  vm.pushing (.int (toInt32 n))

def binint1 : Except Fault Machine := do
  let (n, vm) ← vm.readByte
  vm.pushing (.int n.toNat)

def binint2 : Except Fault Machine := do
  let (n, vm) ← vm.readUint 2
  vm.pushing (.int n)

end Machine

/-! ## The loop -/

/-- What each opcode does, except STOP. -/
def instructions : List (UInt8 × (Machine → Except Fault Machine)) :=
  [(opcodeMARK, fun vm => vm.pushing .mark),
    (opcodeEMPTY_DICT, fun vm => vm.plain fun st => .ok (st.pushNew (.dict []))),
    (opcodeEMPTY_LIST, fun vm => vm.plain fun st => .ok (st.pushNew (.list []))),
    (opcodeEMPTY_TUPLE, fun vm => vm.pushing (.tuple [])),
    (opcodeEMPTY_SET, fun vm => vm.plain fun st => .ok (st.pushNew (.set []))),
    (opcodeNONE, fun vm => vm.pushing .none),
    (opcodeNEWTRUE, fun vm => vm.pushing (.bool true)),
    (opcodeNEWFALSE, fun vm => vm.pushing (.bool false)),
    (opcodeTUPLE, fun vm => vm.plain State.tuple),
    (opcodeTUPLE1, fun vm => vm.plain State.tuple1),
    (opcodeTUPLE2, fun vm => vm.plain State.tuple2),
    (opcodeTUPLE3, fun vm => vm.plain State.tuple3),
    (opcodeMEMOIZE, fun vm => vm.plain State.memoize),
    (opcodeBINGET, Machine.binGet),
    (opcodeLONG_BINGET, Machine.longBinGet),
    (opcodeFRAME, Machine.frame),
    (opcodeSHORT_BINUNICODE, Machine.shortBinunicode),
    (opcodeBINUNICODE, Machine.binunicode),
    (opcodeBINUNICODE8, Machine.binunicode8),
    (opcodeBININT, Machine.binint),
    (opcodeBININT1, Machine.binint1),
    (opcodeBININT2, Machine.binint2),
    (opcodeSTACK_GLOBAL, fun vm => vm.plain State.stackGlobal),
    (opcodeAPPEND, fun vm => vm.plain State.append),
    (opcodeAPPENDS, fun vm => vm.plain State.appends),
    (opcodeADDITEMS, fun vm => vm.plain State.addItems),
    (opcodeSETITEM, fun vm => vm.plain State.setItem),
    (opcodeSETITEMS, fun vm => vm.plain State.setItems),
    -- no Python object is ever made, so that these two do the same
    (opcodeREDUCE, fun vm => vm.plain State.newObj),
    (opcodeNEWOBJ, fun vm => vm.plain State.newObj)]

/-- The body of the loop: the result, or the machine to go on with. -/
def Machine.step (vm : Machine) : Except Fault (Value × Heap) ⊕ Machine :=
  match vm.readByte with
  | .error e => .inl (.error e)
  | .ok (opcode, vm) =>
    if opcode = opcodeSTOP then .inl vm.stop
    else
      match instructions.lookup opcode with
      | none => .inl (.error (.invalidOpcode opcode))
      | some f =>
        match f vm with
        | .error e => .inl (.error e)
        | .ok vm => .inr vm

/-! ## Termination -/

section Termination

theorem bind_eq_ok {ε α β : Type} {x : Except ε α} {f : α → Except ε β} {b : β} :
    x >>= f = .ok b ↔ ∃ a, x = .ok a ∧ f a = .ok b := by
  cases x with
  | error e =>
    constructor
    · intro h
      cases h
    · rintro ⟨a, ha, -⟩
      cases ha
  | ok a =>
    constructor
    · intro h
      exact ⟨a, rfl, h⟩
    · rintro ⟨a', ha', h⟩
      cases ha'
      exact h

/-- The instruction only reads from its source. -/
def Reads (f : Machine → Except Fault Machine) : Prop :=
  ∀ vm vm', f vm = .ok vm' → vm'.src.length ≤ vm.src.length

variable {vm vm' : Machine}

theorem readByte_ok {b : UInt8} (h : vm.readByte = .ok (b, vm')) :
    vm'.src.length + 1 = vm.src.length := by
  unfold Machine.readByte at h
  split at h
  · cases h
  · next b' src hsrc =>
    cases h
    rw [hsrc]
    rfl

theorem readFull_ok {n : Nat} {bytes : List UInt8} (h : vm.readFull n = .ok (bytes, vm')) :
    vm'.src.length ≤ vm.src.length := by
  unfold Machine.readFull at h
  split at h
  · cases h
    simp
  · cases h

theorem readUint_ok {size n : Nat} (h : vm.readUint size = .ok (n, vm')) :
    vm'.src.length ≤ vm.src.length := by
  obtain ⟨⟨bytes, vm₁⟩, hread, hret⟩ := bind_eq_ok.mp h
  cases hret
  exact readFull_ok hread

theorem reads_plain (f : State → Except Fault State) : Reads fun vm => vm.plain f := by
  intro vm vm' h
  obtain ⟨st, -, hst⟩ := bind_eq_ok.mp h
  cases hst
  exact Nat.le_refl _

theorem reads_pushString (n : Nat) : Reads fun vm => vm.pushString n := by
  intro vm vm' h
  simp only [Machine.pushString] at h
  split at h
  · cases h
  · split at h
    · cases h
    · obtain ⟨⟨s, vm₁⟩, hread, hpush⟩ := bind_eq_ok.mp h
      exact Nat.le_trans (reads_plain _ vm₁ vm' hpush) (readFull_ok hread)

theorem reads_readByte {f : UInt8 × Machine → Except Fault Machine}
    (hf : ∀ b, Reads fun vm => f (b, vm)) : Reads fun vm => vm.readByte >>= f := by
  intro vm vm' h
  obtain ⟨⟨b, vm₁⟩, hread, hrest⟩ := bind_eq_ok.mp h
  have hle : vm'.src.length ≤ vm₁.src.length := hf b vm₁ vm' hrest
  have hlt := readByte_ok hread
  omega

theorem reads_readUint {size : Nat} {f : Nat × Machine → Except Fault Machine}
    (hf : ∀ n, Reads fun vm => f (n, vm)) : Reads fun vm => vm.readUint size >>= f := by
  intro vm vm' h
  obtain ⟨⟨n, vm₁⟩, hread, hrest⟩ := bind_eq_ok.mp h
  exact Nat.le_trans (hf n vm₁ vm' hrest) (readUint_ok hread)

theorem reads_instructions : ∀ p ∈ instructions, Reads p.2 := by
  unfold instructions
  simp only [List.forall_mem_cons]
  refine ⟨reads_plain _, reads_plain _, reads_plain _, reads_plain _, reads_plain _, reads_plain _,
    reads_plain _, reads_plain _, reads_plain _, reads_plain _, reads_plain _, reads_plain _,
    reads_plain _, reads_readByte fun b => reads_plain _, reads_readUint fun i => reads_plain _, ?_,
    reads_readByte fun size => reads_pushString _, reads_readUint reads_pushString,
    reads_readUint reads_pushString, reads_readUint fun n => reads_plain _,
    reads_readByte fun n => reads_plain _, reads_readUint fun n => reads_plain _, reads_plain _,
    reads_plain _, reads_plain _, reads_plain _, reads_plain _, reads_plain _, reads_plain _,
    reads_plain _, by simp⟩
  intro vm vm' h
  obtain ⟨⟨bytes, vm₁⟩, hread, hret⟩ := bind_eq_ok.mp h
  cases hret
  exact readFull_ok hread

theorem mem_instructions {opcode : UInt8} {f : Machine → Except Fault Machine}
    (h : instructions.lookup opcode = some f) : (opcode, f) ∈ instructions := by
  obtain ⟨l₁, l₂, hl, -⟩ := List.lookup_eq_some_iff.mp h
  rw [hl]
  exact List.mem_append_right _ List.mem_cons_self

/-- The machine goes on exactly after an instruction that succeeds. -/
theorem step_eq_inr : vm.step = .inr vm' ↔ ∃ opcode vm₁ f, vm.readByte = .ok (opcode, vm₁) ∧
    opcode ≠ opcodeSTOP ∧ instructions.lookup opcode = some f ∧ f vm₁ = .ok vm' := by
  constructor
  · intro h
    unfold Machine.step at h
    split at h
    · cases h
    · next opcode vm₁ hread =>
      split at h
      · cases h
      · next hstop =>
        split at h
        · cases h
        · next f hf =>
          split at h
          · cases h
          · next vm₂ hvm₂ =>
            cases h
            exact ⟨opcode, vm₁, f, hread, hstop, hf, hvm₂⟩
  · rintro ⟨opcode, vm₁, f, hread, hstop, hf, hvm'⟩
    simp only [Machine.step, hread, if_neg hstop, hf, hvm']

/-- It ends with a value only at STOP. -/
theorem stop_of_step {result : Value × Heap} (h : vm.step = .inl (.ok result)) :
    ∃ vm₁, vm.readByte = .ok (opcodeSTOP, vm₁) ∧ vm₁.stop = .ok result := by
  unfold Machine.step at h
  split at h
  · cases h
  · next opcode vm₁ hread =>
    split at h
    · next hstop => exact ⟨vm₁, hstop ▸ hread, Sum.inl.inj h⟩
    · split at h
      · cases h
      · split at h <;> cases h

/-- Each step reads its opcode at least. -/
theorem step_src_lt (h : vm.step = .inr vm') : vm'.src.length < vm.src.length := by
  obtain ⟨opcode, vm₁, f, hread, -, hf, hvm'⟩ := step_eq_inr.mp h
  -- the opcode is gone, and the instruction reads at most what follows it
  have hlt := readByte_ok hread
  have hle := reads_instructions (opcode, f) (mem_instructions hf) vm₁ _ hvm'
  omega

end Termination

/-- The loop over the opcodes. -/
def execLoop : Loop Machine (Except Fault (Value × Heap)) where
  step := Machine.step
  size vm := vm.src.length
  size_lt _ _ := step_src_lt

/-- The machine before its first opcode. -/
def Machine.startIn (memory : State → Nat) (src : List UInt8) : Machine :=
  ⟨⟨[], [], []⟩, src, memory⟩

/-- With memory for all that the source holds. -/
def Machine.start (src : List UInt8) : Machine := .startIn ample src

/-- The value at STOP, with the lists, dicts and sets that it refers to. -/
def exec (vm : Machine) : Except Fault (Value × Heap) := execLoop.run vm

end Isthmus.Pickle
