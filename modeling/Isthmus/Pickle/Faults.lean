import Isthmus.Pickle.Machine

/-!
# When the pickle machine panics

An error of the machine is a result, a panic is not. Two things can panic: a
string whose buffer cannot be allocated, by whatever memory the runtime has, and a
key or an element that cannot be hashed. `Machine.Granted` says what the instruction
that comes next asks for.

## Main definitions

- `State.ElementsHashable`, `State.KeyHashable`, `State.KeysHashable`: what a set
  and a dict ask for
- `Machine.Granted`: what the next instruction asks for
-/

namespace Isthmus.Pickle

/-! ## Calm results -/

/-- There is a value or an error, but no panic. -/
def Calm {α : Type} (x : Except Fault α) : Prop := x ≠ .error .panic

section Calm

variable {α β : Type}

@[simp] theorem calm_ok (a : α) : Calm (.ok a : Except Fault α) := by simp [Calm]

@[simp] theorem calm_error {e : Fault} : Calm (.error e : Except Fault α) ↔ e ≠ .panic := by
  simp [Calm]

theorem calm_bind {x : Except Fault α} {f : α → Except Fault β} :
    Calm (x >>= f) ↔ Calm x ∧ ∀ a, x = .ok a → Calm (f a) := by
  cases x with
  | error e =>
    refine ⟨fun h => ⟨fun he => ?_, fun a ha => by cases ha⟩, fun h he => ?_⟩
    · cases he
      exact h rfl
    · cases he
      exact h.1 rfl
  | ok a =>
    refine ⟨fun h => ⟨calm_ok a, fun a' ha' => ?_⟩, fun h => h.2 a rfl⟩
    cases ha'
    exact h

/-- The first part of a program is calm. -/
theorem calm_bind_of {x : Except Fault α} {f : α → Except Fault β} (hx : Calm x) :
    Calm (x >>= f) ↔ ∀ a, x = .ok a → Calm (f a) := by
  rw [calm_bind]
  exact and_iff_right hx

theorem Calm.bind {x : Except Fault α} {f : α → Except Fault β} (hx : Calm x)
    (hf : ∀ a, Calm (f a)) : Calm (x >>= f) :=
  calm_bind.mpr ⟨hx, fun a _ => hf a⟩

end Calm

section Stack

variable (vm : State)

theorem calm_pop : Calm vm.pop := by
  unfold State.pop
  split
  · simp
  · split <;> simp

theorem calm_popUntilMark : Calm vm.popUntilMark := by
  unfold State.popUntilMark
  split <;> simp

theorem calm_peek : Calm vm.peek := by
  unfold State.peek
  split <;> simp

theorem calm_memoize : Calm vm.memoize := by
  unfold State.memoize
  split <;> simp

theorem calm_pushMemo (i : Nat) : Calm (vm.pushMemo i) := by
  unfold State.pushMemo
  split <;> simp

theorem calm_stackGlobal : Calm vm.stackGlobal := by
  refine (calm_pop vm).bind ?_
  rintro ⟨v, vm⟩
  cases v with
  | string attr =>
    refine (calm_pop vm).bind ?_
    rintro ⟨v, vm⟩
    cases v <;> simp
  | _ => simp

theorem calm_tuple : Calm vm.tuple := (calm_popUntilMark vm).bind fun _ => calm_ok _

theorem calm_tuple1 : Calm vm.tuple1 := (calm_pop vm).bind fun _ => calm_ok _

theorem calm_tuple2 : Calm vm.tuple2 :=
  (calm_pop vm).bind fun p => (calm_pop p.2).bind fun _ => calm_ok _

theorem calm_tuple3 : Calm vm.tuple3 :=
  (calm_pop vm).bind fun p => (calm_pop p.2).bind fun q => (calm_pop q.2).bind fun _ => calm_ok _

theorem calm_appendItems (items : List Value) : Calm (vm.appendItems items) := by
  refine (calm_peek vm).bind fun target => ?_
  split <;> simp

theorem calm_append : Calm vm.append := (calm_pop vm).bind fun p => calm_appendItems p.2 _

theorem calm_appends : Calm vm.appends :=
  (calm_popUntilMark vm).bind fun p => calm_appendItems p.2 _

theorem calm_newObj : Calm vm.newObj := by
  refine (calm_pop vm).bind ?_
  rintro ⟨v, vm⟩
  cases v with
  | tuple args => exact (calm_pop vm).bind fun _ => calm_ok _
  | _ => simp

theorem calm_stop : Calm vm.stop := by
  refine (calm_pop vm).bind ?_
  rintro ⟨v, vm⟩
  dsimp only
  split <;> simp

end Stack

/-! ## Hashing -/

/-- The keys of a batch, up to one that is refused, can be hashed. -/
def Heap.KeysHashable (heap : Heap) : List Value → Prop
  | key :: _ :: kvps =>
    State.checkDictKey key = .ok () → heap.hashable key = true ∧ Heap.KeysHashable heap kvps
  | _ => True

namespace State

variable (vm : State)

/-- ADDITEMS adds values to a set that can be hashed. -/
def ElementsHashable : Prop :=
  ∀ items vm' target r l, vm.popUntilMark = .ok (items, vm') → vm'.peek = .ok target →
    vm'.cell target = some (r, .set l) → ∀ item ∈ items, vm'.heap.hashable item = true

/-- SETITEM gives a dict a key that is refused or can be hashed. -/
def KeyHashable : Prop :=
  ∀ value vm₁ key vm₂ target r l, vm.pop = .ok (value, vm₁) → vm₁.pop = .ok (key, vm₂) →
    checkDictKey key = .ok () → vm₂.peek = .ok target → vm₂.cell target = some (r, .dict l) →
      vm₂.heap.hashable key = true

/-- SETITEMS gives a dict keys that can be hashed, up to one that is refused. -/
def KeysHashable : Prop :=
  ∀ kvps vm' target r l, vm.popUntilMark = .ok (kvps, vm') → kvps.length % 2 = 0 →
    vm'.peek = .ok target → vm'.cell target = some (r, .dict l) → vm'.heap.KeysHashable kvps

end State

theorem calm_checkDictKey (key : Value) : Calm (State.checkDictKey key) := by
  cases key <;> simp [State.checkDictKey]

theorem calm_addItem {heap : Heap} {l : List Value} {item : Value} :
    Calm (State.addItem heap l item) ↔ heap.hashable item = true := by
  unfold State.addItem
  split
  · next h => simp [h]
  · next h => simp [h]

theorem calm_assign {heap : Heap} {l : List (Value × Value)} {key value : Value} :
    Calm (State.assign heap l key value) ↔ heap.hashable key = true := by
  unfold State.assign
  split
  · next h => simp [h]
  · next h => simp [h]

/-- Every element is hashed, as an element that can be hashed stops nothing. -/
theorem calm_addEach {heap : Heap} {items l : List Value} :
    Calm (items.foldlM (State.addItem heap) l) ↔ ∀ item ∈ items, heap.hashable item = true := by
  induction items generalizing l with
  | nil => simp [pure, Except.pure]
  | cons item items ih =>
    rw [List.foldlM_cons, calm_bind, calm_addItem, List.forall_mem_cons]
    refine and_congr_right fun hitem => ?_
    have hadd : ∃ l', State.addItem heap l item = .ok l' := by simp [State.addItem, hitem]
    obtain ⟨l', hl'⟩ := hadd
    refine ⟨fun h => ih.mp (h l' hl'), fun h l' _ => ih.mpr h⟩

theorem calm_assignAll {heap : Heap} {kvps : List Value} {l : List (Value × Value)} :
    Calm (State.assignAll heap l kvps) ↔ heap.KeysHashable kvps := by
  induction l, kvps using State.assignAll.induct with
  | case1 l key value kvps ih =>
    rw [State.assignAll, Heap.KeysHashable, calm_bind_of (calm_checkDictKey key)]
    refine ⟨fun h hkey => ?_, fun h a hkey => ?_⟩
    · obtain ⟨hassign, hrest⟩ := calm_bind.mp (h () hkey)
      have hhash := calm_assign.mp hassign
      have hok : ∃ l', State.assign heap l key value = .ok l' := by
        simp [State.assign, hhash]
      obtain ⟨l', hl'⟩ := hok
      exact ⟨hhash, (ih l').mp (hrest l' hl')⟩
    · obtain ⟨hhash, hrest⟩ := h hkey
      exact calm_bind.mpr ⟨calm_assign.mpr hhash, fun l' _ => (ih l').mpr hrest⟩
  | case2 kvps l hkvps =>
    rw [State.assignAll, Heap.KeysHashable]
    · simp
    · exact hkvps
    · exact hkvps

section Updates

variable {vm : State}

theorem calm_addItems : Calm vm.addItems ↔ vm.ElementsHashable := by
  rw [State.addItems, calm_bind_of (calm_popUntilMark vm)]
  refine ⟨fun h items vm' target r l hpop hpeek hcell => ?_, ?_⟩
  · have hset := (calm_bind.mp (h _ hpop)).2 target hpeek
    rw [hcell] at hset
    exact calm_addEach.mp (calm_bind.mp hset).1
  · rintro h ⟨items, vm'⟩ hpop
    refine calm_bind.mpr ⟨calm_peek vm', fun target hpeek => ?_⟩
    split
    · next r l hcell =>
      have hall := h items vm' target r l hpop hpeek hcell
      exact (calm_addEach.mpr hall).bind fun _ => calm_ok _
    · simp

theorem calm_setItem : Calm vm.setItem ↔ vm.KeyHashable := by
  rw [State.setItem, calm_bind_of (calm_pop vm)]
  refine ⟨fun h value vm₁ key vm₂ target r l hvalue hkey hcheck hpeek hcell => ?_, ?_⟩
  · have h₁ := (calm_bind.mp (h _ hvalue)).2 _ hkey
    have h₂ := (calm_bind.mp h₁).2 () hcheck
    have h₃ := (calm_bind.mp h₂).2 target hpeek
    rw [hcell] at h₃
    exact calm_assign.mp (calm_bind.mp h₃).1
  · rintro h ⟨value, vm₁⟩ hvalue
    refine calm_bind.mpr ⟨calm_pop vm₁, ?_⟩
    rintro ⟨key, vm₂⟩ hkey
    refine calm_bind.mpr ⟨calm_checkDictKey key, fun _ hcheck => ?_⟩
    refine calm_bind.mpr ⟨calm_peek vm₂, fun target hpeek => ?_⟩
    split
    · next r l hcell =>
      have hhash := h value vm₁ key vm₂ target r l hvalue hkey hcheck hpeek hcell
      exact (calm_assign.mpr hhash).bind fun _ => calm_ok _
    · simp

theorem calm_setItems : Calm vm.setItems ↔ vm.KeysHashable := by
  rw [State.setItems, calm_bind_of (calm_popUntilMark vm)]
  refine ⟨fun h kvps vm' target r l hpop heven hpeek hcell => ?_, ?_⟩
  · have h₁ := h _ hpop
    simp only [heven] at h₁
    have h₂ := (calm_bind.mp h₁).2 target hpeek
    rw [hcell] at h₂
    exact calm_assignAll.mp (calm_bind.mp h₂).1
  · rintro h ⟨kvps, vm'⟩ hpop
    dsimp only
    split
    · simp
    · next heven =>
      refine calm_bind.mpr ⟨calm_peek vm', fun target hpeek => ?_⟩
      split
      · next r l hcell =>
        have hkeys := h kvps vm' target r l hpop (Decidable.not_not.mp heven) hpeek hcell
        exact (calm_assignAll.mpr hkeys).bind fun _ => calm_ok _
      · simp

end Updates

/-! ## The instructions -/

section Machine

variable {vm : Machine}

theorem calm_plain {f : State → Except Fault State} :
    Calm (vm.plain f) ↔ Calm (f vm.toState) := by
  rw [Machine.plain, calm_bind]
  exact and_iff_left fun _ _ => calm_ok _

theorem calm_pushing (v : Value) : Calm (vm.pushing v) := calm_plain.mpr (calm_ok _)

theorem calm_readByte (vm : Machine) : Calm vm.readByte := by
  unfold Machine.readByte
  split <;> simp

theorem calm_readFull (n : Nat) : Calm (vm.readFull n) := by
  unfold Machine.readFull
  split <;> simp

theorem calm_readUint (size : Nat) : Calm (vm.readUint size) :=
  (calm_readFull size).bind fun _ => calm_ok _

/-- There is memory for a string of this length, or it is refused before. -/
def Machine.HasRoom (vm : Machine) (n : Nat) : Prop :=
  n ≤ vm.memory vm.toState ∨ 0x8000000000000000 ≤ n

theorem calm_pushString {n : Nat} : Calm (vm.pushString n) ↔ vm.HasRoom n := by
  unfold Machine.pushString Machine.HasRoom
  split
  · next h => simp [h]
  · next h =>
    split
    · next hmax => simp [h, Nat.not_le.mpr hmax]
    · next hmax =>
      refine iff_of_true ?_ (.inl (Nat.not_lt.mp hmax))
      exact (calm_readFull n).bind fun _ => calm_pushing _

/-- What an instruction asks for, so that it does not panic. -/
def Machine.Grants (vm : Machine) (opcode : UInt8) : Prop :=
  (opcode = opcodeSHORT_BINUNICODE → ∀ n vm', vm.readByte = .ok (n, vm') →
    vm'.HasRoom n.toNat) ∧
  (opcode = opcodeBINUNICODE → ∀ n vm', vm.readUint 4 = .ok (n, vm') → vm'.HasRoom n) ∧
  (opcode = opcodeBINUNICODE8 → ∀ n vm', vm.readUint 8 = .ok (n, vm') → vm'.HasRoom n) ∧
  (opcode = opcodeADDITEMS → vm.ElementsHashable) ∧
  (opcode = opcodeSETITEM → vm.KeyHashable) ∧
  (opcode = opcodeSETITEMS → vm.KeysHashable)

/-- What the instruction that comes next asks for. -/
def Machine.Granted (vm : Machine) : Prop :=
  ∀ opcode vm', vm.readByte = .ok (opcode, vm') → vm'.Grants opcode

theorem calm_shortBinunicode : Calm vm.shortBinunicode ↔
    ∀ n vm', vm.readByte = .ok (n, vm') → vm'.HasRoom n.toNat := by
  rw [Machine.shortBinunicode, calm_bind_of (calm_readByte vm)]
  refine ⟨fun h n vm' hread => calm_pushString.mp (h _ hread), ?_⟩
  rintro h ⟨n, vm'⟩ hread
  exact calm_pushString.mpr (h n vm' hread)

/-- A string with a length of so many bytes. -/
theorem calm_readString (size : Nat) :
    Calm (vm.readUint size >>= fun p => p.2.pushString p.1) ↔
      ∀ n vm', vm.readUint size = .ok (n, vm') → vm'.HasRoom n := by
  rw [calm_bind_of (calm_readUint size)]
  refine ⟨fun h n vm' hread => calm_pushString.mp (h _ hread), ?_⟩
  rintro h ⟨n, vm'⟩ hread
  exact calm_pushString.mpr (h n vm' hread)

/-- The opcodes that ask for something. -/
def asking : List UInt8 :=
  [opcodeSHORT_BINUNICODE, opcodeBINUNICODE, opcodeBINUNICODE8, opcodeADDITEMS, opcodeSETITEM,
    opcodeSETITEMS]

theorem grants_of_not_asking {opcode : UInt8} (h : opcode ∉ asking) : vm.Grants opcode := by
  simp only [asking, List.mem_cons, List.not_mem_nil, or_false, not_or] at h
  obtain ⟨hshort, hbin, hbin8, hadd, hset, hsets⟩ := h
  exact ⟨fun he => absurd he hshort, fun he => absurd he hbin, fun he => absurd he hbin8,
    fun he => absurd he hadd, fun he => absurd he hset, fun he => absurd he hsets⟩

/-- An instruction that asks for nothing. -/
theorem calm_iff_of_calm {opcode : UInt8} {f : Machine → Except Fault Machine}
    (hf : ∀ vm, Calm (f vm)) (h : opcode ∉ asking) (vm : Machine) :
    Calm (f vm) ↔ vm.Grants opcode :=
  iff_of_true (hf vm) (grants_of_not_asking h)

theorem calm_iff_of_plain {opcode : UInt8} {f : State → Except Fault State}
    (hf : ∀ st, Calm (f st)) (h : opcode ∉ asking) (vm : Machine) :
    Calm (vm.plain f) ↔ vm.Grants opcode :=
  calm_iff_of_calm (fun _ => calm_plain.mpr (hf _)) h vm

theorem calm_binGet (vm : Machine) : Calm vm.binGet :=
  (calm_readByte vm).bind fun _ => calm_plain.mpr (calm_pushMemo _ _)

theorem calm_longBinGet (vm : Machine) : Calm vm.longBinGet :=
  (calm_readUint 4).bind fun _ => calm_plain.mpr (calm_pushMemo _ _)

theorem calm_frame (vm : Machine) : Calm vm.frame := (calm_readFull 8).bind fun _ => calm_ok _

theorem calm_binint (vm : Machine) : Calm vm.binint :=
  (calm_readUint 4).bind fun _ => calm_pushing _

theorem calm_binint1 (vm : Machine) : Calm vm.binint1 :=
  (calm_readByte vm).bind fun _ => calm_pushing _

theorem calm_binint2 (vm : Machine) : Calm vm.binint2 :=
  (calm_readUint 2).bind fun _ => calm_pushing _

section Grants

attribute [local simp] Machine.Grants opcodeSHORT_BINUNICODE opcodeBINUNICODE opcodeBINUNICODE8
  opcodeADDITEMS opcodeSETITEM opcodeSETITEMS

theorem grants_shortBinunicode : vm.Grants opcodeSHORT_BINUNICODE ↔
    ∀ n vm', vm.readByte = .ok (n, vm') → vm'.HasRoom n.toNat := by
  simp

theorem grants_binunicode : vm.Grants opcodeBINUNICODE ↔
    ∀ n vm', vm.readUint 4 = .ok (n, vm') → vm'.HasRoom n := by
  simp

theorem grants_binunicode8 : vm.Grants opcodeBINUNICODE8 ↔
    ∀ n vm', vm.readUint 8 = .ok (n, vm') → vm'.HasRoom n := by
  simp

theorem grants_addItems : vm.Grants opcodeADDITEMS ↔ vm.ElementsHashable := by
  simp

theorem grants_setItem : vm.Grants opcodeSETITEM ↔ vm.KeyHashable := by
  simp

theorem grants_setItems : vm.Grants opcodeSETITEMS ↔ vm.KeysHashable := by
  simp

end Grants

/-- An instruction panics if and only if it is not given what it asks for. -/
theorem calm_instructions : ∀ p ∈ instructions, ∀ vm : Machine, Calm (p.2 vm) ↔ vm.Grants p.1 := by
  unfold instructions
  simp only [List.forall_mem_cons]
  exact ⟨calm_iff_of_calm (fun _ => calm_pushing _) (by decide),
    calm_iff_of_plain (fun _ => calm_ok _) (by decide),
    calm_iff_of_plain (fun _ => calm_ok _) (by decide),
    calm_iff_of_calm (fun _ => calm_pushing _) (by decide),
    calm_iff_of_plain (fun _ => calm_ok _) (by decide),
    calm_iff_of_calm (fun _ => calm_pushing _) (by decide),
    calm_iff_of_calm (fun _ => calm_pushing _) (by decide),
    calm_iff_of_calm (fun _ => calm_pushing _) (by decide),
    calm_iff_of_plain calm_tuple (by decide),
    calm_iff_of_plain calm_tuple1 (by decide),
    calm_iff_of_plain calm_tuple2 (by decide),
    calm_iff_of_plain calm_tuple3 (by decide),
    calm_iff_of_plain calm_memoize (by decide),
    calm_iff_of_calm calm_binGet (by decide),
    calm_iff_of_calm calm_longBinGet (by decide),
    calm_iff_of_calm calm_frame (by decide),
    fun _ => calm_shortBinunicode.trans grants_shortBinunicode.symm,
    fun _ => (calm_readString 4).trans grants_binunicode.symm,
    fun _ => (calm_readString 8).trans grants_binunicode8.symm,
    calm_iff_of_calm calm_binint (by decide),
    calm_iff_of_calm calm_binint1 (by decide),
    calm_iff_of_calm calm_binint2 (by decide),
    calm_iff_of_plain calm_stackGlobal (by decide),
    calm_iff_of_plain calm_append (by decide),
    calm_iff_of_plain calm_appends (by decide),
    fun _ => (calm_plain.trans calm_addItems).trans grants_addItems.symm,
    fun _ => (calm_plain.trans calm_setItem).trans grants_setItem.symm,
    fun _ => (calm_plain.trans calm_setItems).trans grants_setItems.symm,
    calm_iff_of_plain calm_newObj (by decide),
    calm_iff_of_plain calm_newObj (by decide), by simp⟩

/-! ## The loop -/

/-- An opcode that asks for something is an instruction. -/
theorem not_asking_of_lookup {opcode : UInt8} (h : instructions.lookup opcode = none) :
    opcode ∉ asking := by
  intro hmem
  have hall : ∀ b ∈ asking, (instructions.lookup b).isSome = true := by decide +kernel
  have hsome := hall opcode hmem
  rw [h] at hsome
  cases hsome

theorem granted_of_read {vm' : Machine} {opcode : UInt8} (hread : vm.readByte = .ok (opcode, vm')) :
    vm.Granted ↔ vm'.Grants opcode := by
  refine ⟨fun h => h opcode vm' hread, fun h opcode' vm'' hread' => ?_⟩
  cases hread.symm.trans hread'
  exact h

theorem step_panics_iff : vm.step = .inl (.error .panic) ↔ ¬ vm.Granted := by
  unfold Machine.step
  cases hread : vm.readByte with
  | error e =>
    have hcalm : e ≠ .panic := calm_error.mp (hread ▸ calm_readByte vm)
    refine iff_of_false ?_ (not_not.mpr fun opcode vm' hread' => ?_)
    · rintro ⟨⟩
      exact hcalm rfl
    · cases hread.symm.trans hread'
  | ok p =>
    obtain ⟨opcode, vm'⟩ := p
    rw [granted_of_read hread]
    dsimp only
    by_cases hstop : opcode = opcodeSTOP
    · rw [if_pos hstop]
      refine iff_of_false ?_ (not_not.mpr (grants_of_not_asking (hstop ▸ by decide)))
      intro h
      exact calm_stop vm'.toState (Sum.inl.inj h)
    · rw [if_neg hstop]
      cases hlookup : instructions.lookup opcode with
      | none =>
        refine iff_of_false ?_ (not_not.mpr (grants_of_not_asking (not_asking_of_lookup hlookup)))
        rintro ⟨⟩
      | some f =>
        rw [← calm_instructions (opcode, f) (mem_instructions hlookup) vm', Calm]
        dsimp only
        cases f vm' with
        | error e => simp
        | ok vm'' => simp

/-- Whatever memory the runtime has, the machine panics on no stream on which each
instruction that is reached is given what it asks for, and on all others. -/
theorem exec_calm_iff (memory : State → Nat) (src : List UInt8) :
    exec (Machine.startIn memory src) ≠ .error .panic ↔
      ∀ vm, execLoop.Reaches (Machine.startIn memory src) vm → vm.Granted := by
  rw [exec, Ne, Loop.run_eq_iff]
  constructor
  · intro h vm hreach
    by_contra hvm
    exact h ⟨vm, hreach, step_panics_iff.mpr hvm⟩
  · rintro h ⟨vm, hreach, hstep⟩
    exact step_panics_iff.mp hstep (h vm hreach)

/-- A dict in a set, a dict in a tuple as a key, a string of 2^63 - 1 bytes, and one of
2^36 bytes in a process that has room for 2^35. -/
theorem exec_panics :
    exec (Machine.start [opcodeEMPTY_SET, opcodeMARK, opcodeEMPTY_DICT, opcodeADDITEMS]) =
        .error .panic ∧
      exec (Machine.start
        [opcodeEMPTY_DICT, opcodeEMPTY_DICT, opcodeTUPLE1, opcodeNONE, opcodeSETITEM]) =
        .error .panic ∧
      exec (Machine.start
        [opcodeBINUNICODE8, 0xff, 0xff, 0xff, 0xff, 0xff, 0xff, 0xff, 0x7f]) =
        .error .panic ∧
      exec (Machine.startIn (fun _ => 0x800000000)
        [opcodeBINUNICODE8, 0, 0, 0, 0, 0x10, 0, 0, 0]) =
        .error .panic :=
  ⟨rfl, rfl, rfl, rfl⟩

end Machine

end Isthmus.Pickle
