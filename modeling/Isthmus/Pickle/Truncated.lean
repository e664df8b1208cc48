import Isthmus.Lib.Cuts
import Isthmus.Pickle.Bind

/-!
# Truncated pickles

Each opcode tells how much of the source belongs to it. So where a pickle ends is decided by
the pickle: what follows is not looked at, and what is cut short is never taken for another
pickle.

## Main results

- `exec_decided`: how the machine ends is decided by the front of its source
- `decode_cut_anywhere`: what `Decode` does with each part of a file
-/

namespace Isthmus.Pickle

open Cuts

instance : Fed Machine UInt8 := ⟨Machine.src, fun vm s => { vm with src := s }⟩

/-! ## Reading -/

section Reading

theorem delimited_plain (f : State → Except Fault State) :
    Delimited .eof fun vm : Machine => vm.plain f where
  leaves {vm c} h := by
    obtain ⟨st, hst, hc⟩ := bind_eq_ok.mp h
    cases hc
    refine ⟨[], rfl, fun s => ?_, fun k hk => absurd hk (Nat.not_lt_zero k)⟩
    exact bind_eq_ok.mpr ⟨st, hst, rfl⟩
  decided {vm e} h := by
    refine decided_of_const fun s => ?_
    show f vm.toState >>= _ = f vm.toState >>= _
    cases hf : f vm.toState with
    | error e' => rfl
    | ok st =>
      rw [Machine.plain, hf] at h
      cases h

theorem delimited_readByte : Delimited .eof Machine.readByte where
  leaves {vm c} h := by
    obtain ⟨st, src, memory⟩ := vm
    cases src with
    | nil => cases h
    | cons b src =>
      cases h
      refine ⟨[b], rfl, fun s => rfl, fun k hk => ?_⟩
      rw [Nat.lt_one_iff.mp hk]
      rfl
  decided {vm e} h := by
    obtain ⟨st, src, memory⟩ := vm
    cases src with
    | nil => exact .inl rfl
    | cons b src => cases h

theorem delimited_readFull (n : Nat) : Delimited .eof fun vm : Machine => vm.readFull n where
  leaves {vm c} h := by
    obtain ⟨st, src, memory⟩ := vm
    unfold Machine.readFull at h
    split at h
    · next hle =>
      cases h
      have hlength : (src.take n).length = n := List.length_take_of_le hle
      refine ⟨src.take n, (List.take_append_drop n src).symm, fun s => ?_, fun k hk => ?_⟩
      · have hle' : n ≤ (src.take n ++ s).length := by
          rw [List.length_append, hlength]
          exact Nat.le_add_right n _
        show Machine.readFull ⟨st, src.take n ++ s, memory⟩ n = _
        rw [Machine.readFull, if_pos hle', List.take_left' hlength, List.drop_left' hlength]
        rfl
      · have hlt : ¬n ≤ ((src.take n).take k).length := by
          rw [List.length_take]
          omega
        exact if_neg hlt
    · cases h
  decided {vm e} h := by
    unfold Machine.readFull at h
    split at h
    · cases h
    · next hlt => exact .inl (if_neg hlt)

theorem delimited_readUint (size : Nat) : Delimited .eof fun vm : Machine => vm.readUint size :=
  (delimited_readFull size).bind (delimited_ok (fun _ => rfl) fun _ _ => rfl)

theorem delimited_pushString (n : Nat) : Delimited .eof fun vm : Machine => vm.pushString n := by
  unfold Machine.pushString
  split
  · exact delimited_error _ _
  · exact delimited_ite (fun _ _ => Iff.rfl) (delimited_error _ _)
      ((delimited_readFull n).bind (delimited_prod fun s => delimited_plain _))

theorem delimited_instructions : ∀ p ∈ instructions, Delimited .eof p.2 := by
  have hbyte {f : UInt8 × Machine → Except Fault Machine}
      (hf : ∀ b, Delimited .eof fun vm => f (b, vm)) :
      Delimited .eof fun vm : Machine => vm.readByte >>= f :=
    delimited_readByte.bind (delimited_prod hf)
  have huint {size : Nat} {f : Nat × Machine → Except Fault Machine}
      (hf : ∀ n, Delimited .eof fun vm => f (n, vm)) :
      Delimited .eof fun vm : Machine => vm.readUint size >>= f :=
    (delimited_readUint size).bind (delimited_prod hf)
  unfold instructions
  simp only [List.forall_mem_cons]
  refine ⟨delimited_plain _, delimited_plain _, delimited_plain _, delimited_plain _,
    delimited_plain _, delimited_plain _, delimited_plain _, delimited_plain _, delimited_plain _,
    delimited_plain _, delimited_plain _, delimited_plain _, delimited_plain _,
    hbyte fun b => delimited_plain _, huint fun i => delimited_plain _,
    (delimited_readFull 8).bind (delimited_ok (fun _ => rfl) fun _ _ => rfl),
    hbyte fun size => delimited_pushString _, huint delimited_pushString,
    huint delimited_pushString, huint fun n => delimited_plain _,
    hbyte fun n => delimited_plain _, huint fun n => delimited_plain _, delimited_plain _,
    delimited_plain _, delimited_plain _, delimited_plain _, delimited_plain _, delimited_plain _,
    delimited_plain _, delimited_plain _, by simp⟩

end Reading

/-! ## The machine -/

section Exec

/-- What the loop does after it has read an opcode. -/
def dispatch (p : UInt8 × Machine) : Except Fault (Value × Heap) ⊕ Machine :=
  if p.1 = opcodeSTOP then .inl p.2.stop
  else
    match instructions.lookup p.1 with
    | none => .inl (.error (.invalidOpcode p.1))
    | some f =>
      match f p.2 with
      | .error e => .inl (.error e)
      | .ok vm => .inr vm

variable {vm vm' : Machine} {p : UInt8 × Machine}

theorem step_of_readByte (h : vm.readByte = .ok p) : vm.step = dispatch p := by
  simp only [Machine.step, h]
  rfl

theorem step_of_eof (h : vm.readByte = .error .eof) : vm.step = .inl (.error .eof) := by
  simp only [Machine.step, h]

section Instruction

variable {opcode : UInt8} {f : Machine → Except Fault Machine}
  (hstop : opcode ≠ opcodeSTOP) (hf : instructions.lookup opcode = some f)

include hstop hf

theorem dispatch_ok (h : f vm = .ok vm') : dispatch (opcode, vm) = .inr vm' := by
  simp only [dispatch, if_neg hstop, hf, h]

theorem dispatch_error {e : Fault} (h : f vm = .error e) :
    dispatch (opcode, vm) = .inl (.error e) := by
  simp only [dispatch, if_neg hstop, hf, h]

end Instruction

theorem delimited_lookup {opcode : UInt8} {f : Machine → Except Fault Machine}
    (hf : instructions.lookup opcode = some f) : Delimited .eof f :=
  delimited_instructions (opcode, f) (mem_instructions hf)

theorem leaves_dispatch (h : dispatch p = .inr vm') :
    Cuts.Leaves dispatch (· = .inl (.error .eof)) .inr p vm' := by
  obtain ⟨opcode, vm⟩ := p
  by_cases hstop : opcode = opcodeSTOP
  · rw [dispatch, if_pos hstop] at h
    cases h
  cases hf : instructions.lookup opcode with
  | none =>
    simp only [dispatch, if_neg hstop, hf] at h
    cases h
  | some f =>
    cases hvm : f vm with
    | error e => cases (dispatch_error hstop hf hvm).symm.trans h
    | ok vm₁ =>
      cases (dispatch_ok hstop hf hvm).symm.trans h
      obtain ⟨used, hrest, htakes⟩ := (delimited_lookup hf).leaves hvm
      exact ⟨used, hrest, fun s => dispatch_ok hstop hf (htakes.all s),
        fun k hk => dispatch_error hstop hf (htakes.cut k hk)⟩

theorem decided_dispatch {r : Except Fault (Value × Heap)} (h : dispatch p = .inl r) :
    Decided dispatch (· = .inl (.error .eof)) p := by
  obtain ⟨opcode, vm⟩ := p
  by_cases hstop : opcode = opcodeSTOP
  · refine decided_of_const fun s => ?_
    show dispatch (opcode, _) = _
    simp only [dispatch, if_pos hstop]
    rfl
  cases hf : instructions.lookup opcode with
  | none =>
    refine decided_of_const fun s => ?_
    show dispatch (opcode, _) = _
    simp only [dispatch, if_neg hstop, hf]
  | some f =>
    cases hvm : f vm with
    | ok vm₁ => cases (dispatch_ok hstop hf hvm).symm.trans h
    | error e =>
      obtain hend | ⟨used, s, hrest, htakes⟩ := (delimited_lookup hf).decided hvm
      · exact .inl (dispatch_error hstop hf hend)
      · refine .inr ⟨used, s, hrest, fun s => ?_, fun k hk => ?_⟩
        · rw [dispatch_error hstop hf hvm]
          exact dispatch_error hstop hf ((htakes.all s).trans hvm)
        · exact dispatch_error hstop hf (htakes.cut k hk)

/-- One turn of the loop. -/
theorem paced_execLoop : Paced .eof execLoop where
  leaves {vm vm'} h := by
    cases hread : vm.readByte with
    | error e =>
      obtain ⟨opcode, vm₁, f, hread', -⟩ := step_eq_inr.mp h
      cases hread.symm.trans hread'
    | ok p =>
      have hp : dispatch p = .inr vm' := (step_of_readByte hread).symm.trans h
      exact (delimited_readByte.leaves hread).trans (fun _ _ => step_of_readByte)
        (fun _ => step_of_eof) (leaves_dispatch hp)
  decided {vm r} h := by
    cases hread : vm.readByte with
    | error e =>
      obtain ⟨st, src, memory⟩ := vm
      cases src with
      | nil => exact .inl rfl
      | cons b src => cases hread
    | ok p =>
      have hp : dispatch p = .inl r := (step_of_readByte hread).symm.trans h
      exact (delimited_readByte.leaves hread).decided hread (fun _ _ => step_of_readByte)
        (fun _ => step_of_eof) (decided_dispatch hp)

/-- How the machine ends is decided by the front of its source. -/
theorem exec_decided (vm : Machine) : Decided exec (· = .error .eof) vm :=
  paced_execLoop.run_decided vm

end Exec

/-! ## Decode -/

section Decode

/-- The end of the source, as `Decode` or the machine finds it. -/
def IsEof {α : Type} (o : Except DecodeFault α) : Prop :=
  o = .error .eof ∨ o = .error (.machine .eof)

variable {τ : Type} (rt : Runtime) (typ : τ → DestKind τ) (depth n : Nat) (dest : τ)

/-- What `Decode` makes of the value of the machine. -/
def bindResult : Except Fault (Value × Heap) → Except DecodeFault (Bound × Graph)
  | .error e => .error (.machine e)
  | .ok (v, heap) => (bind rt typ depth n [] v (typ dest) false (.ofHeap heap)).mapError .bind

theorem decode_decided (file : List UInt8) :
    Decided (decode rt typ depth n dest) IsEof file := by
  match file with
  | [] => exact .inl (.inl rfl)
  | [_] => exact .inl (.inl rfl)
  | opcode :: version :: src =>
    have hsrc : Decided (fun src => decode rt typ depth n dest (opcode :: version :: src)) IsEof
        src := by
      by_cases hproto : opcode ≠ opcodePROTO
      · refine decided_of_const fun s => ?_
        simp only [decode, if_pos hproto]
      by_cases hversion : version < 4
      · refine decided_of_const fun s => ?_
        simp only [decode, if_neg hproto, if_pos hversion]
      have hdecode : ∀ src, decode rt typ depth n dest (opcode :: version :: src) =
          bindResult rt typ depth n dest (exec (Machine.start src)) := by
        intro src
        simp only [decode, if_neg hproto, if_neg hversion]
        cases exec (Machine.start src) <;> rfl
      simp only [hdecode]
      obtain hend | ⟨used, s, hrest, htakes⟩ := exec_decided (Machine.start src)
      · exact .inl (.inr (congrArg (bindResult rt typ depth n dest) hend))
      · exact .inr ⟨used, s, hrest,
          fun s => congrArg (bindResult rt typ depth n dest) (htakes.all s),
          fun k hk => .inr (congrArg (bindResult rt typ depth n dest) (htakes.cut k hk))⟩
    obtain hend | ⟨used, s, hrest, htakes⟩ := hsrc
    · exact .inl hend
    · refine .inr ⟨opcode :: version :: used, s, congrArg (opcode :: version :: ·) hrest,
        htakes.all, fun k hk => ?_⟩
      match k with
      | 0 => exact .inl rfl
      | 1 => exact .inl rfl
      | k + 2 => exact htakes.cut k (Nat.lt_of_add_lt_add_right hk)

/-- Where a pickle ends is decided by the pickle. `Decode` does the same with whatever follows
that point, and comes to the end of each file that is cut before it. So it never takes what
is cut short for another pickle, and never looks at what follows. -/
theorem decode_cut_anywhere (file : List UInt8) : IsEof (decode rt typ depth n dest file) ∨
    ∃ m ≤ file.length,
      (∀ s, decode rt typ depth n dest (file.take m ++ s) = decode rt typ depth n dest file) ∧
      ∀ k < m, IsEof (decode rt typ depth n dest (file.take k)) :=
  (decode_decided rt typ depth n dest file).exists_point

end Decode

end Isthmus.Pickle
