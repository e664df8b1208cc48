import Isthmus.DataStorage
import Isthmus.Lib.Folds

/-!
# Inapplicable operations

An operation of a `Set` is inapplicable where it is unknown, or where the current
value or its own is of a type that it does not accept. The loop stops there, but
for one exit: an `add` to a value that is neither a number nor a list sets the
error and goes on.

## Main definitions

- `Operation.accepts`: the types that an operation accepts
- `Interpreter.FoldMeets`: the fold of the operations comes to one
- `Interpreter.Rejects`: a message that meets an inapplicable operation changes nothing
- `Interpreter.passOperation`: the fold that goes on after such an `add`
-/

namespace Isthmus

open Process Approto

/-- The types of the current value and of the operand that an operation accepts. -/
def Operation.accepts : Operation → Json → Json → Bool
  | .replace, _, _ => true
  | .default, _, _ => true
  | .add, .number _, .number _ => true
  | .add, .array _, .array _ => true
  | .math _, .number _, .number _ => true
  | .remove, .array _, .number _ => true
  | .remove, .array _, .string _ => true
  | .pop, .array _, .number _ => true
  | .pop, .object _, .string _ => true
  | .update, .object _, .object _ => true
  | _, _, _ => false

/-- The operation is unknown, or a type is not accepted. -/
def Inapplicable (v : Json) (op : DataStorageOperation) : Prop :=
  ∀ k, op.kind = some k → k.accepts v op.value = false

/-- A number or a list. -/
def Json.isAddable : Json → Bool
  | .number _ | .array _ => true
  | _ => false

/-- An `add` to a value that is neither a number nor a list. -/
def AddsToOther (v : Json) (op : DataStorageOperation) : Prop :=
  op.kind = some .add ∧ v.isAddable = false

instance (v : Json) (op : DataStorageOperation) : Decidable (AddsToOther v op) :=
  inferInstanceAs (Decidable (_ ∧ _))

/-- An inapplicable operation at which the loop stops. -/
def Stops (v : Json) (op : DataStorageOperation) : Prop := Inapplicable v op ∧ ¬ AddsToOther v op

/-- A `default` that comes late does so with more operations after it. -/
theorem LateDefault.append {done : List DataStorageOperation} (h : LateDefault done)
    (rest : List DataStorageOperation) : LateDefault (done ++ rest) := by
  obtain ⟨⟨op, hop, hdefault⟩, hhead⟩ := h
  refine ⟨⟨op, List.mem_append_left _ hop, hdefault⟩, ?_⟩
  cases done with
  | nil => cases hop
  | cons first done => exact hhead

theorem AddsToOther.inapplicable {v : Json} {op : DataStorageOperation} (h : AddsToOther v op) :
    Inapplicable v op := by
  obtain ⟨hadd, hother⟩ := h
  intro k hk
  cases hadd.symm.trans hk
  cases v with
  | number a | array l => cases hother
  | _ => rfl

namespace Interpreter

variable (rt : Interpreter)

/-- The fold over the operations of a message comes to an operation, after others and with a
value of which `bad` holds. -/
def FoldMeets (orig : Option GoString) (m : SetMessage)
    (bad : List DataStorageOperation → Json → DataStorageOperation → Prop) : Prop :=
  ∃ v₀ done v op, rt.startValue orig m.default = some v₀ ∧
    Folds.Comes rt.applyOperation v₀ m.operations done v op ∧ bad done v op

/-- If the message meets an inapplicable operation, then there is an error, and
no value in the savefile changes. -/
def Rejects (env : Env) (db : Savefile) (m : SetMessage) : Prop :=
  rt.FoldMeets (db.getStoredData env m.key) m (fun _ => Inapplicable) →
    (∃ e, ((updateDataStorage rt env m).run db).result = .error e ∧ e ≠ .panic) ∧
      (updateDataStorage rt env m).final db = db

/-! ## Going on -/

/-- One operation on the current value, next to the last result, which is null at first. An
`add` to a value that is neither a number nor a list goes on with the last result. -/
def passOperation (p : Json × Json) (op : DataStorageOperation) : Option (Json × Json) :=
  if AddsToOther p.1 op then some (p.2, p.2)
  else (rt.applyOperation p.1 op).map fun v => (v, v)

/-- Going on in this way, the fold comes to an operation that stops the loop. -/
def PassesToStop (orig : Option GoString) (m : SetMessage) : Prop :=
  ∃ v₀ done p op, rt.startValue orig m.default = some v₀ ∧
    Folds.Comes rt.passOperation (v₀, .null) m.operations done p op ∧ Stops p.1 op

/-- Going on in this way, the fold ends with a value that `json.Marshal` fails on. -/
def PassesUnencodable (orig : Option GoString) (m : SetMessage) : Prop :=
  ∃ v₀ p, rt.startValue orig m.default = some v₀ ∧
    m.operations.foldlM rt.passOperation (v₀, .null) = some p ∧ rt.marshal p.2 = none

/-! ## One operation -/

section Step

variable {rt : Interpreter} {default : Value} {st : Loop} {op : DataStorageOperation} {v : Json}

/-- The result of an operation by whether it accepts its types: nothing but a
function of two numbers panics. -/
def Settles (accepts : Bool) (r : Except Stop Loop) : Prop :=
  if accepts then (∃ st', r = .ok st') ∨ r = .error .panic else r = .error .malformed

theorem settles_math (f : Arith) (hx : st.heap.Holds st.origVal v) (w : Json) :
    Settles ((Operation.math f).accepts v w) (rt.operateMath f st w) := by
  unfold operateMath mathOp
  generalize st.origVal = x at hx ⊢
  cases hx with
  | plain hv =>
    cases v with
    | number a =>
      cases w with
      | number b => cases harith : rt.arith f a b <;> simp [Settles, Operation.accepts, harith]
      | _ => simp [Settles, Operation.accepts]
    | _ => simp [Settles, Operation.accepts]
  | slice hs => simp [Settles, Operation.accepts]
  | map hm => simp [Settles, Operation.accepts]

theorem settles_add (hx : st.heap.Holds st.origVal v) (h : v.isAddable = true) (w : Json) :
    Settles (Operation.add.accepts v w) (rt.operateAdd st w) := by
  have hmath : Settles ((Operation.math .add).accepts v w) (rt.operateMath .add st w) :=
    settles_math .add hx w
  unfold operateAdd
  generalize st.origVal = x at hx ⊢
  cases hx with
  | plain hv =>
    cases v with
    | number a => cases w <;> exact hmath
    | array l => cases hv
    | _ => cases h
  | slice hs => cases w <;> simp [Settles, Operation.accepts]
  | map hm => cases h

theorem settles_remove (hx : st.heap.Holds st.origVal v) (w : Json) :
    Settles (Operation.remove.accepts v w) (operateRemove st w) := by
  unfold operateRemove
  generalize st.origVal = x at hx ⊢
  cases hx with
  | plain hv => cases v <;> first | cases hv; done | simp [Settles, Operation.accepts]
  | slice hs => cases w <;> simp [Settles, Operation.accepts]
  | map hm => simp [Settles, Operation.accepts]

theorem settles_pop (hx : st.heap.Holds st.origVal v) (w : Json) :
    Settles (Operation.pop.accepts v w) (rt.operatePop st w) := by
  unfold operatePop
  generalize st.origVal = x at hx ⊢
  cases hx with
  | plain hv => cases v <;> first | cases hv; done | simp [Settles, Operation.accepts]
  | slice hs => cases w <;> simp [Settles, Operation.accepts]
  | map hm => cases w <;> simp [Settles, Operation.accepts]

theorem settles_update (hx : st.heap.Holds st.origVal v) (w : Json) :
    Settles (Operation.update.accepts v w) (operateUpdate st w) := by
  unfold operateUpdate
  generalize st.origVal = x at hx ⊢
  cases hx with
  | plain hv => cases v <;> first | cases hv; done | simp [Settles, Operation.accepts]
  | slice hs => simp [Settles, Operation.accepts]
  | map hm => cases w <;> simp [Settles, Operation.accepts]

/-- An operation of a known name, but for an `add` to a value of another type. -/
theorem settles_operate (hx : st.heap.Holds st.origVal v) {k : Operation} (hk : op.kind = some k)
    (hadd : ¬ AddsToOther v op) : Settles (k.accepts v op.value) (rt.operate default st op) := by
  unfold operate
  rw [hk]
  cases k with
  | replace => exact .inl ⟨_, rfl⟩
  | default => exact .inl ⟨_, rfl⟩
  | add =>
    refine settles_add hx ?_ op.value
    cases haddable : v.isAddable with
    | true => rfl
    | false => exact absurd ⟨hk, haddable⟩ hadd
  | math f => exact settles_math f hx op.value
  | remove => exact settles_remove hx op.value
  | pop => exact settles_pop hx op.value
  | update => exact settles_update hx op.value

theorem operate_of_stops (hx : st.heap.Holds st.origVal v) (h : Stops v op) :
    rt.operate default st op = .error .malformed := by
  obtain ⟨h, hadd⟩ := h
  cases hk : op.kind with
  | none => rw [operate, hk]
  | some k =>
    have hsettles : Settles _ (rt.operate default st op) := settles_operate hx hk hadd
    rwa [h k hk] at hsettles

theorem operate_of_addsToOther (hx : st.heap.Holds st.origVal v) (h : AddsToOther v op) :
    rt.operate default st op = .ok st := by
  obtain ⟨hk, hother⟩ := h
  rw [operate, hk]
  dsimp only [operateAdd]
  generalize st.origVal = x at hx ⊢
  cases hx with
  | plain hv =>
    cases v with
    | number a => cases hother
    | _ => rfl
  | slice hs => cases hother
  | map hm => rfl

theorem numbers_of_accepts {f : Arith} {w : Json} (h : (Operation.math f).accepts v w = true) :
    ∃ a b, v = .number a ∧ w = .number b := by
  cases v with
  | number a =>
    cases w with
    | number b => exact ⟨a, b, rfl, rfl⟩
    | _ => cases h
  | _ => cases h

theorem applyRemove_ne_none {w : Json} (h : Operation.remove.accepts v w = true) :
    applyRemove v w ≠ none := by
  cases v with
  | array l =>
    cases w with
    | number b | string s => exact Option.some_ne_none _
    | _ => cases h
  | _ => cases h

theorem applyPop_ne_none {w : Json} (h : Operation.pop.accepts v w = true) :
    rt.applyPop v w ≠ none := by
  cases v with
  | array l =>
    cases w with
    | number b => exact Option.some_ne_none _
    | _ => cases h
  | object l =>
    cases w with
    | string s => exact Option.some_ne_none _
    | _ => cases h
  | _ => cases h

theorem applyUpdate_ne_none {w : Json} (h : Operation.update.accepts v w = true) :
    applyUpdate v w ≠ none := by
  cases v with
  | object l =>
    cases w with
    | object d => exact Option.some_ne_none _
    | _ => cases h
  | _ => cases h

/-- A function of two numbers that has no value panics. -/
theorem operateMath_panics {f : Arith} {w : Json} (hx : st.heap.Holds st.origVal v)
    (hacc : (Operation.math f).accepts v w = true) (h : rt.applyMath f v w = none) :
    rt.operateMath f st w = .error .panic := by
  obtain ⟨a, b, rfl, rfl⟩ := numbers_of_accepts hacc
  have harith : rt.arith f a b = none := Option.map_eq_none_iff.mp h
  rw [operateMath, hx.of_number, mathOp, harith]

theorem operateAdd_panics {w : Json} (hx : st.heap.Holds st.origVal v)
    (hacc : Operation.add.accepts v w = true) (h : rt.applyAdd v w = none) :
    rt.operateAdd st w = .error .panic := by
  cases v with
  | number a =>
    cases w with
    | number b =>
      rw [operateAdd, hx.of_number]
      exact operateMath_panics hx rfl h
    | _ => cases hacc
  | array l =>
    cases w with
    | array l' => cases h
    | _ => cases hacc
  | _ => cases hacc

/-- An operation that the fold does not take stops the loop, or its function panics. -/
theorem stops_or_panics (hx : st.heap.Holds st.origVal v) (hadd : ¬ AddsToOther v op)
    (h : rt.applyOperation v op = none) :
    Stops v op ∨ rt.operate default st op = .error .panic := by
  rw [or_iff_not_imp_left]
  intro hstops
  have hall : ¬ Inapplicable v op := fun hinapplicable => hstops ⟨hinapplicable, hadd⟩
  simp only [Inapplicable, not_forall, Bool.not_eq_false] at hall
  obtain ⟨k, hk, hacc⟩ := hall
  unfold applyOperation at h
  unfold operate
  rw [hk] at h ⊢
  cases k with
  | replace | default => cases h
  | math f => exact operateMath_panics hx hacc h
  | add => exact operateAdd_panics hx hacc h
  | remove => exact absurd h (applyRemove_ne_none hacc)
  | pop => exact absurd h (applyPop_ne_none hacc)
  | update => exact absurd h (applyUpdate_ne_none hacc)

end Step

/-! ## The loop -/

section Loop

variable {rt : Interpreter} {default : Value} {st : Loop}

theorem operateAll_append (done ops : List DataStorageOperation) :
    rt.operateAll default st (done ++ ops) =
      (rt.operateAll default st done).bind fun st' => rt.operateAll default st' ops := by
  induction done generalizing st with
  | nil => rfl
  | cons op done ih =>
    rw [List.cons_append, operateAll, operateAll]
    cases rt.operate default st op with
    | error e => rfl
    | ok st' => exact ih

/-- One operation in the loop, by the fold that goes on. -/
theorem operate_pass {p p' : Json × Json} {op : DataStorageOperation}
    (hx : st.heap.Holds st.origVal p.1) (hnew : st.heap.Holds st.newVal p.2)
    (hop : rt.passOperation p op = some p')
    (hdefault : op.isDefault = true → st.found = true ∨ default = st.origVal) :
    ∃ st', rt.operate default st op = .ok st' ∧ st'.heap.Holds st'.newVal p'.1 ∧ p'.1 = p'.2 ∧
      st'.found = (st.found || op.isDefault) := by
  unfold passOperation at hop
  split at hop
  · next hadd =>
    cases hop
    refine ⟨st, operate_of_addsToOther hx hadd, hnew, rfl, ?_⟩
    rw [DataStorageOperation.isDefault, hadd.1]
    simp
  · obtain ⟨v, hv, rfl⟩ := Option.map_eq_some_iff.mp hop
    obtain ⟨st', hst', hholds, hfound⟩ := operate_spec hx hv hdefault
    exact ⟨st', hst', hholds, rfl, hfound⟩

/-- The loop over some of the operations, by the fold that goes on. -/
theorem operateAll_pass {p p' : Json × Json} {done rest : List DataStorageOperation}
    (hx : st.heap.Holds st.origVal p.1) (hnew : st.heap.Holds st.newVal p.2)
    (hpass : done.foldlM rt.passOperation p = some p') (ht : st.Timely default (done ++ rest)) :
    ∃ st', rt.operateAll default st done = .ok st' ∧ st'.heap.Holds st'.origVal p'.1 ∧
      st'.heap.Holds st'.newVal p'.2 ∧ st'.Timely default rest := by
  induction done generalizing st p with
  | nil =>
    cases hpass
    exact ⟨st, rfl, hx, hnew, ht⟩
  | cons op done ih =>
    rw [List.foldlM_cons] at hpass
    obtain ⟨⟨v, w⟩, hop, hrest⟩ := Option.bind_eq_some_iff.mp hpass
    obtain ⟨st₁, hst₁, hholds, hsame, hfound⟩ := operate_pass hx hnew hop ht.head
    obtain rfl : v = w := hsame
    rw [operateAll, hst₁]
    exact ih hholds hholds hrest (ht.tail hfound)

/-- The fold is one that never has to go on. -/
theorem passes_of_fold {v v' w : Json} {ops : List DataStorageOperation}
    (h : ops.foldlM rt.applyOperation v = some v') :
    ∃ p', ops.foldlM rt.passOperation (v, w) = some p' ∧ p'.1 = v' := by
  refine Folds.foldlM_related (R := fun v (p : Json × Json) => p.1 = v) ?_ rfl h
  rintro _ p op v₁ rfl hop
  have hadd : ¬ AddsToOther p.1 op := by
    rintro ⟨hk, hother⟩
    rw [applyOperation, hk] at hop
    cases hp : p.1 with
    | number a | array l =>
      rw [hp] at hother
      cases hother
    | _ =>
      rw [hp] at hop
      cases hop
  refine ⟨(v₁, v₁), ?_, rfl⟩
  rw [passOperation, if_neg hadd, hop]
  rfl

variable {orig : Option GoString} {m : SetMessage} {v₀ : Json}

/-- What the loop is at when the fold that goes on has taken some operations. -/
theorem exists_loop {done rest : List DataStorageOperation} {p : Json × Json}
    (hv₀ : rt.startValue orig m.default = some v₀) (hops : m.operations = done ++ rest)
    (hdone : done.foldlM rt.passOperation (v₀, .null) = some p)
    (hdefault : orig ≠ none ∨ ¬ LateDefault done) :
    ∃ default start st, rt.startLoop orig m.default = .ok (default, start) ∧
      rt.operateAll default start m.operations = rt.operateAll default st rest ∧
      st.heap.Holds st.origVal p.1 ∧ st.heap.Holds st.newVal p.2 := by
  obtain ⟨default, start, hstart, hholds, hnull, hfound⟩ := startLoop_spec hv₀
  have hnew : start.heap.Holds start.newVal .null := hnull ▸ .plain rfl
  have ht : start.Timely default (done ++ []) := by
    rw [List.append_nil]
    exact timely_of_start hfound hdefault
  obtain ⟨st, hst, hx, hnew', -⟩ := operateAll_pass hholds hnew hdone ht
  refine ⟨default, start, st, hstart, ?_, hx, hnew'⟩
  rw [hops, operateAll_append, hst]
  rfl

/-- The loop stops where the fold comes to an operation that stops it. -/
theorem evaluate_of_stop {done : List DataStorageOperation} {p : Json × Json}
    {op : DataStorageOperation} (hv₀ : rt.startValue orig m.default = some v₀)
    (hcomes : Folds.Comes rt.passOperation (v₀, .null) m.operations done p op)
    (hstops : Stops p.1 op) (hdefault : orig ≠ none ∨ ¬ LateDefault done) :
    rt.evaluate orig m = .error .malformed := by
  obtain ⟨rest, hops, hdone⟩ := hcomes
  obtain ⟨default, start, st, hstart, hall, hx, -⟩ := exists_loop hv₀ hops hdone hdefault
  rw [operateAll, operate_of_stops hx hstops] at hall
  rw [evaluate, hstart]
  simp only [hall]

theorem evaluate_of_unencodable {p : Json × Json} (hv₀ : rt.startValue orig m.default = some v₀)
    (hpass : m.operations.foldlM rt.passOperation (v₀, .null) = some p)
    (hmarshal : rt.marshal p.2 = none) (hdefault : orig ≠ none ∨ ¬ LateDefault m.operations) :
    rt.evaluate orig m = .error .malformed := by
  obtain ⟨default, start, st, hstart, hall, -, hnew⟩ :=
    exists_loop hv₀ (List.append_nil _).symm hpass hdefault
  rw [operateAll] at hall
  rw [evaluate, hstart]
  simp only [hall, hnew.read_eq, hmarshal]

/-- Where no `default` comes late, an error is one that the fold comes to as well. -/
theorem evaluate_error (hv₀ : rt.startValue orig m.default = some v₀)
    (hdefault : orig ≠ none ∨ ¬ LateDefault m.operations) {e : Stop}
    (h : rt.evaluate orig m = .error e) (hne : e ≠ .panic) :
    rt.PassesToStop orig m ∨ rt.PassesUnencodable orig m := by
  cases hpass : m.operations.foldlM rt.passOperation (v₀, .null) with
  | none =>
    obtain ⟨done, p, op, ⟨rest, hops, hdone⟩, hnone⟩ := Folds.exists_comes hpass
    have hdefault' : orig ≠ none ∨ ¬ LateDefault done :=
      hdefault.imp_right fun hlate h => hlate (hops ▸ h.append (op :: rest))
    obtain ⟨default, start, st, hstart, hall, hx, -⟩ := exists_loop hv₀ hops hdone hdefault'
    have hadd : ¬ AddsToOther p.1 op := fun hadd => by
      rw [passOperation, if_pos hadd] at hnone
      cases hnone
    rw [passOperation, if_neg hadd, Option.map_eq_none_iff] at hnone
    obtain hstops | hpanic : Stops p.1 op ∨ rt.operate default st op = .error .panic :=
      stops_or_panics hx hadd hnone
    · exact .inl ⟨v₀, done, p, op, hv₀, ⟨rest, hops, hdone⟩, hstops⟩
    · rw [operateAll, hpanic] at hall
      rw [evaluate, hstart] at h
      simp only [hall, Except.error.injEq] at h
      exact absurd h.symm hne
  | some p =>
    obtain ⟨default, start, st, hstart, hall, -, hnew⟩ :=
      exists_loop hv₀ (List.append_nil _).symm hpass hdefault
    rw [operateAll] at hall
    rw [evaluate, hstart] at h
    simp only [hall, hnew.read_eq] at h
    cases hmarshal : rt.marshal p.2 with
    | none => exact .inr ⟨v₀, p, hv₀, hpass, hmarshal⟩
    | some b =>
      rw [hmarshal] at h
      cases h

end Loop

section Rejects

variable {rt : Interpreter} {env : Env} {db : Savefile} {m : SetMessage}

/-- An error of the evaluation is returned, and nothing is written. -/
theorem rejects_of_evaluate (hkey : readOnlyKeyPrefix.isPrefixOf m.key = false)
    (h : rt.evaluate (db.getStoredData env m.key) m = .error .malformed) :
    rt.Rejects env db m := by
  intro _
  rw [Proc.final, run_updateDataStorage_error hkey h]
  exact ⟨⟨_, rfl, by simp⟩, rfl⟩

theorem rejects_of_readOnly (hkey : readOnlyKeyPrefix.isPrefixOf m.key = true) :
    rt.Rejects env db m := by
  intro _
  rw [Proc.final, updateDataStorage, if_pos hkey]
  exact ⟨⟨_, rfl, by simp⟩, rfl⟩

/-- The operation that the fold comes to stops the loop, if no `default` came late before it. -/
theorem rejects_of_stops (hkey : readOnlyKeyPrefix.isPrefixOf m.key = false)
    (h : ¬ rt.FoldMeets (db.getStoredData env m.key) m fun done v op => Inapplicable v op ∧
      (AddsToOther v op ∨ db.getStoredData env m.key = none ∧ LateDefault done)) :
    rt.Rejects env db m := by
  intro hmeets
  obtain ⟨v₀, done, v, op, hv₀, hcomes, hbad⟩ := hmeets
  have hmet : ¬ (AddsToOther v op ∨ db.getStoredData env m.key = none ∧ LateDefault done) :=
    fun hor => h ⟨v₀, done, v, op, hv₀, hcomes, hbad, hor⟩
  obtain ⟨hadd, hlate⟩ := not_or.mp hmet
  obtain ⟨rest, hops, hdone⟩ := hcomes
  obtain ⟨p, hpass, rfl⟩ := passes_of_fold (w := .null) hdone
  refine rejects_of_evaluate hkey ?_ ⟨v₀, done, p.1, op, hv₀, ⟨rest, hops, hdone⟩, hbad⟩
  exact evaluate_of_stop hv₀ ⟨rest, hops, hpass⟩ ⟨hbad, hadd⟩ (not_and_or.mp hlate)

/-- A message that meets an inapplicable operation changes nothing, unless that is an `add` to
a value that is neither a number nor a list, or a `default` came late for a missing key before
it. Without a late `default` it changes nothing after such an `add` either exactly if, going
on, it comes to an operation that stops it, or to a value without an encoding. -/
theorem rejects_iff :
    (readOnlyKeyPrefix.isPrefixOf m.key = true ∨
      ¬ rt.FoldMeets (db.getStoredData env m.key) m (fun done v op => Inapplicable v op ∧
        (AddsToOther v op ∨ db.getStoredData env m.key = none ∧ LateDefault done)) →
      rt.Rejects env db m) ∧
    (db.getStoredData env m.key ≠ none ∨ ¬ LateDefault m.operations →
      (rt.Rejects env db m ↔ readOnlyKeyPrefix.isPrefixOf m.key = true ∨
        ¬ rt.FoldMeets (db.getStoredData env m.key) m (fun _ => AddsToOther) ∨
        rt.PassesToStop (db.getStoredData env m.key) m ∨
        rt.PassesUnencodable (db.getStoredData env m.key) m)) := by
  cases hkey : readOnlyKeyPrefix.isPrefixOf m.key with
  | true => exact ⟨fun _ => rejects_of_readOnly hkey,
      fun _ => iff_of_true (rejects_of_readOnly hkey) (.inl rfl)⟩
  | false =>
    refine ⟨fun h => rejects_of_stops hkey (h.resolve_left nofun), fun hdefault => ?_⟩
    constructor
    · intro h
      by_cases hadd : rt.FoldMeets (db.getStoredData env m.key) m (fun _ => AddsToOther)
      · obtain ⟨v₀, done, v, op, hv₀, hcomes, hother⟩ := hadd
        obtain ⟨⟨e, hres, hne⟩, -⟩ := h ⟨v₀, done, v, op, hv₀, hcomes, hother.inapplicable⟩
        cases heval : rt.evaluate (db.getStoredData env m.key) m with
        | ok b =>
          rw [run_updateDataStorage_ok hkey heval] at hres
          cases hres
        | error e' =>
          rw [run_updateDataStorage_error hkey heval] at hres
          cases hres
          exact .inr (.inr (evaluate_error hv₀ hdefault heval hne))
      · exact .inr (.inl hadd)
    · rintro (h | hadd | hstop | hmarshal)
      · cases h
      · -- no `default` before the operation is late, as none is
        refine rejects_of_stops hkey ?_
        rintro ⟨v₀, done, v, op, hv₀, hcomes, -, hother | ⟨hnone, hlate⟩⟩
        · exact hadd ⟨v₀, done, v, op, hv₀, hcomes, hother⟩
        · obtain ⟨rest, hops, -⟩ := hcomes
          exact hdefault.elim (fun h => h hnone) fun h => h (hops ▸ hlate.append (op :: rest))
      · obtain ⟨v₀, done, p, op, hv₀, hcomes, hstops⟩ := hstop
        obtain ⟨rest, hops, -⟩ := id hcomes
        refine rejects_of_evaluate hkey (evaluate_of_stop hv₀ hcomes hstops ?_)
        exact hdefault.imp_right fun h hlate => h (hops ▸ hlate.append (op :: rest))
      · obtain ⟨v₀, p, hv₀, hpass, hmarshal⟩ := hmarshal
        exact rejects_of_evaluate hkey (evaluate_of_unencodable hv₀ hpass hmarshal hdefault)

end Rejects

/-- A `replace`, an `update` of the boolean that it leaves, and another `replace`. -/
def replaceAndUpdate : SetMessage :=
  ⟨lit "k", .null, false,
    [⟨lit "replace", .bool false⟩, ⟨lit "update", .null⟩, ⟨lit "replace", .null⟩]⟩

theorem rejects_iff_sample :
    (∃ e, ((updateDataStorage sampleInterpreter (.inOrder false) replaceAndUpdate).run
        storedTrue).result = .error e ∧ e ≠ .panic) ∧
      (updateDataStorage sampleInterpreter (.inOrder false) replaceAndUpdate).final storedTrue =
        storedTrue := by
  have hcondition : ¬ sampleInterpreter.FoldMeets (storedTrue.getStoredData (.inOrder false)
      replaceAndUpdate.key) replaceAndUpdate fun _ => AddsToOther := by
    rintro ⟨v₀, done, v, op, hv₀, ⟨rest, hops, -⟩, hadd, -⟩
    have hmem : op ∈ replaceAndUpdate.operations :=
      hops ▸ List.mem_append_right _ List.mem_cons_self
    have hnone : ∀ op ∈ replaceAndUpdate.operations, op.kind ≠ some .add := by decide
    exact hnone op hmem hadd
  have hmeets : sampleInterpreter.FoldMeets (storedTrue.getStoredData (.inOrder false)
      replaceAndUpdate.key) replaceAndUpdate fun _ => Inapplicable := by
    refine ⟨.bool true, [⟨lit "replace", .bool false⟩], .bool false, ⟨lit "update", .null⟩, rfl,
      ⟨[⟨lit "replace", .null⟩], rfl, rfl⟩, fun k hk => ?_⟩
    have hupdate : (⟨lit "update", .null⟩ : DataStorageOperation).kind = some .update := by decide
    cases hupdate.symm.trans hk
    rfl
  exact (rejects_iff.2 (.inl (by decide))).mpr (.inr (.inl hcondition)) hmeets

/-- An `add` to a stored boolean is inapplicable, but it stores null. -/
theorem add_to_true_stores : ¬ sampleInterpreter.Rejects (.inOrder false) storedTrue
    ⟨lit "k", .null, false, [⟨lit "add", .bool true⟩]⟩ := by
  intro h
  obtain ⟨⟨e, hres, -⟩, -⟩ := h ⟨.bool true, [], .bool true, ⟨lit "add", .bool true⟩, rfl,
    ⟨[], rfl, rfl⟩, AddsToOther.inapplicable ⟨by decide, rfl⟩⟩
  have hok : ((updateDataStorage sampleInterpreter (.inOrder false)
      ⟨lit "k", .null, false, [⟨lit "add", .bool true⟩]⟩).run storedTrue).result =
      .ok (some (lit "true"), lit "null") := rfl
  rw [hok] at hres
  cases hres

end Interpreter

end Isthmus
