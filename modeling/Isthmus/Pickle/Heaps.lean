import Isthmus.Pickle.Machine
import Mathlib.Data.List.Nodup

/-!
# What the machine leaves

Every reference that the machine makes is to a list, a dict or a set that is there.
A dict has each key once, and a set each element.

## Main definitions

- `Value.Scoped`: the references of a value are to what is there
- `Heap.WellFormed`: what holds of the lists, dicts and sets

## Main results

- `exec_wellFormed`: it holds of what the machine returns
-/

namespace Isthmus.Pickle

mutual

/-- The references in the value are to the first cells. -/
def Value.Scoped (n : Nat) : Value → Prop
  | .tuple items => Value.ScopedAll n items
  | .object cls arguments => cls.Scoped n ∧ Value.ScopedAll n arguments
  | .ref r => r < n
  | _ => True

def Value.ScopedAll (n : Nat) : List Value → Prop
  | [] => True
  | v :: l => v.Scoped n ∧ Value.ScopedAll n l

end

/-- The value can be a key of a dict. -/
def Value.IsKey (v : Value) : Prop := State.checkDictKey v = .ok ()

def Cell.WellFormed (n : Nat) : Cell → Prop
  | .list items => ∀ v ∈ items, v.Scoped n
  | .dict items => (items.map Prod.fst).Nodup ∧
    ∀ e ∈ items, e.1.IsKey ∧ e.1.Scoped n ∧ e.2.Scoped n
  | .set items => items.Nodup ∧ ∀ v ∈ items, v.Scoped n

def Heap.WellFormed (heap : Heap) : Prop := ∀ c ∈ heap, c.WellFormed heap.length

/-- The values and the cells are in scope, and each key and element is there once. -/
structure State.WellFormed (vm : State) : Prop where
  stack : ∀ v ∈ vm.stack, v.Scoped vm.heap.length
  memo : ∀ v ∈ vm.memo, v.Scoped vm.heap.length
  heap : vm.heap.WellFormed

section Scopes

variable {n m : Nat}

theorem scopedAll_iff {l : List Value} : Value.ScopedAll n l ↔ ∀ v ∈ l, v.Scoped n := by
  induction l with
  | nil => simp [Value.ScopedAll]
  | cons v l ih => rw [Value.ScopedAll, ih, List.forall_mem_cons]

@[simp] theorem scoped_tuple {items : List Value} :
    (Value.tuple items).Scoped n ↔ ∀ v ∈ items, v.Scoped n := by
  rw [Value.Scoped, scopedAll_iff]

@[simp] theorem scoped_object {cls : Value} {arguments : List Value} :
    (Value.object cls arguments).Scoped n ↔ cls.Scoped n ∧ ∀ v ∈ arguments, v.Scoped n := by
  rw [Value.Scoped, scopedAll_iff]

mutual

/-- A value stays in scope when more cells are made. -/
theorem Value.Scoped.mono (hle : n ≤ m) : ∀ {v : Value}, v.Scoped n → v.Scoped m
  | .tuple _, h => Value.ScopedAll.mono hle h
  | .object _ _, h => ⟨Value.Scoped.mono hle h.1, Value.ScopedAll.mono hle h.2⟩
  | .ref _, h => Nat.lt_of_lt_of_le h hle
  | .none, _ | .bool _, _ | .int _, _ | .string _, _ | .mark, _ | .symbol _ _, _ => trivial

theorem Value.ScopedAll.mono (hle : n ≤ m) :
    ∀ {l : List Value}, Value.ScopedAll n l → Value.ScopedAll m l
  | [], _ => trivial
  | _ :: _, h => ⟨Value.Scoped.mono hle h.1, Value.ScopedAll.mono hle h.2⟩

end

theorem Cell.WellFormed.mono (hle : n ≤ m) {c : Cell} (h : c.WellFormed n) : c.WellFormed m := by
  cases c with
  | list items => exact fun v hv => (h v hv).mono hle
  | dict items =>
    refine ⟨h.1, fun e he => ?_⟩
    obtain ⟨hkey, hfst, hsnd⟩ := h.2 e he
    exact ⟨hkey, hfst.mono hle, hsnd.mono hle⟩
  | set items => exact ⟨h.1, fun v hv => (h.2 v hv).mono hle⟩

end Scopes

/-! ## Sets and dicts -/

section Updates

variable {heap : Heap} {n : Nat}

theorem addItem_wellFormed {l l' : List Value} {item : Value}
    (h : State.addItem heap l item = .ok l') (hl : (Cell.set l).WellFormed n)
    (hitem : item.Scoped n) : (Cell.set l').WellFormed n := by
  unfold State.addItem at h
  split at h
  · cases h
    split
    · exact hl
    · next hnew =>
      have hmem : item ∉ l := by
        intro hin
        exact hnew (List.any_eq_true.mpr ⟨item, hin, (item.equals_iff item).mpr rfl⟩)
      refine ⟨List.nodup_append.mpr ⟨hl.1, List.nodup_singleton item, ?_⟩, ?_⟩
      · intro a ha b hb
        rw [List.mem_singleton.mp hb]
        rintro rfl
        exact hmem ha
      · intro v hv
        obtain hv | hv := List.mem_append.mp hv
        · exact hl.2 v hv
        · rw [List.mem_singleton.mp hv]
          exact hitem
  · cases h

theorem addEach_wellFormed {items l l' : List Value}
    (h : items.foldlM (State.addItem heap) l = .ok l') (hl : (Cell.set l).WellFormed n)
    (hitems : ∀ v ∈ items, v.Scoped n) : (Cell.set l').WellFormed n := by
  induction items generalizing l with
  | nil =>
    cases h
    exact hl
  | cons item items ih =>
    rw [List.foldlM_cons] at h
    obtain ⟨l₁, hl₁, hrest⟩ := bind_eq_ok.mp h
    obtain ⟨hitem, hitems⟩ := List.forall_mem_cons.mp hitems
    exact ih hrest (addItem_wellFormed hl₁ hl hitem) hitems

theorem assign_wellFormed {l l' : List (Value × Value)} {key value : Value}
    (h : State.assign heap l key value = .ok l') (hl : (Cell.dict l).WellFormed n)
    (hkey : key.IsKey) (hk : key.Scoped n) (hv : value.Scoped n) :
    (Cell.dict l').WellFormed n := by
  unfold State.assign at h
  split at h
  · cases h
    split
    · -- the keys stay as they are
      have hkeys : (l.map fun e => if key.equals e.1 then (e.1, value) else e).map Prod.fst =
          l.map Prod.fst := by
        rw [List.map_map]
        refine List.map_congr_left fun e _ => ?_
        dsimp only [Function.comp]
        split <;> rfl
      refine ⟨hkeys ▸ hl.1, List.forall_mem_map.mpr fun e he => ?_⟩
      obtain ⟨hkey', hfst, hsnd⟩ := hl.2 e he
      split
      · exact ⟨hkey', hfst, hv⟩
      · exact ⟨hkey', hfst, hsnd⟩
    · next hnew =>
      have hmem : key ∉ l.map Prod.fst := by
        intro hin
        obtain ⟨e, he, heq⟩ := List.mem_map.mp hin
        exact hnew (List.any_eq_true.mpr ⟨e, he, (key.equals_iff e.1).mpr heq.symm⟩)
      refine ⟨?_, fun e he => ?_⟩
      · rw [List.map_append]
        refine List.nodup_append.mpr ⟨hl.1, List.nodup_singleton key, ?_⟩
        intro a ha b hb
        rw [List.mem_singleton.mp hb]
        rintro rfl
        exact hmem ha
      · obtain he | he := List.mem_append.mp he
        · exact hl.2 e he
        · rw [List.mem_singleton.mp he]
          exact ⟨hkey, hk, hv⟩
  · cases h

theorem assignAll_wellFormed {l l' : List (Value × Value)} {kvps : List Value}
    (h : State.assignAll heap l kvps = .ok l') (hl : (Cell.dict l).WellFormed n)
    (hkvps : ∀ v ∈ kvps, v.Scoped n) : (Cell.dict l').WellFormed n := by
  induction l, kvps using State.assignAll.induct with
  | case1 l key value kvps ih =>
    rw [State.assignAll] at h
    obtain ⟨⟨⟩, hkey, h⟩ := bind_eq_ok.mp h
    obtain ⟨l₁, hl₁, hrest⟩ := bind_eq_ok.mp h
    obtain ⟨hk, hkvps⟩ := List.forall_mem_cons.mp hkvps
    obtain ⟨hv, hkvps⟩ := List.forall_mem_cons.mp hkvps
    exact ih l₁ hrest (assign_wellFormed hl₁ hl hkey hk hv) hkvps
  | case2 kvps l hne =>
    rw [State.assignAll] at h
    · cases h
      exact hl
    · exact hne

end Updates

/-! ## The stack -/

section Stack

variable {vm vm' : State} {v : Value}

theorem State.WellFormed.push (h : vm.WellFormed) (hv : v.Scoped vm.heap.length) :
    (vm.push v).WellFormed := ⟨List.forall_mem_cons.mpr ⟨hv, h.stack⟩, h.memo, h.heap⟩

/-- Values that were on the stack are taken from it. -/
theorem State.WellFormed.drop (h : vm.WellFormed) {stack : List Value}
    (hstack : ∀ v ∈ stack, v ∈ vm.stack) : { vm with stack := stack }.WellFormed :=
  ⟨fun v hv => h.stack v (hstack v hv), h.memo, h.heap⟩

/-- A list, dict or set is changed. -/
theorem State.WellFormed.setCell (h : vm.WellFormed) {r : Nat} {c : Cell}
    (hc : c.WellFormed vm.heap.length) : { vm with heap := vm.heap.set r c }.WellFormed := by
  have hlength : (vm.heap.set r c).length = vm.heap.length := List.length_set
  refine ⟨fun v hv => ?_, fun v hv => ?_, fun c' hc' => ?_⟩
  · exact hlength.symm ▸ h.stack v hv
  · exact hlength.symm ▸ h.memo v hv
  · rw [hlength]
    obtain hc' | rfl := List.mem_or_eq_of_mem_set hc'
    · exact h.heap c' hc'
    · exact hc

theorem State.WellFormed.pop (h : vm.WellFormed) (hpop : vm.pop = .ok (v, vm')) :
    v.Scoped vm'.heap.length ∧ vm'.WellFormed := by
  unfold State.pop at hpop
  split at hpop
  · cases hpop
  · next w stack hstack =>
    split at hpop
    · cases hpop
    · cases hpop
      have hmem : ∀ u ∈ v :: stack, u ∈ vm.stack := fun u hu => hstack ▸ hu
      exact ⟨h.stack v (hmem v List.mem_cons_self),
        h.drop fun u hu => hmem u (List.mem_cons_of_mem v hu)⟩

theorem State.WellFormed.popUntilMark (h : vm.WellFormed) {items : List Value}
    (hpop : vm.popUntilMark = .ok (items, vm')) :
    (∀ v ∈ items, v.Scoped vm'.heap.length) ∧ vm'.WellFormed := by
  unfold State.popUntilMark at hpop
  split at hpop
  · cases hpop
  · next w stack hstack =>
    cases hpop
    refine ⟨fun v hv => h.stack v ?_, h.drop fun v hv => ?_⟩
    · exact List.takeWhile_subset _ (List.mem_reverse.mp hv)
    · have hmem : v ∈ vm.stack.dropWhile fun v => !v.isMark :=
        hstack ▸ List.mem_cons_of_mem w hv
      exact List.dropWhile_subset _ hmem

theorem State.WellFormed.pushNew (h : vm.WellFormed) {c : Cell}
    (hc : ∀ n, c.WellFormed n) : (vm.pushNew c).WellFormed := by
  have hle : vm.heap.length ≤ (vm.heap ++ [c]).length := by simp
  refine ⟨List.forall_mem_cons.mpr ⟨?_, fun v hv => (h.stack v hv).mono hle⟩,
    fun v hv => (h.memo v hv).mono hle, fun c' hc' => ?_⟩
  · simp [Value.Scoped, State.pushNew]
  · obtain hc' | hc' := List.mem_append.mp hc'
    · exact (h.heap c' hc').mono hle
    · rw [List.mem_singleton.mp hc']
      exact hc _

theorem State.WellFormed.cell (h : vm.WellFormed) {r : Nat} {c : Cell}
    (hcell : vm.cell v = some (r, c)) : c.WellFormed vm.heap.length := by
  cases v with
  | ref s =>
    obtain ⟨c', hc', heq⟩ := Option.map_eq_some_iff.mp hcell
    cases heq
    exact h.heap c (List.mem_of_getElem? hc')
  | _ => cases hcell

end Stack

/-! ## The instructions -/

/-- The instruction keeps the state well-formed. -/
def Keeps (f : State → Except Fault State) : Prop :=
  ∀ vm vm', vm.WellFormed → f vm = .ok vm' → vm'.WellFormed

section Instructions

theorem keeps_push {v : Value} (hv : ∀ n, v.Scoped n) : Keeps fun vm => .ok (vm.push v) := by
  intro vm vm' h heq
  cases heq
  exact h.push (hv _)

theorem keeps_pushNew {c : Cell} (hc : ∀ n, c.WellFormed n) :
    Keeps fun vm => .ok (vm.pushNew c) := by
  intro vm vm' h heq
  cases heq
  exact h.pushNew hc

theorem keeps_memoize : Keeps State.memoize := by
  intro vm vm' h hmemo
  unfold State.memoize at hmemo
  split at hmemo
  · cases hmemo
  · next v stack hstack =>
    cases hmemo
    refine ⟨h.stack, fun w hw => ?_, h.heap⟩
    obtain hw | hw := List.mem_append.mp hw
    · exact h.memo w hw
    · rw [List.mem_singleton.mp hw]
      exact h.stack v (hstack ▸ List.mem_cons_self)

theorem keeps_pushMemo (i : Nat) : Keeps fun vm => vm.pushMemo i := by
  intro vm vm' h hpush
  simp only [State.pushMemo] at hpush
  split at hpush
  · cases hpush
  · next v hv =>
    cases hpush
    exact h.push (h.memo v (List.mem_of_getElem? hv))

theorem keeps_stackGlobal : Keeps State.stackGlobal := by
  intro vm vm' h hglobal
  obtain ⟨⟨v, vm₁⟩, hpop, hglobal⟩ := bind_eq_ok.mp hglobal
  cases v with
  | string attr =>
    obtain ⟨⟨w, vm₂⟩, hpop', hglobal⟩ := bind_eq_ok.mp hglobal
    cases w with
    | string module =>
      cases hglobal
      exact ((h.pop hpop).2.pop hpop').2.push trivial
    | _ => cases hglobal
  | _ => cases hglobal

theorem keeps_tuple : Keeps State.tuple := by
  intro vm vm' h htuple
  obtain ⟨⟨items, vm₁⟩, hpop, htuple⟩ := bind_eq_ok.mp htuple
  cases htuple
  obtain ⟨hitems, h₁⟩ := h.popUntilMark hpop
  exact h₁.push (scoped_tuple.mpr hitems)

theorem keeps_tuple1 : Keeps State.tuple1 := by
  intro vm vm' h htuple
  obtain ⟨⟨v₁, vm₁⟩, hpop, htuple⟩ := bind_eq_ok.mp htuple
  cases htuple
  obtain ⟨hv₁, h₁⟩ := h.pop hpop
  exact h₁.push (by simpa using hv₁)

/-- A pop leaves the cells as they are. -/
theorem pop_heap {vm vm' : State} {v : Value} (hpop : vm.pop = .ok (v, vm')) :
    vm'.heap = vm.heap := by
  unfold State.pop at hpop
  split at hpop
  · cases hpop
  · split at hpop
    · cases hpop
    · cases hpop
      rfl

theorem keeps_tuple2 : Keeps State.tuple2 := by
  intro vm vm' h htuple
  obtain ⟨⟨v₂, vm₁⟩, hpop, htuple⟩ := bind_eq_ok.mp htuple
  obtain ⟨⟨v₁, vm₂⟩, hpop', htuple⟩ := bind_eq_ok.mp htuple
  cases htuple
  obtain ⟨hv₂, h₁⟩ := h.pop hpop
  obtain ⟨hv₁, h₂⟩ := h₁.pop hpop'
  rw [← pop_heap hpop'] at hv₂
  exact h₂.push (by simp [hv₁, hv₂])

theorem keeps_tuple3 : Keeps State.tuple3 := by
  intro vm vm' h htuple
  obtain ⟨⟨v₃, vm₁⟩, hpop, htuple⟩ := bind_eq_ok.mp htuple
  obtain ⟨⟨v₂, vm₂⟩, hpop', htuple⟩ := bind_eq_ok.mp htuple
  obtain ⟨⟨v₁, vm₃⟩, hpop'', htuple⟩ := bind_eq_ok.mp htuple
  cases htuple
  obtain ⟨hv₃, h₁⟩ := h.pop hpop
  obtain ⟨hv₂, h₂⟩ := h₁.pop hpop'
  obtain ⟨hv₁, h₃⟩ := h₂.pop hpop''
  rw [← pop_heap hpop', ← pop_heap hpop''] at hv₃
  rw [← pop_heap hpop''] at hv₂
  exact h₃.push (by simp [hv₁, hv₂, hv₃])

theorem State.WellFormed.appendItems {vm vm' : State} {items : List Value} (h : vm.WellFormed)
    (hitems : ∀ v ∈ items, v.Scoped vm.heap.length) (happend : vm.appendItems items = .ok vm') :
    vm'.WellFormed := by
  obtain ⟨target, -, happend⟩ := bind_eq_ok.mp happend
  split at happend
  · next r l hcell =>
    cases happend
    have hl : (Cell.list l).WellFormed vm.heap.length := h.cell hcell
    refine h.setCell fun v hv => ?_
    obtain hv | hv := List.mem_append.mp hv
    · exact hl v hv
    · exact hitems v hv
  · cases happend

theorem keeps_append : Keeps State.append := by
  intro vm vm' h happend
  obtain ⟨⟨item, vm₁⟩, hpop, happend⟩ := bind_eq_ok.mp happend
  obtain ⟨hitem, h₁⟩ := h.pop hpop
  exact h₁.appendItems (by simpa using hitem) happend

theorem keeps_appends : Keeps State.appends := by
  intro vm vm' h happends
  obtain ⟨⟨items, vm₁⟩, hpop, happends⟩ := bind_eq_ok.mp happends
  obtain ⟨hitems, h₁⟩ := h.popUntilMark hpop
  exact h₁.appendItems hitems happends

theorem keeps_addItems : Keeps State.addItems := by
  intro vm vm' h hadd
  obtain ⟨⟨items, vm₁⟩, hpop, hadd⟩ := bind_eq_ok.mp hadd
  obtain ⟨target, -, hadd⟩ := bind_eq_ok.mp hadd
  obtain ⟨hitems, h₁⟩ := h.popUntilMark hpop
  split at hadd
  · next r l hcell =>
    obtain ⟨l', hl', hadd⟩ := bind_eq_ok.mp hadd
    cases hadd
    exact h₁.setCell (addEach_wellFormed hl' (h₁.cell hcell) hitems)
  · cases hadd

theorem keeps_setItem : Keeps State.setItem := by
  intro vm vm' h hset
  obtain ⟨⟨value, vm₁⟩, hpop, hset⟩ := bind_eq_ok.mp hset
  obtain ⟨⟨key, vm₂⟩, hpop', hset⟩ := bind_eq_ok.mp hset
  obtain ⟨⟨⟩, hkey, hset⟩ := bind_eq_ok.mp hset
  obtain ⟨target, -, hset⟩ := bind_eq_ok.mp hset
  obtain ⟨hv, h₁⟩ := h.pop hpop
  obtain ⟨hk, h₂⟩ := h₁.pop hpop'
  rw [← pop_heap hpop'] at hv
  split at hset
  · next r l hcell =>
    obtain ⟨l', hl', hset⟩ := bind_eq_ok.mp hset
    cases hset
    exact h₂.setCell (assign_wellFormed hl' (h₂.cell hcell) hkey hk hv)
  · cases hset

theorem keeps_setItems : Keeps State.setItems := by
  intro vm vm' h hset
  obtain ⟨⟨kvps, vm₁⟩, hpop, hset⟩ := bind_eq_ok.mp hset
  obtain ⟨hkvps, h₁⟩ := h.popUntilMark hpop
  dsimp only at hset
  split at hset
  · cases hset
  · obtain ⟨target, -, hset⟩ := bind_eq_ok.mp hset
    split at hset
    · next r l hcell =>
      obtain ⟨l', hl', hset⟩ := bind_eq_ok.mp hset
      cases hset
      exact h₁.setCell (assignAll_wellFormed hl' (h₁.cell hcell) hkvps)
    · cases hset

theorem keeps_newObj : Keeps State.newObj := by
  intro vm vm' h hnew
  obtain ⟨⟨v, vm₁⟩, hpop, hnew⟩ := bind_eq_ok.mp hnew
  obtain ⟨hv, h₁⟩ := h.pop hpop
  cases v with
  | tuple arguments =>
    obtain ⟨⟨cls, vm₂⟩, hpop', hnew⟩ := bind_eq_ok.mp hnew
    cases hnew
    obtain ⟨hcls, h₂⟩ := h₁.pop hpop'
    rw [← pop_heap hpop', scoped_tuple] at hv
    exact h₂.push (scoped_object.mpr ⟨hcls, hv⟩)
  | _ => cases hnew

end Instructions

/-! ## The loop -/

/-- The instruction with its argument keeps the state well-formed. -/
def KeepsMachine (f : Machine → Except Fault Machine) : Prop :=
  ∀ vm vm', vm.toState.WellFormed → f vm = .ok vm' → vm'.toState.WellFormed

section Machine

theorem keeps_plain {f : State → Except Fault State} (hf : Keeps f) :
    KeepsMachine fun vm => vm.plain f := by
  intro vm vm' h hplain
  obtain ⟨st, hst, hplain⟩ := bind_eq_ok.mp hplain
  cases hplain
  exact hf _ st h hst

theorem keeps_pushing {v : Value} (hv : ∀ n, v.Scoped n) :
    KeepsMachine fun vm => vm.pushing v := keeps_plain (keeps_push hv)

/-- Reading leaves the state as it is. -/
theorem readByte_state {vm vm' : Machine} {b : UInt8} (h : vm.readByte = .ok (b, vm')) :
    vm'.toState = vm.toState := by
  unfold Machine.readByte at h
  split at h
  · cases h
  · cases h
    rfl

theorem keeps_readByte {f : UInt8 × Machine → Except Fault Machine}
    (hf : ∀ b, KeepsMachine fun vm => f (b, vm)) : KeepsMachine fun vm => vm.readByte >>= f := by
  intro vm vm' h hread
  obtain ⟨⟨b, vm₁⟩, hbyte, hrest⟩ := bind_eq_ok.mp hread
  exact hf b vm₁ vm' (readByte_state hbyte ▸ h) hrest

theorem keeps_readFull {n : Nat} {f : List UInt8 × Machine → Except Fault Machine}
    (hf : ∀ bytes, KeepsMachine fun vm => f (bytes, vm)) :
    KeepsMachine fun vm => vm.readFull n >>= f := by
  intro vm vm' h hread
  obtain ⟨⟨bytes, vm₁⟩, hbytes, hrest⟩ := bind_eq_ok.mp hread
  refine hf bytes vm₁ vm' ?_ hrest
  unfold Machine.readFull at hbytes
  split at hbytes
  · cases hbytes
    exact h
  · cases hbytes

theorem keeps_readUint {size : Nat} {f : Nat × Machine → Except Fault Machine}
    (hf : ∀ n, KeepsMachine fun vm => f (n, vm)) :
    KeepsMachine fun vm => vm.readUint size >>= f := by
  intro vm vm' h hread
  obtain ⟨⟨n, vm₁⟩, huint, hrest⟩ := bind_eq_ok.mp hread
  obtain ⟨⟨bytes, vm₂⟩, hbytes, hret⟩ := bind_eq_ok.mp huint
  cases hret
  have hfull : vm.readFull size >>= (fun p => f (Machine.littleEndian p.1, p.2)) = .ok vm' :=
    bind_eq_ok.mpr ⟨_, hbytes, hrest⟩
  exact keeps_readFull (fun bytes => hf (Machine.littleEndian bytes)) vm vm' h hfull

theorem keeps_pushString (n : Nat) : KeepsMachine fun vm => vm.pushString n := by
  intro vm vm' h hpush
  simp only [Machine.pushString] at hpush
  split at hpush
  · cases hpush
  · split at hpush
    · cases hpush
    · exact keeps_readFull (fun s => keeps_pushing (v := .string s) fun _ => trivial) vm vm' h hpush

theorem keeps_instructions : ∀ p ∈ instructions, KeepsMachine p.2 := by
  unfold instructions
  simp only [List.forall_mem_cons]
  have hempty : ∀ n, (Value.tuple []).Scoped n := fun n => by simp
  refine ⟨keeps_pushing fun _ => trivial, keeps_plain (keeps_pushNew fun _ => by
      simp [Cell.WellFormed]), keeps_plain (keeps_pushNew fun _ => by simp [Cell.WellFormed]),
    keeps_pushing hempty, keeps_plain (keeps_pushNew fun _ => by simp [Cell.WellFormed]),
    keeps_pushing fun _ => trivial, keeps_pushing fun _ => trivial,
    keeps_pushing fun _ => trivial, keeps_plain keeps_tuple, keeps_plain keeps_tuple1,
    keeps_plain keeps_tuple2, keeps_plain keeps_tuple3, keeps_plain keeps_memoize,
    keeps_readByte fun b => keeps_plain (keeps_pushMemo _),
    keeps_readUint fun i => keeps_plain (keeps_pushMemo _), ?_,
    keeps_readByte fun size => keeps_pushString _, keeps_readUint keeps_pushString,
    keeps_readUint keeps_pushString, keeps_readUint fun n => keeps_pushing fun _ => trivial,
    keeps_readByte fun n => keeps_pushing fun _ => trivial,
    keeps_readUint fun n => keeps_pushing fun _ => trivial, keeps_plain keeps_stackGlobal,
    keeps_plain keeps_append, keeps_plain keeps_appends, keeps_plain keeps_addItems,
    keeps_plain keeps_setItem, keeps_plain keeps_setItems, keeps_plain keeps_newObj,
    keeps_plain keeps_newObj, by simp⟩
  refine keeps_readFull fun bytes vm vm' h heq => ?_
  cases heq
  exact h

/-- One step keeps the state well-formed. -/
theorem step_wellFormed {vm vm' : Machine} (h : vm.toState.WellFormed)
    (hstep : vm.step = .inr vm') : vm'.toState.WellFormed := by
  obtain ⟨opcode, vm₁, f, hread, -, hf, hvm'⟩ := step_eq_inr.mp hstep
  have h₁ : vm₁.toState.WellFormed := readByte_state hread ▸ h
  exact keeps_instructions (opcode, f) (mem_instructions hf) vm₁ _ h₁ hvm'

theorem reaches_wellFormed {vm vm' : Machine} (h : vm.toState.WellFormed)
    (hreach : execLoop.Reaches vm vm') : vm'.toState.WellFormed := by
  induction hreach with
  | refl => exact h
  | tail _ hstep ih => exact step_wellFormed ih hstep

/-- What the machine returns is well-formed. -/
theorem exec_wellFormed {src : List UInt8} {v : Value} {heap : Heap}
    (h : exec (Machine.start src) = .ok (v, heap)) : v.Scoped heap.length ∧ heap.WellFormed := by
  obtain ⟨vm, hreach, hstop⟩ := Loop.run_eq_iff.mp h
  have hstart : (Machine.start src).toState.WellFormed :=
    ⟨fun v hv => (List.not_mem_nil hv).elim, fun v hv => (List.not_mem_nil hv).elim,
      fun c hc => (List.not_mem_nil hc).elim⟩
  have hvm := reaches_wellFormed hstart hreach
  obtain ⟨vm₁, hread, hres⟩ := stop_of_step hstop
  have h₁ : vm₁.toState.WellFormed := readByte_state hread ▸ hvm
  obtain ⟨⟨w, vm₂⟩, hpop, hret⟩ := bind_eq_ok.mp hres
  obtain ⟨hw, h₂⟩ := h₁.pop hpop
  dsimp only at hret
  split at hret
  · cases hret
    exact ⟨hw, h₂.heap⟩
  · cases hret

end Machine

end Isthmus.Pickle
