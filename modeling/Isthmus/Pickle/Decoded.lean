import Isthmus.Pickle.Encodings

/-!
# Decoding standard encodings

A typing gives the tree of each list, dict or set that has been filled. A
program that pushes a value leaves the ones alone that are still being filled,
so the typing only grows, and what is typed is never changed again.

## Main results

- `Encodes.runs`: what running a program of the grammar does
- `exec_encoding`: the machine decodes every encoding
-/

namespace Isthmus.Pickle

/-- Induction over the trees. -/
theorem Tree.induct {P : Tree → Prop} (none : P .none) (scalar : ∀ k, P (.scalar k))
    (symbol : ∀ module attr, P (.symbol module attr))
    (tuple : ∀ items, (∀ t ∈ items, P t) → P (.tuple items))
    (object : ∀ cls arguments, P cls → (∀ t ∈ arguments, P t) → P (.object cls arguments))
    (list : ∀ items, (∀ t ∈ items, P t) → P (.list items))
    (dict : ∀ items, (∀ e ∈ items, P e.2) → P (.dict items))
    (set : ∀ items, P (.set items)) (t : Tree) : P t :=
  @Tree.rec P (fun items => ∀ t ∈ items, P t) (fun items => ∀ e ∈ items, P e.2) (fun e => P e.2)
    none scalar symbol tuple object list dict set
    (fun _ h => absurd h List.not_mem_nil)
    (fun _ _ hhead htail => List.forall_mem_cons.mpr ⟨hhead, htail⟩)
    (fun _ h => absurd h List.not_mem_nil)
    (fun _ _ hhead htail => List.forall_mem_cons.mpr ⟨hhead, htail⟩)
    (fun _ _ h => h) t

/-! ## Typings -/

/-- The trees of the references that have been filled. -/
abbrev Typing := Nat → Option Tree

/-- The tree of a value. -/
inductive Typed (T : Typing) : Value → Tree → Prop
  | none : Typed T .none .none
  | scalar (k : Scalar) : Typed T k.value (.scalar k)
  | symbol (module attr : GoString) : Typed T (.symbol module attr) (.symbol module attr)
  | tuple {vs : List Value} {items : List Tree} (h : List.Forall₂ (Typed T) vs items) :
    Typed T (.tuple vs) (.tuple items)
  | object {w : Value} {vs : List Value} {cls : Tree} {arguments : List Tree}
    (hcls : Typed T w cls) (h : List.Forall₂ (Typed T) vs arguments) :
    Typed T (.object w vs) (.object cls arguments)
  | list {r : Nat} {items : List Tree} (h : T r = some (.list items)) :
    Typed T (.ref r) (.list items)
  | dict {r : Nat} {items : List (Scalar × Tree)} (h : T r = some (.dict items)) :
    Typed T (.ref r) (.dict items)
  | set {r : Nat} {items : List Scalar} (h : T r = some (.set items)) :
    Typed T (.ref r) (.set items)

/-- The tree of a list, a dict or a set. -/
inductive CellTyped (T : Typing) : Cell → Tree → Prop
  | list {vs : List Value} {items : List Tree} (h : List.Forall₂ (Typed T) vs items) :
    CellTyped T (.list vs) (.list items)
  | dict {es : List (Value × Value)} {items : List (Scalar × Tree)}
    (hkeys : es.map Prod.fst = items.map fun e => e.1.value)
    (h : List.Forall₂ (Typed T) (es.map Prod.snd) (items.map Prod.snd)) :
    CellTyped T (.dict es) (.dict items)
  | set (items : List Scalar) : CellTyped T (.set (items.map Scalar.value)) (.set items)

/-- What is filled has the tree that it is given. -/
def HeapTyped (T : Typing) (heap : Heap) : Prop :=
  ∀ r t, T r = some t → ∃ c, heap[r]? = some c ∧ CellTyped T c t

/-- What is known of the entries of the memo is right. -/
structure MemoTyped (T : Typing) (values : List Value) (memo : Memo) : Prop where
  length_eq : values.length = memo.length
  typed : ∀ (i : Nat) t, memo[i]? = some (some t) → ∃ v, values[i]? = some v ∧ Typed T v t

/-- The typing grows. -/
def Typing.Le (T T' : Typing) : Prop := ∀ r t, T r = some t → T' r = some t

section Typings

variable {T T' : Typing} {heap : Heap}

theorem forall₂_imp_of_mem {α β : Type} {R S : α → β → Prop} {l : List α} {l' : List β}
    (h : List.Forall₂ R l l') (himp : ∀ b ∈ l', ∀ a, R a b → S a b) : List.Forall₂ S l l' := by
  induction h with
  | nil => exact .nil
  | @cons a b l l' hab _ ih =>
    exact .cons (himp b List.mem_cons_self a hab)
      (ih fun b' hb' => himp b' (List.mem_cons_of_mem _ hb'))

theorem Typed.mono (hle : T.Le T') {v : Value} {t : Tree} (h : Typed T v t) : Typed T' v t := by
  induction t using Tree.induct generalizing v with
  | none =>
    cases h
    exact .none
  | scalar k =>
    cases h
    exact .scalar k
  | symbol module attr =>
    cases h
    exact .symbol module attr
  | tuple items ih =>
    cases h with
    | tuple h => exact .tuple (forall₂_imp_of_mem h fun t ht v hv => ih t ht hv)
  | object cls arguments ihcls ih =>
    cases h with
    | object hcls h => exact .object (ihcls hcls) (forall₂_imp_of_mem h fun t ht v hv => ih t ht hv)
  -- a reference keeps its tree, whatever is in it
  | list items ih =>
    cases h with
    | list h => exact .list (hle _ _ h)
  | dict items ih =>
    cases h with
    | dict h => exact .dict (hle _ _ h)
  | set items =>
    cases h with
    | set h => exact .set (hle _ _ h)

theorem CellTyped.mono (hle : T.Le T') {c : Cell} {t : Tree} (h : CellTyped T c t) :
    CellTyped T' c t := by
  cases h with
  | list h => exact .list (h.imp fun _ _ hv => hv.mono hle)
  | dict hkeys h => exact .dict hkeys (h.imp fun _ _ hv => hv.mono hle)
  | set items => exact .set items

/-- A typed value is equal to its tree. -/
theorem Typed.denotes (hheap : HeapTyped T heap) {v : Value} {t : Tree} (h : Typed T v t) :
    Denotes heap v t := by
  induction t using Tree.induct generalizing v with
  | none =>
    cases h
    exact .none
  | scalar k =>
    cases h
    exact .scalar k
  | symbol module attr =>
    cases h
    exact .symbol module attr
  | tuple items ih =>
    cases h with
    | tuple h => exact .tuple (forall₂_imp_of_mem h fun t ht v hv => ih t ht hv)
  | object cls arguments ihcls ih =>
    cases h with
    | object hcls h => exact .object (ihcls hcls) (forall₂_imp_of_mem h fun t ht v hv => ih t ht hv)
  -- a reference is followed to what is filled, and the items are smaller trees
  | list items ih =>
    cases h with
    | list h =>
      obtain ⟨c, hc, hcell⟩ := hheap _ _ h
      cases hcell with
      | list hvs => exact .list hc (forall₂_imp_of_mem hvs fun t ht v hv => ih t ht hv)
  | dict items ih =>
    cases h with
    | dict h =>
      obtain ⟨c, hc, hcell⟩ := hheap _ _ h
      cases hcell with
      | dict hkeys hvs =>
        refine .dict hc hkeys (forall₂_imp_of_mem hvs fun t ht v hv => ?_)
        obtain ⟨e, he, rfl⟩ := List.mem_map.mp ht
        exact ih e he hv
  | set items =>
    cases h with
    | set h =>
      obtain ⟨c, hc, hcell⟩ := hheap _ _ h
      cases hcell
      exact .set hc

theorem Scalar.isMark_value (k : Scalar) : k.value.isMark = false := by
  cases k <;> rfl

theorem Typed.isMark {v : Value} {t : Tree} (h : Typed T v t) : v.isMark = false := by
  cases h with
  | scalar k => exact k.isMark_value
  | _ => rfl

end Typings

/-! ## Typed states -/

/-- The state of the machine is what the typing and the memo of the grammar say. -/
structure Sound (T : Typing) (M : Memo) (st : State) : Prop where
  heap : HeapTyped T st.heap
  memo : MemoTyped T st.memo M

/-- What is filled stays, and so does what is not filled, where it is `kept`. -/
structure Extends (kept : Nat → Prop) (T : Typing) (st : State) (T' : Typing) (st' : State) :
    Prop where
  le : T.Le T'
  length_le : st.heap.length ≤ st'.heap.length
  unfilled : ∀ r < st.heap.length, T r = none →
    T' r = none ∧ (kept r → st'.heap[r]? = st.heap[r]?)
  memo : st.memo <+: st'.memo

/-- A program runs from one typed state to another. -/
structure Ran (kept : Nat → Prop) (code : List Instr) (T : Typing) (st : State) (M' : Memo)
    (T' : Typing) (st' : State) : Prop where
  run_eq : run code st = .ok st'
  sound : Sound T' M' st'
  ext : Extends kept T st T' st'

section States

variable {kept : Nat → Prop} {T T₁ T₂ : Typing} {M M₁ M₂ : Memo} {st st₁ st₂ : State}
  {c c' : List Instr}

theorem Extends.rfl : Extends kept T st T st :=
  ⟨fun _ _ h => h, Nat.le_refl _, fun _ _ h => ⟨h, fun _ => Eq.refl _⟩, List.prefix_rfl⟩

theorem Extends.trans (h₁ : Extends kept T st T₁ st₁) (h₂ : Extends kept T₁ st₁ T₂ st₂) :
    Extends kept T st T₂ st₂ := by
  refine ⟨fun r t h => h₂.le r t (h₁.le r t h), Nat.le_trans h₁.length_le h₂.length_le, ?_,
    h₁.memo.trans h₂.memo⟩
  intro r hr hT
  obtain ⟨hT₁, hheap₁⟩ := h₁.unfilled r hr hT
  obtain ⟨hT₂, hheap₂⟩ := h₂.unfilled r (Nat.lt_of_lt_of_le hr h₁.length_le) hT₁
  exact ⟨hT₂, fun hk => (hheap₂ hk).trans (hheap₁ hk)⟩

theorem Extends.weaken (h : Extends (fun _ => True) T st T₁ st₁) : Extends kept T st T₁ st₁ :=
  ⟨h.le, h.length_le, fun r hr hT => (h.unfilled r hr hT).imp_right fun hk _ => hk trivial, h.memo⟩

theorem Ran.append (h₁ : Ran kept c T st M₁ T₁ st₁) (h₂ : Ran kept c' T₁ st₁ M₂ T₂ st₂) :
    Ran kept (c ++ c') T st M₂ T₂ st₂ :=
  ⟨(run_append h₁.run_eq).trans h₂.run_eq, h₂.sound, h₁.ext.trans h₂.ext⟩

theorem Ran.weaken (h : Ran (fun _ => True) c T st M₁ T₁ st₁) : Ran kept c T st M₁ T₁ st₁ :=
  ⟨h.run_eq, h.sound, h.ext.weaken⟩

/-- An instruction that changes the stack alone. -/
theorem ran_stack {i : Instr} {s : List Value} (hst : Sound T M st)
    (h : i.perform st = .ok { st with stack := s }) :
    Ran kept [i] T st M T { st with stack := s } :=
  ⟨run_singleton h, ⟨hst.heap, hst.memo⟩,
    ⟨fun _ _ h => h, Nat.le_refl _, fun _ _ h => ⟨h, fun _ => rfl⟩, List.prefix_rfl⟩⟩

/-- The value at the top becomes the last entry of the memo. -/
theorem ran_memoize {v : Value} {s : List Value} {e : Option Tree} (hst : Sound T M st)
    (hs : st.stack = v :: s) (he : ∀ t ∈ e, Typed T v t) :
    Ran kept [.memoize] T st (M ++ [e]) T { st with memo := st.memo ++ [v] } := by
  refine ⟨run_singleton ?_, ⟨hst.heap, ?_, ?_⟩,
    ⟨fun _ _ h => h, Nat.le_refl _, fun _ _ h => ⟨h, fun _ => rfl⟩, List.prefix_append _ _⟩⟩
  · rw [Instr.perform, State.memoize, hs]
  · rw [List.length_append, List.length_append, hst.memo.length_eq]
    rfl
  · intro i t hi
    -- an entry that was there before, or the new one
    rcases Nat.lt_or_ge i M.length with hlt | hge
    · rw [List.getElem?_append_left hlt] at hi
      obtain ⟨w, hw, ht⟩ := hst.memo.typed i t hi
      exact ⟨w, by rw [List.getElem?_append_left (hst.memo.length_eq ▸ hlt), hw], ht⟩
    · rw [List.getElem?_append_right hge] at hi
      rw [List.getElem?_singleton] at hi
      split at hi
      · next hzero =>
        -- a batch may have any length, a single item has its own
        cases hi
        have hlast : i = st.memo.length := by
          rw [hst.memo.length_eq]
          omega
        exact ⟨v, by rw [hlast, List.getElem?_concat_length], he t rfl⟩
      · cases hi

/-- The values above a mark. -/
theorem popUntilMark_append {vs s : List Value} (hs : st.stack = vs.reverse ++ .mark :: s)
    (hvs : ∀ v ∈ vs, v.isMark = false) :
    st.popUntilMark = .ok (vs, { st with stack := s }) := by
  have hrev : ∀ v ∈ vs.reverse, (!v.isMark) = true := by
    intro v hv
    rw [hvs v (List.mem_reverse.mp hv)]
    rfl
  have hdrop : st.stack.dropWhile (fun v => !v.isMark) = .mark :: s := by
    rw [hs, List.dropWhile_append_of_pos hrev]
    rfl
  have htake : st.stack.takeWhile (fun v => !v.isMark) = vs.reverse := by
    rw [hs, List.takeWhile_append_of_pos hrev]
    simp [Value.isMark]
  rw [State.popUntilMark, hdrop, htake, List.reverse_reverse]

theorem pop_cons {v : Value} {s : List Value} (hs : st.stack = v :: s) (hv : v.isMark = false) :
    st.pop = .ok (v, { st with stack := s }) := by
  rw [State.pop, hs]
  simp only [hv]
  rfl

theorem pop_bind {α : Type} {v : Value} {s : List Value} {f : Value × State → Except Fault α}
    (hs : st.stack = v :: s) (hv : v.isMark = false) :
    st.pop >>= f = f (v, { st with stack := s }) := by
  rw [pop_cons hs hv]
  rfl

theorem popUntilMark_bind {α : Type} {vs s : List Value} {f : List Value × State → Except Fault α}
    (hs : st.stack = vs.reverse ++ .mark :: s) (hvs : ∀ v ∈ vs, v.isMark = false) :
    st.popUntilMark >>= f = f (vs, { st with stack := s }) := by
  rw [popUntilMark_append hs hvs]
  rfl

theorem peek_bind {α : Type} {v : Value} {s : List Value} {f : Value → Except Fault α}
    (hs : st.stack = v :: s) : st.peek >>= f = f v := by
  rw [State.peek, hs]
  rfl

theorem isMark_of_typed {vs : List Value} {ts : List Tree} (h : List.Forall₂ (Typed T) vs ts) :
    ∀ v ∈ vs, v.isMark = false := by
  induction h with
  | nil => simp
  | cons hv _ ih => exact List.forall_mem_cons.mpr ⟨hv.isMark, ih⟩

end States

/-! ## Phrases -/

/-- What a program of the grammar does to a typed state. -/
def Decodes (M : Memo) (c : List Instr) : Phrase → Memo → Prop
  | .value t, M' => ∀ T st, Sound T M st → ∃ T' st' v,
    Ran (fun _ => True) c T st M' T' st' ∧ st'.stack = v :: st.stack ∧ Typed T' v t
  | .values ts, M' => ∀ T st, Sound T M st → ∃ T' st' vs,
    Ran (fun _ => True) c T st M' T' st' ∧ st'.stack = vs.reverse ++ st.stack ∧
      List.Forall₂ (Typed T') vs ts
  | .filling k items own, M' => ∀ T st r s t, Sound T M st → st.stack = .ref r :: s →
    T r = none → st.heap[r]? = some k.empty → Contents k items t → ∃ T' st' cell,
    Ran (· ≠ r) c T st M' T' st' ∧ st'.stack = st.stack ∧ st'.heap[r]? = some cell ∧
      CellTyped T' cell t ∧ ∀ i ∈ own, st'.memo[i]? = some (.ref r)

section Phrases

variable {M M₁ M' : Memo} {c c' : List Instr} {t : Tree} {ts : List Tree} {i : Instr}

theorem decodes_push {v : Value} (hi : ∀ st, i.perform st = .ok (st.push v))
    (hv : ∀ T, Typed T v t) : Decodes M [i] (.value t) M := by
  intro T st hst
  exact ⟨T, st.push v, v, ran_stack hst (hi st), rfl, hv T⟩

/-- An instruction that makes one value of those that were pushed. -/
theorem decodes_collect (h : Decodes M c (.values ts) M')
    (hi : ∀ T st vs s, List.Forall₂ (Typed T) vs ts → st.stack = vs.reverse ++ s →
      ∃ v, i.perform st = .ok { st with stack := v :: s } ∧ Typed T v t) :
    Decodes M (c ++ [i]) (.value t) M' := by
  intro T st hst
  obtain ⟨T', st', vs, hran, hstack, hvs⟩ := h T st hst
  obtain ⟨v, hv, ht⟩ := hi T' st' vs st.stack hvs hstack
  exact ⟨T', _, v, hran.append (ran_stack hran.sound hv), rfl, ht⟩

/-- Values are pushed above a mark. -/
theorem Decodes.marked (h : Decodes M c (.values ts) M') {T : Typing} {st : State}
    (hst : Sound T M st) : ∃ T' st' vs, Ran (fun _ => True) (.mark :: c) T st M' T' st' ∧
      st'.stack = vs.reverse ++ .mark :: st.stack ∧ List.Forall₂ (Typed T') vs ts := by
  have hmark : Ran (fun _ => True) [.mark] T st M T (st.push .mark) := ran_stack hst rfl
  obtain ⟨T', st', vs, hran, hstack, hvs⟩ := h T (st.push .mark) hmark.sound
  exact ⟨T', st', vs, hmark.append hran, hstack, hvs⟩

theorem decodes_tuple (h : Decodes M c (.values ts) M') :
    Decodes M (.mark :: c ++ [.tuple]) (.value (.tuple ts)) M' := by
  intro T st hst
  obtain ⟨T', st', vs, hran, hstack, hvs⟩ := h.marked hst
  have hi : Instr.tuple.perform st' = .ok { st' with stack := .tuple vs :: st.stack } :=
    popUntilMark_bind hstack (isMark_of_typed hvs)
  exact ⟨T', _, .tuple vs, hran.append (ran_stack hran.sound hi), rfl, .tuple hvs⟩

theorem decodes_tuple1 {t₁ : Tree} (h : Decodes M c (.values [t₁]) M') :
    Decodes M (c ++ [.tuple1]) (.value (.tuple [t₁])) M' := by
  refine decodes_collect h fun T st vs s hvs hs => ?_
  obtain ⟨v₁, _, hv₁, hnil, rfl⟩ := List.forall₂_cons_right_iff.mp hvs
  cases hnil
  exact ⟨.tuple [v₁], pop_bind hs hv₁.isMark, .tuple hvs⟩

/-- The values that are pushed for two trees. -/
theorem forall₂_pair {T : Typing} {vs : List Value} {t₁ t₂ : Tree}
    (h : List.Forall₂ (Typed T) vs [t₁, t₂]) :
    ∃ v₁ v₂, vs = [v₁, v₂] ∧ Typed T v₁ t₁ ∧ Typed T v₂ t₂ := by
  obtain ⟨v₁, _, hv₁, h₂, rfl⟩ := List.forall₂_cons_right_iff.mp h
  obtain ⟨v₂, _, hv₂, hnil, rfl⟩ := List.forall₂_cons_right_iff.mp h₂
  cases hnil
  exact ⟨v₁, v₂, rfl, hv₁, hv₂⟩

theorem decodes_tuple2 {t₁ t₂ : Tree} (h : Decodes M c (.values [t₁, t₂]) M') :
    Decodes M (c ++ [.tuple2]) (.value (.tuple [t₁, t₂])) M' := by
  refine decodes_collect h fun T st vs s hvs hs => ?_
  obtain ⟨v₁, v₂, rfl, hv₁, hv₂⟩ := forall₂_pair hvs
  exact ⟨.tuple [v₁, v₂], (pop_bind hs hv₂.isMark).trans (pop_bind rfl hv₁.isMark), .tuple hvs⟩

theorem decodes_tuple3 {t₁ t₂ t₃ : Tree} (h : Decodes M c (.values [t₁, t₂, t₃]) M') :
    Decodes M (c ++ [.tuple3]) (.value (.tuple [t₁, t₂, t₃])) M' := by
  refine decodes_collect h fun T st vs s hvs hs => ?_
  obtain ⟨v₁, _, hv₁, h₂, rfl⟩ := List.forall₂_cons_right_iff.mp hvs
  obtain ⟨v₂, v₃, rfl, hv₂, hv₃⟩ := forall₂_pair h₂
  exact ⟨.tuple [v₁, v₂, v₃], (pop_bind hs hv₃.isMark).trans
    ((pop_bind rfl hv₂.isMark).trans (pop_bind rfl hv₁.isMark)), .tuple hvs⟩

theorem decodes_symbol {module attr : GoString}
    (h : Decodes M c (.values [.scalar (.string module), .scalar (.string attr)]) M') :
    Decodes M (c ++ [.stackGlobal]) (.value (.symbol module attr)) M' := by
  refine decodes_collect h fun T st vs s hvs hs => ?_
  obtain ⟨v₁, v₂, rfl, hv₁, hv₂⟩ := forall₂_pair hvs
  cases hv₁
  cases hv₂
  have hstack : st.stack = .string attr :: .string module :: s := hs
  refine ⟨.symbol module attr, ?_, .symbol module attr⟩
  rw [Instr.perform, State.stackGlobal, pop_bind hstack rfl]
  exact pop_bind (v := .string module) (s := s) rfl rfl

theorem decodes_object {cls : Tree} {arguments : List Tree}
    (h : Decodes M c (.values [cls, .tuple arguments]) M') :
    Decodes M (c ++ [.newObj]) (.value (.object cls arguments)) M' := by
  refine decodes_collect h fun T st vs s hvs hs => ?_
  obtain ⟨w, v₂, rfl, hw, hv₂⟩ := forall₂_pair hvs
  cases hv₂ with
  | @tuple args _ hargs =>
    exact ⟨.object w args, (pop_bind hs rfl).trans (pop_bind rfl hw.isMark), .object hw hargs⟩

theorem decodes_get {i : Nat} (h : M[i]? = some (some t)) : Decodes M [.get i] (.value t) M := by
  intro T st hst
  obtain ⟨v, hv, ht⟩ := hst.memo.typed i t h
  refine ⟨T, st.push v, v, ran_stack hst ?_, rfl, ht⟩
  rw [Instr.perform, State.pushMemo, hv]
  rfl

theorem decodes_memoize (h : Decodes M c (.value t) M') :
    Decodes M (c ++ [.memoize]) (.value t) (M' ++ [some t]) := by
  intro T st hst
  obtain ⟨T', st', v, hran, hstack, ht⟩ := h T st hst
  refine ⟨T', _, v, hran.append (ran_memoize hran.sound hstack ?_), hstack, ht⟩
  intro t' ht'
  cases ht'
  exact ht

theorem decodes_nil : Decodes M [] (.values []) M := by
  intro T st hst
  exact ⟨T, st, [], ⟨rfl, hst, .rfl⟩, rfl, .nil⟩

theorem decodes_cons (h : Decodes M c (.value t) M₁) (hs : Decodes M₁ c' (.values ts) M') :
    Decodes M (c ++ c') (.values (t :: ts)) M' := by
  intro T st hst
  obtain ⟨T₁, st₁, v, hran₁, hstack₁, ht⟩ := h T st hst
  obtain ⟨T', st', vs, hran', hstack', hvs⟩ := hs T₁ st₁ hran₁.sound
  -- what the first program typed is still typed behind the second
  refine ⟨T', st', v :: vs, hran₁.append hran', ?_, .cons (ht.mono hran'.ext.le) hvs⟩
  rw [hstack', hstack₁, List.reverse_cons, List.append_assoc]
  rfl

end Phrases

/-! ## Filling -/

/-- The number of values that are pushed for an item. -/
def Kind.width : Kind → Nat
  | .list => 1
  | .dict => 2
  | .set => 1

/-- What the instructions of a kind do to its cell. -/
def Kind.fill (heap : Heap) : Kind → Cell → List Value → Except Fault Cell
  | .list, .list l, vs => .ok (.list (l ++ vs))
  | .dict, .dict l, vs => (State.assignAll heap l vs).map .dict
  | .set, .set l, vs => (vs.foldlM (State.addItem heap) l).map .set
  | _, _, _ => .error .emptyStack

section Filling

variable {T : Typing} {heap : Heap}

theorem equals_value (a b : Scalar) : a.value.equals b.value = decide (a = b) := by
  rw [Bool.eq_iff_iff]
  cases a <;> cases b <;> simp [Scalar.value, Value.equals]

theorem hashable_value (k : Scalar) : heap.hashable k.value = true := by
  cases k <;> rfl

theorem checkDictKey_value (k : Scalar) : State.checkDictKey k.value = .ok () := by
  cases k <;> rfl

/-- A new key is put at the end. -/
theorem assign_new {es : List (Value × Value)} {items : List (Scalar × Tree)} {k : Scalar}
    (hkeys : es.map Prod.fst = items.map fun e => e.1.value) (hk : k ∉ items.map Prod.fst)
    (v : Value) : State.assign heap es k.value v = .ok (es ++ [(k.value, v)]) := by
  have hany : (es.any fun e => k.value.equals e.1) = false := by
    rw [List.any_eq_false]
    intro e he heq
    have hmem : e.1 ∈ items.map fun e => e.1.value := hkeys ▸ List.mem_map_of_mem he
    obtain ⟨f, hf, hfe⟩ := List.mem_map.mp hmem
    rw [← hfe, equals_value, decide_eq_true_eq] at heq
    exact hk (heq ▸ List.mem_map_of_mem hf)
  rw [State.assign, if_pos (hashable_value k), hany]
  rfl

theorem assignAll_new (heap : Heap) {es : List (Value × Value)}
    {items items' : List (Scalar × Tree)} {vs : List Value}
    (hkeys : es.map Prod.fst = items.map fun e => e.1.value)
    (hes : List.Forall₂ (Typed T) (es.map Prod.snd) (items.map Prod.snd))
    (hnd : ((items ++ items').map Prod.fst).Nodup)
    (hvs : List.Forall₂ (Typed T) vs (items'.map fun e => [.scalar e.1, e.2]).flatten) :
    ∃ es', State.assignAll heap es vs = .ok es' ∧ vs.length = items'.length * 2 ∧
      CellTyped T (.dict es') (.dict (items ++ items')) := by
  induction items' generalizing items es vs with
  | nil =>
    cases hvs
    rw [List.append_nil]
    exact ⟨es, rfl, rfl, .dict hkeys hes⟩
  | cons e items' ih =>
    obtain ⟨w, _, hw, h₂, rfl⟩ := List.forall₂_cons_right_iff.mp hvs
    obtain ⟨v, vs', hv, hvs', rfl⟩ := List.forall₂_cons_right_iff.mp h₂
    cases hw
    -- the keys are distinct, so that this one is not there yet
    have hk : e.1 ∉ items.map Prod.fst := by
      intro hmem
      rw [List.map_append, List.map_cons, List.nodup_append] at hnd
      exact hnd.2.2 _ hmem _ List.mem_cons_self rfl
    have hkeys' : (es ++ [(e.1.value, v)]).map Prod.fst =
        (items ++ [e]).map fun e => e.1.value := by
      simp [hkeys]
    have hes₁ : List.Forall₂ (Typed T) ((es ++ [(e.1.value, v)]).map Prod.snd)
        ((items ++ [e]).map Prod.snd) := by
      simpa using List.rel_append hes (.cons hv .nil)
    obtain ⟨es', hes', hlen, hcell⟩ := ih hkeys' hes₁ (by simpa using hnd) hvs'
    refine ⟨es', ?_, by simp [hlen]; omega, by simpa using hcell⟩
    rw [State.assignAll, checkDictKey_value]
    show (State.assign heap es e.1.value v >>= _) = _
    rw [assign_new hkeys hk]
    exact hes'

/-- A new element is put at the end. -/
theorem addItem_new {items : List Scalar} {k : Scalar} (hk : k ∉ items) :
    State.addItem heap (items.map Scalar.value) k.value =
      .ok ((items ++ [k]).map Scalar.value) := by
  have hany : (items.map Scalar.value).any k.value.equals = false := by
    rw [List.any_eq_false]
    intro v hv heq
    obtain ⟨k', hk', rfl⟩ := List.mem_map.mp hv
    rw [equals_value, decide_eq_true_eq] at heq
    exact hk (heq ▸ hk')
  rw [State.addItem, if_pos (hashable_value k), hany, List.map_append]
  rfl

theorem addItems_new {items items' : List Scalar} (hnd : (items ++ items').Nodup) :
    (items'.map Scalar.value).foldlM (State.addItem heap) (items.map Scalar.value) =
      .ok ((items ++ items').map Scalar.value) := by
  induction items' generalizing items with
  | nil =>
    rw [List.append_nil]
    rfl
  | cons k items' ih =>
    have hk : k ∉ items := by
      intro hmem
      rw [List.nodup_append] at hnd
      exact hnd.2.2 _ hmem _ List.mem_cons_self rfl
    rw [List.map_cons, List.foldlM_cons, addItem_new hk]
    show (items'.map Scalar.value).foldlM (State.addItem heap) ((items ++ [k]).map Scalar.value) = _
    rw [ih (by simpa using hnd), List.append_assoc]
    rfl

/-- Values that are pushed for scalars. -/
theorem typed_scalars {items : List Scalar} {vs : List Value}
    (h : List.Forall₂ (Typed T) vs (items.map .scalar)) : vs = items.map Scalar.value := by
  induction items generalizing vs with
  | nil =>
    cases h
    rfl
  | cons k items ih =>
    obtain ⟨v, vs', hv, hvs', rfl⟩ := List.forall₂_cons_right_iff.mp h
    cases hv
    rw [List.map_cons, ih hvs']

/-- Items are added to those that are there. -/
theorem fill_spec {k : Kind} {items items' : List (List Tree)} {t : Tree}
    (h : Contents k (items ++ items') t) : ∃ t₀, Contents k items t₀ ∧
      ∀ T heap cell vs, CellTyped T cell t₀ → List.Forall₂ (Typed T) vs items'.flatten →
        ∃ cell', k.fill heap cell vs = .ok cell' ∧ CellTyped T cell' t ∧
          vs.length = items'.length * k.width := by
  generalize hall : items ++ items' = all at h
  cases h with
  | list all =>
    obtain ⟨l, l', rfl, rfl, rfl⟩ := List.append_eq_map_iff.mp hall
    refine ⟨.list l, .list l, ?_⟩
    intro T heap cell vs hcell hvs
    rw [← List.flatMap_def, List.flatMap_singleton'] at hvs
    cases hcell with
    | list hws =>
      refine ⟨_, rfl, .list (List.rel_append hws hvs), ?_⟩
      rw [hvs.length_eq, List.length_map]
      exact (Nat.mul_one _).symm
  | dict hnd =>
    obtain ⟨l, l', rfl, rfl, rfl⟩ := List.append_eq_map_iff.mp hall
    have hpre : (l.map Prod.fst).Nodup := by
      rw [List.map_append, List.nodup_append] at hnd
      exact hnd.1
    refine ⟨.dict l, .dict hpre, ?_⟩
    intro T heap cell vs hcell hvs
    cases hcell with
    | dict hkeys hes =>
      obtain ⟨es', hes', hlen, hcell'⟩ := assignAll_new heap hkeys hes hnd hvs
      refine ⟨.dict es', by rw [Kind.fill, hes']; rfl, hcell', ?_⟩
      rw [hlen, List.length_map]
      rfl
  | set hnd =>
    obtain ⟨l, l', rfl, rfl, rfl⟩ := List.append_eq_map_iff.mp hall
    refine ⟨.set l, .set (List.nodup_append.mp hnd).1, ?_⟩
    intro T heap cell vs hcell hvs
    rw [← List.flatMap_def, ← List.map_eq_flatMap] at hvs
    rw [typed_scalars hvs]
    cases hcell
    refine ⟨_, by rw [Kind.fill, addItems_new hnd]; rfl, .set _, ?_⟩
    rw [List.length_map, List.length_map]
    exact (Nat.mul_one _).symm

theorem exists_of_map_ok {ε α β : Type} {x : Except ε α} {f : α → β} {b : β}
    (h : x.map f = .ok b) : ∃ a, x = .ok a ∧ f a = b := by
  cases x with
  | error e => cases h
  | ok a =>
    cases h
    exact ⟨a, rfl, rfl⟩

variable {k : Kind} {st : State} {r : Nat} {s : List Value} {cell cell' : Cell} {vs : List Value}

theorem cell_ref (hcell : st.heap[r]? = some cell) : st.cell (.ref r) = some (r, cell) := by
  rw [State.cell, hcell]
  rfl

theorem appendItems_ref {l : List Value} (hs : st.stack = .ref r :: s)
    (hcell : st.heap[r]? = some (.list l)) :
    st.appendItems vs = .ok { st with heap := st.heap.set r (.list (l ++ vs)) } := by
  refine (peek_bind hs).trans ?_
  rw [cell_ref hcell]

/-- A batch fills the cell below the mark. -/
theorem perform_batch (hs : st.stack = vs.reverse ++ .mark :: .ref r :: s)
    (hvs : ∀ v ∈ vs, v.isMark = false) (hcell : st.heap[r]? = some cell)
    (hfill : k.fill st.heap cell vs = .ok cell') {n : Nat} (hlen : vs.length = n * k.width) :
    k.batch.perform st = .ok { st with stack := .ref r :: s, heap := st.heap.set r cell' } := by
  have hpeek : State.peek { st with stack := .ref r :: s } = .ok (.ref r) := rfl
  have href : State.cell { st with stack := .ref r :: s } (.ref r) = some (r, cell) :=
    cell_ref hcell
  cases k with
  | list =>
    cases cell with
    | list l =>
      cases hfill
      refine (popUntilMark_bind hs hvs).trans ?_
      show State.appendItems { st with stack := .ref r :: s } vs = _
      exact appendItems_ref rfl hcell
    | _ => cases hfill
  | dict =>
    cases cell with
    | dict l =>
      obtain ⟨l', hl', rfl⟩ := exists_of_map_ok hfill
      refine (popUntilMark_bind hs hvs).trans ?_
      have heven : ¬ vs.length % 2 ≠ 0 := by
        rw [hlen, Kind.width]
        omega
      refine (if_neg heven).trans ?_
      simp only [hpeek, Bind.bind, Except.bind, href, hl']
    | _ => cases hfill
  | set =>
    cases cell with
    | set l =>
      obtain ⟨l', hl', rfl⟩ := exists_of_map_ok hfill
      refine (popUntilMark_bind hs hvs).trans ?_
      simp only [hpeek, Bind.bind, Except.bind, href, hl']
    | _ => cases hfill

/-- One item fills the cell below its values. -/
theorem perform_single {i : Instr} (hi : k.single = some i)
    (hs : st.stack = vs.reverse ++ .ref r :: s) (hvs : ∀ v ∈ vs, v.isMark = false)
    (hcell : st.heap[r]? = some cell) (hfill : k.fill st.heap cell vs = .ok cell')
    (hlen : vs.length = k.width) :
    i.perform st = .ok { st with stack := .ref r :: s, heap := st.heap.set r cell' } := by
  have hpeek : State.peek { st with stack := .ref r :: s } = .ok (.ref r) := rfl
  have href : State.cell { st with stack := .ref r :: s } (.ref r) = some (r, cell) :=
    cell_ref hcell
  cases k with
  | list =>
    cases hi
    obtain ⟨v, rfl⟩ := List.length_eq_one_iff.mp hlen
    cases cell with
    | list l =>
      cases hfill
      refine (pop_bind hs (hvs v List.mem_cons_self)).trans ?_
      show State.appendItems { st with stack := .ref r :: s } [v] = _
      exact appendItems_ref rfl hcell
    | _ => cases hfill
  | dict =>
    cases hi
    obtain ⟨key, value, rfl⟩ := List.length_eq_two.mp hlen
    cases cell with
    | dict l =>
      obtain ⟨l', hl', rfl⟩ := exists_of_map_ok hfill
      obtain ⟨_, hkey, hassign⟩ := bind_eq_ok.mp hl'
      obtain ⟨_, hassign, hret⟩ := bind_eq_ok.mp hassign
      cases hret
      refine (pop_bind hs (hvs value (by simp))).trans ?_
      refine (pop_bind (s := .ref r :: s) rfl (hvs key (by simp))).trans ?_
      simp only [hkey, hpeek, Bind.bind, Except.bind, href, hassign]
    | _ => cases hfill
  | set => cases hi

/-- An instruction that fills one cell. -/
theorem ran_fill {i : Instr} {M : Memo} (hst : Sound T M st) (hT : T r = none)
    (h : i.perform st = .ok { st with stack := s, heap := st.heap.set r cell' }) :
    Ran (· ≠ r) [i] T st M T { st with stack := s, heap := st.heap.set r cell' } := by
  have hkept : ∀ r', r' ≠ r → (st.heap.set r cell')[r']? = st.heap[r']? := fun r' hr' =>
    List.getElem?_set_ne (Ne.symm hr')
  refine ⟨run_singleton h, ⟨?_, hst.memo⟩, ⟨fun _ _ h => h, ?_, ?_, List.prefix_rfl⟩⟩
  · intro r' t ht
    obtain ⟨c, hc, htyped⟩ := hst.heap r' t ht
    have hne : r' ≠ r := by
      intro heq
      rw [heq, hT] at ht
      cases ht
    exact ⟨c, (hkept r' hne).trans hc, htyped⟩
  · show st.heap.length ≤ (st.heap.set r cell').length
    rw [List.length_set]
  · intro r' _ hr'
    exact ⟨hr', hkept r'⟩

theorem Contents.typed_ref {items : List (List Tree)} {t : Tree} (h : Contents k items t)
    (hr : T r = some t) : Typed T (.ref r) t := by
  cases h with
  | list items => exact .list hr
  | dict hnd => exact .dict hr
  | set hnd => exact .set hr

theorem Contents.typed_empty {t : Tree} (h : Contents k [] t) : CellTyped T k.empty t := by
  generalize hnil : ([] : List (List Tree)) = items at h
  cases h with
  | list items =>
    cases List.map_eq_nil_iff.mp hnil.symm
    exact .list .nil
  | dict hnd =>
    cases List.map_eq_nil_iff.mp hnil.symm
    exact .dict rfl .nil
  | set hnd =>
    cases List.map_eq_nil_iff.mp hnil.symm
    exact .set []

end Filling

section Containers

variable {M M₁ M' : Memo} {c c' : List Instr} {k : Kind} {items items' : List (List Tree)}
  {own : List Nat}

theorem decodes_empty : Decodes M [] (.filling k [] []) M := by
  intro T st r s t hst hs hT hcell ht
  exact ⟨T, st, k.empty, ⟨rfl, hst, .rfl⟩, rfl, hcell, ht.typed_empty, by simp⟩

/-- An entry of the memo is there to stay. -/
theorem getElem?_of_prefix {α : Type} {l l' : List α} {i : Nat} {a : α} (hpre : l <+: l')
    (h : l[i]? = some a) : l'[i]? = some a := by
  obtain ⟨u, rfl⟩ := hpre
  rw [List.getElem?_append_left (List.getElem?_eq_some_iff.mp h).1, h]

theorem decodes_memoizeOpen (h : Decodes M c (.filling k items own) M') :
    Decodes M (c ++ [.memoize]) (.filling k items (M'.length :: own)) (M' ++ [none]) := by
  intro T st r s t hst hs hT hcell ht
  obtain ⟨T', st', cell, hran, hstack, hcell', htyped, hown⟩ := h T st r s t hst hs hT hcell ht
  have hmemo : Ran (· ≠ r) [.memoize] T' st' (M' ++ [none]) T'
      { st' with memo := st'.memo ++ [.ref r] } :=
    ran_memoize hran.sound (hstack.trans hs) (by simp)
  refine ⟨T', _, cell, hran.append hmemo, hstack, hcell', htyped, ?_⟩
  intro i hi
  rcases List.mem_cons.mp hi with rfl | hi
  · rw [← hran.sound.memo.length_eq]
    exact List.getElem?_concat_length
  · exact getElem?_of_prefix hmemo.ext.memo (hown i hi)

/-- Values are pushed, and an instruction fills the value below them. -/
theorem decodes_fill {i : Instr} (below : List Value) (h : Decodes M c (.filling k items own) M₁)
    (hpush : ∀ T st, Sound T M₁ st → ∃ T' st' vs, Ran (fun _ => True) c' T st M' T' st' ∧
      st'.stack = vs.reverse ++ (below ++ st.stack) ∧
      List.Forall₂ (Typed T') vs items'.flatten)
    (hfill : ∀ st r s cell cell' vs, st.stack = vs.reverse ++ (below ++ .ref r :: s) →
      (∀ v ∈ vs, v.isMark = false) → st.heap[r]? = some cell →
      k.fill st.heap cell vs = .ok cell' → vs.length = items'.length * k.width →
      i.perform st = .ok { st with stack := .ref r :: s, heap := st.heap.set r cell' }) :
    Decodes M (c ++ c' ++ [i]) (.filling k (items ++ items') own) M' := by
  intro T st r s t hst hs hT hcell ht
  obtain ⟨t₀, ht₀, hspec⟩ := fill_spec ht
  obtain ⟨T₁, st₁, cell, hran₁, hstack₁, hcell₁, htyped₁, hown⟩ := h T st r s t₀ hst hs hT hcell ht₀
  have hT₁ : T₁ r = none :=
    (hran₁.ext.unfilled r (List.getElem?_eq_some_iff.mp hcell).1 hT).1
  obtain ⟨T₂, st₂, vs, hran₂, hstack₂, hvs⟩ := hpush T₁ st₁ hran₁.sound
  -- what is pushed leaves the value alone that is being filled
  obtain ⟨hT₂, hkept⟩ := hran₂.ext.unfilled r (List.getElem?_eq_some_iff.mp hcell₁).1 hT₁
  have hcell₂ : st₂.heap[r]? = some cell := (hkept trivial).trans hcell₁
  obtain ⟨cell', hf, htyped', hlen⟩ :=
    hspec T₂ st₂.heap cell vs (htyped₁.mono hran₂.ext.le) hvs
  have hperform : i.perform st₂ =
      .ok { st₂ with stack := .ref r :: s, heap := st₂.heap.set r cell' } :=
    hfill st₂ r s cell cell' vs (by rw [hstack₂, hstack₁, hs]) (isMark_of_typed hvs) hcell₂ hf hlen
  have hran₃ := ran_fill hran₂.sound hT₂ hperform
  refine ⟨T₂, _, cell', (hran₁.append hran₂.weaken).append hran₃, hs.symm, ?_, htyped', ?_⟩
  · exact List.getElem?_set_self (List.getElem?_eq_some_iff.mp hcell₂).1
  · intro j hj
    exact getElem?_of_prefix (hran₂.ext.memo.trans hran₃.ext.memo) (hown j hj)

theorem decodes_single {item : List Tree} {i : Instr} (h : Decodes M c (.filling k items own) M₁)
    (hi : k.single = some i) (hs : Decodes M₁ c' (.values item) M') :
    Decodes M (c ++ c' ++ [i]) (.filling k (items ++ [item]) own) M' := by
  refine decodes_fill [] h ?_ ?_
  · intro T st hst
    rw [List.flatten_singleton]
    exact hs T st hst
  · intro st r s cell cell' vs hstack hvs hcell hfill hlen
    exact perform_single hi hstack hvs hcell hfill (by simpa using hlen)

theorem decodes_batch (h : Decodes M c (.filling k items own) M₁)
    (hs : Decodes M₁ c' (.values items'.flatten) M') :
    Decodes M (c ++ .mark :: c' ++ [k.batch]) (.filling k (items ++ items') own) M' := by
  refine decodes_fill [.mark] h ?_ ?_
  · intro T st hst
    exact hs.marked hst
  · intro st r s cell cell' vs hstack hvs hcell hfill hlen
    exact perform_batch hstack hvs hcell hfill hlen

/-- A reference gets its tree. -/
def Typing.fill (T : Typing) (r : Nat) (t : Tree) : Typing :=
  fun r' => if r' = r then some t else T r'

theorem Typing.le_fill {T : Typing} {r : Nat} {t : Tree} (h : T r = none) : T.Le (T.fill r t) := by
  intro r' t' ht'
  have hne : r' ≠ r := by
    intro heq
    rw [heq, h] at ht'
    cases ht'
  rw [Typing.fill, if_neg hne, ht']

/-- A value is filled, and its entries of the memo become known. -/
theorem Sound.close {T : Typing} {st : State} {r : Nat} {cell : Cell} {t : Tree}
    (hst : Sound T M st) (hT : T r = none) (hcell : st.heap[r]? = some cell)
    (hown : ∀ i ∈ own, st.memo[i]? = some (.ref r)) (ht : CellTyped T cell t)
    (href : Typed (T.fill r t) (.ref r) t) : Sound (T.fill r t) (M.close own t) st := by
  have hle : T.Le (T.fill r t) := Typing.le_fill hT
  refine ⟨?_, ?_, ?_⟩
  · intro r' t' ht'
    by_cases hr : r' = r
    · rw [Typing.fill, if_pos hr] at ht'
      cases ht'
      exact ⟨cell, hr ▸ hcell, ht.mono hle⟩
    · rw [Typing.fill, if_neg hr] at ht'
      obtain ⟨c, hc, htyped⟩ := hst.heap r' t' ht'
      exact ⟨c, hc, htyped.mono hle⟩
  · rw [Memo.close, List.length_mapIdx, hst.memo.length_eq]
  · intro i t' hi
    rw [Memo.close, List.getElem?_mapIdx] at hi
    obtain ⟨e, he, hclosed⟩ := Option.map_eq_some_iff.mp hi
    by_cases hmem : i ∈ own
    · rw [if_pos hmem] at hclosed
      cases hclosed
      exact ⟨.ref r, hown i hmem, href⟩
    · rw [if_neg hmem] at hclosed
      obtain ⟨v, hv, htyped⟩ := hst.memo.typed i t' (hclosed ▸ he)
      exact ⟨v, hv, htyped.mono hle⟩

theorem decodes_new {t : Tree} (h : Decodes M c (.filling k items own) M')
    (ht : Contents k items t) : Decodes M (.new k :: c) (.value t) (M'.close own t) := by
  intro T st hst
  -- the new reference is behind the heap, where nothing is typed
  have hT : T st.heap.length = none := by
    cases hr : T st.heap.length with
    | none => rfl
    | some t' =>
      obtain ⟨c, hc, -⟩ := hst.heap _ t' hr
      exact absurd (List.getElem?_eq_some_iff.mp hc).1 (Nat.lt_irrefl _)
  have hnew : Sound T M (st.pushNew k.empty) := by
    refine ⟨fun r t' hr => ?_, hst.memo⟩
    obtain ⟨c, hc, htyped⟩ := hst.heap r t' hr
    exact ⟨c, getElem?_of_prefix (List.prefix_append _ _) hc, htyped⟩
  have hlast : (st.pushNew k.empty).heap[st.heap.length]? = some k.empty :=
    List.getElem?_concat_length
  obtain ⟨T₁, st₁, cell, hran, hstack, hcell, htyped, hown⟩ :=
    h T (st.pushNew k.empty) st.heap.length st.stack t hnew rfl hT hlast ht
  have hT₁ : T₁ st.heap.length = none :=
    (hran.ext.unfilled _ (List.getElem?_eq_some_iff.mp hlast).1 hT).1
  have href : Typed (T₁.fill st.heap.length t) (.ref st.heap.length) t :=
    ht.typed_ref (if_pos rfl)
  have hle : st.heap.length ≤ (st.pushNew k.empty).heap.length := by
    simp [State.pushNew]
  refine ⟨T₁.fill st.heap.length t, st₁, .ref st.heap.length, ⟨hran.run_eq, ?_, ?_⟩, hstack, href⟩
  · exact hran.sound.close hT₁ hcell hown htyped href
  · refine ⟨fun r t' hr => Typing.le_fill hT₁ r t' (hran.ext.le r t' hr),
      Nat.le_trans hle hran.ext.length_le, ?_, hran.ext.memo⟩
    intro r hr hTr
    -- of those that are being filled, only the new one is changed
    have hne : r ≠ st.heap.length := Nat.ne_of_lt hr
    obtain ⟨hnone, hkept⟩ := hran.ext.unfilled r (Nat.lt_of_lt_of_le hr hle) hTr
    refine ⟨by rw [Typing.fill, if_neg hne, hnone], fun _ => (hkept hne).trans ?_⟩
    exact List.getElem?_append_left hr

end Containers

/-! ## Every encoding -/

/-- Every program of the grammar does what its phrase says. -/
theorem Encodes.runs {M M' : Memo} {c : List Instr} {p : Phrase} (h : Encodes M c p M') :
    Decodes M c p M' := by
  induction h with
  | none => exact decodes_push (fun _ => rfl) fun _ => .none
  | bool b => exact decodes_push (fun _ => rfl) fun _ => .scalar (.bool b)
  | int n => exact decodes_push (fun _ => rfl) fun _ => .scalar (.int n)
  | string s => exact decodes_push (fun _ => rfl) fun _ => .scalar (.string s)
  | symbol _ ih => exact decodes_symbol ih
  | emptyTuple => exact decodes_push (fun _ => rfl) fun _ => .tuple .nil
  | tuple1 _ ih => exact decodes_tuple1 ih
  | tuple2 _ ih => exact decodes_tuple2 ih
  | tuple3 _ ih => exact decodes_tuple3 ih
  | tuple _ ih => exact decodes_tuple ih
  | object _ ih => exact decodes_object ih
  | new _ ht ih => exact decodes_new ih ht
  | get h => exact decodes_get h
  | memoize _ ih => exact decodes_memoize ih
  | nil => exact decodes_nil
  | cons _ _ ih ihs => exact decodes_cons ih ihs
  | empty k => exact decodes_empty
  | memoizeOpen _ ih => exact decodes_memoizeOpen ih
  | single _ hi _ ih ihs => exact decodes_single ih hi ihs
  | batch _ _ ih ihs => exact decodes_batch ih ihs

theorem sound_start : Sound (fun _ => none) [] ⟨[], [], []⟩ := by
  refine ⟨?_, rfl, ?_⟩
  · intro r t h
    cases h
  · intro i t h
    cases h

/-- The bytes of a program of the grammar give the value that it pushes. -/
theorem Encodes.exec_bytes {code : List Instr} {bytes : List UInt8} {t : Tree} {M : Memo}
    (hcode : Program code bytes)
    (h : Encodes [] (code.filter (· ≠ .frame)) (.value t) M) (rest : List UInt8) : ∃ v heap,
      exec (Machine.start (bytes ++ opcodeSTOP :: rest)) = .ok (v, heap) ∧ Denotes heap v t := by
  obtain ⟨T, st, v, hran, hstack, ht⟩ := h.runs _ _ sound_start
  have hrun : run code ⟨[], [], []⟩ = .ok st := (run_filter_frame code _).symm.trans hran.run_eq
  refine ⟨v, st.heap, ?_, ht.denotes hran.sound.heap⟩
  rw [Machine.start, Machine.startIn, exec_program hcode hrun, exec_stop, State.stop]
  exact pop_bind hstack ht.isMark

/-- The machine decodes every encoding of a tree. -/
theorem exec_encoding {t : Tree} {bytes : List UInt8} (h : Encoding t bytes)
    (rest : List UInt8) : ∃ v heap,
      exec (Machine.start (bytes ++ opcodeSTOP :: rest)) = .ok (v, heap) ∧ Denotes heap v t := by
  obtain ⟨code, M, hcode, henc⟩ := h
  exact henc.exec_bytes hcode rest

def sampleList : Tree := .list [.scalar (.int 1), .scalar (.int (-2))]

/-- A dict with one list under two keys. -/
def sampleTree : Tree :=
  .dict [(.string (lit "a"), sampleList), (.string (lit "b"), sampleList)]

/-- The list is memoized before it is filled. -/
theorem sampleList_encodes (M : Memo) :
    Encodes M [.new .list, .memoize, .mark, .int 1, .int (-2), .appends] (.value sampleList)
      ((M ++ [none]).close [M.length] sampleList) := by
  have hvalues : Encodes (M ++ [none]) [.int 1, .int (-2)]
      (.values [.scalar (.int 1), .scalar (.int (-2))]) (M ++ [none]) :=
    .cons (.int 1) (.cons (.int (-2)) .nil)
  have hopen : Encodes M [.memoize] (.filling .list [] [M.length]) (M ++ [none]) :=
    .memoizeOpen (.empty .list)
  have hbatch := @Encodes.batch _ _ _ _ _ _ _ [[.scalar (.int 1)], [.scalar (.int (-2))]] _
    hopen hvalues
  exact .new hbatch (.list [.scalar (.int 1), .scalar (.int (-2))])

def sampleCode : List Instr :=
  [.frame, .new .dict, .memoize, .mark, .string (lit "a"), .memoize, .new .list, .memoize, .mark,
    .int 1, .int (-2), .appends, .string (lit "b"), .get 2, .setItems]

def sampleBytes : List UInt8 :=
  [0x95, 0x1b, 0, 0, 0, 0, 0, 0, 0, 0x7d, 0x94, 0x28, 0x8c, 1, 0x61, 0x94, 0x5d, 0x94, 0x28,
    0x4b, 1, 0x4a, 0xfe, 0xff, 0xff, 0xff, 0x65, 0x8c, 1, 0x62, 0x68, 2, 0x75]

theorem sample_program : Program sampleCode sampleBytes := by
  have hframe : Instr.frame.Bytes (opcodeFRAME :: [0x1b, 0, 0, 0, 0, 0, 0, 0]) := .frame rfl
  have ha : (Instr.string (lit "a")).Bytes (opcodeSHORT_BINUNICODE :: 1 :: lit "a") :=
    .shortBinunicode (by decide)
  have hb : (Instr.string (lit "b")).Bytes (opcodeSHORT_BINUNICODE :: 1 :: lit "b") :=
    .shortBinunicode (by decide)
  have hone : (Instr.int 1).Bytes [opcodeBININT1, 1] := .binint1 (n := 1) (by decide)
  have htwo : (Instr.int (-2)).Bytes [opcodeBININT, 0xfe, 0xff, 0xff, 0xff] :=
    .binint (n := -2) (by decide)
  have hget : (Instr.get 2).Bytes [opcodeBINGET, 2] := .binget (i := 2) (by decide)
  exact .cons hframe (.cons .emptyDict (.cons .memoize (.cons .mark (.cons ha (.cons .memoize
    (.cons .emptyList (.cons .memoize (.cons .mark (.cons hone (.cons htwo (.cons .appends
    (.cons hb (.cons hget (.cons .setItems .nil))))))))))))))

/-- The memo before the list is made. -/
def sampleMemo : Memo := [none, some (.scalar (.string (lit "a")))]

theorem sample_encoding : Encoding sampleTree sampleBytes := by
  have ha : Encodes [none] [.string (lit "a"), .memoize] (.value (.scalar (.string (lit "a"))))
      sampleMemo := .memoize (.string _)
  have hlist := sampleList_encodes sampleMemo
  have hb := @Encodes.string ((sampleMemo ++ [none]).close [2] sampleList) (lit "b")
  have hget : Encodes ((sampleMemo ++ [none]).close [2] sampleList) [.get 2] (.value sampleList)
      ((sampleMemo ++ [none]).close [2] sampleList) := .get rfl
  have hvalues := Encodes.cons ha (.cons hlist (.cons hb (.cons hget .nil)))
  have hopen : Encodes [] [.memoize] (.filling .dict [] [0]) [none] := .memoizeOpen (.empty .dict)
  have hbatch := @Encodes.batch _ _ _ _ _ _ _ [[.scalar (.string (lit "a")), sampleList],
    [.scalar (.string (lit "b")), sampleList]] _ hopen hvalues
  have hcontents : Contents .dict _ sampleTree :=
    @Contents.dict [(.string (lit "a"), sampleList), (.string (lit "b"), sampleList)] (by decide)
  exact ⟨sampleCode, _, sample_program, .new hbatch hcontents⟩

theorem exec_encoding_sample : ∃ v heap,
    exec (Machine.start (sampleBytes ++ opcodeSTOP :: [])) = .ok (v, heap) ∧
      Denotes heap v sampleTree :=
  exec_encoding sample_encoding []

end Isthmus.Pickle
