import Isthmus.Pickle.Copies
import Mathlib.Data.List.Induction

/-!
# Turns

Where `bind` succeeds at a slice, a struct or a map it has made a call for each part
of the value, one after the other. A map keeps of two parts with one key the last.

## Main definitions

- `turns`: the calls for the parts
- `Chain`: the turns of a loop, with what each of them bound
- `leaves`: the interfaces that the destination keeps

## Main results

- `exists_chain_slice`, `exists_chain_struct`, `exists_chain_map`: what a destination holds
- `after_visits`: what its turns replace
- `exists_survivors`: which entries a map keeps
-/

namespace Isthmus.Pickle

open Recursion

variable {τ : Type}

/-! ## The turns -/

/-- The call of `bind` for a part, which may be under a key. -/
structure Turn (τ : Type) where
  call : List Nat
  key : Value
  place : Option (Nat × Nat)
  value : Value
  kind : DestKind τ
  reqSK : Bool

section Turns

variable (rt : Runtime) (typ : τ → DestKind τ) (call : List Nat)

/-- The call for an element of a list. -/
def itemTurn (r : Nat) (items : List Value) (elem : τ) (reqSK : Bool) (i : Nat) : Turn τ :=
  ⟨i :: call, .none, some (r, i), items.getD i .none, typ elem, reqSK⟩

/-- The call for an element of a set or a tuple. -/
def elementTurn (elem : τ) (reqSK : Bool) (p : Value × Nat) : Turn τ :=
  ⟨p.2 :: call, .none, none, p.1, typ elem, reqSK⟩

/-- The call for a field, if its key is there. -/
def fieldTurn (v : Value) (items : List (Value × Value)) (p : Field τ × Nat) : Option (Turn τ) :=
  if p.1.isRemainder then some ⟨p.2 :: call, .none, none, v, typ p.1.type, p.1.reqSK⟩
  else (p.1.find rt items).map fun w =>
    ⟨p.2 :: call, .none, none, w, typ p.1.type, p.1.reqSK⟩

/-- The call for an argument of an object. -/
def argumentTurn (p : (Field τ × Value) × Nat) : Turn τ :=
  ⟨p.2 :: call, .none, none, p.1.2, typ p.1.1.type, p.1.1.tag == requireStringKeysTag⟩

/-- The call for an entry of a dict. -/
def entryTurn (elem : τ) (reqSK : Bool) (p : (Value × Value) × Nat) : Turn τ :=
  ⟨p.2 :: call, p.1.1, none, p.1.2, typ elem, reqSK⟩

/-- The calls for the parts. -/
def turns (g : Graph) (v : Value) (kind : DestKind τ) (reqSK : Bool) : List (Turn τ) :=
  match kind with
  | .slice elem =>
    match g.shape v with
    | .list r items => (List.range items.length).map (itemTurn typ call r items elem reqSK)
    | .set items => (rt.entries call items).zipIdx.map (elementTurn typ call elem reqSK)
    | .tuple items => items.zipIdx.map (elementTurn typ call elem reqSK)
    | _ => []
  | .struct fields =>
    match g.shape v with
    | .dict items => fields.zipIdx.filterMap (fieldTurn rt typ call v items)
    | .object arguments => (fields.zip arguments).zipIdx.map (argumentTurn typ call)
    | _ => []
  | .map _ elem =>
    match g.shape v with
    | .dict items => (rt.entries call items).zipIdx.map (entryTurn typ call elem reqSK)
    | _ => []
  | _ => []

end Turns

/-- The key that a map has for a key of a dict that it takes. -/
def KeyKind.convert : KeyKind → Value → Key
  | .int size, .int n => .int (size.wrap n)
  | .string, .string s => .string s
  | .bool, .bool b => .bool b
  | .interface, v => .interface v
  | _, _ => .bool false

/-- A map with these entries set in order. -/
def setEach (l : List (Key × Bound)) : List (Key × Bound) :=
  l.foldl (fun m e => setMapIndex m e.1 e.2) []

namespace Turn

def rename (φ : Nat → Nat) (t : Turn τ) : Turn τ :=
  { t with
    key := t.key.rename φ
    place := t.place.map (renamePlace φ)
    value := t.value.rename φ }

variable (t : Turn τ)

/-- The value, as it is now. -/
def current (g : Graph) : Value :=
  match t.place with
  | some p => g.item p.1 p.2
  | none => t.value

def bind (rt : Runtime) (typ : τ → DestKind τ) (depth n : Nat) (g : Graph) :
    Except Stop (Bound × Graph) :=
  Pickle.bind rt typ depth n t.call (t.current g) t.kind t.reqSK g

def visits (rt : Runtime) (typ : τ → DestKind τ) (g : Graph) (n : Nat) : List (Visit τ) :=
  Pickle.visits rt typ g n t.call t.place t.value t.kind t.reqSK

/-- The places that are replaced after the turn. -/
def next (rt : Runtime) (typ : τ → DestKind τ) (g : Graph) (n : Nat) (P : Set (Nat × Nat)) :
    Set (Nat × Nat) :=
  after (Visit.next g) P (t.visits rt typ g n)

end Turn

/-- The turns that were made, with what each of them bound. -/
inductive Chain (f : Turn τ → Graph → Except Stop (Bound × Graph)) :
    Graph → List (Turn τ × Bound) → Graph → Prop
  | nil (g : Graph) : Chain f g [] g
  | cons {t : Turn τ} {b : Bound} {l : List (Turn τ × Bound)} {g g₁ g₂ : Graph}
    (h : f t g = .ok (b, g₁)) (hl : Chain f g₁ l g₂) : Chain f g ((t, b) :: l) g₂

section Chain

variable {rt : Runtime} {typ : τ → DestKind τ} {g₀ g g' : Graph} {P : Set (Nat × Nat)}
  {depth n : Nat} {call : List Nat} {v : Value} {kind : DestKind τ} {reqSK : Bool} {b : Bound}

/-- A loop that binds is a chain of the turns that it makes. -/
theorem chain_of_bindEach {α β : Type} {f : α → Graph → Except Stop (β × Graph)}
    {F : Turn τ → Graph → Except Stop (Bound × Graph)} (turn : α → Option (Turn τ))
    (out : Turn τ × Bound → β) {l : List α} {bs : List β}
    (hf : ∀ a g b g', f a g = .ok (b, g') →
      ∃ t c, turn a = some t ∧ F t g = .ok (c, g') ∧ out (t, c) = b)
    (h : bindEach f l g = .ok (bs, g')) :
    ∃ L, Chain F g L g' ∧ L.map Prod.fst = l.filterMap turn ∧ L.map out = bs := by
  induction l generalizing g bs with
  | nil =>
    cases h
    exact ⟨[], .nil _, rfl, rfl⟩
  | cons a l ih =>
    rw [bindEach] at h
    obtain ⟨⟨b, g₁⟩, hb, h⟩ := bind_eq_ok.mp h
    obtain ⟨⟨bs', g₂⟩, hbs, h⟩ := bind_eq_ok.mp h
    cases h
    obtain ⟨t, c, ht, hc, rfl⟩ := hf a g b g₁ hb
    obtain ⟨L, hL, hfst, rfl⟩ := ih hbs
    refine ⟨(t, c) :: L, .cons hc hL, ?_, rfl⟩
    rw [List.filterMap_cons_some ht, List.map_cons, hfst]

/-- Where each round of the loop is a turn whose errors are wrapped. -/
theorem chain_of_wrap {α : Type} {f : α → Graph → Except Stop (Bound × Graph)}
    {F : Turn τ → Graph → Except Stop (Bound × Graph)} (turn : α → Turn τ) {key : α → GoString}
    {l : List α} {bs : List Bound} (hf : ∀ a g, f a g = (F (turn a) g).mapError (.wrap (key a)))
    (h : bindEach f l g = .ok (bs, g')) :
    ∃ L, Chain F g L g' ∧ L.map Prod.fst = l.map turn ∧ L.map Prod.snd = bs := by
  obtain ⟨L, hL, hfst, hsnd⟩ := chain_of_bindEach (F := F) (fun a => some (turn a)) Prod.snd
    (fun a g b g' hb => ⟨turn a, b, rfl, wrap_eq_ok.mp (hf a g ▸ hb), rfl⟩) h
  exact ⟨L, hL, by rw [hfst, List.filterMap_eq_map'], hsnd⟩

/-- A key that is taken is converted. -/
theorem bindKey_eq_ok {key : KeyKind} {k : Key} (h : bindKey g v key = .ok k) :
    key.convert v = k := by
  cases key with
  | int size =>
    obtain ⟨n, hn, rfl⟩ := map_eq_ok.mp h
    cases v with
    | int n' =>
      cases hn
      rfl
    | _ => cases hn
  | string =>
    obtain ⟨s, hs, rfl⟩ := map_eq_ok.mp h
    cases v with
    | string s' =>
      cases hs
      rfl
    | _ => cases hs
  | bool =>
    obtain ⟨b, hb, rfl⟩ := map_eq_ok.mp h
    cases v with
    | bool b' =>
      cases hb
      rfl
    | _ => cases hb
  | struct => cases h
  | interface =>
    cases v with
    | none => cases h
    | _ =>
      cases h
      rfl

theorem fieldTurn_of_ok {items : List (Value × Value)} {p : Field τ × Nat}
    (h : (if p.1.isRemainder then bind rt typ depth n (p.2 :: call) v (typ p.1.type) p.1.reqSK g
      else
        match p.1.find rt items with
        | none => .error (.error ⟨[], lit "key " ++ utf8 p.1.name ++ lit " not found"⟩)
        | some w => (bind rt typ depth n (p.2 :: call) w (typ p.1.type) p.1.reqSK g).mapError
            (.wrap (utf8 p.1.name))) = .ok (b, g')) :
    ∃ t, fieldTurn rt typ call v items p = some t ∧ t.bind rt typ depth n g = .ok (b, g') := by
  by_cases hrem : p.1.isRemainder
  · rw [if_pos hrem] at h
    exact ⟨_, if_pos hrem, h⟩
  · rw [if_neg hrem] at h
    cases hfind : p.1.find rt items with
    | none =>
      simp only [hfind] at h
      cases h
    | some w =>
      simp only [hfind] at h
      refine ⟨⟨p.2 :: call, .none, none, w, typ p.1.type, p.1.reqSK⟩, ?_, wrap_eq_ok.mp h⟩
      rw [fieldTurn, if_neg hrem, hfind]
      rfl

variable (hg : Kept g₀ P g)

include hg

theorem exists_chain_slice {elem : τ}
    (h : bind rt typ depth (n + 1) call v (.slice elem) reqSK g = .ok (b, g')) :
    ∃ L, Chain (fun t => t.bind rt typ depth n) g L g' ∧
      L.map Prod.fst = turns rt typ call g₀ v (.slice elem) reqSK ∧ b = .slice (L.map (·.2)) := by
  simp only [bind] at h
  obtain ⟨⟨bs, g₁⟩, hbs, heq⟩ := map_eq_ok.mp h
  cases heq
  cases hshape : g₀.shape v with
  | list r items =>
    obtain ⟨items', hshape', hlength⟩ := hg.shape_list hshape
    simp only [hshape', hlength] at hbs
    obtain ⟨L, hL, hfst, rfl⟩ := chain_of_wrap (F := fun t => t.bind rt typ depth n)
      (itemTurn typ call r items elem reqSK) (fun i g => rfl) hbs
    exact ⟨L, hL, by simp only [hfst, turns, hshape], rfl⟩
  | set items =>
    simp only [hg.shape_eq hshape (by simp)] at hbs
    obtain ⟨L, hL, hfst, rfl⟩ := chain_of_wrap (F := fun t => t.bind rt typ depth n)
      (elementTurn typ call elem reqSK) (fun p g => rfl) hbs
    exact ⟨L, hL, by simp only [hfst, turns, hshape], rfl⟩
  | tuple items =>
    simp only [hg.shape_eq hshape (by simp)] at hbs
    obtain ⟨L, hL, hfst, rfl⟩ := chain_of_wrap (F := fun t => t.bind rt typ depth n)
      (elementTurn typ call elem reqSK) (fun p g => rfl) hbs
    exact ⟨L, hL, by simp only [hfst, turns, hshape], rfl⟩
  | _ =>
    rw [hg.shape_eq hshape (by simp)] at hbs
    cases hbs

theorem exists_chain_struct {fields : List (Field τ)}
    (h : bind rt typ depth (n + 1) call v (.struct fields) reqSK g = .ok (b, g')) :
    ∃ L, Chain (fun t => t.bind rt typ depth n) g L g' ∧
      L.map Prod.fst = turns rt typ call g₀ v (.struct fields) reqSK ∧
      b = .struct (L.map (·.2)) := by
  simp only [bind] at h
  obtain ⟨⟨bs, g₁⟩, hbs, heq⟩ := map_eq_ok.mp h
  cases heq
  cases hshape : g₀.shape v with
  | dict items =>
    simp only [hg.shape_eq hshape (by simp)] at hbs
    obtain ⟨L, hL, hfst, rfl⟩ := chain_of_bindEach (F := fun t => t.bind rt typ depth n)
      (fieldTurn rt typ call v items) Prod.snd (fun p g b g' hb => by
        obtain ⟨t, ht, hb⟩ := fieldTurn_of_ok hb
        exact ⟨t, b, ht, hb, rfl⟩) hbs
    exact ⟨L, hL, by simp only [hfst, turns, hshape], rfl⟩
  | object arguments =>
    simp only [hg.shape_eq hshape (by simp)] at hbs
    split at hbs
    · cases hbs
    · obtain ⟨L, hL, hfst, rfl⟩ := chain_of_wrap (F := fun t => t.bind rt typ depth n)
        (argumentTurn typ call) (fun p g => rfl) hbs
      exact ⟨L, hL, by simp only [hfst, turns, hshape], rfl⟩
  | list r items =>
    obtain ⟨items', hshape', -⟩ := hg.shape_list hshape
    rw [hshape'] at hbs
    cases hbs
  | _ =>
    rw [hg.shape_eq hshape (by simp)] at hbs
    cases hbs

theorem exists_chain_map {key : KeyKind} {elem : τ}
    (h : bind rt typ depth (n + 1) call v (.map key elem) reqSK g = .ok (b, g')) :
    ∃ L, Chain (fun t => t.bind rt typ depth n) g L g' ∧
      L.map Prod.fst = turns rt typ call g₀ v (.map key elem) reqSK ∧
      b = .map (setEach (L.map fun x => (key.convert x.1.key, x.2))) := by
  simp only [bind] at h
  cases hshape : g₀.shape v with
  | dict items =>
    rw [hg.shape_eq hshape (by simp)] at h
    obtain ⟨⟨bs, g₁⟩, hbs, heq⟩ := map_eq_ok.mp h
    cases heq
    obtain ⟨L, hL, hfst, rfl⟩ := chain_of_bindEach (F := fun t => t.bind rt typ depth n)
      (fun p => some (entryTurn typ call elem reqSK p)) (fun x => (key.convert x.1.key, x.2))
      (fun p g b g' hb => by
        obtain ⟨k, hk, hb⟩ := bind_eq_ok.mp hb
        obtain ⟨⟨c, g₁⟩, hc, heq⟩ := map_eq_ok.mp hb
        cases heq
        rw [← bindKey_eq_ok hk]
        exact ⟨_, c, rfl, hc, rfl⟩) hbs
    exact ⟨L, hL, by simp only [hfst, turns, hshape, List.filterMap_eq_map'], rfl⟩
  | list r items =>
    obtain ⟨items', hshape', -⟩ := hg.shape_list hshape
    rw [hshape'] at h
    cases h
  | _ =>
    rw [hg.shape_eq hshape (by simp)] at h
    cases h

end Chain

/-! ## What the turns replace -/

section Next

variable {rt : Runtime} {typ : τ → DestKind τ} {g : Graph} {P : Set (Nat × Nat)} {n : Nat}
  {call : List Nat} {place : Option (Nat × Nat)} {v : Value} {kind : DestKind τ} {reqSK : Bool}

theorem keyVisit_next (key : KeyKind) (v : Value) :
    (key.visit v : Visit τ).next g P = P := by
  cases key <;> rfl

theorem after_flatMap {α : Type} (f : α → List (Visit τ)) (l : List α) :
    after (Visit.next g) P (l.flatMap f) =
      l.foldl (fun P a => after (Visit.next g) P (f a)) P :=
  List.foldl_flatMap

/-- The calls for the parts replace what the turns replace. -/
theorem after_visits (hkind : kind ≠ .interface) :
    after (Visit.next g) P (visits rt typ g (n + 1) call place v kind reqSK) =
      (turns rt typ call g v kind reqSK).foldl (fun P t => t.next rt typ g n P) P := by
  have hcons : ∀ l, after (Visit.next g) P (.value place v kind reqSK :: l) =
      after (Visit.next g) P l := by
    intro l
    rw [after, List.foldl_cons, next_of_ne hkind]
    rfl
  cases kind with
  | slice elem =>
    simp only [visits, turns, hcons]
    cases g.shape v with
    | list r items | set items | tuple items =>
      rw [after_flatMap, List.foldl_map]
      rfl
    | _ => rfl
  | struct fields =>
    simp only [visits, turns, hcons]
    cases g.shape v with
    | dict items =>
      simp only [after_flatMap, List.foldl_filterMap]
      congr 1
      funext P p
      unfold fieldTurn
      split
      · rfl
      · cases p.1.find rt items <;> rfl
    | object arguments =>
      rw [after_flatMap, List.foldl_map]
      rfl
    | _ => rfl
  | map key elem =>
    simp only [visits, turns, hcons]
    cases g.shape v with
    | dict items =>
      simp only [after_flatMap, List.foldl_map]
      congr 1
      funext P p
      rw [after, List.foldl_cons, keyVisit_next]
      rfl
    | _ => rfl
  | interface => exact absurd rfl hkind
  | _ => exact hcons []

end Next

/-! ## The parts -/

section Parts

variable {rt : Runtime} {typ : τ → DestKind τ} {g : Graph} {call : List Nat} {v : Value}
  {kind : DestKind τ} {reqSK : Bool} {t : Turn τ}

theorem find_mem {f : Field τ} {items : List (Value × Value)} {w : Value}
    (h : f.find rt items = some w) : ∃ e ∈ items, e.2 = w := by
  have hget : ∀ {s : Value}, (items.find? fun e => e.1.equals s).map (·.2) = some w →
      ∃ e ∈ items, e.2 = w := by
    intro s hs
    obtain ⟨e, he, rfl⟩ := Option.map_eq_some_iff.mp hs
    exact ⟨e, List.mem_of_find?_eq_some he, rfl⟩
  obtain h | ⟨-, h⟩ := Option.or_eq_some_iff.mp h
  · exact hget h
  · exact hget h

theorem mem_parts_of_shape {items : List Value} {u : Value} (hu : u ∈ items)
    (h : g.shape v = .set items ∨ g.shape v = .tuple items ∨ g.shape v = .object items) :
    u ∈ g.parts v := by
  cases v with
  | ref r =>
    simp only [Graph.shape] at h
    simp only [Graph.parts]
    split at h <;> simp_all
  | tuple items' =>
    obtain h | h | h := h <;> cases h
    exact hu
  | object cls arguments =>
    obtain h | h | h := h <;> cases h
    exact List.mem_cons_of_mem cls hu
  | _ => obtain h | h | h := h <;> cases h

/-- The value is what is in its place. -/
def Turn.Reads (g : Graph) (t : Turn τ) : Prop :=
  ∀ p, t.place = some p → ∃ items, g[p.1]? = some (.cell (.list items)) ∧
    t.value = items.getD p.2 .none

/-- A turn is for the value itself or a part of it, and a key is a part. -/
structure Turn.IsOf (g : Graph) (v : Value) (t : Turn τ) : Prop where
  value : t.value = v ∨ t.value ∈ g.parts v
  key : t.key = .none ∨ t.key ∈ g.parts v
  reads : t.Reads g

theorem isOf_of_none (hvalue : t.value = v ∨ t.value ∈ g.parts v)
    (hkey : t.key = .none ∨ t.key ∈ g.parts v) (hplace : t.place = none) : t.IsOf g v :=
  ⟨hvalue, hkey, fun p h => by cases hplace.symm.trans h⟩

theorem isOf_of_mem (ht : t ∈ turns rt typ call g v kind reqSK) : t.IsOf g v := by
  cases kind with
  | slice elem =>
    simp only [turns] at ht
    cases hshape : g.shape v with
    | list r items =>
      rw [hshape] at ht
      obtain ⟨i, hi, rfl⟩ := List.mem_map.mp ht
      refine ⟨.inr ?_, .inl rfl, fun p hp => ?_⟩
      · rw [Graph.parts_list hshape]
        exact mem_iff_getD.mpr ⟨i, List.mem_range.mp hi, rfl⟩
      · cases hp
        exact ⟨items, (Graph.shape_eq_list.mp hshape).2, rfl⟩
    | set items =>
      rw [hshape] at ht
      obtain ⟨p, hp, rfl⟩ := List.mem_map.mp ht
      have hmem := (entries_perm rt call items).mem_iff.mp (fst_mem_of_mem_zipIdx hp)
      exact isOf_of_none (.inr (mem_parts_of_shape hmem (.inl hshape))) (.inl rfl) rfl
    | tuple items =>
      rw [hshape] at ht
      obtain ⟨p, hp, rfl⟩ := List.mem_map.mp ht
      have hmem := fst_mem_of_mem_zipIdx hp
      exact isOf_of_none (.inr (mem_parts_of_shape hmem (.inr (.inl hshape)))) (.inl rfl) rfl
    | _ =>
      rw [hshape] at ht
      cases ht
  | struct fields =>
    simp only [turns] at ht
    cases hshape : g.shape v with
    | dict items =>
      rw [hshape] at ht
      obtain ⟨p, hp, ht⟩ := List.mem_filterMap.mp ht
      unfold fieldTurn at ht
      split at ht
      · cases ht
        exact isOf_of_none (.inl rfl) (.inl rfl) rfl
      · obtain ⟨w, hw, rfl⟩ := Option.map_eq_some_iff.mp ht
        obtain ⟨e, he, rfl⟩ := find_mem hw
        have hmem := (Graph.mem_parts_dict hshape).mpr ⟨e, he, .inr rfl⟩
        exact isOf_of_none (.inr hmem) (.inl rfl) rfl
    | object arguments =>
      rw [hshape] at ht
      obtain ⟨p, hp, rfl⟩ := List.mem_map.mp ht
      have hmem := (List.of_mem_zip (fst_mem_of_mem_zipIdx hp)).2
      exact isOf_of_none (.inr (mem_parts_of_shape hmem (.inr (.inr hshape)))) (.inl rfl) rfl
    | _ =>
      rw [hshape] at ht
      cases ht
  | map key elem =>
    simp only [turns] at ht
    cases hshape : g.shape v with
    | dict items =>
      rw [hshape] at ht
      obtain ⟨p, hp, rfl⟩ := List.mem_map.mp ht
      have hmem := (entries_perm rt call items).mem_iff.mp (fst_mem_of_mem_zipIdx hp)
      refine isOf_of_none (.inr ?_) (.inr ?_) rfl
      · exact (Graph.mem_parts_dict hshape).mpr ⟨p.1, hmem, .inr rfl⟩
      · exact (Graph.mem_parts_dict hshape).mpr ⟨p.1, hmem, .inl rfl⟩
    | _ =>
      rw [hshape] at ht
      cases ht
  | _ => cases ht

end Parts

/-! ## The turns on a copy -/

section Copies

variable {rt : Runtime} {typ : τ → DestKind τ} {φ : Nat → Nat} {heap' heap : Heap}

/-- The turns on the graph are the turns on its copy. -/
theorem Copies.turns (h : Copies φ heap' heap) (call : List Nat) (v : Value) (kind : DestKind τ)
    (reqSK : Bool) : turns rt typ call (.ofHeap heap) (v.rename φ) kind reqSK =
      (turns rt typ call (.ofHeap heap') v kind reqSK).map (Turn.rename φ) := by
  cases kind with
  | slice elem =>
    simp only [Pickle.turns, h.shape v]
    cases (Graph.ofHeap heap').shape v with
    | list r items =>
      simp only [Shape.rename, List.length_map, List.map_map]
      congr 1
      funext i
      simp only [itemTurn, Function.comp_apply, Turn.rename, getD_rename]
      rfl
    | set items =>
      simp only [Shape.rename, entries_map, List.zipIdx_map, List.map_map]
      rfl
    | tuple items =>
      simp only [Shape.rename, List.zipIdx_map, List.map_map]
      rfl
    | _ => rfl
  | struct fields =>
    simp only [Pickle.turns, h.shape v]
    cases (Graph.ofHeap heap').shape v with
    | dict items =>
      simp only [Shape.rename, List.map_filterMap]
      congr 1
      funext p
      simp only [fieldTurn, find_rename]
      split
      · rfl
      · cases p.1.find rt items <;> rfl
    | object arguments =>
      simp only [Shape.rename, List.zip_map_right, List.zipIdx_map, List.map_map]
      rfl
    | _ => rfl
  | map key elem =>
    simp only [Pickle.turns, h.shape v]
    cases (Graph.ofHeap heap').shape v with
    | dict items =>
      simp only [Shape.rename, entries_map, List.zipIdx_map, List.map_map]
      rfl
    | _ => rfl
  | _ => rfl

end Copies

/-! ## The interfaces that are kept -/

section Survivors

/-- No later element has the key. -/
def Survives {α β : Type} (key : α → β) (l : List α) (a : α) : Prop :=
  ∃ l₁ l₂, l = l₁ ++ a :: l₂ ∧ ∀ b ∈ l₂, key b ≠ key a

variable {α β γ : Type} {key : α → β} {l : List α} {a b : α}

theorem survives_concat : Survives key (l ++ [b]) a ↔ a = b ∨ Survives key l a ∧ key a ≠ key b := by
  constructor
  · rintro ⟨l₁, l₂, heq, hnot⟩
    obtain rfl | ⟨l₃, c, rfl⟩ := List.eq_nil_or_concat l₂
    · exact .inl (List.append_inj_right' heq rfl |> List.cons.inj |>.1).symm
    · rw [List.concat_eq_append, ← List.cons_append, ← List.append_assoc] at heq
      obtain ⟨rfl, hc⟩ := List.append_inj' heq rfl
      obtain rfl := (List.cons.inj hc).1
      rw [List.concat_eq_append] at hnot
      refine .inr ⟨⟨l₁, l₃, rfl, fun x hx => hnot x (List.mem_append_left _ hx)⟩, fun h => ?_⟩
      exact hnot b (List.mem_append_right _ List.mem_cons_self) h.symm
  · rintro (rfl | ⟨⟨l₁, l₂, rfl, hnot⟩, hne⟩)
    · exact ⟨l, [], rfl, fun x hx => absurd hx List.not_mem_nil⟩
    · refine ⟨l₁, l₂ ++ [b], by simp, fun x hx => ?_⟩
      obtain hx | hx := List.mem_append.mp hx
      · exact hnot x hx
      · rw [List.mem_singleton.mp hx]
        exact hne.symm

theorem Survives.mem (h : Survives key l a) : a ∈ l := by
  obtain ⟨l₁, l₂, rfl, -⟩ := h
  exact List.mem_append_right _ List.mem_cons_self

theorem survives_map {f : γ → α} {l : List γ} :
    Survives key (l.map f) a ↔ ∃ c, f c = a ∧ Survives (fun c => key (f c)) l c := by
  constructor
  · rintro ⟨l₁, l₂, heq, hnot⟩
    obtain ⟨m₁, m₂, rfl, rfl, hm₂⟩ := List.map_eq_append_iff.mp heq
    obtain ⟨c, m₃, rfl, rfl, rfl⟩ := List.map_eq_cons_iff.mp hm₂
    exact ⟨c, rfl, m₁, m₃, rfl, fun d hd => hnot (f d) (List.mem_map_of_mem hd)⟩
  · rintro ⟨c, rfl, l₁, l₂, rfl, hnot⟩
    refine ⟨l₁.map f, l₂.map f, by simp, ?_⟩
    exact List.forall_mem_map.mpr hnot

/-- A list with a new element, which takes the place of those for which `p` holds. -/
def setLast (p : α → Bool) (l : List α) (a : α) : List α :=
  if l.any p then l.map fun b => if p b then a else b else l ++ [a]

theorem mem_setLast {p : α → Bool} : b ∈ setLast p l a ↔ b = a ∨ b ∈ l ∧ p b = false := by
  unfold setLast
  split
  · next hany =>
    obtain ⟨c, hc, hpc⟩ := List.any_eq_true.mp hany
    rw [List.mem_map]
    constructor
    · rintro ⟨d, hd, rfl⟩
      split
      · exact .inl rfl
      · next hpd => exact .inr ⟨hd, Bool.eq_false_iff.mpr hpd⟩
    · rintro (rfl | ⟨hb, hpb⟩)
      · exact ⟨c, hc, if_pos hpc⟩
      · exact ⟨b, hb, if_neg (Bool.eq_false_iff.mp hpb)⟩
  · next hnone =>
    rw [List.mem_append, List.mem_singleton, or_comm]
    refine or_congr_right ⟨fun hb => ⟨hb, ?_⟩, And.left⟩
    exact Bool.eq_false_iff.mpr fun hpb => hnone (List.any_eq_true.mpr ⟨b, hb, hpb⟩)

theorem map_setLast {f : α → γ} {p : α → Bool} {q : γ → Bool} (h : ∀ b ∈ l, q (f b) = p b) :
    (setLast p l a).map f = setLast q (l.map f) (f a) := by
  have hany : (l.map f).any q = l.any p := by
    rw [Bool.eq_iff_iff, List.any_map, List.any_eq_true, List.any_eq_true]
    exact exists_congr fun b => and_congr_right fun hb => by rw [Function.comp_apply, h b hb]
  unfold setLast
  rw [hany]
  split
  · rw [List.map_map, List.map_map]
    refine List.map_congr_left fun b hb => ?_
    simp only [Function.comp_apply, h b hb]
    split <;> rfl
  · rw [List.map_append, List.map_singleton]

theorem setEach_concat (l : List (Key × Bound)) (e : Key × Bound) :
    setEach (l ++ [e]) = setLast (fun e' => e'.1 = e.1) (setEach l) e := by
  rw [setEach, List.foldl_append]
  simp only [List.foldl_cons, List.foldl_nil, setMapIndex, setLast, decide_eq_true_eq]
  rfl

/-- Two maps that are set in step keep the same entries: of those with one key the last. -/
theorem exists_survivors {e' e : α → Key × Bound} (hkeys : ∀ x ∈ l, ∀ y ∈ l,
    ((e' x).1 = (e' y).1 ↔ (e x).1 = (e y).1)) :
    ∃ m : List α, setEach (l.map e') = m.map e' ∧ setEach (l.map e) = m.map e ∧
      ∀ x, x ∈ m ↔ Survives (fun x => (e' x).1) l x := by
  induction l using List.reverseRecOn with
  | nil =>
    refine ⟨[], rfl, rfl, fun x => iff_of_false List.not_mem_nil ?_⟩
    exact fun h => absurd h.mem List.not_mem_nil
  | append_singleton l x ih =>
    have hl : ∀ y ∈ l, y ∈ l ++ [x] := fun y hy => List.mem_append_left _ hy
    have hx : x ∈ l ++ [x] := List.mem_append_right _ List.mem_cons_self
    obtain ⟨m, hm', hm, hmem⟩ := ih fun y hy z hz => hkeys y (hl y hy) z (hl z hz)
    refine ⟨setLast (fun y => (e' y).1 = (e' x).1) m x, ?_, ?_, fun y => ?_⟩
    · rw [List.map_append, List.map_singleton, setEach_concat, hm']
      exact (map_setLast fun y _ => rfl).symm
    · rw [List.map_append, List.map_singleton, setEach_concat, hm]
      refine (map_setLast fun y hy => ?_).symm
      exact decide_eq_decide.mpr (hkeys y (hl y ((hmem y).mp hy).mem) x hx).symm
    · rw [mem_setLast, survives_concat, hmem, decide_eq_false_iff_not]

end Survivors

/-- The elements, each with the state before it. -/
def withStates {σ α : Type*} (next : σ → α → σ) : σ → List α → List (σ × α)
  | _, [] => []
  | s, a :: l => (s, a) :: withStates next (next s a) l

/-- An interface that is set, with the places that are replaced by then. -/
structure Leaf where
  replaced : Set (Nat × Nat)
  place : Option (Nat × Nat)
  value : Value
  reqSK : Bool

/-- The interface that is a key. -/
def KeyKind.leaves : KeyKind → Value → Set Leaf
  | .interface, v => {⟨∅, none, v, false⟩}
  | _, _ => ∅

/-- The interfaces that the destination keeps. -/
def leaves (rt : Runtime) (typ : τ → DestKind τ) (g : Graph) :
    Nat → Set (Nat × Nat) → Turn τ → Set Leaf
  | 0, _, _ => ∅
  | n + 1, P, t =>
    let parts := withStates (fun P t => t.next rt typ g n P) P
      (turns rt typ t.call g t.value t.kind t.reqSK)
    match t.kind with
    | .interface => {⟨P, t.place, t.value, t.reqSK⟩}
    | .map key _ => {x | ∃ p, Survives (fun p => key.convert p.2.key) parts p ∧
        (x ∈ key.leaves p.2.key ∨ x ∈ leaves rt typ g n p.1 p.2)}
    | _ => {x | ∃ p ∈ parts, x ∈ leaves rt typ g n p.1 p.2}

end Isthmus.Pickle
