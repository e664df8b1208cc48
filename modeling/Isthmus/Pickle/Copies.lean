import Isthmus.Pickle.Json

/-!
# Copies of a graph

A copy has its own lists, dicts and sets. Each of them holds what the one holds that
it was copied from, and of one list there can be many copies. The calls of `bind` on
a copy are those on the graph.

## Main definitions

- `Value.rename`: a value of the copy, as it is in the graph
- `Copies`: the graph has what the copy has

## Main results

- `Copies.visits`: the calls are the same
-/

namespace Isthmus.Pickle

open Recursion

/-! ## Renaming -/

mutual

/-- The references of the value are replaced. -/
def Value.rename (φ : Nat → Nat) : Value → Value
  | .tuple items => .tuple (Value.renameAll φ items)
  | .object cls arguments => .object (cls.rename φ) (Value.renameAll φ arguments)
  | .ref r => .ref (φ r)
  | v => v

def Value.renameAll (φ : Nat → Nat) : List Value → List Value
  | [] => []
  | v :: l => v.rename φ :: Value.renameAll φ l

end

section Rename

variable (φ : Nat → Nat)

attribute [local simp] Value.rename

def renameEntry (e : Value × Value) : Value × Value := (e.1.rename φ, e.2.rename φ)

def renamePlace (p : Nat × Nat) : Nat × Nat := (φ p.1, p.2)

def Cell.rename : Cell → Cell
  | .list items => .list (items.map (Value.rename φ))
  | .dict items => .dict (items.map (renameEntry φ))
  | .set items => .set (items.map (Value.rename φ))

def Shape.rename : Shape → Shape
  | .list r items => .list (φ r) (items.map (Value.rename φ))
  | .dict items => .dict (items.map (renameEntry φ))
  | .set items => .set (items.map (Value.rename φ))
  | .tuple items => .tuple (items.map (Value.rename φ))
  | .object arguments => .object (arguments.map (Value.rename φ))
  | .other => .other

variable {τ : Type}

def Visit.rename : Visit τ → Visit τ
  | .value place v kind reqSK => .value (place.map (renamePlace φ)) (v.rename φ) kind reqSK
  | .missing => .missing
  | .deep => .deep

/-- The places of the graph that the places of the copy are of. -/
def renamePlaces (P : Set (Nat × Nat)) : Set (Nat × Nat) := renamePlace φ '' P

variable {φ}

theorem renameAll_eq (l : List Value) : Value.renameAll φ l = l.map (Value.rename φ) := by
  induction l with
  | nil => rfl
  | cons v l ih => rw [Value.renameAll, ih, List.map_cons]

@[simp] theorem rename_tuple (items : List Value) :
    (Value.tuple items).rename φ = .tuple (items.map (Value.rename φ)) := by
  rw [Value.rename, renameAll_eq]

@[simp] theorem rename_object (cls : Value) (arguments : List Value) :
    (Value.object cls arguments).rename φ =
      .object (cls.rename φ) (arguments.map (Value.rename φ)) := by
  rw [Value.rename, renameAll_eq]

@[simp] theorem rename_ref (r : Nat) : (Value.ref r).rename φ = .ref (φ r) := rfl

theorem rename_eq_none {v : Value} : v.rename φ = .none ↔ v = .none := by
  cases v <;> simp

theorem rename_eq_int {v : Value} {n : Int} : v.rename φ = .int n ↔ v = .int n := by
  cases v <;> simp

theorem rename_eq_string {v : Value} {s : GoString} : v.rename φ = .string s ↔ v = .string s := by
  cases v <;> simp

theorem rename_eq_bool {v : Value} {b : Bool} : v.rename φ = .bool b ↔ v = .bool b := by
  cases v <;> simp

theorem rename_eq_ref {v : Value} {r : Nat} : v.rename φ = .ref r ↔ ∃ s, v = .ref s ∧ φ s = r := by
  cases v <;> simp

theorem getD_rename (items : List Value) (i : Nat) :
    (items.map (Value.rename φ)).getD i .none = (items.getD i .none).rename φ := by
  rw [List.getD_eq_getElem?_getD, List.getElem?_map, List.getD_eq_getElem?_getD]
  cases items[i]? <;> rfl

end Rename

/-- The graph has what the copy has, and nothing for what is not in the copy. -/
def Copies (φ : Nat → Nat) (heap' heap : Heap) : Prop :=
  ∀ r, heap[φ r]? = heap'[r]?.map (Cell.rename φ)

/-! ## What is in the graph -/

theorem ofHeap_node (heap : Heap) (r : Nat) :
    (Graph.ofHeap heap)[r]? = heap[r]?.map .cell := by
  rw [Graph.ofHeap, List.getElem?_map]

namespace Copies

variable {φ : Nat → Nat} {heap' heap : Heap} (h : Copies φ heap' heap) {v : Value}

include h

theorem node (r : Nat) : (Graph.ofHeap heap)[φ r]? =
    heap'[r]?.map fun c => .cell (c.rename φ) := by
  rw [ofHeap_node, h r, Option.map_map]
  rfl

theorem shape (v : Value) : (Graph.ofHeap heap).shape (v.rename φ) =
    ((Graph.ofHeap heap').shape v).rename φ := by
  cases v with
  | ref r =>
    simp only [rename_ref, Graph.shape, h.node r, ofHeap_node]
    cases heap'[r]? with
    | none => rfl
    | some c => cases c <;> rfl
  | tuple items =>
    rw [rename_tuple]
    rfl
  | object cls arguments =>
    rw [rename_object]
    rfl
  | _ => rfl

theorem isDict_iff : (Graph.ofHeap heap).IsDict (v.rename φ) ↔ (Graph.ofHeap heap').IsDict v := by
  unfold Graph.IsDict
  rw [h.shape v]
  cases (Graph.ofHeap heap').shape v <;> simp [Shape.rename]

theorem children (v : Value) : (Graph.ofHeap heap).children (v.rename φ) =
    ((Graph.ofHeap heap').children v).map (Value.rename φ) := by
  unfold Graph.children
  rw [h.shape v]
  cases (Graph.ofHeap heap').shape v with
  | dict items =>
    simp only [Shape.rename, List.filterMap_map, List.map_filterMap]
    congr 1
    funext e
    obtain ⟨k, u⟩ := e
    cases k <;> simp [Graph.stringValue, renameEntry, Value.rename]
  | _ => rfl

theorem parts (v : Value) : (Graph.ofHeap heap).parts (v.rename φ) =
    ((Graph.ofHeap heap').parts v).map (Value.rename φ) := by
  cases v with
  | ref r =>
    simp only [rename_ref, Graph.parts, h.node r, ofHeap_node]
    cases heap'[r]? with
    | none => rfl
    | some c =>
      cases c with
      | dict items =>
        simp [Cell.rename, List.flatMap_map, List.map_flatMap, renameEntry]
      | _ => rfl
  | tuple items =>
    rw [rename_tuple]
    rfl
  | object cls arguments =>
    rw [rename_object]
    rfl
  | _ => rfl

theorem places (v : Value) : (Graph.ofHeap heap).places (v.rename φ) =
    renamePlaces φ ((Graph.ofHeap heap').places v) := by
  ext ⟨r, i⟩
  simp only [Graph.places, renamePlaces, renamePlace, Set.mem_ofPred_eq, Set.mem_image,
    mem_below_map h.children, rename_eq_ref, Prod.exists]
  constructor
  · rintro ⟨items, hr, hi, c, hc, s, rfl, rfl⟩
    rw [h.node s] at hr
    obtain ⟨cell, hcell, heq⟩ := Option.map_eq_some_iff.mp hr
    cases cell with
    | list items' =>
      cases heq
      rw [List.length_map] at hi
      refine ⟨s, i, ⟨items', ?_, hi, hc⟩, rfl⟩
      rw [ofHeap_node, hcell]
      rfl
    | _ => cases heq
  · rintro ⟨s, j, ⟨items', hs, hj, hc⟩, heq⟩
    cases heq
    rw [ofHeap_node] at hs
    obtain ⟨cell, hcell, heq⟩ := Option.map_eq_some_iff.mp hs
    cases heq
    refine ⟨items'.map (Value.rename φ), ?_, by rwa [List.length_map], _, hc, s, rfl, rfl⟩
    rw [h.node s, hcell]
    rfl

theorem list {r : Nat} {items : List Value}
    (hr : (Graph.ofHeap heap')[r]? = some (.cell (.list items))) :
    (Graph.ofHeap heap)[φ r]? = some (.cell (.list (items.map (Value.rename φ)))) := by
  rw [ofHeap_node] at hr
  obtain ⟨cell, hcell, heq⟩ := Option.map_eq_some_iff.mp hr
  cases heq
  rw [h.node r, hcell]
  rfl

theorem keysDistinct (hkeys : (Graph.ofHeap heap).KeysDistinct) :
    (Graph.ofHeap heap').KeysDistinct := by
  intro v items hv
  have hshape := h.shape v
  rw [hv] at hshape
  have hnodup := hkeys _ _ hshape
  rw [List.map_map] at hnodup
  refine List.Nodup.of_map (Value.rename φ) ?_
  rwa [List.map_map]

end Copies

/-! ## The calls -/

section Visits

/-- The order depends on the number of the elements only. -/
theorem entries_eq {α : Type} (rt : Runtime) (call : List Nat) {l : List α} {n : Nat}
    (h : l.length = n) :
    rt.entries call l = List.ofFn fun i : Fin n => l.get (Fin.cast h.symm (rt.order call n i)) := by
  subst h
  rfl

theorem entries_map {α β : Type} (rt : Runtime) (call : List Nat) (f : α → β) (l : List α) :
    rt.entries call (l.map f) = (rt.entries call l).map f := by
  rw [entries_eq rt call (List.length_map f), Runtime.entries, List.map_ofFn]
  congr 1
  funext i
  simp

variable {φ : Nat → Nat} {τ : Type} {rt : Runtime}

theorem find_rename (f : Field τ) (items : List (Value × Value)) :
    f.find rt (items.map (renameEntry φ)) = (f.find rt items).map (Value.rename φ) := by
  have hget : ∀ s, ((items.map (renameEntry φ)).find? fun e => e.1.equals (.string s)).map (·.2) =
      ((items.find? fun e => e.1.equals (.string s)).map (·.2)).map (Value.rename φ) := by
    intro s
    have hkey : ((fun e : Value × Value => e.1.equals (.string s)) ∘ renameEntry φ) =
        fun e => e.1.equals (.string s) := by
      funext e
      rw [Bool.eq_iff_iff]
      simp only [Function.comp_apply, renameEntry, Value.equals_iff, rename_eq_string]
    rw [List.find?_map, hkey, Option.map_map, Option.map_map]
    rfl
  simp only [Field.find, hget, Option.map_or]

theorem keyVisit_rename (key : KeyKind) (v : Value) :
    (key.visit (v.rename φ) : Visit τ) = (key.visit v).rename φ := by
  cases key <;> rfl

variable {heap' heap : Heap} {typ : τ → DestKind τ}

/-- The calls on the graph are the calls on its copy. -/
theorem Copies.visits (h : Copies φ heap' heap) (n : Nat) (call : List Nat)
    (place : Option (Nat × Nat)) (v : Value) (kind : DestKind τ) (reqSK : Bool) :
    visits rt typ (.ofHeap heap) n call (place.map (renamePlace φ)) (v.rename φ) kind reqSK =
      (visits rt typ (.ofHeap heap') n call place v kind reqSK).map (Visit.rename φ) := by
  induction n generalizing call place v kind reqSK with
  | zero => rfl
  | succ n ih =>
    have ih₀ := fun call => ih call none
    simp only [Option.map_none] at ih₀
    cases kind with
    | slice elem =>
      simp only [Pickle.visits, h.shape v, List.map_cons]
      congr 1
      cases (Graph.ofHeap heap').shape v with
      | list r items =>
        simp only [Shape.rename, List.length_map, List.map_flatMap, getD_rename]
        congr 1
        funext i
        exact ih (i :: call) (some (r, i)) _ _ _
      | set items =>
        simp only [Shape.rename, entries_map, List.zipIdx_map, List.flatMap_map, List.map_flatMap]
        congr 1
        funext p
        exact ih₀ _ _ _ _
      | tuple items =>
        simp only [Shape.rename, List.zipIdx_map, List.flatMap_map, List.map_flatMap]
        congr 1
        funext p
        exact ih₀ _ _ _ _
      | _ => rfl
    | struct fields =>
      simp only [Pickle.visits, h.shape v, List.map_cons]
      congr 1
      cases hshape : (Graph.ofHeap heap').shape v with
      | dict items =>
        simp only [Shape.rename, List.map_flatMap]
        congr 1
        funext p
        rw [find_rename]
        split
        · exact ih₀ _ _ _ _
        · cases p.1.find rt items with
          | none => rfl
          | some w => exact ih₀ _ _ _ _
      | object arguments =>
        simp only [Shape.rename, List.zip_map_right, List.zipIdx_map, List.flatMap_map,
          List.map_flatMap]
        congr 1
        funext p
        exact ih₀ _ _ _ _
      | _ => rfl
    | map key elem =>
      simp only [Pickle.visits, h.shape v, List.map_cons]
      congr 1
      cases (Graph.ofHeap heap').shape v with
      | dict items =>
        simp only [Shape.rename, entries_map, List.zipIdx_map, List.flatMap_map, List.map_flatMap,
          List.map_cons]
        congr 1
        funext p
        exact congrArg₂ List.cons (keyVisit_rename key _) (ih₀ _ _ _ _)
      | _ => rfl
    | _ => rfl

end Visits

end Isthmus.Pickle
