import Isthmus.Lib.Recursion
import Isthmus.Pickle.Bind
import Mathlib.Data.List.GetD
import Mathlib.Data.Set.Insert

/-!
# Restricted graphs

`restrictMapKeysToStrings` goes through the lists and the dicts behind a value, and
comes to an end where there is no cycle. It leaves a graph in which the dicts in the
lists that it went through are replaced, and all else is as it was.

## Main definitions

- `Graph.children`, `Graph.places`: what the function goes through
- `Kept`: a graph in which the dicts in some places were replaced

## Main results

- `restricts`: when the function comes to an end, and what it leaves
-/

namespace Isthmus.Pickle

open Recursion

/-- The elements of a list, by their indices. -/
theorem mem_iff_getD {v : Value} {items : List Value} :
    v ∈ items ↔ ∃ i < items.length, v = items.getD i .none := by
  rw [List.mem_iff_getElem]
  constructor
  · rintro ⟨i, hi, rfl⟩
    exact ⟨i, hi, (List.getD_eq_getElem items .none hi).symm⟩
  · rintro ⟨i, hi, rfl⟩
    exact ⟨i, hi, (List.getD_eq_getElem items .none hi).symm⟩

theorem getD_set_self {v : Value} {items : List Value} {i : Nat} (hi : i < items.length) :
    (items.set i v).getD i .none = v := by
  rw [List.getD_eq_getElem?_getD, List.getElem?_set_self hi, Option.getD_some]

theorem getD_set_ne {v : Value} {items : List Value} {i j : Nat} (hij : i ≠ j) :
    (items.set i v).getD j .none = items.getD j .none := by
  rw [List.getD_eq_getElem?_getD, List.getElem?_set_ne hij, List.getD_eq_getElem?_getD]

namespace Graph

variable (g : Graph)

def IsDict (v : Value) : Prop := ∃ items, g.shape v = .dict items

def IsStringMap (v : Value) : Prop := ∃ r m, v = .ref r ∧ g[r]? = some (.stringMap m)

def stringValue : Value × Value → Option Value
  | (.string _, v) => some v
  | _ => none

/-- The values that `restrictMapKeysToStrings` is called with for the parts of a value. -/
def children (v : Value) : List Value :=
  match g.shape v with
  | .list _ items => items
  | .dict items => items.filterMap stringValue
  | _ => []

/-- The places in the lists behind a value. -/
def places (v : Value) : Set (Nat × Nat) :=
  {p | ∃ items, g[p.1]? = some (.cell (.list items)) ∧ p.2 < items.length ∧
    .ref p.1 ∈ below g.children v}

variable {g} {v : Value} {r : Nat}

theorem shape_eq_list {items : List Value} :
    g.shape v = .list r items ↔ v = .ref r ∧ g[r]? = some (.cell (.list items)) := by
  constructor
  · intro h
    cases v with
    | ref r' =>
      simp only [shape] at h
      split at h <;> cases h
      next hr => exact ⟨rfl, hr⟩
    | _ => cases h
  · rintro ⟨rfl, hr⟩
    simp only [shape, hr]

theorem children_list {items : List Value} (h : g.shape v = .list r items) :
    g.children v = items := by
  simp only [children, h]

theorem children_dict {items : List (Value × Value)} (h : g.shape v = .dict items) :
    g.children v = items.filterMap stringValue := by
  simp only [children, h]

theorem mem_places_iff {p : Nat × Nat} : p ∈ g.places v ↔
    (∃ items, g.shape v = .list p.1 items ∧ p.2 < items.length) ∨
      ∃ w ∈ g.children v, p ∈ g.places w := by
  constructor
  · rintro ⟨items, hitems, hlt, hbelow⟩
    obtain heq | ⟨w, hw, hbelow⟩ := mem_below_iff.mp hbelow
    · exact .inl ⟨items, shape_eq_list.mpr ⟨heq.symm, hitems⟩, hlt⟩
    · exact .inr ⟨w, hw, items, hitems, hlt, hbelow⟩
  · rintro (⟨items, hshape, hlt⟩ | ⟨w, hw, items, hitems, hlt, hbelow⟩)
    · obtain ⟨rfl, hitems⟩ := shape_eq_list.mp hshape
      exact ⟨items, hitems, hlt, mem_below_iff.mpr (.inl rfl)⟩
    · exact ⟨items, hitems, hlt, mem_below_iff.mpr (.inr ⟨w, hw, hbelow⟩)⟩

theorem places_list {items : List Value} (h : g.shape v = .list r items) :
    g.places v = {p | ∃ i ∈ List.range items.length,
      p = (r, i) ∨ p ∈ g.places (items.getD i .none)} := by
  ext ⟨s, i⟩
  rw [mem_places_iff, children_list h, h]
  constructor
  · rintro (⟨items', heq, hlt⟩ | ⟨w, hw, hplace⟩)
    · cases heq
      exact ⟨i, List.mem_range.mpr hlt, .inl rfl⟩
    · obtain ⟨j, hj, rfl⟩ := mem_iff_getD.mp hw
      exact ⟨j, List.mem_range.mpr hj, .inr hplace⟩
  · rintro ⟨j, hj, heq | hplace⟩
    · cases heq
      exact .inl ⟨items, rfl, List.mem_range.mp hj⟩
    · exact .inr ⟨_, mem_iff_getD.mpr ⟨j, List.mem_range.mp hj, rfl⟩, hplace⟩

theorem places_of_not_list (h : ∀ r items, g.shape v ≠ .list r items) :
    g.places v = {p | ∃ w ∈ g.children v, p ∈ g.places w} := by
  ext p
  rw [mem_places_iff]
  exact or_iff_right fun ⟨items, hitems, _⟩ => h p.1 items hitems

theorem not_isDict {s : Shape} (hv : g.shape v = s) (hs : ∀ items, s ≠ .dict items) :
    ¬g.IsDict v := fun ⟨items, h⟩ => hs items (hv.symm.trans h)

/-- What is neither a list nor a dict has no parts. -/
theorem children_eq_nil (hlist : ∀ r items, g.shape v ≠ .list r items) (hdict : ¬g.IsDict v) :
    g.children v = [] := by
  unfold children
  split
  · next r items h => exact absurd h (hlist r items)
  · next items h => exact absurd ⟨items, h⟩ hdict
  · rfl

end Graph

/-! ## Graphs with replaced dicts -/

/-- What is in the place of a value: where it is a dict that was replaced, a map,
and else the value. -/
def Stands (g₀ g : Graph) (replaced : Prop) (v w : Value) : Prop :=
  (replaced ∧ g₀.IsDict v → g.IsStringMap w) ∧ (¬(replaced ∧ g₀.IsDict v) → w = v)

/-- The graph `g₀`, after the dicts in the places `P` were replaced. -/
structure Kept (g₀ : Graph) (P : Set (Nat × Nat)) (g : Graph) : Prop where
  list : ∀ {r : Nat} {items : List Value}, g₀[r]? = some (.cell (.list items)) →
    ∃ items', g[r]? = some (.cell (.list items')) ∧ items'.length = items.length ∧
      ∀ i, Stands g₀ g ((r, i) ∈ P) (items.getD i .none) (items'.getD i .none)
  node : ∀ {r : Nat} {x : Node}, g₀[r]? = some x → (∀ items, x ≠ .cell (.list items)) →
    g[r]? = some x
  fresh : ∀ {r : Nat} {x : Node}, g₀[r]? = none → g[r]? = some x → ∃ m, x = .stringMap m
  gone : ∀ {r i : Nat} {items : List Value}, (r, i) ∈ P → g₀[r]? = some (.cell (.list items)) →
    Grounded g₀.children (items.getD i .none) ∧ g₀.places (items.getD i .none) ⊆ P

variable {g₀ g g' : Graph} {P : Set (Nat × Nat)} {v w : Value} {r i : Nat}

theorem stands_self : Stands g₀ g False v v := ⟨fun h => h.1.elim, fun _ => rfl⟩

theorem Stands.imp {a b : Prop} (hab : b ↔ a) (hmap : ∀ u, g.IsStringMap u → g'.IsStringMap u)
    (h : Stands g₀ g a v w) : Stands g₀ g' b v w := by
  rw [← hab] at h
  exact ⟨fun hb => hmap w (h.1 hb), h.2⟩

/-- Nil stays nil, and nothing becomes nil. -/
theorem Stands.eq_none_iff {a : Prop} (h : Stands g₀ g a v w) : w = .none ↔ v = .none := by
  by_cases hv : a ∧ g₀.IsDict v
  · obtain ⟨s, m, rfl, -⟩ := h.1 hv
    obtain ⟨items, hitems⟩ := hv.2
    refine iff_of_false (fun hw => by cases hw) ?_
    rintro rfl
    cases hitems
  · rw [h.2 hv]

theorem kept_self : Kept g₀ ∅ g₀ where
  list h := ⟨_, h, rfl, fun i => stands_self.imp (Set.mem_empty_iff_false _) fun _ hu => hu⟩
  node h _ := h
  fresh h h' := by cases h.symm.trans h'
  gone h := absurd h (Set.notMem_empty _)

namespace Graph

theorem node_append {x y : Node} (h : g[r]? = some x) : (g ++ [y])[r]? = some x := by
  rw [List.getElem?_append_left (List.getElem?_eq_some_iff.mp h).1, h]

theorem isStringMap_append {u : Value} (x : Node) (h : g.IsStringMap u) :
    IsStringMap (g ++ [x]) u := by
  obtain ⟨s, m, rfl, hs⟩ := h
  exact ⟨s, m, rfl, Graph.node_append hs⟩

theorem setItem_self {items : List Value} (hr : g[r]? = some (.cell (.list items))) :
    (g.setItem r i v)[r]? = some (.cell (.list (items.set i v))) := by
  simp only [setItem, hr]
  exact List.getElem?_set_self (List.getElem?_eq_some_iff.mp hr).1

theorem setItem_ne {s : Nat} (hne : r ≠ s) : (g.setItem r i v)[s]? = g[s]? := by
  unfold setItem
  split
  · exact List.getElem?_set_ne hne
  · rfl

theorem isStringMap_setItem {u : Value} (h : g.IsStringMap u) :
    (g.setItem r i v).IsStringMap u := by
  obtain ⟨s, m, rfl, hs⟩ := h
  unfold setItem
  split
  · next items hr =>
    -- the list that is changed is not the map
    have hne : r ≠ s := by
      rintro rfl
      cases hr.symm.trans hs
    exact ⟨s, m, rfl, (List.getElem?_set_ne hne).trans hs⟩
  · exact ⟨s, m, rfl, hs⟩

end Graph

namespace Kept

theorem item (h : Kept g₀ P g) {items : List Value} (hr : g₀[r]? = some (.cell (.list items)))
    (i : Nat) : Stands g₀ g ((r, i) ∈ P) (items.getD i .none) (g.item r i) := by
  obtain ⟨items', hitems', -, hstands⟩ := h.list hr
  simp only [Graph.item, hitems']
  exact hstands i

/-- A new map changes nothing of what was there. -/
theorem append (h : Kept g₀ P g) (m : GoMap GoString Value) :
    Kept g₀ P (g ++ [.stringMap m]) where
  list hr := by
    obtain ⟨items', hitems', hlength, hstands⟩ := h.list hr
    refine ⟨items', Graph.node_append hitems', hlength, fun i => ?_⟩
    exact (hstands i).imp Iff.rfl fun u => Graph.isStringMap_append _
  node hr hne := Graph.node_append (h.node hr hne)
  fresh {r x} hr hx := by
    cases hg : g[r]? with
    | some y =>
      rw [Graph.node_append hg] at hx
      exact h.fresh hr (hg.trans hx)
    | none =>
      rw [List.getElem?_append_right (List.getElem?_eq_none_iff.mp hg)] at hx
      rw [List.getElem?_singleton] at hx
      split at hx <;> cases hx
      exact ⟨m, rfl⟩
  gone := h.gone

/-- One more element of a list was restricted. -/
theorem setItem (h : Kept g₀ P g) {items : List Value} (hr : g₀[r]? = some (.cell (.list items)))
    (hgrounded : Grounded g₀.children (items.getD i .none))
    (hplaces : g₀.places (items.getD i .none) ⊆ P)
    (hw : Stands g₀ g True (items.getD i .none) w) (hi : i < items.length) :
    Kept g₀ (insert (r, i) P) (g.setItem r i w) := by
  obtain ⟨items', hitems', hlength, hstands⟩ := h.list hr
  refine ⟨fun {r' items₁} hr' => ?_, fun {r' x} hr' hne => ?_, fun {r' x} hr' hx => ?_,
    fun {r' i' items₁} hmem hr' => ?_⟩
  · by_cases heq : r = r'
    · subst heq
      cases hr.symm.trans hr'
      refine ⟨items'.set i w, Graph.setItem_self hitems', by rw [List.length_set, hlength],
        fun j => ?_⟩
      by_cases hij : i = j
      · subst hij
        rw [getD_set_self (hlength ▸ hi)]
        exact hw.imp (iff_true_intro (Set.mem_insert _ _)) fun u => Graph.isStringMap_setItem
      · rw [getD_set_ne hij]
        refine (hstands j).imp ?_ fun u => Graph.isStringMap_setItem
        simp [Ne.symm hij]
    · obtain ⟨items₂, hitems₂, hlength₂, hstands₂⟩ := h.list hr'
      refine ⟨items₂, (Graph.setItem_ne heq).trans hitems₂, hlength₂, fun j => ?_⟩
      refine (hstands₂ j).imp ?_ fun u => Graph.isStringMap_setItem
      simp [Ne.symm heq]
  · have heq : r ≠ r' := by
      rintro rfl
      cases hr.symm.trans hr'
      exact hne items rfl
    exact (Graph.setItem_ne heq).trans (h.node hr' hne)
  · have heq : r ≠ r' := by
      rintro rfl
      cases hr.symm.trans hr'
    exact h.fresh hr' ((Graph.setItem_ne heq).symm.trans hx)
  · obtain heq | hmem := Set.mem_insert_iff.mp hmem
    · cases heq
      cases hr.symm.trans hr'
      exact ⟨hgrounded, hplaces.trans (Set.subset_insert _ _)⟩
    · obtain ⟨hgrounded', hplaces'⟩ := h.gone hmem hr'
      exact ⟨hgrounded', hplaces'.trans (Set.subset_insert _ _)⟩

theorem shape_list (h : Kept g₀ P g) {items : List Value} (hv : g₀.shape v = .list r items) :
    ∃ items', g.shape v = .list r items' ∧ items'.length = items.length := by
  obtain ⟨rfl, hr⟩ := Graph.shape_eq_list.mp hv
  obtain ⟨items', hitems', hlength, -⟩ := h.list hr
  exact ⟨items', Graph.shape_eq_list.mpr ⟨rfl, hitems'⟩, hlength⟩

/-- What is not a list is not changed. -/
theorem shape_eq (h : Kept g₀ P g) {s : Shape} (hv : g₀.shape v = s)
    (hs : ∀ r items, s ≠ .list r items) : g.shape v = s := by
  subst hv
  cases v with
  | ref r =>
    cases hr : g₀[r]? with
    | none =>
      cases hr' : g[r]? with
      | none => simp only [Graph.shape, hr, hr']
      | some x =>
        obtain ⟨m, rfl⟩ := h.fresh hr hr'
        simp only [Graph.shape, hr, hr']
    | some x =>
      have hne : ∀ items, x ≠ .cell (.list items) := by
        rintro items rfl
        exact hs r items (Graph.shape_eq_list.mpr ⟨rfl, hr⟩)
      simp only [Graph.shape, hr, h.node hr hne]
  | _ => rfl

end Kept

/-! ## The restriction -/

/-- What restricting a value of `g₀` does where the dicts in `P` were replaced. -/
def Restricts (g₀ : Graph) (P : Set (Nat × Nat)) (n : Nat) (v : Value) :
    Option (Value × Graph) → Prop
  | none => ¬Within g₀.children n v
  | some (w, g) =>
    Grounded g₀.children v ∧ Stands g₀ g True v w ∧ Kept g₀ (P ∪ g₀.places v) g

/-- What a loop does: it restricts these values, and has then replaced `Q` as well. -/
def RestrictsAll (g₀ : Graph) (P : Set (Nat × Nat)) (n : Nat) (vs : List Value)
    (Q : Set (Nat × Nat)) : Option Graph → Prop
  | none => ∃ v ∈ vs, ¬Within g₀.children n v
  | some g => (∀ v ∈ vs, Grounded g₀.children v) ∧ Kept g₀ (P ∪ Q) g

/-- The value was restricted if it is in a replaced place. -/
def Settled (g₀ : Graph) (P : Set (Nat × Nat)) (replaced : Prop) (v : Value) : Prop :=
  replaced → Grounded g₀.children v ∧ g₀.places v ⊆ P

/-- Each element of a map has its turn. -/
theorem exists_mem_entries {α : Type} {f : α → Prop} (rt : Runtime) (call : List Nat)
    (l : List α) : (∃ p ∈ (rt.entries call l).zipIdx, f p.1) ↔ ∃ a ∈ l, f a := by
  have hmem : ∀ a, a ∈ rt.entries call l ↔ a ∈ l := by
    intro a
    rw [Runtime.entries, List.mem_ofFn, List.mem_iff_get]
    exact ((rt.order call l.length).surjective.exists (p := fun i => l.get i = a)).symm
  have hfst : (rt.entries call l).zipIdx.map (·.1) = rt.entries call l := List.zipIdx_map_fst 0 _
  constructor
  · rintro ⟨p, hp, hf⟩
    exact ⟨p.1, (hmem _).mp (hfst ▸ List.mem_map_of_mem hp), hf⟩
  · rintro ⟨a, ha, hf⟩
    rw [← hmem, ← hfst, List.mem_map] at ha
    obtain ⟨p, hp, rfl⟩ := ha
    exact ⟨p, hp, hf⟩

/-- The values that the loop over a dict restricts. -/
def stringValues (l : List ((Value × Value) × Nat)) : List Value :=
  l.filterMap fun p => Graph.stringValue p.1

theorem mem_stringValues_entries (rt : Runtime) (call : List Nat) {items : List (Value × Value)}
    (hv : g₀.shape v = .dict items) :
    w ∈ stringValues (rt.entries call items).zipIdx ↔ w ∈ g₀.children v := by
  rw [Graph.children_dict hv, stringValues, List.mem_filterMap, List.mem_filterMap]
  exact exists_mem_entries (f := fun e => Graph.stringValue e = some w) rt call items

section Loops

variable {restrict : List Nat → Value → Graph → Option (Value × Graph)} {n : Nat}
  {vs : List Value} {Q : Set (Nat × Nat)}

theorem restrictsAll_nil (hg : Kept g₀ P g) : RestrictsAll g₀ P n [] ∅ (some g) := by
  refine ⟨fun v hv => absurd hv List.not_mem_nil, ?_⟩
  rwa [Set.union_empty]

theorem RestrictsAll.cons {o : Option Graph} (hv : Grounded g₀.children v) {Q' : Set (Nat × Nat)}
    (h : RestrictsAll g₀ (P ∪ Q') n vs Q o) : RestrictsAll g₀ P n (v :: vs) (Q' ∪ Q) o := by
  cases o with
  | none =>
    obtain ⟨u, hu, hdeep⟩ := h
    exact ⟨u, List.mem_cons_of_mem v hu, hdeep⟩
  | some g =>
    obtain ⟨hgrounded, hkept⟩ := h
    refine ⟨List.forall_mem_cons.mpr ⟨hv, hgrounded⟩, ?_⟩
    rwa [← Set.union_assoc]

/-- The places that the loop over a list replaces. -/
theorem itemPlaces_nil (items : List Value) :
    {p | ∃ i ∈ ([] : List Nat), p = (r, i) ∨ p ∈ g₀.places (items.getD i .none)} = ∅ := by
  ext p
  simp

theorem itemPlaces_cons (items : List Value) (i : Nat) (l : List Nat) :
    {p | ∃ j ∈ i :: l, p = (r, j) ∨ p ∈ g₀.places (items.getD j .none)} =
      insert (r, i) (g₀.places (items.getD i .none)) ∪
        {p | ∃ j ∈ l, p = (r, j) ∨ p ∈ g₀.places (items.getD j .none)} := by
  ext p
  simp

variable (hrestrict : ∀ {a v w g P} (call : List Nat), Kept g₀ P g → Stands g₀ g a v w →
  Settled g₀ P a v → Restricts g₀ P n v (restrict call w g))

include hrestrict

theorem restrictEntries_all (call : List Nat) (l : List ((Value × Value) × Nat))
    (m : GoMap GoString Value) (hg : Kept g₀ P g) :
    RestrictsAll g₀ P n (stringValues l) {p | ∃ v ∈ stringValues l, p ∈ g₀.places v}
      ((restrictEntries restrict call l m g).map (·.2)) := by
  induction l generalizing m g P with
  | nil =>
    have hQ : {p | ∃ v ∈ stringValues [], p ∈ g₀.places v} = ∅ := by
      ext p
      simp [stringValues]
    rw [hQ]
    exact restrictsAll_nil hg
  | cons p l ih =>
    obtain ⟨⟨k, v⟩, i⟩ := p
    cases k with
    | string s =>
      have hvalue := hrestrict (i :: call) hg (stands_self (v := v)) fun h => h.elim
      have hvs : stringValues (((.string s, v), i) :: l) = v :: stringValues l := rfl
      rw [restrictEntries, hvs]
      cases hres : restrict (i :: call) v g with
      | none =>
        rw [hres] at hvalue
        exact ⟨v, List.mem_cons_self, hvalue⟩
      | some q =>
        obtain ⟨u, g₁⟩ := q
        rw [hres] at hvalue
        obtain ⟨hgrounded, -, hkept⟩ := hvalue
        have hQ : {p | ∃ w ∈ v :: stringValues l, p ∈ g₀.places w} =
            g₀.places v ∪ {p | ∃ w ∈ stringValues l, p ∈ g₀.places w} := by
          ext p
          simp
        rw [hQ]
        exact (ih (m.insert s u) hkept).cons hgrounded
    | _ => exact ih m hg

theorem restrictItems_all (call : List Nat) {items : List Value}
    (hr : g₀[r]? = some (.cell (.list items))) (l : List Nat) (hl : ∀ i ∈ l, i < items.length)
    (hg : Kept g₀ P g) :
    RestrictsAll g₀ P n (l.map fun i => items.getD i .none)
      {p | ∃ i ∈ l, p = (r, i) ∨ p ∈ g₀.places (items.getD i .none)}
      (restrictItems restrict call r l g) := by
  induction l generalizing g P with
  | nil =>
    rw [itemPlaces_nil]
    exact restrictsAll_nil hg
  | cons i l ih =>
    have hitem := hrestrict (i :: call) hg (hg.item hr i) (fun hmem => hg.gone hmem hr)
    rw [restrictItems]
    cases hres : restrict (i :: call) (g.item r i) g with
    | none =>
      rw [hres] at hitem
      exact ⟨_, List.mem_cons_self, hitem⟩
    | some p =>
      obtain ⟨u, g₁⟩ := p
      rw [hres] at hitem
      obtain ⟨hgrounded, hstands, hkept⟩ := hitem
      have hkept' := hkept.setItem hr hgrounded Set.subset_union_right hstands
        (hl i List.mem_cons_self)
      rw [← Set.union_insert] at hkept'
      rw [itemPlaces_cons]
      exact (ih (fun j hj => hl j (List.mem_cons_of_mem i hj)) hkept').cons hgrounded

theorem restricts_list (call : List Nat) {items : List Value} (hv : g₀.shape v = .list r items)
    (hg : Kept g₀ P g) : Restricts g₀ P (n + 1) v
      (restrictItems restrict call r (List.range items.length) g >>= fun g => some (v, g)) := by
  have hvs : ∀ u, (u ∈ (List.range items.length).map fun i => items.getD i .none) ↔
      u ∈ g₀.children v := by
    intro u
    rw [Graph.children_list hv, List.mem_map, mem_iff_getD]
    simp only [List.mem_range, eq_comm]
  have hall := restrictItems_all hrestrict call (Graph.shape_eq_list.mp hv).2
    (List.range items.length) (fun i => List.mem_range.mp) hg
  rw [← Graph.places_list hv] at hall
  cases hres : restrictItems restrict call r (List.range items.length) g with
  | none =>
    rw [hres] at hall
    obtain ⟨u, hu, hdeep⟩ := hall
    exact fun h => hdeep (h u ((hvs u).mp hu))
  | some g₁ =>
    rw [hres] at hall
    have hdict : ¬g₀.IsDict v := Graph.not_isDict hv fun _ h => by cases h
    refine ⟨grounded_iff.mpr fun u hu => hall.1 u ((hvs u).mpr hu), ?_, hall.2⟩
    exact ⟨fun h => absurd h.2 hdict, fun _ => rfl⟩

theorem restricts_dict (rt : Runtime) (call : List Nat) {items : List (Value × Value)}
    (hv : g₀.shape v = .dict items) (hg : Kept g₀ P g) : Restricts g₀ P (n + 1) v
      (restrictEntries restrict call (rt.entries call items).zipIdx ∅ g >>= fun p =>
        some (.ref p.2.length, p.2 ++ [.stringMap p.1])) := by
  have hvs := fun u => mem_stringValues_entries (w := u) rt call hv
  have hall := restrictEntries_all hrestrict call (rt.entries call items).zipIdx ∅ hg
  have hQ : {p | ∃ u ∈ stringValues (rt.entries call items).zipIdx, p ∈ g₀.places u} =
      g₀.places v := by
    rw [Graph.places_of_not_list fun r items h => by cases hv.symm.trans h]
    ext p
    exact exists_congr fun u => and_congr_left' (hvs u)
  rw [hQ] at hall
  cases hres : restrictEntries restrict call (rt.entries call items).zipIdx ∅ g with
  | none =>
    rw [hres] at hall
    obtain ⟨u, hu, hdeep⟩ := hall
    exact fun h => hdeep (h u ((hvs u).mp hu))
  | some p =>
    obtain ⟨m, g₁⟩ := p
    rw [hres] at hall
    have hmap : Graph.IsStringMap (g₁ ++ [.stringMap m]) (.ref g₁.length) :=
      ⟨g₁.length, m, rfl, by simp⟩
    refine ⟨grounded_iff.mpr fun u hu => hall.1 u ((hvs u).mpr hu), ?_, hall.2.append m⟩
    exact ⟨fun _ => hmap, fun h => absurd ⟨trivial, items, hv⟩ h⟩

end Loops

/-- A value that has no parts is not changed. -/
theorem restricts_self {n : Nat} (hg : Kept g₀ P g) (hlist : ∀ r items, g₀.shape v ≠ .list r items)
    (hdict : ¬g₀.IsDict v) : Restricts g₀ P n v (some (v, g)) := by
  have hchildren := Graph.children_eq_nil hlist hdict
  have hplaces : g₀.places v = ∅ := by
    rw [Graph.places_of_not_list hlist, hchildren]
    ext p
    simp
  refine ⟨grounded_iff.mpr fun w hw => ?_, ⟨fun h => absurd h.2 hdict, fun _ => rfl⟩, ?_⟩
  · rw [hchildren] at hw
    exact absurd hw List.not_mem_nil
  · rwa [hplaces, Set.union_empty]

/-- The function comes to an end where there is no cycle, and then it has replaced
the dicts behind the value. -/
theorem restricts (rt : Runtime) (n : Nat) {a : Prop} (call : List Nat) (hg : Kept g₀ P g)
    (hw : Stands g₀ g a v w) (ha : Settled g₀ P a v) :
    Restricts g₀ P n v (restrictMapKeysToStrings rt n call w g) := by
  induction n generalizing a call v w g P with
  | zero => exact id
  | succ n ih =>
    have hrestrict : ∀ {a : Prop} {v w g P} (call : List Nat), Kept g₀ P g → Stands g₀ g a v w →
        Settled g₀ P a v → Restricts g₀ P n v (restrictMapKeysToStrings rt n call w g) :=
      fun call => ih call
    rw [restrictMapKeysToStrings]
    by_cases hrepl : a ∧ g₀.IsDict v
    · -- it is a map that was made before
      obtain ⟨s, m, rfl, hs⟩ := hw.1 hrepl
      obtain ⟨hgrounded, hplaces⟩ := ha hrepl.1
      have hshape : g.shape (.ref s) = .other := by simp only [Graph.shape, hs]
      rw [hshape]
      refine ⟨hgrounded, ⟨fun _ => hw.1 hrepl, fun h => absurd ⟨trivial, hrepl.2⟩ h⟩, ?_⟩
      rwa [Set.union_eq_self_of_subset_right hplaces]
    · obtain rfl := hw.2 hrepl
      cases hshape : g₀.shape w with
      | list r items =>
        obtain ⟨items', hshape', hlength⟩ := hg.shape_list hshape
        rw [hshape']
        dsimp only
        rw [hlength]
        exact restricts_list hrestrict call hshape hg
      | dict items =>
        rw [hg.shape_eq hshape fun _ _ h => by cases h]
        exact restricts_dict hrestrict rt call hshape hg
      | _ =>
        rw [hg.shape_eq hshape fun _ _ h => by cases h]
        refine restricts_self hg (fun r items h => ?_) (Graph.not_isDict hshape fun _ h => ?_)
        · cases hshape.symm.trans h
        · cases h

end Isthmus.Pickle
