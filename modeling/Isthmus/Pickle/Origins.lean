import Isthmus.Pickle.Restricted

/-!
# Where the maps come from

Each map that `restrictMapKeysToStrings` makes is made of a dict, and holds what is in
the place of the values under its string keys. With the dict of each map, the graph
that is left tells what is in it, to any depth.

## Main definitions

- `Origins`: the dict of each map
- `Traced`: a graph in which the maps hold what they were made of

## Main results

- `restrict_traced`: restricting a value keeps this
-/

namespace Isthmus.Pickle

open Recursion

/-- The entries of the dict that each map was made of. -/
abbrev Origins := Nat → Option (List (Value × Value))

/-- The origins of a graph without maps. -/
def Origins.empty : Origins := fun _ => none

def Origins.Le (ω ω' : Origins) : Prop := ∀ s items, ω s = some items → ω' s = some items

/-- What is in the place of a value: where it is a dict that was replaced, the map that
was made of it, and else the value. -/
structure Holds (g₀ : Graph) (ω : Origins) (replaced : Prop) (v w : Value) : Prop where
  map : ∀ items, replaced → g₀.shape v = .dict items → ∃ s, w = .ref s ∧ ω s = some items
  same : ¬(replaced ∧ g₀.IsDict v) → w = v

/-- The map holds what is in the place of the values under string keys. -/
structure MapOf (g₀ : Graph) (ω : Origins) (items : List (Value × Value))
    (m : GoMap GoString Value) : Prop where
  lookup : ∀ k u, m.lookup k = some u → ∃ v, (.string k, v) ∈ items ∧ Holds g₀ ω True v u
  mem : ∀ k v, (.string k, v) ∈ items → k ∈ m

/-- The graph `g₀` after the dicts in the places `P` were replaced, with what the maps
were made of. -/
structure Traced (g₀ : Graph) (P : Set (Nat × Nat)) (ω : Origins) (g : Graph) : Prop
    extends Kept g₀ P g where
  held : ∀ {r : Nat} {items : List Value}, g₀[r]? = some (.cell (.list items)) →
    ∀ i, Holds g₀ ω ((r, i) ∈ P) (items.getD i .none) (g.item r i)
  map : ∀ {s : Nat} {items : List (Value × Value)}, ω s = some items →
    ∃ m, g[s]? = some (.stringMap m) ∧ MapOf g₀ ω items m

section Origins

variable {g₀ g : Graph} {P : Set (Nat × Nat)} {ω ω' ω'' : Origins} {v w : Value} {r i : Nat}

theorem Origins.Le.refl (ω : Origins) : ω.Le ω := fun _ _ h => h

theorem Origins.Le.trans (h : ω.Le ω') (h' : ω'.Le ω'') : ω.Le ω'' :=
  fun s items hs => h' s items (h s items hs)

theorem Holds.mono {a : Prop} (hle : ω.Le ω') (h : Holds g₀ ω a v w) : Holds g₀ ω' a v w := by
  refine ⟨fun items ha hv => ?_, h.same⟩
  obtain ⟨s, hw, hs⟩ := h.map items ha hv
  exact ⟨s, hw, hle s items hs⟩

theorem Holds.imp {a b : Prop} (hab : b ↔ a) (h : Holds g₀ ω a v w) : Holds g₀ ω b v w := by
  rwa [hab]

theorem holds_self {a : Prop} (h : ¬(a ∧ g₀.IsDict v)) : Holds g₀ ω a v v :=
  ⟨fun items ha hv => absurd ⟨ha, items, hv⟩ h, fun _ => rfl⟩

theorem MapOf.mono {items : List (Value × Value)} {m : GoMap GoString Value} (hle : ω.Le ω')
    (h : MapOf g₀ ω items m) : MapOf g₀ ω' items m := by
  refine ⟨fun k u hu => ?_, h.mem⟩
  obtain ⟨v, hv, hholds⟩ := h.lookup k u hu
  exact ⟨v, hv, hholds.mono hle⟩

namespace Graph

theorem item_of_list {items : List Value} (hr : g[r]? = some (.cell (.list items))) (i : Nat) :
    g.item r i = items.getD i .none := by
  simp only [item, hr]

theorem item_append {items : List Value} (hr : g[r]? = some (.cell (.list items))) (x : Node)
    (i : Nat) : item (g ++ [x]) r i = g.item r i := by
  rw [item_of_list hr, item_of_list (node_append hr)]

theorem item_setItem_self {items : List Value} (hr : g[r]? = some (.cell (.list items)))
    (hi : i < items.length) : (g.setItem r i w).item r i = w := by
  rw [item_of_list (setItem_self hr), getD_set_self hi]

theorem item_setItem_ne {r' i' : Nat} (hne : (r', i') ≠ (r, i)) :
    (g.setItem r i w).item r' i' = g.item r' i' := by
  by_cases hr' : r = r'
  · subst hr'
    have hi : i ≠ i' := fun h => hne (by rw [h])
    cases hr : g[r]? with
    | none => simp only [setItem, hr]
    | some x =>
      rcases x with (items | items | items) | m
      · rw [item_of_list (setItem_self hr), item_of_list hr, getD_set_ne hi]
      all_goals simp only [setItem, hr]
  · simp only [item, setItem_ne hr']

end Graph

theorem traced_self : Traced g₀ ∅ .empty g₀ where
  toKept := kept_self
  held hr i := by
    rw [Graph.item_of_list hr]
    exact holds_self fun h => h.1
  map hs := by cases hs

namespace Traced

/-- What is in the place of a value stands for it. -/
theorem stands {a : Prop} (h : Traced g₀ P ω g) (hw : Holds g₀ ω a v w) :
    Stands g₀ g a v w := by
  refine ⟨fun ⟨ha, items, hv⟩ => ?_, hw.same⟩
  obtain ⟨s, rfl, hs⟩ := hw.map items ha hv
  obtain ⟨m, hm, -⟩ := h.map hs
  exact ⟨s, m, rfl, hm⟩

/-- A new map has its dict. -/
theorem append (h : Traced g₀ P ω g) {items : List (Value × Value)} {m : GoMap GoString Value}
    (hm : MapOf g₀ ω items m) : ∃ ω', ω.Le ω' ∧ ω' g.length = some items ∧
      Traced g₀ P ω' (g ++ [.stringMap m]) := by
  have hlt : ∀ s items, ω s = some items → s < g.length := by
    intro s items hs
    obtain ⟨m, hm, -⟩ := h.map hs
    exact (List.getElem?_eq_some_iff.mp hm).1
  have hle : ω.Le (Function.update ω g.length (some items)) := by
    intro s items' hs
    rw [Function.update_of_ne (Nat.ne_of_lt (hlt s items' hs))]
    exact hs
  refine ⟨Function.update ω g.length (some items), hle, Function.update_self .., h.toKept.append m,
    fun hr i => ?_, fun {s items'} hs => ?_⟩
  · obtain ⟨items₁, hitems₁, -⟩ := h.toKept.list hr
    rw [Graph.item_append hitems₁]
    exact (h.held hr i).mono hle
  · by_cases hself : s = g.length
    · subst hself
      rw [Function.update_self] at hs
      cases hs
      exact ⟨m, by simp, hm.mono hle⟩
    · rw [Function.update_of_ne hself] at hs
      obtain ⟨m', hm', hof⟩ := h.map hs
      exact ⟨m', Graph.node_append hm', hof.mono hle⟩

/-- One more element of a list is what stands for its value. -/
theorem setItem (h : Traced g₀ P ω g) {items : List Value}
    (hr : g₀[r]? = some (.cell (.list items)))
    (hgrounded : Grounded g₀.children (items.getD i .none))
    (hplaces : g₀.places (items.getD i .none) ⊆ P)
    (hw : Holds g₀ ω True (items.getD i .none) w) (hi : i < items.length) :
    Traced g₀ (insert (r, i) P) ω (g.setItem r i w) := by
  obtain ⟨items', hitems', hlength, -⟩ := h.toKept.list hr
  refine ⟨h.toKept.setItem hr hgrounded hplaces (h.stands hw) hi, fun {r' items₁} hr' j => ?_,
    fun {s items₁} hs => ?_⟩
  · by_cases heq : (r', j) = (r, i)
    · cases heq
      cases hr.symm.trans hr'
      rw [Graph.item_setItem_self hitems' (hlength ▸ hi)]
      exact hw.imp (iff_true_intro (Set.mem_insert _ _))
    · rw [Graph.item_setItem_ne heq]
      exact (h.held hr' j).imp (by rw [Set.mem_insert_iff, or_iff_right heq])
  · obtain ⟨m, hm, hof⟩ := h.map hs
    -- the list that is changed is not the map
    have hne : r ≠ s := by
      rintro rfl
      cases hitems'.symm.trans hm
    exact ⟨m, (Graph.setItem_ne hne).trans hm, hof⟩

end Traced

end Origins

/-! ## The restriction -/

/-- What restricting a value leaves. -/
def Leaves (g₀ : Graph) (P : Set (Nat × Nat)) (ω : Origins) (v w : Value) (g : Graph) : Prop :=
  ∃ ω', ω.Le ω' ∧ Holds g₀ ω' True v w ∧ Traced g₀ (P ∪ g₀.places v) ω' g

section Restrict

variable {g₀ g g' : Graph} {P : Set (Nat × Nat)} {ω : Origins} {v w w' : Value} {r n : Nat}

section Loops

variable {restrict : List Nat → Value → Graph → Option (Value × Graph)}
  (hrestrict : ∀ {a : Prop} {v w g P ω w' g'} (call : List Nat), Traced g₀ P ω g →
    Holds g₀ ω a v w → Settled g₀ P a v → restrict call w g = some (w', g') →
      Grounded g₀.children v ∧ Leaves g₀ P ω v w' g')

include hrestrict

theorem restrictEntries_traced (call : List Nat) {items : List (Value × Value)}
    {l : List ((Value × Value) × Nat)} (hl : ∀ p ∈ l, p.1 ∈ items) {m m' : GoMap GoString Value}
    (hg : Traced g₀ P ω g)
    (hm : ∀ k u, m.lookup k = some u → ∃ v, (.string k, v) ∈ items ∧ Holds g₀ ω True v u)
    (h : restrictEntries restrict call l m g = some (m', g')) :
    ∃ ω', ω.Le ω' ∧
      (∀ k u, m'.lookup k = some u → ∃ v, (.string k, v) ∈ items ∧ Holds g₀ ω' True v u) ∧
      (∀ k ∈ m, k ∈ m') ∧ (∀ p ∈ l, ∀ k v, p.1 = (.string k, v) → k ∈ m') ∧
      Traced g₀ (P ∪ {p | ∃ v ∈ stringValues l, p ∈ g₀.places v}) ω' g' := by
  induction l generalizing m g P ω with
  | nil =>
    cases h
    have hQ : {p | ∃ v ∈ stringValues [], p ∈ g₀.places v} = ∅ := by
      ext p
      simp [stringValues]
    rw [hQ, Set.union_empty]
    exact ⟨ω, .refl ω, hm, fun k hk => hk, fun p hp => absurd hp List.not_mem_nil, hg⟩
  | cons p l ih =>
    obtain ⟨hp, htail⟩ := List.forall_mem_cons.mp hl
    obtain ⟨⟨key, v⟩, i⟩ := p
    cases key with
    | string s =>
      obtain ⟨⟨u, g₁⟩, hu, hrest⟩ := Option.bind_eq_some_iff.mp h
      obtain ⟨-, ω₁, hle₁, hholds, hg₁⟩ :=
        hrestrict (i :: call) hg (holds_self fun h => h.1) (fun h => h.elim) hu
      have hm₁ : ∀ k u', (m.insert s u).lookup k = some u' →
          ∃ v, (.string k, v) ∈ items ∧ Holds g₀ ω₁ True v u' := by
        intro k u' hu'
        -- the entry that was just made, or one that was there
        by_cases hk : k = s
        · subst hk
          rw [AList.lookup_insert] at hu'
          cases hu'
          exact ⟨v, hp, hholds⟩
        · rw [AList.lookup_insert_ne hk] at hu'
          obtain ⟨v', hv', hholds'⟩ := hm k u' hu'
          exact ⟨v', hv', hholds'.mono hle₁⟩
      obtain ⟨ω', hle', hlookup, hmem, hall, hg'⟩ := ih htail hg₁ hm₁ hrest
      have hQ : P ∪ {p | ∃ w ∈ stringValues (((.string s, v), i) :: l), p ∈ g₀.places w} =
          P ∪ g₀.places v ∪ {p | ∃ w ∈ stringValues l, p ∈ g₀.places w} := by
        ext p
        simp [stringValues, Graph.stringValue, or_assoc]
      rw [hQ]
      refine ⟨ω', hle₁.trans hle', hlookup, fun k hk => ?_, ?_, hg'⟩
      · exact hmem k ((AList.mem_insert m).mpr (.inr hk))
      · refine List.forall_mem_cons.mpr ⟨fun k v' heq => ?_, hall⟩
        cases heq
        exact hmem s ((AList.mem_insert m).mpr (.inl rfl))
    | _ =>
      obtain ⟨ω', hle, hlookup, hmem, hall, hg'⟩ := ih htail hg hm h
      refine ⟨ω', hle, hlookup, hmem, List.forall_mem_cons.mpr ⟨fun k v' heq => ?_, hall⟩, hg'⟩
      cases heq

theorem restrictItems_traced (call : List Nat) {items : List Value}
    (hr : g₀[r]? = some (.cell (.list items))) {l : List Nat} (hl : ∀ i ∈ l, i < items.length)
    (hg : Traced g₀ P ω g) (h : restrictItems restrict call r l g = some g') :
    ∃ ω', ω.Le ω' ∧ Traced g₀
      (P ∪ {p | ∃ i ∈ l, p = (r, i) ∨ p ∈ g₀.places (items.getD i .none)}) ω' g' := by
  induction l generalizing g P ω with
  | nil =>
    cases h
    rw [itemPlaces_nil, Set.union_empty]
    exact ⟨ω, .refl ω, hg⟩
  | cons i l ih =>
    obtain ⟨⟨u, g₁⟩, hu, hrest⟩ := Option.bind_eq_some_iff.mp h
    obtain ⟨hgrounded, ω₁, hle₁, hholds, hg₁⟩ :=
      hrestrict (i :: call) hg (hg.held hr i) (fun hmem => hg.toKept.gone hmem hr) hu
    have hg₂ := hg₁.setItem hr hgrounded Set.subset_union_right hholds (hl i List.mem_cons_self)
    obtain ⟨ω', hle', hg'⟩ := ih (fun j hj => hl j (List.mem_cons_of_mem i hj)) hg₂ hrest
    rw [itemPlaces_cons, ← Set.union_assoc, Set.union_insert]
    exact ⟨ω', hle₁.trans hle', hg'⟩

end Loops

/-- Restricting a value leaves a traced graph. -/
theorem restrict_traced (rt : Runtime) {a : Prop} (call : List Nat) (hg : Traced g₀ P ω g)
    (hw : Holds g₀ ω a v w) (ha : Settled g₀ P a v)
    (h : restrictMapKeysToStrings rt n call w g = some (w', g')) :
    Grounded g₀.children v ∧ Leaves g₀ P ω v w' g' := by
  have hres := restricts rt n call hg.toKept (hg.stands hw) ha
  rw [h] at hres
  refine ⟨hres.1, ?_⟩
  induction n generalizing a call v w g P ω w' g' with
  | zero => cases h
  | succ n ih =>
    have hrestrict : ∀ {a : Prop} {v w g P ω w' g'} (call : List Nat), Traced g₀ P ω g →
        Holds g₀ ω a v w → Settled g₀ P a v →
          restrictMapKeysToStrings rt n call w g = some (w', g') →
            Grounded g₀.children v ∧ Leaves g₀ P ω v w' g' := by
      intro a v w g P ω w' g' call hg hw ha h
      have hres := restricts rt n call hg.toKept (hg.stands hw) ha
      rw [h] at hres
      exact ⟨hres.1, ih call hg hw ha h hres⟩
    rw [restrictMapKeysToStrings] at h
    by_cases hrepl : a ∧ g₀.IsDict v
    · -- it is a map that was made before
      obtain ⟨items, hv⟩ := hrepl.2
      obtain ⟨s, rfl, hs⟩ := hw.map items hrepl.1 hv
      obtain ⟨m, hm, -⟩ := hg.map hs
      have hshape : g.shape (.ref s) = .other := by simp only [Graph.shape, hm]
      rw [hshape] at h
      cases h
      refine ⟨ω, .refl ω, hw.imp (iff_of_true trivial hrepl.1), ?_⟩
      rwa [Set.union_eq_self_of_subset_right (ha hrepl.1).2]
    · obtain rfl := hw.same hrepl
      cases hshape : g₀.shape w with
      | list r items =>
        obtain ⟨items', hshape', hlength⟩ := hg.toKept.shape_list hshape
        rw [hshape'] at h
        dsimp only at h
        rw [hlength] at h
        obtain ⟨g₁, hg₁, heq⟩ := Option.bind_eq_some_iff.mp h
        cases heq
        obtain ⟨ω', hle, htraced⟩ := restrictItems_traced hrestrict call
          (Graph.shape_eq_list.mp hshape).2 (fun i => List.mem_range.mp) hg hg₁
        rw [← Graph.places_list hshape] at htraced
        refine ⟨ω', hle, holds_self fun h => ?_, htraced⟩
        exact Graph.not_isDict hshape (fun _ h => by cases h) h.2
      | dict items =>
        rw [hg.toKept.shape_eq hshape fun _ _ h => by cases h] at h
        obtain ⟨⟨m, g₁⟩, hm, heq⟩ := Option.bind_eq_some_iff.mp h
        cases heq
        have hentries : ∀ e, e ∈ items ↔ ∃ p ∈ (rt.entries call items).zipIdx, p.1 = e := by
          intro e
          rw [exists_mem_entries (f := fun e' => e' = e)]
          simp
        obtain ⟨ω₁, hle₁, hlookup, -, hmem, hg₁⟩ := restrictEntries_traced hrestrict call
          (fun p hp => (hentries p.1).mpr ⟨p, hp, rfl⟩) hg (fun k u hu => by cases hu) hm
        have hof : MapOf g₀ ω₁ items m := by
          refine ⟨hlookup, fun k v hv => ?_⟩
          obtain ⟨p, hp, heq⟩ := (hentries _).mp hv
          exact hmem p hp k v heq
        have hQ : {p | ∃ u ∈ stringValues (rt.entries call items).zipIdx, p ∈ g₀.places u} =
            g₀.places w := by
          rw [Graph.places_of_not_list fun r items h => by cases hshape.symm.trans h]
          ext p
          exact exists_congr fun u => and_congr_left' (mem_stringValues_entries rt call hshape)
        rw [hQ] at hg₁
        obtain ⟨ω', hle', hnew, htraced⟩ := hg₁.append hof
        refine ⟨ω', hle₁.trans hle', ⟨fun items' _ hv => ?_, fun h => ?_⟩, htraced⟩
        · cases hshape.symm.trans hv
          exact ⟨g₁.length, rfl, hnew⟩
        · exact absurd ⟨trivial, items, hshape⟩ h
      | _ =>
        rw [hg.toKept.shape_eq hshape fun _ _ h => by cases h] at h
        cases h
        have hdict : ¬g₀.IsDict w := Graph.not_isDict hshape fun _ h => by cases h
        have hplaces : g₀.places w = ∅ := by
          have hchildren := Graph.children_eq_nil
            (fun r items h => by cases hshape.symm.trans h) hdict
          rw [Graph.places_of_not_list (fun r items h => by cases hshape.symm.trans h), hchildren]
          ext p
          simp
        refine ⟨ω, .refl ω, holds_self fun h => hdict h.2, ?_⟩
        rwa [hplaces, Set.union_empty]

end Restrict

end Isthmus.Pickle
