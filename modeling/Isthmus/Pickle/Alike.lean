import Isthmus.Pickle.Copies

/-!
# Values that are alike

What is bound from a graph and from a copy of it has different references, and is the
same if it looks the same from outside. A list that has several copies, of which one
was restricted, is torn: the graph has maps in it where the other copies have dicts.

## Main definitions

- `Alike`: the values look the same
- `torn`: the places in which only the graph has a map
- `Shows`: such a place is seen behind a value

## Main results

- `alike_iff`: what stands for a value looks the same unless it shows a torn place
-/

namespace Isthmus.Pickle

open Recursion

/-! ## Looks -/

/-- What a value is, without its parts. -/
inductive Head where
  | scalar (v : Value)
  | tuple (length : Nat)
  | object (length : Nat)
  | list (length : Nat)
  | dict (length : Nat)
  | set (length : Nat)
  | stringMap
  | nothing

def Graph.head (g : Graph) : Value → Head
  | .tuple items => .tuple items.length
  | .object _ arguments => .object arguments.length
  | .ref r =>
    match g[r]? with
    | some (.cell (.list items)) => .list items.length
    | some (.cell (.dict items)) => .dict items.length
    | some (.cell (.set items)) => .set items.length
    | some (.stringMap _) => .stringMap
    | none => .nothing
  | v => .scalar v

/-- The values look the same: they are of the same type and have the same parts, in their
order, or under each key where they are maps that were made of dicts. -/
inductive Alike (g' g : Graph) : Value → Value → Prop
  | parts {v' v : Value} (hhead : g'.head v' = g.head v) (hmap : g.head v ≠ .stringMap)
    (h : ∀ {u' u}, (u', u) ∈ (g'.parts v').zip (g.parts v) → Alike g' g u' u) : Alike g' g v' v
  | stringMap {r' r : Nat} {m' m : GoMap GoString Value} (hm' : g'[r']? = some (.stringMap m'))
    (hm : g[r]? = some (.stringMap m)) (hkeys : ∀ k, k ∈ m' ↔ k ∈ m)
    (h : ∀ {k u' u}, m'.lookup k = some u' → m.lookup k = some u → Alike g' g u' u) :
    Alike g' g (.ref r') (.ref r)

/-- The places of a copy that were not replaced, but are of a place that was. -/
def torn (φ : Nat → Nat) (P : Set (Nat × Nat)) : Set (Nat × Nat) :=
  {p | p ∉ P ∧ renamePlace φ p ∈ renamePlaces φ P}

/-- A dict in one of the places `T` is seen behind the value, where the dicts in the
places `P` were replaced. -/
inductive Shows (g : Graph) (P T : Set (Nat × Nat)) : Prop → Value → Prop
  | here {a : Prop} {v : Value} {r i : Nat} {items : List Value} (hv : g.shape v = .list r items)
    (hi : i < items.length) (hT : (r, i) ∈ T) (hdict : g.IsDict (items.getD i .none)) :
    Shows g P T a v
  | item {a : Prop} {v : Value} {r i : Nat} {items : List Value} (hv : g.shape v = .list r items)
    (hi : i < items.length) (h : Shows g P T ((r, i) ∈ P) (items.getD i .none)) : Shows g P T a v
  | entry {a : Prop} {v u : Value} {items : List (Value × Value)} {k : GoString}
    (hv : g.shape v = .dict items) (ha : a) (hu : (.string k, u) ∈ items)
    (h : Shows g P T True u) : Shows g P T a v
  | part {a : Prop} {v u : Value} (hlist : ∀ r items, g.shape v ≠ .list r items)
    (ha : ¬(a ∧ g.IsDict v)) (hu : u ∈ g.parts v) (h : Shows g P T False u) : Shows g P T a v

section Looks

variable {g g' : Graph} {P T : Set (Nat × Nat)} {a : Prop} {v v' u : Value} {r r' : Nat}

theorem head_list {items : List Value} (hr : g[r]? = some (.cell (.list items))) :
    g.head (.ref r) = .list items.length := by
  simp only [Graph.head, hr]

theorem head_stringMap {m : GoMap GoString Value} (hr : g[r]? = some (.stringMap m)) :
    g.head (.ref r) = .stringMap := by
  simp only [Graph.head, hr]

theorem parts_length (hhead : g'.head v' = g.head v) (hmap : g.head v ≠ .stringMap) :
    (g'.parts v').length = (g.parts v).length := by
  have hlength : ∀ {g : Graph} {v : Value}, g.head v ≠ .stringMap →
      (g.parts v).length = match g.head v with
        | .tuple n | .list n | .set n => n
        | .object n => n + 1
        | .dict n => n * 2
        | _ => 0 := by
    intro g v hmap
    cases v with
    | ref r =>
      cases hr : g[r]? with
      | none => simp only [Graph.head, Graph.parts, hr, List.length_nil]
      | some x =>
        rcases x with (items | items | items) | m
        · simp only [Graph.head, Graph.parts, hr]
        · simp [Graph.head, Graph.parts, hr]
        · simp only [Graph.head, Graph.parts, hr]
        · exact absurd (head_stringMap hr) hmap
    | _ => rfl
  rw [hlength hmap, ← hhead, ← hlength (hhead ▸ hmap)]

theorem alike_parts_iff (hhead : g'.head v' = g.head v) (hmap : g.head v ≠ .stringMap) :
    Alike g' g v' v ↔ List.Forall₂ (Alike g' g) (g'.parts v') (g.parts v) := by
  rw [List.forall₂_iff_zip, and_iff_right (parts_length hhead hmap)]
  constructor
  · intro h u' u hu
    cases h with
    | parts _ _ h => exact h hu
    | stringMap _ hm => exact absurd (head_stringMap hm) hmap
  · exact fun h => .parts hhead hmap h

theorem alike_stringMap_iff {m' m : GoMap GoString Value} (hm' : g'[r']? = some (.stringMap m'))
    (hm : g[r]? = some (.stringMap m)) (hkeys : ∀ k, k ∈ m' ↔ k ∈ m) :
    Alike g' g (.ref r') (.ref r) ↔
      ∀ k u' u, m'.lookup k = some u' → m.lookup k = some u → Alike g' g u' u := by
  constructor
  · intro h k u' u hu' hu
    cases h with
    | parts _ hmap => exact absurd (head_stringMap hm) hmap
    | stringMap hm₁' hm₁ _ h =>
      cases hm'.symm.trans hm₁'
      cases hm.symm.trans hm₁
      exact h hu' hu
  · exact fun h => .stringMap hm' hm hkeys fun hu' hu => h _ _ _ hu' hu

/-- A dict and a map do not look the same. -/
theorem not_alike_dict (hv : g'.IsDict v') {m : GoMap GoString Value}
    (hr : g[r]? = some (.stringMap m)) : ¬Alike g' g v' (.ref r) := by
  obtain ⟨items, hitems⟩ := hv
  obtain ⟨r', rfl, hr'⟩ := Graph.shape_eq_dict.mp hitems
  intro h
  cases h with
  | parts _ hmap => exact hmap (head_stringMap hr)
  | stringMap hm' => cases hr'.symm.trans hm'

theorem shows_list_iff {items : List Value} (hv : g.shape v = .list r items) :
    Shows g P T a v ↔ ∃ i < items.length,
      ((r, i) ∈ T ∧ g.IsDict (items.getD i .none)) ∨
        Shows g P T ((r, i) ∈ P) (items.getD i .none) := by
  constructor
  · intro h
    cases h with
    | @here _ _ _ i _ hv' hi hT hdict =>
      cases hv.symm.trans hv'
      exact ⟨i, hi, .inl ⟨hT, hdict⟩⟩
    | @item _ _ _ i _ hv' hi h =>
      cases hv.symm.trans hv'
      exact ⟨i, hi, .inr h⟩
    | entry hv' => cases hv.symm.trans hv'
    | part hlist => exact absurd hv (hlist r items)
  · rintro ⟨i, hi, ⟨hT, hdict⟩ | h⟩
    · exact .here hv hi hT hdict
    · exact .item hv hi h

theorem shows_dict_iff {items : List (Value × Value)} (hv : g.shape v = .dict items) (ha : a) :
    Shows g P T a v ↔ ∃ k u, (.string k, u) ∈ items ∧ Shows g P T True u := by
  constructor
  · intro h
    cases h with
    | here hv' => cases hv.symm.trans hv'
    | item hv' => cases hv.symm.trans hv'
    | entry hv' _ hu h =>
      cases hv.symm.trans hv'
      exact ⟨_, _, hu, h⟩
    | part _ hdict => exact absurd ⟨ha, items, hv⟩ hdict
  · rintro ⟨k, u, hu, h⟩
    exact .entry hv ha hu h

theorem shows_part_iff (hlist : ∀ r items, g.shape v ≠ .list r items) (ha : ¬(a ∧ g.IsDict v)) :
    Shows g P T a v ↔ ∃ u ∈ g.parts v, Shows g P T False u := by
  constructor
  · intro h
    cases h with
    | here hv => exact absurd hv (hlist _ _)
    | item hv => exact absurd hv (hlist _ _)
    | entry hv ha' => exact absurd ⟨ha', _, hv⟩ ha
    | part _ _ hu h => exact ⟨_, hu, h⟩
  · rintro ⟨u, hu, h⟩
    exact .part hlist ha hu h

end Looks

/-! ## What stands for a value -/

/-- There is no cycle behind the value, and no reference to nothing. -/
structure Graph.IsWhole (g : Graph) (v : Value) : Prop where
  grounded : Grounded g.parts v
  present : ∀ u ∈ below g.parts v, g.head u ≠ .nothing

theorem Graph.IsWhole.part {g : Graph} {v u : Value} (h : g.IsWhole v) (hu : u ∈ g.parts v) :
    g.IsWhole u where
  grounded := h.grounded.inv hu
  present x hx := h.present x (mem_below_iff.mpr (.inr ⟨u, hu, hx⟩))

section Stands

variable {g₀ g : Graph} {P : Set (Nat × Nat)} {v : Value}

/-- What is not a list stays as it is. -/
theorem Kept.parts_eq (h : Kept g₀ P g) (hlist : ∀ r items, g₀.shape v ≠ .list r items)
    (hhead : g₀.head v ≠ .nothing) : g.head v = g₀.head v ∧ g.parts v = g₀.parts v := by
  cases v with
  | ref r =>
    cases hr : g₀[r]? with
    | none =>
      refine absurd ?_ hhead
      simp only [Graph.head, hr]
    | some x =>
      have hne : ∀ items, x ≠ .cell (.list items) := by
        rintro items rfl
        exact hlist r items (Graph.shape_eq_list.mpr ⟨rfl, hr⟩)
      simp only [Graph.head, Graph.parts, hr, h.node hr hne, and_self]
  | _ => exact ⟨rfl, rfl⟩

theorem ofHeap_head_ne (heap : Heap) (v : Value) : (Graph.ofHeap heap).head v ≠ .stringMap := by
  cases v with
  | ref r =>
    simp only [Graph.head, ofHeap_node]
    cases heap[r]? with
    | none => simp
    | some c => cases c <;> simp
  | _ => simp [Graph.head]

end Stands

section Copies

variable {φ : Nat → Nat} {heap' heap : Heap} {P : Set (Nat × Nat)} {ω' ω : Origins} {g' g : Graph}

theorem Copies.head (h : Copies φ heap' heap) (v : Value) :
    (Graph.ofHeap heap).head (v.rename φ) = (Graph.ofHeap heap').head v := by
  cases v with
  | ref r =>
    simp only [rename_ref, Graph.head, h.node r, ofHeap_node]
    cases heap'[r]? with
    | none => rfl
    | some c => cases c <;> simp [Cell.rename]
  | tuple items => simp [Graph.head]
  | object cls arguments => simp [Graph.head]
  | _ => rfl

theorem mem_renamePlaces {p : Nat × Nat} (hp : p ∈ P) : renamePlace φ p ∈ renamePlaces φ P :=
  Set.mem_image_of_mem _ hp

theorem mem_string_rename {items : List (Value × Value)} {k : GoString} {u : Value} :
    (.string k, u) ∈ items.map (renameEntry φ) ↔ ∃ v, (.string k, v) ∈ items ∧ v.rename φ = u := by
  constructor
  · intro h
    obtain ⟨⟨k', v⟩, he, heq⟩ := List.mem_map.mp h
    obtain ⟨hk, rfl⟩ := Prod.mk.inj heq
    obtain rfl := rename_eq_string.mp hk
    exact ⟨v, he, rfl⟩
  · rintro ⟨v, he, rfl⟩
    exact List.mem_map_of_mem he

/-- What stands for a value of the copy, and what stands in the graph for the value that
it was copied from, look the same unless the copy shows a torn place. -/
def LooksRight (φ : Nat → Nat) (heap' heap : Heap) (P : Set (Nat × Nat)) (ω' ω : Origins)
    (g' g : Graph) (v : Value) : Prop :=
  ∀ {a' a : Prop} {w' w : Value}, (a' ↔ a) ∨ ¬(Graph.ofHeap heap').IsDict v →
    Holds (.ofHeap heap') ω' a' v w' → Holds (.ofHeap heap) ω a (v.rename φ) w →
      (Alike g' g w' w ↔ ¬Shows (.ofHeap heap') P (torn φ P) a' v)

theorem forall₂_getD_iff {R : Value → Value → Prop} {l l' : List Value} {n : Nat}
    (hl : l.length = n) (hl' : l'.length = n) :
    List.Forall₂ R l l' ↔ ∀ i < n, R (l.getD i .none) (l'.getD i .none) := by
  subst hl
  rw [List.forall₂_iff_get, and_iff_right hl'.symm]
  constructor
  · intro h i hi
    rw [List.getD_eq_getElem _ _ hi, List.getD_eq_getElem _ _ (hl'.symm ▸ hi)]
    exact h i hi (hl'.symm ▸ hi)
  · intro h i hi hi'
    have hR := h i hi
    rwa [List.getD_eq_getElem _ _ hi, List.getD_eq_getElem _ _ hi'] at hR

variable (h : Copies φ heap' heap)
  (hg' : Traced (.ofHeap heap') P ω' g') (hg : Traced (.ofHeap heap) (renamePlaces φ P) ω g)
  {v : Value} (ih : ∀ u ∈ (Graph.ofHeap heap').parts v, LooksRight φ heap' heap P ω' ω g' g u)

include h hg' hg ih

/-- The maps that were made of a dict have the same keys. -/
theorem alike_map (hkeys : (Graph.ofHeap heap).KeysDistinct) {items : List (Value × Value)}
    {a' : Prop} {w' w : Value} (ha' : a') (hv : (Graph.ofHeap heap').shape v = .dict items)
    (hw' : Holds (.ofHeap heap') ω' True v w')
    (hw : Holds (.ofHeap heap) ω True (v.rename φ) w) :
    Alike g' g w' w ↔ ¬Shows (.ofHeap heap') P (torn φ P) a' v := by
  have hv₀ : (Graph.ofHeap heap).shape (v.rename φ) = .dict (items.map (renameEntry φ)) := by
    rw [h.shape v, hv]
    rfl
  obtain ⟨r', m', rfl, hm', hof'⟩ := holds_dict hg' hw' hv
  obtain ⟨r, m, rfl, hm, hof⟩ := holds_dict hg hw hv₀
  have hmem : ∀ k, k ∈ m' ↔ k ∈ m := by
    intro k
    constructor
    · intro hk
      obtain ⟨x', hx'⟩ := Option.isSome_iff_exists.mp (AList.lookup_isSome.mpr hk)
      obtain ⟨u, hu, -⟩ := hof'.lookup k x' hx'
      exact hof.mem k _ (mem_string_rename.mpr ⟨u, hu, rfl⟩)
    · intro hk
      obtain ⟨x, hx⟩ := Option.isSome_iff_exists.mp (AList.lookup_isSome.mpr hk)
      obtain ⟨u, hu, -⟩ := hof.lookup k x hx
      obtain ⟨u', hu', -⟩ := mem_string_rename.mp hu
      exact hof'.mem k u' hu'
  have heach : ∀ {k u x' x}, (.string k, u) ∈ items → m'.lookup k = some x' →
      m.lookup k = some x → (Alike g' g x' x ↔ ¬Shows (.ofHeap heap') P (torn φ P) True u) := by
    intro k u x' x hu hx' hx
    obtain ⟨u₁, hu₁, hholds'⟩ := hof'.lookup k x' hx'
    obtain ⟨y, hy, hholds⟩ := hof.lookup k x hx
    obtain ⟨u₂, hu₂, rfl⟩ := mem_string_rename.mp hy
    obtain rfl := value_unique (h.keysDistinct hkeys v items hv) hu₁ hu
    obtain rfl := value_unique (h.keysDistinct hkeys v items hv) hu₂ hu
    refine ih u₂ ?_ (.inl Iff.rfl) hholds' hholds
    exact (Graph.mem_parts_dict hv).mpr ⟨_, hu, .inr rfl⟩
  rw [alike_stringMap_iff hm' hm hmem, shows_dict_iff hv ha', not_exists]
  constructor
  · rintro hall k ⟨u, hu, hshows⟩
    have hk' := hof'.mem k u hu
    obtain ⟨x', hx'⟩ := Option.isSome_iff_exists.mp (AList.lookup_isSome.mpr hk')
    obtain ⟨x, hx⟩ := Option.isSome_iff_exists.mp (AList.lookup_isSome.mpr ((hmem k).mp hk'))
    exact (heach hu hx' hx).mp (hall k x' x hx' hx) hshows
  · intro hnot k x' x hx' hx
    obtain ⟨u, hu, -⟩ := hof'.lookup k x' hx'
    exact (heach hu hx' hx).mpr fun hshows => hnot k ⟨u, hu, hshows⟩

/-- The lists look the same where no element is torn and the elements look the same. -/
theorem alike_list {r : Nat} {items : List Value} {a' : Prop}
    (hv : (Graph.ofHeap heap').shape v = .list r items) :
    Alike g' g v (v.rename φ) ↔ ¬Shows (.ofHeap heap') P (torn φ P) a' v := by
  obtain ⟨rfl, hr⟩ := Graph.shape_eq_list.mp hv
  obtain ⟨items₁', hitems₁', hlength', -⟩ := hg'.toKept.list hr
  obtain ⟨items₁, hitems₁, hlength, -⟩ := hg.toKept.list (h.list hr)
  rw [List.length_map] at hlength
  have hhead : g'.head (.ref r) = g.head (.ref (φ r)) := by
    rw [head_list hitems₁', head_list hitems₁, hlength', hlength]
  have hmap : g.head (.ref (φ r)) ≠ .stringMap := by
    rw [head_list hitems₁]
    exact fun heq => by cases heq
  rw [rename_ref, alike_parts_iff hhead hmap, shows_list_iff hv,
    Graph.parts_list (Graph.shape_eq_list.mpr ⟨rfl, hitems₁'⟩),
    Graph.parts_list (Graph.shape_eq_list.mpr ⟨rfl, hitems₁⟩), forall₂_getD_iff hlength' hlength]
  simp only [not_exists, not_and]
  refine forall₂_congr fun i hi => ?_
  have hholds' := hg'.held hr i
  have hholds := hg.held (h.list hr) i
  rw [Graph.item_of_list hitems₁'] at hholds'
  rw [Graph.item_of_list hitems₁, getD_rename] at hholds
  by_cases htorn : (r, i) ∈ torn φ P ∧ (Graph.ofHeap heap').IsDict (items.getD i .none)
  · -- the graph has a map where the copy has a dict
    refine iff_of_false ?_ fun hn => hn (.inl htorn)
    obtain ⟨⟨hnot, himage⟩, items₂, hdict⟩ := htorn
    obtain ⟨s, m, hs, hm⟩ := (hg.stands hholds).1 ⟨himage, h.isDict_iff.mpr ⟨items₂, hdict⟩⟩
    rw [hs, hholds'.same fun hd => hnot hd.1]
    exact not_alike_dict ⟨items₂, hg'.toKept.shape_eq hdict fun _ _ heq => by cases heq⟩ hm
  · rw [or_iff_right htorn]
    refine ih _ ?_ ?_ hholds' hholds
    · rw [Graph.parts_list hv]
      exact mem_iff_getD.mpr ⟨i, hi, rfl⟩
    · by_cases hdict : (Graph.ofHeap heap').IsDict (items.getD i .none)
      · refine .inl ⟨fun hmem => mem_renamePlaces hmem, fun himage => ?_⟩
        by_contra hnot
        exact htorn ⟨⟨hnot, himage⟩, hdict⟩
      · exact .inr hdict

/-- The parts of what is neither a list nor a replaced dict are as they were. -/
theorem alike_parts {a' : Prop} (hlist : ∀ r items, (Graph.ofHeap heap').shape v ≠ .list r items)
    (hhead : (Graph.ofHeap heap').head v ≠ .nothing)
    (hrepl : ¬(a' ∧ (Graph.ofHeap heap').IsDict v)) :
    Alike g' g v (v.rename φ) ↔ ¬Shows (.ofHeap heap') P (torn φ P) a' v := by
  have hlist₀ : ∀ r items, (Graph.ofHeap heap).shape (v.rename φ) ≠ .list r items := by
    intro r items hv
    rw [h.shape v] at hv
    cases hshape : (Graph.ofHeap heap').shape v with
    | list r' items' => exact hlist r' items' hshape
    | _ =>
      rw [hshape] at hv
      cases hv
  obtain ⟨hhead', hparts'⟩ := hg'.toKept.parts_eq hlist hhead
  obtain ⟨hhead₀, hparts₀⟩ := hg.toKept.parts_eq hlist₀ (h.head v ▸ hhead)
  have hsame : g'.head v = g.head (v.rename φ) := by rw [hhead', hhead₀, h.head]
  have hmap : g.head (v.rename φ) ≠ .stringMap := by
    rw [hhead₀]
    exact ofHeap_head_ne heap _
  rw [alike_parts_iff hsame hmap, shows_part_iff hlist hrepl, hparts', hparts₀, h.parts,
    List.forall₂_map_right_iff, List.forall₂_same]
  simp only [not_exists, not_and]
  refine forall₂_congr fun u hu => ?_
  exact @ih u hu False False u (u.rename φ) (.inl Iff.rfl) (holds_self fun hf => hf.1)
    (holds_self fun hf => hf.1)

omit ih in
/-- What stands for a value looks the same unless it shows a torn place. -/
theorem alike_iff (hkeys : (Graph.ofHeap heap).KeysDistinct) (hv : (Graph.ofHeap heap').IsWhole v) :
    LooksRight φ heap' heap P ω' ω g' g v := by
  obtain ⟨hgrounded, hpresent⟩ := hv
  induction hgrounded with
  | intro v _ ih =>
    have ih : ∀ u ∈ (Graph.ofHeap heap').parts v, LooksRight φ heap' heap P ω' ω g' g u := by
      intro u hu
      exact ih u hu fun x hx => hpresent x (mem_below_iff.mpr (.inr ⟨u, hu, hx⟩))
    intro a' a w' w ha hw' hw
    have hdict_iff : a ∧ (Graph.ofHeap heap).IsDict (v.rename φ) ↔
        a' ∧ (Graph.ofHeap heap').IsDict v := by
      rw [h.isDict_iff]
      obtain ha | hdict := ha
      · rw [ha]
      · exact iff_of_false (fun hd => hdict hd.2) fun hd => hdict hd.2
    by_cases hrepl : a' ∧ (Graph.ofHeap heap').IsDict v
    · obtain ⟨items, hv⟩ := hrepl.2
      refine alike_map h hg' hg ih hkeys hrepl.1 hv (hw'.imp ?_) (hw.imp ?_)
      · exact iff_of_true trivial hrepl.1
      · exact iff_of_true trivial (hdict_iff.mpr hrepl).1
    · obtain rfl := hw'.same hrepl
      obtain rfl := hw.same fun hd => hrepl (hdict_iff.mp hd)
      by_cases hlist : ∃ r items, (Graph.ofHeap heap').shape w' = .list r items
      · obtain ⟨r, items, hv⟩ := hlist
        exact alike_list h hg' hg ih hv
      · refine alike_parts h hg' hg ih (fun r items hv => hlist ⟨r, items, hv⟩) ?_ hrepl
        exact hpresent w' .refl

end Copies

end Isthmus.Pickle
