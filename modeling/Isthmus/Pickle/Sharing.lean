import Isthmus.Pickle.Alike
import Isthmus.Pickle.Turns

/-!
# Sharing

Binding from a graph and from a copy of it makes the same calls. It leaves the same in
the destination where no interface that is kept was read from a torn place, or shows one
in the end.

## Main definitions

- `Same`: the destinations hold the same
- `Leaf.Intact`: the interface is the same in both

## Main results

- `judged`: the destinations hold the same where all that they keep is intact
-/

namespace Isthmus.Pickle

open Recursion

/-! ## Destinations that hold the same -/

inductive SameKey (g' g : Graph) : Key → Key → Prop
  | int (n : Int) : SameKey g' g (.int n) (.int n)
  | string (s : GoString) : SameKey g' g (.string s) (.string s)
  | bool (b : Bool) : SameKey g' g (.bool b) (.bool b)
  | interface {v' v : Value} (h : Alike g' g v' v) : SameKey g' g (.interface v') (.interface v)

/-- The destinations hold the same, the entries of a map in the order in which they were
set. -/
inductive Same (g' g : Graph) : Bound → Bound → Prop
  | int (n : Int) : Same g' g (.int n) (.int n)
  | string (s : GoString) : Same g' g (.string s) (.string s)
  | bool (b : Bool) : Same g' g (.bool b) (.bool b)
  | slice {bs' bs : List Bound} (hlength : bs'.length = bs.length)
    (h : ∀ {b' b}, (b', b) ∈ bs'.zip bs → Same g' g b' b) : Same g' g (.slice bs') (.slice bs)
  | struct {bs' bs : List Bound} (hlength : bs'.length = bs.length)
    (h : ∀ {b' b}, (b', b) ∈ bs'.zip bs → Same g' g b' b) : Same g' g (.struct bs') (.struct bs)
  | map {es' es : List (Key × Bound)} (hlength : es'.length = es.length)
    (hkeys : ∀ {e' e}, (e', e) ∈ es'.zip es → SameKey g' g e'.1 e.1)
    (h : ∀ {e' e}, (e', e) ∈ es'.zip es → Same g' g e'.2 e.2) : Same g' g (.map es') (.map es)
  | interface {v' v : Value} (h : Alike g' g v' v) : Same g' g (.interface v') (.interface v)

/-- An integer, a string or a boolean. -/
def DestKind.IsScalar {τ : Type} : DestKind τ → Prop
  | .int _ | .string | .bool => True
  | _ => False

/-- The interface does not hold the dict of a torn place, and what it holds does not show
one where the dicts in the places `P` were replaced in the end. -/
def Leaf.Intact (φ : Nat → Nat) (g : Graph) (P : Set (Nat × Nat)) (x : Leaf) : Prop :=
  (Replaced (torn φ x.replaced) x.place ∧ g.IsDict x.value → x.reqSK) ∧
    ¬Shows g P (torn φ P) (x.reqSK ∨ Replaced x.replaced x.place) x.value

section Same

variable {g' g : Graph}

theorem same_slice_iff {bs' bs : List Bound} :
    Same g' g (.slice bs') (.slice bs) ↔ List.Forall₂ (Same g' g) bs' bs := by
  rw [List.forall₂_iff_zip]
  constructor
  · rintro (_ | _ | _ | ⟨hlength, h⟩)
    exact ⟨hlength, h⟩
  · exact fun h => .slice h.1 h.2

theorem same_struct_iff {bs' bs : List Bound} :
    Same g' g (.struct bs') (.struct bs) ↔ List.Forall₂ (Same g' g) bs' bs := by
  rw [List.forall₂_iff_zip]
  constructor
  · rintro (_ | _ | _ | _ | ⟨hlength, h⟩)
    exact ⟨hlength, h⟩
  · exact fun h => .struct h.1 h.2

theorem same_map_iff {es' es : List (Key × Bound)} : Same g' g (.map es') (.map es) ↔
    List.Forall₂ (fun e' e => SameKey g' g e'.1 e.1 ∧ Same g' g e'.2 e.2) es' es := by
  rw [List.forall₂_iff_zip]
  constructor
  · rintro (_ | _ | _ | _ | _ | ⟨hlength, hkeys, h⟩)
    exact ⟨hlength, fun he => ⟨hkeys he, h he⟩⟩
  · exact fun h => .map h.1 (fun he => (h.2 he).1) fun he => (h.2 he).2

theorem same_interface_iff {v' v : Value} :
    Same g' g (.interface v') (.interface v) ↔ Alike g' g v' v := by
  constructor
  · rintro (_ | _ | _ | _ | _ | _ | h)
    exact h
  · exact .interface

theorem sameKey_interface_iff {v' v : Value} :
    SameKey g' g (.interface v') (.interface v) ↔ Alike g' g v' v := by
  constructor
  · rintro (_ | _ | _ | h)
    exact h
  · exact .interface

theorem torn_iff {φ : Nat → Nat} {P : Set (Nat × Nat)} {place : Option (Nat × Nat)} :
    Replaced (torn φ P) place ↔
      Replaced (renamePlaces φ P) (place.map (renamePlace φ)) ∧ ¬Replaced P place := by
  cases place with
  | none => exact iff_of_false not_replaced_none fun h => not_replaced_none h.1
  | some p =>
    rw [Option.map_some, replaced_some, replaced_some, replaced_some]
    exact and_comm

theorem Replaced.rename {φ : Nat → Nat} {P : Set (Nat × Nat)} {place : Option (Nat × Nat)}
    (h : Replaced P place) : Replaced (renamePlaces φ P) (place.map (renamePlace φ)) := by
  obtain ⟨p, hp, rfl⟩ := h
  exact ⟨renamePlace φ p, mem_renamePlaces hp, rfl⟩

end Same

/-! ## Two runs -/

section Runs

variable {φ : Nat → Nat} {heap' heap : Heap} {P P₁ : Set (Nat × Nat)} {ω' ω ω₁' ω₁ : Origins}
  {g' g g₁' g₁ : Graph}

/-- The copy and the graph after the same calls. -/
structure Joint (φ : Nat → Nat) (heap' heap : Heap) (P : Set (Nat × Nat)) (ω' ω : Origins)
    (g' g : Graph) : Prop where
  copy : Traced (.ofHeap heap') P ω' g'
  graph : Traced (.ofHeap heap) (renamePlaces φ P) ω g

/-- What was bound stays the same as long as these interfaces are intact. -/
def Judged (φ : Nat → Nat) (heap' heap : Heap) (ω' ω : Origins) (S : Set Leaf)
    (b' b : Bound) : Prop :=
  ∀ {P ω₁' ω₁ g' g}, ω'.Le ω₁' → ω.Le ω₁ → Joint φ heap' heap P ω₁' ω₁ g' g →
    (Same g' g b' b ↔ ∀ x ∈ S, x.Intact φ (.ofHeap heap') P)

theorem Judged.mono {S : Set Leaf} {b' b : Bound} (hle' : ω'.Le ω₁') (hle : ω.Le ω₁)
    (h : Judged φ heap' heap ω' ω S b' b) : Judged φ heap' heap ω₁' ω₁ S b' b :=
  fun hle₁' hle₁ => h (hle'.trans hle₁') (hle.trans hle₁)

variable (h : Copies φ heap' heap) (hkeys : (Graph.ofHeap heap).KeysDistinct)

include h hkeys

/-- An interface is the same where it is intact. -/
theorem alike_leaf_iff {place : Option (Nat × Nat)} {v w' w : Value} {reqSK : Bool}
    (hv : (Graph.ofHeap heap').IsWhole v) (hjoint : Joint φ heap' heap P₁ ω' ω g' g)
    (hw' : Holds (.ofHeap heap') ω' (reqSK ∨ Replaced P place) v w')
    (hw : Holds (.ofHeap heap) ω
      (reqSK ∨ Replaced (renamePlaces φ P) (place.map (renamePlace φ))) (v.rename φ) w) :
    Alike g' g w' w ↔ (⟨P, place, v, reqSK⟩ : Leaf).Intact φ (.ofHeap heap') P₁ := by
  by_cases htorn : Replaced (torn φ P) place ∧ (Graph.ofHeap heap').IsDict v ∧ reqSK = false
  · -- the graph has a map where the copy has a dict
    obtain ⟨hplace, ⟨items, hv'⟩, rfl⟩ := htorn
    obtain ⟨himage, hnot⟩ := torn_iff.mp hplace
    refine iff_of_false ?_ fun hn => by cases hn.1 ⟨hplace, items, hv'⟩
    have hdict := h.isDict_iff.mpr ⟨items, hv'⟩
    obtain ⟨s, m, rfl, hm⟩ := (hjoint.graph.stands hw).1 ⟨.inr himage, hdict⟩
    rw [hw'.same fun hd => hd.1.elim (fun hf => by cases hf) hnot]
    refine not_alike_dict ⟨items, ?_⟩ hm
    exact hjoint.copy.toKept.shape_eq hv' fun _ _ heq => by cases heq
  · have hleft : Replaced (torn φ P) place ∧ (Graph.ofHeap heap').IsDict v → reqSK = true := by
      intro hd
      by_contra hreq
      exact htorn ⟨hd.1, hd.2, Bool.eq_false_iff.mpr hreq⟩
    rw [Leaf.Intact, and_iff_right hleft]
    refine alike_iff h hjoint.copy hjoint.graph hkeys hv ?_ hw' hw
    by_cases hdict : (Graph.ofHeap heap').IsDict v
    · refine .inl ⟨fun ha => ha.imp_right Replaced.rename, fun ha => ?_⟩
      obtain hreq | himage := ha
      · exact .inl hreq
      · by_contra hnot
        obtain ⟨hreq, hnot⟩ := not_or.mp hnot
        exact hreq (hleft ⟨torn_iff.mpr ⟨himage, hnot⟩, hdict⟩)
    · exact .inr hdict

/-- A key is the same where the interfaces in it are intact. -/
theorem sameKey_iff {key : KeyKind} {v : Value} (hv : (Graph.ofHeap heap').IsWhole v)
    (hjoint : Joint φ heap' heap P₁ ω' ω g' g) :
    SameKey g' g (key.convert v) (key.convert (v.rename φ)) ↔
      ∀ x ∈ key.leaves v, x.Intact φ (.ofHeap heap') P₁ := by
  have hnone : ∀ x ∈ (∅ : Set Leaf), x.Intact φ (.ofHeap heap') P₁ :=
    fun x hx => absurd hx (Set.notMem_empty x)
  cases key with
  | interface =>
    have hleaf : (∀ x ∈ KeyKind.interface.leaves v, x.Intact φ (.ofHeap heap') P₁) ↔
        (⟨∅, none, v, false⟩ : Leaf).Intact φ (.ofHeap heap') P₁ := by
      constructor
      · exact fun hall => hall _ rfl
      · rintro hintact x rfl
        exact hintact
    rw [hleaf]
    refine sameKey_interface_iff.trans (alike_leaf_iff h hkeys hv hjoint ?_ ?_)
    · exact holds_self fun hd => hd.1.elim (fun hf => by cases hf) not_replaced_none
    · exact holds_self fun hd => hd.1.elim (fun hf => by cases hf) not_replaced_none
  | int size =>
    refine iff_of_true ?_ hnone
    cases v with
    | int n => exact .int _
    | _ => exact .bool false
  | string =>
    refine iff_of_true ?_ hnone
    cases v with
    | string s => exact .string s
    | _ => exact .bool false
  | bool =>
    refine iff_of_true ?_ hnone
    cases v with
    | bool b => exact .bool b
    | _ => exact .bool false
  | struct => exact iff_of_true (.bool false) hnone

variable {τ : Type} {rt : Runtime} {typ : τ → DestKind τ} {depth n : Nat}

/-- A call that reads what is there, of a value without cycles. -/
structure Turn.IsSound (g : Graph) (t : Turn τ) : Prop where
  value : g.IsWhole t.value
  key : g.IsWhole t.key
  reads : t.Reads g

omit h hkeys in
theorem isWhole_none (g : Graph) : g.IsWhole .none := by
  refine ⟨grounded_iff.mpr fun u hu => absurd hu List.not_mem_nil, fun u hu => ?_⟩
  obtain rfl | ⟨c, hc, -⟩ := mem_below_iff.mp hu
  · exact fun hf => by cases hf
  · exact absurd hc List.not_mem_nil

omit h hkeys in
theorem Turn.IsOf.isSound {g : Graph} {v : Value} {t : Turn τ} (h : t.IsOf g v)
    (hv : g.IsWhole v) : t.IsSound g where
  value := h.value.elim (fun heq => heq ▸ hv) hv.part
  key := h.key.elim (fun heq => heq ▸ isWhole_none g) hv.part
  reads := h.reads

omit h hkeys in
/-- What a turn reads stands for its value. -/
theorem Turn.Reads.current {t : Turn τ} (ht : t.Reads (.ofHeap heap))
    (hg : Traced (.ofHeap heap) P ω g) :
    Holds (.ofHeap heap) ω (Replaced P t.place) t.value (t.current g) ∧
      Settled (.ofHeap heap) P (Replaced P t.place) t.value := by
  unfold Turn.current
  cases hplace : t.place with
  | none =>
    exact ⟨holds_self fun hd => not_replaced_none hd.1, fun hd => (not_replaced_none hd).elim⟩
  | some p =>
    obtain ⟨items, hr, hvalue⟩ := ht p hplace
    rw [hvalue]
    refine ⟨(hg.held hr p.2).imp replaced_some, fun hmem => ?_⟩
    exact hg.toKept.gone (replaced_some.mp hmem) hr

omit hkeys in
theorem Turn.Reads.rename {t : Turn τ} (ht : t.Reads (.ofHeap heap')) :
    (t.rename φ).Reads (.ofHeap heap) := by
  intro p hp
  obtain ⟨q, hq, rfl⟩ := Option.map_eq_some_iff.mp hp
  obtain ⟨items, hr, hvalue⟩ := ht q hq
  refine ⟨items.map (Value.rename φ), h.list hr, ?_⟩
  rw [renamePlace, getD_rename, ← hvalue]
  rfl

omit h hkeys in
/-- An interface is set to what stands for its value. -/
theorem bind_interface_eq_ok (place : Option (Nat × Nat)) {g₀ : Graph} {a : Prop}
    {call : List Nat} {v w : Value} {reqSK : Bool} {b : Bound} (hg : Traced g₀ P ω g)
    (hw : Holds g₀ ω a v w) (ha : Settled g₀ P a v)
    (hb : bind rt typ depth (n + 1) call w .interface reqSK g = .ok (b, g₁)) :
    ∃ w₁ ω₁, b = .interface w₁ ∧ ω.Le ω₁ ∧ Holds g₀ ω₁ (reqSK ∨ a) v w₁ ∧
      Traced g₀ ((Visit.value place v (.interface : DestKind τ) reqSK).next g₀ P) ω₁ g₁ := by
  have hset : ∀ {w g}, setInterface w g = .ok (b, g₁) → b = .interface w ∧ g = g₁ := by
    intro w g h
    cases w with
    | none => cases h
    | _ =>
      cases h
      exact ⟨rfl, rfl⟩
  cases reqSK with
  | false =>
    obtain ⟨rfl, rfl⟩ := hset hb
    exact ⟨w, ω, rfl, .refl ω, hw.imp (by simp), hg⟩
  | true =>
    simp only [bind, if_true] at hb
    cases hres : restrictMapKeysToStrings rt depth call w g with
    | none =>
      rw [hres] at hb
      cases hb
    | some p =>
      obtain ⟨w₁, g₂⟩ := p
      rw [hres] at hb
      obtain ⟨rfl, rfl⟩ := hset hb
      obtain ⟨-, ω₁, hle, hholds, htraced⟩ := restrict_traced rt call hg hw ha hres
      exact ⟨w₁, ω₁, rfl, hle, hholds.imp (by simp), htraced⟩

/-- What two runs of one call bind is judged by the interfaces that it sets. -/
def JudgesAll (φ : Nat → Nat) (heap' heap : Heap) (rt : Runtime) (typ : τ → DestKind τ)
    (depth n : Nat) : Prop :=
  ∀ {t : Turn τ} {P ω' ω g' g b' b g₁' g₁}, t.IsSound (.ofHeap heap') →
    Joint φ heap' heap P ω' ω g' g → t.bind rt typ depth n g' = .ok (b', g₁') →
    (t.rename φ).bind rt typ depth n g = .ok (b, g₁) →
    ∃ ω₁' ω₁, ω'.Le ω₁' ∧ ω.Le ω₁ ∧
      Joint φ heap' heap (t.next rt typ (.ofHeap heap') n P) ω₁' ω₁ g₁' g₁ ∧
      Judged φ heap' heap ω₁' ω₁ (leaves rt typ (.ofHeap heap') n P t) b' b

omit h hkeys in
/-- The turns of two runs, side by side. -/
theorem judged_chain (hall : JudgesAll φ heap' heap rt typ depth n) {ts : List (Turn τ)}
    (hts : ∀ t ∈ ts, t.IsSound (.ofHeap heap')) {L' L : List (Turn τ × Bound)}
    (hL' : Chain (fun t => t.bind rt typ depth n) g' L' g₁')
    (hL : Chain (fun t => t.bind rt typ depth n) g L g₁) (hfst' : L'.map Prod.fst = ts)
    (hfst : L.map Prod.fst = ts.map (Turn.rename φ)) (hjoint : Joint φ heap' heap P ω' ω g' g) :
    ∃ ω₁' ω₁, ω'.Le ω₁' ∧ ω.Le ω₁ ∧ Joint φ heap' heap
        (ts.foldl (fun P t => t.next rt typ (.ofHeap heap') n P) P) ω₁' ω₁ g₁' g₁ ∧
      ∃ M : List ((Set (Nat × Nat) × Turn τ) × (Bound × Bound)),
        M.map Prod.fst = withStates (fun P t => t.next rt typ (.ofHeap heap') n P) P ts ∧
        M.map (fun x => (x.1.2, x.2.1)) = L' ∧ M.map (fun x => (x.1.2.rename φ, x.2.2)) = L ∧
        ∀ x ∈ M, Judged φ heap' heap ω₁' ω₁ (leaves rt typ (.ofHeap heap') n x.1.1 x.1.2)
          x.2.1 x.2.2 := by
  induction ts generalizing P ω' ω g' g L' L with
  | nil =>
    obtain rfl := List.map_eq_nil_iff.mp hfst'
    obtain rfl := List.map_eq_nil_iff.mp hfst
    cases hL'
    cases hL
    exact ⟨ω', ω, .refl ω', .refl ω, hjoint, [], rfl, rfl, rfl, fun x hx => by cases hx⟩
  | cons t ts ih =>
    obtain ⟨ht, htail⟩ := List.forall_mem_cons.mp hts
    obtain ⟨⟨t', b'⟩, L₁', rfl, rfl, hrest'⟩ := List.map_eq_cons_iff.mp hfst'
    obtain ⟨⟨t₁, b⟩, L₁, rfl, rfl, hrest⟩ := List.map_eq_cons_iff.mp hfst
    cases hL' with
    | cons hb' hL' =>
    cases hL with
    | cons hb hL =>
    obtain ⟨ω₂', ω₂, hle₂', hle₂, hjoint₂, hjudged⟩ := hall ht hjoint hb' hb
    obtain ⟨ω₁', ω₁, hle₁', hle₁, hjoint₁, M, hM, rfl, rfl, heach⟩ :=
      ih htail hL' hL hrest' hrest hjoint₂
    refine ⟨ω₁', ω₁, hle₂'.trans hle₁', hle₂.trans hle₁, hjoint₁, ((P, t'), (b', b)) :: M, ?_, rfl,
      rfl, List.forall_mem_cons.mpr ⟨hjudged.mono hle₁' hle₁, heach⟩⟩
    rw [List.map_cons, hM]
    rfl

omit h hkeys in
/-- A kind that is not an interface takes the value only as it was. -/
theorem eq_of_bind_ok {g₀ : Graph} {a : Prop} {call : List Nat} {v w : Value} {kind : DestKind τ}
    {reqSK : Bool} {p : Bound × Graph} (hg : Traced g₀ P ω g) (hw : Holds g₀ ω a v w)
    (hkind : kind ≠ .interface)
    (hb : bind rt typ depth (n + 1) call w kind reqSK g = .ok p) : w = v := by
  refine hw.same fun hd => ?_
  obtain ⟨err, herr⟩ :=
    @bind_stringMap τ rt typ g depth n call w kind reqSK ((hg.stands hw).1 hd) hkind
  cases hb.symm.trans herr

omit h in
/-- The keys of a dict are distinct. -/
theorem turn_keys_nodup {call : List Nat} {v : Value} {key : KeyKind} {elem : τ} {reqSK : Bool} :
    ((turns rt typ call (.ofHeap heap) v (.map key elem) reqSK).map Turn.key).Nodup := by
  simp only [turns]
  cases hshape : (Graph.ofHeap heap).shape v with
  | dict items =>
    have hmap : ((rt.entries call items).zipIdx.map (entryTurn typ call elem reqSK)).map Turn.key =
        (rt.entries call items).map Prod.fst := by
      rw [List.map_map, ← List.zipIdx_map_fst 0 (rt.entries call items), List.map_map,
        List.zipIdx_map_fst]
      rfl
    rw [hmap, ((entries_perm rt call items).map Prod.fst).nodup_iff]
    exact hkeys v items hshape
  | _ => exact List.nodup_nil

omit h hkeys in
theorem convert_rename {key : KeyKind} (hkey : key ≠ .interface) (v : Value) :
    key.convert (v.rename φ) = key.convert v := by
  cases key with
  | interface => exact absurd rfl hkey
  | _ => cases v <;> rfl

omit h hkeys in
/-- All elements are the same where the interfaces in all of them are intact. -/
theorem judged_elements {S : Set (Nat × Nat) → Turn τ → Set Leaf}
    {M : List ((Set (Nat × Nat) × Turn τ) × (Bound × Bound))}
    (heach : ∀ x ∈ M, Judged φ heap' heap ω' ω (S x.1.1 x.1.2) x.2.1 x.2.2)
    (hle' : ω'.Le ω₁') (hle : ω.Le ω₁) (hjoint : Joint φ heap' heap P ω₁' ω₁ g' g) :
    List.Forall₂ (Same g' g) (M.map fun x => x.2.1) (M.map fun x => x.2.2) ↔
      ∀ x ∈ {x | ∃ p ∈ M.map Prod.fst, x ∈ S p.1 p.2}, x.Intact φ (.ofHeap heap') P := by
  rw [List.forall₂_map_left_iff, List.forall₂_map_right_iff, List.forall₂_same]
  constructor
  · rintro hall x ⟨p, hp, hx⟩
    obtain ⟨y, hy, rfl⟩ := List.mem_map.mp hp
    exact (heach y hy hle' hle hjoint).mp (hall y hy) x hx
  · intro hall y hy
    exact (heach y hy hle' hle hjoint).mpr fun x hx => hall x ⟨y.1, List.mem_map_of_mem hy, hx⟩

/-- All entries that a map keeps are the same where the interfaces in all of them are
intact. -/
theorem judged_entries {S : Set (Nat × Nat) → Turn τ → Set Leaf} {key : KeyKind}
    {M : List ((Set (Nat × Nat) × Turn τ) × (Bound × Bound))}
    (hnodup : (M.map fun x => x.1.2.key.rename φ).Nodup)
    (hsound : ∀ x ∈ M, x.1.2.IsSound (.ofHeap heap'))
    (heach : ∀ x ∈ M, Judged φ heap' heap ω' ω (S x.1.1 x.1.2) x.2.1 x.2.2)
    (hle' : ω'.Le ω₁') (hle : ω.Le ω₁) (hjoint : Joint φ heap' heap P ω₁' ω₁ g' g) :
    Same g' g (.map (setEach (M.map fun x => (key.convert x.1.2.key, x.2.1))))
        (.map (setEach (M.map fun x => (key.convert (x.1.2.key.rename φ), x.2.2)))) ↔
      ∀ x ∈ {x | ∃ p, Survives (fun p => key.convert p.2.key) (M.map Prod.fst) p ∧
        (x ∈ key.leaves p.2.key ∨ x ∈ S p.1 p.2)}, x.Intact φ (.ofHeap heap') P := by
  have hpattern : ∀ x ∈ M, ∀ y ∈ M, (key.convert x.1.2.key = key.convert y.1.2.key ↔
      key.convert (x.1.2.key.rename φ) = key.convert (y.1.2.key.rename φ)) := by
    intro x hx y hy
    by_cases hkey : key = .interface
    · subst hkey
      refine ⟨fun heq => ?_, fun heq => ?_⟩
      · rw [Key.interface.inj heq]
      · rw [List.inj_on_of_nodup_map hnodup hx hy (Key.interface.inj heq)]
    · rw [convert_rename hkey, convert_rename hkey]
  obtain ⟨m, hm', hm, hmem⟩ := @exists_survivors _ M (fun x => (key.convert x.1.2.key, x.2.1))
    (fun x => (key.convert (x.1.2.key.rename φ), x.2.2)) hpattern
  rw [same_map_iff, hm', hm, List.forall₂_map_left_iff, List.forall₂_map_right_iff,
    List.forall₂_same]
  constructor
  · rintro hall x ⟨p, hp, hx⟩
    obtain ⟨y, rfl, hy⟩ := survives_map.mp hp
    obtain ⟨hkey, hvalue⟩ := hall y ((hmem y).mpr hy)
    obtain hx | hx := hx
    · exact (sameKey_iff h hkeys (hsound y hy.mem).key hjoint).mp hkey x hx
    · exact (heach y hy.mem hle' hle hjoint).mp hvalue x hx
  · intro hall y hy
    have hsurvives := (hmem y).mp hy
    have hp : Survives (fun p => key.convert p.2.key) (M.map Prod.fst) y.1 :=
      survives_map.mpr ⟨y, rfl, hsurvives⟩
    refine ⟨(sameKey_iff h hkeys (hsound y hsurvives.mem).key hjoint).mpr fun x hx => ?_,
      (heach y hsurvives.mem hle' hle hjoint).mpr fun x hx => ?_⟩
    · exact hall x ⟨y.1, hp, .inl hx⟩
    · exact hall x ⟨y.1, hp, .inr hx⟩

omit h hkeys in
/-- A kind without parts leaves the graph as it is, and takes the same value from both. -/
theorem same_of_bind_scalar {call : List Nat} {v : Value} {kind : DestKind τ} {reqSK : Bool}
    {b' b : Bound} (hkind : kind.IsScalar)
    (hb' : bind rt typ depth (n + 1) call v kind reqSK g' = .ok (b', g₁'))
    (hb : bind rt typ depth (n + 1) call (v.rename φ) kind reqSK g = .ok (b, g₁)) :
    g' = g₁' ∧ g = g₁ ∧ ∀ h' h, Same h' h b' b := by
  cases kind with
  | int size =>
    cases v with
    | int i =>
      cases hb'
      cases hb
      exact ⟨rfl, rfl, fun _ _ => .int _⟩
    | _ => cases hb'
  | string =>
    cases v with
    | string s =>
      cases hb'
      cases hb
      exact ⟨rfl, rfl, fun _ _ => .string _⟩
    | _ => cases hb'
  | bool =>
    cases v with
    | bool b =>
      cases hb'
      cases hb
      exact ⟨rfl, rfl, fun _ _ => .bool _⟩
    | _ => cases hb'
  | _ => exact hkind.elim

/-- An interface is judged by itself. -/
theorem judged_interface {t : Turn τ} {b' b : Bound} (ht : t.IsSound (.ofHeap heap'))
    (hkind : t.kind = .interface) (hjoint : Joint φ heap' heap P ω' ω g' g)
    (hb' : t.bind rt typ depth (n + 1) g' = .ok (b', g₁'))
    (hb : (t.rename φ).bind rt typ depth (n + 1) g = .ok (b, g₁)) :
    ∃ ω₁' ω₁, ω'.Le ω₁' ∧ ω.Le ω₁ ∧
      Joint φ heap' heap (t.next rt typ (.ofHeap heap') (n + 1) P) ω₁' ω₁ g₁' g₁ ∧
      Judged φ heap' heap ω₁' ω₁ {⟨P, t.place, t.value, t.reqSK⟩} b' b := by
  obtain ⟨hw', hsettled'⟩ := ht.reads.current hjoint.copy
  obtain ⟨hw, hsettled⟩ := (ht.reads.rename h).current hjoint.graph
  obtain ⟨call, key, place, v, kind, reqSK⟩ := t
  obtain rfl : kind = .interface := hkind
  obtain ⟨w', ω₁', rfl, hle', hholds', htraced'⟩ :=
    bind_interface_eq_ok place hjoint.copy hw' hsettled' hb'
  obtain ⟨w, ω₁, rfl, hle, hholds, htraced⟩ :=
    bind_interface_eq_ok (place.map (renamePlace φ)) hjoint.graph hw hsettled hb
  refine ⟨ω₁', ω₁, hle', hle, ⟨htraced', ?_⟩, fun hle₁' hle₁ hjoint₁ => ?_⟩
  · cases reqSK with
    | false => exact htraced
    | true =>
      have hunion : renamePlaces φ (P ∪ (Graph.ofHeap heap').places v) =
          renamePlaces φ P ∪ (Graph.ofHeap heap).places (v.rename φ) := by
        rw [h.places, renamePlaces, Set.image_union]
        rfl
      change Traced (.ofHeap heap) (renamePlaces φ (P ∪ (Graph.ofHeap heap').places v)) ω₁ g₁
      rw [hunion]
      exact htraced
  · rw [same_interface_iff, alike_leaf_iff h hkeys ht.value hjoint₁ (hholds'.mono hle₁')
      (hholds.mono hle₁)]
    constructor
    · rintro hintact x rfl
      exact hintact
    · exact fun hall => hall _ rfl

/-- What two runs of a call bind is the same where the interfaces that are kept are intact. -/
theorem judged (rt : Runtime) (typ : τ → DestKind τ) (depth n : Nat) :
    JudgesAll φ heap' heap rt typ depth n := by
  induction n with
  | zero =>
    intro t P ω' ω g' g b' b g₁' g₁ _ _ hb'
    cases hb'
  | succ n ih =>
    intro t P ω' ω g' g b' b g₁' g₁ ht hjoint hb' hb
    by_cases hkind : t.kind = .interface
    · have hleaves : leaves rt typ (.ofHeap heap') (n + 1) P t =
          {⟨P, t.place, t.value, t.reqSK⟩} := by
        rw [leaves, hkind]
      rw [hleaves]
      exact judged_interface h hkeys ht hkind hjoint hb' hb
    · obtain ⟨hw', -⟩ := ht.reads.current hjoint.copy
      obtain ⟨hw, -⟩ := (ht.reads.rename h).current hjoint.graph
      have hcurrent' := eq_of_bind_ok hjoint.copy hw' hkind hb'
      have hcurrent := eq_of_bind_ok hjoint.graph hw hkind hb
      have hnext : t.next rt typ (.ofHeap heap') (n + 1) P =
          (turns rt typ t.call (.ofHeap heap') t.value t.kind t.reqSK).foldl
            (fun P t => t.next rt typ (.ofHeap heap') n P) P := after_visits hkind
      have hparts : ∀ u ∈ turns rt typ t.call (.ofHeap heap') t.value t.kind t.reqSK,
          u.IsSound (.ofHeap heap') := fun u hu => (isOf_of_mem hu).isSound ht.value
      have hturns : turns rt typ t.call (.ofHeap heap) (t.value.rename φ) t.kind t.reqSK = _ :=
        h.turns t.call t.value t.kind t.reqSK
      unfold Turn.bind at hb' hb
      rw [hcurrent'] at hb'
      rw [hcurrent] at hb
      rw [hnext]
      obtain ⟨call, key, place, v, kind, reqSK⟩ := t
      cases kind with
      | interface => exact absurd rfl hkind
      | slice elem =>
        obtain ⟨L', hL', hfst', rfl⟩ := exists_chain_slice hjoint.copy.toKept hb'
        obtain ⟨L, hL, hfst, rfl⟩ := exists_chain_slice hjoint.graph.toKept hb
        obtain ⟨ω₁', ω₁, hle', hle, hjoint₁, M, hM, rfl, rfl, heach⟩ :=
          judged_chain ih hparts hL' hL hfst' (hfst.trans hturns) hjoint
        refine ⟨ω₁', ω₁, hle', hle, hjoint₁, fun hle₁' hle₁ hjoint₂ => ?_⟩
        rw [same_slice_iff, List.map_map, List.map_map]
        refine (judged_elements heach hle₁' hle₁ hjoint₂).trans ?_
        rw [hM]
        rfl
      | struct fields =>
        obtain ⟨L', hL', hfst', rfl⟩ := exists_chain_struct hjoint.copy.toKept hb'
        obtain ⟨L, hL, hfst, rfl⟩ := exists_chain_struct hjoint.graph.toKept hb
        obtain ⟨ω₁', ω₁, hle', hle, hjoint₁, M, hM, rfl, rfl, heach⟩ :=
          judged_chain ih hparts hL' hL hfst' (hfst.trans hturns) hjoint
        refine ⟨ω₁', ω₁, hle', hle, hjoint₁, fun hle₁' hle₁ hjoint₂ => ?_⟩
        rw [same_struct_iff, List.map_map, List.map_map]
        refine (judged_elements heach hle₁' hle₁ hjoint₂).trans ?_
        rw [hM]
        rfl
      | map kind elem =>
        obtain ⟨L', hL', hfst', rfl⟩ := exists_chain_map hjoint.copy.toKept hb'
        obtain ⟨L, hL, hfst, rfl⟩ := exists_chain_map hjoint.graph.toKept hb
        obtain ⟨ω₁', ω₁, hle', hle, hjoint₁, M, hM, rfl, rfl, heach⟩ :=
          judged_chain ih hparts hL' hL hfst' (hfst.trans hturns) hjoint
        have hmem : ∀ x ∈ M, x.1.2.IsSound (.ofHeap heap') := by
          intro x hx
          refine hparts _ ?_
          rw [← hfst', List.map_map]
          exact List.mem_map_of_mem hx
        have hnodup : (M.map fun x => x.1.2.key.rename φ).Nodup := by
          have hkeys' : (((M.map fun x => (x.1.2.rename φ, x.2.2)).map Prod.fst).map
              Turn.key).Nodup := by
            rw [hfst]
            exact turn_keys_nodup hkeys
          rwa [List.map_map, List.map_map] at hkeys'
        refine ⟨ω₁', ω₁, hle', hle, hjoint₁, fun hle₁' hle₁ hjoint₂ => ?_⟩
        rw [List.map_map, List.map_map]
        refine (judged_entries h hkeys hnodup hmem heach hle₁' hle₁ hjoint₂).trans ?_
        rw [hM]
        rfl
      | _ =>
        obtain ⟨rfl, rfl, hsame⟩ := same_of_bind_scalar (by trivial) hb' hb
        refine ⟨ω', ω, .refl ω', .refl ω, hjoint, fun {P₂ ω₂' ω₂ g₂' g₂} _ _ _ => ?_⟩
        exact iff_of_true (hsame g₂' g₂) fun x hx => by
          obtain ⟨p, hp, -⟩ := hx
          cases hp

end Runs

end Isthmus.Pickle
