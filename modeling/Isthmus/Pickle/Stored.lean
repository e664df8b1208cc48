import Isthmus.Pickle.Copies
import Isthmus.Pickle.Decoded
import Isthmus.Pickle.Finished
import Isthmus.Pickle.Origins

/-!
# What is stored for a tree

`bind` works on the lists and dicts that the machine made, which can be shared and are changed
in place. Where no list of dicts is read after a field that asks for string keys, none of this
shows: the destination holds the tree that was pickled.

## Main definitions

- `Stored`: a destination holds a tree
- `Shown`: a value in the graph that is left shows a tree
- `Sturdy`: types that are bound as if nothing were changed

## Main results

- `storesAll`: binding a value that is equal to a tree
- `Holds.shown`: what an interface is given
- `bind_stored`: binding a struct of which only the later fields ask for string keys
-/

namespace Isthmus.Pickle

open Recursion

/-! ## Destinations that hold a tree -/

section Stored

variable {τ : Type} (rt : Runtime) (typ : τ → DestKind τ) (R : Value → Tree → Prop)

/-- The tree for a field of a dict: under its name, or else under the name in snake case, or
the dict itself. -/
def FieldTree (items : List (Scalar × Tree)) (f : Field τ) (t : Tree) : Prop :=
  if f.isRemainder then t = .dict items
  else (.string (utf8 f.name), t) ∈ items ∨
    (∀ u, (.string (utf8 f.name), u) ∉ items) ∧
      (.string (utf8 (snakeCase rt f.name)), t) ∈ items

/-- The destination holds the tree: the same integers, strings and booleans, the elements of
lists and tuples in their order and those of sets in some order, one entry for each entry of a
dict, and in each interface what `R` asks for. -/
inductive Stored : Tree → DestKind τ → Bound → Prop
  | int {n : Int} {size : IntSize} (h : size.Fits n) :
    Stored (.scalar (.int n)) (.int size) (.int n)
  | string (s : GoString) : Stored (.scalar (.string s)) .string (.string s)
  | bool (b : Bool) : Stored (.scalar (.bool b)) .bool (.bool b)
  | list {items : List Tree} {elem : τ} {bs : List Bound} (hlength : items.length = bs.length)
    (h : ∀ {t b}, (t, b) ∈ items.zip bs → Stored t (typ elem) b) :
    Stored (.list items) (.slice elem) (.slice bs)
  | tuple {items : List Tree} {elem : τ} {bs : List Bound} (hlength : items.length = bs.length)
    (h : ∀ {t b}, (t, b) ∈ items.zip bs → Stored t (typ elem) b) :
    Stored (.tuple items) (.slice elem) (.slice bs)
  | set {items items' : List Scalar} {elem : τ} {bs : List Bound} (hperm : items'.Perm items)
    (hlength : items'.length = bs.length)
    (h : ∀ {k b}, (k, b) ∈ items'.zip bs → Stored (.scalar k) (typ elem) b) :
    Stored (.set items) (.slice elem) (.slice bs)
  | dict {items : List (Scalar × Tree)} {fields : List (Field τ)} {ts : List Tree}
    {bs : List Bound} (hfields : List.Forall₂ (FieldTree rt items) fields ts)
    (hlength : (fields.zip ts).length = bs.length)
    (h : ∀ {p b}, (p, b) ∈ (fields.zip ts).zip bs → Stored p.2 (typ p.1.type) b) :
    Stored (.dict items) (.struct fields) (.struct bs)
  | object {cls : Tree} {arguments : List Tree} {fields : List (Field τ)} {bs : List Bound}
    (harguments : arguments.length = fields.length)
    (hlength : (fields.zip arguments).length = bs.length)
    (h : ∀ {p b}, (p, b) ∈ (fields.zip arguments).zip bs → Stored p.2 (typ p.1.type) b) :
    Stored (.object cls arguments) (.struct fields) (.struct bs)
  | map {items items' : List (Scalar × Tree)} {key : KeyKind} {elem : τ}
    {entries : List (Key × Bound)} (hperm : items'.Perm items)
    (hdistinct : (entries.map Prod.fst).Nodup) (hlength : items'.length = entries.length)
    (hkeys : ∀ {e b}, (e, b) ∈ items'.zip entries → FaithfulKey e.1.value key b.1)
    (h : ∀ {e b}, (e, b) ∈ items'.zip entries → Stored e.2 (typ elem) b.2) :
    Stored (.dict items) (.map key elem) (.map entries)
  | interface {t : Tree} {w : Value} (h : t ≠ .none) (hw : R w t) :
    Stored t .interface (.interface w)

/-- Nothing is asked of the interfaces. -/
def Anything : Value → Tree → Prop := fun _ _ => True

/-- The tree has the form of what the destination holds. -/
def Storable (t : Tree) (kind : DestKind τ) : Prop := ∃ b, Stored rt typ Anything t kind b

section

variable {rt typ R}

theorem Stored.mono {R' : Value → Tree → Prop} (hR : ∀ w t, R w t → R' w t) {t : Tree}
    {kind : DestKind τ} {b : Bound} (h : Stored rt typ R t kind b) : Stored rt typ R' t kind b := by
  induction h with
  | int h => exact .int h
  | string s => exact .string s
  | bool b => exact .bool b
  | list hlength _ ih => exact .list hlength ih
  | tuple hlength _ ih => exact .tuple hlength ih
  | set hperm hlength _ ih => exact .set hperm hlength ih
  | dict hfields hlength _ ih => exact .dict hfields hlength ih
  | object harguments hlength _ ih => exact .object harguments hlength ih
  | map hperm hdistinct hlength hkeys _ ih => exact .map hperm hdistinct hlength hkeys ih
  | interface h hw => exact .interface h (hR _ _ hw)

theorem stored_list {items : List Tree} {elem : τ} {bs : List Bound}
    (h : List.Forall₂ (fun t b => Stored rt typ R t (typ elem) b) items bs) :
    Stored rt typ R (.list items) (.slice elem) (.slice bs) :=
  .list h.length_eq (List.forall₂_iff_zip.mp h).2

theorem stored_dict {items : List (Scalar × Tree)} {fields : List (Field τ)} {ts : List Tree}
    {bs : List Bound} (hfields : List.Forall₂ (FieldTree rt items) fields ts)
    (h : List.Forall₂ (fun q b => Stored rt typ R q.2 (typ q.1.type) b) (fields.zip ts) bs) :
    Stored rt typ R (.dict items) (.struct fields) (.struct bs) :=
  .dict hfields h.length_eq (List.forall₂_iff_zip.mp h).2

theorem stored_map {items items' : List (Scalar × Tree)} {key : KeyKind} {elem : τ}
    {entries : List (Key × Bound)} (hperm : items'.Perm items)
    (hdistinct : (entries.map Prod.fst).Nodup)
    (h : List.Forall₂
      (fun i b => FaithfulKey i.1.value key b.1 ∧ Stored rt typ R i.2 (typ elem) b.2)
      items' entries) : Stored rt typ R (.dict items) (.map key elem) (.map entries) := by
  obtain ⟨hlength, hzip⟩ := List.forall₂_iff_zip.mp h
  exact .map hperm hdistinct hlength (fun hb => (hzip hb).1) fun hb => (hzip hb).2

/-- A dict with the names of the fields in snake case. -/
theorem fieldTrees_of_keys {items l : List (Scalar × Tree)} {fields : List (Field τ)}
    (hl : l ⊆ items)
    (hkeys : l.map Prod.fst = fields.map fun f => .string (utf8 (snakeCase rt f.name)))
    (hrem : ∀ f ∈ fields, f.isRemainder = false)
    (hnames : ∀ f ∈ fields, .string (utf8 f.name) ∉ items.map Prod.fst) :
    List.Forall₂ (FieldTree rt items) fields (l.map Prod.snd) := by
  induction fields generalizing l with
  | nil =>
    rw [List.map_nil, List.map_eq_nil_iff] at hkeys
    rw [hkeys]
    exact .nil
  | cons f fields ih =>
    cases l with
    | nil => cases hkeys
    | cons i l =>
      rw [List.map_cons, List.map_cons, List.cons.injEq] at hkeys
      obtain ⟨hkey, hkeys⟩ := hkeys
      rw [List.forall_mem_cons] at hrem hnames
      rw [List.cons_subset] at hl
      refine .cons ?_ (ih hl.2 hkeys hrem.2 hnames.2)
      rw [FieldTree, hrem.1, if_neg Bool.false_ne_true, ← hkey]
      exact .inr ⟨fun u hu => hnames.1 (List.mem_map_of_mem hu), hl.1⟩

end

/-- The kinds that are bound from dicts. -/
def DestKind.TakesDicts : DestKind τ → Prop
  | .struct _ => True
  | .map _ _ => True
  | _ => False

/-- Binding these types keeps `I` of the replaced places, and while it holds, reads no dict
that was replaced. -/
structure Sturdy (S : Set τ) (I : Set (Nat × Nat) → Prop) : Prop where
  parts : ∀ s ∈ S, ∀ u ∈ (typ s).parts, u ∈ S
  slices : ∀ s ∈ S, ∀ elem, typ s = .slice elem → (typ elem).TakesDicts → ∀ P, I P → P = ∅
  interfaces : ∀ s ∈ S, typ s = .interface → ∀ P Q, I P → I (P ∪ Q)
  remainders : ∀ s ∈ S, ∀ fields, typ s = .struct fields → ∀ f ∈ fields, f.isRemainder = true →
    ∃ key elem, typ f.type = .map key elem

/-- The bound on the depth of `bind` is enough. The remainder of a dict is bound from the dict
itself. -/
def Reaches (n : Nat) (t : Tree) : DestKind τ → Prop
  | .struct _ => 2 * sizeOf t < n
  | _ => 2 * sizeOf t ≤ n

end Stored

/-- The value shows the tree: in it, some of the dicts are maps of what is under their string
keys. -/
inductive Shown (g : Graph) : Value → Tree → Prop
  | none : Shown g .none .none
  | scalar (k : Scalar) : Shown g k.value (.scalar k)
  | symbol (module attr : GoString) : Shown g (.symbol module attr) (.symbol module attr)
  | tuple {vs : List Value} {items : List Tree} (h : List.Forall₂ (Shown g) vs items) :
    Shown g (.tuple vs) (.tuple items)
  | object {w : Value} {vs : List Value} {cls : Tree} {arguments : List Tree}
    (hcls : Shown g w cls) (h : List.Forall₂ (Shown g) vs arguments) :
    Shown g (.object w vs) (.object cls arguments)
  | list {r : Nat} {vs : List Value} {items : List Tree}
    (hr : g[r]? = some (.cell (.list vs))) (h : List.Forall₂ (Shown g) vs items) :
    Shown g (.ref r) (.list items)
  | dict {r : Nat} {es : List (Value × Value)} {items : List (Scalar × Tree)}
    (hr : g[r]? = some (.cell (.dict es)))
    (hkeys : es.map Prod.fst = items.map fun e => e.1.value)
    (h : List.Forall₂ (Shown g) (es.map Prod.snd) (items.map Prod.snd)) :
    Shown g (.ref r) (.dict items)
  | set {r : Nat} {items : List Scalar}
    (hr : g[r]? = some (.cell (.set (items.map Scalar.value)))) : Shown g (.ref r) (.set items)
  | stringMap {r : Nat} {m : GoMap GoString Value} {items : List (Scalar × Tree)}
    (hr : g[r]? = some (.stringMap m)) (hkeys : ∀ k, k ∈ m ↔ ∃ t, (.string k, t) ∈ items)
    (h : ∀ {k v t}, m.lookup k = some v → (.string k, t) ∈ items → Shown g v t) :
    Shown g (.ref r) (.dict items)

/-! ## Loops -/

section Loops

variable {α β γ : Type} {g₀ g : Graph} {P : Set (Nat × Nat)} {ω : Origins}
  {I : Set (Nat × Nat) → Prop}

/-- There is a result of this kind, and a graph with replaced dicts. -/
def Binds (g₀ : Graph) (ω : Origins) (I : Set (Nat × Nat) → Prop) (T : Origins → α → Prop)
    (o : Except Stop (α × Graph)) : Prop :=
  ∃ a g P ω', o = .ok (a, g) ∧ Traced g₀ P ω' g ∧ I P ∧ ω.Le ω' ∧ T ω' a

theorem binds_ok {T : Origins → α → Prop} {a : α} (hg : Traced g₀ P ω g) (hI : I P) (ha : T ω a) :
    Binds g₀ ω I T (.ok (a, g)) := ⟨a, g, P, ω, rfl, hg, hI, .refl ω, ha⟩

theorem Binds.map {T : Origins → α → Prop} {T' : Origins → β → Prop}
    {o : Except Stop (α × Graph)} {f : α → β} (h : Binds g₀ ω I T o)
    (hf : ∀ ω a, T ω a → T' ω (f a)) : Binds g₀ ω I T' (o.map fun p => (f p.1, p.2)) := by
  obtain ⟨a, g, P, ω', rfl, hg, hI, hle, ha⟩ := h
  exact ⟨f a, g, P, ω', rfl, hg, hI, hle, hf ω' a ha⟩

theorem Binds.wrap {T : Origins → α → Prop} {o : Except Stop (α × Graph)} {key : GoString}
    (h : Binds g₀ ω I T o) : Binds g₀ ω I T (o.mapError (.wrap key)) := by
  obtain ⟨a, g, P, ω', rfl, hg, hI, hle, ha⟩ := h
  exact ⟨a, g, P, ω', rfl, hg, hI, hle, ha⟩

/-- A loop over what stands for the trees. What was bound stays right. -/
theorem binds_each {R : α → γ → Prop} {T : γ → Origins → β → Prop}
    {f : α → Graph → Except Stop (β × Graph)} {l : List α} {ts : List γ}
    (hl : List.Forall₂ R l ts) (hmono : ∀ t ω ω' b, ω.Le ω' → T t ω b → T t ω' b)
    (hf : ∀ a t, R a t → ∀ P ω g, Traced g₀ P ω g → I P → Binds g₀ ω I (T t) (f a g))
    (hg : Traced g₀ P ω g) (hI : I P) :
    Binds g₀ ω I (fun ω => List.Forall₂ (fun t b => T t ω b) ts) (bindEach f l g) := by
  induction hl generalizing P ω g with
  | nil => exact binds_ok hg hI .nil
  | cons hab _ ih =>
    obtain ⟨b, g₁, P₁, ω₁, hb, hg₁, hI₁, hle₁, hT⟩ := hf _ _ hab P ω g hg hI
    obtain ⟨bs, g₂, P₂, ω₂, hbs, hg₂, hI₂, hle₂, hTs⟩ := ih hg₁ hI₁
    refine ⟨b :: bs, g₂, P₂, ω₂, ?_, hg₂, hI₂, hle₁.trans hle₂,
      .cons (hmono _ _ _ _ hle₂ hT) hTs⟩
    rw [bindEach]
    exact bind_eq_ok.mpr ⟨(b, g₁), hb, bind_eq_ok.mpr ⟨(bs, g₂), hbs, rfl⟩⟩

/-- The elements with their numbers. -/
theorem forall₂_zipIdx {R : α → γ → Prop} {l : List α} {ts : List γ} {k : Nat}
    (h : List.Forall₂ R l ts) : List.Forall₂ (fun p t => R p.1 t) (l.zipIdx k) ts := by
  rw [← List.forall₂_map_left_iff, List.zipIdx_map_fst]
  exact h

/-- What is beside the elements of a list. -/
theorem forall₂_zip {R : α → γ → Prop} {l : List α} {ts : List γ} (h : List.Forall₂ R l ts) :
    List.Forall₂ (fun a q => a = q.1 ∧ R q.1 q.2) l (l.zip ts) := by
  induction h with
  | nil => exact .nil
  | cons hab _ ih => exact .cons ⟨rfl, hab⟩ ih

theorem forall₂_zip_right {R : β → γ → Prop} {bs : List β} {ts : List γ}
    (h : List.Forall₂ R bs ts) (l : List α) :
    List.Forall₂ (fun p q => p.1 = q.1 ∧ R p.2 q.2) (l.zip bs) (l.zip ts) := by
  induction h generalizing l with
  | nil =>
    rw [List.zip_nil_right, List.zip_nil_right]
    exact .nil
  | cons hab _ ih =>
    cases l with
    | nil => exact .nil
    | cons a l => exact .cons ⟨rfl, hab⟩ (ih l)

/-- Lists of one length are gone over in one order. -/
theorem forall₂_runtime_entries {R : α → γ → Prop} (rt : Runtime) (call : List Nat) {l : List α}
    {ts : List γ} (h : List.Forall₂ R l ts) :
    List.Forall₂ R (rt.entries call l) (rt.entries call ts) := by
  have hall : List.Forall₂ R (rt.entries call ((l.zip ts).map Prod.fst))
      (rt.entries call ((l.zip ts).map Prod.snd)) := by
    rw [entries_map, entries_map, List.forall₂_map_left_iff, List.forall₂_map_right_iff,
      List.forall₂_same]
    intro q hq
    exact (List.forall₂_iff_zip.mp h).2 ((entries_perm rt call _).mem_iff.mp hq)
  rwa [List.map_fst_zip (Nat.le_of_eq h.length_eq),
    List.map_snd_zip (Nat.le_of_eq h.length_eq.symm)] at hall

end Loops

/-! ## Values that are equal to trees -/

section Denoted

variable {heap : Heap} {u : Value} {t : Tree}

theorem ofHeap_shape_list {r : Nat} {vs : List Value} (hr : heap[r]? = some (.list vs)) :
    (Graph.ofHeap heap).shape (.ref r) = .list r vs :=
  Graph.shape_eq_list.mpr ⟨rfl, by rw [ofHeap_node, hr]; rfl⟩

theorem ofHeap_shape_dict {r : Nat} {es : List (Value × Value)}
    (hr : heap[r]? = some (.dict es)) : (Graph.ofHeap heap).shape (.ref r) = .dict es := by
  simp only [Graph.shape, ofHeap_node, hr, Option.map_some]

theorem ofHeap_shape_set {r : Nat} {items : List Value} (hr : heap[r]? = some (.set items)) :
    (Graph.ofHeap heap).shape (.ref r) = .set items := by
  simp only [Graph.shape, ofHeap_node, hr, Option.map_some]

theorem sizeOf_pos (t : Tree) : 0 < sizeOf t := by
  cases t <;> simp

theorem sizeOf_entry_lt {items : List (Scalar × Tree)} {e : Scalar × Tree} (he : e ∈ items) :
    sizeOf e.2 < sizeOf (Tree.dict items) := by
  have hlt := List.sizeOf_lt_of_mem he
  obtain ⟨k, t⟩ := e
  simp only [Prod.mk.sizeOf_spec] at hlt
  simp only [Tree.dict.sizeOf_spec]
  omega

theorem Denotes.ne_none (h : Denotes heap u t) (ht : t ≠ .none) : u ≠ .none := by
  intro hu
  cases h with
  | none => exact ht rfl
  | scalar k => cases k <;> cases hu
  | _ => cases hu

/-- The entries of a dict, key by key. -/
theorem forall₂_entries {es : List (Value × Value)} {items : List (Scalar × Tree)}
    (hkeys : es.map Prod.fst = items.map fun e => e.1.value)
    (h : List.Forall₂ (Denotes heap) (es.map Prod.snd) (items.map Prod.snd)) :
    List.Forall₂ (fun e i => e.1 = i.1.value ∧ Denotes heap e.2 i.2) es items := by
  induction es generalizing items with
  | nil =>
    cases items with
    | nil => exact .nil
    | cons i items => cases hkeys
  | cons e es ih =>
    cases items with
    | nil => cases hkeys
    | cons i items =>
      simp only [List.map_cons, List.cons.injEq, List.forall₂_cons] at hkeys h
      exact .cons ⟨hkeys.1, h.1⟩ (ih hkeys.2 h.2)

section Entries

variable {rt : Runtime} {τ : Type} {es : List (Value × Value)} {items : List (Scalar × Tree)}
  (hes : List.Forall₂ (fun e i => e.1 = i.1.value ∧ Denotes heap e.2 i.2) es items)

include hes

theorem forall₂_keys : es.map Prod.fst = items.map fun i => i.1.value := by
  refine List.forall₂_eq_eq_eq ▸ ?_
  rw [List.forall₂_map_left_iff, List.forall₂_map_right_iff]
  exact hes.imp fun e i h => h.1

theorem exists_entry {k : Scalar} (h : (k, t) ∈ items) :
    ∃ w, (k.value, w) ∈ es ∧ Denotes heap w t := by
  obtain ⟨⟨k', w⟩, hmem⟩ := exists_mem_zip hes.flip.length_eq h
  obtain ⟨hkey, hw⟩ := (List.forall₂_iff_zip.mp hes.flip).2 hmem
  dsimp only at hkey
  exact ⟨w, hkey ▸ (List.of_mem_zip hmem).2, hw⟩

theorem exists_item {s : GoString} {w : Value} (h : (.string s, w) ∈ es) :
    ∃ t, (.string s, t) ∈ items := by
  obtain ⟨⟨k, t⟩, hmem⟩ := exists_mem_zip hes.length_eq h
  obtain ⟨hkey, -⟩ := (List.forall₂_iff_zip.mp hes).2 hmem
  cases k with
  | string s' =>
    cases hkey
    exact ⟨t, (List.of_mem_zip hmem).2⟩
  | _ => cases hkey

/-- The value that is found for a field is equal to the tree for it. -/
theorem exists_found {f : Field τ} (hrem : f.isRemainder = false) (h : FieldTree rt items f t) :
    (∃ w, Found rt es f w ∧ Denotes heap w t) ∧ sizeOf t < sizeOf (Tree.dict items) := by
  rw [FieldTree, hrem, if_neg Bool.false_ne_true] at h
  obtain hname | ⟨hno, hsnake⟩ := h
  · obtain ⟨w, hmem, hw⟩ := exists_entry hes hname
    exact ⟨⟨w, .inl hmem, hw⟩, sizeOf_entry_lt hname⟩
  · obtain ⟨w, hmem, hw⟩ := exists_entry hes hsnake
    refine ⟨⟨w, .inr ⟨fun u hu => ?_, hmem⟩, hw⟩, sizeOf_entry_lt hsnake⟩
    obtain ⟨t', ht'⟩ := exists_item hes hu
    exact hno t' ht'

end Entries

/-- A dict has these trees under the names by which the fields look it up. What is under its
other keys can be anything. -/
inductive Picked {τ : Type} (rt : Runtime) (fields : List (Field τ)) (heap : Heap) :
    Value → List (Scalar × Tree) → Prop
  | dict {r : Nat} {es picked : List (Value × Value)} {items : List (Scalar × Tree)}
    (hr : heap[r]? = some (.dict es)) (hsub : picked ⊆ es)
    (hpicked : List.Forall₂ (fun e i => e.1 = i.1.value ∧ Denotes heap e.2 i.2) picked items)
    (hall : ∀ e ∈ es, ∀ f ∈ fields, e.1 = .string (utf8 f.name) ∨
      e.1 = .string (utf8 (snakeCase rt f.name)) → e ∈ picked) :
    Picked rt fields heap (.ref r) items

/-- All of a dict that is equal to a tree can be picked. -/
theorem Denotes.picked {τ : Type} {v : Value} {items : List (Scalar × Tree)} (rt : Runtime)
    (fields : List (Field τ)) (h : Denotes heap v (.dict items)) :
    Picked rt fields heap v items := by
  cases h with
  | dict hr hkeys hvs =>
    exact .dict hr (List.Subset.refl _) (forall₂_entries hkeys hvs) fun e he _ _ _ => he

/-- The value that is found for a field in a dict is among those that are picked. -/
theorem exists_found_of_picked {τ : Type} {rt : Runtime} {fields : List (Field τ)}
    {es picked : List (Value × Value)} {items : List (Scalar × Tree)} (hsub : picked ⊆ es)
    (hpicked : List.Forall₂ (fun e i => e.1 = i.1.value ∧ Denotes heap e.2 i.2) picked items)
    (hall : ∀ e ∈ es, ∀ f ∈ fields, e.1 = .string (utf8 f.name) ∨
      e.1 = .string (utf8 (snakeCase rt f.name)) → e ∈ picked)
    {f : Field τ} (hf : f ∈ fields) (hrem : f.isRemainder = false) (h : FieldTree rt items f t) :
    (∃ w, Found rt es f w ∧ Denotes heap w t) ∧ sizeOf t < sizeOf (Tree.dict items) := by
  obtain ⟨⟨w, hfound, hw⟩, hlt⟩ := exists_found hpicked hrem h
  refine ⟨⟨w, ?_, hw⟩, hlt⟩
  obtain hname | ⟨hno, hsnake⟩ := hfound
  · exact .inl (hsub hname)
  · exact .inr ⟨fun u hu => hno u (hall _ hu f hf (.inl rfl)), hsub hsnake⟩

/-- What a value that is equal to a tree has become shows the tree. -/
theorem Holds.shown {P : Set (Nat × Nat)} {ω : Origins} {g : Graph}
    (hg : Traced (.ofHeap heap) P ω g) (hdistinct : (Graph.ofHeap heap).KeysDistinct) {a : Prop}
    {w : Value} (hu : Denotes heap u t) (hw : Holds (.ofHeap heap) ω a u w) : Shown g w t := by
  induction t using Tree.induct generalizing a u w with
  | none =>
    cases hu
    obtain rfl := hw.same fun h => Graph.not_isDict (s := .other) rfl (by simp) h.2
    exact .none
  | scalar k =>
    cases hu
    obtain rfl := hw.same fun h => Graph.not_isDict (s := .other) (by cases k <;> rfl) (by simp) h.2
    exact .scalar k
  | symbol module attr =>
    cases hu
    obtain rfl := hw.same fun h => Graph.not_isDict (s := .other) rfl (by simp) h.2
    exact .symbol module attr
  | tuple items ih =>
    cases hu with
    | tuple hvs =>
      obtain rfl := hw.same fun h => Graph.not_isDict (s := .tuple _) rfl (by simp) h.2
      exact .tuple (forall₂_imp_of_mem hvs fun t ht v hv =>
        ih t ht hv (holds_self (a := False) fun h => h.1))
  | object cls arguments ihcls ih =>
    cases hu with
    | object hcls hvs =>
      obtain rfl := hw.same fun h => Graph.not_isDict (s := .object _) rfl (by simp) h.2
      exact .object (ihcls hcls (holds_self (a := False) fun h => h.1))
        (forall₂_imp_of_mem hvs fun t ht v hv =>
          ih t ht hv (holds_self (a := False) fun h => h.1))
  | list items ih =>
    cases hu with
    | @list r vs _ hr hvs =>
      obtain rfl := hw.same fun h => Graph.not_isDict (ofHeap_shape_list hr) (by simp) h.2
      have hnode := (Graph.shape_eq_list.mp (ofHeap_shape_list hr)).2
      obtain ⟨vs', hvs', hlength, -⟩ := hg.toKept.list hnode
      refine .list hvs' (List.forall₂_iff_get.mpr ⟨hlength.trans hvs.length_eq, fun i hi hi' => ?_⟩)
      have hi₀ : i < vs.length := hlength ▸ hi
      have hitem := hg.held hnode i
      rw [Graph.item_of_list hvs', List.getD_eq_getElem _ _ hi₀, List.getD_eq_getElem _ _ hi]
        at hitem
      exact ih _ (List.getElem_mem hi') ((List.forall₂_iff_get.mp hvs).2 i hi₀ hi') hitem
  | dict items ih =>
    cases hu with
    | @dict r es _ hr hkeys hvs =>
      have hes := forall₂_entries hkeys hvs
      have hshape := ofHeap_shape_dict hr
      by_cases ha : a
      · -- a map that was made of the dict
        obtain ⟨s, rfl, hs⟩ := hw.map es ha hshape
        obtain ⟨m, hm, hof⟩ := hg.map hs
        refine .stringMap hm (fun k => ⟨fun hk => ?_, fun ⟨t, ht⟩ => ?_⟩) fun {k v t} hv ht => ?_
        · obtain ⟨v, hv⟩ := Option.isSome_iff_exists.mp (AList.lookup_isSome.mpr hk)
          obtain ⟨v₀, hv₀, -⟩ := hof.lookup k v hv
          exact exists_item hes hv₀
        · obtain ⟨v₀, hv₀, -⟩ := exists_entry hes ht
          exact hof.mem k v₀ hv₀
        · obtain ⟨v₀, hv₀, hholds⟩ := hof.lookup k v hv
          obtain ⟨v₁, hv₁, hdenotes⟩ := exists_entry hes ht
          obtain rfl := value_unique (hdistinct _ _ hshape) hv₀ hv₁
          exact ih _ ht hdenotes hholds
      · obtain rfl := hw.same fun h => ha h.1
        have hnode : (Graph.ofHeap heap)[r]? = some (.cell (.dict es)) := by
          rw [ofHeap_node, hr]
          rfl
        refine .dict (hg.toKept.node hnode (by simp)) hkeys
          (forall₂_imp_of_mem hvs fun t ht v hv => ?_)
        obtain ⟨e, he, rfl⟩ := List.mem_map.mp ht
        exact ih e he hv (holds_self (a := False) fun h => h.1)
  | set items =>
    cases hu with
    | @set r _ hr =>
      obtain rfl := hw.same fun h => Graph.not_isDict (ofHeap_shape_set hr) (by simp) h.2
      have hnode : (Graph.ofHeap heap)[r]? = some (.cell (.set (items.map Scalar.value))) := by
        rw [ofHeap_node, hr]
        rfl
      exact .set (hg.toKept.node hnode (by simp))

/-- The recursion over the children of a value goes no deeper than its tree. -/
theorem Denotes.within {depth : Nat} (h : Denotes heap u t) (hdepth : sizeOf t ≤ depth) :
    Within (Graph.ofHeap heap).children depth u := by
  induction depth generalizing u t with
  | zero => exact absurd (sizeOf_pos t) (Nat.not_lt.mpr hdepth)
  | succ depth ih =>
    intro v hv
    cases h with
    | @list r vs items hr hvs =>
      rw [Graph.children_list (ofHeap_shape_list hr)] at hv
      obtain ⟨t, hmem⟩ := exists_mem_zip hvs.length_eq hv
      have hlt := List.sizeOf_lt_of_mem (List.of_mem_zip hmem).2
      simp only [Tree.list.sizeOf_spec] at hdepth
      exact ih ((List.forall₂_iff_zip.mp hvs).2 hmem) (by omega)
    | @dict r es items hr hkeys hvs =>
      rw [Graph.children_dict (ofHeap_shape_dict hr)] at hv
      obtain ⟨e, he, hev⟩ := List.mem_filterMap.mp hv
      have hall := forall₂_entries hkeys hvs
      obtain ⟨i, hmem⟩ := exists_mem_zip hall.length_eq he
      have hlt := sizeOf_entry_lt (List.of_mem_zip hmem).2
      obtain ⟨k, w⟩ := e
      cases k with
      | string s =>
        cases hev
        exact ih ((List.forall₂_iff_zip.mp hall).2 hmem).2 (by omega)
      | _ => cases hev
    | scalar k => cases k <;> cases hv
    | set hr =>
      simp [Graph.children, ofHeap_shape_set hr] at hv
    | _ => cases hv

end Denoted

/-! ## Binding -/

section Binding

variable {τ : Type} {rt : Runtime} {typ : τ → DestKind τ} {S : Set τ}
  {I : Set (Nat × Nat) → Prop} {heap : Heap} {depth n : Nat}

/-- The value is what a value holds that is equal to the tree. -/
def Held (heap : Heap) (ω : Origins) (w : Value) (t : Tree) : Prop :=
  ∃ u a, Denotes heap u t ∧ Holds (.ofHeap heap) ω a u w

/-- The binding of one field, from a dict. -/
def bindField (rt : Runtime) (typ : τ → DestKind τ) (depth n : Nat) (call : List Nat) (v : Value)
    (es : List (Value × Value)) (p : Field τ × Nat) (g : Graph) : Except Stop (Bound × Graph) :=
  if p.1.isRemainder then bind rt typ depth n (p.2 :: call) v (typ p.1.type) p.1.reqSK g
  else
    match p.1.find rt es with
    | none => .error (.error ⟨[], lit "key " ++ utf8 p.1.name ++ lit " not found"⟩)
    | some w =>
      (bind rt typ depth n (p.2 :: call) w (typ p.1.type) p.1.reqSK g).mapError
        (.wrap (utf8 p.1.name))

theorem bind_dict {call : List Nat} {v : Value} {es : List (Value × Value)}
    {fields : List (Field τ)} {reqSK : Bool} {g : Graph} (hv : g.shape v = .dict es) :
    bind rt typ depth (n + 1) call v (.struct fields) reqSK g =
      (bindEach (bindField rt typ depth n call v es) fields.zipIdx g).map
        fun p => (.struct p.1, p.2) := by
  simp only [bind, hv]
  rfl

theorem bindKey_of_faithful {g : Graph} {v : Value} {key : KeyKind} {k : Key}
    (h : FaithfulKey v key k) : bindKey g v key = .ok k := by
  cases h with
  | int h =>
    simp only [bindKey, bindInt, wrap_eq_self_iff.mpr h]
    rfl
  | _ => rfl

theorem setInterface_of_ne {g : Graph} {v : Value} (h : v ≠ .none) :
    setInterface v g = .ok (.interface v, g) := by
  cases v with
  | none => exact absurd rfl h
  | _ => rfl

/-- The destination holds the tree, where the maps have these origins. -/
def Stores (rt : Runtime) (typ : τ → DestKind τ) (heap : Heap) (t : Tree) (kind : DestKind τ)
    (ω : Origins) (b : Bound) : Prop := Stored rt typ (Held heap ω) t kind b

theorem Stores.mono {t : Tree} {kind : DestKind τ} {ω ω' : Origins} {b : Bound} (hle : ω.Le ω')
    (h : Stores rt typ heap t kind ω b) : Stores rt typ heap t kind ω' b :=
  Stored.mono (fun _ _ ⟨u, a, hu, hw⟩ => ⟨u, a, hu, hw.mono hle⟩) h

/-- What binding at a smaller depth does. -/
def StoresAll (rt : Runtime) (typ : τ → DestKind τ) (S : Set τ) (I : Set (Nat × Nat) → Prop)
    (heap : Heap) (depth n : Nat) : Prop :=
  ∀ {s t}, s ∈ S → Storable rt typ t (typ s) → Reaches n t (typ s) → sizeOf t ≤ depth →
    ∀ (place : Option (Nat × Nat)) {call u w reqSK P ω g}, Traced (.ofHeap heap) P ω g → I P →
      Holds (.ofHeap heap) ω (Replaced P place) u w →
      Settled (.ofHeap heap) P (Replaced P place) u → ((typ s).TakesDicts → ¬Replaced P place) →
      Denotes heap u t →
      Binds (.ofHeap heap) ω I (Stores rt typ heap t (typ s))
        (bind rt typ depth n call w (typ s) reqSK g)

theorem reaches_of_lt {t t' : Tree} {s : DestKind τ} (hlt : sizeOf t' < sizeOf t)
    (hn : 2 * sizeOf t ≤ n + 1) : Reaches n t' s := by
  cases s <;> simp only [Reaches] <;> omega

/-- A value that was not read from a list is as it was. -/
theorem StoresAll.self (h : StoresAll rt typ S I heap depth n) {s : τ} {t : Tree} (hs : s ∈ S)
    (ht : Storable rt typ t (typ s)) (hn : Reaches n t (typ s))
    (hdepth : sizeOf t ≤ depth) {call : List Nat} {u : Value} {reqSK : Bool}
    {P : Set (Nat × Nat)} {ω : Origins} {g : Graph} (hg : Traced (.ofHeap heap) P ω g) (hI : I P)
    (hu : Denotes heap u t) :
    Binds (.ofHeap heap) ω I (Stores rt typ heap t (typ s))
      (bind rt typ depth n call u (typ s) reqSK g) :=
  h hs ht hn hdepth none hg hI (holds_self fun h => not_replaced_none h.1)
    (fun h => absurd h not_replaced_none) (fun _ => not_replaced_none) hu

variable {s : τ} {call : List Nat} {reqSK : Bool} {P : Set (Nat × Nat)} {ω : Origins} {g : Graph}
  (hS : Sturdy typ S I) (ih : StoresAll rt typ S I heap depth n) (hs : s ∈ S)
  (hg : Traced (.ofHeap heap) P ω g) (hI : I P)

include hS ih hs hg hI

theorem binds_list {elem : τ} (hk : typ s = .slice elem) {r : Nat} {vs : List Value}
    {items : List Tree} (hr : heap[r]? = some (.list vs))
    (hvs : List.Forall₂ (Denotes heap) vs items)
    (hitems : ∀ t ∈ items, Storable rt typ t (typ elem))
    (hn : 2 * sizeOf (Tree.list items) ≤ n + 1) (hdepth : sizeOf (Tree.list items) ≤ depth) :
    Binds (.ofHeap heap) ω I (Stores rt typ heap (.list items) (.slice elem))
      (bind rt typ depth (n + 1) call (.ref r) (.slice elem) reqSK g) := by
  have hshape := ofHeap_shape_list hr
  obtain ⟨vs', hshape', hlength⟩ := hg.toKept.shape_list hshape
  have helem : elem ∈ S := hS.parts s hs elem (by rw [hk]; exact List.mem_singleton_self elem)
  have hrange : (List.range vs.length).map (fun i => vs.getD i .none) = vs := by
    refine List.ext_getElem (by simp) fun i hi hi' => ?_
    rw [List.getElem_map, List.getElem_range, List.getD_eq_getElem]
  have hall : List.Forall₂ (fun i t => Denotes heap (vs.getD i .none) t ∧ t ∈ items)
      (List.range vs.length) items := by
    have hmap : List.Forall₂ (fun v t => Denotes heap v t ∧ t ∈ items)
        ((List.range vs.length).map fun i => vs.getD i .none) items := by
      rw [hrange]
      exact forall₂_imp_of_mem hvs fun t ht v hv => ⟨hv, ht⟩
    exact List.forall₂_map_left_iff.mp hmap
  simp only [bind, hshape', hlength]
  refine Binds.map (binds_each (T := fun t => Stores rt typ heap t (typ elem)) hall
    (fun t ω ω' b hle h => h.mono hle) (fun i t hit P ω g hg hI => .wrap ?_) hg hI)
    fun ω bs hbs => ?_
  · obtain ⟨hv, ht⟩ := hit
    have hlt := List.sizeOf_lt_of_mem ht
    simp only [Tree.list.sizeOf_spec] at hn hdepth
    have hnode := (Graph.shape_eq_list.mp hshape).2
    refine ih helem (hitems t ht)
      (reaches_of_lt (t := .list items) (by simp; omega) (by simpa using hn)) (by omega)
      (some (r, i)) hg hI ((hg.held hnode i).imp replaced_some)
      (fun hv => hg.toKept.gone (replaced_some.mp hv) hnode) (fun htakes hrepl => ?_) hv
    rw [hS.slices s hs elem hk htakes P hI] at hrepl
    exact Set.notMem_empty _ (replaced_some.mp hrepl)
  · exact stored_list hbs

theorem binds_tuple {elem : τ} (hk : typ s = .slice elem) {vs : List Value}
    {items : List Tree} (hvs : List.Forall₂ (Denotes heap) vs items)
    (hitems : ∀ t ∈ items, Storable rt typ t (typ elem))
    (hn : 2 * sizeOf (Tree.tuple items) ≤ n + 1) (hdepth : sizeOf (Tree.tuple items) ≤ depth) :
    Binds (.ofHeap heap) ω I (Stores rt typ heap (.tuple items) (.slice elem))
      (bind rt typ depth (n + 1) call (.tuple vs) (.slice elem) reqSK g) := by
  have helem : elem ∈ S := hS.parts s hs elem (by rw [hk]; exact List.mem_singleton_self elem)
  have hall : List.Forall₂ (fun p t => Denotes heap p.1 t ∧ t ∈ items) vs.zipIdx items :=
    forall₂_zipIdx (R := fun v t => Denotes heap v t ∧ t ∈ items)
      (forall₂_imp_of_mem hvs fun t ht v hv => ⟨hv, ht⟩)
  simp only [bind, Graph.shape]
  refine Binds.map (binds_each (T := fun t => Stores rt typ heap t (typ elem)) hall
    (fun t ω ω' b hle h => h.mono hle) (fun p t hpt P ω g hg hI => .wrap ?_) hg hI)
    fun ω bs hbs => ?_
  · obtain ⟨hv, ht⟩ := hpt
    have hlt := List.sizeOf_lt_of_mem ht
    simp only [Tree.tuple.sizeOf_spec] at hn hdepth
    exact ih.self helem (hitems t ht)
      (reaches_of_lt (t := .tuple items) (by simp; omega) (by simpa using hn)) (by omega) hg hI hv
  · exact .tuple hbs.length_eq (List.forall₂_iff_zip.mp hbs).2

theorem binds_set {elem : τ} (hk : typ s = .slice elem) {r : Nat} {items : List Scalar}
    (hr : heap[r]? = some (.set (items.map Scalar.value)))
    (hitems : ∀ k ∈ items, Storable rt typ (.scalar k) (typ elem))
    (hn : 2 * sizeOf (Tree.set items) ≤ n + 1) (hdepth : sizeOf (Tree.set items) ≤ depth) :
    Binds (.ofHeap heap) ω I (Stores rt typ heap (.set items) (.slice elem))
      (bind rt typ depth (n + 1) call (.ref r) (.slice elem) reqSK g) := by
  have hshape := hg.toKept.shape_eq (ofHeap_shape_set hr) (by simp)
  have helem : elem ∈ S := hS.parts s hs elem (by rw [hk]; exact List.mem_singleton_self elem)
  have hperm := entries_perm rt call items
  have hall : List.Forall₂ (fun (p : Value × Nat) k => Denotes heap p.1 (.scalar k) ∧ k ∈ items)
      (rt.entries call (items.map Scalar.value)).zipIdx (rt.entries call items) := by
    refine forall₂_zipIdx (R := fun v k => Denotes heap v (.scalar k) ∧ k ∈ items) ?_
    rw [entries_map, List.forall₂_map_left_iff, List.forall₂_same]
    exact fun k hmem => ⟨.scalar k, hperm.mem_iff.mp hmem⟩
  simp only [bind, hshape]
  refine Binds.map (binds_each (T := fun k => Stores rt typ heap (.scalar k) (typ elem)) hall
    (fun k ω ω' b hle h => h.mono hle) (fun p k hpk P ω g hg hI => .wrap ?_) hg hI)
    fun ω bs hbs => ?_
  · obtain ⟨hv, hmem⟩ := hpk
    have hlt := List.sizeOf_lt_of_mem hmem
    simp only [Tree.set.sizeOf_spec] at hn hdepth
    exact ih.self helem (hitems k hmem)
      (reaches_of_lt (t := .set items) (by simp; omega) (by simpa using hn)) (by simp; omega) hg hI
      hv
  · exact .set hperm hbs.length_eq (List.forall₂_iff_zip.mp hbs).2

omit hS hs in
/-- The fields of a struct, from a dict. -/
theorem binds_fields {v : Value} {es : List (Value × Value)} {items : List (Scalar × Tree)}
    (hkeys : (es.map Prod.fst).Nodup) {fields : List (Field τ × Nat)}
    {qs : List (Field τ × Tree)}
    (hfields : List.Forall₂ (fun p q => p.1 = q.1 ∧ FieldTree rt items q.1 q.2) fields qs)
    (hparts : ∀ q ∈ qs, q.1.type ∈ S ∧ Storable rt typ q.2 (typ q.1.type))
    (hrem : ∀ q ∈ qs, q.1.isRemainder = true →
      Denotes heap v (.dict items) ∧ ∃ key elem, typ q.1.type = .map key elem)
    (hfound : ∀ q ∈ qs, q.1.isRemainder = false → FieldTree rt items q.1 q.2 →
      (∃ w, Found rt es q.1 w ∧ Denotes heap w q.2) ∧ sizeOf q.2 < sizeOf (Tree.dict items))
    (hn : 2 * sizeOf (Tree.dict items) ≤ n) (hdepth : sizeOf (Tree.dict items) ≤ depth) :
    Binds (.ofHeap heap) ω I
      (fun ω => List.Forall₂ (fun q b => Stores rt typ heap q.2 (typ q.1.type) ω b) qs)
      (bindEach (bindField rt typ depth n call v es) fields g) := by
  refine binds_each (forall₂_imp_of_mem hfields fun q hq p h => And.intro h hq)
    (fun q ω ω' b hle h => h.mono hle) (fun p q hpq P ω g hg hI => ?_) hg hI
  obtain ⟨⟨hp, htree⟩, hq⟩ := hpq
  obtain ⟨htype, hstorable⟩ := hparts q hq
  rw [bindField, hp]
  cases hremainder : q.1.isRemainder with
  | true =>
    rw [if_pos rfl]
    obtain ⟨hdenotes, key, elem, hmap⟩ := hrem q hq hremainder
    rw [FieldTree, if_pos hremainder] at htree
    rw [htree] at hstorable ⊢
    have hreaches : Reaches n (.dict items) (typ q.1.type) := by
      rw [hmap]
      exact hn
    exact ih.self htype hstorable hreaches hdepth hg hI hdenotes
  | false =>
    rw [if_neg Bool.false_ne_true]
    obtain ⟨⟨w, hw, hdenotes⟩, hlt⟩ := hfound q hq hremainder htree
    rw [(find_eq_some_iff hkeys).mpr hw]
    exact .wrap (ih.self htype hstorable (reaches_of_lt hlt (by omega)) (by omega) hg hI hdenotes)

theorem binds_dict {fields : List (Field τ)} (hk : typ s = .struct fields) {r : Nat}
    {es : List (Value × Value)} {items : List (Scalar × Tree)} (hr : heap[r]? = some (.dict es))
    (hdenotes : Denotes heap (.ref r) (.dict items)) (hkeys : (es.map Prod.fst).Nodup)
    (hes : List.Forall₂ (fun e i => e.1 = i.1.value ∧ Denotes heap e.2 i.2) es items)
    {ts : List Tree} (hts : List.Forall₂ (FieldTree rt items) fields ts)
    (hb : ∀ q ∈ fields.zip ts, Storable rt typ q.2 (typ q.1.type))
    (hn : 2 * sizeOf (Tree.dict items) ≤ n) (hdepth : sizeOf (Tree.dict items) ≤ depth) :
    Binds (.ofHeap heap) ω I (Stores rt typ heap (.dict items) (.struct fields))
      (bind rt typ depth (n + 1) call (.ref r) (.struct fields) reqSK g) := by
  rw [bind_dict (hg.toKept.shape_eq (ofHeap_shape_dict hr) (by simp))]
  have hfields : List.Forall₂ (fun f q => f = q.1 ∧ FieldTree rt items q.1 q.2) fields
      (fields.zip ts) := forall₂_zip hts
  have hmem : ∀ q ∈ fields.zip ts, q.1 ∈ fields :=
    fun q hq => (List.of_mem_zip (a := q.1) (b := q.2) hq).1
  refine Binds.map (binds_fields ih hg hI hkeys (forall₂_zipIdx hfields) (fun q hq => ?_)
    (fun q hq hrem => ⟨hdenotes, hS.remainders s hs fields hk q.1 (hmem q hq) hrem⟩)
    (fun q _ hrem => exists_found hes hrem) hn hdepth) fun ω bs hbs => ?_
  · have hpart : q.1.type ∈ (typ s).parts := by
      rw [hk]
      exact List.mem_map_of_mem (hmem q hq)
    exact ⟨hS.parts s hs _ hpart, hb q hq⟩
  · exact stored_dict hts hbs

theorem binds_object {fields : List (Field τ)} (hk : typ s = .struct fields) {w : Value}
    {vs : List Value} {cls : Tree} {arguments : List Tree}
    (hvs : List.Forall₂ (Denotes heap) vs arguments) (harguments : arguments.length = fields.length)
    (hb : ∀ q ∈ fields.zip arguments, Storable rt typ q.2 (typ q.1.type))
    (hn : 2 * sizeOf (Tree.object cls arguments) ≤ n + 1)
    (hdepth : sizeOf (Tree.object cls arguments) ≤ depth) :
    Binds (.ofHeap heap) ω I (Stores rt typ heap (.object cls arguments) (.struct fields))
      (bind rt typ depth (n + 1) call (.object w vs) (.struct fields) reqSK g) := by
  have hlength : vs.length = fields.length := hvs.length_eq.trans harguments
  simp only [bind, Graph.shape, hlength, ne_eq, not_true_eq_false, if_false]
  refine Binds.map (binds_each
    (T := fun (q : Field τ × Tree) => Stores rt typ heap q.2 (typ q.1.type))
    (forall₂_imp_of_mem (forall₂_zipIdx (forall₂_zip_right hvs fields))
      fun q hq p h => And.intro h hq) (fun q ω ω' b hle h => h.mono hle)
    (fun p q hpq P ω g hg hI => .wrap ?_) hg hI) fun ω bs hbs => ?_
  · obtain ⟨⟨hfield, hw⟩, hq⟩ := hpq
    obtain ⟨hfield', harg⟩ := List.of_mem_zip (a := q.1) (b := q.2) hq
    have hpart : q.1.type ∈ (typ s).parts := by
      rw [hk]
      exact List.mem_map_of_mem hfield'
    have hlt := List.sizeOf_lt_of_mem harg
    simp only [Tree.object.sizeOf_spec] at hn hdepth
    rw [hfield]
    exact ih.self (hS.parts s hs _ hpart) (hb q hq)
      (reaches_of_lt (t := .object cls arguments) (by simp; omega) (by simpa using hn))
      (by omega) hg hI hw
  · exact .object harguments hbs.length_eq (List.forall₂_iff_zip.mp hbs).2

theorem binds_map {key : KeyKind} {elem : τ} (hk : typ s = .map key elem) {r : Nat}
    {es : List (Value × Value)} {items : List (Scalar × Tree)} (hr : heap[r]? = some (.dict es))
    (hkeys : (es.map Prod.fst).Nodup)
    (hes : List.Forall₂ (fun e i => e.1 = i.1.value ∧ Denotes heap e.2 i.2) es items)
    (hb : ∀ i ∈ items, (∃ k, FaithfulKey i.1.value key k) ∧ Storable rt typ i.2 (typ elem))
    (hn : 2 * sizeOf (Tree.dict items) ≤ n + 1) (hdepth : sizeOf (Tree.dict items) ≤ depth) :
    Binds (.ofHeap heap) ω I (Stores rt typ heap (.dict items) (.map key elem))
      (bind rt typ depth (n + 1) call (.ref r) (.map key elem) reqSK g) := by
  have hshape := hg.toKept.shape_eq (ofHeap_shape_dict hr) (by simp)
  have helem : elem ∈ S := hS.parts s hs elem (by rw [hk]; exact List.mem_singleton_self elem)
  have hperm := entries_perm rt call items
  simp only [bind, hshape]
  refine Binds.map (f := fun l => Bound.map (l.foldl (fun m e => setMapIndex m e.1 e.2) []))
    (binds_each (T := fun (i : Scalar × Tree) ω (b : Key × Bound) =>
      FaithfulKey i.1.value key b.1 ∧ Stores rt typ heap i.2 (typ elem) ω b.2)
      (forall₂_imp_of_mem (forall₂_zipIdx (forall₂_runtime_entries rt call hes))
        fun i hi p h => And.intro h hi) (fun i ω ω' b hle h => ⟨h.1, h.2.mono hle⟩)
      (fun p i hpi P ω g hg hI => ?_) hg hI) fun ω entries hentries => ?_
  · obtain ⟨⟨hkey, hw⟩, hi⟩ := hpi
    have hmem := hperm.mem_iff.mp hi
    obtain ⟨⟨k, hfaithful⟩, hstorable⟩ := hb i hmem
    rw [hkey, bindKey_of_faithful hfaithful]
    exact (ih.self helem hstorable (reaches_of_lt (sizeOf_entry_lt hmem) hn)
      (Nat.le_of_lt (Nat.lt_of_lt_of_le (sizeOf_entry_lt hmem) hdepth)) hg hI hw).map
        fun ω b hstored => ⟨hfaithful, hstored⟩
  · have hdistinct : (entries.map Prod.fst).Nodup := by
      have hrel : List.Forall₂ (fun v k => FaithfulKey v key k)
          ((rt.entries call items).map fun i => i.1.value) (entries.map Prod.fst) := by
        rw [List.forall₂_map_left_iff, List.forall₂_map_right_iff]
        exact hentries.imp fun i b h => h.1
      refine (List.rel_nodup (faithfulKey_biUnique key) hrel).mp ?_
      refine (hperm.map fun i => i.1.value).nodup_iff.mpr ?_
      rwa [forall₂_keys hes] at hkeys
    rw [foldl_setMapIndex (by simpa using hdistinct), List.nil_append]
    exact stored_map hperm hdistinct hentries

omit ih in
theorem binds_interface (hk : typ s = .interface) {place : Option (Nat × Nat)} {u w : Value}
    {t : Tree} (hu : Denotes heap u t) (ht : t ≠ .none)
    (hw : Holds (.ofHeap heap) ω (Replaced P place) u w)
    (hsettled : Settled (.ofHeap heap) P (Replaced P place) u) (hdepth : sizeOf t ≤ depth) :
    Binds (.ofHeap heap) ω I (Stores rt typ heap t .interface)
      (bind rt typ depth (n + 1) call w .interface reqSK g) := by
  have hstands := hg.stands hw
  have hne : w ≠ .none := mt hstands.eq_none_iff.mp (hu.ne_none ht)
  cases reqSK with
  | false =>
    simp only [bind, Bool.false_eq_true, if_false, setInterface_of_ne hne]
    exact binds_ok hg hI (.interface ht ⟨u, _, hu, hw⟩)
  | true =>
    have hrestricts := restricts rt depth call hg.toKept hstands hsettled
    simp only [bind, if_true]
    cases hres : restrictMapKeysToStrings rt depth call w g with
    | none =>
      rw [hres] at hrestricts
      exact absurd (hu.within hdepth) hrestricts
    | some p =>
      obtain ⟨w₁, g₁⟩ := p
      obtain ⟨-, ω₁, hle, hholds, htraced⟩ := restrict_traced rt call hg hw hsettled hres
      have hne₁ : w₁ ≠ .none := mt (htraced.stands hholds).eq_none_iff.mp (hu.ne_none ht)
      simp only [setInterface_of_ne hne₁]
      exact ⟨_, g₁, _, ω₁, rfl, htraced, hS.interfaces s hs hk P _ hI, hle,
        .interface ht ⟨u, _, hu, hholds⟩⟩

end Binding

section Binding

variable {τ : Type} {rt : Runtime} {typ : τ → DestKind τ} {S : Set τ}
  {I : Set (Nat × Nat) → Prop} {heap : Heap} {depth n : Nat} {call : List Nat} {reqSK : Bool}

/-- Binding a value that is equal to a tree that fits. -/
theorem storesAll (rt : Runtime) (hS : Sturdy typ S I)
    (hdistinct : (Graph.ofHeap heap).KeysDistinct) (depth n : Nat) :
    StoresAll rt typ S I heap depth n := by
  induction n with
  | zero =>
    intro s t hs ht hn
    have hpos := sizeOf_pos t
    cases htyp : typ s <;> simp only [htyp, Reaches] at hn <;> omega
  | succ n ih =>
    intro s t hs ht hn hdepth place call u w reqSK P ω g hg hI hw hsettled htakes hu
    obtain ⟨b₀, hb₀⟩ := ht
    generalize hk : typ s = kind at hb₀ hn htakes ⊢
    cases hb₀ with
    | int h =>
      cases hu
      obtain rfl := hw.same fun h => Graph.not_isDict (s := .other) rfl (by simp) h.2
      simp only [bind, bindInt, Scalar.value, wrap_eq_self_iff.mpr h]
      exact binds_ok hg hI (.int h)
    | string s =>
      cases hu
      obtain rfl := hw.same fun h => Graph.not_isDict (s := .other) rfl (by simp) h.2
      exact binds_ok hg hI (.string s)
    | bool b =>
      cases hu
      obtain rfl := hw.same fun h => Graph.not_isDict (s := .other) rfl (by simp) h.2
      exact binds_ok hg hI (.bool b)
    -- what is not a dict is what it was, also in a place that was replaced
    | list hlength h =>
      cases hu with
      | list hr hvs =>
        obtain rfl := hw.same fun h => Graph.not_isDict (ofHeap_shape_list hr) (by simp) h.2
        refine binds_list hS ih hs hg hI hk hr hvs (fun t ht => ?_) hn hdepth
        obtain ⟨b, hmem⟩ := exists_mem_zip hlength ht
        exact ⟨b, h hmem⟩
    | tuple hlength h =>
      cases hu with
      | tuple hvs =>
        obtain rfl := hw.same fun h => Graph.not_isDict (s := .tuple _) rfl (by simp) h.2
        refine binds_tuple hS ih hs hg hI hk hvs (fun t ht => ?_) hn hdepth
        obtain ⟨b, hmem⟩ := exists_mem_zip hlength ht
        exact ⟨b, h hmem⟩
    | set hperm hlength h =>
      cases hu with
      | set hr =>
        obtain rfl := hw.same fun h => Graph.not_isDict (ofHeap_shape_set hr) (by simp) h.2
        refine binds_set hS ih hs hg hI hk hr (fun k hmem => ?_) hn hdepth
        obtain ⟨b, hmem⟩ := exists_mem_zip hlength (hperm.mem_iff.mpr hmem)
        exact ⟨b, h hmem⟩
    -- these are not read from a place that was replaced
    | dict hfields hlength h =>
      cases hu with
      | dict hr hkeys hvs =>
        obtain rfl := hw.same fun h => htakes trivial h.1
        refine binds_dict hS ih hs hg hI hk hr (.dict hr hkeys hvs)
          (hdistinct _ _ (ofHeap_shape_dict hr)) (forall₂_entries hkeys hvs) hfields
          (fun q hq => ?_) (Nat.le_of_lt_succ hn) hdepth
        obtain ⟨b, hmem⟩ := exists_mem_zip hlength hq
        exact ⟨b, h hmem⟩
    | object harguments hlength h =>
      cases hu with
      | object hcls hvs =>
        obtain rfl := hw.same fun h => htakes trivial h.1
        refine binds_object hS ih hs hg hI hk hvs harguments (fun q hq => ?_) (Nat.le_of_lt hn)
          hdepth
        obtain ⟨b, hmem⟩ := exists_mem_zip hlength hq
        exact ⟨b, h hmem⟩
    | map hperm hentries hlength hfaithful h =>
      cases hu with
      | dict hr hkeys hvs =>
        obtain rfl := hw.same fun h => htakes trivial h.1
        refine binds_map hS ih hs hg hI hk hr (hdistinct _ _ (ofHeap_shape_dict hr))
          (forall₂_entries hkeys hvs) (fun i hi => ?_) hn hdepth
        obtain ⟨b, hmem⟩ := exists_mem_zip hlength (hperm.mem_iff.mpr hi)
        exact ⟨⟨b.1, hfaithful hmem⟩, b.2, h hmem⟩
    | interface ht _ =>
      exact binds_interface hS hs hg hI hk hu ht hw hsettled hdepth

/-! ## Fields that come later -/

theorem bindEach_append {α β : Type} {f : α → Graph → Except Stop (β × Graph)} {l l' : List α}
    {bs bs' : List β} {g g₁ g₂ : Graph} (h : bindEach f l g = .ok (bs, g₁))
    (h' : bindEach f l' g₁ = .ok (bs', g₂)) : bindEach f (l ++ l') g = .ok (bs ++ bs', g₂) := by
  induction l generalizing g bs with
  | nil =>
    cases h
    exact h'
  | cons a l ih =>
    rw [bindEach] at h
    obtain ⟨⟨b, g'⟩, hb, h⟩ := bind_eq_ok.mp h
    obtain ⟨⟨bs₁, g₁'⟩, hbs, h⟩ := bind_eq_ok.mp h
    cases h
    rw [List.cons_append, bindEach]
    exact bind_eq_ok.mpr ⟨(b, g'), hb, bind_eq_ok.mpr ⟨(bs₁ ++ bs', g₂), ih hbs, rfl⟩⟩

theorem exists_append_of_forall₂ {α γ : Type} {R : α → γ → Prop} {l l' : List α} {qs : List γ}
    (h : List.Forall₂ R (l ++ l') qs) :
    ∃ q q', qs = q ++ q' ∧ List.Forall₂ R l q ∧ List.Forall₂ R l' q' := by
  induction l generalizing qs with
  | nil => exact ⟨[], qs, rfl, .nil, h⟩
  | cons a l ih =>
    cases h with
    | cons hab h =>
      obtain ⟨q, q', rfl, hq, hq'⟩ := ih h
      exact ⟨_ :: q, q', rfl, .cons hab hq, hq'⟩

/-- What is bound from the fields `l` of a struct, whose fields with their trees are `Z`. -/
theorem parts_of_fields {S : Set τ} {items : List (Scalar × Tree)} {l : List (Field τ)}
    {qs Z : List (Field τ × Tree)}
    (h : List.Forall₂ (fun f q => (f = q.1 ∧ FieldTree rt items q.1 q.2) ∧ q ∈ Z) l qs)
    (hZ : ∀ q ∈ Z, Storable rt typ q.2 (typ q.1.type)) (hl : ∀ f ∈ l, f.type ∈ S) :
    ∀ q ∈ qs, q.1 ∈ l ∧ q.1.type ∈ S ∧ Storable rt typ q.2 (typ q.1.type) := by
  intro q hq
  obtain ⟨f, hmem⟩ := exists_mem_zip h.flip.length_eq hq
  obtain ⟨⟨rfl, -⟩, hqZ⟩ := (List.forall₂_iff_zip.mp h.flip).2 hmem
  have hf := (List.of_mem_zip hmem).2
  exact ⟨hf, hl _ hf, hZ q hqZ⟩

/-- A struct that is bound from a dict holds the trees under the names of its fields where no
list of dicts is read by the fields that come after the first that asks for string keys. -/
theorem bind_stored {early late : List (Field τ)} {S₁ S₂ : Set τ} (rt : Runtime)
    (h₁ : Sturdy typ S₁ fun P => P = ∅) (h₂ : Sturdy typ S₂ fun _ => True)
    (hearly : ∀ f ∈ early, f.type ∈ S₁) (hlate : ∀ f ∈ late, f.type ∈ S₂)
    (hrem : ∀ f ∈ early ++ late, f.isRemainder = false)
    (hdistinct : (Graph.ofHeap heap).KeysDistinct) {v : Value} {items : List (Scalar × Tree)}
    (hv : Picked rt (early ++ late) heap v items)
    (hstorable : Storable rt typ (.dict items) (.struct (early ++ late)))
    (hn : 2 * sizeOf (Tree.dict items) ≤ n) (hdepth : sizeOf (Tree.dict items) ≤ depth) :
    ∃ b g, bind rt typ depth (n + 1) call v (.struct (early ++ late)) reqSK (.ofHeap heap) =
      .ok (b, g) ∧ Stored rt typ (Shown g) (.dict items) (.struct (early ++ late)) b := by
  obtain ⟨b₀, hb₀⟩ := hstorable
  cases hv with
  | @dict r es picked _ hr hsub hpicked hlooked =>
  cases hb₀ with
  | @dict _ _ ts bs₀ hfields hlength h =>
  have hnodup := hdistinct _ _ (ofHeap_shape_dict hr)
  have hstorables : ∀ q ∈ (early ++ late).zip ts, Storable rt typ q.2 (typ q.1.type) := by
    intro q hq
    obtain ⟨b, hmem⟩ := exists_mem_zip hlength hq
    exact ⟨b, h hmem⟩
  have hall := forall₂_imp_of_mem (forall₂_zip hfields) fun q hq f h => And.intro h hq
  obtain ⟨qs, qs', hqs, hq, hq'⟩ := exists_append_of_forall₂ hall
  -- no field is given the whole dict, so that only what is picked is looked at
  have hremainder : ∀ f ∈ early ++ late, f.isRemainder = true →
      Denotes heap (.ref r) (.dict items) ∧ ∃ key elem, typ f.type = .map key elem := by
    intro f hf htrue
    rw [hrem f hf] at htrue
    cases htrue
  -- nothing is replaced while the early fields are bound
  have hparts := parts_of_fields hq hstorables hearly
  have hfirst : Binds (.ofHeap heap) .empty (fun P => P = ∅)
      (fun ω => List.Forall₂ (fun q b => Stores rt typ heap q.2 (typ q.1.type) ω b) qs)
      (bindEach (bindField rt typ depth n call (.ref r) es) early.zipIdx (.ofHeap heap)) :=
    binds_fields (storesAll rt h₁ hdistinct depth n) traced_self rfl hnodup
      (forall₂_zipIdx (hq.imp fun f q h => h.1)) (fun q hq => (hparts q hq).2)
      (fun q hq => hremainder q.1 (List.mem_append_left _ (hparts q hq).1))
      (fun q hq => exists_found_of_picked hsub hpicked hlooked
        (List.mem_append_left _ (hparts q hq).1)) hn hdepth
  obtain ⟨bs, g₁, P₁, ω₁, hbs, hg₁, -, -, hstores⟩ := hfirst
  -- the late fields read no list of dicts, whatever has been replaced
  have hparts' := parts_of_fields hq' hstorables hlate
  have hsecond : Binds (.ofHeap heap) ω₁ (fun _ => True)
      (fun ω => List.Forall₂ (fun q b => Stores rt typ heap q.2 (typ q.1.type) ω b) qs')
      (bindEach (bindField rt typ depth n call (.ref r) es) (late.zipIdx (0 + early.length)) g₁) :=
    binds_fields (storesAll rt h₂ hdistinct depth n) hg₁ trivial hnodup
      (forall₂_zipIdx (hq'.imp fun f q h => h.1)) (fun q hq => (hparts' q hq).2)
      (fun q hq => hremainder q.1 (List.mem_append_right _ (hparts' q hq).1))
      (fun q hq => exists_found_of_picked hsub hpicked hlooked
        (List.mem_append_right _ (hparts' q hq).1)) hn hdepth
  obtain ⟨bs', g₂, P₂, ω₂, hbs', hg₂, -, hle, hstores'⟩ := hsecond
  refine ⟨.struct (bs ++ bs'), g₂, ?_, ?_⟩
  · rw [bind_dict (ofHeap_shape_dict hr), List.zipIdx_append, bindEach_append hbs hbs']
    rfl
  · have happend : List.Forall₂ (fun q b => Stores rt typ heap q.2 (typ q.1.type) ω₂ b)
        ((early ++ late).zip ts) (bs ++ bs') := by
      rw [hqs]
      exact List.rel_append (hstores.imp fun q b h => h.mono hle) hstores'
    exact (stored_dict hfields happend).mono fun w t ⟨u, a, hu, hw⟩ => hw.shown hg₂ hdistinct hu

end Binding

end Isthmus.Pickle
