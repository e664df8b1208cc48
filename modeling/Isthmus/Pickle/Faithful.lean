import Isthmus.Pickle.Bindable
import Isthmus.Pickle.Heaps
import Isthmus.Pickle.Instructions
import Mathlib.Data.List.FinRange
import Mathlib.Data.List.Perm.Basic

/-!
# What a destination holds

A destination without tags and interfaces holds what it was bound from where every
integer fits it. `SetInt` does not look: it keeps the low bits of one that does not.

## Main definitions

- `Faithful`: the destination holds the value
- `Visit.Exact`: the integer of the call fits its destination

## Main results

- `bind_faithful_iff`: when binding is faithful
-/

namespace Isthmus.Pickle

open Recursion

/-! ## Integers -/

/-- The integer is one of the size. -/
def IntSize.Fits : IntSize → Int → Prop
  | .int16, n => -0x8000 ≤ n ∧ n < 0x8000
  | .int32, n => FitsInt32 n
  | _, n => -0x8000000000000000 ≤ n ∧ n < 0x8000000000000000

theorem wrap_fits (size : IntSize) (n : Int) : size.Fits (size.wrap n) := by
  cases size with
  | int32 => exact fits_toInt32 n
  | int16 =>
    have hle := Int.le_bmod (x := n) (m := 0x10000) (by decide)
    have hlt := Int.bmod_lt (x := n) (m := 0x10000) (by decide)
    simp only [IntSize.Fits, IntSize.wrap]
    omega
  | int | int64 =>
    have hle := Int.le_bmod (x := n) (m := 0x10000000000000000) (by decide)
    have hlt := Int.bmod_lt (x := n) (m := 0x10000000000000000) (by decide)
    simp only [IntSize.Fits, IntSize.wrap]
    omega

/-- An integer is kept as it is exactly if it is one of the size. -/
theorem wrap_eq_self_iff {size : IntSize} {n : Int} : size.wrap n = n ↔ size.Fits n := by
  constructor
  · intro h
    rw [← h]
    exact wrap_fits size n
  · intro h
    cases size with
    | int32 => exact toInt32_of_fits h
    | int16 | int | int64 =>
      obtain ⟨hle, hlt⟩ := h
      simp only [IntSize.wrap]
      rw [Int.bmod_eq_of_le] <;> omega

/-! ## Faithful destinations -/

section Faithful

/-- The key is the one of the dict. -/
inductive FaithfulKey : Value → KeyKind → Key → Prop
  | int {n : Int} {size : IntSize} (h : size.Fits n) : FaithfulKey (.int n) (.int size) (.int n)
  | string (s : GoString) : FaithfulKey (.string s) .string (.string s)
  | bool (b : Bool) : FaithfulKey (.bool b) .bool (.bool b)

variable {τ : Type} (rt : Runtime) (typ : τ → DestKind τ) (g : Graph)

/-- The value for the field is under its name, or else under the name in snake case. -/
def Found (items : List (Value × Value)) (f : Field τ) (w : Value) : Prop :=
  (.string (utf8 f.name), w) ∈ items ∨
    (∀ u, (.string (utf8 f.name), u) ∉ items) ∧
      (.string (utf8 (snakeCase rt f.name)), w) ∈ items

/-- The destination holds the value: the same integers, strings and booleans, the elements
in their order, one entry for each entry of a dict, and what was found for each field. -/
inductive Faithful : Value → DestKind τ → Bound → Prop
  | int {n : Int} {size : IntSize} (h : size.Fits n) : Faithful (.int n) (.int size) (.int n)
  | string (s : GoString) : Faithful (.string s) .string (.string s)
  | bool (b : Bool) : Faithful (.bool b) .bool (.bool b)
  | list {v : Value} {r : Nat} {items : List Value} {elem : τ} {bs : List Bound}
    (hv : g.shape v = .list r items) (hlength : items.length = bs.length)
    (h : ∀ {w b}, (w, b) ∈ items.zip bs → Faithful w (typ elem) b) :
    Faithful v (.slice elem) (.slice bs)
  | tuple {v : Value} {items : List Value} {elem : τ} {bs : List Bound}
    (hv : g.shape v = .tuple items) (hlength : items.length = bs.length)
    (h : ∀ {w b}, (w, b) ∈ items.zip bs → Faithful w (typ elem) b) :
    Faithful v (.slice elem) (.slice bs)
  | set {v : Value} {items items' : List Value} {elem : τ} {bs : List Bound}
    (hv : g.shape v = .set items) (hperm : items'.Perm items)
    (hlength : items'.length = bs.length)
    (h : ∀ {w b}, (w, b) ∈ items'.zip bs → Faithful w (typ elem) b) :
    Faithful v (.slice elem) (.slice bs)
  | dict {v : Value} {items : List (Value × Value)} {fields : List (Field τ)}
    {ws : List Value} {bs : List Bound} (hv : g.shape v = .dict items)
    (hfound : List.Forall₂ (Found rt items) fields ws)
    (hlength : (fields.zip ws).length = bs.length)
    (h : ∀ {p b}, (p, b) ∈ (fields.zip ws).zip bs → Faithful p.2 (typ p.1.type) b) :
    Faithful v (.struct fields) (.struct bs)
  | object {v : Value} {arguments : List Value} {fields : List (Field τ)} {bs : List Bound}
    (hv : g.shape v = .object arguments) (harguments : arguments.length = fields.length)
    (hlength : (fields.zip arguments).length = bs.length)
    (h : ∀ {p b}, (p, b) ∈ (fields.zip arguments).zip bs → Faithful p.2 (typ p.1.type) b) :
    Faithful v (.struct fields) (.struct bs)
  | map {v : Value} {items items' : List (Value × Value)} {key : KeyKind} {elem : τ}
    {entries : List (Key × Bound)} (hv : g.shape v = .dict items) (hperm : items'.Perm items)
    (hdistinct : (entries.map Prod.fst).Nodup) (hlength : items'.length = entries.length)
    (hkeys : ∀ {e b}, (e, b) ∈ items'.zip entries → FaithfulKey e.1 key b.1)
    (h : ∀ {e b}, (e, b) ∈ items'.zip entries → Faithful e.2 (typ elem) b.2) :
    Faithful v (.map key elem) (.map entries)

end Faithful

/-- The integer of the call fits its destination. -/
def Visit.Exact {τ : Type} : Visit τ → Prop
  | .value _ (.int n) (.int size) _ => size.Fits n
  | _ => True

/-- A kind without tags and interfaces. -/
def DestKind.Plain {τ : Type} : DestKind τ → Prop
  | .struct fields => ∀ f ∈ fields, f.tag = []
  | .map key _ => key ≠ .interface
  | .interface => False
  | _ => True

/-! ## Fields -/

section Fields

variable {τ : Type} {rt : Runtime} {f : Field τ} {items : List (Value × Value)} {w : Value}

theorem not_isRemainder (hf : f.tag = []) : f.isRemainder = false := by
  rw [Field.isRemainder, Field.tags, hf]
  rfl

/-- Where each key is there once, what is looked up is what is under the key. -/
theorem find_equals_iff (hkeys : (items.map Prod.fst).Nodup) {k : Value} :
    (items.find? fun e => e.1.equals k).map (·.2) = some w ↔ (k, w) ∈ items := by
  induction items with
  | nil => simp
  | cons e items ih =>
    obtain ⟨k', v⟩ := e
    rw [List.map_cons, List.nodup_cons] at hkeys
    rw [List.find?_cons, List.mem_cons]
    by_cases hk : k' = k
    · subst hk
      have hself : k'.equals k' = true := (k'.equals_iff k').mpr rfl
      have hnot : (k', w) ∉ items := fun h => hkeys.1 (List.mem_map.mpr ⟨_, h, rfl⟩)
      simp [hself, hnot, eq_comm]
    · have hne : k'.equals k = false := by
        rw [Bool.eq_false_iff]
        exact fun h => hk ((k'.equals_iff k).mp h)
      have hhead : (k, w) ≠ (k', v) := fun h => hk (congrArg Prod.fst h).symm
      simp only [hne, hhead, false_or]
      exact ih hkeys.2

theorem find_eq_some_iff (hkeys : (items.map Prod.fst).Nodup) :
    f.find rt items = some w ↔ Found rt items f w := by
  unfold Field.find Found
  rw [Option.or_eq_some_iff, find_equals_iff hkeys, find_equals_iff hkeys]
  refine or_congr_right (and_congr_left' ?_)
  rw [Option.eq_none_iff_forall_ne_some]
  exact forall_congr' fun u => (find_equals_iff hkeys).not

end Fields

/-! ## Faithful destinations are exact -/

section Exact

variable {τ : Type} {rt : Runtime} {typ : τ → DestKind τ} {g : Graph} {n : Nat}

/-- Each key of a dict is there once. -/
def Graph.KeysDistinct (g : Graph) : Prop :=
  ∀ v items, g.shape v = .dict items → (items.map Prod.fst).Nodup

theorem keysDistinct_ofHeap {heap : Heap} (h : heap.WellFormed) :
    (Graph.ofHeap heap).KeysDistinct := by
  intro v items hv
  cases v with
  | ref r =>
    simp only [Graph.shape, Graph.ofHeap, List.getElem?_map] at hv
    cases hr : heap[r]? with
    | none =>
      rw [hr] at hv
      cases hv
    | some c =>
      rw [hr] at hv
      cases c with
      | dict items' =>
        cases hv
        exact (h _ (List.mem_of_getElem? hr)).1
      | _ => cases hv
  | _ => cases hv

/-- The order of a map is some order of its elements. -/
theorem entries_perm {α : Type} (rt : Runtime) (call : List Nat) (l : List α) :
    (rt.entries call l).Perm l := by
  have hperm := Equiv.Perm.ofFn_comp_perm (rt.order call l.length) l.get
  rwa [List.ofFn_get] at hperm

theorem fst_mem_of_mem_zipIdx {α : Type} {l : List α} {p : α × Nat} (hp : p ∈ l.zipIdx) :
    p.1 ∈ l := by
  have hmem := List.mem_map_of_mem (f := Prod.fst) hp
  rwa [List.zipIdx_map_fst] at hmem

theorem exists_mem_zip {α β : Type} {l : List α} {l' : List β} (hlength : l.length = l'.length)
    {a : α} (ha : a ∈ l) : ∃ b, (a, b) ∈ l.zip l' := by
  rw [← List.map_fst_zip (Nat.le_of_eq hlength)] at ha
  obtain ⟨⟨a', b⟩, hmem, rfl⟩ := List.mem_map.mp ha
  exact ⟨b, hmem⟩

theorem exact_of_ne {place : Option (Nat × Nat)} {v : Value} {kind : DestKind τ} {reqSK : Bool}
    (h : ∀ size, kind ≠ .int size) : (Visit.value place v kind reqSK).Exact := by
  cases kind with
  | int size => exact absurd rfl (h size)
  | _ => cases v <;> trivial

theorem FaithfulKey.exact {v : Value} {key : KeyKind} {k : Key} (h : FaithfulKey v key k) :
    (key.visit v : Visit τ).Exact := by
  cases h with
  | int h => exact h
  | _ => exact exact_of_ne fun size h => by cases h

/-- Every integer that a faithful destination was bound from fits. -/
theorem Faithful.exact (hkeys : g.KeysDistinct) (hplain : ∀ t, (typ t).Plain) {call : List Nat}
    {place : Option (Nat × Nat)} {v : Value} {kind : DestKind τ} {reqSK : Bool} {b : Bound}
    (hkind : kind.Plain) (h : Faithful rt typ g v kind b) :
    ∀ x ∈ visits rt typ g n call place v kind reqSK, x.Exact := by
  induction n generalizing call place v kind reqSK b with
  | zero => exact List.forall_mem_singleton.mpr trivial
  | succ n ih =>
    cases h with
    | int h => exact List.forall_mem_singleton.mpr h
    | string s => exact List.forall_mem_singleton.mpr trivial
    | bool b => exact List.forall_mem_singleton.mpr trivial
    | list hv hlength h =>
      simp only [visits, hv]
      refine List.forall_mem_cons.mpr ⟨exact_of_ne (by simp), fun x hx => ?_⟩
      obtain ⟨i, hi, hx⟩ := List.mem_flatMap.mp hx
      obtain ⟨b, hb⟩ := exists_mem_zip hlength (mem_iff_getD.mpr ⟨i, List.mem_range.mp hi, rfl⟩)
      exact ih (hplain _) (h hb) x hx
    | tuple hv hlength h =>
      simp only [visits, hv]
      refine List.forall_mem_cons.mpr ⟨exact_of_ne (by simp), fun x hx => ?_⟩
      obtain ⟨p, hp, hx⟩ := List.mem_flatMap.mp hx
      obtain ⟨b, hb⟩ := exists_mem_zip hlength (fst_mem_of_mem_zipIdx hp)
      exact ih (hplain _) (h hb) x hx
    | set hv hperm hlength h =>
      simp only [visits, hv]
      refine List.forall_mem_cons.mpr ⟨exact_of_ne (by simp), fun x hx => ?_⟩
      obtain ⟨p, hp, hx⟩ := List.mem_flatMap.mp hx
      have hmem := (entries_perm rt call _).mem_iff.mp (fst_mem_of_mem_zipIdx hp)
      obtain ⟨b, hb⟩ := exists_mem_zip hlength (hperm.mem_iff.mpr hmem)
      exact ih (hplain _) (h hb) x hx
    | @dict _ items fields ws bs hv hfound hlength h =>
      simp only [visits, hv]
      refine List.forall_mem_cons.mpr ⟨exact_of_ne (by simp), fun x hx => ?_⟩
      obtain ⟨p, hp, hx⟩ := List.mem_flatMap.mp hx
      have hf := fst_mem_of_mem_zipIdx hp
      obtain ⟨hlength', hws⟩ := List.forall₂_iff_zip.mp hfound
      obtain ⟨w, hw⟩ := exists_mem_zip hlength' hf
      -- it is the value that is looked up
      have hfind := (find_eq_some_iff (hkeys v items hv)).mpr (hws hw)
      simp only [not_isRemainder (hkind p.1 hf), hfind, Bool.false_eq_true, if_false] at hx
      obtain ⟨b, hb⟩ := exists_mem_zip hlength hw
      exact ih (hplain _) (h hb) x hx
    | object hv harguments hlength h =>
      simp only [visits, hv]
      refine List.forall_mem_cons.mpr ⟨exact_of_ne (by simp), fun x hx => ?_⟩
      obtain ⟨p, hp, hx⟩ := List.mem_flatMap.mp hx
      obtain ⟨b, hb⟩ := exists_mem_zip hlength (fst_mem_of_mem_zipIdx hp)
      exact ih (hplain _) (h hb) x hx
    | map hv hperm hdistinct hlength hks h =>
      simp only [visits, hv]
      refine List.forall_mem_cons.mpr ⟨exact_of_ne (by simp), fun x hx => ?_⟩
      obtain ⟨p, hp, hx⟩ := List.mem_flatMap.mp hx
      have hmem := (entries_perm rt call _).mem_iff.mp (fst_mem_of_mem_zipIdx hp)
      obtain ⟨b, hb⟩ := exists_mem_zip hlength (hperm.mem_iff.mpr hmem)
      obtain rfl | hx := List.mem_cons.mp hx
      · exact (hks hb).exact
      · exact ih (hplain _) (h hb) x hx

end Exact

/-! ## Exact destinations are faithful -/

section Ok

variable {α β : Type}

theorem map_eq_ok {ε : Type} {o : Except ε α} {f : α → β} {b : β} :
    o.map f = .ok b ↔ ∃ a, o = .ok a ∧ f a = b := by
  cases o with
  | error stop => exact iff_of_false (fun h => by cases h) (fun ⟨a, ha, _⟩ => by cases ha)
  | ok a =>
    constructor
    · exact fun h => ⟨a, rfl, Except.ok.inj h⟩
    · rintro ⟨a', ha', rfl⟩
      cases ha'
      rfl

theorem wrap_eq_ok {o : Except Stop α} {key : GoString} {a : α} :
    o.mapError (Stop.wrap key) = .ok a ↔ o = .ok a := by
  cases o with
  | error stop => exact iff_of_false (fun h => by cases h) (fun h => by cases h)
  | ok a' => exact ⟨fun h => congrArg _ (Except.ok.inj h), fun h => congrArg _ (Except.ok.inj h)⟩

end Ok

section Plain

variable {τ : Type} {rt : Runtime} {typ : τ → DestKind τ} {g g' : Graph} {depth n : Nat}

/-- A loop that leaves the graph as it is binds each element on its own. -/
theorem bindEach_plain {α β γ : Type} {f : α → Graph → Except Stop (β × Graph)} (π : α → γ)
    (calls : α → List (Visit τ)) (T : γ → β → Prop) {l : List α} {bs : List β}
    (hf : ∀ a ∈ l, ∀ b g', f a g = .ok (b, g') →
      g' = g ∧ ((∀ x ∈ calls a, x.Exact) → T (π a) b))
    (h : bindEach f l g = .ok (bs, g')) :
    g' = g ∧ ((∀ x ∈ l.flatMap calls, x.Exact) → List.Forall₂ T (l.map π) bs) := by
  induction l generalizing bs with
  | nil =>
    cases h
    exact ⟨rfl, fun _ => .nil⟩
  | cons a l ih =>
    rw [bindEach] at h
    obtain ⟨⟨b, g₁⟩, hb, h⟩ := bind_eq_ok.mp h
    obtain ⟨⟨bs', g₂⟩, hbs, h⟩ := bind_eq_ok.mp h
    cases h
    obtain ⟨rfl, hhead⟩ := hf a List.mem_cons_self b g₁ hb
    obtain ⟨rfl, htail⟩ := ih (fun a' ha' => hf a' (List.mem_cons_of_mem a ha')) hbs
    refine ⟨rfl, fun hexact => ?_⟩
    rw [List.flatMap_cons, List.forall_mem_append] at hexact
    exact .cons (hhead hexact.1) (htail hexact.2)

/-- Such a loop over a list with the numbers of its elements. -/
theorem bindEach_zipIdx {α β : Type} {f : α × Nat → Graph → Except Stop (β × Graph)}
    (calls : α × Nat → List (Visit τ)) (T : α → β → Prop) {l : List α} {bs : List β}
    (hf : ∀ p ∈ l.zipIdx, ∀ b g', f p g = .ok (b, g') →
      g' = g ∧ ((∀ x ∈ calls p, x.Exact) → T p.1 b))
    (h : bindEach f l.zipIdx g = .ok (bs, g')) :
    g' = g ∧ ((∀ x ∈ l.zipIdx.flatMap calls, x.Exact) → List.Forall₂ T l bs) := by
  obtain ⟨hsame, hall⟩ := bindEach_plain Prod.fst calls T hf h
  rw [List.zipIdx_map_fst] at hall
  exact ⟨hsame, hall⟩

/-- The elements of a map that are distinct are all there. -/
theorem foldl_setMapIndex {acc l : List (Key × Bound)} (h : ((acc ++ l).map Prod.fst).Nodup) :
    l.foldl (fun m e => setMapIndex m e.1 e.2) acc = acc ++ l := by
  induction l generalizing acc with
  | nil => rw [List.foldl_nil, List.append_nil]
  | cons e l ih =>
    have hassoc : acc ++ e :: l = (acc ++ [e]) ++ l := by simp
    have hnew : acc.any (fun e' => e'.1 = e.1) = false := by
      rw [List.any_eq_false]
      intro e' he' heq
      rw [List.map_append, List.nodup_append] at h
      exact h.2.2 e'.1 (List.mem_map_of_mem he') e.1 List.mem_cons_self (of_decide_eq_true heq)
    have hset : setMapIndex acc e.1 e.2 = acc ++ [e] := by
      rw [setMapIndex, hnew]
      rfl
    rw [hassoc] at h ⊢
    rw [List.foldl_cons, hset]
    exact ih h

theorem faithfulKey_biUnique (key : KeyKind) :
    Relator.BiUnique fun v k => FaithfulKey v key k := by
  constructor
  · intro v v' k h h'
    cases h <;> cases h' <;> rfl
  · intro v k k' h h'
    cases h <;> cases h' <;> rfl

theorem bindKey_faithful {v : Value} {key : KeyKind} {k : Key} (hkey : key ≠ .interface)
    (h : bindKey g v key = .ok k) (hexact : (key.visit v : Visit τ).Exact) :
    FaithfulKey v key k := by
  cases key with
  | int size =>
    cases v with
    | int n =>
      cases h
      rw [wrap_eq_self_iff.mpr hexact]
      exact .int hexact
    | _ => cases h
  | string =>
    cases v with
    | string s =>
      cases h
      exact .string s
    | _ => cases h
  | bool =>
    cases v with
    | bool b =>
      cases h
      exact .bool b
    | _ => cases h
  | struct => cases h
  | interface => exact absurd rfl hkey

/-- There is a list of what is found for the elements. -/
theorem exists_between_of_forall₂ {α β γ : Type} {R : α → γ → Prop} {S : α × γ → β → Prop}
    {l : List α} {bs : List β} (h : List.Forall₂ (fun a b => ∃ c, R a c ∧ S (a, c) b) l bs) :
    ∃ cs, List.Forall₂ R l cs ∧ List.Forall₂ S (l.zip cs) bs := by
  induction h with
  | nil => exact ⟨[], .nil, .nil⟩
  | cons hab _ ih =>
    obtain ⟨c, hc, hb⟩ := hab
    obtain ⟨cs, hcs, hbs⟩ := ih
    exact ⟨c :: cs, .cons hc hcs, .cons hb hbs⟩

/-- The calls for a field of a dict. -/
def fieldVisits (rt : Runtime) (typ : τ → DestKind τ) (g : Graph) (n : Nat) (call : List Nat)
    (v : Value) (items : List (Value × Value)) (p : Field τ × Nat) : List (Visit τ) :=
  if p.1.isRemainder then visits rt typ g n (p.2 :: call) none v (typ p.1.type) p.1.reqSK
  else
    match p.1.find rt items with
    | none => [.missing]
    | some w => visits rt typ g n (p.2 :: call) none w (typ p.1.type) p.1.reqSK

/-- What binding at a smaller depth does. -/
def FaithfulAll (rt : Runtime) (typ : τ → DestKind τ) (g : Graph) (depth n : Nat) : Prop :=
  ∀ {call v t reqSK b g'} (place : Option (Nat × Nat)),
    bind rt typ depth n call v (typ t) reqSK g = .ok (b, g') →
    g' = g ∧ ((∀ x ∈ visits rt typ g n call place v (typ t) reqSK, x.Exact) →
      Faithful rt typ g v (typ t) b)

variable {call : List Nat} {place : Option (Nat × Nat)} {v : Value} {reqSK : Bool} {b : Bound}
  (ih : FaithfulAll rt typ g depth n)

include ih

/-- The elements of a set or a tuple. -/
theorem faithful_elements {elem : τ} {key : Nat → GoString} {l : List Value} {bs : List Bound}
    (h : bindEach (fun p g => (bind rt typ depth n (p.2 :: call) p.1 (typ elem) reqSK g).mapError
      (.wrap (key p.2))) l.zipIdx g = .ok (bs, g')) :
    g' = g ∧ ((∀ x ∈ l.zipIdx.flatMap fun p =>
        visits rt typ g n (p.2 :: call) none p.1 (typ elem) reqSK, x.Exact) →
      List.Forall₂ (fun w b => Faithful rt typ g w (typ elem) b) l bs) :=
  bindEach_zipIdx _ _ (fun _ _ _ _ hp => ih none (wrap_eq_ok.mp hp)) h

theorem faithful_slice {elem : τ}
    (h : bind rt typ depth (n + 1) call v (.slice elem) reqSK g = .ok (b, g')) :
    g' = g ∧ ((∀ x ∈ visits rt typ g (n + 1) call place v (.slice elem) reqSK, x.Exact) →
      Faithful rt typ g v (.slice elem) b) := by
  cases hshape : g.shape v with
  | list r items =>
    simp only [bind, hshape] at h
    obtain ⟨⟨bs, g₁⟩, hbs, hb⟩ := map_eq_ok.mp h
    cases hb
    have hitems : (List.range items.length).map (fun i => items.getD i .none) = items := by
      refine List.ext_getElem (by simp) fun i hi hi' => ?_
      rw [List.getElem_map, List.getElem_range, List.getD_eq_getElem]
    obtain ⟨hsame, hfaithful⟩ := bindEach_plain (fun i => items.getD i .none)
      (fun i => visits rt typ g n (i :: call) (some (r, i)) (items.getD i .none)
        (typ elem) reqSK) (fun w b => Faithful rt typ g w (typ elem) b)
      (fun i _ b g' hi => by
        obtain ⟨-, hr⟩ := Graph.shape_eq_list.mp hshape
        have hitem : g.item r i = items.getD i .none := by simp only [Graph.item, hr]
        rw [hitem] at hi
        exact ih _ (wrap_eq_ok.mp hi)) hbs
    refine ⟨hsame, fun hexact => ?_⟩
    simp only [visits, hshape] at hexact
    have hall := hfaithful (List.forall_mem_cons.mp hexact).2
    rw [hitems] at hall
    obtain ⟨hlength, hzip⟩ := List.forall₂_iff_zip.mp hall
    exact .list hshape hlength hzip
  | set items =>
    simp only [bind, hshape] at h
    obtain ⟨⟨bs, g₁⟩, hbs, hb⟩ := map_eq_ok.mp h
    cases hb
    obtain ⟨hsame, hfaithful⟩ := faithful_elements ih hbs
    refine ⟨hsame, fun hexact => ?_⟩
    simp only [visits, hshape] at hexact
    have hall := hfaithful (List.forall_mem_cons.mp hexact).2
    obtain ⟨hlength, hzip⟩ := List.forall₂_iff_zip.mp hall
    exact .set hshape (entries_perm rt call items) hlength hzip
  | tuple items =>
    simp only [bind, hshape] at h
    obtain ⟨⟨bs, g₁⟩, hbs, hb⟩ := map_eq_ok.mp h
    cases hb
    obtain ⟨hsame, hfaithful⟩ := faithful_elements ih hbs
    refine ⟨hsame, fun hexact => ?_⟩
    simp only [visits, hshape] at hexact
    have hall := hfaithful (List.forall_mem_cons.mp hexact).2
    obtain ⟨hlength, hzip⟩ := List.forall₂_iff_zip.mp hall
    exact .tuple hshape hlength hzip
  | _ =>
    simp only [bind, hshape] at h
    cases h

theorem faithful_struct (hkeys : g.KeysDistinct) {fields : List (Field τ)}
    (hfields : ∀ f ∈ fields, f.tag = [])
    (h : bind rt typ depth (n + 1) call v (.struct fields) reqSK g = .ok (b, g')) :
    g' = g ∧ ((∀ x ∈ visits rt typ g (n + 1) call place v (.struct fields) reqSK, x.Exact) →
      Faithful rt typ g v (.struct fields) b) := by
  cases hshape : g.shape v with
  | dict items =>
    simp only [bind, hshape] at h
    obtain ⟨⟨bs, g₁⟩, hbs, hb⟩ := map_eq_ok.mp h
    cases hb
    obtain ⟨hsame, hfaithful⟩ := bindEach_zipIdx
      (fieldVisits rt typ g n call v items)
      (fun f b => ∃ w, Found rt items f w ∧ Faithful rt typ g w (typ f.type) b)
      (fun p hp b g' hbound => by
        have hrem := not_isRemainder (hfields p.1 (fst_mem_of_mem_zipIdx hp))
        simp only [fieldVisits, hrem, Bool.false_eq_true, if_false] at hbound ⊢
        cases hfind : p.1.find rt items with
        | none =>
          rw [hfind] at hbound
          cases hbound
        | some w =>
          rw [hfind] at hbound
          obtain ⟨hsame, hfaithful⟩ := ih none (wrap_eq_ok.mp hbound)
          have hfound := (find_eq_some_iff (hkeys v items hshape)).mp hfind
          exact ⟨hsame, fun hexact => ⟨w, hfound, hfaithful hexact⟩⟩) hbs
    refine ⟨hsame, fun hexact => ?_⟩
    simp only [visits, hshape] at hexact
    have hall := hfaithful (List.forall_mem_cons.mp hexact).2
    obtain ⟨ws, hws, hbs⟩ := exists_between_of_forall₂
      (S := fun (p : Field τ × Value) b => Faithful rt typ g p.2 (typ p.1.type) b) hall
    obtain ⟨hlength, hzip⟩ := List.forall₂_iff_zip.mp hbs
    exact .dict hshape hws hlength hzip
  | object arguments =>
    simp only [bind, hshape] at h
    obtain ⟨⟨bs, g₁⟩, hbs, hb⟩ := map_eq_ok.mp h
    cases hb
    split at hbs
    · cases hbs
    · next harguments =>
      obtain ⟨hsame, hfaithful⟩ := bindEach_zipIdx
        (fun p => visits rt typ g n (p.2 :: call) none p.1.2 (typ p.1.1.type)
          (p.1.1.tag == requireStringKeysTag))
        (fun p b => Faithful rt typ g p.2 (typ p.1.type) b)
        (fun p _ b g' hp => ih none (wrap_eq_ok.mp hp)) hbs
      refine ⟨hsame, fun hexact => ?_⟩
      simp only [visits, hshape] at hexact
      have hall := hfaithful (List.forall_mem_cons.mp hexact).2
      obtain ⟨hlength, hzip⟩ := List.forall₂_iff_zip.mp hall
      exact .object hshape (of_not_not harguments) hlength hzip
  | _ =>
    simp only [bind, hshape] at h
    cases h

theorem faithful_map (hkeys : g.KeysDistinct) {key : KeyKind} {elem : τ} (hkey : key ≠ .interface)
    (h : bind rt typ depth (n + 1) call v (.map key elem) reqSK g = .ok (b, g')) :
    g' = g ∧ ((∀ x ∈ visits rt typ g (n + 1) call place v (.map key elem) reqSK, x.Exact) →
      Faithful rt typ g v (.map key elem) b) := by
  cases hshape : g.shape v with
  | dict items =>
    simp only [bind, hshape] at h
    obtain ⟨⟨es, g₁⟩, hes, hb⟩ := map_eq_ok.mp h
    cases hb
    obtain ⟨hsame, hfaithful⟩ := bindEach_zipIdx
      (fun p => key.visit p.1.1 ::
        visits rt typ g n (p.2 :: call) none p.1.2 (typ elem) reqSK)
      (fun e b => FaithfulKey e.1 key b.1 ∧ Faithful rt typ g e.2 (typ elem) b.2)
      (fun p _ b g' hp => by
        obtain ⟨k, hk, hp⟩ := bind_eq_ok.mp hp
        obtain ⟨q, hq, hp⟩ := map_eq_ok.mp hp
        cases hp
        obtain ⟨hsame, hfaithful⟩ := ih none hq
        refine ⟨hsame, fun hexact => ?_⟩
        obtain ⟨hhead, htail⟩ := List.forall_mem_cons.mp hexact
        exact ⟨bindKey_faithful hkey hk hhead, hfaithful htail⟩) hes
    refine ⟨hsame, fun hexact => ?_⟩
    simp only [visits, hshape] at hexact
    have hall := hfaithful (List.forall_mem_cons.mp hexact).2
    have hperm := entries_perm rt call items
    have hdistinct : (es.map Prod.fst).Nodup := by
      have hrel : List.Forall₂ (fun v k => FaithfulKey v key k)
          ((rt.entries call items).map Prod.fst) (es.map Prod.fst) := by
        rw [List.forall₂_map_left_iff, List.forall₂_map_right_iff]
        exact hall.imp fun e b h => h.1
      refine (List.rel_nodup (faithfulKey_biUnique key) hrel).mp ?_
      exact (hperm.map Prod.fst).nodup_iff.mpr (hkeys v items hshape)
    rw [foldl_setMapIndex (by simpa using hdistinct), List.nil_append]
    obtain ⟨hlength, hzip⟩ := List.forall₂_iff_zip.mp hall
    exact .map hshape hperm hdistinct hlength (fun hb => (hzip hb).1) fun hb => (hzip hb).2
  | _ =>
    simp only [bind, hshape] at h
    cases h

end Plain

/-! ## When binding is faithful -/

section Binding

variable {τ : Type} {rt : Runtime} {typ : τ → DestKind τ} {g : Graph} {depth n : Nat}

theorem faithful (hkeys : g.KeysDistinct) (hplain : ∀ t, (typ t).Plain) :
    FaithfulAll rt typ g depth n := by
  induction n with
  | zero =>
    intro call v t reqSK b g' place h
    cases h
  | succ n ih =>
    intro call v t reqSK b g' place h
    have hkind := hplain t
    cases hk : typ t with
    | int size =>
      rw [hk] at h
      obtain ⟨i, hi, heq⟩ := map_eq_ok.mp h
      cases heq
      cases v with
      | int m =>
        cases hi
        refine ⟨rfl, fun hexact => ?_⟩
        have hfits : size.Fits m :=
          hexact (.value place (.int m) (.int size) reqSK) List.mem_cons_self
        rw [wrap_eq_self_iff.mpr hfits]
        exact .int hfits
      | _ => cases hi
    | string =>
      rw [hk] at h
      obtain ⟨s, hs, heq⟩ := map_eq_ok.mp h
      cases heq
      cases v with
      | string s' =>
        cases hs
        exact ⟨rfl, fun _ => .string s⟩
      | _ => cases hs
    | bool =>
      rw [hk] at h
      obtain ⟨c, hc, heq⟩ := map_eq_ok.mp h
      cases heq
      cases v with
      | bool c' =>
        cases hc
        exact ⟨rfl, fun _ => .bool c⟩
      | _ => cases hc
    | slice elem =>
      rw [hk] at h
      exact faithful_slice ih h
    | struct fields =>
      rw [hk] at h hkind
      exact faithful_struct ih hkeys hkind h
    | map key elem =>
      rw [hk] at h hkind
      exact faithful_map ih hkeys hkind h
    | interface =>
      rw [hk] at hkind
      exact hkind.elim

/-- What holds of the calls for the types and of those for the keys holds of all. -/
theorem forall_visits {Q : Visit τ → Prop} (hdeep : Q .deep) (hmissing : Q .missing)
    (hkey : ∀ v key elem t, typ t = .map key elem → Q (key.visit v))
    (hvalue : ∀ place v t reqSK, Q (.value place v (typ t) reqSK)) {call : List Nat}
    {place : Option (Nat × Nat)} {v : Value} {t : τ} {reqSK : Bool} :
    ∀ x ∈ visits rt typ g n call place v (typ t) reqSK, Q x := by
  induction n generalizing call place v t reqSK with
  | zero => exact List.forall_mem_singleton.mpr hdeep
  | succ n ih =>
    refine List.forall_mem_cons.mpr ⟨hvalue place v t reqSK, fun x hx => ?_⟩
    cases hk : typ t with
    | slice elem =>
      rw [hk] at hx
      cases hshape : g.shape v with
      | list r items | set items | tuple items =>
        simp only [hshape, List.mem_flatMap] at hx
        obtain ⟨p, -, hx⟩ := hx
        exact ih x hx
      | _ => simp [hshape] at hx
    | struct fields =>
      rw [hk] at hx
      cases hshape : g.shape v with
      | dict items =>
        simp only [hshape, List.mem_flatMap] at hx
        obtain ⟨p, -, hx⟩ := hx
        split at hx
        · exact ih x hx
        · split at hx
          · rw [List.mem_singleton.mp hx]
            exact hmissing
          · exact ih x hx
      | object arguments =>
        simp only [hshape, List.mem_flatMap] at hx
        obtain ⟨p, -, hx⟩ := hx
        exact ih x hx
      | _ => simp [hshape] at hx
    | map key elem =>
      rw [hk] at hx
      cases hshape : g.shape v with
      | dict items =>
        simp only [hshape, List.mem_flatMap, List.mem_cons] at hx
        obtain ⟨p, -, rfl | hx⟩ := hx
        · exact hkey p.1.1 key elem t hk
        · exact ih x hx
      | _ => simp [hshape] at hx
    | _ =>
      rw [hk] at hx
      cases hx

/-- The call is not for an interface. -/
def Visit.Plain : Visit τ → Prop
  | .value _ _ .interface _ => False
  | _ => True

theorem plain_of_ne {place : Option (Nat × Nat)} {v : Value} {kind : DestKind τ} {reqSK : Bool}
    (h : kind ≠ .interface) : (Visit.value place v kind reqSK).Plain := by
  cases kind with
  | interface => exact absurd rfl h
  | _ => trivial

theorem visits_plain (hplain : ∀ t, (typ t).Plain) {call : List Nat} {place : Option (Nat × Nat)}
    {v : Value} {t : τ} {reqSK : Bool} :
    ∀ x ∈ visits rt typ g n call place v (typ t) reqSK, x.Plain := by
  refine forall_visits trivial trivial (fun v key elem t hk => ?_) fun place v t reqSK => ?_
  · have hkey := hplain t
    rw [hk] at hkey
    cases key with
    | interface => exact absurd rfl hkey
    | _ => trivial
  · refine plain_of_ne fun hk => ?_
    have hinterface := hplain t
    rw [hk] at hinterface
    exact hinterface

variable {x : Visit τ} {P : Set (Nat × Nat)}

theorem Visit.Plain.next_eq (h : x.Plain) : x.next g P = P := by
  rcases x with ⟨place, v, kind, reqSK⟩ | _ | _
  · refine next_of_ne ?_
    rintro rfl
    exact h
  · rfl
  · rfl

theorem Visit.Plain.not_storesNil (h : x.Plain) : ¬x.StoresNil := by
  rcases x with ⟨place, v, kind, reqSK⟩ | _ | _
  · cases kind with
    | interface => exact h.elim
    | _ => exact id
  · exact id
  · exact id

/-- Only the bound on the depth keeps such a call from returning. -/
theorem Visit.Plain.eq_deep (h : x.Plain) (hstop : x.Stops g P depth .overflow) : x = .deep := by
  rcases x with ⟨place, v, kind, reqSK⟩ | _ | _
  · cases kind with
    | interface => exact h.elim
    | _ => exact hstop.elim False.elim False.elim
  · exact hstop.elim False.elim False.elim
  · rfl

/-- Where a call that is not for an interface stops binding, it does not succeed. -/
theorem Visit.Plain.not_succeeds {stop : Stop} (h : x.Plain) (hstop : x.Stops g P depth stop) :
    ¬x.Succeeds g P := by
  intro hx
  cases stop with
  | error err => exact hstop hx.1
  | panic => exact h.not_storesNil hstop
  | overflow =>
    obtain rfl := h.eq_deep hstop
    exact hx.2 trivial

/-- Calls that are not for interfaces replace nothing. -/
theorem passes_plain {l : List (Visit τ)} (h : ∀ x ∈ l, x.Plain) :
    Passes (Visit.Succeeds g) (Visit.next g) P l ↔ ∀ x ∈ l, x.Succeeds g P := by
  induction l with
  | nil => simp [Passes]
  | cons x l ih =>
    obtain ⟨hx, hl⟩ := List.forall_mem_cons.mp h
    rw [Passes, hx.next_eq, ih hl, List.forall_mem_cons]

theorem comes_plain {l : List (Visit τ)} (h : ∀ x ∈ l, x.Plain) {P' : Set (Nat × Nat)}
    (hcomes : Comes (Visit.Succeeds g) (Visit.next g) P l P' x) : P' = P := by
  induction hcomes with
  | here => rfl
  | there _ _ ih =>
    obtain ⟨hx, hl⟩ := List.forall_mem_cons.mp h
    rw [ih hl, hx.next_eq]

/-- The destination holds the value, or there is an error. Nothing panics, and the bound on
the depth is only reached where a call is not followed. -/
def FaithfulResult (rt : Runtime) (typ : τ → DestKind τ) (g : Graph) (n : Nat) (v : Value)
    (kind : DestKind τ) : Except Stop (Bound × Graph) → Prop
  | .ok (b, _) => Faithful rt typ g v kind b
  | .error (.error _) => True
  | .error .panic => False
  | .error .overflow => .deep ∈ visits rt typ g n [] none v kind false

/-- Binding to a destination without tags and interfaces is faithful exactly if every
integer that it comes to fits, or some value is refused for its type. -/
theorem bind_faithful_iff (rt : Runtime) {typ : τ → DestKind τ} (hplain : ∀ t, (typ t).Plain)
    (depth n : Nat) (v : Value) {heap : Heap} (hheap : heap.WellFormed) (dest : τ) :
    FaithfulResult rt typ (.ofHeap heap) n v (typ dest)
        (bind rt typ depth n [] v (typ dest) false (.ofHeap heap)) ↔
      ((∀ x ∈ visits rt typ (.ofHeap heap) n [] none v (typ dest) false,
          x.Succeeds (.ofHeap heap) ∅) →
        ∀ x ∈ visits rt typ (.ofHeap heap) n [] none v (typ dest) false, x.Exact) := by
  have hkeys := keysDistinct_ofHeap hheap
  have hvisits : ∀ x ∈ visits rt typ (.ofHeap heap) n [] none v (typ dest) false, x.Plain :=
    visits_plain hplain
  have hrun := follows_start rt typ depth n v heap dest
  cases hres : bind rt typ depth n [] v (typ dest) false (.ofHeap heap) with
  | ok p =>
    obtain ⟨b, g'⟩ := p
    rw [hres] at hrun
    have hsucceeds := (passes_plain hvisits).mp hrun.1
    constructor
    · intro h _
      exact h.exact hkeys hplain (hplain dest)
    · intro h
      exact (faithful hkeys hplain none hres).2 (h hsucceeds)
  | error stop =>
    rw [hres] at hrun
    obtain ⟨P, x, hcomes, hstop⟩ := hrun
    have hx := hvisits x hcomes.mem
    obtain rfl := comes_plain hvisits hcomes
    refine iff_of_true ?_ fun h => absurd (h x hcomes.mem) (hx.not_succeeds hstop)
    cases stop with
    | error err => trivial
    | panic => exact hx.not_storesNil hstop
    | overflow =>
      obtain rfl := hx.eq_deep hstop
      exact hcomes.mem

/-- A struct of a slice and a map, both of integers of 16 bits. -/
inductive RecordType where
  | int16
  | ids
  | points
  | record

def recordKind : RecordType → DestKind RecordType
  | .int16 => .int .int16
  | .ids => .slice .int16
  | .points => .map .string .int16
  | .record => .struct [⟨"Ids".toList, [], .ids⟩, ⟨"Points".toList, [], .points⟩]

theorem recordKind_plain : ∀ t, (recordKind t).Plain
  | .int16 | .ids => trivial
  | .points => nofun
  | .record => by simp [recordKind, DestKind.Plain]

/-- A dict of a list and a dict. -/
def recordHeap : Heap :=
  [.dict [(.string (lit "ids"), .ref 1), (.string (lit "points"), .ref 2)],
    .list [.int 1, .int 300], .dict [(.string (lit "a"), .int 7)]]

def recordBytes : List UInt8 :=
  [opcodeEMPTY_DICT, opcodeMARK, opcodeSHORT_BINUNICODE, 3] ++ lit "ids" ++
  [opcodeEMPTY_LIST, opcodeMARK, opcodeBININT1, 1, opcodeBININT2, 0x2c, 0x01, opcodeAPPENDS,
    opcodeSHORT_BINUNICODE, 6] ++ lit "points" ++
  [opcodeEMPTY_DICT, opcodeSHORT_BINUNICODE, 1] ++ lit "a" ++
  [opcodeBININT1, 7, opcodeSETITEM, opcodeSETITEMS, opcodeSTOP]

/-- What a dict holds is bound as it is, in the fields of a struct. -/
theorem bind_faithful_record : ∃ b g, bind asciiRuntime recordKind 0 3 [] (.ref 0)
      (recordKind .record) false (.ofHeap recordHeap) = .ok (b, g) ∧
    Faithful asciiRuntime recordKind (.ofHeap recordHeap) (.ref 0) (recordKind .record) b := by
  have hexec : exec (Machine.start recordBytes) = .ok (.ref 0, recordHeap) := rfl
  have hbind : bind asciiRuntime recordKind 0 3 [] (.ref 0) (recordKind .record) false
      (.ofHeap recordHeap) = .ok (.struct [.slice [.int 1, .int 300], .map [(.string (lit "a"),
        .int 7)]], .ofHeap recordHeap) := rfl
  have hvisits : visits asciiRuntime recordKind (.ofHeap recordHeap) 3 [] none (.ref 0)
      (recordKind .record) false = [.value none (.ref 0) (recordKind .record) false,
        .value none (.ref 1) (recordKind .ids) false,
        .value (some (1, 0)) (.int 1) (.int .int16) false,
        .value (some (1, 1)) (.int 300) (.int .int16) false,
        .value none (.ref 2) (recordKind .points) false,
        .value none (.string (lit "a")) .string false,
        .value none (.int 7) (.int .int16) false] := rfl
  have hexact : ∀ x ∈ visits asciiRuntime recordKind (.ofHeap recordHeap) 3 [] none (.ref 0)
      (recordKind .record) false, x.Exact := by
    rw [hvisits]
    simp [Visit.Exact, IntSize.Fits]
  have hfaithful := (bind_faithful_iff asciiRuntime recordKind_plain 0 3 (.ref 0)
    (exec_wellFormed hexec).2 .record).mpr fun _ => hexact
  rw [hbind] at hfaithful
  exact ⟨_, _, hbind, hfaithful⟩

/-- An integer that is bound to one of 16 bits. -/
def int16Kind : Unit → DestKind Unit := fun _ => .int .int16

theorem int16Kind_plain : ∀ t, (int16Kind t).Plain := fun _ => trivial

/-- A program that gives an integer of 16 bits without a sign. -/
def unsigned (n : Nat) : List UInt8 := opcodeBININT2 :: littleBytes 2 n ++ [opcodeSTOP]

/-- An integer that does not fit is bound as another. -/
theorem bind_not_faithful : ¬∀ (rt : Runtime) (typ : Unit → DestKind Unit),
    (∀ t, (typ t).Plain) → ∀ (src : List UInt8) (v : Value) (heap : Heap),
      exec (Machine.start src) = .ok (v, heap) → ∀ depth n, FaithfulResult rt typ (.ofHeap heap)
        n v (typ ()) (bind rt typ depth n [] v (typ ()) false (.ofHeap heap)) := by
  intro hall
  have hexec : exec (Machine.start (unsigned 40000)) = .ok (.int 40000, []) := rfl
  have hres := hall asciiRuntime int16Kind int16Kind_plain (unsigned 40000) _ _ hexec 0 1
  have hbind : bind asciiRuntime int16Kind 0 1 [] (.int 40000) (int16Kind ()) false (.ofHeap []) =
      .ok (.int (-25536), .ofHeap []) := rfl
  rw [hbind] at hres
  cases hres

end Binding

end Isthmus.Pickle
