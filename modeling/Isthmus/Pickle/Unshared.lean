import Isthmus.Pickle.Interference

/-!
# Sharing in a pickle

The machine shares lists and dicts through the memo. The unshared copy of a value has its
own list, dict or set for each reference to one. Binding from it has the same result
unless a list is shared that `restrictMapKeysToStrings` changes.

## Main definitions

- `unshare`: the unshared copy
- `IsUnshared`: no list, dict or set of the copy is shared

## Main results

- `exists_unshared`: a value without cycles has an unshared copy
- `sharing_invisible_iff`: when binding from the copy has the same result
-/

namespace Isthmus.Pickle

open Recursion

/-! ## The unshared copy -/

/-- The lists, dicts and sets of a copy, each with the reference that it was copied from. -/
abbrev Clones := List (Nat × Cell)

/-- A loop that copies values. -/
def copyEach (copy : Value → Clones → Option (Value × Clones)) :
    List Value → Clones → Option (List Value × Clones)
  | [], s => some ([], s)
  | v :: l, s => do
    let (v, s) ← copy v s
    let (l, s) ← copyEach copy l s
    some (v :: l, s)

/-- The copy of a value, in which each reference gets its own list, dict or set. -/
def unshare (heap : Heap) : Nat → Value → Clones → Option (Value × Clones)
  | 0, _, _ => none
  | n + 1, v, s =>
    match v with
    | .tuple items => do
      let (items, s) ← copyEach (unshare heap n) items s
      some (.tuple items, s)
    | .object cls arguments => do
      let (cls, s) ← unshare heap n cls s
      let (arguments, s) ← copyEach (unshare heap n) arguments s
      some (.object cls arguments, s)
    | .ref r =>
      match heap[r]? with
      | some (.list items) => do
        let (items, s) ← copyEach (unshare heap n) items s
        some (.ref s.length, s ++ [(r, .list items)])
      | some (.dict items) => do
        let (keys, s) ← copyEach (unshare heap n) (items.map Prod.fst) s
        let (values, s) ← copyEach (unshare heap n) (items.map Prod.snd) s
        some (.ref s.length, s ++ [(r, .dict (keys.zip values))])
      | some (.set items) => do
        let (items, s) ← copyEach (unshare heap n) items s
        some (.ref s.length, s ++ [(r, .set items)])
      | none => none
    | v => some (v, s)

mutual

/-- The references in a value, each as often as it is there. -/
def Value.refs : Value → List Nat
  | .tuple items => Value.refsAll items
  | .object cls arguments => cls.refs ++ Value.refsAll arguments
  | .ref r => [r]
  | _ => []

def Value.refsAll : List Value → List Nat
  | [] => []
  | v :: l => v.refs ++ Value.refsAll l

end

def Cell.refs : Cell → List Nat
  | .list items => Value.refsAll items
  | .dict items => Value.refsAll (items.map Prod.fst) ++ Value.refsAll (items.map Prod.snd)
  | .set items => Value.refsAll items

/-- A copy in which nothing is shared: each reference is there once. -/
structure IsUnshared (heap : Heap) (v : Value) (φ : Nat → Nat) (heap' : Heap) (v' : Value) :
    Prop where
  copies : Copies φ heap' heap
  value : v'.rename φ = v
  unshared : (v'.refs ++ heap'.flatMap Cell.refs).Nodup

/-! ## What is copied -/

section Copied

variable {heap : Heap} {φ : Nat → Nat} {s s' l l' : Clones} {v v' : Value} {n : Nat}

/-- The references are to what was copied. -/
def Agrees (φ : Nat → Nat) (s : Clones) : Prop := ∀ i p, s[i]? = some p → φ i = p.1

theorem Agrees.left (h : Agrees φ (s ++ l)) : Agrees φ s := by
  intro i p hp
  refine h i p ?_
  rw [List.getElem?_append_left (List.getElem?_eq_some_iff.mp hp).1, hp]

/-- The new cells hold what was copied, and their references are new and there once. -/
structure Copied (heap : Heap) (s l : Clones) (refs : List Nat) : Prop where
  cells : ∀ {φ}, Agrees φ (s ++ l) → ∀ p ∈ l, heap[p.1]? = some (p.2.rename φ)
  perm : (refs ++ l.flatMap fun p => p.2.refs).Perm (List.range' s.length l.length)

theorem copied_nil (s : Clones) : Copied heap s [] [] := by
  refine ⟨fun _ p hp => absurd hp List.not_mem_nil, ?_⟩
  rfl

/-- Copying goes on with more cells. -/
theorem Copied.append {refs refs' : List Nat} (h : Copied heap s l refs)
    (h' : Copied heap (s ++ l) l' refs') : Copied heap s (l ++ l') (refs ++ refs') := by
  refine ⟨fun hφ => ?_, ?_⟩
  · rw [← List.append_assoc] at hφ
    exact List.forall_mem_append.mpr ⟨h.cells hφ.left, h'.cells hφ⟩
  · have hperm := h.perm.append h'.perm
    rw [List.length_append, List.range'_append_1, ← List.length_append] at hperm
    refine List.Perm.trans ?_ hperm
    rw [List.flatMap_append]
    simp only [← List.append_assoc]
    refine List.Perm.append_right _ ?_
    simp only [List.append_assoc]
    exact List.Perm.append_left _ List.perm_append_comm

/-- A new cell takes the references that there are, and is the only one. -/
theorem Copied.cell {r : Nat} {c : Cell} (h : Copied heap s l c.refs)
    (hc : ∀ {φ}, Agrees φ (s ++ l) → heap[r]? = some (c.rename φ)) :
    Copied heap s (l ++ [(r, c)]) [(s ++ l).length] := by
  refine ⟨fun hφ => ?_, ?_⟩
  · rw [← List.append_assoc] at hφ
    refine List.forall_mem_append.mpr ⟨h.cells hφ.left, List.forall_mem_singleton.mpr ?_⟩
    exact hc hφ.left
  · have hrange : List.range' s.length (l ++ [(r, c)]).length =
        List.range' s.length l.length ++ [(s ++ l).length] := by
      rw [List.length_append, List.length_singleton, List.range'_concat, Nat.one_mul,
        List.length_append]
    rw [hrange, List.flatMap_append, List.flatMap_singleton]
    refine List.perm_append_comm.trans (List.Perm.append_right _ ?_)
    exact List.perm_append_comm.trans h.perm

theorem copyEach_length {copy : Value → Clones → Option (Value × Clones)} {vs vs' : List Value}
    (h : copyEach copy vs s = some (vs', s')) : vs'.length = vs.length := by
  induction vs generalizing s vs' with
  | nil =>
    cases h
    rfl
  | cons v vs ih =>
    obtain ⟨⟨v', s₁⟩, -, h⟩ := Option.bind_eq_some_iff.mp h
    obtain ⟨⟨vs₁, s₂⟩, hvs, h⟩ := Option.bind_eq_some_iff.mp h
    cases h
    rw [List.length_cons, ih hvs, List.length_cons]

section Loop

variable {copy : Value → Clones → Option (Value × Clones)}
  (hcopy : ∀ {v s v' s'}, copy v s = some (v', s') → ∃ l, s' = s ++ l ∧
    Copied heap s l v'.refs ∧ ∀ {φ}, Agrees φ s' → v'.rename φ = v)

include hcopy

theorem copyEach_copied {vs vs' : List Value} (h : copyEach copy vs s = some (vs', s')) :
    ∃ l, s' = s ++ l ∧ Copied heap s l (Value.refsAll vs') ∧
      ∀ {φ}, Agrees φ s' → vs'.map (Value.rename φ) = vs := by
  induction vs generalizing s vs' with
  | nil =>
    cases h
    exact ⟨[], (List.append_nil _).symm, copied_nil _, fun _ => rfl⟩
  | cons v vs ih =>
    obtain ⟨⟨v', s₁⟩, hv, h⟩ := Option.bind_eq_some_iff.mp h
    obtain ⟨⟨vs₁, s₂⟩, hvs, h⟩ := Option.bind_eq_some_iff.mp h
    cases h
    obtain ⟨l, rfl, hcopied, hsame⟩ := hcopy hv
    obtain ⟨l', rfl, hcopied', hsame'⟩ := ih hvs
    refine ⟨l ++ l', List.append_assoc _ l l', hcopied.append hcopied', fun hφ => ?_⟩
    rw [List.map_cons, hsame hφ.left, hsame' hφ]

end Loop

theorem rename_zip (ks vs : List Value) : (ks.zip vs).map (renameEntry φ) =
    (ks.map (Value.rename φ)).zip (vs.map (Value.rename φ)) :=
  List.zip_map.symm

/-- The copy of a value is the same, as are its new cells, and the references are to new
cells. -/
theorem unshare_copied (h : unshare heap n v s = some (v', s')) :
    ∃ l, s' = s ++ l ∧ Copied heap s l v'.refs ∧ ∀ {φ}, Agrees φ s' → v'.rename φ = v := by
  induction n generalizing v s v' s' with
  | zero => cases h
  | succ n ih =>
    have hself : ∃ l, s = s ++ l ∧ Copied heap s l [] ∧ ∀ {φ}, Agrees φ s → v = v :=
      ⟨[], (List.append_nil s).symm, copied_nil s, fun _ => rfl⟩
    cases v with
    | tuple items =>
      obtain ⟨⟨items', s₁⟩, hitems, h⟩ := Option.bind_eq_some_iff.mp h
      cases h
      obtain ⟨l, rfl, hcopied, hsame⟩ := copyEach_copied ih hitems
      refine ⟨l, rfl, hcopied, fun hφ => ?_⟩
      rw [rename_tuple, hsame hφ]
    | object cls arguments =>
      obtain ⟨⟨cls', s₁⟩, hcls, h⟩ := Option.bind_eq_some_iff.mp h
      obtain ⟨⟨arguments', s₂⟩, harguments, h⟩ := Option.bind_eq_some_iff.mp h
      cases h
      obtain ⟨l, rfl, hcopied, hsame⟩ := ih hcls
      obtain ⟨l', rfl, hcopied', hsame'⟩ := copyEach_copied ih harguments
      refine ⟨l ++ l', List.append_assoc s l l', hcopied.append hcopied', fun hφ => ?_⟩
      rw [rename_object, hsame hφ.left, hsame' hφ]
    | ref r =>
      unfold unshare at h
      dsimp only at h
      cases hr : heap[r]? with
      | none =>
        rw [hr] at h
        cases h
      | some c =>
        rw [hr] at h
        -- the new cell is the last
        have hlast : ∀ {s₁ : Clones} {c' : Cell} {φ}, Agrees φ (s₁ ++ [(r, c')]) →
            (Value.ref s₁.length).rename φ = .ref r := by
          intro s₁ c' φ hφ
          rw [rename_ref, hφ s₁.length (r, c') List.getElem?_concat_length]
        cases c with
        | list items =>
          obtain ⟨⟨items', s₁⟩, hitems, h⟩ := Option.bind_eq_some_iff.mp h
          cases h
          obtain ⟨l, rfl, hcopied, hsame⟩ := copyEach_copied ih hitems
          refine ⟨l ++ [(r, .list items')], List.append_assoc s l _,
            hcopied.cell fun hφ => ?_, hlast⟩
          rw [hr, Cell.rename, hsame hφ]
        | dict items =>
          obtain ⟨⟨ks, s₁⟩, hks, h⟩ := Option.bind_eq_some_iff.mp h
          obtain ⟨⟨vs, s₂⟩, hvs, h⟩ := Option.bind_eq_some_iff.mp h
          cases h
          obtain ⟨l, rfl, hcopied, hsame⟩ := copyEach_copied ih hks
          obtain ⟨l', rfl, hcopied', hsame'⟩ := copyEach_copied ih hvs
          have hlength : ks.length = vs.length := by
            rw [copyEach_length hks, copyEach_length hvs, List.length_map, List.length_map]
          have hrefs : (Cell.dict (ks.zip vs)).refs = Value.refsAll ks ++ Value.refsAll vs := by
            rw [Cell.refs, List.map_fst_zip (Nat.le_of_eq hlength),
              List.map_snd_zip (Nat.le_of_eq hlength.symm)]
          have hboth := hcopied.append hcopied'
          rw [← hrefs] at hboth
          rw [List.append_assoc s l l'] at hsame' ⊢
          refine ⟨l ++ l' ++ [(r, .dict (ks.zip vs))], List.append_assoc s (l ++ l') _,
            hboth.cell fun hφ => ?_, hlast⟩
          have hφ' := hφ
          rw [← List.append_assoc] at hφ'
          have hitems : items = (items.map Prod.fst).zip (items.map Prod.snd) :=
            List.zip_of_prod rfl rfl
          rw [hr, Cell.rename, rename_zip, hsame hφ'.left, hsame' hφ, ← hitems]
        | set items =>
          obtain ⟨⟨items', s₁⟩, hitems, h⟩ := Option.bind_eq_some_iff.mp h
          cases h
          obtain ⟨l, rfl, hcopied, hsame⟩ := copyEach_copied ih hitems
          refine ⟨l ++ [(r, .set items')], List.append_assoc s l _,
            hcopied.cell fun hφ => ?_, hlast⟩
          rw [hr, Cell.rename, hsame hφ]
    | _ =>
      cases h
      exact hself

end Copied

/-! ## Values without cycles have a copy -/

section Exists

variable {heap : Heap} {v u : Value} {n : Nat}

theorem exists_copyEach {copy : Value → Clones → Option (Value × Clones)} {vs : List Value}
    (hcopy : ∀ v ∈ vs, ∀ s, ∃ p, copy v s = some p) (s : Clones) :
    ∃ p, copyEach copy vs s = some p := by
  induction vs generalizing s with
  | nil => exact ⟨([], s), rfl⟩
  | cons v vs ih =>
    obtain ⟨hv, hvs⟩ := List.forall_mem_cons.mp hcopy
    obtain ⟨⟨v', s₁⟩, hv'⟩ := hv s
    obtain ⟨⟨vs', s₂⟩, hvs'⟩ := ih hvs s₁
    refine ⟨(v' :: vs', s₂), Option.bind_eq_some_iff.mpr ⟨_, hv', ?_⟩⟩
    exact Option.bind_eq_some_iff.mpr ⟨_, hvs', rfl⟩

/-- Copying has an end within the depth of the value. -/
theorem exists_unshare (hwithin : Within (Graph.ofHeap heap).parts n v)
    (hpresent : ∀ u ∈ below (Graph.ofHeap heap).parts v, (Graph.ofHeap heap).head u ≠ .nothing)
    (s : Clones) : ∃ p, unshare heap n v s = some p := by
  induction n generalizing v s with
  | zero => exact hwithin.elim
  | succ n ih =>
    have hparts : ∀ u ∈ (Graph.ofHeap heap).parts v, ∀ s, ∃ p, unshare heap n u s = some p := by
      intro u hu s
      exact ih (hwithin u hu) (fun x hx => hpresent x (mem_below_iff.mpr (.inr ⟨u, hu, hx⟩))) s
    cases v with
    | tuple items =>
      obtain ⟨p, hp⟩ := exists_copyEach hparts s
      exact ⟨_, Option.bind_eq_some_iff.mpr ⟨p, hp, rfl⟩⟩
    | object cls arguments =>
      obtain ⟨hcls, harguments⟩ := List.forall_mem_cons.mp hparts
      obtain ⟨p, hp⟩ := hcls s
      obtain ⟨q, hq⟩ := exists_copyEach harguments p.2
      exact ⟨_, Option.bind_eq_some_iff.mpr ⟨p, hp, Option.bind_eq_some_iff.mpr ⟨q, hq, rfl⟩⟩⟩
    | ref r =>
      have hhead := hpresent (.ref r) .refl
      unfold unshare
      dsimp only
      cases hr : heap[r]? with
      | none => simp [Graph.head, ofHeap_node, hr] at hhead
      | some c =>
        cases c with
        | list items | set items =>
          simp only [Graph.parts, ofHeap_node, hr, Option.map_some] at hparts
          obtain ⟨p, hp⟩ := exists_copyEach hparts s
          exact ⟨_, Option.bind_eq_some_iff.mpr ⟨p, hp, rfl⟩⟩
        | dict items =>
          simp only [Graph.parts, ofHeap_node, hr, Option.map_some, List.mem_flatMap] at hparts
          have hkeys : ∀ u ∈ items.map Prod.fst, ∀ s, ∃ p, unshare heap n u s = some p :=
            List.forall_mem_map.mpr fun e he => hparts e.1 ⟨e, he, by simp⟩
          have hvalues : ∀ u ∈ items.map Prod.snd, ∀ s, ∃ p, unshare heap n u s = some p :=
            List.forall_mem_map.mpr fun e he => hparts e.2 ⟨e, he, by simp⟩
          obtain ⟨p, hp⟩ := exists_copyEach hkeys s
          obtain ⟨q, hq⟩ := exists_copyEach hvalues p.2
          exact ⟨_, Option.bind_eq_some_iff.mpr
            ⟨p, hp, Option.bind_eq_some_iff.mpr ⟨q, hq, rfl⟩⟩⟩
    | _ => exact ⟨_, rfl⟩

/-- What `unshare` returns is an unshared copy. -/
theorem isUnshared_of_unshare {v' : Value} {l : Clones} (h : unshare heap n v [] = some (v', l)) :
    IsUnshared heap v (fun r => (l[r]?.map Prod.fst).getD heap.length) (l.map Prod.snd) v' := by
  obtain ⟨_, rfl, hcopied, hsame⟩ := unshare_copied h
  have hagrees : Agrees (fun r => (l[r]?.map Prod.fst).getD heap.length) l := by
    intro i p hp
    simp only [hp, Option.map_some, Option.getD_some]
  refine ⟨fun r => ?_, hsame hagrees, ?_⟩
  · rw [List.getElem?_map]
    cases hr : l[r]? with
    | none => simp
    | some p =>
      have hcell := hcopied.cells hagrees p (List.mem_of_getElem? hr)
      simpa [hr] using hcell
  · rw [List.flatMap_map]
    exact hcopied.perm.nodup_iff.mpr List.nodup_range'

/-- A value without cycles has an unshared copy. -/
theorem exists_unshared (hv : (Graph.ofHeap heap).IsWhole v) :
    ∃ φ heap' v', IsUnshared heap v φ heap' v' := by
  obtain ⟨n, hn⟩ := hv.grounded.exists_within
  obtain ⟨⟨v', l⟩, hl⟩ := exists_unshare hn hv.present []
  exact ⟨_, _, _, isUnshared_of_unshare hl⟩

theorem scoped_part (hheap : heap.WellFormed) (hv : v.Scoped heap.length)
    (hu : u ∈ (Graph.ofHeap heap).parts v) : u.Scoped heap.length := by
  cases v with
  | tuple items => exact scoped_tuple.mp hv u hu
  | object cls arguments =>
    obtain ⟨hcls, harguments⟩ := scoped_object.mp hv
    obtain rfl | hu := List.mem_cons.mp hu
    · exact hcls
    · exact harguments u hu
  | ref r =>
    simp only [Graph.parts, ofHeap_node] at hu
    cases hr : heap[r]? with
    | none => simp [hr] at hu
    | some c =>
      have hc := hheap c (List.mem_of_getElem? hr)
      rw [hr] at hu
      cases c with
      | list items => exact hc u hu
      | dict items =>
        obtain ⟨e, he, hu⟩ := List.mem_flatMap.mp hu
        obtain ⟨-, hfst, hsnd⟩ := hc.2 e he
        obtain rfl | hu := List.mem_cons.mp hu
        · exact hfst
        · rw [List.mem_singleton.mp hu]
          exact hsnd
      | set items => exact hc.2 u hu
  | _ => cases hu

/-- What the machine returns has no references to nothing. -/
theorem isWhole_of_exec {src : List UInt8} (h : exec (Machine.start src) = .ok (v, heap))
    (hacyclic : Grounded (Graph.ofHeap heap).parts v) : (Graph.ofHeap heap).IsWhole v := by
  obtain ⟨hv, hheap⟩ := exec_wellFormed h
  refine ⟨hacyclic, fun u hu => ?_⟩
  have hscoped : u.Scoped heap.length := by
    induction hu with
    | refl => exact hv
    | tail _ hc ih => exact scoped_part hheap ih hc
  cases u with
  | ref r =>
    have hlt : r < heap.length := hscoped
    simp only [Graph.head, ofHeap_node, List.getElem?_eq_getElem hlt, Option.map_some]
    cases heap[r] <;> exact fun hf => by cases hf
  | _ => exact fun hf => by cases hf

theorem Copies.isWhole_iff {φ : Nat → Nat} {heap' : Heap} (h : Copies φ heap' heap) :
    (Graph.ofHeap heap).IsWhole (v.rename φ) ↔ (Graph.ofHeap heap').IsWhole v := by
  constructor
  · rintro ⟨hgrounded, hpresent⟩
    refine ⟨(grounded_map h.parts).mp hgrounded, fun u hu => ?_⟩
    rw [← h.head u]
    exact hpresent _ ((mem_below_map h.parts).mpr ⟨u, hu, rfl⟩)
  · rintro ⟨hgrounded, hpresent⟩
    refine ⟨(grounded_map h.parts).mpr hgrounded, fun u hu => ?_⟩
    obtain ⟨c, hc, rfl⟩ := (mem_below_map h.parts).mp hu
    rw [h.head c]
    exact hpresent c hc

/-- Binding a value of the machine without cycles has the same result as binding its
unshared copy, where nothing disturbs the copy. -/
theorem sharing_invisible_iff {τ : Type} {src : List UInt8} {φ : Nat → Nat} {heap' : Heap}
    {v' : Value} (hexec : exec (Machine.start src) = .ok (v, heap))
    (hacyclic : Grounded (Graph.ofHeap heap).parts v) (hcopy : IsUnshared heap v φ heap' v')
    (rt : Runtime) (typ : τ → DestKind τ) (dest : τ) (n : Nat) : ∃ D, ∀ depth, D ≤ depth →
      (Agree (bind rt typ depth n [] v' (typ dest) false (.ofHeap heap'))
          (bind rt typ depth n [] v (typ dest) false (.ofHeap heap)) ↔
        Undisturbed φ rt typ heap' n v' dest) := by
  have hwhole := isWhole_of_exec hexec hacyclic
  obtain ⟨hcopies, rfl, -⟩ := hcopy
  exact agree_iff hcopies (keysDistinct_ofHeap (exec_wellFormed hexec).2)
    (hcopies.isWhole_iff.mp hwhole) rt typ dest n

end Exists

/-! ## A shared list -/

/-- A struct whose first field asks for string keys, and whose second field takes dicts. -/
def sharedKind : Nat → DestKind Nat
  | 0 => .struct [⟨"Items".toList, requireStringKeysTag, 1⟩, ⟨"More".toList, [], 2⟩]
  | 1 => .interface
  | 2 => .slice 3
  | 3 => .map .string 4
  | _ => .int .int

/-- A dict in which one list of a dict is under two keys. -/
def sharedList : List UInt8 :=
  [opcodeEMPTY_DICT, opcodeSHORT_BINUNICODE, 5] ++ lit "Items" ++
    [opcodeEMPTY_LIST, opcodeMEMOIZE, opcodeEMPTY_DICT, opcodeSHORT_BINUNICODE, 1] ++ lit "a" ++
    [opcodeBININT1, 1, opcodeSETITEM, opcodeAPPEND, opcodeSETITEM, opcodeSHORT_BINUNICODE, 4] ++
    lit "More" ++ [opcodeBINGET, 0, opcodeSETITEM, opcodeSTOP]

def sharedHeap : Heap :=
  [.dict [(.string (lit "Items"), .ref 1), (.string (lit "More"), .ref 1)], .list [.ref 2],
    .dict [(.string (lit "a"), .int 1)]]

/-- The lists and dicts of the unshared copy. -/
def sharedClones : Clones :=
  [(2, .dict [(.string (lit "a"), .int 1)]), (1, .list [.ref 0]),
    (2, .dict [(.string (lit "a"), .int 1)]), (1, .list [.ref 2]),
    (0, .dict [(.string (lit "Items"), .ref 1), (.string (lit "More"), .ref 3)])]

theorem sharedHeap_exec : exec (Machine.start sharedList) = .ok (.ref 0, sharedHeap) := rfl

theorem sharedHeap_grounded : Grounded (Graph.ofHeap sharedHeap).parts (.ref 0) :=
  Within.grounded (show Within (Graph.ofHeap sharedHeap).parts 4 (.ref 0) by decide)

theorem sharedHeap_isUnshared : IsUnshared sharedHeap (.ref 0)
    (fun r => (sharedClones[r]?.map Prod.fst).getD 3) (sharedClones.map Prod.snd) (.ref 4) :=
  isUnshared_of_unshare (n := 4) rfl

/-- The list is bound from the copy, but from the graph there is an error. -/
theorem sharedList_disagrees : ∃ v heap φ heap' v',
    exec (Machine.start sharedList) = .ok (v, heap) ∧ Grounded (Graph.ofHeap heap).parts v ∧
      IsUnshared heap v φ heap' v' ∧ ∀ depth n, 3 ≤ depth → 4 ≤ n →
        ¬Agree (bind asciiRuntime sharedKind depth n [] v' (sharedKind 0) false (.ofHeap heap'))
          (bind asciiRuntime sharedKind depth n [] v (sharedKind 0) false (.ofHeap heap)) := by
  refine ⟨_, _, _, _, _, sharedHeap_exec, sharedHeap_grounded, sharedHeap_isUnshared, ?_⟩
  intro depth n hdepth hn
  have hcopy : ∃ p, bind asciiRuntime sharedKind 3 4 [] (.ref 4) (sharedKind 0) false
      (.ofHeap (sharedClones.map Prod.snd)) = .ok p := ⟨_, rfl⟩
  have hgraph : ∃ err, bind asciiRuntime sharedKind 3 4 [] (.ref 0) (sharedKind 0) false
      (.ofHeap sharedHeap) = .error (.error err) := ⟨_, rfl⟩
  obtain ⟨p, hp⟩ := hcopy
  obtain ⟨err, herr⟩ := hgraph
  -- neither result is an overflow, so that larger bounds do not change it
  have hcopy := (settles_of_le asciiRuntime sharedKind hdepth hn [] (.ref 4) (sharedKind 0) false
    (.ofHeap (sharedClones.map Prod.snd))).resolve_left (by rw [hp]; simp)
  have hgraph := (settles_of_le asciiRuntime sharedKind hdepth hn [] (.ref 0) (sharedKind 0) false
    (.ofHeap sharedHeap)).resolve_left (by rw [herr]; simp)
  rw [hcopy, hgraph, hp, herr]
  exact id

theorem sharedList_invisible_iff : ∃ D, ∀ depth, D ≤ depth →
    (Agree (bind asciiRuntime sharedKind depth 4 [] (.ref 4) (sharedKind 0) false
          (.ofHeap (sharedClones.map Prod.snd)))
        (bind asciiRuntime sharedKind depth 4 [] (.ref 0) (sharedKind 0) false
          (.ofHeap sharedHeap)) ↔
      Undisturbed (fun r => (sharedClones[r]?.map Prod.fst).getD 3) asciiRuntime sharedKind
        (sharedClones.map Prod.snd) 4 (.ref 4) 0) :=
  sharing_invisible_iff sharedHeap_exec sharedHeap_grounded sharedHeap_isUnshared asciiRuntime
    sharedKind 0 4

end Isthmus.Pickle
