import Isthmus.Pickle.Bindable

/-!
# Decoding comes to an end

`Decode` goes on for ever where it is asked for string keys of a value that leads back
to itself through its lists and dicts. Elsewhere the destination bounds the recursion,
unless its type is declared in terms of itself.

## Main definitions

- `DecodesTo`: the value that a stream gives, before it is bound
- `Ranked`: the types are not declared in terms of themselves

## Main results

- `decode_finished_iff`: when `Decode` comes to an end
-/

namespace Isthmus.Pickle

open Recursion

variable {τ : Type} {rt : Runtime} {typ : τ → DestKind τ} {depth n : Nat} {g : Graph} {dest : τ}

theorem not_endless_of_not_fits {P : Set (Nat × Nat)} {x : Visit τ} (h : ¬x.Fits g P) :
    ¬x.Endless g := fun hend => not_fails_of_not_fits h (Visit.fails_iff.mpr (.inr hend))

/-- Nil is not a cycle. -/
theorem not_endless_of_storesNil {x : Visit τ} (h : x.StoresNil) : ¬x.Endless g := by
  rcases x with ⟨place, v, kind, reqSK⟩ | _ | _
  · cases kind with
    | interface =>
      cases h
      rintro ⟨-, hcycle⟩
      refine hcycle (grounded_iff.mpr fun w hw => ?_)
      cases hw
    | _ => exact id
  · exact id
  · cases h

theorem not_endless_of_finished {v : Value} {heap : Heap}
    (h : bind rt typ depth n [] v (typ dest) false (.ofHeap heap) ≠ .error .overflow)
    {P : Set (Nat × Nat)} {x : Visit τ}
    (hcomes : Comes (Visit.Succeeds (.ofHeap heap)) (Visit.next (.ofHeap heap)) ∅
      (visits rt typ (.ofHeap heap) n [] none v (typ dest) false) P x) :
    ¬x.Endless (.ofHeap heap) := by
  intro hend
  have hstops : ¬x.Succeeds (.ofHeap heap) P := fun h => h.2 (Visit.fails_iff.mpr (.inr hend))
  have hrun := follows_start rt typ depth n v heap dest
  cases hres : bind rt typ depth n [] v (typ dest) false (.ofHeap heap) with
  | ok p =>
    rw [hres] at hrun
    exact hstops (hcomes.pass_of_passes hrun.1)
  | error stop =>
    rw [hres] at hrun
    obtain ⟨P', y, hcomes', hy⟩ := hrun
    -- in each case it is the same call
    cases stop with
    | error err =>
      obtain ⟨rfl, rfl⟩ := hcomes.unique hstops hcomes' fun h => hy h.1
      exact not_endless_of_not_fits hy hend
    | panic =>
      have hy' : ¬y.Succeeds (.ofHeap heap) P' := fun h => h.2 (Visit.fails_iff.mpr (.inl hy))
      obtain ⟨rfl, rfl⟩ := hcomes.unique hstops hcomes' hy'
      exact not_endless_of_storesNil hy hend
    | overflow => exact h hres

theorem exists_finished {v : Value} {heap : Heap}
    (h : ∀ P x, Comes (Visit.Succeeds (.ofHeap heap)) (Visit.next (.ofHeap heap)) ∅
      (visits rt typ (.ofHeap heap) n [] none v (typ dest) false) P x → ¬x.Endless (.ofHeap heap)) :
    ∃ depth, bind rt typ depth n [] v (typ dest) false (.ofHeap heap) ≠ .error .overflow := by
  obtain ⟨depth, hdepth⟩ :=
    exists_depth (.ofHeap heap) (visits rt typ (.ofHeap heap) n [] none v (typ dest) false)
  refine ⟨depth, fun hres => ?_⟩
  have hrun := follows_start rt typ depth n v heap dest
  rw [hres] at hrun
  obtain ⟨P, x, hcomes, hx⟩ := hrun
  obtain hx | hx := hx
  · exact h P x hcomes hx
  · exact hdepth x hcomes.mem (h P x hcomes) hx

/-- The stream starts as it should, and this is the value at STOP. -/
def DecodesTo (src : List UInt8) (v : Value) (heap : Heap) : Prop :=
  ∃ version rest, src = opcodePROTO :: version :: rest ∧ ¬version < 4 ∧
    exec (Machine.start rest) = .ok (v, heap)

/-- The bounds have a part only where a value was decoded. -/
theorem decode_overflow_iff {src : List UInt8} :
    decode rt typ depth n dest src = .error (.bind .overflow) ↔ ∃ v heap, DecodesTo src v heap ∧
      bind rt typ depth n [] v (typ dest) false (.ofHeap heap) = .error .overflow := by
  constructor
  · intro h
    rcases src with _ | ⟨opcode, _ | ⟨version, rest⟩⟩
    · cases h
    · cases h
    rw [decode] at h
    split at h
    · cases h
    · next hopcode =>
      split at h
      · cases h
      · next hversion =>
        split at h
        · cases h
        · next v heap hexec =>
          have hproto : opcode = opcodePROTO := of_not_not hopcode
          refine ⟨v, heap, ⟨version, rest, by rw [hproto], hversion, hexec⟩, ?_⟩
          cases hres : bind rt typ depth n [] v (typ dest) false (.ofHeap heap) with
          | error stop =>
            rw [hres] at h
            cases h
            rfl
          | ok p =>
            rw [hres] at h
            cases h
  · rintro ⟨v, heap, ⟨version, rest, rfl, hversion, hexec⟩, hres⟩
    rw [decode, if_neg (not_not_intro rfl), if_neg hversion, hexec]
    dsimp only
    rw [hres]
    rfl

theorem DecodesTo.unique {src : List UInt8} {v v' : Value} {heap heap' : Heap}
    (h : DecodesTo src v heap) (h' : DecodesTo src v' heap') : v = v' ∧ heap = heap' := by
  obtain ⟨version, rest, rfl, -, hexec⟩ := h
  obtain ⟨version', rest', heq, -, hexec'⟩ := h'
  cases heq
  cases hexec.symm.trans hexec'
  exact ⟨rfl, rfl⟩

/-- `Decode` comes to an end, with nil, an error or a panic, exactly if no call that
`bind` comes to asks for string keys behind which there is a cycle, and these calls are
within some depth. -/
theorem decode_finished_iff (rt : Runtime) (typ : τ → DestKind τ) (dest : τ) (src : List UInt8) :
    (∃ depth n, decode rt typ depth n dest src ≠ .error (.bind .overflow)) ↔
      ∀ v heap, DecodesTo src v heap →
        ∃ n, ∀ P x, Comes (Visit.Succeeds (.ofHeap heap)) (Visit.next (.ofHeap heap)) ∅
          (visits rt typ (.ofHeap heap) n [] none v (typ dest) false) P x →
            ¬x.Endless (.ofHeap heap) := by
  constructor
  · rintro ⟨depth, n, hfinished⟩ v heap h
    exact ⟨n, fun P x hcomes => not_endless_of_finished
      (fun hres => hfinished (decode_overflow_iff.mpr ⟨v, heap, h, hres⟩)) hcomes⟩
  · intro h
    by_cases hdecodes : ∃ v heap, DecodesTo src v heap
    · obtain ⟨v, heap, hv⟩ := hdecodes
      obtain ⟨n, hn⟩ := h v heap hv
      obtain ⟨depth, hfinished⟩ := exists_finished hn
      refine ⟨depth, n, fun hres => ?_⟩
      obtain ⟨v', heap', hv', hres'⟩ := decode_overflow_iff.mp hres
      obtain ⟨rfl, rfl⟩ := hv.unique hv'
      exact hfinished hres'
    · refine ⟨0, 0, fun hres => ?_⟩
      obtain ⟨v, heap, hv, -⟩ := decode_overflow_iff.mp hres
      exact hdecodes ⟨v, heap, hv⟩

/-! ## Types that are not declared in terms of themselves -/

/-- The types of the parts of a kind. -/
def DestKind.parts : DestKind τ → List τ
  | .slice elem => [elem]
  | .struct fields => fields.map Field.type
  | .map _ elem => [elem]
  | _ => []

/-- The parts of each type come before it. -/
def Ranked (typ : τ → DestKind τ) (rank : τ → Nat) : Prop :=
  ∀ t, ∀ u ∈ (typ t).parts, rank u < rank t

theorem key_visit_ne_deep (v : Value) (key : KeyKind) : (key.visit v : Visit τ) ≠ .deep := by
  cases key <;> simp [KeyKind.visit]

/-- A call that is not followed is below a part. -/
theorem deep_mem_visits {call : List Nat} {place : Option (Nat × Nat)} {v : Value}
    {kind : DestKind τ} {reqSK : Bool}
    (h : Visit.deep ∈ visits rt typ g (n + 1) call place v kind reqSK) :
    ∃ t ∈ kind.parts, ∃ call' place' w reqSK',
      Visit.deep ∈ visits rt typ g n call' place' w (typ t) reqSK' := by
  simp only [visits, List.mem_cons, reduceCtorEq, false_or] at h
  cases kind with
  | int | string | bool | interface => cases h
  | slice elem =>
    refine ⟨elem, List.mem_singleton_self elem, ?_⟩
    cases hshape : g.shape v with
    | list r items | set items | tuple items =>
      simp only [hshape, List.mem_flatMap] at h
      obtain ⟨_, -, hdeep⟩ := h
      exact ⟨_, _, _, _, hdeep⟩
    | _ => simp [hshape] at h
  | struct fields =>
    cases hshape : g.shape v with
    | dict items =>
      simp only [hshape, List.mem_flatMap] at h
      obtain ⟨p, hp, hdeep⟩ := h
      have hfield : p.1.type ∈ (DestKind.struct fields).parts := by
        refine List.mem_map_of_mem ?_
        have hmem := List.mem_map_of_mem (f := Prod.fst) hp
        rwa [List.zipIdx_map_fst] at hmem
      split at hdeep
      · exact ⟨_, hfield, _, _, _, _, hdeep⟩
      · split at hdeep
        · simp at hdeep
        · exact ⟨_, hfield, _, _, _, _, hdeep⟩
    | object arguments =>
      simp only [hshape, List.mem_flatMap] at h
      obtain ⟨p, hp, hdeep⟩ := h
      have hfield : p.1.1.type ∈ (DestKind.struct fields).parts := by
        refine List.mem_map_of_mem ?_
        have hmem := List.mem_map_of_mem (f := Prod.fst) hp
        rw [List.zipIdx_map_fst] at hmem
        exact (List.of_mem_zip hmem).1
      exact ⟨_, hfield, _, _, _, _, hdeep⟩
    | _ => simp [hshape] at h
  | map key elem =>
    refine ⟨elem, List.mem_singleton_self elem, ?_⟩
    cases hshape : g.shape v with
    | dict items =>
      simp only [hshape, List.mem_flatMap, List.mem_cons] at h
      obtain ⟨p, -, hkey | hdeep⟩ := h
      · exact absurd hkey.symm (key_visit_ne_deep _ _)
      · exact ⟨_, _, _, _, hdeep⟩
    | _ => simp [hshape] at h

/-- The calls go no deeper than the types. -/
theorem deep_not_mem_visits {rank : τ → Nat} (h : Ranked typ rank) {call : List Nat}
    {place : Option (Nat × Nat)} {v : Value} {t : τ} {reqSK : Bool} (hn : rank t < n) :
    Visit.deep ∉ visits rt typ g n call place v (typ t) reqSK := by
  induction n generalizing call place v t reqSK with
  | zero => exact absurd hn (Nat.not_lt_zero _)
  | succ n ih =>
    intro hdeep
    obtain ⟨u, hu, _, _, _, _, hdeep'⟩ := deep_mem_visits hdeep
    exact ih (Nat.lt_of_lt_of_le (h t u hu) (Nat.le_of_lt_succ hn)) hdeep'

theorem visits_congr {m : Nat} {call : List Nat} {place : Option (Nat × Nat)} {v : Value}
    {kind : DestKind τ} {reqSK : Bool}
    (h : ∀ t ∈ kind.parts, ∀ call place w reqSK, visits rt typ g n call place w (typ t) reqSK =
      visits rt typ g m call place w (typ t) reqSK) :
    visits rt typ g (n + 1) call place v kind reqSK =
      visits rt typ g (m + 1) call place v kind reqSK := by
  cases kind with
  | int | string | bool | interface => rfl
  | slice elem =>
    have helem := h elem (List.mem_singleton_self elem)
    simp only [visits, helem]
  | struct fields =>
    have hfield : ∀ f ∈ fields, ∀ call place w reqSK, visits rt typ g n call place w (typ f.type)
        reqSK = visits rt typ g m call place w (typ f.type) reqSK :=
      fun f hf => h f.type (List.mem_map_of_mem hf)
    unfold visits
    refine congrArg _ ?_
    dsimp only
    cases g.shape v with
    | dict items =>
      refine List.flatMap_congr fun p hp => ?_
      have hmem := List.mem_map_of_mem (f := Prod.fst) hp
      rw [List.zipIdx_map_fst] at hmem
      simp only [hfield p.1 hmem]
    | object arguments =>
      refine List.flatMap_congr fun p hp => ?_
      have hmem := List.mem_map_of_mem (f := Prod.fst) hp
      rw [List.zipIdx_map_fst] at hmem
      simp only [hfield p.1.1 (List.of_mem_zip hmem).1]
    | _ => rfl
  | map key elem =>
    have helem := h elem (List.mem_singleton_self elem)
    simp only [visits, helem]

/-- The calls are the same for all bounds above the types. -/
theorem visits_of_ranked {rank : τ → Nat} (h : Ranked typ rank) {m : Nat} {call : List Nat}
    {place : Option (Nat × Nat)} {v : Value} {t : τ} {reqSK : Bool} (hn : rank t < n)
    (hm : rank t < m) : visits rt typ g n call place v (typ t) reqSK =
      visits rt typ g m call place v (typ t) reqSK := by
  induction n generalizing m call place v t reqSK with
  | zero => exact absurd hn (Nat.not_lt_zero _)
  | succ n ih =>
    obtain ⟨m, rfl⟩ := Nat.exists_eq_succ_of_ne_zero (Nat.ne_zero_of_lt hm)
    refine visits_congr fun u hu call place w reqSK => ?_
    have hlt := h t u hu
    exact ih (Nat.lt_of_lt_of_le hlt (Nat.le_of_lt_succ hn))
      (Nat.lt_of_lt_of_le hlt (Nat.le_of_lt_succ hm))

/-- Where the types are not declared in terms of themselves, `Decode` comes to an end
exactly if `bind` asks for no string keys behind which there is a cycle. -/
theorem decode_finished_of_ranked {rank : τ → Nat} (h : Ranked typ rank) {src : List UInt8} :
    (∃ depth n, decode rt typ depth n dest src ≠ .error (.bind .overflow)) ↔
      ∀ v heap, DecodesTo src v heap → ∀ P place w,
        Comes (Visit.Succeeds (.ofHeap heap)) (Visit.next (.ofHeap heap)) ∅
          (visits rt typ (.ofHeap heap) (rank dest + 1) [] none v (typ dest) false) P
          (.value place w .interface true) → Grounded (Graph.ofHeap heap).children w := by
  rw [decode_finished_iff]
  refine forall_congr' fun v => forall_congr' fun heap => forall_congr' fun _ => ?_
  constructor
  · rintro ⟨n, hn⟩ P place w hcomes
    by_contra hcycle
    obtain ⟨depth, hfinished⟩ := exists_finished hn
    -- what has come to an end does so with a larger bound
    have hlarger : bind rt typ depth (max n (rank dest + 1)) [] v (typ dest) false (.ofHeap heap) ≠
        .error .overflow := by
      obtain hover | hsame := settles_of_le rt typ (Nat.le_refl depth)
        (Nat.le_max_left n (rank dest + 1)) [] v (typ dest) false (.ofHeap heap)
      · exact absurd hover hfinished
      · exact hsame ▸ hfinished
    rw [visits_of_ranked h (Nat.lt_succ_self _)
      (Nat.lt_of_lt_of_le (Nat.lt_succ_self _) (Nat.le_max_right n _))] at hcomes
    exact not_endless_of_finished hlarger hcomes ⟨rfl, hcycle⟩
  · intro hgrounded
    refine ⟨rank dest + 1, fun P x hcomes hend => ?_⟩
    rcases x with ⟨place, w, kind, reqSK⟩ | _ | _
    · cases kind with
      | interface =>
        obtain ⟨rfl, hcycle⟩ := hend
        exact hcycle (hgrounded P place w hcomes)
      | _ => cases hend
    · cases hend
    · exact deep_not_mem_visits h (Nat.lt_succ_self _) hcomes.mem

/-! ## A list that contains itself -/

/-- A struct with one field that asks for string keys. -/
def stringKeysKind : Nat → DestKind Nat
  | 0 => .struct [⟨['F'], requireStringKeysTag, 1⟩]
  | _ => .interface

/-- A dict with a list that contains itself. -/
def selfList : List UInt8 :=
  [opcodePROTO, 4, opcodeEMPTY_DICT, opcodeSHORT_BINUNICODE, 1, 70, opcodeEMPTY_LIST,
    opcodeMEMOIZE, opcodeBINGET, 0, opcodeAPPEND, opcodeSETITEM, opcodeSTOP]

/-- `Decode` of it has no end. -/
theorem selfList_overflows : ¬∀ (rt : Runtime) (typ : Nat → DestKind Nat) (dest : Nat)
    (src : List UInt8), ∃ depth n, decode rt typ depth n dest src ≠ .error (.bind .overflow) := by
  intro hall
  obtain ⟨depth, n, hfinished⟩ := hall asciiRuntime stringKeysKind 0 selfList
  have hexec : DecodesTo selfList (.ref 0)
      [.dict [(.string (lit "F"), .ref 1)], .list [.ref 1]] := ⟨4, _, rfl, by decide, rfl⟩
  have hbind : bind asciiRuntime stringKeysKind depth n [] (.ref 0) (stringKeysKind 0) false
      (.ofHeap [.dict [(.string (lit "F"), .ref 1)], .list [.ref 1]]) ≠ .error .overflow :=
    fun hres => hfinished (decode_overflow_iff.mpr ⟨_, _, hexec, hres⟩)
  have hcycle : ¬Grounded (Graph.ofHeap [.dict [(.string (lit "F"), .ref 1)],
      .list [.ref 1]]).children (.ref 1) := not_grounded_of_mem_self (List.mem_singleton_self _)
  have htakes : (Graph.ofHeap [.dict [(.string (lit "F"), .ref 1)], .list [.ref 1]]).Takes
      (.ref 0) (stringKeysKind 0) := .inl ⟨_, rfl⟩
  have hsucceeds : (Visit.value none (.ref 0) (stringKeysKind 0) false).Succeeds
      (.ofHeap [.dict [(.string (lit "F"), .ref 1)], .list [.ref 1]]) ∅ :=
    succeeds_value htakes (by simp [stringKeysKind]) fun h => not_replaced_none h.1
  rcases n with _ | _ | n
  · exact not_endless_of_finished hbind (.here _ _ _) trivial
  · exact not_endless_of_finished hbind (.there hsucceeds (.here _ _ _)) trivial
  · exact not_endless_of_finished hbind (.there hsucceeds (.here _ _ _)) ⟨rfl, hcycle⟩

end Isthmus.Pickle
