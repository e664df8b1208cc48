import Isthmus.Pickle.Sharing

/-!
# Interference

Where a list is shared, what is bound from it first can be seen in what is bound from it
later: a field that asks for string keys replaces the dicts in it, and another field finds
the maps. Binding from a copy in which nothing is shared does not do this.

## Main definitions

- `Agree`: the results are the same
- `Undisturbed`: what has to hold for the calls and the interfaces that are kept

## Main results

- `agree_iff`: when the results are the same
- `undisturbed_of_injective`: where nothing is shared
-/

namespace Isthmus.Pickle

open Recursion

/-! ## Results -/

/-- Binding stops in the same way, at any error. -/
def Stop.Agree : Stop → Stop → Prop
  | .error _, .error _ | .panic, .panic | .overflow, .overflow => True
  | _, _ => False

/-- The destinations hold the same, or there is an error in both. -/
def Agree : Except Stop (Bound × Graph) → Except Stop (Bound × Graph) → Prop
  | .ok (b', g'), .ok (b, g) => Same g' g b' b
  | .error stop', .error stop => stop'.Agree stop
  | _, _ => False

variable {τ : Type}

/-- The call finds the dict of a torn place, but sets no interface. -/
def Visit.ReadsTorn (φ : Nat → Nat) (g : Graph) (P : Set (Nat × Nat)) : Visit τ → Prop
  | .value place v kind _ => kind ≠ .interface ∧ Replaced (torn φ P) place ∧ g.IsDict v
  | _ => False

section Stops

variable {α : Type} {g : Graph} {P P₁ P₂ : Set (Nat × Nat)} {depth : Nat} {l : List (Visit τ)}
  {x y : Visit τ} {stop stop' : Stop} {o : Except Stop (α × Graph)}

theorem not_succeeds_of_stops (hdepth : ¬x.Endless g → ¬x.Exceeds g depth)
    (hx : x.Stops g P depth stop) : ¬x.Succeeds g P := by
  rintro ⟨hfits, hnot⟩
  obtain ⟨hnil, hend⟩ := not_or.mp (Visit.fails_iff.not.mp hnot)
  cases stop with
  | error err => exact hx hfits
  | panic => exact hnil hx
  | overflow => exact hx.elim hend (hdepth hend)

/-- A call does not stop in two ways. -/
theorem stops_agree (hdepth : ¬x.Endless g → ¬x.Exceeds g depth) (hx : x.Stops g P depth stop)
    (hx' : x.Stops g P depth stop') : stop'.Agree stop := by
  have hend : x.Stops g P depth .overflow → x.Endless g := by
    rintro (h | h)
    · exact h
    · by_contra hnot
      exact hdepth hnot h
  have herror : ∀ {err}, x.Stops g P depth (.error err) → ¬x.StoresNil ∧ ¬x.Endless g := by
    intro err h
    exact not_or.mp (Visit.fails_iff.not.mp (not_fails_of_not_fits h))
  have hpanic : x.StoresNil → ¬x.Endless g := by
    rcases x with ⟨place, v, kind, reqSK⟩ | _ | _
    · cases kind with
      | interface =>
        rintro rfl ⟨-, hcycle⟩
        exact hcycle (grounded_iff.mpr fun u hu => absurd hu List.not_mem_nil)
      | _ => exact fun h => h.elim
    · exact fun h => h.elim
    · exact fun h => h.elim
  cases stop with
  | error err =>
    cases stop' with
    | error err' => trivial
    | panic => exact absurd hx' (herror hx).1
    | overflow => exact absurd (hend hx') (herror hx).2
  | panic =>
    cases stop' with
    | error err' => exact absurd hx (herror hx').1
    | panic => trivial
    | overflow => exact absurd (hend hx') (hpanic hx)
  | overflow =>
    cases stop' with
    | error err' => exact absurd (hend hx) (herror hx').2
    | panic => exact absurd (hend hx) (hpanic hx')
    | overflow => trivial

/-- Binding stops in the way of the call that does not succeed. -/
theorem Follows.stops (h : Follows g depth P l o)
    (hdepth : ∀ x ∈ l, ¬x.Endless g → ¬x.Exceeds g depth)
    (hcomes : Comes (Visit.Succeeds g) (Visit.next g) P l P₁ x) (hx : x.Stops g P₁ depth stop) :
    ∃ stop', o = .error stop' ∧ stop'.Agree stop := by
  have hnot := not_succeeds_of_stops (hdepth x hcomes.mem) hx
  cases o with
  | ok p => exact absurd (hcomes.pass_of_passes h.1) hnot
  | error stop' =>
    obtain ⟨P₂, y, hcomes', hy⟩ := h
    obtain ⟨rfl, rfl⟩ :=
      hcomes'.unique (not_succeeds_of_stops (hdepth y hcomes'.mem) hy) hcomes hnot
    exact ⟨stop', rfl, stops_agree (hdepth y hcomes'.mem) hx hy⟩

theorem Stop.Agree.symm (h : stop.Agree stop') : stop'.Agree stop := by
  cases stop <;> cases stop' <;> exact h

/-- A call that is refused is an error. -/
theorem Follows.refused (h : Follows g depth P l o)
    (hdepth : ∀ x ∈ l, ¬x.Endless g → ¬x.Exceeds g depth)
    (hcomes : Comes (Visit.Succeeds g) (Visit.next g) P l P₁ x) (hx : ¬x.Fits g P₁) :
    ∃ err, o = .error (.error err) := by
  have hstops : x.Stops g P₁ depth (.error ⟨[], []⟩) := hx
  obtain ⟨stop, hstop, hagree⟩ := h.stops hdepth hcomes hstops
  cases stop with
  | error err => exact ⟨err, hstop⟩
  | panic => exact hagree.elim
  | overflow => exact hagree.elim

end Stops

/-! ## The calls on the graph -/

section Copies

variable {φ : Nat → Nat} {heap' heap : Heap} {P : Set (Nat × Nat)} {x : Visit τ} {depth : Nat}

theorem storesNil_rename : (x.rename φ).StoresNil ↔ x.StoresNil := by
  rcases x with ⟨place, v, kind, reqSK⟩ | _ | _
  · cases kind with
    | interface => exact rename_eq_none
    | _ => exact Iff.rfl
  · exact Iff.rfl
  · exact Iff.rfl

variable (h : Copies φ heap' heap)

include h

theorem Copies.takes_iff {v : Value} {kind : DestKind τ} :
    (Graph.ofHeap heap).Takes (v.rename φ) kind ↔ (Graph.ofHeap heap').Takes v kind := by
  cases kind with
  | int size => exact exists_congr fun n => rename_eq_int
  | string => exact exists_congr fun s => rename_eq_string
  | bool => exact exists_congr fun b => rename_eq_bool
  | slice elem =>
    simp only [Graph.Takes, h.shape v]
    cases (Graph.ofHeap heap').shape v <;> simp [Shape.rename]
  | struct fields =>
    simp only [Graph.Takes, h.isDict_iff, h.shape v]
    refine or_congr_right ?_
    cases (Graph.ofHeap heap').shape v <;> simp [Shape.rename]
  | map key elem => exact h.isDict_iff
  | interface => exact Iff.rfl

theorem Copies.fits_iff : (x.rename φ).Fits (.ofHeap heap) (renamePlaces φ P) ↔
    x.Fits (.ofHeap heap') P ∧ ¬x.ReadsTorn φ (.ofHeap heap') P := by
  rcases x with ⟨place, v, kind, reqSK⟩ | _ | _
  · simp only [Visit.rename, Visit.Fits, Visit.ReadsTorn, h.takes_iff, h.isDict_iff, torn_iff]
    have himp : Replaced P place →
        Replaced (renamePlaces φ P) (place.map (renamePlace φ)) := Replaced.rename
    tauto
  · exact (and_iff_left id).symm
  · exact (and_iff_left id).symm

theorem Copies.endless_iff : (x.rename φ).Endless (.ofHeap heap) ↔
    x.Endless (.ofHeap heap') := by
  rcases x with ⟨place, v, kind, reqSK⟩ | _ | _
  · cases kind with
    | interface => exact and_congr_right' (grounded_map h.children).not
    | _ => exact Iff.rfl
  · exact Iff.rfl
  · exact Iff.rfl

theorem Copies.exceeds_iff : (x.rename φ).Exceeds (.ofHeap heap) depth ↔
    x.Exceeds (.ofHeap heap') depth := by
  rcases x with ⟨place, v, kind, reqSK⟩ | _ | _
  · cases kind with
    | interface =>
      cases reqSK with
      | false => exact Iff.rfl
      | true => exact (within_map h.children).not
    | _ => exact Iff.rfl
  · exact Iff.rfl
  · exact Iff.rfl

theorem Copies.next (P : Set (Nat × Nat)) (x : Visit τ) :
    (x.rename φ).next (.ofHeap heap) (renamePlaces φ P) =
      renamePlaces φ (x.next (.ofHeap heap') P) := by
  rcases x with ⟨place, v, kind, reqSK⟩ | _ | _
  · cases kind with
    | interface =>
      cases reqSK with
      | false => rfl
      | true =>
        simp only [Visit.rename, Visit.next, h.places]
        exact (Set.image_union _ _ _).symm
    | _ => rfl
  · rfl
  · rfl

/-- A call on the graph succeeds where its copy does and finds no torn place. -/
theorem Copies.succeeds_iff : (x.rename φ).Succeeds (.ofHeap heap) (renamePlaces φ P) ↔
    x.Succeeds (.ofHeap heap') P ∧ ¬x.ReadsTorn φ (.ofHeap heap') P := by
  rw [Visit.Succeeds, Visit.Succeeds, h.fits_iff, Visit.fails_iff, Visit.fails_iff,
    storesNil_rename, h.endless_iff, and_right_comm]

theorem Copies.stops {stop : Stop} (hx : x.Stops (.ofHeap heap') P depth stop) :
    (x.rename φ).Stops (.ofHeap heap) (renamePlaces φ P) depth stop := by
  cases stop with
  | error err => exact fun hfits => hx (h.fits_iff.mp hfits).1
  | panic => exact storesNil_rename.mpr hx
  | overflow => exact hx.imp h.endless_iff.mpr h.exceeds_iff.mpr

/-- A call that its copy is refused or that finds a torn place is refused. -/
theorem Copies.not_fits (hx : ¬x.Fits (.ofHeap heap') P ∨ x.ReadsTorn φ (.ofHeap heap') P) :
    ¬(x.rename φ).Fits (.ofHeap heap) (renamePlaces φ P) := by
  rw [h.fits_iff]
  exact fun hfits => hx.elim (fun hnot => hnot hfits.1) hfits.2

/-- Binding from the graph is refused where binding from the copy is, or finds a torn
place. -/
theorem Copies.refused {P₁ : Set (Nat × Nat)} {l : List (Visit τ)}
    (hcomes : Comes (Visit.Succeeds (.ofHeap heap')) (Visit.next (.ofHeap heap')) P l P₁ x)
    (hx : ¬x.Fits (.ofHeap heap') P₁ ∨ x.ReadsTorn φ (.ofHeap heap') P₁) :
    ∃ P₂ y, Comes (Visit.Succeeds (.ofHeap heap)) (Visit.next (.ofHeap heap)) (renamePlaces φ P)
      (l.map (Visit.rename φ)) P₂ y ∧ ¬y.Fits (.ofHeap heap) P₂ := by
  by_cases hall : ∀ P₂ y,
      Comes (Visit.Succeeds (.ofHeap heap')) (Visit.next (.ofHeap heap')) P l P₂ y →
        y.Succeeds (.ofHeap heap') P₂ → (y.rename φ).Succeeds (.ofHeap heap) (renamePlaces φ P₂)
  · exact ⟨_, _, hcomes.map h.next hall, h.not_fits hx⟩
  · -- an earlier call finds a torn place
    simp only [not_forall] at hall
    obtain ⟨P₂, y, hcomes₂, hy, hstop⟩ := hall
    obtain ⟨P₃, z, hz, hstop₃, hcomes₃⟩ := hcomes₂.stop_of_map h.next hy hstop
    refine ⟨_, _, hcomes₃, h.not_fits (.inr ?_)⟩
    by_contra hnot
    exact hstop₃ (h.succeeds_iff.mpr ⟨hz, hnot⟩)

end Copies

/-! ## When the results are the same -/

/-- A call on the copy does not take its value, or the calls read from no torn place and,
if all of them succeed, the interfaces that are kept are intact. -/
def Undisturbed (φ : Nat → Nat) (rt : Runtime) (typ : τ → DestKind τ) (heap' : Heap) (n : Nat)
    (v : Value) (dest : τ) : Prop :=
  let g := Graph.ofHeap heap'
  let calls := visits rt typ g n [] none v (typ dest) false
  (∃ P x, Comes (Visit.Succeeds g) (Visit.next g) ∅ calls P x ∧ ¬x.Fits g P) ∨
    (∀ P x, Comes (Visit.Succeeds g) (Visit.next g) ∅ calls P x → ¬x.ReadsTorn φ g P) ∧
    (Passes (Visit.Succeeds g) (Visit.next g) ∅ calls →
      ∀ x ∈ leaves rt typ g n ∅ ⟨[], .none, none, v, typ dest, false⟩,
        x.Intact φ g (after (Visit.next g) ∅ calls))

section Agree

variable {φ : Nat → Nat} {heap' heap : Heap} {v : Value}

theorem Visit.Exceeds.mono {g : Graph} {m n : Nat} (hle : m ≤ n) {x : Visit τ}
    (hx : x.Exceeds g n) : x.Exceeds g m := by
  rcases x with ⟨place, v, kind, reqSK⟩ | _ | _
  · cases kind with
    | interface =>
      cases reqSK with
      | false => exact hx
      | true => exact fun hwithin => hx (hwithin.mono hle)
    | _ => exact hx
  · exact hx
  · exact hx

theorem exists_depth_of_le (g : Graph) (l : List (Visit τ)) :
    ∃ D, ∀ depth, D ≤ depth → ∀ x ∈ l, ¬x.Endless g → ¬x.Exceeds g depth := by
  obtain ⟨D, hD⟩ := exists_depth g l
  exact ⟨D, fun depth hle x hx hend hexceeds => hD x hx hend (hexceeds.mono hle)⟩

theorem renamePlaces_empty : renamePlaces φ ∅ = ∅ := Set.image_empty _

section Outcomes

variable {l : List (Visit τ)} {depth : Nat} {o' o : Except Stop (Bound × Graph)}
  {P : Set (Nat × Nat)} {x : Visit τ} (h : Copies φ heap' heap)
  (hdepth : ∀ x ∈ l, ¬x.Endless (.ofHeap heap') → ¬x.Exceeds (.ofHeap heap') depth)
  (hrun' : Follows (.ofHeap heap') depth ∅ l o')
  (hrun : Follows (.ofHeap heap) depth ∅ (l.map (Visit.rename φ)) o)

include h hdepth

/-- What is enough for the copy is enough for the graph. -/
theorem Copies.not_exceeds : ∀ x ∈ l.map (Visit.rename φ), ¬x.Endless (.ofHeap heap) →
    ¬x.Exceeds (.ofHeap heap) depth := by
  refine List.forall_mem_map.mpr fun x hx => ?_
  rw [h.endless_iff, h.exceeds_iff]
  exact hdepth x hx

include hrun

/-- Binding from the graph is an error where binding from the copy is refused or finds a
torn place. -/
theorem error_of_comes
    (hcomes : Comes (Visit.Succeeds (.ofHeap heap')) (Visit.next (.ofHeap heap')) ∅ l P x)
    (hx : ¬x.Fits (.ofHeap heap') P ∨ x.ReadsTorn φ (.ofHeap heap') P) :
    ∃ err, o = .error (.error err) := by
  obtain ⟨P₂, y, hcomes₂, hy⟩ := h.refused hcomes hx
  rw [renamePlaces_empty] at hcomes₂
  exact hrun.refused (h.not_exceeds hdepth) hcomes₂ hy

include hrun'

/-- Where no call finds a torn place, both stop in the same way or both make all calls. -/
theorem outcomes_of_untorn (htorn : ∀ P x, Comes (Visit.Succeeds (.ofHeap heap'))
      (Visit.next (.ofHeap heap')) ∅ l P x → ¬x.ReadsTorn φ (.ofHeap heap') P) :
    (∃ stop' stop, o' = .error stop' ∧ o = .error stop ∧ stop'.Agree stop ∧
        ¬Passes (Visit.Succeeds (.ofHeap heap')) (Visit.next (.ofHeap heap')) ∅ l) ∨
      ∃ p' p, o' = .ok p' ∧ o = .ok p ∧
        Passes (Visit.Succeeds (.ofHeap heap')) (Visit.next (.ofHeap heap')) ∅ l := by
  have hall : ∀ P x, Comes (Visit.Succeeds (.ofHeap heap')) (Visit.next (.ofHeap heap')) ∅ l P x →
      x.Succeeds (.ofHeap heap') P → (x.rename φ).Succeeds (.ofHeap heap) (renamePlaces φ P) :=
    fun P x hcomes hx => h.succeeds_iff.mpr ⟨hx, htorn P x hcomes⟩
  cases o' with
  | error stop' =>
    obtain ⟨P, x, hcomes, hx⟩ := hrun'
    have hcomes₂ := hcomes.map h.next hall
    rw [renamePlaces_empty] at hcomes₂
    obtain ⟨stop, hstop, hagree⟩ := hrun.stops (h.not_exceeds hdepth) hcomes₂ (h.stops hx)
    refine .inl ⟨stop', stop, rfl, hstop, hagree.symm, fun hpasses => ?_⟩
    exact not_succeeds_of_stops (hdepth x hcomes.mem) hx (hcomes.pass_of_passes hpasses)
  | ok p' =>
    have hpasses := (passes_map h.next (fun P x hx => (h.succeeds_iff.mp hx).1) hall).mpr hrun'.1
    rw [renamePlaces_empty] at hpasses
    cases o with
    | error stop =>
      obtain ⟨P, x, hcomes, hx⟩ := hrun
      exact absurd (hcomes.pass_of_passes hpasses)
        (not_succeeds_of_stops (h.not_exceeds hdepth x hcomes.mem) hx)
    | ok p => exact .inr ⟨p', p, rfl, rfl, hrun'.1⟩

/-- Where a call finds a torn place and none is refused, only the graph gives an error. -/
theorem not_agree_of_torn
    (hfits : ∀ P x, Comes (Visit.Succeeds (.ofHeap heap')) (Visit.next (.ofHeap heap')) ∅ l P x →
      x.Fits (.ofHeap heap') P)
    (hcomes : Comes (Visit.Succeeds (.ofHeap heap')) (Visit.next (.ofHeap heap')) ∅ l P x)
    (hx : x.ReadsTorn φ (.ofHeap heap') P) : ¬Agree o' o := by
  obtain ⟨err, rfl⟩ := error_of_comes h hdepth hrun hcomes (.inr hx)
  intro hagree
  cases o' with
  | ok p' => exact hagree
  | error stop' =>
    cases stop' with
    | error err' =>
      obtain ⟨P₂, y, hcomes₂, hy⟩ := hrun'
      exact hy (hfits P₂ y hcomes₂)
    | panic => exact hagree
    | overflow => exact hagree

end Outcomes

/-- Binding from a graph and from a copy of it has the same result where the copy is not
disturbed. -/
theorem agree_iff (h : Copies φ heap' heap) (hkeys : (Graph.ofHeap heap).KeysDistinct)
    (hv : (Graph.ofHeap heap').IsWhole v) (rt : Runtime) (typ : τ → DestKind τ) (dest : τ)
    (n : Nat) : ∃ D, ∀ depth, D ≤ depth →
      (Agree (bind rt typ depth n [] v (typ dest) false (.ofHeap heap'))
          (bind rt typ depth n [] (v.rename φ) (typ dest) false (.ofHeap heap)) ↔
        Undisturbed φ rt typ heap' n v dest) := by
  obtain ⟨D, hD⟩ := exists_depth_of_le (.ofHeap heap')
    (visits rt typ (.ofHeap heap') n [] none v (typ dest) false)
  refine ⟨D, fun depth hle => ?_⟩
  have hdepth := hD depth hle
  have hrun' := follows_start rt typ depth n v heap' dest
  have hrun := follows_start rt typ depth n (v.rename φ) heap dest
  have hcalls : visits rt typ (.ofHeap heap) n [] none (v.rename φ) (typ dest) false = _ :=
    h.visits n [] none v (typ dest) false
  rw [hcalls] at hrun
  unfold Undisturbed
  by_cases hrefused : ∃ P x, Comes (Visit.Succeeds (.ofHeap heap')) (Visit.next (.ofHeap heap'))
      ∅ (visits rt typ (.ofHeap heap') n [] none v (typ dest) false) P x ∧
        ¬x.Fits (.ofHeap heap') P
  · refine iff_of_true ?_ (.inl hrefused)
    obtain ⟨P, x, hcomes, hx⟩ := hrefused
    obtain ⟨err', herr'⟩ := hrun'.refused hdepth hcomes hx
    obtain ⟨err, herr⟩ := error_of_comes h hdepth hrun hcomes (.inl hx)
    rw [herr', herr]
    trivial
  · refine Iff.trans ?_ (or_iff_right hrefused).symm
    by_cases htorn : ∀ P x, Comes (Visit.Succeeds (.ofHeap heap')) (Visit.next (.ofHeap heap'))
        ∅ (visits rt typ (.ofHeap heap') n [] none v (typ dest) false) P x →
          ¬x.ReadsTorn φ (.ofHeap heap') P
    · refine Iff.trans ?_ (and_iff_right htorn).symm
      obtain ⟨stop', stop, hstop', hstop, hagree, hnot⟩ | ⟨⟨b', g'⟩, ⟨b, g⟩, hp', hp, hpasses⟩ :=
        outcomes_of_untorn h hdepth hrun' hrun htorn
      · rw [hstop', hstop]
        exact iff_of_true hagree fun hpasses => absurd hpasses hnot
      · have hsound : Turn.IsSound (.ofHeap heap') ⟨[], .none, none, v, typ dest, false⟩ :=
          ⟨hv, isWhole_none _, fun p hp => by cases hp⟩
        have hstart : Joint φ heap' heap ∅ .empty .empty (.ofHeap heap') (.ofHeap heap) := by
          refine ⟨traced_self, ?_⟩
          rw [renamePlaces_empty]
          exact traced_self
        obtain ⟨ω', ω, -, -, hjoint, hjudged⟩ :=
          judged h hkeys rt typ depth n hsound hstart hp' hp
        rw [hp', hp]
        refine Iff.trans ?_ (imp_iff_right hpasses).symm
        exact hjudged (.refl ω') (.refl ω) hjoint
    · refine iff_of_false ?_ fun hcond => htorn hcond.1
      simp only [not_forall, not_not] at htorn
      obtain ⟨P, x, hcomes, hx⟩ := htorn
      refine not_agree_of_torn h hdepth hrun' hrun (fun P₂ y hcomes₂ => ?_) hcomes hx
      by_contra hy
      exact hrefused ⟨P₂, y, hcomes₂, hy⟩

end Agree

/-! ## Copies of what is not shared -/

section Injective

variable {φ : Nat → Nat} {g : Graph} {P : Set (Nat × Nat)} {a : Prop} {v : Value}

theorem torn_eq_empty (hφ : Function.Injective φ) (P : Set (Nat × Nat)) : torn φ P = ∅ := by
  ext ⟨r, i⟩
  refine iff_of_false ?_ (Set.notMem_empty _)
  rintro ⟨hnot, ⟨s, j⟩, hmem, heq⟩
  obtain ⟨hr, rfl⟩ := Prod.mk.inj heq
  obtain rfl : s = r := hφ hr
  exact hnot hmem

theorem not_shows_empty : ¬Shows g P ∅ a v := by
  intro h
  generalize hT : (∅ : Set (Nat × Nat)) = T at h
  induction h with
  | here _ _ hmem =>
    subst hT
    exact hmem
  | item _ _ _ ih => exact ih
  | entry _ _ _ _ ih => exact ih
  | part _ _ _ _ ih => exact ih

/-- A copy that has each list once is not disturbed. -/
theorem undisturbed_of_injective (hφ : Function.Injective φ) (rt : Runtime) (typ : τ → DestKind τ)
    (heap' : Heap) (n : Nat) (v : Value) (dest : τ) : Undisturbed φ rt typ heap' n v dest := by
  have hnone : ∀ {P place}, ¬Replaced (torn φ P) place := by
    rintro P place ⟨p, hp, -⟩
    rw [torn_eq_empty hφ] at hp
    exact hp
  refine .inr ⟨fun P x _ hx => ?_, fun _ x _ => ⟨fun hx => absurd hx.1 hnone, ?_⟩⟩
  · rcases x with ⟨place, w, kind, reqSK⟩ | _ | _
    · exact hnone hx.2.1
    · exact hx
    · exact hx
  · rw [torn_eq_empty hφ]
    exact not_shows_empty

end Injective

end Isthmus.Pickle
