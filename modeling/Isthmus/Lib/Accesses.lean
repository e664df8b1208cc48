import Mathlib.Logic.Function.Basic

/-!
# Accesses to a keyed store

What the clients of a keyed store see of it is a history of reads and of reported
writes. The history is consistent when each read finds what was last reported for
its key, or what was there at first. A system whose steps are consistent, and
leave in its store what they report, has only consistent histories.

## Main definitions

- `Access`: one read or one reported write
- `Access.Consistent`: the consistent histories
- `Reaction.run`: the history of a run of a system
-/

inductive Access (κ ν : Type) where
  | found (k : κ) (v : Option ν)
  | reported (k : κ) (v : ν)

namespace Access

variable {κ ν : Type} [DecidableEq κ]

/-- The store after an access. -/
def after (view : κ → Option ν) : Access κ ν → κ → Option ν
  | .found _ _ => view
  | .reported k v => Function.update view k (some v)

/-- The store after a history. -/
def replay (view : κ → Option ν) (as : List (Access κ ν)) : κ → Option ν := as.foldl after view

/-- Each read finds what the store holds before it. -/
def Consistent (view : κ → Option ν) : List (Access κ ν) → Prop
  | [] => True
  | a :: as => (∀ k v, a = .found k v → view k = v) ∧ Consistent (after view a) as

variable {view : κ → Option ν} {as bs : List (Access κ ν)}

theorem replay_append : replay view (as ++ bs) = replay (replay view as) bs := List.foldl_append

theorem consistent_append :
    Consistent view (as ++ bs) ↔ Consistent view as ∧ Consistent (replay view as) bs := by
  induction as generalizing view with
  | nil => exact (and_iff_right trivial).symm
  | cons a as ih => exact (and_congr_right fun _ => ih).trans and_assoc.symm

/-- Reads alone are consistent with the store that they are made of. -/
theorem consistent_found {reads : List (κ × Option ν)} (h : ∀ p ∈ reads, view p.1 = p.2) :
    Consistent view (reads.map fun p => .found p.1 p.2) ∧
      replay view (reads.map fun p => .found p.1 p.2) = view := by
  induction reads with
  | nil => exact ⟨trivial, rfl⟩
  | cons p reads ih =>
    obtain ⟨hcons, hview⟩ := ih fun q hq => h q (List.mem_cons_of_mem _ hq)
    refine ⟨⟨?_, hcons⟩, hview⟩
    rintro k v ⟨rfl, rfl⟩
    exact h p List.mem_cons_self

end Access

/-- What a system does on an input: what is seen of it, its next state, and whether
it ends there. -/
structure Reaction (σ κ ν : Type) where
  accesses : List (Access κ ν)
  state : σ
  ended : Bool

namespace Reaction

variable {σ ι κ ν : Type} [DecidableEq κ] (step : σ → ι → Reaction σ κ ν)

/-- The history of a run, and the state after it. -/
def run : σ → List ι → List (Access κ ν) × σ
  | s, [] => ([], s)
  | s, i :: is =>
    if (step s i).ended then ((step s i).accesses, (step s i).state)
    else ((step s i).accesses ++ (run (step s i).state is).1, (run (step s i).state is).2)

/-- A condition on every input of a run and the state that it comes in. -/
def Along (cond : σ → ι → Prop) : σ → List ι → Prop
  | _, [] => True
  | s, i :: is => cond s i ∧ ((step s i).ended = false → Along cond (step s i).state is)

/-- The reaction is consistent, and leaves in the store what it reports. -/
def Faithful (view : σ → κ → Option ν) (s : σ) (r : Reaction σ κ ν) : Prop :=
  Access.Consistent (view s) r.accesses ∧ view r.state = Access.replay (view s) r.accesses

variable {step} {view : σ → κ → Option ν} {cond : σ → ι → Prop}

/-- A run whose steps are faithful is consistent, and leaves what it reports. -/
theorem run_faithful (inv : σ → Prop)
    (hstep : ∀ s i, inv s → cond s i → (step s i).Faithful view s ∧ inv (step s i).state)
    {s : σ} {is : List ι} (hs : inv s) (h : Along step cond s is) :
    Access.Consistent (view s) (run step s is).1 ∧
      view (run step s is).2 = Access.replay (view s) (run step s is).1 := by
  induction is generalizing s with
  | nil => exact ⟨trivial, rfl⟩
  | cons i is ih =>
    obtain ⟨hi, hrest⟩ := h
    obtain ⟨⟨hcons, hview⟩, hinv⟩ := hstep s i hs hi
    rw [run]
    split
    · exact ⟨hcons, hview⟩
    · next hgoes =>
      obtain ⟨hcons', hview'⟩ := ih hinv (hrest (by simpa using hgoes))
      rw [hview] at hcons' hview'
      exact ⟨Access.consistent_append.mpr ⟨hcons, hcons'⟩,
        hview'.trans Access.replay_append.symm⟩

end Reaction
