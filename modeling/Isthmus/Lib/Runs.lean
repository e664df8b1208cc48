import Mathlib.Data.List.Basic

/-!
# Runs of a system

A system takes an event in a state and moves to the next state. `run` takes a
whole list of events, and `Meets C` says that each event of a run meets the
condition `C` in the state where it is taken.
-/

namespace Runs

variable {S E : Type} (step : S → E → S)

/-- The state after a list of events. -/
def run (s : S) (es : List E) : S := es.foldl step s

/-- Each event meets `C` in the state where it is taken. -/
def Meets (C : S → E → Prop) : S → List E → Prop
  | _, [] => True
  | s, e :: es => C s e ∧ Meets C (step s e) es

variable {step} {C : S → E → Prop} {s : S} {es : List E}

@[simp] theorem run_nil : run step s [] = s := rfl

@[simp] theorem run_cons {e : E} : run step s (e :: es) = run step (step s e) es := rfl

theorem run_append {es' : List E} : run step s (es ++ es') = run step (run step s es) es' :=
  List.foldl_append

theorem meets_append {es' : List E} :
    Meets step C s (es ++ es') ↔ Meets step C s es ∧ Meets step C (run step s es) es' := by
  induction es generalizing s with
  | nil => simp [Meets]
  | cons e es ih => simp [Meets, ih, and_assoc]

theorem Meets.mono {C' : S → E → Prop} (h : Meets step C s es) (hC : ∀ s e, C s e → C' s e) :
    Meets step C' s es := by
  induction es generalizing s with
  | nil => trivial
  | cons e es ih => exact ⟨hC _ _ h.1, ih h.2⟩

theorem Meets.and {C' : S → E → Prop} (h : Meets step C s es) (h' : Meets step C' s es) :
    Meets step (fun s e => C s e ∧ C' s e) s es := by
  induction es generalizing s with
  | nil => trivial
  | cons e es ih => exact ⟨⟨h.1, h'.1⟩, ih h.2 h'.2⟩

theorem meets_and_iff {C' : S → E → Prop} :
    Meets step (fun s e => C s e ∧ C' s e) s es ↔ Meets step C s es ∧ Meets step C' s es := by
  constructor
  · intro h
    exact ⟨h.mono fun _ _ hc => hc.1, h.mono fun _ _ hc => hc.2⟩
  · rintro ⟨h, h'⟩
    exact h.and h'

/-- Conditions that agree where an invariant holds are met by the same runs. -/
theorem meets_congr {C' : S → E → Prop} {I : S → Prop} (hI : ∀ s e, I s → I (step s e))
    (hC : ∀ s e, I s → (C s e ↔ C' s e)) (h0 : I s) :
    Meets step C s es ↔ Meets step C' s es := by
  induction es generalizing s with
  | nil => exact Iff.rfl
  | cons e es ih => exact and_congr (hC s e h0) (ih (hI s e h0))

/-- A condition that ignores the state holds of each event. -/
theorem meets_iff_forall {C : E → Prop} : Meets step (fun _ e => C e) s es ↔ ∀ e ∈ es, C e := by
  induction es generalizing s with
  | nil => simp [Meets]
  | cons e es ih => simp [Meets, ih]

/-- What each event keeps, where it meets the condition, holds after the run. -/
theorem Meets.keep {I : S → Prop} (hI : ∀ s e, I s → C s e → I (step s e))
    (h : Meets step C s es) (h0 : I s) : I (run step s es) := by
  induction es generalizing s with
  | nil => exact h0
  | cons e es ih => exact ih h.2 (hI _ _ h0 h.1)

/-- What each event keeps and yields, where it meets the condition, the run yields. -/
theorem Meets.yield {I : S → Prop} {D : S → E → Prop}
    (hI : ∀ s e, I s → C s e → D s e ∧ I (step s e)) (h : Meets step C s es) (h0 : I s) :
    Meets step D s es := by
  induction es generalizing s with
  | nil => trivial
  | cons e es ih => exact ⟨(hI _ _ h0 h.1).1, ih h.2 (hI _ _ h0 h.1).2⟩

/-- What no event brings about held all along, if it holds after the run. -/
theorem meets_of_run {B : S → Prop} (hB : ∀ s e, B (step s e) → B s) (h : B (run step s es)) :
    Meets step (fun s e => B (step s e)) s es := by
  have hback : ∀ (es : List E) (s : S), B (run step s es) → B s := by
    intro es
    induction es with
    | nil => exact fun s h => h
    | cons e es ih => exact fun s h => hB s e (ih _ h)
  induction es generalizing s with
  | nil => trivial
  | cons e es ih => exact ⟨hback es _ h, ih h⟩

/-- What every event keeps holds after every run. -/
theorem run_keep {I : S → Prop} (hI : ∀ s e, I s → I (step s e)) (h0 : I s) :
    I (run step s es) := by
  induction es generalizing s with
  | nil => exact h0
  | cons e es ih => exact ih (hI _ _ h0)

/-- What holds after an event exactly if it held before and the event meets `C`. -/
theorem run_iff_meets {I J : S → Prop} (hI : ∀ s e, I s → I (step s e))
    (hJ : ∀ s e, I s → (J (step s e) ↔ J s ∧ C s e)) (h0 : I s) :
    J (run step s es) ↔ J s ∧ Meets step C s es := by
  induction es generalizing s with
  | nil => simp [Meets]
  | cons e es ih => rw [run_cons, ih (hI s e h0), hJ s e h0, Meets, and_assoc]

/-- Where an event keeps `J` exactly if it meets `C`, a run has `J` all along
exactly if all its events meet `C`. -/
theorem forall_take_iff_meets {I J : S → Prop} (hI : ∀ s e, I s → I (step s e))
    (hJ : ∀ s e, I s → J s → (J (step s e) ↔ C s e)) (h0 : I s) (hJ0 : J s) :
    (∀ k, J (run step s (es.take k))) ↔ Meets step C s es := by
  induction es generalizing s with
  | nil => simp [Meets, hJ0]
  | cons e es ih =>
    constructor
    · intro h
      have h1 : J (step s e) := by simpa using h 1
      refine ⟨(hJ _ _ h0 hJ0).mp h1, (ih (hI _ _ h0) h1).mp fun k => ?_⟩
      simpa using h (k + 1)
    · rintro ⟨hc, hm⟩ k
      have h1 := (hJ _ _ h0 hJ0).mpr hc
      cases k with
      | zero => simpa using hJ0
      | succ k => simpa using (ih (hI _ _ h0) h1).mpr hm k

/-- The same for runs that may go on with the start of `w`, where `J` holds
exactly of the states from which this stays within `G`. -/
theorem forall_take_append_iff_meets {I J G : S → Prop} {w : List E}
    (hI : ∀ s e, I s → I (step s e)) (hJ : ∀ s e, I s → J s → (J (step s e) ↔ C s e))
    (hw : ∀ s, I s → (J s ↔ ∀ t, t <+: w → G (run step s t))) (h0 : I s) (hJ0 : J s) :
    (∀ k t, t <+: w → G (run step s (es.take k ++ t))) ↔ Meets step C s es := by
  rw [← forall_take_iff_meets hI hJ h0 hJ0]
  refine forall_congr' fun k => ?_
  rw [hw _ (run_keep hI h0)]
  refine forall_congr' fun t => ?_
  rw [run_append]

end Runs
