import Mathlib.Data.List.Basic

/-!
# Folds that can fail

A fold takes the elements of a list one after the other, up to the first for which its
step fails. It comes to an element in the state in which it has taken those before it.

## Main definitions

- `Folds.Comes`: the fold comes to an element
-/

namespace Folds

variable {σ τ α : Type*} {step : σ → α → Option σ} {s s' : σ} {l done : List α} {a : α}

/-- The fold takes the elements of `done`, and then comes to `a` in the state `s'`. -/
def Comes (step : σ → α → Option σ) (s : σ) (l done : List α) (s' : σ) (a : α) : Prop :=
  ∃ rest, l = done ++ a :: rest ∧ done.foldlM step s = some s'

theorem Comes.there {b : α} {s₁ : σ} (hb : step s b = some s₁) (h : Comes step s₁ l done s' a) :
    Comes step s (b :: l) (b :: done) s' a := by
  obtain ⟨rest, rfl, hdone⟩ := h
  refine ⟨rest, rfl, ?_⟩
  rw [List.foldlM_cons, hb]
  exact hdone

/-- A fold that fails comes to an element for which its step fails. -/
theorem exists_comes (h : l.foldlM step s = none) :
    ∃ done s' a, Comes step s l done s' a ∧ step s' a = none := by
  induction l generalizing s with
  | nil => cases h
  | cons b l ih =>
    cases hb : step s b with
    | none => exact ⟨[], s, b, ⟨l, rfl, rfl⟩, hb⟩
    | some s₁ =>
      rw [List.foldlM_cons, hb] at h
      obtain ⟨done, s', a, hcomes, ha⟩ := ih h
      exact ⟨b :: done, s', a, hcomes.there hb, ha⟩

/-- A fold that takes whatever another takes, with states that are related to its states. -/
theorem foldlM_related {step' : τ → α → Option τ} {R : σ → τ → Prop}
    (hstep : ∀ s t a s', R s t → step s a = some s' → ∃ t', step' t a = some t' ∧ R s' t') {t : τ}
    (hR : R s t) (h : l.foldlM step s = some s') : ∃ t', l.foldlM step' t = some t' ∧ R s' t' := by
  induction l generalizing s t with
  | nil =>
    cases h
    exact ⟨t, rfl, hR⟩
  | cons b l ih =>
    rw [List.foldlM_cons] at h
    obtain ⟨s₁, hb, hrest⟩ := Option.bind_eq_some_iff.mp h
    obtain ⟨t₁, ht₁, hR₁⟩ := hstep s t b s₁ hR hb
    obtain ⟨t', ht', hR'⟩ := ih hR₁ hrest
    refine ⟨t', ?_, hR'⟩
    rw [List.foldlM_cons, ht₁]
    exact ht'

end Folds
