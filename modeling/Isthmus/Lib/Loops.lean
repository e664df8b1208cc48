import Mathlib.Logic.Relation

/-!
# Loops

A loop steps until it stops with a result. Its size gets less with each step, so
it does stop.
-/

/-- A loop that stops. -/
structure Loop (σ ρ : Type) where
  step : σ → ρ ⊕ σ
  size : σ → Nat
  size_lt : ∀ s s', step s = .inr s' → size s' < size s

namespace Loop

variable {σ ρ : Type} (l : Loop σ ρ)

/-- The result, from a bound on the size. -/
def runBelow : (n : Nat) → (s : σ) → l.size s < n → ρ
  | 0, s, h => absurd h (Nat.not_lt_zero (l.size s))
  | n + 1, s, h =>
    match hs : l.step s with
    | .inl r => r
    | .inr s' => runBelow n s' (Nat.lt_of_lt_of_le (l.size_lt s s' hs) (Nat.le_of_lt_succ h))

/-- The result. -/
def run (s : σ) : ρ := l.runBelow (l.size s + 1) s (Nat.lt_succ_self _)

variable {l} {s s' : σ} {r : ρ}

theorem runBelow_stop {n : Nat} (h : l.size s < n) (hs : l.step s = .inl r) :
    l.runBelow n s h = r := by
  cases n with
  | zero => exact absurd h (Nat.not_lt_zero _)
  | succ n =>
    unfold runBelow
    split
    · next r' hr' => exact Sum.inl.inj (hr'.symm.trans hs)
    · next s' hs' => cases hs'.symm.trans hs

theorem runBelow_next {n : Nat} (h : l.size s < n + 1) (hs : l.step s = .inr s') :
    l.runBelow (n + 1) s h = l.runBelow n s'
      (Nat.lt_of_lt_of_le (l.size_lt s s' hs) (Nat.le_of_lt_succ h)) := by
  rw [runBelow]
  split
  · next r' hr' => cases hr'.symm.trans hs
  · next s'' hs'' =>
    cases hs''.symm.trans hs
    rfl

/-- The bound does not matter. -/
theorem runBelow_eq {n m : Nat} (hn : l.size s < n) (hm : l.size s < m) :
    l.runBelow n s hn = l.runBelow m s hm := by
  induction n generalizing m s with
  | zero => exact absurd hn (Nat.not_lt_zero _)
  | succ n ih =>
    cases m with
    | zero => exact absurd hm (Nat.not_lt_zero _)
    | succ m =>
      cases hs : l.step s with
      | inl r => rw [runBelow_stop hn hs, runBelow_stop hm hs]
      | inr s' => rw [runBelow_next hn hs, runBelow_next hm hs, ih]

theorem run_stop (hs : l.step s = .inl r) : l.run s = r := runBelow_stop _ hs

theorem run_next (hs : l.step s = .inr s') : l.run s = l.run s' :=
  (runBelow_next _ hs).trans (runBelow_eq _ _)

/-- The loop comes from one state to another. -/
def Reaches (l : Loop σ ρ) : σ → σ → Prop :=
  Relation.ReflTransGen fun s s' => l.step s = .inr s'

/-- The result is the one of a step that is reached. -/
theorem run_eq_iff : l.run s = r ↔ ∃ s', l.Reaches s s' ∧ l.step s' = .inl r := by
  constructor
  · intro h
    induction hsize : l.size s using Nat.strongRecOn generalizing s with
    | ind n ih =>
      cases hs : l.step s with
      | inl r' =>
        rw [run_stop hs] at h
        exact ⟨s, .refl, h ▸ hs⟩
      | inr s₁ =>
        have hlt := l.size_lt s s₁ hs
        rw [run_next hs] at h
        obtain ⟨s', hreach, hstop⟩ := ih (l.size s₁) (hsize ▸ hlt) h rfl
        exact ⟨s', .head hs hreach, hstop⟩
  · rintro ⟨s', hreach, hstop⟩
    induction hreach using Relation.ReflTransGen.head_induction_on with
    | refl => exact run_stop hstop
    | head hs _ ih => exact (run_next hs).trans ih

end Loop
