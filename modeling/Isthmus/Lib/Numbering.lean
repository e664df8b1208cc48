import Mathlib.Logic.Function.Basic
import Mathlib.Data.List.Basic

/-!
# Numberings

Keys are numbered in the order in which they first come. A key that has a number
keeps it, and no two keys have the same.
-/

/-- The numbers of some keys, from one on, and the next one. -/
structure Interner (K : Type*) where
  number : K → Option Int
  next : Int
  next_pos : 1 ≤ next
  range : ∀ k i, number k = some i → 1 ≤ i ∧ i < next
  injective : ∀ k k' i, number k = some i → number k' = some i → k = k'

namespace Interner

variable {K : Type*}

/-- No key has a number. -/
def start : Interner K where
  number _ := none
  next := 1
  next_pos := Int.le_refl 1
  range _ _ h := by cases h
  injective _ _ _ h := by cases h

variable [DecidableEq K] (t : Interner K) (k : K)

/-- The key gets the next number. -/
def assign : Interner K where
  number := Function.update t.number k (some t.next)
  next := t.next + 1
  next_pos := by
    have hpos := t.next_pos
    omega
  range k' i h := by
    by_cases hk' : k' = k
    · subst hk'
      rw [Function.update_self, Option.some.injEq] at h
      have hpos := t.next_pos
      omega
    · rw [Function.update_of_ne hk'] at h
      have hrange := t.range k' i h
      omega
  injective k₁ k₂ i h₁ h₂ := by
    -- the next number is not in use
    have hnext : ∀ k', t.number k' ≠ some t.next := by
      intro k' hk'
      have hrange := t.range k' t.next hk'
      omega
    by_cases hk₁ : k₁ = k
    · by_cases hk₂ : k₂ = k
      · exact hk₁.trans hk₂.symm
      · subst hk₁
        rw [Function.update_self] at h₁
        rw [Function.update_of_ne hk₂, ← h₁] at h₂
        exact absurd h₂ (hnext k₂)
    · rw [Function.update_of_ne hk₁] at h₁
      by_cases hk₂ : k₂ = k
      · subst hk₂
        rw [Function.update_self] at h₂
        rw [← h₂] at h₁
        exact absurd h₁ (hnext k₁)
      · rw [Function.update_of_ne hk₂] at h₂
        exact t.injective k₁ k₂ i h₁ h₂

theorem number_assign_self : (t.assign k).number k = some t.next := Function.update_self k _ _

theorem number_assign_of_ne {k' : K} (h : k' ≠ k) : (t.assign k).number k' = t.number k' :=
  Function.update_of_ne h _ _

/-- A key without a number gets the next one. -/
def add : Interner K := if t.number k = none then t.assign k else t

variable {t k}

theorem add_of_none (h : t.number k = none) : t.add k = t.assign k := if_pos h

theorem add_of_some {i : Int} (h : t.number k = some i) : t.add k = t := by
  refine if_neg fun hnone => ?_
  cases h.symm.trans hnone

theorem exists_number_add : ∃ i, (t.add k).number k = some i := by
  cases h : t.number k with
  | none =>
    rw [add_of_none h]
    exact ⟨t.next, t.number_assign_self k⟩
  | some i => exact ⟨i, (add_of_some h).symm ▸ h⟩

/-- A number is kept. -/
theorem number_add {k' : K} {i : Int} (h : t.number k' = some i) :
    (t.add k).number k' = some i := by
  cases hk : t.number k with
  | none =>
    have hne : k' ≠ k := by
      rintro rfl
      cases h.symm.trans hk
    rw [add_of_none hk]
    exact (t.number_assign_of_ne k hne).trans h
  | some j => exact (add_of_some hk).symm ▸ h

/-- All keys of a list have numbers after it was gone through. -/
theorem exists_number_foldl {l : List K} (h : k ∈ l) (t : Interner K) :
    ∃ i, (l.foldl add t).number k = some i := by
  have hkeep : ∀ (l : List K) (t : Interner K), (∃ i, t.number k = some i) →
      ∃ i, (l.foldl add t).number k = some i := by
    intro l
    induction l with
    | nil => exact fun t ht => ht
    | cons k' l ih => exact fun t ⟨i, hi⟩ => ih (t.add k') ⟨i, number_add hi⟩
  induction l generalizing t with
  | nil => exact absurd h List.not_mem_nil
  | cons k' l ih =>
    obtain rfl | h := List.mem_cons.mp h
    · exact hkeep l (t.add k) exists_number_add
    · exact ih h (t.add k')

end Interner
