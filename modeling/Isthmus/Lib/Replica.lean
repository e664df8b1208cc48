import Mathlib.Data.List.Basic

/-!
# Replicas of a log

A log grows at its end. A replica of it is told of items together with the index
of the first of them: it takes what comes with the index 0 for the whole log,
appends what comes with its own length, and is broken by any other index.
-/

namespace Replica

variable {α : Type}

/-- What a replica makes of items; `none` is a broken replica. -/
def receive (index : Int) (items : List α) : Option (List α) → Option (List α)
  | none => none
  | some l =>
    if index = 0 then some items
    else if index = l.length then some (l ++ items)
    else none

/-- The items are those of the log from the index on. -/
def Announces (log : List α) (index : Int) (items : List α) : Prop :=
  0 ≤ index ∧ index ≤ log.length ∧ items = log.drop index.toNat

theorem receive_whole (log l : List α) : receive 0 log (some l) = some log := rfl

/-- A replica of the log before its last items is one of the log after them. -/
theorem receive_rest (log new : List α) :
    receive log.length new (some log) = some (log ++ new) := by
  by_cases h : (log.length : Int) = 0
  · have hnil : log = [] := List.length_eq_zero_iff.mp (by omega)
    subst hnil
    rfl
  · simp only [receive, if_neg h, if_true]

theorem announces_whole (log : List α) : Announces log 0 log :=
  ⟨Int.le_refl 0, by omega, rfl⟩

theorem announces_rest (log new : List α) : Announces (log ++ new) log.length new := by
  refine ⟨by omega, ?_, ?_⟩
  · rw [List.length_append]
    omega
  · rw [Int.toNat_natCast, List.drop_left]

/-- The items, if there are any, stand in the log from the index on. -/
def Quotes (log : List α) (index : Int) (items : List α) : Prop :=
  items = [] ∨ ∃ pre : List α, index = pre.length ∧ pre ++ items <+: log

theorem quotes_whole (log : List α) : Quotes log 0 log := .inr ⟨[], rfl, List.prefix_rfl⟩

theorem quotes_rest (log new : List α) : Quotes (log ++ new) log.length new :=
  .inr ⟨log, rfl, List.prefix_rfl⟩

theorem Quotes.append {log items : List α} {index : Int} (h : Quotes log index items)
    (new : List α) : Quotes (log ++ new) index items := by
  refine h.imp_right ?_
  rintro ⟨pre, hindex, hpre⟩
  exact ⟨pre, hindex, hpre.trans (List.prefix_append log new)⟩

end Replica
