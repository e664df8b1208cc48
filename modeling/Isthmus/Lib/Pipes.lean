import Isthmus.Lib.Channels

/-!
# Pipes

The moves of a system of goroutines let messages pass: what is read, what is sent to a
channel, what is written. `flow` lists what passes at one place in a run, in order. A
pipe gives out what it takes in, in the same order: what came in is what went out,
followed by what is inside. Two pipes in a row are one.

## Main definitions

- `Pipes.last`: the state in which a run ends, or panics
- `Pipes.flow`: what passes at a place during a run
- `Pipes.Pipe`: two places, and what is between them
- `Pipes.Component`: a part of a system, with the moves that are made in it
-/

namespace Pipes

open Channels

section Flows

variable {σ ι α β : Type} (move : σ → ι → Outcome σ)

/-- The state after a run, or the one in which it panics. -/
def last : σ → List ι → σ
  | s, [] => s
  | s, i :: is =>
    match move s i with
    | .blocked => last s is
    | .panic => s
    | .done s' => last s' is

/-- What the moves that are made let pass, in order. -/
def flow (place : σ → ι → List α) : σ → List ι → List α
  | _, [] => []
  | s, i :: is =>
    match move s i with
    | .blocked => flow place s is
    | .panic => []
    | .done s' => place s i ++ flow place s' is

variable {move} {Sound : σ → Prop} {s s' : σ} {place : σ → ι → List α}

/-- A run that does not panic makes its first move, or that move waits. -/
theorem run_cons_eq_some {i : ι} {is : List ι} :
    Runs.run (advance move) (some s) (i :: is) = some s' ↔
      move s i = .blocked ∧ Runs.run (advance move) (some s) is = some s' ∨
        ∃ s₁, move s i = .done s₁ ∧ Runs.run (advance move) (some s₁) is = some s' := by
  rw [Runs.run_cons, advance]
  cases hi : move s i <;> simp [Outcome.next, run_none]

theorem last_of_run {is : List ι} (h : Runs.run (advance move) (some s) is = some s') :
    last move s is = s' := by
  induction is generalizing s with
  | nil => exact Option.some.inj h
  | cons i is ih =>
    rw [last]
    obtain ⟨hi, h⟩ | ⟨s₁, hi, h⟩ := run_cons_eq_some.mp h
    · rw [hi]
      exact ih h
    · rw [hi]
      exact ih h

/-- What passes in a run that goes on passes before and after. -/
theorem flow_append_of_run {is : List ι} (h : Runs.run (advance move) (some s) is = some s')
    (js : List ι) : flow move place s (is ++ js) = flow move place s is ++ flow move place s' js := by
  induction is generalizing s with
  | nil =>
    obtain rfl := Option.some.inj h
    rfl
  | cons i is ih =>
    rw [List.cons_append, flow, flow]
    obtain ⟨hi, h⟩ | ⟨s₁, hi, h⟩ := run_cons_eq_some.mp h
    · rw [hi]
      exact ih h
    · rw [hi]
      dsimp only
      rw [ih h, List.append_assoc]

/-- What every move of a kind keeps holds after moves of that kind. -/
theorem last_keep_of_forall {P : ι → Prop}
    (hkeep : ∀ {s s' i}, Sound s → P i → move s i = .done s' → Sound s') (hs : Sound s)
    {is : List ι} (hP : ∀ i ∈ is, P i) : Sound (last move s is) := by
  induction is generalizing s with
  | nil => exact hs
  | cons i is ih =>
    rw [List.forall_mem_cons] at hP
    rw [last]
    cases hi : move s i with
    | blocked => exact ih hs hP.2
    | panic => exact hs
    | done s' => exact ih (hkeep hs hP.1 hi) hP.2

/-- What every move keeps holds in the last state. -/
theorem last_keep (hkeep : ∀ {s s' i}, Sound s → move s i = .done s' → Sound s') (hs : Sound s)
    (is : List ι) : Sound (last move s is) :=
  last_keep_of_forall (P := fun _ => True) (fun hs _ hi => hkeep hs hi) hs fun _ _ => trivial

/-- What the state says of what has passed, if every move keeps saying it. -/
theorem flow_keep {P : σ → List α → Prop}
    (hkeep : ∀ {s s' i l}, P s l → move s i = .done s' → P s' (l ++ place s i)) {l : List α}
    (h : P s l) (is : List ι) : P (last move s is) (l ++ flow move place s is) := by
  induction is generalizing s l with
  | nil => simpa [flow, last] using h
  | cons i is ih =>
    rw [last, flow]
    cases hi : move s i with
    | blocked => exact ih h
    | panic => simpa using h
    | done s' =>
      rw [← List.append_assoc]
      exact ih (hkeep h hi)

theorem flow_hom {f : List α → List β} (hnil : f [] = [])
    (happend : ∀ l l', f (l ++ l') = f l ++ f l') (is : List ι) :
    f (flow move place s is) = flow move (fun s i => f (place s i)) s is := by
  induction is generalizing s with
  | nil => exact hnil
  | cons i is ih =>
    rw [flow, flow]
    cases move s i with
    | blocked => exact ih
    | panic => exact hnil
    | done s' => rw [happend, ih]

theorem flow_filter (p : α → Bool) (is : List ι) :
    (flow move place s is).filter p = flow move (fun s i => (place s i).filter p) s is :=
  flow_hom (List.filter_nil) (List.filter_append (p := p)) is

theorem flow_sublist {place' : σ → ι → List α}
    (h : ∀ s i, (place s i).Sublist (place' s i)) (is : List ι) :
    (flow move place s is).Sublist (flow move place' s is) := by
  induction is generalizing s with
  | nil => exact .refl _
  | cons i is ih =>
    rw [flow, flow]
    cases move s i with
    | blocked => exact ih
    | panic => exact .refl _
    | done s' => exact (h s i).append ih

/-- Two places where the moves of a run let the same pass. -/
theorem flow_congr {place' : σ → ι → List α} {is : List ι}
    (h : ∀ i ∈ is, ∀ s, place s i = place' s i) :
    flow move place s is = flow move place' s is := by
  induction is generalizing s with
  | nil => rfl
  | cons i is ih =>
    have htail : ∀ s, flow move place s is = flow move place' s is := fun _ =>
      ih fun j hj => h j (List.mem_cons_of_mem i hj)
    rw [flow, flow, h i List.mem_cons_self]
    cases move s i with
    | blocked => exact htail s
    | panic => rfl
    | done s' => exact congrArg (place' s i ++ ·) (htail s')

theorem flow_eq_nil {Late : σ → Prop}
    (hlate : ∀ {s s' i}, Late s → move s i = .done s' → Late s' ∧ place s i = []) (hs : Late s)
    (is : List ι) : flow move place s is = [] := by
  induction is generalizing s with
  | nil => rfl
  | cons i is ih =>
    rw [flow]
    cases hi : move s i with
    | blocked => exact ih hs
    | panic => rfl
    | done s' =>
      obtain ⟨hs', hnil⟩ := hlate hs hi
      rw [hnil]
      exact ih hs'

/-- Nothing passes where none of the moves lets anything pass. -/
theorem flow_eq_nil_of_forall {is : List ι} (h : ∀ i ∈ is, ∀ s, place s i = []) :
    flow move place s is = [] := by
  induction is generalizing s with
  | nil => rfl
  | cons i is ih =>
    have htail : ∀ s, flow move place s is = [] := fun _ =>
      ih fun j hj => h j (List.mem_cons_of_mem i hj)
    rw [flow, h i List.mem_cons_self]
    cases move s i with
    | blocked => exact htail s
    | panic => rfl
    | done s' => exact htail s'

theorem flow_singleton {i : ι} (hi : move s i = .done s') : flow move place s [i] = place s i := by
  rw [flow, hi]
  exact List.append_nil _

/-- What passes at a place that is only used after another is not used any more. -/
theorem flow_append {Late : σ → Prop} {place' : σ → ι → List α}
    (hlate : ∀ {s s' i}, Late s → move s i = .done s' → Late s' ∧ place s i = [])
    (hearly : ∀ {s s' i}, move s i = .done s' → place' s i = [] ∨ Late s') (is : List ι) :
    flow move (fun s i => place s i ++ place' s i) s is =
      flow move place s is ++ flow move place' s is := by
  induction is generalizing s with
  | nil => rfl
  | cons i is ih =>
    rw [flow, flow, flow]
    cases hi : move s i with
    | blocked => exact ih
    | panic => rfl
    | done s' =>
      dsimp only
      rw [ih]
      obtain hnil | hs' := hearly hi
      · simp [hnil]
      · simp [flow_eq_nil hlate hs']

end Flows

section Pipes

variable {σ ι α : Type} {move : σ → ι → Outcome σ} {Sound : σ → Prop}

/-- Whatever move is made, what comes in at `input` leaves at `output`, in order, and is
`inside` in the meantime. -/
structure Pipe (move : σ → ι → Outcome σ) (Sound : σ → Prop) (input output : σ → ι → List α)
    (inside : σ → List α) : Prop where
  sound {s s' i} : Sound s → move s i = .done s' → Sound s'
  conserve {s s' i} : Sound s → move s i = .done s' →
    inside s ++ input s i = output s i ++ inside s'

namespace Pipe

variable {input output middle : σ → ι → List α} {inside inside₁ inside₂ : σ → List α} {s : σ}

/-- What came in during a run has left it, or is inside. -/
theorem flow_eq (h : Pipe move Sound input output inside) (hs : Sound s) (is : List ι) :
    inside s ++ flow move input s is = flow move output s is ++ inside (last move s is) := by
  induction is generalizing s with
  | nil => simp [flow, last]
  | cons i is ih =>
    rw [flow, flow, last]
    cases hi : move s i with
    | blocked => exact ih hs
    | panic => simp
    | done s' =>
      calc inside s ++ (input s i ++ flow move input s' is)
          = output s i ++ (inside s' ++ flow move input s' is) := by
            rw [← List.append_assoc, h.conserve hs hi, List.append_assoc]
        _ = output s i ++ flow move output s' is ++ inside (last move s' is) := by
            rw [ih (h.sound hs hi), List.append_assoc]

/-- Two pipes in a row. -/
theorem comp (h₁ : Pipe move Sound input middle inside₁)
    (h₂ : Pipe move Sound middle output inside₂) :
    Pipe move Sound input output fun s => inside₂ s ++ inside₁ s where
  sound := h₁.sound
  conserve {s s' i} hs hi := by
    rw [List.append_assoc, h₁.conserve hs hi, ← List.append_assoc, h₂.conserve hs hi,
      List.append_assoc]

/-- A pipe for the messages of one kind. -/
theorem filter (h : Pipe move Sound input output inside) (p : α → Bool) :
    Pipe move Sound (fun s i => (input s i).filter p) (fun s i => (output s i).filter p)
      fun s => (inside s).filter p where
  sound := h.sound
  conserve {s s' i} hs hi := by
    rw [← List.filter_append, h.conserve hs hi, List.filter_append]

end Pipe

end Pipes

section Parts

variable {σ τ ι κ α : Type} {move : σ → ι → Outcome σ} {move' : τ → κ → Outcome τ}

/-- A move of a system is made up of moves of its part. -/
structure Component (move : σ → ι → Outcome σ) (move' : τ → κ → Outcome τ) (part : σ → τ)
    (moves : σ → ι → List κ) : Prop where
  run {s s' i} : move s i = .done s' →
    Runs.run (advance move') (some (part s)) (moves s i) = some (part s')

namespace Component

variable {part : σ → τ} {moves : σ → ι → List κ} {s : σ}

/-- A run of the system is a run of its part. -/
theorem run_flow (h : Component move move' part moves) (is : List ι) :
    Runs.run (advance move') (some (part s)) (flow move moves s is) =
      some (part (last move s is)) := by
  induction is generalizing s with
  | nil => rfl
  | cons i is ih =>
    rw [flow, last]
    cases hi : move s i with
    | blocked => exact ih
    | panic => rfl
    | done s' =>
      rw [Runs.run_append, h.run hi]
      exact ih

theorem last_flow (h : Component move move' part moves) (is : List ι) :
    last move' (part s) (flow move moves s is) = part (last move s is) :=
  last_of_run (h.run_flow is)

/-- What passes at a place of the system that is a place of its part. -/
theorem flow_part_of_sound (h : Component move move' part moves) {Sound : σ → Prop}
    (hsound : ∀ {s s' i}, Sound s → move s i = .done s' → Sound s') {place : σ → ι → List α}
    {place' : τ → κ → List α}
    (hplace : ∀ {s s' i}, Sound s → move s i = .done s' →
      place s i = flow move' place' (part s) (moves s i)) (hs : Sound s) (is : List ι) :
    flow move place s is = flow move' place' (part s) (flow move moves s is) := by
  induction is generalizing s with
  | nil => rfl
  | cons i is ih =>
    rw [flow, flow]
    cases hi : move s i with
    | blocked => exact ih hs
    | panic => rfl
    | done s' =>
      dsimp only
      rw [hplace hs hi, flow_append_of_run (h.run hi), ih (hsound hs hi)]

theorem flow_part (h : Component move move' part moves) {place : σ → ι → List α}
    {place' : τ → κ → List α}
    (hplace : ∀ {s s' i}, move s i = .done s' →
      place s i = flow move' place' (part s) (moves s i)) (is : List ι) :
    flow move place s is = flow move' place' (part s) (flow move moves s is) := by
  have hsound : ∀ {s s' : σ} {i : ι}, True → move s i = .done s' → True := fun _ _ => trivial
  exact h.flow_part_of_sound hsound (fun _ hi => hplace hi) trivial is

/-- What passes at a place of the part, where the system keeps a record of it. -/
theorem flow_eq (h : Component move move' part moves) {Sound : σ → Prop}
    (hsound : ∀ {s s' i}, Sound s → move s i = .done s' → Sound s') {place : τ → κ → List α}
    {record : σ → List α}
    (hrecord : ∀ {s s' i}, Sound s → move s i = .done s' →
      record s' = record s ++ flow move' place (part s) (moves s i)) (hs : Sound s) (is : List ι) :
    record (last move s is) =
      record s ++ flow move' place (part s) (flow move moves s is) := by
  induction is generalizing s with
  | nil => simp [flow, last]
  | cons i is ih =>
    rw [flow, last]
    cases hi : move s i with
    | blocked => exact ih hs
    | panic => simp [flow]
    | done s' =>
      dsimp only
      rw [ih (hsound hs hi), hrecord hs hi, flow_append_of_run (h.run hi), List.append_assoc]

end Component

end Parts

end Pipes
