import Mathlib.Data.List.Basic

/-!
# Talks

A program that sends messages and waits for messages, one after the other. Where it
waits it passes over the messages that it has no use for. What it does is a function of
what it is given, however its sends and receives take turns with the other side.

## Main definitions

- `Talks.Talk`: what a program has left to do
- `Talks.Talk.run`: what it does with an inbox
- `Talks.First`: the first message of an inbox that is not passed over
- `Talks.Follows`: where a program stands after what was heard and said
-/

namespace Talks

variable {μ ρ : Type}

/-- What is left to do. A program that waits is given a message, or the end of its
inbox. -/
inductive Talk (μ ρ : Type) where
  | send (m : μ) (next : Talk μ ρ)
  | await (passes : μ → Bool) (next : Option μ → Talk μ ρ)
  | stop (r : ρ)

inductive Turn (μ : Type) where
  | heard (o : Option μ)
  | said (m : μ)

namespace Talk

/-- What is left after an inbox, and what is sent. -/
def run : Talk μ ρ → List (Option μ) → Talk μ ρ × List μ
  | send m next, inbox => ((next.run inbox).1, m :: (next.run inbox).2)
  | await passes next, inbox =>
    match inbox.dropWhile (Option.any passes) with
    | [] => (await passes next, [])
    | o :: rest => (next o).run rest
  | stop r, _ => (stop r, [])

/-- A message is given to a program that waits for one. -/
def receive : Talk μ ρ → Option μ → Talk μ ρ
  | await passes next, o => if o.any passes then await passes next else next o
  | t, _ => t

/-- `P` holds of each message that may be sent, with what is left to do after it. -/
def Sends (P : μ → Talk μ ρ → Prop) : Talk μ ρ → Prop
  | send m next => P m next ∧ next.Sends P
  | await _ next => ∀ o, (next o).Sends P
  | stop _ => True

end Talk

section Run

variable {t : Talk μ ρ} {m : μ} {o : Option μ} {passes : μ → Bool} {next : Option μ → Talk μ ρ}
  {inbox : List (Option μ)} {r : ρ} {out : List μ}

@[simp] theorem run_stop (r : ρ) (inbox : List (Option μ)) :
    (Talk.stop r : Talk μ ρ).run inbox = (.stop r, []) := rfl

@[simp] theorem run_await_nil : (Talk.await passes next).run [] = (.await passes next, []) := rfl

theorem run_await_cons : (Talk.await passes next).run (o :: inbox) =
    if o.any passes then (Talk.await passes next).run inbox else (next o).run inbox := by
  rw [Talk.run, List.dropWhile_cons]
  by_cases ho : o.any passes = true
  · rw [if_pos ho, if_pos ho, Talk.run]
  · rw [if_neg ho, if_neg ho]

theorem run_send_eq_stop_iff {next : Talk μ ρ} : (Talk.send m next).run inbox = (.stop r, out) ↔
    ∃ out', out = m :: out' ∧ next.run inbox = (.stop r, out') := by
  rw [Talk.run, Prod.mk.injEq]
  constructor
  · rintro ⟨hstop, rfl⟩
    exact ⟨_, rfl, Prod.ext hstop rfl⟩
  · rintro ⟨out', rfl, hrun⟩
    rw [hrun]
    exact ⟨rfl, rfl⟩

/-- An inbox may be given in two parts. -/
theorem run_append (t : Talk μ ρ) (a b : List (Option μ)) :
    t.run (a ++ b) = (((t.run a).1.run b).1, (t.run a).2 ++ ((t.run a).1.run b).2) := by
  induction t generalizing a with
  | send m next ih =>
    rw [Talk.run, ih, Talk.run]
    rfl
  | await passes next ih =>
    induction a with
    | nil => rfl
    | cons o a iha =>
      rw [List.cons_append, run_await_cons, run_await_cons]
      split
      · exact iha
      · exact ih o a
  | stop r => rfl

theorem sends_mono {P Q : μ → Talk μ ρ → Prop} (hPQ : ∀ m t, P m t → Q m t) (h : t.Sends P) :
    t.Sends Q := by
  induction t with
  | send m next ih => exact ⟨hPQ m next h.1, ih h.2⟩
  | await passes next ih => exact fun o => ih o (h o)
  | stop r => trivial

theorem sends_receive {P : μ → Talk μ ρ → Prop} (h : t.Sends P) (o : Option μ) :
    (t.receive o).Sends P := by
  cases t with
  | await passes next =>
    rw [Talk.receive]
    split
    · exact h
    · exact h o
  | _ => exact h

/-- A program that waits after it sends has stopped where it does not wait. -/
theorem eq_stop_of_run_nil (h : t.Sends fun _ next => ∀ r, next ≠ .stop r)
    (hrun : (t.run []).1 = .stop r) : t = .stop r := by
  induction t with
  | send m next ih => exact absurd (ih h.2 hrun) (h.1 r)
  | await passes next => cases hrun
  | stop r' => exact hrun

end Run

/-! ## The first message that is not passed over -/

/-- `o` comes first of what is not passed over, and `rest` after it. -/
def First (passes : μ → Bool) (inbox : List (Option μ)) (o : Option μ)
    (rest : List (Option μ)) : Prop :=
  o.any passes = false ∧
    ∃ skipped : List μ, inbox = skipped.map some ++ o :: rest ∧ ∀ m ∈ skipped, passes m = true

section First

variable {passes : μ → Bool} {next : Option μ → Talk μ ρ} {o o' : Option μ}
  {inbox rest : List (Option μ)} {r : ρ} {out : List μ}

theorem first_head (h : o.any passes = false) : First passes (o :: inbox) o inbox :=
  ⟨h, [], rfl, by simp⟩

theorem First.cons {m : μ} (h : First passes inbox o rest) (hm : passes m = true) :
    First passes (some m :: inbox) o rest := by
  obtain ⟨ho, skipped, rfl, hskipped⟩ := h
  exact ⟨ho, m :: skipped, rfl, List.forall_mem_cons.mpr ⟨hm, hskipped⟩⟩

/-- A program that waited has come to an end with what came first. -/
theorem run_await_eq_stop_iff :
    (Talk.await passes next).run inbox = (.stop r, out) ↔
      ∃ o rest, First passes inbox o rest ∧ (next o).run rest = (.stop r, out) := by
  constructor
  · intro h
    induction inbox with
    | nil => cases h
    | cons o inbox ih =>
      rw [run_await_cons] at h
      split at h
      · next ho =>
        obtain ⟨o', rest, hfirst, hrun⟩ := ih h
        cases o with
        | none => cases ho
        | some m => exact ⟨o', rest, hfirst.cons ho, hrun⟩
      · next ho => exact ⟨o, inbox, first_head (Bool.not_eq_true _ ▸ ho), h⟩
  · rintro ⟨o, rest, ⟨ho, skipped, rfl, hskipped⟩, hrun⟩
    induction skipped with
    | nil =>
      rw [List.map_nil, List.nil_append, run_await_cons, ho]
      exact hrun
    | cons m skipped ih =>
      rw [List.forall_mem_cons] at hskipped
      rw [List.map_cons, List.cons_append, run_await_cons, Option.any_some, hskipped.1]
      exact ih hskipped.2

end First

/-! ## Programs that take turns -/

/-- What was received, in order. -/
def heard : List (Turn μ) → List (Option μ) := List.filterMap fun
  | .heard o => some o
  | .said _ => none

/-- What was sent, in order. -/
def said : List (Turn μ) → List μ := List.filterMap fun
  | .heard _ => none
  | .said m => some m

/-- The program has got from `t` to `s`: what it has said, and what it has left to say
before it waits again, is what `t` says to all that was heard. -/
def Follows (t : Talk μ ρ) (l : List (Turn μ)) (s : Talk μ ρ) : Prop :=
  t.run (heard l) = ((s.run []).1, said l ++ (s.run []).2)

section Follows

variable {t s : Talk μ ρ} {l : List (Turn μ)} {m : μ} {o : Option μ} {passes : μ → Bool}
  {next : Option μ → Talk μ ρ} {r : ρ}

@[simp] theorem heard_append (l l' : List (Turn μ)) : heard (l ++ l') = heard l ++ heard l' :=
  List.filterMap_append

@[simp] theorem said_append (l l' : List (Turn μ)) : said (l ++ l') = said l ++ said l' :=
  List.filterMap_append

theorem follows_nil (t : Talk μ ρ) : Follows t [] t := rfl

theorem Follows.say (h : Follows t l (.send m s)) : Follows t (l ++ [.said m]) s := by
  have hheard : heard (l ++ [.said m]) = heard l := by
    rw [heard_append]
    exact List.append_nil _
  rw [Follows, hheard, h, said_append, List.append_assoc]
  rfl

theorem Follows.hear (h : Follows t l (.await passes next)) (o : Option μ) :
    Follows t (l ++ [.heard o]) (Talk.receive (.await passes next) o) := by
  have hsaid : said (l ++ [.heard o]) = said l := by
    rw [said_append]
    exact List.append_nil _
  have hheard : heard (l ++ [.heard o]) = heard l ++ [o] := heard_append l [.heard o]
  rw [Follows, hheard, hsaid, run_append, h, run_await_nil, List.append_nil, run_await_cons,
    Talk.receive]
  split <;> rfl

/-- A program that has stopped has said all that it says. -/
theorem Follows.stopped (h : Follows t l (.stop r)) : t.run (heard l) = (.stop r, said l) := by
  rw [Follows, run_stop, List.append_nil] at h
  exact h

end Follows

end Talks
