import Isthmus.Lib.Process

/-!
# Triples for processes

A triple says of a process that, wherever it is started under a contract, all its effects
are allowed by it, and its result is of a kind. The effects are those up to where the
process stops with an error, if it does.

## Main definitions

- `Process.Contract`: the effects that are allowed, and what none of them undoes
- `Process.Proc.Triple`: the triple, with a rule for each construct of a process
-/

namespace Process

variable {σ κ μ ε α β : Type} [Store σ κ ε]

/-- The effects that a process may have, and a fact about the store that it relies on. None
of these effects undoes it. -/
structure Contract (σ κ μ : Type) {ε : Type} [Store σ κ ε] where
  inv : σ → Prop
  allows : Effect κ μ → Prop
  keep (s : σ) (c : κ) : allows (.commit c) → inv s → inv (write s c)

namespace Contract

/-- All effects are of a kind, whatever the store is. -/
def only (P : Effect κ μ → Prop) : Contract σ κ μ := ⟨fun _ => True, P, fun _ _ _ h => h⟩

theorem replay (C : Contract σ κ μ) {s : σ} (h : C.inv s) {t : List (Effect κ μ)}
    (ht : ∀ e ∈ t, C.allows e) : C.inv (replay s t) := by
  induction t generalizing s with
  | nil => exact h
  | cons e t ih =>
    have htail := fun e' he => ht e' (List.mem_cons_of_mem e he)
    cases e with
    | commit c => exact ih (C.keep s c (ht _ List.mem_cons_self) h) htail
    | io m => exact ih h htail

end Contract

namespace Proc

/-- From every store that meets the contract, the effects of the process are allowed, and a
result that it returns meets `Q`. -/
def Triple (C : Contract σ κ μ) (p : Proc σ κ μ ε α) (Q : α → Prop) : Prop :=
  ∀ s, C.inv s → (∀ e ∈ (p.run s).trace, C.allows e) ∧ ∀ a, (p.run s).result = .ok a → Q a

namespace Triple

variable {C : Contract σ κ μ} {Q : α → Prop} {R : β → Prop}

theorem mono {D : Contract σ κ μ} {p : Proc σ κ μ ε α} {S : α → Prop} (h : Triple C p Q)
    (hinv : ∀ s, D.inv s → C.inv s) (hallows : ∀ e, C.allows e → D.allows e)
    (hQ : ∀ a, Q a → S a) : Triple D p S := by
  intro s hs
  obtain ⟨heffects, hresult⟩ := h s (hinv s hs)
  exact ⟨fun e he => hallows e (heffects e he), fun a ha => hQ a (hresult a ha)⟩

theorem read {f : σ → α} :
    Triple C (read f : Proc σ κ μ ε α) fun a => ∃ s, C.inv s ∧ f s = a := by
  intro s hs
  refine ⟨nofun, ?_⟩
  rintro a ⟨⟩
  exact ⟨s, hs, rfl⟩

theorem query {f : σ → Except ε α} :
    Triple C (query f : Proc σ κ μ ε α) fun a => ∃ s, C.inv s ∧ f s = .ok a :=
  fun s hs => ⟨nofun, fun _ ha => ⟨s, hs, ha⟩⟩

theorem fail (e : ε) : Triple C (fail e : Proc σ κ μ ε α) Q :=
  fun _ _ => ⟨nofun, nofun⟩

theorem emit {m : μ} (h : C.allows (.io m)) : Triple C (emit m : Proc σ κ μ ε Unit) fun _ => True := by
  intro s _
  refine ⟨fun e he => ?_, fun _ _ => trivial⟩
  rw [List.mem_singleton.mp he]
  exact h

theorem commit {c : κ} (h : C.allows (.commit c)) :
    Triple C (commit c : Proc σ κ μ ε Unit) fun _ => True := by
  intro s _
  refine ⟨fun e he => ?_, fun _ _ => trivial⟩
  simp only [Proc.commit] at he
  split at he
  · rw [List.mem_singleton.mp he]
    exact h
  · cases he

theorem attempt {p : Proc σ κ μ ε α} (h : Triple C p Q) :
    Triple C p.attempt fun r => ∀ a, r = .ok a → Q a := by
  intro s hs
  refine ⟨(h s hs).1, ?_⟩
  rintro r ⟨⟩
  exact (h s hs).2

theorem pure {a : α} (h : Q a) : Triple C (pure a : Proc σ κ μ ε α) Q := by
  intro s _
  refine ⟨nofun, ?_⟩
  rintro a ⟨⟩
  exact h

theorem bind {p : Proc σ κ μ ε β} {f : β → Proc σ κ μ ε α} (hp : Triple C p R)
    (hf : ∀ b, R b → Triple C (f b) Q) : Triple C (p >>= f) Q := by
  intro s hs
  obtain ⟨hp₁, hp₂⟩ := hp s hs
  rcases hrun : p.run s with ⟨e | b, t⟩
  · rw [run_bind_of_error hrun]
    rw [hrun] at hp₁
    exact ⟨hp₁, nofun⟩
  · rw [run_bind_of_ok hrun]
    rw [hrun] at hp₁ hp₂
    obtain ⟨hf₁, hf₂⟩ := hf b (hp₂ b rfl) _ (C.replay hs hp₁)
    refine ⟨fun e he => ?_, hf₂⟩
    exact (List.mem_append.mp he).elim (hp₁ e) (hf₁ e)

theorem ite {c : Prop} [Decidable c] {p q : Proc σ κ μ ε α} (hp : Triple C p Q)
    (hq : Triple C q Q) : Triple C (if c then p else q) Q := by
  split
  · exact hp
  · exact hq

theorem forEach {f : β → Proc σ κ μ ε Unit} {l : List β}
    (hf : ∀ b ∈ l, Triple C (f b) fun _ => True) : Triple C (forEach f l) fun _ => True := by
  induction l with
  | nil => exact pure trivial
  | cons b l ih =>
    have htail := ih fun b' hb => hf b' (List.mem_cons_of_mem b hb)
    exact bind (hf b List.mem_cons_self) fun _ _ => htail

end Triple

end Proc

end Process
