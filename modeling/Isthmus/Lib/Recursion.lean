import Mathlib.Logic.Relation
import Mathlib.Data.Set.Basic

/-!
# Recursion over a graph

A recursion over the children of a node comes to an end where there is no endless
descent, and then within some depth. A recursion that can be stopped on its way
makes its visits in order, up to the first that does not pass.

## Main definitions

- `Within`, `Grounded`, `below`: the descents from a node
- `Comes`, `Passes`: the visits up to the one that stops the recursion
-/

namespace Recursion

/-! ## Descents -/

section Descents

variable {α : Type*} (children : α → List α)

/-- The recursion over the children goes no deeper than this. -/
def Within : Nat → α → Prop
  | 0, _ => False
  | n + 1, a => ∀ b ∈ children a, Within n b

/-- There is no endless descent. -/
def Grounded (a : α) : Prop := Acc (fun b a => b ∈ children a) a

/-- The nodes that a descent comes to. -/
def below (a : α) : Set α := {b | Relation.ReflTransGen (fun a b => b ∈ children a) a b}

variable {children} {a : α}

theorem Within.mono {m n : Nat} (hle : m ≤ n) (h : Within children m a) : Within children n a := by
  induction m generalizing n a with
  | zero => exact h.elim
  | succ m ih =>
    cases n with
    | zero => exact absurd hle (Nat.not_succ_le_zero m)
    | succ n =>
      intro b hb
      exact ih (Nat.le_of_succ_le_succ hle) (h b hb)

/-- One depth is enough for all nodes of a list. -/
theorem exists_within_all {l : List α} (h : ∀ a ∈ l, ∃ n, Within children n a) :
    ∃ n, ∀ a ∈ l, Within children n a := by
  induction l with
  | nil => exact ⟨0, fun a ha => absurd ha List.not_mem_nil⟩
  | cons a l ih =>
    obtain ⟨hhead, htail⟩ := List.forall_mem_cons.mp h
    obtain ⟨m, hm⟩ := hhead
    obtain ⟨n, hn⟩ := ih htail
    refine ⟨max m n, List.forall_mem_cons.mpr ⟨hm.mono (Nat.le_max_left m n), fun c hc => ?_⟩⟩
    exact (hn c hc).mono (Nat.le_max_right m n)

theorem grounded_iff : Grounded children a ↔ ∀ b ∈ children a, Grounded children b :=
  ⟨fun h _ hb => h.inv hb, fun h => Acc.intro a h⟩

/-- A node that is its own child has no end. -/
theorem not_grounded_of_mem_self (h : a ∈ children a) : ¬Grounded children a := by
  intro hgrounded
  induction hgrounded with
  | intro a _ ih => exact ih a h h

/-- A recursion without an endless descent has a depth. -/
theorem Grounded.exists_within (h : Grounded children a) : ∃ n, Within children n a := by
  induction h with
  | intro a _ ih =>
    obtain ⟨n, hn⟩ := exists_within_all ih
    exact ⟨n + 1, hn⟩

/-- A recursion within some depth comes to an end. -/
theorem Within.grounded {n : Nat} (h : Within children n a) : Grounded children a := by
  induction n generalizing a with
  | zero => exact h.elim
  | succ n ih => exact grounded_iff.mpr fun b hb => ih (h b hb)

/-- Whether a recursion goes deeper can be computed. -/
instance decidableWithin : ∀ (n : Nat) (a : α), Decidable (Within children n a)
  | 0, _ => isFalse id
  | n + 1, a =>
    have : DecidablePred (Within children n) := decidableWithin n
    inferInstanceAs (Decidable (∀ b ∈ children a, Within children n b))

theorem mem_below_iff {b : α} :
    b ∈ below children a ↔ b = a ∨ ∃ c ∈ children a, b ∈ below children c :=
  Relation.ReflTransGen.cases_head_iff.trans (or_congr_left eq_comm)

variable {children' : α → List α} (hle : ∀ a b, b ∈ children a → b ∈ children' a)

include hle

/-- There is no endless descent over fewer children. -/
theorem Grounded.mono (h : Grounded children' a) : Grounded children a :=
  Subrelation.accessible (fun {b a} => hle a b) h

end Descents

/-! ## Descents in a copy -/

section Copies

variable {α β : Type*} {children : α → List α} {children' : β → List β} {f : β → α}
  (h : ∀ b, children (f b) = (children' b).map f) {b : β}

include h

theorem mem_children_map {a : α} : a ∈ children (f b) ↔ ∃ c ∈ children' b, f c = a := by
  rw [h b, List.mem_map]

theorem within_map {n : Nat} : Within children n (f b) ↔ Within children' n b := by
  induction n generalizing b with
  | zero => exact Iff.rfl
  | succ n ih =>
    simp only [Within, h b, List.forall_mem_map]
    exact forall₂_congr fun c _ => ih

theorem grounded_map : Grounded children (f b) ↔ Grounded children' b := by
  constructor
  · intro hgrounded
    refine Subrelation.accessible (fun {c d} hc => ?_) (InvImage.accessible f hgrounded)
    exact (mem_children_map h).mpr ⟨c, hc, rfl⟩
  · intro hgrounded
    induction hgrounded with
    | intro b _ ih =>
      refine grounded_iff.mpr fun a ha => ?_
      obtain ⟨c, hc, rfl⟩ := (mem_children_map h).mp ha
      exact ih c hc

theorem mem_below_map {a : α} : a ∈ below children (f b) ↔ ∃ c ∈ below children' b, f c = a := by
  constructor
  · intro ha
    induction ha with
    | refl => exact ⟨b, .refl, rfl⟩
    | tail _ ha ih =>
      obtain ⟨c, hc, rfl⟩ := ih
      obtain ⟨d, hd, rfl⟩ := (mem_children_map h).mp ha
      exact ⟨d, .tail hc hd, rfl⟩
  · rintro ⟨c, hc, rfl⟩
    induction hc with
    | refl => exact .refl
    | tail _ hd ih => exact .tail ih ((mem_children_map h).mpr ⟨_, hd, rfl⟩)

end Copies

/-! ## Visits -/

section Visits

variable {σ ν : Type*} (pass : σ → ν → Prop) (next : σ → ν → σ)

/-- What the visits leave. -/
def after (s : σ) (l : List ν) : σ := l.foldl next s

/-- All visits pass. -/
def Passes : σ → List ν → Prop
  | _, [] => True
  | s, x :: l => pass s x ∧ Passes (next s x) l

/-- The visits before this one pass, and it is made in this state. -/
inductive Comes : σ → List ν → σ → ν → Prop
  | here (s : σ) (x : ν) (l : List ν) : Comes s (x :: l) s x
  | there {s s' : σ} {x y : ν} {l : List ν} (hpass : pass s x) (h : Comes (next s x) l s' y) :
    Comes s (x :: l) s' y

variable {pass next} {s s₁ s₂ : σ} {x₁ x₂ : ν} {l l' : List ν}

theorem after_append : after next s (l ++ l') = after next (after next s l) l' := List.foldl_append

theorem passes_append : Passes pass next s (l ++ l') ↔
    Passes pass next s l ∧ Passes pass next (after next s l) l' := by
  induction l generalizing s with
  | nil => exact (and_iff_right trivial).symm
  | cons x l ih => exact (and_congr_right fun _ => ih).trans and_assoc.symm

namespace Comes

theorem append_left (h : Comes pass next s l s₁ x₁) : Comes pass next s (l ++ l') s₁ x₁ := by
  induction h with
  | here s x l => exact here s x (l ++ l')
  | there hpass _ ih => exact there hpass ih

theorem append_right (hl : Passes pass next s l) (h : Comes pass next (after next s l) l' s₁ x₁) :
    Comes pass next s (l ++ l') s₁ x₁ := by
  induction l generalizing s with
  | nil => exact h
  | cons x l ih => exact there hl.1 (ih hl.2 h)

theorem mem (h : Comes pass next s l s₁ x₁) : x₁ ∈ l := by
  induction h with
  | here s x l => exact List.mem_cons_self
  | there _ _ ih => exact List.mem_cons_of_mem _ ih

/-- Where all visits pass, each of them does. -/
theorem pass_of_passes (hl : Passes pass next s l) (h : Comes pass next s l s₁ x₁) :
    pass s₁ x₁ := by
  induction h with
  | here s x l => exact hl.1
  | there _ _ ih => exact ih hl.2

/-- The visits stop at one place only. -/
theorem unique (h₁ : Comes pass next s l s₁ x₁) (hstop₁ : ¬pass s₁ x₁)
    (h₂ : Comes pass next s l s₂ x₂) (hstop₂ : ¬pass s₂ x₂) : s₁ = s₂ ∧ x₁ = x₂ := by
  induction h₁ with
  | here s x l =>
    cases h₂ with
    | here => exact ⟨rfl, rfl⟩
    | there hpass _ => exact absurd hpass hstop₁
  | there hpass _ ih =>
    cases h₂ with
    | here => exact absurd hpass hstop₂
    | there _ h₂ => exact ih hstop₁ h₂

end Comes

end Visits

/-! ## Visits in a copy -/

section Copies

variable {σ ν σ' ν' : Type*} {pass : σ → ν → Prop} {next : σ → ν → σ} {pass' : σ' → ν' → Prop}
  {next' : σ' → ν' → σ'} {F : σ' → σ} {f : ν' → ν}
  (hnext : ∀ s x, next (F s) (f x) = F (next' s x)) {s s₁ : σ'} {x₁ : ν'} {l : List ν'}

include hnext

/-- Where the visits of the copy pass with those of the original, all pass with all. -/
theorem passes_map (hpass : ∀ s x, pass (F s) (f x) → pass' s x)
    (h : ∀ s₂ x₂, Comes pass' next' s l s₂ x₂ → pass' s₂ x₂ → pass (F s₂) (f x₂)) :
    Passes pass next (F s) (l.map f) ↔ Passes pass' next' s l := by
  induction l generalizing s with
  | nil => exact Iff.rfl
  | cons x l ih =>
    rw [List.map_cons, Passes, Passes, hnext]
    constructor
    · rintro ⟨hx, hl⟩
      have hx' := hpass s x hx
      exact ⟨hx', (ih fun s₂ x₂ hcomes => h s₂ x₂ (.there hx' hcomes)).mp hl⟩
    · rintro ⟨hx, hl⟩
      exact ⟨h s x (.here s x l) hx, (ih fun s₂ x₂ hcomes => h s₂ x₂ (.there hx hcomes)).mpr hl⟩

/-- And then the original comes to what its copy comes to. -/
theorem Comes.map (hcomes : Comes pass' next' s l s₁ x₁)
    (h : ∀ s₂ x₂, Comes pass' next' s l s₂ x₂ → pass' s₂ x₂ → pass (F s₂) (f x₂)) :
    Comes pass next (F s) (l.map f) (F s₁) (f x₁) := by
  induction hcomes with
  | here s x l => exact .here (F s) (f x) (l.map f)
  | @there s s₁ x y l hx _ ih =>
    refine .there (h s x (.here s x l) hx) ?_
    rw [hnext]
    exact ih fun s₂ x₂ hcomes => h s₂ x₂ (.there hx hcomes)

/-- Where they do not, the original stops at a visit that its copy passes. -/
theorem Comes.stop_of_map (hcomes : Comes pass' next' s l s₁ x₁) (hx₁ : pass' s₁ x₁)
    (hstop : ¬pass (F s₁) (f x₁)) : ∃ s₂ x₂, pass' s₂ x₂ ∧ ¬pass (F s₂) (f x₂) ∧
      Comes pass next (F s) (l.map f) (F s₂) (f x₂) := by
  induction hcomes with
  | here s x l => exact ⟨s, x, hx₁, hstop, .here (F s) (f x) (l.map f)⟩
  | @there s s₁ x y l hx _ ih =>
    by_cases hpass : pass (F s) (f x)
    · obtain ⟨s₂, x₂, hx₂, hstop₂, hcomes₂⟩ := ih hx₁ hstop
      rw [← hnext] at hcomes₂
      exact ⟨s₂, x₂, hx₂, hstop₂, .there hpass hcomes₂⟩
    · exact ⟨s, x, hx, hpass, .here (F s) (f x) (l.map f)⟩

end Copies

end Recursion
