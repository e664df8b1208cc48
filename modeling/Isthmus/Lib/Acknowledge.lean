import Mathlib.Data.List.Basic
import Mathlib.Logic.Function.Iterate

/-!
# Acknowledged messages

A sender keeps each message pending until it reads the acknowledgement of it.
Acknowledgements are read in the order they were sent, and those in transit are
lost together with the connection. The messages are settled if each one that
was received and is still pending has its acknowledgement in transit; it is then
that nothing received is pending once all in transit is read.
-/

namespace Acknowledge

/-- The messages that the sender keeps, and the acknowledgements in transit. -/
structure Link (α κ : Type) where
  pending : List α
  wire : List κ

namespace Link

variable {α κ : Type}

/-- The sender takes up a message. -/
def offer (l : Link α κ) (a : α) : Link α κ := ⟨a :: l.pending, l.wire⟩

/-- The receiver sends acknowledgements. -/
def send (l : Link α κ) (ks : List κ) : Link α κ := ⟨l.pending, l.wire ++ ks⟩

/-- The connection is lost. -/
def lose (l : Link α κ) : Link α κ := ⟨l.pending, []⟩

/-- The sender reads the next acknowledgement. -/
def absorb [DecidableEq κ] (ack : α → κ) (l : Link α κ) : Link α κ :=
  match l.wire with
  | [] => l
  | k :: wire => ⟨l.pending.filter fun a => ack a ≠ k, wire⟩

/-- The sender reads all that is in transit. -/
def drain [DecidableEq κ] (ack : α → κ) (l : Link α κ) : Link α κ := (absorb ack)^[l.wire.length] l

/-- Each pending message that was received has its acknowledgement in transit. -/
def Settled (ack : α → κ) (received : α → Prop) (l : Link α κ) : Prop :=
  ∀ a ∈ l.pending, received a → ack a ∈ l.wire

variable {ack : α → κ} {received received' : α → Prop} {l : Link α κ}

/-- What stays pending is what has no acknowledgement in transit. -/
theorem mem_drain [DecidableEq κ] {a : α} : a ∈ (l.drain ack).pending ↔ a ∈ l.pending ∧ ack a ∉ l.wire := by
  obtain ⟨pending, wire⟩ := l
  rw [drain]
  induction wire generalizing pending with
  | nil => simp
  | cons k wire ih =>
    have hnext : absorb ack ⟨pending, k :: wire⟩ = ⟨pending.filter fun a => ack a ≠ k, wire⟩ := rfl
    rw [List.length_cons, Function.iterate_succ_apply, hnext]
    dsimp only at ih ⊢
    rw [ih, List.mem_filter, List.mem_cons]
    by_cases hk : ack a = k
    · simp [hk]
    · simp [hk]

theorem settled_offer {a : α} (h : l.Settled ack received) :
    (l.offer a).Settled ack received ↔ (received a → ack a ∈ l.wire) := by
  constructor
  · intro h' ha
    exact h' a List.mem_cons_self ha
  · intro ha b hb hr
    rcases List.mem_cons.mp hb with rfl | hb
    · exact ha hr
    · exact h b hb hr

theorem settled_lose : l.lose.Settled ack received ↔ ∀ a ∈ l.pending, ¬ received a := by
  constructor
  · intro h a ha hr
    exact List.not_mem_nil (h a ha hr)
  · intro h a ha hr
    exact absurd hr (h a ha)

/-- Reading an acknowledgement settles the messages that it is for. -/
theorem Settled.absorb [DecidableEq κ] (h : l.Settled ack received) :
    (l.absorb ack).Settled ack received := by
  obtain ⟨pending, wire⟩ := l
  cases wire with
  | nil => exact h
  | cons k wire =>
    intro a ha hr
    obtain ⟨hmem, hk⟩ := List.mem_filter.mp ha
    exact (List.mem_cons.mp (h a hmem hr)).resolve_left (of_decide_eq_true hk)

/-- A receiver that receives more has to acknowledge it. -/
theorem settled_send {ks : List κ} {new : α → Prop} (h : l.Settled ack received)
    (hnew : ∀ a, received' a ↔ received a ∨ new a) :
    (l.send ks).Settled ack received' ↔
      ∀ a ∈ l.pending, new a → ack a ∈ l.wire ∨ ack a ∈ ks := by
  constructor
  · intro h' a ha hn
    exact List.mem_append.mp (h' a ha ((hnew a).mpr (.inr hn)))
  · intro h' a ha hr
    rcases (hnew a).mp hr with hr | hn
    · exact List.mem_append_left _ (h a ha hr)
    · exact List.mem_append.mpr (h' a ha hn)

end Link

end Acknowledge
