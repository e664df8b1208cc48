import Isthmus.Lib.Process

/-!
# What a trace guarantees about its writes

`Steps G s t` says that each write of the trace `t`, started from `s`, is made
where `G` allows it. A fact about the store and the history that every allowed
write keeps then holds after the whole trace, and after every part of it that a
kill lets through.
-/

namespace Process

variable {σ κ μ ε : Type} [Store σ κ ε]

/-- Every write of the trace is made in a store where `G` allows it. -/
def Steps (G : σ → κ → Prop) : σ → List (Effect κ μ) → Prop
  | _, [] => True
  | s, .io _ :: t => Steps G s t
  | s, .commit c :: t => G s c ∧ Steps G (write s c) t

variable {G : σ → κ → Prop} {s : σ} {t u : List (Effect κ μ)}

@[simp] theorem steps_nil : Steps G s ([] : List (Effect κ μ)) := trivial

@[simp] theorem steps_commit {c : κ} :
    Steps G s (.commit c :: t) ↔ G s c ∧ Steps G (write s c) t := Iff.rfl

theorem steps_append : Steps G s (t ++ u) ↔ Steps G s t ∧ Steps G (replay s t) u := by
  induction t generalizing s with
  | nil => simp
  | cons e t ih =>
    cases e with
    | io m => exact ih
    | commit c =>
      constructor
      · rintro ⟨hg, h⟩
        obtain ⟨ht, hu⟩ := ih.mp h
        exact ⟨⟨hg, ht⟩, hu⟩
      · rintro ⟨⟨hg, ht⟩, hu⟩
        exact ⟨hg, ih.mpr ⟨ht, hu⟩⟩

/-- A trace whose writes are allowed anywhere. -/
theorem steps_of_forall (h : ∀ c ∈ commits t, ∀ s, G s c) : Steps G s t := by
  induction t generalizing s with
  | nil => trivial
  | cons e t ih =>
    cases e with
    | io m => exact ih h
    | commit c =>
      exact ⟨h c List.mem_cons_self s, ih fun c' hc => h c' (List.mem_cons_of_mem _ hc)⟩

/-- What a trace guarantees, its prefixes guarantee. -/
theorem Steps.of_prefix (h : Steps G s u) (ht : t <+: u) : Steps G s t := by
  obtain ⟨v, rfl⟩ := ht
  exact (steps_append.mp h).1

/-- A fact about the store and the history that led to it survives a trace of
allowed writes. -/
theorem Steps.keep_history {I : σ → List (Effect κ μ) → Prop}
    (hio : ∀ s l m, I s l → I s (l ++ [.io m]))
    (hI : ∀ s l c, I s l → G s c → I (write s c) (l ++ [.commit c]))
    (h : Steps G s t) {l : List (Effect κ μ)} (h0 : I s l) : I (replay s t) (l ++ t) := by
  induction t generalizing s l with
  | nil => simpa using h0
  | cons e t ih =>
    rw [List.append_cons]
    cases e with
    | io m => exact ih h (hio _ _ _ h0)
    | commit c => exact ih h.2 (hI _ _ _ h0 h.1)

/-- Every message of the trace is exchanged where `P` holds. -/
def Sees (P : σ → μ → Prop) : σ → List (Effect κ μ) → Prop
  | _, [] => True
  | s, .io m :: t => P s m ∧ Sees P s t
  | s, .commit c :: t => Sees P (write s c) t

variable {P : σ → μ → Prop}

@[simp] theorem sees_nil : Sees P s ([] : List (Effect κ μ)) := trivial

@[simp] theorem sees_io {m : μ} : Sees P s (.io m :: t) ↔ P s m ∧ Sees P s t := Iff.rfl

@[simp] theorem sees_commit {c : κ} : Sees P s (.commit c :: t) ↔ Sees P (write s c) t := Iff.rfl

theorem sees_append : Sees P s (t ++ u) ↔ Sees P s t ∧ Sees P (replay s t) u := by
  induction t generalizing s with
  | nil => simp
  | cons e t ih =>
    cases e with
    | commit c => exact ih
    | io m => exact (and_congr_right fun _ => ih).trans and_assoc.symm

/-- A trace whose messages may be exchanged anywhere. -/
theorem sees_of_forall (h : ∀ m ∈ messages t, ∀ s, P s m) : Sees P s t := by
  induction t generalizing s with
  | nil => trivial
  | cons e t ih =>
    cases e with
    | commit c => exact ih h
    | io m => exact ⟨h m List.mem_cons_self s, ih fun m' hm => h m' (List.mem_cons_of_mem _ hm)⟩

theorem Sees.of_prefix (h : Sees P s u) (ht : t <+: u) : Sees P s t := by
  obtain ⟨v, rfl⟩ := ht
  exact (sees_append.mp h).1

/-- What no write undoes holds of all messages in the end. -/
theorem Sees.keep (hP : ∀ s c m, P s m → P (write s c) m) (h : Sees P s t)
    {l : List (Effect κ μ)} (hl : ∀ m ∈ messages l, P s m) :
    ∀ m ∈ messages (l ++ t), P (replay s t) m := by
  induction t generalizing s l with
  | nil => simpa using hl
  | cons e t ih =>
    rw [List.append_cons]
    cases e with
    | io m =>
      refine ih h.2 fun m' hm => ?_
      rw [messages_append, List.mem_append] at hm
      obtain hm | hm := hm
      · exact hl m' hm
      · rw [List.mem_singleton.mp hm]
        exact h.1
    | commit c =>
      refine ih h fun m' hm => hP s c m' (hl m' ?_)
      simpa using hm

end Process
