import Isthmus.Lib.Runs

/-!
# Goroutines and their channels

A channel is a queue that never grows beyond its capacity. A send waits while
the queue is full, and a receive while it is empty. A send on a closed channel
panics, and so does closing it again.

A system of goroutines makes one move of one of them at a time. A move that
waits leaves it as it is, and a panic ends all of them.

## Main definitions

- `Channels.Outcome`: what comes of a move
- `Channels.Chan`: channels, with `send`, `receive` and `close`
- `Channels.advance`: one move of a system; `none` is a system that panicked
- `Channels.Condition`: a condition on moves that is exact for a kind of states
- `Channels.Within`: what is reached by a few moves of a kind
-/

namespace Channels

/-- What comes of a move: it waits, it panics, or it is made. -/
inductive Outcome (σ : Type) where
  | blocked
  | panic
  | done (s : σ)

namespace Outcome

variable {σ τ : Type}

def map (f : σ → τ) : Outcome σ → Outcome τ
  | blocked => blocked
  | panic => panic
  | done s => done (f s)

@[simp] theorem map_eq_blocked {f : σ → τ} {x : Outcome σ} : x.map f = blocked ↔ x = blocked := by
  cases x <;> simp [map]

@[simp] theorem map_eq_panic {f : σ → τ} {x : Outcome σ} : x.map f = panic ↔ x = panic := by
  cases x <;> simp [map]

@[simp] theorem map_eq_done {f : σ → τ} {x : Outcome σ} {t : τ} :
    x.map f = done t ↔ ∃ s, x = done s ∧ f s = t := by
  cases x <;> simp [map]

/-- A move, and another one after it. -/
def bind (x : Outcome σ) (f : σ → Outcome τ) : Outcome τ :=
  match x with
  | blocked => blocked
  | panic => panic
  | done s => f s

@[simp] theorem bind_eq_done {x : Outcome σ} {f : σ → Outcome τ} {t : τ} :
    x.bind f = done t ↔ ∃ s, x = done s ∧ f s = done t := by
  cases x <;> simp [bind]

/-- The system after a move in `s`. -/
def next (s : σ) : Outcome σ → Option σ
  | blocked => some s
  | panic => none
  | done s' => some s'

end Outcome

/-- A channel of capacity `cap`. -/
structure Chan (α : Type) (cap : Nat) where
  queue : List α
  closed : Bool
  fits : queue.length ≤ cap

namespace Chan

variable {α : Type} {cap : Nat}

def empty : Chan α cap := ⟨[], false, Nat.zero_le cap⟩

def send (c : Chan α cap) (a : α) : Outcome (Chan α cap) :=
  if c.closed = true then .panic
  else if h : c.queue.length < cap then
    .done ⟨c.queue ++ [a], c.closed, by rw [List.length_append]; exact h⟩
  else .blocked

/-- What is received: nothing yet, the end of a closed channel, or a value. -/
inductive Received (α : Type) (cap : Nat) where
  | blocked
  | closed
  | got (a : α) (c : Chan α cap)

def receive (c : Chan α cap) : Received α cap :=
  match hq : c.queue with
  | [] => if c.closed = true then .closed else .blocked
  | a :: q => .got a ⟨q, c.closed, by
      have h := c.fits
      rw [hq, List.length_cons] at h
      omega⟩

def close (c : Chan α cap) : Outcome (Chan α cap) :=
  if c.closed = true then .panic else .done { c with closed := true }

variable {c c' : Chan α cap} {a : α}

@[simp] theorem send_eq_panic : c.send a = .panic ↔ c.closed = true := by
  unfold send
  split
  · next h => simp [h]
  · next h => split <;> simp [h]

@[simp] theorem send_eq_done :
    c.send a = .done c' ↔ c.closed = false ∧ c.queue.length < cap ∧
      c'.queue = c.queue ++ [a] ∧ c'.closed = false := by
  obtain ⟨queue, closed, fits⟩ := c
  obtain ⟨queue', closed', fits'⟩ := c'
  cases closed <;> simp only [send, reduceCtorEq, Bool.false_eq_true, if_false, if_true,
    false_and, true_and, Bool.true_eq_false]
  split
  · next h => simp [h, eq_comm]
  · next h => simp [h]

@[simp] theorem close_ne_blocked : c.close ≠ .blocked := by
  unfold close
  split <;> simp

@[simp] theorem close_eq_panic : c.close = .panic ↔ c.closed = true := by
  unfold close
  split <;> simp [*]

@[simp] theorem close_eq_done :
    c.close = .done c' ↔ c.closed = false ∧ c'.queue = c.queue ∧ c'.closed = true := by
  obtain ⟨queue, closed, fits⟩ := c
  obtain ⟨queue', closed', fits'⟩ := c'
  cases closed <;> simp [close, eq_comm]

@[simp] theorem receive_eq_closed : c.receive = .closed ↔ c.queue = [] ∧ c.closed = true := by
  unfold receive
  split
  · next h => simp [h]
  · next h => simp [h]

@[simp] theorem receive_eq_got :
    c.receive = .got a c' ↔ c.queue = a :: c'.queue ∧ c'.closed = c.closed := by
  obtain ⟨queue, closed, fits⟩ := c
  obtain ⟨queue', closed', fits'⟩ := c'
  cases queue with
  | nil => simp only [receive]; split <;> simp
  | cons b queue => simp [receive, eq_comm, and_assoc]

/-- A send to an open channel with room is made. -/
theorem exists_send (h : c.closed = false) (hroom : c.queue.length < cap) (a : α) :
    ∃ c', c.send a = .done c' ∧ c'.queue = c.queue ++ [a] := by
  refine ⟨⟨c.queue ++ [a], false, by rw [List.length_append]; exact hroom⟩, ?_, rfl⟩
  exact send_eq_done.mpr ⟨h, hroom, rfl, rfl⟩

/-- A send to an open channel without room waits. -/
theorem send_of_full (h : c.closed = false) (hfull : cap ≤ c.queue.length) (a : α) :
    c.send a = .blocked := by
  rw [send, if_neg (by simp [h]), dif_neg (by omega)]

/-- From a channel that holds something something is received. -/
theorem exists_receive {q : List α} (h : c.queue = a :: q) :
    ∃ c', c.receive = .got a c' ∧ c'.queue = q := by
  have hfits : q.length ≤ cap := by
    have hle := c.fits
    rw [h, List.length_cons] at hle
    omega
  exact ⟨⟨q, c.closed, hfits⟩, receive_eq_got.mpr ⟨h, rfl⟩, rfl⟩

end Chan

section Systems

variable {σ ι : Type} (move : σ → ι → Outcome σ)

/-- One move of a system. -/
def advance : Option σ → ι → Option σ
  | none, _ => none
  | some s, i => (move s i).next s

variable {move}

theorem run_none (is : List ι) : Runs.run (advance move) none is = none := by
  induction is with
  | nil => rfl
  | cons i is ih => exact ih

theorem advance_eq_some {s s' : σ} {i : ι} :
    advance move (some s) i = some s' ↔
      move s i = .done s' ∨ move s i = .blocked ∧ s' = s := by
  rw [advance]
  cases move s i <;> simp [Outcome.next, eq_comm]

theorem advance_eq_none {s : σ} {i : ι} :
    advance move (some s) i = none ↔ move s i = .panic := by
  rw [advance]
  cases move s i <;> simp [Outcome.next]

/-- In a sound system that is safe, exactly the allowed moves keep it safe. -/
structure Condition (move : σ → ι → Outcome σ) (Sound Safe : σ → Prop)
    (Allowed : σ → ι → Prop) : Prop where
  sound {s s' i} : Sound s → move s i = .done s' → Sound s'
  safe {s s' i} : Sound s → Safe s → move s i = .done s' → (Safe s' ↔ Allowed s i)
  blocked {s i} : move s i = .blocked → Allowed s i
  panic {s i} : Sound s → Safe s → move s i ≠ .panic

namespace Condition

variable {Sound Safe : σ → Prop} {Allowed : σ → ι → Prop}

theorem advance_iff (h : Condition move Sound Safe Allowed) {s : σ} (hs : Sound s)
    (hsafe : Safe s) (i : ι) :
    (∃ s', advance move (some s) i = some s' ∧ Sound s' ∧ Safe s') ↔ Allowed s i := by
  cases hi : move s i with
  | blocked =>
    refine iff_of_true ⟨s, ?_, hs, hsafe⟩ (h.blocked hi)
    exact advance_eq_some.mpr (.inr ⟨hi, rfl⟩)
  | panic => exact absurd hi (h.panic hs hsafe)
  | done s' =>
    rw [advance_eq_some.mpr (.inl hi), ← h.safe hs hsafe hi]
    constructor
    · rintro ⟨s₁, hs₁, -, hsafe₁⟩
      cases hs₁
      exact hsafe₁
    · intro hsafe'
      exact ⟨s', rfl, h.sound hs hi, hsafe'⟩

/-- Where the safe states are those from which going on with `w` stays good, a
run and each such continuation of its parts stay good exactly if all moves of
the run are allowed. -/
theorem forall_run_iff (h : Condition move Sound Safe Allowed) {G : Option σ → Prop}
    {w : List ι} {s : σ}
    (hw : ∀ s, Sound s → (Safe s ↔ ∀ t, t <+: w → G (Runs.run (advance move) (some s) t)))
    (hnone : ¬ G none) (hs : Sound s) (hsafe : Safe s) (es : List ι) :
    (∀ k t, t <+: w → G (Runs.run (advance move) (some s) (es.take k ++ t))) ↔
      Runs.Meets (advance move) (fun o i => ∀ s, o = some s → Allowed s i) (some s) es := by
  refine Runs.forall_take_append_iff_meets (I := fun o => ∀ s, o = some s → Sound s)
    (J := fun o => ∃ s, o = some s ∧ Sound s ∧ Safe s) ?_ ?_ ?_ ?_ ⟨s, rfl, hs, hsafe⟩
  · rintro (_ | s) i hsound s' hs'
    · cases hs'
    · obtain hdone | ⟨-, rfl⟩ := advance_eq_some.mp hs'
      · exact h.sound (hsound s rfl) hdone
      · exact hsound s' rfl
  · rintro o i - ⟨s, rfl, hs, hsafe⟩
    rw [h.advance_iff hs hsafe i]
    constructor
    · rintro hi s₁ hs₁
      cases hs₁
      exact hi
    · intro hi
      exact hi s rfl
  · rintro (_ | s) hsound
    · refine iff_of_false ?_ fun hall => hnone (hall [] List.nil_prefix)
      rintro ⟨s, hs, -⟩
      cases hs
    · rw [← hw s (hsound s rfl)]
      constructor
      · rintro ⟨s₁, hs₁, -, hsafe₁⟩
        cases hs₁
        exact hsafe₁
      · intro hsafe
        exact ⟨s, rfl, hsound s rfl, hsafe⟩
  · rintro s₁ hs₁
    cases hs₁
    exact hs

/-- Moves that are allowed everywhere keep a sound system safe. -/
theorem run_of_allowed (h : Condition move Sound Safe Allowed) {t : List ι}
    (ht : ∀ i ∈ t, ∀ s, Allowed s i) {s : σ} (hs : Sound s) (hsafe : Safe s) :
    ∃ s', Runs.run (advance move) (some s) t = some s' ∧ Sound s' ∧ Safe s' := by
  induction t generalizing s with
  | nil => exact ⟨s, rfl, hs, hsafe⟩
  | cons i t ih =>
    obtain ⟨s₁, h₁, hs₁, hsafe₁⟩ :=
      (h.advance_iff hs hsafe i).mpr (ht i List.mem_cons_self s)
    rw [Runs.run_cons, h₁]
    exact ih (fun j hj => ht j (List.mem_cons_of_mem i hj)) hs₁ hsafe₁

end Condition

/-- What every move of a sound system keeps is kept by a run, which does not panic. -/
theorem run_of_kept {Sound Safe : σ → Prop}
    (hsound : ∀ {s s' i}, Sound s → move s i = .done s' → Sound s')
    (hpanic : ∀ {s i}, Sound s → move s i ≠ .panic)
    (hsafe : ∀ {s s' i}, Safe s → move s i = .done s' → Safe s') {s : σ} (hs : Sound s)
    (h : Safe s) (t : List ι) :
    ∃ s', Runs.run (advance move) (some s) t = some s' ∧ Sound s' ∧ Safe s' := by
  have hall : Condition move Sound Safe fun _ _ => True :=
    ⟨hsound, fun _ h hm => iff_of_true (hsafe h hm) trivial, fun _ => trivial,
      fun hs _ => hpanic hs⟩
  exact hall.run_of_allowed (fun _ _ _ => trivial) hs h

/-- Moves for which `P` holds, at most `n` of them, lead to `s'`. -/
def Within (move : σ → ι → Outcome σ) (P : ι → Prop) (n : Nat) (s s' : σ) : Prop :=
  ∃ is : List ι, is.length ≤ n ∧ (∀ i ∈ is, P i) ∧ Runs.run (advance move) (some s) is = some s'

namespace Within

variable {P : ι → Prop} {n m : Nat} {s s₁ s₂ : σ}

theorem refl (s : σ) : Within move P n s s := ⟨[], Nat.zero_le n, by simp, rfl⟩

theorem one {i : ι} (hP : P i) (hi : move s i = .done s₁) : Within move P 1 s s₁ :=
  ⟨[i], Nat.le_refl 1, by simpa using hP, advance_eq_some.mpr (.inl hi)⟩

theorem mono (h : Within move P n s s₁) (hle : n ≤ m) : Within move P m s s₁ := by
  obtain ⟨is, hlen, hP, hrun⟩ := h
  exact ⟨is, Nat.le_trans hlen hle, hP, hrun⟩

theorem trans (h : Within move P n s s₁) (h' : Within move P m s₁ s₂) :
    Within move P (n + m) s s₂ := by
  obtain ⟨is, hlen, hP, hrun⟩ := h
  obtain ⟨is', hlen', hP', hrun'⟩ := h'
  refine ⟨is ++ is', ?_, ?_, ?_⟩
  · rw [List.length_append]
    exact Nat.add_le_add hlen hlen'
  · exact List.forall_mem_append.mpr ⟨hP, hP'⟩
  · rw [Runs.run_append, hrun, hrun']

/-- What the moves of the kind keep. -/
theorem keep {I : σ → Prop} (h : Within move P n s s₁)
    (hkeep : ∀ {s s' i}, I s → P i → move s i = .done s' → I s') (hs : I s) : I s₁ := by
  obtain ⟨is, -, hP, hrun⟩ := h
  induction is generalizing s with
  | nil => exact Option.some.inj hrun ▸ hs
  | cons i is ih =>
    rw [List.forall_mem_cons] at hP
    rw [Runs.run_cons, advance] at hrun
    cases hi : move s i with
    | blocked =>
      rw [hi] at hrun
      exact ih hs hP.2 hrun
    | panic =>
      rw [hi] at hrun
      exact absurd ((run_none is).symm.trans hrun) (by simp)
    | done s' =>
      rw [hi] at hrun
      exact ih (hkeep hs hP.1 hi) hP.2 hrun

/-- The moves of a part are moves of a system, as long as they leave it where they can be
made. -/
theorem lift {τ κ : Type} {move' : τ → κ → Outcome τ} {P' : κ → Prop} {c c' : τ} (up : τ → σ)
    (i : κ → ι) (hP : ∀ k, P' k → P (i k))
    (hmove : ∀ c k, P' k → move (up c) (i k) = (move' c k).map up)
    (h : Within move' P' n c c') : Within move P n (up c) (up c') := by
  obtain ⟨ks, hlen, hP', hrun⟩ := h
  refine ⟨ks.map i, by simpa using hlen, by simpa using fun k hk => hP k (hP' k hk), ?_⟩
  clear hlen
  induction ks generalizing c with
  | nil => rw [List.map_nil, Runs.run_nil, Option.some.inj hrun]
  | cons k ks ih =>
    rw [List.forall_mem_cons] at hP'
    rw [List.map_cons, Runs.run_cons, advance, hmove c k hP'.1]
    rw [Runs.run_cons, advance] at hrun
    cases hk : move' c k with
    | blocked =>
      rw [hk] at hrun
      exact ih hP'.2 hrun
    | panic =>
      rw [hk] at hrun
      exact absurd ((run_none ks).symm.trans hrun) (by simp)
    | done c₁ =>
      rw [hk] at hrun
      exact ih hP'.2 hrun

end Within

end Systems

end Channels
