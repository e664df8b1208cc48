import Mathlib.Data.List.Basic

/-!
# Connections to a database

A connection has at most one open transaction, and every statement that is
executed on the connection takes part in it. A call can fail, and some failures
roll the transaction back. A statement whose last step failed has to be reset,
or closing the connection panics.

## Main definitions

- `CallOutcome`: how a call ends
- `Conn`: a connection, with how its next calls end
- `Calls`: the programs over a connection, a monad
- `Calls.execEach`: one execution of a statement for each row
-/

/-- How a call ends, if the constraints of the database do not refuse it. -/
inductive CallOutcome where
  | done
  | failed
  | rolledBack
  deriving DecidableEq

/-- Why a program stopped early: it or a constraint refused something, a call
failed, or the program panicked. -/
inductive Failure (ε : Type) where
  | refused (e : ε)
  | failed
  | panicked
  deriving DecidableEq

/-- A connection to a database with contents `σ` and statements `ι`. A call that
is not listed in `outcomes` is done. -/
structure Conn (σ ι : Type) where
  committed : σ
  transaction : Option σ
  unreset : List ι
  outcomes : List CallOutcome

namespace Conn

variable {σ ι : Type} (c : Conn σ ι)

/-- What the queries on the connection see. -/
def content : σ := c.transaction.getD c.committed

/-- How the next call ends. -/
def outcome : CallOutcome := c.outcomes.headD .done

/-- After one call. -/
def called : Conn σ ι := { c with outcomes := c.outcomes.tail }

/-- After `n` calls. -/
def skip (n : Nat) : Conn σ ι := { c with outcomes := c.outcomes.drop n }

/-- The next `n` calls are done. -/
def DoneFor (n : Nat) : Prop := ∀ o ∈ c.outcomes.take n, o = .done

/-- A transaction has this content. -/
def working (s : σ) : Conn σ ι := { c with transaction := some s }

/-- This content is committed, and no transaction is open. -/
def settled (s : σ) : Conn σ ι := { c with committed := s, transaction := none }

/-- After a write, which is committed at once if there is no transaction. -/
def put (s : σ) : Conn σ ι :=
  match c.transaction with
  | some _ => c.working s
  | none => c.settled s

/-- After a call that was not done. -/
def interrupt : CallOutcome → Conn σ ι
  | .rolledBack => { c with transaction := none }
  | _ => c

/-- The last step of the statement failed. -/
def leave (stmt : ι) : Conn σ ι := { c with unreset := stmt :: c.unreset }

def clear [DecidableEq ι] (stmt : ι) : Conn σ ι :=
  { c with unreset := c.unreset.filter (· ≠ stmt) }

/-- Finalizing a statement that was left unreset is an error, which panics. -/
def closes : Bool := c.unreset.isEmpty

variable {c}

theorem doneFor_zero : c.DoneFor 0 := by simp [DoneFor]

theorem doneFor_succ {n : Nat} : c.DoneFor (n + 1) ↔ c.outcome = .done ∧ c.called.DoneFor n := by
  unfold DoneFor outcome called
  cases c.outcomes <;> simp

theorem doneFor_one : c.DoneFor 1 ↔ c.outcome = .done := by
  simp [doneFor_succ, doneFor_zero]

theorem doneFor_add {n m : Nat} : c.DoneFor (n + m) ↔ c.DoneFor n ∧ (c.skip n).DoneFor m := by
  simp only [DoneFor, skip, List.take_add, List.mem_append]
  constructor
  · intro h
    exact ⟨fun o ho => h o (.inl ho), fun o ho => h o (.inr ho)⟩
  · rintro ⟨h₁, h₂⟩ o (ho | ho)
    · exact h₁ o ho
    · exact h₂ o ho

theorem skip_called {n : Nat} : c.called.skip n = c.skip (n + 1) := by
  simp [skip, called, List.drop_tail]

theorem called_skip {n : Nat} : (c.skip n).called = c.skip (n + 1) := by
  simp [skip, called]

theorem skip_skip {n m : Nat} : (c.skip n).skip m = c.skip (n + m) := by simp [skip]

theorem called_eq_skip : c.called = c.skip 1 := by simp [skip, called]

/-- How the first of the next calls that is not done ends. -/
def fault (c : Conn σ ι) : Option CallOutcome := c.outcomes.find? (· ≠ .done)

theorem fault_called (h : c.outcome = .done) : c.called.fault = c.fault := by
  unfold fault called outcome at *
  cases ho : c.outcomes with
  | nil => rfl
  | cons o os =>
    rw [ho] at h
    simp [show o = .done from h]

theorem fault_of_outcome (h : c.outcome ≠ .done) : c.fault = some c.outcome := by
  unfold fault outcome at *
  cases ho : c.outcomes with
  | nil =>
    rw [ho] at h
    exact absurd rfl h
  | cons o os =>
    rw [ho] at h
    simp [show o ≠ .done from h]

theorem fault_skip {n : Nat} (h : c.DoneFor n) : (c.skip n).fault = c.fault := by
  induction n generalizing c with
  | zero => rfl
  | succ n ih =>
    obtain ⟨ho, hrest⟩ := doneFor_succ.mp h
    rw [← skip_called, ih hrest, fault_called ho]

/-- The contents are what they were, and no transaction is open. -/
structure Rests (c c' : Conn σ ι) : Prop where
  committed : c'.committed = c.committed
  transaction : c'.transaction = none

theorem Rests.trans {c₁ c₂ : Conn σ ι} (h : c.Rests c₁) (h' : c₁.Rests c₂) : c.Rests c₂ :=
  ⟨h'.committed.trans h.committed, h'.transaction⟩

theorem content_of_none (ht : c.transaction = none) : c.content = c.committed := by
  rw [content, ht, Option.getD_none]

/-- Nothing is left of a batch: what is committed is as it was, no transaction is
open, and no statement is left unreset. -/
structure Clean (c : Conn σ ι) (s : σ) : Prop where
  committed : c.committed = s
  transaction : c.transaction = none
  unreset : c.unreset = []

end Conn

/-- A program over a connection: its result, and the connection after it. -/
structure Calls (σ ι ε α : Type) where
  run : Conn σ ι → Except (Failure ε) α × Conn σ ι

namespace Calls

variable {σ ι ε α β γ : Type}

instance : Monad (Calls σ ι ε) where
  pure a := ⟨fun c => (.ok a, c)⟩
  bind x f := ⟨fun c =>
    match x.run c with
    | (.ok a, c') => (f a).run c'
    | (.error e, c') => (.error e, c')⟩

section Bind

variable {x : Calls σ ι ε α} {f : α → Calls σ ι ε β} {c c' : Conn σ ι}

@[simp] theorem run_pure (a : α) : (pure a : Calls σ ι ε α).run c = (.ok a, c) := rfl

theorem bind_of_ok {a : α} (h : x.run c = (.ok a, c')) : (x >>= f).run c = (f a).run c' := by
  simp [bind, h]

theorem bind_of_error {e : Failure ε} (h : x.run c = (.error e, c')) :
    (x >>= f).run c = (.error e, c') := by
  simp [bind, h]

theorem bind_eq_ok {b : β} :
    (x >>= f).run c = (.ok b, c') ↔ ∃ a c₁, x.run c = (.ok a, c₁) ∧ (f a).run c₁ = (.ok b, c') := by
  rcases hx : x.run c with ⟨_ | a, c₁⟩
  · rw [bind_of_error hx]
    simp
  · rw [bind_of_ok hx]
    simp

theorem bind_eq_error {e : Failure ε} : (x >>= f).run c = (.error e, c') ↔
    x.run c = (.error e, c') ∨
      ∃ a c₁, x.run c = (.ok a, c₁) ∧ (f a).run c₁ = (.error e, c') := by
  rcases hx : x.run c with ⟨_ | a, c₁⟩
  · rw [bind_of_error hx]
    simp
  · rw [bind_of_ok hx]
    simp

end Bind

/-! ## Calls -/

def refuse (e : ε) : Calls σ ι ε α := ⟨fun c => (.error (.refused e), c)⟩

/-- `BEGIN`. -/
def begin : Calls σ ι ε Unit := ⟨fun c =>
  match c.transaction, c.outcome with
  | none, .done => (.ok (), c.called.working c.committed)
  | _, _ => (.error .failed, c.called)⟩

/-- `COMMIT`. -/
def commit : Calls σ ι ε Unit := ⟨fun c =>
  match c.transaction, c.outcome with
  | some s, .done => (.ok (), c.called.settled s)
  | _, o => (.error .failed, c.called.interrupt o)⟩

/-- The first step of a statement that writes, with the row that it returns. -/
def step (stmt : ι) (write : σ → Except ε (σ × α)) : Calls σ ι ε α := ⟨fun c =>
  match c.outcome with
  | .done =>
    match write c.content with
    | .ok (s, a) => (.ok a, c.called.put s)
    | .error e => (.error (.refused e), c.called.leave stmt)
  | o => (.error .failed, (c.called.leave stmt).interrupt o)⟩

/-- The last step of a statement, after its row. -/
def stepDone (stmt : ι) : Calls σ ι ε Unit := ⟨fun c =>
  match c.outcome with
  | .done => (.ok (), c.called)
  | o => (.error .failed, (c.called.leave stmt).interrupt o)⟩

/-- The execution of a statement that returns no row. -/
def exec (stmt : ι) (write : σ → Except ε σ) : Calls σ ι ε Unit :=
  step stmt fun s => (write s).map fun s' => (s', ())

/-- A statement that is prepared, executed and finalized by one call. -/
def direct (write : σ → Except ε σ) : Calls σ ι ε Unit := ⟨fun c =>
  match c.outcome with
  | .done =>
    match write c.content with
    | .ok s => (.ok (), c.called.put s)
    | .error e => (.error (.refused e), c.called)
  | o => (.error .failed, c.called.interrupt o)⟩

/-- A query, with its statement reset. -/
def query (f : σ → α) : Calls σ ι ε α := ⟨fun c =>
  match c.outcome with
  | .done => (.ok (f c.content), c.called)
  | o => (.error .failed, c.called.interrupt o)⟩

/-- A statement that cannot be prepared panics. -/
def prepare : Calls σ ι ε Unit := ⟨fun c =>
  match c.outcome with
  | .done => (.ok (), c.called)
  | o => (.error .panicked, c.called.interrupt o)⟩

/-- The error of a call is dropped. -/
def ignore (x : Calls σ ι ε Unit) : Calls σ ι ε Unit := ⟨fun c => (.ok (), (x.run c).2)⟩

def crash : Calls σ ι ε α := ⟨fun c => (.error .panicked, c)⟩

section Reset

variable [DecidableEq ι]

/-- Reset a statement, which gives the error of its last step again. -/
def reset (stmt : ι) : Calls σ ι ε Unit := ⟨fun c =>
  (if stmt ∈ c.unreset then .error .failed else .ok (), c.clear stmt)⟩

/-- `defer stmt.Reset()`: its error is dropped. -/
def deferReset (stmt : ι) (x : Calls σ ι ε α) : Calls σ ι ε α := ⟨fun c =>
  ((x.run c).1, (x.run c).2.clear stmt)⟩

/-- Finalize a statement, which panics if its last step failed. -/
def finalize (stmt : ι) : Calls σ ι ε Unit := ⟨fun c =>
  (if stmt ∈ c.unreset then .error .panicked else .ok (), c.clear stmt)⟩

/-- One execution of the statement for each row, unless the program refuses the
row before. -/
def execEach (stmt : ι) (row : β → Except ε (σ → Except ε σ)) : List β → Calls σ ι ε Unit
  | [] => pure ()
  | b :: bs =>
    match row b with
    | .error e => refuse e
    | .ok write => do
      exec stmt write
      reset stmt
      execEach stmt row bs

/-- The rows of one table, by a statement of their own. -/
def fill (stmt : ι) (row : β → Except ε (σ → Except ε σ)) (bs : List β) : Calls σ ι ε Unit := do
  prepare
  execEach stmt row bs
  finalize stmt

end Reset

/-! ## What the calls do -/

section Specs

variable {c c' : Conn σ ι} {s : σ} {stmt : ι}

theorem begin_of_outcome (ht : c.transaction = none) (ho : c.outcome = .done) :
    (begin : Calls σ ι ε Unit).run c = (.ok (), c.called.working c.committed) := by
  simp [begin, ht, ho]

theorem begin_of_not (ho : c.outcome ≠ .done) :
    (begin : Calls σ ι ε Unit).run c = (.error .failed, c.called) := by
  cases ht : c.transaction with
  | none => cases ho' : c.outcome <;> simp_all [begin]
  | some s => simp [begin, ht]

theorem commit_of_outcome (ho : c.outcome = .done) :
    (commit : Calls σ ι ε Unit).run (c.working s) = (.ok (), c.called.settled s) := by
  have ho' : (c.working s).outcome = .done := ho
  simp only [commit, ho']
  rfl

theorem commit_of_not (ho : c.outcome ≠ .done) :
    (commit : Calls σ ι ε Unit).run (c.working s) =
      (.error .failed, (c.called.working s).interrupt c.outcome) := by
  have houtcome : (c.working s).outcome = c.outcome := rfl
  cases ho' : c.outcome with
  | done => exact absurd ho' ho
  | failed =>
    simp only [commit, houtcome, ho']
    rfl
  | rolledBack =>
    simp only [commit, houtcome, ho']
    rfl

theorem begin_eq_ok (ht : c.transaction = none) : (begin : Calls σ ι ε Unit).run c = (.ok (), c') ↔
    c.outcome = .done ∧ c' = c.called.working c.committed := by
  by_cases ho : c.outcome = .done
  · simp [begin_of_outcome ht ho, ho, eq_comm]
  · simp [begin_of_not ho, ho]

theorem commit_eq_ok : (commit : Calls σ ι ε Unit).run (c.working s) = (.ok (), c') ↔
    c.outcome = .done ∧ c' = c.called.settled s := by
  by_cases ho : c.outcome = .done
  · simp [commit_of_outcome ho, ho, eq_comm]
  · simp [commit_of_not ho, ho]

theorem step_eq_ok {write : σ → Except ε (σ × α)} {a : α} :
    (step stmt write).run c = (.ok a, c') ↔
      c.outcome = .done ∧ ∃ s', write c.content = .ok (s', a) ∧ c' = c.called.put s' := by
  cases ho : c.outcome with
  | done =>
    cases hw : write c.content with
    | ok p => simp [step, ho, hw, Prod.ext_iff, eq_comm]
    | error e => simp [step, ho, hw]
  | failed => simp [step, ho]
  | rolledBack => simp [step, ho]

theorem step_of_not {write : σ → Except ε (σ × α)} (ho : c.outcome ≠ .done) :
    (step stmt write).run c = (.error .failed, (c.called.leave stmt).interrupt c.outcome) := by
  cases ho' : c.outcome with
  | done => exact absurd ho' ho
  | failed => simp [step, ho']
  | rolledBack => simp [step, ho']

theorem stepDone_of_outcome (ho : c.outcome = .done) :
    (stepDone stmt : Calls σ ι ε Unit).run c = (.ok (), c.called) := by
  simp [stepDone, ho]

theorem stepDone_of_not (ho : c.outcome ≠ .done) : (stepDone stmt : Calls σ ι ε Unit).run c =
    (.error .failed, (c.called.leave stmt).interrupt c.outcome) := by
  cases ho' : c.outcome with
  | done => exact absurd ho' ho
  | failed => simp [stepDone, ho']
  | rolledBack => simp [stepDone, ho']

theorem step_error {write : σ → Except ε (σ × α)} {f : Failure ε}
    (h : (step stmt write).run c = (.error f, c')) :
    c' = (c.called.leave stmt).interrupt c.outcome := by
  unfold step at h
  cases ho : c.outcome with
  | done =>
    simp only [ho] at h
    split at h
    · cases h
    · cases h
      rfl
  | failed =>
    simp only [ho] at h
    cases h
    rfl
  | rolledBack =>
    simp only [ho] at h
    cases h
    rfl

theorem exec_eq_ok {write : σ → Except ε σ} (ht : c.transaction = some s) :
    (exec stmt write).run c = (.ok (), c') ↔
      c.outcome = .done ∧ ∃ s', write s = .ok s' ∧ c' = c.called.working s' := by
  have hcontent : c.content = s := by rw [Conn.content, ht, Option.getD_some]
  have hput (s' : σ) : c.called.put s' = c.called.working s' := by
    simp only [Conn.put, Conn.called, ht]
  rw [exec, step_eq_ok, hcontent]
  refine and_congr_right fun _ => exists_congr fun s' => ?_
  rw [hput]
  cases write s <;> simp [Except.map]

theorem interrupt_unreset (o : CallOutcome) : (c.interrupt o).unreset = c.unreset := by
  cases o <;> rfl

theorem exec_error {write : σ → Except ε σ} {f : Failure ε}
    (h : (exec stmt write).run c = (.error f, c')) : stmt ∈ c'.unreset := by
  rw [step_error h, interrupt_unreset]
  exact List.mem_cons_self

theorem clear_of_not_mem [DecidableEq ι] (h : stmt ∉ c.unreset) : c.clear stmt = c := by
  have hfilter : c.unreset.filter (· ≠ stmt) = c.unreset :=
    List.filter_eq_self.mpr fun i hi => decide_eq_true fun he => h (he ▸ hi)
  rw [Conn.clear, hfilter]

theorem reset_of_not_mem [DecidableEq ι] (h : stmt ∉ c.unreset) :
    (reset stmt : Calls σ ι ε Unit).run c = (.ok (), c) := by
  show (_, c.clear stmt) = _
  rw [clear_of_not_mem h, if_neg h]

theorem finalize_of_not_mem [DecidableEq ι] (h : stmt ∉ c.unreset) :
    (finalize stmt : Calls σ ι ε Unit).run c = (.ok (), c) := by
  show (_, c.clear stmt) = _
  rw [clear_of_not_mem h, if_neg h]

/-- Without a transaction a statement is committed at once. -/
theorem direct_eq_ok {write : σ → Except ε σ} (ht : c.transaction = none) :
    (direct write).run c = (.ok (), c') ↔
      c.outcome = .done ∧ ∃ s', write c.committed = .ok s' ∧ c' = c.called.settled s' := by
  have hcontent : c.content = c.committed := by rw [Conn.content, ht, Option.getD_none]
  have hput (s' : σ) : c.called.put s' = c.called.settled s' := by
    simp only [Conn.put, Conn.called, ht]
  cases ho : c.outcome with
  | done => cases hw : write c.committed <;> simp [direct, ho, hw, hcontent, hput, eq_comm]
  | failed => simp [direct, ho]
  | rolledBack => simp [direct, ho]

theorem query_eq_ok {f : σ → α} {a : α} : (query f : Calls σ ι ε α).run c = (.ok a, c') ↔
    c.outcome = .done ∧ a = f c.content ∧ c' = c.called := by
  cases ho : c.outcome <;> simp [query, ho, eq_comm]

/-- A query outside of a transaction changes nothing. -/
theorem rests_query {f : σ → α} {r : Except (Failure ε) α} (ht : c.transaction = none)
    (h : (query f).run c = (r, c')) : c.Rests c' := by
  unfold query at h
  cases ho : c.outcome with
  | done =>
    simp only [ho] at h
    cases h
    exact ⟨rfl, ht⟩
  | failed =>
    simp only [ho] at h
    cases h
    exact ⟨rfl, ht⟩
  | rolledBack =>
    simp only [ho] at h
    cases h
    exact ⟨rfl, rfl⟩

theorem prepare_eq_ok :
    (prepare : Calls σ ι ε Unit).run c = (.ok (), c') ↔ c.outcome = .done ∧ c' = c.called := by
  cases ho : c.outcome <;> simp [prepare, ho, eq_comm]

/-- A failed `COMMIT` leaves nothing behind if and only if it rolls back. -/
theorem clean_commit_iff {s₀ : σ} {f : Failure ε} (hcommitted : c.committed = s₀)
    (hreset : c.unreset = []) (h : (commit : Calls σ ι ε Unit).run (c.working s) = (.error f, c')) :
    c'.Clean s₀ ↔ c.outcome = .rolledBack := by
  have ho : c.outcome ≠ .done := fun ho => by
    rw [commit_of_outcome ho] at h
    cases h
  rw [commit_of_not ho] at h
  cases h
  cases hcase : c.outcome with
  | done => exact absurd hcase ho
  | failed =>
    refine iff_of_false (fun hclean => ?_) (by simp)
    cases hclean.transaction
  | rolledBack => exact iff_of_true ⟨hcommitted, rfl, hreset⟩ rfl

end Specs

/-! ## Batches -/

section Batches

variable {c c' : Conn σ ι} {s s' : σ} {stmt : ι}

/-- What a row does, if the program does not refuse it before. -/
def writeRow (row : β → Except ε (σ → Except ε σ)) (s : σ) (b : β) : Except ε σ :=
  match row b with
  | .error e => .error e
  | .ok write => write s

variable [DecidableEq ι] {row : β → Except ε (σ → Except ε σ)}

/-- A batch is through if and only if no call fails and no row is refused. -/
theorem execEach_eq_ok {bs : List β} (ht : c.transaction = some s)
    (hreset : stmt ∉ c.unreset) :
    (execEach stmt row bs).run c = (.ok (), c') ↔ c.DoneFor bs.length ∧
      ∃ s', bs.foldlM (writeRow row) s = .ok s' ∧ c' = (c.skip bs.length).working s' := by
  induction bs generalizing c s with
  | nil =>
    have hsame : (c.skip 0).working s = c := by
      rw [Conn.working, ← ht]
      rfl
    simp [execEach, pure, Except.pure, Conn.doneFor_zero, hsame, eq_comm]
  | cons b bs ih =>
    rw [execEach, List.foldlM_cons, List.length_cons, Conn.doneFor_succ]
    cases hrow : row b with
    | error e => simp [refuse, writeRow, hrow, bind, Except.bind]
    | ok write =>
      have hwrite : writeRow row s b = write s := by rw [writeRow, hrow]
      have hclear (s₁ : σ) : (reset stmt : Calls σ ι ε Unit).run (c.called.working s₁) =
          (.ok (), c.called.working s₁) := reset_of_not_mem hreset
      have hrest (s₁ : σ) := ih (c := c.called.working s₁) rfl hreset
      simp only [hwrite, bind_eq_ok, exec_eq_ok ht]
      constructor
      · rintro ⟨_, c₁, ⟨ho, s₁, hs₁, rfl⟩, _, c₂, hres, h⟩
        cases (hclear s₁).symm.trans hres
        obtain ⟨hdone, s', hfold, hc'⟩ := (hrest s₁).mp h
        rw [← Conn.skip_called]
        exact ⟨⟨ho, hdone⟩, s', by rw [hs₁]; exact hfold, hc'⟩
      · rintro ⟨⟨ho, hdone⟩, s', hfold, hc'⟩
        cases hs₁ : write s with
        | error e =>
          rw [hs₁] at hfold
          cases hfold
        | ok s₁ =>
          rw [hs₁] at hfold
          rw [← Conn.skip_called] at hc'
          exact ⟨(), _, ⟨ho, s₁, rfl, rfl⟩, (), _, hclear s₁,
            (hrest s₁).mpr ⟨hdone, s', hfold, hc'⟩⟩

/-- If the program refuses no row, then the statement is left unreset where the
batch stops. -/
theorem execEach_error {bs : List β} {f : Failure ε} (hrow : ∀ b, ∃ write, row b = .ok write)
    (hreset : stmt ∉ c.unreset) (h : (execEach stmt row bs).run c = (.error f, c')) :
    stmt ∈ c'.unreset := by
  induction bs generalizing c with
  | nil => cases h
  | cons b bs ih =>
    obtain ⟨write, hwrite⟩ := hrow b
    rw [execEach, hwrite] at h
    rcases bind_eq_error.mp h with hexec | ⟨_, c₁, hexec, hrest⟩
    · exact exec_error hexec
    · have hkept : c₁.unreset = c.unreset := by
        obtain ⟨-, s', -, rfl⟩ := step_eq_ok.mp hexec
        unfold Conn.put
        split <;> rfl
      rw [← hkept] at hreset
      rw [bind_of_ok (reset_of_not_mem hreset)] at hrest
      exact ih hreset hrest

/-- The rows of a batch in a transaction of their own. -/
def batch (stmt : ι) (row : β → Except ε (σ → Except ε σ)) (bs : List β) : Calls σ ι ε Unit := do
  begin
  execEach stmt row bs
  commit

/-- The rows are through after `BEGIN`. -/
theorem execEach_begun (stmt : ι) {bs : List β} (hc : c.Clean s) :
    (execEach stmt row bs).run (c.called.working s) = (.ok (), c') ↔
      c.called.DoneFor bs.length ∧
        ∃ s', bs.foldlM (writeRow row) s = .ok s' ∧ c' = (c.skip (bs.length + 1)).working s' := by
  have hmem : stmt ∉ (c.called.working s).unreset := by
    show stmt ∉ c.unreset
    simp [hc.unreset]
  rw [execEach_eq_ok rfl hmem, ← Conn.skip_called]
  rfl

theorem batch_eq_ok {bs : List β} (hc : c.Clean s) :
    (batch stmt row bs).run c = (.ok (), c') ↔ c.DoneFor (bs.length + 2) ∧
      ∃ s', bs.foldlM (writeRow row) s = .ok s' ∧ c' = (c.skip (bs.length + 2)).settled s' := by
  have hsplit : c.DoneFor (bs.length + 2) ↔ c.outcome = .done ∧ c.called.DoneFor bs.length ∧
      (c.skip (bs.length + 1)).outcome = .done := by
    rw [Conn.doneFor_succ, Conn.doneFor_add, Conn.doneFor_one,
      Conn.skip_called]
  have hend : (c.skip (bs.length + 1)).called = c.skip (bs.length + 2) := Conn.called_skip
  rw [hsplit]
  by_cases ho : c.outcome = .done
  · rw [batch, bind_of_ok (begin_of_outcome hc.transaction ho), hc.committed, bind_eq_ok]
    constructor
    · rintro ⟨_, c₂, hrows, hcommit⟩
      obtain ⟨hdone, s', hfold, rfl⟩ := (execEach_begun stmt hc).mp hrows
      by_cases hlast : (c.skip (bs.length + 1)).outcome = .done
      · rw [commit_of_outcome hlast] at hcommit
        cases hcommit
        exact ⟨⟨ho, hdone, hlast⟩, s', hfold, by rw [hend]⟩
      · rw [commit_of_not hlast] at hcommit
        cases hcommit
    · rintro ⟨⟨-, hdone, hlast⟩, s', hfold, rfl⟩
      refine ⟨(), _, (execEach_begun stmt hc).mpr ⟨hdone, s', hfold, rfl⟩, ?_⟩
      rw [commit_of_outcome hlast, hend]
  · rw [batch, bind_of_error (begin_of_not ho)]
    simp [ho]

/-- A batch that stops with an error leaves nothing behind if and only if it is
`BEGIN` that fails, or `COMMIT` and the transaction is rolled back. -/
theorem clean_batch_iff {bs : List β} {f : Failure ε} (hrow : ∀ b, ∃ write, row b = .ok write)
    (hc : c.Clean s) (h : (batch stmt row bs).run c = (.error f, c')) :
    c'.Clean s ↔ c.outcome ≠ .done ∨ c.DoneFor (bs.length + 1) ∧
      (∃ s', bs.foldlM (writeRow row) s = .ok s') ∧
        (c.skip (bs.length + 1)).outcome = .rolledBack := by
  by_cases ho : c.outcome = .done
  · rw [batch, bind_of_ok (begin_of_outcome hc.transaction ho), hc.committed] at h
    rcases bind_eq_error.mp h with hrows | ⟨_, c₂, hrows, hcommit⟩
    · -- the statement is left, where a row was refused or its call failed
      refine iff_of_false (fun hclean => ?_) ?_
      · have hmem : stmt ∉ (c.called.working s).unreset := by
          show stmt ∉ c.unreset
          simp [hc.unreset]
        have hleft := execEach_error hrow hmem hrows
        rw [hclean.unreset] at hleft
        cases hleft
      · rintro (hno | ⟨hdone, ⟨s', hfold⟩, -⟩)
        · exact hno ho
        · have hok := (execEach_begun stmt hc).mpr
            ⟨(Conn.doneFor_succ.mp hdone).2, s', hfold, rfl⟩
          cases hrows.symm.trans hok
    · obtain ⟨hdone, s', hfold, rfl⟩ := (execEach_begun stmt hc).mp hrows
      rw [clean_commit_iff (c := c.skip (bs.length + 1)) hc.committed hc.unreset hcommit]
      constructor
      · intro hrolled
        exact .inr ⟨Conn.doneFor_succ.mpr ⟨ho, hdone⟩, ⟨s', hfold⟩, hrolled⟩
      · rintro (hno | ⟨-, -, hrolled⟩)
        · exact absurd ho hno
        · exact hrolled
  · rw [batch, bind_of_error (begin_of_not ho)] at h
    cases h
    exact iff_of_true ⟨hc.committed, hc.transaction, hc.unreset⟩ (.inl ho)

end Batches

/-! ## Writes in a transaction -/

section Writes

variable {x y : Calls σ ι ε Unit} {n m : Nat} {f g : σ → Except ε σ}

/-- In a transaction the program is through if and only if its `n` calls are done
and nothing refuses the write, which is then made. -/
def Does (x : Calls σ ι ε Unit) (n : Nat) (write : σ → Except ε σ) : Prop :=
  ∀ ⦃c c' : Conn σ ι⦄ ⦃s : σ⦄, c.transaction = some s → c.unreset = [] →
    (x.run c = (.ok (), c') ↔
      c.DoneFor n ∧ ∃ s', write s = .ok s' ∧ c' = (c.skip n).working s')

theorem Does.bind (hx : x.Does n f) (hy : y.Does m g) :
    (x >>= fun _ => y).Does (n + m) fun s => f s >>= g := by
  intro c c' s ht hunreset
  have hrest (s₁ : σ) : y.run ((c.skip n).working s₁) = (.ok (), c') ↔
      (c.skip n).DoneFor m ∧ ∃ s', g s₁ = .ok s' ∧ c' = (c.skip (n + m)).working s' := by
    rw [← Conn.skip_skip]
    exact hy rfl hunreset
  rw [bind_eq_ok, Conn.doneFor_add]
  dsimp only
  constructor
  · rintro ⟨_, c₁, hfirst, hsecond⟩
    obtain ⟨hn, s₁, hs₁, rfl⟩ := (hx ht hunreset).mp hfirst
    obtain ⟨hm, s', hs', hc'⟩ := (hrest s₁).mp hsecond
    exact ⟨⟨hn, hm⟩, s', by rw [hs₁]; exact hs', hc'⟩
  · rintro ⟨⟨hn, hm⟩, s', hs', hc'⟩
    cases hs₁ : f s with
    | error e =>
      rw [hs₁] at hs'
      cases hs'
    | ok s₁ =>
      rw [hs₁] at hs'
      exact ⟨(), _, (hx ht hunreset).mpr ⟨hn, s₁, hs₁, rfl⟩, (hrest s₁).mpr ⟨hm, s', hs', hc'⟩⟩

theorem does_prepare : (prepare : Calls σ ι ε Unit).Does 1 .ok := by
  intro c c' s ht hunreset
  have hsame : (c.skip 1).working s = c.called := by
    rw [Conn.working, ← ht, ← Conn.called_eq_skip]
    rfl
  rw [prepare_eq_ok, Conn.doneFor_one]
  simp [hsame]

variable [DecidableEq ι]

theorem does_finalize {stmt : ι} : (finalize stmt : Calls σ ι ε Unit).Does 0 .ok := by
  intro c c' s ht hunreset
  have hsame : (c.skip 0).working s = c := by
    rw [Conn.working, ← ht]
    rfl
  rw [finalize_of_not_mem (by simp [hunreset])]
  simp [Conn.doneFor_zero, hsame, eq_comm]

theorem does_execEach {stmt : ι} {row : β → Except ε (σ → Except ε σ)} {bs : List β} :
    (execEach stmt row bs).Does bs.length fun s => bs.foldlM (writeRow row) s := by
  intro c c' s ht hunreset
  exact execEach_eq_ok ht (by simp [hunreset])

theorem does_prepared {stmt : ι} {row : β → Except ε (σ → Except ε σ)} {bs : List β} :
    (prepare >>= fun _ => execEach stmt row bs).Does (1 + bs.length)
      fun s => bs.foldlM (writeRow row) s :=
  does_prepare.bind does_execEach

/-- A table is filled by one call for the statement and one for each row. -/
theorem does_fill {stmt : ι} {row : β → Except ε (σ → Except ε σ)} {bs : List β} :
    (fill stmt row bs).Does (1 + bs.length) fun s => bs.foldlM (writeRow row) s := by
  have hfill : (fill stmt row bs).Does (1 + (bs.length + 0)) fun s =>
      .ok s >>= fun s => bs.foldlM (writeRow row) s >>= .ok :=
    does_prepare.bind (does_execEach.bind does_finalize)
  have hbind (s : σ) : (Except.ok s >>= fun s => bs.foldlM (writeRow row) s >>= .ok) =
      bs.foldlM (writeRow row) s :=
    bind_pure (bs.foldlM (writeRow row) s)
  simpa only [hbind, Nat.add_zero] using hfill

end Writes

/-! ## Nothing is committed in a transaction -/

section Pending

variable {x : Calls σ ι ε α} {f : α → Calls σ ι ε β} {c c' : Conn σ ι} {stmt : ι}

/-- In a transaction the calls commit nothing, and leave it open where they are through. -/
def Pends (x : Calls σ ι ε α) : Prop :=
  ∀ c : Conn σ ι, c.transaction.isSome = true → (x.run c).2.committed = c.committed ∧
    ∀ a, (x.run c).1 = .ok a → (x.run c).2.transaction.isSome = true

theorem interrupt_committed (o : CallOutcome) : (c.interrupt o).committed = c.committed := by
  cases o <;> rfl

theorem pends_pure (a : α) : (pure a : Calls σ ι ε α).Pends := fun _ ht => ⟨rfl, fun _ _ => ht⟩

theorem pends_refuse (e : ε) : (refuse e : Calls σ ι ε α).Pends := fun _ _ => ⟨rfl, nofun⟩

theorem Pends.bind (hx : x.Pends) (hf : ∀ a, (f a).Pends) : (x >>= f).Pends := by
  intro c ht
  obtain ⟨hcommitted, hopen⟩ := hx c ht
  rcases hrun : x.run c with ⟨e | a, c₁⟩
  · rw [bind_of_error hrun]
    rw [hrun] at hcommitted
    exact ⟨hcommitted, nofun⟩
  · rw [bind_of_ok hrun]
    rw [hrun] at hcommitted hopen
    obtain ⟨hrest, hresult⟩ := hf a c₁ (hopen a rfl)
    exact ⟨hrest.trans hcommitted, hresult⟩

theorem pends_prepare : (prepare : Calls σ ι ε Unit).Pends := by
  intro c ht
  simp only [prepare]
  split
  · exact ⟨rfl, fun _ _ => ht⟩
  · exact ⟨interrupt_committed _, by simp⟩

theorem pends_exec {write : σ → Except ε σ} : (exec stmt write).Pends := by
  intro c ht
  obtain ⟨s, hs⟩ := Option.isSome_iff_exists.mp ht
  rcases hrun : (exec stmt write).run c with ⟨e | a, c'⟩
  · refine ⟨?_, nofun⟩
    rw [step_error hrun, interrupt_committed]
    rfl
  · obtain ⟨-, s', -, rfl⟩ := (exec_eq_ok hs).mp hrun
    exact ⟨rfl, fun _ _ => rfl⟩

theorem committed_of_direct_error {write : σ → Except ε σ} {f : Failure ε}
    (h : (direct write).run c = (.error f, c')) : c'.committed = c.committed := by
  simp only [direct] at h
  split at h
  · split at h
    · cases h
    · cases h
      rfl
  · cases h
    exact interrupt_committed _

theorem committed_of_begin_error {f : Failure ε}
    (h : (begin : Calls σ ι ε Unit).run c = (.error f, c')) : c'.committed = c.committed := by
  simp only [begin] at h
  split at h
  · cases h
  · cases h
    rfl

/-- A `COMMIT` that fails commits nothing. -/
theorem committed_of_commit_error {f : Failure ε}
    (h : (commit : Calls σ ι ε Unit).run c = (.error f, c')) : c'.committed = c.committed := by
  simp only [commit] at h
  split at h
  · cases h
  · cases h
    exact interrupt_committed _

variable [DecidableEq ι] {row : γ → Except ε (σ → Except ε σ)}

theorem pends_reset : (reset stmt : Calls σ ι ε Unit).Pends := fun _ ht => ⟨rfl, fun _ _ => ht⟩

theorem pends_finalize : (finalize stmt : Calls σ ι ε Unit).Pends :=
  fun _ ht => ⟨rfl, fun _ _ => ht⟩

theorem pends_execEach (bs : List γ) : (execEach stmt row bs).Pends := by
  induction bs with
  | nil => exact pends_pure ()
  | cons b bs ih =>
    simp only [execEach]
    split
    · exact pends_refuse _
    · exact pends_exec.bind fun _ => pends_reset.bind fun _ => ih

theorem pends_fill (bs : List γ) : (fill stmt row bs).Pends :=
  pends_prepare.bind fun _ => (pends_execEach bs).bind fun _ => pends_finalize

end Pending

end Calls
