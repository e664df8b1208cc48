import Mathlib.Data.List.Basic

/-!
# Processes over a transactional store

A process reads a store, commits writes to it one at a time and exchanges
messages between the writes. Running it from a store content yields its result
and the trace of its atomic effects; the store content after any part of the
trace is the replay of that part. A process that is killed leaves the replay of
a prefix of its trace behind.

## Main definitions

- `Process.Effect`: one atomic effect, a committed write or a message
- `Process.Store`: what a store does with a write, the refusal included
- `Process.Proc`: processes, a monad
- `Process.replay`: the store content after a trace
- `Process.cut`: the part of a trace that a kill lets through
-/

namespace Process

/-- One atomic effect of a process: a committed write, or a message in or out. -/
inductive Effect (κ μ : Type) where
  | commit (c : κ)
  | io (m : μ)
  deriving DecidableEq

/-- A store takes a write as a whole or refuses it with an error. -/
class Store (σ : Type) (κ ε : outParam Type) where
  apply : σ → κ → Except ε σ

/-- What one execution of a process produced. -/
@[ext]
structure Run (κ μ ε α : Type) where
  result : Except ε α
  trace : List (Effect κ μ)

namespace Run

variable {κ μ ε α : Type}

/-- The same execution with one more effect in front of it. -/
def cons (e : Effect κ μ) (r : Run κ μ ε α) : Run κ μ ε α := ⟨r.result, e :: r.trace⟩

@[simp] theorem cons_result (e : Effect κ μ) (r : Run κ μ ε α) :
    (r.cons e).result = r.result := rfl

@[simp] theorem cons_mk (e : Effect κ μ) (x : Except ε α) (t : List (Effect κ μ)) :
    (Run.mk x t).cons e = ⟨x, e :: t⟩ := rfl

end Run

section Replay

variable {σ κ μ ε : Type} [Store σ κ ε]

/-- The store after one write. One that the store refuses changes nothing. -/
def write (s : σ) (c : κ) : σ :=
  match Store.apply s c with
  | .ok s' => s'
  | .error _ => s

/-- The store after a list of writes. -/
def perform (s : σ) (cs : List κ) : σ := cs.foldl write s

/-- The store after one effect. -/
def act (s : σ) : Effect κ μ → σ
  | .commit c => write s c
  | .io _ => s

/-- The store after a trace. -/
def replay (s : σ) (t : List (Effect κ μ)) : σ := t.foldl act s

@[simp] theorem replay_nil (s : σ) : replay s ([] : List (Effect κ μ)) = s := rfl

@[simp] theorem replay_io (s : σ) (m : μ) (t : List (Effect κ μ)) :
    replay s (.io m :: t) = replay s t := rfl

theorem replay_cons (s : σ) (e : Effect κ μ) (t : List (Effect κ μ)) :
    replay s (e :: t) = replay (act s e) t := rfl

theorem replay_commit {s s' : σ} {c : κ} (h : Store.apply s c = .ok s')
    (t : List (Effect κ μ)) : replay s (.commit c :: t) = replay s' t := by
  rw [replay_cons, act, write, h]

theorem replay_append (s : σ) (t u : List (Effect κ μ)) :
    replay s (t ++ u) = replay (replay s t) u :=
  List.foldl_append

/-- Messages leave the store alone. -/
theorem replay_map_io (s : σ) {α : Type} (f : α → μ) (l : List α) :
    replay s (l.map fun a => Effect.io (κ := κ) (f a)) = s := by
  induction l with
  | nil => rfl
  | cons a l ih => exact ih

end Replay

/-- The writes of a trace, in order. -/
def commits {κ μ : Type} : List (Effect κ μ) → List κ
  | [] => []
  | .commit c :: t => c :: commits t
  | .io _ :: t => commits t

/-- The messages of a trace, in order. -/
def messages {κ μ : Type} : List (Effect κ μ) → List μ
  | [] => []
  | .commit _ :: t => messages t
  | .io m :: t => m :: messages t

section Projections

variable {κ μ : Type}

@[simp] theorem commits_nil : commits ([] : List (Effect κ μ)) = [] := rfl

@[simp] theorem commits_commit (c : κ) (t : List (Effect κ μ)) :
    commits (.commit c :: t) = c :: commits t := rfl

@[simp] theorem commits_io (m : μ) (t : List (Effect κ μ)) :
    commits (.io m :: t) = commits t := rfl

@[simp] theorem commits_append (t u : List (Effect κ μ)) :
    commits (t ++ u) = commits t ++ commits u := by
  induction t with
  | nil => rfl
  | cons e t ih => cases e <;> simp [ih]

@[simp] theorem commits_map_io {α : Type} (f : α → μ) (l : List α) :
    commits (l.map fun a => (.io (f a) : Effect κ μ)) = [] := by
  induction l with
  | nil => rfl
  | cons a l ih => exact ih

@[simp] theorem messages_nil : messages ([] : List (Effect κ μ)) = [] := rfl

@[simp] theorem messages_commit (c : κ) (t : List (Effect κ μ)) :
    messages (.commit c :: t) = messages t := rfl

@[simp] theorem messages_io (m : μ) (t : List (Effect κ μ)) :
    messages (.io m :: t) = m :: messages t := rfl

@[simp] theorem messages_append (t u : List (Effect κ μ)) :
    messages (t ++ u) = messages t ++ messages u := by
  induction t with
  | nil => rfl
  | cons e t ih => cases e <;> simp [ih]

theorem mem_messages {m : μ} {t : List (Effect κ μ)} : m ∈ messages t ↔ .io m ∈ t := by
  induction t with
  | nil => simp
  | cons e t ih => cases e <;> simp [ih]

end Projections

/-- What is left of a trace when the process is killed after `w` of its writes
and after at most `n` of the messages that follow the last of them. -/
def cut {κ μ : Type} : Nat → Nat → List (Effect κ μ) → List (Effect κ μ)
  | _, _, [] => []
  | 0, _, .commit _ :: _ => []
  | w + 1, n, .commit c :: t => .commit c :: cut w n t
  | 0, 0, .io _ :: _ => []
  | 0, n + 1, .io m :: t => .io m :: cut 0 n t
  | w + 1, n, .io m :: t => .io m :: cut (w + 1) n t

section Perform

variable {σ κ μ ε : Type} [Store σ κ ε]

@[simp] theorem perform_nil (s : σ) : perform s ([] : List κ) = s := rfl

@[simp] theorem perform_cons (s : σ) (c : κ) (cs : List κ) :
    perform s (c :: cs) = perform (write s c) cs := rfl

theorem perform_append (s : σ) (cs ds : List κ) :
    perform s (cs ++ ds) = perform (perform s cs) ds :=
  List.foldl_append

theorem write_of_ok {s s' : σ} {c : κ} (h : Store.apply s c = .ok s') : write s c = s' := by
  rw [write, h]

/-- Only the writes of a trace matter for the store. -/
theorem replay_eq_perform (s : σ) (t : List (Effect κ μ)) : replay s t = perform s (commits t) := by
  induction t generalizing s with
  | nil => rfl
  | cons e t ih =>
    cases e with
    | commit c => exact ih (write s c)
    | io m => exact ih s

end Perform

section Cut

variable {κ μ : Type}

@[simp] theorem cut_nil (w n : Nat) : cut w n ([] : List (Effect κ μ)) = [] := by
  cases w <;> rfl

@[simp] theorem cut_zero_commit (n : Nat) (c : κ) (t : List (Effect κ μ)) :
    cut 0 n (.commit c :: t) = [] := by
  cases n <;> rfl

@[simp] theorem cut_succ_commit (w n : Nat) (c : κ) (t : List (Effect κ μ)) :
    cut (w + 1) n (.commit c :: t) = .commit c :: cut w n t := rfl

@[simp] theorem cut_succ_io (w n : Nat) (m : μ) (t : List (Effect κ μ)) :
    cut (w + 1) n (.io m :: t) = .io m :: cut (w + 1) n t := rfl

/-- A kill lets a prefix through. -/
theorem isPrefix_cut (w n : Nat) (t : List (Effect κ μ)) : cut w n t <+: t := by
  induction t generalizing w n with
  | nil => simp
  | cons e t ih =>
    cases e with
    | commit c =>
      cases w with
      | zero => simp
      | succ w => simpa using ih w n
    | io m =>
      cases w with
      | zero =>
        cases n with
        | zero => exact List.nil_prefix
        | succ n => simpa [cut] using ih 0 n
      | succ w => simpa using ih (w + 1) n

/-- Any prefix of a trace is what some kill lets through. -/
theorem exists_cut {p t : List (Effect κ μ)} (h : p <+: t) : ∃ w n, cut w n t = p := by
  induction p generalizing t with
  | nil =>
    refine ⟨0, 0, ?_⟩
    cases t with
    | nil => rfl
    | cons e t => cases e <;> rfl
  | cons e p ih =>
    obtain ⟨u, rfl⟩ := h
    obtain ⟨w, n, hcut⟩ := ih (List.prefix_append p u)
    cases e with
    | commit c => exact ⟨w + 1, n, by rw [List.cons_append, cut_succ_commit, hcut]⟩
    | io m =>
      cases w with
      | zero => exact ⟨0, n + 1, by rw [List.cons_append, cut, hcut]⟩
      | succ w => exact ⟨w + 1, n, by rw [List.cons_append, cut_succ_io, hcut]⟩

/-- A kill after a write of the second part lets the first part through. -/
theorem cut_append (t u : List (Effect κ μ)) (w n : Nat) :
    cut ((commits t).length + (w + 1)) n (t ++ u) = t ++ cut (w + 1) n u := by
  induction t with
  | nil => simp
  | cons e t ih =>
    cases e with
    | commit c =>
      rw [commits_commit, List.length_cons, Nat.succ_add]
      simp only [List.cons_append, cut_succ_commit, ih]
    | io m =>
      rw [commits_io, ← Nat.add_assoc] at *
      simp only [List.cons_append, cut_succ_io, ih]

/-- The writes that a kill lets through are the first `w`. -/
theorem commits_cut (w n : Nat) (t : List (Effect κ μ)) :
    commits (cut w n t) = (commits t).take w := by
  induction t generalizing w n with
  | nil => simp
  | cons e t ih =>
    cases e with
    | commit c =>
      cases w with
      | zero => simp
      | succ w => simp [ih]
    | io m =>
      cases w with
      | zero =>
        cases n with
        | zero => simp [cut]
        | succ n => simp [cut, ih]
      | succ w => simp [ih]

/-- A kill leaves the first `w` writes behind. -/
theorem replay_cut {σ ε : Type} [Store σ κ ε] (s : σ) (w n : Nat) (t : List (Effect κ μ)) :
    replay s (cut w n t) = perform s ((commits t).take w) := by
  rw [replay_eq_perform, commits_cut]

end Cut

/-- A process: from a store content to the execution it has there. -/
@[ext]
structure Proc (σ κ μ ε α : Type) where
  run : σ → Run κ μ ε α

namespace Proc

variable {σ κ μ ε α β : Type}

/-- Look at the store. -/
def read (f : σ → α) : Proc σ κ μ ε α := ⟨fun s => ⟨.ok (f s), []⟩⟩

/-- Look at the store, and stop with an error for what is found there. -/
def query (f : σ → Except ε α) : Proc σ κ μ ε α := ⟨fun s => ⟨f s, []⟩⟩

/-- Exchange one message. -/
def emit (m : μ) : Proc σ κ μ ε Unit := ⟨fun _ => ⟨.ok (), [.io m]⟩⟩

/-- Stop with an error. -/
def fail (e : ε) : Proc σ κ μ ε α := ⟨fun _ => ⟨.error e, []⟩⟩

/-- Run a process and carry on whatever its result is. -/
def attempt (p : Proc σ κ μ ε α) : Proc σ κ μ ε (Except ε α) :=
  ⟨fun s => ⟨.ok (p.run s).result, (p.run s).trace⟩⟩

@[simp] theorem run_read (f : σ → α) (s : σ) :
    (read f : Proc σ κ μ ε α).run s = ⟨.ok (f s), []⟩ := rfl

@[simp] theorem run_query (f : σ → Except ε α) (s : σ) :
    (query f : Proc σ κ μ ε α).run s = ⟨f s, []⟩ := rfl

@[simp] theorem run_emit (m : μ) (s : σ) :
    (emit m : Proc σ κ μ ε Unit).run s = ⟨.ok (), [.io m]⟩ := rfl

@[simp] theorem run_fail (e : ε) (s : σ) :
    (fail e : Proc σ κ μ ε α).run s = ⟨.error e, []⟩ := rfl

@[simp] theorem run_attempt (p : Proc σ κ μ ε α) (s : σ) :
    (attempt p).run s = ⟨.ok (p.run s).result, (p.run s).trace⟩ := rfl

variable [Store σ κ ε]

/-- Commit one write, or stop with the error the store gives. -/
def commit (c : κ) : Proc σ κ μ ε Unit :=
  ⟨fun s =>
    match Store.apply s c with
    | .ok _ => ⟨.ok (), [.commit c]⟩
    | .error e => ⟨.error e, []⟩⟩

/-- The store that a process leaves behind. -/
def final (p : Proc σ κ μ ε α) (s : σ) : σ := replay s (p.run s).trace

/-- Run `p`, then what `f` makes of its result in the store that `p` left. -/
def andThen (p : Proc σ κ μ ε α) (f : α → Proc σ κ μ ε β) : Proc σ κ μ ε β :=
  ⟨fun s =>
    match (p.run s).result with
    | .ok a =>
      ⟨((f a).run (p.final s)).result, (p.run s).trace ++ ((f a).run (p.final s)).trace⟩
    | .error e => ⟨.error e, (p.run s).trace⟩⟩

instance : Monad (Proc σ κ μ ε) where
  pure a := ⟨fun _ => ⟨.ok a, []⟩⟩
  bind := andThen

@[simp] theorem run_pure (a : α) (s : σ) :
    (pure a : Proc σ κ μ ε α).run s = ⟨.ok a, []⟩ := rfl

theorem run_commit_ok {s s' : σ} {c : κ} (h : Store.apply s c = .ok s') :
    (commit c : Proc σ κ μ ε Unit).run s = ⟨.ok (), [.commit c]⟩ := by
  simp [commit, h]

theorem run_commit_error {s : σ} {c : κ} {e : ε} (h : Store.apply s c = .error e) :
    (commit c : Proc σ κ μ ε Unit).run s = ⟨.error e, []⟩ := by
  simp [commit, h]

theorem run_bind_of_ok {p : Proc σ κ μ ε α} {f : α → Proc σ κ μ ε β} {s : σ} {a : α}
    {t : List (Effect κ μ)} (h : p.run s = ⟨.ok a, t⟩) :
    (p >>= f).run s =
      ⟨((f a).run (replay s t)).result, t ++ ((f a).run (replay s t)).trace⟩ := by
  simp [Bind.bind, andThen, final, h]

theorem run_bind_of_error {p : Proc σ κ μ ε α} {f : α → Proc σ κ μ ε β} {s : σ} {e : ε}
    {t : List (Effect κ μ)} (h : p.run s = ⟨.error e, t⟩) :
    (p >>= f).run s = ⟨.error e, t⟩ := by
  simp [Bind.bind, andThen, h]

@[simp] theorem run_pure_bind (a : α) (f : α → Proc σ κ μ ε β) (s : σ) :
    ((pure a : Proc σ κ μ ε α) >>= f).run s = (f a).run s := by
  rw [run_bind_of_ok (run_pure a s)]; rfl

theorem run_bind_pure (p : Proc σ κ μ ε α) (f : α → β) (s : σ) :
    (p >>= fun a => pure (f a)).run s = ⟨(p.run s).result.map f, (p.run s).trace⟩ := by
  rcases hp : p.run s with ⟨_ | a, t⟩
  · exact run_bind_of_error hp
  · rw [run_bind_of_ok hp]
    simp [Except.map]

@[simp] theorem run_read_bind (g : σ → α) (f : α → Proc σ κ μ ε β) (s : σ) :
    (read g >>= f).run s = (f (g s)).run s := by
  rw [run_bind_of_ok (run_read g s)]; rfl

theorem run_query_bind (g : σ → Except ε α) (f : α → Proc σ κ μ ε β) (s : σ) :
    (query g >>= f).run s =
      match g s with
      | .ok a => (f a).run s
      | .error e => ⟨.error e, []⟩ := by
  cases h : g s with
  | ok a => rw [run_bind_of_ok (show (query g).run s = ⟨.ok a, []⟩ by rw [run_query, h])]; rfl
  | error e => exact run_bind_of_error (by rw [run_query, h])

@[simp] theorem run_emit_bind (m : μ) (f : Unit → Proc σ κ μ ε β) (s : σ) :
    (emit m >>= f).run s = ((f ()).run s).cons (.io m) := by
  rw [run_bind_of_ok (run_emit m s)]; rfl

theorem run_commit_bind_ok {s s' : σ} {c : κ} (h : Store.apply s c = .ok s')
    (f : Unit → Proc σ κ μ ε β) :
    (commit c >>= f).run s = ((f ()).run s').cons (.commit c) := by
  rw [run_bind_of_ok (run_commit_ok h), replay_commit h, replay_nil]; rfl

theorem run_commit_bind_error {s : σ} {c : κ} {e : ε} (h : Store.apply s c = .error e)
    (f : Unit → Proc σ κ μ ε β) :
    (commit c >>= f).run s = ⟨.error e, []⟩ :=
  run_bind_of_error (run_commit_error h)

theorem bind_assoc' {γ : Type} (p : Proc σ κ μ ε α) (f : α → Proc σ κ μ ε β)
    (g : β → Proc σ κ μ ε γ) : p >>= f >>= g = p >>= fun a => f a >>= g := by
  refine Proc.ext (funext fun s => ?_)
  rcases hp : p.run s with ⟨_ | a, t⟩
  · rw [run_bind_of_error hp, run_bind_of_error (run_bind_of_error hp)]
  · rw [run_bind_of_ok hp]
    rcases hf : (f a).run (replay s t) with ⟨_ | b, u⟩
    · rw [run_bind_of_error hf]
      exact run_bind_of_error (by rw [run_bind_of_ok hp, hf])
    · have hpf : (p >>= f).run s = ⟨.ok b, t ++ u⟩ := by rw [run_bind_of_ok hp, hf]
      rw [run_bind_of_ok hf, run_bind_of_ok hpf, replay_append, List.append_assoc]

theorem bind_pure' (p : Proc σ κ μ ε α) : p >>= pure = p := by
  refine Proc.ext (funext fun s => ?_)
  rcases hp : p.run s with ⟨_ | a, t⟩
  · exact run_bind_of_error hp
  · simp [run_bind_of_ok hp]

instance : LawfulMonad (Proc σ κ μ ε) :=
  LawfulMonad.mk' _ bind_pure' (fun a f => Proc.ext (funext (run_pure_bind a f))) bind_assoc'

/-- Run a process for each element of a list, in order. -/
def forEach (f : α → Proc σ κ μ ε Unit) : List α → Proc σ κ μ ε Unit
  | [] => pure ()
  | a :: l => do
    f a
    forEach f l

theorem forEach_map {γ : Type} (g : γ → α) (f : α → Proc σ κ μ ε Unit) (l : List γ) :
    forEach f (l.map g) = forEach (fun c => f (g c)) l := by
  induction l with
  | nil => rfl
  | cons c l ih => rw [List.map_cons, forEach, forEach, ih]

/-- Sending a list of messages cannot fail. -/
theorem run_forEach_emit (g : α → μ) (l : List α) (s : σ) :
    (forEach (fun a => (emit (g a) : Proc σ κ μ ε Unit)) l).run s =
      ⟨.ok (), l.map fun a => .io (g a)⟩ := by
  induction l with
  | nil => rfl
  | cons a l ih => simp [forEach, ih]

end Proc

end Process
