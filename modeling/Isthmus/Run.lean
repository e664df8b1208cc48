import Isthmus.Steps
import Isthmus.CreateSavefile
import Isthmus.Lib.Runs

/-!
# Runs of the program

The program serves one AP client after the other. A session ends with an error,
with the loss of a connection, or with the death of the process at any point of
a step; the savefile is all that stays. The history keeps every write and every
message since the savefile was created.

## Main definitions

- `step`: what one event does to the savefile, the session and the history
- `play`: a run from a savefile, with no session open
- `Stepped`: the cases of `step`, with what the handler did
-/

namespace Isthmus

open Process Mwproto Approto

structure System where
  db : Savefile
  session : Option Session
  history : Trace

inductive Event where
  | connect
  | handle (env : Env) (m : Incoming)
  | kill (env : Env) (m : Incoming) (w n : Nat)
  | disconnect

/-- What is said where a session cannot be opened. The MW server is greeted before the
tables are read, if there is one slot. -/
def Config.failedOpening (cfg : Config) : Trace :=
  match singularEntry cfg.data.slotInfo with
  | .error _ => []
  | .ok _ => [.io (.toMW (.connect ⟨[]⟩))]

/-- A kill is while a message is handled: `w` writes were made, and at most `n`
messages exchanged after the last of them. -/
def step (cfg : Config) (s : System) : Event → System
  | .connect =>
    match cfg.openRoom s.db.toSetupTables with
    | .error _ => { s with session := none, history := s.history ++ cfg.failedOpening }
    | .ok room =>
      ⟨s.db, some room.enter, s.history ++
        [.io (.toMW (.connect ⟨[]⟩)), .io (.toAP (.roomInfo room.games room.checksums))]⟩
  | .handle env m =>
    match s.session with
    | none => s
    | some sess =>
      let r := (handle cfg env sess m).run s.db
      ⟨replay s.db r.trace, r.result.toOption, s.history ++ r.trace⟩
  | .kill env m w n =>
    match s.session with
    | none => s
    | some sess =>
      let t := cut w n ((handle cfg env sess m).run s.db).trace
      ⟨replay s.db t, none, s.history ++ t⟩
  | .disconnect => { s with session := none }

/-- The program before its first session. -/
def boot (db : Savefile) : System := ⟨db, none, []⟩

/-- The state after a list of events. -/
def play (cfg : Config) (db : Savefile) (es : List Event) : System :=
  Runs.run (step cfg) (boot db) es

/-- The event does not kill the process. -/
def Event.Survives : Event → Prop
  | .kill _ _ _ _ => False
  | _ => True

/-- The fixed part of the session is what the savefile and the seed give. -/
def System.Opened (cfg : Config) (s : System) : Prop :=
  ∀ sess, s.session = some sess → cfg.openRoom s.db.toSetupTables = .ok sess.toRoom

/-- The player of the savefile. -/
def SetupTables.selfID (setup : SetupTables) : Int :=
  match setup.getConnectionParams with
  | .ok (playerID, _) => playerID
  | .error _ => 0

theorem Config.selfID_of_openRoom {cfg : Config} {setup : SetupTables} {room : Room}
    (h : cfg.openRoom setup = .ok room) : setup.selfID = room.playerID := by
  obtain ⟨⟨randoID, hparams⟩, -⟩ := Config.openRoom_ok h
  rw [SetupTables.selfID, hparams]

/-- The player of an open session is that of the savefile. -/
theorem System.Opened.selfID {cfg : Config} {s : System} (ho : s.Opened cfg) {sess : Session}
    (hs : s.session = some sess) : s.db.selfID = sess.playerID :=
  cfg.selfID_of_openRoom (ho sess hs)

section Session

variable {cfg : Config} {env : Env} {sess sess' : Session} {db : Savefile}

/-- Only a `Connect` changes the flags, and nothing changes the rest. -/
theorem handle_session {m : Incoming}
    (h : ((handle cfg env sess m).run db).result = .ok sess') :
    sess'.toRoom = sess.toRoom ∧
      (sess'.itemHandling = sess.itemHandling ∨
        ∃ c, m = .fromAP (.connect c) ∧ c.itemsHandling = some sess'.itemHandling) := by
  have hsame : ∀ {x : Except Stop Unit}, x.map (fun _ => sess) = .ok sess' → sess' = sess := by
    intro x hx
    cases x with
    | error e => cases hx
    | ok u => cases hx; rfl
  cases m with
  | fromMW m =>
    rw [run_handle_fromMW] at h
    have hsess := hsame h
    exact hsess ▸ ⟨rfl, .inl rfl⟩
  | fromAP m =>
    rw [run_handle_fromAP, Run.cons_result] at h
    cases m with
    | connect m =>
      rw [handleAP, handleConnect, Proc.run_emit_bind, Run.cons_result] at h
      cases hm : m.itemsHandling with
      | none =>
        rw [hm] at h
        cases h
      | some mode =>
        rw [hm] at h
        simp only [Proc.run_read_bind, Proc.run_emit_bind, Run.cons_result, Proc.run_pure,
          Except.ok.injEq] at h
        subst h
        exact ⟨rfl, .inr ⟨m, rfl, hm⟩⟩
    | setNotify keys =>
      rw [handleAP, Proc.run_pure] at h
      cases h
      exact ⟨rfl, .inl rfl⟩
    | getDataPackage games | say text | sync | set m | get m | locationScouts locations
    | locationChecks locations =>
      rw [handleAP, Proc.run_bind_pure] at h
      dsimp only at h
      have hsess := hsame h
      exact hsess ▸ ⟨rfl, .inl rfl⟩

end Session

/-- What an event does. Where no handler runs, the savefile stays. -/
inductive Stepped (cfg : Config) (s : System) : Event → System → Prop
  | stayed {e s' t} (he : s.session = none ∨ e = .connect ∨ e = .disconnect)
      (hdb : s'.db = s.db) (hhist : s'.history = s.history ++ t) (hc : commits t = []) : Stepped cfg s e s'
  | handled {env sess m r t} (hs : s.session = some sess)
      (h : Handled cfg env sess s.db m r t) :
      Stepped cfg s (.handle env m)
        ⟨replay s.db t, r.toOption, s.history ++ .io (.recv m) :: t⟩
  | killed {env sess m r t w n} (hs : s.session = some sess)
      (h : Handled cfg env sess s.db m r t) :
      Stepped cfg s (.kill env m w n)
        ⟨replay s.db (cut w n (.io (.recv m) :: t)), none,
          s.history ++ cut w n (.io (.recv m) :: t)⟩

theorem Config.mem_failedOpening {cfg : Config} {e : Effect Commit Io}
    (h : e ∈ cfg.failedOpening) : e = .io (.toMW (.connect ⟨[]⟩)) := by
  unfold Config.failedOpening at h
  split at h
  · cases h
  · exact List.mem_singleton.mp h

theorem Config.commits_failedOpening (cfg : Config) : commits cfg.failedOpening = [] := by
  unfold Config.failedOpening
  split <;> rfl

section Step

variable {cfg : Config} {s : System}

theorem stepped (ho : s.Opened cfg) (e : Event) : Stepped cfg s e (step cfg s e) := by
  cases e with
  | connect =>
    simp only [step]
    split
    · exact .stayed (.inr (.inl rfl)) rfl rfl cfg.commits_failedOpening
    · exact .stayed (.inr (.inl rfl)) rfl rfl rfl
  | disconnect => exact .stayed (.inr (.inr rfl)) rfl (List.append_nil _).symm rfl
  | handle env m =>
    cases hs : s.session with
    | none =>
      simp only [step, hs]
      exact .stayed (.inl hs) rfl (List.append_nil _).symm rfl
    | some sess =>
      obtain ⟨-, -, hlen, hc⟩ := Config.openRoom_ok (ho sess hs)
      obtain ⟨r, t, hrun, h⟩ := handle_handled cfg env s.db hc hlen m
      simp only [step, hs, hrun]
      exact .handled hs h
  | kill env m w n =>
    cases hs : s.session with
    | none =>
      simp only [step, hs]
      exact .stayed (.inl hs) rfl (List.append_nil _).symm rfl
    | some sess =>
      obtain ⟨-, -, hlen, hc⟩ := Config.openRoom_ok (ho sess hs)
      obtain ⟨r, t, hrun, h⟩ := handle_handled cfg env s.db hc hlen m
      simp only [step, hs, hrun]
      exact .killed hs h

theorem step_toSetupTables (e : Event) :
    (step cfg s e).db.toSetupTables = s.db.toSetupTables := by
  cases e with
  | connect => simp only [step]; split <;> rfl
  | disconnect => rfl
  | handle env m | kill env m w n =>
    simp only [step]
    split
    · rfl
    · exact replay_toSetupTables _

theorem opened_step (ho : s.Opened cfg) (e : Event) : (step cfg s e).Opened cfg := by
  intro sess' hs'
  rw [step_toSetupTables]
  cases e with
  | connect =>
    simp only [step] at hs'
    split at hs'
    · cases hs'
    · next room hroom =>
      cases hs'
      exact hroom
  | disconnect => cases hs'
  | handle env m =>
    cases hs : s.session with
    | none =>
      simp only [step, hs] at hs'
      cases hs'
    | some sess =>
      simp only [step, hs] at hs'
      cases hr : ((handle cfg env sess m).run s.db).result with
      | error e =>
        rw [hr] at hs'
        cases hs'
      | ok sess₁ =>
        rw [hr] at hs'
        cases hs'
        rw [(handle_session hr).1]
        exact ho sess hs
  | kill env m w n =>
    cases hs : s.session with
    | none =>
      simp only [step, hs] at hs'
      cases hs'
    | some sess =>
      simp only [step, hs] at hs'
      cases hs'

end Step

theorem opened_boot (cfg : Config) (db : Savefile) : (boot db).Opened cfg := by
  intro sess hs
  cases hs

theorem opened_play (cfg : Config) (db : Savefile) (es : List Event) :
    (play cfg db es).Opened cfg :=
  Runs.run_keep (fun _ e ho => opened_step ho e) (opened_boot cfg db)

theorem play_toSetupTables (cfg : Config) (db : Savefile) (es : List Event) :
    (play cfg db es).db.toSetupTables = db.toSetupTables :=
  Runs.run_keep (I := fun s : System => s.db.toSetupTables = db.toSetupTables)
    (fun _ e h => (step_toSetupTables e).trans h) rfl

/-- What is said when a session is opened. -/
def Room.openingTrace (room : Room) : Trace :=
  [.io (.toMW (.connect ⟨[]⟩)), .io (.toAP (.roomInfo room.games room.checksums))]

/-- What is said when a session is opened, or cannot be. -/
inductive Config.Opening (cfg : Config) (setup : SetupTables) : Trace → Prop
  | opened {room : Room} (h : cfg.openRoom setup = .ok room) : Opening cfg setup room.openingTrace
  | failed (h : ∀ room, cfg.openRoom setup ≠ .ok room) : Opening cfg setup cfg.failedOpening

/-- An opening writes nothing. -/
theorem Config.Opening.replay {cfg : Config} {setup : SetupTables} {t : Trace}
    (h : cfg.Opening setup t) (db : Savefile) : Process.replay db t = db := by
  have hcommits : commits t = [] := by
    cases h with
    | opened => rfl
    | failed => exact cfg.commits_failedOpening
  rw [replay_eq_perform, hcommits]
  rfl

/-- It says who opens it, and what the room is. -/
theorem Config.Opening.mem {cfg : Config} {setup : SetupTables} {t : Trace}
    (h : cfg.Opening setup t) {e : Effect Commit Io} (he : e ∈ t) :
    e = .io (.toMW (.connect ⟨[]⟩)) ∨ ∃ games sums, e = .io (.toAP (.roomInfo games sums)) := by
  cases h with
  | opened =>
    simp only [Room.openingTrace, List.mem_cons, List.not_mem_nil, or_false] at he
    exact he.imp_right fun h => ⟨_, _, h⟩
  | failed => exact .inl (cfg.mem_failedOpening he)

/-- What the opening of a session and every part of a step keep of the savefile and the
history holds after every run. -/
theorem play_keep {cfg : Config} {db₀ : Savefile} {I : Savefile → Trace → Prop}
    (hopening : ∀ db t h, cfg.Opening db₀.toSetupTables t → I db h → I db (h ++ t))
    (hI : ∀ db sess env m t h, cfg.openRoom db₀.toSetupTables = .ok sess.toRoom →
      db.toSetupTables = db₀.toSetupTables → t <+: ((handle cfg env sess m).run db).trace →
        I db h → I (replay db t) (h ++ t)) (h0 : I db₀ []) (es : List Event) :
    I (play cfg db₀ es).db (play cfg db₀ es).history := by
  have hstep : ∀ s e, (s.Opened cfg ∧ s.db.toSetupTables = db₀.toSetupTables ∧ I s.db s.history) →
      ((step cfg s e).Opened cfg ∧ (step cfg s e).db.toSetupTables = db₀.toSetupTables ∧
        I (step cfg s e).db (step cfg s e).history) := by
    rintro s e ⟨ho, hsetup, h⟩
    refine ⟨opened_step ho e, (step_toSetupTables e).trans hsetup, ?_⟩
    cases e with
    | connect =>
      simp only [step]
      split
      · next e he =>
        refine hopening _ _ _ (.failed fun room hroom => ?_) h
        cases he.symm.trans (hsetup ▸ hroom)
      · next room hroom => exact hopening _ _ _ (.opened (hsetup ▸ hroom)) h
    | disconnect => exact h
    | handle env m =>
      cases hs : s.session with
      | none =>
        simp only [step, hs]
        exact h
      | some sess =>
        simp only [step, hs]
        exact hI _ sess env m _ _ (hsetup ▸ ho sess hs) hsetup List.prefix_rfl h
    | kill env m w n =>
      cases hs : s.session with
      | none =>
        simp only [step, hs]
        exact h
      | some sess =>
        simp only [step, hs]
        exact hI _ sess env m _ _ (hsetup ▸ ho sess hs) hsetup (isPrefix_cut w n _) h
  exact (@Runs.run_keep _ _ _ _ es _ hstep ⟨opened_boot cfg db₀, rfl, h0⟩).2.2

/-- The savefile after a run is what the writes of its history leave. -/
theorem play_replay (cfg : Config) (db : Savefile) (es : List Event) :
    (play cfg db es).db = replay db (play cfg db es).history := by
  refine play_keep (I := fun db' h => db' = replay db h) ?_ ?_ rfl es
  · intro db' t h ht hdb
    rw [replay_append, ← hdb, ht.replay]
  · intro db' sess env m t h _ _ _ hdb
    rw [replay_append, ← hdb]

/-! ## Restarts -/

section Restarts

variable {cfg : Config} {s : System}

/-- What was said before has no influence. -/
theorem step_after (h : Trace) (e : Event) :
    step cfg { s with history := h ++ s.history } e =
      { step cfg s e with history := h ++ (step cfg s e).history } := by
  cases e with
  | connect =>
    simp only [step]
    split
    · rw [List.append_assoc]
    · rw [List.append_assoc]
  | disconnect => rfl
  | handle env m | kill env m w n =>
    cases hs : s.session with
    | none => simp only [step, hs]
    | some sess => simp only [step, hs, List.append_assoc]

theorem run_after (h : Trace) (es : List Event) :
    Runs.run (step cfg) { s with history := h ++ s.history } es =
      { Runs.run (step cfg) s es with history := h ++ (Runs.run (step cfg) s es).history } := by
  induction es generalizing s with
  | nil => rfl
  | cons e es ih => rw [Runs.run_cons, step_after, ih, Runs.run_cons]

/-- Starting the program again continues the run. -/
theorem play_restart (db : Savefile) (es es' : List Event) :
    play cfg db (es ++ .disconnect :: es') =
      { play cfg (play cfg db es).db es' with
        history := (play cfg db es).history ++ (play cfg (play cfg db es).db es').history } := by
  have hreboot : step cfg (play cfg db es) .disconnect =
      { boot (play cfg db es).db with history := (play cfg db es).history ++ [] } := by
    rw [List.append_nil]
    rfl
  rw [play, Runs.run_append, Runs.run_cons]
  exact (congrArg (Runs.run (step cfg) · es') hreboot).trans (run_after _ es')

end Restarts

end Isthmus
