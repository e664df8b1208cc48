import Isthmus.Run
import Isthmus.Setup
import Isthmus.SetupMW
import Mathlib.Data.List.Induction

/-!
# The life of a savefile

The program is started again and again on one path. `serve` sets up a multiworld if there is
no file at the path, and plays on the file if there is one, whatever it holds. So a setup
that stops after SQLite has created the file decides over all later starts.

## Main definitions

- `Program.start`: `serve`, with the setup, the creation of the savefile and the sessions
- `Program.life`: any number of starts

## Main results

- `life_is_a_run`: all sessions since the setup are one run, if the savefile was created
-/

namespace Isthmus

open Process Mwproto Approto Pipes Talks Calls

/-! ## An unfinished setup -/

section Unfinished

variable {env : Env} {result : ResultMessage} {precollectedItems : List Int}
  {outcomes : List CallOutcome} {c c' : Conn Draft TableName}

theorem pends_fillTables : (SetupCalls.fillTables env result precollectedItems).Pends :=
  (pends_fill _).bind fun _ => (pends_fill _).bind fun _ => (pends_fill _).bind fun _ =>
    (pends_fill _).bind fun _ => pends_prepare.bind fun _ => pends_execEach _

/-- What is committed has no rows. -/
def Unfilled (c : Conn Draft TableName) : Prop := c.committed.toSavefile = emptySavefile

theorem unfilled_of_createTables_error {ts : List TableName} {f : Failure Stop}
    (ht : c.transaction = none) (hc : Unfilled c)
    (h : (SetupCalls.createTables ts).run c = (.error f, c')) : Unfilled c' := by
  induction ts generalizing c with
  | nil => cases h
  | cons t ts ih =>
    rcases bind_eq_error.mp h with hcreate | ⟨_, c₁, hcreate, hrest⟩
    · rw [Unfilled, committed_of_direct_error hcreate]
      exact hc
    · obtain ⟨-, d, hd, rfl⟩ := (direct_eq_ok ht).mp hcreate
      cases hd
      have hcreated : Unfilled (c.called.settled { c.committed with
        tables := c.committed.tables ++ [t] }) := hc
      exact ih rfl hcreated hrest

theorem unfilled_of_execSchema_error {f : Failure Stop}
    (h : SetupCalls.execSchema.run (Draft.conn outcomes) = (.error f, c')) : Unfilled c' := by
  have hblank : Unfilled (Draft.conn outcomes) := rfl
  rcases bind_eq_error.mp h with hpragma | ⟨_, c₁, hpragma, hrest⟩
  · rw [Unfilled, committed_of_direct_error hpragma]
    exact hblank
  obtain ⟨-, d, hd, rfl⟩ := (direct_eq_ok rfl).mp hpragma
  cases hd
  rcases bind_eq_error.mp hrest with hcreate | ⟨_, c₂, hcreate, hbegin⟩
  · exact unfilled_of_createTables_error (c := (Draft.conn outcomes).called.settled _) rfl
      hblank hcreate
  · obtain ⟨-, rfl⟩ := (createTables_eq_ok rfl rfl).mp hcreate
    rw [Unfilled, committed_of_begin_error hbegin]
    exact hblank

/-- Until the last `COMMIT` only the tables are committed. -/
theorem unfilled_of_error {f : Failure Stop}
    (h : (SetupCalls.createSavefile env result precollectedItems).run (Draft.conn outcomes) =
      (.error f, c')) : Unfilled c' := by
  rcases bind_eq_error.mp h with hschema | ⟨_, c₁, hschema, hrest⟩
  · exact unfilled_of_execSchema_error hschema
  obtain ⟨-, rfl⟩ := execSchema_eq_ok.mp hschema
  have hpends : (SetupCalls.fillTables env result precollectedItems).Pends := pends_fillTables
  generalize hc₁ : (((Draft.conn outcomes).skip 11).settled ⟨emptySavefile, savefileSchema⟩).working
    ⟨emptySavefile, savefileSchema⟩ = c₁ at hrest
  have hblank : Unfilled c₁ := hc₁ ▸ rfl
  obtain ⟨hkept, -⟩ := hpends c₁ (hc₁ ▸ rfl)
  rcases bind_eq_error.mp hrest with hrows | ⟨_, c₂, hrows, hcommit⟩
  · rw [hrows] at hkept
    rw [Unfilled, hkept]
    exact hblank
  · rw [hrows] at hkept
    rw [Unfilled, committed_of_commit_error hcommit, hkept]
    exact hblank

theorem createSavefileAt_ok {opening : Opening}
    (h : (createSavefileAt env result precollectedItems opening outcomes).result = .ok ()) :
    ∃ db, createSavefile env result precollectedItems = .ok db ∧
      (createSavefileAt env result precollectedItems opening outcomes).file =
        some ⟨db, savefileSchema⟩ := by
  cases opening with
  | failed created => cases h
  | opened =>
    simp only [createSavefileAt] at h ⊢
    split at h
    · obtain ⟨-, db, hdb, hc⟩ := createSavefile_eq_ok.mp (Prod.ext h rfl)
      exact ⟨db, hdb, congrArg (fun c => some c.committed) hc⟩
    · cases h

/-- A setup that fails leaves no file, or one without rows. -/
theorem createSavefileAt_error {opening : Opening} {f : Failure Stop}
    (h : (createSavefileAt env result precollectedItems opening outcomes).result = .error f) :
    (createSavefileAt env result precollectedItems opening outcomes).file = none ∨
      ∃ tables, (createSavefileAt env result precollectedItems opening outcomes).file =
        some ⟨emptySavefile, tables⟩ := by
  cases opening with
  | failed created =>
    cases created with
    | true => exact .inr ⟨[], rfl⟩
    | false => exact .inl rfl
  | opened =>
    right
    simp only [createSavefileAt] at h ⊢
    rcases hrun : (SetupCalls.createSavefile env result precollectedItems).run
      (Draft.conn outcomes) with ⟨f' | _, c'⟩
    · have hc : Unfilled c' := unfilled_of_error hrun
      refine ⟨c'.committed.tables, ?_⟩
      rw [← show c'.committed.toSavefile = emptySavefile from hc]
    · obtain ⟨-, db, -, rfl⟩ := createSavefile_eq_ok.mp hrun
      rw [hrun] at h
      cases h

end Unfinished

/-! ## Starting the program -/

/-- The seed with what `serve` reads besides. -/
structure Seed extends Archipelago where
  connectNames : GoMap GoString (List Int)
  version : List Int
  precollectedItems : GoMap Int (List Int)

def versionNumberSize : Nat := 3

/-- `serve` refuses a seed of several worlds. -/
def Seed.accepted (seed : Seed) : Bool :=
  seed.connectNames.entries.length == 1 && seed.version.length == versionNumberSize

/-- `data.PrecollectedItems[slotID]`. -/
def Seed.precollected (seed : Seed) : List Int :=
  match singularKey seed.slotInfo with
  | .error _ => []
  | .ok slotID => seed.precollectedItems.index slotID []

/-- What one start of the program meets: the goroutines of the setup and the MW server, the
database calls of `createSavefile`, and the sessions. -/
structure Start where
  moves : List SetupMW.Move
  env : Env
  opening : Opening
  outcomes : List CallOutcome
  events : List Event

/-- The file at the path of the savefile, and what was done and said in sessions. -/
structure Program where
  file : Option Draft
  history : Trace

/-- The tables that `openSavefile` prepares statements for. -/
def openedTables : List TableName :=
  [.locationsCleared, .sentItems, .unconfirmedSentItems, .receivedItems, .dataStorage,
    .ownItemPlacements, .ownWorldPlacements]

namespace Program

variable (cfg : Config) (mwroom : GoString) (seed : Seed)

/-- A statement for a table that is missing panics. -/
def playMW (s : Program) (es : List Event) : Program :=
  match s.file with
  | none => s
  | some d =>
    if openedTables.all fun t => d.tables.contains t then
      let played := play { cfg with data := seed.toApdata } d.toSavefile es
      ⟨some { d with toSavefile := played.db }, s.history ++ played.history⟩
    else s

/-- The result of the conversation, if it comes to one. -/
def setupResult (ms : List SetupMW.Move) : Option ResultMessage :=
  match setupMW mwroom seed.toArchipelago with
  | .error _ => none
  | .ok t =>
    match (last SetupMW.move (SetupMW.start t) ms).talk with
    | .stop (.ok mwResult) => some mwResult
    | _ => none

/-- `createSavefile` at the path. -/
def created (mwResult : ResultMessage) (p : Start) : SetupResult :=
  createSavefileAt p.env mwResult seed.precollected p.opening p.outcomes

/-- One start of the program. -/
def start (s : Program) (p : Start) : Program :=
  if seed.accepted then
    match serve s.file with
    | .playMW => s.playMW cfg seed p.events
    | .setupMW =>
      match setupResult mwroom seed p.moves with
      | none => s
      | some mwResult =>
        let setup := created seed mwResult p
        match setup.result with
        | .error _ => { s with file := setup.file }
        | .ok () => playMW cfg seed { s with file := setup.file } p.events
  else s

/-- Any number of starts, at a path where there is no file. -/
def life (ps : List Start) : Program := Runs.run (start cfg mwroom seed) ⟨none, []⟩ ps

/-- What was done in the sessions of a start and of those after it. -/
def sessions (p : Start) (later : List Start) : List Event :=
  p.events ++ later.flatMap fun q => .disconnect :: q.events

/-- What any number of starts leave: no file; a file without rows, from a setup that left
it unfinished, where the MW server is greeted but no session is ever opened; or the
savefile of one run since it was created, whose events are those of the starts since then,
with a loss of all connections between two of them. -/
inductive Lived : List Start → Program → Prop
  | fresh {ps} : Lived ps ⟨none, []⟩
  | unfinished {before p later mwResult tables greetings}
      (hresult : setupResult mwroom seed p.moves = some mwResult)
      (hfailed : ¬ (created seed mwResult p).Atomic p.env mwResult seed.precollected)
      (hgreetings : ∀ e ∈ greetings, e = .io (.toMW (.connect ⟨[]⟩))) :
      Lived (before ++ p :: later) ⟨some ⟨emptySavefile, tables⟩, greetings⟩
  | created {before p later mwResult db} (haccepted : seed.accepted = true)
      (hresult : setupResult mwroom seed p.moves = some mwResult)
      (hdb : createSavefile p.env mwResult seed.precollected = .ok db) :
      Lived (before ++ p :: later)
        ⟨some ⟨(play { cfg with data := seed.toApdata } db (sessions p later)).db,
          savefileSchema⟩,
          (play { cfg with data := seed.toApdata } db (sessions p later)).history⟩

section Lives

variable {cfg : Config} {mwroom : GoString} {seed : Seed} {ps : List Start} {s : Program}

theorem sessions_append (p : Start) (later : List Start) (q : Start) :
    sessions p (later ++ [q]) = sessions p later ++ .disconnect :: q.events := by
  simp only [sessions, List.flatMap_append, List.flatMap_singleton, List.append_assoc]

/-- Without the row of the player no room is opened. -/
theorem openRoom_empty (cfg : Config) (room : Room) :
    cfg.openRoom emptySavefile.toSetupTables ≠ .ok room := by
  intro h
  obtain ⟨⟨randoID, hparams⟩, -⟩ := Config.openRoom_ok h
  cases hparams

theorem play_empty (cfg : Config) (es : List Event) :
    (play cfg emptySavefile es).db = emptySavefile ∧
      ∀ e ∈ (play cfg emptySavefile es).history, e = .io (.toMW (.connect ⟨[]⟩)) := by
  refine play_keep (I := fun db h => db = emptySavefile ∧ ∀ e ∈ h, e = .io (.toMW (.connect ⟨[]⟩)))
    ?_ ?_ ⟨rfl, nofun⟩ es
  · rintro db t h ht ⟨hdb, hh⟩
    refine ⟨hdb, fun e he => (List.mem_append.mp he).elim (hh e) fun he => ?_⟩
    cases ht with
    | @opened room hroom => exact absurd hroom (openRoom_empty cfg room)
    | failed => exact cfg.mem_failedOpening he
  · exact fun _ sess _ _ _ _ hroom => absurd hroom (openRoom_empty cfg sess.toRoom)

/-- A new setup. -/
theorem lived_of_setup {p : Start} {mwResult : ResultMessage} (haccepted : seed.accepted = true)
    (hresult : setupResult mwroom seed p.moves = some mwResult) :
    Lived cfg mwroom seed (ps ++ [p]) (match (created seed mwResult p).result with
      | .error _ => ⟨(created seed mwResult p).file, []⟩
      | .ok () => playMW cfg seed ⟨(created seed mwResult p).file, []⟩ p.events) := by
  cases hr : (created seed mwResult p).result with
  | error f =>
    obtain hfile | ⟨tables, hfile⟩ := createSavefileAt_error hr
    · simp only [created, hfile]
      exact .fresh
    · have hfailed : ¬ (created seed mwResult p).Atomic p.env mwResult seed.precollected := by
        rintro (⟨hok, -⟩ | ⟨-, hserve⟩)
        · cases hr.symm.trans hok
        · rw [created, hfile] at hserve
          cases hserve
      simp only [created, hfile]
      exact .unfinished hresult hfailed nofun
  | ok _ =>
    obtain ⟨db, hdb, hfile⟩ := createSavefileAt_ok hr
    have hlived : Lived cfg mwroom seed (ps ++ p :: []) _ := .created haccepted hresult hdb
    rw [sessions, List.flatMap_nil, List.append_nil] at hlived
    simp only [created, hfile, playMW]
    exact hlived

theorem lived_start (h : Lived cfg mwroom seed ps s) (q : Start) :
    Lived cfg mwroom seed (ps ++ [q]) (start cfg mwroom seed s q) := by
  cases h with
  | fresh =>
    rw [start]
    split
    next haccepted =>
      cases hresult : setupResult mwroom seed q.moves with
      | none => simpa only [serve, hresult] using Lived.fresh
      | some mwResult => simpa only [serve, hresult] using lived_of_setup haccepted hresult
    next => exact .fresh
  | @unfinished before p later mwResult tables greetings hresult hfailed hgreetings =>
    have hstay {t : Trace} (ht : ∀ e ∈ t, e = .io (.toMW (.connect ⟨[]⟩))) :
        Lived cfg mwroom seed (before ++ p :: later ++ [q])
          ⟨some ⟨emptySavefile, tables⟩, greetings ++ t⟩ := by
      rw [List.append_assoc]
      exact .unfinished hresult hfailed fun e he =>
        (List.mem_append.mp he).elim (hgreetings e) (ht e)
    have hsame := List.append_nil greetings ▸ hstay (List.forall_mem_nil _)
    rw [start]
    split
    · simp only [serve, playMW]
      split
      · obtain ⟨hdb, hhistory⟩ := play_empty { cfg with data := seed.toApdata } q.events
        simpa only [hdb] using hstay hhistory
      · exact hsame
    · exact hsame
  | @created before p later mwResult db haccepted hresult hdb =>
    -- the end of the last start, by a kill or not, is a disconnect of the one run
    have hmore : Lived cfg mwroom seed (before ++ p :: (later ++ [q])) _ :=
      .created haccepted hresult hdb
    rw [sessions_append, play_restart] at hmore
    rw [start, if_pos haccepted, List.append_assoc]
    exact hmore

/-- Whatever happens in the setups, the calls to the database and the sessions of any number
of starts, kills included: all that was done and said in sessions since the savefile was
created is one run from it, and nothing was before. Only where a setup left its file
unfinished there is never more than the greeting of the MW server. -/
theorem life_is_a_run (cfg : Config) (mwroom : GoString) (seed : Seed) (ps : List Start) :
    Lived cfg mwroom seed ps (life cfg mwroom seed ps) := by
  induction ps using List.reverseRecOn with
  | nil => exact .fresh
  | append_singleton ps p ih =>
    rw [life, Runs.run_append]
    exact lived_start ih p

end Lives

end Program

end Isthmus
