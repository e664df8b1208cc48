import Isthmus.Lib.Connection
import Isthmus.Savable

/-!
# Setting up the savefile

`createSavefile` as the calls that it makes. SQLite creates the file when it is
opened, and commits each statement of the schema at once; the rows are in one
transaction. `serve` takes a file that exists for a savefile that is complete.

## Main definitions

- `SetupCalls.createSavefile`: the calls on the open database
- `createSavefileAt`: opening the database, the calls, and the deferred close
- `SetupResult.Atomic`: what is to be left at the path of the savefile
-/

namespace Isthmus

open Mwproto Approto Calls

/-- The tables of the schema. -/
inductive TableName where
  | locationsCleared
  | unconfirmedSentItems
  | receivedItems
  | sentItems
  | dataStorage
  | players
  | globalData
  | ownWorldPlacements
  | ownItemPlacements
  deriving DecidableEq

/-- The contents of a database file: the tables that exist, and their rows. -/
structure Draft extends Savefile where
  tables : List TableName

/-- The contents of a new file. -/
def Draft.blank : Draft := ⟨emptySavefile, []⟩

/-- A program over the connection of the setup. Each table that is filled has one
statement. -/
abbrev SetupCalls (α : Type) := Calls Draft TableName Stop α

/-- The `CREATE TABLE` statements of the schema, in order. -/
def savefileSchema : List TableName :=
  [.locationsCleared, .unconfirmedSentItems, .receivedItems, .sentItems, .dataStorage, .players,
    .globalData, .ownWorldPlacements, .ownItemPlacements]

namespace Draft

/-- The file is new, so the name of the table is free. -/
def createTable (t : TableName) (d : Draft) : Except Stop Draft :=
  .ok { d with tables := d.tables ++ [t] }

def insertPlayer (env : Env) (logs : GoMap GoString GoString) (p : GoString × Nat) (d : Draft) :
    Except Stop Draft :=
  Table.insertInto (.sql .unique) (fun t => { d with players := t }) d.players (playerRow env logs p)

def insertGlobal (env : Env) (result : ResultMessage) (d : Draft) : Except Stop Draft :=
  match globalRow env d.players result with
  | .error e => .error e
  | .ok row => .ok { d with globalData := d.globalData ++ [row] }

def insertOwnWorld (env : Env) (locID pid : Int) (item : GoString) (d : Draft) :
    Except Stop Draft :=
  Table.insertInto (.sql .unique) (fun t => { d with ownWorldPlacements := t }) d.ownWorldPlacements <|
    match env.bindString item with
    | none => .error (.sql .notNull)
    | some item =>
      if references d.players pid then .ok ⟨locID, pid, item⟩ else .error (.sql .foreignKey)

def insertOwnItem (env : Env) (item : GoString) (pid : Int) (locName : GoString) (d : Draft) :
    Except Stop Draft :=
  Table.insertInto (.sql .unique) (fun t => { d with ownItemPlacements := t }) d.ownItemPlacements <|
    match env.bindString item, env.bindString locName with
    | some item, some locName =>
      if references d.players pid then .ok ⟨item, pid, locName⟩ else .error (.sql .foreignKey)
    | _, _ => .error (.sql .notNull)

def insertPrecollected (item : Int) (d : Draft) : Except Stop Draft :=
  .ok { d with sentItems := d.sentItems ++ [precollectedRow item] }

end Draft

namespace SetupCalls

def createTables : List TableName → SetupCalls Unit
  | [] => pure ()
  | t :: ts => do
    direct (Draft.createTable t)
    createTables ts

/-- `db.Exec(savefileSchema)`: the pragma, the tables, and `BEGIN`. -/
def execSchema : SetupCalls Unit := do
  direct .ok
  createTables savefileSchema
  begin

/-- The names of a placement are taken apart before its row is bound. -/
def ownWorldPlacement (env : Env) (p : ResultPlacement) :
    Except Stop (Draft → Except Stop Draft) :=
  match parseDiscriminator p.location with
  | none => .error .malformed
  | some locID =>
    match parseQualifiedName p.item with
    | none => .error .malformed
    | some (pid, item) => .ok (Draft.insertOwnWorld env locID pid item)

def ownItemPlacement (env : Env) (p : (_ : GoString) × GoString) :
    Except Stop (Draft → Except Stop Draft) :=
  match parseQualifiedName p.2 with
  | none => .error .malformed
  | some (pid, locName) => .ok (Draft.insertOwnItem env p.1 pid locName)

/-- The statement for the sent items is not finalized before `db.Close`. -/
def fillTables (env : Env) (result : ResultMessage) (precollectedItems : List Int) :
    SetupCalls Unit := do
  fill .players
    (fun p => .ok (Draft.insertPlayer env result.itemsSpoiler.individualWorldSpoilers p))
    result.nicknames.zipIdx
  fill .globalData (fun result => .ok (Draft.insertGlobal env result)) [result]
  fill .ownWorldPlacements (ownWorldPlacement env) (result.placements.index singularItemGroup [])
  fill .ownItemPlacements (ownItemPlacement env) result.playerItemsPlacements.entries
  prepare
  execEach .sentItems (fun item => .ok (Draft.insertPrecollected item)) precollectedItems

def createSavefile (env : Env) (result : ResultMessage) (precollectedItems : List Int) :
    SetupCalls Unit := do
  execSchema
  fillTables env result precollectedItems
  commit

end SetupCalls

/-- How `sqlite3_open` ends. -/
inductive Opening where
  | opened
  | failed (created : Bool)
  deriving DecidableEq

/-- How `createSavefile` ended, and the file at the path of the savefile. -/
structure SetupResult where
  result : Except (Failure Stop) Unit
  file : Option Draft

/-- The connection to a new file. -/
def Draft.conn (outcomes : List CallOutcome) : Conn Draft TableName :=
  ⟨.blank, none, [], outcomes⟩

/-- `createSavefile` at a path without a file. The deferred `db.Close` panics if a
statement was left, and what is not committed is lost. -/
def createSavefileAt (env : Env) (result : ResultMessage) (precollectedItems : List Int)
    (opening : Opening) (outcomes : List CallOutcome) : SetupResult :=
  match opening with
  | .failed created => ⟨.error .failed, if created then some .blank else none⟩
  | .opened =>
    let run := (SetupCalls.createSavefile env result precollectedItems).run (Draft.conn outcomes)
    ⟨if run.2.closes then run.1 else .error .panicked, some run.2.committed⟩

inductive ServeMode where
  | setupMW
  | playMW
  deriving DecidableEq

/-- Which of its two parts `serve` runs, after `os.Stat`. -/
def serve (file : Option Draft) : ServeMode :=
  match file with
  | some _ => .playMW
  | none => .setupMW

/-- The whole result is saved; or there is an error that is no panic, and the next
run of `serve` sets up the multiworld again. -/
def SetupResult.Atomic (r : SetupResult) (env : Env) (result : ResultMessage)
    (precollectedItems : List Int) : Prop :=
  (r.result = .ok () ∧ ∃ db, createSavefile env result precollectedItems = .ok db ∧
    r.file = some ⟨db, savefileSchema⟩) ∨
  ((∃ e, r.result = .error e ∧ e ≠ .panicked) ∧ serve r.file = .setupMW)

/-! ## The rows -/

section Rows

variable {env : Env} {d : Draft}

theorem fold_players {logs : GoMap GoString GoString} (ps : List (GoString × Nat)) :
    ps.foldlM (writeRow fun p => .ok (Draft.insertPlayer env logs p)) d =
      (d.players.insertEach (playerRow env logs) (.sql .unique) ps).map
        fun t => { d with players := t } := by
  refine Table.foldlM_insertInto (fun t => { d with players := t }) ?_ _ ps
  intro t p
  rfl

theorem fold_ownWorldPlacements (ps : List ResultPlacement) :
    ps.foldlM (writeRow (SetupCalls.ownWorldPlacement env)) d =
      (d.ownWorldPlacements.insertEach (ownWorldRow env d.players) (.sql .unique) ps).map
        fun t => { d with ownWorldPlacements := t } := by
  refine Table.foldlM_insertInto (fun t => { d with ownWorldPlacements := t }) ?_ _ ps
  intro t p
  simp only [writeRow, SetupCalls.ownWorldPlacement, ownWorldRow]
  cases parseDiscriminator p.location with
  | none => rfl
  | some locID =>
    cases parseQualifiedName p.item with
    | none => rfl
    | some name => rfl

theorem fold_ownItemPlacements (ps : List ((_ : GoString) × GoString)) :
    ps.foldlM (writeRow (SetupCalls.ownItemPlacement env)) d =
      (d.ownItemPlacements.insertEach (ownItemRow env d.players) (.sql .unique) ps).map
        fun t => { d with ownItemPlacements := t } := by
  refine Table.foldlM_insertInto (fun t => { d with ownItemPlacements := t }) ?_ _ ps
  intro t p
  simp only [writeRow, SetupCalls.ownItemPlacement, ownItemRow]
  cases parseQualifiedName p.2 with
  | none => rfl
  | some name => rfl

theorem fold_globalData (result : ResultMessage) :
    [result].foldlM (writeRow fun result => .ok (Draft.insertGlobal env result)) d =
      (globalRow env d.players result).map
        fun row => { d with globalData := d.globalData ++ [row] } := by
  rw [List.foldlM_cons]
  simp only [writeRow, Draft.insertGlobal]
  cases globalRow env d.players result <;> rfl

theorem fold_precollected (items : List Int) :
    items.foldlM (writeRow fun item => .ok (Draft.insertPrecollected item)) d =
      .ok { d with sentItems := d.sentItems ++ items.map precollectedRow } := by
  induction items generalizing d with
  | nil => simp [pure, Except.pure]
  | cons item items ih =>
    rw [List.foldlM_cons, List.map_cons, List.append_cons]
    exact ih (d := { d with sentItems := d.sentItems ++ [precollectedRow item] })

end Rows

section Runs

variable {env : Env} {result : ResultMessage} {precollectedItems : List Int}
  {outcomes : List CallOutcome}

/-- What the rows of all tables do to the contents of the file. -/
def Draft.fillTables (env : Env) (result : ResultMessage) (precollectedItems : List Int)
    (d : Draft) : Except Stop Draft := do
  let d ← result.nicknames.zipIdx.foldlM (writeRow fun p =>
    .ok (insertPlayer env result.itemsSpoiler.individualWorldSpoilers p)) d
  let d ← [result].foldlM (writeRow fun result => .ok (insertGlobal env result)) d
  let d ← (result.placements.index singularItemGroup []).foldlM
    (writeRow (SetupCalls.ownWorldPlacement env)) d
  let d ← result.playerItemsPlacements.entries.foldlM
    (writeRow (SetupCalls.ownItemPlacement env)) d
  precollectedItems.foldlM (writeRow fun item => .ok (insertPrecollected item)) d

/-- From empty tables the rows give the savefile of the result. -/
theorem fillTables_blank (tables : List TableName) :
    Draft.fillTables env result precollectedItems ⟨emptySavefile, tables⟩ =
      (createSavefile env result precollectedItems).map fun db => ⟨db, tables⟩ := by
  simp only [Draft.fillTables, createSavefile, fold_players, emptySavefile]
  cases (Table.empty PlayerRow.playerID).insertEach
    (playerRow env result.itemsSpoiler.individualWorldSpoilers) (.sql .unique)
    result.nicknames.zipIdx with
  | error e => rfl
  | ok players =>
    simp only [Except.map, Except.bind, bind, fold_globalData]
    cases globalRow env players result with
    | error e => rfl
    | ok row =>
      simp only [Except.map, fold_ownWorldPlacements]
      cases (Table.empty OwnWorldRow.apLocationID).insertEach (ownWorldRow env players)
        (.sql .unique) (result.placements.index singularItemGroup []) with
      | error e => rfl
      | ok world =>
        simp only [Except.map, fold_ownItemPlacements]
        cases (Table.empty OwnItemRow.itemName).insertEach (ownItemRow env players)
          (.sql .unique) result.playerItemsPlacements.entries with
        | error e => rfl
        | ok items => simp only [fold_precollected, pure, Except.pure, List.nil_append]

/-- The number of calls on the database. -/
def callCount (result : ResultMessage) (precollectedItems : List Int) : Nat :=
  18 + result.nicknames.length + result.placed.length +
    result.playerItemsPlacements.entries.length + precollectedItems.length

theorem createTables_eq_ok {c c' : Conn Draft TableName} {d : Draft} {ts : List TableName}
    (ht : c.transaction = none) (hd : c.committed = d) :
    (SetupCalls.createTables ts).run c = (.ok (), c') ↔ c.DoneFor ts.length ∧
      c' = (c.skip ts.length).settled { d with tables := d.tables ++ ts } := by
  induction ts generalizing c d with
  | nil =>
    have hsame : (c.skip 0).settled { d with tables := d.tables ++ [] } = c := by
      rw [List.append_nil, Conn.settled, ← ht, ← hd]
      rfl
    rw [SetupCalls.createTables, List.length_nil, hsame, run_pure]
    simp [Conn.doneFor_zero, eq_comm]
  | cons t ts ih =>
    have hrest := ih (c := c.called.settled { d with tables := d.tables ++ [t] }) rfl rfl
    have happend : d.tables ++ t :: ts = d.tables ++ [t] ++ ts := List.append_cons _ _ _
    rw [SetupCalls.createTables, List.length_cons, Conn.doneFor_succ, bind_eq_ok,
      ← Conn.skip_called, happend]
    constructor
    · rintro ⟨_, c₁, hfirst, hsecond⟩
      obtain ⟨ho, _, hcreate, rfl⟩ := (direct_eq_ok ht).mp hfirst
      cases hcreate
      rw [hd] at hsecond
      obtain ⟨hdone, rfl⟩ := hrest.mp hsecond
      exact ⟨⟨ho, hdone⟩, rfl⟩
    · rintro ⟨⟨ho, hdone⟩, rfl⟩
      exact ⟨(), _, (direct_eq_ok ht).mpr ⟨ho, _, by rw [hd]; rfl, rfl⟩, hrest.mpr ⟨hdone, rfl⟩⟩

/-- After the schema a transaction is open on tables without rows. -/
theorem execSchema_eq_ok {c' : Conn Draft TableName} :
    SetupCalls.execSchema.run (Draft.conn outcomes) = (.ok (), c') ↔
      (Draft.conn outcomes).DoneFor 11 ∧ c' =
        (((Draft.conn outcomes).skip 11).settled ⟨emptySavefile, savefileSchema⟩).working
          ⟨emptySavefile, savefileSchema⟩ := by
  generalize hc : Draft.conn outcomes = c
  have ht : c.transaction = none := hc ▸ rfl
  have hblank : c.committed = .blank := hc ▸ rfl
  have htables (c' : Conn Draft TableName) :
      (SetupCalls.createTables savefileSchema).run (c.called.settled .blank) = (.ok (), c') ↔
        c.called.DoneFor savefileSchema.length ∧ c' =
          (c.called.skip savefileSchema.length).settled ⟨emptySavefile, savefileSchema⟩ :=
    createTables_eq_ok rfl rfl
  have hsplit : c.DoneFor 11 ↔ c.outcome = .done ∧ c.called.DoneFor savefileSchema.length ∧
      (c.called.skip savefileSchema.length).outcome = .done := by
    rw [Conn.doneFor_succ, show 10 = savefileSchema.length + 1 from rfl, Conn.doneFor_add,
      Conn.doneFor_one]
  have hskip : c.skip 11 = (c.called.skip savefileSchema.length).called := by
    rw [Conn.skip_called, Conn.called_skip]
    rfl
  rw [SetupCalls.execSchema, bind_eq_ok, hsplit, hskip]
  constructor
  · rintro ⟨_, c₁, hpragma, hrest⟩
    obtain ⟨ho, _, hsame, rfl⟩ := (direct_eq_ok ht).mp hpragma
    cases hsame
    rw [hblank] at hrest
    obtain ⟨_, c₂, hcreate, hbegin⟩ := bind_eq_ok.mp hrest
    obtain ⟨hdone, rfl⟩ := (htables c₂).mp hcreate
    obtain ⟨hlast, rfl⟩ := (begin_eq_ok rfl).mp hbegin
    exact ⟨⟨ho, hdone, hlast⟩, rfl⟩
  · rintro ⟨⟨ho, hdone, hlast⟩, rfl⟩
    refine ⟨(), c.called.settled .blank, (direct_eq_ok ht).mpr ⟨ho, _, rfl, by rw [hblank]⟩,
      bind_eq_ok.mpr ?_⟩
    exact ⟨(), _, (htables _).mpr ⟨hdone, rfl⟩, (begin_eq_ok rfl).mpr ⟨hlast, rfl⟩⟩

theorem does_fillTables (env : Env) (result : ResultMessage) (precollectedItems : List Int) :
    (SetupCalls.fillTables env result precollectedItems).Does
      (callCount result precollectedItems - 12)
      (Draft.fillTables env result precollectedItems) := by
  have hcount : callCount result precollectedItems - 12 = 1 + result.nicknames.zipIdx.length +
      (1 + [result].length + (1 + result.placed.length +
        (1 + result.playerItemsPlacements.entries.length + (1 + precollectedItems.length)))) := by
    rw [callCount, List.length_zipIdx, List.length_singleton]
    omega
  rw [hcount]
  exact does_fill.bind (does_fill.bind (does_fill.bind (does_fill.bind does_prepared)))

/-- The calls are through if and only if all of them are done and the result can
be saved. Then the whole result is committed. -/
theorem createSavefile_eq_ok {c' : Conn Draft TableName} :
    (SetupCalls.createSavefile env result precollectedItems).run (Draft.conn outcomes) =
        (.ok (), c') ↔
      (Draft.conn outcomes).DoneFor (callCount result precollectedItems) ∧
      ∃ db, createSavefile env result precollectedItems = .ok db ∧
        c' = ((Draft.conn outcomes).skip (callCount result precollectedItems)).settled
          ⟨db, savefileSchema⟩ := by
  have hcount : callCount result precollectedItems =
      11 + ((callCount result precollectedItems - 12) + 1) := by
    unfold callCount
    omega
  have hfill (c₂ : Conn Draft TableName) := @does_fillTables env result precollectedItems
    ((((Draft.conn outcomes).skip 11).settled ⟨emptySavefile, savefileSchema⟩).working
      ⟨emptySavefile, savefileSchema⟩) c₂ _ rfl rfl
  rw [fillTables_blank] at hfill
  rw [SetupCalls.createSavefile, bind_eq_ok, hcount, Conn.doneFor_add, Conn.doneFor_add,
    Conn.doneFor_one]
  generalize callCount result precollectedItems - 12 = n at hfill
  have hskip : (Draft.conn outcomes).skip (11 + (n + 1)) =
      (((Draft.conn outcomes).skip 11).skip n).called := by
    rw [Conn.called_skip, Conn.skip_skip]
  rw [hskip]
  constructor
  · rintro ⟨_, c₁, hschema, hrest⟩
    obtain ⟨hdone, rfl⟩ := execSchema_eq_ok.mp hschema
    obtain ⟨_, c₂, hrows, hcommit⟩ := bind_eq_ok.mp hrest
    obtain ⟨hrowsDone, d, hd, rfl⟩ := (hfill c₂).mp hrows
    obtain ⟨hlast, rfl⟩ := commit_eq_ok.mp hcommit
    cases hdb : createSavefile env result precollectedItems with
    | error e =>
      rw [hdb] at hd
      cases hd
    | ok db =>
      rw [hdb] at hd
      cases hd
      exact ⟨⟨hdone, hrowsDone, hlast⟩, db, rfl, rfl⟩
  · rintro ⟨⟨hdone, hrowsDone, hlast⟩, db, hdb, rfl⟩
    rw [hdb] at hfill
    refine ⟨(), _, execSchema_eq_ok.mpr ⟨hdone, rfl⟩, bind_eq_ok.mpr ?_⟩
    exact ⟨(), _, (hfill _).mpr ⟨hrowsDone, _, rfl, rfl⟩, commit_eq_ok.mpr ⟨hlast, rfl⟩⟩

/-- The setup is atomic if and only if SQLite opens no file at all, or it does every
call and the result can be saved: once the file exists, no failure removes it. -/
theorem createSavefileAt_atomic_iff {opening : Opening} :
    (createSavefileAt env result precollectedItems opening outcomes).Atomic env result
        precollectedItems ↔
      opening = .failed false ∨ opening = .opened ∧
        (Draft.conn outcomes).DoneFor (callCount result precollectedItems) ∧
        result.WellFormed ∧ result.Bindable env := by
  cases opening with
  | failed created => cases created <;> simp [createSavefileAt, SetupResult.Atomic, serve]
  | opened =>
    rw [← createSavefile_ok_iff precollectedItems]
    have hfile : serve (createSavefileAt env result precollectedItems .opened outcomes).file ≠
        .setupMW := by
      simp [createSavefileAt, serve]
    constructor
    · rintro (⟨hok, -⟩ | ⟨-, hserve⟩)
      · simp only [createSavefileAt] at hok
        split at hok
        · obtain ⟨hdone, db, hdb, -⟩ := createSavefile_eq_ok.mp (Prod.ext hok rfl)
          exact .inr ⟨rfl, hdone, db, hdb⟩
        · cases hok
      · exact absurd hserve hfile
    · rintro (h | ⟨-, hdone, db, hdb⟩)
      · cases h
      · have hrun := createSavefile_eq_ok.mpr ⟨hdone, db, hdb, rfl⟩
        refine .inl ⟨?_, db, hdb, ?_⟩
        · simp only [createSavefileAt, hrun]
          rfl
        · simp only [createSavefileAt, hrun]
          rfl

end Runs

/-- The sample, with these placements in the only group that is saved. -/
def sampleWith (placed : List ResultPlacement) : ResultMessage :=
  { sampleResult with
    placements := (∅ : GoMap GoString (List ResultPlacement)).insert singularItemGroup placed }

/-- A location that does not end in `)` is an error, and one that is named twice panics
in the deferred close. The file is left each time, so the next run of `serve` plays
on a savefile without rows. -/
theorem createSavefileAt_leaves_file :
    ((createSavefileAt (.inOrder false) (sampleWith [⟨lit "MW(1)_Sword", lit "Gate"⟩]) [70]
        .opened []).result = .error (.refused .malformed) ∧
      ¬ (createSavefileAt (.inOrder false) (sampleWith [⟨lit "MW(1)_Sword", lit "Gate"⟩]) [70]
        .opened []).Atomic (.inOrder false) (sampleWith [⟨lit "MW(1)_Sword", lit "Gate"⟩]) [70]) ∧
    (createSavefileAt (.inOrder false)
        (sampleWith [⟨lit "MW(1)_Sword", lit "Gate_(7)"⟩, ⟨lit "MW(1)_Lamp", lit "Well_(7)"⟩]) [70]
        .opened []).result = .error .panicked := by
  refine ⟨⟨rfl, ?_⟩, rfl⟩
  rintro (⟨hok, -⟩ | ⟨-, hserve⟩)
  · cases hok
  · cases hserve

/-- A location in a parenthesis without a number is saved as the location 0, and two
such locations are one. -/
example : (sampleWith [⟨lit "MW(1)_Sword", lit "Gate_(x)"⟩]).WellFormed ∧
    ¬ (sampleWith [⟨lit "MW(1)_Sword", lit "Gate_(x)"⟩, ⟨lit "MW(1)_Lamp", lit "Well)"⟩]).WellFormed :=
  ⟨⟨by decide, by decide, by decide, by decide, by decide⟩, fun h => absurd h.distinct (by decide)⟩

end Isthmus
