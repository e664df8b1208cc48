import Isthmus.Savefile

/-!
# Creating a savefile

`createSavefile` fills the tables from the result of the multiworld setup in one
transaction. The constraints of the schema are all that rejects a malformed
result.
-/

namespace Isthmus

open Process Mwproto Approto

def singularItemGroup : GoString := lit "Main Item Group"

/-- A player row: its nickname and its spoiler log must not be NULL. -/
def playerRow (env : Env) (logs : GoMap GoString GoString) (p : GoString × Nat) :
    Except Stop PlayerRow :=
  match env.bindString p.1, env.bindString (logs.index p.1 []) with
  | some name, some _ => .ok ⟨p.2, name⟩
  | _, _ => .error (.sql .notNull)

/-- The id of a `REFERENCES mw_players` column. -/
def references (players : Table PlayerRow PlayerRow.playerID) (pid : Int) : Bool :=
  pid ∈ players.rows.map PlayerRow.playerID

def globalRow (env : Env) (players : Table PlayerRow PlayerRow.playerID) (result : ResultMessage) :
    Except Stop GlobalRow :=
  match env.bindString result.itemsSpoiler.fullOrderedItemsLog,
    env.bindString result.generatedHash with
  | some _, some _ =>
    if references players result.playerID.toInt then
      .ok ⟨result.playerID.toInt, result.randoID.toInt⟩
    else .error (.sql .foreignKey)
  | _, _ => .error (.sql .notNull)

/-- The row of a placement. A location in a parenthesis that is no number, as in
`Gate_(x)`, has the id 0. -/
def ownWorldRow (env : Env) (players : Table PlayerRow PlayerRow.playerID) (p : ResultPlacement) :
    Except Stop OwnWorldRow :=
  match parseDiscriminator p.location with
  | none => .error .malformed
  | some locID =>
    match parseQualifiedName p.item with
    | none => .error .malformed
    | some (pid, item) =>
      match env.bindString item with
      | none => .error (.sql .notNull)
      | some item =>
        if references players pid then .ok ⟨locID, pid, item⟩ else .error (.sql .foreignKey)

def ownItemRow (env : Env) (players : Table PlayerRow PlayerRow.playerID)
    (p : (_ : GoString) × GoString) : Except Stop OwnItemRow :=
  match parseQualifiedName p.2 with
  | none => .error .malformed
  | some (pid, locName) =>
    match env.bindString p.1, env.bindString locName with
    | some item, some locName =>
      if references players pid then .ok ⟨item, pid, locName⟩ else .error (.sql .foreignKey)
    | _, _ => .error (.sql .notNull)

/-- A precollected item, from the server's location and slot. -/
def precollectedRow (item : Int) : SentRow :=
  ⟨item, serverLocation, serverSlot, 0, .precollected⟩

/-- The committed savefile, or the error that stopped its creation. -/
def createSavefile (env : Env) (result : ResultMessage) (precollectedItems : List Int) :
    Except Stop Savefile := do
  let players ← (Table.empty PlayerRow.playerID).insertEach
    (playerRow env result.itemsSpoiler.individualWorldSpoilers) (.sql .unique)
    result.nicknames.zipIdx
  let globalData ← globalRow env players result
  let ownWorldPlacements ← (Table.empty OwnWorldRow.apLocationID).insertEach
    (ownWorldRow env players) (.sql .unique) (result.placements.index singularItemGroup [])
  let ownItemPlacements ← (Table.empty OwnItemRow.itemName).insertEach
    (ownItemRow env players) (.sql .unique) result.playerItemsPlacements.entries
  pure
    { players, globalData := [globalData], ownWorldPlacements, ownItemPlacements
      locationsCleared := Table.empty id
      unconfirmedSentItems := Table.empty id
      receivedItems := Table.empty id
      sentItems := precollectedItems.map precollectedRow
      dataStorage := Table.empty StoredRow.key }

/-- What the constraints of the schema give for the tables of the setup. -/
structure SetupTables.Valid (db : SetupTables) : Prop where
  global : ∃ row, db.globalData = [row] ∧ FitsInt32 row.playerID ∧ FitsInt32 row.randoID ∧
    row.playerID ∈ db.players.rows.map PlayerRow.playerID
  ownWorld : ∀ row ∈ db.ownWorldPlacements.rows, FitsInt32 row.destPlayerID ∧
    row.destPlayerID ∈ db.players.rows.map PlayerRow.playerID
  ownItem : ∀ row ∈ db.ownItemPlacements.rows, FitsInt32 row.sourcePlayerID ∧
    row.sourcePlayerID ∈ db.players.rows.map PlayerRow.playerID

/-- A savefile as `createSavefile` leaves it. -/
structure Savefile.Fresh (db : Savefile) : Prop where
  valid : db.toSetupTables.Valid
  cleared : db.locationsCleared.rows = []
  unconfirmed : db.unconfirmedSentItems.rows = []
  received : db.receivedItems.rows = []
  sent : ∀ row ∈ db.sentItems, row.origin = .precollected

theorem fits_int32 (x : Int32) : FitsInt32 x.toInt :=
  ⟨Int32.le_toInt x, Int32.toInt_lt x⟩

section Rows

variable {env : Env} {players : Table PlayerRow PlayerRow.playerID}

theorem playerRow_eq_ok {logs : GoMap GoString GoString} {p : GoString × Nat} {row : PlayerRow} :
    playerRow env logs p = .ok row ↔
      ¬ env.BindsNull p.1 ∧ ¬ env.BindsNull (logs.index p.1 []) ∧ row = ⟨p.2, p.1⟩ := by
  unfold playerRow
  by_cases hname : env.BindsNull p.1
  · simp [Env.bindString_of_bindsNull hname, hname]
  by_cases hlog : env.BindsNull (logs.index p.1 [])
  · simp [Env.bindString_of_not hname, Env.bindString_of_bindsNull hlog, hlog]
  · simp [Env.bindString_of_not hname, Env.bindString_of_not hlog, hname, hlog, eq_comm]

theorem globalRow_eq_ok {result : ResultMessage} {row : GlobalRow} :
    globalRow env players result = .ok row ↔
      ¬ env.BindsNull result.itemsSpoiler.fullOrderedItemsLog ∧
      ¬ env.BindsNull result.generatedHash ∧
      result.playerID.toInt ∈ players.rows.map PlayerRow.playerID ∧
      row = ⟨result.playerID.toInt, result.randoID.toInt⟩ := by
  unfold globalRow
  by_cases hlog : env.BindsNull result.itemsSpoiler.fullOrderedItemsLog
  · simp [Env.bindString_of_bindsNull hlog, hlog]
  by_cases hhash : env.BindsNull result.generatedHash
  · simp [Env.bindString_of_not hlog, Env.bindString_of_bindsNull hhash, hhash]
  · simp only [Env.bindString_of_not hlog, Env.bindString_of_not hhash, references]
    grind

/-- The row of a placement is what its two names say. -/
theorem ownWorldRow_eq_ok {p : ResultPlacement} {row : OwnWorldRow} :
    ownWorldRow env players p = .ok row ↔
      parseDiscriminator p.location = some row.apLocationID ∧
      parseQualifiedName p.item = some (row.destPlayerID, row.itemName) ∧
      ¬ env.BindsNull row.itemName ∧
      row.destPlayerID ∈ players.rows.map PlayerRow.playerID := by
  unfold ownWorldRow
  cases parseDiscriminator p.location with
  | none => simp
  | some locID =>
    cases parseQualifiedName p.item with
    | none => simp
    | some name =>
      obtain ⟨pid, item⟩ := name
      obtain ⟨locID', pid', item'⟩ := row
      by_cases hnull : env.BindsNull item
      · simp only [Env.bindString_of_bindsNull hnull, Option.some.injEq, Prod.mk.injEq]
        grind
      · simp only [Env.bindString_of_not hnull, references]
        grind

theorem ownItemRow_eq_ok {p : (_ : GoString) × GoString} {row : OwnItemRow} :
    ownItemRow env players p = .ok row ↔
      row.itemName = p.1 ∧
      parseQualifiedName p.2 = some (row.sourcePlayerID, row.locationName) ∧
      ¬ env.BindsNull p.1 ∧ ¬ env.BindsNull row.locationName ∧
      row.sourcePlayerID ∈ players.rows.map PlayerRow.playerID := by
  unfold ownItemRow
  cases parseQualifiedName p.2 with
  | none => simp
  | some name =>
    obtain ⟨pid, locName⟩ := name
    obtain ⟨item', pid', locName'⟩ := row
    by_cases hitem : env.BindsNull p.1
    · simp [Env.bindString_of_bindsNull hitem, hitem]
    by_cases hloc : env.BindsNull locName
    · simp only [Env.bindString_of_not hitem, Env.bindString_of_bindsNull hloc]
      grind
    · simp only [Env.bindString_of_not hitem, Env.bindString_of_not hloc, references]
      grind

end Rows

theorem globalRow_ok {env : Env} {players : Table PlayerRow PlayerRow.playerID}
    {result : ResultMessage} {row : GlobalRow} (h : globalRow env players result = .ok row) :
    FitsInt32 row.playerID ∧ FitsInt32 row.randoID ∧
      row.playerID ∈ players.rows.map PlayerRow.playerID := by
  obtain ⟨-, -, hmem, rfl⟩ := globalRow_eq_ok.mp h
  exact ⟨fits_int32 _, fits_int32 _, hmem⟩

theorem ownWorldRow_ok {env : Env} {players : Table PlayerRow PlayerRow.playerID}
    {p : ResultPlacement} {row : OwnWorldRow} (h : ownWorldRow env players p = .ok row) :
    FitsInt32 row.destPlayerID ∧ row.destPlayerID ∈ players.rows.map PlayerRow.playerID := by
  obtain ⟨-, hname, -, hmem⟩ := ownWorldRow_eq_ok.mp h
  exact ⟨parseQualifiedName_fits hname, hmem⟩

theorem ownItemRow_ok {env : Env} {players : Table PlayerRow PlayerRow.playerID}
    {p : (_ : GoString) × GoString} {row : OwnItemRow} (h : ownItemRow env players p = .ok row) :
    FitsInt32 row.sourcePlayerID ∧ row.sourcePlayerID ∈ players.rows.map PlayerRow.playerID := by
  obtain ⟨-, hname, -, -, hmem⟩ := ownItemRow_eq_ok.mp h
  exact ⟨parseQualifiedName_fits hname, hmem⟩

/-- Each row of a created table passed the check of its columns. -/
private theorem forall_rows_of_insertEach {ρ κ β : Type} {key : ρ → κ} [DecidableEq κ]
    {check : β → Except Stop ρ} {dup : Stop} {bs : List β} {t : Table ρ key} {P : ρ → Prop}
    (h : (Table.empty key).insertEach check dup bs = .ok t)
    (hP : ∀ b r, check b = .ok r → P r) : ∀ r ∈ t.rows, P r := by
  obtain ⟨rs, hrs, hrows⟩ := Table.insertEach_ok h
  rw [hrows, Table.empty_rows, List.nil_append]
  clear hrows h
  induction hrs with
  | nil => simp
  | cons hb _ ih =>
    intro r hr
    rcases List.mem_cons.mp hr with rfl | hr
    · exact hP _ _ hb
    · exact ih r hr

/-- What is read off a created savefile: every row of the setup passed its check. -/
theorem createSavefile_ok {env : Env} {result : ResultMessage} {precollectedItems : List Int}
    {db : Savefile} (h : createSavefile env result precollectedItems = .ok db) :
    ∃ players global world items,
      (Table.empty PlayerRow.playerID).insertEach
        (playerRow env result.itemsSpoiler.individualWorldSpoilers) (.sql .unique)
        result.nicknames.zipIdx = .ok players ∧
      globalRow env players result = .ok global ∧
      (Table.empty OwnWorldRow.apLocationID).insertEach (ownWorldRow env players) (.sql .unique)
        (result.placements.index singularItemGroup []) = .ok world ∧
      (Table.empty OwnItemRow.itemName).insertEach (ownItemRow env players) (.sql .unique)
        result.playerItemsPlacements.entries = .ok items ∧
      db = ⟨⟨players, [global], world, items⟩, Table.empty id, Table.empty id, Table.empty id,
        precollectedItems.map precollectedRow, Table.empty StoredRow.key⟩ := by
  simp only [createSavefile, bind, Except.bind, pure, Except.pure] at h
  split at h
  · cases h
  · next players hplayers =>
    split at h
    · cases h
    · next global hglobal =>
      split at h
      · cases h
      · next world hworld =>
        split at h
        · cases h
        · next items hitems =>
          cases h
          exact ⟨players, global, world, items, hplayers, hglobal, hworld, hitems, rfl⟩

/-- A created savefile meets the constraints of its schema and has no history. -/
theorem createSavefile_fresh {env : Env} {result : ResultMessage} {precollectedItems : List Int}
    {db : Savefile} (h : createSavefile env result precollectedItems = .ok db) : db.Fresh := by
  obtain ⟨players, global, world, items, -, hglobal, hworld, hitems, rfl⟩ := createSavefile_ok h
  obtain ⟨hp, hr, hmem⟩ := globalRow_ok hglobal
  refine ⟨⟨⟨global, rfl, hp, hr, hmem⟩, ?_, ?_⟩, rfl, rfl, rfl, ?_⟩
  · exact forall_rows_of_insertEach hworld fun _ _ => ownWorldRow_ok
  · exact forall_rows_of_insertEach hitems fun _ _ => ownItemRow_ok
  · intro row hrow
    obtain ⟨item, -, rfl⟩ := List.mem_map.mp hrow
    rfl

/-- The players are numbered in the order of the nicknames, from 0 on. -/
theorem playerIDs_of_insertEach {env : Env} {logs : GoMap GoString GoString}
    {nicknames : List GoString} {players : Table PlayerRow PlayerRow.playerID}
    (h : (Table.empty PlayerRow.playerID).insertEach (playerRow env logs) (.sql .unique)
      nicknames.zipIdx = .ok players) :
    players.rows.map PlayerRow.playerID = (List.range nicknames.length).map Nat.cast := by
  obtain ⟨rs, hrs, hrows⟩ := Table.insertEach_ok h
  have hids : rs.map PlayerRow.playerID =
      nicknames.zipIdx.map fun p : GoString × Nat => (p.2 : Int) := by
    generalize nicknames.zipIdx = l at hrs
    clear hrows
    induction hrs with
    | nil => rfl
    | cons hrow _ ih =>
      obtain ⟨-, -, rfl⟩ := playerRow_eq_ok.mp hrow
      rw [List.map_cons, List.map_cons, ih]
  have hrange : nicknames.zipIdx.map Prod.snd = List.range nicknames.length := by
    rw [List.zipIdx_map_snd, List.range_eq_range']
  rw [hrows, Table.empty_rows, List.nil_append, hids, ← hrange, List.map_map]
  rfl

theorem createSavefile_players {env : Env} {result : ResultMessage} {precollectedItems : List Int}
    {db : Savefile} (h : createSavefile env result precollectedItems = .ok db) :
    db.players.rows.map PlayerRow.playerID =
      (List.range result.nicknames.length).map Nat.cast := by
  obtain ⟨players, global, world, items, hplayers, -, -, -, rfl⟩ := createSavefile_ok h
  exact playerIDs_of_insertEach hplayers

/-- A property of a created savefile, by evaluation. -/
theorem exists_created {x : Except Stop Savefile} {P : Savefile → Prop} [DecidablePred P]
    (h : (match x with | .ok db => decide (P db) | .error _ => false) = true) :
    ∃ db, x = .ok db ∧ P db := by
  cases x with
  | error e => cases h
  | ok db => exact ⟨db, rfl, of_decide_eq_true h⟩

/-- A result for two players. The first finds a sword of the second and a lamp
of its own, and has a key in the world of the second. -/
def sampleResult : ResultMessage where
  playerID := 0
  randoID := 5
  nicknames := [lit "A", lit "B"]
  readyMetadata := []
  itemsSpoiler := ⟨[], ∅⟩
  placements := (∅ : GoMap GoString (List ResultPlacement)).insert singularItemGroup
    [⟨lit "MW(1)_Sword", lit "Gate_(7)"⟩, ⟨lit "MW(0)_Lamp_(3)", lit "Well_(8)"⟩]
  playerItemsPlacements :=
    ((∅ : GoMap GoString GoString).insert (lit "Lamp_(3)") (lit "MW(0)_Well")).insert
      (lit "Key_(4)") (lit "MW(1)_Cave")
  generatedHash := []

end Isthmus
