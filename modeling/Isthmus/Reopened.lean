import Isthmus.Steps
import Isthmus.CreateSavefile

/-!
# Reopening a savefile

The queries on a created savefile give back the result of the multiworld setup
it was created from. Every player they name is one of the result, so the play
loop may index its games by it.
-/

namespace Isthmus

open Mwproto Approto

/-- The queries give back what the savefile was created from. -/
structure Savefile.Holds (db : Savefile) (env : Env) (result : ResultMessage)
    (precollectedItems : List Int) : Prop where
  nicknames : db.getNicknames = result.nicknames
  params : db.getConnectionParams = .ok (result.playerID.toInt, result.randoID.toInt)
  placed : ∀ p ∈ result.placements.index singularItemGroup [], ∃ locID ownerID name,
    parseDiscriminator p.location = some locID ∧
      parseQualifiedName p.item = some (ownerID, name) ∧
      db.getPlacedItem locID = some (ownerID, name)
  unplaced : ∀ locID, (∀ p ∈ result.placements.index singularItemGroup [],
    parseDiscriminator p.location ≠ some locID) → db.getPlacedItem locID = none
  ownItems : ∀ item loc, result.playerItemsPlacements.lookup item = some loc →
    ∃ sourceID name, parseQualifiedName loc = some (sourceID, name) ∧
      db.getLocationOfOwnItem env item = some name ∧
      ⟨sourceID, name⟩ ∈ db.getOwnItemLocations
  sentItems : db.getSentItems =
    precollectedItems.map fun item => ⟨item, serverLocation, serverSlot, 0⟩

/-- The players that the tables of the setup name are among the first `n`. -/
structure SetupTables.Within (db : SetupTables) (n : Nat) : Prop where
  self : ∀ playerID randoID, db.getConnectionParams = .ok (playerID, randoID) →
    0 ≤ playerID ∧ playerID < n
  owner : ∀ locID ownerID name, db.getPlacedItem locID = some (ownerID, name) →
    0 ≤ ownerID ∧ ownerID < n
  source : ∀ loc ∈ db.getOwnItemLocations, 0 ≤ loc.playerID ∧ loc.playerID < n

section Created

variable {env : Env} {result : ResultMessage} {precollectedItems : List Int} {db : Savefile}

/-- The player rows are in the order of their ids, so the order of the query is
that of the result. -/
theorem getNicknames_created (h : createSavefile env result precollectedItems = .ok db) :
    db.getNicknames = result.nicknames := by
  have hids := createSavefile_players h
  obtain ⟨players, global, world, items, hplayers, -, -, -, rfl⟩ := createSavefile_ok h
  have hsorted : players.rows.Pairwise fun a b => a.playerID ≤ b.playerID := by
    have hrange : ((List.range result.nicknames.length).map Nat.cast).Pairwise
        fun a b : Int => a ≤ b := by
      rw [List.pairwise_map]
      refine List.pairwise_le_range.imp fun {a b} hab => ?_
      exact Int.ofNat_le.mpr hab
    rw [← hids] at hrange
    exact List.pairwise_map.mp hrange
  show ((players.rows.insertionSort fun a b => a.playerID ≤ b.playerID).map
    PlayerRow.nickname) = _
  rw [hsorted.insertionSort_eq]
  obtain ⟨rs, hrs, hrows⟩ := Table.insertEach_ok hplayers
  rw [hrows, Table.empty_rows, List.nil_append]
  have hnames : rs.map PlayerRow.nickname = result.nicknames.zipIdx.map Prod.fst := by
    generalize result.nicknames.zipIdx = l at hrs
    clear hrows
    induction hrs with
    | nil => rfl
    | cons hrow _ ih =>
      obtain ⟨-, -, rfl⟩ := playerRow_eq_ok.mp hrow
      rw [List.map_cons, List.map_cons, ih]
  rw [hnames, List.zipIdx_map_fst]

theorem getConnectionParams_created
    (h : createSavefile env result precollectedItems = .ok db) :
    db.getConnectionParams = .ok (result.playerID.toInt, result.randoID.toInt) := by
  obtain ⟨players, global, world, items, -, hglobal, -, -, rfl⟩ := createSavefile_ok h
  obtain ⟨-, -, -, rfl⟩ := globalRow_eq_ok.mp hglobal
  show Except.ok (toInt32 result.playerID.toInt, toInt32 result.randoID.toInt) = _
  rw [toInt32_of_fits (fits_int32 _), toInt32_of_fits (fits_int32 _)]


/-- A placement is found at the location its discriminator names. -/
theorem getPlacedItem_created (h : createSavefile env result precollectedItems = .ok db)
    {p : ResultPlacement} (hp : p ∈ result.placements.index singularItemGroup []) :
    ∃ locID ownerID name, parseDiscriminator p.location = some locID ∧
      parseQualifiedName p.item = some (ownerID, name) ∧
      db.getPlacedItem locID = some (ownerID, name) := by
  obtain ⟨players, global, world, items, -, -, hworld, -, rfl⟩ := createSavefile_ok h
  obtain ⟨row, hrow⟩ := Table.check_of_insertEach_ok hworld p hp
  obtain ⟨hloc, hname, -, -⟩ := ownWorldRow_eq_ok.mp hrow
  have hmem : row ∈ world.rows := (Table.mem_of_insertEach_ok hworld).mpr (.inr ⟨p, hp, hrow⟩)
  refine ⟨row.apLocationID, row.destPlayerID, row.itemName, hloc, hname, ?_⟩
  show (world.find row.apLocationID).map (fun row => (toInt32 row.destPlayerID, row.itemName)) = _
  rw [Table.find_eq_some.mpr ⟨hmem, rfl⟩, Option.map_some,
    toInt32_of_fits (parseQualifiedName_fits hname)]

theorem getPlacedItem_created_none (h : createSavefile env result precollectedItems = .ok db)
    {locID : Int} (hnone : ∀ p ∈ result.placements.index singularItemGroup [],
      parseDiscriminator p.location ≠ some locID) :
    db.getPlacedItem locID = none := by
  obtain ⟨players, global, world, items, -, -, hworld, -, rfl⟩ := createSavefile_ok h
  have hfind : world.find locID = none := by
    refine Table.find_eq_none.mpr fun row hrow hkey => ?_
    obtain hrow | ⟨p, hp, hcheck⟩ := (Table.mem_of_insertEach_ok hworld).mp hrow
    · exact absurd hrow List.not_mem_nil
    · exact hnone p hp (hkey ▸ (ownWorldRow_eq_ok.mp hcheck).1)
  show (world.find locID).map _ = none
  rw [hfind]
  rfl

/-- An own item is found by its name, if the name that was stored is not bound
as NULL when it is asked for. -/
theorem getLocationOfOwnItem_created {env' : Env}
    (h : createSavefile env result precollectedItems = .ok db)
    (henv : ∀ s, env'.BindsNull s → env.BindsNull s) {item loc : GoString}
    (hitem : result.playerItemsPlacements.lookup item = some loc) :
    ∃ sourceID name, parseQualifiedName loc = some (sourceID, name) ∧
      db.getLocationOfOwnItem env' item = some name ∧
      ⟨sourceID, name⟩ ∈ db.getOwnItemLocations := by
  obtain ⟨players, global, world, items, -, -, -, hitems, rfl⟩ := createSavefile_ok h
  have hentry := AList.mem_lookup_iff.mp (Option.mem_def.mpr hitem)
  obtain ⟨row, hrow⟩ := Table.check_of_insertEach_ok hitems _ hentry
  obtain ⟨hkey, hname, hnull, -, -⟩ := ownItemRow_eq_ok.mp hrow
  have hmem : row ∈ items.rows := (Table.mem_of_insertEach_ok hitems).mpr (.inr ⟨_, hentry, hrow⟩)
  refine ⟨row.sourcePlayerID, row.locationName, hname, ?_, ?_⟩
  -- the name is bound as it was when it was stored
  · show (env'.bindString item).bind (fun name => (items.find name).map OwnItemRow.locationName) = _
    rw [Env.bindString_of_not fun hnull' => hnull (henv _ hnull'), Option.bind_some,
      Table.find_eq_some.mpr ⟨hmem, hkey⟩]
    rfl
  · refine List.mem_map.mpr ⟨row, (List.mem_insertionSort _).mpr hmem, ?_⟩
    rw [toInt32_of_fits (parseQualifiedName_fits hname)]

theorem getSentItems_created (h : createSavefile env result precollectedItems = .ok db) :
    db.getSentItems =
      precollectedItems.map fun item => ⟨item, serverLocation, serverSlot, 0⟩ := by
  obtain ⟨players, global, world, items, -, -, -, -, rfl⟩ := createSavefile_ok h
  show (precollectedItems.map precollectedRow).map Savefile.readSentRow = _
  rw [List.map_map]
  rfl

/-- The foreign keys keep every player that is named among those of the result. -/
theorem within_created (h : createSavefile env result precollectedItems = .ok db) :
    db.Within result.nicknames.length := by
  obtain ⟨⟨row, hrow, hfits, -, hself⟩, howner, hsource⟩ := (createSavefile_fresh h).valid
  have hrange : ∀ id ∈ db.players.rows.map PlayerRow.playerID,
      0 ≤ id ∧ id < result.nicknames.length := by
    intro id hid
    rw [createSavefile_players h] at hid
    obtain ⟨i, hi, rfl⟩ := List.mem_map.mp hid
    have hlt := List.mem_range.mp hi
    constructor <;> omega
  -- the own player, then the owners of items, then the sources of items
  refine ⟨?_, ?_, ?_⟩
  · intro playerID randoID hparams
    rw [SetupTables.getConnectionParams, hrow, Except.ok.injEq, Prod.mk.injEq,
      toInt32_of_fits hfits] at hparams
    exact hparams.1 ▸ hrange _ hself
  · intro locID ownerID name hplaced
    obtain ⟨row, hfind, hrow⟩ := Option.map_eq_some_iff.mp hplaced
    obtain ⟨hfits, hmem⟩ := howner row (Table.find_eq_some.mp hfind).1
    rw [toInt32_of_fits hfits, Prod.mk.injEq] at hrow
    exact hrow.1 ▸ hrange _ hmem
  · intro loc hloc
    obtain ⟨row, hrow, rfl⟩ := List.mem_map.mp hloc
    obtain ⟨hfits, hmem⟩ := hsource row ((List.mem_insertionSort _).mp hrow)
    show 0 ≤ toInt32 row.sourcePlayerID ∧ toInt32 row.sourcePlayerID < _
    rw [toInt32_of_fits hfits]
    exact hrange _ hmem

/-- A session on a created savefile has a game for each player of the result. -/
theorem games_created (h : createSavefile env result precollectedItems = .ok db) {cfg : Config}
    {room : Room} (hroom : cfg.openRoom db.toSetupTables = .ok room) :
    room.games.length = result.nicknames.length := by
  obtain ⟨-, hnick, hlen, -⟩ := Config.openRoom_ok hroom
  rw [hlen, hnick, getNicknames_created h]

/-- A created savefile gives back what it was created from, and every player it
names has a game in every session on it. An empty name that was bound as text
at its creation must be bound so when it is read. -/
theorem createSavefile_holds {env' : Env}
    (h : createSavefile env result precollectedItems = .ok db)
    (henv : ∀ s, env'.BindsNull s → env.BindsNull s) :
    db.Holds env' result precollectedItems ∧ db.Within result.nicknames.length ∧
      ∀ (cfg : Config) (room : Room), cfg.openRoom db.toSetupTables = .ok room →
        room.games.length = result.nicknames.length := by
  refine ⟨⟨getNicknames_created h, getConnectionParams_created h, fun p => getPlacedItem_created h,
    fun locID => getPlacedItem_created_none h,
    fun item loc => getLocationOfOwnItem_created h henv, getSentItems_created h⟩,
    within_created h, fun cfg room => games_created h⟩

end Created

/-- Two players, a precollected item, and placements in both directions. -/
theorem createSavefile_holds_sample : ∃ db,
    createSavefile (Env.inOrder false) sampleResult [70] = .ok db ∧
      db.Holds (Env.inOrder false) sampleResult [70] ∧
      db.Within sampleResult.nicknames.length ∧
      ∀ (cfg : Config) (room : Room), cfg.openRoom db.toSetupTables = .ok room →
        room.games.length = sampleResult.nicknames.length := by
  obtain ⟨db, hdb, -⟩ :=
    exists_created (x := createSavefile (Env.inOrder false) sampleResult [70])
      (P := fun db => db.sentItems.length = 1) (by decide +kernel)
  exact ⟨db, hdb, createSavefile_holds hdb fun _ h => h⟩

end Isthmus
