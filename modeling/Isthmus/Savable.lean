import Isthmus.CreateSavefile

/-!
# The results that can be saved

What the tables of the setup ask of a result: names that can be taken apart,
players that exist, one placement for each location, and no text that reaches
SQLite as NULL. The first three are what a multiworld server sends. The number of
a location is the one that `ParseDiscriminator` gives, so a name such as `Gate_(x)`
is location 0, and two of them are one location.
-/

namespace Isthmus

open Mwproto

variable {env : Env} {result : ResultMessage} {precollectedItems : List Int}

/-- The placements of the only group that is saved. -/
def Mwproto.ResultMessage.placed (result : ResultMessage) : List ResultPlacement :=
  result.placements.index singularItemGroup []

/-- The id is that of a player of the result. -/
def Mwproto.ResultMessage.HasPlayer (result : ResultMessage) (pid : Int) : Prop :=
  0 ≤ pid ∧ pid < result.nicknames.length

instance (pid : Int) : Decidable (result.HasPlayer pid) := inferInstanceAs (Decidable (_ ∧ _))

/-- The name is qualified by a player of the result. -/
def Mwproto.ResultMessage.Qualifies (result : ResultMessage) (name : GoString) : Prop :=
  ∃ q ∈ parseQualifiedName name, result.HasPlayer q.1

instance (name : GoString) : Decidable (result.Qualifies name) :=
  inferInstanceAs (Decidable (∃ q ∈ _, _))

/-- The names of the result can be taken apart, and they name players of the result and
one location each. -/
structure Mwproto.ResultMessage.WellFormed (result : ResultMessage) : Prop where
  self : result.HasPlayer result.playerID.toInt
  locations : ∀ p ∈ result.placed, (parseDiscriminator p.location).isSome
  distinct : (result.placed.map fun p => parseDiscriminator p.location).Nodup
  items : ∀ p ∈ result.placed, result.Qualifies p.item
  ownItems : ∀ p ∈ result.playerItemsPlacements.entries, result.Qualifies p.2

/-- A qualified name without its qualifier. -/
def unqualified (name : GoString) : Option GoString := (parseQualifiedName name).map Prod.snd

/-- Every text of the result that is bound to a parameter. -/
def Mwproto.ResultMessage.texts (result : ResultMessage) : List GoString :=
  result.nicknames ++
  (result.nicknames.map fun name => result.itemsSpoiler.individualWorldSpoilers.index name []) ++
  [result.itemsSpoiler.fullOrderedItemsLog, result.generatedHash] ++
  (result.placed.filterMap fun p => unqualified p.item) ++
  result.playerItemsPlacements.entries.map Sigma.fst ++
  result.playerItemsPlacements.entries.filterMap fun p => unqualified p.2

/-- No text of the result is bound as NULL. -/
def Mwproto.ResultMessage.Bindable (result : ResultMessage) (env : Env) : Prop :=
  ∀ s ∈ result.texts, ¬ env.BindsNull s

instance : Decidable (result.Bindable env) := inferInstanceAs (Decidable (∀ s ∈ _, _))

/-- The texts, by the table they are for. -/
theorem bindable_iff : result.Bindable env ↔
    (∀ name ∈ result.nicknames, ¬ env.BindsNull name ∧
      ¬ env.BindsNull (result.itemsSpoiler.individualWorldSpoilers.index name [])) ∧
    (¬ env.BindsNull result.itemsSpoiler.fullOrderedItemsLog ∧
      ¬ env.BindsNull result.generatedHash) ∧
    (∀ p ∈ result.placed, ∀ s, unqualified p.item = some s → ¬ env.BindsNull s) ∧
    ∀ p ∈ result.playerItemsPlacements.entries, ¬ env.BindsNull p.1 ∧
      ∀ s, unqualified p.2 = some s → ¬ env.BindsNull s := by
  simp only [ResultMessage.Bindable, ResultMessage.texts, List.mem_append, List.mem_map,
    List.mem_filterMap, List.mem_cons, List.not_mem_nil, or_false]
  grind

/-- A name is good for a column of names when it is qualified by a player that
exists and what is left of it is not bound as NULL. -/
theorem qualifies_iff (env : Env) {ids : List Int}
    (hids : ∀ pid, pid ∈ ids ↔ result.HasPlayer pid) (name : GoString) :
    (∃ pid bare, parseQualifiedName name = some (pid, bare) ∧ ¬ env.BindsNull bare ∧ pid ∈ ids) ↔
      result.Qualifies name ∧ ∀ s, unqualified name = some s → ¬ env.BindsNull s := by
  simp only [ResultMessage.Qualifies, unqualified, hids]
  cases parseQualifiedName name with
  | none => simp
  | some q =>
    obtain ⟨pid, bare⟩ := q
    simp [and_comm]

/-- The players are saved whatever their names, if these and their logs are bound
as text: the numbers of the nicknames are distinct. -/
theorem players_saved_iff {logs : GoMap GoString GoString} {nicknames : List GoString} :
    (∃ players, (Table.empty PlayerRow.playerID).insertEach (playerRow env logs) (.sql .unique)
      nicknames.zipIdx = .ok players) ↔
    ∀ name ∈ nicknames, ¬ env.BindsNull name ∧ ¬ env.BindsNull (logs.index name []) := by
  have hkey : ∀ (p : GoString × Nat) (row : PlayerRow), playerRow env logs p = .ok row →
      (p.2 : Int) = id row.playerID := by
    intro p row hrow
    obtain ⟨-, -, rfl⟩ := playerRow_eq_ok.mp hrow
    rfl
  have hnd : (nicknames.zipIdx.map fun p => (p.2 : Int)).Nodup := by
    have hsnd : (nicknames.zipIdx.map Prod.snd).Nodup := by
      rw [List.zipIdx_map_snd]
      exact List.nodup_range'
    have hcast := hsnd.map (f := Nat.cast (R := Int)) fun _ _ => Int.ofNat_inj.mp
    rwa [List.map_map] at hcast
  rw [Table.insertEach_empty_ok_iff (fun p : GoString × Nat => (p.2 : Int)) Function.injective_id
    hkey]
  constructor
  · rintro ⟨hall, -⟩ name hname
    rw [← List.zipIdx_map_fst 0 nicknames] at hname
    obtain ⟨p, hp, rfl⟩ := List.mem_map.mp hname
    obtain ⟨row, hrow⟩ := hall p hp
    obtain ⟨hnick, hlog, -⟩ := playerRow_eq_ok.mp hrow
    exact ⟨hnick, hlog⟩
  · intro hall
    refine ⟨fun p hp => ?_, hnd⟩
    have hname : p.1 ∈ nicknames := by
      rw [← List.zipIdx_map_fst 0 nicknames]
      exact List.mem_map_of_mem hp
    exact ⟨_, playerRow_eq_ok.mpr ⟨(hall _ hname).1, (hall _ hname).2, rfl⟩⟩

section Tables

variable {players : Table PlayerRow PlayerRow.playerID}

theorem global_saved_iff
    (hids : ∀ pid, pid ∈ players.rows.map PlayerRow.playerID ↔ result.HasPlayer pid) :
    (∃ row, globalRow env players result = .ok row) ↔
      result.HasPlayer result.playerID.toInt ∧
      ¬ env.BindsNull result.itemsSpoiler.fullOrderedItemsLog ∧
      ¬ env.BindsNull result.generatedHash := by
  simp only [globalRow_eq_ok, hids]
  grind

/-- The key of a placement's row is its discriminator. -/
theorem world_saved_iff
    (hids : ∀ pid, pid ∈ players.rows.map PlayerRow.playerID ↔ result.HasPlayer pid) :
    (∃ world, (Table.empty OwnWorldRow.apLocationID).insertEach (ownWorldRow env players)
      (.sql .unique) result.placed = .ok world) ↔
    ((∀ p ∈ result.placed, (parseDiscriminator p.location).isSome ∧ result.Qualifies p.item) ∧
      (result.placed.map fun p => parseDiscriminator p.location).Nodup) ∧
    ∀ p ∈ result.placed, ∀ s, unqualified p.item = some s → ¬ env.BindsNull s := by
  have hrow : ∀ p : ResultPlacement, (∃ row, ownWorldRow env players p = .ok row) ↔
      (parseDiscriminator p.location).isSome ∧ result.Qualifies p.item ∧
        ∀ s, unqualified p.item = some s → ¬ env.BindsNull s := by
    intro p
    rw [← qualifies_iff env hids, Option.isSome_iff_exists]
    constructor
    · rintro ⟨row, hrow⟩
      obtain ⟨hloc, hname, hnull, hmem⟩ := ownWorldRow_eq_ok.mp hrow
      exact ⟨⟨_, hloc⟩, _, _, hname, hnull, hmem⟩
    · rintro ⟨⟨locID, hloc⟩, pid, item, hname, hnull, hmem⟩
      exact ⟨⟨locID, pid, item⟩, ownWorldRow_eq_ok.mpr ⟨hloc, hname, hnull, hmem⟩⟩
  rw [Table.insertEach_empty_ok_iff (fun p : ResultPlacement => parseDiscriminator p.location)
    (Option.some_injective Int) fun p row hp => (ownWorldRow_eq_ok.mp hp).1]
  simp only [hrow]
  grind

/-- The key of an own item's row is its name, the key of the map. -/
theorem items_saved_iff
    (hids : ∀ pid, pid ∈ players.rows.map PlayerRow.playerID ↔ result.HasPlayer pid) :
    (∃ items, (Table.empty OwnItemRow.itemName).insertEach (ownItemRow env players)
      (.sql .unique) result.playerItemsPlacements.entries = .ok items) ↔
    (∀ p ∈ result.playerItemsPlacements.entries, result.Qualifies p.2) ∧
    ∀ p ∈ result.playerItemsPlacements.entries, ¬ env.BindsNull p.1 ∧
      ∀ s, unqualified p.2 = some s → ¬ env.BindsNull s := by
  have hrow : ∀ p : (_ : GoString) × GoString, (∃ row, ownItemRow env players p = .ok row) ↔
      result.Qualifies p.2 ∧ ¬ env.BindsNull p.1 ∧
        ∀ s, unqualified p.2 = some s → ¬ env.BindsNull s := by
    intro p
    have hname := qualifies_iff env hids p.2
    constructor
    · rintro ⟨row, hrow⟩
      obtain ⟨-, hloc, hitem, hnull, hmem⟩ := ownItemRow_eq_ok.mp hrow
      obtain ⟨hq, hs⟩ := hname.mp ⟨_, _, hloc, hnull, hmem⟩
      exact ⟨hq, hitem, hs⟩
    · rintro ⟨hq, hitem, hs⟩
      obtain ⟨pid, locName, hloc, hnull, hmem⟩ := hname.mpr ⟨hq, hs⟩
      exact ⟨⟨p.1, pid, locName⟩, ownItemRow_eq_ok.mpr ⟨rfl, hloc, hitem, hnull, hmem⟩⟩
  rw [Table.insertEach_empty_ok_iff (fun p : (_ : GoString) × GoString => p.1)
    Function.injective_id fun p row hp => (ownItemRow_eq_ok.mp hp).1.symm]
  have hnd : (result.playerItemsPlacements.entries.map fun p => p.1).Nodup :=
    result.playerItemsPlacements.nodupKeys
  simp only [hrow, hnd, and_true]
  grind

end Tables

theorem hasPlayer_iff {logs : GoMap GoString GoString}
    {players : Table PlayerRow PlayerRow.playerID}
    (h : (Table.empty PlayerRow.playerID).insertEach (playerRow env logs) (.sql .unique)
      result.nicknames.zipIdx = .ok players) (pid : Int) :
    pid ∈ players.rows.map PlayerRow.playerID ↔ result.HasPlayer pid := by
  rw [playerIDs_of_insertEach h, List.mem_map]
  constructor
  · rintro ⟨i, hi, rfl⟩
    have hlt := List.mem_range.mp hi
    constructor <;> omega
  · rintro ⟨hnonneg, hlt⟩
    exact ⟨pid.toNat, List.mem_range.mpr (by omega), Int.toNat_of_nonneg hnonneg⟩

/-- A result is saved exactly when it is well-formed and none of its texts is
bound as NULL. A row that SQLite refuses is no error of the setup, though: the
deferred `db.Close` panics on its statement, and the file stays
(`createSavefileAt_leaves_file`). -/
theorem createSavefile_ok_iff (precollectedItems : List Int) :
    (∃ db, createSavefile env result precollectedItems = .ok db) ↔
      result.WellFormed ∧ result.Bindable env := by
  rw [bindable_iff]
  constructor
  · rintro ⟨db, hdb⟩
    obtain ⟨players, global, world, items, hplayers, hglobal, hworld, hitems, -⟩ :=
      createSavefile_ok hdb
    have hids := hasPlayer_iff hplayers
    have hnames := players_saved_iff.mp ⟨players, hplayers⟩
    obtain ⟨hself, hlogs⟩ := (global_saved_iff hids).mp ⟨global, hglobal⟩
    obtain ⟨⟨hplaced, hdistinct⟩, hplacedTexts⟩ := (world_saved_iff hids).mp ⟨world, hworld⟩
    obtain ⟨hown, hownTexts⟩ := (items_saved_iff hids).mp ⟨items, hitems⟩
    exact ⟨⟨hself, fun p hp => (hplaced p hp).1, hdistinct, fun p hp => (hplaced p hp).2, hown⟩,
      hnames, hlogs, hplacedTexts, hownTexts⟩
  · rintro ⟨hwf, hnames, hlogs, hplacedTexts, hownTexts⟩
    obtain ⟨players, hplayers⟩ := players_saved_iff.mpr hnames
    have hids := hasPlayer_iff hplayers
    obtain ⟨global, hglobal⟩ := (global_saved_iff hids).mpr ⟨hwf.self, hlogs⟩
    obtain ⟨world, hworld⟩ := (world_saved_iff hids).mpr
      ⟨⟨fun p hp => ⟨hwf.locations p hp, hwf.items p hp⟩, hwf.distinct⟩, hplacedTexts⟩
    obtain ⟨items, hitems⟩ := (items_saved_iff hids).mpr ⟨hwf.ownItems, hownTexts⟩
    rw [ResultMessage.placed] at hworld
    simp only [createSavefile, hplayers, hglobal, hworld, hitems, bind, Except.bind, pure,
      Except.pure, Except.ok.injEq, exists_eq']

/-- A well-formed result is saved unless one of its texts is bound as NULL. Then the
setup panics in the deferred `db.Close`, and leaves a file without rows behind. -/
theorem wellFormed_saved_iff (hwf : result.WellFormed) :
    (∃ db, createSavefile env result precollectedItems = .ok db) ↔ result.Bindable env := by
  rw [createSavefile_ok_iff precollectedItems]
  exact and_iff_right hwf

theorem sampleResult_wellFormed : sampleResult.WellFormed where
  self := by decide
  locations := by decide
  distinct := by decide
  items := by decide
  ownItems := by decide

theorem wellFormed_saved_iff_sample :
    sampleResult.Bindable (Env.inOrder false) ∧
      ∃ db, createSavefile (Env.inOrder false) sampleResult [70] = .ok db := by
  have hbindable : sampleResult.Bindable (Env.inOrder false) := by decide
  exact ⟨hbindable, (wellFormed_saved_iff sampleResult_wellFormed).mpr hbindable⟩

/-- Without spoiler logs and hash the sample is not saved when the data pointer of
an empty string is nil. -/
theorem wellFormed_refused : sampleResult.WellFormed ∧
    ¬ ∃ db, createSavefile (Env.inOrder true) sampleResult [70] = .ok db :=
  ⟨sampleResult_wellFormed, fun h => absurd ((createSavefile_ok_iff _).mp h).2 (by decide)⟩

end Isthmus
