import Isthmus.Lib.Numbering
import Isthmus.CreateSavefile
import Isthmus.Steps

/-!
# The data packages that are made up

The two loops at the start of a session number the items and the locations of the
other players. Games of one name share a package, so that the numbers are given by
games and names, and each package is hashed once for each player of its game.

## Main definitions

- `Part`: the items or the locations of a data package
- `Part.ids`: the ids over all packages, by game and name
- `Room.LookupsFind`: the ids are distinct, and the lookups of the session find one
- `Room.ChecksumsMatch`: the checksums that are announced are those of the packages
-/

namespace Isthmus

open Mwproto Approto

/-! ## The parts of a package -/

/-- One of the two maps of a data package. -/
structure Part where
  get : DataPackage → GoMap GoString Int
  put : DataPackage → GoMap GoString Int → DataPackage
  get_put : ∀ dp m, get (put dp m) = m
  get_empty : get Synthesis.emptyPackage = ∅
  get_checksum : ∀ dp checksum, get { dp with checksum := checksum } = get dp

def itemNames : Part where
  get := DataPackage.itemNameToID
  put dp m := { dp with itemNameToID := m }
  get_put _ _ := rfl
  get_empty := rfl
  get_checksum _ _ := rfl

def locationNames : Part where
  get := DataPackage.locationNameToID
  put dp m := { dp with locationNameToID := m }
  get_put _ _ := rfl
  get_empty := rfl
  get_checksum _ _ := rfl

/-- A game, and a name in it. -/
abbrev GameName := GoString × GoString

/-- The id of a name in the package of its game. -/
def Part.ids (part : Part) (packages : GoMap GoString DataPackage) (k : GameName) : Option Int :=
  (packages.lookup k.1).bind fun dp => (part.get dp).lookup k.2

/-- The body that both loops have. -/
def Synthesis.addName (part : Part) (s : Synthesis) (k : GameName) : Synthesis :=
  let dp := s.packages.index k.1 emptyPackage
  if k.2 ∈ part.get dp then s
  else ⟨s.packages.insert k.1 (part.put dp ((part.get dp).insert k.2 s.next)), s.next + 1⟩

def itemKey (games : List GoString) (p : OwnWorldPlacement) : Option GameName :=
  (indexed games p.ownerID).map fun game => (game, prettifyName p.name)

def locationKey (games : List GoString) (loc : QualifiedLocation) : Option GameName :=
  (indexed games loc.playerID).map fun game => (game, loc.name)

section Loops

variable {games : List GoString} {part other : Part} {packages : GoMap GoString DataPackage}

theorem foldl_addItem (l : List OwnWorldPlacement) (s : Synthesis) :
    l.foldl (Synthesis.addItem games) s =
      (l.filterMap (itemKey games)).foldl (Synthesis.addName itemNames) s := by
  rw [List.foldl_filterMap]
  refine congrFun (congrFun (congrArg List.foldl (funext fun s => funext fun p => ?_)) s) l
  rw [Synthesis.addItem, itemKey]
  cases indexed games p.ownerID <;> rfl

theorem foldl_addLocation (l : List QualifiedLocation) (s : Synthesis) :
    l.foldl (Synthesis.addLocation games) s =
      (l.filterMap (locationKey games)).foldl (Synthesis.addName locationNames) s := by
  rw [List.foldl_filterMap]
  refine congrFun (congrFun (congrArg List.foldl (funext fun s => funext fun loc => ?_)) s) l
  rw [Synthesis.addLocation, locationKey]
  cases indexed games loc.playerID <;> rfl

/-- A missing package is empty. -/
theorem lookup_get_index (k : GameName) :
    (part.get (packages.index k.1 Synthesis.emptyPackage)).lookup k.2 = part.ids packages k := by
  rw [GoMap.index, Part.ids]
  cases packages.lookup k.1 with
  | none => rw [Option.getD_none, part.get_empty, AList.lookup_empty, Option.bind_none]
  | some dp => rfl

/-- The ids where the package of one game is replaced. -/
theorem ids_insert (game : GoString) (dp : DataPackage) (k : GameName) :
    part.ids (packages.insert game dp) k =
      if k.1 = game then (part.get dp).lookup k.2 else part.ids packages k := by
  by_cases hk : k.1 = game
  · subst hk
    rw [if_pos rfl, Part.ids, AList.lookup_insert, Option.bind_some]
  · rw [if_neg hk, Part.ids, AList.lookup_insert_ne hk, Part.ids]

/-- Replacing a package by one with the same names changes no id. -/
theorem ids_insert_same {game : GoString} {dp : DataPackage}
    (h : part.get dp = part.get (packages.index game Synthesis.emptyPackage)) :
    part.ids (packages.insert game dp) = part.ids packages := by
  funext k
  rw [ids_insert]
  split
  · next hk => rw [h, ← hk, lookup_get_index]
  · rfl

/-- The synthesis has given these numbers. -/
structure Synthesis.Numbers (part : Part) (s : Synthesis) (t : Interner GameName) : Prop where
  ids_eq : part.ids s.packages = t.number
  next_eq : s.next = t.next

theorem numbers_addName {s : Synthesis} {t : Interner GameName} (h : s.Numbers part t)
    (k : GameName) : (s.addName part k).Numbers part (t.add k) := by
  have hlookup : (part.get (s.packages.index k.1 Synthesis.emptyPackage)).lookup k.2 =
      t.number k := (lookup_get_index k).trans (congrFun h.ids_eq k)
  rw [Synthesis.addName]
  split
  · next hmem =>
    obtain ⟨i, hi⟩ := Option.isSome_iff_exists.mp (AList.lookup_isSome.mpr hmem)
    rw [Interner.add_of_some (hlookup.symm.trans hi)]
    exact h
  · next hmem =>
    rw [Interner.add_of_none (hlookup.symm.trans (AList.lookup_eq_none.mpr hmem))]
    refine ⟨funext fun k' => ?_, congrArg (· + 1) h.next_eq⟩
    rw [ids_insert, part.get_put]
    by_cases hgame : k'.1 = k.1
    · rw [if_pos hgame]
      by_cases hname : k'.2 = k.2
      · obtain rfl : k' = k := Prod.ext hgame hname
        rw [AList.lookup_insert, h.next_eq]
        exact (t.number_assign_self k').symm
      · have hne : k' ≠ k := fun heq => hname (congrArg Prod.snd heq)
        rw [AList.lookup_insert_ne hname, ← hgame, lookup_get_index, h.ids_eq]
        exact (t.number_assign_of_ne k hne).symm
    · have hne : k' ≠ k := fun heq => hgame (congrArg Prod.fst heq)
      rw [if_neg hgame, h.ids_eq]
      exact (t.number_assign_of_ne k hne).symm

theorem numbers_foldl {s : Synthesis} {t : Interner GameName} (h : s.Numbers part t)
    (l : List GameName) :
    (l.foldl (Synthesis.addName part) s).Numbers part (l.foldl Interner.add t) := by
  induction l generalizing s t with
  | nil => exact h
  | cons k l ih => exact ih (numbers_addName h k)

/-- The loop over the one part leaves the ids of the other. -/
theorem ids_foldl_other (hother : ∀ dp m, part.get (other.put dp m) = part.get dp)
    (l : List GameName) (s : Synthesis) :
    part.ids (l.foldl (Synthesis.addName other) s).packages = part.ids s.packages := by
  induction l generalizing s with
  | nil => rfl
  | cons k l ih =>
    refine (ih _).trans ?_
    rw [Synthesis.addName]
    split
    · rfl
    · exact ids_insert_same (hother _ _)

/-- At the start there are no ids. -/
theorem ids_start (games : List GoString) :
    part.ids (Synthesis.start games) = (Interner.start (K := GameName)).number := by
  have hfold : ∀ (l : List GoString) (m : GoMap GoString DataPackage),
      part.ids m = (Interner.start (K := GameName)).number →
      part.ids (l.foldl (fun packages g => packages.insert g Synthesis.emptyPackage) m) =
        (Interner.start (K := GameName)).number := by
    intro l
    induction l with
    | nil => exact fun _ h => h
    | cons g l ih =>
      intro m h
      refine ih _ (funext fun k => ?_)
      rw [ids_insert]
      split
      · rw [part.get_empty, AList.lookup_empty]
        rfl
      · exact congrFun h k
  exact hfold games ∅ rfl

theorem ids_setChecksums (cfg : Config) (playerID : Int) (own : GoString) (games : List GoString)
    (i : Nat) (packages : GoMap GoString DataPackage) :
    part.ids (cfg.setChecksums playerID own i games packages).2 = part.ids packages := by
  induction games generalizing i packages with
  | nil => rfl
  | cons g games ih =>
    simp only [Config.setChecksums]
    split
    · exact ih _ _
    · exact (ih _ _).trans (ids_insert_same (part.get_checksum _ _))

end Loops

/-! ## The ids of a session -/

/-- The checksums and the packages of a room, after the loop that hashes them. -/
theorem Config.openRoom_packages {cfg : Config} {setup : SetupTables} {room : Room}
    (h : cfg.openRoom setup = .ok room) :
    room.checksums = (cfg.setChecksums room.playerID (cfg.data.gamedata room.slot.game).checksum 0
        room.games (Synthesis.packagesFor room.games setup)).1 ∧
      room.dataPackages = (cfg.setChecksums room.playerID
        (cfg.data.gamedata room.slot.game).checksum 0 room.games
          (Synthesis.packagesFor room.games setup)).2 := by
  simp only [Config.openRoom] at h
  split at h
  · cases h
  · split at h
    · cases h
    · cases h
      exact ⟨rfl, rfl⟩

section Ids

variable {cfg : Config} {setup : SetupTables} {room : Room} (h : cfg.openRoom setup = .ok room)

include h

theorem exists_itemNumbering : ∃ t : Interner GameName,
    itemNames.ids room.dataPackages = t.number ∧
      ∀ p ∈ setup.getOwnWorldPlacements, ∀ k, itemKey room.games p = some k →
        ∃ i, t.number k = some i := by
  have hpackages := (Config.openRoom_packages h).2
  have hstart : (⟨Synthesis.start room.games, 1⟩ : Synthesis).Numbers itemNames .start :=
    ⟨ids_start room.games, rfl⟩
  refine ⟨(setup.getOwnWorldPlacements.filterMap (itemKey room.games)).foldl .add .start, ?_,
    fun p hp k hk => ?_⟩
  · rw [hpackages, ids_setChecksums, Synthesis.packagesFor, foldl_addLocation,
      ids_foldl_other (fun _ _ => rfl), foldl_addItem]
    exact (numbers_foldl hstart _).ids_eq
  · exact Interner.exists_number_foldl (List.mem_filterMap.mpr ⟨p, hp, hk⟩) _

theorem exists_locationNumbering : ∃ t : Interner GameName,
    locationNames.ids room.dataPackages = t.number ∧
      ∀ loc ∈ setup.getOwnItemLocations, ∀ k, locationKey room.games loc = some k →
        ∃ i, t.number k = some i := by
  have hpackages := (Config.openRoom_packages h).2
  refine ⟨(setup.getOwnItemLocations.filterMap (locationKey room.games)).foldl .add .start, ?_,
    fun loc hloc k hk => ?_⟩
  · rw [hpackages, ids_setChecksums, Synthesis.packagesFor, foldl_addLocation,
      foldl_addItem]
    refine (numbers_foldl ⟨?_, rfl⟩ _).ids_eq
    -- the items were added, and no location
    rw [ids_foldl_other (fun _ _ => rfl)]
    exact ids_start room.games
  · exact Interner.exists_number_foldl (List.mem_filterMap.mpr ⟨loc, hloc, hk⟩) _

end Ids

/-! ## The lookups -/

/-- The ids of a room are distinct and positive, each name that the loops went
through has one, and where the session looks up such a name it finds its id. -/
structure Room.LookupsFind (room : Room) (cfg : Config) (setup : SetupTables) : Prop where
  items_unique : ∀ k k' i, itemNames.ids room.dataPackages k = some i →
    itemNames.ids room.dataPackages k' = some i → k = k'
  items_pos : ∀ k i, itemNames.ids room.dataPackages k = some i → 1 ≤ i
  locations_unique : ∀ k k' i, locationNames.ids room.dataPackages k = some i →
    locationNames.ids room.dataPackages k' = some i → k = k'
  locations_pos : ∀ k i, locationNames.ids room.dataPackages k = some i → 1 ≤ i
  item : ∀ p ∈ setup.getOwnWorldPlacements, ∀ game, indexed room.games p.ownerID = some game →
    ∃ i, itemNames.ids room.dataPackages (game, prettifyName p.name) = some i
  scouted : ∀ locID ownerID name game, setup.getPlacedItem locID = some (ownerID, name) →
    indexed room.games ownerID = some game → ownerID ≠ room.playerID →
      ∃ item, room.scoutItem cfg setup locID = .ok (some item) ∧ 1 ≤ item.item
  location : ∀ loc ∈ setup.getOwnItemLocations, ∀ game,
    indexed room.games loc.playerID = some game →
      ∃ i, locationNames.ids room.dataPackages (game, loc.name) = some i
  collected : ∀ (db : Savefile) env items, db.toSetupTables = setup →
    room.collectItems cfg (db.getCollectablePlacements env room.playerID) = .ok items →
      ∀ p ∈ items, 1 ≤ p.1.location
  received : ∀ row ∈ setup.ownItemPlacements.rows, ∀ env : Env, ¬env.BindsNull row.itemName →
    ∀ game, indexed room.games (toInt32 row.sourcePlayerID) = some game →
      ∃ id, room.locationID setup env (toInt32 row.sourcePlayerID) row.itemName = .ok id ∧ 1 ≤ id

section Lookups

variable {cfg : Config} {setup : SetupTables} {room : Room}

/-- A package that is found gives the ids of its game. -/
theorem index_of_ids {part : Part} {game name : GoString} {id : Int}
    (hid : part.ids room.dataPackages (game, name) = some id) {i : Int}
    (hgame : indexed room.games i = some game) :
    ∃ dp, room.packageOf i = some dp ∧ (part.get dp).index name 0 = id := by
  obtain ⟨dp, hdp, hname⟩ := Option.bind_eq_some_iff.mp hid
  refine ⟨dp, by rw [Room.packageOf, hgame, Option.bind_some, hdp], ?_⟩
  rw [GoMap.index, hname, Option.getD_some]

/-- The location of an own item in the world of its player. -/
theorem mem_getOwnItemLocations {row : OwnItemRow} (hrow : row ∈ setup.ownItemPlacements.rows) :
    ⟨toInt32 row.sourcePlayerID, row.locationName⟩ ∈ setup.getOwnItemLocations :=
  List.mem_map.mpr ⟨row, (List.mem_insertionSort _).mpr hrow, rfl⟩

/-- The items that are collected are looked up in the worlds they are in. -/
theorem collectItems_location {ps : List OwnItemPlacement} {items : List (NetworkItem × Origin)}
    (hps : ∀ p ∈ ps, ∀ game, indexed room.games p.location.playerID = some game →
      ∃ i, locationNames.ids room.dataPackages (game, p.location.name) = some i ∧ 1 ≤ i)
    (hitems : room.collectItems cfg ps = .ok items) : ∀ p ∈ items, 1 ≤ p.1.location := by
  induction ps generalizing items with
  | nil =>
    cases hitems
    simp
  | cons p ps ih =>
    rw [Room.collectItems] at hitems
    split at hitems
    · cases hitems
    · next fromPkg hpkg =>
      split at hitems
      · cases hitems
      · next rest hrest =>
        cases hitems
        refine List.forall_mem_cons.mpr
          ⟨?_, ih (fun q hq => hps q (List.mem_cons_of_mem p hq)) hrest⟩
        obtain ⟨game, hgame, -⟩ := Option.bind_eq_some_iff.mp hpkg
        obtain ⟨i, hid, hpos⟩ := hps p List.mem_cons_self game hgame
        obtain ⟨dp, hdp, hindex⟩ := index_of_ids hid hgame
        cases hpkg.symm.trans hdp
        exact hindex ▸ hpos

/-- Whatever the nicknames are, the ids of the packages are distinct, and each
later lookup of a name from the tables finds one. -/
theorem openRoom_lookupsFind (h : cfg.openRoom setup = .ok room) : room.LookupsFind cfg setup := by
  obtain ⟨items, hitems, hitem⟩ := exists_itemNumbering h
  obtain ⟨locations, hlocations, hlocation⟩ := exists_locationNumbering h
  have hitem' : ∀ p ∈ setup.getOwnWorldPlacements, ∀ game,
      indexed room.games p.ownerID = some game →
        ∃ i, itemNames.ids room.dataPackages (game, prettifyName p.name) = some i ∧ 1 ≤ i := by
    intro p hp game hgame
    obtain ⟨i, hi⟩ := hitem p hp (game, prettifyName p.name) (by rw [itemKey, hgame]; rfl)
    exact ⟨i, hitems ▸ hi, (items.range _ i hi).1⟩
  have hlocation' : ∀ loc ∈ setup.getOwnItemLocations, ∀ game,
      indexed room.games loc.playerID = some game →
        ∃ i, locationNames.ids room.dataPackages (game, loc.name) = some i ∧ 1 ≤ i := by
    intro loc hloc game hgame
    obtain ⟨i, hi⟩ := hlocation loc hloc (game, loc.name) (by rw [locationKey, hgame]; rfl)
    exact ⟨i, hlocations ▸ hi, (locations.range _ i hi).1⟩
  refine ⟨?_, ?_, ?_, ?_, fun p hp game hgame => ?_, ?_, fun loc hloc game hgame => ?_, ?_, ?_⟩
  · exact hitems ▸ items.injective
  · exact hitems ▸ fun k i hi => (items.range k i hi).1
  · exact hlocations ▸ locations.injective
  · exact hlocations ▸ fun k i hi => (locations.range k i hi).1
  · obtain ⟨i, hi, -⟩ := hitem' p hp game hgame
    exact ⟨i, hi⟩
  · intro locID ownerID name game hplaced hgame hother
    have hp : (⟨locID, ownerID, name⟩ : OwnWorldPlacement) ∈ setup.getOwnWorldPlacements :=
      mem_getOwnWorldPlacements.mpr hplaced
    obtain ⟨i, hi, hpos⟩ := hitem' _ hp game hgame
    obtain ⟨dp, hdp, hindex⟩ := index_of_ids hi hgame
    refine ⟨⟨i, locID, ownerID + 1, 0⟩, ?_, hpos⟩
    rw [Room.scoutItem, hplaced]
    dsimp only
    rw [if_neg hother, hdp, ← hindex]
    rfl
  · obtain ⟨i, hi, -⟩ := hlocation' loc hloc game hgame
    exact ⟨i, hi⟩
  · intro db env items' hdb hcollect
    subst hdb
    refine collectItems_location (fun p hp game hgame => ?_) hcollect
    obtain ⟨row, hrow, rfl⟩ := List.mem_map.mp hp
    have hmem : row ∈ db.ownItemPlacements.rows :=
      (env.scanOwnItems_perm _).mem_iff.mp (List.mem_filter.mp hrow).1
    exact hlocation' _ (mem_getOwnItemLocations hmem) game hgame
  · intro row hrow env hnull game hgame
    obtain ⟨i, hi, hpos⟩ := hlocation' _ (mem_getOwnItemLocations hrow) game hgame
    obtain ⟨dp, hdp, hindex⟩ := index_of_ids hi hgame
    have hloc : setup.getLocationOfOwnItem env row.itemName = some row.locationName := by
      rw [SetupTables.getLocationOfOwnItem, Env.bindString_of_not hnull, Option.bind_some,
        Table.find_eq_some.mpr ⟨hrow, rfl⟩]
      rfl
    refine ⟨i, ?_, hpos⟩
    rw [Room.locationID, hloc]
    dsimp only
    rw [hdp, ← hindex]
    rfl

end Lookups

/-- A room that is opened from a new savefile, by running both. -/
theorem exists_opened (cfg : Config) (result : ResultMessage) (P : SetupTables → Room → Prop)
    [∀ setup room, Decidable (P setup room)]
    (h : (match createSavefile (Env.inOrder false) result [] with
      | .ok db =>
        match cfg.openRoom db.toSetupTables with
        | .ok room => decide (P db.toSetupTables room)
        | .error _ => false
      | .error _ => false) = true) :
    ∃ db room, createSavefile (Env.inOrder false) result [] = .ok db ∧
      cfg.openRoom db.toSetupTables = .ok room ∧ P db.toSetupTables room := by
  split at h
  · next db hdb =>
    split at h
    · next room hroom => exact ⟨db, room, hdb, hroom, of_decide_eq_true h⟩
    · cases h
  · cases h

/-- The session of the sample: a sword of the other player, and a key in its world. -/
theorem openRoom_lookupsFind_sample : ∃ db room,
    createSavefile (Env.inOrder false) sampleResult [] = .ok db ∧
      sampleConfig.openRoom db.toSetupTables = .ok room ∧
      room.LookupsFind sampleConfig db.toSetupTables := by
  obtain ⟨db, room, h, hroom, -⟩ := exists_opened sampleConfig sampleResult (fun _ _ => True)
    (by decide +kernel)
  exact ⟨db, room, h, hroom, openRoom_lookupsFind hroom⟩

/-! ## The checksums -/

/-- The field `checksum` of a package as it is sent. -/
def Approto.GamePackage.checksum : GamePackage → Option GoString
  | .original (.object members) =>
    match members.lookup (lit "checksum") with
    | some (.string s) => some s
    | _ => none
  | .synthetic (some dp) => some dp.checksum
  | _ => none

/-- The checksum announced for each other player is that of the package that is
sent for its game. -/
def Room.ChecksumsMatch (room : Room) (cfg : Config) : Prop :=
  ∀ (i : Nat) game, room.games[i]? = some game → (i : Int) ≠ room.playerID →
    ∃ checksum, room.checksums[i]? = some checksum ∧
      (room.gamePackage cfg game).checksum = some checksum

/-- No two other players have the same nickname, and none has one that gives its
game the name of the own one. -/
structure Room.NamesApart (room : Room) : Prop where
  distinct : ∀ (i j : Nat) name, i < j → room.nicknames[i]? = some name →
    room.nicknames[j]? = some name → (i : Int) = room.playerID ∨ (j : Int) = room.playerID
  foreign : ∀ (i : Nat) name, room.nicknames[i]? = some name →
    name ++ 39 :: lit "s World" = room.slot.game → (i : Int) = room.playerID

/-- The game at the index is one that was made up. -/
def IsOther (playerID : Int) (i : Nat) (games : List GoString) (k : Nat) (game : GoString) : Prop :=
  games[k]? = some game ∧ ((i + k : Nat) : Int) ≠ playerID

section Checksums

variable {cfg : Config} {playerID : Int} {own game : GoString}
  {packages : GoMap GoString DataPackage}

theorem isOther_cons {i k : Nat} {g : GoString} {games : List GoString} :
    IsOther playerID i (g :: games) (k + 1) game ↔ IsOther playerID (i + 1) games k game := by
  rw [IsOther, IsOther, List.getElem?_cons_succ, Nat.add_right_comm, Nat.add_assoc]

/-- The loop leaves the packages of games alone that are not those of other players. -/
theorem lookup_setChecksums (games : List GoString) (i : Nat)
    (h : ∀ k, ¬IsOther playerID i games k game) :
    (cfg.setChecksums playerID own i games packages).2.lookup game = packages.lookup game := by
  induction games generalizing i packages with
  | nil => rfl
  | cons g games ih =>
    have hrest : ∀ k, ¬IsOther playerID (i + 1) games k game :=
      fun k hk => h _ (isOther_cons.mpr hk)
    simp only [Config.setChecksums]
    split
    · exact ih _ hrest
    · next hi =>
      have hne : game ≠ g := by
        rintro rfl
        exact h 0 ⟨rfl, hi⟩
      rw [ih _ hrest, AList.lookup_insert_ne hne]

/-- A checksum that is announced stays, if the game does not come again. -/
theorem checksum_of_last (games : List GoString) (i k : Nat) (hk : IsOther playerID i games k game)
    (hlast : ∀ l, k < l → ¬IsOther playerID i games l game) :
    ∃ dp, (cfg.setChecksums playerID own i games packages).1[k]? = some dp.checksum ∧
      (cfg.setChecksums playerID own i games packages).2.lookup game = some dp := by
  induction games generalizing i k packages with
  | nil => cases hk.1
  | cons g games ih =>
    cases k with
    | zero =>
      obtain ⟨hgame, hi⟩ := hk
      have hi : (i : Int) ≠ playerID := hi
      cases hgame
      simp only [Config.setChecksums]
      rw [if_neg hi]
      have hrest : ∀ l, ¬IsOther playerID (i + 1) games l game :=
        fun l hl => hlast (l + 1) (Nat.succ_pos l) (isOther_cons.mpr hl)
      refine ⟨_, rfl, ?_⟩
      rw [lookup_setChecksums games _ hrest, AList.lookup_insert]
    | succ k =>
      have hlast' : ∀ l, k < l → ¬IsOther playerID (i + 1) games l game :=
        fun l hl hother => hlast (l + 1) (Nat.succ_lt_succ hl) (isOther_cons.mpr hother)
      simp only [Config.setChecksums]
      split
      · exact ih _ _ (isOther_cons.mp hk) hlast'
      · exact ih _ _ (isOther_cons.mp hk) hlast'

/-- What is announced under a hash that is always the same. -/
theorem checksum_of_constant {c : GoString} (hc : ∀ dp, cfg.hash dp = c) (games : List GoString)
    (i k : Nat) (hk : IsOther playerID i games k game) :
    (cfg.setChecksums playerID own i games packages).1[k]? = some c := by
  induction games generalizing i k packages with
  | nil => cases hk.1
  | cons g games ih =>
    cases k with
    | zero =>
      have hi : (i : Int) ≠ playerID := hk.2
      simp only [Config.setChecksums]
      rw [if_neg hi]
      exact congrArg some (hc _)
    | succ k =>
      simp only [Config.setChecksums]
      split
      · exact ih _ _ (isOther_cons.mp hk)
      · exact ih _ _ (isOther_cons.mp hk)

/-- The length of the checksum of a game. -/
def checksumLength (packages : GoMap GoString DataPackage) (game : GoString) : Nat :=
  (packages.index game Synthesis.emptyPackage).checksum.length

/-- A hash that is longer than the checksum it covers. -/
def growing (dp : DataPackage) : GoString := dp.checksum ++ [0]

theorem checksumLength_insert {g : GoString} :
    checksumLength (packages.insert g
        (cfg.setChecksum (packages.index g Synthesis.emptyPackage))) game =
      if game = g then (cfg.hash (packages.index g Synthesis.emptyPackage)).length
      else checksumLength packages game := by
  by_cases hgame : game = g
  · subst hgame
    rw [if_pos rfl, checksumLength, GoMap.index, AList.lookup_insert]
    rfl
  · rw [if_neg hgame, checksumLength, GoMap.index, AList.lookup_insert_ne hgame]
    rfl

/-- Under such a hash each turn makes the checksum of its game longer. -/
theorem checksumLength_growing (hgrow : cfg.hash = growing) (g : GoString) :
    checksumLength (packages.insert g
        (cfg.setChecksum (packages.index g Synthesis.emptyPackage))) game =
      checksumLength packages game + if game = g then 1 else 0 := by
  rw [checksumLength_insert, hgrow]
  by_cases hgame : game = g
  · subst hgame
    rw [if_pos rfl, if_pos rfl, growing, List.length_append]
    rfl
  · rw [if_neg hgame, if_neg hgame, Nat.add_zero]

theorem checksumLength_le (hgrow : cfg.hash = growing) (games : List GoString) (i : Nat) :
    checksumLength packages game ≤
      checksumLength (cfg.setChecksums playerID own i games packages).2 game := by
  induction games generalizing i packages with
  | nil => exact Nat.le_refl _
  | cons g games ih =>
    simp only [Config.setChecksums]
    split
    · exact ih _
    · refine Nat.le_trans ?_ (ih _)
      rw [checksumLength_growing hgrow]
      exact Nat.le_add_right _ _

theorem checksumLength_lt (hgrow : cfg.hash = growing) (games : List GoString) (i k : Nat)
    (hk : IsOther playerID i games k game) : checksumLength packages game <
      checksumLength (cfg.setChecksums playerID own i games packages).2 game := by
  induction games generalizing i k packages with
  | nil => cases hk.1
  | cons g games ih =>
    cases k with
    | zero =>
      obtain ⟨hgame, hi⟩ := hk
      have hi : (i : Int) ≠ playerID := hi
      cases hgame
      simp only [Config.setChecksums]
      rw [if_neg hi]
      refine Nat.lt_of_lt_of_le ?_ (checksumLength_le hgrow games (i + 1))
      rw [checksumLength_growing hgrow, if_pos rfl]
      exact Nat.lt_succ_self _
    | succ k =>
      simp only [Config.setChecksums]
      split
      · exact ih _ _ (isOther_cons.mp hk)
      · refine Nat.lt_of_le_of_lt ?_ (ih _ _ (isOther_cons.mp hk))
        rw [checksumLength_growing hgrow]
        exact Nat.le_add_right _ _

/-- Where the game comes again, the checksum that was announced before is shorter
than the one it has in the end. -/
theorem announced_lt (hgrow : cfg.hash = growing) (games : List GoString) (i k l : Nat)
    (hkl : k < l) (hk : IsOther playerID i games k game) (hl : IsOther playerID i games l game)
    {c : GoString} (hc : (cfg.setChecksums playerID own i games packages).1[k]? = some c) :
    c.length < checksumLength (cfg.setChecksums playerID own i games packages).2 game := by
  induction games generalizing i k l packages with
  | nil => cases hk.1
  | cons g games ih =>
    obtain ⟨l, rfl⟩ := Nat.exists_eq_succ_of_ne_zero (Nat.ne_zero_of_lt hkl)
    replace hl := isOther_cons.mp hl
    simp only [Config.setChecksums] at hc ⊢
    cases k with
    | zero =>
      obtain ⟨hgame, hi⟩ := hk
      have hi : (i : Int) ≠ playerID := hi
      cases hgame
      rw [if_neg hi] at hc ⊢
      cases hc
      have hlt := @checksumLength_lt cfg playerID own game (packages.insert game
        (cfg.setChecksum (packages.index game Synthesis.emptyPackage))) hgrow games (i + 1) l hl
      rw [checksumLength_insert, if_pos rfl] at hlt
      exact hlt
    | succ k =>
      split at hc
      · next hi =>
        rw [if_pos hi]
        exact ih _ _ _ (Nat.lt_of_succ_lt_succ hkl) (isOther_cons.mp hk) hl hc
      · next hi =>
        rw [if_neg hi]
        exact ih _ _ _ (Nat.lt_of_succ_lt_succ hkl) (isOther_cons.mp hk) hl hc

end Checksums

section Announced

variable {cfg : Config} {setup : SetupTables} {room : Room}

/-- The room that is opened under another hash. -/
def Room.rehash (room : Room) (cfg : Config) (setup : SetupTables)
    (hash : DataPackage → GoString) : Room :=
  let announced := Config.setChecksums { cfg with hash := hash } room.playerID
    (cfg.data.gamedata room.slot.game).checksum 0 room.games
    (Synthesis.packagesFor room.games setup)
  { room with checksums := announced.1, dataPackages := announced.2 }

/-- The hash has no part in anything else. -/
theorem Config.openRoom_rehash (h : cfg.openRoom setup = .ok room)
    (hash : DataPackage → GoString) :
    Config.openRoom { cfg with hash := hash } setup = .ok (room.rehash cfg setup hash) := by
  simp only [Config.openRoom] at h ⊢
  split at h
  · cases h
  · split at h
    · cases h
    · cases h
      rfl

theorem Config.openRoom_games (h : cfg.openRoom setup = .ok room) :
    room.games = gameNames room.playerID room.slot room.nicknames := by
  simp only [Config.openRoom] at h
  split at h
  · cases h
  · split at h
    · cases h
    · cases h
      rfl

/-- The game of another player is called after its nickname. -/
theorem games_of_other (h : cfg.openRoom setup = .ok room) {i : Nat}
    (hi : (i : Int) ≠ room.playerID) :
    room.games[i]? = room.nicknames[i]?.map fun name => name ++ 39 :: lit "s World" := by
  rw [Config.openRoom_games h, gameNames, List.getElem?_mapIdx]
  cases room.nicknames[i]? with
  | none => rfl
  | some name => exact congrArg some (if_neg hi)

theorem isOther_room {i : Nat} {game : GoString} :
    IsOther room.playerID 0 room.games i game ↔
      room.games[i]? = some game ∧ (i : Int) ≠ room.playerID := by
  rw [IsOther, Nat.zero_add]

/-- Where the names are apart no game of another player comes twice. -/
theorem NamesApart.once (h : cfg.openRoom setup = .ok room) (hroom : room.NamesApart) {i : Nat}
    {game : GoString} (hgame : room.games[i]? = some game) (hi : (i : Int) ≠ room.playerID) :
    game ≠ room.slot.game ∧ ∀ j, i < j → ¬IsOther room.playerID 0 room.games j game := by
  have hname := hgame
  rw [games_of_other h hi] at hname
  obtain ⟨name, hnick, rfl⟩ := Option.map_eq_some_iff.mp hname
  refine ⟨fun hown => hi (hroom.foreign i name hnick hown), fun j hij hother => ?_⟩
  obtain ⟨hgame', hj⟩ := isOther_room.mp hother
  rw [games_of_other h hj] at hgame'
  obtain ⟨name', hnick', heq⟩ := Option.map_eq_some_iff.mp hgame'
  cases List.append_cancel_right heq
  rcases hroom.distinct i j name hij hnick hnick' with hi' | hj'
  · exact hi hi'
  · exact hj hj'

theorem checksumsMatch_of_apart (h : cfg.openRoom setup = .ok room) (hroom : room.NamesApart) :
    room.ChecksumsMatch cfg := by
  intro i game hgame hi
  obtain ⟨hown, honce⟩ := NamesApart.once h hroom hgame hi
  obtain ⟨hchecksums, hpackages⟩ := Config.openRoom_packages h
  obtain ⟨dp, hsent, hdp⟩ := @checksum_of_last cfg room.playerID
    (cfg.data.gamedata room.slot.game).checksum game
    (Synthesis.packagesFor room.games setup) room.games 0 i
    (isOther_room.mpr ⟨hgame, hi⟩) honce
  refine ⟨dp.checksum, hchecksums ▸ hsent, ?_⟩
  rw [Room.gamePackage, if_neg hown, hpackages, hdp]
  rfl

/-- The length of the checksum of a package that is made up. -/
theorem length_of_synthetic {packages : GoMap GoString DataPackage} {game c : GoString}
    (hc : (GamePackage.synthetic (packages.lookup game)).checksum = some c) :
    c.length = checksumLength packages game := by
  rw [checksumLength, GoMap.index]
  cases hdp : packages.lookup game with
  | none =>
    rw [hdp] at hc
    cases hc
  | some dp =>
    rw [hdp] at hc
    cases hc
    rfl

/-- The checksum announced for each other player is that of the package sent for its
game, for every hash, exactly where no other player has the nickname of a third or one
that gives its game the name of the own game. -/
theorem checksumsMatch_iff (h : cfg.openRoom setup = .ok room) :
    (∀ hash room', Config.openRoom { cfg with hash := hash } setup = .ok room' →
      room'.ChecksumsMatch cfg) ↔ room.NamesApart := by
  have hopened := Config.openRoom_rehash h
  refine ⟨fun hall => ?_, fun hroom hash room' h' => ?_⟩
  · have hforeign : ∀ (i : Nat) name, room.nicknames[i]? = some name →
        name ++ 39 :: lit "s World" = room.slot.game → (i : Int) = room.playerID := by
      intro i name hnick hown
      by_contra hi
      have hgame : room.games[i]? = some room.slot.game := by
        rw [games_of_other h hi, hnick, ← hown]
        rfl
      let original := GamePackage.original (cfg.data.gamedata room.slot.game).original
      -- a hash that is never the checksum of the original package
      let other := (original.checksum.getD []) ++ [0]
      obtain ⟨c, hsent, hc⟩ := hall (fun _ => other) _ (hopened _) i _ hgame hi
      cases (checksum_of_constant (fun _ => rfl) room.games 0 i
        (isOther_room.mpr ⟨hgame, hi⟩)).symm.trans hsent
      have horiginal : original.checksum = some other := by
        rw [Room.gamePackage] at hc
        exact (if_pos rfl ▸ hc :)
      have hlen := congrArg (fun c => (Option.getD c []).length) horiginal
      simp only [other, Option.getD_some, List.length_append, List.length_singleton] at hlen
      omega
    refine ⟨fun i j name hij hi hj => ?_, hforeign⟩
    by_contra! hne
    obtain ⟨hi', hj'⟩ := hne
    have hgame := games_of_other h hi'
    have hgame' := games_of_other h hj'
    rw [hi, Option.map_some] at hgame
    rw [hj, Option.map_some] at hgame'
    obtain ⟨c, hsent, hc⟩ := hall growing _ (hopened _) i _ hgame hi'
    have hlt := @announced_lt { cfg with hash := growing } _ _ _ _ rfl room.games 0 i j hij
      (isOther_room.mpr ⟨hgame, hi'⟩) (isOther_room.mpr ⟨hgame', hj'⟩) _ hsent
    have hown : name ++ 39 :: lit "s World" ≠ room.slot.game :=
      fun heq => hi' (hforeign i name hi heq)
    have hserved : (GamePackage.synthetic
        ((room.rehash cfg setup growing).dataPackages.lookup
          (name ++ 39 :: lit "s World"))).checksum = some c := by
      rw [Room.gamePackage] at hc
      exact (if_neg hown ▸ hc :)
    have hlen := length_of_synthetic hserved
    exact Nat.lt_irrefl _ (hlen ▸ hlt)
  · cases (hopened hash).symm.trans h'
    exact @checksumsMatch_of_apart { cfg with hash := hash } _ _ (hopened hash)
      ⟨hroom.distinct, hroom.foreign⟩

/-- A result for three players, of which the others have one nickname. -/
def namesakes : ResultMessage := { sampleResult with nicknames := [lit "A", lit "B", lit "B"] }

/-- The first of them gets the checksum of the package before the second has its turn. -/
theorem namesakes_are_stale : ¬∀ (cfg : Config) (result : ResultMessage) (db : Savefile)
    (room : Room), createSavefile (Env.inOrder false) result [] = .ok db →
      cfg.openRoom db.toSetupTables = .ok room → room.ChecksumsMatch cfg := by
  intro hall
  let cfg := { sampleConfig with hash := growing }
  obtain ⟨db, room, h, hroom, hgame, hi, hsent, hserved⟩ :=
    exists_opened cfg namesakes
      (fun _ room => room.games[1]? = some (lit "B's World") ∧ (1 : Int) ≠ room.playerID ∧
        room.checksums[1]? = some [0] ∧
          (room.gamePackage cfg (lit "B's World")).checksum = some [0, 0])
      (by decide +kernel)
  obtain ⟨c, hc, hmatch⟩ := hall cfg namesakes db room h hroom 1 _ hgame hi
  cases hsent.symm.trans hc
  cases hserved.symm.trans hmatch

/-- In the sample the names are apart. -/
theorem checksumsMatch_iff_sample : ∃ db room,
    createSavefile (Env.inOrder false) sampleResult [] = .ok db ∧
      sampleConfig.openRoom db.toSetupTables = .ok room ∧
      ((∀ hash room', Config.openRoom { sampleConfig with hash := hash } db.toSetupTables =
        .ok room' → room'.ChecksumsMatch sampleConfig) ↔ room.NamesApart) := by
  obtain ⟨db, room, h, hroom, -⟩ := exists_opened sampleConfig sampleResult (fun _ _ => True)
    (by decide +kernel)
  exact ⟨db, room, h, hroom, checksumsMatch_iff hroom⟩

end Announced

end Isthmus
