import Isthmus.Apdata
import Isthmus.Savefile

/-!
# What a session is built from

Before its message loop the program reads the seed and the tables of the setup
and makes up a game, with its own synthetic ids, for each other player. All of
it stays fixed for the session.
-/

namespace Isthmus

open Mwproto Approto

/-- What the program is run with: the seed, the hash behind the checksum of a
data package, and the evaluation of a `Set` on the value its key has. -/
structure Config where
  data : Apdata
  hash : DataPackage → GoString
  evaluate : Option GoString → SetMessage → Except Stop GoString

/-- The element at a Go index; `none` is an index out of range. -/
def indexed {α : Type} (l : List α) (i : Int) : Option α := if 0 ≤ i then l[i.toNat]? else none

theorem indexed_eq_some {α : Type} {l : List α} {i : Int} {a : α} (h : indexed l i = some a) :
    0 ≤ i ∧ i < l.length ∧ a ∈ l := by
  simp only [indexed] at h
  split at h
  · next hi =>
    obtain ⟨hlt, rfl⟩ := List.getElem?_eq_some_iff.mp h
    exact ⟨hi, by omega, List.getElem_mem hlt⟩
  · cases h

theorem exists_indexed {α : Type} {l : List α} {i : Int} (h0 : 0 ≤ i) (h : i < l.length) :
    ∃ a, indexed l i = some a := by
  have hlt : i.toNat < l.length := by omega
  refine ⟨l[i.toNat], ?_⟩
  rw [indexed, if_pos h0]
  exact List.getElem?_eq_getElem hlt

def prettifyName (name : GoString) : GoString :=
  Strings.replaceByte 95 32 (stripDiscriminator name)

/-- The data packages made up so far, and the next synthetic id. -/
structure Synthesis where
  packages : GoMap GoString DataPackage
  next : Int

namespace Synthesis

def emptyPackage : DataPackage := ⟨∅, ∅, []⟩

/-- The empty packages of the games. A game that occurs again starts over. -/
def start (games : List GoString) : GoMap GoString DataPackage :=
  games.foldl (fun packages g => packages.insert g emptyPackage) ∅

/-- Give the item of a placement an id in the package of its owner's game. An
owner out of range is skipped. -/
def addItem (games : List GoString) (s : Synthesis) (p : OwnWorldPlacement) : Synthesis :=
  match indexed games p.ownerID with
  | none => s
  | some game =>
    let dp := s.packages.index game emptyPackage
    let prettyItem := prettifyName p.name
    if prettyItem ∈ dp.itemNameToID then s
    else
      ⟨s.packages.insert game { dp with itemNameToID := dp.itemNameToID.insert prettyItem s.next },
        s.next + 1⟩

/-- The same for a location of another world that holds an own item. -/
def addLocation (games : List GoString) (s : Synthesis) (loc : QualifiedLocation) : Synthesis :=
  match indexed games loc.playerID with
  | none => s
  | some game =>
    let dp := s.packages.index game emptyPackage
    if loc.name ∈ dp.locationNameToID then s
    else
      ⟨s.packages.insert game
          { dp with locationNameToID := dp.locationNameToID.insert loc.name s.next },
        s.next + 1⟩

/-- The packages after both loops; each counts its ids from 1. -/
def packagesFor (games : List GoString) (setup : SetupTables) : GoMap GoString DataPackage :=
  let items := setup.getOwnWorldPlacements.foldl (addItem games) ⟨start games, 1⟩
  (setup.getOwnItemLocations.foldl (addLocation games) ⟨items.packages, 1⟩).packages

end Synthesis

/-- `DataPackage.SetChecksum`: the hash covers the checksum that was there. -/
def Config.setChecksum (cfg : Config) (dp : DataPackage) : DataPackage :=
  { dp with checksum := cfg.hash dp }

/-- The checksums announced for the games from index `i` on, with the packages
as they are afterwards. The own game keeps the checksum of the generator. -/
def Config.setChecksums (cfg : Config) (playerID : Int) (own : GoString) :
    Nat → List GoString → GoMap GoString DataPackage → List GoString × GoMap GoString DataPackage
  | _, [], packages => ([], packages)
  | i, g :: games, packages =>
    if (i : Int) = playerID then
      let rest := cfg.setChecksums playerID own (i + 1) games packages
      (own :: rest.1, rest.2)
    else
      let dp := cfg.setChecksum (packages.index g Synthesis.emptyPackage)
      let rest := cfg.setChecksums playerID own (i + 1) games (packages.insert g dp)
      (dp.checksum :: rest.1, rest.2)

/-- What is fixed for a session. -/
structure Room where
  slotID : Int
  slot : Apslot
  nicknames : List GoString
  playerID : Int
  randoID : Int
  games : List GoString
  checksums : List GoString
  dataPackages : GoMap GoString DataPackage

/-- The only entry of a map of one entry. -/
def singularEntry (m : GoMap Int Apslot) : Except Stop (Int × Apslot) :=
  match m.entries with
  | [⟨id, slot⟩] => .ok (id, slot)
  | _ => .error .malformed

/-- The own game at the own index, and a made up one for each other player. -/
def gameNames (playerID : Int) (slot : Apslot) (nicknames : List GoString) : List GoString :=
  nicknames.mapIdx fun i name => if (i : Int) = playerID then slot.game else name ++ 39 :: lit "s World"

/-- What `playMWWithConn` computes before its message loop. -/
def Config.openRoom (cfg : Config) (setup : SetupTables) : Except Stop Room :=
  match singularEntry cfg.data.slotInfo with
  | .error e => .error e
  | .ok (slotID, slot) =>
    match setup.getConnectionParams with
    | .error e => .error e
    | .ok (playerID, randoID) =>
      let nicknames := setup.getNicknames
      let games := gameNames playerID slot nicknames
      let packages := Synthesis.packagesFor games setup
      let announced :=
        cfg.setChecksums playerID (cfg.data.gamedata slot.game).checksum 0 games packages
      .ok ⟨slotID, slot, nicknames, playerID, randoID, games, announced.1, announced.2⟩

/-- The state of the message loop. -/
structure Session extends Room where
  itemHandling : ItemHandlingMode
  watchedKeys : List GoString

/-- Before a `Connect` no item is handled and no key is watched. -/
def Room.enter (room : Room) : Session := ⟨room, 0, []⟩

namespace Room

/-- The data package of the game of a player; `none` is a panic. -/
def packageOf (room : Room) (i : Int) : Option DataPackage :=
  (indexed room.games i).bind room.dataPackages.lookup

/-- Every game has a data package. -/
def Complete (room : Room) : Prop := ∀ g ∈ room.games, ∃ dp, room.dataPackages.lookup g = some dp

theorem Complete.packageOf {room : Room} (h : room.Complete) {i : Int} {g : GoString}
    (hg : indexed room.games i = some g) : ∃ dp, room.packageOf i = some dp := by
  obtain ⟨dp, hdp⟩ := h g (indexed_eq_some hg).2.2
  exact ⟨dp, by rw [Room.packageOf, hg, Option.bind_some, hdp]⟩

end Room

section Complete

variable {games : List GoString}

theorem Synthesis.mem_start {g : GoString} (hg : g ∈ games) : g ∈ start games := by
  have keep : ∀ (l : List GoString) (m : GoMap GoString DataPackage), g ∈ m ∨ g ∈ l →
      g ∈ l.foldl (fun packages g => packages.insert g emptyPackage) m := by
    intro l
    induction l with
    | nil =>
      intro m h
      simpa using h
    | cons g' l ih =>
      intro m h
      refine ih _ ?_
      rw [AList.mem_insert]
      rcases h with h | h
      · exact .inl (.inr h)
      · rcases List.mem_cons.mp h with rfl | h
        · exact .inl (.inl rfl)
        · exact .inr h
  exact keep games ∅ (.inr hg)

theorem Synthesis.mem_addItem {s : Synthesis} {p : OwnWorldPlacement} {g : GoString}
    (h : g ∈ s.packages) : g ∈ (addItem games s p).packages := by
  simp only [addItem]
  split
  · exact h
  · split
    · exact h
    · exact (AList.mem_insert _).mpr (.inr h)

theorem Synthesis.mem_addLocation {s : Synthesis} {loc : QualifiedLocation} {g : GoString}
    (h : g ∈ s.packages) : g ∈ (addLocation games s loc).packages := by
  simp only [addLocation]
  split
  · exact h
  · split
    · exact h
    · exact (AList.mem_insert _).mpr (.inr h)

/-- A fold whose steps keep every package keeps every package. -/
private theorem mem_foldl {β : Type} {f : Synthesis → β → Synthesis} {g : GoString}
    (hf : ∀ s b, g ∈ s.packages → g ∈ (f s b).packages) (l : List β) {s : Synthesis}
    (h : g ∈ s.packages) : g ∈ (l.foldl f s).packages := by
  induction l generalizing s with
  | nil => exact h
  | cons b l ih => exact ih (hf s b h)

theorem Synthesis.mem_packagesFor {setup : SetupTables} {g : GoString} (hg : g ∈ games) :
    g ∈ packagesFor games setup :=
  mem_foldl (fun _ _ => mem_addLocation) _ (mem_foldl (fun _ _ => mem_addItem) _ (mem_start hg))

theorem Config.mem_setChecksums {cfg : Config} {playerID : Int} {own g : GoString}
    (games : List GoString) (i : Nat) {packages : GoMap GoString DataPackage}
    (h : g ∈ packages) : g ∈ (cfg.setChecksums playerID own i games packages).2 := by
  induction games generalizing i packages with
  | nil => exact h
  | cons g' games ih =>
    simp only [Config.setChecksums]
    split
    · exact ih _ h
    · exact ih _ ((AList.mem_insert _).mpr (.inr h))

end Complete

/-- What `openRoom` reads from the tables and what it establishes. -/
theorem Config.openRoom_ok {cfg : Config} {setup : SetupTables} {room : Room}
    (h : cfg.openRoom setup = .ok room) :
    (∃ randoID, setup.getConnectionParams = .ok (room.playerID, randoID)) ∧
      room.nicknames = setup.getNicknames ∧ room.games.length = room.nicknames.length ∧
      room.Complete := by
  simp only [Config.openRoom] at h
  split at h
  · cases h
  · split at h
    · cases h
    · next playerID randoID hparams =>
      cases h
      refine ⟨⟨randoID, hparams⟩, rfl, by simp [gameNames], ?_⟩
      intro g hg
      exact Option.isSome_iff_exists.mp (AList.lookup_isSome.mpr
        (Config.mem_setChecksums _ _ (Synthesis.mem_packagesFor hg)))

/-- A seed for one slot, with a local item at a location of its own. -/
def sampleConfig : Config where
  data :=
    { locations := (∅ : GoMap Int (GoMap Int (List Int))).insert 1
        ((∅ : GoMap Int (List Int)).insert 9 [30, 1, 0])
      datapackage := (∅ : GoMap GoString Apgamedata).insert (lit "G")
        ⟨((∅ : GoMap GoString Int).insert (lit "Lamp") 10).insert (lit "Key") 11,
          ((∅ : GoMap GoString Int).insert (lit "Gate") 7).insert (lit "Well") 8, [], .null⟩
      slotInfo := (∅ : GoMap Int Apslot).insert 1 ⟨lit "A", lit "G"⟩
      slotData := ∅ }
  hash := fun _ => []
  evaluate := fun _ _ => .error .malformed

end Isthmus
