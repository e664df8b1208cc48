import Isthmus.Convert
import Isthmus.Logged
import Isthmus.SetupMW

/-!
# Items of the seed that come back

The generator's seed is announced to the MW server item by item, under names that carry a
number. Whoever finds such an item sends it back by that name, and it is logged with the id
that the generator had placed.

## Main results

- `announced_items_come_back`: over both modes of the program
-/

namespace Isthmus

open Process Mwproto Approto Pipes Talks

section Seed

variable {data : Archipelago} {out : List Placement}

/-- An announced item leads back to the location and to the item placed there. -/
theorem exists_placedAt (h : apToMWPlacements data = .ok out) {p : Placement} (hp : p ∈ out) :
    ∃ slotID dpkg loc, singularKey data.slotInfo = .ok slotID ∧
      data.datapackage.lookup (data.slotInfo.index slotID ⟨[], []⟩).game = some dpkg ∧
      loc ∈ data.placedLocations slotID ∧ data.PlacedAt slotID dpkg loc p := by
  obtain ⟨slotID, dpkg, itemNames, locationNames, hslot, hdpkg, hitems, hout⟩ :=
    apToMWPlacements_ok h
  obtain ⟨new, rfl, hnew⟩ := placeLocations_ok hout
  obtain ⟨i, hi, rfl⟩ := List.getElem_of_mem hp
  obtain ⟨hlen, hall⟩ := List.forall₂_iff_get.mp hnew
  rw [List.length_zipIdx] at hlen
  obtain ⟨loc, hmem, itemID, rest, itemName, locName, hloc, hname, heq⟩ :
      ∃ loc ∈ data.placedLocations slotID,
        PlacedAfter itemNames (data.locations.index slotID ∅) loc (out[i], i) := by
    refine ⟨_, List.getElem_mem (hlen ▸ hi), ?_⟩
    simpa [Archipelago.placedLocations] using hall i (hlen ▸ hi) (by rwa [List.length_zipIdx])
  refine ⟨slotID, dpkg, loc, hslot, hdpkg, hmem, ?_⟩
  rw [show out[i] = _ from heq]
  refine ⟨parseDiscriminator_discriminated locName loc, itemID, rest, hloc, ?_⟩
  rw [stripDiscriminator_discriminated]
  exact lookup_of_invert hitems hname

/-- The slot of a room is the single one of the seed. -/
theorem slot_of_openRoom {cfg : Config} {setup : SetupTables} {room : Room}
    (h : cfg.openRoom setup = .ok room) {slotID : Int}
    (hslot : singularKey cfg.data.slotInfo = .ok slotID) :
    room.slot = cfg.data.slotInfo.index slotID ⟨[], []⟩ := by
  have hsingle : singularEntry cfg.data.slotInfo = .ok (room.slotID, room.slot) := by
    simp only [Config.openRoom] at h
    split at h
    · cases h
    · next hsingle =>
      split at h
      · cases h
      · cases h
        exact hsingle
  simp only [singularEntry] at hsingle
  simp only [singularKey] at hslot
  split at hsingle
  · next id slot hentries =>
    cases hsingle
    rw [hentries] at hslot
    cases hslot
    have hmem : ⟨room.slotID, room.slot⟩ ∈ cfg.data.slotInfo.entries := by
      rw [hentries]
      exact List.mem_singleton_self _
    rw [GoMap.index, AList.mem_lookup_iff.mpr hmem, Option.getD_some]
  · cases hsingle

end Seed

/-- An item that the MW server was told of is logged with the id that the generator placed,
whenever it comes back under its name. -/
theorem placed_items_come_back {data : Archipelago} {out : List Placement}
    (hconv : apToMWPlacements data = .ok out) {cfg : Config} (hcfg : cfg.data = data.toApdata)
    {env : Env} {result : ResultMessage} {precollectedItems : List Int} {db : Savefile}
    (hdb : createSavefile env result precollectedItems = .ok db) (es : List Event) :
    ∀ row ∈ (play cfg db es).db.sentItems, ∀ p ∈ out, ∀ label,
      row.origin = .delivered label p.item ∨ row.origin = .collected p.item →
        ∃ slotID loc rest, singularKey data.slotInfo = .ok slotID ∧
          loc ∈ data.placedLocations slotID ∧ parseDiscriminator p.location = some loc.toInt ∧
            data.locationOf slotID loc.toInt = some (row.itemID :: rest) := by
  intro row hrow p hp label horigin
  obtain ⟨slotID, dpkg, loc, hslot, hdpkg, hloc, hplaced⟩ := exists_placedAt hconv hp
  obtain ⟨itemID, rest, hitem, hid⟩ := hplaced.item
  have hrowID : row.itemID = itemID := by
    obtain hold | ⟨room, hroom, m, -, hright⟩ := right_play cfg db es row hrow
    · have hpre := (createSavefile_fresh hdb).sent row hold
      rw [hpre] at horigin
      obtain horigin | horigin := horigin <;> cases horigin
    · have hrow : row.itemID = room.ownItemID cfg p.item := hright.itemID horigin
      rw [← hcfg] at hslot
      have hslot' := slot_of_openRoom hroom hslot
      have hgame : cfg.data.gamedata room.slot.game = dpkg := by
        rw [hslot', hcfg, Apdata.gamedata]
        exact congrArg (Option.getD · _) hdpkg
      rw [hrow, Room.ownItemID, hgame, GoMap.index, hid, Option.getD_some]
  exact ⟨slotID, loc, rest, hslot, hloc, hplaced.location, hrowID ▸ hitem⟩

/-- The same over both modes of the program: an item that `setupMW` announced, in whatever
order the goroutines ran, has its id when it comes back in a run on the savefile that was
created. -/
theorem announced_items_come_back {data : Archipelago} {mwroom : GoString} {t : Conversation}
    (hsetup : setupMW mwroom data = .ok t) (ms : List SetupMW.Move) {result : ResultMessage}
    (hresult : (last SetupMW.move (SetupMW.start t) ms).talk = .stop (.ok result))
    {cfg : Config} (hcfg : cfg.data = data.toApdata) {env : Env} {precollectedItems : List Int}
    {db : Savefile} (hdb : createSavefile env result precollectedItems = .ok db)
    (es : List Event) :
    ∀ row ∈ (play cfg db es).db.sentItems, ∀ g,
      .randoGenerated g ∈ said (flow SetupMW.move SetupMW.talked (SetupMW.start t) ms) →
        ∀ p ∈ g.items.index singularItemGroup [], ∀ label,
          row.origin = .delivered label p.item ∨ row.origin = .collected p.item →
            ∃ slotID loc rest, singularKey data.slotInfo = .ok slotID ∧
              loc ∈ data.placedLocations slotID ∧ parseDiscriminator p.location = some loc.toInt ∧
                data.locationOf slotID loc.toInt = some (row.itemID :: rest) := by
  intro row hrow g hg p hp label horigin
  obtain ⟨nickname, mwPlacements, hconv, rfl⟩ := setupMW_ok hsetup
  rw [SetupMW.said_of_stopped hresult] at hg
  obtain rfl : g = ⟨AList.singleton singularItemGroup mwPlacements, 666666666⟩ := by
    simpa [saidToComplete, randoGenerated] using hg
  have hmem : p ∈ mwPlacements := by
    rwa [GoMap.index, ← AList.insert_empty, AList.lookup_insert, Option.getD_some] at hp
  exact placed_items_come_back hconv hcfg hdb es row hrow p hmem label horigin

/-- The lamp of the sample seed is delivered by the name that it was announced under. -/
def lampComesBack : List Event :=
  [.connect, .handle (Env.inOrder false)
    (.fromMW (.dataReceive ⟨labelMultiworldItem, lit "Lamp_(3)_(0)", lit "B", 1⟩))]

/-- The server sends a message, and it is heard. -/
def SetupMW.hears (m : Message) : List SetupMW.Move :=
  [.mw (.read m), .mw .push, .mw .pull, .mw .forward, .receive]

def sampleInvitation : List SetupMW.Move :=
  .send :: SetupMW.hears (.connect ⟨[]⟩) ++ .send :: SetupMW.hears (.readyConfirm ⟨1, [lit "A"]⟩) ++
    SetupMW.hears .requestRando ++ .send :: SetupMW.hears (.result sampleResult)

theorem announced_items_come_back_sample : ∃ t db row,
    setupMW (lit "eggu") sampleArchipelago = .ok t ∧
      createSavefile (Env.inOrder false) sampleResult [] = .ok db ∧
      row ∈ (play { sampleConfig with data := sampleArchipelago.toApdata } db
        lampComesBack).db.sentItems ∧
      ∃ slotID loc rest, singularKey sampleArchipelago.slotInfo = .ok slotID ∧
        loc ∈ sampleArchipelago.placedLocations slotID ∧
          parseDiscriminator (lit "Gate)_(7)") = some loc.toInt ∧
            sampleArchipelago.locationOf slotID loc.toInt = some (row.itemID :: rest) := by
  obtain ⟨db, h, hlog⟩ := exists_created
    (x := createSavefile (Env.inOrder false) sampleResult [])
    (P := fun db => .delivered labelMultiworldItem (lit "Lamp_(3)_(0)") ∈
      (play { sampleConfig with data := sampleArchipelago.toApdata } db
        lampComesBack).db.sentItems.map SentRow.origin)
    (by decide +kernel)
  obtain ⟨row, hrow, horigin⟩ := List.mem_map.mp hlog
  have hconv : apToMWPlacements sampleArchipelago =
      .ok [⟨lit "Lamp_(3)_(0)", lit "Gate)_(7)"⟩, ⟨lit "Key_(_(1)", lit "Mystery_Place_(8)"⟩] := by
    decide +kernel
  have hsetup : setupMW (lit "eggu") sampleArchipelago = .ok (converse (lit "eggu") (lit "A")
      [⟨lit "Lamp_(3)_(0)", lit "Gate)_(7)"⟩, ⟨lit "Key_(_(1)", lit "Mystery_Place_(8)"⟩]) := by
    rw [setupMW, hconv]
    rfl
  have hresult : (last SetupMW.move (SetupMW.start (converse (lit "eggu") (lit "A")
      [⟨lit "Lamp_(3)_(0)", lit "Gate)_(7)"⟩, ⟨lit "Key_(_(1)", lit "Mystery_Place_(8)"⟩]))
        sampleInvitation).talk = .stop (.ok sampleResult) := rfl
  have hback := announced_items_come_back hsetup sampleInvitation hresult rfl h lampComesBack row
    hrow
  rw [SetupMW.said_of_stopped hresult] at hback
  exact ⟨_, db, row, hsetup, h, hrow, hback _ (List.mem_cons_of_mem _ (List.mem_cons_of_mem _
    List.mem_cons_self)) _ List.mem_cons_self _ (.inl horigin)⟩

end Isthmus
