import Isthmus.Apdata
import Isthmus.Mwproto.Discriminators
import Isthmus.Mwproto.Schema

/-!
# Converting the seed for the MW server

`apToMWPlacements` lists the placements of the single slot in the order of the
spheres. A location carries its id in its name, and an item the number of
placements before it, which makes the names of items unique.
-/

namespace Isthmus

open Mwproto

/-- The seed with what the conversion reads besides. -/
structure Archipelago extends Apdata where
  spheres : List (GoMap Int (List Int64))

inductive ConvertError where
  | panic
  | missingDatapackage (game : GoString)
  | duplicateItemID (id : Int)
  | duplicateLocationID (id : Int)
  | missingLocations
  | missingItem (id : Int)
  deriving DecidableEq

/-- The text of the error, or of the panic. -/
def ConvertError.text : ConvertError → GoString
  | .panic => lit "singularKey undefined on empty map"
  | .missingDatapackage game =>
    lit ".archipelago does not contain datapackage for main game " ++ game
  | .duplicateItemID id => lit "duplicate item ID in datapackage: " ++ Strings.formatInt id
  | .duplicateLocationID id => lit "duplicate location ID in datapackage: " ++ Strings.formatInt id
  | .missingLocations => lit ".archipelago does not contain location data for its single slot"
  | .missingItem id => lit "item missing from datapackage: " ++ Strings.formatInt id

/-- The first key in the order of iteration. -/
def singularKey {K V : Type} (m : GoMap K V) : Except ConvertError K :=
  match m.entries with
  | [] => .error .panic
  | ⟨k, _⟩ :: _ => .ok k

section Invert

variable {K V : Type} [DecidableEq V]

/-- The loop of `invert` over the entries of a map. -/
def invertEntries (dup : V → ConvertError) : GoMap V K → List ((_ : K) × V) →
    Except ConvertError (GoMap V K)
  | w, [] => .ok w
  | w, ⟨k, v⟩ :: es => if v ∈ w then .error (dup v) else invertEntries dup (w.insert v k) es

def invert (m : GoMap K V) (dup : V → ConvertError) : Except ConvertError (GoMap V K) :=
  invertEntries dup ∅ m.entries

end Invert

def mysteryPlace : GoString := lit "Mystery_Place"

/-- The inner loop: the placements of the locations of one sphere are appended to
those so far. -/
def placeLocations (itemNames locationNames : GoMap Int GoString)
    (placements : GoMap Int (List Int)) :
    List Placement → List Int64 → Except ConvertError (List Placement)
  | mwPlacements, [] => .ok mwPlacements
  | mwPlacements, loc :: locs =>
    match placements.lookup loc.toInt with
    | some (itemID :: _ :: _) =>
      match itemNames.lookup itemID with
      | none => .error (.missingItem itemID)
      | some itemName =>
        placeLocations itemNames locationNames placements
          (mwPlacements ++ [⟨discriminated itemName mwPlacements.length,
            discriminated (locationNames.index loc.toInt mysteryPlace) loc.toInt⟩]) locs
    -- nothing is placed there, or its data is missing
    | _ => placeLocations itemNames locationNames placements mwPlacements locs

/-- The outer loop, over the spheres. -/
def placeSpheres (itemNames locationNames : GoMap Int GoString)
    (placements : GoMap Int (List Int)) (slotID : Int) :
    List Placement → List (GoMap Int (List Int64)) → Except ConvertError (List Placement)
  | mwPlacements, [] => .ok mwPlacements
  | mwPlacements, s :: spheres =>
    match placeLocations itemNames locationNames placements mwPlacements (s.index slotID []) with
    | .error e => .error e
    | .ok mwPlacements =>
      placeSpheres itemNames locationNames placements slotID mwPlacements spheres

def apToMWPlacements (data : Archipelago) : Except ConvertError (List Placement) := do
  let slotID ← singularKey data.slotInfo
  let slot := data.slotInfo.index slotID ⟨[], []⟩
  let dpkg ← (data.datapackage.lookup slot.game).elim
    (.error (.missingDatapackage slot.game)) .ok
  let itemNames ← invert dpkg.itemNameToID .duplicateItemID
  let locationNames ← invert dpkg.locationNameToID .duplicateLocationID
  let placements ← (data.locations.lookup slotID).elim (.error .missingLocations) .ok
  placeSpheres itemNames locationNames placements slotID [] data.spheres

/-! ## Inversion -/

section Invert

variable {K V : Type} [DecidableEq V] {dup : V → ConvertError}

theorem invertEntries_ok {es : List ((_ : K) × V)} {w w' : GoMap V K}
    (h : invertEntries dup w es = .ok w') {v : V} {k : K} (hk : w'.lookup v = some k) :
    w.lookup v = some k ∨ ⟨k, v⟩ ∈ es := by
  induction es generalizing w with
  | nil =>
    cases h
    exact .inl hk
  | cons e es ih =>
    obtain ⟨k₀, v₀⟩ := e
    rw [invertEntries] at h
    split at h
    · cases h
    · obtain hw | hmem := ih h
      · by_cases hv : v = v₀
        · subst hv
          rw [AList.lookup_insert, Option.some.injEq] at hw
          exact .inr (hw ▸ List.mem_cons_self)
        · rw [AList.lookup_insert_ne hv] at hw
          exact .inl hw
      · exact .inr (List.mem_cons_of_mem _ hmem)

/-- A key of an inverted map is the value of what it is mapped to. -/
theorem lookup_of_invert [DecidableEq K] {m : GoMap K V} {w : GoMap V K}
    (h : invert m dup = .ok w) {v : V} {k : K} (hk : w.lookup v = some k) :
    m.lookup k = some v := by
  obtain hw | hmem := invertEntries_ok h hk
  · rw [AList.lookup_empty] at hw
    cases hw
  · exact AList.mem_lookup_iff.mpr hmem

end Invert

/-! ## The two loops -/

section Loops

variable {itemNames locationNames : GoMap Int GoString} {placements : GoMap Int (List Int)}

theorem placeLocations_append (locs locs' : List Int64) (mwPlacements : List Placement) :
    placeLocations itemNames locationNames placements mwPlacements (locs ++ locs') =
      match placeLocations itemNames locationNames placements mwPlacements locs with
      | .error e => .error e
      | .ok mwPlacements =>
        placeLocations itemNames locationNames placements mwPlacements locs' := by
  induction locs generalizing mwPlacements with
  | nil => rfl
  | cons loc locs ih =>
    rw [List.cons_append, placeLocations, placeLocations]
    split
    · split
      · rfl
      · exact ih _
    · exact ih _

/-- The spheres are gone through as one list of locations. -/
theorem placeSpheres_eq (slotID : Int) (spheres : List (GoMap Int (List Int64)))
    (mwPlacements : List Placement) :
    placeSpheres itemNames locationNames placements slotID mwPlacements spheres =
      placeLocations itemNames locationNames placements mwPlacements
        (spheres.flatMap fun s => s.index slotID []) := by
  induction spheres generalizing mwPlacements with
  | nil => rfl
  | cons s spheres ih =>
    rw [placeSpheres, List.flatMap_cons, placeLocations_append]
    split
    · rfl
    · exact ih _

/-- The locations where something is placed, with its item and its owner. -/
def keptLocations (placements : GoMap Int (List Int)) (locs : List Int64) : List Int64 :=
  locs.filter fun loc => 2 ≤ (placements.index loc.toInt []).length

/-- The placement made for a location after `n` others. -/
def PlacedAfter (itemNames : GoMap Int GoString) (placements : GoMap Int (List Int))
    (loc : Int64) (p : Placement × Nat) : Prop :=
  ∃ itemID rest itemName locName, placements.lookup loc.toInt = some (itemID :: rest) ∧
    itemNames.lookup itemID = some itemName ∧
    p.1 = ⟨discriminated itemName p.2, discriminated locName loc.toInt⟩

/-- One placement is made for each kept location, and nothing for the others. -/
theorem placeLocations_ok {locs : List Int64} {mwPlacements out : List Placement}
    (h : placeLocations itemNames locationNames placements mwPlacements locs = .ok out) :
    ∃ new, out = mwPlacements ++ new ∧
      List.Forall₂ (PlacedAfter itemNames placements) (keptLocations placements locs)
        (new.zipIdx mwPlacements.length) := by
  induction locs generalizing mwPlacements with
  | nil =>
    cases h
    exact ⟨[], (List.append_nil _).symm, .nil⟩
  | cons loc locs ih =>
    rw [placeLocations] at h
    split at h
    · next itemID owner rest hloc =>
      split at h
      · cases h
      · next itemName hname =>
        obtain ⟨new, rfl, hnew⟩ := ih h
        have hkept : keptLocations placements (loc :: locs) =
            loc :: keptLocations placements locs := by
          refine List.filter_cons_of_pos ?_
          simp [GoMap.index, hloc]
        rw [List.length_append, List.length_singleton] at hnew
        refine ⟨_ :: new, by rw [List.append_assoc, List.singleton_append], ?_⟩
        rw [hkept, List.zipIdx_cons]
        exact .cons ⟨itemID, _, itemName, _, hloc, hname, rfl⟩ hnew
    · next hloc =>
      obtain ⟨new, rfl, hnew⟩ := ih h
      have hkept : keptLocations placements (loc :: locs) = keptLocations placements locs := by
        refine List.filter_cons_of_neg ?_
        rw [decide_eq_true_eq, GoMap.index]
        rcases hp : placements.lookup loc.toInt with _ | _ | ⟨itemID, _ | ⟨owner, rest⟩⟩
        · simp
        · simp
        · simp
        · exact absurd hp (hloc itemID owner rest)
      exact ⟨new, rfl, hkept ▸ hnew⟩

end Loops

/-- Names discriminated by different numbers are different. -/
theorem discriminated_inj {a b : GoString} {i j : Nat}
    (h : discriminated a i = discriminated b j) : i = j := by
  have hname : a = b := by
    rw [← stripDiscriminator_discriminated a i, h, stripDiscriminator_discriminated]
  subst hname
  simp only [discriminated, List.append_cancel_right_eq, List.append_cancel_left_eq] at h
  exact Strings.formatNat_injective h

/-- Items discriminated by their position are distinct. -/
theorem nodup_items {out : List Placement}
    (h : ∀ p ∈ out.zipIdx, ∃ name, p.1.item = discriminated name (p.2 : Nat)) :
    (out.map Placement.item).Nodup := by
  have hpositions : out.zipIdx.Pairwise fun p q => p.2 ≠ q.2 := by
    refine List.pairwise_map.mp ?_
    rw [List.zipIdx_map_snd]
    exact List.nodup_range'
  have hitems : out.zipIdx.Pairwise fun p q => p.1.item ≠ q.1.item := by
    refine hpositions.imp_of_mem fun {p q} hp hq hne heq => hne ?_
    obtain ⟨a, ha⟩ := h p hp
    obtain ⟨b, hb⟩ := h q hq
    exact discriminated_inj (ha.symm.trans (heq.trans hb))
  have hmap : out.map Placement.item = out.zipIdx.map fun p => p.1.item := by
    conv_lhs => rw [← List.zipIdx_map_fst 0 out]
    rw [List.map_map]
    rfl
  rw [hmap]
  exact List.pairwise_map.mpr hitems

/-! ## The conversion -/

/-- The placement leads back to the location and to the item placed there. -/
structure Archipelago.PlacedAt (data : Archipelago) (slotID : Int) (dpkg : Apgamedata)
    (loc : Int64) (p : Placement) : Prop where
  location : parseDiscriminator p.location = some loc.toInt
  item : ∃ itemID rest, data.locationOf slotID loc.toInt = some (itemID :: rest) ∧
    dpkg.itemNameToID.lookup (stripDiscriminator p.item) = some itemID

/-- The locations of a slot over all spheres, where something is placed. -/
def Archipelago.placedLocations (data : Archipelago) (slotID : Int) : List Int64 :=
  keptLocations (data.locations.index slotID ∅) (data.spheres.flatMap fun s => s.index slotID [])

/-- What a conversion that succeeds has read. -/
theorem apToMWPlacements_ok {data : Archipelago} {out : List Placement}
    (h : apToMWPlacements data = .ok out) :
    ∃ slotID dpkg itemNames locationNames, singularKey data.slotInfo = .ok slotID ∧
      data.datapackage.lookup (data.slotInfo.index slotID ⟨[], []⟩).game = some dpkg ∧
      invert dpkg.itemNameToID .duplicateItemID = .ok itemNames ∧
      placeLocations itemNames locationNames (data.locations.index slotID ∅) []
        (data.spheres.flatMap fun s => s.index slotID []) = .ok out := by
  simp only [apToMWPlacements, bind, Except.bind] at h
  split at h
  · cases h
  · next slotID hslot =>
    cases hd : data.datapackage.lookup (data.slotInfo.index slotID ⟨[], []⟩).game with
    | none =>
      rw [hd] at h
      cases h
    | some dpkg =>
      rw [hd] at h
      simp only [Option.elim_some] at h
      split at h
      · cases h
      · next itemNames hitems =>
        split at h
        · cases h
        · next locationNames _ =>
          cases hl : data.locations.lookup slotID with
          | none =>
            rw [hl] at h
            cases h
          | some placements =>
            rw [hl] at h
            simp only [Option.elim_some, placeSpheres_eq] at h
            refine ⟨slotID, dpkg, itemNames, locationNames, hslot, hd, hitems, ?_⟩
            rw [GoMap.index, hl]
            exact h

/-- The conversion loses nothing: each placed location has its placement, in
order, from which its id and the id of its item are read back, and the items
have distinct names. -/
theorem apToMWPlacements_lossless {data : Archipelago} {out : List Placement}
    (h : apToMWPlacements data = .ok out) :
    ∃ slotID dpkg, singularKey data.slotInfo = .ok slotID ∧
      data.datapackage.lookup (data.slotInfo.index slotID ⟨[], []⟩).game = some dpkg ∧
      List.Forall₂ (data.PlacedAt slotID dpkg) (data.placedLocations slotID) out ∧
      (out.map Placement.item).Nodup := by
  obtain ⟨slotID, dpkg, itemNames, locationNames, hslot, hdpkg, hitems, hout⟩ :=
    apToMWPlacements_ok h
  obtain ⟨new, hall, hnew⟩ := placeLocations_ok hout
  rw [List.nil_append] at hall
  subst hall
  refine ⟨slotID, dpkg, hslot, hdpkg, ?_, nodup_items ?_⟩
  · have hplaced : List.Forall₂ (fun loc p => data.PlacedAt slotID dpkg loc p.1)
        (data.placedLocations slotID) (out.zipIdx : List (Placement × Nat)) := by
      refine hnew.imp fun loc p hp => ?_
      obtain ⟨itemID, rest, itemName, locName, hloc, hname, heq⟩ := hp
      rw [heq]
      refine ⟨parseDiscriminator_discriminated locName loc, itemID, rest, hloc, ?_⟩
      rw [stripDiscriminator_discriminated]
      exact lookup_of_invert hitems hname
    have hfst := List.forall₂_map_right_iff.mpr hplaced
    rwa [List.zipIdx_map_fst] at hfst
  · have hnamed : List.Forall₂ (fun (p : Placement × Nat) (loc : Int64) =>
        (∃ name, p.1.item = discriminated name p.2) ∧
          PlacedAfter itemNames (data.locations.index slotID ∅) loc p) out.zipIdx
        (data.placedLocations slotID) := by
      refine List.Forall₂.flip (hnew.imp fun loc p hp => ⟨?_, hp⟩)
      obtain ⟨itemID, rest, itemName, locName, -, -, heq⟩ := hp
      exact ⟨itemName, by rw [heq]⟩
    exact ((List.forall₂_and_left _ _).mp hnamed).1

/-- An item that looks discriminated, a location without a name, and one where
nothing is placed. -/
def sampleArchipelago : Archipelago where
  locations := (∅ : GoMap Int (GoMap Int (List Int))).insert 1
    (AList.insert 8 [11, 1] (AList.insert 7 [10, 1, 0] ∅))
  datapackage := (∅ : GoMap GoString Apgamedata).insert (lit "G")
    ⟨((∅ : GoMap GoString Int).insert (lit "Lamp_(3)") 10).insert (lit "Key_(") 11,
      (∅ : GoMap GoString Int).insert (lit "Gate)") 7, [], .null⟩
  slotInfo := (∅ : GoMap Int Apslot).insert 1 ⟨lit "A", lit "G"⟩
  slotData := ∅
  spheres := [(∅ : GoMap Int (List Int64)).insert 1 [7, 9],
    (∅ : GoMap Int (List Int64)).insert 1 [8, -2]]

theorem apToMWPlacements_lossless_sample :
    ∃ slotID dpkg, singularKey sampleArchipelago.slotInfo = .ok slotID ∧
      sampleArchipelago.datapackage.lookup
        (sampleArchipelago.slotInfo.index slotID ⟨[], []⟩).game = some dpkg ∧
      List.Forall₂ (sampleArchipelago.PlacedAt slotID dpkg)
        (sampleArchipelago.placedLocations slotID)
        [⟨lit "Lamp_(3)_(0)", lit "Gate)_(7)"⟩, ⟨lit "Key_(_(1)", lit "Mystery_Place_(8)"⟩] ∧
      ([⟨lit "Lamp_(3)_(0)", lit "Gate)_(7)"⟩, ⟨lit "Key_(_(1)", lit "Mystery_Place_(8)"⟩].map
        Placement.item).Nodup :=
  apToMWPlacements_lossless (by decide +kernel)

end Isthmus
