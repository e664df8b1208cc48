import Isthmus.Approto.Schema

/-!
# The Archipelago seed

The parts of an `.archipelago` file that the play loop reads.
-/

namespace Isthmus

structure Apslot where
  name : GoString
  game : GoString
  deriving DecidableEq

structure Apgamedata where
  itemNameToID : GoMap GoString Int
  locationNameToID : GoMap GoString Int
  checksum : GoString
  original : Json

structure Apdata where
  locations : GoMap Int (GoMap Int (List Int))
  datapackage : GoMap GoString Apgamedata
  slotInfo : GoMap Int Apslot
  slotData : GoMap Int Json

/-- The data package of a game. A missing one is empty. -/
def Apdata.gamedata (data : Apdata) (game : GoString) : Apgamedata :=
  data.datapackage.index game ⟨∅, ∅, [], .null⟩

/-- The item placed at a location of the slot by the generator. -/
def Apdata.locationOf (data : Apdata) (slotID locID : Int) : Option (List Int) :=
  (data.locations.index slotID ∅).lookup locID

end Isthmus
