import Isthmus.Go.Values

/-!
# The messages of the AP protocol

The messages of the client carry the fields that the play loop reads. The
messages of the server carry the fields that depend on the savefile, the seed
or the client.
-/

namespace Isthmus.Approto

structure NetworkItem where
  item : Int
  location : Int
  player : Int
  flags : Int
  deriving DecidableEq

def serverLocation : Int := -2

def serverSlot : Int := 0

structure DataPackage where
  locationNameToID : GoMap GoString Int
  itemNameToID : GoMap GoString Int
  checksum : GoString

/-- A set of flags; any integer may arrive. -/
abbrev ItemHandlingMode := BitVec 64

def receiveOthersItems : ItemHandlingMode := 1

def receiveOwnItems : ItemHandlingMode := 2

/-- The mode has a bit of the flag. -/
def ItemHandlingMode.has (mode flag : ItemHandlingMode) : Bool := mode &&& flag != 0

structure Connect where
  itemsHandling : Option ItemHandlingMode
  slotData : Bool

structure DataStorageOperation where
  operation : GoString
  value : Json

structure SetMessage where
  key : GoString
  default : Json
  wantReply : Bool
  operations : List DataStorageOperation

structure GetMessage where
  keys : List GoString
  rest : GoMap GoString Json

inductive ClientMessage where
  | getDataPackage (games : Option (List GoString))
  | connect (m : Connect)
  | say (text : GoString)
  | sync
  | set (m : SetMessage)
  | setNotify (keys : List GoString)
  | get (m : GetMessage)
  | locationScouts (locations : List Int)
  | locationChecks (locations : List Int)

/-- A data package as it is sent: the one of the generator, or a synthetic one. -/
inductive GamePackage where
  | original (package : Json)
  | synthetic (package : Option DataPackage)

structure NetworkPlayer where
  slot : Int
  name : GoString
  deriving DecidableEq

structure NetworkSlot where
  slot : Int
  name : GoString
  game : GoString
  deriving DecidableEq

structure Connected where
  slot : Int
  players : List NetworkPlayer
  missingLocations : List Int
  checkedLocations : List Int
  slotInfo : List NetworkSlot
  slotData : Option Json

/-- The answer for one key of a `Get`: the constant behind a read-only key, the
bytes stored, or null. -/
inductive StoredValue where
  | readOnly (key : GoString)
  | stored (value : GoString)
  | null
  deriving DecidableEq

inductive ServerMessage where
  | roomInfo (games dataPackageChecksums : List GoString)
  | dataPackage (games : List (GoString × GamePackage))
  | connected (m : Connected)
  | receivedItems (index : Int) (items : List NetworkItem)
  | setReply (key value : GoString) (originalValue : Option GoString) (slot : Int)
  | retrieved (keys : List (GoString × StoredValue)) (rest : GoMap GoString Json)
  | locationInfo (locations : List NetworkItem)

def readOnlyKeyPrefix : GoString := lit "_read_"

end Isthmus.Approto
