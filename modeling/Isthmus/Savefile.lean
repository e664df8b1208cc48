import Isthmus.Lib.Process
import Isthmus.Lib.Table
import Isthmus.Mwproto.Discriminators
import Isthmus.Mwproto.Schema
import Isthmus.Approto.Schema
import Mathlib.Data.List.Sort

/-!
# The savefile

The tables of the savefile, the writes that the program commits to them and the
queries it makes. A write is one transaction: it is taken as a whole, or SQLite
refuses it and the savefile stays as it was.

Strings reach SQLite through the data pointer of a Go string. The pointer of an
empty string may be nil, and SQLite then binds NULL, which equals nothing and
which a `NOT NULL` column refuses. `Env` says what happens in one call of the
program; it also fixes the order of the queries that ask for none.
-/

namespace Isthmus

open Process Mwproto Approto

/-- A value bound to a text parameter; `none` is NULL. -/
abbrev SqlText := Option GoString

inductive SqlError where
  | notNull
  | unique
  | foreignKey
  deriving DecidableEq

/-- Why a part of the program returned early. -/
inductive Stop where
  | sql (e : SqlError)
  | zeroRows
  | multipleRows
  | malformed
  | panic
  deriving DecidableEq

/-- Why a row of `ap_sent_items` was appended. No statement reads it; it is
there to state what the rows are for. -/
inductive Origin where
  | precollected
  | delivered (label content : GoString)
  | collected (itemName : GoString)
  | checked (locID : Int)
  deriving DecidableEq

structure UnconfirmedRow where
  label : GoString
  content : GoString
  destPlayerID : Int
  deriving DecidableEq

structure ReceivedRow where
  label : GoString
  content : GoString
  deriving DecidableEq

/-- A row of `ap_sent_items`. Its `item_index` is its position plus one. -/
structure SentRow where
  itemID : Int
  locationID : Int
  playerID : Int
  flags : Int
  origin : Origin
  deriving DecidableEq

structure StoredRow where
  key : GoString
  jsonValue : GoString
  deriving DecidableEq

structure PlayerRow where
  playerID : Int
  nickname : GoString
  deriving DecidableEq

structure GlobalRow where
  playerID : Int
  randoID : Int
  deriving DecidableEq

structure OwnWorldRow where
  apLocationID : Int
  destPlayerID : Int
  itemName : GoString
  deriving DecidableEq

structure OwnItemRow where
  itemName : GoString
  sourcePlayerID : Int
  locationName : GoString
  deriving DecidableEq

/-- The tables that are filled once, when the savefile is created. -/
structure SetupTables where
  players : Table PlayerRow PlayerRow.playerID
  globalData : List GlobalRow
  ownWorldPlacements : Table OwnWorldRow OwnWorldRow.apLocationID
  ownItemPlacements : Table OwnItemRow OwnItemRow.itemName

structure Savefile extends SetupTables where
  locationsCleared : Table Int id
  unconfirmedSentItems : Table UnconfirmedRow id
  receivedItems : Table ReceivedRow id
  sentItems : List SentRow
  dataStorage : Table StoredRow StoredRow.key

/-- A row bound for `mw_unconfirmed_sent_items`, with the location it is sent
for. The location is not written. -/
structure SendRow where
  locID : Int
  label : SqlText
  content : SqlText
  toPlayer : Int
  deriving DecidableEq

/-- The constraints of the columns of `mw_unconfirmed_sent_items`. -/
def SendRow.check (r : SendRow) : Except Stop UnconfirmedRow :=
  match r.label, r.content with
  | some label, some content => .ok ⟨label, content, r.toPlayer⟩
  | _, _ => .error (.sql .notNull)

/-- The writes of the program, each one transaction. -/
inductive Commit where
  | clearLocations (ids : List Int)
  | addSentItems (rows : List SentRow)
  | addUnconfirmedItems (rows : List SendRow)
  | confirmItem (label content : SqlText) (toPlayer : Int)
  | addReceivedItem (label content : SqlText)
  | setStoredData (key jsonValue : SqlText)
  deriving DecidableEq

/-- A savefile without rows. -/
def emptySavefile : Savefile :=
  ⟨⟨.empty _, [], .empty _, .empty _⟩, .empty _, .empty _, .empty _, [], .empty _⟩

namespace Savefile

/-- What SQLite does with a write. -/
def apply (db : Savefile) : Commit → Except Stop Savefile
  | .clearLocations ids =>
    match db.locationsCleared.insertEach .ok (.sql .unique) ids with
    | .ok t => .ok { db with locationsCleared := t }
    | .error e => .error e
  | .addSentItems rows => .ok { db with sentItems := db.sentItems ++ rows }
  | .addUnconfirmedItems rows =>
    match db.unconfirmedSentItems.insertEach SendRow.check (.sql .unique) rows with
    | .ok t => .ok { db with unconfirmedSentItems := t }
    | .error e => .error e
  | .confirmItem label content toPlayer =>
    .ok { db with
      unconfirmedSentItems := db.unconfirmedSentItems.delete fun r =>
        some r.label = label ∧ some r.content = content ∧ r.destPlayerID = toPlayer }
  | .addReceivedItem label content =>
    match label, content with
    | some label, some content =>
      match db.receivedItems.insert ⟨label, content⟩ with
      | some t => .ok { db with receivedItems := t }
      | none => .error (.sql .unique)
    | _, _ => .error (.sql .notNull)
  | .setStoredData key jsonValue =>
    match key, jsonValue with
    | some key, some jsonValue => .ok { db with dataStorage := db.dataStorage.upsert ⟨key, jsonValue⟩ }
    | _, _ => .error (.sql .notNull)

instance : Store Savefile Commit Stop := ⟨apply⟩

end Savefile

/-- What one call of the program leaves to the Go runtime and to SQLite: whether
empty strings are bound as NULL, and the order of rows where none is asked for. -/
structure Env where
  nilEmpty : Bool
  scanUnconfirmed : List UnconfirmedRow → List UnconfirmedRow
  scanUnconfirmed_perm : ∀ l, (scanUnconfirmed l).Perm l
  scanOwnItems : List OwnItemRow → List OwnItemRow
  scanOwnItems_perm : ∀ l, (scanOwnItems l).Perm l

/-- The environment that keeps the order of insertion. -/
def Env.inOrder (nilEmpty : Bool) : Env :=
  ⟨nilEmpty, id, fun _ => .rfl, id, fun _ => .rfl⟩

/-- `BindString`. -/
def Env.bindString (env : Env) (s : GoString) : SqlText :=
  if env.nilEmpty = true ∧ s = [] then none else some s

/-- The string is bound as NULL. -/
def Env.BindsNull (env : Env) (s : GoString) : Prop := env.nilEmpty = true ∧ s = []

instance (env : Env) (s : GoString) : Decidable (env.BindsNull s) :=
  inferInstanceAs (Decidable (_ ∧ _))

theorem Env.bindString_of_bindsNull {env : Env} {s : GoString} (h : env.BindsNull s) :
    env.bindString s = none := if_pos h

theorem Env.bindString_of_not {env : Env} {s : GoString} (h : ¬ env.BindsNull s) :
    env.bindString s = some s := if_neg h

theorem Env.bindString_eq_some_iff {env : Env} {a b : GoString} :
    env.bindString a = some b ↔ ¬ env.BindsNull a ∧ a = b := by
  by_cases h : env.BindsNull a
  · simp [Env.bindString_of_bindsNull h, h]
  · simp [Env.bindString_of_not h, h]

theorem Env.bindString_eq_none_iff {env : Env} {s : GoString} :
    env.bindString s = none ↔ env.BindsNull s := by
  by_cases h : env.BindsNull s
  · simp [Env.bindString_of_bindsNull h, h]
  · simp [Env.bindString_of_not h, h]

theorem Env.bindString_label (env : Env) :
    env.bindString labelMultiworldItem = some labelMultiworldItem :=
  Env.bindString_of_not fun h => absurd h.2 (by decide)

/-! ## Queries -/

structure OwnWorldPlacement where
  apLocationID : Int
  ownerID : Int
  name : GoString
  deriving DecidableEq

structure QualifiedLocation where
  playerID : Int
  name : GoString
  deriving DecidableEq

structure OwnItemPlacement where
  itemName : GoString
  location : QualifiedLocation
  deriving DecidableEq

namespace SetupTables

def getNicknames (db : SetupTables) : List GoString :=
  (db.players.rows.insertionSort fun a b => a.playerID ≤ b.playerID).map PlayerRow.nickname

def getConnectionParams (db : SetupTables) : Except Stop (Int × Int) :=
  match db.globalData with
  | [] => .error .zeroRows
  | [row] => .ok (toInt32 row.playerID, toInt32 row.randoID)
  | _ => .error .multipleRows

def getOwnItemLocations (db : SetupTables) : List QualifiedLocation :=
  (db.ownItemPlacements.rows.insertionSort fun a b => a.locationName ≤ b.locationName).map
    fun row => ⟨toInt32 row.sourcePlayerID, row.locationName⟩

def getOwnWorldPlacements (db : SetupTables) : List OwnWorldPlacement :=
  (db.ownWorldPlacements.rows.insertionSort fun a b => a.apLocationID ≤ b.apLocationID).map
    fun row => ⟨row.apLocationID, toInt32 row.destPlayerID, row.itemName⟩

/-- The location name of an own item, or `none` for no row. -/
def getLocationOfOwnItem (db : SetupTables) (env : Env) (itemName : GoString) : Option GoString :=
  (env.bindString itemName).bind fun name =>
    (db.ownItemPlacements.find name).map OwnItemRow.locationName

/-- The item placed at a location, or `none` for no row. -/
def getPlacedItem (db : SetupTables) (locID : Int) : Option (Int × GoString) :=
  (db.ownWorldPlacements.find locID).map fun row => (toInt32 row.destPlayerID, row.itemName)

end SetupTables

namespace Savefile

def clearedLocations (db : Savefile) : List Int :=
  db.locationsCleared.rows.insertionSort (· ≤ ·)

def isLocationCleared (db : Savefile) (id : Int) : Bool := id ∈ db.locationsCleared.rows

def hasReceivedItem (db : Savefile) (env : Env) (label content : GoString) : Bool :=
  match env.bindString label, env.bindString content with
  | some label, some content => ⟨label, content⟩ ∈ db.receivedItems.rows
  | _, _ => false

/-- The own items in other worlds that have not been received. -/
def getCollectablePlacements (db : Savefile) (env : Env) (selfID : Int) :
    List OwnItemPlacement :=
  ((env.scanOwnItems db.ownItemPlacements.rows).filter fun row =>
      row.sourcePlayerID ≠ selfID ∧
        (⟨labelMultiworldItem, row.itemName⟩ : ReceivedRow) ∉ db.receivedItems.rows).map
    fun row => ⟨row.itemName, toInt32 row.sourcePlayerID, row.locationName⟩

theorem mem_getCollectablePlacements {db : Savefile} {env : Env} {selfID : Int}
    {p : OwnItemPlacement} : p ∈ db.getCollectablePlacements env selfID ↔
      ∃ row ∈ db.ownItemPlacements.rows, row.sourcePlayerID ≠ selfID ∧
        (⟨labelMultiworldItem, row.itemName⟩ : ReceivedRow) ∉ db.receivedItems.rows ∧
          p = ⟨row.itemName, toInt32 row.sourcePlayerID, row.locationName⟩ := by
  simp only [getCollectablePlacements, List.mem_map, List.mem_filter, decide_eq_true_eq,
    (env.scanOwnItems_perm _).mem_iff]
  grind

/-- A row as `getSentItems` reads it back: two of the columns as 32 bits. -/
def readSentRow (row : SentRow) : NetworkItem :=
  ⟨row.itemID, row.locationID, toInt32 row.playerID, toInt32 row.flags⟩

def getSentItems (db : Savefile) : List NetworkItem := db.sentItems.map readSentRow

def sentItemTTL : Int32 := 666

def getUnconfirmedItems (db : Savefile) (env : Env) : List DataSendMessage :=
  (env.scanUnconfirmed db.unconfirmedSentItems.rows).map fun row =>
    ⟨row.label, row.content, Int32.ofInt (toInt32 row.destPlayerID), sentItemTTL⟩

def getStoredData (db : Savefile) (env : Env) (key : GoString) : Option GoString :=
  (env.bindString key).bind fun key => (db.dataStorage.find key).map StoredRow.jsonValue

end Savefile

/-! ## Writes -/

section Writes

variable {μ : Type}

/-- A row to append for an item, with its reason. -/
def sentRow (item : NetworkItem) (origin : Origin) : SentRow :=
  ⟨item.item, item.location, item.player, item.flags, origin⟩

def clearLocations (ids : List Int) : Proc Savefile Commit μ Stop Unit :=
  .commit (.clearLocations ids)

/-- The index of the first of the items inserted after `count` rows: its
`item_index` as 32 bits, less one. A -1 is what stands there before it is read. -/
def insertedIndex {α : Type} (count : Nat) : List α → Int
  | [] => -1
  | _ :: items =>
    if toInt32 (count + 1) - 1 = -1 then insertedIndex (count + 1) items
    else toInt32 (count + 1) - 1

/-- Returns the index of the first item, and -1 for no items. -/
def addSentItems (items : List (NetworkItem × Origin)) : Proc Savefile Commit μ Stop Int := do
  let count ← .read fun db : Savefile => db.sentItems.length
  .commit (.addSentItems (items.map fun p => sentRow p.1 p.2))
  pure (insertedIndex count items)

/-- Each message with the location it is sent for. -/
def addUnconfirmedItems (env : Env) (items : List (Int × DataSendMessage)) :
    Proc Savefile Commit μ Stop Unit :=
  .commit (.addUnconfirmedItems (items.map fun p =>
    ⟨p.1, env.bindString p.2.label, env.bindString p.2.content, p.2.toPlayer.toInt⟩))

/-- Whether the item was confirmed only goes to the log. -/
def confirmItem (env : Env) (item : DataSendConfirmMessage) : Proc Savefile Commit μ Stop Unit :=
  .commit (.confirmItem (env.bindString item.label) (env.bindString item.content)
    item.toPlayer.toInt)

def addReceivedItem (env : Env) (label content : GoString) : Proc Savefile Commit μ Stop Unit :=
  .commit (.addReceivedItem (env.bindString label) (env.bindString content))

def setStoredData (env : Env) (key data : GoString) : Proc Savefile Commit μ Stop Unit :=
  .commit (.setStoredData (env.bindString key) (env.bindString data))

end Writes

end Isthmus
