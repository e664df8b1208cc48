import Isthmus.Session

/-!
# The message loop

One handler for each message that the loop knows, as a process over the
savefile. Each step of the loop receives one message, from the MW server or
from the AP client, and handles it to its end; an error ends the session.
-/

namespace Isthmus

open Process Mwproto Approto

inductive Incoming where
  | fromMW (m : Message)
  | fromAP (m : ClientMessage)

/-- What the program exchanges with the MW server and the AP client. -/
inductive Io where
  | recv (m : Incoming)
  | toMW (m : Message)
  | toAP (m : ServerMessage)

abbrev Handler := Proc Savefile Commit Io Stop

/-! ## Items -/

def Room.ownItemID (room : Room) (cfg : Config) (name : GoString) : Int :=
  (cfg.data.gamedata room.slot.game).itemNameToID.index (stripDiscriminator name) 0

/-- The id of the location of an own item in the world of player `fromID`. -/
def Room.locationID (room : Room) (setup : SetupTables) (env : Env) (fromID : Int)
    (itemName : GoString) : Except Stop Int :=
  match setup.getLocationOfOwnItem env itemName with
  | none => .ok 0
  | some loc =>
    match room.packageOf fromID with
    | none => .error .panic
    | some dp => .ok (dp.locationNameToID.index loc 0)

/-- The item that player `fromID` found. -/
def Room.receivedItem (room : Room) (cfg : Config) (setup : SetupTables) (env : Env)
    (fromID : Int) (content : GoString) : Except Stop NetworkItem :=
  match room.locationID setup env fromID content with
  | .error e => .error e
  | .ok locID => .ok ⟨room.ownItemID cfg content, locID, fromID + 1, 0⟩

/-- The item of a released batch. Its sender may be unknown, with index -1. -/
def Room.releasedItem (room : Room) (cfg : Config) (setup : SetupTables) (env : Env)
    (fromID : Int) (content : GoString) : Except Stop NetworkItem :=
  if fromID = -1 then .ok ⟨room.ownItemID cfg content, -2, 0, 0⟩
  else room.receivedItem cfg setup env fromID content

def Session.notify (sess : Session) (flag : ItemHandlingMode) (index : Int)
    (items : List NetworkItem) : Handler Unit :=
  if sess.itemHandling.has flag then .emit (.toAP (.receivedItems index items)) else pure ()

/-! ## Messages of the MW server -/

def handleJoinConfirm (env : Env) : Handler Unit := do
  let unconfirmedItems ← .read fun db : Savefile => db.getUnconfirmedItems env
  .forEach (fun it => .emit (.toMW (.dataSend it))) unconfirmedItems

def handleDataReceive (cfg : Config) (env : Env) (sess : Session) (m : DataReceiveMessage) :
    Handler Unit :=
  if m.label ≠ labelMultiworldItem then pure ()
  else if ¬ (0 ≤ m.fromID.toInt ∧ m.fromID.toInt < sess.games.length) then pure ()
  else do
    let duplicate ← .read fun db : Savefile => db.hasReceivedItem env m.label m.content
    if duplicate then pure ()
    else do
      let item ← .query fun db : Savefile =>
        sess.receivedItem cfg db.toSetupTables env m.fromID.toInt m.content
      let index ← addSentItems [(item, .delivered m.label m.content)]
      sess.notify receiveOthersItems index [item]
      .emit (.toMW (.dataReceiveConfirm ⟨m.label, m.content, m.sender⟩))
      addReceivedItem env m.label m.content
      .emit (.toMW .save)

/-- Record the new items of a batch, and return what to append for them. -/
def receiveItems (cfg : Config) (env : Env) (sess : Session) (fromID : Int) :
    List DataReceiveItem → Handler (List (NetworkItem × Origin))
  | [] => pure []
  | item :: items =>
    if item.label ≠ labelMultiworldItem then receiveItems cfg env sess fromID items
    else do
      let duplicate ← .read fun db : Savefile => db.hasReceivedItem env item.label item.content
      if duplicate then receiveItems cfg env sess fromID items
      else do
        let sentItem ← .query fun db : Savefile =>
          sess.releasedItem cfg db.toSetupTables env fromID item.content
        addReceivedItem env item.label item.content
        let sentItems ← receiveItems cfg env sess fromID items
        pure ((sentItem, .delivered item.label item.content) :: sentItems)

/-- The index of the sender of a batch, and -1 for an unknown one. -/
def Room.senderID (room : Room) (sender : GoString) : Int :=
  match room.nicknames.idxOf? sender with
  | some i => i
  | none => -1

def handleDatasReceive (cfg : Config) (env : Env) (sess : Session) (m : DatasReceiveMessage) :
    Handler Unit := do
  let items ← receiveItems cfg env sess (sess.senderID m.sender) m.items
  let startIndex ← addSentItems items
  sess.notify receiveOthersItems startIndex (items.map Prod.fst)
  .emit (.toMW (.datasReceiveConfirm ⟨Int32.ofInt m.items.length, m.sender⟩))
  .emit (.toMW .save)

def handleMW (cfg : Config) (env : Env) (sess : Session) : Message → Handler Unit
  | .joinConfirm => handleJoinConfirm env
  | .dataReceive m => handleDataReceive cfg env sess m
  | .datasReceive m => handleDatasReceive cfg env sess m
  | .dataSendConfirm m => confirmItem env m
  | .requestCharmNotchCosts =>
    .emit (.toMW (.announceCharmNotchCosts ⟨Int32.ofInt sess.playerID, ∅⟩))
  | .announceCharmNotchCosts m => .emit (.toMW (.confirmCharmNotchCostsReceived ⟨m.playerID⟩))
  | _ => pure ()

/-! ## Messages of the AP client -/

/-- The package sent for a game: the original one for the own game. -/
def Room.gamePackage (room : Room) (cfg : Config) (g : GoString) : GamePackage :=
  if g = room.slot.game then .original (cfg.data.gamedata room.slot.game).original
  else .synthetic (room.dataPackages.lookup g)

def handleGetDataPackage (cfg : Config) (sess : Session) (games : Option (List GoString)) :
    Handler Unit :=
  let pickedGames := games.getD sess.games
  .emit (.toAP (.dataPackage (pickedGames.dedup.map fun g => (g, sess.gamePackage cfg g))))

/-- The locations of the own game that are not cleared, each once. -/
def Room.missingLocations (room : Room) (cfg : Config) (db : Savefile) : List Int :=
  (((cfg.data.gamedata room.slot.game).locationNameToID.entries.map fun e => e.2).dedup.filter
    fun locID => locID ∉ db.clearedLocations).insertionSort (· ≤ ·)

def Room.connected (room : Room) (cfg : Config) (db : Savefile) (slotData : Bool) : Connected where
  slot := room.playerID + 1
  players := room.nicknames.mapIdx fun i nick => ⟨i + 1, nick⟩
  missingLocations := room.missingLocations cfg db
  checkedLocations := db.clearedLocations
  slotInfo := (room.nicknames.zip room.games).mapIdx fun i p => ⟨i + 1, p.1, p.2⟩
  slotData := if slotData then cfg.data.slotData.lookup room.slotID else none

/-- The flags are dereferenced even where the message has none. -/
def handleConnect (cfg : Config) (sess : Session) (m : Connect) : Handler Session := do
  .emit (.toMW (.join ⟨sess.slot.name, Int32.ofInt sess.randoID, Int32.ofInt sess.playerID, 0⟩))
  match m.itemsHandling with
  | none => .fail .panic
  | some mode => do
    let resp ← .read fun db : Savefile => sess.connected cfg db m.slotData
    .emit (.toAP (.connected resp))
    let items ← .read fun db : Savefile => db.getSentItems
    .emit (.toAP (.receivedItems 0 items))
    pure { sess with itemHandling := mode }

def Room.collectItems (room : Room) (cfg : Config) :
    List OwnItemPlacement → Except Stop (List (NetworkItem × Origin))
  | [] => .ok []
  | p :: ps =>
    match room.packageOf p.location.playerID with
    | none => .error .panic
    | some fromPkg =>
      match room.collectItems cfg ps with
      | .error e => .error e
      | .ok items =>
        .ok ((⟨room.ownItemID cfg p.itemName, fromPkg.locationNameToID.index p.location.name 0,
          p.location.playerID + 1, 0⟩, .collected p.itemName) :: items)

def handleCollect (cfg : Config) (env : Env) (sess : Session) : Handler Unit := do
  let items ← .query fun db : Savefile =>
    sess.collectItems cfg (db.getCollectablePlacements env sess.playerID)
  let index ← addSentItems items
  .emit (.toAP (.receivedItems index (items.map Prod.fst)))

/-- The message that sends an item to its owner. -/
def sendMessage (ownerID : Int) (name : GoString) : DataSendMessage :=
  ⟨labelMultiworldItem, name, Int32.ofInt ownerID, Savefile.sentItemTTL⟩

/-- The items of other players at locations that are not cleared. -/
def Savefile.releasable (db : Savefile) (playerID : Int) : List OwnWorldPlacement :=
  db.getOwnWorldPlacements.filter fun p =>
    p.ownerID ≠ playerID ∧ db.isLocationCleared p.apLocationID = false

def handleRelease (env : Env) (sess : Session) : Handler Unit := do
  let messages ← .read fun db : Savefile => (db.releasable sess.playerID).map fun p =>
    (p.apLocationID, sendMessage p.ownerID p.name)
  addUnconfirmedItems env messages
  clearLocations (messages.map Prod.fst)
  .forEach (fun p => .emit (.toMW (.dataSend p.2))) messages

def handleSay (cfg : Config) (env : Env) (sess : Session) (text : GoString) : Handler Unit :=
  if text = lit "!collect" then handleCollect cfg env sess
  else if text = lit "!release" then handleRelease env sess
  else pure ()

def handleSync (sess : Session) : Handler Unit :=
  if sess.itemHandling.has receiveOwnItems then do
    let items ← .read fun db : Savefile => db.getSentItems
    .emit (.toAP (.receivedItems 0 items))
  else pure ()

/-- An error of the evaluation goes to the log, and so does not answer. One of
the write is dropped. -/
def handleSet (cfg : Config) (env : Env) (sess : Session) (m : SetMessage) : Handler Unit :=
  if readOnlyKeyPrefix.isPrefixOf m.key then pure ()
  else do
    let orig ← .read fun db : Savefile => db.getStoredData env m.key
    match cfg.evaluate orig m with
    | .error .panic => .fail .panic
    | .error _ => pure ()
    | .ok newBytes => do
      let _ ← (setStoredData env m.key newBytes : Handler Unit).attempt
      if m.wantReply ∨ m.key ∈ sess.watchedKeys then
        .emit (.toAP (.setReply m.key newBytes orig sess.playerID))
      else pure ()

def Savefile.storedValue (db : Savefile) (env : Env) (k : GoString) : StoredValue :=
  if readOnlyKeyPrefix.isPrefixOf k then .readOnly k
  else
    match db.getStoredData env k with
    | some val => .stored val
    | none => .null

def handleGet (env : Env) (m : GetMessage) : Handler Unit := do
  let values ← .read fun db : Savefile => m.keys.dedup.map fun k => (k, db.storedValue env k)
  .emit (.toAP (.retrieved values m.rest))

/-- The item that the generator placed at a location of the slot. An entry of
fewer than three numbers is skipped. -/
def Room.localItem (room : Room) (cfg : Config) (locID : Int) : Option NetworkItem :=
  match cfg.data.locationOf room.slotID locID with
  | some (item :: _ :: flags :: _) => some ⟨item, locID, room.playerID + 1, flags⟩
  | _ => none

/-- The item at one scouted location. -/
def Room.scoutItem (room : Room) (cfg : Config) (setup : SetupTables) (locID : Int) :
    Except Stop (Option NetworkItem) :=
  match setup.getPlacedItem locID with
  | some (ownerID, name) =>
    if ownerID = room.playerID then
      .ok (some ⟨room.ownItemID cfg name, locID, ownerID + 1, 0⟩)
    else
      match room.packageOf ownerID with
      | none => .error .panic
      | some dp => .ok (some ⟨dp.itemNameToID.index (prettifyName name) 0, locID, ownerID + 1, 0⟩)
  | none => .ok (room.localItem cfg locID)

def Room.scoutItems (room : Room) (cfg : Config) (setup : SetupTables) :
    List Int → Except Stop (List NetworkItem)
  | [] => .ok []
  | locID :: locIDs =>
    match room.scoutItem cfg setup locID with
    | .error e => .error e
    | .ok scouted =>
      match room.scoutItems cfg setup locIDs with
      | .error e => .error e
      | .ok items => .ok (scouted.toList ++ items)

def handleLocationScouts (cfg : Config) (sess : Session) (locations : List Int) :
    Handler Unit := do
  let scoutedItems ← .query fun db : Savefile => sess.scoutItems cfg db.toSetupTables locations
  .emit (.toAP (.locationInfo scoutedItems))

/-- Append an item found in the own world, and tell the client if it wants them. -/
def dispatchOwn (sess : Session) (item : NetworkItem) (locID : Int) : Handler Unit := do
  let index ← addSentItems [(item, .checked locID)]
  sess.notify receiveOwnItems index [item]

/-- Queue an item of another player, and send it. -/
def dispatchForeign (env : Env) (msg : DataSendMessage) (locID : Int) : Handler Unit := do
  addUnconfirmedItems env [(locID, msg)]
  .emit (.toMW (.dataSend msg))

def checkLocation (cfg : Config) (env : Env) (sess : Session) (locID : Int) : Handler Unit := do
  let checked ← .read fun db : Savefile => db.isLocationCleared locID
  if checked then pure ()
  else do
    let placed ← .read fun db : Savefile => db.getPlacedItem locID
    match placed with
    | some (ownerID, name) =>
      if ownerID = sess.playerID then do
        dispatchOwn sess ⟨sess.ownItemID cfg name, locID, sess.playerID + 1, 0⟩ locID
        clearLocations [locID]
      else do
        dispatchForeign env (sendMessage ownerID name) locID
        clearLocations [locID]
    | none =>
      if sess.itemHandling.has receiveOwnItems then
        match sess.localItem cfg locID with
        | none => pure ()
        | some item => do
          dispatchOwn sess item locID
          clearLocations [locID]
      else pure ()

def handleLocationChecks (cfg : Config) (env : Env) (sess : Session) (locations : List Int) :
    Handler Unit :=
  .forEach (checkLocation cfg env sess) locations

def handleAP (cfg : Config) (env : Env) (sess : Session) : ClientMessage → Handler Session
  | .getDataPackage games => do handleGetDataPackage cfg sess games; pure sess
  | .connect m => handleConnect cfg sess m
  | .say text => do handleSay cfg env sess text; pure sess
  | .sync => do handleSync sess; pure sess
  | .set m => do handleSet cfg env sess m; pure sess
  | .setNotify keys => pure { sess with watchedKeys := keys ++ sess.watchedKeys }
  | .get m => do handleGet env m; pure sess
  | .locationScouts locations => do handleLocationScouts cfg sess locations; pure sess
  | .locationChecks locations => do handleLocationChecks cfg env sess locations; pure sess

/-- One step of the loop. -/
def handle (cfg : Config) (env : Env) (sess : Session) (m : Incoming) : Handler Session := do
  .emit (.recv m)
  match m with
  | .fromMW m => do handleMW cfg env sess m; pure sess
  | .fromAP m => handleAP cfg env sess m

end Isthmus
