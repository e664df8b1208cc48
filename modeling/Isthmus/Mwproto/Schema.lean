import Isthmus.Go.Values

/-!
# The messages of the MW protocol

One structure for each message type that carries fields, and the sum of all of
them. The type numbers follow the order of the constants in the source.
-/

namespace Isthmus.Mwproto

/-- The message types, in the order of their numbers. -/
inductive MessageType where
  | invalid
  | sharedCore
  | connect
  | disconnect
  | join
  | joinConfirm
  | dataReceive
  | dataReceiveConfirm
  | dataSend
  | dataSendConfirm
  | readyConfirm
  | readyDeny
  | ping
  | ready
  | result
  | save
  | randoGenerated
  | unready
  | initiateGame
  | requestRando
  | announceCharmNotchCosts
  | requestCharmNotchCosts
  | confirmCharmNotchCostsReceived
  | datasSend
  | datasSendConfirm
  | initiateSyncGame
  | applySettings
  | requestSettings
  | isReady
  | datasReceive
  | datasReceiveConfirm
  | connectedPlayersChanged
  deriving DecidableEq

namespace MessageType

def all : List MessageType :=
  [invalid, sharedCore, connect, disconnect, join, joinConfirm, dataReceive,
    dataReceiveConfirm, dataSend, dataSendConfirm, readyConfirm, readyDeny, ping, ready,
    result, save, randoGenerated, unready, initiateGame, requestRando,
    announceCharmNotchCosts, requestCharmNotchCosts, confirmCharmNotchCostsReceived,
    datasSend, datasSendConfirm, initiateSyncGame, applySettings, requestSettings, isReady,
    datasReceive, datasReceiveConfirm, connectedPlayersChanged]

def number (t : MessageType) : UInt32 := UInt32.ofNat (all.idxOf t)

def ofNumber (n : UInt32) : Option MessageType := all[n.toNat]?

theorem ofNumber_number (t : MessageType) : ofNumber t.number = some t := by
  cases t <;> decide

end MessageType

structure ConnectMessage where
  serverName : GoString
  deriving DecidableEq

structure PingMessage where
  replyValue : UInt32
  deriving DecidableEq

structure JoinMessage where
  displayName : GoString
  randoID : Int32
  playerID : Int32
  mode : UInt8
  deriving DecidableEq

structure KeyValuePair where
  key : GoString
  value : GoString
  deriving DecidableEq

structure ReadyMessage where
  room : GoString
  nickname : GoString
  mode : UInt8
  readyMetadata : List KeyValuePair
  deriving DecidableEq

structure ReadyConfirmMessage where
  ready : Int32
  names : List GoString
  deriving DecidableEq

structure ReadyDenyMessage where
  description : GoString
  deriving DecidableEq

structure GameOptions where
  randomizationAlgorithm : Json

structure InitiateGameMessage where
  options : GameOptions

structure Placement where
  item : GoString
  location : GoString
  deriving DecidableEq

structure RandoGeneratedMessage where
  items : GoMap GoString (List Placement)
  seed : Int32

structure ResultPlacement where
  item : GoString
  location : GoString
  deriving DecidableEq

structure SpoilerLogs where
  fullOrderedItemsLog : GoString
  individualWorldSpoilers : GoMap GoString GoString

structure ResultMessage where
  playerID : Int32
  randoID : Int32
  nicknames : List GoString
  readyMetadata : List (List KeyValuePair)
  itemsSpoiler : SpoilerLogs
  placements : GoMap GoString (List ResultPlacement)
  playerItemsPlacements : GoMap GoString GoString
  generatedHash : GoString

structure DataReceiveMessage where
  label : GoString
  content : GoString
  sender : GoString
  fromID : Int32
  deriving DecidableEq

structure DataReceiveItem where
  label : GoString
  content : GoString
  deriving DecidableEq

structure DatasReceiveMessage where
  items : List DataReceiveItem
  sender : GoString
  deriving DecidableEq

structure DataReceiveConfirmMessage where
  label : GoString
  data : GoString
  sender : GoString
  deriving DecidableEq

structure DatasReceiveConfirmMessage where
  count : Int32
  sender : GoString
  deriving DecidableEq

structure DataSendMessage where
  label : GoString
  content : GoString
  toPlayer : Int32
  ttl : Int32
  deriving DecidableEq

structure DataSendConfirmMessage where
  label : GoString
  content : GoString
  toPlayer : Int32
  deriving DecidableEq

structure AnnounceCharmNotchCostsMessage where
  playerID : Int32
  notchCosts : GoMap Int Int

structure ConfirmCharmNotchCostsReceived where
  playerID : Int32
  deriving DecidableEq

inductive Message where
  | connect (m : ConnectMessage)
  | ping (m : PingMessage)
  | disconnect
  | join (m : JoinMessage)
  | joinConfirm
  | ready (m : ReadyMessage)
  | readyConfirm (m : ReadyConfirmMessage)
  | readyDeny (m : ReadyDenyMessage)
  | unready
  | initiateGame (m : InitiateGameMessage)
  | requestRando
  | randoGenerated (m : RandoGeneratedMessage)
  | result (m : ResultMessage)
  | dataReceive (m : DataReceiveMessage)
  | datasReceive (m : DatasReceiveMessage)
  | dataReceiveConfirm (m : DataReceiveConfirmMessage)
  | datasReceiveConfirm (m : DatasReceiveConfirmMessage)
  | save
  | dataSend (m : DataSendMessage)
  | dataSendConfirm (m : DataSendConfirmMessage)
  | requestCharmNotchCosts
  | announceCharmNotchCosts (m : AnnounceCharmNotchCostsMessage)
  | confirmCharmNotchCostsReceived (m : ConfirmCharmNotchCostsReceived)

def Message.msgType : Message → MessageType
  | .connect _ => .connect
  | .ping _ => .ping
  | .disconnect => .disconnect
  | .join _ => .join
  | .joinConfirm => .joinConfirm
  | .ready _ => .ready
  | .readyConfirm _ => .readyConfirm
  | .readyDeny _ => .readyDeny
  | .unready => .unready
  | .initiateGame _ => .initiateGame
  | .requestRando => .requestRando
  | .randoGenerated _ => .randoGenerated
  | .result _ => .result
  | .dataReceive _ => .dataReceive
  | .datasReceive _ => .datasReceive
  | .dataReceiveConfirm _ => .dataReceiveConfirm
  | .datasReceiveConfirm _ => .datasReceiveConfirm
  | .save => .save
  | .dataSend _ => .dataSend
  | .dataSendConfirm _ => .dataSendConfirm
  | .requestCharmNotchCosts => .requestCharmNotchCosts
  | .announceCharmNotchCosts _ => .announceCharmNotchCosts
  | .confirmCharmNotchCostsReceived _ => .confirmCharmNotchCostsReceived

def labelMultiworldItem : GoString := lit "MultiWorld-Item"

end Isthmus.Mwproto
