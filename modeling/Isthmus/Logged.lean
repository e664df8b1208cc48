import Isthmus.Lib.Triples
import Isthmus.Packages
import Isthmus.Refinement

/-!
# What the log and the messages stand for

Every row of `ap_sent_items` was appended for a message: one that delivers an item or
collects it under its name, or one that checks a location. The row has the ids that the
seed and the tables of the setup give to that name and to where it comes from, or to what
is placed at that location. What the client was told of a location, and what the MW server
was sent, is what is placed there as well.

## Main results

- `log_rows_stand`: in every run, kills included
- `scouted_items_stand`: what a client was told of a location is what its check gives
- `sent_items_placed`: each item that was sent is placed, and goes to its owner
-/

namespace Isthmus

open Process Mwproto Approto Channels Pipes

/-- The location that an own item comes from, by its id in the package of the game it was
found in: that of its location among the own items, and 0 for a location that the package
does not have, or an item that is not one of them. The empty name may be bound as NULL,
so that it is none of them either. -/
def Room.FoundAt (room : Room) (setup : SetupTables) (game name : GoString) (locID : Int) : Prop :=
  (match setup.ownItemPlacements.find name with
    | some own => locID = (locationNames.ids room.dataPackages (game, own.locationName)).getD 0
    | none => locID = 0) ∨
  name = [] ∧ locID = 0

/-- The row is what the message gives in the room. -/
inductive Room.Right (room : Room) (cfg : Config) (setup : SetupTables) :
    Incoming → SentRow → Prop
  | delivered {d : DataReceiveMessage} {game : GoString} {locID : Int}
    (hgame : indexed room.games d.fromID.toInt = some game)
    (hloc : room.FoundAt setup game d.content locID) :
    Right room cfg setup (.fromMW (.dataReceive d))
      ⟨room.ownItemID cfg d.content, locID, d.fromID.toInt + 1, 0, .delivered d.label d.content⟩
  | released {d : DatasReceiveMessage} {item : DataReceiveItem} {i : Nat} {game : GoString}
    {locID : Int} (hitem : item ∈ d.items) (hsender : room.nicknames.idxOf? d.sender = some i)
    (hgame : indexed room.games i = some game)
    (hloc : room.FoundAt setup game item.content locID) :
    Right room cfg setup (.fromMW (.datasReceive d))
      ⟨room.ownItemID cfg item.content, locID, i + 1, 0, .delivered item.label item.content⟩
  -- nobody in the room has the name of the sender
  | releasedByUnknown {d : DatasReceiveMessage} {item : DataReceiveItem} (hitem : item ∈ d.items)
    (hsender : d.sender ∉ room.nicknames) :
    Right room cfg setup (.fromMW (.datasReceive d))
      ⟨room.ownItemID cfg item.content, -2, 0, 0, .delivered item.label item.content⟩
  -- the location has an id in the package of its game, which no other location has
  | collected {own : OwnItemRow} {game : GoString} {locID : Int}
    (hown : own ∈ setup.ownItemPlacements.rows) (hother : own.sourcePlayerID ≠ room.playerID)
    (hgame : indexed room.games (toInt32 own.sourcePlayerID) = some game)
    (hloc : ∀ k, locationNames.ids room.dataPackages k = some locID ↔
      k = (game, own.locationName)) :
    Right room cfg setup (.fromAP (.say (lit "!collect")))
      ⟨room.ownItemID cfg own.itemName, locID, toInt32 own.sourcePlayerID + 1, 0,
        .collected own.itemName⟩
  | placed {ids : List Int} {id : Int} {name : GoString} (hid : id ∈ ids)
    (hplaced : setup.getPlacedItem id = some (room.playerID, name)) :
    Right room cfg setup (.fromAP (.locationChecks ids))
      ⟨room.ownItemID cfg name, id, room.playerID + 1, 0, .checked id⟩
  | generated {ids : List Int} {id item owner flags : Int} {rest : List Int} (hid : id ∈ ids)
    (hplaced : setup.getPlacedItem id = none)
    (hloc : cfg.data.locationOf room.slotID id = some (item :: owner :: flags :: rest)) :
    Right room cfg setup (.fromAP (.locationChecks ids))
      ⟨item, id, room.playerID + 1, flags, .checked id⟩

/-- What is delivered or collected has the id of its name. -/
theorem Room.Right.itemID {room : Room} {cfg : Config} {setup : SetupTables} {m : Incoming}
    {row : SentRow} (h : room.Right cfg setup m row) {label name : GoString}
    (horigin : row.origin = .delivered label name ∨ row.origin = .collected name) :
    row.itemID = room.ownItemID cfg name := by
  cases h with
  | delivered | released | releasedByUnknown | collected =>
    obtain horigin | horigin := horigin <;> cases horigin
    rfl
  | placed | generated => obtain horigin | horigin := horigin <;> cases horigin

/-- The item is what is placed at its location. One of another player has the id that the
packages of the room give to its name, and to no other. -/
def Room.Scouted (room : Room) (cfg : Config) (setup : SetupTables) (item : NetworkItem) :
    Prop :=
  match setup.getPlacedItem item.location with
  | some (ownerID, name) =>
    item.player = ownerID + 1 ∧ item.flags = 0 ∧
      if ownerID = room.playerID then item.item = room.ownItemID cfg name
      else ∃ game, indexed room.games ownerID = some game ∧
        ∀ k, itemNames.ids room.dataPackages k = some item.item ↔ k = (game, prettifyName name)
  | none => item.player = room.playerID + 1 ∧ ∃ owner rest,
    cfg.data.locationOf room.slotID item.location =
      some (item.item :: owner :: item.flags :: rest)

/-- The message that a rejoin sends for a row. -/
def UnconfirmedRow.message (row : UnconfirmedRow) : DataSendMessage :=
  ⟨row.label, row.content, Int32.ofInt (toInt32 row.destPlayerID), Savefile.sentItemTTL⟩

/-- The message was queued from the start, or sends an item placed in the own world to its
owner. -/
def Savefile.Due (db₀ : Savefile) (m : DataSendMessage) : Prop :=
  (∃ u ∈ db₀.unconfirmedSentItems.rows, m = u.message) ∨
    ∃ locID ownerID name, db₀.getPlacedItem locID = some (ownerID, name) ∧
      ownerID ≠ db₀.selfID ∧ m = sendMessage ownerID name

/-- Handlers rely on the tables of the setup, and on what is queued. -/
def Savefile.Grown (db₀ db : Savefile) : Prop :=
  db.toSetupTables = db₀.toSetupTables ∧ ∀ u ∈ db.unconfirmedSentItems.rows, db₀.Due u.message

/-- What the handler of a message may do. -/
def Room.Allows (room : Room) (cfg : Config) (db₀ : Savefile) (m : Incoming) :
    Effect Commit Io → Prop
  | .commit (.addSentItems rows) => ∀ row ∈ rows, room.Right cfg db₀.toSetupTables m row
  | .commit (.addUnconfirmedItems rows) => ∀ u, Queues rows u → db₀.Due u.message
  | .io (.toAP (.locationInfo items)) => ∀ item ∈ items, room.Scouted cfg db₀.toSetupTables item
  | .io (.toMW (.dataSend m)) => db₀.Due m
  | _ => True

/-- What a write leaves in the queue was there, or is queued by it. -/
theorem queued_write {db : Savefile} {c : Commit} {u : UnconfirmedRow}
    (h : u ∈ (write db c).unconfirmedSentItems.rows) :
    u ∈ db.unconfirmedSentItems.rows ∨ ∃ rows, c = .addUnconfirmedItems rows ∧ Queues rows u := by
  rcases write_cases db c with hok | hok
  · cases c with
    | addUnconfirmedItems rows =>
      obtain ⟨t, ht, -, hdb⟩ := apply_addUnconfirmedItems_ok hok
      rw [hdb] at h
      exact ((ht u).mp h).imp_right fun hu => ⟨rows, rfl, hu⟩
    | confirmItem label content toPlayer =>
      rw [write_of_ok (apply_confirmItem label content toPlayer)] at h
      exact .inl (Table.mem_delete.mp h).1
    | clearLocations ids | addSentItems rows | addReceivedItem label content
    | setStoredData key val =>
      rw [(apply_frame hok).2.2.1 (by simp [Commit.target])] at h
      exact .inl h
  · rw [hok] at h
    exact .inl h

def Room.contract (room : Room) (cfg : Config) (db₀ : Savefile) (m : Incoming) :
    Contract Savefile Commit Io where
  inv := db₀.Grown
  allows := room.Allows cfg db₀ m
  keep db c hc h := by
    refine ⟨(replay_toSetupTables (μ := Io) [.commit c]).trans h.1, fun u hu => ?_⟩
    obtain hold | ⟨rows, rfl, hnew⟩ := queued_write hu
    · exact h.2 u hold
    · exact hc u hnew

section Handlers

variable {cfg : Config} {setup : SetupTables} {db₀ : Savefile} {room : Room} {m : Incoming}

abbrev Keeps {α : Type} (room : Room) (cfg : Config) (db₀ : Savefile) (m : Incoming)
    (p : Handler α) (Q : α → Prop) : Prop :=
  p.Triple (room.contract cfg db₀ m) Q

/-- Items that may be appended. -/
def Room.RightItems (room : Room) (cfg : Config) (setup : SetupTables) (m : Incoming)
    (items : List (NetworkItem × Origin)) : Prop :=
  ∀ p ∈ items, room.Right cfg setup m (sentRow p.1 p.2)

open Proc.Triple

theorem keeps_addSentItems {items : List (NetworkItem × Origin)}
    (h : room.RightItems cfg db₀.toSetupTables m items) :
    Keeps room cfg db₀ m (addSentItems items : Handler Int) fun _ => True := by
  refine bind read fun count _ => bind (commit ?_) fun _ _ => pure trivial
  intro row hrow
  obtain ⟨p, hp, rfl⟩ := List.mem_map.mp hrow
  exact h p hp

/-- A queued message is read back as it was. -/
theorem message_of_check {env : Env} {locID : Int} {m : DataSendMessage} {u : UnconfirmedRow}
    (httl : m.ttl = Savefile.sentItemTTL)
    (h : (⟨locID, env.bindString m.label, env.bindString m.content, m.toPlayer.toInt⟩ :
      SendRow).check = .ok u) : u.message = m := by
  cases hlabel : env.bindString m.label with
  | none => simp [SendRow.check, hlabel] at h
  | some label =>
    cases hcontent : env.bindString m.content with
    | none => simp [SendRow.check, hlabel, hcontent] at h
    | some content =>
      simp only [SendRow.check, hlabel, hcontent, Except.ok.injEq] at h
      subst h
      have hto : Int32.ofInt (toInt32 m.toPlayer.toInt) = m.toPlayer := by
        rw [toInt32_of_fits (fits_int32 m.toPlayer), Int32.ofInt_toInt]
      rw [UnconfirmedRow.message, hto, ← (Env.bindString_eq_some_iff.mp hlabel).2,
        ← (Env.bindString_eq_some_iff.mp hcontent).2, ← httl]

theorem keeps_addUnconfirmedItems {env : Env} {items : List (Int × DataSendMessage)}
    (h : ∀ p ∈ items, p.2.ttl = Savefile.sentItemTTL ∧ db₀.Due p.2) :
    Keeps room cfg db₀ m (addUnconfirmedItems env items : Handler Unit) fun _ => True := by
  refine commit ?_
  rintro u ⟨r, hr, hu⟩
  obtain ⟨p, hp, rfl⟩ := List.mem_map.mp hr
  obtain ⟨httl, hdue⟩ := h p hp
  exact message_of_check httl hu ▸ hdue

/-- What the session looks up is where the item was found. -/
theorem locationID_foundAt {env : Env} {fromID locID : Int} {name : GoString}
    (h : room.locationID setup env fromID name = .ok locID) {game : GoString}
    (hgame : indexed room.games fromID = some game) : room.FoundAt setup game name locID := by
  simp only [Room.locationID, SetupTables.getLocationOfOwnItem] at h
  rw [Room.FoundAt]
  cases hbind : env.bindString name with
  | none =>
    rw [hbind] at h
    cases h
    exact .inr ⟨(Env.bindString_eq_none_iff.mp hbind).2, rfl⟩
  | some name' =>
    obtain ⟨-, rfl⟩ := Env.bindString_eq_some_iff.mp hbind
    refine .inl ?_
    rw [hbind, Option.bind_some] at h
    cases hfind : setup.ownItemPlacements.find name with
    | none =>
      rw [hfind] at h
      cases h
      rfl
    | some own =>
      rw [hfind, Option.map_some, Room.packageOf, hgame, Option.bind_some] at h
      dsimp only at h ⊢
      rw [Part.ids]
      cases hdp : room.dataPackages.lookup game with
      | none =>
        rw [hdp] at h
        cases h
      | some dp =>
        rw [hdp] at h
        cases h
        rfl

theorem receivedItem_right {env : Env} {d : DataReceiveMessage} {item : NetworkItem}
    {game : GoString} (hgame : indexed room.games d.fromID.toInt = some game)
    (h : room.receivedItem cfg setup env d.fromID.toInt d.content = .ok item) :
    room.Right cfg setup (.fromMW (.dataReceive d))
      (sentRow item (.delivered d.label d.content)) := by
  simp only [Room.receivedItem] at h
  split at h
  · cases h
  · next locID hloc =>
    cases h
    exact .delivered hgame (locationID_foundAt hloc hgame)

/-- The sender of a batch has a game, or is unknown. -/
theorem releasedItem_right (hlen : room.games.length = room.nicknames.length) {env : Env}
    {d : DatasReceiveMessage} {it : DataReceiveItem} (hit : it ∈ d.items) {item : NetworkItem}
    (h : room.releasedItem cfg setup env (room.senderID d.sender) it.content = .ok item) :
    room.Right cfg setup (.fromMW (.datasReceive d))
      (sentRow item (.delivered it.label it.content)) := by
  rw [Room.senderID] at h
  cases hsender : room.nicknames.idxOf? d.sender with
  | none =>
    rw [hsender] at h
    simp only [Room.releasedItem, if_true] at h
    cases h
    exact .releasedByUnknown hit (List.idxOf?_eq_none_iff.mp hsender)
  | some i =>
    have hne : (i : Int) ≠ -1 := by omega
    have hid : room.senderID d.sender = i := by rw [Room.senderID, hsender]
    obtain ⟨game, hgame⟩ := (hid ▸ senderID_indexed hlen d.sender).resolve_left hne
    rw [hsender] at h
    simp only [Room.releasedItem, if_neg hne, Room.receivedItem] at h
    split at h
    · cases h
    · next locID hloc =>
      cases h
      exact .released hit hsender hgame (locationID_foundAt hloc hgame)

theorem collectItems_right (hroom : cfg.openRoom setup = .ok room) {ps : List OwnItemPlacement}
    (hps : ∀ p ∈ ps, ∃ own ∈ setup.ownItemPlacements.rows, own.sourcePlayerID ≠ room.playerID ∧
      p = ⟨own.itemName, toInt32 own.sourcePlayerID, own.locationName⟩)
    {items : List (NetworkItem × Origin)} (h : room.collectItems cfg ps = .ok items) :
    room.RightItems cfg setup (.fromAP (.say (lit "!collect"))) items := by
  induction ps generalizing items with
  | nil =>
    cases h
    exact nofun
  | cons p ps ih =>
    simp only [Room.collectItems] at h
    split at h
    · cases h
    · next dp hdp =>
      obtain ⟨game, hgame, -⟩ := Option.bind_eq_some_iff.mp hdp
      split at h
      · cases h
      · next rest hrest =>
        cases h
        intro q hq
        obtain rfl | hq := List.mem_cons.mp hq
        · obtain ⟨own, hown, hother, rfl⟩ := hps p List.mem_cons_self
          have hfind := openRoom_lookupsFind hroom
          obtain ⟨id, hid⟩ := hfind.location _ (mem_getOwnItemLocations hown) game hgame
          obtain ⟨dp', hdp', hindex⟩ := index_of_ids hid hgame
          cases hdp.symm.trans hdp'
          refine .collected hown hother hgame fun k => ⟨fun hk => ?_, ?_⟩
          · exact hfind.locations_unique _ _ _ hk (hindex.symm ▸ hid)
          · rintro rfl
            exact hindex.symm ▸ hid
        · exact ih (fun p hp => hps p (List.mem_cons_of_mem _ hp)) hrest q hq

theorem localItem_right {ids : List Int} {id : Int} (hid : id ∈ ids) {item : NetworkItem}
    (hnone : setup.getPlacedItem id = none) (h : room.localItem cfg id = some item) :
    room.Right cfg setup (.fromAP (.locationChecks ids)) (sentRow item (.checked id)) := by
  simp only [Room.localItem] at h
  split at h
  · next owner rest hloc =>
    cases h
    exact .generated hid hnone hloc
  · cases h

theorem scoutItem_scouted (h : cfg.openRoom setup = .ok room) {id : Int} {item : NetworkItem}
    (hitem : room.scoutItem cfg setup id = .ok (some item)) : room.Scouted cfg setup item := by
  have hfind := openRoom_lookupsFind h
  simp only [Room.scoutItem] at hitem
  split at hitem
  · next ownerID name hplaced =>
    split at hitem
    · next howner =>
      cases hitem
      simp [Room.Scouted, hplaced, howner]
    · next howner =>
      split at hitem
      · cases hitem
      · next dp hdp =>
        cases hitem
        obtain ⟨game, hgame, hpkg⟩ := Option.bind_eq_some_iff.mp hdp
        obtain ⟨i, hi⟩ := hfind.item ⟨id, ownerID, name⟩ (mem_getOwnWorldPlacements.mpr hplaced)
          game hgame
        obtain ⟨dp', hdp', hindex⟩ := index_of_ids hi hgame
        cases hdp.symm.trans hdp'
        simp only [Room.Scouted, hplaced, if_neg howner]
        refine ⟨trivial, trivial, game, hgame, fun k => ⟨fun hk => ?_, ?_⟩⟩
        · exact hfind.items_unique _ _ _ hk (hindex.symm ▸ hi)
        · rintro rfl
          exact hindex.symm ▸ hi
  · next hplaced =>
    simp only [Room.localItem] at hitem
    split at hitem
    · next owner rest hloc =>
      cases hitem
      simp [Room.Scouted, hplaced, hloc]
    · cases hitem

theorem scoutItems_scouted (h : cfg.openRoom setup = .ok room) {ids : List Int}
    {items : List NetworkItem} (hitems : room.scoutItems cfg setup ids = .ok items) :
    ∀ item ∈ items, room.Scouted cfg setup item := by
  induction ids generalizing items with
  | nil =>
    cases hitems
    exact nofun
  | cons id ids ih =>
    simp only [Room.scoutItems] at hitems
    split at hitems
    · cases hitems
    · next scouted hone =>
      split at hitems
      · cases hitems
      · next rest hrest =>
        cases hitems
        intro item hmem
        obtain hmem | hmem := List.mem_append.mp hmem
        · rw [Option.mem_toList.mp hmem] at hone
          exact scoutItem_scouted h hone
        · exact ih hrest item hmem

variable (env : Env) {sess : Session}

theorem keeps_notify (flag : ItemHandlingMode) (index : Int) (items : List NetworkItem) :
    Keeps sess.toRoom cfg db₀ m (sess.notify flag index items) fun _ => True :=
  ite (emit trivial) (pure trivial)

theorem keeps_receiveItems (hlen : sess.games.length = sess.nicknames.length)
    {d : DatasReceiveMessage} {items : List DataReceiveItem} (hitems : ∀ it ∈ items, it ∈ d.items) :
    Keeps sess.toRoom cfg db₀ (.fromMW (.datasReceive d))
      (receiveItems cfg env sess (sess.senderID d.sender) items)
      (sess.RightItems cfg db₀.toSetupTables (.fromMW (.datasReceive d))) := by
  induction items with
  | nil => exact pure nofun
  | cons item items ih =>
    obtain ⟨hitem, hitems⟩ := List.forall_mem_cons.mp hitems
    have ih := ih hitems
    refine ite ih (bind read fun duplicate _ => ite ih (bind query fun sentItem hsent => ?_))
    obtain ⟨db, hdb, hsent⟩ := hsent
    rw [hdb.1] at hsent
    refine bind (commit trivial) fun _ _ => bind ih fun rest hrest => pure fun p hp => ?_
    obtain rfl | hp := List.mem_cons.mp hp
    · exact releasedItem_right hlen hitem hsent
    · exact hrest p hp

theorem keeps_handleMW (hlen : sess.games.length = sess.nicknames.length) (m : Message) :
    Keeps sess.toRoom cfg db₀ (.fromMW m) (handleMW cfg env sess m) fun _ => True := by
  cases m with
  | joinConfirm =>
    refine bind read fun items hitems => forEach fun it hit => emit ?_
    obtain ⟨db, hdb, rfl⟩ := hitems
    obtain ⟨u, hu, rfl⟩ := List.mem_map.mp hit
    exact hdb.2 u ((env.scanUnconfirmed_perm _).mem_iff.mp hu)
  | dataReceive m =>
    refine ite (pure trivial) ?_
    by_cases hfrom : ¬ (0 ≤ m.fromID.toInt ∧ m.fromID.toInt < sess.games.length)
    · rw [if_pos hfrom]
      exact pure trivial
    rw [if_neg hfrom]
    rw [not_not] at hfrom
    refine bind read fun duplicate _ => ite (pure trivial) (bind query fun item hitem => ?_)
    obtain ⟨db, hdb, hitem⟩ := hitem
    rw [hdb.1] at hitem
    obtain ⟨g, hg⟩ := exists_indexed hfrom.1 hfrom.2
    refine bind (keeps_addSentItems fun p hp => ?_) fun index _ => ?_
    · rw [List.mem_singleton.mp hp]
      exact receivedItem_right hg hitem
    refine bind (keeps_notify _ _ _) fun _ _ => bind (emit trivial) fun _ _ => ?_
    exact bind (commit trivial) fun _ _ => emit trivial
  | datasReceive m =>
    refine bind (keeps_receiveItems env hlen fun it hit => hit) fun items hitems => ?_
    refine bind (keeps_addSentItems hitems) fun index _ => bind (keeps_notify _ _ _) fun _ _ => ?_
    exact bind (emit trivial) fun _ _ => emit trivial
  | dataSendConfirm m =>
    rw [handleMW]
    exact commit trivial
  | requestCharmNotchCosts => exact emit trivial
  | announceCharmNotchCosts m => exact emit trivial
  | _ => exact pure trivial

theorem keeps_handleSet (set : SetMessage) :
    Keeps sess.toRoom cfg db₀ m (handleSet cfg env sess set) fun _ => True := by
  refine ite (pure trivial) (bind read fun orig _ => ?_)
  cases cfg.evaluate orig set with
  | error e =>
    cases e with
    | panic => exact fail _
    | _ => exact pure trivial
  | ok newBytes =>
    exact bind (attempt (commit trivial)) fun _ _ => ite (emit trivial) (pure trivial)

variable (hroom : cfg.openRoom db₀.toSetupTables = .ok sess.toRoom)
include hroom

theorem keeps_handleCollect :
    Keeps sess.toRoom cfg db₀ (.fromAP (.say (lit "!collect"))) (handleCollect cfg env sess)
      fun _ => True := by
  refine bind query fun items hitems => ?_
  obtain ⟨db, hdb, hitems⟩ := hitems
  have hps : ∀ p ∈ db.getCollectablePlacements env sess.playerID,
      ∃ own ∈ db₀.ownItemPlacements.rows, own.sourcePlayerID ≠ sess.playerID ∧
        p = ⟨own.itemName, toInt32 own.sourcePlayerID, own.locationName⟩ := by
    intro p hp
    obtain ⟨own, hown, hother, -, rfl⟩ := Savefile.mem_getCollectablePlacements.mp hp
    exact ⟨own, hdb.1 ▸ hown, hother, rfl⟩
  exact bind (keeps_addSentItems (collectItems_right hroom hps hitems)) fun index _ => emit trivial

theorem keeps_handleSay (text : GoString) :
    Keeps sess.toRoom cfg db₀ (.fromAP (.say text)) (handleSay cfg env sess text)
      fun _ => True := by
  by_cases hcollect : text = lit "!collect"
  · subst hcollect
    exact keeps_handleCollect env hroom
  rw [handleSay, if_neg hcollect]
  refine ite ?_ (pure trivial)
  · refine bind read fun messages hmessages => ?_
    obtain ⟨db, hdb, rfl⟩ := hmessages
    have hdue : ∀ p ∈ (db.releasable sess.playerID).map fun p =>
        (p.apLocationID, sendMessage p.ownerID p.name),
        p.2.ttl = Savefile.sentItemTTL ∧ db₀.Due p.2 := by
      intro q hq
      obtain ⟨p, hp, rfl⟩ := List.mem_map.mp hq
      obtain ⟨hplaced, howner, -⟩ := mem_releasable.mp hp
      rw [hdb.1] at hplaced
      rw [← cfg.selfID_of_openRoom hroom] at howner
      exact ⟨rfl, .inr ⟨_, _, _, hplaced, howner, rfl⟩⟩
    refine bind (keeps_addUnconfirmedItems hdue) fun _ _ => ?_
    exact bind (commit trivial) fun _ _ => forEach fun p hp => emit (hdue p hp).2

theorem keeps_checkLocation {ids : List Int} {locID : Int} (hid : locID ∈ ids) :
    Keeps sess.toRoom cfg db₀ (.fromAP (.locationChecks ids)) (checkLocation cfg env sess locID)
      fun _ => True := by
  have hown : ∀ item, sess.Right cfg db₀.toSetupTables (.fromAP (.locationChecks ids))
        (sentRow item (.checked locID)) →
      Keeps sess.toRoom cfg db₀ (.fromAP (.locationChecks ids)) (dispatchOwn sess item locID)
        fun _ => True := by
    intro item hitem
    refine bind (keeps_addSentItems fun p hp => ?_) fun index _ => keeps_notify _ _ _
    rw [List.mem_singleton.mp hp]
    exact hitem
  refine bind read fun checked _ => ite (pure trivial) (bind read fun placed hplaced => ?_)
  obtain ⟨db, hdb, rfl⟩ := hplaced
  rw [hdb.1]
  rcases hplaced : db₀.getPlacedItem locID with _ | ⟨ownerID, name⟩
  · refine ite ?_ (pure trivial)
    cases hlocal : sess.localItem cfg locID with
    | none => exact pure trivial
    | some item =>
      exact bind (hown item (localItem_right hid hplaced hlocal)) fun _ _ => commit trivial
  · by_cases howner : ownerID = sess.playerID
    · subst howner
      simp only [if_true]
      exact bind (hown _ (.placed hid hplaced)) fun _ _ => commit trivial
    · simp only [if_neg howner]
      rw [← cfg.selfID_of_openRoom hroom] at howner
      have hdue : db₀.Due (sendMessage ownerID name) := .inr ⟨_, _, _, hplaced, howner, rfl⟩
      have hqueue : Keeps sess.toRoom cfg db₀ (.fromAP (.locationChecks ids))
          (addUnconfirmedItems env [(locID, sendMessage ownerID name)] : Handler Unit)
          fun _ => True := keeps_addUnconfirmedItems (by simpa using ⟨rfl, hdue⟩)
      exact bind (bind hqueue fun _ _ => emit hdue) fun _ _ => commit trivial

theorem keeps_handleAP (m : ClientMessage) :
    Keeps sess.toRoom cfg db₀ (.fromAP m) (handleAP cfg env sess m) fun _ => True := by
  cases m with
  | getDataPackage games => exact bind (emit trivial) fun _ _ => pure trivial
  | connect m =>
    refine bind (emit trivial) fun _ _ => ?_
    cases m.itemsHandling with
    | none => exact fail _
    | some mode =>
      refine bind read fun resp _ => bind (emit trivial) fun _ _ => bind read fun items _ => ?_
      exact bind (emit trivial) fun _ _ => pure trivial
  | say text => exact bind (keeps_handleSay env hroom text) fun _ _ => pure trivial
  | sync =>
    have hsync : Keeps sess.toRoom cfg db₀ (.fromAP .sync) (handleSync sess) fun _ => True :=
      ite (bind read fun items _ => emit trivial) (pure trivial)
    exact bind hsync fun _ _ => pure trivial
  | set m => exact bind (keeps_handleSet env m) fun _ _ => pure trivial
  | setNotify keys => exact pure trivial
  | get m => exact bind (bind read fun values _ => emit trivial) fun _ _ => pure trivial
  | locationScouts locations =>
    refine bind (bind query fun items hitems => emit ?_) fun _ _ => pure trivial
    obtain ⟨db, hdb, hitems⟩ := hitems
    rw [hdb.1] at hitems
    exact scoutItems_scouted hroom hitems
  | locationChecks locations =>
    exact bind (forEach fun id hid => keeps_checkLocation env hroom hid) fun _ _ => pure trivial

theorem keeps_handle (m : Incoming) :
    Keeps sess.toRoom cfg db₀ m (handle cfg env sess m) fun _ => True := by
  cases m with
  | fromMW m =>
    obtain ⟨-, -, hlen, -⟩ := Config.openRoom_ok hroom
    exact bind (emit trivial) fun _ _ => bind (keeps_handleMW env hlen m) fun _ _ => pure trivial
  | fromAP m => exact bind (emit trivial) fun _ _ => keeps_handleAP env hroom m

end Handlers

/-! ## Runs -/

theorem mem_appended {t : Trace} {row : SentRow} (h : row ∈ appended (commits t)) :
    ∃ rows, .commit (.addSentItems rows) ∈ t ∧ row ∈ rows := by
  induction t with
  | nil => cases h
  | cons e t ih =>
    have htail : row ∈ appended (commits t) →
        ∃ rows, .commit (.addSentItems rows) ∈ e :: t ∧ row ∈ rows := fun h =>
      (ih h).imp fun _ => And.imp_left (List.mem_cons_of_mem e)
    cases e with
    | io m => exact htail h
    | commit c =>
      cases c with
      | addSentItems rows =>
        obtain h | h := List.mem_append.mp h
        · exact ⟨rows, List.mem_cons_self, h⟩
        · exact htail h
      | _ => exact htail h

/-- The handler of a message begins with its receipt. -/
theorem recv_mem_of_begins {cfg : Config} {env : Env} {sess : Session} {m : Incoming}
    {db : Savefile} {t : Trace} (ht : t <+: ((handle cfg env sess m).run db).trace)
    {e : Effect Commit Io} (he : e ∈ t) : .io (.recv m) ∈ t := by
  obtain ⟨u, hu⟩ := ht
  cases t with
  | nil => cases he
  | cons e' t =>
    have hhead : ((handle cfg env sess m).run db).trace.head? = some (.io (.recv m)) := by
      cases m with
      | fromMW m => rw [run_handle_fromMW]; rfl
      | fromAP m => rw [run_handle_fromAP]; rfl
    rw [← hu] at hhead
    cases hhead
    exact List.mem_cons_self

/-- Everything in the history of a run was said when a session was opened, or it was allowed
for a message that was received. -/
theorem allowed_play (cfg : Config) (db : Savefile) (es : List Event) :
    db.Grown (play cfg db es).db ∧ ∀ e ∈ (play cfg db es).history,
      (∃ t, cfg.Opening db.toSetupTables t ∧ e ∈ t) ∨
        ∃ room, cfg.openRoom db.toSetupTables = .ok room ∧
          ∃ m, .io (.recv m) ∈ (play cfg db es).history ∧ room.Allows cfg db m e := by
  refine play_keep (I := fun db' h => db.Grown db' ∧ ∀ e ∈ h,
    (∃ t, cfg.Opening db.toSetupTables t ∧ e ∈ t) ∨
      ∃ room, cfg.openRoom db.toSetupTables = .ok room ∧
        ∃ m, .io (.recv m) ∈ h ∧ room.Allows cfg db m e) ?_ ?_ ?_ es
  · intro db' t h ht hI
    refine ⟨hI.1, fun e he => ?_⟩
    obtain he | he := List.mem_append.mp he
    · refine (hI.2 e he).imp_right ?_
      rintro ⟨room, hroom, m, hm, hallows⟩
      exact ⟨room, hroom, m, List.mem_append_left _ hm, hallows⟩
    · exact .inl ⟨t, ht, he⟩
  · intro db' sess env m t h hroom _ ht hI
    have hkeeps : Keeps sess.toRoom cfg db m (handle cfg env sess m) fun _ => True :=
      keeps_handle env hroom m
    have hallows := fun e he => (hkeeps db' hI.1).1 e (ht.subset he)
    refine ⟨(sess.contract cfg db m).replay hI.1 hallows, fun e he => ?_⟩
    obtain he | he := List.mem_append.mp he
    · refine (hI.2 e he).imp_right ?_
      rintro ⟨room, hroom, m', hm', hallows'⟩
      exact ⟨room, hroom, m', List.mem_append_left _ hm', hallows'⟩
    · exact .inr ⟨sess.toRoom, hroom, m, List.mem_append_right _ (recv_mem_of_begins ht he),
        hallows e he⟩
  · exact ⟨⟨rfl, fun u hu => .inl ⟨u, hu, rfl⟩⟩, by simp⟩

/-- What was done and said, other than in an opening, was allowed. -/
theorem allows_play {cfg : Config} {db : Savefile} {es : List Event} {e : Effect Commit Io}
    (he : e ∈ (play cfg db es).history) (hmw : e ≠ .io (.toMW (.connect ⟨[]⟩)))
    (hap : ∀ games sums, e ≠ .io (.toAP (.roomInfo games sums))) :
    ∃ room, cfg.openRoom db.toSetupTables = .ok room ∧
      ∃ m, .io (.recv m) ∈ (play cfg db es).history ∧ room.Allows cfg db m e := by
  refine ((allowed_play cfg db es).2 e he).resolve_left ?_
  rintro ⟨t, ht, het⟩
  obtain heq | ⟨games, sums, heq⟩ := ht.mem het
  · exact hmw heq
  · exact hap games sums heq

theorem right_play (cfg : Config) (db : Savefile) (es : List Event) :
    ∀ row ∈ (play cfg db es).db.sentItems, row ∈ db.sentItems ∨
      ∃ room, cfg.openRoom db.toSetupTables = .ok room ∧
        ∃ m, .io (.recv m) ∈ (play cfg db es).history ∧
          room.Right cfg db.toSetupTables m row := by
  intro row hrow
  rw [play_replay, replay_eq_perform, sentItems_perform, List.mem_append] at hrow
  obtain hrow | hrow := hrow
  · exact .inl hrow
  · obtain ⟨rows, hrows, hrow⟩ := mem_appended hrow
    obtain ⟨room, hroom, m, hm, hright⟩ := allows_play hrows nofun nofun
    exact .inr ⟨room, hroom, m, hm, hright row hrow⟩

/-- In every run, wherever it is killed, each row that was appended is what a message that
was received gives: the item of the name that it delivers or collects, from the location
where the tables have it, or what is placed at the location that it checks. -/
theorem log_rows_stand (cfg : Config) (db : Savefile) (es : List Event) :
    ∀ row ∈ (play cfg db es).db.sentItems, row ∈ db.sentItems ∨
      ∃ room, cfg.openRoom db.toSetupTables = .ok room ∧
        ∃ m, .io (.recv m) ∈ (play cfg db es).history ∧
          room.Right cfg db.toSetupTables m row :=
  right_play cfg db es

/-- The key is collected, and the own lamp is found. -/
def collectThenCheck : List Event :=
  [.connect, .handle (Env.inOrder false) (.fromAP (.say (lit "!collect"))),
    .handle (Env.inOrder false) (.fromAP (.locationChecks [7, 8]))]

theorem log_rows_stand_sample : ∃ db,
    createSavefile (Env.inOrder false) sampleResult [] = .ok db ∧
      (play sampleConfig db collectThenCheck).db.sentItems.map SentRow.origin =
        [.collected (lit "Key_(4)"), .checked 8] ∧
      ∀ row ∈ (play sampleConfig db collectThenCheck).db.sentItems, row ∈ db.sentItems ∨
        ∃ room, sampleConfig.openRoom db.toSetupTables = .ok room ∧
          ∃ m, .io (.recv m) ∈ (play sampleConfig db collectThenCheck).history ∧
            room.Right sampleConfig db.toSetupTables m row := by
  obtain ⟨db, h, hlog⟩ := exists_created
    (x := createSavefile (Env.inOrder false) sampleResult [])
    (P := fun db => (play sampleConfig db collectThenCheck).db.sentItems.map SentRow.origin =
      [.collected (lit "Key_(4)"), .checked 8])
    (by decide +kernel)
  exact ⟨db, h, hlog, log_rows_stand sampleConfig db collectThenCheck⟩

/-! ## Scouted items -/

/-- The check of a location gives what was scouted there. -/
theorem Room.Scouted.eq_of_right {room : Room} {cfg : Config} {setup : SetupTables}
    {item : NetworkItem} {m : Incoming} {row : SentRow} (hitem : room.Scouted cfg setup item)
    (hrow : room.Right cfg setup m row) (horigin : row.origin = .checked item.location) :
    row = sentRow item (.checked item.location) := by
  cases hrow with
  | delivered | released | releasedByUnknown | collected => cases horigin
  | placed hid hplaced =>
    cases horigin
    simp only [Room.Scouted, hplaced, if_true] at hitem
    obtain ⟨hplayer, hflags, hid⟩ := hitem
    rw [sentRow, hplayer, hflags, hid]
  | generated hid hnone hloc =>
    cases horigin
    simp only [Room.Scouted, hnone] at hitem
    obtain ⟨hplayer, owner', rest', hloc'⟩ := hitem
    cases hloc.symm.trans hloc'
    rw [sentRow, hplayer]

/-- In every run, wherever it is killed, a client that scouts locations is told of what is
placed there: the log never gets another row for one of them, before or after. -/
theorem scouted_items_stand (cfg : Config) (db : Savefile) (es : List Event)
    {items : List NetworkItem} (h : .io (.toAP (.locationInfo items)) ∈ (play cfg db es).history) :
    ∃ room, cfg.openRoom db.toSetupTables = .ok room ∧ ∀ item ∈ items,
      room.Scouted cfg db.toSetupTables item ∧
        ∀ row ∈ (play cfg db es).db.sentItems, row.origin = .checked item.location →
          row ∈ db.sentItems ∨ row = sentRow item (.checked item.location) := by
  obtain ⟨room, hroom, m, -, hscouted⟩ := allows_play h nofun nofun
  refine ⟨room, hroom, fun item hitem => ⟨hscouted item hitem, fun row hrow horigin => ?_⟩⟩
  refine (right_play cfg db es row hrow).imp_right ?_
  rintro ⟨room', hroom', m', -, hright⟩
  cases hroom.symm.trans hroom'
  exact (hscouted item hitem).eq_of_right hright horigin

def ServerMessage.locations : ServerMessage → List NetworkItem
  | .locationInfo items => items
  | _ => []

/-- The sword of the other player and the own lamp are scouted, and then found. -/
def scoutThenCheck : List Event :=
  [.connect, .handle (Env.inOrder false) (.fromAP (.locationScouts [7, 8])),
    .handle (Env.inOrder false) (.fromAP (.locationChecks [7, 8]))]

theorem scouted_items_stand_sample : ∃ db items room,
    createSavefile (Env.inOrder false) sampleResult [] = .ok db ∧ items ≠ [] ∧
      sampleConfig.openRoom db.toSetupTables = .ok room ∧ ∀ item ∈ items,
        room.Scouted sampleConfig db.toSetupTables item ∧
          ∀ row ∈ (play sampleConfig db scoutThenCheck).db.sentItems,
            row.origin = .checked item.location →
              row ∈ db.sentItems ∨ row = sentRow item (.checked item.location) := by
  obtain ⟨db, h, m, hm, hne⟩ := exists_created
    (x := createSavefile (Env.inOrder false) sampleResult [])
    (P := fun db => ∃ m ∈ messagesOf Io.toAP? (play sampleConfig db scoutThenCheck).history,
      ServerMessage.locations m ≠ [])
    (by decide +kernel)
  cases m with
  | locationInfo items =>
    obtain ⟨room, hroom, hstand⟩ :=
      scouted_items_stand sampleConfig db scoutThenCheck (mem_of_toAP? hm)
    exact ⟨db, items, room, h, hne, hroom, hstand⟩
  | _ => exact absurd rfl hne

/-! ## Sent items -/

/-- What is due later on was due from the start. -/
theorem Savefile.Grown.due {db₀ db : Savefile} (h : db₀.Grown db) {m : DataSendMessage}
    (hm : db.Due m) : db₀.Due m := by
  obtain ⟨u, hu, rfl⟩ | ⟨locID, ownerID, name, hplaced, howner, rfl⟩ := hm
  · exact h.2 u hu
  · rw [h.1] at hplaced howner
    exact .inr ⟨locID, ownerID, name, hplaced, howner, rfl⟩

/-- Whatever the goroutines of a session do, each item that was handed to `Write` for the MW
server, for the first time or again, is placed in the own world, and goes to its owner. -/
theorem Proxy.written_sends_placed {cfg : Config} {env : Env} {result : ResultMessage}
    {precollectedItems : List Int} {db : Savefile}
    (hdb : createSavefile env result precollectedItems = .ok db) (es : List Event)
    (ms : List Proxy.Move) {m : DataSendMessage}
    (h : .dataSend m ∈ flow (Proxy.move cfg) (Proxy.atMW Mwproto.Client.handed)
      (Proxy.start (play cfg db es).db) ms) :
    ∃ locID ownerID name, db.getPlacedItem locID = some (ownerID, name) ∧
      ownerID ≠ db.selfID ∧ m = sendMessage ownerID name := by
  have hgrown := (allowed_play cfg db es).1
  generalize (play cfg db es).db = db' at *
  have hstands : Proxy.Stands cfg db' (last (Proxy.move cfg) (Proxy.start db') ms) :=
    last_keep Proxy.stands_move (Proxy.stands_start db') ms
  obtain ⟨es', -, -, hh, -⟩ := hstands.exists_play
  have hsaid := Proxy.said_of_handed cfg db' ms h rfl nofun
  have hdue : db'.Due m := by
    obtain hh | hh := hh
    · rw [← hh] at hsaid
      obtain ⟨room, -, m, -, hdue⟩ := allows_play hsaid nofun nofun
      exact hdue
    · rw [hh] at hsaid
      cases List.mem_singleton.mp hsaid
  obtain ⟨u, hu, -⟩ | hplaced := hgrown.due hdue
  · rw [(createSavefile_fresh hdb).unconfirmed] at hu
    cases hu
  · exact hplaced

/-- A later session, in which a rejoin sends the sword again. -/
def rejoin : List Proxy.Move :=
  [.ap .offer, .accept, .effect, .effect, .effect, .mw .take, .mw (.written false),
    .mw (.read .joinConfirm), .mw .push, .mw .pull, .mw .forward,
    .selectMW (Env.inOrder false), .effect, .effect, .mw .take, .mw (.written false)]

def sendsOf : Message → List DataSendMessage
  | .dataSend m => [m]
  | _ => []

theorem Proxy.written_sends_placed_sample : ∃ db m,
    createSavefile (Env.inOrder false) sampleResult [] = .ok db ∧
      ∃ locID ownerID name, db.getPlacedItem locID = some (ownerID, name) ∧
        ownerID ≠ db.selfID ∧ m = sendMessage ownerID name := by
  obtain ⟨db, h, m, hm, hsends⟩ := exists_created
    (x := createSavefile (Env.inOrder false) sampleResult [])
    (P := fun db => ∃ m ∈ flow (Proxy.move sampleConfig) (Proxy.atMW Mwproto.Client.handed)
      (Proxy.start (play sampleConfig db scoutThenCheck).db) rejoin, sendsOf m ≠ [])
    (by decide +kernel)
  cases m with
  | dataSend m => exact ⟨db, m, h, Proxy.written_sends_placed h scoutThenCheck rejoin hm⟩
  | _ => exact absurd rfl hsends

end Isthmus
