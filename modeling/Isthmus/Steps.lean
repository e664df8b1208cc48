import Isthmus.Checks
import Isthmus.Deliveries

/-!
# What one step can do

`Handled` lists everything that one step of the message loop does: the result
of the step and its effects, in order. The invariants are proved by cases on it.
-/

namespace Isthmus

open Process Mwproto Approto

/-! ## Release -/

section Release

variable {cfg : Config} {env : Env} {sess : Session} {db : Savefile}

/-- The rows bound for the messages of a release. -/
def Savefile.releaseRows (db : Savefile) (env : Env) (playerID : Int) : List SendRow :=
  (db.releasable playerID).map fun p => sendRow env p.apLocationID p.ownerID p.name

/-- The effects of a release: queue all, clear all, send all. -/
def Savefile.releaseTrace (db : Savefile) (env : Env) (playerID : Int) : Trace :=
  .commit (.addUnconfirmedItems (db.releaseRows env playerID)) ::
    .commit (.clearLocations ((db.releasable playerID).map OwnWorldPlacement.apLocationID)) ::
      (db.releasable playerID).map fun p => .io (.toMW (.dataSend (sendMessage p.ownerID p.name)))

@[simp] theorem commits_releaseTrace (db : Savefile) (env : Env) (playerID : Int) :
    commits (db.releaseTrace env playerID) =
      [.addUnconfirmedItems (db.releaseRows env playerID),
        .clearLocations ((db.releasable playerID).map OwnWorldPlacement.apLocationID)] := by
  rw [Savefile.releaseTrace, commits_commit, commits_commit, commits_map_io]

theorem mem_getOwnWorldPlacements {setup : SetupTables} {p : OwnWorldPlacement} :
    p ∈ setup.getOwnWorldPlacements ↔
      setup.getPlacedItem p.apLocationID = some (p.ownerID, p.name) := by
  simp only [SetupTables.getOwnWorldPlacements, SetupTables.getPlacedItem, List.mem_map,
    List.mem_insertionSort, Option.map_eq_some_iff, Table.find_eq_some]
  constructor
  · rintro ⟨row, hrow, rfl⟩
    exact ⟨row, ⟨hrow, rfl⟩, rfl⟩
  · rintro ⟨row, ⟨hrow, hloc⟩, hrow'⟩
    refine ⟨row, hrow, ?_⟩
    obtain ⟨loc, owner, name⟩ := p
    simp only [Prod.mk.injEq] at hrow'
    simp only [OwnWorldPlacement.mk.injEq]
    exact ⟨hloc, hrow'⟩

theorem mem_releasable {playerID : Int} {p : OwnWorldPlacement} :
    p ∈ db.releasable playerID ↔
      db.getPlacedItem p.apLocationID = some (p.ownerID, p.name) ∧ p.ownerID ≠ playerID ∧
        p.apLocationID ∉ db.locationsCleared.rows := by
  simp [Savefile.releasable, List.mem_filter, mem_getOwnWorldPlacements,
    isLocationCleared_eq_false]

/-- The locations of the placements are distinct, as they are a primary key. -/
theorem nodup_getOwnWorldPlacements (setup : SetupTables) :
    (setup.getOwnWorldPlacements.map OwnWorldPlacement.apLocationID).Nodup := by
  have hperm := List.perm_insertionSort (fun a b : OwnWorldRow => a.apLocationID ≤ b.apLocationID)
    setup.ownWorldPlacements.rows
  have hnd := setup.ownWorldPlacements.nodup
  rw [SetupTables.getOwnWorldPlacements, List.map_map]
  exact ((hperm.map OwnWorldRow.apLocationID).nodup_iff).mpr hnd

theorem nodup_releasable (db : Savefile) (playerID : Int) :
    ((db.releasable playerID).map OwnWorldPlacement.apLocationID).Nodup :=
  (nodup_getOwnWorldPlacements db.toSetupTables).sublist (List.filter_sublist.map _)

/-- The rows bound are those of the messages, whose owners are 32-bit integers. -/
theorem handleRelease_eq (hdb : ∀ p ∈ db.releasable sess.playerID, FitsInt32 p.ownerID) :
    (handleRelease env sess).run db =
      ((do
        .commit (.addUnconfirmedItems (db.releaseRows env sess.playerID))
        clearLocations ((db.releasable sess.playerID).map OwnWorldPlacement.apLocationID)
        .forEach (fun p : OwnWorldPlacement =>
          .emit (.toMW (.dataSend (sendMessage p.ownerID p.name))))
            (db.releasable sess.playerID)) : Handler Unit).run db := by
  have hrows : (db.releasable sess.playerID).map ((fun p : Int × DataSendMessage =>
      (⟨p.1, env.bindString p.2.label, env.bindString p.2.content, p.2.toPlayer.toInt⟩ : SendRow)) ∘
        fun p => (p.apLocationID, sendMessage p.ownerID p.name)) =
      db.releaseRows env sess.playerID := by
    refine List.map_congr_left fun p hp => ?_
    simp only [Function.comp, sendMessage, sendRow, env.bindString_label,
      toInt_ofInt_of_fits (hdb p hp)]
  rw [handleRelease, Proc.run_read_bind, addUnconfirmedItems, List.map_map, hrows, List.map_map,
    Proc.forEach_map]
  rfl

theorem fits_releasable {playerID : Int} {p : OwnWorldPlacement}
    (hp : p ∈ db.releasable playerID) : FitsInt32 p.ownerID :=
  getPlacedItem_fits (mem_releasable.mp hp).1

theorem run_handleRelease_error {e : Stop}
    (h : Store.apply db (.addUnconfirmedItems (db.releaseRows env sess.playerID)) = .error e) :
    (handleRelease env sess).run db = ⟨.error e, []⟩ := by
  rw [handleRelease_eq fun p => fits_releasable, Proc.run_commit_bind_error h]

/-- A release that is not refused goes through: its locations can be cleared. -/
theorem run_handleRelease_ok {db₁ : Savefile}
    (h : Store.apply db (.addUnconfirmedItems (db.releaseRows env sess.playerID)) = .ok db₁) :
    ∃ cleared, cleared.rows = db.locationsCleared.rows ++
        (db.releasable sess.playerID).map OwnWorldPlacement.apLocationID ∧
      (handleRelease env sess).run db = ⟨.ok (), db.releaseTrace env sess.playerID⟩ ∧
      replay db (db.releaseTrace env sess.playerID) = { db₁ with locationsCleared := cleared } := by
  obtain ⟨t, -, -, hdb₁⟩ := apply_addUnconfirmedItems_ok h
  have hcl : db₁.locationsCleared = db.locationsCleared := by rw [hdb₁]
  have hnew : ∀ id ∈ (db.releasable sess.playerID).map OwnWorldPlacement.apLocationID,
      id ∉ db₁.locationsCleared.rows := by
    intro id hid
    obtain ⟨p, hp, rfl⟩ := List.mem_map.mp hid
    rw [hcl]
    exact (mem_releasable.mp hp).2.2
  obtain ⟨db₂, hdb₂⟩ := exists_apply_clearLocations (nodup_releasable db sess.playerID) hnew
  obtain ⟨cleared, hrows, rfl⟩ := apply_clearLocations_ok hdb₂
  refine ⟨cleared, by rw [hrows, hcl], ?_, ?_⟩
  · rw [handleRelease_eq fun p => fits_releasable, Proc.run_commit_bind_ok h, clearLocations,
      Proc.run_commit_bind_ok hdb₂, Proc.run_forEach_emit]
    rfl
  · rw [Savefile.releaseTrace, replay_commit h, replay_commit hdb₂]
    exact replay_map_io _ _ _

end Release

/-! ## Collect -/

/-- The items given by a collect, one for each placement. -/
theorem collectItems_origin {room : Room} {cfg : Config} {ps : List OwnItemPlacement}
    {items : List (NetworkItem × Origin)} (h : room.collectItems cfg ps = .ok items) :
    items.map Prod.snd = ps.map fun p => .collected p.itemName := by
  induction ps generalizing items with
  | nil => cases h; rfl
  | cons p ps ih =>
    simp only [Room.collectItems] at h
    split at h
    · cases h
    · split at h
      · cases h
      · next hrest =>
        cases h
        rw [List.map_cons, ih hrest, List.map_cons]

theorem collectItems_error {room : Room} {cfg : Config} {ps : List OwnItemPlacement} {e : Stop}
    (h : room.collectItems cfg ps = .error e) : e = .panic := by
  induction ps with
  | nil => cases h
  | cons p ps ih =>
    simp only [Room.collectItems] at h
    split at h
    · cases h; rfl
    · split at h
      · next hrest =>
        cases h
        exact ih hrest
      · cases h

/-- The effects of a collect: append and tell the client, whatever its flags. -/
def Savefile.collectTrace (db : Savefile) (items : List (NetworkItem × Origin)) : Trace :=
  [.commit (.addSentItems (sentRows items)),
    .io (.toAP (.receivedItems (db.sentIndex items) (items.map Prod.fst)))]

theorem scoutItems_error {room : Room} {cfg : Config} {setup : SetupTables} {locIDs : List Int}
    {e : Stop} (h : room.scoutItems cfg setup locIDs = .error e) : e = .panic := by
  induction locIDs with
  | nil => cases h
  | cons locID locIDs ih =>
    simp only [Room.scoutItems] at h
    split at h
    · next e' hone =>
      cases h
      simp only [Room.scoutItem] at hone
      split at hone
      · split at hone
        · cases hone
        · split at hone
          · cases hone; rfl
          · cases hone
      · cases hone
    · split at h
      · next hrest =>
        cases h
        exact ih hrest
      · cases h

@[simp] theorem commits_collectTrace (db : Savefile) (items : List (NetworkItem × Origin)) :
    commits (db.collectTrace items) = [.addSentItems (sentRows items)] := rfl

/-! ## One step of the loop -/

/-- Effects without writes. Items are only sent as the whole log. -/
structure Quiet (db : Savefile) (t : Trace) : Prop where
  commits : commits t = []
  resent : ∀ index items, .io (.toAP (.receivedItems index items)) ∈ t →
    index = 0 ∧ items = db.getSentItems

/-- What one step of the loop does: its message, its result and its effects
after the message is received. -/
inductive Handled (cfg : Config) (env : Env) (sess : Session) (db : Savefile) :
    Incoming → Except Stop Session → Trace → Prop
  | quiet {m r t} (hm : ∀ b, m ≠ .fromMW (.datasReceive b)) (h : Quiet db t)
      (hr : r ≠ .error (.sql .unique)) :
      Handled cfg env sess db m r t
  | stored {m key val t} (h : Quiet db t) :
      Handled cfg env sess db (.fromAP (.set m)) (.ok sess)
        (.commit (.setStoredData key val) :: t)
  | delivered {m item} (ha : sess.Addressed m)
      (hnew : db.hasReceivedItem env m.label m.content = false)
      (hitem : item.player = m.fromID.toInt + 1 ∧ item.flags = 0)
      (hnull : ¬ env.BindsNull m.content) :
      Handled cfg env sess db (.fromMW (.dataReceive m)) (.ok sess)
        (sess.appendTrace db m item ++ deliveredTrace m)
  | unrecorded {m item} (ha : sess.Addressed m)
      (hitem : item.player = m.fromID.toInt + 1 ∧ item.flags = 0)
      (hnull : env.BindsNull m.content) :
      Handled cfg env sess db (.fromMW (.dataReceive m)) (.error (.sql .notNull))
        (sess.appendTrace db m item)
  | released {m items}
      (hdone : (newRows env db.receivedItems.rows m.items).2 = true)
      (horigin : items.map Prod.snd =
        (newRows env db.receivedItems.rows m.items).1.map ReceivedRow.origin)
      (hitems : ∀ p ∈ items, p.1.player = sess.senderID m.sender + 1 ∧ p.1.flags = 0) :
      Handled cfg env sess db (.fromMW (.datasReceive m)) (.ok sess)
        (recordTrace (newRows env db.receivedItems.rows m.items).1 ++ sess.batchTrace db m items)
  | unreleased {m} (hdone : (newRows env db.receivedItems.rows m.items).2 = false) :
      Handled cfg env sess db (.fromMW (.datasReceive m)) (.error (.sql .notNull))
        (recordTrace (newRows env db.receivedItems.rows m.items).1)
  | confirmed {m} :
      Handled cfg env sess db (.fromMW (.dataSendConfirm m)) (.ok sess)
        [.commit (.confirmItem (env.bindString m.label) (env.bindString m.content)
          m.toPlayer.toInt)]
  | collected {items}
      (h : sess.collectItems cfg (db.getCollectablePlacements env sess.playerID) = .ok items) :
      Handled cfg env sess db (.fromAP (.say (lit "!collect"))) (.ok sess) (db.collectTrace items)
  | unsent {e}
      (h : Store.apply db (.addUnconfirmedItems (db.releaseRows env sess.playerID)) = .error e) :
      Handled cfg env sess db (.fromAP (.say (lit "!release"))) (.error e) []
  | sent {db₁ cleared}
      (h : Store.apply db (.addUnconfirmedItems (db.releaseRows env sess.playerID)) = .ok db₁)
      (hcl : cleared.rows = db.locationsCleared.rows ++
        (db.releasable sess.playerID).map OwnWorldPlacement.apLocationID)
      (hdb : replay db (db.releaseTrace env sess.playerID) =
        { db₁ with locationsCleared := cleared }) :
      Handled cfg env sess db (.fromAP (.say (lit "!release"))) (.ok sess)
        (db.releaseTrace env sess.playerID)
  | checked {ids r t} (h : Checks cfg env sess db ids r t) :
      Handled cfg env sess db (.fromAP (.locationChecks ids)) (r.map fun _ => sess) t

section Handled

variable {cfg : Config} {env : Env} {sess : Session} {db : Savefile}

theorem quiet_nil : Quiet db [] := ⟨rfl, by simp⟩

theorem quiet_toMW (m : Message) : Quiet db [.io (.toMW m)] := ⟨rfl, by simp⟩

theorem run_handleJoinConfirm :
    (handleJoinConfirm env).run db =
      ⟨.ok (), (db.getUnconfirmedItems env).map fun it => .io (.toMW (.dataSend it))⟩ := by
  rw [handleJoinConfirm, Proc.run_read_bind, Proc.run_forEach_emit]

theorem quiet_map_toMW {α : Type} (f : α → Message) (l : List α) :
    Quiet db (l.map fun a => .io (.toMW (f a))) := by
  refine ⟨commits_map_io _ _, fun index items hmem => ?_⟩
  obtain ⟨a, -, ha⟩ := List.mem_map.mp hmem
  cases ha

/-- One step receives its message, and then does what its handler does. -/
theorem run_handle_fromMW (m : Message) :
    (handle cfg env sess (.fromMW m)).run db =
      ⟨((handleMW cfg env sess m).run db).result.map fun _ => sess,
        .io (.recv (.fromMW m)) :: ((handleMW cfg env sess m).run db).trace⟩ := by
  rw [handle, Proc.run_emit_bind]
  change Run.cons _ ((handleMW cfg env sess m >>= fun _ => pure sess).run db) = _
  rw [Proc.run_bind_pure]
  rfl

theorem run_handle_fromAP (m : ClientMessage) :
    (handle cfg env sess (.fromAP m)).run db =
      ((handleAP cfg env sess m).run db).cons (.io (.recv (.fromAP m))) := by
  rw [handle, Proc.run_emit_bind]

theorem handled_fromMW (hc : sess.Complete) (hlen : sess.games.length = sess.nicknames.length)
    (m : Message) :
    Handled cfg env sess db (.fromMW m)
      (((handleMW cfg env sess m).run db).result.map fun _ => sess)
      ((handleMW cfg env sess m).run db).trace := by
  cases m with
  | joinConfirm =>
    rw [handleMW, run_handleJoinConfirm]
    exact .quiet (by simp) (quiet_map_toMW _ _) (by simp [Except.map])
  | dataReceive m =>
    rw [handleMW]
    by_cases hi : ¬ sess.Addressed m ∨ db.hasReceivedItem env m.label m.content = true
    · rw [run_handleDataReceive_ignored hi]
      exact .quiet (by simp) quiet_nil (by simp [Except.map])
    · rw [not_or, not_not, Bool.not_eq_true] at hi
      obtain ⟨ha, hnew⟩ := hi
      obtain ⟨item, hplayer, hflags, hrun⟩ := run_handleDataReceive_new cfg hc ha hnew
      rw [hrun]
      by_cases hnull : env.BindsNull m.content
      · rw [if_pos hnull]
        exact .unrecorded ha ⟨hplayer, hflags⟩ hnull
      · rw [if_neg hnull]
        exact .delivered ha hnew ⟨hplayer, hflags⟩ hnull
  | datasReceive m =>
    rw [handleMW]
    obtain ⟨items, horigin, hitems, hrun⟩ := run_handleDatasReceive cfg env db hc hlen m
    rw [hrun]
    by_cases hdone : (newRows env db.receivedItems.rows m.items).2 = true
    · rw [if_pos hdone]
      exact .released hdone horigin hitems
    · rw [if_neg hdone]
      exact .unreleased (Bool.not_eq_true _ ▸ hdone)
  | dataSendConfirm m =>
    rw [handleMW, confirmItem, Proc.run_commit_ok (apply_confirmItem _ _ _)]
    exact .confirmed
  | requestCharmNotchCosts => exact .quiet (by simp) (quiet_toMW _) (by simp [handleMW, Except.map])
  | announceCharmNotchCosts m => exact .quiet (by simp) (quiet_toMW _) (by simp [handleMW, Except.map])
  | connect | ping | disconnect | join | ready | readyConfirm | readyDeny | unready | initiateGame
  | requestRando | randoGenerated | result | dataReceiveConfirm | datasReceiveConfirm | save
  | dataSend | confirmCharmNotchCostsReceived =>
    exact .quiet (by simp) quiet_nil (by simp [handleMW, Except.map])

/-- A message to the client other than items leaves the log alone. -/
theorem quiet_toAP {m : ServerMessage} (h : ∀ index items, m ≠ .receivedItems index items) :
    Quiet db [.io (.toAP m)] := by
  refine ⟨rfl, fun index items hmem => ?_⟩
  rw [List.mem_singleton] at hmem
  cases hmem
  exact absurd rfl (h index items)

/-- The messages of a connection: the log is sent from the start. -/
theorem quiet_connect (join : Message) (resp : Connected) :
    Quiet db [.io (.toMW join), .io (.toAP (.connected resp)),
      .io (.toAP (.receivedItems 0 db.getSentItems))] := by
  refine ⟨rfl, fun index items hmem => ?_⟩
  simp only [List.mem_cons, Effect.io.injEq, reduceCtorEq, Io.toAP.injEq,
    ServerMessage.receivedItems.injEq, List.not_mem_nil, or_false, false_or] at hmem
  exact hmem

theorem handled_set (m : SetMessage) :
    Handled cfg env sess db (.fromAP (.set m))
      (((handleSet cfg env sess m).run db).result.map fun _ => sess)
      ((handleSet cfg env sess m).run db).trace := by
  rw [handleSet]
  split
  · exact .quiet (by simp) quiet_nil (by simp [Except.map])
  · rw [Proc.run_read_bind]
    split
    · exact .quiet (by simp) quiet_nil (by simp [Except.map])
    · exact .quiet (by simp) quiet_nil (by simp [Except.map])
    · next newBytes _ =>
      -- the reply is the same whether the write was taken or not
      have hreply : ∀ db₁ : Savefile, ∃ t, Quiet db t ∧
          (if m.wantReply ∨ m.key ∈ sess.watchedKeys then
            .emit (.toAP (.setReply m.key newBytes (db.getStoredData env m.key) sess.playerID))
          else pure () : Handler Unit).run db₁ = ⟨.ok (), t⟩ := by
        intro db₁
        split
        · exact ⟨_, quiet_toAP (by simp), Proc.run_emit _ _⟩
        · exact ⟨_, quiet_nil, Proc.run_pure _ _⟩
      rw [setStoredData]
      cases happly : Store.apply db
          (.setStoredData (env.bindString m.key) (env.bindString newBytes)) with
      | error e =>
        obtain ⟨t, ht, hrun⟩ := hreply db
        have hset : (Proc.commit (.setStoredData (env.bindString m.key)
            (env.bindString newBytes)) : Handler Unit).attempt.run db = ⟨.ok (.error e), []⟩ := by
          rw [Proc.run_attempt, Proc.run_commit_error happly]
        rw [Proc.run_bind_of_ok hset, replay_nil, hrun]
        exact .quiet (by simp) ht (by simp [Except.map])
      | ok db₁ =>
        obtain ⟨t, ht, hrun⟩ := hreply db₁
        have hset : (Proc.commit (.setStoredData (env.bindString m.key)
            (env.bindString newBytes)) : Handler Unit).attempt.run db =
              ⟨.ok (.ok ()), [.commit (.setStoredData (env.bindString m.key)
                (env.bindString newBytes))]⟩ := by
          rw [Proc.run_attempt, Proc.run_commit_ok happly]
        rw [Proc.run_bind_of_ok hset, replay_commit happly, replay_nil, hrun]
        exact .stored ht

theorem handled_say (text : GoString) :
    Handled cfg env sess db (.fromAP (.say text))
      (((handleSay cfg env sess text).run db).result.map fun _ => sess)
      ((handleSay cfg env sess text).run db).trace := by
  rw [handleSay]
  by_cases hcollect : text = lit "!collect"
  · subst hcollect
    rw [if_pos rfl, handleCollect, Proc.run_query_bind]
    cases hitems : sess.collectItems cfg (db.getCollectablePlacements env sess.playerID) with
    | error e =>
      have he := collectItems_error hitems
      exact .quiet (by simp) quiet_nil (by simp [Except.map, he])
    | ok items =>
      simp only
      rw [Proc.run_bind_of_ok (run_addSentItems _ _)]
      exact .collected hitems
  · rw [if_neg hcollect]
    by_cases hrelease : text = lit "!release"
    · subst hrelease
      rw [if_pos rfl]
      cases happly : Store.apply db (.addUnconfirmedItems (db.releaseRows env sess.playerID)) with
      | error e =>
        rw [run_handleRelease_error happly]
        exact .unsent happly
      | ok db₁ =>
        obtain ⟨cleared, hcl, hrun, hdb⟩ := run_handleRelease_ok happly
        rw [hrun]
        exact .sent happly hcl hdb
    · rw [if_neg hrelease]
      exact .quiet (by simp) quiet_nil (by simp [Except.map])

theorem handled_fromAP (m : ClientMessage) :
    Handled cfg env sess db (.fromAP m) ((handleAP cfg env sess m).run db).result
      ((handleAP cfg env sess m).run db).trace := by
  cases m with
  | getDataPackage games =>
    rw [handleAP, Proc.run_bind_pure]
    exact .quiet (by simp) (quiet_toAP (by simp)) (by simp [handleGetDataPackage, Except.map])
  | connect m =>
    rw [handleAP, handleConnect, Proc.run_emit_bind]
    cases m.itemsHandling with
    | none => exact .quiet (by simp) (quiet_toMW _) (by simp)
    | some mode =>
      simp only [Proc.run_read_bind, Proc.run_emit_bind]
      exact .quiet (by simp) (quiet_connect _ _) (by simp)
  | say text =>
    rw [handleAP, Proc.run_bind_pure]
    exact handled_say text
  | sync =>
    rw [handleAP, Proc.run_bind_pure, handleSync]
    split
    · rw [Proc.run_read_bind]
      refine .quiet (by simp) ⟨rfl, fun index items hmem => ?_⟩ (by simp [Except.map])
      rw [Proc.run_emit, List.mem_singleton] at hmem
      cases hmem
      exact ⟨rfl, rfl⟩
    · exact .quiet (by simp) quiet_nil (by simp [Except.map])
  | set m =>
    rw [handleAP, Proc.run_bind_pure]
    exact handled_set m
  | setNotify keys => exact .quiet (by simp) quiet_nil (by simp [handleAP])
  | get m =>
    rw [handleAP, Proc.run_bind_pure, handleGet, Proc.run_read_bind]
    exact .quiet (by simp) (quiet_toAP (by simp)) (by simp [Except.map])
  | locationScouts locations =>
    rw [handleAP, Proc.run_bind_pure, handleLocationScouts, Proc.run_query_bind]
    cases hitems : sess.scoutItems cfg db.toSetupTables locations with
    | error e =>
      have he := scoutItems_error hitems
      exact .quiet (by simp) quiet_nil (by simp [Except.map, he])
    | ok items => exact .quiet (by simp) (quiet_toAP (by simp)) (by simp [Except.map])
  | locationChecks locations =>
    rw [handleAP, Proc.run_bind_pure]
    exact .checked (checks_run locations db)

/-- Every step of the loop is one of the cases. -/
theorem handle_handled (cfg : Config) (env : Env) (db : Savefile) (hc : sess.Complete)
    (hlen : sess.games.length = sess.nicknames.length) (m : Incoming) :
    ∃ r t, (handle cfg env sess m).run db = ⟨r, .io (.recv m) :: t⟩ ∧
      Handled cfg env sess db m r t := by
  cases m with
  | fromMW m => exact ⟨_, _, run_handle_fromMW m, handled_fromMW hc hlen m⟩
  | fromAP m => exact ⟨_, _, run_handle_fromAP m, handled_fromAP m⟩

end Handled

end Isthmus
