import Isthmus.Reopened
import Isthmus.Run

/-!
# Panics of the message loop

A handler may index the games by a player that a message or the savefile names,
and dereference the data package of the game. `Calm` says that a process never
panics on a savefile with the given tables of the setup. Every handler is calm,
but for the flags of a `Connect`, which are dereferenced even where they are
absent, and for the arithmetic of a `Set`.
-/

namespace Isthmus

open Process Mwproto Approto

/-- The process does not panic on any savefile with these tables of the setup. -/
def Calm (setup : SetupTables) {α : Type} (p : Handler α) : Prop :=
  ∀ db : Savefile, db.toSetupTables = setup → (p.run db).result ≠ .error .panic

theorem ok_ne_panic {α : Type} (a : α) : (.ok a : Except Stop α) ≠ .error .panic := by
  intro h
  cases h

namespace Calm

variable {setup : SetupTables} {α β : Type}

theorem pure (a : α) : Calm setup (pure a : Handler α) := by
  intro db _ h
  cases h

theorem emit (m : Io) : Calm setup (.emit m) := by
  intro db _ h
  cases h

theorem read (f : Savefile → α) : Calm setup (.read f) := by
  intro db _ h
  cases h

theorem query {f : Savefile → Except Stop α}
    (h : ∀ db : Savefile, db.toSetupTables = setup → f db ≠ .error .panic) :
    Calm setup (.query f) :=
  h

/-- SQLite refuses a write with an error of its own. -/
theorem commit (c : Commit) : Calm setup (.commit c) := by
  intro db _
  show ((Proc.commit c : Handler Unit).run db).result ≠ _
  cases h : Store.apply db c with
  | ok db' =>
    rw [Proc.run_commit_ok h]
    exact ok_ne_panic _
  | error e =>
    rw [Proc.run_commit_error h]
    obtain ⟨e', rfl⟩ := apply_error h
    intro hr
    cases hr

theorem bind {p : Handler α} {f : α → Handler β} (hp : Calm setup p)
    (hf : ∀ a, Calm setup (f a)) : Calm setup (p >>= f) := by
  intro db hdb
  rcases hrun : p.run db with ⟨_ | a, t⟩
  · rw [Proc.run_bind_of_error hrun]
    have h := hp db hdb
    rw [hrun] at h
    exact fun hr => h (congrArg _ (Except.error.inj hr))
  · rw [Proc.run_bind_of_ok hrun]
    exact hf a _ ((replay_toSetupTables t).trans hdb)

theorem attempt (p : Handler α) : Calm setup p.attempt := by
  intro db _ h
  cases h

theorem ite {c : Prop} [Decidable c] {p q : Handler α} (hp : c → Calm setup p)
    (hq : ¬ c → Calm setup q) : Calm setup (if c then p else q) := by
  by_cases h : c
  · rw [if_pos h]
    exact hp h
  · rw [if_neg h]
    exact hq h

theorem forEach {f : α → Handler Unit} (hf : ∀ a, Calm setup (f a)) (l : List α) :
    Calm setup (.forEach f l) := by
  induction l with
  | nil => exact pure ()
  | cons a l ih => exact bind (hf a) fun _ => ih

end Calm

/-! ## Indexing -/

/-- The players that the savefile names have a game, and each game a package. -/
structure Room.Sound (room : Room) (setup : SetupTables) : Prop where
  complete : room.Complete
  within : setup.Within room.games.length
  named : room.games.length = room.nicknames.length

section Indexing

variable {room : Room} {setup : SetupTables} {cfg : Config} {env : Env}

theorem Room.Complete.exists_packageOf (h : room.Complete) {i : Int}
    (hi : 0 ≤ i ∧ i < room.games.length) : ∃ dp, room.packageOf i = some dp := by
  obtain ⟨g, hg⟩ := exists_indexed hi.1 hi.2
  exact h.packageOf hg

theorem receivedItem_ne_panic (h : room.Complete) {fromID : Int}
    (hi : 0 ≤ fromID ∧ fromID < room.games.length) (content : GoString) :
    room.receivedItem cfg setup env fromID content ≠ .error .panic := by
  obtain ⟨dp, hdp⟩ := h.exists_packageOf hi
  rw [Room.receivedItem, Room.locationID, hdp]
  cases setup.getLocationOfOwnItem env content <;> exact ok_ne_panic _

theorem releasedItem_ne_panic (h : room.Complete) {fromID : Int}
    (hi : fromID = -1 ∨ 0 ≤ fromID ∧ fromID < room.games.length) (content : GoString) :
    room.releasedItem cfg setup env fromID content ≠ .error .panic := by
  rw [Room.releasedItem]
  split
  · exact ok_ne_panic _
  · next hne => exact receivedItem_ne_panic h (hi.resolve_left hne) content

/-- The sources of what can be collected are those of the own items. -/
theorem getCollectablePlacements_within {db : Savefile} {n : Nat}
    (h : db.toSetupTables.Within n) {selfID : Int} {p : OwnItemPlacement}
    (hp : p ∈ db.getCollectablePlacements env selfID) :
    0 ≤ p.location.playerID ∧ p.location.playerID < n := by
  obtain ⟨row, hrow, rfl⟩ := List.mem_map.mp hp
  have hmem : row ∈ db.ownItemPlacements.rows :=
    (env.scanOwnItems_perm _).mem_iff.mp (List.mem_filter.mp hrow).1
  refine h.source ⟨toInt32 row.sourcePlayerID, row.locationName⟩ ?_
  exact List.mem_map.mpr ⟨row, (List.mem_insertionSort _).mpr hmem, rfl⟩

theorem collectItems_ne_panic (h : room.Complete) {ps : List OwnItemPlacement}
    (hps : ∀ p ∈ ps, 0 ≤ p.location.playerID ∧ p.location.playerID < room.games.length) :
    room.collectItems cfg ps ≠ .error .panic := by
  induction ps with
  | nil => exact ok_ne_panic _
  | cons p ps ih =>
    obtain ⟨dp, hdp⟩ := h.exists_packageOf (hps p List.mem_cons_self)
    have hrest := ih fun p hp => hps p (List.mem_cons_of_mem _ hp)
    rw [Room.collectItems, hdp]
    cases hitems : room.collectItems cfg ps with
    | ok items => exact ok_ne_panic _
    | error e =>
      rw [hitems] at hrest
      exact fun hr => hrest (congrArg _ (Except.error.inj hr))

theorem scoutItem_ne_panic (h : room.Sound setup) (locID : Int) :
    room.scoutItem cfg setup locID ≠ .error .panic := by
  rw [Room.scoutItem]
  cases hp : setup.getPlacedItem locID with
  | none => exact ok_ne_panic _
  | some p =>
    obtain ⟨ownerID, name⟩ := p
    obtain ⟨dp, hdp⟩ := h.complete.exists_packageOf (h.within.owner locID ownerID name hp)
    dsimp only
    rw [hdp]
    split <;> exact ok_ne_panic _

theorem scoutItems_ne_panic (h : room.Sound setup) (locIDs : List Int) :
    room.scoutItems cfg setup locIDs ≠ .error .panic := by
  induction locIDs with
  | nil => exact ok_ne_panic _
  | cons locID locIDs ih =>
    have hscout : room.scoutItem cfg setup locID ≠ .error .panic := scoutItem_ne_panic h locID
    rw [Room.scoutItems]
    cases hs : room.scoutItem cfg setup locID with
    | error e =>
      rw [hs] at hscout
      exact fun hr => hscout (congrArg _ (Except.error.inj hr))
    | ok scouted =>
      cases hi : room.scoutItems cfg setup locIDs with
      | error e =>
        rw [hi] at ih
        exact fun hr => ih (congrArg _ (Except.error.inj hr))
      | ok items => exact ok_ne_panic _

end Indexing

/-! ## The handlers -/

section Handlers

variable {setup : SetupTables} {cfg : Config} {env : Env} {sess : Session}

theorem calm_addSentItems (items : List (NetworkItem × Origin)) :
    Calm setup (addSentItems items) :=
  .bind (.read _) fun _ => .bind (.commit _) fun _ => .pure _

theorem calm_notify (flag : ItemHandlingMode) (index : Int) (items : List NetworkItem) :
    Calm setup (sess.notify flag index items) :=
  .ite (fun _ => .emit _) fun _ => .pure ()

theorem calm_handleDataReceive (h : sess.toRoom.Sound setup) (m : DataReceiveMessage) :
    Calm setup (handleDataReceive cfg env sess m) := by
  refine .ite (fun _ => .pure ()) fun _ => .ite (fun _ => .pure ()) fun hfrom => ?_
  -- the player of the message is in range by the check just made
  rw [not_not] at hfrom
  refine .bind (.read _) fun duplicate => .ite (fun _ => .pure ()) fun _ => ?_
  refine .bind (.query fun db _ => receivedItem_ne_panic h.complete hfrom m.content) fun item => ?_
  refine .bind (calm_addSentItems _) fun index => .bind (calm_notify _ _ _) fun _ => ?_
  exact .bind (.emit _) fun _ => .bind (.commit _) fun _ => .emit _

theorem calm_receiveItems (h : sess.toRoom.Sound setup) {fromID : Int}
    (hfrom : fromID = -1 ∨ 0 ≤ fromID ∧ fromID < sess.games.length)
    (items : List DataReceiveItem) : Calm setup (receiveItems cfg env sess fromID items) := by
  induction items with
  | nil => exact .pure []
  | cons item items ih =>
    refine .ite (fun _ => ih) fun _ => .bind (.read _) fun duplicate => .ite (fun _ => ih) fun _ => ?_
    refine .bind (.query fun db _ => releasedItem_ne_panic h.complete hfrom item.content) ?_
    exact fun sentItem => .bind (.commit _) fun _ => .bind ih fun sentItems => .pure _

theorem calm_handleDatasReceive (h : sess.toRoom.Sound setup) (m : DatasReceiveMessage) :
    Calm setup (handleDatasReceive cfg env sess m) := by
  have hfrom : sess.senderID m.sender = -1 ∨
      0 ≤ sess.senderID m.sender ∧ sess.senderID m.sender < sess.games.length := by
    refine (senderID_indexed h.named m.sender).imp_right ?_
    rintro ⟨g, hg⟩
    exact ⟨(indexed_eq_some hg).1, (indexed_eq_some hg).2.1⟩
  refine .bind (calm_receiveItems h hfrom m.items) fun items => ?_
  refine .bind (calm_addSentItems items) fun startIndex => .bind (calm_notify _ _ _) fun _ => ?_
  exact .bind (.emit _) fun _ => .emit _

theorem calm_handleMW (h : sess.toRoom.Sound setup) (m : Message) :
    Calm setup (handleMW cfg env sess m) := by
  cases m with
  | joinConfirm => exact .bind (.read _) fun items => .forEach (fun it => .emit _) items
  | dataReceive m => exact calm_handleDataReceive h m
  | datasReceive m => exact calm_handleDatasReceive h m
  | dataSendConfirm m =>
    show Calm setup (confirmItem env m)
    exact Calm.commit _
  | requestCharmNotchCosts => exact .emit _
  | announceCharmNotchCosts m => exact .emit _
  | _ => exact .pure ()

theorem calm_handleCollect (h : sess.toRoom.Sound setup) :
    Calm setup (handleCollect cfg env sess) := by
  have hcollect : ∀ db : Savefile, db.toSetupTables = setup →
      sess.collectItems cfg (db.getCollectablePlacements env sess.playerID) ≠ .error .panic := by
    intro db hdb
    refine collectItems_ne_panic h.complete fun p hp => ?_
    exact getCollectablePlacements_within (hdb ▸ h.within) hp
  refine .bind (.query hcollect) fun items => ?_
  exact .bind (calm_addSentItems items) fun _ => .emit _

theorem calm_handleRelease : Calm setup (handleRelease env sess) := by
  refine .bind (.read _) fun messages => .bind (.commit _) fun _ => ?_
  exact .bind (.commit _) fun _ => .forEach (fun p => .emit _) messages

theorem calm_handleSay (h : sess.toRoom.Sound setup) (text : GoString) :
    Calm setup (handleSay cfg env sess text) :=
  .ite (fun _ => calm_handleCollect h) fun _ =>
    .ite (fun _ => calm_handleRelease) fun _ => .pure ()

theorem calm_handleSync : Calm setup (handleSync sess) :=
  .ite (fun _ => .bind (.read _) fun _ => .emit _) fun _ => .pure ()

theorem calm_handleLocationScouts (h : sess.toRoom.Sound setup) (locations : List Int) :
    Calm setup (handleLocationScouts cfg sess locations) := by
  have hscout : ∀ db : Savefile, db.toSetupTables = setup →
      sess.scoutItems cfg db.toSetupTables locations ≠ .error .panic := by
    rintro db rfl
    exact scoutItems_ne_panic h locations
  exact .bind (.query hscout) fun _ => .emit _

theorem calm_dispatchOwn (item : NetworkItem) (locID : Int) :
    Calm setup (dispatchOwn sess item locID) :=
  .bind (calm_addSentItems _) fun _ => calm_notify _ _ _

theorem calm_checkLocation (locID : Int) : Calm setup (checkLocation cfg env sess locID) := by
  refine .bind (.read _) fun checked => .ite (fun _ => .pure ()) fun _ => ?_
  refine .bind (.read _) fun placed => ?_
  -- no branch indexes a table, so that nothing is asked of the room
  obtain _ | ⟨ownerID, name⟩ := placed
  · refine .ite (fun _ => ?_) fun _ => .pure ()
    cases sess.localItem cfg locID with
    | none => exact .pure ()
    | some item => exact .bind (calm_dispatchOwn item locID) fun _ => .commit _
  · refine .ite (fun _ => ?_) fun _ => ?_
    · exact .bind (calm_dispatchOwn _ locID) fun _ => .commit _
    · exact .bind (.bind (.commit _) fun _ => .emit _) fun _ => .commit _

/-- The flags of a `Connect` are dereferenced, whether it has any or not. -/
theorem handleConnect_panic_iff (cfg : Config) (sess : Session) (m : Connect) (db : Savefile) :
    ((handleConnect cfg sess m).run db).result = .error .panic ↔ m.itemsHandling = none := by
  rw [handleConnect, Proc.run_emit_bind, Run.cons_result]
  cases m.itemsHandling with
  | none => exact ⟨fun _ => rfl, fun _ => rfl⟩
  | some mode =>
    refine iff_of_false (ok_ne_panic _) ?_
    intro h
    cases h

/-- A `Set` panics where the evaluation of its operations does. -/
theorem handleSet_ne_panic {m : SetMessage} {db : Savefile}
    (h : cfg.evaluate (db.getStoredData env m.key) m ≠ .error .panic) :
    ((handleSet cfg env sess m).run db).result ≠ .error .panic := by
  rw [handleSet]
  split
  · exact ok_ne_panic _
  · rw [Proc.run_read_bind]
    cases he : cfg.evaluate (db.getStoredData env m.key) m with
    | ok newBytes =>
      have hreply : Calm db.toSetupTables (do
          let _ ← (setStoredData env m.key newBytes : Handler Unit).attempt
          if m.wantReply ∨ m.key ∈ sess.watchedKeys then
            .emit (.toAP (.setReply m.key newBytes (db.getStoredData env m.key) sess.playerID))
          else pure () : Handler Unit) :=
        .bind (.attempt _) fun _ => .ite (fun _ => .emit _) fun _ => .pure ()
      exact hreply db rfl
    | error e =>
      cases e with
      | panic => exact absurd he h
      | _ => exact ok_ne_panic _

/-- A message whose handler dereferences what is not there. -/
def Incoming.Flagless : Incoming → Prop
  | .fromAP (.connect m) => m.itemsHandling = none
  | _ => False

/-- The evaluation of a `Set` panics on the value that its key has. -/
def Incoming.ArithmeticPanics (cfg : Config) (env : Env) (db : Savefile) : Incoming → Prop
  | .fromAP (.set m) => cfg.evaluate (db.getStoredData env m.key) m = .error .panic
  | _ => False

/-- Every message is handled without a panic, but for a `Connect` without flags. -/
theorem handle_panic_iff {db : Savefile} {m : Incoming}
    (h : sess.toRoom.Sound db.toSetupTables) (harith : ¬ m.ArithmeticPanics cfg env db) :
    ((handle cfg env sess m).run db).result = .error .panic ↔ m.Flagless := by
  have hcalm : ∀ {α : Type} {p : Handler α}, Calm db.toSetupTables p →
      ((p.run db).result = .error .panic ↔ False) := fun hp => iff_of_false (hp db rfl) id
  cases m with
  | fromMW m =>
    exact hcalm (.bind (.emit _) fun _ => .bind (calm_handleMW h m) fun _ => .pure sess)
  | fromAP m =>
    rw [run_handle_fromAP, Run.cons_result]
    cases m with
    | connect m => exact handleConnect_panic_iff cfg sess m db
    | set m =>
      have hset : ((handleSet cfg env sess m).run db).result ≠ .error .panic :=
        handleSet_ne_panic harith
      refine iff_of_false ?_ id
      show ((handleSet cfg env sess m >>= fun _ => pure sess).run db).result ≠ _
      rw [Proc.run_bind_pure]
      cases hr : ((handleSet cfg env sess m).run db).result with
      | ok u => exact ok_ne_panic _
      | error e =>
        rw [hr] at hset
        exact fun he => hset (congrArg _ (Except.error.inj he))
    | getDataPackage games => exact hcalm (.bind (.emit _) fun _ => .pure sess)
    | say text => exact hcalm (.bind (calm_handleSay h text) fun _ => .pure sess)
    | sync => exact hcalm (.bind calm_handleSync fun _ => .pure sess)
    | setNotify keys => exact hcalm (.pure _)
    | get m => exact hcalm (.bind (.bind (.read _) fun _ => .emit _) fun _ => .pure sess)
    | locationScouts locations =>
      exact hcalm (.bind (calm_handleLocationScouts h locations) fun _ => .pure sess)
    | locationChecks locations =>
      exact hcalm (.bind (.forEach calm_checkLocation locations) fun _ => .pure sess)

end Handlers

/-! ## Runs -/

/-- The event is a message whose handler panics. -/
def Event.Crashes (cfg : Config) (s : System) : Event → Prop
  | .handle env m => ∃ sess, s.session = some sess ∧
      ((Isthmus.handle cfg env sess m).run s.db).result = .error .panic
  | _ => False

/-- The event is a `Set` whose evaluation panics. -/
def Event.ArithmeticPanics (cfg : Config) (s : System) : Event → Prop
  | .handle env m => m.ArithmeticPanics cfg env s.db
  | _ => False

/-- The event is a `Connect` without flags in an open session. -/
def Event.Flagless (s : System) : Event → Prop
  | .handle _ m => s.session.isSome = true ∧ m.Flagless
  | _ => False

section Runs

variable {env : Env} {result : ResultMessage} {precollectedItems : List Int} {db : Savefile}

/-- A session on a created savefile indexes its games by players it has. -/
theorem sound_of_created (hdb : createSavefile env result precollectedItems = .ok db)
    {cfg : Config} {room : Room} (hroom : cfg.openRoom db.toSetupTables = .ok room) :
    room.Sound db.toSetupTables := by
  obtain ⟨-, -, hlen, hcomplete⟩ := Config.openRoom_ok hroom
  exact ⟨hcomplete, games_created hdb hroom ▸ within_created hdb, hlen⟩

theorem crashes_iff (hdb : createSavefile env result precollectedItems = .ok db) {cfg : Config}
    {s : System} (ho : s.Opened cfg) (hsetup : s.db.toSetupTables = db.toSetupTables) (e : Event) :
    (e.Crashes cfg s → e.ArithmeticPanics cfg s) ↔ ¬ e.Flagless s := by
  cases e with
  | handle env m =>
    have hpanic : ∀ sess, s.session = some sess → ¬ m.ArithmeticPanics cfg env s.db →
        (((handle cfg env sess m).run s.db).result = .error .panic ↔ m.Flagless) := by
      intro sess hs harith
      -- the room was opened on the tables that the savefile was created with
      have hopen := ho sess hs
      rw [hsetup] at hopen
      exact handle_panic_iff (hsetup ▸ sound_of_created hdb hopen) harith
    constructor
    · rintro h ⟨hsome, hflag⟩
      obtain ⟨sess, hs⟩ := Option.isSome_iff_exists.mp hsome
      have harith : ¬ m.ArithmeticPanics cfg env s.db := by
        obtain m | m := m
        · exact hflag.elim
        · cases m with
          | connect m => exact id
          | _ => exact hflag.elim
      exact harith (h ⟨sess, hs, (hpanic sess hs harith).mpr hflag⟩)
    · rintro h ⟨sess, hs, hcrash⟩
      by_contra harith
      exact h ⟨by rw [hs]; rfl, (hpanic sess hs harith).mp hcrash⟩
  | _ => exact iff_of_true (fun h => h.elim) id

/-- On a created savefile no message of either side crashes the play loop, but
for the arithmetic of a `Set`, exactly if every `Connect` carries its flags. -/
theorem no_crash_iff (hdb : createSavefile env result precollectedItems = .ok db) (cfg : Config)
    (es : List Event) :
    Runs.Meets (step cfg) (fun s e => e.Crashes cfg s → e.ArithmeticPanics cfg s) (boot db) es ↔
      Runs.Meets (step cfg) (fun s e => ¬ e.Flagless s) (boot db) es := by
  refine Runs.meets_congr (I := fun s => s.Opened cfg ∧ s.db.toSetupTables = db.toSetupTables)
    ?_ ?_ ⟨opened_boot cfg db, rfl⟩
  · rintro s e ⟨ho, hsetup⟩
    exact ⟨opened_step ho e, (step_toSetupTables e).trans hsetup⟩
  · rintro s e ⟨ho, hsetup⟩
    exact crashes_iff hdb ho hsetup e

end Runs

/-- A client that connects without flags. -/
def flaglessConnect : List Event :=
  [.connect, .handle (Env.inOrder false) (.fromAP (.connect ⟨none, false⟩))]

/-- In the run of that client neither side holds. -/
theorem no_crash_iff_sample : ∃ db,
    createSavefile (Env.inOrder false) sampleResult [] = .ok db ∧
      (Runs.Meets (step sampleConfig)
          (fun s e => e.Crashes sampleConfig s → e.ArithmeticPanics sampleConfig s) (boot db)
          flaglessConnect ↔
        Runs.Meets (step sampleConfig) (fun s e => ¬ e.Flagless s) (boot db) flaglessConnect) := by
  obtain ⟨db, hdb, -⟩ :=
    exists_created (x := createSavefile (Env.inOrder false) sampleResult [])
      (P := fun db => db.sentItems = []) (by decide +kernel)
  exact ⟨db, hdb, no_crash_iff hdb sampleConfig flaglessConnect⟩

/-- A `Connect` without flags, which the parser accepts, crashes the play loop. -/
theorem flagless_connect_crashes : ∃ db,
    createSavefile (Env.inOrder false) sampleResult [] = .ok db ∧
      ¬ Runs.Meets (step sampleConfig)
        (fun s e => e.Crashes sampleConfig s → e.ArithmeticPanics sampleConfig s) (boot db)
        flaglessConnect := by
  obtain ⟨db, hdb, hopen⟩ :=
    exists_created (x := createSavefile (Env.inOrder false) sampleResult [])
      (P := fun db => (step sampleConfig (boot db) .connect).session.isSome = true)
      (by decide +kernel)
  refine ⟨db, hdb, fun h => ?_⟩
  obtain ⟨sess, hs⟩ := Option.isSome_iff_exists.mp hopen
  refine h.2.1 ⟨sess, hs, ?_⟩
  rw [run_handle_fromAP, Run.cons_result]
  exact (handleConnect_panic_iff sampleConfig sess ⟨none, false⟩ _).mpr rfl

end Isthmus
