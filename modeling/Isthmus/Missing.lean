import Isthmus.Dispatched
import Isthmus.Packages
import Isthmus.Unique
import Mathlib.Data.List.Dedup

/-!
# Missing locations

A `Connected` message lists the locations of the game that are not cleared. It takes
them from the data package of the game, where a location check goes by the table of
placed items and by the locations of the slot.

## Main definitions

- `Session.Checkable`: a check of the location dispatches an item and clears it
- `ListsCheckable`: what a `Connected` message promises about its two lists
- `Room.SourcesAgree`: the sources of the list and of the checks have the same locations

## Main results

- `missing_are_checkable_iff`: when the lists are right in every state that is reached
-/

namespace Isthmus

open Process Mwproto Approto

/-- The ids of the locations in the data package of the own game. -/
def Room.locationIDs (room : Room) (cfg : Config) : List Int :=
  (cfg.data.gamedata room.slot.game).locationNameToID.entries.map fun e => e.2

/-- A message that checks this location alone dispatches an item for it once, and
adds it to the cleared locations. -/
structure Session.Checkable (sess : Session) (cfg : Config) (env : Env) (db : Savefile)
    (id : Int) : Prop where
  new : id ∉ db.locationsCleared.rows
  dispatched :
    dispatches ((handle cfg env sess (.fromAP (.locationChecks [id]))).run db).trace id = 1
  cleared : id ∈ (replay db
    ((handle cfg env sess (.fromAP (.locationChecks [id]))).run db).trace).locationsCleared.rows

/-- The missing locations are those that can be checked, and are not among the checked
ones; after a message that checks them all there are none. -/
structure ListsCheckable (cfg : Config) (db : Savefile) (sess : Session) (resp : Connected) :
    Prop where
  checkable : ∀ env id, id ∈ resp.missingLocations ↔ sess.Checkable cfg env db id
  disjoint : ∀ id ∈ resp.checkedLocations, id ∉ resp.missingLocations
  emptied : ∀ env ids, (∀ id ∈ resp.missingLocations, id ∈ ids) → sess.missingLocations cfg
    (replay db ((handle cfg env sess (.fromAP (.locationChecks ids))).run db).trace) = []

/-- Whenever a client connects that wants its own items, the lists it gets are right. -/
def System.ListsCheckable (cfg : Config) (s : System) : Prop :=
  ∀ sess, s.session = some sess → ∀ env (m : Connect) mode, m.itemsHandling = some mode →
    mode.has receiveOwnItems = true → ∃ resp, .io (.toAP (.connected resp)) ∈
        ((handle cfg env sess (.fromAP (.connect m))).run s.db).trace ∧
      Isthmus.ListsCheckable cfg s.db { sess with itemHandling := mode } resp

/-- The data package of the game has the locations where an item is placed and those of
the slot that have an item. No item of another player has an empty name, or lies in two
locations. -/
structure Room.SourcesAgree (room : Room) (cfg : Config) (setup : SetupTables) : Prop where
  same : ∀ id, id ∈ room.locationIDs cfg ↔
    (setup.getPlacedItem id).isSome ∨ (room.localItem cfg id).isSome
  named : ∀ id owner, owner ≠ room.playerID → setup.getPlacedItem id ≠ some (owner, [])
  once : ∀ id id' owner name, owner ≠ room.playerID → setup.getPlacedItem id = some (owner, name) →
    setup.getPlacedItem id' = some (owner, name) → id' = id

section Missing

variable {cfg : Config} {env : Env} {sess : Session} {db : Savefile}

theorem mem_clearedLocations {id : Int} :
    id ∈ db.clearedLocations ↔ id ∈ db.locationsCleared.rows :=
  List.mem_insertionSort _

theorem mem_missingLocations {room : Room} {id : Int} :
    id ∈ room.missingLocations cfg db ↔
      id ∈ room.locationIDs cfg ∧ id ∉ db.locationsCleared.rows := by
  rw [Room.missingLocations, List.mem_insertionSort, List.mem_filter, List.mem_dedup,
    decide_eq_true_iff, mem_clearedLocations]
  rfl

/-- The message of a `Connect`, whose lists are from the savefile as it is. -/
theorem connected_of_connect {m : Connect} {mode : ItemHandlingMode}
    (hm : m.itemsHandling = some mode) {resp : Connected} :
    .io (.toAP (.connected resp)) ∈ ((handle cfg env sess (.fromAP (.connect m))).run db).trace ↔
      resp = sess.connected cfg db m.slotData := by
  rw [run_handle_fromAP, handleAP, handleConnect, hm]
  simp only [Proc.run_emit_bind, Proc.run_read_bind, Proc.run_pure, Run.cons]
  simp

/-! ### A check of one location -/

theorem trace_locationChecks (ids : List Int) :
    ((handle cfg env sess (.fromAP (.locationChecks ids))).run db).trace =
      .io (.recv (.fromAP (.locationChecks ids))) ::
        ((handleLocationChecks cfg env sess ids).run db).trace := by
  rw [run_handle_fromAP, handleAP, Proc.run_bind_pure]
  rfl

/-- The check of a location that is not cleared is not refused. -/
def Session.Accepts (sess : Session) (cfg : Config) (env : Env) (db : Savefile) (id : Int) : Prop :=
  (∃ item, sess.dispatch cfg db.toSetupTables id = .own item) ∨
    ∃ owner name, sess.dispatch cfg db.toSetupTables id = .foreign owner name ∧
      ¬env.BindsNull name ∧ itemRow owner name ∉ db.unconfirmedSentItems.rows

theorem checkable_iff {id : Int} :
    sess.Checkable cfg env db id ↔ id ∉ db.locationsCleared.rows ∧ sess.Accepts cfg env db id := by
  have hchecks := @checks_run cfg env sess [id] db
  have htrace := @trace_locationChecks cfg env sess db [id]
  constructor
  · rintro ⟨hnew, hdispatched, -⟩
    refine ⟨hnew, ?_⟩
    rw [htrace] at hdispatched
    generalize ((handleLocationChecks cfg env sess [id]).run db).result = r at hchecks
    generalize ((handleLocationChecks cfg env sess [id]).run db).trace = t at hchecks hdispatched
    cases hchecks with
    | skip _ rest =>
      cases rest
      cases hdispatched
    | own _ hd => exact Or.inl ⟨_, hd⟩
    | foreign _ hd hnull hrow => exact Or.inr ⟨_, _, hd, hnull, hrow⟩
    | stop => cases hdispatched
  · rintro ⟨hnew, haccepts⟩
    have hbalanced := hchecks.balanced id
    have hcleared : id ∈ (replay db
        ((handleLocationChecks cfg env sess [id]).run db).trace).locationsCleared.rows := by
      generalize ((handleLocationChecks cfg env sess [id]).run db).result = r at hchecks
      generalize ((handleLocationChecks cfg env sess [id]).run db).trace = t at hchecks
      cases hchecks with
      | skip hskip =>
        rcases hskip with hold | hskip
        · exact absurd hold hnew
        · rcases haccepts with ⟨item, hd⟩ | ⟨owner, name, hd, -⟩
          · cases hskip.symm.trans hd
          · cases hskip.symm.trans hd
      | own _ _ hcl rest =>
        cases rest
        rw [replay_append, replay_ownTrace hnew hcl, replay_nil]
        show id ∈ Table.rows _
        rw [hcl]
        simp
      | foreign _ _ hnull hrow hsends hcl rest =>
        cases rest
        rw [replay_append, replay_foreignTrace hnew hnull hrow hsends hcl, replay_nil]
        show id ∈ Table.rows _
        rw [hcl]
        simp
      | stop _ hd he =>
        rcases haccepts with ⟨item, hown⟩ | ⟨owner, name, hforeign, hnull, hrow⟩
        · cases hd.symm.trans hown
        · cases hd.symm.trans hforeign
          rcases he with ⟨h, -⟩ | ⟨-, h, -⟩
          · exact absurd h hnull
          · exact absurd h hrow
    refine ⟨hnew, ?_, ?_⟩
    · rw [htrace]
      show dispatches ((handleLocationChecks cfg env sess [id]).run db).trace id = 1
      have hnodup : (replay db ((handleLocationChecks cfg env sess
          [id]).run db).trace).locationsCleared.rows.Nodup := by
        simpa using (replay db ((handleLocationChecks cfg env sess
          [id]).run db).trace).locationsCleared.nodup
      rw [hnodup.count, if_pos hcleared, List.count_eq_zero_of_not_mem hnew] at hbalanced
      omega
    · rw [htrace, replay_io]
      exact hcleared

theorem dispatch_eq_skip {setup : SetupTables} {id : Int}
    (hflag : sess.itemHandling.has receiveOwnItems = true) :
    sess.dispatch cfg setup id = .skip ↔
      ¬((setup.getPlacedItem id).isSome ∨ (sess.localItem cfg id).isSome) := by
  rw [Session.dispatch, if_pos hflag]
  cases setup.getPlacedItem id with
  | some p =>
    dsimp only
    split <;> simp
  | none => cases sess.localItem cfg id <;> simp

/-- Where the sources agree the check of a new location is refused only if the location
is not one of the game. -/
theorem accepts_iff {id : Int} (hagree : sess.SourcesAgree cfg db.toSetupTables)
    (hflag : sess.itemHandling.has receiveOwnItems = true) (hq : db.QueueCleared)
    (hnew : id ∉ db.locationsCleared.rows) :
    sess.Accepts cfg env db id ↔ id ∈ sess.locationIDs cfg := by
  rw [hagree.same, ← not_iff_not, ← dispatch_eq_skip hflag, Session.Accepts]
  cases hd : sess.dispatch cfg db.toSetupTables id with
  | skip => simp
  | own item => simp
  | foreign owner name =>
    obtain ⟨hplaced, hother⟩ := dispatch_foreign.mp hd
    have hnull : ¬env.BindsNull name := by
      rintro ⟨-, rfl⟩
      exact hagree.named id owner hother hplaced
    have hrow : itemRow owner name ∉ db.unconfirmedSentItems.rows :=
      hq.free (fun id' hplaced' => hagree.once id id' owner name hother hplaced hplaced') hnew
    simp [hnull, hrow]

/-- Where the sources agree every location of a list of checks is cleared, unless nothing
is dispatched for it. -/
theorem Checks.cleared {ids : List Int} {r : Except Stop Unit} {t : Trace}
    (h : Checks cfg env sess db ids r t) (hagree : sess.SourcesAgree cfg db.toSetupTables)
    (hq : db.QueueCleared) {id : Int} (hid : id ∈ ids)
    (hd : sess.dispatch cfg db.toSetupTables id ≠ .skip) :
    id ∈ (replay db t).locationsCleared.rows := by
  have hkept : ∀ {db : Savefile} {t : Trace}, id ∈ db.locationsCleared.rows →
      id ∈ (replay db t).locationsCleared.rows := by
    intro db t hmem
    rw [replay_eq_perform]
    exact locationsCleared_subset_perform _ hmem
  induction h with
  | nil => cases hid
  | skip hskip _ ih =>
    rcases List.mem_cons.mp hid with rfl | hid
    · exact hkept (hskip.resolve_right hd)
    · exact ih hagree hq hid hd
  | @own _ id' _ _ _ _ cleared hnew _ hcl _ ih =>
    rw [replay_append, replay_ownTrace hnew hcl]
    rcases List.mem_cons.mp hid with rfl | hid
    · refine hkept ?_
      show id ∈ cleared.rows
      simp [hcl]
    · exact ih hagree (queueCleared_own hcl hq) hid hd
  | @foreign _ id' _ _ _ _ _ _ cleared hnew hd' hnull hrow hsends hcl _ ih =>
    rw [replay_append, replay_foreignTrace hnew hnull hrow hsends hcl]
    rcases List.mem_cons.mp hid with rfl | hid
    · refine hkept ?_
      show id ∈ cleared.rows
      simp [hcl]
    · have hplaced := (dispatch_foreign.mp hd').1
      exact ih hagree (queueCleared_foreign hplaced hsends hcl hq) hid hd
  | @stop db id' ids owner name e hnew hd' he =>
    obtain ⟨hplaced, hother⟩ := dispatch_foreign.mp hd'
    rcases he with ⟨⟨-, rfl⟩, -⟩ | ⟨-, hrow, -⟩
    · exact absurd hplaced (hagree.named id' owner hother)
    · exact absurd hrow (hq.free
        (fun id'' hplaced' => hagree.once id' id'' owner name hother hplaced hplaced') hnew)

/-! ### The lists -/

theorem listsCheckable_of_agree {m : Connect}
    (hagree : sess.SourcesAgree cfg db.toSetupTables)
    (hflag : sess.itemHandling.has receiveOwnItems = true) (hq : db.QueueCleared) :
    ListsCheckable cfg db sess (sess.connected cfg db m.slotData) := by
  have hmissing : ∀ id, id ∈ (sess.connected cfg db m.slotData).missingLocations ↔
      id ∈ sess.locationIDs cfg ∧ id ∉ db.locationsCleared.rows := fun id => mem_missingLocations
  refine ⟨fun env id => ?_, fun id hid hid' => ?_, fun env ids hids => ?_⟩
  · rw [hmissing, checkable_iff, and_comm]
    exact and_congr_right fun hnew => (accepts_iff hagree hflag hq hnew).symm
  · exact ((hmissing id).mp hid').2 (mem_clearedLocations.mp hid)
  · refine List.eq_nil_iff_forall_not_mem.mpr fun id hid => ?_
    obtain ⟨hmem, hnew⟩ := mem_missingLocations.mp hid
    rw [trace_locationChecks, replay_io] at hnew
    refine hnew ((checks_run ids db).cleared hagree hq (hids id ?_) ?_)
    · refine (hmissing id).mpr ⟨hmem, fun hold => hnew ?_⟩
      rw [replay_eq_perform]
      exact locationsCleared_subset_perform _ hold
    · rw [Ne, dispatch_eq_skip hflag, not_not]
      exact (hagree.same id).mp hmem

/-! ### Runs -/

/-- The client that connects with the flag for its own items. -/
def ownItemsClient : Connect := ⟨some receiveOwnItems, false⟩

/-- The session of a room that the client has connected to. -/
def Room.greeted (room : Room) : Session := { room.enter with itemHandling := receiveOwnItems }

variable {room : Room}

theorem greeted_flag : room.greeted.itemHandling.has receiveOwnItems = true := by
  show receiveOwnItems.has receiveOwnItems = true
  decide

/-- The list of the first client is right exactly if the checks of all its locations are
accepted. -/
theorem accepts_of_lists {s : System} (hs : s.ListsCheckable cfg)
    (hsess : s.session = some room.enter) (env : Env) {id : Int}
    (hnew : id ∉ s.db.locationsCleared.rows) :
    id ∈ room.locationIDs cfg ↔ room.greeted.Accepts cfg env s.db id := by
  obtain ⟨resp, hresp, hlists⟩ := hs room.enter hsess env ownItemsClient receiveOwnItems rfl
    (by decide)
  have hmissing := hlists.checkable env id
  rw [connected_of_connect (m := ownItemsClient) rfl] at hresp
  subst hresp
  have hiff : id ∈ room.missingLocations cfg s.db ↔ room.greeted.Checkable cfg env s.db id :=
    hmissing
  rw [mem_missingLocations, checkable_iff, and_comm] at hiff
  exact (and_congr_right_iff.mp hiff) hnew

theorem step_connect (hroom : cfg.openRoom db.toSetupTables = .ok room) :
    (step cfg (boot db) .connect).db = db ∧
      (step cfg (boot db) .connect).session = some room.enter := by
  have hboot : (boot db).db = db := rfl
  rw [step, hboot, hroom]
  exact ⟨rfl, rfl⟩

/-- The first check of an item of another player leaves it queued. -/
theorem step_check_foreign {s : System} (hsess : s.session = some room.enter)
    (hcleared : s.db.locationsCleared.rows = []) (hqueue : s.db.unconfirmedSentItems.rows = [])
    {id owner : Int} {name : GoString} (hother : owner ≠ room.playerID) (hname : name ≠ [])
    (hplaced : s.db.getPlacedItem id = some (owner, name)) :
    ∃ s', step cfg s (.handle (Env.inOrder false) (.fromAP (.locationChecks [id]))) = s' ∧
      s'.session = some room.enter ∧ s'.db.locationsCleared.rows = [id] ∧
        s'.db.unconfirmedSentItems.rows = [itemRow owner name] := by
  have hnew : id ∉ s.db.locationsCleared.rows := by simp [hcleared]
  have hrow : itemRow owner name ∉ s.db.unconfirmedSentItems.rows := by simp [hqueue]
  have hnull : ¬(Env.inOrder false).BindsNull name := fun h => hname h.2
  have hd : room.enter.dispatch cfg s.db.toSetupTables id = .foreign owner name :=
    dispatch_foreign.mpr ⟨hplaced, hother⟩
  obtain ⟨sends, cleared, hsends, hcl, hrun, hreplay⟩ :=
    @run_checkLocation_sent cfg _ _ _ _ _ _ hnew hd hnull hrow
  have hlist : (handleLocationChecks cfg (Env.inOrder false) room.enter [id]).run s.db =
      ⟨.ok (), foreignTrace (Env.inOrder false) id owner name ++ []⟩ := Proc.run_bind_of_ok hrun
  rw [step, hsess]
  dsimp only
  rw [run_handle_fromAP, handleAP, Proc.run_bind_pure, hlist, List.append_nil]
  refine ⟨_, rfl, rfl, ?_, ?_⟩
  · show (replay s.db (_ :: foreignTrace _ id owner name)).locationsCleared.rows = _
    rw [replay_io, hreplay]
    exact hcl.trans (by rw [hcleared]; rfl)
  · show (replay s.db (_ :: foreignTrace _ id owner name)).unconfirmedSentItems.rows = _
    rw [replay_io, hreplay]
    exact hsends.trans (by rw [hqueue]; rfl)

/-- The state that the first client meets: nothing is cleared, and nothing is queued. -/
structure System.Entered (s : System) (room : Room) : Prop where
  session : s.session = some room.enter
  cleared : s.db.locationsCleared.rows = []
  queue : s.db.unconfirmedSentItems.rows = []

section First

variable {s : System} (hs : s.Entered room) (hlists : s.ListsCheckable cfg)

include hs hlists

theorem mem_locationIDs_iff_accepts (env : Env) (id : Int) :
    id ∈ room.locationIDs cfg ↔ room.greeted.Accepts cfg env s.db id :=
  accepts_of_lists hlists hs.session env (by simp [hs.cleared])

theorem mem_locationIDs_of_foreign {id owner : Int} {name : GoString}
    (hother : owner ≠ room.playerID) (hplaced : s.db.getPlacedItem id = some (owner, name))
    (env : Env) : id ∈ room.locationIDs cfg ↔ ¬env.BindsNull name := by
  have hd : room.greeted.dispatch cfg s.db.toSetupTables id = .foreign owner name :=
    dispatch_foreign.mpr ⟨hplaced, hother⟩
  rw [mem_locationIDs_iff_accepts hs hlists env id, Session.Accepts, hd]
  simp [hs.queue]

/-- How the driver binds an empty name would decide whether the check is refused. -/
theorem named_of_lists {id owner : Int} (hother : owner ≠ room.playerID) :
    s.db.getPlacedItem id ≠ some (owner, []) := by
  intro hplaced
  have hnull := (mem_locationIDs_of_foreign hs hlists hother hplaced (Env.inOrder true)).symm.trans
    (mem_locationIDs_of_foreign hs hlists hother hplaced (Env.inOrder false))
  exact absurd ⟨rfl, rfl⟩ (hnull.mpr fun h => Bool.false_ne_true h.1)

theorem same_of_lists (id : Int) : id ∈ room.locationIDs cfg ↔
    (s.db.getPlacedItem id).isSome ∨ (room.localItem cfg id).isSome := by
  have hskip : room.greeted.dispatch cfg s.db.toSetupTables id = .skip ↔
      ¬((s.db.getPlacedItem id).isSome ∨ (room.localItem cfg id).isSome) :=
    dispatch_eq_skip greeted_flag
  rw [mem_locationIDs_iff_accepts hs hlists (Env.inOrder false) id, ← not_iff_not, ← hskip,
    Session.Accepts]
  cases hd : room.greeted.dispatch cfg s.db.toSetupTables id with
  | skip => simp
  | own item => simp
  | foreign owner name =>
    have hnull : ¬(Env.inOrder false).BindsNull name := fun h => Bool.false_ne_true h.1
    simp [hnull, hs.queue]

/-- After the check of one of two locations that have the same item the other one is
missing, but its check is refused. -/
theorem once_of_lists {id id' owner : Int} {name : GoString} (hother : owner ≠ room.playerID)
    (hplaced : s.db.getPlacedItem id = some (owner, name))
    (hplaced' : s.db.getPlacedItem id' = some (owner, name))
    (hnext : (step cfg s (.handle (Env.inOrder false)
      (.fromAP (.locationChecks [id])))).ListsCheckable cfg) : id' = id := by
  by_contra hne
  have hname : name ≠ [] := by
    rintro rfl
    exact named_of_lists hs hlists hother hplaced
  obtain ⟨s', hs', hsess', hcleared, hqueue⟩ := @step_check_foreign cfg _ _ hs.session
    hs.cleared hs.queue _ _ _ hother hname hplaced
  have hsetup : s'.db.toSetupTables = s.db.toSetupTables := hs' ▸ step_toSetupTables _
  have hmem : id' ∈ room.locationIDs cfg :=
    (same_of_lists hs hlists id').mpr (Or.inl (by rw [hplaced']; rfl))
  have haccepts := (accepts_of_lists (hs' ▸ hnext) hsess' (Env.inOrder false)
    (by simpa [hcleared])).mp hmem
  have hd : room.greeted.dispatch cfg s'.db.toSetupTables id' = .foreign owner name := by
    rw [hsetup]
    exact dispatch_foreign.mpr ⟨hplaced', hother⟩
  rw [Session.Accepts, hd] at haccepts
  simp [hqueue] at haccepts

end First

/-- The lists are right in every state that is reached without a kill exactly if the
sources agree. -/
theorem missing_are_checkable_iff {env : Env} {result : ResultMessage}
    {precollectedItems : List Int} (h : createSavefile env result precollectedItems = .ok db)
    (hroom : cfg.openRoom db.toSetupTables = .ok room) :
    (∀ es : List Event, (∀ e ∈ es, e.Survives) → (play cfg db es).ListsCheckable cfg) ↔
      room.SourcesAgree cfg db.toSetupTables := by
  have hfresh := createSavefile_fresh h
  constructor
  · intro hall
    obtain ⟨hdb, hsess⟩ := @step_connect cfg _ _ hroom
    have hs : (step cfg (boot db) .connect).Entered room :=
      ⟨hsess, hdb.symm ▸ hfresh.cleared, hdb.symm ▸ hfresh.unconfirmed⟩
    have hlists : (step cfg (boot db) .connect).ListsCheckable cfg :=
      hall [.connect] (by simp [Event.Survives])
    rw [← hdb]
    refine ⟨same_of_lists hs hlists, fun _ _ => named_of_lists hs hlists,
      fun id id' owner name hother hplaced hplaced' => ?_⟩
    refine once_of_lists hs hlists hother hplaced hplaced' ?_
    refine hall [.connect, .handle (Env.inOrder false) (.fromAP (.locationChecks [id]))] ?_
    simp [Event.Survives]
  · intro hagree es hsurv sess hs env m mode hm hflag
    have hq := @queueCleared_play cfg _ _ hfresh hsurv
    have hsetup := play_toSetupTables cfg db es
    have hopen := opened_play cfg db es sess hs
    obtain rfl : room = sess.toRoom := by
      rw [hsetup] at hopen
      exact Except.ok.inj (hroom.symm.trans hopen)
    refine ⟨_, (connected_of_connect hm).mpr rfl, ?_⟩
    exact @listsCheckable_of_agree _ { sess with itemHandling := mode } _ _
      (hsetup ▸ hagree) hflag hq

/-- A seed that leaves out one of the locations of the game. -/
def atticConfig : Config :=
  { sampleConfig with
    data :=
      { sampleConfig.data with
        datapackage := (∅ : GoMap GoString Apgamedata).insert (lit "G")
          ⟨∅, (((∅ : GoMap GoString Int).insert (lit "Gate") 7).insert (lit "Well") 8).insert
            (lit "Attic") 12, [], .null⟩ } }

/-- The location that the seed leaves out stays missing: nothing is dispatched for it. -/
theorem unplaced_location_stays_missing : ¬∀ (cfg : Config) (env : Env) (result : ResultMessage)
    (precollectedItems : List Int) (db : Savefile),
    createSavefile env result precollectedItems = .ok db → ∀ es : List Event,
      (play cfg db es).ListsCheckable cfg := by
  intro hall
  obtain ⟨db, room, h, hroom, hmem, hplaced, hlocal⟩ :=
    exists_opened atticConfig sampleResult
      (fun setup room => 12 ∈ room.locationIDs atticConfig ∧ setup.getPlacedItem 12 = none ∧
        room.localItem atticConfig 12 = none) (by decide +kernel)
  obtain ⟨hdb, hsess⟩ := step_connect hroom
  have hlists : (step atticConfig (boot db) .connect).ListsCheckable atticConfig :=
    hall atticConfig _ sampleResult [] db h [.connect]
  have hnew : 12 ∉ (step atticConfig (boot db) .connect).db.locationsCleared.rows := by
    simp [hdb, (createSavefile_fresh h).cleared]
  have haccepts := (accepts_of_lists hlists hsess (Env.inOrder false) hnew).mp hmem
  have hskip : room.greeted.dispatch atticConfig
      (step atticConfig (boot db) .connect).db.toSetupTables 12 = .skip := by
    rw [hdb]
    refine (dispatch_eq_skip greeted_flag).mpr ?_
    have hlocal' : room.greeted.localItem atticConfig 12 = none := hlocal
    simp [hplaced, hlocal']
  rw [Session.Accepts, hskip] at haccepts
  simp at haccepts

/-- The sources agree where the items have names, those of each owner distinct ones, and the
data package has the locations of the placed items and of the slot. -/
theorem sourcesAgree_of_rows {setup : SetupTables} (hvalid : setup.Valid)
    (hnames : setup.NamesDistinct)
    (hnamed : ∀ row ∈ setup.ownWorldPlacements.rows, row.itemName ≠ [])
    (hsame : ∀ id, id ∈ room.locationIDs cfg ↔
      id ∈ setup.ownWorldPlacements.rows.map (·.apLocationID) ∨ (room.localItem cfg id).isSome) :
    room.SourcesAgree cfg setup := by
  refine ⟨fun id => (hsame id).trans (or_congr_left ?_), fun id owner _ hplaced => ?_,
    fun id id' owner name _ hplaced hplaced' => getPlacedItem_inj hvalid hnames hplaced' hplaced⟩
  · rw [SetupTables.getPlacedItem, Option.isSome_map, Option.isSome_iff_exists, List.mem_map]
    exact exists_congr fun row => Table.find_eq_some.symm
  · obtain ⟨row, hrow, hname⟩ := Option.map_eq_some_iff.mp hplaced
    exact hnamed row (Table.find_eq_some.mp hrow).1 (congrArg Prod.snd hname)

/-- A seed that has an item at every location of the game. -/
def wholeConfig : Config :=
  { sampleConfig with
    data :=
      { sampleConfig.data with
        datapackage := (∅ : GoMap GoString Apgamedata).insert (lit "G")
          ⟨∅, (((∅ : GoMap GoString Int).insert (lit "Gate") 7).insert (lit "Well") 8).insert
            (lit "Attic") 9, [], .null⟩ } }

/-- The slot has an item at one location. -/
theorem isSome_localItem_whole {room : Room} (hslot : room.slotID = 1) (id : Int) :
    (room.localItem wholeConfig id).isSome ↔ id = 9 := by
  by_cases hid : id = 9
  · rw [hid, Room.localItem, hslot]
    exact iff_of_true rfl rfl
  · have hnone : wholeConfig.data.locationOf room.slotID id = none := by
      rw [hslot]
      simp only [wholeConfig, sampleConfig, Apdata.locationOf, GoMap.index]
      rw [AList.lookup_insert, Option.getD_some, AList.lookup_insert_ne hid]
      rfl
    refine iff_of_false ?_ hid
    simp [Room.localItem, hnone]

/-- Where each location of the game has an item the lists are right in every run. -/
theorem missing_are_checkable_iff_sample : ∃ db,
    createSavefile (Env.inOrder false) sampleResult [] = .ok db ∧
      ∀ es : List Event, (∀ e ∈ es, e.Survives) →
        (play wholeConfig db es).ListsCheckable wholeConfig := by
  obtain ⟨db, room, h, hroom, hslot, hids, hplaced, hnames, hnamed⟩ :=
    exists_opened wholeConfig sampleResult
      (fun setup room => room.slotID = 1 ∧ room.locationIDs wholeConfig = [9, 8, 7] ∧
        setup.ownWorldPlacements.rows.map (·.apLocationID) = [7, 8] ∧ setup.NamesDistinct ∧
          ∀ row ∈ setup.ownWorldPlacements.rows, row.itemName ≠ []) (by decide +kernel)
  refine ⟨db, h, (missing_are_checkable_iff h hroom).mpr ?_⟩
  refine sourcesAgree_of_rows (createSavefile_fresh h).valid hnames hnamed fun id => ?_
  rw [hids, hplaced, isSome_localItem_whole hslot]
  simp only [List.mem_cons, List.not_mem_nil, or_false]
  omega

end Missing

end Isthmus
