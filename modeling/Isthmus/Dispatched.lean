import Isthmus.Run

/-!
# Dispatches of locations

A location is dispatched by a row that a check appends for it, or by a send that
is queued for the item placed there. While no process is killed the number of
dispatches of a location is the number of times that it is in the table of
cleared locations, which is once or not at all.

## Main definitions

- `dispatches`: how often a history dispatches a location
- `Room.Dispatches`: what is dispatched of a location is what is there

## Main results

- `dispatches_itemAt`: what a run without kills dispatches
- `dispatched_exactly_once`: how often it does
-/

namespace Isthmus

open Process Mwproto Approto

/-- The rows that writes bind for the queue. -/
def sends : List Commit → List SendRow
  | [] => []
  | .addUnconfirmedItems rows :: cs => rows ++ sends cs
  | _ :: cs => sends cs

@[simp] theorem sends_append (cs ds : List Commit) : sends (cs ++ ds) = sends cs ++ sends ds := by
  induction cs with
  | nil => rfl
  | cons c cs ih => cases c <;> simp [sends, ih]

/-- The rows appended by a check of the location, and the sends queued for it. -/
def dispatches (history : Trace) (loc : Int) : Nat :=
  (appended (commits history)).countP (fun row => row.origin = .checked loc) +
    (sends (commits history)).countP fun row => row.locID = loc

theorem dispatches_append (history t : Trace) (loc : Int) :
    dispatches (history ++ t) loc = dispatches history loc + dispatches t loc := by
  simp only [dispatches, commits_append, appended_append, sends_append, List.countP_append]
  omega

/-- A trace that dispatches nothing and clears nothing. -/
structure Idle (t : Trace) : Prop where
  rows : ∀ row ∈ appended (commits t), ∀ id, row.origin ≠ .checked id
  sends : sends (commits t) = []
  cleared : ∀ c ∈ commits t, c.target ≠ .cleared

theorem Idle.dispatches_eq_zero {t : Trace} (h : Idle t) (loc : Int) : dispatches t loc = 0 := by
  have hzero : (appended (commits t)).countP (fun row => row.origin = .checked loc) = 0 := by
    refine List.countP_eq_zero.mpr fun row hrow horigin => ?_
    exact h.rows row hrow loc (of_decide_eq_true horigin)
  rw [dispatches, hzero, h.sends]
  rfl

/-- The trace dispatches each location as often as it adds it to the cleared. -/
def Balanced (db : Savefile) (t : Trace) : Prop :=
  ∀ loc, (replay db t).locationsCleared.rows.count loc =
    db.locationsCleared.rows.count loc + dispatches t loc

/-- The own item at a location: the one that is placed there, or else that of the slot. -/
def Room.ItemAt (room : Room) (cfg : Config) (setup : SetupTables) (loc : Int)
    (item : NetworkItem) : Prop :=
  match setup.getPlacedItem loc with
  | some (owner, name) =>
    owner = room.playerID ∧ item = ⟨room.ownItemID cfg name, loc, room.playerID + 1, 0⟩
  | none => room.localItem cfg loc = some item

/-- What the trace dispatches of a location is what is there: the row has the own item, and the
send has the label, the name and the owner of the item of another player. -/
structure Room.Dispatches (room : Room) (cfg : Config) (setup : SetupTables) (t : Trace) :
    Prop where
  rows : ∀ row ∈ appended (commits t), ∀ loc, row.origin = .checked loc →
    ∃ item, room.ItemAt cfg setup loc item ∧ row = sentRow item (.checked loc)
  sends : ∀ row ∈ sends (commits t), ∃ env owner name,
    setup.getPlacedItem row.locID = some (owner, name) ∧ owner ≠ room.playerID ∧
      row = sendRow env row.locID owner name

@[simp] theorem sends_recordCommits (rows : List ReceivedRow) :
    sends (recordCommits rows) = [] := by
  induction rows with
  | nil => rfl
  | cons r rows ih => exact ih

section Dispatched

variable {cfg : Config} {env : Env} {sess : Session} {db : Savefile}

theorem Idle.balanced {t : Trace} (h : Idle t) : Balanced db t := by
  intro loc
  rw [replay_eq_perform, locationsCleared_perform h.cleared, h.dispatches_eq_zero]
  rfl

theorem Balanced.append {t u : Trace} (ht : Balanced db t) (hu : Balanced (replay db t) u) :
    Balanced db (t ++ u) := by
  intro loc
  have h1 := ht loc
  have h2 := hu loc
  rw [replay_append, dispatches_append]
  omega

/-- An own item is appended once for the one location that is cleared. -/
theorem balanced_ownTrace {locID : Int} {item : NetworkItem} {cleared : Table Int id}
    (hnew : locID ∉ db.locationsCleared.rows)
    (hcl : cleared.rows = db.locationsCleared.rows ++ [locID]) :
    Balanced db (sess.ownTrace db locID item) := by
  intro loc
  rw [replay_ownTrace hnew hcl]
  show cleared.rows.count loc = _
  rw [hcl, List.count_append, dispatches, commits_ownTrace]
  by_cases hloc : locID = loc
  · simp [appended, sends, sentRow, hloc]
  · simp [appended, sends, sentRow, hloc]

/-- One send is queued for the one location that is cleared. -/
theorem balanced_foreignTrace {locID owner : Int} {name : GoString}
    {queue : Table UnconfirmedRow id} {cleared : Table Int id}
    (hnew : locID ∉ db.locationsCleared.rows) (hnull : ¬ env.BindsNull name)
    (hrow : itemRow owner name ∉ db.unconfirmedSentItems.rows)
    (hqueue : queue.rows = db.unconfirmedSentItems.rows ++ [itemRow owner name])
    (hcl : cleared.rows = db.locationsCleared.rows ++ [locID]) :
    Balanced db (foreignTrace env locID owner name) := by
  intro loc
  rw [replay_foreignTrace hnew hnull hrow hqueue hcl]
  show cleared.rows.count loc = _
  rw [hcl, List.count_append, dispatches, commits_foreignTrace]
  by_cases hloc : locID = loc
  · simp [appended, sends, sendRow, hloc]
  · simp [appended, sends, sendRow, hloc]

/-- Every exit of a location check is balanced. -/
theorem Checks.balanced {ids : List Int} {r : Except Stop Unit} {t : Trace}
    (h : Checks cfg env sess db ids r t) : Balanced db t := by
  induction h with
  | nil => exact fun _ => rfl
  | skip _ _ ih => exact ih
  | own hnew _ hcl _ ih =>
    refine (balanced_ownTrace hnew hcl).append ?_
    rw [replay_ownTrace hnew hcl]
    exact ih
  | foreign hnew _ hnull hrow hsends hcl _ ih =>
    refine (balanced_foreignTrace hnew hnull hrow hsends hcl).append ?_
    rw [replay_foreignTrace hnew hnull hrow hsends hcl]
    exact ih
  | stop _ _ _ => exact fun _ => rfl

/-- A release queues one send for each location that it clears. -/
theorem balanced_releaseTrace {db₁ : Savefile} {cleared : Table Int id} {playerID : Int}
    (hcl : cleared.rows = db.locationsCleared.rows ++
      (db.releasable playerID).map OwnWorldPlacement.apLocationID)
    (hdb : replay db (db.releaseTrace env playerID) = { db₁ with locationsCleared := cleared }) :
    Balanced db (db.releaseTrace env playerID) := by
  intro loc
  have hsent : sends (commits (db.releaseTrace env playerID)) = db.releaseRows env playerID := by
    simp [sends]
  have hrows : appended (commits (db.releaseTrace env playerID)) = [] := by simp [appended]
  rw [hdb, dispatches, hrows, hsent]
  show cleared.rows.count loc = _
  rw [hcl, List.count_append, Savefile.releaseRows, List.countP_map, List.count_eq_countP,
    List.count_eq_countP, List.countP_map]
  simp only [List.countP_nil, Nat.zero_add, Nat.add_left_cancel_iff]
  rfl

/-- A step that is handled to its end dispatches and clears nothing, unless its message checks
locations or releases them. -/
theorem Handled.cases_idle {m : Incoming} {r : Except Stop Session} {t : Trace}
    (h : Handled cfg env sess db m r t) : Idle t ∨ (∃ ids r', Checks cfg env sess db ids r' t) ∨
      t = db.releaseTrace env sess.playerID ∧ Balanced db t := by
  cases h with
  | quiet _ hq _ =>
    exact .inl ⟨by simp [hq.commits, appended], by simp [hq.commits, sends],
      by simp [hq.commits]⟩
  | stored hq =>
    exact .inl ⟨by simp [hq.commits, appended], by simp [hq.commits, sends],
      by simp [hq.commits, Commit.target]⟩
  | delivered _ _ _ _ =>
    exact .inl ⟨by simp [appended, sentRow], by simp [sends], by simp [Commit.target]⟩
  | unrecorded _ _ _ =>
    exact .inl ⟨by simp [appended, sentRow], by simp [sends], by simp [Commit.target]⟩
  | confirmed => exact .inl ⟨by simp [appended], by simp [sends], by simp [Commit.target]⟩
  | @released m items _ horigin _ =>
    refine .inl ⟨?_, by simp [sends], ?_⟩
    · simp only [commits_append, commits_recordTrace, commits_batchTrace, appended_append,
        appended_recordCommits, List.nil_append, appended, List.append_nil]
      intro row hrow locID hchecked
      obtain ⟨p, hp, rfl⟩ := List.mem_map.mp hrow
      have hmem : p.2 ∈ items.map Prod.snd := List.mem_map_of_mem hp
      rw [horigin] at hmem
      obtain ⟨rr, -, hrr⟩ := List.mem_map.mp hmem
      have hp2 : p.2 = .checked locID := hchecked
      rw [hp2] at hrr
      cases hrr
    · intro c hc
      rcases target_of_mem_batch hc with htarget | htarget
      · simp [htarget]
      · simp [htarget]
  | unreleased _ =>
    refine .inl ⟨by simp, by simp, fun c hc => ?_⟩
    rw [commits_recordTrace] at hc
    simp [target_of_mem_recordCommits hc]
  | @collected items hitems =>
    refine .inl ⟨?_, by simp [sends], by simp [Commit.target]⟩
    simp only [commits_collectTrace, appended, List.append_nil]
    intro row hrow locID hchecked
    obtain ⟨p, hp, rfl⟩ := List.mem_map.mp hrow
    have hmem : p.2 ∈ items.map Prod.snd := List.mem_map_of_mem hp
    rw [collectItems_origin hitems] at hmem
    obtain ⟨placement, -, hplacement⟩ := List.mem_map.mp hmem
    have hp2 : p.2 = .checked locID := hchecked
    rw [hp2] at hplacement
    cases hplacement
  | unsent _ => exact .inl ⟨by simp [appended], rfl, by simp⟩
  | sent _ hcl hdb => exact .inr (.inr ⟨rfl, balanced_releaseTrace hcl hdb⟩)
  | checked hc => exact .inr (.inl ⟨_, _, hc⟩)

/-- Every step that is handled to its end is balanced. -/
theorem Handled.balanced {m : Incoming} {r : Except Stop Session} {t : Trace}
    (h : Handled cfg env sess db m r t) : Balanced db t := by
  obtain hidle | ⟨ids, r', hc⟩ | ⟨-, hbalanced⟩ := h.cases_idle
  · exact hidle.balanced
  · exact hc.balanced
  · exact hbalanced

/-! ### What is dispatched -/

theorem Idle.dispatched {room : Room} {setup : SetupTables} {t : Trace} (h : Idle t) :
    room.Dispatches cfg setup t where
  rows row hrow loc horigin := absurd horigin (h.rows row hrow loc)
  sends row hrow := by
    rw [h.sends] at hrow
    cases hrow

theorem Room.Dispatches.append {room : Room} {setup : SetupTables} {t u : Trace}
    (ht : room.Dispatches cfg setup t) (hu : room.Dispatches cfg setup u) :
    room.Dispatches cfg setup (t ++ u) where
  rows row hrow := by
    rw [commits_append, appended_append] at hrow
    exact (List.mem_append.mp hrow).elim (ht.rows row) (hu.rows row)
  sends row hrow := by
    rw [commits_append, sends_append] at hrow
    exact (List.mem_append.mp hrow).elim (ht.sends row) (hu.sends row)

/-- What a check dispatches to the own player is at the location. -/
theorem itemAt_of_dispatch {setup : SetupTables} {id : Int} {item : NetworkItem}
    (h : sess.dispatch cfg setup id = .own item) : sess.ItemAt cfg setup id item := by
  rw [Session.dispatch] at h
  rw [Room.ItemAt]
  cases hplaced : setup.getPlacedItem id with
  | some p =>
    obtain ⟨owner, name⟩ := p
    rw [hplaced] at h
    dsimp only at h ⊢
    split at h
    · next howner =>
      cases h
      exact ⟨howner, rfl⟩
    · cases h
  | none =>
    rw [hplaced] at h
    dsimp only at h ⊢
    split at h
    · split at h
      · cases h
      · next hitem =>
        cases h
        exact hitem
    · cases h

theorem dispatches_ownTrace {setup : SetupTables} {id : Int} {item : NetworkItem}
    (h : sess.dispatch cfg setup id = .own item) :
    sess.Dispatches cfg setup (sess.ownTrace db id item) where
  rows row hrow loc horigin := by
    simp only [commits_ownTrace, appended, List.append_nil, List.mem_singleton] at hrow
    subst hrow
    cases horigin
    exact ⟨item, itemAt_of_dispatch h, rfl⟩
  sends row hrow := by
    rw [commits_ownTrace] at hrow
    cases hrow

theorem dispatches_foreignTrace {setup : SetupTables} {id owner : Int} {name : GoString}
    (h : sess.dispatch cfg setup id = .foreign owner name) :
    sess.Dispatches cfg setup (foreignTrace env id owner name) where
  rows row hrow := by
    rw [commits_foreignTrace] at hrow
    cases hrow
  sends row hrow := by
    simp only [commits_foreignTrace, sends, List.append_nil, List.mem_singleton] at hrow
    subst hrow
    obtain ⟨hplaced, hother⟩ := dispatch_foreign.mp h
    exact ⟨env, owner, name, hplaced, hother, rfl⟩

theorem Checks.dispatched {ids : List Int} {r : Except Stop Unit} {t : Trace}
    (h : Checks cfg env sess db ids r t) : sess.Dispatches cfg db.toSetupTables t := by
  induction h with
  | nil | stop => exact ⟨nofun, nofun⟩
  | skip _ _ ih => exact ih
  | own _ hd _ _ ih => exact (dispatches_ownTrace hd).append ih
  | foreign _ hd _ _ _ _ _ ih => exact (dispatches_foreignTrace hd).append ih

theorem dispatches_releaseTrace :
    sess.Dispatches cfg db.toSetupTables (db.releaseTrace env sess.playerID) where
  rows row hrow := by
    rw [commits_releaseTrace] at hrow
    cases hrow
  sends row hrow := by
    simp only [commits_releaseTrace, sends, List.append_nil] at hrow
    obtain ⟨p, hp, rfl⟩ := List.mem_map.mp hrow
    obtain ⟨hplaced, hother, -⟩ := mem_releasable.mp hp
    exact ⟨env, p.ownerID, p.name, hplaced, hother, rfl⟩

/-- Every step that is handled to its end dispatches what is at the locations. -/
theorem Handled.dispatched {m : Incoming} {r : Except Stop Session} {t : Trace}
    (h : Handled cfg env sess db m r t) : sess.Dispatches cfg db.toSetupTables t := by
  obtain hidle | ⟨ids, r', hc⟩ | ⟨rfl, -⟩ := h.cases_idle
  · exact hidle.dispatched
  · exact hc.dispatched
  · exact dispatches_releaseTrace

/-- In a run without kills, what is dispatched of a location is what is there. -/
theorem dispatches_itemAt {room : Room} (hroom : cfg.openRoom db.toSetupTables = .ok room)
    {es : List Event} (hsurv : ∀ e ∈ es, e.Survives) :
    room.Dispatches cfg db.toSetupTables (play cfg db es).history := by
  have hstep : ∀ s e, (s.Opened cfg ∧ s.db.toSetupTables = db.toSetupTables) ∧
      room.Dispatches cfg db.toSetupTables s.history → e.Survives →
      ((step cfg s e).Opened cfg ∧ (step cfg s e).db.toSetupTables = db.toSetupTables) ∧
        room.Dispatches cfg db.toSetupTables (step cfg s e).history := by
    rintro s e ⟨⟨ho, hsetup⟩, hs⟩ he
    refine ⟨⟨opened_step ho e, (step_toSetupTables e).trans hsetup⟩, ?_⟩
    generalize hs' : step cfg s e = s'
    have hstepped : Stepped cfg s e s' := hs' ▸ stepped ho e
    cases hstepped with
    | @stayed _ _ t _ hdb hhist hc =>
      have hidle : Idle t := ⟨by simp [hc, appended], by simp [hc, sends], by simp [hc]⟩
      rw [hhist]
      exact hs.append hidle.dispatched
    | @handled env sess m r t hsess h =>
      have hopen := ho sess hsess
      rw [hsetup] at hopen
      obtain rfl : room = sess.toRoom := Except.ok.inj (hroom.symm.trans hopen)
      have hdispatches := h.dispatched
      rw [hsetup] at hdispatches
      exact hs.append ⟨hdispatches.rows, hdispatches.sends⟩
    | killed _ _ => exact absurd he id
  have hboot : room.Dispatches cfg db.toSetupTables (boot db).history :=
    ⟨fun _ hrow => absurd hrow List.not_mem_nil, fun _ hrow => absurd hrow List.not_mem_nil⟩
  exact ((Runs.meets_iff_forall.mpr hsurv).keep hstep ⟨⟨opened_boot cfg db, rfl⟩, hboot⟩).2

/-! ### How often it is dispatched -/

/-- In a run without kills a location is dispatched as often as it is cleared. -/
theorem dispatches_play {es : List Event} (hfresh : db.Fresh) (hsurv : ∀ e ∈ es, e.Survives)
    (loc : Int) : dispatches (play cfg db es).history loc =
      (play cfg db es).db.locationsCleared.rows.count loc := by
  have hboot : dispatches (boot db).history loc = (boot db).db.locationsCleared.rows.count loc := by
    show 0 = db.locationsCleared.rows.count loc
    rw [hfresh.cleared, List.count_nil]
  have hstep : ∀ s e, s.Opened cfg ∧
        dispatches s.history loc = s.db.locationsCleared.rows.count loc → e.Survives →
      (step cfg s e).Opened cfg ∧ dispatches (step cfg s e).history loc =
        (step cfg s e).db.locationsCleared.rows.count loc := by
    rintro s e ⟨ho, hs⟩ he
    refine ⟨opened_step ho e, ?_⟩
    generalize hs' : step cfg s e = s'
    have hstepped : Stepped cfg s e s' := hs' ▸ stepped ho e
    cases hstepped with
    | @stayed _ _ t _ hdb hhist hc =>
      have hidle : Idle t := ⟨by simp [hc, appended], by simp [hc, sends], by simp [hc]⟩
      rw [hdb, hhist, dispatches_append, hidle.dispatches_eq_zero, hs, Nat.add_zero]
    | @handled env sess m r t _ h =>
      show dispatches (s.history ++ .io (.recv m) :: t) loc =
        (replay s.db t).locationsCleared.rows.count loc
      rw [dispatches_append, h.balanced loc, hs]
      rfl
    | killed _ _ => exact absurd he id
  exact ((Runs.meets_iff_forall.mpr hsurv).keep hstep ⟨opened_boot cfg db, hboot⟩).2

/-- After every message of a run without kills a location is cleared exactly if
it was dispatched exactly once, and no location is dispatched twice. -/
theorem dispatched_exactly_once {env : Env} {result : ResultMessage}
    {precollectedItems : List Int}
    (h : createSavefile env result precollectedItems = .ok db) {es : List Event}
    (hsurv : ∀ e ∈ es, e.Survives) (loc : Int) :
    (loc ∈ (play cfg db es).db.locationsCleared.rows ↔
      dispatches (play cfg db es).history loc = 1) ∧
      dispatches (play cfg db es).history loc ≤ 1 := by
  rw [dispatches_play (createSavefile_fresh h) hsurv]
  have hnd : (play cfg db es).db.locationsCleared.rows.Nodup := by
    simpa using (play cfg db es).db.locationsCleared.nodup
  have hle := List.nodup_iff_count_le_one.mp hnd loc
  have hpos := List.count_pos_iff (a := loc) (l := (play cfg db es).db.locationsCleared.rows)
  refine ⟨?_, hle⟩
  rw [← hpos]
  omega

end Dispatched

/-- A check of two locations, and a release. -/
def checksAndRelease : List Event :=
  [.connect, .handle (Env.inOrder false) (.fromAP (.locationChecks [8, 8, 7])),
    .handle (Env.inOrder false) (.fromAP (.say (lit "!release")))]

/-- The location 7 is cleared, and dispatched once. -/
theorem dispatched_exactly_once_sample : ∃ db,
    createSavefile (Env.inOrder false) sampleResult [] = .ok db ∧
      7 ∈ (play sampleConfig db checksAndRelease).db.locationsCleared.rows ∧
        dispatches (play sampleConfig db checksAndRelease).history 7 = 1 := by
  obtain ⟨db, h, hmem⟩ := exists_created
    (x := createSavefile (Env.inOrder false) sampleResult [])
    (P := fun db => 7 ∈ (play sampleConfig db checksAndRelease).db.locationsCleared.rows)
    (by decide +kernel)
  have hsurv : ∀ e ∈ checksAndRelease, e.Survives := by
    intro e he
    simp only [checksAndRelease, List.mem_cons, List.not_mem_nil, or_false] at he
    rcases he with rfl | rfl | rfl
    · trivial
    · trivial
    · trivial
  exact ⟨db, h, hmem, (dispatched_exactly_once h hsurv 7).1.mp hmem⟩

end Isthmus
