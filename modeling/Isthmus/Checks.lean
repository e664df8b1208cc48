import Isthmus.Traces

/-!
# Location checks

`Dispatch` says what a location check does with a location that is not cleared,
and `Checks` what the checks of a list do, one location after the other. Each
dispatch is two writes: the item is appended or queued, then the location is
cleared.
-/

namespace Isthmus

open Process Mwproto Approto

/-- What a location check does with a location that is not cleared. -/
inductive Dispatch where
  | skip
  | own (item : NetworkItem)
  | foreign (ownerID : Int) (name : GoString)
  deriving DecidableEq

def Session.dispatch (sess : Session) (cfg : Config) (setup : SetupTables) (locID : Int) :
    Dispatch :=
  match setup.getPlacedItem locID with
  | some (ownerID, name) =>
    if ownerID = sess.playerID then .own ⟨sess.ownItemID cfg name, locID, sess.playerID + 1, 0⟩
    else .foreign ownerID name
  | none =>
    if sess.itemHandling.has receiveOwnItems then
      match sess.localItem cfg locID with
      | none => .skip
      | some item => .own item
    else .skip

theorem run_dispatchOwn (sess : Session) (item : NetworkItem) (locID : Int) (db : Savefile) :
    (dispatchOwn sess item locID).run db =
      ⟨.ok (), .commit (.addSentItems [sentRow item (.checked locID)]) ::
        sess.notice receiveOwnItems (db.sentIndex [(item, .checked locID)]) [item]⟩ := by
  rw [dispatchOwn, Proc.run_bind_of_ok (run_addSentItems _ db), run_notify]
  rfl

/-- The effects of dispatching an own item: append, tell the client, clear. -/
def Session.ownTrace (sess : Session) (db : Savefile) (id : Int) (item : NetworkItem) : Trace :=
  .commit (.addSentItems [sentRow item (.checked id)]) ::
    (sess.notice receiveOwnItems (db.sentIndex [(item, .checked id)]) [item] ++
      [.commit (.clearLocations [id])])

/-- The effects of dispatching an item of another player: queue, send, clear. -/
def foreignTrace (env : Env) (id ownerID : Int) (name : GoString) : Trace :=
  [.commit (.addUnconfirmedItems [sendRow env id ownerID name]),
    .io (.toMW (.dataSend (sendMessage ownerID name))), .commit (.clearLocations [id])]

@[simp] theorem commits_ownTrace (sess : Session) (db : Savefile) (id : Int) (item : NetworkItem) :
    commits (sess.ownTrace db id item) =
      [.addSentItems [sentRow item (.checked id)], .clearLocations [id]] := by
  simp [Session.ownTrace]

@[simp] theorem commits_foreignTrace (env : Env) (id ownerID : Int) (name : GoString) :
    commits (foreignTrace env id ownerID name) =
      [.addUnconfirmedItems [sendRow env id ownerID name], .clearLocations [id]] := rfl

/-- The location checks of a list. A location that is cleared, or that nothing
is dispatched for, is passed over; a send that is refused ends the list. -/
inductive Checks (cfg : Config) (env : Env) (sess : Session) :
    Savefile → List Int → Except Stop Unit → Trace → Prop
  | nil {db} : Checks cfg env sess db [] (.ok ()) []
  | skip {db id ids r t}
      (h : id ∈ db.locationsCleared.rows ∨ sess.dispatch cfg db.toSetupTables id = .skip)
      (rest : Checks cfg env sess db ids r t) : Checks cfg env sess db (id :: ids) r t
  | own {db id ids r t item cleared} (hnew : id ∉ db.locationsCleared.rows)
      (hd : sess.dispatch cfg db.toSetupTables id = .own item)
      (hcl : cleared.rows = db.locationsCleared.rows ++ [id])
      (rest : Checks cfg env sess
        { db.append [sentRow item (.checked id)] with locationsCleared := cleared } ids r t) :
      Checks cfg env sess db (id :: ids) r (sess.ownTrace db id item ++ t)
  | foreign {db id ids r t ownerID name sends cleared}
      (hnew : id ∉ db.locationsCleared.rows)
      (hd : sess.dispatch cfg db.toSetupTables id = .foreign ownerID name)
      (hnull : ¬ env.BindsNull name)
      (hrow : itemRow ownerID name ∉ db.unconfirmedSentItems.rows)
      (hsends : sends.rows = db.unconfirmedSentItems.rows ++ [itemRow ownerID name])
      (hcl : cleared.rows = db.locationsCleared.rows ++ [id])
      (rest : Checks cfg env sess
        { db with unconfirmedSentItems := sends, locationsCleared := cleared } ids r t) :
      Checks cfg env sess db (id :: ids) r (foreignTrace env id ownerID name ++ t)
  | stop {db id ids ownerID name e} (hnew : id ∉ db.locationsCleared.rows)
      (hd : sess.dispatch cfg db.toSetupTables id = .foreign ownerID name)
      (he : env.BindsNull name ∧ e = .sql .notNull ∨ ¬ env.BindsNull name ∧
        itemRow ownerID name ∈ db.unconfirmedSentItems.rows ∧ e = .sql .unique) :
      Checks cfg env sess db (id :: ids) (.error e) []

section Checks

variable {cfg : Config} {env : Env} {sess : Session} {db : Savefile}

theorem isLocationCleared_iff {id : Int} :
    db.isLocationCleared id = true ↔ id ∈ db.locationsCleared.rows := by
  simp [Savefile.isLocationCleared]

theorem isLocationCleared_eq_false {id : Int} :
    db.isLocationCleared id = false ↔ id ∉ db.locationsCleared.rows := by
  simp [Savefile.isLocationCleared]

theorem run_checkLocation_skip {id : Int}
    (h : id ∈ db.locationsCleared.rows ∨ sess.dispatch cfg db.toSetupTables id = .skip) :
    (checkLocation cfg env sess id).run db = ⟨.ok (), []⟩ := by
  rw [checkLocation, Proc.run_read_bind]
  by_cases hcl : db.isLocationCleared id = true
  · rw [if_pos hcl, Proc.run_pure]
  · have hd : sess.dispatch cfg db.toSetupTables id = .skip :=
      h.resolve_left fun hmem => hcl (isLocationCleared_iff.mpr hmem)
    rw [if_neg hcl, Proc.run_read_bind]
    simp only [Session.dispatch] at hd
    -- only an unplaced location can be passed over
    cases hp : db.getPlacedItem id with
    | some p => rw [hp] at hd; simp only at hd; split at hd <;> cases hd
    | none =>
      rw [hp] at hd
      simp only at hd ⊢
      split
      · next hf =>
        rw [if_pos hf] at hd
        cases hi : sess.localItem cfg id with
        | none => rfl
        | some item => rw [hi] at hd; cases hd
      · rfl

theorem exists_apply_clearLocation {id : Int} (hnew : id ∉ db.locationsCleared.rows) :
    ∃ cleared, cleared.rows = db.locationsCleared.rows ++ [id] ∧
      ∀ db₁ : Savefile, db₁.locationsCleared = db.locationsCleared →
        Store.apply db₁ (.clearLocations [id]) = .ok { db₁ with locationsCleared := cleared } := by
  cases hins : db.locationsCleared.insert id with
  | none =>
    obtain ⟨r, hr, hk⟩ := Table.insert_eq_none.mp hins
    have hr' : r = id := hk
    exact absurd (hr' ▸ hr) hnew
  | some cleared =>
    refine ⟨cleared, (Table.insert_eq_some.mp hins).2, ?_⟩
    intro db₁ hdb₁
    simp only [Store.apply, Savefile.apply, hdb₁, Table.insertEach, hins]

/-- An own item is appended, then its location is cleared. -/
theorem run_checkLocation_own (env : Env) {id : Int} {item : NetworkItem}
    (hnew : id ∉ db.locationsCleared.rows)
    (hd : sess.dispatch cfg db.toSetupTables id = .own item) :
    ∃ cleared, cleared.rows = db.locationsCleared.rows ++ [id] ∧
      (checkLocation cfg env sess id).run db = ⟨.ok (), sess.ownTrace db id item⟩ ∧
      replay db (sess.ownTrace db id item) =
        { db.append [sentRow item (.checked id)] with locationsCleared := cleared } := by
  have hcl : ¬ db.isLocationCleared id = true := fun h => hnew (isLocationCleared_iff.mp h)
  have hrun : (checkLocation cfg env sess id).run db =
      ((do dispatchOwn sess item id; clearLocations [id]) : Handler Unit).run db := by
    rw [checkLocation, Proc.run_read_bind, if_neg hcl, Proc.run_read_bind]
    simp only [Session.dispatch] at hd
    cases hp : db.getPlacedItem id with
    | some p =>
      rw [hp] at hd
      simp only at hd ⊢
      split at hd
      · next ho =>
        cases hd
        rw [if_pos ho]
      · cases hd
    | none =>
      rw [hp] at hd
      simp only at hd ⊢
      split at hd
      · next hf =>
        rw [if_pos hf]
        cases hi : sess.localItem cfg id with
        | none => rw [hi] at hd; cases hd
        | some item' => rw [hi] at hd; cases hd; rfl
      · cases hd
  obtain ⟨cleared, hrows, happly⟩ := exists_apply_clearLocation hnew
  have hclear := happly (db.append [sentRow item (.checked id)]) rfl
  refine ⟨cleared, hrows, ?_, ?_⟩
  · rw [hrun, Proc.run_bind_of_ok (run_dispatchOwn sess item id db),
      replay_commit (apply_addSentItems _ _), replay_notice, clearLocations,
      Proc.run_commit_ok hclear]
    rfl
  · rw [Session.ownTrace, replay_commit (apply_addSentItems _ _), replay_append, replay_notice,
      replay_commit hclear, replay_nil]

theorem dispatch_foreign {id ownerID : Int} {name : GoString} {setup : SetupTables} :
    sess.dispatch cfg setup id = .foreign ownerID name ↔
      setup.getPlacedItem id = some (ownerID, name) ∧ ownerID ≠ sess.playerID := by
  simp only [Session.dispatch]
  cases hp : setup.getPlacedItem id with
  | some p =>
    obtain ⟨owner, name'⟩ := p
    simp only [Option.some.injEq, Prod.mk.injEq]
    by_cases ho : owner = sess.playerID
    · rw [if_pos ho]
      constructor
      · intro h
        cases h
      · rintro ⟨⟨rfl, rfl⟩, h⟩
        exact absurd ho h
    · rw [if_neg ho, Dispatch.foreign.injEq]
      constructor
      · rintro ⟨rfl, rfl⟩
        exact ⟨⟨rfl, rfl⟩, ho⟩
      · rintro ⟨h, -⟩
        exact h
  | none =>
    simp only [reduceCtorEq, false_and, iff_false]
    split
    · split <;> simp
    · simp

/-- An item of another player is queued and sent, then its location is cleared. -/
theorem run_checkLocation_foreign {id ownerID : Int} {name : GoString}
    (hnew : id ∉ db.locationsCleared.rows)
    (hd : sess.dispatch cfg db.toSetupTables id = .foreign ownerID name) :
    (checkLocation cfg env sess id).run db =
      ((do
        Proc.commit (.addUnconfirmedItems [sendRow env id ownerID name])
        Proc.emit (.toMW (.dataSend (sendMessage ownerID name)))
        clearLocations [id]) : Handler Unit).run db := by
  have hcl : ¬ db.isLocationCleared id = true := fun h => hnew (isLocationCleared_iff.mp h)
  obtain ⟨hp, ho⟩ := dispatch_foreign.mp hd
  have hrow : (⟨id, env.bindString labelMultiworldItem, env.bindString name,
      (Int32.ofInt ownerID).toInt⟩ : SendRow) = sendRow env id ownerID name := by
    rw [env.bindString_label, toInt_ofInt_of_fits (getPlacedItem_fits hp), sendRow]
  rw [checkLocation, Proc.run_read_bind, if_neg hcl, Proc.run_read_bind, hp]
  simp only [if_neg ho, dispatchForeign, addUnconfirmedItems, List.map_cons, List.map_nil,
    sendMessage, hrow, bind_assoc]

theorem run_checkLocation_sent {id ownerID : Int} {name : GoString}
    (hnew : id ∉ db.locationsCleared.rows)
    (hd : sess.dispatch cfg db.toSetupTables id = .foreign ownerID name)
    (hnull : ¬ env.BindsNull name) (hrow : itemRow ownerID name ∉ db.unconfirmedSentItems.rows) :
    ∃ sends cleared, sends.rows = db.unconfirmedSentItems.rows ++ [itemRow ownerID name] ∧
      cleared.rows = db.locationsCleared.rows ++ [id] ∧
      (checkLocation cfg env sess id).run db = ⟨.ok (), foreignTrace env id ownerID name⟩ ∧
      replay db (foreignTrace env id ownerID name) =
        { db with unconfirmedSentItems := sends, locationsCleared := cleared } := by
  obtain ⟨sends, hsends, hsend⟩ := apply_send_new id hnull hrow
  obtain ⟨cleared, hrows, happly⟩ := exists_apply_clearLocation hnew
  have hclear := happly { db with unconfirmedSentItems := sends } rfl
  refine ⟨sends, cleared, hsends, hrows, ?_, ?_⟩
  · rw [run_checkLocation_foreign hnew hd, Proc.run_commit_bind_ok hsend, Proc.run_emit_bind,
      clearLocations, Proc.run_commit_ok hclear]
    rfl
  · rw [foreignTrace, replay_commit hsend, replay_io, replay_commit hclear, replay_nil]

theorem run_checkLocation_refused {id ownerID : Int} {name : GoString} {e : Stop}
    (hnew : id ∉ db.locationsCleared.rows)
    (hd : sess.dispatch cfg db.toSetupTables id = .foreign ownerID name)
    (hsend : Store.apply db (.addUnconfirmedItems [sendRow env id ownerID name]) = .error e) :
    (checkLocation cfg env sess id).run db = ⟨.error e, []⟩ := by
  rw [run_checkLocation_foreign hnew hd, Proc.run_commit_bind_error hsend]

/-- The savefile after an own item is dispatched. -/
theorem replay_ownTrace {locID : Int} {item : NetworkItem} {cleared : Table Int id}
    (hnew : locID ∉ db.locationsCleared.rows)
    (hcl : cleared.rows = db.locationsCleared.rows ++ [locID]) :
    replay db (sess.ownTrace db locID item) =
      { db.append [sentRow item (.checked locID)] with locationsCleared := cleared } := by
  obtain ⟨cleared', hrows, happly⟩ := exists_apply_clearLocation hnew
  have heq : cleared' = cleared := Table.ext (hrows.trans hcl.symm)
  rw [replay_eq_perform, commits_ownTrace, perform_cons, write_of_ok (apply_addSentItems _ _),
    perform_cons, write_of_ok (happly (db.append [sentRow item (.checked locID)]) rfl), perform_nil,
    heq]

/-- The savefile after an item of another player is dispatched. -/
theorem replay_foreignTrace {locID ownerID : Int} {name : GoString}
    {sends : Table UnconfirmedRow id} {cleared : Table Int id}
    (hnew : locID ∉ db.locationsCleared.rows) (hnull : ¬ env.BindsNull name)
    (hrow : itemRow ownerID name ∉ db.unconfirmedSentItems.rows)
    (hsends : sends.rows = db.unconfirmedSentItems.rows ++ [itemRow ownerID name])
    (hcl : cleared.rows = db.locationsCleared.rows ++ [locID]) :
    replay db (foreignTrace env locID ownerID name) =
      { db with unconfirmedSentItems := sends, locationsCleared := cleared } := by
  obtain ⟨sends', hsends', hsend⟩ := apply_send_new locID hnull hrow
  obtain ⟨cleared', hrows, happly⟩ := exists_apply_clearLocation hnew
  have heq : cleared' = cleared := Table.ext (hrows.trans hcl.symm)
  have hseq : sends' = sends := Table.ext (hsends'.trans hsends.symm)
  rw [replay_eq_perform, commits_foreignTrace, perform_cons, write_of_ok hsend, perform_cons,
    write_of_ok (happly { db with unconfirmedSentItems := sends' } rfl), perform_nil, heq, hseq]

/-- The location checks of a list do what `Checks` says. -/
theorem checks_run (ids : List Int) (db : Savefile) :
    Checks cfg env sess db ids ((handleLocationChecks cfg env sess ids).run db).result
      ((handleLocationChecks cfg env sess ids).run db).trace := by
  induction ids generalizing db with
  | nil => exact .nil
  | cons id ids ih =>
    have hcons : handleLocationChecks cfg env sess (id :: ids) =
      checkLocation cfg env sess id >>= fun _ => handleLocationChecks cfg env sess ids := rfl
    rw [hcons]
    by_cases hcl : id ∈ db.locationsCleared.rows
    · rw [Proc.run_bind_of_ok (run_checkLocation_skip (.inl hcl))]
      exact .skip (.inl hcl) (ih db)
    · cases hd : sess.dispatch cfg db.toSetupTables id with
      | skip =>
        rw [Proc.run_bind_of_ok (run_checkLocation_skip (.inr hd))]
        exact .skip (.inr hd) (ih db)
      | own item =>
        obtain ⟨cleared, hrows, hrun, hdb⟩ := run_checkLocation_own env hcl hd
        rw [Proc.run_bind_of_ok hrun, hdb]
        exact .own hcl hd hrows (ih _)
      | foreign ownerID name =>
        by_cases hnull : env.BindsNull name
        · rw [Proc.run_bind_of_error (run_checkLocation_refused hcl hd (apply_send_null id hnull))]
          exact .stop hcl hd (.inl ⟨hnull, rfl⟩)
        · by_cases hrow : itemRow ownerID name ∈ db.unconfirmedSentItems.rows
          · rw [Proc.run_bind_of_error
              (run_checkLocation_refused hcl hd (apply_send_taken id hnull hrow))]
            exact .stop hcl hd (.inr ⟨hnull, hrow, rfl⟩)
          · obtain ⟨sends, cleared, hsends, hrows, hrun, hdb⟩ :=
              run_checkLocation_sent hcl hd hnull hrow
            rw [Proc.run_bind_of_ok hrun, hdb]
            exact .foreign hcl hd hnull hrow hsends hrows (ih _)

end Checks

end Isthmus
