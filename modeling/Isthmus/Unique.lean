import Isthmus.Run

/-!
# The queue and the cleared locations

The rows of the queue have no location of their own. While no process is killed,
each of them is the item of a location that is cleared; where an owner's items
have distinct names it is the item of no other location, and so no insert into
the queue meets a row that is there.
-/

namespace Isthmus

open Process Mwproto Approto

/-- The items of each owner have distinct names. -/
def SetupTables.NamesDistinct (setup : SetupTables) : Prop :=
  ∀ r ∈ setup.ownWorldPlacements.rows, ∀ r' ∈ setup.ownWorldPlacements.rows,
    r.destPlayerID = r'.destPlayerID → r.itemName = r'.itemName →
      r.apLocationID = r'.apLocationID

instance (setup : SetupTables) : Decidable setup.NamesDistinct :=
  inferInstanceAs (Decidable (∀ r ∈ setup.ownWorldPlacements.rows,
    ∀ r' ∈ setup.ownWorldPlacements.rows, r.destPlayerID = r'.destPlayerID →
      r.itemName = r'.itemName → r.apLocationID = r'.apLocationID))

/-- With distinct names an item has one location. -/
theorem getPlacedItem_inj {setup : SetupTables} (hvalid : setup.Valid)
    (hnames : setup.NamesDistinct) {loc loc' : Int} {p : Int × GoString}
    (h : setup.getPlacedItem loc = some p) (h' : setup.getPlacedItem loc' = some p) :
    loc = loc' := by
  obtain ⟨row, hrow, hp⟩ := Option.map_eq_some_iff.mp h
  obtain ⟨row', hrow', hp'⟩ := Option.map_eq_some_iff.mp h'
  obtain ⟨hmem, rfl⟩ := Table.find_eq_some.mp hrow
  obtain ⟨hmem', rfl⟩ := Table.find_eq_some.mp hrow'
  have heq := hp.trans hp'.symm
  rw [toInt32_of_fits (hvalid.ownWorld row hmem).1,
    toInt32_of_fits (hvalid.ownWorld row' hmem').1, Prod.mk.injEq] at heq
  exact hnames row hmem row' hmem' heq.1 heq.2

/-- Every row of the queue is the item of a cleared location. -/
def Savefile.QueueCleared (db : Savefile) : Prop :=
  ∀ u ∈ db.unconfirmedSentItems.rows, ∃ loc ∈ db.locationsCleared.rows, ∃ owner name,
    db.getPlacedItem loc = some (owner, name) ∧ u = itemRow owner name

section Unique

variable {cfg : Config} {env : Env} {sess : Session} {db : Savefile}

/-- The item of a location that is not cleared is not in the queue, if no other
location has it. -/
theorem Savefile.QueueCleared.free (h : db.QueueCleared) {loc owner : Int} {name : GoString}
    (honly : ∀ loc', db.getPlacedItem loc' = some (owner, name) → loc' = loc)
    (hnew : loc ∉ db.locationsCleared.rows) :
    itemRow owner name ∉ db.unconfirmedSentItems.rows := by
  intro hrow
  obtain ⟨loc', hcleared, owner', name', hplaced, heq⟩ := h _ hrow
  simp only [itemRow, UnconfirmedRow.mk.injEq, true_and] at heq
  obtain ⟨rfl, rfl⟩ := heq
  exact hnew (honly loc' hplaced ▸ hcleared)

/-- A write that queues nothing keeps the rows and the locations together. -/
theorem Savefile.QueueCleared.write {c : Commit} (h : db.QueueCleared)
    (hc : ∀ rows, c ≠ .addUnconfirmedItems rows) : (Process.write db c).QueueCleared := by
  rcases write_cases db c with hok | hrefused
  · intro u hu
    have hsetup := apply_toSetupTables hok
    -- nothing is queued, and nothing becomes uncleared
    have hun : u ∈ db.unconfirmedSentItems.rows := by
      cases c with
      | addUnconfirmedItems rows => exact absurd rfl (hc rows)
      | confirmItem label content toPlayer =>
        rw [write_of_ok (apply_confirmItem _ _ _)] at hu
        exact (Table.mem_delete.mp hu).1
      | clearLocations ids | addSentItems rows | addReceivedItem label content
      | setStoredData key val =>
        rwa [(apply_frame hok).2.2.1 (by simp [Commit.target])] at hu
    have hcl := apply_locationsCleared_subset hok
    obtain ⟨loc, hloc, owner, name, hplaced, hrow⟩ := h u hun
    exact ⟨loc, hcl hloc, owner, name, by rw [hsetup, hplaced], hrow⟩
  · rw [hrefused]
    exact h

theorem queueCleared_perform {cs : List Commit}
    (hc : ∀ c ∈ cs, ∀ rows, c ≠ .addUnconfirmedItems rows) (h : db.QueueCleared) :
    (perform db cs).QueueCleared := by
  induction cs generalizing db with
  | nil => exact h
  | cons c cs ih =>
    have hwrite := h.write (hc c List.mem_cons_self)
    exact ih (fun c hc' => hc c (List.mem_cons_of_mem _ hc')) hwrite

theorem queueCleared_own {loc : Int} {item : NetworkItem} {cleared : Table Int id}
    (hcl : cleared.rows = db.locationsCleared.rows ++ [loc]) (hq : db.QueueCleared) :
    Savefile.QueueCleared
      { db.append [sentRow item (.checked loc)] with locationsCleared := cleared } := by
  intro u hu
  obtain ⟨loc', hloc, hrow⟩ := hq u hu
  have hloc' : loc' ∈ cleared.rows := by
    rw [hcl]
    exact List.mem_append_left _ hloc
  exact ⟨loc', hloc', hrow⟩

theorem queueCleared_foreign {loc owner : Int} {name : GoString}
    {sends : Table UnconfirmedRow id} {cleared : Table Int id}
    (hplaced : db.getPlacedItem loc = some (owner, name))
    (hsends : sends.rows = db.unconfirmedSentItems.rows ++ [itemRow owner name])
    (hcl : cleared.rows = db.locationsCleared.rows ++ [loc]) (hq : db.QueueCleared) :
    Savefile.QueueCleared
      { db with unconfirmedSentItems := sends, locationsCleared := cleared } := by
  intro u hu
  have hu' : u ∈ db.unconfirmedSentItems.rows ++ [itemRow owner name] := hsends ▸ hu
  change ∃ loc ∈ cleared.rows, _
  rw [hcl]
  rcases List.mem_append.mp hu' with hold | hnew
  · obtain ⟨loc', hloc, hrow⟩ := hq u hold
    exact ⟨loc', List.mem_append_left _ hloc, hrow⟩
  · exact ⟨loc, by simp, owner, name, hplaced, List.mem_singleton.mp hnew⟩

/-- Location checks queue the items of locations that they clear. -/
theorem Checks.queueCleared {ids : List Int} {r : Except Stop Unit} {t : Trace}
    (h : Checks cfg env sess db ids r t) (hq : db.QueueCleared) : (replay db t).QueueCleared := by
  induction h with
  | nil => exact hq
  | skip _ _ ih => exact ih hq
  | own hnew _ hcl _ ih =>
    rw [replay_append, replay_ownTrace hnew hcl]
    exact ih (queueCleared_own hcl hq)
  | foreign hnew hd hnull hrow hsends hcl _ ih =>
    rw [replay_append, replay_foreignTrace hnew hnull hrow hsends hcl]
    exact ih (queueCleared_foreign (dispatch_foreign.mp hd).1 hsends hcl hq)
  | stop => exact hq

/-- Location checks never queue an item twice. -/
theorem Checks.unique {ids : List Int} {r : Except Stop Unit} {t : Trace}
    (h : Checks cfg env sess db ids r t) (hvalid : db.toSetupTables.Valid)
    (hnames : db.toSetupTables.NamesDistinct) (hq : db.QueueCleared) :
    r ≠ .error (.sql .unique) := by
  induction h with
  | nil => simp
  | skip _ _ ih => exact ih hvalid hnames hq
  | own _ _ hcl _ ih => exact ih hvalid hnames (queueCleared_own hcl hq)
  | foreign _ hd _ _ hsends hcl _ ih =>
    exact ih hvalid hnames (queueCleared_foreign (dispatch_foreign.mp hd).1 hsends hcl hq)
  | stop hnew hd he =>
    rcases he with ⟨-, rfl⟩ | ⟨-, hrow, -⟩
    · decide
    · have hplaced := (dispatch_foreign.mp hd).1
      exact absurd hrow (hq.free (fun _ h' => getPlacedItem_inj hvalid hnames h' hplaced) hnew)

/-- The rows of a release are new and distinct. -/
theorem nodup_release (hvalid : db.toSetupTables.Valid) (hnames : db.toSetupTables.NamesDistinct)
    (hq : db.QueueCleared) (playerID : Int) :
    (db.unconfirmedSentItems.rows ++
      (db.releasable playerID).map fun p => itemRow p.ownerID p.name).Nodup := by
  refine List.nodup_append.mpr ⟨by simpa using db.unconfirmedSentItems.nodup, ?_, ?_⟩
  · have hps : (db.releasable playerID).Nodup := (nodup_releasable db playerID).of_map
    refine hps.map_on fun p hp p' hp' heq => ?_
    simp only [itemRow, UnconfirmedRow.mk.injEq, true_and] at heq
    have hplaced := (mem_releasable.mp hp).1
    have hplaced' := (mem_releasable.mp hp').1
    rw [heq.1, heq.2] at hplaced
    have hloc := getPlacedItem_inj hvalid hnames hplaced hplaced'
    obtain ⟨loc, owner, name⟩ := p
    obtain ⟨loc', owner', name'⟩ := p'
    simp only at heq hloc
    rw [hloc, heq.1, heq.2]
  · rintro u hu u' hu' rfl
    obtain ⟨p, hp, rfl⟩ := List.mem_map.mp hu'
    obtain ⟨hplaced, -, hnew⟩ := mem_releasable.mp hp
    exact hq.free (fun _ h' => getPlacedItem_inj hvalid hnames h' hplaced) hnew hu

/-- A release never meets a row that is queued. -/
theorem apply_releaseRows_ne_unique (hvalid : db.toSetupTables.Valid)
    (hnames : db.toSetupTables.NamesDistinct) (hq : db.QueueCleared) (playerID : Int) :
    Store.apply db (.addUnconfirmedItems (db.releaseRows env playerID)) ≠
      .error (.sql .unique) := by
  have hnd := nodup_release hvalid hnames hq playerID
  have hcheck : ∀ b ∈ db.releaseRows env playerID, b.check ≠ .error (.sql .unique) := by
    intro b _ herr
    cases SendRow.check_eq_error herr
  have hrows : List.Forall₂ (fun (b : SendRow) u => ∀ u', b.check = .ok u' → u' = u)
      (db.releaseRows env playerID)
      ((db.releasable playerID).map fun p => itemRow p.ownerID p.name) := by
    rw [Savefile.releaseRows, List.forall₂_map_left_iff, List.forall₂_map_right_iff]
    refine List.forall₂_same.mpr fun p _ u' hu' => ?_
    rw [SendRow.check_sendRow] at hu'
    split at hu'
    · cases hu'
    · exact (Except.ok.inj hu').symm
  have hne := Table.insertEach_ne_dup (t := db.unconfirmedSentItems) hcheck hrows (by simpa using hnd)
  intro happly
  simp only [Store.apply, Savefile.apply] at happly
  split at happly
  · cases happly
  · next e he =>
    cases happly
    exact hne he

/-- An accepted release queues the items of the locations that it clears. -/
theorem queueCleared_release {db₁ : Savefile} {cleared : Table Int id} {playerID : Int}
    (h : Store.apply db (.addUnconfirmedItems (db.releaseRows env playerID)) = .ok db₁)
    (hcl : cleared.rows = db.locationsCleared.rows ++
      (db.releasable playerID).map OwnWorldPlacement.apLocationID) (hq : db.QueueCleared) :
    Savefile.QueueCleared { db₁ with locationsCleared := cleared } := by
  obtain ⟨t, ht, -, rfl⟩ := apply_addUnconfirmedItems_ok h
  intro u hu
  change ∃ loc ∈ cleared.rows, _
  rw [hcl]
  rcases (ht u).mp hu with hold | ⟨b, hb, hbu⟩
  · obtain ⟨loc, hloc, hrow⟩ := hq u hold
    exact ⟨loc, List.mem_append_left _ hloc, hrow⟩
  · obtain ⟨p, hp, rfl⟩ := List.mem_map.mp hb
    rw [SendRow.check_sendRow] at hbu
    split at hbu
    · cases hbu
    · cases hbu
      exact ⟨p.apLocationID, List.mem_append_right _ (List.mem_map_of_mem hp), p.ownerID, p.name,
        (mem_releasable.mp hp).1, rfl⟩

/-- Every step that is handled to its end queues the items of locations it clears. -/
theorem Handled.queueCleared {m : Incoming} {r : Except Stop Session} {t : Trace}
    (h : Handled cfg env sess db m r t) (hq : db.QueueCleared) : (replay db t).QueueCleared := by
  have hother : (∀ c ∈ commits t, ∀ rows, c ≠ .addUnconfirmedItems rows) →
      (replay db t).QueueCleared := by
    intro hc
    rw [replay_eq_perform]
    exact queueCleared_perform hc hq
  cases h with
  | quiet _ hquiet hr => exact hother (by simp [hquiet.commits])
  | stored hquiet => exact hother (by simp [hquiet.commits])
  | delivered _ _ _ _ => exact hother (by simp)
  | unrecorded _ _ _ => exact hother (by simp)
  | confirmed => exact hother (by simp)
  | collected _ => exact hother (by simp)
  | released _ _ _ =>
    refine hother fun c hc rows hrows => ?_
    rw [hrows] at hc
    rcases target_of_mem_batch hc with htarget | htarget <;> cases htarget
  | unreleased _ =>
    refine hother fun c hc rows hrows => ?_
    rw [commits_recordTrace] at hc
    have htarget := target_of_mem_recordCommits hc
    rw [hrows] at htarget
    cases htarget
  | unsent _ => exact hq
  | sent happly hcl hdb =>
    rw [hdb]
    exact queueCleared_release happly hcl hq
  | checked hc => exact hc.queueCleared hq

/-- No step that is handled to its end is refused a row for its key. -/
theorem Handled.unique {m : Incoming} {r : Except Stop Session} {t : Trace}
    (h : Handled cfg env sess db m r t) (hvalid : db.toSetupTables.Valid)
    (hnames : db.toSetupTables.NamesDistinct) (hq : db.QueueCleared) :
    r ≠ .error (.sql .unique) := by
  cases h with
  | quiet _ _ hr => exact hr
  | stored _ | delivered _ _ _ _ | unrecorded _ _ _ | confirmed | collected _ | released _ _ _
  | unreleased _ | sent _ _ _ => simp
  | unsent happly =>
    rintro ⟨⟩
    exact apply_releaseRows_ne_unique hvalid hnames hq _ happly
  | @checked ids r t hc =>
    have hr := hc.unique hvalid hnames hq
    cases r with
    | error e =>
      rintro ⟨⟩
      exact hr rfl
    | ok u => simp [Except.map]

/-- An event that does not kill the process keeps the queue's locations cleared. -/
theorem queueCleared_step {s : System} (ho : s.Opened cfg) (hq : s.db.QueueCleared) {e : Event}
    (hsurv : e.Survives) : (step cfg s e).db.QueueCleared := by
  generalize hs' : step cfg s e = s'
  have hstep : Stepped cfg s e s' := hs' ▸ stepped ho e
  cases hstep with
  | stayed _ hdb _ _ =>
    rw [hdb]
    exact hq
  | handled _ h => exact h.queueCleared hq
  | killed _ _ => exact absurd hsurv id

theorem queueCleared_play {es : List Event} (hfresh : db.Fresh)
    (hsurv : ∀ e ∈ es, e.Survives) : (play cfg db es).db.QueueCleared := by
  have hboot : (boot db).db.QueueCleared := by
    intro u hu
    have hu' : u ∈ db.unconfirmedSentItems.rows := hu
    rw [hfresh.unconfirmed] at hu'
    cases hu'
  have hstep : ∀ s e, s.Opened cfg ∧ s.db.QueueCleared → e.Survives →
      (step cfg s e).Opened cfg ∧ (step cfg s e).db.QueueCleared := by
    rintro s e ⟨ho, hq⟩ he
    exact ⟨opened_step ho e, queueCleared_step ho hq he⟩
  exact ((Runs.meets_iff_forall.mpr hsurv).keep hstep ⟨opened_boot cfg db, hboot⟩).2

/-- Where each owner's items have distinct names, no message is ever refused an
insert for its primary key in a state that is reached without a kill. -/
theorem no_key_is_taken {env : Env} {result : ResultMessage} {precollectedItems : List Int}
    {db : Savefile} (h : createSavefile env result precollectedItems = .ok db)
    (hnames : db.toSetupTables.NamesDistinct) {cfg : Config} {es : List Event}
    (hsurv : ∀ e ∈ es, e.Survives) {sess : Session} (hs : (play cfg db es).session = some sess)
    (env' : Env) (m : Incoming) :
    ((handle cfg env' sess m).run (play cfg db es).db).result ≠ .error (.sql .unique) := by
  have hfresh := createSavefile_fresh h
  have hq : (play cfg db es).db.QueueCleared := queueCleared_play hfresh hsurv
  have hsetup := play_toSetupTables cfg db es
  rw [← hsetup] at hnames
  obtain ⟨-, -, hlen, hc⟩ := Config.openRoom_ok (opened_play cfg db es sess hs)
  obtain ⟨r, t, hrun, hh⟩ := handle_handled cfg env' (play cfg db es).db hc hlen m
  rw [hrun]
  exact hh.unique (hsetup ▸ hfresh.valid) hnames hq

end Unique

/-- A release after a check of one of its locations. -/
theorem no_key_is_taken_sample : ∃ db,
    createSavefile (Env.inOrder false) sampleResult [] = .ok db ∧ ∃ sess,
      (play sampleConfig db [.connect, .handle (Env.inOrder false)
        (.fromAP (.locationChecks [7]))]).session = some sess ∧
      ((handle sampleConfig (Env.inOrder false) sess (.fromAP (.say (lit "!release")))).run
        (play sampleConfig db [.connect, .handle (Env.inOrder false)
          (.fromAP (.locationChecks [7]))]).db).result ≠ .error (.sql .unique) := by
  obtain ⟨db, h, hnames, hopen⟩ := exists_created
    (x := createSavefile (Env.inOrder false) sampleResult [])
    (P := fun db => db.toSetupTables.NamesDistinct ∧
      (play sampleConfig db [.connect, .handle (Env.inOrder false)
        (.fromAP (.locationChecks [7]))]).session.isSome = true)
    (by decide +kernel)
  obtain ⟨sess, hs⟩ := Option.isSome_iff_exists.mp hopen
  refine ⟨db, h, sess, hs, no_key_is_taken h hnames ?_ hs _ _⟩
  intro e he
  rcases List.mem_cons.mp he with rfl | he
  · trivial
  · rw [List.mem_singleton.mp he]
    trivial

end Isthmus
