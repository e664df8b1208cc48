import Isthmus.Run

/-!
# Items sent to other players

An item of another player is queued for the MW server before its location is
cleared, and leaves the queue only when the server confirms it. So the item of a
cleared location is in the queue, where a rejoin resends it, or was confirmed.

## Main definitions

- `Confirmed`: an item was queued, and then confirmed
- `Allowed`: what every write of the loop but a confirmation keeps to
-/

namespace Isthmus

open Process Mwproto Approto

/-- The item was queued at some time. -/
def Queued (history : Trace) (u : UnconfirmedRow) : Prop :=
  ∃ pre rows post, history = pre ++ .commit (.addUnconfirmedItems rows) :: post ∧ Queues rows u

/-- After it was queued, a confirmation with exactly its label, content and
destination was handled. -/
def Confirmed (history : Trace) (u : UnconfirmedRow) : Prop :=
  ∃ pre m post, history =
      pre ++ .io (.recv (.fromMW (.dataSendConfirm m))) ::
        .commit (.confirmItem (some u.label) (some u.content) u.destPlayerID) :: post ∧
    Queued pre u ∧ m.label = u.label ∧ m.content = u.content ∧ m.toPlayer.toInt = u.destPlayerID

/-- Locations of other players' items are cleared once their items are queued,
for owners that fit the protocol; nothing is taken from the queue. -/
def Allowed (selfID : Int) (db : Savefile) : Commit → Prop
  | .clearLocations ids => ∀ id ∈ ids, ∀ owner name, db.getPlacedItem id = some (owner, name) →
      owner ≠ selfID → itemRow owner name ∈ db.unconfirmedSentItems.rows
  | .addUnconfirmedItems rows => ∀ r ∈ rows, FitsInt32 r.toPlayer
  | .confirmItem _ _ _ => False
  | _ => True

section Traces

variable {cfg : Config} {env : Env} {sess : Session} {db : Savefile}

theorem Allowed.other {c : Commit} (hcl : c.target ≠ .cleared) (hun : c.target ≠ .unconfirmed)
    (selfID : Int) (db : Savefile) : Allowed selfID db c := by
  cases c with
  | clearLocations ids => exact absurd rfl hcl
  | addUnconfirmedItems rows => exact absurd rfl hun
  | confirmItem label content toPlayer => exact absurd rfl hun
  | addSentItems rows | addReceivedItem label content | setStoredData key val => trivial

/-- A location check queues the item of another player before it clears. -/
theorem Checks.allowed {ids : List Int} {r : Except Stop Unit} {t : Trace}
    (h : Checks cfg env sess db ids r t) : Steps (Allowed sess.playerID) db t := by
  induction h with
  | nil => trivial
  | skip _ _ ih => exact ih
  | @own db id ids r t item cleared hnew hd hcl _ ih =>
    rw [steps_append, replay_ownTrace hnew hcl]
    refine ⟨?_, ih⟩
    -- the location holds no item of another player
    have hclear : ∀ db' : Savefile, db'.toSetupTables = db.toSetupTables →
        Allowed sess.playerID db' (.clearLocations [id]) := by
      intro db' hdb' id' hid' owner name hplaced howner
      rw [List.mem_singleton.mp hid', hdb'] at hplaced
      rw [dispatch_foreign.mpr ⟨hplaced, howner⟩] at hd
      cases hd
    rw [Session.ownTrace, steps_commit, steps_append, replay_notice]
    refine ⟨trivial, steps_of_forall (by simp), ?_, trivial⟩
    exact hclear _ rfl
  | @foreign db id ids r t owner name sends cleared hnew hd hnull hrow hsends hcl _ ih =>
    rw [steps_append, replay_foreignTrace hnew hnull hrow hsends hcl]
    refine ⟨⟨?_, ?_, trivial⟩, ih⟩
    · intro r hr
      rw [List.mem_singleton.mp hr]
      exact getPlacedItem_fits (dispatch_foreign.mp hd).1
    · intro id' hid' owner' name' hplaced _
      obtain ⟨sends', hsends', hsend⟩ := apply_send_new id hnull hrow
      rw [write_of_ok hsend, List.mem_singleton.mp hid'] at hplaced
      have hp := (dispatch_foreign.mp hd).1
      rw [hp] at hplaced
      cases hplaced
      rw [write_of_ok hsend]
      change _ ∈ sends'.rows
      rw [hsends']
      exact List.mem_append_right _ (List.mem_singleton_self _)
  | stop _ _ _ => trivial

/-- The rows of an accepted release are queued. -/
theorem queued_releaseRows {db₁ : Savefile} {playerID : Int}
    (h : Store.apply db (.addUnconfirmedItems (db.releaseRows env playerID)) = .ok db₁)
    {p : OwnWorldPlacement} (hp : p ∈ db.releasable playerID) :
    itemRow p.ownerID p.name ∈ db₁.unconfirmedSentItems.rows := by
  obtain ⟨t, hrows, hcheck, rfl⟩ := apply_addUnconfirmedItems_ok h
  have hmem : sendRow env p.apLocationID p.ownerID p.name ∈ db.releaseRows env playerID :=
    List.mem_map_of_mem hp
  obtain ⟨u, hu⟩ := hcheck _ hmem
  have hrow : u = itemRow p.ownerID p.name := by
    rw [SendRow.check_sendRow] at hu
    split at hu
    · cases hu
    · cases hu
      rfl
  exact (hrows _).mpr (.inr ⟨_, hmem, hrow ▸ hu⟩)

/-- A step keeps to the guard, or is a confirmation. -/
theorem Handled.allowed {m : Incoming} {r : Except Stop Session} {t : Trace}
    (h : Handled cfg env sess db m r t) : Steps (Allowed sess.playerID) db t ∨
      ∃ c, m = .fromMW (.dataSendConfirm c) ∧
        t = [.commit (.confirmItem (env.bindString c.label) (env.bindString c.content)
          c.toPlayer.toInt)] := by
  have hother : (∀ c ∈ commits t, c.target ≠ .cleared ∧ c.target ≠ .unconfirmed) →
      Steps (Allowed sess.playerID) db t := fun hc =>
    steps_of_forall fun c hmem s => Allowed.other (hc c hmem).1 (hc c hmem).2 _ s
  cases h with
  | confirmed => exact .inr ⟨_, rfl, rfl⟩
  | quiet _ hq _ => exact .inl (hother (by simp [hq.commits]))
  | stored hq => exact .inl (hother (by simp [hq.commits, Commit.target]))
  | delivered _ _ _ _ => exact .inl (hother (by simp [Commit.target]))
  | unrecorded _ _ _ => exact .inl (hother (by simp [Commit.target]))
  | released _ _ _ =>
    refine .inl (hother fun c hc => ?_)
    rcases target_of_mem_batch hc with htarget | htarget
    · simp [htarget]
    · simp [htarget]
  | unreleased _ =>
    refine .inl (hother fun c hc => ?_)
    rw [commits_recordTrace] at hc
    simp [target_of_mem_recordCommits hc]
  | collected _ => exact .inl (hother (by simp [Commit.target]))
  | unsent _ => exact .inl trivial
  | checked hc => exact .inl hc.allowed
  | @sent db₁ cleared happly hcl hdb =>
    refine .inl ⟨?_, ?_, steps_of_forall ?_⟩
    · intro r hr
      obtain ⟨p, hp, rfl⟩ := List.mem_map.mp hr
      exact fits_releasable hp
    · rw [write_of_ok happly]
      intro id hid owner name hplaced _
      obtain ⟨p, hp, rfl⟩ := List.mem_map.mp hid
      rw [apply_toSetupTables happly, (mem_releasable.mp hp).1] at hplaced
      cases hplaced
      exact queued_releaseRows happly hp
    · rw [commits_map_io]
      simp

end Traces

/-! ## The queue and the history -/

/-- What the savefile and its history agree on: what is in the queue was put
there, and what a cleared location held is there or was confirmed. -/
structure SendsKept (selfID : Int) (db : Savefile) (history : Trace) : Prop where
  fits : ∀ u ∈ db.unconfirmedSentItems.rows, FitsInt32 u.destPlayerID
  queued : ∀ u ∈ db.unconfirmedSentItems.rows, Queued history u
  kept : ∀ loc ∈ db.locationsCleared.rows, ∀ owner name,
    db.getPlacedItem loc = some (owner, name) → owner ≠ selfID →
      itemRow owner name ∈ db.unconfirmedSentItems.rows ∨ Confirmed history (itemRow owner name)

section SendsKept

variable {cfg : Config} {selfID : Int} {db : Savefile} {history : Trace}

theorem Queued.append {u : UnconfirmedRow} (h : Queued history u) (t : Trace) :
    Queued (history ++ t) u := by
  obtain ⟨pre, rows, post, rfl, hu⟩ := h
  exact ⟨pre, rows, post ++ t, by simp, hu⟩

theorem Confirmed.append {u : UnconfirmedRow} (h : Confirmed history u) (t : Trace) :
    Confirmed (history ++ t) u := by
  obtain ⟨pre, m, post, rfl, hu⟩ := h
  exact ⟨pre, m, post ++ t, by simp, hu⟩

/-- A longer history of the same savefile. -/
theorem SendsKept.append (h : SendsKept selfID db history) (t : Trace) :
    SendsKept selfID db (history ++ t) := by
  refine ⟨h.fits, fun u hu => (h.queued u hu).append t, ?_⟩
  intro loc hloc owner name hplaced howner
  rcases h.kept loc hloc owner name hplaced howner with hrow | hconf
  · exact .inl hrow
  · exact .inr (hconf.append t)

/-- A savefile with the same queue and the same cleared locations. -/
theorem SendsKept.of_eq {db' : Savefile} (h : SendsKept selfID db history)
    (hsetup : db'.toSetupTables = db.toSetupTables)
    (hun : db'.unconfirmedSentItems = db.unconfirmedSentItems)
    (hcl : db'.locationsCleared = db.locationsCleared) : SendsKept selfID db' history := by
  refine ⟨?_, ?_, ?_⟩
  · rw [hun]
    exact h.fits
  · rw [hun]
    exact h.queued
  · rw [hun, hcl, hsetup]
    exact h.kept

/-- Every allowed write keeps the agreement. -/
theorem SendsKept.write {c : Commit} (h : SendsKept selfID db history)
    (hc : Allowed selfID db c) : SendsKept selfID (write db c) (history ++ [.commit c]) := by
  rcases write_cases db c with hok | hrefused
  · have hsetup := apply_toSetupTables hok
    cases c with
    | clearLocations ids =>
      obtain ⟨t, ht, hdb⟩ := apply_clearLocations_ok hok
      rw [hdb] at hsetup ⊢
      have hlonger := h.append [.commit (.clearLocations ids)]
      refine ⟨hlonger.fits, hlonger.queued, ?_⟩
      intro loc hloc owner name hplaced howner
      have hmem : loc ∈ db.locationsCleared.rows ++ ids := ht ▸ hloc
      rcases List.mem_append.mp hmem with hold | hnew
      · exact hlonger.kept loc hold owner name hplaced howner
      · exact .inl (hc loc hnew owner name hplaced howner)
    | addUnconfirmedItems rows =>
      obtain ⟨t, ht, hcheck, hdb⟩ := apply_addUnconfirmedItems_ok hok
      rw [hdb]
      refine ⟨?_, ?_, ?_⟩
      · intro u hu
        rcases (ht u).mp hu with hold | ⟨r, hr, hru⟩
        · exact h.fits u hold
        · rw [(SendRow.check_ok hru).2.2]
          exact hc r hr
      · intro u hu
        rcases (ht u).mp hu with hold | hnew
        · exact (h.queued u hold).append _
        · exact ⟨history, rows, [], rfl, hnew⟩
      · intro loc hloc owner name hplaced howner
        rcases h.kept loc hloc owner name hplaced howner with hrow | hconf
        · exact .inl ((ht _).mpr (.inl hrow))
        · exact .inr (hconf.append _)
    | confirmItem label content toPlayer => exact absurd hc id
    | addSentItems rows | addReceivedItem label content | setStoredData key val =>
      have hframe := apply_frame hok
      exact (h.append _).of_eq hsetup (hframe.2.2.1 (by simp [Commit.target]))
        (hframe.1 (by simp [Commit.target]))
  · rw [hrefused]
    exact h.append _

/-- A confirmation takes from the queue only what it names. -/
theorem SendsKept.confirm {env : Env} {m : DataSendConfirmMessage}
    (h : SendsKept selfID db history) :
    let c : Commit := .confirmItem (env.bindString m.label) (env.bindString m.content)
      m.toPlayer.toInt
    SendsKept selfID (Process.write db c)
      (history ++ [.io (.recv (.fromMW (.dataSendConfirm m))), .commit c]) := by
  intro c
  rw [write_of_ok (apply_confirmItem _ _ _)]
  refine ⟨?_, ?_, ?_⟩
  · intro u hu
    exact h.fits u (Table.mem_delete.mp hu).1
  · intro u hu
    exact (h.queued u (Table.mem_delete.mp hu).1).append _
  · intro loc hloc owner name hplaced howner
    rcases h.kept loc hloc owner name hplaced howner with hrow | hconf
    · by_cases hnamed : some (itemRow owner name).label = env.bindString m.label ∧
          some (itemRow owner name).content = env.bindString m.content ∧
            (itemRow owner name).destPlayerID = m.toPlayer.toInt
      · -- this confirmation is the one
        obtain ⟨hl, hcont, hto⟩ := hnamed
        have hlabel : m.label = labelMultiworldItem := (Env.bindString_eq_some_iff.mp hl.symm).2
        have hcontent : m.content = name := (Env.bindString_eq_some_iff.mp hcont.symm).2
        refine .inr ⟨history, m, [], ?_, h.queued _ hrow, hlabel, hcontent, hto.symm⟩
        rw [hl, hcont, hto]
      · refine .inl (Table.mem_delete.mpr ⟨hrow, ?_⟩)
        exact decide_eq_false hnamed
    · exact .inr (hconf.append _)

/-- A step that is stopped anywhere keeps the agreement. -/
theorem Handled.sendsKept {env : Env} {sess : Session} {m : Incoming}
    {r : Except Stop Session} {t p : Trace} (h : Handled cfg env sess db m r t)
    (hp : p <+: .io (.recv m) :: t) (hkept : SendsKept sess.playerID db history) :
    SendsKept sess.playerID (replay db p) (history ++ p) := by
  rcases h.allowed with hsteps | ⟨c, rfl, rfl⟩
  · have hall : Steps (Allowed sess.playerID) db (.io (.recv m) :: t) := hsteps
    have hprefix := hall.of_prefix hp
    exact hprefix.keep_history (fun _ _ io hk => hk.append [.io io])
      (fun _ _ _ hk hc => hk.write hc) hkept
  · -- stopped before the message, before the confirmation or after it
    rcases List.prefix_cons_iff.mp hp with rfl | ⟨q, rfl, hq⟩
    · exact hkept.append []
    · rcases List.prefix_cons_iff.mp hq with rfl | ⟨q', rfl, hq'⟩
      · exact hkept.append _
      · rw [List.prefix_nil.mp hq']
        exact hkept.confirm

/-- An event keeps the agreement, a kill included. -/
theorem sendsKept_step {s : System} (ho : s.Opened cfg)
    (h : SendsKept s.db.selfID s.db s.history) (e : Event) :
    SendsKept s.db.selfID (step cfg s e).db (step cfg s e).history := by
  generalize hs' : step cfg s e = s'
  have hstep : Stepped cfg s e s' := hs' ▸ stepped ho e
  cases hstep with
  | stayed _ hdb hhist _ =>
    rw [hdb, hhist]
    exact h.append _
  | @handled env sess m r t hs hh =>
    have hself := ho.selfID hs
    rw [hself] at h ⊢
    exact hh.sendsKept List.prefix_rfl h
  | @killed env sess m r t w n hs hh =>
    have hself := ho.selfID hs
    rw [hself] at h ⊢
    exact hh.sendsKept (isPrefix_cut w n _) h

theorem sendsKept_boot (hfresh : db.Fresh) : SendsKept selfID db [] := by
  refine ⟨?_, ?_, ?_⟩
  · intro u hu
    rw [hfresh.unconfirmed] at hu
    cases hu
  · intro u hu
    rw [hfresh.unconfirmed] at hu
    cases hu
  · intro loc hloc
    rw [hfresh.cleared] at hloc
    cases hloc

theorem sendsKept_play (hfresh : db.Fresh) (cfg : Config) (es : List Event) :
    SendsKept db.selfID (play cfg db es).db (play cfg db es).history := by
  have hboot : SendsKept (boot db).db.selfID (boot db).db (boot db).history :=
    sendsKept_boot hfresh
  have hstep : ∀ s e, s.Opened cfg ∧ SendsKept s.db.selfID s.db s.history →
      (step cfg s e).Opened cfg ∧
        SendsKept (step cfg s e).db.selfID (step cfg s e).db (step cfg s e).history := by
    rintro s e ⟨ho, hs⟩
    refine ⟨opened_step ho e, ?_⟩
    have hkept := sendsKept_step ho hs e
    rwa [← step_toSetupTables e] at hkept
  have hrun : SendsKept (play cfg db es).db.selfID (play cfg db es).db (play cfg db es).history :=
    (Runs.run_keep hstep ⟨opened_boot cfg db, hboot⟩).2
  rwa [play_toSetupTables] at hrun

/-- The row that a message for another player was queued as. -/
def messageRow (m : DataSendMessage) : UnconfirmedRow :=
  ⟨m.label, m.content, m.toPlayer.toInt⟩

/-- A rejoin sends the queue: one message for each row. -/
theorem SendsKept.resent (h : SendsKept selfID db history) (env : Env) (sess : Session) :
    ∃ msgs : List DataSendMessage, (msgs.map messageRow).Perm db.unconfirmedSentItems.rows ∧
      (handle cfg env sess (.fromMW .joinConfirm)).run db =
        ⟨.ok sess, .io (.recv (.fromMW .joinConfirm)) ::
          msgs.map fun m => .io (.toMW (.dataSend m))⟩ := by
  refine ⟨db.getUnconfirmedItems env, ?_, ?_⟩
  · have hperm := env.scanUnconfirmed_perm db.unconfirmedSentItems.rows
    have hrow : ∀ u ∈ env.scanUnconfirmed db.unconfirmedSentItems.rows,
        (⟨u.label, u.content, (Int32.ofInt (toInt32 u.destPlayerID)).toInt⟩ : UnconfirmedRow) = u := by
      intro u hu
      have hfits := h.fits u (hperm.mem_iff.mp hu)
      rw [toInt32_of_fits hfits, toInt_ofInt_of_fits hfits]
    rw [Savefile.getUnconfirmedItems, List.map_map]
    have hmap := List.map_congr_left hrow
    rw [List.map_id'] at hmap
    exact (List.Perm.of_eq hmap).trans hperm
  · rw [run_handle_fromMW, handleMW, run_handleJoinConfirm]
    rfl

/-- In a run from a created savefile, the item of another player at a cleared
location is queued, or was confirmed after it was queued; and a rejoin sends
all that is queued. -/
theorem outgoing_items_kept {env : Env} {result : ResultMessage}
    {precollectedItems : List Int} {db : Savefile}
    (h : createSavefile env result precollectedItems = .ok db) (cfg : Config) (es : List Event) :
    let s := play cfg db es
    (∀ loc ∈ s.db.locationsCleared.rows, ∀ owner name,
      s.db.getPlacedItem loc = some (owner, name) → owner ≠ db.selfID →
        itemRow owner name ∈ s.db.unconfirmedSentItems.rows ∨
          Confirmed s.history (itemRow owner name)) ∧
    ∀ (env' : Env) (sess : Session), s.session = some sess →
      ∃ msgs : List DataSendMessage,
        (msgs.map messageRow).Perm s.db.unconfirmedSentItems.rows ∧
        (handle cfg env' sess (.fromMW .joinConfirm)).run s.db =
          ⟨.ok sess, .io (.recv (.fromMW .joinConfirm)) ::
            msgs.map fun m => .io (.toMW (.dataSend m))⟩ := by
  intro s
  have hkept := sendsKept_play (createSavefile_fresh h) cfg es
  exact ⟨hkept.kept, fun env' sess _ => hkept.resent env' sess⟩

end SendsKept

/-- The sword at location 7 is queued by its check, and leaves the queue with
its confirmation. -/
theorem outgoing_items_kept_sample : ∃ db,
    createSavefile (Env.inOrder false) sampleResult [] = .ok db ∧
      (itemRow 1 (lit "Sword") ∈ (play sampleConfig db [.connect, .handle (Env.inOrder false)
          (.fromAP (.locationChecks [7]))]).db.unconfirmedSentItems.rows ∨
        Confirmed (play sampleConfig db [.connect, .handle (Env.inOrder false)
          (.fromAP (.locationChecks [7]))]).history (itemRow 1 (lit "Sword"))) := by
  obtain ⟨db, h, hcl, hplaced, hself⟩ := exists_created
    (x := createSavefile (Env.inOrder false) sampleResult [])
    (P := fun db =>
      7 ∈ (play sampleConfig db [.connect, .handle (Env.inOrder false)
        (.fromAP (.locationChecks [7]))]).db.locationsCleared.rows ∧
      (play sampleConfig db [.connect, .handle (Env.inOrder false)
        (.fromAP (.locationChecks [7]))]).db.getPlacedItem 7 = some (1, lit "Sword") ∧
      1 ≠ db.selfID)
    (by decide +kernel)
  exact ⟨db, h, (outgoing_items_kept h sampleConfig _).1 7 hcl 1 (lit "Sword") hplaced hself⟩

end Isthmus
