import Isthmus.Dispatched
import Mathlib.Algebra.Ring.Parity

/-!
# Interrupted location checks

A location check makes two writes: it appends or queues the item, and then
clears the location. A kill between the two leaves the location to be checked
again, which appends the item a second time, or is refused because the item is
queued. A kill after whole locations is made up for by the same message.

## Main definitions

- `recovery`: a kill, a restart, confirmations, and the same message again
- `Harmless`: the recovery ends as if there had been no kill
- `NoConflict`: no location of the message is refused
-/

namespace Isthmus

open Process Mwproto Approto

section Checks

variable {cfg : Config} {env : Env} {sess : Session} {db : Savefile}

/-- `Checks` says all that a message of location checks does. -/
theorem Checks.run_eq {ids : List Int} {r : Except Stop Unit} {t : Trace}
    (h : Checks cfg env sess db ids r t) : (handleLocationChecks cfg env sess ids).run db = ⟨r, t⟩ := by
  have hcons : ∀ id ids, handleLocationChecks cfg env sess (id :: ids) =
      checkLocation cfg env sess id >>= fun _ => handleLocationChecks cfg env sess ids :=
    fun _ _ => rfl
  induction h with
  | nil => rfl
  | skip h _ ih => rw [hcons, Proc.run_bind_of_ok (run_checkLocation_skip h), replay_nil, ih]; rfl
  | own hnew hd hcl _ ih =>
    obtain ⟨_, -, hrun, -⟩ := run_checkLocation_own env hnew hd
    rw [hcons, Proc.run_bind_of_ok hrun, replay_ownTrace hnew hcl, ih]
  | foreign hnew hd hnull hrow hsends hcl _ ih =>
    obtain ⟨_, _, -, -, hrun, -⟩ := run_checkLocation_sent hnew hd hnull hrow
    rw [hcons, Proc.run_bind_of_ok hrun, replay_foreignTrace hnew hnull hrow hsends hcl, ih]
  | @stop db id ids owner name e hnew hd he =>
    have hsend : Store.apply db (.addUnconfirmedItems [sendRow env id owner name]) = .error e := by
      rcases he with ⟨hnull, rfl⟩ | ⟨hnull, hrow, rfl⟩
      · exact apply_send_null id hnull
      · exact apply_send_taken id hnull hrow
    rw [hcons, Proc.run_bind_of_error (run_checkLocation_refused hnew hd hsend)]

/-! ## What is written again -/

/-- The same savefile, but for sends that were confirmed since. -/
structure Savefile.Behind (db db' : Savefile) : Prop where
  setup : db'.toSetupTables = db.toSetupTables
  cleared : db'.locationsCleared = db.locationsCleared
  sent : db'.sentItems = db.sentItems
  queue : db'.unconfirmedSentItems.rows ⊆ db.unconfirmedSentItems.rows

/-- Confirmations in between change nothing for a message that goes through. -/
theorem Checks.confirmed {db' : Savefile} {ids : List Int} {r : Except Stop Unit} {t : Trace}
    (h : Checks cfg env sess db ids r t) (hr : r = .ok ()) (hb : db.Behind db') :
    Checks cfg env sess db' ids r t ∧ (replay db t).Behind (replay db' t) := by
  induction h generalizing db' with
  | nil => exact ⟨.nil, hb⟩
  | skip h _ ih =>
    obtain ⟨hc, hnext⟩ := ih hr hb
    rw [← hb.cleared, ← hb.setup] at h
    exact ⟨.skip h hc, hnext⟩
  | @own db id ids r t item cleared hnew hd hcl _ ih =>
    have hb' : Savefile.Behind
        { db.append [sentRow item (.checked id)] with locationsCleared := cleared }
        { db'.append [sentRow item (.checked id)] with locationsCleared := cleared } :=
      ⟨hb.setup, rfl, by simp [hb.sent], hb.queue⟩
    obtain ⟨hc, hnext⟩ := ih hr hb'
    have htrace : sess.ownTrace db id item = sess.ownTrace db' id item := by
      simp only [Session.ownTrace, Savefile.sentIndex, hb.sent]
    rw [replay_append, replay_append, replay_ownTrace hnew hcl, htrace]
    rw [← hb.cleared] at hnew hcl
    rw [← hb.setup] at hd
    rw [replay_ownTrace hnew hcl]
    exact ⟨.own hnew hd hcl hc, hnext⟩
  | @foreign db id ids r t owner name sends cleared hnew hd hnull hrow hsends hcl _ ih =>
    have hrow' : itemRow owner name ∉ db'.unconfirmedSentItems.rows := fun h => hrow (hb.queue h)
    obtain ⟨sends', hsends', -⟩ := apply_send_new id hnull hrow'
    have hqueue : sends'.rows ⊆ sends.rows := by
      rw [hsends, hsends']
      intro u hu
      rcases List.mem_append.mp hu with hu | hu
      · exact List.mem_append_left _ (hb.queue hu)
      · exact List.mem_append_right _ hu
    have hb' : Savefile.Behind
        { db with unconfirmedSentItems := sends, locationsCleared := cleared }
        { db' with unconfirmedSentItems := sends', locationsCleared := cleared } :=
      ⟨hb.setup, rfl, hb.sent, hqueue⟩
    obtain ⟨hc, hnext⟩ := ih hr hb'
    rw [replay_append, replay_append, replay_foreignTrace hnew hnull hrow hsends hcl]
    rw [← hb.cleared] at hnew hcl
    rw [← hb.setup] at hd
    rw [replay_foreignTrace hnew hnull hrow' hsends' hcl]
    exact ⟨.foreign hnew hd hnull hrow' hsends' hcl hc, hnext⟩
  | stop _ _ _ => cases hr

theorem mem_cleared_concat {cleared : Table Int id} {locID : Int}
    (hcl : cleared.rows = db.locationsCleared.rows ++ [locID]) : locID ∈ cleared.rows := by
  rw [hcl]
  exact List.mem_append_right _ (List.mem_singleton_self _)

/-- A location that is passed over is passed over later. -/
theorem skip_perform {id : Int} (cs : List Commit)
    (h : id ∈ db.locationsCleared.rows ∨ sess.dispatch cfg db.toSetupTables id = .skip) :
    id ∈ (perform db cs).locationsCleared.rows ∨
      sess.dispatch cfg (perform db cs).toSetupTables id = .skip := by
  rcases h with hcl | hskip
  · exact .inl (locationsCleared_subset_perform cs hcl)
  · right
    rw [perform_toSetupTables]
    exact hskip

/-- Past the two writes for a location, what is left is the rest of the list. -/
theorem perform_pair {a b : Commit} {u : Trace} {db₁ : Savefile} (hu : commits u = [a, b])
    (hdb : replay db u = db₁) (t : Trace) (w : Nat) :
    perform db ((commits (u ++ t)).take (w + 2)) = perform db₁ ((commits t).take w) := by
  have hfirst : perform db [a, b] = db₁ := by
    rw [← hu, ← replay_eq_perform]
    exact hdb
  rw [commits_append, hu]
  show perform db ([a, b] ++ (commits t).take w) = _
  rw [perform_append, hfirst]

/-- A location that was done before the kill is passed over afterwards. -/
theorem resume_past {id : Int} {ids : List Int} {r : Except Stop Unit} {a b : Commit}
    {u t : Trace} {db₁ : Savefile} (hu : commits u = [a, b]) (hdb : replay db u = db₁)
    (hid : id ∈ db₁.locationsCleared.rows) {j : Nat}
    (hj : 2 * (j + 1) ≤ (commits (u ++ t)).length)
    (hrest : 2 * j ≤ (commits t).length →
      ∃ t', Checks cfg env sess (perform db₁ ((commits t).take (2 * j))) ids r t' ∧
        commits t' = (commits t).drop (2 * j)) :
    ∃ t', Checks cfg env sess (perform db ((commits (u ++ t)).take (2 * (j + 1)))) (id :: ids) r t' ∧
      commits t' = (commits (u ++ t)).drop (2 * (j + 1)) := by
  have hlen : 2 * j ≤ (commits t).length := by
    rw [commits_append, hu, List.length_append, List.length_cons, List.length_singleton] at hj
    omega
  obtain ⟨t', hc, hdrop⟩ := hrest hlen
  refine ⟨t', ?_, ?_⟩
  · show Checks cfg env sess (perform db ((commits (u ++ t)).take (2 * j + 2))) (id :: ids) r t'
    rw [perform_pair hu hdb]
    exact .skip (skip_perform _ (.inl hid)) hc
  · rw [hdrop, commits_append, hu]
    rfl

/-- After a kill between locations the message does the rest. -/
theorem Checks.resume {ids : List Int} {r : Except Stop Unit} {t : Trace}
    (h : Checks cfg env sess db ids r t) {j : Nat} (hj : 2 * j ≤ (commits t).length) :
    ∃ t', Checks cfg env sess (perform db ((commits t).take (2 * j))) ids r t' ∧
      commits t' = (commits t).drop (2 * j) := by
  induction h generalizing j with
  | nil => exact ⟨[], by simpa using Checks.nil, by simp⟩
  | skip h _ ih =>
    obtain ⟨t', hc, hdrop⟩ := ih hj
    exact ⟨t', .skip (skip_perform _ h) hc, hdrop⟩
  | @own db id ids r t item cleared hnew hd hcl rest ih =>
    cases j with
    | zero => exact ⟨_, .own hnew hd hcl rest, rfl⟩
    | succ j =>
      exact resume_past (commits_ownTrace sess db id item) (replay_ownTrace hnew hcl)
        (mem_cleared_concat hcl) hj fun hlen => ih hlen
  | @foreign db id ids r t owner name sends cleared hnew hd hnull hrow hsends hcl rest ih =>
    cases j with
    | zero => exact ⟨_, .foreign hnew hd hnull hrow hsends hcl rest, rfl⟩
    | succ j =>
      exact resume_past (commits_foreignTrace env id owner name)
        (replay_foreignTrace hnew hnull hrow hsends hcl) (mem_cleared_concat hcl) hj
        fun hlen => ih hlen
  | stop hnew hd he => exact ⟨[], by simpa using Checks.stop hnew hd he, by simp⟩

/-! ## A kill between the writes of a location -/

/-- No history dispatches a location that is cleared before it. -/
theorem Checks.dispatches_le {ids : List Int} {r : Except Stop Unit} {t : Trace}
    (h : Checks cfg env sess db ids r t) (loc : Int) :
    db.locationsCleared.rows.count loc + dispatches t loc ≤ 1 := by
  rw [← h.balanced loc]
  exact List.nodup_iff_count_le_one.mp (by simpa using (replay db t).locationsCleared.nodup) loc

/-- The rows appended for a location. -/
def Savefile.checkedRows (db : Savefile) (loc : Int) : Nat :=
  db.sentItems.countP fun row => row.origin = .checked loc

theorem checkedRows_replay (db : Savefile) (t : Trace) (loc : Int) :
    (replay db t).checkedRows loc = db.checkedRows loc +
      (appended (commits t)).countP fun row => row.origin = .checked loc := by
  rw [Savefile.checkedRows, replay_eq_perform, sentItems_perform, List.countP_append]
  rfl

/-- What is done with a location that is passed over. -/
theorem Checks.of_skip {id : Int} {ids : List Int} {r : Except Stop Unit} {t : Trace}
    (h : Checks cfg env sess db (id :: ids) r t)
    (hskip : id ∈ db.locationsCleared.rows ∨ sess.dispatch cfg db.toSetupTables id = .skip) :
    Checks cfg env sess db ids r t := by
  cases h with
  | skip _ rest => exact rest
  | own hnew hd _ _ =>
    rcases hskip with hcl | hs
    · exact absurd hcl hnew
    · rw [hs] at hd
      cases hd
  | foreign hnew hd _ _ _ _ _ =>
    rcases hskip with hcl | hs
    · exact absurd hcl hnew
    · rw [hs] at hd
      cases hd
  | stop hnew hd _ =>
    rcases hskip with hcl | hs
    · exact absurd hcl hnew
    · rw [hs] at hd
      cases hd

/-- The second check of an own location that is not cleared appends its item again. -/
theorem own_again {id : Int} {ids : List Int} {r r' : Except Stop Unit} {t t' : Trace}
    {item : NetworkItem} (h : Checks cfg env sess db (id :: ids) r (sess.ownTrace db id item ++ t))
    (hnew : id ∉ db.locationsCleared.rows)
    (hd : sess.dispatch cfg db.toSetupTables id = .own item)
    (h' : Checks cfg env sess (db.append [sentRow item (.checked id)]) (id :: ids) r' t') :
    (replay (db.append [sentRow item (.checked id)]) t').sentItems ≠
      (replay db (sess.ownTrace db id item ++ t)).sentItems := by
  intro hsent
  have hone : (sentRow item (.checked id)).origin = .checked id := rfl
  -- one row is there, and one more is appended
  have htwo : db.checkedRows id + 2 ≤
      (replay (db.append [sentRow item (.checked id)]) t').checkedRows id := by
    cases h' with
    | skip h _ =>
      rcases h with hcl | hs
      · exact absurd hcl hnew
      · have hs' : sess.dispatch cfg db.toSetupTables id = .skip := hs
        rw [hd] at hs'
        cases hs'
    | own _ hd' _ _ =>
      have hd'' : sess.dispatch cfg db.toSetupTables id = .own _ := hd'
      rw [hd] at hd''
      cases hd''
      rw [checkedRows_replay, commits_append, commits_ownTrace]
      simp only [Savefile.checkedRows, append_sentItems, appended_append, appended,
        List.countP_append, List.countP_singleton, hone, List.append_nil, decide_true, if_true]
      omega
    | foreign _ hd' _ _ _ _ _ =>
      have hd'' : sess.dispatch cfg db.toSetupTables id = .foreign _ _ := hd'
      rw [hd] at hd''
      cases hd''
    | stop _ hd' _ =>
      have hd'' : sess.dispatch cfg db.toSetupTables id = .foreign _ _ := hd'
      rw [hd] at hd''
      cases hd''
  have hle := h.dispatches_le id
  have hrows := checkedRows_replay db (sess.ownTrace db id item ++ t) id
  have hsame : (replay (db.append [sentRow item (.checked id)]) t').checkedRows id =
      (replay db (sess.ownTrace db id item ++ t)).checkedRows id := by
    rw [Savefile.checkedRows, hsent]
    rfl
  rw [dispatches] at hle
  omega

/-- The second check of a location whose item is queued is refused. -/
theorem foreign_again {id : Int} (owner : Int) (name : GoString) {ids : List Int}
    {r' : Except Stop Unit} {t' : Trace} {db' : Savefile} (hnew : id ∉ db'.locationsCleared.rows)
    (hd : sess.dispatch cfg db'.toSetupTables id = .foreign owner name)
    (hrow : itemRow owner name ∈ db'.unconfirmedSentItems.rows)
    (h' : Checks cfg env sess db' (id :: ids) r' t') : r' ≠ .ok () := by
  cases h' with
  | skip h _ =>
    rcases h with hcl | hs
    · exact absurd hcl hnew
    · rw [hd] at hs
      cases hs
  | own _ hd' _ _ =>
    rw [hd] at hd'
    cases hd'
  | foreign _ hd' _ hrow' _ _ _ =>
    rw [hd] at hd'
    cases hd'
    exact absurd hrow hrow'
  | stop _ _ _ => simp

/-- After a kill between the two writes for a location, the message fails or
appends an item again. -/
theorem Checks.broken {ids : List Int} {r : Except Stop Unit} {t : Trace}
    (h : Checks cfg env sess db ids r t) {j : Nat} (hj : 2 * j + 1 ≤ (commits t).length)
    {r' : Except Stop Unit} {t' : Trace}
    (h' : Checks cfg env sess (perform db ((commits t).take (2 * j + 1))) ids r' t') :
    r' ≠ .ok () ∨ (replay (perform db ((commits t).take (2 * j + 1))) t').sentItems ≠
      (replay db t).sentItems := by
  induction h generalizing j with
  | nil => simp at hj
  | skip h _ ih => exact ih hj (h'.of_skip (skip_perform _ h))
  | @own db id ids r t item cleared hnew hd hcl rest ih =>
    cases j with
    | zero =>
      have hfirst : perform db ((commits (sess.ownTrace db id item ++ t)).take (2 * 0 + 1)) =
          db.append [sentRow item (.checked id)] := by
        rw [commits_append, commits_ownTrace]
        exact write_of_ok (apply_addSentItems _ _)
      rw [hfirst] at h' ⊢
      exact .inr (own_again (.own hnew hd hcl rest) hnew hd h')
    | succ j =>
      have hpair : perform db ((commits (sess.ownTrace db id item ++ t)).take (2 * (j + 1) + 1)) =
          perform _ ((commits t).take (2 * j + 1)) :=
        perform_pair (commits_ownTrace sess db id item) (replay_ownTrace hnew hcl) t (2 * j + 1)
      have hlen : 2 * j + 1 ≤ (commits t).length := by
        simp only [commits_append, commits_ownTrace, List.length_append, List.length_cons,
          List.length_nil] at hj
        omega
      rw [hpair] at h' ⊢
      rw [replay_append, replay_ownTrace hnew hcl]
      exact ih hlen (h'.of_skip (skip_perform _ (.inl (mem_cleared_concat hcl))))
  | @foreign db id ids r t owner name sends cleared hnew hd hnull hrow hsends hcl rest ih =>
    cases j with
    | zero =>
      obtain ⟨sends', hsends', hsend⟩ := apply_send_new id hnull hrow
      have hfirst : perform db ((commits (foreignTrace env id owner name ++ t)).take (2 * 0 + 1)) =
          { db with unconfirmedSentItems := sends' } := by
        rw [commits_append, commits_foreignTrace]
        exact write_of_ok hsend
      rw [hfirst] at h'
      refine .inl (foreign_again owner name ?_ ?_ ?_ h')
      · exact hnew
      · exact hd
      · show _ ∈ sends'.rows
        rw [hsends']
        exact List.mem_append_right _ (List.mem_singleton_self _)
    | succ j =>
      have hpair : perform db ((commits (foreignTrace env id owner name ++ t)).take
          (2 * (j + 1) + 1)) = perform _ ((commits t).take (2 * j + 1)) :=
        perform_pair (commits_foreignTrace env id owner name)
          (replay_foreignTrace hnew hnull hrow hsends hcl) t (2 * j + 1)
      have hlen : 2 * j + 1 ≤ (commits t).length := by
        simp only [commits_append, commits_foreignTrace, List.length_append, List.length_cons,
          List.length_nil] at hj
        omega
      rw [hpair] at h' ⊢
      rw [replay_append, replay_foreignTrace hnew hnull hrow hsends hcl]
      exact ih hlen (h'.of_skip (skip_perform _ (.inl (mem_cleared_concat hcl))))
  | stop _ _ _ => simp at hj

/-! ## Locations that are refused -/

/-- The location is to be cleared, and holds an item of another player. -/
def Savefile.Outgoing (db : Savefile) (selfID id owner : Int) (name : GoString) : Prop :=
  id ∉ db.locationsCleared.rows ∧ db.getPlacedItem id = some (owner, name) ∧ owner ≠ selfID

/-- The items to be sent for a list of locations can be queued: their names are
not bound as NULL, they are not queued already, and no two of them are one. -/
@[mk_iff]
structure NoConflict (env : Env) (selfID : Int) (db : Savefile) (ids : List Int) : Prop where
  free : ∀ id ∈ ids, ∀ owner name, db.Outgoing selfID id owner name →
    ¬ env.BindsNull name ∧ itemRow owner name ∉ db.unconfirmedSentItems.rows
  distinct : ∀ id ∈ ids, ∀ id' ∈ ids, ∀ owner name, db.Outgoing selfID id owner name →
    db.Outgoing selfID id' owner name → id = id'

theorem outgoing_iff (cfg : Config) {id owner : Int} {name : GoString} :
    db.Outgoing sess.playerID id owner name ↔
      id ∉ db.locationsCleared.rows ∧
        sess.dispatch cfg db.toSetupTables id = .foreign owner name := by
  rw [dispatch_foreign]
  rfl

theorem not_outgoing_of_skip {id : Int}
    (h : id ∈ db.locationsCleared.rows ∨ sess.dispatch cfg db.toSetupTables id = .skip)
    (owner : Int) (name : GoString) : ¬ db.Outgoing sess.playerID id owner name := by
  intro hout
  obtain ⟨hnew, hd⟩ := (outgoing_iff cfg).mp hout
  rcases h with hcl | hs
  · exact hnew hcl
  · rw [hs] at hd
    cases hd

theorem not_outgoing_of_own {id : Int} {item : NetworkItem}
    (h : sess.dispatch cfg db.toSetupTables id = .own item) (owner : Int) (name : GoString) :
    ¬ db.Outgoing sess.playerID id owner name := by
  intro hout
  obtain ⟨-, hd⟩ := (outgoing_iff cfg).mp hout
  rw [h] at hd
  cases hd

/-- A location that nothing is sent for has no conflict. -/
theorem noConflict_cons {selfID id : Int} {ids : List Int}
    (hnot : ∀ owner name, ¬ db.Outgoing selfID id owner name) :
    NoConflict env selfID db (id :: ids) ↔ NoConflict env selfID db ids := by
  constructor
  · rintro ⟨hfree, hdist⟩
    exact ⟨fun a ha => hfree a (List.mem_cons_of_mem _ ha),
      fun a ha b hb => hdist a (List.mem_cons_of_mem _ ha) b (List.mem_cons_of_mem _ hb)⟩
  · rintro ⟨hfree, hdist⟩
    refine ⟨?_, ?_⟩
    · intro a ha owner name hout
      rcases List.mem_cons.mp ha with rfl | ha
      · exact absurd hout (hnot owner name)
      · exact hfree a ha owner name hout
    · intro a ha b hb owner name houta houtb
      rcases List.mem_cons.mp ha with rfl | ha
      · exact absurd houta (hnot owner name)
      · rcases List.mem_cons.mp hb with rfl | hb
        · exact absurd houtb (hnot owner name)
        · exact hdist a ha b hb owner name houta houtb

/-- The locations left to send for, once one is cleared. -/
theorem outgoing_of_cleared {db₁ : Savefile} {selfID locID id owner : Int} {name : GoString}
    (hsetup : db₁.toSetupTables = db.toSetupTables)
    (hcl : db₁.locationsCleared.rows = db.locationsCleared.rows ++ [locID]) :
    db₁.Outgoing selfID id owner name ↔ db.Outgoing selfID id owner name ∧ id ≠ locID := by
  rw [Savefile.Outgoing, Savefile.Outgoing, hsetup, hcl, List.mem_append, List.mem_singleton,
    not_or]
  constructor
  · rintro ⟨⟨hnew, hne⟩, hplaced⟩
    exact ⟨⟨hnew, hplaced⟩, hne⟩
  · rintro ⟨⟨hnew, hplaced⟩, hne⟩
    exact ⟨⟨hnew, hne⟩, hplaced⟩

/-- Clearing a location that nothing is sent for brings no conflict. -/
theorem noConflict_own {db₁ : Savefile} {selfID id : Int} {ids : List Int}
    (hnot : ∀ owner name, ¬ db.Outgoing selfID id owner name)
    (hsetup : db₁.toSetupTables = db.toSetupTables)
    (hcl : db₁.locationsCleared.rows = db.locationsCleared.rows ++ [id])
    (hun : db₁.unconfirmedSentItems = db.unconfirmedSentItems) :
    NoConflict env selfID db (id :: ids) ↔ NoConflict env selfID db₁ ids := by
  have hout : ∀ a owner name,
      db₁.Outgoing selfID a owner name ↔ db.Outgoing selfID a owner name := by
    intro a owner name
    rw [outgoing_of_cleared hsetup hcl]
    refine ⟨And.left, fun houta => ⟨houta, ?_⟩⟩
    rintro rfl
    exact hnot owner name houta
  rw [noConflict_cons hnot, noConflict_iff, noConflict_iff]
  simp only [hout, hun]

/-- Once an item is queued and its location cleared, the rest must not conflict
with it either. -/
theorem noConflict_foreign {db₁ : Savefile} {selfID id owner : Int} {ids : List Int}
    {name : GoString} (hout : db.Outgoing selfID id owner name) (hnull : ¬ env.BindsNull name)
    (hrow : itemRow owner name ∉ db.unconfirmedSentItems.rows)
    (hsetup : db₁.toSetupTables = db.toSetupTables)
    (hcl : db₁.locationsCleared.rows = db.locationsCleared.rows ++ [id])
    (hsends : db₁.unconfirmedSentItems.rows =
      db.unconfirmedSentItems.rows ++ [itemRow owner name]) :
    NoConflict env selfID db (id :: ids) ↔ NoConflict env selfID db₁ ids := by
  constructor
  · rintro ⟨hfree, hdist⟩
    refine ⟨?_, ?_⟩
    · intro a ha owner' name' houta
      obtain ⟨houta', hne⟩ := (outgoing_of_cleared hsetup hcl).mp houta
      obtain ⟨hnull', hrow'⟩ := hfree a (List.mem_cons_of_mem _ ha) owner' name' houta'
      refine ⟨hnull', ?_⟩
      rw [hsends, List.mem_append, List.mem_singleton, not_or]
      refine ⟨hrow', fun heq => hne ?_⟩
      simp only [itemRow, UnconfirmedRow.mk.injEq, true_and] at heq
      obtain ⟨rfl, rfl⟩ := heq
      exact hdist a (List.mem_cons_of_mem _ ha) id List.mem_cons_self owner' name' houta' hout
    · intro a ha b hb owner' name' houta houtb
      exact hdist a (List.mem_cons_of_mem _ ha) b (List.mem_cons_of_mem _ hb) owner' name'
        ((outgoing_of_cleared hsetup hcl).mp houta).1 ((outgoing_of_cleared hsetup hcl).mp houtb).1
  · rintro ⟨hfree, hdist⟩
    -- another location of the list does not hold the item of this one
    have hother : ∀ a ∈ ids, a ≠ id → ¬ db.Outgoing selfID a owner name := by
      intro a ha hne houta
      have hrow' := (hfree a ha owner name ((outgoing_of_cleared hsetup hcl).mpr ⟨houta, hne⟩)).2
      rw [hsends, List.mem_append, List.mem_singleton, not_or] at hrow'
      exact hrow'.2 rfl
    have hself : ∀ owner' name', db.Outgoing selfID id owner' name' →
        owner' = owner ∧ name' = name := by
      intro owner' name' hout'
      have hplaced := hout'.2.1
      rw [hout.2.1] at hplaced
      cases hplaced
      exact ⟨rfl, rfl⟩
    refine ⟨?_, ?_⟩
    · intro a ha owner' name' houta
      by_cases hne : a = id
      · subst hne
        obtain ⟨rfl, rfl⟩ := hself owner' name' houta
        exact ⟨hnull, hrow⟩
      · have ha' := (List.mem_cons.mp ha).resolve_left hne
        obtain ⟨hnull', hrow'⟩ :=
          hfree a ha' owner' name' ((outgoing_of_cleared hsetup hcl).mpr ⟨houta, hne⟩)
        refine ⟨hnull', fun hmem => hrow' ?_⟩
        rw [hsends]
        exact List.mem_append_left _ hmem
    · intro a ha b hb owner' name' houta houtb
      by_cases hae : a = id
      · by_cases hbe : b = id
        · rw [hae, hbe]
        · subst hae
          obtain ⟨rfl, rfl⟩ := hself owner' name' houta
          exact absurd houtb (hother b ((List.mem_cons.mp hb).resolve_left hbe) hbe)
      · by_cases hbe : b = id
        · subst hbe
          obtain ⟨rfl, rfl⟩ := hself owner' name' houtb
          exact absurd houta (hother a ((List.mem_cons.mp ha).resolve_left hae) hae)
        · exact hdist a ((List.mem_cons.mp ha).resolve_left hae) b
            ((List.mem_cons.mp hb).resolve_left hbe) owner' name'
            ((outgoing_of_cleared hsetup hcl).mpr ⟨houta, hae⟩)
            ((outgoing_of_cleared hsetup hcl).mpr ⟨houtb, hbe⟩)

/-- The message goes through exactly if there is no conflict. -/
theorem Checks.ok_iff {ids : List Int} {r : Except Stop Unit} {t : Trace}
    (h : Checks cfg env sess db ids r t) : r = .ok () ↔ NoConflict env sess.playerID db ids := by
  induction h with
  | nil => exact ⟨fun _ => ⟨by simp, by simp⟩, fun _ => rfl⟩
  | skip h _ ih => rw [ih, noConflict_cons (not_outgoing_of_skip h)]
  | own hnew hd hcl rest ih =>
    rw [ih]
    symm
    exact noConflict_own (not_outgoing_of_own hd) rfl hcl rfl
  | @foreign db id ids r t owner name sends cleared hnew hd hnull hrow hsends hcl rest ih =>
    have hout : db.Outgoing sess.playerID id owner name := (outgoing_iff cfg).mpr ⟨hnew, hd⟩
    rw [ih]
    symm
    exact noConflict_foreign hout hnull hrow rfl hcl hsends
  | @stop db id ids owner name e hnew hd he =>
    refine ⟨by simp, fun hno => ?_⟩
    obtain ⟨hnull, hrow⟩ := hno.free id List.mem_cons_self owner name ((outgoing_iff cfg).mpr ⟨hnew, hd⟩)
    rcases he with ⟨hn, -⟩ | ⟨-, hr, -⟩
    · exact absurd hn hnull
    · exact absurd hr hrow

/-! ## Sends -/

/-- The item that a row is bound for. -/
def SendRow.item (r : SendRow) : SqlText × SqlText × Int := (r.label, r.content, r.toPlayer)

def UnconfirmedRow.item (u : UnconfirmedRow) : SqlText × SqlText × Int :=
  (some u.label, some u.content, u.destPlayerID)

theorem item_sendRow {id owner : Int} {name : GoString} (hnull : ¬ env.BindsNull name) :
    (sendRow env id owner name).item = (itemRow owner name).item := by
  rw [SendRow.item, sendRow, Env.bindString_of_not hnull]
  rfl

theorem UnconfirmedRow.item_injective : Function.Injective UnconfirmedRow.item := by
  rintro ⟨l, c, p⟩ ⟨l', c', p'⟩ h
  simpa [UnconfirmedRow.item] using h

/-- A message sends no item twice, nor one that is queued. -/
theorem Checks.nodup_sends {ids : List Int} {r : Except Stop Unit} {t : Trace}
    (h : Checks cfg env sess db ids r t) :
    (db.unconfirmedSentItems.rows.map UnconfirmedRow.item ++
      (sends (commits t)).map SendRow.item).Nodup := by
  have hnil : ∀ db : Savefile, (db.unconfirmedSentItems.rows.map UnconfirmedRow.item ++
      (sends []).map SendRow.item).Nodup := by
    intro db
    have hnd : db.unconfirmedSentItems.rows.Nodup := by
      simpa using db.unconfirmedSentItems.nodup
    simpa [sends] using hnd.map UnconfirmedRow.item_injective
  induction h with
  | nil => exact hnil _
  | skip _ _ ih => exact ih
  | own _ _ _ _ ih =>
    rw [commits_append, commits_ownTrace]
    exact ih
  | foreign _ _ hnull _ hsends _ _ ih =>
    rw [commits_append, commits_foreignTrace]
    simp only [hsends, List.map_append, List.map_cons, List.map_nil] at ih
    simp only [List.cons_append, List.nil_append, sends, List.map_cons, item_sendRow hnull]
    simpa using ih
  | stop _ _ _ => exact hnil _

end Checks

/-! ## The recovery from a kill -/

/-- A kill in a message of location checks, a restart, a connection of the
client, confirmations of the server, and the same message again. -/
def recovery (env : Env) (ids : List Int) (w n : Nat) (c : Connect)
    (confirms : List DataSendConfirmMessage) : List Event :=
  [.kill env (.fromAP (.locationChecks ids)) w n, .connect, .handle env (.fromAP (.connect c))] ++
    confirms.map (fun m => .handle env (.fromMW (.dataSendConfirm m))) ++
    [.handle env (.fromAP (.locationChecks ids))]

/-- The recovery gets to its end without an error and with the log and the
cleared locations of the message handled once, and sends no item twice. -/
def Harmless (cfg : Config) (s : System) (sess : Session) (env : Env) (ids : List Int)
    (w : Nat) : Prop :=
  ∀ n c confirms, c.itemsHandling = some sess.itemHandling →
    let s' := Runs.run (step cfg) s (recovery env ids w n c confirms)
    let once := step cfg s (.handle env (.fromAP (.locationChecks ids)))
    s'.session.isSome = true ∧ s'.db.sentItems = once.db.sentItems ∧
      s'.db.locationsCleared = once.db.locationsCleared ∧
      ((sends (commits (s'.history.drop s.history.length))).map SendRow.item).Nodup

section Recovery

variable {cfg : Config} {env : Env} {sess : Session} {db : Savefile} {s : System}

/-- The watched keys play no part in location checks. -/
theorem run_handle_locationChecks {ids : List Int} {r : Except Stop Unit} {t : Trace}
    (h : Checks cfg env sess db ids r t) (keys : List GoString) :
    (handle cfg env { sess with watchedKeys := keys } (.fromAP (.locationChecks ids))).run db =
      ⟨r.map fun _ => { sess with watchedKeys := keys },
        .io (.recv (.fromAP (.locationChecks ids))) :: t⟩ := by
  have hrun : (handleLocationChecks cfg env { sess with watchedKeys := keys } ids).run db = ⟨r, t⟩ :=
    h.run_eq
  rw [run_handle_fromAP, handleAP, Proc.run_bind_pure, hrun]
  rfl

/-- A `Connect` with flags is answered with the log from its start. -/
theorem run_handle_connect (cfg : Config) (env : Env) (sess : Session) (db : Savefile)
    {c : Connect} {mode : ItemHandlingMode} (hc : c.itemsHandling = some mode) :
    ∃ join resp, (handle cfg env sess (.fromAP (.connect c))).run db =
      ⟨.ok { sess with itemHandling := mode },
        [.io (.recv (.fromAP (.connect c))), .io (.toMW join), .io (.toAP (.connected resp)),
          .io (.toAP (.receivedItems 0 db.getSentItems))]⟩ := by
  rw [run_handle_fromAP, handleAP, handleConnect, Proc.run_emit_bind, hc]
  simp only [Proc.run_read_bind, Proc.run_emit_bind, Proc.run_pure, Run.cons_mk]
  exact ⟨_, _, rfl⟩

theorem run_handle_confirm (m : DataSendConfirmMessage) :
    (handle cfg env sess (.fromMW (.dataSendConfirm m))).run db =
      ⟨.ok sess, [.io (.recv (.fromMW (.dataSendConfirm m))),
        .commit (.confirmItem (env.bindString m.label) (env.bindString m.content)
          m.toPlayer.toInt)]⟩ := by
  rw [run_handle_fromMW, handleMW, confirmItem, Proc.run_commit_ok (apply_confirmItem _ _ _)]
  rfl

theorem Savefile.Behind.refl (db : Savefile) : db.Behind db := ⟨rfl, rfl, rfl, List.Subset.refl _⟩

theorem Savefile.Behind.trans {db₁ db₂ : Savefile} (h : db.Behind db₁) (h' : db₁.Behind db₂) :
    db.Behind db₂ :=
  ⟨h'.setup.trans h.setup, h'.cleared.trans h.cleared, h'.sent.trans h.sent,
    List.Subset.trans h'.queue h.queue⟩

/-- A confirmation only takes from the queue. -/
theorem behind_confirmItem (label content : SqlText) (toPlayer : Int) :
    db.Behind (write db (.confirmItem label content toPlayer)) := by
  rw [write_of_ok (apply_confirmItem _ _ _)]
  exact ⟨rfl, rfl, rfl, fun u hu => (Table.mem_delete.mp hu).1⟩

theorem run_confirms (cfg : Config) (env : Env) (confirms : List DataSendConfirmMessage) (hs : s.session = some sess) :
    ∃ db' u, Runs.run (step cfg) s
        (confirms.map fun m => .handle env (.fromMW (.dataSendConfirm m))) =
          ⟨db', some sess, s.history ++ u⟩ ∧
      s.db.Behind db' ∧ sends (commits u) = [] ∧ (confirms = [] → db' = s.db) := by
  induction confirms generalizing s with
  | nil => exact ⟨s.db, [], by simp [← hs], .refl s.db, rfl, fun _ => rfl⟩
  | cons m confirms ih =>
    obtain ⟨db', u, hrun, hbehind, hsends, -⟩ :=
      ih (s := step cfg s (.handle env (.fromMW (.dataSendConfirm m))))
        (by simp only [step, hs, run_handle_confirm]; rfl)
    rw [List.map_cons, Runs.run_cons, hrun]
    simp only [step, hs, run_handle_confirm] at hbehind ⊢
    refine ⟨db', _, by rw [List.append_assoc], (behind_confirmItem _ _ _).trans hbehind, ?_, by simp⟩
    rw [commits_append, sends_append, hsends]
    rfl

/-- A restart and a `Connect` give the session of before, but for its keys. -/
theorem run_reconnect (hroom : cfg.openRoom s.db.toSetupTables = .ok sess.toRoom) (env : Env)
    {c : Connect} (hc : c.itemsHandling = some sess.itemHandling) :
    ∃ u, Runs.run (step cfg) s [.connect, .handle env (.fromAP (.connect c))] =
      ⟨s.db, some { sess with watchedKeys := [] }, s.history ++ u⟩ ∧ commits u = [] := by
  obtain ⟨join, resp, hconnect⟩ := run_handle_connect cfg env sess.toRoom.enter s.db hc
  have hopen : step cfg s .connect = ⟨s.db, some sess.toRoom.enter, s.history ++
      [.io (.toMW (.connect ⟨[]⟩)), .io (.toAP (.roomInfo sess.games sess.checksums))]⟩ := by
    simp only [step, hroom]
  refine ⟨[.io (.toMW (.connect ⟨[]⟩)), .io (.toAP (.roomInfo sess.games sess.checksums))] ++
    [.io (.recv (.fromAP (.connect c))), .io (.toMW join), .io (.toAP (.connected resp)),
      .io (.toAP (.receivedItems 0 s.db.getSentItems))], ?_, rfl⟩
  rw [Runs.run_cons, Runs.run_cons, Runs.run_nil, hopen]
  simp only [step, hconnect, replay_io, replay_nil, List.append_assoc]
  rfl

/-- The state in which the message is handled again: the flags are those of
before, and the savefile is what the kill and the confirmations left. -/
theorem run_until_again (ho : s.Opened cfg) (hs : s.session = some sess) {ids : List Int}
    {r : Except Stop Unit} {t : Trace} (h : Checks cfg env sess s.db ids r t) (w n : Nat)
    {c : Connect} (hc : c.itemsHandling = some sess.itemHandling)
    (confirms : List DataSendConfirmMessage) :
    ∃ db' u, Runs.run (step cfg) s
        ([.kill env (.fromAP (.locationChecks ids)) w n, .connect,
            .handle env (.fromAP (.connect c))] ++
          confirms.map fun m => .handle env (.fromMW (.dataSendConfirm m))) =
          ⟨db', some { sess with watchedKeys := [] }, s.history ++ u⟩ ∧
      (perform s.db ((commits t).take w)).Behind db' ∧
      sends (commits u) = sends ((commits t).take w) ∧
      (confirms = [] → db' = perform s.db ((commits t).take w)) := by
  have hrun := run_handle_locationChecks h sess.watchedKeys
  have hkill : step cfg s (.kill env (.fromAP (.locationChecks ids)) w n) =
      ⟨perform s.db ((commits t).take w), none,
        s.history ++ cut w n (.io (.recv (.fromAP (.locationChecks ids))) :: t)⟩ := by
    simp only [step, hs, hrun]
    rw [replay_cut, commits_io]
  have hroom : cfg.openRoom (perform s.db ((commits t).take w)).toSetupTables = .ok sess.toRoom := by
    rw [perform_toSetupTables]
    exact ho sess hs
  obtain ⟨u₁, hreconnect, hu₁⟩ := run_reconnect (s := ⟨perform s.db ((commits t).take w), none,
    s.history ++ cut w n (.io (.recv (.fromAP (.locationChecks ids))) :: t)⟩) hroom env hc
  obtain ⟨db', u₂, hconfirms, hbehind, hsends, hnil⟩ := run_confirms cfg env confirms
    (s := ⟨perform s.db ((commits t).take w), some { sess with watchedKeys := [] },
      s.history ++ cut w n (.io (.recv (.fromAP (.locationChecks ids))) :: t) ++ u₁⟩) rfl
  refine ⟨db', cut w n (.io (.recv (.fromAP (.locationChecks ids))) :: t) ++ (u₁ ++ u₂), ?_,
    hbehind, ?_, hnil⟩
  · rw [List.cons_append, Runs.run_cons, hkill, Runs.run_append, hreconnect, hconfirms]
    simp only [List.append_assoc]
  · rw [commits_append, commits_append, sends_append, sends_append, hu₁, hsends, commits_cut,
      commits_io]
    simp [sends]

/-- The end of a recovery, from what its last message does. -/
theorem run_recovery (ho : s.Opened cfg) (hs : s.session = some sess) {ids : List Int}
    {r : Except Stop Unit} {t : Trace} (h : Checks cfg env sess s.db ids r t) (w n : Nat)
    {c : Connect} (hc : c.itemsHandling = some sess.itemHandling)
    (confirms : List DataSendConfirmMessage) :
    ∃ db', (perform s.db ((commits t).take w)).Behind db' ∧
      (confirms = [] → db' = perform s.db ((commits t).take w)) ∧
      ∀ r' t', Checks cfg env sess db' ids r' t' →
        let s' := Runs.run (step cfg) s (recovery env ids w n c confirms)
        (s'.session.isSome = true ↔ r' = .ok ()) ∧ s'.db = replay db' t' ∧
          sends (commits (s'.history.drop s.history.length)) =
            sends ((commits t).take w) ++ sends (commits t') := by
  obtain ⟨db', u, hagain, hbehind, hsends, hnil⟩ := run_until_again ho hs h w n hc confirms
  refine ⟨db', hbehind, hnil, fun r' t' h' => ?_⟩
  have hlast : Runs.run (step cfg) s (recovery env ids w n c confirms) =
      ⟨replay db' t', (r'.map fun _ => ({ sess with watchedKeys := [] } : Session)).toOption,
        s.history ++ (u ++ .io (.recv (.fromAP (.locationChecks ids))) :: t')⟩ := by
    rw [recovery, Runs.run_append, hagain, Runs.run_cons, Runs.run_nil]
    simp only [step, run_handle_locationChecks h' [], List.append_assoc]
    rfl
  rw [hlast]
  refine ⟨?_, rfl, ?_⟩
  · cases r' with
    | error e => simp [Except.map, Except.toOption]
    | ok a => simp [Except.map, Except.toOption]
  · rw [List.drop_left, commits_append, sends_append, hsends, commits_io]

/-- A kill in a message of location checks is harmless exactly if it comes
between locations, and no location of the message is in conflict. -/
theorem interrupted_check_harmless_iff (cfg : Config) (env : Env) {db : Savefile}
    {es : List Event} {sess : Session} (hs : (play cfg db es).session = some sess)
    (ids : List Int) {w : Nat}
    (hw : w ≤ (commits ((handle cfg env sess (.fromAP (.locationChecks ids))).run
      (play cfg db es).db).trace).length) :
    Harmless cfg (play cfg db es) sess env ids w ↔
      Even w ∧ NoConflict env sess.playerID (play cfg db es).db ids := by
  have ho := opened_play cfg db es
  generalize play cfg db es = s at *
  obtain ⟨r, t, h⟩ : ∃ r t, Checks cfg env sess s.db ids r t := ⟨_, _, checks_run ids s.db⟩
  have hrun := run_handle_locationChecks h sess.watchedKeys
  have hlen : w ≤ (commits t).length := by
    have hw' := hw
    rw [hrun] at hw'
    exact hw'
  have honce : (step cfg s (.handle env (.fromAP (.locationChecks ids)))).db = replay s.db t := by
    simp only [step, hs, hrun]
    rfl
  constructor
  · intro hh
    -- without confirmations the message finds what the kill left
    obtain ⟨db', -, hnil, hlast⟩ :=
      run_recovery ho hs h w 0 (c := ⟨some sess.itemHandling, false⟩) rfl []
    obtain rfl := hnil rfl
    obtain ⟨r', t', h'⟩ : ∃ r' t', Checks cfg env sess (perform s.db ((commits t).take w)) ids r' t' :=
      ⟨_, _, checks_run ids _⟩
    obtain ⟨hsome, hdb, -⟩ := hlast r' t' h'
    obtain ⟨hopen, hsent, -, -⟩ := hh 0 ⟨some sess.itemHandling, false⟩ [] rfl
    have hr' : r' = .ok () := hsome.mp hopen
    rw [hdb, honce] at hsent
    have heven : Even w := by
      by_contra hodd
      obtain ⟨j, rfl⟩ := Nat.not_even_iff_odd.mp hodd
      rcases h.broken hlen h' with hfail | hrows
      · exact hfail hr'
      · exact hrows hsent
    obtain ⟨j, hj⟩ := heven
    rw [← two_mul] at hj
    subst hj
    obtain ⟨t₂, h₂, -⟩ := h.resume hlen
    exact ⟨⟨j, two_mul j⟩, h.ok_iff.mp (h₂.ok_iff.mpr (h'.ok_iff.mp hr'))⟩
  · rintro ⟨⟨j, hj⟩, hno⟩ n c confirms hc
    rw [← two_mul] at hj
    subst hj
    obtain ⟨db', hbehind, -, hlast⟩ := run_recovery ho hs h (2 * j) n hc confirms
    -- the message goes through, so it does the rest, and confirmations change nothing
    obtain ⟨t₂, h₂, hdrop⟩ := h.resume hlen
    obtain ⟨h', hend⟩ := h₂.confirmed (h.ok_iff.mpr hno) hbehind
    obtain ⟨hsome, hdb, hsends⟩ := hlast r t₂ h'
    have hall : replay (perform s.db ((commits t).take (2 * j))) t₂ = replay s.db t := by
      rw [replay_eq_perform, hdrop, ← perform_append, List.take_append_drop, ← replay_eq_perform]
    rw [hall] at hend
    refine ⟨hsome.mpr (h.ok_iff.mpr hno), ?_, ?_, ?_⟩
    · rw [hdb, honce]
      exact hend.sent
    · rw [hdb, honce]
      exact hend.cleared
    · rw [hsends, hdrop, ← sends_append, List.take_append_drop]
      exact (List.nodup_append.mp h.nodup_sends).2.1

end Recovery

/-- A kill after the sword is sent and its location cleared, and before the lamp. -/
theorem interrupted_check_harmless_sample : ∃ db,
    createSavefile (Env.inOrder false) sampleResult [] = .ok db ∧
      ∃ sess, (play sampleConfig db [.connect]).session = some sess ∧
        Harmless sampleConfig (play sampleConfig db [.connect]) sess (Env.inOrder false) [7, 8] 2 := by
  obtain ⟨db, h, hsome⟩ := exists_created
    (x := createSavefile (Env.inOrder false) sampleResult [])
    (P := fun db => (play sampleConfig db [.connect]).session.any (fun sess =>
      decide (2 ≤ (commits ((handle sampleConfig (Env.inOrder false) sess
        (.fromAP (.locationChecks [7, 8]))).run (play sampleConfig db [.connect]).db).trace).length) &&
      ((handleLocationChecks sampleConfig (Env.inOrder false) sess [7, 8]).run
        (play sampleConfig db [.connect]).db).result.isOk) = true)
    (by decide +kernel)
  obtain ⟨sess, hs, hboth⟩ := (Option.any_eq_true _ _).mp hsome
  obtain ⟨hw, hok⟩ := Bool.and_eq_true_iff.mp hboth
  have hresult : ((handleLocationChecks sampleConfig (Env.inOrder false) sess [7, 8]).run
      (play sampleConfig db [.connect]).db).result = .ok () := by
    cases hr : ((handleLocationChecks sampleConfig (Env.inOrder false) sess [7, 8]).run
        (play sampleConfig db [.connect]).db).result with
    | ok a => rfl
    | error e =>
      rw [hr] at hok
      cases hok
  refine ⟨db, h, sess, hs, ?_⟩
  exact (interrupted_check_harmless_iff sampleConfig (Env.inOrder false) hs [7, 8]
    (of_decide_eq_true hw)).mpr ⟨⟨1, rfl⟩, (checks_run [7, 8] _).ok_iff.mp hresult⟩

/-- A kill after the lamp is appended and before its location is cleared: the
same check appends it again. -/
theorem interrupted_check_harmful : ∃ db,
    createSavefile (Env.inOrder false) sampleResult [] = .ok db ∧
      ∃ sess, (play sampleConfig db [.connect]).session = some sess ∧
        1 < (commits ((handle sampleConfig (Env.inOrder false) sess (.fromAP
          (.locationChecks [8]))).run (play sampleConfig db [.connect]).db).trace).length ∧
        ¬ Harmless sampleConfig (play sampleConfig db [.connect]) sess (Env.inOrder false) [8] 1 := by
  obtain ⟨db, h, hsome, hsent⟩ := exists_created
    (x := createSavefile (Env.inOrder false) sampleResult [])
    (P := fun db => (play sampleConfig db [.connect]).session.any (fun sess =>
      decide (1 < (commits ((handle sampleConfig (Env.inOrder false) sess
        (.fromAP (.locationChecks [8]))).run (play sampleConfig db [.connect]).db).trace).length) &&
      decide (sess.itemHandling = 0)) = true ∧
      (Runs.run (step sampleConfig) (play sampleConfig db [.connect])
        (recovery (Env.inOrder false) [8] 1 0 ⟨some 0, false⟩ [])).db.sentItems ≠
      (step sampleConfig (play sampleConfig db [.connect])
        (.handle (Env.inOrder false) (.fromAP (.locationChecks [8])))).db.sentItems)
    (by decide +kernel)
  obtain ⟨sess, hs, hboth⟩ := (Option.any_eq_true _ _).mp hsome
  obtain ⟨hlen, hflags⟩ := Bool.and_eq_true_iff.mp hboth
  refine ⟨db, h, sess, hs, of_decide_eq_true hlen, fun hharmless => hsent ?_⟩
  have hmode : (some 0 : Option ItemHandlingMode) = some sess.itemHandling := by
    rw [of_decide_eq_true hflags]
  exact (hharmless 0 ⟨some 0, false⟩ [] hmode).2.1

end Isthmus
