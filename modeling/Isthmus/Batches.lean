import Isthmus.CreateSavefile
import Isthmus.Lib.Connection
import Isthmus.Play

/-!
# Batch writes

Three functions of the savefile write their rows one by one in a transaction.
The savefile as one value takes such a batch as a whole; here the same functions
are programs over the connection, where each call can fail, so that a failure
can leave the transaction open or the statement unreset.

## Main definitions

- `Batch.clearLocations`, `Batch.addSentItems`, `Batch.addUnconfirmedItems`
- `Batch`: a call of one of them
- `Batch.Harmless`: the failures that leave nothing behind
-/

namespace Isthmus

open Mwproto Approto Calls

/-- The prepared statements of the savefile that write. -/
inductive Statement where
  | addClearedLocation
  | addSentItem
  | addUnconfirmedItem
  | setStoredData
  deriving DecidableEq

/-- A program over the connection to the savefile. -/
abbrev SavefileCalls (α : Type) := Calls Savefile Statement Stop α

/-- The connection to the savefile. -/
abbrev SavefileConn := Conn Savefile Statement

namespace Savefile

def insertClearedLocation (id : Int) (db : Savefile) : Except Stop Savefile :=
  match db.locationsCleared.insert id with
  | some t => .ok { db with locationsCleared := t }
  | none => .error (.sql .unique)

/-- The row is returned with its `item_index`. -/
def insertSentItem (row : SentRow) (db : Savefile) : Savefile × Nat :=
  ({ db with sentItems := db.sentItems ++ [row] }, db.sentItems.length + 1)

def insertUnconfirmedItem (row : SendRow) (db : Savefile) : Except Stop Savefile :=
  match row.check with
  | .error e => .error e
  | .ok r =>
    match db.unconfirmedSentItems.insert r with
    | some t => .ok { db with unconfirmedSentItems := t }
    | none => .error (.sql .unique)

end Savefile

namespace SavefileCalls

def clearLocations (ids : List Int) : SavefileCalls Unit :=
  batch .addClearedLocation (fun id => .ok (Savefile.insertClearedLocation id)) ids

/-- `execOnce` of a statement that returns one row. -/
def execOnce {α : Type} (stmt : Statement) (write : Savefile → Savefile × α) : SavefileCalls α :=
  deferReset stmt do
    let row ← step stmt fun db => .ok (write db)
    stepDone stmt
    reset stmt
    pure row

/-- The loop of `addSentItems`, from the index read so far. -/
def insertSentItems (index : Int) : List (NetworkItem × Origin) → SavefileCalls Int
  | [] => pure index
  | p :: items => do
    let rowID ← execOnce .addSentItem (Savefile.insertSentItem (sentRow p.1 p.2))
    insertSentItems (if index = -1 then toInt32 rowID - 1 else index) items

def addSentItems (items : List (NetworkItem × Origin)) : SavefileCalls Int := do
  begin
  let index ← insertSentItems (-1) items
  commit
  pure index

/-- The parameters bound for a message. -/
def unconfirmedRow (env : Env) (p : Int × DataSendMessage) : SendRow :=
  ⟨p.1, env.bindString p.2.label, env.bindString p.2.content, p.2.toPlayer.toInt⟩

def addUnconfirmedItems (env : Env) (items : List (Int × DataSendMessage)) : SavefileCalls Unit :=
  batch .addUnconfirmedItem (fun p => .ok (Savefile.insertUnconfirmedItem (unconfirmedRow env p)))
    items

end SavefileCalls

open SavefileCalls

/-- A call of one of the functions that write a batch. -/
inductive Batch where
  | clearLocations (ids : List Int)
  | addSentItems (items : List (NetworkItem × Origin))
  | addUnconfirmedItems (items : List (Int × DataSendMessage))

namespace Batch

/-- The batch as a program. The index of the first item is dropped. -/
def calls (env : Env) : Batch → SavefileCalls Unit
  | .clearLocations ids => SavefileCalls.clearLocations ids
  | .addSentItems items => do
    let _ ← SavefileCalls.addSentItems items
    pure ()
  | .addUnconfirmedItems items => SavefileCalls.addUnconfirmedItems env items

/-- The batch as one write. -/
def write (env : Env) : Batch → Commit
  | .clearLocations ids => .clearLocations ids
  | .addSentItems items => .addSentItems (items.map fun p => sentRow p.1 p.2)
  | .addUnconfirmedItems items => .addUnconfirmedItems (items.map (unconfirmedRow env))

/-- The number of rows. -/
def size : Batch → Nat
  | .clearLocations ids => ids.length
  | .addSentItems items => items.length
  | .addUnconfirmedItems items => items.length

/-- It is `BEGIN` that fails; or a call fails and SQLite rolls the transaction
back, which has to be `COMMIT` where a failed statement is left unreset. -/
def Harmless (env : Env) (b : Batch) (c : SavefileConn) : Prop :=
  c.outcome ≠ .done ∨
    match b with
    | .addSentItems _ => c.fault = some .rolledBack
    | _ => c.DoneFor (b.size + 1) ∧ (∃ db, Savefile.apply c.committed (b.write env) = .ok db) ∧
        (c.skip (b.size + 1)).outcome = .rolledBack

end Batch

/-- The tables are as they were before, a transaction can be begun, no statement
is left unreset, and closing the savefile does not panic. -/
structure Unharmed (c c' : SavefileConn) : Prop where
  content : c'.content = c.content
  transaction : c'.transaction = none
  unreset : c'.unreset = []
  closes : c'.closes = true

theorem unharmed_iff {c c' : SavefileConn} {db : Savefile} (hc : c.Clean db) :
    Unharmed c c' ↔ c'.Clean db := by
  have hbefore : c.content = db := by
    rw [Conn.content, hc.transaction, Option.getD_none, hc.committed]
  constructor
  · rintro ⟨hcontent, htransaction, hunreset, -⟩
    refine ⟨?_, htransaction, hunreset⟩
    rw [← hbefore, ← hcontent, Conn.content, htransaction, Option.getD_none]
  · rintro ⟨hdb, htransaction, hunreset⟩
    refine ⟨?_, htransaction, hunreset, ?_⟩
    · rw [hbefore, Conn.content, htransaction, Option.getD_none, hdb]
    · rw [Conn.closes, hunreset]
      rfl

/-! ## The rows of a batch -/

theorem fold_clearLocations (db : Savefile) (ids : List Int) :
    ids.foldlM (writeRow fun id => .ok (Savefile.insertClearedLocation id)) db =
      Savefile.apply db (.clearLocations ids) := by
  have hfold : ids.foldlM (writeRow fun id => .ok (Savefile.insertClearedLocation id)) db =
      (db.locationsCleared.insertEach .ok (.sql .unique) ids).map
        fun t => { db with locationsCleared := t } := by
    refine Table.foldlM_insertInto (fun t => { db with locationsCleared := t }) ?_ _ ids
    intro t id
    simp only [writeRow, Savefile.insertClearedLocation, Table.insertInto]
    cases t.insert id <;> rfl
  rw [hfold, Savefile.apply]
  cases db.locationsCleared.insertEach .ok (Stop.sql .unique) ids <;> rfl

theorem fold_addUnconfirmedItems (env : Env) (db : Savefile)
    (items : List (Int × DataSendMessage)) :
    items.foldlM
        (writeRow fun p => .ok (Savefile.insertUnconfirmedItem (unconfirmedRow env p))) db =
      Savefile.apply db (.addUnconfirmedItems (items.map (unconfirmedRow env))) := by
  induction items generalizing db with
  | nil => rfl
  | cons p items ih =>
    simp only [List.foldlM_cons, writeRow, Savefile.insertUnconfirmedItem, Savefile.apply,
      List.map_cons, Table.insertEach]
    cases hcheck : (unconfirmedRow env p).check with
    | error e => rfl
    | ok r =>
      dsimp only
      cases hinsert : db.unconfirmedSentItems.insert r with
      | none => rfl
      | some t => exact ih { db with unconfirmedSentItems := t }

/-! ## The items sent to AP -/

section Sent

variable {c c' : SavefileConn} {db : Savefile}

/-- A call of a batch in a transaction failed, and its statement was reset. -/
structure BrokenOff (c c' : SavefileConn) : Prop where
  committed : c'.committed = c.committed
  unreset : c'.unreset = []
  transaction : c'.transaction = none ↔ c.fault = some .rolledBack

theorem clear_of_unreset {stmt : Statement} (h : c.unreset = []) : c.clear stmt = c := by
  rw [Conn.clear, h, List.filter_nil, ← h]

theorem BrokenOff.of_interrupt (ht : c.transaction = some db) (hunreset : c.unreset = [])
    (ho : c.outcome ≠ .done) : BrokenOff c (c.called.interrupt c.outcome) := by
  have hfault := Conn.fault_of_outcome ho
  refine ⟨?_, (interrupt_unreset _).trans hunreset, ?_⟩
  · cases c.outcome <;> rfl
  · rw [hfault]
    cases hcase : c.outcome with
    | done => exact absurd hcase ho
    | failed =>
      have hsome : (c.called.interrupt .failed).transaction = some db := ht
      simp [hsome]
    | rolledBack => exact iff_of_true rfl rfl

/-- The calls before a failure do not matter. -/
theorem BrokenOff.of_skip (db : Savefile) {n : Nat} (hdone : c.DoneFor n)
    (h : BrokenOff ((c.skip n).working db) c') : BrokenOff c c' := by
  refine ⟨h.committed, h.unreset, h.transaction.trans ?_⟩
  rw [← Conn.fault_skip hdone]
  rfl

/-- The deferred reset undoes what a failed step leaves. -/
theorem run_deferReset_error (c₁ : SavefileConn) {α : Type} {stmt : Statement}
    {x : SavefileCalls α} {o : CallOutcome} {e : Failure Stop} (hunreset : c₁.unreset = [])
    (h : x.run c = (.error e, (c₁.leave stmt).interrupt o)) :
    (deferReset stmt x).run c = (.error e, c₁.interrupt o) := by
  have hclear : ((c₁.leave stmt).interrupt o).clear stmt = c₁.interrupt o := by
    have hleave : (c₁.leave stmt).clear stmt = c₁.clear stmt := by
      simp [Conn.leave, Conn.clear]
    calc ((c₁.leave stmt).interrupt o).clear stmt
        = ((c₁.leave stmt).clear stmt).interrupt o := by cases o <;> rfl
      _ = c₁.interrupt o := by rw [hleave, clear_of_unreset hunreset]
  show ((x.run c).1, (x.run c).2.clear stmt) = _
  rw [h, hclear]

theorem run_deferReset_ok {α : Type} {stmt : Statement} {x : SavefileCalls α} {a : α}
    {c₁ : SavefileConn} (hunreset : c₁.unreset = []) (h : x.run c = (.ok a, c₁)) :
    (deferReset stmt x).run c = (.ok a, c₁) := by
  show ((x.run c).1, (x.run c).2.clear stmt) = _
  rw [h, clear_of_unreset hunreset]

/-- One row: both of its calls are done, or the batch is broken off. -/
theorem run_execOnce {α : Type} (stmt : Statement) (f : Savefile → Savefile × α)
    (ht : c.transaction = some db) (hunreset : c.unreset = []) :
    (c.DoneFor 2 ∧ (execOnce stmt f).run c = (.ok (f db).2, (c.skip 2).working (f db).1)) ∨
      ∃ e c', (execOnce stmt f).run c = (.error e, c') ∧ BrokenOff c c' := by
  have hcontent : c.content = db := by rw [Conn.content, ht, Option.getD_some]
  by_cases ho : c.outcome = .done
  · have hput : c.called.put (f db).1 = c.called.working (f db).1 := by
      simp only [Conn.put, Conn.called, ht]
    have hstep : (step stmt fun db => (.ok (f db) : Except Stop _)).run c =
        (.ok (f db).2, c.called.working (f db).1) :=
      step_eq_ok.mpr ⟨ho, (f db).1, by rw [hcontent], hput.symm⟩
    by_cases ho' : c.called.outcome = .done
    · refine .inl ⟨Conn.doneFor_succ.mpr ⟨ho, Conn.doneFor_one.mpr ho'⟩, ?_⟩
      have hskip : c.called.called = c.skip 2 :=
        Conn.called_eq_skip.trans Conn.skip_called
      have hdone : (stepDone stmt : SavefileCalls Unit).run (c.called.working (f db).1) =
          (.ok (), (c.skip 2).working (f db).1) := by
        rw [← hskip]
        exact stepDone_of_outcome ho'
      have hreset : (reset stmt : SavefileCalls Unit).run ((c.skip 2).working (f db).1) =
          (.ok (), (c.skip 2).working (f db).1) := by
        refine reset_of_not_mem ?_
        show stmt ∉ c.unreset
        simp [hunreset]
      refine run_deferReset_ok hunreset ?_
      rw [bind_of_ok hstep, bind_of_ok hdone, bind_of_ok hreset, run_pure]
    · have hbroken : BrokenOff ((c.skip 1).working (f db).1)
          ((c.called.called.working (f db).1).interrupt c.called.outcome) := by
        rw [← Conn.called_eq_skip]
        exact .of_interrupt rfl hunreset ho'
      refine .inr ⟨.failed, _, ?_, .of_skip _ (Conn.doneFor_one.mpr ho) hbroken⟩
      refine run_deferReset_error (c.called.called.working (f db).1) hunreset ?_
      rw [bind_of_ok hstep]
      exact bind_of_error (stepDone_of_not ho')
  · refine .inr ⟨.failed, _, run_deferReset_error c.called hunreset ?_,
      .of_interrupt ht hunreset ho⟩
    exact bind_of_error (step_of_not ho)

/-- The loop: all calls are done, and the items are at the end of the table, or
the batch is broken off. -/
theorem run_insertSentItems (index : Int) (items : List (NetworkItem × Origin))
    (ht : c.transaction = some db) (hunreset : c.unreset = []) :
    (c.DoneFor (2 * items.length) ∧ (insertSentItems index items).run c =
        (.ok (if index = -1 then insertedIndex db.sentItems.length items else index),
          (c.skip (2 * items.length)).working
            { db with sentItems := db.sentItems ++ items.map fun p => sentRow p.1 p.2 })) ∨
      ∃ e c', (insertSentItems index items).run c = (.error e, c') ∧ BrokenOff c c' := by
  induction items generalizing c db index with
  | nil =>
    refine .inl ⟨Conn.doneFor_zero, ?_⟩
    have hsame : (c.skip 0).working db = c := by
      rw [Conn.working, ← ht]
      rfl
    have hindex : (if index = -1 then insertedIndex db.sentItems.length
        ([] : List (NetworkItem × Origin)) else index) = index := by
      split
      · next h => exact h.symm
      · rfl
    rw [hindex, List.map_nil, List.append_nil]
    exact congrArg (Prod.mk (Except.ok index)) hsame.symm
  | cons p items ih =>
    rw [insertSentItems]
    rcases run_execOnce .addSentItem (Savefile.insertSentItem (sentRow p.1 p.2)) ht hunreset with
      ⟨hdone, hrow⟩ | ⟨e, c', hrow, hbroken⟩
    · rw [bind_of_ok hrow]
      have hsplit : 2 * (p :: items).length = 2 + 2 * items.length := by
        rw [List.length_cons]
        omega
      have hindex (index : Int) :
          (if (if index = -1 then toInt32 (db.sentItems.length + 1) - 1 else index) = -1 then
              insertedIndex (db.sentItems.length + 1) items
            else if index = -1 then toInt32 (db.sentItems.length + 1) - 1 else index) =
          if index = -1 then insertedIndex db.sentItems.length (p :: items) else index := by
        rw [insertedIndex]
        by_cases h : index = -1
        · simp only [h, if_true]
        · simp only [h, if_false]
      rcases ih (if index = -1 then toInt32 (db.sentItems.length + 1) - 1 else index)
          (c := (c.skip 2).working (Savefile.insertSentItem (sentRow p.1 p.2) db).1) rfl
          hunreset with
        ⟨hrest, hitems⟩ | ⟨e, c', hitems, hbroken⟩
      · have hlen : (Savefile.insertSentItem (sentRow p.1 p.2) db).1.sentItems.length =
            db.sentItems.length + 1 := List.length_append
        refine .inl ⟨hsplit ▸ Conn.doneFor_add.mpr ⟨hdone, hrest⟩, hitems.trans ?_⟩
        rw [hlen, hindex, hsplit, ← Conn.skip_skip, List.map_cons, List.append_cons]
        rfl
      · exact .inr ⟨e, c', hitems, .of_skip _ hdone hbroken⟩
    · exact .inr ⟨e, c', bind_of_error hrow, hbroken⟩

/-- The items are at the end of the table, and the index is that of the first. -/
theorem run_addSentItems_ok {items : List (NetworkItem × Origin)} {index : Int}
    (hc : c.Clean db) (h : (SavefileCalls.addSentItems items).run c = (.ok index, c')) :
    index = insertedIndex db.sentItems.length items ∧
      c'.Clean { db with sentItems := db.sentItems ++ items.map fun p => sentRow p.1 p.2 } := by
  rw [SavefileCalls.addSentItems] at h
  by_cases ho : c.outcome = .done
  · rw [bind_of_ok (begin_of_outcome hc.transaction ho), hc.committed] at h
    rcases run_insertSentItems (c := c.called.working db) (-1) items rfl hc.unreset with
      ⟨-, hitems⟩ | ⟨e, c₂, hitems, -⟩
    · rw [bind_of_ok hitems] at h
      obtain ⟨_, c₂, hcommit, hpure⟩ := bind_eq_ok.mp h
      cases hpure
      by_cases hlast : ((c.called.working db).skip (2 * items.length)).outcome = .done
      · rw [commit_of_outcome hlast] at hcommit
        cases hcommit
        exact ⟨rfl, rfl, rfl, hc.unreset⟩
      · rw [commit_of_not hlast] at hcommit
        cases hcommit
    · rw [bind_of_error hitems] at h
      cases h
  · rw [bind_of_error (begin_of_not ho)] at h
    cases h

theorem run_addSentItems_error {items : List (NetworkItem × Origin)} {e : Failure Stop}
    (hc : c.Clean db) (h : (SavefileCalls.addSentItems items).run c = (.error e, c')) :
    c'.committed = db ∧ c'.unreset = [] ∧
      (c'.transaction = none ↔ c.outcome ≠ .done ∨ c.fault = some .rolledBack) := by
  rw [SavefileCalls.addSentItems] at h
  by_cases ho : c.outcome = .done
  · rw [bind_of_ok (begin_of_outcome hc.transaction ho), hc.committed] at h
    -- all but `BEGIN` is broken off with the statement reset
    suffices hbroken : BrokenOff (c.called.working db) c' by
      have hfault : (c.called.working db).fault = c.fault := Conn.fault_called ho
      rw [← hfault]
      exact ⟨hbroken.committed.trans hc.committed, hbroken.unreset,
        hbroken.transaction.trans (by simp [ho])⟩
    rcases run_insertSentItems (c := c.called.working db) (-1) items rfl hc.unreset with
      ⟨hdone, hitems⟩ | ⟨e', c₂, hitems, hbroken⟩
    · rw [bind_of_ok hitems] at h
      rcases bind_eq_error.mp h with hcommit | ⟨_, c₂, -, hpure⟩
      · by_cases hlast : ((c.called.working db).skip (2 * items.length)).outcome = .done
        · rw [commit_of_outcome hlast] at hcommit
          cases hcommit
        · rw [commit_of_not hlast] at hcommit
          cases hcommit
          exact .of_skip _ hdone (.of_interrupt rfl hc.unreset hlast)
      · cases hpure
    · rw [bind_of_error hitems] at h
      cases h
      exact hbroken
  · rw [bind_of_error (begin_of_not ho)] at h
    cases h
    exact ⟨hc.committed, hc.unreset, iff_of_true hc.transaction (.inl ho)⟩

end Sent

/-! ## Failed batches -/

section Failed

variable {env : Env} {b : Batch} {c c' : SavefileConn} {db : Savefile} {e : Failure Stop}

/-- A batch that is through is the write that it is for. -/
theorem calls_eq_ok (hc : c.Clean db) (h : (b.calls env).run c = (.ok (), c')) :
    ∃ db', Savefile.apply db (b.write env) = .ok db' ∧ c'.Clean db' := by
  have hsettled (n : Nat) (db' : Savefile) : ((c.skip n).settled db').Clean db' :=
    ⟨rfl, rfl, hc.unreset⟩
  cases b with
  | clearLocations ids =>
    obtain ⟨-, db', hfold, rfl⟩ := (batch_eq_ok hc).mp h
    exact ⟨db', (fold_clearLocations db ids).symm.trans hfold, hsettled _ _⟩
  | addSentItems items =>
    obtain ⟨_, c₁, hitems, hpure⟩ := bind_eq_ok.mp h
    cases hpure
    exact ⟨_, rfl, (run_addSentItems_ok hc hitems).2⟩
  | addUnconfirmedItems items =>
    obtain ⟨-, db', hfold, rfl⟩ := (batch_eq_ok hc).mp h
    exact ⟨db', (fold_addUnconfirmedItems env db items).symm.trans hfold, hsettled _ _⟩

/-- After an error a batch has left nothing behind if and only if the failure was
a harmless one. -/
theorem failed_batch_unharmed_iff (hc : c.Clean db) (h : (b.calls env).run c = (.error e, c')) :
    Unharmed c c' ↔ b.Harmless env c := by
  rw [unharmed_iff hc]
  unfold Batch.Harmless
  rw [hc.committed]
  cases b with
  | clearLocations ids =>
    rw [clean_batch_iff (fun id => ⟨_, rfl⟩) hc h, fold_clearLocations]
    rfl
  | addSentItems items =>
    rcases bind_eq_error.mp h with hitems | ⟨_, c₁, -, hpure⟩
    · obtain ⟨hcommitted, hunreset, htransaction⟩ := run_addSentItems_error hc hitems
      rw [← htransaction]
      exact ⟨fun hclean => hclean.transaction, fun hnone => ⟨hcommitted, hnone, hunreset⟩⟩
    · cases hpure
  | addUnconfirmedItems items =>
    rw [clean_batch_iff (fun p => ⟨_, rfl⟩) hc h, fold_addUnconfirmedItems]
    rfl

/-- A connection on which the calls end as listed. -/
def Conn.idle (db : Savefile) (outcomes : List CallOutcome) : SavefileConn :=
  ⟨db, none, [], outcomes⟩

/-- Where it is `COMMIT` that makes SQLite roll back, nothing is left behind. -/
theorem failed_batch_unharmed_iff_sample :
    Unharmed (Conn.idle emptySavefile [.done, .done, .rolledBack])
      (((Batch.clearLocations [7]).calls (.inOrder false)).run
        (Conn.idle emptySavefile [.done, .done, .rolledBack])).2 := by
  have hdone : (Conn.idle emptySavefile [.done, .done, .rolledBack]).DoneFor 2 :=
    Conn.doneFor_succ.mpr ⟨rfl, Conn.doneFor_one.mpr rfl⟩
  have hharmless : (Batch.clearLocations [7]).Harmless (.inOrder false)
      (Conn.idle emptySavefile [.done, .done, .rolledBack]) := .inr ⟨hdone, ⟨_, rfl⟩, rfl⟩
  exact (failed_batch_unharmed_iff ⟨rfl, rfl, rfl⟩ rfl).mpr hharmless

/-- Two locations have the same item of the other player. -/
def swordsResult : ResultMessage :=
  { sampleResult with
    placements := (∅ : GoMap GoString (List ResultPlacement)).insert singularItemGroup
      [⟨lit "MW(1)_Sword", lit "Gate_(7)"⟩, ⟨lit "MW(1)_Sword", lit "Well_(8)"⟩] }

/-- What a release queues. -/
def Savefile.releaseBatch (db : Savefile) (playerID : Int) : Batch :=
  .addUnconfirmedItems ((db.releasable playerID).map fun p =>
    (p.apLocationID, sendMessage p.ownerID p.name))

/-- A release of two locations with the same item leaves the transaction open and the
statement unreset: nothing can be begun any more, and closing panics. -/
theorem release_twice_harms : ∃ db, createSavefile (.inOrder false) swordsResult [] = .ok db ∧
    (((db.releaseBatch 0).calls (.inOrder false)).run (Conn.idle db [])).1 =
        .error (.refused (.sql .unique)) ∧
      ¬ Unharmed (Conn.idle db [])
        (((db.releaseBatch 0).calls (.inOrder false)).run (Conn.idle db [])).2 := by
  obtain ⟨db, h, herror, hopen⟩ := exists_created
    (x := createSavefile (.inOrder false) swordsResult [])
    (P := fun db => (((db.releaseBatch 0).calls (.inOrder false)).run (Conn.idle db [])).1 =
        .error (.refused (.sql .unique)) ∧
      (((db.releaseBatch 0).calls (.inOrder false)).run (Conn.idle db [])).2.transaction.isSome)
    (by decide +kernel)
  refine ⟨db, h, herror, fun hunharmed => ?_⟩
  rw [hunharmed.transaction] at hopen
  cases hopen

end Failed

end Isthmus
