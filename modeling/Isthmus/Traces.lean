import Isthmus.Play
import Isthmus.Writes

/-!
# The pieces of a trace

The effects of the operations that the handlers share: appending to the log,
telling the client, and queueing the send of an item.
-/

namespace Isthmus

open Process Mwproto Approto

abbrev Trace := List (Effect Commit Io)

/-! ## The log and the client -/

/-- The index reported for items that are appended to the log. -/
def Savefile.sentIndex (db : Savefile) (items : List (NetworkItem × Origin)) : Int :=
  insertedIndex db.sentItems.length items

/-- The rows appended for items. -/
def sentRows (items : List (NetworkItem × Origin)) : List SentRow :=
  items.map fun p => sentRow p.1 p.2

theorem run_addSentItems (items : List (NetworkItem × Origin)) (db : Savefile) :
    (addSentItems items : Handler Int).run db =
      ⟨.ok (db.sentIndex items), [.commit (.addSentItems (sentRows items))]⟩ := by
  rw [addSentItems, Proc.run_read_bind, Proc.run_commit_bind_ok (apply_addSentItems _ _)]
  rfl

/-- What the client is told of appended items under its flags. -/
def Session.notice (sess : Session) (flag : ItemHandlingMode) (index : Int)
    (items : List NetworkItem) : Trace :=
  if sess.itemHandling.has flag then [.io (.toAP (.receivedItems index items))] else []

theorem run_notify (sess : Session) (flag : ItemHandlingMode) (index : Int)
    (items : List NetworkItem) (db : Savefile) :
    (sess.notify flag index items).run db = ⟨.ok (), sess.notice flag index items⟩ := by
  by_cases h : sess.itemHandling.has flag = true
  · simp [Session.notify, Session.notice, h]
  · simp [Session.notify, Session.notice, h]

@[simp] theorem commits_notice (sess : Session) (flag : ItemHandlingMode) (index : Int)
    (items : List NetworkItem) : commits (sess.notice flag index items) = [] := by
  by_cases h : sess.itemHandling.has flag = true
  · simp [Session.notice, h]
  · simp [Session.notice, h]

@[simp] theorem replay_notice (sess : Session) (flag : ItemHandlingMode) (index : Int)
    (items : List NetworkItem) (db : Savefile) :
    replay db (sess.notice flag index items) = db := by
  by_cases h : sess.itemHandling.has flag = true
  · simp [Session.notice, h]
  · simp [Session.notice, h]

/-! ## Sends -/

/-- The row that a send of an item leaves behind. -/
def itemRow (ownerID : Int) (name : GoString) : UnconfirmedRow :=
  ⟨labelMultiworldItem, name, ownerID⟩

/-- The row bound for the message sent for a location. -/
def sendRow (env : Env) (locID ownerID : Int) (name : GoString) : SendRow :=
  ⟨locID, some labelMultiworldItem, env.bindString name, ownerID⟩

theorem toInt_ofInt_of_fits {x : Int} (h : FitsInt32 x) : (Int32.ofInt x).toInt = x := by
  have hx : toInt32 x = x := toInt32_of_fits h
  rw [Int32.toInt_ofInt]
  exact hx

theorem getPlacedItem_fits {setup : SetupTables} {locID ownerID : Int} {name : GoString}
    (h : setup.getPlacedItem locID = some (ownerID, name)) : FitsInt32 ownerID := by
  obtain ⟨row, -, hrow⟩ := Option.map_eq_some_iff.mp h
  cases hrow
  exact fits_toInt32 _

theorem SendRow.check_sendRow {env : Env} {locID ownerID : Int} {name : GoString} :
    (sendRow env locID ownerID name).check =
      if env.BindsNull name then .error (.sql .notNull) else .ok (itemRow ownerID name) := by
  by_cases h : env.BindsNull name
  · rw [if_pos h, sendRow, Env.bindString_of_bindsNull h]
    rfl
  · rw [if_neg h, sendRow, Env.bindString_of_not h]
    rfl

section Sends

variable {env : Env} {db : Savefile} {ownerID : Int} {name : GoString} (locID : Int)

theorem apply_send_null (h : env.BindsNull name) :
    Store.apply db (.addUnconfirmedItems [sendRow env locID ownerID name]) =
      .error (.sql .notNull) := by
  simp only [Store.apply, Savefile.apply, Table.insertEach, SendRow.check_sendRow, if_pos h]

theorem apply_send_taken (h : ¬ env.BindsNull name)
    (hrow : itemRow ownerID name ∈ db.unconfirmedSentItems.rows) :
    Store.apply db (.addUnconfirmedItems [sendRow env locID ownerID name]) =
      .error (.sql .unique) := by
  have hins : db.unconfirmedSentItems.insert (itemRow ownerID name) = none :=
    Table.insert_eq_none.mpr ⟨_, hrow, rfl⟩
  simp only [Store.apply, Savefile.apply, Table.insertEach, SendRow.check_sendRow, if_neg h, hins]

theorem apply_send_new (h : ¬ env.BindsNull name)
    (hrow : itemRow ownerID name ∉ db.unconfirmedSentItems.rows) :
    ∃ t, t.rows = db.unconfirmedSentItems.rows ++ [itemRow ownerID name] ∧
      Store.apply db (.addUnconfirmedItems [sendRow env locID ownerID name]) =
        .ok { db with unconfirmedSentItems := t } := by
  cases hins : db.unconfirmedSentItems.insert (itemRow ownerID name) with
  | none =>
    obtain ⟨r, hr, hk⟩ := Table.insert_eq_none.mp hins
    have hr' : r = itemRow ownerID name := hk
    exact absurd (hr' ▸ hr) hrow
  | some t =>
    refine ⟨t, (Table.insert_eq_some.mp hins).2, ?_⟩
    simp only [Store.apply, Savefile.apply, Table.insertEach, SendRow.check_sendRow, if_neg h,
      hins]

end Sends

end Isthmus
