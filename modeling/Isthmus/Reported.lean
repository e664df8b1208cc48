import Isthmus.Batches
import Isthmus.DataStorage
import Isthmus.Lib.Accesses

/-!
# Reported writes of the data storage

What a client sees of the data storage: the values that `Get` finds, and the new
values that `SetReply` reports. They are a consistent history while every write
that is reported reaches the savefile, which `updateDataStorage` does not ask for:
it drops the error of the write.

## Main definitions

- `SavefileCalls.updateDataStorage`: `updateDataStorage` over the connection
- `StorageMessage.handle`: what the play loop does with a `Set` or a `Get`
- `StoresWhatItReports`: a `Set` whose write reaches the savefile
-/

namespace Isthmus

open Approto Calls

namespace SavefileCalls

/-- A step for the row, and one after it if there is a row. -/
def getStoredData (env : Env) (key : GoString) : SavefileCalls (Option GoString) := do
  let row ← query fun db => db.getStoredData env key
  match row with
  | none => pure none
  | some data => do
    query fun _ => ()
    pure (some data)

def setStoredData (env : Env) (key data : GoString) : SavefileCalls Unit :=
  deferReset .setStoredData do
    exec .setStoredData fun db =>
      Savefile.apply db (.setStoredData (env.bindString key) (env.bindString data))
    reset .setStoredData

/-- The bytes before and after. The error of the write is assigned, but nil is
returned. -/
def updateDataStorage (rt : Interpreter) (env : Env) (m : SetMessage) :
    SavefileCalls (Option GoString × GoString) :=
  if readOnlyKeyPrefix.isPrefixOf m.key then refuse .malformed
  else do
    let origBytes ← getStoredData env m.key
    match rt.evaluate origBytes m with
    | .error .panic => crash
    | .error e => refuse e
    | .ok newBytes => do
      ignore (setStoredData env m.key newBytes)
      pure (origBytes, newBytes)

/-- The loop of a `Get` over its keys, but for the read-only ones. -/
def getAll (env : Env) : List GoString → SavefileCalls (List (GoString × Option GoString))
  | [] => pure []
  | key :: keys =>
    if readOnlyKeyPrefix.isPrefixOf key then getAll env keys
    else do
      let data ← getStoredData env key
      let rest ← getAll env keys
      pure ((key, data) :: rest)

end SavefileCalls

inductive StorageMessage where
  | set (m : SetMessage)
  | get (keys : List GoString)

/-- What is seen of a message: a `Set` reports the bytes before and after, a `Get`
what it finds. After an error of a `Get`, and after a panic, the loop is left. -/
def StorageMessage.handle (rt : Interpreter) (env : Env) (c : SavefileConn) :
    StorageMessage → Reaction SavefileConn GoString GoString
  | .set m =>
    match (SavefileCalls.updateDataStorage rt env m).run c with
    | (.ok (oldValue, newValue), c') =>
      ⟨[.found m.key oldValue, .reported m.key newValue], c', false⟩
    | (.error e, c') => ⟨[], c', e = .panicked⟩
  | .get keys =>
    match (SavefileCalls.getAll env keys).run c with
    | (.ok values, c') => ⟨values.map fun p => .found p.1 p.2, c', false⟩
    | (.error _, c') => ⟨[], c', true⟩

/-- What the queries find, by key. -/
def dataStorageOf (env : Env) (c : SavefileConn) : GoString → Option GoString :=
  c.content.getStoredData env

/-- If the `Set` computes a value, then the call that writes it is done, and its key
is not bound as NULL. -/
def StoresWhatItReports (rt : Interpreter) (env : Env) (c : SavefileConn) : StorageMessage → Prop
  | .set m => ∀ oldValue newValue c₁,
    (SavefileCalls.getStoredData env m.key).run c = (.ok oldValue, c₁) →
      rt.evaluate oldValue m = .ok newValue → c₁.outcome = .done ∧ ¬ env.BindsNull m.key
  | .get _ => True

section Calls

variable {rt : Interpreter} {env : Env} {c c' : SavefileConn} {key : GoString}

theorem getStoredData_spec {r : Except (Failure Stop) (Option GoString)}
    (ht : c.transaction = none) (h : (SavefileCalls.getStoredData env key).run c = (r, c')) :
    c.Rests c' ∧ ∀ v, r = .ok v → dataStorageOf env c key = v := by
  rw [SavefileCalls.getStoredData] at h
  rcases hrow : (query fun db : Savefile => db.getStoredData env key : SavefileCalls _).run c with
    ⟨r₁, c₁⟩
  have hrests := rests_query ht hrow
  cases r₁ with
  | error e =>
    rw [bind_of_error hrow] at h
    cases h
    exact ⟨hrests, fun v hv => by cases hv⟩
  | ok row =>
    obtain ⟨-, hvalue, -⟩ := query_eq_ok.mp hrow
    rw [bind_of_ok hrow] at h
    cases row with
    | none =>
      cases h
      exact ⟨hrests, fun v hv => by cases hv; exact hvalue.symm⟩
    | some data =>
      rcases hlast : (query fun _ : Savefile => () : SavefileCalls Unit).run c₁ with ⟨r₂, c₂⟩
      have hrests' := hrests.trans (rests_query hrests.transaction hlast)
      cases r₂ with
      | error e =>
        rw [bind_of_error hlast] at h
        cases h
        exact ⟨hrests', fun v hv => by cases hv⟩
      | ok _ =>
        rw [bind_of_ok hlast] at h
        cases h
        exact ⟨hrests', fun v hv => by cases hv; exact hvalue.symm⟩

theorem getAll_spec {keys : List GoString}
    {r : Except (Failure Stop) (List (GoString × Option GoString))} (ht : c.transaction = none)
    (h : (SavefileCalls.getAll env keys).run c = (r, c')) :
    c.Rests c' ∧ ∀ values, r = .ok values → ∀ p ∈ values, dataStorageOf env c p.1 = p.2 := by
  induction keys generalizing c c' r with
  | nil =>
    cases h
    exact ⟨⟨rfl, ht⟩, fun values hv => by cases hv; simp⟩
  | cons key keys ih =>
    rw [SavefileCalls.getAll] at h
    split at h
    · exact ih ht h
    · rcases hkey : (SavefileCalls.getStoredData env key).run c with ⟨r₁, c₁⟩
      obtain ⟨hrests, hdata⟩ := getStoredData_spec ht hkey
      have hsame : dataStorageOf env c₁ = dataStorageOf env c := by
        rw [dataStorageOf, dataStorageOf, Conn.content_of_none hrests.transaction,
          Conn.content_of_none ht, hrests.committed]
      cases r₁ with
      | error e =>
        rw [bind_of_error hkey] at h
        cases h
        exact ⟨hrests, fun values hv => by cases hv⟩
      | ok data =>
        rw [bind_of_ok hkey] at h
        rcases hrest : (SavefileCalls.getAll env keys).run c₁ with ⟨r₂, c₂⟩
        obtain ⟨hrests', hvalues⟩ := ih hrests.transaction hrest
        cases r₂ with
        | error e =>
          rw [bind_of_error hrest] at h
          cases h
          exact ⟨hrests.trans hrests', fun values hv => by cases hv⟩
        | ok rest =>
          rw [bind_of_ok hrest] at h
          cases h
          refine ⟨hrests.trans hrests', fun values hv => ?_⟩
          cases hv
          intro p hp
          rcases List.mem_cons.mp hp with rfl | hp
          · exact hdata data rfl
          · exact hsame ▸ hvalues rest rfl p hp

/-- The write of a row, under one key. -/
theorem getStoredData_upsert {db : Savefile} {b : GoString} (hkey : ¬ env.BindsNull key) :
    Savefile.getStoredData { db with dataStorage := db.dataStorage.upsert ⟨key, b⟩ } env =
      Function.update (db.getStoredData env) key (some b) := by
  funext k
  by_cases hk : k = key
  · subst hk
    have hfind := Table.find_upsert db.dataStorage ⟨k, b⟩
    rw [Function.update_self, Savefile.getStoredData, Env.bindString_of_not hkey, Option.bind_some,
      hfind, Option.map_some]
  · rw [Function.update_of_ne hk]
    by_cases hnull : env.BindsNull k
    · rw [Savefile.getStoredData, Savefile.getStoredData, Env.bindString_of_bindsNull hnull]
      rfl
    · have hfind : (db.dataStorage.upsert ⟨key, b⟩).find k = db.dataStorage.find k :=
        Table.find_upsert_of_ne (Ne.symm hk)
      rw [Savefile.getStoredData, Savefile.getStoredData, Env.bindString_of_not hnull,
        Option.bind_some, Option.bind_some, hfind]

/-- A write that is done puts the bytes under the key. -/
theorem setStoredData_spec {b : GoString} (ht : c.transaction = none) (ho : c.outcome = .done)
    (hkey : ¬ env.BindsNull key) (hb : b ≠ [])
    (h : (ignore (SavefileCalls.setStoredData env key b)).run c = (.ok (), c')) :
    c'.transaction = none ∧
      dataStorageOf env c' = Function.update (dataStorageOf env c) key (some b) := by
  have hwrite : Savefile.apply c.content
      (.setStoredData (env.bindString key) (env.bindString b)) =
      .ok { c.content with dataStorage := c.content.dataStorage.upsert ⟨key, b⟩ } := by
    rw [Env.bindString_of_not hkey, Env.bindString_of_not fun hnull => hb hnull.2]
    rfl
  have hput (db : Savefile) : c.called.put db = c.called.settled db := by
    simp only [Conn.put, Conn.called, ht]
  have hexec : (exec Statement.setStoredData fun db => Savefile.apply db
      (.setStoredData (env.bindString key) (env.bindString b))).run c = (.ok (), c.called.settled
        { c.content with dataStorage := c.content.dataStorage.upsert ⟨key, b⟩ }) := by
    rw [exec, step_eq_ok, hwrite]
    exact ⟨ho, _, rfl, (hput _).symm⟩
  have hrun : c' = ((c.called.settled { c.content with
      dataStorage := c.content.dataStorage.upsert ⟨key, b⟩ }).clear .setStoredData).clear
        .setStoredData := by
    refine (congrArg Prod.snd h).symm.trans ?_
    show ((exec Statement.setStoredData _ >>= fun _ => reset .setStoredData).run c).2.clear _ = _
    rw [bind_of_ok hexec]
    rfl
  subst hrun
  refine ⟨rfl, ?_⟩
  exact getStoredData_upsert hkey

theorem evaluate_ne_nil {orig : Option GoString} {m : SetMessage} {b : GoString}
    (h : rt.evaluate orig m = .ok b) : b ≠ [] := by
  unfold Interpreter.evaluate at h
  split at h
  · cases h
  · split at h
    · cases h
    · split at h
      · cases h
      · next hmarshal =>
        cases h
        exact rt.marshal_ne_nil _ _ hmarshal

/-- An error leaves the data storage as it was; else the new bytes were to be
written after the old were found. -/
theorem updateDataStorage_spec {m : SetMessage}
    {r : Except (Failure Stop) (Option GoString × GoString)} (ht : c.transaction = none)
    (h : (SavefileCalls.updateDataStorage rt env m).run c = (r, c')) :
    (∃ e, r = .error e) ∧ c.Rests c' ∨ ∃ oldValue newValue c₁, r = .ok (oldValue, newValue) ∧
      (SavefileCalls.getStoredData env m.key).run c = (.ok oldValue, c₁) ∧
      rt.evaluate oldValue m = .ok newValue ∧
      (ignore (SavefileCalls.setStoredData env m.key newValue)).run c₁ = (.ok (), c') := by
  unfold SavefileCalls.updateDataStorage at h
  split at h
  · cases h
    exact .inl ⟨⟨_, rfl⟩, rfl, ht⟩
  · rcases hread : (SavefileCalls.getStoredData env m.key).run c with ⟨r₁, c₁⟩
    have hrests := (getStoredData_spec ht hread).1
    cases r₁ with
    | error e =>
      rw [bind_of_error hread] at h
      cases h
      exact .inl ⟨⟨_, rfl⟩, hrests⟩
    | ok oldValue =>
      rw [bind_of_ok hread] at h
      split at h
      · cases h
        exact .inl ⟨⟨_, rfl⟩, hrests⟩
      · cases h
        exact .inl ⟨⟨_, rfl⟩, hrests⟩
      · next newValue heval =>
        cases h
        exact .inr ⟨oldValue, newValue, c₁, rfl, rfl, heval, rfl⟩

/-- A message whose write is done is reported as it is stored. -/
theorem handle_faithful {m : StorageMessage} (ht : c.transaction = none)
    (h : StoresWhatItReports rt env c m) :
    (m.handle rt env c).Faithful (dataStorageOf env) c ∧
      (m.handle rt env c).state.transaction = none := by
  have hsame {c₁ : SavefileConn} (hrests : c.Rests c₁) :
      dataStorageOf env c₁ = dataStorageOf env c := by
    rw [dataStorageOf, dataStorageOf, Conn.content_of_none hrests.transaction,
      Conn.content_of_none ht, hrests.committed]
  cases m with
  | get keys =>
    rw [StorageMessage.handle]
    rcases hall : (SavefileCalls.getAll env keys).run c with ⟨r, c'⟩
    obtain ⟨hrests, hvalues⟩ := getAll_spec ht hall
    cases r with
    | error e => exact ⟨⟨trivial, hsame hrests⟩, hrests.transaction⟩
    | ok values =>
      obtain ⟨hcons, hreplay⟩ := Access.consistent_found (hvalues values rfl)
      exact ⟨⟨hcons, (hsame hrests).trans hreplay.symm⟩, hrests.transaction⟩
  | set m =>
    rw [StorageMessage.handle]
    rcases hrun : (SavefileCalls.updateDataStorage rt env m).run c with ⟨r, c'⟩
    rcases updateDataStorage_spec ht hrun with
      ⟨⟨e, rfl⟩, hrests⟩ | ⟨oldValue, newValue, c₁, rfl, hread, heval, hwrite⟩
    · exact ⟨⟨trivial, hsame hrests⟩, hrests.transaction⟩
    · obtain ⟨hrests, hold⟩ := getStoredData_spec ht hread
      obtain ⟨ho, hkey⟩ := h oldValue newValue c₁ hread heval
      obtain ⟨ht', hnew⟩ :=
        setStoredData_spec hrests.transaction ho hkey (evaluate_ne_nil heval) hwrite
      refine ⟨⟨⟨?_, ?_, trivial⟩, hnew.trans (by rw [hsame hrests]; rfl)⟩, ht'⟩
      · rintro k v ⟨rfl, rfl⟩
        exact hold oldValue rfl
      · intro k v hfound
        cases hfound

end Calls

/-- In every run whose `Set`s reach the savefile, each read finds what was last
reported for its key, or what was stored at first, and the data storage is what was
reported. -/
theorem reported_set_is_stored {rt : Interpreter} {env : Env} {c : SavefileConn}
    {ms : List StorageMessage} (ht : c.transaction = none)
    (h : Reaction.Along (StorageMessage.handle rt env) (StoresWhatItReports rt env) c ms) :
    Access.Consistent (dataStorageOf env c)
        (Reaction.run (StorageMessage.handle rt env) c ms).1 ∧
      dataStorageOf env (Reaction.run (StorageMessage.handle rt env) c ms).2 =
        Access.replay (dataStorageOf env c)
          (Reaction.run (StorageMessage.handle rt env) c ms).1 :=
  Reaction.run_faithful (fun c => c.transaction = none) (fun _ _ => handle_faithful) ht h

/-- A `Set` of a stored key and a `Get` of it. -/
def sampleMessages (key : GoString) : List StorageMessage :=
  [.set ⟨key, .null, true, [⟨lit "replace", .bool false⟩]⟩, .get [key]]

theorem reported_set_is_stored_sample :
    Access.Consistent (dataStorageOf (.inOrder false) (Conn.idle storedTrue []))
        (Reaction.run (StorageMessage.handle sampleInterpreter (.inOrder false))
          (Conn.idle storedTrue []) (sampleMessages (lit "k"))).1 ∧
      dataStorageOf (.inOrder false)
          (Reaction.run (StorageMessage.handle sampleInterpreter (.inOrder false))
            (Conn.idle storedTrue []) (sampleMessages (lit "k"))).2 =
        Access.replay (dataStorageOf (.inOrder false) (Conn.idle storedTrue []))
          (Reaction.run (StorageMessage.handle sampleInterpreter (.inOrder false))
            (Conn.idle storedTrue []) (sampleMessages (lit "k"))).1 := by
  refine reported_set_is_stored rfl ⟨?_, fun _ => ⟨trivial, fun _ => trivial⟩⟩
  intro oldValue newValue c₁ hread heval
  obtain rfl : _ = c₁ := congrArg Prod.snd hread
  exact ⟨rfl, by decide⟩

/-- The value before is found after another one was reported, if the write fails, or
if the key is empty and bound as NULL. -/
theorem reported_set_is_lost :
    ¬ Access.Consistent (dataStorageOf (.inOrder false)
          (Conn.idle storedTrue [.done, .done, .failed]))
        (Reaction.run (StorageMessage.handle sampleInterpreter (.inOrder false))
          (Conn.idle storedTrue [.done, .done, .failed]) (sampleMessages (lit "k"))).1 ∧
      ¬ Access.Consistent (dataStorageOf (.inOrder true) (Conn.idle storedTrue []))
        (Reaction.run (StorageMessage.handle sampleInterpreter (.inOrder true))
          (Conn.idle storedTrue []) (sampleMessages [])).1 := by
  constructor
  · rintro ⟨-, -, hfound, -⟩
    exact absurd (hfound (lit "k") (some (lit "true")) rfl) (by decide)
  · rintro ⟨-, -, hfound, -⟩
    exact absurd (hfound [] none rfl) (by decide)

end Isthmus
