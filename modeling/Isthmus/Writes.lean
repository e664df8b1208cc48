import Isthmus.Savefile
import Isthmus.Lib.Guarantee

/-!
# What the writes do

One lemma for each write says which table it changes and how; the other tables
stay as they were. The tables of the setup are never written.
-/

namespace Isthmus

open Process Mwproto Approto

/-- The savefile with more rows at the end of the log. -/
def Savefile.append (db : Savefile) (rows : List SentRow) : Savefile :=
  { db with sentItems := db.sentItems ++ rows }

section Append

variable (db : Savefile) (rows : List SentRow)

@[simp] theorem append_receivedItems : (db.append rows).receivedItems = db.receivedItems := rfl

@[simp] theorem append_sentItems : (db.append rows).sentItems = db.sentItems ++ rows := rfl

@[simp] theorem apply_addSentItems : Store.apply db (.addSentItems rows) = .ok (db.append rows) :=
  rfl

end Append

variable {db db' : Savefile}

theorem apply_clearLocations_ok {ids : List Int}
    (h : Store.apply db (.clearLocations ids) = .ok db') :
    ∃ t, t.rows = db.locationsCleared.rows ++ ids ∧ db' = { db with locationsCleared := t } := by
  simp only [Store.apply, Savefile.apply] at h
  split at h
  · next t ht =>
    cases h
    obtain ⟨rs, hrs, hrows⟩ := Table.insertEach_ok ht
    have hids : rs = ids := by
      clear ht hrows
      induction hrs with
      | nil => rfl
      | cons hb _ ih =>
        cases hb
        rw [ih]
    exact ⟨t, by rw [hrows, hids], rfl⟩
  · cases h

/-- Distinct locations that are not cleared can be cleared. -/
theorem exists_apply_clearLocations {ids : List Int} (hids : ids.Nodup)
    (hnew : ∀ id ∈ ids, id ∉ db.locationsCleared.rows) :
    ∃ db', Store.apply db (.clearLocations ids) = .ok db' := by
  have hnd : ((db.locationsCleared.rows ++ ids).map id).Nodup := by
    rw [List.map_id]
    refine List.nodup_append.mpr ⟨by simpa using db.locationsCleared.nodup, hids, ?_⟩
    rintro a ha b hb rfl
    exact hnew a hb ha
  have hrs : List.Forall₂ (fun b r => (Except.ok b : Except Stop Int) = .ok r) ids ids :=
    List.forall₂_same.mpr fun _ _ => rfl
  refine ⟨{ db with locationsCleared := ⟨db.locationsCleared.rows ++ ids, hnd⟩ }, ?_⟩
  simp only [Store.apply, Savefile.apply]
  rw [Table.insertEach_of_nodup hrs hnd]

/-- One of the rows queues the item. -/
def Queues (rows : List SendRow) (u : UnconfirmedRow) : Prop := ∃ r ∈ rows, r.check = .ok u

theorem apply_addUnconfirmedItems_ok {rows : List SendRow}
    (h : Store.apply db (.addUnconfirmedItems rows) = .ok db') :
    ∃ t, (∀ u, u ∈ t.rows ↔ u ∈ db.unconfirmedSentItems.rows ∨ Queues rows u) ∧
      (∀ r ∈ rows, ∃ u, r.check = .ok u) ∧ db' = { db with unconfirmedSentItems := t } := by
  simp only [Store.apply, Savefile.apply] at h
  split at h
  · next t ht =>
    cases h
    exact ⟨t, fun u => Table.mem_of_insertEach_ok ht, Table.check_of_insertEach_ok ht, rfl⟩
  · cases h

@[simp] theorem apply_confirmItem (label content : SqlText) (toPlayer : Int) :
    Store.apply db (.confirmItem label content toPlayer) =
      .ok { db with
        unconfirmedSentItems := db.unconfirmedSentItems.delete fun r =>
          some r.label = label ∧ some r.content = content ∧ r.destPlayerID = toPlayer } := rfl

theorem apply_addReceivedItem_ok {label content : SqlText}
    (h : Store.apply db (.addReceivedItem label content) = .ok db') :
    ∃ t l c, label = some l ∧ content = some c ∧
      t.rows = db.receivedItems.rows ++ [⟨l, c⟩] ∧ db' = { db with receivedItems := t } := by
  simp only [Store.apply, Savefile.apply] at h
  split at h
  · next l c =>
    split at h
    · next t ht =>
      cases h
      exact ⟨t, l, c, rfl, rfl, (Table.insert_eq_some.mp ht).2, rfl⟩
    · cases h
  · cases h

theorem apply_setStoredData_ok {key jsonValue : SqlText}
    (h : Store.apply db (.setStoredData key jsonValue) = .ok db') :
    ∃ t, db' = { db with dataStorage := t } := by
  simp only [Store.apply, Savefile.apply] at h
  split at h
  · cases h
    exact ⟨_, rfl⟩
  · cases h

/-- No write touches the tables of the setup. -/
theorem apply_toSetupTables {c : Commit} (h : Store.apply db c = .ok db') :
    db'.toSetupTables = db.toSetupTables := by
  cases c with
  | clearLocations ids => obtain ⟨t, -, rfl⟩ := apply_clearLocations_ok h; rfl
  | addSentItems rows => cases h; rfl
  | addUnconfirmedItems rows => obtain ⟨t, -, -, rfl⟩ := apply_addUnconfirmedItems_ok h; rfl
  | confirmItem label content toPlayer => cases h; rfl
  | addReceivedItem label content =>
    obtain ⟨t, l, c, -, -, -, rfl⟩ := apply_addReceivedItem_ok h; rfl
  | setStoredData key jsonValue => obtain ⟨t, rfl⟩ := apply_setStoredData_ok h; rfl

/-- A write is refused with an error of SQLite. -/
theorem apply_error {c : Commit} {e : Stop} (h : Store.apply db c = .error e) :
    ∃ e', e = .sql e' := by
  cases c with
  | clearLocations ids =>
    simp only [Store.apply, Savefile.apply] at h
    split at h
    · cases h
    · next e' he' =>
      cases h
      obtain rfl | ⟨b, -, hb⟩ := Table.insertEach_error he'
      · exact ⟨_, rfl⟩
      · cases hb
  | addSentItems rows => cases h
  | addUnconfirmedItems rows =>
    simp only [Store.apply, Savefile.apply] at h
    split at h
    · cases h
    · next e' he' =>
      cases h
      obtain rfl | ⟨b, -, hb⟩ := Table.insertEach_error he'
      · exact ⟨_, rfl⟩
      · simp only [SendRow.check] at hb
        split at hb
        · cases hb
        · cases hb
          exact ⟨_, rfl⟩
  | confirmItem label content toPlayer => cases h
  | addReceivedItem label content =>
    simp only [Store.apply, Savefile.apply] at h
    split at h
    · split at h
      · cases h
      · cases h
        exact ⟨_, rfl⟩
    · cases h
      exact ⟨_, rfl⟩
  | setStoredData key jsonValue =>
    simp only [Store.apply, Savefile.apply] at h
    split at h
    · cases h
    · cases h
      exact ⟨_, rfl⟩

/-- A write is taken, or it changes nothing. -/
theorem write_cases (db : Savefile) (c : Commit) :
    Store.apply db c = .ok (write db c) ∨ write db c = db := by
  simp only [Process.write]
  cases Store.apply db c with
  | ok db' => exact .inl rfl
  | error e => exact .inr rfl

theorem perform_toSetupTables (cs : List Commit) :
    (perform db cs).toSetupTables = db.toSetupTables := by
  induction cs generalizing db with
  | nil => rfl
  | cons c cs ih =>
    rw [perform_cons, ih]
    rcases write_cases db c with h | h
    · exact apply_toSetupTables h
    · rw [h]

theorem replay_toSetupTables {μ : Type} (t : List (Effect Commit μ)) :
    (replay db t).toSetupTables = db.toSetupTables := by
  rw [replay_eq_perform, perform_toSetupTables]

/-! ## Frames -/

/-- The tables that the loop writes. -/
inductive Target where
  | cleared
  | sent
  | unconfirmed
  | received
  | stored
  deriving DecidableEq

def Commit.target : Commit → Target
  | .clearLocations _ => .cleared
  | .addSentItems _ => .sent
  | .addUnconfirmedItems _ => .unconfirmed
  | .confirmItem _ _ _ => .unconfirmed
  | .addReceivedItem _ _ => .received
  | .setStoredData _ _ => .stored

/-- A write changes the table it is made to and no other. -/
theorem apply_frame {c : Commit} (h : Store.apply db c = .ok db') :
    (c.target ≠ .cleared → db'.locationsCleared = db.locationsCleared) ∧
      (c.target ≠ .sent → db'.sentItems = db.sentItems) ∧
      (c.target ≠ .unconfirmed → db'.unconfirmedSentItems = db.unconfirmedSentItems) ∧
      (c.target ≠ .received → db'.receivedItems = db.receivedItems) := by
  cases c with
  | clearLocations ids => obtain ⟨t, -, rfl⟩ := apply_clearLocations_ok h; simp [Commit.target]
  | addSentItems rows => cases h; simp [Commit.target]
  | addUnconfirmedItems rows =>
    obtain ⟨t, -, -, rfl⟩ := apply_addUnconfirmedItems_ok h
    simp [Commit.target]
  | confirmItem label content toPlayer => cases h; simp [Commit.target]
  | addReceivedItem label content =>
    obtain ⟨t, l, c, -, -, -, rfl⟩ := apply_addReceivedItem_ok h
    simp [Commit.target]
  | setStoredData key jsonValue => obtain ⟨t, rfl⟩ := apply_setStoredData_ok h; simp [Commit.target]

/-- What writes to a table cannot change stays if no write is made to others. -/
theorem perform_frame {α : Type} (f : Savefile → α) {tgt : Target}
    (hf : ∀ {c : Commit} {db db' : Savefile}, Store.apply db c = .ok db' → c.target ≠ tgt →
      f db' = f db) {cs : List Commit} (h : ∀ c ∈ cs, c.target ≠ tgt) :
    f (perform db cs) = f db := by
  induction cs generalizing db with
  | nil => rfl
  | cons c cs ih =>
    rw [perform_cons, ih fun c hc => h c (List.mem_cons_of_mem _ hc)]
    rcases write_cases db c with hok | hok
    · exact hf hok (h c List.mem_cons_self)
    · rw [hok]

/-- Writes to other tables leave the received items alone. -/
theorem receivedItems_perform {cs : List Commit} (h : ∀ c ∈ cs, c.target ≠ .received) :
    (perform db cs).receivedItems = db.receivedItems :=
  perform_frame Savefile.receivedItems (fun hok => (apply_frame hok).2.2.2) h

/-- Writes to other tables leave the cleared locations alone. -/
theorem locationsCleared_perform {cs : List Commit} (h : ∀ c ∈ cs, c.target ≠ .cleared) :
    (perform db cs).locationsCleared = db.locationsCleared :=
  perform_frame Savefile.locationsCleared (fun hok => (apply_frame hok).1) h

/-- No write removes a record of a received item. -/
theorem apply_receivedItems_subset {c : Commit} (h : Store.apply db c = .ok db') :
    db.receivedItems.rows ⊆ db'.receivedItems.rows := by
  by_cases hc : c.target = .received
  · cases c with
    | addReceivedItem label content =>
      obtain ⟨t, l, c, -, -, ht, rfl⟩ := apply_addReceivedItem_ok h
      show db.receivedItems.rows ⊆ t.rows
      rw [ht]
      exact List.subset_append_left _ _
    | _ => cases hc
  · rw [(apply_frame h).2.2.2 hc]
    exact List.Subset.refl _

/-- No write removes a cleared location. -/
theorem apply_locationsCleared_subset {c : Commit} (h : Store.apply db c = .ok db') :
    db.locationsCleared.rows ⊆ db'.locationsCleared.rows := by
  by_cases hc : c.target = .cleared
  · cases c with
    | clearLocations ids =>
      obtain ⟨t, ht, rfl⟩ := apply_clearLocations_ok h
      show db.locationsCleared.rows ⊆ t.rows
      rw [ht]
      exact List.subset_append_left _ _
    | _ => cases hc
  · rw [(apply_frame h).1 hc]
    exact List.Subset.refl _

/-- What no write removes is never removed. -/
theorem perform_subset {α : Type} (f : Savefile → List α)
    (hf : ∀ {c : Commit} {db db' : Savefile}, Store.apply db c = .ok db' → f db ⊆ f db')
    (cs : List Commit) : f db ⊆ f (perform db cs) := by
  induction cs generalizing db with
  | nil => exact List.Subset.refl _
  | cons c cs ih =>
    have hwrite : f db ⊆ f (write db c) := by
      rcases write_cases db c with hok | hok
      · exact hf hok
      · rw [hok]
        exact List.Subset.refl _
    exact List.Subset.trans hwrite ih

theorem receivedItems_subset_perform (cs : List Commit) :
    db.receivedItems.rows ⊆ (perform db cs).receivedItems.rows :=
  perform_subset (fun db => db.receivedItems.rows) apply_receivedItems_subset cs

theorem locationsCleared_subset_perform (cs : List Commit) :
    db.locationsCleared.rows ⊆ (perform db cs).locationsCleared.rows :=
  perform_subset (fun db => db.locationsCleared.rows) apply_locationsCleared_subset cs

/-- The rows that writes append to the log. -/
def appended : List Commit → List SentRow
  | [] => []
  | .addSentItems rows :: cs => rows ++ appended cs
  | _ :: cs => appended cs

@[simp] theorem appended_append (cs ds : List Commit) :
    appended (cs ++ ds) = appended cs ++ appended ds := by
  induction cs with
  | nil => rfl
  | cons c cs ih => cases c <;> simp [appended, ih]

/-- No write removes a row of the log, and none is refused. -/
theorem sentItems_perform (cs : List Commit) :
    (perform db cs).sentItems = db.sentItems ++ appended cs := by
  induction cs generalizing db with
  | nil => simp [appended]
  | cons c cs ih =>
    rw [perform_cons, ih]
    by_cases hc : c.target = .sent
    · cases c with
      | addSentItems rows =>
        rw [write_of_ok (apply_addSentItems db rows), append_sentItems, List.append_assoc]
        rfl
      | _ => cases hc
    · have hrows : appended (c :: cs) = appended cs := by
        cases c with
        | addSentItems rows => exact absurd rfl hc
        | _ => rfl
      rw [hrows]
      rcases write_cases db c with hok | hok
      · rw [(apply_frame hok).2.1 hc]
      · rw [hok]

/-- What a prefix of writes appends, the writes append. -/
theorem appended_take_sublist (w : Nat) (cs : List Commit) :
    (appended (cs.take w)).Sublist (appended cs) := by
  conv_rhs => rw [← List.take_append_drop w cs, appended_append]
  exact List.sublist_append_left _ _

/-- A message for another player is stored under its label and its owner. -/
theorem SendRow.check_ok {r : SendRow} {u : UnconfirmedRow} (h : r.check = .ok u) :
    r.label = some u.label ∧ r.content = some u.content ∧ u.destPlayerID = r.toPlayer := by
  simp only [SendRow.check] at h
  split at h
  · next l c hl hc =>
    cases h
    exact ⟨hl, hc, rfl⟩
  · cases h

theorem SendRow.check_eq_error {r : SendRow} {e : Stop} (h : r.check = .error e) :
    e = .sql .notNull := by
  simp only [SendRow.check] at h
  split at h
  · cases h
  · cases h
    rfl

end Isthmus
