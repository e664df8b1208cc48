import Isthmus.Traces

/-!
# Deliveries

What handling a `DataReceiveMessage` or a released batch does. The first
appends the item to the log and then records it as received; the second records
its items one by one and then appends them together.

## Main definitions

- `Room.Addressed`: the message is one that the handler does not turn away
- `newRows`: the items of a batch that are recorded, up to one bound as NULL
-/

namespace Isthmus

open Process Mwproto Approto

/-- The row of `mw_received_items` for an item of the multiworld. -/
def receivedRow (content : GoString) : ReceivedRow := ⟨labelMultiworldItem, content⟩

/-- The reason of the row that is appended for a received one. -/
def ReceivedRow.origin (r : ReceivedRow) : Origin := .delivered r.label r.content

/-- The label is the one of multiworld items, and the sender is in range. -/
def Room.Addressed (room : Room) (m : DataReceiveMessage) : Prop :=
  m.label = labelMultiworldItem ∧ 0 ≤ m.fromID.toInt ∧ m.fromID.toInt < room.games.length

instance (room : Room) (m : DataReceiveMessage) : Decidable (room.Addressed m) :=
  inferInstanceAs (Decidable (_ ∧ _ ∧ _))

section Recorded

variable {env : Env} {db : Savefile} {content : GoString}

/-- An empty content that is bound as NULL is never found. -/
theorem hasReceivedItem_iff :
    db.hasReceivedItem env labelMultiworldItem content = true ↔
      ¬ env.BindsNull content ∧ receivedRow content ∈ db.receivedItems.rows := by
  simp only [Savefile.hasReceivedItem, env.bindString_label]
  by_cases hnull : env.BindsNull content
  · simp [Env.bindString_of_bindsNull hnull, hnull]
  · simp [Env.bindString_of_not hnull, hnull, receivedRow]

theorem hasReceivedItem_eq_false :
    db.hasReceivedItem env labelMultiworldItem content = false ↔
      env.BindsNull content ∨ receivedRow content ∉ db.receivedItems.rows := by
  rw [← Bool.not_eq_true, hasReceivedItem_iff, not_and_or, not_not]

theorem apply_addReceivedItem_null (label : SqlText) :
    Store.apply db (.addReceivedItem label none) = .error (.sql .notNull) := by
  cases label <;> rfl

theorem apply_addReceivedItem_new (h : receivedRow content ∉ db.receivedItems.rows) :
    ∃ t, t.rows = db.receivedItems.rows ++ [receivedRow content] ∧
      ∀ db₁ : Savefile, db₁.receivedItems = db.receivedItems →
        Store.apply db₁ (.addReceivedItem (some labelMultiworldItem) (some content)) =
          .ok { db₁ with receivedItems := t } := by
  cases hins : db.receivedItems.insert (receivedRow content) with
  | none =>
    obtain ⟨r, hr, hk⟩ := Table.insert_eq_none.mp hins
    have hr' : r = receivedRow content := hk
    exact absurd (hr' ▸ hr) h
  | some t =>
    refine ⟨t, (Table.insert_eq_some.mp hins).2, ?_⟩
    intro db₁ hdb₁
    rw [receivedRow] at hins
    simp only [Store.apply, Savefile.apply, hdb₁, hins]

end Recorded

/-! ## The item -/

section Item

variable {room : Room} (cfg : Config) (setup : SetupTables) (env : Env) {fromID : Int}

/-- With a data package for every game, an item from a player in range has a row. -/
theorem exists_receivedItem (hc : room.Complete) {g : GoString}
    (hg : indexed room.games fromID = some g) (content : GoString) :
    ∃ item, room.receivedItem cfg setup env fromID content = .ok item ∧
      item.player = fromID + 1 ∧ item.flags = 0 := by
  obtain ⟨dp, hdp⟩ := hc.packageOf hg
  simp only [Room.receivedItem, Room.locationID, hdp]
  cases setup.getLocationOfOwnItem env content with
  | none => exact ⟨_, rfl, rfl, rfl⟩
  | some loc => exact ⟨_, rfl, rfl, rfl⟩

theorem exists_releasedItem (hc : room.Complete)
    (hfrom : fromID = -1 ∨ ∃ g, indexed room.games fromID = some g) (content : GoString) :
    ∃ item, room.releasedItem cfg setup env fromID content = .ok item ∧
      item.player = fromID + 1 ∧ item.flags = 0 := by
  rw [Room.releasedItem]
  by_cases h : fromID = -1
  · rw [if_pos h, h]
    exact ⟨_, rfl, rfl, rfl⟩
  · rw [if_neg h]
    obtain ⟨g, hg⟩ := hfrom.resolve_left h
    exact exists_receivedItem cfg setup env hc hg content

/-- The sender of a batch is unknown or has a game. -/
theorem senderID_indexed {room : Room} (hlen : room.games.length = room.nicknames.length) (sender : GoString) :
    room.senderID sender = -1 ∨ ∃ g, indexed room.games (room.senderID sender) = some g := by
  rw [Room.senderID]
  cases h : room.nicknames.idxOf? sender with
  | none => exact .inl rfl
  | some i =>
    right
    have hi : i < room.nicknames.length := by
      rw [List.idxOf?_eq_some_iff] at h
      obtain ⟨hlt, -⟩ := h
      exact hlt
    have h0 : (0 : Int) ≤ i := by omega
    have hlt : (i : Int) < room.games.length := by omega
    exact exists_indexed h0 hlt

end Item

/-! ## One item -/

section DataReceive

variable {cfg : Config} {env : Env} {sess : Session} {m : DataReceiveMessage} {db : Savefile}

/-- The first effects of a delivery: append, tell the client, confirm. -/
def Session.appendTrace (sess : Session) (db : Savefile) (m : DataReceiveMessage)
    (item : NetworkItem) : Trace :=
  .commit (.addSentItems [sentRow item (.delivered m.label m.content)]) ::
    (sess.notice receiveOthersItems (db.sentIndex [(item, .delivered m.label m.content)]) [item] ++
      [.io (.toMW (.dataReceiveConfirm ⟨m.label, m.content, m.sender⟩))])

/-- Its last effects: record the item and ask the server to save. -/
def deliveredTrace (m : DataReceiveMessage) : Trace :=
  [.commit (.addReceivedItem (some m.label) (some m.content)), .io (.toMW .save)]

@[simp] theorem commits_appendTrace (sess : Session) (db : Savefile) (m : DataReceiveMessage)
    (item : NetworkItem) :
    commits (sess.appendTrace db m item) =
      [.addSentItems [sentRow item (.delivered m.label m.content)]] := by
  simp [Session.appendTrace]

@[simp] theorem commits_deliveredTrace (m : DataReceiveMessage) :
    commits (deliveredTrace m) = [.addReceivedItem (some m.label) (some m.content)] := rfl

theorem run_handleDataReceive_ignored
    (h : ¬ sess.Addressed m ∨ db.hasReceivedItem env m.label m.content = true) :
    (handleDataReceive cfg env sess m).run db = ⟨.ok (), []⟩ := by
  rw [handleDataReceive]
  by_cases hl : m.label ≠ labelMultiworldItem
  · rw [if_pos hl, Proc.run_pure]
  · rw [if_neg hl]
    by_cases hr : ¬ (0 ≤ m.fromID.toInt ∧ m.fromID.toInt < sess.games.length)
    · rw [if_pos hr, Proc.run_pure]
    · have ha : sess.Addressed m := ⟨not_not.mp hl, not_not.mp hr⟩
      rw [if_neg hr, Proc.run_read_bind, if_pos (h.resolve_left (not_not.mpr ha)), Proc.run_pure]

variable (cfg) in
/-- A new item is appended before it is recorded, and confirmed in between. -/
theorem run_handleDataReceive_new (hc : sess.Complete) (ha : sess.Addressed m)
    (hnew : db.hasReceivedItem env m.label m.content = false) :
    ∃ item, item.player = m.fromID.toInt + 1 ∧ item.flags = 0 ∧
      (handleDataReceive cfg env sess m).run db =
        if env.BindsNull m.content then ⟨.error (.sql .notNull), sess.appendTrace db m item⟩
        else ⟨.ok (), sess.appendTrace db m item ++ deliveredTrace m⟩ := by
  obtain ⟨label, content, sender, fromID⟩ := m
  obtain ⟨hl, h0, hlt⟩ := ha
  change label = labelMultiworldItem at hl
  subst hl
  obtain ⟨g, hg⟩ := exists_indexed h0 hlt
  obtain ⟨item, hitem, hplayer, hflags⟩ :=
    exists_receivedItem cfg db.toSetupTables env hc hg content
  refine ⟨item, hplayer, hflags, ?_⟩
  have hdup : ¬ db.hasReceivedItem env labelMultiworldItem content = true := by
    rw [hnew]
    decide
  rw [handleDataReceive, if_neg (not_not.mpr rfl), if_neg (not_not.mpr ⟨h0, hlt⟩),
    Proc.run_read_bind, if_neg hdup, Proc.run_query_bind]
  simp only [hitem]
  rw [Proc.run_bind_of_ok (run_addSentItems _ db), replay_commit (apply_addSentItems _ _),
    replay_nil, Proc.run_bind_of_ok (run_notify _ _ _ _ _), replay_notice, Proc.run_emit_bind,
    addReceivedItem]
  by_cases hnull : env.BindsNull content
  · rw [if_pos hnull, Env.bindString_of_bindsNull hnull,
      Proc.run_commit_bind_error (apply_addReceivedItem_null _)]
    rfl
  · have hrow : receivedRow content ∉ db.receivedItems.rows :=
      (hasReceivedItem_eq_false.mp hnew).resolve_left hnull
    obtain ⟨t, -, happly⟩ := apply_addReceivedItem_new hrow
    have hrecord := happly (db.append (sentRows [(item, .delivered labelMultiworldItem content)])) rfl
    rw [if_neg hnull, Env.bindString_of_not hnull, env.bindString_label,
      Proc.run_commit_bind_ok hrecord, Proc.run_emit]
    simp [Session.appendTrace, deliveredTrace, sentRows]

/-- A delivery that is not stopped adds one row to the log and one to the record. -/
theorem perform_delivery (row : SentRow) (hlabel : m.label = labelMultiworldItem)
    (hnew : db.hasReceivedItem env m.label m.content = false) (hnull : ¬ env.BindsNull m.content) :
    ∃ t, t.rows = db.receivedItems.rows ++ [receivedRow m.content] ∧
      receivedRow m.content ∉ db.receivedItems.rows ∧
      perform db [.addSentItems [row], .addReceivedItem (some m.label) (some m.content)] =
        { db.append [row] with receivedItems := t } := by
  obtain ⟨label, content, sender, fromID⟩ := m
  change label = labelMultiworldItem at hlabel
  subst hlabel
  have hrow := (hasReceivedItem_eq_false.mp hnew).resolve_left hnull
  obtain ⟨t, ht, happly⟩ := apply_addReceivedItem_new hrow
  refine ⟨t, ht, hrow, ?_⟩
  rw [perform_cons, write_of_ok (apply_addSentItems _ _), perform_cons,
    write_of_ok (happly (db.append [row]) rfl), perform_nil]

end DataReceive

/-! ## A released batch -/

/-- The rows that a batch records, up to the first content bound as NULL, and
whether it gets to its end. -/
def newRows (env : Env) (received : List ReceivedRow) :
    List DataReceiveItem → List ReceivedRow × Bool
  | [] => ([], true)
  | item :: items =>
    if item.label ≠ labelMultiworldItem then newRows env received items
    else if env.BindsNull item.content then ([], false)
    else if receivedRow item.content ∈ received then newRows env received items
    else
      let rest := newRows env (received ++ [receivedRow item.content]) items
      (receivedRow item.content :: rest.1, rest.2)

/-- The rows are new and distinct, and carry the label of multiworld items. -/
theorem newRows_nodup (env : Env) (items : List DataReceiveItem) {received : List ReceivedRow}
    (h : received.Nodup) : (received ++ (newRows env received items).1).Nodup := by
  induction items generalizing received with
  | nil => simpa [newRows] using h
  | cons item items ih =>
    simp only [newRows]
    split
    · exact ih h
    · split
      · simpa using h
      · split
        · exact ih h
        · next hnew =>
          have h' : (received ++ [receivedRow item.content]).Nodup := by
            rw [← List.concat_eq_append]
            exact List.Nodup.concat hnew h
          simpa using ih h'

/-- Record rows, one write each. -/
def recordTrace (rows : List ReceivedRow) : Trace :=
  rows.map fun r => .commit (.addReceivedItem (some r.label) (some r.content))

section DatasReceive

variable {cfg : Config} {env : Env} {sess : Session} {db : Savefile}

/-- The effects after a batch is recorded: append, tell the client, confirm. -/
def Session.batchTrace (sess : Session) (db : Savefile) (m : DatasReceiveMessage)
    (items : List (NetworkItem × Origin)) : Trace :=
  .commit (.addSentItems (sentRows items)) ::
    (sess.notice receiveOthersItems (db.sentIndex items) (items.map Prod.fst) ++
      [.io (.toMW (.datasReceiveConfirm ⟨Int32.ofInt m.items.length, m.sender⟩)),
        .io (.toMW .save)])

/-- The writes that record rows. -/
def recordCommits (rows : List ReceivedRow) : List Commit :=
  rows.map fun r => .addReceivedItem (some r.label) (some r.content)

@[simp] theorem commits_recordTrace (rows : List ReceivedRow) :
    commits (recordTrace rows) = recordCommits rows := by
  induction rows with
  | nil => rfl
  | cons r rows ih =>
    rw [recordTrace, List.map_cons, commits_commit, recordCommits, List.map_cons]
    exact congrArg _ ih

@[simp] theorem appended_recordCommits (rows : List ReceivedRow) :
    appended (recordCommits rows) = [] := by
  induction rows with
  | nil => rfl
  | cons r rows ih => exact ih

theorem target_of_mem_recordCommits {rows : List ReceivedRow} {c : Commit}
    (h : c ∈ recordCommits rows) : c.target = .received := by
  obtain ⟨r, -, rfl⟩ := List.mem_map.mp h
  rfl

@[simp] theorem length_recordCommits (rows : List ReceivedRow) :
    (recordCommits rows).length = rows.length := List.length_map _

theorem take_recordCommits (rows : List ReceivedRow) (w : Nat) :
    (recordCommits rows).take w = recordCommits (rows.take w) := by
  rw [recordCommits, recordCommits, List.map_take]

/-- A stop of a batch comes after its append, or it leaves records only. -/
theorem take_batch (rows : List ReceivedRow) (c : Commit) (w : Nat) :
    rows.length < w ∧ (recordCommits rows ++ [c]).take w = recordCommits rows ++ [c] ∨
      ¬ rows.length < w ∧ (recordCommits rows ++ [c]).take w = recordCommits (rows.take w) := by
  by_cases hw : rows.length < w
  · refine .inl ⟨hw, List.take_of_length_le ?_⟩
    rw [List.length_append, length_recordCommits]
    exact hw
  · refine .inr ⟨hw, ?_⟩
    rw [List.take_append_of_le_length (by rw [length_recordCommits]; omega), take_recordCommits]

@[simp] theorem commits_batchTrace (sess : Session) (db : Savefile) (m : DatasReceiveMessage)
    (items : List (NetworkItem × Origin)) :
    commits (sess.batchTrace db m items) = [.addSentItems (sentRows items)] := by
  simp [Session.batchTrace]

theorem target_of_mem_batch {sess : Session} {db : Savefile} {m : DatasReceiveMessage}
    {rows : List ReceivedRow} {items : List (NetworkItem × Origin)} {c : Commit}
    (h : c ∈ commits (recordTrace rows ++ sess.batchTrace db m items)) :
    c.target = .received ∨ c.target = .sent := by
  rw [commits_append, commits_recordTrace, commits_batchTrace] at h
  rcases List.mem_append.mp h with h | h
  · exact .inl (target_of_mem_recordCommits h)
  · rw [List.mem_singleton.mp h]
    exact .inr rfl

/-- Recording new rows adds them to the end of the table. -/
theorem perform_recordCommits {rows : List ReceivedRow} {db : Savefile}
    (hlabel : ∀ r ∈ rows, r.label = labelMultiworldItem)
    (hnd : (db.receivedItems.rows ++ rows).Nodup) :
    ∃ t, t.rows = db.receivedItems.rows ++ rows ∧
      perform db (recordCommits rows) = { db with receivedItems := t } := by
  induction rows generalizing db with
  | nil => exact ⟨db.receivedItems, by simp, rfl⟩
  | cons r rows ih =>
    obtain ⟨label, content⟩ := r
    have hl : label = labelMultiworldItem := hlabel _ List.mem_cons_self
    subst hl
    have hrow : receivedRow content ∉ db.receivedItems.rows := by
      intro hmem
      exact (List.nodup_append.mp hnd).2.2 _ hmem _ List.mem_cons_self rfl
    obtain ⟨t, ht, happly⟩ := apply_addReceivedItem_new hrow
    have hnd' : (t.rows ++ rows).Nodup := by
      rw [ht]
      simpa [receivedRow] using hnd
    obtain ⟨t', ht', hperform⟩ :=
      @ih { db with receivedItems := t } (fun r hr => hlabel r (List.mem_cons_of_mem _ hr))
        hnd'
    refine ⟨t', ?_, ?_⟩
    · rw [ht']
      change t.rows ++ rows = _
      rw [ht, List.append_assoc]
      rfl
    · rw [recordCommits, List.map_cons, perform_cons, write_of_ok (happly db rfl)]
      exact hperform

/-- The rows are those of items of the batch. -/
theorem exists_of_mem_newRows {items : List DataReceiveItem} {received : List ReceivedRow}
    {r : ReceivedRow} (h : r ∈ (newRows env received items).1) :
    ∃ item ∈ items, item.label = labelMultiworldItem ∧ r = receivedRow item.content := by
  induction items generalizing received with
  | nil => simp [newRows] at h
  | cons item items ih =>
    have hlater : ∀ {received}, r ∈ (newRows env received items).1 →
        ∃ item' ∈ item :: items, item'.label = labelMultiworldItem ∧
          r = receivedRow item'.content := by
      intro received h
      obtain ⟨item', hmem, hr⟩ := ih h
      exact ⟨item', List.mem_cons_of_mem _ hmem, hr⟩
    simp only [newRows] at h
    split at h
    · exact hlater h
    · next hlabel =>
      split at h
      · simp at h
      · split at h
        · exact hlater h
        · rcases List.mem_cons.mp h with rfl | h
          · exact ⟨item, List.mem_cons_self, not_not.mp hlabel, rfl⟩
          · exact hlater h

theorem label_of_mem_newRows {items : List DataReceiveItem} {received : List ReceivedRow}
    {r : ReceivedRow} (h : r ∈ (newRows env received items).1) : r.label = labelMultiworldItem := by
  obtain ⟨item, -, -, rfl⟩ := exists_of_mem_newRows h
  rfl

/-- A batch gets to its end unless an item of it is bound as NULL. -/
theorem newRows_snd {items : List DataReceiveItem} {received : List ReceivedRow} :
    (newRows env received items).2 = true ↔
      ∀ item ∈ items, item.label = labelMultiworldItem → ¬ env.BindsNull item.content := by
  induction items generalizing received with
  | nil => simp [newRows]
  | cons item items ih =>
    rw [List.forall_mem_cons]
    simp only [newRows]
    split
    · next hlabel => simp [ih, hlabel]
    · next hlabel =>
      split
      · next hnull => simp [not_not.mp hlabel, hnull]
      · next hnull =>
        split <;> simp [ih, hnull]

/-- The new items of a batch are recorded in order. One that is bound as NULL
ends the batch. -/
theorem run_receiveItems (hc : sess.Complete) {fromID : Int}
    (hfrom : fromID = -1 ∨ ∃ g, indexed sess.games fromID = some g)
    (items : List DataReceiveItem) (db : Savefile) :
    ∃ sent, sent.map Prod.snd =
        (newRows env db.receivedItems.rows items).1.map ReceivedRow.origin ∧
      (∀ p ∈ sent, p.1.player = fromID + 1 ∧ p.1.flags = 0) ∧
      (receiveItems cfg env sess fromID items).run db =
        ⟨if (newRows env db.receivedItems.rows items).2 then .ok sent
          else .error (.sql .notNull),
          recordTrace (newRows env db.receivedItems.rows items).1⟩ := by
  induction items generalizing db with
  | nil => exact ⟨[], rfl, by simp, rfl⟩
  | cons item items ih =>
    obtain ⟨label, content⟩ := item
    by_cases hl : label ≠ labelMultiworldItem
    · rw [receiveItems, newRows, if_pos hl, if_pos hl]
      exact ih db
    · have hlabel : label = labelMultiworldItem := not_not.mp hl
      subst hlabel
      rw [receiveItems, newRows, if_neg hl, if_neg hl, Proc.run_read_bind]
      obtain ⟨item, hitem, hplayer, hflags⟩ :=
        exists_releasedItem cfg db.toSetupTables env hc hfrom content
      by_cases hnull : env.BindsNull content
      · -- the item is never found, and cannot be recorded
        have hdup : ¬ db.hasReceivedItem env labelMultiworldItem content = true := by
          rw [hasReceivedItem_iff]
          exact fun h => h.1 hnull
        rw [if_neg hdup, if_pos hnull, Proc.run_query_bind]
        simp only [hitem]
        rw [addReceivedItem, Env.bindString_of_bindsNull hnull,
          Proc.run_commit_bind_error (apply_addReceivedItem_null _)]
        exact ⟨[], rfl, by simp, rfl⟩
      · rw [if_neg hnull]
        by_cases hrow : receivedRow content ∈ db.receivedItems.rows
        · rw [if_pos (hasReceivedItem_iff.mpr ⟨hnull, hrow⟩), if_pos hrow]
          exact ih db
        · have hdup : ¬ db.hasReceivedItem env labelMultiworldItem content = true := by
            rw [hasReceivedItem_iff]
            exact fun h => hrow h.2
          obtain ⟨t, ht, happly⟩ := apply_addReceivedItem_new hrow
          obtain ⟨sent, horigin, hsent, hrun⟩ := ih { db with receivedItems := t }
          rw [if_neg hdup, if_neg hrow, Proc.run_query_bind]
          simp only [hitem]
          rw [addReceivedItem, env.bindString_label, Env.bindString_of_not hnull,
            Proc.run_commit_bind_ok (happly db rfl)]
          rw [ht] at horigin hrun
          refine ⟨(item, .delivered labelMultiworldItem content) :: sent, ?_, ?_, ?_⟩
          · rw [List.map_cons, horigin, List.map_cons]
            rfl
          · intro p hp
            rcases List.mem_cons.mp hp with rfl | hp
            · exact ⟨hplayer, hflags⟩
            · exact hsent p hp
          · by_cases hdone : (newRows env (db.receivedItems.rows ++ [receivedRow content]) items).2 = true
            · rw [if_pos hdone] at hrun
              rw [Proc.run_bind_of_ok hrun, if_pos hdone]
              simp [recordTrace, receivedRow]
            · rw [if_neg hdone] at hrun
              rw [Proc.run_bind_of_error hrun, if_neg hdone]
              simp [recordTrace, receivedRow]

variable (cfg env db) in
/-- The whole batch is recorded before any of it is appended. -/
theorem run_handleDatasReceive (hc : sess.Complete)
    (hlen : sess.games.length = sess.nicknames.length) (m : DatasReceiveMessage) :
    ∃ sent, sent.map Prod.snd =
        (newRows env db.receivedItems.rows m.items).1.map ReceivedRow.origin ∧
      (∀ p ∈ sent, p.1.player = sess.senderID m.sender + 1 ∧ p.1.flags = 0) ∧
      (handleDatasReceive cfg env sess m).run db =
        if (newRows env db.receivedItems.rows m.items).2 then
          ⟨.ok (), recordTrace (newRows env db.receivedItems.rows m.items).1 ++
            sess.batchTrace db m sent⟩
        else ⟨.error (.sql .notNull), recordTrace (newRows env db.receivedItems.rows m.items).1⟩ := by
  obtain ⟨sent, horigin, hsent, hrun⟩ :=
    run_receiveItems hc (senderID_indexed hlen m.sender) m.items db
  refine ⟨sent, horigin, hsent, ?_⟩
  rw [handleDatasReceive]
  by_cases hdone : (newRows env db.receivedItems.rows m.items).2 = true
  · rw [if_pos hdone] at hrun ⊢
    have hnd : (db.receivedItems.rows ++ (newRows env db.receivedItems.rows m.items).1).Nodup :=
      newRows_nodup env m.items (by simpa using db.receivedItems.nodup)
    obtain ⟨t, -, hrecord⟩ := perform_recordCommits (fun r hr => label_of_mem_newRows hr) hnd
    rw [Proc.run_bind_of_ok hrun, replay_eq_perform, commits_recordTrace, hrecord, Proc.run_bind_of_ok (run_addSentItems _ _),
      Proc.run_bind_of_ok (run_notify _ _ _ _ _)]
    rfl
  · rw [if_neg hdone] at hrun ⊢
    rw [Proc.run_bind_of_error hrun]

end DatasReceive

end Isthmus
