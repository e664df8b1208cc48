import Isthmus.Received

/-!
# Repeated deliveries

A delivered item is appended once if each row of the log has its record. A
`DataReceiveMessage` appends first, so a stop between its two writes leaves a
row without a record, and the redelivery that follows appends again.

## Main definitions

- `Savefile.AtMostOnce`: no delivered item has two rows
- `Savefile.Recorded`: each row of a delivered item has its record
- `System.DeliveryUnbroken`: a delivery is not stopped between its writes
-/

namespace Isthmus

open Process Mwproto Approto

/-- The rows of the log that were appended for an item of the multiworld. -/
def Savefile.copies (db : Savefile) (label content : GoString) : Nat :=
  db.sentItems.countP fun row => row.origin = .delivered label content

def Savefile.AtMostOnce (db : Savefile) : Prop := ∀ l c, db.copies l c ≤ 1

/-- Each row of a delivered item has its record. -/
def Savefile.Recorded (db : Savefile) : Prop :=
  ∀ row ∈ db.sentItems, ∀ l c, row.origin = .delivered l c →
    (⟨l, c⟩ : ReceivedRow) ∈ db.receivedItems.rows

/-- A delivery of a new item is not stopped, by a kill or by a content bound as
NULL, after it appended the item and before it recorded it. -/
def System.DeliveryUnbroken (s : System) : Event → Prop
  | .handle env (.fromMW (.dataReceive m)) =>
    ∀ sess, s.session = some sess → sess.Addressed m → ¬ env.BindsNull m.content
  | .kill env (.fromMW (.dataReceive m)) w _ =>
    ∀ sess, s.session = some sess → sess.Addressed m →
      s.db.hasReceivedItem env m.label m.content = false →
        w = 0 ∨ 2 ≤ w ∧ ¬ env.BindsNull m.content
  | _ => True

theorem ReceivedRow.origin_injective : Function.Injective ReceivedRow.origin := by
  rintro ⟨l, c⟩ ⟨l', c'⟩ h
  cases h
  rfl

section Writes

variable {cfg : Config} {env : Env} {sess : Session} {db : Savefile}

theorem copies_perform (cs : List Commit) (l c : GoString) :
    (perform db cs).copies l c =
      db.copies l c + (appended cs).countP fun row => row.origin = .delivered l c := by
  rw [Savefile.copies, sentItems_perform, List.countP_append]
  rfl

/-- Without a record there is no copy. -/
theorem Savefile.Recorded.copies_eq_zero (h : db.Recorded) {l c : GoString}
    (hrow : (⟨l, c⟩ : ReceivedRow) ∉ db.receivedItems.rows) : db.copies l c = 0 := by
  rw [Savefile.copies, List.countP_eq_zero]
  intro row hmem horigin
  exact hrow (h row hmem l c (of_decide_eq_true horigin))

/-- Rows of items that are not recorded yet, each once, keep the copies single. -/
theorem atMostOnce_perform {cs : List Commit} (rows : List ReceivedRow)
    (h : db.AtMostOnce) (hr : db.Recorded)
    (hrows : ∀ l c, (appended cs).countP (fun row => row.origin = .delivered l c) =
      (rows.map ReceivedRow.origin).count (.delivered l c))
    (hnew : ∀ r ∈ rows, r ∉ db.receivedItems.rows) (hnd : rows.Nodup) :
    (perform db cs).AtMostOnce := by
  intro l c
  rw [copies_perform, hrows]
  by_cases hmem : (⟨l, c⟩ : ReceivedRow) ∈ rows
  · have hzero : db.copies l c = 0 := hr.copies_eq_zero (hnew _ hmem)
    have hone : (rows.map ReceivedRow.origin).count (.delivered l c) ≤ 1 :=
      List.nodup_iff_count_le_one.mp (hnd.map ReceivedRow.origin_injective) _
    omega
  · have hzero : (rows.map ReceivedRow.origin).count (.delivered l c) = 0 := by
      refine List.count_eq_zero.mpr fun horigin => ?_
      obtain ⟨r, hr, hro⟩ := List.mem_map.mp horigin
      have : r = ⟨l, c⟩ := ReceivedRow.origin_injective hro
      exact hmem (this ▸ hr)
    have hle := h l c
    omega

/-- Each item has one row at most, and a record with it. -/
def Savefile.Tidy (db : Savefile) : Prop := db.AtMostOnce ∧ db.Recorded

theorem Savefile.Tidy.of_eq {db' : Savefile} (h : db.Tidy) (hsent : db'.sentItems = db.sentItems)
    (hrec : ∀ r ∈ db.receivedItems.rows, r ∈ db'.receivedItems.rows) : db'.Tidy := by
  refine ⟨fun l c => ?_, fun row hrow l c horigin => ?_⟩
  · rw [Savefile.copies, hsent]
    exact h.1 l c
  · rw [hsent] at hrow
    exact hrec _ (h.2 row hrow l c horigin)

/-- A message that delivers nothing appends no row that needs a record. -/
theorem Handled.tidy {m : Incoming} {r : Except Stop Session} {t : Trace}
    (h : Handled cfg env sess db m r t) (hm : ¬ m.Delivers) (hdb : db.Tidy) (w : Nat) :
    (perform db ((commits t).take w)).Tidy := by
  have hother : ∀ row ∈ appended ((commits t).take w), ∀ l c, row.origin ≠ .delivered l c :=
    fun row hrow => h.origin_ne_delivered hm ((appended_take_sublist w _).subset hrow)
  have hrec : ∀ c ∈ (commits t).take w, c.target ≠ .received :=
    fun c hc => h.target_ne_received hm c (List.mem_of_mem_take hc)
  constructor
  · refine atMostOnce_perform [] hdb.1 hdb.2 (fun l c => ?_) (by simp) List.nodup_nil
    rw [List.map_nil, List.count_nil, List.countP_eq_zero]
    intro row hrow horigin
    exact hother row hrow l c (of_decide_eq_true horigin)
  · intro row hrow l c horigin
    rw [receivedItems_perform hrec]
    rw [sentItems_perform] at hrow
    rcases List.mem_append.mp hrow with hrow | hrow
    · exact hdb.2 row hrow l c horigin
    · exact absurd horigin (hother row hrow l c)

/-- A delivery that is not stopped gives the new item its row and its record. -/
theorem tidy_delivery {m : DataReceiveMessage} {item : NetworkItem}
    (hlabel : m.label = labelMultiworldItem)
    (hnew : db.hasReceivedItem env m.label m.content = false) (hnull : ¬ env.BindsNull m.content)
    (h : db.Tidy) :
    (perform db [.addSentItems [sentRow item (.delivered m.label m.content)],
      .addReceivedItem (some m.label) (some m.content)]).Tidy := by
  obtain ⟨t, ht, hrow, hperform⟩ := perform_delivery
    (sentRow item (.delivered m.label m.content)) hlabel hnew hnull
  have horigin : (receivedRow m.content).origin = .delivered m.label m.content := by
    rw [hlabel]
    rfl
  constructor
  · refine atMostOnce_perform [receivedRow m.content] h.1 h.2 (fun l c => ?_)
      (fun r hr => List.mem_singleton.mp hr ▸ hrow) (List.nodup_singleton _)
    simp only [appended, List.append_nil, List.countP_singleton, List.map_singleton,
      List.count_singleton, horigin, sentRow, beq_iff_eq, decide_eq_true_eq]
  · rw [hperform]
    intro row hmem l c hro
    have hcases : row ∈ db.sentItems ++ [sentRow item (.delivered m.label m.content)] := hmem
    change _ ∈ t.rows
    rw [ht]
    rcases List.mem_append.mp hcases with hold | hone
    · exact List.mem_append_left _ (h.2 row hold l c hro)
    · have hrow' := List.mem_singleton.mp hone
      rw [hrow'] at hro
      have : receivedRow m.content = ⟨l, c⟩ := ReceivedRow.origin_injective (horigin.trans hro)
      exact List.mem_append_right _ (this ▸ List.mem_singleton_self _)

/-- A record without its row is not a copy. -/
theorem tidy_recordCommits {rows : List ReceivedRow}
    (hlabel : ∀ r ∈ rows, r.label = labelMultiworldItem)
    (hnd : (db.receivedItems.rows ++ rows).Nodup) (h : db.Tidy) :
    (perform db (recordCommits rows)).Tidy := by
  obtain ⟨t, ht, hrecord⟩ := perform_recordCommits hlabel hnd
  rw [hrecord]
  refine h.of_eq rfl fun r hr => ?_
  change r ∈ t.rows
  rw [ht]
  exact List.mem_append_left _ hr

/-- A batch records its items before it appends them, each once. -/
theorem tidy_batch {rows : List ReceivedRow} {items : List (NetworkItem × Origin)}
    (hlabel : ∀ r ∈ rows, r.label = labelMultiworldItem)
    (hnd : (db.receivedItems.rows ++ rows).Nodup)
    (horigin : items.map Prod.snd = rows.map ReceivedRow.origin) (h : db.Tidy) :
    (perform db (recordCommits rows ++ [Commit.addSentItems (sentRows items)])).Tidy := by
  have hsent : (sentRows items).map SentRow.origin = rows.map ReceivedRow.origin := by
    rw [← horigin, sentRows, List.map_map]
    rfl
  obtain ⟨hold, hrows, hdisj⟩ := List.nodup_append.mp hnd
  constructor
  · refine atMostOnce_perform rows h.1 h.2 (fun l c => ?_)
      (fun r hr hmem => hdisj r hmem r hr rfl) hrows
    rw [appended_append, appended_recordCommits, List.nil_append, ← hsent, List.count, List.countP_map]
    simp only [appended, List.append_nil]
    rfl
  · obtain ⟨t, ht, hrecord⟩ := perform_recordCommits hlabel hnd
    rw [perform_append, hrecord, perform_cons, perform_nil, write_of_ok (apply_addSentItems _ _)]
    intro row hmem l c hro
    have hcases : row ∈ db.sentItems ++ sentRows items := hmem
    change _ ∈ t.rows
    rw [ht]
    rcases List.mem_append.mp hcases with hmem | hmem
    · exact List.mem_append_left _ (h.2 row hmem l c hro)
    · have hin : Origin.delivered l c ∈ rows.map ReceivedRow.origin :=
        hsent ▸ hro ▸ List.mem_map_of_mem hmem
      obtain ⟨r, hr, hro'⟩ := List.mem_map.mp hin
      have : r = ⟨l, c⟩ := ReceivedRow.origin_injective hro'
      exact List.mem_append_right _ (this ▸ hr)

/-- Wherever a batch stops, its items are single. -/
theorem tidy_batch_take {rows : List ReceivedRow} {items : List (NetworkItem × Origin)}
    (hlabel : ∀ r ∈ rows, r.label = labelMultiworldItem)
    (hnd : (db.receivedItems.rows ++ rows).Nodup)
    (horigin : items.map Prod.snd = rows.map ReceivedRow.origin) (h : db.Tidy) (w : Nat) :
    (perform db ((recordCommits rows ++ [Commit.addSentItems (sentRows items)]).take w)).Tidy := by
  rcases take_batch rows (.addSentItems (sentRows items)) w with ⟨-, htake⟩ | ⟨-, htake⟩
  · rw [htake]
    exact tidy_batch hlabel hnd horigin h
  · rw [htake]
    exact tidy_recordCommits (fun r hr => hlabel r (List.mem_of_mem_take hr))
      (hnd.sublist ((List.take_sublist w rows).append_left _)) h

/-- A step that does not stop a delivery halfway keeps the savefile tidy. The
number of writes that it makes is `w`. -/
theorem Handled.tidy_take {m : Incoming} {r : Except Stop Session} {t : Trace}
    (h : Handled cfg env sess db m r t) (hdb : db.Tidy) (w : Nat)
    (hw : ∀ d, m = .fromMW (.dataReceive d) → sess.Addressed d →
      db.hasReceivedItem env d.label d.content = false →
        w = 0 ∨ 2 ≤ w ∧ ¬ env.BindsNull d.content) :
    (perform db ((commits t).take w)).Tidy := by
  by_cases hd : m.Delivers
  · have hnd : ∀ b : DatasReceiveMessage, (db.receivedItems.rows ++
        (newRows env db.receivedItems.rows b.items).1).Nodup := fun b =>
      newRows_nodup env b.items (by simpa using db.receivedItems.nodup)
    cases h with
    | quiet _ hq _ => simpa [hq.commits] using hdb
    | @delivered m item ha hnew _ hnull =>
      rcases hw m rfl ha hnew with rfl | ⟨hw, -⟩
      · exact hdb
      · rw [commits_append, commits_appendTrace, commits_deliveredTrace, List.singleton_append,
          List.take_of_length_le (by simpa using hw)]
        exact tidy_delivery ha.1 hnew hnull hdb
    | @unrecorded m item ha _ hnull =>
      have hnew : db.hasReceivedItem env m.label m.content = false := by
        rw [ha.1]
        exact hasReceivedItem_eq_false.mpr (.inl hnull)
      rcases hw m rfl ha hnew with rfl | ⟨-, hnot⟩
      · exact hdb
      · exact absurd hnull hnot
    | @released b items _ horigin _ =>
      rw [commits_append, commits_recordTrace, commits_batchTrace]
      exact tidy_batch_take (fun r => label_of_mem_newRows) (hnd b) horigin hdb w
    | @unreleased b _ =>
      rw [commits_recordTrace, take_recordCommits]
      exact tidy_recordCommits (fun r hr => label_of_mem_newRows (List.mem_of_mem_take hr))
        ((hnd b).sublist ((List.take_sublist w _).append_left _)) hdb
    | stored _ | confirmed | collected _ | unsent _ | sent _ _ _ | checked _ => cases hd
  · exact h.tidy hd hdb w

theorem tidy_step {s : System} (ho : s.Opened cfg) (hdb : s.db.Tidy) {e : Event}
    (he : s.DeliveryUnbroken e) : (step cfg s e).db.Tidy := by
  generalize hs' : step cfg s e = s'
  have hstep : Stepped cfg s e s' := hs' ▸ stepped ho e
  cases hstep with
  | stayed _ hsdb _ _ =>
    rw [hsdb]
    exact hdb
  | @handled env sess m r t hs h =>
    have hkeep := h.tidy_take hdb ((commits t).length + 2) (by
      rintro d rfl ha -
      exact .inr ⟨by omega, he sess hs ha⟩)
    rw [List.take_of_length_le (by omega), ← replay_eq_perform] at hkeep
    exact hkeep
  | @killed env sess m r t w n hs h =>
    dsimp only
    rw [replay_cut, commits_io]
    exact h.tidy_take hdb w (by
      rintro d rfl ha hnew
      exact he sess hs ha hnew)

/-- In a run from a created savefile in which no delivery is stopped halfway, no
delivered item has two rows, however often it is delivered. -/
theorem delivered_at_most_once {env : Env} {result : ResultMessage}
    {precollectedItems : List Int} {db : Savefile}
    (h : createSavefile env result precollectedItems = .ok db) {cfg : Config} {es : List Event}
    (hes : Runs.Meets (step cfg) System.DeliveryUnbroken (boot db) es) :
    (play cfg db es).db.AtMostOnce := by
  have hfresh := createSavefile_fresh h
  have hnone : ∀ row ∈ db.sentItems, ∀ l c, row.origin ≠ .delivered l c := by
    intro row hrow l c
    rw [hfresh.sent row hrow]
    simp
  have hboot : db.Tidy := by
    constructor
    · intro l c
      have hzero : db.copies l c = 0 := by
        rw [Savefile.copies, List.countP_eq_zero]
        intro row hrow horigin
        exact hnone row hrow l c (of_decide_eq_true horigin)
      omega
    · intro row hrow l c horigin
      exact absurd horigin (hnone row hrow l c)
  have hrun := hes.keep (I := fun s => s.Opened cfg ∧ s.db.Tidy)
    (fun s e hs he => ⟨opened_step hs.1 e, tidy_step hs.1 hs.2 he⟩) ⟨opened_boot cfg db, hboot⟩
  exact hrun.2.1

end Writes

/-- The delivery of one item. -/
def keyDelivery : DataReceiveMessage := ⟨labelMultiworldItem, lit "Key_(4)", lit "B", 1⟩

/-- An item that is delivered twice, to two processes, has one row. -/
theorem delivered_at_most_once_sample : ∃ db,
    createSavefile (Env.inOrder false) sampleResult [] = .ok db ∧
      (play sampleConfig db
        [.connect, .handle (Env.inOrder false) (.fromMW (.dataReceive keyDelivery)),
          .connect, .handle (Env.inOrder false) (.fromMW (.dataReceive keyDelivery))]).db.AtMostOnce := by
  obtain ⟨db, h, -⟩ := exists_created
    (x := createSavefile (Env.inOrder false) sampleResult []) (P := fun _ => True)
    (by decide +kernel)
  have hnull : ¬ (Env.inOrder false).BindsNull keyDelivery.content := fun h => by cases h.1
  exact ⟨db, h, delivered_at_most_once h
    ⟨trivial, fun _ _ _ => hnull, trivial, fun _ _ _ => hnull, trivial⟩⟩

/-- A kill between the row of an item and its record lets the item come twice. -/
theorem delivered_twice : ∃ db,
    createSavefile (Env.inOrder false) sampleResult [] = .ok db ∧
      ¬ (play sampleConfig db
        [.connect, .kill (Env.inOrder false) (.fromMW (.dataReceive keyDelivery)) 1 0,
          .connect, .handle (Env.inOrder false) (.fromMW (.dataReceive keyDelivery))]).db.AtMostOnce := by
  obtain ⟨db, h, htwo⟩ := exists_created
    (x := createSavefile (Env.inOrder false) sampleResult [])
    (P := fun db => (play sampleConfig db
        [.connect, .kill (Env.inOrder false) (.fromMW (.dataReceive keyDelivery)) 1 0,
          .connect, .handle (Env.inOrder false) (.fromMW (.dataReceive keyDelivery))]).db.copies
        labelMultiworldItem (lit "Key_(4)") = 2)
    (by decide +kernel)
  refine ⟨db, h, fun hone => ?_⟩
  have hle := hone labelMultiworldItem (lit "Key_(4)")
  omega

end Isthmus
