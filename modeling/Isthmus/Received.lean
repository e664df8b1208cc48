import Isthmus.Run

/-!
# Received items

An item that the MW server delivers is appended to the log and recorded as
received, so that a redelivery is not appended again. A row of the log must be
there for each recorded item, or a redelivery is turned away for good; and an
item must be recorded for each row, or a redelivery is appended twice.

## Main definitions

- `Savefile.NoLoss`: each recorded item has a row
- `System.BatchUnbroken`: a released batch is not stopped halfway
- `Savefile.AtMostOnce`: no item has two rows
- `System.DeliveryUnbroken`: a delivery is not stopped halfway
-/

namespace Isthmus

open Process Mwproto Approto

/-- The message delivers items. -/
def Incoming.Delivers : Incoming → Prop
  | .fromMW (.dataReceive _) => True
  | .fromMW (.datasReceive _) => True
  | _ => False

section Frame

variable {cfg : Config} {env : Env} {sess : Session} {db : Savefile}

/-- Location checks record nothing, and append only for their locations. -/
theorem Checks.frame {ids : List Int} {r : Except Stop Unit} {t : Trace}
    (h : Checks cfg env sess db ids r t) :
    (∀ c ∈ commits t, c.target ≠ .received) ∧
      ∀ row ∈ appended (commits t), ∃ id, row.origin = .checked id := by
  induction h with
  | nil => exact ⟨by simp, by simp [appended]⟩
  | skip _ _ ih => exact ih
  | own _ _ _ _ ih =>
    refine ⟨?_, ?_⟩
    · simpa [Commit.target] using ih.1
    · intro row hrow
      simp only [commits_append, commits_ownTrace, appended_append, appended, List.append_nil,
        List.mem_append, List.mem_singleton] at hrow
      rcases hrow with rfl | hrow
      · exact ⟨_, rfl⟩
      · exact ih.2 row hrow
  | foreign _ _ _ _ _ _ _ ih =>
    refine ⟨?_, ?_⟩
    · simpa [Commit.target] using ih.1
    · simpa [appended] using ih.2
  | stop _ _ _ => exact ⟨by simp, by simp [appended]⟩

/-- A message that delivers nothing records nothing. -/
theorem Handled.target_ne_received {m : Incoming} {r : Except Stop Session} {t : Trace}
    (h : Handled cfg env sess db m r t) (hm : ¬ m.Delivers) :
    ∀ c ∈ commits t, c.target ≠ .received := by
  cases h with
  | quiet _ hq _ => simp [hq.commits]
  | stored hq => simp [hq.commits, Commit.target]
  | delivered _ _ _ _ | unrecorded _ _ _ | released _ _ _ | unreleased _ => exact absurd trivial hm
  | confirmed => simp [Commit.target]
  | collected _ => simp [Commit.target]
  | unsent _ => simp
  | sent _ _ _ => simp [Commit.target]
  | checked hc => exact hc.frame.1

/-- Nor does it append a row for a delivery. -/
theorem Handled.origin_ne_delivered {m : Incoming} {r : Except Stop Session} {t : Trace}
    (h : Handled cfg env sess db m r t) (hm : ¬ m.Delivers) {row : SentRow}
    (hrow : row ∈ appended (commits t)) (l c : GoString) : row.origin ≠ .delivered l c := by
  cases h with
  | quiet _ hq _ => simp [hq.commits, appended] at hrow
  | stored hq => simp [hq.commits, appended] at hrow
  | delivered _ _ _ _ | unrecorded _ _ _ | released _ _ _ | unreleased _ => exact absurd trivial hm
  | confirmed => simp [appended] at hrow
  | collected hitems =>
    simp only [commits_collectTrace, appended, List.append_nil, sentRows, List.mem_map] at hrow
    obtain ⟨p, hp, rfl⟩ := hrow
    have horigin : p.2 ∈ (db.getCollectablePlacements env sess.playerID).map
        fun q => Origin.collected q.itemName :=
      collectItems_origin hitems ▸ List.mem_map_of_mem hp
    obtain ⟨q, -, hq⟩ := List.mem_map.mp horigin
    simp [sentRow, ← hq]
  | unsent _ => simp [appended] at hrow
  | sent _ _ _ => simp [appended] at hrow
  | checked hc =>
    obtain ⟨id, hid⟩ := hc.frame.2 row hrow
    simp [hid]

end Frame

/-! ## No recorded item is lost -/

/-- A row was appended for the recorded item. -/
def Savefile.HasRow (db : Savefile) (r : ReceivedRow) : Prop :=
  ∃ row ∈ db.sentItems, row.origin = r.origin

/-- Each recorded item has a row of its own. -/
def Savefile.NoLoss (db : Savefile) : Prop := ∀ r ∈ db.receivedItems.rows, db.HasRow r

instance (db : Savefile) (r : ReceivedRow) : Decidable (db.HasRow r) :=
  inferInstanceAs (Decidable (∃ row ∈ db.sentItems, row.origin = r.origin))

instance (db : Savefile) : Decidable db.NoLoss :=
  inferInstanceAs (Decidable (∀ r ∈ db.receivedItems.rows, db.HasRow r))

/-- A released batch does not stop, by a kill or at an item bound as NULL, after
it recorded an item without a row and before it appended its items. -/
def System.BatchUnbroken (s : System) : Event → Prop
  | .handle env (.fromMW (.datasReceive m)) =>
    s.session.isSome = true →
      (newRows env s.db.receivedItems.rows m.items).2 = true ∨
        ∀ r ∈ (newRows env s.db.receivedItems.rows m.items).1, s.db.HasRow r
  | .kill env (.fromMW (.datasReceive m)) w _ =>
    s.session.isSome = true →
      (newRows env s.db.receivedItems.rows m.items).2 = true ∧
          (newRows env s.db.receivedItems.rows m.items).1.length < w ∨
        ∀ r ∈ (newRows env s.db.receivedItems.rows m.items).1.take w, s.db.HasRow r
  | _ => True

section NoLoss

variable {cfg : Config} {env : Env} {sess : Session} {db : Savefile}

theorem Savefile.HasRow.perform {r : ReceivedRow} (h : db.HasRow r) (cs : List Commit) :
    (perform db cs).HasRow r := by
  obtain ⟨row, hrow, horigin⟩ := h
  exact ⟨row, by rw [sentItems_perform]; exact List.mem_append_left _ hrow, horigin⟩

/-- Writes that record nothing lose nothing. -/
theorem noLoss_perform {cs : List Commit} (hcs : ∀ c ∈ cs, c.target ≠ .received)
    (h : db.NoLoss) : (perform db cs).NoLoss := by
  intro r hr
  rw [receivedItems_perform hcs] at hr
  exact (h r hr).perform cs

/-- Recording rows loses those that have no row in the log. -/
theorem noLoss_recordCommits {rows : List ReceivedRow}
    (hlabel : ∀ r ∈ rows, r.label = labelMultiworldItem)
    (hnd : (db.receivedItems.rows ++ rows).Nodup) (h : db.NoLoss) :
    (perform db (recordCommits rows)).NoLoss ↔ ∀ r ∈ rows, db.HasRow r := by
  obtain ⟨t, ht, hrecord⟩ := perform_recordCommits hlabel hnd
  rw [hrecord]
  constructor
  · intro hloss r hr
    have hmem : r ∈ t.rows := ht ▸ List.mem_append_right _ hr
    exact hloss r hmem
  · intro hrows r hr
    have hmem : r ∈ db.receivedItems.rows ++ rows := ht ▸ hr
    rcases List.mem_append.mp hmem with hr | hr
    · exact h r hr
    · exact hrows r hr

/-- Once the batch is appended too, nothing of it is lost. -/
theorem noLoss_batch {rows : List ReceivedRow} {items : List (NetworkItem × Origin)}
    (hlabel : ∀ r ∈ rows, r.label = labelMultiworldItem)
    (hnd : (db.receivedItems.rows ++ rows).Nodup)
    (horigin : items.map Prod.snd = rows.map ReceivedRow.origin) (h : db.NoLoss) :
    (perform db (recordCommits rows ++ [.addSentItems (sentRows items)])).NoLoss := by
  obtain ⟨t, ht, hrecord⟩ := perform_recordCommits hlabel hnd
  rw [perform_append, hrecord, perform_cons, perform_nil, write_of_ok (apply_addSentItems _ _)]
  intro r hr
  have hmem : r ∈ db.receivedItems.rows ++ rows := ht ▸ hr
  rcases List.mem_append.mp hmem with hr | hr
  · obtain ⟨row, hrow, hro⟩ := h r hr
    exact ⟨row, List.mem_append_left _ hrow, hro⟩
  · have hro : r.origin ∈ items.map Prod.snd := horigin ▸ List.mem_map_of_mem hr
    obtain ⟨p, hp, hpo⟩ := List.mem_map.mp hro
    refine ⟨sentRow p.1 p.2, List.mem_append_right _ ?_, hpo⟩
    exact List.mem_map_of_mem hp

/-- An item that is appended and then recorded has its row. -/
theorem noLoss_delivery {m : DataReceiveMessage} {item : NetworkItem}
    (hlabel : m.label = labelMultiworldItem)
    (hnew : db.hasReceivedItem env m.label m.content = false) (hnull : ¬ env.BindsNull m.content)
    (h : db.NoLoss) :
    (perform db [.addSentItems [sentRow item (.delivered m.label m.content)],
      .addReceivedItem (some m.label) (some m.content)]).NoLoss := by
  obtain ⟨t, ht, -, hperform⟩ := perform_delivery _ hlabel hnew hnull
  rw [hperform]
  intro r hr
  have hmem : r ∈ db.receivedItems.rows ++ [receivedRow m.content] := ht ▸ hr
  rcases List.mem_append.mp hmem with hr | hr
  · obtain ⟨row, hrow, hro⟩ := h r hr
    exact ⟨row, List.mem_append_left _ hrow, hro⟩
  · refine ⟨_, List.mem_append_right _ (List.mem_singleton_self _), ?_⟩
    rw [List.mem_singleton.mp hr, hlabel]
    rfl

/-- A message other than a released batch loses nothing, wherever it stops. -/
theorem Handled.noLoss {m : Incoming} {r : Except Stop Session} {t : Trace}
    (h : Handled cfg env sess db m r t) (hm : ∀ b, m ≠ .fromMW (.datasReceive b))
    (hdb : db.NoLoss) (w : Nat) : (perform db ((commits t).take w)).NoLoss := by
  by_cases hd : m.Delivers
  · cases h with
    | quiet _ hq _ => simpa [hq.commits] using hdb
    | @delivered m item ha hnew _ hnull =>
      have hother : ∀ c ∈ [Commit.addSentItems [sentRow item (.delivered m.label m.content)]],
          c.target ≠ .received := by simp [Commit.target]
      rw [commits_append, commits_appendTrace, commits_deliveredTrace, List.singleton_append]
      obtain _ | _ | w := w
      · exact hdb
      · exact noLoss_perform hother hdb
      · simpa using noLoss_delivery ha.1 hnew hnull hdb
    | @unrecorded m item _ _ _ =>
      refine noLoss_perform (fun c hc => ?_) hdb
      have hc' := List.mem_of_mem_take hc
      rw [commits_appendTrace, List.mem_singleton] at hc'
      simp [hc', Commit.target]
    | released _ _ _ => exact absurd rfl (hm _)
    | unreleased _ => exact absurd rfl (hm _)
    | stored _ | confirmed | collected _ | unsent _ | sent _ _ _ | checked _ => cases hd
  · refine noLoss_perform (fun c hc => ?_) hdb
    exact h.target_ne_received hd c (List.mem_of_mem_take hc)

/-- A batch that records `rows` and is stopped after `w` writes. -/
theorem noLoss_batch_take {rows : List ReceivedRow} {items : List (NetworkItem × Origin)}
    (hlabel : ∀ r ∈ rows, r.label = labelMultiworldItem)
    (hnd : (db.receivedItems.rows ++ rows).Nodup)
    (horigin : items.map Prod.snd = rows.map ReceivedRow.origin) (h : db.NoLoss) (w : Nat) :
    (perform db ((recordCommits rows ++ [Commit.addSentItems (sentRows items)]).take w)).NoLoss ↔
      rows.length < w ∨ ∀ r ∈ rows.take w, db.HasRow r := by
  rcases take_batch rows (.addSentItems (sentRows items)) w with ⟨hw, htake⟩ | ⟨hw, htake⟩
  · rw [htake]
    exact ⟨fun _ => .inl hw, fun _ => noLoss_batch hlabel hnd horigin h⟩
  · have hnd' : (db.receivedItems.rows ++ rows.take w).Nodup :=
      hnd.sublist ((List.take_sublist w rows).append_left _)
    rw [htake, noLoss_recordCommits (fun r hr => hlabel r (List.mem_of_mem_take hr)) hnd' h]
    simp [hw]

/-- A batch that is stopped by an item bound as NULL never appends. -/
theorem noLoss_record_take {rows : List ReceivedRow}
    (hlabel : ∀ r ∈ rows, r.label = labelMultiworldItem)
    (hnd : (db.receivedItems.rows ++ rows).Nodup) (h : db.NoLoss) (w : Nat) :
    (perform db ((recordCommits rows).take w)).NoLoss ↔ ∀ r ∈ rows.take w, db.HasRow r := by
  have hnd' : (db.receivedItems.rows ++ rows.take w).Nodup :=
    hnd.sublist ((List.take_sublist w rows).append_left _)
  rw [take_recordCommits]
  exact noLoss_recordCommits (fun r hr => hlabel r (List.mem_of_mem_take hr)) hnd' h

/-- A batch that is stopped after `w` writes keeps every item exactly if it was through
by then, or if the items that it recorded have rows without it. -/
theorem Handled.noLoss_batch {m : DatasReceiveMessage} {r : Except Stop Session} {t : Trace}
    (h : Handled cfg env sess db (.fromMW (.datasReceive m)) r t) (hdb : db.NoLoss) (w : Nat) :
    (perform db ((commits t).take w)).NoLoss ↔
      (newRows env db.receivedItems.rows m.items).2 = true ∧
          (newRows env db.receivedItems.rows m.items).1.length < w ∨
        ∀ r ∈ (newRows env db.receivedItems.rows m.items).1.take w, db.HasRow r := by
  have hnd := newRows_nodup env m.items (by simpa using db.receivedItems.nodup)
  cases h with
  | quiet hm _ _ => exact absurd rfl (hm m)
  | released hdone horigin _ =>
    rw [commits_append, commits_recordTrace, commits_batchTrace,
      noLoss_batch_take (fun r => label_of_mem_newRows) hnd horigin hdb]
    simp [hdone]
  | unreleased hdone =>
    rw [commits_recordTrace, noLoss_record_take (fun r => label_of_mem_newRows) hnd hdb]
    simp [hdone]

/-- A batch writes no more than its new rows and what it appends. -/
theorem Handled.length_batch_le {m : DatasReceiveMessage} {r : Except Stop Session} {t : Trace}
    (h : Handled cfg env sess db (.fromMW (.datasReceive m)) r t) :
    (commits t).length ≤ (newRows env db.receivedItems.rows m.items).1.length + 1 := by
  cases h with
  | quiet hm _ _ => exact absurd rfl (hm m)
  | released hdone horigin _ => simp [recordCommits]
  | unreleased hdone => simp [recordCommits]

/-- Only a released batch can be broken. -/
theorem batchUnbroken_of_ne {s : System} {e : Event}
    (he : ∀ env b, e ≠ .handle env (.fromMW (.datasReceive b)) ∧
      ∀ w n, e ≠ .kill env (.fromMW (.datasReceive b)) w n) : s.BatchUnbroken e := by
  unfold System.BatchUnbroken
  split
  · next env b => exact absurd rfl (he env b).1
  · next env b w n => exact absurd rfl ((he env b).2 w n)
  · trivial

/-- An event keeps every recorded item exactly if it does not break a batch. -/
theorem noLoss_step {s : System} (ho : s.Opened cfg) (hdb : s.db.NoLoss) (e : Event) :
    (step cfg s e).db.NoLoss ↔ s.BatchUnbroken e := by
  generalize hs' : step cfg s e = s'
  have hstep : Stepped cfg s e s' := hs' ▸ stepped ho e
  cases hstep with
  | stayed he hsdb _ _ =>
    rw [hsdb]
    refine ⟨fun _ => ?_, fun _ => hdb⟩
    rcases he with hnone | rfl | rfl
    · unfold System.BatchUnbroken
      split <;> simp [hnone]
    · exact batchUnbroken_of_ne fun env b => ⟨by simp, by simp⟩
    · exact batchUnbroken_of_ne fun env b => ⟨by simp, by simp⟩
  | @handled env sess m r t hs h =>
    dsimp only
    by_cases hm : ∀ b, m ≠ .fromMW (.datasReceive b)
    · have hkeep := h.noLoss hm hdb (commits t).length
      rw [List.take_length, ← replay_eq_perform] at hkeep
      refine ⟨fun _ => batchUnbroken_of_ne fun env' b => ⟨?_, by simp⟩, fun _ => hkeep⟩
      rintro ⟨⟩
      exact hm b rfl
    · simp only [not_forall, not_not] at hm
      obtain ⟨b, rfl⟩ := hm
      -- all that it writes is written
      rw [replay_eq_perform, ← List.take_of_length_le h.length_batch_le, h.noLoss_batch hdb,
        List.take_of_length_le (Nat.le_succ _)]
      simp [System.BatchUnbroken, hs]
  | @killed env sess m r t w n hs h =>
    dsimp only
    rw [replay_cut, commits_io]
    by_cases hm : ∀ b, m ≠ .fromMW (.datasReceive b)
    · have hkeep := h.noLoss hm hdb w
      refine ⟨fun _ => batchUnbroken_of_ne fun env' b => ⟨by simp, ?_⟩, fun _ => hkeep⟩
      rintro w' n' ⟨⟩
      exact hm b rfl
    · simp only [not_forall, not_not] at hm
      obtain ⟨b, rfl⟩ := hm
      rw [h.noLoss_batch hdb]
      simp [System.BatchUnbroken, hs]

/-- In a run from a created savefile, every recorded item has its row in every
state exactly if no event breaks a batch. -/
theorem recorded_items_have_rows_iff {env : Env} {result : ResultMessage}
    {precollectedItems : List Int} {db : Savefile}
    (h : createSavefile env result precollectedItems = .ok db) (cfg : Config) (es : List Event) :
    (∀ k, (play cfg db (es.take k)).db.NoLoss) ↔
      Runs.Meets (step cfg) System.BatchUnbroken (boot db) es := by
  have hfresh := createSavefile_fresh h
  have hboot : (boot db).db.NoLoss := by
    intro r hr
    have hmem : r ∈ db.receivedItems.rows := hr
    rw [hfresh.received] at hmem
    cases hmem
  exact Runs.forall_take_iff_meets (I := System.Opened cfg) (J := fun s => s.db.NoLoss)
    (fun _ e ho => opened_step ho e) (fun s e ho hdb => noLoss_step ho hdb e) (opened_boot cfg db) hboot

end NoLoss

/-- A release of one item. -/
def keyBatch : DatasReceiveMessage := ⟨[⟨labelMultiworldItem, lit "Key_(4)"⟩], lit "B"⟩

/-- A release that is handled to its end loses nothing. -/
theorem recorded_items_have_rows_sample : ∃ db,
    createSavefile (Env.inOrder false) sampleResult [] = .ok db ∧
      ∀ k, (play sampleConfig db ([.connect,
        .handle (Env.inOrder false) (.fromMW (.datasReceive keyBatch))].take k)).db.NoLoss := by
  obtain ⟨db, h, hdone⟩ := exists_created
    (x := createSavefile (Env.inOrder false) sampleResult [])
    (P := fun db => (newRows (Env.inOrder false)
      (play sampleConfig db [.connect]).db.receivedItems.rows keyBatch.items).2 = true)
    (by decide +kernel)
  refine ⟨db, h, ?_⟩
  exact (recorded_items_have_rows_iff h sampleConfig _).mpr
    ⟨trivial, fun _ => .inl hdone, trivial⟩

/-- A kill between the record of a released item and its row loses the item. -/
theorem recorded_item_without_row : ∃ db,
    createSavefile (Env.inOrder false) sampleResult [] = .ok db ∧
      ¬ (play sampleConfig db
        [.connect, .kill (Env.inOrder false) (.fromMW (.datasReceive keyBatch)) 1 0]).db.NoLoss :=
  exists_created (by decide +kernel)

end Isthmus
