import Isthmus.Duplicates

/-!
# Collected items

A collect appends the own items of other worlds that are not recorded as
received, and records none of them. A later collect or delivery of such an item
appends it again.

## Main definitions

- `Savefile.given`: how often an own item was appended
- `Savefile.Missing`: an own item of another world is not recorded as received
- `Session.CollectsLast`: what may come after a collect
-/

namespace Isthmus

open Process Mwproto Approto

/-- The row was appended for the own item, by a delivery or by a collect. -/
def SentRow.Gives (row : SentRow) (name : GoString) : Prop :=
  row.origin = .delivered labelMultiworldItem name ∨ row.origin = .collected name

instance (row : SentRow) (name : GoString) : Decidable (row.Gives name) :=
  inferInstanceAs (Decidable (_ ∨ _))

/-- How often an own item was appended. -/
def Savefile.given (db : Savefile) (name : GoString) : Nat :=
  db.sentItems.countP fun row => row.Gives name

/-- An own item that another player finds. -/
def SetupTables.Foreign (setup : SetupTables) (selfID : Int) (name : GoString) : Prop :=
  ∃ own ∈ setup.ownItemPlacements.rows, own.itemName = name ∧ own.sourcePlayerID ≠ selfID

instance (setup : SetupTables) (selfID : Int) (name : GoString) :
    Decidable (setup.Foreign selfID name) :=
  inferInstanceAs (Decidable (∃ own ∈ setup.ownItemPlacements.rows,
    own.itemName = name ∧ own.sourcePlayerID ≠ selfID))

/-- The item is an own one that another player finds, and not recorded as received. -/
def Savefile.Missing (db : Savefile) (selfID : Int) (name : GoString) : Prop :=
  db.Foreign selfID name ∧ receivedRow name ∉ db.receivedItems.rows

/-- The row was appended by a collect. -/
def SentRow.isCollected (row : SentRow) : Bool :=
  match row.origin with
  | .collected _ => true
  | _ => false

/-- A collect has given items. -/
def Savefile.Collected (db : Savefile) : Prop := ∃ row ∈ db.sentItems, row.isCollected = true

instance (db : Savefile) : Decidable db.Collected :=
  inferInstanceAs (Decidable (∃ row ∈ db.sentItems, row.isCollected = true))

/-- Once a collect has given items, there is no other collect while an item is missing, and
no delivery of a missing item. An item whose empty name is bound as NULL is not delivered at
all. -/
def Session.CollectsLast (sess : Session) (env : Env) (db : Savefile) : Incoming → Prop
  | .fromAP (.say text) =>
    text = lit "!collect" → db.Collected → ∀ name, ¬ db.Missing sess.playerID name
  | .fromMW (.dataReceive m) =>
    sess.Addressed m →
      (env.BindsNull m.content → ¬ db.Foreign sess.playerID m.content) ∧
        (db.Collected → ¬ db.Missing sess.playerID m.content)
  | .fromMW (.datasReceive m) =>
    (∀ item ∈ m.items, item.label = labelMultiworldItem → ¬ env.BindsNull item.content) →
      db.Collected → ∀ item ∈ m.items, item.label = labelMultiworldItem →
        ¬ db.Missing sess.playerID item.content
  | _ => True

/-- The messages that are handled leave what a collect has given. -/
def System.CollectsLast (s : System) : Event → Prop
  | .handle env m => ∀ sess, s.session = some sess → sess.CollectsLast env s.db m
  | _ => True

/-- Each item of another world is given once at most, and is recorded if a
delivery gave it. -/
structure Savefile.GivesOnce (db : Savefile) (selfID : Int) : Prop where
  once : ∀ name, db.Foreign selfID name → db.given name ≤ 1
  recorded : ∀ name, db.Foreign selfID name → ∀ row ∈ db.sentItems,
    row.origin = .delivered labelMultiworldItem name → receivedRow name ∈ db.receivedItems.rows

section Collected

variable {cfg : Config} {env : Env} {sess : Session} {db : Savefile}

theorem given_perform (cs : List Commit) (name : GoString) :
    (perform db cs).given name =
      db.given name + (appended cs).countP fun row => row.Gives name := by
  rw [Savefile.given, sentItems_perform, List.countP_append]
  rfl

/-- A missing item was not given before the first collect. -/
theorem given_eq_zero {selfID : Int} (h : db.GivesOnce selfID) {name : GoString}
    (hmissing : db.Missing selfID name) (hcol : ¬ db.Collected) : db.given name = 0 := by
  rw [Savefile.given, List.countP_eq_zero]
  intro row hrow hgives
  rcases of_decide_eq_true hgives with hd | hc
  · exact hmissing.2 (h.recorded name hmissing.1 row hrow hd)
  · refine hcol ⟨row, hrow, ?_⟩
    rw [SentRow.isCollected, hc]

/-- Appending each of some items once, where none of them was given. -/
theorem givesOnce_perform {selfID : Int} {cs : List Commit} (names : List GoString)
    (h : db.GivesOnce selfID) (hnd : names.Nodup)
    (hgives : ∀ name, (appended cs).countP (fun row => row.Gives name) = names.count name)
    (hnew : ∀ name ∈ names, db.Foreign selfID name → db.given name = 0)
    (hrec : ∀ name, db.Foreign selfID name → ∀ row ∈ appended cs,
      row.origin = .delivered labelMultiworldItem name →
        receivedRow name ∈ (perform db cs).receivedItems.rows) :
    (perform db cs).GivesOnce selfID := by
  constructor
  · intro name hf
    rw [perform_toSetupTables] at hf
    rw [given_perform, hgives]
    by_cases hmem : name ∈ names
    · have hzero := hnew name hmem hf
      have hone := List.nodup_iff_count_le_one.mp hnd name
      omega
    · have hzero := List.count_eq_zero.mpr hmem
      have hle := h.once name hf
      omega
  · intro name hf row hrow horigin
    rw [perform_toSetupTables] at hf
    rw [sentItems_perform] at hrow
    rcases List.mem_append.mp hrow with hrow | hrow
    · exact receivedItems_subset_perform cs (h.recorded name hf row hrow horigin)
    · exact hrec name hf row hrow horigin

/-- Rows that are appended for no own item. -/
theorem givesOnce_other {selfID : Int} {cs : List Commit} (h : db.GivesOnce selfID)
    (hrows : ∀ row ∈ appended cs, ∀ name, ¬ row.Gives name) : (perform db cs).GivesOnce selfID := by
  refine givesOnce_perform [] h List.nodup_nil (fun name => ?_) (by simp) ?_
  · rw [List.count_nil, List.countP_eq_zero]
    intro row hrow hgives
    exact hrows row hrow name (of_decide_eq_true hgives)
  · intro name _ row hrow horigin
    exact absurd (.inl horigin) (hrows row hrow name)

/-- The collected items are distinct, come from other worlds and are not recorded. -/
theorem nodup_collectable (db : Savefile) (env : Env) (selfID : Int) :
    ((db.getCollectablePlacements env selfID).map OwnItemPlacement.itemName).Nodup := by
  rw [Savefile.getCollectablePlacements, List.map_map]
  have hperm := (env.scanOwnItems_perm db.ownItemPlacements.rows).map OwnItemRow.itemName
  exact (hperm.nodup_iff.mpr db.ownItemPlacements.nodup).sublist (List.filter_sublist.map _)

theorem missing_of_collectable {selfID : Int} {p : OwnItemPlacement}
    (h : p ∈ db.getCollectablePlacements env selfID) : db.Missing selfID p.itemName := by
  obtain ⟨row, hrow, hself, hrec, rfl⟩ := Savefile.mem_getCollectablePlacements.mp h
  exact ⟨⟨row, hrow, rfl, hself⟩, hrec⟩

/-- A delivery or a collect gives an item as often as its reason names it. -/
theorem countP_gives {rows : List SentRow} {names : List GoString} {f : GoString → Origin}
    (hf : ∀ name name', f name = .delivered labelMultiworldItem name' ∨
      f name = .collected name' ↔ name = name')
    (h : rows.map SentRow.origin = names.map f) (name : GoString) :
    rows.countP (fun row => row.Gives name) = names.count name := by
  have hrows : rows.countP (fun row => row.Gives name) =
      (rows.map SentRow.origin).countP fun o =>
        o = .delivered labelMultiworldItem name ∨ o = .collected name := by
    rw [List.countP_map]
    rfl
  rw [hrows, h, List.countP_map, List.count]
  refine List.countP_congr fun name' _ => ?_
  simp only [Function.comp, decide_eq_true_eq, beq_iff_eq]
  exact hf name' name

theorem delivered_iff (name name' : GoString) :
    Origin.delivered labelMultiworldItem name = .delivered labelMultiworldItem name' ∨
      Origin.delivered labelMultiworldItem name = .collected name' ↔ name = name' := by
  simp

theorem collected_iff (name name' : GoString) :
    Origin.collected name = .delivered labelMultiworldItem name' ∨
      Origin.collected name = .collected name' ↔ name = name' := by
  simp

/-- A new item has no row, as one that was delivered is recorded. -/
theorem givesOnce_delivered {m : DataReceiveMessage} {item : NetworkItem} {selfID : Int}
    (hlabel : m.label = labelMultiworldItem)
    (hnew : db.hasReceivedItem env m.label m.content = false) (hnull : ¬ env.BindsNull m.content)
    (hcol : db.Collected → ¬ db.Missing selfID m.content) (h : db.GivesOnce selfID) :
    (perform db [.addSentItems [sentRow item (.delivered m.label m.content)],
      .addReceivedItem (some m.label) (some m.content)]).GivesOnce selfID := by
  obtain ⟨t, ht, hrow, hperform⟩ := perform_delivery
    (sentRow item (.delivered m.label m.content)) hlabel hnew hnull
  refine givesOnce_perform [m.content] h (List.nodup_singleton _) ?_ ?_ ?_
  · refine countP_gives delivered_iff ?_
    simp [appended, sentRow, hlabel]
  · intro name hname hf
    rw [List.mem_singleton.mp hname] at hf ⊢
    exact given_eq_zero h ⟨hf, hrow⟩ fun hc => hcol hc ⟨hf, hrow⟩
  · intro name _ row hmem horigin
    rw [hperform]
    change _ ∈ t.rows
    simp only [appended, List.append_nil, List.mem_singleton] at hmem
    rw [hmem] at horigin
    simp only [sentRow, Origin.delivered.injEq] at horigin
    rw [ht, ← horigin.2]
    exact List.mem_append_right _ (List.mem_singleton_self _)

theorem givesOnce_batch {rows : List ReceivedRow} {items : List (NetworkItem × Origin)}
    {selfID : Int} (hlabel : ∀ r ∈ rows, r.label = labelMultiworldItem)
    (hnd : (db.receivedItems.rows ++ rows).Nodup)
    (horigin : items.map Prod.snd = rows.map ReceivedRow.origin)
    (hcol : db.Collected → ∀ r ∈ rows, ¬ db.Missing selfID r.content)
    (h : db.GivesOnce selfID) :
    (perform db (recordCommits rows ++ [Commit.addSentItems (sentRows items)])).GivesOnce selfID := by
  obtain ⟨-, hrows, hdisj⟩ := List.nodup_append.mp hnd
  have hrow : ∀ r ∈ rows, r = receivedRow r.content := by
    intro r hr
    obtain ⟨l, c⟩ := r
    have hl : l = labelMultiworldItem := hlabel _ hr
    rw [hl]
    rfl
  have hsent : (sentRows items).map SentRow.origin =
      (rows.map ReceivedRow.content).map (Origin.delivered labelMultiworldItem) := by
    have hmap : (sentRows items).map SentRow.origin = items.map Prod.snd := by
      rw [sentRows, List.map_map]
      rfl
    rw [hmap, horigin, List.map_map]
    refine List.map_congr_left fun r hr => ?_
    rw [ReceivedRow.origin, hlabel r hr]
    rfl
  have happended : appended (recordCommits rows ++ [Commit.addSentItems (sentRows items)]) =
      sentRows items := by
    rw [appended_append, appended_recordCommits]
    simp [appended]
  refine givesOnce_perform (rows.map ReceivedRow.content) h ?_ ?_ ?_ ?_
  · refine List.Nodup.map_on (fun r hr r' hr' hcontent => ?_) hrows
    rw [hrow r hr, hrow r' hr', hcontent]
  · rw [happended]
    exact countP_gives delivered_iff hsent
  · intro name hname hf
    obtain ⟨r, hr, rfl⟩ := List.mem_map.mp hname
    have hnew : receivedRow r.content ∉ db.receivedItems.rows := fun hmem =>
      hdisj _ hmem r hr (hrow r hr).symm
    exact given_eq_zero h ⟨hf, hnew⟩ fun hc => hcol hc r hr ⟨hf, hnew⟩
  · intro name _ row hmem hro
    rw [happended] at hmem
    have hname : Origin.delivered labelMultiworldItem name ∈
        (rows.map ReceivedRow.content).map (Origin.delivered labelMultiworldItem) :=
      hsent ▸ hro ▸ List.mem_map_of_mem hmem
    simp only [List.mem_map, Origin.delivered.injEq, true_and, exists_eq_right] at hname
    obtain ⟨r, hr, rfl⟩ := hname
    obtain ⟨t, ht, hrecord⟩ := perform_recordCommits hlabel hnd
    rw [perform_append, hrecord, perform_cons, perform_nil, write_of_ok (apply_addSentItems _ _)]
    change _ ∈ t.rows
    rw [ht, ← hrow r hr]
    exact List.mem_append_right _ hr

/-- An item that is appended without a record must not be an own one. -/
theorem givesOnce_unrecorded {m : DataReceiveMessage} {item : NetworkItem} {selfID : Int}
    (hlabel : m.label = labelMultiworldItem) (hf : ¬ db.Foreign selfID m.content)
    (h : db.GivesOnce selfID) :
    (perform db [.addSentItems [sentRow item (.delivered m.label m.content)]]).GivesOnce selfID := by
  refine givesOnce_perform [m.content] h (List.nodup_singleton _) ?_ ?_ ?_
  · refine countP_gives delivered_iff ?_
    simp [appended, sentRow, hlabel]
  · intro name hname hf'
    exact absurd (List.mem_singleton.mp hname ▸ hf') hf
  · intro name hf' row hmem horigin
    simp only [appended, List.append_nil, List.mem_singleton] at hmem
    rw [hmem] at horigin
    simp only [sentRow, Origin.delivered.injEq] at horigin
    exact absurd (horigin.2 ▸ hf') hf

/-- A collect gives the missing items. -/
theorem givesOnce_collected {items : List (NetworkItem × Origin)}
    (hitems : sess.collectItems cfg (db.getCollectablePlacements env sess.playerID) = .ok items)
    (hcol : db.Collected → ∀ name, ¬ db.Missing sess.playerID name)
    (h : db.GivesOnce sess.playerID) :
    (perform db [.addSentItems (sentRows items)]).GivesOnce sess.playerID := by
  have hsent : (sentRows items).map SentRow.origin =
      ((db.getCollectablePlacements env sess.playerID).map OwnItemPlacement.itemName).map
        Origin.collected := by
    rw [sentRows, List.map_map, List.map_map]
    exact collectItems_origin hitems
  refine givesOnce_perform
    ((db.getCollectablePlacements env sess.playerID).map OwnItemPlacement.itemName) h
    (nodup_collectable db env sess.playerID) ?_ ?_ ?_
  · simp only [appended, List.append_nil]
    exact countP_gives collected_iff hsent
  · intro name hname hf
    obtain ⟨p, hp, rfl⟩ := List.mem_map.mp hname
    have hmissing := missing_of_collectable hp
    exact given_eq_zero h hmissing fun hc => hcol hc p.itemName hmissing
  · intro name _ row hmem horigin
    simp only [appended, List.append_nil] at hmem
    have hcollected : row.origin ∈ ((db.getCollectablePlacements env sess.playerID).map
        OwnItemPlacement.itemName).map Origin.collected := hsent ▸ List.mem_map_of_mem hmem
    rw [horigin] at hcollected
    simp at hcollected

/-- A message that leaves what was collected gives each item once. -/
theorem Handled.givesOnce {m : Incoming} {r : Except Stop Session} {t : Trace}
    (h : Handled cfg env sess db m r t) (hm : sess.CollectsLast env db m)
    (hdb : db.GivesOnce sess.playerID) :
    (perform db (commits t)).GivesOnce sess.playerID := by
  have hnd : ∀ b : DatasReceiveMessage, (db.receivedItems.rows ++
      (newRows env db.receivedItems.rows b.items).1).Nodup := fun b =>
    newRows_nodup env b.items (by simpa using db.receivedItems.nodup)
  cases h with
  | quiet _ hq _ => simpa [hq.commits] using hdb
  | stored hq => exact givesOnce_other hdb (by simp [hq.commits, appended])
  | @delivered m item ha hnew _ hnull =>
    rw [commits_append, commits_appendTrace, commits_deliveredTrace, List.singleton_append]
    exact givesOnce_delivered ha.1 hnew hnull (hm ha).2 hdb
  | @unrecorded m item ha _ hnull =>
    rw [commits_appendTrace]
    exact givesOnce_unrecorded ha.1 ((hm ha).1 hnull) hdb
  | @released b items hdone horigin _ =>
    rw [commits_append, commits_recordTrace, commits_batchTrace]
    refine givesOnce_batch (fun r => label_of_mem_newRows) (hnd b) horigin (fun hc r hr => ?_) hdb
    obtain ⟨item, hmem, hlabel, rfl⟩ := exists_of_mem_newRows hr
    exact hm (newRows_snd.mp hdone) hc item hmem hlabel
  | @unreleased b _ =>
    rw [commits_recordTrace]
    exact givesOnce_other hdb (by simp)
  | confirmed => exact givesOnce_other hdb (by simp [appended])
  | collected hitems => exact givesOnce_collected hitems (hm rfl) hdb
  | unsent _ => exact hdb
  | sent _ _ _ => exact givesOnce_other hdb (by simp [appended])
  | checked hc =>
    refine givesOnce_other hdb fun row hrow name hgives => ?_
    obtain ⟨id, hid⟩ := hc.frame.2 row hrow
    rcases hgives with hd | hc
    · rw [hid] at hd
      cases hd
    · rw [hid] at hc
      cases hc

theorem givesOnce_step {s : System} (ho : s.Opened cfg) (hdb : s.db.GivesOnce s.db.selfID)
    {e : Event} (hsurv : e.Survives) (he : s.CollectsLast e) :
    (step cfg s e).db.GivesOnce (step cfg s e).db.selfID := by
  rw [step_toSetupTables]
  generalize hs' : step cfg s e = s'
  have hstep : Stepped cfg s e s' := hs' ▸ stepped ho e
  cases hstep with
  | stayed _ hsdb _ _ =>
    rw [hsdb]
    exact hdb
  | @handled env sess m r t hs h =>
    have hself := ho.selfID hs
    rw [hself] at hdb ⊢
    dsimp only
    rw [replay_eq_perform]
    exact h.givesOnce (he sess hs) hdb
  | killed _ _ => exact absurd hsurv id

/-- In a run without kills whose messages leave what a collect has given, each own item that
another player finds is given once at most. -/
theorem own_items_given_once {env : Env} {result : ResultMessage}
    {precollectedItems : List Int} {db : Savefile}
    (h : createSavefile env result precollectedItems = .ok db) {cfg : Config} {es : List Event}
    (hsurv : ∀ e ∈ es, e.Survives)
    (hes : Runs.Meets (step cfg) System.CollectsLast (boot db) es) {name : GoString}
    (hf : db.Foreign db.selfID name) : (play cfg db es).db.given name ≤ 1 := by
  have hfresh := createSavefile_fresh h
  have hboot : db.GivesOnce db.selfID := by
    constructor
    · intro name _
      have hzero : db.given name = 0 := by
        rw [Savefile.given, List.countP_eq_zero]
        intro row hrow hgives
        rcases of_decide_eq_true hgives with hd | hc
        · rw [hfresh.sent row hrow] at hd
          cases hd
        · rw [hfresh.sent row hrow] at hc
          cases hc
      omega
    · intro name _ row hrow horigin
      rw [hfresh.sent row hrow] at horigin
      cases horigin
  have hboth := (Runs.meets_iff_forall.mpr hsurv).and hes
  have hrun := hboth.keep (I := fun s => s.Opened cfg ∧ s.db.GivesOnce s.db.selfID)
    (fun s e hs he => ⟨opened_step hs.1 e, givesOnce_step hs.1 hs.2 he.1 he.2⟩)
    ⟨opened_boot cfg db, hboot⟩
  refine hrun.2.once name ?_
  have hsetup := play_toSetupTables cfg db es
  unfold play at hsetup
  rw [hsetup]
  exact hf

end Collected

/-- A result in which the second player has two items of the first to find. -/
def keyAndBell : ResultMessage :=
  { sampleResult with
    playerItemsPlacements :=
      sampleResult.playerItemsPlacements.insert (lit "Bell_(6)") (lit "MW(1)_Hill") }

def deliverKey : Event :=
  .handle (Env.inOrder false)
    (.fromMW (.dataReceive ⟨labelMultiworldItem, lit "Key_(4)", lit "B", 1⟩))

/-- The key is delivered, a collect gives the bell, and the key is delivered again, in the
same session and in another one. -/
def deliverAndCollect : List Event :=
  [.connect, deliverKey, .handle (Env.inOrder false) (.fromAP (.say (lit "!collect"))), deliverKey,
    .disconnect, .connect, deliverKey]

theorem own_items_given_once_sample : ∃ db,
    createSavefile (Env.inOrder false) keyAndBell [] = .ok db ∧
      (play sampleConfig db deliverAndCollect).db.Collected ∧
      (play sampleConfig db deliverAndCollect).db.given (lit "Key_(4)") ≤ 1 ∧
      (play sampleConfig db deliverAndCollect).db.given (lit "Bell_(6)") ≤ 1 := by
  obtain ⟨db, h, hkey, hbell, hfirst, hbefore, hrecorded, hrecorded', hafter⟩ := exists_created
    (x := createSavefile (Env.inOrder false) keyAndBell [])
    (P := fun db => db.Foreign db.selfID (lit "Key_(4)") ∧ db.Foreign db.selfID (lit "Bell_(6)") ∧
      ¬ (play sampleConfig db (deliverAndCollect.take 1)).db.Collected ∧
      ¬ (play sampleConfig db (deliverAndCollect.take 2)).db.Collected ∧
      receivedRow (lit "Key_(4)") ∈
        (play sampleConfig db (deliverAndCollect.take 3)).db.receivedItems.rows ∧
      receivedRow (lit "Key_(4)") ∈
        (play sampleConfig db (deliverAndCollect.take 6)).db.receivedItems.rows ∧
      (play sampleConfig db deliverAndCollect).db.Collected)
    (by decide +kernel)
  have hnull : ¬ (Env.inOrder false).BindsNull (lit "Key_(4)") := by decide
  have hes : Runs.Meets (step sampleConfig) System.CollectsLast (boot db) deliverAndCollect := by
    refine ⟨trivial, fun sess _ _ => ⟨fun h => absurd h hnull, fun hc => ?_⟩,
      fun sess _ _ hc => absurd hc hbefore,
      fun sess _ _ => ⟨fun h => absurd h hnull, fun _ hm => hm.2 hrecorded⟩, trivial, trivial,
      fun sess _ _ => ⟨fun h => absurd h hnull, fun _ hm => hm.2 hrecorded'⟩, trivial⟩
    exact absurd hc hfirst
  have hsurv : ∀ e ∈ deliverAndCollect, e.Survives := by
    simp [deliverAndCollect, deliverKey, Event.Survives]
  exact ⟨db, h, hafter, own_items_given_once h hsurv hes hkey, own_items_given_once h hsurv hes hbell⟩

/-- A second collect gives the same item again. -/
theorem collected_twice : ∃ db,
    createSavefile (Env.inOrder false) sampleResult [] = .ok db ∧
      db.Foreign db.selfID (lit "Key_(4)") ∧
      ¬ (play sampleConfig db
        [.connect, .handle (Env.inOrder false) (.fromAP (.say (lit "!collect"))),
          .handle (Env.inOrder false) (.fromAP (.say (lit "!collect")))]).db.given
            (lit "Key_(4)") ≤ 1 :=
  exists_created (by decide +kernel)

end Isthmus
