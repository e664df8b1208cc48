import Isthmus.ClientLog
import Isthmus.Refinement

/-!
# What the client is told, and the savefile

Whatever the flags of the client are, and wherever sessions end or the process is killed,
the items that a client was told of stand in the savefile from their index on. This holds
for every message that a goroutine has handed to `Write`.

## Main results

- `told_items_stand`: in every run, kills included
- `Proxy.written_items_stand`: at any moment of a session, for what was handed to `Write`
-/

namespace Isthmus

open Process Mwproto Approto Channels Pipes

/-- The flags of the items in the seed fit in 32 bits. -/
def Config.FlagsFit (cfg : Config) : Prop :=
  ∀ slotID locID item owner flags rest,
    cfg.data.locationOf slotID locID = some (item :: owner :: flags :: rest) → FitsInt32 flags

/-- The items that the client is told of stand in the log, as long as that can be numbered
with 32 bits. -/
def Told (db : Savefile) : Io → Prop
  | .toAP (.receivedItems index items) =>
    db.sentItems.length < 2 ^ 31 → Replica.Quotes db.getSentItems index items
  | _ => True

section Told

variable {cfg : Config} {env : Env} {sess : Session} {db : Savefile} {t : Trace}

/-- No write takes back what the client was told. -/
theorem told_write (db : Savefile) (c : Commit) {m : Io} (h : Told db m) :
    Told (write db c) m := by
  have hlog : (write db c).getSentItems =
      db.getSentItems ++ (appended [c]).map Savefile.readSentRow := getSentItems_perform [c]
  have hlen : (write db c).sentItems.length = db.sentItems.length + (appended [c]).length :=
    @length_replay db [.commit c]
  cases m with
  | toAP m =>
    cases m with
    | receivedItems index items =>
      intro hshort
      rw [hlog]
      exact (h (by omega)).append _
    | _ => trivial
  | _ => trivial

/-- The message does not tell the client of items. -/
def Io.Itemless (m : Io) : Prop := ∀ index items, m ≠ .toAP (.receivedItems index items)

theorem Io.Itemless.told {m : Io} (h : m.Itemless) (db : Savefile) : Told db m := by
  cases m with
  | toAP m =>
    cases m with
    | receivedItems index items => exact absurd rfl (h index items)
    | _ => trivial
  | _ => trivial

theorem sees_itemless (h : ∀ m ∈ messages t, m.Itemless) : Sees Told db t :=
  sees_of_forall fun m hm => (h m hm).told

/-- The log is sent as a whole, as long as nothing is appended to it. -/
theorem sees_quiet (h : Quiet db t) {db' : Savefile} (hlog : db'.getSentItems = db.getSentItems) :
    Sees Told db' t := by
  have hrepeats : ∀ m ∈ messages t, Told db' m := by
    intro m hm
    cases m with
    | toAP m =>
      cases m with
      | receivedItems index items =>
        obtain ⟨rfl, rfl⟩ := h.resent index items (mem_messages.mp hm)
        rw [← hlog]
        exact fun _ => Replica.quotes_whole _
      | _ => trivial
    | _ => trivial
  have hc := h.commits
  clear h
  induction t with
  | nil => trivial
  | cons e t ih =>
    cases e with
    | commit c => cases hc
    | io m =>
      refine ⟨hrepeats m List.mem_cons_self, ih (fun m' hm => ?_) hc⟩
      exact hrepeats m' (List.mem_cons_of_mem _ hm)

/-- New items are appended before the client is told of them. -/
theorem sees_append_notice {items : List (NetworkItem × Origin)} (hfits : ∀ p ∈ items, Fits p.1)
    (u : Trace) (hu : u = [] ∨
      u = [.io (.toAP (.receivedItems (db.sentIndex items) (items.map Prod.fst)))]) :
    Sees Told db (.commit (.addSentItems (sentRows items)) :: u) := by
  have happly : Store.apply db (.addSentItems (sentRows items)) =
      .ok (db.append (sentRows items)) := apply_addSentItems _ _
  rw [sees_commit, write_of_ok happly]
  obtain rfl | rfl := hu
  · trivial
  refine ⟨fun hshort => ?_, trivial⟩
  by_cases hne : items = []
  · exact .inl (by rw [hne, List.map_nil])
  · have hcount : (db.append (sentRows items)).sentItems.length =
        db.sentItems.length + items.length := by
      rw [append_sentItems, List.length_append, sentRows, List.length_map]
    have hnew : (db.append (sentRows items)).getSentItems =
        db.getSentItems ++ items.map Prod.fst := by
      rw [← map_readSentRow hfits]
      exact List.map_append
    have hindex : db.sentIndex items = db.getSentItems.length := by
      rw [sentIndex_eq hne (by omega), Savefile.getSentItems, List.length_map]
    rw [hindex, hnew]
    exact Replica.quotes_rest _ _

theorem sees_notice {flag : ItemHandlingMode} {items : List (NetworkItem × Origin)}
    (hfits : ∀ p ∈ items, Fits p.1) :
    Sees Told db (.commit (.addSentItems (sentRows items)) ::
      sess.notice flag (db.sentIndex items) (items.map Prod.fst)) := by
  refine sees_append_notice hfits _ ?_
  rw [Session.notice]
  split
  · exact .inr rfl
  · exact .inl rfl

theorem sees_appendTrace (hroom : sess.Numbered) {m : DataReceiveMessage} (ha : sess.Addressed m)
    {item : NetworkItem} (hitem : item.player = m.fromID.toInt + 1 ∧ item.flags = 0) :
    Sees Told db (sess.appendTrace db m item) := by
  have hall : ∀ p ∈ [(item, Origin.delivered m.label m.content)], Fits p.1 := by
    simpa using fits_of_player hroom (.inr ha.2) hitem
  rw [Session.appendTrace, ← List.cons_append, sees_append]
  exact ⟨sees_notice hall, sees_itemless (by simp [Io.Itemless])⟩

theorem sees_recordTrace (rows : List ReceivedRow) : Sees Told db (recordTrace rows) := by
  refine sees_itemless fun m hm => ?_
  obtain ⟨r, -, hr⟩ := List.mem_map.mp (mem_messages.mp hm)
  cases hr

theorem sees_batchTrace (hroom : sess.Numbered) {m : DatasReceiveMessage}
    {rows : List ReceivedRow} {items : List (NetworkItem × Origin)}
    (hitems : ∀ p ∈ items, p.1.player = sess.senderID m.sender + 1 ∧ p.1.flags = 0) :
    Sees Told db (recordTrace rows ++ sess.batchTrace db m items) := by
  have hsent : (replay db (recordTrace rows)).sentItems = db.sentItems := by
    rw [replay_eq_perform, commits_recordTrace, sentItems_perform, appended_recordCommits,
      List.append_nil]
  have hindex : db.sentIndex items = (replay db (recordTrace rows)).sentIndex items := by
    rw [Savefile.sentIndex, Savefile.sentIndex, hsent]
  have hsender : sess.senderID m.sender = -1 ∨
      0 ≤ sess.senderID m.sender ∧ sess.senderID m.sender < sess.games.length := by
    refine (senderID_indexed hroom.games m.sender).imp_right ?_
    rintro ⟨g, hg⟩
    exact ⟨(indexed_eq_some hg).1, (indexed_eq_some hg).2.1⟩
  rw [Session.batchTrace, hindex, ← List.cons_append, sees_append, sees_append]
  refine ⟨sees_recordTrace rows, ?_, sees_itemless (by simp [Io.Itemless])⟩
  exact sees_notice fun p hp => fits_of_player hroom hsender (hitems p hp)

theorem fits_localItem (hflags : cfg.FlagsFit) {id : Int} {item : NetworkItem}
    (h : sess.localItem cfg id = some item) : FitsInt32 item.flags := by
  simp only [Room.localItem] at h
  split at h
  · next hloc =>
    cases h
    exact hflags _ _ _ _ _ _ hloc
  · cases h

theorem Checks.sees (hroom : sess.Numbered) (hflags : cfg.FlagsFit) {ids : List Int}
    {r : Except Stop Unit} (h : Checks cfg env sess db ids r t) : Sees Told db t := by
  induction h with
  | nil => trivial
  | skip _ _ ih => exact ih
  | @own db id ids r t item cleared hnew hd hcl rest ih =>
    have hown : replay db (sess.ownTrace db id item) = _ := replay_ownTrace hnew hcl
    have hfits : ∀ p ∈ [(item, Origin.checked id)], Fits p.1 := by
      simpa using fits_dispatch_own hroom hd fun _ hlocal => fits_localItem hflags hlocal
    rw [sees_append, hown]
    refine ⟨?_, ih⟩
    rw [Session.ownTrace, ← List.cons_append, sees_append]
    exact ⟨sees_notice hfits, trivial⟩
  | foreign hnew hd hnull hrow hsends hcl rest ih =>
    rw [sees_append, replay_foreignTrace hnew hnull hrow hsends hcl]
    exact ⟨sees_itemless (by simp [foreignTrace, Io.Itemless]), ih⟩
  | stop => trivial

/-- A step only tells the client of items that stand in the log. -/
theorem Handled.sees (hroom : sess.Numbered) (hflags : cfg.FlagsFit) {m : Incoming}
    {r : Except Stop Session} (h : Handled cfg env sess db m r t) : Sees Told db t := by
  cases h with
  | quiet _ h => exact sees_quiet h rfl
  | @stored m key val t h =>
    have hlog := @getSentItems_perform db [.setStoredData key val]
    exact sees_quiet h (hlog.trans (List.append_nil _))
  | delivered ha _ hitem =>
    rw [sees_append]
    refine ⟨sees_appendTrace hroom ha hitem, sees_itemless ?_⟩
    simp [deliveredTrace, Io.Itemless]
  | unrecorded ha hitem => exact sees_appendTrace hroom ha hitem
  | released _ _ hitems => exact sees_batchTrace hroom hitems
  | unreleased => exact sees_recordTrace _
  | confirmed => trivial
  | collected h => exact sees_append_notice (fits_collectItems hroom h) _ (.inr rfl)
  | unsent => trivial
  | sent =>
    refine sees_itemless fun m hm => ?_
    have hio := mem_messages.mp hm
    simp only [Savefile.releaseTrace, List.mem_cons, reduceCtorEq, false_or, List.mem_map] at hio
    obtain ⟨p, -, hp⟩ := hio
    cases hp
    simp [Io.Itemless]
  | checked h => exact h.sees hroom hflags

end Told

/-! ## Runs -/

/-- Everything that was said to clients of items stands in the savefile. -/
def System.Told (s : System) : Prop := ∀ m ∈ messages s.history, Isthmus.Told s.db m

section Runs

variable {cfg : Config}

theorem told_play {db : Savefile}
    (hroom : ∀ room, cfg.openRoom db.toSetupTables = .ok room → room.Numbered)
    (hflags : cfg.FlagsFit) (es : List Event) : (play cfg db es).Told := by
  have hkeep : ∀ {db : Savefile} {h t : Trace}, Sees Isthmus.Told db t →
      (∀ m ∈ messages h, Isthmus.Told db m) →
        ∀ m ∈ messages (h ++ t), Isthmus.Told (replay db t) m :=
    fun ht h => ht.keep (fun db c _ hm => told_write db c hm) h
  refine play_keep (I := fun db h => ∀ m ∈ messages h, Isthmus.Told db m) ?_ ?_ ?_ es
  · intro db t h ht hall
    have hitemless : ∀ m ∈ messages t, m.Itemless := by
      rintro m hm index items rfl
      obtain heq | ⟨games, sums, heq⟩ := ht.mem (mem_messages.mp hm) <;> cases heq
    exact ht.replay db ▸ hkeep (sees_itemless hitemless) hall
  · intro db' sess env m t h hopen _ ht
    obtain ⟨-, -, hlen, hc⟩ := Config.openRoom_ok hopen
    obtain ⟨r, u, hrun, hhandled⟩ := handle_handled cfg env db' hc hlen m
    rw [hrun] at ht
    have hsees : Sees Isthmus.Told db' (.io (.recv m) :: u) :=
      ⟨trivial, hhandled.sees (hroom _ hopen) hflags⟩
    exact hkeep (hsees.of_prefix ht)
  · intro m hm
    cases hm

end Runs

/-! ## What clients are told -/

def ServerMessage.items? : ServerMessage → Option (Int × List NetworkItem)
  | .receivedItems index items => some (index, items)
  | _ => none

theorem mem_of_items? {l : List ServerMessage} {index : Int} {items : List NetworkItem}
    (h : (index, items) ∈ l.filterMap ServerMessage.items?) : .receivedItems index items ∈ l := by
  obtain ⟨m, hm, hitems⟩ := List.mem_filterMap.mp h
  cases m with
  | receivedItems index' items' =>
    cases hitems
    exact hm
  | _ => cases hitems

theorem flagsFit_sampleConfig : sampleConfig.FlagsFit := by
  intro slotID locID item owner flags rest h
  simp only [sampleConfig, Apdata.locationOf, GoMap.index] at h
  by_cases hslot : slotID = 1
  · subst hslot
    by_cases hloc : locID = 9
    · subst hloc
      rw [AList.lookup_insert, Option.getD_some, AList.lookup_insert] at h
      cases h
      decide
    · rw [AList.lookup_insert, Option.getD_some, AList.lookup_insert_ne hloc] at h
      cases h
  · rw [AList.lookup_insert_ne hslot] at h
    cases h

section Created

variable (cfg : Config) {env : Env} {result : ResultMessage} {precollectedItems : List Int}
  {db : Savefile}

/-- In every run, wherever it is killed and whatever flags its clients have, the items that
a client was told of stand in the savefile from their index on. -/
theorem told_items_stand (hflags : cfg.FlagsFit)
    (hdb : createSavefile env result precollectedItems = .ok db)
    (hplayers : result.nicknames.length < 2 ^ 31) (es : List Event)
    (hlog : (play cfg db es).db.sentItems.length < 2 ^ 31) {index : Int}
    {items : List NetworkItem}
    (h : .io (.toAP (.receivedItems index items)) ∈ (play cfg db es).history) :
    Replica.Quotes (play cfg db es).db.getSentItems index items :=
  told_play (fun _ => numbered_of_created hdb hplayers) hflags es _ (mem_messages.mpr h) hlog

/-- The client is told of the key that it is given. -/
theorem told_items_stand_sample : ∃ db,
    createSavefile (Env.inOrder false) sampleResult [] = .ok db ∧ ∃ index items, items ≠ [] ∧
      .io (.toAP (.receivedItems index items)) ∈ (play sampleConfig db releaseToClient).history ∧
      Replica.Quotes (play sampleConfig db releaseToClient).db.getSentItems index items := by
  obtain ⟨db, h, hlog, hsaid⟩ := exists_created
    (x := createSavefile (Env.inOrder false) sampleResult [])
    (P := fun db => (play sampleConfig db releaseToClient).db.sentItems.length < 2 ^ 31 ∧
      (0, [⟨11, 1, 2, 0⟩]) ∈ (messagesOf Io.toAP?
        (play sampleConfig db releaseToClient).history).filterMap ServerMessage.items?)
    (by decide +kernel)
  have hmem := mem_of_toAP? (mem_of_items? hsaid)
  exact ⟨db, h, 0, _, List.cons_ne_nil _ _, hmem,
    told_items_stand sampleConfig flagsFit_sampleConfig h (by decide) releaseToClient hlog hmem⟩

/-- Whatever the goroutines of a session do, the items that were handed to `Write` for its
client stand in the savefile from their index on, at any moment. -/
theorem Proxy.written_items_stand (hflags : cfg.FlagsFit)
    (hdb : createSavefile env result precollectedItems = .ok db)
    (hplayers : result.nicknames.length < 2 ^ 31) (es : List Event) (ms : List Proxy.Move)
    (hlog : (last (Proxy.move cfg) (Proxy.start (play cfg db es).db) ms).db.sentItems.length <
      2 ^ 31) {index : Int} {items : List NetworkItem}
    (h : .receivedItems index items ∈
      flow (Proxy.move cfg) (Proxy.atAP Connection.handed) (Proxy.start (play cfg db es).db) ms) :
    Replica.Quotes (last (Proxy.move cfg) (Proxy.start (play cfg db es).db) ms).db.getSentItems
      index items := by
  generalize hdb' : (play cfg db es).db = db' at *
  have hsetup : db'.toSetupTables = db.toSetupTables := hdb' ▸ play_toSetupTables cfg db es
  obtain ⟨es', -, hplay, hh, -⟩ :=
    Proxy.Stands.exists_play (last_keep Proxy.stands_move (Proxy.stands_start db') ms)
  have htold : (play cfg db' es').Told := by
    refine told_play (fun room hroom => ?_) hflags es'
    rw [hsetup] at hroom
    exact numbered_of_created hdb hplayers hroom
  have hsaid : .receivedItems index items ∈
      messagesOf Io.toAP? (last (Proxy.move cfg) (Proxy.start db') ms).history := by
    rw [Proxy.history_toAP]
    exact List.mem_append_left _ h
  have hmem := mem_of_toAP? hsaid
  obtain hh | hh := hh
  · rw [← hh] at hmem
    have hquotes := htold _ (mem_messages.mpr hmem)
    rw [hplay] at hquotes
    exact hquotes hlog
  · rw [hh] at hmem
    cases List.mem_singleton.mp hmem

/-- A session in which the client connects. -/
def connectToLog : List Proxy.Move :=
  [.ap .offer, .accept, .effect, .effect, .effect,
    .ap (.packet [.connect ⟨some 3, false⟩]), .ap .push, .ap .take, .ap (.written false),
    .selectAP (Env.inOrder false), .effect, .effect, .effect, .ap .take, .ap (.written false),
    .effect, .ap .take, .ap (.written false)]

/-- The next session begins with the key. -/
theorem Proxy.written_items_stand_sample : ∃ db,
    createSavefile (Env.inOrder false) sampleResult [] = .ok db ∧ ∃ index items, items ≠ [] ∧
      .receivedItems index items ∈ flow (Proxy.move sampleConfig) (Proxy.atAP Connection.handed)
        (Proxy.start (play sampleConfig db releaseToClient).db) connectToLog ∧
      Replica.Quotes (last (Proxy.move sampleConfig)
        (Proxy.start (play sampleConfig db releaseToClient).db) connectToLog).db.getSentItems
          index items := by
  obtain ⟨db, h, hlog, hsaid⟩ := exists_created
    (x := createSavefile (Env.inOrder false) sampleResult [])
    (P := fun db => (last (Proxy.move sampleConfig)
        (Proxy.start (play sampleConfig db releaseToClient).db) connectToLog).db.sentItems.length <
          2 ^ 31 ∧
      (0, [⟨11, 1, 2, 0⟩]) ∈ (flow (Proxy.move sampleConfig) (Proxy.atAP Connection.handed)
        (Proxy.start (play sampleConfig db releaseToClient).db) connectToLog).filterMap
          ServerMessage.items?)
    (by decide +kernel)
  have hmem := mem_of_items? hsaid
  exact ⟨db, h, 0, _, List.cons_ne_nil _ _, hmem, Proxy.written_items_stand sampleConfig
    flagsFit_sampleConfig h (by decide) releaseToClient connectToLog hlog hmem⟩

end Created

end Isthmus
