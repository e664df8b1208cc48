import Isthmus.Acknowledged
import Isthmus.Interrupted
import Isthmus.Lib.Replica

/-!
# The client and the log

A client with both flags keeps a replica of the log: `Connect` and `Sync` send it
whole, and whatever appends to it tells the client the new items. The index of
the first of them is only known where there is one, so a batch without a new
item, and a collect with nothing to collect, announce none at the index -1.

## Main definitions

- `feed`: what the client makes of the messages of a trace
- `Watch`: the program, and the client of its session
- `Watch.Announceable`: a message appends an item, if it tells the client of any
- `Watch.Announced`: each message names the items of the log from its index on
-/

namespace Isthmus

open Process Mwproto Approto

/-! ## What the client hears -/

def hear (l : Option (List NetworkItem)) : Io → Option (List NetworkItem)
  | .toAP (.receivedItems index items) => Replica.receive index items l
  | _ => l

/-- The list of the client after the messages of a trace. -/
def feed (l : Option (List NetworkItem)) (t : Trace) : Option (List NetworkItem) :=
  (messages t).foldl hear l

theorem feed_append (l : Option (List NetworkItem)) (t u : Trace) :
    feed l (t ++ u) = feed (feed l t) u := by
  rw [feed, messages_append, List.foldl_append]
  rfl

theorem feed_io (l : Option (List NetworkItem)) (m : Io) (t : Trace) :
    feed l (.io m :: t) = feed (hear l m) t := rfl

theorem feed_commit (l : Option (List NetworkItem)) (c : Commit) (t : Trace) :
    feed l (.commit c :: t) = feed l t := rfl

/-- Items sent to the client are those of the log from their index on. -/
def Announcement (db : Savefile) : Io → Prop
  | .toAP (.receivedItems index items) => Replica.Announces db.getSentItems index items
  | _ => True

/-- Items sent to the client are the whole log. -/
def Io.Repeats (log : List NetworkItem) : Io → Prop
  | .toAP (.receivedItems index items) => index = 0 ∧ items = log
  | _ => True

theorem Io.Repeats.hear {log : List NetworkItem} {m : Io} (h : m.Repeats log) :
    hear (some log) m = some log := by
  cases m with
  | toAP m =>
    cases m with
    | receivedItems index items =>
      obtain ⟨rfl, rfl⟩ := h
      exact Replica.receive_whole items items
    | _ => rfl
  | _ => rfl

theorem Io.Repeats.announcement {db : Savefile} {m : Io} (h : m.Repeats db.getSentItems) :
    Announcement db m := by
  cases m with
  | toAP m =>
    cases m with
    | receivedItems index items =>
      obtain ⟨rfl, rfl⟩ := h
      exact Replica.announces_whole _
    | _ => trivial
  | _ => trivial

/-- A client with the log before the trace has the log after it, and is told of
the right items in between. -/
structure InStep (db : Savefile) (t : Trace) : Prop where
  keeps : feed (some db.getSentItems) t = some (replay db t).getSentItems
  announced : Sees Announcement db t

section InStep

variable {db : Savefile} {t u : Trace}

theorem InStep.append (ht : InStep db t) (hu : InStep (replay db t) u) : InStep db (t ++ u) := by
  refine ⟨?_, sees_append.mpr ⟨ht.announced, hu.announced⟩⟩
  rw [feed_append, ht.keeps, hu.keeps, replay_append]

theorem getSentItems_perform (cs : List Commit) :
    (perform db cs).getSentItems =
      db.getSentItems ++ (appended cs).map Savefile.readSentRow := by
  rw [Savefile.getSentItems, sentItems_perform, List.map_append]
  rfl

theorem length_replay :
    (replay db t).sentItems.length = db.sentItems.length + (appended (commits t)).length := by
  rw [replay_eq_perform, sentItems_perform, List.length_append]

/-- A trace that does not append, and only sends the log as a whole. -/
theorem inStep_still (hc : appended (commits t) = [])
    (hm : ∀ m ∈ messages t, m.Repeats db.getSentItems) : InStep db t := by
  induction t generalizing db with
  | nil => exact ⟨rfl, trivial⟩
  | cons e t ih =>
    cases e with
    | io m =>
      have hrep : m.Repeats db.getSentItems := hm m List.mem_cons_self
      obtain ⟨hkeeps, hann⟩ := ih hc fun m' hm' => hm m' (List.mem_cons_of_mem _ hm')
      refine ⟨?_, hrep.announcement, hann⟩
      rw [feed_io, hrep.hear, hkeeps, replay_io]
    | commit c =>
      rw [commits_commit, ← List.singleton_append, appended_append, List.append_eq_nil_iff] at hc
      have hlog : (write db c).getSentItems = db.getSentItems := by
        have hwrite : (perform db [c]).getSentItems = _ := getSentItems_perform [c]
        rw [hc.1, List.map_nil, List.append_nil] at hwrite
        exact hwrite
      rw [← hlog] at hm
      obtain ⟨hkeeps, hann⟩ := ih hc.2 hm
      refine ⟨?_, hann⟩
      rw [feed_commit, ← hlog, hkeeps]
      rfl

theorem Quiet.repeats (h : Quiet db t) : ∀ m ∈ messages t, m.Repeats db.getSentItems := by
  intro m hmem
  cases m with
  | toAP m =>
    cases m with
    | receivedItems index items => exact h.resent index items (mem_messages.mp hmem)
    | _ => trivial
  | _ => trivial

theorem Quiet.inStep (h : Quiet db t) : InStep db t := by
  refine inStep_still ?_ h.repeats
  rw [h.commits]
  rfl

/-! ## What is appended and announced -/

/-- The index of new items is the number of rows before them. -/
theorem sentIndex_eq {items : List (NetworkItem × Origin)} (hne : items ≠ [])
    (hlog : db.sentItems.length + items.length < 2 ^ 31) :
    db.sentIndex items = db.sentItems.length := by
  cases items with
  | nil => exact absurd rfl hne
  | cons p items =>
    rw [List.length_cons] at hlog
    have hfits : FitsInt32 (db.sentItems.length + 1) := by
      unfold FitsInt32
      omega
    rw [Savefile.sentIndex, insertedIndex, toInt32_of_fits hfits, if_neg (by omega)]
    omega

/-- The player and the flags of an item go through 32 bits unchanged. -/
def Fits (item : NetworkItem) : Prop := FitsInt32 item.player ∧ FitsInt32 item.flags

theorem readSentRow_sentRow {item : NetworkItem} (h : Fits item) (origin : Origin) :
    Savefile.readSentRow (sentRow item origin) = item := by
  rw [Savefile.readSentRow, sentRow]
  simp only [toInt32_of_fits h.1, toInt32_of_fits h.2]

theorem map_readSentRow {items : List (NetworkItem × Origin)} (h : ∀ p ∈ items, Fits p.1) :
    (sentRows items).map Savefile.readSentRow = items.map Prod.fst := by
  rw [sentRows, List.map_map]
  exact List.map_congr_left fun p hp => readSentRow_sentRow (h p hp) p.2

/-- New items that are appended and announced. -/
theorem inStep_announce {items : List (NetworkItem × Origin)} (hne : items ≠ [])
    (hfits : ∀ p ∈ items, Fits p.1) (hlog : db.sentItems.length + items.length < 2 ^ 31) :
    InStep db [.commit (.addSentItems (sentRows items)),
      .io (.toAP (.receivedItems (db.sentIndex items) (items.map Prod.fst)))] := by
  have hlen : (db.sentItems.length : Int) = db.getSentItems.length := by
    rw [Savefile.getSentItems, List.length_map]
  have hnew : (db.append (sentRows items)).getSentItems =
      db.getSentItems ++ items.map Prod.fst := by
    rw [← map_readSentRow hfits]
    exact List.map_append
  have happly : Store.apply db (.addSentItems (sentRows items)) = _ := apply_addSentItems _ _
  rw [sentIndex_eq hne hlog, hlen]
  constructor
  · rw [feed_commit, feed_io, replay_commit happly, replay_io, replay_nil, hnew]
    exact Replica.receive_rest _ _
  · rw [sees_commit, sees_io, write_of_ok happly]
    refine ⟨?_, trivial⟩
    show Replica.Announces (db.append (sentRows items)).getSentItems _ _
    rw [hnew]
    exact Replica.announces_rest _ _

end InStep

/-! ## What a message announces -/

/-- The message brings a new item, if it tells the client of any, and the flags
of the own items that it checks fit in 32 bits. -/
def Session.Announceable (sess : Session) (cfg : Config) (env : Env) (db : Savefile) :
    Incoming → Prop
  | .fromMW (.datasReceive m) =>
    ∃ item ∈ m.items, item.label = labelMultiworldItem ∧
      db.hasReceivedItem env item.label item.content = false
  | .fromAP (.say text) =>
    text = lit "!collect" → db.getCollectablePlacements env sess.playerID ≠ []
  | .fromAP (.locationChecks ids) =>
    ∀ pre id post item, ids = pre ++ id :: post → NoConflict env sess.playerID db pre →
      db.isLocationCleared id = false → db.getPlacedItem id = none →
        sess.localItem cfg id = some item → FitsInt32 item.flags
  | _ => True

/-- The numbers of the players fit in 32 bits, as they are sent: from 1 on. -/
structure Room.Numbered (room : Room) : Prop where
  games : room.games.length = room.nicknames.length
  few : room.games.length < 2 ^ 31
  self : FitsInt32 (room.playerID + 1)

/-- The client asks for the items of others and for its own. -/
def Session.Remote (sess : Session) : Prop :=
  sess.itemHandling.has receiveOthersItems = true ∧ sess.itemHandling.has receiveOwnItems = true

/-- A batch that gets to its end records an item that is not ignored. -/
theorem newRows_ne_nil {env : Env} {received : List ReceivedRow} {items : List DataReceiveItem}
    (hnew : ∃ item ∈ items, item.label = labelMultiworldItem ∧
      (env.BindsNull item.content ∨ receivedRow item.content ∉ received))
    (hdone : (newRows env received items).2 = true) : (newRows env received items).1 ≠ [] := by
  induction items with
  | nil => simp at hnew
  | cons item items ih =>
    -- an item that is skipped is not the new one, which is still to come
    obtain ⟨new, hmem, hlabel, hcontent⟩ := hnew
    simp only [newRows] at hdone ⊢
    split at hdone
    · next hl =>
      have hrest : new ∈ items := (List.mem_cons.mp hmem).resolve_left fun h => hl (h ▸ hlabel)
      rw [if_pos hl]
      exact ih ⟨new, hrest, hlabel, hcontent⟩ hdone
    · next hl =>
      rw [if_neg hl]
      split at hdone
      · cases hdone
      · next hnull =>
        rw [if_neg hnull]
        split at hdone
        · next hrow =>
          have hrest : new ∈ items := by
            refine (List.mem_cons.mp hmem).resolve_left ?_
            rintro rfl
            exact hcontent.elim hnull fun h => h hrow
          rw [if_pos hrow]
          exact ih ⟨new, hrest, hlabel, hcontent⟩ hdone
        · next hrow =>
          rw [if_neg hrow]
          exact List.cons_ne_nil _ _

section Handle

variable {cfg : Config} {env : Env} {sess : Session} {db : Savefile}

theorem fits_zero : FitsInt32 0 := by decide

/-- An item from a player with a game, or from none. -/
theorem fits_of_player {room : Room} (hroom : room.Numbered) {item : NetworkItem} {i : Int}
    (hi : i = -1 ∨ 0 ≤ i ∧ i < room.games.length) (hitem : item.player = i + 1 ∧ item.flags = 0) :
    Fits item := by
  have hfew := hroom.few
  rw [Fits, hitem.1, hitem.2]
  refine ⟨?_, fits_zero⟩
  unfold FitsInt32
  omega

theorem fits_collectItems {room : Room} (hroom : room.Numbered) {ps : List OwnItemPlacement}
    {items : List (NetworkItem × Origin)} (h : room.collectItems cfg ps = .ok items) :
    ∀ p ∈ items, Fits p.1 := by
  induction ps generalizing items with
  | nil =>
    cases h
    simp
  | cons p ps ih =>
    simp only [Room.collectItems] at h
    split at h
    · cases h
    · next dp hdp =>
      obtain ⟨g, hg, -⟩ := Option.bind_eq_some_iff.mp hdp
      obtain ⟨h0, hlt, -⟩ := indexed_eq_some hg
      split at h
      · cases h
      · next rest hrest =>
        cases h
        intro q hq
        rcases List.mem_cons.mp hq with rfl | hq
        · exact fits_of_player hroom (.inr ⟨h0, hlt⟩) ⟨rfl, rfl⟩
        · exact ih hrest q hq

/-- An own item is one of the multiworld, or one of the seed with its flags. -/
theorem fits_dispatch_own (hroom : sess.Numbered) {id : Int} {item : NetworkItem}
    (hd : sess.dispatch cfg db.toSetupTables id = .own item)
    (hflags : db.getPlacedItem id = none → sess.localItem cfg id = some item →
      FitsInt32 item.flags) : Fits item := by
  simp only [Session.dispatch] at hd
  split at hd
  · split at hd
    · cases hd
      exact ⟨hroom.self, fits_zero⟩
    · cases hd
  · next hp =>
    split at hd
    · split at hd
      · cases hd
      · next item' hitem =>
        cases hd
        refine ⟨?_, hflags hp hitem⟩
        have hplayer : item.player = sess.playerID + 1 := by
          simp only [Room.localItem] at hitem
          split at hitem
          · cases hitem
            rfl
          · cases hitem
        rw [hplayer]
        exact hroom.self
    · cases hd

/-- New items that are appended and announced under a flag that is set. -/
theorem inStep_notice {flag : ItemHandlingMode} (hflag : sess.itemHandling.has flag = true)
    {items : List (NetworkItem × Origin)} (hne : items ≠ []) (hfits : ∀ p ∈ items, Fits p.1)
    (hlog : db.sentItems.length + items.length < 2 ^ 31) :
    InStep db (.commit (.addSentItems (sentRows items)) ::
      sess.notice flag (db.sentIndex items) (items.map Prod.fst)) := by
  rw [Session.notice, if_pos hflag]
  exact inStep_announce hne hfits hlog

theorem inStep_appendTrace (hroom : sess.Numbered) (hremote : sess.Remote)
    {m : DataReceiveMessage} (ha : sess.Addressed m) {item : NetworkItem}
    (hitem : item.player = m.fromID.toInt + 1 ∧ item.flags = 0)
    (hlog : db.sentItems.length + 1 < 2 ^ 31) : InStep db (sess.appendTrace db m item) := by
  have hfits : Fits item := fits_of_player hroom (.inr ha.2) hitem
  have hall : ∀ p ∈ [(item, Origin.delivered m.label m.content)], Fits p.1 := by
    simpa using hfits
  have hannounce := inStep_notice hremote.1 (List.cons_ne_nil _ _) hall hlog
  exact hannounce.append (inStep_still rfl (by simp [Io.Repeats]))

theorem inStep_recordTrace (rows : List ReceivedRow) : InStep db (recordTrace rows) := by
  refine inStep_still ?_ fun io hmem => ?_
  · rw [commits_recordTrace, appended_recordCommits]
  · obtain ⟨r, -, hr⟩ := List.mem_map.mp (mem_messages.mp hmem)
    cases hr

/-- A batch is recorded first, which leaves the log alone. -/
theorem inStep_released (hroom : sess.Numbered) (hremote : sess.Remote) {m : DatasReceiveMessage}
    {rows : List ReceivedRow} {items : List (NetworkItem × Origin)} (hne : rows ≠ [])
    (horigin : items.map Prod.snd = rows.map ReceivedRow.origin)
    (hitems : ∀ p ∈ items, p.1.player = sess.senderID m.sender + 1 ∧ p.1.flags = 0)
    (hlog : db.sentItems.length + items.length < 2 ^ 31) :
    InStep db (recordTrace rows ++ sess.batchTrace db m items) := by
  have hsent : (replay db (recordTrace rows)).sentItems = db.sentItems := by
    rw [replay_eq_perform, commits_recordTrace, sentItems_perform, appended_recordCommits,
      List.append_nil]
  have hindex : db.sentIndex items = (replay db (recordTrace rows)).sentIndex items := by
    rw [Savefile.sentIndex, Savefile.sentIndex, hsent]
  have hsender : sess.senderID m.sender = -1 ∨
      0 ≤ sess.senderID m.sender ∧ sess.senderID m.sender < sess.games.length := by
    refine (senderID_indexed hroom.games m.sender).imp_right ?_
    rintro ⟨g, hg⟩
    exact ⟨(indexed_eq_some hg).1, (indexed_eq_some hg).2.1⟩
  have hitems_ne : items ≠ [] := by
    rintro rfl
    exact hne (List.map_eq_nil_iff.mp horigin.symm)
  rw [← hsent] at hlog
  rw [Session.batchTrace, hindex, ← List.cons_append]
  refine (inStep_recordTrace rows).append (.append ?_ (inStep_still rfl (by simp [Io.Repeats])))
  exact inStep_notice hremote.1 hitems_ne
    (fun p hp => fits_of_player hroom hsender (hitems p hp)) hlog

theorem isLocationCleared_before {db₁ : Savefile} {id id' : Int}
    (hcl : db₁.locationsCleared.rows = db.locationsCleared.rows ++ [id])
    (h : db₁.isLocationCleared id' = false) : db.isLocationCleared id' = false := by
  rw [isLocationCleared_eq_false, hcl, List.mem_append, not_or] at h
  exact isLocationCleared_eq_false.mpr h.1

/-- The locations of a message are announced one by one, each before it is cleared. -/
theorem Checks.inStep (hroom : sess.Numbered) (hremote : sess.Remote) {ids : List Int}
    {r : Except Stop Unit} {t : Trace} (h : Checks cfg env sess db ids r t)
    (hflags : sess.Announceable cfg env db (.fromAP (.locationChecks ids)))
    (hlog : (replay db t).sentItems.length < 2 ^ 31) : InStep db t := by
  induction h with
  | nil => exact inStep_still rfl (by simp)
  -- nothing is written for it, so that the premise is the one for the rest
  | skip h _ ih =>
    refine ih (fun pre id post item hids hno => ?_) hlog
    exact hflags _ id post item (by rw [hids, List.cons_append])
      ((noConflict_cons (not_outgoing_of_skip h)).mpr hno)
  | @own db id ids r t item cleared hnew hd hcl rest ih =>
    have hown : replay db (sess.ownTrace db id item) = _ := replay_ownTrace hnew hcl
    rw [replay_append, hown] at hlog
    have hlen : db.sentItems.length + 1 < 2 ^ 31 := by
      rw [length_replay, append_sentItems, List.length_append] at hlog
      exact Nat.lt_of_le_of_lt (Nat.le_add_right _ _) hlog
    have hfits : Fits item := fits_dispatch_own hroom hd
      (hflags [] id ids item rfl ⟨by simp, by simp⟩ (isLocationCleared_eq_false.mpr hnew))
    have hall : ∀ p ∈ [(item, Origin.checked id)], Fits p.1 := by
      simpa using hfits
    have hannounce := inStep_notice hremote.2 (List.cons_ne_nil _ _) hall hlen
    have htrace : InStep db (sess.ownTrace db id item) :=
      hannounce.append (inStep_still rfl (by simp))
    refine htrace.append ?_
    rw [hown]
    -- the rest is checked in a savefile that has this location cleared
    refine ih (fun pre id' post item' hids hno hnew' => ?_) hlog
    have hno' : NoConflict env sess.playerID db (id :: pre) := by
      refine Iff.mpr ?_ hno
      exact noConflict_own (not_outgoing_of_own hd) rfl hcl rfl
    exact hflags (id :: pre) id' post item' (by rw [hids, List.cons_append]) hno'
      (isLocationCleared_before hcl hnew')
  | @foreign db id ids r t owner name sends cleared hnew hd hnull hrow hsends hcl rest ih =>
    have hforeign := replay_foreignTrace hnew hnull hrow hsends hcl
    have hout : db.Outgoing sess.playerID id owner name := (outgoing_iff cfg).mpr ⟨hnew, hd⟩
    have htrace : InStep db (foreignTrace env id owner name) :=
      inStep_still rfl (by simp [foreignTrace, Io.Repeats])
    rw [replay_append, hforeign] at hlog
    refine htrace.append ?_
    rw [hforeign]
    refine ih (fun pre id' post item hids hno hnew' => ?_) hlog
    have hno' : NoConflict env sess.playerID db (id :: pre) := by
      refine Iff.mpr ?_ hno
      exact noConflict_foreign hout hnull hrow rfl hcl hsends
    exact hflags (id :: pre) id' post item (by rw [hids, List.cons_append]) hno'
      (isLocationCleared_before hcl hnew')
  | stop hnew hd he => exact inStep_still rfl (by simp)

/-- Every step of the loop keeps the client in step. -/
theorem Handled.inStep (hroom : sess.Numbered) (hremote : sess.Remote) {m : Incoming}
    {r : Except Stop Session} {t : Trace} (h : Handled cfg env sess db m r t)
    (hann : sess.Announceable cfg env db m) (hlog : (replay db t).sentItems.length < 2 ^ 31) :
    InStep db t := by
  have hlen := hlog
  rw [length_replay] at hlen
  cases h with
  | quiet hm h hr => exact h.inStep
  | stored h =>
    refine inStep_still ?_ h.repeats
    rw [commits_commit, h.commits]
    rfl
  | delivered ha hnew hitem hnull =>
    rw [commits_append, commits_appendTrace, commits_deliveredTrace] at hlen
    exact (inStep_appendTrace hroom hremote ha hitem hlen).append
      (inStep_still rfl (by simp [deliveredTrace, Io.Repeats]))
  | unrecorded ha hitem hnull =>
    rw [commits_appendTrace] at hlen
    exact inStep_appendTrace hroom hremote ha hitem hlen
  -- a batch without a new item would announce an empty list
  | @released m items hdone horigin hitems =>
    obtain ⟨item, hmem, hlabel, hnew⟩ := hann
    rw [hlabel] at hnew
    have hne : (newRows env db.receivedItems.rows m.items).1 ≠ [] :=
      newRows_ne_nil ⟨item, hmem, hlabel, hasReceivedItem_eq_false.mp hnew⟩ hdone
    rw [commits_append, commits_recordTrace, commits_batchTrace, appended_append,
      appended_recordCommits] at hlen
    exact inStep_released hroom hremote hne horigin hitems
      (by simpa [appended, sentRows] using hlen)
  | unreleased hdone => exact inStep_recordTrace _
  | confirmed => exact inStep_still rfl (by simp)
  | @collected items h =>
    have hne : items ≠ [] := by
      rintro rfl
      have horigin := collectItems_origin h
      exact hann rfl (List.map_eq_nil_iff.mp horigin.symm)
    exact inStep_announce hne (fits_collectItems hroom h) (by simpa [appended, sentRows] using hlen)
  | unsent h => exact inStep_still rfl (by simp)
  | sent h hcl hdb =>
    refine inStep_still (by rw [commits_releaseTrace]; rfl) fun io hmem => ?_
    have hio := mem_messages.mp hmem
    simp only [Savefile.releaseTrace, List.mem_cons, reduceCtorEq, false_or, List.mem_map] at hio
    obtain ⟨p, -, hp⟩ := hio
    cases hp
    trivial
  | checked h => exact h.inStep hroom hremote hann hlog

end Handle

/-! ## The program and its client -/

/-- The client of a session has no list before its `Connect`. -/
inductive Client where
  | waiting
  | following (l : Option (List NetworkItem))
  deriving DecidableEq

namespace Client

def list : Client → Option (List NetworkItem)
  | .waiting => some []
  | .following l => l

def listen (t : Trace) : Client → Client
  | .waiting => .waiting
  | .following l => .following (feed l t)

/-- The client after a message is handled. -/
def hears (client : Client) (t : Trace) : Incoming → Client
  | .fromAP (.connect _) => .following (feed client.list t)
  | _ => client.listen t

theorem hears_eq_listen {m : Incoming} (hm : ∀ c, m ≠ .fromAP (.connect c)) (client : Client)
    (t : Trace) : client.hears t m = client.listen t := by
  cases m with
  | fromMW m => rfl
  | fromAP m =>
    cases m with
    | connect c => exact absurd rfl (hm c)
    | _ => rfl

/-- The list of the client is the log. -/
def Has (log : List NetworkItem) : Client → Prop
  | .waiting => True
  | .following l => l = some log

instance (log : List NetworkItem) : (client : Client) → Decidable (client.Has log)
  | .waiting => isTrue trivial
  | .following l => inferInstanceAs (Decidable (l = some log))

end Client

structure Watch where
  system : System
  client : Client

namespace Watch

def start (db : Savefile) : Watch := ⟨boot db, .waiting⟩

/-- A message is handled before the client of the session; any other event ends
the session, or opens the next one. -/
def next (cfg : Config) (w : Watch) : Event → Watch
  | .handle env m =>
    ⟨step cfg w.system (.handle env m),
      if w.system.session.isSome then w.client.hears (added cfg w.system (.handle env m)) m
      else w.client⟩
  | e => ⟨step cfg w.system e, .waiting⟩

/-- The list of a client that follows is the log. -/
def InSync (w : Watch) : Prop := w.client.Has w.system.db.getSentItems

instance (w : Watch) : Decidable w.InSync := inferInstanceAs (Decidable (w.client.Has _))

/-- What the client is told of items, from its `Connect` on, is right. -/
def Announced (cfg : Config) (w : Watch) (e : Event) : Prop :=
  (w.next cfg e).client ≠ .waiting → Sees Announcement w.system.db (added cfg w.system e)

/-- A message for a client that follows can be announced. -/
def Announceable (cfg : Config) (w : Watch) : Event → Prop
  | .handle env m => w.client ≠ .waiting → ∀ sess, w.system.session = some sess →
      sess.Announceable cfg env w.system.db m
  | _ => True

end Watch

/-- A `Connect` asks for the items of others and for the own items. -/
def Event.Remote : Event → Prop
  | .handle _ (.fromAP (.connect c)) => ∃ mode, c.itemsHandling = some mode ∧
      mode.has receiveOthersItems = true ∧ mode.has receiveOwnItems = true
  | _ => True

/-- A client that follows has the log, and its session has both flags. -/
structure Watch.Follows (w : Watch) : Prop where
  sync : w.InSync
  remote : w.client ≠ .waiting → ∀ sess, w.system.session = some sess → sess.Remote

section Watch

variable {cfg : Config} {w : Watch}

theorem next_handle {sess : Session} (hs : w.system.session = some sess) {env : Env}
    {m : Incoming} {r : Except Stop Session} {t : Trace}
    (hrun : (handle cfg env sess m).run w.system.db = ⟨r, t⟩) :
    w.next cfg (.handle env m) =
      ⟨⟨replay w.system.db t, r.toOption, w.system.history ++ t⟩, w.client.hears t m⟩ := by
  have hadded : added cfg w.system (.handle env m) = t := by
    rw [added_handle hs, hrun]
  have hstep : step cfg w.system (.handle env m) =
      ⟨replay w.system.db t, r.toOption, w.system.history ++ t⟩ := by
    simp only [step, hs, hrun]
  rw [Watch.next, hadded, hstep, hs]
  rfl

theorem follows_waiting (h : w.client = .waiting) : w.Follows := by
  refine ⟨?_, fun hne => absurd h hne⟩
  rw [Watch.InSync, h]
  trivial

/-- The log comes whole, so that it does not matter what the client has. -/
theorem Watch.Follows.next_connect (h : w.Follows) {sess : Session}
    (hs : w.system.session = some sess) {env : Env} {c : Connect}
    (hremote : (Event.handle env (.fromAP (.connect c))).Remote) :
    w.Announced cfg (.handle env (.fromAP (.connect c))) ∧
      (w.next cfg (.handle env (.fromAP (.connect c)))).Follows := by
  obtain ⟨mode, hmode, hflags⟩ := hremote
  obtain ⟨join, resp, hrun⟩ := run_handle_connect cfg env sess w.system.db hmode
  have hlist : ∃ l, w.client.list = some l := by
    cases hcl : w.client with
    | waiting => exact ⟨[], rfl⟩
    | following l =>
      have hsync := h.sync
      rw [Watch.InSync, hcl] at hsync
      exact ⟨_, hsync⟩
  obtain ⟨l, hl⟩ := hlist
  constructor
  · intro _
    rw [added_handle hs, hrun]
    exact ⟨trivial, trivial, trivial, Replica.announces_whole _, trivial⟩
  · rw [next_handle hs hrun]
    refine ⟨?_, fun _ sess' hs' => ?_⟩
    · show feed w.client.list _ = some _
      rw [hl]
      rfl
    · cases hs'
      exact hflags

/-- Another message keeps a client that follows in step. -/
theorem Watch.Follows.next_message (h : w.Follows) {sess : Session}
    (hs : w.system.session = some sess) (hroom : sess.Numbered) {env : Env} {m : Incoming}
    (hm : ∀ c, m ≠ .fromAP (.connect c)) {r : Except Stop Session} {t : Trace}
    (hrun : (handle cfg env sess m).run w.system.db = ⟨r, .io (.recv m) :: t⟩)
    (hh : Handled cfg env sess w.system.db m r t) (hann : w.Announceable cfg (.handle env m))
    (hlog : (replay w.system.db t).sentItems.length < 2 ^ 31) :
    w.Announced cfg (.handle env m) ∧ (w.next cfg (.handle env m)).Follows := by
  rw [Watch.Announced, next_handle hs hrun, Client.hears_eq_listen hm]
  cases hcl : w.client with
  | waiting => exact ⟨fun hne => absurd rfl hne, follows_waiting rfl⟩
  | following l =>
    have hne : w.client ≠ .waiting := by
      rw [hcl]
      rintro ⟨⟩
    have hsync := h.sync
    rw [Watch.InSync, hcl] at hsync
    obtain rfl : l = some w.system.db.getSentItems := hsync
    obtain ⟨hkeeps, hsees⟩ := hh.inStep hroom (h.remote hne sess hs) (hann hne sess hs) hlog
    refine ⟨fun _ => ?_, hkeeps, fun _ sess' hs' => ?_⟩
    · rw [added_handle hs, hrun]
      exact ⟨trivial, hsees⟩
    -- an error ends the session, and no flags are left to keep
    · cases r with
      | error e => cases hs'
      | ok sess' =>
        cases hs'
        have hresult : ((handle cfg env sess m).run w.system.db).result = .ok sess' := by
          rw [hrun]
        rcases (handle_session hresult).2 with hflags | ⟨c, hc, -⟩
        · rw [Session.Remote, hflags]
          exact h.remote hne sess hs
        · exact absurd hc (hm c)

/-- Each event of a remote client that can be announced is, and leaves the list
of the client equal to the log. -/
theorem Watch.Follows.next (h : w.Follows) (ho : w.system.Opened cfg)
    (hroom : ∀ sess, w.system.session = some sess → sess.Numbered) {e : Event} (he : e.Remote)
    (hann : w.Announceable cfg e) (hlog : (step cfg w.system e).db.sentItems.length < 2 ^ 31) :
    w.Announced cfg e ∧ (w.next cfg e).Follows := by
  cases e with
  | connect | disconnect | kill env m v n =>
    exact ⟨fun hne => absurd rfl hne, follows_waiting rfl⟩
  | handle env m =>
    cases hs : w.system.session with
    | none =>
      have hnext : w.next cfg (.handle env m) = w := by
        simp [Watch.next, step, hs]
      rw [Watch.Announced, hnext, added, step, hs]
      exact ⟨fun _ => by simp, h⟩
    | some sess =>
      by_cases hm : ∃ c, m = .fromAP (.connect c)
      · obtain ⟨c, rfl⟩ := hm
        exact h.next_connect hs he
      · obtain ⟨-, -, hlen, hc⟩ := Config.openRoom_ok (ho sess hs)
        obtain ⟨r, t, hrun, hh⟩ := handle_handled cfg env w.system.db hc hlen m
        simp only [step, hs, hrun] at hlog
        exact h.next_message hs (hroom sess hs) (fun c hmc => hm ⟨c, hmc⟩) hrun hh hann hlog

end Watch

/-- The rooms of a created savefile number their players with 32 bits. -/
theorem numbered_of_created {cfg : Config} {env : Env} {result : ResultMessage}
    {precollectedItems : List Int} {db : Savefile}
    (hdb : createSavefile env result precollectedItems = .ok db)
    (hplayers : result.nicknames.length < 2 ^ 31) {room : Room}
    (hroom : cfg.openRoom db.toSetupTables = .ok room) : room.Numbered := by
  obtain ⟨⟨randoID, hparams⟩, hnick, hlen, -⟩ := Config.openRoom_ok hroom
  obtain ⟨row, hrow, hfits, -, hmem⟩ := (createSavefile_fresh hdb).valid.global
  have hids := createSavefile_players hdb
  have hcount : db.players.rows.length = result.nicknames.length := by
    have h := congrArg List.length hids
    rwa [List.length_map, List.length_map, List.length_range] at h
  have hself : room.playerID = row.playerID := by
    rw [SetupTables.getConnectionParams, hrow, Except.ok.injEq, Prod.mk.injEq] at hparams
    rw [← hparams.1, toInt32_of_fits hfits]
  refine ⟨hlen, ?_, ?_⟩
  · rw [hlen, hnick, SetupTables.getNicknames, List.length_map, List.length_insertionSort, hcount]
    exact hplayers
  · rw [hids] at hmem
    obtain ⟨i, hi, hi'⟩ := List.mem_map.mp hmem
    have hlt := List.mem_range.mp hi
    rw [hself, ← hi', FitsInt32]
    omega

/-- A watched program is the program. -/
theorem system_next (cfg : Config) (w : Watch) (e : Event) :
    (w.next cfg e).system = step cfg w.system e := by
  cases e <;> rfl

theorem run_system (cfg : Config) (db : Savefile) (es : List Event) :
    (Runs.run (Watch.next cfg) (Watch.start db) es).system = play cfg db es := by
  have h : ∀ w : Watch, (Runs.run (Watch.next cfg) w es).system =
      Runs.run (step cfg) w.system es := by
    induction es with
    | nil => exact fun w => rfl
    | cons e es ih =>
      intro w
      rw [Runs.run_cons, Runs.run_cons, ih, system_next]
  exact h (Watch.start db)

/-- The log never gets shorter. -/
theorem length_step (cfg : Config) (s : System) (e : Event) :
    s.db.sentItems.length ≤ (step cfg s e).db.sentItems.length := by
  have hreplay : ∀ t : Trace, s.db.sentItems.length ≤ (replay s.db t).sentItems.length := by
    intro t
    rw [length_replay]
    omega
  cases e with
  | connect =>
    simp only [step]
    split <;> exact Nat.le_refl _
  | disconnect => exact Nat.le_refl _
  | handle env m | kill env m w n =>
    simp only [step]
    split
    · exact Nat.le_refl _
    · exact hreplay _

/-- As long as every batch and every collect brings an item, and the numbers fit
in 32 bits, a client with both flags is told of the right items from its
`Connect` on, and has the log after each event. -/
theorem client_has_log (cfg : Config) {env : Env} {result : ResultMessage}
    {precollectedItems : List Int} {db : Savefile}
    (hdb : createSavefile env result precollectedItems = .ok db)
    (hplayers : result.nicknames.length < 2 ^ 31) {es : List Event}
    (hremote : ∀ e ∈ es, e.Remote)
    (hlog : (play cfg db es).db.sentItems.length < 2 ^ 31)
    (hann : Runs.Meets (Watch.next cfg) (Watch.Announceable cfg) (Watch.start db) es) :
    Runs.Meets (Watch.next cfg) (fun w e => w.Announced cfg e ∧ (w.next cfg e).InSync)
      (Watch.start db) es := by
  have hshort : Runs.Meets (Watch.next cfg)
      (fun w e => (w.next cfg e).system.db.sentItems.length < 2 ^ 31) (Watch.start db) es := by
    refine Runs.meets_of_run (B := fun w : Watch => w.system.db.sentItems.length < 2 ^ 31) ?_ ?_
    · intro w e h
      rw [system_next] at h
      exact Nat.lt_of_le_of_lt (length_step cfg w.system e) h
    · rw [run_system]
      exact hlog
  have hall := (hann.and hshort).and (Runs.meets_iff_forall.mpr hremote)
  refine hall.yield (I := fun w => w.system.Opened cfg ∧
    w.system.db.toSetupTables = db.toSetupTables ∧ w.Follows) ?_
    ⟨opened_boot cfg db, rfl, follows_waiting rfl⟩
  rintro w e ⟨ho, hsetup, hf⟩ ⟨⟨ha, hlen⟩, he⟩
  rw [system_next] at hlen
  have hroom : ∀ sess, w.system.session = some sess → sess.Numbered := by
    intro sess hs
    have hopen := ho sess hs
    rw [hsetup] at hopen
    exact numbered_of_created hdb hplayers hopen
  obtain ⟨hannounced, hfollows⟩ := hf.next ho hroom he ha hlen
  refine ⟨⟨hannounced, hfollows.sync⟩, ?_, ?_, hfollows⟩
  · rw [system_next]
    exact opened_step ho e
  · rw [system_next, step_toSetupTables]
    exact hsetup

/-- A session of a client with both flags in which a batch is released. -/
def releaseToClient : List Event :=
  [.connect, .handle (Env.inOrder false) (.fromAP (.connect ⟨some 3, false⟩)),
    .handle (Env.inOrder false) (.fromMW (.datasReceive keyBatch))]

theorem remote_releaseToClient : ∀ e ∈ releaseToClient, e.Remote := by
  intro e he
  simp only [releaseToClient, List.mem_cons, List.not_mem_nil, or_false] at he
  rcases he with rfl | rfl | rfl
  · trivial
  · exact ⟨3, rfl, by decide, by decide⟩
  · trivial

/-- The key is new, and the client hears of it. -/
theorem client_has_log_sample : ∃ db,
    createSavefile (Env.inOrder false) sampleResult [] = .ok db ∧
      Runs.Meets (Watch.next sampleConfig)
        (fun w e => w.Announced sampleConfig e ∧ (w.next sampleConfig e).InSync)
        (Watch.start db) releaseToClient ∧
      (Runs.run (Watch.next sampleConfig) (Watch.start db) releaseToClient).client ≠ .waiting := by
  obtain ⟨db, h, hlog, hnew, hclient⟩ := exists_created
    (x := createSavefile (Env.inOrder false) sampleResult [])
    (P := fun db => (play sampleConfig db releaseToClient).db.sentItems.length < 2 ^ 31 ∧
      (Runs.run (Watch.next sampleConfig) (Watch.start db)
        (releaseToClient.take 2)).system.db.hasReceivedItem (Env.inOrder false)
          labelMultiworldItem (lit "Key_(4)") = false ∧
      (Runs.run (Watch.next sampleConfig) (Watch.start db) releaseToClient).client ≠ .waiting)
    (by decide +kernel)
  refine ⟨db, h, ?_, hclient⟩
  refine client_has_log sampleConfig h (by decide) remote_releaseToClient hlog ?_
  refine ⟨trivial, fun _ _ _ => trivial, fun _ _ _ => ?_, trivial⟩
  exact ⟨⟨labelMultiworldItem, lit "Key_(4)"⟩, List.mem_singleton_self _, rfl, hnew⟩

/-- The same, and the batch is released once more. -/
def releaseTwice : List Event :=
  releaseToClient ++ [.handle (Env.inOrder false) (.fromMW (.datasReceive keyBatch))]

/-- Released once more, the batch has no new item, and breaks the client. -/
theorem duplicate_batch_breaks_client : ∃ db,
    createSavefile (Env.inOrder false) sampleResult [] = .ok db ∧
      ∃ es, (∀ e ∈ es, e.Remote) ∧ (play sampleConfig db es).db.sentItems.length = 1 ∧
        (Runs.run (Watch.next sampleConfig) (Watch.start db) es).client = .following none ∧
        ¬ Runs.Meets (Watch.next sampleConfig)
          (fun w e => w.Announced sampleConfig e ∧ (w.next sampleConfig e).InSync)
          (Watch.start db) es := by
  obtain ⟨db, h, hlog, hclient⟩ := exists_created
    (x := createSavefile (Env.inOrder false) sampleResult [])
    (P := fun db => (play sampleConfig db releaseTwice).db.sentItems.length = 1 ∧
      (Runs.run (Watch.next sampleConfig) (Watch.start db) releaseTwice).client = .following none)
    (by decide +kernel)
  refine ⟨db, h, releaseTwice, ?_, hlog, hclient, fun hmeets => ?_⟩
  · intro e he
    rcases List.mem_append.mp he with he | he
    · exact remote_releaseToClient e he
    · rw [List.mem_singleton.mp he]
      trivial
  · have hsync := (Runs.meets_append.mp hmeets).2.1.2
    rw [releaseTwice, Runs.run_append, Runs.run_cons, Runs.run_nil] at hclient
    rw [Watch.InSync, hclient] at hsync
    cases hsync

end Isthmus
