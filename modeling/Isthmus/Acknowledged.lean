import Isthmus.Duplicates
import Isthmus.Lib.Acknowledge

/-!
# Deliveries and their confirmations

The MW server keeps a delivery pending until it reads the confirmation of it,
and delivers what is pending again after a rejoin. The proxy confirms a
`DataReceiveMessage` only while the item is new: a redelivery of an item that is
recorded is ignored, so an item whose confirmation was lost stays pending.

## Main definitions

- `Exchange`: the proxy, and the link to the server
- `Exchange.redeliver`: a rejoin, the redelivery, and all that is in transit
- `Exchange.New`: a delivery is handled for an item that is not recorded
- `Exchange.Kept`: a step that records a pending item, or loses confirmations,
  leaves no recorded item pending without a confirmation in transit
-/

namespace Isthmus

open Process Mwproto Approto Acknowledge

/-- The message that confirms a delivery. -/
def confirmation (m : DataReceiveMessage) : DataReceiveConfirmMessage :=
  ⟨m.label, m.content, m.sender⟩

/-- The confirmations among the messages of a trace. -/
def confirmations (t : Trace) : List DataReceiveConfirmMessage :=
  (messages t).filterMap fun
    | .toMW (.dataReceiveConfirm c) => some c
    | _ => none

theorem confirmations_append (t u : Trace) :
    confirmations (t ++ u) = confirmations t ++ confirmations u := by
  simp [confirmations]

/-- The label is the one of multiworld items, and the sender is a player. -/
def SetupTables.Expects (setup : SetupTables) (m : DataReceiveMessage) : Prop :=
  m.label = labelMultiworldItem ∧ 0 ≤ m.fromID.toInt ∧ m.fromID.toInt < setup.players.rows.length

instance (setup : SetupTables) (m : DataReceiveMessage) : Decidable (setup.Expects m) :=
  inferInstanceAs (Decidable (_ ∧ _ ∧ _))

/-- An open session takes the deliveries that the savefile expects. -/
theorem System.Opened.addressed_iff {cfg : Config} {s : System} (ho : s.Opened cfg)
    {sess : Session} (hs : s.session = some sess) (m : DataReceiveMessage) :
    sess.Addressed m ↔ s.db.Expects m := by
  obtain ⟨-, hnick, hlen, -⟩ := Config.openRoom_ok (ho sess hs)
  have hplayers : sess.games.length = s.db.players.rows.length := by
    rw [hlen, hnick, SetupTables.getNicknames, List.length_map, List.length_insertionSort]
  rw [Room.Addressed, SetupTables.Expects, hplayers]

/-! ## The server and the proxy -/

/-- The item of the delivery is recorded as received. -/
def System.Received (s : System) (m : DataReceiveMessage) : Prop :=
  s.db.Expects m ∧ receivedRow m.content ∈ s.db.receivedItems.rows

instance (s : System) (m : DataReceiveMessage) : Decidable (s.Received m) :=
  inferInstanceAs (Decidable (_ ∧ _))

structure Exchange where
  proxy : System
  link : Link DataReceiveMessage DataReceiveConfirmMessage

inductive Move where
  | offer (m : DataReceiveMessage)
  | proxy (e : Event)
  | absorb
  | lose

/-- Nothing is pending before the first session. -/
def Exchange.start (db : Savefile) : Exchange := ⟨boot db, ⟨[], []⟩⟩

/-- What an event of the proxy adds to the history. -/
def added (cfg : Config) (s : System) (e : Event) : Trace :=
  (step cfg s e).history.drop s.history.length

/-- The server offers a delivery or reads a confirmation, the proxy takes a step,
or the connection is lost with all that is in transit. -/
def Exchange.move (cfg : Config) (x : Exchange) : Move → Exchange
  | .offer m => ⟨x.proxy, x.link.offer m⟩
  | .proxy e => ⟨step cfg x.proxy e, x.link.send (confirmations (added cfg x.proxy e))⟩
  | .absorb => ⟨x.proxy, x.link.absorb confirmation⟩
  | .lose => ⟨step cfg x.proxy .disconnect, x.link.lose⟩

/-- The proxy joins, handles the delivery, and the server reads what is in transit. -/
def Exchange.redeliver (cfg : Config) (x : Exchange) (env : Env) (m : DataReceiveMessage) :
    Exchange :=
  let y := (x.move cfg (.proxy .connect)).move cfg (.proxy (.handle env (.fromMW (.dataReceive m))))
  ⟨y.proxy, y.link.drain confirmation⟩

/-- A delivery that is handled is confirmed. -/
def Exchange.Acknowledges (cfg : Config) (x : Exchange) : Move → Prop
  | .proxy (.handle env (.fromMW (.dataReceive m))) =>
    ∀ sess, x.proxy.session = some sess → x.proxy.db.Expects m →
      confirmation m ∈ confirmations
        ((handle cfg env sess (.fromMW (.dataReceive m))).run x.proxy.db).trace
  | _ => True

/-- No recorded item stays pending when it is delivered again. -/
def Exchange.NoneStuck (cfg : Config) (x : Exchange) : Prop :=
  ∀ m ∈ x.link.pending, x.proxy.Received m → ∀ env, m ∉ (x.redeliver cfg env m).link.pending

/-- A delivery is only handled while its item is not recorded. -/
def Exchange.New (x : Exchange) : Move → Prop
  | .proxy (.handle env (.fromMW (.dataReceive m))) =>
    x.proxy.session.isSome = true → x.proxy.db.Expects m →
      x.proxy.db.hasReceivedItem env m.label m.content = false
  | _ => True

/-- The rows that handling a message records. -/
def Session.records (sess : Session) (env : Env) (db : Savefile) : Incoming → List ReceivedRow
  | .fromMW (.dataReceive m) =>
    if sess.Addressed m ∧ db.hasReceivedItem env m.label m.content = false ∧
      ¬ env.BindsNull m.content then [receivedRow m.content] else []
  | .fromMW (.datasReceive m) => (newRows env db.receivedItems.rows m.items).1
  | _ => []

/-- How many of the first `w` writes are records: a delivery appends first. -/
def Incoming.recorded : Incoming → Nat → Nat
  | .fromMW (.dataReceive _), w => w - 1
  | _, w => w

/-- The rows that an event records. -/
def System.records (s : System) : Event → List ReceivedRow
  | .handle env m =>
    match s.session with
    | none => []
    | some sess => sess.records env s.db m
  | .kill env m w _ =>
    match s.session with
    | none => []
    | some sess => (sess.records env s.db m).take (m.recorded w)
  | _ => []

/-- The event handles a delivery with the same confirmation. -/
def Event.Confirms (m : DataReceiveMessage) : Event → Prop
  | .handle _ msg | .kill _ msg _ _ =>
    ∃ m', msg = .fromMW (.dataReceive m') ∧ confirmation m = confirmation m'
  | _ => False

/-- A pending item is recorded, and confirmations are lost, only where no
recorded item is left pending without a confirmation in transit. -/
def Exchange.Kept (x : Exchange) : Move → Prop
  | .offer m => x.proxy.Received m → confirmation m ∈ x.link.wire
  | .proxy e => ∀ m ∈ x.link.pending, x.proxy.db.Expects m →
      receivedRow m.content ∈ x.proxy.records e →
        confirmation m ∈ x.link.wire ∨ e.Confirms m
  | .absorb => True
  | .lose => ∀ m ∈ x.link.pending, ¬ x.proxy.Received m

/-! ## What a message records and confirms -/

section Handle

variable {cfg : Config} {env : Env} {sess : Session} {db : Savefile}

@[simp] theorem confirmations_notice (flag : ItemHandlingMode) (index : Int)
    (items : List NetworkItem) : confirmations (sess.notice flag index items) = [] := by
  by_cases h : sess.itemHandling.has flag = true
  · simp [Session.notice, h, confirmations]
  · simp [Session.notice, h, confirmations]

theorem confirmations_commit (c : Commit) (t : Trace) :
    confirmations (.commit c :: t) = confirmations t := rfl

theorem confirmations_recv (m : Incoming) (t : Trace) :
    confirmations (.io (.recv m) :: t) = confirmations t := rfl

theorem confirmations_appendTrace (m : DataReceiveMessage) (item : NetworkItem) :
    confirmations (sess.appendTrace db m item) = [confirmation m] := by
  rw [Session.appendTrace, confirmations_commit, confirmations_append, confirmations_notice]
  rfl

theorem confirmations_deliveredTrace (m : DataReceiveMessage) :
    confirmations (deliveredTrace m) = [] := rfl

theorem confirmations_recordTrace (rows : List ReceivedRow) :
    confirmations (recordTrace rows) = [] := by
  induction rows with
  | nil => rfl
  | cons r rows ih => exact ih

theorem confirmations_batchTrace (m : DatasReceiveMessage) (items : List (NetworkItem × Origin)) :
    confirmations (sess.batchTrace db m items) = [] := by
  rw [Session.batchTrace, confirmations_commit, confirmations_append, confirmations_notice]
  rfl

/-- A part of a trace without confirmations has none. -/
theorem confirmations_cut {t : Trace} (h : confirmations t = []) (w n : Nat) :
    confirmations (cut w n t) = [] := by
  obtain ⟨u, hu⟩ := isPrefix_cut w n t
  rw [← hu, confirmations_append] at h
  exact (List.append_eq_nil_iff.mp h).1

/-- A delivery is confirmed exactly if its item is new. -/
theorem mem_confirmations_dataReceive (hc : sess.Complete) {m : DataReceiveMessage}
    (ha : sess.Addressed m) :
    confirmation m ∈ confirmations ((handle cfg env sess (.fromMW (.dataReceive m))).run db).trace ↔
      db.hasReceivedItem env m.label m.content = false := by
  rw [run_handle_fromMW, handleMW]
  show confirmation m ∈ confirmations (.io (.recv _) :: _) ↔ _
  rw [confirmations_recv]
  by_cases hdup : db.hasReceivedItem env m.label m.content = true
  · rw [run_handleDataReceive_ignored (.inr hdup), hdup]
    simp [confirmations]
  · have hnew : db.hasReceivedItem env m.label m.content = false := Bool.not_eq_true _ ▸ hdup
    obtain ⟨item, -, -, hrun⟩ := run_handleDataReceive_new cfg hc ha hnew
    rw [hrun]
    by_cases hnull : env.BindsNull m.content
    · rw [if_pos hnull]
      simp [confirmations_appendTrace, hnew]
    · rw [if_neg hnull]
      simp [confirmations_append, confirmations_appendTrace, hnew]

theorem records_of_not_delivers {m : Incoming} (h : ¬ m.Delivers) :
    sess.records env db m = [] := by
  cases m with
  | fromMW m =>
    cases m with
    | dataReceive m | datasReceive m => exact absurd trivial h
    | _ => rfl
  | fromAP m => rfl

variable (cfg) in
/-- What a delivery is handled as, where it records its item. -/
theorem run_dataReceive_records (hc : sess.Complete) {m : DataReceiveMessage} {r : ReceivedRow}
    (hr : r ∈ sess.records env db (.fromMW (.dataReceive m))) :
    ∃ item, ((handle cfg env sess (.fromMW (.dataReceive m))).run db).trace =
      (.io (.recv (.fromMW (.dataReceive m))) :: sess.appendTrace db m item) ++ deliveredTrace m := by
  rw [Session.records] at hr
  split at hr
  · next hcond =>
    obtain ⟨ha, hnew, hnull⟩ := hcond
    obtain ⟨item, -, -, hrun⟩ := run_handleDataReceive_new cfg hc ha hnew
    refine ⟨item, ?_⟩
    rw [run_handle_fromMW, handleMW, hrun, if_neg hnull]
    rfl
  · cases hr

/-- The first `w` writes of a delivery record its item from the second on. -/
theorem receivedItems_dataReceive (hc : sess.Complete) (m : DataReceiveMessage) (w : Nat) :
    (perform db ((commits ((handleDataReceive cfg env sess m).run db).trace).take w)).receivedItems.rows =
      db.receivedItems.rows ++ (sess.records env db (.fromMW (.dataReceive m))).take (w - 1) := by
  rw [Session.records]
  by_cases hi : ¬ sess.Addressed m ∨ db.hasReceivedItem env m.label m.content = true
  · have hcond : ¬ (sess.Addressed m ∧ db.hasReceivedItem env m.label m.content = false ∧
        ¬ env.BindsNull m.content) := by
      rintro ⟨ha, hnew, -⟩
      rcases hi with hnot | hdup
      · exact hnot ha
      · rw [hnew] at hdup
        cases hdup
    rw [run_handleDataReceive_ignored hi, if_neg hcond]
    simp
  · rw [not_or, not_not, Bool.not_eq_true] at hi
    obtain ⟨ha, hnew⟩ := hi
    obtain ⟨item, -, -, hrun⟩ := run_handleDataReceive_new cfg hc ha hnew
    rw [hrun]
    by_cases hnull : env.BindsNull m.content
    · -- the append is the only write
      have happend : ∀ c ∈ (commits (sess.appendTrace db m item)).take w, c.target ≠ .received := by
        intro c hcm
        rw [commits_appendTrace] at hcm
        rw [List.mem_singleton.mp (List.mem_of_mem_take hcm)]
        simp [Commit.target]
      rw [if_pos hnull, if_neg (fun hcond => hcond.2.2 hnull), receivedItems_perform happend]
      simp
    · rw [if_neg hnull, if_pos ⟨ha, hnew, hnull⟩, commits_append, commits_appendTrace,
        commits_deliveredTrace, List.singleton_append]
      obtain ⟨t, ht, -, hperform⟩ := perform_delivery
        (sentRow item (.delivered m.label m.content)) ha.1 hnew hnull
      obtain _ | _ | w := w
      · simp
      · simp [write_of_ok]
      · rw [List.take_of_length_le (by simp), hperform]
        simpa using ht

/-- A batch records its rows one by one, and then nothing. -/
theorem receivedItems_batch {rows : List ReceivedRow} {c : Commit}
    (hlabel : ∀ r ∈ rows, r.label = labelMultiworldItem)
    (hnd : (db.receivedItems.rows ++ rows).Nodup) (hc : c.target ≠ .received) (w : Nat) :
    (perform db ((recordCommits rows ++ [c]).take w)).receivedItems.rows =
      db.receivedItems.rows ++ rows.take w := by
  have hnd' : (db.receivedItems.rows ++ rows.take w).Nodup :=
    hnd.sublist ((List.take_sublist w rows).append_left _)
  obtain ⟨t, ht, hrecord⟩ := perform_recordCommits
    (fun r hr => hlabel r (List.mem_of_mem_take hr)) hnd'
  rcases take_batch rows c w with ⟨hw, htake⟩ | ⟨-, htake⟩
  · have hall : rows.take w = rows := List.take_of_length_le (by omega)
    rw [hall] at ht hrecord ⊢
    rw [htake, perform_append, hrecord, receivedItems_perform (by simpa using hc)]
    exact ht
  · rw [htake, hrecord]
    exact ht

/-- The first `w` writes of a released batch record its first `w` new items. -/
theorem receivedItems_datasReceive (hc : sess.Complete)
    (hlen : sess.games.length = sess.nicknames.length) (m : DatasReceiveMessage) (w : Nat) :
    (perform db ((commits ((handleDatasReceive cfg env sess m).run db).trace).take w)).receivedItems.rows =
      db.receivedItems.rows ++ (newRows env db.receivedItems.rows m.items).1.take w := by
  have hnd := newRows_nodup env m.items (by simpa using db.receivedItems.nodup)
  obtain ⟨items, -, -, hrun⟩ := run_handleDatasReceive cfg env db hc hlen m
  rw [hrun]
  by_cases hdone : (newRows env db.receivedItems.rows m.items).2 = true
  · rw [if_pos hdone, commits_append, commits_recordTrace, commits_batchTrace]
    exact receivedItems_batch (fun r => label_of_mem_newRows) hnd (by simp [Commit.target]) w
  · have hnd' := hnd.sublist ((List.take_sublist w _).append_left _)
    obtain ⟨t, ht, hrecord⟩ := perform_recordCommits
      (fun r hr => label_of_mem_newRows (List.mem_of_mem_take hr)) hnd'
    rw [if_neg hdone, commits_recordTrace, take_recordCommits, hrecord]
    exact ht

variable (cfg env db) in
/-- The first `w` writes of a handler record what `records` says. -/
theorem receivedItems_handle (hc : sess.Complete)
    (hlen : sess.games.length = sess.nicknames.length) (m : Incoming) (w : Nat) :
    (perform db ((commits ((handle cfg env sess m).run db).trace).take w)).receivedItems.rows =
      db.receivedItems.rows ++ (sess.records env db m).take (m.recorded w) := by
  by_cases hd : m.Delivers
  · cases m with
    | fromAP m => exact absurd hd id
    | fromMW m =>
      rw [run_handle_fromMW, commits_io, handleMW.eq_def]
      cases m with
      | dataReceive m => exact receivedItems_dataReceive hc m w
      | datasReceive m => exact receivedItems_datasReceive hc hlen m w
      | _ => exact absurd hd id
  · obtain ⟨r, t, hrun, h⟩ := handle_handled cfg env db hc hlen m
    have hother := h.target_ne_received hd
    rw [hrun, commits_io, records_of_not_delivers hd,
      receivedItems_perform fun c hcm => hother c (List.mem_of_mem_take hcm)]
    simp

/-- All the writes of a handler record all of it. -/
theorem receivedItems_replay_handle (hc : sess.Complete)
    (hlen : sess.games.length = sess.nicknames.length) (m : Incoming) :
    (replay db ((handle cfg env sess m).run db).trace).receivedItems.rows =
      db.receivedItems.rows ++ sess.records env db m := by
  have hall := receivedItems_handle cfg env db hc hlen m
    ((commits ((handle cfg env sess m).run db).trace).length + (sess.records env db m).length + 1)
  have hrecorded : (sess.records env db m).length ≤ m.recorded
      ((commits ((handle cfg env sess m).run db).trace).length + (sess.records env db m).length + 1) := by
    unfold Incoming.recorded
    split <;> omega
  rw [List.take_of_length_le (by omega), List.take_of_length_le hrecorded] at hall
  rw [replay_eq_perform]
  exact hall

end Handle

/-! ## What an event records and confirms -/

section Step

variable {cfg : Config} {s : System}

theorem receivedItems_step (ho : s.Opened cfg) (e : Event) :
    (step cfg s e).db.receivedItems.rows = s.db.receivedItems.rows ++ s.records e := by
  cases e with
  | connect =>
    simp only [step, System.records]
    split
    · simp
    · simp
  | disconnect => simp [step, System.records]
  | handle env m =>
    cases hs : s.session with
    | none => simp [step, System.records, hs]
    | some sess =>
      obtain ⟨-, -, hlen, hc⟩ := Config.openRoom_ok (ho sess hs)
      simp only [step, System.records, hs]
      exact receivedItems_replay_handle hc hlen m
  | kill env m w n =>
    cases hs : s.session with
    | none => simp [step, System.records, hs]
    | some sess =>
      obtain ⟨-, -, hlen, hc⟩ := Config.openRoom_ok (ho sess hs)
      simp only [step, System.records, hs]
      rw [replay_cut]
      exact receivedItems_handle cfg env s.db hc hlen m w

theorem added_handle {sess : Session} (hs : s.session = some sess) (env : Env) (m : Incoming) :
    added cfg s (.handle env m) = ((handle cfg env sess m).run s.db).trace := by
  simp only [added, step, hs, List.drop_left]

theorem added_kill {sess : Session} (hs : s.session = some sess) (env : Env) (m : Incoming)
    (w n : Nat) :
    added cfg s (.kill env m w n) = cut w n ((handle cfg env sess m).run s.db).trace := by
  simp only [added, step, hs, List.drop_left]

/-- What an open session records, it records for a delivery or a batch. -/
theorem mem_confirmations_handle {env : Env} {sess : Session} {db : Savefile} (hc : sess.Complete)
    (hlen : sess.games.length = sess.nicknames.length) {m : Incoming} {r : ReceivedRow}
    (hr : r ∈ sess.records env db m) {w n : Nat} (hw : 0 < m.recorded w) (c : DataReceiveConfirmMessage) :
    (c ∈ confirmations ((handle cfg env sess m).run db).trace ↔
      ∃ m', m = .fromMW (.dataReceive m') ∧ c = confirmation m') ∧
    (c ∈ confirmations (cut w n ((handle cfg env sess m).run db).trace) ↔
      ∃ m', m = .fromMW (.dataReceive m') ∧ c = confirmation m') := by
  by_cases hd : m.Delivers
  · cases m with
    | fromAP m => exact absurd hd id
    | fromMW m =>
      cases m with
      | dataReceive m =>
        obtain ⟨item, htrace⟩ := run_dataReceive_records cfg hc hr
        obtain ⟨k, rfl⟩ : ∃ k, w = 1 + (k + 1) := ⟨w - 2, by change 0 < w - 1 at hw; omega⟩
        have hone : (commits (.io (.recv (.fromMW (.dataReceive m))) ::
            sess.appendTrace db m item)).length = 1 := by simp
        have hcut := cut_append (.io (.recv (.fromMW (.dataReceive m))) ::
          sess.appendTrace db m item) (deliveredTrace m) k n
        rw [hone] at hcut
        rw [htrace, hcut, confirmations_append, confirmations_append, confirmations_recv,
          confirmations_appendTrace, confirmations_deliveredTrace,
          confirmations_cut (confirmations_deliveredTrace m)]
        simp
      | datasReceive m =>
        obtain ⟨items, -, -, hrun⟩ := run_handleDatasReceive cfg env db hc hlen m
        have hnone : confirmations ((handle cfg env sess (.fromMW (.datasReceive m))).run db).trace = [] := by
          rw [run_handle_fromMW, handleMW, hrun]
          show confirmations (.io (.recv _) :: _) = []
          rw [confirmations_recv]
          split
          · rw [confirmations_append, confirmations_recordTrace, confirmations_batchTrace]
            rfl
          · exact confirmations_recordTrace _
        rw [confirmations_cut hnone, hnone]
        simp
      | _ => exact absurd hd id
  · rw [records_of_not_delivers hd] at hr
    cases hr

/-- An event that records an item confirms it if it handles its delivery. -/
theorem mem_confirmations_added (ho : s.Opened cfg) {e : Event} {m : DataReceiveMessage}
    {r : ReceivedRow} (hr : r ∈ s.records e) :
    confirmation m ∈ confirmations (added cfg s e) ↔ e.Confirms m := by
  cases e with
  | connect | disconnect => cases hr
  | handle env m' =>
    cases hs : s.session with
    | none =>
      simp only [System.records, hs] at hr
      cases hr
    | some sess =>
      obtain ⟨-, -, hlen, hc⟩ := Config.openRoom_ok (ho sess hs)
      simp only [System.records, hs] at hr
      have hpos : 0 < m'.recorded 2 := by
        unfold Incoming.recorded
        split <;> decide
      rw [added_handle hs]
      exact (mem_confirmations_handle (n := 0) hc hlen hr hpos _).1
  | kill env m' w n =>
    cases hs : s.session with
    | none =>
      simp only [System.records, hs] at hr
      cases hr
    | some sess =>
      obtain ⟨-, -, hlen, hc⟩ := Config.openRoom_ok (ho sess hs)
      simp only [System.records, hs] at hr
      have hpos : 0 < m'.recorded w := by
        by_contra hzero
        rw [Nat.eq_zero_of_not_pos hzero, List.take_zero] at hr
        cases hr
      rw [added_kill hs]
      exact (mem_confirmations_handle hc hlen (List.mem_of_mem_take hr) hpos _).2

end Step

/-! ## Runs of the exchange -/

section Exchange

variable {cfg : Config} {x : Exchange}

theorem received_step (ho : x.proxy.Opened cfg) (e : Event) (m : DataReceiveMessage) :
    (step cfg x.proxy e).Received m ↔ x.proxy.Received m ∨
      x.proxy.db.Expects m ∧ receivedRow m.content ∈ x.proxy.records e := by
  rw [System.Received, System.Received, step_toSetupTables, receivedItems_step ho,
    List.mem_append, and_or_left]

/-- A move keeps the link settled exactly if it meets the condition. -/
theorem settled_move (ho : x.proxy.Opened cfg)
    (h : x.link.Settled confirmation x.proxy.Received) (mv : Move) :
    (x.move cfg mv).link.Settled confirmation (x.move cfg mv).proxy.Received ↔ x.Kept mv := by
  cases mv with
  | offer m => exact Link.settled_offer h
  | absorb => exact ⟨fun _ => trivial, fun _ => h.absorb⟩
  | lose => exact Link.settled_lose
  | proxy e =>
    refine (Link.settled_send h (received_step ho e)).trans ?_
    constructor
    · intro hkept m hm hexp hr
      have hor := hkept m hm ⟨hexp, hr⟩
      rwa [mem_confirmations_added ho hr] at hor
    · rintro hkept m hm ⟨hexp, hr⟩
      have hor := hkept m hm hexp hr
      rwa [mem_confirmations_added ho hr]

/-- A rejoin records nothing and confirms nothing. -/
theorem move_connect (cfg : Config) (x : Exchange) :
    (x.move cfg (.proxy .connect)).proxy.db = x.proxy.db ∧
      (x.move cfg (.proxy .connect)).link = x.link := by
  have hnone : confirmations (added cfg x.proxy .connect) = [] := by
    simp only [added, step]
    split
    · unfold Config.failedOpening
      split <;> simp [confirmations]
    · simp [confirmations]
  refine ⟨?_, ?_⟩
  · simp only [Exchange.move, step]
    split <;> rfl
  · simp only [Exchange.move, hnone, Link.send, List.append_nil]

/-- A recorded item is not confirmed when it is delivered again. -/
theorem confirmations_duplicate {s : System} (ho : s.Opened cfg) {m : DataReceiveMessage}
    (hr : s.Received m) : confirmation m ∉
      confirmations (added cfg s (.handle (Env.inOrder false) (.fromMW (.dataReceive m)))) := by
  cases hs : s.session with
  | none => simp [added, step, hs, confirmations]
  | some sess =>
    obtain ⟨-, -, -, hc⟩ := Config.openRoom_ok (ho sess hs)
    have hdup : s.db.hasReceivedItem (Env.inOrder false) m.label m.content = true := by
      rw [hr.1.1]
      refine hasReceivedItem_iff.mpr ⟨?_, hr.2⟩
      rintro ⟨hnil, -⟩
      cases hnil
    rw [added_handle hs,
      mem_confirmations_dataReceive hc ((ho.addressed_iff hs m).mpr hr.1), hdup]
    decide

/-- No recorded item stays pending after its redelivery exactly if each one
that is pending has its confirmation in transit. -/
theorem noneStuck_iff (ho : x.proxy.Opened cfg) :
    x.NoneStuck cfg ↔ x.link.Settled confirmation x.proxy.Received := by
  obtain ⟨hdb, hlink⟩ := move_connect cfg x
  have hopen : (x.move cfg (.proxy .connect)).proxy.Opened cfg := opened_step ho .connect
  -- what is left pending by the redelivery
  have hleft : ∀ env m, m ∈ (x.redeliver cfg env m).link.pending ↔ m ∈ x.link.pending ∧
      confirmation m ∉ x.link.wire ++ confirmations (added cfg
        (x.move cfg (.proxy .connect)).proxy (.handle env (.fromMW (.dataReceive m)))) := by
    intro env m
    rw [Exchange.redeliver]
    refine Link.mem_drain.trans ?_
    show m ∈ (x.move cfg (.proxy .connect)).link.pending ∧
      confirmation m ∉ (x.move cfg (.proxy .connect)).link.wire ++ _ ↔ _
    rw [hlink]
  constructor
  · intro hstuck m hm hr
    by_contra hwire
    have hr' : (x.move cfg (.proxy .connect)).proxy.Received m := by
      rw [System.Received, hdb]
      exact hr
    refine hstuck m hm hr (Env.inOrder false) ((hleft _ m).mpr ⟨hm, ?_⟩)
    rw [List.mem_append, not_or]
    exact ⟨hwire, confirmations_duplicate hopen hr'⟩
  · intro hsettled m hm hr env hleftm
    exact ((hleft env m).mp hleftm).2 (List.mem_append_left _ (hsettled m hm hr))

/-- A delivery that is handled is confirmed exactly if it is new. -/
theorem acknowledges_iff (ho : x.proxy.Opened cfg) (mv : Move) :
    x.Acknowledges cfg mv ↔ x.New mv := by
  unfold Exchange.Acknowledges Exchange.New
  split
  · next env m =>
    constructor
    · intro hack hopen hexp
      obtain ⟨sess, hs⟩ := Option.isSome_iff_exists.mp hopen
      obtain ⟨-, -, -, hc⟩ := Config.openRoom_ok (ho sess hs)
      exact (mem_confirmations_dataReceive hc ((ho.addressed_iff hs m).mpr hexp)).mp
        (hack sess hs hexp)
    · intro hnew sess hs hexp
      obtain ⟨-, -, -, hc⟩ := Config.openRoom_ok (ho sess hs)
      exact (mem_confirmations_dataReceive hc ((ho.addressed_iff hs m).mpr hexp)).mpr
        (hnew (by rw [hs]; rfl) hexp)
  · exact Iff.rfl

theorem opened_move (ho : x.proxy.Opened cfg) (mv : Move) : (x.move cfg mv).proxy.Opened cfg := by
  cases mv with
  | offer m | absorb => exact ho
  | proxy e => exact opened_step ho e
  | lose => exact opened_step ho .disconnect

/-- In a run of the server and the proxy, every delivery that is handled is
confirmed and no recorded item stays pending when it is delivered again, exactly
if deliveries are only handled for new items and each move keeps the
confirmations of what is recorded and pending in transit. -/
theorem deliveries_acknowledged_iff (cfg : Config) (db : Savefile) (mvs : List Move) :
    (Runs.Meets (Exchange.move cfg) (Exchange.Acknowledges cfg) (Exchange.start db) mvs ∧
      ∀ k, (Runs.run (Exchange.move cfg) (Exchange.start db) (mvs.take k)).NoneStuck cfg) ↔
    Runs.Meets (Exchange.move cfg) (fun x mv => x.New mv ∧ x.Kept mv) (Exchange.start db) mvs := by
  have hopen : (Exchange.start db).proxy.Opened cfg := opened_boot cfg db
  have hsettled : (Exchange.start db).link.Settled confirmation (Exchange.start db).proxy.Received :=
    fun m hm => absurd hm List.not_mem_nil
  have hstuck : (∀ k, (Runs.run (Exchange.move cfg) (Exchange.start db) (mvs.take k)).NoneStuck cfg) ↔
      Runs.Meets (Exchange.move cfg) Exchange.Kept (Exchange.start db) mvs := by
    refine Runs.forall_take_iff_meets (I := fun x : Exchange => x.proxy.Opened cfg)
      (fun _ mv ho => opened_move ho mv) ?_ hopen ((noneStuck_iff hopen).mpr hsettled)
    intro x mv ho hnone
    rw [noneStuck_iff (opened_move ho mv)]
    exact settled_move ho ((noneStuck_iff ho).mp hnone) mv
  have hack : Runs.Meets (Exchange.move cfg) (Exchange.Acknowledges cfg) (Exchange.start db) mvs ↔
      Runs.Meets (Exchange.move cfg) Exchange.New (Exchange.start db) mvs :=
    Runs.meets_congr (I := fun x : Exchange => x.proxy.Opened cfg)
      (fun _ mv ho => opened_move ho mv) (fun _ mv ho => acknowledges_iff ho mv) hopen
  rw [Runs.meets_and_iff, hstuck, hack]

end Exchange

/-- A key is delivered and recorded, and its confirmation is lost: it stays
pending when it is delivered again. -/
theorem redelivery_left_pending : ∃ db,
    createSavefile (Env.inOrder false) sampleResult [] = .ok db ∧
      let x := Runs.run (Exchange.move sampleConfig) (Exchange.start db)
        [.offer keyDelivery, .proxy .connect,
          .proxy (.handle (Env.inOrder false) (.fromMW (.dataReceive keyDelivery))), .lose]
      keyDelivery ∈ x.link.pending ∧ x.proxy.Received keyDelivery ∧
        keyDelivery ∈ (x.redeliver sampleConfig (Env.inOrder false) keyDelivery).link.pending :=
  exists_created (by decide +kernel)

end Isthmus
