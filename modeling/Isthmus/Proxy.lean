import Isthmus.Approto.Transport
import Isthmus.Mwproto.Transport
import Isthmus.Run

/-!
# A session with its goroutines

`playMWWithConn` handles one message after the other, while the goroutines of the AP
connection and of the MW client read, write and ping at their own pace. A session is
made of the two sides and of the main loop between them, which has the effects of a
handler one by one and waits where a channel is full.

## Main definitions

- `Proxy`: the client of the MW server, the connection of the AP client, the savefile,
  and where the main loop stands
- `Proxy.move`: the moves of the goroutines and of the main loop
-/

namespace Isthmus

open Process Mwproto Approto Channels

/-! ## Messages of a trace -/

def Io.fromMW? : Io → Option Message
  | .recv (.fromMW m) => some m
  | _ => none

def Io.fromAP? : Io → Option ClientMessage
  | .recv (.fromAP m) => some m
  | _ => none

def Io.toMW? : Io → Option Message
  | .toMW m => some m
  | _ => none

def Io.toAP? : Io → Option ServerMessage
  | .toAP m => some m
  | _ => none

/-- The messages of one kind in a trace, in order. -/
def messagesOf {α : Type} (kind : Io → Option α) (t : Trace) : List α :=
  (messages t).filterMap kind

section Messages

variable {α : Type} (kind : Io → Option α)

@[simp] theorem messagesOf_nil : messagesOf kind [] = [] := rfl

@[simp] theorem messagesOf_commit (c : Commit) (t : Trace) :
    messagesOf kind (.commit c :: t) = messagesOf kind t := rfl

theorem messagesOf_io (m : Io) (t : Trace) :
    messagesOf kind (.io m :: t) = (kind m).toList ++ messagesOf kind t := by
  rw [messagesOf, messages_io, List.filterMap_cons]
  cases kind m <;> rfl

@[simp] theorem messagesOf_append (t u : Trace) :
    messagesOf kind (t ++ u) = messagesOf kind t ++ messagesOf kind u := by
  rw [messagesOf, messages_append, List.filterMap_append]
  rfl

end Messages

theorem mem_of_toMW? {t : Trace} {m : Message} (h : m ∈ messagesOf Io.toMW? t) :
    .io (.toMW m) ∈ t := by
  obtain ⟨io, hio, hm⟩ := List.mem_filterMap.mp h
  cases io with
  | toMW m' =>
    cases hm
    exact mem_messages.mp hio
  | _ => cases hm

theorem mem_of_toAP? {t : Trace} {m : ServerMessage} (h : m ∈ messagesOf Io.toAP? t) :
    .io (.toAP m) ∈ t := by
  obtain ⟨io, hio, hm⟩ := List.mem_filterMap.mp h
  cases io with
  | toAP m' =>
    cases hm
    exact mem_messages.mp hio
  | _ => cases hm

/-! ## The session -/

/-- Where the main loop stands: before `Accept` returns, at its `select`, with the effects
that are left of a handler and what that returns, or on its way out. -/
inductive MainLoop where
  | accepting
  | selecting (sess : Session)
  | handling (t : Trace) (r : Except Stop Session)
  | leaving
  | closing
  | left

structure Proxy where
  mw : Mwproto.Client
  ap : Connection
  db : Savefile
  mainLoop : MainLoop
  history : Trace

namespace Proxy

/-- A client connects. The MW server is dialled when it is accepted. -/
def start (db : Savefile) : Proxy := ⟨.dial, .start, db, .accepting, []⟩

/-- The move is one of the main loop, on the connection of the AP client. -/
def isMains : Connection.Move → Bool
  | .accept _ | .receive _ | .receiveMW _ | .connectionLost | .reply | .leave => true
  | _ => false

inductive Move where
  | mw (m : Mwproto.Client.Move)
  | ap (m : Connection.Move)
  | accept
  | selectMW (env : Env)
  | selectAP (env : Env)
  | effect
  | leave

def moveMW (s : Proxy) (m : Mwproto.Client.Move) : Outcome Proxy :=
  (s.mw.move m).map fun c => { s with mw := c }

def moveAP (s : Proxy) (m : Connection.Move) : Outcome Proxy :=
  (s.ap.move m).map fun c => { s with ap := c }

/-- One effect of a handler. -/
def perform (s : Proxy) : Effect Commit Io → Outcome Proxy
  | .commit c => .done { s with db := write s.db c }
  | .io (.recv _) => .done s
  | .io (.toMW m) => (s.moveMW (.send m)).bind fun s => s.moveMW .sent
  | .io (.toAP _) => s.moveAP .reply

def move (cfg : Config) (s : Proxy) : Move → Outcome Proxy
  | .mw m =>
    match s.mainLoop with
    | .accepting => .blocked
    | _ => if m.isOwners then .blocked else s.moveMW m
  | .ap m => if isMains m then .blocked else s.moveAP m
  | .accept =>
    match s.mainLoop with
    | .accepting =>
      match cfg.openRoom s.db.toSetupTables with
      | .error _ => .blocked
      | .ok room =>
        (s.moveAP (.accept (.roomInfo room.games room.checksums))).map fun s =>
          { s with mainLoop := .handling room.openingTrace (.ok room.enter) }
    | _ => .blocked
  | .selectMW env =>
    match s.mainLoop with
    | .selecting sess =>
      match s.mw.inbox.receive with
      | .blocked => .blocked
      | .closed => (s.moveAP .connectionLost).map fun s => { s with mainLoop := .leaving }
      | .got m _ =>
        let r := (handle cfg env sess (.fromMW m)).run s.db
        (s.moveMW .receive).bind fun s =>
          (s.moveAP (.receiveMW (messagesOf Io.toAP? r.trace))).map fun s =>
            { s with mainLoop := .handling r.trace r.result }
    | _ => .blocked
  | .selectAP env =>
    match s.mainLoop with
    | .selecting sess =>
      match s.ap.inbox.receive with
      | .blocked => .blocked
      | .got (some m) _ =>
        let r := (handle cfg env sess (.fromAP m)).run s.db
        (s.moveAP (.receive (messagesOf Io.toAP? r.trace))).map fun s =>
          { s with mainLoop := .handling r.trace r.result }
      -- the client is gone
      | _ => (s.moveAP (.receive [])).map fun s => { s with mainLoop := .leaving }
    | _ => .blocked
  | .effect =>
    match s.mainLoop with
    | .handling (e :: t) r => (s.perform e).map fun s =>
        { s with mainLoop := .handling t r, history := s.history ++ [e] }
    | .handling [] (.ok sess) => .done { s with mainLoop := .selecting sess }
    | .handling [] (.error .panic) => .panic
    | .handling [] (.error _) =>
      (s.moveAP .connectionLost).map fun s => { s with mainLoop := .leaving }
    | _ => .blocked
  -- the deferred calls: the MW client is closed first
  | .leave =>
    match s.mainLoop with
    | .leaving => (s.moveMW .close).map fun s => { s with mainLoop := .closing }
    | .closing => (s.moveAP .leave).map fun s => { s with mainLoop := .left }
    | _ => .blocked

/-- The moves that are made, each with where it is made and what it changes. -/
inductive Moved (cfg : Config) (s : Proxy) : Move → Proxy → Prop
  | mw {m c} (hl : s.mainLoop ≠ .accepting) (hm : m.isOwners = false)
      (hc : s.mw.move m = .done c) :
      Moved cfg s (.mw m) { s with mw := c }
  | ap {m c} (hm : isMains m = false) (hc : s.ap.move m = .done c) :
      Moved cfg s (.ap m) { s with ap := c }
  | accept {room c} (hl : s.mainLoop = .accepting)
      (hr : cfg.openRoom s.db.toSetupTables = .ok room)
      (hc : s.ap.move (.accept (.roomInfo room.games room.checksums)) = .done c) :
      Moved cfg s .accept { s with ap := c, mainLoop := .handling room.openingTrace (.ok room.enter) }
  | mwClosed {env sess c} (hl : s.mainLoop = .selecting sess) (hr : s.mw.inbox.receive = .closed)
      (hc : s.ap.move .connectionLost = .done c) :
      Moved cfg s (.selectMW env) { s with ap := c, mainLoop := .leaving }
  | fromMW {env sess m q c d r} (hl : s.mainLoop = .selecting sess)
      (hr : s.mw.inbox.receive = .got m q) (hrun : (handle cfg env sess (.fromMW m)).run s.db = r)
      (hc : s.mw.move .receive = .done c)
      (hd : s.ap.move (.receiveMW (messagesOf Io.toAP? r.trace)) = .done d) :
      Moved cfg s (.selectMW env)
        { s with mw := c, ap := d, mainLoop := .handling r.trace r.result }
  | apGone {env sess c} (hl : s.mainLoop = .selecting sess)
      (hr : s.ap.inbox.receive = .closed ∨ ∃ q, s.ap.inbox.receive = .got none q)
      (hc : s.ap.move (.receive []) = .done c) :
      Moved cfg s (.selectAP env) { s with ap := c, mainLoop := .leaving }
  | fromAP {env sess m q d r} (hl : s.mainLoop = .selecting sess)
      (hr : s.ap.inbox.receive = .got (some m) q)
      (hrun : (handle cfg env sess (.fromAP m)).run s.db = r)
      (hd : s.ap.move (.receive (messagesOf Io.toAP? r.trace)) = .done d) :
      Moved cfg s (.selectAP env) { s with ap := d, mainLoop := .handling r.trace r.result }
  | commit {c t r} (hl : s.mainLoop = .handling (.commit c :: t) r) :
      Moved cfg s .effect { s with
        db := write s.db c, mainLoop := .handling t r, history := s.history ++ [.commit c] }
  | recv {m t r} (hl : s.mainLoop = .handling (.io (.recv m) :: t) r) :
      Moved cfg s .effect { s with
        mainLoop := .handling t r, history := s.history ++ [.io (.recv m)] }
  | toMW {m t r c d} (hl : s.mainLoop = .handling (.io (.toMW m) :: t) r)
      (hc : s.mw.move (.send m) = .done c) (hd : c.move .sent = .done d) :
      Moved cfg s .effect { s with
        mw := d, mainLoop := .handling t r, history := s.history ++ [.io (.toMW m)] }
  | toAP {m t r c} (hl : s.mainLoop = .handling (.io (.toAP m) :: t) r)
      (hc : s.ap.move .reply = .done c) :
      Moved cfg s .effect { s with
        ap := c, mainLoop := .handling t r, history := s.history ++ [.io (.toAP m)] }
  | finished {sess} (hl : s.mainLoop = .handling [] (.ok sess)) :
      Moved cfg s .effect { s with mainLoop := .selecting sess }
  | failed {e c} (hl : s.mainLoop = .handling [] (.error e))
      (hc : s.ap.move .connectionLost = .done c) :
      Moved cfg s .effect { s with ap := c, mainLoop := .leaving }
  | closeMW {c} (hl : s.mainLoop = .leaving) (hc : s.mw.move .close = .done c) :
      Moved cfg s .leave { s with mw := c, mainLoop := .closing }
  | closeAP {c} (hl : s.mainLoop = .closing) (hc : s.ap.move .leave = .done c) :
      Moved cfg s .leave { s with ap := c, mainLoop := .left }

section Move

variable {cfg : Config} {s s' : Proxy} {m : Move}

-- The equations of `move` are made here, once, and not anew in each lemma about one move.
attribute [local simp] move

theorem moveMW_eq_done {m : Mwproto.Client.Move} :
    s.moveMW m = .done s' ↔ ∃ c, s.mw.move m = .done c ∧ { s with mw := c } = s' :=
  Outcome.map_eq_done

theorem moveAP_eq_done {m : Connection.Move} :
    s.moveAP m = .done s' ↔ ∃ c, s.ap.move m = .done c ∧ { s with ap := c } = s' :=
  Outcome.map_eq_done

theorem moved_mw {m : Mwproto.Client.Move} (h : move cfg s (.mw m) = .done s') :
    Moved cfg s (.mw m) s' := by
  simp only [move] at h
  split at h
  · cases h
  · next hl =>
    split at h
    · cases h
    · next hm =>
      obtain ⟨c, hc, rfl⟩ := moveMW_eq_done.mp h
      exact .mw hl (Bool.not_eq_true _ ▸ hm) hc

theorem moved_ap {m : Connection.Move} (h : move cfg s (.ap m) = .done s') :
    Moved cfg s (.ap m) s' := by
  simp only [move] at h
  split at h
  · cases h
  · next hm =>
    obtain ⟨c, hc, rfl⟩ := moveAP_eq_done.mp h
    exact .ap (Bool.not_eq_true _ ▸ hm) hc

theorem moved_accept (h : move cfg s .accept = .done s') : Moved cfg s .accept s' := by
  simp only [move] at h
  split at h
  · next hl =>
    split at h
    · cases h
    · next room hr =>
      obtain ⟨s₁, h₁, rfl⟩ := Outcome.map_eq_done.mp h
      obtain ⟨c, hc, rfl⟩ := moveAP_eq_done.mp h₁
      exact .accept hl hr hc
  · cases h

theorem moved_selectMW {env : Env} (h : move cfg s (.selectMW env) = .done s') :
    Moved cfg s (.selectMW env) s' := by
  simp only [move] at h
  split at h
  · next sess hl =>
    split at h
    · cases h
    · next hr =>
      obtain ⟨s₁, h₁, rfl⟩ := Outcome.map_eq_done.mp h
      obtain ⟨c, hc, rfl⟩ := moveAP_eq_done.mp h₁
      exact .mwClosed hl hr hc
    · next m q hr =>
      obtain ⟨s₁, h₁, h₂⟩ := Outcome.bind_eq_done.mp h
      obtain ⟨c, hc, rfl⟩ := moveMW_eq_done.mp h₁
      obtain ⟨s₂, h₃, rfl⟩ := Outcome.map_eq_done.mp h₂
      obtain ⟨d, hd, rfl⟩ := moveAP_eq_done.mp h₃
      exact .fromMW hl hr rfl hc hd
  · cases h

theorem moved_selectAP {env : Env} (h : move cfg s (.selectAP env) = .done s') :
    Moved cfg s (.selectAP env) s' := by
  simp only [move] at h
  split at h
  · next sess hl =>
    split at h
    · cases h
    · next m q hr =>
      obtain ⟨s₁, h₁, rfl⟩ := Outcome.map_eq_done.mp h
      obtain ⟨d, hd, rfl⟩ := moveAP_eq_done.mp h₁
      exact .fromAP hl hr rfl hd
    · next hblocked hgot =>
      obtain ⟨s₁, h₁, rfl⟩ := Outcome.map_eq_done.mp h
      obtain ⟨c, hc, rfl⟩ := moveAP_eq_done.mp h₁
      refine .apGone hl ?_ hc
      cases hr : s.ap.inbox.receive with
      | blocked => exact absurd hr hblocked
      | closed => exact .inl rfl
      | got o q =>
        cases o with
        | none => exact .inr ⟨q, rfl⟩
        | some m => exact absurd hr (hgot m q)
  · cases h

theorem moved_effect (h : move cfg s .effect = .done s') : Moved cfg s .effect s' := by
  simp only [move] at h
  split at h
  · next e t r hl =>
    obtain ⟨s₁, h₁, rfl⟩ := Outcome.map_eq_done.mp h
    cases e with
    | commit c =>
      cases h₁
      exact .commit hl
    | io io =>
      cases io with
      | recv m =>
        cases h₁
        exact .recv hl
      | toMW m =>
        obtain ⟨s₂, h₂, h₃⟩ := Outcome.bind_eq_done.mp h₁
        obtain ⟨c, hc, rfl⟩ := moveMW_eq_done.mp h₂
        obtain ⟨d, hd, rfl⟩ := moveMW_eq_done.mp h₃
        exact .toMW hl hc hd
      | toAP m =>
        obtain ⟨c, hc, rfl⟩ := moveAP_eq_done.mp h₁
        exact .toAP hl hc
  · next sess hl =>
    cases h
    exact .finished hl
  · cases h
  · next e _ hl =>
    obtain ⟨s₁, h₁, rfl⟩ := Outcome.map_eq_done.mp h
    obtain ⟨c, hc, rfl⟩ := moveAP_eq_done.mp h₁
    exact .failed hl hc
  · cases h

theorem moved_leave (h : move cfg s .leave = .done s') : Moved cfg s .leave s' := by
  simp only [move] at h
  split at h
  · next hl =>
    obtain ⟨s₁, h₁, rfl⟩ := Outcome.map_eq_done.mp h
    obtain ⟨c, hc, rfl⟩ := moveMW_eq_done.mp h₁
    exact .closeMW hl hc
  · next hl =>
    obtain ⟨s₁, h₁, rfl⟩ := Outcome.map_eq_done.mp h
    obtain ⟨c, hc, rfl⟩ := moveAP_eq_done.mp h₁
    exact .closeAP hl hc
  · cases h

theorem moved (h : move cfg s m = .done s') : Moved cfg s m s' := by
  cases m with
  | mw m => exact moved_mw h
  | ap m => exact moved_ap h
  | accept => exact moved_accept h
  | selectMW env => exact moved_selectMW h
  | selectAP env => exact moved_selectAP h
  | effect => exact moved_effect h
  | leave => exact moved_leave h

end Move

end Proxy

end Isthmus
