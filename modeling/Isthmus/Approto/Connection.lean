import Isthmus.Approto.Schema
import Isthmus.Lib.Channels

/-!
# One connection of an AP client

`handleConnection` reads packets off the connection and puts their messages in
`inbox`; a goroutine of its own writes what is put in `outbox`. The main loop
accepts the connection, takes one message after the other from `inbox`, and puts
its replies in `outbox`. Both channels hold one message.

When the handler ends it marks the end of `inbox` with nil, gives the slot of
the single client back and cancels the context of the request, on which the
writer may leave. When the main loop leaves the session it closes `outbox`, on
which the writer closes the connection.

## Main definitions

- `Connection`: the channels, and where each goroutine stands
- `move`: the moves of the goroutines, of the client and of the MW server
- `Moved`: the moves that are made, as rules
-/

namespace Isthmus.Approto

open Channels

namespace Connection

/-- Where `handleConnection` stands. -/
inductive Handler where
  | offering
  | reading
  | pushing (m : ClientMessage) (ms : List ClientMessage)
  | exiting
  | releasing
  | closing
  | returned

/-- Where the goroutine that writes stands: at its `select`, or in `wsjson.Write`. -/
inductive Writer where
  | selecting
  | writing (m : ServerMessage)
  | exited

/-- Where the main loop stands: in `Accept` or in an earlier session, with the
replies of the message it handles (none at its `select`), leaving the session, or
in `Accept` again. -/
inductive Main where
  | accepting
  | serving (replies : List ServerMessage)
  | leaving
  | out

end Connection

open Connection in
structure Connection where
  inbox : Chan (Option ClientMessage) 1
  outbox : Chan ServerMessage 1
  offered : Bool
  numConnections : Nat
  connected : Bool
  cancelled : Bool
  handler : Connection.Handler
  writer : Writer
  main : Main

namespace Connection

/-- The handler has taken the slot of the single client. -/
def start : Connection :=
  ⟨.empty, .empty, false, 1, true, false, .offering, .selecting, .accepting⟩

inductive Move where
  | offer
  | packet (ms : List ClientMessage)
  | readError
  | push
  | release
  | closeNow
  | take
  | written (failed : Bool)
  | ctxDone
  | accept (roomInfo : ServerMessage)
  | receive (replies : List ServerMessage)
  | receiveMW (replies : List ServerMessage)
  | connectionLost
  | reply
  | leave

/-- The handler in its loop over the messages of a packet. -/
def Handler.loop : List ClientMessage → Handler
  | [] => .reading
  | m :: ms => .pushing m ms

def move (s : Connection) : Move → Outcome Connection
  | .offer =>
    match s.handler with
    | .offering => .done { s with offered := true, handler := .reading }
    | _ => .blocked
  -- the messages of the packet that could be parsed
  | .packet ms =>
    match s.handler with
    | .reading => if s.connected then .done { s with handler := .loop ms } else .blocked
    | _ => .blocked
  -- the client may go at any time, and a closed connection cannot be read
  | .readError =>
    match s.handler with
    | .reading => .done { s with handler := .exiting }
    | _ => .blocked
  | .push =>
    match s.handler with
    | .pushing m ms => (s.inbox.send (some m)).map fun c =>
        { s with inbox := c, handler := .loop ms }
    | .exiting => (s.inbox.send none).map fun c => { s with inbox := c, handler := .releasing }
    | _ => .blocked
  | .release =>
    match s.handler with
    | .releasing => .done { s with numConnections := s.numConnections - 1, handler := .closing }
    | _ => .blocked
  -- the context is cancelled as the handler returns
  | .closeNow =>
    match s.handler with
    | .closing => .done { s with connected := false, cancelled := true, handler := .returned }
    | _ => .blocked
  | .take =>
    match s.writer with
    | .selecting =>
      match s.outbox.receive with
      | .blocked => .blocked
      | .closed => .done { s with connected := false, writer := .exited }
      | .got m c => .done { s with outbox := c, writer := .writing m }
    | _ => .blocked
  -- `Write` returns, on a closed connection with an error; that is only logged
  | .written failed =>
    match s.writer with
    | .writing _ =>
      if failed || s.connected then .done { s with writer := .selecting } else .blocked
    | _ => .blocked
  | .ctxDone =>
    match s.writer with
    | .selecting => if s.cancelled then .done { s with writer := .exited } else .blocked
    | _ => .blocked
  | .accept roomInfo =>
    match s.main with
    | .accepting =>
      if s.offered then .done { s with offered := false, main := .serving [roomInfo] }
      else .blocked
    | _ => .blocked
  | .receive replies =>
    match s.main with
    | .serving [] =>
      match s.inbox.receive with
      | .blocked => .blocked
      -- a closed channel gives nil as well
      | .closed => .done { s with main := .leaving }
      | .got none c => .done { s with inbox := c, main := .leaving }
      | .got (some _) c => .done { s with inbox := c, main := .serving replies }
    | _ => .blocked
  | .receiveMW replies =>
    match s.main with
    | .serving [] => .done { s with main := .serving replies }
    | _ => .blocked
  | .connectionLost =>
    match s.main with
    | .serving [] => .done { s with main := .leaving }
    | _ => .blocked
  | .reply =>
    match s.main with
    | .serving (m :: replies) => (s.outbox.send m).map fun c =>
        { s with outbox := c, main := .serving replies }
    | _ => .blocked
  | .leave =>
    match s.main with
    | .leaving => s.outbox.close.map fun c => { s with outbox := c, main := .out }
    | _ => .blocked

/-- The moves that are made, each with where it is made and what it changes. -/
inductive Moved (s : Connection) : Move → Connection → Prop
  | offer (hh : s.handler = .offering) :
      Moved s .offer { s with offered := true, handler := .reading }
  | packet {ms} (hh : s.handler = .reading) (ho : s.connected = true) :
      Moved s (.packet ms) { s with handler := .loop ms }
  | readError (hh : s.handler = .reading) : Moved s .readError { s with handler := .exiting }
  | push {m ms c} (hh : s.handler = .pushing m ms) (hc : s.inbox.send (some m) = .done c) :
      Moved s .push { s with inbox := c, handler := .loop ms }
  | pushNil {c} (hh : s.handler = .exiting) (hc : s.inbox.send none = .done c) :
      Moved s .push { s with inbox := c, handler := .releasing }
  | release (hh : s.handler = .releasing) : Moved s .release
      { s with numConnections := s.numConnections - 1, handler := .closing }
  | closeNow (hh : s.handler = .closing) : Moved s .closeNow
      { s with connected := false, cancelled := true, handler := .returned }
  | take {m c} (hw : s.writer = .selecting) (hc : s.outbox.receive = .got m c) :
      Moved s .take { s with outbox := c, writer := .writing m }
  | takeEnd (hw : s.writer = .selecting) (hc : s.outbox.receive = .closed) :
      Moved s .take { s with connected := false, writer := .exited }
  | written {failed m} (hw : s.writer = .writing m) (ho : failed = true ∨ s.connected = true) :
      Moved s (.written failed) { s with writer := .selecting }
  | ctxDone (hw : s.writer = .selecting) (hc : s.cancelled = true) :
      Moved s .ctxDone { s with writer := .exited }
  | accept {m} (hm : s.main = .accepting) (ho : s.offered = true) :
      Moved s (.accept m) { s with offered := false, main := .serving [m] }
  | receive {m replies c} (hm : s.main = .serving []) (hc : s.inbox.receive = .got (some m) c) :
      Moved s (.receive replies) { s with inbox := c, main := .serving replies }
  | receiveNil {replies c} (hm : s.main = .serving []) (hc : s.inbox.receive = .got none c) :
      Moved s (.receive replies) { s with inbox := c, main := .leaving }
  | receiveEnd {replies} (hm : s.main = .serving []) (hc : s.inbox.receive = .closed) :
      Moved s (.receive replies) { s with main := .leaving }
  | receiveMW {replies} (hm : s.main = .serving []) :
      Moved s (.receiveMW replies) { s with main := .serving replies }
  | connectionLost (hm : s.main = .serving []) :
      Moved s .connectionLost { s with main := .leaving }
  | reply {m replies c} (hm : s.main = .serving (m :: replies))
      (hc : s.outbox.send m = .done c) :
      Moved s .reply { s with outbox := c, main := .serving replies }
  | leave {c} (hm : s.main = .leaving) (hc : s.outbox.close = .done c) :
      Moved s .leave { s with outbox := c, main := .out }

section Move

variable {s s' : Connection} {m : Move}

-- The equations of `move` are made here, once, and not anew in each lemma about one move.
attribute [local simp] move

theorem moved_offer (h : move s .offer = .done s') : Moved s .offer s' := by
  simp only [move] at h
  split at h
  · next hh => cases h; exact .offer hh
  · cases h

theorem moved_packet {ms : List ClientMessage} (h : move s (.packet ms) = .done s') :
    Moved s (.packet ms) s' := by
  simp only [move] at h
  split at h
  · next hh =>
    split at h
    · next ho => cases h; exact .packet hh ho
    · cases h
  · cases h

theorem moved_readError (h : move s .readError = .done s') : Moved s .readError s' := by
  simp only [move] at h
  split at h
  · next hh => cases h; exact .readError hh
  · cases h

theorem moved_push (h : move s .push = .done s') : Moved s .push s' := by
  simp only [move] at h
  split at h
  · next hh =>
    obtain ⟨c, hc, rfl⟩ := Outcome.map_eq_done.mp h
    exact .push hh hc
  · next hh =>
    obtain ⟨c, hc, rfl⟩ := Outcome.map_eq_done.mp h
    exact .pushNil hh hc
  · cases h

theorem moved_release (h : move s .release = .done s') : Moved s .release s' := by
  simp only [move] at h
  split at h
  · next hh => cases h; exact .release hh
  · cases h

theorem moved_closeNow (h : move s .closeNow = .done s') : Moved s .closeNow s' := by
  simp only [move] at h
  split at h
  · next hh => cases h; exact .closeNow hh
  · cases h

theorem moved_take (h : move s .take = .done s') : Moved s .take s' := by
  simp only [move] at h
  split at h
  · next hw =>
    split at h
    · cases h
    · next hc => cases h; exact .takeEnd hw hc
    · next hc => cases h; exact .take hw hc
  · cases h

theorem moved_written {failed : Bool} (h : move s (.written failed) = .done s') :
    Moved s (.written failed) s' := by
  simp only [move] at h
  split at h
  · next hw =>
    split at h
    · next ho => cases h; exact .written hw (by simpa using ho)
    · cases h
  · cases h

theorem moved_ctxDone (h : move s .ctxDone = .done s') : Moved s .ctxDone s' := by
  simp only [move] at h
  split at h
  · next hw =>
    split at h
    · next hc => cases h; exact .ctxDone hw hc
    · cases h
  · cases h

theorem moved_accept {m : ServerMessage} (h : move s (.accept m) = .done s') :
    Moved s (.accept m) s' := by
  simp only [move] at h
  split at h
  · next hm =>
    split at h
    · next ho => cases h; exact .accept hm ho
    · cases h
  · cases h

theorem moved_receive {replies : List ServerMessage} (h : move s (.receive replies) = .done s') :
    Moved s (.receive replies) s' := by
  simp only [move] at h
  split at h
  · next hm =>
    split at h
    · cases h
    · next hc => cases h; exact .receiveEnd hm hc
    · next hc => cases h; exact .receiveNil hm hc
    · next hc => cases h; exact .receive hm hc
  · cases h

theorem moved_receiveMW {replies : List ServerMessage} (h : move s (.receiveMW replies) = .done s') :
    Moved s (.receiveMW replies) s' := by
  simp only [move] at h
  split at h
  · next hm => cases h; exact .receiveMW hm
  · cases h

theorem moved_connectionLost (h : move s .connectionLost = .done s') :
    Moved s .connectionLost s' := by
  simp only [move] at h
  split at h
  · next hm => cases h; exact .connectionLost hm
  · cases h

theorem moved_reply (h : move s .reply = .done s') : Moved s .reply s' := by
  simp only [move] at h
  split at h
  · next hm =>
    obtain ⟨c, hc, rfl⟩ := Outcome.map_eq_done.mp h
    exact .reply hm hc
  · cases h

theorem moved_leave (h : move s .leave = .done s') : Moved s .leave s' := by
  simp only [move] at h
  split at h
  · next hm =>
    obtain ⟨c, hc, rfl⟩ := Outcome.map_eq_done.mp h
    exact .leave hm hc
  · cases h

theorem moved (h : move s m = .done s') : Moved s m s' := by
  cases m with
  | offer => exact moved_offer h
  | packet ms => exact moved_packet h
  | readError => exact moved_readError h
  | push => exact moved_push h
  | release => exact moved_release h
  | closeNow => exact moved_closeNow h
  | take => exact moved_take h
  | written failed => exact moved_written h
  | ctxDone => exact moved_ctxDone h
  | accept m => exact moved_accept h
  | receive replies => exact moved_receive h
  | receiveMW replies => exact moved_receiveMW h
  | connectionLost => exact moved_connectionLost h
  | reply => exact moved_reply h
  | leave => exact moved_leave h

end Move

end Connection

end Isthmus.Approto
