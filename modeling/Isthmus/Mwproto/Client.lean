import Isthmus.Lib.Channels
import Isthmus.Mwproto.Schema

/-!
# The goroutines of the MW client

`Dial` starts three goroutines: `recvMessages` reads messages into `realInbox`,
`ping` passes them on to `inbox`, and `sendMessages` writes what is put in
`outbox`. The owner of the client sends to `outbox` and closes it in the end, but
`ping` sends to it as well.

## Main definitions

- `Client`: the channels, and where each goroutine stands
- `move`: the moves of the goroutines, of the owner and of the network
- `Sound`: every channel is closed by the goroutine that ends with it
- `Quiet`: `ping` is not about to send to a closed channel
-/

namespace Isthmus.Mwproto

open Channels

namespace Client

def chanBufferSize : Nat := 100

def reconnectThreshold : Nat := 5

/-- Where `recvMessages` stands: in `Read`, or sending to `realInbox`. -/
inductive RecvMessages where
  | reading
  | pushing (m : Message)
  | stopped

/-- Where `sendMessages` stands: receiving from `outbox`, in `Write`, or past
the end of `outbox`, before the connection is closed. -/
inductive SendMessages where
  | ranging
  | writing (m : Message)
  | disconnecting
  | stopped

/-- Where `ping` stands: at its `select`, or sending to `outbox` or to `inbox`. -/
inductive Ping where
  | selecting
  | pinging
  | forwarding (m : Message)
  | stopped

/-- Where the owner stands: between its calls, in `Send`, or past `Close`. -/
inductive Owner where
  | running
  | sending (m : Message)
  | closed

end Client

open Client in
/-- The channels of a client, and where its goroutines and its owner stand. -/
structure Client where
  realInbox : Chan Message chanBufferSize
  inbox : Chan Message chanBufferSize
  outbox : Chan Message chanBufferSize
  recvMessages : RecvMessages
  sendMessages : SendMessages
  ping : Ping
  unansweredPings : Nat
  owner : Owner
  connected : Bool

namespace Client

/-- The client after `Dial`. -/
def dial : Client :=
  ⟨.empty, .empty, .empty, .reading, .ranging, .selecting, 0, .running, true⟩

inductive Move where
  | read (m : Message)
  | readError
  | readEnd
  | push
  | take
  | written (failed : Bool)
  | tick
  | ping
  | pull
  | forward
  | send (m : Message)
  | sent
  | receive
  | close

def move (s : Client) : Move → Outcome Client
  -- `Read` returns a message, an error of a frame, or the end of the connection
  | .read m =>
    match s.recvMessages with
    | .reading => if s.connected then .done { s with recvMessages := .pushing m } else .blocked
    | _ => .blocked
  | .readError =>
    match s.recvMessages with
    | .reading => if s.connected then .done s else .blocked
    | _ => .blocked
  | .readEnd =>
    match s.recvMessages with
    | .reading => s.realInbox.close.map fun c =>
        { s with realInbox := c, recvMessages := .stopped }
    | _ => .blocked
  | .push =>
    match s.recvMessages with
    | .pushing m => (s.realInbox.send m).map fun c =>
        { s with realInbox := c, recvMessages := .reading }
    | _ => .blocked
  | .take =>
    match s.sendMessages with
    | .ranging =>
      match s.outbox.receive with
      | .blocked => .blocked
      | .closed => .done { s with sendMessages := .disconnecting }
      | .got m c => .done { s with outbox := c, sendMessages := .writing m }
    | _ => .blocked
  -- `Write` returns; an error is only logged, and after the last message the connection is closed
  | .written _ =>
    match s.sendMessages with
    | .writing _ => .done { s with sendMessages := .ranging }
    | .disconnecting => .done { s with sendMessages := .stopped, connected := false }
    | _ => .blocked
  | .tick =>
    match s.ping with
    | .selecting =>
      if s.unansweredPings + 1 = reconnectThreshold then
        s.inbox.close.map fun c =>
          { s with inbox := c, ping := .stopped, unansweredPings := s.unansweredPings + 1 }
      else .done { s with ping := .pinging, unansweredPings := s.unansweredPings + 1 }
    | _ => .blocked
  | .ping =>
    match s.ping with
    | .pinging => (s.outbox.send (.ping ⟨0⟩)).map fun c =>
        { s with outbox := c, ping := .selecting }
    | _ => .blocked
  | .pull =>
    match s.ping with
    | .selecting =>
      match s.realInbox.receive with
      | .blocked => .blocked
      | .closed => s.inbox.close.map fun c => { s with inbox := c, ping := .stopped }
      | .got (.ping _) c => .done { s with realInbox := c, unansweredPings := 0 }
      | .got m c => .done { s with realInbox := c, ping := .forwarding m }
    | _ => .blocked
  | .forward =>
    match s.ping with
    | .forwarding m => (s.inbox.send m).map fun c => { s with inbox := c, ping := .selecting }
    | _ => .blocked
  | .send m =>
    match s.owner with
    | .running => .done { s with owner := .sending m }
    | _ => .blocked
  | .sent =>
    match s.owner with
    | .sending m => (s.outbox.send m).map fun c => { s with outbox := c, owner := .running }
    | _ => .blocked
  | .receive =>
    match s.owner with
    | .running =>
      match s.inbox.receive with
      | .blocked => .blocked
      | .closed => .done s
      | .got _ c => .done { s with inbox := c }
    | _ => .blocked
  | .close =>
    match s.owner with
    | .running => s.outbox.close.map fun c => { s with outbox := c, owner := .closed }
    | _ => .blocked

/-- Every channel is closed by the goroutine that ends with it. -/
structure Sound (s : Client) : Prop where
  realInbox : s.realInbox.closed = true ↔ s.recvMessages = .stopped
  inbox : s.inbox.closed = true ↔ s.ping = .stopped
  outbox : s.outbox.closed = true ↔ s.owner = .closed

/-- `ping` is not about to send to a closed channel. -/
def Quiet (s : Client) : Prop := s.ping = .pinging → s.outbox.closed = false

/-- The move does not take `ping` and the end of `outbox` to meet: the owner does
not close while `ping` is sending, and after that no tick has it send. -/
def Allowed (s : Client) : Move → Prop
  | .close => s.owner = .running → s.ping ≠ .pinging
  | .tick => s.ping = .selecting → s.outbox.closed = true →
      s.unansweredPings + 1 = reconnectThreshold
  | _ => True

/-- The moves that are made, each with where it is made and what it changes. -/
inductive Moved (s : Client) : Move → Client → Prop
  | read {m} (hr : s.recvMessages = .reading) (hc : s.connected = true) :
      Moved s (.read m) { s with recvMessages := .pushing m }
  | readError : Moved s .readError s
  | readEnd {c} (hr : s.recvMessages = .reading) (hc : s.realInbox.close = .done c) :
      Moved s .readEnd { s with realInbox := c, recvMessages := .stopped }
  | push {m c} (hr : s.recvMessages = .pushing m) (hc : s.realInbox.send m = .done c) :
      Moved s .push { s with realInbox := c, recvMessages := .reading }
  | take {m c} (hs : s.sendMessages = .ranging) (hc : s.outbox.receive = .got m c) :
      Moved s .take { s with outbox := c, sendMessages := .writing m }
  | takeEnd (hs : s.sendMessages = .ranging) (hc : s.outbox.receive = .closed) :
      Moved s .take { s with sendMessages := .disconnecting }
  | written {failed m} (hs : s.sendMessages = .writing m) :
      Moved s (.written failed) { s with sendMessages := .ranging }
  | disconnected {failed} (hs : s.sendMessages = .disconnecting) :
      Moved s (.written failed) { s with sendMessages := .stopped, connected := false }
  | tick (hp : s.ping = .selecting) (hn : s.unansweredPings + 1 ≠ reconnectThreshold) :
      Moved s .tick { s with ping := .pinging, unansweredPings := s.unansweredPings + 1 }
  | lastTick {c} (hp : s.ping = .selecting) (hn : s.unansweredPings + 1 = reconnectThreshold)
      (hc : s.inbox.close = .done c) : Moved s .tick
        { s with inbox := c, ping := .stopped, unansweredPings := s.unansweredPings + 1 }
  | ping {c} (hp : s.ping = .pinging) (hc : s.outbox.send (.ping ⟨0⟩) = .done c) :
      Moved s .ping { s with outbox := c, ping := .selecting }
  | pullPing {m c} (hp : s.ping = .selecting) (hc : s.realInbox.receive = .got (.ping m) c) :
      Moved s .pull { s with realInbox := c, unansweredPings := 0 }
  | pull {m c} (hp : s.ping = .selecting) (hc : s.realInbox.receive = .got m c) :
      Moved s .pull { s with realInbox := c, ping := .forwarding m }
  | pullEnd {c} (hp : s.ping = .selecting) (hr : s.realInbox.receive = .closed)
      (hc : s.inbox.close = .done c) : Moved s .pull { s with inbox := c, ping := .stopped }
  | forward {m c} (hp : s.ping = .forwarding m) (hc : s.inbox.send m = .done c) :
      Moved s .forward { s with inbox := c, ping := .selecting }
  | send {m} (ho : s.owner = .running) : Moved s (.send m) { s with owner := .sending m }
  | sent {m c} (ho : s.owner = .sending m) (hc : s.outbox.send m = .done c) :
      Moved s .sent { s with outbox := c, owner := .running }
  | receive {m c} (ho : s.owner = .running) (hc : s.inbox.receive = .got m c) :
      Moved s .receive { s with inbox := c }
  | receiveEnd (ho : s.owner = .running) (hc : s.inbox.receive = .closed) : Moved s .receive s
  | close {c} (ho : s.owner = .running) (hc : s.outbox.close = .done c) :
      Moved s .close { s with outbox := c, owner := .closed }

section Move

variable {s s' : Client} {m : Move}

-- The equations of `move` are made here, once, and not anew in each lemma about one move.
attribute [local simp] move

theorem moved_read {m : Message} (h : move s (.read m) = .done s') : Moved s (.read m) s' := by
  simp only [move] at h
  split at h
  · next hr =>
    split at h
    · next hc => cases h; exact .read hr hc
    · cases h
  · cases h

theorem moved_readError (h : move s .readError = .done s') : Moved s .readError s' := by
  simp only [move] at h
  split at h
  · split at h
    · cases h; exact .readError
    · cases h
  · cases h

theorem moved_readEnd (h : move s .readEnd = .done s') : Moved s .readEnd s' := by
  simp only [move] at h
  split at h
  · next hr =>
    obtain ⟨c, hc, rfl⟩ := Outcome.map_eq_done.mp h
    exact .readEnd hr hc
  · cases h

theorem moved_push (h : move s .push = .done s') : Moved s .push s' := by
  simp only [move] at h
  split at h
  · next hr =>
    obtain ⟨c, hc, rfl⟩ := Outcome.map_eq_done.mp h
    exact .push hr hc
  · cases h

theorem moved_take (h : move s .take = .done s') : Moved s .take s' := by
  simp only [move] at h
  split at h
  · next hs =>
    split at h
    · cases h
    · next hc => cases h; exact .takeEnd hs hc
    · next hc => cases h; exact .take hs hc
  · cases h

theorem moved_written {failed : Bool} (h : move s (.written failed) = .done s') :
    Moved s (.written failed) s' := by
  simp only [move] at h
  split at h
  · next hs => cases h; exact .written hs
  · next hs => cases h; exact .disconnected hs
  · cases h

theorem moved_tick (h : move s .tick = .done s') : Moved s .tick s' := by
  simp only [move] at h
  split at h
  · next hp =>
    split at h
    · next hn =>
      obtain ⟨c, hc, rfl⟩ := Outcome.map_eq_done.mp h
      exact .lastTick hp hn hc
    · next hn => cases h; exact .tick hp hn
  · cases h

theorem moved_ping (h : move s .ping = .done s') : Moved s .ping s' := by
  simp only [move] at h
  split at h
  · next hp =>
    obtain ⟨c, hc, rfl⟩ := Outcome.map_eq_done.mp h
    exact .ping hp hc
  · cases h

theorem moved_pull (h : move s .pull = .done s') : Moved s .pull s' := by
  simp only [move] at h
  split at h
  · next hp =>
    split at h
    · cases h
    · next hr =>
      obtain ⟨c, hc, rfl⟩ := Outcome.map_eq_done.mp h
      exact .pullEnd hp hr hc
    · next hc => cases h; exact .pullPing hp hc
    · next hc => cases h; exact .pull hp hc
  · cases h

theorem moved_forward (h : move s .forward = .done s') : Moved s .forward s' := by
  simp only [move] at h
  split at h
  · next hp =>
    obtain ⟨c, hc, rfl⟩ := Outcome.map_eq_done.mp h
    exact .forward hp hc
  · cases h

theorem moved_send {m : Message} (h : move s (.send m) = .done s') : Moved s (.send m) s' := by
  simp only [move] at h
  split at h
  · next ho => cases h; exact .send ho
  · cases h

theorem moved_sent (h : move s .sent = .done s') : Moved s .sent s' := by
  simp only [move] at h
  split at h
  · next ho =>
    obtain ⟨c, hc, rfl⟩ := Outcome.map_eq_done.mp h
    exact .sent ho hc
  · cases h

theorem moved_receive (h : move s .receive = .done s') : Moved s .receive s' := by
  simp only [move] at h
  split at h
  · next ho =>
    split at h
    · cases h
    · next hc => cases h; exact .receiveEnd ho hc
    · next hc => cases h; exact .receive ho hc
  · cases h

theorem moved_close (h : move s .close = .done s') : Moved s .close s' := by
  simp only [move] at h
  split at h
  · next ho =>
    obtain ⟨c, hc, rfl⟩ := Outcome.map_eq_done.mp h
    exact .close ho hc
  · cases h

theorem moved (h : move s m = .done s') : Moved s m s' := by
  cases m with
  | read m => exact moved_read h
  | readError => exact moved_readError h
  | readEnd => exact moved_readEnd h
  | push => exact moved_push h
  | take => exact moved_take h
  | written failed => exact moved_written h
  | tick => exact moved_tick h
  | ping => exact moved_ping h
  | pull => exact moved_pull h
  | forward => exact moved_forward h
  | send m => exact moved_send h
  | sent => exact moved_sent h
  | receive => exact moved_receive h
  | close => exact moved_close h

theorem sound_dial : Sound dial := by
  constructor <;> simp [dial, Chan.empty]

theorem sound_moved (h : Sound s) (hm : Moved s m s') : Sound s' := by
  obtain ⟨hr, hi, ho⟩ := h
  cases hm <;> constructor <;> simp_all

/-- Only `ping` can panic: the other goroutines close what they alone send to. -/
theorem move_eq_panic (h : Sound s) :
    move s m = .panic ↔ m = .ping ∧ s.ping = .pinging ∧ s.outbox.closed = true := by
  obtain ⟨hr, hi, ho⟩ := h
  cases m with
  | read m | readError | tick | take | receive =>
    simp only [move]
    split
    · split <;> simp_all
    · simp
  | readEnd | push | ping | forward | send m | sent | close | written failed =>
    simp only [move]
    split <;> simp_all
  | pull =>
    simp only [move]
    split
    · split <;> simp_all
    · simp

theorem quiet_dial : Quiet dial := by
  intro hp
  cases hp

/-- A move keeps `ping` away from a closed channel exactly if it is allowed. -/
theorem quiet_moved (h : Sound s) (hq : Quiet s) (hm : Moved s m s') :
    Quiet s' ↔ Allowed s m := by
  obtain ⟨hr, hi, ho⟩ := h
  cases hm with
  | tick hp hn => simp [Quiet, Allowed, hp, hn]
  | _ => simp_all [Quiet, Allowed]

/-- A move that waits is allowed. -/
theorem allowed_of_blocked (hm : move s m = .blocked) : Allowed s m := by
  cases m with
  | close =>
    intro hrun
    simp [move, hrun] at hm
  | tick =>
    intro hp hc
    by_contra hn
    simp [move, hp, hn] at hm
  | _ => trivial

end Move

/-! ## Runs -/

theorem condition : Condition move Sound Quiet Allowed where
  sound hs hm := sound_moved hs (moved hm)
  safe hs hq hm := quiet_moved hs hq (moved hm)
  blocked := allowed_of_blocked
  panic := by
    intro s m hs hq hm
    obtain ⟨-, hp, hc⟩ := (move_eq_panic hs).mp hm
    rw [hq hp] at hc
    cases hc

/-- `ping` is quiet exactly if it can go on. -/
theorem quiet_iff {s : Client} (hs : Sound s) :
    Quiet s ↔ ∀ t, t <+: [Move.ping] → Runs.run (advance move) (some s) t ≠ none := by
  have hping : advance move (some s) .ping ≠ none ↔ Quiet s := by
    rw [Ne, advance_eq_none, move_eq_panic hs, Quiet]
    simp
  constructor
  · intro hq t ht
    obtain rfl | ⟨u, rfl, hu⟩ := List.prefix_cons_iff.mp ht
    · exact Option.some_ne_none s
    · obtain rfl := List.prefix_nil.mp hu
      exact hping.mpr hq
  · intro hall
    exact hping.mp (hall [.ping] List.prefix_rfl)

/-- No goroutine sends to a closed channel or closes one again, in a run or when
`ping` goes on after any part of it, exactly if every move of the run is allowed. -/
theorem no_panic_iff (es : List Move) :
    (∀ k t, t <+: [Move.ping] →
        Runs.run (advance move) (some dial) (es.take k ++ t) ≠ none) ↔
      Runs.Meets (advance move) (fun o m => ∀ s, o = some s → Allowed s m) (some dial) es := by
  refine condition.forall_run_iff (G := fun o => o ≠ none) ?_ ?_ sound_dial quiet_dial es
  · intro s hs
    exact quiet_iff hs
  · intro hnone
    exact hnone rfl

/-- A tick, a `Close` before the ping is sent, and the ping. -/
theorem close_during_ping_panics :
    ¬ ∀ es : List Move, Runs.run (advance move) (some dial) es ≠ none :=
  fun h => h [.tick, .close, .ping] rfl

end Client

end Isthmus.Mwproto
