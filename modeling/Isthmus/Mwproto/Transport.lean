import Isthmus.Lib.Pipes
import Isthmus.Mwproto.Client

/-!
# What the MW client transports

Messages from the server pass `recvMessages`, `realInbox`, `ping` and `inbox` on their
way to the owner; `ping` keeps the answers to its own messages. Messages to the server
pass `outbox` and `sendMessages`, those of `ping` in between those of the owner.

## Main results

- `Client.received_in_order`: the owner receives what was read, but for the pings
- `Client.written_in_order`: what was sent is handed to `Write`, and then that the client leaves
- `Client.gives_up_iff`: when `inbox` is closed
-/

namespace Isthmus.Mwproto

open Channels Pipes

def Message.isPing : Message → Bool
  | .ping _ => true
  | _ => false

namespace Client

/-- The move is one of the owner. -/
def Move.isOwners : Move → Bool
  | .send _ | .sent | .receive | .close => true
  | _ => false

/-! ## From the server -/

def reads (_ : Client) : Move → List Message
  | .read m => [m]
  | _ => []

/-- What `ping` takes from `realInbox`. -/
def pulls (s : Client) : Move → List Message
  | .pull => s.realInbox.queue.head?.toList
  | _ => []

/-- What the owner takes from `inbox`. -/
def receives (s : Client) : Move → List Message
  | .receive => s.inbox.queue.head?.toList
  | _ => []

def RecvMessages.inHand : RecvMessages → List Message
  | .pushing m => [m]
  | _ => []

def Ping.inHand : Ping → List Message
  | .forwarding m => [m]
  | _ => []

/-- What was read and does not stay with `ping`, on its way to the owner. -/
def incoming (s : Client) : List Message :=
  s.inbox.queue ++ s.ping.inHand ++
    (s.realInbox.queue ++ s.recvMessages.inHand).filter fun m => !m.isPing

/-! ## To the server -/

def sends (s : Client) : Move → List Message
  | .sent =>
    match s.owner with
    | .sending m => [m]
    | _ => []
  | _ => []

/-- What is put in `outbox`, by the owner or by `ping`. -/
def queues (s : Client) : Move → List Message
  | .ping => [.ping ⟨0⟩]
  | m => s.sends m

def SendMessages.inHand : SendMessages → List Message
  | .writing m => [m]
  | .disconnecting => [.disconnect]
  | _ => []

/-- What is handed to `Write`. -/
def handed (s : Client) : Move → List Message
  | .written _ => s.sendMessages.inHand
  | _ => []

/-- What is written: a message is dropped if its `Write` fails. -/
def writes (s : Client) : Move → List Message
  | .written false => s.sendMessages.inHand
  | _ => []

/-- The last message is added where `outbox` ends. -/
def leaves (s : Client) : Move → List Message
  | .take => if s.outbox.queue = [] then [.disconnect] else []
  | _ => []

def SendMessages.left : SendMessages → Bool
  | .disconnecting | .stopped => true
  | _ => false

def outgoing (s : Client) : List Message := s.sendMessages.inHand ++ s.outbox.queue

/-! ## The answers to pings -/

/-- What the counter of unanswered pings depends on. -/
inductive Beat where
  | tick
  | answer
  | ended
  deriving DecidableEq

def beats (s : Client) : Move → List Beat
  | .tick => [.tick]
  | .pull =>
    match s.realInbox.queue with
    | [] => [.ended]
    | m :: _ => if m.isPing then [.answer] else []
  | _ => []

/-- The ticks since the last answer. -/
def missed (bs : List Beat) : Nat :=
  bs.foldl (fun n b =>
    match b with
    | .tick => n + 1
    | .answer => 0
    | .ended => n) 0

theorem missed_append (bs : List Beat) (b : Beat) :
    missed (bs ++ [b]) =
      match b with
      | .tick => missed bs + 1
      | .answer => 0
      | .ended => missed bs := by
  rw [missed, List.foldl_append]
  rfl

/-! ## One move -/

section Moves

variable {s s' : Client} {m : Move}

/-- A message that `ping` takes stays with it or is passed on; it stops at the end. -/
inductive Pulled (s : Client) : Client → Prop
  | taken {m c} (hm : m.isPing = true) (hc : s.realInbox.receive = .got m c) :
      Pulled s { s with realInbox := c, unansweredPings := 0 }
  | passed {m c} (hm : m.isPing = false) (hc : s.realInbox.receive = .got m c) :
      Pulled s { s with realInbox := c, ping := .forwarding m }
  | ended {c} (hr : s.realInbox.receive = .closed) (hc : s.inbox.close = .done c) :
      Pulled s { s with inbox := c, ping := .stopped }

theorem pulled (h : move s .pull = .done s') : s.ping = .selecting ∧ Pulled s s' := by
  simp only [move] at h
  split at h
  · next hp =>
    refine ⟨hp, ?_⟩
    split at h
    · cases h
    · next hr =>
      obtain ⟨c, hc, rfl⟩ := Outcome.map_eq_done.mp h
      exact .ended hr hc
    · next hc =>
      cases h
      exact .taken rfl hc
    · next m c hnot hc =>
      cases h
      refine .passed ?_ hc
      cases m with
      | ping m => exact absurd rfl (hnot m)
      | _ => rfl
  · cases h

theorem sound_move (h : Sound s) (hm : move s m = .done s') : Sound s' := sound_moved h (moved hm)

/-- From the connection to `ping`. -/
theorem pipe_reads : Pipe move Sound reads pulls
    fun s => s.realInbox.queue ++ s.recvMessages.inHand where
  sound := sound_move
  conserve {s s' m} _ hm := by
    cases moved hm with
    | _ => simp_all [reads, pulls, RecvMessages.inHand]

/-- From `ping` to the owner. -/
theorem pipe_pulls : Pipe move Sound (fun s m => (pulls s m).filter fun m => !m.isPing) receives
    fun s => s.inbox.queue ++ s.ping.inHand where
  sound := sound_move
  conserve {s s' m} _ hm := by
    by_cases hpull : m = .pull
    · subst hpull
      obtain ⟨hp, h⟩ := pulled hm
      cases h with
      | _ => simp_all [pulls, receives, Ping.inHand]
    · cases moved hm with
      | _ => simp_all [pulls, receives, Ping.inHand]

/-- From the senders to the connection. -/
theorem pipe_queues : Pipe move Sound (fun s m => queues s m ++ leaves s m) handed outgoing where
  sound := sound_move
  conserve {s s' m} _ hm := by
    cases moved hm with
    | _ => simp_all [queues, sends, leaves, handed, outgoing, SendMessages.inHand]

/-- `ping` has seen the end of `realInbox`, or has given up. -/
def Finished (s : Client) : Prop :=
  s.ping = .stopped → s.unansweredPings = reconnectThreshold ∨
    s.realInbox.queue = [] ∧ s.recvMessages = .stopped

theorem finished_move (h : Sound s) (hf : Finished s) (hm : move s m = .done s') :
    Finished s' := by
  obtain ⟨hr, hi, ho⟩ := h
  cases moved hm with
  | _ => simp_all [Finished]

/-- `outbox` is closed and empty when the last message is written. -/
def Emptied (s : Client) : Prop :=
  s.sendMessages.left = true → s.outbox.closed = true ∧ s.outbox.queue = []

theorem emptied_move (h : Sound s) (he : Emptied s) (hm : move s m = .done s') : Emptied s' := by
  obtain ⟨hr, hi, ho⟩ := h
  cases moved hm with
  | _ => simp_all [Emptied, SendMessages.left]

/-- The goroutines of the MW client leave its owner where it is. -/
theorem owner_move {c c' : Client} {m : Move} (hm : m.isOwners = false)
    (hc : c.move m = .done c') : c'.owner = c.owner := by
  cases moved hc with
  | _ => first | rfl | cases hm

theorem reads_of_isOwners (c : Client) (m : Move) (hm : m.isOwners = true) :
    c.reads m = [] := by
  cases m with
  | read m => cases hm
  | _ => rfl

theorem handed_of_isOwners (c : Client) (m : Move) (hm : m.isOwners = true) :
    c.handed m = [] := by
  cases m with
  | written failed => cases hm
  | _ => rfl

theorem writes_sublist (s : Client) (m : Move) : (s.writes m).Sublist (s.handed m) := by
  cases m with
  | written failed =>
    cases failed with
    | false => exact .refl _
    | true => exact List.nil_sublist _
  | _ => exact .refl _

theorem writes_of_ne {m : Move} (hm : m ≠ .written true) (s : Client) :
    s.writes m = s.handed m := by
  cases m with
  | written failed =>
    cases failed with
    | false => rfl
    | true => exact absurd rfl hm
  | _ => rfl

theorem receives_of_isOwners {c : Client} {m : Move} (hm : m.isOwners = false) :
    c.receives m = [] := by
  cases m with
  | receive => cases hm
  | _ => rfl

theorem queues_of_isOwners {c : Client} {m : Move} (hm : m.isOwners = false) :
    (c.queues m).filter (fun m => !m.isPing) = [] := by
  cases m with
  | sent => cases hm
  | _ => rfl

end Moves

/-! ## Runs -/

theorem last_finished (es : List Move) :
    Sound (last move dial es) ∧ Finished (last move dial es) := by
  have hkeep : ∀ {s s' m}, Sound s ∧ Finished s → move s m = .done s' → Sound s' ∧ Finished s' :=
    fun h hm => ⟨sound_move h.1 hm, finished_move h.1 h.2 hm⟩
  exact last_keep hkeep ⟨sound_dial, fun h => by cases h⟩ es

theorem flow_reads (es : List Move) :
    ((flow move reads dial es).filter fun m => !m.isPing) =
      flow move receives dial es ++ (last move dial es).incoming := by
  have hpipe := (pipe_reads.filter fun m => !m.isPing).comp pipe_pulls
  rw [flow_filter]
  exact hpipe.flow_eq sound_dial es

/-- The owner receives what was read, in order, but for the pings. Where `inbox` is
closed, and the server has answered, nothing more is on the way to it. -/
theorem received_in_order (es : List Move) :
    let s := last move dial es
    (flow move reads dial es).filter (fun m => !m.isPing) =
        flow move receives dial es ++ s.incoming ∧
      (s.inbox.closed = true → s.unansweredPings ≠ reconnectThreshold →
        s.incoming = s.inbox.queue) := by
  intro s
  obtain ⟨hs, hf⟩ : Sound s ∧ Finished s := last_finished es
  refine ⟨flow_reads es, fun hclosed hanswered => ?_⟩
  have hstopped := hs.inbox.mp hclosed
  obtain hgone | ⟨hreal, hrecv⟩ := hf hstopped
  · exact absurd hgone hanswered
  · simp [incoming, hstopped, hreal, hrecv, Ping.inHand, RecvMessages.inHand]

/-- The client has written that it leaves, or is not there yet. -/
structure Leaving (s : Client) (l : List Message) : Prop where
  sound : Sound s
  emptied : Emptied s
  left : l = if s.sendMessages.left = true then [.disconnect] else []

theorem leaving_move {s s' : Client} {m : Move} {l : List Message} (h : Leaving s l)
    (hm : move s m = .done s') : Leaving s' (l ++ leaves s m) := by
  obtain ⟨hs, he, rfl⟩ := h
  refine ⟨sound_move hs hm, emptied_move hs he hm, ?_⟩
  cases moved hm with
  | _ => simp_all [leaves, SendMessages.left]

theorem flow_leaves (es : List Move) :
    flow move leaves dial es =
      if (last move dial es).sendMessages.left = true then [.disconnect] else [] := by
  have h : Leaving (last move dial es) ([] ++ flow move leaves dial es) :=
    flow_keep leaving_move ⟨sound_dial, nofun, rfl⟩ es
  exact h.left

theorem flow_queues_leaves (es : List Move) :
    flow move (fun s m => queues s m ++ leaves s m) dial es =
      flow move queues dial es ++ flow move leaves dial es := by
  have hlate : ∀ {s s' m}, s.outbox.closed = true → move s m = .done s' →
      s'.outbox.closed = true ∧ queues s m = [] := by
    intro s s' m hs hm
    cases moved hm with
    | _ => simp_all [queues, sends]
  refine flow_append hlate (fun {s s' m} hm => ?_) es
  cases moved hm with
  | _ => simp_all [leaves]

theorem flow_queues (es : List Move) :
    flow move queues dial es ++
        (if (last move dial es).sendMessages.left = true then [.disconnect] else []) =
      flow move handed dial es ++ (last move dial es).outgoing := by
  rw [← flow_leaves, ← flow_queues_leaves]
  exact pipe_queues.flow_eq sound_dial es

/-- The moves of `sendMessages` with which it writes messages, and what comes of each `Write`. -/
def drain (fails : List Bool) : List Move :=
  fails.flatMap fun failed => [Move.take, Move.written failed]

theorem last_drain {s : Client} (hr : s.sendMessages = .ranging) (hc : s.outbox.closed = true)
    {fails : List Bool} (hlen : fails.length = s.outbox.queue.length + 1) :
    (last move s (drain fails)).sendMessages = .stopped := by
  induction fails generalizing s with
  | nil => cases hlen
  | cons failed fails ih =>
    rw [drain, List.flatMap_cons]
    cases hq : s.outbox.queue with
    | nil =>
      have hend : s.outbox.receive = .closed := Chan.receive_eq_closed.mpr ⟨hq, hc⟩
      rw [hq] at hlen
      obtain rfl := List.length_eq_zero_iff.mp (Nat.succ.inj hlen)
      simp [last, move, hr, hend]
    | cons m q =>
      obtain ⟨c, hgot, hrest⟩ := Chan.exists_receive hq
      have hclosed := (Chan.receive_eq_got.mp hgot).2.trans hc
      have hlen' : fails.length = c.queue.length + 1 := by
        rw [hq] at hlen
        rw [hrest]
        exact Nat.succ.inj hlen
      have hnext := ih (s := { s with outbox := c, sendMessages := .ranging }) rfl hclosed hlen'
      simpa [last, move, hr, hgot, drain] using hnext

/-- What was sent is handed to `Write` in order, and after the last of it that the client
leaves. It is written, but for the messages whose `Write` fails. Once `outbox` is closed and
a `Write` has returned, `sendMessages` goes through all that is left, whether its `Write`s
fail or not, and needs no move of the others for it. -/
theorem written_in_order (es : List Move) :
    let s := last move dial es
    flow move queues dial es ++ (if s.sendMessages.left = true then [.disconnect] else []) =
        flow move handed dial es ++ s.outgoing ∧
      (flow move sends dial es).Sublist (flow move queues dial es) ∧
      (flow move writes dial es).Sublist (flow move handed dial es) ∧
      (.written true ∉ es → flow move writes dial es = flow move handed dial es) ∧
      (s.outbox.closed = true → s.sendMessages = .ranging → ∀ fails : List Bool,
        fails.length = s.outbox.queue.length + 1 →
          (last move s (drain fails)).sendMessages = .stopped) := by
  intro s
  have hsends : (flow move sends dial es).Sublist (flow move queues dial es) := by
    refine flow_sublist (fun s m => ?_) es
    cases m with
    | ping => exact List.nil_sublist _
    | _ => exact .refl _
  refine ⟨flow_queues es, hsends, flow_sublist writes_sublist es, fun hnone => ?_,
    fun hc hr fails hlen => last_drain hr hc hlen⟩
  exact flow_congr fun m hm => writes_of_ne fun h => hnone (h ▸ hm)

/-- What the counter says of the beats so far. -/
structure Counting (s : Client) (bs : List Beat) : Prop where
  sound : Sound s
  count : s.unansweredPings = missed bs
  stopped : s.ping = .stopped ↔ .ended ∈ bs ∨ missed bs = reconnectThreshold

theorem counting_move {s s' : Client} {m : Move} {bs : List Beat} (h : Counting s bs)
    (hm : move s m = .done s') : Counting s' (bs ++ beats s m) := by
  obtain ⟨hs, hcount, hstopped⟩ := h
  have hs' := sound_move hs hm
  by_cases hpull : m = .pull
  · subst hpull
    obtain ⟨hp, hpulled⟩ := pulled hm
    have hgoing : .ended ∉ bs ∧ missed bs ≠ reconnectThreshold := by
      rw [hp] at hstopped
      simpa using hstopped
    cases hpulled with
    | taken hping hc =>
      refine ⟨hs', ?_, ?_⟩ <;> simp_all [beats, missed_append, reconnectThreshold]
    | passed hping hc =>
      refine ⟨hs', ?_, ?_⟩ <;> simp_all [beats]
    | ended hr hc =>
      refine ⟨hs', ?_, ?_⟩ <;> simp_all [beats, missed_append]
  · cases moved hm with
    | pull | pullPing | pullEnd => exact absurd rfl hpull
    | tick hp hn | lastTick hp hn hc =>
      have hgoing : .ended ∉ bs ∧ missed bs ≠ reconnectThreshold := by
        rw [hp] at hstopped
        simpa using hstopped
      refine ⟨hs', ?_, ?_⟩ <;> simp_all [beats, missed_append]
    | _ => exact ⟨hs', by simpa [beats] using hcount, by simp_all [beats]⟩

/-- `inbox` is closed as the server's end is reached, or at the fifth tick without an
answer in between. -/
theorem gives_up_iff (es : List Move) :
    (last move dial es).inbox.closed = true ↔
      .ended ∈ flow move beats dial es ∨ missed (flow move beats dial es) = reconnectThreshold := by
  have h : Counting (last move dial es) ([] ++ flow move beats dial es) :=
    flow_keep counting_move ⟨sound_dial, rfl, by simp [dial, missed, reconnectThreshold]⟩ es
  rw [h.sound.inbox]
  exact h.stopped

end Client

end Isthmus.Mwproto
