import Isthmus.Approto.Departed
import Isthmus.Lib.Pipes

/-!
# What a connection of an AP client transports

The messages of the client pass the handler and `inbox` on their way to the main loop,
which takes them one at a time. The replies of the main loop pass `outbox` and the
goroutine that writes.

## Main results

- `Connection.commands_in_order`: the main loop takes what was read
- `Connection.replies_in_order`: what the main loop replies is handed to `Write`
-/

namespace Isthmus.Approto.Connection

open Channels Pipes

/-! ## From the client -/

/-- The messages of the packets that were read. -/
def reads (_ : Connection) : Move → List ClientMessage
  | .packet ms => ms
  | _ => []

/-- What the main loop takes from `inbox`. -/
def takes (s : Connection) : Move → List ClientMessage
  | .receive _ => s.inbox.queue.head?.join.toList
  | _ => []

/-- The main loop takes the nil that ends `inbox`. -/
def ends (s : Connection) : Move → List Unit
  | .receive _ =>
    match s.inbox.queue with
    | none :: _ => [()]
    | _ => []
  | _ => []

def Handler.inHand : Handler → List ClientMessage
  | .pushing m ms => m :: ms
  | _ => []

def incoming (s : Connection) : List ClientMessage :=
  s.inbox.queue.filterMap id ++ s.handler.inHand

/-! ## To the client -/

/-- What the main loop makes up its mind to reply. -/
def plans (s : Connection) : Move → List ServerMessage
  | .accept roomInfo => [roomInfo]
  | .receive replies => if s.inbox.queue.head?.join.isSome then replies else []
  | .receiveMW replies => replies
  | _ => []

def Main.inHand : Main → List ServerMessage
  | .serving replies => replies
  | _ => []

/-- What the main loop puts in `outbox`. -/
def replies (s : Connection) : Move → List ServerMessage
  | .reply => s.main.inHand.head?.toList
  | _ => []

def Writer.inHand : Writer → List ServerMessage
  | .writing m => [m]
  | _ => []

/-- What is handed to `wsjson.Write`. -/
def handed (s : Connection) : Move → List ServerMessage
  | .written _ => s.writer.inHand
  | _ => []

/-- What is written: a message is dropped if its `Write` fails. -/
def writes (s : Connection) : Move → List ServerMessage
  | .written false => s.writer.inHand
  | _ => []

def outgoing (s : Connection) : List ServerMessage :=
  s.writer.inHand ++ s.outbox.queue ++ s.main.inHand

/-! ## One move -/

section Moves

variable {s s' : Connection} {m : Move}

theorem sound_move (h : Sound s) (hm : move s m = .done s') : Sound s' := sound_moved h (moved hm)

@[simp] theorem Handler.inHand_reading : Handler.reading.inHand = [] := rfl

@[simp] theorem Handler.inHand_pushing (m : ClientMessage) (ms : List ClientMessage) :
    (Handler.pushing m ms).inHand = m :: ms := rfl

@[simp] theorem Handler.inHand_loop (ms : List ClientMessage) : (Handler.loop ms).inHand = ms := by
  cases ms <;> rfl

theorem Handler.inHand_of_pending {h : Handler} (hp : h.pending = 0) : h.inHand = [] := by
  cases h with
  | pushing m ms => exact absurd hp (Nat.succ_ne_zero _)
  | _ => rfl

theorem pipe_reads : Pipe move Sound reads takes incoming where
  sound := sound_move
  conserve {s s' m} _ hm := by
    cases moved hm with
    | packet | push => simp_all [reads, takes, incoming]
    | _ => simp_all [reads, takes, incoming, Handler.inHand]

theorem pipe_plans : Pipe move Sound plans replies fun s => s.main.inHand where
  sound := sound_move
  conserve {s s' m} _ hm := by
    cases moved hm with
    | _ => simp_all [plans, replies, Main.inHand]

theorem pipe_replies : Pipe move Sound replies handed fun s => s.writer.inHand ++ s.outbox.queue where
  sound := sound_move
  conserve {s s' m} _ hm := by
    cases moved hm with
    | _ => simp_all [replies, handed, Writer.inHand, Main.inHand]

theorem writes_sublist (s : Connection) (m : Move) : (s.writes m).Sublist (s.handed m) := by
  cases m with
  | written failed =>
    cases failed with
    | false => exact .refl _
    | true => exact List.nil_sublist _
  | _ => exact .refl _

theorem writes_of_ne {m : Move} (hm : m ≠ .written true) (s : Connection) :
    s.writes m = s.handed m := by
  cases m with
  | written failed =>
    cases failed with
    | false => rfl
    | true => exact absurd rfl hm
  | _ => rfl

/-- A closed connection stays closed, and every `Write` to it fails. -/
theorem writes_of_gone (hs : s.connected = false) (hm : move s m = .done s') :
    s'.connected = false ∧ s.writes m = [] := by
  cases moved hm with
  | @written failed _ _ ho =>
    cases failed with
    | false => simp [hs] at ho
    | true => exact ⟨hs, rfl⟩
  | takeEnd | closeNow => exact ⟨rfl, rfl⟩
  | _ => exact ⟨hs, rfl⟩

/-- The nil has been taken, and nothing comes after it. -/
structure Ended (s : Connection) (l : List Unit) : Prop where
  sound : Sound s
  ended : l ≠ [] → s.handler.pending = 0 ∧ s.inbox.queue = []

theorem ended_move {l : List Unit} (h : Ended s l) (hm : move s m = .done s') :
    Ended s' (l ++ ends s m) := by
  obtain ⟨hs, hl⟩ := h
  refine ⟨sound_move hs hm, ?_⟩
  have hmarked := hs.marked
  cases moved hm with
  | receiveNil _ hc =>
    obtain ⟨hq, hq'⟩ := queue_of_got hc
    simp_all
  | _ => simp_all [ends, Handler.pending]

/-- The writer has left for the context, or has come to the end of `outbox`. -/
def Served (s : Connection) : Prop :=
  s.writer = .exited → s.cancelled = true ∨ s.outbox.queue = [] ∧ s.main = .out

theorem served_move (h : Sound s) (hserved : Served s) (hm : move s m = .done s') :
    Served s' := by
  have hout := h.outbox
  cases moved hm with
  | _ => simp_all [Served]

end Moves

/-! ## Runs -/

theorem flow_reads (es : List Move) :
    flow move reads start es = flow move takes start es ++ (last move start es).incoming :=
  pipe_reads.flow_eq sound_start es

theorem flow_plans (es : List Move) :
    flow move plans start es = flow move handed start es ++ (last move start es).outgoing :=
  (pipe_plans.comp pipe_replies).flow_eq sound_start es

/-- The main loop takes the messages that were read, in order. When it finds the nil it has
taken all of them. -/
theorem commands_in_order (es : List Move) :
    let s := last move start es
    flow move reads start es = flow move takes start es ++ s.incoming ∧
      (flow move ends start es ≠ [] → s.incoming = []) := by
  intro s
  refine ⟨flow_reads es, fun hend => ?_⟩
  have h : Ended s ([] ++ flow move ends start es) :=
    flow_keep ended_move ⟨sound_start, fun h => absurd rfl h⟩ es
  obtain ⟨hpending, hq⟩ := h.ended hend
  rw [incoming, hq, Handler.inHand_of_pending hpending]
  rfl

theorem last_served (es : List Move) :
    Sound (last move start es) ∧ Served (last move start es) := by
  have hkeep : ∀ {s s' m}, Sound s ∧ Served s → move s m = .done s' → Sound s' ∧ Served s' :=
    fun h hm => ⟨sound_move h.1 hm, served_move h.1 h.2 hm⟩
  exact last_keep hkeep ⟨sound_start, nofun⟩ es

/-- What the main loop replies is handed to `Write`, in order, and written, but for the
messages whose `Write` fails. Nothing is written once the connection is closed. Unless the
context is cancelled, the writer does not leave before all of it is handed over, and the main
loop is gone. -/
theorem replies_in_order (es : List Move) :
    let s := last move start es
    flow move plans start es = flow move handed start es ++ s.outgoing ∧
      (flow move writes start es).Sublist (flow move handed start es) ∧
      (.written true ∉ es → flow move writes start es = flow move handed start es) ∧
      (s.connected = false → ∀ ms, flow move writes s ms = []) ∧
      (s.writer = .exited → s.cancelled = false → s.outgoing = [] ∧ s.main = .out) := by
  intro s
  refine ⟨flow_plans es, flow_sublist writes_sublist es, fun hnone => ?_,
    fun hgone ms => flow_eq_nil writes_of_gone hgone ms, fun hw hc => ?_⟩
  · exact flow_congr fun m hm => writes_of_ne fun h => hnone (h ▸ hm)
  obtain hcancelled | ⟨hq, hout⟩ := (last_served es).2 hw
  · have hc' : s.cancelled = true := hcancelled
    rw [hc] at hc'
    cases hc'
  · refine ⟨?_, hout⟩
    have hq' : s.outbox.queue = [] := hq
    have hmain : s.main = .out := hout
    rw [outgoing, hw, hq', hmain]
    rfl

end Isthmus.Approto.Connection
