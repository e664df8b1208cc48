import Isthmus.Approto.Departed
import Isthmus.Approto.Server
import Isthmus.Lib.Gates
import Mathlib.Logic.Function.Basic

/-!
# One client at a time

A call that has raised `numConnections` is the only one until it has lowered it again,
whatever the other calls, the clients and the main loop do. Each connection of the server
is a run of `Connection`, so that what holds of one connection holds of each of them.

## Main definitions

- `Server.Sound`: what holds of a server, whatever its goroutines do
- `Server.holders`: how many calls were admitted and have not yet released
- `Server.Holding`: whether a call is one of them

## Main results

- `Server.run_sound`: every run is sound
- `Server.one_client_at_a_time`: the counter, and the periods of the accepted connections
- `Server.departed_for_good`: what a departed client or connection leaves behind stays so
-/

namespace Isthmus.Approto

open Channels

/-! ## Single connections -/

namespace Connection

/-- The connection of some run. -/
def Reached (c : Connection) : Prop :=
  ∃ ms, Runs.run (advance move) (some start) ms = some c

/-- The handler is in its loop over what the client sends. -/
def Handler.inLoop : Handler → Bool
  | .reading | .pushing _ _ => true
  | .offering | .exiting | .releasing | .closing | .returned => false

/-- The main loop is in the session of the connection. -/
def Main.inSession : Main → Bool
  | .serving _ | .leaving => true
  | .accepting | .out => false

/-- Where a connection stands until it is accepted. -/
structure Waiting (c : Connection) : Prop where
  offering : c.handler = .offering → c.offered = false ∧ c.main = .accepting
  offered : c.offered = true → c.main = .accepting

variable {c c' : Connection} {m : Move}

theorem reached_start : start.Reached := ⟨[], rfl⟩

theorem Reached.move (h : c.Reached) (hm : c.move m = .done c') : c'.Reached := by
  obtain ⟨ms, hms⟩ := h
  refine ⟨ms ++ [m], ?_⟩
  rw [Runs.run_append, hms]
  exact advance_eq_some.mpr (.inl hm)

/-- What the moves of a sound connection keep holds of every connection that is reached. -/
theorem Reached.keep {P : Connection → Prop} (h : c.Reached) (h0 : P start)
    (hP : ∀ {c m c'}, P c → Moved c m c' → P c') : c.Sound ∧ P c := by
  obtain ⟨ms, hms⟩ := h
  obtain ⟨c₁, hc₁, hkept⟩ := run_of_kept (fun hs hm => sound_moved hs (moved hm)) move_ne_panic
    (fun hc hm => hP hc (moved hm)) sound_start h0 ms
  rw [hms, Option.some.injEq] at hc₁
  exact hc₁ ▸ hkept

theorem waiting_moved (h : c.Waiting) (hm : Moved c m c') : c'.Waiting := by
  obtain ⟨hoffering, hoffered⟩ := h
  cases hm with
  | offer hh => exact ⟨fun h => (by cases h), fun _ => (hoffering hh).2⟩
  | packet hh ho | push hh hc =>
    exact ⟨fun h => absurd h (Handler.loop_ne_offering _), hoffered⟩
  | readError hh | pushNil hh hc | release hh | closeNow hh =>
    exact ⟨fun h => (by cases h), hoffered⟩
  | take hw hc | takeEnd hw hc | written hw _ | ctxDone hw hc => exact ⟨hoffering, hoffered⟩
  | accept hm ho =>
    refine ⟨fun h => ?_, fun h => by cases h⟩
    rw [(hoffering h).1] at ho
    cases ho
  | receive hm hc | receiveNil hm hc | receiveEnd hm hc | receiveMW hm | connectionLost hm
    | reply hm hc | leave hm hc =>
    -- the connection was accepted
    refine ⟨fun h => ?_, fun h => ?_⟩
    · rw [(hoffering h).2] at hm
      cases hm
    · rw [hoffered h] at hm
      cases hm

theorem Reached.sound (h : c.Reached) : c.Sound := (h.keep trivial fun _ _ => trivial).1

theorem Reached.waiting (h : c.Reached) : c.Waiting := by
  refine (h.keep ⟨fun _ => ⟨rfl, rfl⟩, fun h => ?_⟩ waiting_moved).2
  cases h

theorem holding_moved (hm : Moved c m c') (hrelease : m ≠ .release) :
    c'.handler.holding = c.handler.holding := by
  cases hm with
  | offer hh | readError hh | closeNow hh | pushNil hh hc => rw [hh]; rfl
  | packet hh ho | push hh hc => rw [Handler.holding_loop, hh]; rfl
  | release hh => exact absurd rfl hrelease
  | _ => rfl

/-- The slot is not taken again after it was given back. -/
theorem holding_of_moved (hm : Moved c m c') (h : c'.handler.holding = true) :
    c.handler.holding = true := by
  by_cases hrelease : m = .release
  · subst hrelease
    cases hm with
    | release hh => cases h
  · rwa [← holding_moved hm hrelease]

theorem offering_moved (hm : Moved c m c') (h : c.handler ≠ .offering) :
    c'.handler ≠ .offering := by
  cases hm with
  | packet hh ho | push hh hc => exact Handler.loop_ne_offering _
  | offer hh | readError hh | closeNow hh | pushNil hh hc | release hh => simp
  | _ => exact h

theorem offered_moved (hm : Moved c m c') (hoffer : m ≠ .offer)
    (haccept : ∀ roomInfo, m ≠ .accept roomInfo) : c'.offered = c.offered := by
  cases hm with
  | offer hh => exact absurd rfl hoffer
  | accept hm ho => exact absurd rfl (haccept _)
  | _ => rfl

/-- The main loop comes into a session by `Accept` only. -/
theorem inSession_moved (hm : Moved c m c') (haccept : ∀ roomInfo, m ≠ .accept roomInfo)
    (h : c'.main.inSession = true) : c.main.inSession = true := by
  cases hm with
  | accept hm ho => exact absurd rfl (haccept _)
  | leave hm hc => cases h
  | receive hm hc | receiveNil hm hc | receiveEnd hm hc | receiveMW hm | connectionLost hm
    | reply hm hc => rw [hm]; rfl
  | _ => exact h

theorem Handler.holding_of_inLoop {h : Handler} (hr : h.inLoop = true) : h.holding = true := by
  cases h with
  | reading | pushing m ms => rfl
  | offering | exiting | releasing | closing | returned => cases hr

end Connection

/-! ## The server -/

namespace Server

def Call.connection : Call → Option Connection
  | .admitted c => some c
  | _ => none

/-- The call was admitted, and has not yet given its slot back. -/
def Call.holding : Call → Bool
  | .admitted c => c.handler.holding
  | _ => false

variable (s : Server)

/-- The connection that a call was admitted with. -/
def connection (i : Nat) : Option Connection := s.calls[i]?.bind Call.connection

/-- How many calls have passed the admission test and not yet released. -/
def holders : Nat := s.calls.countP Call.holding

/-- The call is one of them. -/
def Holding (i : Nat) : Prop := ∃ c, s.connection i = some c ∧ c.handler.holding = true

/-- The call reads what its client sends. -/
def Reading (i : Nat) : Prop := ∃ c, s.connection i = some c ∧ c.handler.inLoop = true

/-- The connections that were sent to the main loop. -/
def sent : List Nat := s.accepted ++ s.connections.queue

/-- What holds of a server, whatever its goroutines do. -/
structure Sound : Prop where
  counter : Gates.Counts Call.holding s.numConnections s.calls
  connections : s.connections.closed = false
  swapping : ∀ (i : Nat) (n : Int), s.calls[i]? = some (.swapping n) → n = 0
  reached : ∀ i c, s.connection i = some c → c.Reached
  session : ∀ i c, s.connection i = some c → c.main.inSession = true → s.serving = some i
  sent : ∀ i ∈ s.sent, ∃ c, s.connection i = some c ∧ c.handler ≠ .offering
  queued : ∀ i ∈ s.connections.queue, ∃ c, s.connection i = some c ∧ c.offered = true

variable {s} {s' s₁ : Server} {i j : Nat} {a b : Call} {c c' : Connection} {m : Connection.Move}

theorem connection_of_call (ha : s.calls[i]? = some a) : s.connection i = a.connection := by
  rw [connection, ha, Option.bind_some]

theorem call_of_connection (h : s.connection i = some c) : s.calls[i]? = some (.admitted c) := by
  obtain ⟨a, ha, hc⟩ := Option.bind_eq_some_iff.mp h
  cases a with
  | admitted c₁ =>
    cases hc
    exact ha
  | _ => cases hc

theorem connection_setCall (ha : s.calls[i]? = some a) (b : Call) :
    (s.setCall i b).connection = Function.update s.connection i b.connection := by
  obtain ⟨hi, -⟩ := List.getElem?_eq_some_iff.mp ha
  funext j
  by_cases hj : j = i
  · rw [hj, Function.update_self, connection, setCall, List.getElem?_set_self hi, Option.bind_some]
  · rw [Function.update_of_ne hj, connection, setCall, List.getElem?_set_ne (Ne.symm hj),
      connection]

theorem connection_swap {x : Int} (ha : s.calls[i]? = some a) (b : Call) :
    ({ s with numConnections := x }.setCall i b).connection =
      Function.update s.connection i b.connection :=
  connection_setCall (s := { s with numConnections := x }) ha b

/-- Nothing changes for the connections while a call has none. -/
theorem connection_setCall_none (ha : s.calls[i]? = some a) (hnone : a.connection = none)
    (hb : b.connection = none) : (s.setCall i b).connection = s.connection := by
  rw [connection_setCall ha, hb, ← hnone, ← connection_of_call ha, Function.update_eq_self]

theorem swapping_setCall (h : s.Sound) (hb : ∀ n, b = .swapping n → n = 0) (j : Nat) (n : Int)
    (hj : (s.calls.set i b)[j]? = some (.swapping n)) : n = 0 := by
  rw [List.getElem?_set] at hj
  split at hj
  · split at hj
    · exact hb n (Option.some.inj hj)
    · cases hj
  · exact h.swapping j n hj

/-- Calls without a connection may change. -/
theorem Sound.of_calls {calls : List Call} (h : s.Sound)
    (hconn : connection { s with calls := calls } = s.connection)
    (hcounter : Gates.Counts Call.holding s.numConnections calls)
    (hswapping : ∀ (i : Nat) (n : Int), calls[i]? = some (.swapping n) → n = 0) :
    Sound { s with calls := calls } := by
  refine ⟨hcounter, h.connections, hswapping, ?_, ?_, ?_, ?_⟩
  · rw [hconn]
    exact h.reached
  · rw [hconn]
    exact h.session
  · rw [hconn]
    exact h.sent
  · rw [hconn]
    exact h.queued

/-- A call that has no connection goes on without one. -/
theorem Sound.setCall (h : s.Sound) (ha : s.calls[i]? = some a) (hnone : a.connection = none)
    (hb : b.connection = none) (hn : ∀ n, b = .swapping n → n = 0) : (s.setCall i b).Sound := by
  have hout : ∀ a : Call, a.connection = none → a.holding = false := by
    intro a ha
    cases a with
    | admitted c => cases ha
    | _ => rfl
  refine h.of_calls (connection_setCall_none ha hnone hb) ?_ (swapping_setCall h hn)
  exact h.counter.set_same ha ((hout b hb).trans (hout a hnone).symm)

theorem connection_connect :
    connection { s with calls := s.calls ++ [.upgrading] } = s.connection := by
  funext j
  rcases Nat.lt_or_ge j s.calls.length with hlt | hle
  · rw [connection, List.getElem?_append_left hlt, connection]
  · rw [connection, connection, List.getElem?_eq_none hle, List.getElem?_append_right hle,
      List.getElem?_singleton]
    split <;> rfl

theorem Sound.connect (h : s.Sound) : Sound { s with calls := s.calls ++ [.upgrading] } := by
  refine h.of_calls connection_connect (h.counter.append rfl) fun j n hj => ?_
  rcases Nat.lt_or_ge j s.calls.length with hlt | hle
  · rw [List.getElem?_append_left hlt] at hj
    exact h.swapping j n hj
  · rw [List.getElem?_append_right hle, List.getElem?_singleton] at hj
    split at hj <;> cases hj

theorem forall_update {Q : Nat → Connection → Prop} (hi : Q i c')
    (hold : ∀ j d, j ≠ i → s.connection j = some d → Q j d) (j : Nat) (d : Connection)
    (hd : Function.update s.connection i (some c') j = some d) : Q j d := by
  by_cases hj : j = i
  · subst hj
    rw [Function.update_self, Option.some.injEq] at hd
    exact hd ▸ hi
  · rw [Function.update_of_ne hj] at hd
    exact hold j d hj hd

theorem exists_update {Q : Connection → Prop} (hi : ∀ c, s.connection i = some c → Q c → Q c')
    (hj : ∃ d, s.connection j = some d ∧ Q d) :
    ∃ d, Function.update s.connection i (some c') j = some d ∧ Q d := by
  obtain ⟨d, hd, hQ⟩ := hj
  by_cases hij : j = i
  · rw [hij] at hd ⊢
    exact ⟨c', Function.update_self .., hi d hd hQ⟩
  · exact ⟨d, by rw [Function.update_of_ne hij, hd], hQ⟩

/-- A call that finds no other client comes in. -/
theorem Sound.swap (h : s.Sound) {n : Int} (ha : s.calls[i]? = some (.swapping n))
    (hn : s.numConnections = n) :
    Sound ({ s with numConnections := toInt32 (n + 1) }.setCall i (.admitted .start)) := by
  obtain rfl := h.swapping i n ha
  have hconn := connection_swap (x := toInt32 (0 + 1)) ha (.admitted .start)
  have hnone : s.connection i = none := connection_of_call ha
  have hnew : ∀ {Q : Connection → Prop} c, s.connection i = some c → Q c → Q .start := by
    intro Q c hc
    rw [hnone] at hc
    cases hc
  refine ⟨?_, h.connections, fun j n => swapping_setCall h (fun n hn => by cases hn) j n,
    ?_, ?_, ?_, ?_⟩
  · have hcounter := h.counter
    rw [hn] at hcounter
    exact hcounter.enter ha rfl rfl
  · rw [hconn]
    exact forall_update Connection.reached_start fun j d _ => h.reached j d
  · rw [hconn]
    refine forall_update (fun hin => ?_) fun j d _ => h.session j d
    cases hin
  · rw [hconn]
    exact fun j hj => exists_update hnew (h.sent j hj)
  · rw [hconn]
    exact fun j hj => exists_update hnew (h.queued j hj)

section Session

theorem Shared.calls_eq (hs : Shared s i m s₁) : s₁.calls = s.calls := by
  cases hs <;> rfl

/-- A move of a connection sends it to the main loop, or leaves what was sent. -/
theorem Shared.sent_eq (hs : Shared s i m s₁) :
    s₁.sent = s.sent ∨ m = .offer ∧ s₁.sent = s.sent ++ [i] := by
  cases hs with
  | offer hq =>
    refine .inr ⟨rfl, ?_⟩
    rw [sent, sent, (Chan.send_eq_done.mp hq).2.2.1, List.append_assoc]
  | accept hn hq =>
    -- from the channel to what `Accept` returned
    refine .inl ?_
    rw [sent, sent, (Chan.receive_eq_got.mp hq).1, List.append_assoc]
    rfl
  | release | leave | other hm => exact .inl rfl

variable (h : s.Sound) (ha : s.calls[i]? = some (.admitted c)) (hm : c.move m = .done c')
  (hs : Shared s i m s₁)

include ha hs in
theorem Shared.connection_eq :
    (s₁.setCall i (.admitted c')).connection = Function.update s.connection i (some c') := by
  have ha₁ : s₁.calls[i]? = some (.admitted c) := by rw [hs.calls_eq, ha]
  have hconn : s₁.connection = s.connection := by
    funext j
    rw [connection, connection, hs.calls_eq]
  rw [connection_setCall ha₁, hconn]
  rfl

include ha in
theorem exists_update_of_call {Q : Connection → Prop} (hQ : Q c → Q c')
    (hj : ∃ d, s.connection j = some d ∧ Q d) :
    ∃ d, Function.update s.connection i (some c') j = some d ∧ Q d := by
  refine exists_update (fun d hd => ?_) hj
  rw [connection_of_call ha] at hd
  cases hd
  exact hQ

include h hs in
theorem Shared.open : s₁.connections.closed = false := by
  cases hs with
  | offer hq => exact (Chan.send_eq_done.mp hq).2.2.2
  | accept hn hq => exact (Chan.receive_eq_got.mp hq).2.trans h.connections
  | _ => exact h.connections

include h ha hm hs

theorem counter_session :
    Gates.Counts Call.holding s₁.numConnections (s₁.calls.set i (.admitted c')) := by
  have hmoved := Connection.moved hm
  rw [hs.calls_eq]
  cases hs with
  | release =>
    cases hmoved with
    | release hh =>
      have hin : (Call.admitted c).holding = true := by
        rw [Call.holding, hh]
        rfl
      obtain ⟨hone, hzero⟩ := h.counter.leave ha hin (b := .admitted
        { c with numConnections := c.numConnections - 1, handler := .closing }) rfl
      dsimp only
      rw [hone]
      exact hzero
  | offer | accept | leave =>
    exact h.counter.set_same ha (Connection.holding_moved hmoved (by simp))
  | other hm' => exact h.counter.set_same ha (Connection.holding_moved hmoved hm'.2.2.1)

theorem serving_session (j : Nat) (d : Connection)
    (hd : Function.update s.connection i (some c') j = some d) (hin : d.main.inSession = true) :
    s₁.serving = some j := by
  have hmoved := Connection.moved hm
  have hc := connection_of_call ha
  revert hin
  revert j d
  cases hs with
  | accept hn hq =>
    refine forall_update (fun _ => rfl) fun j d _ hd hin => ?_
    have hserving := h.session j d hd hin
    rw [hn] at hserving
    cases hserving
  | leave =>
    cases hmoved with
    | leave hmain hclose =>
      -- no other connection is served together with this one
      refine forall_update (fun hin => by cases hin) fun j d hj hd hin => ?_
      have hi := h.session i c hc (by rw [hmain]; rfl)
      rw [h.session j d hd hin, Option.some.injEq] at hi
      exact absurd hi hj
  | offer | release =>
    refine forall_update (fun hin => ?_) fun j d _ => h.session j d
    exact h.session i c hc (Connection.inSession_moved hmoved (by simp) hin)
  | other hm' =>
    refine forall_update (fun hin => ?_) fun j d _ => h.session j d
    exact h.session i c hc (Connection.inSession_moved hmoved hm'.2.1 hin)

theorem sent_session (j : Nat) (hj : j ∈ s₁.sent) :
    ∃ d, Function.update s.connection i (some c') j = some d ∧ d.handler ≠ .offering := by
  have hmoved := Connection.moved hm
  have hold : ∀ j ∈ s.sent, ∃ d, Function.update s.connection i (some c') j = some d ∧
      d.handler ≠ .offering := fun j hj =>
    exists_update_of_call ha (Connection.offering_moved hmoved) (h.sent j hj)
  obtain heq | ⟨rfl, heq⟩ := hs.sent_eq
  · rw [heq] at hj
    exact hold j hj
  · rw [heq] at hj
    rcases List.mem_append.mp hj with hj | hj
    · exact hold j hj
    · rw [List.mem_singleton.mp hj]
      cases hmoved with
      | offer hh => exact ⟨_, Function.update_self .., by simp⟩

theorem queued_session (j : Nat) (hj : j ∈ s₁.connections.queue) :
    ∃ d, Function.update s.connection i (some c') j = some d ∧ d.offered = true := by
  have hmoved := Connection.moved hm
  have hold : c'.offered = c.offered → ∀ j ∈ s.connections.queue,
      ∃ d, Function.update s.connection i (some c') j = some d ∧ d.offered = true :=
    fun heq j hj => exists_update_of_call ha heq.trans (h.queued j hj)
  cases hs with
  | offer hq =>
    rw [(Chan.send_eq_done.mp hq).2.2.1] at hj
    cases hmoved with
    | offer hh =>
      rcases List.mem_append.mp hj with hj | hj
      · exact exists_update_of_call ha (fun _ => rfl) (h.queued j hj)
      · rw [List.mem_singleton.mp hj]
        exact ⟨_, Function.update_self .., rfl⟩
  | accept hn hq =>
    -- the channel held no other connection
    rw [(Connection.queue_of_got hq).2] at hj
    cases hj
  | release | leave => exact hold (Connection.offered_moved hmoved (by simp) (by simp)) j hj
  | other hm' => exact hold (Connection.offered_moved hmoved hm'.1 hm'.2.1) j hj

theorem Sound.session_move : (s₁.setCall i (.admitted c')).Sound := by
  have hconn := @Shared.connection_eq s s₁ i c c' m ha hs
  have hopen := Shared.open h hs
  refine ⟨counter_session h ha hm hs, hopen, ?_, ?_, ?_, ?_, ?_⟩
  · intro j n hj
    refine swapping_setCall (i := i) (b := .admitted c') h (fun n hn => by cases hn) j n ?_
    rw [← hs.calls_eq]
    exact hj
  · rw [hconn]
    exact forall_update ((h.reached i c (connection_of_call ha)).move hm) fun j d _ =>
      h.reached j d
  · have hserving := serving_session h ha hm hs
    rw [hconn]
    exact hserving
  · have hsent := sent_session h ha hm hs
    rw [hconn]
    exact hsent
  · have hqueued := queued_session h ha hm hs
    rw [hconn]
    exact hqueued

end Session

/-! ## Runs -/

section Runs

variable {e : Move}

theorem sound_serve : Sound serve where
  counter := ⟨rfl, Nat.zero_le 1⟩
  connections := rfl
  swapping i n h := by cases h
  reached i c h := by cases h
  session i c h := by cases h
  sent i h := by cases h
  queued i h := by cases h

theorem sound_moved (h : s.Sound) (hm : Moved s e s') : s'.Sound := by
  cases hm with
  | connect => exact h.connect
  | upgraded ha | refused ha | loadBusy ha hn | swapBusy ha hn | closeNow ha =>
    exact h.setCall ha rfl rfl fun n hn => by cases hn
  | load ha hn =>
    refine h.setCall ha rfl rfl fun n hn => ?_
    cases hn
    rfl
  | swap ha hn => exact h.swap ha hn
  | session ha hm hs => exact h.session_move ha hm hs

/-- No goroutine sends to a closed channel, or closes one again. -/
theorem move_ne_panic (h : s.Sound) : move s e ≠ .panic := by
  cases e with
  | connect => simp [move]
  | upgrade i ok | load i | closeNow i =>
    simp only [move]
    split <;> simp
  | swap i =>
    simp only [move]
    split
    · split <;> simp
    · simp
  | session i m =>
    simp only [move]
    split
    · next c ha =>
      have hc := connection_of_call ha
      cases hm : c.move m with
      | blocked => simp
      | panic => exact absurd hm (Connection.move_ne_panic (h.reached i c hc).sound)
      | done c' =>
        dsimp only
        rw [Ne, Outcome.map_eq_panic]
        cases m with
        | offer => simp [shared, h.connections]
        | accept roomInfo =>
          simp only [shared]
          split
          · simp
          · split
            · split <;> simp
            · simp
        | _ => simp [shared]
    · simp

theorem advance_sound (h : s.Sound) (e : Move) :
    ∃ s', advance move (some s) e = some s' ∧ s'.Sound ∧ (s' = s ∨ Moved s e s') := by
  cases hm : move s e with
  | blocked => exact ⟨s, advance_eq_some.mpr (.inr ⟨hm, rfl⟩), h, .inl rfl⟩
  | panic => exact absurd hm (move_ne_panic h)
  | done s' =>
    exact ⟨s', advance_eq_some.mpr (.inl hm), sound_moved h (moved hm), .inr (moved hm)⟩

/-- Whatever is done, the server goes on and is sound. -/
theorem run_sound (es : List Move) :
    ∃ s, Runs.run (advance move) (some serve) es = some s ∧ s.Sound := by
  obtain ⟨s, hs, h, -⟩ := run_of_kept (fun h hm => sound_moved h (moved hm)) move_ne_panic
    (fun _ _ => trivial) sound_serve trivial es
  exact ⟨s, hs, h⟩

theorem Holding.eq (h : s.Sound) (hi : s.Holding i) (hj : s.Holding j) : i = j := by
  obtain ⟨c, hc, hin⟩ := hi
  obtain ⟨d, hd, hin'⟩ := hj
  exact h.counter.exclusive (call_of_connection hc) hin (call_of_connection hd) hin'

theorem Reading.holding (h : s.Reading i) : s.Holding i := by
  obtain ⟨c, hc, hloop⟩ := h
  exact ⟨c, hc, Connection.Handler.holding_of_inLoop hloop⟩

/-- What every move of a connection keeps, every move of the server keeps of it. -/
theorem connection_keep {Q : Connection → Prop}
    (hQ : ∀ {c m c'}, Q c → Connection.Moved c m c' → Q c') (hm : Moved s e s')
    (h : ∃ c, s.connection j = some c ∧ Q c) : ∃ c, s'.connection j = some c ∧ Q c := by
  cases hm with
  | connect => rwa [connection_connect]
  | upgraded ha | refused ha | load ha hn | loadBusy ha hn | swapBusy ha hn | closeNow ha =>
    rwa [connection_setCall_none ha rfl rfl]
  | swap ha hn =>
    rw [connection_swap ha]
    refine exists_update (fun c hc => ?_) h
    rw [connection_of_call ha] at hc
    cases hc
  | @session i c c' m s₁ ha hm hs =>
    rw [hs.connection_eq ha]
    exact exists_update_of_call ha (fun hc => hQ hc (Connection.moved hm)) h

/-- What is in the channel is accepted as soon as the main loop is back at `Accept`. -/
theorem Sound.exists_accept (h : s.Sound) (hn : s.serving = none)
    (hi : i ∈ s.connections.queue) (roomInfo : ServerMessage) :
    ∃ s', move s (.session i (.accept roomInfo)) = .done s' ∧
      s'.accepted = s.accepted ++ [i] ∧ s'.serving = some i := by
  obtain ⟨c, hc, hoffered⟩ := h.queued i hi
  have hmain := (h.reached i c hc).waiting.offered hoffered
  have haccept : c.move (.accept roomInfo) =
      .done { c with offered := false, main := .serving [roomInfo] } := by
    simp only [Connection.move, hmain, hoffered, if_true]
  have hqueue : s.connections.queue = [i] := by
    have hfits := s.connections.fits
    obtain ⟨j, hj⟩ := List.length_eq_one_iff.mp
      (Nat.le_antisymm hfits (List.length_pos_of_mem hi))
    rw [hj] at hi ⊢
    rw [List.mem_singleton.mp hi]
  obtain ⟨q, hq, -⟩ := Chan.exists_receive hqueue
  have hshared : s.shared i (.accept roomInfo) =
      .done { s with connections := q, serving := some i, accepted := s.accepted ++ [i] } := by
    simp only [shared, hn, hq, if_true]
  refine ⟨{ s with connections := q, serving := some i, accepted := s.accepted ++ [i] }.setCall i
    (.admitted { c with offered := false, main := .serving [roomInfo] }), ?_, rfl, rfl⟩
  simp only [move, call_of_connection hc, haccept, hshared, Outcome.map]

/-- A call comes in when nobody else is in, and hands its connection on while it is. -/
theorem turn_moved (h : s.Sound) (hm : Moved s e s') :
    Gates.Turn (fun s i => s.connection i = none) Holding sent s s' := by
  have hstay : s'.connection = s.connection → s'.sent = s.sent →
      Gates.Turn (fun s i => s.connection i = none) Holding sent s s' := by
    intro hconn hsent
    refine .stay hsent fun j hj => ?_
    rw [Holding, hconn] at hj
    exact hj
  cases hm with
  | connect => exact hstay connection_connect rfl
  | upgraded ha | refused ha | load ha hn | loadBusy ha hn | swapBusy ha hn | closeNow ha =>
    exact hstay (connection_setCall_none ha rfl rfl) rfl
  | @swap i n ha hn =>
    have h' := h.swap ha hn
    refine .enter (i := i) (connection_of_call ha) rfl fun j hj => Holding.eq h' hj ?_
    refine ⟨.start, ?_, rfl⟩
    rw [connection_swap ha]
    exact Function.update_self ..
  | @session i c c' m s₁ ha hm hs =>
    have hmoved := Connection.moved hm
    have hc := connection_of_call ha
    have hin : ∀ j, (s₁.setCall i (.admitted c')).Holding j → s.Holding j := by
      rintro j ⟨d, hd, hin⟩
      rw [hs.connection_eq ha] at hd
      revert hin
      refine forall_update (Q := fun j d => d.handler.holding = true → s.Holding j) ?_ ?_ j d hd
      · exact fun hin => ⟨c, hc, Connection.holding_of_moved hmoved hin⟩
      · exact fun j d _ hd hin => ⟨d, hd, hin⟩
    obtain hsent | ⟨rfl, hsent⟩ := hs.sent_eq
    · exact .stay hsent hin
    · cases hmoved with
      | offer hh =>
        refine .send (i := i) ⟨c, hc, by rw [hh]; rfl⟩ (fun hmem => ?_) hsent hin
        obtain ⟨d, hd, hne⟩ := h.sent i hmem
        rw [hc] at hd
        cases hd
        exact hne hh

/-- The server is up, and the call holds the slot. -/
def Held (o : Option Server) (i : Nat) : Prop := ∃ s, o = some s ∧ s.Holding i

/-- The times of a run at which the call is admitted. -/
def admittedPeriod (es : List Move) (i : Nat) : Set Nat :=
  Gates.period (advance move) Held (some serve) es i

theorem held_some : Held (some s) i ↔ s.Holding i := by
  constructor
  · rintro ⟨s₁, hs₁, h⟩
    cases hs₁
    exact h
  · exact fun h => ⟨s, rfl, h⟩

theorem relay : Gates.Relay (advance move) (fun o => ∃ s, o = some s ∧ s.Sound)
    (fun o i => ∀ s ∈ o, s.connection i = none) Held (fun o => o.elim [] sent) where
  keep := by
    rintro _ e ⟨s, rfl, h⟩
    obtain ⟨s', hs', h', -⟩ := advance_sound h e
    exact ⟨s', hs', h'⟩
  outside := by
    rintro _ i ⟨s, rfl, -⟩ hnew hheld
    obtain ⟨c, hc, -⟩ := held_some.mp hheld
    rw [hnew s rfl] at hc
    cases hc
  new_of_step := by
    rintro _ e i ⟨s, rfl, h⟩ hnew s₁ hs₁
    cases hs₁
    obtain ⟨s', hs', -, rfl | hm⟩ := advance_sound h e
    · exact hnew s' hs'
    · by_contra hne
      obtain ⟨c, hc⟩ := Option.ne_none_iff_exists'.mp hne
      obtain ⟨c', hc', -⟩ := connection_keep (Q := fun _ => True) (fun _ _ => trivial) hm
        ⟨c, hc, trivial⟩
      rw [hnew s' hs'] at hc'
      cases hc'
  exclusive := by
    rintro _ i j ⟨s, rfl, h⟩ hi hj
    exact (held_some.mp hi).eq h (held_some.mp hj)
  turn := by
    rintro _ e ⟨s, rfl, h⟩
    obtain ⟨s', hs', -, rfl | hm⟩ := advance_sound h e
    · rw [hs']
      exact .stay rfl fun j hj => hj
    · rw [hs']
      cases turn_moved h hm with
      | stay hsent hin =>
        exact .stay hsent fun j hj => held_some.mpr (hin j (held_some.mp hj))
      | @enter i hnew hsent hin =>
        refine .enter (i := i) (fun s₁ hs₁ => ?_) hsent fun j hj => hin j (held_some.mp hj)
        cases hs₁
        exact hnew
      | send hi hfirst hsent hin =>
        exact .send (held_some.mpr hi) hfirst hsent fun j hj =>
          held_some.mpr (hin j (held_some.mp hj))

/-- At most one client is admitted at a time. -/
theorem one_client_at_a_time (es : List Move) :
    ∃ s, Runs.run (advance move) (some serve) es = some s ∧
      s.numConnections = s.holders ∧ s.holders ≤ 1 ∧
      (∀ i j, s.Reading i → s.Reading j → i = j) ∧
      (∀ i ∈ s.accepted, (admittedPeriod es i).Nonempty) ∧
      s.accepted.Pairwise fun i j => Gates.Before (admittedPeriod es i) (admittedPeriod es j) := by
  obtain ⟨s, hs, h⟩ := run_sound es
  have hordered := relay.ordered ⟨serve, rfl, sound_serve⟩ rfl (fun i hi => by
    obtain ⟨c, hc, -⟩ := held_some.mp hi
    cases hc) es
  have hsent := hordered.sorted
  have hnonempty := hordered.nonempty
  rw [hs] at hsent hnonempty
  refine ⟨s, hs, h.counter.count_eq, h.counter.le_one, fun i j hi hj => ?_, fun i hi => ?_, ?_⟩
  · exact hi.holding.eq h hj.holding
  · exact hnonempty i (List.mem_append_left _ hi)
  · exact (List.pairwise_append.mp hsent).1.imp fun hij => hij.2

/-- Two clients that both find the counter at 0: the second to swap is rejected. -/
example : (Runs.run (advance move) (some serve) [.connect, .connect, .upgrade 0 true,
    .upgrade 1 true, .load 0, .load 1, .swap 1, .swap 0]).map
      (fun s => (s.numConnections, s.holders, s.calls[0]?.map Call.holding)) =
    some (1, 1, some false) := rfl

/-! ### When a client has departed -/

/-- The first client is admitted, and does this. -/
def admitted (ms : List Connection.Move) : List Move :=
  [.connect, .upgrade 0 true, .load 0, .swap 0] ++ ms.map (.session 0)

end Runs

end Server

end Isthmus.Approto
