import Isthmus.Approto.Connection

/-!
# When one side of a connection departs

The goroutines of a connection wait for each other, and each may find that the
other has left. `Hung` is the main loop waiting for a writer that has left, and
`Lost` the handler waiting for a main loop that has left, with the slot of the
single client still taken. Both can be reached, and exactly the moves that lead
there are told apart by what is still to be sent and what the channel holds.

## Main definitions

- `Sound`: what holds in every state of a connection
- `Hung`, `Drains`, `KeepsWriter`: the main loop and the writer
- `Lost`, `Releases`, `KeepsReader`: the handler and the main loop
-/

namespace Isthmus.Approto.Connection

open Channels

/-- The handler has not yet given its slot back. -/
def Handler.holding : Handler → Bool
  | .offering | .reading | .pushing _ _ | .exiting | .releasing => true
  | .closing | .returned => false

/-- The values that the handler sends to `inbox` before it ends, the nil included. -/
def Handler.pending : Handler → Nat
  | .offering | .reading | .exiting => 1
  | .pushing _ ms => ms.length + 2
  | .releasing | .closing | .returned => 0

/-- The replies that the main loop has still to send. -/
def Main.owed : Main → Nat
  | .serving replies => replies.length
  | _ => 0

theorem Main.exists_of_owed {main : Main} (h : 0 < main.owed) :
    ∃ m replies, main = .serving (m :: replies) := by
  cases main with
  | serving replies =>
    cases replies with
    | nil => exact absurd h (Nat.lt_irrefl 0)
    | cons m replies => exact ⟨m, replies, rfl⟩
  | accepting | leaving | out => exact absurd h (Nat.lt_irrefl 0)

/-- What holds of a connection, whatever its goroutines do. -/
structure Sound (s : Connection) : Prop where
  inbox : s.inbox.closed = false
  outbox : s.outbox.closed = true ↔ s.main = .out
  slot : s.numConnections = if s.handler.holding then 1 else 0
  unread : s.handler = .offering → s.inbox.queue = []
  unsent : s.main = .accepting → s.outbox.queue = []
  marked : none ∈ s.inbox.queue → s.handler.pending = 0

section Sound

variable {s s' : Connection} {m : Move}

theorem Handler.holding_loop (ms : List ClientMessage) : (Handler.loop ms).holding = true := by
  cases ms <;> rfl

theorem Handler.pending_loop (ms : List ClientMessage) :
    (Handler.loop ms).pending = ms.length + 1 := by
  cases ms <;> rfl

theorem Handler.loop_ne_offering (ms : List ClientMessage) : Handler.loop ms ≠ .offering := by
  cases ms <;> simp [Handler.loop]

theorem sound_start : Sound start := by
  constructor <;> simp [start, Chan.empty, Handler.holding]

/-- Where a channel holds one value, nothing is left after it was received. -/
theorem queue_of_got {α : Type} {c c' : Chan α 1} {a : α} (h : c.receive = .got a c') :
    c.queue = [a] ∧ c'.queue = [] := by
  have hq := (Chan.receive_eq_got.mp h).1
  have hfits := c.fits
  rw [hq, List.length_cons] at hfits
  have hnil : c'.queue = [] := List.length_eq_zero_iff.mp (by omega)
  rw [hq, hnil]
  exact ⟨rfl, rfl⟩

theorem queue_of_send {α : Type} {c c' : Chan α 1} {a : α} (h : c.send a = .done c') :
    c.queue = [] ∧ c'.queue = [a] ∧ c'.closed = false := by
  obtain ⟨-, hlt, hq, hopen⟩ := Chan.send_eq_done.mp h
  have hnil : c.queue = [] := List.length_eq_zero_iff.mp (by omega)
  rw [hq, hnil]
  exact ⟨rfl, rfl, hopen⟩

theorem sound_moved (h : Sound s) (hm : Moved s m s') : Sound s' := by
  obtain ⟨hin, hout, hslot, hunread, hunsent, hmarked⟩ := h
  cases hm with
  | push hh hc =>
    obtain ⟨-, hq, hopen⟩ := queue_of_send hc
    refine ⟨hopen, hout, ?_, ?_, hunsent, ?_⟩
    · show s.numConnections = if (Handler.loop _).holding = true then 1 else 0
      rw [hslot, hh, Handler.holding_loop]
      rfl
    · intro ho
      exact absurd ho (Handler.loop_ne_offering _)
    · simp [hq]
  | pushNil hh hc =>
    obtain ⟨-, hq, hopen⟩ := queue_of_send hc
    refine ⟨hopen, hout, ?_, ?_, hunsent, ?_⟩ <;> simp_all [Handler.holding, Handler.pending]
  | receive hm hc | receiveNil hm hc =>
    obtain ⟨-, hq⟩ := queue_of_got hc
    have hclosed := (Chan.receive_eq_got.mp hc).2
    constructor <;> simp_all
  | packet hh ho =>
    refine ⟨hin, hout, ?_, ?_, hunsent, ?_⟩
    · show s.numConnections = if (Handler.loop _).holding = true then 1 else 0
      rw [hslot, hh, Handler.holding_loop]
      rfl
    · intro ho
      exact absurd ho (Handler.loop_ne_offering _)
    · intro hmem
      have hp := hmarked hmem
      rw [hh] at hp
      cases hp
  | offer | readError | release | closeNow | take | takeEnd | written | ctxDone | accept
    | receiveEnd | receiveMW | connectionLost | reply | leave =>
    constructor <;> simp_all [Handler.holding, Handler.pending]

/-- Both channels are open to whoever sends. -/
theorem move_ne_panic (h : Sound s) : move s m ≠ .panic := by
  obtain ⟨hin, hout, -, -, -, -⟩ := h
  cases m with
  | push | reply | leave =>
    simp only [move]
    split <;> simp_all
  | packet ms | written failed | ctxDone | accept roomInfo =>
    simp only [move]
    split
    · split <;> simp
    · simp
  | take | receive replies =>
    simp only [move]
    split
    · split <;> simp
    · simp
  | offer | readError | release | closeNow | receiveMW replies | connectionLost =>
    simp only [move]
    split <;> simp

end Sound

/-! ## A main loop without a writer -/

/-- The main loop waits to send to a full `outbox`, and the writer has left. -/
def Hung (s : Connection) : Prop :=
  s.writer = .exited ∧ (∃ m replies, s.main = .serving (m :: replies)) ∧
    s.outbox.queue.length = 1

/-- Without a writer, what is still to be sent fits in `outbox`. -/
def Drains (s : Connection) : Prop :=
  s.writer = .exited → s.main.owed + s.outbox.queue.length ≤ 1

/-- The writer does not leave for the cancelled context, and the main loop does
not take a message after it has left, while there are more replies to send than
`outbox` has room for. -/
def KeepsWriter (s : Connection) : Move → Prop
  | .ctxDone => s.writer = .selecting → s.cancelled = true →
      s.main.owed + s.outbox.queue.length ≤ 1
  | .receive replies => s.writer = .exited → s.main = .serving [] →
      (∃ m rest, s.inbox.queue = some m :: rest) →
      replies.length + s.outbox.queue.length ≤ 1
  | .receiveMW replies => s.writer = .exited → s.main = .serving [] →
      replies.length + s.outbox.queue.length ≤ 1
  | _ => True

section Hung

variable {s s' : Connection} {m : Move}

theorem drains_moved (h : Sound s) (hd : Drains s) (hm : Moved s m s') :
    Drains s' ↔ KeepsWriter s m := by
  cases hm with
  | take hw hc | written hw _ => simp [Drains, KeepsWriter]
  | takeEnd hw hc =>
    obtain ⟨hq, hclosed⟩ := Chan.receive_eq_closed.mp hc
    have hmain := h.outbox.mp hclosed
    simp [Drains, KeepsWriter, hmain, hq, Main.owed]
  | ctxDone hw hc => simp [Drains, KeepsWriter, hw, hc]
  | accept hm ho =>
    have hq := h.unsent hm
    simp [Drains, KeepsWriter, hq, Main.owed]
  | receive hm hc =>
    have hq := (queue_of_got hc).1
    simp [Drains, KeepsWriter, hm, hq, Main.owed]
  | receiveNil hm hc =>
    have hq := (queue_of_got hc).1
    have hfits := s.outbox.fits
    simp [Drains, KeepsWriter, hq, Main.owed, hfits]
  | receiveEnd hm hc =>
    have hclosed := (Chan.receive_eq_closed.mp hc).2
    rw [h.inbox] at hclosed
    cases hclosed
  | receiveMW hm => simp [Drains, KeepsWriter, hm, Main.owed]
  | connectionLost hm =>
    have hfits := s.outbox.fits
    simp [Drains, KeepsWriter, Main.owed, hfits]
  | reply hm hc =>
    -- a reply moves from what is still to be sent into the channel
    obtain ⟨hq, hq', -⟩ := queue_of_send hc
    simp only [Drains, hm, hq, hq', Main.owed, List.length_cons, List.length_nil, KeepsWriter,
      iff_true] at hd ⊢
    intro hw
    have hlen := hd hw
    omega
  | leave hm hc =>
    have hfits := s.outbox.fits
    obtain ⟨-, hq, -⟩ := Chan.close_eq_done.mp hc
    simp [Drains, KeepsWriter, Main.owed, hq, hfits]
  | _ => exact iff_of_true hd trivial

theorem keepsWriter_of_blocked (hm : move s m = .blocked) : KeepsWriter s m := by
  cases m with
  | ctxDone =>
    intro hw hc
    simp [move, hw, hc] at hm
  | receiveMW replies =>
    intro hw hserving
    simp [move, hserving] at hm
  | receive replies =>
    rintro hw hserving ⟨m, rest, hq⟩
    obtain ⟨c, hc, -⟩ := Chan.exists_receive hq
    simp [move, hserving, hc] at hm
  | _ => trivial

theorem keepsWriter_condition : Condition move Sound Drains KeepsWriter where
  sound hs hm := sound_moved hs (moved hm)
  safe hs hd hm := drains_moved hs hd (moved hm)
  blocked := keepsWriter_of_blocked
  panic hs _ := move_ne_panic hs

theorem Drains.not_hung (hd : Drains s) : ¬ Hung s := by
  rintro ⟨hw, ⟨m, replies, hm⟩, hlen⟩
  have hroom := hd hw
  rw [hm, Main.owed, List.length_cons, hlen] at hroom
  omega

/-- A connection is up and its main loop is not hung. -/
def Answers (o : Option Connection) : Prop := ∃ s, o = some s ∧ ¬ Hung s

/-- What is still to be sent drains exactly if the main loop can go on. -/
theorem drains_iff (hs : Sound s) :
    Drains s ↔ ∀ t, t <+: [Move.reply] → Answers (Runs.run (advance move) (some s) t) := by
  constructor
  · intro hd t ht
    have hallowed : ∀ m ∈ t, ∀ s, KeepsWriter s m := by
      intro m hm s
      obtain rfl := List.mem_singleton.mp (ht.subset hm)
      trivial
    obtain ⟨s', hs', -, hd'⟩ := keepsWriter_condition.run_of_allowed hallowed hs hd
    exact ⟨s', hs', hd'.not_hung⟩
  · intro hall hw
    by_contra hlen
    have hfits := s.outbox.fits
    obtain ⟨m, replies, hm⟩ := s.main.exists_of_owed (by omega)
    rw [hm, Main.owed, List.length_cons] at hlen
    by_cases hfull : s.outbox.queue.length = 1
    · obtain ⟨s₁, hs₁, hnot⟩ := hall [] List.nil_prefix
      cases hs₁
      exact hnot ⟨hw, ⟨m, replies, hm⟩, hfull⟩
    · -- `outbox` is empty, and there is another reply after the one that fills it
      have hopen : s.outbox.closed = false := by
        rw [← Bool.not_eq_true, hs.outbox, hm]
        simp
      obtain ⟨c, hc, hq⟩ := Chan.exists_send hopen (by omega) m
      have hstep : Runs.run (advance move) (some s) [.reply] =
          some { s with outbox := c, main := .serving replies } :=
        advance_eq_some.mpr (.inl (by simp [move, hm, hc, Outcome.map]))
      obtain ⟨s₁, hs₁, hnot⟩ := hall [.reply] List.prefix_rfl
      rw [hstep, Option.some.injEq] at hs₁
      subst hs₁
      cases replies with
      | nil =>
        rw [List.length_nil] at hlen
        omega
      | cons m' replies =>
        refine hnot ⟨hw, ⟨m', replies, rfl⟩, ?_⟩
        rw [hq, List.length_append, List.length_singleton]
        omega

/-- The main loop never waits for a writer that has left, in a run or when it
goes on after any part of it, exactly if every move of the run keeps the writer
while it is needed. -/
theorem never_hung_iff (es : List Move) :
    (∀ k t, t <+: [Move.reply] →
        Answers (Runs.run (advance move) (some start) (es.take k ++ t))) ↔
      Runs.Meets (advance move) (fun o m => ∀ s, o = some s → KeepsWriter s m) (some start)
        es := by
  refine keepsWriter_condition.forall_run_iff (G := Answers) ?_ ?_ sound_start ?_ es
  · intro s hs
    exact drains_iff hs
  · rintro ⟨s, hs, -⟩
    cases hs
  · intro hw
    cases hw

/-- A client that sends `Connect` and goes before the first of its two replies. -/
def connectAndGo : List Move :=
  [.offer, .accept (.roomInfo [] []), .reply, .take, .written false,
    .packet [.connect ⟨some 3, false⟩], .push,
    .receive [.connected ⟨1, [], [], [], [], none⟩, .receivedItems 0 []],
    .readError, .push, .release, .closeNow, .ctxDone, .reply]

/-- The writer leaves for the cancelled context, and no one takes the replies. -/
theorem connectAndGo_hangs :
    ¬ ∀ es : List Move, Answers (Runs.run (advance move) (some start) es) := by
  intro h
  obtain ⟨s, hs, hnot⟩ := h connectAndGo
  have hstate : Runs.run (advance move) (some start) connectAndGo =
      some ⟨⟨[none], false, by decide⟩, ⟨[.connected ⟨1, [], [], [], [], none⟩], false, by decide⟩,
        false, 0, false, true, .returned, .exited, .serving [.receivedItems 0 []]⟩ := rfl
  rw [hstate, Option.some.injEq] at hs
  subst hs
  exact hnot ⟨rfl, ⟨_, _, rfl⟩, rfl⟩

end Hung

/-! ## A handler without a main loop -/

/-- The main loop is out of the session, and the handler waits to send to a full
`inbox`, with the slot of the single client still taken. -/
def Lost (s : Connection) : Prop :=
  s.main = .out ∧ (s.handler = .exiting ∨ ∃ m ms, s.handler = .pushing m ms) ∧
    s.inbox.queue.length = 1 ∧ s.numConnections = 1

/-- The main loop leaves the session, or has left it. -/
def Main.gone : Main → Bool
  | .leaving | .out => true
  | .accepting | .serving _ => false

/-- Without a main loop, what the handler has still to send fits in `inbox`. -/
def Releases (s : Connection) : Prop :=
  s.main.gone = true → s.inbox.queue.length + s.handler.pending ≤ 1

/-- The main loop does not leave for a lost MW connection while the handler has
more to send than `inbox` has room for, and after it has left no packet with a
message is read. -/
def KeepsReader (s : Connection) : Move → Prop
  | .connectionLost => s.main = .serving [] → s.inbox.queue.length + s.handler.pending ≤ 1
  | .packet ms => s.handler = .reading → s.connected = true → s.main.gone = true → ms = []
  | _ => True

section Lost

variable {s s' : Connection} {m : Move}

theorem releases_moved (h : Sound s) (hr : Releases s) (hm : Moved s m s') :
    Releases s' ↔ KeepsReader s m := by
  cases hm with
  | offer hh | readError hh =>
    refine iff_of_true ?_ trivial
    simpa [Releases, hh, Handler.pending] using hr
  | release hh | closeNow hh =>
    refine iff_of_true ?_ trivial
    simpa [Releases, hh, Handler.pending] using hr
  | packet hh ho =>
    simp only [Releases, hh, Handler.pending] at hr
    simp only [Releases, KeepsReader, hh, ho, Handler.pending_loop, true_implies]
    refine forall_congr' fun hgone => ?_
    have hroom := hr hgone
    rw [← List.length_eq_zero_iff]
    omega
  | push hh hc =>
    obtain ⟨hq, hq', -⟩ := queue_of_send hc
    refine iff_of_true ?_ trivial
    simp only [Releases, hh, hq, Handler.pending, List.length_nil] at hr
    simp only [Releases, hq', Handler.pending_loop, List.length_singleton]
    intro hgone
    have hroom := hr hgone
    omega
  | pushNil hh hc =>
    obtain ⟨hq, hq', -⟩ := queue_of_send hc
    refine iff_of_true ?_ trivial
    simp [Releases, hq', Handler.pending]
  | accept hm ho => exact iff_of_true (by simp [Releases, Main.gone]) trivial
  | receive hm hc => exact iff_of_true (by simp [Releases, Main.gone]) trivial
  | receiveMW hm | reply hm hc => exact iff_of_true (by simp [Releases, Main.gone]) trivial
  | receiveNil hm hc =>
    -- the nil is the last that the handler sends
    obtain ⟨hq, hq'⟩ := queue_of_got hc
    have hpending := h.marked (hq ▸ List.mem_singleton_self none)
    refine iff_of_true ?_ trivial
    simp [Releases, hq', hpending]
  | receiveEnd hm hc =>
    have hclosed := (Chan.receive_eq_closed.mp hc).2
    rw [h.inbox] at hclosed
    cases hclosed
  | connectionLost hm => simp [Releases, KeepsReader, hm, Main.gone]
  | leave hm hc =>
    refine iff_of_true ?_ trivial
    simpa [Releases, hm, Main.gone] using hr
  | take | takeEnd | written | ctxDone => exact iff_of_true hr trivial

theorem keepsReader_of_blocked (hm : move s m = .blocked) : KeepsReader s m := by
  cases m with
  | connectionLost =>
    intro hserving
    simp [move, hserving] at hm
  | packet ms =>
    intro hh ho
    simp [move, hh, ho] at hm
  | _ => trivial

theorem keepsReader_condition : Condition move Sound Releases KeepsReader where
  sound hs hm := sound_moved hs (moved hm)
  safe hs hr hm := releases_moved hs hr (moved hm)
  blocked := keepsReader_of_blocked
  panic hs _ := move_ne_panic hs

theorem Releases.not_lost (hr : Releases s) : ¬ Lost s := by
  rintro ⟨hm, hh, hlen, -⟩
  have hroom := hr (by rw [hm]; rfl)
  obtain hh | ⟨m, ms, hh⟩ := hh
  · rw [hh, hlen, Handler.pending] at hroom
    omega
  · rw [hh, hlen, Handler.pending] at hroom
    omega

/-- A connection is up and its handler is not lost. -/
def Frees (o : Option Connection) : Prop := ∃ s, o = some s ∧ ¬ Lost s

/-- How a connection goes on without a main loop: it closes `outbox`, the handler
sends one more value, and the connection cannot be read any more. -/
def windUp : List Move := [.leave, .push, .readError]

theorem push_of_full (hs : Sound s) (hfull : s.inbox.queue.length = 1) :
    advance move (some s) .push = some s := by
  refine advance_eq_some.mpr (.inr ⟨?_, rfl⟩)
  have hblocked : ∀ a, s.inbox.send a = .blocked :=
    Chan.send_of_full hs.inbox (Nat.le_of_eq hfull.symm)
  simp only [move]
  split <;> simp [hblocked]

theorem readError_of_reading (hh : s.handler = .reading) :
    advance move (some s) .readError = some { s with handler := .exiting } :=
  advance_eq_some.mpr (.inl (by simp [move, hh]))

/-- A handler with more to send than `inbox` has room for ends up lost. -/
theorem exists_lost (hs : Sound s) (hout : s.main = .out)
    (hmore : 1 < s.inbox.queue.length + s.handler.pending) :
    ∃ t, t <+: [Move.push, Move.readError] ∧
      ∃ s', Runs.run (advance move) (some s) t = some s' ∧ Lost s' := by
  have hfits := s.inbox.fits
  have hslot := hs.slot
  cases hh : s.handler with
  | offering =>
    rw [hh, hs.unread hh, Handler.pending, List.length_nil] at hmore
    omega
  | releasing | closing | returned =>
    rw [hh, Handler.pending] at hmore
    omega
  | exiting =>
    rw [hh, Handler.pending] at hmore
    rw [hh] at hslot
    exact ⟨[], List.nil_prefix, s, rfl, hout, .inl hh, by omega, hslot⟩
  | reading =>
    rw [hh, Handler.pending] at hmore
    rw [hh] at hslot
    have hfull : s.inbox.queue.length = 1 := by omega
    refine ⟨_, List.prefix_rfl, { s with handler := .exiting }, ?_, hout, .inl rfl, hfull, hslot⟩
    rw [Runs.run_cons, push_of_full hs hfull, Runs.run_cons, readError_of_reading hh]
    rfl
  | pushing m ms =>
    rw [hh] at hslot
    by_cases hfull : s.inbox.queue.length = 1
    · exact ⟨[], List.nil_prefix, s, rfl, hout, .inr ⟨m, ms, hh⟩, hfull, hslot⟩
    · obtain ⟨c, hc, hq⟩ := Chan.exists_send hs.inbox (by omega) (some m)
      have hpush : advance move (some s) .push =
          some { s with inbox := c, handler := .loop ms } :=
        advance_eq_some.mpr (.inl (by simp [move, hh, hc, Outcome.map]))
      have hlen : c.queue.length = 1 := by
        rw [hq, List.length_append, List.length_singleton]
        omega
      cases ms with
      | cons m' ms =>
        refine ⟨[.push], List.prefix_append _ _, _, hpush, hout, .inr ⟨m', ms, rfl⟩, hlen, hslot⟩
      | nil =>
        -- the packet is done, and the nil finds the channel full
        refine ⟨_, List.prefix_rfl, { s with inbox := c, handler := .exiting }, ?_, hout, .inl rfl,
          hlen, hslot⟩
        rw [Runs.run_cons, hpush, Runs.run_cons, readError_of_reading rfl]
        rfl

theorem leave_of_gone (hs : Sound s) (hgone : s.main.gone = true) :
    ∃ s', advance move (some s) .leave = some s' ∧ Sound s' ∧ s'.main = .out ∧
      s'.inbox = s.inbox ∧ s'.handler = s.handler := by
  cases hm : s.main with
  | accepting | serving replies =>
    rw [hm] at hgone
    cases hgone
  | out =>
    have hblocked : move s .leave = .blocked := by simp [move, hm]
    exact ⟨s, advance_eq_some.mpr (.inr ⟨hblocked, rfl⟩), hs, hm, rfl, rfl⟩
  | leaving =>
    have hopen : s.outbox.closed = false := by
      rw [← Bool.not_eq_true, hs.outbox, hm]
      simp
    have hmove : move s .leave =
        .done { s with outbox := { s.outbox with closed := true }, main := .out } := by
      simp [move, hm, Chan.close, hopen, Outcome.map]
    exact ⟨_, advance_eq_some.mpr (.inl hmove), sound_moved hs (moved hmove), rfl, rfl, rfl⟩

/-- What the handler has to send fits exactly if it can wind up. -/
theorem releases_iff (hs : Sound s) :
    Releases s ↔ ∀ t, t <+: windUp → Frees (Runs.run (advance move) (some s) t) := by
  constructor
  · intro hr t ht
    have hallowed : ∀ m ∈ t, ∀ s, KeepsReader s m := by
      intro m hm s
      have hmem := ht.subset hm
      simp only [windUp, List.mem_cons, List.not_mem_nil, or_false] at hmem
      obtain rfl | rfl | rfl := hmem <;> trivial
    obtain ⟨s', hs', -, hr'⟩ := keepsReader_condition.run_of_allowed hallowed hs hr
    exact ⟨s', hs', hr'.not_lost⟩
  · intro hall hgone
    by_contra hmore
    obtain ⟨s₁, h₁, hs₁, hout, hin, hh⟩ := leave_of_gone hs hgone
    rw [← hin, ← hh, Nat.not_le] at hmore
    obtain ⟨t, ht, s₂, h₂, hlost⟩ := exists_lost hs₁ hout hmore
    obtain ⟨s₃, h₃, hnot⟩ := hall (.leave :: t) (List.cons_prefix_cons.mpr ⟨rfl, ht⟩)
    rw [Runs.run_cons, h₁, h₂, Option.some.injEq] at h₃
    exact hnot (h₃ ▸ hlost)

/-- The slot of the single client is never lost, in a run or when the handler
winds up after any part of it, exactly if every move of the run keeps the main
loop while the handler needs it. -/
theorem never_lost_iff (es : List Move) :
    (∀ k t, t <+: windUp → Frees (Runs.run (advance move) (some start) (es.take k ++ t))) ↔
      Runs.Meets (advance move) (fun o m => ∀ s, o = some s → KeepsReader s m) (some start)
        es := by
  refine keepsReader_condition.forall_run_iff (G := Frees) ?_ ?_ sound_start ?_ es
  · intro s hs
    exact releases_iff hs
  · rintro ⟨s, hs, -⟩
    cases hs
  · intro hgone
    cases hgone

/-- A session whose MW connection is lost while a message of the client is queued,
and the client goes. -/
def lostWithMessage : List Move :=
  [.offer, .accept (.roomInfo [] []), .reply, .packet [.sync], .push, .connectionLost, .leave,
    .readError]

/-- The message is not taken from `inbox`, and the nil does not fit in. -/
theorem lostWithMessage_keeps_slot :
    ¬ ∀ es : List Move, Frees (Runs.run (advance move) (some start) es) := by
  intro h
  obtain ⟨s, hs, hnot⟩ := h lostWithMessage
  have hstate : Runs.run (advance move) (some start) lostWithMessage =
      some ⟨⟨[some .sync], false, by decide⟩, ⟨[.roomInfo [] []], true, by decide⟩, false, 1, true,
        false, .exiting, .selecting, .out⟩ := rfl
  rw [hstate, Option.some.injEq] at hs
  subst hs
  exact hnot ⟨rfl, .inl rfl, rfl, rfl⟩

end Lost

end Isthmus.Approto.Connection
