import Isthmus.Refinement

/-!
# Progress

As long as each `Write` to one of the two sides returns, no step of the main loop is stuck:
it needs nothing of the other goroutines, nor of what the two sides send. A `Write` that does
not return holds up the main loop as soon as the channel in front of it is full.

## Main definitions

- `Proxy.Move.returns`: a `Write` returns
- `Proxy.Stuck`: the main loop waits for a `Write` to return

## Main results

- `Proxy.handler_finishes`: a step that has begun is finished within a few moves
-/

namespace Isthmus

open Process Mwproto Approto Channels Pipes

/-! ## Room in the two channels -/

namespace Mwproto.Client

/-- The moves of the goroutine that writes. -/
def Move.isSenders : Move → Bool
  | .take | .written _ => true
  | _ => false

/-- The goroutine that writes makes room in `outbox`. -/
theorem exists_room {c : Client} (hemptied : c.Emptied) (hopen : c.outbox.closed = false) :
    ∃ c', Within move (fun m => m.isSenders = true) 2 c c' ∧
      c'.outbox.queue.length < chanBufferSize := by
  have htake : ∀ c : Client, c.outbox.closed = false → c.sendMessages = .ranging →
      ∃ c', Within move (fun m => m.isSenders = true) 1 c c' ∧
        c'.outbox.queue.length < chanBufferSize := by
    intro c hopen hranging
    cases hq : c.outbox.queue with
    | nil =>
      refine ⟨c, (Within.refl c).mono (Nat.zero_le 1), ?_⟩
      rw [hq]
      decide
    | cons m q =>
      obtain ⟨outbox, hreceive, hq'⟩ := Chan.exists_receive hq
      have hlt : q.length < chanBufferSize := by
        have hfits := c.outbox.fits
        rw [hq, List.length_cons] at hfits
        exact hfits
      refine ⟨{ c with outbox := outbox, sendMessages := .writing m },
        Within.one (i := .take) rfl ?_, hq' ▸ hlt⟩
      simp only [move, hranging, hreceive]
  have hleft : c.sendMessages.left = false := by
    rw [← Bool.not_eq_true]
    intro h
    rw [(hemptied h).1] at hopen
    cases hopen
  cases hs : c.sendMessages with
  | ranging =>
    obtain ⟨c', hwithin, hroom⟩ := htake c hopen hs
    exact ⟨c', hwithin.mono (by decide), hroom⟩
  | writing m =>
    have hwritten : move c (.written false) = .done { c with sendMessages := .ranging } := by
      simp only [move, hs]
    have hfirst : Within move (fun m => m.isSenders = true) 1 c
        { c with sendMessages := .ranging } := Within.one rfl hwritten
    obtain ⟨c', hwithin, hroom⟩ := htake { c with sendMessages := .ranging } hopen rfl
    exact ⟨c', hfirst.trans hwithin, hroom⟩
  | disconnecting | stopped =>
    rw [hs] at hleft
    cases hleft

end Mwproto.Client

namespace Approto.Connection

/-- The moves of the goroutine that writes. -/
def Move.isWriters : Move → Bool
  | .take | .written _ => true
  | _ => false

/-- The goroutine that writes makes room in `outbox`, if it is there. -/
theorem exists_room {c : Connection} (hwriter : c.writer ≠ .exited) :
    ∃ c', Within move (fun m => m.isWriters = true) 2 c c' ∧ c'.outbox.queue.length < 1 ∧
      c'.writer ≠ .exited := by
  have htake : ∀ c : Connection, c.writer = .selecting →
      ∃ c', Within move (fun m => m.isWriters = true) 1 c c' ∧ c'.outbox.queue.length < 1 ∧
        c'.writer ≠ .exited := by
    intro c hselecting
    cases hq : c.outbox.queue with
    | nil =>
      refine ⟨c, (Within.refl c).mono (Nat.zero_le 1), ?_, ?_⟩
      · rw [hq]
        decide
      · simp [hselecting]
    | cons m q =>
      obtain ⟨outbox, hreceive, hq'⟩ := Chan.exists_receive hq
      have hlt : q.length < 1 := by
        have hfits := c.outbox.fits
        rw [hq, List.length_cons] at hfits
        exact hfits
      refine ⟨{ c with outbox := outbox, writer := .writing m }, Within.one (i := .take) rfl ?_,
        hq' ▸ hlt, by simp⟩
      simp only [move, hselecting, hreceive]
  cases hw : c.writer with
  | selecting =>
    obtain ⟨c', hwithin, hroom⟩ := htake c hw
    exact ⟨c', hwithin.mono (by decide), hroom⟩
  | writing m =>
    have hwritten : move c (.written !c.connected) = .done { c with writer := .selecting } := by
      simp [move, hw]
    have hfirst : Within move (fun m => m.isWriters = true) 1 c
        { c with writer := .selecting } := Within.one rfl hwritten
    obtain ⟨c', hwithin, hroom⟩ := htake { c with writer := .selecting } rfl
    exact ⟨c', hfirst.trans hwithin, hroom⟩
  | exited => exact absurd hw hwriter

end Approto.Connection

namespace Proxy

/-! ## The effects of a step -/

/-- A `Write` to one of the two sides returns, with an error or without. -/
def Move.returns : Move → Bool
  | .mw (.written _) | .ap (.written _) => true
  | _ => false

/-- The main loop has an effect, or what it has said is taken from a channel to be written. -/
def Move.serves : Move → Bool
  | .mw .take | .ap .take | .effect => true
  | _ => false

theorem served_mw {m : Mwproto.Client.Move} (hm : m.isSenders = true) :
    (Move.mw m).serves = true ∨ (Move.mw m).returns = true := by
  cases m with
  | take => exact .inl rfl
  | written failed => exact .inr rfl
  | _ => cases hm

theorem served_ap {m : Connection.Move} (hm : m.isWriters = true) :
    (Move.ap m).serves = true ∨ (Move.ap m).returns = true := by
  cases m with
  | take => exact .inl rfl
  | written failed => exact .inr rfl
  | _ => cases hm

section Effects

variable (cfg : Config) {s s' : Proxy} {t : Trace} {r : Except Stop Session}

/-- What is needed to go on with a step. -/
structure Serving (s : Proxy) : Prop where
  sound : Sound s
  emptied : s.mw.Emptied
  writer : s.ap.writer ≠ .exited

/-- What `exists_room` says of the MW client, in a session. -/
theorem exists_room_mw (h : Serving s) (hl : s.mainLoop = .handling t r) :
    ∃ c, Within (move cfg) (fun m => m.serves = true ∨ m.returns = true) 2 s { s with mw := c } ∧
      Serving { s with mw := c } ∧ c.outbox.queue.length < Mwproto.Client.chanBufferSize := by
  have hopen : s.mw.outbox.closed = false := by
    rw [← Bool.not_eq_true, h.sound.mw.outbox, h.sound.owner, hl]
    simp [MainLoop.owner]
  obtain ⟨c, hwithin, hroom⟩ := Mwproto.Client.exists_room h.emptied hopen
  have hkeep : c.Sound ∧ c.Emptied ∧ c.owner = s.mw.owner := by
    refine hwithin.keep (I := fun c => c.Sound ∧ c.Emptied ∧ c.owner = s.mw.owner) ?_
      ⟨h.sound.mw, h.emptied, rfl⟩
    rintro c c' m ⟨hs, he, ho⟩ hm hc
    have hn : m.isOwners = false := by
      cases m <;> first | rfl | cases hm
    exact ⟨Mwproto.Client.sound_move hs hc, Mwproto.Client.emptied_move hs he hc,
      (Mwproto.Client.owner_move hn hc).trans ho⟩
  refine ⟨c, hwithin.lift (fun c => { s with mw := c }) .mw (fun _ => served_mw) ?_, ?_, hroom⟩
  · intro c m hm
    have hn : m.isOwners = false := by
      cases m <;> first | rfl | cases hm
    simp [move, moveMW, hl, hn]
  · obtain ⟨⟨-, hap, hmain, howner, hsilent⟩, -, hwriter⟩ := h
    exact ⟨⟨hkeep.1, hap, hmain, hkeep.2.2.trans howner, hsilent⟩, hkeep.2.1, hwriter⟩

theorem exists_room_ap (h : Serving s) :
    ∃ c, Within (move cfg) (fun m => m.serves = true ∨ m.returns = true) 2 s { s with ap := c } ∧
      Serving { s with ap := c } ∧ c.outbox.queue.length < 1 := by
  obtain ⟨c, hwithin, hroom, hwriter⟩ := Connection.exists_room h.writer
  have hkeep : c.Sound ∧ c.main = s.ap.main := by
    refine hwithin.keep (I := fun c => c.Sound ∧ c.main = s.ap.main) ?_ ⟨h.sound.ap, rfl⟩
    rintro c c' m ⟨hs, hmain⟩ hm hc
    have hn : isMains m = false := by
      cases m <;> first | rfl | cases hm
    exact ⟨Connection.sound_move hs hc, (main_move hn hc).trans hmain⟩
  refine ⟨c, hwithin.lift (fun c => { s with ap := c }) .ap (fun _ => served_ap) ?_, ?_, hroom⟩
  · intro c m hm
    have hn : isMains m = false := by
      cases m <;> first | rfl | cases hm
    simp [move, moveAP, hn]
  · obtain ⟨⟨hmw, -, hmain, howner, hsilent⟩, hemptied, -⟩ := h
    exact ⟨⟨hmw, hkeep.1, hkeep.2.trans hmain, howner, hsilent⟩, hemptied, hwriter⟩

theorem within_effect {cfg : Config} (hm : move cfg s .effect = .done s') :
    Within (move cfg) (fun m => m.serves = true ∨ m.returns = true) 1 s s' :=
  Within.one (.inl rfl) hm

/-- A send to the MW server is had within three moves: two make room for it. -/
theorem exists_effect_mw {m : Message} (h : Serving s)
    (hl : s.mainLoop = .handling (.io (.toMW m) :: t) r) :
    ∃ s', Within (move cfg) (fun m => m.serves = true ∨ m.returns = true) 3 s s' ∧ Serving s' ∧
      s'.mainLoop = .handling t r ∧ s'.db = s.db ∧ s'.history = s.history ++ [.io (.toMW m)] := by
  obtain ⟨c, hwithin, h₁, hroom⟩ := exists_room_mw cfg h hl
  have hl₁ : ({ s with mw := c } : Proxy).mainLoop = .handling (.io (.toMW m) :: t) r := hl
  obtain ⟨hblocked, hpanic⟩ := move_toMW cfg h₁.sound hl₁
  cases hm : move cfg { s with mw := c } .effect with
  | blocked => exact absurd (hblocked.mp hm) (Nat.not_le_of_lt hroom)
  | panic => exact absurd hm hpanic
  | done s' =>
    refine ⟨s', hwithin.trans (within_effect hm), ?_⟩
    have hsound := sound_move h₁.sound hm
    cases moved hm with
    | toMW hl' hc hd =>
      cases hl₁.symm.trans hl'
      have hemptied := Mwproto.Client.emptied_move h₁.sound.mw h₁.emptied hc
      refine ⟨⟨hsound, ?_, h₁.writer⟩, rfl, rfl, rfl⟩
      exact Mwproto.Client.emptied_move (Mwproto.Client.sound_move h₁.sound.mw hc) hemptied hd
    | commit hl' | recv hl' | toAP hl' | finished hl' | failed hl' =>
      exact absurd (hl₁.symm.trans hl') (by simp)

/-- And so is one to the client. -/
theorem exists_effect_ap {m : ServerMessage} (h : Serving s)
    (hl : s.mainLoop = .handling (.io (.toAP m) :: t) r) :
    ∃ s', Within (move cfg) (fun m => m.serves = true ∨ m.returns = true) 3 s s' ∧ Serving s' ∧
      s'.mainLoop = .handling t r ∧ s'.db = s.db ∧ s'.history = s.history ++ [.io (.toAP m)] := by
  obtain ⟨c, hwithin, h₁, hroom⟩ := exists_room_ap cfg h
  have hl₁ : ({ s with ap := c } : Proxy).mainLoop = .handling (.io (.toAP m) :: t) r := hl
  obtain ⟨hblocked, hpanic⟩ := move_toAP cfg h₁.sound hl₁
  cases hm : move cfg { s with ap := c } .effect with
  | blocked => exact absurd (hblocked.mp hm) (Nat.not_le_of_lt hroom)
  | panic => exact absurd hm hpanic
  | done s' =>
    refine ⟨s', hwithin.trans (within_effect hm), ?_⟩
    have hsound := sound_move h₁.sound hm
    cases moved hm with
    | toAP hl' hc =>
      cases hl₁.symm.trans hl'
      refine ⟨⟨hsound, h₁.emptied, ?_⟩, rfl, rfl, rfl⟩
      cases Connection.moved hc
      exact h₁.writer
    | commit hl' | recv hl' | toMW hl' | finished hl' | failed hl' =>
      exact absurd (hl₁.symm.trans hl') (by simp)

/-- An effect is had within three moves. -/
theorem exists_effect {e : Effect Commit Io} (h : Serving s)
    (hl : s.mainLoop = .handling (e :: t) r) :
    ∃ s', Within (move cfg) (fun m => m.serves = true ∨ m.returns = true) 3 s s' ∧ Serving s' ∧
      s'.mainLoop = .handling t r ∧ s'.db = act s.db e ∧ s'.history = s.history ++ [e] := by
  cases e with
  | commit c =>
    have hm : move cfg s .effect = .done { s with
        db := write s.db c, mainLoop := .handling t r, history := s.history ++ [.commit c] } := by
      simp [move, hl, perform, Outcome.map]
    refine ⟨_, (within_effect hm).mono (by decide), ⟨sound_move h.sound hm, h.emptied, h.writer⟩,
      rfl, rfl, rfl⟩
  | io io =>
    cases io with
    | recv m =>
      have hm : move cfg s .effect = .done { s with
          mainLoop := .handling t r, history := s.history ++ [.io (.recv m)] } := by
        simp [move, hl, perform, Outcome.map]
      exact ⟨_, (within_effect hm).mono (by decide), ⟨sound_move h.sound hm, h.emptied, h.writer⟩,
        rfl, rfl, rfl⟩
    | toMW m => exact exists_effect_mw cfg h hl
    | toAP m => exact exists_effect_ap cfg h hl

/-- Where the main loop is after a step. -/
def MainLoop.after : Except Stop Session → MainLoop
  | .ok sess => .selecting sess
  | .error _ => .leaving

theorem exists_finished (h : Serving s) (hl : s.mainLoop = .handling t r)
    (hr : r ≠ .error .panic) :
    ∃ s', Within (move cfg) (fun m => m.serves = true ∨ m.returns = true) (3 * t.length + 1)
        s s' ∧ s'.mainLoop = MainLoop.after r ∧ s'.db = replay s.db t ∧ s'.history = s.history ++ t := by
  induction t generalizing s with
  | nil =>
    obtain ⟨hblocked, hpanic⟩ := move_finished cfg h.sound hl
    cases hm : move cfg s .effect with
    | blocked => exact absurd hm hblocked
    | panic => exact absurd (hpanic.mp hm) hr
    | done s' =>
      refine ⟨s', within_effect hm, ?_⟩
      cases moved hm with
      | finished hl' =>
        cases hl.symm.trans hl'
        exact ⟨rfl, rfl, (List.append_nil _).symm⟩
      | failed hl' =>
        cases hl.symm.trans hl'
        exact ⟨rfl, rfl, (List.append_nil _).symm⟩
      | commit hl' | recv hl' | toMW hl' | toAP hl' =>
        exact absurd (hl.symm.trans hl') (by simp)
  | cons e t ih =>
    obtain ⟨s₁, hwithin, h₁, hl₁, hdb₁, hh₁⟩ := exists_effect cfg h hl
    obtain ⟨s', hwithin', hl', hdb', hh'⟩ := ih h₁ hl₁
    refine ⟨s', (hwithin.trans hwithin').mono ?_, hl', ?_, ?_⟩
    · rw [List.length_cons]
      omega
    · rw [hdb', hdb₁, replay_cons]
    · rw [hh', hh₁, List.append_assoc]
      rfl

theorem emptied_last (cfg : Config) (db : Savefile) (ms : List Move) :
    (last (move cfg) (start db) ms).mw.Emptied := by
  have hkeep : ∀ {c c' m}, Mwproto.Client.Sound c ∧ c.Emptied → c.move m = .done c' →
      Mwproto.Client.Sound c' ∧ c'.Emptied := fun h hm =>
    ⟨Mwproto.Client.sound_move h.1 hm, Mwproto.Client.emptied_move h.1 h.2 hm⟩
  have hlast : (last Mwproto.Client.move Mwproto.Client.dial
      (flow (move cfg) mwMoves (start db) ms)).Sound ∧ _ :=
    last_keep hkeep ⟨Mwproto.Client.sound_dial, nofun⟩ _
  rw [last_mw] at hlast
  exact hlast.2

end Effects

/-! ## A `Write` that does not return -/

/-- The main loop waits to say something while the channel to that side is full and the
goroutine that writes is in `Write`, or gone. -/
inductive Stuck (s : Proxy) : Prop
  | mw {m t r} (hl : s.mainLoop = .handling (.io (.toMW m) :: t) r)
      (hw : s.mw.sendMessages ≠ .ranging)
      (hfull : s.mw.outbox.queue.length = Mwproto.Client.chanBufferSize)
  | ap {m t r} (hl : s.mainLoop = .handling (.io (.toAP m) :: t) r)
      (hw : s.ap.writer ≠ .selecting) (hfull : s.ap.outbox.queue.length = 1)

end Proxy

/-- Until its `Write` returns, `sendMessages` leaves a full `outbox` as it is. -/
theorem Mwproto.Client.full_move {c c' : Client} {m : Client.Move} (hm : c.move m = .done c')
    (hreturn : ∀ failed, m ≠ .written failed) (hw : c.sendMessages ≠ .ranging)
    (hfull : c.outbox.queue.length = chanBufferSize) :
    c'.sendMessages ≠ .ranging ∧ c'.outbox.queue.length = chanBufferSize := by
  cases moved hm with
  | written | disconnected => exact absurd rfl (hreturn _)
  | take hs | takeEnd hs => exact absurd hs hw
  | ping _ hc | sent _ hc =>
    obtain ⟨-, hroom, -⟩ := Chan.send_eq_done.mp hc
    exact absurd hfull (Nat.ne_of_lt hroom)
  | close _ hc =>
    obtain ⟨-, hq, -⟩ := Chan.close_eq_done.mp hc
    exact ⟨hw, (congrArg List.length hq).trans hfull⟩
  | _ => exact ⟨hw, hfull⟩

theorem Approto.Connection.full_move {c c' : Connection} {m : Connection.Move}
    (hm : c.move m = .done c') (hreturn : ∀ failed, m ≠ .written failed)
    (hw : c.writer ≠ .selecting) (hfull : c.outbox.queue.length = 1) :
    c'.writer ≠ .selecting ∧ c'.outbox.queue.length = 1 := by
  cases moved hm with
  | written => exact absurd rfl (hreturn _)
  | take hs | takeEnd hs | ctxDone hs => exact absurd hs hw
  | reply _ hc =>
    obtain ⟨-, hroom, -⟩ := Chan.send_eq_done.mp hc
    exact absurd hfull (Nat.ne_of_lt hroom)
  | leave _ hc =>
    obtain ⟨-, hq, -⟩ := Chan.close_eq_done.mp hc
    exact ⟨hw, (congrArg List.length hq).trans hfull⟩
  | _ => exact ⟨hw, hfull⟩

namespace Proxy

/-- Where the main loop is stuck only a `Write` that returns gets it on. -/
theorem stuck_move {cfg : Config} {s s' : Proxy} {m : Move} (h : Stuck s)
    (hreturn : m.returns = false) (hm : move cfg s m = .done s') :
    Stuck s' ∧ s'.mainLoop = s.mainLoop ∧ s'.history = s.history := by
  cases moved hm with
  | @mw m c hacc hown hc =>
    refine ⟨?_, rfl, rfl⟩
    cases h with
    | mw hl hw hfull =>
      have hne : ∀ failed, m ≠ .written failed := by
        rintro failed rfl
        cases hreturn
      obtain ⟨hw', hfull'⟩ := Mwproto.Client.full_move hc hne hw hfull
      exact .mw hl hw' hfull'
    | ap hl hw hfull => exact .ap hl hw hfull
  | @ap m c hmain hc =>
    refine ⟨?_, rfl, rfl⟩
    cases h with
    | mw hl hw hfull => exact .mw hl hw hfull
    | ap hl hw hfull =>
      have hne : ∀ failed, m ≠ .written failed := by
        rintro failed rfl
        cases hreturn
      obtain ⟨hw', hfull'⟩ := Connection.full_move hc hne hw hfull
      exact .ap hl hw' hfull'
  | toMW hl hc hd =>
    cases h with
    | mw _ _ hfull =>
      -- the message has no room
      cases Mwproto.Client.moved hc
      cases Mwproto.Client.moved hd with
      | sent _ hsend =>
        obtain ⟨-, hroom, -⟩ := Chan.send_eq_done.mp hsend
        exact absurd hfull (Nat.ne_of_lt hroom)
    | ap hl' => exact absurd (hl.symm.trans hl') (by simp)
  | toAP hl hc =>
    cases h with
    | mw hl' => exact absurd (hl.symm.trans hl') (by simp)
    | ap _ _ hfull =>
      cases Connection.moved hc with
      | reply _ hsend =>
        obtain ⟨-, hroom, -⟩ := Chan.send_eq_done.mp hsend
        exact absurd hfull (Nat.ne_of_lt hroom)
  | accept hl | mwClosed hl | fromMW hl | apGone hl | fromAP hl | commit hl | recv hl
    | finished hl | failed hl | closeMW hl | closeAP hl =>
    -- the main loop is somewhere else
    cases h with
    | mw hl' | ap hl' => exact absurd (hl.symm.trans hl') (by simp)

theorem last_stuck (cfg : Config) {s : Proxy} (h : Stuck s) {ms : List Move}
    (hms : ∀ m ∈ ms, m.returns = false) :
    (last (move cfg) s ms).mainLoop = s.mainLoop ∧ (last (move cfg) s ms).history = s.history := by
  have hkeep : ∀ {s₁ s₂ m}, Stuck s₁ ∧ s₁.mainLoop = s.mainLoop ∧ s₁.history = s.history →
      m.returns = false → move cfg s₁ m = .done s₂ →
        Stuck s₂ ∧ s₂.mainLoop = s.mainLoop ∧ s₂.history = s.history := by
    rintro s₁ s₂ m ⟨h₁, hl, hh⟩ hreturn hm
    obtain ⟨h₂, hl₂, hh₂⟩ := stuck_move h₁ hreturn hm
    exact ⟨h₂, hl₂.trans hl, hh₂.trans hh⟩
  exact (last_keep_of_forall hkeep ⟨h, rfl, rfl⟩ hms).2

/-- A step that has begun is finished within a few moves of the two goroutines that write
and of the main loop itself, if the one for the AP client is there, and if each `Write`
returns. Nothing else has to move, and the two sides have nothing to send for it. Where the
main loop is stuck, it is so until a `Write` returns. -/
theorem handler_finishes (cfg : Config) (db : Savefile) (ms : List Move) :
    let s := last (move cfg) (start db) ms
    (∀ t r, s.mainLoop = .handling t r → s.ap.writer ≠ .exited → r ≠ .error .panic →
      ∃ s', Within (move cfg) (fun m => m.serves = true ∨ m.returns = true) (3 * t.length + 1)
        s s' ∧ s'.mainLoop = MainLoop.after r ∧ s'.db = replay s.db t ∧
          s'.history = s.history ++ t) ∧
      (Stuck s → ∀ ms' : List Move, (∀ m ∈ ms', m.returns = false) →
        (last (move cfg) s ms').mainLoop = s.mainLoop ∧
          (last (move cfg) s ms').history = s.history) := by
  intro s
  refine ⟨fun t r hl hwriter hr => ?_, fun h ms' hms' => last_stuck cfg h hms'⟩
  have hsound : Sound s := last_keep sound_move (sound_start db) ms
  exact exists_finished cfg ⟨hsound, emptied_last cfg db ms, hwriter⟩ hl hr

theorem handler_finishes_sample : ∃ (db : Savefile) (room : Room) (s' : Proxy),
    let s := last (move sampleConfig) (start db) [.ap .offer, .accept]
    Within (move sampleConfig) (fun m => m.serves = true ∨ m.returns = true) 7 s s' ∧
      s'.mainLoop = .selecting room.enter ∧ s'.history = s.history ++ room.openingTrace := by
  obtain ⟨db, room, -, hl, hwriter⟩ := exists_opening
  obtain ⟨s', hwithin, hl', -, hh⟩ := (handler_finishes sampleConfig db [.ap .offer, .accept]).1 _ _
    hl (by simp [hwriter]) (by simp)
  exact ⟨db, room, s', hwithin, hl', hh⟩

end Proxy

end Isthmus
