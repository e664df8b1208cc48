import Isthmus.Sides

/-!
# A session, and one message after the other

What is left of a session at any moment is what a run leaves that handles one message
after the other, and is killed in the middle of the last one.

## Main results

- `Proxy.effect_waits_iff`: when the main loop waits in the middle of a step
- `Proxy.refines`: the savefile and the history are those of a run
-/

namespace Isthmus

open Process Mwproto Approto Channels Pipes

namespace Proxy

/-! ## One message after the other -/

/-- The session is in the middle of its opening, or of a step: `t` is left of it. -/
inductive Midway (cfg : Config) (db₀ db : Savefile) (history t : Trace)
    (r : Except Stop Session) : Prop
  | opening {room} (hroom : cfg.openRoom db₀.toSetupTables = .ok room) (hr : r = .ok room.enter)
      (hdb : db = db₀) (hh : history ++ t = room.openingTrace)
  | step {es env m sess db₁ h p} (hes : ∀ e ∈ es, Event.Survives e)
      (hplay : play cfg db₀ es = ⟨db₁, some sess, h⟩)
      (hrun : (handle cfg env sess m).run db₁ = ⟨r, p ++ t⟩) (hdb : db = replay db₁ p)
      (hh : history = h ++ p)

/-- What the main loop has done so far is what a run does. -/
def Stands (cfg : Config) (db₀ : Savefile) (s : Proxy) : Prop :=
  match s.mainLoop with
  | .accepting => s.db = db₀ ∧ s.history = []
  | .selecting sess =>
    ∃ es, (∀ e ∈ es, Event.Survives e) ∧ play cfg db₀ es = ⟨s.db, some sess, s.history⟩
  | .handling t r => Midway cfg db₀ s.db s.history t r
  | .leaving | .closing | .left =>
    ∃ es, (∀ e ∈ es, Event.Survives e) ∧ (play cfg db₀ es).db = s.db ∧
      (play cfg db₀ es).history = s.history

section Stands

variable {cfg : Config} {db₀ db : Savefile} {history t : Trace} {r : Except Stop Session}
  {s s' : Proxy} {m : Move}

theorem play_append_one (es : List Event) (e : Event) :
    play cfg db₀ (es ++ [e]) = Isthmus.step cfg (play cfg db₀ es) e :=
  Runs.run_append

theorem survives_append_one {es : List Event} {e : Event} (hes : ∀ e ∈ es, Event.Survives e)
    (he : e.Survives) : ∀ e' ∈ es ++ [e], Event.Survives e' := by
  intro e' he'
  obtain hold | hnew := List.mem_append.mp he'
  · exact hes e' hold
  · obtain rfl := List.mem_singleton.mp hnew
    exact he

/-- One effect more is done, and one less is left. -/
theorem Midway.effect {e : Effect Commit Io} (h : Midway cfg db₀ db history (e :: t) r) :
    Midway cfg db₀ (act db e) (history ++ [e]) t r := by
  cases h with
  | @opening room hroom hr hdb hh =>
    have hmem : e ∈ room.openingTrace := by
      rw [← hh]
      exact List.mem_append_right _ List.mem_cons_self
    have hio : act db e = db := by
      simp only [Room.openingTrace, List.mem_cons, List.not_mem_nil, or_false] at hmem
      obtain rfl | rfl := hmem <;> rfl
    exact .opening hroom hr (hio.trans hdb) (by simpa using hh)
  | @step es env m sess db₁ h p hes hplay hrun hdb hh =>
    refine .step hes hplay (p := p ++ [e]) (by simpa using hrun) ?_ (by simp [hh])
    rw [replay_append, hdb]
    rfl

/-- A step that is done is an event of the run. -/
theorem Midway.finished (h : Midway cfg db₀ db history [] r) :
    ∃ es, (∀ e ∈ es, Event.Survives e) ∧ play cfg db₀ es = ⟨db, r.toOption, history⟩ := by
  cases h with
  | opening hroom hr hdb hh =>
    refine ⟨[.connect], by simp [Event.Survives], ?_⟩
    rw [List.append_nil] at hh
    subst hr hdb hh
    simp only [play, Runs.run_cons, Runs.run_nil, boot, Isthmus.step, hroom]
    rfl
  | @step es env m sess db₁ h p hes hplay hrun hdb hh =>
    rw [List.append_nil] at hrun
    refine ⟨_, survives_append_one hes (e := .handle env m) trivial, ?_⟩
    rw [play_append_one, hplay]
    simp only [Isthmus.step, hrun, hdb, hh]

theorem stands_start (db : Savefile) : Stands cfg db (start db) := ⟨rfl, rfl⟩

theorem stands_move (h : Stands cfg db₀ s) (hm : move cfg s m = .done s') :
    Stands cfg db₀ s' := by
  cases moved hm with
  | mw | ap => exact h
  | accept hl hr =>
    simp only [Stands, hl] at h ⊢
    obtain ⟨hdb, hh⟩ := h
    rw [hdb] at hr
    exact .opening hr rfl hdb (by rw [hh, List.nil_append])
  | mwClosed hl | apGone hl =>
    simp only [Stands, hl] at h ⊢
    obtain ⟨es, hes, hplay⟩ := h
    exact ⟨es, hes, by rw [hplay], by rw [hplay]⟩
  | fromMW hl _ hrun | fromAP hl _ hrun =>
    simp only [Stands, hl] at h ⊢
    obtain ⟨es, hes, hplay⟩ := h
    exact .step (p := []) hes hplay hrun rfl (List.append_nil _).symm
  | commit hl | recv hl | toMW hl | toAP hl =>
    simp only [Stands, hl] at h ⊢
    exact h.effect
  | finished hl =>
    simp only [Stands, hl] at h ⊢
    exact h.finished
  | failed hl =>
    simp only [Stands, hl] at h ⊢
    obtain ⟨es, hes, hplay⟩ := h.finished
    exact ⟨es, hes, by rw [hplay], by rw [hplay]⟩
  | closeMW hl | closeAP hl =>
    simp only [Stands, hl] at h ⊢
    exact h

/-- In the middle of a step the run ends with a kill. -/
theorem Midway.exists_play (h : Midway cfg db₀ db history t r) :
    ∃ es, (∀ e ∈ es.dropLast, Event.Survives e) ∧ (play cfg db₀ es).db = db ∧
      ((play cfg db₀ es).history = history ∨
        history = [.io (.toMW (.connect ⟨[]⟩))]) := by
  cases h with
  | @opening room hroom hr hdb hh =>
    subst hdb
    cases history with
    | nil => exact ⟨[], by simp, rfl, .inl rfl⟩
    | cons e₁ history =>
      obtain ⟨rfl, htail⟩ := List.cons.inj hh
      cases history with
      | nil => exact ⟨[], by simp, rfl, .inr rfl⟩
      | cons e₂ history =>
        obtain ⟨rfl, hnil⟩ := List.cons.inj htail
        obtain ⟨rfl, rfl⟩ := List.append_eq_nil_iff.mp hnil
        refine ⟨[.connect], by simp, ?_, .inl ?_⟩
        · simp [play, boot, Isthmus.step, hroom]
        · simp [play, boot, Isthmus.step, hroom]
  | @step es env m sess db₁ h p hes hplay hrun hdb hh =>
    obtain ⟨w, n, hcut⟩ := exists_cut (List.prefix_append p t)
    refine ⟨es ++ [.kill env m w n], by simpa using hes, ?_, .inl ?_⟩
    · rw [play_append_one, hplay]
      simp only [Isthmus.step, hrun, hcut, hdb]
    · rw [play_append_one, hplay]
      simp only [Isthmus.step, hrun, hcut, hh]

theorem Stands.exists_play (h : Stands cfg db₀ s) :
    ∃ es, (∀ e ∈ es.dropLast, Event.Survives e) ∧ (play cfg db₀ es).db = s.db ∧
      ((play cfg db₀ es).history = s.history ∨
        s.history = [.io (.toMW (.connect ⟨[]⟩))]) ∧
      ∀ sess, s.mainLoop = .selecting sess → (play cfg db₀ es).session = some sess := by
  obtain ⟨mw, ap, db, mainLoop, history⟩ := s
  cases mainLoop with
  | accepting =>
    obtain ⟨rfl, rfl⟩ := h
    exact ⟨[], by simp, rfl, .inl rfl, nofun⟩
  | selecting sess =>
    obtain ⟨es, hes, hplay⟩ := h
    refine ⟨es, fun e he => hes e ((List.dropLast_sublist es).subset he), ?_, .inl ?_, ?_⟩
    · rw [hplay]
    · rw [hplay]
    · rintro sess' ⟨⟩
      rw [hplay]
  | handling t r =>
    obtain ⟨es, hes, hdb, hh⟩ := Midway.exists_play h
    exact ⟨es, hes, hdb, hh, nofun⟩
  | leaving | closing | left =>
    obtain ⟨es, hes, hdb, hh⟩ := h
    exact ⟨es, fun e he => hes e ((List.dropLast_sublist es).subset he), hdb, .inl hh, nofun⟩

end Stands

section Waiting

variable (cfg : Config) {s : Proxy}

theorem move_toMW (h : Sound s) {m : Message} {t : Trace} {r : Except Stop Session}
    (hl : s.mainLoop = .handling (.io (.toMW m) :: t) r) :
    (move cfg s .effect = .blocked ↔ Mwproto.Client.chanBufferSize ≤ s.mw.outbox.queue.length) ∧
      move cfg s .effect ≠ .panic := by
  have howner : s.mw.owner = .running := by
    rw [h.owner, hl]
    rfl
  have hopen : s.mw.outbox.closed = false := by
    rw [← Bool.not_eq_true, h.mw.outbox, howner]
    simp
  have heffect : ∀ x, s.mw.outbox.send m = x →
      move cfg s .effect = x.map fun c =>
        { s with
          mw := { s.mw with outbox := c, owner := .running }
          mainLoop := .handling t r
          history := s.history ++ [.io (.toMW m)] } := by
    rintro x rfl
    simp only [move, hl, perform, moveMW, Mwproto.Client.move, howner, Outcome.map, Outcome.bind]
    cases s.mw.outbox.send m <;> rfl
  by_cases hfull : Mwproto.Client.chanBufferSize ≤ s.mw.outbox.queue.length
  · rw [heffect _ (Chan.send_of_full hopen hfull m)]
    exact ⟨iff_of_true rfl hfull, by simp⟩
  · obtain ⟨c, hc, -⟩ := Chan.exists_send hopen (by omega) m
    rw [heffect _ hc]
    exact ⟨iff_of_false (by simp) hfull, by simp⟩

theorem move_toAP (h : Sound s) {m : ServerMessage} {t : Trace} {r : Except Stop Session}
    (hl : s.mainLoop = .handling (.io (.toAP m) :: t) r) :
    (move cfg s .effect = .blocked ↔ 1 ≤ s.ap.outbox.queue.length) ∧
      move cfg s .effect ≠ .panic := by
  have hmain : s.ap.main = .serving (m :: messagesOf Io.toAP? t) := by
    rw [h.main, hl, MainLoop.main, messagesOf_io]
    rfl
  have hopen : s.ap.outbox.closed = false := by
    rw [← Bool.not_eq_true, h.ap.outbox, hmain]
    simp
  have heffect : ∀ x, s.ap.outbox.send m = x →
      move cfg s .effect = x.map fun c =>
        { s with
          ap := { s.ap with outbox := c, main := .serving (messagesOf Io.toAP? t) }
          mainLoop := .handling t r
          history := s.history ++ [.io (.toAP m)] } := by
    rintro x rfl
    simp only [move, hl, perform, moveAP, Connection.move, hmain, Outcome.map]
    cases s.ap.outbox.send m <;> rfl
  by_cases hfull : 1 ≤ s.ap.outbox.queue.length
  · rw [heffect _ (Chan.send_of_full hopen hfull m)]
    exact ⟨iff_of_true rfl hfull, by simp⟩
  · obtain ⟨c, hc, -⟩ := Chan.exists_send hopen (by omega) m
    rw [heffect _ hc]
    exact ⟨iff_of_false (by simp) hfull, by simp⟩

/-- The end of a handler never waits. -/
theorem move_finished (h : Sound s) {r : Except Stop Session} (hl : s.mainLoop = .handling [] r) :
    move cfg s .effect ≠ .blocked ∧ (move cfg s .effect = .panic ↔ r = .error .panic) := by
  have hmain : s.ap.main = .serving [] := by
    rw [h.main, hl]
    rfl
  cases r with
  | ok sess =>
    simp only [move, hl]
    exact ⟨by simp, iff_of_false (by simp) (by simp)⟩
  | error e =>
    cases e with
    | panic =>
      simp only [move, hl]
      exact ⟨by simp, by simp⟩
    | _ =>
      simp only [move, hl, moveAP, Connection.move, hmain, Outcome.map]
      exact ⟨by simp, iff_of_false (by simp) (by simp)⟩

end Waiting

/-- In the middle of a step the main loop only waits where it sends to a channel that is
full, and only panics where the handler does. -/
theorem effect_waits_iff (cfg : Config) (db : Savefile) (ms : List Move) :
    let s := last (move cfg) (start db) ms
    ∀ t r, s.mainLoop = .handling t r →
      (move cfg s .effect = .blocked ↔
        (∃ m u, t = .io (.toMW m) :: u ∧ Mwproto.Client.chanBufferSize ≤ s.mw.outbox.queue.length) ∨
          ∃ m u, t = .io (.toAP m) :: u ∧ 1 ≤ s.ap.outbox.queue.length) ∧
      (move cfg s .effect = .panic ↔ t = [] ∧ r = .error .panic) := by
  intro s t r hl
  have h : Sound s := last_keep sound_move (sound_start db) ms
  cases t with
  | nil =>
    obtain ⟨hblocked, hpanic⟩ := move_finished cfg h hl
    exact ⟨iff_of_false hblocked (by simp), by simpa using hpanic⟩
  | cons e t =>
    cases e with
    | commit c =>
      have hdone : ∃ s', move cfg s .effect = .done s' := by
        simp only [move, hl, perform, Outcome.map]
        exact ⟨_, rfl⟩
      obtain ⟨s', hdone⟩ := hdone
      simp [hdone]
    | io io =>
      cases io with
      | recv m =>
        have hdone : ∃ s', move cfg s .effect = .done s' := by
          simp only [move, hl, perform, Outcome.map]
          exact ⟨_, rfl⟩
        obtain ⟨s', hdone⟩ := hdone
        simp [hdone]
      | toMW m =>
        obtain ⟨hblocked, hpanic⟩ := move_toMW cfg h hl
        exact ⟨by simpa using hblocked, iff_of_false hpanic (by simp)⟩
      | toAP m =>
        obtain ⟨hblocked, hpanic⟩ := move_toAP cfg h hl
        exact ⟨by simpa using hblocked, iff_of_false hpanic (by simp)⟩

/-- In a new session the opening is said first. -/
theorem exists_opening : ∃ (db : Savefile) (room : Room),
    createSavefile (Env.inOrder false) sampleResult [] = .ok db ∧
    (last (move sampleConfig) (start db) [.ap .offer, .accept]).mainLoop =
      .handling room.openingTrace (.ok room.enter) ∧
    (last (move sampleConfig) (start db) [.ap .offer, .accept]).ap.writer = .selecting := by
  obtain ⟨db, h, hroom⟩ := exists_created
    (x := createSavefile (Env.inOrder false) sampleResult [])
    (P := fun db => (sampleConfig.openRoom db.toSetupTables).toOption.isSome = true)
    (by decide +kernel)
  obtain ⟨room, hroom⟩ := Option.isSome_iff_exists.mp hroom
  have hok : sampleConfig.openRoom db.toSetupTables = .ok room := by
    cases hx : sampleConfig.openRoom db.toSetupTables with
    | error e => simp [hx, Except.toOption] at hroom
    | ok room' => simpa [hx, Except.toOption] using hroom
  refine ⟨db, room, h, ?_, ?_⟩ <;>
    simp [last, move, moveAP, start, isMains, Connection.move, Connection.start, Outcome.map, hok]

theorem effect_waits_iff_sample : ∃ db t r,
    let s := last (move sampleConfig) (start db) [.ap .offer, .accept]
    s.mainLoop = .handling t r ∧
      (move sampleConfig s .effect = .blocked ↔
        (∃ m u, t = .io (.toMW m) :: u ∧
          Mwproto.Client.chanBufferSize ≤ s.mw.outbox.queue.length) ∨
          ∃ m u, t = .io (.toAP m) :: u ∧ 1 ≤ s.ap.outbox.queue.length) ∧
      (move sampleConfig s .effect = .panic ↔ t = [] ∧ r = .error .panic) := by
  obtain ⟨db, room, -, hl, -⟩ := exists_opening
  exact ⟨db, _, _, hl, effect_waits_iff sampleConfig db _ _ _ hl⟩

/-- Whatever the goroutines do, what is left of the session at any moment is what a run
leaves that handles one message after the other, and is killed in the middle of the last
one where the main loop is. Only before the room is sent has the main loop said less. -/
theorem refines (cfg : Config) (db : Savefile) (ms : List Move) :
    let s := last (move cfg) (start db) ms
    ∃ es, (∀ e ∈ es.dropLast, Event.Survives e) ∧ (play cfg db es).db = s.db ∧
      ((play cfg db es).history = s.history ∨
        s.history = [.io (.toMW (.connect ⟨[]⟩))]) ∧
      ∀ sess, s.mainLoop = .selecting sess → (play cfg db es).session = some sess :=
  Stands.exists_play (last_keep stands_move (stands_start db) ms)

end Proxy

end Isthmus
