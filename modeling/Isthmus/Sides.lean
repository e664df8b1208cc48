import Isthmus.Proxy
import Isthmus.Spoken

/-!
# The two sides of a session

A move of a session is made up of moves of its MW client and of the connection of its AP
client. Whatever the goroutines do, the main loop handles what both sides read, in order,
and what it says is handed to `Write`, in order.

## Main results

- `Proxy.transported`: what is read is handled, and what is said is handed to `Write`
-/

namespace Isthmus

open Process Mwproto Approto Channels Pipes

/-- The effects that are left of a handler. -/
def MainLoop.todo : MainLoop → Trace
  | .handling t _ => t
  | _ => []

/-- Where the connection has the main loop. -/
def MainLoop.main : MainLoop → Connection.Main
  | .accepting => .accepting
  | .selecting _ => .serving []
  | .handling t _ => .serving (messagesOf Io.toAP? t)
  | .leaving | .closing => .leaving
  | .left => .out

/-- Where the MW client has its owner. -/
def MainLoop.owner : MainLoop → Mwproto.Client.Owner
  | .closing | .left => .closed
  | _ => .running

namespace Proxy

/-! ## The two sides -/

/-- The moves of the MW client that a move is made up of. -/
def mwMoves (s : Proxy) : Move → List Mwproto.Client.Move
  | .mw m => [m]
  | .selectMW _ =>
    match s.mw.inbox.receive with
    | .got _ _ => [.receive]
    | _ => []
  | .effect =>
    match s.mainLoop with
    | .handling (.io (.toMW m) :: _) _ => [.send m, .sent]
    | _ => []
  | .leave =>
    match s.mainLoop with
    | .leaving => [.close]
    | _ => []
  | _ => []

/-- The moves of the connection that a move is made up of. -/
def apMoves (cfg : Config) (s : Proxy) : Move → List Connection.Move
  | .ap m => [m]
  | .accept =>
    match cfg.openRoom s.db.toSetupTables with
    | .ok room => [.accept (.roomInfo room.games room.checksums)]
    | .error _ => []
  | .selectMW env =>
    match s.mainLoop, s.mw.inbox.receive with
    | .selecting sess, .got m _ =>
      [.receiveMW (messagesOf Io.toAP? ((handle cfg env sess (.fromMW m)).run s.db).trace)]
    | _, _ => [.connectionLost]
  | .selectAP env =>
    match s.mainLoop, s.ap.inbox.receive with
    | .selecting sess, .got (some m) _ =>
      [.receive (messagesOf Io.toAP? ((handle cfg env sess (.fromAP m)).run s.db).trace)]
    | _, _ => [.receive []]
  | .effect =>
    match s.mainLoop with
    | .handling (.io (.toAP _) :: _) _ => [.reply]
    | .handling [] (.error _) => [.connectionLost]
    | _ => []
  | .leave =>
    match s.mainLoop with
    | .closing => [.leave]
    | _ => []
  | _ => []

section Parts

variable {cfg : Config} {s s' : Proxy} {m : Move}

theorem component_mw (cfg : Config) :
    Component (move cfg) Mwproto.Client.move Proxy.mw mwMoves where
  run {s s' m} h := by
    cases moved h with
    | mw _ _ hc => simp [mwMoves, advance, Outcome.next, hc]
    | fromMW _ hr _ hc => simp [mwMoves, advance, Outcome.next, hr, hc]
    | mwClosed _ hr => simp [mwMoves, hr]
    | toMW hl hc hd => simp [mwMoves, advance, Outcome.next, hl, hc, hd]
    | closeMW hl hc => simp [mwMoves, advance, Outcome.next, hl, hc]
    | commit hl | recv hl | toAP hl | finished hl | failed hl | closeAP hl => simp [mwMoves, hl]
    | ap | accept | apGone | fromAP => rfl

theorem component_ap (cfg : Config) :
    Component (move cfg) Connection.move Proxy.ap (apMoves cfg) where
  run {s s' m} h := by
    cases moved h with
    | ap _ hc => simp [apMoves, advance, Outcome.next, hc]
    | accept _ hr hc => simp [apMoves, advance, Outcome.next, hr, hc]
    | mwClosed hl hr hc => simp [apMoves, advance, Outcome.next, hl, hr, hc]
    | fromMW hl hr hrun _ hd => simp [apMoves, advance, Outcome.next, hl, hr, hrun, hd]
    | apGone hl hr hc =>
      obtain hr | ⟨q, hr⟩ := hr
      · simp [apMoves, advance, Outcome.next, hl, hr, hc]
      · simp [apMoves, advance, Outcome.next, hl, hr, hc]
    | fromAP hl hr hrun hd => simp [apMoves, advance, Outcome.next, hl, hr, hrun, hd]
    | toAP hl hc => simp [apMoves, advance, Outcome.next, hl, hc]
    | failed hl hc => simp [apMoves, advance, Outcome.next, hl, hc]
    | closeAP hl hc => simp [apMoves, advance, Outcome.next, hl, hc]
    | commit hl | recv hl | toMW hl | finished hl | closeMW hl => simp [apMoves, hl]
    | mw => rfl

end Parts

/-! ## What holds all along -/

structure Sound (s : Proxy) : Prop where
  mw : s.mw.Sound
  ap : s.ap.Sound
  main : s.ap.main = s.mainLoop.main
  owner : s.mw.owner = s.mainLoop.owner
  silent : ∀ m ∈ messagesOf Io.toMW? s.mainLoop.todo, m.isPing = false

section Messages

variable {cfg : Config} {env : Env} {sess : Session} {db : Savefile} {α : Type}
  {kind : Io → Option α}

/-- The messages of a step that are of a kind that is not sent. -/
theorem messagesOf_handle (hk : ∀ io, io.isSent = true → kind io = none) (m : Incoming) :
    messagesOf kind ((handle cfg env sess m).run db).trace = (kind (.recv m)).toList := by
  obtain ⟨sent, hmessages, hsent⟩ := messages_handle cfg env sess db m
  have hnone : sent.filterMap kind = [] :=
    List.filterMap_eq_nil_iff.mpr fun io hio => hk io (hsent io hio)
  rw [messagesOf, hmessages, List.filterMap_cons, hnone]
  cases kind (.recv m) <;> rfl

theorem fromMW?_of_isSent {io : Io} (h : io.isSent = true) : io.fromMW? = none := by
  cases io with
  | recv m => cases h
  | _ => rfl

theorem fromAP?_of_isSent {io : Io} (h : io.isSent = true) : io.fromAP? = none := by
  cases io with
  | recv m => cases h
  | _ => rfl

/-- No step sends a ping. -/
theorem isPing_of_handle {m : Incoming} {out : Message}
    (h : out ∈ messagesOf Io.toMW? ((handle cfg env sess m).run db).trace) :
    out.isPing = false := by
  obtain ⟨sent, hmessages, hsent⟩ := messages_handle cfg env sess db m
  rw [messagesOf, hmessages] at h
  obtain ⟨io, hio, hout⟩ := List.mem_filterMap.mp h
  obtain rfl | hio := List.mem_cons.mp hio
  · cases hout
  · have hs := hsent io hio
    cases io with
    | toMW m =>
      cases hout
      simpa [Io.isSent] using hs
    | _ => cases hout

end Messages

section Moves

variable {cfg : Config} {s s' : Proxy} {m : Move}

/-- The goroutines of the connection leave the main loop where it is. -/
theorem main_move {c c' : Connection} {m : Connection.Move} (hm : isMains m = false)
    (hc : c.move m = .done c') : c'.main = c.main := by
  cases Connection.moved hc with
  | _ => first | rfl | cases hm

theorem sound_start (db : Savefile) : Sound (start db) :=
  ⟨Mwproto.Client.sound_dial, Connection.sound_start, rfl, rfl, by simp [start, MainLoop.todo]⟩

theorem sound_move (h : Sound s) (hm : move cfg s m = .done s') : Sound s' := by
  obtain ⟨hmw, hap, hmain, howner, hsilent⟩ := h
  cases moved hm with
  | mw _ hn hc =>
    exact ⟨Mwproto.Client.sound_move hmw hc, hap, hmain, (Mwproto.Client.owner_move hn hc).trans howner, hsilent⟩
  | ap hn hc =>
    exact ⟨hmw, Connection.sound_move hap hc, (main_move hn hc).trans hmain, howner, hsilent⟩
  | accept hl _ hc =>
    rw [hl] at howner
    refine ⟨hmw, Connection.sound_move hap hc, ?_, howner, ?_⟩
    · cases Connection.moved hc
      rfl
    · intro out hout
      rw [List.mem_singleton.mp hout]
      rfl
  | mwClosed hl _ hc | apGone hl _ hc | failed hl hc =>
    rw [hl] at howner
    refine ⟨hmw, Connection.sound_move hap hc, ?_, howner, by simp [MainLoop.todo]⟩
    cases Connection.moved hc with
    | _ => simp_all [MainLoop.main]
  | fromMW hl hr hrun hc hd =>
    rw [hl] at howner
    subst hrun
    refine ⟨Mwproto.Client.sound_move hmw hc, Connection.sound_move hap hd, ?_, ?_, ?_⟩
    · cases Connection.moved hd
      rfl
    · cases Mwproto.Client.moved hc with
      | _ => exact howner
    · exact fun out => isPing_of_handle
  | fromAP hl hr hrun hd =>
    rw [hl] at howner
    subst hrun
    refine ⟨hmw, Connection.sound_move hap hd, ?_, howner, fun out => isPing_of_handle⟩
    cases Connection.moved hd with
    | _ => simp_all [MainLoop.main]
  | commit hl | recv hl =>
    rw [hl] at hmain howner hsilent
    exact ⟨hmw, hap, hmain, howner, hsilent⟩
  | toMW hl hc hd =>
    rw [hl] at hmain hsilent
    refine ⟨Mwproto.Client.sound_move (Mwproto.Client.sound_move hmw hc) hd, hap, hmain, ?_, ?_⟩
    · cases Mwproto.Client.moved hd
      rfl
    · exact fun out hout => hsilent out (List.mem_cons_of_mem _ hout)
  | toAP hl hc =>
    rw [hl] at hmain howner hsilent
    refine ⟨hmw, Connection.sound_move hap hc, ?_, howner, hsilent⟩
    cases Connection.moved hc with
    | reply hmain' _ =>
      rw [hmain] at hmain'
      simp only [MainLoop.main, messagesOf_io, Io.toAP?, Option.toList_some, List.cons_append,
        Connection.Main.serving.injEq, List.cons.injEq] at hmain'
      exact congrArg Connection.Main.serving hmain'.2.symm
  | finished hl =>
    rw [hl] at hmain howner
    exact ⟨hmw, hap, hmain, howner, by simp [MainLoop.todo]⟩
  | closeMW hl hc =>
    rw [hl] at hmain
    refine ⟨Mwproto.Client.sound_move hmw hc, hap, hmain, ?_, by simp [MainLoop.todo]⟩
    cases Mwproto.Client.moved hc
    rfl
  | closeAP hl hc =>
    rw [hl] at howner
    refine ⟨hmw, Connection.sound_move hap hc, ?_, howner, by simp [MainLoop.todo]⟩
    cases Connection.moved hc
    rfl

end Moves

/-! ## What passes -/

/-- What passes at a place of the MW client. -/
def atMW {α : Type} (place : Mwproto.Client → Mwproto.Client.Move → List α) (s : Proxy) :
    Move → List α
  | .mw m => place s.mw m
  | _ => []

/-- What passes at a place of the connection. -/
def atAP {α : Type} (place : Connection → Connection.Move → List α) (s : Proxy) : Move → List α
  | .ap m => place s.ap m
  | _ => []

/-- The effects that the main loop has had, and those that it is about to have. -/
def effects (s : Proxy) : Trace := s.history ++ s.mainLoop.todo

/-- The effects that a move adds to those that the main loop is about to have. -/
def adds (cfg : Config) (s : Proxy) : Move → Trace
  | .accept =>
    match cfg.openRoom s.db.toSetupTables with
    | .ok room => room.openingTrace
    | .error _ => []
  | .selectMW env =>
    match s.mainLoop, s.mw.inbox.receive with
    | .selecting sess, .got m _ => ((handle cfg env sess (.fromMW m)).run s.db).trace
    | _, _ => []
  | .selectAP env =>
    match s.mainLoop, s.ap.inbox.receive with
    | .selecting sess, .got (some m) _ => ((handle cfg env sess (.fromAP m)).run s.db).trace
    | _, _ => []
  | _ => []

section Effects

variable {cfg : Config} {s s' : Proxy} {m : Move}

/-- The moves that the main loop makes in the client are those of its owner. -/
theorem isOwners_of_mem {i : Mwproto.Client.Move} (hm : ∀ m', m ≠ .mw m') (hi : i ∈ mwMoves s m) :
    i.isOwners = true := by
  cases m with
  | mw m => exact absurd rfl (hm m)
  | ap m | accept | selectAP env => cases hi
  | selectMW env | effect | leave =>
    simp only [mwMoves] at hi
    split at hi
    · simp only [List.mem_cons, List.not_mem_nil, or_false] at hi
      obtain rfl | rfl := hi <;> rfl
    · cases hi

theorem isMains_of_mem {i : Connection.Move} (hm : ∀ m', m ≠ .ap m') (hi : i ∈ apMoves cfg s m) :
    isMains i = true := by
  cases m with
  | ap m => exact absurd rfl (hm m)
  | mw m => cases hi
  | accept | selectMW env | selectAP env | effect | leave =>
    simp only [apMoves] at hi
    split at hi <;> simp only [List.mem_cons, List.not_mem_nil, or_false] at hi <;>
      rw [hi] <;> rfl

/-- What only the goroutines of the client let pass. -/
theorem flow_mw {α : Type} {place : Mwproto.Client → Mwproto.Client.Move → List α}
    (hplace : ∀ c m, m.isOwners = true → place c m = []) (hm : move cfg s m = .done s') :
    atMW place s m = flow Mwproto.Client.move place s.mw (mwMoves s m) := by
  cases m with
  | mw m =>
    cases moved hm with
    | mw _ _ hc => exact (flow_singleton hc).symm
  | _ =>
    refine (flow_eq_nil_of_forall fun i hi c => hplace c i ?_).symm
    exact isOwners_of_mem (by simp) hi

/-- What only the goroutines of the connection let pass. -/
theorem flow_ap {α : Type} {place : Connection → Connection.Move → List α}
    (hplace : ∀ c m, isMains m = true → place c m = []) (hm : move cfg s m = .done s') :
    atAP place s m = flow Connection.move place s.ap (apMoves cfg s m) := by
  cases m with
  | ap m =>
    cases moved hm with
    | ap _ hc => exact (flow_singleton hc).symm
  | _ =>
    refine (flow_eq_nil_of_forall fun i hi c => hplace c i ?_).symm
    exact isMains_of_mem (by simp) hi

theorem effects_move (hm : move cfg s m = .done s') : s'.effects = s.effects ++ adds cfg s m := by
  cases moved hm with
  | mw | ap => simp [effects, adds]
  | accept hl hr | mwClosed hl hr => simp [effects, adds, MainLoop.todo, hl, hr]
  | fromMW hl hr hrun | fromAP hl hr hrun => simp [effects, adds, MainLoop.todo, hl, hr, hrun]
  | apGone hl hr =>
    obtain hr | ⟨q, hr⟩ := hr
    · simp [effects, adds, MainLoop.todo, hl, hr]
    · simp [effects, adds, MainLoop.todo, hl, hr]
  | commit hl | recv hl | toMW hl | toAP hl | finished hl | failed hl | closeMW hl | closeAP hl =>
    simp [effects, adds, MainLoop.todo, hl]

theorem messagesOf_effects {α : Type} (kind : Io → Option α) (hm : move cfg s m = .done s') :
    messagesOf kind s'.effects = messagesOf kind s.effects ++ messagesOf kind (adds cfg s m) := by
  rw [effects_move hm, messagesOf_append]

theorem reads_of_isMains (c : Connection) (m : Connection.Move) (hm : isMains m = true) :
    c.reads m = [] := by
  cases m with
  | packet ms => cases hm
  | _ => rfl

theorem handed_of_isMains (c : Connection) (m : Connection.Move) (hm : isMains m = true) :
    c.handed m = [] := by
  cases m with
  | written failed => cases hm
  | _ => rfl

/-- What the main loop receives from the MW server is what it handles. -/
theorem adds_fromMW (hm : move cfg s m = .done s') :
    messagesOf Io.fromMW? (adds cfg s m) =
      flow Mwproto.Client.move Mwproto.Client.receives s.mw (mwMoves s m) := by
  cases moved hm with
  | mw _ hn hc =>
    rw [mwMoves, flow_singleton hc, Mwproto.Client.receives_of_isOwners hn]
    rfl
  | accept _ hr => simp [adds, hr, mwMoves, flow, Room.openingTrace, messagesOf_io, Io.fromMW?]
  | mwClosed hl hr => simp [adds, hl, hr, mwMoves, flow]
  | fromMW hl hr hrun hc =>
    have hq := (Chan.receive_eq_got.mp hr).1
    simp only [adds, mwMoves, hl, hr]
    rw [messagesOf_handle (fun _ => fromMW?_of_isSent), flow_singleton hc,
      Mwproto.Client.receives, hq]
    rfl
  | apGone hl hr =>
    obtain hr | ⟨q, hr⟩ := hr
    · simp [adds, hl, hr, mwMoves, flow]
    · simp [adds, hl, hr, mwMoves, flow]
  | fromAP hl hr =>
    simp only [adds, mwMoves, hl, hr]
    rw [messagesOf_handle (fun _ => fromMW?_of_isSent)]
    rfl
  | toMW hl =>
    simp only [adds, mwMoves, hl]
    rw [flow_eq_nil_of_forall (by simp [Mwproto.Client.receives])]
    rfl
  | closeMW hl =>
    simp only [adds, mwMoves, hl]
    rw [flow_eq_nil_of_forall (by simp [Mwproto.Client.receives])]
    rfl
  | commit hl | recv hl | toAP hl | finished hl | failed hl | closeAP hl =>
    simp [adds, mwMoves, hl, flow]
  | ap => rfl

theorem takes_of_isMains {c : Connection} {m : Connection.Move} (hm : isMains m = false) :
    c.takes m = [] := by
  cases m with
  | receive => cases hm
  | _ => rfl

theorem plans_of_isMains {c : Connection} {m : Connection.Move} (hm : isMains m = false) :
    c.plans m = [] := by
  cases m with
  | accept | receive | receiveMW => cases hm
  | _ => rfl

/-- What the main loop receives from the AP client is what it handles. -/
theorem adds_fromAP (hm : move cfg s m = .done s') :
    messagesOf Io.fromAP? (adds cfg s m) =
      flow Connection.move Connection.takes s.ap (apMoves cfg s m) := by
  cases moved hm with
  | mw => rfl
  | ap hn hc =>
    rw [apMoves, flow_singleton hc, takes_of_isMains hn]
    rfl
  | accept hl hr hc =>
    simp only [adds, apMoves, hr]
    rw [flow_singleton hc]
    rfl
  | mwClosed hl hr hc =>
    simp only [adds, apMoves, hl, hr]
    rw [flow_singleton hc]
    rfl
  | fromMW hl hr hrun _ hd =>
    subst hrun
    simp only [adds, apMoves, hl, hr]
    rw [messagesOf_handle (fun _ => fromAP?_of_isSent), flow_singleton hd]
    rfl
  | apGone hl hr hc =>
    obtain hr | ⟨q, hr⟩ := hr
    · have hq := (Chan.receive_eq_closed.mp hr).1
      simp only [adds, apMoves, hl, hr]
      rw [flow_singleton hc, Connection.takes, hq]
      rfl
    · have hq := (Chan.receive_eq_got.mp hr).1
      simp only [adds, apMoves, hl, hr]
      rw [flow_singleton hc, Connection.takes, hq]
      rfl
  | fromAP hl hr hrun hd =>
    subst hrun
    have hq := (Chan.receive_eq_got.mp hr).1
    simp only [adds, apMoves, hl, hr]
    rw [messagesOf_handle (fun _ => fromAP?_of_isSent), flow_singleton hd, Connection.takes, hq]
    rfl
  | toAP hl hc | failed hl hc | closeAP hl hc =>
    simp only [adds, apMoves, hl]
    rw [flow_singleton hc]
    rfl
  | commit hl | recv hl | toMW hl | finished hl | closeMW hl => simp [adds, apMoves, hl, flow]

/-- What a handler says to the AP client is planned as a whole. -/
theorem adds_toAP (hm : move cfg s m = .done s') :
    messagesOf Io.toAP? (adds cfg s m) =
      flow Connection.move Connection.plans s.ap (apMoves cfg s m) := by
  cases moved hm with
  | mw => rfl
  | ap hn hc =>
    rw [apMoves, flow_singleton hc, plans_of_isMains hn]
    rfl
  | accept hl hr hc =>
    simp only [adds, apMoves, hr]
    rw [flow_singleton hc]
    rfl
  | mwClosed hl hr hc =>
    simp only [adds, apMoves, hl, hr]
    rw [flow_singleton hc]
    rfl
  | fromMW hl hr hrun _ hd =>
    subst hrun
    simp only [adds, apMoves, hl, hr]
    rw [flow_singleton hd, Connection.plans]
  | apGone hl hr hc =>
    obtain hr | ⟨q, hr⟩ := hr
    · simp only [adds, apMoves, hl, hr]
      rw [flow_singleton hc, Connection.plans, ite_self]
      rfl
    · simp only [adds, apMoves, hl, hr]
      rw [flow_singleton hc, Connection.plans, ite_self]
      rfl
  | fromAP hl hr hrun hd =>
    subst hrun
    have hq := (Chan.receive_eq_got.mp hr).1
    simp only [adds, apMoves, hl, hr]
    rw [flow_singleton hd, Connection.plans, hq]
    rfl
  | toAP hl hc | failed hl hc | closeAP hl hc =>
    simp only [adds, apMoves, hl]
    rw [flow_singleton hc]
    rfl
  | commit hl | recv hl | toMW hl | finished hl | closeMW hl => simp [adds, apMoves, hl, flow]

/-- What was said to the MW server is put in `outbox`, and the pings of the client beside
it. -/
theorem history_toMW (h : Sound s) (hm : move cfg s m = .done s') :
    messagesOf Io.toMW? s'.history = messagesOf Io.toMW? s.history ++
      flow Mwproto.Client.move (fun c m => (c.queues m).filter fun m => !m.isPing) s.mw
        (mwMoves s m) := by
  cases moved hm with
  | @mw m c _ hn hc =>
    rw [mwMoves, flow_singleton hc, Mwproto.Client.queues_of_isOwners hn, List.append_nil]
  | fromMW hl hr hrun hc =>
    simp only [mwMoves, hr]
    rw [flow_singleton hc]
    exact (List.append_nil _).symm
  | mwClosed hl hr => simp [mwMoves, hr, flow]
  | @toMW out t r c d hl hc hd =>
    have hsilent : out.isPing = false := by
      refine h.silent out ?_
      rw [hl, MainLoop.todo, messagesOf_io]
      exact List.mem_cons_self
    have hsending : c.owner = .sending out := by
      cases Mwproto.Client.moved hc
      rfl
    simp only [mwMoves, hl]
    rw [messagesOf_append, messagesOf_io, messagesOf_nil, flow, hc]
    dsimp only
    rw [flow_singleton hd]
    simp [Mwproto.Client.queues, Mwproto.Client.sends, hsending, hsilent, Io.toMW?]
  | closeMW hl hc =>
    simp only [mwMoves, hl]
    rw [flow_singleton hc]
    exact (List.append_nil _).symm
  | commit hl | recv hl | toAP hl =>
    simp [mwMoves, hl, flow, messagesOf_io, Io.toMW?]
  | finished hl | failed hl | closeAP hl => simp [mwMoves, hl, flow]
  | ap | accept | apGone | fromAP => exact (List.append_nil _).symm

end Effects

/-! ## Runs -/

section Runs

variable (cfg : Config) (db : Savefile) (ms : List Move)

theorem last_mw : last Mwproto.Client.move Mwproto.Client.dial
    (flow (move cfg) mwMoves (start db) ms) =
    (last (move cfg) (start db) ms).mw :=
  (component_mw cfg).last_flow (s := start db) ms

theorem last_ap :
    last Connection.move Connection.start (flow (move cfg) (apMoves cfg) (start db) ms) =
      (last (move cfg) (start db) ms).ap :=
  (component_ap cfg).last_flow (s := start db) ms

theorem flow_atMW {α : Type} (place : Mwproto.Client → Mwproto.Client.Move → List α)
    (hplace : ∀ c m, m.isOwners = true → place c m = []) :
    flow (move cfg) (atMW place) (start db) ms =
      flow Mwproto.Client.move place Mwproto.Client.dial (flow (move cfg) mwMoves (start db) ms) :=
  (component_mw cfg).flow_part (fun hm => flow_mw hplace hm) ms

theorem flow_atAP {α : Type} (place : Connection → Connection.Move → List α)
    (hplace : ∀ c m, isMains m = true → place c m = []) :
    flow (move cfg) (atAP place) (start db) ms =
      flow Connection.move place Connection.start (flow (move cfg) (apMoves cfg) (start db) ms) :=
  (component_ap cfg).flow_part (fun hm => flow_ap hplace hm) ms

theorem reads_mw :
    ((flow (move cfg) (atMW Mwproto.Client.reads) (start db) ms).filter fun m => !m.isPing) =
      messagesOf Io.fromMW? (last (move cfg) (start db) ms).effects ++
        (last (move cfg) (start db) ms).mw.incoming := by
  have hreceives := (component_mw cfg).flow_eq sound_move
    (fun _ hm => (messagesOf_effects Io.fromMW? hm).trans (by rw [adds_fromMW hm]))
    (sound_start db) ms
  rw [flow_atMW cfg db ms _ Mwproto.Client.reads_of_isOwners, hreceives, ← last_mw]
  exact Mwproto.Client.flow_reads _

theorem reads_ap :
    flow (move cfg) (atAP Connection.reads) (start db) ms =
      messagesOf Io.fromAP? (last (move cfg) (start db) ms).effects ++
        (last (move cfg) (start db) ms).ap.incoming := by
  have htakes := (component_ap cfg).flow_eq sound_move
    (fun _ hm => (messagesOf_effects Io.fromAP? hm).trans (by rw [adds_fromAP hm]))
    (sound_start db) ms
  rw [flow_atAP cfg db ms _ reads_of_isMains, htakes, ← last_ap]
  exact Connection.flow_reads _

theorem handed_mw :
    messagesOf Io.toMW? (last (move cfg) (start db) ms).history ++
        (if (last (move cfg) (start db) ms).mw.sendMessages.left = true then [.disconnect]
          else []) =
      (flow (move cfg) (atMW Mwproto.Client.handed) (start db) ms ++
        (last (move cfg) (start db) ms).mw.outgoing).filter fun m => !m.isPing := by
  have hqueues := (component_mw cfg).flow_eq sound_move (fun hs hm => history_toMW hs hm)
    (sound_start db) ms
  rw [flow_atMW cfg db ms _ Mwproto.Client.handed_of_isOwners, hqueues, ← last_mw]
  change flow _ _ Mwproto.Client.dial _ ++ _ = (flow _ _ Mwproto.Client.dial _ ++ _).filter _
  rw [← Mwproto.Client.flow_queues, ← flow_filter, List.filter_append]
  split <;> rfl

/-- Pings and the leave apart, the main loop has said what was handed to `Write` for the MW
server. -/
theorem said_of_handed {m : Message}
    (h : m ∈ flow (move cfg) (atMW Mwproto.Client.handed) (start db) ms) (hping : m.isPing = false)
    (hleave : m ≠ .disconnect) : .io (.toMW m) ∈ (last (move cfg) (start db) ms).history := by
  have hsaid : m ∈ (flow (move cfg) (atMW Mwproto.Client.handed) (start db) ms ++
      (last (move cfg) (start db) ms).mw.outgoing).filter fun m => !m.isPing :=
    List.mem_filter.mpr ⟨List.mem_append_left _ h, by rw [hping]; rfl⟩
  rw [← handed_mw, List.mem_append] at hsaid
  obtain hsaid | hsaid := hsaid
  · exact mem_of_toMW? hsaid
  · split at hsaid
    · exact absurd (List.mem_singleton.mp hsaid) hleave
    · cases hsaid

theorem handed_ap :
    messagesOf Io.toAP? (last (move cfg) (start db) ms).effects =
      flow (move cfg) (atAP Connection.handed) (start db) ms ++
        (last (move cfg) (start db) ms).ap.outgoing := by
  have hplans := (component_ap cfg).flow_eq sound_move
    (fun _ hm => (messagesOf_effects Io.toAP? hm).trans (by rw [adds_toAP hm]))
    (sound_start db) ms
  rw [flow_atAP cfg db ms _ handed_of_isMains, hplans, ← last_ap]
  exact Connection.flow_plans _

/-- What has been said to the AP client has been handed to `Write`, or is with the writer. -/
theorem history_toAP :
    messagesOf Io.toAP? (last (move cfg) (start db) ms).history =
      flow (move cfg) (atAP Connection.handed) (start db) ms ++
        ((last (move cfg) (start db) ms).ap.writer.inHand ++
          (last (move cfg) (start db) ms).ap.outbox.queue) := by
  have h : Sound (last (move cfg) (start db) ms) := last_keep sound_move (sound_start db) ms
  have htodo : (last (move cfg) (start db) ms).ap.main.inHand =
      messagesOf Io.toAP? (last (move cfg) (start db) ms).mainLoop.todo := by
    rw [h.main]
    cases (last (move cfg) (start db) ms).mainLoop <;> rfl
  have hhanded := handed_ap cfg db ms
  rw [effects, messagesOf_append, ← htodo, Connection.outgoing, ← List.append_assoc] at hhanded
  exact List.append_cancel_right hhanded

end Runs

theorem atMW_sublist (s : Proxy) (m : Move) :
    (atMW Mwproto.Client.writes s m).Sublist (atMW Mwproto.Client.handed s m) := by
  cases m with
  | mw m => exact Mwproto.Client.writes_sublist s.mw m
  | _ => exact .refl _

theorem atAP_sublist (s : Proxy) (m : Move) :
    (atAP Connection.writes s m).Sublist (atAP Connection.handed s m) := by
  cases m with
  | ap m => exact Connection.writes_sublist s.ap m
  | _ => exact .refl _

/-- What is read, pings apart, is handled in order, or on its way to the main loop; what
the main loop says is handed to `Write` in order, or on its way to it, and written, but for
the messages whose `Write` fails. -/
theorem transported (cfg : Config) (db : Savefile) (ms : List Move) :
    let s := last (move cfg) (start db) ms
    ((flow (move cfg) (atMW Mwproto.Client.reads) (start db) ms).filter fun m => !m.isPing) =
        messagesOf Io.fromMW? s.effects ++ s.mw.incoming ∧
      flow (move cfg) (atAP Connection.reads) (start db) ms =
        messagesOf Io.fromAP? s.effects ++ s.ap.incoming ∧
      messagesOf Io.toMW? s.history ++
          (if s.mw.sendMessages.left = true then [.disconnect] else []) =
        (flow (move cfg) (atMW Mwproto.Client.handed) (start db) ms ++ s.mw.outgoing).filter
          (fun m => !m.isPing) ∧
      messagesOf Io.toAP? s.effects =
        flow (move cfg) (atAP Connection.handed) (start db) ms ++ s.ap.outgoing ∧
      (flow (move cfg) (atMW Mwproto.Client.writes) (start db) ms).Sublist
        (flow (move cfg) (atMW Mwproto.Client.handed) (start db) ms) ∧
      (flow (move cfg) (atAP Connection.writes) (start db) ms).Sublist
        (flow (move cfg) (atAP Connection.handed) (start db) ms) :=
  ⟨reads_mw cfg db ms, reads_ap cfg db ms, handed_mw cfg db ms, handed_ap cfg db ms,
    flow_sublist atMW_sublist ms, flow_sublist atAP_sublist ms⟩

end Proxy

end Isthmus
