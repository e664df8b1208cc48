import Isthmus.Convert
import Isthmus.CreateSavefile
import Isthmus.Lib.Talks
import Isthmus.Mwproto.Transport
import Mathlib.Data.List.ReduceOption

/-!
# Setting up the multiworld

`setupMW` converts the seed, dials the MW server, enters the room, hands over the
placements when it is asked to, and waits for the result. The goroutines of the client
run beside it.

## Main definitions

- `setupMW`: the conversation with the MW server
- `SetupMW`: the conversation and the client that it is held through

## Main results

- `SetupMW.talks_in_turn`: what is heard was read, what is said goes to `Write`, in order
- `SetupMW.completes_iff`: which conversations end with a result
-/

namespace Isthmus

open Mwproto Channels Pipes Talks

inductive SetupError where
  | slots (n : Nat)
  | convert (e : ConvertError)
  | connectionLost
  deriving DecidableEq

/-- The text of the error. -/
def SetupError.text : SetupError → GoString
  | .slots n =>
    lit ".archipelago contains " ++ Strings.formatInt n ++ lit " slots, expected only one"
  | .convert e => lit "convert AP to MW: " ++ e.text
  | .connectionLost => lit "connection lost"

abbrev Conversation := Talk Message (Except SetupError ResultMessage)

def connectionLost : Conversation := .stop (.error .connectionLost)

/-! ## The conversation -/

def ignoredBeforeConnect : Message → Bool
  | .connect _ => false
  | _ => true

def ignoredWhileJoining : Message → Bool
  | .readyConfirm _ | .disconnect => false
  | _ => true

def ignoredInRoom : Message → Bool
  | .disconnect | .requestRando => false
  | _ => true

def ignoredBeforeResult : Message → Bool
  | .disconnect | .result _ => false
  | _ => true

def waitingForResult : Conversation :=
  .await ignoredBeforeResult fun
    | some (.result mwResult) => .stop (.ok mwResult)
    | _ => connectionLost

def randoGenerated (mwPlacements : List Placement) : Message :=
  .randoGenerated ⟨AList.singleton singularItemGroup mwPlacements, 666666666⟩

def waitingForStartMW (mwPlacements : List Placement) : Conversation :=
  .await ignoredInRoom fun
    | some .requestRando => .send (randoGenerated mwPlacements) waitingForResult
    | _ => connectionLost

def waitingToEnterRoom (mwPlacements : List Placement) : Conversation :=
  .await ignoredWhileJoining fun
    | some (.readyConfirm _) => waitingForStartMW mwPlacements
    | _ => connectionLost

def waitingToConnect (mwroom nickname : GoString) (mwPlacements : List Placement) :
    Conversation :=
  .await ignoredBeforeConnect fun
    | some _ => .send (.ready ⟨mwroom, nickname, 0, []⟩) (waitingToEnterRoom mwPlacements)
    | none => connectionLost

/-- The part of `setupMW` after `Dial`. -/
def converse (mwroom nickname : GoString) (mwPlacements : List Placement) : Conversation :=
  .send (.connect ⟨[]⟩) (waitingToConnect mwroom nickname mwPlacements)

def setupMW (mwroom : GoString) (data : Archipelago) : Except SetupError Conversation :=
  match data.slotInfo.entries with
  | [⟨_, slot⟩] =>
    match apToMWPlacements data with
    | .error e => .error (.convert e)
    | .ok mwPlacements => .ok (converse mwroom slot.name mwPlacements)
  | slots => .error (.slots slots.length)

theorem setupMW_ok {mwroom : GoString} {data : Archipelago} {t : Conversation}
    (h : setupMW mwroom data = .ok t) :
    ∃ nickname mwPlacements, apToMWPlacements data = .ok mwPlacements ∧
      t = converse mwroom nickname mwPlacements := by
  simp only [setupMW] at h
  split at h
  · next slot _ =>
    split at h
    · cases h
    · next mwPlacements hconv =>
      cases h
      exact ⟨slot.name, mwPlacements, hconv, rfl⟩
  · cases h

/-! ## How it ends -/

section Ends

variable {mwroom nickname : GoString} {mwPlacements : List Placement}
  {inbox : List (Option Message)} {out : List Message} {result : ResultMessage}

theorem run_waitingForResult_iff :
    waitingForResult.run inbox = (.stop (.ok result), out) ↔
      out = [] ∧ ∃ rest, First ignoredBeforeResult inbox (some (.result result)) rest := by
  rw [waitingForResult, run_await_eq_stop_iff]
  constructor
  · rintro ⟨o, rest, hfirst, hrun⟩
    split at hrun
    · cases hrun
      exact ⟨rfl, rest, hfirst⟩
    · cases hrun
  · rintro ⟨rfl, rest, hfirst⟩
    exact ⟨_, rest, hfirst, rfl⟩

theorem run_waitingForStartMW_iff :
    (waitingForStartMW mwPlacements).run inbox = (.stop (.ok result), out) ↔
      ∃ rest out', First ignoredInRoom inbox (some .requestRando) rest ∧
        out = randoGenerated mwPlacements :: out' ∧
          waitingForResult.run rest = (.stop (.ok result), out') := by
  rw [waitingForStartMW, run_await_eq_stop_iff]
  constructor
  · rintro ⟨o, rest, hfirst, hrun⟩
    split at hrun
    · obtain ⟨out', hout, hrun⟩ := run_send_eq_stop_iff.mp hrun
      exact ⟨rest, out', hfirst, hout, hrun⟩
    · cases hrun
  · rintro ⟨rest, out', hfirst, hout, hrun⟩
    exact ⟨_, rest, hfirst, run_send_eq_stop_iff.mpr ⟨out', hout, hrun⟩⟩

theorem run_waitingToEnterRoom_iff :
    (waitingToEnterRoom mwPlacements).run inbox = (.stop (.ok result), out) ↔
      ∃ m rest, First ignoredWhileJoining inbox (some (.readyConfirm m)) rest ∧
        (waitingForStartMW mwPlacements).run rest = (.stop (.ok result), out) := by
  rw [waitingToEnterRoom, run_await_eq_stop_iff]
  constructor
  · rintro ⟨o, rest, hfirst, hrun⟩
    split at hrun
    · next m => exact ⟨m, rest, hfirst, hrun⟩
    · cases hrun
  · rintro ⟨m, rest, hfirst, hrun⟩
    exact ⟨_, rest, hfirst, hrun⟩

theorem run_waitingToConnect_iff :
    (waitingToConnect mwroom nickname mwPlacements).run inbox = (.stop (.ok result), out) ↔
      ∃ m rest out', First ignoredBeforeConnect inbox (some (.connect m)) rest ∧
        out = .ready ⟨mwroom, nickname, 0, []⟩ :: out' ∧
          (waitingToEnterRoom mwPlacements).run rest = (.stop (.ok result), out') := by
  rw [waitingToConnect, run_await_eq_stop_iff]
  constructor
  · rintro ⟨o, rest, hfirst, hrun⟩
    split at hrun
    · next m =>
      obtain ⟨out', hout, hrun⟩ := run_send_eq_stop_iff.mp hrun
      cases m with
      | connect m => exact ⟨m, rest, out', hfirst, hout, hrun⟩
      | _ => cases hfirst.1
    · cases hrun
  · rintro ⟨m, rest, out', hfirst, hout, hrun⟩
    exact ⟨_, rest, hfirst, run_send_eq_stop_iff.mpr ⟨out', hout, hrun⟩⟩

/-- The messages that set up a multiworld: the greeting, the room, the request for the
placements and the result. Others in between have no effect, but `Disconnect` has. -/
def Completes (inbox : List (Option Message)) (result : ResultMessage) : Prop :=
  ∃ greeting room r₁ r₂ r₃ r₄,
    First ignoredBeforeConnect inbox (some (.connect greeting)) r₁ ∧
    First ignoredWhileJoining r₁ (some (.readyConfirm room)) r₂ ∧
    First ignoredInRoom r₂ (some .requestRando) r₃ ∧
    First ignoredBeforeResult r₃ (some (.result result)) r₄

/-- What is said when it does. -/
def saidToComplete (mwroom nickname : GoString) (mwPlacements : List Placement) :
    List Message :=
  [.connect ⟨[]⟩, .ready ⟨mwroom, nickname, 0, []⟩, randoGenerated mwPlacements]

theorem run_converse_iff :
    (converse mwroom nickname mwPlacements).run inbox = (.stop (.ok result), out) ↔
      Completes inbox result ∧ out = saidToComplete mwroom nickname mwPlacements := by
  rw [converse, run_send_eq_stop_iff]
  constructor
  · rintro ⟨out', rfl, hrun⟩
    obtain ⟨greeting, r₁, out₁, hgreeting, hout₁, hrun₁⟩ := run_waitingToConnect_iff.mp hrun
    obtain ⟨room, r₂, hroom, hrun₂⟩ := run_waitingToEnterRoom_iff.mp hrun₁
    obtain ⟨r₃, out₃, hrequest, hout₃, hrun₃⟩ := run_waitingForStartMW_iff.mp hrun₂
    obtain ⟨rfl, r₄, hresult⟩ := run_waitingForResult_iff.mp hrun₃
    refine ⟨⟨greeting, room, r₁, r₂, r₃, r₄, hgreeting, hroom, hrequest, hresult⟩, ?_⟩
    rw [saidToComplete, hout₁, hout₃]
  · rintro ⟨⟨greeting, room, r₁, r₂, r₃, r₄, hgreeting, hroom, hrequest, hresult⟩, rfl⟩
    refine ⟨_, rfl, run_waitingToConnect_iff.mpr ⟨greeting, r₁, _, hgreeting, rfl, ?_⟩⟩
    refine run_waitingToEnterRoom_iff.mpr ⟨room, r₂, hroom, ?_⟩
    refine run_waitingForStartMW_iff.mpr ⟨r₃, [], hrequest, rfl, ?_⟩
    exact run_waitingForResult_iff.mpr ⟨rfl, r₄, hresult⟩

end Ends

/-! ## With the goroutines of the client -/

structure SetupMW where
  mw : Mwproto.Client
  talk : Conversation

namespace SetupMW

/-- After `Dial`. -/
def start (talk : Conversation) : SetupMW := ⟨.dial, talk⟩

inductive Move where
  | mw (m : Mwproto.Client.Move)
  | send
  | receive
  | close

def move (s : SetupMW) : Move → Outcome SetupMW
  | .mw m => if m.isOwners then .blocked else (s.mw.move m).map fun c => { s with mw := c }
  | .send =>
    match s.talk with
    | .send m next =>
      (s.mw.move (.send m)).bind fun c => (c.move .sent).map fun c => ⟨c, next⟩
    | _ => .blocked
  | .receive =>
    match s.talk with
    | .await _ _ =>
      match s.mw.inbox.receive with
      | .blocked => .blocked
      | .closed => .done { s with talk := s.talk.receive none }
      | .got m _ => (s.mw.move .receive).map fun c => ⟨c, s.talk.receive (some m)⟩
    | _ => .blocked
  -- deferred, when `createSavefile` has returned
  | .close =>
    match s.talk with
    | .stop _ => (s.mw.move .close).map fun c => { s with mw := c }
    | _ => .blocked

/-- The moves of the client that a move is made up of. -/
def mwMoves (s : SetupMW) : Move → List Mwproto.Client.Move
  | .mw m => [m]
  | .send =>
    match s.talk with
    | .send m _ => [.send m, .sent]
    | _ => []
  | .receive =>
    match s.mw.inbox.receive with
    | .got _ _ => [.receive]
    | _ => []
  | .close => [.close]

/-- What is heard or said in a move. -/
def talked (s : SetupMW) : Move → List (Turn Message)
  | .send =>
    match s.talk with
    | .send m _ => [.said m]
    | _ => []
  | .receive =>
    match s.mw.inbox.receive with
    | .got m _ => [.heard (some m)]
    | _ => [.heard none]
  | _ => []

/-- What passes at a place of the client. -/
def atMW {α : Type} (place : Mwproto.Client → Mwproto.Client.Move → List α) (s : SetupMW) :
    Move → List α
  | .mw m => place s.mw m
  | _ => []

/-- The moves that are made, each with where it is made and what it changes. -/
inductive Moved (s : SetupMW) : Move → SetupMW → Prop
  | mw {m c} (hm : m.isOwners = false) (hc : s.mw.move m = .done c) :
      Moved s (.mw m) { s with mw := c }
  | send {m next c d} (ht : s.talk = .send m next) (hc : s.mw.move (.send m) = .done c)
      (hd : c.move .sent = .done d) :
      Moved s .send ⟨d, next⟩
  | ended {passes next} (ht : s.talk = .await passes next) (hr : s.mw.inbox.receive = .closed) :
      Moved s .receive { s with talk := s.talk.receive none }
  | receive {passes next m q c} (ht : s.talk = .await passes next)
      (hr : s.mw.inbox.receive = .got m q) (hc : s.mw.move .receive = .done c) :
      Moved s .receive ⟨c, s.talk.receive (some m)⟩
  | close {r c} (ht : s.talk = .stop r) (hc : s.mw.move .close = .done c) :
      Moved s .close { s with mw := c }

section Moves

variable {s s' : SetupMW} {m : Move}

theorem moved (h : move s m = .done s') : Moved s m s' := by
  cases m with
  | mw m =>
    simp only [move] at h
    split at h
    · cases h
    · next hm =>
      obtain ⟨c, hc, rfl⟩ := Outcome.map_eq_done.mp h
      exact .mw (Bool.not_eq_true _ ▸ hm) hc
  | send =>
    simp only [move] at h
    split at h
    · next ht =>
      obtain ⟨c, hc, h⟩ := Outcome.bind_eq_done.mp h
      obtain ⟨d, hd, rfl⟩ := Outcome.map_eq_done.mp h
      exact .send ht hc hd
    · cases h
  | receive =>
    simp only [move] at h
    split at h
    · next ht =>
      split at h
      · cases h
      · next hr =>
        cases h
        exact .ended ht hr
      · next hr =>
        obtain ⟨c, hc, rfl⟩ := Outcome.map_eq_done.mp h
        exact .receive ht hr hc
    · cases h
  | close =>
    simp only [move] at h
    split at h
    · next ht =>
      obtain ⟨c, hc, rfl⟩ := Outcome.map_eq_done.mp h
      exact .close ht hc
    · cases h

theorem component_mw : Component move Mwproto.Client.move mw mwMoves where
  run {s s' m} h := by
    cases moved h with
    | mw _ hc => simp [mwMoves, advance, Outcome.next, hc]
    | send ht hc hd => simp [mwMoves, advance, Outcome.next, ht, hc, hd]
    | ended _ hr => simp [mwMoves, hr]
    | receive _ hr hc => simp [mwMoves, advance, Outcome.next, hr, hc]
    | close _ hc => simp [mwMoves, advance, Outcome.next, hc]

/-- The conversation goes on by what is heard and said. -/
theorem follows_move {t : Conversation} {l : List (Turn Message)} (h : Follows t l s.talk)
    (hm : move s m = .done s') : Follows t (l ++ talked s m) s'.talk := by
  cases moved hm with
  | mw | close =>
    rw [talked, List.append_nil]
    · exact h
    all_goals exact nofun
  | send ht =>
    rw [ht] at h
    simp only [talked, ht]
    exact h.say
  | ended ht hr =>
    rw [ht] at h
    simp only [talked, hr, ht]
    exact h.hear none
  | receive ht hr =>
    rw [ht] at h
    simp only [talked, hr, ht]
    exact h.hear _

/-- What is said is no ping, and it is not the last thing that is done. -/
def Sound (s : SetupMW) : Prop :=
  s.talk.Sends fun m next => m.isPing = false ∧ ∀ r, next ≠ .stop r

theorem sound_start (mwroom nickname : GoString) (mwPlacements : List Placement) :
    Sound (start (converse mwroom nickname mwPlacements)) := by
  refine ⟨⟨rfl, fun r => by simp [waitingToConnect]⟩, fun o => ?_⟩
  dsimp only
  split
  · refine ⟨⟨rfl, fun r => by simp [waitingToEnterRoom]⟩, fun o => ?_⟩
    dsimp only
    split
    · intro o
      dsimp only
      split
      · refine ⟨⟨rfl, fun r => by simp [waitingForResult]⟩, fun o => ?_⟩
        dsimp only
        split <;> trivial
      · trivial
    · trivial
  · trivial

theorem sound_move (h : Sound s) (hm : move s m = .done s') : Sound s' := by
  cases moved hm with
  | mw | close => exact h
  | send ht =>
    rw [Sound, ht] at h
    exact h.2
  | ended | receive => exact sends_receive h _

/-- What is heard is what the owner of the client receives. -/
theorem heard_talked (hm : move s m = .done s') :
    (heard (talked s m)).reduceOption =
      flow Mwproto.Client.move Mwproto.Client.receives s.mw (mwMoves s m) := by
  cases moved hm with
  | mw hn hc =>
    rw [mwMoves, flow_singleton hc, Mwproto.Client.receives_of_isOwners hn]
    rfl
  | send ht =>
    simp only [talked, mwMoves, ht]
    rw [flow_eq_nil_of_forall (by simp [Mwproto.Client.receives])]
    rfl
  | ended _ hr =>
    simp only [talked, mwMoves, hr]
    rfl
  | receive _ hr hc =>
    have hq := (Chan.receive_eq_got.mp hr).1
    simp only [talked, mwMoves, hr]
    rw [flow_singleton hc, Mwproto.Client.receives, hq]
    rfl
  | close _ hc =>
    rw [mwMoves, flow_singleton hc]
    rfl

/-- What is said is put in `outbox`, and the pings of the client beside it. -/
theorem said_talked (h : Sound s) (hm : move s m = .done s') :
    said (talked s m) =
      flow Mwproto.Client.move (fun c m => (c.queues m).filter fun m => !m.isPing) s.mw
        (mwMoves s m) := by
  cases moved hm with
  | mw hn hc =>
    rw [mwMoves, flow_singleton hc, Mwproto.Client.queues_of_isOwners hn]
    rfl
  | @send out next c d ht hc hd =>
    rw [Sound, ht] at h
    have hsending : c.owner = .sending out := by
      cases Mwproto.Client.moved hc
      rfl
    simp only [talked, mwMoves, ht]
    rw [flow, hc]
    dsimp only
    rw [flow_singleton hd]
    simp [said, Mwproto.Client.queues, Mwproto.Client.sends, hsending, h.1.1]
  | ended _ hr => simp [talked, mwMoves, hr, said, flow]
  | receive _ hr hc =>
    simp only [talked, mwMoves, hr]
    rw [flow_singleton hc]
    rfl
  | close _ hc =>
    rw [mwMoves, flow_singleton hc]
    rfl

/-- The moves of the conversation in the client are those of its owner. -/
theorem isOwners_of_mem {i : Mwproto.Client.Move} (hm : ∀ m', m ≠ .mw m') (hi : i ∈ mwMoves s m) :
    i.isOwners = true := by
  cases m with
  | mw m => exact absurd rfl (hm m)
  | send | receive =>
    simp only [mwMoves] at hi
    split at hi
    · simp only [List.mem_cons, List.not_mem_nil, or_false] at hi
      obtain rfl | rfl := hi <;> rfl
    · cases hi
  | close =>
    rw [List.mem_singleton.mp hi]
    rfl

/-- What only the goroutines of the client let pass. -/
theorem atMW_eq_flow {α : Type} {place : Mwproto.Client → Mwproto.Client.Move → List α}
    (hplace : ∀ c m, m.isOwners = true → place c m = []) (hm : move s m = .done s') :
    atMW place s m = flow Mwproto.Client.move place s.mw (mwMoves s m) := by
  cases m with
  | mw m =>
    cases moved hm with
    | mw _ hc => exact (flow_singleton hc).symm
  | _ =>
    refine (flow_eq_nil_of_forall fun i hi c => hplace c i ?_).symm
    exact isOwners_of_mem (by simp) hi

end Moves

/-! ## Runs -/

section Runs

variable {t : Conversation} (ms : List Move)

theorem last_mw : last Mwproto.Client.move Mwproto.Client.dial (flow move mwMoves (start t) ms) =
    (last move (start t) ms).mw :=
  component_mw.last_flow (s := start t) ms

theorem follows_run : Follows t (flow move talked (start t) ms) (last move (start t) ms).talk := by
  have hkeep : ∀ {s s' m l}, Follows t l s.talk → move s m = .done s' →
      Follows t (l ++ talked s m) s'.talk := fun h hm => follows_move h hm
  have hstart : Follows t [] (start t).talk := follows_nil t
  exact flow_keep (P := fun (s : SetupMW) l => Follows t l s.talk) hkeep hstart ms

theorem reads_run :
    ((flow move (atMW Mwproto.Client.reads) (start t) ms).filter fun m => !m.isPing) =
      (heard (flow move talked (start t) ms)).reduceOption ++
        (last move (start t) ms).mw.incoming := by
  have hheard : (heard (flow move talked (start t) ms)).reduceOption =
      flow Mwproto.Client.move Mwproto.Client.receives Mwproto.Client.dial
        (flow move mwMoves (start t) ms) := by
    rw [flow_hom (f := fun l => (heard l).reduceOption) rfl
      fun l l' => by rw [heard_append, List.reduceOption_append]]
    exact component_mw.flow_part heard_talked ms
  rw [component_mw.flow_part (atMW_eq_flow Mwproto.Client.reads_of_isOwners) ms, hheard, ← last_mw]
  exact Mwproto.Client.flow_reads _

theorem handed_run (ht : Sound (start t)) :
    said (flow move talked (start t) ms) ++
        (if (last move (start t) ms).mw.sendMessages.left = true then [.disconnect] else []) =
      (flow move (atMW Mwproto.Client.handed) (start t) ms ++
        (last move (start t) ms).mw.outgoing).filter fun m => !m.isPing := by
  have hsaid : said (flow move talked (start t) ms) =
      flow Mwproto.Client.move (fun c m => (c.queues m).filter fun m => !m.isPing)
        Mwproto.Client.dial (flow move mwMoves (start t) ms) := by
    rw [flow_hom (f := said) rfl said_append]
    exact component_mw.flow_part_of_sound sound_move said_talked ht ms
  rw [component_mw.flow_part (atMW_eq_flow Mwproto.Client.handed_of_isOwners) ms, hsaid, ← last_mw]
  change flow _ _ Mwproto.Client.dial _ ++ _ = (flow _ _ Mwproto.Client.dial _ ++ _).filter _
  rw [← Mwproto.Client.flow_queues, ← flow_filter, List.filter_append]
  split <;> rfl

end Runs

theorem atMW_sublist (s : SetupMW) (m : Move) :
    (atMW Mwproto.Client.writes s m).Sublist (atMW Mwproto.Client.handed s m) := by
  cases m with
  | mw m => exact Mwproto.Client.writes_sublist s.mw m
  | _ => exact .refl _

/-- What is heard was read, in order and but for the pings; what is said is handed to `Write`,
in order, and written, but for the messages whose `Write` fails; and it depends on nothing
but what was heard. -/
theorem talks_in_turn (mwroom nickname : GoString) (mwPlacements : List Placement)
    (ms : List Move) :
    let t := converse mwroom nickname mwPlacements
    let s := last move (start t) ms
    let l := flow move talked (start t) ms
    ((flow move (atMW Mwproto.Client.reads) (start t) ms).filter fun m => !m.isPing) =
        (heard l).reduceOption ++ s.mw.incoming ∧
      said l ++ (if s.mw.sendMessages.left = true then [.disconnect] else []) =
        (flow move (atMW Mwproto.Client.handed) (start t) ms ++ s.mw.outgoing).filter
          (fun m => !m.isPing) ∧
      (flow move (atMW Mwproto.Client.writes) (start t) ms).Sublist
        (flow move (atMW Mwproto.Client.handed) (start t) ms) ∧
      Follows t l s.talk :=
  ⟨reads_run ms, handed_run ms (sound_start mwroom nickname mwPlacements),
    flow_sublist atMW_sublist ms, follows_run ms⟩

theorem stopped_iff (mwroom nickname : GoString) (mwPlacements : List Placement)
    (ms : List Move) (r : Except SetupError ResultMessage) :
    (last move (start (converse mwroom nickname mwPlacements)) ms).talk = .stop r ↔
      ((converse mwroom nickname mwPlacements).run (heard
        (flow move talked (start (converse mwroom nickname mwPlacements)) ms))).1 = .stop r := by
  have hfollows : Follows (converse mwroom nickname mwPlacements) _ _ := follows_run ms
  have hsound : Sound (last move (start (converse mwroom nickname mwPlacements)) ms) :=
    last_keep sound_move (sound_start mwroom nickname mwPlacements) ms
  rw [hfollows]
  constructor
  · intro h
    rw [h]
    rfl
  · intro h
    exact eq_stop_of_run_nil (sends_mono (fun _ _ hs => hs.2) hsound) h

/-- What was said to the server by the time that there is a result. -/
theorem said_of_stopped {mwroom nickname : GoString} {mwPlacements : List Placement}
    {ms : List Move} {result : ResultMessage}
    (h : (last move (start (converse mwroom nickname mwPlacements)) ms).talk =
      .stop (.ok result)) :
    said (flow move talked (start (converse mwroom nickname mwPlacements)) ms) =
      saidToComplete mwroom nickname mwPlacements := by
  have hfollows : Follows (converse mwroom nickname mwPlacements) _ _ := follows_run ms
  rw [h] at hfollows
  exact (run_converse_iff.mp hfollows.stopped).2

/-- A result is reached exactly where the server has sent the four messages in their
order, and by then the room was entered and the placements handed over. -/
theorem completes_iff (mwroom nickname : GoString) (mwPlacements : List Placement)
    (ms : List Move) (result : ResultMessage) :
    let t := converse mwroom nickname mwPlacements
    let l := flow move talked (start t) ms
    ((last move (start t) ms).talk = .stop (.ok result) ↔ Completes (heard l) result) ∧
      (Completes (heard l) result → said l = saidToComplete mwroom nickname mwPlacements) := by
  intro t l
  have hiff : (last move (start t) ms).talk = .stop (.ok result) ↔
      Completes (heard l) result := by
    rw [stopped_iff]
    constructor
    · intro h
      exact (run_converse_iff.mp (Prod.ext h rfl)).1
    · intro h
      rw [run_converse_iff.mpr ⟨h, rfl⟩]
  exact ⟨hiff, fun h => said_of_stopped (hiff.mpr h)⟩

end SetupMW

end Isthmus
