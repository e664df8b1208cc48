import Isthmus.Approto.Connection
import Isthmus.Go.Values

/-!
# The server for AP clients

Each client that connects is handled by a call of `handleConnection`, any number of
them at once. A call goes on only after it has raised `numConnections` from 0 to 1; it
then hands its connection to the main loop through `connections`, which holds one, and
from there it is a `Connection`, until it gives the slot back.

## Main definitions

- `Server`: the counter, the channel, the calls, and where the main loop stands
- `Server.move`: the moves of the calls and of the main loop
- `Server.Moved`: the moves that are made, as rules
-/

namespace Isthmus.Approto

open Channels

/-! ## `atomic.Int32` -/

/-- The new value, and whether it was swapped. -/
def compareAndSwap (x old new : Int) : Int × Bool := if x = old then (new, true) else (x, false)

def atomicAdd (x delta : Int) : Int := toInt32 (x + delta)

/-! ## The server -/

namespace Server

/-- Where a call of `handleConnection` stands. -/
inductive Call where
  | upgrading
  | loading
  | swapping (n : Int)
  | rejected
  | admitted (c : Connection)
  | returned

end Server

/-- A connection is called after the call that made it, and a call after the number of
calls before it. `serving` is the connection that the main loop has accepted and not yet
closed, and `accepted` what `Accept` has returned. -/
structure Server where
  numConnections : Int
  connections : Chan Nat 1
  calls : List Server.Call
  serving : Option Nat
  accepted : List Nat

namespace Server

/-- `Serve`. -/
def serve : Server := ⟨0, .empty, [], none, []⟩

inductive Move where
  | connect
  | upgrade (i : Nat) (ok : Bool)
  | load (i : Nat)
  | swap (i : Nat)
  | closeNow (i : Nat)
  | session (i : Nat) (m : Connection.Move)

def setCall (s : Server) (i : Nat) (a : Call) : Server := { s with calls := s.calls.set i a }

/-- What a move of connection `i` does to what it shares with the others. -/
def shared (s : Server) (i : Nat) : Connection.Move → Outcome Server
  | .offer => (s.connections.send i).map fun q => { s with connections := q }
  | .accept _ =>
    match s.serving with
    | some _ => .blocked
    | none =>
      match s.connections.receive with
      | .got j q =>
        if j = i then
          .done { s with connections := q, serving := some i, accepted := s.accepted ++ [i] }
        else .blocked
      | _ => .blocked
  | .release => .done { s with numConnections := atomicAdd s.numConnections (-1) }
  | .leave => .done { s with serving := none }
  | _ => .done s

def move (s : Server) : Move → Outcome Server
  | .connect => .done { s with calls := s.calls ++ [.upgrading] }
  | .upgrade i ok =>
    match s.calls[i]? with
    | some .upgrading => .done (s.setCall i (if ok then .loading else .returned))
    | _ => .blocked
  | .load i =>
    match s.calls[i]? with
    | some .loading =>
      -- without a compare-and-swap if there is a client
      .done (s.setCall i (if s.numConnections = 0 then .swapping s.numConnections else .rejected))
    | _ => .blocked
  | .swap i =>
    match s.calls[i]? with
    | some (.swapping n) =>
      match compareAndSwap s.numConnections n (toInt32 (n + 1)) with
      | (x, true) => .done ({ s with numConnections := x }.setCall i (.admitted .start))
      | (x, false) => .done ({ s with numConnections := x }.setCall i .rejected)
    | _ => .blocked
  | .closeNow i =>
    match s.calls[i]? with
    | some .rejected => .done (s.setCall i .returned)
    | _ => .blocked
  | .session i m =>
    match s.calls[i]? with
    | some (.admitted c) =>
      match c.move m with
      | .blocked => .blocked
      | .panic => .panic
      | .done c' => (s.shared i m).map fun s' => s'.setCall i (.admitted c')
    | _ => .blocked

/-- What such moves change, and that the others change nothing. -/
inductive Shared (s : Server) (i : Nat) : Connection.Move → Server → Prop
  | offer {q} (hq : s.connections.send i = .done q) :
      Shared s i .offer { s with connections := q }
  | accept {roomInfo q} (hn : s.serving = none) (hq : s.connections.receive = .got i q) :
      Shared s i (.accept roomInfo)
        { s with connections := q, serving := some i, accepted := s.accepted ++ [i] }
  | release : Shared s i .release { s with numConnections := atomicAdd s.numConnections (-1) }
  | leave : Shared s i .leave { s with serving := none }
  | other {m} (hm : m ≠ .offer ∧ (∀ roomInfo, m ≠ .accept roomInfo) ∧ m ≠ .release ∧ m ≠ .leave) :
      Shared s i m s

/-- The moves that are made. -/
inductive Moved (s : Server) : Move → Server → Prop
  | connect : Moved s .connect { s with calls := s.calls ++ [.upgrading] }
  | upgraded {i} (ha : s.calls[i]? = some .upgrading) :
      Moved s (.upgrade i true) (s.setCall i .loading)
  | refused {i} (ha : s.calls[i]? = some .upgrading) :
      Moved s (.upgrade i false) (s.setCall i .returned)
  | load {i} (ha : s.calls[i]? = some .loading) (hn : s.numConnections = 0) :
      Moved s (.load i) (s.setCall i (.swapping 0))
  | loadBusy {i} (ha : s.calls[i]? = some .loading) (hn : s.numConnections ≠ 0) :
      Moved s (.load i) (s.setCall i .rejected)
  | swap {i n} (ha : s.calls[i]? = some (.swapping n)) (hn : s.numConnections = n) :
      Moved s (.swap i)
        ({ s with numConnections := toInt32 (n + 1) }.setCall i (.admitted .start))
  | swapBusy {i n} (ha : s.calls[i]? = some (.swapping n)) (hn : s.numConnections ≠ n) :
      Moved s (.swap i) (s.setCall i .rejected)
  | closeNow {i} (ha : s.calls[i]? = some .rejected) : Moved s (.closeNow i) (s.setCall i .returned)
  | session {i c c' m s₁} (ha : s.calls[i]? = some (.admitted c)) (hm : c.move m = .done c')
      (hs : Shared s i m s₁) : Moved s (.session i m) (s₁.setCall i (.admitted c'))

variable {s s' : Server} {m : Move}

theorem shared_done {i : Nat} {m : Connection.Move} (h : s.shared i m = .done s') :
    Shared s i m s' := by
  cases m with
  | offer =>
    obtain ⟨q, hq, rfl⟩ := Outcome.map_eq_done.mp h
    exact .offer hq
  | accept roomInfo =>
    simp only [shared] at h
    split at h
    · cases h
    · next hn =>
      split at h
      · next j q hq =>
        split at h
        · next hj =>
          cases h
          exact .accept hn (hj ▸ hq)
        · cases h
      · cases h
  | release =>
    cases h
    exact .release
  | leave =>
    cases h
    exact .leave
  | _ =>
    cases h
    exact .other (by simp)

theorem moved (h : move s m = .done s') : Moved s m s' := by
  cases m with
  | connect =>
    cases h
    exact .connect
  | upgrade i ok =>
    simp only [move] at h
    split at h
    · next ha =>
      cases h
      cases ok with
      | true => exact .upgraded ha
      | false => exact .refused ha
    · cases h
  | load i =>
    simp only [move] at h
    split at h
    · next ha =>
      cases h
      split
      · next hn =>
        rw [hn]
        exact .load ha hn
      · next hn => exact .loadBusy ha hn
    · cases h
  | swap i =>
    simp only [move] at h
    split at h
    · next n ha =>
      simp only [compareAndSwap] at h
      by_cases hn : s.numConnections = n
      · rw [if_pos hn] at h
        cases h
        exact .swap ha hn
      · rw [if_neg hn] at h
        cases h
        exact .swapBusy ha hn
    · cases h
  | closeNow i =>
    simp only [move] at h
    split at h
    · next ha =>
      cases h
      exact .closeNow ha
    · cases h
  | session i m =>
    simp only [move] at h
    split at h
    · next c ha =>
      cases hm : c.move m with
      | blocked | panic =>
        rw [hm] at h
        cases h
      | done c' =>
        rw [hm] at h
        obtain ⟨s₁, hs, rfl⟩ := Outcome.map_eq_done.mp h
        exact .session ha hm (shared_done hs)
    · cases h

end Server

end Isthmus.Approto
