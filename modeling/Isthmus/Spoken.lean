import Isthmus.Lib.Triples
import Isthmus.Steps
import Isthmus.Mwproto.Transport

/-!
# What the handlers say

A step of the loop receives one message and then only sends. It sends no ping to the MW
server, and does not take leave of it: the goroutines of the client do. Only a `Set` and
a `Get` have to do with the data storage.

## Main results

- `messages_handle`: the messages of a step
- `apart_handle`: the effects of a step on another message
-/

namespace Isthmus

open Process Mwproto Approto

/-- What a handler may exchange. -/
def Io.isSent : Io → Bool
  | .recv _ => false
  | .toMW m => !m.isPing
  | .toAP _ => true

def isSpoken : Effect Commit Io → Bool
  | .commit _ => true
  | .io m => m.isSent

/-- The effect has to do with the data storage. -/
def isOfStorage : Effect Commit Io → Bool
  | .commit (.setStoredData _ _) => true
  | .io (.toAP (.setReply _ _ _ _)) | .io (.toAP (.retrieved _ _)) => true
  | _ => false

abbrev Speaks {α : Type} (p : Handler α) (Q : α → Prop) : Prop :=
  p.Triple (.only fun e => isSpoken e = true) Q

/-- The handler keeps apart from the data storage. -/
abbrev Apart {α : Type} (p : Handler α) (Q : α → Prop) : Prop :=
  p.Triple (.only fun e => isSpoken e = true ∧ isOfStorage e = false) Q

theorem Apart.speaks {α : Type} {p : Handler α} {Q : α → Prop} (h : Apart p Q) : Speaks p Q :=
  h.mono (fun _ h => h) (fun _ he => he.1) fun _ hQ => hQ

open Proc.Triple

section Handlers

variable (cfg : Config) (env : Env) (sess : Session)

theorem apart_commit {c : Commit} (h : isOfStorage (.commit c) = false) :
    Apart (.commit c : Handler Unit) fun _ => True :=
  commit ⟨rfl, h⟩

theorem apart_emit {m : Io} (hsent : m.isSent = true) (h : isOfStorage (.io m) = false) :
    Apart (.emit m : Handler Unit) fun _ => True :=
  emit ⟨hsent, h⟩

theorem apart_addSentItems (items : List (NetworkItem × Origin)) :
    Apart (addSentItems items : Handler Int) fun _ => True :=
  bind read fun _ _ => bind (apart_commit rfl) fun _ _ => pure trivial

theorem apart_notify (flag : ItemHandlingMode) (index : Int) (items : List NetworkItem) :
    Apart (sess.notify flag index items) fun _ => True :=
  ite (apart_emit rfl rfl) (pure trivial)

theorem apart_receiveItems (fromID : Int) (items : List DataReceiveItem) :
    Apart (receiveItems cfg env sess fromID items) fun _ => True := by
  induction items with
  | nil => exact pure trivial
  | cons item items ih =>
    refine ite ih (bind read fun duplicate _ => ite ih ?_)
    refine bind query fun sentItem _ => bind (apart_commit rfl) fun _ _ => ?_
    exact bind ih fun _ _ => pure trivial

theorem apart_handleMW (m : Message) : Apart (handleMW cfg env sess m) fun _ => True := by
  cases m with
  | joinConfirm => exact bind read fun items _ => forEach fun it _ => apart_emit rfl rfl
  | dataReceive m =>
    refine ite (pure trivial) (ite (pure trivial) (bind read fun duplicate _ => ?_))
    refine ite (pure trivial) ?_
    refine bind query fun item _ => bind (apart_addSentItems _) fun index _ => ?_
    refine bind (apart_notify sess _ _ _) fun _ _ => bind (apart_emit rfl rfl) fun _ _ => ?_
    exact bind (apart_commit rfl) fun _ _ => apart_emit rfl rfl
  | datasReceive m =>
    refine bind (apart_receiveItems cfg env sess _ _) fun items _ => ?_
    refine bind (apart_addSentItems _) fun index _ => bind (apart_notify sess _ _ _) fun _ _ => ?_
    exact bind (apart_emit rfl rfl) fun _ _ => apart_emit rfl rfl
  | dataSendConfirm m =>
    rw [handleMW]
    exact apart_commit rfl
  | requestCharmNotchCosts => exact apart_emit rfl rfl
  | announceCharmNotchCosts m => exact apart_emit rfl rfl
  | _ => exact pure trivial

theorem apart_handleSay (text : GoString) :
    Apart (handleSay cfg env sess text) fun _ => True := by
  refine ite ?_ (ite ?_ (pure trivial))
  · refine bind query fun items _ => bind (apart_addSentItems _) fun index _ => ?_
    exact apart_emit rfl rfl
  · refine bind read fun messages _ => bind (apart_commit rfl) fun _ _ => ?_
    exact bind (apart_commit rfl) fun _ _ => forEach fun p _ => apart_emit rfl rfl

theorem apart_checkLocation (locID : Int) :
    Apart (checkLocation cfg env sess locID) fun _ => True := by
  have hown : ∀ item, Apart (dispatchOwn sess item locID) fun _ => True := fun item =>
    bind (apart_addSentItems _) fun index _ => apart_notify sess _ _ _
  have hforeign : ∀ msg, Apart (dispatchForeign env msg locID) fun _ => True := fun msg =>
    bind (apart_commit rfl) fun _ _ => apart_emit rfl rfl
  refine bind read fun checked _ => ite (pure trivial) ?_
  refine bind read fun placed _ => ?_
  cases placed with
  | some p =>
    refine ite (bind (hown _) fun _ _ => apart_commit rfl) ?_
    exact bind (hforeign _) fun _ _ => apart_commit rfl
  | none =>
    refine ite ?_ (pure trivial)
    cases sess.localItem cfg locID with
    | none => exact pure trivial
    | some item => exact bind (hown item) fun _ _ => apart_commit rfl

/-- The keys that are watched from now on. -/
def Session.Watches (sess : Session) (sess' : Session) : Prop :=
  ∀ k ∈ sess.watchedKeys, k ∈ sess'.watchedKeys

theorem apart_handleConnect (m : Connect) : Apart (handleConnect cfg sess m) sess.Watches := by
  refine bind (apart_emit rfl rfl) fun _ _ => ?_
  cases m.itemsHandling with
  | none => exact fail _
  | some mode =>
    refine bind read fun resp _ => bind (apart_emit rfl rfl) fun _ _ => ?_
    refine bind read fun items _ => ?_
    exact bind (apart_emit rfl rfl) fun _ _ => pure fun k hk => hk

/-- The message is neither a `Set` nor a `Get`. -/
def Incoming.isApart : Incoming → Bool
  | .fromAP (.set _) | .fromAP (.get _) => false
  | _ => true

theorem apart_handleAP {m : ClientMessage} (hm : Incoming.isApart (.fromAP m) = true) :
    Apart (handleAP cfg env sess m) sess.Watches := by
  have hsame : sess.Watches sess := fun _ hk => hk
  cases m with
  | getDataPackage games => exact bind (apart_emit rfl rfl) fun _ _ => pure hsame
  | connect m => exact apart_handleConnect cfg sess m
  | say text => exact bind (apart_handleSay cfg env sess text) fun _ _ => pure hsame
  | sync =>
    have hsync : Apart (handleSync sess) fun _ => True :=
      ite (bind read fun items _ => apart_emit rfl rfl) (pure trivial)
    exact bind hsync fun _ _ => pure hsame
  | set m | get m => cases hm
  | setNotify keys => exact pure fun k hk => List.mem_append_right keys hk
  | locationScouts locations =>
    exact bind (bind query fun items _ => apart_emit rfl rfl) fun _ _ => pure hsame
  | locationChecks locations =>
    exact bind (forEach fun id _ => apart_checkLocation cfg env sess id) fun _ _ => pure hsame

theorem speaks_handleSet (m : SetMessage) :
    Speaks (handleSet cfg env sess m) fun _ => True := by
  refine ite (pure trivial) (bind read fun orig _ => ?_)
  cases cfg.evaluate orig m with
  | error e =>
    cases e with
    | panic => exact fail _
    | _ => exact pure trivial
  | ok newBytes => exact bind (attempt (commit rfl)) fun _ _ => ite (emit rfl) (pure trivial)

theorem speaks_handleAP (m : ClientMessage) : Speaks (handleAP cfg env sess m) sess.Watches := by
  have hsame : sess.Watches sess := fun _ hk => hk
  cases m with
  | set m => exact bind (speaks_handleSet cfg env sess m) fun _ _ => pure hsame
  | get m => exact bind (bind read fun values _ => emit rfl) fun _ _ => pure hsame
  | getDataPackage games | connect m | say text | sync | setNotify keys | locationScouts locations
  | locationChecks locations => exact (apart_handleAP cfg env sess rfl).speaks

theorem forall_messages {t : Trace} (h : ∀ e ∈ t, isSpoken e = true) :
    ∀ io ∈ messages t, io.isSent = true := fun _ hio => h _ (mem_messages.mp hio)

/-- The messages of a step: the one it handles, and what it sends. -/
theorem messages_handle (db : Savefile) (m : Incoming) :
    ∃ sent, messages ((handle cfg env sess m).run db).trace = .recv m :: sent ∧
      ∀ io ∈ sent, io.isSent = true := by
  cases m with
  | fromMW m =>
    rw [run_handle_fromMW]
    exact ⟨_, rfl, forall_messages ((apart_handleMW cfg env sess m).speaks db trivial).1⟩
  | fromAP m =>
    rw [run_handle_fromAP]
    exact ⟨_, rfl, forall_messages (speaks_handleAP cfg env sess m db trivial).1⟩

/-- A step on another message has nothing to do with the data storage. -/
theorem apart_handle {m : Incoming} (hm : m.isApart = true) (db : Savefile) :
    ∀ e ∈ ((handle cfg env sess m).run db).trace, isOfStorage e = false := by
  intro e he
  cases m with
  | fromMW m =>
    rw [run_handle_fromMW] at he
    obtain rfl | he := List.mem_cons.mp he
    · rfl
    · exact ((apart_handleMW cfg env sess m db trivial).1 e he).2
  | fromAP m =>
    rw [run_handle_fromAP] at he
    obtain rfl | he := List.mem_cons.mp he
    · rfl
    · exact ((apart_handleAP cfg env sess hm db trivial).1 e he).2

/-- A session that goes on watches the keys that it watched. -/
theorem watches_handle {m : Incoming} {db : Savefile} {sess' : Session}
    (h : ((handle cfg env sess m).run db).result = .ok sess') : sess.Watches sess' := by
  cases m with
  | fromMW m =>
    rw [run_handle_fromMW] at h
    cases hr : ((handleMW cfg env sess m).run db).result with
    | error e =>
      rw [hr] at h
      cases h
    | ok u =>
      rw [hr] at h
      cases h
      exact fun _ hk => hk
  | fromAP m =>
    rw [run_handle_fromAP] at h
    exact (speaks_handleAP cfg env sess m db trivial).2 sess' h

end Handlers

end Isthmus
