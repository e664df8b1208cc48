import Isthmus.Approto.Schema

/-!
# The commands of an AP client

`handleConnection` decodes each message twice: once for its command, into a
variable that is shared by all messages, and once as what the command says. A
field that a message does not have keeps its value from the messages before, so a
message without a command can be taken for one of the last command.

## Main definitions

- `decodeCommand`: `json.Unmarshal` into the shared variable
- `Decoders.handleConnection`: the loop over packets and messages
- `Decoders.Independent`: each message is taken as if it were the only one
-/

namespace Isthmus.Approto

/-- A message of a packet as it was sent: the members of an object are in order, and
a name may be there twice. -/
inductive RawMessage where
  | null
  | bool (b : Bool)
  | number (literal : GoString)
  | string (s : GoString)
  | array (l : List RawMessage)
  | object (members : List (GoString × RawMessage))

/-! ## The shared variable -/

def lower (c : UInt8) : UInt8 := if 65 ≤ c ∧ c ≤ 90 then c + 32 else c

/-- The name stands for the field `Cmd`, whatever the case of its letters. -/
def isCmd (name : GoString) : Bool := name.map lower == lit "cmd"

/-- One member, after the value of `Cmd` and whether there was an error. A value
that is no string is an error, but decoding goes on after it. -/
def decodeMember (st : GoString × Bool) (member : GoString × RawMessage) : GoString × Bool :=
  if isCmd member.1 then
    match member.2 with
    | .string s => (s, st.2)
    | .null => st
    | _ => (st.1, true)
  else st

/-- `json.Unmarshal(msg, &unknownMessage)`: the value of `Cmd` after it, and whether
there was an error. Null leaves a struct as it is. -/
def decodeCommand (cmd : GoString) : RawMessage → GoString × Bool
  | .null => (cmd, false)
  | .object members => members.foldl decodeMember (cmd, false)
  | _ => (cmd, true)

/-! ## The dispatch -/

inductive Command where
  | connect
  | getDataPackage
  | set
  | get
  | setNotify
  | locationScouts
  | locationChecks
  | sync
  | say
  deriving DecidableEq

/-- The commands by their names. -/
def commands : List (GoString × Command) :=
  [(lit "Connect", .connect), (lit "GetDataPackage", .getDataPackage), (lit "Set", .set),
    (lit "Get", .get), (lit "SetNotify", .setNotify), (lit "LocationScouts", .locationScouts),
    (lit "LocationChecks", .locationChecks), (lit "Sync", .sync), (lit "Say", .say)]

/-- `json.Unmarshal` into a new value of each type; `none` is an error. -/
structure Decoders where
  connect : RawMessage → Option Connect
  getDataPackage : RawMessage → Option (Option (List GoString))
  set : RawMessage → Option SetMessage
  setNotify : RawMessage → Option (List GoString)
  locationScouts : RawMessage → Option (List Int)
  locationChecks : RawMessage → Option (List Int)
  say : RawMessage → Option GoString
  /-- Into a `map[string]any`. -/
  args : RawMessage → Option (GoMap GoString Json)
  /-- Into a `struct{ Keys []string }`. -/
  names : RawMessage → Option (List GoString)

namespace Decoders

variable (d : Decoders)

def parseGet (msg : RawMessage) : Option ClientMessage :=
  match d.args msg with
  | none => none
  | some args =>
    match d.names msg with
    | none => none
    | some names => some (.get ⟨names, (args.erase (lit "keys")).erase (lit "cmd")⟩)

/-- What a command makes of a message. -/
def parse (msg : RawMessage) : Command → Option ClientMessage
  | .connect => (d.connect msg).map .connect
  | .getDataPackage => (d.getDataPackage msg).map .getDataPackage
  | .set => (d.set msg).map .set
  | .get => d.parseGet msg
  | .setNotify => (d.setNotify msg).map .setNotify
  | .locationScouts => (d.locationScouts msg).map .locationScouts
  | .locationChecks => (d.locationChecks msg).map .locationChecks
  | .sync => some .sync
  | .say => (d.say msg).map .say

/-- The body of the loop over a packet: what is put in the inbox, and the value of
`Cmd` after it. -/
def handleMessage (cmd : GoString) (msg : RawMessage) : Option ClientMessage × GoString :=
  let decoded := decodeCommand cmd msg
  if decoded.2 then (none, decoded.1)
  else
    match commands.lookup decoded.1 with
    | none => (none, decoded.1)
    | some command => (d.parse msg command, decoded.1)

def handlePacket : GoString → List RawMessage → List ClientMessage × GoString
  | cmd, [] => ([], cmd)
  | cmd, msg :: buf =>
    let handled := d.handleMessage cmd msg
    let rest := handlePacket handled.2 buf
    (handled.1.toList ++ rest.1, rest.2)

/-- All that is put in the inbox, from a value of `Cmd` on. -/
def handlePackets : GoString → List (List RawMessage) → List ClientMessage
  | _, [] => []
  | cmd, buf :: packets =>
    let handled := d.handlePacket cmd buf
    handled.1 ++ handlePackets handled.2 packets

/-- All that is put in the inbox on a new connection. -/
def handleConnection (packets : List (List RawMessage)) : List ClientMessage :=
  d.handlePackets [] packets

/-- The inbox has what each message would yield as the only one of a connection. -/
def Independent (packets : List (List RawMessage)) : Prop :=
  d.handleConnection packets = packets.flatten.flatMap fun msg => d.handleConnection [[msg]]

end Decoders

/-! ## What a message says about its command -/

def RawMessage.string? : RawMessage → Option GoString
  | .string s => some s
  | _ => none

/-- The strings that a message has for `Cmd`, in order. -/
def RawMessage.cmds : RawMessage → List GoString
  | .object members => members.filterMap fun m => if isCmd m.1 then m.2.string? else none
  | _ => []

/-- The message is no object, or has something for `Cmd` that is no string. -/
def RawMessage.isMalformed : RawMessage → Bool
  | .null => false
  | .object members => members.any fun m =>
    isCmd m.1 && match m.2 with
      | .string _ => false
      | .null => false
      | _ => true
  | _ => true

/-- The last string for `Cmd` in the messages, or the value before them. -/
def lastCmd (cmd : GoString) (msgs : List RawMessage) : GoString :=
  (msgs.flatMap RawMessage.cmds).getLastD cmd

theorem decodeMembers_eq (st : GoString × Bool) (members : List (GoString × RawMessage)) :
    members.foldl decodeMember st = ((RawMessage.object members).cmds.getLastD st.1,
      st.2 || (RawMessage.object members).isMalformed) := by
  induction members generalizing st with
  | nil => simp [RawMessage.cmds, RawMessage.isMalformed]
  | cons member members ih =>
    obtain ⟨name, value⟩ := member
    rw [List.foldl_cons, ih]
    by_cases hname : isCmd name
    · cases value <;>
        simp only [decodeMember, hname, RawMessage.cmds, RawMessage.isMalformed,
          RawMessage.string?, List.filterMap_cons, List.any_cons, List.getLastD_cons, if_true,
          Bool.true_and, Bool.true_or, Bool.false_or, Bool.or_true]
    · simp [decodeMember, hname, RawMessage.cmds, RawMessage.isMalformed]

theorem decodeCommand_eq (cmd : GoString) (msg : RawMessage) :
    decodeCommand cmd msg = (msg.cmds.getLastD cmd, msg.isMalformed) := by
  cases msg with
  | object members => exact (decodeMembers_eq _ _).trans (by rw [Bool.false_or])
  | _ => rfl

/-! ## Messages by themselves -/

namespace Decoders

variable {d : Decoders} {cmd : GoString} {msg : RawMessage}

theorem handleMessage_snd : (d.handleMessage cmd msg).2 = msg.cmds.getLastD cmd := by
  rw [handleMessage, decodeCommand_eq]
  dsimp only
  split
  · rfl
  · split <;> rfl

theorem handlePacket_append (msgs msgs' : List RawMessage) :
    d.handlePacket cmd (msgs ++ msgs') =
      ((d.handlePacket cmd msgs).1 ++ (d.handlePacket (d.handlePacket cmd msgs).2 msgs').1,
        (d.handlePacket (d.handlePacket cmd msgs).2 msgs').2) := by
  induction msgs generalizing cmd with
  | nil => rfl
  | cons msg msgs ih =>
    simp only [List.cons_append, handlePacket, ih, List.append_assoc]

/-- The packets do not matter, only the order of the messages. -/
theorem handlePackets_eq (packets : List (List RawMessage)) :
    d.handlePackets cmd packets = (d.handlePacket cmd packets.flatten).1 := by
  induction packets generalizing cmd with
  | nil => rfl
  | cons buf packets ih => rw [handlePackets, ih, List.flatten_cons, handlePacket_append]

theorem handleConnection_singleton :
    d.handleConnection [[msg]] = (d.handleMessage [] msg).1.toList := by
  rw [handleConnection, handlePackets_eq]
  simp [handlePacket]

/-- After any command a message yields what it yields by itself, or it yields
nothing by itself. -/
theorem handleMessage_alone (d : Decoders) (cmd : GoString) (msg : RawMessage) :
    (d.handleMessage [] msg).1 = (d.handleMessage cmd msg).1 ∨
      (d.handleMessage [] msg).1 = none := by
  cases hcmds : msg.cmds with
  | nil =>
    refine .inr ?_
    rw [handleMessage, decodeCommand_eq, hcmds]
    dsimp only
    split <;> rfl
  | cons s cmds =>
    refine .inl ?_
    rw [handleMessage, handleMessage, decodeCommand_eq, decodeCommand_eq, hcmds]
    rfl

/-- A message without a command of its own yields something only after a command
that can parse it. -/
theorem handleMessage_eq_alone_iff :
    (d.handleMessage [] msg).1 = (d.handleMessage cmd msg).1 ↔
      (msg.isMalformed = false → msg.cmds = [] →
        ∀ command, commands.lookup cmd = some command → d.parse msg command = none) := by
  rw [handleMessage, handleMessage, decodeCommand_eq, decodeCommand_eq]
  cases hbad : msg.isMalformed with
  | true => exact iff_of_true rfl fun h => by cases h
  | false =>
    cases hcmds : msg.cmds with
    | cons s cmds => exact iff_of_true rfl fun _ h => by cases h
    | nil =>
      have hnone : commands.lookup [] = none := by decide
      simp only [List.getLastD_nil, hnone, forall_const, Bool.false_eq_true, if_false]
      cases hlookup : commands.lookup cmd with
      | none => simp
      | some command => simp [eq_comm]

theorem getLastD_append (cmds cmds' : List GoString) :
    (cmds ++ cmds').getLastD cmd = cmds'.getLastD (cmds.getLastD cmd) := by
  induction cmds generalizing cmd with
  | nil => rfl
  | cons s cmds ih => rw [List.cons_append, List.getLastD_cons, List.getLastD_cons, ih]

theorem lastCmd_cons (before : List RawMessage) :
    lastCmd cmd (msg :: before) = lastCmd (msg.cmds.getLastD cmd) before := by
  rw [lastCmd, List.flatMap_cons, getLastD_append, lastCmd]

/-- By themselves the messages yield no more. -/
theorem length_alone_le (d : Decoders) (cmd : GoString) (msgs : List RawMessage) :
    (msgs.flatMap fun msg => (d.handleMessage [] msg).1.toList).length ≤
      (d.handlePacket cmd msgs).1.length := by
  induction msgs generalizing cmd with
  | nil => exact Nat.le_refl _
  | cons msg msgs ih =>
    rw [List.flatMap_cons, handlePacket, List.length_append, List.length_append]
    refine Nat.add_le_add ?_ (ih _)
    rcases handleMessage_alone d cmd msg with h | h
    · rw [h]
    · rw [h]
      exact Nat.zero_le _

/-- All messages together yield what they yield by themselves if and only if each
of them does: a message too many is never made up for. -/
theorem handlePacket_eq_alone_iff (msgs : List RawMessage) :
    (d.handlePacket cmd msgs).1 = (msgs.flatMap fun msg => (d.handleMessage [] msg).1.toList) ↔
      ∀ before msg after, msgs = before ++ msg :: after →
        (d.handleMessage [] msg).1 = (d.handleMessage (lastCmd cmd before) msg).1 := by
  induction msgs generalizing cmd with
  | nil => simp [handlePacket]
  | cons m msgs ih =>
    have hsplit : (∀ before msg after, m :: msgs = before ++ msg :: after →
        (d.handleMessage [] msg).1 = (d.handleMessage (lastCmd cmd before) msg).1) ↔
        (d.handleMessage [] m).1 = (d.handleMessage cmd m).1 ∧
          ∀ before msg after, msgs = before ++ msg :: after → (d.handleMessage [] msg).1 =
            (d.handleMessage (lastCmd (m.cmds.getLastD cmd) before) msg).1 := by
      constructor
      · intro h
        refine ⟨h [] m msgs rfl, fun before msg after hmsgs => ?_⟩
        rw [← lastCmd_cons]
        exact h (m :: before) msg after (by rw [hmsgs, List.cons_append])
      · rintro ⟨hm, hmsgs⟩ before msg after h
        cases before with
        | nil =>
          cases h
          exact hm
        | cons m' before =>
          cases h
          rw [lastCmd_cons]
          exact hmsgs before msg after rfl
    have hlen := length_alone_le d (m.cmds.getLastD cmd) msgs
    rw [hsplit, ← ih, handlePacket, List.flatMap_cons, handleMessage_snd]
    rcases handleMessage_alone d cmd m with h | h
    · rw [h, List.append_cancel_left_eq]
      exact (and_iff_right rfl).symm
    · cases hm : (d.handleMessage cmd m).1 with
      | none => simp [h]
      | some x =>
        refine iff_of_false (fun heq => ?_) (by simp [h])
        have hlength := congrArg List.length heq
        simp only [h, Option.toList_some, Option.toList_none, List.length_append,
          List.length_singleton, List.length_nil] at hlength
        omega

/-- Each message is interpreted by itself if and only if none that is null, or an
object without a string for `Cmd`, comes where the last string before it names a
command that can parse it. -/
theorem independent_iff {packets : List (List RawMessage)} : d.Independent packets ↔
    ∀ before msg after, packets.flatten = before ++ msg :: after →
      msg.isMalformed = false → msg.cmds = [] →
        ∀ command, commands.lookup (lastCmd [] before) = some command →
          d.parse msg command = none := by
  rw [Independent, handleConnection, handlePackets_eq]
  simp only [handleConnection_singleton]
  rw [handlePacket_eq_alone_iff]
  simp only [handleMessage_eq_alone_iff]

end Decoders

/-- What the decoders make of null and of an object without members. -/
def zeroDecoders : Decoders where
  connect _ := some ⟨none, false⟩
  getDataPackage _ := some none
  set _ := some ⟨[], .null, false, []⟩
  setNotify _ := some []
  locationScouts _ := some []
  locationChecks _ := some []
  say _ := some []
  args _ := some ∅
  names _ := some []

/-- After a `Sync` an object without members is another `Sync`, and so is null. -/
theorem sync_repeats : ¬ zeroDecoders.Independent
    [[.object [(lit "cmd", .string (lit "Sync"))]], [.object [], .null]] :=
  fun h => absurd (congrArg List.length h) (by decide)

end Isthmus.Approto
