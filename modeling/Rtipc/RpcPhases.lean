/-
  Where a command, its response and the events of the example are.

  A command is in one place at a time, and so is its response: `Phase` says where.  `Exchange` is what
  holds of the client and the server between the steps, `Listening` what holds of the server and the
  listener.  The channels are known by their views.

  1. **The phases.**  A command is with the client, in the channel, with the server, or answered; then
     the response is in the channel or with the client.  `Phase` has one constructor for each, and the
     unread messages of both channels follow from it (`Phase.commands`, `Phase.responses`).

  2. **The log.**  What the threads print is the only thing that the results are about.  `served`,
     `received` and `listened` read it off, and `Exchange` ties it to the phase: what has been printed,
     plus what is under way, is what the client has in its array.
-/
import Rtipc.Rpc

namespace Rtipc

namespace Rpc

/-! ## What has been logged -/

section log

variable {D : Type} (h h' : List (Log D))

/-- The commands the server has printed. -/
def served : List (MsgCommand D) :=
  h.filterMap fun | .served cmd => some cmd | _ => none

/-- The responses the client has printed. -/
def received : List (MsgResponse D) :=
  h.filterMap fun | .received rsp => some rsp | _ => none

/-- The events the server has sent, those that were not refused. -/
def sentEvents : List MsgEvent :=
  h.filterMap fun | .event m r => if r = .tryPush .fail then none else some m | _ => none

/-- The events the listener has printed. -/
def listened : List MsgEvent :=
  h.filterMap fun | .listened m => some m | _ => none

/-- The number of pushes that have discarded an event. -/
def lostEvents : Nat :=
  h.countP fun | .event _ r => decide (r = .forcePush .discarded) | _ => false

/-- What two parts of the log say, one after the other. -/
@[simp] theorem served_append : served (h ++ h') = served h ++ served h' := List.filterMap_append

@[simp] theorem received_append : received (h ++ h') = received h ++ received h' :=
  List.filterMap_append

@[simp] theorem sentEvents_append : sentEvents (h ++ h') = sentEvents h ++ sentEvents h' :=
  List.filterMap_append

@[simp] theorem listened_append : listened (h ++ h') = listened h ++ listened h' :=
  List.filterMap_append

@[simp] theorem lostEvents_append : lostEvents (h ++ h') = lostEvents h + lostEvents h' :=
  List.countP_append

end log

/-! ## What an answer says -/

section answers

variable {D : Type}

/-- The first `k` events the command asks for. -/
def eventsOf (cmd : MsgCommand D) (k : UInt32) : List MsgEvent :=
  (List.range k.toNat).map fun i => { id := cmd.args.send.id, nr := UInt32.ofNat i }

/-- The response to a command for which `k` events have been sent. -/
inductive Answers (F : Double D) (cmd : MsgCommand D) : MsgResponse D → UInt32 → Prop where
  | done {q : D} (h : cmd.id = cmdidHello ∨ cmd.id = cmdidStop) :
      Answers F cmd { id := cmd.id, result := 0, quotient := q } 0
  | sent {q : D} {k : UInt32} (h : cmd.id = cmdidSendevent) (hle : k ≤ cmd.args.send.num)
      (hforce : cmd.args.send.force = true → k = cmd.args.send.num) :
      Answers F cmd { id := cmd.id, result := k.toInt32, quotient := q } k
  | quotient (h : cmd.id = cmdidDiv) (hz : F.isZero cmd.args.div.divident = false) :
      Answers F cmd
        { id := cmd.id, result := 0,
          quotient := F.div cmd.args.div.divisor cmd.args.div.divident } 0
  | divByZero {q : D} (h : cmd.id = cmdidDiv) (hz : F.isZero cmd.args.div.divident = true) :
      Answers F cmd { id := cmd.id, result := -1, quotient := q } 0
  | invalid {q : D} (h : cmd.id ∉ [cmdidHello, cmdidStop, cmdidSendevent, cmdidDiv]) :
      Answers F cmd { id := cmd.id, result := -1, quotient := q } 0

/-- A command the server is done with: the response, and how many events it has sent before. -/
structure Call (D : Type) where
  cmd : MsgCommand D
  rsp : MsgResponse D
  sent : UInt32

/-- The events sent so far for a call. -/
def Call.events (c : Call D) : List MsgEvent := eventsOf c.cmd c.sent

variable {F : Double D} {cmd : MsgCommand D}

/-- The loop variable of `server_send_events` does not wrap around. -/
theorem toNat_next {i num : UInt32} (h : i < num) : (i + 1).toNat = i.toNat + 1 := by
  have hlt : i.toNat + 1 < 2 ^ 32 := by
    have := UInt32.lt_iff_toNat_lt.mp h
    have := num.toNat_lt
    omega
  rw [UInt32.toNat_add]
  exact Nat.mod_eq_of_lt hlt

/-- The next number does not wrap. -/
theorem next_le {i num : UInt32} (h : i < num) : i + 1 ≤ num := by
  rw [UInt32.le_iff_toNat_le, toNat_next h]
  exact UInt32.lt_iff_toNat_lt.mp h

/-- One event more. -/
theorem eventsOf_next {i num : UInt32} (h : i < num) :
    eventsOf cmd (i + 1) = eventsOf cmd i ++ [{ id := cmd.args.send.id, nr := i }] := by
  rw [eventsOf, toNat_next h, List.range_succ, List.map_append, List.map_singleton,
    UInt32.ofNat_toNat]
  rfl

/-- The cases of the `switch` that send no events. -/
theorem respond_answers {x : MsgResponse D} (hx : x.id = cmd.id) (h : cmd.id ≠ cmdidSendevent) :
    Answers F cmd (respond F cmd x) 0 := by
  obtain ⟨id, result, q⟩ := x
  replace hx : id = cmd.id := hx
  subst hx
  unfold respond
  by_cases hhello : cmd.id = cmdidHello
  · rw [if_pos hhello]
    exact .done (Or.inl hhello)
  · rw [if_neg hhello]
    by_cases hstop : cmd.id = cmdidStop
    · rw [if_pos hstop]
      exact .done (Or.inr hstop)
    · rw [if_neg hstop]
      by_cases hdiv : cmd.id = cmdidDiv
      · rw [if_pos hdiv, serverDiv]
        cases hz : F.isZero cmd.args.div.divident with
        | true => exact .divByZero hdiv hz
        | false => exact .quotient hdiv hz
      · rw [if_neg hdiv]
        refine .invalid ?_
        simp only [List.mem_cons, List.not_mem_nil, or_false, not_or]
        exact ⟨hhello, hstop, h, hdiv⟩

end answers

/-! ## Where the command and its response are

  There is never more than one of them under way. -/

/-- Where the command of the client, or the response to it, is. -/
inductive Phase (D : Type) where
  /-- the client is to push the next command -/
  | ask
  | asked (cmd : MsgCommand D)
  /-- the server has popped the command, and not printed it -/
  | taken (cmd : MsgCommand D)
  | serving (cmd : MsgCommand D)
  | answered (rsp : MsgResponse D)
  /-- the client has popped the response, and not printed it -/
  | got (rsp : MsgResponse D)

namespace Phase

variable {D : Type}

/-- The command under way. -/
def cmd : Phase D → Option (MsgCommand D)
  | asked c | taken c | serving c => some c
  | _ => none

/-- The command the server has printed and not answered. -/
def inService : Phase D → List (MsgCommand D)
  | serving c => [c]
  | _ => []

/-- The response the client has not printed. -/
def unreceived : Phase D → List (MsgResponse D)
  | answered r | got r => [r]
  | _ => []

/-- The entries of the array that have not been answered; the client goes on after the response. -/
def todo (cmds : List (MsgCommand D)) : Phase D → List (MsgCommand D)
  | answered _ | got _ => cmds.tail
  | _ => cmds

/-- The unread messages of the channel `command`. -/
def commands : Phase D → List (MsgCommand D)
  | asked c => [c]
  | _ => []

/-- The unread messages of the channel `response`. -/
def responses : Phase D → List (MsgResponse D)
  | answered r => [r]
  | _ => []

/-- The client polls for a response. -/
def awaited : Phase D → Bool
  | asked _ | taken _ | serving _ | answered _ => true
  | _ => false

/-- The server has no command. -/
def idle : Phase D → Bool
  | taken _ | serving _ => false
  | _ => true

end Phase

section points

variable {D : Type}

/-- What holds at each point of the client: `prod` is its end of the channel `command`, `popping` and
    `held` are about its end of `response`. -/
def AtClient (φ : Phase D) (cmds : List (MsgCommand D)) (prod : PushAt (MsgCommand D)) (popping : Bool)
    (held : Option (MsgResponse D)) : ClientAt → Prop
  | .start => φ = .ask ∧ popping = false ∧ ∃ x, prod = .idle x
  | .returned => φ = .ask ∧ popping = false ∧ (∃ x, prod = .idle x) ∧
      ∀ cmd, cmds.head? = some cmd → cmd.id = cmdidUnknown
  | .push => φ = .ask ∧ popping = false ∧
      ∃ cmd, cmds.head? = some cmd ∧ cmd.id ≠ cmdidUnknown ∧ prod = .idle cmd
  | .pushing => φ = .ask ∧ popping = false ∧
      ∃ cmd, cmds.head? = some cmd ∧ cmd.id ≠ cmdidUnknown ∧ prod = .busy .forcePush cmd
  | .pop => φ.awaited = true ∧ popping = false ∧ ∃ x, prod = .idle x
  | .popping => φ.awaited = true ∧ popping = true ∧ ∃ x, prod = .idle x
  | .print => (∃ rsp, φ = .got rsp ∧ held = some rsp) ∧ popping = false ∧ ∃ x, prod = .idle x

/-- The server sends events, so far the first `i`. -/
def Sending (φ : Phase D) (prod : PushAt (MsgResponse D)) (current : List MsgEvent)
    (args : SendEventArgs) (i : UInt32) : Prop :=
  ∃ cmd x, φ = .serving cmd ∧ cmd.id = cmdidSendevent ∧ cmd.args.send = args ∧
    prod = .idle x ∧ x.id = cmd.id ∧ current = eventsOf cmd i

/-- What holds at each point of the server: `current` are the events it has sent for the command it
    has, `popping` and `held` are about its end of the channel `command`, `prod` is its end of
    `response`. -/
def AtServer (F : Double D) (φ : Phase D) (popping : Bool) (held : Option (MsgCommand D))
    (prod : PushAt (MsgResponse D)) (current : List MsgEvent) : ServerAt → Prop
  | .pop | .returned => φ.idle = true ∧ current = [] ∧ popping = false ∧ ∃ x, prod = .idle x
  | .popping => φ.idle = true ∧ current = [] ∧ popping = true ∧ ∃ x, prod = .idle x
  | .print => (∃ cmd, φ = .taken cmd ∧ held = some cmd) ∧ current = [] ∧ popping = false ∧
      ∃ x, prod = .idle x
  | .select => current = [] ∧ popping = false ∧
      ∃ cmd x, φ = .serving cmd ∧ held = some cmd ∧ prod = .idle x ∧ x.id = cmd.id
  | .fill args i => Sending φ prod current args i ∧ popping = false ∧ i ≤ args.num
  | .pushEvent args i | .pushingEvent args i =>
      Sending φ prod current args i ∧ popping = false ∧ i < args.num
  | .sent k => popping = false ∧ ∃ args, Sending φ prod current args k ∧ k ≤ args.num ∧
      (args.force = true → k = args.num)
  | .push run => popping = false ∧ ∃ cmd x k, φ = .serving cmd ∧ prod = .idle x ∧
      Answers F cmd x k ∧ current = eventsOf cmd k ∧ (run = true → cmd.id ≠ cmdidStop)
  | .pushing run => popping = false ∧ ∃ cmd x k, φ = .serving cmd ∧ prod = .busy .forcePush x ∧
      Answers F cmd x k ∧ current = eventsOf cmd k ∧ (run = true → cmd.id ≠ cmdidStop)

/-- The push of the events: forced or not. -/
def SendEventArgs.op (args : SendEventArgs) : PushOp := if args.force then .forcePush else .tryPush

/-- What holds of the end of the channel `event` at each point of the server. -/
def AtSender (prod : PushAt MsgEvent) : ServerAt → Prop
  | .pushEvent args i => prod = .idle { id := args.id, nr := i }
  | .pushingEvent args i => prod = .busy args.op { id := args.id, nr := i }
  | _ => ∃ x, prod = .idle x

/-- What holds at each point of the listener.  Once `poll` has seen the counter, there is an event until
    it is popped: the server does not take the last one away. -/
def AtListener (v : ChannelView MsgEvent) : ListenerAt → Prop
  | .poll | .returned => v.popping = false
  | .pop => v.popping = false ∧ v.queue.unread ≠ []
  | .popping => v.popping = true ∧ v.queue.unread ≠ []
  | .print => v.popping = false ∧ v.queue.held.isSome = true

/-- The event the listener has popped, and not printed. -/
def unprinted (held : Option MsgEvent) : ListenerAt → List MsgEvent
  | .print => held.toList
  | _ => []

end points

/-- A push to a queue without unread messages finds room. -/
theorem push_unread_nil {β : Type} {q queue : BoundedQueue β} {cap : Nat} {op : PushOp} {x : β}
    {y : PushResult} (hq : q.push cap op x = (queue, .pushed y)) (hcap : 2 ≤ cap)
    (hnil : q.unread = []) : queue = { q with unread := [x] } := by
  have hroom : q.size < cap := by
    have hheld : q.held.toList.length ≤ 1 := by cases q.held <;> simp
    rw [BoundedQueue.size, hnil, List.length_nil]
    omega
  rw [BoundedQueue.push_room hroom, hnil] at hq
  exact (Prod.mk.inj hq).1.symm

/-! ## What holds between the steps -/

section invariant

variable {D : Type}

/-- The client and the server; `calls` are the commands that have been answered. -/
structure Exchange (F : Double D) (cmds : List (MsgCommand D)) (h : List (Log D))
    (command : ChannelView (MsgCommand D)) (response : ChannelView (MsgResponse D))
    (client : Client D) (server : ServerAt) (calls : List (Call D)) (current : List MsgEvent)
    (φ : Phase D) : Prop where
  cmds : calls.map Call.cmd ++ φ.todo client.cmds = cmds
  head : ∀ cmd, φ.cmd = some cmd → client.cmds.head? = some cmd ∧ cmd.id ≠ cmdidUnknown
  known : ∀ c ∈ calls, c.cmd.id ≠ cmdidUnknown
  answers : ∀ c ∈ calls, Answers F c.cmd c.rsp c.sent
  served : served h = calls.map Call.cmd ++ φ.inService
  received : received h ++ φ.unreceived = calls.map Call.rsp
  events : sentEvents h = calls.flatMap Call.events ++ current
  noError : Log.receiveError ∉ h
  commands : command.queue.unread = φ.commands
  responses : response.queue.unread = φ.responses
  client : AtClient φ client.cmds command.prod response.popping response.queue.held client.pos
  server : AtServer F φ command.popping command.queue.held response.prod current server

/-- The server ends with the first command that says stop. -/
structure Stopping (calls : List (Call D)) (server : ServerAt) : Prop where
  before : ∀ c ∈ calls.dropLast, c.cmd.id ≠ cmdidStop
  running : server ≠ .returned → ∀ c ∈ calls, c.cmd.id ≠ cmdidStop

/-- The server and the listener. -/
structure Listening (h : List (Log D)) (event : ChannelView MsgEvent) (server : ServerAt)
    (listener : ListenerAt) : Prop where
  sender : AtSender event.prod server
  point : AtListener event listener
  order : (listened h ++ unprinted event.queue.held listener ++ event.queue.unread).Sublist
    (sentEvents h)
  count : (listened h ++ unprinted event.queue.held listener ++ event.queue.unread).length +
    lostEvents h = (sentEvents h).length
  size : event.queue.size ≤ eventSlots - 1
  noEmpty : Log.queueEmpty ∉ h

/-- What holds of the three threads. -/
def Inv (F : Double D) (cmds : List (MsgCommand D)) (h : List (Log D)) (s : State D) : Prop :=
  ∃ command response event calls current φ,
    Shows callSlots s.command command ∧ Shows callSlots s.response response ∧
    Shows eventSlots s.event event ∧
    Exchange F cmds h command response s.client s.server.pos calls current φ ∧
    Stopping calls s.server.pos ∧ Listening h event s.server.pos s.listener

end invariant

section frame

variable {D : Type} {F : Double D} {cmds : List (MsgCommand D)} {h o : List (Log D)}
  {command : ChannelView (MsgCommand D)} {response : ChannelView (MsgResponse D)}
  {event : ChannelView MsgEvent} {client : Client D} {server server' : ServerAt}
  {listener : ListenerAt} {calls : List (Call D)} {current : List MsgEvent} {φ φ' : Phase D}

/-- A step that logs nothing. -/
theorem Inv.silent {s : State D} (hc : Shows callSlots s.command command)
    (hr : Shows callSlots s.response response) (he : Shows eventSlots s.event event)
    (hex : Exchange F cmds h command response s.client s.server.pos calls current φ)
    (hstop : Stopping calls s.server.pos) (hlis : Listening h event s.server.pos s.listener) :
    Inv F cmds (h ++ []) s := by
  rw [List.append_nil]
  exact ⟨_, _, _, _, _, _, hc, hr, he, hex, hstop, hlis⟩

/-- What the listener logs. -/
theorem exchange_log (hex : Exchange F cmds h command response client server calls current φ)
    (hserved : served o = []) (hreceived : received o = []) (hevents : sentEvents o = [])
    (herror : Log.receiveError ∉ o) :
    Exchange F cmds (h ++ o) command response client server calls current φ where
  __ := hex
  served := by rw [served_append, hserved, List.append_nil, hex.served]
  received := by rw [received_append, hreceived, List.append_nil, hex.received]
  events := by rw [sentEvents_append, hevents, List.append_nil, hex.events]
  noError := List.not_mem_append hex.noError herror

/-- What the client logs, and the server but for its events. -/
theorem listening_log (hlis : Listening h event server listener) (hlistened : listened o = [])
    (hevents : sentEvents o = []) (hlost : lostEvents o = 0) (hempty : Log.queueEmpty ∉ o)
    (hserver : AtSender event.prod server') : Listening (h ++ o) event server' listener where
  sender := hserver
  point := hlis.point
  order := by
    rw [listened_append, sentEvents_append, hlistened, hevents, List.append_nil, List.append_nil]
    exact hlis.order
  count := by
    rw [listened_append, sentEvents_append, lostEvents_append, hlistened, hevents, hlost,
      List.append_nil, List.append_nil]
    exact hlis.count
  size := hlis.size
  noEmpty := List.not_mem_append hlis.noEmpty hempty

/-- A server without a command does not care where the command or the response is. -/
theorem AtServer.idle {popping : Bool} {held : Option (MsgCommand D)} {prod : PushAt (MsgResponse D)}
    (hat : AtServer F φ popping held prod current server) (hi : φ.idle = true)
    (hi' : φ'.idle = true) : AtServer F φ' popping held prod current server := by
  cases server with
  | pop => exact ⟨hi', hat.2⟩
  | popping => exact ⟨hi', hat.2⟩
  | returned => exact ⟨hi', hat.2⟩
  | print =>
    obtain ⟨⟨cmd, rfl, -⟩, -⟩ := hat
    cases hi
  | select =>
    obtain ⟨-, -, cmd, x, rfl, -⟩ := hat
    cases hi
  | fill args i =>
    obtain ⟨⟨cmd, x, rfl, -⟩, -⟩ := hat
    cases hi
  | pushEvent args i =>
    obtain ⟨⟨cmd, x, rfl, -⟩, -⟩ := hat
    cases hi
  | pushingEvent args i =>
    obtain ⟨⟨cmd, x, rfl, -⟩, -⟩ := hat
    cases hi
  | sent k =>
    obtain ⟨-, args, ⟨cmd, x, rfl, -⟩, -⟩ := hat
    cases hi
  | push run =>
    obtain ⟨-, cmd, x, k, rfl, -⟩ := hat
    cases hi
  | pushing run =>
    obtain ⟨-, cmd, x, k, rfl, -⟩ := hat
    cases hi

/-- A client that polls does not care how far the server is. -/
theorem AtClient.awaited {rest : List (MsgCommand D)} {prod : PushAt (MsgCommand D)} {popping : Bool}
    {held : Option (MsgResponse D)} {pos : ClientAt} (hat : AtClient φ rest prod popping held pos)
    (ha : φ.awaited = true) (ha' : φ'.awaited = true) : AtClient φ' rest prod popping held pos := by
  cases pos with
  | pop => exact ⟨ha', hat.2⟩
  | popping => exact ⟨ha', hat.2⟩
  | start =>
    obtain ⟨rfl, -⟩ := hat
    cases ha
  | returned =>
    obtain ⟨rfl, -⟩ := hat
    cases ha
  | push =>
    obtain ⟨rfl, -⟩ := hat
    cases ha
  | pushing =>
    obtain ⟨rfl, -⟩ := hat
    cases ha
  | print =>
    obtain ⟨⟨rsp, rfl, -⟩, -⟩ := hat
    cases ha

end frame

end Rpc

end Rtipc
