/-
  `src/examples/server.c` and `client.c`: remote procedure calls over three channels.

  The client pushes a command and polls for the response before it goes on to the next.  The server
  polls for commands and answers each with a response; a command may ask for events, which the server
  pushes before it answers, with `ri_producer_try_push` until the queue is full, or all of them with
  `ri_producer_force_push`.  A second thread of the client waits for the eventfd of the event channel
  and prints the events.

  `system F cmds` interleaves the three of them at the atomic operations of the channels.  A step that
  reads or writes through a null pointer cannot be made.  Each step says what it logs: the commands the
  server prints, the responses and the events the client prints, the errors; and, what the code does
  not print, the events the server pushes with the results.

  The loop of `client_run` has no way out but to return, so `run` is never cleared, and the listener
  does not end unless `poll` fails.  A union is modelled by what its members read, `double` by any type
  with the two operations the server needs.
-/
import Rtipc.ChannelUse

namespace Rtipc

namespace Rpc

/-! ## The messages -/

/-- `CMDID_UNKNOWN`. -/
def cmdidUnknown : UInt32 := 0

/-- `CMDID_HELLO`. -/
def cmdidHello : UInt32 := 1

/-- `CMDID_STOP`. -/
def cmdidStop : UInt32 := 2

/-- `CMDID_SENDEVENT`. -/
def cmdidSendevent : UInt32 := 3

/-- `CMDID_DIV`. -/
def cmdidDiv : UInt32 := 4

/-- `send_event_args_t`. -/
structure SendEventArgs where
  id : UInt32
  force : Bool
  num : UInt32
  deriving DecidableEq

/-- `div_args_t`. -/
structure DivArgs (D : Type) where
  divisor : D
  divident : D
  deriving DecidableEq

/-- `command_args_t`, a union. -/
structure CommandArgs (D : Type) where
  div : DivArgs D
  send : SendEventArgs
  deriving DecidableEq

/-- `msg_command_t`. -/
structure MsgCommand (D : Type) where
  id : UInt32
  args : CommandArgs D
  deriving DecidableEq

/-- `msg_response_t`; the union `response_data_t` has the member `quotient` only. -/
structure MsgResponse (D : Type) where
  id : UInt32
  result : Int32
  quotient : D
  deriving DecidableEq

/-- `msg_event_t`. -/
structure MsgEvent where
  id : UInt32
  nr : UInt32
  deriving DecidableEq

/-- What the server does with numbers of type `D`. -/
structure Double (D : Type) where
  isZero : D → Bool
  div : D → D → D

/-! ## The three threads -/

/-- `MAX_CYCLES`. -/
def maxCycles : Nat := 10000

/-- The slots of the channels `command` and `response`, without additional messages. -/
def callSlots : Nat := 3

/-- The slots of the channel `event`, with 10 additional messages. -/
def eventSlots : Nat := 13

/-- Where `client_run` is. -/
inductive ClientAt where
  /-- at the head of the loop -/
  | start
  /-- about to push the command -/
  | push
  | pushing
  /-- about to pop a response -/
  | pop
  | popping
  /-- about to print the response -/
  | print
  | returned
  deriving DecidableEq

/-- `client_run`: the entries of the array from `cmd` on, without the last one, which is
    `CMDID_UNKNOWN`. -/
structure Client (D : Type) where
  pos : ClientAt
  cmds : List (MsgCommand D)
  deriving DecidableEq

/-- Where `server_run` is. -/
inductive ServerAt where
  /-- at the head of the loop -/
  | pop
  | popping
  /-- about to look at the command -/
  | print
  /-- at the `switch` -/
  | select
  /-- in `server_send_events`, about to fill the event number `i` -/
  | fill (args : SendEventArgs) (i : UInt32)
  | pushEvent (args : SendEventArgs) (i : UInt32)
  | pushingEvent (args : SendEventArgs) (i : UInt32)
  /-- `server_send_events` has returned -/
  | sent (num : UInt32)
  /-- about to push the response -/
  | push (run : Bool)
  | pushing (run : Bool)
  | returned
  deriving DecidableEq

/-- `server_run`: the loop variable. -/
structure Server where
  pos : ServerAt
  cycle : Nat
  deriving DecidableEq

/-- Where `event_listen` is. -/
inductive ListenerAt where
  /-- in `poll` -/
  | poll
  | pop
  | popping
  /-- about to print the event -/
  | print
  | returned
  deriving DecidableEq

/-- The three threads and the channels between them. -/
structure State (D : Type) where
  command : ChannelState (MsgCommand D)
  response : ChannelState (MsgResponse D)
  event : ChannelState MsgEvent
  client : Client D
  server : Server
  listener : ListenerAt

/-- What is seen of a step. -/
inductive Log (D : Type) where
  /-- the server prints the command -/
  | served (cmd : MsgCommand D)
  /-- the server has pushed the event -/
  | event (event : MsgEvent) (result : PushResult)
  /-- the client prints the response -/
  | received (rsp : MsgResponse D)
  /-- "ri_consumer_pop receive error" -/
  | receiveError
  /-- the listener prints the event -/
  | listened (event : MsgEvent)
  /-- "message queue empty" -/
  | queueEmpty
  deriving DecidableEq

/-- `server_div`: the result, and what `*res` is then. -/
def serverDiv {D : Type} (F : Double D) (a b res : D) : Int32 × D :=
  if F.isZero b then (-1, res) else (0, F.div a b)

/-- The cases of the `switch` that only fill the response. -/
def respond {D : Type} (F : Double D) (cmd : MsgCommand D) (rsp : MsgResponse D) : MsgResponse D :=
  if cmd.id = cmdidHello then { rsp with result := 0 }
  else if cmd.id = cmdidStop then { rsp with result := 0 }
  else if cmd.id = cmdidDiv then
    let (result, quotient) :=
      serverDiv F cmd.args.div.divisor cmd.args.div.divident rsp.quotient
    { rsp with result := result, quotient := quotient }
  else { rsp with result := -1 }

namespace State

variable {D : Type} (s : State D)

/-- The next step of `client_run`. -/
def clientStep : Option (State D × List (Log D)) :=
  let go (pos : ClientAt) : Client D := { s.client with pos := pos }
  match s.client.pos with
  | .start =>
    match s.client.cmds with
    | [] => some ({ s with client := go .returned }, [])
    | cmd :: _ =>
      if cmd.id = cmdidUnknown then some ({ s with client := go .returned }, [])
      else (s.command.modify fun _ => cmd).map fun ch =>
        ({ s with command := ch, client := go .push }, [])
  | .push => (s.command.callPush .forcePush).map fun ch =>
      ({ s with command := ch, client := go .pushing }, [])
  | .pushing => s.command.pushStep (fun ch => ({ s with command := ch }, []))
      fun ch _ => ({ s with command := ch, client := go .pop }, [])
  | .pop => s.response.callPop.map fun ch =>
      ({ s with response := ch, client := go .popping }, [])
  | .popping => s.response.popStep (fun ch => ({ s with response := ch }, [])) fun ch r =>
      match r with
      | .error => ({ s with response := ch, client := go .returned }, [.receiveError])
      | .noMsg | .noUpdate => ({ s with response := ch, client := go .pop }, [])
      | .success | .discarded => ({ s with response := ch, client := go .print }, [])
  | .print => s.response.consumerMsg.map fun rsp =>
      ({ s with client := { pos := .start, cmds := s.client.cmds.tail } }, [.received rsp])
  | .returned => none

/-- The next step of `server_run`. -/
def serverStep (F : Double D) : Option (State D × List (Log D)) :=
  let go (pos : ServerAt) : Server := { s.server with pos := pos }
  let next : Server := { pos := .pop, cycle := s.server.cycle + 1 }
  match s.server.pos with
  | .pop =>
    if s.server.cycle < maxCycles then
      s.command.callPop.map fun ch => ({ s with command := ch, server := go .popping }, [])
    else some ({ s with server := go .returned }, [])
  | .popping => s.command.popStep (fun ch => ({ s with command := ch }, [])) fun ch r =>
      match r with
      | .noMsg | .noUpdate => ({ s with command := ch, server := next }, [])
      | _ => ({ s with command := ch, server := go .print }, [])
  | .print => s.command.consumerMsg.bind fun cmd =>
      (s.response.modify fun rsp => { rsp with id := cmd.id }).map fun ch =>
        ({ s with response := ch, server := go .select }, [.served cmd])
  | .select => s.command.consumerMsg.bind fun cmd =>
      if cmd.id = cmdidSendevent then some ({ s with server := go (.fill cmd.args.send 0) }, [])
      else (s.response.modify (respond F cmd)).map fun ch =>
        ({ s with response := ch, server := go (.push (cmd.id ≠ cmdidStop)) }, [])
  | .fill args i =>
    if i < args.num then
      (s.event.modify fun _ => { id := args.id, nr := i }).map fun ch =>
        ({ s with event := ch, server := go (.pushEvent args i) }, [])
    else some ({ s with server := go (.sent args.num) }, [])
  | .pushEvent args i =>
    (s.event.callPush (if args.force then .forcePush else .tryPush)).map fun ch =>
      ({ s with event := ch, server := go (.pushingEvent args i) }, [])
  | .pushingEvent args i => s.event.pushStep (fun ch => ({ s with event := ch }, [])) fun ch r =>
      ({ s with
          event := ch
          server := go (if r = .tryPush .fail then .sent i else .fill args (i + 1)) },
        [.event { id := args.id, nr := i } r])
  | .sent num => (s.response.modify fun rsp => { rsp with result := num.toInt32 }).map fun ch =>
      ({ s with response := ch, server := go (.push true) }, [])
  | .push run => (s.response.callPush .forcePush).map fun ch =>
      ({ s with response := ch, server := go (.pushing run) }, [])
  | .pushing run => s.response.pushStep (fun ch => ({ s with response := ch }, [])) fun ch _ =>
      ({ s with response := ch, server := if run then next else go .returned }, [])
  | .returned => none

/-- The next step of `event_listen`; `poll` waits for at most 10 ms. -/
def listenerStep : Option (State D × List (Log D)) :=
  match s.listener with
  | .poll => some ({ s with listener := if 0 < s.event.mem.eventfd then .pop else .poll }, [])
  | .pop => s.event.callPop.map fun ch => ({ s with event := ch, listener := .popping }, [])
  | .popping => s.event.popStep (fun ch => ({ s with event := ch }, [])) fun ch r =>
      ({ s with event := ch, listener := .print },
        if r = .noMsg ∨ r = .noUpdate then [.queueEmpty] else [])
  | .print => s.event.consumerMsg.map fun event =>
      ({ s with listener := .poll }, [.listened event])
  | .returned => none

/-- `poll` fails. -/
def pollFails : Option (State D × List (Log D)) :=
  match s.listener with
  | .poll => some ({ s with listener := .returned }, [])
  | _ => none

end State

/-- Who makes a step. -/
inductive Event where
  | client
  | server
  | listener
  | pollFails
  deriving DecidableEq

/-- The threads start on three new channels. -/
def State.start {D : Type} (command : ChannelState (MsgCommand D))
    (response : ChannelState (MsgResponse D)) (event : ChannelState MsgEvent)
    (cmds : List (MsgCommand D)) : State D where
  command := command
  response := response
  event := event
  client := { pos := .start, cmds := cmds }
  server := { pos := .pop, cycle := 0 }
  listener := .poll

/-- The client with the commands `cmds`, the server and the listener. -/
def system {D : Type} (F : Double D) (cmds : List (MsgCommand D)) :
    Machine (State D) Event (List (Log D)) where
  init s := ∃ command response event,
    (channelSystem (MsgCommand D) callSlots).init command ∧
    (channelSystem (MsgResponse D) callSlots).init response ∧
    (channelSystem MsgEvent eventSlots).init event ∧ s = .start command response event cmds
  step s
    | .client => s.clientStep
    | .server => s.serverStep F
    | .listener => s.listenerStep
    | .pollFails => s.pollFails

/-- What is logged. -/
def State.log {D : Type} (_ : State D) (_ : Event) (_ : State D) (o : List (Log D)) : List (Log D) := o

/-! ## Concrete runs -/

/-- The threads at their start, on channels in zeroed memory. -/
def State.zeroed {D : Type} (zero : D) (cmds : List (MsgCommand D)) : Option (State D) :=
  let created {β : Type} (slots : Nat) (x : β) : Option (ChannelState β) :=
    (QueueState.zeroed slots x).bind fun q => ChannelState.onNew q 0 1
  (created callSlots ⟨0, ⟨zero, zero⟩, ⟨0, false, 0⟩⟩).bind fun command =>
  (created callSlots ⟨0, 0, zero⟩).bind fun response =>
  (created eventSlots ⟨0, 0⟩).map fun event => .start command response event cmds

/-- Natural numbers for `double`. -/
def natDouble : Double Nat where
  isZero a := a = 0
  div a b := a / b

theorem State.exists_observed {D : Type} (F : Double D) (zero : D) (cmds : List (MsgCommand D))
    (es : List Event) (q : List (Log D) → State D → Bool)
    (h : ((State.zeroed zero cmds).bind fun s => (system F cmds).record Machine.always State.log es
      ([], s)).any (fun hs => q hs.1 hs.2) = true) :
    ∃ h s, (system F cmds).Observed Machine.always State.log h s ∧ q h s = true := by
  obtain ⟨⟨h, s⟩, hrec, hq⟩ := (Option.any_eq_true _ _).mp h
  obtain ⟨s₀, hzero, hrec⟩ := Option.bind_eq_some_iff.mp hrec
  unfold State.zeroed at hzero
  obtain ⟨command, hcommand, hzero⟩ := Option.bind_eq_some_iff.mp hzero
  obtain ⟨response, hresponse, hzero⟩ := Option.bind_eq_some_iff.mp hzero
  obtain ⟨event, hevent, rfl⟩ := Option.map_eq_some_iff.mp hzero
  have hcreated : ∀ {β : Type} {slots : Nat} {x : β} {s : ChannelState β},
      ((QueueState.zeroed slots x).bind fun q => ChannelState.onNew q 0 1) = some s →
      (channelSystem β slots).init s := by
    intro β slots x s hs
    obtain ⟨k, hk, hnew⟩ := Option.bind_eq_some_iff.mp hs
    exact ⟨k, 0, 1, ⟨_, _, _, hk⟩, by decide, by decide, hnew⟩
  have hinit : (system F cmds).init (.start command response event cmds) :=
    ⟨command, response, event, hcreated hcommand, hcreated hresponse, hcreated hevent, rfl⟩
  exact ⟨h, s, (Machine.Observed.init hinit).record hrec, hq⟩

end Rpc

end Rtipc
