/-
  The calls of the example are answered in order, and the listener sees the events in order.

  The channels may not lose a command or a response, because there is never more than one of them.
  Events may be lost, but only to a `ri_producer_force_push` that says so.

  Each thread has one lemma that says that it can make its next step and that the invariant is kept.
  `rpc_calls` is about the client and the server, `rpc_events` about the server and the listener.

  1. **Steps.**  `Inv.clientStep`, `Inv.serverStep` and `Inv.listenerStep` have the same form: a thread
     that has not returned can make its next step, and the invariant is kept.  The first half is why
     nobody is stuck, the second why the order is kept.

  2. **Events.**  The listener may be slower than the server.  `Listening` counts what has been lost,
     and each loss is a push that has returned DISCARDED; so the events that are printed are the ones
     that were sent, some left out.
-/
import Rtipc.RpcPhases

namespace Rtipc

namespace Rpc

/-! ## The steps of the client -/

/-- The command and response channels have a legal size. -/
theorem callSlots_ok : SizeOk callSlots := ⟨by decide, by decide⟩

/-- So does the event channel. -/
theorem eventSlots_ok : SizeOk eventSlots := ⟨by decide, by decide⟩

section client

variable {D : Type} {F : Double D} {cmds : List (MsgCommand D)} {h : List (Log D)} {s : State D}
  {command : ChannelView (MsgCommand D)} {response : ChannelView (MsgResponse D)}
  {event : ChannelView MsgEvent} {rest : List (MsgCommand D)} {server : ServerAt}
  {listener : ListenerAt} {calls : List (Call D)} {current : List MsgEvent} {φ : Phase D}

/-- The push of the command has returned. -/
theorem Exchange.pushed
    (hex : Exchange F cmds h command response ⟨.pushing, rest⟩ server calls current φ)
    {cmd : MsgCommand D} (hcmd : command.prod = .busy .forcePush cmd) {z : MsgCommand D}
    {queue : BoundedQueue (MsgCommand D)} {y : PushResult}
    (hq : command.queue.push (callSlots - 1) .forcePush cmd = (queue, .pushed y)) :
    Exchange F cmds h { command with queue := queue, prod := .idle z } response ⟨.pop, rest⟩ server
      calls current (.asked cmd) := by
  obtain ⟨rfl, hpop, cmd', hhead, hknown, hprod⟩ := hex.client
  rw [hprod] at hcmd
  cases hcmd
  rw [push_unread_nil hq (by decide) hex.commands]
  exact
    { hex with
      head := by
        rintro cmd' ⟨rfl⟩
        exact ⟨hhead, hknown⟩
      commands := rfl
      client := ⟨rfl, hpop, z, rfl⟩
      server := hex.server.idle rfl rfl }

/-- The pop of a response has returned. -/
theorem Exchange.popped
    (hex : Exchange F cmds h command response ⟨.popping, rest⟩ server calls current φ)
    {queue : BoundedQueue (MsgResponse D)} {y : PopResult} {z : Option (MsgResponse D)}
    (hq : response.queue.pop = (queue, .popped y z)) :
    (y = .noMsg ∨ y = .noUpdate) ∧
      Exchange F cmds h command { response with queue := queue, popping := false } ⟨.pop, rest⟩ server
        calls current φ ∨
    (y = .success ∨ y = .discarded) ∧ ∃ φ',
      Exchange F cmds h command { response with queue := queue, popping := false } ⟨.print, rest⟩
        server calls current φ' := by
  obtain ⟨hawaited, -, hidle⟩ := hex.client
  have hresponses := hex.responses
  -- Nothing to pop: the client asks again.
  have hnone : response.queue.unread = [] → (y = .noMsg ∨ y = .noUpdate) ∧
      Exchange F cmds h command { response with queue := queue, popping := false } ⟨.pop, rest⟩ server
        calls current φ := by
    intro hnil
    rw [BoundedQueue.pop_nil hnil] at hq
    cases hq
    constructor
    · split
      · exact Or.inr rfl
      · exact Or.inl rfl
    · exact { hex with client := ⟨hawaited, rfl, hidle⟩ }
  cases φ with
  -- the one response that is waiting
  | answered rsp =>
    rw [BoundedQueue.pop_cons hresponses] at hq
    cases hq
    refine Or.inr ⟨?_, .got rsp, ?_⟩
    · split
      · exact Or.inr rfl
      · exact Or.inl rfl
    · exact
        { hex with
          head := nofun
          responses := rfl
          client := ⟨⟨rsp, rfl, rfl⟩, rfl, hidle⟩
          server := hex.server.idle rfl rfl }
  -- a client that pops has an unanswered command
  | ask => cases hawaited
  | got rsp => cases hawaited
  | asked cmd => exact Or.inl (hnone hresponses)
  | taken cmd => exact Or.inl (hnone hresponses)
  | serving cmd => exact Or.inl (hnone hresponses)

/-- The client prints the response and goes on to the next command. -/
theorem Exchange.printed
    (hex : Exchange F cmds h command response ⟨.print, rest⟩ server calls current φ) :
    ∃ rsp, response.queue.held = some rsp ∧
      Exchange F cmds (h ++ [.received rsp]) command response ⟨.start, rest.tail⟩ server calls current
        .ask := by
  obtain ⟨⟨rsp, rfl, hheld⟩, hpop, hidle⟩ := hex.client
  refine ⟨rsp, hheld, ?_⟩
  exact
    { hex with
      head := nofun
      served := by
        rw [served_append]
        exact (congrArg (· ++ _) hex.served).trans (List.append_nil _)
      received := by
        rw [received_append]
        exact (List.append_nil _).trans hex.received
      events := by
        rw [sentEvents_append]
        exact (List.append_nil _).trans hex.events
      noError := List.not_mem_append hex.noError (by simp)
      client := ⟨rfl, hpop, hidle⟩
      server := hex.server.idle rfl rfl }

/-- The client can make its next step, and the invariant is kept. -/
theorem Inv.clientStep (hinv : Inv F cmds h s) (hpos : s.client.pos ≠ .returned) :
    ∃ s' o, s.clientStep = some (s', o) ∧ Inv F cmds (h ++ o) s' := by
  obtain ⟨command, response, event, calls, current, φ, hc, hr, he, hex, hstop, hlis⟩ := hinv
  obtain ⟨ch, ch', ch'', ⟨pos, rest⟩, server, listener⟩ := s
  have hat := hex.client
  cases pos with
  -- the next command is filled in, unless the list is at its end or at an unknown one
  | start =>
    obtain ⟨rfl, hpop, x, hx⟩ := hat
    cases rest with
    | nil =>
      refine ⟨_, _, rfl, ?_⟩
      exact .silent hc hr he { hex with client := ⟨rfl, hpop, ⟨x, hx⟩, nofun⟩ } hstop hlis
    | cons cmd rest =>
      by_cases hcmd : cmd.id = cmdidUnknown
      · refine ⟨_, _, if_pos hcmd, ?_⟩
        have hunknown : ∀ cmd', (cmd :: rest).head? = some cmd' → cmd'.id = cmdidUnknown := by
          rintro cmd' ⟨rfl⟩
          exact hcmd
        exact .silent hc hr he { hex with client := ⟨rfl, hpop, ⟨x, hx⟩, hunknown⟩ } hstop hlis
      · obtain ⟨c', hs, hc'⟩ := hc.modify callSlots_ok hx fun _ => cmd
        refine ⟨_, _, (if_neg hcmd).trans (congrArg (Option.map _) hs), ?_⟩
        exact .silent hc' hr he { hex with client := ⟨rfl, hpop, cmd, rfl, hcmd, rfl⟩ } hstop hlis
  | push =>
    obtain ⟨rfl, hpop, cmd, hhead, hknown, hx⟩ := hat
    obtain ⟨c', hs, hc'⟩ := hc.push callSlots_ok hx .forcePush
    refine ⟨_, _, congrArg (Option.map _) hs, ?_⟩
    exact .silent hc' hr he { hex with client := ⟨rfl, hpop, cmd, hhead, hknown, rfl⟩ } hstop hlis
  -- the push goes on, or the command is with the server
  | pushing =>
    dsimp only [State.clientStep]
    obtain ⟨-, -, cmd, -, -, hx⟩ := hat
    obtain ⟨c', ⟨hs, hc'⟩ | ⟨y, z, queue, hs, hq, hc'⟩⟩ := hc.pushStep callSlots_ok hx
    · refine ⟨_, _, hs _ _, ?_⟩
      exact .silent hc' hr he hex hstop hlis
    · refine ⟨_, _, hs _ _, ?_⟩
      exact .silent hc' hr he (hex.pushed hx hq) hstop hlis
  | pop =>
    obtain ⟨ha, hpop, hx⟩ := hat
    obtain ⟨r', hs, hr'⟩ := hr.pop callSlots_ok hpop
    refine ⟨_, _, congrArg (Option.map _) hs, ?_⟩
    exact .silent hc hr' he { hex with client := ⟨ha, rfl, hx⟩ } hstop hlis
  -- the pop goes on, finds nothing, or has the response
  | popping =>
    dsimp only [State.clientStep]
    obtain ⟨-, hpop, -⟩ := hat
    obtain ⟨r', ⟨hs, hr'⟩ | ⟨y, z, queue, hs, hq, hr'⟩⟩ := hr.popStep callSlots_ok hpop
    · refine ⟨_, _, hs _ _, ?_⟩
      exact .silent hc hr' he hex hstop hlis
    · rcases hex.popped hq with ⟨rfl | rfl, hex'⟩ | ⟨rfl | rfl, φ', hex'⟩
      all_goals
        refine ⟨_, _, hs _ _, ?_⟩
        exact .silent hc hr' he hex' hstop hlis
  -- the response is handed to the caller: the call is over
  | print =>
    obtain ⟨-, hpop, -⟩ := hat
    obtain ⟨rsp, hheld, hex'⟩ := hex.printed
    refine ⟨_, _, congrArg (Option.map _) ((hr.consumerMsg hpop).trans hheld), ?_⟩
    exact ⟨_, _, _, _, _, _, hc, hr, he, hex', hstop,
      listening_log hlis rfl rfl rfl (by simp) hlis.sender⟩
  | returned => exact absurd rfl hpos

end client

/-! ## The steps of the server

  From the pop of a command to the push of its response, with the events in between. -/

section server

variable {D : Type} {F : Double D} {cmds : List (MsgCommand D)} {h : List (Log D)} {s : State D}
  {command : ChannelView (MsgCommand D)} {response : ChannelView (MsgResponse D)}
  {event : ChannelView MsgEvent} {client : Client D} {server : ServerAt}
  {listener : ListenerAt} {calls : List (Call D)} {current : List MsgEvent} {φ : Phase D}

/-- The pop of a command has returned. -/
theorem Exchange.taken
    (hex : Exchange F cmds h command response client .popping calls current φ)
    {queue : BoundedQueue (MsgCommand D)} {y : PopResult} {z : Option (MsgCommand D)}
    (hq : command.queue.pop = (queue, .popped y z)) :
    (y = .noMsg ∨ y = .noUpdate) ∧
      Exchange F cmds h { command with queue := queue, popping := false } response client .pop calls
        current φ ∨
    (y = .success ∨ y = .discarded) ∧ ∃ φ',
      Exchange F cmds h { command with queue := queue, popping := false } response client .print calls
        current φ' := by
  obtain ⟨hi, hcurrent, -, hprod⟩ := hex.server
  have hcommands := hex.commands
  -- Nothing to pop: the server waits.
  have hnone : command.queue.unread = [] → (y = .noMsg ∨ y = .noUpdate) ∧
      Exchange F cmds h { command with queue := queue, popping := false } response client .pop calls
        current φ := by
    intro hnil
    rw [BoundedQueue.pop_nil hnil] at hq
    cases hq
    constructor
    · split
      · exact Or.inr rfl
      · exact Or.inl rfl
    · exact { hex with server := ⟨hi, hcurrent, rfl, hprod⟩ }
  cases φ with
  -- the one command that is waiting
  | asked cmd =>
    rw [BoundedQueue.pop_cons hcommands] at hq
    cases hq
    refine Or.inr ⟨?_, .taken cmd, ?_⟩
    · split
      · exact Or.inr rfl
      · exact Or.inl rfl
    · exact
        { hex with
          head := hex.head
          commands := rfl
          client := hex.client.awaited rfl rfl
          server := ⟨⟨cmd, rfl, rfl⟩, hcurrent, rfl, hprod⟩ }
  -- a server that pops has answered everything
  | taken cmd => cases hi
  | serving cmd => cases hi
  | ask => exact Or.inl (hnone hcommands)
  | answered rsp => exact Or.inl (hnone hcommands)
  | got rsp => exact Or.inl (hnone hcommands)

/-- The server prints the command and begins with the response. -/
theorem Exchange.begun {cmd : MsgCommand D}
    (hex : Exchange F cmds h command response client .print calls current (.taken cmd))
    (hheld : command.queue.held = some cmd) (x : MsgResponse D) :
    Exchange F cmds (h ++ [.served cmd]) command { response with prod := .idle { x with id := cmd.id } }
      client .select calls current (.serving cmd) := by
  obtain ⟨-, hcurrent, hpop, -⟩ := hex.server
  exact
    { hex with
      head := hex.head
      served := by
        rw [served_append, hex.served]
        exact congrArg (· ++ _) (List.append_nil _)
      received := by
        rw [received_append]
        exact (congrArg (· ++ _) (List.append_nil _)).trans hex.received
      events := by
        rw [sentEvents_append]
        exact (List.append_nil _).trans hex.events
      noError := List.not_mem_append hex.noError (by simp)
      client := hex.client.awaited rfl rfl
      server := ⟨hcurrent, hpop, cmd, _, rfl, hheld, rfl, rfl⟩ }

/-- The push of an event has returned. -/
theorem Exchange.eventPushed {args : SendEventArgs} {i : UInt32}
    (hex : Exchange F cmds h command response client (.pushingEvent args i) calls current φ)
    {y : PushResult} (hfail : y = .tryPush .fail → args.force = false) :
    ∃ current', Exchange F cmds (h ++ [.event { id := args.id, nr := i } y]) command response client
      (if y = .tryPush .fail then .sent i else .fill args (i + 1)) calls current' φ := by
  obtain ⟨hsend, hpop, hlt⟩ := hex.server
  have hserved : Rpc.served [Log.event (D := D) { id := args.id, nr := i } y] = [] := rfl
  have hreceived : Rpc.received [Log.event (D := D) { id := args.id, nr := i } y] = [] := rfl
  have hle : i ≤ args.num := UInt32.le_of_lt hlt
  -- A failed push ends the sending; any other counts the event as sent.
  by_cases hy : y = .tryPush .fail
  · have hevents : sentEvents [Log.event (D := D) { id := args.id, nr := i } y] = [] := by
      rw [hy]
      rfl
    rw [if_pos hy]
    refine ⟨current, ?_⟩
    -- only a `try_push` fails, so the command did not ask for force
    have hforce := hfail hy
    have hlog := exchange_log hex hserved hreceived hevents (by simp)
    exact { hlog with server := ⟨hpop, args, hsend, hle, fun hno => by rw [hforce] at hno; cases hno⟩ }
  · have hevents : sentEvents [Log.event (D := D) { id := args.id, nr := i } y] =
        [{ id := args.id, nr := i }] := by
      simp only [sentEvents, List.filterMap_cons, if_neg hy, List.filterMap_nil]
    rw [if_neg hy]
    obtain ⟨cmd, x, hφ, hid, rfl, hprod, hx, hcurrent⟩ := hsend
    have hsucc := @eventsOf_next _ cmd _ _ hlt
    refine ⟨eventsOf cmd (i + 1), ?_⟩
    exact
      { hex with
        served := by rw [served_append, hserved, List.append_nil, hex.served]
        received := by rw [received_append, hreceived, List.append_nil, hex.received]
        events := by
          rw [sentEvents_append, hevents, hex.events, hcurrent, hsucc, List.append_assoc]
        noError := List.not_mem_append hex.noError (by simp)
        server := ⟨⟨cmd, x, hφ, hid, rfl, hprod, hx, rfl⟩, hpop, next_le hlt⟩ }

/-- The push of the response has returned. -/
theorem Exchange.responded {run : Bool}
    (hex : Exchange F cmds h command response client (.pushing run) calls current φ)
    {x z : MsgResponse D} (hx : response.prod = .busy .forcePush x)
    {queue : BoundedQueue (MsgResponse D)} {y : PushResult}
    (hq : response.queue.push (callSlots - 1) .forcePush x = (queue, .pushed y)) :
    ∃ c φ', (run = true → c.cmd.id ≠ cmdidStop) ∧ ∀ pos, pos = .pop ∨ pos = .returned →
      Exchange F cmds h command { response with queue := queue, prod := .idle z } client pos
        (calls ++ [c]) [] φ' := by
  obtain ⟨hpop, cmd, x', k, rfl, hprod, hans, hcurrent, hrun⟩ := hex.server
  rw [hprod] at hx
  cases hx
  -- The command in service is the first one the client has not got an answer for.
  obtain ⟨hhead, hknown⟩ := hex.head cmd rfl
  rw [push_unread_nil hq (by decide) hex.responses]
  refine ⟨⟨cmd, x, k⟩, .answered x, hrun, ?_⟩
  intro pos hpos
  -- With its answer it is one of the calls.
  have hcmds : cmd :: client.cmds.tail = client.cmds := List.cons_head?_tail hhead
  exact
    { cmds := by
        rw [List.map_append, List.append_assoc]
        exact (congrArg _ hcmds).trans hex.cmds
      head := nofun
      known := by
        intro c hc
        rcases List.mem_append.mp hc with hc | hc
        · exact hex.known c hc
        · rw [List.mem_singleton.mp hc]
          exact hknown
      answers := by
        intro c hc
        rcases List.mem_append.mp hc with hc | hc
        · exact hex.answers c hc
        · rw [List.mem_singleton.mp hc]
          exact hans
      served := by
        rw [hex.served, List.map_append]
        exact (List.append_nil _).symm
      received := by
        rw [List.map_append, ← hex.received]
        exact congrArg (· ++ _) (List.append_nil _).symm
      events := by
        rw [hex.events, hcurrent, List.flatMap_append, List.append_nil]
        exact congrArg _ (List.append_nil _).symm
      noError := hex.noError
      commands := hex.commands
      responses := rfl
      client := hex.client.awaited rfl rfl
      server := by
        rcases hpos with rfl | rfl
        · exact ⟨rfl, rfl, hpop, z, rfl⟩
        · exact ⟨rfl, rfl, hpop, z, rfl⟩ }

/-- An event is appended; `kept` are the unread events that are not discarded. -/
theorem Listening.appended {o : List (Log D)} {m : MsgEvent} {kept : List MsgEvent}
    {queue : BoundedQueue MsgEvent} {prod : PushAt MsgEvent} {server' : ServerAt}
    (hlis : Listening h event server listener)
    (hkept : kept.Sublist event.queue.unread)
    (hlen : kept.length + lostEvents o = event.queue.unread.length)
    (hunread : queue.unread = kept ++ [m]) (hheld : queue.held = event.queue.held)
    (hsize : queue.size ≤ eventSlots - 1) (hlistened : listened o = []) (hevents : sentEvents o = [m])
    (hempty : Log.queueEmpty ∉ o) (hserver : AtSender prod server') :
    Listening (h ++ o) { event with queue := queue, prod := prod } server' listener := by
  refine ⟨hserver, ?_, ?_, ?_, hsize, List.not_mem_append hlis.noEmpty hempty⟩
  · -- the listener finds the new event at the latest
    have hpoint := hlis.point
    have hne : queue.unread ≠ [] := by
      rw [hunread]
      exact List.concat_ne_nil _ _
    cases listener with
    | poll => exact hpoint
    | returned => exact hpoint
    | pop => exact ⟨hpoint.1, hne⟩
    | popping => exact ⟨hpoint.1, hne⟩
    | print => exact ⟨hpoint.1, hheld ▸ hpoint.2⟩
  · rw [listened_append, sentEvents_append, hlistened, hevents, List.append_nil, hheld, hunread,
      ← List.append_assoc]
    refine List.Sublist.append_right (.trans ?_ hlis.order) [m]
    exact hkept.append_left _
  · -- one more sent, one more unread
    have hcount := hlis.count
    rw [listened_append, sentEvents_append, lostEvents_append, hlistened, hevents, List.append_nil,
      hheld, hunread]
    simp only [List.length_append, List.length_singleton] at hcount ⊢
    omega

/-- What the push of an event returns is what has happened to the event. -/
theorem Listening.eventPushed {args : SendEventArgs} {m z : MsgEvent} {y : PushResult}
    {queue : BoundedQueue MsgEvent} {server' : ServerAt}
    (hlis : Listening h event server listener)
    (hq : event.queue.push (eventSlots - 1) args.op m = (queue, .pushed y))
    (hserver : AtSender (.idle z) server') :
    (y = .tryPush .fail → args.force = false) ∧
      Listening (h ++ [.event m y]) { event with queue := queue, prod := .idle z } server' listener := by
  have hsize := hlis.size
  -- With room the event is appended. In a full queue a `try_push` fails and a force push drops the
  -- oldest one.
  by_cases hroom : event.queue.size < eventSlots - 1
  · rw [BoundedQueue.push_room hroom] at hq
    cases hq
    have hsucc : sentEvents [Log.event (D := D) m args.op.success] = [m] ∧
        lostEvents [Log.event (D := D) m args.op.success] = 0 ∧
        args.op.success ≠ .tryPush .fail := by
      cases args.op <;> exact ⟨rfl, rfl, by decide⟩
    refine ⟨fun hno => absurd hno hsucc.2.2, hlis.appended (.refl _) ?_ rfl rfl ?_ rfl hsucc.1
      (by simp) hserver⟩
    · rw [hsucc.2.1]
      rfl
    · rw [BoundedQueue.size] at hroom ⊢
      rw [List.length_append, List.length_singleton]
      show event.queue.unread.length + 1 + event.queue.held.toList.length ≤ _
      omega
  · have hheld : event.queue.held.toList.length ≤ 1 := by cases event.queue.held <;> simp
    have hcap : eventSlots - 1 = 12 := rfl
    cases hforce : args.force with
    | false =>
      rw [SendEventArgs.op, hforce, if_neg Bool.false_ne_true, BoundedQueue.tryPush_full hroom] at hq
      cases hq
      refine ⟨fun _ => rfl, ?_⟩
      have hlog := listening_log (o := [Log.event m (.tryPush .fail)]) hlis rfl rfl rfl (by simp)
        hlis.sender
      exact { hlog with sender := hserver }
    | true =>
      rw [SendEventArgs.op, hforce, if_pos rfl, BoundedQueue.forcePush_full hroom] at hq
      cases hq
      rw [BoundedQueue.size] at hroom hsize
      -- the rest of the unread events stays in its order
      have hkept := List.tail_sublist event.queue.unread
      constructor
      · intro hno
        cases hno
      · refine hlis.appended hkept ?_ rfl rfl ?_ rfl rfl (by simp) hserver
        · show event.queue.unread.tail.length + 1 = _
          rw [List.length_tail]
          omega
        · show (event.queue.unread.tail ++ [m]).length + event.queue.held.toList.length ≤ _
          rw [List.length_append, List.length_tail, List.length_singleton]
          omega

/-- Between two pushes of events the server can do what it likes. -/
theorem Listening.serverAt {server' : ServerAt} (hlis : Listening h event server listener)
    (hserver : AtSender event.prod server') : Listening h event server' listener :=
  { hlis with sender := hserver }

/-- The command `c` has been answered. -/
theorem Stopping.answered {c : Call D} (hbefore : ∀ c' ∈ calls, c'.cmd.id ≠ cmdidStop)
    (hc : server ≠ .returned → c.cmd.id ≠ cmdidStop) : Stopping (calls ++ [c]) server where
  before := by
    rw [List.dropLast_concat]
    exact hbefore
  running := by
    intro hpos c' hc'
    rcases List.mem_append.mp hc' with hc' | hc'
    · exact hbefore c' hc'
    · rw [List.mem_singleton.mp hc']
      exact hc hpos

/-- The server can make its next step, and the invariant is kept. -/
theorem Inv.serverStep (hinv : Inv F cmds h s) (hpos : s.server.pos ≠ .returned) :
    ∃ s' o, s.serverStep F = some (s', o) ∧ Inv F cmds (h ++ o) s' := by
  obtain ⟨command, response, event, calls, current, φ, hc, hr, he, hex, hstop, hlis⟩ := hinv
  obtain ⟨ch, ch', ch'', client, ⟨pos, cycle⟩, listener⟩ := s
  -- Until the server has returned no STOP has been answered.
  replace hstop : ∀ pos, Stopping calls pos := fun _ => ⟨hstop.before, fun _ => hstop.running hpos⟩
  have hat := hex.server
  have hsend := hlis.sender
  cases pos with
  -- a cycle begins, or the cycles are used up
  | pop =>
    dsimp only [State.serverStep]
    obtain ⟨hi, hcurrent, hpop, hprod⟩ := hat
    by_cases hcycle : cycle < maxCycles
    · obtain ⟨c', hs, hc'⟩ := hc.pop callSlots_ok hpop
      refine ⟨_, _, (if_pos hcycle).trans (congrArg (Option.map _) hs), ?_⟩
      exact .silent hc' hr he { hex with server := ⟨hi, hcurrent, rfl, hprod⟩ } (hstop _)
        (hlis.serverAt hsend)
    · refine ⟨_, _, if_neg hcycle, ?_⟩
      exact .silent hc hr he { hex with server := ⟨hi, hcurrent, hpop, hprod⟩ } (hstop _)
        (hlis.serverAt hsend)
  -- the pop goes on, finds nothing, or has a command
  | popping =>
    dsimp only [State.serverStep]
    obtain ⟨-, -, hpop, -⟩ := hat
    obtain ⟨c', ⟨hs, hc'⟩ | ⟨y, z, queue, hs, hq, hc'⟩⟩ := hc.popStep callSlots_ok hpop
    · refine ⟨_, _, hs _ _, ?_⟩
      exact .silent hc' hr he hex (hstop _) hlis
    · rcases hex.taken hq with ⟨rfl | rfl, hex'⟩ | ⟨rfl | rfl, φ', hex'⟩
      all_goals
        refine ⟨_, _, hs _ _, ?_⟩
        exact .silent hc' hr he hex' (hstop _) (hlis.serverAt hsend)
  -- the command is in service from here on
  | print =>
    dsimp only [State.serverStep]
    obtain ⟨⟨cmd, rfl, hheld⟩, -, hpop, x, hx⟩ := hat
    obtain ⟨r', hs, hr'⟩ := hr.modify callSlots_ok hx fun rsp => { rsp with id := cmd.id }
    rw [(hc.consumerMsg hpop).trans hheld]
    refine ⟨_, _, congrArg (Option.map _) hs, ?_⟩
    exact ⟨_, _, _, _, _, _, hc, hr', he, hex.begun hheld x,
      hstop _, listening_log hlis rfl rfl rfl (by simp) hsend⟩
  -- SENDEVENT sends events before it answers; every other command is answered at once
  | select =>
    dsimp only [State.serverStep]
    obtain ⟨hcurrent, hpop, cmd, x, rfl, hheld, hx, hid⟩ := hat
    rw [(hc.consumerMsg hpop).trans hheld]
    by_cases hcmd : cmd.id = cmdidSendevent
    · refine ⟨_, _, if_pos hcmd, ?_⟩
      exact .silent hc hr he
        { hex with
          server := ⟨⟨cmd, x, rfl, hcmd, rfl, hx, hid, hcurrent⟩, hpop, UInt32.zero_le⟩ }
        (hstop _) (hlis.serverAt hsend)
    · obtain ⟨r', hs, hr'⟩ := hr.modify callSlots_ok hx (respond F cmd)
      refine ⟨_, _, (if_neg hcmd).trans (congrArg (Option.map _) hs), ?_⟩
      exact .silent hc hr' he
        { hex with
          server := ⟨hpop, cmd, _, 0, rfl, rfl, respond_answers hid hcmd, hcurrent,
            of_decide_eq_true⟩ }
        (hstop _) (hlis.serverAt hsend)
  -- the next event, if there is one left
  | fill args i =>
    dsimp only [State.serverStep]
    obtain ⟨hsending, hpop, hle⟩ := hat
    obtain ⟨x, hx⟩ := hsend
    by_cases hlt : i < args.num
    · obtain ⟨e', hs, he'⟩ := he.modify eventSlots_ok hx fun _ => { id := args.id, nr := i }
      refine ⟨_, _, (if_pos hlt).trans (congrArg (Option.map _) hs), ?_⟩
      exact .silent hc hr he' { hex with server := ⟨hsending, hpop, hlt⟩ } (hstop _)
        { hlis with sender := rfl }
    · have hnum : i = args.num := UInt32.le_antisymm hle (UInt32.not_lt.mp hlt)
      subst hnum
      refine ⟨_, _, if_neg hlt, ?_⟩
      exact .silent hc hr he { hex with server := ⟨hpop, args, hsending, hle, fun _ => rfl⟩ }
        (hstop _) (hlis.serverAt ⟨x, hx⟩)
  | pushEvent args i =>
    dsimp only [State.serverStep]
    obtain ⟨e', hs, he'⟩ := he.push eventSlots_ok hsend args.op
    refine ⟨_, _, congrArg (Option.map _) hs, ?_⟩
    exact .silent hc hr he' { hex with server := hat } (hstop _) { hlis with sender := rfl }
  -- the push goes on, or the event is sent or lost
  | pushingEvent args i =>
    dsimp only [State.serverStep]
    obtain ⟨e', ⟨hs, he'⟩ | ⟨y, z, queue, hs, hq, he'⟩⟩ := he.pushStep eventSlots_ok hsend
    · refine ⟨_, _, hs _ _, ?_⟩
      exact .silent hc hr he' hex (hstop _) hlis
    · refine ⟨_, _, hs _ _, ?_⟩
      have hserver : AtSender (.idle z)
          (if y = .tryPush .fail then .sent i else .fill args (i + 1)) := by
        split <;> exact ⟨z, rfl⟩
      obtain ⟨hfail, hlis'⟩ := hlis.eventPushed hq hserver
      obtain ⟨current', hex'⟩ := hex.eventPushed hfail
      exact ⟨_, _, _, _, _, _, hc, hr, he', hex', hstop _, hlis'⟩
  -- the result is the number of events sent
  | sent num =>
    dsimp only [State.serverStep]
    obtain ⟨hpop, args, ⟨cmd, x, rfl, hcmd, rfl, hx, hid, hcurrent⟩, hle, hforce⟩ := hat
    obtain ⟨r', hs, hr'⟩ := hr.modify callSlots_ok hx fun rsp => { rsp with result := num.toInt32 }
    have hrun : cmd.id ≠ cmdidStop := by
      rw [hcmd]
      decide
    refine ⟨_, _, congrArg (Option.map _) hs, ?_⟩
    exact .silent hc hr' he
      { hex with
        server := ⟨hpop, cmd, _, num, rfl, rfl, hid ▸ .sent hcmd hle hforce, hcurrent, fun _ => hrun⟩ }
      (hstop _) (hlis.serverAt hsend)
  | push run =>
    dsimp only [State.serverStep]
    obtain ⟨hpop, cmd, x, k, rfl, hx, hans, hcurrent, hrun⟩ := hat
    obtain ⟨r', hs, hr'⟩ := hr.push callSlots_ok hx .forcePush
    refine ⟨_, _, congrArg (Option.map _) hs, ?_⟩
    exact .silent hc hr' he { hex with server := ⟨hpop, cmd, x, k, rfl, rfl, hans, hcurrent, hrun⟩ }
      (hstop _) (hlis.serverAt hsend)
  -- the push goes on, or the command is answered; STOP ends the server
  | pushing run =>
    dsimp only [State.serverStep]
    obtain ⟨-, cmd, x, k, -, hx, -⟩ := hat
    obtain ⟨r', ⟨hs, hr'⟩ | ⟨y, z, queue, hs, hq, hr'⟩⟩ := hr.pushStep callSlots_ok hx
    · refine ⟨_, _, hs _ _, ?_⟩
      exact .silent hc hr' he hex (hstop _) hlis
    · obtain ⟨c, φ', hrun, hex'⟩ := hex.responded hx hq
      have hbefore := (hstop (.pushing run)).running nofun
      refine ⟨_, _, hs _ _, ?_⟩
      cases run with
      | true =>
        exact .silent hc hr' he (hex' _ (Or.inl rfl)) (.answered hbefore fun _ => hrun rfl)
          (hlis.serverAt hsend)
      | false =>
        exact .silent hc hr' he (hex' _ (Or.inr rfl)) (.answered hbefore fun hno => absurd rfl hno)
          (hlis.serverAt hsend)
  | returned => exact absurd rfl hpos

end server

/-! ## The steps of the listener -/

section listener

variable {D : Type} {F : Double D} {cmds : List (MsgCommand D)} {h : List (Log D)} {s : State D}
  {event : ChannelView MsgEvent} {server : ServerAt}

/-- The pop of an event has returned: there was one. -/
theorem Listening.popped (hlis : Listening h event server .popping) {queue : BoundedQueue MsgEvent}
    {y : PopResult} {z : Option MsgEvent} (hq : event.queue.pop = (queue, .popped y z)) :
    ¬ (y = .noMsg ∨ y = .noUpdate) ∧
      Listening h { event with queue := queue, popping := false } server .print := by
  obtain ⟨-, hne⟩ := hlis.point
  obtain ⟨m, rest, hunread⟩ := List.exists_cons_of_ne_nil hne
  rw [BoundedQueue.pop_cons hunread] at hq
  cases hq
  have horder := hlis.order
  have hcount := hlis.count
  have hsize := hlis.size
  have hcons : listened h ++ unprinted event.queue.held .popping ++ event.queue.unread =
      listened h ++ [m] ++ rest := by
    rw [hunread, List.append_assoc, List.append_assoc]
    rfl
  rw [hcons] at horder hcount
  refine ⟨?_, hlis.sender, ⟨rfl, rfl⟩, horder, hcount, ?_, hlis.noEmpty⟩
  · split <;> rintro (hno | hno) <;> cases hno
  · rw [BoundedQueue.size, hunread] at hsize
    show rest.length + 1 ≤ _
    rw [List.length_cons] at hsize
    omega

/-- The listener prints the event. -/
theorem Listening.printed (hlis : Listening h event server .print) {m : MsgEvent}
    (hheld : event.queue.held = some m) : Listening (h ++ [.listened m]) event server .poll := by
  have horder := hlis.order
  have hcount := hlis.count
  have hcons : listened h ++ unprinted event.queue.held .print =
      listened (h ++ [.listened m]) ++ unprinted event.queue.held .poll := by
    rw [listened_append, hheld]
    exact (List.append_nil _).symm
  have hevents : sentEvents (h ++ [.listened m]) = sentEvents h := by
    rw [sentEvents_append]
    exact List.append_nil _
  have hlost : lostEvents (h ++ [.listened m]) = lostEvents h := by
    rw [lostEvents_append]
    rfl
  rw [hcons] at horder hcount
  refine ⟨hlis.sender, hlis.point.1, hevents ▸ horder, ?_, hlis.size,
    List.not_mem_append hlis.noEmpty (by simp)⟩
  rw [hevents, hlost]
  exact hcount

/-- The listener can make its next step, and the invariant is kept. -/
theorem Inv.listenerStep (hinv : Inv F cmds h s) (hpos : s.listener ≠ .returned) :
    ∃ s' o, s.listenerStep = some (s', o) ∧ Inv F cmds (h ++ o) s' := by
  obtain ⟨command, response, event, calls, current, φ, hc, hr, he, hex, hstop, hlis⟩ := hinv
  obtain ⟨ch, ch', ch'', client, server, pos⟩ := s
  have hat := hlis.point
  cases pos with
  -- the counter says whether there is something unread
  | poll =>
    refine ⟨_, _, rfl, .silent hc hr he hex hstop ?_⟩
    by_cases hcount : 0 < ch''.mem.eventfd
    · -- the counter is the number of unread events, so the pop that follows finds one
      have hne : event.queue.unread ≠ [] := by
        rw [← List.length_pos_iff, he.counter eventSlots_ok hat]
        exact hcount
      show Listening h event server.pos (if 0 < ch''.mem.eventfd then .pop else .poll)
      rw [if_pos hcount]
      exact { hlis with point := ⟨hat, hne⟩ }
    · show Listening h event server.pos (if 0 < ch''.mem.eventfd then .pop else .poll)
      rw [if_neg hcount]
      exact hlis
  | pop =>
    obtain ⟨e', hs, he'⟩ := he.pop eventSlots_ok hat.1
    refine ⟨_, _, congrArg (Option.map _) hs, ?_⟩
    exact .silent hc hr he' hex hstop { hlis with point := ⟨rfl, hat.2⟩ }
  -- so the listener never sees an empty queue
  | popping =>
    dsimp only [State.listenerStep]
    obtain ⟨e', ⟨hs, he'⟩ | ⟨y, z, queue, hs, hq, he'⟩⟩ := he.popStep eventSlots_ok hat.1
    · refine ⟨_, _, hs _ _, ?_⟩
      exact .silent hc hr he' hex hstop hlis
    · obtain ⟨hsome, hlis'⟩ := hlis.popped hq
      refine ⟨_, _, hs _ _, ?_⟩
      rw [if_neg hsome]
      exact .silent hc hr he' hex hstop hlis'
  | print =>
    obtain ⟨hpop, hsome⟩ := hat
    obtain ⟨m, hm⟩ := Option.isSome_iff_exists.mp hsome
    refine ⟨_, _, congrArg (Option.map _) ((he.consumerMsg hpop).trans hm), ?_⟩
    exact ⟨_, _, _, _, _, _, hc, hr, he, exchange_log hex rfl rfl rfl (by simp), hstop,
      hlis.printed hm⟩
  | returned => exact absurd rfl hpos

/-- A poll that fails ends the listener. -/
theorem Inv.pollFails (hinv : Inv F cmds h s) {s' : State D} {o : List (Log D)}
    (hs : s.pollFails = some (s', o)) : Inv F cmds (h ++ o) s' := by
  obtain ⟨command, response, event, calls, current, φ, hc, hr, he, hex, hstop, hlis⟩ := hinv
  obtain ⟨ch, ch', ch'', client, server, pos⟩ := s
  cases pos with
  | poll =>
    cases hs
    exact .silent hc hr he hex hstop { hlis with point := hlis.point }
  | pop => cases hs
  | popping => cases hs
  | print => cases hs
  | returned => cases hs

end listener

/-! ## Runs -/

section runs

variable {D : Type} {F : Double D} {cmds : List (MsgCommand D)} {h : List (Log D)} {s s' : State D}
  {o : List (Log D)}

/-- The invariant at the start. -/
theorem Inv.of_init (hinit : (system F cmds).init s) : Inv F cmds [] s := by
  obtain ⟨command, response, event, hc, hr, he, rfl⟩ := hinit
  obtain ⟨x, hc⟩ := Shows.of_init callSlots_ok hc
  obtain ⟨x', hr⟩ := Shows.of_init callSlots_ok hr
  obtain ⟨x'', he⟩ := Shows.of_init eventSlots_ok he
  refine ⟨_, _, _, [], [], .ask, hc, hr, he, ?_, ⟨nofun, nofun⟩, ?_⟩
  · exact
      { cmds := rfl
        head := nofun
        known := nofun
        answers := nofun
        served := rfl
        received := rfl
        events := rfl
        noError := List.not_mem_nil
        commands := rfl
        responses := rfl
        client := ⟨rfl, rfl, x, rfl⟩
        server := ⟨rfl, rfl, rfl, x', rfl⟩ }
  · exact
      { sender := ⟨x'', rfl⟩
        point := rfl
        order := .refl _
        count := rfl
        size := Nat.zero_le _
        noEmpty := List.not_mem_nil }

/-- The invariant is kept by the steps of all. -/
theorem Inv.step (hinv : Inv F cmds h s) {e : Event} (hs : (system F cmds).step s e = some (s', o)) :
    Inv F cmds (h ++ o) s' := by
  have hkept : ∀ {step : Option (State D × List (Log D))}, step = some (s', o) →
      (∃ t p, step = some (t, p) ∧ Inv F cmds (h ++ p) t) → Inv F cmds (h ++ o) s' := by
    rintro step hstep ⟨t, p, hstep', hinv'⟩
    cases hstep.symm.trans hstep'
    exact hinv'
  cases e with
  | client =>
    refine hkept hs (hinv.clientStep fun hpos => ?_)
    replace hs : s.clientStep = some (s', o) := hs
    rw [State.clientStep, hpos] at hs
    cases hs
  | server =>
    refine hkept hs (hinv.serverStep fun hpos => ?_)
    replace hs : s.serverStep F = some (s', o) := hs
    rw [State.serverStep, hpos] at hs
    cases hs
  | listener =>
    refine hkept hs (hinv.listenerStep fun hpos => ?_)
    replace hs : s.listenerStep = some (s', o) := hs
    rw [State.listenerStep, hpos] at hs
    cases hs
  | pollFails => exact hinv.pollFails hs

/-- The invariant in every run. -/
theorem Inv.of_observed (hr : (system F cmds).Observed Machine.always State.log h s) :
    Inv F cmds h s := by
  refine hr.invariant ?_ ?_
  · intro s hinit
    exact Inv.of_init hinit
  · intro h s e s' o hinv _ hs
    exact hinv.step hs

/-- What a run says about its calls: `calls` have been answered, `inService` is the command the server
    has printed and not answered. -/
structure InOrder (F : Double D) (cmds : List (MsgCommand D)) (h : List (Log D))
    (calls : List (Call D)) (inService : List (MsgCommand D)) : Prop where
  answers : ∀ c ∈ calls, Answers F c.cmd c.rsp c.sent
  /-- the commands are served in their order, each once, and one at a time -/
  commands : served h <+: cmds
  served : served h = calls.map Call.cmd ++ inService
  one : inService.length ≤ 1
  known : ∀ cmd ∈ Rpc.served h, cmd.id ≠ cmdidUnknown
  /-- nothing is served after a command to stop -/
  stop : ∀ cmd ∈ (Rpc.served h).dropLast, cmd.id ≠ cmdidStop
  /-- the responses arrive in the order of the commands, and at most one is under way -/
  received : received h <+: calls.map Call.rsp
  waiting : calls.length ≤ (Rpc.received h).length + 1
  /-- the events of a command are sent before it is answered, and no others -/
  events : ∃ k, sentEvents h = calls.flatMap Call.events ++ inService.flatMap (eventsOf · k)
  noError : Log.receiveError ∉ h

/-- The events the server still has to send are the last ones of the command in service. -/
theorem AtServer.current_eq {φ : Phase D} {popping : Bool} {held : Option (MsgCommand D)}
    {prod : PushAt (MsgResponse D)} {current : List MsgEvent} {pos : ServerAt}
    (hat : AtServer F φ popping held prod current pos) :
    ∃ k, current = φ.inService.flatMap (eventsOf · k) := by
  -- Between commands no events are under way.
  have hidle : φ.idle = true → current = [] → ∃ k, current = φ.inService.flatMap (eventsOf · k) := by
    rintro hi rfl
    cases φ with
    | taken cmd => cases hi
    | serving cmd => cases hi
    | _ => exact ⟨0, rfl⟩
  -- In service those up to the number of the place in the code.
  have hserving : ∀ cmd k, φ = .serving cmd → current = eventsOf cmd k →
      ∃ k, current = φ.inService.flatMap (eventsOf · k) := by
    rintro cmd k rfl rfl
    exact ⟨k, (List.append_nil _).symm⟩
  cases pos with
  | pop => exact hidle hat.1 hat.2.1
  | popping => exact hidle hat.1 hat.2.1
  | returned => exact hidle hat.1 hat.2.1
  | print =>
    obtain ⟨⟨cmd, rfl, -⟩, rfl, -⟩ := hat
    exact ⟨0, rfl⟩
  | select =>
    obtain ⟨hcurrent, -, cmd, x, hφ, -⟩ := hat
    exact hserving cmd 0 hφ hcurrent
  | fill args i =>
    obtain ⟨⟨cmd, x, hφ, -, -, -, -, hcurrent⟩, -⟩ := hat
    exact hserving cmd i hφ hcurrent
  | pushEvent args i =>
    obtain ⟨⟨cmd, x, hφ, -, -, -, -, hcurrent⟩, -⟩ := hat
    exact hserving cmd i hφ hcurrent
  | pushingEvent args i =>
    obtain ⟨⟨cmd, x, hφ, -, -, -, -, hcurrent⟩, -⟩ := hat
    exact hserving cmd i hφ hcurrent
  | sent k =>
    obtain ⟨-, args, ⟨cmd, x, hφ, -, -, -, -, hcurrent⟩, -⟩ := hat
    exact hserving cmd k hφ hcurrent
  | push run =>
    obtain ⟨-, cmd, x, k, hφ, -, -, hcurrent, -⟩ := hat
    exact hserving cmd k hφ hcurrent
  | pushing run =>
    obtain ⟨-, cmd, x, k, hφ, -, -, hcurrent, -⟩ := hat
    exact hserving cmd k hφ hcurrent

/-- Commands, responses and events in order, read off the phase. -/
theorem Exchange.inOrder {command : ChannelView (MsgCommand D)}
    {response : ChannelView (MsgResponse D)} {client : Client D} {server : ServerAt}
    {calls : List (Call D)} {current : List MsgEvent} {φ : Phase D}
    (hex : Exchange F cmds h command response client server calls current φ)
    (hstop : Stopping calls server) : InOrder F cmds h calls φ.inService := by
  obtain ⟨k, hcurrent⟩ := hex.server.current_eq
  refine ⟨hex.answers, ?_, hex.served, ?_, ?_, ?_, ⟨_, hex.received⟩, ?_, ⟨k, ?_⟩, hex.noError⟩
  · -- what has been served is a prefix of the commands
    rw [hex.served, ← hex.cmds]
    refine (List.prefix_append_right_inj _).mpr ?_
    cases φ with
    | serving cmd =>
      obtain ⟨hhead, -⟩ := hex.head cmd rfl
      exact ⟨client.cmds.tail, List.cons_head?_tail hhead⟩
    | _ => exact List.nil_prefix
  · cases φ <;> simp [Phase.inService]
  · intro cmd hcmd
    rw [hex.served, List.mem_append, List.mem_map] at hcmd
    rcases hcmd with ⟨c, hc, rfl⟩ | hcmd
    · exact hex.known c hc
    · cases φ with
      | serving cmd' =>
        obtain rfl := List.mem_singleton.mp hcmd
        exact (hex.head cmd rfl).2
      | _ => exact absurd hcmd List.not_mem_nil
  · intro cmd hcmd
    rw [hex.served] at hcmd
    -- no command comes after STOP
    have hbefore : cmd ∈ (calls.map Call.cmd).dropLast → cmd.id ≠ cmdidStop := by
      intro hcmd
      rw [← List.map_dropLast, List.mem_map] at hcmd
      obtain ⟨c, hc, rfl⟩ := hcmd
      exact hstop.before c hc
    cases φ with
    | serving cmd' =>
      replace hcmd : cmd ∈ (calls.map Call.cmd ++ [cmd']).dropLast := hcmd
      rw [List.dropLast_concat, List.mem_map] at hcmd
      obtain ⟨c, hc, rfl⟩ := hcmd
      refine hstop.running ?_ c hc
      rintro rfl
      cases hex.server.1
    | _ => exact hbefore (List.append_nil (calls.map Call.cmd) ▸ hcmd)
  · -- at most one answer is on its way
    have hlen := congrArg List.length hex.received
    rw [List.length_append, List.length_map] at hlen
    have hone : φ.unreceived.length ≤ 1 := by cases φ <;> simp [Phase.unreceived]
    omega
  · rw [hex.events, hcurrent]

/-- A server without a command has printed all commands up to the first `CMDID_UNKNOWN`, iff none of them
    is left. -/
theorem Exchange.served_all_iff {command : ChannelView (MsgCommand D)}
    {response : ChannelView (MsgResponse D)} {client : Client D} {server : ServerAt}
    {calls : List (Call D)} {current : List MsgEvent} {φ : Phase D}
    (hex : Exchange F cmds h command response client server calls current φ)
    (hidle : φ.idle = true) :
    Rpc.served h = cmds.takeWhile (·.id ≠ cmdidUnknown) ↔
      ∀ cmd, (φ.todo client.cmds).head? = some cmd → cmd.id = cmdidUnknown := by
  have hserved : Rpc.served h = calls.map Call.cmd := by
    rw [hex.served]
    cases φ with
    | serving cmd => cases hidle
    | _ => exact List.append_nil _
  -- Everything served has a known id, so the two lists agree up to the first unknown one.
  have hknown : ∀ cmd ∈ calls.map Call.cmd, decide (cmd.id ≠ cmdidUnknown) = true := by
    intro cmd hcmd
    obtain ⟨c, hc, rfl⟩ := List.mem_map.mp hcmd
    exact decide_eq_true (hex.known c hc)
  rw [hserved, ← hex.cmds, List.takeWhile_append_of_pos hknown, List.self_eq_append_right]
  cases φ.todo client.cmds with
  | nil => exact iff_of_true rfl nofun
  | cons cmd rest =>
    rw [List.takeWhile_cons]
    by_cases hcmd : cmd.id = cmdidUnknown
    · refine iff_of_true (if_neg (by simpa using hcmd)) ?_
      rintro cmd' ⟨rfl⟩
      exact hcmd
    · refine iff_of_false ?_ fun hno => hcmd (hno cmd rfl)
      rw [if_pos (decide_eq_true hcmd)]
      exact List.cons_ne_nil _ _

/-- In every run of the example the calls are answered in order, neither the client nor the server is
    ever stuck, and a client that returns has the responses to all commands up to the first
    `CMDID_UNKNOWN`. -/
theorem rpc_calls (hr : (system F cmds).Observed Machine.always State.log h s) :
    (∃ calls inService, InOrder F cmds h calls inService) ∧
    (s.client.pos = .returned → ∃ calls, InOrder F cmds h calls [] ∧
      received h = calls.map Call.rsp ∧ served h = cmds.takeWhile (·.id ≠ cmdidUnknown)) ∧
    (s.client.pos ≠ .returned → s.clientStep.isSome = true) ∧
    (s.server.pos ≠ .returned → (s.serverStep F).isSome = true) := by
  have hinv := Inv.of_observed hr
  refine ⟨?_, ?_, ?_, ?_⟩
  · obtain ⟨_, _, _, calls, _, φ, -, -, -, hex, hstop, -⟩ := hinv
    exact ⟨calls, φ.inService, hex.inOrder hstop⟩
  · intro hpos
    obtain ⟨_, _, _, calls, _, φ, -, -, -, hex, hstop, -⟩ := hinv
    have hat := hex.client
    rw [hpos] at hat
    obtain ⟨rfl, -, -, hunknown⟩ := hat
    refine ⟨calls, hex.inOrder hstop, (List.append_nil _).symm.trans hex.received, ?_⟩
    exact (hex.served_all_iff rfl).mpr hunknown
  · intro hpos
    obtain ⟨s', o, hs, -⟩ := hinv.clientStep hpos
    rw [hs]
    rfl
  · intro hpos
    obtain ⟨s', o, hs, -⟩ := hinv.serverStep hpos
    rw [hs]
    rfl

/-- The client asks for 100 / 7 and returns with the answer. -/
theorem rpc_calls_div : ∃ h s,
    (system natDouble [⟨cmdidDiv, ⟨100, 7⟩, ⟨0, false, 0⟩⟩]).Observed Machine.always State.log h s ∧
    (s.client.pos = .returned ∧ received h = [⟨cmdidDiv, 0, 14⟩]) ∧
    ∃ calls inService, InOrder natDouble [⟨cmdidDiv, ⟨100, 7⟩, ⟨0, false, 0⟩⟩] h calls inService := by
  obtain ⟨h, s, hr, hq⟩ := State.exists_observed natDouble 0 [⟨cmdidDiv, ⟨100, 7⟩, ⟨0, false, 0⟩⟩]
    (List.replicate 6 .client ++ List.replicate 12 .server ++ List.replicate 5 .client)
    (fun h s => decide (s.client.pos = .returned ∧ received h = [⟨cmdidDiv, 0, 14⟩]))
    (by decide +kernel)
  exact ⟨h, s, hr, of_decide_eq_true hq, (rpc_calls hr).1⟩

/-- In every run the listener prints the events in the order they are sent, each once.  An event that
    has been sent is printed, is still in the queue, which holds at most 12, or has been lost to a push
    that said so; and the listener never finds the queue empty after `poll`. -/
theorem rpc_events (hr : (system F cmds).Observed Machine.always State.log h s) :
    (∃ pending, (listened h ++ pending).Sublist (sentEvents h) ∧ pending.length ≤ eventSlots - 1 ∧
      (listened h ++ pending).length + lostEvents h = (sentEvents h).length) ∧
    Log.queueEmpty ∉ h ∧ (s.listener ≠ .returned → s.listenerStep.isSome = true) := by
  have hinv := Inv.of_observed hr
  refine ⟨?_, ?_, ?_⟩
  · obtain ⟨_, _, event, _, _, _, -, -, -, -, -, hlis⟩ := hinv
    refine ⟨unprinted event.queue.held s.listener ++ event.queue.unread, ?_, ?_, ?_⟩
    · rw [← List.append_assoc]
      exact hlis.order
    · have hsize := hlis.size
      have hle : (unprinted event.queue.held s.listener).length ≤ event.queue.held.toList.length := by
        cases s.listener <;> first | exact Nat.zero_le _ | exact Nat.le_refl _
      rw [BoundedQueue.size] at hsize
      rw [List.length_append]
      omega
    · rw [← List.append_assoc]
      exact hlis.count
  · obtain ⟨_, _, _, _, _, _, -, -, -, -, -, hlis⟩ := hinv
    exact hlis.noEmpty
  · intro hpos
    obtain ⟨s', o, hs, -⟩ := hinv.listenerStep hpos
    rw [hs]
    rfl

/-- The client asks for two events, and the listener prints the first. -/
theorem rpc_events_two : ∃ h s,
    (system natDouble [⟨cmdidSendevent, ⟨0, 0⟩, ⟨11, false, 2⟩⟩]).Observed Machine.always State.log h
      s ∧
    (sentEvents h = [⟨11, 0⟩, ⟨11, 1⟩] ∧ listened h = [⟨11, 0⟩]) ∧ Log.queueEmpty ∉ h := by
  obtain ⟨h, s, hr, hq⟩ := State.exists_observed natDouble 0
    [⟨cmdidSendevent, ⟨0, 0⟩, ⟨11, false, 2⟩⟩]
    (List.replicate 6 .client ++ List.replicate 12 .server ++ List.replicate 20 .listener ++
      List.replicate 8 .server)
    (fun h _ => decide (sentEvents h = [⟨11, 0⟩, ⟨11, 1⟩] ∧ listened h = [⟨11, 0⟩]))
    (by decide +kernel)
  exact ⟨h, s, hr, of_decide_eq_true hq, (rpc_events hr).2.1⟩

end runs

end Rpc

end Rtipc
