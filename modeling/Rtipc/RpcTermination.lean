/-
  The server of the example returns, whatever the client and the listener do; the client returns after
  it, if the server has printed all its commands.

  `server_run` goes round its loop at most `MAX_CYCLES` times, and a command costs it a bounded number
  of steps for each event it asks for, also if nobody reads the events.  `Spent` bounds the steps the
  server has made by the rounds it has begun and the events it has sent; the steps of the others do not
  count.

  The client polls without a bound.  If the server has printed its last command before it returned, the
  response is in the channel, and the client is done with the next pop that returns.

  1. **The server.**  `Spent` is an invariant of the run with the number of steps as a parameter.  A
     step of another thread does not change it (`Spent.unseen`), a step of the server costs one
     (`Spent.serverStep`).

  2. **By its own steps.**  The bound alone does not say that the server returns: it could be stuck.
     `server_returns` takes the progress of `Inv.serverStep` and goes on until the server has returned,
     which the bound says must happen.

  3. **The client.**  `client_returns` has both directions.  If a command has not been printed by a
     server that has returned, no response will ever come, and the client polls for ever.
-/
import Rtipc.CallLength
import Rtipc.RpcSafety

namespace Rtipc

namespace Rpc

section wanted

variable {D : Type}

/-- The number of events the commands ask for. -/
def wanted (cmds : List (MsgCommand D)) : Nat := (cmds.map fun cmd => cmd.args.send.num.toNat).sum

/-- The events that a list of commands asks for add up. -/
theorem wanted_append (cmds cmds' : List (MsgCommand D)) :
    wanted (cmds ++ cmds') = wanted cmds + wanted cmds' := by
  rw [wanted, List.map_append, List.sum_append]
  rfl

/-- So a part of the commands asks for no more. -/
theorem wanted_mono {cmds cmds' : List (MsgCommand D)} (h : cmds <+: cmds') :
    wanted cmds ≤ wanted cmds' := by
  obtain ⟨rest, rfl⟩ := h
  rw [wanted_append]
  exact Nat.le_add_right _ _

end wanted

section spent

variable {D : Type} {F : Double D} {cmds : List (MsgCommand D)} {h o : List (Log D)} {s s' : State D}
  {n : Nat}

/-- The server has made `n` steps: at most 20 for each round it has begun and 11 for each event it has
    been asked for, `all` of them.  While it sends the events of a command only those it has sent are
    counted; `before` are the events of the earlier commands. -/
def SpentAt (s : State D) (cycle before all n : Nat) : ServerAt → Prop
  | .pop => cycle ≤ maxCycles ∧ n ≤ 20 * cycle + 11 * all
  | .popping => cycle < maxCycles ∧
      ∃ k, s.command.PopWithin k ∧ n + k ≤ 20 * cycle + 11 * all + 6
  | .print => cycle < maxCycles ∧ n ≤ 20 * cycle + 11 * all + 6
  | .select => cycle < maxCycles ∧ n ≤ 20 * cycle + 11 * before + 7
  | .fill _ i => cycle < maxCycles ∧ before + i.toNat ≤ all ∧
      n ≤ 20 * cycle + 11 * (before + i.toNat) + 8
  | .pushEvent _ i => cycle < maxCycles ∧ before + i.toNat < all ∧
      n ≤ 20 * cycle + 11 * (before + i.toNat) + 9
  | .pushingEvent _ i => cycle < maxCycles ∧ before + i.toNat < all ∧
      ∃ k, s.event.PushWithin k ∧ n + k ≤ 20 * cycle + 11 * (before + i.toNat) + 19
  | .sent _ => cycle < maxCycles ∧ n ≤ 20 * cycle + 11 * all + 9
  | .push _ => cycle < maxCycles ∧ n ≤ 20 * cycle + 11 * all + 10
  | .pushing _ => cycle < maxCycles ∧
      ∃ k, s.response.PushWithin k ∧ n + k ≤ 20 * cycle + 11 * all + 20
  | .returned => n ≤ 20 * maxCycles + 11 * all + 1

/-- The command that is served is the last one the server has printed. -/
def Spent (s : State D) (h : List (Log D)) (n : Nat) : Prop :=
  SpentAt s s.server.cycle (wanted (served h).dropLast) (wanted (served h)) n s.server.pos

/-- What a server can have spent at any place is below the bound, as the cycles are counted down. -/
theorem SpentAt.le {cycle before all : Nat} {pos : ServerAt} (h : SpentAt s cycle before all n pos)
    (hbefore : before ≤ all) : n ≤ 20 * maxCycles + 11 * all + 1 := by
  cases pos with
  | popping =>
    obtain ⟨hcycle, k, -, hle⟩ := h
    omega
  | fill args i =>
    obtain ⟨hcycle, hall, hle⟩ := h
    omega
  | pushEvent args i =>
    obtain ⟨hcycle, hall, hle⟩ := h
    omega
  | pushingEvent args i =>
    obtain ⟨hcycle, hall, k, -, hle⟩ := h
    omega
  | pushing run =>
    obtain ⟨hcycle, k, -, hle⟩ := h
    omega
  | returned => exact h
  | _ =>
    obtain ⟨hcycle, hle⟩ := h
    omega

/-- A step of the others: the server does not notice it. -/
structure Unseen (s s' : State D) (o : List (Log D)) : Prop where
  server : s'.server = s.server
  command : s'.command.cons = s.command.cons
  response : s'.response.prod = s.response.prod
  event : s'.event.prod = s.event.prod
  served : served o = []

/-- A step of the client does not show to the server. -/
theorem Unseen.clientStep (hs : s.clientStep = some (s', o)) : Unseen s s' o := by
  obtain ⟨ch, ch', ch'', ⟨pos, rest⟩, server, listener⟩ := s
  cases pos with
  | start =>
    cases rest with
    | nil =>
      cases hs
      exact ⟨rfl, rfl, rfl, rfl, rfl⟩
    | cons cmd rest =>
      dsimp only [State.clientStep] at hs
      split at hs
      · cases hs
        exact ⟨rfl, rfl, rfl, rfl, rfl⟩
      · obtain ⟨c, hc, hs⟩ := Option.map_eq_some_iff.mp hs
        cases hs
        exact ⟨rfl, ChannelState.modify_cons hc, rfl, rfl, rfl⟩
  | push =>
    obtain ⟨c, hc, hs⟩ := Option.map_eq_some_iff.mp hs
    cases hs
    exact ⟨rfl, (ChannelState.callPush_cases hc).1, rfl, rfl, rfl⟩
  | pushing =>
    dsimp only [State.clientStep] at hs
    obtain ⟨c, hc, -, hs | ⟨y, hs⟩⟩ := ChannelState.pushStep_cases hs
    · cases hs
      exact ⟨rfl, hc, rfl, rfl, rfl⟩
    · cases hs
      exact ⟨rfl, hc, rfl, rfl, rfl⟩
  | pop =>
    obtain ⟨c, hc, hs⟩ := Option.map_eq_some_iff.mp hs
    cases hs
    exact ⟨rfl, rfl, (ChannelState.callPop_cases hc).1, rfl, rfl⟩
  | popping =>
    dsimp only [State.clientStep] at hs
    obtain ⟨c, hc, -, hs | ⟨y, hs⟩⟩ := ChannelState.popStep_cases hs
    · cases hs
      exact ⟨rfl, rfl, hc, rfl, rfl⟩
    · cases y <;> cases hs <;> exact ⟨rfl, rfl, hc, rfl, rfl⟩
  | print =>
    obtain ⟨rsp, -, hs⟩ := Option.map_eq_some_iff.mp hs
    cases hs
    exact ⟨rfl, rfl, rfl, rfl, rfl⟩
  | returned => cases hs

/-- Nor does a step of the listener. -/
theorem Unseen.listenerStep (hs : s.listenerStep = some (s', o)) : Unseen s s' o := by
  obtain ⟨ch, ch', ch'', client, server, pos⟩ := s
  cases pos with
  | poll =>
    cases hs
    exact ⟨rfl, rfl, rfl, rfl, rfl⟩
  | pop =>
    obtain ⟨c, hc, hs⟩ := Option.map_eq_some_iff.mp hs
    cases hs
    exact ⟨rfl, rfl, rfl, (ChannelState.callPop_cases hc).1, rfl⟩
  | popping =>
    dsimp only [State.listenerStep] at hs
    obtain ⟨c, hc, -, hs | ⟨y, hs⟩⟩ := ChannelState.popStep_cases hs
    · cases hs
      exact ⟨rfl, rfl, rfl, hc, rfl⟩
    · cases hs
      refine ⟨rfl, rfl, rfl, hc, ?_⟩
      split <;> rfl
  | print =>
    obtain ⟨event, -, hs⟩ := Option.map_eq_some_iff.mp hs
    cases hs
    exact ⟨rfl, rfl, rfl, rfl, rfl⟩
  | returned => cases hs

/-- Nor does a `poll` that fails. -/
theorem Unseen.pollFails (hs : s.pollFails = some (s', o)) : Unseen s s' o := by
  unfold State.pollFails at hs
  split at hs
  · cases hs
    exact ⟨rfl, rfl, rfl, rfl, rfl⟩
  · cases hs

/-- Once the server has returned no step at all shows to it. -/
theorem Unseen.of_returned {e : Event} (hserver : s.server.pos = .returned)
    (hs : (system F cmds).step s e = some (s', o)) : Unseen s s' o := by
  cases e with
  | client => exact .clientStep hs
  | listener => exact .listenerStep hs
  | pollFails => exact .pollFails hs
  | server =>
    replace hs : s.serverStep F = some (s', o) := hs
    rw [State.serverStep, hserver] at hs
    cases hs

/-- A step that does not show to the server costs it nothing. -/
theorem Spent.unseen (hspent : Spent s h n) (hs : Unseen s s' o) : Spent s' (h ++ o) n := by
  unfold Spent at hspent ⊢
  rw [hs.server, served_append, hs.served, List.append_nil]
  generalize s.server.pos = pos at hspent ⊢
  cases pos with
  | popping =>
    obtain ⟨hcycle, k, hk, hle⟩ := hspent
    exact ⟨hcycle, k, hk.congr hs.command, hle⟩
  | pushingEvent args i =>
    obtain ⟨hcycle, hall, k, hk, hle⟩ := hspent
    exact ⟨hcycle, hall, k, hk.congr hs.event, hle⟩
  | pushing run =>
    obtain ⟨hcycle, k, hk, hle⟩ := hspent
    exact ⟨hcycle, k, hk.congr hs.response, hle⟩
  | _ => exact hspent

/-- A step of the server that prints no command. -/
theorem Spent.silent (hserved : served o = [])
    (hspent : SpentAt s' s'.server.cycle (wanted (served h).dropLast) (wanted (served h)) n
      s'.server.pos) : Spent s' (h ++ o) n := by
  unfold Spent
  rw [served_append, hserved, List.append_nil]
  exact hspent

/-- The command whose events the server sends is the last one it has printed. -/
theorem wanted_sending {command : ChannelView (MsgCommand D)} {response : ChannelView (MsgResponse D)}
    {client : Client D} {server : ServerAt} {calls : List (Call D)} {current : List MsgEvent}
    {φ : Phase D} {prod : PushAt (MsgResponse D)} {args : SendEventArgs} {i : UInt32}
    (hex : Exchange F cmds h command response client server calls current φ)
    (hsend : Sending φ prod current args i) :
    wanted (served h) = wanted (served h).dropLast + args.num.toNat := by
  obtain ⟨cmd, x, rfl, -, rfl, -⟩ := hsend
  have hserved : served h = calls.map Call.cmd ++ [cmd] := hex.served
  rw [hserved, List.dropLast_concat, wanted_append]
  rfl

/-- A step of the server costs one, and what it has left to spend goes down by at least one. One case
    for each place in the code of the server. -/
theorem Spent.serverStep (hinv : Inv F cmds h s) (hspent : Spent s h n)
    (hs : s.serverStep F = some (s', o)) : Spent s' (h ++ o) (n + 1) := by
  obtain ⟨command, response, event, calls, current, φ, -, -, -, hex, -, -⟩ := hinv
  -- Commands in front of the last one ask for no more events than all of them.
  have hbefore : wanted (served h).dropLast ≤ wanted (served h) :=
    wanted_mono (List.dropLast_prefix _)
  unfold Spent at hspent
  obtain ⟨ch, ch', ch'', client, ⟨pos, cycle⟩, listener⟩ := s
  have hat := hex.server
  cases pos with
  -- a cycle begins with at most five operations of a pop, or the server ends
  | pop =>
    obtain ⟨hcycle, hle⟩ := hspent
    dsimp only [State.serverStep] at hs hcycle hle
    split at hs
    · rename_i hlt
      obtain ⟨c, hc, hs⟩ := Option.map_eq_some_iff.mp hs
      cases hs
      refine .silent rfl ⟨hlt, 5, (ChannelState.callPop_cases hc).2, ?_⟩
      dsimp only
      omega
    · cases hs
      refine .silent rfl ?_
      dsimp only [SpentAt]
      omega
  -- each operation uses one of those left
  | popping =>
    obtain ⟨hcycle, k, hk, hle⟩ := hspent
    dsimp only [State.serverStep] at hs hcycle hk hle
    obtain ⟨c, -, hstep, hs⟩ := ChannelState.popStep_cases hs
    obtain ⟨hpos, hk'⟩ := hstep k hk
    rcases hs with hs | ⟨y, hs⟩
    · cases hs
      refine .silent rfl ⟨hcycle, k - 1, hk', ?_⟩
      dsimp only
      omega
    · cases y <;> cases hs <;> refine .silent rfl ⟨hcycle, ?_⟩ <;> dsimp only <;> omega
  -- the command is served, and the events it asks for come on top
  | print =>
    obtain ⟨hcycle, hle⟩ := hspent
    obtain ⟨cmd, -, hs⟩ := Option.bind_eq_some_iff.mp hs
    obtain ⟨c, -, hs⟩ := Option.map_eq_some_iff.mp hs
    cases hs
    refine ⟨hcycle, ?_⟩
    have hserved : (served (h ++ [.served cmd])).dropLast = served h := by
      rw [served_append]
      exact List.dropLast_concat
    rw [hserved]
    dsimp only at hle ⊢
    omega
  | select =>
    obtain ⟨hcycle, hle⟩ := hspent
    dsimp only at hcycle hle
    obtain ⟨cmd, -, hs⟩ := Option.bind_eq_some_iff.mp hs
    split at hs
    · cases hs
      exact .silent rfl ⟨hcycle, hbefore, Nat.succ_le_succ hle⟩
    · obtain ⟨c, -, hs⟩ := Option.map_eq_some_iff.mp hs
      cases hs
      refine .silent rfl ⟨hcycle, ?_⟩
      dsimp only
      omega
  -- eleven steps for each event
  | fill args i =>
    obtain ⟨hcycle, hall, hle⟩ := hspent
    dsimp only [State.serverStep] at hs hcycle hle
    split at hs
    · rename_i hlt
      obtain ⟨c, -, hs⟩ := Option.map_eq_some_iff.mp hs
      cases hs
      refine .silent rfl ⟨hcycle, ?_, Nat.succ_le_succ hle⟩
      rw [wanted_sending hex hat.1]
      exact Nat.add_lt_add_left (UInt32.lt_iff_toNat_lt.mp hlt) _
    · cases hs
      refine .silent rfl ⟨hcycle, ?_⟩
      dsimp only
      omega
  | pushEvent args i =>
    obtain ⟨hcycle, hall, hle⟩ := hspent
    obtain ⟨c, hc, hs⟩ := Option.map_eq_some_iff.mp hs
    cases hs
    refine .silent rfl ⟨hcycle, hall, 9, (ChannelState.callPush_cases hc).2, ?_⟩
    dsimp only at hle ⊢
    omega
  -- a push takes at most nine operations
  | pushingEvent args i =>
    obtain ⟨hcycle, hall, k, hk, hle⟩ := hspent
    obtain ⟨-, -, hi⟩ := hat
    dsimp only [State.serverStep] at hs hcycle hk hle
    obtain ⟨c, -, hstep, hs⟩ := ChannelState.pushStep_cases hs
    obtain ⟨hpos, hk'⟩ := hstep k hk
    rcases hs with hs | ⟨y, hs⟩
    · cases hs
      refine .silent rfl ⟨hcycle, hall, k - 1, hk', ?_⟩
      dsimp only
      omega
    · cases hs
      refine .silent rfl ?_
      dsimp only
      split
      · refine ⟨hcycle, ?_⟩
        omega
      · dsimp only [SpentAt]
        rw [toNat_next hi]
        refine ⟨hcycle, hall, ?_⟩
        omega
  | sent num =>
    obtain ⟨hcycle, hle⟩ := hspent
    obtain ⟨c, -, hs⟩ := Option.map_eq_some_iff.mp hs
    cases hs
    exact .silent rfl ⟨hcycle, Nat.succ_le_succ hle⟩
  | push run =>
    obtain ⟨hcycle, hle⟩ := hspent
    obtain ⟨c, hc, hs⟩ := Option.map_eq_some_iff.mp hs
    cases hs
    refine .silent rfl ⟨hcycle, 9, (ChannelState.callPush_cases hc).2, ?_⟩
    dsimp only at hle ⊢
    omega
  -- the answer has been pushed: the cycle ends after at most twenty steps, the events apart
  | pushing run =>
    obtain ⟨hcycle, k, hk, hle⟩ := hspent
    dsimp only [State.serverStep] at hs hcycle hk hle
    obtain ⟨c, -, hstep, hs⟩ := ChannelState.pushStep_cases hs
    obtain ⟨hpos, hk'⟩ := hstep k hk
    rcases hs with hs | ⟨y, hs⟩
    · cases hs
      refine .silent rfl ⟨hcycle, k - 1, hk', ?_⟩
      dsimp only
      omega
    · cases run with
      | true =>
        cases hs
        refine .silent rfl ⟨hcycle, ?_⟩
        show n + 1 ≤ 20 * (cycle + 1) + 11 * wanted (served h)
        omega
      | false =>
        cases hs
        refine .silent rfl ?_
        show n + 1 ≤ 20 * maxCycles + 11 * wanted (served h) + 1
        omega
  | returned => cases hs

end spent

/-! ## Runs -/

section runs

variable {D : Type} {F : Double D} {cmds : List (MsgCommand D)} {tr : List (Event × List (Log D))}
  {s : State D}

/-- What the steps of a trace log. -/
def logged (tr : List (Event × List (Log D))) : List (Log D) := tr.flatMap Prod.snd

/-- What a run has logged, one step further. -/
theorem logged_append (tr : List (Event × List (Log D))) (e : Event) (o : List (Log D)) :
    logged (tr ++ [(e, o)]) = logged tr ++ o := by
  rw [logged, List.flatMap_append, List.flatMap_singleton]
  rfl

/-- In every run the server has spent as many steps as it has made. -/
theorem Spent.of_run (hr : (system F cmds).Run Machine.always tr s) :
    Inv F cmds (logged tr) s ∧ Spent s (logged tr) (Machine.stepsOf .server tr) := by
  refine hr.invariant_trace (I := fun tr s => Inv F cmds (logged tr) s ∧
    Spent s (logged tr) (Machine.stepsOf .server tr)) ?_ ?_
  · intro s hinit
    refine ⟨Inv.of_init hinit, ?_⟩
    obtain ⟨command, response, event, -, -, -, rfl⟩ := hinit
    exact ⟨Nat.zero_le _, Nat.zero_le _⟩
  · intro tr s e s' o ⟨hinv, hspent⟩ _ hs
    rw [logged_append, Machine.stepsOf_append]
    refine ⟨hinv.step hs, ?_⟩
    cases e with
    | client => exact hspent.unseen (.clientStep hs)
    | server => exact hspent.serverStep hinv hs
    | listener => exact hspent.unseen (.listenerStep hs)
    | pollFails => exact hspent.unseen (.pollFails hs)

/-- So it has not made more than the bound for the commands of the client. -/
theorem Spent.le {h : List (Log D)} {n : Nat} (hinv : Inv F cmds h s) (hspent : Spent s h n) :
    n ≤ 20 * maxCycles + 11 * wanted cmds + 1 := by
  obtain ⟨command, response, event, calls, current, φ, -, -, -, hex, hstop, -⟩ := hinv
  have hserved : wanted (served h) ≤ wanted cmds := wanted_mono (hex.inOrder hstop).commands
  have hle := SpentAt.le hspent (wanted_mono (List.dropLast_prefix _))
  omega

/-- In every run the server makes a bounded number of steps, and from every state that a run reaches it
    returns by its own steps alone, although the client has stopped and nobody reads the events. -/
theorem server_returns (hr : (system F cmds).Run Machine.always tr s) :
    Machine.stepsOf .server tr ≤ 20 * maxCycles + 11 * wanted cmds + 1 ∧
    ∃ s', (system F cmds).Leads (fun _ e => e = .server) s s' ∧ s'.server.pos = .returned := by
  have hbound : ∀ tr s, (system F cmds).Run Machine.always tr s →
      Machine.stepsOf .server tr ≤ 20 * maxCycles + 11 * wanted cmds + 1 := by
    intro tr s hr
    obtain ⟨hinv, hspent⟩ := Spent.of_run hr
    exact hspent.le hinv
  refine ⟨hbound _ _ hr, hr.alone hbound ?_⟩
  intro tr s hr hpos
  obtain ⟨s', o, hs, -⟩ := (Spent.of_run hr).1.serverStep hpos
  exact ⟨trivial, s', o, hs⟩

/-- The server has sent the first of two events when the others stop. -/
theorem server_returns_alone : ∃ tr s,
    (system natDouble [⟨cmdidSendevent, ⟨0, 0⟩, ⟨11, true, 2⟩⟩]).Run Machine.always tr s ∧
    s.server.pos = .fill ⟨11, true, 2⟩ 1 ∧
    ∃ s', (system natDouble [⟨cmdidSendevent, ⟨0, 0⟩, ⟨11, true, 2⟩⟩]).Leads (fun _ e => e = .server)
      s s' ∧ s'.server.pos = .returned := by
  obtain ⟨h, s, hobs, hq⟩ := State.exists_observed natDouble 0
    [⟨cmdidSendevent, ⟨0, 0⟩, ⟨11, true, 2⟩⟩]
    (List.replicate 6 .client ++ List.replicate 11 .server)
    (fun _ s => decide (s.server.pos = .fill ⟨11, true, 2⟩ 1)) (by decide +kernel)
  obtain ⟨tr, hr⟩ := hobs.run
  exact ⟨tr, s, hr, of_decide_eq_true hq, (server_returns hr).2⟩

end runs

/-! ## The client -/

section client

variable {D : Type} {F : Double D} {cmds : List (MsgCommand D)} {h o : List (Log D)} {s s' : State D}

/-- The server has returned, and it has printed all commands of the client. -/
structure Answered (F : Double D) (cmds : List (MsgCommand D)) (h : List (Log D)) (s : State D) :
    Prop where
  inv : Inv F cmds h s
  server : s.server.pos = .returned
  served : served h = cmds.takeWhile (·.id ≠ cmdidUnknown)

/-- The client returns by its own steps. -/
def ClientEnds (F : Double D) (cmds : List (MsgCommand D)) (s : State D) : Prop :=
  ∃ s', (system F cmds).Leads (fun _ e => e = .client) s s' ∧ s'.client.pos = .returned

/-- A client that has returned has ended. -/
theorem ClientEnds.returned (hpos : s.client.pos = .returned) : ClientEnds F cmds s := ⟨s, .refl, hpos⟩

/-- A client that ends after its next step ends. -/
theorem ClientEnds.step (hs : s.clientStep = some (s', o)) (hends : ClientEnds F cmds s') :
    ClientEnds F cmds s := by
  obtain ⟨t, hl, hpos⟩ := hends
  exact ⟨t, hl.head (e := .client) rfl hs, hpos⟩

/-- A step of the client leaves it so that the server has answered all it will ever ask. -/
theorem Answered.clientStep (hans : Answered F cmds h s) (hs : s.clientStep = some (s', o)) :
    Answered F cmds (h ++ o) s' where
  inv := hans.inv.step (e := .client) hs
  server := by
    rw [(Unseen.clientStep hs).server]
    exact hans.server
  served := by
    rw [served_append, (Unseen.clientStep hs).served, List.append_nil]
    exact hans.served

/-- The last command is not on its way to the server any more. -/
theorem Answered.last (hans : Answered F cmds h s) {command : ChannelView (MsgCommand D)}
    {response : ChannelView (MsgResponse D)} {calls : List (Call D)} {current : List MsgEvent}
    {φ : Phase D} (hex : Exchange F cmds h command response s.client s.server.pos calls current φ) :
    (∀ cmd, (φ.todo s.client.cmds).head? = some cmd → cmd.id = cmdidUnknown) ∧
      (φ = .ask ∨ (∃ rsp, φ = .answered rsp) ∨ ∃ rsp, φ = .got rsp) := by
  have hat := hex.server
  rw [hans.server] at hat
  have hlast := (hex.served_all_iff hat.1).mp hans.served
  refine ⟨hlast, ?_⟩
  cases φ with
  | ask => exact Or.inl rfl
  | answered rsp => exact Or.inr (Or.inl ⟨rsp, rfl⟩)
  | got rsp => exact Or.inr (Or.inr ⟨rsp, rfl⟩)
  | asked cmd =>
    obtain ⟨hhead, hknown⟩ := hex.head cmd rfl
    exact absurd (hlast cmd hhead) hknown
  | taken cmd => cases hat.1
  | serving cmd => cases hat.1

/-- From the start of a call: the command is pushed, and its answer is there already. -/
theorem Answered.start (hans : Answered F cmds h s) (hpos : s.client.pos = .start) :
    ClientEnds F cmds s := by
  obtain ⟨command, response, event, calls, current, φ, -, -, -, hex, -, -⟩ := hans.inv
  obtain ⟨hlast, -⟩ := hans.last hex
  obtain ⟨ch, ch', ch'', ⟨pos, rest⟩, server, listener⟩ := s
  obtain rfl : pos = .start := hpos
  obtain ⟨rfl, -⟩ := hex.client
  cases rest with
  | nil => exact .step rfl (.returned rfl)
  | cons cmd rest => exact .step (if_pos (hlast cmd rfl)) (.returned rfl)

/-- From the print of an answer: either it was the last one, or the next command follows. -/
theorem Answered.print (hans : Answered F cmds h s) (hpos : s.client.pos = .print) :
    ClientEnds F cmds s := by
  obtain ⟨s', o, hs, -⟩ := hans.inv.clientStep (by rw [hpos]; decide)
  have hans' := hans.clientStep hs
  refine .step hs (hans'.start ?_)
  rw [State.clientStep, hpos] at hs
  obtain ⟨rsp, -, hs⟩ := Option.map_eq_some_iff.mp hs
  cases hs
  rfl

/-- A pop that runs performs its next operation, or it returns with the response. -/
theorem Answered.popStep (hans : Answered F cmds h s) (hpos : s.client.pos = .popping)
    {prog : ChannelProg (MsgResponse D) (Consumer × PopResult)}
    (hprog : s.response.cons = .busy () prog) :
    ∃ a f r s', prog = .act a f ∧ s.clientStep = some (s', []) ∧
      (s'.client.pos = .popping ∧ s'.response.cons = .busy () (f r) ∨ s'.client.pos = .print) := by
  obtain ⟨command, response, event, calls, current, φ, -, hr, -, hex, -, -⟩ := hans.inv
  obtain ⟨-, hφ⟩ := hans.last hex
  have hat := hex.client
  rw [hpos] at hat
  obtain ⟨hawaited, hpop, -⟩ := hat
  rw [State.clientStep, hpos]
  dsimp only
  obtain ⟨r', ⟨hs, -⟩ | ⟨y, z, queue, hs, hq, -⟩⟩ := hr.popStep callSlots_ok hpop
  · -- the pop goes on
    obtain ⟨a, f, r, rfl, ⟨r'', heq, hcons⟩ | ⟨_, _, hno⟩⟩ :=
      ChannelState.popStep_busy hprog (hs (fun ch => some ch) fun _ _ => none)
    · cases heq
      exact ⟨a, f, r, _, rfl, hs _ _, Or.inl ⟨hpos, hcons⟩⟩
    · cases hno
  · obtain ⟨a, f, r, rfl, -⟩ := ChannelState.popStep_busy hprog (hs (fun _ => ()) fun _ _ => ())
    -- When it returns, the response has been waiting, as the server has answered everything.
    rcases hφ with rfl | ⟨rsp, rfl⟩ | ⟨rsp, rfl⟩
    · cases hawaited
    · have hy : y = .success ∨ y = .discarded := by
        rw [BoundedQueue.pop_cons hex.responses] at hq
        cases hq
        split
        · exact Or.inr rfl
        · exact Or.inl rfl
      rcases hy with rfl | rfl
      · exact ⟨a, f, r, _, rfl, hs _ _, Or.inr rfl⟩
      · exact ⟨a, f, r, _, rfl, hs _ _, Or.inr rfl⟩
    · cases hawaited

/-- By induction on the code of the pop. -/
theorem Answered.busy (hans : Answered F cmds h s) (hpos : s.client.pos = .popping)
    {prog : ChannelProg (MsgResponse D) (Consumer × PopResult)}
    (hprog : s.response.cons = .busy () prog) : ClientEnds F cmds s := by
  induction prog generalizing h s with
  | ret x =>
    obtain ⟨_, _, _, _, hno, -⟩ := hans.popStep hpos hprog
    cases hno
  | fault =>
    obtain ⟨_, _, _, _, hno, -⟩ := hans.popStep hpos hprog
    cases hno
  | act a f ih =>
    obtain ⟨_, _, r, s', ⟨rfl⟩, hs, ⟨hpos', hcons⟩ | hpos'⟩ := hans.popStep hpos hprog
    · exact .step hs (ih r (hans.clientStep hs) hpos' hcons)
    · exact .step hs ((hans.clientStep hs).print hpos')

/-- In the middle of a pop: the pop returns an answer or nothing, and then the client is at one of the
    other places. -/
theorem Answered.popping (hans : Answered F cmds h s) (hpos : s.client.pos = .popping) :
    ClientEnds F cmds s := by
  obtain ⟨command, response, event, calls, current, φ, -, hr, -, hex, -, -⟩ := hans.inv
  have hat := hex.client
  rw [hpos] at hat
  obtain ⟨prog, hprog⟩ := hr.cons_busy hat.2.1
  exact hans.busy hpos hprog

/-- So it ends from every place. -/
theorem Answered.ends (hans : Answered F cmds h s) : ClientEnds F cmds s := by
  obtain ⟨command, response, event, calls, current, φ, -, -, -, hex, -, -⟩ := hans.inv
  obtain ⟨hlast, -⟩ := hans.last hex
  have hat := hex.client
  cases hpos : s.client.pos with
  | start => exact hans.start hpos
  | returned => exact .returned hpos
  | print => exact hans.print hpos
  | popping => exact hans.popping hpos
  | push =>
    rw [hpos] at hat
    obtain ⟨rfl, -, cmd, hhead, hknown, -⟩ := hat
    exact absurd (hlast cmd hhead) hknown
  | pushing =>
    rw [hpos] at hat
    obtain ⟨rfl, -, cmd, hhead, hknown, -⟩ := hat
    exact absurd (hlast cmd hhead) hknown
  | pop =>
    obtain ⟨s', o, hs, -⟩ := hans.inv.clientStep (by rw [hpos]; decide)
    have hans' := hans.clientStep hs
    refine .step hs (hans'.popping ?_)
    rw [State.clientStep, hpos] at hs
    obtain ⟨ch, -, hs⟩ := Option.map_eq_some_iff.mp hs
    cases hs
    rfl

/-- Once the server has returned, the client returns, and by its own steps, if the server has printed all
    its commands; otherwise it polls for ever. -/
theorem client_returns (hr : (system F cmds).Observed Machine.always State.log h s)
    (hserver : s.server.pos = .returned) :
    (served h = cmds.takeWhile (·.id ≠ cmdidUnknown) →
      ∃ s', (system F cmds).Leads (fun _ e => e = .client) s s' ∧ s'.client.pos = .returned) ∧
    (served h ≠ cmds.takeWhile (·.id ≠ cmdidUnknown) →
      ∀ s', (system F cmds).Leads Machine.always s s' → s'.client.pos ≠ .returned) := by
  have hinv := Inv.of_observed hr
  constructor
  · intro hserved
    exact Answered.ends ⟨hinv, hserver, hserved⟩
  · intro hne s' hl hpos
    have hkept : ∃ h', Inv F cmds h' s' ∧ s'.server.pos = .returned ∧ served h' = served h := by
      refine hl.invariant (I := fun t => ∃ h', Inv F cmds h' t ∧ t.server.pos = .returned ∧
        served h' = served h) ?_ ⟨h, hinv, hserver, rfl⟩
      rintro t e t' o ⟨h', hinv', hserver', hserved⟩ - hs
      have hun := Unseen.of_returned hserver' hs
      refine ⟨h' ++ o, hinv'.step hs, hun.server ▸ hserver', ?_⟩
      rw [served_append, hun.served, List.append_nil, hserved]
    obtain ⟨h', hinv', -, hserved⟩ := hkept
    obtain ⟨command, response, event, calls, current, φ, -, -, -, hex, -, -⟩ := hinv'
    have hat := hex.client
    rw [hpos] at hat
    obtain ⟨rfl, -, -, hunknown⟩ := hat
    exact hne (hserved.symm.trans ((hex.served_all_iff rfl).mpr hunknown))

/-- The server has stopped, and its last response is still to be read; but a client that sends another
    command waits. -/
theorem client_returns_stop :
    (∃ h s, (system natDouble [⟨cmdidStop, ⟨0, 0⟩, ⟨0, false, 0⟩⟩]).Observed Machine.always
        State.log h s ∧
      received h = [] ∧
      ∃ s', (system natDouble [⟨cmdidStop, ⟨0, 0⟩, ⟨0, false, 0⟩⟩]).Leads (fun _ e => e = .client)
        s s' ∧ s'.client.pos = .returned) ∧
    ∃ h s, (system natDouble [⟨cmdidStop, ⟨0, 0⟩, ⟨0, false, 0⟩⟩,
        ⟨cmdidHello, ⟨0, 0⟩, ⟨0, false, 0⟩⟩]).Observed Machine.always State.log h s ∧
      s.server.pos = .returned ∧
      ∀ s', (system natDouble [⟨cmdidStop, ⟨0, 0⟩, ⟨0, false, 0⟩⟩,
        ⟨cmdidHello, ⟨0, 0⟩, ⟨0, false, 0⟩⟩]).Leads Machine.always s s' →
        s'.client.pos ≠ .returned := by
  constructor
  · -- STOP alone: the server answers it and ends, and the client gets the answer
    obtain ⟨h, s, hr, hq⟩ := State.exists_observed natDouble 0 [⟨cmdidStop, ⟨0, 0⟩, ⟨0, false, 0⟩⟩]
      (List.replicate 6 .client ++ List.replicate 10 .server)
      (fun h s => decide (s.server.pos = .returned ∧ received h = [] ∧
        served h = [⟨cmdidStop, ⟨0, 0⟩, ⟨0, false, 0⟩⟩])) (by decide +kernel)
    obtain ⟨hserver, hreceived, hserved⟩ := of_decide_eq_true hq
    exact ⟨h, s, hr, hreceived, (client_returns hr hserver).1 hserved⟩
  · obtain ⟨h, s, hr, hq⟩ := State.exists_observed natDouble 0
      [⟨cmdidStop, ⟨0, 0⟩, ⟨0, false, 0⟩⟩, ⟨cmdidHello, ⟨0, 0⟩, ⟨0, false, 0⟩⟩]
      (List.replicate 6 .client ++ List.replicate 10 .server)
      (fun h s => decide (s.server.pos = .returned ∧
        served h = [⟨cmdidStop, ⟨0, 0⟩, ⟨0, false, 0⟩⟩])) (by decide +kernel)
    obtain ⟨hserver, hserved⟩ := of_decide_eq_true hq
    refine ⟨h, s, hr, hserver, (client_returns hr hserver).2 ?_⟩
    rw [hserved]
    decide

end client

end Rpc

end Rtipc
