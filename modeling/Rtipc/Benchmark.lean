/-
  The benchmark of the repository, as a test of the queue.

  `benchmark.c` runs two processes on one channel without an eventfd.  The client force-pushes the
  counters 0, …, `sendNumMsgs - 1` as fast as it can and then one message more that says stop; the
  server pops in a loop and checks each result against the counters it finds: after a success the
  counter must be the next one, after a discarded message it must be a later one, and `NO_MSG` may only
  come before the first message.  Both sides keep statistics.

  `system n sendNumMsgs` is this program on the queue of `n` slots, with any interleaving of the two
  processes at their atomic operations.  A fault (the application reads through a null pointer, or the
  queue is used while a call runs) would be a step that cannot be made.  `benchmark_checks` says that no
  check of the server ever fails, that neither process is ever stuck, and that the statistics are right.

  The crux is the invariant `Inv`: the message number `k` carries the counter `k`, and the counter of the server
  is the number of the message it has taken last.
-/
import Rtipc.Traffic
import Rtipc.WaitFree

namespace Rtipc

namespace Benchmark

/-- `msg_t`. -/
structure Msg where
  counter : Nat
  stop : Bool
  deriving DecidableEq

/-- `COUNTER_INIT`, that is `UINT64_MAX`. -/
def counterInit : Nat := 2 ^ 64 - 1

/-- `server_stat_t`. -/
structure ServerStat where
  received : Nat
  overflowed : Nat
  dropped : Nat
  deriving DecidableEq

/-- `client_stat_t`. -/
structure ClientStat where
  sent : Nat
  dropped : Nat
  deriving DecidableEq

/-- What `consume` does with the result of the pop and the message that `ri_consumer_msg` then points
    to: the value it returns, the new counter and the statistics.  `none` is an access through a null
    pointer. -/
def consume (result : PopResult) (msg : Option Msg) (counter : Nat) (stat : ServerStat) :
    Option (Int × Nat × ServerStat) :=
  match result, msg with
  | .error, _ => some (-1, counter, stat)
  | .noMsg, _ => some (if counter ≠ counterInit then -1 else 1, counter, stat)
  | .noUpdate, _ => some (1, counter, stat)
  | .success, some msg =>
    let r : Int := if counter ≠ counterInit ∧ msg.counter ≠ (counter + 1) % 2 ^ 64 then -1 else 1
    some (if msg.stop then 0 else r, msg.counter, { stat with received := stat.received + 1 })
  | .discarded, some msg =>
    let stat :=
      { stat with received := stat.received + 1, overflowed := stat.overflowed + 1 }
    if counter ≠ counterInit ∧ msg.counter ≤ (counter + 1) % 2 ^ 64 then
      some (-1, counter, stat)
    else
      let missed := if counter = counterInit then msg.counter else msg.counter - counter - 1
      some (if msg.stop then 0 else 1, msg.counter, { stat with dropped := stat.dropped + missed })
  | .success, none => none
  | .discarded, none => none

/-- What `produce` does with the result of the push: the value it returns and the statistics. -/
def produce (result : ForcePushResult) (stat : ClientStat) : Int × ClientStat :=
  match result with
  | .error => (-1, stat)
  | .success => (1, { stat with sent := stat.sent + 1 })
  | .discarded => (1, { sent := stat.sent + 1, dropped := stat.dropped + 1 })

/-- Where `client_entry` is. -/
inductive ClientAt where
  /-- about to fill the current message -/
  | fill
  /-- about to call `ri_producer_force_push` -/
  | push
  /-- in `ri_producer_force_push` -/
  | pushing
  /-- the stop message has been pushed -/
  | done
  deriving DecidableEq

/-- `client_entry`: the loop variable, the statistics and what `produce` returned last. -/
structure Client where
  pos : ClientAt
  counter : Nat
  stat : ClientStat
  r : Int
  deriving DecidableEq

/-- Where `server_entry` is. -/
inductive ServerAt where
  /-- at the head of the loop -/
  | call
  /-- in `ri_consumer_pop` -/
  | popping
  /-- about to look at the message -/
  | check (result : PopResult)
  deriving DecidableEq

/-- `server_entry`. -/
structure Server where
  pos : ServerAt
  counter : Nat
  stat : ServerStat
  state : Int
  deriving DecidableEq

/-- Both processes and the queue between them. -/
structure State where
  queue : QueueState Msg
  client : Client
  server : Server

namespace State

/-- `ri_producer_force_push` has returned.  A failed `produce` ends the loop, and the stop message follows. -/
def pushed (b : State) (sendNumMsgs : Nat) (queue : QueueState Msg) (result : ForcePushResult) :
    State :=
  if b.client.counter < sendNumMsgs then
    let (r, stat) := produce result b.client.stat
    { b with
      queue := queue
      client := { pos := .fill, counter := if r < 0 then sendNumMsgs else b.client.counter + 1,
                  stat := stat, r := r } }
  else { b with queue := queue, client := { b.client with pos := .done } }

/-- The next step of the client.  The stop message is sent with the counter `sendNumMsgs`; `produce`
    leaves the stop field as it is. -/
def clientStep (b : State) (sendNumMsgs : Nat) : Option State :=
  match b.client.pos with
  | .fill =>
    match b.queue.prod with
    | .idle p =>
      p.msg.bind fun i =>
        let msg := { b.queue.msgs i with counter := b.client.counter }
        let msg := if b.client.counter < sendNumMsgs then msg else { msg with stop := true }
        (b.queue.write msg).map fun x =>
          { b with queue := x.1, client := { b.client with pos := .push } }
    | .busy _ _ => none
  | .push => (b.queue.push .forcePush).map fun x =>
      { b with queue := x.1, client := { b.client with pos := .pushing } }
  | .pushing => b.queue.prodStep.bind fun x =>
      match x.2 with
      | .pushed (.forcePush result) => some (b.pushed sendNumMsgs x.1 result)
      | .silent => some { b with queue := x.1 }
      | _ => none
  | .done => none

/-- The next step of the server. -/
def serverStep (b : State) : Option State :=
  match b.server.pos with
  | .call =>
    if 0 < b.server.state then
      (b.queue.pop .pop).map fun x =>
        { b with queue := x.1, server := { b.server with pos := .popping } }
    else none
  | .popping => b.queue.consStep.bind fun x =>
      match x.2 with
      | .popped result => some { b with
          queue := x.1, server := { b.server with pos := .check result } }
      | .silent => some { b with queue := x.1 }
      | .pushed _ => none
  | .check result =>
    match b.queue.cons with
    | .idle c =>
      (consume result (c.msg.map b.queue.msgs) b.server.counter b.server.stat).map fun x =>
        { b with server := { pos := .call, counter := x.2.1, stat := x.2.2, state := x.1 } }
    | .busy _ _ => none

end State

/-- The two processes have the channel. -/
def State.start (q : QueueState Msg) : State where
  queue := q
  client := { pos := .fill, counter := 0, stat := { sent := 0, dropped := 0 }, r := 1 }
  server :=
    { pos := .call, counter := counterInit, stat := { received := 0, overflowed := 0, dropped := 0 },
      state := 1 }

/-- The benchmark on a queue of `nMsgs` slots in zeroed memory. -/
def system (nMsgs sendNumMsgs : Nat) : Machine State Side Unit where
  init b := ∃ q, (queueSystem Msg nMsgs).init q ∧ (∀ i, (q.msgs i).stop = false) ∧
    b = .start q
  step b
    | .producer => (b.clientStep sendNumMsgs).map (·, ())
    | .consumer => b.serverStep.map (·, ())

/-! ## What holds between the steps

  A message carries its number, so what the two sides have counted can be compared with what has
  passed. -/

/-- The message number `k`; the last one says stop. -/
def message (sendNumMsgs k : Nat) : Msg := { counter := k, stop := decide (k = sendNumMsgs) }

/-- The counter of a server that holds this message. -/
def number : Option (Nat × Msg) → Nat
  | some (k, _) => k
  | none => counterInit

/-- The client has sent `counter` messages. -/
structure Sending (sendNumMsgs : Nat) (t : Traffic Msg) (c : Client) : Prop where
  counter : c.counter = t.accepted.length
  le : c.counter ≤ sendNumMsgs
  sent : c.stat.sent = c.counter
  dropped : c.stat.dropped = t.lost

/-- What holds at each point of the client. -/
def AtClient (sendNumMsgs : Nat) (q : QueueState Msg) (t : Traffic Msg) (c : Client) :
    ClientAt → Prop
  | .fill => (∃ p, q.prod = .idle p) ∧ Sending sendNumMsgs t c ∧ ∀ i, (q.msgs i).stop = false
  | .push => (∃ p, q.prod = .idle p ∧ q.msgs p.current = message sendNumMsgs c.counter) ∧
      Sending sendNumMsgs t c ∧ (c.counter < sendNumMsgs → ∀ i, (q.msgs i).stop = false)
  | .pushing => (∃ prog, q.prod = .busy .forcePush prog) ∧
      t.offered = some (message sendNumMsgs c.counter) ∧ Sending sendNumMsgs t c ∧
      (c.counter < sendNumMsgs → ∀ i, (q.msgs i).stop = false)
  | .done => (∃ p, q.prod = .idle p) ∧ t.accepted.length = sendNumMsgs + 1 ∧
      c.stat.sent = sendNumMsgs ∧ c.stat.dropped ≤ t.lost ∧ t.lost ≤ c.stat.dropped + 1

/-- The accepted messages are numbered, and the client is where it is. -/
structure ClientInv (sendNumMsgs : Nat) (q : QueueState Msg) (t : Traffic Msg) (c : Client) :
    Prop where
  r : c.r = 1
  accepted : ∀ k x, t.accepted[k]? = some x → x = message sendNumMsgs k
  pos : AtClient sendNumMsgs q t c c.pos

/-- The server has looked at the messages up to `prior`. -/
structure Seen (t : Traffic Msg) (prior : Option (Nat × Msg)) (taken : Nat) (v : Server) : Prop where
  counter : v.counter = number prior
  all : v.stat.received + v.stat.dropped = nextNumber prior
  received : v.stat.received + taken = t.taken.length

/-- What the result of a pop says about the message held before and the one held now. -/
structure Fits (y : PopResult) (prior held : Option (Nat × Msg)) : Prop where
  error : y ≠ .error
  noMsg : y = .noMsg → prior = none
  keep : y.isTaken = false → held = prior
  success : y = .success → ∃ x, held = some (nextNumber prior, x)
  discarded : y = .discarded → ∃ k x, held = some (k, x) ∧ nextNumber prior < k

/-- What holds at each point of the server. -/
def AtServer (sendNumMsgs : Nat) (q : QueueState Msg) (t : Traffic Msg) (v : Server) :
    ServerAt → Prop
  | .call => (∃ c, q.cons = .idle c) ∧ Seen t q.held 0 v ∧
      (v.state = 1 ∨ v.state = 0 ∧ v.counter = sendNumMsgs)
  | .popping => (∃ prog, q.cons = .busy .pop prog) ∧ Seen t q.held 0 v ∧ v.state = 1
  | .check y => (∃ c, q.cons = .idle c ∧ (y.isTaken = true → c.current ≠ indexInvalid)) ∧
      v.state = 1 ∧ ∃ prior, Seen t prior y.isTaken.toNat v ∧ Fits y prior q.held

/-- What holds in every state of the benchmark. -/
def Inv (nMsgs sendNumMsgs : Nat) (b : State) : Prop :=
  ∃ h, (queueSystem Msg nMsgs).Observed NoFlush QueueState.observe h b.queue ∧
    ClientInv sendNumMsgs b.queue (.ofHistory h) b.client ∧
    AtServer sendNumMsgs b.queue (.ofHistory h) b.server b.server.pos

section frame

variable {sendNumMsgs : Nat} {q q' : QueueState Msg} {t t' : Traffic Msg} {c : Client} {v : Server}

/-- The place of the server depends on the consumer's side only. -/
theorem AtServer.congr {pos : ServerAt} (h : AtServer sendNumMsgs q t v pos)
    (hcons : q'.cons = q.cons) (hheld : q'.held = q.held) (htaken : t'.taken = t.taken) :
    AtServer sendNumMsgs q' t' v pos := by
  have hseen : ∀ {prior k}, Seen t prior k v → Seen t' prior k v := by
    intro prior k h
    exact { h with received := h.received.trans (congrArg List.length htaken.symm) }
  cases pos with
  | call =>
    obtain ⟨hc, hs, hstate⟩ := h
    exact ⟨hcons ▸ hc, hheld ▸ hseen hs, hstate⟩
  | popping =>
    obtain ⟨hc, hs, hstate⟩ := h
    exact ⟨hcons ▸ hc, hheld ▸ hseen hs, hstate⟩
  | check y =>
    obtain ⟨hc, hstate, prior, hs, hfits⟩ := h
    exact ⟨hcons ▸ hc, hstate, prior, hseen hs, hheld ▸ hfits⟩

/-- The place of the client depends on the producer's side only. -/
theorem ClientInv.congr (h : ClientInv sendNumMsgs q t c) (hprod : q'.prod = q.prod)
    (hmsgs : q'.msgs = q.msgs) (haccepted : t'.accepted = t.accepted)
    (hoffered : t'.offered = t.offered) (hlost : t'.lost = t.lost) :
    ClientInv sendNumMsgs q' t' c := by
  refine ⟨h.r, haccepted ▸ h.accepted, ?_⟩
  have hsend : Sending sendNumMsgs t c → Sending sendNumMsgs t' c := by
    intro hs
    exact ⟨haccepted ▸ hs.counter, hs.le, hs.sent, hlost ▸ hs.dropped⟩
  have hpos := h.pos
  revert hpos
  cases c.pos with
  | fill =>
    rintro ⟨hp, hs, hstop⟩
    exact ⟨hprod ▸ hp, hsend hs, hmsgs ▸ hstop⟩
  | push =>
    rintro ⟨hp, hs, hstop⟩
    exact ⟨by rw [hprod, hmsgs]; exact hp, hsend hs, hmsgs ▸ hstop⟩
  | pushing =>
    rintro ⟨hp, hoff, hs, hstop⟩
    exact ⟨hprod ▸ hp, hoffered ▸ hoff, hsend hs, hmsgs ▸ hstop⟩
  | done =>
    rintro ⟨hp, hlen, hs, hd⟩
    exact ⟨hprod ▸ hp, haccepted ▸ hlen, hs, hlost ▸ hd⟩

/-- What has been sent are the messages 0, …, at most `sendNumMsgs`. -/
theorem ClientInv.sent (h : ClientInv sendNumMsgs q t c)
    (hidle : ∀ p, q.prod = .idle p → t.offered = none) :
    t.sent.length ≤ sendNumMsgs + 1 ∧
    ∀ k x, t.sent[k]? = some x → x = message sendNumMsgs k ∧ k ≤ sendNumMsgs := by
  -- While no push is going on everything sent has been accepted.
  have hnone : t.offered = none → t.accepted.length ≤ sendNumMsgs + 1 →
      t.sent.length ≤ sendNumMsgs + 1 ∧
      ∀ k x, t.sent[k]? = some x → x = message sendNumMsgs k ∧ k ≤ sendNumMsgs := by
    intro hoff hlen
    have hsent : t.sent = t.accepted := by
      rw [Traffic.sent, hoff]
      exact List.append_nil _
    rw [hsent]
    refine ⟨hlen, ?_⟩
    intro k x hx
    obtain ⟨hk, -⟩ := List.getElem?_eq_some_iff.mp hx
    exact ⟨h.accepted k x hx, by omega⟩
  have hpos := h.pos
  revert hpos
  cases c.pos with
  | fill =>
    rintro ⟨⟨p, hp⟩, hs, -⟩
    exact hnone (hidle p hp) (by have := hs.counter; have := hs.le; omega)
  | push =>
    rintro ⟨⟨p, hp, -⟩, hs, -⟩
    exact hnone (hidle p hp) (by have := hs.counter; have := hs.le; omega)
  | done =>
    rintro ⟨⟨p, hp⟩, hlen, -⟩
    exact hnone (hidle p hp) hlen.le
  | pushing =>
    rintro ⟨-, hoff, hs, -⟩
    have hcounter := hs.counter
    have hle := hs.le
    have hlen : t.sent.length = t.accepted.length + 1 := by
      rw [Traffic.sent, hoff, List.length_append]
      rfl
    refine ⟨by omega, ?_⟩
    intro k x hx
    obtain ⟨hk, -⟩ := List.getElem?_eq_some_iff.mp hx
    -- the message offered is the last one
    rcases Nat.lt_or_ge k t.accepted.length with hlt | hge
    · rw [Traffic.sent_of_lt _ hlt] at hx
      exact ⟨h.accepted k x hx, by omega⟩
    · obtain rfl : k = t.accepted.length := by omega
      rw [Traffic.sent_last hoff] at hx
      cases hx
      exact ⟨by rw [hcounter], by omega⟩

end frame

/-! ## The steps of the client -/

section client

variable {n sendNumMsgs : Nat} {b : State}

/-- One step more of what is observed. -/
theorem observed_step {h : List (QueueHistoryEvent Msg)} {q q' : QueueState Msg}
    {e : QueueEvent Msg} {o : QueueOutcome}
    (hobs : (queueSystem Msg n).Observed NoFlush QueueState.observe h q) (hok : NoFlush q e)
    (hs : q.step e = some (q', o)) :
    (queueSystem Msg n).Observed NoFlush QueueState.observe (h ++ q.observe e q' o) q' :=
  hobs.step hok hs

/-- A message of the loop, or the stop message. -/
theorem message_eq {x : Msg} {counter : Nat} (hstop : x.stop = false) (hle : counter ≤ sendNumMsgs) :
    (if counter < sendNumMsgs then { x with counter := counter }
      else { x with counter := counter, stop := true }) = message sendNumMsgs counter := by
  unfold message
  by_cases hlt : counter < sendNumMsgs
  · rw [if_pos hlt, decide_eq_false (by omega), ← hstop]
  · rw [if_neg hlt, decide_eq_true (by omega)]

/-- The client fills in its message. -/
theorem Inv.fill (hn : SizeOk n) (h : Inv n sendNumMsgs b) (hpos : b.client.pos = .fill) :
    ∃ b', b.clientStep sendNumMsgs = some b' ∧ Inv n sendNumMsgs b' := by
  obtain ⟨h, hobs, hc, hv⟩ := h
  obtain ⟨r, tp, ph, cph, hph, -, hinv, -⟩ := carries_run hn hobs
  have hat := hc.pos
  rw [hpos] at hat
  obtain ⟨⟨p, hp⟩, hsend, hstop⟩ := hat
  -- Between pushes the current slot is one of the queue, so `ri_producer_queue_msg` is not NULL.
  obtain rfl := ProducerPhase.thread_eq_idle (hph.symm.trans hp)
  have hlt : p.current.toNat < p.nMsgs :=
    hinv.queue.ring.path.nMsgs.symm ▸ hinv.queue.ring.1.current_lt
  have hmsg : p.msg = some p.current := queueGetMsg_of_lt hlt
  obtain ⟨q, hq, hprod, hmsgs, hcons, hheld⟩ : ∃ q,
      b.queue.write (message sendNumMsgs b.client.counter) = some (q, .silent) ∧
      q.prod = .idle p ∧
      q.msgs = Function.update b.queue.msgs p.current (message sendNumMsgs b.client.counter) ∧
      q.cons = b.queue.cons ∧ q.held = b.queue.held := by
    rw [QueueState.write, hp]
    simp only [hmsg, Option.map_some]
    exact ⟨_, rfl, rfl, rfl, rfl, rfl⟩
  -- The write is not observed.
  have hobs' := observed_step (e := .write _) hobs trivial hq
  refine ⟨{ b with queue := q, client := { b.client with pos := .push } }, ?_, h ++ [], hobs',
    ?_, ?_⟩
  · rw [State.clientStep, hpos]
    simp only [hp, hmsg, Option.bind_some, message_eq (hstop _) hsend.le, hq, Option.map_some]
  · rw [List.append_nil]
    refine ⟨hc.r, hc.accepted, ⟨p, hprod, ?_⟩, { hsend with }, ?_⟩
    · rw [hmsgs]
      exact Function.update_self _ _ _
    · intro hless i
      rw [hmsgs]
      -- before the last message no slot has the stop flag
      by_cases hi : i = p.current
      · rw [hi, Function.update_self]
        exact decide_eq_false (Nat.ne_of_lt hless)
      · rw [Function.update_of_ne hi]
        exact hstop i
  · rw [List.append_nil]
    exact hv.congr hcons hheld rfl

/-- The client calls the push. -/
theorem Inv.push (h : Inv n sendNumMsgs b) (hpos : b.client.pos = .push) :
    ∃ b', b.clientStep sendNumMsgs = some b' ∧ Inv n sendNumMsgs b' := by
  obtain ⟨h, hobs, hc, hv⟩ := h
  have hat := hc.pos
  rw [hpos] at hat
  obtain ⟨⟨p, hp, hfilled⟩, hsend, hstop⟩ := hat
  obtain ⟨q, hq, hprod, hmsgs, hcons, hheld⟩ : ∃ q, b.queue.push .forcePush = some (q, .silent) ∧
      q.prod = .busy .forcePush (PushOp.forcePush.prog p) ∧ q.msgs = b.queue.msgs ∧
      q.cons = b.queue.cons ∧ q.held = b.queue.held := by
    rw [QueueState.push, hp]
    exact ⟨_, rfl, rfl, rfl, rfl, rfl⟩
  -- What is offered is the message that was filled in.
  have hobs' := observed_step (e := .push _) hobs trivial hq
  have hseen : b.queue.observe (.push .forcePush) q .silent =
      [.invoke .producer (.push .forcePush (b.queue.msgs p.current))] := by
    rw [QueueState.observe, hp]
  refine ⟨{ b with queue := q, client := { b.client with pos := .pushing } }, ?_, _, hobs', ?_, ?_⟩
  · rw [State.clientStep, hpos]
    simp only [hq, Option.map_some]
  · rw [hseen, Traffic.ofHistory_append]
    refine ⟨hc.r, hc.accepted, ⟨_, hprod⟩, ?_, { hsend with }, hmsgs ▸ hstop⟩
    rw [← hfilled]
    rfl
  · rw [hseen, Traffic.ofHistory_append]
    exact hv.congr hcons hheld rfl

/-- The result of a force push: it is one, and it is no error. -/
theorem forcePush_result {r : Ring} {ph ph' : ProducerPhase} {m m' : QueueMem} {y : PushResult}
    {prog : QueueProg (ProducerQueue × PushResult)} (hn : SizeOk n) (hring : RingInv n r ph)
    (hm : SharedInv n r ph m) (hph : ph.thread = .busy .forcePush prog)
    (hs : ProducerStep ph m ph' m' (.pushed y)) :
    y = .forcePush .success ∨ y = .forcePush .discarded := by
  cases hs with
  | first3 | requeue =>
    cases hph
    exact Or.inl rfl
  | loadError hv => exact absurd (hring.forceLoad_valid hn hm) hv
  | loadNext | overLost => exact Or.inl rfl
  | moved | movedFull | overran => exact Or.inr rfl
  | _ => cases hph

/-- A push that has not returned is still going on. -/
theorem prodStep_silent {q q' : QueueState Msg} {op : PushOp}
    {prog : QueueProg (ProducerQueue × PushResult)} (hbusy : q.prod = .busy op prog)
    (hs : q.prodStep = some (q', .silent)) : ∃ prog', q'.prod = .busy op prog' := by
  rw [QueueState.prodStep, hbusy] at hs
  obtain ⟨pm, -, hpm⟩ := Option.map_eq_some_iff.mp hs
  revert hpm
  cases pm.1 with
  | ret x => intro hpm; cases hpm
  | act a f =>
    intro hpm
    cases hpm
    exact ⟨_, rfl⟩
  | fault =>
    intro hpm
    cases hpm
    exact ⟨_, rfl⟩

/-- A force push of the client has returned. -/
theorem ClientInv.pushed {q q' : QueueState Msg} {t : Traffic Msg} {c : Client}
    (hc : ClientInv sendNumMsgs q t c) (hpos : c.pos = .pushing) (b : State) (hb : b.client = c)
    {f : ForcePushResult} (hf : f = .success ∨ f = .discarded) (hprod : ∃ p, q'.prod = .idle p)
    (hmsgs : q'.msgs = q.msgs) :
    ClientInv sendNumMsgs q' (t.see (.respond .producer (.pushed (.forcePush f))))
      (b.pushed sendNumMsgs q' f).client := by
  have hat := hc.pos
  rw [hpos] at hat
  obtain ⟨-, hoff, hsend, hstop⟩ := hat
  obtain ⟨hcounter, hle, hsent, hdropped⟩ := hsend
  -- A force push always accepts the message.
  have haccepted : (t.see (.respond .producer (.pushed (.forcePush f)))).accepted =
      t.accepted ++ [message sendNumMsgs c.counter] := by
    rcases hf with rfl | rfl <;> simp only [Traffic.see, hoff] <;> rfl
  have hlost : (t.see (.respond .producer (.pushed (.forcePush f)))).lost =
      t.lost + if f = .discarded then 1 else 0 := by
    rcases hf with rfl | rfl <;> rfl
  have hnumbered : ∀ k x, (t.accepted ++ [message sendNumMsgs c.counter])[k]? = some x →
      x = message sendNumMsgs k := by
    intro k x hx
    rcases Nat.lt_or_ge k t.accepted.length with hlt | hge
    · rw [List.getElem?_append_left hlt] at hx
      exact hc.accepted k x hx
    · obtain ⟨hk, -⟩ := List.getElem?_eq_some_iff.mp hx
      rw [List.length_append, List.length_singleton] at hk
      obtain rfl : k = t.accepted.length := by omega
      rw [List.getElem?_append_right le_rfl, Nat.sub_self] at hx
      cases hx
      rw [hcounter]
  -- Another message is to be produced, or this was the last one.
  by_cases hless : c.counter < sendNumMsgs
  · have hproduce : (b.pushed sendNumMsgs q' f).client =
        { pos := .fill, counter := c.counter + 1,
          stat := { sent := c.stat.sent + 1,
                    dropped := c.stat.dropped + if f = .discarded then 1 else 0 }, r := 1 } := by
      rw [State.pushed, hb, if_pos hless]
      rcases hf with rfl | rfl <;> rfl
    rw [hproduce]
    refine ⟨rfl, by rw [haccepted]; exact hnumbered, hprod, ⟨?_, hless, ?_, ?_⟩, ?_⟩
    · rw [haccepted, List.length_append, ← hcounter, List.length_singleton]
    · exact congrArg (· + 1) hsent
    · rw [hlost, ← hdropped]
    · rw [hmsgs]
      exact hstop hless
  · have hdone : (b.pushed sendNumMsgs q' f).client = { c with pos := .done } := by
      rw [State.pushed, hb, if_neg hless]
    -- the last message is not counted by the client
    have hone : (if f = .discarded then 1 else 0) ≤ 1 := by
      split <;> decide
    rw [hdone]
    refine ⟨hc.r, by rw [haccepted]; exact hnumbered, hprod, ?_, ?_, ?_, ?_⟩
    · rw [haccepted, List.length_append, ← hcounter]
      show c.counter + 1 = sendNumMsgs + 1
      omega
    · show c.stat.sent = sendNumMsgs
      omega
    · rw [hlost]
      show c.stat.dropped ≤ _
      omega
    · rw [hlost]
      show _ ≤ c.stat.dropped + 1
      omega

/-- A step inside the push; at its end the client counts the result. -/
theorem Inv.pushing (hn : SizeOk n) (h : Inv n sendNumMsgs b) (hpos : b.client.pos = .pushing) :
    ∃ b', b.clientStep sendNumMsgs = some b' ∧ Inv n sendNumMsgs b' := by
  obtain ⟨h, hobs, hc, hv⟩ := h
  obtain ⟨r, tp, ph, cph, hph, -, hinv, -⟩ := carries_run hn hobs
  have hat := hc.pos
  rw [hpos] at hat
  obtain ⟨⟨prog, hbusy⟩, hoff, hsend, hstop⟩ := hat
  obtain ⟨q, o, hq⟩ := QueueState.prodStep_isSome hph hbusy
  obtain ⟨ph', m', hstep, hafter⟩ := prodStep_cases hph hq
  have hobs' := observed_step (e := .prodStep) hobs trivial hq
  have hcons : q.cons = b.queue.cons := by rw [hafter]
  have hheld : q.held = b.queue.held := by rw [hafter]
  have hmsgs : q.msgs = b.queue.msgs := by rw [hafter]
  rw [State.clientStep, hpos]
  -- The push goes on, or it returns.
  rcases hstep.returns with ⟨rfl, -⟩ | ⟨y, p, rfl, rfl⟩
  · have hseen : h ++ b.queue.observe .prodStep q .silent = h := List.append_nil h
    rw [hseen] at hobs'
    refine ⟨{ b with queue := q }, ?_, h, hobs', ⟨hc.r, hc.accepted, ?_⟩, hv.congr hcons hheld rfl⟩
    · simp only [hq, Option.bind_some]
    · rw [hpos]
      exact ⟨prodStep_silent hbusy hq, hoff, hsend, hmsgs ▸ hstop⟩
  · -- it returns SUCCESS or DISCARDED, so the client's error branch is not taken
    have hresult := forcePush_result hn hinv.queue.ring hinv.queue.shared (hph.symm.trans hbusy) hstep
    obtain ⟨f, rfl, hf⟩ : ∃ f, y = .forcePush f ∧ (f = .success ∨ f = .discarded) := by
      rcases hresult with rfl | rfl
      · exact ⟨_, rfl, Or.inl rfl⟩
      · exact ⟨_, rfl, Or.inr rfl⟩
    have hidle : ∃ p, q.prod = .idle p := ⟨p, by rw [hafter]; rfl⟩
    have hpushed : (b.pushed sendNumMsgs q f).queue = q ∧
        (b.pushed sendNumMsgs q f).server = b.server := by
      unfold State.pushed
      split <;> exact ⟨rfl, rfl⟩
    refine ⟨b.pushed sendNumMsgs q f, by simp only [hq, Option.bind_some], _, hpushed.1.symm ▸ hobs',
      ?_, ?_⟩
    · rw [Traffic.ofHistory_append, hpushed.1]
      exact hc.pushed hpos b rfl hf hidle hmsgs
    · rw [Traffic.ofHistory_append, hpushed.1, hpushed.2]
      exact hv.congr hcons hheld rfl

/-- Any step of the client. -/
theorem Inv.clientStep (hn : SizeOk n) (h : Inv n sendNumMsgs b) (hpos : b.client.pos ≠ .done) :
    ∃ b', b.clientStep sendNumMsgs = some b' ∧ Inv n sendNumMsgs b' := by
  cases hat : b.client.pos with
  | fill => exact h.fill hn hat
  | push => exact h.push hat
  | pushing => exact h.pushing hn hat
  | done => exact absurd hat hpos

end client

/-! ## The steps of the server -/

section server

variable {n sendNumMsgs : Nat} {b : State}

/-- What a pop returns, without a flush in the run. -/
theorem fits {r : Ring} {tp : Nat} {ph : ProducerPhase} {cph cph' : ConsumerPhase}
    {q : QueueState Msg} {m' : QueueMem} {y : PopResult} (hn : SizeOk n)
    (hinv : PopInv n r tp ph cph q) (hs : ConsumerStep cph q.mem cph' m' (.popped y)) :
    Fits y q.held (q.afterCons cph' m' (.popped y)).held := by
  have hm := hinv.queue.shared
  have hc := hinv.queue.cons
  obtain ⟨-, -, htakes⟩ := hinv.takes hn hs
  obtain ⟨hsuccess, hdiscarded⟩ := hs.takes_next hn hinv
  refine ⟨?_, ?_, htakes.keep, hsuccess, hdiscarded⟩
  · -- a pop reports no error
    intro hy
    cases hs with
    | popError ht hv => exact (hm.tail_ok ht).lt.not_ge (not_lt.mp (hc.nMsgs ▸ hv))
    | popTail => split at hy <;> cases hy
    | popNone ht hv hcons hcur => exact hinv.popOnly.holder ht (Or.inl hcons) hcur
    | popNextError hne hv => exact hv (hc.nMsgs.symm ▸ hinv.queue.next_lt hc.reads.1 hne)
    | popMovedError hv => exact hv (hc.nMsgs.symm ▸ hc.reads.2)
    | flushError | flushHeadError => exact hinv.popOnly.noFlush trivial
    | _ => cases hy
  · intro hy
    cases hs with
    -- NO_MSG only before the first message
    | popNoMsg ht =>
      refine (hinv.delivery.unset ?_).2
      by_contra hh
      exact (hm.tail hh).ne_invalid ht
    | popTail => split at hy <;> cases hy
    | flushNoMsg => exact absurd trivial hinv.popOnly.noFlush
    | _ => cases hy

/-- A point of a pop is one of its code. -/
theorem thread_popping {cph : ConsumerPhase} (hne : ∀ c, cph ≠ .idle c) (hpop : ¬ cph.inFlush) :
    ∃ prog, cph.thread = .busy .pop prog := by
  cases cph with
  | idle c => exact absurd rfl (hne c)
  | flush1 | flush2 | flush3 => exact absurd trivial hpop
  | _ => exact ⟨_, rfl⟩

/-- A pop adds what it hands out to the taken messages. -/
theorem taken_length {r : Ring} {tp : Nat} {ph : ProducerPhase} {cph cph' : ConsumerPhase}
    {q : QueueState Msg} {m' : QueueMem} {o : QueueOutcome} {t : Traffic Msg} (hn : SizeOk n)
    (hinv : PopInv n r tp ph cph q) (hs : ConsumerStep cph q.mem cph' m' o) :
    ((popReply (q.afterCons cph' m' o) o).foldl Traffic.see t).taken.length =
      t.taken.length + o.isTaken.toNat := by
  cases ho : o.isTaken with
  | false =>
    rw [see_popReply ho]
    rfl
  | true =>
    obtain ⟨y, k, x, rfl, hx, -⟩ := hs.delivered hn hinv ho
    show (t.taken ++ ((q.afterCons cph' m' (.popped y)).delivered y).toList).length = _
    rw [hx, List.length_append]
    rfl

/-- The server calls the pop. -/
theorem Inv.call (h : Inv n sendNumMsgs b) (hpos : b.server.pos = .call)
    (hstate : 0 < b.server.state) : ∃ b', b.serverStep = some b' ∧ Inv n sendNumMsgs b' := by
  obtain ⟨h, hobs, hc, hv⟩ := h
  rw [hpos] at hv
  obtain ⟨⟨c, hcons⟩, hseen, hone⟩ := hv
  -- The server calls again only in state 1.
  have hone' : b.server.state = 1 := by
    rcases hone with hone | ⟨hzero, -⟩
    · exact hone
    · omega
  obtain ⟨q, hq, hbusy, hprod, hmsgs, hheld⟩ : ∃ q, b.queue.pop .pop = some (q, .silent) ∧
      q.cons = .busy .pop (PopOp.pop.prog c) ∧ q.prod = b.queue.prod ∧ q.msgs = b.queue.msgs ∧
      q.held = b.queue.held := by
    rw [QueueState.pop, hcons]
    exact ⟨_, rfl, rfl, rfl, rfl, rfl⟩
  have hobs' := observed_step (e := .pop .pop) hobs trivial hq
  refine ⟨{ b with queue := q, server := { b.server with pos := .popping } }, ?_, _, hobs', ?_, ?_⟩
  · rw [State.serverStep, hpos]
    simp only [if_pos hstate, hq, Option.map_some]
  · rw [Traffic.ofHistory_append]
    exact hc.congr hprod hmsgs rfl rfl rfl
  · rw [Traffic.ofHistory_append]
    refine ⟨⟨_, hbusy⟩, ?_, hone'⟩
    rw [hheld]
    exact { hseen with }

/-- A step inside the pop. -/
theorem Inv.popping (hn : SizeOk n) (h : Inv n sendNumMsgs b) (hpos : b.server.pos = .popping) :
    ∃ b', b.serverStep = some b' ∧ Inv n sendNumMsgs b' := by
  obtain ⟨h, hobs, hc, hv⟩ := h
  obtain ⟨r, tp, ph, cph, -, hcph, hinv, -⟩ := carries_run hn hobs
  rw [hpos] at hv
  obtain ⟨⟨prog, hbusy⟩, hseen, hone⟩ := hv
  obtain ⟨q, o, hq⟩ := QueueState.consStep_isSome hcph hbusy
  obtain ⟨cph', m', hstep, hafter⟩ := consStep_cases hcph hq
  have hobs' := observed_step (e := .consStep) hobs trivial hq
  have hprod : q.prod = b.queue.prod := by rw [hafter]
  have hmsgs : q.msgs = b.queue.msgs := by rw [hafter]
  have hq' : q = b.queue.afterCons cph' m' o := hafter
  have hobserve : b.queue.observe .consStep q o = popReply (b.queue.afterCons cph' m' o) o := by
    rw [← hq']
    cases o <;> rfl
  have hlen := taken_length (t := .ofHistory h) hn hinv hstep
  rw [← hobserve, ← Traffic.ofHistory_append] at hlen
  -- The client does not see the pop.
  have hclient : ClientInv sendNumMsgs q (.ofHistory (h ++ b.queue.observe .consStep q o)) b.client := by
    have hsee : ∀ y x, (Traffic.ofHistory h).see (.respond .consumer (.popped y x)) =
        { Traffic.ofHistory h with taken := (Traffic.ofHistory h).taken ++ x.toList } :=
      fun _ _ => rfl
    rw [hobserve, Traffic.ofHistory_append]
    cases o <;> exact hc.congr hprod hmsgs rfl rfl rfl
  rw [State.serverStep, hpos]
  -- The pop goes on, or it returns and the server checks the message.
  rcases hstep.returns with ⟨rfl, hne⟩ | ⟨y, c, rfl, rfl⟩
  · have hflush := (hstep.left_lt hinv.popOnly.noFlush).2
    obtain ⟨prog', hprog'⟩ := thread_popping hne hflush
    refine ⟨{ b with queue := q }, by simp only [hq, Option.bind_some], _, hobs', hclient, ?_⟩
    rw [hpos]
    refine ⟨⟨prog', by rw [hq']; exact hprog'⟩, ?_, hone⟩
    rw [show q.held = b.queue.held by rw [hq']; rfl]
    exact { hseen with received := hseen.received.trans hlen.symm }
  · refine ⟨{ b with queue := q, server := { b.server with pos := .check y } }, ?_, _, hobs',
      hclient, ⟨c, by rw [hq']; rfl, ?_⟩, hone, b.queue.held, ?_, ?_⟩
    · simp only [hq, Option.bind_some]
    · -- a message taken is one of the queue
      intro htaken
      obtain ⟨c', hc', hlt⟩ := hstep.taken_idle hinv.queue htaken
      cases hc'
      have hn' : c.nMsgs = n := (hstep.queueInv hn hinv.queue).cons.nMsgs
      exact hn.ne_invalid (hn' ▸ hlt)
    · refine { hseen with received := ?_ }
      rw [hlen, ← hseen.received]
      rfl
    · rw [hq']
      exact fits hn hinv hstep

/-- The message that a server which holds number `k` points to. -/
theorem held_message {h : List (QueueHistoryEvent Msg)} {q : QueueState Msg} {cl : Client}
    {c : ConsumerQueue} {k : Nat} {x : Msg} (hn : SizeOk n)
    (hobs : (queueSystem Msg n).Observed NoFlush QueueState.observe h q)
    (hc : ClientInv sendNumMsgs q (.ofHistory h) cl) (hcons : q.cons = .idle c)
    (hne : c.current ≠ indexInvalid) (hheld : q.held = some (k, x)) :
    c.msg.map q.msgs = some (message sendNumMsgs k) ∧ k ≤ sendNumMsgs := by
  obtain ⟨r, tp, ph, cph, hph, hcph, hinv, hcarries⟩ := carries_run hn hobs
  obtain rfl := ConsumerPhase.thread_eq_idle (hcph.symm.trans hcons)
  have hidle : ∀ p, q.prod = .idle p → (Traffic.ofHistory h).offered = none := by
    intro p hp
    obtain rfl := ProducerPhase.thread_eq_idle (hph.symm.trans hp)
    exact hcarries.offered
  obtain ⟨hx, hk⟩ := (hc.sent hidle).2 k x (hcarries.held k x hheld)
  obtain ⟨k', hheld', -⟩ := (hinv.holds hne).held
  obtain ⟨rfl, rfl⟩ := Prod.mk.inj (Option.some.inj (hheld'.symm.trans hheld))
  have hlt : c.current.toNat < c.nMsgs :=
    hinv.queue.cons.nMsgs.symm ▸ hinv.queue.cons.current hne
  have hmsg : c.msg = some c.current := by
    rw [ConsumerQueue.msg, if_neg hne]
    exact queueGetMsg_of_lt hlt
  refine ⟨?_, hk⟩
  rw [hmsg, ← hx]
  rfl

/-- `consume` after a success: the counter is the next one. -/
theorem consume_success {prior : Option (Nat × Msg)} {stat : ServerStat}
    (hmax : sendNumMsgs < counterInit) (hk : nextNumber prior ≤ sendNumMsgs) :
    consume .success (some (message sendNumMsgs (nextNumber prior))) (number prior) stat =
      some (if nextNumber prior = sendNumMsgs then 0 else 1, nextNumber prior,
        { stat with received := stat.received + 1 }) := by
  have hcheck : ¬ (number prior ≠ counterInit ∧
      (message sendNumMsgs (nextNumber prior)).counter ≠ (number prior + 1) % 2 ^ 64) := by
    rintro ⟨hne, hbad⟩
    cases prior with
    | none => exact hne rfl
    | some kx =>
      apply hbad
      have hle : kx.1 + 1 ≤ sendNumMsgs := hk
      show kx.1 + 1 = (kx.1 + 1) % 2 ^ 64
      unfold counterInit at hmax
      omega
  simp only [consume, if_neg hcheck]
  simp only [message, decide_eq_true_eq]

/-- `consume` after a discarded message: the counter is a later one. -/
theorem consume_discarded {prior : Option (Nat × Msg)} {k : Nat} {stat : ServerStat}
    (hmax : sendNumMsgs < counterInit) (hk : k ≤ sendNumMsgs) (hlt : nextNumber prior < k) :
    consume .discarded (some (message sendNumMsgs k)) (number prior) stat =
      some (if k = sendNumMsgs then 0 else 1, k,
        { received := stat.received + 1, overflowed := stat.overflowed + 1,
          dropped := stat.dropped + (k - nextNumber prior) }) := by
  -- The number is newer than the last one, so the server's check does not complain.
  have hcheck : ¬ (number prior ≠ counterInit ∧ k ≤ (number prior + 1) % 2 ^ 64) := by
    rintro ⟨hne, hbad⟩
    cases prior with
    | none => exact hne rfl
    | some kx =>
      have hlt' : kx.1 + 1 < k := hlt
      have hbad' : k ≤ (kx.1 + 1) % 2 ^ 64 := hbad
      have := Nat.mod_le (kx.1 + 1) (2 ^ 64)
      omega
  -- The gap is the number of messages that were skipped.
  have hmissed : (if number prior = counterInit then k else k - number prior - 1) =
      k - nextNumber prior := by
    cases prior with
    | none => exact if_pos rfl
    | some kx =>
      have hlt' : kx.1 + 1 < k := hlt
      have hne : kx.1 ≠ counterInit := by omega
      show (if kx.1 = counterInit then k else k - kx.1 - 1) = k - (kx.1 + 1)
      rw [if_neg hne]
      omega
  simp only [consume, message, if_neg hcheck, hmissed, decide_eq_true_eq]

/-- The server checks the message: its number is newer than the last one, and the gap is what is
    reported. -/
theorem Inv.check (hn : SizeOk n) (hmax : sendNumMsgs < counterInit) (h : Inv n sendNumMsgs b)
    {y : PopResult} (hpos : b.server.pos = .check y) :
    ∃ b', b.serverStep = some b' ∧ Inv n sendNumMsgs b' := by
  obtain ⟨h, hobs, hc, hv⟩ := h
  rw [hpos] at hv
  obtain ⟨⟨c, hcons, hne⟩, hone, prior, ⟨hcounter, hall, hreceived⟩, hfits⟩ := hv
  -- the step is the value of `consume`
  have hstep : ∀ x, consume y (c.msg.map b.queue.msgs) (number prior) b.server.stat = some x →
      AtServer sendNumMsgs b.queue (.ofHistory h)
        { pos := .call, counter := x.2.1, stat := x.2.2, state := x.1 } .call →
      ∃ b', b.serverStep = some b' ∧ Inv n sendNumMsgs b' := by
    intro x hx hat
    refine ⟨{ b with server := { pos := .call, counter := x.2.1, stat := x.2.2, state := x.1 } }, ?_,
      h, hobs, hc, hat⟩
    rw [State.serverStep, hpos]
    simp only [hcons, hcounter, hx, Option.map_some]
  cases y with
  | error => exact absurd rfl hfits.error
  | noMsg =>
    obtain rfl := hfits.noMsg rfl
    refine hstep (1, counterInit, b.server.stat) rfl ⟨⟨c, hcons⟩, ?_, Or.inl rfl⟩
    rw [hfits.keep rfl]
    exact ⟨rfl, hall, hreceived⟩
  | noUpdate =>
    refine hstep (1, number prior, b.server.stat) rfl ⟨⟨c, hcons⟩, ?_, Or.inl rfl⟩
    rw [hfits.keep rfl]
    exact ⟨rfl, hall, hreceived⟩
  | success =>
    obtain ⟨x, hheld⟩ := hfits.success rfl
    obtain ⟨hmsg, hk⟩ := held_message hn hobs hc hcons (hne rfl) hheld
    refine hstep _ (by rw [hmsg]; exact consume_success hmax hk) ⟨⟨c, hcons⟩, ?_, ?_⟩
    · rw [hheld]
      refine ⟨rfl, ?_, hreceived⟩
      show b.server.stat.received + 1 + b.server.stat.dropped = nextNumber prior + 1
      omega
    · show (if nextNumber prior = sendNumMsgs then (0 : Int) else 1) = 1 ∨ _
      by_cases hlast : nextNumber prior = sendNumMsgs
      · exact Or.inr ⟨if_pos hlast, hlast⟩
      · exact Or.inl (if_neg hlast)
  | discarded =>
    obtain ⟨k, x, hheld, hlt⟩ := hfits.discarded rfl
    obtain ⟨hmsg, hk⟩ := held_message hn hobs hc hcons (hne rfl) hheld
    refine hstep _ (by rw [hmsg]; exact consume_discarded hmax hk hlt) ⟨⟨c, hcons⟩, ?_, ?_⟩
    · rw [hheld]
      refine ⟨rfl, ?_, hreceived⟩
      show b.server.stat.received + 1 + (b.server.stat.dropped + (k - nextNumber prior)) = k + 1
      omega
    · show (if k = sendNumMsgs then (0 : Int) else 1) = 1 ∨ _
      by_cases hlast : k = sendNumMsgs
      · exact Or.inr ⟨if_pos hlast, hlast⟩
      · exact Or.inl (if_neg hlast)

/-- Any step of the server. -/
theorem Inv.serverStep (hn : SizeOk n) (hmax : sendNumMsgs < counterInit)
    (h : Inv n sendNumMsgs b) (hpos : b.server.pos = .call → 0 < b.server.state) :
    ∃ b', b.serverStep = some b' ∧ Inv n sendNumMsgs b' := by
  cases hat : b.server.pos with
  | call => exact h.call hat (hpos hat)
  | popping => exact h.popping hn hat
  | check y => exact h.check hn hmax hat

end server

/-! ## Runs -/

section runs

variable {n sendNumMsgs : Nat} {b : State} {tr : List (Side × Unit)}

/-- The invariant in every run of the two. -/
theorem Inv.of_run (hn : SizeOk n) (hmax : sendNumMsgs < counterInit)
    (hr : (system n sendNumMsgs).Run Machine.always tr b) : Inv n sendNumMsgs b := by
  refine hr.invariant ?_ ?_
  · -- at the start nothing has been sent
    rintro _ ⟨q, hinit, hstop, rfl⟩
    obtain ⟨p, hp⟩ := queue_created hn hinit
    refine ⟨[], .init hinit, ⟨rfl, ?_, ⟨⟨p, hp.prod⟩, ⟨rfl, Nat.zero_le _, rfl, rfl⟩, hstop⟩⟩,
      ⟨⟨_, hp.cons⟩, ?_, Or.inl rfl⟩⟩
    · intro k x hx
      cases hx
    · rw [show (State.start q).queue.held = none from hp.held]
      exact ⟨rfl, rfl, rfl⟩
  · intro b e b' o h _ hs
    cases e with
    | producer =>
      obtain ⟨b'', hb, heq⟩ := Option.map_eq_some_iff.mp hs
      cases heq
      -- a client that is done makes no step
      have hpos : b.client.pos ≠ .done := by
        intro hdone
        rw [State.clientStep, hdone] at hb
        cases hb
      obtain ⟨b₁, hb₁, h₁⟩ := h.clientStep hn hpos
      cases hb₁.symm.trans hb
      exact h₁
    | consumer =>
      obtain ⟨b'', hb, heq⟩ := Option.map_eq_some_iff.mp hs
      cases heq
      -- a server that has stopped makes no step
      have hpos : b.server.pos = .call → 0 < b.server.state := by
        intro hcall
        by_contra hstate
        simp only [State.serverStep, hcall, if_neg hstate] at hb
        cases hb
      obtain ⟨b₁, hb₁, h₁⟩ := h.serverStep hn hmax hpos
      cases hb₁.symm.trans hb
      exact h₁

/-- The server that has taken the stop message has accounted for all messages. -/
theorem Inv.stopped (hn : SizeOk n) (hmax : sendNumMsgs < counterInit) (h : Inv n sendNumMsgs b)
    (hpos : b.server.pos = .call) (hstate : b.server.state = 0) :
    b.server.counter = sendNumMsgs ∧
    b.server.stat.received + b.server.stat.dropped = sendNumMsgs + 1 ∧
    b.client.stat.sent = sendNumMsgs ∧ b.client.stat.dropped ≤ b.server.stat.dropped ∧
    b.server.stat.dropped ≤ b.client.stat.dropped + 1 := by
  obtain ⟨h, hobs, hc, hv⟩ := h
  obtain ⟨r, tp, ph, cph, hph, -, hinv, hcarries⟩ := carries_run hn hobs
  rw [hpos] at hv
  obtain ⟨-, ⟨hcounter, hall, hreceived⟩, hlast⟩ := hv
  have hlast : b.server.counter = sendNumMsgs := by
    rcases hlast with hone | ⟨-, hlast⟩
    · omega
    · exact hlast
  have hidle : ∀ p, b.queue.prod = .idle p → (Traffic.ofHistory h).offered = none := by
    intro p hp
    obtain rfl := ProducerPhase.thread_eq_idle (hph.symm.trans hp)
    exact hcarries.offered
  obtain ⟨hle, -⟩ := hc.sent hidle
  have hnext : nextNumber b.queue.held = sendNumMsgs + 1 := by
    cases hheld : b.queue.held with
    | none =>
      rw [hheld] at hcounter
      have : b.server.counter = counterInit := hcounter
      omega
    | some kx =>
      rw [hheld] at hcounter
      have : b.server.counter = kx.1 := hcounter
      show kx.1 + 1 = _
      omega
  -- the held message is the last one, so nothing is unread and all others have been discarded
  have ht : b.queue.mem.tail ≠ indexInvalid := by
    intro ht
    have hnone := (hinv.delivery.unset (by
      by_contra hh
      exact (hinv.queue.shared.tail hh).ne_invalid ht)).2
    rw [hnone] at hnext
    cases hnext
  have hfirst := hcarries.first_unread hinv ht
  have hnumber := hinv.delivery.nextNumber_le_unread
  have htally := hcarries.tally
  rw [← hcarries.accepted] at htally
  have hlen : (Traffic.ofHistory h).sent.length = (Traffic.ofHistory h).accepted.length +
      (Traffic.ofHistory h).offered.toList.length := List.length_append
  have hsent : (Traffic.ofHistory h).accepted.length + ph.enqueued.toNat ≤
      (Traffic.ofHistory h).sent.length := by
    rw [hlen, hcarries.offered]
    cases ph <;> first | exact le_rfl | exact Nat.le_add_right _ _
  have hlost : b.server.stat.dropped = (Traffic.ofHistory h).lost := by
    omega
  have hsent' : (Traffic.ofHistory h).sent.length = sendNumMsgs + 1 := by
    omega
  refine ⟨hlast, by omega, ?_⟩
  have hat := hc.pos
  revert hat
  cases b.client.pos with
  | fill =>
    rintro ⟨⟨p, hp⟩, hs, -⟩
    rw [hidle p hp] at hlen
    have := hs.counter
    have := hs.le
    rw [Option.toList_none, List.length_nil] at hlen
    omega
  | push =>
    rintro ⟨⟨p, hp, -⟩, hs, -⟩
    rw [hidle p hp] at hlen
    have := hs.counter
    have := hs.le
    rw [Option.toList_none, List.length_nil] at hlen
    omega
  | pushing =>
    rintro ⟨-, hoff, hs, -⟩
    rw [hoff, Option.toList_some, List.length_singleton] at hlen
    have := hs.counter
    have := hs.sent
    have := hs.dropped
    omega
  | done =>
    rintro ⟨-, -, hs, hd, hd'⟩
    omega

/-- In every interleaving of the benchmark no check fails and no process is stuck; the server has
    received or missed every message up to the one it holds; and when it has taken the stop message, the
    dropped messages of the two statistics agree, but for one that the stop message has displaced. -/
theorem benchmark_checks (h3 : 3 ≤ n) (hsize : n ≤ 2 ^ 30) (hmax : sendNumMsgs < 2 ^ 64 - 1)
    (hr : (system n sendNumMsgs).Run Machine.always tr b) :
    b.client.r = 1 ∧ 0 ≤ b.server.state ∧
    (b.client.pos ≠ .done → ∃ b', b.clientStep sendNumMsgs = some b') ∧
    ((b.server.pos = .call → 0 < b.server.state) → ∃ b', b.serverStep = some b') ∧
    (b.server.pos = .call → b.server.state = 0 →
      b.server.counter = sendNumMsgs ∧
      b.server.stat.received + b.server.stat.dropped = sendNumMsgs + 1 ∧
      b.client.stat.sent = sendNumMsgs ∧ b.client.stat.dropped ≤ b.server.stat.dropped ∧
      b.server.stat.dropped ≤ b.client.stat.dropped + 1) := by
  have hn : SizeOk n := ⟨h3, hsize⟩
  have h := Inv.of_run hn hmax hr
  refine ⟨?_, ?_, ?_, ?_, h.stopped hn hmax⟩
  · -- the client's result is never an error
    obtain ⟨_, _, hc, _⟩ := h
    exact hc.r
  · obtain ⟨_, _, _, hv⟩ := h
    revert hv
    -- the server's state is never negative
    cases b.server.pos with
    | call =>
      rintro ⟨-, -, hone | ⟨hzero, -⟩⟩
      · omega
      · omega
    | popping =>
      rintro ⟨-, -, hone⟩
      omega
    | check y =>
      rintro ⟨-, hone, -⟩
      omega
  · intro hpos
    obtain ⟨b', hb, -⟩ := h.clientStep hn hpos
    exact ⟨b', hb⟩
  · intro hpos
    obtain ⟨b', hb, -⟩ := h.serverStep hn hmax hpos
    exact ⟨b', hb⟩

end runs

/-- The stop message follows one message, and the server pops until it has it. -/
theorem benchmark_checks_stop :
    ∃ tr b, (system 3 1).Run Machine.always tr b ∧ b.server.state = 0 ∧
      b.server.stat.received = 2 ∧ b.server.stat.dropped = 0 ∧ b.client.stat.sent = 1 := by
  have hexec : ((QueueState.zeroed 3 { counter := 0, stop := false }).bind fun q =>
      (system 3 1).exec Machine.always
        ([.consumer, .consumer, .consumer] ++ List.replicate 5 .producer ++
          List.replicate 3 .consumer ++ List.replicate 6 .producer ++ List.replicate 5 .consumer)
        ([], .start q)).any (fun ts => decide (ts.2.server.pos = .call ∧ ts.2.server.state = 0 ∧
          ts.2.server.stat.received = 2)) = true := by decide
  obtain ⟨ts, hts, hend⟩ := (Option.any_eq_true _ _).mp hexec
  obtain ⟨q, hq, hts⟩ := Option.bind_eq_some_iff.mp hts
  have hstop : ∀ i, (q.msgs i).stop = false := by
    have hcreate := hq
    rw [QueueState.zeroed, QueueState.create] at hcreate
    obtain ⟨pm, -, hpm⟩ := Option.map_eq_some_iff.mp hcreate
    cases hpm
    intro i
    rfl
  have hrun : (system 3 1).Run Machine.always ts.1 ts.2 :=
    Machine.Run.exec (.init ⟨q, ⟨_, _, _, hq⟩, hstop, rfl⟩) hts
  obtain ⟨hpos, hstate, hreceived⟩ := of_decide_eq_true hend
  obtain ⟨-, hall, hsent, -⟩ := (benchmark_checks (by decide) (by decide) (by decide) hrun).2.2.2.2
    hpos hstate
  exact ⟨ts.1, ts.2, hrun, hstate, hreceived, by omega, hsent⟩

end Benchmark

end Rtipc
