/-
  `src/channel.c`, one call after the other.

  `ChannelCall` are the calls of the two ends of a channel, each of which runs from start to end before
  the next one begins.  The message cache can be switched on and off.

  `stamp`, `pushed` and `written` record the history and are read by nobody: `stamp i` is the number and
  the content of the message last pushed from slot `i`, `pushed` the number of messages pushed so far,
  and `written` says that the application has written the message since the last one was pushed.
-/
import Rtipc.Channel
import Rtipc.Settled

namespace Rtipc

/-- One pass through the loop of `ri_consumer_flush`: with an eventfd, one `ri_consumer_pop`; without,
    one pass of `ri_consumer_queue_flush`. -/
def Consumer.flushPass {β : Type} (c : Consumer) : ChannelProg β (Consumer × Loop PopResult) :=
  if c.eventfd ≥ 0 then do
    let (c, r) ← c.pop
    return (c, if r = .success then .again else .done r)
  else do
    let (q, r) ← onQueue c.queue.flushPass
    return ({ c with queue := q }, r)

/-- The calls; `cacheEnable ok` says whether `malloc` succeeds, `flush passes` bounds the passes. -/
inductive ChannelCall (β : Type) where
  | write (x : β)
  | cacheEnable (ok : Bool)
  | cacheDisable
  | push (op : PushOp)
  | pop
  | flush (passes : Nat)
  deriving DecidableEq, Repr

/-- What a call shows: `ri_producer_cache_enable` returns 0 or `-ENOMEM`, a pop or a flush returns its
    result, and the consumer then reads the message at `ri_consumer_msg`. -/
inductive ChannelReply (β : Type) where
  | silent
  | enabled (ok : Bool)
  | pushed (r : PushResult)
  | popped (r : PopResult) (x : Option β)
  deriving DecidableEq, Repr

/-- A channel between two whole calls, with its history. -/
structure SequentialChannel (β : Type) where
  mem : ChannelMem β
  prod : Producer β
  cons : Consumer
  stamp : Index → Option (Nat × β)
  pushed : Nat
  written : Bool

namespace SequentialChannel

variable {β : Type}

/-- The message at `ri_producer_msg`: the cache, or the current slot. -/
def msg (s : SequentialChannel β) : Option β :=
  match s.prod.cache with
  | some x => some x
  | none => s.prod.queue.msg.map s.mem.msgs

/-- With the cache the visible message is the cached one. -/
theorem msg_some {s : SequentialChannel β} {x : β} (hc : s.prod.cache = some x) : s.msg = some x := by
  rw [msg, hc]

/-- Without it, it is in the current slot. -/
theorem msg_none {s : SequentialChannel β} {i : Index} (hc : s.prod.cache = none)
    (hi : s.prod.queue.msg = some i) : s.msg = some (s.mem.msgs i) := by
  rw [msg, hc, hi]
  rfl

/-- The message at `ri_consumer_msg`. -/
def received (s : SequentialChannel β) : Option β := s.cons.queue.msg.map s.mem.msgs

/-- The application writes the message at `ri_producer_msg`. -/
def write (s : SequentialChannel β) (x : β) : Option (SequentialChannel β × ChannelReply β) :=
  match s.prod.cache with
  | some _ => some ({ s with prod := { s.prod with cache := some x }, written := true }, .silent)
  | none => s.prod.queue.msg.map fun i =>
      ({ s with mem := { s.mem with msgs := Function.update s.mem.msgs i x }, written := true },
        .silent)

/-- `ri_producer_cache_enable`. -/
def cacheEnable (s : SequentialChannel β) (ok : Bool) :
    Option (SequentialChannel β × ChannelReply β) :=
  match s.prod.cache with
  | some _ => some (s, .enabled true)
  | none =>
    if ok then s.prod.queue.msg.map fun i =>
      ({ s with prod := { s.prod with cache := some (s.mem.msgs i) } }, .enabled true)
    else some (s, .enabled false)

/-- `ri_producer_cache_disable`. -/
def cacheDisable (s : SequentialChannel β) : Option (SequentialChannel β × ChannelReply β) :=
  match s.prod.cache with
  | none => some (s, .silent)
  | some x => s.prod.queue.msg.map fun i =>
      ({ s with
          mem := { s.mem with msgs := Function.update s.mem.msgs i x }
          prod := { s.prod with cache := none } }, .silent)

/-- The state after a push that has returned `y` and left the memory `m`. -/
def afterPush (s : SequentialChannel β) (y : Producer β × PushResult) (m : ChannelMem β) :
    SequentialChannel β :=
  { s with
    mem := m
    prod := y.1
    stamp := if y.2.isPushed then
        Function.update s.stamp s.prod.queue.current
          (some (s.pushed, m.msgs s.prod.queue.current))
      else s.stamp
    pushed := if y.2.isPushed then s.pushed + 1 else s.pushed
    written := s.written && !y.2.isPushed }

/-- `ri_producer_force_push` or `ri_producer_try_push`, as a whole. -/
def push (s : SequentialChannel β) (op : PushOp) : Option (SequentialChannel β × ChannelReply β) :=
  ((s.prod.push op).run ChannelOp.exec s.mem).map fun y => (s.afterPush y.1 y.2, .pushed y.1.2)

/-- The state after a pop or a flush. -/
def afterPop (s : SequentialChannel β) (c : Consumer) (m : ChannelMem β) : SequentialChannel β :=
  { s with mem := m, cons := c }

/-- `ri_consumer_pop`, as a whole. -/
def pop (s : SequentialChannel β) : Option (SequentialChannel β × ChannelReply β) :=
  (s.cons.pop.run ChannelOp.exec s.mem).map fun y =>
    (s.afterPop y.1.1 y.2, .popped y.1.2 (s.afterPop y.1.1 y.2).received)

/-- `ri_consumer_flush`. -/
def flush (s : SequentialChannel β) (passes : Nat) :
    Option (SequentialChannel β × ChannelReply β) :=
  (Prog.runLoop ChannelOp.exec Consumer.flushPass passes s.cons s.mem).map fun y =>
    (s.afterPop y.1.1 y.2, .popped y.1.2 (s.afterPop y.1.1 y.2).received)

/-- A whole call. -/
def step (s : SequentialChannel β) : ChannelCall β → Option (SequentialChannel β × ChannelReply β)
  | .write x => s.write x
  | .cacheEnable ok => s.cacheEnable ok
  | .cacheDisable => s.cacheDisable
  | .push op => s.push op
  | .pop => s.pop
  | .flush passes => s.flush passes

/-- A channel on the queue `q` as it has been created: eventfds `fd` and `fd'` with the counter at 0,
    and no cache. -/
def onNew (q : QueueState β) (fd fd' : Int) : Option (SequentialChannel β) :=
  match q.prod, q.cons with
  | .idle p, .idle c =>
    some
      { mem := { queue := q.mem, msgs := q.msgs, eventfd := 0 }
        prod := { queue := p, eventfd := fd, cache := none }
        cons := { queue := c, eventfd := fd' }
        stamp := fun _ => none
        pushed := 0
        written := false }
  | _, _ => none

/-- A new channel with `n` slots. -/
def New (n : Nat) (fd fd' : Int) (s : SequentialChannel β) : Prop :=
  ∃ q, (queueSystem β n).init q ∧ onNew q fd fd' = some s

end SequentialChannel

/-- The channel `s₀`, one call after the other. -/
def channelFrom {β : Type} (s₀ : SequentialChannel β) :
    Machine (SequentialChannel β) (ChannelCall β) (ChannelReply β) where
  init s := s = s₀
  step := SequentialChannel.step

/-- The calls `es`, in this order, on a channel of `n` slots created in zeroed memory. -/
def SequentialChannel.play {β : Type} (n : Nat) (x : β) (fd fd' : Int)
    (ok : SequentialChannel β → ChannelCall β → Prop) [∀ s e, Decidable (ok s e)]
    (es : List (ChannelCall β)) :
    Option (List (ChannelCall β × ChannelReply β) × SequentialChannel β) :=
  (QueueState.zeroed n x).bind fun q => (onNew q fd fd').bind fun s =>
    (channelFrom s).exec ok es ([], s)

/-- A run on fixed inputs is found by evaluation. -/
theorem SequentialChannel.exists_run {β : Type} (n : Nat) (x : β) (fd fd' : Int)
    (ok : SequentialChannel β → ChannelCall β → Prop) [∀ s e, Decidable (ok s e)]
    (es : List (ChannelCall β))
    (q : List (ChannelCall β × ChannelReply β) → SequentialChannel β → Bool)
    (h : (play n x fd fd' ok es).any (fun ts => q ts.1 ts.2) = true) :
    ∃ s₀ tr s, New n fd fd' s₀ ∧ (channelFrom s₀).Run ok tr s ∧ q tr s = true := by
  cases hcreate : QueueState.zeroed n x with
  | none =>
    rw [play, hcreate] at h
    cases h
  | some k =>
    cases hnew : onNew k fd fd' with
    | none =>
      rw [play, hcreate, Option.bind_some, hnew] at h
      cases h
    | some s =>
      rw [play, hcreate, Option.bind_some, hnew] at h
      obtain ⟨tr, t, hr, hq⟩ := Machine.exists_run (channelFrom s) ok rfl es q h
      exact ⟨s, tr, t, ⟨k, ⟨_, _, _, hcreate⟩, hnew⟩, hr, hq⟩

/-! ## The calls in terms of the queue -/

section calls

variable {β α : Type}

/-- The code of the queue runs on the queue of the channel. -/
theorem run_onQueue (prog : QueueProg α) (m : ChannelMem β) :
    (onQueue prog : ChannelProg β α).run ChannelOp.exec m =
      (prog.run QueueOp.exec m.queue).map fun y => (y.1, { m with queue := y.2 }) := by
  induction prog generalizing m with
  | ret a => rfl
  | act o k ih => exact ih (o.exec m.queue).1 { m with queue := (o.exec m.queue).2 }
  | fault => rfl

/-- A push without the cache: what the queue does, and the counter of the eventfd. -/
def Producer.pushQueue (p : Producer β) (op : PushOp) (m : ChannelMem β) :
    Option ((Producer β × PushResult) × ChannelMem β) :=
  ((op.prog p.queue).run QueueOp.exec m.queue).map fun y =>
    (({ p with queue := y.1.1 }, y.1.2),
      { m with
        queue := y.2
        eventfd := m.eventfd + if p.eventfd ≥ 0 ∧ y.1.2 = op.success then 1 else 0 })

/-- Behind a push that has lost nothing the counter goes up by one, if there is an eventfd. -/
theorem run_signal (p : Producer β) (op : PushOp) (r : PushResult) (m : ChannelMem β) :
    (p.signal op r).run ChannelOp.exec m = some ((p, r),
      { m with eventfd := m.eventfd + if p.eventfd ≥ 0 ∧ r = op.success then 1 else 0 }) := by
  unfold Producer.signal
  split <;> rfl

/-- A push of the queue, and the eventfd behind it. -/
theorem run_push (p : Producer β) (op : PushOp) (m : ChannelMem β) :
    (onQueue (op.prog p.queue) >>= fun y =>
      ({ p with queue := y.1 }.signal op y.2 : ChannelProg β (Producer β × PushResult))).run
        ChannelOp.exec m = p.pushQueue op m := by
  rw [Prog.run_bind, run_onQueue, Producer.pushQueue]
  cases (op.prog p.queue).run QueueOp.exec m.queue with
  | none => rfl
  | some y => exact run_signal _ _ _ _

/-- A push without the cache. -/
theorem Producer.run_uncached {p : Producer β} (hc : p.cache = none) (op : PushOp)
    (m : ChannelMem β) : (p.push op).run ChannelOp.exec m = p.pushQueue op m := by
  obtain ⟨q, fd, cache⟩ := p
  obtain rfl : cache = none := hc
  cases op with
  | forcePush => exact run_push _ .forcePush m
  | tryPush => exact run_push _ .tryPush m

variable {p : Producer β} {x : β} {i : Index}

/-- A `force_push` with the cache writes the cached message into the slot first. -/
theorem Producer.run_forcePush (hc : p.cache = some x) (hi : p.queue.msg = some i)
    (m : ChannelMem β) : (p.push .forcePush).run ChannelOp.exec m =
      p.pushQueue .forcePush { m with msgs := Function.update m.msgs i x } := by
  obtain ⟨q, fd, cache⟩ := p
  obtain rfl : cache = some x := hc
  have hi : q.msg = some i := hi
  simp only [Producer.push, Producer.forcePush, Producer.cacheWrite, hi]
  exact run_push { queue := q, eventfd := fd, cache := some x } .forcePush
    { m with msgs := Function.update m.msgs i x }

/-- `ri_producer_try_push` with the cache asks first whether the queue is full. -/
theorem Producer.run_tryPush (hc : p.cache = some x) (hi : p.queue.msg = some i) {full : Bool}
    {m : ChannelMem β} (hfull : p.queue.full.run QueueOp.exec m.queue = some (full, m.queue)) :
    (p.push .tryPush).run ChannelOp.exec m =
      if full then some ((p, .tryPush .fail), m)
      else p.pushQueue .tryPush { m with msgs := Function.update m.msgs i x } := by
  obtain ⟨q, fd, cache⟩ := p
  obtain rfl : cache = some x := hc
  have hi : q.msg = some i := hi
  have hfull : q.full.run QueueOp.exec m.queue = some (full, m.queue) := hfull
  simp only [Producer.push, Producer.tryPush, Producer.cacheWrite, hi, Prog.run_bind,
    run_onQueue, hfull, Option.map_some, Option.bind_some]
  cases full with
  | true => rfl
  | false =>
    exact run_push { queue := q, eventfd := fd, cache := some x } .tryPush
      { m with msgs := Function.update m.msgs i x }

/-- `ri_consumer_pop` without an eventfd, or after the counter has been read. -/
def Consumer.popQueue (c : Consumer) (m : ChannelMem β) :
    Option ((Consumer × PopResult) × ChannelMem β) :=
  (c.queue.pop.run QueueOp.exec m.queue).map fun y =>
    (({ c with queue := y.1.1 }, y.1.2), { m with queue := y.2 })

variable {c : Consumer}

/-- A pop of the queue, on the channel. -/
theorem Consumer.run_popQueue (m : ChannelMem β) :
    (onQueue c.queue.pop >>= fun y =>
      (pure ({ c with queue := y.1 }, y.2) : ChannelProg β (Consumer × PopResult))).run
        ChannelOp.exec m = c.popQueue m := by
  rw [Prog.run_bind, run_onQueue, Consumer.popQueue]
  cases c.queue.pop.run QueueOp.exec m.queue <;> rfl

/-- A pop looks at the queue only if the counter, which it takes one from, was not 0. -/
theorem Consumer.run_pop (m : ChannelMem β) : c.pop.run ChannelOp.exec m =
    if c.eventfd < 0 then c.popQueue m
    else if m.eventfd = 0 then
      some ((c, if c.queue.msg.isSome then .noUpdate else .noMsg), m)
    else c.popQueue { m with eventfd := m.eventfd - 1 } := by
  by_cases hfd : c.eventfd < 0
  · rw [if_pos hfd, Consumer.pop, if_neg (by omega)]
    exact run_popQueue m
  · rw [if_neg hfd, Consumer.pop, if_pos (by omega), Prog.perform_bind, Prog.run_act]
    by_cases h0 : m.eventfd = 0
    · simp only [ChannelOp.exec, h0, if_true, Bool.false_eq_true, if_false, Prog.pure_eq, Prog.run_ret]
    · simp only [ChannelOp.exec, h0, if_true, if_false]
      exact run_popQueue _

end calls

end Rtipc
