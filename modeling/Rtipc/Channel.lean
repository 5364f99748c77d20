/-
  `src/channel.c`: the two ends of a channel, a queue with an eventfd and a message cache.

  The eventfd is a semaphore counter (`EFD_SEMAPHORE`): a read takes one, or fails if the counter is 0,
  a write adds its argument.  Copying the cache into the current message (`memcpy`) is one step.

  `channelSystem` interleaves one producer and one consumer of a channel, as `queueSystem` does for
  the queue.  `enqueued` records history and is read by nobody: the producer has put a message on the
  chain, and since then has neither moved the tail nor written the counter.
-/
import Rtipc.QueueSystem

namespace Rtipc

/-- `ri_consumer_t`: its queue and its eventfd, which is negative if there is none. -/
structure Consumer where
  queue : ConsumerQueue
  eventfd : Int
  deriving DecidableEq, Repr

/-- `ri_producer_t`: in addition the message in the cache, if there is one. -/
structure Producer (β : Type) where
  queue : ProducerQueue
  eventfd : Int
  cache : Option β

/-- What the two ends share: the words and the messages of the queue, and the eventfd counter. -/
structure ChannelMem (β : Type) where
  queue : QueueMem
  msgs : Index → β
  eventfd : Nat

/-- The accesses of a channel. -/
inductive ChannelOp (β : Type) where
  | queue (o : QueueOp)
  | msgCopy (i : Index) (x : β)
  | eventfdRead
  | eventfdWrite (v : Nat)
  deriving DecidableEq

/-- What an access answers; a read answers if it has succeeded. -/
abbrev ChannelOp.Ans {β : Type} : ChannelOp β → Type
  | queue o => o.Ans
  | msgCopy _ _ => Unit
  | eventfdRead => Bool
  | eventfdWrite _ => Unit

/-- What an operation does when it is one atomic step. -/
def ChannelOp.exec {β : Type} : (o : ChannelOp β) → ChannelMem β → o.Ans × ChannelMem β
  | queue o, m => ((o.exec m.queue).1, { m with queue := (o.exec m.queue).2 })
  | msgCopy i x, m => ((), { m with msgs := Function.update m.msgs i x })
  | eventfdRead, m => if m.eventfd = 0 then (false, m) else (true, { m with eventfd := m.eventfd - 1 })
  | eventfdWrite v, m => ((), { m with eventfd := m.eventfd + v })

/-- Code that reaches the shared memory through these operations only. -/
abbrev ChannelProg (β α : Type) : Type := Prog (ChannelOp β) ChannelOp.Ans α

/-- Code of the queue, as code of the channel. -/
def onQueue {β α : Type} (prog : QueueProg α) : ChannelProg β α := prog.lift ChannelOp.queue

/-- Code of the queue in sequence. -/
theorem onQueue_bind {β α γ : Type} (prog : QueueProg α) (f : α → QueueProg γ) :
    (onQueue (prog >>= f) : ChannelProg β γ) = onQueue prog >>= fun a => onQueue (f a) :=
  Prog.lift_bind (A := ChannelOp.Ans) ChannelOp.queue prog f

/-- `ri_consumer_pop`. -/
def Consumer.pop {β : Type} (c : Consumer) : ChannelProg β (Consumer × PopResult) := do
  let queuePop : ChannelProg β (Consumer × PopResult) := do
    let (q, r) ← onQueue c.queue.pop
    return ({ c with queue := q }, r)
  if c.eventfd ≥ 0 then
    -- one message a count: without one the queue is not looked at
    if ← .perform ChannelOp.eventfdRead then queuePop
    else return (c, if c.queue.msg.isSome then .noUpdate else .noMsg)
  else queuePop

namespace Producer

variable {β : Type}

/-- `producer_cache_write`. -/
def cacheWrite (p : Producer β) (x : β) : ChannelProg β Unit :=
  match p.queue.msg with
  | some i => .perform (ChannelOp.msgCopy i x)
  | none => .fault

/-- What `ri_producer_force_push` and `ri_producer_try_push` do after a push: the consumer is told
    about a push without loss. -/
def signal (p : Producer β) (op : PushOp) (r : PushResult) : ChannelProg β (Producer β × PushResult) :=
  if p.eventfd ≥ 0 ∧ r = op.success then do
    .perform (ChannelOp.eventfdWrite 1)
    return (p, r)
  else return (p, r)

/-- `ri_producer_force_push`. -/
def forcePush (p : Producer β) : ChannelProg β (Producer β × PushResult) := do
  let push : ChannelProg β (Producer β × PushResult) := do
    let (q, r) ← onQueue (PushOp.forcePush.prog p.queue)
    { p with queue := q }.signal .forcePush r
  match p.cache with
  | some x => do
    p.cacheWrite x
    push
  | none => push

/-- `ri_producer_try_push`. -/
def tryPush (p : Producer β) : ChannelProg β (Producer β × PushResult) := do
  let push : ChannelProg β (Producer β × PushResult) := do
    let (q, r) ← onQueue (PushOp.tryPush.prog p.queue)
    { p with queue := q }.signal .tryPush r
  match p.cache with
  | some x => do
    -- the cache is not copied into a slot that cannot be pushed
    if ← onQueue p.queue.full then return (p, .tryPush .fail)
    else do
      p.cacheWrite x
      push
  | none => push

/-- Either push. -/
def push (p : Producer β) : PushOp → ChannelProg β (Producer β × PushResult)
  | .forcePush => p.forcePush
  | .tryPush => p.tryPush

end Producer

/-! ## Both ends -/

/-- `b` says that the producer has put a message on the chain and has not decided about it; what it
    says after the operation `o` of the producer.  Only the mark of the end is stored in a chain word
    before the message is on the chain. -/
def ChannelOp.track {β : Type} (b : Bool) : (o : ChannelOp β) → o.Ans → Bool
  | queue (.tailStore _), _ => true
  | queue (.chainStore _ val), _ => b || decide (val ≠ indexInvalid)
  | queue (.tailCompareExchange _ _), swapped => b && !(show Bool from swapped)
  | eventfdWrite _, _ => false
  | _, _ => b

/-- The producer's thread: between two calls, or in a push. -/
abbrev ChannelProducerThread (β : Type) : Type :=
  Thread (ChannelOp β) ChannelOp.Ans (Producer β) PushOp PushResult

/-- The consumer's thread: between two calls, or in a pop. -/
abbrev ChannelConsumerThread (β : Type) : Type :=
  Thread (ChannelOp β) ChannelOp.Ans Consumer Unit PopResult

/-- A channel with the threads of its two ends. -/
structure ChannelState (β : Type) where
  mem : ChannelMem β
  prod : ChannelProducerThread β
  cons : ChannelConsumerThread β
  enqueued : Bool

/-- As for the queue; the consumer only pops. -/
inductive ChannelEvent (β : Type) where
  | write (x : β)
  | push (op : PushOp)
  | prodStep
  | pop
  | consStep
  deriving DecidableEq, Repr

namespace ChannelState

variable {β : Type}

/-- The application writes the current message, in the cache or in its slot (`ri_producer_msg`). -/
def write (s : ChannelState β) (x : β) : Option (ChannelState β × QueueOutcome) :=
  match s.prod with
  | .idle p => match p.cache with
    | some _ => some ({ s with prod := .idle { p with cache := some x } }, .silent)
    | none => p.queue.msg.map fun i =>
        ({ s with mem := { s.mem with msgs := Function.update s.mem.msgs i x } }, .silent)
  | .busy _ _ => none

def push (s : ChannelState β) (op : PushOp) : Option (ChannelState β × QueueOutcome) :=
  match s.prod with
  | .idle p => some ({ s with prod := .busy op (p.push op) }, .silent)
  | .busy _ _ => none

/-- The producer has come to the point `prog` of the call `op`. -/
def prodAt (s : ChannelState β) (op : PushOp) :
    ChannelProg β (Producer β × PushResult) → ChannelState β × QueueOutcome
  | .ret (p, r) => ({ s with prod := .idle p }, .pushed r)
  | prog => ({ s with prod := .busy op prog }, .silent)

/-- The producer performs its next operation. -/
def prodStep (s : ChannelState β) : Option (ChannelState β × QueueOutcome) :=
  match s.prod with
  | .busy op (.act o f) =>
    some ({ s with
      mem := (o.exec s.mem).2
      enqueued := o.track s.enqueued (o.exec s.mem).1 }.prodAt op (f (o.exec s.mem).1))
  | _ => none

def pop (s : ChannelState β) : Option (ChannelState β × QueueOutcome) :=
  match s.cons with
  | .idle c => some ({ s with cons := .busy () c.pop }, .silent)
  | .busy _ _ => none

/-- The consumer has come to the point `prog` of its pop. -/
def consAt (s : ChannelState β) :
    ChannelProg β (Consumer × PopResult) → ChannelState β × QueueOutcome
  | .ret (c, r) => ({ s with cons := .idle c }, .popped r)
  | prog => ({ s with cons := .busy () prog }, .silent)

/-- The consumer performs its next operation. -/
def consStep (s : ChannelState β) : Option (ChannelState β × QueueOutcome) :=
  match s.cons with
  | .busy _ (.act o f) =>
    some ({ s with mem := (o.exec s.mem).2 }.consAt (f (o.exec s.mem).1))
  | _ => none

/-- One event. -/
def step (s : ChannelState β) : ChannelEvent β → Option (ChannelState β × QueueOutcome)
  | .write x => s.write x
  | .push op => s.push op
  | .prodStep => s.prodStep
  | .pop => s.pop
  | .consStep => s.consStep

/-- A channel on the queue `q` as it has been created: eventfds `fd` and `fd'` with the counter at 0,
    and no cache. -/
def onNew (q : QueueState β) (fd fd' : Int) : Option (ChannelState β) :=
  match q.prod, q.cons with
  | .idle p, .idle c =>
    some
      { mem := { queue := q.mem, msgs := q.msgs, eventfd := 0 }
        prod := .idle { queue := p, eventfd := fd, cache := none }
        cons := .idle { queue := c, eventfd := fd' }
        enqueued := false }
  | _, _ => none

end ChannelState

/-- A channel with `nMsgs` slots and an eventfd on both sides. -/
def channelSystem (β : Type) (nMsgs : Nat) :
    Machine (ChannelState β) (ChannelEvent β) QueueOutcome where
  init s := ∃ q fd fd', (queueSystem β nMsgs).init q ∧ 0 ≤ fd ∧ 0 ≤ fd' ∧
    ChannelState.onNew q fd fd' = some s
  step := ChannelState.step

/-- The events `es`, in this order, on a channel of `nMsgs` slots created in zeroed memory. -/
def ChannelState.play {β : Type} (nMsgs : Nat) (x : β) (es : List (ChannelEvent β)) :
    Option (List (ChannelEvent β × QueueOutcome) × ChannelState β) :=
  (QueueState.zeroed nMsgs x).bind fun q => (ChannelState.onNew q 0 1).bind fun s =>
    (channelSystem β nMsgs).exec Machine.always es ([], s)

/-- A run on fixed inputs is found by evaluation. -/
theorem ChannelState.exists_run {β : Type} (nMsgs : Nat) (x : β) (es : List (ChannelEvent β))
    (q : List (ChannelEvent β × QueueOutcome) → ChannelState β → Bool)
    (h : (ChannelState.play nMsgs x es).any (fun ts => q ts.1 ts.2) = true) :
    ∃ tr s, (channelSystem β nMsgs).Run Machine.always tr s ∧ q tr s = true := by
  cases hcreate : QueueState.zeroed nMsgs x with
  | none =>
    rw [ChannelState.play, hcreate] at h
    cases h
  | some k =>
    cases hnew : ChannelState.onNew k 0 1 with
    | none =>
      rw [ChannelState.play, hcreate, Option.bind_some, hnew] at h
      cases h
    | some s =>
      rw [ChannelState.play, hcreate, Option.bind_some, hnew] at h
      exact Machine.exists_run (channelSystem β nMsgs) Machine.always
        ⟨k, 0, 1, ⟨_, _, _, hcreate⟩, by decide, by decide, hnew⟩ es q h

end Rtipc
