/-
  One producer and one consumer on the same queue.

  The state machine interleaves the code of `producer.c` and `consumer.c` at its atomic operations.
  Its events are:

  * `write x`    — the application fills the current message, through `ri_producer_queue_msg`, while
                   no push is running;
  * `push op`    — the application calls a push;
  * `prodStep`   — the producer performs its next atomic operation, and returns if that was the last;
  * `pop op`     — the application calls a pop or a flush;
  * `consStep`   — the consumer performs its next atomic operation, and returns if that was the last
                   (a flush that has to go round again starts its next pass).

  `stamp`, `pushed` and `held` record the history and are read by nobody: `stamp i` is the number and
  the content of the message last pushed (or being pushed) from slot `i`, `pushed` the number of
  messages pushed so far, `held` the message the last successful pop or flush handed out.

  The words and the messages are separate memories here, so a message that is written never changes a
  word.  `ri_queue_init` places them so only if `RoomForWords` holds (`queue_words_apart_messages`);
  `SharedMemory` and `SharedGroup` have both in the bytes of one memory, and show that under this
  condition the queues in it are the ones of this module.
-/
import Rtipc.Lib.Machine
import Rtipc.Producer
import Rtipc.Consumer

namespace Rtipc

/-- The two ways to push. -/
inductive PushOp where
  | forcePush
  | tryPush
  deriving DecidableEq, Repr

/-- What a push returned. -/
inductive PushResult where
  | forcePush (r : ForcePushResult)
  | tryPush (r : TryPushResult)
  deriving DecidableEq, Repr

/-- The message of the push has been queued. -/
def PushResult.isPushed : PushResult → Bool
  | forcePush r => decide (r = .success ∨ r = .discarded)
  | tryPush r => decide (r = .success)

/-- The result of a push without loss. -/
def PushOp.success : PushOp → PushResult
  | forcePush => .forcePush .success
  | tryPush => .tryPush .success

/-- `ri_producer_queue_force_push` or `ri_producer_queue_try_push`. -/
def PushOp.prog : PushOp → ProducerQueue → QueueProg (ProducerQueue × PushResult)
  | forcePush, p => do
    let (p, r) ← p.forcePush
    return (p, .forcePush r)
  | tryPush, p => do
    let (p, r) ← p.tryPush
    return (p, .tryPush r)

/-- The two ways to take a message. -/
inductive PopOp where
  | pop
  | flush
  deriving DecidableEq, Repr

/-- `ri_consumer_queue_pop`, or one pass of `ri_consumer_queue_flush`. -/
def PopOp.prog : PopOp → ConsumerQueue → QueueProg (ConsumerQueue × Loop PopResult)
  | pop, c => do
    let (c, r) ← c.pop
    return (c, .done r)
  | flush, c => c.flushPass

/-- The result hands out a message. -/
def PopResult.isTaken (r : PopResult) : Bool := decide (r = .success ∨ r = .discarded)

/-- The thread that pushes: idle, or in a push. -/
abbrev ProducerThread : Type :=
  Thread QueueOp QueueOp.Ans ProducerQueue PushOp PushResult

/-- The thread that pops and flushes. -/
abbrev ConsumerThread : Type :=
  Thread QueueOp QueueOp.Ans ConsumerQueue PopOp (Loop PopResult)

/-- The shared memory, the two threads and the history; a message is an element of `β`. -/
structure QueueState (β : Type) where
  mem : QueueMem
  msgs : Index → β
  prod : ProducerThread
  cons : ConsumerThread
  stamp : Index → Option (Nat × β)
  pushed : Nat
  held : Option (Nat × β)

/-- What can happen: a call, or one atomic operation of a call that is going on. -/
inductive QueueEvent (β : Type) where
  | write (x : β)
  | push (op : PushOp)
  | prodStep
  | pop (op : PopOp)
  | consStep
  deriving DecidableEq, Repr

/-- What an event shows to the application: nothing, or the result of a call. -/
inductive QueueOutcome where
  | silent
  | pushed (r : PushResult)
  | popped (r : PopResult)
  deriving DecidableEq, Repr

namespace QueueState

variable {β : Type}

/-- The application writes the current message. -/
def write (s : QueueState β) (x : β) : Option (QueueState β × QueueOutcome) :=
  match s.prod with
  | .idle p => p.msg.map fun i => ({ s with msgs := Function.update s.msgs i x }, .silent)
  | .busy _ _ => none

/-- The application calls a push. -/
def push (s : QueueState β) (op : PushOp) : Option (QueueState β × QueueOutcome) :=
  match s.prod with
  | .idle p =>
    some ({ s with
      prod := .busy op (op.prog p)
      stamp := Function.update s.stamp p.current (some (s.pushed, s.msgs p.current)) }, .silent)
  | .busy _ _ => none

/-- The producer has come to the point `prog` of the call `op`. -/
def prodAt (s : QueueState β) (op : PushOp) :
    QueueProg (ProducerQueue × PushResult) → QueueState β × QueueOutcome
  | .ret (p, r) =>
    ({ s with prod := .idle p, pushed := if r.isPushed then s.pushed + 1 else s.pushed }, .pushed r)
  | prog => ({ s with prod := .busy op prog }, .silent)

/-- The producer performs its next atomic operation. -/
def prodStep (s : QueueState β) : Option (QueueState β × QueueOutcome) :=
  match s.prod with
  | .idle _ => none
  | .busy op prog =>
    (prog.step QueueOp.exec s.mem).map fun pm => { s with mem := pm.2 }.prodAt op pm.1

/-- The application calls a pop or a flush. -/
def pop (s : QueueState β) (op : PopOp) : Option (QueueState β × QueueOutcome) :=
  match s.cons with
  | .idle c => some ({ s with cons := .busy op (op.prog c) }, .silent)
  | .busy _ _ => none

/-- The consumer has come to the point `prog` of the call `op`. -/
def consAt (s : QueueState β) (op : PopOp) :
    QueueProg (ConsumerQueue × Loop PopResult) → QueueState β × QueueOutcome
  | .ret (c, .done r) =>
    ({ s with cons := .idle c, held := if r.isTaken then s.stamp c.current else s.held }, .popped r)
  | .ret (c, .again) => ({ s with cons := .busy op (op.prog c) }, .silent)
  | prog => ({ s with cons := .busy op prog }, .silent)

/-- The consumer performs its next atomic operation. -/
def consStep (s : QueueState β) : Option (QueueState β × QueueOutcome) :=
  match s.cons with
  | .idle _ => none
  | .busy op prog =>
    (prog.step QueueOp.exec s.mem).map fun cm => { s with mem := cm.2 }.consAt op cm.1

/-- One event. -/
def step (s : QueueState β) : QueueEvent β → Option (QueueState β × QueueOutcome)
  | .write x => s.write x
  | .push op => s.push op
  | .prodStep => s.prodStep
  | .pop op => s.pop op
  | .consStep => s.consStep

/-- The state left by `ri_producer_queue_new`, `ri_queue_init_shm` and `ri_consumer_queue_new`, from a
    shared memory `mem`, a private chain and message slots with any content. -/
def create (nMsgs : Nat) (mem : QueueMem) (chain : Index → Index) (msgs : Index → β) :
    Option (QueueState β) :=
  let setup : QueueProg ProducerQueue := do
    let p ← ProducerQueue.new nMsgs chain
    ProducerQueue.initShm
    return p
  (setup.run QueueOp.exec mem).map fun pm =>
    { mem := pm.2
      msgs := msgs
      prod := .idle pm.1
      cons := .idle (ConsumerQueue.new nMsgs)
      stamp := fun _ => none
      pushed := 0
      held := none }

end QueueState

/-- The queue with `nMsgs` slots as a state machine. -/
def queueSystem (β : Type) (nMsgs : Nat) : Machine (QueueState β) (QueueEvent β) QueueOutcome where
  init s := ∃ mem chain msgs, QueueState.create nMsgs mem chain msgs = some s
  step := QueueState.step

/-! ## Concrete runs -/

/-- The queue of `nMsgs` slots in zeroed memory with the message `x` in each slot. -/
def QueueState.zeroed {β : Type} (nMsgs : Nat) (x : β) : Option (QueueState β) :=
  QueueState.create nMsgs { tail := 0, head := 0, chain := fun _ => 0 } (fun _ => 0) fun _ => x

/-- The events `es`, in this order, on a queue created in zeroed memory. -/
def QueueState.play {β : Type} (nMsgs : Nat) (x : β) (ok : QueueState β → QueueEvent β → Prop)
    [∀ s e, Decidable (ok s e)] (es : List (QueueEvent β)) :
    Option (List (QueueEvent β × QueueOutcome) × QueueState β) :=
  (QueueState.zeroed nMsgs x).bind fun s => (queueSystem β nMsgs).exec ok es ([], s)

/-- Events that can be played are a run. -/
theorem QueueState.exists_run {β : Type} (nMsgs : Nat) (x : β)
    (ok : QueueState β → QueueEvent β → Prop) [∀ s e, Decidable (ok s e)]
    (es : List (QueueEvent β))
    (q : List (QueueEvent β × QueueOutcome) → QueueState β → Bool)
    (h : (QueueState.play nMsgs x ok es).any (fun ts => q ts.1 ts.2) = true) :
    ∃ tr s, (queueSystem β nMsgs).Run ok tr s ∧ q tr s = true := by
  cases hcreate : QueueState.zeroed nMsgs x with
  | none =>
    rw [QueueState.play, hcreate] at h
    cases h
  | some s =>
    rw [QueueState.play, hcreate] at h
    exact Machine.exists_run (queueSystem β nMsgs) ok ⟨_, _, _, hcreate⟩ es q h

end Rtipc
