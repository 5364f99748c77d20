/-
  Where the two threads can be.

  A running call is a rest of code.  This file lists the points between two atomic operations at
  which the code of a push, of a pop or of a flush can be (`ProducerPhase`, `ConsumerPhase`), the code
  that is left there (`.thread`), and says once what one atomic operation can do at each point
  (`ProducerStep`, `ConsumerStep`).  `prodStep_cases` and `consStep_cases` show that the code makes no
  other step, so that no later proof looks at code again.

  1. **Points.**  A constructor of `ProducerPhase` carries what the code has in its variables at that
     point: the private state, the next slot, the tail that was read, and for the points that a
     `try_push` and a `force_push` share, which of the two it is (`AfterEnqueue`).

  2. **Steps.**  A constructor of `ProducerStep` or `ConsumerStep` is one atomic operation and one
     branch behind it, with the condition of the branch as a hypothesis.  The names are those of the
     points, so a proof by cases on a step reads like the function.

  3. **Calls.**  A call is no step of these: it takes a thread from `idle` to its first point
     (`ProducerPhase.call`, `ConsumerPhase.call`).
-/
import Rtipc.QueueSystem

namespace Rtipc

/-! ## The producer

  The points are named after the function they are in: `first` for `enqueue_first_msg`, `enq` for
  `enqueue_msg`, `move` for `move_tail`, and so on. -/

/-- What follows `enqueue_msg`: the rest of `ri_producer_queue_force_push`, or one of the two ways to
    succeed of `ri_producer_queue_try_push`. -/
inductive AfterEnqueue where
  | force
  | tryRequeue
  | tryNext
  deriving DecidableEq

/-- The call that enqueues. -/
def AfterEnqueue.op : AfterEnqueue → PushOp
  | force => .forcePush
  | tryRequeue => .tryPush
  | tryNext => .tryPush

/-- The points of a push.  `p` is the private state there, `next` the chain word read first, `tail`
    the tail word a pending compare-exchange expects. -/
inductive ProducerPhase where
  /-- between two pushes -/
  | idle (p : ProducerQueue)
  /-- the first message is about to end the chain -/
  | first1 (op : PushOp) (p : ProducerQueue) (next : Index)
  /-- the first message is about to be named by the tail -/
  | first2 (op : PushOp) (p : ProducerQueue) (next : Index)
  /-- the first message is about to be announced in the head word -/
  | first3 (op : PushOp) (p : ProducerQueue) (next : Index)
  /-- `try_push` is about to look at the tail -/
  | tryLoad (p : ProducerQueue) (next : Index)
  /-- the message is about to end the chain -/
  | enq1 (k : AfterEnqueue) (p : ProducerQueue) (next : Index)
  /-- the message is about to be appended to the chain -/
  | enq2 (k : AfterEnqueue) (p : ProducerQueue) (next : Index)
  /-- the message is about to be announced in the head word -/
  | enq3 (k : AfterEnqueue) (p : ProducerQueue) (next : Index)
  /-- `force_push` is about to look at the tail -/
  | forceLoad (p : ProducerQueue) (next : Index)
  /-- the overrun message is about to be linked in front of `next` -/
  | requeue (op : PushOp) (p : ProducerQueue) (next : Index)
  /-- the consumer still blocks the overrun message: about to move the tail -/
  | move (p : ProducerQueue) (next tail : Index)
  /-- the queue is full of unread messages: about to move the tail -/
  | moveFull (p : ProducerQueue) (next tail : Index)
  /-- the consumer blocks the tail: about to jump over it -/
  | jumping (p : ProducerQueue) (tail : Index)

namespace ProducerPhase

/-- The private state of the producer. -/
def queue : ProducerPhase → ProducerQueue
  | idle p | first1 _ p _ | first2 _ p _ | first3 _ p _ | tryLoad p _ | enq1 _ p _ | enq2 _ p _
  | enq3 _ p _ | forceLoad p _ | requeue _ p _ | move p _ _ | moveFull p _ _ | jumping p _ => p

/-! The code left at each point. -/

/-- The first message is announced, and the next slot is the current one. -/
def codeFirst3 (op : PushOp) (p : ProducerQueue) (next : Index) :
    QueueProg (ProducerQueue × PushResult) :=
  .act (.headStore p.head) fun _ => .ret ({ p with current := next }, op.success)

/-- The tail names the first message, with the FIRST flag; no consumer can have set it before. -/
def codeFirst2 (op : PushOp) (p : ProducerQueue) (next : Index) :
    QueueProg (ProducerQueue × PushResult) :=
  .act (.tailStore (p.current ||| firstFlag)) fun _ =>
    codeFirst3 op { p with head := p.current } next

/-- The first message ends the chain. -/
def codeFirst1 (op : PushOp) (p : ProducerQueue) (next : Index) :
    QueueProg (ProducerQueue × PushResult) :=
  .act (.chainStore p.current indexInvalid) fun _ =>
    codeFirst2 op (p.setChain p.current indexInvalid) next

/-- The slot that was kept back becomes the current one, in front of `next`. -/
def codeRequeue (op : PushOp) (p : ProducerQueue) (next : Index) :
    QueueProg (ProducerQueue × PushResult) :=
  .act (.chainStore p.overrun next) fun _ =>
    .ret ({ p.setChain p.overrun next with current := p.overrun, overrun := indexInvalid },
      op.success)

/-- The tail moves to the message behind it, and its slot becomes the current one; if the consumer has
    just given back the slot that was kept from it, that one does. -/
def codeMove (p : ProducerQueue) (next tail : Index) : QueueProg (ProducerQueue × PushResult) :=
  .act (.tailCompareExchange tail (p.chain tail.slot)) fun b =>
    if b then .ret ({ p with current := tail.slot }, .forcePush .discarded)
    else codeRequeue .forcePush p next

/-- The tail jumps over the message the consumer holds, and the slot behind that one becomes the current
    one; if the consumer has moved on, the slot of the tail does. -/
def codeOver (p : ProducerQueue) (tail : Index) : QueueProg (ProducerQueue × PushResult) :=
  .act (.tailCompareExchange tail (p.chain (p.chain tail.slot))) fun b =>
    if b then
      .ret ({ p with overrun := tail.slot, current := p.chain tail.slot }, .forcePush .discarded)
    else .ret ({ p with current := tail.slot }, .forcePush .success)

/-- The tail moves to the message behind it; if the consumer has just taken the tail, the producer jumps
    over it. -/
def codeMoveFull (p : ProducerQueue) (next tail : Index) :
    QueueProg (ProducerQueue × PushResult) :=
  .act (.tailCompareExchange tail (p.chain tail.slot)) fun b =>
    if b then .ret ({ p with current := next }, .forcePush .discarded)
    else codeOver p (tail ||| consumedFlag)

/-- What `force_push` does about a full queue, by the tail word it finds. -/
def codeForceLoad (p : ProducerQueue) (next : Index) : QueueProg (ProducerQueue × PushResult) :=
  .act .tailLoad fun tail =>
    if ¬ queueIndexValid p.nMsgs tail.slot then .ret (p, .forcePush .error)
    else if p.overrun ≠ indexInvalid then
      if tail.consumed then codeRequeue .forcePush p next else codeMove p next tail
    else if next ≠ tail.slot then .ret ({ p with current := next }, .forcePush .success)
    else if ¬ tail.consumed then codeMoveFull p next tail
    else codeOver p tail

/-- What follows `enqueue_msg`. -/
def codeAfter : AfterEnqueue → ProducerQueue → Index → QueueProg (ProducerQueue × PushResult)
  | .force, p, next => codeForceLoad p next
  | .tryRequeue, p, next => codeRequeue .tryPush p next
  | .tryNext, p, next => .ret ({ p with current := next }, .tryPush .success)

/-- The new message is announced in the head word. -/
def codeEnq3 (k : AfterEnqueue) (p : ProducerQueue) (next : Index) :
    QueueProg (ProducerQueue × PushResult) :=
  .act (.headStore p.current) fun _ => codeAfter k { p with head := p.current } next

/-- The new message is linked behind the last one: from here on the consumer can see it. -/
def codeEnq2 (k : AfterEnqueue) (p : ProducerQueue) (next : Index) :
    QueueProg (ProducerQueue × PushResult) :=
  .act (.chainStore p.head p.current) fun _ => codeEnq3 k (p.setChain p.head p.current) next

/-- The new message ends the chain. -/
def codeEnq1 (k : AfterEnqueue) (p : ProducerQueue) (next : Index) :
    QueueProg (ProducerQueue × PushResult) :=
  .act (.chainStore p.current indexInvalid) fun _ =>
    codeEnq2 k (p.setChain p.current indexInvalid) next

/-- Whether `try_push` finds room, by the tail word it finds. -/
def codeTryLoad (p : ProducerQueue) (next : Index) : QueueProg (ProducerQueue × PushResult) :=
  .act .tailLoad fun tail =>
    if ¬ queueIndexValid p.nMsgs tail.slot then .ret (p, .tryPush .error)
    else if p.overrun ≠ indexInvalid then
      if tail.consumed then codeEnq1 .tryRequeue p next else .ret (p, .tryPush .fail)
    else if next ≠ tail.slot then codeEnq1 .tryNext p next
    else .ret (p, .tryPush .fail)

/-- The producer's thread at this point. -/
def thread : ProducerPhase → ProducerThread
  | idle p => .idle p
  | first1 op p next => .busy op (codeFirst1 op p next)
  | first2 op p next => .busy op (codeFirst2 op p next)
  | first3 op p next => .busy op (codeFirst3 op p next)
  | tryLoad p next => .busy .tryPush (codeTryLoad p next)
  | enq1 k p next => .busy k.op (codeEnq1 k p next)
  | enq2 k p next => .busy k.op (codeEnq2 k p next)
  | enq3 k p next => .busy k.op (codeEnq3 k p next)
  | forceLoad p next => .busy .forcePush (codeForceLoad p next)
  | requeue op p next => .busy op (codeRequeue op p next)
  | move p next tail => .busy .forcePush (codeMove p next tail)
  | moveFull p next tail => .busy .forcePush (codeMoveFull p next tail)
  | jumping p tail => .busy .forcePush (codeOver p tail)

/-! ### The code of a push goes through these points

  The equations unfold the code once, from one atomic operation to the next.  `prodStep_cases` is read
  off them. -/

section code

variable {p : ProducerQueue}

/-- `requeueOverrun` is one store if there is a slot to link. -/
theorem requeueOverrun_eq (hover : p.overrun.toNat < p.nMsgs) (next : Index) :
    p.requeueOverrun next = .act (.chainStore p.overrun next) fun _ =>
      .ret { p.setChain p.overrun next with current := p.overrun, overrun := indexInvalid } := by
  simp [ProducerQueue.requeueOverrun, ProducerQueue.chainStore, hover, Prog.perform,
    ProducerQueue.setChain]

/-- `move_tail` is one compare-exchange if the tail names a slot. -/
theorem moveTail_eq {tail : Index} (h : tail.slot.toNat < p.nMsgs) :
    p.moveTail tail = .act (.tailCompareExchange tail (p.chain tail.slot)) .ret := by
  simp [ProducerQueue.moveTail, ProducerQueue.chainAt, h, Prog.perform]

/-- So is `overrun` if the slot behind it is one, too. -/
theorem overrunTail_eq {tail : Index} (h : tail.slot.toNat < p.nMsgs)
    (hnew : (p.chain tail.slot).toNat < p.nMsgs) :
    p.overrunTail tail =
      .act (.tailCompareExchange tail (p.chain (p.chain tail.slot))) fun b =>
        if b then .ret ({ p with overrun := tail.slot, current := p.chain tail.slot }, true)
        else .ret ({ p with current := tail.slot }, false) := by
  simp [ProducerQueue.overrunTail, ProducerQueue.chainAt, h, hnew, Prog.perform]

/-- The end of `ri_producer_queue_force_push` after a jump over the tail. -/
theorem code_over {tail : Index} (h : tail.slot.toNat < p.nMsgs)
    (hnew : (p.chain tail.slot).toNat < p.nMsgs) :
    (p.overrunTail tail >>= fun pd =>
      (.ret (pd.1, .forcePush (if pd.2 then .discarded else .success)) :
        QueueProg (ProducerQueue × PushResult))) = codeOver p tail := by
  rw [overrunTail_eq h hnew, codeOver]
  refine congrArg (Prog.act _) (funext fun b => ?_)
  cases b <;> rfl

/-- The first push. -/
theorem code_first (op : PushOp) (hcur : p.current.toNat < p.nMsgs)
    (hhead : p.head = indexInvalid) : op.prog p = codeFirst1 op p (p.chain p.current) := by
  cases op <;>
    simp [PushOp.prog, ProducerQueue.forcePush, ProducerQueue.tryPush, ProducerQueue.chainAt,
      ProducerQueue.enqueueFirstMsg, ProducerQueue.chainStore, ProducerQueue.setChain, hcur, hhead,
      Prog.perform, codeFirst1, codeFirst2, codeFirst3, PushOp.success]

/-- The code of `enqueue_msg`, whatever follows. -/
theorem code_enqueue (hcur : p.current.toNat < p.nMsgs) (hlt : p.head.toNat < p.nMsgs)
    (k : AfterEnqueue) (next : Index)
    (f : ProducerQueue → QueueProg (ProducerQueue × PushResult))
    (hf : ∀ q : ProducerQueue, q.nMsgs = p.nMsgs → q.overrun = p.overrun →
      q.chain = Function.update (Function.update p.chain p.current indexInvalid) p.head p.current →
      f q = codeAfter k q next) :
    (p.enqueueMsg >>= f) = codeEnq1 k p next := by
  simp only [ProducerQueue.enqueueMsg, ProducerQueue.chainStore, ProducerQueue.setChain, hcur, hlt,
    if_true, Prog.perform, Prog.act_bind, Prog.ret_bind, Prog.pure_eq, codeEnq1, codeEnq2, codeEnq3]
  rw [hf]
  · rfl
  · rfl
  · rfl

variable (hcur : p.current.toNat < p.nMsgs) (hhead : p.head ≠ indexInvalid)
  (hlt : p.head.toNat < p.nMsgs)
  (hover : p.overrun ≠ indexInvalid → p.overrun.toNat < p.nMsgs)

include hcur hhead hlt hover

/-- `ri_producer_queue_try_push` on a queue that has messages. -/
theorem code_tryPush : PushOp.tryPush.prog p = codeTryLoad p (p.chain p.current) := by
  simp only [PushOp.prog, ProducerQueue.tryPush, ProducerQueue.chainAt, hcur, hhead, if_true,
    if_false, Prog.pure_eq, Prog.ret_bind, Prog.perform, Prog.act_bind, codeTryLoad]
  congr 1
  funext tail
  by_cases hv : queueIndexValid p.nMsgs tail.slot
  · simp only [hv, not_true, if_false]
    by_cases ho : p.overrun = indexInvalid
    · simp only [ho, ne_eq, not_true, if_false]
      by_cases hn : p.chain p.current = tail.slot
      · simp [hn]
      · simp only [hn, not_false_eq_true, if_true, Prog.bind_assoc]
        refine code_enqueue hcur hlt .tryNext _ _ ?_
        intro q _ _ _
        rfl
    · simp only [ho, ne_eq, not_false_eq_true, if_true]
      by_cases hc : tail.consumed
      · simp only [hc, if_true, Prog.bind_assoc]
        refine code_enqueue hcur hlt .tryRequeue _ _ ?_
        intro q hq ho' _
        have hq' : q.overrun.toNat < q.nMsgs := by rw [hq, ho']; exact hover ho
        rw [requeueOverrun_eq hq']
        rfl
      · simp [hc]
  · simp [hv]

/-- `ri_producer_queue_force_push` on a queue that has messages. -/
theorem code_forcePush
    (hnext : p.overrun = indexInvalid →
      (Function.update (Function.update p.chain p.current indexInvalid) p.head p.current
        (p.chain p.current)).toNat < p.nMsgs) :
    PushOp.forcePush.prog p = codeEnq1 .force p (p.chain p.current) := by
  simp only [PushOp.prog, ProducerQueue.forcePush, ProducerQueue.chainAt, hcur, hhead, if_true,
    if_false, Prog.pure_eq, Prog.ret_bind, Prog.bind_assoc]
  -- `enqueue_msg` first; then the tail is loaded and the source's three ways are told apart.
  refine code_enqueue hcur hlt .force _ _ ?_
  intro q hq ho' hch
  simp only [Prog.perform, Prog.act_bind, Prog.ret_bind, codeAfter, codeForceLoad]
  congr 1
  funext tail
  by_cases hv : queueIndexValid q.nMsgs tail.slot
  · simp only [hv, not_true, if_false]
    have hv' : tail.slot.toNat < q.nMsgs := hv
    -- An overrun slot from an earlier push decides whether the tail can be moved at all.
    by_cases ho : q.overrun = indexInvalid
    · simp only [if_neg (not_not.mpr ho)]
      by_cases hn : p.chain p.current = tail.slot
      · have hnew : (q.chain tail.slot).toNat < q.nMsgs := by
          rw [hq, hch, ← hn]
          exact hnext (ho' ▸ ho)
        simp only [hn, ne_eq, not_true, if_false]
        by_cases hc : tail.consumed
        · simp only [hc, not_true, if_false, Prog.bind_assoc]
          -- full, and the tail consumed: the overrun
          exact code_over hv' hnew
        · simp only [hc, not_false_eq_true, if_true, moveTail_eq hv', Prog.act_bind, Prog.ret_bind,
            Bool.false_eq_true, codeMoveFull]
          refine congrArg (Prog.act _) (funext fun b => ?_)
          cases b with
          | true => rfl
          | false =>
            have hs : (tail ||| consumedFlag).slot = tail.slot := by simp
            simp only [Bool.false_eq_true, if_false, Prog.bind_assoc]
            -- the exchange failed, so the consumer has set the flag meanwhile: the overrun again
            exact code_over (hs.symm ▸ hv') (hs.symm ▸ hnew)
      · simp [hn]
    · have hq' : q.overrun.toNat < q.nMsgs := by rw [hq, ho']; exact hover (ho' ▸ ho)
      simp only [ho, ne_eq, not_false_eq_true, if_true, requeueOverrun_eq hq', moveTail_eq hv',
        Prog.act_bind, Prog.ret_bind]
      by_cases hc : tail.consumed
      · simp only [hc, if_true]
        rfl
      · simp only [hc, if_false, Bool.false_eq_true, codeMove]
        refine congrArg (Prog.act _) (funext fun b => ?_)
        cases b <;> rfl
  · simp [hv]

end code

end ProducerPhase

open ProducerPhase in
/-- What one atomic operation of the producer can do: from which point on which memory to which point
    and memory, and what the application sees. -/
inductive ProducerStep : ProducerPhase → QueueMem → ProducerPhase → QueueMem → QueueOutcome → Prop
  | first1 {op p next m} : ProducerStep (first1 op p next) m
      (first2 op (p.setChain p.current indexInvalid) next)
      { m with chain := Function.update m.chain p.current indexInvalid } .silent
  | first2 {op p next m} : ProducerStep (first2 op p next) m
      (first3 op { p with head := p.current } next)
      { m with tail := p.current ||| firstFlag } .silent
  | first3 {op p next m} : ProducerStep (first3 op p next) m
      (idle { p with current := next }) { m with head := p.head } (.pushed op.success)
  | tryError {p next m} (h : ¬ m.tail.slot.toNat < p.nMsgs) :
      ProducerStep (tryLoad p next) m (idle p) m (.pushed (.tryPush .error))
  | tryRequeue {p next m} (h : m.tail.slot.toNat < p.nMsgs) (ho : p.overrun ≠ indexInvalid)
      (hc : m.tail.consumed = true) :
      ProducerStep (tryLoad p next) m (enq1 .tryRequeue p next) m .silent
  | tryBlocked {p next m} (h : m.tail.slot.toNat < p.nMsgs) (ho : p.overrun ≠ indexInvalid)
      (hc : m.tail.consumed = false) :
      ProducerStep (tryLoad p next) m (idle p) m (.pushed (.tryPush .fail))
  | tryNext {p next m} (h : m.tail.slot.toNat < p.nMsgs) (ho : p.overrun = indexInvalid)
      (hn : next ≠ m.tail.slot) :
      ProducerStep (tryLoad p next) m (enq1 .tryNext p next) m .silent
  | tryFull {p next m} (h : m.tail.slot.toNat < p.nMsgs) (ho : p.overrun = indexInvalid)
      (hn : next = m.tail.slot) :
      ProducerStep (tryLoad p next) m (idle p) m (.pushed (.tryPush .fail))
  | enq1 {k p next m} : ProducerStep (enq1 k p next) m
      (enq2 k (p.setChain p.current indexInvalid) next)
      { m with chain := Function.update m.chain p.current indexInvalid } .silent
  | enq2 {k p next m} : ProducerStep (enq2 k p next) m
      (enq3 k (p.setChain p.head p.current) next)
      { m with chain := Function.update m.chain p.head p.current } .silent
  | enq3Force {p next m} : ProducerStep (enq3 .force p next) m
      (forceLoad { p with head := p.current } next) { m with head := p.current } .silent
  | enq3Requeue {p next m} : ProducerStep (enq3 .tryRequeue p next) m
      (requeue .tryPush { p with head := p.current } next) { m with head := p.current } .silent
  | enq3Next {p next m} : ProducerStep (enq3 .tryNext p next) m
      (idle { p with head := p.current, current := next }) { m with head := p.current }
      (.pushed (.tryPush .success))
  | loadError {p next m} (h : ¬ m.tail.slot.toNat < p.nMsgs) :
      ProducerStep (forceLoad p next) m (idle p) m (.pushed (.forcePush .error))
  | loadRequeue {p next m} (h : m.tail.slot.toNat < p.nMsgs) (ho : p.overrun ≠ indexInvalid)
      (hc : m.tail.consumed = true) :
      ProducerStep (forceLoad p next) m (requeue .forcePush p next) m .silent
  | loadMove {p next m} (h : m.tail.slot.toNat < p.nMsgs) (ho : p.overrun ≠ indexInvalid)
      (hc : m.tail.consumed = false) :
      ProducerStep (forceLoad p next) m (move p next m.tail) m .silent
  | loadNext {p next m} (h : m.tail.slot.toNat < p.nMsgs) (ho : p.overrun = indexInvalid)
      (hn : next ≠ m.tail.slot) :
      ProducerStep (forceLoad p next) m (idle { p with current := next }) m
        (.pushed (.forcePush .success))
  | loadMoveFull {p next m} (h : m.tail.slot.toNat < p.nMsgs) (ho : p.overrun = indexInvalid)
      (hn : next = m.tail.slot) (hc : m.tail.consumed = false) :
      ProducerStep (forceLoad p next) m (moveFull p next m.tail) m .silent
  | loadOver {p next m} (h : m.tail.slot.toNat < p.nMsgs) (ho : p.overrun = indexInvalid)
      (hn : next = m.tail.slot) (hc : m.tail.consumed = true) :
      ProducerStep (forceLoad p next) m (jumping p m.tail) m .silent
  | requeue {op p next m} : ProducerStep (requeue op p next) m
      (idle { p.setChain p.overrun next with current := p.overrun, overrun := indexInvalid })
      { m with chain := Function.update m.chain p.overrun next } (.pushed op.success)
  | moved {p next tail m} (h : m.tail = tail) : ProducerStep (move p next tail) m
      (idle { p with current := tail.slot }) { m with tail := p.chain tail.slot }
      (.pushed (.forcePush .discarded))
  | moveLost {p next tail m} (h : m.tail ≠ tail) : ProducerStep (move p next tail) m
      (.requeue .forcePush p next) m .silent
  | movedFull {p next tail m} (h : m.tail = tail) : ProducerStep (moveFull p next tail) m
      (idle { p with current := next }) { m with tail := p.chain tail.slot }
      (.pushed (.forcePush .discarded))
  | moveFullLost {p next tail m} (h : m.tail ≠ tail) : ProducerStep (moveFull p next tail) m
      (jumping p (tail ||| consumedFlag)) m .silent
  | overran {p tail m} (h : m.tail = tail) : ProducerStep (jumping p tail) m
      (idle { p with overrun := tail.slot, current := p.chain tail.slot })
      { m with tail := p.chain (p.chain tail.slot) } (.pushed (.forcePush .discarded))
  | overLost {p tail m} (h : m.tail ≠ tail) : ProducerStep (jumping p tail) m
      (idle { p with current := tail.slot }) m (.pushed (.forcePush .success))

/-- The number of messages pushed after an outcome. -/
def QueueOutcome.count (n : Nat) : QueueOutcome → Nat
  | pushed r => if r.isPushed then n + 1 else n
  | _ => n

open ProducerPhase in
/-- The producer makes no other step than those of `ProducerStep`. -/
theorem prodStep_cases {β : Type} {s s' : QueueState β} {ph : ProducerPhase} {o : QueueOutcome}
    (hph : s.prod = ph.thread) (h : s.prodStep = some (s', o)) :
    ∃ ph' m', ProducerStep ph s.mem ph' m' o ∧
      s' = { s with mem := m', prod := ph'.thread, pushed := o.count s.pushed } := by
  unfold QueueState.prodStep at h
  rw [hph] at h
  cases ph with
  | idle p => cases h
  | first1 op p next =>
    cases h
    exact ⟨_, _, .first1, rfl⟩
  | first2 op p next =>
    cases h
    exact ⟨_, _, .first2, rfl⟩
  | first3 op p next =>
    cases h
    exact ⟨_, _, .first3, rfl⟩
  -- `try_push` has loaded the tail: error, requeue, blocked, next or full
  | tryLoad p next =>
    simp only [thread, codeTryLoad, Prog.step_act, QueueOp.exec, Option.map_some] at h
    by_cases hv : s.mem.tail.slot.toNat < p.nMsgs
    · simp only [hv, not_true, if_false] at h
      by_cases ho : p.overrun = indexInvalid
      · simp only [not_not.mpr ho, if_false] at h
        by_cases hn : next = s.mem.tail.slot
        · subst hn
          simp only [ne_eq, not_true, if_false] at h
          cases h
          exact ⟨_, _, .tryFull hv ho rfl, rfl⟩
        · simp only [ne_eq, hn, not_false_eq_true, if_true] at h
          cases h
          exact ⟨_, _, .tryNext hv ho hn, rfl⟩
      · simp only [ho, ne_eq, not_false_eq_true, if_true] at h
        cases hc : s.mem.tail.consumed with
        | true =>
          simp only [hc, if_true] at h
          cases h
          exact ⟨_, _, .tryRequeue hv ho hc, rfl⟩
        | false =>
          simp only [hc, Bool.false_eq_true, if_false] at h
          cases h
          exact ⟨_, _, .tryBlocked hv ho hc, rfl⟩
    · simp only [hv, not_false_eq_true, if_true] at h
      cases h
      exact ⟨_, _, .tryError hv, rfl⟩
  | enq1 k p next =>
    cases h
    exact ⟨_, _, .enq1, rfl⟩
  | enq2 k p next =>
    cases h
    exact ⟨_, _, .enq2, rfl⟩
  -- the head is stored; what follows depends on the call the enqueue belongs to
  | enq3 k p next =>
    cases k with
    | force =>
      cases h
      exact ⟨_, _, .enq3Force, rfl⟩
    | tryRequeue =>
      cases h
      exact ⟨_, _, .enq3Requeue, rfl⟩
    | tryNext =>
      cases h
      exact ⟨_, _, .enq3Next, rfl⟩
  -- `force_push` has loaded the tail: error, requeue, move, next, full or overrun
  | forceLoad p next =>
    simp only [thread, codeForceLoad, Prog.step_act, QueueOp.exec, Option.map_some] at h
    by_cases hv : s.mem.tail.slot.toNat < p.nMsgs
    · simp only [hv, not_true, if_false] at h
      by_cases ho : p.overrun = indexInvalid
      · simp only [not_not.mpr ho, if_false] at h
        by_cases hn : next = s.mem.tail.slot
        · subst hn
          simp only [ne_eq, not_true, if_false] at h
          cases hc : s.mem.tail.consumed with
          | true =>
            simp only [hc, not_true, if_false] at h
            cases h
            exact ⟨_, _, .loadOver hv ho rfl hc, rfl⟩
          | false =>
            simp only [hc, Bool.false_eq_true, not_false_eq_true, if_true] at h
            cases h
            exact ⟨_, _, .loadMoveFull hv ho rfl hc, rfl⟩
        · simp only [ne_eq, hn, not_false_eq_true, if_true] at h
          cases h
          exact ⟨_, _, .loadNext hv ho hn, rfl⟩
      · simp only [ho, ne_eq, not_false_eq_true, if_true] at h
        cases hc : s.mem.tail.consumed with
        | true =>
          simp only [hc, if_true] at h
          cases h
          exact ⟨_, _, .loadRequeue hv ho hc, rfl⟩
        | false =>
          simp only [hc, Bool.false_eq_true, if_false] at h
          cases h
          exact ⟨_, _, .loadMove hv ho hc, rfl⟩
    · simp only [hv, not_false_eq_true, if_true] at h
      cases h
      exact ⟨_, _, .loadError hv, rfl⟩
  | requeue op p next =>
    cases op <;> cases h <;> exact ⟨_, _, .requeue, rfl⟩
  -- each of the exchanges succeeds if the tail is what was loaded
  | move p next tail =>
    simp only [thread, codeMove, Prog.step_act, QueueOp.exec, Option.map_some] at h
    by_cases ht : s.mem.tail = tail
    · simp only [ht, if_true] at h
      cases h
      exact ⟨_, _, .moved ht, rfl⟩
    · simp only [ht, if_false, Bool.false_eq_true] at h
      cases h
      exact ⟨_, _, .moveLost ht, rfl⟩
  | moveFull p next tail =>
    simp only [thread, codeMoveFull, Prog.step_act, QueueOp.exec, Option.map_some] at h
    by_cases ht : s.mem.tail = tail
    · simp only [ht, if_true] at h
      cases h
      exact ⟨_, _, .movedFull ht, rfl⟩
    · simp only [ht, if_false, Bool.false_eq_true] at h
      cases h
      exact ⟨_, _, .moveFullLost ht, rfl⟩
  | jumping p tail =>
    simp only [thread, codeOver, Prog.step_act, QueueOp.exec, Option.map_some] at h
    by_cases ht : s.mem.tail = tail
    · simp only [ht, if_true] at h
      cases h
      exact ⟨_, _, .overran ht, rfl⟩
    · simp only [ht, if_false, Bool.false_eq_true] at h
      cases h
      exact ⟨_, _, .overLost ht, rfl⟩

/-! ## The consumer

  A pop has four points and a flush has three, each with the words that have been read so far and are
  still to be used. -/

/-- The points of a pop and of a pass of a flush.  `c` is the private state, `tail` the tail word as
    the fetch-or found it, `next` the chain word and `head` the head word read since. -/
inductive ConsumerPhase where
  /-- between two calls -/
  | idle (c : ConsumerQueue)
  /-- about to mark the tail consumed -/
  | pop1 (c : ConsumerQueue)
  /-- the tail is ours: about to look for a newer message -/
  | pop2 (c : ConsumerQueue) (tail : Index)
  /-- about to move the tail to the newer message -/
  | pop3 (c : ConsumerQueue) (tail next : Index)
  /-- the producer moved the tail: about to mark it consumed again -/
  | pop4 (c : ConsumerQueue)
  /-- about to mark the tail consumed -/
  | flush1 (c : ConsumerQueue)
  /-- about to look up the head -/
  | flush2 (c : ConsumerQueue) (tail : Index)
  /-- about to move the tail to the head -/
  | flush3 (c : ConsumerQueue) (tail head : Index)

namespace ConsumerPhase

/-- The private state of the consumer. -/
def queue : ConsumerPhase → ConsumerQueue
  | idle c | pop1 c | pop2 c _ | pop3 c _ _ | pop4 c | flush1 c | flush2 c _ | flush3 c _ _ => c

/-! The code left at each point. -/

/-- The producer has moved the tail: its message is taken instead. -/
def codePop4 (c : ConsumerQueue) : QueueProg (ConsumerQueue × Loop PopResult) :=
  .act (.tailFetchOr consumedFlag) fun current =>
    if ¬ queueIndexValid c.nMsgs current then .ret (c, .done .error)
    else .ret ({ c with current := current }, .done .discarded)

/-- The tail moves to the next message, which is the consumer's if nobody has been faster. -/
def codePop3 (c : ConsumerQueue) (tail next : Index) :
    QueueProg (ConsumerQueue × Loop PopResult) :=
  .act (.tailCompareExchange tail (next ||| consumedFlag)) fun b =>
    if b then .ret ({ c with current := next }, .done .success) else codePop4 c

/-- The message behind the one the consumer holds, if there is one. -/
def codePop2 (c : ConsumerQueue) (tail : Index) : QueueProg (ConsumerQueue × Loop PopResult) :=
  .act (.chainLoad c.current) fun next =>
    if next = indexInvalid then .ret (c, .done .noUpdate)
    else if ¬ queueIndexValid c.nMsgs next then .ret (c, .done .error)
    else codePop3 c tail next

/-- A tail without the flag is taken as it is; otherwise the consumer holds it, and looks behind it. -/
def codePop1 (c : ConsumerQueue) : QueueProg (ConsumerQueue × Loop PopResult) :=
  .act (.tailFetchOr consumedFlag) fun tail =>
    if tail = indexInvalid then .ret (c, .done .noMsg)
    else if ¬ queueIndexValid c.nMsgs tail.slot then .ret (c, .done .error)
    else if ¬ tail.consumed then
      .ret ({ c with current := tail.slot }, .done (if tail.first then .success else .discarded))
    else if c.current = indexInvalid then .ret (c, .done .error)
    else codePop2 c tail

/-- The tail moves to the head, unless the producer has moved it since. -/
def codeFlush3 (c : ConsumerQueue) (tail head : Index) :
    QueueProg (ConsumerQueue × Loop PopResult) :=
  .act (.tailCompareExchange (tail ||| consumedFlag) (head ||| consumedFlag)) fun b =>
    if b then .ret ({ c with current := head }, .done .discarded) else .ret (c, .again)

/-- The last message that the producer has announced. -/
def codeFlush2 (c : ConsumerQueue) (tail : Index) : QueueProg (ConsumerQueue × Loop PopResult) :=
  .act .headLoad fun head =>
    if ¬ queueIndexValid c.nMsgs head then .ret (c, .done .error) else codeFlush3 c tail head

/-- The flag keeps the producer from taking the tail while the flush looks for the head. -/
def codeFlush1 (c : ConsumerQueue) : QueueProg (ConsumerQueue × Loop PopResult) :=
  .act (.tailFetchOr consumedFlag) fun tail =>
    if tail = indexInvalid then .ret (c, .done .noMsg)
    else if ¬ queueIndexValid c.nMsgs tail.slot then .ret (c, .done .error)
    else codeFlush2 c tail

/-- The consumer's thread at this point. -/
def thread : ConsumerPhase → ConsumerThread
  | idle c => .idle c
  | pop1 c => .busy .pop (codePop1 c)
  | pop2 c tail => .busy .pop (codePop2 c tail)
  | pop3 c tail next => .busy .pop (codePop3 c tail next)
  | pop4 c => .busy .pop (codePop4 c)
  | flush1 c => .busy .flush (codeFlush1 c)
  | flush2 c tail => .busy .flush (codeFlush2 c tail)
  | flush3 c tail head => .busy .flush (codeFlush3 c tail head)

/-! ### The code of a pop and of a flush goes through these points -/

/-- A pass of a flush is this code. -/
theorem code_flush (c : ConsumerQueue) : PopOp.flush.prog c = codeFlush1 c := by
  simp only [PopOp.prog, ConsumerQueue.flushPass, Prog.perform_bind, Prog.pure_eq, codeFlush1,
    codeFlush2, codeFlush3]

/-- A pop is this code: one case for each test that it makes. -/
theorem code_pop (c : ConsumerQueue) : PopOp.pop.prog c = codePop1 c := by
  simp only [PopOp.prog, ConsumerQueue.pop, Prog.perform_bind, Prog.act_bind, Prog.pure_eq, codePop1]
  refine congrArg (Prog.act _) (funext fun tail => ?_)
  by_cases h1 : tail = indexInvalid
  · simp [h1]
  · by_cases h2 : queueIndexValid c.nMsgs tail.slot
    · simp only [h1, h2, not_true, if_false]
      cases h3 : tail.consumed with
      -- the tail has not been consumed: it is taken at once
      | false => simp
      | true =>
        by_cases h4 : c.current = indexInvalid
        · simp [h4]
        · simp only [h4, not_true, if_false, Prog.act_bind, codePop2]
          refine congrArg (Prog.act _) (funext fun next => ?_)
          by_cases h5 : next = indexInvalid
          · simp [h5]
          · by_cases h6 : queueIndexValid c.nMsgs next
            · simp only [h5, h6, not_true, if_false, Prog.act_bind, codePop3, codePop4]
              refine congrArg (Prog.act _) (funext fun b => ?_)
              cases b with
              -- the exchange took the next slot; otherwise the tail is loaded once more
              | true => rfl
              | false =>
                simp only [Bool.false_eq_true, if_false, Prog.act_bind]
                refine congrArg (Prog.act _) (funext fun current => ?_)
                by_cases h7 : queueIndexValid c.nMsgs current <;> simp [h7]
            · simp [h5, h6]
    · simp [h1, h2]

end ConsumerPhase

open ConsumerPhase in
/-- What one atomic operation of the consumer can do. -/
inductive ConsumerStep : ConsumerPhase → QueueMem → ConsumerPhase → QueueMem → QueueOutcome → Prop
  | popNoMsg {c m} (h : m.tail = indexInvalid) :
      ConsumerStep (pop1 c) m (idle c) { m with tail := m.tail ||| consumedFlag } (.popped .noMsg)
  | popError {c m} (h : m.tail ≠ indexInvalid) (hv : ¬ m.tail.slot.toNat < c.nMsgs) :
      ConsumerStep (pop1 c) m (idle c) { m with tail := m.tail ||| consumedFlag } (.popped .error)
  | popTail {c m} (h : m.tail ≠ indexInvalid) (hv : m.tail.slot.toNat < c.nMsgs)
      (hc : m.tail.consumed = false) :
      ConsumerStep (pop1 c) m (idle { c with current := m.tail.slot })
        { m with tail := m.tail ||| consumedFlag }
        (.popped (if m.tail.first then .success else .discarded))
  | popNone {c m} (h : m.tail ≠ indexInvalid) (hv : m.tail.slot.toNat < c.nMsgs)
      (hc : m.tail.consumed = true) (hcur : c.current = indexInvalid) :
      ConsumerStep (pop1 c) m (idle c) { m with tail := m.tail ||| consumedFlag } (.popped .error)
  | popOwn {c m} (h : m.tail ≠ indexInvalid) (hv : m.tail.slot.toNat < c.nMsgs)
      (hc : m.tail.consumed = true) (hcur : c.current ≠ indexInvalid) :
      ConsumerStep (pop1 c) m (pop2 c m.tail) { m with tail := m.tail ||| consumedFlag } .silent
  | popNoUpdate {c tail m} (h : m.chain c.current = indexInvalid) :
      ConsumerStep (pop2 c tail) m (idle c) m (.popped .noUpdate)
  | popNextError {c tail m} (h : m.chain c.current ≠ indexInvalid)
      (hv : ¬ (m.chain c.current).toNat < c.nMsgs) :
      ConsumerStep (pop2 c tail) m (idle c) m (.popped .error)
  | popNext {c tail m} (h : m.chain c.current ≠ indexInvalid)
      (hv : (m.chain c.current).toNat < c.nMsgs) :
      ConsumerStep (pop2 c tail) m (pop3 c tail (m.chain c.current)) m .silent
  | popTaken {c tail next m} (h : m.tail = tail) :
      ConsumerStep (pop3 c tail next) m (idle { c with current := next })
        { m with tail := next ||| consumedFlag } (.popped .success)
  | popLost {c tail next m} (h : m.tail ≠ tail) :
      ConsumerStep (pop3 c tail next) m (pop4 c) m .silent
  | popMovedError {c m} (hv : ¬ m.tail.toNat < c.nMsgs) :
      ConsumerStep (pop4 c) m (idle c) { m with tail := m.tail ||| consumedFlag } (.popped .error)
  | popMoved {c m} (hv : m.tail.toNat < c.nMsgs) :
      ConsumerStep (pop4 c) m (idle { c with current := m.tail })
        { m with tail := m.tail ||| consumedFlag } (.popped .discarded)
  | flushNoMsg {c m} (h : m.tail = indexInvalid) :
      ConsumerStep (flush1 c) m (idle c) { m with tail := m.tail ||| consumedFlag }
        (.popped .noMsg)
  | flushError {c m} (h : m.tail ≠ indexInvalid) (hv : ¬ m.tail.slot.toNat < c.nMsgs) :
      ConsumerStep (flush1 c) m (idle c) { m with tail := m.tail ||| consumedFlag }
        (.popped .error)
  | flushTail {c m} (h : m.tail ≠ indexInvalid) (hv : m.tail.slot.toNat < c.nMsgs) :
      ConsumerStep (flush1 c) m (flush2 c m.tail) { m with tail := m.tail ||| consumedFlag } .silent
  | flushHeadError {c tail m} (hv : ¬ m.head.toNat < c.nMsgs) :
      ConsumerStep (flush2 c tail) m (idle c) m (.popped .error)
  | flushHead {c tail m} (hv : m.head.toNat < c.nMsgs) :
      ConsumerStep (flush2 c tail) m (flush3 c tail m.head) m .silent
  | flushTaken {c tail head m} (h : m.tail = tail ||| consumedFlag) :
      ConsumerStep (flush3 c tail head) m (idle { c with current := head })
        { m with tail := head ||| consumedFlag } (.popped .discarded)
  | flushLost {c tail head m} (h : m.tail ≠ tail ||| consumedFlag) :
      ConsumerStep (flush3 c tail head) m (flush1 c) m .silent

/-- The message held after an outcome, if the consumer is then at slot `i`. -/
def QueueOutcome.take {β : Type} (stamp : Index → Option (Nat × β)) (held : Option (Nat × β))
    (i : Index) : QueueOutcome → Option (Nat × β)
  | popped r => if r.isTaken then stamp i else held
  | _ => held

open ConsumerPhase in
/-- The consumer makes no other step than those of `ConsumerStep`. -/
theorem consStep_cases {β : Type} {s s' : QueueState β} {ph : ConsumerPhase} {o : QueueOutcome}
    (hph : s.cons = ph.thread) (h : s.consStep = some (s', o)) :
    ∃ ph' m', ConsumerStep ph s.mem ph' m' o ∧
      s' = { s with mem := m', cons := ph'.thread,
                    held := o.take s.stamp s.held ph'.queue.current } := by
  unfold QueueState.consStep at h
  rw [hph] at h
  cases ph with
  | idle c => cases h
  -- the tail after `fetch_or`: empty, error, the tail itself, none held, or the next one to be looked
  -- up
  | pop1 c =>
    simp only [thread, codePop1, Prog.step_act, QueueOp.exec, Option.map_some] at h
    by_cases h1 : s.mem.tail = indexInvalid
    · simp only [h1, if_true] at h
      cases h
      refine ⟨_, _, .popNoMsg h1, ?_⟩
      simp only [h1]
      rfl
    · simp only [h1, if_false] at h
      by_cases hv : s.mem.tail.slot.toNat < c.nMsgs
      · simp only [hv, not_true, if_false] at h
        cases hc : s.mem.tail.consumed with
        | false =>
          simp only [hc, Bool.false_eq_true, not_false_eq_true, if_true] at h
          cases h
          exact ⟨_, _, .popTail h1 hv hc, rfl⟩
        | true =>
          simp only [hc, not_true, if_false] at h
          by_cases hcur : c.current = indexInvalid
          · simp only [if_pos hcur] at h
            cases h
            exact ⟨_, _, .popNone h1 hv hc hcur, rfl⟩
          · simp only [hcur, if_false] at h
            cases h
            exact ⟨_, _, .popOwn h1 hv hc hcur, rfl⟩
      · simp only [hv, not_false_eq_true, if_true] at h
        cases h
        exact ⟨_, _, .popError h1 hv, rfl⟩
  -- the chain behind the held slot: its end, an error, or a next slot
  | pop2 c tail =>
    simp only [thread, codePop2, Prog.step_act, QueueOp.exec, Option.map_some] at h
    by_cases h1 : s.mem.chain c.current = indexInvalid
    · simp only [h1, if_true] at h
      cases h
      exact ⟨_, _, .popNoUpdate h1, rfl⟩
    · simp only [h1, if_false] at h
      by_cases hv : (s.mem.chain c.current).toNat < c.nMsgs
      · simp only [hv, not_true, if_false] at h
        cases h
        exact ⟨_, _, .popNext h1 hv, rfl⟩
      · simp only [hv, not_false_eq_true, if_true] at h
        cases h
        exact ⟨_, _, .popNextError h1 hv, rfl⟩
  | pop3 c tail next =>
    simp only [thread, codePop3, Prog.step_act, QueueOp.exec, Option.map_some] at h
    by_cases ht : s.mem.tail = tail
    · simp only [ht, if_true] at h
      cases h
      exact ⟨_, _, .popTaken ht, rfl⟩
    · simp only [ht, if_false, Bool.false_eq_true] at h
      cases h
      exact ⟨_, _, .popLost ht, rfl⟩
  | pop4 c =>
    simp only [thread, codePop4, Prog.step_act, QueueOp.exec, Option.map_some] at h
    by_cases hv : s.mem.tail.toNat < c.nMsgs
    · simp only [hv, not_true, if_false] at h
      cases h
      exact ⟨_, _, .popMoved hv, rfl⟩
    · simp only [hv, not_false_eq_true, if_true] at h
      cases h
      exact ⟨_, _, .popMovedError hv, rfl⟩
  -- a pass of the flush starts with the same `fetch_or`
  | flush1 c =>
    simp only [thread, codeFlush1, Prog.step_act, QueueOp.exec, Option.map_some] at h
    by_cases h1 : s.mem.tail = indexInvalid
    · simp only [h1, if_true] at h
      cases h
      refine ⟨_, _, .flushNoMsg h1, ?_⟩
      simp only [h1]
      rfl
    · simp only [h1, if_false] at h
      by_cases hv : s.mem.tail.slot.toNat < c.nMsgs
      · simp only [hv, not_true, if_false] at h
        cases h
        exact ⟨_, _, .flushTail h1 hv, rfl⟩
      · simp only [hv, not_false_eq_true, if_true] at h
        cases h
        exact ⟨_, _, .flushError h1 hv, rfl⟩
  | flush2 c tail =>
    simp only [thread, codeFlush2, Prog.step_act, QueueOp.exec, Option.map_some] at h
    by_cases hv : s.mem.head.toNat < c.nMsgs
    · simp only [hv, not_true, if_false] at h
      cases h
      exact ⟨_, _, .flushHead hv, rfl⟩
    · simp only [hv, not_false_eq_true, if_true] at h
      cases h
      exact ⟨_, _, .flushHeadError hv, rfl⟩
  -- the exchange failed: the pass is over, and the loop of the source starts the next one
  | flush3 c tail head =>
    simp only [thread, codeFlush3, Prog.step_act, QueueOp.exec, Option.map_some] at h
    by_cases ht : s.mem.tail = tail ||| consumedFlag
    · simp only [ht, if_true] at h
      cases h
      exact ⟨_, _, .flushTaken ht, rfl⟩
    · simp only [ht, if_false, Bool.false_eq_true] at h
      cases h
      refine ⟨_, _, .flushLost ht, ?_⟩
      simp only [QueueOutcome.take, thread, code_flush]

end Rtipc
