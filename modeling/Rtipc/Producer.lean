/-
  `src/producer.c`: the producer's side of the queue.

  Every function is written as in the source, as a `QueueProg` that returns the producer's new
  private state next to the result.  The private chain is an array of `n_msgs` words, so an access to
  it with an index that is not below `n_msgs` is undefined behaviour (`Prog.fault`).
-/
import Rtipc.Queue

namespace Rtipc

/-- `ri_producer_queue_t`: of `queue` only `n_msgs` matters to this code; `chain` is the private copy
    of the chain. -/
structure ProducerQueue where
  nMsgs : Nat
  head : Index
  current : Index
  overrun : Index
  chain : Index → Index

/-- `ri_force_push_result_t`. -/
inductive ForcePushResult where
  | error
  | success
  | discarded
  deriving DecidableEq, Repr

/-- `ri_try_push_result_t`. -/
inductive TryPushResult where
  | error
  | fail
  | success
  deriving DecidableEq, Repr

namespace ProducerQueue

/-- A read of `producer->chain[idx]`. -/
def chainAt (p : ProducerQueue) (idx : Index) : QueueProg Index :=
  if idx.toNat < p.nMsgs then pure (p.chain idx) else .fault

/-- The assignment `producer->chain[idx] = val`. -/
def setChain (p : ProducerQueue) (idx val : Index) : ProducerQueue :=
  { p with chain := Function.update p.chain idx val }

/-- `chain_store`. -/
def chainStore (p : ProducerQueue) (idx val : Index) : QueueProg ProducerQueue :=
  if idx.toNat < p.nMsgs then do
    queueChainStore idx val
    return p.setChain idx val
  else .fault

/-- The loop of `ri_producer_queue_new` that fills the chain: iterations `i` to `i + k - 1`. -/
def initChain (p : ProducerQueue) (i : Nat) : Nat → QueueProg ProducerQueue
  | 0 => return p
  | k + 1 => do
    let p ← p.chainStore (BitVec.ofNat 32 i) (BitVec.ofNat 32 (i + 1))
    p.initChain (i + 1) k

/-- `ri_producer_queue_new`; `chain` is what `malloc` left in the private chain. -/
def new (nMsgs : Nat) (chain : Index → Index) : QueueProg ProducerQueue := do
  let p : ProducerQueue :=
    { nMsgs := nMsgs, current := 0, overrun := indexInvalid, head := indexInvalid, chain := chain }
  let p ← p.initChain 0 (nMsgs - 1)
  p.chainStore (BitVec.ofNat 32 (nMsgs - 1)) 0

/-- `ri_producer_queue_init_shm`. -/
def initShm : QueueProg Unit := queueInitShm

/-- `enqueue_first_msg`. -/
def enqueueFirstMsg (p : ProducerQueue) : QueueProg ProducerQueue := do
  -- current message is the new end of chain
  let p ← p.chainStore p.current indexInvalid
  queueTailStore (p.current ||| firstFlag)
  let p := { p with head := p.current }
  -- announce the new head for consumer_get_head
  queueHeadStore p.head
  return p

/-- `enqueue_msg`: set the next message as head. -/
def enqueueMsg (p : ProducerQueue) : QueueProg ProducerQueue := do
  -- current message is the new end of chain
  let p ← p.chainStore p.current indexInvalid
  -- append current message to the chain
  let p ← p.chainStore p.head p.current
  let p := { p with head := p.current }
  -- announce the new head for consumer_get_head
  queueHeadStore p.head
  return p

/-- `move_tail`. -/
def moveTail (p : ProducerQueue) (tail : Index) : QueueProg Bool := do
  let next ← p.chainAt tail.slot
  queueTailCompareExchange tail next

/-- `overrun`: try to jump over tail blocked by consumer. -/
def overrunTail (p : ProducerQueue) (tail : Index) : QueueProg (ProducerQueue × Bool) := do
  let newCurrent ← p.chainAt tail.slot   -- next
  let newTail ← p.chainAt newCurrent     -- after next
  if ← queueTailCompareExchange tail newTail then
    return ({ p with overrun := tail.slot, current := newCurrent }, true)
  else
    -- consumer just released tail, so use it
    return ({ p with current := tail.slot }, false)

/-- The overrun message goes back in front of `next` and becomes the current one: the three
    statements that `ri_producer_queue_force_push` and `ri_producer_queue_try_push` repeat. -/
def requeueOverrun (p : ProducerQueue) (next : Index) : QueueProg ProducerQueue := do
  let p ← p.chainStore p.overrun next
  return { p with current := p.overrun, overrun := indexInvalid }

/-- `ri_producer_queue_full`. -/
def full (p : ProducerQueue) : QueueProg Bool :=
  if p.head = indexInvalid then
    -- queue is empty
    return false
  else do
    let tail ← queueTailLoad
    if ¬ queueIndexValid p.nMsgs tail.slot then
      -- the queue is in an invalid state; the push handles the error
      return false
    else if p.overrun ≠ indexInvalid then
      -- the queue has space if the consumer has moved on
      return !tail.consumed
    else do
      let next ← p.chainAt p.current
      let full := decide (next = tail.slot)
      return !full

/-- The loop of `ri_producer_queue_count_msgs`, at `cnt` with `k` rounds left.  It reads the shared
    chain. -/
def countLoop (p : ProducerQueue) (next : Index) (cnt : Nat) : Nat → QueueProg Int
  | 0 => return p.nMsgs
  | k + 1 =>
    if next = indexInvalid then return cnt
    else do
      let next ← queueChainLoad next
      p.countLoop next (cnt + 1) k

/-- `ri_producer_queue_count_msgs`. -/
def countMsgs (p : ProducerQueue) : QueueProg Int :=
  if p.head = indexInvalid then
    -- queue is empty
    return 0
  else do
    let next ← queueTailLoad
    -- overrun; queue is full
    if ¬ next.consumed ∧ ¬ next.first then return (p.nMsgs : Int) - 1
    else if ¬ queueIndexValid p.nMsgs next.slot then return -1
    else p.countLoop next.slot 0 p.nMsgs

/-- `ri_producer_queue_force_push`. -/
def forcePush (p : ProducerQueue) : QueueProg (ProducerQueue × ForcePushResult) := do
  let next ← p.chainAt p.current
  if p.head = indexInvalid then
    let p ← p.enqueueFirstMsg
    return ({ p with current := next }, .success)
  else
    let p ← p.enqueueMsg
    let tail ← queueTailLoad
    if ¬ queueIndexValid p.nMsgs tail.slot then
      return (p, .error)
    else if p.overrun ≠ indexInvalid then
      -- we overran the consumer and moved the tail, use overran message as soon as the consumer
      -- releases it
      if tail.consumed then
        let p ← p.requeueOverrun next
        return (p, .success)
      else
        -- consumer still blocks overran message, move the tail again
        if ← p.moveTail tail then
          return ({ p with current := tail.slot }, .discarded)
        else
          let p ← p.requeueOverrun next
          return (p, .success)
    else
      -- no previous overrun, use next or after next message
      if next ≠ tail.slot then
        return ({ p with current := next }, .success)
      else if ¬ tail.consumed then
        -- message queue is full, but no message is consumed yet, so try to move tail
        if ← p.moveTail tail then
          return ({ p with current := next }, .discarded)
        else
          -- consumer just started and consumed tail
          let (p, discarded) ← p.overrunTail (tail ||| consumedFlag)
          return (p, if discarded then .discarded else .success)
      else
        -- overrun the consumer, if the consumer keeps tail
        let (p, discarded) ← p.overrunTail tail
        return (p, if discarded then .discarded else .success)

/-- `ri_producer_queue_try_push`. -/
def tryPush (p : ProducerQueue) : QueueProg (ProducerQueue × TryPushResult) := do
  let next ← p.chainAt p.current
  if p.head = indexInvalid then
    let p ← p.enqueueFirstMsg
    return ({ p with current := next }, .success)
  else
    let tail ← queueTailLoad
    if ¬ queueIndexValid p.nMsgs tail.slot then
      return (p, .error)
    else if p.overrun ≠ indexInvalid then
      if tail.consumed then
        -- consumer released overrun message, so we can use it
        let p ← p.enqueueMsg
        let p ← p.requeueOverrun next
        return (p, .success)
      else
        return (p, .fail)
    else
      if next ≠ tail.slot then
        let p ← p.enqueueMsg
        return ({ p with current := next }, .success)
      else
        return (p, .fail)

/-- `ri_producer_queue_msg`. -/
def msg (p : ProducerQueue) : Option Index := queueGetMsg p.nMsgs p.current

end ProducerQueue

end Rtipc
