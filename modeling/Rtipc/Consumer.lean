/-
  `src/consumer.c`: the consumer's side of the queue.

  The endless loop of `ri_consumer_queue_flush` is written as one pass (`flushPass`), which either
  returns or asks for another pass; whoever runs the consumer starts the next pass
  (see `PopOp.prog`).
-/
import Rtipc.Queue

namespace Rtipc

/-- `ri_consumer_queue_t`: of `queue` only `n_msgs` matters to this code. -/
structure ConsumerQueue where
  nMsgs : Nat
  current : Index
  deriving DecidableEq, Repr

/-- `ri_pop_result_t`. -/
inductive PopResult where
  | error
  | noMsg
  | noUpdate
  | success
  | discarded
  deriving DecidableEq, Repr

namespace ConsumerQueue

/-- `ri_consumer_queue_new`. -/
def new (nMsgs : Nat) : ConsumerQueue := { nMsgs := nMsgs, current := indexInvalid }

/-- The loop of `ri_consumer_queue_count_msgs`, at `cnt` with `k` rounds left. -/
def countLoop (c : ConsumerQueue) (next : Index) (cnt : Nat) : Nat → QueueProg Int
  | 0 => return (c.nMsgs : Int) - 1
  | k + 1 => do
    let next ← queueChainLoad next
    if next = indexInvalid then
      -- end of queue, no newer message available; check again for overrun
      let next ← queueTailLoad
      if ¬ next.consumed ∧ ¬ next.first then return (c.nMsgs : Int) - 1
      else return (cnt : Int) + 1
    else if ¬ queueIndexValid c.nMsgs next then return -1
    else c.countLoop next (cnt + 1) k

/-- `ri_consumer_queue_count_msgs`. -/
def countMsgs (c : ConsumerQueue) : QueueProg Int := do
  let next ← queueTailLoad
  if next = indexInvalid then return 0
  -- overrun, queue must be full
  else if ¬ next.consumed ∧ ¬ next.first then return (c.nMsgs : Int) - 1
  else if ¬ queueIndexValid c.nMsgs next.slot then return -1
  else c.countLoop next.slot 0 c.nMsgs

/-- One pass through the loop of `ri_consumer_queue_flush`. -/
def flushPass (c : ConsumerQueue) : QueueProg (ConsumerQueue × Loop PopResult) := do
  let tail ← queueTailFetchOr consumedFlag
  if tail = indexInvalid then
    -- or CONSUMED_FLAG doesn't change INDEX_END
    return (c, .done .noMsg)
  else if ¬ queueIndexValid c.nMsgs tail.slot then
    return (c, .done .error)
  else
    let head ← queueHeadLoad
    if ¬ queueIndexValid c.nMsgs head then
      return (c, .done .error)
    else if ← queueTailCompareExchange (tail ||| consumedFlag) (head ||| consumedFlag) then
      -- only accept head if producer didn't move tail, otherwise the producer could fill the whole
      -- queue and the head could be the producers current message
      return ({ c with current := head }, .done .discarded)
    else
      return (c, .again)

/-- `ri_consumer_queue_pop`. -/
def pop (c : ConsumerQueue) : QueueProg (ConsumerQueue × PopResult) := do
  let tail ← queueTailFetchOr consumedFlag
  if tail = indexInvalid then
    return (c, .noMsg)
  else if ¬ queueIndexValid c.nMsgs tail.slot then
    return (c, .error)
  else if ¬ tail.consumed then
    -- producer moved tail (force_push), so use it; one or more messages were discarded
    return ({ c with current := tail.slot }, if tail.first then .success else .discarded)
  else if c.current = indexInvalid then
    -- consumed flag was set, but we don't have a message yet
    return (c, .error)
  else
    -- try to get next message
    let next ← queueChainLoad c.current
    if next = indexInvalid then
      -- end of queue, no newer message available
      return (c, .noUpdate)
    else if ¬ queueIndexValid c.nMsgs next then
      return (c, .error)
    else if ← queueTailCompareExchange tail (next ||| consumedFlag) then
      return ({ c with current := next }, .success)
    else
      -- producer just moved tail, use it
      let current ← queueTailFetchOr consumedFlag
      if ¬ queueIndexValid c.nMsgs current then
        return (c, .error)
      else
        return ({ c with current := current }, .discarded)

/-- `ri_consumer_queue_msg`. -/
def msg (c : ConsumerQueue) : Option Index :=
  if c.current = indexInvalid then none else queueGetMsg c.nMsgs c.current

end ConsumerQueue

end Rtipc
