/-
  `src/channel.c`: the life of the two ends of a channel.

  What the code does for a consumer and for a producer is the same, written twice, but for the chain that
  a new producer fills; a `ChannelEnd` is either.  The queue of an end is known by where it is in the
  shared memory.  What matters here are the blocks, the descriptors, the references to the shared memory
  and the words that are stored in it (`Event.store`), wherever they are; the producer's own copy of the
  chain is in `ProducerQueue.new`.

  An end is in the hands of the group (`RI_OWNER_GROUP_FLAG`), of a user (`RI_OWNER_USER_FLAG`), or of
  both; who gives it up last deletes it.
-/
import Rtipc.Layout
import Rtipc.Shm

namespace Rtipc

/-- `RI_OWNER_GROUP_FLAG`. -/
def ownerGroupFlag : Unsigned := 1

/-- `RI_OWNER_USER_FLAG`. -/
def ownerUserFlag : Unsigned := 2

/-- `ri_consumer_t` or `ri_producer_t`. -/
structure ChannelEnd where
  owners : Unsigned
  queue : Queue
  shmOffset : Size
  eventfd : Int
  deriving DecidableEq, Repr

section create

variable (os : Os) (cls : Size) (role : Role) (i : Nat) (attr : ChannelAttr InfoPtr)

/-- `ri_consumer_queue_new`. -/
def consumerQueueNew (shm : Shm) (shmOffset : Size) : Option (Queue × Shm) × List Event :=
  if os.block (.queue .consumer i) then
    match shmPtr shm shmOffset with
    | none => (none, [.acquire (.block (.queue .consumer i)), .release (.block (.queue .consumer i))])
    | some ptr => (some (queueInit cls attr ptr, shmRef shm), [.acquire (.block (.queue .consumer i))])
  else (none, [])

/-- The words of the chain that `ri_producer_queue_new` stores: each slot leads to the next one, and the
    last one to the first one.  Without a slot the number of the last one wraps around. -/
def chainStores (queue : Queue) : List (Size × Unsigned) :=
  (List.range (queue.nMsgs - 1).toNat).map
      (fun i => (queue.chainWord (BitVec.ofNat 32 i), BitVec.ofNat 32 (i + 1))) ++
    [(queue.chainWord (queue.nMsgs - 1), 0)]

/-- `ri_producer_queue_new`. -/
def producerQueueNew (shm : Shm) (shmOffset : Size) : Option (Queue × Shm) × List Event :=
  if os.block (.queue .producer i) then
    match shmPtr shm shmOffset with
    | none => (none, [.acquire (.block (.queue .producer i)), .release (.block (.queue .producer i))])
    | some ptr =>
      let queue := queueInit cls attr ptr
      (some (queue, shmRef shm),
        .acquire (.block (.queue .producer i)) :: stored (chainStores queue))
  else (none, [])

/-- The new queue of either end. -/
def queueNew (shm : Shm) (shmOffset : Size) : Option (Queue × Shm) × List Event :=
  match role with
  | .consumer => consumerQueueNew os cls i attr shm shmOffset
  | .producer => producerQueueNew os cls i attr shm shmOffset

/-- `ri_consumer_map` and `ri_producer_map`. -/
def channelMap (eventfd : Int) (shm : Shm) (shmOffset : Size) :
    Option (ChannelEnd × Shm) × List Event :=
  if os.block (.channel role i) then
    match queueNew os cls role i attr shm shmOffset with
    | (none, events) =>
      (none, .acquire (.block (.channel role i)) :: events ++ [.release (.block (.channel role i))])
    | (some (queue, shm), events) =>
      (some ({ owners := ownerGroupFlag
               queue := queue
               shmOffset := shmOffset
               eventfd := if attr.eventfd then eventfd else -1 }, shm),
        .acquire (.block (.channel role i)) :: events)
  else (none, [])

/-- `ri_queue_init_shm`: the words that are stored. -/
def initStores (queue : Queue) : List (Size × Unsigned) :=
  [(queue.tail, indexInvalid), (queue.head, indexInvalid)]

/-- `ri_consumer_new` and `ri_producer_new`. -/
def channelNew (shm : Shm) (shmOffset : Size) : Option (ChannelEnd × Shm) × List Event :=
  if attr.eventfd then
    if os.eventfdCreate role i < 0 then (none, [])
    else
      match channelMap os cls role i attr (os.eventfdCreate role i) shm shmOffset with
      | (none, events) =>
        (none, .acquire (.descriptor (os.eventfdCreate role i)) :: events ++
          closed (os.eventfdCreate role i))
      | (some (channel, shm), events) =>
        (some (channel, shm), .acquire (.descriptor (os.eventfdCreate role i)) :: events ++
          stored (initStores channel.queue))
  else
    match channelMap os cls role i attr (-1) shm shmOffset with
    | (none, events) => (none, events)
    | (some (channel, shm), events) =>
      (some (channel, shm), events ++ stored (initStores channel.queue))

end create

/-- `ri_consumer_queue_delete` and `ri_producer_queue_delete`. -/
def queueDelete (role : Role) (i : Nat) (shm : Shm) : Shm × List Event :=
  ((shmUnref shm).1, (shmUnref shm).2 ++ [.release (.block (.queue role i))])

namespace ChannelEnd

variable (role : Role) (i : Nat) (channel : ChannelEnd)

/-- `ri_consumer_delete` and `ri_producer_delete`. -/
def delete (shm : Shm) : Shm × List Event :=
  ((queueDelete role i shm).1, (queueDelete role i shm).2 ++ closed channel.eventfd ++
    [.release (.block (.channel role i))])

/-- `ri_group_release_consumer` and `ri_group_release_producer`. -/
def groupRelease (shm : Shm) : Shm × List Event :=
  if channel.owners &&& ownerUserFlag = 0 then channel.delete role i shm else (shm, [])

/-- `ri_consumer_acquire` and `ri_producer_acquire`. -/
def acquire : Int × ChannelEnd :=
  (if channel.owners &&& ownerUserFlag ≠ 0 then -1 else 0,
    { channel with owners := channel.owners ||| ownerUserFlag })

/-- `ri_consumer_release` and `ri_producer_release`: what is left of the end, nothing if it is deleted. -/
def release (shm : Shm) : Option ChannelEnd × Shm × List Event :=
  if channel.owners &&& ownerGroupFlag = 0 then (none, channel.delete role i shm)
  else (some { channel with owners := channel.owners &&& ownerGroupFlag }, shm, [])

/-- `ri_consumer_take_eventfd` and `ri_producer_take_eventfd`. -/
def takeEventfd : Int × ChannelEnd := (channel.eventfd, { channel with eventfd := -1 })

end ChannelEnd

end Rtipc
