/-
  The calls of one end of a channel, from its creation to its deletion.

  A call runs from start to end before the next one begins.  The other end and the other holders of the
  shared memory may do anything in between: the answers to the accesses of a push or a pop and the
  content of the slots are arguments of the call, and `others` changes the reference counter.

  Every call says what it acquires and releases.  Besides the blocks and descriptors of `Resource` these
  are the message cache (`malloc` and `free` in `ri_producer_cache_enable` and
  `ri_producer_cache_disable`) and the reference to the shared memory that a queue takes when it is
  created and drops when it is deleted.
-/
import Rtipc.GroupLoops
import Rtipc.SequentialChannel

namespace Rtipc

/-- What an end holds: a block or a descriptor, the message cache, the reference. -/
inductive EndResource where
  | resource (r : Resource)
  | cache
  | reference
  deriving DecidableEq, Repr

/-- The moves of these events. -/
def endMoves (events : List Event) : List (Move EndResource) :=
  (events.filterMap Event.move).map (.map .resource)

/-! ## The message cache

  One block of the size of a message, which belongs to the producer. -/

namespace Producer

variable {β : Type}

/-- `ri_producer_cache_enable`: the result, the producer and what is acquired; `ok` says whether
    `malloc` succeeds, `msgs` what is in the slots. -/
def cacheEnable (p : Producer β) (ok : Bool) (msgs : Index → β) :
    Option (Int × Producer β × List (Move EndResource)) :=
  match p.cache with
  | some _ => some (0, p, [])
  | none =>
    if ok then p.queue.msg.map fun i => (0, { p with cache := some (msgs i) }, [.acquire .cache])
    else some (-ENOMEM, p, [])

/-- `ri_producer_cache_disable`: what is in the slots then, the producer and what is released. -/
def cacheDisable (p : Producer β) (msgs : Index → β) :
    Option ((Index → β) × Producer β × List (Move EndResource)) :=
  match p.cache with
  | none => some (msgs, p, [])
  | some x => p.queue.msg.map fun i =>
      (Function.update msgs i x, { p with cache := none }, [.release .cache])

end Producer

/-- The same calls in the sequence of all calls of a channel. -/
theorem SequentialChannel.cacheEnable_eq {β : Type} (s : SequentialChannel β) (ok : Bool) :
    s.cacheEnable ok = (s.prod.cacheEnable ok s.mem.msgs).map fun y =>
      ({ s with prod := y.2.1 }, .enabled (decide (y.1 = 0))) := by
  unfold SequentialChannel.cacheEnable Producer.cacheEnable
  cases s.prod.cache with
  | some x => rfl
  | none =>
    cases ok with
    | false => rfl
    | true =>
      cases s.prod.queue.msg with
      | none => rfl
      | some i => rfl

/-- Switching off the cache as the model of one side sees it. -/
theorem SequentialChannel.cacheDisable_eq {β : Type} (s : SequentialChannel β) :
    s.cacheDisable = (s.prod.cacheDisable s.mem.msgs).map fun y =>
      ({ s with mem := { s.mem with msgs := y.1 }, prod := y.2.1 }, .silent) := by
  unfold SequentialChannel.cacheDisable Producer.cacheDisable
  cases s.prod.cache with
  | none => rfl
  | some x =>
    cases s.prod.queue.msg with
    | none => rfl
    | some i => rfl

/-! ## An end and its calls -/

/-- The private data of an end: its queue, and the message cache of a producer. -/
inductive EndData (β : Type) where
  | consumer (queue : ConsumerQueue)
  | producer (queue : ProducerQueue) (cache : Option β)

namespace EndData

variable {β : Type}

/-- Which end it is. -/
def role : EndData β → Role
  | consumer _ => .consumer
  | producer _ _ => .producer

/-- Its cache, if it has one. -/
def cache : EndData β → Option β
  | consumer _ => none
  | producer _ cache => cache

/-- The data of a new end with `nMsgs` slots; the chain of the producer is filled in some memory. -/
def New (nMsgs : Nat) : EndData β → Prop
  | consumer queue => queue = .new nMsgs
  | producer queue cache => cache = none ∧ ∃ chain m m',
      (ProducerQueue.new nMsgs chain).run QueueOp.exec m = some (queue, m')

end EndData

/-- `ri_consumer_t` or `ri_producer_t`, with its queue. -/
structure LiveEnd (β : Type) where
  channel : ChannelEnd
  data : EndData β

/-- One end until it is deleted, and the shared memory. -/
structure EndState (β : Type) where
  live : Option (LiveEnd β)
  shm : Shm

/-- What the accesses of a call are answered: the `k`-th of them and the operation determine it. -/
abbrev EndAnswers (β : Type) : Type := Nat → (o : ChannelOp β) → o.Ans

/-- The peer answers each operation. -/
def EndAnswers.exec {β : Type} (answers : EndAnswers β) (o : ChannelOp β) (k : Nat) : o.Ans × Nat :=
  (answers k o, k + 1)

/-- The calls.  `groupRelease` is `ri_group_delete` coming to this channel; `others` are changes of the
    reference counter by other holders of the shared memory. -/
inductive EndCall (β : Type) where
  | cacheEnable (ok : Bool) (msgs : Index → β)
  | cacheDisable (msgs : Index → β)
  | push (op : PushOp) (answers : EndAnswers β)
  | pop (answers : EndAnswers β)
  | flush (passes : Nat) (answers : EndAnswers β)
  | takeEventfd
  | acquire
  | release
  | groupRelease
  | others (refs : Unsigned)

/-- What a call returns. -/
inductive EndReply where
  | code (r : Int)
  | pushed (r : PushResult)
  | popped (r : PopResult)
  | took (fd : Int)
  | silent
  deriving DecidableEq, Repr

/-- What a call returns, and what it acquires and releases. -/
structure EndOutcome where
  reply : EndReply
  moves : List (Move EndResource)
  deriving DecidableEq, Repr

/-- `ri_group_release_consumer` and `ri_group_release_producer`: what is left of the end, nothing if it
    is deleted. -/
def ChannelEnd.giveUp (role : Role) (i : Nat) (channel : ChannelEnd) (shm : Shm) :
    Option ChannelEnd × Shm × List Event :=
  if channel.owners &&& ownerUserFlag = 0 then (none, channel.delete role i shm)
  else (some { channel with owners := channel.owners &&& ownerUserFlag }, shm, [])

/-- For the group only the shared memory matters. -/
theorem ChannelEnd.giveUp_snd (role : Role) (i : Nat) (channel : ChannelEnd) (shm : Shm) :
    (channel.giveUp role i shm).2 = channel.groupRelease role i shm := by
  unfold ChannelEnd.giveUp ChannelEnd.groupRelease
  split <;> rfl

namespace LiveEnd

variable {β : Type}

/-- A call of a producer. -/
def onProducer (live : LiveEnd β) (f : Producer β → Option (Producer β × EndOutcome)) :
    Option (LiveEnd β × EndOutcome) :=
  match live.data with
  | .consumer _ => none
  | .producer queue cache =>
    (f { queue := queue, eventfd := live.channel.eventfd, cache := cache }).map fun y =>
      ({ channel := { live.channel with eventfd := y.1.eventfd }
         data := .producer y.1.queue y.1.cache }, y.2)

/-- A call of a consumer. -/
def onConsumer (live : LiveEnd β) (f : Consumer → Option (Consumer × EndOutcome)) :
    Option (LiveEnd β × EndOutcome) :=
  match live.data with
  | .producer _ _ => none
  | .consumer queue =>
    (f { queue := queue, eventfd := live.channel.eventfd }).map fun y =>
      ({ channel := { live.channel with eventfd := y.1.eventfd }, data := .consumer y.1.queue }, y.2)

/-- The end after a release; with the queue goes its reference. -/
def released (live : LiveEnd β) (y : Option ChannelEnd × Shm × List Event) :
    EndState β × EndOutcome :=
  ({ live := y.1.map fun channel => { live with channel := channel }, shm := y.2.1 },
    { reply := .silent
      moves := endMoves y.2.2 ++ match y.1 with
        | some _ => []
        | none => [.release .reference] })

/-- The calls that keep the end. -/
def call (live : LiveEnd β) : EndCall β → Option (LiveEnd β × EndOutcome)
  | .cacheEnable ok msgs => live.onProducer fun p =>
      (p.cacheEnable ok msgs).map fun y => (y.2.1, ⟨.code y.1, y.2.2⟩)
  | .cacheDisable msgs => live.onProducer fun p =>
      (p.cacheDisable msgs).map fun y => (y.2.1, ⟨.silent, y.2.2⟩)
  | .push op answers => live.onProducer fun p =>
      ((p.push op).run answers.exec 0).map fun y => (y.1.1, ⟨.pushed y.1.2, []⟩)
  | .pop answers => live.onConsumer fun c =>
      (c.pop.run answers.exec 0).map fun y => (y.1.1, ⟨.popped y.1.2, []⟩)
  | .flush passes answers => live.onConsumer fun c =>
      (Prog.runLoop answers.exec Consumer.flushPass passes c 0).map fun y =>
        (y.1.1, ⟨.popped y.1.2, []⟩)
  | .takeEventfd =>
    some ({ live with channel := live.channel.takeEventfd.2 },
      ⟨.took live.channel.takeEventfd.1, []⟩)
  | .acquire =>
    some ({ live with channel := live.channel.acquire.2 }, ⟨.code live.channel.acquire.1, []⟩)
  | .release | .groupRelease | .others _ => none

end LiveEnd

/-- A call of the end with number `i` of its role; there is none after it has been deleted. -/
def EndState.step {β : Type} (i : Nat) (s : EndState β) (e : EndCall β) :
    Option (EndState β × EndOutcome) :=
  s.live.bind fun live => match e with
  | .release => some (live.released (live.channel.release live.data.role i s.shm))
  | .groupRelease => some (live.released (live.channel.giveUp live.data.role i s.shm))
  | .others refs =>
    some ({ s with shm := { s.shm with refCnt := s.shm.refCnt + refs } }, ⟨.silent, []⟩)
  | e => (live.call e).map fun y => ({ s with live := some y.1 }, y.2)

/-- The end `s₀`, one call after the other. -/
def endMachine {β : Type} (i : Nat) (s₀ : EndState β) :
    Machine (EndState β) (EndCall β) EndOutcome where
  init s := s = s₀
  step := EndState.step i

/-- An end as it has been made: with an eventfd of its own, or with one it has been given, which then
    is in the list. -/
inductive EndMade {β : Type} (os : Os) (cls : Size) (i : Nat) (attr : ChannelAttr InfoPtr) (shm : Shm)
    (shmOffset : Size) : List Int → List Event → EndState β → Prop where
  | new {data : EndData β} {channel : ChannelEnd} {shm' : Shm} {events : List Event}
      (h : channelNew os cls data.role i attr shm shmOffset = (some (channel, shm'), events))
      (hdata : data.New channel.queue.nMsgs.toNat) :
      EndMade os cls i attr shm shmOffset [] events { live := some ⟨channel, data⟩, shm := shm' }
  | map {data : EndData β} {channel : ChannelEnd} {shm' : Shm} {events : List Event} {eventfd : Int}
      (hfd : attr.eventfd = false → eventfd = -1)
      (h : channelMap os cls data.role i attr eventfd shm shmOffset =
        (some (channel, shm'), events))
      (hdata : data.New channel.queue.nMsgs.toNat) :
      EndMade os cls i attr shm shmOffset [eventfd] events
        { live := some ⟨channel, data⟩, shm := shm' }

/-! ## Concrete runs -/

/-- `ri_producer_new` in zeroed memory: the end and what has been acquired. -/
def EndState.newProducer {β : Type} (os : Os) (cls : Size) (i : Nat) (attr : ChannelAttr InfoPtr)
    (shm : Shm) (shmOffset : Size) : Option (EndState β × List Event) :=
  match channelNew os cls .producer i attr shm shmOffset with
  | (none, _) => none
  | (some (channel, shm), created) =>
    ((ProducerQueue.new channel.queue.nMsgs.toNat fun _ => 0).run QueueOp.exec
        { tail := 0, head := 0, chain := fun _ => 0 }).map fun y =>
      ({ live := some { channel := channel, data := .producer y.1 none }, shm := shm }, created)

/-- A producer that has just been made. -/
theorem EndState.newProducer_made {β : Type} {os : Os} {cls : Size} {i : Nat}
    {attr : ChannelAttr InfoPtr} {shm : Shm} {shmOffset : Size} {s₀ : EndState β} {created : List Event}
    (h : EndState.newProducer os cls i attr shm shmOffset = some (s₀, created)) :
    EndMade os cls i attr shm shmOffset [] created s₀ := by
  unfold EndState.newProducer at h
  split at h
  · cases h
  · rename_i channel shm' created' hnew
    obtain ⟨⟨queue, m'⟩, hrun, heq⟩ := Option.map_eq_some_iff.mp h
    cases heq
    exact EndMade.new hnew (show (EndData.producer queue none).New _ from ⟨rfl, _, _, _, hrun⟩)

/-- A run of the calls `es` on a new producer whose end passes the test `q`. -/
theorem EndState.exists_run {β : Type} (os : Os) (cls : Size) (i : Nat) (attr : ChannelAttr InfoPtr)
    (shm : Shm) (shmOffset : Size) (es : List (EndCall β))
    (q : List Event → List (EndCall β × EndOutcome) → EndState β → Bool)
    (h : ((EndState.newProducer os cls i attr shm shmOffset).any fun y =>
      ((endMachine i y.1).exec Machine.always es ([], y.1)).any fun ts => q y.2 ts.1 ts.2) = true) :
    ∃ s₀ created tr s, EndMade os cls i attr shm shmOffset [] created s₀ ∧
      (endMachine i s₀).Run Machine.always tr s ∧ q created tr s = true := by
  cases hnew : (EndState.newProducer os cls i attr shm shmOffset : Option (EndState β × List Event)) with
  | none =>
    rw [hnew] at h
    cases h
  | some y =>
    rw [hnew] at h
    obtain ⟨tr, s, hr, hq⟩ := Machine.exists_run (endMachine i y.1) Machine.always rfl es (q y.2) h
    exact ⟨y.1, y.2, tr, s, EndState.newProducer_made hnew, hr, hq⟩

end Rtipc
