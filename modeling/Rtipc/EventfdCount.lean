/-
  The eventfd counts the unread messages.

  A push signals exactly if it adds a message without discarding one, a pop reads the counter before
  it looks at the queue.  So at every moment the number of unread messages is the counter, plus one for
  a pop that has read the counter, plus one for a push that has put its message on the chain and has
  neither moved the tail nor written the counter (`eventfd_counts_unread`); in particular a pop whose
  read has succeeded finds a message.

  `QueueMem.unread` counts the messages by walking the shared chain; `PopInv.unread` is what it counts
  in terms of the list of slots.  A step of the channel is a step of the queue, or one of the eventfd
  (`ChannelInv`), so the results about the queue carry over.

  1. **Unread messages.**  They are those from the tail on, without the tail itself if it has been
     consumed.  `QueueMem.unread` walks the chain, `unreadSlots` is a difference of positions, and
     `PopInv.unread` says that they are equal.

  2. **One step of the queue** changes the number by what the outcome says (`ProducerStep.unread`,
     `ConsumerStep.unread`): an append adds one, a moved tail takes one away, and the message in the
     hands of the producer is counted by `enqueued`.

  3. **The channel.**  A call of the channel is a call of the queue with accesses to the counter around
     it. `PushRel` and `PopRel` say where in it a side is, and `ChannelInv` is the equation with these two
     as its correction.
-/
import Rtipc.Channel
import Rtipc.PopOnly

namespace Rtipc

/-! ## The number of unread messages

  The slots behind the tail, the tail among them if it is not consumed. -/

/-- How many slots the chain leads through from `idx` on, counting up to `k`. -/
def chainLength (chain : Index → Index) : Nat → Index → Nat
  | 0, _ => 0
  | k + 1, idx => if idx = indexInvalid then 0 else chainLength chain k (chain idx) + 1

/-- The number of messages that have been pushed and not been taken: those on the chain from the tail
    on, without the tail if it is consumed. -/
def QueueMem.unread (nMsgs : Nat) (m : QueueMem) : Nat :=
  if m.tail = indexInvalid then 0
  else chainLength m.chain nMsgs (if m.tail.consumed then m.chain m.tail.slot else m.tail.slot)

/-- The same number, for the list of slots. -/
def unreadSlots (r : Ring) (tp : Nat) (tail : Index) : Nat :=
  if tail = indexInvalid then 0 else r.hi - unreadFrom tp tail

section count

variable {n : Nat} {r : Ring} {tp : Nat} {ph ph' : ProducerPhase} {cph cph' : ConsumerPhase}
  {m m' : QueueMem} {o : QueueOutcome}

/-- The count is the number of slots that the chain leads through. -/
theorem chainLength_eq (chain : Index → Index) (k : Nat) (idx : Index) :
    chainLength chain k idx = (Window.follow chain indexInvalid k idx).length := by
  induction k generalizing idx with
  | zero => rfl
  | succ k ih =>
    by_cases hidx : idx = indexInvalid
    · rw [hidx, Window.follow_stop]
      exact if_pos rfl
    · rw [chainLength, if_neg hidx, Window.follow_succ hidx, List.length_cons, ih]

/-- There are never more slots on the list than in the queue. -/
theorem RingInv.hi_le_lo (h : RingInv n r ph) : r.hi ≤ r.lo + n := by
  have hbefore : ∀ {p}, BeforeAppend n r p → r.hi ≤ r.lo + n := fun hp => by
    have := hp.size
    omega
  have hafter : ∀ {p}, AfterAppend n r p → r.hi ≤ r.lo + n := fun hp => by
    have := hp.size
    omega
  cases ph with
  | idle p => exact hbefore h.1
  | first1 op p next => exact hbefore h.1
  | tryLoad p next => exact hbefore h.1
  | enq1 k p next => exact hbefore h.1
  | enq2 k p next => exact hbefore h.1
  | _ => exact hafter h.1

/-- Where the walk along the unread messages begins: at the tail, or behind it if it is consumed. -/
def QueueMem.unreadStart (m : QueueMem) : Index :=
  if m.tail.consumed then m.chain m.tail.slot else m.tail.slot

/-- The walk visits the slots from the first unread position on, if the tail is at position `tp` of the
    list of slots and the shared chain links these slots. -/
theorem QueueMem.follow_unread (hlt : tp < r.hi) (hslot : m.tail.slot = r.ord tp) (hlo : r.lo ≤ tp)
    (hsize : r.hi ≤ r.lo + n) (hlink : r.Linked m.chain) (hne : ∀ j, r.ord j ≠ indexInvalid)
    (hlast : m.chain (r.ord (r.hi - 1)) = indexInvalid) :
    Window.follow m.chain indexInvalid n m.unreadStart = r.segment (unreadFrom tp m.tail) r.hi := by
  have hwalk {i : Nat} (hle : tp ≤ i) (hi : i < r.hi) :
      Window.follow m.chain indexInvalid n (r.ord i) = r.segment i r.hi :=
    hlink.follow_eq hne hlast (by omega) hi (by omega)
  rw [unreadStart, hslot, unreadFrom]
  split
  -- case: the tail itself has been taken
  · by_cases hend : tp + 1 < r.hi
    · rw [hlink tp hlo hend]
      exact hwalk (by omega) hend
    -- the walk is over before it has begun
    · obtain rfl : tp = r.hi - 1 := by omega
      rw [hlast, Window.follow_stop, Window.segment_nil (by omega)]
  -- case: the tail is the oldest unread message
  · exact hwalk le_rfl hlt

/-- So the count is that of these slots. -/
theorem QueueMem.unread_eq (h : m.tail ≠ indexInvalid →
      Window.follow m.chain indexInvalid n m.unreadStart = r.segment (unreadFrom tp m.tail) r.hi) :
    m.unread n = unreadSlots r tp m.tail := by
  unfold QueueMem.unread unreadSlots
  split
  · rfl
  · rename_i ht
    have hwalk := congrArg List.length (h ht)
    rwa [Window.length_segment, ← chainLength_eq] at hwalk

/-- At any point of a run the walk goes through the unread slots, the oldest first. -/
theorem PopInv.follow_unread {β : Type} {s : QueueState β} (hn : SizeOk n) (h : PopInv n r tp ph cph s)
    (ht : s.mem.tail ≠ indexInvalid) :
    Window.follow s.mem.chain indexInvalid n s.mem.unreadStart =
      r.segment (unreadFrom tp s.mem.tail) r.hi := by
  have hpath := h.queue.ring.path
  have hchain := h.queue.shared.chain
  -- a tail has been stored, so a message has been sent
  have hset : ph.queue.head ≠ indexInvalid := fun hh => ht (h.queue.shared.unset hh)
  obtain ⟨hlt, hslot⟩ := h.delivery.set hset
  refine QueueMem.follow_unread hlt hslot h.delivery.lo_le h.queue.ring.hi_le_lo ?_
    (fun j => hn.ne_invalid (hpath.lt j)) ((hchain _ (hpath.lt _)).trans (h.queue.ring.last hset))
  exact fun i hi hi' => (hchain _ (hpath.lt i)).trans (hpath.linked i hi hi')

/-- The count at any point of a run, for the list of slots. -/
theorem PopInv.unread {β : Type} {s : QueueState β} (hn : SizeOk n) (h : PopInv n r tp ph cph s) :
    s.mem.unread n = unreadSlots r tp s.mem.tail :=
  QueueMem.unread_eq fun ht => h.follow_unread hn ht

/-! ## What a step does to it

  An append adds one, a pop takes one away, and a moved tail takes away the message that is discarded. -/

/-- The push has put its message on the chain, and has not decided about the tail. -/
def ProducerPhase.enqueued : ProducerPhase → Bool
  | .first3 _ _ _ | .enq3 _ _ _ | .forceLoad _ _ | .requeue _ _ _ | .move _ _ _
  | .moveFull _ _ _ | .jumping _ _ => true
  | _ => false

/-- A push has returned without loss. -/
def QueueOutcome.isSuccess : QueueOutcome → Bool
  | pushed r => decide (r = .forcePush .success ∨ r = .tryPush .success)
  | _ => false

/-- The tail counts, if nobody has taken it. -/
theorem unread_free {tail : Index} (h : tail.consumed = false) : unreadSlots r tp tail = r.hi - tp := by
  rw [unreadSlots, if_neg (Index.ne_indexInvalid_of_not_consumed h), unreadFrom, h]
  rfl

/-- Otherwise the count starts behind it. -/
theorem unread_consumed {tail : Index} (ht : tail ≠ indexInvalid) (h : tail.consumed = true) :
    unreadSlots r tp tail = r.hi - (tp + 1) := by
  rw [unreadSlots, if_neg ht, unreadFrom, if_pos h]

/-- A step of the producer adds a message, or discards one, or does neither. -/
theorem ProducerStep.unread {β : Type} {s : QueueState β} (hn : SizeOk n)
    (hinv : PopInv n r tp ph cph s) (hs : ProducerStep ph s.mem ph' m' o) :
    unreadSlots (r.step ph ph') (tp + ph.jump ph') m'.tail + ph.enqueued.toNat =
      unreadSlots r tp s.mem.tail + (ph'.enqueued || o.isSuccess).toNat := by
  have hring := hinv.queue.ring
  have hm := hinv.queue.shared
  have hd := hinv.delivery
  cases hs with
  -- before the first message is published nothing is unread
  | first1 =>
    have hunset := hm.unset hring.2.2.head
    simp only [unreadSlots, hunset, if_true]
    rfl
  -- the first message
  | @first2 op p next _ =>
    obtain ⟨hp, -, hhead, ho, -, hlo⟩ := hring
    have hsize := hp.size
    rw [spare_of_eq ho] at hsize
    have htp := (hd.unset hhead).1
    have hcons : (p.current ||| firstFlag).consumed = false :=
      (Index.consumed_or_firstFlag _).trans (hn.consumed hp.current_lt)
    show unreadSlots r tp (p.current ||| firstFlag) + 0 = unreadSlots r tp s.mem.tail + 1
    rw [unread_free hcons, unreadSlots, if_pos (hm.unset hhead)]
    omega
  | @first3 op _ _ _ => cases op <;> rfl
  -- a later message: the link makes it visible
  | @enq2 k p next _ =>
    obtain ⟨hp, -, hs, -⟩ := hring
    have hset := hn.ne_invalid (hs.head_lt hp.toRingPath)
    have hlt := (hd.set hset).1
    have ht := (hm.tail hset).ne_invalid
    show unreadSlots (r.append p.current) tp s.mem.tail + 0 = unreadSlots r tp s.mem.tail + 1
    simp only [unreadSlots, if_neg ht, Window.append_hi, unreadFrom]
    split <;> omega
  | loadError hv => exact absurd (hring.forceLoad_valid hn hm) hv
  -- the tail passes one unread message, which is discarded
  | @moved p next tail _ ht =>
    obtain ⟨hp, -, hhead, ho, rfl⟩ := hring
    have hslot : (r.ord r.lo).slot = r.ord r.lo := hn.slot (hp.lt _)
    have hlt := (hd.set (hhead ▸ hn.ne_invalid hp.current_lt)).1
    have hlink : p.chain (r.ord r.lo).slot = r.ord (r.lo + 1) := by
      rw [hslot]
      exact hp.link hn
    show unreadSlots (r.drop 1) (tp + 1) (p.chain (r.ord r.lo).slot) + 1 = unreadSlots r tp s.mem.tail
    rw [hlink, unread_free (hn.consumed (hp.lt _)), ht, unread_free (hn.consumed (hp.lt _)),
      Window.drop_hi]
    omega
  | @movedFull p next tail _ ht =>
    obtain ⟨hp, -, hhead, ho, hslot, hc⟩ := hring
    have hlt := (hd.set (hhead ▸ hn.ne_invalid hp.current_lt)).1
    have hlink : p.chain tail.slot = r.ord (r.lo + 1) := by
      rw [hslot]
      exact hp.link hn
    show unreadSlots (r.drop 1) (tp + 1) (p.chain tail.slot) + 1 = unreadSlots r tp s.mem.tail
    rw [hlink, unread_free (hn.consumed (hp.lt _)), ht, unread_free hc, Window.drop_hi]
    omega
  -- the tail passes the message in the hands of the consumer and one unread message
  | @overran p tail _ ht =>
    obtain ⟨hp, hhead, ho, hslot, hc⟩ := hring
    have h3 := hn.three_le
    have hhi := hp.hi_eq ho
    have hne : tail.slot ≠ indexInvalid := hslot ▸ hn.ne_invalid (hp.lt _)
    have hset : p.head ≠ indexInvalid := hhead ▸ hn.ne_invalid hp.current_lt
    have hlo := hd.at_lo hp.toRingPath hset (by rw [ht]; exact hslot)
    have hlink : p.chain (p.chain tail.slot) = r.ord (r.lo + 2) := by
      rw [hslot]
      exact hp.link_link ho hn
    rw [Ring.step_overran hne, ProducerPhase.jump_overran hne]
    show unreadSlots (r.drop 2) (tp + 2) (p.chain (p.chain tail.slot)) + 1 = unreadSlots r tp s.mem.tail
    rw [hlink, unread_free (hn.consumed (hp.lt _)),
      unread_consumed (hm.tail hset).ne_invalid (ht ▸ hc), Window.drop_hi]
    omega
  | @overLost p tail _ ht =>
    rw [ProducerPhase.jump_overLost hring.2.2.1]
    rfl
  | @requeue op _ _ _ => cases op <;> rfl
  | _ => rfl

/-- A step of a pop that finds something unread goes on, or takes a message and returns. -/
theorem ConsumerStep.unread {β : Type} {s : QueueState β} (hn : SizeOk n)
    (hinv : PopInv n r tp ph cph s) (hpos : 0 < unreadSlots r tp s.mem.tail)
    (hs : ConsumerStep cph s.mem cph' m' o) :
    (o = .silent ∧ unreadSlots r (tp + cph.jump cph') m'.tail = unreadSlots r tp s.mem.tail) ∨
    ∃ q, o = .popped q ∧ (q = .success ∨ q = .discarded) ∧
      unreadSlots r (tp + cph.jump cph') m'.tail + 1 = unreadSlots r tp s.mem.tail := by
  have hm := hinv.queue.shared
  have hc := hinv.queue.cons
  have hd := hinv.delivery
  have hreads := hc.reads
  have hflush := hinv.popOnly.noFlush
  -- Something is unread, so the tail is set.
  have hset : s.mem.tail ≠ indexInvalid := fun hinvalid => by
    rw [unreadSlots, if_pos hinvalid] at hpos
    omega
  have hlt := (hd.set fun hh => hset (hm.unset hh)).1
  cases hs with
  | popNoMsg ht => exact absurd ht hset
  | popError ht hv => exact absurd (hm.tail_ok ht).lt (hc.nMsgs ▸ hv)
  -- the tail itself was unread
  | popTail ht hv hcons =>
    refine Or.inr ⟨_, rfl, ?_, ?_⟩
    · split
      · exact Or.inl rfl
      · exact Or.inr rfl
    · show unreadSlots r tp (s.mem.tail ||| consumedFlag) + 1 = unreadSlots r tp s.mem.tail
      rw [unread_consumed (hm.tail_ok ht).or_consumed.ne_invalid
        (Index.consumed_or_consumedFlag _), unread_free hcons]
      omega
  | popNone ht hv hcons hcur => exact absurd hcur (hinv.popOnly.holder ht (Or.inl hcons))
  | popOwn ht hv hcons hcur =>
    refine Or.inl ⟨rfl, ?_⟩
    show unreadSlots r tp (s.mem.tail ||| consumedFlag) = _
    rw [Index.or_consumedFlag_of_consumed hcons]
  -- the end of the chain, though something is unread: excluded
  | popNoUpdate hnone =>
    have hempty := hinv.nothing_unread hn hnone
    rw [unreadSlots, if_neg hset] at hpos
    omega
  | @popNextError c tail _ hne hv =>
    exact absurd (hinv.queue.next_lt hreads.1 hne) (hc.nMsgs ▸ hv)
  | popNext => exact Or.inl ⟨rfl, rfl⟩
  -- the next position
  | @popTaken c tail next _ ht =>
    obtain ⟨-, -, hcons, -, hnextlt⟩ := hreads
    have hlt' := (hinv.follows.2 ht).1
    refine Or.inr ⟨_, rfl, Or.inl rfl, ?_⟩
    show unreadSlots r (tp + 1) (next ||| consumedFlag) + 1 = unreadSlots r tp s.mem.tail
    rw [unread_consumed (TailOk.of_lt hn hnextlt).or_consumed.ne_invalid
      (Index.consumed_or_consumedFlag _), unread_consumed hset (ht ▸ hcons)]
    omega
  | popLost => exact Or.inl ⟨rfl, rfl⟩
  | popMovedError hv => exact absurd hreads.2 (hc.nMsgs ▸ hv)
  -- the position the producer has moved the tail to
  | popMoved hv =>
    have hv' : s.mem.tail.toNat < n := hc.nMsgs ▸ hv
    refine Or.inr ⟨_, rfl, Or.inr rfl, ?_⟩
    show unreadSlots r tp (s.mem.tail ||| consumedFlag) + 1 = unreadSlots r tp s.mem.tail
    rw [unread_consumed (hm.tail_ok hset).or_consumed.ne_invalid (Index.consumed_or_consumedFlag _),
      unread_free (hn.consumed hv')]
    omega
  | _ => exact absurd trivial hflush

end count

/-! ## The channel follows the queue

  A call of the channel accesses the counter before or after the call of the queue.  At each point in
  between the equation has a correction of one. -/

section channel

variable {β : Type} {n : Nat} {r : Ring} {tp : Nat} {ph : ProducerPhase} {cph : ConsumerPhase}
  {q : QueueState β} {s s' : ChannelState β} {fd fd' : Int} {o : QueueOutcome}

/-- What is left of a push when `prog` is left of the push of the queue. -/
def afterPush (β : Type) (fd : Int) (op : PushOp) (prog : QueueProg (ProducerQueue × PushResult)) :
    ChannelProg β (Producer β × PushResult) :=
  onQueue prog >>= fun x =>
    ({ queue := x.1, eventfd := fd, cache := none } : Producer β).signal op x.2

/-- What is left of a pop when `prog` is left of the pop of the queue. -/
def afterPop (β : Type) (fd : Int) (prog : QueueProg (ConsumerQueue × Loop PopResult)) :
    ChannelProg β (Consumer × PopResult) :=
  onQueue prog >>= fun x => match x with
    | (c, .done y) => .ret ({ queue := c, eventfd := fd }, y)
    | (_, .again) => .fault

/-- A push of a channel without a cache is the push of the queue, and then the write of the counter. -/
theorem push_code (op : PushOp) (p : ProducerQueue) :
    ({ queue := p, eventfd := fd, cache := none } : Producer β).push op =
      afterPush β fd op (op.prog p) := by
  cases op <;> rfl

/-- A pop of a channel is a read of the counter, and then the pop of the queue. -/
theorem pop_code (hfd : 0 ≤ fd) (c : ConsumerQueue) :
    ({ queue := c, eventfd := fd } : Consumer).pop (β := β) =
      .act .eventfdRead fun ok => if ok then afterPop β fd (PopOp.pop.prog c)
        else .ret ({ queue := c, eventfd := fd }, if c.msg.isSome then .noUpdate else .noMsg) := by
  rw [Consumer.pop, if_pos hfd, Prog.perform_bind]
  refine congrArg (Prog.act _) (funext fun ok => ?_)
  cases ok with
  | false => rfl
  | true =>
    show _ = afterPop β fd (c.pop >>= fun x => .ret (x.1, .done x.2))
    rw [afterPop, onQueue_bind, Prog.bind_assoc]
    rfl

/-- Where the producer of the channel is, by the point at which the one of the queue is. -/
inductive PushRel (fd : Int) : ChannelProducerThread β → ProducerPhase → Bool → Prop
  | idle {p} : PushRel fd (.idle { queue := p, eventfd := fd, cache := none }) (.idle p) false
  | signal {op p} : PushRel fd (.busy op (.act (.eventfdWrite 1) fun _ =>
      .ret ({ queue := p, eventfd := fd, cache := none }, op.success))) (.idle p) true
  | busy {op prog ph} (h : ph.thread = .busy op prog) :
      PushRel fd (.busy op (afterPush β fd op prog)) ph ph.enqueued

/-- Where the consumer of the channel is. -/
inductive PopRel (fd : Int) : ChannelConsumerThread β → ConsumerPhase → Prop
  | idle {c} : PopRel fd (.idle { queue := c, eventfd := fd }) (.idle c)
  | read {c} : PopRel fd (.busy () (.act .eventfdRead fun ok =>
      if ok then afterPop β fd (PopOp.pop.prog c)
      else .ret ({ queue := c, eventfd := fd }, if c.msg.isSome then .noUpdate else .noMsg)))
        (.idle c)
  | busy {prog cph} (h : cph.thread = .busy .pop prog) :
      PopRel fd (.busy () (afterPop β fd prog)) cph

/-- The pop has read the counter. -/
def popping : ChannelConsumerThread β → Bool
  | .idle _ => false
  | .busy _ prog => match prog.nextOp with
    | some .eventfdRead => false
    | _ => true

/-- The queue `q` is the queue of the channel, and the counter is right. -/
structure ChannelInv (n : Nat) (q : QueueState β) (r : Ring) (tp : Nat) (ph : ProducerPhase)
    (cph : ConsumerPhase) (fd fd' : Int) (s : ChannelState β) : Prop where
  prod : q.prod = ph.thread
  cons : q.cons = cph.thread
  mem : q.mem = s.mem.queue
  inv : PopInv n r tp ph cph q
  push : PushRel fd s.prod ph s.enqueued
  pop : PopRel fd' s.cons cph
  count : unreadSlots r tp q.mem.tail = s.mem.eventfd + (popping s.cons).toNat + s.enqueued.toNat

/-- The code of a running push has an operation left. -/
theorem ProducerPhase.thread_busy {op : PushOp} {prog : QueueProg (ProducerQueue × PushResult)}
    (h : ph.thread = .busy op prog) : ∃ a f, prog = .act a f := by
  cases ph <;> cases h <;> exact ⟨_, _, rfl⟩

/-- So has that of a running pop. -/
theorem ConsumerPhase.thread_busy {op : PopOp} {prog : QueueProg (ConsumerQueue × Loop PopResult)}
    (h : cph.thread = .busy op prog) : ∃ a f, prog = .act a f := by
  cases cph <;> cases h <;> exact ⟨_, _, rfl⟩

/-- A pop does not go round again. -/
theorem ConsumerPhase.thread_pop {a : QueueOp} {f : a.Ans → QueueProg (ConsumerQueue × Loop PopResult)}
    (h : cph.thread = .busy .pop (.act a f)) (x : a.Ans) (c : ConsumerQueue) :
    f x ≠ .ret (c, .again) := by
  cases cph with
  | pop1 c =>
    cases h
    dsimp only
    split_ifs <;> intro h <;> cases h
  | pop2 c tail =>
    cases h
    dsimp only
    split_ifs <;> intro h <;> cases h
  | pop3 c tail next =>
    cases h
    cases x <;> intro h <;> cases h
  | pop4 c =>
    cases h
    dsimp only
    split_ifs <;> intro h <;> cases h
  | _ => cases h

/-- Where the producer's code stands does not change the words. -/
theorem prodAt_mem (q : QueueState β) (op : PushOp)
    (prog : QueueProg (ProducerQueue × PushResult)) : (q.prodAt op prog).1.mem = q.mem := by
  cases prog <;> rfl

/-- Nor does where the consumer's code stands. -/
theorem consAt_mem (q : QueueState β) (op : PopOp)
    (prog : QueueProg (ConsumerQueue × Loop PopResult)) : (q.consAt op prog).1.mem = q.mem := by
  rcases prog with ⟨c, _ | y⟩ | _ | _ <;> rfl

/-- A step of the producer, with what it leaves of the code. -/
theorem prodStep_code {op : PushOp} {a : QueueOp} {f : a.Ans → QueueProg (ProducerQueue × PushResult)}
    (hph : q.prod = ph.thread) (h : ph.thread = .busy op (.act a f)) :
    ∃ ph' o, ProducerStep ph q.mem ph' (a.exec q.mem).2 o ∧
      ((∃ p y, f (a.exec q.mem).1 = .ret (p, y) ∧ ph' = .idle p ∧ o = .pushed y) ∨
        ph'.thread = .busy op (f (a.exec q.mem).1) ∧ o = .silent) := by
  have hq : q.prodStep =
      some ({ q with mem := (a.exec q.mem).2 }.prodAt op (f (a.exec q.mem).1)) := by
    rw [QueueState.prodStep, hph, h]
    rfl
  obtain ⟨ph', m', hs, hq'⟩ := prodStep_cases hph hq
  have hprod := congrArg QueueState.prod hq'
  obtain rfl : (a.exec q.mem).2 = m' := (prodAt_mem _ _ _).symm.trans (congrArg QueueState.mem hq')
  refine ⟨ph', _, hs, ?_⟩
  cases hf : f (a.exec q.mem).1 with
  | ret py =>
    rw [hf] at hprod
    exact Or.inl ⟨py.1, py.2, rfl, ProducerPhase.thread_eq_idle hprod.symm, rfl⟩
  | act b g =>
    rw [hf] at hprod
    exact Or.inr ⟨hprod.symm, rfl⟩
  | fault =>
    rw [hf] at hprod
    exact Or.inr ⟨hprod.symm, rfl⟩

/-- A step of a pop, with what it leaves of the code. -/
theorem consStep_code {a : QueueOp} {f : a.Ans → QueueProg (ConsumerQueue × Loop PopResult)}
    (hcph : q.cons = cph.thread) (h : cph.thread = .busy .pop (.act a f)) :
    ∃ cph' o, ConsumerStep cph q.mem cph' (a.exec q.mem).2 o ∧
      ((∃ c y, f (a.exec q.mem).1 = .ret (c, .done y) ∧ cph' = .idle c ∧ o = .popped y) ∨
        cph'.thread = .busy .pop (f (a.exec q.mem).1) ∧ o = .silent) := by
  have hq : q.consStep =
      some ({ q with mem := (a.exec q.mem).2 }.consAt .pop (f (a.exec q.mem).1)) := by
    rw [QueueState.consStep, hcph, h]
    rfl
  obtain ⟨cph', m', hs, hq'⟩ := consStep_cases hcph hq
  have hcons := congrArg QueueState.cons hq'
  have hagain := ConsumerPhase.thread_pop h (a.exec q.mem).1
  obtain rfl : (a.exec q.mem).2 = m' := (consAt_mem _ _ _).symm.trans (congrArg QueueState.mem hq')
  refine ⟨cph', _, hs, ?_⟩
  rcases hf : f (a.exec q.mem).1 with ⟨c, _ | y⟩ | ⟨b, g⟩ | _
  · exact absurd hf (hagain c)
  · rw [hf] at hcons
    exact Or.inl ⟨c, y, rfl, ConsumerPhase.thread_eq_idle hcons.symm, rfl⟩
  · rw [hf] at hcons
    exact Or.inr ⟨hcons.symm, rfl⟩
  · rw [hf] at hcons
    exact Or.inr ⟨hcons.symm, rfl⟩

/-- The history variable says what the point of the push says. -/
theorem ProducerStep.track {ph' : ProducerPhase} {m' : QueueMem} (hn : SizeOk n)
    (hinv : PopInv n r tp ph cph q) (hs : ProducerStep ph q.mem ph' m' o) {op : PushOp}
    {a : QueueOp} {f : a.Ans → QueueProg (ProducerQueue × PushResult)}
    (h : ph.thread = .busy op (.act a f)) :
    ChannelOp.track ph.enqueued (ChannelOp.queue (β := β) a) (a.exec q.mem).1 =
      (ph'.enqueued || o.isSuccess) := by
  have hring := hinv.queue.ring
  -- What the counter tracks of an access is what the phases say was enqueued.
  cases hs with
  | first3 =>
    cases h
    cases op <;> rfl
  -- the link to the new message, told from the other stores by its value
  | @enq2 k p next _ =>
    cases h
    have hcur : p.current ≠ indexInvalid := hn.ne_invalid hring.1.current_lt
    simp [ChannelOp.track, hcur, ProducerPhase.enqueued]
  | loadError hv => exact absurd (hring.forceLoad_valid hn hinv.queue.shared) hv
  | requeue =>
    cases h
    cases op <;> simp [ChannelOp.track, ProducerPhase.enqueued, QueueOutcome.isSuccess, PushOp.success]
  | moved ht =>
    cases h
    simp only [QueueOp.exec, ht, if_true]
    rfl
  | moveLost ht =>
    cases h
    simp only [QueueOp.exec, ht, if_false]
    rfl
  | movedFull ht =>
    cases h
    simp only [QueueOp.exec, ht, if_true]
    rfl
  | moveFullLost ht =>
    cases h
    simp only [QueueOp.exec, ht, if_false]
    rfl
  | overran ht =>
    cases h
    simp only [QueueOp.exec, ht, if_true]
    rfl
  | overLost ht =>
    cases h
    simp only [QueueOp.exec, ht, if_false]
    rfl
  | _ =>
    cases h
    rfl

/-- A push that does not return its success has not succeeded. -/
theorem ProducerStep.isSuccess {ph' : ProducerPhase} {m m' : QueueMem} {op : PushOp}
    {prog : QueueProg (ProducerQueue × PushResult)} {y : PushResult}
    (hs : ProducerStep ph m ph' m' (.pushed y)) (h : ph.thread = .busy op prog) :
    (QueueOutcome.pushed y).isSuccess = decide (y = op.success) := by
  cases hs <;> cases h <;> first | rfl | (cases op <;> rfl)

/-! ### The steps -/

/-- The application writes its message. -/
theorem ChannelInv.write (h : ChannelInv n q r tp ph cph fd fd' s) {x : β}
    (hs : s.write x = some (s', o)) : ChannelInv n q r tp ph cph fd fd' s' := by
  obtain ⟨mem, prod, cons, b⟩ := s
  have hpush := h.push
  cases hpush with
  | @idle p =>
    obtain ⟨i, -, hi⟩ := Option.map_eq_some_iff.mp hs
    cases hi
    exact { h with push := .idle }
  | signal => cases hs
  | busy hthread => cases hs

/-- A push begins: no word has changed. -/
theorem ChannelInv.callPush (hn : SizeOk n) (h : ChannelInv n q r tp ph cph fd fd' s) {op : PushOp}
    (hs : s.push op = some (s', o)) :
    ∃ q' ph', ChannelInv n q' r tp ph' cph fd fd' s' := by
  obtain ⟨mem, prod, cons, b⟩ := s
  have hpush := h.push
  cases hpush with
  | @idle p =>
    cases hs
    have hcall := h.inv.queue.ring.thread_call hn op
    have henq : (ProducerPhase.call op p).enqueued = false := by
      unfold ProducerPhase.call
      split
      · rfl
      · cases op <;> rfl
    refine ⟨q.afterPush op p, .call op p, rfl, h.cons, h.mem, ?_, ?_, h.pop, h.count⟩
    · exact QueueStep.popInv (e := .push op) hn h.inv trivial .push
    · show PushRel fd (.busy op (Producer.push _ op)) (.call op p) false
      rw [push_code, ← henq]
      exact .busy hcall
  | signal => cases hs
  | busy hthread => cases hs

/-- A pop begins with the counter. -/
theorem ChannelInv.callPop (hfd : 0 ≤ fd') (h : ChannelInv n q r tp ph cph fd fd' s)
    (hs : s.pop = some (s', o)) : ChannelInv n q r tp ph cph fd fd' s' := by
  obtain ⟨mem, prod, cons, b⟩ := s
  have hpop := h.pop
  cases hpop with
  | @idle c =>
    cases hs
    have hcount := h.count
    rw [pop_code hfd]
    exact { h with pop := .read, count := hcount }
  | read => cases hs
  | busy hthread => cases hs

/-- A step of a push: one of the queue, or the write of the counter behind it. -/
theorem ChannelInv.prodStep (hn : SizeOk n) (hfd : 0 ≤ fd)
    (h : ChannelInv n q r tp ph cph fd fd' s) (hs : s.prodStep = some (s', o)) :
    ∃ q' r' tp' ph', ChannelInv n q' r' tp' ph' cph fd fd' s' := by
  obtain ⟨mem, prod, cons, b⟩ := s
  have hpush := h.push
  have hcount := h.count
  have hmem := h.mem
  dsimp only at hpush hcount hmem
  cases hpush with
  | idle => cases hs
  | @signal op p =>
    cases hs
    refine ⟨q, r, tp, .idle p, { h with push := .idle, count := ?_ }⟩
    rw [hcount]
    show mem.eventfd + (popping cons).toNat + 1 = mem.eventfd + 1 + (popping cons).toNat + 0
    omega
  | @busy op prog ph hthread =>
    obtain ⟨a, f, rfl⟩ := ProducerPhase.thread_busy hthread
    obtain ⟨ph', o', hstep, hcode⟩ := prodStep_code h.prod hthread
    have hinv : PopInv n (r.step ph ph') (tp + ph.jump ph') ph' cph (q.afterProd ph' _ o') :=
      QueueStep.popInv (e := .prodStep) hn h.inv trivial (.prodStep hstep)
    have hunread := hstep.unread hn h.inv
    have htrack := hstep.track hn h.inv hthread
    rw [hcount] at hunread
    have hafter : ∀ prod b, PushRel fd prod ph' b → (ph'.enqueued || o'.isSuccess) = b →
        ChannelInv n (q.afterProd ph' (a.exec q.mem).2 o') (r.step ph ph') (tp + ph.jump ph') ph' cph
          fd fd' { mem := { mem with queue := (a.exec q.mem).2 }, prod, cons,
                   enqueued := ph'.enqueued || o'.isSuccess } := by
      rintro prod _ hrel rfl
      refine ⟨rfl, h.cons, rfl, hinv, hrel, h.pop, ?_⟩
      show unreadSlots _ _ (a.exec q.mem).2.tail =
        mem.eventfd + (popping cons).toNat + (ph'.enqueued || o'.isSuccess).toNat
      omega
    replace hs : some (({
        mem := { mem with queue := (a.exec mem.queue).2 }
        prod := .busy op (afterPush β fd op (.act a f))
        cons := cons
        enqueued := ChannelOp.track ph.enqueued (ChannelOp.queue (β := β) a) (a.exec mem.queue).1 } :
          ChannelState β).prodAt op (afterPush β fd op (f (a.exec mem.queue).1))) = some (s', o) := hs
    rw [← hmem, htrack] at hs
    rcases hcode with ⟨p, y, hf, rfl, rfl⟩ | ⟨hthread', rfl⟩
    · rw [hf] at hs
      have hret : afterPush β fd op (.ret (p, y)) =
          ({ queue := p, eventfd := fd, cache := none } : Producer β).signal op y := rfl
      rw [hret, Producer.signal] at hs
      have hsucc := hstep.isSuccess hthread
      -- only a push that succeeds adds to the counter, in a step of its own
      by_cases hy : y = op.success
      · subst hy
        rw [if_pos ⟨hfd, rfl⟩] at hs
        cases hs
        exact ⟨_, _, _, _, hafter _ _ .signal (hsucc.trans (decide_eq_true rfl))⟩
      · rw [if_neg fun hp => hy hp.2] at hs
        cases hs
        exact ⟨_, _, _, _, hafter _ _ .idle (hsucc.trans (decide_eq_false hy))⟩
    · obtain ⟨b, g, hact⟩ := ProducerPhase.thread_busy hthread'
      rw [hact] at hs hthread'
      cases hs
      exact ⟨_, _, _, _, hafter _ _ (.busy hthread') (Bool.or_false _)⟩

/-- A step of a pop: the read of the counter in front of it, or one of the queue. A pop that has read
    the counter finds a message. -/
theorem ChannelInv.consStep (hn : SizeOk n) (h : ChannelInv n q r tp ph cph fd fd' s)
    (hs : s.consStep = some (s', o)) :
    (∃ q' tp' cph', ChannelInv n q' r tp' ph cph' fd fd' s') ∧
    (popping s.cons = true → ∀ y, o = .popped y → y = .success ∨ y = .discarded) := by
  obtain ⟨mem, prod, cons, b⟩ := s
  have hpop := h.pop
  have hcount := h.count
  have hmem := h.mem
  dsimp only at hpop hcount hmem
  cases hpop with
  | idle => cases hs
  | @read c =>
    refine ⟨?_, fun hpopping => by cases hpopping⟩
    -- the read fails on a counter of 0, and the pop does not go on
    by_cases hzero : mem.eventfd = 0
    · simp only [ChannelState.consStep, ChannelOp.exec, hzero, if_true] at hs
      cases hs
      exact ⟨q, tp, .idle c, { h with pop := .idle, count := hcount }⟩
    · simp only [ChannelState.consStep, ChannelOp.exec, hzero, if_false, if_true,
        ConsumerPhase.code_pop] at hs
      cases hs
      refine ⟨{ q with cons := (ConsumerPhase.call .pop c).thread }, tp, .call .pop c,
        h.prod, rfl, h.mem, ?_, h.push, .busy rfl, ?_⟩
      · exact QueueStep.popInv (e := .pop .pop) hn h.inv trivial .pop
      · rw [hcount]
        show mem.eventfd + 0 + b.toNat = mem.eventfd - 1 + 1 + b.toNat
        omega
  | @busy prog cph hthread =>
    obtain ⟨a, f, rfl⟩ := ConsumerPhase.thread_busy hthread
    obtain ⟨cph', o', hstep, hcode⟩ := consStep_code h.cons hthread
    have hinv : PopInv n r (tp + cph.jump cph') ph cph' (q.afterCons cph' _ o') :=
      QueueStep.popInv (e := .consStep) hn h.inv trivial (.consStep hstep)
    -- the counter has been lowered for a message that is still to be taken
    have hpos : 0 < unreadSlots r tp q.mem.tail := by
      rw [hcount]
      show 0 < mem.eventfd + 1 + b.toNat
      omega
    have hunread := hstep.unread hn h.inv hpos
    replace hs : some (({
        mem := { mem with queue := (a.exec mem.queue).2 }
        prod := prod
        cons := .busy () (afterPop β fd' (.act a f))
        enqueued := b } : ChannelState β).consAt (afterPop β fd' (f (a.exec mem.queue).1))) =
          some (s', o) := hs
    rw [← hmem] at hs
    rw [hcount] at hunread
    -- the pop returns, or goes on
    rcases hcode with ⟨c, y, hf, rfl, rfl⟩ | ⟨hthread', rfl⟩
    · rw [hf] at hs
      cases hs
      rcases hunread with ⟨hsilent, -⟩ | ⟨y', hy, htaken, hcount'⟩
      · cases hsilent
      · cases hy
        refine ⟨⟨q.afterCons _ _ _, _, _, h.prod, rfl, rfl, hinv, h.push, .idle, ?_⟩, ?_⟩
        · show unreadSlots _ _ (a.exec q.mem).2.tail = mem.eventfd + 0 + b.toNat
          replace hcount' : unreadSlots _ _ (a.exec q.mem).2.tail + 1 = mem.eventfd + 1 + b.toNat :=
            hcount'
          omega
        · rintro - z hz
          cases hz
          exact htaken
    · obtain ⟨d, g, hact⟩ := ConsumerPhase.thread_busy hthread'
      rw [hact] at hs hthread'
      cases hs
      refine ⟨⟨q.afterCons _ _ _, _, _, h.prod, rfl, rfl, hinv, h.push, .busy hthread', ?_⟩,
        fun _ y hy => by cases hy⟩
      rcases hunread with ⟨-, hsame⟩ | ⟨y, hy, -⟩
      · exact hsame
      · cases hy

end channel

/-! ## Runs -/

section runs

variable {β : Type} {n : Nat} {s s' : ChannelState β} {o : QueueOutcome}

/-- A new channel satisfies the invariant. -/
theorem ChannelInv.of_init (hn : SizeOk n) (h : (channelSystem β n).init s) :
    ∃ q r tp ph cph fd fd', 0 ≤ fd ∧ 0 ≤ fd' ∧ ChannelInv n q r tp ph cph fd fd' s := by
  obtain ⟨q, fd, fd', hq, hfd, hfd', hs⟩ := h
  obtain ⟨p, hp⟩ := queue_created hn hq
  rw [ChannelState.onNew, hp.prod, hp.cons] at hs
  cases hs
  refine ⟨q, _, _, .idle p, .idle _, fd, fd', hfd, hfd', hp.prod, hp.cons, rfl, hp.popInv hn, .idle,
    .idle, ?_⟩
  rw [unreadSlots, if_pos hp.memTail]
  rfl

/-- Every step of the channel keeps it. -/
theorem ChannelInv.step {q : QueueState β} {r : Ring} {tp : Nat} {ph : ProducerPhase}
    {cph : ConsumerPhase} {fd fd' : Int} (hn : SizeOk n) (hfd : 0 ≤ fd) (hfd' : 0 ≤ fd')
    (h : ChannelInv n q r tp ph cph fd fd' s) {e : ChannelEvent β} (hs : s.step e = some (s', o)) :
    ∃ q' r' tp' ph' cph', ChannelInv n q' r' tp' ph' cph' fd fd' s' := by
  cases e with
  | write x => exact ⟨_, _, _, _, _, h.write hs⟩
  | push op =>
    obtain ⟨q', ph', h'⟩ := h.callPush hn hs
    exact ⟨_, _, _, _, _, h'⟩
  | prodStep =>
    obtain ⟨q', r', tp', ph', h'⟩ := h.prodStep hn hfd hs
    exact ⟨_, _, _, _, _, h'⟩
  | pop => exact ⟨_, _, _, _, _, h.callPop hfd' hs⟩
  | consStep =>
    obtain ⟨⟨q', tp', cph', h'⟩, -⟩ := h.consStep hn hs
    exact ⟨_, _, _, _, _, h'⟩

/-- So it holds in every run. -/
theorem ChannelInv.of_run (hn : SizeOk n) {tr : List (ChannelEvent β × QueueOutcome)}
    (hr : (channelSystem β n).Run Machine.always tr s) :
    ∃ q r tp ph cph fd fd', 0 ≤ fd ∧ 0 ≤ fd' ∧ ChannelInv n q r tp ph cph fd fd' s := by
  refine hr.invariant (I := fun s => ∃ q r tp ph cph fd fd', 0 ≤ fd ∧ 0 ≤ fd' ∧
    ChannelInv n q r tp ph cph fd fd' s) (fun s hs => ChannelInv.of_init hn hs) ?_
  rintro s e s' o ⟨q, r, tp, ph, cph, fd, fd', hfd, hfd', h⟩ - hs
  obtain ⟨q', r', tp', ph', cph', h'⟩ := h.step hn hfd hfd' hs
  exact ⟨q', r', tp', ph', cph', fd, fd', hfd, hfd', h'⟩

/-- The counter of the eventfd is the number of unread messages, but for a pop that has read it and
    for a push that has not written it yet; and a pop that has read it takes a message. -/
theorem eventfd_counts_unread (h3 : 3 ≤ n) (hmax : n ≤ 2 ^ 30)
    {tr : List (ChannelEvent β × QueueOutcome)}
    (hr : (channelSystem β n).Run Machine.always tr s) :
    s.mem.queue.unread n = s.mem.eventfd + (popping s.cons).toNat + s.enqueued.toNat ∧
    (∀ p c, s.prod = .idle p → s.cons = .idle c → s.mem.eventfd = s.mem.queue.unread n) ∧
    ∀ s' y, popping s.cons = true → s.step .consStep = some (s', .popped y) →
      y = .success ∨ y = .discarded := by
  have hn : SizeOk n := ⟨h3, hmax⟩
  obtain ⟨q, r, tp, ph, cph, fd, fd', -, -, h⟩ := ChannelInv.of_run hn hr
  have hcount : s.mem.queue.unread n =
      s.mem.eventfd + (popping s.cons).toNat + s.enqueued.toNat := by
    rw [← h.mem, h.inv.unread hn]
    exact h.count
  refine ⟨hcount, fun p c hp hc => ?_, fun s' y hpopping hs => (h.consStep hn hs).2 hpopping y rfl⟩
  have hpush := h.push
  rw [hp] at hpush
  generalize henq : s.enqueued = b at hpush hcount
  cases hpush
  rw [hc] at hcount
  exact hcount.symm

end runs

/-- A push has returned, a pop has read the counter, and the next push has put its message on the
    chain: two messages are unread, and the counter is 0. -/
theorem eventfd_counts_unread_both_busy :
    ∃ tr s, (channelSystem Nat 3).Run Machine.always tr s ∧ s.mem.eventfd = 0 ∧
      s.mem.queue.unread 3 = 2 := by
  obtain ⟨tr, s, hr, h⟩ := ChannelState.exists_run 3 0
    [.push .forcePush, .prodStep, .prodStep, .prodStep, .prodStep, .pop, .consStep,
      .push .tryPush, .prodStep, .prodStep, .prodStep]
    (fun _ s => decide (s.mem.eventfd = 0 ∧ popping s.cons = true ∧ s.enqueued = true)) (by decide)
  obtain ⟨hcounter, hpopping, henqueued⟩ := of_decide_eq_true h
  have hcount := (eventfd_counts_unread (by decide) (by decide) hr).1
  rw [hcounter, hpopping, henqueued] at hcount
  exact ⟨tr, s, hr, hcounter, hcount⟩

end Rtipc
