/-
  How many messages are in the queue?

  `ri_producer_queue_count_msgs` and `ri_consumer_queue_count_msgs` look at the flags of the tail and
  walk the chain.  Between two calls both answer the size of the bounded queue (`Settled.prod_count`,
  `Settled.cons_count`): the shortcut for a tail without any flag is taken exactly when the producer has
  moved the tail, and then the queue is full.

  `sequentialQueue` runs whole operations one after the other.  `unread` records the messages that have
  been pushed and neither taken nor discarded, and is read by nobody.

  1. **The walk.**  Both functions follow the chain from the tail.  `Listed` says what a memory must
     show for that.  `Listed.cons_walk` and `Listed.prod_walk` are the two walks, on any memory that
     shows it; the count between two calls and the count in the middle of the other side's calls both
     use them.

  2. **The count.**  `Settled.prod_count` and `Settled.cons_count` put the cases together: no tail yet,
     a moved tail, and a tail with one of its flags, from where the walk starts.

  3. **The run.**  `message_count`: after any sequence of whole operations both counts are the number of
     messages pushed and neither taken nor discarded, plus the one that the consumer holds; it lies
     between 0 and `n - 1`, and a `try_push` fails exactly at `n - 1`.
-/
import Rtipc.Settled

namespace Rtipc

/-! ## A count that runs alone -/

/-- The producer has moved the tail, and the consumer has not seen it yet. -/
abbrev QueueMem.moved (m : QueueMem) : Prop := ¬ m.tail.consumed ∧ ¬ m.tail.first

/-- The shared chain leads through the slots of the list to its end. -/
structure Listed (n : Nat) (r : Ring) (m : QueueMem) : Prop where
  lt : ∀ i, (r.ord i).toNat < n
  next : ∀ i, r.lo ≤ i → i + 1 < r.hi → m.chain (r.ord i) = r.ord (i + 1)
  last : m.chain (r.ord (r.hi - 1)) = indexInvalid

section alone

variable {n : Nat} {r : Ring} {tp : Nat} {p : ProducerQueue} {c : ConsumerQueue} {m : QueueMem}

/-- The consumer's walk, from position `i` on. -/
theorem Listed.cons_walk (hn : SizeOk n) (h : Listed n r m) (hc : c.nMsgs = n) (hm : ¬ m.moved)
    {i cnt k : Nat} (hlo : r.lo ≤ i) (hi : i < r.hi) (hk : r.hi - i ≤ k) :
    (c.countLoop (r.ord i) cnt k).run QueueOp.exec m = some (((cnt + (r.hi - i) : Nat) : Int), m) := by
  induction k generalizing i cnt with
  | zero => omega
  | succ k ih =>
    by_cases hend : i + 1 < r.hi
    · have hlt := h.lt (i + 1)
      simp only [ConsumerQueue.countLoop, Prog.perform_bind, Prog.run_act, QueueOp.exec,
        h.next i hlo hend, hn.ne_invalid hlt, hc, hlt, not_true, if_false]
      rw [ih (Nat.le_succ_of_le hlo) hend (by omega), show cnt + 1 + (r.hi - (i + 1)) =
        cnt + (r.hi - i) from by omega]
    · obtain rfl : i = r.hi - 1 := by omega
      unfold QueueMem.moved at hm
      simp only [ConsumerQueue.countLoop, Prog.perform_bind, Prog.run_act, QueueOp.exec, h.last, if_true,
        hm, if_false, Prog.pure_eq, Prog.run_ret]
      rw [show r.hi - (r.hi - 1) = 1 from by omega]
      rfl

/-- The producer's walk, from position `i` on. -/
theorem Listed.prod_walk (hn : SizeOk n) (h : Listed n r m) {i cnt k : Nat} (hlo : r.lo ≤ i)
    (hi : i < r.hi) (hk : r.hi - i < k) :
    (p.countLoop (r.ord i) cnt k).run QueueOp.exec m = some (((cnt + (r.hi - i) : Nat) : Int), m) := by
  induction k generalizing i cnt with
  | zero => omega
  | succ k ih =>
    by_cases hend : i + 1 < r.hi
    · simp only [ProducerQueue.countLoop, hn.ne_invalid (h.lt i), if_false, Prog.perform_bind,
        Prog.run_act, QueueOp.exec, h.next i hlo hend]
      rw [ih (Nat.le_succ_of_le hlo) hend (by omega), show cnt + 1 + (r.hi - (i + 1)) =
        cnt + (r.hi - i) from by omega]
    · obtain rfl : i = r.hi - 1 := by omega
      obtain ⟨k, rfl⟩ : ∃ j, k = j + 1 := ⟨k - 1, by omega⟩
      simp only [ProducerQueue.countLoop, hn.ne_invalid (h.lt _), if_false, Prog.perform_bind,
        Prog.run_act, QueueOp.exec, h.last, if_true, Prog.pure_eq, Prog.run_ret]
      rw [show r.hi - (r.hi - 1) = 1 from by omega]

/-- The tail is unset. -/
theorem cons_alone_unset (ht : m.tail = indexInvalid) :
    c.countMsgs.run QueueOp.exec m = some (0, m) := by
  simp only [ConsumerQueue.countMsgs, Prog.perform_bind, Prog.run_act, QueueOp.exec, ht, if_true,
    Prog.pure_eq, Prog.run_ret]

/-- A tail the producer has moved is set. -/
theorem moved_ne_invalid (hm : m.moved) : m.tail ≠ indexInvalid := by
  intro ht
  rw [QueueMem.moved, ht] at hm
  exact hm.1 Index.consumed_indexInvalid

/-- The tail has been moved. -/
theorem cons_alone_moved (hm : m.moved) :
    c.countMsgs.run QueueOp.exec m = some ((c.nMsgs : Int) - 1, m) := by
  have hm' : ¬ m.tail.consumed ∧ ¬ m.tail.first := hm
  simp only [ConsumerQueue.countMsgs, Prog.perform_bind, Prog.run_act, QueueOp.exec,
    moved_ne_invalid hm, hm', if_false, Prog.pure_eq, and_self]
  rfl

/-- The walk of the consumer over a chain at rest returns the messages up to the end, and changes
    nothing. -/
theorem cons_alone_walk (hn : SizeOk n) (h : Listed n r m) (hc : c.nMsgs = n) (hm : ¬ m.moved)
    (ht : m.tail ≠ indexInvalid) (hslot : m.tail.slot = r.ord tp) (hlo : r.lo ≤ tp) (htp : tp < r.hi)
    (hhi : r.hi ≤ tp + n) :
    c.countMsgs.run QueueOp.exec m = some (((r.hi - tp : Nat) : Int), m) := by
  have hlt := h.lt tp
  unfold QueueMem.moved at hm
  simp only [ConsumerQueue.countMsgs, Prog.perform_bind, Prog.run_act, QueueOp.exec, ht, hm, if_false,
    hc, hslot, hlt, not_true]
  rw [h.cons_walk hn hc hm hlo htp (by omega), Nat.zero_add]

/-- After an overrun the producer does not walk: the queue is full. -/
theorem prod_alone_moved (hp : p.head ≠ indexInvalid) (hm : m.moved) :
    p.countMsgs.run QueueOp.exec m = some ((p.nMsgs : Int) - 1, m) := by
  have hm' : ¬ m.tail.consumed ∧ ¬ m.tail.first := hm
  simp only [ProducerQueue.countMsgs, hp, Prog.perform_bind, Prog.run_act, QueueOp.exec, hm', if_false,
    Prog.pure_eq, and_self]
  rfl

/-- The walk of the producer over a chain at rest. The bound is strict, as the current slot is not on
    the chain. -/
theorem prod_alone_walk (hn : SizeOk n) (h : Listed n r m) (hp : p.head ≠ indexInvalid)
    (hnum : p.nMsgs = n) (hm : ¬ m.moved) (hslot : m.tail.slot = r.ord tp) (hlo : r.lo ≤ tp)
    (htp : tp < r.hi) (hhi : r.hi < tp + n) :
    p.countMsgs.run QueueOp.exec m = some (((r.hi - tp : Nat) : Int), m) := by
  have hlt := h.lt tp
  unfold QueueMem.moved at hm
  simp only [ProducerQueue.countMsgs, hp, Prog.perform_bind, Prog.run_act, QueueOp.exec, hm, if_false,
    hnum, hslot, hlt, not_true]
  rw [h.prod_walk hn hlo htp (by omega), Nat.zero_add]

end alone

/-! ## What the two functions count -/

section count

variable {γ : Type} {n : Nat} {r : Ring} {tp : Nat} {p : ProducerQueue} {c : ConsumerQueue}
  {m : QueueMem} {f : Index → γ}

/-- Between two calls the chain leads to the last message. -/
theorem Settled.listed (h : Settled n r tp p c m) (hh : p.head ≠ indexInvalid) : Listed n r m where
  lt := h.before.lt
  next _ hlo hi := h.chain_next hlo hi
  last := h.chain_last hh

/-- A tail without any flag has been moved by the producer: the queue is full. -/
theorem Settled.size_moved (hn : SizeOk n) (h : Settled n r tp p c m) (hh : p.head ≠ indexInvalid)
    (hc : m.tail.consumed = false) (hf : m.tail.first = false) :
    (settledQueue r tp c m f).size = n - 1 := by
  have htp := h.moved hh hc hf
  have hle := h.size_le hn (f := f)
  have hlt := (h.size_lt_iff hn hh (f := f)).mp
  by_contra hne
  rcases hlt (by omega) with hlt | ⟨-, hc'⟩
  · omega
  · exact absurd (hc.symm.trans hc') nofun

/-- A tail with a flag: the queue is what the chain leads through from the tail on. -/
theorem Settled.size_flagged (hn : SizeOk n) (h : Settled n r tp p c m) (hh : p.head ≠ indexInvalid)
    (hflag : ¬ m.moved) :
    (settledQueue r tp c m f).size = r.hi - tp := by
  rw [h.size_eq hn hh]
  cases hc : m.tail.consumed with
  | true => rfl
  | false =>
    have ho : p.overrun = indexInvalid := by
      by_contra ho
      have hfirst : m.tail.first = false := by
        rw [(h.blocked hn hh ho hc).1]
        exact hn.first (h.before.lt _)
      exact hflag ⟨by simp [hc], by simp [hfirst]⟩
    rw [if_neg Bool.false_ne_true, spare_of_eq ho]
    rfl

/-- `ri_producer_queue_count_msgs` returns the size of the queue. -/
theorem Settled.prod_count (hn : SizeOk n) (h : Settled n r tp p c m) :
    p.countMsgs.run QueueOp.exec m = some (((settledQueue r tp c m f).size : Int), m) := by
  have h3 := hn.three_le
  by_cases hh : p.head = indexInvalid
  -- case: nothing has been pushed
  · rw [h.queue_unset hn hh, ProducerQueue.countMsgs, if_pos hh]
    rfl
  have hsize := h.before.size
  have hlo := h.lo_le
  have hnum := h.before.nMsgs
  obtain ⟨htp, hslot⟩ := h.set hh
  by_cases hm : m.moved
  -- case: the queue is full
  · rw [h.size_moved hn hh (by simpa using hm.1) (by simpa using hm.2), prod_alone_moved hh hm, hnum,
      Nat.cast_sub (by omega)]
    rfl
  · rw [h.size_flagged hn hh hm,
      prod_alone_walk hn (h.listed hh) hh hnum hm hslot hlo htp (by omega)]

/-- `ri_consumer_queue_count_msgs` returns the size of the queue. -/
theorem Settled.cons_count (hn : SizeOk n) (h : Settled n r tp p c m) :
    c.countMsgs.run QueueOp.exec m = some (((settledQueue r tp c m f).size : Int), m) := by
  have h3 := hn.three_le
  by_cases hh : p.head = indexInvalid
  -- case: nothing has been pushed
  · rw [h.queue_unset hn hh]
    exact cons_alone_unset (h.tail_unset hh)
  have hsize := h.before.size
  have hlo := h.lo_le
  obtain ⟨htp, hslot⟩ := h.set hh
  by_cases hm : m.moved
  -- case: the queue is full
  · rw [h.size_moved hn hh (by simpa using hm.1) (by simpa using hm.2), cons_alone_moved hm, h.nMsgs,
      Nat.cast_sub (by omega)]
    rfl
  · rw [h.size_flagged hn hh hm, cons_alone_walk hn (h.listed hh) h.nMsgs hm
      (h.tail_ok hh).ne_invalid hslot hlo htp (by omega)]

end count

/-! ## Operations one after the other -/

/-- The queue between two calls, with its history: `unread` are the messages that have been pushed and
    neither taken nor discarded, oldest first. -/
structure SequentialQueue (β : Type) where
  mem : QueueMem
  msgs : Index → β
  prod : ProducerQueue
  cons : ConsumerQueue
  unread : List β

/-- A whole operation; a flush that takes at most `passes` passes. -/
inductive SequentialOp (β : Type) where
  | write (x : β)
  | push (op : PushOp)
  | pop
  | flush (passes : Nat)
  deriving DecidableEq, Repr

/-- The unread messages after a push of `x` with this result. -/
def PushResult.unread {β : Type} (u : List β) (x : β) : PushResult → List β
  | .forcePush .discarded => u.tail ++ [x]
  | r => if r.isPushed then u ++ [x] else u

namespace SequentialQueue

variable {β : Type}

/-- The application writes the current message. -/
def write (s : SequentialQueue β) (x : β) : Option (SequentialQueue β × QueueOutcome) :=
  s.prod.msg.map fun i => ({ s with msgs := Function.update s.msgs i x }, .silent)

/-- A whole call of a push. -/
def push (s : SequentialQueue β) (op : PushOp) : Option (SequentialQueue β × QueueOutcome) :=
  ((op.prog s.prod).run QueueOp.exec s.mem).map fun y =>
    ({ s with mem := y.2, prod := y.1.1, unread := y.1.2.unread s.unread (s.msgs s.prod.current) },
      .pushed y.1.2)

/-- A whole call of a pop. -/
def pop (s : SequentialQueue β) : Option (SequentialQueue β × QueueOutcome) :=
  (s.cons.pop.run QueueOp.exec s.mem).map fun y =>
    ({ s with
        mem := y.2, cons := y.1.1, unread := if y.1.2.isTaken then s.unread.tail else s.unread },
      .popped y.1.2)

/-- `ri_consumer_queue_flush`. -/
def flush (s : SequentialQueue β) (passes : Nat) : Option (SequentialQueue β × QueueOutcome) :=
  (Prog.runLoop QueueOp.exec ConsumerQueue.flushPass passes s.cons s.mem).map fun y =>
    ({ s with mem := y.2, cons := y.1.1, unread := if y.1.2.isTaken then [] else s.unread },
      .popped y.1.2)

/-- One whole call. -/
def step (s : SequentialQueue β) : SequentialOp β → Option (SequentialQueue β × QueueOutcome)
  | .write x => s.write x
  | .push op => s.push op
  | .pop => s.pop
  | .flush passes => s.flush passes

/-- The queue as it has been created. -/
def onNew (q : QueueState β) : Option (SequentialQueue β) :=
  match q.prod, q.cons with
  | .idle p, .idle c => some { mem := q.mem, msgs := q.msgs, prod := p, cons := c, unread := [] }
  | _, _ => none

/-- The number of messages that have been pushed and neither taken nor discarded, plus one if the
    consumer holds a message. -/
def count (s : SequentialQueue β) : Nat := s.unread.length + if s.cons.msg.isSome then 1 else 0

end SequentialQueue

/-- The queue with `nMsgs` slots, one operation after the other. -/
def sequentialQueue (β : Type) (nMsgs : Nat) :
    Machine (SequentialQueue β) (SequentialOp β) QueueOutcome where
  init s := ∃ q, (queueSystem β nMsgs).init q ∧ SequentialQueue.onNew q = some s
  step := SequentialQueue.step

/-- The operations `es`, in this order, on a queue of `nMsgs` slots created in zeroed memory. -/
def SequentialQueue.play {β : Type} (nMsgs : Nat) (x : β) (es : List (SequentialOp β)) :
    Option (List (SequentialOp β × QueueOutcome) × SequentialQueue β) :=
  (QueueState.zeroed nMsgs x).bind fun q => (SequentialQueue.onNew q).bind fun s =>
    (sequentialQueue β nMsgs).exec Machine.always es ([], s)

/-- Calls that can be played are a run. -/
theorem SequentialQueue.exists_run {β : Type} (nMsgs : Nat) (x : β) (es : List (SequentialOp β))
    (q : List (SequentialOp β × QueueOutcome) → SequentialQueue β → Bool)
    (h : (SequentialQueue.play nMsgs x es).any (fun ts => q ts.1 ts.2) = true) :
    ∃ tr s, (sequentialQueue β nMsgs).Run Machine.always tr s ∧ q tr s = true := by
  cases hplay : SequentialQueue.play nMsgs x es with
  | none =>
    rw [hplay] at h
    cases h
  | some ts =>
    rw [hplay] at h
    obtain ⟨k, hcreate, hplay⟩ := Option.bind_eq_some_iff.mp hplay
    obtain ⟨s, hnew, hexec⟩ := Option.bind_eq_some_iff.mp hplay
    have hinit : (sequentialQueue β nMsgs).init s := ⟨k, ⟨_, _, _, hcreate⟩, hnew⟩
    exact ⟨ts.1, ts.2, (Machine.Run.init hinit).exec hexec, h⟩

/-- The queue is settled, and its unread messages are those of the history. -/
def SequentialQueue.Inv {β : Type} (n : Nat) (s : SequentialQueue β) : Prop :=
  ∃ r tp, Settled n r tp s.prod s.cons s.mem ∧
    (settledQueue r tp s.cons s.mem s.msgs).unread = s.unread

section steps

variable {β : Type} {n : Nat} {s s' : SequentialQueue β} {o : QueueOutcome}

/-- What a push makes of the unread messages. -/
theorem BoundedQueue.push_unread {q q' : BoundedQueue β} {cap : Nat} {op : PushOp} {x : β}
    {res : PushResult} (h : q.push cap op x = (q', .pushed res)) :
    q'.unread = res.unread q.unread x := by
  unfold BoundedQueue.push at h
  split at h
  · cases h
    cases op <;> rfl
  · cases op <;> cases h <;> rfl

/-- What a pop makes of them. -/
theorem BoundedQueue.pop_unread {q q' : BoundedQueue β} {res : PopResult} {x : Option β}
    (h : q.pop = (q', .popped res x)) :
    q'.unread = if res.isTaken then q.unread.tail else q.unread := by
  unfold BoundedQueue.pop at h
  split at h
  · rename_i y rest heq
    cases h
    rw [heq]
    cases q.gap <;> rfl
  · cases h
    cases q.held <;> rfl

/-- After a flush nothing is unread. -/
theorem BoundedQueue.flush_unread (q : BoundedQueue β) : q.flush.unread = [] := by
  unfold BoundedQueue.flush
  split
  · rfl
  · rename_i h
    exact List.getLast?_eq_none_iff.mp h

/-- A push returns and keeps the queue settled. -/
theorem SequentialQueue.Inv.push (hn : SizeOk n) (h : s.Inv n) (op : PushOp) :
    ∃ s' res, s.push op = some (s', .pushed res) ∧ s'.Inv n := by
  obtain ⟨r, tp, hs, hu⟩ := h
  obtain ⟨p', res, m', r', tp', hrun, hs', hq, -⟩ := hs.push hn op (f := s.msgs)
  refine ⟨{ s with mem := m', prod := p', unread := res.unread s.unread (s.msgs s.prod.current) },
    res, ?_, r', tp', hs', ?_⟩
  · rw [SequentialQueue.push, hrun]
    rfl
  · rw [← hu]
    exact BoundedQueue.push_unread hq

/-- So does a pop. -/
theorem SequentialQueue.Inv.pop (hn : SizeOk n) (h : s.Inv n) :
    ∃ s' res, s.pop = some (s', .popped res) ∧ s'.Inv n := by
  obtain ⟨r, tp, hs, hu⟩ := h
  obtain ⟨c', res, m', tp', hrun, hs', hq⟩ := hs.pop hn (f := s.msgs)
  refine ⟨{ s with
      mem := m', cons := c', unread := if res.isTaken then s.unread.tail else s.unread },
    res, ?_, r, tp', hs', ?_⟩
  · rw [SequentialQueue.pop, hrun]
    rfl
  · rw [← hu]
    exact BoundedQueue.pop_unread hq

/-- So does a flush, in its first pass. -/
theorem SequentialQueue.Inv.flush (hn : SizeOk n) (h : s.Inv n) (k : Nat) :
    ∃ s' res, s.flush (k + 1) = some (s', .popped res) ∧ s'.Inv n := by
  obtain ⟨r, tp, hs, hu⟩ := h
  obtain ⟨c', m', tp', hrun, hs', hq⟩ := hs.flush hn (f := s.msgs)
  let res : PopResult := if s.prod.head = indexInvalid then .noMsg else .discarded
  refine ⟨{ s with mem := m', cons := c', unread := if res.isTaken then [] else s.unread }, res, ?_,
    r, tp', hs', ?_⟩
  · rw [SequentialQueue.flush, Prog.runLoop, hrun]
    rfl
  · have hempty : (settledQueue r tp' c' m' s.msgs).unread = [] := by
      rw [← hq]
      exact BoundedQueue.flush_unread _
    refine hempty.trans ?_
    by_cases hh : s.prod.head = indexInvalid
    · have hres : res = .noMsg := if_pos hh
      rw [← hu, hs.queue_unset hn hh, hres]
      rfl
    · have hres : res = .discarded := if_neg hh
      rw [hres]
      rfl

/-- Every operation returns, and keeps the invariant. -/
theorem SequentialQueue.Inv.step (hn : SizeOk n) (h : s.Inv n) {e : SequentialOp β}
    (hs : s.step e = some (s', o)) : s'.Inv n := by
  cases e with
  | write x =>
    obtain ⟨r, tp, hs', hu⟩ := h
    simp only [SequentialQueue.step, SequentialQueue.write, hs'.prod_msg, Option.map_some] at hs
    cases hs
    refine ⟨r, tp, hs', ?_⟩
    rw [hs'.queue_congr hn fun i hi => Function.update_of_ne hi _ _]
    exact hu
  | push op =>
    obtain ⟨t, res, ht, hinv⟩ := h.push hn op
    obtain ⟨rfl, -⟩ := Prod.mk.inj (Option.some.inj (ht.symm.trans hs))
    exact hinv
  | pop =>
    obtain ⟨t, res, ht, hinv⟩ := h.pop hn
    obtain ⟨rfl, -⟩ := Prod.mk.inj (Option.some.inj (ht.symm.trans hs))
    exact hinv
  | flush k =>
    cases k with
    | zero => cases hs
    | succ k =>
      obtain ⟨t, res, ht, hinv⟩ := h.flush hn k
      obtain ⟨rfl, -⟩ := Prod.mk.inj (Option.some.inj (ht.symm.trans hs))
      exact hinv

/-- The queue is settled after every sequence of calls. -/
theorem SequentialQueue.inv_run (hn : SizeOk n) {tr : List (SequentialOp β × QueueOutcome)}
    (hr : (sequentialQueue β n).Run Machine.always tr s) : s.Inv n := by
  refine hr.invariant (fun s hs => ?_) fun s e s' o h _ hs => h.step hn hs
  obtain ⟨q, hq, hnew⟩ := hs
  obtain ⟨p, hp⟩ := queue_created hn hq
  rw [SequentialQueue.onNew, hp.prod, hp.cons] at hnew
  cases hnew
  have hset := hp.settled hn
  exact ⟨_, _, hset, congrArg BoundedQueue.unread (hset.queue_unset hn hp.head)⟩

/-- The size of the bounded queue is the number of messages by the history. -/
theorem SequentialQueue.count_eq {r : Ring} {tp : Nat} (h : Settled n r tp s.prod s.cons s.mem)
    (hu : (settledQueue r tp s.cons s.mem s.msgs).unread = s.unread) :
    (settledQueue r tp s.cons s.mem s.msgs).size = s.count := by
  have hmsg := h.cons_msg (f := s.msgs)
  rw [BoundedQueue.size, hu, ← hmsg, SequentialQueue.count]
  cases s.cons.msg <;> rfl

end steps

/-- After any sequence of operations both sides count the messages that are in the queue, at most
    `n - 1`, and `try_push` fails exactly if there are `n - 1`. -/
theorem message_count {β : Type} {n : Nat} (h3 : 3 ≤ n) (hn : n ≤ 2 ^ 30)
    {tr : List (SequentialOp β × QueueOutcome)} {s : SequentialQueue β}
    (hr : (sequentialQueue β n).Run Machine.always tr s) :
    s.prod.countMsgs.run QueueOp.exec s.mem = some ((s.count : Int), s.mem) ∧
    s.cons.countMsgs.run QueueOp.exec s.mem = some ((s.count : Int), s.mem) ∧
    s.count ≤ n - 1 ∧
    ∃ s' res, s.push .tryPush = some (s', .pushed (.tryPush res)) ∧
      (res = .fail ↔ s.count = n - 1) := by
  have hsize : SizeOk n := ⟨h3, hn⟩
  obtain ⟨r, tp, hs, hu⟩ := SequentialQueue.inv_run hsize hr
  have hcount := SequentialQueue.count_eq hs hu
  have hle := hs.size_le hsize (f := s.msgs)
  obtain ⟨p', res, m', r', tp', hrun, -, hq, -⟩ := hs.push hsize .tryPush (f := s.msgs)
  rw [hcount] at hle
  refine ⟨hcount ▸ hs.prod_count hsize, hcount ▸ hs.cons_count hsize, hle, ?_⟩
  have hpush : s.push .tryPush = some ({ s with
      mem := m', prod := p', unread := res.unread s.unread (s.msgs s.prod.current) },
      .pushed res) := by
    rw [SequentialQueue.push, hrun]
    rfl
  by_cases hlt : s.count < n - 1
  · rw [BoundedQueue.push_room (hcount ▸ hlt)] at hq
    obtain rfl : PushResult.tryPush .success = res := QueueReply.pushed.inj (Prod.mk.inj hq).2
    exact ⟨_, .success, hpush, nofun, fun he => by omega⟩
  · rw [BoundedQueue.tryPush_full (hcount ▸ hlt)] at hq
    obtain rfl : PushResult.tryPush .fail = res := QueueReply.pushed.inj (Prod.mk.inj hq).2
    exact ⟨_, .fail, hpush, fun _ => by omega, fun _ => rfl⟩

/-- A queue of three slots, overrun while the consumer holds slot 0: one message is unread. -/
theorem message_count_overrun :
    ∃ tr s, (sequentialQueue Nat 3).Run Machine.always tr s ∧ s.prod.overrun = 0 ∧
      s.unread = [12] ∧ s.prod.countMsgs.run QueueOp.exec s.mem = some (2, s.mem) ∧
      s.cons.countMsgs.run QueueOp.exec s.mem = some (2, s.mem) := by
  obtain ⟨tr, s, hr, h⟩ := SequentialQueue.exists_run 3 0
    [.write 10, .push .forcePush, .pop, .write 11, .push .tryPush, .write 12, .push .forcePush]
    (fun _ s => decide (s.prod.overrun = 0 ∧ s.unread = [12] ∧ s.count = 2)) (by decide)
  obtain ⟨hover, hunread, hcount⟩ := of_decide_eq_true h
  obtain ⟨hprod, hcons, -⟩ := message_count (by decide) (by decide) hr
  rw [hcount] at hprod hcons
  exact ⟨tr, s, hr, hover, hunread, hprod, hcons⟩

end Rtipc
