/-
  The queue between two calls.

  As long as no call is running, the shared words and the private states determine where both sides
  stand (`Settled`), and the queue is the bounded queue `settledQueue`: the slots from the tail to the
  end of the list are unread, and the consumer holds the tail or the slot kept back for it.  Each
  operation that runs alone then returns, leaves the queue settled, and does what the operation of the
  bounded queue of capacity `n - 1` does (`Settled.push`, `Settled.pop`, `Settled.flush`).

  This is about any sequence of operations, flushes included: what goes wrong with a flush in
  `Exclusivity` needs a push that is still running.

  1. **Why it is simpler here.**  While no push is running every message on the list has been announced,
     so the bounded queue can be read off the words and the positions (`Settled.queue_unset`,
     `Settled.size_eq`).

  2. **Running alone.**  `ProducerPhase.finish` runs a push to its end.  It goes through the same points
     as in any interleaving, so the steps of `ProducerStep` are used, and the code is not unfolded
     again.

  3. **The cases of a push.**  The first one (`Settled.push_first`), one with room
     (`Settled.push_next`), one that gets a slot back (`Settled.push_requeue`), a refused one
     (`Settled.tryPush_fail`) and one that discards (`Settled.forcePush_full`).
-/
import Rtipc.AbstractQueue
import Rtipc.PopOnly

namespace Rtipc

/-- Where the two sides stand while no call is running: the tail is at position `tp`. -/
structure Settled (n : Nat) (r : Ring) (tp : Nat) (p : ProducerQueue) (c : ConsumerQueue)
    (m : QueueMem) : Prop where
  ring : RingInv n r (.idle p)
  shared : SharedInv n r (.idle p) m
  nMsgs : c.nMsgs = n
  lo_le : r.lo ≤ tp
  unset : p.head = indexInvalid → c.current = indexInvalid ∧ tp + 1 = n
  set : p.head ≠ indexInvalid → tp < r.hi ∧ m.tail.slot = r.ord tp
  taken : p.head ≠ indexInvalid → m.tail.consumed = true → c.current = r.ord tp
  free : p.head ≠ indexInvalid → m.tail.consumed = false → c.current = p.overrun
  moved : p.head ≠ indexInvalid → m.tail.consumed = false → m.tail.first = false → tp = r.lo

/-- The bounded queue, for messages `f` in the slots. -/
def settledQueue {γ : Type} (r : Ring) (tp : Nat) (c : ConsumerQueue) (m : QueueMem)
    (f : Index → γ) : BoundedQueue γ where
  unread := (r.segment (unreadFrom tp m.tail) r.hi).map f
  held := if c.current = indexInvalid then none else some (f c.current)
  gap := !m.tail.consumed && !m.tail.first

section settled

variable {γ : Type} {n : Nat} {r r' : Ring} {tp : Nat} {p p' : ProducerQueue} {c : ConsumerQueue}
  {m m' : QueueMem} {f : Index → γ}

/-! ## What the words say

  Between two calls nothing is under way, and each word is determined by the positions. -/

/-- A queue that has just been made is settled, on the chain that `ri_producer_queue_new` has filled. -/
theorem Created.settled {β : Type} {s : QueueState β} (hn : SizeOk n) (h : Created n s p) :
    Settled n (Ring.fresh n) (n - 1) p (ConsumerQueue.new n) s.mem := by
  have h3 := hn.three_le
  have hinv := h.queueInv hn
  exact ⟨hinv.ring, hinv.shared, rfl, Nat.zero_le _, fun _ => ⟨rfl, by omega⟩,
    fun hh => absurd h.head hh, fun hh => absurd h.head hh, fun hh => absurd h.head hh,
    fun hh => absurd h.head hh⟩

/-- Before the first push there is no tail. -/
theorem Settled.tail_unset (h : Settled n r tp p c m) (hh : p.head = indexInvalid) :
    m.tail = indexInvalid := h.shared.unset hh

/-- Afterwards the tail is a slot. -/
theorem Settled.tail_ok (h : Settled n r tp p c m) (hh : p.head ≠ indexInvalid) :
    TailOk n m.tail := h.shared.tail hh

/-- The private chain of the producer, apart from where the current slot points. -/
theorem Settled.before (h : Settled n r tp p c m) : BeforeAppend n r p := h.ring.1

/-- The current slot points to the oldest slot of the chain. -/
theorem Settled.next_eq (h : Settled n r tp p c m) : p.chain p.current = r.ord r.lo := h.ring.2.1

/-- The chain of the producer after the first push. -/
theorem Settled.steady (h : Settled n r tp p c m) (hh : p.head ≠ indexInvalid) : Steady r p :=
  h.ring.2.2.resolve_left fun hf => hh hf.head

/-- The chain of the producer before it. -/
theorem Settled.fresh (hn : SizeOk n) (h : Settled n r tp p c m) (hh : p.head = indexInvalid) :
    Fresh n r p :=
  h.ring.2.2.resolve_right fun hs => hn.ne_invalid (hs.head_lt h.before.toRingPath) hh

/-- A slot is kept back only while there is a message. -/
theorem Settled.overrun_unset (hn : SizeOk n) (h : Settled n r tp p c m)
    (hh : p.head = indexInvalid) : p.overrun = indexInvalid := (h.fresh hn hh).overrun

/-- The next slot is the tail's exactly if the tail is at the front of the list. -/
theorem Settled.next_tail (hn : SizeOk n) (h : Settled n r tp p c m) (hh : p.head ≠ indexInvalid) :
    p.chain p.current = m.tail.slot ↔ tp = r.lo := by
  have hlt := h.before.one_le hn
  obtain ⟨htp, hslot⟩ := h.set hh
  rw [h.next_eq, hslot]
  constructor
  · intro heq
    exact (h.before.nodup r.lo tp le_rfl (by omega) h.lo_le htp heq).symm
  · intro heq
    rw [heq]

/-- With a slot kept back and the tail not consumed, the tail is at the front of the list. -/
theorem Settled.blocked (hn : SizeOk n) (h : Settled n r tp p c m) (hh : p.head ≠ indexInvalid)
    (ho : p.overrun ≠ indexInvalid) (hc : m.tail.consumed = false) : m.tail = r.ord r.lo ∧ tp = r.lo := by
  have htail := h.shared.blocked ho hc
  refine ⟨htail, h.moved hh hc ?_⟩
  rw [htail]
  exact hn.first (h.before.lt _)

/-- The consumer holds a slot exactly if the tail is consumed or a slot is kept back. -/
theorem Settled.current_iff (hn : SizeOk n) (h : Settled n r tp p c m) (hh : p.head ≠ indexInvalid) :
    c.current ≠ indexInvalid ↔ m.tail.consumed = true ∨ p.overrun ≠ indexInvalid := by
  cases hc : m.tail.consumed with
  | true =>
    rw [h.taken hh hc]
    exact ⟨fun _ => Or.inl rfl, fun _ => hn.ne_invalid (h.before.lt _)⟩
  | false =>
    rw [h.free hh hc]
    exact ⟨Or.inr, fun hor => hor.resolve_left (by decide)⟩

/-- The consumer never holds the producer's current slot. -/
theorem Settled.current_ne (hn : SizeOk n) (h : Settled n r tp p c m) : c.current ≠ p.current := by
  by_cases hh : p.head = indexInvalid
  · rw [(h.unset hh).1]
    exact (hn.ne_invalid h.before.current_lt).symm
  · cases hc : m.tail.consumed with
    | true =>
      rw [h.taken hh hc]
      exact fun he => h.before.current_off (he ▸ Window.mem_ord h.lo_le (h.set hh).1)
    | false =>
      rw [h.free hh hc]
      exact h.before.current_ne.symm

/-- The slot the consumer holds is one of the queue. -/
theorem Settled.current_lt (h : Settled n r tp p c m)
    (hcur : c.current ≠ indexInvalid) : c.current.toNat < n := by
  have hh : p.head ≠ indexInvalid := fun hh => hcur (h.unset hh).1
  cases hc : m.tail.consumed with
  | true =>
    rw [h.taken hh hc]
    exact h.before.lt _
  | false =>
    have hfree := h.free hh hc
    rw [hfree] at hcur ⊢
    exact h.before.over_lt hcur

/-- `ri_producer_queue_msg` is the current slot. -/
theorem Settled.prod_msg (h : Settled n r tp p c m) : p.msg = some p.current :=
  queueGetMsg_of_lt (h.before.nMsgs.symm ▸ h.before.current_lt)

/-- `ri_consumer_queue_msg` is the slot the consumer holds. -/
theorem Settled.cons_msg (h : Settled n r tp p c m) :
    c.msg.map f = (settledQueue r tp c m f).held := by
  unfold ConsumerQueue.msg settledQueue
  by_cases hcur : c.current = indexInvalid
  · rw [if_pos hcur, if_pos hcur]
    rfl
  · rw [if_neg hcur, if_neg hcur, h.nMsgs, queueGetMsg_of_lt (h.current_lt hcur)]
    rfl

/-- The shared chain between the slots. -/
theorem Settled.chain_next (h : Settled n r tp p c m) {i : Nat} (hlo : r.lo ≤ i)
    (hi : i + 1 < r.hi) : m.chain (r.ord i) = r.ord (i + 1) :=
  (h.shared.chain _ (h.before.lt i)).trans (h.before.linked i hlo hi)

/-- The shared chain ends at the newest message. -/
theorem Settled.chain_last (h : Settled n r tp p c m) (hh : p.head ≠ indexInvalid) :
    m.chain (r.ord (r.hi - 1)) = indexInvalid :=
  (h.shared.chain _ (h.before.lt _)).trans (h.ring.last hh)

/-! ## The bounded queue -/

/-- Before the first push the queue is empty. -/
theorem Settled.queue_unset (hn : SizeOk n) (h : Settled n r tp p c m) (hh : p.head = indexInvalid) :
    settledQueue r tp c m f = { unread := [], held := none, gap := false } := by
  obtain ⟨hcur, htp⟩ := h.unset hh
  have hhi := h.ring.hi_le hn hh
  have hsize := h.before.size
  rw [spare_of_eq (h.overrun_unset hn hh), (h.fresh hn hh).lo] at hsize
  have hfrom : unreadFrom tp m.tail = tp + 1 := by
    rw [unreadFrom, h.tail_unset hh, Index.consumed_indexInvalid, if_pos rfl]
  rw [settledQueue, hfrom, Window.segment_nil (by omega), if_pos hcur, h.tail_unset hh,
    Index.consumed_indexInvalid]
  rfl

/-- Only the messages in the queue and the one held matter. -/
theorem Settled.queue_congr (hn : SizeOk n) (h : Settled n r tp p c m) {f' : Index → γ}
    (heq : ∀ i, i ≠ p.current → f' i = f i) :
    settledQueue r tp c m f' = settledQueue r tp c m f := by
  have hle := le_unreadFrom tp m.tail
  have hlo := h.lo_le
  unfold settledQueue
  congr 1
  · refine List.map_congr_left fun x hx => heq x ?_
    rintro rfl
    obtain ⟨k, hk, hk', hord⟩ := Window.exists_of_mem_segment hx
    exact h.before.current_off (hord ▸ Window.mem_ord (by omega) hk')
  · rw [heq _ (h.current_ne hn)]

/-- How full the queue is: the messages from the tail on, and the slot kept back. -/
theorem Settled.size_eq (hn : SizeOk n) (h : Settled n r tp p c m) (hh : p.head ≠ indexInvalid) :
    (settledQueue r tp c m f).size =
      r.hi - tp + if m.tail.consumed then 0 else p.spare := by
  have hcur := h.current_iff hn hh
  obtain ⟨htp, -⟩ := h.set hh
  simp only [BoundedQueue.size, settledQueue, List.length_map, Window.length_segment, unreadFrom]
  cases hc : m.tail.consumed with
  | true =>
    rw [hc] at hcur
    rw [if_pos rfl, if_pos rfl, if_neg (hcur.mpr (Or.inl rfl))]
    simp only [Option.toList_some, List.length_singleton]
    omega
  | false =>
    rw [hc] at hcur
    rw [if_neg Bool.false_ne_true, if_neg Bool.false_ne_true, ProducerQueue.spare]
    by_cases ho : p.overrun = indexInvalid
    · rw [if_pos (not_not.mp fun hne => absurd (hcur.mp hne) (by simp [ho])), if_pos ho]
      rfl
    · rw [if_neg (hcur.mpr (Or.inr ho)), if_neg ho]
      rfl

/-- The queue is full exactly if the tail is at the front of the list, unless the consumer has left
    the slot kept back for it. -/
theorem Settled.size_lt_iff (hn : SizeOk n) (h : Settled n r tp p c m) (hh : p.head ≠ indexInvalid) :
    (settledQueue r tp c m f).size < n - 1 ↔
      r.lo < tp ∨ p.overrun ≠ indexInvalid ∧ m.tail.consumed = true := by
  have h3 := hn.three_le
  have hsize := h.before.size
  have hlo := h.lo_le
  rw [h.size_eq hn hh]
  by_cases ho : p.overrun = indexInvalid
  · rw [spare_of_eq ho] at hsize ⊢
    simp only [ho, ne_eq, not_true, false_and, or_false, ite_self]
    omega
  · rw [spare_of_ne ho] at hsize ⊢
    cases hc : m.tail.consumed with
    | true => simp only [ho, ne_eq, not_false_eq_true, and_self, or_true, if_true, iff_true]; omega
    | false =>
      obtain ⟨-, rfl⟩ := h.blocked hn hh ho hc
      simp only [Bool.false_eq_true, if_false, and_false, or_false]
      omega

/-- Never more than the slots but one are in use. -/
theorem Settled.size_le (hn : SizeOk n) (h : Settled n r tp p c m) :
    (settledQueue r tp c m f).size ≤ n - 1 := by
  have h3 := hn.three_le
  by_cases hh : p.head = indexInvalid
  · rw [h.queue_unset hn hh]
    exact Nat.zero_le _
  · have hsize := h.before.size
    have hlo := h.lo_le
    obtain ⟨htp, -⟩ := h.set hh
    rw [h.size_eq hn hh]
    split <;> omega

end settled

/-! ## A push that runs alone

  All its steps are steps of `ProducerStep`; here they follow one another. -/

/-- What is left of a push at this point does, on a memory that nobody else touches. -/
def ProducerPhase.finish (ph : ProducerPhase) (m : QueueMem) :
    Option ((ProducerQueue × PushResult) × QueueMem) :=
  match ph.thread with
  | .idle _ => none
  | .busy _ prog => prog.run QueueOp.exec m

/-- The push that runs alone and does `y` has come to the point `ph`. -/
structure Pushing (n : Nat) (y : Option ((ProducerQueue × PushResult) × QueueMem)) (r : Ring)
    (ph : ProducerPhase) (m : QueueMem) : Prop where
  ring : RingInv n r ph
  shared : SharedInv n r ph m
  finish : ph.finish m = y

section push

variable {γ : Type} {n : Nat} {r r' : Ring} {tp : Nat} {p p' : ProducerQueue} {c : ConsumerQueue}
  {m m' : QueueMem} {f : Index → γ} {ph ph' : ProducerPhase} {res : PushResult}
  {y : Option ((ProducerQueue × PushResult) × QueueMem)}

/-- A step inside a call does not change what the rest of the call returns. -/
theorem ProducerStep.finish_silent (hs : ProducerStep ph m ph' m' .silent) :
    ph.finish m = ph'.finish m' := by
  -- The step and the rest after it are the rest before it: the branch taken is the one the step
  -- names.
  cases hs with
  | tryRequeue hv ho hc =>
    simp only [ProducerPhase.finish, ProducerPhase.thread, ProducerPhase.codeTryLoad, Prog.run_act,
      QueueOp.exec, hv, ho, hc, not_true, ne_eq, not_false_eq_true, if_true, if_false]
  | tryNext hv ho hne =>
    simp only [ProducerPhase.finish, ProducerPhase.thread, ProducerPhase.codeTryLoad, Prog.run_act,
      QueueOp.exec, hv, ho, hne, not_true, ne_eq, not_false_eq_true, if_true, if_false]
  | loadRequeue hv ho hc =>
    simp only [ProducerPhase.finish, ProducerPhase.thread, ProducerPhase.codeForceLoad, Prog.run_act,
      QueueOp.exec, hv, ho, hc, not_true, ne_eq, not_false_eq_true, if_true, if_false]
  | loadMove hv ho hc =>
    simp only [ProducerPhase.finish, ProducerPhase.thread, ProducerPhase.codeForceLoad, Prog.run_act,
      QueueOp.exec, hv, ho, hc, not_true, ne_eq, not_false_eq_true, if_true, if_false,
      Bool.false_eq_true]
  | loadMoveFull hv ho heq hc =>
    simp only [ProducerPhase.finish, ProducerPhase.thread, ProducerPhase.codeForceLoad, Prog.run_act,
      QueueOp.exec, hv, ho, heq, hc, not_true, ne_eq, not_false_eq_true, if_true, if_false,
      Bool.false_eq_true]
  | loadOver hv ho heq hc =>
    simp only [ProducerPhase.finish, ProducerPhase.thread, ProducerPhase.codeForceLoad, Prog.run_act,
      QueueOp.exec, hv, ho, heq, hc, not_true, ne_eq, if_false]
  | moveLost ht =>
    simp only [ProducerPhase.finish, ProducerPhase.thread, ProducerPhase.codeMove, Prog.run_act,
      QueueOp.exec, ht, if_false, Bool.false_eq_true]
  | moveFullLost ht =>
    simp only [ProducerPhase.finish, ProducerPhase.thread, ProducerPhase.codeMoveFull, Prog.run_act,
      QueueOp.exec, ht, if_false, Bool.false_eq_true]
  | _ => rfl

/-- The last step of a call returns what the call returns. -/
theorem ProducerStep.finish_pushed (hs : ProducerStep ph m (.idle p') m' (.pushed res)) :
    ph.finish m = some ((p', res), m') := by
  cases hs with
  | tryError hv =>
    simp only [ProducerPhase.finish, ProducerPhase.thread, ProducerPhase.codeTryLoad, Prog.run_act,
      QueueOp.exec, hv, not_false_eq_true, if_true, Prog.run_ret]
  | tryBlocked hv ho hc =>
    simp only [ProducerPhase.finish, ProducerPhase.thread, ProducerPhase.codeTryLoad, Prog.run_act,
      QueueOp.exec, hv, ho, hc, not_true, ne_eq, not_false_eq_true, if_true, if_false, Prog.run_ret,
      Bool.false_eq_true]
  | tryFull hv ho heq =>
    simp only [ProducerPhase.finish, ProducerPhase.thread, ProducerPhase.codeTryLoad, Prog.run_act,
      QueueOp.exec, hv, ho, heq, not_true, ne_eq, if_false, Prog.run_ret]
  | loadError hv =>
    simp only [ProducerPhase.finish, ProducerPhase.thread, ProducerPhase.codeForceLoad, Prog.run_act,
      QueueOp.exec, hv, not_false_eq_true, if_true, Prog.run_ret]
  | loadNext hv ho hne =>
    simp only [ProducerPhase.finish, ProducerPhase.thread, ProducerPhase.codeForceLoad, Prog.run_act,
      QueueOp.exec, hv, ho, hne, not_true, ne_eq, not_false_eq_true, if_true, if_false, Prog.run_ret]
  | moved ht =>
    simp only [ProducerPhase.finish, ProducerPhase.thread, ProducerPhase.codeMove, Prog.run_act,
      QueueOp.exec, ht, if_true, Prog.run_ret]
  | movedFull ht =>
    simp only [ProducerPhase.finish, ProducerPhase.thread, ProducerPhase.codeMoveFull, Prog.run_act,
      QueueOp.exec, ht, if_true, Prog.run_ret]
  | overran ht =>
    simp only [ProducerPhase.finish, ProducerPhase.thread, ProducerPhase.codeOver, Prog.run_act,
      QueueOp.exec, ht, if_true, Prog.run_ret]
  | overLost ht =>
    simp only [ProducerPhase.finish, ProducerPhase.thread, ProducerPhase.codeOver, Prog.run_act,
      QueueOp.exec, ht, if_false, Bool.false_eq_true, Prog.run_ret]
  | _ => rfl

/-- The start of a push. -/
theorem Pushing.call (hn : SizeOk n) (h : RingInv n r (.idle p)) (hm : SharedInv n r (.idle p) m)
    (op : PushOp) : Pushing n ((op.prog p).run QueueOp.exec m) r (.call op p) m where
  ring := h.call hn op
  shared := hm.call op
  finish := by
    unfold ProducerPhase.finish
    rw [h.thread_call hn op]

/-- A step of a push. -/
theorem Pushing.step (hn : SizeOk n) (h : Pushing n y r ph m)
    (hs : ProducerStep ph m ph' m' .silent) : Pushing n y (r.step ph ph') ph' m' :=
  ⟨hs.ringInv hn h.ring h.shared, hs.sharedInv hn h.ring h.shared, hs.finish_silent ▸ h.finish⟩

/-- The last operation of the push. -/
theorem Pushing.returns (hn : SizeOk n) (h : Pushing n y r ph m)
    (hs : ProducerStep ph m (.idle p') m' (.pushed res)) :
    y = some ((p', res), m') ∧ RingInv n (r.step ph (.idle p')) (.idle p') ∧
      SharedInv n (r.step ph (.idle p')) (.idle p') m' :=
  ⟨h.finish ▸ hs.finish_pushed, hs.ringInv hn h.ring h.shared, hs.sharedInv hn h.ring h.shared⟩

/-- The two stores of `enqueue_msg` that append the current message to the chain. -/
theorem Pushing.enqueue (hn : SizeOk n) {k : AfterEnqueue} {next : Index}
    (h : Pushing n y r (.enq1 k p next) m) :
    ∃ q m', Pushing n y (r.append p.current) (.enq3 k q next) m' ∧ m'.tail = m.tail ∧
      q.current = p.current ∧ q.overrun = p.overrun ∧ q.nMsgs = p.nMsgs :=
  ⟨_, _, (h.step hn .enq1).step hn .enq2, rfl, rfl, rfl, rfl⟩

/-- The state after a push that appends its message and leaves the tail. -/
theorem Settled.append (hn : SizeOk n) (h : Settled n r tp p c m) (hh : p.head ≠ indexInvalid) {k : Nat}
    (hring : RingInv n ((r.append p.current).drop k) (.idle p'))
    (hshared : SharedInv n ((r.append p.current).drop k) (.idle p') m') (htail : m'.tail = m.tail)
    (hhead : p'.head = p.current) (hlo : r.lo + k ≤ tp)
    (hfree : m.tail.consumed = false → p'.overrun = p.overrun ∧ r.lo < tp) :
    Settled n ((r.append p.current).drop k) tp p' c m' ∧
    settledQueue ((r.append p.current).drop k) tp c m' f =
      { settledQueue r tp c m f with
        unread := (settledQueue r tp c m f).unread ++ [f p.current] } := by
  obtain ⟨htp, hslot⟩ := h.set hh
  have hset : p'.head ≠ indexInvalid := hhead ▸ hn.ne_invalid h.before.current_lt
  have hord : (r.append p.current).ord tp = r.ord tp := Window.append_ord (by omega)
  constructor
  · refine ⟨hring, hshared, h.nMsgs, hlo, fun h' => absurd h' hset, fun _ => ⟨?_, ?_⟩, ?_, ?_, ?_⟩
    · exact Nat.lt_succ_of_lt htp
    · rw [htail, Window.drop_ord, hord]
      exact hslot
    · -- what the consumer has taken is at the tail, as before
      intro _ hc
      rw [htail] at hc
      rw [Window.drop_ord, hord]
      exact h.taken hh hc
    · intro _ hc
      rw [htail] at hc
      rw [(hfree hc).1]
      exact h.free hh hc
    · intro _ hc hf
      rw [htail] at hc hf
      have hmoved := h.moved hh hc hf
      have hlt := (hfree hc).2
      omega
  · have hle : unreadFrom tp m.tail ≤ r.hi := by
      unfold unreadFrom
      split <;> omega
    -- the unread messages are the old ones and the new one behind them
    have hseg : (r.append p.current).segment (unreadFrom tp m.tail) r.hi =
        r.segment (unreadFrom tp m.tail) r.hi :=
      Window.segment_congr fun i _ hi => Window.append_ord (by omega)
    have hsnoc := Window.segment_snoc (w := r.append p.current) hle
    rw [hseg, Window.append_ord_hi] at hsnoc
    have hmap := congrArg (List.map f) hsnoc
    rw [List.map_append, List.map_singleton] at hmap
    unfold settledQueue
    rw [htail]
    congr 1

/-- The state after a push that moves the tail, and so discards the oldest unread message. -/
theorem Settled.discard (hn : SizeOk n) (h : Settled n r tp p c m) {k tp' : Nat}
    (hring : RingInv n ((r.append p.current).drop k) (.idle p'))
    (hshared : SharedInv n ((r.append p.current).drop k) (.idle p') m')
    (htail : m'.tail = (r.append p.current).ord tp') (hhead : p'.head = p.current)
    (hover : p'.overrun = c.current) (htp : tp' = unreadFrom tp m.tail + 1) (hlo : r.lo + k = tp')
    (hhi : tp' ≤ r.hi) :
    Settled n ((r.append p.current).drop k) tp' p' c m' ∧
    settledQueue ((r.append p.current).drop k) tp' c m' f =
      { settledQueue r tp c m f with
        unread := (settledQueue r tp c m f).unread.tail ++ [f p.current]
        gap := true } := by
  -- The new tail is a plain slot, so everything behind it is unread and a gap is to be reported.
  have hset : p'.head ≠ indexInvalid := hhead ▸ hn.ne_invalid h.before.current_lt
  have hlt : ((r.append p.current).ord tp').toNat < n := hring.path.lt tp'
  have hc : m'.tail.consumed = false := htail ▸ hn.consumed hlt
  have hf : m'.tail.first = false := htail ▸ hn.first hlt
  constructor
  · refine ⟨hring, hshared, h.nMsgs, hlo.le, fun h' => absurd h' hset, fun _ => ⟨?_, ?_⟩, ?_, ?_, ?_⟩
    · exact Nat.lt_succ_of_le hhi
    · rw [htail, hn.slot hlt]
      rfl
    · intro _ hc'
      rw [hc] at hc'
      cases hc'
    · exact fun _ _ => hover.symm
    · exact fun _ _ _ => hlo.symm
  · have hfrom : unreadFrom tp' m'.tail = tp' := by
      rw [unreadFrom, hc]
      rfl
    have hseg : (r.append p.current).segment tp' r.hi = r.segment tp' r.hi :=
      Window.segment_congr fun i _ hi => Window.append_ord (by omega)
    have hsnoc := Window.segment_snoc (w := r.append p.current) hhi
    rw [hseg, Window.append_ord_hi] at hsnoc
    -- the first of the unread messages is gone
    have htl : (r.segment (unreadFrom tp m.tail) r.hi).tail = r.segment tp' r.hi := by
      rw [Window.segment_cons (by omega), ← htp]
      rfl
    have hmap := congrArg (List.map f) hsnoc
    rw [List.map_append, List.map_singleton, ← htl, List.map_tail] at hmap
    unfold settledQueue
    rw [hfrom, hc, hf]
    congr 1

/-- What a push that runs alone does: it returns what the push of the bounded queue returns, and if
    that is a fail it has changed nothing. -/
def Pushes (n : Nat) (r : Ring) (tp : Nat) (p : ProducerQueue) (c : ConsumerQueue) (m : QueueMem)
    (f : Index → γ) (op : PushOp) : Prop :=
  ∃ p' res m' r' tp', (op.prog p).run QueueOp.exec m = some ((p', res), m') ∧
    Settled n r' tp' p' c m' ∧
    (settledQueue r tp c m f).push (n - 1) op (f p.current) =
      (settledQueue r' tp' c m' f, .pushed res) ∧
    (res = .tryPush .fail → p' = p ∧ m' = m)

/-- The first push. -/
theorem Settled.push_first (hn : SizeOk n) (h : Settled n r tp p c m) (hh : p.head = indexInvalid)
    (op : PushOp) : Pushes n r tp p c m f op := by
  have h3 := hn.three_le
  have hp := Pushing.call hn h.ring h.shared op
  rw [ProducerPhase.call_first hh] at hp
  -- The three stores of the first message.
  obtain ⟨hy, hring, hshared⟩ := ((hp.step hn .first1).step hn .first2).returns hn .first3
  obtain ⟨hcur, htp⟩ := h.unset hh
  have hfresh := h.fresh hn hh
  have hsize := h.before.size
  rw [spare_of_eq hfresh.overrun, hfresh.lo] at hsize
  have hlt := h.before.current_lt
  have hset : p.current ≠ indexInvalid := hn.ne_invalid hlt
  -- It stands at the position of the tail.
  have hord : (r.append p.current).ord tp = p.current := by
    rw [show tp = r.hi from by omega]
    exact Window.append_ord_hi
  have hc : (p.current ||| firstFlag).consumed = false :=
    (Index.consumed_or_firstFlag _).trans (hn.consumed hlt)
  refine ⟨_, _, _, _, tp, hy, ⟨hring, hshared, h.nMsgs, ?_, fun h' => absurd h' hset, fun _ => ⟨?_, ?_⟩,
    fun _ hc' => ?_, fun _ _ => hcur.trans hfresh.overrun.symm, fun _ _ hf => ?_⟩, ?_, ?_⟩
  · show r.lo + 1 ≤ tp
    rw [hfresh.lo]
    omega
  · show tp < r.hi + 1
    omega
  · exact (Index.slot_or_firstFlag _).trans ((hn.slot hlt).trans hord.symm)
  · exact absurd (hc'.symm.trans hc) (by decide)
  · exact absurd ((Index.first_or_firstFlag _).symm.trans hf) (by decide)
  · -- the abstract queue has room
    have hroom : (settledQueue r tp c m f).size < n - 1 := by
      rw [h.queue_unset hn hh]
      show 0 < n - 1
      omega
    rw [BoundedQueue.push_room hroom, h.queue_unset hn hh]
    have hseg : (r.append p.current).segment tp (r.hi + 1) = [p.current] := by
      rw [Window.segment_cons (by omega), Window.segment_nil (by omega), hord]
    have hfrom : unreadFrom tp (p.current ||| firstFlag) = tp := by
      rw [unreadFrom, hc]
      rfl
    refine Prod.ext ?_ rfl
    unfold settledQueue
    rw [if_pos hcur]
    show _ = ({ unread := List.map f ((r.append p.current).segment (unreadFrom tp
      (p.current ||| firstFlag)) (r.hi + 1)), held := none, gap := _ } : BoundedQueue γ)
    rw [hfrom, hseg, Index.first_or_firstFlag, Bool.not_true, Bool.and_false]
    rfl
  · intro hfail
    cases op <;> cases hfail

/-- A push into a queue that has room and no slot kept back. -/
theorem Settled.push_next (hn : SizeOk n) (h : Settled n r tp p c m) (hh : p.head ≠ indexInvalid)
    (ho : p.overrun = indexInvalid) (hlt : r.lo < tp) (op : PushOp) : Pushes n r tp p c m f op := by
  -- The current slot is not the oldest on the chain, so there is room for both pushes.
  have hroom := (h.size_lt_iff hn hh (f := f)).mpr (Or.inl hlt)
  have hok := h.tail_ok hh
  have hne : p.chain p.current ≠ m.tail.slot := fun he =>
    absurd ((h.next_tail hn hh).mp he) (by omega)
  have hp := Pushing.call hn h.ring h.shared op
  -- The calls differ in the order of the load of the tail and the enqueue.
  cases op with
  | tryPush =>
    rw [ProducerPhase.call_tryPush hh] at hp
    obtain ⟨q, m', hp, htail, hcur, hover, -⟩ :=
      (hp.step hn (.tryNext (h.before.nMsgs.symm ▸ hok.lt) ho hne)).enqueue hn
    obtain ⟨hy, hring, hshared⟩ := hp.returns hn .enq3Next
    obtain ⟨hs, hq⟩ := h.append hn hh (k := 1) hring hshared htail hcur (by omega)
      (fun _ => ⟨hover, hlt⟩) (f := f)
    refine ⟨_, _, _, _, _, hy, hs, ?_, fun hfail => by cases hfail⟩
    rw [BoundedQueue.push_room hroom, hq]
    rfl
  | forcePush =>
    rw [ProducerPhase.call_forcePush hh] at hp
    obtain ⟨q, m', hp, htail, hcur, hover, hq⟩ := hp.enqueue hn
    obtain ⟨hy, hring, hshared⟩ := (hp.step hn .enq3Force).returns hn
      (.loadNext (htail.symm ▸ hq.symm ▸ h.before.nMsgs.symm ▸ hok.lt) (hover.trans ho)
        (htail.symm ▸ hne))
    obtain ⟨hs, hq⟩ := h.append hn hh (k := 1) hring hshared htail hcur (by omega)
      (fun _ => ⟨hover, hlt⟩) (f := f)
    refine ⟨_, _, _, _, _, hy, hs, ?_, fun hfail => by cases hfail⟩
    rw [BoundedQueue.push_room hroom, hq]
    rfl

/-- A push after an overrun whose slot the consumer has left. -/
theorem Settled.push_requeue (hn : SizeOk n) (h : Settled n r tp p c m) (hh : p.head ≠ indexInvalid)
    (ho : p.overrun ≠ indexInvalid) (hc : m.tail.consumed = true) (op : PushOp) :
    Pushes n r tp p c m f op := by
  have hroom := (h.size_lt_iff hn hh (f := f)).mpr (Or.inr ⟨ho, hc⟩)
  have hok := h.tail_ok hh
  have hfree : m.tail.consumed = false → indexInvalid = p.overrun ∧ r.lo < tp := fun hc' =>
    absurd (hc.symm.trans hc') (by decide)
  have hp := Pushing.call hn h.ring h.shared op
  cases op with
  | tryPush =>
    rw [ProducerPhase.call_tryPush hh] at hp
    obtain ⟨q, m', hp, htail, hcur, -, -⟩ :=
      (hp.step hn (.tryRequeue (h.before.nMsgs.symm ▸ hok.lt) ho hc)).enqueue hn
    obtain ⟨hy, hring, hshared⟩ := (hp.step hn .enq3Requeue).returns hn .requeue
    obtain ⟨hs, hq⟩ := h.append hn hh (k := 0) hring hshared htail hcur h.lo_le hfree (f := f)
    refine ⟨_, _, _, _, _, hy, hs, ?_, fun hfail => by cases hfail⟩
    rw [BoundedQueue.push_room hroom, hq]
  | forcePush =>
    rw [ProducerPhase.call_forcePush hh] at hp
    obtain ⟨q, m', hp, htail, hcur, hover, hq⟩ := hp.enqueue hn
    obtain ⟨hy, hring, hshared⟩ := ((hp.step hn .enq3Force).step hn
      (.loadRequeue (htail.symm ▸ hq.symm ▸ h.before.nMsgs.symm ▸ hok.lt) (hover ▸ ho)
        (htail.symm ▸ hc))).returns hn .requeue
    obtain ⟨hs, hq⟩ := h.append hn hh (k := 0) hring hshared htail hcur h.lo_le hfree (f := f)
    refine ⟨_, _, _, _, _, hy, hs, ?_, fun hfail => by cases hfail⟩
    rw [BoundedQueue.push_room hroom, hq]

/-- `try_push` on a full queue: it reads the tail and returns. -/
theorem Settled.tryPush_fail (hn : SizeOk n) (h : Settled n r tp p c m) (hh : p.head ≠ indexInvalid)
    (hfull : ¬ (r.lo < tp ∨ p.overrun ≠ indexInvalid ∧ m.tail.consumed = true)) :
    Pushes n r tp p c m f .tryPush := by
  have hlo := h.lo_le
  have hnot : ¬ (settledQueue r tp c m f).size < n - 1 := fun hlt =>
    hfull ((h.size_lt_iff hn hh).mp hlt)
  have hok := h.tail_ok hh
  have hp := Pushing.call hn h.ring h.shared .tryPush
  rw [ProducerPhase.call_tryPush hh] at hp
  by_cases ho : p.overrun = indexInvalid
  · have heq := (h.next_tail hn hh).mpr (by omega)
    obtain ⟨hy, -⟩ := hp.returns hn (.tryFull (h.before.nMsgs.symm ▸ hok.lt) ho heq)
    exact ⟨_, _, _, _, _, hy, h, BoundedQueue.tryPush_full hnot, fun _ => ⟨rfl, rfl⟩⟩
  · have hc : m.tail.consumed = false := by
      rw [← Bool.not_eq_true]
      exact fun hc => hfull (Or.inr ⟨ho, hc⟩)
    obtain ⟨hy, -⟩ := hp.returns hn (.tryBlocked (h.before.nMsgs.symm ▸ hok.lt) ho hc)
    exact ⟨_, _, _, _, _, hy, h, BoundedQueue.tryPush_full hnot, fun _ => ⟨rfl, rfl⟩⟩

/-- `force_push` on a full queue moves the tail. -/
theorem Settled.forcePush_full (hn : SizeOk n) (h : Settled n r tp p c m)
    (hh : p.head ≠ indexInvalid)
    (hfull : ¬ (r.lo < tp ∨ p.overrun ≠ indexInvalid ∧ m.tail.consumed = true)) :
    Pushes n r tp p c m f .forcePush := by
  have h3 := hn.three_le
  have hlo := h.lo_le
  have hsize := h.before.size
  obtain rfl : tp = r.lo := by omega
  have hnot : ¬ (settledQueue r r.lo c m f).size < n - 1 := fun hlt =>
    hfull ((h.size_lt_iff hn hh).mp hlt)
  have hok := h.tail_ok hh
  obtain ⟨htp, hslot⟩ := h.set hh
  have hp := Pushing.call hn h.ring h.shared .forcePush
  rw [ProducerPhase.call_forcePush hh] at hp
  obtain ⟨q, m₁, hp, htail, hcur, hover, hnum⟩ := hp.enqueue hn
  replace hp := hp.step hn .enq3Force
  have hvalid : m₁.tail.slot.toNat < q.nMsgs := by
    rw [htail, hnum, h.before.nMsgs]
    exact hok.lt
  have hlink : ∀ i, r.lo ≤ i → i < r.hi →
      q.chain (r.ord i) = (r.append p.current).ord (i + 1) := by
    intro i hi hi'
    rw [← Window.append_ord (x := p.current) (show i ≠ r.hi from by omega)]
    exact hp.ring.1.linked i hi (Nat.succ_lt_succ hi')
  cases hc : m.tail.consumed with
  | false =>
    have hfrom : unreadFrom r.lo m.tail = r.lo := by
      rw [unreadFrom, hc]
      rfl
    have hfree := h.free hh hc
    have hmoved : q.chain m.tail.slot = (r.append p.current).ord (r.lo + 1) := by
      rw [hslot, hlink _ le_rfl htp]
    -- the oldest message is discarded, with or without a slot kept back
    by_cases ho : p.overrun = indexInvalid
    · have heq : p.chain p.current = m₁.tail.slot := htail ▸ (h.next_tail hn hh).mpr rfl
      obtain ⟨hy, hring, hshared⟩ := (hp.step hn
        (.loadMoveFull hvalid (hover.trans ho) heq (htail.symm ▸ hc))).returns hn (.movedFull rfl)
      obtain ⟨hs, hq⟩ := h.discard hn (k := 1) hring hshared (htail.symm ▸ hmoved) hcur
        (hover.trans hfree.symm) (by omega) rfl (by omega) (f := f)
      refine ⟨_, _, _, _, _, hy, hs, ?_, fun hfail => by cases hfail⟩
      rw [BoundedQueue.forcePush_full hnot, hq]
    · obtain ⟨hy, hring, hshared⟩ := (hp.step hn
        (.loadMove hvalid (hover ▸ ho) (htail.symm ▸ hc))).returns hn (.moved rfl)
      obtain ⟨hs, hq⟩ := h.discard hn (k := 1) hring hshared (htail.symm ▸ hmoved) hcur
        (hover.trans hfree.symm) (by omega) rfl (by omega) (f := f)
      refine ⟨_, _, _, _, _, hy, hs, ?_, fun hfail => by cases hfail⟩
      rw [BoundedQueue.forcePush_full hnot, hq]
  | true =>
    -- the consumer holds the front, and no slot is kept back yet: the push jumps
    have ho : p.overrun = indexInvalid := by
      by_contra ho
      exact hfull (Or.inr ⟨ho, hc⟩)
    rw [spare_of_eq ho] at hsize
    have hfrom : unreadFrom r.lo m.tail = r.lo + 1 := by
      rw [unreadFrom, hc]
      rfl
    have hnext : q.chain m.tail.slot = r.ord (r.lo + 1) := by
      rw [hslot, hlink _ le_rfl htp, Window.append_ord (by omega)]
    have hjump : q.chain (q.chain m.tail.slot) = (r.append p.current).ord (r.lo + 2) := by
      rw [hnext, hlink _ (by omega) (by omega)]
    have heq : p.chain p.current = m₁.tail.slot := htail ▸ (h.next_tail hn hh).mpr rfl
    obtain ⟨hy, hring, hshared⟩ := (hp.step hn
      (.loadOver hvalid (hover.trans ho) heq (htail.symm ▸ hc))).returns hn (.overran rfl)
    have hspare : ({ { q with head := q.current } with
        overrun := m₁.tail.slot, current := q.chain m₁.tail.slot } : ProducerQueue).spare = 1 := by
      refine spare_of_ne ?_
      rw [htail]
      exact hn.ne_invalid hok.lt
    rw [Ring.step, hspare] at hring hshared
    obtain ⟨hs, hq⟩ := h.discard hn (k := 2) hring hshared (htail.symm ▸ hjump) hcur
      (htail.symm ▸ hslot.trans (h.taken hh hc).symm) (by omega) rfl (by omega) (f := f)
    refine ⟨_, _, _, _, _, hy, hs, ?_, fun hfail => by cases hfail⟩
    rw [BoundedQueue.forcePush_full hnot, hq]

/-- A push that runs alone does what the push of the bounded queue does. -/
theorem Settled.push (hn : SizeOk n) (h : Settled n r tp p c m) (op : PushOp) :
    Pushes n r tp p c m f op := by
  by_cases hh : p.head = indexInvalid
  · exact h.push_first hn hh op
  · by_cases hroom : r.lo < tp ∨ p.overrun ≠ indexInvalid ∧ m.tail.consumed = true
    · by_cases ho : p.overrun = indexInvalid
      · exact h.push_next hn hh ho (hroom.resolve_right fun hno => hno.1 ho) op
      · cases hc : m.tail.consumed with
        | true => exact h.push_requeue hn hh ho hc op
        | false =>
          have hlo := (h.blocked hn hh ho hc).2
          rw [hc] at hroom
          rcases hroom with hlt | ⟨-, hno⟩
          · omega
          · cases hno
    · cases op with
      | tryPush => exact h.tryPush_fail hn hh hroom
      | forcePush => exact h.forcePush_full hn hh hroom

end push

/-! ## A pop or a flush that runs alone -/

/-- All unread messages are skipped but the newest one. -/
def BoundedQueue.flush {γ : Type} (q : BoundedQueue γ) : BoundedQueue γ :=
  match q.unread.getLast? with
  | some x => { unread := [], held := some x, gap := false }
  | none => q

section pop

variable {γ : Type} {n : Nat} {r : Ring} {tp : Nat} {p : ProducerQueue} {c : ConsumerQueue}
  {m : QueueMem} {f : Index → γ}

/-- The state after the consumer has taken the slot at position `i`. -/
theorem Settled.take (hn : SizeOk n) (h : Settled n r tp p c m) (hh : p.head ≠ indexInvalid) {i : Nat}
    (hle : tp ≤ i) (hi : i < r.hi) {w : Index} (hslot : w.slot = r.ord i)
    (hc : w.consumed = true) (hok : TailOk n w) :
    Settled n r i p { c with current := r.ord i } { m with tail := w } ∧
    settledQueue r i { c with current := r.ord i } { m with tail := w } f =
      { unread := (r.segment (i + 1) r.hi).map f, held := some (f (r.ord i)), gap := false } := by
  have hlt := h.before.lt i
  constructor
  · refine ⟨h.ring, ⟨h.shared.chain, h.shared.head, fun h' => absurd h' hh, fun _ => hok, ?_⟩, h.nMsgs,
      le_trans h.lo_le hle, fun h' => absurd h' hh, fun _ => ⟨hi, hslot⟩, fun _ _ => rfl, ?_, ?_⟩
    · exact fun _ hc' => absurd (hc.symm.trans hc') (by decide)
    · exact fun _ hc' => absurd (hc.symm.trans hc') (by decide)
    · exact fun _ hc' => absurd (hc.symm.trans hc') (by decide)
  · have hfrom : unreadFrom i w = i + 1 := by
      rw [unreadFrom, hc]
      rfl
    unfold settledQueue
    rw [hfrom, if_neg (hn.ne_invalid hlt), hc]
    rfl

/-- A pop that runs alone does what the pop of the bounded queue does. -/
theorem Settled.pop (hn : SizeOk n) (h : Settled n r tp p c m) :
    ∃ c' res m' tp', c.pop.run QueueOp.exec m = some ((c', res), m') ∧ Settled n r tp' p c' m' ∧
      (settledQueue r tp c m f).pop =
        (settledQueue r tp' c' m' f,
          .popped res (if res.isTaken then c'.msg.map f else none)) := by
  by_cases hh : p.head = indexInvalid
  · have htail := h.tail_unset hh
    have hq := h.queue_unset hn hh (f := f)
    refine ⟨c, .noMsg, m, tp, ?_, h, ?_⟩
    · simp only [ConsumerQueue.pop, Prog.perform_bind, Prog.run_act, QueueOp.exec, htail, if_true,
        Prog.pure_eq, Prog.run_ret, Index.indexInvalid_or_consumedFlag]
      rw [← htail]
    · rw [hq]
      rfl
  obtain ⟨htp, hslot⟩ := h.set hh
  have hok := h.tail_ok hh
  have hlt := h.before.lt tp
  cases hc : m.tail.consumed with
  | false =>
    -- the tail has not been taken: it is the oldest unread message
    obtain ⟨hs, hq⟩ := h.take hn hh le_rfl htp (w := m.tail ||| consumedFlag)
      ((Index.slot_or_consumedFlag _).trans hslot) (by simp) hok.or_consumed (f := f)
    have hfrom : unreadFrom tp m.tail = tp := by
      rw [unreadFrom, hc]
      rfl
    refine ⟨_, if m.tail.first then .success else .discarded, _, tp, ?_, hs, ?_⟩
    · simp only [ConsumerQueue.pop, Prog.perform_bind, Prog.run_act, QueueOp.exec, hok.ne_invalid,
        hslot, h.nMsgs, hlt, hc, not_true, if_false, Bool.false_eq_true, not_false_eq_true, if_true,
        Prog.pure_eq, Prog.run_ret]
      rfl
    · have hunread : (settledQueue r tp c m f).unread =
          f (r.ord tp) :: (r.segment (tp + 1) r.hi).map f := by
        rw [settledQueue, hfrom, Window.segment_cons htp, List.map_cons]
      rw [BoundedQueue.pop_cons hunread, hs.cons_msg, hq, settledQueue, hc]
      cases m.tail.first <;> rfl
  | true =>
    have hcur := h.taken hh hc
    have hne : c.current ≠ indexInvalid := hcur ▸ hn.ne_invalid (h.before.lt tp)
    have hfrom : unreadFrom tp m.tail = tp + 1 := by
      rw [unreadFrom, hc]
      rfl
    have hmark := Index.or_consumedFlag_of_consumed hc
    by_cases hend : tp + 1 < r.hi
    · -- the next message is taken
      have hnext : m.chain c.current = r.ord (tp + 1) := hcur ▸ h.chain_next h.lo_le hend
      have hlt := h.before.lt (tp + 1)
      obtain ⟨hs, hq⟩ := h.take hn hh (Nat.le_succ tp) hend (w := r.ord (tp + 1) ||| consumedFlag)
        ((Index.slot_or_consumedFlag _).trans (hn.slot hlt)) (by simp) (TailOk.of_lt hn hlt).or_consumed
        (f := f)
      refine ⟨_, .success, _, _, ?_, hs, ?_⟩
      · simp only [ConsumerQueue.pop, Prog.perform_bind, Prog.run_act, QueueOp.exec, hok.ne_invalid,
          h.nMsgs, hok.lt, hc, not_true, if_false, hne, hnext, hn.ne_invalid hlt, hlt, hmark, if_true,
          Prog.pure_eq, Prog.run_ret]
      · have hunread : (settledQueue r tp c m f).unread =
            f (r.ord (tp + 1)) :: (r.segment (tp + 1 + 1) r.hi).map f := by
          rw [settledQueue, hfrom, Window.segment_cons hend, List.map_cons]
        rw [BoundedQueue.pop_cons hunread, hs.cons_msg, hq, settledQueue, hc]
        rfl
    · -- there is none
      have hlast : m.chain c.current = indexInvalid := by
        rw [hcur, show tp = r.hi - 1 from by omega]
        exact h.chain_last hh
      refine ⟨c, .noUpdate, m, tp, ?_, h, ?_⟩
      · simp only [ConsumerQueue.pop, Prog.perform_bind, Prog.run_act, QueueOp.exec, hok.ne_invalid,
          h.nMsgs, hok.lt, hc, not_true, if_false, hne, hlast, hmark, if_true, Prog.pure_eq, Prog.run_ret]
      · have hunread : (settledQueue r tp c m f).unread = [] := by
          rw [settledQueue, hfrom, Window.segment_nil (by omega), List.map_nil]
        rw [BoundedQueue.pop_nil hunread, settledQueue, if_neg hne]
        rfl

/-- A flush that runs alone returns after one pass. -/
theorem Settled.flush (hn : SizeOk n) (h : Settled n r tp p c m) :
    ∃ c' m' tp', c.flushPass.run QueueOp.exec m =
        some ((c', .done (if p.head = indexInvalid then .noMsg else .discarded)), m') ∧
      Settled n r tp' p c' m' ∧
      (settledQueue r tp c m f).flush = settledQueue r tp' c' m' f := by
  by_cases hh : p.head = indexInvalid
  · have htail := h.tail_unset hh
    have hq := h.queue_unset hn hh (f := f)
    refine ⟨c, m, tp, ?_, h, ?_⟩
    · simp only [ConsumerQueue.flushPass, Prog.perform_bind, Prog.run_act, QueueOp.exec, htail, hh,
        if_true, Prog.pure_eq, Prog.run_ret, Index.indexInvalid_or_consumedFlag]
      rw [← htail]
    · rw [hq]
      rfl
  obtain ⟨htp, hslot⟩ := h.set hh
  have hok := h.tail_ok hh
  have hhead : m.head = r.ord (r.hi - 1) := h.shared.head.trans (h.steady hh).head
  have hlt := h.before.lt (r.hi - 1)
  obtain ⟨hs, hq⟩ := h.take hn hh (i := r.hi - 1) (by omega) (by omega)
    (w := r.ord (r.hi - 1) ||| consumedFlag) ((Index.slot_or_consumedFlag _).trans (hn.slot hlt))
    (by simp) (TailOk.of_lt hn hlt).or_consumed (f := f)
  refine ⟨_, _, _, ?_, hs, ?_⟩
  · simp only [ConsumerQueue.flushPass, Prog.perform_bind, Prog.run_act, QueueOp.exec, hok.ne_invalid,
      h.nMsgs, hok.lt, not_true, if_false, hhead, hlt, hh, if_true, Prog.pure_eq, Prog.run_ret]
  · rw [hq, Window.segment_nil (by omega), List.map_nil]
    unfold BoundedQueue.flush
    by_cases hend : unreadFrom tp m.tail < r.hi
    · have hsnoc := Window.segment_snoc (w := r) (i := unreadFrom tp m.tail) (j := r.hi - 1) (by omega)
      rw [show r.hi - 1 + 1 = r.hi from by omega] at hsnoc
      have hunread : (settledQueue r tp c m f).unread =
          (r.segment (unreadFrom tp m.tail) (r.hi - 1)).map f ++ [f (r.ord (r.hi - 1))] := by
        rw [settledQueue, hsnoc, List.map_append, List.map_singleton]
      rw [hunread, List.getLast?_concat]
    · -- the consumer holds the newest message
      have hc : m.tail.consumed = true := by
        by_contra hc
        rw [Bool.not_eq_true] at hc
        rw [unreadFrom, hc] at hend
        exact hend htp
      have hfrom : unreadFrom tp m.tail = tp + 1 := by
        rw [unreadFrom, hc]
        rfl
      have hcur := h.taken hh hc
      rw [hfrom] at hend
      obtain rfl : tp = r.hi - 1 := by omega
      have hunread : (settledQueue r (r.hi - 1) c m f).unread = [] := by
        rw [settledQueue, hfrom, Window.segment_nil (by omega), List.map_nil]
      rw [hunread]
      unfold settledQueue
      rw [hfrom, Window.segment_nil (by omega), hc, hcur, if_neg (hn.ne_invalid hlt)]
      rfl

end pop

end Rtipc
