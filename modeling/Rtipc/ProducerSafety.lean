/-
  The producer against a faulty or hostile consumer.

  The producer keeps a private copy of the chain and never follows the shared one, so whatever the
  peer writes, the private chain leads from the current slot through distinct slots to the head
  (`PrivateChain`).  Two places trust the peer nevertheless:

  * `ri_producer_queue_count_msgs` walks the shared chain and does not check the words it reads;
  * `ri_producer_queue_force_push` moves a tail that the consumer has released, with an overrun
    pending, and takes the slot this tail names as its current one.  A tail that names the message
    just pushed, or the slot kept back, breaks the private chain.

  `peerAnswer` is what the peer has to keep to in these two places; then every access stays in bounds
  (`producer_robust`).  `hostile_peer_breaks_producer` is what happens otherwise.
-/
import Rtipc.Lib.Client
import Rtipc.Lib.Window
import Rtipc.QueueRun

namespace Rtipc

/-- The calls of a producer. -/
inductive ProducerCall where
  | push (op : PushOp)
  | full
  | countMsgs
  deriving DecidableEq, Repr

/-- What the calls of a producer return. -/
inductive ProducerResult where
  | pushed (r : PushResult)
  | full (b : Bool)
  | count (k : Int)
  deriving DecidableEq, Repr

/-- The push has found the queue in an invalid state. -/
def ProducerResult.isError : ProducerResult → Bool
  | pushed (.forcePush r) => decide (r = .error)
  | pushed (.tryPush r) => decide (r = .error)
  | _ => false

/-- A push, `ri_producer_queue_full` or `ri_producer_queue_count_msgs`. -/
def ProducerCall.prog :
    ProducerCall → ProducerQueue → QueueProg (ProducerQueue × Loop ProducerResult)
  | push op, p => do
    let (p, r) ← op.prog p
    return (p, .done (.pushed r))
  | full, p => do
    let b ← p.full
    return (p, .done (.full b))
  | countMsgs, p => do
    let k ← p.countMsgs
    return (p, .done (.count k))

/-- A producer of the queue and what its last call returned. -/
abbrev ProducerClient : Type :=
  Client QueueOp QueueOp.Ans ProducerQueue ProducerCall ProducerResult

/-- A producer of a queue with `n` slots, alone with an environment that may do anything. -/
def producerClient (n : Nat) :
    Machine ProducerClient (ClientEvent QueueOp QueueOp.Ans ProducerCall) Unit :=
  clientMachine (fun p => ∃ chain m m', (ProducerQueue.new n chain).run QueueOp.exec m = some (p, m'))
    ProducerCall.prog

namespace ProducerQueue

/-- In at most `k - 1` steps the private chain leads from `idx` to the head, past slots of the queue
    and not past the slot kept back. -/
def leadsToHead (p : ProducerQueue) : Nat → Index → Bool
  | 0, _ => false
  | k + 1, idx => decide (idx.toNat < p.nMsgs ∧ idx ≠ p.overrun) &&
      (decide (idx = p.head) || p.leadsToHead k (p.chain idx))

/-- What the peer may answer to the `k`-th access of a call that began in `p`: a chain word that
    `count_msgs` is going to use names a slot or the end; a tail that `force_push` moves, with an
    overrun pending, does not name the message just pushed, and the private chain leads on from
    there. -/
def peerAnswer (p : ProducerQueue) (k : Nat) : (o : QueueOp) → o.Ans → Prop
  | .chainLoad _, r => k < p.nMsgs → r = indexInvalid ∨ BitVec.toNat r < p.nMsgs
  | .tailCompareExchange tail _, r => p.overrun ≠ indexInvalid → r = true →
      tail.slot ≠ p.current ∧ p.leadsToHead p.nMsgs tail.slot = true
  | _, _ => True

/-! ## The private chain

  Whatever the peer does, the list that the private words make up keeps its shape.  The lists here are
  windows, as in `Ring`, but nothing ties them to the shared words. -/

/-- The private chain links the slots of the list `w`; it has room for an overrun. -/
structure PrivateList (n : Nat) (w : Window Index) (p : ProducerQueue) : Prop where
  nMsgs : p.nMsgs = n
  lt : ∀ i, w.lo ≤ i → i < w.hi → (w.ord i).toNat < n
  nodup : w.Nodup
  linked : w.Linked p.chain
  size : w.lo + 3 ≤ w.hi + p.spare
  skipped : p.overrun ≠ indexInvalid → p.overrun.toNat < n ∧ ¬ w.Mem p.overrun

/-- Between two calls the list leads from the current slot to the head, or, before the first push,
    back to the current slot. -/
structure PrivateChain (n : Nat) (w : Window Index) (p : ProducerQueue) : Prop extends
    PrivateList n w p where
  front : w.ord w.lo = p.current
  last : p.head ≠ indexInvalid → w.ord (w.hi - 1) = p.head
  cycle : p.head = indexInvalid → p.overrun = indexInvalid ∧
    p.chain (w.ord (w.hi - 1)) = p.current

/-- The current message has been queued: the list leads from the next slot to it. -/
structure Queued (n : Nat) (w : Window Index) (next : Index) (p : ProducerQueue) : Prop extends
    PrivateList n w p where
  front : w.ord w.lo = next
  last : w.ord (w.hi - 1) = p.head
  head_ne : p.head ≠ indexInvalid
  stop : p.chain p.head = indexInvalid

/-- The private effect of `enqueue_msg`. -/
def enqueued (p : ProducerQueue) : ProducerQueue :=
  { (p.setChain p.current indexInvalid).setChain p.head p.current with head := p.current }

/-- The private effect of `enqueue_first_msg`. -/
def enqueuedFirst (p : ProducerQueue) : ProducerQueue :=
  { p.setChain p.current indexInvalid with head := p.current }

section list

variable {n : Nat} {w : Window Index} {next : Index} {p : ProducerQueue}

/-- A slot is not the invalid index. -/
theorem ne_invalid_of_lt (hn : n ≤ 2 ^ 30) {idx : Index} (h : idx.toNat < n) :
    idx ≠ indexInvalid := Index.ne_indexInvalid_of_lt (lt_of_lt_of_le h hn)

/-- The current slot is one of the queue. -/
theorem PrivateChain.current_lt (h : PrivateChain n w p) : p.current.toNat < n := by
  have hsize := h.size
  have hspare := spare_le p
  rw [← h.front]
  exact h.lt w.lo le_rfl (by omega)

/-- It is not on the part of the chain a consumer can still reach. -/
theorem PrivateChain.not_mem (h : PrivateChain n w p) : ¬ (w.drop 1).Mem p.current := by
  have hsize := h.size
  have hspare := spare_le p
  rw [← h.front]
  exact h.nodup.not_mem_drop le_rfl (Nat.lt_succ_self w.lo) (by omega)

/-- The head, if there is one, is a slot of the queue. -/
theorem PrivateChain.head_lt (h : PrivateChain n w p) (hhead : p.head ≠ indexInvalid) :
    p.head.toNat < n := by
  have hsize := h.size
  have hspare := spare_le p
  rw [← h.last hhead]
  exact h.lt _ (by omega) (by omega)

/-- The current slot points to the oldest slot that will be overwritten. -/
theorem PrivateChain.chain_current (h : PrivateChain n w p) :
    p.chain p.current = w.ord (w.lo + 1) := by
  have hsize := h.size
  have hspare := spare_le p
  rw [← h.front]
  exact h.linked w.lo le_rfl (by omega)

/-- The current message goes to the end of the list. -/
theorem PrivateChain.queue (hn : n ≤ 2 ^ 30) (h : PrivateChain n w p) {chain : Index → Index}
    (hlinked : ((w.drop 1).append p.current).Linked chain)
    (hstop : chain p.current = indexInvalid) :
    Queued n ((w.drop 1).append p.current) (p.chain p.current)
      { p with chain := chain, head := p.current } := by
  have hsize := h.size
  have hspare := spare_le p
  have hlast : ((w.drop 1).append p.current).ord w.hi = p.current :=
    Window.append_ord_hi (w := w.drop 1)
  have hord : ∀ i, i ≠ w.hi → ((w.drop 1).append p.current).ord i = w.ord i :=
    fun i hi => Window.append_ord (w := w.drop 1) hi
  -- The window moves on by one: the oldest slot leaves it, the current one comes in at the end.
  refine ⟨⟨h.nMsgs, ?_, (h.nodup.drop 1).append h.not_mem, hlinked, ?_, ?_⟩, ?_, ?_, ?_, hstop⟩
  · intro i hi hi'
    simp only [Window.append_lo, Window.append_hi, Window.drop_lo, Window.drop_hi] at hi hi'
    by_cases he : i = w.hi
    · rw [he, hlast]
      exact h.current_lt
    · rw [hord i he]
      exact h.lt i (by omega) (by omega)
  · show w.lo + 1 + 3 ≤ w.hi + 1 + p.spare
    omega
  · -- the slot kept back is not the one that comes in, as it is not at the front
    intro ho
    refine ⟨(h.skipped ho).1, fun hmem => (h.skipped ho).2 ?_⟩
    rcases Window.mem_append hmem with hmem | he
    · exact hmem.of_drop
    · have hmem := Window.mem_ord (w := w) le_rfl (show w.lo < w.hi by omega)
      rw [h.front] at hmem
      exact he ▸ hmem
  · rw [h.chain_current]
    exact hord (w.lo + 1) (by omega)
  · exact hlast
  · exact ne_invalid_of_lt hn h.current_lt

/-- The chain once the current slot is behind the head. -/
theorem PrivateChain.enqueued (hn : n ≤ 2 ^ 30) (h : PrivateChain n w p)
    (hhead : p.head ≠ indexInvalid) :
    Queued n ((w.drop 1).append p.current) (p.chain p.current) p.enqueued := by
  have hsize := h.size
  have hspare := spare_le p
  have hne : p.current ≠ p.head := by
    rw [← h.front, ← h.last hhead]
    exact fun he => by
      have := h.nodup w.lo (w.hi - 1) le_rfl (by omega) (by omega) (by omega) he
      omega
  refine h.queue hn ?_ ?_
  · have hold : (w.drop 1).Linked (Function.update (Function.update p.chain p.current indexInvalid)
        p.head p.current) := by
      rw [← h.last hhead]
      exact ((h.linked.drop 1).update h.not_mem).update_last (h.nodup.drop 1)
    refine hold.append fun _ => ?_
    show Function.update (Function.update p.chain p.current indexInvalid) p.head p.current
      (w.ord (w.hi - 1)) = p.current
    rw [h.last hhead, Function.update_self]
  · show Function.update (Function.update p.chain p.current indexInvalid) p.head p.current
      p.current = indexInvalid
    rw [Function.update_of_ne hne, Function.update_self]

/-- The chain once the current slot is the first message. -/
theorem PrivateChain.enqueuedFirst (hn : n ≤ 2 ^ 30) (h : PrivateChain n w p)
    (hhead : p.head = indexInvalid) :
    Queued n ((w.drop 1).append p.current) (p.chain p.current) p.enqueuedFirst := by
  have hsize := h.size
  have hspare := spare_le p
  refine h.queue hn ?_ (Function.update_self _ _ _)
  refine ((h.linked.drop 1).update h.not_mem).append fun _ => ?_
  have hne : w.ord (w.hi - 1) ≠ p.current := by
    rw [← h.front]
    exact fun he => by
      have := h.nodup (w.hi - 1) w.lo (by omega) (by omega) le_rfl (by omega) he
      omega
  show Function.update p.chain p.current indexInvalid (w.ord (w.hi - 1)) = p.current
  rw [Function.update_of_ne hne]
  exact (h.cycle hhead).2

/-! ## How a push goes on

  After the message has been queued there are four ways to get the next slot.  Three of them look at
  private words only; the last one takes the slot that the tail names (`Queued.leap`), and restores
  `PrivateChain` only if the peer has kept to `peerAnswer`. -/

/-- The next slot becomes the current one. -/
theorem Queued.useNext (h : Queued n w next p) : PrivateChain n w { p with current := next } where
  toPrivateList := { h.toPrivateList with }
  front := h.front
  last _ := h.last
  cycle hhead := absurd hhead h.head_ne

/-- The consumer has released the slot kept back: it goes in front of the list. -/
theorem Queued.requeue (h : Queued n w next p) (ho : p.overrun ≠ indexInvalid) :
    PrivateChain n (w.cons p.overrun)
      { p.setChain p.overrun next with current := p.overrun, overrun := indexInvalid } := by
  have hsize := h.size
  rw [spare_of_ne ho] at hsize
  obtain ⟨hlt, hmem⟩ := h.skipped ho
  refine ⟨⟨h.nMsgs, ?_, h.nodup.cons hmem, ?_, ?_, fun hne => absurd rfl hne⟩, ?_, fun _ => ?_,
    fun hhead => absurd hhead h.head_ne⟩
  · intro i hi hi'
    rcases Window.cons_cases hi hi' with rfl | ⟨j, rfl, hj, hj'⟩
    · rw [Window.cons_ord_lo]
      exact hlt
    · rw [Window.cons_ord_succ hj]
      exact h.lt j hj hj'
  · refine (h.linked.update hmem).cons fun _ => ?_
    rw [h.front]
    exact Function.update_self _ _ _
  · show w.lo + 3 ≤ w.hi + 1 + 0
    omega
  · exact Window.cons_ord_lo
  · show (w.cons p.overrun).ord (w.hi + 1 - 1) = p.head
    rw [← h.last, show w.hi + 1 - 1 = w.hi - 1 + 1 from by omega]
    exact Window.cons_ord_succ (by omega)

/-- The producer jumps over the next slot. -/
theorem Queued.jump (hn : n ≤ 2 ^ 30) (h : Queued n w next p) (ho : p.overrun = indexInvalid) :
    (p.chain next).toNat < n ∧
    PrivateChain n (w.drop 1) { p with overrun := next, current := p.chain next } := by
  have hsize := h.size
  rw [spare_of_eq ho] at hsize
  have hchain : p.chain next = w.ord (w.lo + 1) := by
    rw [← h.front]
    exact h.linked w.lo le_rfl (by omega)
  refine ⟨hchain ▸ h.lt (w.lo + 1) (by omega) (by omega), ⟨⟨h.nMsgs, fun i hi hi' =>
    h.lt i (Nat.le_of_add_right_le hi) hi', h.nodup.drop 1, h.linked.drop 1, ?_, fun _ => ?_⟩,
    hchain.symm, fun _ => h.last, fun hhead => absurd hhead h.head_ne⟩⟩
  · have hnext : next ≠ indexInvalid := by
      rw [← h.front]
      exact ne_invalid_of_lt hn (h.lt w.lo le_rfl (by omega))
    rw [spare_of_ne hnext]
    show w.lo + 1 + 3 ≤ w.hi + 1
    omega
  · rw [← h.front]
    exact ⟨h.lt w.lo le_rfl (by omega), h.nodup.not_mem_drop le_rfl (Nat.lt_succ_self w.lo)
      (by omega)⟩

/-- In the old chain a slot leads to the old head; in the new one it leads to the new head. -/
theorem PrivateChain.leads_enqueued (hn : n ≤ 2 ^ 30) (h : PrivateChain n w p) {k : Nat}
    {idx : Index} (hne : idx ≠ p.current) (hleads : p.leadsToHead k idx = true) :
    ∃ j, 0 < j ∧ p.enqueued.chain^[j] idx = p.current ∧ ∀ i, i ≤ j →
      (p.enqueued.chain^[i] idx).toNat < n ∧ p.enqueued.chain^[i] idx ≠ p.overrun := by
  have hsize := h.size
  have hspare := spare_le p
  have hcur : p.current ≠ p.overrun := by
    intro he
    have hmem := Window.mem_ord (w := w) le_rfl (show w.lo < w.hi by omega)
    rw [h.front, he] at hmem
    exact (h.skipped (he ▸ ne_invalid_of_lt hn h.current_lt)).2 hmem
  have hchain : ∀ idx, idx ≠ p.current → p.enqueued.chain idx =
      if idx = p.head then p.current else p.chain idx := by
    intro idx hidx
    show Function.update (Function.update p.chain p.current indexInvalid) p.head p.current idx = _
    split
    · rename_i he
      rw [he, Function.update_self]
    · rename_i he
      rw [Function.update_of_ne he, Function.update_of_ne hidx]
  -- one step is enough
  have hone : ∀ idx : Index, idx.toNat < n → idx ≠ p.overrun → p.enqueued.chain idx = p.current →
      ∃ j, 0 < j ∧ p.enqueued.chain^[j] idx = p.current ∧ ∀ i, i ≤ j →
        (p.enqueued.chain^[i] idx).toNat < n ∧ p.enqueued.chain^[i] idx ≠ p.overrun := by
    intro idx hlt hover hstep
    refine ⟨1, Nat.one_pos, hstep, fun i hi => ?_⟩
    rcases Nat.le_one_iff_eq_zero_or_eq_one.mp hi with rfl | rfl
    · exact ⟨hlt, hover⟩
    · rw [Function.iterate_one, hstep]
      exact ⟨h.current_lt, hcur⟩
  induction k generalizing idx with
  | zero => cases hleads
  | succ k ih =>
    simp only [leadsToHead, Bool.and_eq_true, Bool.or_eq_true, decide_eq_true_eq, h.nMsgs] at hleads
    obtain ⟨⟨hlt, hover⟩, hnext⟩ := hleads
    have hstep := hchain idx hne
    by_cases he : idx = p.head
    · rw [if_pos he] at hstep
      exact hone idx hlt hover hstep
    · rw [if_neg he] at hstep
      by_cases hc : p.chain idx = p.current
      · exact hone idx hlt hover (hstep.trans hc)
      · obtain ⟨j, -, hend, hpath⟩ := ih hc (hnext.resolve_left he)
        rw [← hstep] at hend hpath
        refine ⟨j + 1, Nat.succ_pos j, hend, fun i hi => ?_⟩
        cases i with
        | zero => exact ⟨hlt, hover⟩
        | succ i => exact hpath i (Nat.le_of_succ_le_succ hi)

/-- The producer takes a slot from which the private chain leads to the head. -/
theorem Queued.leap (h : Queued n w next p) (ho : p.overrun ≠ indexInvalid) {idx : Index} {j : Nat}
    (hj : 0 < j) (hend : p.chain^[j] idx = p.head)
    (hlt : ∀ i, i ≤ j → (p.chain^[i] idx).toNat < n ∧ p.chain^[i] idx ≠ p.overrun)
    (hn : n ≤ 2 ^ 30) :
    PrivateChain n (Window.walk p.chain idx j) { p with current := idx } := by
  refine ⟨⟨h.nMsgs, fun i _ hi => (hlt i (Nat.le_of_lt_succ hi)).1, Window.walk_nodup ?_,
    Window.walk_linked, ?_, fun ho => ⟨(h.skipped ho).1, ?_⟩⟩, rfl, fun _ => hend,
    fun hhead => absurd hhead h.head_ne⟩
  · intro i hi
    rw [hend, h.stop]
    exact (ne_invalid_of_lt hn (hlt i hi).1).symm
  · rw [show ({ p with current := idx } : ProducerQueue).spare = 1 from spare_of_ne ho]
    show 0 + 3 ≤ j + 1 + 1
    omega
  · rintro ⟨i, _, hi, he⟩
    exact (hlt i (Nat.le_of_lt_succ hi)).2 he

end list

/-! ## The calls

  The code is run through with arbitrary answers (`Prog.Always`). -/

/-- No call is made after an error. -/
abbrev mayCall (last : Option ProducerResult) : Prop := last.any ProducerResult.isError = false

/-- What a call leaves behind. -/
def OkAfter (n : Nat) (last : Option ProducerResult) (p : ProducerQueue) : Prop :=
  p.nMsgs = n ∧ p.current.toNat < n ∧ (mayCall last → ∃ w, PrivateChain n w p)

section calls

variable {n : Nat} {w : Window Index} {p : ProducerQueue} {k : Nat} {α : Type}

/-- What the code of a call that began in `p` guarantees. -/
abbrev Keeps {α : Type} (n : Nat) (p : ProducerQueue) (Q : α → Prop) (prog : QueueProg α) (k : Nat) :
    Prop :=
  prog.Always p.peerAnswer (fun _ o => o.InBounds n) Q k

/-- The private chain is what the producer guarantees after a call. -/
theorem OkAfter.of_chain {last : Option ProducerResult} (h : PrivateChain n w p) :
    OkAfter n last p := ⟨h.nMsgs, h.current_lt, fun _ => ⟨w, h⟩⟩

/-- Reading the copy of the chain inside its bounds. -/
theorem chainAt_of_lt {idx : Index} (h : idx.toNat < p.nMsgs) :
    p.chainAt idx = .ret (p.chain idx) := if_pos h

/-- Writing the chain inside its bounds. -/
theorem chainStore_of_lt {idx val : Index} (h : idx.toNat < p.nMsgs) :
    p.chainStore idx val = .act (.chainStore idx val) fun _ => .ret (p.setChain idx val) := if_pos h

/-- `enqueue_msg`, whatever is read. -/
theorem enqueueMsg_always (hcur : p.current.toNat < p.nMsgs) (hhead : p.head.toNat < p.nMsgs)
    {p₀ : ProducerQueue} : Keeps p.nMsgs p₀ (· = p.enqueued) p.enqueueMsg k := by
  simp only [Keeps, enqueueMsg, chainStore_of_lt hcur, Prog.act_bind, Prog.ret_bind]
  refine Prog.always_act.mpr ⟨hcur, fun _ _ => ?_⟩
  have hhead' : (p.setChain p.current indexInvalid).head.toNat <
      (p.setChain p.current indexInvalid).nMsgs := hhead
  rw [chainStore_of_lt hhead']
  exact ⟨hhead, fun _ _ => ⟨trivial, fun _ _ => rfl⟩⟩

/-- `enqueue_first_msg`, whatever is read. -/
theorem enqueueFirstMsg_always (hcur : p.current.toNat < p.nMsgs) {p₀ : ProducerQueue} :
    Keeps p.nMsgs p₀ (· = p.enqueuedFirst) p.enqueueFirstMsg k := by
  simp only [Keeps, enqueueFirstMsg, chainStore_of_lt hcur, Prog.act_bind, Prog.ret_bind]
  exact ⟨hcur, fun _ _ => ⟨trivial, fun _ _ => ⟨trivial, fun _ _ => rfl⟩⟩⟩

/-- The producer gets its next slot from the list. -/
theorem requeueOverrun_always {next : Index} {p₀ : ProducerQueue} (h : Queued n w next p)
    (ho : p.overrun ≠ indexInvalid) :
    Keeps n p₀ (∃ w, PrivateChain n w ·) (p.requeueOverrun next) k := by
  have hlt := (h.skipped ho).1
  rw [Keeps, requeueOverrun, chainStore_of_lt (h.nMsgs.symm ▸ hlt)]
  exact ⟨hlt, fun _ _ => ⟨_, h.requeue ho⟩⟩

/-- With the tail at the next slot the producer jumps over it, or takes it. -/
theorem overrunTail_always (hn : n ≤ 2 ^ 30) {next tail : Index} {p₀ : ProducerQueue}
    (h : Queued n w next p) (ho : p.overrun = indexInvalid) (htail : tail.slot = next) :
    Keeps n p₀ (fun x => ∃ w, PrivateChain n w x.1) (p.overrunTail tail) k := by
  obtain ⟨hchain, hjump⟩ := h.jump hn ho
  have hsize := h.size
  rw [spare_of_eq ho] at hsize
  have hnext : next.toNat < n := by
    rw [← h.front]
    exact h.lt w.lo le_rfl (by omega)
  rw [Keeps, overrunTail, htail, chainAt_of_lt (h.nMsgs.symm ▸ hnext), Prog.ret_bind,
    chainAt_of_lt (h.nMsgs.symm ▸ hchain), Prog.ret_bind, Prog.perform_bind]
  refine Prog.always_act.mpr ⟨trivial, fun swapped _ => ?_⟩
  split
  · exact ⟨_, hjump⟩
  · exact ⟨_, h.useNext⟩

/-- `move_tail` follows the private copy of the chain, not the shared one. -/
theorem moveTail_eq {tail : Index} (h : tail.slot.toNat < p.nMsgs) :
    p.moveTail tail = queueTailCompareExchange tail (p.chain tail.slot) := by
  rw [moveTail, chainAt_of_lt h, Prog.ret_bind]

/-- `ri_producer_queue_force_push`, whatever is read from the tail: the next slot comes from the private
    chain, or is the tail's if that is still below the number of slots. -/
theorem forcePush_always (hn : n ≤ 2 ^ 30) (h : PrivateChain n w p) :
    Keeps n p (fun x => OkAfter n (some (.pushed (.forcePush x.2))) x.1) p.forcePush k := by
  have hcur : p.current.toNat < p.nMsgs := h.nMsgs.symm ▸ h.current_lt
  have hok : ∀ {r : ForcePushResult} {q : ProducerQueue}, (∃ w, PrivateChain n w q) →
      OkAfter n (some (.pushed (.forcePush r))) q := fun ⟨_, hq⟩ => .of_chain hq
  simp only [Keeps, forcePush, chainAt_of_lt hcur, Prog.ret_bind, Prog.perform_bind]
  split
  · rename_i hhead
    refine (Prog.Always.mono ?_ (h.nMsgs ▸ enqueueFirstMsg_always hcur)).bind
    rintro _ rfl j
    exact hok ⟨_, (h.enqueuedFirst hn hhead).useNext⟩
  · rename_i hhead
    have hq := h.enqueued hn hhead
    refine (Prog.Always.mono ?_ (h.nMsgs ▸ enqueueMsg_always hcur
      (h.nMsgs.symm ▸ h.head_lt hhead))).bind
    rintro _ rfl j
    refine Prog.always_act.mpr ⟨trivial, fun tail _ => ?_⟩
    split
    · exact ⟨h.nMsgs, h.current_lt, fun herr => by cases herr⟩
    rename_i hv
    split
    · rename_i ho
      split
      · exact ((requeueOverrun_always hq ho).mono fun _ hx _ => hok hx).bind
      · rw [moveTail_eq (Decidable.not_not.mp hv), Prog.perform_bind]
        refine Prog.always_act.mpr ⟨trivial, fun swapped hans => ?_⟩
        split
        · -- the peer has said where the tail is
          obtain ⟨hne, hleads⟩ := hans ho (by assumption)
          obtain ⟨j, hj, hend, hpath⟩ := h.leads_enqueued hn hne hleads
          exact hok ⟨_, hq.leap ho hj hend hpath hn⟩
        · exact ((requeueOverrun_always hq ho).mono fun _ hx _ => hok hx).bind
    · rename_i ho
      split
      · exact hok ⟨_, hq.useNext⟩
      rename_i hfull
      have htail : tail.slot = p.chain p.current := (Decidable.not_not.mp hfull).symm
      split
      · rw [moveTail_eq (Decidable.not_not.mp hv), Prog.perform_bind]
        refine Prog.always_act.mpr ⟨trivial, fun swapped _ => ?_⟩
        split
        · exact hok ⟨_, hq.useNext⟩
        · have htail' := (Index.slot_or_consumedFlag tail).trans htail
          exact ((overrunTail_always hn hq (Decidable.not_not.mp ho) htail').mono
            fun _ hx _ => hok hx).bind
      · exact ((overrunTail_always hn hq (Decidable.not_not.mp ho) htail).mono
          fun _ hx _ => hok hx).bind

/-- `ri_producer_queue_try_push`, whatever is read. -/
theorem tryPush_always (hn : n ≤ 2 ^ 30) (h : PrivateChain n w p) :
    Keeps n p (fun x => OkAfter n (some (.pushed (.tryPush x.2))) x.1) p.tryPush k := by
  have hcur : p.current.toNat < p.nMsgs := h.nMsgs.symm ▸ h.current_lt
  have hok : ∀ {r : TryPushResult} {q : ProducerQueue}, (∃ w, PrivateChain n w q) →
      OkAfter n (some (.pushed (.tryPush r))) q := fun ⟨_, hq⟩ => .of_chain hq
  simp only [Keeps, tryPush, chainAt_of_lt hcur, Prog.ret_bind, Prog.perform_bind]
  split
  · -- the first message is stored without a look at the tail
    rename_i hhead
    refine (Prog.Always.mono ?_ (h.nMsgs ▸ enqueueFirstMsg_always hcur)).bind
    rintro _ rfl j
    exact hok ⟨_, (h.enqueuedFirst hn hhead).useNext⟩
  · rename_i hhead
    have hq := h.enqueued hn hhead
    have henqueue : ∀ j, Keeps n p (· = p.enqueued) p.enqueueMsg j := fun _ =>
      h.nMsgs ▸ enqueueMsg_always hcur (h.nMsgs.symm ▸ h.head_lt hhead)
    -- Whatever the tail says, the next slot comes from the private chain.
    refine Prog.always_act.mpr ⟨trivial, fun tail _ => ?_⟩
    split
    · exact hok ⟨_, h⟩
    split
    · rename_i ho
      split
      · refine (Prog.Always.mono ?_ (henqueue _)).bind
        rintro _ rfl j
        exact ((requeueOverrun_always hq ho).mono fun _ hx _ => hok hx).bind
      · exact hok ⟨_, h⟩
    split
    · refine (Prog.Always.mono ?_ (henqueue _)).bind
      rintro _ rfl j
      exact hok ⟨_, hq.useNext⟩
    · exact hok ⟨_, h⟩

/-- `ri_producer_queue_full`, whatever is read. -/
theorem full_always (hcur : p.current.toNat < p.nMsgs) :
    Keeps n p (fun _ => True) p.full k := by
  simp only [Keeps, full, chainAt_of_lt hcur, Prog.ret_bind, Prog.perform_bind]
  split
  · trivial
  refine Prog.always_act.mpr ⟨trivial, fun tail _ => ?_⟩
  split
  · trivial
  split <;> trivial

/-- The loop loads one chain word a round; all but the last one have to be slots. -/
theorem countLoop_always {next : Index} (hnext : next = indexInvalid ∨ next.toNat < p.nMsgs)
    (cnt j : Nat) (hj : cnt + j = p.nMsgs) :
    Keeps p.nMsgs p (fun _ => True) (p.countLoop next cnt j) (cnt + 1) := by
  induction j generalizing next cnt with
  | zero => trivial
  | succ j ih =>
    simp only [Keeps, countLoop, Prog.perform_bind]
    split
    · trivial
    rename_i hne
    refine Prog.always_act.mpr ⟨hnext.resolve_left hne, fun next' hans => ?_⟩
    cases j with
    | zero => trivial
    | succ j => exact ih (hans (by omega)) (cnt + 1) (by omega)

/-- `ri_producer_queue_count_msgs`, whatever is read. -/
theorem countMsgs_always : Keeps p.nMsgs p (fun _ => True) p.countMsgs 0 := by
  simp only [Keeps, countMsgs, Prog.perform_bind]
  split
  · trivial
  refine Prog.always_act.mpr ⟨trivial, fun tail _ => ?_⟩
  split
  · trivial
  split
  · trivial
  rename_i hv
  exact countLoop_always (Or.inr (Decidable.not_not.mp hv)) 0 p.nMsgs (Nat.zero_add _)

/-- All calls keep what the producer guarantees, under the condition on the answers. -/
theorem guarantees (hn : n ≤ 2 ^ 30) : Guarantees ProducerCall.prog (fun _ => OkAfter n) mayCall
    (fun _ => peerAnswer) (fun _ _ _ o => o.InBounds n) := by
  rintro op - last p ⟨rfl, hcur, hchain⟩ hmay
  obtain ⟨w, h⟩ := hchain hmay
  cases op with
  | push op =>
    cases op with
    | forcePush =>
      refine Prog.Always.bind (Prog.Always.bind ((forcePush_always hn h).mono fun x hx j => ?_))
      exact fun _ => hx
    | tryPush =>
      refine Prog.Always.bind (Prog.Always.bind ((tryPush_always hn h).mono fun x hx j => ?_))
      exact fun _ => hx
  | full => exact ((full_always hcur).mono fun _ _ _ => .of_chain h).bind
  | countMsgs => exact (countMsgs_always.mono fun _ _ _ => .of_chain h).bind

/-- The chain of a new producer is a cycle through all slots. -/
theorem new_chain (h3 : 3 ≤ n) (hn : n ≤ 2 ^ 30) {chain : Index → Index} {m m' : QueueMem}
    (hnew : (ProducerQueue.new n chain).run QueueOp.exec m = some (p, m')) :
    ∃ w, PrivateChain n w p := by
  have hsize : SizeOk n := ⟨h3, hn⟩
  have hinit : ∃ s, QueueState.create n m chain (fun _ => ()) = some s ∧ s.prod = .idle p := by
    simp only [QueueState.create, Prog.run_bind, hnew, Option.bind_some]
    exact ⟨_, rfl, rfl⟩
  obtain ⟨s, hs, hprod⟩ := hinit
  -- The private chain of a new queue is the one that was filled, whatever memory it started from.
  obtain ⟨q, hq⟩ := queue_created hsize (s := s) ⟨_, _, _, hs⟩
  obtain rfl := Thread.idle.inj (hprod.symm.trans hq.prod)
  have hslot : ∀ i, i < n → (BitVec.ofNat 32 i).toNat = i := fun i hi =>
    toNat_ofNat_of_lt hsize hi
  -- It is the slots in their order, and back to the first.
  have hchain : ∀ i, i < n → p.chain (BitVec.ofNat 32 i) =
      if i + 1 < n then BitVec.ofNat 32 (i + 1) else 0#32 := by
    intro i hi
    rw [hq.chain _ (by rw [hslot i hi]; exact hi), hslot i hi]
  refine ⟨{ ord := BitVec.ofNat 32, lo := 0, hi := n }, ⟨hq.nMsgs, ?_, ?_, ?_, ?_, ?_⟩, ?_, ?_, ?_⟩
  · intro i _ hi
    exact (hslot i hi).symm ▸ hi
  · intro i j _ hi _ hj he
    exact (hslot i hi).symm.trans ((congrArg BitVec.toNat he).trans (hslot j hj))
  · intro i _ hi
    rw [hchain i (Nat.lt_of_succ_lt hi), if_pos hi]
  · show 0 + 3 ≤ n + p.spare
    omega
  · exact fun ho => absurd hq.overrun ho
  · exact hq.current.symm
  · exact fun hne => absurd hq.head hne
  · intro _
    refine ⟨hq.overrun, ?_⟩
    rw [hchain (n - 1) (by omega), if_neg (by omega), hq.current]

end calls

end ProducerQueue

/-- The application stops when a push has returned an error. -/
def StopsOnError (c : ProducerClient) : ClientEvent QueueOp QueueOp.Ans ProducerCall → Prop
  | .call _ => ProducerQueue.mayCall c.last
  | .answer _ _ => True

/-- In addition the peer keeps to `peerAnswer`. -/
def PeerSafe (c : ProducerClient) : ClientEvent QueueOp QueueOp.Ans ProducerCall → Prop
  | .call _ => ProducerQueue.mayCall c.last
  | .answer o r => c.start.peerAnswer c.accesses o r

instance (p : ProducerQueue) (k : Nat) : (o : QueueOp) → (r : o.Ans) → Decidable (p.peerAnswer k o r)
  | .chainLoad _, r =>
    inferInstanceAs (Decidable (k < p.nMsgs → r = indexInvalid ∨ BitVec.toNat r < p.nMsgs))
  | .tailCompareExchange tail _, r => inferInstanceAs (Decidable (p.overrun ≠ indexInvalid →
      r = true → tail.slot ≠ p.current ∧ p.leadsToHead p.nMsgs tail.slot = true))
  | .tailLoad, _ | .tailStore _, _ | .tailFetchOr _, _ | .headLoad, _ | .headStore _, _
  | .chainStore _ _, _ => isTrue trivial

instance (c : ProducerClient) : (e : ClientEvent QueueOp QueueOp.Ans ProducerCall) →
    Decidable (StopsOnError c e)
  | .call _ => inferInstanceAs (Decidable (ProducerQueue.mayCall c.last))
  | .answer _ _ => isTrue trivial

instance (c : ProducerClient) : (e : ClientEvent QueueOp QueueOp.Ans ProducerCall) →
    Decidable (PeerSafe c e)
  | .call _ => inferInstanceAs (Decidable (ProducerQueue.mayCall c.last))
  | .answer o r => inferInstanceAs (Decidable (c.start.peerAnswer c.accesses o r))

/-- A run of a new producer with `n` slots whose end passes the test `q`. -/
theorem ProducerClient.exists_run (n : Nat)
    (ok : ProducerClient → ClientEvent QueueOp QueueOp.Ans ProducerCall → Prop)
    [∀ c e, Decidable (ok c e)] (es : List (ClientEvent QueueOp QueueOp.Ans ProducerCall))
    (q : ProducerClient → Bool)
    (h : ((ProducerQueue.new n fun _ => 0).run QueueOp.exec
      { tail := 0, head := 0, chain := fun _ => 0 }).any (fun pm =>
        ((producerClient n).exec ok es ([], Client.fresh pm.1)).any fun tc => q tc.2) = true) :
    ∃ tr c, (producerClient n).Run ok tr c ∧ q c = true := by
  cases hnew : (ProducerQueue.new n fun _ => 0).run QueueOp.exec
      { tail := 0, head := 0, chain := fun _ => 0 } with
  | none =>
    rw [hnew] at h
    cases h
  | some pm =>
    rw [hnew] at h
    exact Machine.exists_run (producerClient n) ok ⟨pm.1, ⟨_, _, pm.2, hnew⟩, rfl⟩ es
      (fun _ c => q c) h

/-- Whatever else the environment answers: every access stays within the queue and the private chain,
    and between two calls the current slot is a slot of the queue. -/
theorem producer_robust {n : Nat} (h3 : 3 ≤ n) (hn : n ≤ 2 ^ 30)
    {tr : List (ClientEvent QueueOp QueueOp.Ans ProducerCall × Unit)} {c : ProducerClient}
    (hr : (producerClient n).Run PeerSafe tr c) :
    (∀ o, c.thread.nextOp = some o → o.InBounds n) ∧
    (∀ op prog, c.thread = .busy op prog → prog ≠ .fault) ∧
    (∀ p, c.thread = .idle p → p.current.toNat < n ∧ p.msg = some p.current) := by
  -- Every reachable client is good: idle with a private chain, or in a program all whose accesses are
  -- allowed.
  have hgood := Client.good_run ?_ (ProducerQueue.guarantees hn) (fun _ _ hok => hok)
    (fun _ _ _ _ _ _ hok => hok) hr
  · cases hthread : c.thread with
    | idle p =>
      simp only [Client.Good, hthread] at hgood
      obtain ⟨hnMsgs, hcur, -⟩ := hgood
      refine ⟨fun o hop => (by cases hop), fun op prog hbusy => (by cases hbusy), fun q hq => ?_⟩
      obtain rfl := Thread.idle.inj hq
      exact ⟨hcur, queueGetMsg_of_lt (hnMsgs.symm ▸ hcur)⟩
    | busy op prog =>
      simp only [Client.Good, hthread] at hgood
      obtain ⟨-, -, -, halways⟩ := hgood
      refine ⟨fun o hop => ?_, fun op' prog' hbusy => ?_, fun q hq => (by cases hq)⟩
      · -- the next access of the program is one of those allowed
        cases prog with
        | ret a => cases hop
        | fault => cases hop
        | act o' f =>
          obtain rfl := Option.some.inj hop
          exact halways.1
      · obtain ⟨rfl, rfl⟩ := Thread.busy.inj hbusy
        rintro rfl
        exact halways
  · -- at the start
    rintro p ⟨chain, m, m', hnew⟩
    obtain ⟨w, hw⟩ := ProducerQueue.new_chain h3 hn hnew
    exact .of_chain hw

/-- The first three pushes of a producer with three slots; the third one finds the queue full and jumps
    over slot 0. -/
def threePushes : List (ClientEvent QueueOp QueueOp.Ans ProducerCall) :=
  [.call (.push .forcePush), .answer (.chainStore 0 indexInvalid) (),
    .answer (.tailStore firstFlag) (), .answer (.headStore 0) (),
    .call (.push .forcePush), .answer (.chainStore 1 indexInvalid) (), .answer (.chainStore 0 1) (),
    .answer (.headStore 1) (), .answer .tailLoad firstFlag,
    .call (.push .forcePush), .answer (.chainStore 2 indexInvalid) (), .answer (.chainStore 1 2) (),
    .answer (.headStore 2) (), .answer .tailLoad consumedFlag,
    .answer (.tailCompareExchange consumedFlag 2) true]

/-- The next push moves the tail from slot 2 and takes slot 2, from where the chain leads on. -/
theorem producer_robust_moved_tail :
    ∃ tr c p, (producerClient 3).Run PeerSafe tr c ∧ c.thread = .idle p ∧ p.overrun = 0 ∧
      p.msg = some 2 := by
  obtain ⟨tr, c, hr, h⟩ := ProducerClient.exists_run 3 PeerSafe
    (threePushes ++ [.call (.push .forcePush), .answer (.chainStore 1 indexInvalid) (),
      .answer (.chainStore 2 1) (), .answer (.headStore 1) (), .answer .tailLoad 2,
      .answer (.tailCompareExchange 2 1) true])
    (fun c => c.thread.idleAnd fun p => decide (p.overrun = 0 ∧ p.current = 2)) (by decide)
  obtain ⟨p, hp, h⟩ := Thread.exists_idle h
  obtain ⟨hover, hcur⟩ := of_decide_eq_true h
  exact ⟨tr, c, p, hr, hp, hover, hcur ▸ ((producer_robust (by decide) (by decide) hr).2.2 p hp).2⟩

/-- A chain word that is no slot makes `count_msgs` leave the shared chain.  A tail that names the
    message just pushed makes the current slot `RI_INDEX_INVALID` three pushes later. -/
theorem hostile_peer_breaks_producer :
    (∃ tr c, (producerClient 3).Run StopsOnError tr c ∧ c.thread.nextOp = some (.chainLoad 7)) ∧
    ∃ tr c p, (producerClient 3).Run StopsOnError tr c ∧ c.thread = .idle p ∧
      c.last = some (.pushed (.forcePush .success)) ∧ p.current = indexInvalid := by
  refine ⟨?_, ?_⟩
  · obtain ⟨tr, c, hr, h⟩ := ProducerClient.exists_run 3 StopsOnError
      [.call (.push .forcePush), .answer (.chainStore 0 indexInvalid) (),
        .answer (.tailStore firstFlag) (), .answer (.headStore 0) (),
        .call .countMsgs, .answer .tailLoad firstFlag, .answer (.chainLoad 0) 7#32]
      (fun c => decide (c.thread.nextOp = some (.chainLoad 7))) (by decide)
    exact ⟨tr, c, hr, of_decide_eq_true h⟩
  · obtain ⟨tr, c, hr, h⟩ := ProducerClient.exists_run 3 StopsOnError
      (threePushes ++ [.call (.push .forcePush), .answer (.chainStore 1 indexInvalid) (),
        .answer (.chainStore 2 1) (), .answer (.headStore 1) (), .answer .tailLoad 1,
        .answer (.tailCompareExchange 1 indexInvalid) true,
        .call (.push .forcePush), .answer (.chainStore 1 indexInvalid) (),
        .answer (.chainStore 1 1) (), .answer (.headStore 1) (), .answer .tailLoad consumedFlag,
        .answer (.chainStore 0 indexInvalid) (),
        .call (.push .forcePush), .answer (.chainStore 0 indexInvalid) (),
        .answer (.chainStore 1 0) (), .answer (.headStore 0) (), .answer .tailLoad consumedFlag])
      (fun c => c.thread.idleAnd fun p =>
        decide (c.last = some (.pushed (.forcePush .success)) ∧ p.current = indexInvalid)) (by decide)
    obtain ⟨p, hp, h⟩ := Thread.exists_idle h
    obtain ⟨hlast, hcur⟩ := of_decide_eq_true h
    exact ⟨tr, c, p, hr, hp, hlast, hcur⟩

end Rtipc
