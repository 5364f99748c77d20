/-
  Channels with eventfds are linearizable.

  On a channel a push is two things, the push of the queue and the write to the eventfd, and a pop looks
  at the queue only if it has been able to read the counter.  In between the counter and the queue
  differ.  Still every history of pushes and pops on a channel is one of the same bounded queue that
  the queue alone implements (`channel_linearizable`).  The moments at which the operations are
  performed:

  * a push that loses no message, when it writes the counter; not when it appends its message, for up to
    then a pop may find the counter at 0 and say that there is nothing new;
  * a push that discards a message, and one that fails, with the push of the queue;
  * a pop that reads the counter, with its last access to the queue; one that cannot read it, then.

  Each is the step the operation returns with, so the channel refines a queue whose operations take
  place when they return (`AtomicQueue`, `channel_refines`).  The bounded queue has the messages that the
  consumer has been told of (`toldTo`), and the counter is their number, but for the one a pop is about
  to take.

  The proof has two stages.  `channel_refines` is a forward simulation: along every run of the code
  there is a run of `AtomicQueue` that shows the application the same calls and returns.  The relation
  (`ChannelRel`) contains the invariant of the queue below and, for each side, where its call is
  (`PushStatus`, `inPop`).  `AtomicQueue.Explained` then says that a history of the atomic queue is one
  of the sequential queue, and it is kept by every move (`AtomicQueue.Move.explained`).

  The crux is `toldTo`: which messages the abstract queue has.  A message is told of when the counter is
  written, not when it is on the chain, so between the two the abstract queue is one message shorter
  than the chain; a pop takes its unit of the counter before it looks, and finds what that unit stands
  for (`PopInv.pop_take`, `PopInv.pop_nothing`).
-/
import Rtipc.EventfdCount
import Rtipc.Lib.Refinement
import Rtipc.Linearization

namespace Rtipc

/-! ## What the application sees of a channel -/

/-- The message in `ri_producer_msg`. -/
def Producer.message {β : Type} (p : Producer β) (m : ChannelMem β) : β :=
  p.cache.getD (m.msgs p.queue.current)

namespace ChannelState

variable {β : Type}

/-- The message in `ri_consumer_msg`, if the result hands one out. -/
def delivered (s : ChannelState β) (r : PopResult) : Option β :=
  match s.cons with
  | .idle c => if r.isTaken then c.queue.msg.map s.mem.msgs else none
  | .busy _ _ => none

/-- What the application sees of a step from `s` to `s'`. -/
def observe (s : ChannelState β) (e : ChannelEvent β) (s' : ChannelState β) (o : QueueOutcome) :
    List (QueueHistoryEvent β) :=
  match e with
  | .push op => match s.prod with
    | .idle p => [.invoke .producer (.push op (p.message s.mem))]
    | .busy _ _ => []
  | .pop => [.invoke .consumer .pop]
  | .prodStep => match o with
    | .pushed r => [.respond .producer (.pushed r)]
    | _ => []
  | .consStep => match o with
    | .popped r => [.respond .consumer (.popped r (s'.delivered r))]
    | _ => []
  | .write _ => []

end ChannelState

/-! ## The messages the consumer has been told of

  The counter of the eventfd is behind the queue by what a running call has not yet told. -/

/-- The first push has appended its message, and not set the tail. -/
def ProducerPhase.unborn : ProducerPhase → Bool
  | .first2 _ _ _ => true
  | _ => false

/-- The end of the messages the consumer has been told of; `b` says that the last one has been enqueued
    and the push has neither moved the tail nor written the counter. -/
def toldTo (r : Ring) (ph : ProducerPhase) (b : Bool) : Nat := pushedTo r (b || ph.unborn)

section producer

variable {β : Type} {n : Nat} {r r' : Ring} {tp tp' : Nat} {ph ph' : ProducerPhase}
  {cph : ConsumerPhase} {s s' : QueueState β} {m' : QueueMem} {o : QueueOutcome}

/-- The tail stays, and the consumer is told of the same messages. -/
theorem absQueue_same {e e' : Nat} (htail : s'.mem.tail = s.mem.tail) (hmsgs : s'.msgs = s.msgs)
    (he : e' = e) (hord : ∀ k, k < e → r'.ord k = r.ord k) :
    absQueue r' tp e' cph s' = absQueue r tp e cph s := by
  subst he
  exact absQueue_congr htail hmsgs fun k _ hk => hord k hk

/-- A `try_push` that finds the queue full does nothing. -/
theorem PopInv.push_fail (hn : SizeOk n) {p : ProducerQueue} {next : Index}
    (hinv : PopInv n r tp (.tryLoad p next) cph s) (ht : s.mem.tail ≠ indexInvalid)
    (hfull : tp = r.lo ∧ ¬ (p.overrun ≠ indexInvalid ∧ s.mem.tail.consumed = true))
    (htail : s'.mem.tail = s.mem.tail) (hmsgs : s'.msgs = s.msgs) (x : β) :
    (absQueue r tp r.hi cph s).push (n - 1) .tryPush x =
      (absQueue r tp r.hi cph s', .pushed (.tryPush .fail)) := by
  have hset : p.head ≠ indexInvalid := fun hh => ht (hinv.queue.shared.unset hh)
  have hsize := (hinv.size_lt_iff hn ht hinv.queue.ring.1.size (hinv.delivery.set hset).1).1
  have hnot : ¬ (absQueue r tp r.hi cph s).size < n - 1 := by
    rw [hsize]
    exact fun hno => hno hfull
  rw [BoundedQueue.tryPush_full hnot, absQueue_same htail hmsgs rfl fun _ _ => rfl]

/-- A `force_push` that moves the tail discards the oldest message the consumer has been told of. -/
theorem PopInv.push_discard (hn : SizeOk n) (hinv : PopInv n r tp ph cph s) {p : ProducerQueue}
    {k : Nat} (hp : AfterAppend n r p) (hq : ph.queue = p) (ht : s.mem.tail ≠ indexInvalid)
    (hlo : tp = r.lo) (hover : s.mem.tail.consumed = true → p.overrun = indexInvalid)
    (hstart : unreadFrom tp s.mem.tail + 1 = tp') (hlt : tp' < r.hi)
    (htail : s'.mem.tail = r.ord tp') (hmsgs : s'.msgs = s.msgs) :
    (absQueue r tp (r.hi - 1) cph s).push (n - 1) .forcePush (s.msgs ph.queue.current) =
      (absQueue (r.drop k) tp' r.hi cph s', .pushed (.forcePush .discarded)) := by
  have hge := hp.two_le hn
  have hsize := hp.size
  have hfull := (hinv.size_lt_iff hn ht (e := r.hi - 1) (by rw [hq]; omega) (by omega)).1
  have hnot : ¬ (absQueue r tp (r.hi - 1) cph s).size < n - 1 := by
    rw [hfull, hq]
    exact fun hno => hno ⟨hlo, fun hno' => hno'.1 (hover hno'.2)⟩
  have hcons : s'.mem.tail.consumed = false := htail ▸ hn.consumed (hp.lt _)
  have hfirst : s'.mem.tail.first = false := htail ▸ hn.first (hp.lt _)
  rw [BoundedQueue.forcePush_full hnot, hq, hp.current_eq,
    absQueue_discard (k := k) hstart hlt hcons hfirst hmsgs]

/-- When the first push sets the tail, the consumer has been told of nothing, before and after. -/
theorem PopInv.told_first {op : PushOp} {p : ProducerQueue} {next : Index}
    (hinv : PopInv n r tp (.first2 op p next) cph s)
    (htail : s'.mem.tail = p.current ||| firstFlag) (hmsgs : s'.msgs = s.msgs) :
    absQueue r tp (r.hi - 1) cph s' = absQueue r tp (r.hi - 1) cph s := by
  obtain ⟨hp, -, hhead, ho, -, hlo⟩ := hinv.queue.ring
  have hunset := hinv.queue.shared.unset hhead
  have htp := (hinv.delivery.unset hhead).1
  have hsize := hp.size
  rw [spare_of_eq ho, hlo] at hsize
  have hend : r.hi - 1 = tp := by omega
  have hcons : s.mem.tail.consumed = true := by
    rw [hunset]
    exact Index.consumed_indexInvalid
  have hfirst : s'.mem.tail.first = true := by
    rw [htail]
    exact Index.first_or_firstFlag _
  have hempty : ∀ i, tp ≤ i → r.segment i tp = [] := fun i hi => Window.segment_nil hi
  simp only [absQueue, hend, hempty _ (le_unreadFrom _ _), hcons, hfirst, hmsgs, List.map_nil,
    Bool.not_true, Bool.and_false, Bool.false_and]

/-- The push that is at this point. -/
def ProducerPhase.runs (ph : ProducerPhase) (op : PushOp) : Prop :=
  ∃ prog, ph.thread = .busy op prog

/-- What the consumer is told by a step of the producer.  A push that goes on, and one that is still to
    write the counter, tells it nothing new; one that returns otherwise is performed. -/
theorem ProducerStep.told (hn : SizeOk n) (hinv : PopInv n r tp ph cph s)
    (hs : ProducerStep ph s.mem ph' m' o) {op : PushOp} (hop : ph.runs op) :
    (o = .silent ∧ ph'.queue.current = ph.queue.current ∨
      o = .pushed op.success ∧ (r.step ph ph').ord ((r.step ph ph').hi - 1) = ph.queue.current) ∧
      absQueue (r.step ph ph') (tp + ph.jump ph')
        (toldTo (r.step ph ph') ph' (ph'.enqueued || o.isSuccess)) cph (s.afterProd ph' m' o) =
        absQueue r tp (toldTo r ph ph.enqueued) cph s ∨
    ∃ y, o = .pushed y ∧ y ≠ op.success ∧
      (absQueue r tp (toldTo r ph ph.enqueued) cph s).push (n - 1) op (s.msgs ph.queue.current) =
        (absQueue (r.step ph ph') (tp + ph.jump ph')
          (toldTo (r.step ph ph') ph' (ph'.enqueued || o.isSuccess)) cph (s.afterProd ph' m' o),
          .pushed y) := by
  have hring := hinv.queue.ring
  have hm := hinv.queue.shared
  have hd := hinv.delivery
  obtain ⟨prog, hthread⟩ := hop
  cases hs with
  | first1 =>
    exact Or.inl ⟨Or.inl ⟨rfl, rfl⟩,
      absQueue_same rfl rfl rfl fun k hk => Window.append_ord (Nat.ne_of_lt hk)⟩
  | first2 => exact Or.inl ⟨Or.inl ⟨rfl, rfl⟩, hinv.told_first rfl rfl⟩
  | first3 =>
    cases hthread
    obtain ⟨hp, -⟩ := hring
    refine Or.inl ⟨Or.inr ⟨rfl, hp.current_eq.symm⟩, ?_⟩
    cases op <;> exact absQueue_same rfl rfl rfl fun _ _ => rfl
  | tryError hv => exact absurd (hring.tryLoad_valid hn hm) hv
  | tryRequeue =>
    exact Or.inl ⟨Or.inl ⟨rfl, rfl⟩, absQueue_same rfl rfl rfl fun _ _ => rfl⟩
  | tryBlocked hv ho hc =>
    -- the tail at the slot in front says that the queue is full
    cases hthread
    obtain ⟨hp, -, -, hst⟩ := hring
    have hset := hn.ne_invalid (hst.head_lt hp.toRingPath)
    have htp := hd.at_lo hp.toRingPath hset (by rw [hm.blocked ho hc]; exact hn.slot (hp.lt _))
    exact Or.inr ⟨_, rfl, nofun, hinv.push_fail hn (hm.tail hset).ne_invalid
      ⟨htp, fun hno => by rw [hc] at hno; cases hno.2⟩ rfl rfl _⟩
  | tryNext =>
    exact Or.inl ⟨Or.inl ⟨rfl, rfl⟩, absQueue_same rfl rfl rfl fun _ _ => rfl⟩
  | tryFull hv ho heq =>
    cases hthread
    obtain ⟨hp, -, hnext, hst⟩ := hring
    have hset := hn.ne_invalid (hst.head_lt hp.toRingPath)
    have htp := hd.at_lo hp.toRingPath hset (heq.symm.trans hnext)
    exact Or.inr ⟨_, rfl, nofun, hinv.push_fail hn (hm.tail hset).ne_invalid
      ⟨htp, fun hno => hno.1 ho⟩ rfl rfl _⟩
  | enq1 => exact Or.inl ⟨Or.inl ⟨rfl, rfl⟩, absQueue_same rfl rfl rfl fun _ _ => rfl⟩
  | enq2 =>
    exact Or.inl ⟨Or.inl ⟨rfl, rfl⟩,
      absQueue_same rfl rfl rfl fun k hk => Window.append_ord (Nat.ne_of_lt hk)⟩
  | enq3Force => exact Or.inl ⟨Or.inl ⟨rfl, rfl⟩, absQueue_same rfl rfl rfl fun _ _ => rfl⟩
  | enq3Requeue => exact Or.inl ⟨Or.inl ⟨rfl, rfl⟩, absQueue_same rfl rfl rfl fun _ _ => rfl⟩
  | enq3Next =>
    cases hthread
    obtain ⟨hp, -⟩ := hring
    exact Or.inl ⟨Or.inr ⟨rfl, hp.current_eq.symm⟩, absQueue_same rfl rfl rfl fun _ _ => rfl⟩
  | loadError hv => exact absurd (hring.forceLoad_valid hn hm) hv
  | loadRequeue => exact Or.inl ⟨Or.inl ⟨rfl, rfl⟩, absQueue_same rfl rfl rfl fun _ _ => rfl⟩
  | loadMove => exact Or.inl ⟨Or.inl ⟨rfl, rfl⟩, absQueue_same rfl rfl rfl fun _ _ => rfl⟩
  | loadNext =>
    cases hthread
    obtain ⟨hp, -⟩ := hring
    exact Or.inl ⟨Or.inr ⟨rfl, hp.current_eq.symm⟩, absQueue_same rfl rfl rfl fun _ _ => rfl⟩
  | loadMoveFull => exact Or.inl ⟨Or.inl ⟨rfl, rfl⟩, absQueue_same rfl rfl rfl fun _ _ => rfl⟩
  | loadOver => exact Or.inl ⟨Or.inl ⟨rfl, rfl⟩, absQueue_same rfl rfl rfl fun _ _ => rfl⟩
  | requeue =>
    cases hthread
    obtain ⟨hp, -⟩ := hring
    refine Or.inl ⟨Or.inr ⟨rfl, hp.current_eq.symm⟩, ?_⟩
    cases op <;> exact absQueue_same rfl rfl rfl fun _ _ => rfl
  | @moved p next tail _ ht =>
    cases hthread
    obtain ⟨hp, -, hhead, ho, rfl⟩ := hring
    have hset : p.head ≠ indexInvalid := hhead ▸ hn.ne_invalid hp.current_lt
    have hslot : (r.ord r.lo).slot = r.ord r.lo := hn.slot (hp.lt _)
    have hc : s.mem.tail.consumed = false := ht ▸ hn.consumed (hp.lt _)
    have hlo := hd.at_lo hp.toRingPath hset (by rw [ht]; exact hslot)
    have hlt := hp.two_le hn
    refine Or.inr ⟨_, rfl, nofun, hinv.push_discard hn hp rfl (hm.tail hset).ne_invalid hlo
      (fun hno => by rw [hc] at hno; cases hno) ?_ (by show tp + 1 < r.hi; omega) ?_ rfl⟩
    · rw [unreadFrom, hc]
      rfl
    · show p.chain (r.ord r.lo).slot = r.ord (tp + 1)
      rw [hslot, hlo]
      exact hp.link hn
  | moveLost => exact Or.inl ⟨Or.inl ⟨rfl, rfl⟩, absQueue_same rfl rfl rfl fun _ _ => rfl⟩
  | @movedFull p next tail _ ht =>
    cases hthread
    obtain ⟨hp, -, hhead, ho, hslot, hc⟩ := hring
    rw [← ht] at hc
    have hset : p.head ≠ indexInvalid := hhead ▸ hn.ne_invalid hp.current_lt
    have hlo := hd.at_lo hp.toRingPath hset (by rw [ht]; exact hslot)
    have hlt := hp.two_le hn
    refine Or.inr ⟨_, rfl, nofun, hinv.push_discard hn hp rfl (hm.tail hset).ne_invalid hlo
      (fun _ => ho) ?_ (by show tp + 1 < r.hi; omega) ?_ rfl⟩
    · rw [unreadFrom, hc]
      rfl
    · show p.chain tail.slot = r.ord (tp + 1)
      rw [hslot, hlo]
      exact hp.link hn
  | moveFullLost => exact Or.inl ⟨Or.inl ⟨rfl, rfl⟩, absQueue_same rfl rfl rfl fun _ _ => rfl⟩
  | @overran p tail _ ht =>
    -- the slot of the consumer is kept back, the one behind it is discarded
    cases hthread
    obtain ⟨hp, hhead, ho, hslot, hc⟩ := hring
    rw [← ht] at hc
    have h3 := hn.three_le
    have hhi := hp.hi_eq ho
    have hne : tail.slot ≠ indexInvalid := hslot ▸ hn.ne_invalid (hp.lt _)
    have hset : p.head ≠ indexInvalid := hhead ▸ hn.ne_invalid hp.current_lt
    have hlo := hd.at_lo hp.toRingPath hset (by rw [ht]; exact hslot)
    rw [Ring.step_overran hne, ProducerPhase.jump_overran hne]
    refine Or.inr ⟨_, rfl, nofun, hinv.push_discard hn hp rfl (hm.tail hset).ne_invalid hlo
      (fun _ => ho) ?_ (by omega) ?_ rfl⟩
    · rw [unreadFrom, hc]
      rfl
    · show p.chain (p.chain tail.slot) = r.ord (tp + 2)
      rw [hslot, hlo]
      exact hp.link_link ho hn
  | @overLost p tail _ ht =>
    cases hthread
    obtain ⟨hp, hhead, ho, hslot, -⟩ := hring
    rw [Ring.step_overLost ho, ProducerPhase.jump_overLost ho]
    exact Or.inl ⟨Or.inr ⟨rfl, hp.current_eq.symm⟩, absQueue_same rfl rfl rfl fun _ _ => rfl⟩

/-- The consumer is told of the last message, when the counter is written. -/
theorem PopInv.push_told (hn : SizeOk n) {p : ProducerQueue} (hinv : PopInv n r tp (.idle p) cph s)
    (ht : s.mem.tail ≠ indexInvalid) (hlt : unreadFrom tp s.mem.tail < r.hi) (op : PushOp) :
    (absQueue r tp (r.hi - 1) cph s).push (n - 1) op (s.msgs (r.ord (r.hi - 1))) =
      (absQueue r tp r.hi cph s, .pushed op.success) := by
  have hset : p.head ≠ indexInvalid := fun hh => ht (hinv.queue.shared.unset hh)
  have hle := (hinv.size_lt_iff hn ht hinv.queue.ring.1.size (hinv.delivery.set hset).1).2
  have hroom : (absQueue r tp (r.hi - 1) cph s).size < n - 1 := by
    rw [absQueue_size] at hle ⊢
    omega
  have hseg := Window.segment_snoc (w := r) (i := unreadFrom tp s.mem.tail) (j := r.hi - 1) (by omega)
  rw [show r.hi - 1 + 1 = r.hi from by omega] at hseg
  rw [BoundedQueue.push_room hroom]
  simp only [absQueue, hseg, List.map_append, List.map_singleton]

end producer

/-! ## The pops -/

section consumer

variable {β : Type} {n : Nat} {r : Ring} {tp tp' e : Nat} {ph : ProducerPhase}
  {cph cph' : ConsumerPhase} {s s' : QueueState β} {m' : QueueMem} {o : QueueOutcome}

/-- A pop takes the oldest message the consumer has been told of. -/
theorem PopInv.pop_take (hn : SizeOk n) {c' : ConsumerQueue} {y : PopResult}
    (hinv : PopInv n r tp ph cph s) (hc' : c'.nMsgs = n) (htp : tp' = unreadFrom tp s.mem.tail)
    (hlt : tp' < e) (hcons : s'.mem.tail.consumed = true) (hcur : c'.current = r.ord tp')
    (hthread : s'.cons = .idle c') (hmsgs : s'.msgs = s.msgs)
    (hy : y = if !s.mem.tail.consumed && !s.mem.tail.first then .discarded else .success) :
    (absQueue r tp e cph s).pop =
      (absQueue r tp' e (.idle c') s', .popped y (s'.delivered y)) := by
  have hpath := hinv.queue.ring.path
  have hne : c'.current ≠ indexInvalid := hcur ▸ hn.ne_invalid (hpath.lt _)
  have hfrom' : unreadFrom tp' s'.mem.tail = tp' + 1 := if_pos hcons
  -- The slot read is that of the position taken,
  have hdeliv : s'.delivered y = some (s.msgs (r.ord tp')) := by
    have htaken : y.isTaken = true := by
      rw [hy]
      split <;> rfl
    have hmsg : c'.msg = some c'.current := by
      rw [ConsumerQueue.msg, if_neg hne]
      refine queueGetMsg_of_lt ?_
      rw [hc', hcur]
      exact hpath.lt _
    rw [QueueState.delivered, hthread]
    simp only [htaken, if_true, hmsg, Option.map_some, hmsgs, hcur]
  -- which is the oldest unread message of the abstract queue.
  have hunread : (absQueue r tp e cph s).unread =
      s.msgs (r.ord tp') :: (r.segment (tp' + 1) e).map s.msgs := by
    simp only [absQueue, ← htp, Window.segment_cons hlt, List.map_cons]
  have hnew : absQueue r tp' e (.idle c') s' =
      { unread := (r.segment (tp' + 1) e).map s.msgs, held := some (s.msgs (r.ord tp')),
        gap := false } := by
    have hq : (ConsumerPhase.idle c').queue.current = r.ord tp' := hcur
    simp only [absQueue, hfrom', hq, if_neg (hcur ▸ hne), hmsgs, hcons, Bool.not_true,
      Bool.false_and]
  rw [BoundedQueue.pop_cons hunread, hnew, hdeliv, hy]
  rfl

/-- What a step of a pop of the queue does, if the consumer has been told of a message: it goes on, or it
    is performed. -/
theorem ConsumerStep.told (hn : SizeOk n) (hinv : PopInv n r tp ph cph s)
    (ht : s.mem.tail ≠ indexInvalid) (hlt : unreadFrom tp s.mem.tail < e) (he : e ≤ r.hi)
    (hs : ConsumerStep cph s.mem cph' m' o) :
    o = .silent ∧ absQueue r (tp + cph.jump cph') e cph' (s.afterCons cph' m' o) =
      absQueue r tp e cph s ∨
    ∃ y, o = .popped y ∧ (absQueue r tp e cph s).pop =
      (absQueue r (tp + cph.jump cph') e cph' (s.afterCons cph' m' o),
        .popped y ((s.afterCons cph' m' o).delivered y)) := by
  have hm := hinv.queue.shared
  have hc := hinv.queue.cons
  have hd := hinv.delivery
  have hreads := hc.reads
  have hflush := hinv.popOnly.noFlush
  obtain ⟨-, hslot⟩ := hd.set (hm.head_ne rfl ht)
  cases hs with
  | popNoMsg hnone => exact absurd hnone ht
  | popError _ hv => exact absurd (hm.tail_ok ht).lt (hc.nMsgs ▸ hv)
  | @popTail c _ _ hv hcons =>
    have hfrom : tp = unreadFrom tp s.mem.tail := by
      rw [unreadFrom, hcons]
      rfl
    refine Or.inr ⟨_, rfl, hinv.pop_take hn hc.nMsgs hfrom (hfrom ▸ hlt) ?_ hslot rfl rfl ?_⟩
    · exact Index.consumed_or_consumedFlag _
    · rw [hcons]
      cases s.mem.tail.first <;> rfl
  | popNone _ hv hcons hcur => exact absurd hcur (hinv.popOnly.holder ht (Or.inl hcons))
  | popOwn _ hv hcons hcur =>
    refine Or.inl ⟨rfl, ?_⟩
    simp only [absQueue, Index.or_consumedFlag_of_consumed hcons]
    rfl
  | popNoUpdate hnone => exact absurd (hinv.nothing_unread hn hnone) (by omega)
  | @popNextError c tail _ hne hv =>
    exact absurd (hinv.queue.next_lt hreads.1 hne) (hc.nMsgs ▸ hv)
  | popNext => exact Or.inl ⟨rfl, rfl⟩
  | @popTaken c tail next _ htail =>
    -- the message behind the own one
    obtain ⟨-, -, hcons, -, -⟩ := hreads
    obtain ⟨-, hnext⟩ := hinv.follows.2 htail
    have hcons' : s.mem.tail.consumed = true := htail ▸ hcons
    have hfrom : tp + 1 = unreadFrom tp s.mem.tail := by
      rw [unreadFrom, hcons']
      rfl
    refine Or.inr ⟨_, rfl, hinv.pop_take hn hc.nMsgs hfrom (hfrom ▸ hlt) ?_ hnext rfl rfl ?_⟩
    · exact Index.consumed_or_consumedFlag _
    · rw [hcons']
      rfl
  | popLost => exact Or.inl ⟨rfl, rfl⟩
  | popMovedError hv => exact absurd hreads.2 (hc.nMsgs ▸ hv)
  | @popMoved c _ hv =>
    -- the producer has discarded the message in front
    have hv' : s.mem.tail.toNat < n := hc.nMsgs ▸ hv
    have hfrom : tp = unreadFrom tp s.mem.tail := by
      rw [unreadFrom, hn.consumed hv']
      rfl
    refine Or.inr ⟨_, rfl, hinv.pop_take hn hc.nMsgs hfrom (hfrom ▸ hlt) ?_
      ((hn.slot hv').symm.trans hslot) rfl rfl ?_⟩
    · exact Index.consumed_or_consumedFlag _
    · rw [hn.consumed hv', hn.first hv']
      rfl
  | _ => exact absurd trivial hflush

/-- The slots that are not consumed, but for the one the push is to write the counter for, hold the
    messages the consumer has been told of. -/
theorem PopInv.told_count (hn : SizeOk n) (hinv : PopInv n r tp ph cph s) {b : Bool} {k : Nat}
    (hcount : unreadSlots r tp s.mem.tail = k + b.toNat) :
    (absQueue r tp (toldTo r ph b) cph s).unread.length = k := by
  have hm := hinv.queue.shared
  show ((r.segment _ _).map s.msgs).length = k
  rw [List.length_map, Window.length_segment, toldTo, pushedTo]
  by_cases ht : s.mem.tail = indexInvalid
  · -- before the first message
    have hhead : ph.queue.head = indexInvalid := by
      by_contra hh
      exact (hm.tail hh).ne_invalid ht
    have htp := (hinv.delivery.unset hhead).1
    have hsize := hinv.queue.ring.hi_le hn hhead
    have hfrom : unreadFrom tp s.mem.tail = tp + 1 := by
      rw [ht]
      exact if_pos Index.consumed_indexInvalid
    rw [unreadSlots, if_pos ht] at hcount
    split <;> omega
  · -- afterwards each position is one unit of the counter, but for the message not yet told
    have hborn : ph.unborn = false := by
      cases ph with
      | first2 op p next => exact absurd (hm.unset hinv.queue.ring.2.2.1) ht
      | _ => rfl
    rw [unreadSlots, if_neg ht] at hcount
    rw [hborn, Bool.or_false]
    cases b with
    | true =>
      replace hcount : r.hi - unreadFrom tp s.mem.tail = k + 1 := hcount
      rw [if_pos rfl]
      omega
    | false =>
      rw [if_neg Bool.false_ne_true]
      exact hcount

/-- A pop that finds the counter at 0 has been told of nothing. -/
theorem PopInv.pop_nothing (hn : SizeOk n) {c : ConsumerQueue} {b : Bool}
    (hinv : PopInv n r tp ph (.idle c) s) (hcount : unreadSlots r tp s.mem.tail = b.toNat) :
    (absQueue r tp (toldTo r ph b) (.idle c) s).pop =
      (absQueue r tp (toldTo r ph b) (.idle c) s,
        .popped (if c.msg.isSome then .noUpdate else .noMsg) none) := by
  have hunread : (absQueue r tp (toldTo r ph b) (.idle c) s).unread = [] :=
    List.length_eq_zero_iff.mp (hinv.told_count hn (hcount.trans (Nat.zero_add _).symm))
  have hheld : (absQueue r tp (toldTo r ph b) (.idle c) s).held.isSome = c.msg.isSome := by
    by_cases hcur : c.current = indexInvalid
    · have hmsg : c.msg = none := if_pos hcur
      have hq : (ConsumerPhase.idle c).queue.current = indexInvalid := hcur
      simp only [absQueue, hq, if_true, hmsg]
      rfl
    · have hmsg : c.msg = some c.current := by
        rw [ConsumerQueue.msg, if_neg hcur]
        refine queueGetMsg_of_lt ?_
        rw [show c.nMsgs = n from hinv.queue.cons.nMsgs]
        exact hinv.queue.cons.current hcur
      have hq : (ConsumerPhase.idle c).queue.current ≠ indexInvalid := hcur
      simp only [absQueue, if_neg hq, hmsg, Option.isSome_some]
  rw [BoundedQueue.pop_nil hunread, hheld]

end consumer

/-! ## The queue whose operations take place when they return -/

/-- The bounded queue with the push and the pop that are under way. -/
structure AtomicQueue (β : Type) where
  queue : BoundedQueue β
  pushing : Option (PushOp × β)
  popping : Bool

/-- The start of the queue of capacity `cap`. -/
def AtomicQueue.init (β : Type) (cap : Nat) : AtomicQueue β where
  queue := (boundedQueue β cap).init
  pushing := none
  popping := false

/-- An operation is called, or it is performed on the bounded queue and returns what that answers. -/
inductive AtomicQueue.Move {β : Type} (cap : Nat) (a : AtomicQueue β) :
    List (QueueHistoryEvent β) → AtomicQueue β → Prop where
  | stay : Move cap a [] a
  | callPush {op : PushOp} {x : β} (h : a.pushing = none) :
      Move cap a [.invoke .producer (.push op x)] { a with pushing := some (op, x) }
  | push {op : PushOp} {x : β} {queue : BoundedQueue β} {r : PushResult}
      (h : a.pushing = some (op, x)) (hq : a.queue.push cap op x = (queue, .pushed r)) :
      Move cap a [.respond .producer (.pushed r)] { a with queue := queue, pushing := none }
  | callPop (h : a.popping = false) :
      Move cap a [.invoke .consumer .pop] { a with popping := true }
  | pop {queue : BoundedQueue β} {r : PopResult} {x : Option β} (h : a.popping = true)
      (hq : a.queue.pop = (queue, .popped r x)) :
      Move cap a [.respond .consumer (.popped r x)] { a with queue := queue, popping := false }

section atomic

variable {β : Type} {n : Nat} {a a' : AtomicQueue β} {h seen : List (QueueHistoryEvent β)}

/-- The history is explained by the operations that have returned. -/
def AtomicQueue.Explained (n : Nat) (h : List (QueueHistoryEvent β)) (a : AtomicQueue β) : Prop :=
  ∃ x y, TracksAt n h a.queue x y ∧
    (∀ op z, a.pushing = some (op, z) → ∃ k, x = .called k (.push op z)) ∧
    (a.popping = true → ∃ k, y = .called k .pop)

/-- A move of the atomic queue keeps what is observed explained by an order of the calls. -/
theorem AtomicQueue.Move.explained (hm : a.Move (n - 1) seen a') (he : AtomicQueue.Explained n h a) :
    AtomicQueue.Explained n (h ++ seen) a' := by
  obtain ⟨x, y, htr, hx, hy⟩ := he
  cases hm with
  | stay =>
    rw [List.append_nil]
    exact ⟨x, y, htr, hx, hy⟩
  | callPush =>
    refine ⟨_, y, htr.call_push _, ?_, hy⟩
    rintro op z heq
    cases heq
    exact ⟨_, rfl⟩
  | push hpush hq =>
    obtain ⟨k, rfl⟩ := hx _ _ hpush
    have hdone := htr.push
    rw [hq] at hdone
    exact ⟨.idle, y, hdone.reply_push, nofun, hy⟩
  | callPop => exact ⟨x, _, htr.call_pop .pop, hx, fun _ => ⟨_, rfl⟩⟩
  | pop hpop hq =>
    obtain ⟨k, rfl⟩ := hy hpop
    have hdone := htr.pop
    rw [hq] at hdone
    exact ⟨x, .idle, hdone.reply_pop, hx, nofun⟩

/-- At the start nothing is to be explained. -/
theorem AtomicQueue.explained_init : AtomicQueue.Explained n [] (AtomicQueue.init β (n - 1)) := by
  have hidle : (sides .idle .idle : Side → QueueStatus β) = fun _ => .idle := by
    funext t
    cases t <;> rfl
  refine ⟨.idle, .idle, ?_, nofun, nofun⟩
  rw [TracksAt, hidle]
  exact Tracks.init

end atomic

/-! ## The channel -/

section channel

variable {β : Type} {n : Nat} {q : QueueState β} {r : Ring} {tp : Nat} {ph : ProducerPhase}
  {cph : ConsumerPhase} {fd fd' : Int} {s s' : ChannelState β} {o : QueueOutcome} {a : AtomicQueue β}

/-- Where the producer is in its push; no push is performed before it returns. -/
inductive PushStatus (fd : Int) (msgs : Index → β) (r : Ring) :
    ChannelProducerThread β → ProducerPhase → Bool → Option (PushOp × β) → Prop
  | idle {p} : PushStatus fd msgs r (.idle { queue := p, eventfd := fd, cache := none }) (.idle p) false
      none
  | signal {op p} : PushStatus fd msgs r (.busy op (.act (.eventfdWrite 1) fun _ =>
      .ret ({ queue := p, eventfd := fd, cache := none }, op.success))) (.idle p) true
      (some (op, msgs (r.ord (r.hi - 1))))
  | busy {op prog ph} (h : ph.thread = .busy op prog) :
      PushStatus fd msgs r (.busy op (afterPush β fd op prog)) ph ph.enqueued
        (some (op, msgs ph.queue.current))

/-- A pop is under way. -/
def inPop : ChannelConsumerThread β → Bool
  | .idle _ => false
  | .busy _ _ => true

/-- The queue `q` is the queue of the channel, the counter is right, and the bounded queue has the
    messages that the consumer has been told of. -/
structure ChannelAt (n : Nat) (q : QueueState β) (r : Ring) (tp : Nat) (ph : ProducerPhase)
    (cph : ConsumerPhase) (fd fd' : Int) (s : ChannelState β) (a : AtomicQueue β) : Prop where
  prod : q.prod = ph.thread
  cons : q.cons = cph.thread
  mem : q.mem = s.mem.queue
  msgs : q.msgs = s.mem.msgs
  inv : PopInv n r tp ph cph q
  push : PushStatus fd q.msgs r s.prod ph s.enqueued a.pushing
  pop : PopRel fd' s.cons cph
  underway : a.popping = inPop s.cons
  count : unreadSlots r tp q.mem.tail = s.mem.eventfd + (popping s.cons).toNat + s.enqueued.toNat
  queue : a.queue = absQueue r tp (toldTo r ph s.enqueued) cph q

/-- The atomic queue that the channel is. -/
def ChannelRel (n : Nat) (s : ChannelState β) (a : AtomicQueue β) : Prop :=
  ∃ q r tp ph cph fd fd', 0 ≤ fd ∧ 0 ≤ fd' ∧ ChannelAt n q r tp ph cph fd fd' s a

/-- The current message is not one the consumer has been told of. -/
theorem PopInv.write_told {p : ProducerQueue} (hinv : PopInv n r tp (.idle p) cph q) (z : β) :
    absQueue r tp r.hi cph { q with msgs := Function.update q.msgs p.current z } =
      absQueue r tp r.hi cph q := by
  have hd := hinv.delivery
  have hring := hinv.queue.ring.1
  have hunread : (r.segment (unreadFrom tp q.mem.tail) r.hi).map (Function.update q.msgs p.current z)
      = (r.segment (unreadFrom tp q.mem.tail) r.hi).map q.msgs := by
    refine List.map_congr_left fun i hi => Function.update_of_ne ?_ _ _
    obtain ⟨k, hk, hk', rfl⟩ := Window.exists_of_mem_segment hi
    have hlo := le_trans hd.lo_le (le_trans (le_unreadFrom tp q.mem.tail) hk)
    exact fun he => hring.current_off (he ▸ Window.mem_ord hlo hk')
  have hheld : cph.queue.current ≠ indexInvalid → cph.queue.current ≠ p.current := by
    intro hne
    have hset : p.head ≠ indexInvalid := fun hh =>
      hne (hinv.queue.cons.unset (hinv.queue.shared.unset hh))
    exact (hinv.holds hne).ne_current hring hd hset
  simp only [absQueue, hunread]
  by_cases hne : cph.queue.current = indexInvalid
  · rw [if_pos hne, if_pos hne]
  · rw [if_neg hne, if_neg hne, Function.update_of_ne (hheld hne)]

/-- Writing the message in the current slot. -/
theorem ChannelAt.write (hn : SizeOk n) (hat : ChannelAt n q r tp ph cph fd fd' s a) {z : β}
    (hs : s.write z = some (s', o)) : ∃ q', ChannelAt n q' r tp ph cph fd fd' s' a := by
  obtain ⟨mem, prod, cons, b⟩ := s
  obtain ⟨queue, pushing, pops⟩ := a
  have hpush := hat.push
  dsimp only at hpush
  cases hpush with
  | @idle p =>
    obtain ⟨i, hi, hs⟩ := Option.map_eq_some_iff.mp hs
    cases hs
    obtain ⟨rfl, hlt⟩ := queueGetMsg_eq_some hi
    have hmsgs : Function.update q.msgs p.current z = Function.update mem.msgs p.current z := by
      rw [hat.msgs]
    refine ⟨{ q with msgs := Function.update q.msgs p.current z }, hat.prod, hat.cons, hat.mem, hmsgs,
      QueueStep.popInv (e := .write z) hn hat.inv trivial (.write hlt), .idle, hat.pop, hat.underway,
      hat.count, ?_⟩
    rw [hat.queue]
    exact (hat.inv.write_told z).symm
  | signal => cases hs
  | busy hthread => cases hs

/-- The call of a push. -/
theorem ChannelAt.callPush (hn : SizeOk n) (hat : ChannelAt n q r tp ph cph fd fd' s a) {op : PushOp}
    (hs : s.push op = some (s', o)) :
    ∃ q' ph' a', a.Move (n - 1) (s.observe (.push op) s' o) a' ∧
      ChannelAt n q' r tp ph' cph fd fd' s' a' := by
  obtain ⟨mem, prod, cons, b⟩ := s
  obtain ⟨queue, pushing, pops⟩ := a
  have hpush := hat.push
  dsimp only at hpush
  cases hpush with
  | @idle p =>
    cases hs
    have hcall := hat.inv.queue.ring.thread_call hn op
    -- The call itself stores nothing.
    have hquiet : (ProducerPhase.call op p).enqueued = false ∧
        (ProducerPhase.call op p).unborn = false := by
      unfold ProducerPhase.call
      split
      · exact ⟨rfl, rfl⟩
      · cases op <;> exact ⟨rfl, rfl⟩
    have hqueue : (ProducerPhase.call op p).queue.current = p.current := by
      rw [ProducerPhase.queue_call]
    have hmsg : q.msgs p.current = mem.msgs p.current := congrFun hat.msgs _
    refine ⟨q.afterPush op p, .call op p, _, .callPush rfl, rfl, hat.cons, hat.mem, hat.msgs, ?_, ?_,
      hat.pop, hat.underway, hat.count, ?_⟩
    · exact QueueStep.popInv (e := .push op) hn hat.inv trivial .push
    · show PushStatus fd q.msgs r (.busy op (Producer.push _ op)) (.call op p) false
        (some (op, mem.msgs p.current))
      rw [push_code, ← hquiet.1, ← hmsg, ← hqueue]
      exact .busy hcall
    · -- so the messages told of are the same
      have hto : toldTo r (ProducerPhase.call op p) false = toldTo r (.idle p) false := by
        rw [toldTo, toldTo, hquiet.2]
        rfl
      show queue = absQueue r tp (toldTo r (ProducerPhase.call op p) false) cph q
      rw [hto]
      exact hat.queue
  | signal => cases hs
  | busy hthread => cases hs

/-- The call of a pop. -/
theorem ChannelAt.callPop (hfd : 0 ≤ fd') (hat : ChannelAt n q r tp ph cph fd fd' s a)
    (hs : s.pop = some (s', o)) : ∃ a', a.Move (n - 1) (s.observe .pop s' o) a' ∧
      ChannelAt n q r tp ph cph fd fd' s' a' := by
  obtain ⟨mem, prod, cons, b⟩ := s
  have hpop := hat.pop
  dsimp only at hpop
  cases hpop with
  | @idle c =>
    cases hs
    have hcount := hat.count
    rw [pop_code hfd]
    exact ⟨_, .callPop hat.underway, { hat with pop := .read, underway := rfl, count := hcount }⟩
  | read => cases hs
  | busy hthread => cases hs

/-- A step of the producer: the push of the queue goes on, or the push writes the counter. -/
theorem ChannelAt.prodStep (hn : SizeOk n) (hfd : 0 ≤ fd)
    (hat : ChannelAt n q r tp ph cph fd fd' s a) (hs : s.prodStep = some (s', o)) :
    ∃ q' r' tp' ph' a', a.Move (n - 1) (s.observe .prodStep s' o) a' ∧
      ChannelAt n q' r' tp' ph' cph fd fd' s' a' := by
  obtain ⟨mem, prod, cons, b⟩ := s
  obtain ⟨queue, pushing, pops⟩ := a
  have hpush := hat.push
  have hcount := hat.count
  have hmem := hat.mem
  have hqueue := hat.queue
  dsimp only at hpush hcount hmem hqueue
  subst hqueue
  cases hpush with
  | idle => cases hs
  | @signal op p =>
    cases hs
    have hpos : unreadSlots r tp q.mem.tail = mem.eventfd + (popping cons).toNat + 1 := hcount
    have ht : q.mem.tail ≠ indexInvalid := by
      intro ht
      rw [unreadSlots, if_pos ht] at hpos
      omega
    rw [unreadSlots, if_neg ht] at hpos
    refine ⟨q, r, tp, .idle p, _, .push rfl (hat.inv.push_told hn ht (by omega) op),
      { hat with push := .idle, count := ?_, queue := rfl }⟩
    rw [hcount]
    show mem.eventfd + (popping cons).toNat + 1 = mem.eventfd + 1 + (popping cons).toNat + 0
    omega
  | @busy op prog ph hthread =>
    have hrun : ph.runs op := ⟨prog, hthread⟩
    obtain ⟨act, f, rfl⟩ := ProducerPhase.thread_busy hthread
    obtain ⟨ph', o', hstep, hcode⟩ := prodStep_code hat.prod hthread
    have hinv : PopInv n (r.step ph ph') (tp + ph.jump ph') ph' cph (q.afterProd ph' _ o') :=
      QueueStep.popInv (e := .prodStep) hn hat.inv trivial (.prodStep hstep)
    have hunread := hstep.unread hn hat.inv
    have htrack := hstep.track hn hat.inv hthread
    have htold := hstep.told hn hat.inv hrun
    rw [hcount] at hunread
    -- the state after the step, by what is left of the push
    have hafter : ∀ prod b pushing, PushStatus fd q.msgs (r.step ph ph') prod ph' b pushing →
        (ph'.enqueued || o'.isSuccess) = b →
        ChannelAt n (q.afterProd ph' (act.exec q.mem).2 o') (r.step ph ph') (tp + ph.jump ph') ph' cph
          fd fd' { mem := { mem with queue := (act.exec q.mem).2 }, prod, cons,
                   enqueued := ph'.enqueued || o'.isSuccess }
          { queue := absQueue (r.step ph ph') (tp + ph.jump ph')
              (toldTo (r.step ph ph') ph' (ph'.enqueued || o'.isSuccess)) cph
              (q.afterProd ph' (act.exec q.mem).2 o'),
            pushing, popping := pops } := by
      rintro prod _ pushing hstatus rfl
      refine ⟨rfl, hat.cons, rfl, hat.msgs, hinv, hstatus, hat.pop, hat.underway, ?_, rfl⟩
      show unreadSlots _ _ (act.exec q.mem).2.tail =
        mem.eventfd + (popping cons).toNat + (ph'.enqueued || o'.isSuccess).toNat
      omega
    replace hs : some (({
        mem := { mem with queue := (act.exec mem.queue).2 }
        prod := .busy op (afterPush β fd op (.act act f))
        cons := cons
        enqueued := ChannelOp.track ph.enqueued (ChannelOp.queue (β := β) act) (act.exec mem.queue).1 } :
          ChannelState β).prodAt op (afterPush β fd op (f (act.exec mem.queue).1))) = some (s', o) := hs
    rw [← hmem, htrack] at hs
    rcases hcode with ⟨p, z, hf, rfl, rfl⟩ | ⟨hthread', rfl⟩
    · rw [hf] at hs
      have hret : afterPush β fd op (.ret (p, z)) =
          ({ queue := p, eventfd := fd, cache := none } : Producer β).signal op z := rfl
      rw [hret, Producer.signal] at hs
      have hsucc := hstep.isSuccess hthread
      by_cases hz : z = op.success
      · -- the message has been enqueued, the consumer is not told yet
        subst hz
        rw [if_pos ⟨hfd, rfl⟩] at hs
        cases hs
        rcases htold with ⟨hout, hsame⟩ | ⟨z, hz, hne, -⟩
        · rcases hout with ⟨hsilent, -⟩ | ⟨-, hmsg⟩
          · cases hsilent
          · rw [← hmsg, ← hsame]
            exact ⟨_, _, _, _, _, .stay, hafter _ _ _ .signal (hsucc.trans (decide_eq_true rfl))⟩
        · cases hz
          exact absurd rfl hne
      · rw [if_neg fun hp => hz hp.2] at hs
        cases hs
        rcases htold with ⟨hout, -⟩ | ⟨z', hz', -, hdone⟩
        · rcases hout with ⟨hsilent, -⟩ | ⟨hsuccess, -⟩
          · cases hsilent
          · cases hsuccess
            exact absurd rfl hz
        · cases hz'
          exact ⟨_, _, _, _, _, .push rfl hdone,
            hafter _ _ _ .idle (hsucc.trans (decide_eq_false hz))⟩
    · obtain ⟨b, g, hact⟩ := ProducerPhase.thread_busy hthread'
      rcases htold with ⟨hout, hsame⟩ | ⟨z, hz, -⟩
      · rcases hout with ⟨-, hmsg⟩ | ⟨hsuccess, -⟩
        · rw [hact] at hs hthread'
          cases hs
          rw [← hmsg, ← hsame]
          exact ⟨_, _, _, _, _, .stay, hafter _ _ _ (.busy hthread') (Bool.or_false _)⟩
        · cases hsuccess
      · cases hz

/-- A step of the consumer: the pop reads the counter, or the pop of the queue goes on. -/
theorem ChannelAt.consStep (hn : SizeOk n) (hat : ChannelAt n q r tp ph cph fd fd' s a)
    (hs : s.consStep = some (s', o)) :
    ∃ q' tp' cph' a', a.Move (n - 1) (s.observe .consStep s' o) a' ∧
      ChannelAt n q' r tp' ph cph' fd fd' s' a' := by
  obtain ⟨mem, prod, cons, b⟩ := s
  obtain ⟨queue, pushing, pops⟩ := a
  have hpop := hat.pop
  have hcount := hat.count
  have hmem := hat.mem
  have hqueue := hat.queue
  have hpops := hat.underway
  dsimp only at hpop hcount hmem hqueue hpops
  subst hqueue hpops
  cases hpop with
  | idle => cases hs
  | @read c =>
    by_cases hzero : mem.eventfd = 0
    · -- the pop does not look at the queue
      simp only [ChannelState.consStep, ChannelOp.exec, hzero, if_true] at hs
      cases hs
      have hnothing : unreadSlots r tp q.mem.tail = b.toNat := by
        rw [hcount, hzero]
        show 0 + 0 + b.toNat = _
        omega
      have hdone := hat.inv.pop_nothing hn hnothing
      refine ⟨q, tp, .idle c,
        { queue := absQueue r tp (toldTo r ph b) (.idle c) q, pushing, popping := false }, ?_,
        { hat with pop := .idle, underway := rfl, count := hcount, queue := rfl }⟩
      cases hmsg : c.msg.isSome <;> rw [hmsg] at hdone <;> exact .pop rfl hdone
    · simp only [ChannelState.consStep, ChannelOp.exec, hzero, if_false, if_true,
        ConsumerPhase.code_pop] at hs
      cases hs
      refine ⟨{ q with cons := (ConsumerPhase.call .pop c).thread }, tp, .call .pop c, _, .stay, hat.prod,
        rfl, hat.mem, hat.msgs, ?_, hat.push, .busy rfl, rfl, ?_, rfl⟩
      · exact QueueStep.popInv (e := .pop .pop) hn hat.inv trivial .pop
      · rw [hcount]
        show mem.eventfd + 0 + b.toNat = mem.eventfd - 1 + 1 + b.toNat
        omega
  | @busy prog cph hthread =>
    obtain ⟨act, f, rfl⟩ := ConsumerPhase.thread_busy hthread
    obtain ⟨cph', o', hstep, hcode⟩ := consStep_code hat.cons hthread
    have hinv : PopInv n r (tp + cph.jump cph') ph cph' (q.afterCons cph' _ o') :=
      QueueStep.popInv (e := .consStep) hn hat.inv trivial (.consStep hstep)
    -- the counter has been lowered for a message the consumer has been told of
    have hpos : unreadSlots r tp q.mem.tail = mem.eventfd + 1 + b.toNat := hcount
    have ht : q.mem.tail ≠ indexInvalid := by
      intro ht
      rw [unreadSlots, if_pos ht] at hpos
      omega
    have hunread := hstep.unread hn hat.inv (by omega)
    have hto : unreadFrom tp q.mem.tail < toldTo r ph b ∧ toldTo r ph b ≤ r.hi := by
      have hlen := hat.inv.told_count hn hpos
      replace hlen : ((r.segment _ _).map q.msgs).length = mem.eventfd + 1 := hlen
      rw [List.length_map, Window.length_segment] at hlen
      have hle : toldTo r ph b ≤ r.hi := by
        unfold toldTo pushedTo
        split <;> omega
      exact ⟨by omega, hle⟩
    have htold := hstep.told hn hat.inv ht hto.1 hto.2
    replace hs : some (({
        mem := { mem with queue := (act.exec mem.queue).2 }
        prod := prod
        cons := .busy () (afterPop β fd' (.act act f))
        enqueued := b } : ChannelState β).consAt (afterPop β fd' (f (act.exec mem.queue).1))) =
          some (s', o) := hs
    rw [← hmem] at hs
    rw [hpos] at hunread
    rcases hcode with ⟨c, z, hf, rfl, rfl⟩ | ⟨hthread', rfl⟩
    · rw [hf] at hs
      cases hs
      rcases hunread with ⟨hsilent, -⟩ | ⟨z', hz', -, hcount'⟩
      · cases hsilent
      · cases hz'
        rcases htold with ⟨hsilent, -⟩ | ⟨z', hz', hdone⟩
        · cases hsilent
        · cases hz'
          have hdelivered : (q.afterCons (.idle c) (act.exec q.mem).2 (.popped z)).delivered z =
              if z.isTaken then c.msg.map mem.msgs else none := by
            show (if z.isTaken then c.msg.map q.msgs else none) = _
            rw [hat.msgs]
          rw [hdelivered] at hdone
          refine ⟨q.afterCons _ _ _, _, _, _, .pop rfl hdone, hat.prod, rfl, rfl, hat.msgs, hinv,
            hat.push, .idle, rfl, ?_, rfl⟩
          show unreadSlots _ _ (act.exec q.mem).2.tail = mem.eventfd + 0 + b.toNat
          replace hcount' : unreadSlots _ _ (act.exec q.mem).2.tail + 1 = mem.eventfd + 1 + b.toNat :=
            hcount'
          omega
    · obtain ⟨d, g, hact⟩ := ConsumerPhase.thread_busy hthread'
      rw [hact] at hs hthread'
      cases hs
      rcases htold with ⟨-, hsame⟩ | ⟨z, hz, -⟩
      · rw [← hsame]
        refine ⟨q.afterCons _ _ _, _, _, _, .stay, hat.prod, rfl, rfl, hat.msgs, hinv, hat.push,
          .busy hthread', rfl, ?_, rfl⟩
        rcases hunread with ⟨-, hkept⟩ | ⟨z, hz, -⟩
        · exact hkept
        · cases hz
      · cases hz

end channel

/-! ## Runs -/

section runs

variable {β : Type} {n : Nat} {s s' : ChannelState β} {o : QueueOutcome} {a : AtomicQueue β}
  {h : List (QueueHistoryEvent β)}

/-- The atomic queue at the start. -/
theorem ChannelRel.of_init (hn : SizeOk n) (hinit : (channelSystem β n).init s) :
    ChannelRel n s (AtomicQueue.init β (n - 1)) := by
  obtain ⟨q, fd, fd', hq, hfd, hfd', hs⟩ := hinit
  obtain ⟨p, hp⟩ := queue_created hn hq
  rw [ChannelState.onNew, hp.prod, hp.cons] at hs
  cases hs
  refine ⟨q, _, _, .idle p, .idle _, fd, fd', hfd, hfd',
    hp.prod, hp.cons, rfl, rfl, hp.popInv hn, .idle, .idle, rfl, ?_, ?_⟩
  · rw [unreadSlots, if_pos hp.memTail]
    rfl
  · have hto : (Ring.fresh n).hi ≤ n - 1 + 1 := Nat.le_succ _
    show (boundedQueue β (n - 1)).init = absQueue (Ring.fresh n) (n - 1) (Ring.fresh n).hi
      (.idle { nMsgs := n, current := indexInvalid }) q
    simp only [absQueue, unreadFrom, hp.memTail, Index.consumed_indexInvalid, if_true,
      Window.segment_nil hto]
    rfl

/-- Each step of the channel is a move of the atomic queue. -/
theorem ChannelRel.step (hn : SizeOk n) (hrel : ChannelRel n s a) {e : ChannelEvent β}
    (hs : s.step e = some (s', o)) :
    ∃ a', a.Move (n - 1) (s.observe e s' o) a' ∧ ChannelRel n s' a' := by
  obtain ⟨q, r, tp, ph, cph, fd, fd', hfd, hfd', hat⟩ := hrel
  cases e with
  | write z =>
    obtain ⟨q', hat'⟩ := hat.write hn hs
    exact ⟨a, .stay, _, _, _, _, _, _, _, hfd, hfd', hat'⟩
  | push op =>
    obtain ⟨q', ph', a', hmove, hat'⟩ := hat.callPush hn hs
    exact ⟨a', hmove, _, _, _, _, _, _, _, hfd, hfd', hat'⟩
  | prodStep =>
    obtain ⟨q', r', tp', ph', a', hmove, hat'⟩ := hat.prodStep hn hfd hs
    exact ⟨a', hmove, _, _, _, _, _, _, _, hfd, hfd', hat'⟩
  | pop =>
    obtain ⟨a', hmove, hat'⟩ := hat.callPop hfd' hs
    exact ⟨a', hmove, _, _, _, _, _, _, _, hfd, hfd', hat'⟩
  | consStep =>
    obtain ⟨q', tp', cph', a', hmove, hat'⟩ := hat.consStep hn hs
    exact ⟨a', hmove, _, _, _, _, _, _, _, hfd, hfd', hat'⟩

/-- The channel refines the queue whose operations take place when they return. -/
theorem channel_refines (hn : SizeOk n) :
    Refines (channelSystem β n) Machine.always ChannelState.observe
      (· = AtomicQueue.init β (n - 1)) (AtomicQueue.Move (n - 1)) (ChannelRel n) where
  init _ hinit := ⟨_, rfl, ChannelRel.of_init hn hinit⟩
  step _ _ _ _ _ hrel _ hs := hrel.step hn hs

/-- Every history of pushes and pops on a channel with eventfds is one of the bounded queue of capacity
    `n - 1`.  In particular a pop that says that there is nothing new is right at some moment of the
    pop, and no message is ever left unread because of the counter. -/
theorem channel_linearizable (h3 : 3 ≤ n) (hmax : n ≤ 2 ^ 30)
    (hr : (channelSystem β n).Observed Machine.always ChannelState.observe h s) :
    Linearizable (boundedQueue β (n - 1)) h := by
  obtain ⟨a, hpath, -⟩ := (channel_refines ⟨h3, hmax⟩).path hr
  obtain ⟨x, y, htr, -⟩ : AtomicQueue.Explained n h a := by
    refine hpath.invariant ?_ ?_
    · rintro _ rfl
      exact AtomicQueue.explained_init
    · intro h a seen a' he hm
      exact hm.explained he
  exact htr.linearizable

end runs

/-- A pop comes after the push has appended its message and before it writes the counter: it finds
    nothing, and the next one takes the message. -/
theorem channel_linearizable_told : ∃ h s,
    (channelSystem Nat 3).Observed Machine.always ChannelState.observe h s ∧
      h = [.invoke .producer (.push .forcePush 10), .invoke .consumer .pop,
        .respond .consumer (.popped .noMsg none), .respond .producer (.pushed (.forcePush .success)),
        .invoke .consumer .pop, .respond .consumer (.popped .success (some 10))] ∧
      Linearizable (boundedQueue Nat 2) h := by
  have hwatch : ((QueueState.zeroed 3 0).bind fun q => (ChannelState.onNew q 0 1).bind fun s =>
      (channelSystem Nat 3).record Machine.always ChannelState.observe
        [.write 10, .push .forcePush, .prodStep, .prodStep, .prodStep, .pop, .consStep, .prodStep,
          .pop, .consStep, .consStep] ([], s)).any (fun hs => decide (hs.1 =
        [.invoke .producer (.push .forcePush 10), .invoke .consumer .pop,
          .respond .consumer (.popped .noMsg none), .respond .producer (.pushed (.forcePush .success)),
          .invoke .consumer .pop, .respond .consumer (.popped .success (some 10))])) = true := by decide
  obtain ⟨⟨h, s⟩, hrec, hh⟩ := (Option.any_eq_true _ _).mp hwatch
  obtain ⟨q, hq, hrec⟩ := Option.bind_eq_some_iff.mp hrec
  obtain ⟨s₀, hnew, hrec⟩ := Option.bind_eq_some_iff.mp hrec
  have hinit : (channelSystem Nat 3).init s₀ := ⟨q, 0, 1, ⟨_, _, _, hq⟩, by decide, by decide, hnew⟩
  have hr := (Machine.Observed.init hinit).record hrec
  exact ⟨h, s, hr, of_decide_eq_true hh, channel_linearizable (by decide) (by decide) hr⟩

end Rtipc
