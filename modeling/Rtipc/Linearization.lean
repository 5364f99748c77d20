/-
  Pushes and pops are linearizable.

  As long as the consumer only pops, every history of the queue is a history of the bounded queue of
  capacity `n - 1` (`queue_linearizable`).  The moments at which the operations are performed:

  * a pop, with its last access;
  * the first push, when it sets the tail;
  * `try_push`, when it appends its message, or when it finds the queue full;
  * `force_push`, when it appends its message, if there is room.  Otherwise its message is on the
    chain but not yet in the queue (`ProducerPhase.waiting`): the push is performed right after the
    pop that makes room, or with the compare-exchange that discards the oldest message.

  `absQueue` is the state of the bounded queue that belongs to a state of the code.

  1. **The simulation.**  `Simulates` relates a state of the code to a history so far and a state of the
     bounded queue.  One step of the code is none, one or two operations of the bounded queue
     (`QueueStep.simulates`), and `simulates_run` is the induction over the run.

  2. **The producer.**  `ProducerStep.simulates`: an append is either a push that succeeds, or the
     beginning of one that waits; a compare-exchange on the tail is the push that discards.  All other
     steps are quiet.

  3. **The consumer.**  `ConsumerStep.simulates`: a pop acts with its last access.  If the producer
     waits, the same access makes room, and the push is performed right behind (`WaitingForce.perform`).

  4. **The crux.**  A `force_push` that waits is not in the queue yet, but its message is on the chain.
     So the queue ends one message before the chain does (`pushedTo`), and a pop may take the last one
     only after the push has been performed.  That it never comes so far is `waiting_force`.
-/
import Rtipc.AbstractQueue
import Rtipc.PopOnly

namespace Rtipc

/-- The push has appended its message, but is not performed yet. -/
def ProducerPhase.waiting (r : Ring) (tp : Nat) (m : QueueMem) : ProducerPhase → Bool
  | .first2 _ _ _ => true
  | .enq3 .force p _ | .forceLoad p _ | .move p _ _ | .moveFull p _ _ | .jumping p _ =>
      decide (tp = r.lo ∧ ¬ (p.overrun ≠ indexInvalid ∧ m.tail.consumed = true))
  | _ => false

section defs

variable {β : Type}

/-- The state of the bounded queue, with the messages up to position `e`. -/
def absQueue (r : Ring) (tp e : Nat) (cph : ConsumerPhase) (s : QueueState β) : BoundedQueue β where
  unread := (r.segment (unreadFrom tp s.mem.tail) e).map s.msgs
  held := if cph.queue.current = indexInvalid then none else some (s.msgs cph.queue.current)
  gap := !s.mem.tail.consumed && !s.mem.tail.first

/-- The end of the messages that have been pushed. -/
def pushedTo (r : Ring) (w : Bool) : Nat := if w then r.hi - 1 else r.hi

/-- Where a thread is in its current call of the queue. -/
abbrev QueueStatus (β : Type) : Type := Status (QueueCall β) (QueueReply β)

/-- The push of the current message has been called. -/
def PushCalled (s : QueueState β) (op : PushOp) (p : ProducerQueue) (q : QueueStatus β) : Prop :=
  ∃ k, q = .called k (.push op (s.msgs p.current))

/-- The push has been performed, and has not lost a message. -/
def PushDone (op : PushOp) (q : QueueStatus β) : Prop :=
  ∃ k i, q = .done k i (.pushed op.success)

/-- What the point of the producer says about its operation; `w` says that the push is waiting. -/
def ProducerAt (s : QueueState β) (w : Bool) (q : QueueStatus β) : ProducerPhase → Prop
  | .idle _ => q = .idle
  | .first1 op p _ => PushCalled s op p q
  | .first2 op p _ => PushCalled s op p q
  | .first3 op _ _ => PushDone op q
  | .tryLoad p _ => PushCalled s .tryPush p q
  | .enq1 k p _ => PushCalled s k.op p q
  | .enq2 k p _ => PushCalled s k.op p q
  | .enq3 k p _ => if w then PushCalled s k.op p q else PushDone k.op q
  | .requeue op _ _ => PushDone op q
  | .forceLoad p _ | .move p _ _ | .moveFull p _ _ | .jumping p _ =>
      if w then PushCalled s .forcePush p q else PushDone .forcePush q

/-- What the point of the consumer says about its operation: a pop is performed when it returns. -/
def ConsumerAt (q : QueueStatus β) : ConsumerPhase → Prop
  | .idle _ => q = .idle
  | _ => ∃ k, q = .called k .pop

/-- The points of the two sides in their operations. -/
def sides (q q' : QueueStatus β) : Side → QueueStatus β
  | .producer => q
  | .consumer => q'

/-- The history is explained by operations that leave the bounded queue in the state `a` and the two
    sides at `q` and `q'`. -/
def TracksAt (n : Nat) (h : List (QueueHistoryEvent β)) (a : BoundedQueue β)
    (q q' : QueueStatus β) : Prop := Tracks (boundedQueue β (n - 1)) h a (sides q q')

/-- The history is explained by operations that leave the bounded queue as the code has it. -/
def Simulates (n : Nat) (r : Ring) (tp : Nat) (ph : ProducerPhase) (cph : ConsumerPhase)
    (s : QueueState β) (h : List (QueueHistoryEvent β)) : Prop :=
  ∃ q q', TracksAt n h (absQueue r tp (pushedTo r (ph.waiting r tp s.mem)) cph s) q q' ∧
    ProducerAt s (ph.waiting r tp s.mem) q ph ∧ ConsumerAt q' cph

end defs

/-! ## How full the bounded queue is

  The number of messages and the number of slots on the list differ by the slot that the consumer
  holds and the one that is kept back.  This section is the arithmetic of it. -/

section size

variable {β : Type} {n : Nat} {r : Ring} {tp e : Nat} {ph : ProducerPhase} {cph : ConsumerPhase}
  {s : QueueState β}

/-- The abstract queue holds what is unread and the message in the hands of the consumer. -/
theorem absQueue_size : (absQueue r tp e cph s).size =
    (e - unreadFrom tp s.mem.tail) + if cph.queue.current = indexInvalid then 0 else 1 := by
  simp only [BoundedQueue.size, absQueue, List.length_map, Window.length_segment]
  split <;> rfl

/-- With a tail that is set, the consumer holds a slot exactly if the tail is consumed or a slot is
    kept back. -/
theorem PopInv.current_iff (h : PopInv n r tp ph cph s) (ht : s.mem.tail ≠ indexInvalid) :
    cph.queue.current ≠ indexInvalid ↔
      s.mem.tail.consumed = true ∨ ph.queue.overrun ≠ indexInvalid := by
  refine ⟨fun hne => ?_, h.popOnly.holder ht⟩
  cases hc : s.mem.tail.consumed with
  | true => exact Or.inl rfl
  | false => exact Or.inr ((h.holds hne).skipped hc ▸ hne)

/-- The queue is full exactly if the tail is at the front of the list, unless the consumer has left
    the slot kept back for it. -/
theorem PopInv.size_lt_iff (hn : SizeOk n) (h : PopInv n r tp ph cph s)
    (ht : s.mem.tail ≠ indexInvalid) (he : e + 1 + ph.queue.spare = r.lo + n) (hte : tp < e) :
    ((absQueue r tp e cph s).size < n - 1 ↔
      ¬ (tp = r.lo ∧ ¬ (ph.queue.overrun ≠ indexInvalid ∧ s.mem.tail.consumed = true))) ∧
    (absQueue r tp e cph s).size ≤ n - 1 := by
  have h3 := hn.three_le
  have hcur := h.current_iff ht
  have hlo := h.delivery.lo_le
  rw [absQueue_size, unreadFrom]
  by_cases ho : ph.queue.overrun = indexInvalid
  · rw [spare_of_eq ho] at he
    cases hc : s.mem.tail.consumed with
    | true =>
      rw [if_pos rfl, if_neg (hcur.mpr (Or.inl hc))]
      simp only [ho, ne_eq, not_true, not_false_eq_true, and_true]
      omega
    | false =>
      have hnone : cph.queue.current = indexInvalid := by
        by_contra hne
        rcases hcur.mp hne with h' | h'
        · rw [hc] at h'
          cases h'
        · exact h' ho
      rw [if_neg (by decide), if_pos hnone]
      simp only [ho, ne_eq, not_true, not_false_eq_true, and_true, false_and]
      omega
  · rw [spare_of_ne ho] at he
    rw [if_neg (hcur.mpr (Or.inr ho))]
    cases hc : s.mem.tail.consumed with
    | true =>
      rw [if_pos rfl]
      simp only [ho, ne_eq, not_false_eq_true, and_true, not_true, and_false, iff_true]
      omega
    | false =>
      -- a tail that is not consumed blocks the slot kept back, at the front of the list
      have hfront := h.queue.shared.blocked ho hc
      have hset : ph.queue.head ≠ indexInvalid := fun hh => ht (h.queue.shared.unset hh)
      have htp := h.delivery.at_lo h.queue.ring.path hset
        (by rw [hfront]; exact hn.slot (h.queue.ring.path.lt _))
      rw [if_neg (by decide)]
      simp only [htp, Bool.false_eq_true, and_false, not_false_eq_true, and_true, not_true,
        iff_false]
      omega

end size

/-! ## The rules of the two sides

  The rules of the library, once for each side, in terms of what the side has called. -/

section rules

variable {β : Type} {n : Nat} {h : List (QueueHistoryEvent β)} {a : BoundedQueue β}
  {q q' : QueueStatus β} {k : Nat} {i : QueueCall β} {y : QueueReply β}

/-- The status of the producer replaced. -/
theorem update_sides_producer (x : QueueStatus β) :
    Function.update (sides q q') .producer x = sides x q' := by
  funext t
  cases t <;> rfl

/-- The status of the consumer replaced. -/
theorem update_sides_consumer (x : QueueStatus β) :
    Function.update (sides q q') .consumer x = sides q x := by
  funext t
  cases t <;> rfl

/-- The invocation of a push. -/
theorem TracksAt.call_push (ht : TracksAt n h a q q') (i : QueueCall β) :
    TracksAt n (h ++ [.invoke .producer i]) a (.called h.length i) q' := by
  have := Tracks.invoke ht .producer i
  rwa [update_sides_producer] at this

/-- The invocation of a pop. -/
theorem TracksAt.call_pop (ht : TracksAt n h a q q') (i : QueueCall β) :
    TracksAt n (h ++ [.invoke .consumer i]) a q (.called h.length i) := by
  have := Tracks.invoke ht .consumer i
  rwa [update_sides_consumer] at this

/-- The point at which a push takes effect. -/
theorem TracksAt.push {op : PushOp} {x : β} (ht : TracksAt n h a (.called k (.push op x)) q') :
    TracksAt n h (a.push (n - 1) op x).1 (.done k (.push op x) (a.push (n - 1) op x).2) q' := by
  have := Tracks.perform (t := .producer) ht rfl
  rwa [update_sides_producer] at this

/-- The point at which a pop takes effect. -/
theorem TracksAt.pop (ht : TracksAt n h a q (.called k .pop)) :
    TracksAt n h a.pop.1 q (.done k .pop a.pop.2) := by
  have := Tracks.perform (t := .consumer) ht rfl
  rwa [update_sides_consumer] at this

/-- The return of a push, with the reply it got at its point. -/
theorem TracksAt.reply_push (ht : TracksAt n h a (.done k i y) q') :
    TracksAt n (h ++ [.respond .producer y]) a .idle q' := by
  have := Tracks.respond (t := .producer) ht rfl
  rwa [update_sides_producer] at this

/-- The return of a pop. -/
theorem TracksAt.reply_pop (ht : TracksAt n h a q (.done k i y)) :
    TracksAt n (h ++ [.respond .consumer y]) a q .idle := by
  have := Tracks.respond (t := .consumer) ht rfl
  rwa [update_sides_consumer] at this

/-- A push into a queue that has room. -/
theorem TracksAt.push_room {op : PushOp} {x : β}
    (ht : TracksAt n h a (.called k (.push op x)) q') (hlt : a.size < n - 1) :
    TracksAt n h { a with unread := a.unread ++ [x] }
      (.done k (.push op x) (.pushed op.success)) q' := by
  have := ht.push
  rwa [BoundedQueue.push_room hlt] at this

end rules

/-! ## The steps of the producer

  Each step is quiet, or an operation of the bounded queue, with what the push returns if it returns. -/

section producer

variable {β : Type} {n : Nat} {r r' : Ring} {tp tp' e : Nat} {ph ph' : ProducerPhase}
  {cph : ConsumerPhase} {s s' : QueueState β} {m' : QueueMem} {o : QueueOutcome}
  {h : List (QueueHistoryEvent β)}

/-- What the application sees of a step of the producer. -/
def pushReply (β : Type) : QueueOutcome → List (QueueHistoryEvent β)
  | .pushed y => [.respond .producer (.pushed y)]
  | _ => []

/-- The abstract queue depends on the tail, the messages and the slots on the chain, and on nothing
    else. -/
theorem absQueue_congr (htail : s'.mem.tail = s.mem.tail) (hmsgs : s'.msgs = s.msgs)
    (hord : ∀ k, tp ≤ k → k < e → r'.ord k = r.ord k) :
    absQueue r' tp e cph s' = absQueue r tp e cph s := by
  have hseg : r'.segment (unreadFrom tp s.mem.tail) e = r.segment (unreadFrom tp s.mem.tail) e :=
    Window.segment_congr fun k hk hk' => hord k (le_trans (le_unreadFrom _ _) hk) hk'
  simp only [absQueue, htail, hmsgs, hseg]

/-- The tail stays, and the messages in the queue are the same. -/
theorem Simulates.quiet {w w' : Bool} (hsim : Simulates n r tp ph cph s h)
    (htail : s'.mem.tail = s.mem.tail) (hmsgs : s'.msgs = s.msgs)
    (hw : ph.waiting r tp s.mem = w) (hw' : ph'.waiting r' tp s'.mem = w')
    (hto : pushedTo r' w' = pushedTo r w) (hord : ∀ k, k < pushedTo r w → r'.ord k = r.ord k)
    (hat : ∀ q, ProducerAt s w q ph → ProducerAt s' w' q ph') :
    Simulates n r' tp ph' cph s' h := by
  obtain ⟨q, q', ht, hp, hc⟩ := hsim
  subst hw hw'
  refine ⟨q, q', ?_, hat q hp, hc⟩
  rw [hto, absQueue_congr htail hmsgs fun k _ hk => hord k hk]
  exact ht

/-- A push that is performed returns. -/
theorem Simulates.reply (hsim : Simulates n r tp ph cph s h) {p' : ProducerQueue} (op : PushOp)
    (htail : s'.mem.tail = s.mem.tail) (hmsgs : s'.msgs = s.msgs)
    (hw : ph.waiting r tp s.mem = false) (hhi : r'.hi = r.hi) (hord : r'.ord = r.ord)
    (hdone : ∀ q, ProducerAt s false q ph → PushDone op q) :
    Simulates n r' tp (.idle p') cph s' (h ++ pushReply β (.pushed op.success)) := by
  obtain ⟨q, q', ht, hp, hc⟩ := hsim
  rw [hw] at ht hp
  obtain ⟨k, i, rfl⟩ := hdone q hp
  refine ⟨.idle, q', ?_, rfl, hc⟩
  have hto : pushedTo r' ((ProducerPhase.idle p').waiting r' tp s'.mem) = pushedTo r false := hhi
  rw [hto, absQueue_congr htail hmsgs fun k _ _ => congrFun hord k]
  exact ht.reply_push

/-- No force push waits for its slot unless the queue is full and the overrun slot still taken. -/
theorem waiting_eq_false {p : ProducerQueue} {m : QueueMem}
    (hnot : r.lo < tp ∨ p.overrun ≠ indexInvalid ∧ m.tail.consumed = true) :
    decide (tp = r.lo ∧ ¬ (p.overrun ≠ indexInvalid ∧ m.tail.consumed = true)) = false := by
  refine decide_eq_false ?_
  rintro ⟨htp, hno⟩
  rcases hnot with hlt | hover
  · omega
  · exact hno hover

/-- A push into a queue that has room appends its message. -/
theorem absQueue_append {x : Index} (hle : unreadFrom tp s.mem.tail ≤ r.hi)
    (htail : s'.mem.tail = s.mem.tail) (hmsgs : s'.msgs = s.msgs) :
    absQueue (r.append x) tp (r.hi + 1) cph s' =
      { absQueue r tp r.hi cph s with
        unread := (absQueue r tp r.hi cph s).unread ++ [s.msgs x] } := by
  have hseg : (r.append x).segment (unreadFrom tp s.mem.tail) r.hi =
      r.segment (unreadFrom tp s.mem.tail) r.hi :=
    Window.segment_congr fun k _ hk => Window.append_ord (by omega)
  simp only [absQueue, htail, hmsgs, Window.segment_snoc hle, hseg, List.map_append,
    List.map_singleton, Window.append_ord_hi]

/-- A push into a full queue discards the oldest unread message. -/
theorem absQueue_discard {k : Nat} (hstart : unreadFrom tp s.mem.tail + 1 = tp')
    (hlt : tp' < r.hi) (hcons : s'.mem.tail.consumed = false) (hfirst : s'.mem.tail.first = false)
    (hmsgs : s'.msgs = s.msgs) :
    absQueue (r.drop k) tp' r.hi cph s' =
      { absQueue r tp (r.hi - 1) cph s with
        unread := (absQueue r tp (r.hi - 1) cph s).unread.tail ++ [s.msgs (r.ord (r.hi - 1))]
        gap := true } := by
  have hseg : (r.drop k).segment tp' r.hi = r.segment tp' (r.hi - 1) ++ [r.ord (r.hi - 1)] := by
    have h1 := Window.segment_snoc (w := r) (i := tp') (j := r.hi - 1) (by omega)
    rw [show r.hi - 1 + 1 = r.hi from by omega] at h1
    exact h1
  have hcons' : r.segment (unreadFrom tp s.mem.tail) (r.hi - 1) =
      r.ord (unreadFrom tp s.mem.tail) :: r.segment tp' (r.hi - 1) := by
    rw [Window.segment_cons (by omega), hstart]
  have hfrom : unreadFrom tp' s'.mem.tail = tp' := by
    rw [unreadFrom, hcons]
    rfl
  simp only [absQueue, hfrom, hseg, hcons', hcons, hfirst, hmsgs, List.map_append, List.map_cons,
    List.map_nil, List.tail_cons, Bool.not_false, Bool.and_self]

/-- A waiting `force_push` that discards a message returns. -/
theorem Simulates.discard (hn : SizeOk n) (hinv : PopInv n r tp ph cph s)
    (hsim : Simulates n r tp ph cph s h) {p p' : ProducerQueue} {k : Nat}
    (hp : AfterAppend n r p) (hq : ph.queue = p) (ht : s.mem.tail ≠ indexInvalid)
    (hwait : ph.waiting r tp s.mem = decide (tp = r.lo ∧
      ¬ (p.overrun ≠ indexInvalid ∧ s.mem.tail.consumed = true)))
    (hat : ∀ q, ProducerAt s true q ph → PushCalled s .forcePush p q)
    (hlo : tp = r.lo) (hover : s.mem.tail.consumed = true → p.overrun = indexInvalid)
    (hstart : unreadFrom tp s.mem.tail + 1 = tp') (hlt : tp' < r.hi)
    (htail : s'.mem.tail = r.ord tp') (hmsgs : s'.msgs = s.msgs) :
    Simulates n (r.drop k) tp' (.idle p') cph s'
      (h ++ pushReply β (.pushed (.forcePush .discarded))) := by
  -- The tail has not been consumed, or nothing is kept back: the force push is the one that waits.
  have hw : ph.waiting r tp s.mem = true := by
    rw [hwait]
    exact decide_eq_true ⟨hlo, fun hno => hno.1 (hover hno.2)⟩
  obtain ⟨q, q', htr, hpat, hc⟩ := hsim
  rw [hw] at htr hpat
  obtain ⟨k', rfl⟩ := hat q hpat
  have hge := hp.two_le hn
  have hsize := hp.size
  -- So the abstract queue is full,
  have hfull := (hinv.size_lt_iff hn ht (e := r.hi - 1) (by rw [hq]; omega) (by omega)).1
  have hnot : ¬ (absQueue r tp (r.hi - 1) cph s).size < n - 1 := by
    rw [hfull, hq]
    exact fun hno => hno ⟨hlo, fun hno' => hno'.1 (hover hno'.2)⟩
  have hcons : s'.mem.tail.consumed = false := htail ▸ hn.consumed (hp.lt _)
  have hfirst : s'.mem.tail.first = false := htail ▸ hn.first (hp.lt _)
  -- and its force push discards the oldest message, which is the one at the tail.
  have hpush := htr.push
  rw [pushedTo, if_pos rfl, BoundedQueue.forcePush_full hnot, hp.current_eq,
    ← absQueue_discard (k := k) hstart hlt hcons hfirst hmsgs] at hpush
  exact ⟨.idle, q', hpush.reply_push, rfl, hc⟩

/-- A `try_push` that finds the queue full returns. -/
theorem Simulates.fail (hn : SizeOk n) {p : ProducerQueue} {next : Index}
    (hinv : PopInv n r tp (.tryLoad p next) cph s) (hsim : Simulates n r tp (.tryLoad p next) cph s h)
    (ht : s.mem.tail ≠ indexInvalid)
    (hfull : tp = r.lo ∧ ¬ (p.overrun ≠ indexInvalid ∧ s.mem.tail.consumed = true))
    (htail : s'.mem.tail = s.mem.tail) (hmsgs : s'.msgs = s.msgs) :
    Simulates n r tp (.idle p) cph s' (h ++ pushReply β (.pushed (.tryPush .fail))) := by
  obtain ⟨q, q', htr, ⟨k, rfl⟩, hc⟩ := hsim
  have hset : p.head ≠ indexInvalid := fun hh => ht (hinv.queue.shared.unset hh)
  have hsize := (hinv.size_lt_iff hn ht hinv.queue.ring.1.size (hinv.delivery.set hset).1).1
  have hnot : ¬ (absQueue r tp r.hi cph s).size < n - 1 := by
    rw [hsize]
    exact fun hno => hno hfull
  have hpush := TracksAt.push htr
  have hto : pushedTo r ((ProducerPhase.tryLoad p next).waiting r tp s.mem) = r.hi := rfl
  have hsame : absQueue r tp r.hi cph s' = absQueue r tp r.hi cph s :=
    absQueue_congr htail hmsgs fun k _ _ => rfl
  rw [hto, BoundedQueue.tryPush_full hnot, ← hsame] at hpush
  exact ⟨.idle, q', hpush.reply_push, rfl, hc⟩

/-- A push into a queue that has room is performed when it appends its message. -/
theorem Simulates.append (hn : SizeOk n) {p : ProducerQueue} {next : Index} {k : AfterEnqueue}
    (hinv : PopInv n r tp (.enq2 k p next) cph s) (hsim : Simulates n r tp (.enq2 k p next) cph s h)
    (ht : s.mem.tail ≠ indexInvalid)
    (hroom : ¬ (tp = r.lo ∧ ¬ (p.overrun ≠ indexInvalid ∧ s.mem.tail.consumed = true)))
    (htail : s'.mem.tail = s.mem.tail) (hmsgs : s'.msgs = s.msgs)
    (hw : ph'.waiting (r.append p.current) tp s'.mem = false)
    (hat : ∀ q, PushDone k.op q → ProducerAt s' false q ph') :
    Simulates n (r.append p.current) tp ph' cph s' h := by
  obtain ⟨q, q', htr, ⟨j, rfl⟩, hc⟩ := hsim
  have hset : p.head ≠ indexInvalid := fun hh => ht (hinv.queue.shared.unset hh)
  have hlt := (hinv.delivery.set hset).1
  have hsize := (hinv.size_lt_iff hn ht hinv.queue.ring.1.size hlt).1
  have hto : pushedTo r ((ProducerPhase.enq2 k p next).waiting r tp s.mem) = r.hi := rfl
  rw [hto] at htr
  have hpush := htr.push_room (hsize.mpr hroom)
  have hle : unreadFrom tp s.mem.tail ≤ r.hi := by
    unfold unreadFrom
    split <;> omega
  rw [← absQueue_append hle htail hmsgs] at hpush
  refine ⟨.done j (.push k.op (s.msgs p.current)) (.pushed k.op.success), q', ?_, ?_, hc⟩
  · rw [hw]
    exact hpush
  · rw [hw]
    exact hat _ ⟨_, _, rfl⟩

/-- The first push is performed when it sets the tail. -/
theorem Simulates.born (hn : SizeOk n) {op : PushOp} {p : ProducerQueue} {next : Index}
    (hinv : PopInv n r tp (.first2 op p next) cph s)
    (hsim : Simulates n r tp (.first2 op p next) cph s h)
    (htail : s'.mem.tail = p.current ||| firstFlag) (hmsgs : s'.msgs = s.msgs)
    (hw : ph'.waiting r tp s'.mem = false)
    (hat : ∀ q, PushDone op q → ProducerAt s' false q ph') :
    Simulates n r tp ph' cph s' h := by
  obtain ⟨q, q', htr, ⟨j, rfl⟩, hc⟩ := hsim
  obtain ⟨hp, -, hhead, ho, -, hlo⟩ := hinv.queue.ring
  have h3 := hn.three_le
  -- Before the first message nothing is unread and nothing held.
  have hunset := hinv.queue.shared.unset hhead
  have hcur : cph.queue.current = indexInvalid := hinv.queue.cons.unset hunset
  have htp := (hinv.delivery.unset hhead).1
  have hsize := hp.size
  rw [spare_of_eq ho, hlo] at hsize
  have hto : pushedTo r ((ProducerPhase.first2 op p next).waiting r tp s.mem) = r.hi - 1 := rfl
  -- The tail is unset before, and unread behind its first flag afterwards.
  have hfrom : unreadFrom tp s.mem.tail = tp + 1 := by
    rw [hunset]
    exact if_pos Index.consumed_indexInvalid
  have hcons : s'.mem.tail.consumed = false := by
    rw [htail]
    exact (Index.consumed_or_firstFlag _).trans (hn.consumed hp.current_lt)
  have hfirst : s'.mem.tail.first = true := by
    rw [htail]
    exact Index.first_or_firstFlag _
  have hfrom' : unreadFrom tp s'.mem.tail = tp := by
    rw [unreadFrom, hcons]
    rfl
  rw [hto] at htr
  have hempty : (absQueue r tp (r.hi - 1) cph s).size < n - 1 := by
    rw [absQueue_size, hfrom, if_pos hcur]
    omega
  -- There is room, so the push takes effect at the store to the tail.
  have hpush := htr.push_room hempty
  have habs : absQueue r tp r.hi cph s' =
      { absQueue r tp (r.hi - 1) cph s with
        unread := (absQueue r tp (r.hi - 1) cph s).unread ++ [s.msgs p.current] } := by
    have hseg : r.segment tp r.hi = [p.current] := by
      rw [Window.segment_cons (by omega), Window.segment_nil (by omega), hp.current_eq,
        show r.hi - 1 = tp from by omega]
    have hseg' : r.segment (tp + 1) (r.hi - 1) = [] := Window.segment_nil (by omega)
    have hcons0 : s.mem.tail.consumed = true := by
      rw [hunset]
      exact Index.consumed_indexInvalid
    simp only [absQueue, hfrom, hfrom', hseg, hseg', hcur, hcons0, hcons, hfirst, hmsgs,
      List.map_nil, List.map_singleton, List.nil_append, if_true, Bool.not_true, Bool.and_false,
      Bool.false_and]
  rw [← habs] at hpush
  refine ⟨.done j (.push op (s.msgs p.current)) (.pushed op.success), q', ?_, ?_, hc⟩
  · rw [hw]
    exact hpush
  · rw [hw]
    exact hat _ ⟨_, _, rfl⟩

/-- A step of the producer is a step of the abstract queue or none, with the points of the calls where
    they are. -/
theorem ProducerStep.simulates (hn : SizeOk n) (hinv : PopInv n r tp ph cph s)
    (hsim : Simulates n r tp ph cph s h) (hs : ProducerStep ph s.mem ph' m' o) :
    Simulates n (r.step ph ph') (tp + ph.jump ph') ph' cph (s.afterProd ph' m' o)
      (h ++ pushReply β o) := by
  have hring := hinv.queue.ring
  have hm := hinv.queue.shared
  have hd := hinv.delivery
  have hsilent : ∀ {s' : QueueState β},
      Simulates n (r.step ph ph') (tp + ph.jump ph') ph' cph s' h →
      Simulates n (r.step ph ph') (tp + ph.jump ph') ph' cph s' (h ++ pushReply β .silent) := by
    intro s' hs'
    rw [show h ++ pushReply β .silent = h from List.append_nil h]
    exact hs'
  cases hs with
  | first1 =>
    exact hsilent (hsim.quiet rfl rfl rfl rfl rfl (fun k hk => Window.append_ord (Nat.ne_of_lt hk))
      fun _ hq => hq)
  | first2 => exact hsilent (hsim.born hn hinv rfl rfl rfl fun _ hq => hq)
  | first3 => exact hsim.reply _ rfl rfl rfl rfl rfl fun _ hq => hq
  | tryError hv => exact absurd (hring.tryLoad_valid hn hm) hv
  | tryRequeue hv ho hc =>
    exact hsilent (hsim.quiet rfl rfl rfl rfl rfl (fun _ _ => rfl) fun _ hq => hq)
  | tryBlocked hv ho hc =>
    -- the tail at the slot in front says that the queue is full
    obtain ⟨hp, -, -, hst⟩ := hring
    have hset := hn.ne_invalid (hst.head_lt hp.toRingPath)
    have htp := hd.at_lo hp.toRingPath hset (by rw [hm.blocked ho hc]; exact hn.slot (hp.lt _))
    exact hsim.fail hn hinv (hm.tail hset).ne_invalid
      ⟨htp, fun hno => by rw [hc] at hno; cases hno.2⟩ rfl rfl
  | tryNext hv ho hne =>
    exact hsilent (hsim.quiet rfl rfl rfl rfl rfl (fun _ _ => rfl) fun _ hq => hq)
  | tryFull hv ho heq =>
    obtain ⟨hp, -, hnext, hst⟩ := hring
    have hset := hn.ne_invalid (hst.head_lt hp.toRingPath)
    have htp := hd.at_lo hp.toRingPath hset (heq.symm.trans hnext)
    exact hsim.fail hn hinv (hm.tail hset).ne_invalid ⟨htp, fun hno => hno.1 ho⟩ rfl rfl
  | enq1 => exact hsilent (hsim.quiet rfl rfl rfl rfl rfl (fun _ _ => rfl) fun _ hq => hq)
  | @enq2 k p next =>
    obtain ⟨hp, -, hst, hk, -⟩ := hring
    have ht := (hm.tail (hn.ne_invalid (hst.head_lt hp.toRingPath))).ne_invalid
    refine hsilent ?_
    cases k with
    | force =>
      by_cases hfull : tp = r.lo ∧ ¬ (p.overrun ≠ indexInvalid ∧ s.mem.tail.consumed = true)
      · -- the queue is full: the push waits
        have hw : (ProducerPhase.enq3 .force (p.setChain p.head p.current) next).waiting
            (r.append p.current) tp s.mem = true := decide_eq_true hfull
        exact hsim.quiet rfl rfl rfl hw rfl (fun k hk => Window.append_ord (Nat.ne_of_lt hk))
          fun _ hq => hq
      · have hw : (ProducerPhase.enq3 .force (p.setChain p.head p.current) next).waiting
            (r.append p.current) tp s.mem = false := decide_eq_false hfull
        exact hsim.append hn hinv ht hfull rfl rfl hw fun _ hq => hq
    | tryRequeue =>
      refine hsim.append hn hinv ht ?_ rfl rfl rfl fun _ hq => hq
      exact fun hno => hno.2 ⟨hk, hd.ready.1 rfl⟩
    | tryNext =>
      refine hsim.append hn hinv ht ?_ rfl rfl rfl fun _ hq => hq
      have hlt := hd.ready.2 rfl
      exact fun hno => absurd hno.1 (Nat.ne_of_gt hlt)
  | enq3Force => exact hsilent (hsim.quiet rfl rfl rfl rfl rfl (fun _ _ => rfl) fun _ hq => hq)
  | enq3Requeue => exact hsilent (hsim.quiet rfl rfl rfl rfl rfl (fun _ _ => rfl) fun _ hq => hq)
  | enq3Next => exact hsim.reply .tryPush rfl rfl rfl rfl rfl fun _ hq => hq
  | loadError hv => exact absurd (hring.forceLoad_valid hn hm) hv
  | @loadRequeue p next _ hv ho hc =>
    have hw : (ProducerPhase.forceLoad p next).waiting r tp s.mem = false :=
      waiting_eq_false (Or.inr ⟨ho, hc⟩)
    exact hsilent (hsim.quiet rfl rfl hw rfl rfl (fun _ _ => rfl) fun _ hq => hq)
  | loadMove => exact hsilent (hsim.quiet rfl rfl rfl rfl rfl (fun _ _ => rfl) fun _ hq => hq)
  | @loadNext p next _ hv ho hne =>
    -- the tail has left the front: nothing waits
    obtain ⟨hp, hnext, hhead⟩ := hring
    have hlt := hd.lo_lt (hhead ▸ hn.ne_invalid hp.current_lt) (hnext ▸ Ne.symm hne)
    have hw : (ProducerPhase.forceLoad p next).waiting r tp s.mem = false :=
      waiting_eq_false (Or.inl hlt)
    exact hsim.reply .forcePush rfl rfl hw rfl rfl fun _ hq => hq
  | loadMoveFull => exact hsilent (hsim.quiet rfl rfl rfl rfl rfl (fun _ _ => rfl) fun _ hq => hq)
  | loadOver => exact hsilent (hsim.quiet rfl rfl rfl rfl rfl (fun _ _ => rfl) fun _ hq => hq)
  | requeue => exact hsim.reply _ rfl rfl rfl rfl rfl fun _ hq => hq
  | @moved p next tail _ ht =>
    obtain ⟨hp, -, hhead, ho, rfl⟩ := hring
    have hset : p.head ≠ indexInvalid := hhead ▸ hn.ne_invalid hp.current_lt
    have hslot : (r.ord r.lo).slot = r.ord r.lo := hn.slot (hp.lt _)
    have hc : s.mem.tail.consumed = false := ht ▸ hn.consumed (hp.lt _)
    have hlo := hd.at_lo hp.toRingPath hset (by rw [ht]; exact hslot)
    have hlt := hp.two_le hn
    refine hsim.discard hn hinv hp rfl (hm.tail hset).ne_invalid rfl (fun _ hq => hq) hlo
      (fun hno => by rw [hc] at hno; cases hno) ?_ (by show tp + 1 < r.hi; omega) ?_ rfl
    · rw [unreadFrom, hc]
      rfl
    · show p.chain (r.ord r.lo).slot = r.ord (tp + 1)
      rw [hslot, hlo]
      exact hp.link hn
  | @moveLost p next tail _ ht =>
    -- the consumer has marked the tail, and by that the push is performed
    obtain ⟨hp, -, hhead, ho, htail⟩ := hring
    have hc : s.mem.tail.consumed = true := by
      by_contra hc
      exact ht ((hm.blocked ho (by simpa using hc)).trans htail.symm)
    have hw : (ProducerPhase.move p next tail).waiting r tp s.mem = false :=
      waiting_eq_false (Or.inr ⟨ho, hc⟩)
    exact hsilent (hsim.quiet rfl rfl hw rfl rfl (fun _ _ => rfl) fun _ hq => hq)
  | @movedFull p next tail _ ht =>
    obtain ⟨hp, -, hhead, ho, hslot, hc⟩ := hring
    rw [← ht] at hc
    have hset : p.head ≠ indexInvalid := hhead ▸ hn.ne_invalid hp.current_lt
    have hlo := hd.at_lo hp.toRingPath hset (by rw [ht]; exact hslot)
    have hlt := hp.two_le hn
    refine hsim.discard hn hinv hp rfl (hm.tail hset).ne_invalid rfl (fun _ hq => hq) hlo
      (fun _ => ho) ?_ (by show tp + 1 < r.hi; omega) ?_ rfl
    · rw [unreadFrom, hc]
      rfl
    · show p.chain tail.slot = r.ord (tp + 1)
      rw [hslot, hlo]
      exact hp.link hn
  | moveFullLost => exact hsilent (hsim.quiet rfl rfl rfl rfl rfl (fun _ _ => rfl) fun _ hq => hq)
  | @overran p tail _ ht =>
    -- the slot of the consumer is kept back, the one behind it is discarded
    obtain ⟨hp, hhead, ho, hslot, hc⟩ := hring
    rw [← ht] at hc
    have h3 := hn.three_le
    have hhi := hp.hi_eq ho
    have hne : tail.slot ≠ indexInvalid := hslot ▸ hn.ne_invalid (hp.lt _)
    have hset : p.head ≠ indexInvalid := hhead ▸ hn.ne_invalid hp.current_lt
    have hlo := hd.at_lo hp.toRingPath hset (by rw [ht]; exact hslot)
    rw [Ring.step_overran hne, ProducerPhase.jump_overran hne]
    refine hsim.discard hn hinv hp rfl (hm.tail hset).ne_invalid rfl (fun _ hq => hq) hlo
      (fun _ => ho) ?_ (by omega) ?_ rfl
    · rw [unreadFrom, hc]
      rfl
    · show p.chain (p.chain tail.slot) = r.ord (tp + 2)
      rw [hslot, hlo]
      exact hp.link_link ho hn
  | @overLost p tail _ ht =>
    -- the consumer has left the tail, and by that the push is performed
    obtain ⟨hp, hhead, ho, hslot, -⟩ := hring
    have hw : (ProducerPhase.jumping p tail).waiting r tp s.mem = false :=
      waiting_eq_false (Or.inl (hinv.popOnly.released _ _ rfl ht))
    rw [Ring.step_overLost ho, ProducerPhase.jump_overLost ho]
    exact hsim.reply .forcePush rfl rfl hw rfl rfl fun _ hq => hq

end producer

/-! ## The steps of the consumer

  A pop acts with its last access.  If the producer waits for room, it is its turn right after. -/

section consumer

variable {β : Type} {n : Nat} {r : Ring} {tp tp' e : Nat} {ph : ProducerPhase}
  {cph cph' : ConsumerPhase} {s s' : QueueState β} {m m' : QueueMem} {o : QueueOutcome}
  {h : List (QueueHistoryEvent β)} {q q' : QueueStatus β}

/-- What the application sees of a step of the consumer. -/
def popReply (s' : QueueState β) : QueueOutcome → List (QueueHistoryEvent β)
  | .popped y => [.respond .consumer (.popped y (s'.delivered y))]
  | _ => []

/-- Whether a force push waits is read off the tail. -/
theorem waiting_congr (h : m'.tail = m.tail) : ph.waiting r tp m' = ph.waiting r tp m := by
  cases ph with
  | enq3 k p next => cases k <;> simp only [ProducerPhase.waiting, h]
  | _ => simp only [ProducerPhase.waiting, h]

/-- The status of the producer does not depend on the other slots. -/
theorem ProducerAt.congr {w : Bool} (h : ProducerAt s w q ph) (hmsgs : s'.msgs = s.msgs) :
    ProducerAt s' w q ph := by
  have hcalled : ∀ {op : PushOp} {p : ProducerQueue}, PushCalled s op p q → PushCalled s' op p q := by
    rintro op p ⟨k, rfl⟩
    exact ⟨k, by rw [hmsgs]⟩
  cases ph with
  | idle p => exact h
  | first3 op p next => exact h
  | requeue op p next => exact h
  | first1 op p next => exact hcalled h
  | first2 op p next => exact hcalled h
  | tryLoad p next => exact hcalled h
  | enq1 k p next => exact hcalled h
  | enq2 k p next => exact hcalled h
  | _ =>
    cases w with
    | true => exact hcalled h
    | false => exact h

/-- A push that waits while the tail is set is a `force_push` that has found the queue full. -/
structure WaitingForce (n : Nat) (r : Ring) (tp : Nat) (ph : ProducerPhase) (m : QueueMem) :
    Prop where
  after : AfterAppend n r ph.queue
  lo : tp = r.lo
  full : ¬ (ph.queue.overrun ≠ indexInvalid ∧ m.tail.consumed = true)
  waiting : ∀ tp' (m' : QueueMem), ph.waiting r tp' m' =
    decide (tp' = r.lo ∧ ¬ (ph.queue.overrun ≠ indexInvalid ∧ m'.tail.consumed = true))
  called : ∀ {β : Type} (s : QueueState β) q, ProducerAt s true q ph →
    PushCalled s .forcePush ph.queue q
  done : ∀ {β : Type} (s : QueueState β) q, PushDone .forcePush q → ProducerAt s false q ph

/-- Only a force push waits. -/
theorem waiting_force (hinv : QueueInv n r ph cph m) (ht : m.tail ≠ indexInvalid)
    (hw : ph.waiting r tp m = true) : WaitingForce n r tp ph m := by
  have hring := hinv.ring
  cases ph with
  | first2 op p next => exact absurd (hinv.shared.unset hring.2.2.1) ht
  | enq3 k p next =>
    cases k with
    | force =>
      obtain ⟨hlo, hfull⟩ := of_decide_eq_true hw
      exact ⟨hring.1, hlo, hfull, fun _ _ => rfl, fun _ _ hq => hq, fun _ _ hq => hq⟩
    | tryRequeue => cases hw
    | tryNext => cases hw
  | forceLoad p next =>
    obtain ⟨hlo, hfull⟩ := of_decide_eq_true hw
    exact ⟨hring.1, hlo, hfull, fun _ _ => rfl, fun _ _ hq => hq, fun _ _ hq => hq⟩
  | move p next tail =>
    obtain ⟨hlo, hfull⟩ := of_decide_eq_true hw
    exact ⟨hring.1, hlo, hfull, fun _ _ => rfl, fun _ _ hq => hq, fun _ _ hq => hq⟩
  | moveFull p next tail =>
    obtain ⟨hlo, hfull⟩ := of_decide_eq_true hw
    exact ⟨hring.1, hlo, hfull, fun _ _ => rfl, fun _ _ hq => hq, fun _ _ hq => hq⟩
  | jumping p tail =>
    obtain ⟨hlo, hfull⟩ := of_decide_eq_true hw
    exact ⟨hring.1, hlo, hfull, fun _ _ => rfl, fun _ _ hq => hq, fun _ _ hq => hq⟩
  | _ => cases hw

/-- The consumer never makes a push wait that does not. -/
theorem waiting_mono (hlo : r.lo ≤ tp) (hle : tp ≤ tp')
    (hc : m.tail.consumed = true → m'.tail.consumed = true)
    (hw : ph.waiting r tp m = false) : ph.waiting r tp' m' = false := by
  have hforce : ∀ skipped : Index,
      decide (tp = r.lo ∧ ¬ (skipped ≠ indexInvalid ∧ m.tail.consumed = true)) = false →
      decide (tp' = r.lo ∧ ¬ (skipped ≠ indexInvalid ∧ m'.tail.consumed = true)) = false := by
    intro skipped hno
    refine decide_eq_false fun hyes => of_decide_eq_false hno ⟨by omega, fun hover => ?_⟩
    exact hyes.2 ⟨hover.1, hc hover.2⟩
  cases ph with
  | first2 op p next => cases hw
  | enq3 k p next =>
    cases k with
    | force => exact hforce _ hw
    | tryRequeue => rfl
    | tryNext => rfl
  | forceLoad p next => exact hforce _ hw
  | move p next tail => exact hforce _ hw
  | moveFull p next tail => exact hforce _ hw
  | jumping p tail => exact hforce _ hw
  | _ => rfl

/-- The consumer has made room for a waiting push: it is performed. -/
theorem WaitingForce.perform (hn : SizeOk n) (hinv' : PopInv n r tp' ph cph' s')
    (hwait : WaitingForce n r tp ph m) (ht : s'.mem.tail ≠ indexInvalid)
    (hlt : unreadFrom tp' s'.mem.tail < r.hi)
    (htr : TracksAt n h (absQueue r tp' (r.hi - 1) cph' s') q q')
    (hat : ProducerAt s' true q ph) (hw : ph.waiting r tp' s'.mem = false) (hlt' : tp' < r.hi - 1) :
    ∃ q, TracksAt n h (absQueue r tp' r.hi cph' s') q q' ∧ ProducerAt s' false q ph := by
  obtain ⟨k, rfl⟩ := hwait.called s' q hat
  have hp := hwait.after
  have hge := hp.two_le hn
  have hsize := hp.size
  rw [hwait.waiting] at hw
  have hroom := (hinv'.size_lt_iff hn ht (e := r.hi - 1) (by omega) hlt').1.mpr
    (of_decide_eq_false hw)
  have hpush := htr.push_room hroom
  have habs : absQueue r tp' r.hi cph' s' =
      { absQueue r tp' (r.hi - 1) cph' s' with
        unread := (absQueue r tp' (r.hi - 1) cph' s').unread ++ [s'.msgs ph.queue.current] } := by
    have hseg := Window.segment_snoc (w := r) (i := unreadFrom tp' s'.mem.tail) (j := r.hi - 1)
      (by omega)
    rw [show r.hi - 1 + 1 = r.hi from by omega, ← hp.current_eq] at hseg
    simp only [absQueue, hseg, List.map_append, List.map_singleton]
  rw [← habs] at hpush
  exact ⟨_, hpush, hwait.done s' _ ⟨_, _, rfl⟩⟩

/-- A pop takes the oldest unread message and returns. -/
theorem Simulates.take (hn : SizeOk n) {c' : ConsumerQueue} {y : PopResult}
    (hinv : PopInv n r tp ph cph s) (hinv' : PopInv n r tp' ph (.idle c') s')
    (hsim : Simulates n r tp ph cph s h)
    (hbusy : ∀ q' : QueueStatus β, ConsumerAt q' cph → ∃ k, q' = .called k .pop)
    (ht : s.mem.tail ≠ indexInvalid) (htp : tp' = unreadFrom tp s.mem.tail) (hlt : tp' < r.hi)
    (hcons : s'.mem.tail.consumed = true) (hset : s'.mem.tail ≠ indexInvalid)
    (hcur : c'.current = r.ord tp') (hthread : s'.cons = .idle c') (hmsgs : s'.msgs = s.msgs)
    (hy : y = if !s.mem.tail.consumed && !s.mem.tail.first then .discarded else .success) :
    Simulates n r tp' ph (.idle c') s' (h ++ popReply s' (.popped y)) := by
  have hpath := hinv.queue.ring.path
  have hne : c'.current ≠ indexInvalid := hcur ▸ hn.ne_invalid (hpath.lt _)
  have hle : tp ≤ tp' := htp ▸ le_unreadFrom _ _
  have hfrom' : unreadFrom tp' s'.mem.tail = tp' + 1 := if_pos hcons
  have hdeliv : s'.delivered y = some (s.msgs (r.ord tp')) := by
    have htaken : y.isTaken = true := by
      rw [hy]
      split <;> rfl
    have hmsg : c'.msg = some c'.current := by
      rw [ConsumerQueue.msg, if_neg hne]
      refine queueGetMsg_of_lt ?_
      rw [show c'.nMsgs = n from hinv'.queue.cons.nMsgs, hcur]
      exact hpath.lt _
    rw [QueueState.delivered, hthread]
    simp only [htaken, if_true, hmsg, Option.map_some, hmsgs, hcur]
  obtain ⟨q, q', htr, hat, hc⟩ := hsim
  obtain ⟨k, rfl⟩ := hbusy q' hc
  have hat' := hat.congr hmsgs
  -- the pop itself, whatever the end of the queue is
  have hpop : ∀ e, tp' < e → TracksAt n h (absQueue r tp e cph s) q (.called k .pop) →
      TracksAt n h (absQueue r tp' e (.idle c') s') q (.done k .pop (.popped y (s'.delivered y))) := by
    intro e he htr
    have hunread : (absQueue r tp e cph s).unread =
        s.msgs (r.ord tp') :: (r.segment (tp' + 1) e).map s.msgs := by
      simp only [absQueue, ← htp, Window.segment_cons he, List.map_cons]
    have hnew : absQueue r tp' e (.idle c') s' =
        { unread := (r.segment (tp' + 1) e).map s.msgs, held := some (s.msgs (r.ord tp')),
          gap := false } := by
      have hq : (ConsumerPhase.idle c').queue.current = r.ord tp' := hcur
      simp only [absQueue, hfrom', hq, if_neg (hcur ▸ hne), hmsgs, hcons, Bool.not_true,
        Bool.false_and]
    have hdone := htr.pop
    rw [BoundedQueue.pop_cons hunread, ← hnew, ← hdeliv] at hdone
    rw [hy]
    rw [hy] at hdone
    exact hdone
  have hmono : s.mem.tail.consumed = true → s'.mem.tail.consumed = true := fun _ => hcons
  cases hw : ph.waiting r tp s.mem with
  | false =>
    rw [hw] at htr hat'
    have hw' := waiting_mono hinv.delivery.lo_le hle hmono hw
    refine ⟨q, .idle, ?_, ?_, rfl⟩
    · rw [hw']
      exact (hpop _ hlt htr).reply_pop
    · rw [hw']
      exact hat'
  | true =>
    rw [hw] at htr hat'
    have hwait := waiting_force hinv.queue ht hw
    have hge := hwait.after.two_le hn
    have h3 := hn.three_le
    have hsize := hwait.after.size
    -- a waiting message is not the one that is taken
    have hlt' : tp' < r.hi - 1 := by
      rw [htp, unreadFrom, hwait.lo]
      cases hc : s.mem.tail.consumed with
      | true =>
        have ho : ph.queue.overrun = indexInvalid := by
          by_contra ho
          exact hwait.full ⟨ho, hc⟩
        rw [spare_of_eq ho] at hsize
        rw [if_pos rfl]
        omega
      | false =>
        rw [if_neg (by decide)]
        omega
    have hdone := hpop _ hlt' htr
    cases hw' : ph.waiting r tp' s'.mem with
    | true =>
      refine ⟨q, .idle, ?_, ?_, rfl⟩
      · rw [hw']
        exact hdone.reply_pop
      · rw [hw']
        exact hat'
    | false =>
      obtain ⟨q2, htr2, hat2⟩ := hwait.perform hn hinv' hset (by omega) hdone hat' hw' hlt'
      refine ⟨q2, .idle, ?_, ?_, rfl⟩
      · rw [hw']
        exact htr2.reply_pop
      · rw [hw']
        exact hat2

/-- A pop that finds nothing to read returns. -/
theorem Simulates.popNothing {c' : ConsumerQueue} {y : PopResult}
    (hsim : Simulates n r tp ph cph s h)
    (hbusy : ∀ q' : QueueStatus β, ConsumerAt q' cph → ∃ k, q' = .called k .pop)
    (hempty : r.hi ≤ unreadFrom tp s.mem.tail) (htail : s'.mem.tail = s.mem.tail)
    (hmsgs : s'.msgs = s.msgs) (hcur : c'.current = cph.queue.current)
    (hthread : s'.cons = .idle c')
    (hy : y = if cph.queue.current = indexInvalid then .noMsg else .noUpdate) :
    Simulates n r tp ph (.idle c') s' (h ++ popReply s' (.popped y)) := by
  obtain ⟨q, q', htr, hat, hc⟩ := hsim
  obtain ⟨k, rfl⟩ := hbusy q' hc
  have hdeliv : s'.delivered y = none := by
    have htaken : y.isTaken = false := by
      rw [hy]
      split <;> rfl
    rw [QueueState.delivered, hthread]
    simp only [htaken, Bool.false_eq_true, if_false]
  -- The tail is the newest message, and consumed: nothing is unread.
  have hunread : (absQueue r tp (pushedTo r (ph.waiting r tp s.mem)) cph s).unread = [] := by
    have hle : pushedTo r (ph.waiting r tp s.mem) ≤ unreadFrom tp s.mem.tail := by
      unfold pushedTo
      split <;> omega
    simp only [absQueue, Window.segment_nil hle, List.map_nil]
  have hnew : absQueue r tp (pushedTo r (ph.waiting r tp s'.mem)) (.idle c') s' =
      absQueue r tp (pushedTo r (ph.waiting r tp s.mem)) cph s := by
    have hq : (ConsumerPhase.idle c').queue.current = cph.queue.current := hcur
    simp only [absQueue, htail, hmsgs, hq, waiting_congr htail]
  -- The pop of the abstract queue finds nothing either.
  have hdone := htr.pop
  rw [BoundedQueue.pop_nil hunread] at hdone
  refine ⟨q, .idle, ?_, ?_, rfl⟩
  · rw [hnew, popReply, hdeliv]
    have hres : y = if (absQueue r tp (pushedTo r (ph.waiting r tp s.mem)) cph s).held.isSome
        then .noUpdate else .noMsg := by
      rw [hy]
      simp only [absQueue]
      split <;> rfl
    rw [hres]
    exact hdone.reply_pop
  · rw [waiting_congr htail]
    exact hat.congr hmsgs

/-- The consumer goes on in its pop. -/
theorem Simulates.consQuiet (hsim : Simulates n r tp ph cph s h)
    (htail : s'.mem.tail = s.mem.tail) (hmsgs : s'.msgs = s.msgs)
    (hcur : cph'.queue.current = cph.queue.current)
    (hat : ∀ q' : QueueStatus β, ConsumerAt q' cph → ConsumerAt q' cph') :
    Simulates n r tp ph cph' s' (h ++ popReply s' .silent) := by
  obtain ⟨q, q', htr, hp, hc⟩ := hsim
  rw [show h ++ popReply s' .silent = h from List.append_nil h]
  refine ⟨q, q', ?_, ?_, hat q' hc⟩
  · rw [show absQueue r tp (pushedTo r (ph.waiting r tp s'.mem)) cph' s' =
        absQueue r tp (pushedTo r (ph.waiting r tp s.mem)) cph s from by
      simp only [absQueue, waiting_congr htail, htail, hmsgs, hcur]]
    exact htr
  · rw [waiting_congr htail]
    exact hp.congr hmsgs

/-- A step of the consumer is a step of the abstract queue or none. -/
theorem ConsumerStep.simulates (hn : SizeOk n) (hinv : PopInv n r tp ph cph s)
    (hsim : Simulates n r tp ph cph s h) (hs : ConsumerStep cph s.mem cph' m' o) :
    Simulates n r (tp + cph.jump cph') ph cph' (s.afterCons cph' m' o)
      (h ++ popReply (s.afterCons cph' m' o) o) := by
  have hinv' : PopInv n r (tp + cph.jump cph') ph cph' (s.afterCons cph' m' o) :=
    QueueStep.popInv (e := .consStep) hn hinv trivial (.consStep hs)
  have hm := hinv.queue.shared
  have hc := hinv.queue.cons
  have hd := hinv.delivery
  have hreads := hc.reads
  have hflush := hinv.popOnly.noFlush
  cases hs with
  | @popNoMsg c _ ht =>
    -- nothing has been pushed; the mark does not change the word
    have hhead : ph.queue.head = indexInvalid := by
      by_contra hh
      exact (hm.tail hh).ne_invalid ht
    have htail : s.mem.tail ||| consumedFlag = s.mem.tail := by
      rw [ht]
      exact Index.indexInvalid_or_consumedFlag
    have hempty : r.hi ≤ unreadFrom tp s.mem.tail := by
      have htp := (hd.unset hhead).1
      have hsize := hinv.queue.ring.hi_le hn hhead
      have hfrom : unreadFrom tp s.mem.tail = tp + 1 := by
        rw [ht]
        exact if_pos Index.consumed_indexInvalid
      omega
    exact hsim.popNothing (fun _ hq => hq) hempty htail rfl rfl rfl (if_pos (hc.unset ht)).symm
  | popError ht hv => exact absurd (hm.tail_ok ht).lt (hc.nMsgs ▸ hv)
  | @popTail c _ ht hv hcons =>
    -- an unread tail is the oldest message
    obtain ⟨hlt, hslot⟩ := hd.set (hm.head_ne rfl ht)
    refine hsim.take hn hinv hinv' (fun _ hq => hq) ht ?_ hlt ?_ ?_ hslot rfl rfl ?_
    · rw [unreadFrom, hcons]
      rfl
    · exact Index.consumed_or_consumedFlag _
    · exact (hm.tail_ok ht).or_consumed.ne_invalid
    · rw [hcons]
      cases s.mem.tail.first <;> rfl
  | popNone ht hv hcons hcur => exact absurd hcur (hinv.popOnly.holder ht (Or.inl hcons))
  | popOwn ht hv hcons hcur =>
    exact hsim.consQuiet (Index.or_consumedFlag_of_consumed hcons) rfl rfl fun _ hq => hq
  | @popNoUpdate c tail _ hnone =>
    obtain ⟨hcur, htail, -, -⟩ := hreads
    have hempty := hinv.nothing_unread hn hnone
    exact hsim.popNothing (fun _ hq => hq) hempty rfl rfl rfl rfl (if_neg hcur).symm
  | @popNextError c tail _ hne hv =>
    exact absurd (hinv.queue.next_lt hreads.1 hne) (hc.nMsgs ▸ hv)
  | popNext => exact hsim.consQuiet rfl rfl rfl fun _ hq => hq
  | @popTaken c tail next _ ht =>
    -- the message behind the own one
    obtain ⟨hcur, htail, hcons, -, hnextlt⟩ := hreads
    obtain ⟨hlt, hnext⟩ := hinv.follows.2 ht
    have hcons' : s.mem.tail.consumed = true := ht ▸ hcons
    refine hsim.take hn hinv hinv' (fun _ hq => hq) (ht ▸ htail.ne_invalid) ?_ hlt ?_ ?_ hnext rfl
      rfl ?_
    · rw [unreadFrom, hcons']
      rfl
    · exact Index.consumed_or_consumedFlag _
    · exact (TailOk.of_lt hn hnextlt).or_consumed.ne_invalid
    · rw [hcons']
      rfl
  | popLost ht => exact hsim.consQuiet rfl rfl rfl fun _ hq => hq
  | popMovedError hv => exact absurd hreads.2 (hc.nMsgs ▸ hv)
  | @popMoved c _ hv =>
    -- the producer has discarded the message in front
    have hv' : s.mem.tail.toNat < n := hc.nMsgs ▸ hv
    have ht := hn.ne_invalid hv'
    obtain ⟨hlt, hslot⟩ := hd.set (hm.head_ne rfl ht)
    refine hsim.take hn hinv hinv' (fun _ hq => hq) ht ?_ hlt ?_ ?_
      ((hn.slot hv').symm.trans hslot) rfl rfl ?_
    · rw [unreadFrom, hn.consumed hv']
      rfl
    · exact Index.consumed_or_consumedFlag _
    · exact (hm.tail_ok ht).or_consumed.ne_invalid
    · rw [hn.consumed hv', hn.first hv']
      rfl
  | _ => exact absurd trivial hflush

end consumer

/-! ## Runs -/

section runs

variable {β : Type} {n : Nat} {r r' : Ring} {tp : Nat} {ph ph' : ProducerPhase}
  {cph cph' : ConsumerPhase} {s s' : QueueState β} {e : QueueEvent β} {o : QueueOutcome}
  {h : List (QueueHistoryEvent β)}

/-- The current message is not in the queue, so the queue does not change when it is written. -/
theorem Simulates.write {p : ProducerQueue} (hinv : PopInv n r tp (.idle p) cph s)
    (hsim : Simulates n r tp (.idle p) cph s h) (x : β) :
    Simulates n r tp (.idle p) cph { s with msgs := Function.update s.msgs p.current x } h := by
  obtain ⟨q, q', ht, hp, hc⟩ := hsim
  refine ⟨q, q', ?_, hp, hc⟩
  have hd := hinv.delivery
  have hring := hinv.queue.ring.1
  -- The current slot is neither unread,
  have hunread : (r.segment (unreadFrom tp s.mem.tail) r.hi).map (Function.update s.msgs p.current x)
      = (r.segment (unreadFrom tp s.mem.tail) r.hi).map s.msgs := by
    refine List.map_congr_left fun i hi => Function.update_of_ne ?_ _ _
    obtain ⟨k, hk, hk', rfl⟩ := Window.exists_of_mem_segment hi
    have hlo := le_trans hd.lo_le (le_trans (le_unreadFrom tp s.mem.tail) hk)
    exact fun he => hring.current_off (he ▸ Window.mem_ord hlo hk')
  -- nor held.
  have hheld : cph.queue.current ≠ indexInvalid → cph.queue.current ≠ p.current := by
    intro hne
    have hset : p.head ≠ indexInvalid := fun hh =>
      hne (hinv.queue.cons.unset (hinv.queue.shared.unset hh))
    exact (hinv.holds hne).ne_current hring hd hset
  have habs : absQueue r tp r.hi cph { s with msgs := Function.update s.msgs p.current x } =
      absQueue r tp r.hi cph s := by
    simp only [absQueue, hunread]
    by_cases hne : cph.queue.current = indexInvalid
    · rw [if_pos hne, if_pos hne]
    · rw [if_neg hne, if_neg hne, Function.update_of_ne (hheld hne)]
  show TracksAt n h (absQueue r tp r.hi cph _) q q'
  rw [habs]
  exact ht

/-- Every step of the queue is matched by the bounded queue. -/
theorem QueueStep.simulates (hn : SizeOk n) (hinv : PopInv n r tp ph cph s)
    (hsim : Simulates n r tp ph cph s h) (hph : s.prod = ph.thread) (hok : NoFlush s e)
    (hs : QueueStep s r ph cph e r' ph' cph' s' o) :
    Simulates n r' (e.tailAfter tp ph ph' cph cph') ph' cph' s' (h ++ s.observe e s' o) := by
  cases hs with
  -- no call begins or returns
  | write hlt =>
    rw [show h ++ s.observe (.write _) _ _ = h from List.append_nil h]
    exact hsim.write hinv _
  -- The call is invoked; it takes effect later.
  | @push p _ op =>
    obtain ⟨q, q', ht, rfl, hc⟩ := hsim
    have hobs : s.observe (.push op) (s.afterPush op p) .silent =
        [.invoke .producer (.push op (s.msgs p.current))] := by
      rw [QueueState.observe, hph]
      rfl
    rw [hobs]
    have hcalled : PushCalled (s.afterPush op p) op p
        (.called h.length (.push op (s.msgs p.current))) := ⟨_, rfl⟩
    refine ⟨.called h.length (.push op (s.msgs p.current)), q', ?_, ?_, hc⟩
    · have hcall := ht.call_push (.push op (s.msgs p.current))
      have hw : (ProducerPhase.call op p).waiting r tp s.mem = false := by
        unfold ProducerPhase.call
        split
        · rfl
        · cases op <;> rfl
      show TracksAt n _ (absQueue r tp (pushedTo r ((ProducerPhase.call op p).waiting r tp s.mem))
        cph s) _ q'
      rw [hw]
      exact hcall
    · unfold ProducerPhase.call
      split
      · exact hcalled
      · cases op <;> exact hcalled
  -- a step of the producer, and its return if it is the last one
  | @prodStep _ _ _ m' _ hs =>
    have hobs : s.observe .prodStep (s.afterProd ph' m' o) o = pushReply β o := by
      cases o <;> rfl
    rw [hobs]
    exact hs.simulates hn hinv hsim
  | @pop _ _ op =>
    cases op with
    | flush => exact absurd hok id
    | pop =>
      obtain ⟨q, q', ht, hp, rfl⟩ := hsim
      exact ⟨q, .called h.length .pop, ht.call_pop .pop, hp, _, rfl⟩
  | @consStep _ _ _ m' _ hs =>
    have hobs : s.observe .consStep (s.afterCons cph' m' o) o =
        popReply (s.afterCons cph' m' o) o := by
      cases o <;> rfl
    rw [hobs]
    exact hs.simulates hn hinv hsim

/-- A history of a run without a flush is explained by the bounded queue. -/
theorem simulates_run (hn : SizeOk n)
    (hr : (queueSystem β n).Observed NoFlush QueueState.observe h s) :
    ∃ r tp ph cph, s.prod = ph.thread ∧ s.cons = cph.thread ∧ PopInv n r tp ph cph s ∧
      Simulates n r tp ph cph s h := by
  induction hr with
  | @init s hinit =>
    obtain ⟨p, hp⟩ := queue_created hn hinit
    refine ⟨_, _, .idle p, .idle _, hp.prod, hp.cons, hp.popInv hn, .idle, .idle, ?_, rfl, rfl⟩
    have hempty : absQueue (Ring.fresh n) (n - 1) (Ring.fresh n).hi
        (.idle { nMsgs := n, current := indexInvalid }) s = (boundedQueue β (n - 1)).init := by
      have hto : (Ring.fresh n).hi ≤ n - 1 + 1 := Nat.le_succ _
      simp only [absQueue, unreadFrom, hp.memTail, Index.consumed_indexInvalid, if_true,
        Window.segment_nil hto]
      rfl
    have hidle : (sides .idle .idle : Side → QueueStatus β) = fun _ => .idle := by
      funext t
      cases t <;> rfl
    show TracksAt n [] (absQueue (Ring.fresh n) (n - 1) (Ring.fresh n).hi _ s) _ _
    rw [hempty, TracksAt, hidle]
    exact Tracks.init
  | @step h s s' e o _ hok hs ih =>
    obtain ⟨r, tp, ph, cph, hph, hcph, hinv, hsim⟩ := ih
    obtain ⟨r', ph', cph', hstep, hph', hcph'⟩ := queueStep_cases hn hph hcph hinv.queue.ring hs
    exact ⟨r', _, ph', cph', hph', hcph', hstep.popInv hn hinv hok,
      hstep.simulates hn hinv hsim hph hok⟩

/-- The number of the message that follows the held one. -/
def nextNumber : Option (Nat × β) → Nat
  | some (k, _) => k + 1
  | none => 0

/-- A pop hands out the message that follows the held one, or says that some are missing. -/
theorem ConsumerStep.takes_next (hn : SizeOk n) (hinv : PopInv n r tp ph cph s) {m' : QueueMem}
    {q : PopResult} (hs : ConsumerStep cph s.mem cph' m' (.popped q)) :
    (q = .success → ∃ x, (s.afterCons cph' m' (.popped q)).held = some (nextNumber s.held, x)) ∧
    (q = .discarded → ∃ k x, (s.afterCons cph' m' (.popped q)).held = some (k, x) ∧
      nextNumber s.held < k) := by
  obtain ⟨-, -, htakes⟩ := hinv.takes hn hs
  have hd := hinv.delivery
  have hm := hinv.queue.shared
  have hc := hinv.queue.cons
  have hset : s.mem.tail ≠ indexInvalid → ph.queue.head ≠ indexInvalid :=
    fun hne hh => hne (hm.unset hh)
  -- the tail has been moved past messages that were not read
  have hgap : s.mem.tail ≠ indexInvalid → s.mem.tail.consumed = false →
      s.mem.tail.first = false → nextNumber s.held < tp + 1 - n := by
    intro ht hcons hfirst
    have hmoved := hd.moved (hset ht) hfirst hcons
    cases hheld : s.held with
    | none =>
      show 0 < _
      omega
    | some kx =>
      have := (hd.held kx.1 kx.2 hheld).2 hcons
      show kx.1 + 1 < _
      omega
  have hflush := hinv.popOnly.noFlush
  cases hs with
  | @popTail c _ ht hv hcons =>
    cases hfirst : s.mem.tail.first with
    | true =>
      rw [hfirst] at htakes
      refine ⟨fun _ => ?_, fun hq => (by cases hq)⟩
      have htp := hd.first (hset ht) hfirst
      have hnone : s.held = none := by
        cases hheld : s.held with
        | none => rfl
        | some kx =>
          have := (hd.held kx.1 kx.2 hheld).2 hcons
          omega
      obtain ⟨-, htake⟩ := htakes.take rfl
      have hzero : tp + 1 - n = nextNumber s.held := by
        rw [hnone, htp, Nat.sub_self]
        rfl
      exact ⟨_, hzero ▸ htake⟩
    | false =>
      rw [hfirst] at htakes
      refine ⟨fun hq => (by cases hq), fun _ => ?_⟩
      obtain ⟨-, htake⟩ := htakes.take rfl
      exact ⟨_, _, htake, hgap ht hcons hfirst⟩
  | @popTaken c tail next _ ht =>
    refine ⟨fun _ => ?_, fun hq => (by cases hq)⟩
    obtain ⟨hcur, -, hcons, -⟩ := hc.reads
    obtain ⟨k, hheld, hnum⟩ := (hinv.holds hcur).held
    have hk := hnum (ht ▸ hcons)
    obtain ⟨-, htake⟩ := htakes.take rfl
    have hsucc : tp + 1 + 1 - n = nextNumber s.held := by
      rw [hheld]
      show _ = k + 1
      omega
    exact ⟨_, hsucc ▸ htake⟩
  | @popMoved c _ hv =>
    have hv' : s.mem.tail.toNat < n := hc.nMsgs ▸ hv
    refine ⟨fun hq => (by cases hq), fun _ => ?_⟩
    obtain ⟨-, htake⟩ := htakes.take rfl
    exact ⟨_, _, htake, hgap (hn.ne_invalid hv') (hn.consumed hv') (hn.first hv')⟩
  | flushTaken => exact absurd trivial hflush
  | _ => exact ⟨fun hq => (by cases hq), fun hq => (by cases hq)⟩

/-- Every history of pushes and pops is one of the bounded queue of capacity `n - 1`.  In particular a
    pop that returns success hands out the message that follows the one held before, and one that
    returns discarded a later one. -/
theorem queue_linearizable (h3 : 3 ≤ n) (hn : n ≤ 2 ^ 30)
    (hr : (queueSystem β n).Observed NoFlush QueueState.observe h s) :
    Linearizable (boundedQueue β (n - 1)) h ∧
    ∀ s' q, (queueSystem β n).step s .consStep = some (s', .popped q) →
      (q = .success → ∃ x, s'.held = some (nextNumber s.held, x)) ∧
      (q = .discarded → ∃ k x, s'.held = some (k, x) ∧ nextNumber s.held < k) := by
  have hsize : SizeOk n := ⟨h3, hn⟩
  obtain ⟨r, tp, ph, cph, hph, hcph, hinv, hsim⟩ := simulates_run hsize hr
  refine ⟨?_, fun s' q hs => ?_⟩
  · obtain ⟨_, _, htr, -, -⟩ := hsim
    exact htr.linearizable
  · obtain ⟨r', ph', cph', hstep, -, -⟩ :=
      queueStep_cases (e := .consStep) (o := .popped q) hsize hph hcph hinv.queue.ring hs
    cases hstep with
    | consStep hstep => exact hstep.takes_next hsize hinv

end runs

/-- Three pushes into a queue of three slots: the last one discards message 0, and the pop after it
    says so. -/
theorem queue_linearizable_discard :
    ∃ h s s', (queueSystem Nat 3).Observed NoFlush QueueState.observe h s ∧
      .respond .producer (.pushed (.forcePush .discarded)) ∈ h ∧
      (queueSystem Nat 3).step s .consStep = some (s', .popped .discarded) ∧
      Linearizable (boundedQueue Nat 2) h ∧ ∃ k x, s'.held = some (k, x) ∧ nextNumber s.held < k := by
  obtain ⟨h, s, hr, hq⟩ := QueueState.exists_observed 3 0 NoFlush
    [.write 10, .push .forcePush, .prodStep, .prodStep, .prodStep,
      .write 11, .push .tryPush, .prodStep, .prodStep, .prodStep, .prodStep,
      .write 12, .push .forcePush, .prodStep, .prodStep, .prodStep, .prodStep, .prodStep, .pop .pop]
    (fun h s => (queueSystem Nat 3).leadsTo s .consStep fun _ o => decide (o = .popped .discarded ∧
      .respond .producer (.pushed (.forcePush .discarded)) ∈ h)) (by decide)
  obtain ⟨s', o, hs, hq⟩ := Machine.exists_step hq
  obtain ⟨rfl, hpush⟩ := of_decide_eq_true hq
  obtain ⟨hlin, hnum⟩ := queue_linearizable (by decide) (by decide) hr
  exact ⟨h, s, s', hr, hpush, hs, hlin, (hnum _ _ hs).2 rfl⟩

end Rtipc
