/-
  Where the tail is, and which message the consumer holds.

  Position `i` of the list is the place of message number `i + 1 - n`.  `Delivery` says that the tail
  word names a position `tp` on the list, that the slots from `tp` on contain the messages that were
  put there, and how the number of the held message compares with `tp`; `Follows` says what the
  consumer knows at each point of a pop or a flush: the slot it holds is the tail's, or the one kept
  back after an overrun.

  Two steps of the code break this, and both need a flush (`FlushSafe` excludes them):

  * a flush looks up the head word after the last message was appended but not yet announced, when
    the tail already is at that message: the head it finds is older than the tail;
  * a flush moves the tail from slot 0 to slot 0 and thereby drops the first flag while a push is
    about to overrun the consumer there: the push takes the changed word for a released slot.

  The numbers in `Delivery` are the bridge between the two views of the queue.  The chain is a window of
  positions that only grows at its end, and each position belongs to one push; the tail word names a
  slot, but what matters is its position.  So that the held message is older or newer than another is an
  inequality between positions, and no proof about the order of messages has to look at the chain.

  The module is organised by what a step does to the tail: it stays (`Delivery.quiet`,
  `Delivery.append`), the producer moves it (`Delivery.advance`), or the consumer marks or takes it
  (`Delivery.fetchOr`, `Delivery.take`).  The steps of the code are then a list of cases, each of which
  is one of these.
-/
import Rtipc.QueueRun

namespace Rtipc

/-- An operation that expects the tail consumed finds it unchanged or at another slot. -/
def QueueOp.TailSafe (tail : Index) : QueueOp → Prop
  | tailCompareExchange expected _ => expected.consumed = true →
      tail = expected ∨ tail.slot ≠ expected.slot
  | _ => True

instance (tail : Index) : (o : QueueOp) → Decidable (o.TailSafe tail)
  | .tailCompareExchange expected _ => inferInstanceAs (Decidable (expected.consumed = true → _))
  | .tailLoad | .tailStore _ | .tailFetchOr _ | .headLoad | .headStore _ | .chainLoad _
  | .chainStore _ _ => isTrue trivial

/-- The condition on a step: a flush does not look up a head that is older than the tail, and when
    a push tries to jump over a consumed tail, a changed tail word names another slot. -/
def FlushSafe {β : Type} (s : QueueState β) : QueueEvent β → Prop
  | .prodStep => ∀ o ∈ s.prod.nextOp, o.TailSafe s.mem.tail
  | .consStep => s.cons.nextOp = some .headLoad → s.mem.head ≠ indexInvalid →
      s.mem.chain s.mem.head ≠ s.mem.tail.slot
  | _ => True

instance {β : Type} (s : QueueState β) : (e : QueueEvent β) → Decidable (FlushSafe s e)
  | .prodStep => inferInstanceAs (Decidable (∀ o ∈ s.prod.nextOp, o.TailSafe s.mem.tail))
  | .consStep => inferInstanceAs (Decidable (_ → _ → _))
  | .write _ | .push _ | .pop _ => isTrue trivial

section defs

variable {β : Type}

/-- The message of the push is the one in the current slot. -/
def ProducerPhase.Stamped (s : QueueState β) : ProducerPhase → Prop
  | .first1 _ p _ | .tryLoad p _ | .enq1 _ p _ | .enq2 _ p _ =>
      s.stamp p.current = some (s.pushed, s.msgs p.current)
  | _ => True

/-- Why the push can go on to the slot it is going to take: the consumer has released it. -/
def ProducerPhase.Ready (r : Ring) (tp : Nat) (m : QueueMem) : ProducerPhase → Prop
  | .enq1 k _ _ | .enq2 k _ _ | .enq3 k _ _ =>
      (k = .tryRequeue → m.tail.consumed = true) ∧ (k = .tryNext → r.lo < tp)
  | .requeue _ _ _ => m.tail.consumed = true
  | _ => True

/-- The tail is at position `tp`, and the slots from there on contain their messages. -/
structure Delivery (n : Nat) (r : Ring) (tp : Nat) (ph : ProducerPhase) (s : QueueState β) :
    Prop where
  lo_le : r.lo ≤ tp
  num_le : n ≤ tp + 1
  unset : ph.queue.head = indexInvalid → tp + 1 = n ∧ s.held = none
  set : ph.queue.head ≠ indexInvalid → tp < r.hi ∧ s.mem.tail.slot = r.ord tp
  first : ph.queue.head ≠ indexInvalid → s.mem.tail.first = true → tp + 1 = n
  moved : ph.queue.head ≠ indexInvalid → s.mem.tail.first = false → s.mem.tail.consumed = false →
    n < tp + 1
  count : s.pushed + n = r.hi + ph.pending
  stamps : ∀ i, tp ≤ i → i < r.hi →
    s.stamp (r.ord i) = some (i + 1 - n, s.msgs (r.ord i))
  stamped : ph.Stamped s
  ready : ph.Ready r tp s.mem
  held : ∀ k x, s.held = some (k, x) → (s.mem.tail.consumed = true → k + n ≤ tp + 1) ∧
    (s.mem.tail.consumed = false → k + n < tp)

/-- The consumer holds the slot at the tail, or the one the producer keeps back for it. -/
structure Holds (n : Nat) (r : Ring) (tp : Nat) (skipped : Index) (s : QueueState β)
    (c : ConsumerQueue) : Prop where
  tail : s.mem.tail.consumed = true → c.current = r.ord tp
  skipped : s.mem.tail.consumed = false → c.current = skipped
  held : ∃ k, s.held = some (k, s.msgs c.current) ∧ (s.mem.tail.consumed = true → k + n = tp + 1)

/-- What the consumer knows at each point. -/
def Follows (n : Nat) (r : Ring) (tp : Nat) (skipped : Index) (s : QueueState β) :
    ConsumerPhase → Prop
  | .idle c | .pop1 c | .pop2 c _ | .pop4 c => c.current ≠ indexInvalid → Holds n r tp skipped s c
  | .pop3 c tail next => (c.current ≠ indexInvalid → Holds n r tp skipped s c) ∧
      (s.mem.tail = tail → tp + 1 < r.hi ∧ next = r.ord (tp + 1))
  | .flush1 c | .flush2 c _ => s.mem.head = indexInvalid → c.current ≠ indexInvalid →
      Holds n r tp skipped s c
  | .flush3 _ tail head => s.mem.head ≠ indexInvalid ∧ (s.mem.tail = tail ||| consumedFlag →
      ∃ j, tp ≤ j ∧ j < r.hi ∧ head = r.ord j)

/-- How many positions the producer moves the tail. -/
def ProducerPhase.jump : ProducerPhase → ProducerPhase → Nat
  | .move _ _ _, .idle _ | .moveFull _ _ _, .idle _ => 1
  | .jumping _ _, .idle q => 2 * q.spare
  | _, _ => 0

end defs

section effects

variable {β : Type} {n : Nat} {r r' : Ring} {tp tp' : Nat} {ph ph' : ProducerPhase}
  {cph : ConsumerPhase} {s s' : QueueState β} {skipped skipped' : Index} {c : ConsumerQueue}

/-- An overrun of a tail that is set leaves two positions behind. -/
theorem ProducerPhase.jump_overran {p : ProducerQueue} {tail : Index} (h : tail.slot ≠ indexInvalid) :
    (ProducerPhase.jumping p tail).jump
      (.idle { p with overrun := tail.slot, current := p.chain tail.slot }) = 2 := by
  rw [ProducerPhase.jump, spare_of_ne (p := { p with overrun := tail.slot, current := p.chain tail.slot }) h]

/-- A lost tail leaves none. -/
theorem ProducerPhase.jump_overLost {p : ProducerQueue} {tail : Index} (h : p.overrun = indexInvalid) :
    (ProducerPhase.jumping p tail).jump (.idle { p with current := tail.slot }) = 0 := by
  rw [ProducerPhase.jump, spare_of_eq (p := { p with current := tail.slot }) h]

/-! ## What a step of the producer does to the list and the tail

  There are three cases: the tail stays, and slots in front of it may leave the list; a message is
  appended; the tail is moved on, and its flags are cleared. -/

/-- The tail stays; slots in front of it leave the list. -/
theorem Delivery.quiet (hd : Delivery n r tp ph s) (k : Nat) (hk : r.lo + k ≤ tp)
    (hhead : ph'.queue.head = indexInvalid ↔ ph.queue.head = indexInvalid)
    (htail : s'.mem.tail = s.mem.tail) (hmsgs : s'.msgs = s.msgs) (hstamp : s'.stamp = s.stamp)
    (hheld : s'.held = s.held) (hcount : s'.pushed + ph.pending = s.pushed + ph'.pending)
    (hstamped : ph'.Stamped s') (hready : ph'.Ready (r.drop k) tp s.mem) :
    Delivery n (r.drop k) tp ph' s' where
  lo_le := hk
  num_le := hd.num_le
  unset hh := hheld ▸ hd.unset (hhead.mp hh)
  set hh := htail ▸ hd.set (fun h => hh (hhead.mpr h))
  first hh := htail ▸ hd.first (fun h => hh (hhead.mpr h))
  moved hh := htail ▸ hd.moved (fun h => hh (hhead.mpr h))
  count := by
    have := hd.count
    rw [Window.drop_hi]
    omega
  stamps := by
    rw [hmsgs, hstamp]
    exact hd.stamps
  stamped := hstamped
  ready := by
    cases ph' <;> first | trivial | (unfold ProducerPhase.Ready at *; rw [htail]; exact hready)
  held := by
    rw [htail, hheld]
    exact hd.held

/-- The message of the push gets the position at the end of the list. -/
theorem Delivery.append {x : Index} (hd : Delivery n r tp ph s)
    (hhead : ph'.queue.head = indexInvalid ↔ ph.queue.head = indexInvalid)
    (htail : s'.mem.tail = s.mem.tail) (hmsgs : s'.msgs = s.msgs) (hstamp : s'.stamp = s.stamp)
    (hheld : s'.held = s.held) (hpushed : s'.pushed = s.pushed)
    (hpend : ph.pending = 1 ∧ ph'.pending = 0)
    (hx : s.stamp x = some (s.pushed, s.msgs x)) (hstamped : ph'.Stamped s')
    (hready : ph'.Ready (r.append x) tp s'.mem) : Delivery n (r.append x) tp ph' s' where
  lo_le := hd.lo_le
  num_le := hd.num_le
  unset hh := hheld ▸ hd.unset (hhead.mp hh)
  set hh := by
    obtain ⟨hlt, hslot⟩ := hd.set fun h => hh (hhead.mpr h)
    rw [htail, Window.append_hi, Window.append_ord (by omega)]
    exact ⟨by omega, hslot⟩
  first hh := htail ▸ hd.first fun h => hh (hhead.mpr h)
  moved hh := htail ▸ hd.moved fun h => hh (hhead.mpr h)
  -- the message on its way is now on the chain
  count := by
    have := hd.count
    rw [hpushed, hpend.2, Window.append_hi]
    omega
  stamps := by
    intro i hi hlt
    rw [hmsgs, hstamp]
    -- the new position, or one of the old ones
    by_cases hih : i = r.hi
    · have hcount := hd.count
      rw [hih, Window.append_ord_hi, hx]
      have hnum : s.pushed = r.hi + 1 - n := by omega
      rw [hnum]
    · rw [Window.append_ord hih]
      rw [Window.append_hi] at hlt
      exact hd.stamps i hi (by omega)
  stamped := hstamped
  ready := hready
  held := by
    rw [htail, hheld]
    exact hd.held

/-- The producer moves the tail to a later position and clears its flags. -/
theorem Delivery.advance (hn : SizeOk n) (hd : Delivery n r tp ph s) (k j : Nat)
    (hlt : (r.ord (tp + j)).toNat < n) (hj : tp + j < r.hi) (hk : r.lo + k ≤ tp + j)
    (hjump : s.mem.tail.consumed = false ∧ j = 1 ∨ j = 2)
    (hhead : ph'.queue.head ≠ indexInvalid)
    (htail : s'.mem.tail = r.ord (tp + j)) (hmsgs : s'.msgs = s.msgs)
    (hstamp : s'.stamp = s.stamp) (hheld : s'.held = s.held)
    (hcount : s'.pushed + ph.pending = s.pushed + ph'.pending)
    (hstamped : ph'.Stamped s') (hready : ph'.Ready (r.drop k) (tp + j) s'.mem) :
    Delivery n (r.drop k) (tp + j) ph' s' where
  lo_le := hk
  num_le := by have := hd.num_le; omega
  unset hh := absurd hh hhead
  set _ := by
    rw [htail, hn.slot hlt]
    exact ⟨hj, rfl⟩
  -- no exchange of the producer leaves the first flag
  first _ hf := by
    rw [htail, hn.first hlt] at hf
    cases hf
  moved _ _ _ := by
    have := hd.num_le
    omega
  count := by
    have := hd.count
    rw [Window.drop_hi]
    omega
  stamps := by
    intro i hi hi'
    rw [hmsgs, hstamp]
    exact hd.stamps i (by omega) hi'
  stamped := hstamped
  ready := hready
  -- The tail moves past everything held: by one position if it had not been consumed, else by two.
  held := by
    intro k' x hx
    rw [hheld] at hx
    rw [htail, hn.consumed hlt]
    refine ⟨fun hc => (by cases hc), fun _ => ?_⟩
    cases hc : s.mem.tail.consumed with
    | true =>
      have h1 := (hd.held k' x hx).1 hc
      have h2 : j = 2 := hjump.resolve_left fun h => by rw [hc] at h; cases h.1
      omega
    | false =>
      have h1 := (hd.held k' x hx).2 hc
      omega

/-! ## The producer's steps do not disturb the consumer -/

/-- The consumer keeps what it knows, if it keeps the slot it holds and either the tail word has stayed
    or the producer has moved it. -/
theorem Follows.step (hf : Follows n r tp skipped s cph) (hc : ConsumerInv n cph s.mem)
    (hholds : ∀ c : ConsumerQueue, s.mem.tail ≠ indexInvalid → Holds n r tp skipped s c →
      Holds n r' tp' skipped' s' c)
    (hhead : s'.mem.head = indexInvalid → s.mem.head = indexInvalid)
    (htail : s'.mem.tail.consumed = false ∨
      (s'.mem.tail = s.mem.tail ∧ tp' = tp ∧ r.hi ≤ r'.hi ∧
        ∀ j, tp ≤ j → j < r.hi → r'.ord j = r.ord j)) :
    Follows n r' tp' skipped' s' cph := by
  -- What is held outside of an exchange that is still to come.
  have hcur : ∀ c : ConsumerQueue, c = cph.queue →
      (c.current ≠ indexInvalid → Holds n r tp skipped s c) →
      c.current ≠ indexInvalid → Holds n r' tp' skipped' s' c := by
    rintro c rfl h hne
    exact hholds _ (fun ht => hne (hc.unset ht)) (h hne)
  cases cph with
  | idle c => exact hcur c rfl hf
  | pop1 c => exact hcur c rfl hf
  | pop2 c tail => exact hcur c rfl hf
  -- the exchange of the pop succeeds only if the tail is as it was, and then so are the positions
  -- behind it
  | pop3 c tail next =>
    refine ⟨hcur c rfl hf.1, fun ht => ?_⟩
    rcases htail with htail | ⟨hsame, rfl, hhi, hord⟩
    · rw [ht, hc.reads.2.2.1] at htail
      cases htail
    · obtain ⟨hlt, hnext⟩ := hf.2 (hsame ▸ ht)
      exact ⟨by omega, by rw [hord _ (by omega) hlt]; exact hnext⟩
  | pop4 c => exact hcur c rfl hf
  | flush1 c => exact fun hh => hcur c rfl (hf (hhead hh))
  | flush2 c tail => exact fun hh => hcur c rfl (hf (hhead hh))
  -- the same for the exchange of a flush
  | flush3 c tail head =>
    refine ⟨fun hh => hf.1 (hhead hh), fun ht => ?_⟩
    rcases htail with htail | ⟨hsame, rfl, hhi, hord⟩
    · rw [ht, Index.consumed_or_consumedFlag] at htail
      cases htail
    · obtain ⟨j, hj, hj', hjo⟩ := hf.2 (hsame ▸ ht)
      exact ⟨j, hj, by omega, by rw [hord j hj hj']; exact hjo⟩

/-- The tail stays, and so does the slot kept back, unless the consumer has left it. -/
theorem Holds.quiet (h : Holds n r tp skipped s c) (htail : s'.mem.tail = s.mem.tail)
    (hord : r'.ord tp = r.ord tp) (hmsgs : s'.msgs = s.msgs) (hheld : s'.held = s.held)
    (hover : skipped' = skipped ∨ s.mem.tail.consumed = true) : Holds n r' tp skipped' s' c where
  tail hc := by
    rw [hord]
    exact h.tail (htail ▸ hc)
  skipped hc := by
    rw [htail] at hc
    rcases hover with hover | hover
    · rw [hover]
      exact h.skipped hc
    · rw [hover] at hc
      cases hc
  held := by
    rw [hheld, hmsgs, htail]
    exact h.held

/-- The producer moves the tail and keeps the consumer's slot back. -/
theorem Holds.advance (h : Holds n r tp skipped s c) (htail : s'.mem.tail.consumed = false)
    (hmsgs : s'.msgs = s.msgs) (hheld : s'.held = s.held) (hover : c.current = skipped') :
    Holds n r' tp' skipped' s' c where
  tail hc := by
    rw [htail] at hc
    cases hc
  skipped _ := hover
  held := by
    obtain ⟨k, hk, -⟩ := h.held
    refine ⟨k, by rw [hheld, hmsgs]; exact hk, fun hc => ?_⟩
    rw [htail] at hc
    cases hc

end effects

/-! ## The steps of the producer -/

section producer

variable {β : Type} {n : Nat} {r : Ring} {tp : Nat} {ph ph' : ProducerPhase} {cph : ConsumerPhase}
  {s : QueueState β} {m' : QueueMem} {o : QueueOutcome}

/-- A tail at the front of the list. -/
theorem Delivery.at_lo (hd : Delivery n r tp ph s) (hp : RingPath n r ph.queue)
    (hhead : ph.queue.head ≠ indexInvalid) (hslot : s.mem.tail.slot = r.ord r.lo) : tp = r.lo := by
  obtain ⟨hlt, hset⟩ := hd.set hhead
  have hlo := hd.lo_le
  exact hp.nodup tp r.lo hlo hlt le_rfl (by omega) (hset.symm.trans hslot)

/-- A tail that is not at the front of the list. -/
theorem Delivery.lo_lt (hd : Delivery n r tp ph s) (hhead : ph.queue.head ≠ indexInvalid)
    (hslot : s.mem.tail.slot ≠ r.ord r.lo) : r.lo < tp := by
  have hlo := hd.lo_le
  have hset := (hd.set hhead).2
  rcases Nat.eq_or_lt_of_le hlo with heq | hlt
  · rw [heq] at hslot
    exact absurd hset hslot
  · exact hlt

/-- When a push finds that the consumer has released the slot it was about to jump over, that is
    so. -/
def Released (r : Ring) (tp : Nat) (ph : ProducerPhase) (m : QueueMem) : Prop :=
  ∀ p tail, ph = .jumping p tail → m.tail ≠ tail → r.lo < tp

/-- Under the condition on flushes the slot the producer is about to take has been released. -/
theorem FlushSafe.released (hn : SizeOk n) (hok : FlushSafe s .prodStep) (hph : s.prod = ph.thread)
    (h : RingInv n r ph) (hd : Delivery n r tp ph s) : Released r tp ph s.mem := by
  rintro p tail rfl hne
  obtain ⟨hp, hhead, -, hslot, hc⟩ := h
  have hnext : s.prod.nextOp = some (.tailCompareExchange tail (p.chain (p.chain tail.slot))) := by
    rw [hph]
    rfl
  have hsafe : tail.consumed = true → s.mem.tail = tail ∨ s.mem.tail.slot ≠ tail.slot :=
    hok _ hnext
  refine hd.lo_lt (hhead ▸ hn.ne_invalid hp.current_lt) ?_
  rw [← hslot]
  exact (hsafe hc).resolve_left hne

/-- A step of the producer keeps the messages at their positions. -/
theorem ProducerStep.delivery (hn : SizeOk n) (hinv : QueueInv n r ph cph s.mem)
    (hd : Delivery n r tp ph s) (hrel : Released r tp ph s.mem)
    (hs : ProducerStep ph s.mem ph' m' o) :
    Delivery n (r.step ph ph') (tp + ph.jump ph') ph' (s.afterProd ph' m' o) := by
  have hring := hinv.ring
  have hm := hinv.shared
  have h3 := hn.three_le
  cases hs with
  | first1 => exact hd.append Iff.rfl rfl rfl rfl rfl rfl ⟨rfl, rfl⟩ hd.stamped trivial trivial
  | @first2 op p next =>
    -- the head is announced: the tail is now at the oldest message
    obtain ⟨hp, -, hhead, ho, -, hlo⟩ := hring
    obtain ⟨htp, hheld⟩ := hd.unset hhead
    have hsize := hp.size
    rw [spare_of_eq ho, hlo] at hsize
    have hcur : p.current = r.ord tp := by
      rw [hp.current_eq, show r.hi - 1 = tp from by omega]
    refine ⟨hd.lo_le, hd.num_le, fun hh => ?_, fun _ => ⟨?_, ?_⟩, fun _ _ => htp, fun _ hf _ => ?_,
      hd.count, hd.stamps, trivial, trivial, fun k x hk => ?_⟩
    · exact absurd hh (hn.ne_invalid hp.current_lt)
    · show tp + 0 < r.hi
      omega
    · exact (Index.slot_or_firstFlag _).trans ((hn.slot hp.current_lt).trans hcur)
    · exact absurd ((Index.first_or_firstFlag _).symm.trans hf) (by decide)
    · exact absurd (hk.symm.trans hheld) (by simp)
  | @first3 op p next =>
    obtain ⟨hp, -, -, -, hlo⟩ := hring
    have hnum := hd.num_le
    refine hd.quiet 1 (by omega) Iff.rfl rfl rfl rfl rfl ?_ trivial trivial
    cases op <;> rfl
  | tryError hv =>
    exact hd.quiet 0 hd.lo_le Iff.rfl rfl rfl rfl rfl rfl trivial trivial
  | tryRequeue hv ho hc =>
    exact hd.quiet 0 hd.lo_le Iff.rfl rfl rfl rfl rfl rfl hd.stamped
      ⟨fun _ => hc, fun hk => by cases hk⟩
  | tryBlocked hv ho hc =>
    exact hd.quiet 0 hd.lo_le Iff.rfl rfl rfl rfl rfl rfl trivial trivial
  | tryNext hv ho hne =>
    -- the next slot is not the tail, so the tail has already been moved over it
    obtain ⟨hp, -, rfl, hst⟩ := hring
    have hlt := hd.lo_lt (hn.ne_invalid (hst.head_lt hp.toRingPath)) (Ne.symm hne)
    exact hd.quiet 0 hd.lo_le Iff.rfl rfl rfl rfl rfl rfl hd.stamped
      ⟨fun hk => (by cases hk), fun _ => hlt⟩
  | tryFull hv ho hne =>
    exact hd.quiet 0 hd.lo_le Iff.rfl rfl rfl rfl rfl rfl trivial trivial
  | enq1 => exact hd.quiet 0 hd.lo_le Iff.rfl rfl rfl rfl rfl rfl hd.stamped hd.ready
  | enq2 => exact hd.append Iff.rfl rfl rfl rfl rfl rfl ⟨rfl, rfl⟩ hd.stamped trivial hd.ready
  | @enq3Force p next =>
    obtain ⟨hp, -, hhead, -⟩ := hring
    have hiff : p.current = indexInvalid ↔ p.head = indexInvalid :=
      iff_of_false (hn.ne_invalid hp.current_lt) (hhead ▸ hn.ne_invalid (hp.lt _))
    exact hd.quiet 0 hd.lo_le hiff rfl rfl rfl rfl rfl trivial trivial
  | @enq3Requeue p next =>
    obtain ⟨hp, -, hhead, -⟩ := hring
    have hiff : p.current = indexInvalid ↔ p.head = indexInvalid :=
      iff_of_false (hn.ne_invalid hp.current_lt) (hhead ▸ hn.ne_invalid (hp.lt _))
    exact hd.quiet 0 hd.lo_le hiff rfl rfl rfl rfl rfl trivial (hd.ready.1 rfl)
  | @enq3Next p next =>
    obtain ⟨hp, -, hhead, -⟩ := hring
    have hiff : p.current = indexInvalid ↔ p.head = indexInvalid :=
      iff_of_false (hn.ne_invalid hp.current_lt) (hhead ▸ hn.ne_invalid (hp.lt _))
    exact hd.quiet 1 (hd.ready.2 rfl) hiff rfl rfl rfl rfl rfl trivial trivial
  | loadError hv => exact absurd (hring.forceLoad_valid hn hm) hv
  | loadRequeue hv ho hc =>
    exact hd.quiet 0 hd.lo_le Iff.rfl rfl rfl rfl rfl rfl trivial hc
  | loadMove hv ho hc =>
    exact hd.quiet 0 hd.lo_le Iff.rfl rfl rfl rfl rfl rfl trivial trivial
  | loadNext hv ho hne =>
    obtain ⟨hp, rfl, hhead⟩ := hring
    have hlt := hd.lo_lt (hhead ▸ hn.ne_invalid hp.current_lt) (Ne.symm hne)
    exact hd.quiet 1 hlt Iff.rfl rfl rfl rfl rfl rfl trivial trivial
  | loadMoveFull hv ho heq hc =>
    exact hd.quiet 0 hd.lo_le Iff.rfl rfl rfl rfl rfl rfl trivial trivial
  | loadOver hv ho heq hc =>
    exact hd.quiet 0 hd.lo_le Iff.rfl rfl rfl rfl rfl rfl trivial trivial
  | @requeue op p next =>
    refine hd.quiet 0 hd.lo_le Iff.rfl rfl rfl rfl rfl ?_ trivial trivial
    cases op <;> rfl
  | @moved p next tail _ ht =>
    -- the tail moves over a slot that the consumer has not taken
    obtain ⟨hp, -, hhead, -, rfl⟩ := hring
    have hslot : (r.ord r.lo).slot = r.ord r.lo := hn.slot (hp.lt _)
    have htp := hd.at_lo hp.toRingPath (hhead ▸ hn.ne_invalid hp.current_lt)
      ((congrArg Index.slot ht).trans hslot)
    have hlt := hp.two_le hn
    refine hd.advance hn 1 1 (hp.lt _) (by omega) (by omega) (Or.inl ⟨?_, rfl⟩)
      (hhead ▸ hn.ne_invalid hp.current_lt) ?_ rfl rfl rfl rfl trivial trivial
    · rw [ht]
      exact hn.consumed (hp.lt _)
    · show p.chain (r.ord r.lo).slot = r.ord (tp + 1)
      rw [hslot, hp.link hn, htp]
  | moveLost ht =>
    -- the word was not swapped, so the consumer has marked it in between
    obtain ⟨hp, -, hhead, ho, htail⟩ := hring
    have hc : s.mem.tail.consumed = true := by
      by_contra hc
      exact ht ((hm.blocked ho (by simpa using hc)).trans htail.symm)
    exact hd.quiet 0 hd.lo_le Iff.rfl rfl rfl rfl rfl rfl trivial hc
  | @movedFull p next tail _ ht =>
    obtain ⟨hp, -, hhead, -, hslot, hc⟩ := hring
    have htp := hd.at_lo hp.toRingPath (hhead ▸ hn.ne_invalid hp.current_lt) (ht ▸ hslot)
    have hlt := hp.two_le hn
    refine hd.advance hn 1 1 (hp.lt _) (by omega) (by omega) (Or.inl ⟨ht ▸ hc, rfl⟩)
      (hhead ▸ hn.ne_invalid hp.current_lt) ?_ rfl rfl rfl rfl trivial trivial
    show p.chain tail.slot = r.ord (tp + 1)
    rw [hslot, hp.link hn, htp]
  | moveFullLost ht =>
    exact hd.quiet 0 hd.lo_le Iff.rfl rfl rfl rfl rfl rfl trivial trivial
  | @overran p tail _ ht =>
    -- the tail jumps over the slot of the consumer and the one behind it
    obtain ⟨hp, hhead, ho, hslot, -⟩ := hring
    have htp := hd.at_lo hp.toRingPath (hhead ▸ hn.ne_invalid hp.current_lt) (ht ▸ hslot)
    have hne : tail.slot ≠ indexInvalid := hslot ▸ hn.ne_invalid (hp.lt _)
    have hhi := hp.hi_eq ho
    rw [Ring.step_overran hne, ProducerPhase.jump_overran hne]
    refine hd.advance hn 2 2 (hp.lt _) (by omega) (by omega) (Or.inr rfl)
      (hhead ▸ hn.ne_invalid hp.current_lt) ?_ rfl rfl rfl rfl trivial trivial
    show p.chain (p.chain tail.slot) = r.ord (tp + 2)
    rw [hslot, hp.link_link ho hn, htp]
  | @overLost p tail _ ht =>
    obtain ⟨hp, hhead, ho, hslot, -⟩ := hring
    rw [Ring.step_overLost ho, ProducerPhase.jump_overLost ho]
    exact hd.quiet 1 (hrel _ _ rfl ht) Iff.rfl rfl rfl rfl rfl rfl trivial trivial

/-- And what the consumer follows stays behind the tail. -/
theorem ProducerStep.follows (hn : SizeOk n) (hinv : QueueInv n r ph cph s.mem)
    (hd : Delivery n r tp ph s) (hf : Follows n r tp ph.queue.overrun s cph)
    (hs : ProducerStep ph s.mem ph' m' o) :
    Follows n (r.step ph ph') (tp + ph.jump ph') ph'.queue.overrun (s.afterProd ph' m' o) cph := by
  have hring := hinv.ring
  have hm := hinv.shared
  have hc := hinv.cons
  -- a message is appended
  have happend : ∀ {x : Index} {s' : QueueState β}, s'.mem.tail = s.mem.tail → s'.msgs = s.msgs →
      s'.held = s.held → s'.mem.head = s.mem.head →
      Follows n (r.append x) tp ph.queue.overrun s' cph := by
    intro x s' htail hmsgs hheld hhead
    refine hf.step hc (fun c ht h => h.quiet htail ?_ hmsgs hheld (Or.inl rfl))
      (fun hh => hhead ▸ hh)
      (Or.inr ⟨htail, rfl, Nat.le_succ _, fun j _ hj => Window.append_ord (by omega)⟩)
    have hset := (hd.set fun hh => ht (hm.unset hh)).1
    exact Window.append_ord (by omega)
  -- the tail stays where it is
  have hquiet : ∀ {k : Nat} {skipped : Index} {s' : QueueState β}, s'.mem.tail = s.mem.tail →
      s'.msgs = s.msgs → s'.held = s.held →
      (s'.mem.head = indexInvalid → s.mem.head = indexInvalid) →
      (skipped = ph.queue.overrun ∨ s.mem.tail.consumed = true) →
      Follows n (r.drop k) tp skipped s' cph := by
    intro k skipped s' htail hmsgs hheld hhead hover
    exact hf.step hc (fun c _ h => h.quiet htail rfl hmsgs hheld hover) hhead
      (Or.inr ⟨htail, rfl, le_rfl, fun _ _ _ => rfl⟩)
  -- the tail moves, and the consumer has lost what it was about to take
  have hadvance : ∀ {k tp' : Nat} {skipped : Index} {s' : QueueState β},
      s'.mem.tail.consumed = false → s'.msgs = s.msgs → s'.held = s.held →
      s'.mem.head = s.mem.head →
      (∀ c, Holds n r tp ph.queue.overrun s c → c.current = skipped) →
      Follows n (r.drop k) tp' skipped s' cph := by
    intro k tp' skipped s' htail hmsgs hheld hhead hover
    exact hf.step hc (fun c _ h => h.advance htail hmsgs hheld (hover c h))
      (fun hh => hhead ▸ hh) (Or.inl htail)
  cases hs with
  | first1 => exact happend rfl rfl rfl rfl
  -- before the first message nothing is held
  | @first2 op p next =>
    obtain ⟨hp, -, hhead, -⟩ := hring
    exact hf.step hc (fun c ht _ => absurd (hm.unset hhead) ht) id
      (Or.inl ((Index.consumed_or_firstFlag _).trans (hn.consumed hp.current_lt)))
  | @first3 op p next =>
    obtain ⟨hp, -, hhead, -⟩ := hring
    exact hquiet rfl rfl rfl
      (fun hh => absurd hh (hhead ▸ hn.ne_invalid hp.current_lt)) (Or.inl rfl)
  | enq2 => exact happend rfl rfl rfl rfl
  | enq3Force =>
    exact hquiet (k := 0) rfl rfl rfl
      (fun hh => absurd hh (hn.ne_invalid hring.1.current_lt)) (Or.inl rfl)
  | enq3Requeue =>
    exact hquiet (k := 0) rfl rfl rfl
      (fun hh => absurd hh (hn.ne_invalid hring.1.current_lt)) (Or.inl rfl)
  | enq3Next =>
    exact hquiet rfl rfl rfl
      (fun hh => absurd hh (hn.ne_invalid hring.1.current_lt)) (Or.inl rfl)
  | loadError hv => exact absurd (hring.forceLoad_valid hn hm) hv
  | requeue => exact hquiet (k := 0) rfl rfl rfl id (Or.inr hd.ready)
  | loadNext => exact hquiet rfl rfl rfl id (Or.inl rfl)
  | @moved p next tail _ ht =>
    obtain ⟨hp, -, hhead, -, rfl⟩ := hring
    have hslot : (r.ord r.lo).slot = r.ord r.lo := hn.slot (hp.lt _)
    refine hadvance ?_ rfl rfl rfl fun c h => h.skipped ?_
    · show (p.chain (r.ord r.lo).slot).consumed = false
      rw [hslot, hp.link hn]
      exact hn.consumed (hp.lt _)
    · rw [ht]
      exact hn.consumed (hp.lt _)
  | @movedFull p next tail _ ht =>
    obtain ⟨hp, -, hhead, -, hslot, hcons⟩ := hring
    refine hadvance ?_ rfl rfl rfl fun c h => h.skipped (ht ▸ hcons)
    show (p.chain tail.slot).consumed = false
    rw [hslot, hp.link hn]
    exact hn.consumed (hp.lt _)
  -- the consumer holds the slot at the tail, which the overrun keeps back for it
  | @overran p tail _ ht =>
    obtain ⟨hp, hhead, ho, hslot, hcons⟩ := hring
    have htp := hd.at_lo hp.toRingPath (hhead ▸ hn.ne_invalid hp.current_lt) (ht ▸ hslot)
    refine hadvance ?_ rfl rfl rfl fun c h => ?_
    · show (p.chain (p.chain tail.slot)).consumed = false
      rw [hslot, hp.link_link ho hn]
      exact hn.consumed (hp.lt _)
    · show c.current = tail.slot
      rw [hslot, ← htp]
      exact h.tail (ht ▸ hcons)
  | @overLost p tail _ ht =>
    obtain ⟨hp, hhead, ho, -⟩ := hring
    rw [Ring.step_overLost ho, ProducerPhase.jump_overLost ho]
    exact hquiet rfl rfl rfl id (Or.inl rfl)
  | _ => exact hquiet (k := 0) rfl rfl rfl id (Or.inl rfl)

end producer

/-! ## The steps of the consumer

  A pop takes the slot behind the one it holds, or the tail, and gives up the slot it has held. -/

/-- The outcome hands out a message. -/
def QueueOutcome.isTaken : QueueOutcome → Bool
  | popped r => r.isTaken
  | _ => false

/-- The point is one of a flush. -/
def ConsumerPhase.inFlush : ConsumerPhase → Prop
  | .flush1 _ | .flush2 _ _ | .flush3 _ _ _ => True
  | _ => False

/-- How many positions the consumer moves the tail in a pop. -/
def ConsumerPhase.jump : ConsumerPhase → ConsumerPhase → Nat
  | .pop3 _ _ _, .idle _ => 1
  | _, _ => 0

section consumer

variable {β : Type} {n : Nat} {r : Ring} {tp tp' : Nat} {ph : ProducerPhase}
  {cph cph' : ConsumerPhase} {skipped : Index} {s s' : QueueState β} {m' : QueueMem} {o : QueueOutcome}

/-- What a step of the consumer does to the held message: nothing, or it becomes the one at the
    tail, which is newer than the one held before (not older, if a flush takes it). -/
structure Takes (n : Nat) (r : Ring) (tp' : Nat) (cph : ConsumerPhase) (s s' : QueueState β)
    (o : QueueOutcome) : Prop where
  keep : o.isTaken = false → s'.held = s.held
  take : o.isTaken = true → n ≤ tp' + 1 ∧ s'.held = some (tp' + 1 - n, s.msgs (r.ord tp'))
  le : o.isTaken = true → ∀ k x, s.held = some (k, x) → k + n ≤ tp' + 1
  lt : o.isTaken = true → ¬ cph.inFlush → ∀ k x, s.held = some (k, x) → k + n < tp' + 1

/-- A step that takes nothing changes nothing of what is held. -/
theorem Takes.of_silent (ho : o.isTaken = false) (h : s'.held = s.held) :
    Takes n r tp' cph s s' o where
  keep _ := h
  take h' := by rw [ho] at h'; cases h'
  le h' := by rw [ho] at h'; cases h'
  lt h' := by rw [ho] at h'; cases h'

/-- The stamp of the current slot under changes elsewhere. -/
theorem ProducerPhase.Stamped.congr (h : ph.Stamped s) (hmsgs : s'.msgs = s.msgs)
    (hstamp : s'.stamp = s.stamp) (hpushed : s'.pushed = s.pushed) : ph.Stamped s' := by
  cases ph <;> first | trivial | (unfold ProducerPhase.Stamped at *; rw [hmsgs, hstamp, hpushed]; exact h)

/-- What the producer is ready to take stays so when the consumer moves on. -/
theorem ProducerPhase.Ready.consumed {m m' : QueueMem} (h : ph.Ready r tp m) (hle : tp ≤ tp')
    (hc : m'.tail.consumed = true) : ph.Ready r tp' m' := by
  cases ph with
  | enq1 k p next => exact ⟨fun _ => hc, fun hk => lt_of_lt_of_le (h.2 hk) hle⟩
  | enq2 k p next => exact ⟨fun _ => hc, fun hk => lt_of_lt_of_le (h.2 hk) hle⟩
  | enq3 k p next => exact ⟨fun _ => hc, fun hk => lt_of_lt_of_le (h.2 hk) hle⟩
  | requeue op p next => exact hc
  | _ => trivial

/-- The consumer marks the tail consumed. -/
theorem Delivery.fetchOr (hd : Delivery n r tp ph s)
    (htail : s'.mem.tail = s.mem.tail ||| consumedFlag) (hmsgs : s'.msgs = s.msgs)
    (hstamp : s'.stamp = s.stamp) (hpushed : s'.pushed = s.pushed) (hheld : s'.held = s.held) :
    Delivery n r tp ph s' where
  lo_le := hd.lo_le
  num_le := hd.num_le
  unset hh := hheld ▸ hd.unset hh
  set hh := by
    rw [htail, Index.slot_or_consumedFlag]
    exact hd.set hh
  first hh := by
    rw [htail, Index.first_or_consumedFlag]
    exact hd.first hh
  moved _ _ hc := by
    rw [htail, Index.consumed_or_consumedFlag] at hc
    cases hc
  count := hpushed ▸ hd.count
  stamps := by
    rw [hmsgs, hstamp]
    exact hd.stamps
  stamped := hd.stamped.congr hmsgs hstamp hpushed
  ready := hd.ready.consumed le_rfl (by rw [htail]; simp)
  -- The flag alone makes the tail a message taken; what was held is older.
  held := by
    intro k x hk
    rw [hheld] at hk
    refine ⟨fun _ => ?_, fun hc => ?_⟩
    · cases hc : s.mem.tail.consumed with
      | true => exact (hd.held k x hk).1 hc
      | false =>
        have := (hd.held k x hk).2 hc
        omega
    · rw [htail, Index.consumed_or_consumedFlag] at hc
      cases hc

/-- The consumer takes the message at `tp'`. -/
theorem Delivery.take (hd : Delivery n r tp ph s) (hset : ph.queue.head ≠ indexInvalid)
    (hle : tp ≤ tp') (hlt : tp' < r.hi) (hcons : s'.mem.tail.consumed = true)
    (hslot : s'.mem.tail.slot = r.ord tp') (hfirst : s'.mem.tail.first = true → tp' + 1 = n)
    (hmsgs : s'.msgs = s.msgs) (hstamp : s'.stamp = s.stamp) (hpushed : s'.pushed = s.pushed)
    (hheld : s'.held = s.stamp (r.ord tp')) : Delivery n r tp' ph s' where
  lo_le := le_trans hd.lo_le hle
  num_le := by have := hd.num_le; omega
  unset hh := absurd hh hset
  set _ := ⟨hlt, hslot⟩
  first _ := hfirst
  moved _ _ hc := by rw [hcons] at hc; cases hc
  count := hpushed ▸ hd.count
  stamps := by
    rw [hmsgs, hstamp]
    intro i hi hi'
    exact hd.stamps i (by omega) hi'
  stamped := hd.stamped.congr hmsgs hstamp hpushed
  ready := hd.ready.consumed hle hcons
  -- what has been taken is the message at the new tail
  held := by
    intro k x hk
    have hnum := hd.num_le
    rw [hheld, hd.stamps tp' hle hlt] at hk
    cases hk
    refine ⟨fun _ => by omega, fun hc => ?_⟩
    rw [hcons] at hc
    cases hc

/-- A message taken at the tail is held at that position. -/
theorem Holds.of_take (hd : Delivery n r tp ph s) (hle : tp ≤ tp') (hlt : tp' < r.hi)
    (hcons : s'.mem.tail.consumed = true) (hmsgs : s'.msgs = s.msgs)
    (hheld : s'.held = s.stamp (r.ord tp')) {c : ConsumerQueue} (hc : c.current = r.ord tp') :
    Holds n r tp' skipped s' c where
  tail _ := hc
  skipped h := by rw [hcons] at h; cases h
  held := by
    have hnum := hd.num_le
    refine ⟨tp' + 1 - n, ?_, fun _ => by omega⟩
    rw [hheld, hd.stamps tp' hle hlt, hmsgs, hc]

/-- The consumer takes the message at `j`: its slot `x` becomes the tail, consumed, and the one it
    holds. -/
theorem Delivery.taken (hd : Delivery n r tp ph s) (hset : ph.queue.head ≠ indexInvalid) {j : Nat}
    {x : Index} {c : ConsumerQueue} {q : PopResult} (hq : q.isTaken = true) (hle : tp ≤ j)
    (hlt : j < r.hi) (hx : x = r.ord j) (hcur : c.current = x) (hcons : m'.tail.consumed = true)
    (hslot : m'.tail.slot = x) (hfirst : m'.tail.first = true → j + 1 = n)
    (hold : ∀ k y, s.held = some (k, y) → k + n ≤ j + 1)
    (hnew : ¬ cph.inFlush → ∀ k y, s.held = some (k, y) → k + n < j + 1) :
    Delivery n r j ph (s.afterCons (.idle c) m' (.popped q)) ∧
      Follows n r j skipped (s.afterCons (.idle c) m' (.popped q)) (.idle c) ∧
      Takes n r j cph s (s.afterCons (.idle c) m' (.popped q)) (.popped q) := by
  have hnum := hd.num_le
  have hheld : (s.afterCons (.idle c) m' (.popped q)).held = s.stamp (r.ord j) := by
    show QueueOutcome.take s.stamp s.held c.current (.popped q) = _
    rw [QueueOutcome.take, if_pos hq, hcur, hx]
  refine ⟨?_, fun _ => ?_, ?_, ?_, fun _ => hold, fun _ => hnew⟩
  · exact hd.take hset hle hlt hcons (hslot.trans hx) hfirst rfl rfl rfl hheld
  · refine Holds.of_take hd hle hlt ?_ ?_ hheld (hcur.trans hx)
    · exact hcons
    · rfl
  · intro ho
    exact absurd (hq.symm.trans ho) (by decide)
  · intro _
    exact ⟨by omega, hheld.trans (hd.stamps j hle hlt)⟩

/-- Marking a tail consumed that is consumed already changes nothing for the holder. -/
theorem Holds.fetchOr {c : ConsumerQueue} (h : Holds n r tp skipped s c)
    (hc : s.mem.tail.consumed = true) (htail : s'.mem.tail = s.mem.tail ||| consumedFlag)
    (hmsgs : s'.msgs = s.msgs) (hheld : s'.held = s.held) : Holds n r tp skipped s' c := by
  rw [Index.or_consumedFlag_of_consumed hc] at htail
  exact h.quiet htail rfl hmsgs hheld (Or.inl rfl)

/-- The last slot on the list ends the chain. -/
theorem RingInv.last (h : RingInv n r ph) (hhead : ph.queue.head ≠ indexInvalid) :
    ph.queue.chain (r.ord (r.hi - 1)) = indexInvalid := by
  have hsteady : ∀ p, Steady r p → p.chain (r.ord (r.hi - 1)) = indexInvalid := by
    intro p hs
    rw [← hs.head]
    exact hs.last
  have hafter : ∀ p, AfterAppend n r p → p.chain (r.ord (r.hi - 1)) = indexInvalid := by
    intro p hp
    rw [← hp.current_eq]
    exact hp.last
  cases ph with
  | idle p =>
    obtain ⟨-, -, hf | hs⟩ := h
    · exact absurd hf.head hhead
    · exact hsteady p hs
  | first1 op p next => exact absurd h.2.2.head hhead
  | tryLoad p next => exact hsteady p h.2.2.2
  | enq1 k p next => exact hsteady p h.2.2.1
  | enq2 k p next => exact hsteady p h.2.2.1
  | _ => exact hafter _ h.1

/-- While the shared head is unset nothing is kept back. -/
theorem RingInv.overrun_of_unset (hn : SizeOk n) (h : RingInv n r ph)
    (hh : ph.announced = indexInvalid) : ph.queue.overrun = indexInvalid := by
  -- Before the first message no slot is kept back; afterwards the head is announced.
  cases ph with
  | idle p =>
    obtain ⟨hp, -, hf | hs⟩ := h
    · exact hf.overrun
    · exact absurd hh (hn.ne_invalid (hs.head_lt hp.toRingPath))
  | first1 op p next => exact h.2.2.overrun
  | first2 op p next => exact h.2.2.2.1
  | first3 op p next => exact h.2.2.2.1
  | tryLoad p next => exact absurd hh (hn.ne_invalid (h.2.2.2.head_lt h.1.toRingPath))
  | enq1 k p next => exact absurd hh (hn.ne_invalid (h.2.2.1.head_lt h.1.toRingPath))
  | enq2 k p next => exact absurd hh (hn.ne_invalid (h.2.2.1.head_lt h.1.toRingPath))
  | enq3 k p next =>
    have hlt : p.head.toNat < n := h.2.2.1 ▸ h.1.lt _
    exact absurd hh (hn.ne_invalid hlt)
  | forceLoad p next =>
    have hlt : p.head.toNat < n := h.2.2 ▸ h.1.current_lt
    exact absurd hh (hn.ne_invalid hlt)
  | requeue op p next =>
    have hlt : p.head.toNat < n := h.2.2.1 ▸ h.1.current_lt
    exact absurd hh (hn.ne_invalid hlt)
  | move p next tail =>
    have hlt : p.head.toNat < n := h.2.2.1 ▸ h.1.current_lt
    exact absurd hh (hn.ne_invalid hlt)
  | moveFull p next tail => exact h.2.2.2.1
  | jumping p tail => exact h.2.2.1

/-- When a flush looks up the head, it is not older than the tail. -/
def HeadNew (cph : ConsumerPhase) (m : QueueMem) : Prop :=
  ∀ c tail, cph = .flush2 c tail → m.head ≠ indexInvalid → m.chain m.head ≠ m.tail.slot

/-- Under the condition a flush compares with a head that is still the newest message. -/
theorem FlushSafe.headNew (hok : FlushSafe s .consStep) (hcph : s.cons = cph.thread) :
    HeadNew cph s.mem := by
  rintro c tail rfl
  exact hok (by rw [hcph]; rfl)

/-- A head that is not older than the tail is at a position from the tail on. -/
theorem Delivery.head_pos (hn : SizeOk n) (hinv : QueueInv n r ph cph s.mem)
    (hd : Delivery n r tp ph s) (hne : s.mem.head ≠ indexInvalid)
    (hnew : s.mem.chain s.mem.head ≠ s.mem.tail.slot) :
    ph.queue.head ≠ indexInvalid ∧ ∃ j, tp ≤ j ∧ j < r.hi ∧ s.mem.head = r.ord j := by
  have hset : ph.queue.head ≠ indexInvalid := by
    intro hh
    rw [hinv.shared.head] at hne
    cases ph with
    | first3 op p next => exact hne rfl
    | _ => exact hne hh
  refine ⟨hset, ?_⟩
  have hann := hinv.ring.announced hn
  rw [← hinv.shared.head] at hann
  obtain ⟨j, hj, hlo, hlt, hhead⟩ := hann.resolve_left hne
  obtain ⟨htp, hslot⟩ := hd.set hset
  refine ⟨j, ?_, hlt, hhead⟩
  by_contra hlt'
  -- the tail is at the last slot, the head still names the one before it
  have hnext : s.mem.chain s.mem.head = r.ord (j + 1) := by
    rw [hhead, hinv.shared.chain _ (hinv.ring.path.lt j)]
    exact hinv.ring.path.linked j hlo (by omega)
  exact hnew (by rw [hnext, hslot, show j + 1 = tp from by omega])

/-- A step of the consumer moves the tail forward and takes the message there. -/
theorem ConsumerStep.delivery (hn : SizeOk n) (hinv : QueueInv n r ph cph s.mem)
    (hd : Delivery n r tp ph s) (hf : Follows n r tp ph.queue.overrun s cph)
    (hnew : HeadNew cph s.mem) (hs : ConsumerStep cph s.mem cph' m' o) :
    ∃ tp', tp ≤ tp' ∧ (¬ cph.inFlush → tp' = tp + cph.jump cph') ∧
      Delivery n r tp' ph (s.afterCons cph' m' o) ∧
      Follows n r tp' ph.queue.overrun (s.afterCons cph' m' o) cph' ∧
      Takes n r tp' cph s (s.afterCons cph' m' o) o := by
  have hm := hinv.shared
  have hc := hinv.cons
  have hreads := hc.reads
  -- a step that hands nothing out
  have hkeep : o.isTaken = false → (s.afterCons cph' m' o).held = s.held := by
    intro ho
    cases o with
    | popped q => exact if_neg (by simp only [QueueOutcome.isTaken] at ho; simp [ho])
    | _ => rfl
  have hsame : ∀ {c : ConsumerQueue}, m' = s.mem → o.isTaken = false →
      Holds n r tp ph.queue.overrun s c →
      Holds n r tp ph.queue.overrun (s.afterCons cph' m' o) c := by
    rintro c rfl ho h
    exact h.quiet rfl rfl rfl (hkeep ho) (Or.inl rfl)
  cases hs with
  | popNoMsg ht =>
    have hcur := hc.unset ht
    exact ⟨tp, le_rfl, fun _ => rfl, hd.fetchOr rfl rfl rfl rfl rfl, fun hne => absurd hcur hne,
      .of_silent rfl rfl⟩
  | popError ht hv => exact absurd (hm.tail_ok ht).lt (hc.nMsgs ▸ hv)
  | popTail ht hv hcons =>
    -- the mark is set on an unread tail: this message is taken
    obtain ⟨hlt, hslot⟩ := hd.set (hm.head_ne rfl ht)
    have hold : ∀ k x, s.held = some (k, x) → k + n < tp + 1 := by
      intro k x hk
      have := (hd.held k x hk).2 hcons
      omega
    have hq : (if s.mem.tail.first then PopResult.success else .discarded).isTaken = true := by
      cases s.mem.tail.first <;> rfl
    refine ⟨tp, le_rfl, fun _ => rfl, hd.taken (hm.head_ne rfl ht) hq le_rfl hlt hslot rfl
      (Index.consumed_or_consumedFlag _) (Index.slot_or_consumedFlag _) ?_
      (fun k x hk => (hold k x hk).le) fun _ => hold⟩
    intro hfirst
    exact hd.first (hm.head_ne rfl ht) ((Index.first_or_consumedFlag _).symm.trans hfirst)
  | popNone ht hv hcons hcur =>
    exact ⟨tp, le_rfl, fun _ => rfl, hd.fetchOr rfl rfl rfl rfl rfl, fun hne => absurd hcur hne,
      .of_silent rfl rfl⟩
  | popOwn ht hv hcons hcur =>
    exact ⟨tp, le_rfl, fun _ => rfl, hd.fetchOr rfl rfl rfl rfl rfl,
      fun hne => (hf hne).fetchOr hcons rfl rfl rfl, .of_silent rfl rfl⟩
  | popNoUpdate h =>
    exact ⟨tp, le_rfl, fun _ => rfl, { hd with }, fun hne => hsame rfl rfl (hf hne),
      .of_silent rfl rfl⟩
  | popNextError h hv =>
    exact ⟨tp, le_rfl, fun _ => rfl, { hd with }, fun hne => hsame rfl rfl (hf hne),
      .of_silent rfl rfl⟩
  | @popNext c tail _ h hv =>
    refine ⟨tp, le_rfl, fun _ => rfl, { hd with },
      ⟨fun hne => hsame rfl rfl (hf hne), fun ht => ?_⟩, .of_silent rfl rfl⟩
    obtain ⟨hcur, htail, hcons, -⟩ := hreads
    have hhead := hm.head_ne ht htail.ne_invalid
    obtain ⟨hlt, -⟩ := hd.set hhead
    have hct : c.current = r.ord tp := (hf hcur).tail (ht ▸ hcons)
    have hchain := hm.chain _ (hinv.ring.path.lt tp)
    rw [hct, hchain] at h
    have hnext : tp + 1 < r.hi := by
      by_contra hge
      exact h (by rw [show tp = r.hi - 1 from by omega]; exact hinv.ring.last hhead)
    refine ⟨hnext, ?_⟩
    rw [hct, hchain]
    exact hinv.ring.path.linked tp hd.lo_le hnext
  | @popTaken c tail next _ ht =>
    -- the own slot is left for the next one
    obtain ⟨hcur, htail, hcons, -, hnextlt⟩ := hreads
    obtain ⟨hlt, hnext⟩ := hf.2 ht
    have hold : ∀ k x, s.held = some (k, x) → k + n < tp + 1 + 1 := by
      intro k x hk
      have := (hd.held k x hk).1 (ht ▸ hcons)
      omega
    refine ⟨tp + 1, by omega, fun _ => rfl, hd.taken (hm.head_ne ht htail.ne_invalid) rfl (by omega) hlt
      hnext rfl (Index.consumed_or_consumedFlag _)
      ((Index.slot_or_consumedFlag _).trans (hn.slot hnextlt)) ?_ (fun k x hk => (hold k x hk).le)
      fun _ => hold⟩
    intro hfirst
    rw [Index.first_or_consumedFlag, hn.first hnextlt] at hfirst
    cases hfirst
  | popLost ht =>
    exact ⟨tp, le_rfl, fun _ => rfl, { hd with }, fun hne => hsame rfl rfl (hf.1 hne),
      .of_silent rfl rfl⟩
  | popMovedError hv => exact absurd hreads.2 (hc.nMsgs ▸ hv)
  | popMoved hv =>
    -- the producer has moved the tail in between: the new tail is taken
    have hv' : s.mem.tail.toNat < n := hc.nMsgs ▸ hv
    have hhead := hm.head_ne rfl (hn.ne_invalid hv')
    obtain ⟨hlt, hslot⟩ := hd.set hhead
    have hold : ∀ k x, s.held = some (k, x) → k + n < tp + 1 := by
      intro k x hk
      have := (hd.held k x hk).2 (hn.consumed hv')
      omega
    refine ⟨tp, le_rfl, fun _ => rfl, hd.taken hhead rfl le_rfl hlt ((hn.slot hv').symm.trans hslot)
      rfl (Index.consumed_or_consumedFlag _) ((Index.slot_or_consumedFlag _).trans (hn.slot hv')) ?_
      (fun k x hk => (hold k x hk).le) fun _ => hold⟩
    intro hfirst
    exact hd.first hhead ((Index.first_or_consumedFlag _).symm.trans hfirst)
  | flushNoMsg ht =>
    have hcur := hc.unset ht
    exact ⟨tp, le_rfl, fun h => absurd trivial h, hd.fetchOr rfl rfl rfl rfl rfl,
      fun hne => absurd hcur hne, .of_silent rfl rfl⟩
  | flushError ht hv => exact absurd (hm.tail_ok ht).lt (hc.nMsgs ▸ hv)
  | @flushTail c _ ht hv =>
    refine ⟨tp, le_rfl, fun h => absurd trivial h, hd.fetchOr rfl rfl rfl rfl rfl, ?_,
      .of_silent rfl rfl⟩
    intro hh hne
    have hold := hf hh hne
    cases hcons : s.mem.tail.consumed with
    | true => exact hold.fetchOr hcons rfl rfl rfl
    | false =>
      -- nothing can be kept back before the head is announced
      have hover := hinv.ring.overrun_of_unset hn (hm.head.symm.trans hh)
      exact absurd ((hold.skipped hcons).trans hover) hne
  | @flushHeadError c tail _ hv =>
    have hh : s.mem.head = indexInvalid := by
      by_contra hne
      exact absurd (hinv.head_lt hn hne) (hc.nMsgs ▸ hv)
    exact ⟨tp, le_rfl, fun h => absurd trivial h, { hd with }, fun hne => hsame rfl rfl (hf hh hne),
      .of_silent rfl rfl⟩
  | @flushHead c tail _ hv =>
    have hv' : s.mem.head.toNat < n := hc.nMsgs ▸ hv
    have hne := hn.ne_invalid hv'
    obtain ⟨-, j, hj, hj', hord⟩ := hd.head_pos hn hinv hne (hnew c tail rfl hne)
    exact ⟨tp, le_rfl, fun h => absurd trivial h, { hd with }, ⟨hne, fun _ => ⟨j, hj, hj', hord⟩⟩,
      .of_silent rfl rfl⟩
  | @flushTaken c tail head _ ht =>
    -- the head is somewhere on the list, perhaps far behind the tail
    obtain ⟨htail, -, hheadlt⟩ := hreads
    obtain ⟨j, hj, hj', hord⟩ := hf.2 ht
    refine ⟨j, hj, fun h => absurd trivial h, hd.taken (hm.head_ne ht htail.or_consumed.ne_invalid) rfl hj
      hj' hord rfl (Index.consumed_or_consumedFlag _)
      ((Index.slot_or_consumedFlag _).trans (hn.slot hheadlt)) ?_ ?_ fun h => absurd trivial h⟩
    · intro hfirst
      rw [Index.first_or_consumedFlag, hn.first hheadlt] at hfirst
      cases hfirst
    · intro k x hk
      have := (hd.held k x hk).1 (by rw [ht]; simp)
      omega
  | flushLost ht =>
    exact ⟨tp, le_rfl, fun h => absurd trivial h, { hd with }, fun hh => absurd hh hf.1,
      .of_silent rfl rfl⟩

end consumer

/-! ## The steps of the queue -/

section system

variable {β : Type} {n : Nat} {r : Ring} {tp : Nat} {p : ProducerQueue} {cph : ConsumerPhase}
  {s : QueueState β}

/-- The consumer does not hold the producer's current slot. -/
theorem Holds.ne_current {c : ConsumerQueue} (h : Holds n r tp p.overrun s c)
    (hp : BeforeAppend n r p) (hd : Delivery n r tp (.idle p) s) (hset : p.head ≠ indexInvalid) :
    c.current ≠ p.current := by
  intro he
  cases hcons : s.mem.tail.consumed with
  | true =>
    have hmem := Window.mem_ord hd.lo_le (hd.set hset).1
    rw [← h.tail hcons, he] at hmem
    exact hp.current_off hmem
  | false => exact hp.current_ne (he.symm.trans (h.skipped hcons))

/-- The application writes the current message. -/
theorem Delivery.write (hinv : QueueInv n r (.idle p) cph s.mem) (hd : Delivery n r tp (.idle p) s)
    (x : β) : Delivery n r tp (.idle p) { s with msgs := Function.update s.msgs p.current x } where
  lo_le := hd.lo_le
  num_le := hd.num_le
  unset := hd.unset
  set := hd.set
  first := hd.first
  moved := hd.moved
  count := hd.count
  stamps := by
    intro i hi hi'
    have hne : r.ord i ≠ p.current := fun he =>
      hinv.ring.1.current_off (he ▸ Window.mem_ord (le_trans hd.lo_le hi) hi')
    show s.stamp (r.ord i) = some (i + 1 - n, Function.update s.msgs p.current x (r.ord i))
    rw [Function.update_of_ne hne]
    exact hd.stamps i hi hi'
  stamped := trivial
  ready := trivial
  held := hd.held

/-- Writing the current slot touches nothing the consumer follows. -/
theorem Follows.write (hinv : QueueInv n r (.idle p) cph s.mem)
    (hd : Delivery n r tp (.idle p) s) (hf : Follows n r tp p.overrun s cph) (x : β) :
    Follows n r tp p.overrun { s with msgs := Function.update s.msgs p.current x } cph := by
  refine hf.step hinv.cons (fun c ht h => ⟨h.tail, h.skipped, ?_⟩) id
    (Or.inr ⟨rfl, rfl, le_rfl, fun _ _ _ => rfl⟩)
  have hset : p.head ≠ indexInvalid := fun hh => ht (hinv.shared.unset hh)
  show ∃ k, s.held = some (k, Function.update s.msgs p.current x c.current) ∧ _
  rw [Function.update_of_ne (h.ne_current hinv.ring.1 hd hset)]
  exact h.held

/-- The application calls a push: the current slot is stamped. -/
theorem Delivery.push (hinv : QueueInv n r (.idle p) cph s.mem) (hd : Delivery n r tp (.idle p) s)
    (op : PushOp) : Delivery n r tp (.call op p) (s.afterPush op p) where
  lo_le := hd.lo_le
  num_le := hd.num_le
  unset := by
    rw [ProducerPhase.queue_call]
    exact hd.unset
  set := by
    rw [ProducerPhase.queue_call]
    exact hd.set
  first := by
    rw [ProducerPhase.queue_call]
    exact hd.first
  moved := by
    rw [ProducerPhase.queue_call]
    exact hd.moved
  count := by
    -- a call has one message on its way
    have hpend : (ProducerPhase.call op p).pending = 1 := by
      unfold ProducerPhase.call
      split
      · rfl
      · cases op <;> rfl
    rw [hpend]
    exact hd.count
  stamps := by
    intro i hi hi'
    -- the current slot is off the chain, so stamping it leaves the positions alone
    have hne : r.ord i ≠ p.current := fun he =>
      hinv.ring.1.current_off (he ▸ Window.mem_ord (le_trans hd.lo_le hi) hi')
    show Function.update s.stamp p.current _ (r.ord i) = _
    rw [Function.update_of_ne hne]
    exact hd.stamps i hi hi'
  stamped := by
    have hst : (s.afterPush op p).stamp p.current = some (s.pushed, s.msgs p.current) :=
      Function.update_self _ _ _
    unfold ProducerPhase.call
    split
    · exact hst
    · cases op <;> exact hst
  ready := by
    unfold ProducerPhase.call
    split
    · trivial
    · cases op with
      | forcePush => exact ⟨fun hk => (by cases hk), fun hk => (by cases hk)⟩
      | tryPush => trivial
  held := hd.held

/-- The start of a push neither. -/
theorem Follows.push (hinv : QueueInv n r (.idle p) cph s.mem)
    (hf : Follows n r tp p.overrun s cph) (op : PushOp) :
    Follows n r tp p.overrun (s.afterPush op p) cph :=
  hf.step hinv.cons (fun _ _ h => h.quiet rfl rfl rfl rfl (Or.inl rfl)) id
    (Or.inr ⟨rfl, rfl, le_rfl, fun _ _ _ => rfl⟩)

/-- The application calls a pop or a flush. -/
theorem Follows.call {skipped : Index} {c : ConsumerQueue} {s' : QueueState β}
    (hf : Follows n r tp skipped s (.idle c)) (hmem : s'.mem = s.mem) (hmsgs : s'.msgs = s.msgs)
    (hheld : s'.held = s.held) (op : PopOp) : Follows n r tp skipped s' (.call op c) := by
  have hcall : c.current ≠ indexInvalid → Holds n r tp skipped s' c := fun hne =>
    (hf hne).quiet (by rw [hmem]) rfl hmsgs hheld (Or.inl rfl)
  cases op with
  | pop => exact hcall
  | flush => exact fun _ => hcall

/-- A held message is succeeded by one that is not older. -/
def HeldLe (h h' : Option (Nat × β)) : Prop :=
  ∀ k x, h = some (k, x) → ∃ k' x', h' = some (k', x') ∧ k ≤ k'

/-- A held message is succeeded by a newer one. -/
def HeldLt (h h' : Option (Nat × β)) : Prop :=
  ∃ k' x', h' = some (k', x') ∧ ∀ k x, h = some (k, x) → k < k'

/-- What is held is as new as itself. -/
theorem HeldLe.refl (h : Option (Nat × β)) : HeldLe h h := fun k x hk => ⟨k, x, hk, le_rfl⟩

/-- One after the other. -/
theorem HeldLe.trans {h h' h'' : Option (Nat × β)} (h1 : HeldLe h h') (h2 : HeldLe h' h'') :
    HeldLe h h'' := by
  intro k x hk
  obtain ⟨k', x', hk', hle⟩ := h1 k x hk
  obtain ⟨k'', x'', hk'', hle'⟩ := h2 k' x' hk'
  exact ⟨k'', x'', hk'', le_trans hle hle'⟩

/-- What a step takes is not older than what was held. -/
theorem Takes.heldLe {tp' : Nat} {s' : QueueState β} {o : QueueOutcome}
    (h : Takes n r tp' cph s s' o) : HeldLe s.held s'.held := by
  cases ho : o.isTaken with
  | false =>
    rw [h.keep ho]
    exact .refl _
  | true =>
    intro k x hk
    have hle := h.le ho k x hk
    obtain ⟨hnum, hheld⟩ := h.take ho
    exact ⟨_, _, hheld, by omega⟩

/-- What a pop takes is newer. -/
theorem Takes.heldLt {tp' : Nat} {s' : QueueState β} {o : QueueOutcome}
    (h : Takes n r tp' cph s s' o) (ho : o.isTaken = true) (hpop : ¬ cph.inFlush) :
    HeldLt s.held s'.held := by
  obtain ⟨hnum, hheld⟩ := h.take ho
  refine ⟨_, _, hheld, fun k x hk => ?_⟩
  have := h.lt ho hpop k x hk
  omega

/-- Every step of the queue keeps `Delivery` and `Follows`, if a push that finds the slot it wants to
    jump over changed may take it, and a flush that looks up the head finds none older than the
    tail. -/
theorem QueueStep.delivery (hn : SizeOk n) {ph ph' : ProducerPhase} {cph' : ConsumerPhase}
    {r' : Ring} {e : QueueEvent β} {s' : QueueState β} {o : QueueOutcome}
    (hinv : QueueInv n r ph cph s.mem) (hd : Delivery n r tp ph s)
    (hf : Follows n r tp ph.queue.overrun s cph)
    (hrel : e = .prodStep → Released r tp ph s.mem) (hnew : e = .consStep → HeadNew cph s.mem)
    (hs : QueueStep s r ph cph e r' ph' cph' s' o) :
    ∃ tp', Delivery n r' tp' ph' s' ∧ Follows n r' tp' ph'.queue.overrun s' cph' ∧
      HeldLe s.held s'.held ∧
      (o.isTaken = true → ¬ cph.inFlush → HeldLt s.held s'.held) := by
  cases hs with
  | @write p _ x hlt =>
    exact ⟨tp, hd.write hinv x, hf.write hinv hd x, .refl _, fun ho => by cases ho⟩
  | @push p _ op =>
    refine ⟨tp, hd.push hinv op, ?_, .refl _, fun ho => by cases ho⟩
    rw [ProducerPhase.queue_call]
    exact Follows.push hinv hf op
  | prodStep hs =>
    refine ⟨_, hs.delivery hn hinv hd (hrel rfl), hs.follows hn hinv hd hf, .refl _, fun ho => ?_⟩
    cases hs <;> cases ho
  | @pop _ c op =>
    refine ⟨tp, { hd with }, ?_, .refl _, fun ho => by cases ho⟩
    refine hf.call ?_ ?_ ?_ op <;> rfl
  | consStep hs =>
    obtain ⟨tp', -, -, hd', hf', htakes⟩ := hs.delivery hn hinv hd hf (hnew rfl)
    exact ⟨tp', hd', hf', htakes.heldLe, htakes.heldLt⟩

/-- The initial state. -/
theorem Created.delivery (hn : SizeOk n) (h : Created n s p) :
    Delivery n (Ring.fresh n) (n - 1) (.idle p) s := by
  have h3 := hn.three_le
  refine ⟨Nat.zero_le _, by omega, fun _ => ⟨by omega, h.held⟩, fun hh => absurd h.head hh,
    fun hh => absurd h.head hh, fun hh => absurd h.head hh, ?_, ?_, trivial, trivial, ?_⟩
  · rw [h.pushed]
    simp only [Ring.fresh, ProducerPhase.pending]
    omega
  · intro i hi hi'
    simp only [Ring.fresh] at hi'
    omega
  · intro k x hk
    rw [h.held] at hk
    cases hk

end system

end Rtipc
