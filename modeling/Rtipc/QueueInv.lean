/-
  What holds in every run of the queue.

  `QueueInv` adds the consumer's side to `RingInv` and `SharedInv`: what the words read so far in a
  running pop or flush still say (`ConsumerInv`).  `QueueStep` describes a step of the whole queue in
  terms of the points the two threads are at, and `queue_run` is the induction on runs that all
  results about the queue use: a property that the initial state has and every `QueueStep` preserves,
  `QueueInv` being given, holds in every reachable state.

  1. **Three parts.**  `RingInv` is about the private state of the producer alone, `SharedInv` about the
     words as the producer has left them, `ConsumerInv` about what the consumer has read.  Only the last
     depends on both sides.

  2. **Steps.**  Each part has a lemma for the steps of each side (`ProducerStep.consumerInv`,
     `ConsumerStep.sharedInv` and so on), and `QueueStep.queueInv` puts them together.

  3. **The crux.**  What the consumer has read may be out of date when it uses it.  `StillOrMoved` says
     how far: a tail that the consumer has marked is still there with its flag, or the producer has
     moved it to a word without the flag, and then the compare-exchange fails.
-/
import Rtipc.Ring

namespace Rtipc

/-! ## The consumer's side

  What the consumer has read is not protected by anything, so each point says what of it still holds
  after steps of the producer. -/

/-- The word `tail` as the consumer left it after a fetch-or, or a tail the producer has moved since. -/
def StillOrMoved (n : Nat) (m : QueueMem) (tail : Index) : Prop :=
  m.tail = tail ∨ m.tail.toNat < n

/-- What the words read so far say. -/
def ConsumerPhase.Reads (n : Nat) (m : QueueMem) : ConsumerPhase → Prop
  | .idle _ => True
  | .pop1 _ => True
  | .pop2 c tail => c.current ≠ indexInvalid ∧ TailOk n tail ∧ tail.consumed = true ∧
      StillOrMoved n m tail
  | .pop3 c tail next => c.current ≠ indexInvalid ∧ TailOk n tail ∧ tail.consumed = true ∧
      StillOrMoved n m tail ∧ next.toNat < n
  | .pop4 c => c.current ≠ indexInvalid ∧ m.tail.toNat < n
  | .flush1 _ => True
  | .flush2 _ tail => TailOk n tail ∧ StillOrMoved n m (tail ||| consumedFlag)
  | .flush3 _ tail head => TailOk n tail ∧ StillOrMoved n m (tail ||| consumedFlag) ∧ head.toNat < n

/-- The consumer holds no slot or an existing one, and none before the tail is set. -/
structure ConsumerInv (n : Nat) (cph : ConsumerPhase) (m : QueueMem) : Prop where
  nMsgs : cph.queue.nMsgs = n
  current : cph.queue.current ≠ indexInvalid → cph.queue.current.toNat < n
  unset : m.tail = indexInvalid → cph.queue.current = indexInvalid
  reads : cph.Reads n m

/-- What holds of the shared words and the points of both threads in every run. -/
structure QueueInv (n : Nat) (r : Ring) (ph : ProducerPhase) (cph : ConsumerPhase)
    (m : QueueMem) : Prop where
  ring : RingInv n r ph
  shared : SharedInv n r ph m
  cons : ConsumerInv n cph m

/-- Whether the message of the push is still to be appended. -/
def ProducerPhase.pending : ProducerPhase → Nat
  | .idle _ | .first1 _ _ _ | .tryLoad _ _ | .enq1 _ _ _ | .enq2 _ _ _ => 1
  | _ => 0

section steps

variable {n : Nat} {r : Ring} {ph ph' : ProducerPhase} {cph cph' : ConsumerPhase} {m m' : QueueMem}
  {o : QueueOutcome}

/-- The private state is well-formed at every point of a push. -/
theorem RingInv.path (h : RingInv n r ph) : RingPath n r ph.queue := by
  cases ph <;> first | exact h.1.toBeforeAppend.toRingPath | exact h.1.toRingPath

/-- The head word, once set, names the last slot on the list, or the one before it while the last one
    has not been announced. -/
theorem RingInv.announced (hn : SizeOk n) (h : RingInv n r ph) :
    ph.announced = indexInvalid ∨
      ∃ j, r.hi + ph.pending ≤ j + 2 ∧ r.lo ≤ j ∧ j < r.hi ∧ ph.announced = r.ord j := by
  -- Before the new message is appended the head is the last position, afterwards the new one.
  have hsteady : ∀ p, BeforeAppend n r p → Steady r p →
      ∃ j, r.hi + 1 ≤ j + 2 ∧ r.lo ≤ j ∧ j < r.hi ∧ p.head = r.ord j := by
    intro p hp hs
    have hlt := hp.one_le hn
    exact ⟨r.hi - 1, by omega, by omega, by omega, hs.head⟩
  have hcur : ∀ p, AfterAppend n r p → p.head = p.current →
      ∃ j, r.hi ≤ j + 2 ∧ r.lo ≤ j ∧ j < r.hi ∧ p.head = r.ord j := by
    intro p hp hhead
    have hlt := hp.two_le hn
    exact ⟨r.hi - 1, by omega, by omega, by omega, hhead.trans hp.current_eq⟩
  cases ph with
  | idle p =>
    obtain ⟨hp, -, hf | hs⟩ := h
    · exact Or.inl hf.head
    · exact Or.inr (hsteady p hp hs)
  | first1 op p next => exact Or.inl h.2.2.head
  | first2 op p next => exact Or.inl h.2.2.1
  -- the first message is on the chain, but no head has been stored yet
  | first3 op p next => exact Or.inl rfl
  | tryLoad p next => exact Or.inr (hsteady p h.1 h.2.2.2)
  | enq1 k p next => exact Or.inr (hsteady p h.1 h.2.2.1)
  | enq2 k p next => exact Or.inr (hsteady p h.1 h.2.2.1)
  -- appended, and the head still the message before it: the only point at which the two differ
  | enq3 k p next =>
    have hlt := h.1.two_le hn
    have hle : r.hi + 0 ≤ r.hi - 2 + 2 := by omega
    exact Or.inr ⟨r.hi - 2, hle, by omega, by omega, h.2.2.1⟩
  | forceLoad p next => exact Or.inr (hcur p h.1 h.2.2)
  | requeue op p next => exact Or.inr (hcur p h.1 h.2.2.1)
  | move p next tail => exact Or.inr (hcur p h.1 h.2.2.1)
  | moveFull p next tail => exact Or.inr (hcur p h.1 h.2.2.1)
  | jumping p tail => exact Or.inr (hcur p h.1 h.2.1)

/-- Before the first message the list has not grown beyond the number of slots. -/
theorem RingInv.hi_le (hn : SizeOk n) (h : RingInv n r ph) (hh : ph.queue.head = indexInvalid) :
    r.hi ≤ n := by
  -- A head that is set excludes the hypothesis; what is left is before the first message.
  have hset : ∀ {p : ProducerQueue}, p.head.toNat < n → p.head = indexInvalid → r.hi ≤ n :=
    fun hlt hinvalid => absurd hinvalid (hn.ne_invalid hlt)
  cases ph with
  | idle p =>
    obtain ⟨hp, -, hf | hs⟩ := h
    · have h1 := hp.size
      have h2 := hf.lo
      omega
    · exact hset (hs.head_lt hp.toRingPath) hh
  | first1 op p next =>
    have h1 := h.1.size
    have h2 := h.2.2.lo
    omega
  | first2 op p next =>
    have h1 := h.1.size
    have h2 := h.2.2.2.2.2
    omega
  | first3 op p next => exact hset (h.2.2.1 ▸ h.1.current_lt) hh
  | tryLoad p next => exact hset (h.2.2.2.head_lt h.1.toRingPath) hh
  | enq1 k p next => exact hset (h.2.2.1.head_lt h.1.toRingPath) hh
  | enq2 k p next => exact hset (h.2.2.1.head_lt h.1.toRingPath) hh
  | enq3 k p next => exact hset (h.2.2.1 ▸ h.1.lt _) hh
  | forceLoad p next => exact hset (h.2.2 ▸ h.1.current_lt) hh
  | requeue op p next => exact hset (h.2.2.1 ▸ h.1.current_lt) hh
  | move p next tail => exact hset (h.2.2.1 ▸ h.1.current_lt) hh
  | moveFull p next tail => exact hset (h.2.2.1 ▸ h.1.current_lt) hh
  | jumping p tail => exact hset (h.2.1 ▸ h.1.current_lt) hh

/-- A head word that has been stored names a slot. -/
theorem QueueInv.head_lt (hn : SizeOk n) (h : QueueInv n r ph cph m) (hm : m.head ≠ indexInvalid) :
    m.head.toNat < n := by
  rw [h.shared.head] at hm ⊢
  obtain ⟨j, -, -, -, hj⟩ := (h.ring.announced hn).resolve_left hm
  rw [hj]
  exact h.ring.path.lt j

/-- A tail that has been stored names a slot. -/
theorem SharedInv.tail_ok (h : SharedInv n r ph m) (ht : m.tail ≠ indexInvalid) :
    TailOk n m.tail := h.tail fun hh => ht (h.unset hh)

/-- The tail is set after the head. -/
theorem SharedInv.head_ne {w : Index} (h : SharedInv n r ph m) (hw : m.tail = w)
    (hne : w ≠ indexInvalid) : ph.queue.head ≠ indexInvalid := by
  subst hw
  exact fun hh => hne (h.unset hh)

/-- A link out of the consumer's slot that is not the end of the chain leads to a slot. -/
theorem QueueInv.next_lt (h : QueueInv n r ph cph m) (hcur : cph.queue.current ≠ indexInvalid)
    (hne : m.chain cph.queue.current ≠ indexInvalid) : (m.chain cph.queue.current).toNat < n := by
  have hlt := h.cons.current hcur
  have hword := h.ring.path.word _ hlt
  rw [← h.shared.chain _ hlt] at hword
  exact hword.resolve_left hne

/-- What the producer can do to the tail word: set it, or move it to a slot without any flag. -/
theorem ProducerStep.tail (hn : SizeOk n) (h : RingInv n r ph) (hm : SharedInv n r ph m)
    (hs : ProducerStep ph m ph' m' o) :
    m'.tail = m.tail ∨
      (m.tail = indexInvalid ∧ m'.tail ≠ indexInvalid ∧ m'.tail.consumed = false) ∨
      m'.tail.toNat < n := by
  cases hs with
  -- the only store to the tail that is no exchange: the first message, with the first flag
  | @first2 op p next =>
    obtain ⟨hp, -, hhead, -⟩ := h
    have hc : (p.current ||| firstFlag).consumed = false :=
      (Index.consumed_or_firstFlag _).trans (hn.consumed hp.current_lt)
    exact Or.inr (Or.inl ⟨hm.unset hhead, Index.ne_indexInvalid_of_not_consumed hc, hc⟩)
  -- All three exchanges put the number of a slot there, with both flags clear.
  | @moved p _ _ _ ht =>
    obtain ⟨hp, -, -, -, rfl⟩ := h
    right; right
    show (p.chain _).toNat < n
    rw [hn.slot (hp.lt _), hp.link hn]
    exact hp.lt _
  | @movedFull p _ _ _ ht =>
    obtain ⟨hp, -, -, -, hslot, -⟩ := h
    right; right
    show (p.chain _).toNat < n
    rw [hslot, hp.link hn]
    exact hp.lt _
  | @overran p _ _ ht =>
    obtain ⟨hp, -, ho, hslot, -⟩ := h
    right; right
    show (p.chain (p.chain _)).toNat < n
    rw [hslot, hp.link_link ho hn]
    exact hp.lt _
  | _ => exact Or.inl rfl

/-- A step of the producer leaves the tail as the consumer saw it, or moves it to a word without the
    flag. -/
theorem StillOrMoved.prod {tail : Index} (h : StillOrMoved n m tail) (ht : tail ≠ indexInvalid)
    (hn : SizeOk n) (htail : m'.tail = m.tail ∨
      (m.tail = indexInvalid ∧ m'.tail ≠ indexInvalid ∧ m'.tail.consumed = false) ∨
      m'.tail.toNat < n) : StillOrMoved n m' tail := by
  rcases htail with htail | ⟨hinv, -⟩ | hlt
  · rw [StillOrMoved, htail]
    exact h
  · rcases h with h | h
    · exact absurd (h.symm.trans hinv) ht
    · exact absurd hinv (hn.ne_invalid h)
  · exact Or.inr hlt

/-- The producer's steps do not disturb the consumer. -/
theorem ProducerStep.consumerInv (hn : SizeOk n) (h : RingInv n r ph) (hm : SharedInv n r ph m)
    (hc : ConsumerInv n cph m) (hs : ProducerStep ph m ph' m' o) : ConsumerInv n cph m' := by
  -- The consumer has loaded the tail; only what the producer may have made of it since matters.
  have htail := hs.tail hn h hm
  refine ⟨hc.nMsgs, hc.current, ?_, ?_⟩
  · intro hinv
    rcases htail with htail | ⟨-, hne, -⟩ | hlt
    · exact hc.unset (htail ▸ hinv)
    · exact absurd hinv hne
    · exact absurd hinv (hn.ne_invalid hlt)
  · have hreads := hc.reads
    cases cph with
    | idle c => trivial
    | pop1 c => trivial
    | pop2 c tail =>
      obtain ⟨hcur, ht, hcons, hsm⟩ := hreads
      exact ⟨hcur, ht, hcons, hsm.prod ht.ne_invalid hn htail⟩
    | pop3 c tail next =>
      obtain ⟨hcur, ht, hcons, hsm, hnext⟩ := hreads
      exact ⟨hcur, ht, hcons, hsm.prod ht.ne_invalid hn htail, hnext⟩
    -- the exchange has failed, and the tail is to be loaded again: the producer never sets a flag in
    -- it
    | pop4 c =>
      obtain ⟨hcur, hlt⟩ := hreads
      rcases htail with htail | ⟨hinv, -⟩ | hlt'
      · exact ⟨hcur, htail ▸ hlt⟩
      · exact absurd hinv (hn.ne_invalid hlt)
      · exact ⟨hcur, hlt'⟩
    | flush1 c => trivial
    | flush2 c tail =>
      obtain ⟨ht, hsm⟩ := hreads
      exact ⟨ht, hsm.prod ht.or_consumed.ne_invalid hn htail⟩
    | flush3 c tail head =>
      obtain ⟨ht, hsm, hhead⟩ := hreads
      exact ⟨ht, hsm.prod ht.or_consumed.ne_invalid hn htail, hhead⟩

/-- The consumer marks the tail consumed. -/
theorem SharedInv.fetchOr (hm : SharedInv n r ph m) :
    SharedInv n r ph { m with tail := m.tail ||| consumedFlag } where
  chain := hm.chain
  head := hm.head
  unset hh := (congrArg (· ||| consumedFlag) (hm.unset hh)).trans Index.indexInvalid_or_consumedFlag
  tail hh := (hm.tail hh).or_consumed
  blocked _ hc := by simp at hc

/-- The consumer moves a tail that is set to the slot `x`. -/
theorem SharedInv.claim (hn : SizeOk n) (hm : SharedInv n r ph m) (ht : m.tail ≠ indexInvalid)
    {x : Index} (hx : x.toNat < n) :
    SharedInv n r ph { m with tail := x ||| consumedFlag } where
  chain := hm.chain
  head := hm.head
  unset hh := absurd (hm.unset hh) ht
  tail _ := (TailOk.of_lt hn hx).or_consumed
  blocked _ hc := by simp at hc

/-- The consumer's steps do not disturb the producer. -/
theorem ConsumerStep.sharedInv (hn : SizeOk n) (hm : SharedInv n r ph m)
    (hc : ConsumerInv n cph m) (hs : ConsumerStep cph m cph' m' o) : SharedInv n r ph m' := by
  have hreads := hc.reads
  cases hs with
  | popTaken ht =>
    obtain ⟨-, htail, -, -, hnext⟩ := hreads
    exact hm.claim hn (ht ▸ htail.ne_invalid) hnext
  | flushTaken ht =>
    obtain ⟨htail, -, hhead⟩ := hreads
    exact hm.claim hn (ht ▸ htail.or_consumed.ne_invalid) hhead
  | popNoUpdate => exact hm
  | popNextError => exact hm
  | popNext => exact hm
  | popLost => exact hm
  | flushHeadError => exact hm
  | flushHead => exact hm
  | flushLost => exact hm
  | _ => exact hm.fetchOr

/-- Only the unset tail is unset with the flag. -/
theorem or_consumed_eq_invalid (hm : SharedInv n r ph m)
    (h : m.tail ||| consumedFlag = indexInvalid) : m.tail = indexInvalid := by
  by_contra hne
  exact (hm.tail_ok hne).or_consumed.ne_invalid h

/-- A step of the consumer keeps what is known of its words. One case for each step. -/
theorem ConsumerStep.consumerInv (hn : SizeOk n) (hm : SharedInv n r ph m)
    (hc : ConsumerInv n cph m) (hs : ConsumerStep cph m cph' m' o) : ConsumerInv n cph' m' := by
  have hreads := hc.reads
  -- While the tail is unset nothing has been taken.
  have hunset : ∀ {c : ConsumerQueue}, c = cph.queue →
      m.tail ||| consumedFlag = indexInvalid → c.current = indexInvalid := by
    rintro _ rfl h
    exact hc.unset (or_consumed_eq_invalid hm h)
  cases hs with
  | popNoMsg h => exact ⟨hc.nMsgs, hc.current, hunset rfl, trivial⟩
  | popError h hv => exact ⟨hc.nMsgs, hc.current, hunset rfl, trivial⟩
  -- the tail itself is taken, by the flag that `fetch_or` has just set
  | popTail h hv hcons =>
    exact ⟨hc.nMsgs, fun _ => (hm.tail_ok h).lt,
      fun hinv => absurd (or_consumed_eq_invalid hm hinv) h, trivial⟩
  | popNone h hv hcons hcur => exact ⟨hc.nMsgs, hc.current, hunset rfl, trivial⟩
  | popOwn h hv hcons hcur =>
    exact ⟨hc.nMsgs, hc.current, hunset rfl, hcur, hm.tail_ok h, hcons,
      Or.inl (Index.or_consumedFlag_of_consumed hcons)⟩
  | popNoUpdate h => exact ⟨hc.nMsgs, hc.current, hc.unset, trivial⟩
  | popNextError h hv => exact ⟨hc.nMsgs, hc.current, hc.unset, trivial⟩
  | popNext h hv =>
    obtain ⟨hcur, htail, hcons, hsm⟩ := hreads
    exact ⟨hc.nMsgs, hc.current, hc.unset, hcur, htail, hcons, hsm, hc.nMsgs ▸ hv⟩
  -- the exchange succeeded, so the next slot on the chain is the tail
  | popTaken ht =>
    obtain ⟨-, htail, -, -, hnext⟩ := hreads
    refine ⟨hc.nMsgs, fun _ => hnext, fun hinv => ?_, trivial⟩
    exact absurd hinv (TailOk.of_lt hn hnext).or_consumed.ne_invalid
  | popLost ht =>
    obtain ⟨hcur, htail, hcons, hsm, hnext⟩ := hreads
    exact ⟨hc.nMsgs, hc.current, hc.unset, hcur, hsm.resolve_left ht⟩
  | popMovedError hv => exact ⟨hc.nMsgs, hc.current, hunset rfl, trivial⟩
  -- the exchange failed: the producer has moved the tail, and the consumer takes what it put there
  | popMoved hv =>
    have hv' : m.tail.toNat < n := hc.nMsgs ▸ hv
    exact ⟨hc.nMsgs, fun _ => hv',
      fun hinv => absurd (or_consumed_eq_invalid hm hinv) (hn.ne_invalid hv'), trivial⟩
  | flushNoMsg h => exact ⟨hc.nMsgs, hc.current, hunset rfl, trivial⟩
  | flushError h hv => exact ⟨hc.nMsgs, hc.current, hunset rfl, trivial⟩
  | flushTail h hv =>
    exact ⟨hc.nMsgs, hc.current, hunset rfl, hm.tail_ok h, Or.inl rfl⟩
  | flushHeadError hv => exact ⟨hc.nMsgs, hc.current, hc.unset, trivial⟩
  | flushHead hv =>
    obtain ⟨htail, hsm⟩ := hreads
    exact ⟨hc.nMsgs, hc.current, hc.unset, htail, hsm, hc.nMsgs ▸ hv⟩
  | flushTaken ht =>
    obtain ⟨htail, -, hhead⟩ := hreads
    refine ⟨hc.nMsgs, fun _ => hhead, fun hinv => ?_, trivial⟩
    exact absurd hinv (TailOk.of_lt hn hhead).or_consumed.ne_invalid
  | flushLost ht => exact ⟨hc.nMsgs, hc.current, hc.unset, trivial⟩

/-- A step of the producer keeps the whole invariant. -/
theorem ProducerStep.queueInv (hn : SizeOk n) (h : QueueInv n r ph cph m)
    (hs : ProducerStep ph m ph' m' o) : QueueInv n (r.step ph ph') ph' cph m' :=
  ⟨hs.ringInv hn h.ring h.shared, hs.sharedInv hn h.ring h.shared,
    hs.consumerInv hn h.ring h.shared h.cons⟩

/-- A step of the consumer keeps the whole invariant. -/
theorem ConsumerStep.queueInv (hn : SizeOk n) (h : QueueInv n r ph cph m)
    (hs : ConsumerStep cph m cph' m' o) : QueueInv n r ph cph' m' :=
  ⟨h.ring, hs.sharedInv hn h.shared h.cons, hs.consumerInv hn h.shared h.cons⟩

end steps

/-! ## The calls

  A call looks at the private state alone: the first push of all has another first point than the
  others. -/

/-- The point at which a push starts. -/
def ProducerPhase.call (op : PushOp) (p : ProducerQueue) : ProducerPhase :=
  if p.head = indexInvalid then .first1 op p (p.chain p.current)
  else match op with
    | .forcePush => .enq1 .force p (p.chain p.current)
    | .tryPush => .tryLoad p (p.chain p.current)

/-- The first push of all. -/
theorem ProducerPhase.call_first {op : PushOp} {p : ProducerQueue} (h : p.head = indexInvalid) :
    ProducerPhase.call op p = .first1 op p (p.chain p.current) := if_pos h

/-- Any other `force_push` starts by enqueuing. -/
theorem ProducerPhase.call_forcePush {p : ProducerQueue} (h : p.head ≠ indexInvalid) :
    ProducerPhase.call .forcePush p = .enq1 .force p (p.chain p.current) := if_neg h

/-- Any other `try_push` starts by looking at the tail. -/
theorem ProducerPhase.call_tryPush {p : ProducerQueue} (h : p.head ≠ indexInvalid) :
    ProducerPhase.call .tryPush p = .tryLoad p (p.chain p.current) := if_neg h

/-- A call does not change the private state of the producer. -/
@[simp] theorem ProducerPhase.queue_call (op : PushOp) (p : ProducerQueue) :
    (ProducerPhase.call op p).queue = p := by
  unfold ProducerPhase.call
  split
  · rfl
  · cases op <;> rfl

/-- Nor what it has announced. -/
@[simp] theorem ProducerPhase.announced_call (op : PushOp) (p : ProducerQueue) :
    (ProducerPhase.call op p).announced = p.head := by
  unfold ProducerPhase.call
  split
  · rfl
  · cases op <;> rfl

/-- The point at which a pop or a flush starts. -/
def ConsumerPhase.call (op : PopOp) (c : ConsumerQueue) : ConsumerPhase :=
  match op with
  | .pop => .pop1 c
  | .flush => .flush1 c

/-- A call does not change the private state of the consumer. -/
@[simp] theorem ConsumerPhase.queue_call (op : PopOp) (c : ConsumerQueue) :
    (ConsumerPhase.call op c).queue = c := by
  cases op <;> rfl

/-- The code of a pop or a flush is what is left at its first point. -/
theorem ConsumerPhase.thread_call (op : PopOp) (c : ConsumerQueue) :
    (ConsumerPhase.call op c).thread = .busy op (op.prog c) := by
  cases op with
  | pop => exact congrArg _ (ConsumerPhase.code_pop c).symm
  | flush => exact congrArg _ (ConsumerPhase.code_flush c).symm

section calls

variable {n : Nat} {r : Ring} {p : ProducerQueue} {m : QueueMem}

/-- A push that is called keeps the list of slots. -/
theorem RingInv.call (h : RingInv n r (.idle p)) (hn : SizeOk n) (op : PushOp) :
    RingInv n r (.call op p) := by
  obtain ⟨hp, hcur, hf | hs⟩ := h
  · rw [ProducerPhase.call_first hf.head]
    exact ⟨hp, hcur, hf⟩
  · have hhead := hn.ne_invalid (hs.head_lt hp.toRingPath)
    cases op with
    | forcePush =>
      rw [ProducerPhase.call_forcePush hhead]
      exact ⟨hp, hcur, hs, trivial⟩
    | tryPush =>
      rw [ProducerPhase.call_tryPush hhead]
      exact ⟨hp, hcur, hcur, hs⟩

/-- The code of a push is what is left at its first point. -/
theorem RingInv.thread_call (h : RingInv n r (.idle p)) (hn : SizeOk n) (op : PushOp) :
    (ProducerPhase.call op p).thread = .busy op (op.prog p) := by
  obtain ⟨hp, hcur, hf | hs⟩ := h
  · have hlt : p.current.toNat < p.nMsgs := hp.nMsgs.symm ▸ hp.current_lt
    rw [ProducerPhase.call_first hf.head, ProducerPhase.code_first op hlt hf.head]
    rfl
  · have hlt : p.current.toNat < p.nMsgs := hp.nMsgs.symm ▸ hp.current_lt
    have hhead := hn.ne_invalid (hs.head_lt hp.toRingPath)
    have hheadlt : p.head.toNat < p.nMsgs := hp.nMsgs.symm ▸ hs.head_lt hp.toRingPath
    have hover : p.overrun ≠ indexInvalid → p.overrun.toNat < p.nMsgs := fun ho =>
      hp.nMsgs.symm ▸ hp.over_lt ho
    cases op with
    | tryPush =>
      rw [ProducerPhase.call_tryPush hhead, ProducerPhase.code_tryPush hlt hhead hheadlt hover]
      rfl
    | forcePush =>
      rw [ProducerPhase.call_forcePush hhead, ProducerPhase.code_forcePush hlt hhead hheadlt hover]
      · rfl
      · -- the slot after the next one is on the list, and it is not the end
        intro ho
        have h3 := hn.three_le
        have hsize := hp.size
        rw [spare_of_eq ho] at hsize
        have hne1 : r.ord r.lo ≠ p.current := fun he =>
          hp.current_off (he ▸ Window.mem_ord le_rfl (by omega))
        have hne2 : r.ord r.lo ≠ p.head := fun he => by
          have := hp.nodup r.lo (r.hi - 1) le_rfl (by omega) (by omega) (by omega)
            (he.trans hs.head)
          omega
        rw [hcur, Function.update_of_ne hne2, Function.update_of_ne hne1,
          hp.linked r.lo le_rfl (by omega), hp.nMsgs]
        exact hp.lt _

/-- A push that is called keeps what is known of the shared words. -/
theorem SharedInv.call (h : SharedInv n r (.idle p) m) (op : PushOp) :
    SharedInv n r (.call op p) m := by
  refine ⟨?_, ?_, ?_, ?_, ?_⟩
  · rw [ProducerPhase.queue_call]
    exact h.chain
  · rw [ProducerPhase.announced_call]
    exact h.head
  · rw [ProducerPhase.queue_call]
    exact h.unset
  · rw [ProducerPhase.queue_call]
    exact h.tail
  · rw [ProducerPhase.queue_call]
    exact h.blocked

/-- A pop or a flush that is called keeps what is known of the consumer. -/
theorem ConsumerInv.call {c : ConsumerQueue} (h : ConsumerInv n (.idle c) m) (op : PopOp) :
    ConsumerInv n (.call op c) m := by
  cases op with
  | pop => exact ⟨h.nMsgs, h.current, h.unset, trivial⟩
  | flush => exact ⟨h.nMsgs, h.current, h.unset, trivial⟩

end calls

/-! ## The steps of the queue

  A step of the system is a call, a step of one of the threads, or a write into the current message. -/

/-- The state after a step of the producer to the point `ph'`. -/
abbrev QueueState.afterProd {β : Type} (s : QueueState β) (ph' : ProducerPhase) (m' : QueueMem)
    (o : QueueOutcome) : QueueState β :=
  { s with mem := m', prod := ph'.thread, pushed := o.count s.pushed }

/-- The state after a step of the consumer to the point `cph'`. -/
abbrev QueueState.afterCons {β : Type} (s : QueueState β) (cph' : ConsumerPhase) (m' : QueueMem)
    (o : QueueOutcome) : QueueState β :=
  { s with mem := m', cons := cph'.thread, held := o.take s.stamp s.held cph'.queue.current }

/-- The state after the call of a push. -/
abbrev QueueState.afterPush {β : Type} (s : QueueState β) (op : PushOp) (p : ProducerQueue) :
    QueueState β :=
  { s with
    prod := (ProducerPhase.call op p).thread
    stamp := Function.update s.stamp p.current (some (s.pushed, s.msgs p.current)) }

/-- A step of the whole queue, by the points at which the threads are before and after it. -/
inductive QueueStep {β : Type} (s : QueueState β) :
    Ring → ProducerPhase → ConsumerPhase → QueueEvent β →
    Ring → ProducerPhase → ConsumerPhase → QueueState β → QueueOutcome → Prop
  | write {r p cph x} (hlt : p.current.toNat < p.nMsgs) :
      QueueStep s r (.idle p) cph (.write x) r (.idle p) cph
        { s with msgs := Function.update s.msgs p.current x } .silent
  | push {r p cph op} :
      QueueStep s r (.idle p) cph (.push op) r (.call op p) cph (s.afterPush op p) .silent
  | prodStep {r ph ph' cph m' o} (h : ProducerStep ph s.mem ph' m' o) :
      QueueStep s r ph cph .prodStep (r.step ph ph') ph' cph (s.afterProd ph' m' o) o
  | pop {r ph c op} :
      QueueStep s r ph (.idle c) (.pop op) r ph (.call op c)
        { s with cons := (ConsumerPhase.call op c).thread } .silent
  | consStep {r ph cph cph' m' o} (h : ConsumerStep cph s.mem cph' m' o) :
      QueueStep s r ph cph .consStep r ph cph' (s.afterCons cph' m' o) o

/-- The producer is between two calls only at one point. -/
theorem ProducerPhase.thread_eq_idle {ph : ProducerPhase} {p : ProducerQueue}
    (h : ph.thread = .idle p) : ph = .idle p := by
  cases ph <;> first | cases h; rfl | cases h

/-- So is the consumer. -/
theorem ConsumerPhase.thread_eq_idle {cph : ConsumerPhase} {c : ConsumerQueue}
    (h : cph.thread = .idle c) : cph = .idle c := by
  cases cph <;> first | cases h; rfl | cases h

section system

variable {β : Type} {n : Nat} {r : Ring} {ph : ProducerPhase} {cph : ConsumerPhase}
  {s s' : QueueState β} {e : QueueEvent β} {o : QueueOutcome}

/-- The queue makes no other step than those of `QueueStep`. -/
theorem queueStep_cases (hn : SizeOk n) (hph : s.prod = ph.thread) (hcph : s.cons = cph.thread)
    (hring : RingInv n r ph) (h : s.step e = some (s', o)) :
    ∃ r' ph' cph', QueueStep s r ph cph e r' ph' cph' s' o ∧
      s'.prod = ph'.thread ∧ s'.cons = cph'.thread := by
  cases e with
  -- only between calls, and into the current slot
  | write x =>
    cases hprod : s.prod with
    | busy op prog =>
      simp only [QueueState.step, QueueState.write, hprod] at h
      cases h
    | idle p =>
      obtain rfl := ProducerPhase.thread_eq_idle (hph.symm.trans hprod)
      obtain ⟨hp, -⟩ := hring
      have hlt : p.current.toNat < p.nMsgs := hp.nMsgs.symm ▸ hp.current_lt
      have hw : s.write x =
          some ({ s with msgs := Function.update s.msgs p.current x }, .silent) := by
        rw [QueueState.write, hprod]
        simp only [ProducerQueue.msg, queueGetMsg_of_lt hlt, Option.map_some]
      rw [QueueState.step, hw] at h
      cases h
      exact ⟨_, _, _, .write hlt, hph, hcph⟩
  | push op =>
    simp only [QueueState.step, QueueState.push] at h
    cases hprod : s.prod with
    | busy op prog =>
      rw [hprod] at h
      cases h
    | idle p =>
      simp only [hprod] at h
      obtain rfl := ProducerPhase.thread_eq_idle (hph.symm.trans hprod)
      cases h
      -- the call of the source is the first phase, as the invariant bounds what the source compares
      rw [← hring.thread_call hn op]
      exact ⟨_, _, _, .push, rfl, hcph⟩
  | prodStep =>
    obtain ⟨ph', m', hs, rfl⟩ := prodStep_cases hph h
    exact ⟨_, _, _, .prodStep hs, rfl, hcph⟩
  | pop op =>
    simp only [QueueState.step, QueueState.pop] at h
    cases hcons : s.cons with
    | busy op prog =>
      rw [hcons] at h
      cases h
    | idle c =>
      simp only [hcons] at h
      obtain rfl := ConsumerPhase.thread_eq_idle (hcph.symm.trans hcons)
      cases h
      rw [← ConsumerPhase.thread_call op c]
      exact ⟨_, _, _, .pop, hph, rfl⟩
  | consStep =>
    obtain ⟨cph', m', hs, rfl⟩ := consStep_cases hcph h
    exact ⟨_, _, _, .consStep hs, hph, rfl⟩

/-- Every step of the system keeps the invariant. -/
theorem QueueStep.queueInv (hn : SizeOk n) {r' : Ring} {ph' : ProducerPhase}
    {cph' : ConsumerPhase} (h : QueueInv n r ph cph s.mem)
    (hs : QueueStep s r ph cph e r' ph' cph' s' o) : QueueInv n r' ph' cph' s'.mem := by
  cases hs with
  | write hlt => exact h
  | push => exact ⟨h.ring.call hn _, h.shared.call _, h.cons⟩
  | prodStep hs => exact hs.queueInv hn h
  | pop => exact ⟨h.ring, h.shared, h.cons.call _⟩
  | consStep hs => exact hs.queueInv hn h

end system

end Rtipc
