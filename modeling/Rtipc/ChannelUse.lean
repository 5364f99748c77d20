/-
  A channel as its users see it.

  `ChannelView` is all that a program on the two ends of a channel has to know: the bounded queue, the
  message the producer has in its hands, or the push that runs, and whether a pop runs.  `Shows` relates
  it to the code of the channel.  Each call has one lemma that says what it does to the view; so a proof
  about a program that uses channels speaks of views only.

  A step of the program is one of four kinds: it changes the message in the producer's hands (`modify`),
  calls a push or a pop, makes one atomic step of a call that runs, or looks at the message that the
  consumer holds.  `Shows` is kept by all of them, and the result of a call is the one the
  bounded queue gives.

  The lemmas on steps come in a form that suits the programs: either the call goes on and nothing is to
  be seen, or it returns and the view has changed by one transition of the bounded queue.  The number of
  accesses that are left comes along (`PushWithin`, `PopWithin`), for the results on termination.
-/
import Rtipc.ChannelLinearization

namespace Rtipc

/-! ## What a program does with a channel -/

namespace ChannelState

variable {β α : Type}

/-- The message `ri_producer_msg` points to. -/
def producerMsg (s : ChannelState β) : Option β :=
  match s.prod with
  | .idle p => match p.cache with
    | some x => some x
    | none => p.queue.msg.map s.mem.msgs
  | .busy _ _ => none

/-- The message `ri_consumer_msg` points to. -/
def consumerMsg (s : ChannelState β) : Option β :=
  match s.cons with
  | .idle c => c.queue.msg.map s.mem.msgs
  | .busy _ _ => none

/-- The message `ri_producer_msg` points to is changed by `f`. -/
def modify (s : ChannelState β) (f : β → β) : Option (ChannelState β) :=
  s.producerMsg.bind fun x => (s.write (f x)).map Prod.fst

/-- The application calls a push. -/
def callPush (s : ChannelState β) (op : PushOp) : Option (ChannelState β) := (s.push op).map Prod.fst

/-- The application calls a pop. -/
def callPop (s : ChannelState β) : Option (ChannelState β) := s.pop.map Prod.fst

/-- The next step of the push: `stay` if it goes on, `ret` if it returns. -/
def pushStep (s : ChannelState β) (stay : ChannelState β → α)
    (ret : ChannelState β → PushResult → α) : Option α :=
  s.prodStep.bind fun x =>
    match x.2 with
    | .silent => some (stay x.1)
    | .pushed y => some (ret x.1 y)
    | .popped _ => none

/-- The next step of the pop. -/
def popStep (s : ChannelState β) (stay : ChannelState β → α)
    (ret : ChannelState β → PopResult → α) : Option α :=
  s.consStep.bind fun x =>
    match x.2 with
    | .silent => some (stay x.1)
    | .popped y => some (ret x.1 y)
    | .pushed _ => none

/-- What the producer does leaves the consumer alone. -/
theorem prodAt_cons (s : ChannelState β) (op : PushOp)
    (prog : ChannelProg β (Producer β × PushResult)) : (s.prodAt op prog).1.cons = s.cons := by
  cases prog <;> rfl

/-- What the consumer does leaves the producer alone. -/
theorem consAt_prod (s : ChannelState β) (prog : ChannelProg β (Consumer × PopResult)) :
    (s.consAt prog).1.prod = s.prod := by
  cases prog <;> rfl

/-- Where the consumer's code stands does not change the memory. -/
theorem consAt_mem (s : ChannelState β) (prog : ChannelProg β (Consumer × PopResult)) :
    (s.consAt prog).1.mem = s.mem := by
  cases prog <;> rfl

end ChannelState

/-! ## The view

  A channel between two calls of a program: the queue that it is, and who is where. -/

/-- Where the producer is: between two calls with this current message, or in a push. -/
inductive PushAt (β : Type) where
  | idle (current : β)
  | busy (op : PushOp) (x : β)

/-- What an application sees of a channel: the queue, whether the producer is between two calls and with
    which message, and whether a pop is running. -/
structure ChannelView (β : Type) where
  queue : BoundedQueue β
  prod : PushAt β
  popping : Bool

/-- The producer of the channel is where the view says. -/
def PushAt.Shows {β : Type} (s : ChannelState β) (pushing : Option (PushOp × β)) : PushAt β → Prop
  | idle x => pushing = none ∧ ∃ p, s.prod = .idle p ∧ p.message s.mem = x
  | busy op x => pushing = some (op, x) ∧ ∃ prog, s.prod = .busy op prog

/-- The channel of `n` slots with this view. -/
def Shows {β : Type} (n : Nat) (s : ChannelState β) (v : ChannelView β) : Prop :=
  ∃ a, ChannelRel n s a ∧ a.queue = v.queue ∧ a.popping = v.popping ∧ v.prod.Shows s a.pushing

section steps

variable {β : Type} {n : Nat} {s : ChannelState β} {a : AtomicQueue β}

/-- Between two calls the producer writes into a slot of its own. -/
theorem ChannelRel.prod_idle (h : ChannelRel n s a) {p : Producer β} (hp : s.prod = .idle p) :
    p.cache = none ∧ ∃ i, p.queue.msg = some i ∧ i = p.queue.current := by
  obtain ⟨q, r, tp, ph, cph, fd, fd', -, -, hat⟩ := h
  have hpush := hat.push
  rw [hp] at hpush
  generalize s.enqueued = b at hpush
  generalize a.pushing = x at hpush
  cases hpush with
  | @idle p =>
    have hlt : p.current.toNat < p.nMsgs :=
      hat.inv.queue.ring.path.nMsgs.symm ▸ hat.inv.queue.ring.1.current_lt
    exact ⟨rfl, _, queueGetMsg_of_lt hlt, rfl⟩

/-- A push that runs can make its next step. -/
theorem ChannelRel.prodStep_isSome (h : ChannelRel n s a) {op : PushOp}
    {prog : ChannelProg β (Producer β × PushResult)} (hp : s.prod = .busy op prog) :
    ∃ s' o, s.prodStep = some (s', o) := by
  obtain ⟨q, r, tp, ph, cph, fd, fd', -, -, hat⟩ := h
  have hpush := hat.push
  rw [hp] at hpush
  generalize s.enqueued = b at hpush
  generalize a.pushing = x at hpush
  rw [ChannelState.prodStep, hp]
  cases hpush with
  | signal => exact ⟨_, _, rfl⟩
  | busy hthread =>
    obtain ⟨act, f, rfl⟩ := ProducerPhase.thread_busy hthread
    exact ⟨_, _, rfl⟩

/-- A pop that runs can make its next step, and does not touch what the producer has. -/
theorem ChannelRel.consStep_isSome (h : ChannelRel n s a)
    {prog : ChannelProg β (Consumer × PopResult)} (hc : s.cons = .busy () prog) :
    ∃ s' o, s.consStep = some (s', o) ∧ s'.prod = s.prod ∧ s'.mem.msgs = s.mem.msgs := by
  obtain ⟨q, r, tp, ph, cph, fd, fd', -, -, hat⟩ := h
  have hpop := hat.pop
  rw [hc] at hpop
  rw [ChannelState.consStep, hc]
  cases hpop with
  | read =>
    refine ⟨_, _, rfl, ChannelState.consAt_prod _ _, ?_⟩
    refine (congrArg ChannelMem.msgs (ChannelState.consAt_mem _ _)).trans ?_
    show (ChannelOp.exec .eventfdRead s.mem).2.msgs = _
    rw [ChannelOp.exec]
    split <;> rfl
  | busy hthread =>
    obtain ⟨act, f, rfl⟩ := ConsumerPhase.thread_busy hthread
    refine ⟨_, _, rfl, ChannelState.consAt_prod _ _, ?_⟩
    exact (congrArg ChannelMem.msgs (ChannelState.consAt_mem _ _)).trans rfl

/-- A step of a push goes on with it, or returns from it. -/
theorem prodStep_outcome {s' : ChannelState β} {o : QueueOutcome} {op : PushOp}
    {prog : ChannelProg β (Producer β × PushResult)} (hp : s.prod = .busy op prog)
    (hs : s.prodStep = some (s', o)) :
    o = .silent ∧ (∃ prog', s'.prod = .busy op prog') ∨ ∃ y p, o = .pushed y ∧ s'.prod = .idle p := by
  have hat (s : ChannelState β) (prog : ChannelProg β (Producer β × PushResult)) :
      (s.prodAt op prog).2 = .silent ∧ (∃ prog', (s.prodAt op prog).1.prod = .busy op prog') ∨
        ∃ y p, (s.prodAt op prog).2 = .pushed y ∧ (s.prodAt op prog).1.prod = .idle p := by
    cases prog with
    | ret x => exact Or.inr ⟨_, _, rfl, rfl⟩
    | act o f => exact Or.inl ⟨rfl, _, rfl⟩
    | fault => exact Or.inl ⟨rfl, _, rfl⟩
  rw [ChannelState.prodStep, hp] at hs
  cases prog with
  | act act f =>
    obtain ⟨rfl, rfl⟩ := Prod.ext_iff.mp (Option.some.inj hs)
    exact hat _ _
  | ret x => cases hs
  | fault => cases hs

/-- A step of a pop goes on or returns. -/
theorem consStep_outcome {s' : ChannelState β} {o : QueueOutcome}
    (hs : s.consStep = some (s', o)) : o = .silent ∨ ∃ y, o = .popped y := by
  have hat (s : ChannelState β) (prog : ChannelProg β (Consumer × PopResult)) :
      (s.consAt prog).2 = .silent ∨ ∃ y, (s.consAt prog).2 = .popped y := by
    cases prog with
    | ret x => exact Or.inr ⟨_, rfl⟩
    | act o f => exact Or.inl rfl
    | fault => exact Or.inl rfl
  unfold ChannelState.consStep at hs
  split at hs
  · obtain ⟨-, rfl⟩ := Prod.ext_iff.mp (Option.some.inj hs)
    exact hat _ _
  · cases hs

/-- The view knows whether a pop is running. -/
theorem ChannelRel.popping_eq (h : ChannelRel n s a) : a.popping = inPop s.cons := by
  obtain ⟨q, r, tp, ph, cph, fd, fd', -, -, hat⟩ := h
  exact hat.underway

end steps

/-! ## The producer -/

section producer

variable {β : Type} {n : Nat} {s : ChannelState β} {v : ChannelView β} {x : β} {op : PushOp}

/-- A new channel shows an empty queue. -/
theorem Shows.of_init (hn : SizeOk n) (h : (channelSystem β n).init s) :
    ∃ x, Shows n s { queue := (boundedQueue β (n - 1)).init, prod := .idle x, popping := false } := by
  have hrel := ChannelRel.of_init hn h
  obtain ⟨q, fd, fd', hq, -, -, hs⟩ := h
  obtain ⟨p, hp⟩ := queue_created hn hq
  rw [ChannelState.onNew, hp.prod, hp.cons] at hs
  cases hs
  exact ⟨_, _, hrel, rfl, rfl, rfl, _, rfl, rfl⟩

/-- The message that the producer writes is the one that the view has. -/
theorem Shows.producerMsg (h : Shows n s v) (hv : v.prod = .idle x) : s.producerMsg = some x := by
  obtain ⟨a, hrel, -, -, hprod⟩ := h
  rw [hv] at hprod
  obtain ⟨-, p, hp, rfl⟩ := hprod
  obtain ⟨hcache, i, hmsg, rfl⟩ := hrel.prod_idle hp
  rw [ChannelState.producerMsg, hp, Producer.message]
  simp only [hcache, hmsg, Option.map_some, Option.getD_none]

/-- The current message can be changed. -/
theorem Shows.modify (hn : SizeOk n) (h : Shows n s v) (hv : v.prod = .idle x) (f : β → β) :
    ∃ s', s.modify f = some s' ∧ Shows n s' { v with prod := .idle (f x) } := by
  have hmsg := h.producerMsg hv
  obtain ⟨a, hrel, hqueue, hpop, hprod⟩ := h
  rw [hv] at hprod
  obtain ⟨hnone, p, hp, -⟩ := hprod
  obtain ⟨hcache, i, hslot, hi⟩ := hrel.prod_idle hp
  have hs : s.write (f x) = some
      ({ s with mem := { s.mem with msgs := Function.update s.mem.msgs i (f x) } }, .silent) := by
    simp only [ChannelState.write, hp, hcache, hslot, Option.map_some]
  refine ⟨{ s with mem := { s.mem with msgs := Function.update s.mem.msgs i (f x) } }, ?_, ?_⟩
  · rw [ChannelState.modify, hmsg, Option.bind_some, hs]
    rfl
  · obtain ⟨a', hmove, hrel'⟩ := hrel.step hn (e := .write (f x)) hs
    cases hmove
    refine ⟨a, hrel', hqueue, hpop, hnone, p, hp, ?_⟩
    rw [Producer.message, hcache, ← hi]
    exact Function.update_self _ _ _

/-- The current message can be pushed. -/
theorem Shows.push (hn : SizeOk n) (h : Shows n s v) (hv : v.prod = .idle x) (op : PushOp) :
    ∃ s', s.callPush op = some s' ∧ Shows n s' { v with prod := .busy op x } := by
  obtain ⟨a, hrel, hqueue, hpop, hprod⟩ := h
  rw [hv] at hprod
  obtain ⟨hnone, p, hp, hx⟩ := hprod
  have hs : s.push op = some ({ s with prod := .busy op (p.push op) }, .silent) := by
    rw [ChannelState.push, hp]
  refine ⟨{ s with prod := .busy op (p.push op) }, ?_, ?_⟩
  · rw [ChannelState.callPush, hs]
    rfl
  · obtain ⟨a', hmove, hrel'⟩ := hrel.step hn (e := .push op) hs
    have hobserve : s.observe (.push op) { s with prod := .busy op (p.push op) } .silent =
        [.invoke .producer (.push op x)] := by
      rw [ChannelState.observe, hp, ← hx]
    rw [hobserve] at hmove
    cases hmove with
    | callPush => exact ⟨_, hrel', hqueue, hpop, rfl, _, rfl⟩

/-- A push goes on, or it returns what the bounded queue answers. -/
theorem Shows.pushStep (hn : SizeOk n) (h : Shows n s v) (hv : v.prod = .busy op x) :
    ∃ s', (∀ {α : Type} (stay : _ → α) ret, s.pushStep stay ret = some (stay s')) ∧ Shows n s' v ∨
      ∃ y z queue, (∀ {α : Type} (stay : _ → α) ret, s.pushStep stay ret = some (ret s' y)) ∧
        v.queue.push (n - 1) op x = (queue, .pushed y) ∧
        Shows n s' { v with queue := queue, prod := .idle z } := by
  obtain ⟨a, hrel, hqueue, hpop, hprod⟩ := h
  rw [hv] at hprod
  obtain ⟨hsome, prog, hp⟩ := hprod
  obtain ⟨s', o, hs⟩ := hrel.prodStep_isSome hp
  refine ⟨s', ?_⟩
  obtain ⟨a', hmove, hrel'⟩ := hrel.step hn (e := .prodStep) hs
  rcases prodStep_outcome hp hs with ⟨rfl, hp'⟩ | ⟨y, p, rfl, hp'⟩
  · cases hmove
    refine Or.inl ⟨?_, a, hrel', hqueue, hpop, ?_⟩
    · intro α stay ret
      rw [ChannelState.pushStep, hs]
      rfl
    · rw [hv]
      exact ⟨hsome, hp'⟩
  · cases hmove with
    | @push op' x' queue _ hpush hq =>
      cases hpush.symm.trans hsome
      refine Or.inr ⟨y, p.message s'.mem, queue, ?_, hqueue ▸ hq, _, hrel', rfl, hpop, rfl, p, hp', rfl⟩
      intro α stay ret
      rw [ChannelState.pushStep, hs]
      rfl

end producer

/-! ## The consumer -/

section consumer

variable {β : Type} {n : Nat} {s : ChannelState β} {v : ChannelView β} {x : β}

/-- What the producer has is not touched by the consumer. -/
theorem PushAt.Shows.congr {s' : ChannelState β} {pushing : Option (PushOp × β)} {at' : PushAt β}
    (h : at'.Shows s pushing) (hprod : s'.prod = s.prod) (hmsgs : s'.mem.msgs = s.mem.msgs) :
    at'.Shows s' pushing := by
  cases at' with
  | idle x =>
    obtain ⟨hnone, p, hp, hx⟩ := h
    refine ⟨hnone, p, hprod.trans hp, ?_⟩
    rw [Producer.message, hmsgs]
    exact hx
  | busy op x =>
    obtain ⟨hsome, prog, hp⟩ := h
    exact ⟨hsome, prog, hprod.trans hp⟩

/-- No pop is running. -/
theorem Shows.cons_idle (h : Shows n s v) (hv : v.popping = false) : ∃ c, s.cons = .idle c := by
  obtain ⟨a, hrel, -, hpop, -⟩ := h
  have hcons := hrel.popping_eq.symm.trans (hpop.trans hv)
  cases hc : s.cons with
  | idle c => exact ⟨c, rfl⟩
  | busy u prog =>
    rw [hc] at hcons
    cases hcons

/-- A pop is running. -/
theorem Shows.cons_busy (h : Shows n s v) (hv : v.popping = true) :
    ∃ prog, s.cons = .busy () prog := by
  obtain ⟨a, hrel, -, hpop, -⟩ := h
  have hcons := hrel.popping_eq.symm.trans (hpop.trans hv)
  cases hc : s.cons with
  | busy u prog => exact ⟨prog, rfl⟩
  | idle c =>
    rw [hc] at hcons
    cases hcons

/-- A pop can be called whenever none is running. -/
theorem Shows.pop (hn : SizeOk n) (h : Shows n s v) (hv : v.popping = false) :
    ∃ s', s.callPop = some s' ∧ Shows n s' { v with popping := true } := by
  obtain ⟨c, hc⟩ := h.cons_idle hv
  obtain ⟨a, hrel, hqueue, hpop, hprod⟩ := h
  have hs : s.pop = some ({ s with cons := .busy () c.pop }, .silent) := by
    rw [ChannelState.pop, hc]
  refine ⟨{ s with cons := .busy () c.pop }, ?_, ?_⟩
  · rw [ChannelState.callPop, hs]
    rfl
  · obtain ⟨a', hmove, hrel'⟩ := hrel.step hn (e := .pop) hs
    cases hmove with
    | callPop => exact ⟨_, hrel', hqueue, rfl, hprod.congr rfl rfl⟩

/-- A pop goes on, or it returns what the bounded queue answers. -/
theorem Shows.popStep (hn : SizeOk n) (h : Shows n s v) (hv : v.popping = true) :
    ∃ s', (∀ {α : Type} (stay : _ → α) ret, s.popStep stay ret = some (stay s')) ∧ Shows n s' v ∨
      ∃ y z queue, (∀ {α : Type} (stay : _ → α) ret, s.popStep stay ret = some (ret s' y)) ∧
        v.queue.pop = (queue, .popped y z) ∧
        Shows n s' { v with queue := queue, popping := false } := by
  obtain ⟨prog, hc⟩ := h.cons_busy hv
  obtain ⟨a, hrel, hqueue, hpop, hprod⟩ := h
  obtain ⟨s', o, hs, hprod', hmsgs⟩ := hrel.consStep_isSome hc
  refine ⟨s', ?_⟩
  obtain ⟨a', hmove, hrel'⟩ := hrel.step hn (e := .consStep) hs
  rcases consStep_outcome hs with rfl | ⟨y, rfl⟩
  · cases hmove
    refine Or.inl ⟨?_, a, hrel', hqueue, hpop, hprod.congr hprod' hmsgs⟩
    intro α stay ret
    rw [ChannelState.popStep, hs]
    rfl
  · cases hmove with
    | @pop queue _ z hpopping hq =>
      refine Or.inr ⟨y, _, queue, ?_, hqueue ▸ hq, _, hrel', rfl, rfl, hprod.congr hprod' hmsgs⟩
      intro α stay ret
      rw [ChannelState.popStep, hs]
      rfl

/-- Between two pops `ri_consumer_msg` points to the message the consumer holds. -/
theorem Shows.consumerMsg (h : Shows n s v) (hv : v.popping = false) :
    s.consumerMsg = v.queue.held := by
  obtain ⟨c, hc⟩ := h.cons_idle hv
  obtain ⟨a, ⟨q, r, tp, ph, cph, fd, fd', -, -, hat⟩, hqueue, -⟩ := h
  have hrel := hat.pop
  rw [ChannelState.consumerMsg, ← hqueue, hat.queue, hc]
  rw [hc] at hrel
  cases hrel with
  | @idle c =>
    have hhold : (absQueue r tp (toldTo r ph s.enqueued) (.idle c) q).held =
        if c.current = indexInvalid then none else some (q.msgs c.current) := rfl
    rw [hhold, hat.msgs]
    show c.msg.map s.mem.msgs = _
    by_cases hcur : c.current = indexInvalid
    · rw [if_pos hcur, show c.msg = none from if_pos hcur]
      rfl
    · have hlt : c.current.toNat < c.nMsgs :=
        hat.inv.queue.cons.nMsgs.symm ▸ hat.inv.queue.cons.current hcur
      rw [if_neg hcur, ConsumerQueue.msg, if_neg hcur, queueGetMsg_of_lt hlt]
      rfl

/-- Between two pops the counter of the eventfd is the number of unread messages. -/
theorem Shows.counter (hn : SizeOk n) (h : Shows n s v) (hv : v.popping = false) :
    v.queue.unread.length = s.mem.eventfd := by
  obtain ⟨c, hc⟩ := h.cons_idle hv
  obtain ⟨a, ⟨q, r, tp, ph, cph, fd, fd', -, -, hat⟩, hqueue, -⟩ := h
  have hcount := hat.count
  rw [← hqueue, hat.queue]
  refine hat.inv.told_count hn (hcount.trans ?_)
  rw [hc]
  rfl

end consumer

end Rtipc
