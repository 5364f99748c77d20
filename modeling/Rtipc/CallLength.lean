/-
  How many accesses a push and a pop make, whatever the memory answers.

  The code of a push and of a pop has no loop, so the bounds hold for any contents of the shared memory
  and any behaviour of the other side.  `PushWithin` and `PopWithin` say how much of a running call is
  left at most.

  The lemmas go up the call graph: `enqueue_msg`, `move_tail` and their like first, then the pushes and
  the pop of the queue, then those of the channel, which add the accesses to the eventfd.  Each is
  proved by running through the code (`Prog.Within`), and a caller adds the bounds of what it calls.

  A push makes at most nine accesses, a pop at most five.  The numbers are used by the bound on the
  steps of the server; that they are reached does not matter for it.
-/
import Rtipc.ChannelUse

namespace Rtipc

/-! ## The queue

  The bounds are over all answers, so they hold whatever the other side does. -/

namespace ProducerQueue

variable {p : ProducerQueue}

/-- A lookup in the producer's own copy of the chain is no access. -/
theorem chainAt_within (idx : Index) : (p.chainAt idx).Within 0 := by
  unfold chainAt
  split <;> trivial

/-- `chain_store` writes the private copy and one shared word. -/
theorem chainStore_within (idx val : Index) : (p.chainStore idx val).Within 1 := by
  unfold chainStore
  split
  · exact Prog.within_perform fun _ => trivial
  · trivial

/-- The end of the chain, the tail and the head are stored. -/
theorem enqueueFirstMsg_within : p.enqueueFirstMsg.Within 3 := by
  refine (chainStore_within _ _).bind (k := 2) fun p => ?_
  exact Prog.within_perform fun _ => Prog.within_perform fun _ => trivial

/-- The end of the chain, the link to the new message and the head are stored. -/
theorem enqueueMsg_within : p.enqueueMsg.Within 3 := by
  refine (chainStore_within _ _).bind (k := 2) fun p => ?_
  refine (chainStore_within _ _).bind (k := 1) fun p => ?_
  exact Prog.within_perform fun _ => trivial

/-- `move_tail` is one compare-exchange of the tail. -/
theorem moveTail_within (tail : Index) : (p.moveTail tail).Within 1 := by
  refine (chainAt_within _).bind (k := 1) fun next => ?_
  exact Prog.within_perform fun _ => trivial

/-- `overrun` tries once to move the tail behind the consumer's message; whichever slot it takes then,
    it makes no further access. -/
theorem overrunTail_within (tail : Index) : (p.overrunTail tail).Within 1 := by
  refine (chainAt_within _).bind (k := 1) fun current => ?_
  refine (chainAt_within _).bind (k := 1) fun newTail => ?_
  refine Prog.within_perform fun moved => ?_
  split <;> trivial

/-- The slot that was kept back is linked in front of the next one. -/
theorem requeueOverrun_within (next : Index) : (p.requeueOverrun next).Within 1 :=
  (chainStore_within _ _).bind_ret

/-- `ri_producer_queue_full` loads the tail, if anything. -/
theorem full_within : p.full.Within 1 := by
  unfold full
  split
  · trivial
  refine Prog.within_perform fun tail => ?_
  split
  · trivial
  split
  · trivial
  · exact (chainAt_within _).bind_ret

/-- `enqueue_msg` and a load of the tail, then one try to move the tail and what follows if it fails. -/
theorem forcePush_within : p.forcePush.Within 6 := by
  refine (chainAt_within _).bind (k := 6) fun next => ?_
  split
  · -- case: the first message of all
    exact enqueueFirstMsg_within.bind_ret.mono (by decide)
  refine enqueueMsg_within.bind (k := 3) fun p => ?_
  refine Prog.within_perform fun tail => ?_
  split
  · trivial
  split
  · split
    · -- the consumer has given back the slot that was kept from it
      exact (requeueOverrun_within _).bind_ret.mono (by decide)
    · -- the slot is still kept back, so the tail is moved again
      refine (moveTail_within _).bind (k := 1) fun moved => ?_
      split
      · trivial
      · exact (requeueOverrun_within _).bind_ret
  split
  · trivial
  split
  · refine (moveTail_within _).bind (k := 1) fun moved => ?_
    split
    · trivial
    · exact (overrunTail_within _).bind_ret
  · -- the tail is consumed: jump over the message the consumer holds
    exact (overrunTail_within _).bind_ret.mono (by decide)

/-- `try_push` loads the tail first, and either fails there or makes the stores of a push. -/
theorem tryPush_within : p.tryPush.Within 6 := by
  refine (chainAt_within _).bind (k := 6) fun next => ?_
  split
  · -- case: the first message of all
    exact enqueueFirstMsg_within.bind_ret.mono (by decide)
  refine Prog.within_perform fun tail => ?_
  split
  · trivial
  split
  · split
    · -- case: a slot was kept back, and the consumer has given it back
      refine enqueueMsg_within.bind (k := 2) fun p => ?_
      exact (requeueOverrun_within _).bind_ret.mono (by decide)
    · trivial
  split
  · -- case: no slot is kept back, and the queue is not full
    exact enqueueMsg_within.bind_ret.mono (by decide)
  · trivial

end ProducerQueue

/-- A pop flags the tail, looks up what follows and moves the tail; if the producer has been faster it
    flags the tail once more. There is no loop. -/
theorem ConsumerQueue.pop_within {c : ConsumerQueue} : c.pop.Within 4 := by
  refine Prog.within_perform fun tail => ?_
  split
  · trivial
  split
  · trivial
  split
  · trivial
  split
  · trivial
  refine Prog.within_perform fun next => ?_
  split
  · trivial
  split
  · trivial
  refine Prog.within_perform fun swapped => ?_
  split
  · trivial
  refine Prog.within_perform fun current => ?_
  split <;> trivial

/-! ## The channel -/

section channel

variable {β : Type}

/-- The code of the queue makes as many accesses on the channel. -/
theorem onQueue_within {α : Type} {prog : QueueProg α} {k : Nat} (h : prog.Within k) :
    (onQueue prog : ChannelProg β α).Within k := Prog.Within.lift _ h

/-- Behind a push the eventfd is written at most once. -/
theorem Producer.signal_within (p : Producer β) (op : PushOp) (y : PushResult) :
    (p.signal op y).Within 1 := by
  unfold Producer.signal
  split
  · exact Prog.within_perform fun _ => trivial
  · trivial

/-- The cached message is copied into the slot of the current message. -/
theorem Producer.cacheWrite_within {p : Producer β} {x : β} : (p.cacheWrite x).Within 1 := by
  unfold Producer.cacheWrite
  split
  · exact Prog.within_perform fun _ => trivial
  · trivial

/-- With a cache, `try_push` looks at the tail first, and the message is copied. -/
theorem Producer.push_within {p : Producer β} {op : PushOp} : (p.push op).Within 9 := by
  have hqueue : ∀ q : ProducerQueue, (op.prog q).Within 6 := by
    intro q
    cases op with
    | forcePush => exact ProducerQueue.forcePush_within.bind_ret
    | tryPush => exact ProducerQueue.tryPush_within.bind_ret
  cases op with
  | forcePush =>
    have hpush := (onQueue_within (β := β) (hqueue p.queue)).bind (k := 1) fun x =>
      Producer.signal_within { p with queue := x.1 } .forcePush x.2
    show p.forcePush.Within 9
    unfold Producer.forcePush
    split
    · exact (Producer.cacheWrite_within.bind fun _ => hpush).mono (by decide)
    · exact hpush.mono (by decide)
  | tryPush =>
    have hpush := (onQueue_within (β := β) (hqueue p.queue)).bind (k := 1) fun x =>
      Producer.signal_within { p with queue := x.1 } .tryPush x.2
    show p.tryPush.Within 9
    unfold Producer.tryPush
    split
    · refine (onQueue_within ProducerQueue.full_within).bind (k := 8) fun full => ?_
      split
      · trivial
      · exact Producer.cacheWrite_within.bind fun _ => hpush
    · exact hpush.mono (by decide)

/-- A pop of a channel reads the eventfd before it pops the queue. -/
theorem Consumer.pop_within {c : Consumer} : (c.pop : ChannelProg β _).Within 5 := by
  have hpop : ((onQueue c.queue.pop : ChannelProg β _) >>= fun x =>
      (pure ({ c with queue := x.1 }, x.2) : ChannelProg β (Consumer × PopResult))).Within 4 :=
    (onQueue_within ConsumerQueue.pop_within).bind_ret
  unfold Consumer.pop
  split
  · refine Prog.within_perform fun ok => ?_
    split
    · exact hpop
    · trivial
  · exact hpop.mono (by decide)

end channel

/-! ## What is left of a running call -/

namespace ChannelState

variable {β α : Type} {s s' : ChannelState β} {x : α}

/-- The push, if one runs, returns after at most `k` accesses. -/
def PushWithin (s : ChannelState β) (k : Nat) : Prop :=
  ∀ op prog, s.prod = .busy op prog → prog.Within k

/-- The same for a running pop. -/
def PopWithin (s : ChannelState β) (k : Nat) : Prop :=
  ∀ u prog, s.cons = .busy u prog → prog.Within k

/-- What a push has left depends on the producer's thread only. -/
theorem PushWithin.congr {k : Nat} (h : s.PushWithin k) (hprod : s'.prod = s.prod) :
    s'.PushWithin k := by
  intro op prog hp
  exact h op prog (hprod ▸ hp)

/-- And what a pop has left on the consumer's. -/
theorem PopWithin.congr {k : Nat} (h : s.PopWithin k) (hcons : s'.cons = s.cons) :
    s'.PopWithin k := by
  intro u prog hc
  exact h u prog (hcons ▸ hc)

/-- The application that writes a message does not touch the consumer. -/
theorem modify_cons {f : β → β} (h : s.modify f = some s') : s'.cons = s.cons := by
  obtain ⟨x, -, hx⟩ := Option.bind_eq_some_iff.mp h
  obtain ⟨⟨s₁, o⟩, hs, rfl⟩ := Option.map_eq_some_iff.mp hx
  unfold ChannelState.write at hs
  split at hs
  · split at hs
    · cases hs
      rfl
    · obtain ⟨i, -, hi⟩ := Option.map_eq_some_iff.mp hs
      cases hi
      rfl
  · cases hs

/-- A new push has all of its accesses in front of it, and leaves the consumer alone. -/
theorem callPush_cases {op : PushOp} (h : s.callPush op = some s') :
    s'.cons = s.cons ∧ s'.PushWithin 9 := by
  obtain ⟨⟨s₁, o⟩, hs, rfl⟩ := Option.map_eq_some_iff.mp h
  unfold ChannelState.push at hs
  split at hs
  · cases hs
    constructor
    · rfl
    · rintro op' prog ⟨rfl⟩
      exact Producer.push_within
  · cases hs

/-- A new pop has all of its accesses in front of it, and leaves the producer alone. -/
theorem callPop_cases (h : s.callPop = some s') : s'.prod = s.prod ∧ s'.PopWithin 5 := by
  obtain ⟨⟨s₁, o⟩, hs, rfl⟩ := Option.map_eq_some_iff.mp h
  unfold ChannelState.pop at hs
  split at hs
  · cases hs
    constructor
    · rfl
    · rintro u prog ⟨rfl⟩
      exact Consumer.pop_within
  · cases hs

/-- Where the code of the push stands after an access, by what is left of it. -/
theorem PushWithin.prodAt {op : PushOp} {prog : ChannelProg β (Producer β × PushResult)} {k : Nat}
    (h : prog.Within k) : (s.prodAt op prog).1.PushWithin k := by
  cases prog with
  -- the push has returned, so none is running
  | ret y => exact fun _ _ => nofun
  | act o f =>
    rintro op' prog ⟨rfl⟩
    exact h
  | fault =>
    rintro op' prog ⟨rfl⟩
    exact h

/-- The same for the code of a pop. -/
theorem PopWithin.consAt {prog : ChannelProg β (Consumer × PopResult)} {k : Nat}
    (h : prog.Within k) : (s.consAt prog).1.PopWithin k := by
  cases prog with
  | ret y => exact fun _ _ => nofun
  | act o f =>
    rintro u prog ⟨rfl⟩
    exact h
  | fault =>
    rintro u prog ⟨rfl⟩
    exact h

/-- A step of a push brings it closer to its end. -/
theorem pushStep_cases {stay : ChannelState β → α} {ret : ChannelState β → PushResult → α}
    (h : s.pushStep stay ret = some x) :
    ∃ s', s'.cons = s.cons ∧ (∀ k, s.PushWithin k → 0 < k ∧ s'.PushWithin (k - 1)) ∧
      (x = stay s' ∨ ∃ y, x = ret s' y) := by
  obtain ⟨⟨s₁, o⟩, hs, hx⟩ := Option.bind_eq_some_iff.mp h
  have hout : x = stay s₁ ∨ ∃ y, x = ret s₁ y := by
    cases o with
    | silent => exact Or.inl (Option.some.inj hx).symm
    | pushed y => exact Or.inr ⟨y, (Option.some.inj hx).symm⟩
    | popped y => cases hx
  -- the access itself: the rest of the code for this answer has one access less
  unfold ChannelState.prodStep at hs
  split at hs
  · rename_i op act f hp
    obtain ⟨rfl, -⟩ := Prod.ext_iff.mp (Option.some.inj hs)
    refine ⟨_, ?_, ?_, hout⟩
    · exact prodAt_cons _ _ _
    · intro k hk
      obtain ⟨hpos, hf⟩ := hk op _ hp
      exact ⟨hpos, PushWithin.prodAt (hf _)⟩
  · cases hs

/-- A step of a pop brings it closer to its end. -/
theorem popStep_cases {stay : ChannelState β → α} {ret : ChannelState β → PopResult → α}
    (h : s.popStep stay ret = some x) :
    ∃ s', s'.prod = s.prod ∧ (∀ k, s.PopWithin k → 0 < k ∧ s'.PopWithin (k - 1)) ∧
      (x = stay s' ∨ ∃ y, x = ret s' y) := by
  obtain ⟨⟨s₁, o⟩, hs, hx⟩ := Option.bind_eq_some_iff.mp h
  have hout : x = stay s₁ ∨ ∃ y, x = ret s₁ y := by
    cases o with
    | silent => exact Or.inl (Option.some.inj hx).symm
    | popped y => exact Or.inr ⟨y, (Option.some.inj hx).symm⟩
    | pushed y => cases hx
  -- the access itself: the rest of the code for this answer has one access less
  unfold ChannelState.consStep at hs
  split at hs
  · rename_i u act f hc
    obtain ⟨rfl, -⟩ := Prod.ext_iff.mp (Option.some.inj hs)
    refine ⟨_, ?_, ?_, hout⟩
    · exact consAt_prod _ _
    · intro k hk
      obtain ⟨hpos, hf⟩ := hk u _ hc
      exact ⟨hpos, PopWithin.consAt (hf _)⟩
  · cases hs

/-- A step of a pop performs the next operation of its code. -/
theorem popStep_busy {stay : ChannelState β → α} {ret : ChannelState β → PopResult → α}
    {prog : ChannelProg β (Consumer × PopResult)} (hc : s.cons = .busy () prog)
    (h : s.popStep stay ret = some x) :
    ∃ a f r, prog = .act a f ∧
      ((∃ s', x = stay s' ∧ s'.cons = .busy () (f r)) ∨ ∃ s' y, x = ret s' y) := by
  rw [popStep, consStep, hc] at h
  cases prog with
  | ret y => cases h
  | fault => cases h
  | act a f =>
    refine ⟨a, f, (a.exec s.mem).1, rfl, ?_⟩
    dsimp only [Option.bind_some] at h
    generalize f (a.exec s.mem).1 = p at h ⊢
    cases p with
    | ret y => exact Or.inr ⟨_, _, (Option.some.inj h).symm⟩
    | act a' f' => exact Or.inl ⟨_, (Option.some.inj h).symm, rfl⟩
    | fault => exact Or.inl ⟨_, (Option.some.inj h).symm, rfl⟩

end ChannelState

end Rtipc
