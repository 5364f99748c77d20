/-
  Does `ri_producer_queue_full` predict the next `try_push`?

  Before the first push, and while a slot is kept back after an overrun, it does, whatever the consumer
  does in the meantime (`Predicts`).  In the branch without an overrun the function computes whether the
  queue is full and returns the negation, so there its answer is always the wrong one
  (`full_predicts_iff`).

  `Predicts` compares the answer of the function with the `try_push` that follows, in two ways: if the
  answer is "full", a `try_push` alone fails; if it is "not full", then one succeeds, also if the
  consumer has gone on in between.  Both directions are decided by running the push from the state
  (`tryAlone_first`, `tryAlone_requeue`, `tryAlone_blocked`, `tryAlone_next`, `tryAlone_full`).

  What the consumer may have done in between does not turn a success into a failure: it only ever sets
  the consumed flag or moves on (`consumerOnly_leads`).
-/
import Rtipc.NoError
import Rtipc.Settled

namespace Rtipc

/-- A step of the consumer. -/
def ConsumerOnly {β : Type} (_ : QueueState β) : QueueEvent β → Prop
  | .pop _ | .consStep => True
  | _ => False

/-- Any step but a write or the call of another push. -/
def NoOtherPush {β : Type} (_ : QueueState β) : QueueEvent β → Prop
  | .prodStep | .pop _ | .consStep => True
  | _ => False

section defs

variable {β : Type}

/-- The next push is a `try_push` and returns `res`: the consumer performs steps before it is called and
    while it runs. -/
def TryReturns (n : Nat) (s : QueueState β) (res : PushResult) : Prop :=
  ∃ t t' u u', (queueSystem β n).Leads ConsumerOnly s t ∧
    (queueSystem β n).step t (.push .tryPush) = some (t', .silent) ∧
    (queueSystem β n).Leads NoOtherPush t' u ∧
    (queueSystem β n).step u .prodStep = some (u', .pushed res)

/-- A `try_push` of the producer `p` that runs alone in the state `s` returns `res`. -/
def TryAlone (s : QueueState β) (p : ProducerQueue) (res : TryPushResult) : Prop :=
  ∃ p' m', p.tryPush.run QueueOp.exec s.mem = some ((p', res), m')

/-- What `ri_producer_queue_full` answers now tells the result of the next `try_push`: fail if it is the
    next thing that happens, or success whatever the consumer does. -/
def Predicts (n : Nat) (s : QueueState β) (p : ProducerQueue) : Prop :=
  ∃ full, p.full.run QueueOp.exec s.mem = some (full, s.mem) ∧
    (full = true → TryAlone s p .fail) ∧
    (full = false → (∀ t, (queueSystem β n).Leads ConsumerOnly s t → TryAlone t p .success) ∧
      ∀ res, TryReturns n s res → res = .tryPush .success)

/-- Every step of the push from this point on leads to success. -/
def ProducerPhase.Succeeds (m : QueueMem) : ProducerPhase → Prop
  | .idle _ => True
  | .first1 op _ _ | .first2 op _ _ | .first3 op _ _ | .requeue op _ _ => op = .tryPush
  | .tryLoad p _ => p.overrun ≠ indexInvalid ∧ m.tail.consumed = true
  | .enq1 k _ _ | .enq2 k _ _ | .enq3 k _ _ => k ≠ .force
  | _ => False

end defs

section steps

variable {n : Nat} {r : Ring} {p : ProducerQueue} {ph ph' : ProducerPhase} {cph cph' : ConsumerPhase}
  {m m' : QueueMem} {o : QueueOutcome}

/-- The consumer never takes the consumed flag back. -/
theorem ConsumerStep.consumed (hs : ConsumerStep cph m cph' m' o) (hc : m.tail.consumed = true) :
    m'.tail.consumed = true := by
  cases hs <;> simp [hc]

/-- A `try_push` that is bound to succeed still is after a step of its own, or has succeeded. One case
    for each step; those of a `force_push` do not occur. -/
theorem ProducerStep.succeeds (hn : SizeOk n) (hinv : QueueInv n r ph cph m) (h : ph.Succeeds m)
    (hs : ProducerStep ph m ph' m' o) :
    ph'.Succeeds m' ∧ ∀ res, o = .pushed res → res = .tryPush .success := by
  cases hs with
  | first1 => exact ⟨h, nofun⟩
  | first2 => exact ⟨h, nofun⟩
  | first3 =>
    obtain rfl := h
    refine ⟨trivial, fun res hres => ?_⟩
    cases hres
    rfl
  | tryError hv => exact absurd (hinv.ring.tryLoad_valid hn hinv.shared) hv
  -- the consumer has released the slot that was kept back
  | tryRequeue => exact ⟨nofun, nofun⟩
  | tryBlocked _ _ hc => exact absurd (hc.symm.trans h.2) nofun
  | tryNext _ ho => exact absurd ho h.1
  | tryFull _ ho => exact absurd ho h.1
  | enq1 => exact ⟨h, nofun⟩
  | enq2 => exact ⟨h, nofun⟩
  | enq3Force => exact absurd rfl h
  | enq3Requeue => exact ⟨rfl, nofun⟩
  | enq3Next =>
    refine ⟨trivial, fun res hres => ?_⟩
    cases hres
    rfl
  -- the push returns with that slot as the current one
  | requeue =>
    obtain rfl := h
    refine ⟨trivial, fun res hres => ?_⟩
    cases hres
    rfl
  | _ => exact absurd h id

/-- Nor does any step of the consumer, which only gives slots back. -/
theorem ConsumerStep.succeeds (hs : ConsumerStep cph m cph' m' o) (h : ph.Succeeds m) :
    ph.Succeeds m' := by
  cases ph with
  | tryLoad p next => exact ⟨h.1, hs.consumed h.2⟩
  | _ => exact h

/-- `ri_producer_queue_full` is one read of the tail, or none. -/
theorem full_first (hh : p.head = indexInvalid) : p.full.run QueueOp.exec m = some (false, m) := by
  rw [ProducerQueue.full, if_pos hh]
  rfl

/-- While a slot is kept back the queue is full unless the consumer has given it back. -/
theorem full_overrun (hh : p.head ≠ indexInvalid) (hv : m.tail.slot.toNat < p.nMsgs)
    (ho : p.overrun ≠ indexInvalid) :
    p.full.run QueueOp.exec m = some (!m.tail.consumed, m) := by
  simp only [ProducerQueue.full, hh, if_false, Prog.perform_bind, Prog.run_act, QueueOp.exec, hv,
    not_true, ho, ne_eq, not_false_eq_true, if_true, Prog.pure_eq, Prog.run_ret]

/-- Otherwise the tail is compared with the slot that follows the current one, the wrong way round. -/
theorem full_next (hh : p.head ≠ indexInvalid) (hv : m.tail.slot.toNat < p.nMsgs)
    (ho : p.overrun = indexInvalid) (hcur : p.current.toNat < p.nMsgs) :
    p.full.run QueueOp.exec m = some (!decide (p.chain p.current = m.tail.slot), m) := by
  simp only [ProducerQueue.full, hh, if_false, Prog.perform_bind, Prog.run_act, QueueOp.exec, hv,
    not_true, ho, ne_eq, ProducerQueue.chainAt, hcur, if_true, Prog.pure_eq, Prog.ret_bind,
    Prog.run_ret]
  rfl

/-! ## A `try_push` that runs alone -/

/-- The result of a `try_push` is one of `ri_try_push_result_t`. -/
theorem tryPush_run {res : PushResult} {p' : ProducerQueue}
    (h : (PushOp.tryPush.prog p).run QueueOp.exec m = some ((p', res), m')) :
    ∃ q, res = .tryPush q ∧ p.tryPush.run QueueOp.exec m = some ((p', q), m') := by
  rw [PushOp.prog, Prog.run_bind] at h
  obtain ⟨⟨⟨p₁, q⟩, m₁⟩, hrun, h⟩ := Option.bind_eq_some_iff.mp h
  cases h
  exact ⟨q, rfl, hrun⟩

variable {β : Type} {s : QueueState β}

/-- What the code of a `try_push` computes is what it returns when it runs alone. -/
theorem TryAlone.of_run {y : TryPushResult} {p' : ProducerQueue}
    (h : (PushOp.tryPush.prog p).run QueueOp.exec s.mem = some ((p', .tryPush y), m')) :
    TryAlone s p y := by
  obtain ⟨q, hq, hrun⟩ := tryPush_run h
  cases hq
  exact ⟨p', m', hrun⟩

/-- The first message of all finds room. -/
theorem tryAlone_first (hn : SizeOk n) (h : RingInv n r (.idle p))
    (hm : SharedInv n r (.idle p) s.mem) (hh : p.head = indexInvalid) : TryAlone s p .success := by
  have hp := Pushing.call hn h hm .tryPush
  rw [ProducerPhase.call_first hh] at hp
  exact .of_run (((hp.step hn .first1).step hn .first2).returns hn .first3).1

variable (hn : SizeOk n) (h : RingInv n r (.idle p)) (hm : SharedInv n r (.idle p) s.mem)
  (hh : p.head ≠ indexInvalid)

include hn h hm hh

/-- A slot that the consumer has given back is room. -/
theorem tryAlone_requeue (ho : p.overrun ≠ indexInvalid) (hc : s.mem.tail.consumed = true) :
    TryAlone s p .success := by
  have hp := Pushing.call hn h hm .tryPush
  rw [ProducerPhase.call_tryPush hh] at hp
  obtain ⟨q, m', hp, -⟩ :=
    (hp.step hn (.tryRequeue (h.1.nMsgs.symm ▸ (hm.tail hh).lt) ho hc)).enqueue hn
  exact .of_run ((hp.step hn .enq3Requeue).returns hn .requeue).1

/-- While the slot is kept back there is none. -/
theorem tryAlone_blocked (ho : p.overrun ≠ indexInvalid) (hc : s.mem.tail.consumed = false) :
    TryAlone s p .fail := by
  have hp := Pushing.call hn h hm .tryPush
  rw [ProducerPhase.call_tryPush hh] at hp
  exact .of_run (hp.returns hn (.tryBlocked (h.1.nMsgs.symm ▸ (hm.tail hh).lt) ho hc)).1

/-- If the next slot is not the tail's, there is room. -/
theorem tryAlone_next (ho : p.overrun = indexInvalid) (hne : p.chain p.current ≠ s.mem.tail.slot) :
    TryAlone s p .success := by
  have hp := Pushing.call hn h hm .tryPush
  rw [ProducerPhase.call_tryPush hh] at hp
  obtain ⟨q, m', hp, -⟩ :=
    (hp.step hn (.tryNext (h.1.nMsgs.symm ▸ (hm.tail hh).lt) ho hne)).enqueue hn
  exact .of_run (hp.returns hn .enq3Next).1

/-- If it is, there is none. -/
theorem tryAlone_full (ho : p.overrun = indexInvalid) (heq : p.chain p.current = s.mem.tail.slot) :
    TryAlone s p .fail := by
  have hp := Pushing.call hn h hm .tryPush
  rw [ProducerPhase.call_tryPush hh] at hp
  exact .of_run (hp.returns hn (.tryFull (h.1.nMsgs.symm ▸ (hm.tail hh).lt) ho heq)).1

omit hn h hm hh

/-- A `try_push` that runs alone has one result. -/
theorem TryAlone.unique {y z : TryPushResult} (hy : TryAlone s p y) (hz : TryAlone s p z) : y = z := by
  obtain ⟨p', m', hy⟩ := hy
  obtain ⟨q', k', hz⟩ := hz
  rw [hy] at hz
  cases hz
  rfl

end steps

/-! ## The consumer goes on

  Steps of the consumer leave the private state of the producer as it is, and a tail that is consumed
  stays consumed. -/

section leads

variable {β : Type} {n : Nat} {r : Ring} {p : ProducerQueue} {cph : ConsumerPhase}
  {s t u u' : QueueState β} {res : PushResult}

/-- Steps of the consumer leave the producer's side as it is, and a consumed tail consumed. -/
theorem consumerOnly_leads (hn : SizeOk n) (hp : s.prod = .idle p) (hc : s.cons = cph.thread)
    (hinv : QueueInv n r (.idle p) cph s.mem) (hl : (queueSystem β n).Leads ConsumerOnly s t) :
    ∃ cph', t.prod = .idle p ∧ t.cons = cph'.thread ∧ QueueInv n r (.idle p) cph' t.mem ∧
      (s.mem.tail.consumed = true → t.mem.tail.consumed = true) := by
  refine hl.invariant (I := fun t => ∃ cph', t.prod = .idle p ∧ t.cons = cph'.thread ∧
    QueueInv n r (.idle p) cph' t.mem ∧ (s.mem.tail.consumed = true → t.mem.tail.consumed = true)) ?_
    ⟨cph, hp, hc, hinv, id⟩
  rintro t e t' o ⟨cph', hp', hc', hinv', hcons⟩ hok hs
  obtain ⟨r', ph', cph'', hstep, hph, hcph⟩ := queueStep_cases hn hp' hc' hinv'.ring hs
  have hnew := hstep.queueInv hn hinv'
  cases hstep with
  | pop => exact ⟨_, hp', rfl, hnew, hcons⟩
  | consStep hcs => exact ⟨_, hp', rfl, hnew, fun h => hcs.consumed (hcons h)⟩
  | _ => exact absurd hok id

/-- A push that can only succeed returns success, whatever the consumer does meanwhile. -/
theorem noOtherPush_leads (hn : SizeOk n) {ph : ProducerPhase} (hp : t.prod = ph.thread)
    (hc : t.cons = cph.thread) (hinv : QueueInv n r ph cph t.mem) (hsucc : ph.Succeeds t.mem)
    (hl : (queueSystem β n).Leads NoOtherPush t u)
    (hs : u.step .prodStep = some (u', .pushed res)) : res = .tryPush .success := by
  obtain ⟨r', ph', cph', hp', hc', hinv', hsucc'⟩ := hl.invariant (I := fun t => ∃ r ph cph,
    t.prod = ph.thread ∧ t.cons = cph.thread ∧ QueueInv n r ph cph t.mem ∧ ph.Succeeds t.mem)
    (by
      rintro t e t' o ⟨r, ph, cph, hp, hc, hinv, hsucc⟩ hok hs
      obtain ⟨r', ph', cph', hstep, hph, hcph⟩ := queueStep_cases hn hp hc hinv.ring hs
      have hnew := hstep.queueInv hn hinv
      cases hstep with
      | prodStep hps => exact ⟨_, _, _, rfl, hc, hnew, (hps.succeeds hn hinv hsucc).1⟩
      | pop => exact ⟨_, _, _, hp, rfl, hnew, hsucc⟩
      | consStep hcs => exact ⟨_, _, _, hp, rfl, hnew, hcs.succeeds hsucc⟩
      | _ => exact absurd hok id)
    ⟨r, ph, cph, hp, hc, hinv, hsucc⟩
  obtain ⟨ph'', m', hps, -⟩ := prodStep_cases hp' hs
  exact (hps.succeeds hn hinv' hsucc').2 res rfl

/-- A `try_push` called in a state in which it can only succeed. -/
theorem tryReturns_success (hn : SizeOk n) (hp : s.prod = .idle p) (hc : s.cons = cph.thread)
    (hinv : QueueInv n r (.idle p) cph s.mem)
    (hsucc : p.head = indexInvalid ∨ p.overrun ≠ indexInvalid ∧ s.mem.tail.consumed = true)
    (h : TryReturns n s res) : res = .tryPush .success := by
  obtain ⟨t, t', u, u', hl, hcall, hl', hs⟩ := h
  obtain ⟨cph', hp', hc', hinv', hcons⟩ := consumerOnly_leads hn hp hc hinv hl
  have hcall : t.step (.push .tryPush) = some (t', .silent) := hcall
  obtain ⟨r', ph', cph'', hstep, hph, hcph⟩ := queueStep_cases hn hp' hc' hinv'.ring hcall
  have hnew := hstep.queueInv hn hinv'
  cases hstep with
  | push =>
    refine noOtherPush_leads hn hph hcph hnew ?_ hl' hs
    by_cases hh : p.head = indexInvalid
    · rw [ProducerPhase.call_first hh]
      rfl
    · obtain ⟨ho, hcon⟩ := hsucc.resolve_left hh
      rw [ProducerPhase.call_tryPush hh]
      exact ⟨ho, hcons hcon⟩

/-- Between two pushes, in any run, the answer of `ri_producer_queue_full` predicts the next `try_push`
    exactly if nothing has been pushed yet or a slot is kept back after an overrun. -/
theorem full_predicts_iff (h3 : 3 ≤ n) (hn : n ≤ 2 ^ 30) {tr : List (QueueEvent β × QueueOutcome)}
    (hr : (queueSystem β n).Run Machine.always tr s) (hp : s.prod = .idle p) :
    Predicts n s p ↔ p.head = indexInvalid ∨ p.overrun ≠ indexInvalid := by
  have hsize : SizeOk n := ⟨h3, hn⟩
  obtain ⟨r, ph, cph, hph, hcph, hinv, -⟩ := queue_run hsize (J := fun _ _ _ _ _ => True)
    (fun _ _ _ => trivial) (fun _ _ _ _ _ _ _ _ _ _ _ _ _ _ _ _ _ => trivial) hr
  obtain rfl := ProducerPhase.thread_eq_idle (hph.symm.trans hp)
  have hring := hinv.ring
  have hcur : p.current.toNat < p.nMsgs := hring.1.nMsgs.symm ▸ hring.1.current_lt
  -- Before the first push the queue is not full, and the push succeeds.
  by_cases hh : p.head = indexInvalid
  · refine iff_of_true ⟨false, full_first hh, nofun, fun _ => ⟨fun t hl => ?_, fun res hres => ?_⟩⟩
      (Or.inl hh)
    · obtain ⟨cph', -, -, hinv', -⟩ := consumerOnly_leads hsize hp hcph hinv hl
      exact tryAlone_first hsize hinv'.ring hinv'.shared hh
    · exact tryReturns_success hsize hp hcph hinv (Or.inl hh) hres
  have hv : s.mem.tail.slot.toNat < p.nMsgs := hring.1.nMsgs.symm ▸ (hinv.shared.tail hh).lt
  -- Without an overrun slot the answer is the wrong way round:
  by_cases ho : p.overrun = indexInvalid
  · refine iff_of_false ?_ fun hor => hor.elim hh fun hne => hne ho
    rintro ⟨full, hfull, htrue, hfalse⟩
    rw [full_next hh hv ho hcur] at hfull
    obtain ⟨rfl, -⟩ := Prod.mk.inj (Option.some.inj hfull)
    by_cases heq : p.chain p.current = s.mem.tail.slot
    · -- at the tail the queue is full, and `ri_producer_queue_full` says it is not;
      have hfail := tryAlone_full hsize hring hinv.shared hh ho heq
      have hsucc := (hfalse (by simp [heq])).1 s .refl
      exact absurd (hfail.unique hsucc) nofun
    · -- away from it there is room, and it says the queue is full.
      have hsucc := tryAlone_next hsize hring hinv.shared hh ho heq
      have hfail := htrue (by simp [heq])
      exact absurd (hfail.unique hsucc) nofun
  · -- With an overrun slot it says whether the consumer still has to release it.
    refine iff_of_true ⟨_, full_overrun hh hv ho, fun hfull => ?_, fun hfull => ⟨fun t hl => ?_,
      fun res hres => ?_⟩⟩ (Or.inr ho)
    · exact tryAlone_blocked hsize hring hinv.shared hh ho (by simpa using hfull)
    · obtain ⟨cph', -, -, hinv', hcons⟩ := consumerOnly_leads hsize hp hcph hinv hl
      exact tryAlone_requeue hsize hinv'.ring hinv'.shared hh ho (hcons (by simpa using hfull))
    · exact tryReturns_success hsize hp hcph hinv (Or.inr ⟨ho, by simpa using hfull⟩) hres

end leads

/-- A queue of three slots, overrun by the producer while the consumer holds slot 0. -/
theorem full_predicts_iff_overrun :
    ∃ tr s p, (queueSystem Nat 3).Run Machine.always tr s ∧ s.prod = .idle p ∧
      p.overrun = 0 ∧ Predicts 3 s p := by
  obtain ⟨tr, s, hr, h⟩ := QueueState.exists_run 3 0 Machine.always
    [.push .forcePush, .prodStep, .prodStep, .prodStep, .pop .pop, .consStep,
      .push .forcePush, .prodStep, .prodStep, .prodStep, .prodStep,
      .push .forcePush, .prodStep, .prodStep, .prodStep, .prodStep, .prodStep]
    (fun _ s => s.prod.idleAnd fun p => decide (p.overrun = 0)) (by decide)
  obtain ⟨p, hp, h⟩ := Thread.exists_idle h
  have hover : p.overrun = 0 := of_decide_eq_true h
  refine ⟨tr, s, p, hr, hp, hover, (full_predicts_iff (by decide) (by decide) hr hp).mpr (Or.inr ?_)⟩
  rw [hover]
  decide

/-- One message has been pushed into a queue of three slots: `ri_producer_queue_full` says that it is
    full, and `try_push` succeeds. -/
theorem full_with_room :
    ∃ tr s p, (queueSystem Nat 3).Run Machine.always tr s ∧ (∀ eo ∈ tr, eo.2.isError = false) ∧
      s.prod = .idle p ∧ (p.full.run QueueOp.exec s.mem).map Prod.fst = some true ∧
      TryAlone s p .success ∧ ¬ Predicts 3 s p := by
  obtain ⟨tr, s, hr, h⟩ := QueueState.exists_run 3 0 Machine.always
    [.push .forcePush, .prodStep, .prodStep, .prodStep]
    (fun tr s => s.prod.idleAnd fun p => decide ((∀ eo ∈ tr, eo.2.isError = false) ∧
      (p.full.run QueueOp.exec s.mem).map Prod.fst = some true ∧
      (p.tryPush.run QueueOp.exec s.mem).map (fun y => y.1.2) = some .success)) (by decide)
  obtain ⟨p, hp, h⟩ := Thread.exists_idle h
  obtain ⟨herr, hfull, htry⟩ := of_decide_eq_true h
  obtain ⟨⟨⟨p', y⟩, m'⟩, hrun, rfl⟩ := Option.map_eq_some_iff.mp htry
  have hsucc : TryAlone s p .success := ⟨p', m', hrun⟩
  refine ⟨tr, s, p, hr, herr, hp, hfull, hsucc, ?_⟩
  rintro ⟨full, hfull', hfail, -⟩
  rw [hfull'] at hfull
  have hne := (hfail (Option.some.inj hfull)).unique hsucc
  cases hne

end Rtipc
