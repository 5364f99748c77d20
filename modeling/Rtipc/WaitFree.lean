/-
  How long a call takes.

  `rtipc.h` promises wait-free message passing: a call returns after a bounded number of its own steps,
  whatever the other side does in between.  A push and a pop keep the promise.  `left` bounds the atomic
  operations that are left at each point, and every operation of the thread lowers it; the other
  side's steps do not occur in it.  So a push returns with its sixth operation at the latest, a pop with
  its fourth, and a thread in a call is never stuck (`push_pop_wait_free`).

  A flush does not.  Between its fetch-or and its compare-exchange the producer can push and overrun the
  consumer, so that the tail moves and the flush goes round again, and then the queue is as before but
  for the messages (`Attains.chase`).  So for each `k` there is a run in which a flush has made `k` operations
  and has not returned (`flush_not_wait_free`).

  1. **What is counted.**  `pushSteps` and `popSteps` count the operations of the call that is running,
     in the trace.  So the bound is one on the run, not on a function of the model.

  2. **Not stuck.**  A bound is worth nothing if the thread cannot make its next step.
     `QueueState.prodStep_isSome` and `QueueState.consStep_isSome` say that it can, at every point.

  3. **The flush.**  `Attains` collects the runs in which a flush has made `k` operations.
     `Attains.chase` is one round of the producer that makes the compare-exchange fail; the induction on
     `k` is in `flush_not_wait_free`.
-/
import Rtipc.EventfdCount

namespace Rtipc

/-! ## The steps of a call

  At each point the number of operations that are left, by the structure of the code. -/

/-- The atomic operations that the running push has made after the event. -/
def pushSteps {β : Type} (k : Nat) : QueueEvent β × QueueOutcome → Nat
  | (.push _, _) => 0
  | (.prodStep, .silent) => k + 1
  | (.prodStep, _) => 0
  | _ => k

/-- The atomic operations that the running pop or flush has made after the event. -/
def popSteps {β : Type} (k : Nat) : QueueEvent β × QueueOutcome → Nat
  | (.pop _, _) => 0
  | (.consStep, .silent) => k + 1
  | (.consStep, _) => 0
  | _ => k

/-- At most this many operations follow `enqueue_msg`. -/
def AfterEnqueue.left : AfterEnqueue → Nat
  | force => 3
  | tryRequeue => 1
  | tryNext => 0

/-- At most this many operations are left of a push. -/
def ProducerPhase.left : ProducerPhase → Nat
  | .idle _ => 0
  | .first1 _ _ _ => 3
  | .first2 _ _ _ => 2
  | .first3 _ _ _ => 1
  | .tryLoad _ _ => 5
  | .enq1 k _ _ => 3 + k.left
  | .enq2 k _ _ => 2 + k.left
  | .enq3 k _ _ => 1 + k.left
  | .forceLoad _ _ => 3
  | .requeue _ _ _ => 1
  | .move _ _ _ => 2
  | .moveFull _ _ _ => 2
  | .jumping _ _ => 1

/-- At most this many operations are left of a pop; a flush has no such bound. -/
def ConsumerPhase.left : ConsumerPhase → Nat
  | .pop1 _ => 4
  | .pop2 _ _ => 3
  | .pop3 _ _ _ => 2
  | .pop4 _ => 1
  | _ => 0

section steps

variable {ph ph' : ProducerPhase} {cph cph' : ConsumerPhase} {m m' : QueueMem} {o : QueueOutcome}

/-- Every operation of a push brings it closer to its end. -/
theorem ProducerStep.left_lt (hs : ProducerStep ph m ph' m' o) : ph'.left < ph.left := by
  cases hs <;> simp [ProducerPhase.left, AfterEnqueue.left]

/-- A push is over when it returns. -/
theorem ProducerStep.returns (hs : ProducerStep ph m ph' m' o) :
    (o = .silent ∧ ∀ p, ph' ≠ .idle p) ∨ ∃ y q, o = .pushed y ∧ ph' = .idle q := by
  cases hs <;> first
    | exact Or.inl ⟨rfl, fun p hp => by cases hp⟩
    | exact Or.inr ⟨_, _, rfl, rfl⟩

/-- Every operation of a pop brings it closer to its end. -/
theorem ConsumerStep.left_lt (hs : ConsumerStep cph m cph' m' o) (hpop : ¬ cph.inFlush) :
    cph'.left < cph.left ∧ ¬ cph'.inFlush := by
  cases hs with
  | flushNoMsg | flushError | flushTail | flushHeadError | flushHead | flushTaken | flushLost =>
    exact absurd trivial hpop
  | _ => exact ⟨by simp [ConsumerPhase.left], id⟩

/-- A pop or a flush is over when it returns. -/
theorem ConsumerStep.returns (hs : ConsumerStep cph m cph' m' o) :
    (o = .silent ∧ ∀ c, cph' ≠ .idle c) ∨ ∃ y c, o = .popped y ∧ cph' = .idle c := by
  cases hs <;> first
    | exact Or.inl ⟨rfl, fun c hc => by cases hc⟩
    | exact Or.inr ⟨_, _, rfl, rfl⟩

/-- A push that has not returned has a step left. -/
theorem ProducerPhase.left_pos (h : ∀ p, ph ≠ .idle p) : 0 < ph.left := by
  cases ph with
  | idle p => exact absurd rfl (h p)
  | enq1 | enq2 | enq3 => exact Nat.add_pos_left (by decide) _
  | _ => exact Nat.succ_pos _

/-- A pop that has not returned has a step left. -/
theorem ConsumerPhase.left_pos (h : ∀ c, cph ≠ .idle c) (hpop : ¬ cph.inFlush) : 0 < cph.left := by
  cases cph with
  | idle c => exact absurd rfl (h c)
  | flush1 | flush2 | flush3 => exact absurd trivial hpop
  | _ => exact Nat.succ_pos _

/-- No push needs more than six operations. -/
theorem ProducerPhase.left_call (op : PushOp) (p : ProducerQueue) :
    (ProducerPhase.call op p).left ≤ 6 := by
  unfold ProducerPhase.call
  split
  · exact Nat.le_of_ble_eq_true rfl
  · cases op <;> exact Nat.le_of_ble_eq_true rfl

end steps

/-! ## A running call is never stuck -/

section progress

variable {β : Type} {s : QueueState β} {ph ph' : ProducerPhase} {cph cph' : ConsumerPhase}
  {m' : QueueMem} {o : QueueOutcome}

open ProducerPhase in
/-- The code makes every step of `ProducerStep`. -/
theorem ProducerStep.prodStep (hph : s.prod = ph.thread) (hs : ProducerStep ph s.mem ph' m' o) :
    s.prodStep = some (s.afterProd ph' m' o, o) := by
  rw [QueueState.prodStep, hph]
  -- Each step of the relation is one the code makes: its conditions decide the branches.
  cases hs with
  | tryError hv | loadError hv =>
    simp only [thread, codeTryLoad, codeForceLoad, Prog.step_act, QueueOp.exec, Option.map_some, hv,
      not_false_eq_true, if_true]
    rfl
  | tryRequeue hv ho hc | loadRequeue hv ho hc =>
    simp only [thread, codeTryLoad, codeForceLoad, Prog.step_act, QueueOp.exec, Option.map_some, hv,
      not_true, if_false, ho, ne_eq, not_false_eq_true, if_true, hc]
    rfl
  | tryBlocked hv ho hc | loadMove hv ho hc =>
    simp only [thread, codeTryLoad, codeForceLoad, Prog.step_act, QueueOp.exec, Option.map_some, hv,
      not_true, if_false, ho, ne_eq, not_false_eq_true, if_true, hc, Bool.false_eq_true]
    rfl
  | tryNext hv ho hn | loadNext hv ho hn =>
    simp only [thread, codeTryLoad, codeForceLoad, Prog.step_act, QueueOp.exec, Option.map_some, hv,
      not_true, if_false, ho, ne_eq, hn, not_false_eq_true, if_true]
    rfl
  | tryFull hv ho hn =>
    simp only [thread, codeTryLoad, Prog.step_act, QueueOp.exec, Option.map_some, hv, not_true,
      if_false, ho, ne_eq, hn]
    rfl
  | loadMoveFull hv ho hn hc =>
    simp only [thread, codeForceLoad, Prog.step_act, QueueOp.exec, Option.map_some, hv, not_true,
      if_false, ho, ne_eq, hn, hc, Bool.false_eq_true, not_false_eq_true, if_true]
    rfl
  | loadOver hv ho hn hc =>
    simp only [thread, codeForceLoad, Prog.step_act, QueueOp.exec, Option.map_some, hv, not_true,
      if_false, ho, ne_eq, hn, hc]
    rfl
  | moved ht | movedFull ht | overran ht =>
    simp only [thread, codeMove, codeMoveFull, codeOver, Prog.step_act, QueueOp.exec,
      Option.map_some, ht, if_true]
    rfl
  | moveLost ht | moveFullLost ht | overLost ht =>
    simp only [thread, codeMove, codeMoveFull, codeOver, Prog.step_act, QueueOp.exec,
      Option.map_some, ht, if_false, Bool.false_eq_true]
    rfl
  | @first3 op | @requeue op =>
    cases op <;> rfl
  | _ => rfl

open ConsumerPhase in
/-- The code makes every step of `ConsumerStep`. -/
theorem ConsumerStep.consStep (hcph : s.cons = cph.thread)
    (hs : ConsumerStep cph s.mem cph' m' o) :
    s.consStep = some (s.afterCons cph' m' o, o) := by
  rw [QueueState.consStep, hcph]
  -- The same for the consumer.
  cases hs with
  | popNoMsg h | flushNoMsg h =>
    simp only [thread, codePop1, codeFlush1, Prog.step_act, QueueOp.exec, Option.map_some, h, if_true]
    rfl
  | popError h hv | flushError h hv =>
    simp only [thread, codePop1, codeFlush1, Prog.step_act, QueueOp.exec, Option.map_some, h, hv,
      if_false, not_false_eq_true, if_true]
    rfl
  | popTail h hv hc =>
    simp only [thread, codePop1, Prog.step_act, QueueOp.exec, Option.map_some, h, hv, hc, if_false,
      not_true, Bool.false_eq_true, not_false_eq_true, if_true]
    rfl
  | popNone h hv hc hcur | popOwn h hv hc hcur =>
    simp only [thread, codePop1, Prog.step_act, QueueOp.exec, Option.map_some, h, hv, hc, hcur,
      if_false, not_true, if_true]
    rfl
  | flushTail h hv =>
    simp only [thread, codeFlush1, Prog.step_act, QueueOp.exec, Option.map_some, h, hv, if_false,
      not_true]
    rfl
  | popNoUpdate h =>
    simp only [thread, codePop2, Prog.step_act, QueueOp.exec, Option.map_some, h, if_true]
    rfl
  | popNextError h hv =>
    simp only [thread, codePop2, Prog.step_act, QueueOp.exec, Option.map_some, h, hv, if_false,
      not_false_eq_true, if_true]
    rfl
  | popNext h hv =>
    simp only [thread, codePop2, Prog.step_act, QueueOp.exec, Option.map_some, h, hv, if_false,
      not_true]
    rfl
  | popTaken h | flushTaken h =>
    simp only [thread, codePop3, codeFlush3, Prog.step_act, QueueOp.exec, Option.map_some, h, if_true]
    rfl
  | popLost h =>
    simp only [thread, codePop3, Prog.step_act, QueueOp.exec, Option.map_some, h, if_false,
      Bool.false_eq_true]
    rfl
  | flushLost h =>
    simp only [thread, codeFlush3, Prog.step_act, QueueOp.exec, Option.map_some, h, if_false,
      Bool.false_eq_true, QueueState.consAt, code_flush]
    rfl
  | popMovedError hv =>
    simp only [thread, codePop4, Prog.step_act, QueueOp.exec, Option.map_some, hv, if_true,
      not_false_eq_true]
    rfl
  | popMoved hv =>
    simp only [thread, codePop4, Prog.step_act, QueueOp.exec, Option.map_some, hv, not_true, if_false]
    rfl
  | flushHeadError hv =>
    simp only [thread, codeFlush2, Prog.step_act, QueueOp.exec, Option.map_some, hv, if_true,
      not_false_eq_true]
    rfl
  | flushHead hv =>
    simp only [thread, codeFlush2, Prog.step_act, QueueOp.exec, Option.map_some, hv, not_true,
      if_false]
    rfl

/-- A push that is running can go on. -/
theorem QueueState.prodStep_isSome {op : PushOp} {prog : QueueProg (ProducerQueue × PushResult)}
    (hph : s.prod = ph.thread) (hbusy : s.prod = .busy op prog) :
    ∃ s' o, s.prodStep = some (s', o) := by
  obtain ⟨a, f, rfl⟩ := ProducerPhase.thread_busy (hph.symm.trans hbusy)
  rw [QueueState.prodStep, hbusy]
  exact ⟨_, _, rfl⟩

/-- A pop or a flush that is running can go on. -/
theorem QueueState.consStep_isSome {op : PopOp}
    {prog : QueueProg (ConsumerQueue × Loop PopResult)} (hcph : s.cons = cph.thread)
    (hbusy : s.cons = .busy op prog) : ∃ s' o, s.consStep = some (s', o) := by
  obtain ⟨a, f, rfl⟩ := ConsumerPhase.thread_busy (hcph.symm.trans hbusy)
  rw [QueueState.consStep, hbusy]
  exact ⟨_, _, rfl⟩

end progress

/-! ## A push and a pop are wait-free -/

section runs

variable {β : Type} {n : Nat} {s : QueueState β} {tr : List (QueueEvent β × QueueOutcome)}

/-- The steps made and the steps left of a running call. -/
structure Bounded (tr : List (QueueEvent β × QueueOutcome)) (ph : ProducerPhase)
    (cph : ConsumerPhase) : Prop where
  push : (∀ p, ph ≠ .idle p) → tr.foldl pushSteps 0 + ph.left ≤ 6
  pop : (∀ c, cph ≠ .idle c) → ¬ cph.inFlush → tr.foldl popSteps 0 + cph.left ≤ 4

/-- Each operation of a call uses up one of those left. -/
theorem QueueStep.bounded {r r' : Ring} {ph ph' : ProducerPhase} {cph cph' : ConsumerPhase}
    {s' : QueueState β} {e : QueueEvent β} {o : QueueOutcome} (h : Bounded tr ph cph)
    (hs : QueueStep s r ph cph e r' ph' cph' s' o) : Bounded (tr ++ [(e, o)]) ph' cph' := by
  -- The trace grows by one step.
  have hfold : ∀ f : Nat → QueueEvent β × QueueOutcome → Nat,
      (tr ++ [(e, o)]).foldl f 0 = f (tr.foldl f 0) (e, o) := by
    intro f
    rw [List.foldl_append]
    rfl
  constructor
  · rw [hfold]
    cases hs with
    | write => exact h.push
    | @push p _ op =>
      intro _
      show 0 + (ProducerPhase.call op p).left ≤ 6
      rw [Nat.zero_add]
      exact ProducerPhase.left_call op p
    | prodStep hs =>
      intro hne
      -- an operation of the push: one less is left, or it returns
      have hlt := hs.left_lt
      rcases hs.returns with ⟨rfl, -⟩ | ⟨y, q, rfl, rfl⟩
      · have hbusy : ∀ p, ph ≠ .idle p := by
          rintro p rfl
          exact absurd hlt (Nat.not_lt_zero _)
        have hle := h.push hbusy
        show tr.foldl pushSteps 0 + 1 + ph'.left ≤ 6
        omega
      · exact absurd rfl (hne q)
    | pop => exact h.push
    | consStep hs => exact h.push
  · rw [hfold]
    cases hs with
    | write => exact h.pop
    | push => exact h.pop
    | prodStep hs => exact h.pop
    | @pop _ c op =>
      rintro - hflush
      cases op with
      | flush => exact absurd trivial hflush
      | pop => exact Nat.le_of_ble_eq_true rfl
    | consStep hs =>
      intro hne hflush
      -- a pop does not turn into a flush
      have hold : ¬ cph.inFlush := by
        intro hin
        cases hs <;> first | exact absurd hin id | exact hflush trivial | exact hne _ rfl
      have hlt := (hs.left_lt hold).1
      rcases hs.returns with ⟨rfl, -⟩ | ⟨y, c, rfl, rfl⟩
      · have hbusy : ∀ c, cph ≠ .idle c := by
          rintro c rfl
          exact absurd hlt (Nat.not_lt_zero _)
        have hle := h.pop hbusy hold
        show tr.foldl popSteps 0 + 1 + cph'.left ≤ 4
        omega
      · exact absurd rfl (hne c)

/-- A running push or pop can always make its next step; a push returns with the sixth at the latest, a
    pop with the fourth, whatever the other side does. -/
theorem push_pop_wait_free (h3 : 3 ≤ n) (hmax : n ≤ 2 ^ 30)
    (hr : (queueSystem β n).Run Machine.always tr s) :
    (∀ op prog, s.prod = .busy op prog → ∃ s' o, s.step .prodStep = some (s', o) ∧
      tr.foldl pushSteps 0 < 6 ∧ (tr.foldl pushSteps 0 = 5 → ∃ y, o = .pushed y)) ∧
    (∀ prog, s.cons = .busy .pop prog → ∃ s' o, s.step .consStep = some (s', o) ∧
      tr.foldl popSteps 0 < 4 ∧ (tr.foldl popSteps 0 = 3 → ∃ y, o = .popped y)) := by
  have hn : SizeOk n := ⟨h3, hmax⟩
  -- The operations done and those left are at most six for a push and four for a pop.
  obtain ⟨r, ph, cph, hph, hcph, hinv, h⟩ :=
    queue_run hn (J := fun tr _ ph cph _ => Bounded tr ph cph)
      (fun s p _ => ⟨fun hne => absurd rfl (hne p), fun hne => absurd rfl (hne _)⟩)
      (fun tr r ph cph s e r' ph' cph' s' o _ _ _ h _ hs => hs.bounded h) hr
  constructor
  · intro op prog hbusy
    have hne : ∀ p, ph ≠ .idle p := by
      rintro p rfl
      rw [hph] at hbusy
      cases hbusy
    have hle := h.push hne
    -- As one is left, fewer than six are done.
    have hpos := ProducerPhase.left_pos hne
    obtain ⟨s', o, hs⟩ := QueueState.prodStep_isSome hph hbusy
    obtain ⟨ph', m', hstep, -⟩ := prodStep_cases hph hs
    refine ⟨s', o, hs, by omega, ?_⟩
    -- After five the next one is the last.
    intro hfive
    have hlt := hstep.left_lt
    rcases hstep.returns with ⟨-, hne'⟩ | ⟨y, q, ho, -⟩
    · have hpos' := ProducerPhase.left_pos hne'
      omega
    · exact ⟨y, ho⟩
  · intro prog hbusy
    have hne : ∀ c, cph ≠ .idle c := by
      rintro c rfl
      rw [hcph] at hbusy
      cases hbusy
    have hflush : ¬ cph.inFlush := by
      rw [hcph] at hbusy
      cases cph <;> first | exact id | cases hbusy
    have hle := h.pop hne hflush
    have hpos := ConsumerPhase.left_pos hne hflush
    obtain ⟨s', o, hs⟩ := QueueState.consStep_isSome hcph hbusy
    obtain ⟨cph', m', hstep, -⟩ := consStep_cases hcph hs
    refine ⟨s', o, hs, by omega, ?_⟩
    intro hthree
    obtain ⟨hlt, hflush'⟩ := hstep.left_lt hflush
    rcases hstep.returns with ⟨-, hne'⟩ | ⟨y, c, ho, -⟩
    · have hpos' := ConsumerPhase.left_pos hne' hflush'
      omega
    · exact ⟨y, ho⟩

end runs

/-- A full queue: the push finds the tail unread and a pop takes it before the tail has been moved. -/
theorem push_six_steps :
    ∃ tr s s' y, (queueSystem Nat 3).Run Machine.always tr s ∧ tr.foldl pushSteps 0 = 5 ∧
      s.step .prodStep = some (s', .pushed y) := by
  obtain ⟨tr, s, hr, h⟩ := QueueState.exists_run 3 0 Machine.always
    [.push .forcePush, .prodStep, .prodStep, .prodStep,
      .push .forcePush, .prodStep, .prodStep, .prodStep, .prodStep,
      .push .forcePush, .prodStep, .prodStep, .prodStep, .prodStep, .pop .pop, .consStep, .prodStep]
    (fun tr s => s.prod.isIn .forcePush && decide (tr.foldl pushSteps 0 = 5)) (by decide)
  rw [Bool.and_eq_true] at h
  have hfive := of_decide_eq_true h.2
  obtain ⟨prog, hprog⟩ := Thread.exists_busy h.1
  obtain ⟨s', o, hs, -, hret⟩ := (push_pop_wait_free (by decide) (by decide) hr).1 _ _ hprog
  obtain ⟨y, rfl⟩ := hret hfive
  exact ⟨tr, s, s', y, hr, hfive, hs⟩

/-! ## A flush is not -/

section chase

variable {β : Type} {n k : Nat} {r r' : Ring} {ph ph' : ProducerPhase} {cph cph' : ConsumerPhase}
  {p : ProducerQueue} {c : ConsumerQueue} {m m' : QueueMem} {o : QueueOutcome}

variable (β) in
/-- A run leads to these points, with the list of slots `r` and `k` operations of the running flush. -/
def Attains (n k : Nat) (r : Ring) (ph : ProducerPhase) (cph : ConsumerPhase) (m : QueueMem) : Prop :=
  ∃ tr s, (queueSystem β n).Run Machine.always tr s ∧ tr.foldl popSteps 0 = k ∧
    s.prod = ph.thread ∧ s.cons = cph.thread ∧ s.mem = m ∧ QueueInv n r ph cph m

/-- The state that the chase attains is kept by a step of the producer. -/
theorem Attains.prodStep (hn : SizeOk n) (h : Attains β n k r ph cph m)
    (hs : ProducerStep ph m ph' m' o) : Attains β n k (r.step ph ph') ph' cph m' := by
  obtain ⟨tr, s, hr, hk, hph, hcph, rfl, hinv⟩ := h
  have hstep : (queueSystem β n).step s .prodStep = some (s.afterProd ph' m' o, o) := hs.prodStep hph
  refine ⟨_, _, hr.step trivial hstep, ?_, rfl, hcph, rfl, hs.queueInv hn hinv⟩
  rw [List.foldl_append]
  exact hk

/-- A step of the flush that does not return is one of the operations counted. -/
theorem Attains.consStep (hn : SizeOk n) (h : Attains β n k r ph cph m)
    (hs : ConsumerStep cph m cph' m' .silent) : Attains β n (k + 1) r ph cph' m' := by
  obtain ⟨tr, s, hr, hk, hph, hcph, rfl, hinv⟩ := h
  have hstep : (queueSystem β n).step s .consStep =
      some (s.afterCons cph' m' .silent, .silent) := hs.consStep hcph
  refine ⟨_, _, hr.step trivial hstep, ?_, hph, rfl, rfl, hs.queueInv hn hinv⟩
  rw [List.foldl_append, hk]
  rfl

/-- The producer may push meanwhile. -/
theorem Attains.push (hn : SizeOk n) (h : Attains β n k r (.idle p) cph m) (op : PushOp) :
    Attains β n k r (.call op p) cph m := by
  obtain ⟨tr, s, hr, hk, hph, hcph, rfl, hinv⟩ := h
  have hs : (queueSystem β n).step s (.push op) = some (s.afterPush op p, .silent) := by
    show s.push op = _
    rw [QueueState.push, hph]
    show some (({ s with prod := .busy op (op.prog p), stamp := _ } : QueueState β), _) = _
    rw [← hinv.ring.thread_call hn op]
  refine ⟨_, _, hr.step trivial hs, ?_, rfl, hcph, rfl, hinv.ring.call hn op, hinv.shared.call op,
    hinv.cons⟩
  rw [List.foldl_append]
  exact hk

/-- The chase starts with the call of the flush. -/
theorem Attains.flush (h : Attains β n k r ph (.idle c) m) : Attains β n 0 r ph (.flush1 c) m := by
  obtain ⟨tr, s, hr, hk, hph, hcph, rfl, hinv⟩ := h
  have hs : (queueSystem β n).step s (.pop .flush) =
      some ({ s with cons := (ConsumerPhase.flush1 c).thread }, .silent) := by
    show s.pop .flush = _
    rw [QueueState.pop, hcph]
    show some (({ s with cons := .busy .flush (PopOp.flush.prog c) } : QueueState β), _) = _
    rw [ConsumerPhase.code_flush]
    rfl
  refine ⟨_, _, hr.step trivial hs, ?_, hph, rfl, rfl, hinv.ring, hinv.shared, hinv.cons.call .flush⟩
  rw [List.foldl_append]
  rfl

/-- The chain of the producer once there is a tail. -/
theorem QueueInv.steady (h : QueueInv n r (.idle p) cph m) (ht : m.tail ≠ indexInvalid) :
    Steady r p := by
  obtain ⟨-, -, hf | hs⟩ := h.ring
  · exact absurd (h.shared.unset hf.head) ht
  · exact hs

/-- The first three operations of a push append its message. -/
theorem Attains.enqueue (hn : SizeOk n) (h : Attains β n k r (.idle p) cph m)
    (ht : m.tail ≠ indexInvalid) :
    ∃ q next m', Attains β n k (r.append p.current) (.forceLoad q next) cph m' ∧
      m'.tail = m.tail ∧ q.overrun = p.overrun := by
  obtain ⟨tr, s, -, -, -, -, -, hinv⟩ := id h
  have hhead : p.head ≠ indexInvalid := fun hh => ht (hinv.shared.unset hh)
  have hcall := h.push hn .forcePush
  rw [ProducerPhase.call_forcePush hhead] at hcall
  exact ⟨_, _, _, ((hcall.prodStep hn .enq1).prodStep hn .enq2).prodStep hn .enq3Force, rfl, rfl⟩

/-- A push that finds the consumer at the tail takes the overrun slot back. -/
theorem Attains.requeue {q : ProducerQueue} {next : Index} (hn : SizeOk n)
    (h : Attains β n k r (.forceLoad q next) cph m) (ho : q.overrun ≠ indexInvalid)
    (hc : m.tail.consumed = true) :
    ∃ q' m', Attains β n k r (.idle q') cph m' ∧ m'.tail = m.tail ∧ q'.overrun = indexInvalid := by
  obtain ⟨tr, s, -, -, -, -, -, hinv⟩ := id h
  have hv := hinv.ring.forceLoad_valid hn hinv.shared
  exact ⟨_, _, (h.prodStep hn (.loadRequeue hv ho hc)).prodStep hn .requeue, rfl, rfl⟩

/-- A push into a full queue jumps over the tail that the consumer has. -/
theorem Attains.overrun {q : ProducerQueue} {next : Index} (hn : SizeOk n)
    (h : Attains β n k r (.forceLoad q next) cph m) (ho : q.overrun = indexInvalid)
    (hc : m.tail.consumed = true) (hfront : m.tail.slot = r.ord r.lo) :
    ∃ q' m', Attains β n k (r.drop 2) (.idle q') cph m' ∧ m'.tail = r.ord (r.lo + 2) := by
  obtain ⟨tr, s, -, -, -, -, -, hinv⟩ := id h
  have hv := hinv.ring.forceLoad_valid hn hinv.shared
  obtain ⟨hp, hnext, -⟩ := hinv.ring
  have hne : m.tail.slot ≠ indexInvalid := hfront ▸ hn.ne_invalid (hp.lt _)
  have h' := (h.prodStep hn (.loadOver hv ho (hnext.trans hfront.symm) hc)).prodStep hn (.overran rfl)
  rw [Ring.step_overran hne] at h'
  refine ⟨_, _, h', ?_⟩
  show q.chain (q.chain m.tail.slot) = _
  rw [hfront]
  exact hp.link_link ho hn

/-- One pass of a flush that the producer beats: with the tail at the front of the list it pushes until
    it overruns the consumer, and the tail is at the front again. -/
theorem Attains.chase (hn : SizeOk n) (h : Attains β n k r (.idle p) (.flush1 c) m)
    (ht : m.tail ≠ indexInvalid) (hfront : m.tail.slot = r.ord r.lo) :
    ∃ r' p' m', Attains β n (k + 3) r' (.idle p') (.flush1 c) m' ∧ m'.tail ≠ indexInvalid ∧
      m'.tail.slot = r'.ord r'.lo := by
  obtain ⟨tr, s, -, -, -, -, -, hinv⟩ := id h
  have hslot := hinv.shared.tail_ok ht
  have hc : c.nMsgs = n := hinv.cons.nMsgs
  have h1 := h.consStep hn (.flushTail ht (hc.symm ▸ hslot.lt))
  -- with the tail consumed, the overrun slot is taken back first
  have h2 : ∃ r' q m', Attains β n (k + 1) r' (.idle q) (.flush2 c m.tail) m' ∧
      m'.tail = m.tail ||| consumedFlag ∧ q.overrun = indexInvalid ∧ m.tail.slot = r'.ord r'.lo := by
    by_cases ho : p.overrun = indexInvalid
    · exact ⟨r, p, _, h1, rfl, ho, hfront⟩
    · obtain ⟨q, next, m1, hreach, htail, hover⟩ := h1.enqueue hn hslot.or_consumed.ne_invalid
      obtain ⟨q', m2, hreach', htail', hover'⟩ := hreach.requeue hn (hover ▸ ho)
        (by rw [htail]; exact Index.consumed_or_consumedFlag _)
      refine ⟨_, q', m2, hreach', htail'.trans htail, hover', ?_⟩
      have hlt := hinv.ring.1.one_le hn
      rw [Window.append_lo, Window.append_ord (by omega)]
      exact hfront
  obtain ⟨r1, q, m1, h2, htail, hover, hfront1⟩ := h2
  obtain ⟨-, -, -, -, -, -, -, hinv1⟩ := id h2
  obtain ⟨q1, next, m2, h3, htail2, hover2⟩ :=
    h2.enqueue hn (by rw [htail]; exact hslot.or_consumed.ne_invalid)
  have hlt := hinv1.ring.1.one_le hn
  have hfront2 : m2.tail.slot = (r1.append q.current).ord (r1.append q.current).lo := by
    rw [htail2, htail, Index.slot_or_consumedFlag, Window.append_lo, Window.append_ord (by omega)]
    exact hfront1
  obtain ⟨q2, m3, h4, htail3⟩ := h3.overrun hn (hover2.trans hover)
    (by rw [htail2, htail]; exact Index.consumed_or_consumedFlag _) hfront2
  obtain ⟨-, -, -, -, -, -, -, hinv3⟩ := id h4
  have htail_lt : m3.tail.toNat < n := by
    rw [htail3]
    exact hinv3.ring.1.lt _
  have hset := hn.ne_invalid htail_lt
  -- the head is announced, and the compare-exchange fails
  have hhead : m3.head.toNat < c.nMsgs := by
    have hhead := (hinv3.steady hset).head_lt hinv3.ring.1.toRingPath
    rw [hc, hinv3.shared.head]
    exact hhead
  have hlost : m3.tail ≠ m.tail ||| consumedFlag := by
    intro he
    have := hn.consumed htail_lt
    rw [he, Index.consumed_or_consumedFlag] at this
    cases this
  refine ⟨_, _, _, (h4.consStep hn (.flushHead hhead)).consStep hn (.flushLost hlost), hset, ?_⟩
  rw [hn.slot htail_lt, htail3]
  rfl

/-- Pushes without a consumer fill the queue, until the tail is at the front of the list. -/
theorem Attains.fill (hn : SizeOk n) (d : Nat) (h : Attains β n k r (.idle p) (.idle c) m)
    (ho : p.overrun = indexInvalid) (ht : m.tail ≠ indexInvalid) (hlt : r.lo + d < r.hi)
    (hslot : m.tail.slot = r.ord (r.lo + d)) :
    ∃ r' p' m', Attains β n k r' (.idle p') (.idle c) m' ∧ m'.tail ≠ indexInvalid ∧
      m'.tail.slot = r'.ord r'.lo := by
  induction d generalizing r p m with
  | zero => exact ⟨r, p, m, h, ht, hslot⟩
  | succ d ih =>
    obtain ⟨q, next, m1, h1, htail, hover⟩ := h.enqueue hn ht
    obtain ⟨-, -, -, -, -, -, -, hinv⟩ := id h1
    have hv := hinv.ring.forceLoad_valid hn hinv.shared
    obtain ⟨hp, hnext, -⟩ := hinv.ring
    have hslot1 : m1.tail.slot = (r.append p.current).ord (r.lo + 1 + d) := by
      rw [htail, hslot, Window.append_ord (by omega), show r.lo + (d + 1) = r.lo + 1 + d by omega]
    have hne : next ≠ m1.tail.slot := by
      intro he
      have hsame := (hnext.symm.trans he).trans hslot1
      have := hp.nodup _ _ le_rfl (by rw [Window.append_lo, Window.append_hi]; omega)
        (by rw [Window.append_lo]; omega) (by rw [Window.append_hi]; omega) hsame
      rw [Window.append_lo] at this
      omega
    refine ih (h1.prodStep hn (.loadNext hv (hover.trans ho) hne)) (hover.trans ho)
      (htail ▸ ht) ?_ hslot1
    show r.lo + 1 + d < r.hi + 1
    omega

/-- There is a queue to begin with. -/
theorem queue_exists (hn : SizeOk n) (x : β) : ∃ s, (queueSystem β n).init s := by
  have h3 := hn.three_le
  obtain ⟨chain, chain', hrun, -, -⟩ := initChain_run hn (n - 1) 0
    { nMsgs := n, current := 0, overrun := indexInvalid, head := indexInvalid, chain := fun _ => 0 }
    { tail := 0, head := 0, chain := fun _ => 0 } rfl (by omega)
  have hlt : (BitVec.ofNat 32 (n - 1)).toNat < n := by
    rw [toNat_ofNat_of_lt hn (by omega)]
    omega
  have hsome : (QueueState.create n { tail := 0, head := 0, chain := fun _ => 0 } (fun _ => 0)
      fun _ => x).isSome = true := by
    simp only [QueueState.create, ProducerQueue.new, Prog.run_bind, hrun, ProducerQueue.chainStore,
      hlt, if_true, Prog.pure_eq, Prog.run_act, Prog.run_ret, Option.bind_some,
      QueueOp.exec, ProducerQueue.initShm, queueInitShm, Prog.perform, Option.map_some,
      Option.isSome_some]
  obtain ⟨s, hs⟩ := Option.isSome_iff_exists.mp hsome
  exact ⟨s, _, _, _, hs⟩

variable (β) in
/-- A full queue with the tail at the front of the list can be reached. -/
theorem reaches_full (hn : SizeOk n) (x : β) :
    ∃ r p c m, Attains β n 0 r (.idle p) (.idle c) m ∧ m.tail ≠ indexInvalid ∧
      m.tail.slot = r.ord r.lo := by
  have h3 := hn.three_le
  obtain ⟨s, hs⟩ := queue_exists hn x
  obtain ⟨p, hp⟩ := queue_created hn hs
  have hcur : p.current.toNat < n := by
    rw [hp.current]
    exact lt_of_lt_of_le (by decide) h3
  have h0 : Attains β n 0 (Ring.fresh n) (.idle p) (.idle { nMsgs := n, current := indexInvalid })
      s.mem := ⟨[], s, .init hs, rfl, hp.prod, hp.cons, rfl, hp.queueInv hn⟩
  have h1 := h0.push hn .forcePush
  rw [ProducerPhase.call_first hp.head] at h1
  have h2 := ((h1.prodStep hn .first1).prodStep hn .first2).prodStep hn .first3
  have hslot : (p.current ||| firstFlag).slot = p.current :=
    (Index.slot_or_firstFlag _).trans (hn.slot hcur)
  have hset : p.current ||| firstFlag ≠ indexInvalid := by
    intro he
    have := hn.consumed hcur
    rw [← Index.consumed_or_firstFlag, he] at this
    cases this
  -- the first message stands at position `n - 1`, and `n - 2` slots in front of it are free
  obtain ⟨r, p', m, hfull⟩ := h2.fill hn (n - 2) hp.overrun hset
    (by show 1 + (n - 2) < n - 1 + 1; omega)
    (by
      show (p.current ||| firstFlag).slot = ((Ring.fresh n).append p.current).ord (0 + 1 + (n - 2))
      rw [hslot, show 0 + 1 + (n - 2) = (Ring.fresh n).hi by simp only [Ring.fresh]; omega,
        Window.append_ord_hi])
  exact ⟨r, p', _, m, hfull⟩

/-- For each `k` there is a run in which a flush has made `k` operations and goes on. -/
theorem flush_not_wait_free (x : β) (h3 : 3 ≤ n) (hmax : n ≤ 2 ^ 30) (k : Nat) :
    ∃ tr s prog, (queueSystem β n).Run Machine.always tr s ∧ s.cons = .busy .flush prog ∧
      k ≤ tr.foldl popSteps 0 := by
  have hn : SizeOk n := ⟨h3, hmax⟩
  have hpasses : ∀ j, ∃ r p c m, Attains β n (3 * j) r (.idle p) (.flush1 c) m ∧
      m.tail ≠ indexInvalid ∧ m.tail.slot = r.ord r.lo := by
    intro j
    induction j with
    | zero =>
      obtain ⟨r, p, c, m, hfull, ht, hfront⟩ := reaches_full β hn x
      exact ⟨r, p, c, m, hfull.flush, ht, hfront⟩
    | succ j ih =>
      obtain ⟨r, p, c, m, hreach, ht, hfront⟩ := ih
      obtain ⟨r', p', m', hreach', ht', hfront'⟩ := hreach.chase hn ht hfront
      exact ⟨r', p', c, m', hreach', ht', hfront'⟩
  obtain ⟨r, p, c, m, ⟨tr, s, hr, hk, -, hcph, -⟩, -⟩ := hpasses k
  exact ⟨tr, s, _, hr, hcph, by omega⟩

end chase

/-- A flush that is still busy after a hundred operations. -/
theorem flush_hundred_steps :
    ∃ tr s prog, (queueSystem Nat 3).Run Machine.always tr s ∧ s.cons = .busy .flush prog ∧
      100 ≤ tr.foldl popSteps 0 :=
  flush_not_wait_free 0 (by decide) (by decide) 100

end Rtipc
