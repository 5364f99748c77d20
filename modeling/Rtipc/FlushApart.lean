/-
  Flushes that are kept apart from pushes.

  What can go wrong with a flush needs a push that is running (`FlushSafe`, `FlushFindsHead`).  An
  application can keep the two apart, by a lock or because both ends belong to one thread:
  `FlushApart` allows pops at any time, but no push while a flush is running and no flush while a
  push is.  Then neither defect can show, so all that holds of runs with safe flushes holds of these
  runs; and a flush does what `rtipc.h` says: its third operation is the last, and the consumer holds
  the newest message (`flush_apart`).

  While a flush is running the producer is idle and the tail stays as the flush has marked it
  (`Secluded`).  So its compare-exchange succeeds, and the head that it has read is the end of the list.

  The proof extends the invariant of runs without flushes by one phase.  While no flush runs, everything
  known about pops applies (`PopOnly`).  While one runs, the producer is idle, so the three operations
  of the flush see one state of the queue: the tail they mark is the tail they replace, and the head
  they read is the last slot of the chain (`Secluded.flush2`).

  That such a run satisfies `FlushSafe` and `FlushFindsHead` (`FlushApart.run_safe`) makes the results
  on exclusive slots, on errors and on the chain available to it.
-/
import Rtipc.NoError
import Rtipc.WaitFree

namespace Rtipc

/-- A call of a flush finds no push running, and a call of a push no flush. -/
def FlushApart {β : Type} (s : QueueState β) : QueueEvent β → Prop
  | .push _ => s.cons.isIn .flush = false
  | .pop .flush => s.prod.idleAnd (fun _ => true) = true
  | _ => True

instance {β : Type} (s : QueueState β) : (e : QueueEvent β) → Decidable (FlushApart s e)
  | .push _ => inferInstanceAs (Decidable (s.cons.isIn .flush = false))
  | .pop .flush => inferInstanceAs (Decidable (s.prod.idleAnd (fun _ => true) = true))
  | .pop .pop | .write _ | .prodStep | .consStep => isTrue trivial

/-- What a flush knows of the words it has read. -/
def ConsumerPhase.Locked (r : Ring) (m : QueueMem) : ConsumerPhase → Prop
  | .flush2 _ tail => m.tail = tail ||| consumedFlag
  | .flush3 _ tail head => m.tail = tail ||| consumedFlag ∧ head = r.ord (r.hi - 1)
  | _ => True

/-- The operations that a running flush has made. -/
def ConsumerPhase.flushed : ConsumerPhase → Nat
  | .flush2 _ _ => 1
  | .flush3 _ _ _ => 2
  | _ => 0

/-- A flush that is running has the queue for itself; otherwise it is as if there were no flushes. -/
structure Secluded (r : Ring) (tp : Nat) (ph : ProducerPhase) (cph : ConsumerPhase) (m : QueueMem) :
    Prop where
  popOnly : ¬ cph.inFlush → PopOnly r tp ph cph m
  alone : cph.inFlush → ∃ p, ph = .idle p
  locked : cph.Locked r m

section points

variable {n : Nat} {r : Ring} {tp : Nat} {ph : ProducerPhase} {cph cph' : ConsumerPhase}
  {m m' : QueueMem} {o : QueueOutcome}

/-- Whether the thread of the consumer is in a flush. -/
theorem ConsumerPhase.isIn_flush : cph.thread.isIn .flush = true ↔ cph.inFlush := by
  cases cph <;> simp [ConsumerPhase.thread, ConsumerPhase.inFlush, Thread.isIn]

/-- An idle thread is in the idle phase. -/
theorem ProducerPhase.exists_idle (h : ph.thread.idleAnd (fun _ => true) = true) :
    ∃ p, ph = .idle p := by
  obtain ⟨p, hp, -⟩ := Thread.exists_idle h
  exact ⟨p, ProducerPhase.thread_eq_idle hp⟩

/-- Between two pushes the head word names the end of the list. -/
theorem QueueInv.head_last {p : ProducerQueue} (hinv : QueueInv n r (.idle p) cph m)
    (ht : m.tail ≠ indexInvalid) : m.head = r.ord (r.hi - 1) ∧ m.chain m.head = indexInvalid := by
  have hs := hinv.steady ht
  have hhead : m.head = p.head := hinv.shared.head
  constructor
  · exact hhead.trans hs.head
  · rw [hhead, hinv.shared.chain _ (hs.head_lt hinv.ring.path)]
    exact hs.last

/-- The word a flush has marked is a tail. -/
theorem Secluded.flush2 {c : ConsumerQueue} {tail : Index}
    (hinv : QueueInv n r ph (.flush2 c tail) m) (h : Secluded r tp ph (.flush2 c tail) m) :
    TailOk n m.tail ∧ m.head = r.ord (r.hi - 1) ∧ m.chain m.head = indexInvalid ∧
      m.head.toNat < n := by
  obtain ⟨p, rfl⟩ := h.alone trivial
  have htail : TailOk n m.tail := by
    rw [show m.tail = tail ||| consumedFlag from h.locked]
    exact hinv.cons.reads.1.or_consumed
  obtain ⟨hhead, hlast⟩ := hinv.head_last htail.ne_invalid
  refine ⟨htail, hhead, hlast, ?_⟩
  rw [hhead]
  exact hinv.ring.path.lt _

/-- A step of the consumer while nothing is pushed, or of a pop. -/
theorem ConsumerStep.secluded (hn : SizeOk n) (hinv : QueueInv n r ph cph m) (hlo : r.lo ≤ tp)
    (h : Secluded r tp ph cph m) (hs : ConsumerStep cph m cph' m' o) {tp' : Nat}
    (htp : ¬ cph.inFlush → tp' = tp + cph.jump cph') : Secluded r tp' ph cph' m' := by
  -- In a flush the producer is idle, so nothing changes under it; in a pop the argument is that of
  -- runs without flushes.
  by_cases hflush : cph.inFlush
  · obtain ⟨p, rfl⟩ := h.alone hflush
    have hreads := hinv.cons.reads
    have hlocked := h.locked
    cases hs with
    | flushNoMsg ht =>
      have hnone : m.tail ||| consumedFlag = indexInvalid := by
        rw [ht]
        exact Index.indexInvalid_or_consumedFlag
      exact ⟨fun _ => ⟨id, fun hne => absurd hnone hne, trivial⟩, False.elim, trivial⟩
    | flushError ht hv => exact absurd (hinv.shared.tail_ok ht).lt (hinv.cons.nMsgs ▸ hv)
    | flushTail ht hv => exact ⟨fun hno => absurd trivial hno, fun _ => ⟨p, rfl⟩, rfl⟩
    -- the head is set as soon as the tail is
    | flushHeadError hv =>
      obtain ⟨-, -, -, hlt⟩ := h.flush2 hinv
      exact absurd hlt (hinv.cons.nMsgs ▸ hv)
    | flushHead hv =>
      obtain ⟨-, hhead, -, -⟩ := h.flush2 hinv
      exact ⟨fun hno => absurd trivial hno, fun _ => ⟨p, rfl⟩, hlocked, hhead⟩
    | flushTaken ht =>
      exact ⟨fun _ => ⟨id, fun _ _ => hn.ne_invalid hreads.2.2, trivial⟩, False.elim, trivial⟩
    -- no one else has touched the tail
    | flushLost ht => exact absurd hlocked.1 ht
    | _ => exact hflush.elim
  · obtain rfl := htp hflush
    have hpop := hs.popOnly hn hinv hlo (h.popOnly hflush)
    refine ⟨fun _ => hpop, fun hin => absurd hin hpop.noFlush, ?_⟩
    cases cph' with
    | flush2 c tail => exact absurd trivial hpop.noFlush
    | flush3 c tail head => exact absurd trivial hpop.noFlush
    | _ => trivial

/-- A flush makes three operations. -/
theorem ConsumerStep.flushed (h : Secluded r tp ph cph m) (hs : ConsumerStep cph m cph' m' o) :
    cph'.inFlush → cph.inFlush ∧ o = .silent ∧ cph'.flushed = cph.flushed + 1 := by
  intro hin
  cases hs with
  | flushTail | flushHead => exact ⟨trivial, rfl, rfl⟩
  | flushLost ht => exact absurd h.locked.1 ht
  | _ => exact hin.elim

end points

section steps

variable {β : Type} {n : Nat} {r r' : Ring} {tp : Nat} {ph ph' : ProducerPhase}
  {cph cph' : ConsumerPhase} {s s' : QueueState β} {e : QueueEvent β} {o : QueueOutcome}

/-- A push that is about to jump over a consumed tail finds it unchanged or at another slot. -/
theorem PopOnly.flushSafe (hn : SizeOk n) (hinv : QueueInv n r ph cph s.mem)
    (hd : Delivery n r tp ph s) (h : PopOnly r tp ph cph s.mem) (hph : s.prod = ph.thread) :
    FlushSafe s .prodStep := by
  intro o ho
  rw [hph] at ho
  -- The condition concerns the three exchanges; the others satisfy it at once.
  cases ph with
  | first1 | first2 | first3 | enq1 | enq2 | enq3 | requeue | tryLoad | forceLoad =>
    cases ho
    trivial
  | idle p => cases ho
  | move p next tail =>
    cases ho
    intro hc
    obtain ⟨hp, -, -, -, rfl⟩ := hinv.ring
    rw [hn.consumed (hp.lt _)] at hc
    cases hc
  | moveFull p next tail =>
    cases ho
    intro hc
    obtain ⟨-, -, -, -, -, hno⟩ := hinv.ring
    rw [hno] at hc
    cases hc
  -- the tail has been consumed by a pop, which leaves the slot to the producer
  | jumping p tail =>
    cases ho
    intro _
    obtain ⟨hp, hhead, -, hslot, -⟩ := hinv.ring
    refine h.moving.imp_right fun hlt heq => ?_
    have htp := hd.at_lo hp.toRingPath (hhead ▸ hn.ne_invalid hp.current_lt) (heq.trans hslot)
    exact absurd htp (Nat.ne_of_gt hlt)

/-- A flush that is about to look up the head finds the end of the list. -/
theorem Secluded.headOk (hn : SizeOk n) (hinv : QueueInv n r ph cph s.mem)
    (h : Secluded r tp ph cph s.mem) (hcph : s.cons = cph.thread)
    (hnext : s.cons.nextOp = some .headLoad) :
    s.mem.head ≠ indexInvalid ∧ s.mem.chain s.mem.head ≠ s.mem.tail.slot := by
  rw [hcph] at hnext
  cases cph with
  | flush2 c tail =>
    obtain ⟨htail, -, hlast, hlt⟩ := h.flush2 hinv
    refine ⟨hn.ne_invalid hlt, ?_⟩
    rw [hlast]
    exact (hn.ne_invalid htail.lt).symm
  | _ => cases hnext

/-- While the producer is idle the head loaded by a flush stays the newest message. -/
theorem Secluded.headNew (hn : SizeOk n) (hinv : QueueInv n r ph cph s.mem)
    (h : Secluded r tp ph cph s.mem) : HeadNew cph s.mem := by
  rintro c tail rfl -
  obtain ⟨htail, -, hlast, -⟩ := h.flush2 hinv
  rw [hlast]
  exact (hn.ne_invalid htail.lt).symm

/-- Each step is safe. -/
theorem Secluded.safe (hn : SizeOk n) (hinv : QueueInv n r ph cph s.mem)
    (hd : Delivery n r tp ph s) (h : Secluded r tp ph cph s.mem) (hph : s.prod = ph.thread)
    (hcph : s.cons = cph.thread) (e : QueueEvent β) : FlushSafe s e ∧ FlushFindsHead s e := by
  cases e with
  | prodStep =>
    refine ⟨?_, trivial⟩
    by_cases hflush : cph.inFlush
    · obtain ⟨p, rfl⟩ := h.alone hflush
      intro o ho
      rw [hph] at ho
      cases ho
    · exact (h.popOnly hflush).flushSafe hn hinv hd hph
  | consStep =>
    exact ⟨fun hnext _ => (h.headOk hn hinv hcph hnext).2, fun hnext => (h.headOk hn hinv hcph hnext).1⟩
  | _ => exact ⟨trivial, trivial⟩

/-- What holds along a run in which flushes are kept apart from pushes. -/
structure ApartInv (n : Nat) (r : Ring) (tp : Nat) (ph : ProducerPhase) (cph : ConsumerPhase)
    (k : Nat) (s : QueueState β) : Prop where
  delivery : Delivery n r tp ph s
  follows : Follows n r tp ph.queue.overrun s cph
  secluded : Secluded r tp ph cph s.mem
  flushed : cph.inFlush → k = cph.flushed

/-- One step, if no flush overlaps a push. -/
theorem QueueStep.apart (hn : SizeOk n) {k : Nat} (hinv : QueueInv n r ph cph s.mem)
    (h : ApartInv n r tp ph cph k s) (hph : s.prod = ph.thread) (hcph : s.cons = cph.thread)
    (hok : FlushApart s e) (hs : QueueStep s r ph cph e r' ph' cph' s' o) :
    ∃ tp', ApartInv n r' tp' ph' cph' (popSteps k (e, o)) s' := by
  obtain ⟨hd, hf, hsec, hk⟩ := h
  cases hs with
  | @write p _ x hlt =>
    refine ⟨tp, hd.write hinv x, hf.write hinv hd x, ⟨fun hno => ?_, hsec.alone, hsec.locked⟩, hk⟩
    exact ⟨hno, (hsec.popOnly hno).holder, trivial⟩
  -- no flush is going on when a push is called
  | @push p _ op =>
    have hno : ¬ cph.inFlush := by
      intro hin
      rw [FlushApart, hcph, ConsumerPhase.isIn_flush.mpr hin] at hok
      cases hok
    refine ⟨tp, hd.push hinv op, ?_, ⟨fun _ => ⟨hno, ?_, ?_⟩, fun hin => absurd hin hno, hsec.locked⟩,
      fun hin => absurd hin hno⟩
    · rw [ProducerPhase.queue_call]
      exact Follows.push hinv hf op
    · rw [ProducerPhase.queue_call]
      exact (hsec.popOnly hno).holder
    · unfold ProducerPhase.call
      split
      · trivial
      · cases op <;> trivial
  -- a flush has the queue to itself
  | prodStep hs =>
    have hno : ¬ cph.inFlush := by
      intro hin
      obtain ⟨p, rfl⟩ := hsec.alone hin
      cases hs
    have hpop := hsec.popOnly hno
    refine ⟨_, hs.delivery hn hinv hd hpop.released, hs.follows hn hinv hd hf,
      ⟨fun _ => hs.popOnly hinv hpop hn, fun hin => absurd hin hno, ?_⟩, fun hin => absurd hin hno⟩
    cases cph with
    | flush2 c tail => exact absurd trivial hno
    | flush3 c tail head => exact absurd trivial hno
    | _ => trivial
  | @pop _ c op =>
    have hpop := hsec.popOnly id
    cases op with
    -- nor is a push when a flush is called
    | flush =>
      have hidle : ∃ p, ph = .idle p := by
        rw [FlushApart, hph] at hok
        exact ProducerPhase.exists_idle hok
      refine ⟨tp, { hd with }, ?_, ⟨fun hno => absurd trivial hno, fun _ => hidle, trivial⟩, fun _ => rfl⟩
      refine hf.call ?_ ?_ ?_ .flush <;> rfl
    | pop =>
      refine ⟨tp, { hd with }, ?_, ⟨fun _ => ⟨id, hpop.holder, hpop.moving⟩, False.elim, trivial⟩,
        False.elim⟩
      refine hf.call ?_ ?_ ?_ .pop <;> rfl
  | consStep hs =>
    obtain ⟨tp', -, htp, hd', hf', -⟩ := hs.delivery hn hinv hd hf (hsec.headNew hn hinv)
    refine ⟨tp', hd', hf', hs.secluded hn hinv hd.lo_le hsec htp, fun hin => ?_⟩
    obtain ⟨hold, rfl, hnext⟩ := hs.flushed hsec hin
    show k + 1 = _
    rw [hnext, hk hold]

/-- Nothing has been pushed exactly as long as the tail is unset. -/
theorem Delivery.pushed_pos {p : ProducerQueue} (hn : SizeOk n) (hinv : QueueInv n r (.idle p) cph s.mem)
    (hd : Delivery n r tp (.idle p) s) : 0 < s.pushed ↔ s.mem.tail ≠ indexInvalid := by
  have hcount : s.pushed + n = r.hi + 1 := hd.count
  constructor
  · rintro hpos htail
    obtain ⟨hp, -, hf | hs⟩ := hinv.ring
    · have hsize := hp.size
      have hlo := hf.lo
      omega
    · exact absurd htail (hinv.shared.tail (hn.ne_invalid (hs.head_lt hp.toRingPath))).ne_invalid
  · intro htail
    have hset := (hd.set (hinv.shared.head_ne rfl htail)).1
    have hnum := hd.num_le
    omega

/-- What a flush returns, and what the consumer holds then. -/
theorem ConsumerStep.flush_result (hn : SizeOk n) (hinv : QueueInv n r ph cph s.mem)
    (hd : Delivery n r tp ph s) (hf : Follows n r tp ph.queue.overrun s cph)
    (hsec : Secluded r tp ph cph s.mem) (hin : cph.inFlush) {m' : QueueMem} {y : PopResult}
    (hs : ConsumerStep cph s.mem cph' m' (.popped y)) :
    (s.pushed = 0 → y = .noMsg ∧ (s.afterCons cph' m' (.popped y)).held = none) ∧
    (0 < s.pushed → y = .discarded ∧ ∃ c, cph' = .idle c ∧
      (s.afterCons cph' m' (.popped y)).held = some (s.pushed - 1, s.msgs c.current)) := by
  obtain ⟨p, rfl⟩ := hsec.alone hin
  have hcount : s.pushed + n = r.hi + 1 := hd.count
  have hpos := hd.pushed_pos hn hinv
  have hreads := hinv.cons.reads
  have hlocked := hsec.locked
  obtain ⟨tp', -, -, hd', -, htakes⟩ := hs.delivery hn hinv hd hf (hsec.headNew hn hinv)
  cases hs with
  | flushNoMsg ht =>
    have hhead : p.head = indexInvalid := by
      by_contra hh
      exact (hinv.shared.tail hh).ne_invalid ht
    refine ⟨fun _ => ⟨rfl, ?_⟩, fun hp => absurd ht (hpos.mp hp)⟩
    rw [htakes.keep rfl]
    exact (hd.unset hhead).2
  | @flushTaken c tail head _ ht =>
    -- the tail is at the end of the list now
    have hset : p.head ≠ indexInvalid :=
      hinv.shared.head_ne rfl (hlocked.1 ▸ hreads.1.or_consumed.ne_invalid)
    have hslot : head = r.ord tp' := by
      have hslot' := (hd'.set hset).2
      rw [show (head ||| consumedFlag).slot = head.slot from Index.slot_or_consumedFlag _,
        hn.slot hreads.2.2] at hslot'
      exact hslot'
    have hlt := (hd'.set hset).1
    have hlo := hd'.lo_le
    have hend : tp' = r.hi - 1 :=
      hinv.ring.path.nodup tp' (r.hi - 1) hlo hlt (by omega) (by omega) (hslot.symm.trans hlocked.2)
    have hnewest : 0 < s.pushed := hpos.mpr (hlocked.1 ▸ hreads.1.or_consumed.ne_invalid)
    refine ⟨fun hzero => absurd hnewest (by omega), fun _ => ⟨rfl, _, rfl, ?_⟩⟩
    obtain ⟨hnum, hheld⟩ := htakes.take rfl
    rw [hheld, ← hslot, show tp' + 1 - n = s.pushed - 1 from by omega]
  | flushError ht hv => exact absurd (hinv.shared.tail_ok ht).lt (hinv.cons.nMsgs ▸ hv)
  | flushHeadError hv =>
    obtain ⟨-, -, -, hlt⟩ := hsec.flush2 hinv
    exact absurd hlt (hinv.cons.nMsgs ▸ hv)
  | _ => exact hin.elim

end steps

/-! ## Runs -/

section runs

variable {β : Type} {n : Nat} {tr : List (QueueEvent β × QueueOutcome)} {s : QueueState β}

/-- The invariant of such runs. -/
theorem apart_run (hn : SizeOk n) (hr : (queueSystem β n).Run FlushApart tr s) :
    ∃ r ph cph, s.prod = ph.thread ∧ s.cons = cph.thread ∧ QueueInv n r ph cph s.mem ∧
      ∃ tp, ApartInv n r tp ph cph (tr.foldl popSteps 0) s := by
  refine queue_run hn (J := fun tr r ph cph s => ∃ tp, ApartInv n r tp ph cph (tr.foldl popSteps 0) s)
    ?_ ?_ hr
  · intro s p hp
    have hpop := (hp.popInv hn).popOnly
    exact ⟨n - 1, hp.delivery hn, fun hne => absurd rfl hne, ⟨fun _ => hpop, False.elim, trivial⟩,
      False.elim⟩
  · rintro tr r ph cph s e r' ph' cph' s' o hinv hph hcph ⟨tp, h⟩ hok hs
    rw [List.foldl_append]
    exact hs.apart hn hinv h hph hcph hok

/-- The steps of such a run are safe. -/
theorem FlushApart.run_safe (hn : SizeOk n) (hr : (queueSystem β n).Run FlushApart tr s) :
    (queueSystem β n).Run (fun s e => FlushSafe s e ∧ FlushFindsHead s e) tr s := by
  induction hr with
  | init h => exact .init h
  | @step tr s s' e o hr hok hs ih =>
    obtain ⟨r, ph, cph, hph, hcph, hinv, tp, h⟩ := apart_run hn hr
    exact .step ih (h.secluded.safe hn hinv h.delivery hph hcph e) hs

/-- In a run in which no flush overlaps a push, all steps are safe; a running flush returns with its
    third operation at the latest, and then the consumer holds the message pushed last, if there is
    one. -/
theorem flush_apart (h3 : 3 ≤ n) (hmax : n ≤ 2 ^ 30)
    (hr : (queueSystem β n).Run FlushApart tr s) :
    (queueSystem β n).Run (fun s e => FlushSafe s e ∧ FlushFindsHead s e) tr s ∧
    ∀ prog, s.cons = .busy .flush prog → ∃ s' o, s.step .consStep = some (s', o) ∧
      tr.foldl popSteps 0 < 3 ∧ (tr.foldl popSteps 0 = 2 → ∃ y, o = .popped y) ∧
      ∀ y, o = .popped y →
        (s.pushed = 0 → y = .noMsg ∧ s'.held = none) ∧
        (0 < s.pushed → y = .discarded ∧ ∃ c, s'.cons = .idle c ∧
          s'.held = some (s.pushed - 1, s'.msgs c.current)) := by
  have hn : SizeOk n := ⟨h3, hmax⟩
  refine ⟨FlushApart.run_safe hn hr, fun prog hbusy => ?_⟩
  obtain ⟨r, ph, cph, hph, hcph, hinv, tp, h⟩ := apart_run hn hr
  have hin : cph.inFlush := by
    rw [← ConsumerPhase.isIn_flush, ← hcph, hbusy]
    rfl
  have hk := h.flushed hin
  obtain ⟨s', o, hs⟩ := QueueState.consStep_isSome hcph hbusy
  obtain ⟨cph', m', hstep, rfl⟩ := consStep_cases hcph hs
  refine ⟨_, o, hs, ?_, ?_, ?_⟩
  · rw [hk]
    cases cph <;> exact Nat.le_of_ble_eq_true rfl
  · intro htwo
    rcases hstep.returns with ⟨rfl, hne⟩ | ⟨y, c, ho, -⟩
    · -- an operation that is not the last leads to one of the three points
      have hin' : cph'.inFlush := by
        cases hstep <;> trivial
      obtain ⟨-, -, hnext⟩ := hstep.flushed h.secluded hin'
      rw [htwo] at hk
      rw [← hk] at hnext
      cases cph' <;> cases hnext
    · exact ⟨y, ho⟩
  · rintro y rfl
    obtain ⟨hzero, hpos⟩ := hstep.flush_result hn hinv h.delivery h.follows h.secluded hin
    refine ⟨hzero, fun hp => ?_⟩
    obtain ⟨rfl, c, rfl, hheld⟩ := hpos hp
    exact ⟨rfl, c, rfl, hheld⟩

/-- Three pushes, the last one overlapped by a pop, and then a flush. -/
theorem flush_apart_third : ∃ tr s s' o c, (queueSystem Nat 3).Run FlushApart tr s ∧
    tr.foldl popSteps 0 = 2 ∧ s.step .consStep = some (s', o) ∧ o = .popped .discarded ∧
    s'.cons = .idle c ∧ s'.held = some (2, s'.msgs c.current) ∧ s'.msgs c.current = 12 := by
  obtain ⟨tr, s, hr, h⟩ := QueueState.exists_run 3 0 FlushApart
    [.write 10, .push .forcePush, .prodStep, .prodStep, .prodStep,
      .write 11, .push .forcePush, .prodStep, .prodStep, .prodStep, .prodStep,
      .write 12, .push .forcePush, .prodStep, .pop .pop, .prodStep, .consStep, .prodStep, .prodStep,
      .prodStep, .write 13, .pop .flush, .consStep, .consStep]
    (fun tr s => s.cons.isIn .flush && decide (tr.foldl popSteps 0 = 2 ∧ s.pushed = 3) &&
      (queueSystem Nat 3).leadsTo s .consStep fun s' _ => s'.cons.idleAnd fun c =>
        decide (s'.msgs c.current = 12)) (by decide)
  rw [Bool.and_eq_true, Bool.and_eq_true] at h
  obtain ⟨⟨hin, htwo⟩, hend⟩ := h
  obtain ⟨htwo, hpushed⟩ := of_decide_eq_true htwo
  obtain ⟨prog, hprog⟩ := Thread.exists_busy hin
  obtain ⟨s', o, hs, -, hret, hres⟩ := (flush_apart (by decide) (by decide) hr).2 prog hprog
  obtain ⟨y, rfl⟩ := hret htwo
  obtain ⟨rfl, c, hc, hheld⟩ := (hres y rfl).2 (by omega)
  obtain ⟨s'', o, hs', hend⟩ := Machine.exists_step hend
  cases hs.symm.trans hs'
  rw [hc] at hend
  rw [hpushed] at hheld
  exact ⟨tr, s, s', _, c, hr, htwo, hs, rfl, hc, hheld, of_decide_eq_true hend⟩

end runs

end Rtipc
