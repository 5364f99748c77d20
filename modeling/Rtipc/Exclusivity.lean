/-
  Who owns a slot, and in which order messages are delivered.

  In every run whose steps satisfy `FlushSafe` the producer's current slot is never the one the
  consumer holds, and the held slot keeps the message that was pushed from it (`slot_exclusive`); the
  held message is never replaced by an older one, and a successful pop replaces it by a newer one
  (`delivery_monotone`).

  Without the condition both fail.  `flush_drops_first` is a run in which the producer gets the very
  slot the consumer holds, `flush_goes_back` one in which a flush hands out message 0 after the pop
  before it has handed out message 1.

  Both theorems are read off the invariant of `Delivery`.  The slot the consumer holds is the one at the
  tail or the one that is kept back (`Holds`), and the producer's current slot is neither.  The held
  number only grows because every step that takes a message takes it at a position that is not before
  the tail (`Takes.heldLe`), and a successful pop takes one behind it.

  The two counterexamples are runs of three slots, the smallest queue there is.
-/
import Rtipc.Delivery

namespace Rtipc

section runs

variable {β : Type} {n : Nat} {tr : List (QueueEvent β × QueueOutcome)} {s : QueueState β}

/-- In every run with safe flushes the messages are at their positions. -/
theorem delivery_run (hn : SizeOk n) (hr : (queueSystem β n).Run FlushSafe tr s) :
    ∃ r ph cph, s.prod = ph.thread ∧ s.cons = cph.thread ∧ QueueInv n r ph cph s.mem ∧
      ∃ tp, Delivery n r tp ph s ∧ Follows n r tp ph.queue.overrun s cph := by
  refine queue_run hn (J := fun _ r ph cph s => ∃ tp, Delivery n r tp ph s ∧
    Follows n r tp ph.queue.overrun s cph) ?_ ?_ hr
  · intro s p hp
    exact ⟨n - 1, hp.delivery hn, fun hne => absurd rfl hne⟩
  · rintro tr r ph cph s e r' ph' cph' s' o hinv hph hcph ⟨tp, hd, hf⟩ hok hs
    obtain ⟨tp', hd', hf', -⟩ := hs.delivery hn hinv hd hf
      (by rintro rfl; exact hok.released hn hph hinv.ring hd)
      (by rintro rfl; exact hok.headNew hcph)
    exact ⟨tp', hd', hf'⟩

/-- Between two pushes and between two pops or flushes the producer has a slot, the consumer does not
    hold that slot, and the slot it holds contains the message that was pushed from it. -/
theorem slot_exclusive (h3 : 3 ≤ n) (hn : n ≤ 2 ^ 30)
    (hr : (queueSystem β n).Run FlushSafe tr s) {p : ProducerQueue} {c : ConsumerQueue}
    (hp : s.prod = .idle p) (hc : s.cons = .idle c) :
    p.msg ≠ none ∧ ∀ i, c.msg = some i →
      p.msg ≠ some i ∧ ∃ k, s.held = some (k, s.msgs i) := by
  have hsize : SizeOk n := ⟨h3, hn⟩
  obtain ⟨r, ph, cph, hph, hcph, hinv, tp, hd, hf⟩ := delivery_run hsize hr
  obtain rfl := ProducerPhase.thread_eq_idle (hph.symm.trans hp)
  obtain rfl := ConsumerPhase.thread_eq_idle (hcph.symm.trans hc)
  have hbefore := hinv.ring.1
  have hmsg : p.msg = some p.current :=
    queueGetMsg_of_lt (hbefore.nMsgs.symm ▸ hbefore.current_lt)
  refine ⟨by simp [hmsg], fun i hi => ?_⟩
  have hne : c.current ≠ indexInvalid := by
    intro hinvalid
    rw [ConsumerQueue.msg, if_pos hinvalid] at hi
    cases hi
  rw [ConsumerQueue.msg, if_neg hne] at hi
  obtain ⟨rfl, -⟩ := queueGetMsg_eq_some hi
  have hholds := hf hne
  have hset : p.head ≠ indexInvalid := fun hh => hne (hinv.cons.unset (hinv.shared.unset hh))
  refine ⟨?_, ?_⟩
  · rw [hmsg]
    exact fun he => hholds.ne_current hbefore hd hset (Option.some.inj he).symm
  · obtain ⟨k, hk, -⟩ := hholds.held
    exact ⟨k, hk⟩

/-- A queue of three slots, overrun by the producer while the consumer holds slot 0. -/
theorem slot_exclusive_overrun :
    ∃ tr s p c, (queueSystem Nat 3).Run FlushSafe tr s ∧ s.prod = .idle p ∧ s.cons = .idle c ∧
      c.msg = some 0 ∧ p.overrun = 0 ∧ p.msg ≠ some 0 ∧ ∃ k, s.held = some (k, s.msgs 0) := by
  obtain ⟨tr, s, hr, h⟩ := QueueState.exists_run 3 0 FlushSafe
    [.write 10, .push .forcePush, .prodStep, .prodStep, .prodStep, .pop .pop, .consStep,
      .write 11, .push .forcePush, .prodStep, .prodStep, .prodStep, .prodStep,
      .write 12, .push .forcePush, .prodStep, .prodStep, .prodStep, .prodStep, .prodStep]
    (fun _ s => s.prod.idleAnd fun p => s.cons.idleAnd fun c =>
      decide (c.msg = some 0 ∧ p.overrun = 0)) (by decide)
  obtain ⟨p, hp, h⟩ := Thread.exists_idle h
  obtain ⟨c, hc, h⟩ := Thread.exists_idle h
  obtain ⟨hmsg, hover⟩ := of_decide_eq_true h
  exact ⟨tr, s, p, c, hr, hp, hc, hmsg, hover,
    (slot_exclusive (by decide) (by decide) hr hp hc).2 0 hmsg⟩

/-- The third push finds the queue full and the tail consumed, and is about to jump over slot 0.  The
    flush then moves the tail from slot 0 to slot 0, which drops the first flag; the push takes this
    for a released slot, and producer and consumer both have slot 0. -/
theorem flush_drops_first :
    ∃ tr s p c, (queueSystem Nat 3).Run Machine.always tr s ∧ s.prod = .idle p ∧
      s.cons = .idle c ∧ p.msg = some 0 ∧ c.msg = some 0 := by
  obtain ⟨tr, s, hr, h⟩ := QueueState.exists_run 3 0 Machine.always
    [.push .forcePush, .prodStep, .prodStep, .prodStep,
      .push .forcePush, .prodStep, .prodStep, .pop .flush, .consStep, .consStep, .prodStep,
      .prodStep, .push .forcePush, .prodStep, .prodStep, .prodStep, .prodStep, .consStep, .prodStep]
    (fun _ s => s.prod.idleAnd fun p => s.cons.idleAnd fun c =>
      decide (p.msg = some 0 ∧ c.msg = some 0)) (by decide)
  obtain ⟨p, hp, h⟩ := Thread.exists_idle h
  obtain ⟨c, hc, h⟩ := Thread.exists_idle h
  obtain ⟨hmsg, hmsg'⟩ := of_decide_eq_true h
  exact ⟨tr, s, p, c, hr, hp, hc, hmsg, hmsg'⟩

/-- One step never takes the held message back, and a pop that succeeds makes it newer. -/
theorem held_step (hn : SizeOk n) (hr : (queueSystem β n).Run FlushSafe tr s)
    {e : QueueEvent β} {s' : QueueState β} {o : QueueOutcome} (hok : FlushSafe s e)
    (hs : (queueSystem β n).step s e = some (s', o)) :
    HeldLe s.held s'.held ∧
    (o.isTaken = true → (∃ prog, s.cons = .busy .pop prog) → HeldLt s.held s'.held) := by
  obtain ⟨r, ph, cph, hph, hcph, hinv, tp, hd, hf⟩ := delivery_run hn hr
  obtain ⟨r', ph', cph', hstep, -, -⟩ := queueStep_cases hn hph hcph hinv.ring hs
  obtain ⟨tp', -, -, hle, hlt⟩ := hstep.delivery hn hinv hd hf
    (by rintro rfl; exact hok.released hn hph hinv.ring hd)
    (by rintro rfl; exact hok.headNew hcph)
  refine ⟨hle, fun ho ⟨prog, hprog⟩ => hlt ho fun hflush => ?_⟩
  rw [hcph] at hprog
  cases cph <;> first | exact hflush | cases hprog

/-- The number of the held message never decreases in the rest of a run, and a pop that returns success
    or discarded increases it. -/
theorem delivery_monotone (h3 : 3 ≤ n) (hn : n ≤ 2 ^ 30)
    (hr : (queueSystem β n).Run FlushSafe tr s) :
    (∀ s', (queueSystem β n).Leads FlushSafe s s' → HeldLe s.held s'.held) ∧
    (∀ e s' q, FlushSafe s e → (queueSystem β n).step s e = some (s', .popped q) →
      (q = .success ∨ q = .discarded) → (∃ prog, s.cons = .busy .pop prog) →
      HeldLt s.held s'.held) := by
  have hsize : SizeOk n := ⟨h3, hn⟩
  refine ⟨fun s' hl => ?_, fun e s' q hok hs hq => ?_⟩
  · refine hl.relation (P := fun s s' => HeldLe s.held s'.held) (fun s => .refl _)
      (fun s t u (h : HeldLe s.held t.held) (h' : HeldLe t.held u.held) => h.trans h') ?_ hr
    intro tr t e t' o hr' hok hs
    exact (held_step hsize hr' hok hs).1
  · exact (held_step hsize hr hok hs).2 (decide_eq_true hq)

end runs

/-- Two pushes, two pops and a flush in between. -/
theorem delivery_monotone_two_pops :
    ∃ tr s s', (queueSystem Nat 3).Run FlushSafe tr s ∧
      (queueSystem Nat 3).step s .consStep = some (s', .popped .success) ∧
      s.held = some (0, 10) ∧ HeldLt s.held s'.held := by
  obtain ⟨tr, s, hr, h⟩ := QueueState.exists_run 3 0 FlushSafe
    [.write 10, .push .forcePush, .prodStep, .prodStep, .prodStep, .pop .pop, .consStep,
      .pop .flush, .consStep, .consStep, .consStep,
      .write 11, .push .forcePush, .prodStep, .prodStep, .prodStep, .prodStep,
      .pop .pop, .consStep, .consStep]
    (fun _ s => (queueSystem Nat 3).leadsTo s .consStep fun _ o => decide (s.cons.isIn .pop = true ∧
      o = .popped .success ∧ FlushSafe s .consStep ∧ s.held = some (0, 10))) (by decide)
  obtain ⟨s', o, hs, h⟩ := Machine.exists_step h
  obtain ⟨hpop, rfl, hok, hheld⟩ := of_decide_eq_true h
  exact ⟨tr, s, s', hr, hs, hheld, (delivery_monotone (by decide) (by decide) hr).2 _ _ _ hok hs
    (Or.inl rfl) (Thread.exists_busy hpop)⟩

/-- The second push has appended message 1 but not yet announced it.  A pop takes it, and the flush
    after it goes back to the head word: message 0 is handed out again. -/
theorem flush_goes_back :
    ∃ tr s s', (queueSystem Nat 3).Run Machine.always tr s ∧
      (queueSystem Nat 3).step s .consStep = some (s', .popped .discarded) ∧
      s.held = some (1, 11) ∧ s'.held = some (0, 10) := by
  obtain ⟨tr, s, hr, h⟩ := QueueState.exists_run 3 0 Machine.always
    [.write 10, .push .forcePush, .prodStep, .prodStep, .prodStep,
      .write 11, .push .forcePush, .prodStep, .prodStep,
      .pop .pop, .consStep, .pop .pop, .consStep, .consStep, .consStep,
      .pop .flush, .consStep, .consStep]
    (fun _ s => (queueSystem Nat 3).leadsTo s .consStep fun s' o => decide
      (o = .popped .discarded ∧ s.held = some (1, 11) ∧ s'.held = some (0, 10))) (by decide)
  obtain ⟨s', o, hs, h⟩ := Machine.exists_step h
  obtain ⟨rfl, hheld, hheld'⟩ := of_decide_eq_true h
  exact ⟨tr, s, s', hr, hs, hheld, hheld'⟩

end Rtipc
