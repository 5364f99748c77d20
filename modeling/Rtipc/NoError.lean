/-
  Where a call reports an error.

  `RI_*_ERROR` means that the channel is unusable.  It comes from an index check that fails, or from a
  pop that finds the tail consumed while the consumer holds nothing.  The producer's checks never fail
  (`ProducerStep.not_error`).  The consumer's can: the very first push sets the tail before it stores
  the head, and a flush between the two stores finds a tail but no head.  It returns an error, and as
  it has marked the tail consumed, so does every pop after it (`first_push_flush_error`).

  This is the only way: as long as no flush looks up the head before there is one
  (`FlushFindsHead`), no call returns an error (`queue_no_error`).

  1. **The producer.**  It checks the tail that it has read, and nothing else.  `ProducerStep.not_error`
     says that the checks succeed in every state of the invariant.

  2. **The consumer.**  `ConsumerStep.error_cases` lists the steps that return an error.  There are two
     kinds: the flush that looks up the head when there is none, and a pop that finds the tail consumed
     and has not taken a message.

  3. **The run.**  A tail is not consumed before the consumer holds a message (`ConsumerPhase.NoneYet`).
     This is kept by every step if flushes find a head, and with it neither kind of error can come.
-/
import Rtipc.QueueRun

namespace Rtipc

/-- An error result. -/
def QueueOutcome.isError : QueueOutcome → Bool
  | silent => false
  | pushed r => decide (r = .forcePush .error ∨ r = .tryPush .error)
  | popped r => decide (r = .error)

/-- When a flush looks up the head, there is one. -/
def FlushFindsHead {β : Type} (s : QueueState β) : QueueEvent β → Prop
  | .consStep => s.cons.nextOp = some .headLoad → s.mem.head ≠ indexInvalid
  | _ => True

instance {β : Type} (s : QueueState β) (e : QueueEvent β) : Decidable (FlushFindsHead s e) := by
  cases e <;> unfold FlushFindsHead <;> infer_instance

/-- A tail that is set is not consumed before the consumer holds a message. -/
def ConsumerPhase.NoneYet (m : QueueMem) : ConsumerPhase → Prop
  | .idle c | .pop1 c | .flush1 c =>
      c.current = indexInvalid → m.tail ≠ indexInvalid → m.tail.consumed = false
  | _ => True

section steps

variable {n : Nat} {r : Ring} {ph ph' : ProducerPhase} {cph cph' : ConsumerPhase} {m m' : QueueMem}
  {o : QueueOutcome}

/-- No push returns an error. -/
theorem ProducerStep.not_error (hn : SizeOk n) (h : QueueInv n r ph cph m)
    (hs : ProducerStep ph m ph' m' o) : o.isError = false := by
  cases hs with
  | tryError hv => exact absurd (h.ring.tryLoad_valid hn h.shared) hv
  | loadError hv => exact absurd (h.ring.forceLoad_valid hn h.shared) hv
  | @first3 op => cases op <;> rfl
  | @requeue op => cases op <;> rfl
  | _ => rfl

/-- A step of the producer does not make a pop find the invalid index. -/
theorem ProducerStep.noneYet (hn : SizeOk n) (h : QueueInv n r ph cph m) (hc : cph.NoneYet m)
    (hs : ProducerStep ph m ph' m' o) : cph.NoneYet m' := by
  have hkeep : ∀ c : ConsumerQueue,
      (c.current = indexInvalid → m.tail ≠ indexInvalid → m.tail.consumed = false) →
      c.current = indexInvalid → m'.tail ≠ indexInvalid → m'.tail.consumed = false := by
    intro c hc hcur hne
    rcases hs.tail hn h.ring h.shared with htail | ⟨-, -, hcons⟩ | hlt
    · rw [htail] at hne ⊢
      exact hc hcur hne
    · exact hcons
    · exact hn.consumed hlt
  cases cph with
  | idle c => exact hkeep c hc
  | pop1 c => exact hkeep c hc
  | flush1 c => exact hkeep c hc
  | _ => trivial

/-- The calls of the consumer that end in an error: a pop that finds the tail consumed while it holds
    nothing, and a flush that finds no head. -/
theorem ConsumerStep.error_cases (hn : SizeOk n) (h : QueueInv n r ph cph m)
    (hs : ConsumerStep cph m cph' m' o) (ho : o.isError = true) :
    (∃ c, cph = .pop1 c ∧ c.current = indexInvalid ∧ m.tail ≠ indexInvalid ∧
      m.tail.consumed = true) ∨
    (∃ c tail, cph = .flush2 c tail ∧ m.head = indexInvalid) := by
  have hc := h.cons
  cases hs with
  | popError ht hv => exact absurd (h.shared.tail_ok ht).lt (hc.nMsgs ▸ hv)
  | popTail ht hv hcons =>
    cases hf : m.tail.first <;> rw [hf] at ho <;> cases ho
  | popNone ht hv hcons hcur => exact Or.inl ⟨_, rfl, hcur, ht, hcons⟩
  | @popNextError c tail _ hne hv =>
    exact absurd (h.next_lt hc.reads.1 hne) (hc.nMsgs ▸ hv)
  | popMovedError hv => exact absurd hc.reads.2 (hc.nMsgs ▸ hv)
  | flushError ht hv => exact absurd (h.shared.tail_ok ht).lt (hc.nMsgs ▸ hv)
  | @flushHeadError c tail _ hv =>
    right
    refine ⟨c, tail, rfl, ?_⟩
    by_contra hne
    exact absurd (h.head_lt hn hne) (hc.nMsgs ▸ hv)
  | _ => cases ho

/-- A step of the consumer that reports no error. -/
theorem ConsumerStep.noneYet (hn : SizeOk n) (h : QueueInv n r ph cph m) (hc : cph.NoneYet m)
    (hs : ConsumerStep cph m cph' m' o) (ho : o.isError = false) : cph'.NoneYet m' := by
  have hreads := h.cons.reads
  cases hs with
  -- the tail is still unset, flag and all
  | popNoMsg ht =>
    intro _ hne
    rw [ht] at hne
    exact absurd Index.indexInvalid_or_consumedFlag hne
  | popTail ht hv hcons =>
    intro hcur
    exact absurd hcur (hn.ne_invalid (h.shared.tail_ok ht).lt)
  | popNoUpdate =>
    intro hcur
    exact absurd hcur hreads.1
  | popTaken =>
    intro hcur
    exact absurd hcur (hn.ne_invalid hreads.2.2.2.2)
  | popMoved hv =>
    intro hcur
    exact absurd hcur (hn.ne_invalid hreads.2)
  | flushNoMsg ht =>
    intro _ hne
    rw [ht] at hne
    exact absurd Index.indexInvalid_or_consumedFlag hne
  | flushTaken =>
    intro hcur
    exact absurd hcur (hn.ne_invalid hreads.2.2)
  -- the producer has moved the tail, which clears the flag
  | flushLost ht =>
    intro _ _
    exact hn.consumed (hreads.2.1.resolve_left ht)
  | popError => cases ho
  | popNone => cases ho
  | popNextError => cases ho
  | popMovedError => cases ho
  | flushError => cases ho
  | flushHeadError => cases ho
  | _ => trivial

end steps

/-! ## Runs -/

/-- A pop that has not performed an operation yet. -/
theorem ConsumerPhase.thread_eq_pop1 {n : Nat} (hn : SizeOk n) {cph : ConsumerPhase}
    {c : ConsumerQueue} (hq : cph.queue.nMsgs = n)
    (h : cph.thread = .busy .pop (codePop1 c)) : cph = .pop1 c := by
  -- what the code does with an unset tail tells the points apart that start with a fetch-or
  have hk : ∀ k k' : Index → QueueProg (ConsumerQueue × Loop PopResult),
      (Thread.busy PopOp.pop (.act (.tailFetchOr consumedFlag) k) : ConsumerThread) =
        .busy .pop (.act (.tailFetchOr consumedFlag) k') → k indexInvalid = k' indexInvalid := by
    intro k k' h
    cases h
    rfl
  cases cph with
  | pop1 c' =>
    have h' := hk _ _ h
    rw [if_pos rfl, if_pos rfl] at h'
    cases h'
    rfl
  | pop4 c' =>
    have h' := hk _ _ h
    have hv : ¬ indexInvalid.toNat < c'.nMsgs := by
      have h1 : c'.nMsgs = n := hq
      have h2 := hn.le_two_pow
      rw [Index.toNat_indexInvalid]
      omega
    rw [if_pos hv, if_pos rfl] at h'
    cases h'
  | _ => cases h

section runs

variable {β : Type} {n : Nat} {tr : List (QueueEvent β × QueueOutcome)} {s : QueueState β}

/-- No error is reported in any run in which no flush loads a head that is unset. -/
theorem noError_run (hsize : SizeOk n) (hr : (queueSystem β n).Run FlushFindsHead tr s) :
    ∃ r ph cph, s.prod = ph.thread ∧ s.cons = cph.thread ∧ QueueInv n r ph cph s.mem ∧
      (∀ eo ∈ tr, eo.2.isError = false) ∧ cph.NoneYet s.mem := by
  refine queue_run hsize
    (J := fun tr _ _ cph s => (∀ eo ∈ tr, eo.2.isError = false) ∧ cph.NoneYet s.mem) ?_ ?_ hr
  · intro s p hp
    refine ⟨fun _ h => (by cases h), fun _ hne => absurd hp.memTail hne⟩
  · rintro tr r ph cph s e r' ph' cph' s' o hinv hph hcph ⟨herr, hnone⟩ hok hs
    -- Only the last step can be the first to report an error.
    have hlast : o.isError = false → ∀ eo ∈ tr ++ [(e, o)], eo.2.isError = false := by
      intro ho eo hmem
      rcases List.mem_append.mp hmem with hmem | hmem
      · exact herr eo hmem
      · rw [List.mem_singleton.mp hmem]
        exact ho
    cases hs with
    | write hlt => exact ⟨hlast rfl, hnone⟩
    | push => exact ⟨hlast rfl, hnone⟩
    | prodStep hs => exact ⟨hlast (hs.not_error hsize hinv), hs.noneYet hsize hinv hnone⟩
    | @pop _ c op =>
      refine ⟨hlast rfl, ?_⟩
      cases op <;> exact hnone
    | consStep hs =>
      have ho : o.isError = false := by
        by_contra ho
        -- An error is a consumed tail with nothing held, or a head that is unset.
        rcases hs.error_cases hsize hinv (by simpa using ho) with
          ⟨c, rfl, hcur, hne, hcons⟩ | ⟨c, tail, rfl, hhead⟩
        · rw [hnone hcur hne] at hcons
          cases hcons
        · exact hok (by rw [hcph]; rfl) hhead
      exact ⟨hlast ho, hs.noneYet hsize hinv hnone ho⟩

/-- In a run in which every flush that looks up the head finds one, no call ever returns an error:
    every tail and head word that is set names a slot, and a pop never finds the tail consumed while
    the consumer holds nothing. -/
theorem queue_no_error (h3 : 3 ≤ n) (hn : n ≤ 2 ^ 30)
    (hr : (queueSystem β n).Run FlushFindsHead tr s) :
    (∀ eo ∈ tr, eo.2.isError = false) ∧
    (s.mem.tail ≠ indexInvalid → s.mem.tail.slot.toNat < n) ∧
    (s.mem.head ≠ indexInvalid → s.mem.head.toNat < n) ∧
    (∀ c, s.cons = .busy .pop (PopOp.pop.prog c) → c.current = indexInvalid →
      s.mem.tail ≠ indexInvalid → s.mem.tail.consumed = false) := by
  have hsize : SizeOk n := ⟨h3, hn⟩
  obtain ⟨r, ph, cph, -, hcph, hinv, herr, hnone⟩ := noError_run hsize hr
  refine ⟨herr, fun ht => (hinv.shared.tail_ok ht).lt, hinv.head_lt hsize, ?_⟩
  intro c hc hcur hne
  have hcph' := hcph.symm.trans hc
  rw [ConsumerPhase.code_pop] at hcph'
  obtain rfl := ConsumerPhase.thread_eq_pop1 hsize hinv.cons.nMsgs hcph'
  exact hnone hcur hne

end runs

/-- A push completed, then a pop and a flush: no error. -/
theorem queue_no_error_push_pop_flush :
    ∃ tr s, (queueSystem Nat 3).Run FlushFindsHead tr s ∧ tr.length = 12 ∧
      ∀ eo ∈ tr, eo.2.isError = false := by
  obtain ⟨tr, s, hr, hlen⟩ := QueueState.exists_run 3 0 FlushFindsHead
    [.write 7, .push .forcePush, .prodStep, .prodStep, .prodStep, .pop .pop, .consStep,
      .pop .flush, .consStep, .consStep, .consStep, .push .tryPush]
    (fun tr _ => decide (tr.length = 12)) (by decide)
  exact ⟨tr, s, hr, of_decide_eq_true hlen, (queue_no_error (by decide) (by decide) hr).1⟩

/-- The first push has set the tail but not yet stored the head: a flush returns an error, and so does
    the pop after it, although the push has completed by then. -/
theorem first_push_flush_error :
    ∃ tr s, (queueSystem Nat 3).Run Machine.always tr s ∧
      tr.drop 5 = [(.consStep, .popped .error), (.prodStep, .pushed (.forcePush .success)),
        (.pop .pop, .silent), (.consStep, .popped .error)] := by
  obtain ⟨tr, s, hr, h⟩ := QueueState.exists_run 3 0 Machine.always
    [.push .forcePush, .prodStep, .prodStep, .pop .flush, .consStep, .consStep, .prodStep,
      .pop .pop, .consStep]
    (fun tr _ => decide (tr.drop 5 =
      [(.consStep, .popped .error), (.prodStep, .pushed (.forcePush .success)),
        (.pop .pop, .silent), (.consStep, .popped .error)])) (by decide)
  exact ⟨tr, s, hr, of_decide_eq_true h⟩

end Rtipc
