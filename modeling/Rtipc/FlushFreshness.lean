/-
  What a flush takes, and how often it tries.

  The part of a run from the call of a flush on is recorded with two marks: a pass of the loop of
  `ri_consumer_queue_flush` begins, the producer moves the tail (`flushMarks`).  In any run a pass is
  repeated only after the producer has moved the tail (`flush_passes_le`).

  In a run whose steps satisfy `FlushSafe` a flush that returns discarded takes a message that is not
  older than the last one pushed before the call, from a slot that is then still in the queue
  (`flush_fresh`): the head it reads was announced after the call (`HeadSince`), and a producer that
  has moved the tail in between has cleared the consumed flag, so that the flush tries again.  Without
  the condition the slot can be one the producer has got back (`flush_takes_current`).

  Two invariants are kept from the call of the flush on.  `Tries` counts passes and moves: a pass that
  has failed has seen the tail change, and the change was the producer's.  `HeadSince` remembers the
  number of the newest message at the call: the head was read later, and heads only grow.

  At the end the exchange succeeds.  Then the tail is what the flush had loaded with its flag, so the
  producer has not moved it since; what was the head is still on the chain behind the tail (`Follows`),
  and not the producer's current slot (`RingInv.current_off`).
-/
import Mathlib.Logic.Function.Iterate
import Rtipc.Exclusivity

namespace Rtipc

/-! ## How fresh a flush is, and how often it passes -/

/-- What is counted while a flush runs. -/
inductive FlushMark where
  | pass
  | moved
  deriving DecidableEq, Repr

section defs

variable {β : Type}

/-- The producer moves the tail by a compare-exchange that succeeds. -/
def prodMarks (s : QueueState β) : List FlushMark :=
  match s.prod.nextOp with
  | some (.tailCompareExchange expected _) => if s.mem.tail = expected then [.moved] else []
  | _ => []

/-- A pass of the loop begins with the fetch-or of the tail. -/
def consMarks (s : QueueState β) : List FlushMark :=
  match s.cons.nextOp with
  | some (.tailFetchOr _) => [.pass]
  | _ => []

/-- The marks of a step: a pass of the flush begins, or the producer moves the tail. -/
def flushMarks (s : QueueState β) (e : QueueEvent β) (_ : QueueState β) (_ : QueueOutcome) :
    List FlushMark :=
  match e with
  | .prodStep => prodMarks s
  | .consStep => consMarks s
  | _ => []

/-- Any step but a call of the consumer. -/
def NoCall (_ : QueueState β) : QueueEvent β → Prop
  | .pop _ => False
  | _ => True

instance (s : QueueState β) : (e : QueueEvent β) → Decidable (NoCall s e)
  | .pop _ => isFalse id
  | .write _ | .push _ | .prodStep | .consStep => isTrue trivial

/-- The slot `i` is part of the queue: the chain leads to it from the tail, and it is not the producer's
    current slot, unless the running push has appended that already. -/
def InQueue (s : QueueState β) (i : Index) : Prop :=
  (∃ k, Nat.iterate s.mem.chain k s.mem.tail.slot = i) ∧
  ∃ ph : ProducerPhase, s.prod = ph.thread ∧ (ph.pending = 1 → ph.queue.current ≠ i)

/-- How many passes have begun and how often the producer has moved the tail. -/
def Tries (m : QueueMem) (passes moves : Nat) : ConsumerPhase → Prop
  | .flush1 _ => passes ≤ moves
  | .flush2 _ tail | .flush3 _ tail _ => passes ≤ 1 + moves ∧
      (m.tail = tail ||| consumedFlag ∨ passes ≤ moves)
  | .idle _ => passes ≤ 1 + moves
  | _ => False

/-- If the tail has not been moved, the head that a flush has read is the slot of a message with number
    `b - 1` or a newer one. -/
def HeadSince (b : Nat) (s : QueueState β) : ConsumerPhase → Prop
  | .flush3 _ tail head => s.mem.tail = tail ||| consumedFlag →
      ∃ k x, s.stamp head = some (k, x) ∧ b ≤ k + 1
  | _ => True

end defs

/-! ## The passes of the loop

  A pass that does not end the flush has seen the tail move, and only the producer moves it. -/

section passes

variable {β : Type} {n : Nat} {r : Ring} {ph ph' : ProducerPhase} {cph cph' : ConsumerPhase}
  {s s' : QueueState β} {m' : QueueMem} {o : QueueOutcome} {passes moves : Nat}

/-- A step of the producer leaves the tail, sets it for the first time, or is recorded. -/
theorem ProducerStep.marks (hring : RingInv n r ph) (hph : s.prod = ph.thread)
    (hs : ProducerStep ph s.mem ph' m' o) :
    m'.tail = s.mem.tail ∨ ph.queue.head = indexInvalid ∨ prodMarks s = [.moved] := by
  have hmark : ∀ {op : PushOp} {expected desired : Index} {f : Bool → _},
      ph.thread = .busy op (.act (.tailCompareExchange expected desired) f) →
      s.mem.tail = expected → prodMarks s = [.moved] := by
    intro op expected desired f hthread ht
    rw [prodMarks, hph, hthread]
    exact if_pos ht
  cases hs with
  | first2 => exact Or.inr (Or.inl hring.2.2.1)
  | moved ht => exact Or.inr (Or.inr (hmark rfl ht))
  | movedFull ht => exact Or.inr (Or.inr (hmark rfl ht))
  | overran ht => exact Or.inr (Or.inr (hmark rfl ht))
  | _ => exact Or.inl rfl

/-- The producer begins no pass. -/
theorem prodMarks_pass (s : QueueState β) : (prodMarks s).count .pass = 0 := by
  unfold prodMarks
  split
  · split <;> rfl
  · rfl

/-- A step of the producer may move the tail under the flush. -/
theorem Tries.prodStep (hinv : QueueInv n r ph cph s.mem) (hph : s.prod = ph.thread)
    (h : Tries s.mem passes moves cph) (hs : ProducerStep ph s.mem ph' m' o) :
    Tries m' passes (moves + (prodMarks s).count .moved) cph := by
  have hmarks := hs.marks hinv.ring hph
  have hloop : ∀ tail, TailOk n tail → passes ≤ 1 + moves ∧
      (s.mem.tail = tail ||| consumedFlag ∨ passes ≤ moves) →
      passes ≤ 1 + (moves + (prodMarks s).count .moved) ∧
      (m'.tail = tail ||| consumedFlag ∨ passes ≤ moves + (prodMarks s).count .moved) := by
    rintro tail hok ⟨hle, hor⟩
    refine ⟨by omega, ?_⟩
    rcases hor with ht | hle'
    · rcases hmarks with hsame | hhead | hmoved
      · exact Or.inl (hsame.trans ht)
      · exact absurd (ht.symm.trans (hinv.shared.unset hhead)) hok.or_consumed.ne_invalid
      · rw [hmoved]
        exact Or.inr (by simpa [Nat.add_comm] using hle)
    · exact Or.inr (by omega)
  cases cph with
  | idle c =>
    have h : passes ≤ 1 + moves := h
    exact h.trans (by omega)
  | flush1 c =>
    have h : passes ≤ moves := h
    exact h.trans (by omega)
  | flush2 c tail => exact hloop tail hinv.cons.reads.1 h
  | flush3 c tail head => exact hloop tail hinv.cons.reads.1 h
  | _ => exact h

/-- A step of the flush: a pass is repeated only if the tail has moved since it was loaded. -/
theorem Tries.consStep (hcph : s.cons = cph.thread) (h : Tries s.mem passes moves cph)
    (hs : ConsumerStep cph s.mem cph' m' o) :
    Tries m' (passes + (consMarks s).count .pass) (moves + (consMarks s).count .moved) cph' := by
  have hmarks : consMarks s = match cph.thread.nextOp with
      | some (.tailFetchOr _) => [.pass]
      | _ => [] := by rw [consMarks, hcph]
  cases hs with
  | flushNoMsg =>
    obtain hmarks : consMarks s = [.pass] := hmarks
    have h : passes ≤ moves := h
    rw [hmarks]
    show passes + 1 ≤ 1 + (moves + 0)
    omega
  | flushError =>
    obtain hmarks : consMarks s = [.pass] := hmarks
    have h : passes ≤ moves := h
    rw [hmarks]
    show passes + 1 ≤ 1 + (moves + 0)
    omega
  | flushTail =>
    obtain hmarks : consMarks s = [.pass] := hmarks
    have h : passes ≤ moves := h
    rw [hmarks]
    refine ⟨?_, Or.inl rfl⟩
    show passes + 1 ≤ 1 + (moves + 0)
    omega
  | flushHeadError =>
    obtain hmarks : consMarks s = [] := hmarks
    rw [hmarks]
    exact h.1
  | flushHead =>
    obtain hmarks : consMarks s = [] := hmarks
    rw [hmarks]
    exact h
  | flushTaken =>
    obtain hmarks : consMarks s = [] := hmarks
    rw [hmarks]
    exact h.1
  | flushLost ht =>
    -- the producer has moved the tail since this pass began
    obtain hmarks : consMarks s = [] := hmarks
    rw [hmarks]
    exact h.2.resolve_left ht
  | _ => exact h.elim

/-- One step of the queue. -/
theorem Tries.step {r' : Ring} {e : QueueEvent β} (hinv : QueueInv n r ph cph s.mem)
    (hph : s.prod = ph.thread) (hcph : s.cons = cph.thread) (h : Tries s.mem passes moves cph)
    (hok : NoCall s e) (hs : QueueStep s r ph cph e r' ph' cph' s' o) :
    Tries s'.mem (passes + (flushMarks s e s' o).count .pass)
      (moves + (flushMarks s e s' o).count .moved) cph' := by
  cases hs with
  | write => exact h
  | push => exact h
  | prodStep hps =>
    rw [flushMarks, prodMarks_pass, Nat.add_zero]
    exact h.prodStep hinv hph hps
  | pop => exact hok.elim
  | consStep hcs => exact h.consStep hcph hcs

/-- So there is at most one pass more than moves. -/
theorem Tries.le {m : QueueMem} (h : Tries m passes moves cph) : passes ≤ 1 + moves := by
  cases cph with
  | idle c => exact h
  | flush1 c => exact le_trans (show passes ≤ moves from h) (by omega)
  | flush2 c tail => exact h.1
  | flush3 c tail head => exact h.1
  | _ => exact h.elim

end passes

section runs

variable {β : Type} {n : Nat} {tr : List (QueueEvent β × QueueOutcome)} {s₀ s₁ u : QueueState β}
  {record : List FlushMark}

/-- The call of a flush. -/
theorem flush_called (hn : SizeOk n) {r : Ring} {ph : ProducerPhase} {cph : ConsumerPhase}
    (hph : s₀.prod = ph.thread) (hcph : s₀.cons = cph.thread) (hring : RingInv n r ph)
    (hcall : (queueSystem β n).step s₀ (.pop .flush) = some (s₁, .silent)) :
    ∃ c, cph = .idle c ∧ s₁ = { s₀ with cons := (ConsumerPhase.call .flush c).thread } ∧
      QueueStep s₀ r ph cph (.pop .flush) r ph (.call .flush c) s₁ .silent := by
  have hcall : s₀.step (.pop .flush) = some (s₁, .silent) := hcall
  obtain ⟨r', ph', cph', hstep, -, -⟩ := queueStep_cases hn hph hcph hring hcall
  cases hstep with
  | pop => exact ⟨_, rfl, rfl, .pop⟩

/-- In the rest of a run after the call of a flush. -/
theorem tries_run (hn : SizeOk n) (hr : (queueSystem β n).Run Machine.always tr s₀)
    (hcall : (queueSystem β n).step s₀ (.pop .flush) = some (s₁, .silent))
    (hl : ((queueSystem β n).start s₁).Observed NoCall flushMarks record u) :
    ∃ r ph cph, u.prod = ph.thread ∧ u.cons = cph.thread ∧ QueueInv n r ph cph u.mem ∧
      Tries u.mem (record.count .pass) (record.count .moved) cph := by
  obtain ⟨r, ph, cph, hph, hcph, hinv, -⟩ := queue_run hn (J := fun _ _ _ _ _ => True)
    (fun _ _ _ => trivial) (fun _ _ _ _ _ _ _ _ _ _ _ _ _ _ _ _ _ => trivial) hr
  obtain ⟨c, rfl, rfl, hstep⟩ := flush_called hn hph hcph hinv.ring hcall
  refine hl.invariant (I := fun record u => ∃ r ph cph, u.prod = ph.thread ∧ u.cons = cph.thread ∧
    QueueInv n r ph cph u.mem ∧ Tries u.mem (record.count .pass) (record.count .moved) cph) ?_ ?_
  · rintro s rfl
    exact ⟨r, ph, _, hph, rfl, hstep.queueInv hn hinv, Nat.zero_le 0⟩
  · rintro record s e s' o ⟨r, ph, cph, hph, hcph, hinv, htries⟩ hok hs
    have hs : (queueSystem β n).step s e = some (s', o) := hs
    obtain ⟨r', ph', cph', hstep, hph', hcph'⟩ := queueStep_cases hn hph hcph hinv.ring hs
    refine ⟨r', ph', cph', hph', hcph', hstep.queueInv hn hinv, ?_⟩
    rw [List.count_append, List.count_append]
    exact htries.step hinv hph hcph hok hstep

/-- A flush begins at most one pass more than the producer moves the tail meanwhile. -/
theorem flush_passes_le (hn : SizeOk n) (hr : (queueSystem β n).Run Machine.always tr s₀)
    (hcall : (queueSystem β n).step s₀ (.pop .flush) = some (s₁, .silent))
    (hl : ((queueSystem β n).start s₁).Observed NoCall flushMarks record u) :
    record.count .pass ≤ 1 + record.count .moved := by
  obtain ⟨r, ph, cph, -, -, -, htries⟩ := tries_run hn hr hcall hl
  exact htries.le

end runs

/-! ## The message that is taken -/

section fresh

variable {β : Type} {n b : Nat} {r r' : Ring} {tp : Nat} {ph ph' : ProducerPhase}
  {cph cph' : ConsumerPhase} {s s' : QueueState β} {e : QueueEvent β} {m' : QueueMem}
  {o : QueueOutcome}

/-- The message at the head is as new as before if the tail was not touched. -/
theorem HeadSince.congr (h : HeadSince b s cph)
    (htail : s'.mem.tail = s.mem.tail ∨ s'.mem.tail.consumed = false)
    (hstamp : ∀ c tail head, cph = .flush3 c tail head → s.mem.tail = tail ||| consumedFlag →
      s'.stamp head = s.stamp head) : HeadSince b s' cph := by
  cases cph with
  | flush3 c tail head =>
    intro ht
    rcases htail with hsame | hc
    · have ht' := hsame.symm.trans ht
      rw [hstamp c tail head rfl ht']
      exact h ht'
    · rw [ht, Index.consumed_or_consumedFlag] at hc
      cases hc
  | _ => trivial

/-- The head that a flush reads was announced by the last push that has returned, or later. -/
theorem HeadSince.read (hn : SizeOk n) (hinv : QueueInv n r ph cph s.mem)
    (hd : Delivery n r tp ph s) (hb : b ≤ s.pushed) (hne : s.mem.head ≠ indexInvalid)
    (hnew : s.mem.chain s.mem.head ≠ s.mem.tail.slot) :
    ∃ k x, s.stamp s.mem.head = some (k, x) ∧ b ≤ k + 1 := by
  obtain ⟨-, j, hj, hj', hord⟩ := hd.head_pos hn hinv hne hnew
  obtain ⟨i, hi, hlo, hlt, hann⟩ := (hinv.ring.announced hn).resolve_left
    (hinv.shared.head ▸ hne)
  have hlo' := hd.lo_le
  have hnum := hd.num_le
  have hcount := hd.count
  have hsame : r.ord i = r.ord j := by
    rw [← hann, ← hord, hinv.shared.head]
  obtain rfl := hinv.ring.path.nodup i j hlo hlt (by omega) hj' hsame
  exact ⟨_, _, hord ▸ hd.stamps i hj hj', by omega⟩

/-- From the call of the flush on, the head it takes is not older than the newest message at the call. -/
theorem HeadSince.step (hn : SizeOk n) (hinv : QueueInv n r ph cph s.mem)
    (hd : Delivery n r tp ph s) (hf : Follows n r tp ph.queue.overrun s cph)
    (h : HeadSince b s cph) (hb : b ≤ s.pushed) (hok : FlushSafe s e) (hcph : s.cons = cph.thread)
    (hs : QueueStep s r ph cph e r' ph' cph' s' o) : HeadSince b s' cph' ∧ b ≤ s'.pushed := by
  cases hs with
  | write => exact ⟨h.congr (Or.inl rfl) fun _ _ _ _ _ => rfl, hb⟩
  -- The stamp of the new message goes to the current slot, which is not the head that was loaded.
  | @push p _ op =>
    refine ⟨h.congr (Or.inl rfl) ?_, hb⟩
    rintro c tail head rfl ht
    obtain ⟨j, hj, hj', hord⟩ := hf.2 ht
    have hlo := hd.lo_le
    refine Function.update_of_ne (fun he => ?_) _ _
    exact hinv.ring.1.current_off (he ▸ hord ▸ Window.mem_ord (by omega) hj')
  -- any store to the tail makes the exchange of the flush fail
  | prodStep hps =>
    refine ⟨h.congr ?_ fun _ _ _ _ _ => rfl, hb.trans ?_⟩
    · rcases hps.tail hn hinv.ring hinv.shared with hsame | ⟨-, -, hc⟩ | hlt
      · exact Or.inl hsame
      · exact Or.inr hc
      · exact Or.inr (hn.consumed hlt)
    · show s.pushed ≤ o.count s.pushed
      unfold QueueOutcome.count
      split
      · split <;> omega
      · exact le_rfl
  | pop =>
    rename_i op
    cases op <;> exact ⟨trivial, hb⟩
  | consStep hcs =>
    refine ⟨?_, hb⟩
    cases hcs with
    -- The head is loaded: under the condition it is the newest message at that moment.
    | @flushHead c tail _ hv =>
      have hne : s.mem.head ≠ indexInvalid := hn.ne_invalid (hinv.cons.nMsgs ▸ hv)
      have hread := HeadSince.read hn hinv hd hb hne (hok.headNew hcph c tail rfl hne)
      exact fun _ => hread
    | _ => trivial

/-- The chain leads from one position of the list to the later ones. -/
theorem RingInv.iterate (h : RingInv n r ph) (hm : SharedInv n r ph s.mem) (hlo : r.lo ≤ tp) (k : Nat)
    (hk : tp + k < r.hi) : Nat.iterate s.mem.chain k (r.ord tp) = r.ord (tp + k) := by
  induction k with
  | zero => rfl
  | succ k ih =>
    rw [Function.iterate_succ_apply', ih (by omega), hm.chain _ (h.path.lt _),
      h.path.linked (tp + k) (by omega) hk]
    rfl

/-- Before the message of a push is appended, its slot is not on the list. -/
theorem RingInv.current_off (h : RingInv n r ph) (hpend : ph.pending = 1) :
    ¬ r.Mem ph.queue.current := by
  cases ph with
  | idle p => exact h.1.current_off
  | first1 op p next => exact h.1.current_off
  | tryLoad p next => exact h.1.current_off
  | enq1 k p next => exact h.1.current_off
  | enq2 k p next => exact h.1.current_off
  | _ => cases hpend

/-- What a flush finds out until it returns. -/
theorem fresh_run (hn : SizeOk n) {tr : List (QueueEvent β × QueueOutcome)} {s₀ s₁ u : QueueState β}
    {record : List FlushMark} (hr : (queueSystem β n).Run FlushSafe tr s₀)
    (hcall : (queueSystem β n).step s₀ (.pop .flush) = some (s₁, .silent))
    (hl : ((queueSystem β n).start s₁).Observed (fun s e => FlushSafe s e ∧ NoCall s e) flushMarks
      record u) :
    ∃ r ph cph tp, u.prod = ph.thread ∧ u.cons = cph.thread ∧ QueueInv n r ph cph u.mem ∧
      Delivery n r tp ph u ∧ Follows n r tp ph.queue.overrun u cph ∧ HeadSince s₀.pushed u cph ∧
      s₀.pushed ≤ u.pushed ∧ Tries u.mem (record.count .pass) (record.count .moved) cph := by
  -- The invariant of the run up to the call,
  obtain ⟨r, ph, cph, hph, hcph, hinv, tp, hd, hf⟩ := delivery_run hn hr
  obtain ⟨c, rfl, rfl, hstep⟩ := flush_called hn hph hcph hinv.ring hcall
  -- and with the two facts about the flush from the call on.
  refine hl.invariant (I := fun record u => ∃ r ph cph tp, u.prod = ph.thread ∧
    u.cons = cph.thread ∧ QueueInv n r ph cph u.mem ∧ Delivery n r tp ph u ∧
    Follows n r tp ph.queue.overrun u cph ∧ HeadSince s₀.pushed u cph ∧ s₀.pushed ≤ u.pushed ∧
    Tries u.mem (record.count .pass) (record.count .moved) cph) ?_ ?_
  · rintro s rfl
    refine ⟨r, ph, _, tp, hph, rfl, hstep.queueInv hn hinv, { hd with }, ?_, trivial, le_rfl,
      Nat.zero_le 0⟩
    refine hf.call ?_ ?_ ?_ .flush <;> rfl
  · rintro record s e s' o ⟨r, ph, cph, tp, hph, hcph, hinv, hd, hf, hsince, hb, htries⟩ hok hs
    have hs : (queueSystem β n).step s e = some (s', o) := hs
    obtain ⟨r', ph', cph', hstep, hph', hcph'⟩ := queueStep_cases hn hph hcph hinv.ring hs
    obtain ⟨tp', hd', hf', -⟩ := hstep.delivery hn hinv hd hf
      (by rintro rfl; exact hok.1.released hn hph hinv.ring hd)
      (by rintro rfl; exact hok.1.headNew hcph)
    obtain ⟨hsince', hb'⟩ := hsince.step hn hinv hd hf hb hok.1 hcph hstep
    refine ⟨r', ph', cph', tp', hph', hcph', hstep.queueInv hn hinv, hd', hf', hsince', hb', ?_⟩
    rw [List.count_append, List.count_append]
    exact htries.step hinv hph hcph hok.2 hstep

/-- In every run whose steps satisfy `FlushSafe`: a flush begins at most one pass more than the producer
    moves the tail meanwhile, and if it returns discarded, then from a slot that is part of the queue
    at that moment, with a message that is not older than the last one pushed before the call. -/
theorem flush_fresh (h3 : 3 ≤ n) (hn : n ≤ 2 ^ 30) {tr : List (QueueEvent β × QueueOutcome)}
    {s₀ s₁ u : QueueState β} {record : List FlushMark}
    (hr : (queueSystem β n).Run FlushSafe tr s₀)
    (hcall : (queueSystem β n).step s₀ (.pop .flush) = some (s₁, .silent))
    (hl : ((queueSystem β n).start s₁).Observed (fun s e => FlushSafe s e ∧ NoCall s e) flushMarks
      record u) :
    record.count .pass ≤ 1 + record.count .moved ∧
    ∀ u', (queueSystem β n).step u .consStep = some (u', .popped .discarded) →
      ∃ c k, u'.cons = .idle c ∧ u'.held = some (k, u'.msgs c.current) ∧ s₀.pushed ≤ k + 1 ∧
        InQueue u c.current := by
  have hsize : SizeOk n := ⟨h3, hn⟩
  refine ⟨flush_passes_le hsize (hr.mono fun _ _ _ => trivial) hcall
    (hl.mono fun _ _ hok => hok.2), fun u' hs => ?_⟩
  obtain ⟨r, ph, cph, tp, hph, hcph, hinv, hd, hf, hsince, -, htries⟩ := fresh_run hsize hr hcall hl
  have hs : u.step .consStep = some (u', .popped .discarded) := hs
  obtain ⟨cph', m', hcs, rfl⟩ := consStep_cases hcph hs
  -- Only the exchange of a flush returns DISCARDED here.
  cases cph with
  | idle c => cases hcs
  | flush1 c => cases hcs
  | flush2 c tail => cases hcs
  | flush3 c tail head =>
    cases hcs with
    | flushTaken ht =>
      -- The head that was loaded is at a position behind the tail,
      obtain ⟨j, hj, hj', rfl⟩ := hf.2 ht
      -- and its message is not older than the newest one at the call.
      obtain ⟨k, x, hstamp, hk⟩ := hsince ht
      have hheld := hd.stamps j hj hj'
      have hset : ph.queue.head ≠ indexInvalid := fun hh =>
        hinv.cons.reads.1.or_consumed.ne_invalid (ht.symm.trans (hinv.shared.unset hh))
      obtain ⟨rfl, -⟩ := Prod.mk.inj (Option.some.inj (hstamp.symm.trans hheld))
      refine ⟨_, _, rfl, hheld, hk, ⟨j - tp, ?_⟩, ph, hph, fun hpend he => ?_⟩
      · -- it is reached from the tail along the chain
        rw [(hd.set hset).2, hinv.ring.iterate hinv.shared hd.lo_le _ (by omega)]
        exact congrArg r.ord (by omega)
      · -- and is not the slot the producer is about to fill
        have hlo := hd.lo_le
        exact hinv.ring.current_off hpend (he ▸ Window.mem_ord (by omega) hj')
  | _ => exact htries.elim

end fresh

/-! ## Concrete flushes -/

section concrete

variable {β : Type} (n : Nat) (ok : QueueState β → QueueEvent β → Prop) [∀ s e, Decidable (ok s e)]

/-- A flush is called in `s₀`, then the events `es` happen. -/
def QueueState.playFlush (es : List (QueueEvent β)) (s₀ : QueueState β) :
    Option (List FlushMark × QueueState β) :=
  match (queueSystem β n).step s₀ (.pop .flush) with
  | some (s₁, .silent) =>
    ((queueSystem β n).start s₁).record (fun s e => ok s e ∧ NoCall s e) flushMarks es ([], s₁)
  | _ => none

/-- Such a flush returns discarded with the next step, and then `q` holds. -/
def QueueState.flushes (es : List (QueueEvent β))
    (q : List FlushMark → QueueState β → QueueState β → Bool) (s₀ : QueueState β) : Bool :=
  (QueueState.playFlush n ok es s₀).any fun ru =>
    ((queueSystem β n).step ru.2 .consStep).any fun uo =>
      decide (uo.2 = .popped .discarded) && q ru.1 ru.2 uo.1

/-- A flush that can be played is one of the runs. -/
theorem QueueState.exists_flush (es : List (QueueEvent β)) {s₀ : QueueState β}
    (q : List FlushMark → QueueState β → QueueState β → Bool)
    (h : QueueState.flushes n ok es q s₀ = true) :
    ∃ s₁ record u u', (queueSystem β n).step s₀ (.pop .flush) = some (s₁, .silent) ∧
      ((queueSystem β n).start s₁).Observed (fun s e => ok s e ∧ NoCall s e) flushMarks record u ∧
      (queueSystem β n).step u .consStep = some (u', .popped .discarded) ∧ q record u u' = true := by
  rw [flushes, Option.any_eq_true] at h
  obtain ⟨⟨record, u⟩, hplay, h⟩ := h
  rw [Option.any_eq_true] at h
  obtain ⟨⟨u', o⟩, hstep, h⟩ := h
  obtain ⟨ho, hq⟩ := (Bool.and_eq_true _ _).mp h
  obtain rfl : o = .popped .discarded := of_decide_eq_true ho
  unfold playFlush at hplay
  split at hplay
  · rename_i s₁ hcall
    exact ⟨s₁, record, u, u', hcall, (Machine.Observed.init rfl).record hplay, hstep, hq⟩
  · cases hplay

end concrete

/-- The producer overruns the tail between the two operations of the first pass, so that there is a second
    one. -/
theorem flush_fresh_retry :
    ∃ tr s₀ s₁ record u u', (queueSystem Nat 3).Run FlushSafe tr s₀ ∧
      (queueSystem Nat 3).step s₀ (.pop .flush) = some (s₁, .silent) ∧
      ((queueSystem Nat 3).start s₁).Observed (fun s e => FlushSafe s e ∧ NoCall s e) flushMarks
        record u ∧
      (queueSystem Nat 3).step u .consStep = some (u', .popped .discarded) ∧
      record = [.pass, .moved, .pass] ∧ s₀.pushed = 1 ∧ u'.held = some (2, 12) ∧
      record.count .pass ≤ 1 + record.count .moved ∧
      ∃ c k, u'.cons = .idle c ∧ u'.held = some (k, u'.msgs c.current) ∧ 1 ≤ k + 1 ∧
        InQueue u c.current := by
  let es : List (QueueEvent Nat) := [.consStep, .write 11, .push .forcePush, .prodStep, .prodStep,
    .prodStep, .prodStep, .write 12, .push .forcePush, .prodStep, .prodStep, .prodStep, .prodStep,
    .prodStep, .consStep, .consStep, .consStep, .consStep]
  let q : List FlushMark → QueueState Nat → QueueState Nat → Bool := fun record _ u' =>
    decide (record = [.pass, .moved, .pass] ∧ u'.held = some (2, 12))
  obtain ⟨tr, s₀, hr, h⟩ := QueueState.exists_run 3 0 FlushSafe
    [.write 10, .push .forcePush, .prodStep, .prodStep, .prodStep]
    (fun _ s₀ => decide (s₀.pushed = 1) && QueueState.flushes 3 FlushSafe es q s₀) (by decide)
  obtain ⟨hpushed, h⟩ := (Bool.and_eq_true _ _).mp h
  have hpushed : s₀.pushed = 1 := of_decide_eq_true hpushed
  obtain ⟨s₁, record, u, u', hcall, hl, hs, hq⟩ := QueueState.exists_flush 3 FlushSafe es q h
  obtain ⟨hrecord, hheld⟩ := of_decide_eq_true hq
  obtain ⟨hpasses, hfresh⟩ := flush_fresh (by decide) (by decide) hr hcall hl
  rw [hpushed] at hfresh
  exact ⟨tr, s₀, s₁, record, u, u', hr, hcall, hl, hs, hrecord, hpushed, hheld, hpasses, hfresh u' hs⟩

/-- The push of message 1 has not announced it yet, so that a flush after the pop of message 1 reads the
    head of message 0.  The producer goes on, gets the slot of message 0 back, and the flush takes it. -/
theorem flush_takes_current :
    ∃ tr s₀ s₁ record u u' p c, (queueSystem Nat 3).Run Machine.always tr s₀ ∧
      (queueSystem Nat 3).step s₀ (.pop .flush) = some (s₁, .silent) ∧
      ((queueSystem Nat 3).start s₁).Observed (fun s e => Machine.always s e ∧ NoCall s e) flushMarks
        record u ∧
      (queueSystem Nat 3).step u .consStep = some (u', .popped .discarded) ∧
      u.prod = .idle p ∧ u'.cons = .idle c ∧ p.current = c.current ∧ ¬ InQueue u c.current := by
  let es : List (QueueEvent Nat) := [.consStep, .consStep, .prodStep, .prodStep, .write 12,
    .push .forcePush, .prodStep, .prodStep, .prodStep, .prodStep]
  let q : List FlushMark → QueueState Nat → QueueState Nat → Bool := fun _ u u' =>
    u.prod.idleAnd fun p => u'.cons.idleAnd fun c => decide (p.current = c.current)
  obtain ⟨tr, s₀, hr, h⟩ := QueueState.exists_run 3 0 Machine.always
    [.write 10, .push .forcePush, .prodStep, .prodStep, .prodStep,
      .write 11, .push .forcePush, .prodStep, .prodStep,
      .pop .pop, .consStep, .pop .pop, .consStep, .consStep, .consStep]
    (fun _ s₀ => QueueState.flushes 3 Machine.always es q s₀) (by decide)
  obtain ⟨s₁, record, u, u', hcall, hl, hs, hq⟩ := QueueState.exists_flush 3 Machine.always es q h
  obtain ⟨p, hp, hq⟩ := Thread.exists_idle hq
  obtain ⟨c, hc, hq⟩ := Thread.exists_idle hq
  have heq : p.current = c.current := of_decide_eq_true hq
  refine ⟨tr, s₀, s₁, record, u, u', p, c, hr, hcall, hl, hs, hp, hc, heq, ?_⟩
  rintro ⟨-, ph, hph, hne⟩
  obtain rfl := ProducerPhase.thread_eq_idle (hph.symm.trans hp)
  exact hne rfl heq

end Rtipc
