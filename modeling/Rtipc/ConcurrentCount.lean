/-
  Counting while the other side goes on.

  `ri_producer_queue_count_msgs` and `ri_consumer_queue_count_msgs` read one word after the other, and
  the other side may push or pop in between.  Still the number is that of one moment: a count that
  is overlapped by steps of the other side returns what it would have returned if it had run alone at
  some moment of the call (`count_atomic`).

  For the producer this is the moment of its first access, since it alone changes the chain.  For the
  consumer it is the moment at which the walk finds the end of the chain, if the tail has not moved
  since the walk began.  If the producer has moved the tail, then the tail has no flag any more, whatever
  has become of the walk: the count sees that when it looks again, and the queue is full at that moment
  (`ConsCount`).

  1. **The system.**  A run with safe flushes has come to a state in which one side calls its count;
     `countSystem` continues it, the other side with all its steps and the counting side with one load
     at a time.  `CountSafe` asks of the other side what `FlushSafe` asks.

  2. **What the loads can have seen.**  `CountFacts` is what one state says about tail and chain;
     `ConsCount` and `ProdCount` say how far the count has come, and which moment of the call it may
     still be the count of.

  3. **The crux.**  The tail is either left alone during the call, or it is moved by the producer, which
     clears both flags (`ProducerStep.tail_stays`).  In the first case the walk is a walk of one state;
     in the second the final look at the tail replaces its result by the number of a full queue.
-/
import Rtipc.Exclusivity
import Rtipc.MessageCount

namespace Rtipc

/-! ## The system -/

/-- The queue, and what is left of the code of a count. -/
structure Counting (β : Type) where
  queue : QueueState β
  left : QueueProg Int

/-- What the count has returned. -/
def Counting.result {β : Type} (w : Counting β) : Option Int :=
  match w.left with
  | .ret k => some k
  | _ => none

/-- A step of the other side, or the next access of the count. -/
inductive CountEvent (β : Type) where
  | other (e : QueueEvent β)
  | access
  deriving DecidableEq, Repr

/-- The side that makes the step. -/
def QueueEvent.side {β : Type} : QueueEvent β → Side
  | .write _ | .push _ | .prodStep => .producer
  | .pop _ | .consStep => .consumer

/-- The code of a count, if the side is between two calls. -/
def QueueState.countProg {β : Type} (s : QueueState β) : Side → Option (QueueProg Int)
  | .producer => match s.prod with
    | .idle p => some p.countMsgs
    | .busy _ _ => none
  | .consumer => match s.cons with
    | .idle c => some c.countMsgs
    | .busy _ _ => none

/-- `side` has called its count in the state `s`, and the other side goes on. -/
def countSystem {β : Type} (side : Side) (s : QueueState β) (prog : QueueProg Int) :
    Machine (Counting β) (CountEvent β) QueueOutcome where
  init w := w = ⟨s, prog⟩
  step w
    | .other e =>
      if e.side = side then none else (w.queue.step e).map fun so => ({ w with queue := so.1 }, so.2)
    | .access =>
      (w.left.step QueueOp.exec w.queue.mem).map fun pm =>
        ({ queue := { w.queue with mem := pm.2 }, left := pm.1 }, .silent)

/-- The other side's steps are safe. -/
def CountSafe {β : Type} (w : Counting β) : CountEvent β → Prop
  | .other e => FlushSafe w.queue e
  | .access => True

instance {β : Type} (w : Counting β) : (e : CountEvent β) → Decidable (CountSafe w e)
  | .other e => inferInstanceAs (Decidable (FlushSafe w.queue e))
  | .access => isTrue trivial

/-! ## The list at any moment

  In the middle of a call of the other side, what a walk can still see. -/

section list

variable {β : Type} {n : Nat} {r : Ring} {tp : Nat} {ph ph' : ProducerPhase} {cph cph' : ConsumerPhase}
  {s : QueueState β} {m m' : QueueMem} {o : QueueOutcome}

/-- Once the tail is set the list ends where the chain does. -/
theorem QueueInv.chain_last (h : QueueInv n r ph cph m) (ht : m.tail ≠ indexInvalid) :
    m.chain (r.ord (r.hi - 1)) = indexInvalid := by
  rw [h.shared.chain _ (h.ring.path.lt _)]
  have hset : ph.queue.head ≠ indexInvalid := fun hh => ht (h.shared.unset hh)
  have hsteady : ∀ {p : ProducerQueue}, Steady r p → p.chain (r.ord (r.hi - 1)) = indexInvalid :=
    fun hs => hs.head ▸ hs.last
  have hafter : ∀ {p : ProducerQueue}, AfterAppend n r p → p.chain (r.ord (r.hi - 1)) = indexInvalid :=
    fun hp => hp.current_eq ▸ hp.last
  have hring := h.ring
  cases ph with
  | idle p =>
    obtain ⟨-, -, hf | hs⟩ := hring
    · exact absurd hf.head hset
    · exact hsteady hs
  | first1 op p next => exact absurd hring.2.2.head hset
  | first2 op p next => exact absurd hring.2.2.1 hset
  | tryLoad p next => exact hsteady hring.2.2.2
  | enq1 k p next => exact hsteady hring.2.2.1
  | enq2 k p next => exact hsteady hring.2.2.1
  | _ => exact hafter hring.1

/-- The list is never longer than the queue, and shorter between two pushes. -/
theorem RingInv.length_le (h : RingInv n r ph) : r.hi ≤ r.lo + n ∧ (ph.pending = 1 → r.hi < r.lo + n) := by
  have hbefore : ∀ {p : ProducerQueue}, BeforeAppend n r p →
      r.hi ≤ r.lo + n ∧ (ph.pending = 1 → r.hi < r.lo + n) := by
    intro p hp
    have hsize := hp.size
    exact ⟨by omega, fun _ => by omega⟩
  have hafter : ∀ {p : ProducerQueue}, AfterAppend n r p → ph.pending = 0 →
      r.hi ≤ r.lo + n ∧ (ph.pending = 1 → r.hi < r.lo + n) := by
    intro p hp hzero
    have hsize := hp.size
    exact ⟨by omega, fun hone => by omega⟩
  cases ph with
  | idle | first1 | tryLoad | enq1 | enq2 => exact hbefore h.1
  | _ => exact hafter h.1 rfl

/-- Between the calls of the producer the slots from the oldest to the newest lie on the chain. -/
theorem QueueInv.listed (h : QueueInv n r ph cph m) (ht : m.tail ≠ indexInvalid) : Listed n r m where
  lt := h.ring.path.lt
  next i hi hend := by
    rw [h.shared.chain _ (h.ring.path.lt i)]
    exact h.ring.path.linked i hi hend
  last := h.chain_last ht

/-- How many slots there are from the tail on. -/
theorem Delivery.length_le (hinv : QueueInv n r ph cph s.mem) (hd : Delivery n r tp ph s) :
    r.hi ≤ tp + n ∧ (ph.pending = 1 → r.hi < tp + n) := by
  obtain ⟨hle, hlt⟩ := hinv.ring.length_le
  have hlo := hd.lo_le
  refine ⟨by omega, fun hone => ?_⟩
  have hlt' := hlt hone
  omega

/-- The list keeps its slots. -/
theorem Ring.step_keep (r : Ring) (ph ph' : ProducerPhase) :
    r.hi ≤ (r.step ph ph').hi ∧ ∀ j, j < r.hi → (r.step ph ph').ord j = r.ord j := by
  have happend : ∀ x : Index, r.hi ≤ (r.append x).hi ∧ ∀ j, j < r.hi → (r.append x).ord j = r.ord j :=
    fun x => ⟨Nat.le_succ _, fun j hj => Window.append_ord (Nat.ne_of_lt hj)⟩
  unfold Ring.step
  split <;> first | exact happend _ | exact ⟨le_rfl, fun _ _ => rfl⟩

/-- A step of the producer leaves a tail that is set where it is, or moves it. -/
theorem ProducerStep.tail_stays (hn : SizeOk n) (hring : RingInv n r ph) (hm : SharedInv n r ph m)
    (ht : m.tail ≠ indexInvalid) (hs : ProducerStep ph m ph' m' o) :
    (m'.tail = m.tail ∧ ph.jump ph' = 0) ∨ m'.moved := by
  -- A plain slot in the tail is what the count recognises as moved.
  have hmoved : m'.tail.toNat < n → m'.moved := by
    intro hlt
    simp only [QueueMem.moved, hn.consumed hlt, hn.first hlt, Bool.false_eq_true, not_false_eq_true,
      and_self]
  cases hs with
  | first2 =>
    obtain ⟨-, -, hhead, -⟩ := hring
    exact absurd (hm.unset hhead) ht
  | moved =>
    obtain ⟨hp, -, -, -, rfl⟩ := hring
    refine Or.inr (hmoved ?_)
    show (_ : Index).toNat < n
    rw [hn.slot (hp.lt _), hp.link hn]
    exact hp.lt _
  | movedFull =>
    obtain ⟨hp, -, -, -, hslot, -⟩ := hring
    refine Or.inr (hmoved ?_)
    show (_ : Index).toNat < n
    rw [hslot, hp.link hn]
    exact hp.lt _
  | overran =>
    obtain ⟨hp, -, ho, hslot, -⟩ := hring
    refine Or.inr (hmoved ?_)
    show (_ : Index).toNat < n
    rw [hslot, hp.link_link ho hn]
    exact hp.lt _
  -- the exchange failed, and the tail was left alone
  | overLost =>
    obtain ⟨-, -, ho, -⟩ := hring
    exact Or.inl ⟨rfl, ProducerPhase.jump_overLost ho⟩
  | _ => exact Or.inl ⟨rfl, rfl⟩

/-- What a step of the producer's side does for a consumer that counts. -/
theorem QueueStep.of_producer {r' : Ring} {s' : QueueState β} {e : QueueEvent β} (hn : SizeOk n)
    (hinv : QueueInv n r ph cph s.mem) (hd : Delivery n r tp ph s)
    (hf : Follows n r tp ph.queue.overrun s cph) (hok : FlushSafe s e) (hph : s.prod = ph.thread)
    (hside : e.side = .producer) (hs : QueueStep s r ph cph e r' ph' cph' s' o) :
    cph' = cph ∧ ∃ tp', Delivery n r' tp' ph' s' ∧ Follows n r' tp' ph'.queue.overrun s' cph ∧
      r.hi ≤ r'.hi ∧ (∀ j, j < r.hi → r'.ord j = r.ord j) ∧
      (s.mem.tail ≠ indexInvalid → (s'.mem.tail = s.mem.tail ∧ tp' = tp) ∨ s'.mem.moved) := by
  cases hs with
  | @write p _ x hlt =>
    exact ⟨rfl, tp, hd.write hinv x, hf.write hinv hd x, le_rfl, fun _ _ => rfl,
      fun _ => Or.inl ⟨rfl, rfl⟩⟩
  | @push p _ op =>
    refine ⟨rfl, tp, hd.push hinv op, ?_, le_rfl, fun _ _ => rfl, fun _ => Or.inl ⟨rfl, rfl⟩⟩
    rw [ProducerPhase.queue_call]
    exact Follows.push hinv hf op
  | prodStep hs =>
    obtain ⟨hhi, hord⟩ := Ring.step_keep r ph ph'
    refine ⟨rfl, _, hs.delivery hn hinv hd (hok.released hn hph hinv.ring hd),
      hs.follows hn hinv hd hf, hhi, hord, fun ht => ?_⟩
    rcases hs.tail_stays hn hinv.ring hinv.shared ht with ⟨htail, hjump⟩ | hmoved
    · exact Or.inl ⟨htail, by rw [hjump, Nat.add_zero]⟩
    · exact Or.inr hmoved
  | pop => cases hside
  | consStep => cases hside

/-- A step of the consumer's side leaves the list as it is. -/
theorem QueueStep.of_consumer {r' : Ring} {s' : QueueState β} {e : QueueEvent β}
    (hside : e.side = .consumer) (hs : QueueStep s r ph cph e r' ph' cph' s' o) : r' = r ∧ ph' = ph := by
  cases hs with
  | pop | consStep => exact ⟨rfl, rfl⟩
  | _ => cases hside

end list

/-! ## The points of a count

  A count is a load of the tail and then one load for each slot it passes. -/

/-- What the count has seen so far of the last element. -/
def ConsumerQueue.checkOverrun (c : ConsumerQueue) (cnt : Nat) : QueueProg Int := do
  let next ← queueTailLoad
  if ¬ next.consumed ∧ ¬ next.first then return (c.nMsgs : Int) - 1
  else return (cnt : Int) + 1

/-- What can be read at one moment: `now k` says that a count that ran alone would return `k`. -/
structure CountFacts (n : Nat) (r : Ring) (tp : Nat) (m : QueueMem) (now : Int → Prop) : Prop where
  word : ∀ i : Index, i.toNat < n → m.chain i = indexInvalid ∨ (m.chain i).toNat < n
  listed : m.tail ≠ indexInvalid → Listed n r m
  slot : m.tail ≠ indexInvalid → m.tail.slot = r.ord tp ∧ r.lo ≤ tp ∧ tp < r.hi
  length : r.hi ≤ tp + n
  moved : m.moved → now ((n : Int) - 1)
  walk : m.tail ≠ indexInvalid → ¬ m.moved → now ((r.hi - tp : Nat) : Int)

/-- Where the consumer is in its count.  `seen k` says that the count would have returned `k` at a moment
    that is past. -/
inductive ConsCount (n : Nat) (c : ConsumerQueue) (r : Ring) (tp : Nat) (m : QueueMem)
    (seen : Int → Prop) : QueueProg Int → Prop
  | start : ConsCount n c r tp m seen c.countMsgs
  /-- the slot that is looked up next is on the list, unless the tail has been moved since -/
  | walk {next : Index} {cnt k : Nat} (hk : cnt + (k + 1) = n) (hlt : next.toNat < n)
      (h : m.moved ∨ m.tail ≠ indexInvalid ∧ next = r.ord (tp + cnt) ∧ tp + cnt < r.hi) :
      ConsCount n c r tp m seen (c.countLoop next cnt (k + 1))
  | check {cnt : Nat} (h : m.moved ∨ seen ((cnt : Int) + 1)) :
      ConsCount n c r tp m seen (c.checkOverrun cnt)
  | done {k : Int} (h : seen k) : ConsCount n c r tp m seen (.ret k)

/-- Where the producer is in its count. -/
inductive ProdCount (n : Nat) (p : ProducerQueue) (r : Ring) (seen : Int → Prop) :
    QueueProg Int → Prop
  | start (hp : p.head ≠ indexInvalid) : ProdCount n p r seen p.countMsgs
  /-- `tp` is where the tail was when the count began -/
  | walk {tp cnt k : Nat} (hp : p.head ≠ indexInvalid) (hk : cnt + (k + 1) = n) (hlo : r.lo ≤ tp)
      (hlt : tp + cnt < r.hi) (hhi : r.hi < tp + n) (h : seen ((r.hi - tp : Nat) : Int)) :
      ProdCount n p r seen (p.countLoop (r.ord (tp + cnt)) cnt (k + 1))
  | done {k : Int} (h : seen k) : ProdCount n p r seen (.ret k)

/-! What an access does. -/

/-- The first operation of the count of the consumer loads the tail. -/
theorem ConsumerQueue.countMsgs_step (c : ConsumerQueue) (m : QueueMem) :
    c.countMsgs.step QueueOp.exec m =
      some (if m.tail = indexInvalid then .ret 0
        else if ¬ m.tail.consumed ∧ ¬ m.tail.first then .ret ((c.nMsgs : Int) - 1)
        else if ¬ queueIndexValid c.nMsgs m.tail.slot then .ret (-1)
        else c.countLoop m.tail.slot 0 c.nMsgs, m) := rfl

/-- The next ones follow the shared chain. -/
theorem ConsumerQueue.countLoop_step (c : ConsumerQueue) (next : Index) (cnt k : Nat) (m : QueueMem) :
    (c.countLoop next cnt (k + 1)).step QueueOp.exec m =
      some (if m.chain next = indexInvalid then c.checkOverrun cnt
        else if ¬ queueIndexValid c.nMsgs (m.chain next) then .ret (-1)
        else c.countLoop (m.chain next) (cnt + 1) k, m) := rfl

/-- The last one loads the tail again. -/
theorem ConsumerQueue.checkOverrun_step (c : ConsumerQueue) (cnt : Nat) (m : QueueMem) :
    (c.checkOverrun cnt).step QueueOp.exec m =
      some (if ¬ m.tail.consumed ∧ ¬ m.tail.first then .ret ((c.nMsgs : Int) - 1)
        else .ret ((cnt : Int) + 1), m) := rfl

/-- The first operation of the count of the producer. -/
theorem ProducerQueue.countMsgs_step {p : ProducerQueue} (hp : p.head ≠ indexInvalid) (m : QueueMem) :
    p.countMsgs.step QueueOp.exec m =
      some (if ¬ m.tail.consumed ∧ ¬ m.tail.first then .ret ((p.nMsgs : Int) - 1)
        else if ¬ queueIndexValid p.nMsgs m.tail.slot then .ret (-1)
        else p.countLoop m.tail.slot 0 p.nMsgs, m) := by
  rw [ProducerQueue.countMsgs, if_neg hp]
  rfl

/-- The next ones; the producer does not look at the tail again. -/
theorem ProducerQueue.countLoop_step {next : Index} (hnext : next ≠ indexInvalid) (p : ProducerQueue)
    (cnt k : Nat) (m : QueueMem) : (p.countLoop next cnt (k + 1)).step QueueOp.exec m =
      some (p.countLoop (m.chain next) (cnt + 1) k, m) := by
  rw [ProducerQueue.countLoop, if_neg hnext]
  rfl

section count

variable {n : Nat} {r r' : Ring} {tp tp' : Nat} {p : ProducerQueue} {c : ConsumerQueue}
  {m m' : QueueMem} {seen seen' : Int → Prop} {prog prog' : QueueProg Int}

/-- An access of the consumer's count. -/
theorem ConsCount.access (hn : SizeOk n) (hc : c.nMsgs = n) (hunset : m.tail = indexInvalid → seen 0)
    (hread : CountFacts n r tp m seen) (h : ConsCount n c r tp m seen prog)
    (hs : prog.step QueueOp.exec m = some (prog', m')) :
    m' = m ∧ ConsCount n c r tp m seen prog' := by
  have h3 := hn.three_le
  have hlength := hread.length
  cases h with
  | start =>
    rw [ConsumerQueue.countMsgs_step] at hs
    obtain ⟨rfl, rfl⟩ := Prod.mk.inj (Option.some.inj hs)
    refine ⟨rfl, ?_⟩
    by_cases ht : m.tail = indexInvalid
    · rw [if_pos ht]
      exact .done (hunset ht)
    · rw [if_neg ht]
      by_cases hm : m.moved
      · rw [if_pos hm, hc]
        exact .done (hread.moved hm)
      · obtain ⟨hslot, hlo, hlt⟩ := hread.slot ht
        have hvalid := (hread.listed ht).lt tp
        rw [if_neg hm, hslot, if_neg (not_not.mpr (hc ▸ hvalid)), hc]
        obtain ⟨k, rfl⟩ : ∃ k, n = k + 1 := ⟨n - 1, by omega⟩
        exact .walk (Nat.zero_add _) hvalid (Or.inr ⟨ht, rfl, hlt⟩)
  | @walk next cnt k hk hlt hat =>
    rw [ConsumerQueue.countLoop_step] at hs
    obtain ⟨rfl, rfl⟩ := Prod.mk.inj (Option.some.inj hs)
    refine ⟨rfl, ?_⟩
    -- the walk goes on, and the last round of the loop finds the tail moved
    have hgo : ∀ next : Index, next.toNat < n → next ≠ indexInvalid →
        (m.moved ∨ m.tail ≠ indexInvalid ∧ next = r.ord (tp + (cnt + 1)) ∧ tp + (cnt + 1) < r.hi) →
        ConsCount n c r tp m seen (c.countLoop next (cnt + 1) k) := by
      intro next hnext hne h
      cases k with
      | zero =>
        rcases h with hm | ⟨-, -, hend⟩
        · show ConsCount n c r tp m seen (.ret ((c.nMsgs : Int) - 1))
          rw [hc]
          exact .done (hread.moved hm)
        · omega
      | succ k => exact .walk (by omega) hnext h
    rcases hat with hm | ⟨ht, rfl, hend⟩
    · by_cases hnone : m.chain next = indexInvalid
      · rw [if_pos hnone]
        exact .check (Or.inl hm)
      · have hvalid := (hread.word next hlt).resolve_left hnone
        rw [if_neg hnone, if_neg (not_not.mpr (hc ▸ hvalid))]
        exact hgo _ hvalid hnone (Or.inl hm)
    · have hlist := hread.listed ht
      obtain ⟨-, hlo, -⟩ := hread.slot ht
      by_cases hnext : tp + cnt + 1 < r.hi
      · have hvalid := hlist.lt (tp + cnt + 1)
        rw [hlist.next _ (by omega) hnext, if_neg (hn.ne_invalid hvalid),
          if_neg (not_not.mpr (hc ▸ hvalid))]
        exact hgo _ hvalid (hn.ne_invalid hvalid) (Or.inr ⟨ht, rfl, hnext⟩)
      · -- the end of the list
        have hlast := hlist.last
        rw [show r.hi - 1 = tp + cnt from by omega] at hlast
        rw [if_pos hlast]
        by_cases hm : m.moved
        · exact .check (Or.inl hm)
        · have hseen := hread.walk ht hm
          rw [show r.hi - tp = cnt + 1 from by omega] at hseen
          exact .check (Or.inr (by exact_mod_cast hseen))
  | @check cnt hat =>
    rw [ConsumerQueue.checkOverrun_step] at hs
    obtain ⟨rfl, rfl⟩ := Prod.mk.inj (Option.some.inj hs)
    refine ⟨rfl, ?_⟩
    by_cases hm : m.moved
    · rw [if_pos hm, hc]
      exact .done (hread.moved hm)
    · rw [if_neg hm]
      exact .done (hat.resolve_left hm)
  | done => cases hs

/-- A step of the producer while the consumer counts. -/
theorem ConsCount.prod (h : ConsCount n c r tp m seen prog) (hseen : ∀ k, seen k → seen' k)
    (hhi : r.hi ≤ r'.hi) (hord : ∀ j, j < r.hi → r'.ord j = r.ord j)
    (htail : m.tail ≠ indexInvalid → (m'.tail = m.tail ∧ tp' = tp) ∨ m'.moved) :
    ConsCount n c r' tp' m' seen' prog := by
  have hmoved : m.moved → m'.moved := by
    intro hm
    rcases htail (moved_ne_invalid hm) with ⟨heq, -⟩ | hm'
    · rw [QueueMem.moved, heq]
      exact hm
    · exact hm'
  cases h with
  | start => exact .start
  | walk hk hlt hat =>
    refine .walk hk hlt ?_
    rcases hat with hm | ⟨ht, rfl, hend⟩
    · exact Or.inl (hmoved hm)
    · rcases htail ht with ⟨heq, rfl⟩ | hm'
      · exact Or.inr ⟨heq ▸ ht, (hord _ hend).symm, lt_of_lt_of_le hend hhi⟩
      · exact Or.inl hm'
  | check hat => exact .check (hat.imp hmoved (hseen _))
  | done hat => exact .done (hseen _ hat)

/-- An access of the producer's count. -/
theorem ProdCount.access (hn : SizeOk n) (hp : p.nMsgs = n)
    (hset : p.head ≠ indexInvalid → m.tail ≠ indexInvalid)
    (hhi : r.hi < tp + n) (hread : CountFacts n r tp m seen) (h : ProdCount n p r seen prog)
    (hs : prog.step QueueOp.exec m = some (prog', m')) : m' = m ∧ ProdCount n p r seen prog' := by
  have h3 := hn.three_le
  cases h with
  -- the tail is loaded: moved, or the walk begins at its slot
  | start hhead =>
    rw [ProducerQueue.countMsgs_step hhead] at hs
    obtain ⟨rfl, rfl⟩ := Prod.mk.inj (Option.some.inj hs)
    refine ⟨rfl, ?_⟩
    have ht := hset hhead
    by_cases hm : m.moved
    · rw [if_pos hm, hp]
      exact .done (hread.moved hm)
    · obtain ⟨hslot, hlo, hlt⟩ := hread.slot ht
      have hvalid := (hread.listed ht).lt tp
      rw [if_neg hm, hslot, if_neg (not_not.mpr (hp ▸ hvalid)), hp]
      obtain ⟨k, rfl⟩ : ∃ k, n = k + 1 := ⟨n - 1, by omega⟩
      exact @ProdCount.walk _ _ _ _ tp 0 k hhead (Nat.zero_add _) hlo hlt hhi (hread.walk ht hm)
  -- the walk goes on along the chain, which ends at the newest message
  | @walk t cnt k hhead hk hlo hlt hbound hat =>
    have hlist := hread.listed (hset hhead)
    rw [ProducerQueue.countLoop_step (hn.ne_invalid (hlist.lt _))] at hs
    obtain ⟨rfl, rfl⟩ := Prod.mk.inj (Option.some.inj hs)
    refine ⟨rfl, ?_⟩
    obtain ⟨k, rfl⟩ : ∃ j, k = j + 1 := ⟨k - 1, by omega⟩
    by_cases hnext : t + cnt + 1 < r.hi
    · rw [hlist.next _ (by omega) hnext]
      exact @ProdCount.walk _ _ _ _ t (cnt + 1) k hhead (by omega) hlo hnext hbound hat
    · have hlast := hlist.last
      rw [show r.hi - 1 = t + cnt from by omega] at hlast
      rw [hlast, ProducerQueue.countLoop, if_pos rfl]
      rw [show r.hi - t = cnt + 1 from by omega] at hat
      exact .done hat
  | done => cases hs

/-- What has been seen stays seen. -/
theorem ProdCount.mono (h : ProdCount n p r seen prog) (hseen : ∀ k, seen k → seen' k) :
    ProdCount n p r seen' prog := by
  cases h with
  | start hp => exact .start hp
  | walk hp hk hlo hlt hhi hat => exact .walk hp hk hlo hlt hhi (hseen _ hat)
  | done hat => exact .done (hseen _ hat)

end count

/-! ## Runs -/

section runs

variable {β : Type} {n : Nat} {side : Side} {s : QueueState β} {prog : QueueProg Int}
  {tr : List (CountEvent β × QueueOutcome)} {w : Counting β} {k : Int}

/-- At some moment of the run a count that ran alone would have returned `k`. -/
def Snapshot (n : Nat) (side : Side) (s : QueueState β) (prog : QueueProg Int)
    (tr : List (CountEvent β × QueueOutcome)) (k : Int) : Prop :=
  ∃ tr₁ tr₂ u, tr = tr₁ ++ tr₂ ∧ (countSystem side s prog).Run CountSafe tr₁ u ∧
    prog.run QueueOp.exec u.queue.mem = some (k, u.queue.mem) ∧ 0 ≤ k ∧ k ≤ n ∧
    ((∃ p, u.queue.prod = .idle p) → k < n)

/-- A moment of the call stays one as the call goes on. -/
theorem Snapshot.extend (h : Snapshot n side s prog tr k) (eo : CountEvent β × QueueOutcome) :
    Snapshot n side s prog (tr ++ [eo]) k := by
  obtain ⟨tr₁, tr₂, u, rfl, hu, hk⟩ := h
  exact ⟨tr₁, tr₂ ++ [eo], u, List.append_assoc _ _ _, hu, hk⟩

/-- What holds while a side counts: the queue has its invariants, and the count is where its accesses
    have brought it. -/
structure CountInv (n : Nat) (seen : Int → Prop) (side : Side) (prog : QueueProg Int) (r : Ring)
    (tp : Nat) (ph : ProducerPhase) (cph : ConsumerPhase) (w : Counting β) : Prop where
  prod : w.queue.prod = ph.thread
  cons : w.queue.cons = cph.thread
  queue : QueueInv n r ph cph w.queue.mem
  delivery : Delivery n r tp ph w.queue
  follows : Follows n r tp ph.queue.overrun w.queue cph
  count : match side with
    | .producer => ∃ p, ph = .idle p ∧ prog = p.countMsgs ∧ ProdCount n p r seen w.left
    | .consumer => ∃ c, cph = .idle c ∧ prog = c.countMsgs ∧ ConsCount n c r tp w.queue.mem seen w.left

/-- A count that ran alone now. -/
theorem CountInv.readable {r : Ring} {tp : Nat} {ph : ProducerPhase} {cph : ConsumerPhase}
    {seen : Int → Prop} (hn : SizeOk n) (h : CountInv n seen side prog r tp ph cph w)
    (hr : (countSystem side s prog).Run CountSafe tr w) :
    CountFacts n r tp w.queue.mem (Snapshot n side s prog tr) ∧
    (side = .consumer → w.queue.mem.tail = indexInvalid → Snapshot n side s prog tr 0) := by
  have h3 := hn.three_le
  obtain ⟨hle, hlt⟩ := h.delivery.length_le h.queue
  have hset := fun ht => h.delivery.set (h.queue.shared.head_ne rfl ht)
  have hnow : ∀ k : Nat, prog.run QueueOp.exec w.queue.mem = some ((k : Int), w.queue.mem) → k ≤ n →
      ((∃ p, w.queue.prod = .idle p) → k < n) → Snapshot n side s prog tr k := by
    intro k hrun hkn hidle
    refine ⟨tr, [], w, (List.append_nil _).symm, hr, hrun, Int.natCast_nonneg k, ?_, fun hp => ?_⟩
    · exact_mod_cast hkn
    · exact_mod_cast hidle hp
  have hidle : (∃ p, w.queue.prod = .idle p) → ph.pending = 1 := by
    rintro ⟨p, hp⟩
    rw [ProducerPhase.thread_eq_idle (h.prod.symm.trans hp)]
    rfl
  have hmoved : prog.run QueueOp.exec w.queue.mem = some ((n : Int) - 1, w.queue.mem) →
      Snapshot n side s prog tr ((n : Int) - 1) := by
    intro hrun
    have h1 : ((n - 1 : Nat) : Int) = (n : Int) - 1 := by omega
    rw [← h1] at hrun ⊢
    exact hnow _ hrun (by omega) fun _ => by omega
  have hcount := h.count
  refine ⟨⟨?_, h.queue.listed, fun ht => ?_, hle, fun hm => hmoved ?_, fun ht hm => hnow _ ?_ ?_ ?_⟩, ?_⟩
  · intro i hi
    rw [h.queue.shared.chain i hi]
    exact h.queue.ring.path.word i hi
  · exact ⟨(hset ht).2, h.delivery.lo_le, (hset ht).1⟩
  · -- a tail that has been moved
    cases side with
    | producer =>
      obtain ⟨p, rfl, rfl, -⟩ := hcount
      have hhead : p.head ≠ indexInvalid := h.queue.shared.head_ne rfl (moved_ne_invalid hm)
      rw [prod_alone_moved hhead hm, h.queue.ring.1.nMsgs]
    | consumer =>
      obtain ⟨c, rfl, rfl, -⟩ := hcount
      rw [cons_alone_moved hm, show c.nMsgs = n from h.queue.cons.nMsgs]
  · obtain ⟨hlo, hslot⟩ := hset ht
    cases side with
    | producer =>
      obtain ⟨p, rfl, rfl, -⟩ := hcount
      exact prod_alone_walk hn (h.queue.listed ht) (h.queue.shared.head_ne rfl ht) h.queue.ring.1.nMsgs hm
        hslot h.delivery.lo_le hlo (hlt rfl)
    | consumer =>
      obtain ⟨c, rfl, rfl, -⟩ := hcount
      exact cons_alone_walk hn (h.queue.listed ht) h.queue.cons.nMsgs hm ht hslot h.delivery.lo_le hlo hle
  · omega
  · intro hp
    have hlt' := hlt (hidle hp)
    have hpos := (hset ht).1
    omega
  · rintro rfl ht
    obtain ⟨c, rfl, rfl, -⟩ := hcount
    exact hnow 0 (cons_alone_unset ht) (Nat.zero_le _) fun _ => by omega

/-- One step, of the counting side or of the other one. -/
theorem CountInv.step {r : Ring} {tp : Nat} {ph : ProducerPhase} {cph : ConsumerPhase}
    {e : CountEvent β} {w' : Counting β} {o : QueueOutcome} (hn : SizeOk n)
    (h : CountInv n (Snapshot n side s prog tr) side prog r tp ph cph w)
    (hr : (countSystem side s prog).Run CountSafe tr w) (hok : CountSafe w e)
    (hs : (countSystem side s prog).step w e = some (w', o)) :
    ∃ r tp ph cph, CountInv n (Snapshot n side s prog (tr ++ [(e, o)])) side prog r tp ph cph w' := by
  have hseen : ∀ k, Snapshot n side s prog tr k → Snapshot n side s prog (tr ++ [(e, o)]) k :=
    fun k hk => hk.extend _
  cases e with
  | other e =>
    obtain ⟨hne, s', hs', rfl⟩ : e.side ≠ side ∧ ∃ s', w.queue.step e = some (s', o) ∧
        w' = { w with queue := s' } := by
      change (if e.side = side then none else _) = _ at hs
      split at hs
      · cases hs
      · rename_i hne
        obtain ⟨⟨s', o'⟩, hs', heq⟩ := Option.map_eq_some_iff.mp hs
        cases heq
        exact ⟨hne, s', hs', rfl⟩
    obtain ⟨r', ph', cph', hstep, hph', hcph'⟩ := queueStep_cases hn h.prod h.cons h.queue.ring hs'
    have hqueue := hstep.queueInv hn h.queue
    have hcount := h.count
    cases side with
    | producer =>
      obtain ⟨p, rfl, hprog, hcount⟩ := hcount
      have hside : e.side = .consumer := by
        cases e <;> first | rfl | exact absurd rfl hne
      obtain ⟨rfl, rfl⟩ := hstep.of_consumer hside
      obtain ⟨tp', hd', hf', -⟩ := hstep.delivery hn h.queue h.delivery h.follows
        (by rintro rfl; exact hok.released hn h.prod h.queue.ring h.delivery)
        (by rintro rfl; exact hok.headNew h.cons)
      exact ⟨r', tp', _, cph', hph', hcph', hqueue, hd', hf', p, rfl, hprog, hcount.mono hseen⟩
    | consumer =>
      obtain ⟨c, rfl, hprog, hcount⟩ := hcount
      have hside : e.side = .producer := by
        cases e <;> first | rfl | exact absurd rfl hne
      obtain ⟨rfl, tp', hd', hf', hhi, hord, htail⟩ :=
        hstep.of_producer hn h.queue h.delivery h.follows hok h.prod hside
      exact ⟨r', tp', ph', _, hph', hcph', hqueue, hd', hf', c, rfl, hprog,
        hcount.prod hseen hhi hord htail⟩
  | access =>
    obtain ⟨⟨prog', m'⟩, hs', heq⟩ := Option.map_eq_some_iff.mp hs
    cases heq
    obtain ⟨hread, hunset⟩ := h.readable hn hr
    have hcount := h.count
    -- the accesses are loads: the memory stays as it is
    have hsame : ∀ m', m' = w.queue.mem → ({ w.queue with mem := m' } : QueueState β) = w.queue := by
      rintro m' rfl
      rfl
    cases side with
    | producer =>
      obtain ⟨p, rfl, hprog, hcount⟩ := hcount
      have hlist : p.head ≠ indexInvalid → w.queue.mem.tail ≠ indexInvalid :=
        fun hhead => (h.queue.shared.tail hhead).ne_invalid
      obtain ⟨hm, hcount'⟩ := hcount.access hn h.queue.ring.1.nMsgs hlist
        ((h.delivery.length_le h.queue).2 rfl) hread hs'
      exact ⟨r, tp, _, cph, h.prod, h.cons, (hsame m' hm).symm ▸ h.queue, (hsame m' hm).symm ▸ h.delivery,
        (hsame m' hm).symm ▸ h.follows, p, rfl, hprog, hcount'.mono hseen⟩
    | consumer =>
      obtain ⟨c, rfl, hprog, hcount⟩ := hcount
      obtain ⟨rfl, hcount'⟩ := hcount.access hn h.queue.cons.nMsgs (hunset rfl) hread hs'
      exact ⟨r, tp, ph, _, h.prod, h.cons, h.queue, h.delivery, h.follows, c, rfl, hprog,
        hcount'.prod hseen le_rfl (fun _ _ => rfl) fun _ => Or.inl ⟨rfl, rfl⟩⟩

/-- The invariant of a count, in every run around it. -/
theorem countInv_run (hn : SizeOk n) {tr₀ : List (QueueEvent β × QueueOutcome)}
    (hr : (queueSystem β n).Run FlushSafe tr₀ s) (hprog : s.countProg side = some prog)
    (hw : (countSystem side s prog).Run CountSafe tr w) :
    ∃ r tp ph cph, CountInv n (Snapshot n side s prog tr) side prog r tp ph cph w := by
  induction hw with
  | @init w hinit =>
    obtain rfl : w = ⟨s, prog⟩ := hinit
    obtain ⟨r, ph, cph, hph, hcph, hinv, tp, hd, hf⟩ := delivery_run hn hr
    refine ⟨r, tp, ph, cph, hph, hcph, hinv, hd, hf, ?_⟩
    cases side with
    | producer =>
      cases ph with
      | idle p =>
        rw [QueueState.countProg, hph] at hprog
        obtain rfl := Option.some.inj hprog
        refine ⟨p, rfl, rfl, ?_⟩
        by_cases hhead : p.head = indexInvalid
        · -- nothing has been pushed: no access is made
          have hzero : p.countMsgs = .ret 0 := if_pos hhead
          have h3 := hn.three_le
          rw [hzero]
          exact .done ⟨[], [], ⟨s, .ret 0⟩, rfl, .init rfl, rfl, le_rfl, by omega, fun _ => by omega⟩
        · exact .start hhead
      | _ =>
        rw [QueueState.countProg, hph] at hprog
        cases hprog
    | consumer =>
      cases cph with
      | idle c =>
        rw [QueueState.countProg, hcph] at hprog
        obtain rfl := Option.some.inj hprog
        exact ⟨c, rfl, rfl, .start⟩
      | _ =>
        rw [QueueState.countProg, hcph] at hprog
        cases hprog
  | step hw hok hs ih =>
    obtain ⟨r, tp, ph, cph, h⟩ := ih
    exact h.step hn hw hok hs

/-- A count that the other side overlaps with any steps returns what it would have returned if it had
    run alone at some moment of the call.  It is never an error, and at most the number of slots; with
    no push running at that moment it is less. -/
theorem count_atomic (h3 : 3 ≤ n) (hmax : n ≤ 2 ^ 30) {tr₀ : List (QueueEvent β × QueueOutcome)}
    (hr : (queueSystem β n).Run FlushSafe tr₀ s) (hprog : s.countProg side = some prog)
    (hw : (countSystem side s prog).Run CountSafe tr w) (hret : w.result = some k) :
    ∃ tr₁ tr₂ u, tr = tr₁ ++ tr₂ ∧ (countSystem side s prog).Run CountSafe tr₁ u ∧
      prog.run QueueOp.exec u.queue.mem = some (k, u.queue.mem) ∧ 0 ≤ k ∧ k ≤ n ∧
      ((∃ p, u.queue.prod = .idle p) → k < n) := by
  have hn : SizeOk n := ⟨h3, hmax⟩
  obtain ⟨r, tp, ph, cph, h⟩ := countInv_run hn hr hprog hw
  have hcount := h.count
  unfold Counting.result at hret
  cases side with
  | producer =>
    obtain ⟨p, -, -, hcount⟩ := hcount
    generalize w.left = left at hret hcount
    cases hcount with
    | start hp => rw [ProducerQueue.countMsgs, if_neg hp] at hret; cases hret
    | @walk t cnt =>
      have hne := hn.ne_invalid (h.queue.ring.path.lt (t + cnt))
      rw [ProducerQueue.countLoop, if_neg hne] at hret
      cases hret
    | done hseen => cases hret; exact hseen
  | consumer =>
    obtain ⟨c, -, -, hcount⟩ := hcount
    generalize w.left = left at hret hcount
    cases hcount with
    | done hseen => cases hret; exact hseen
    | _ => cases hret

/-- The consumer counts three messages in a queue of three slots: a push has found the queue full, and
    has appended its message but not yet moved the tail. -/
theorem count_atomic_full : ∃ tr₀ s prog tr w, (queueSystem Nat 3).Run FlushSafe tr₀ s ∧
    s.countProg .consumer = some prog ∧ (countSystem .consumer s prog).Run CountSafe tr w ∧
    w.result = some 3 ∧ ∃ tr₁ tr₂ u, tr = tr₁ ++ tr₂ ∧
      (countSystem .consumer s prog).Run CountSafe tr₁ u ∧
      prog.run QueueOp.exec u.queue.mem = some (3, u.queue.mem) := by
  have hplay : ((QueueState.play 3 0 FlushSafe
      [.write 10, .push .forcePush, .prodStep, .prodStep, .prodStep, .pop .pop, .consStep,
        .write 11, .push .forcePush, .prodStep, .prodStep, .prodStep, .prodStep]).bind fun ts =>
      (ts.2.countProg .consumer).bind fun prog =>
        (countSystem .consumer ts.2 prog).exec CountSafe
          [.access, .other (.write 12), .access, .other (.push .forcePush), .other .prodStep,
            .other .prodStep, .access, .other .prodStep, .access, .access]
          ([], ⟨ts.2, prog⟩)).any (fun tw => decide (tw.2.result = some 3)) = true := by decide
  obtain ⟨⟨tr, w⟩, hplay, hres⟩ := (Option.any_eq_true _ _).mp hplay
  obtain ⟨⟨tr₀, s⟩, hplay₀, hplay⟩ := Option.bind_eq_some_iff.mp hplay
  obtain ⟨prog, hprog, hexec⟩ := Option.bind_eq_some_iff.mp hplay
  obtain ⟨s₀, hcreate, hexec₀⟩ := Option.bind_eq_some_iff.mp hplay₀
  have hr : (queueSystem Nat 3).Run FlushSafe tr₀ s :=
    Machine.Run.exec (.init ⟨_, _, _, hcreate⟩) hexec₀
  have hw : (countSystem .consumer s prog).Run CountSafe tr w := Machine.Run.exec (.init rfl) hexec
  have hret : w.result = some 3 := of_decide_eq_true hres
  obtain ⟨tr₁, tr₂, u, heq, hu, hrun, -⟩ := count_atomic (by decide) (by decide) hr hprog hw hret
  exact ⟨tr₀, s, prog, tr, w, hr, hprog, hw, hret, tr₁, tr₂, u, heq, hu, hrun⟩

end runs

end Rtipc
