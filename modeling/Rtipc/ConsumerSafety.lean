/-
  The consumer against a faulty or hostile producer.

  The shared words are answered by an environment that may give any value at each access.  Every
  index the consumer reads the chain with has been checked right before, and `current` only ever
  takes checked values; so a broken peer can at worst make the consumer return an error
  (`consumer_robust`).

  The guarantee of a call is a property of its program, with nothing assumed about the answers: `Keeps n
  op c Q` says that every load is of a word of the queue, that at most so many are made, and that the
  result satisfies `Q`.  Each function has one such lemma, proved by running through the code and
  splitting at its checks; what the checks have established is what the next access needs.

  The results are put together by `Client.good_run`, the general rule for a client of a shared memory
  that may answer anything.  It speaks of every reachable state, so an error in one call does no harm to
  the calls after it.
-/
import Rtipc.Consumer
import Rtipc.Lib.Client

namespace Rtipc

/-- The calls of a consumer. -/
inductive ConsumerCall where
  | pop
  | flush
  | countMsgs
  deriving DecidableEq, Repr

/-- What the calls of a consumer return. -/
inductive ConsumerResult where
  | popped (r : PopResult)
  | count (k : Int)
  deriving DecidableEq, Repr

/-- The call hands out no message. -/
def ConsumerResult.keeps : ConsumerResult → Bool
  | popped r => decide (r = .error ∨ r = .noMsg ∨ r = .noUpdate)
  | count _ => true

/-- `ri_consumer_queue_pop`, a pass of `ri_consumer_queue_flush` or `ri_consumer_queue_count_msgs`. -/
def ConsumerCall.prog :
    ConsumerCall → ConsumerQueue → QueueProg (ConsumerQueue × Loop ConsumerResult)
  | pop, c => do
    let (c, r) ← c.pop
    return (c, .done (.popped r))
  | flush, c => do
    let (c, l) ← c.flushPass
    return (c, l.map .popped)
  | countMsgs, c => do
    let k ← c.countMsgs
    return (c, .done (.count k))

/-- A consumer of the queue and what its last call returned. -/
abbrev ConsumerClient : Type :=
  Client QueueOp QueueOp.Ans ConsumerQueue ConsumerCall ConsumerResult

/-- A consumer of a queue with `n` slots, alone with an environment that may do anything. -/
def consumerClient (n : Nat) :
    Machine ConsumerClient (ClientEvent QueueOp QueueOp.Ans ConsumerCall) Unit :=
  clientMachine (fun c => c = ConsumerQueue.new n) ConsumerCall.prog

namespace ConsumerQueue

/-- No message, or a slot of the queue. -/
def Ok (n : Nat) (c : ConsumerQueue) : Prop :=
  c.nMsgs = n ∧ (c.current = indexInvalid ∨ c.current.toNat < n)

/-- What a call leaves behind: a call that hands out no message changes nothing. -/
def OkAfter (n : Nat) (c₀ : ConsumerQueue) (last : Option ConsumerResult) (c : ConsumerQueue) :
    Prop :=
  c.Ok n ∧ ∀ r, last = some r → r.keeps = true → c = c₀

/-- What a consumer may access, `k` accesses into the call `op`. -/
def MayAccess (n : Nat) (op : ConsumerCall) (k : Nat) (o : QueueOp) : Prop :=
  o.InBounds n ∧ (op ≠ .flush → k < n + 3)

/-- Any answer. -/
def anyAnswer (_ : ConsumerCall) (_ : ConsumerQueue) (_ : Nat) (o : QueueOp) (_ : o.Ans) : Prop :=
  True

section calls

variable {n : Nat} {c : ConsumerQueue}

/-- What the code of a call guarantees against any answers. -/
abbrev Keeps {α : Type} (n : Nat) (op : ConsumerCall) (c : ConsumerQueue) (Q : α → Prop)
    (prog : QueueProg α) (k : Nat) : Prop :=
  prog.Always (anyAnswer op c) (MayAccess n op) Q k

/-- A call that leaves the private state alone. -/
theorem OkAfter.keep (h : c.Ok n) (r : ConsumerResult) : OkAfter n c (some r) c :=
  ⟨h, fun _ _ _ => rfl⟩

/-- A call that has taken a message: the new current slot is one of the queue. -/
theorem OkAfter.take (h : c.nMsgs = n) {idx : Index} (hidx : idx.toNat < n) {r : PopResult}
    (hr : r = .success ∨ r = .discarded) :
    OkAfter n c (some (.popped r)) { c with current := idx } := by
  refine ⟨⟨h, Or.inr hidx⟩, fun r' hr' hkeeps => ?_⟩
  obtain rfl := Option.some.inj hr'
  rcases hr with rfl | rfl <;> cases hkeeps

/-- A pop, whatever it reads: each index it stores or follows has been compared with the number of
    slots. -/
theorem pop_always (h : c.Ok n) :
    Keeps n .pop c (fun x => OkAfter n c (some (.popped x.2)) x.1) c.pop 0 := by
  obtain ⟨hn, hcur⟩ := h
  -- Every way out but the last two leaves the private state alone.
  have hkeep : ∀ r, OkAfter n c (some (.popped r)) c := fun r => .keep ⟨hn, hcur⟩ _
  simp only [Keeps, pop, Prog.perform_bind]
  refine Prog.always_act.mpr ⟨⟨trivial, fun _ => by omega⟩, fun tail _ => ?_⟩
  split
  · exact hkeep _
  split
  · exact hkeep _
  rename_i hv
  split
  · refine OkAfter.take hn (hn ▸ Decidable.not_not.mp hv) ?_
    split
    · exact Or.inl rfl
    · exact Or.inr rfl
  split
  · exact hkeep _
  rename_i hne
  -- the held slot was a slot when it was taken, so its word may be read
  refine Prog.always_act.mpr ⟨⟨hcur.resolve_left hne, fun _ => by omega⟩, fun next _ => ?_⟩
  split
  · exact hkeep _
  split
  · exact hkeep _
  -- the next slot has been compared with the number of slots
  rename_i hvnext
  refine Prog.always_act.mpr ⟨⟨trivial, fun _ => by omega⟩, fun swapped _ => ?_⟩
  split
  · exact OkAfter.take hn (hn ▸ Decidable.not_not.mp hvnext) (Or.inl rfl)
  · refine Prog.always_act.mpr ⟨⟨trivial, fun _ => by omega⟩, fun current _ => ?_⟩
    split
    · exact hkeep _
    · rename_i hvcur
      exact OkAfter.take hn (hn ▸ Decidable.not_not.mp hvcur) (Or.inr rfl)

/-- One pass of a flush, whatever it reads: it takes a slot or is to be repeated. -/
theorem flushPass_always (h : c.Ok n) :
    Keeps n .flush c (fun x => Returns (OkAfter n) (ConsumerCall.prog .flush c) c
      (x.1, x.2.map .popped)) c.flushPass 0 := by
  obtain ⟨hn, hcur⟩ := h
  have hkeep : ∀ r, OkAfter n c (some (.popped r)) c := fun r => .keep ⟨hn, hcur⟩ _
  simp only [Keeps, flushPass, Prog.perform_bind]
  refine Prog.always_act.mpr ⟨⟨trivial, fun hne => absurd rfl hne⟩, fun tail _ => ?_⟩
  split
  · exact hkeep _
  split
  · exact hkeep _
  refine Prog.always_act.mpr ⟨⟨trivial, fun hne => absurd rfl hne⟩, fun head _ => ?_⟩
  split
  · exact hkeep _
  rename_i hv
  refine Prog.always_act.mpr ⟨⟨trivial, fun hne => absurd rfl hne⟩, fun swapped _ => ?_⟩
  split
  · exact OkAfter.take hn (hn ▸ Decidable.not_not.mp hv) (Or.inr rfl)
  · exact ⟨rfl, fun hnone => by cases hnone⟩

/-- The loop makes one access a round, and one more when it finds the end. -/
theorem countLoop_always (hn : c.nMsgs = n) {next : Index} (hnext : next.toNat < n) (cnt j : Nat)
    (hj : cnt + j = n) :
    Keeps n .countMsgs c (fun _ => True) (c.countLoop next cnt j) (cnt + 1) := by
  induction j generalizing next cnt with
  | zero => trivial
  | succ j ih =>
    simp only [Keeps, countLoop, Prog.perform_bind]
    refine Prog.always_act.mpr ⟨⟨hnext, fun _ => by omega⟩, fun next' _ => ?_⟩
    split
    · refine Prog.always_act.mpr ⟨⟨trivial, fun _ => by omega⟩, fun tail _ => ?_⟩
      split <;> trivial
    split
    · trivial
    rename_i hv
    exact ih (hn ▸ Decidable.not_not.mp hv) (cnt + 1) (by omega)

/-- The count stays among the slots, however the chain looks. -/
theorem countMsgs_always (h : c.Ok n) :
    Keeps n .countMsgs c (fun _ => True) c.countMsgs 0 := by
  simp only [Keeps, countMsgs, Prog.perform_bind]
  refine Prog.always_act.mpr ⟨⟨trivial, fun _ => by omega⟩, fun tail _ => ?_⟩
  split
  · trivial
  split
  · trivial
  split
  · trivial
  rename_i hv
  exact countLoop_always h.1 (h.1 ▸ Decidable.not_not.mp hv) 0 c.nMsgs (by rw [h.1, Nat.zero_add])

/-- All three calls keep what the consumer guarantees. -/
theorem guarantees (n : Nat) : Guarantees ConsumerCall.prog (OkAfter n) (fun _ => True) anyAnswer
    (fun op _ => MayAccess n op) := by
  intro op c₀ last c hafter _
  have h := hafter.1
  cases op with
  | pop => exact ((pop_always h).mono fun _ hx _ => hx).bind
  | flush => exact ((flushPass_always h).mono fun _ hx _ => hx).bind
  | countMsgs => exact ((countMsgs_always h).mono fun _ _ _ => .keep h _).bind

end calls

end ConsumerQueue

/-- Whatever the environment answers: the chain is read below `n` only; between two calls the
    consumer has no message or a slot of the queue, and a call that returns `ERROR`, `NO_MSG` or
    `NO_UPDATE` has changed nothing; in a call the code is never stuck, and a pop or a count has
    returned after `n + 3` accesses. -/
theorem consumer_robust {n : Nat} {tr : List (ClientEvent QueueOp QueueOp.Ans ConsumerCall × Unit)}
    {c : ConsumerClient} (hr : (consumerClient n).Run Machine.always tr c) :
    (∀ idx, c.thread.nextOp = some (.chainLoad idx) → idx.toNat < n) ∧
    (∀ q, c.thread = .idle q →
      (q.current = indexInvalid ∧ q.msg = none ∨ q.current.toNat < n ∧ q.msg = some q.current) ∧
      ∀ r, c.last = some (.popped r) → r = .error ∨ r = .noMsg ∨ r = .noUpdate →
        q.current = c.start.current) ∧
    (∀ op prog, c.thread = .busy op prog →
      prog.nextOp ≠ none ∧ (op ≠ .flush → c.accesses < n + 3)) := by
  -- Nothing is asked of the answers.
  have hgood := Client.good_run (J := ConsumerQueue.OkAfter n) ?_ (ConsumerQueue.guarantees n)
    (fun _ _ _ => trivial) (fun _ _ _ _ _ _ _ => trivial) hr
  · cases hthread : c.thread with
    | idle q =>
      simp only [Client.Good, hthread] at hgood
      obtain ⟨⟨hn, hcur⟩, hkeep⟩ := hgood
      refine ⟨fun idx hop => (by cases hop), fun q' hq => ?_, fun op prog hbusy => (by cases hbusy)⟩
      obtain rfl := Thread.idle.inj hq
      refine ⟨?_, fun r hlast hr' => ?_⟩
      · -- no message, or one of the queue
        rcases hcur with hinvalid | hlt
        · exact Or.inl ⟨hinvalid, if_pos hinvalid⟩
        · by_cases hinvalid : q.current = indexInvalid
          · exact Or.inl ⟨hinvalid, if_pos hinvalid⟩
          · refine Or.inr ⟨hlt, ?_⟩
            rw [ConsumerQueue.msg, if_neg hinvalid, queueGetMsg_of_lt (hn.symm ▸ hlt)]
      · rw [← hkeep _ hlast (decide_eq_true hr')]
    | busy op prog =>
      simp only [Client.Good, hthread] at hgood
      obtain ⟨hnone, -, -, halways⟩ := hgood
      refine ⟨fun idx hop => ?_, fun q hq => (by cases hq), fun op' prog' hbusy => ?_⟩
      · -- the next access is one the program may make
        cases prog with
        | ret a => cases hop
        | fault => cases hop
        | act o f =>
          obtain rfl := Option.some.inj hop
          exact halways.1.1
      · obtain ⟨rfl, rfl⟩ := Thread.busy.inj hbusy
        cases prog with
        | ret a => exact absurd rfl hnone
        | fault => cases halways
        | act o f => exact ⟨hnone, halways.1.2⟩
  · -- at the start nothing is held
    rintro _ rfl
    exact ⟨⟨rfl, Or.inl rfl⟩, fun _ hlast => by cases hlast⟩

/-- A producer that announces slot 0, and then a slot that does not exist. -/
theorem consumer_robust_bad_next :
    ∃ tr c q, (consumerClient 3).Run Machine.always tr c ∧ c.thread = .idle q ∧
      c.last = some (.popped .error) ∧ c.start.current = 0 ∧ q.current = 0 := by
  obtain ⟨tr, c, hr, h⟩ := Machine.exists_run (consumerClient 3) Machine.always ⟨_, rfl, rfl⟩
    [.call .pop, .answer (.tailFetchOr consumedFlag) firstFlag,
      .call .pop, .answer (.tailFetchOr consumedFlag) consumedFlag, .answer (.chainLoad 0) 7#32]
    (fun _ c => c.thread.idleAnd fun _ =>
      decide (c.last = some (.popped .error) ∧ c.start.current = 0)) (by decide)
  obtain ⟨q, hq, h⟩ := Thread.exists_idle h
  obtain ⟨hlast, hstart⟩ := of_decide_eq_true h
  obtain ⟨-, hidle, -⟩ := consumer_robust hr
  exact ⟨tr, c, q, hr, hq, hlast, hstart, ((hidle q hq).2 .error hlast (Or.inl rfl)).trans hstart⟩

end Rtipc
