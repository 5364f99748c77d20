/-
  Do the two ways to flush a channel agree?

  With an eventfd `ri_consumer_flush` pops until a pop does not return success, without one it jumps to
  the head.  `Numbered` says that the unread messages are the last ones pushed, in order and intact, and
  that the one held is the one before them unless there is a gap; it holds between any two calls, and
  the counter of the eventfd is the number of unread messages (`Counted`).

  The jump always finds the newest message, and always says that messages were discarded.  The pops
  stop at a gap, and when they have taken all messages they say that there was no update.  So the two
  do what they should in no state but two kinds: nothing has been pushed, or in a queue of three slots
  the message after a gap is the only one (`flush_agrees_iff`).

  1. **What is compared.**  `FlushMeets` is what a caller may expect: the newest message is held
     afterwards, nothing is unread, and the code returned says whether anything new was found and
     whether anything was skipped (`flushCode`, in terms of message numbers alone).

  2. **The two ways.**  `Counted.flush_queue_iff` computes the jump and `Counted.flush_eventfd_iff` the
     pops, each from any state between two calls; `flush_agrees_iff` puts the two conditions together
     and expresses them in the words of the queue.

  3. **The crux.**  The pops go through the unread messages one after the other, so their result depends
     on where the first gap is.  `Counted.drain` is the induction on the number of unread messages:
     without a gap all pops but the last say SUCCESS.
-/
import Rtipc.CacheTransparency
import Rtipc.EventfdCount
import Rtipc.MessageCount

namespace Rtipc

/-! ## What a flush should return and hold

  As `rtipc.h` describes a flush, in terms of the messages that have been pushed and discarded. -/

namespace SequentialChannel

section defs

variable {β : Type}

/-- The number of the message the consumer holds. -/
def heldNumber (s : SequentialChannel β) : Option Nat :=
  s.cons.queue.msg.bind fun i => (s.stamp i).map Prod.fst

/-- How many messages have been pushed after the one the consumer holds. -/
def newer (s : SequentialChannel β) : Nat :=
  match s.heldNumber with
  | some j => s.pushed - (j + 1)
  | none => s.pushed

/-- What a flush should return: nothing was ever pushed, the held message is the newest one, there is
    one newer message, or there are more, and all but the newest are skipped or lost. -/
def flushCode (s : SequentialChannel β) : PopResult :=
  if s.pushed = 0 then .noMsg
  else match s.newer with
    | 0 => .noUpdate
    | 1 => .success
    | _ => .discarded

/-- The consumer holds the newest message, if any was pushed, as it was pushed. -/
def HoldsNewest (s : SequentialChannel β) : Prop :=
  ∀ j, s.pushed = j + 1 → ∃ i, s.cons.queue.msg = some i ∧ s.stamp i = some (j, s.mem.msgs i)

/-- Another `ri_consumer_queue_pop` would take nothing. -/
def NothingUnread (s : SequentialChannel β) : Prop :=
  ∃ c' res m', s.cons.queue.pop.run QueueOp.exec s.mem.queue = some ((c', res), m') ∧
    res.isTaken = false

/-- A flush returns, with the right code, and leaves the consumer with the newest message and nothing
    unread. -/
def FlushMeets (s : SequentialChannel β) : Prop :=
  ∃ passes s' x, s.flush passes = some (s', .popped s.flushCode x) ∧ s'.HoldsNewest ∧ s'.NothingUnread

/-- The same channel with eventfds: itself, or with a counter at the number of unread messages. -/
def withEventfd (n : Nat) (s : SequentialChannel β) : SequentialChannel β :=
  if s.cons.eventfd ≥ 0 then s
  else { s with
    mem := { s.mem with eventfd := s.mem.queue.unread n }
    prod := { s.prod with eventfd := 0 }
    cons := { s.cons with eventfd := 0 } }

/-- The same channel without eventfds. -/
def withoutEventfd (s : SequentialChannel β) : SequentialChannel β :=
  { s with
    prod := { s.prod with eventfd := -1 }
    cons := { s.cons with eventfd := -1 } }

end defs

end SequentialChannel

/-! ## Numbered messages

  The messages carry the numbers of their pushes, so a lost one can be told from one that was never
  there. -/

section numbered

variable {β : Type}

/-- The slots hold the messages with the numbers from `a` to `b`, as they were pushed. -/
def Marked : Nat → List (Option (Nat × β) × β) → Nat → Prop
  | a, [], b => a = b
  | a, z :: rest, b => z.1 = some (a, z.2) ∧ Marked (a + 1) rest b

/-- Of the `k` messages pushed those from number `a` on are unread.  The consumer should get number
    `next`; if that is not `a`, there is a gap. -/
structure Numbered (q : BoundedQueue (Option (Nat × β) × β)) (next a k : Nat) : Prop where
  unread : Marked a q.unread k
  unheld : q.held = none → next = 0
  held : ∀ z, q.held = some z → ∃ j, next = j + 1 ∧ z.1 = some (j, z.2)
  kept : q.gap = false → next = a
  lost : q.gap = true → next < a ∧ a < k

variable {l : List (Option (Nat × β) × β)} {z : Option (Nat × β) × β} {x : β}
  {q : BoundedQueue (Option (Nat × β) × β)} {next a k cap : Nat}

/-- As many messages as numbers. -/
theorem Marked.length (h : Marked a l k) : k = a + l.length := by
  induction l generalizing a with
  | nil => exact h.symm
  | cons z l ih =>
    rw [ih h.2, List.length_cons]
    omega

/-- The message pushed last has the last number. -/
theorem Marked.concat (h : Marked a l k) : Marked a (l ++ [(some (k, x), x)]) (k + 1) := by
  induction l generalizing a with
  | nil =>
    obtain rfl : a = k := h
    exact ⟨rfl, rfl⟩
  | cons z l ih => exact ⟨h.1, ih h.2⟩

/-- And the last one in the list is it. -/
theorem Marked.last (h : Marked a l k) (hz : l.getLast? = some z) :
    ∃ j, k = j + 1 ∧ z.1 = some (j, z.2) := by
  induction l generalizing a with
  | nil => cases hz
  | cons y l ih =>
    cases l with
    | nil =>
      cases hz
      exact ⟨a, (show a + 1 = k from h.2).symm, h.1⟩
    | cons w l => exact ih h.2 (by rwa [List.getLast?_cons_cons] at hz)

/-- There are no more unread messages than pushed ones. -/
theorem Numbered.le (h : Numbered q next a k) : a ≤ k := by
  rw [h.unread.length]
  exact Nat.le_add_right _ _

/-- The consumer has not got a message that is unread. -/
theorem Numbered.next_le (h : Numbered q next a k) : next ≤ a := by
  cases hg : q.gap with
  | false => exact (h.kept hg).le
  | true => exact (h.lost hg).1.le

/-- A push numbers its message, and discards the oldest unread one if it does not return success. -/
theorem Numbered.push (hcap : 2 ≤ cap) (h : Numbered q next a k) {op : PushOp}
    {q' : BoundedQueue (Option (Nat × β) × β)} {res : PushResult}
    (hq : q.push cap op (some (k, x), x) = (q', .pushed res)) (hres : res.isPushed = true) :
    Numbered q' next (a + if res = op.success then 0 else 1) (k + 1) := by
  -- With room the message is appended; a full queue discards the oldest unread one.
  by_cases hroom : q.size < cap
  · rw [BoundedQueue.push_room hroom] at hq
    cases hq
    rw [if_pos rfl]
    exact ⟨h.unread.concat, h.unheld, h.held, h.kept, fun hg => ⟨(h.lost hg).1, by
      have := h.le
      omega⟩⟩
  · cases op with
    | tryPush =>
      rw [BoundedQueue.tryPush_full hroom] at hq
      cases hq
      cases hres
    | forcePush =>
      rw [BoundedQueue.forcePush_full hroom] at hq
      cases hq
      rw [if_neg nofun]
      have hlen := h.unread.length
      have hheld : q.held.toList.length ≤ 1 := by cases q.held <;> simp
      have hsize : q.size = q.unread.length + q.held.toList.length := rfl
      have hnext := h.next_le
      refine ⟨?_, h.unheld, h.held, nofun, fun _ => ⟨by omega, by omega⟩⟩
      cases hu : q.unread with
      -- full with nothing unread: the queue would hold one message at most
      | nil =>
        rw [hu] at hsize
        simp only [List.length_nil] at hsize
        omega
      | cons z rest =>
        have hm := h.unread
        rw [hu] at hm
        exact hm.2.concat

/-- A pop takes the oldest unread message, and returns whether there is a gap before it. -/
theorem Numbered.pop (h : Numbered q next a k) {q' : BoundedQueue (Option (Nat × β) × β)}
    {res : PopResult} {y : Option (Option (Nat × β) × β)} (hq : q.pop = (q', .popped res y)) :
    (a < k → res = (if q.gap then .discarded else .success) ∧ q'.gap = false ∧
      Numbered q' (a + 1) (a + 1) k) ∧
    (a = k → q' = q ∧ res = if q.held.isSome then .noUpdate else .noMsg) := by
  have hlen := h.unread.length
  cases hu : q.unread with
  | nil =>
    rw [hu, List.length_nil] at hlen
    rw [BoundedQueue.pop_nil hu] at hq
    cases hq
    exact ⟨fun hlt => by omega, fun _ => ⟨rfl, rfl⟩⟩
  | cons z rest =>
    rw [hu, List.length_cons] at hlen
    rw [BoundedQueue.pop_cons hu] at hq
    cases hq
    refine ⟨fun _ => ⟨rfl, rfl, ?_⟩, fun he => by omega⟩
    have hm := h.unread
    rw [hu] at hm
    exact ⟨hm.2, nofun, fun w hw => ⟨a, rfl, Option.some.inj hw ▸ hm.1⟩, fun _ => rfl, nofun⟩

/-- A flush takes the newest message, if there is one unread. -/
theorem Numbered.flush (h : Numbered q next a k) :
    q.flush.gap = false ∧ Numbered q.flush (if a < k then k else next) k k := by
  have hlen := h.unread.length
  unfold BoundedQueue.flush
  cases hu : q.unread.getLast? with
  | none =>
    have hnil : q.unread = [] := List.getLast?_eq_none_iff.mp hu
    rw [hnil, List.length_nil] at hlen
    obtain rfl : k = a := hlen
    have hg : q.gap = false := by
      cases hg : q.gap with
      | false => rfl
      | true => exact absurd (h.lost hg).2 (Nat.lt_irrefl k)
    rw [if_neg (Nat.lt_irrefl k)]
    exact ⟨hg, h⟩
  | some z =>
    obtain ⟨j, rfl, hz⟩ := h.unread.last hu
    have hlt : a < j + 1 := by
      have hne : q.unread ≠ [] := fun hnil => by
        rw [hnil] at hu
        cases hu
      have := List.length_pos_of_ne_nil hne
      omega
    rw [if_pos hlt]
    exact ⟨rfl, ⟨rfl, nofun, fun w hw => ⟨j, rfl, Option.some.inj hw ▸ hz⟩, fun _ => rfl, nofun⟩⟩

end numbered

/-! ## The state between two calls -/

namespace SequentialChannel

/-- The queue, with the record of what was pushed and what the slots hold. -/
def view {β : Type} (s : SequentialChannel β) (r : Ring) (tp : Nat) :
    BoundedQueue (Option (Nat × β) × β) :=
  settledQueue r tp s.cons.queue s.mem.queue fun i => (s.stamp i, s.mem.msgs i)

/-- The channel is settled, its messages are numbered, and the counter of the eventfd, if there is one,
    is the number of unread messages. -/
structure Counted {β : Type} (n : Nat) (s : SequentialChannel β) (r : Ring) (tp next a : Nat) :
    Prop where
  settled : Settled n r tp s.prod.queue s.cons.queue s.mem.queue
  numbered : Numbered (s.view r tp) next a s.pushed
  counter : 0 ≤ s.cons.eventfd → 0 ≤ s.prod.eventfd ∧ s.mem.eventfd + a = s.pushed

section counted

variable {β : Type} {n : Nat} {r : Ring} {tp next a : Nat} {s s' : SequentialChannel β}
  {y : ChannelReply β}

/-- A new channel has no messages, and the counter is 0. -/
theorem New.counted (hn : SizeOk n) {fd fd' : Int} (hfd : 0 ≤ fd ↔ 0 ≤ fd') (h : New n fd fd' s) :
    ∃ r tp, Counted n s r tp 0 0 := by
  obtain ⟨q, hq, hnew⟩ := h
  obtain ⟨p, hp⟩ := queue_created hn hq
  rw [onNew, hp.prod, hp.cons] at hnew
  cases hnew
  have hset := hp.settled hn
  refine ⟨_, _, hset, ?_, fun h => ⟨hfd.mpr h, rfl⟩⟩
  have hnum : Numbered (β := β) { unread := [], held := none, gap := false } 0 0 0 :=
    ⟨rfl, fun _ => rfl, fun w hw => (by cases hw), fun _ => rfl, fun hgap => (by cases hgap)⟩
  rw [← hset.queue_unset hn hp.head (f := fun i => (none, q.msgs i))] at hnum
  exact hnum

/-- Without an unread message there is no gap. -/
theorem Counted.gap_lt (h : Counted n s r tp next a) (ha : a = s.pushed) : (s.view r tp).gap = false := by
  cases hg : (s.view r tp).gap with
  | false => rfl
  | true =>
    have hlt := (h.numbered.lost hg).2
    omega

/-- What is held has been pushed before what should be next. -/
theorem Counted.held (h : Counted n s r tp next a) :
    s.cons.queue.msg = none ∧ next = 0 ∨
    ∃ i j, s.cons.queue.msg = some i ∧ next = j + 1 ∧ s.stamp i = some (j, s.mem.msgs i) := by
  have hmsg := h.settled.cons_msg (f := fun i => (s.stamp i, s.mem.msgs i))
  cases hi : s.cons.queue.msg with
  | none =>
    rw [hi] at hmsg
    exact Or.inl ⟨rfl, h.numbered.unheld hmsg.symm⟩
  | some i =>
    rw [hi] at hmsg
    obtain ⟨j, hj, hstamp⟩ := h.numbered.held _ hmsg.symm
    exact Or.inr ⟨i, j, rfl, hj, hstamp⟩

/-- What has been pushed after the held message: all from the number on that the consumer should get. -/
theorem Counted.newer (h : Counted n s r tp next a) : s.newer = s.pushed - next := by
  rcases h.held with ⟨hi, rfl⟩ | ⟨i, j, hi, rfl, hstamp⟩
  · rw [SequentialChannel.newer, heldNumber, hi]
    rfl
  · rw [SequentialChannel.newer, heldNumber, hi, Option.bind_some, hstamp]
    rfl

/-- Nothing has been pushed. -/
theorem Counted.unset_iff (hn : SizeOk n) (h : Counted n s r tp next a) :
    s.prod.queue.head = indexInvalid ↔ s.pushed = 0 := by
  have hlen := h.numbered.unread.length
  constructor
  · intro hh
    have hview : s.view r tp = { unread := [], held := none, gap := false } :=
      h.settled.queue_unset hn hh
    have hnext := h.numbered.unheld (by rw [hview])
    have ha := h.numbered.kept (by rw [hview])
    rw [hview, List.length_nil] at hlen
    omega
  · intro h0
    by_contra hh
    obtain ⟨htp, -⟩ := h.settled.set hh
    have hsize : (s.view r tp).size = r.hi - tp + _ := h.settled.size_eq hn hh
    have hheld : (s.view r tp).held.toList.length = 0 := by
      cases hz : (s.view r tp).held with
      | none => rfl
      | some z =>
        obtain ⟨j, hj, -⟩ := h.numbered.held z hz
        have hgap := h.numbered.kept (h.gap_lt (by have := h.numbered.le; omega))
        have := h.numbered.le
        omega
    rw [BoundedQueue.size, hheld] at hsize
    omega

/-- A consumer without unread messages holds the newest one. -/
theorem Counted.holdsNewest (h : Counted n s r tp next a) (ha : a = s.pushed) : s.HoldsNewest := by
  intro j hj
  have hnext := h.numbered.kept (h.gap_lt ha)
  rcases h.held with ⟨-, h0⟩ | ⟨i, k, hi, hk, hstamp⟩
  · omega
  · obtain rfl : k = j := by omega
    exact ⟨i, hi, hstamp⟩

/-- A pop of the queue. -/
theorem Counted.queuePop (hn : SizeOk n) (h : Counted n s r tp next a) :
    ∃ c' res q' tp', s.cons.queue.pop.run QueueOp.exec s.mem.queue = some ((c', res), q') ∧
      Settled n r tp' s.prod.queue c' q' ∧ ∀ k fd, (0 ≤ fd → 0 ≤ s.prod.eventfd ∧
          k + (if a < s.pushed then a + 1 else a) = s.pushed) →
        let s' := s.afterPop { queue := c', eventfd := fd } { s.mem with queue := q', eventfd := k }
        (a < s.pushed → res = (if (s.view r tp).gap then .discarded else .success) ∧
          (s'.view r tp').gap = false ∧ Counted n s' r tp' (a + 1) (a + 1)) ∧
        (a = s.pushed → res.isTaken = false ∧ Counted n s' r tp' next a) := by
  obtain ⟨c', res, q', tp', hrun, hset, hq⟩ := h.settled.pop hn
    (f := fun i => (s.stamp i, s.mem.msgs i))
  obtain ⟨htake, hempty⟩ := h.numbered.pop hq
  refine ⟨c', res, q', tp', hrun, hset, fun k fd hk => ⟨fun hlt => ?_, fun he => ?_⟩⟩
  · obtain ⟨hres, hgap, hnum⟩ := htake hlt
    rw [if_pos hlt] at hk
    exact ⟨hres, hgap, hset, hnum, hk⟩
  · obtain ⟨hview, hres⟩ := hempty he
    rw [if_neg (by omega)] at hk
    refine ⟨?_, hset, ?_, hk⟩
    · rw [hres]
      split <;> rfl
    · have hnum := h.numbered
      rw [← hview] at hnum
      exact hnum

/-- The words say that nothing is unread if and only if every message pushed has been taken or lost. -/
theorem Counted.nothingUnread_iff (hn : SizeOk n) (h : Counted n s r tp next a) :
    s.NothingUnread ↔ a = s.pushed := by
  obtain ⟨c', res, q', tp', hrun, -, hstep⟩ := h.queuePop hn
  obtain ⟨htake, hempty⟩ := hstep 0 (-1) (fun h => by omega)
  constructor
  · rintro ⟨c₁, res₁, m₁, hrun₁, hres⟩
    rw [hrun] at hrun₁
    cases hrun₁
    by_contra hne
    have hres' := (htake (lt_of_le_of_ne h.numbered.le hne)).1
    rw [hres'] at hres
    split at hres <;> cases hres
  · intro he
    exact ⟨c', res, q', hrun, (hempty he).1⟩

/-- A pop of the queue, after the counter has been read. -/
theorem Counted.popQueue (hn : SizeOk n) (h : Counted n s r tp next a) {k : Nat}
    (hk : 0 ≤ s.cons.eventfd → k + 1 = s.mem.eventfd) :
    ∃ c' res m' tp' next' a', s.cons.popQueue { s.mem with eventfd := k } = some ((c', res), m') ∧
      c'.eventfd = s.cons.eventfd ∧ Counted n (s.afterPop c' m') r tp' next' a' ∧
      (a < s.pushed → res = (if (s.view r tp).gap then .discarded else .success) ∧ a' = a + 1 ∧
        ((s.afterPop c' m').view r tp').gap = false) := by
  obtain ⟨c', res, q', tp', hrun, -, hstep⟩ := h.queuePop hn
  obtain ⟨htake, hempty⟩ := hstep k s.cons.eventfd fun hfd => by
    obtain ⟨hprod, hcount⟩ := h.counter hfd
    have hk := hk hfd
    refine ⟨hprod, ?_⟩
    split <;> omega
  have hpop : s.cons.popQueue { s.mem with eventfd := k } = some
      (({ s.cons with queue := c' }, res), { s.mem with queue := q', eventfd := k }) := by
    rw [Consumer.popQueue, hrun]
    rfl
  by_cases hlt : a < s.pushed
  · obtain ⟨hres, hgap, hc⟩ := htake hlt
    exact ⟨_, _, _, _, _, _, hpop, rfl, hc, fun _ => ⟨hres, rfl, hgap⟩⟩
  · have hle := h.numbered.le
    exact ⟨_, _, _, _, _, _, hpop, rfl, (hempty (by omega)).2, fun hlt' => absurd hlt' hlt⟩

/-- `ri_consumer_pop`. -/
theorem Counted.pop (hn : SizeOk n) (h : Counted n s r tp next a) :
    ∃ c' res m' tp' next' a', s.cons.pop.run ChannelOp.exec s.mem = some ((c', res), m') ∧
      c'.eventfd = s.cons.eventfd ∧ Counted n (s.afterPop c' m') r tp' next' a' ∧ (0 ≤ s.cons.eventfd →
        (a < s.pushed → res = (if (s.view r tp).gap then .discarded else .success) ∧ a' = a + 1 ∧
          ((s.afterPop c' m').view r tp').gap = false) ∧
        (a = s.pushed → res = (if s.cons.queue.msg.isSome then .noUpdate else .noMsg) ∧ a' = a)) := by
  by_cases hfd : s.cons.eventfd < 0
  · obtain ⟨c', res, m', tp', next', a', hrun, hfd', hc, -⟩ := h.popQueue hn (k := s.mem.eventfd)
      (fun h0 => by omega)
    refine ⟨c', res, m', tp', next', a', ?_, hfd', hc, fun h0 => by omega⟩
    rw [Consumer.run_pop, if_pos hfd]
    exact hrun
  obtain ⟨-, hcount⟩ := h.counter (by omega)
  by_cases h0 : s.mem.eventfd = 0
  · refine ⟨s.cons, _, s.mem, tp, next, a, ?_, rfl, h, fun _ => ⟨fun hlt => by omega, fun _ => ⟨rfl, rfl⟩⟩⟩
    rw [Consumer.run_pop, if_neg hfd, if_pos h0]
  · obtain ⟨c', res, m', tp', next', a', hrun, hfd', hc, htake⟩ := h.popQueue hn
      (k := s.mem.eventfd - 1) (fun _ => by omega)
    refine ⟨c', res, m', tp', next', a', ?_, hfd', hc, fun _ => ⟨htake, fun he => by omega⟩⟩
    rw [Consumer.run_pop, if_neg hfd, if_neg h0]
    exact hrun

/-! ## A flush

  Without an eventfd the flush of the queue runs; with one, pops until there is nothing more to pop. -/

/-- With an eventfd a pass of the flush is a pop. -/
theorem run_flushPass_eventfd {c : Consumer} (hfd : 0 ≤ c.eventfd) (m : ChannelMem β) :
    c.flushPass.run ChannelOp.exec m = (c.pop.run ChannelOp.exec m).map fun y =>
      ((y.1.1, if y.1.2 = .success then Loop.again else .done y.1.2), y.2) := by
  rw [Consumer.flushPass, if_pos hfd, Prog.run_bind]
  cases c.pop.run ChannelOp.exec m <;> rfl

/-- Without one it is a pass of the flush of the queue. -/
theorem run_flushPass_queue {c : Consumer} (hfd : c.eventfd < 0) (m : ChannelMem β) :
    c.flushPass.run ChannelOp.exec m = (c.queue.flushPass.run QueueOp.exec m.queue).map fun y =>
      (({ c with queue := y.1.1 }, y.1.2), { m with queue := y.2 }) := by
  rw [Consumer.flushPass, if_neg (by omega), Prog.run_bind, run_onQueue]
  cases c.queue.flushPass.run QueueOp.exec m.queue <;> rfl

/-- `ri_consumer_queue_flush` takes the newest message in its first pass. -/
theorem Counted.queueFlush (hn : SizeOk n) (h : Counted n s r tp next a) (hfd : s.cons.eventfd < 0) :
    ∃ c' m' tp' next', s.cons.flushPass.run ChannelOp.exec s.mem = some
        ((c', .done (if s.prod.queue.head = indexInvalid then .noMsg else .discarded)), m') ∧
      Counted n (s.afterPop c' m') r tp' next' s.pushed := by
  obtain ⟨c', q', tp', hrun, hset, hq⟩ := h.settled.flush hn (f := fun i => (s.stamp i, s.mem.msgs i))
  obtain ⟨-, hnum⟩ := h.numbered.flush
  rw [view, hq] at hnum
  refine ⟨{ s.cons with queue := c' }, { s.mem with queue := q' }, tp', _, ?_, hset, hnum,
    fun h0 => absurd hfd (not_lt.mpr h0)⟩
  rw [run_flushPass_queue hfd, hrun]
  rfl

/-- A pass keeps the numbering, wherever it leaves the tail. -/
theorem Counted.flushPass (hn : SizeOk n) (h : Counted n s r tp next a) {c' : Consumer}
    {l : Loop PopResult} {m' : ChannelMem β}
    (hrun : s.cons.flushPass.run ChannelOp.exec s.mem = some ((c', l), m')) :
    ∃ tp' next' a', Counted n (s.afterPop c' m') r tp' next' a' := by
  by_cases hfd : s.cons.eventfd < 0
  · obtain ⟨c₁, m₁, tp', next', hrun', hc⟩ := h.queueFlush hn hfd
    cases hrun.symm.trans hrun'
    exact ⟨tp', next', _, hc⟩
  · obtain ⟨c₁, res, m₁, tp', next', a', hrun', -, hc, -⟩ := h.pop hn
    rw [run_flushPass_eventfd (by omega), hrun'] at hrun
    cases hrun
    exact ⟨tp', next', a', hc⟩

/-- What a flush that returns has to meet. -/
theorem flushMeets_iff_of_run {k : Nat} {c' : Consumer} {res : PopResult} {m' : ChannelMem β}
    (hrun : Prog.runLoop ChannelOp.exec Consumer.flushPass k s.cons s.mem = some ((c', res), m')) :
    s.FlushMeets ↔ s.flushCode = res ∧ (s.afterPop c' m').HoldsNewest ∧
      (s.afterPop c' m').NothingUnread := by
  constructor
  · rintro ⟨passes, s', x, hflush, hmeets⟩
    obtain ⟨y, hy, heq⟩ := Option.map_eq_some_iff.mp hflush
    obtain rfl := Prog.runLoop_unique hrun hy
    cases heq
    exact ⟨rfl, hmeets⟩
  · rintro ⟨hcode, hmeets⟩
    refine ⟨k, s.afterPop c' m', (s.afterPop c' m').received, ?_, hmeets⟩
    rw [SequentialChannel.flush, hrun, hcode]
    rfl

/-- What a flush should return, for the message that should be next. -/
theorem Counted.flushCode_taken (h : Counted n s r tp next a) (hlt : next < s.pushed) :
    s.flushCode = if next + 1 = s.pushed then .success else .discarded := by
  rw [flushCode, if_neg (show s.pushed ≠ 0 by omega), h.newer]
  by_cases hone : next + 1 = s.pushed
  · rw [if_pos hone, show s.pushed - next = 1 from by omega]
    rfl
  · obtain ⟨j, hj⟩ : ∃ j, s.pushed - next = j + 2 := ⟨s.pushed - next - 2, by omega⟩
    rw [if_neg hone, hj]
    rfl

/-- If the consumer holds the newest message there is nothing to report. -/
theorem Counted.flushCode_read (h : Counted n s r tp next a) (he : next = s.pushed) :
    s.flushCode = if s.cons.queue.msg.isSome then .noUpdate else .noMsg := by
  rcases h.held with ⟨hi, h0⟩ | ⟨i, j, hi, hj, -⟩
  · rw [flushCode, if_pos (show s.pushed = 0 by omega), hi]
    rfl
  · rw [flushCode, if_neg (show s.pushed ≠ 0 by omega), h.newer, hi, he, Nat.sub_self]
    rfl

/-- Without an eventfd a flush does what it should before the first push, and if messages have been lost
    or are skipped. -/
theorem Counted.flush_queue_iff (hn : SizeOk n) (h : Counted n s r tp next a)
    (hfd : s.cons.eventfd < 0) :
    s.FlushMeets ↔ s.prod.queue.head = indexInvalid ∨ next + 2 ≤ s.pushed := by
  obtain ⟨c', m', tp', next', hrun, hc⟩ := h.queueFlush hn hfd
  have hunset := h.unset_iff hn
  have hmeets : (s.afterPop c' m').HoldsNewest ∧ (s.afterPop c' m').NothingUnread :=
    ⟨hc.holdsNewest rfl, (hc.nothingUnread_iff hn).mpr rfl⟩
  have hnext := h.numbered.next_le.trans h.numbered.le
  rw [flushMeets_iff_of_run (Prog.runLoop_done hrun (k := 0)), and_iff_left hmeets]
  by_cases hh : s.prod.queue.head = indexInvalid
  · rw [if_pos hh]
    exact iff_of_true (if_pos (hunset.mp hh)) (Or.inl hh)
  rw [if_neg hh, or_iff_right hh]
  by_cases hlt : next < s.pushed
  · rw [h.flushCode_taken hlt]
    split
    · exact iff_of_false nofun (by omega)
    · exact iff_of_true rfl (by omega)
  · rw [h.flushCode_read (by omega)]
    refine iff_of_false ?_ (by omega)
    split <;> nofun

/-- With an eventfd and no gap a flush pops until the counter is 0, and then returns what the pop of an
    empty queue returns. -/
theorem Counted.drain (hn : SizeOk n) {u : Nat} (h : Counted n s r tp next a) (hfd : 0 ≤ s.cons.eventfd)
    (hgap : (s.view r tp).gap = false) (hu : a + u = s.pushed) :
    ∃ k c' res m', Prog.runLoop ChannelOp.exec Consumer.flushPass k s.cons s.mem =
      some ((c', res), m') ∧ (res = .noUpdate ∨ res = .noMsg) := by
  -- `u` messages are unread; each pass takes one of them
  induction u generalizing s tp next a with
  | zero =>
    obtain ⟨c', res, m', tp', next', a', hrun, -, -, hstep⟩ := h.pop hn
    obtain ⟨hres, -⟩ := (hstep hfd).2 hu
    refine ⟨1, c', res, m', Prog.runLoop_done ?_, ?_⟩
    · rw [run_flushPass_eventfd hfd, hrun, hres]
      split <;> rfl
    · rw [hres]
      split <;> simp
  | succ u ih =>
    obtain ⟨c', res, m', tp', next', a', hrun, hfd', hc, hstep⟩ := h.pop hn
    obtain ⟨hres, rfl, hgap'⟩ := (hstep hfd).1 (by omega)
    rw [hgap] at hres
    obtain rfl : res = .success := hres
    obtain ⟨k, c₁, res, m₁, hloop, hor⟩ := ih hc (hfd'.symm ▸ hfd) hgap' (by
      show a + 1 + u = s.pushed
      omega)
    refine ⟨k + 1, c₁, res, m₁, ?_, hor⟩
    refine (Prog.runLoop_again ?_).trans hloop
    rw [run_flushPass_eventfd hfd, hrun]
    rfl

/-- With an eventfd a flush does what it should if nothing is unread, and if the one unread message
    follows a gap. -/
theorem Counted.flush_eventfd_iff (hn : SizeOk n) (h : Counted n s r tp next a)
    (hfd : 0 ≤ s.cons.eventfd) :
    s.FlushMeets ↔ a = s.pushed ∨ (s.view r tp).gap = true ∧ a + 1 = s.pushed := by
  have hle := h.numbered.le
  have hnext := h.numbered.next_le
  obtain ⟨c', res, m', tp', next', a', hrun, -, hc, hstep⟩ := h.pop hn
  obtain ⟨htake, hempty⟩ := hstep hfd
  have hpass := run_flushPass_eventfd hfd s.mem
  rw [hrun, Option.map_some] at hpass
  by_cases he : a = s.pushed
  · -- the counter is 0
    obtain ⟨rfl, rfl⟩ := hempty he
    refine iff_of_true ?_ (Or.inl he)
    rw [flushMeets_iff_of_run (k := 1) (Prog.runLoop_done (hpass.trans ?_))]
    · have hnext' := h.numbered.kept (h.gap_lt he)
      exact ⟨h.flushCode_read (hnext'.trans he), hc.holdsNewest he, (hc.nothingUnread_iff hn).mpr he⟩
    · split <;> rfl
  obtain ⟨hres, rfl, -⟩ := htake (lt_of_le_of_ne hle he)
  rw [or_iff_right he]
  cases hgap : (s.view r tp).gap with
  | true =>
    -- the first pop returns that messages were discarded
    rw [hgap, if_pos rfl] at hres
    subst hres
    have hlost := h.numbered.lost hgap
    rw [flushMeets_iff_of_run (k := 1) (Prog.runLoop_done hpass), h.flushCode_taken (by omega),
      if_neg (by omega), hc.nothingUnread_iff hn]
    exact ⟨fun hm => ⟨rfl, hm.2.2⟩, fun hm => ⟨rfl, hc.holdsNewest hm.2, hm.2⟩⟩
  | false =>
    -- without a gap the loop goes on until there is nothing to pop, and reports that
    obtain ⟨k, c₁, res₁, m₁, hloop, hor⟩ := h.drain hn (u := s.pushed - a) hfd hgap (by omega)
    refine iff_of_false ?_ nofun
    rw [flushMeets_iff_of_run hloop, h.flushCode_taken (by omega)]
    rintro ⟨hcode, -⟩
    rcases hor with rfl | rfl
    · split at hcode <;> cases hcode
    · split at hcode <;> cases hcode

/-! ## Every call keeps the invariant -/

/-- `s'` differs from `s` in the message buffer of the producer only. -/
structure ButBuffer (s s' : SequentialChannel β) : Prop where
  queue : s'.prod.queue = s.prod.queue
  eventfd : s'.prod.eventfd = s.prod.eventfd
  cons : s'.cons = s.cons
  mem : s'.mem = { s.mem with msgs := s'.mem.msgs }
  stamp : s'.stamp = s.stamp
  pushed : s'.pushed = s.pushed
  msgs : ∀ i, i ≠ s.prod.queue.current → s'.mem.msgs i = s.mem.msgs i

/-- What an application writes into a buffer of its own does not matter to the numbering. -/
theorem Counted.butBuffer (hn : SizeOk n) (h : Counted n s r tp next a) (hb : ButBuffer s s') :
    Counted n s' r tp next a := by
  have hview : s'.view r tp = s.view r tp := by
    rw [view, hb.cons, hb.mem, hb.stamp]
    exact h.settled.queue_congr hn fun i hi => by rw [hb.msgs i hi]
  refine ⟨?_, ?_, ?_⟩
  · rw [hb.queue, hb.cons, hb.mem]
    exact h.settled
  · rw [hview, hb.pushed]
    exact h.numbered
  · rw [hb.cons, hb.eventfd, hb.mem, hb.pushed]
    exact h.counter

/-- The message that is being written is in such a buffer. -/
theorem write_butBuffer (h : Settled n r tp s.prod.queue s.cons.queue s.mem.queue) {x : β}
    (hs : s.write x = some (s', y)) : ButBuffer s s' := by
  rcases write_cases h hs with ⟨-, -, rfl⟩ | ⟨-, -, rfl⟩
  · exact ⟨rfl, rfl, rfl, rfl, rfl, rfl, fun i hi => Function.update_of_ne hi _ _⟩
  · exact ⟨rfl, rfl, rfl, rfl, rfl, rfl, fun _ _ => rfl⟩

/-- So is the one that comes from the cache. -/
theorem cacheDisable_butBuffer (h : Settled n r tp s.prod.queue s.cons.queue s.mem.queue)
    (hs : s.cacheDisable = some (s', y)) : ButBuffer s s' := by
  rcases cacheDisable_cases h hs with ⟨-, rfl⟩ | ⟨x, -, rfl⟩
  · exact ⟨rfl, rfl, rfl, rfl, rfl, rfl, fun _ _ => rfl⟩
  · exact ⟨rfl, rfl, rfl, rfl, rfl, rfl, fun i hi => Function.update_of_ne hi _ _⟩

/-- A push gives the next number to its message, if it is accepted. -/
theorem Counted.push (hn : SizeOk n) (h : Counted n s r tp next a) {op : PushOp}
    (hs : s.push op = some (s', y)) : ∃ r' tp' next' a', Counted n s' r' tp' next' a' := by
  obtain ⟨full, hrun, -⟩ := h.settled.full
  by_cases hrefuse : op = .tryPush ∧ s.prod.cache ≠ none ∧ full = true
  · obtain ⟨rfl, hc, rfl⟩ := hrefuse
    rw [push_refused h.settled hc hrun] at hs
    cases hs
    exact ⟨r, tp, next, a, h.butBuffer hn ⟨rfl, rfl, rfl, rfl, rfl, rfl, fun _ _ => rfl⟩⟩
  -- the record after the push, if it succeeds
  let f : Index → Option (Nat × β) × β := fun i =>
    (Function.update s.stamp s.prod.queue.current
      (some (s.pushed, s.copied.msgs s.prod.queue.current)) i, s.copied.msgs i)
  have hf : settledQueue r tp s.cons.queue s.mem.queue f = s.view r tp :=
    h.settled.queue_congr hn fun i hi =>
      Prod.ext (Function.update_of_ne hi _ _) (s.copied_msgs hi)
  have hcur : f s.prod.queue.current =
      (some (s.pushed, s.copied.msgs s.prod.queue.current), s.copied.msgs s.prod.queue.current) :=
    Prod.ext (Function.update_self _ _ _) rfl
  obtain ⟨p', res, m', r', tp', hpush, ⟨hmsgs, hcount⟩, hset, hq, hfail⟩ :=
    push_queue hn h.settled s.copied s.copied_queue op f
  have hgo : (s.prod.push op).run ChannelOp.exec s.mem = some (({ s.prod with queue := p' }, res), m') := by
    rw [run_copied h.settled hrun hrefuse, hpush]
  rw [SequentialChannel.push, hgo] at hs
  cases hs
  cases hres : res.isPushed with
  | false =>
    obtain ⟨rfl, rfl⟩ := hfail (BoundedQueue.push_fail hq hres)
    refine ⟨r, tp, next, a, h.butBuffer hn ⟨rfl, rfl, rfl, s.copied_eq, ?_, ?_,
      fun i hi => s.copied_msgs hi⟩⟩
    · exact if_neg (by simp [hres])
    · exact if_neg (by simp [hres])
  | true =>
    rw [hf, hcur] at hq
    have hnum := h.numbered.push (by have := hn.three_le; omega) hq hres
    have hview : (s.afterPush ({ s.prod with queue := p' }, res) m').view r' tp' =
        settledQueue r' tp' s.cons.queue m'.queue f := by
      simp only [view, afterPush, hres, if_true, hmsgs, f]
    have hpushed : (s.afterPush ({ s.prod with queue := p' }, res) m').pushed = s.pushed + 1 :=
      if_pos hres
    refine ⟨r', tp', next, a + if res = op.success then 0 else 1, hset, ?_, fun hfd => ?_⟩
    · rw [hview, hpushed]
      exact hnum
    · obtain ⟨hprod, hsum⟩ := h.counter hfd
      refine ⟨hprod, ?_⟩
      rw [hpushed]
      show m'.eventfd + _ = _
      have hcopied : s.copied.eventfd = s.mem.eventfd := by rw [s.copied_eq]
      rw [hcount, hcopied]
      by_cases hsucc : res = op.success
      · rw [if_pos ⟨hprod, hsucc⟩, if_pos hsucc]
        omega
      · rw [if_neg (fun hand => hsucc hand.2), if_neg hsucc]
        omega

/-- Every call keeps the numbering. -/
theorem Counted.step (hn : SizeOk n) (h : Counted n s r tp next a) {e : ChannelCall β}
    (hs : s.step e = some (s', y)) : ∃ r' tp' next' a', Counted n s' r' tp' next' a' := by
  cases e with
  | write x => exact ⟨r, tp, next, a, h.butBuffer hn (write_butBuffer h.settled hs)⟩
  | cacheEnable ok =>
    obtain ⟨-, heq⟩ := cacheEnable_msg h.settled hs
    rw [heq]
    exact ⟨r, tp, next, a, h.butBuffer hn ⟨rfl, rfl, rfl, rfl, rfl, rfl, fun _ _ => rfl⟩⟩
  | cacheDisable => exact ⟨r, tp, next, a, h.butBuffer hn (cacheDisable_butBuffer h.settled hs)⟩
  | push op => exact h.push hn hs
  | pop =>
    have hs : s.pop = some (s', y) := hs
    obtain ⟨c', res, m', tp', next', a', hrun, -, hc, -⟩ := h.pop hn
    rw [SequentialChannel.pop, hrun] at hs
    cases hs
    exact ⟨r, tp', next', a', hc⟩
  | flush passes =>
    have hs : s.flush passes = some (s', y) := hs
    obtain ⟨⟨⟨c', res⟩, m'⟩, hloop, heq⟩ := Option.map_eq_some_iff.mp hs
    cases heq
    obtain ⟨tp', next', a', hc⟩ := Prog.runLoop_invariant
      (I := fun c m => ∃ tp next a, Counted n (s.afterPop c m) r tp next a)
      (by
        intro c m c₁ l m₁ hc hrun
        obtain ⟨tp, next, a, hc⟩ := hc
        exact hc.flushPass hn hrun) hloop ⟨tp, next, a, h⟩
    exact ⟨r, tp', next', a', hc⟩

/-! ## With and without an eventfd -/

/-- Walking the chain counts the unread messages. -/
theorem Counted.unread (hn : SizeOk n) (h : Counted n s r tp next a) :
    s.mem.queue.unread n + a = s.pushed := by
  have hset := h.settled
  have hpath := hset.ring.path
  have hlen : s.pushed = a + (r.hi - unreadFrom tp s.mem.queue.tail) := by
    have hlen := h.numbered.unread.length
    rwa [view, settledQueue, List.length_map, Window.length_segment] at hlen
  have hhead (ht : s.mem.queue.tail ≠ indexInvalid) : s.prod.queue.head ≠ indexInvalid := fun hh =>
    ht (hset.tail_unset hh)
  have hwalk : s.mem.queue.unread n = unreadSlots r tp s.mem.queue.tail := by
    refine QueueMem.unread_eq fun ht => ?_
    obtain ⟨hlt, hslot⟩ := hset.set (hhead ht)
    exact QueueMem.follow_unread hlt hslot hset.lo_le hset.ring.hi_le_lo
      (fun i hi hi' => hset.chain_next hi hi') (fun j => hn.ne_invalid (hpath.lt j))
      (hset.chain_last (hhead ht))
  rw [hwalk, unreadSlots]
  split
  · rename_i ht
    have h0 := (h.unset_iff hn).mp (by
      by_contra hh
      exact (hset.tail_ok hh).ne_invalid ht)
    have := h.numbered.le
    omega
  · omega

/-- The numbering does not depend on the eventfd; the counter that is put in is the right one. -/
theorem Counted.withEventfd (hn : SizeOk n) (h : Counted n s r tp next a) :
    Counted n (s.withEventfd n) r tp next a ∧ 0 ≤ (s.withEventfd n).cons.eventfd := by
  unfold SequentialChannel.withEventfd
  split
  · exact ⟨h, ‹_›⟩
  · exact ⟨⟨h.settled, h.numbered, fun _ => ⟨le_rfl, h.unread hn⟩⟩, le_rfl⟩

/-- The history does not depend on it, -/
theorem withEventfd_pushed (s : SequentialChannel β) : (s.withEventfd n).pushed = s.pushed := by
  unfold SequentialChannel.withEventfd
  split <;> rfl

/-- nor do the messages, -/
theorem withEventfd_view (s : SequentialChannel β) : (s.withEventfd n).view r tp = s.view r tp := by
  unfold SequentialChannel.withEventfd
  split <;> rfl

/-- also the other way round. -/
theorem Counted.withoutEventfd (h : Counted n s r tp next a) :
    Counted n s.withoutEventfd r tp next a :=
  ⟨h.settled, h.numbered, fun h0 => absurd h0 (show ¬ (0 : Int) ≤ -1 by decide)⟩

/-- After a gap the queue is full, so the one message in it means that it has three slots, one of them
    kept back for the consumer. -/
theorem Counted.gap_one_iff (hn : SizeOk n) (h : Counted n s r tp next a) :
    (s.view r tp).gap = true ∧ a + 1 = s.pushed ↔
      n = 3 ∧ s.prod.queue.overrun ≠ indexInvalid ∧ s.mem.queue.tail.consumed = false := by
  have h3 := hn.three_le
  have hset := h.settled
  have hlen := h.numbered.unread.length
  have hsize : (s.view r tp).size =
      (s.view r tp).unread.length + (s.view r tp).held.toList.length := rfl
  have hheld : (s.view r tp).held = if s.cons.queue.current = indexInvalid then none else _ := rfl
  have hgap : (s.view r tp).gap = (!s.mem.queue.tail.consumed && !s.mem.queue.tail.first) := rfl
  constructor
  · -- A gap means a full queue, and only one unread message then means two slots in use.
    rintro ⟨hg, ha⟩
    rw [hgap, Bool.and_eq_true, Bool.not_eq_true', Bool.not_eq_true'] at hg
    obtain ⟨hc, hf⟩ := hg
    have hh : s.prod.queue.head ≠ indexInvalid := fun hh => by
      have := (h.unset_iff hn).mp hh
      omega
    have hfull : (s.view r tp).size = n - 1 := hset.size_moved hn hh hc hf
    by_cases hcur : s.cons.queue.current = indexInvalid
    · rw [if_pos hcur] at hheld
      rw [hheld] at hsize
      simp only [Option.toList_none, List.length_nil] at hsize
      omega
    · rw [if_neg hcur] at hheld
      rw [hheld] at hsize
      simp only [Option.toList_some, List.length_singleton] at hsize
      exact ⟨by omega, hset.free hh hc ▸ hcur, hc⟩
  · -- Three slots, one kept back for the consumer and one current: one is left for an unread message.
    rintro ⟨rfl, ho, hc⟩
    have hh : s.prod.queue.head ≠ indexInvalid := fun hh => ho (hset.overrun_unset hn hh)
    obtain ⟨htail, -⟩ := hset.blocked hn hh ho hc
    have hf : s.mem.queue.tail.first = false := htail ▸ hn.first (hset.before.lt _)
    have hfull : (s.view r tp).size = 3 - 1 := hset.size_moved hn hh hc hf
    have hcur : s.cons.queue.current ≠ indexInvalid := (hset.free hh hc).symm ▸ ho
    rw [if_neg hcur] at hheld
    rw [hheld] at hsize
    simp only [Option.toList_some, List.length_singleton] at hsize
    exact ⟨by rw [hgap, hc, hf]; rfl, by omega⟩

/-- So in every run the channel is settled, and its messages are numbered. -/
theorem counted_run (hn : SizeOk n) {fd fd' : Int} (hfd : 0 ≤ fd ↔ 0 ≤ fd')
    {s₀ : SequentialChannel β} (hnew : New n fd fd' s₀) {tr : List (ChannelCall β × ChannelReply β)}
    (hr : (channelFrom s₀).Run Machine.always tr s) : ∃ r tp next a, Counted n s r tp next a := by
  refine hr.invariant (I := fun s => ∃ r tp next a, Counted n s r tp next a) (fun t ht => ?_)
    fun t e t' y h _ hs => ?_
  · obtain rfl : t = s₀ := ht
    obtain ⟨r, tp, hc⟩ := New.counted hn hfd hnew
    exact ⟨r, tp, 0, 0, hc⟩
  · obtain ⟨r, tp, next, a, hc⟩ := h
    exact hc.step hn hs

end counted

end SequentialChannel

open SequentialChannel

/-- After any calls the two ways to flush leave the consumer with the newest message and nothing unread,
    and return the right code, exactly if nothing has been pushed yet, or the queue has three slots and
    an overrun has kept back the one that the consumer still holds. -/
theorem flush_agrees_iff {β : Type} {n : Nat} (h3 : 3 ≤ n) (hn : n ≤ 2 ^ 30) {fd fd' : Int}
    (hfd : 0 ≤ fd ↔ 0 ≤ fd') {s₀ s : SequentialChannel β} (hnew : New n fd fd' s₀)
    {tr : List (ChannelCall β × ChannelReply β)} (hr : (channelFrom s₀).Run Machine.always tr s) :
    ((s.withEventfd n).FlushMeets ∧ s.withoutEventfd.FlushMeets) ↔
      s.prod.queue.head = indexInvalid ∨
      n = 3 ∧ s.prod.queue.overrun ≠ indexInvalid ∧ s.mem.queue.tail.consumed = false := by
  have hsize : SizeOk n := ⟨h3, hn⟩
  obtain ⟨r, tp, next, a, h⟩ := counted_run hsize hfd hnew hr
  obtain ⟨hwith, hfd'⟩ := h.withEventfd hsize
  have hunset := h.unset_iff hsize
  have hle := h.numbered.le
  rw [← h.gap_one_iff hsize, hwith.flush_eventfd_iff hsize hfd', s.withEventfd_pushed,
    s.withEventfd_view, h.withoutEventfd.flush_queue_iff hsize (show (-1 : Int) < 0 by decide)]
  show (_ ∧ (s.prod.queue.head = indexInvalid ∨ next + 2 ≤ s.pushed)) ↔ _
  constructor
  · rintro ⟨he | hone, hskip⟩
    · refine Or.inl (hskip.resolve_right fun hskip => ?_)
      have hnext := h.numbered.kept (h.gap_lt he)
      omega
    · exact Or.inr hone
  · rintro (hh | ⟨hg, hone⟩)
    · have h0 := hunset.mp hh
      exact ⟨Or.inl (by omega), Or.inl hh⟩
    · have hlost := h.numbered.lost hg
      exact ⟨Or.inr ⟨hg, hone⟩, Or.inr (by omega)⟩

/-- A queue of three slots, overrun while the consumer holds slot 0. -/
theorem flush_agrees_iff_overrun :
    ∃ s₀ tr, ∃ s : SequentialChannel Nat, New 3 0 1 s₀ ∧
      (channelFrom s₀).Run Machine.always tr s ∧ s.prod.queue.overrun = 0 ∧ s.received = some 10 ∧
      (s.withEventfd 3).FlushMeets ∧ s.withoutEventfd.FlushMeets := by
  obtain ⟨s₀, tr, s, hnew, hr, h⟩ := SequentialChannel.exists_run 3 0 0 1 Machine.always
    [.write 10, .push .forcePush, .pop, .write 11, .push .forcePush, .write 12, .push .forcePush]
    (fun _ s => decide (s.prod.queue.overrun = 0 ∧ s.mem.queue.tail.consumed = false ∧
      s.received = some 10)) (by decide)
  obtain ⟨hover, hc, hread⟩ := of_decide_eq_true h
  refine ⟨s₀, tr, s, hnew, hr, hover, hread,
    (flush_agrees_iff (by decide) (by decide) (by decide) hnew hr).mpr (Or.inr ⟨rfl, ?_, hc⟩)⟩
  rw [hover]
  decide

/-- Three messages have been pushed into a queue of three slots, so that the first one is lost: with an
    eventfd a flush stops at the second one, without it takes the third one. -/
theorem flush_stops_at_gap :
    ∃ s₀ tr, ∃ s : SequentialChannel Nat, New 3 0 1 s₀ ∧
      (channelFrom s₀).Run Machine.always tr s ∧
      (s.flush 5).map Prod.snd = some (.popped .discarded (some 11)) ∧
      (s.withoutEventfd.flush 5).map Prod.snd = some (.popped .discarded (some 12)) ∧
      ¬ ((s.withEventfd 3).FlushMeets ∧ s.withoutEventfd.FlushMeets) := by
  obtain ⟨s₀, tr, s, hnew, hr, h⟩ := SequentialChannel.exists_run 3 0 0 1 Machine.always
    [.write 10, .push .forcePush, .write 11, .push .forcePush, .write 12, .push .forcePush]
    (fun _ s => decide ((s.flush 5).map Prod.snd = some (.popped .discarded (some 11)) ∧
      (s.withoutEventfd.flush 5).map Prod.snd = some (.popped .discarded (some 12)) ∧
      s.mem.queue.unread 3 = 2 ∧ s.pushed = 3)) (by decide)
  obtain ⟨hwith, hwithout, hunread, hpushed⟩ := of_decide_eq_true h
  refine ⟨s₀, tr, s, hnew, hr, hwith, hwithout, ?_⟩
  rintro ⟨hmeets, -⟩
  have hsize : SizeOk 3 := ⟨by decide, by decide⟩
  obtain ⟨r, tp, next, a, hc⟩ := counted_run hsize (by decide) hnew hr
  have hcount := hc.unread hsize
  obtain ⟨hc', hfd⟩ := hc.withEventfd hsize
  rw [hc'.flush_eventfd_iff hsize hfd, s.withEventfd_pushed, s.withEventfd_view] at hmeets
  omega

end Rtipc
