/-
  Does the message cache change what a channel does?

  A run is compared with the one in which the calls of `ri_producer_cache_enable` and
  `ri_producer_cache_disable` are left out (`Transparent`).  The two states then differ in the message
  buffer of the producer only (`Twin`).  With the cache, `ri_producer_try_push` asks
  `ri_producer_queue_full` first, and that function is wrong while no slot is kept back after an overrun:
  a run is transparent exactly if no cached `try_push` meets a queue with room in that branch
  (`cache_transparent_iff`).

  1. **Two runs side by side.**  `Twin` relates the state of a run with cache calls to that of the same
     run without them: the words of the queue, the eventfd and the consumer are equal, and so are all
     message slots but the producer's current one.  In that slot the run with the cache may have old
     bytes.

  2. **One call.**  A cached push copies the cache into the current slot before it calls the queue
     (`Twin.copied`), so from there on the two runs do the same.  `Twin.push`, `Twin.pop`, `Twin.write`
     and the two cache calls keep the relation, and return the same.

  3. **The crux.**  A cached `try_push` asks `ri_producer_queue_full` before it copies.  If that
     function says that the queue is full although it is not, the cached call fails and the uncached one
     succeeds, and the runs part.  `CacheSafe` excludes exactly that, and `Twin.safe` shows that two
     equal runs never meet it: the condition is necessary as well.
-/
import Rtipc.SequentialChannel
import Rtipc.Fullness

namespace Rtipc

/-! ## A run with the cache and one without -/

/-- Whether a call switches the cache of the producer on or off. -/
def ChannelCall.isCacheCall {β : Type} : ChannelCall β → Bool
  | .cacheEnable _ | .cacheDisable => true
  | _ => false

section defs

variable {β : Type}

/-- The application writes the message before each push, and the consumer only pops. -/
def WritesFirst (s : SequentialChannel β) : ChannelCall β → Prop
  | .push _ => s.written = true
  | .flush _ => False
  | _ => True

/-- The run `tr` from `s₀` to `s` without the calls of the cache: all other calls return the same, and
    the consumer reads the same message. -/
def Transparent (s₀ : SequentialChannel β) (tr : List (ChannelCall β × ChannelReply β))
    (s : SequentialChannel β) : Prop :=
  ∃ t, (channelFrom s₀).Run Machine.always (tr.filter fun eo => !eo.1.isCacheCall) t ∧
    t.received = s.received

/-- The next call leaves the message at `ri_producer_msg` as it is, if it is one of the cache or a push
    that fails. -/
def KeepsVisible (s : SequentialChannel β) : Prop :=
  ∀ e s' y, s.step e = some (s', y) → e.isCacheCall = true ∨ y = .pushed (.tryPush .fail) →
    s'.msg = s.msg

/-- A `try_push` with the cache is called before the first push, while a slot is kept back after an
    overrun, or with the tail at the slot that follows the current one. -/
def CacheSafe (s : SequentialChannel β) : ChannelCall β → Prop
  | .push .tryPush => s.prod.cache ≠ none → s.prod.queue.head = indexInvalid ∨
      s.prod.queue.overrun ≠ indexInvalid ∨
      s.prod.queue.chain s.prod.queue.current = s.mem.queue.tail.slot
  | _ => True

instance (s : SequentialChannel β) (e : ChannelCall β) : Decidable (WritesFirst s e) := by
  unfold WritesFirst
  split <;> infer_instance

instance (s : SequentialChannel β) (e : ChannelCall β) : Decidable (CacheSafe s e) := by
  unfold CacheSafe
  split <;> infer_instance

namespace SequentialChannel

/-- The memory after `producer_cache_write`, if there is a cache. -/
def copied (s : SequentialChannel β) : ChannelMem β :=
  match s.prod.cache with
  | some x => { s.mem with msgs := Function.update s.mem.msgs s.prod.queue.current x }
  | none => s.mem

/-- `s` is settled, and `t` is the same channel without a cache: the messages agree outside of the
    current slot, and what has been written there or in the cache is the same. -/
structure Twin (n : Nat) (s t : SequentialChannel β) : Prop where
  settled : ∃ r tp, Settled n r tp s.prod.queue s.cons.queue s.mem.queue
  prod : t.prod = { s.prod with cache := none }
  cons : t.cons = s.cons
  mem : t.mem = { s.mem with msgs := t.mem.msgs }
  written : t.written = s.written
  msgs : ∀ i, i ≠ s.prod.queue.current → t.mem.msgs i = s.mem.msgs i
  message : s.written = true → s.msg = some (t.mem.msgs s.prod.queue.current)

end SequentialChannel

end defs

/-! ## A push

  The only call for which the two runs differ in what they do: the one with the cache copies first. -/

section push

variable {β : Type} {n : Nat} {r : Ring} {tp : Nat} {s s' t t' : SequentialChannel β} {op : PushOp}
  {y : ChannelReply β}

/-- The bounded queue refuses a message by failing. -/
theorem BoundedQueue.push_fail {q q' : BoundedQueue β} {cap : Nat} {x : β} {res : PushResult}
    (h : q.push cap op x = (q', .pushed res)) (hres : res.isPushed = false) :
    res = .tryPush .fail := by
  unfold BoundedQueue.push at h
  split at h
  · cases h
    cases op <;> cases hres
  · cases op with
    | tryPush =>
      cases h
      rfl
    | forcePush =>
      cases h
      cases hres

/-- What `ri_producer_queue_full` answers between two calls. -/
theorem Settled.full {p : ProducerQueue} {c : ConsumerQueue} {m : QueueMem}
    (h : Settled n r tp p c m) :
    ∃ full, p.full.run QueueOp.exec m = some (full, m) ∧ (full = true → p.head ≠ indexInvalid ∧
      (p.overrun ≠ indexInvalid → m.tail.consumed = false) ∧
      (p.overrun = indexInvalid → p.chain p.current ≠ m.tail.slot)) ∧
      (full = false → p.head ≠ indexInvalid → p.overrun = indexInvalid →
        p.chain p.current = m.tail.slot) := by
  by_cases hh : p.head = indexInvalid
  · exact ⟨false, full_first hh, nofun, fun _ hne => absurd hh hne⟩
  have hnum := h.before.nMsgs
  have hv : m.tail.slot.toNat < p.nMsgs := hnum.symm ▸ (h.tail_ok hh).lt
  by_cases ho : p.overrun = indexInvalid
  · refine ⟨_, full_next hh hv ho (hnum.symm ▸ h.before.current_lt), fun hf => ?_, fun hf _ _ => ?_⟩
    · exact ⟨hh, fun hne => absurd ho hne, fun _ => by simpa using hf⟩
    · simpa using hf
  · refine ⟨_, full_overrun hh hv ho, fun hf => ?_, fun _ _ ho' => absurd ho' ho⟩
    exact ⟨hh, fun _ => by simpa using hf, fun ho' => absurd ho' ho⟩

namespace SequentialChannel

/-- Copying the cache changes messages only. -/
theorem copied_eq (s : SequentialChannel β) : s.copied = { s.mem with msgs := s.copied.msgs } := by
  unfold copied
  split <;> rfl

/-- The words of the queue are what they were. -/
theorem copied_queue (s : SequentialChannel β) : s.copied.queue = s.mem.queue := by
  rw [s.copied_eq]

/-- All slots but the current one are what they were. -/
theorem copied_msgs (s : SequentialChannel β) {i : Index} (hi : i ≠ s.prod.queue.current) :
    s.copied.msgs i = s.mem.msgs i := by
  unfold copied
  split
  · exact Function.update_of_ne hi _ _
  · rfl

/-- A push that `ri_producer_queue_full` does not refuse copies the cache and pushes. -/
theorem run_copied {full : Bool} (h : Settled n r tp s.prod.queue s.cons.queue s.mem.queue)
    (hfull : s.prod.queue.full.run QueueOp.exec s.mem.queue = some (full, s.mem.queue))
    (hgo : ¬ (op = .tryPush ∧ s.prod.cache ≠ none ∧ full = true)) :
    (s.prod.push op).run ChannelOp.exec s.mem = s.prod.pushQueue op s.copied := by
  unfold copied
  cases hc : s.prod.cache with
  | none => exact Producer.run_uncached hc op s.mem
  | some x =>
    cases op with
    | forcePush => exact Producer.run_forcePush hc h.prod_msg s.mem
    | tryPush =>
      obtain rfl : full = false := by simpa [hc] using hgo
      rw [Producer.run_tryPush hc h.prod_msg hfull]
      rfl

/-- The queue has decided about the push: in detail what `Settled.push` says. -/
theorem push_queue (hn : SizeOk n) (h : Settled n r tp s.prod.queue s.cons.queue s.mem.queue)
    (m : ChannelMem β) (hm : m.queue = s.mem.queue) (op : PushOp) {γ : Type} (f : Index → γ) :
    ∃ p' res m' r' tp', s.prod.pushQueue op m = some (({ s.prod with queue := p' }, res), m') ∧
      (m'.msgs = m.msgs ∧
        m'.eventfd = m.eventfd + if s.prod.eventfd ≥ 0 ∧ res = op.success then 1 else 0) ∧
      Settled n r' tp' p' s.cons.queue m'.queue ∧
      (settledQueue r tp s.cons.queue s.mem.queue f).push (n - 1) op (f s.prod.queue.current) =
        (settledQueue r' tp' s.cons.queue m'.queue f, .pushed res) ∧
      (res = .tryPush .fail → p' = s.prod.queue ∧ m' = m) := by
  obtain ⟨p', res, m', r', tp', hrun, hs, hq, hfail⟩ := h.push hn op (f := f)
  refine ⟨p', res, { m with
      queue := m'
      eventfd := m.eventfd + if s.prod.eventfd ≥ 0 ∧ res = op.success then 1 else 0 }, r', tp', ?_,
    ⟨rfl, rfl⟩, hs, hq, fun hres => ?_⟩
  · rw [Producer.pushQueue, hm, hrun]
    rfl
  · obtain ⟨rfl, rfl⟩ := hfail hres
    refine ⟨rfl, ?_⟩
    have hne : ¬ (s.prod.eventfd ≥ 0 ∧ res = op.success) := by
      rintro ⟨-, he⟩
      rw [hres] at he
      cases op <;> cases he
    rw [if_neg hne, Nat.add_zero, ← hm]

/-- After a write the copy makes the memory what it would be without the cache. -/
theorem Twin.copied (h : Twin n s t) (hw : s.written = true) : s.copied = t.mem := by
  have hmsg := h.message hw
  rw [h.mem]
  unfold SequentialChannel.copied
  cases hc : s.prod.cache with
  | none =>
    obtain ⟨r, tp, hset⟩ := h.settled
    rw [msg_none hc hset.prod_msg, Option.some.injEq] at hmsg
    have hall : t.mem.msgs = s.mem.msgs := by
      funext i
      by_cases hi : i = s.prod.queue.current
      · rw [hi, hmsg]
      · exact h.msgs i hi
    rw [hall]
  | some x =>
    rw [msg_some hc, Option.some.injEq] at hmsg
    have hall : Function.update s.mem.msgs s.prod.queue.current x = t.mem.msgs := by
      funext i
      by_cases hi : i = s.prod.queue.current
      · rw [hi, Function.update_self, hmsg]
      · rw [Function.update_of_ne hi, h.msgs i hi]
    rw [← hall]

/-- `ri_producer_queue_full` refuses a push. -/
theorem push_refused (h : Settled n r tp s.prod.queue s.cons.queue s.mem.queue)
    (hc : s.prod.cache ≠ none)
    (hfull : s.prod.queue.full.run QueueOp.exec s.mem.queue = some (true, s.mem.queue)) :
    s.push .tryPush =
      some (s.afterPush (s.prod, .tryPush .fail) s.mem, .pushed (.tryPush .fail)) := by
  obtain ⟨x, hx⟩ := Option.ne_none_iff_exists'.mp hc
  rw [SequentialChannel.push, Producer.run_tryPush hx h.prod_msg hfull]
  rfl

/-- A push does the same with and without a cache, if the cache is copied before. -/
theorem pushQueue_uncached (p : Producer β) (m : ChannelMem β) :
    { p with cache := none }.pushQueue op m =
      (p.pushQueue op m).map fun y => (({ y.1.1 with cache := none }, y.1.2), y.2) := by
  unfold Producer.pushQueue
  rw [Option.map_map]
  rfl

/-- `try_push` without a cache fails on a settled queue whose slot kept back has not been left. -/
theorem push_blocked (hn : SizeOk n) (h : Settled n r tp s.prod.queue s.cons.queue s.mem.queue)
    (hh : s.prod.queue.head ≠ indexInvalid) (ho : s.prod.queue.overrun ≠ indexInvalid)
    (hc : s.mem.queue.tail.consumed = false) (msgs : Index → β) :
    ¬ (settledQueue r tp s.cons.queue s.mem.queue msgs).size < n - 1 := by
  obtain ⟨-, rfl⟩ := h.blocked hn hh ho hc
  rw [h.size_lt_iff hn hh, hc]
  simp

/-- A push does the same with and without a cache, if it is safe for the cache. -/
theorem Twin.push (hn : SizeOk n) (h : Twin n s t) (hw : s.written = true)
    (hok : CacheSafe s (.push op)) (hs : s.push op = some (s', y)) :
    ∃ t', t.push op = some (t', y) ∧ Twin n s' t' := by
  obtain ⟨r, tp, hset⟩ := h.settled
  have hqueue : t.mem.queue = s.mem.queue := by rw [h.mem]
  obtain ⟨p', res, m', r', tp', hpush, -, hset', hq, hfail⟩ := push_queue hn hset t.mem hqueue op t.mem.msgs
  have ht : t.push op =
      some (t.afterPush ({ s.prod with queue := p', cache := none }, res) m', .pushed res) := by
    rw [SequentialChannel.push, Producer.run_uncached (by rw [h.prod]), h.prod, pushQueue_uncached,
      hpush]
    rfl
  obtain ⟨full, hrun, hyes, -⟩ := hset.full
  -- with a cache `ri_producer_queue_full` is asked first
  by_cases hrefuse : op = .tryPush ∧ s.prod.cache ≠ none ∧ full = true
  · obtain ⟨rfl, hc, rfl⟩ := hrefuse
    obtain ⟨hh, hover, hnext⟩ := hyes rfl
    have ho : s.prod.queue.overrun ≠ indexInvalid := by
      rcases hok hc with hh' | ho | heq
      · exact absurd hh' hh
      · exact ho
      · exact fun ho => hnext ho heq
    -- a safe push is refused only if the queue without a cache fails as well
    rw [BoundedQueue.tryPush_full (push_blocked hn hset hh ho (hover ho) _)] at hq
    obtain rfl : PushResult.tryPush .fail = res := QueueReply.pushed.inj (Prod.mk.inj hq).2
    obtain ⟨rfl, rfl⟩ := hfail rfl
    rw [push_refused hset hc hrun] at hs
    cases hs
    refine ⟨_, ht, ⟨⟨r, tp, hset⟩, rfl, h.cons, h.mem, ?_, h.msgs, fun hw' => h.message hw⟩⟩
    exact congrArg (· && true) h.written
  · have hgo : (s.prod.push op).run ChannelOp.exec s.mem =
        some (({ s.prod with queue := p' }, res), m') := by
      rw [run_copied hset hrun hrefuse, h.copied hw, hpush]
    rw [SequentialChannel.push, hgo] at hs
    cases hs
    refine ⟨_, ht, ⟨⟨r', tp', hset'⟩, rfl, h.cons, rfl, ?_, fun _ _ => rfl, fun hw' => ?_⟩⟩
    · exact congrArg (· && !res.isPushed) h.written
    · have hnot : res.isPushed = false := by
        have hw' : (s.written && !res.isPushed) = true := hw'
        simpa [hw] using hw'
      obtain ⟨rfl, rfl⟩ := hfail (BoundedQueue.push_fail hq hnot)
      cases hc : s.prod.cache with
      | none => exact msg_none hc hset.prod_msg
      | some x =>
        have hmsg := (msg_some hc).symm.trans (h.message hw)
        refine Eq.trans ?_ hmsg
        exact msg_some hc

/-! ## The other calls -/

/-- The consumer reads the same, whatever is in the current slot. -/
theorem Twin.received (hn : SizeOk n) (h : Twin n s t) : t.received = s.received := by
  obtain ⟨r, tp, hset⟩ := h.settled
  have hcons : ∀ f : Index → β, s.cons.queue.msg.map f =
      (settledQueue r tp s.cons.queue s.mem.queue f).held := fun f => hset.cons_msg
  unfold SequentialChannel.received
  rw [h.cons, hcons, hcons, hset.queue_congr hn h.msgs]

/-- A pop looks at no message. -/
theorem pop_run (hn : SizeOk n) (h : Settled n r tp s.prod.queue s.cons.queue s.mem.queue) :
    ∃ c' res q' k tp', Settled n r tp' s.prod.queue c'.queue q' ∧
      ∀ f : Index → β, s.cons.pop.run ChannelOp.exec { s.mem with msgs := f } =
        some ((c', res), { queue := q', msgs := f, eventfd := k }) := by
  obtain ⟨c', res, q', tp', hrun, hset, -⟩ := h.pop hn (f := s.mem.msgs)
  have hpop : ∀ m : ChannelMem β, m.queue = s.mem.queue → s.cons.popQueue m =
      some (({ s.cons with queue := c' }, res), { m with queue := q' }) := by
    intro m hm
    rw [Consumer.popQueue, hm, hrun]
    rfl
  by_cases hfd : s.cons.eventfd < 0
  · refine ⟨{ s.cons with queue := c' }, res, q', s.mem.eventfd, tp', hset, fun f => ?_⟩
    rw [Consumer.run_pop, if_pos hfd]
    exact hpop _ rfl
  · by_cases h0 : s.mem.eventfd = 0
    · refine ⟨s.cons, if s.cons.queue.msg.isSome then .noUpdate else .noMsg, s.mem.queue,
        s.mem.eventfd, tp, h, fun f => ?_⟩
      rw [Consumer.run_pop, if_neg hfd, if_pos h0]
    · refine ⟨{ s.cons with queue := c' }, res, q', s.mem.eventfd - 1, tp', hset, fun f => ?_⟩
      rw [Consumer.run_pop, if_neg hfd, if_neg h0]
      exact hpop _ rfl

/-- A pop does the same. -/
theorem Twin.pop (hn : SizeOk n) (h : Twin n s t) (hs : s.pop = some (s', y)) :
    ∃ t', t.pop = some (t', y) ∧ Twin n s' t' := by
  obtain ⟨r, tp, hset⟩ := h.settled
  obtain ⟨c', res, q', k, tp', hset', hrun⟩ := pop_run hn hset
  rw [SequentialChannel.pop, hrun s.mem.msgs] at hs
  cases hs
  have htwin : Twin n (s.afterPop c' { queue := q', msgs := s.mem.msgs, eventfd := k })
      (t.afterPop c' { queue := q', msgs := t.mem.msgs, eventfd := k }) :=
    ⟨⟨r, tp', hset'⟩, h.prod, rfl, rfl, h.written, h.msgs, h.message⟩
  refine ⟨_, ?_, htwin⟩
  have hpop : t.cons.pop.run ChannelOp.exec t.mem =
      some ((c', res), { queue := q', msgs := t.mem.msgs, eventfd := k }) := by
    rw [h.cons, h.mem]
    exact hrun t.mem.msgs
  rw [SequentialChannel.pop, hpop]
  exact congrArg (fun x => some (_, ChannelReply.popped res x)) (htwin.received hn)

/-- A message is written into the cache, or into the slot of a producer without a cache. -/
theorem write_cases (h : Settled n r tp s.prod.queue s.cons.queue s.mem.queue) {x : β}
    (hs : s.write x = some (s', y)) :
    (s.prod.cache = none ∧ y = .silent ∧ s' = { s with
      mem := { s.mem with msgs := Function.update s.mem.msgs s.prod.queue.current x }
      written := true }) ∨
      s.prod.cache ≠ none ∧ y = .silent ∧ s' = { s with
        prod := { s.prod with cache := some x }
        written := true } := by
  unfold SequentialChannel.write at hs
  cases hc : s.prod.cache with
  | none =>
    rw [hc] at hs
    dsimp only at hs
    rw [h.prod_msg] at hs
    cases hs
    exact Or.inl ⟨rfl, rfl, rfl⟩
  | some z =>
    rw [hc] at hs
    cases hs
    exact Or.inr ⟨Option.some_ne_none z, rfl, rfl⟩

/-- A write goes to the cache or to the slot; the message the caller sees is the same. -/
theorem Twin.write (h : Twin n s t) {x : β} (hs : s.write x = some (s', y)) :
    ∃ t', t.write x = some (t', y) ∧ Twin n s' t' := by
  obtain ⟨r, tp, hset⟩ := h.settled
  have ht : t.write x = some ({ t with
      mem := { t.mem with msgs := Function.update t.mem.msgs s.prod.queue.current x }
      written := true }, .silent) := by
    rw [SequentialChannel.write, h.prod]
    dsimp only
    rw [hset.prod_msg]
    rfl
  have hmem : ∀ f : Index → β, { t.mem with msgs := f } = { s.mem with msgs := f } := by
    intro f
    rw [h.mem]
  -- with the cache the bytes go there, without it to the slot
  rcases write_cases hset hs with ⟨hc, rfl, rfl⟩ | ⟨hc, rfl, rfl⟩
  · refine ⟨_, ht, ⟨⟨r, tp, hset⟩, h.prod, h.cons, hmem _, rfl, fun i hi => ?_, fun _ => ?_⟩⟩
    · show Function.update t.mem.msgs s.prod.queue.current x i =
        Function.update s.mem.msgs s.prod.queue.current x i
      rw [Function.update_of_ne hi, Function.update_of_ne hi, h.msgs i hi]
    · refine Eq.trans (msg_none (i := s.prod.queue.current) ?_ ?_) (congrArg some ?_)
      · exact hc
      · exact hset.prod_msg
      · show Function.update s.mem.msgs s.prod.queue.current x s.prod.queue.current =
          Function.update t.mem.msgs s.prod.queue.current x s.prod.queue.current
        rw [Function.update_self, Function.update_self]
  · refine ⟨_, ht, ⟨⟨r, tp, hset⟩, h.prod, h.cons, hmem _, rfl, fun i hi => ?_, fun _ => ?_⟩⟩
    · -- the slot may differ as long as it is the current one
      exact (Function.update_of_ne hi _ _).trans (h.msgs i hi)
    · show some x = some (Function.update t.mem.msgs s.prod.queue.current x s.prod.queue.current)
      rw [Function.update_self]

/-! ## The message at `ri_producer_msg`

  What the application sees there is the cache if there is one, and the slot otherwise. -/

/-- Switching the cache on shows the caller the message it had before. -/
theorem cacheEnable_msg (h : Settled n r tp s.prod.queue s.cons.queue s.mem.queue) {ok : Bool}
    (hs : s.cacheEnable ok = some (s', y)) :
    s'.msg = s.msg ∧ s' = { s with prod := { s.prod with cache := s'.prod.cache } } := by
  unfold SequentialChannel.cacheEnable at hs
  cases hc : s.prod.cache with
  | some x =>
    rw [hc] at hs
    cases hs
    exact ⟨rfl, rfl⟩
  | none =>
    rw [hc] at hs
    dsimp only at hs
    rw [h.prod_msg] at hs
    cases ok with
    | false =>
      cases hs
      exact ⟨rfl, rfl⟩
    | true =>
      cases hs
      exact ⟨(msg_none hc h.prod_msg).symm, rfl⟩

/-- The cache is copied into the slot before it goes. -/
theorem cacheDisable_cases (h : Settled n r tp s.prod.queue s.cons.queue s.mem.queue)
    (hs : s.cacheDisable = some (s', y)) :
    (s.prod.cache = none ∧ s' = s) ∨ ∃ x, s.prod.cache = some x ∧ s' = { s with
      mem := { s.mem with msgs := Function.update s.mem.msgs s.prod.queue.current x }
      prod := { s.prod with cache := none } } := by
  unfold SequentialChannel.cacheDisable at hs
  cases hc : s.prod.cache with
  | none =>
    rw [hc] at hs
    cases hs
    exact Or.inl ⟨rfl, rfl⟩
  | some x =>
    rw [hc] at hs
    dsimp only at hs
    rw [h.prod_msg] at hs
    cases hs
    exact Or.inr ⟨x, rfl, rfl⟩

/-- So does switching it off. -/
theorem cacheDisable_msg (h : Settled n r tp s.prod.queue s.cons.queue s.mem.queue)
    (hs : s.cacheDisable = some (s', y)) :
    s'.msg = s.msg ∧ s'.prod = { s.prod with cache := none } ∧ s'.cons = s.cons ∧
      s'.written = s.written ∧ s'.mem = { s.mem with msgs := s'.mem.msgs } ∧
      ∀ i, i ≠ s.prod.queue.current → s'.mem.msgs i = s.mem.msgs i := by
  rcases cacheDisable_cases h hs with ⟨hc, rfl⟩ | ⟨x, hc, rfl⟩
  · exact ⟨rfl, by rw [← hc], rfl, rfl, rfl, fun _ _ => rfl⟩
  · refine ⟨?_, rfl, rfl, rfl, rfl, fun i hi => Function.update_of_ne hi _ _⟩
    rw [msg_some hc]
    refine Eq.trans (msg_none (i := s.prod.queue.current) rfl ?_) ?_
    · exact h.prod_msg
    · exact congrArg some (Function.update_self _ _ _)

/-- A push that fails leaves the message, in the cache or in its slot. -/
theorem push_msg (hn : SizeOk n) (h : Settled n r tp s.prod.queue s.cons.queue s.mem.queue)
    (hs : s.push op = some (s', .pushed (.tryPush .fail))) : s'.msg = s.msg := by
  obtain ⟨full, hrun, -⟩ := h.full
  by_cases hrefuse : op = .tryPush ∧ s.prod.cache ≠ none ∧ full = true
  · obtain ⟨rfl, hc, rfl⟩ := hrefuse
    rw [push_refused h hc hrun] at hs
    cases hs
    rfl
  · obtain ⟨p', res, m', r', tp', hpush, -, -, -, hfail⟩ := push_queue hn h s.copied s.copied_queue op
      s.copied.msgs
    have hgo : (s.prod.push op).run ChannelOp.exec s.mem =
        some (({ s.prod with queue := p' }, res), m') := by
      rw [run_copied h hrun hrefuse, hpush]
    rw [SequentialChannel.push, hgo] at hs
    cases hs
    obtain ⟨rfl, rfl⟩ := hfail rfl
    cases hc : s.prod.cache with
    | some x =>
      rw [msg_some hc]
      exact msg_some hc
    | none =>
      have hmem : s.copied = s.mem := by rw [copied, hc]
      rw [hmem]
      rfl

/-- Neither changes the message in front of the caller. -/
theorem keepsVisible (hn : SizeOk n) (h : Settled n r tp s.prod.queue s.cons.queue s.mem.queue) :
    KeepsVisible s := by
  intro e s' y hs hor
  cases e with
  | write x =>
    obtain rfl : y = .silent := by
      rcases write_cases h hs with ⟨-, hy, -⟩ | ⟨-, hy, -⟩
      · exact hy
      · exact hy
    rcases hor with hor | hor <;> cases hor
  | cacheEnable ok => exact (cacheEnable_msg h hs).1
  | cacheDisable => exact (cacheDisable_msg h hs).1
  | push op =>
    obtain rfl : y = .pushed (.tryPush .fail) := hor.resolve_left nofun
    exact push_msg hn h hs
  | pop =>
    have hs : s.pop = some (s', y) := hs
    obtain ⟨y', -, heq⟩ := Option.map_eq_some_iff.mp hs
    cases heq
    rcases hor with hor | hor <;> cases hor
  | flush k =>
    have hs : s.flush k = some (s', y) := hs
    obtain ⟨y', -, heq⟩ := Option.map_eq_some_iff.mp hs
    cases heq
    rcases hor with hor | hor <;> cases hor

/-! ## Runs -/

/-- Any call but these two does the same with and without a cache. -/
theorem Twin.step (hn : SizeOk n) (h : Twin n s t) {e : ChannelCall β} (hcall : e.isCacheCall = false)
    (hw : WritesFirst s e) (hok : CacheSafe s e) (hs : s.step e = some (s', y)) :
    ∃ t', t.step e = some (t', y) ∧ Twin n s' t' := by
  cases e with
  | write x => exact h.write hs
  | cacheEnable ok => cases hcall
  | cacheDisable => cases hcall
  | push op => exact h.push hn hw hok hs
  | pop => exact h.pop hn hs
  | flush k => exact hw.elim

/-- These two are no calls of the channel without a cache. -/
theorem Twin.cacheCall (h : Twin n s t) {e : ChannelCall β} (hcall : e.isCacheCall = true)
    (hs : s.step e = some (s', y)) : Twin n s' t := by
  obtain ⟨r, tp, hset⟩ := h.settled
  cases e with
  | cacheEnable ok =>
    obtain ⟨hmsg, heq⟩ := cacheEnable_msg hset hs
    have hmessage := hmsg ▸ h.message
    rw [heq] at hmessage ⊢
    exact ⟨⟨r, tp, hset⟩, h.prod, h.cons, h.mem, h.written, h.msgs, hmessage⟩
  | cacheDisable =>
    obtain ⟨hmsg, hprod, hcons, hwritten, hmem, hmsgs⟩ := cacheDisable_msg hset hs
    refine ⟨⟨r, tp, ?_⟩, ?_, hcons ▸ h.cons, ?_, hwritten ▸ h.written, fun i hi => ?_, fun hw => ?_⟩
    · rw [hprod, hcons, hmem]
      exact hset
    · rw [hprod]
      exact h.prod
    · rw [hmem]
      exact h.mem
    · rw [hprod] at hi
      rw [hmsgs i hi]
      exact h.msgs i hi
    · rw [hprod, hmsg]
      exact h.message (hwritten ▸ hw)
  | _ => cases hcall

/-- A channel that has just been made is the same with and without. -/
theorem New.twin (hn : SizeOk n) {fd fd' : Int} (h : New n fd fd' s) : Twin n s s := by
  obtain ⟨q, hq, hnew⟩ := h
  obtain ⟨p, hp⟩ := queue_created hn hq
  rw [onNew, hp.prod, hp.cons] at hnew
  cases hnew
  exact ⟨⟨_, _, hp.settled hn⟩, rfl, rfl, rfl, rfl, fun _ _ => rfl, nofun⟩

variable {s₀ : SequentialChannel β} {tr : List (ChannelCall β × ChannelReply β)}

/-- A run that meets the condition has a twin without the calls of the cache. -/
theorem twin_run (hn : SizeOk n) {fd fd' : Int} (hnew : New n fd fd' s₀)
    (hr : (channelFrom s₀).Run (fun s e => WritesFirst s e ∧ CacheSafe s e) tr s) :
    ∃ t, (channelFrom s₀).Run Machine.always (tr.filter fun eo => !eo.1.isCacheCall) t ∧
      Twin n s t := by
  induction hr with
  | init h =>
    obtain rfl := h
    exact ⟨_, Machine.Run.init rfl, hnew.twin hn⟩
  | @step tr s s' e y hr hok hs ih =>
    obtain ⟨t, ht, htwin⟩ := ih
    cases hcall : e.isCacheCall with
    | true =>
      refine ⟨t, ?_, htwin.cacheCall hcall hs⟩
      rw [List.filter_append, List.filter_singleton, hcall]
      exact (List.append_nil _).symm ▸ ht
    | false =>
      obtain ⟨t', ht', htwin'⟩ := htwin.step hn hcall hok.1 hok.2 hs
      refine ⟨t', ?_, htwin'⟩
      rw [List.filter_append, List.filter_singleton, hcall]
      exact ht.step trivial ht'

/-- A cached `try_push` in any other state fails, and succeeds without the cache. -/
theorem Twin.safe (hn : SizeOk n) (h : Twin n s t) {e : ChannelCall β}
    (hs : s.step e = some (s', y)) (ht : t.step e = some (t', y)) : CacheSafe s e := by
  cases e with
  | push op =>
    cases op with
    | forcePush => trivial
    | tryPush =>
      intro hc
      -- If the call with the cache is refused though the queue has room,
      by_contra hnot
      simp only [not_or, not_not] at hnot
      obtain ⟨hh, ho, hne⟩ := hnot
      obtain ⟨r, tp, hset⟩ := h.settled
      obtain ⟨full, hrun, -, hno⟩ := hset.full
      cases full with
      | false => exact hne (hno rfl hh ho)
      | true =>
        have hs : s.push .tryPush = some (s', y) := hs
        rw [push_refused hset hc hrun] at hs
        cases hs
        have hqueue : t.mem.queue = s.mem.queue := by rw [h.mem]
        obtain ⟨p', res, m', r', tp', hpush, -, -, hq, -⟩ := push_queue hn hset t.mem hqueue .tryPush
          t.mem.msgs
        -- the call without the cache succeeds, and the results differ.
        have hroom := (hset.size_lt_iff hn hh (f := t.mem.msgs)).mpr
          (Or.inl ((hset.lo_le).lt_of_ne fun he => hne ((hset.next_tail hn hh).mpr he.symm)))
        rw [BoundedQueue.push_room hroom] at hq
        obtain rfl : PushResult.tryPush .success = res := QueueReply.pushed.inj (Prod.mk.inj hq).2
        have ht : t.push .tryPush = some (t', .pushed (.tryPush .fail)) := ht
        rw [SequentialChannel.push, Producer.run_uncached (by rw [h.prod]), h.prod, pushQueue_uncached,
          hpush] at ht
        cases ht
  | _ => trivial

/-- A transparent run meets the condition at every step. -/
theorem safe_run (hn : SizeOk n) {fd fd' : Int} (hnew : New n fd fd' s₀)
    (hr : (channelFrom s₀).Run WritesFirst tr s) {t : SequentialChannel β}
    (ht : (channelFrom s₀).Run Machine.always (tr.filter fun eo => !eo.1.isCacheCall) t) :
    (channelFrom s₀).Run (fun s e => WritesFirst s e ∧ CacheSafe s e) tr s := by
  induction hr generalizing t with
  | init h => exact Machine.Run.init h
  | @step tr s s' e y hr hok hs ih =>
    rw [List.filter_append, List.filter_singleton] at ht
    cases hcall : e.isCacheCall with
    | true =>
      rw [hcall] at ht
      have hsafe := ih ((List.append_nil _) ▸ ht)
      refine hsafe.step ⟨hok, ?_⟩ hs
      cases e with
      | cacheEnable ok => trivial
      | cacheDisable => trivial
      | _ => cases hcall
    | false =>
      rw [hcall] at ht
      obtain ⟨t₁, ht₁, -, hlast⟩ := Machine.Run.last ht
      have hsafe := ih ht₁
      obtain ⟨t₂, ht₂, htwin⟩ := twin_run hn hnew hsafe
      obtain rfl := ht₂.unique (fun a b (ha : a = s₀) (hb : b = s₀) => ha.trans hb.symm) ht₁
      exact hsafe.step ⟨hok, htwin.safe hn hs hlast⟩ hs

end SequentialChannel

end push

open SequentialChannel

/-- A run of a new channel in which the message is written before each push is transparent exactly if
    every `try_push` with the cache is called before the first push, while a slot is kept back after an
    overrun, or with the tail at the slot that follows the current one. -/
theorem cache_transparent_iff {β : Type} {n : Nat} (h3 : 3 ≤ n) (hn : n ≤ 2 ^ 30) {fd fd' : Int}
    {s₀ s : SequentialChannel β} {tr : List (ChannelCall β × ChannelReply β)} (hnew : New n fd fd' s₀)
    (hr : (channelFrom s₀).Run WritesFirst tr s) :
    (Transparent s₀ tr s ∧ KeepsVisible s) ↔
      (channelFrom s₀).Run (fun s e => WritesFirst s e ∧ CacheSafe s e) tr s := by
  have hsize : SizeOk n := ⟨h3, hn⟩
  constructor
  · rintro ⟨⟨t, ht, -⟩, -⟩
    exact safe_run hsize hnew hr ht
  · intro hsafe
    obtain ⟨t, ht, htwin⟩ := twin_run hsize hnew hsafe
    obtain ⟨r, tp, hset⟩ := htwin.settled
    exact ⟨⟨t, ht, htwin.received hsize⟩, keepsVisible hsize hset⟩

/-- With the cache a queue of three slots is filled and overrun, a `try_push` fails, the consumer goes
    on and the same `try_push` succeeds. -/
theorem cache_transparent_iff_overrun :
    ∃ s₀ tr, ∃ s : SequentialChannel Nat, New 3 0 1 s₀ ∧ (channelFrom s₀).Run WritesFirst tr s ∧
      (.push .tryPush, .pushed (.tryPush .fail)) ∈ tr ∧ s.received = some 12 ∧
      Transparent s₀ tr s ∧ KeepsVisible s := by
  obtain ⟨s₀, tr, s, hnew, hr, h⟩ := SequentialChannel.exists_run 3 0 0 1
    (fun s e => WritesFirst s e ∧ CacheSafe s e)
    [.cacheEnable true, .write 10, .push .tryPush, .pop, .write 11, .push .forcePush, .write 12,
      .push .forcePush, .write 13, .push .tryPush, .pop, .push .tryPush, .cacheDisable]
    (fun tr s => decide ((ChannelCall.push .tryPush, ChannelReply.pushed (.tryPush .fail)) ∈ tr ∧
      s.received = some 12))
    (by decide)
  obtain ⟨hfail, hread⟩ := of_decide_eq_true h
  have hwrites := hr.mono fun s e hok => hok.1
  exact ⟨s₀, tr, s, hnew, hwrites, hfail, hread,
    (cache_transparent_iff (by decide) (by decide) hnew hwrites).mpr hr⟩

/-- One message has been pushed into a queue of three slots: `try_push` fails with the cache. -/
theorem cached_push_fails :
    ∃ s₀ tr, ∃ s : SequentialChannel Nat, New 3 (-1) (-1) s₀ ∧
      (channelFrom s₀).Run WritesFirst tr s ∧
      tr.map Prod.snd = [.enabled true, .silent, .pushed (.tryPush .success), .silent,
        .pushed (.tryPush .fail)] ∧ ¬ Transparent s₀ tr s := by
  obtain ⟨s₀, tr, s, hnew, hr, h⟩ := SequentialChannel.exists_run 3 0 (-1) (-1) WritesFirst
    [.cacheEnable true, .write 1, .push .tryPush, .write 2]
    (fun tr s => decide (tr.map Prod.snd = [.enabled true, .silent, .pushed (.tryPush .success),
      .silent] ∧ s.written = true ∧ ¬ CacheSafe s (.push .tryPush) ∧
      (s.step (.push .tryPush)).map Prod.snd = some (.pushed (.tryPush .fail)))) (by decide)
  obtain ⟨htr, hw, hunsafe, hfail⟩ := of_decide_eq_true h
  obtain ⟨⟨s', y⟩, hs, rfl⟩ := Option.map_eq_some_iff.mp hfail
  have hok : WritesFirst s (.push .tryPush) := hw
  refine ⟨s₀, _, s', hnew, hr.step hok hs, ?_, ?_⟩
  · rw [List.map_append, htr]
    rfl
  · rintro ⟨t, ht, -⟩
    obtain ⟨s₁, hr₁, ⟨-, hsafe⟩, -⟩ := (safe_run ⟨by decide, by decide⟩ hnew (hr.step hok hs) ht).last
    obtain rfl := hr.unique (fun a b (ha : a = s₀) (hb : b = s₀) => ha.trans hb.symm) hr₁
    exact hunsafe hsafe

end Rtipc
