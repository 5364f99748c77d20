/-
  Runs without a flush.

  If the consumer only pops, neither of the two defects of the flush can show: a consumed tail means
  that the consumer holds a slot, and a push that is about to jump over the tail finds the tail word
  either unchanged or at a later slot (`PopOnly`).  So the results about the tail hold without any
  condition on the steps.

  1. **What a flush would do.**  A flush moves the tail to the head, over slots that the producer may
     have taken in the meantime.  Without one, the tail is moved by a pop, by one slot, or by the
     producer.

  2. **The invariant.**  `PopOnly` is kept by all steps but the call of a flush (`QueueStep.popInv`),
     and it gives what the other modules ask of a step as a condition: that a jump finds the tail
     released (`PopOnly.released`), and that no flush looks up the head (`PopOnly.headNew`).
-/
import Rtipc.Delivery

namespace Rtipc

/-- The step is not the call of a flush. -/
def NoFlush {β : Type} (_ : QueueState β) : QueueEvent β → Prop
  | .pop .flush => False
  | _ => True

instance {β : Type} (s : QueueState β) : (e : QueueEvent β) → Decidable (NoFlush s e)
  | .pop .flush => isFalse id
  | .pop .pop | .write _ | .push _ | .prodStep | .consStep => isTrue trivial

/-- A push that has seen the tail at the front of the list sees it there still, or the consumer has gone
    on to a later slot. -/
def ProducerPhase.Moving (r : Ring) (tp : Nat) (m : QueueMem) : ProducerPhase → Prop
  | .moveFull _ _ tail => m.tail = tail ∨ m.tail = tail ||| consumedFlag ∨ r.lo < tp
  | .jumping _ tail => m.tail = tail ∨ r.lo < tp
  | _ => True

/-- What holds in addition as long as the consumer only pops. -/
structure PopOnly (r : Ring) (tp : Nat) (ph : ProducerPhase) (cph : ConsumerPhase)
    (m : QueueMem) : Prop where
  noFlush : ¬ cph.inFlush
  holder : m.tail ≠ indexInvalid → m.tail.consumed = true ∨ ph.queue.overrun ≠ indexInvalid →
    cph.queue.current ≠ indexInvalid
  moving : ph.Moving r tp m

section steps

variable {n : Nat} {r r' : Ring} {tp tp' : Nat} {ph ph' : ProducerPhase} {cph cph' : ConsumerPhase}
  {m m' : QueueMem} {o : QueueOutcome}

/-- A push that is about to jump over the tail and finds another one finds a tail further on. -/
theorem PopOnly.released (h : PopOnly r tp ph cph m) : Released r tp ph m := by
  rintro p tail rfl hne
  exact h.moving.resolve_left hne

/-- No flush is running, so none looks up the head. -/
theorem PopOnly.headNew (h : PopOnly r tp ph cph m) : HeadNew cph m := by
  rintro c tail rfl
  exact absurd trivial h.noFlush

/-- A fetch-or leaves the tail where the push has seen it, with the flag. -/
theorem ProducerPhase.Moving.fetchOr (h : ph.Moving r tp m) (hring : RingInv n r ph)
    (htail : m'.tail = m.tail ||| consumedFlag) : ph.Moving r tp m' := by
  cases ph with
  | moveFull p next tail =>
    rcases h with h | h | h
    · exact Or.inr (Or.inl (by rw [htail, h]))
    · refine Or.inr (Or.inl ?_)
      rw [htail, h]
      exact Index.or_consumedFlag_of_consumed (by simp)
    · exact Or.inr (Or.inr h)
  | jumping p tail =>
    rcases h with h | h
    · left
      rw [htail, h]
      exact Index.or_consumedFlag_of_consumed hring.2.2.2.2
    · exact Or.inr h
  | _ => trivial

/-- Once the consumer has gone on to a later slot nothing more is asked of the tail. -/
theorem ProducerPhase.Moving.of_lt (h : r.lo < tp) : ph.Moving r tp m := by
  cases ph with
  | moveFull p next tail => exact Or.inr (Or.inr h)
  | jumping p tail => exact Or.inr h
  | _ => trivial

/-- A step of the producer in a run without a flush: one case for each point of a push. -/
theorem ProducerStep.popOnly (hinv : QueueInv n r ph cph m)
    (h : PopOnly r tp ph cph m) (hs : ProducerStep ph m ph' m' o) (hn : SizeOk n) :
    PopOnly (r.step ph ph') (tp + ph.jump ph') ph' cph m' := by
  refine ⟨h.noFlush, ?_, ?_⟩
  · -- What the producer has read of the tail: it can only have been consumed since.
    cases hs with
    -- the tail is born unconsumed, and nothing is kept back
    | first2 =>
      obtain ⟨hp, -, -, ho, -⟩ := hinv.ring
      rintro - (hc | hne)
      · have hc' := (Index.consumed_or_firstFlag _).symm.trans hc
        rw [hn.consumed hp.current_lt] at hc'
        cases hc'
      · exact absurd ho hne
    | requeue => exact fun hne hor => h.holder hne (hor.imp_right fun ho => absurd rfl ho)
    | @moved p next tail _ ht =>
      obtain ⟨hp, -, -, ho, rfl⟩ := hinv.ring
      intro _ _
      exact h.holder (ht ▸ hn.ne_invalid (hp.lt _)) (Or.inr ho)
    -- the exchange puts an unconsumed slot there
    | @movedFull p next tail _ ht =>
      obtain ⟨hp, -, -, ho, hslot, -⟩ := hinv.ring
      rintro - (hc | hne)
      · have hc' : (p.chain tail.slot).consumed = true := hc
        rw [hslot, hp.link hn, hn.consumed (hp.lt _)] at hc'
        cases hc'
      · exact absurd ho hne
    -- the tail was consumed, so the consumer holds a message
    | @overran p tail _ ht =>
      obtain ⟨hp, hhead, -, -, hc⟩ := hinv.ring
      intro _ _
      have hok := hinv.shared.tail (hhead ▸ hn.ne_invalid hp.current_lt)
      exact h.holder hok.ne_invalid (Or.inl (ht ▸ hc))
    | _ => exact h.holder
  · cases hs with
    | loadMoveFull => exact Or.inl rfl
    | loadOver => exact Or.inl rfl
    | moveFullLost ht =>
      rcases h.moving with h' | h' | h'
      · exact absurd h' ht
      · exact Or.inl h'
      · exact Or.inr h'
    | _ => trivial

/-- The points of a pop at which the consumer has seen the tail consumed. -/
theorem ConsumerStep.popOnly (hn : SizeOk n) (hinv : QueueInv n r ph cph m)
    (hlo : r.lo ≤ tp) (h : PopOnly r tp ph cph m) (hs : ConsumerStep cph m cph' m' o) :
    PopOnly r (tp + cph.jump cph') ph cph' m' := by
  have hreads := hinv.cons.reads
  have hfetch : ph.Moving r tp { m with tail := m.tail ||| consumedFlag } :=
    h.moving.fetchOr hinv.ring rfl
  have hflush := h.noFlush
  cases hs with
  | popNoMsg ht =>
    refine ⟨id, fun hne => absurd ?_ hne, hfetch⟩
    exact (congrArg (· ||| consumedFlag) ht).trans Index.indexInvalid_or_consumedFlag
  | popError ht hv => exact absurd (hinv.shared.tail_ok ht).lt (hinv.cons.nMsgs ▸ hv)
  | popTail ht hv hc =>
    exact ⟨id, fun _ _ => hn.ne_invalid (hinv.shared.tail_ok ht).lt, hfetch⟩
  | popNone ht hv hc hcur => exact absurd hcur (h.holder ht (Or.inl hc))
  | popOwn ht hv hc hcur => exact ⟨id, fun _ _ => hcur, hfetch⟩
  | popNoUpdate => exact ⟨id, h.holder, h.moving⟩
  | popNextError => exact ⟨id, h.holder, h.moving⟩
  | popNext => exact ⟨id, h.holder, h.moving⟩
  | popTaken =>
    exact ⟨id, fun _ _ => hn.ne_invalid hreads.2.2.2.2, .of_lt (Nat.lt_succ_of_le hlo)⟩
  | popLost => exact ⟨id, h.holder, h.moving⟩
  | popMovedError hv => exact absurd hreads.2 (hinv.cons.nMsgs ▸ hv)
  | popMoved hv => exact ⟨id, fun _ _ => hn.ne_invalid hreads.2, hfetch⟩
  | _ => exact absurd trivial hflush

end steps

/-- The invariants of a run without a flush. -/
structure PopInv {β : Type} (n : Nat) (r : Ring) (tp : Nat) (ph : ProducerPhase)
    (cph : ConsumerPhase) (s : QueueState β) : Prop where
  queue : QueueInv n r ph cph s.mem
  delivery : Delivery n r tp ph s
  follows : Follows n r tp ph.queue.overrun s cph
  popOnly : PopOnly r tp ph cph s.mem

/-- The first position that is unread. -/
def unreadFrom (tp : Nat) (tail : Index) : Nat := if tail.consumed then tp + 1 else tp

/-- The position of the tail after a step. -/
def QueueEvent.tailAfter {β : Type} (tp : Nat) (ph ph' : ProducerPhase)
    (cph cph' : ConsumerPhase) : QueueEvent β → Nat
  | .prodStep => tp + ph.jump ph'
  | .consStep => tp + cph.jump cph'
  | _ => tp

section system

variable {β : Type} {n : Nat} {r r' : Ring} {tp : Nat} {ph ph' : ProducerPhase}
  {cph cph' : ConsumerPhase} {s s' : QueueState β} {e : QueueEvent β} {o : QueueOutcome}

/-- The unread messages start at the tail or behind it. -/
theorem le_unreadFrom (tp : Nat) (w : Index) : tp ≤ unreadFrom tp w := by
  unfold unreadFrom
  split <;> omega

/-- A consumer that holds a slot knows what `Holds` says. -/
theorem PopInv.holds (h : PopInv n r tp ph cph s) (hne : cph.queue.current ≠ indexInvalid) :
    Holds n r tp ph.queue.overrun s cph.queue := by
  have hf := h.follows
  have hflush := h.popOnly.noFlush
  cases cph with
  | pop3 c tail next => exact hf.1 hne
  | flush1 c => exact absurd trivial hflush
  | flush2 c tail => exact absurd trivial hflush
  | flush3 c tail head => exact absurd trivial hflush
  | _ => exact hf hne

/-- A pop that finds the end of the chain has read everything. -/
theorem PopInv.nothing_unread (hn : SizeOk n) {c : ConsumerQueue} {tail : Index}
    (h : PopInv n r tp ph (.pop2 c tail) s) (hnone : s.mem.chain c.current = indexInvalid) :
    r.hi ≤ unreadFrom tp s.mem.tail := by
  have hc := h.queue.cons
  have hm := h.queue.shared
  have hd := h.delivery
  obtain ⟨hcur, htail, -, -⟩ := hc.reads
  have hholds := h.holds hcur
  have hpath := h.queue.ring.path
  have hlt : c.current.toNat < n := hc.current hcur
  rw [hm.chain _ hlt] at hnone
  cases hcons : s.mem.tail.consumed with
  | true =>
    rw [unreadFrom, hcons, if_pos rfl]
    by_contra hlt'
    have hnext := hpath.linked tp hd.lo_le (by omega)
    rw [← hholds.tail hcons] at hnext
    exact hn.ne_invalid (hpath.lt _) (hnext.symm.trans hnone)
  | false =>
    have hover : c.current = ph.queue.overrun := hholds.skipped hcons
    exact absurd (hover ▸ hnone) (hpath.over_link (hover ▸ hcur))

/-- A step of the consumer: where the tail is after it, and what it takes. -/
theorem PopInv.takes (hn : SizeOk n) (h : PopInv n r tp ph cph s) {m' : QueueMem}
    (hs : ConsumerStep cph s.mem cph' m' o) :
    Delivery n r (tp + cph.jump cph') ph (s.afterCons cph' m' o) ∧
    Follows n r (tp + cph.jump cph') ph.queue.overrun (s.afterCons cph' m' o) cph' ∧
    Takes n r (tp + cph.jump cph') cph s (s.afterCons cph' m' o) o := by
  obtain ⟨tp', -, hjump, hd, hf, htakes⟩ :=
    hs.delivery hn h.queue h.delivery h.follows h.popOnly.headNew
  obtain rfl := hjump h.popOnly.noFlush
  exact ⟨hd, hf, htakes⟩

/-- Every step of a run without a flush keeps the invariant. -/
theorem QueueStep.popInv (hn : SizeOk n) (h : PopInv n r tp ph cph s) (hok : NoFlush s e)
    (hs : QueueStep s r ph cph e r' ph' cph' s' o) :
    PopInv n r' (e.tailAfter tp ph ph' cph cph') ph' cph' s' := by
  -- Without flushes the slot the producer takes has always been released.
  have hqueue := hs.queueInv hn h.queue
  cases hs with
  | @write p _ x hlt =>
    exact ⟨hqueue, h.delivery.write h.queue x, h.follows.write h.queue h.delivery x,
      h.popOnly.noFlush, h.popOnly.holder, trivial⟩
  | @push p _ op =>
    refine ⟨hqueue, h.delivery.push h.queue op, ?_, h.popOnly.noFlush, ?_, ?_⟩
    · rw [ProducerPhase.queue_call]
      exact Follows.push h.queue h.follows op
    · rw [ProducerPhase.queue_call]
      exact h.popOnly.holder
    · unfold ProducerPhase.call
      split
      · trivial
      · cases op <;> trivial
  | prodStep hs =>
    exact ⟨hqueue, hs.delivery hn h.queue h.delivery h.popOnly.released,
      hs.follows hn h.queue h.delivery h.follows, hs.popOnly h.queue h.popOnly hn⟩
  | @pop _ c op =>
    cases op with
    -- there is no flush in these runs
    | flush => exact absurd hok id
    | pop =>
      refine ⟨hqueue, { h.delivery with }, ?_, id, h.popOnly.holder, h.popOnly.moving⟩
      refine h.follows.call ?_ ?_ ?_ .pop <;> rfl
  | consStep hs =>
    obtain ⟨hd, hf, -⟩ := h.takes hn hs
    exact ⟨hqueue, hd, hf, hs.popOnly hn h.queue h.delivery.lo_le h.popOnly⟩

/-- A new queue satisfies it. -/
theorem Created.popInv {p : ProducerQueue} (hn : SizeOk n) (h : Created n s p) :
    PopInv n (Ring.fresh n) (n - 1) (.idle p) (.idle { nMsgs := n, current := indexInvalid }) s where
  queue := h.queueInv hn
  delivery := h.delivery hn
  follows := fun hne => absurd rfl hne
  popOnly := ⟨id, fun hne => absurd h.memTail hne, trivial⟩

end system

end Rtipc
