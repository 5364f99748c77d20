/-
  Every message is accounted for, and none overtakes another.

  `Traffic` is what a history of pushes and pops says about the messages: the ones that pushes have
  accepted, in this order, the one that a running push offers, the ones that pops have handed out, and
  how many pushes reported that they discarded a message.  In a run without a flush

  * the accepted messages are the unread ones, and before them those that have been taken and those that
    have been discarded: none is lost silently and none is handed out twice (`messages_conserved`);
  * the taken messages are a part of the accepted ones in the same order, and without a discarded
    message they are exactly the first of them (`delivery_fifo`).

  A message may be taken before its push returns, so the offered message counts as the last of the
  accepted ones here.

  The crux is `Carries`: the message at position `i` of the list of slots is number `i + 1 - n` of what
  has been sent, and the taken messages stem from before the one that follows the held one.
-/
import Rtipc.EventfdCount
import Rtipc.Linearization

namespace Rtipc

/-! ## What a history says about the messages

  Read off the calls and their results alone. -/

/-- The messages that have passed so far. -/
structure Traffic (β : Type) where
  accepted : List β
  offered : Option β
  taken : List β
  lost : Nat
  deriving DecidableEq

namespace Traffic

variable {β : Type}

/-- Nothing has passed. -/
def empty : Traffic β := { accepted := [], offered := none, taken := [], lost := 0 }

/-- What one event of a history adds. -/
def see (t : Traffic β) : QueueHistoryEvent β → Traffic β
  | .invoke _ (.push _ x) => { t with offered := some x }
  | .invoke _ .pop => t
  | .respond _ (.pushed r) =>
    { t with
      accepted := if r.isPushed then t.accepted ++ t.offered.toList else t.accepted
      offered := none
      lost := if r = .forcePush .discarded then t.lost + 1 else t.lost }
  | .respond _ (.popped _ x) => { t with taken := t.taken ++ x.toList }

/-- The messages that have passed in a history. -/
def ofHistory (h : List (QueueHistoryEvent β)) : Traffic β := h.foldl see empty

/-- The accepted messages and the one that is being pushed. -/
def sent (t : Traffic β) : List β := t.accepted ++ t.offered.toList

/-- The traffic of a history that goes on. -/
theorem ofHistory_append (h l : List (QueueHistoryEvent β)) :
    ofHistory (h ++ l) = l.foldl see (ofHistory h) := List.foldl_append

/-- An accepted message has been sent under the same number. -/
theorem sent_of_lt (t : Traffic β) {k : Nat} (hk : k < t.accepted.length) :
    t.sent[k]? = t.accepted[k]? := List.getElem?_append_left hk

/-- The message of a running push is the last one sent. -/
theorem sent_last {t : Traffic β} {x : β} (h : t.offered = some x) :
    t.sent[t.accepted.length]? = some x := by
  rw [sent, h, List.getElem?_append_right le_rfl, Nat.sub_self]
  rfl

/-- What was accepted comes first among what was sent. -/
theorem take_sent {t : Traffic β} {m : Nat} (hm : m ≤ t.accepted.length) :
    t.sent.take m = t.accepted.take m := List.take_append_of_le_length hm

end Traffic

/-- The unread messages, the oldest first: those in the slots on the chain from the tail on, without the
    tail if it is consumed. -/
def QueueState.unread {β : Type} (nMsgs : Nat) (s : QueueState β) : List β :=
  if s.mem.tail = indexInvalid then []
  else (Window.follow s.mem.chain indexInvalid nMsgs s.mem.unreadStart).map s.msgs

/-- They are as many as the shared words say. -/
theorem QueueState.length_unread {β : Type} (nMsgs : Nat) (s : QueueState β) :
    (s.unread nMsgs).length = s.mem.unread nMsgs := by
  rw [unread, QueueMem.unread]
  split
  · rfl
  · rw [List.length_map, chainLength_eq, QueueMem.unreadStart]

/-- The message of a running push. -/
def ProducerPhase.offered {β : Type} (msgs : Index → β) : ProducerPhase → Option β
  | .idle _ => none
  | ph => some (msgs ph.queue.current)

/-- The front of a list depends on its first elements. -/
theorem take_congr {α : Type} {l l' : List α} {m : Nat} (h : ∀ k, k < m → l[k]? = l'[k]?) :
    l.take m = l'.take m := by
  apply List.ext_getElem?
  intro k
  rw [List.getElem?_take, List.getElem?_take]
  split
  · exact h k ‹_›
  · rfl

/-- The message after the held one has at most the number of the next message to be pushed. -/
theorem Delivery.nextNumber_le {β : Type} {n : Nat} {r : Ring} {tp : Nat} {ph : ProducerPhase}
    {s : QueueState β} (hd : Delivery n r tp ph s) : nextNumber s.held + n ≤ r.hi + 1 := by
  have hcount := hd.count
  have hpend : ph.pending ≤ 1 := by
    cases ph <;> first | exact le_rfl | exact Nat.zero_le 1
  cases hheld : s.held with
  | none =>
    show 0 + n ≤ r.hi + 1
    omega
  | some kx =>
    have hset : ph.queue.head ≠ indexInvalid := by
      intro hh
      have hnone := (hd.unset hh).2
      rw [hheld] at hnone
      cases hnone
    have hlt := (hd.set hset).1
    have hk := hd.held kx.1 kx.2 hheld
    show kx.1 + 1 + n ≤ r.hi + 1
    cases hc : s.mem.tail.consumed with
    | true =>
      have := hk.1 hc
      omega
    | false =>
      have := hk.2 hc
      omega

/-- What the queue still knows of the messages that have passed. -/
structure Carries {β : Type} (n : Nat) (r : Ring) (tp : Nat) (ph : ProducerPhase)
    (s : QueueState β) (t : Traffic β) : Prop where
  accepted : t.accepted.length = s.pushed
  offered : t.offered = ph.offered s.msgs
  tally : t.taken.length + t.lost + unreadSlots r tp s.mem.tail = s.pushed + ph.enqueued.toNat
  sent : ∀ i, tp ≤ i → i < r.hi → t.sent[i + 1 - n]? = some (s.msgs (r.ord i))
  held : ∀ k x, s.held = some (k, x) → t.sent[k]? = some x
  taken : t.taken.Sublist (t.sent.take (nextNumber s.held))

/-! ## The steps of the producer -/

section producer

variable {β : Type} {n : Nat} {r : Ring} {tp : Nat} {ph ph' : ProducerPhase}
  {cph : ConsumerPhase} {s : QueueState β} {t : Traffic β} {m m' : QueueMem} {o : QueueOutcome}

/-- A push keeps its message until it returns. -/
theorem ProducerStep.offered (hs : ProducerStep ph m ph' m' o) (msgs : Index → β) :
    (o = .silent ∧ ph'.offered msgs = ph.offered msgs) ∨
    ∃ y q, o = .pushed y ∧ ph' = .idle q ∧ ph.offered msgs = some (msgs ph.queue.current) := by
  cases hs <;> first | exact Or.inl ⟨rfl, rfl⟩ | exact Or.inr ⟨_, _, rfl, rfl, rfl⟩

/-- The list of slots keeps its messages and gets at most the one of the push. -/
theorem ProducerStep.ord (hs : ProducerStep ph m ph' m' o) {i : Nat}
    (hi : i < (r.step ph ph').hi) :
    (i < r.hi ∧ (r.step ph ph').ord i = r.ord i) ∨
    (i = r.hi ∧ (r.step ph ph').ord i = ph.queue.current ∧ ph.pending = 1 ∧ o = .silent) := by
  have happend : ∀ x, i < (r.append x).hi →
      (i < r.hi ∧ (r.append x).ord i = r.ord i) ∨ (i = r.hi ∧ (r.append x).ord i = x) := by
    intro x hlt
    rw [Window.append_hi] at hlt
    rcases Nat.lt_succ_iff_lt_or_eq.mp hlt with hlt | rfl
    · exact Or.inl ⟨hlt, Window.append_ord (by omega)⟩
    · exact Or.inr ⟨rfl, Window.append_ord_hi⟩
  cases hs with
  | first1 =>
    rcases happend _ hi with h | ⟨h, hord⟩
    · exact Or.inl h
    · exact Or.inr ⟨h, hord, rfl, rfl⟩
  | @enq2 k p next =>
    rcases happend _ hi with h | ⟨h, hord⟩
    · exact Or.inl h
    · exact Or.inr ⟨h, hord, rfl, rfl⟩
  | _ => exact Or.inl ⟨hi, rfl⟩

/-- A result adds one to the pushed messages if it is success or discarded. -/
theorem QueueOutcome.count_eq (k : Nat) (y : PushResult) :
    (QueueOutcome.pushed y).count k =
      k + (QueueOutcome.pushed y).isSuccess.toNat + (if y = .forcePush .discarded then 1 else 0) := by
  rcases y with (_ | _ | _) | (_ | _ | _) <;> rfl

/-- A push that succeeded counts one. -/
theorem PushResult.isPushed_eq (y : PushResult) (k : Nat) :
    (QueueOutcome.pushed y).count k = if y.isPushed then k + 1 else k := rfl

/-- A push goes on. -/
theorem Carries.pushGoesOn (hn : SizeOk n) (hinv : PopInv n r tp ph cph s)
    (h : Carries n r tp ph s t) (hs : ProducerStep ph s.mem ph' m' .silent)
    (hoffered : ph'.offered s.msgs = ph.offered s.msgs) :
    Carries n (r.step ph ph') (tp + ph.jump ph') ph' (s.afterProd ph' m' .silent) t where
  accepted := h.accepted
  offered := h.offered.trans hoffered.symm
  tally := by
    have hunread := hs.unread hn hinv
    have htally := h.tally
    rw [show (ph'.enqueued || QueueOutcome.silent.isSuccess) = ph'.enqueued from Bool.or_false _]
      at hunread
    show t.taken.length + t.lost + unreadSlots _ _ m'.tail = s.pushed + ph'.enqueued.toNat
    omega
  sent := by
    intro i hi hlt
    rcases hs.ord hlt with ⟨hlt', hord⟩ | ⟨rfl, hord, hpend, -⟩
    · rw [hord]
      exact h.sent i (by omega) hlt'
    · -- the message of the push has just been appended
      have hcount := hinv.delivery.count
      have hnum := hinv.delivery.num_le
      have hidle : ph.offered s.msgs = some (s.msgs ph.queue.current) := by
        cases hs <;> rfl
      rw [hord, show r.hi + 1 - n = t.accepted.length from by rw [h.accepted]; omega]
      exact Traffic.sent_last (h.offered.trans hidle)
  held := h.held
  taken := h.taken

/-- A push returns. -/
theorem Carries.pushReturns (hn : SizeOk n) (hinv : PopInv n r tp ph cph s)
    (h : Carries n r tp ph s t) {y : PushResult} {q : ProducerQueue}
    (hs : ProducerStep ph s.mem (.idle q) m' (.pushed y))
    (hoffered : ph.offered s.msgs = some (s.msgs ph.queue.current))
    (hd : Delivery n (r.step ph (.idle q)) (tp + ph.jump (.idle q)) (.idle q)
      (s.afterProd (.idle q) m' (.pushed y))) :
    Carries n (r.step ph (.idle q)) (tp + ph.jump (.idle q)) (.idle q)
      (s.afterProd (.idle q) m' (.pushed y)) (t.see (.respond .producer (.pushed y))) := by
  have hx : t.offered = some (s.msgs ph.queue.current) := h.offered.trans hoffered
  have haccepted : (t.see (.respond .producer (.pushed y))).accepted.length =
      (QueueOutcome.pushed y).count s.pushed := by
    rw [PushResult.isPushed_eq, Traffic.see, ← h.accepted]
    cases hy : y.isPushed with
    | true => simp only [if_true, hx, Option.toList_some, List.length_append, List.length_singleton]
    | false => simp only [Bool.false_eq_true, if_false]
  -- the messages that have been accepted keep their numbers
  have hfirst : ∀ k, k < (t.see (.respond .producer (.pushed y))).accepted.length →
      (t.see (.respond .producer (.pushed y))).sent[k]? = t.sent[k]? := by
    intro k hk
    rw [Traffic.sent_of_lt _ hk]
    cases hy : y.isPushed with
    | true => simp only [Traffic.see, hy, if_true, Traffic.sent]
    | false =>
      simp only [Traffic.see, hy, Bool.false_eq_true, if_false] at hk ⊢
      exact (t.sent_of_lt hk).symm
  have hcount : (QueueOutcome.pushed y).count s.pushed + n = (r.step ph (.idle q)).hi + 1 := hd.count
  have hnum := hd.num_le
  -- the held message has been accepted before
  have hle : nextNumber s.held + n ≤ (r.step ph (.idle q)).hi + 1 := hd.nextNumber_le
  refine ⟨haccepted, rfl, ?_, ?_, ?_, ?_⟩
  · have hunread := hs.unread hn hinv
    have htally := h.tally
    have hpushed := QueueOutcome.count_eq s.pushed y
    rw [show ((ProducerPhase.idle q).enqueued || (QueueOutcome.pushed y).isSuccess) =
      (QueueOutcome.pushed y).isSuccess from Bool.false_or _] at hunread
    show t.taken.length + (if y = .forcePush .discarded then t.lost + 1 else t.lost) +
      unreadSlots _ _ m'.tail = (QueueOutcome.pushed y).count s.pushed + 0
    by_cases hy : y = .forcePush .discarded
    · rw [if_pos hy] at hpushed ⊢
      omega
    · rw [if_neg hy] at hpushed ⊢
      omega
  · intro i hi hlt
    have hk : i + 1 - n < (t.see (.respond .producer (.pushed y))).accepted.length := by
      rw [haccepted]
      omega
    rw [hfirst _ hk]
    rcases hs.ord hlt with ⟨hlt', hord⟩ | ⟨-, -, -, hsilent⟩
    · rw [hord]
      exact h.sent i (by omega) hlt'
    · cases hsilent
  · intro k x hk
    rw [show s.held = some (k, x) from hk] at hle
    have hlt : k + 1 + n ≤ (r.step ph (.idle q)).hi + 1 := hle
    rw [hfirst k (by rw [haccepted]; omega)]
    exact h.held k x hk
  · show t.taken.Sublist (List.take (nextNumber s.held) _)
    rw [take_congr fun k hk => hfirst k (by rw [haccepted]; omega)]
    exact h.taken

/-- The history of a step of the producer. -/
theorem ProducerStep.carries (hn : SizeOk n) (hinv : PopInv n r tp ph cph s)
    (h : Carries n r tp ph s t) (hs : ProducerStep ph s.mem ph' m' o) :
    Carries n (r.step ph ph') (tp + ph.jump ph') ph' (s.afterProd ph' m' o)
      ((pushReply β o).foldl Traffic.see t) := by
  rcases hs.offered s.msgs with ⟨rfl, hoffered⟩ | ⟨y, q, rfl, rfl, hoffered⟩
  · exact h.pushGoesOn hn hinv hs hoffered
  · exact h.pushReturns hn hinv hs hoffered
      (hs.delivery hn hinv.queue hinv.delivery hinv.popOnly.released)

end producer

/-! ## The steps of the consumer -/

section consumer

variable {β : Type} {n : Nat} {r : Ring} {tp : Nat} {ph : ProducerPhase}
  {cph cph' : ConsumerPhase} {s : QueueState β} {t : Traffic β} {m' : QueueMem} {o : QueueOutcome}

/-- A step of a pop takes one unread message, or leaves all of them. -/
theorem ConsumerStep.unread_taken (hn : SizeOk n) (hinv : PopInv n r tp ph cph s)
    (hs : ConsumerStep cph s.mem cph' m' o) :
    unreadSlots r (tp + cph.jump cph') m'.tail + o.isTaken.toNat = unreadSlots r tp s.mem.tail := by
  have hm := hinv.queue.shared
  have hc := hinv.queue.cons
  have hreads := hc.reads
  have hflush := hinv.popOnly.noFlush
  rcases Nat.eq_zero_or_pos (unreadSlots r tp s.mem.tail) with hzero | hpos
  · -- a tail that is not consumed is an unread message
    have hfull : s.mem.tail.consumed = true := by
      by_contra hcons
      have hfree := Bool.eq_false_iff.mpr hcons
      have hlt := (hinv.delivery.set (hm.head_ne rfl (Index.ne_indexInvalid_of_not_consumed hfree))).1
      rw [unread_free hfree] at hzero
      omega
    cases hs with
    | popNoMsg ht =>
      show unreadSlots r tp (s.mem.tail ||| consumedFlag) + 0 = _
      rw [Index.or_consumedFlag_of_consumed hfull, Nat.add_zero]
    | popError ht hv => exact absurd (hm.tail_ok ht).lt (hc.nMsgs ▸ hv)
    | popTail ht hv hcons =>
      rw [hfull] at hcons
      cases hcons
    | popNone ht hv hcons hcur => exact absurd hcur (hinv.popOnly.holder ht (Or.inl hcons))
    | popOwn ht hv hcons hcur =>
      show unreadSlots r tp (s.mem.tail ||| consumedFlag) + 0 = _
      rw [Index.or_consumedFlag_of_consumed hfull, Nat.add_zero]
    | popTaken ht =>
      have hlt := (hinv.follows.2 ht).1
      rw [unread_consumed (ht ▸ hreads.2.1.ne_invalid) hfull] at hzero
      omega
    | popMovedError hv => exact absurd hreads.2 (hc.nMsgs ▸ hv)
    | popMoved hv =>
      rw [hn.consumed (hc.nMsgs ▸ hv)] at hfull
      cases hfull
    | flushNoMsg | flushError | flushTail | flushHeadError | flushHead | flushTaken | flushLost =>
      exact absurd trivial hflush
    | _ => rfl
  · rcases hs.unread hn hinv hpos with ⟨rfl, hsame⟩ | ⟨y, rfl, hy, hless⟩
    · exact hsame
    · have htaken : (QueueOutcome.popped y).isTaken = true := decide_eq_true hy
      rw [htaken]
      exact hless

/-- A pop that takes a message then is at an existing slot. -/
theorem ConsumerStep.taken_idle {n : Nat} {r : Ring} {ph : ProducerPhase}
    (hinv : QueueInv n r ph cph s.mem) (hs : ConsumerStep cph s.mem cph' m' o)
    (ho : o.isTaken = true) : ∃ c, cph' = .idle c ∧ c.current.toNat < c.nMsgs := by
  have hc := hinv.cons
  have hreads := hc.reads
  cases hs with
  | popTail ht hv hcons => exact ⟨_, rfl, hv⟩
  | popTaken ht => exact ⟨_, rfl, hc.nMsgs.symm ▸ hreads.2.2.2.2⟩
  | popMoved hv => exact ⟨_, rfl, hv⟩
  | flushTaken ht => exact ⟨_, rfl, hc.nMsgs.symm ▸ hreads.2.2⟩
  | _ => cases ho

/-- What a step of the consumer hands out is the message then held. -/
theorem ConsumerStep.delivered (hn : SizeOk n) (hinv : PopInv n r tp ph cph s)
    (hs : ConsumerStep cph s.mem cph' m' o) (ho : o.isTaken = true) :
    ∃ y k x, o = .popped y ∧ (s.afterCons cph' m' o).delivered y = some x ∧
      (s.afterCons cph' m' o).held = some (k, x) := by
  obtain ⟨c, rfl, hlt⟩ := hs.taken_idle hinv.queue ho
  obtain ⟨-, hf, -⟩ := hinv.takes hn hs
  have hne : c.current ≠ indexInvalid := by
    have hn' : c.nMsgs = n := (hs.queueInv hn hinv.queue).cons.nMsgs
    exact hn.ne_invalid (hn' ▸ hlt)
  obtain ⟨k, hheld, -⟩ := (hf hne).held
  have hmsg : c.msg = some c.current := by
    rw [ConsumerQueue.msg, if_neg hne]
    exact queueGetMsg_of_lt hlt
  cases o with
  | popped y =>
    refine ⟨y, k, s.msgs c.current, rfl, ?_, hheld⟩
    have htaken : y.isTaken = true := ho
    show (if y.isTaken then c.msg.map s.msgs else none) = _
    rw [htaken, if_pos rfl, hmsg, Option.map_some]
  | silent => cases ho
  | pushed y => cases ho

/-- A result without a message adds nothing. -/
theorem see_popReply {s' : QueueState β} (ho : o.isTaken = false) :
    (popReply s' o).foldl Traffic.see t = t := by
  cases o with
  | popped y =>
    have hy : y.isTaken = false := ho
    have hnone : s'.delivered y = none := by
      unfold QueueState.delivered
      split
      · rw [hy]
        rfl
      · rfl
    show t.see (.respond .consumer (.popped y (s'.delivered y))) = t
    rw [hnone, Traffic.see, Option.toList_none, List.append_nil]
  | _ => rfl

/-- The message that is taken follows the ones taken before. -/
theorem taken_append {sent taken : List β} {x : β} {k j : Nat} (h : taken.Sublist (sent.take k))
    (hle : k ≤ j) (hx : sent[j]? = some x) : (taken ++ [x]).Sublist (sent.take (j + 1)) := by
  rw [List.take_add_one, hx]
  exact (h.trans (List.take_sublist_take_left hle)).append (List.Sublist.refl [x])

/-- The history of a step of the consumer. -/
theorem ConsumerStep.carries (hn : SizeOk n) (hinv : PopInv n r tp ph cph s)
    (h : Carries n r tp ph s t) (hs : ConsumerStep cph s.mem cph' m' o) :
    Carries n r (tp + cph.jump cph') ph (s.afterCons cph' m' o)
      ((popReply (s.afterCons cph' m' o) o).foldl Traffic.see t) := by
  have hunread := hs.unread_taken hn hinv
  have htally := h.tally
  obtain ⟨hd, -, htakes⟩ := hinv.takes hn hs
  cases ho : o.isTaken with
  | false =>
    rw [ho] at hunread
    rw [see_popReply ho]
    refine ⟨h.accepted, h.offered, ?_, fun i hi => h.sent i (by omega), ?_, ?_⟩
    · rw [← htally, ← hunread]
      rfl
    · rw [htakes.keep ho]
      exact h.held
    · rw [htakes.keep ho]
      exact h.taken
  | true =>
    obtain ⟨y, k, x, rfl, hx, hheld⟩ := hs.delivered hn hinv ho
    obtain ⟨hnum, hheld'⟩ := htakes.take ho
    obtain ⟨rfl, rfl⟩ := Prod.mk.inj (Option.some.inj (hheld.symm.trans hheld'))
    rw [ho] at hunread
    -- A message is handed over: it is the one at the position the tail has reached.
    have hreply : (popReply (s.afterCons cph' m' (.popped y)) (.popped y)).foldl Traffic.see t =
        { t with taken := t.taken ++ [s.msgs (r.ord (tp + cph.jump cph'))] } := by
      show t.see (.respond .consumer (.popped y _)) = _
      rw [hx]
      rfl
    have hlt : tp + cph.jump cph' < r.hi := by
      refine (hd.set fun hh => ?_).1
      have hnone := (hd.unset hh).2
      rw [hheld] at hnone
      cases hnone
    -- That position is among the messages sent.
    have hsent := h.sent _ (Nat.le_add_right _ _) hlt
    rw [hreply]
    refine ⟨h.accepted, h.offered, ?_, fun i hi => h.sent i (by omega), ?_, ?_⟩
    · show (t.taken ++ [_]).length + t.lost + unreadSlots r _ m'.tail = s.pushed + ph.enqueued.toNat
      rw [List.length_append, List.length_singleton]
      rw [Bool.toNat_true] at hunread
      omega
    · intro k x hk
      rw [hheld] at hk
      cases hk
      exact hsent
    · rw [hheld]
      -- It is newer than the one held before, so what has been taken stays in order.
      have hle : nextNumber s.held ≤ tp + cph.jump cph' + 1 - n := by
        cases hold : s.held with
        | none => exact Nat.zero_le _
        | some kx =>
          have := htakes.lt ho hinv.popOnly.noFlush kx.1 kx.2 hold
          show kx.1 + 1 ≤ _
          omega
      exact taken_append h.taken hle hsent

end consumer

/-! ## Runs -/

section runs

variable {β : Type} {n : Nat} {r r' : Ring} {tp : Nat} {ph ph' : ProducerPhase}
  {cph cph' : ConsumerPhase} {s s' : QueueState β} {e : QueueEvent β} {o : QueueOutcome}
  {t : Traffic β} {h : List (QueueHistoryEvent β)}

/-- The application writes into the slot it has, which is not on the list. -/
theorem Carries.write {p : ProducerQueue} (hinv : PopInv n r tp (.idle p) cph s)
    (h : Carries n r tp (.idle p) s t) (x : β) :
    Carries n r tp (.idle p) { s with msgs := Function.update s.msgs p.current x } t := by
  refine { h with offered := h.offered, sent := ?_ }
  intro i hi hlt
  have hoff : r.ord i ≠ p.current := fun he =>
    hinv.queue.ring.1.current_off (he ▸ Window.mem_ord (le_trans hinv.delivery.lo_le hi) hlt)
  show _ = some (Function.update s.msgs p.current x (r.ord i))
  rw [Function.update_of_ne hoff]
  exact h.sent i hi hlt

/-- The call of a push offers the current message. -/
theorem Carries.push {p : ProducerQueue} (hinv : PopInv n r tp (.idle p) cph s)
    (h : Carries n r tp (.idle p) s t) (op : PushOp) :
    Carries n r tp (.call op p) (s.afterPush op p)
      (t.see (.invoke .producer (.push op (s.msgs p.current)))) := by
  have hcount : s.pushed + n = r.hi + 1 := hinv.delivery.count
  have hnum := hinv.delivery.num_le
  -- Between calls nothing is offered that has not been accepted.
  have hold : t.sent = t.accepted := by
    rw [Traffic.sent, h.offered]
    exact List.append_nil _
  have hle : nextNumber s.held ≤ t.accepted.length := by
    have := hinv.delivery.nextNumber_le
    rw [h.accepted]
    omega
  refine ⟨h.accepted, ?_, ?_, ?_, ?_, ?_⟩
  · unfold ProducerPhase.call
    split
    · rfl
    · cases op <;> rfl
  · have henq : (ProducerPhase.call op p).enqueued = false := by
      unfold ProducerPhase.call
      split
      · rfl
      · cases op <;> rfl
    rw [henq]
    exact h.tally
  · intro i hi hlt
    have hk : i + 1 - n < t.accepted.length := by
      rw [h.accepted]
      omega
    refine (Traffic.sent_of_lt (t.see _) hk).trans ?_
    show t.accepted[i + 1 - n]? = some (s.msgs (r.ord i))
    rw [← hold]
    exact h.sent i hi hlt
  · intro k x hk
    rw [show s.held = some (k, x) from hk] at hle
    refine (Traffic.sent_of_lt (t.see _) hle).trans ?_
    show t.accepted[k]? = some x
    rw [← hold]
    exact h.held k x hk
  · -- what has been taken lies in front of the new offer
    have htaken := h.taken
    rw [hold] at htaken
    show t.taken.Sublist (List.take (nextNumber s.held) _)
    rw [Traffic.take_sent (t := t.see _) hle]
    exact htaken

/-- One step of the queue. -/
theorem QueueStep.carries (hn : SizeOk n) (hinv : PopInv n r tp ph cph s)
    (h : Carries n r tp ph s t) (hph : s.prod = ph.thread) (hok : NoFlush s e)
    (hs : QueueStep s r ph cph e r' ph' cph' s' o) :
    Carries n r' (e.tailAfter tp ph ph' cph cph') ph' s'
      ((s.observe e s' o).foldl Traffic.see t) := by
  cases hs with
  | write hlt => exact h.write hinv _
  | @push p _ op =>
    have hobs : s.observe (.push op) (s.afterPush op p) .silent =
        [.invoke .producer (.push op (s.msgs p.current))] := by
      rw [QueueState.observe, hph]
      rfl
    rw [hobs]
    exact h.push hinv op
  | @prodStep _ _ _ m' _ hs =>
    have hobs : s.observe .prodStep (s.afterProd ph' m' o) o = pushReply β o := by
      cases o <;> rfl
    rw [hobs]
    exact hs.carries hn hinv h
  | pop => exact { h with }
  | @consStep _ _ _ m' _ hs =>
    have hobs : s.observe .consStep (s.afterCons cph' m' o) o =
        popReply (s.afterCons cph' m' o) o := by
      cases o <;> rfl
    rw [hobs]
    exact hs.carries hn hinv h

/-- Every run without flushes. -/
theorem carries_run (hn : SizeOk n)
    (hr : (queueSystem β n).Observed NoFlush QueueState.observe h s) :
    ∃ r tp ph cph, s.prod = ph.thread ∧ s.cons = cph.thread ∧ PopInv n r tp ph cph s ∧
      Carries n r tp ph s (.ofHistory h) := by
  induction hr with
  | @init s hinit =>
    obtain ⟨p, hp⟩ := queue_created hn hinit
    refine ⟨_, _, .idle p, .idle _, hp.prod, hp.cons, hp.popInv hn, hp.pushed.symm, rfl, ?_, ?_, ?_, ?_⟩
    · rw [unreadSlots, if_pos hp.memTail, hp.pushed]
      rfl
    · intro i hi hlt
      simp only [Ring.fresh] at hlt
      omega
    · intro k x hk
      rw [hp.held] at hk
      cases hk
    · rw [hp.held]
      exact List.Sublist.refl []
  | @step h s s' e o _ hok hs ih =>
    obtain ⟨r, tp, ph, cph, hph, hcph, hinv, hcarries⟩ := ih
    obtain ⟨r', ph', cph', hstep, hph', hcph'⟩ := queueStep_cases hn hph hcph hinv.queue.ring hs
    refine ⟨r', _, ph', cph', hph', hcph', hstep.popInv hn hinv hok, ?_⟩
    rw [Traffic.ofHistory_append]
    exact hstep.carries hn hinv hcarries hph hok

/-- A message on its way is on the chain or not yet. -/
theorem RingInv.pending_enqueued (h : RingInv n r ph) (hset : ph.queue.head ≠ indexInvalid) :
    ph.pending + ph.enqueued.toNat = 1 := by
  cases ph with
  | first2 => exact absurd h.2.2.1 hset
  | _ => rfl

/-- Once something has been pushed, the number of the first unread message is that of the messages that
    have been taken or discarded. -/
theorem Carries.first_unread (hinv : PopInv n r tp ph cph s)
    (h : Carries n r tp ph s t) (ht : s.mem.tail ≠ indexInvalid) :
    t.taken.length + t.lost + n = unreadFrom tp s.mem.tail + 1 := by
  have hset : ph.queue.head ≠ indexInvalid := fun hh => ht (hinv.queue.shared.unset hh)
  have hpend := hinv.queue.ring.pending_enqueued hset
  have hcount := hinv.delivery.count
  have hnum := hinv.delivery.num_le
  have hlt := (hinv.delivery.set hset).1
  have hle : unreadFrom tp s.mem.tail ≤ r.hi := by
    unfold unreadFrom
    split <;> omega
  have hge := le_unreadFrom tp s.mem.tail
  have htally := h.tally
  rw [unreadSlots, if_neg ht] at htally
  omega

/-- Everything before the first unread message is older than the message after the held one, or equal
    to it. -/
theorem Delivery.nextNumber_le_unread (hd : Delivery n r tp ph s) :
    nextNumber s.held + n ≤ unreadFrom tp s.mem.tail + 1 := by
  have hnum := hd.num_le
  have hge := le_unreadFrom tp s.mem.tail
  cases hheld : s.held with
  | none =>
    show 0 + n ≤ _
    omega
  | some kx =>
    have hk := hd.held kx.1 kx.2 hheld
    show kx.1 + 1 + n ≤ _
    unfold unreadFrom
    cases hc : s.mem.tail.consumed with
    | true =>
      have := hk.1 hc
      rw [if_pos rfl]
      omega
    | false =>
      have := hk.2 hc
      rw [if_neg (by decide)]
      omega

/-- The unread messages are the last ones on the list of slots. -/
theorem Carries.unread (hn : SizeOk n) (hinv : PopInv n r tp ph cph s) (h : Carries n r tp ph s t) :
    s.unread n = (t.sent.take (s.pushed + ph.enqueued.toNat)).drop (t.taken.length + t.lost) := by
  have htally := h.tally
  by_cases ht : s.mem.tail = indexInvalid
  -- case: nothing has been announced yet
  · rw [unreadSlots, if_pos ht] at htally
    rw [QueueState.unread, if_pos ht]
    refine (List.drop_eq_nil_iff.mpr ?_).symm
    rw [List.length_take]
    omega
  · have hfirst := h.first_unread hinv ht
    have hset : ph.queue.head ≠ indexInvalid := fun hh => ht (hinv.queue.shared.unset hh)
    have hpend := hinv.queue.ring.pending_enqueued hset
    have hcount := hinv.delivery.count
    have hnum := hinv.delivery.num_le
    have hle := le_unreadFrom tp s.mem.tail
    rw [QueueState.unread, if_neg ht, hinv.follow_unread hn ht]
    refine List.ext_getElem? fun i => ?_
    rw [List.getElem?_drop, List.getElem?_take, List.getElem?_map, Window.segment, List.getElem?_map]
    rcases Nat.lt_or_ge i (r.hi - unreadFrom tp s.mem.tail) with hi | hi
    -- case: the message at position `unreadFrom tp s.mem.tail + i`
    · have hsent := h.sent (unreadFrom tp s.mem.tail + i) (by omega) (by omega)
      rw [List.getElem?_range' hi, if_pos (by omega), Nat.one_mul]
      show some (s.msgs (r.ord (unreadFrom tp s.mem.tail + i))) = _
      rw [← hsent]
      congr 1
      omega
    · rw [List.getElem?_eq_none (by rw [List.length_range']; exact hi), if_neg (by omega)]
      rfl

/-- The taken messages are among those before the first unread one. -/
theorem Carries.taken_old (hinv : PopInv n r tp ph cph s) (h : Carries n r tp ph s t) :
    nextNumber s.held ≤ t.taken.length + t.lost := by
  by_cases ht : s.mem.tail = indexInvalid
  · have hhead : ph.queue.head = indexInvalid := by
      by_contra hh
      exact (hinv.queue.shared.tail hh).ne_invalid ht
    rw [(hinv.delivery.unset hhead).2]
    exact Nat.zero_le _
  · have hfirst := h.first_unread hinv ht
    have hnext := hinv.delivery.nextNumber_le_unread
    omega

/-- At every moment the accepted messages are the unread ones and before them `old` ones, of which all but
    the discarded ones have been taken, in this order and each once; while a push is running, its message
    may already be the last of them. -/
theorem messages_conserved (h3 : 3 ≤ n) (hmax : n ≤ 2 ^ 30)
    (hr : (queueSystem β n).Observed NoFlush QueueState.observe h s) :
    let t := Traffic.ofHistory h
    ∃ old, t.taken.Sublist old ∧ old.length = t.taken.length + t.lost ∧
      (t.accepted = old ++ s.unread n ∨ t.sent = old ++ s.unread n) ∧
      ∀ p, s.prod = .idle p → t.accepted = old ++ s.unread n := by
  have hn : SizeOk n := ⟨h3, hmax⟩
  obtain ⟨r, tp, ph, cph, hph, hcph, hinv, hcarries⟩ := carries_run hn hr
  have htally := hcarries.tally
  set t := Traffic.ofHistory h with ht
  have hlen : t.sent.length = s.pushed + t.offered.toList.length := by
    rw [Traffic.sent, List.length_append, hcarries.accepted]
  -- the messages that have been put on the chain, with or without that of the running push
  set put := t.sent.take (s.pushed + ph.enqueued.toNat) with hput
  have hunread : put = put.take (t.taken.length + t.lost) ++ s.unread n := by
    rw [hcarries.unread hn hinv, List.take_append_drop]
  have hputs : put = t.accepted ∨ put = t.sent := by
    cases henq : ph.enqueued with
    | false =>
      refine Or.inl ?_
      rw [hput, henq, ← hcarries.accepted]
      exact List.take_left
    | true =>
      refine Or.inr (List.take_of_length_le ?_)
      rw [hlen, henq, hcarries.offered]
      cases ph <;> first | exact le_rfl | cases henq
  have hidle : ∀ p, s.prod = .idle p → put = t.accepted := by
    intro p hp
    obtain rfl := ProducerPhase.thread_eq_idle (hph.symm.trans hp)
    rw [hput, show (ProducerPhase.idle p).enqueued.toNat = 0 from rfl, ← hcarries.accepted]
    exact List.take_left
  have hle : t.taken.length + t.lost ≤ put.length := by
    have hlenPut : put.length = s.pushed + ph.enqueued.toNat := by
      rw [hput, List.length_take, hlen, hcarries.offered]
      cases ph <;> first | exact Nat.min_eq_left (Nat.le_add_right _ _) | exact Nat.min_eq_left le_rfl
    omega
  refine ⟨put.take (t.taken.length + t.lost), ?_, List.length_take_of_le hle, ?_, ?_⟩
  · -- the taken messages are even among those up to the held one
    have hold : t.taken.length + t.lost ≤ s.pushed + ph.enqueued.toNat := by omega
    rw [hput, List.take_take, Nat.min_eq_left hold]
    exact hcarries.taken.trans (List.take_sublist_take_left (hcarries.taken_old hinv))
  · rw [← hunread]
    exact hputs.imp Eq.symm Eq.symm
  · intro p hp
    rw [← hunread]
    exact (hidle p hp).symm

/-- The messages are taken in the order in which they are sent, and if no push has reported a
    discarded message, they are the first ones sent. -/
theorem delivery_fifo (h3 : 3 ≤ n) (hmax : n ≤ 2 ^ 30)
    (hr : (queueSystem β n).Observed NoFlush QueueState.observe h s) :
    let t := Traffic.ofHistory h
    t.taken.Sublist t.sent ∧ (t.lost = 0 → t.taken <+: t.sent) := by
  have hn : SizeOk n := ⟨h3, hmax⟩
  obtain ⟨r, tp, ph, cph, hph, hcph, hinv, hcarries⟩ := carries_run hn hr
  have htaken := hcarries.taken
  refine ⟨htaken.trans (List.take_sublist _ _), ?_⟩
  intro hlost
  have hle : nextNumber s.held ≤ (Traffic.ofHistory h).taken.length := by
    have hold := hcarries.taken_old hinv
    rwa [hlost, Nat.add_zero] at hold
  -- a part that is as long as the whole is the whole
  have hall : (Traffic.ofHistory h).taken = (Traffic.ofHistory h).sent.take (nextNumber s.held) :=
    htaken.eq_of_length_le (le_trans (List.length_take_le _ _) hle)
  rw [hall]
  exact List.take_prefix _ _

end runs

/-- Three pushes into a queue of three slots and a pop: message 10 has been discarded, message 11 taken,
    and message 12 is unread. -/
theorem messages_conserved_discard :
    ∃ h s, (queueSystem Nat 3).Observed NoFlush QueueState.observe h s ∧
      Traffic.ofHistory h = { accepted := [10, 11, 12], offered := none, taken := [11], lost := 1 } ∧
      ∃ old, [11].Sublist old ∧ old.length = 2 ∧ [10, 11, 12] = old ++ s.unread 3 := by
  obtain ⟨h, s, hr, hq⟩ := QueueState.exists_observed 3 0 NoFlush
    [.write 10, .push .forcePush, .prodStep, .prodStep, .prodStep,
      .write 11, .push .tryPush, .prodStep, .prodStep, .prodStep, .prodStep,
      .write 12, .push .forcePush, .prodStep, .prodStep, .prodStep, .prodStep, .prodStep,
      .pop .pop, .consStep]
    (fun h s => s.prod.idleAnd fun _ => decide (Traffic.ofHistory h =
      { accepted := [10, 11, 12], offered := none, taken := [11], lost := 1 })) (by decide)
  obtain ⟨p, hp, hq⟩ := Thread.exists_idle hq
  have htraffic := of_decide_eq_true hq
  obtain ⟨old, htaken, hlen, -, hall⟩ := messages_conserved (by decide) (by decide) hr
  rw [htraffic] at htaken hlen hall
  exact ⟨h, s, hr, htraffic, old, htaken, hlen, hall p hp⟩

/-- A message is taken while its push is still running. -/
theorem delivery_fifo_running :
    ∃ h s, (queueSystem Nat 3).Observed NoFlush QueueState.observe h s ∧
      Traffic.ofHistory h = { accepted := [10], offered := some 11, taken := [10, 11], lost := 0 } ∧
      (Traffic.ofHistory h).taken <+: (Traffic.ofHistory h).sent := by
  obtain ⟨h, s, hr, hq⟩ := QueueState.exists_observed 3 0 NoFlush
    [.write 10, .push .forcePush, .prodStep, .prodStep, .prodStep, .pop .pop, .consStep,
      .write 11, .push .forcePush, .prodStep, .prodStep, .pop .pop, .consStep, .consStep, .consStep]
    (fun h _ => decide (Traffic.ofHistory h =
      { accepted := [10], offered := some 11, taken := [10, 11], lost := 0 })) (by decide)
  have htraffic := of_decide_eq_true hq
  exact ⟨h, s, hr, htraffic, (delivery_fifo (by decide) (by decide) hr).2 (by rw [htraffic])⟩

end Rtipc
