/-
  The producer's view of the slots.

  The chain is a list of slots from which the producer takes the free slots at the front and to which
  it appends its messages at the end.  `Ring` names the slots on it by position; the producer's current
  slot, and the slot blocked by the consumer after an overrun, are the only ones off the list.
  `RingInv` says, for each point of a push, where the private words `head`, `current`, `overrun` and
  `chain` stand on that list, `SharedInv` what the shared words show of it.

  Everything here holds in every run, whatever the consumer does: the one thing the producer takes
  from the tail word while it reorders the chain is that a tail it still blocks is the front of the
  list (`SharedInv.blocked`).

  1. **Positions.**  `ord` gives the slot at each position.  The list is from `lo` to `hi`; an
     append raises `hi`, and a slot that is taken from the front raises `lo`.  A slot keeps its position
     as long as it is on the list, so a lemma can name a slot by its position before and after a step.

  2. **Who has what.**  Of the `n` slots the producer has one as its current message; one may be kept
     back for the consumer (`overrun`); all others are on the list, none of them twice
     (`RingPath.nodup`, and the fields `size` of `BeforeAppend` and `AfterAppend`).

  3. **What is shared.**  The shared chain is the private one, word by word, at each point of a push.
     The head word is behind by one message while the last one has been linked and not announced.
-/
import Rtipc.Lib.Window
import Rtipc.Phases

namespace Rtipc

/-- The slots on the chain; position `n - 1` is the place of the first message. -/
abbrev Ring : Type := Window Index

/-- The number of slots kept back for an overrun message. -/
def ProducerQueue.spare (p : ProducerQueue) : Nat := if p.overrun = indexInvalid then 0 else 1

/-- No slot is kept back. -/
theorem spare_of_eq {p : ProducerQueue} (h : p.overrun = indexInvalid) : p.spare = 0 := if_pos h

/-- One slot is kept back. -/
theorem spare_of_ne {p : ProducerQueue} (h : p.overrun ≠ indexInvalid) : p.spare = 1 := if_neg h

/-- Never more than one. -/
theorem spare_le (p : ProducerQueue) : p.spare ≤ 1 := by
  unfold ProducerQueue.spare
  split <;> omega

/-- A tail word that is set: its slot exists, and only slot 0 carries the first flag. -/
structure TailOk (n : Nat) (w : Index) : Prop where
  lt : w.slot.toNat < n
  first : w.first = true → w.slot = 0#32

/-- Indices of slots fit beside the flags. -/
structure SizeOk (n : Nat) : Prop where
  three_le : 3 ≤ n
  le_two_pow : n ≤ 2 ^ 30

section words

variable {n : Nat} {w x : Index}

/-- The numbers of the slots leave the two flag bits free. -/
theorem SizeOk.lt (hn : SizeOk n) (h : w.toNat < n) : w.toNat < 2 ^ 30 :=
  lt_of_lt_of_le h hn.le_two_pow

/-- So the number of a slot is a word without flags, -/
theorem SizeOk.slot (hn : SizeOk n) (h : w.toNat < n) : w.slot = w := Index.slot_of_lt (hn.lt h)

/-- not consumed, -/
theorem SizeOk.consumed (hn : SizeOk n) (h : w.toNat < n) : w.consumed = false :=
  Index.consumed_of_lt (hn.lt h)

/-- not the first one, -/
theorem SizeOk.first (hn : SizeOk n) (h : w.toNat < n) : w.first = false :=
  Index.first_of_lt (hn.lt h)

/-- and not the end of a chain. -/
theorem SizeOk.ne_invalid (hn : SizeOk n) (h : w.toNat < n) : w ≠ indexInvalid :=
  Index.ne_indexInvalid_of_lt (hn.lt h)

/-- A tail that has been stored is not the unset one. -/
theorem TailOk.ne_invalid (h : TailOk n w) : w ≠ indexInvalid := by
  rintro rfl
  exact absurd (h.first (by decide)) (by decide)

/-- The consumer's flag does not change which slot a tail names. -/
theorem TailOk.or_consumed (h : TailOk n w) : TailOk n (w ||| consumedFlag) :=
  ⟨by simpa using h.lt, by simpa using h.first⟩

/-- A word without flags that names a slot may be a tail. -/
theorem TailOk.of_lt (hn : SizeOk n) (h : w.toNat < n) : TailOk n w :=
  ⟨by rw [hn.slot h]; exact h, fun hf => by rw [hn.first h] at hf; cases hf⟩

end words

/-- What holds of the private state at every point of a push. -/
structure RingPath (n : Nat) (r : Ring) (p : ProducerQueue) : Prop where
  nMsgs : p.nMsgs = n
  lt : ∀ i, (r.ord i).toNat < n
  nodup : r.Nodup
  linked : r.Linked p.chain
  word : ∀ i : Index, i.toNat < n → p.chain i = indexInvalid ∨ (p.chain i).toNat < n
  over_lt : p.overrun ≠ indexInvalid → p.overrun.toNat < n
  over_off : p.overrun ≠ indexInvalid → ¬ r.Mem p.overrun
  over_link : p.overrun ≠ indexInvalid → p.chain p.overrun ≠ indexInvalid

/-- The current slot is off the list, its message not yet appended. -/
structure BeforeAppend (n : Nat) (r : Ring) (p : ProducerQueue) : Prop extends RingPath n r p where
  current_lt : p.current.toNat < n
  current_off : ¬ r.Mem p.current
  current_ne : p.current ≠ p.overrun
  size : r.hi + 1 + p.spare = r.lo + n

/-- The current message is the end of the list. -/
structure AfterAppend (n : Nat) (r : Ring) (p : ProducerQueue) : Prop extends RingPath n r p where
  current_eq : p.current = r.ord (r.hi - 1)
  last : p.chain p.current = indexInvalid
  size : r.hi + p.spare = r.lo + n

/-- Nothing has been pushed yet: the chain is a cycle through all slots. -/
structure Fresh (n : Nat) (r : Ring) (p : ProducerQueue) : Prop where
  head : p.head = indexInvalid
  overrun : p.overrun = indexInvalid
  current : p.current = 0#32
  cycle : p.chain (r.ord (r.hi - 1)) = p.current
  lo : r.lo = 0

/-- The head is the end of the list. -/
structure Steady (r : Ring) (p : ProducerQueue) : Prop where
  head : p.head = r.ord (r.hi - 1)
  last : p.chain p.head = indexInvalid

/-- What a push that goes on after `enqueue_msg` knows about an overrun message. -/
def AfterEnqueue.Over (p : ProducerQueue) : AfterEnqueue → Prop
  | force => True
  | tryRequeue => p.overrun ≠ indexInvalid
  | tryNext => p.overrun = indexInvalid

/-- Where the private words stand on the list at each point of a push. -/
def RingInv (n : Nat) (r : Ring) : ProducerPhase → Prop
  | .idle p => BeforeAppend n r p ∧ p.chain p.current = r.ord r.lo ∧ (Fresh n r p ∨ Steady r p)
  | .first1 _ p next => BeforeAppend n r p ∧ next = r.ord r.lo ∧ Fresh n r p
  | .first2 _ p next => AfterAppend n r p ∧ next = r.ord r.lo ∧ p.head = indexInvalid ∧
      p.overrun = indexInvalid ∧ p.current = 0#32 ∧ r.lo = 0
  | .first3 _ p next => AfterAppend n r p ∧ next = r.ord r.lo ∧ p.head = p.current ∧
      p.overrun = indexInvalid ∧ r.lo = 0
  | .tryLoad p next => BeforeAppend n r p ∧ p.chain p.current = r.ord r.lo ∧ next = r.ord r.lo ∧
      Steady r p
  | .enq1 k p next => BeforeAppend n r p ∧ next = r.ord r.lo ∧ Steady r p ∧ k.Over p
  | .enq2 k p next => BeforeAppend n r p ∧ next = r.ord r.lo ∧ Steady r p ∧ k.Over p ∧
      p.chain p.current = indexInvalid
  | .enq3 k p next => AfterAppend n r p ∧ next = r.ord r.lo ∧ p.head = r.ord (r.hi - 2) ∧ k.Over p
  | .forceLoad p next => AfterAppend n r p ∧ next = r.ord r.lo ∧ p.head = p.current
  | .requeue _ p next => AfterAppend n r p ∧ next = r.ord r.lo ∧ p.head = p.current ∧
      p.overrun ≠ indexInvalid
  | .move p next tail => AfterAppend n r p ∧ next = r.ord r.lo ∧ p.head = p.current ∧
      p.overrun ≠ indexInvalid ∧ tail = r.ord r.lo
  | .moveFull p next tail => AfterAppend n r p ∧ next = r.ord r.lo ∧ p.head = p.current ∧
      p.overrun = indexInvalid ∧ tail.slot = r.ord r.lo ∧ tail.consumed = false
  | .jumping p tail => AfterAppend n r p ∧ p.head = p.current ∧ p.overrun = indexInvalid ∧
      tail.slot = r.ord r.lo ∧ tail.consumed = true

/-- The word the producer has last stored in the shared head. -/
def ProducerPhase.announced : ProducerPhase → Index
  | .first3 _ _ _ => indexInvalid
  | ph => ph.queue.head

/-- What the shared words show of the list. -/
structure SharedInv (n : Nat) (r : Ring) (ph : ProducerPhase) (m : QueueMem) : Prop where
  chain : ∀ i : Index, i.toNat < n → m.chain i = ph.queue.chain i
  head : m.head = ph.announced
  unset : ph.queue.head = indexInvalid → m.tail = indexInvalid
  tail : ph.queue.head ≠ indexInvalid → TailOk n m.tail
  blocked : ph.queue.overrun ≠ indexInvalid → m.tail.consumed = false → m.tail = r.ord r.lo

/-! ## One slot at a time -/

section slots

variable {n : Nat} {r : Ring} {p : ProducerQueue}

/-- At most one of three or more slots is kept back, so the list has two slots at least. -/
theorem AfterAppend.two_le (h : AfterAppend n r p) (hn : SizeOk n) : r.lo + 2 ≤ r.hi := by
  have h1 := h.size
  have h2 := spare_le p
  have h3 := hn.three_le
  omega

/-- The link out of the front of the list. -/
theorem AfterAppend.link (h : AfterAppend n r p) (hn : SizeOk n) :
    p.chain (r.ord r.lo) = r.ord (r.lo + 1) :=
  h.linked r.lo le_rfl (by have := h.two_le hn; omega)

/-- With no slot kept back all slots are on the list. -/
theorem AfterAppend.hi_eq (h : AfterAppend n r p) (ho : p.overrun = indexInvalid) :
    r.hi = r.lo + n := by
  have hsize := h.size
  rwa [spare_of_eq ho] at hsize

/-- The two links out of the front of the list. -/
theorem AfterAppend.link_link (h : AfterAppend n r p) (ho : p.overrun = indexInvalid)
    (hn : SizeOk n) : p.chain (p.chain (r.ord r.lo)) = r.ord (r.lo + 2) := by
  have h3 := hn.three_le
  have hhi := h.hi_eq ho
  rw [h.link hn]
  exact h.linked (r.lo + 1) (by omega) (by omega)

/-- Besides the current slot and one that is kept back there is one more, which is on the list. -/
theorem BeforeAppend.one_le (h : BeforeAppend n r p) (hn : SizeOk n) : r.lo + 1 ≤ r.hi := by
  have h1 := h.size
  have h2 := spare_le p
  have h3 := hn.three_le
  omega

/-- The slot that has been appended is one of the queue. -/
theorem AfterAppend.current_lt (h : AfterAppend n r p) : p.current.toNat < n := by
  rw [h.current_eq]
  exact h.lt _

/-- The head is a slot of the queue. -/
theorem Steady.head_lt (h : Steady r p) (hp : RingPath n r p) : p.head.toNat < n := by
  rw [h.head]
  exact hp.lt _

/-- It is the last one of the list. -/
theorem Steady.head_mem (h : Steady r p) (hlt : r.lo < r.hi) : r.Mem p.head := by
  rw [h.head]
  exact Window.mem_ord (by omega) (by omega)

/-- Ending the chain at a slot off the list leaves the list as it is. -/
theorem RingPath.setChain_invalid (h : RingPath n r p) {x : Index} (hx : ¬ r.Mem x)
    (hne : x ≠ p.overrun) : RingPath n r (p.setChain x indexInvalid) where
  nMsgs := h.nMsgs
  lt := h.lt
  nodup := h.nodup
  linked := h.linked.update hx
  word := by
    intro i hi
    by_cases hix : i = x
    · left
      rw [hix]
      simp [ProducerQueue.setChain]
    · simpa [ProducerQueue.setChain, hix] using h.word i hi
  over_lt := h.over_lt
  over_off := h.over_off
  over_link := by
    intro ho
    have hne' : p.overrun ≠ x := Ne.symm hne
    simpa [ProducerQueue.setChain, hne'] using h.over_link ho

/-- The message at position `hi`, once the slot before it points to it. -/
theorem RingPath.append (h : RingPath n r p) {x : Index} (hx : ¬ r.Mem x) (hlt : x.toNat < n)
    (hne : x ≠ p.overrun) (hlast : r.lo < r.hi → p.chain (r.ord (r.hi - 1)) = x) :
    RingPath n (r.append x) p where
  nMsgs := h.nMsgs
  lt := by
    intro i
    by_cases hi : i = r.hi
    · rw [hi, Window.append_ord_hi]
      exact hlt
    · rw [Window.append_ord hi]
      exact h.lt i
  nodup := h.nodup.append hx
  linked := h.linked.append hlast
  word := h.word
  over_lt := h.over_lt
  over_off := by
    intro ho hm
    rcases Window.mem_append hm with hm | hm
    · exact h.over_off ho hm
    · exact hne hm.symm
  over_link := h.over_link

/-- The producer has given slots at the front of the list to the application. -/
theorem RingPath.drop (h : RingPath n r p) (k : Nat) : RingPath n (r.drop k) p where
  nMsgs := h.nMsgs
  lt := h.lt
  nodup := h.nodup.drop k
  linked := h.linked.drop k
  word := h.word
  over_lt := h.over_lt
  over_off := fun ho hm => h.over_off ho hm.of_drop
  over_link := h.over_link

/-- `head` and `current` do not matter for the list. -/
theorem RingPath.congr (h : RingPath n r p) {q : ProducerQueue} (h1 : q.nMsgs = p.nMsgs)
    (h2 : q.chain = p.chain) (h3 : q.overrun = p.overrun) : RingPath n r q where
  nMsgs := h1.trans h.nMsgs
  lt := h.lt
  nodup := h.nodup
  linked := h2 ▸ h.linked
  word := h2 ▸ h.word
  over_lt := h3 ▸ h.over_lt
  over_off := h3 ▸ h.over_off
  over_link := by rw [h2, h3]; exact h.over_link

/-- The announcement in the head word does not change the list. -/
theorem AfterAppend.setHead (h : AfterAppend n r p) (x : Index) :
    AfterAppend n r { p with head := x } where
  toRingPath := h.toRingPath.congr rfl rfl rfl
  current_eq := h.current_eq
  last := h.last
  size := h.size

/-- Ending the chain of a fresh queue at the current slot makes it the first message. -/
theorem Fresh.append (hf : Fresh n r p) (h : BeforeAppend n r p) (hn : SizeOk n) :
    AfterAppend n (r.append p.current) (p.setChain p.current indexInvalid) := by
  have hlt := h.one_le hn
  have hpath := h.toRingPath.setChain_invalid h.current_off h.current_ne
  have hlast : r.ord (r.hi - 1) ≠ p.current := fun he =>
    h.current_off (he ▸ Window.mem_ord (by omega) (by omega))
  refine ⟨hpath.append h.current_off h.current_lt h.current_ne ?_, ?_, ?_, ?_⟩
  · intro _
    simpa [ProducerQueue.setChain, hlast] using hf.cycle
  · simp [ProducerQueue.setChain]
  · simp [ProducerQueue.setChain]
  · have h1 := h.size
    have h2 : p.spare = 0 := spare_of_eq hf.overrun
    have h3 : (p.setChain p.current indexInvalid).spare = 0 := spare_of_eq hf.overrun
    simp only [Window.append_hi, Window.append_lo, h3]
    omega

/-- `enqueue_msg`, first store: the current slot ends the chain. -/
theorem BeforeAppend.enq1 (h : BeforeAppend n r p) :
    BeforeAppend n r (p.setChain p.current indexInvalid) where
  toRingPath := h.toRingPath.setChain_invalid h.current_off h.current_ne
  current_lt := h.current_lt
  current_off := h.current_off
  current_ne := h.current_ne
  size := h.size

/-- Ending the chain in the current slot does not change the list, as the slot is not in it. -/
theorem Steady.enq1 (hs : Steady r p) (h : BeforeAppend n r p) (hn : SizeOk n) :
    Steady r (p.setChain p.current indexInvalid) where
  head := hs.head
  last := by
    have hne : p.head ≠ p.current := fun he =>
      h.current_off (he ▸ hs.head_mem (by have := h.one_le hn; omega))
    simpa [ProducerQueue.setChain, hne] using hs.last

/-- `enqueue_msg`, second store: the current slot is on the list. -/
theorem BeforeAppend.enq2 (h : BeforeAppend n r p) (hs : Steady r p)
    (hcur : p.chain p.current = indexInvalid) (hn : SizeOk n) :
    AfterAppend n (r.append p.current) (p.setChain p.head p.current) := by
  have hlt := h.one_le hn
  have hmem : r.Mem p.head := hs.head_mem (by omega)
  -- The current slot is off the chain, so linking it behind the head makes no loop.
  have hne : p.current ≠ p.head := fun he => h.current_off (he ▸ hmem)
  have hpath : RingPath n r (p.setChain p.head p.current) := by
    refine ⟨h.nMsgs, h.lt, h.nodup, ?_, ?_, h.over_lt, h.over_off, ?_⟩
    · rw [ProducerQueue.setChain, hs.head]
      exact h.linked.update_last h.nodup
    · -- only the word of the head has changed
      intro i hi
      by_cases hih : i = p.head
      · right
        simpa [ProducerQueue.setChain, hih] using h.current_lt
      · simpa [ProducerQueue.setChain, hih] using h.word i hi
    · intro ho
      have hoh : p.overrun ≠ p.head := fun he => h.over_off ho (he ▸ hmem)
      simpa [ProducerQueue.setChain, hoh] using h.over_link ho
  refine ⟨hpath.append h.current_off h.current_lt h.current_ne ?_, ?_, ?_, ?_⟩
  · intro _
    rw [← hs.head]
    simp [ProducerQueue.setChain]
  · simp [ProducerQueue.setChain]
  · simpa [ProducerQueue.setChain, hne] using hcur
  · -- one slot more on the chain, none more kept back
    have h1 := h.size
    have h2 : (p.setChain p.head p.current).spare = p.spare := rfl
    simp only [Window.append_hi, Window.append_lo, h2]
    omega

/-- The end of a push: the slot at the front of the list is the next current one. -/
theorem AfterAppend.take (h : AfterAppend n r p) (hhead : p.head = p.current) (hn : SizeOk n) :
    RingInv n (r.drop 1) (.idle { p with current := r.ord r.lo }) := by
  have hlt := h.two_le hn
  refine ⟨⟨(h.toRingPath.drop 1).congr rfl rfl rfl, h.lt _, ?_, ?_, ?_⟩, ?_, Or.inr ⟨?_, ?_⟩⟩
  · exact h.nodup.not_mem_drop le_rfl (by omega) (by omega)
  · intro he
    by_cases ho : p.overrun = indexInvalid
    · exact hn.ne_invalid (h.lt r.lo) (he.trans ho)
    · exact h.over_off ho (he ▸ Window.mem_ord le_rfl (by omega))
  · have h1 := h.size
    have h2 : ({ p with current := r.ord r.lo } : ProducerQueue).spare = p.spare := rfl
    simp only [Window.drop_hi, Window.drop_lo, h2]
    omega
  · exact h.linked r.lo le_rfl (by omega)
  · exact hhead.trans h.current_eq
  · have hl := h.last
    rwa [← hhead] at hl

/-- The end of a push after an overrun that the consumer has given up: the overrun slot is the next
    current one. -/
theorem AfterAppend.requeue (h : AfterAppend n r p) (hhead : p.head = p.current)
    (ho : p.overrun ≠ indexInvalid) (hn : SizeOk n) :
    RingInv n r (.idle { p.setChain p.overrun (r.ord r.lo) with
      current := p.overrun, overrun := indexInvalid }) := by
  have hlt := h.two_le hn
  -- The overrun slot is off the chain, the current one at its end.
  have hcur : p.current ≠ p.overrun := fun he =>
    h.over_off ho (he ▸ h.current_eq ▸ Window.mem_ord (by omega) (by omega))
  refine ⟨⟨⟨h.nMsgs, h.lt, h.nodup, h.linked.update (h.over_off ho), ?_, ?_, ?_, ?_⟩, h.over_lt ho,
    h.over_off ho, ?_, ?_⟩, ?_, Or.inr ⟨hhead.trans h.current_eq, ?_⟩⟩
  · intro i hi
    by_cases hio : i = p.overrun
    · right
      simpa [ProducerQueue.setChain, hio] using h.lt r.lo
    · simpa [ProducerQueue.setChain, hio] using h.word i hi
  · intro hne
    exact absurd rfl hne
  · intro hne
    exact absurd rfl hne
  · intro hne
    exact absurd rfl hne
  · exact ho
  · -- the slot kept back becomes the current one
    have h1 := h.size
    rw [spare_of_ne ho] at h1
    rw [spare_of_eq rfl]
    omega
  · simp [ProducerQueue.setChain]
  · -- the chain still ends at the head, whose word was not touched
    have hne : p.head ≠ p.overrun := hhead ▸ hcur
    have hl := h.last
    rw [← hhead] at hl
    simpa [ProducerQueue.setChain, hne] using hl

/-- The end of a push that jumps over the front of the list: the front is kept back, the slot after it
    is the next current one. -/
theorem AfterAppend.overran (h : AfterAppend n r p) (hhead : p.head = p.current)
    (ho : p.overrun = indexInvalid) (hn : SizeOk n) :
    RingInv n (r.drop 2)
      (.idle { p with overrun := r.ord r.lo, current := r.ord (r.lo + 1) }) := by
  have h3 := hn.three_le
  have hhi := h.hi_eq ho
  have hne : r.ord r.lo ≠ indexInvalid := hn.ne_invalid (h.lt _)
  -- The two oldest positions leave the chain: the first is kept back, the second becomes current.
  refine ⟨⟨⟨h.nMsgs, h.lt, h.nodup.drop 2, h.linked.drop 2, h.word, ?_, ?_, ?_⟩, h.lt _, ?_, ?_, ?_⟩,
    ?_, Or.inr ⟨hhead.trans h.current_eq, ?_⟩⟩
  · intro _
    exact h.lt _
  · intro _
    exact h.nodup.not_mem_drop le_rfl (by omega) (by omega)
  · intro _
    show p.chain (r.ord r.lo) ≠ indexInvalid
    rw [h.link hn]
    exact hn.ne_invalid (h.lt _)
  · exact h.nodup.not_mem_drop (by omega) (by omega) (by omega)
  · -- the two slots differ, as no slot is on the chain twice
    intro he
    have := h.nodup (r.lo + 1) r.lo (by omega) (by omega) le_rfl (by omega) he
    omega
  · rw [spare_of_ne hne]
    simp only [Window.drop_hi, Window.drop_lo]
    omega
  · exact h.linked (r.lo + 1) (by omega) (by omega)
  · have hl := h.last
    rwa [← hhead] at hl

end slots

/-! ## The steps of the producer

  `Ring.step` is what a step does to the list.  The two invariants are kept by all steps, with the new
  list in place of the old one. -/

/-- The list after a step of the producer from one point to another. -/
def Ring.step (r : Ring) : ProducerPhase → ProducerPhase → Ring
  | .first1 _ p _, _ | .enq2 _ p _, _ => r.append p.current
  | .first3 _ _ _, .idle _ | .enq3 _ _ _, .idle _ | .forceLoad _ _, .idle _ | .move _ _ _, .idle _
  | .moveFull _ _ _, .idle _ => r.drop 1
  | .jumping _ _, .idle q => r.drop (1 + q.spare)
  | _, _ => r

section jumping

variable {r : Ring} {p : ProducerQueue} {tail : Index}

/-- A jump over the tail takes the slot of the tail and the one behind it from the list; the first is
    kept back. -/
theorem Ring.step_overran (h : tail.slot ≠ indexInvalid) :
    r.step (.jumping p tail) (.idle { p with overrun := tail.slot, current := p.chain tail.slot }) =
      r.drop 2 := by
  rw [Ring.step, spare_of_ne (p := { p with overrun := tail.slot, current := p.chain tail.slot }) h]

/-- A jump that comes too late takes only the slot of the tail. -/
theorem Ring.step_overLost (h : p.overrun = indexInvalid) :
    r.step (.jumping p tail) (.idle { p with current := tail.slot }) = r.drop 1 := by
  rw [Ring.step, spare_of_eq (p := { p with current := tail.slot }) h]

end jumping

section steps

variable {n : Nat} {r : Ring} {ph ph' : ProducerPhase} {m m' : QueueMem} {o : QueueOutcome}

/-- The tail that a push reads is a slot. -/
theorem RingInv.tryLoad_valid {p : ProducerQueue} {next : Index} (hn : SizeOk n)
    (h : RingInv n r (.tryLoad p next)) (hm : SharedInv n r (.tryLoad p next) m) :
    m.tail.slot.toNat < p.nMsgs := by
  obtain ⟨hp, -, -, hs⟩ := h
  rw [hp.nMsgs]
  exact (hm.tail (hn.ne_invalid (hs.head_lt hp.toRingPath))).lt

/-- The tail that `force_push` loads names a slot, so the check for an error passes. -/
theorem RingInv.forceLoad_valid {p : ProducerQueue} {next : Index} (hn : SizeOk n)
    (h : RingInv n r (.forceLoad p next)) (hm : SharedInv n r (.forceLoad p next) m) :
    m.tail.slot.toNat < p.nMsgs := by
  obtain ⟨hp, -, hhead⟩ := h
  rw [hp.nMsgs]
  exact (hm.tail (hhead ▸ hn.ne_invalid hp.current_lt)).lt

/-- Every step of the producer keeps the list of slots. One case for each step; those that take slots
    from the front use `AfterAppend.take`, `.requeue` and `.overran`. -/
theorem ProducerStep.ringInv (hn : SizeOk n) (h : RingInv n r ph) (hm : SharedInv n r ph m)
    (hs : ProducerStep ph m ph' m' o) : RingInv n (r.step ph ph') ph' := by
  cases hs with
  | first1 =>
    obtain ⟨hp, hnext, hf⟩ := h
    have hlt := hp.one_le hn
    refine ⟨hf.append hp hn, ?_, hf.head, hf.overrun, hf.current, hf.lo⟩
    rw [hnext, Ring.step, Window.append_lo, Window.append_ord (by omega)]
  | first2 =>
    obtain ⟨hp, hnext, -, ho, -, hlo⟩ := h
    exact ⟨hp.setHead _, hnext, rfl, ho, hlo⟩
  | first3 =>
    obtain ⟨hp, rfl, hhead, -⟩ := h
    exact hp.take hhead hn
  | tryError hv => exact absurd (h.tryLoad_valid hn hm) hv
  | tryRequeue hv ho hc =>
    obtain ⟨hp, hcur, hnext, hs⟩ := h
    exact ⟨hp, hnext, hs, ho⟩
  | tryBlocked hv ho hc =>
    obtain ⟨hp, hcur, hnext, hs⟩ := h
    exact ⟨hp, hcur, Or.inr hs⟩
  | tryNext hv ho hne =>
    obtain ⟨hp, hcur, hnext, hs⟩ := h
    exact ⟨hp, hnext, hs, ho⟩
  | tryFull hv ho hne =>
    obtain ⟨hp, hcur, hnext, hs⟩ := h
    exact ⟨hp, hcur, Or.inr hs⟩
  | enq1 =>
    obtain ⟨hp, hnext, hs, hk⟩ := h
    exact ⟨hp.enq1, hnext, hs.enq1 hp hn, hk, by simp [ProducerQueue.setChain]⟩
  | enq2 =>
    -- the link to the new end makes it an element of the list
    obtain ⟨hp, hnext, hs, hk, hcur⟩ := h
    have hlt := hp.one_le hn
    refine ⟨hp.enq2 hs hcur hn, ?_, ?_, hk⟩
    · rw [hnext, Ring.step, Window.append_lo, Window.append_ord (by omega)]
    · rw [Ring.step, Window.append_hi, Window.append_ord (by omega)]
      exact hs.head
  | enq3Force =>
    obtain ⟨hp, hnext, -, hk⟩ := h
    exact ⟨hp.setHead _, hnext, rfl⟩
  | enq3Requeue =>
    obtain ⟨hp, hnext, -, hk⟩ := h
    exact ⟨hp.setHead _, hnext, rfl, hk⟩
  | enq3Next =>
    obtain ⟨hp, rfl, -, hk⟩ := h
    exact (hp.setHead _).take rfl hn
  | loadError hv => exact absurd (h.forceLoad_valid hn hm) hv
  | loadRequeue hv ho hc =>
    obtain ⟨hp, hnext, hhead⟩ := h
    exact ⟨hp, hnext, hhead, ho⟩
  | loadMove hv ho hc =>
    obtain ⟨hp, hnext, hhead⟩ := h
    exact ⟨hp, hnext, hhead, ho, hm.blocked ho hc⟩
  | loadNext hv ho hne =>
    obtain ⟨hp, rfl, hhead⟩ := h
    exact hp.take hhead hn
  | loadMoveFull hv ho heq hc =>
    obtain ⟨hp, hnext, hhead⟩ := h
    exact ⟨hp, hnext, hhead, ho, heq ▸ hnext, hc⟩
  | loadOver hv ho heq hc =>
    obtain ⟨hp, hnext, hhead⟩ := h
    exact ⟨hp, hhead, ho, heq ▸ hnext, hc⟩
  | requeue =>
    obtain ⟨hp, rfl, hhead, ho⟩ := h
    exact hp.requeue hhead ho hn
  | moved ht =>
    obtain ⟨hp, -, hhead, ho, rfl⟩ := h
    rw [hn.slot (hp.lt _)]
    exact hp.take hhead hn
  | moveLost ht =>
    obtain ⟨hp, hnext, hhead, ho, -⟩ := h
    exact ⟨hp, hnext, hhead, ho⟩
  | movedFull ht =>
    obtain ⟨hp, rfl, hhead, -⟩ := h
    exact hp.take hhead hn
  | moveFullLost ht =>
    obtain ⟨hp, hnext, hhead, ho, hslot, hc⟩ := h
    exact ⟨hp, hhead, ho, (Index.slot_or_consumedFlag _).trans hslot, by simp⟩
  | overran ht =>
    -- both slots leave the list: one is kept back, one becomes current
    obtain ⟨hp, hhead, ho, hslot, -⟩ := h
    rw [Ring.step_overran (hslot ▸ hn.ne_invalid (hp.lt _)), hslot, hp.link hn]
    exact hp.overran hhead ho hn
  | @overLost p tail _ ht =>
    obtain ⟨hp, hhead, ho, hslot, -⟩ := h
    rw [Ring.step_overLost ho, hslot]
    exact hp.take hhead hn

/-- The two copies of the chain stay equal when both are updated. -/
theorem SharedInv.update {p : ProducerQueue} {chain : Index → Index}
    (h : ∀ i : Index, i.toNat < n → chain i = p.chain i) (x v : Index) :
    ∀ i : Index, i.toNat < n →
      Function.update chain x v i = (p.setChain x v).chain i := by
  intro i hi
  by_cases hix : i = x
  · simp [ProducerQueue.setChain, hix]
  · simpa [ProducerQueue.setChain, hix] using h i hi

/-- Every step of the producer keeps what the shared words say about the list. -/
theorem ProducerStep.sharedInv (hn : SizeOk n) (h : RingInv n r ph) (hm : SharedInv n r ph m)
    (hs : ProducerStep ph m ph' m' o) : SharedInv n (r.step ph ph') ph' m' := by
  cases hs with
  -- the end of the chain is stored in the current slot, which no one reads yet
  | first1 =>
    obtain ⟨hp, -, hf⟩ := h
    exact ⟨SharedInv.update hm.chain _ _, hm.head, hm.unset, hm.tail,
      fun ho => absurd hf.overrun ho⟩
  -- the tail is stored before the head
  | first2 =>
    obtain ⟨hp, -, hhead, ho, hcur, -⟩ := h
    refine ⟨hm.chain, hm.head.trans hhead, fun hh => ?_, fun _ => ⟨?_, ?_⟩, fun h' => absurd ho h'⟩
    · exact absurd hh (hn.ne_invalid hp.current_lt)
    · rw [Index.slot_or_firstFlag, hn.slot hp.current_lt]
      exact hp.current_lt
    · intro _
      rw [Index.slot_or_firstFlag, hn.slot hp.current_lt]
      exact hcur
  | first3 =>
    obtain ⟨hp, rfl, hhead, ho, -⟩ := h
    exact ⟨hm.chain, rfl, hm.unset, hm.tail, fun h' => absurd ho h'⟩
  | tryError hv => exact ⟨hm.chain, hm.head, hm.unset, hm.tail, hm.blocked⟩
  | tryRequeue hv ho hc => exact ⟨hm.chain, hm.head, hm.unset, hm.tail, hm.blocked⟩
  | tryBlocked hv ho hc => exact ⟨hm.chain, hm.head, hm.unset, hm.tail, hm.blocked⟩
  | tryNext hv ho hne => exact ⟨hm.chain, hm.head, hm.unset, hm.tail, hm.blocked⟩
  | tryFull hv ho hne => exact ⟨hm.chain, hm.head, hm.unset, hm.tail, hm.blocked⟩
  | enq1 => exact ⟨SharedInv.update hm.chain _ _, hm.head, hm.unset, hm.tail, hm.blocked⟩
  -- the link to the new message: from here on a consumer can reach it
  | enq2 =>
    obtain ⟨hp, -⟩ := h
    have hlt := hp.one_le hn
    refine ⟨SharedInv.update hm.chain _ _, hm.head, hm.unset, hm.tail, fun ho hc => ?_⟩
    rw [Ring.step, Window.append_lo, Window.append_ord (by omega)]
    exact hm.blocked ho hc
  | enq3Force =>
    obtain ⟨hp, -, hhead, -⟩ := h
    exact ⟨hm.chain, rfl, fun hh => absurd hh (hn.ne_invalid hp.current_lt),
      fun _ => hm.tail (hhead ▸ hn.ne_invalid (hp.lt _)), hm.blocked⟩
  | enq3Requeue =>
    obtain ⟨hp, -, hhead, -⟩ := h
    exact ⟨hm.chain, rfl, fun hh => absurd hh (hn.ne_invalid hp.current_lt),
      fun _ => hm.tail (hhead ▸ hn.ne_invalid (hp.lt _)), hm.blocked⟩
  | enq3Next =>
    obtain ⟨hp, -, hhead, hk⟩ := h
    exact ⟨hm.chain, rfl, fun hh => absurd hh (hn.ne_invalid hp.current_lt),
      fun _ => hm.tail (hhead ▸ hn.ne_invalid (hp.lt _)), fun ho => absurd hk ho⟩
  -- the tail is never invalid here
  | loadError hv => exact absurd (h.forceLoad_valid hn hm) hv
  | loadRequeue hv ho hc => exact ⟨hm.chain, hm.head, hm.unset, hm.tail, hm.blocked⟩
  | loadMove hv ho hc => exact ⟨hm.chain, hm.head, hm.unset, hm.tail, hm.blocked⟩
  | loadNext hv ho hne => exact ⟨hm.chain, hm.head, hm.unset, hm.tail, fun h' => absurd ho h'⟩
  | loadMoveFull hv ho heq hc => exact ⟨hm.chain, hm.head, hm.unset, hm.tail, hm.blocked⟩
  | loadOver hv ho heq hc => exact ⟨hm.chain, hm.head, hm.unset, hm.tail, hm.blocked⟩
  | requeue =>
    exact ⟨SharedInv.update hm.chain _ _, hm.head, hm.unset, hm.tail, fun ho => absurd rfl ho⟩
  -- an exchange that puts the next slot of the chain into the tail
  | moved ht =>
    obtain ⟨hp, -, hhead, ho, rfl⟩ := h
    rw [hn.slot (hp.lt _), hp.link hn]
    exact ⟨hm.chain, hm.head, fun hh => absurd hh (hhead ▸ hn.ne_invalid hp.current_lt),
      fun _ => .of_lt hn (hp.lt _), fun _ _ => rfl⟩
  | moveLost ht => exact ⟨hm.chain, hm.head, hm.unset, hm.tail, hm.blocked⟩
  | movedFull ht =>
    obtain ⟨hp, -, hhead, ho, hslot, -⟩ := h
    rw [hslot, hp.link hn]
    exact ⟨hm.chain, hm.head, fun hh => absurd hh (hhead ▸ hn.ne_invalid hp.current_lt),
      fun _ => .of_lt hn (hp.lt _), fun h' => absurd ho h'⟩
  | moveFullLost ht => exact ⟨hm.chain, hm.head, hm.unset, hm.tail, hm.blocked⟩
  | overran ht =>
    obtain ⟨hp, hhead, ho, hslot, -⟩ := h
    rw [Ring.step_overran (hslot ▸ hn.ne_invalid (hp.lt _)), hslot, hp.link_link ho hn]
    exact ⟨hm.chain, hm.head, fun hh => absurd hh (hhead ▸ hn.ne_invalid hp.current_lt),
      fun _ => .of_lt hn (hp.lt _), fun _ _ => rfl⟩
  | overLost ht =>
    obtain ⟨hp, hhead, ho, -⟩ := h
    exact ⟨hm.chain, hm.head, hm.unset, hm.tail, fun h' => absurd ho h'⟩

end steps

end Rtipc
