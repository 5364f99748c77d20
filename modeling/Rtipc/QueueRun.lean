/-
  Runs of the queue.

  `queue_created` says what the two constructors leave behind: a chain that is a cycle through all the
  slots, in the private copy and in shared memory.  With the step lemma of `QueueInv` this gives
  `queue_run`, the induction behind every result about runs of the queue.
-/
import Rtipc.QueueInv

namespace Rtipc

section init

variable {n : Nat}

/-- A slot number survives the conversion. -/
theorem toNat_ofNat_of_lt (hn : SizeOk n) {i : Nat} (h : i < n) : (BitVec.ofNat 32 i).toNat = i := by
  have := hn.le_two_pow
  rw [BitVec.toNat_ofNat]
  omega

/-- A word is given by its number. -/
theorem eq_ofNat_toNat (x : Index) : x = BitVec.ofNat 32 x.toNat := by simp

/-- The loop of `ri_producer_queue_new` links the slots `i`, …, `i + k - 1` to their successors. -/
theorem initChain_run (hn : SizeOk n) (k i : Nat) (p : ProducerQueue) (m : QueueMem)
    (hp : p.nMsgs = n) (h : i + k ≤ n) :
    ∃ chain chain', (p.initChain i k).run QueueOp.exec m =
        some ({ p with chain := chain }, { m with chain := chain' }) ∧
      (∀ x : Index, chain x = if i ≤ x.toNat ∧ x.toNat < i + k then BitVec.ofNat 32 (x.toNat + 1)
        else p.chain x) ∧
      (∀ x : Index, chain' x = if i ≤ x.toNat ∧ x.toNat < i + k then BitVec.ofNat 32 (x.toNat + 1)
        else m.chain x) := by
  -- The induction is on the passes that are left; both copies of the chain are written alike.
  induction k generalizing i p m with
  | zero =>
    refine ⟨p.chain, m.chain, rfl, fun x => ?_, fun x => ?_⟩
    · rw [if_neg (by omega)]
    · rw [if_neg (by omega)]
  | succ k ih =>
    have hi : (BitVec.ofNat 32 i).toNat = i := toNat_ofNat_of_lt hn (by omega)
    have hlt : (BitVec.ofNat 32 i).toNat < p.nMsgs := by rw [hi, hp]; omega
    -- The store of this pass and those of the later ones are the stores from i on.
    have hsplit : ∀ (c c' : Index → Index) (x : Index),
        (∀ y : Index, c' y = if i + 1 ≤ y.toNat ∧ y.toNat < i + 1 + k then
            BitVec.ofNat 32 (y.toNat + 1)
          else Function.update c (BitVec.ofNat 32 i) (BitVec.ofNat 32 (i + 1)) y) →
        c' x = if i ≤ x.toNat ∧ x.toNat < i + (k + 1) then BitVec.ofNat 32 (x.toNat + 1)
          else c x := by
      intro c c' x hc
      rw [hc]
      by_cases hx : x.toNat = i
      · rw [if_neg (by omega), if_pos (by omega), eq_ofNat_toNat x, hx, hi,
          Function.update_self]
      · have hne : x ≠ BitVec.ofNat 32 i := fun he => hx (by rw [he, hi])
        rw [Function.update_of_ne hne]
        by_cases hr : i + 1 ≤ x.toNat ∧ x.toNat < i + 1 + k
        · rw [if_pos hr, if_pos (by omega)]
        · rw [if_neg hr, if_neg (by omega)]
    obtain ⟨chain, chain', hrun, hc, hc'⟩ :=
      ih (i + 1) (p.setChain (BitVec.ofNat 32 i) (BitVec.ofNat 32 (i + 1)))
        { m with chain := Function.update m.chain (BitVec.ofNat 32 i) (BitVec.ofNat 32 (i + 1)) }
        hp (by omega)
    refine ⟨chain, chain', ?_, fun x => hsplit _ _ x hc, fun x => hsplit _ _ x hc'⟩
    rw [ProducerQueue.initChain, ProducerQueue.chainStore, if_pos hlt]
    exact hrun

/-- The state the constructors leave: all words unset, the chain a cycle. -/
structure Created {β : Type} (n : Nat) (s : QueueState β) (p : ProducerQueue) : Prop where
  prod : s.prod = .idle p
  cons : s.cons = .idle { nMsgs := n, current := indexInvalid }
  nMsgs : p.nMsgs = n
  head : p.head = indexInvalid
  current : p.current = 0#32
  overrun : p.overrun = indexInvalid
  chain : ∀ x : Index, x.toNat < n →
    p.chain x = if x.toNat + 1 < n then BitVec.ofNat 32 (x.toNat + 1) else 0#32
  shared : ∀ x : Index, x.toNat < n → s.mem.chain x = p.chain x
  memTail : s.mem.tail = indexInvalid
  memHead : s.mem.head = indexInvalid
  pushed : s.pushed = 0
  held : s.held = none

/-- The initial state is that of a queue that has just been made. -/
theorem queue_created (hn : SizeOk n) {β : Type} {s : QueueState β} (h : (queueSystem β n).init s) :
    ∃ p, Created n s p := by
  obtain ⟨mem, chain, msgs, hcreate⟩ := h
  have h3 := hn.three_le
  obtain ⟨c, c', hrun, hc, hc'⟩ := initChain_run hn (n - 1) 0
    { nMsgs := n, current := 0, overrun := indexInvalid, head := indexInvalid, chain := chain }
    mem rfl (by omega)
  -- The loop leaves out the last slot, which is linked to the first one behind it.
  have hlast : (BitVec.ofNat 32 (n - 1)).toNat = n - 1 := toNat_ofNat_of_lt hn (by omega)
  have hlt : (BitVec.ofNat 32 (n - 1)).toNat < n := by omega
  simp only [QueueState.create, ProducerQueue.new, Prog.run_bind, hrun, ProducerQueue.chainStore,
    hlt, if_true, Prog.pure_eq, Prog.run_act, Prog.run_ret, Option.bind_some,
    QueueOp.exec, ProducerQueue.initShm, queueInitShm, Prog.run_bind, Prog.perform,
    Option.map_some, ProducerQueue.setChain] at hcreate
  cases hcreate
  -- The word of a slot after both: the next slot, or the first for the last.
  have hentry : ∀ (d d' : Index → Index), (∀ x : Index, d x =
      if 0 ≤ x.toNat ∧ x.toNat < 0 + (n - 1) then BitVec.ofNat 32 (x.toNat + 1) else d' x) →
      ∀ x : Index, x.toNat < n → Function.update d (BitVec.ofNat 32 (n - 1)) 0#32 x =
        if x.toNat + 1 < n then BitVec.ofNat 32 (x.toNat + 1) else 0#32 := by
    intro d d' hd x hx
    by_cases hxl : x.toNat = n - 1
    · rw [if_neg (by omega), eq_ofNat_toNat x, hxl, Function.update_self]
    · have hne : x ≠ BitVec.ofNat 32 (n - 1) := fun he => hxl (by rw [he, hlast])
      rw [Function.update_of_ne hne, hd, if_pos (by omega), if_pos (by omega)]
  refine ⟨_, rfl, rfl, rfl, rfl, rfl, rfl, hentry _ _ hc, ?_, rfl, rfl, rfl, rfl⟩
  intro x hx
  exact (hentry _ _ hc' x hx).trans (hentry _ _ hc x hx).symm

/-- The list of a fresh queue: all slots but the current one, from slot 1 on. -/
def Ring.fresh (n : Nat) : Ring :=
  { ord := fun i => if i + 1 < n then BitVec.ofNat 32 (i + 1) else 0#32, lo := 0, hi := n - 1 }

variable {β : Type} {s : QueueState β} {p : ProducerQueue}

/-- A new queue satisfies the invariant, with all slots free. -/
theorem Created.queueInv (hn : SizeOk n) (h : Created n s p) :
    QueueInv n (Ring.fresh n) (.idle p) (.idle { nMsgs := n, current := indexInvalid }) s.mem := by
  have h3 := hn.three_le
  have hord : ∀ i, i + 1 < n → ((Ring.fresh n).ord i).toNat = i + 1 := by
    intro i hi
    simp only [Ring.fresh, if_pos hi]
    exact toNat_ofNat_of_lt hn hi
  have hbound : ∀ i, ((Ring.fresh n).ord i).toNat < n := by
    intro i
    by_cases hi : i + 1 < n
    · rw [hord i hi]
      exact hi
    · simp only [Ring.fresh, if_neg hi]
      exact lt_of_lt_of_le (by decide) h3
  have hlt : (0#32 : Index).toNat < n := lt_of_lt_of_le (by decide) h3
  -- `ri_producer_queue_new` links slot `i` to slot `i + 1`, and the last one to slot 0
  have hchain : ∀ i, i + 1 < n → p.chain ((Ring.fresh n).ord i) = (Ring.fresh n).ord (i + 1) := by
    intro i hi
    rw [h.chain _ (hbound i), hord i hi]
    rfl
  have hpath : RingPath n (Ring.fresh n) p := by
    refine ⟨h.nMsgs, hbound, ?_, ?_, ?_, fun ho => absurd h.overrun ho,
      fun ho => absurd h.overrun ho, fun ho => absurd h.overrun ho⟩
    · intro i j _ hi _ hj heq
      simp only [Ring.fresh] at hi hj
      have := congrArg BitVec.toNat heq
      rw [hord i (by omega), hord j (by omega)] at this
      omega
    · intro i _ hi
      simp only [Ring.fresh] at hi
      exact hchain i (by omega)
    · intro i hi
      right
      rw [h.chain i hi]
      split
      · rw [toNat_ofNat_of_lt hn (by assumption)]
        assumption
      · exact hlt
  have hring : RingInv n (Ring.fresh n) (.idle p) := by
    refine ⟨⟨hpath, ?_, ?_, ?_, ?_⟩, ?_, Or.inl ⟨h.head, h.overrun, h.current, ?_, rfl⟩⟩
    · rw [h.current]
      exact hlt
    · rintro ⟨i, _, hi, heq⟩
      simp only [Ring.fresh] at hi
      have := congrArg BitVec.toNat (heq.trans h.current)
      rw [hord i (by omega)] at this
      exact absurd this (by simp)
    · rw [h.current, h.overrun]
      decide
    · rw [spare_of_eq h.overrun]
      simp only [Ring.fresh]
      omega
    · rw [h.current, h.chain _ hlt]
      rfl
    · rw [show (Ring.fresh n).hi - 1 = n - 2 from by simp only [Ring.fresh]; omega,
        hchain (n - 2) (by omega), h.current]
      simp only [Ring.fresh]
      rw [if_neg (by omega)]
  refine ⟨hring, ⟨h.shared, h.memHead.trans h.head.symm, fun _ => h.memTail,
    fun hh => absurd h.head hh, fun ho => absurd h.overrun ho⟩, rfl, ?_, fun _ => rfl, trivial⟩
  intro hne
  exact absurd rfl hne

end init

/-! ## Induction on runs -/

/-- What the initial state has and each step keeps holds along every run, for the points the threads
    are at and the list of slots. -/
theorem queue_run {β : Type} {n : Nat} (hn : SizeOk n) {ok : QueueState β → QueueEvent β → Prop}
    {J : List (QueueEvent β × QueueOutcome) → Ring → ProducerPhase → ConsumerPhase →
      QueueState β → Prop}
    (hinit : ∀ s p, Created n s p →
      J [] (Ring.fresh n) (.idle p) (.idle { nMsgs := n, current := indexInvalid }) s)
    (hstep : ∀ tr r ph cph s e r' ph' cph' s' o, QueueInv n r ph cph s.mem →
      s.prod = ph.thread → s.cons = cph.thread → J tr r ph cph s → ok s e →
      QueueStep s r ph cph e r' ph' cph' s' o → J (tr ++ [(e, o)]) r' ph' cph' s')
    {tr : List (QueueEvent β × QueueOutcome)} {s : QueueState β}
    (hr : (queueSystem β n).Run ok tr s) :
    ∃ r ph cph, s.prod = ph.thread ∧ s.cons = cph.thread ∧ QueueInv n r ph cph s.mem ∧
      J tr r ph cph s := by
  refine Machine.Run.invariant_trace (I := fun tr s => ∃ r ph cph, s.prod = ph.thread ∧
    s.cons = cph.thread ∧ QueueInv n r ph cph s.mem ∧ J tr r ph cph s) ?_ ?_ hr
  · intro s h
    obtain ⟨p, hp⟩ := queue_created hn h
    exact ⟨_, .idle p, .idle _, hp.prod, hp.cons, hp.queueInv hn, hinit s p hp⟩
  · rintro tr s e s' o ⟨r, ph, cph, hph, hcph, hinv, hj⟩ hok hs
    obtain ⟨r', ph', cph', hstep', hph', hcph'⟩ := queueStep_cases hn hph hcph hinv.ring hs
    exact ⟨r', ph', cph', hph', hcph', hstep'.queueInv hn hinv,
      hstep tr r ph cph s e r' ph' cph' s' o hinv hph hcph hj hok hstep'⟩

end Rtipc
