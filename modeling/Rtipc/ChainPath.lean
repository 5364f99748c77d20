/-
  The chain as the producer walks it: no slot is lost, none is on it twice.

  Between two pushes the producer can follow `chain` from `current`.  `ChainPath` says what it visits:
  pairwise distinct slots, the last of them `head`, and altogether every slot but the one kept back
  after an overrun; and that the shared words show the same chain and the same head.  This holds in
  every run whatever the consumer does (`chain_path`).

  The tail is another matter.  In a run whose steps satisfy `FlushSafe` it is on the path behind the
  current slot (`chain_intact`).  Without the condition it need not be: `tail_at_current` is a run in
  which the tail names the current slot itself.

  The two halves rest on different invariants.  `chain_path` needs only what the producer knows of its
  own chain (`QueueInv`), so it holds in every run.  The clause on the tail needs to know where the tail
  is, and that is `Delivery`, which only holds as long as flushes are safe.

  The crux is `BeforeAppend.path_eq`: the private chain from the current slot on, cut after as many
  steps as there are slots in use, is the window of the ring, read from its front.  That no slot is on
  it twice and that only the slot kept back is missing follows by counting.
-/
import Mathlib.Data.List.Perm.Subperm
import Rtipc.Exclusivity

namespace Rtipc

/-- The slots the producer visits when it follows its chain from the current one. -/
def ProducerQueue.path (p : ProducerQueue) : List Index :=
  Window.follow p.chain indexInvalid p.nMsgs p.current

/-- What the producer finds on the chain, and what the shared words show of it. -/
structure ChainPath (n : Nat) (p : ProducerQueue) (m : QueueMem) : Prop where
  lt : ∀ x ∈ p.path, x.toNat < n
  nodup : p.path.Nodup
  start : p.path.head? = some p.current
  finish : p.path.getLast? = some p.head
  last : p.chain p.head = indexInvalid
  all : p.overrun = indexInvalid → ∀ x : Index, x.toNat < n → x ∈ p.path
  skipped : p.overrun ≠ indexInvalid → p.overrun.toNat < n ∧
    ∀ x : Index, x.toNat < n → (x ∈ p.path ↔ x ≠ p.overrun)
  chain : ∀ x : Index, x.toNat < n → m.chain x = p.chain x
  head : m.head = p.head

/-- Indices below `n` without repetition, as many as there are, are all of them. -/
theorem mem_of_nodup {n : Nat} {l : List Index} (hnd : l.Nodup) (hlt : ∀ x ∈ l, x.toNat < n)
    (hlen : l.length = n) (x : Index) (hx : x.toNat < n) : x ∈ l := by
  have hinj : Function.Injective (BitVec.toNat (w := 32)) := fun _ _ => BitVec.eq_of_toNat_eq
  have hsub : l.map BitVec.toNat ⊆ List.range n := by
    intro k hk
    obtain ⟨y, hy, rfl⟩ := List.mem_map.mp hk
    exact List.mem_range.mpr (hlt y hy)
  have hperm : (l.map BitVec.toNat).Perm (List.range n) := by
    refine (List.subperm_of_subset (hnd.map hinj) hsub).perm_of_length_le ?_
    rw [List.length_map, List.length_range, hlen]
  have hmem : x.toNat ∈ l.map BitVec.toNat := hperm.mem_iff.mpr (List.mem_range.mpr hx)
  obtain ⟨y, hy, heq⟩ := List.mem_map.mp hmem
  exact hinj heq ▸ hy

section path

variable {n : Nat} {r : Ring} {p : ProducerQueue} {cph : ConsumerPhase} {m : QueueMem}

/-- Between two pushes the path is the current slot and then the list. -/
theorem BeforeAppend.path_eq (h : BeforeAppend n r p) (hn : SizeOk n)
    (hcur : p.chain p.current = r.ord r.lo) (hs : Steady r p) :
    p.path = p.current :: r.segment r.lo r.hi := by
  have h1 := h.one_le hn
  have hsize := h.size
  obtain ⟨k, hk⟩ : ∃ k, n = k + 1 := ⟨n - 1, by have := hn.three_le; omega⟩
  rw [ProducerQueue.path, h.nMsgs, hk, Window.follow_succ (hn.ne_invalid h.current_lt), hcur]
  congr 1
  apply h.linked.follow_eq (fun i => hn.ne_invalid (h.lt i)) (hs.head ▸ hs.last) le_rfl h1
  omega

theorem QueueInv.chainPath (hn : SizeOk n) (h : QueueInv n r (.idle p) cph m)
    (hhead : p.head ≠ indexInvalid) :
    ChainPath n p m ∧ p.path = p.current :: r.segment r.lo r.hi := by
  obtain ⟨hp, hcur, hf | hs⟩ := h.ring
  · exact absurd hf.head hhead
  have h1 := hp.one_le hn
  have hsize := hp.size
  have hpath := hp.path_eq hn hcur hs
  have hlt : ∀ x ∈ p.path, x.toNat < n := by
    intro x hx
    rw [hpath] at hx
    rcases List.mem_cons.mp hx with rfl | hx
    · exact hp.current_lt
    · obtain ⟨k, -, -, rfl⟩ := Window.exists_of_mem_segment hx
      exact hp.lt k
  have hmem : ∀ x ∈ r.segment r.lo r.hi, r.Mem x := by
    intro x hx
    exact Window.exists_of_mem_segment hx
  have hnodup : p.path.Nodup := by
    rw [hpath]
    exact List.nodup_cons.mpr ⟨fun hx => hp.current_off (hmem _ hx), hp.nodup.segment⟩
  refine ⟨⟨hlt, hnodup, ?_, ?_, hs.last, ?_, ?_, h.shared.chain, h.shared.head⟩, hpath⟩
  · rw [hpath]
    rfl
  · obtain ⟨e, he⟩ : ∃ e, r.hi = e + 1 := ⟨r.hi - 1, by omega⟩
    rw [hpath, hs.head, he, Window.segment_snoc (by omega), ← List.cons_append]
    exact List.getLast?_concat
  · intro ho
    rw [spare_of_eq ho] at hsize
    apply mem_of_nodup hnodup hlt
    rw [hpath, List.length_cons, Window.length_segment]
    omega
  · intro ho
    rw [spare_of_ne ho] at hsize
    have hoff : p.overrun ∉ p.path := by
      intro hx
      rw [hpath] at hx
      rcases List.mem_cons.mp hx with hx | hx
      · exact hp.current_ne hx.symm
      · exact hp.over_off ho (hmem _ hx)
    refine ⟨hp.over_lt ho, fun x hx => ⟨fun hm he => hoff (he ▸ hm), fun hne => ?_⟩⟩
    -- with the slot kept back there are `n` of them
    have hall : x ∈ p.overrun :: p.path := by
      apply mem_of_nodup (List.nodup_cons.mpr ⟨hoff, hnodup⟩) ?_ ?_ x hx
      · intro y hy
        rcases List.mem_cons.mp hy with rfl | hy
        · exact hp.over_lt ho
        · exact hlt y hy
      · rw [hpath, List.length_cons, List.length_cons, Window.length_segment]
        omega
    exact (List.mem_cons.mp hall).resolve_left hne

end path

section runs

variable {β : Type} {n : Nat} {tr : List (QueueEvent β × QueueOutcome)} {s : QueueState β}
  {p : ProducerQueue}

/-- In every run the chain loses no slot and has none twice. -/
theorem chain_path (h3 : 3 ≤ n) (hn : n ≤ 2 ^ 30)
    (hr : (queueSystem β n).Run Machine.always tr s) (hp : s.prod = .idle p)
    (hhead : p.head ≠ indexInvalid) : ChainPath n p s.mem := by
  have hsize : SizeOk n := ⟨h3, hn⟩
  obtain ⟨r, ph, cph, hph, -, hinv, -⟩ := queue_run hsize (J := fun _ _ _ _ _ => True)
    (fun _ _ _ => trivial) (fun _ _ _ _ _ _ _ _ _ _ _ _ _ _ _ _ _ => trivial) hr
  obtain rfl := ProducerPhase.thread_eq_idle (hph.symm.trans hp)
  exact (hinv.chainPath hsize hhead).1

/-- Once a message has been pushed, between two pushes the chain visits every slot but the one kept
    back, and the tail is on it behind the current slot. -/
theorem chain_intact (h3 : 3 ≤ n) (hn : n ≤ 2 ^ 30) (hr : (queueSystem β n).Run FlushSafe tr s)
    (hp : s.prod = .idle p) (hpushed : 0 < s.pushed) :
    ChainPath n p s.mem ∧ s.mem.tail.slot ∈ p.path.tail := by
  have hsize : SizeOk n := ⟨h3, hn⟩
  obtain ⟨r, ph, cph, hph, -, hinv, tp, hd, -⟩ := delivery_run hsize hr
  obtain rfl := ProducerPhase.thread_eq_idle (hph.symm.trans hp)
  have hhead : p.head ≠ indexInvalid := by
    intro hh
    obtain ⟨hb, -, hf | hs⟩ := hinv.ring
    · -- a fresh list has `n - 1` slots, so the count says that nothing has been pushed
      have hcount := hd.count
      have hbefore := hb.size
      rw [spare_of_eq hf.overrun, hf.lo] at hbefore
      simp only [ProducerPhase.pending] at hcount
      omega
    · exact hsize.ne_invalid (hs.head_lt hb.toRingPath) hh
  obtain ⟨hchain, hpath⟩ := hinv.chainPath hsize hhead
  refine ⟨hchain, ?_⟩
  obtain ⟨hlt, hslot⟩ := hd.set hhead
  rw [hpath, hslot]
  exact Window.mem_segment hd.lo_le hlt

end runs

/-- An overrun takes slot 0 off the chain, and the pop after it takes the slot the tail was moved
    to. -/
theorem chain_intact_overrun :
    ∃ tr s p, (queueSystem Nat 4).Run FlushSafe tr s ∧ s.prod = .idle p ∧ p.overrun = 0#32 ∧
      p.path = [1#32, 2#32, 3#32] ∧ ChainPath 4 p s.mem ∧ s.mem.tail.slot ∈ p.path.tail := by
  obtain ⟨tr, s, hr, h⟩ := QueueState.exists_run 4 0 FlushSafe
    [.push .forcePush, .prodStep, .prodStep, .prodStep, .pop .pop, .consStep,
      .push .forcePush, .prodStep, .prodStep, .prodStep, .prodStep,
      .push .forcePush, .prodStep, .prodStep, .prodStep, .prodStep,
      .push .forcePush, .prodStep, .prodStep, .prodStep, .prodStep, .prodStep,
      .pop .pop, .consStep]
    (fun _ s => s.prod.idleAnd fun p =>
      decide (p.overrun = 0#32 ∧ p.path = [1#32, 2#32, 3#32] ∧ 0 < s.pushed)) (by decide)
  obtain ⟨p, hp, h⟩ := Thread.exists_idle h
  obtain ⟨hover, hpath, hpushed⟩ := of_decide_eq_true h
  exact ⟨tr, s, p, hr, hp, hover, hpath, chain_intact (by decide) (by decide) hr hp hpushed⟩

/-- A flush drops the first flag of slot 0 while a push is about to jump over that slot.  The push takes
    the slot for released, and the tail names the slot the producer writes to. -/
theorem tail_at_current :
    ∃ tr s p, (queueSystem Nat 3).Run Machine.always tr s ∧ s.prod = .idle p ∧ 0 < s.pushed ∧
      p.path = [0#32, 1#32, 2#32] ∧ s.mem.tail.slot = p.current ∧
      s.mem.tail.slot ∉ p.path.tail := by
  obtain ⟨tr, s, hr, h⟩ := QueueState.exists_run 3 0 Machine.always
    [.push .forcePush, .prodStep, .prodStep, .prodStep,
      .push .forcePush, .prodStep, .prodStep, .pop .flush, .consStep, .consStep, .prodStep,
      .prodStep, .push .forcePush, .prodStep, .prodStep, .prodStep, .prodStep, .consStep, .prodStep]
    (fun _ s => s.prod.idleAnd fun p => decide (0 < s.pushed ∧ p.path = [0#32, 1#32, 2#32] ∧
      s.mem.tail.slot = p.current ∧ s.mem.tail.slot ∉ p.path.tail)) (by decide)
  obtain ⟨p, hp, h⟩ := Thread.exists_idle h
  exact ⟨tr, s, p, hr, hp, of_decide_eq_true h⟩

end Rtipc
