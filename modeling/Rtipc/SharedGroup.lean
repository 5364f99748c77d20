/-
  All channels of a group in one shared memory.

  The state machine is that of `QueueSystem`, once for each channel, but all of them run on the same
  bytes, and each of the two processes goes through pointers of its own.  The events name the channel
  they belong to.  The channels may be created in any order.

  Where the channels lie apart, they do not concern each other: a run of the group is, for each channel,
  a run of `queueSystem` with the events of that channel and their results (`sharedParts`).  So all that
  is known of the runs of a queue holds of each channel of a group.  And what a consumer reads through
  its pointers are the bytes that its producer has written through others (`Laid.message`).
-/
import Rtipc.Lib.Interleaving
import Rtipc.PopOnly
import Rtipc.SharedMemory

namespace Rtipc

/-- A channel as the producer and the consumer have it. -/
structure Link where
  prod : View
  cons : View
  deriving DecidableEq, Repr

/-- The two threads of a channel and its history, as in `QueueState`. -/
structure LinkState where
  prod : ProducerThread
  cons : ConsumerThread
  stamp : Index → Option (Nat × List Byte)
  pushed : Nat
  held : Option (Nat × List Byte)

/-- The shared memory and the threads of all channels. -/
structure SharedState (ι : Type) where
  mem : Memory
  links : ι → LinkState

/-- The producer has come to the point `prog` of the call `op`. -/
def LinkState.prodAt (l : LinkState) (op : PushOp) :
    QueueProg (ProducerQueue × PushResult) → LinkState × QueueOutcome
  | .ret (p, r) =>
    ({ l with prod := .idle p, pushed := if r.isPushed then l.pushed + 1 else l.pushed }, .pushed r)
  | prog => ({ l with prod := .busy op prog }, .silent)

/-- The consumer has come to the point `prog` of the call `op`. -/
def LinkState.consAt (l : LinkState) (op : PopOp) :
    QueueProg (ConsumerQueue × Loop PopResult) → LinkState × QueueOutcome
  | .ret (c, .done r) =>
    ({ l with cons := .idle c, held := if r.isTaken then l.stamp c.current else l.held }, .popped r)
  | .ret (c, .again) => ({ l with cons := .busy op (op.prog c) }, .silent)
  | prog => ({ l with cons := .busy op prog }, .silent)

namespace SharedState

variable {ι : Type} [DecidableEq ι] (L : ι → Link) (s : SharedState ι)

/-- The memory and the channel `i` after a step of it. -/
def set (mem : Memory) (i : ι) (l : LinkState) : SharedState ι :=
  { mem := mem, links := Function.update s.links i l }

/-- The application fills the current message. -/
def write (i : ι) (x : List Byte) : Option (SharedState ι × QueueOutcome) :=
  match (s.links i).prod with
  | .idle p =>
    if x.length = (L i).prod.queue.msgSize.toNat then
      ((L i).prod.msg p.current).map fun a => ({ s with mem := s.mem.store a x }, .silent)
    else none
  | .busy _ _ => none

/-- The application calls a push. -/
def push (i : ι) (op : PushOp) : Option (SharedState ι × QueueOutcome) :=
  let l := s.links i
  match l.prod with
  | .idle p =>
    some (s.set s.mem i { l with
      prod := .busy op (op.prog p)
      stamp := Function.update l.stamp p.current (((L i).prod.msg p.current).map fun a =>
        (l.pushed, s.mem.load a (L i).prod.queue.msgSize.toNat)) }, .silent)
  | .busy _ _ => none

/-- The producer performs its next atomic operation. -/
def prodStep (i : ι) : Option (SharedState ι × QueueOutcome) :=
  match (s.links i).prod with
  | .idle _ => none
  | .busy op prog => (prog.step (L i).prod.exec s.mem).map fun pm =>
    (s.set pm.2 i ((s.links i).prodAt op pm.1).1, ((s.links i).prodAt op pm.1).2)

/-- The application calls a pop or a flush. -/
def pop (i : ι) (op : PopOp) : Option (SharedState ι × QueueOutcome) :=
  match (s.links i).cons with
  | .idle c => some (s.set s.mem i { s.links i with cons := .busy op (op.prog c) }, .silent)
  | .busy _ _ => none

/-- The consumer performs its next atomic operation. -/
def consStep (i : ι) : Option (SharedState ι × QueueOutcome) :=
  match (s.links i).cons with
  | .idle _ => none
  | .busy op prog => (prog.step (L i).cons.exec s.mem).map fun cm =>
    (s.set cm.2 i ((s.links i).consAt op cm.1).1, ((s.links i).consAt op cm.1).2)

/-- One step of one channel, on the bytes of the shared memory. -/
def step : ι × QueueEvent (List Byte) → Option (SharedState ι × QueueOutcome)
  | (i, .write x) => s.write L i x
  | (i, .push op) => s.push L i op
  | (i, .prodStep) => s.prodStep L i
  | (i, .pop op) => s.pop i op
  | (i, .consStep) => s.consStep L i

end SharedState

/-- `ri_producer_queue_new` and `ri_queue_init_shm`. -/
def setupQueue (nMsgs : Nat) (chain : Index → Index) : QueueProg ProducerQueue := do
  let p ← ProducerQueue.new nMsgs chain
  ProducerQueue.initShm
  return p

/-- A channel is created in the memory `mem`, its private chain in `chain`. -/
def Link.create (l : Link) (chain : Index → Index) (mem : Memory) : Option (Memory × LinkState) :=
  ((setupQueue l.prod.queue.nMsgs.toNat chain).run l.prod.exec mem).map fun pm =>
    (pm.2, { prod := .idle pm.1
             cons := .idle (ConsumerQueue.new l.cons.queue.nMsgs.toNat)
             stamp := fun _ => none
             pushed := 0
             held := none })

/-- The channels of the list are created one after the other. -/
def createLinks {ι : Type} [DecidableEq ι] (L : ι → Link) (chains : ι → Index → Index) :
    List ι → SharedState ι → Option (SharedState ι)
  | [], s => some s
  | i :: is, s =>
    ((L i).create (chains i) s.mem).bind fun ml => createLinks L chains is (s.set ml.1 i ml.2)

/-- The channels as a state machine.  Before they are created the memory has any content. -/
def sharedSystem {ι : Type} [DecidableEq ι] (L : ι → Link) :
    Machine (SharedState ι) (ι × QueueEvent (List Byte)) QueueOutcome where
  init s := ∃ chains order s₀, order.Nodup ∧ (∀ i, i ∈ order) ∧ createLinks L chains order s₀ = some s
  step := SharedState.step L

/-! ## All accesses stay within the queue -/

section inBounds

variable {n : Nat} {r : Ring} {ph : ProducerPhase} {cph : ConsumerPhase} {m : QueueMem}

/-- The producer touches words of its own queue only. -/
theorem RingInv.inBounds (h : RingInv n r ph) {o : QueueOp} (ho : ph.thread.nextOp = some o) :
    o.InBounds n := by
  cases ph with
  | idle p => cases ho
  | first1 op p next =>
    cases ho
    exact h.1.current_lt
  | enq1 k p next =>
    cases ho
    exact h.1.current_lt
  | enq2 k p next =>
    cases ho
    exact h.2.2.1.head_lt h.1.toRingPath
  | requeue op p next =>
    cases ho
    exact h.1.over_lt h.2.2.2
  | _ =>
    cases ho
    trivial

/-- So does the consumer. -/
theorem ConsumerInv.inBounds (h : ConsumerInv n cph m) {o : QueueOp}
    (ho : cph.thread.nextOp = some o) : o.InBounds n := by
  cases cph with
  | idle c => cases ho
  | pop2 c tail =>
    cases ho
    exact h.current h.reads.1
  | _ =>
    cases ho
    trivial

end inBounds

/-! ## One channel

  A channel of the group shows the state of a queue that is alone. -/

/-- Both ends lead to the place. -/
structure Link.At (l : Link) (pl : Place) : Prop where
  prod : l.prod.At pl
  cons : l.cons.At pl

/-- The channel with these words and messages, as a queue of its own. -/
def LinkState.queue (l : LinkState) (m : QueueMem) (msgs : Index → List Byte) :
    QueueState (List Byte) where
  mem := m
  msgs := msgs
  prod := l.prod
  cons := l.cons
  stamp := l.stamp
  pushed := l.pushed
  held := l.held

/-- The channel `i`, whose queue is at the place, is in the state `q`. -/
def SharedState.Shows {ι : Type} (pl : Place) (s : SharedState ι) (i : ι)
    (q : QueueState (List Byte)) : Prop :=
  ∃ m msgs, q = (s.links i).queue m msgs ∧ pl.Shows s.mem m msgs

section channel

variable {ι : Type} [DecidableEq ι] {L : ι → Link} {pl : Place} {s s' : SharedState ι} {i : ι}
  {q : QueueState (List Byte)} {e : QueueEvent (List Byte)} {o : QueueOutcome}
  {tr : List (QueueEvent (List Byte) × QueueOutcome)}

/-- The link that was set. -/
@[simp] theorem SharedState.set_links (s : SharedState ι) (mem : Memory) (i : ι) (l : LinkState) :
    (s.set mem i l).links i = l := Function.update_self _ _ _

/-- Only the bytes and the threads of the channel `i` are changed. -/
def SharedState.Only (pl : Place) (i : ι) (s s' : SharedState ι) : Prop :=
  Memory.Same pl.region s.mem s'.mem ∧ ∀ j, j ≠ i → s'.links j = s.links j

/-- A change inside the place of a channel is a change of that channel only. -/
theorem SharedState.only_set (s : SharedState ι) {mem : Memory} (l : LinkState)
    (h : Memory.Same pl.region s.mem mem) : SharedState.Only pl i s (s.set mem i l) :=
  ⟨h, fun _ hj => Function.update_of_ne hj _ _⟩

/-- What is known of the queue in each run. -/
theorem queueInv_run {β : Type} {n : Nat} (hn : SizeOk n) {ok : QueueState β → QueueEvent β → Prop}
    {tr : List (QueueEvent β × QueueOutcome)} {q : QueueState β}
    (hr : (queueSystem β n).Run ok tr q) : ∃ r ph cph, q.prod = ph.thread ∧ q.cons = cph.thread ∧
      QueueInv n r ph cph q.mem := by
  obtain ⟨r, ph, cph, hph, hcph, hinv, -⟩ := queue_run hn (J := fun _ _ _ _ _ => True)
    (fun _ _ _ => trivial) (fun _ _ _ _ _ _ _ _ _ _ _ _ _ _ _ _ _ => trivial) hr
  exact ⟨r, ph, cph, hph, hcph, hinv⟩

/-- The current slot of the producer between two pushes. -/
theorem QueueInv.current_lt {n : Nat} {r : Ring} {p : ProducerQueue} {cph : ConsumerPhase}
    {m : QueueMem} (h : QueueInv n r (.idle p) cph m) : p.current.toNat < n := h.ring.1.current_lt

omit [DecidableEq ι] in

/-- A write of the message, seen as one of the queue. -/
theorem SharedState.Shows.write (hroom : pl.Roomy) (hL : (L i).At pl) (h : s.Shows pl i q)
    {r : Ring} {ph : ProducerPhase} {cph : ConsumerPhase} (hph : q.prod = ph.thread)
    (hinv : QueueInv pl.n r ph cph q.mem) {x : List Byte} (hs : s.write L i x = some (s', o)) :
    ∃ q', q.write x = some (q', o) ∧ s'.Shows pl i q' ∧ SharedState.Only pl i s s' := by
  obtain ⟨m, msgs, rfl, hmem⟩ := h
  cases hthread : (s.links i).prod with
  | busy op prog =>
    rw [SharedState.write, hthread] at hs
    cases hs
  | idle p =>
    obtain rfl := ProducerPhase.thread_eq_idle (hph.symm.trans hthread)
    have hcur := hinv.current_lt
    simp only [SharedState.write, hthread, hL.prod.msg _ hcur, Option.map_some] at hs
    split at hs
    · rename_i hlen
      cases hs
      obtain ⟨hshows, hsame⟩ := hmem.store hroom hcur (hlen.trans hL.prod.msgSize)
      refine ⟨(s.links i).queue m (Function.update msgs p.current x), ?_, ⟨m, _, rfl, hshows⟩, hsame,
        fun _ _ => rfl⟩
      have hmsg : p.msg = some p.current := queueGetMsg_of_lt (hinv.ring.1.nMsgs.symm ▸ hcur)
      simp only [QueueState.write, LinkState.queue, hthread, hmsg, Option.map_some]
    · cases hs

/-- The call of a push, seen as one of the queue. -/
theorem SharedState.Shows.push (hL : (L i).At pl) (h : s.Shows pl i q) {r : Ring}
    {ph : ProducerPhase} {cph : ConsumerPhase} (hph : q.prod = ph.thread)
    (hinv : QueueInv pl.n r ph cph q.mem) {op : PushOp} (hs : s.push L i op = some (s', o)) :
    ∃ q', q.push op = some (q', o) ∧ s'.Shows pl i q' ∧ SharedState.Only pl i s s' := by
  obtain ⟨m, msgs, rfl, hmem⟩ := h
  cases hthread : (s.links i).prod with
  | busy op' prog =>
    simp only [SharedState.push, hthread] at hs
    cases hs
  | idle p =>
    obtain rfl := ProducerPhase.thread_eq_idle (hph.symm.trans hthread)
    have hcur := hinv.current_lt
    simp only [SharedState.push, hthread, hL.prod.msg _ hcur, Option.map_some, hL.prod.msgSize,
      hmem.msgs _ hcur] at hs
    cases hs
    refine ⟨LinkState.queue _ m msgs, ?_, ⟨m, msgs, rfl, hmem⟩,
      SharedState.only_set s _ (Memory.Same.refl _ _)⟩
    rw [SharedState.set_links]
    simp only [QueueState.push, LinkState.queue, hthread]

/-- Where the producer is does not touch the memory. -/
theorem LinkState.queue_prodAt (l : LinkState) (m : QueueMem) (msgs : Index → List Byte) (op : PushOp)
    (prog : QueueProg (ProducerQueue × PushResult)) :
    (l.queue m msgs).prodAt op prog = ((l.prodAt op prog).1.queue m msgs, (l.prodAt op prog).2) := by
  cases prog <;> rfl

/-- A step of the producer, seen as one of the queue. -/
theorem SharedState.Shows.prodStep (hroom : pl.Roomy) (hL : (L i).At pl) (h : s.Shows pl i q)
    {r : Ring} {ph : ProducerPhase} {cph : ConsumerPhase} (hph : q.prod = ph.thread)
    (hinv : QueueInv pl.n r ph cph q.mem) (hs : s.prodStep L i = some (s', o)) :
    ∃ q', q.prodStep = some (q', o) ∧ s'.Shows pl i q' ∧ SharedState.Only pl i s s' := by
  obtain ⟨m, msgs, rfl, hmem⟩ := h
  cases hthread : (s.links i).prod with
  | idle p =>
    rw [SharedState.prodStep, hthread] at hs
    cases hs
  | busy op prog =>
    simp only [SharedState.prodStep, hthread] at hs
    obtain ⟨⟨prog', mem'⟩, hstep, hs⟩ := Option.map_eq_some_iff.mp hs
    cases hs
    have hnext : ph.thread.nextOp = prog.nextOp := congrArg Thread.nextOp (hph.symm.trans hthread)
    obtain ⟨m', hstep', hshows, hsame⟩ := hmem.step hroom hL.prod
      (fun o ho => hinv.ring.inBounds (hnext.trans ho)) hstep
    refine ⟨((s.links i).prodAt op prog').1.queue m' msgs, ?_, ⟨m', msgs, ?_, hshows⟩,
      SharedState.only_set s _ hsame⟩
    · simp only [QueueState.prodStep, LinkState.queue, hthread, hstep', Option.map_some]
      exact congrArg some ((s.links i).queue_prodAt m' msgs op prog')
    · rw [SharedState.set_links]

/-- The call of a pop or flush, seen as one of the queue. -/
theorem SharedState.Shows.pop (h : s.Shows pl i q) {op : PopOp} (hs : s.pop i op = some (s', o)) :
    ∃ q', q.pop op = some (q', o) ∧ s'.Shows pl i q' ∧ SharedState.Only pl i s s' := by
  obtain ⟨m, msgs, rfl, hmem⟩ := h
  cases hthread : (s.links i).cons with
  | busy op' prog =>
    rw [SharedState.pop, hthread] at hs
    cases hs
  | idle c =>
    simp only [SharedState.pop, hthread] at hs
    cases hs
    refine ⟨LinkState.queue _ m msgs, ?_, ⟨m, msgs, rfl, hmem⟩,
      SharedState.only_set s _ (Memory.Same.refl _ _)⟩
    rw [SharedState.set_links]
    simp only [QueueState.pop, LinkState.queue, hthread]

/-- Where the consumer is does not touch the memory. -/
theorem LinkState.queue_consAt (l : LinkState) (m : QueueMem) (msgs : Index → List Byte) (op : PopOp)
    (prog : QueueProg (ConsumerQueue × Loop PopResult)) :
    (l.queue m msgs).consAt op prog = ((l.consAt op prog).1.queue m msgs, (l.consAt op prog).2) := by
  match prog with
  | .ret (_, .done _) => rfl
  | .ret (_, .again) => rfl
  | .act _ _ => rfl
  | .fault => rfl

/-- A step of the consumer, seen as one of the queue. -/
theorem SharedState.Shows.consStep (hroom : pl.Roomy) (hL : (L i).At pl) (h : s.Shows pl i q)
    {r : Ring} {ph : ProducerPhase} {cph : ConsumerPhase} (hcph : q.cons = cph.thread)
    (hinv : QueueInv pl.n r ph cph q.mem) (hs : s.consStep L i = some (s', o)) :
    ∃ q', q.consStep = some (q', o) ∧ s'.Shows pl i q' ∧ SharedState.Only pl i s s' := by
  obtain ⟨m, msgs, rfl, hmem⟩ := h
  cases hthread : (s.links i).cons with
  | idle p =>
    rw [SharedState.consStep, hthread] at hs
    cases hs
  | busy op prog =>
    simp only [SharedState.consStep, hthread] at hs
    obtain ⟨⟨prog', mem'⟩, hstep, hs⟩ := Option.map_eq_some_iff.mp hs
    cases hs
    have hnext : cph.thread.nextOp = prog.nextOp := congrArg Thread.nextOp (hcph.symm.trans hthread)
    obtain ⟨m', hstep', hshows, hsame⟩ := hmem.step hroom hL.cons
      (fun o ho => hinv.cons.inBounds (hnext.trans ho)) hstep
    refine ⟨((s.links i).consAt op prog').1.queue m' msgs, ?_, ⟨m', msgs, ?_, hshows⟩,
      SharedState.only_set s _ hsame⟩
    · simp only [QueueState.consStep, LinkState.queue, hthread, hstep', Option.map_some]
      exact congrArg some ((s.links i).queue_consAt m' msgs op prog')
    · rw [SharedState.set_links]

/-- A step of the channel is a step of its queue. -/
theorem SharedState.Shows.step (hroom : pl.Roomy) (hL : (L i).At pl) (hn : SizeOk pl.n)
    {ok : QueueState (List Byte) → QueueEvent (List Byte) → Prop}
    (hq : (queueSystem (List Byte) pl.n).Run ok tr q) (h : s.Shows pl i q)
    (hs : s.step L (i, e) = some (s', o)) :
    ∃ q', q.step e = some (q', o) ∧ s'.Shows pl i q' ∧ SharedState.Only pl i s s' := by
  obtain ⟨r, ph, cph, hph, hcph, hinv⟩ := queueInv_run hn hq
  cases e with
  | write x => exact h.write hroom hL hph hinv hs
  | push op => exact h.push hL hph hinv hs
  | prodStep => exact h.prodStep hroom hL hph hinv hs
  | pop op => exact h.pop hs
  | consStep => exact h.consStep hroom hL hcph hinv hs

omit [DecidableEq ι] in
/-- What another channel does is not seen. -/
theorem SharedState.Shows.frame (hroom : pl.Roomy) {pl' : Place} {j : ι}
    (hapart : pl'.region.Apart pl.region) (h : s.Shows pl i q) (hij : i ≠ j)
    (honly : SharedState.Only pl' j s s') : s'.Shows pl i q := by
  obtain ⟨m, msgs, rfl, hmem⟩ := h
  refine ⟨m, msgs, ?_, hmem.congr hroom honly.1 hapart⟩
  rw [honly.2 i hij]

end channel

/-! ## The creation

  Each channel is set up on its own; the others do not notice. -/

section create

variable {ι : Type} [DecidableEq ι] {L : ι → Link} {pl : Place} {s s' : SharedState ι} {i : ι}

/-- The accesses of `ri_producer_queue_new` stay within the queue. -/
theorem initChain_always {n : Nat} (hn : SizeOk n) {p : ProducerQueue} (hp : p.nMsgs = n) {i k j : Nat}
    (h : i + k ≤ n) : (p.initChain i k).Always (fun _ _ _ => True) (fun _ o => o.InBounds n)
      (fun q => q.nMsgs = n) j := by
  induction k generalizing p i j with
  | zero => exact hp
  | succ k ih =>
    have hi : (BitVec.ofNat 32 i).toNat = i := toNat_ofNat_of_lt hn (by omega)
    have hlt : (BitVec.ofNat 32 i).toNat < p.nMsgs := by
      rw [hi, hp]
      omega
    have hrest := ih (p := p.setChain (BitVec.ofNat 32 i) (BitVec.ofNat 32 (i + 1))) (i := i + 1)
      (j := j + 1) hp (by omega)
    rw [ProducerQueue.initChain, ProducerQueue.chainStore, if_pos hlt]
    exact ⟨hp ▸ hlt, fun _ _ => hrest⟩

/-- Setting up a queue touches its own words only. -/
theorem setupQueue_always {n : Nat} (hn : SizeOk n) (chain : Index → Index) :
    (setupQueue n chain).Always (fun _ _ _ => True) (fun _ o => o.InBounds n) (fun _ => True) 0 := by
  have h3 := hn.three_le
  refine Prog.Always.bind (Prog.Always.bind ((initChain_always hn rfl (by omega)).mono ?_))
  intro q hq j
  have hlast : (BitVec.ofNat 32 (n - 1)).toNat = n - 1 := toNat_ofNat_of_lt hn (by omega)
  have hlt : (BitVec.ofNat 32 (n - 1)).toNat < q.nMsgs := by
    rw [hlast, hq]
    omega
  rw [ProducerQueue.chainStore, if_pos hlt]
  exact ⟨hq ▸ hlt, fun _ _ _ => ⟨trivial, fun _ _ => ⟨trivial, fun _ _ => trivial⟩⟩⟩

/-- The words and messages that any bytes are. -/
theorem Place.exists_shows (hroom : pl.Roomy) (mem : Memory) : ∃ m msgs, pl.Shows mem m msgs := by
  refine ⟨{ tail := mem.loadWord (pl.word 0)
            head := mem.loadWord (pl.word 1)
            chain := fun i => mem.loadWord (pl.word (i.toNat + 2)) },
    fun i => mem.load (pl.msg i) pl.size, ?_, fun _ _ => rfl⟩
  intro k hk
  match k with
  | 0 => rfl
  | 1 => rfl
  | k + 2 =>
    have hsmall := hroom.small
    have hk : (BitVec.ofNat 32 k).toNat = k := by
      rw [BitVec.toNat_ofNat, Nat.mod_eq_of_lt (by omega)]
    show _ = mem.loadWord (pl.word ((BitVec.ofNat 32 k).toNat + 2))
    rw [hk]

/-- A channel that is created is a queue that is created. -/
theorem Link.At.create (hroom : pl.Roomy) (hL : (L i).At pl) (hn : SizeOk pl.n)
    {chain : Index → Index} {mem : Memory} {l : LinkState}
    (h : (L i).create chain s.mem = some (mem, l)) :
    (∃ q, (queueSystem (List Byte) pl.n).init q ∧ (s.set mem i l).Shows pl i q) ∧
      SharedState.Only pl i s (s.set mem i l) := by
  obtain ⟨⟨p, mem'⟩, hrun, hl⟩ := Option.map_eq_some_iff.mp h
  obtain ⟨m, msgs, hmem⟩ := Place.exists_shows hroom s.mem
  rw [hL.prod.nMsgs] at hrun
  obtain ⟨m', hrun', hshows, hsame⟩ := hmem.run hroom hL.prod (setupQueue_always hn chain) hrun
  rw [hL.cons.nMsgs] at hl
  cases hl
  refine ⟨⟨LinkState.queue _ m' msgs, ⟨m, chain, msgs, ?_⟩, ⟨m', msgs, rfl, hshows⟩⟩,
    SharedState.only_set s _ hsame⟩
  rw [SharedState.set_links]
  exact congrArg (Option.map _) hrun'

/-- The channels lie in places of their own. -/
structure Laid (L : ι → Link) (places : ι → Place) : Prop where
  ends : ∀ i, (L i).At (places i)
  roomy : ∀ i, (places i).Roomy
  size : ∀ i, SizeOk (places i).n
  apart : ∀ i j, i ≠ j → (places i).region.Apart (places j).region

variable {places : ι → Place}

/-- After the creation of all channels each is a queue that has just been created. -/
theorem Laid.createLinks (h : Laid L places) {chains : ι → Index → Index} {order : List ι}
    (hs : createLinks L chains order s = some s')
    (hcreated : i ∈ order ∨ ∃ q, (queueSystem (List Byte) (places i).n).init q ∧
      s.Shows (places i) i q) :
    ∃ q, (queueSystem (List Byte) (places i).n).init q ∧ s'.Shows (places i) i q := by
  induction order generalizing s with
  | nil =>
    cases hs
    exact hcreated.resolve_left List.not_mem_nil
  | cons j order ih =>
    obtain ⟨⟨mem, l⟩, hcreate, hs⟩ := Option.bind_eq_some_iff.mp hs
    obtain ⟨hnew, honly⟩ := (h.ends j).create (h.roomy j) (h.size j) hcreate
    refine ih hs ?_
    by_cases hij : i = j
    · subst hij
      exact Or.inr hnew
    · rcases hcreated with hmem | ⟨q, hinit, hshows⟩
      · exact Or.inl ((List.mem_cons.mp hmem).resolve_left hij)
      · exact Or.inr ⟨q, hinit, hshows.frame (h.roomy i) (h.apart j i (Ne.symm hij)) hij honly⟩

/-- Channels that lie apart do not concern each other. -/
theorem sharedParts (h : Laid L places)
    {ok : SharedState ι → ι × QueueEvent (List Byte) → Prop}
    {okQueue : QueueState (List Byte) → QueueEvent (List Byte) → Prop}
    (hok : ∀ s i e q, ok s (i, e) → okQueue q e) :
    Parts (sharedSystem L) ok (fun i => queueSystem (List Byte) (places i).n) (fun _ => okQueue)
      (fun s i q => s.Shows (places i) i q) where
  init := by
    rintro s ⟨chains, order, s₀, -, hall, hs⟩ i
    exact h.createLinks hs (Or.inl (hall i))
  allows s i e q _ he := hok s i e q he
  step := by
    intro s i e s' o tr q hs hq hshows
    obtain ⟨q', hstep, hshows', -⟩ := hshows.step (h.roomy i) (h.ends i) (h.size i) hq hs
    exact ⟨q', hstep, hshows'⟩
  frame := by
    intro s i e s' o tr q j q' hs hq hshows hij hother
    obtain ⟨-, -, -, honly⟩ := hshows.step (h.roomy i) (h.ends i) (h.size i) hq hs
    exact hother.frame (h.roomy j) (h.apart i j hij) (Ne.symm hij) honly

/-- No consumer calls a flush. -/
def NoneFlushes (_ : SharedState ι) (e : ι × QueueEvent (List Byte)) : Prop := e.2 ≠ .pop .flush

instance (s : SharedState ι) (e : ι × QueueEvent (List Byte)) : Decidable (NoneFlushes s e) :=
  inferInstanceAs (Decidable (e.2 ≠ .pop .flush))

/-- Between two pops the consumer reads the message that it was handed last. -/
theorem Laid.message (h : Laid L places)
    {tr : List ((ι × QueueEvent (List Byte)) × QueueOutcome)}
    (hr : (sharedSystem L).Run NoneFlushes tr s) {c : ConsumerQueue}
    (hc : (s.links i).cons = .idle c) (hne : c.current ≠ indexInvalid) :
    ∃ a k, (L i).cons.msg c.current = some a ∧
      (s.links i).held = some (k, s.mem.load a (places i).size) := by
  have hn := h.size i
  have hflush : ∀ (s : SharedState ι) (i : ι) e (q : QueueState (List Byte)),
      NoneFlushes s (i, e) → NoFlush q e := by
    intro s i e q he
    cases e with
    | pop op =>
      cases op with
      | pop => trivial
      | flush => exact absurd rfl he
    | _ => trivial
  obtain ⟨_, hq, m, msgs, rfl, hmem⟩ := (sharedParts h hflush).run hr i
  obtain ⟨r, ph, cph, -, hcph, hinv, tp, hpop⟩ := queue_run hn
    (J := fun _ r ph cph s => ∃ tp, PopInv (places i).n r tp ph cph s) (fun _ _ hp => ⟨_, hp.popInv hn⟩)
    (fun _ _ _ _ _ _ _ _ _ _ _ _ _ _ ⟨_, hpop⟩ hok hs => ⟨_, hs.popInv hn hpop hok⟩) hq
  obtain rfl := ConsumerPhase.thread_eq_idle (hcph.symm.trans hc)
  have hlt : c.current.toNat < (places i).n := hinv.cons.current hne
  obtain ⟨k, hheld, -⟩ := (hpop.holds hne).held
  refine ⟨_, k, (h.ends i).cons.msg _ hlt, ?_⟩
  rw [hmem.msgs _ hlt]
  exact hheld

end create

end Rtipc
