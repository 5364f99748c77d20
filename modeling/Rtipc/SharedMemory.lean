/-
  A queue in the bytes of the shared memory.

  Each of the two processes has the shared memory mapped at an address of its own.  A `View` is a channel
  as one of them has it: the pointers of its `ri_queue_t`, and where its mapping starts.  `View.exec`
  performs the atomic operations of `queue.h` through these pointers, on the bytes.

  A `Place` says in numbers where a queue lies in the shared memory.  The pointers that `ri_queue_init`
  computes lead there, wherever the memory is mapped (`queueInit_at`).  An access that stays within the
  queue does there what `QueueOp.exec` says, and changes no byte outside (`Place.Shows.exec`).

  1. **What is represented.**  `Place.Shows`: the bytes at the words of the place are those of a
     `QueueMem`, and the bytes at its slots are the messages.  Behind the last slot, and outside the
     place, nothing is said.

  2. **Frames.**  An access changes one word.  That the other words and the messages stay as they are is
     the distance between them (`Place.word_apart`, `Place.Roomy.word_apart_msg`); it needs room for the
     words, which `ri_queue_init` does not always keep.
-/
import Rtipc.Layout
import Rtipc.Lib.Client
import Rtipc.Lib.Memory
import Rtipc.Queue

namespace Rtipc

/-- A channel as one process has it, which has the shared memory mapped at `base`. -/
structure View where
  queue : Queue
  base : Size
  deriving DecidableEq, Repr

namespace View

/-- Where an address of the process is in the shared memory. -/
def offset (v : View) (a : Size) : Nat := (a - v.base).toNat

/-- The message that `ri_queue_get_msg` returns, `none` for the null pointer. -/
def msg (v : View) (idx : Index) : Option Nat := (v.queue.getMsg idx).map v.offset

/-- One sequentially consistent step on the bytes. -/
def exec (v : View) : (o : QueueOp) → Memory → o.Ans × Memory
  | .tailLoad, mem => (mem.loadWord (v.offset v.queue.tail), mem)
  | .tailStore val, mem => ((), mem.storeWord (v.offset v.queue.tail) val)
  | .tailFetchOr val, mem =>
    (mem.loadWord (v.offset v.queue.tail),
      mem.storeWord (v.offset v.queue.tail) (mem.loadWord (v.offset v.queue.tail) ||| val))
  | .tailCompareExchange expected desired, mem =>
    if mem.loadWord (v.offset v.queue.tail) = expected then
      (true, mem.storeWord (v.offset v.queue.tail) desired)
    else (false, mem)
  | .headLoad, mem => (mem.loadWord (v.offset v.queue.head), mem)
  | .headStore val, mem => ((), mem.storeWord (v.offset v.queue.head) val)
  | .chainLoad idx, mem => (mem.loadWord (v.offset (v.queue.chainWord idx)), mem)
  | .chainStore idx val, mem => ((), mem.storeWord (v.offset (v.queue.chainWord idx)) val)

end View

/-! ## Places -/

/-- A queue of `n` slots: the words lie one after the other from `start` on, and behind `area` bytes there
    is a message of `size` bytes every `stride` bytes. -/
structure Place where
  start : Nat
  n : Nat
  area : Nat
  size : Nat
  stride : Nat

namespace Place

/-- The words are the tail, the head and then the chain. -/
def word (pl : Place) (k : Nat) : Nat := pl.start + k * 4

/-- Where the message of a slot lies. -/
def msg (pl : Place) (i : Index) : Nat := pl.start + pl.area + i.toNat * pl.stride

/-- All bytes of the queue. -/
def region (pl : Place) : Region := ⟨pl.start, pl.area + pl.n * pl.stride⟩

/-- There is room for the words and for each message. -/
structure Roomy (pl : Place) : Prop where
  words : (pl.n + 2) * 4 ≤ pl.area
  messages : pl.size ≤ pl.stride
  small : pl.n < 2 ^ 32

end Place

/-- The pointers of the process lead to the place. -/
structure View.At (v : View) (pl : Place) : Prop where
  nMsgs : v.queue.nMsgs.toNat = pl.n
  msgSize : v.queue.msgSize.toNat = pl.size
  tail : v.offset v.queue.tail = pl.word 0
  head : v.offset v.queue.head = pl.word 1
  chain : ∀ i : Index, i.toNat < pl.n → v.offset (v.queue.chainWord i) = pl.word (i.toNat + 2)
  msg : ∀ i : Index, i.toNat < pl.n → v.msg i = some (pl.msg i)

/-- The words in the order in which they lie. -/
def QueueMem.word (m : QueueMem) : Nat → Index
  | 0 => m.tail
  | 1 => m.head
  | k + 2 => m.chain (BitVec.ofNat 32 k)

/-- The bytes at the place are these words and messages. -/
structure Place.Shows (pl : Place) (mem : Memory) (m : QueueMem) (msgs : Index → List Byte) : Prop where
  words : ∀ k, k < pl.n + 2 → mem.loadWord (pl.word k) = m.word k
  msgs : ∀ i : Index, i.toNat < pl.n → mem.load (pl.msg i) pl.size = msgs i

/-! ## What is apart

  Words of four bytes next to each other, and messages in rounded steps behind them. -/

section apart

variable {pl : Place} {k j : Nat} {i i' : Index}

/-- Different words lie apart. -/
theorem Place.word_apart (h : k ≠ j) : Region.Apart ⟨pl.word k, 4⟩ ⟨pl.word j, 4⟩ := by
  rintro x ⟨hk, hk'⟩ ⟨hj, hj'⟩
  simp only [Region.stop, Place.word] at hk hk' hj hj'
  omega

/-- If the area of the messages begins behind the words, no word overlaps a message. -/
theorem Place.Roomy.word_apart_msg (h : pl.Roomy) (hk : k < pl.n + 2) :
    Region.Apart ⟨pl.word k, 4⟩ ⟨pl.msg i, pl.size⟩ := by
  have hwords := h.words
  refine Region.apart_of_le ?_
  show pl.start + k * 4 + 4 ≤ pl.start + pl.area + i.toNat * pl.stride
  omega

/-- Different messages lie apart. -/
theorem Place.Roomy.msg_apart (h : pl.Roomy) (hne : i ≠ i') :
    Region.Apart ⟨pl.msg i, pl.size⟩ ⟨pl.msg i', pl.size⟩ := by
  have hlt {a b : Index} (hab : a.toNat < b.toNat) :
      Region.Apart ⟨pl.msg a, pl.size⟩ ⟨pl.msg b, pl.size⟩ := by
    have hmessages := h.messages
    have hmul := Nat.mul_le_mul_right pl.stride (Nat.succ_le_of_lt hab)
    rw [Nat.succ_mul] at hmul
    refine Region.apart_of_le ?_
    show pl.start + pl.area + a.toNat * pl.stride + pl.size ≤
      pl.start + pl.area + b.toNat * pl.stride
    omega
  rcases Nat.lt_or_gt_of_ne fun heq => hne (BitVec.eq_of_toNat_eq heq) with hlt' | hgt
  · exact hlt hlt'
  · exact (hlt hgt).symm

/-- The words lie in the place of the channel. -/
theorem Place.Roomy.word_within (h : pl.Roomy) (hk : k < pl.n + 2) :
    Region.Within ⟨pl.word k, 4⟩ pl.region := by
  have hwords := h.words
  constructor
  · exact Nat.le_add_right _ _
  · show pl.start + k * 4 + 4 ≤ pl.start + (pl.area + pl.n * pl.stride)
    omega

/-- So do the messages. -/
theorem Place.Roomy.msg_within (h : pl.Roomy) (hi : i.toNat < pl.n) :
    Region.Within ⟨pl.msg i, pl.size⟩ pl.region := by
  have hmessages := h.messages
  have hmul := Nat.mul_le_mul_right pl.stride (Nat.succ_le_of_lt hi)
  rw [Nat.succ_mul] at hmul
  constructor
  · show pl.start ≤ pl.start + pl.area + i.toNat * pl.stride
    omega
  · show pl.start + pl.area + i.toNat * pl.stride + pl.size ≤
      pl.start + (pl.area + pl.n * pl.stride)
    omega

end apart

/-! ## What an access does

  On the bytes it does what it does on the words, and nothing else. -/

section shows

variable {pl : Place} {v : View} {mem mem' : Memory} {m m' : QueueMem} {msgs : Index → List Byte}
  {r : Region} {α : Type}

/-- A change outside is not seen. -/
theorem Place.Shows.congr (hroom : pl.Roomy) (h : pl.Shows mem m msgs) (hsame : Memory.Same r mem mem')
    (hapart : r.Apart pl.region) : pl.Shows mem' m msgs where
  words k hk := by
    rw [hsame.loadWord (hapart.within (Region.Within.refl r) (hroom.word_within hk))]
    exact h.words k hk
  msgs i hi := by
    rw [hsame.load (hapart.within (Region.Within.refl r) (hroom.msg_within hi))]
    exact h.msgs i hi

/-- A word is stored. -/
theorem Place.Shows.storeWord (hroom : pl.Roomy) (h : pl.Shows mem m msgs) {k : Nat}
    (hk : k < pl.n + 2) {w : Index} (hword : m'.word k = w)
    (hwords : ∀ j, j < pl.n + 2 → j ≠ k → m'.word j = m.word j) :
    pl.Shows (mem.storeWord (pl.word k) w) m' msgs ∧
      Memory.Same pl.region mem (mem.storeWord (pl.word k) w) := by
  have hsame := Memory.same_storeWord mem (pl.word k) w
  refine ⟨⟨?_, ?_⟩, hsame.within (hroom.word_within hk)⟩
  · intro j hj
    by_cases hjk : j = k
    · rw [hjk, Memory.loadWord_storeWord, hword]
    · rw [hsame.loadWord (Place.word_apart fun heq => hjk heq.symm), h.words j hj, hwords j hj hjk]
  · intro i hi
    rw [hsame.load (hroom.word_apart_msg hk)]
    exact h.msgs i hi

/-- A message is written. -/
theorem Place.Shows.store (hroom : pl.Roomy) (h : pl.Shows mem m msgs) {i : Index}
    (hi : i.toNat < pl.n) {bs : List Byte} (hlen : bs.length = pl.size) :
    pl.Shows (mem.store (pl.msg i) bs) m (Function.update msgs i bs) ∧
      Memory.Same pl.region mem (mem.store (pl.msg i) bs) := by
  have hsame := Memory.same_store mem (pl.msg i) bs
  rw [hlen] at hsame
  refine ⟨⟨?_, ?_⟩, hsame.within (hroom.msg_within hi)⟩
  · intro k hk
    rw [hsame.loadWord (hroom.word_apart_msg hk).symm]
    exact h.words k hk
  · intro j hj
    by_cases hij : j = i
    · subst hij
      rw [Function.update_self, ← hlen, Memory.load_store]
    · rw [Function.update_of_ne hij, hsame.load (hroom.msg_apart fun heq => hij heq.symm)]
      exact h.msgs j hj

/-- An access within the queue. -/
theorem Place.Shows.exec (hroom : pl.Roomy) (hv : v.At pl) (h : pl.Shows mem m msgs) {o : QueueOp}
    (ho : o.InBounds pl.n) : (v.exec o mem).1 = (o.exec m).1 ∧
      pl.Shows (v.exec o mem).2 (o.exec m).2 msgs ∧ Memory.Same pl.region mem (v.exec o mem).2 := by
  -- The two words in front, and the chain behind them.
  have htail : mem.loadWord (v.offset v.queue.tail) = m.tail := hv.tail ▸ h.words 0 (by omega)
  have hhead : mem.loadWord (v.offset v.queue.head) = m.head := hv.head ▸ h.words 1 (by omega)
  have hkeep := Memory.Same.refl pl.region mem
  have htails : ∀ w j, j < pl.n + 2 → j ≠ 0 → QueueMem.word { m with tail := w } j = m.word j := by
    intro w j _ hne
    match j with
    | 0 => exact absurd rfl hne
    | 1 => rfl
    | j + 2 => rfl
  -- Every store to the tail changes word 0 and nothing else.
  have hstore : ∀ w, pl.Shows (mem.storeWord (v.offset v.queue.tail) w) { m with tail := w } msgs ∧
      Memory.Same pl.region mem (mem.storeWord (v.offset v.queue.tail) w) := fun w =>
    hv.tail ▸ h.storeWord hroom (by omega) rfl (htails w)
  cases o with
  | tailLoad => exact ⟨htail, h, hkeep⟩
  | tailStore val => exact ⟨rfl, hstore val⟩
  | tailFetchOr val =>
    refine ⟨htail, ?_⟩
    simp only [View.exec, QueueOp.exec, htail]
    exact hstore _
  | tailCompareExchange expected desired =>
    simp only [View.exec, QueueOp.exec, htail]
    by_cases heq : m.tail = expected
    · rw [if_pos heq, if_pos heq]
      exact ⟨rfl, hstore desired⟩
    · rw [if_neg heq, if_neg heq]
      exact ⟨rfl, h, hkeep⟩
  | headLoad => exact ⟨hhead, h, hkeep⟩
  | headStore val =>
    refine ⟨rfl, ?_⟩
    simp only [View.exec, QueueOp.exec]
    rw [hv.head]
    refine h.storeWord hroom (by omega) rfl ?_
    intro j _ hne
    match j with
    | 0 => rfl
    | 1 => exact absurd rfl hne
    | j + 2 => rfl
  -- the word of a slot lies two words further on
  | chainLoad idx =>
    have hlt : idx.toNat < pl.n := ho
    refine ⟨?_, h, hkeep⟩
    have hword := h.words (idx.toNat + 2) (by omega)
    rw [QueueMem.word, BitVec.ofNat_toNat, BitVec.setWidth_eq] at hword
    simp only [View.exec, QueueOp.exec]
    rw [hv.chain idx hlt, hword]
  | chainStore idx val =>
    have hlt : idx.toNat < pl.n := ho
    refine ⟨rfl, ?_⟩
    simp only [View.exec, QueueOp.exec]
    rw [hv.chain idx hlt]
    refine h.storeWord hroom (by omega) ?_ ?_
    · rw [QueueMem.word, BitVec.ofNat_toNat, BitVec.setWidth_eq]
      exact Function.update_self _ _ _
    · intro j hj hne
      match j with
      | 0 => rfl
      | 1 => rfl
      | j + 2 =>
        have hsmall := hroom.small
        refine Function.update_of_ne (fun heq => hne ?_) _ _
        rw [← heq, BitVec.toNat_ofNat, Nat.mod_eq_of_lt (by omega)]

/-- A step of a program whose next access stays within the queue. -/
theorem Place.Shows.step (hroom : pl.Roomy) (hv : v.At pl) (h : pl.Shows mem m msgs)
    {prog prog' : QueueProg α} (hin : ∀ o, prog.nextOp = some o → o.InBounds pl.n)
    (hs : prog.step v.exec mem = some (prog', mem')) : ∃ m',
      prog.step QueueOp.exec m = some (prog', m') ∧ pl.Shows mem' m' msgs ∧
        Memory.Same pl.region mem mem' := by
  cases prog with
  | ret a => cases hs
  | fault => cases hs
  | act o k =>
    obtain ⟨hanswer, hshows, hsame⟩ := h.exec hroom hv (hin o rfl)
    cases hs
    refine ⟨(o.exec m).2, ?_, hshows, hsame⟩
    rw [Prog.step_act, hanswer]

/-- A whole program all of whose accesses stay within the queue. -/
theorem Place.Shows.run (hroom : pl.Roomy) (hv : v.At pl) (h : pl.Shows mem m msgs)
    {prog : QueueProg α} {j : Nat} {a : α}
    (hin : prog.Always (fun _ _ _ => True) (fun _ o => o.InBounds pl.n) (fun _ => True) j)
    (hs : prog.run v.exec mem = some (a, mem')) : ∃ m',
      prog.run QueueOp.exec m = some (a, m') ∧ pl.Shows mem' m' msgs ∧
        Memory.Same pl.region mem mem' := by
  induction prog generalizing mem m j with
  | ret b =>
    cases hs
    exact ⟨m, rfl, h, Memory.Same.refl _ _⟩
  | fault => cases hs
  | act o k ih =>
    obtain ⟨hanswer, hshows, hsame⟩ := h.exec hroom hv hin.1
    rw [Prog.run_act, hanswer] at hs
    obtain ⟨m', hrun, hshows', hsame'⟩ := ih _ hshows (hin.2 _ trivial) hs
    exact ⟨m', hrun, hshows', hsame.trans hsame'⟩

end shows

/-! ## Where `ri_queue_init` puts a queue -/

section place

variable {π : Type} {cls off : Size} {attr : ChannelAttr π} {k : Nat}

/-- `ri_queue_get_msg` of a slot of the queue. -/
theorem Queue.getMsg_of_lt {q : Queue} {idx : Index} (h : idx.toNat < q.nMsgs.toNat) :
    q.getMsg idx = some (memOffset q.msgs (idx.setWidth 64 * q.msgSizeAligned)) :=
  if_neg (not_le.mpr h)

/-- The place of a channel that starts at `off`. -/
def placeOf (cls : Size) (attr : ChannelAttr π) (off : Size) : Place where
  start := off.toNat
  n := attr.addMsgs.toNat + 3
  area := alignUp cls.toNat (4 * (attr.addMsgs.toNat + 2))
  size := attr.msgSize.toNat
  stride := alignUp cls.toNat attr.msgSize.toNat

/-- The place of a channel is roomy if there is room for the words. -/
theorem SizesFit.roomy (hcpos : 0 < cls.toNat) (hfit : SizesFit cls attr)
    (hroom : RoomForWords cls attr) : (placeOf cls attr off).Roomy where
  words := by
    have hle := (roomForWords_iff hcpos).mp hroom
    show (attr.addMsgs.toNat + 3 + 2) * 4 ≤ alignUp cls.toNat (4 * (attr.addMsgs.toNat + 2))
    omega
  messages := le_alignUp hcpos
  small := by
    have hwords := hfit.words
    show attr.addMsgs.toNat + 3 < 2 ^ 32
    omega

/-- The place is within the bytes that are reserved for the channel. -/
theorem SizesFit.place_within (hc : cls.toNat = 2 ^ k) (hfit : SizesFit cls attr) :
    (placeOf cls attr off).region.Within (channelRegion cls attr off) := by
  have hmono : alignUp cls.toNat (4 * (attr.addMsgs.toNat + 2)) ≤
      alignUp cls.toNat (4 * (attr.addMsgs.toNat + 5)) :=
    alignUp_mono (hc ▸ Nat.two_pow_pos k) (by omega)
  constructor
  · exact le_rfl
  · rw [channelRegion, hfit.toNat_channelShmSize hc]
    simp only [Region.stop, Place.region, placeOf]
    omega

/-- Wherever the shared memory is mapped, the pointers lead to the place. -/
theorem queueInit_at (hc : cls.toNat = 2 ^ k) (hfit : SizesFit cls attr)
    (hpos : 0 < attr.msgSize.toNat)
    (hmap : off.toNat + (channelShmSize cls attr).toNat ≤ 2 ^ 64) (base : Size) :
    View.At ⟨queueInit cls attr (memOffset base off), base⟩ (placeOf cls attr off) := by
  have hlen : (queueInit cls attr off).nMsgs.toNat = attr.addMsgs.toNat + 3 := hfit.queueLen
  have hsub : ∀ x : Size, base + x - base = x := by
    intro x
    rw [BitVec.add_comm, BitVec.add_sub_cancel]
  -- the same distances as in a process that has the memory mapped at address 0
  have hshift : ∀ x : Size, memOffset base off + x - base = off + x := by
    intro x
    rw [memOffset, BitVec.add_assoc, hsub]
  have hwords := hfit.words_eq hc hmap
  rw [Region.array, List.range_succ_eq_map, List.range_succ_eq_map, Queue.words, Queue.slots, hlen]
    at hwords
  simp only [List.map_cons, List.map_map] at hwords
  obtain ⟨-, hwords⟩ := List.cons.inj hwords
  obtain ⟨hhead, hchain⟩ := List.cons.inj hwords
  have hmessages := hfit.messages_eq hc hpos hmap
  have hget : ∀ j < attr.addMsgs.toNat + 3, (queueInit cls attr off).getMsg (BitVec.ofNat 32 j) =
      some (memOffset (queueInit cls attr off).msgs
        ((BitVec.ofNat 32 j).setWidth 64 * (queueInit cls attr off).msgSizeAligned)) := by
    intro j hj
    have hsmall := hfit.words
    refine Queue.getMsg_of_lt ?_
    rw [hlen, BitVec.toNat_ofNat]
    omega
  have hall : (List.range (attr.addMsgs.toNat + 3)).filterMap
      ((queueInit cls attr off).getMsg ∘ BitVec.ofNat 32) = _ :=
    List.filterMap_eq_map_iff_forall_eq_some.mpr fun j hj => hget j (List.mem_range.mp hj)
  rw [Queue.messages, Queue.slots, hlen, List.filterMap_map, hall, List.map_map, Region.array]
    at hmessages
  refine ⟨hlen, rfl, ?_, ?_, ?_, ?_⟩
  · show (memOffset base off - base).toNat = off.toNat + 0 * 4
    rw [memOffset, hsub]
    omega
  · show (memOffset base off + sizeofIndex - base).toNat = off.toNat + 1 * 4
    rw [hshift]
    exact congrArg Region.start hhead
  · intro i hi
    have hword := congrArg Region.start (List.map_inj_left.mp hchain i.toNat (List.mem_range.mpr hi))
    simp only [Function.comp_apply, BitVec.ofNat_toNat, BitVec.setWidth_eq] at hword
    show (memOffset base off + 2 * sizeofIndex + i.setWidth 64 * sizeofIndex - base).toNat = _
    rw [BitVec.add_assoc, hshift, ← BitVec.add_assoc]
    exact hword
  · intro i hi
    have hmessage := congrArg Region.start
      (List.map_inj_left.mp hmessages i.toNat (List.mem_range.mpr hi))
    simp only [Function.comp_apply, BitVec.ofNat_toNat, BitVec.setWidth_eq] at hmessage
    have hlt : i.toNat < (queueInit cls attr (memOffset base off)).nMsgs.toNat := hlen.symm ▸ hi
    rw [View.msg, Queue.getMsg_of_lt hlt, Option.map_some]
    refine congrArg some ?_
    show (memOffset base off + calcQueueSize cls attr.addMsgs +
      i.setWidth 64 * (queueInit cls attr off).msgSizeAligned - base).toNat = _
    rw [BitVec.add_assoc, hshift, ← BitVec.add_assoc]
    exact hmessage

end place

end Rtipc
