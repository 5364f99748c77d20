/-
  `src/queue.c` and `src/channel.c`: where the words and the messages of a channel are.

  A channel occupies `calcChannelShmSize` bytes: an index area (tail, head and one chain word for each
  slot, rounded up to cachelines) and one rounded message for each slot.  `ri_queue_init` places the
  words one after the other, and the messages behind an index area computed from `add_msgs` alone,
  three words shorter than the one that was reserved.  So the messages start too early, and stay clear
  of the chain exactly if the rounding of the shorter area leaves room for three words
  (`queue_words_apart_messages`).
-/
import Rtipc.Attr
import Rtipc.Index
import Rtipc.Lib.Region

namespace Rtipc

/-- `RI_CHANNEL_MIN_MSGS`. -/
def channelMinMsgs : Unsigned := 3

/-- `sizeof(ri_atomic_index_t)`. -/
def sizeofIndex : Size := 4

/-- `ri_calc_queue_size`. -/
def calcQueueSize (cls : Size) (nMsgs : Unsigned) : Size :=
  cachelineAligned cls ((nMsgs + 2).setWidth 64 * sizeofIndex)

/-- `ri_calc_data_size`. -/
def calcDataSize (cls : Size) (nMsgs : Unsigned) (msgSize : Size) : Size :=
  nMsgs.setWidth 64 * cachelineAligned cls msgSize

/-- `ri_calc_channel_shm_size`. -/
def calcChannelShmSize (cls : Size) (nMsgs : Unsigned) (msgSize : Size) : Size :=
  calcQueueSize cls nMsgs + calcDataSize cls nMsgs msgSize

variable {π : Type}

/-- `ri_channel_queue_len`. -/
def channelQueueLen (attr : ChannelAttr π) : Unsigned := channelMinMsgs + attr.addMsgs

/-- `ri_channel_shm_size`. -/
def channelShmSize (cls : Size) (attr : ChannelAttr π) : Size :=
  calcChannelShmSize cls (channelQueueLen attr) attr.msgSize

/-- `ri_queue_t`; a pointer is an address. -/
structure Queue where
  nMsgs : Unsigned
  msgSize : Size
  msgSizeAligned : Size
  msgs : Size
  tail : Size
  head : Size
  chain : Size
  deriving DecidableEq, Repr

/-- `ri_queue_init`. -/
def queueInit (cls : Size) (attr : ChannelAttr π) (shm : Size) : Queue where
  nMsgs := channelQueueLen attr
  msgSize := attr.msgSize
  msgSizeAligned := cachelineAligned cls attr.msgSize
  tail := shm
  head := shm + sizeofIndex
  chain := shm + 2 * sizeofIndex
  msgs := memOffset shm (calcQueueSize cls attr.addMsgs)

namespace Queue

/-- The address `ri_queue_get_msg` returns, `none` for the null pointer. -/
def getMsg (q : Queue) (idx : Index) : Option Size :=
  if idx.toNat ≥ q.nMsgs.toNat then none
  else some (memOffset q.msgs (idx.setWidth 64 * q.msgSizeAligned))

/-- `&queue->chain[idx]`. -/
def chainWord (q : Queue) (idx : Index) : Size := q.chain + idx.setWidth 64 * sizeofIndex

/-- The indices of the slots. -/
def slots (q : Queue) : List Index := (List.range q.nMsgs.toNat).map (BitVec.ofNat 32)

/-- The bytes of the words. -/
def words (q : Queue) : List Region :=
  (q.tail :: q.head :: q.slots.map q.chainWord).map fun a => ⟨a.toNat, sizeofIndex.toNat⟩

/-- The bytes of the messages. -/
def messages (q : Queue) : List Region :=
  (q.slots.filterMap q.getMsg).map fun a => ⟨a.toNat, q.msgSize.toNat⟩

end Queue

/-- The bytes reserved for a channel at the address `shm`. -/
def channelRegion (cls : Size) (attr : ChannelAttr π) (shm : Size) : Region :=
  ⟨shm.toNat, (channelShmSize cls attr).toNat⟩

/-- No computation of a size for the channel wraps around. -/
structure SizesFit (cls : Size) (attr : ChannelAttr π) : Prop where
  words : attr.addMsgs.toNat + 5 < 2 ^ 32
  msgSize : attr.msgSize.toNat + cls.toNat - 1 < 2 ^ 64
  total : (calcQueueSize cls (channelQueueLen attr)).toNat +
    (attr.addMsgs.toNat + 3) * (cachelineAligned cls attr.msgSize).toNat < 2 ^ 64

/-- What the placement of a channel has to satisfy: every slot has a message, words and messages share
    no byte, stay within the channel, and every message starts a cacheline if the channel does. -/
structure WellPlaced (cls : Size) (attr : ChannelAttr π) (shm : Size) : Prop where
  messages : (queueInit cls attr shm).messages.length = attr.addMsgs.toNat + 3
  apart : ((queueInit cls attr shm).words ++ (queueInit cls attr shm).messages).Pairwise Region.Apart
  within : ∀ r ∈ (queueInit cls attr shm).words ++ (queueInit cls attr shm).messages,
    r.Within (channelRegion cls attr shm)
  aligned : cls.toNat ∣ shm.toNat → ∀ r ∈ (queueInit cls attr shm).messages, cls.toNat ∣ r.start

/-- Rounding up the words of a chain of `add_msgs` slots leaves room for three more words. -/
def RoomForWords (cls : Size) (attr : ChannelAttr π) : Prop :=
  4 * (attr.addMsgs.toNat + 2) % cls.toNat ≠ 0 ∧
    4 * (attr.addMsgs.toNat + 2) % cls.toNat + 12 ≤ cls.toNat

/-! ## Where things are, in numbers

  Under `SizesFit` no sum and no product wraps, so the addresses are what they look like. -/

section numbers

variable {cls shm : Size} {attr : ChannelAttr π} {k : Nat}

/-- The number of slots as a number. -/
theorem SizesFit.queueLen (h : SizesFit cls attr) :
    (channelQueueLen attr).toNat = attr.addMsgs.toNat + 3 := by
  have := h.words
  rw [channelQueueLen, channelMinMsgs, BitVec.toNat_add, show (3 : Unsigned).toNat = 3 from rfl]
  omega

/-- The index area of `n` slots. -/
theorem toNat_calcQueueSize (hc : cls.toNat = 2 ^ k) {n : Unsigned} (hn : n.toNat + 2 < 2 ^ 32) :
    (calcQueueSize cls n).toNat = alignUp cls.toNat (4 * (n.toNat + 2)) := by
  have hwords : ((n + 2).setWidth 64 * sizeofIndex).toNat = 4 * (n.toNat + 2) := by
    rw [sizeofIndex, BitVec.toNat_mul, BitVec.toNat_setWidth, BitVec.toNat_add,
      show (2 : Unsigned).toNat = 2 from rfl, show (4 : Size).toNat = 4 from rfl]
    omega
  have hpow : cls.toNat ≤ 2 ^ 63 := by
    have hlt := cls.isLt
    rw [hc] at hlt ⊢
    exact Nat.pow_le_pow_right (by decide) (by have := (Nat.pow_lt_pow_iff_right (by decide)).mp hlt; omega)
  rw [calcQueueSize, cachelineAligned, toNat_memAlign hc (by omega), hwords]

/-- The size of a channel as a number. -/
theorem SizesFit.toNat_channelShmSize (hc : cls.toNat = 2 ^ k) (h : SizesFit cls attr) :
    (channelShmSize cls attr).toNat = alignUp cls.toNat (4 * (attr.addMsgs.toNat + 5)) +
      (attr.addMsgs.toNat + 3) * alignUp cls.toNat attr.msgSize.toNat := by
  have htotal := h.total
  have hwords := h.words
  rw [toNat_calcQueueSize hc (by rw [h.queueLen]; omega), h.queueLen, cachelineAligned,
    toNat_memAlign hc h.msgSize] at htotal
  have hlen : ((channelQueueLen attr).setWidth 64).toNat = attr.addMsgs.toNat + 3 := by
    rw [BitVec.toNat_setWidth, h.queueLen]
    omega
  rw [channelShmSize, calcChannelShmSize, calcDataSize, BitVec.toNat_add, BitVec.toNat_mul, hlen,
    toNat_calcQueueSize hc (by rw [h.queueLen]; omega), h.queueLen, cachelineAligned,
    toNat_memAlign hc h.msgSize]
  rw [Nat.mod_eq_of_lt (a := _ * _) (by omega)]
  exact Nat.mod_eq_of_lt (by omega)

/-- The index of a slot as a number. -/
theorem toNat_slot {j : Nat} (hj : j < 2 ^ 32) : ((BitVec.ofNat 32 j).setWidth 64).toNat = j := by
  rw [BitVec.toNat_setWidth, BitVec.toNat_ofNat, Nat.mod_eq_of_lt hj]
  exact Nat.mod_eq_of_lt (by omega)

/-- The words lie one after the other. -/
theorem SizesFit.words_eq (hc : cls.toNat = 2 ^ k) (h : SizesFit cls attr)
    (hmap : shm.toNat + (channelShmSize cls attr).toNat ≤ 2 ^ 64) :
    (queueInit cls attr shm).words = Region.array shm.toNat 4 4 (attr.addMsgs.toNat + 5) := by
  have hwords := h.words
  have hle := le_alignUp (n := 4 * (attr.addMsgs.toNat + 5)) (hc ▸ Nat.two_pow_pos k)
  rw [h.toNat_channelShmSize hc] at hmap
  have hhead : (shm + sizeofIndex).toNat = shm.toNat + 1 * 4 := by
    rw [BitVec.toNat_add, show sizeofIndex.toNat = 4 from rfl]
    omega
  have hchain : ∀ j < attr.addMsgs.toNat + 3,
      ((queueInit cls attr shm).chainWord (BitVec.ofNat 32 j)).toNat = shm.toNat + (j + 2) * 4 := by
    intro j hj
    rw [Queue.chainWord, queueInit, BitVec.toNat_add, BitVec.toNat_mul, toNat_slot (by omega),
      BitVec.toNat_add, show sizeofIndex.toNat = 4 from rfl,
      show (2 * sizeofIndex).toNat = 8 from rfl]
    omega
  rw [Region.array, List.range_succ_eq_map, List.range_succ_eq_map, Queue.words, Queue.slots]
  simp only [List.map_cons, List.map_map]
  refine congrArg₂ List.cons rfl (congrArg₂ List.cons ?_ ?_)
  · exact congrArg (Region.mk · 4) hhead
  · rw [show (queueInit cls attr shm).nMsgs.toNat = attr.addMsgs.toNat + 3 from h.queueLen]
    refine List.map_congr_left fun j hj => ?_
    exact congrArg (Region.mk · 4) (hchain j (List.mem_range.mp hj))

/-- The messages lie behind the index area of `add_msgs` slots. -/
theorem SizesFit.messages_eq (hc : cls.toNat = 2 ^ k) (h : SizesFit cls attr)
    (hpos : 0 < attr.msgSize.toNat)
    (hmap : shm.toNat + (channelShmSize cls attr).toNat ≤ 2 ^ 64) :
    (queueInit cls attr shm).messages =
      Region.array (shm.toNat + alignUp cls.toNat (4 * (attr.addMsgs.toNat + 2)))
        (alignUp cls.toNat attr.msgSize.toNat) attr.msgSize.toNat (attr.addMsgs.toNat + 3) := by
  have hwords := h.words
  have hcpos : 0 < cls.toNat := hc ▸ Nat.two_pow_pos k
  have hle := le_alignUp (n := attr.msgSize.toNat) hcpos
  have hmono : alignUp cls.toNat (4 * (attr.addMsgs.toNat + 2)) ≤
      alignUp cls.toNat (4 * (attr.addMsgs.toNat + 5)) := alignUp_mono hcpos (by omega)
  rw [h.toNat_channelShmSize hc] at hmap
  set stride := alignUp cls.toNat attr.msgSize.toNat with hstride
  have hlen : (queueInit cls attr shm).nMsgs.toNat = attr.addMsgs.toNat + 3 := h.queueLen
  have hget : ∀ j < attr.addMsgs.toNat + 3, (queueInit cls attr shm).getMsg (BitVec.ofNat 32 j) =
      some (memOffset (queueInit cls attr shm).msgs
        ((BitVec.ofNat 32 j).setWidth 64 * (queueInit cls attr shm).msgSizeAligned)) := by
    intro j hj
    refine if_neg ?_
    rw [hlen, BitVec.toNat_ofNat]
    omega
  have haddress : ∀ j < attr.addMsgs.toNat + 3, (memOffset (queueInit cls attr shm).msgs
      ((BitVec.ofNat 32 j).setWidth 64 * (queueInit cls attr shm).msgSizeAligned)).toNat =
        shm.toNat + alignUp cls.toNat (4 * (attr.addMsgs.toNat + 2)) + j * stride := by
    intro j hj
    have hmul := Nat.mul_le_mul_right stride (Nat.succ_le_of_lt hj)
    rw [Nat.succ_mul] at hmul
    rw [memOffset, queueInit, memOffset, BitVec.toNat_add, BitVec.toNat_add, BitVec.toNat_mul,
      toNat_slot (by omega), toNat_calcQueueSize hc (by omega), cachelineAligned,
      toNat_memAlign hc h.msgSize, ← hstride, Nat.mod_eq_of_lt (a := j * stride) (by omega),
      Nat.mod_eq_of_lt (a := shm.toNat + _) (by omega)]
    exact Nat.mod_eq_of_lt (by omega)
  have hall : (List.range (attr.addMsgs.toNat + 3)).filterMap
      ((queueInit cls attr shm).getMsg ∘ BitVec.ofNat 32) = _ :=
    List.filterMap_eq_map_iff_forall_eq_some.mpr fun j hj => hget j (List.mem_range.mp hj)
  rw [Queue.messages, Queue.slots, hlen, List.filterMap_map, hall, List.map_map]
  refine List.map_congr_left fun j hj => ?_
  exact congrArg (Region.mk · attr.msgSize.toNat) (haddress j (List.mem_range.mp hj))

end numbers

/-! ## The placement

  The index area is reserved for three words more than the messages start behind.  Whether the
  rounding hides this is a matter of the cacheline. -/

section placement

variable {cls shm : Size} {attr : ChannelAttr π} {k : Nat}

/-- When the words of the queue fit in front of the messages. -/
theorem roomForWords_iff (hcpos : 0 < cls.toNat) : RoomForWords cls attr ↔
    4 * (attr.addMsgs.toNat + 5) ≤ alignUp cls.toNat (4 * (attr.addMsgs.toNat + 2)) := by
  rw [RoomForWords, ← le_alignUp_iff hcpos (by decide)]
  constructor <;> intro h <;> omega

/-- A channel is well placed exactly if rounding up leaves room for the three words that the placement
    does not count. -/
theorem queue_words_apart_messages (hc : cls.toNat = 2 ^ k)
    (hmsg : 1 ≤ attr.msgSize.toNat) (hfit : SizesFit cls attr)
    (hmap : shm.toNat + (channelShmSize cls attr).toNat ≤ 2 ^ 64) :
    WellPlaced cls attr shm ↔ RoomForWords cls attr := by
  have hcpos : 0 < cls.toNat := hc ▸ Nat.two_pow_pos k
  have hwords := hfit.words_eq hc hmap
  have hmessages := hfit.messages_eq hc hmsg hmap
  have hsize := hfit.toNat_channelShmSize hc
  rw [roomForWords_iff hcpos]
  set area := alignUp cls.toNat (4 * (attr.addMsgs.toNat + 2)) with harea
  have hlen : (queueInit cls attr shm).messages.length = attr.addMsgs.toNat + 3 := by
    rw [hmessages, Region.array, List.length_map, List.length_range]
  constructor
  · intro hplaced
    -- otherwise the first message starts within a word
    by_contra hlt
    have happ := List.pairwise_append.mp hplaced.apart
    rw [hwords, hmessages] at happ
    have hword : (⟨shm.toNat + area / 4 * 4, 4⟩ : Region) ∈
        Region.array shm.toNat 4 4 (attr.addMsgs.toNat + 5) :=
      Region.mem_array.mpr ⟨area / 4, by omega, rfl⟩
    have hmessage : (⟨shm.toNat + area + 0 * alignUp cls.toNat attr.msgSize.toNat,
        attr.msgSize.toNat⟩ : Region) ∈ Region.array (shm.toNat + area)
          (alignUp cls.toNat attr.msgSize.toNat) attr.msgSize.toNat (attr.addMsgs.toNat + 3) :=
      Region.mem_array.mpr ⟨0, by omega, rfl⟩
    refine happ.2.2 _ hword _ hmessage (shm.toNat + area) ⟨?_, ?_⟩ ⟨?_, ?_⟩ <;>
      simp only [Region.stop] <;> omega
  · intro hroom
    have hstride := le_alignUp (n := attr.msgSize.toNat) hcpos
    have hwithin : ∀ r ∈ (queueInit cls attr shm).words,
        r.Within ⟨shm.toNat, (attr.addMsgs.toNat + 5) * 4⟩ := fun r hr =>
      Region.array_within le_rfl (hwords ▸ hr)
    have hwithin' : ∀ r ∈ (queueInit cls attr shm).messages, r.Within ⟨shm.toNat + area,
        (attr.addMsgs.toNat + 3) * alignUp cls.toNat attr.msgSize.toNat⟩ := fun r hr =>
      Region.array_within hstride (hmessages ▸ hr)
    have hmono : area ≤ alignUp cls.toNat (4 * (attr.addMsgs.toNat + 5)) :=
      alignUp_mono hcpos (by omega)
    have hle := le_alignUp (n := 4 * (attr.addMsgs.toNat + 5)) hcpos
    refine ⟨hlen, ?_, ?_, ?_⟩
    · rw [List.pairwise_append]
      refine ⟨hwords ▸ Region.array_apart le_rfl, hmessages ▸ Region.array_apart hstride, ?_⟩
      intro r hr t ht
      refine Region.Apart.within (Region.apart_of_le ?_) (hwithin r hr) (hwithin' t ht)
      show shm.toNat + (attr.addMsgs.toNat + 5) * 4 ≤ shm.toNat + area
      omega
    · intro r hr
      rw [channelRegion, hsize]
      rcases List.mem_append.mp hr with hr | hr
      · refine (hwithin r hr).trans ⟨le_rfl, ?_⟩
        simp only [Region.stop]
        omega
      · refine (hwithin' r hr).trans ⟨Nat.le_add_right _ _, ?_⟩
        simp only [Region.stop]
        omega
    · intro hdvd r hr
      rw [hmessages] at hr
      obtain ⟨i, -, rfl⟩ := Region.mem_array.mp hr
      exact Nat.dvd_add (Nat.dvd_add hdvd dvd_alignUp) (Nat.dvd_mul_left_of_dvd dvd_alignUp i)

end placement

/-- A channel without eventfd and info. -/
def plainAttr (msgSize : Size) (addMsgs : Unsigned) : ChannelAttr Unit where
  msgSize := msgSize
  addMsgs := addMsgs
  eventfd := false
  info := { size := 0, data := none }

/-- The shortest queue, with cachelines of 64 bytes. -/
theorem queue_words_apart_messages_shortest : WellPlaced 64 (plainAttr 8 0) 4096 :=
  (queue_words_apart_messages (k := 6) rfl (by decide) ⟨by decide, by decide, by decide⟩
    (by decide)).mpr (by unfold RoomForWords; decide)

/-- 14 additional messages and cachelines of 64 bytes: the first message is on the last three chain
    words. -/
theorem queue_message_on_chain : SizesFit 64 (plainAttr 8 14) ∧ ¬ WellPlaced 64 (plainAttr 8 14) 0 := by
  refine ⟨⟨by decide, by decide, by decide⟩, fun h => ?_⟩
  have happ := List.pairwise_append.mp h.apart
  have hword : (⟨64, 4⟩ : Region) ∈ (queueInit 64 (plainAttr 8 14) 0).words := by decide
  have hmessage : (⟨64, 8⟩ : Region) ∈ (queueInit 64 (plainAttr 8 14) 0).messages := by decide
  exact happ.2.2 _ hword _ hmessage 64 ⟨by decide, by decide⟩ ⟨by decide, by decide⟩

end Rtipc
