/-
  Do the computations of sizes wrap around?

  Nothing is checked: a queue length is an `unsigned` sum, a size is a product and a sum of `size_t`.
  `exactQueueLen`, `exactChannelSize` and `exactSizes` are what is meant, natural numbers.  The code
  computes them exactly if every queue length leaves the two flag bits of an index free and all
  channels together are smaller than the address space (`sizes_exact_iff`); it makes groups for which
  they are not.

  1. **Exact or not.**  `SizesExact` compares what the code computes for one channel with natural
     numbers, and `TotalExact` the sum.  `sizesExact_iff` is the condition for one channel: the flag
     bits of an index stay free, and the size is below 2⁶⁴.

  2. **The group.**  `sizes_exact_iff` is about the groups that `ri_group_from_attr` returns.  The
     layout goes on from the end of one channel to the next, so an error in one size moves all channels
     behind it.

  3. **Where it fails.**  `queue_len_wraps`: with 2³² - 1 additional messages there are 2 slots, and the
     call succeeds.
-/
import Rtipc.Agreement

namespace Rtipc

/-! ## What is meant

  The same formulas as in the code, for natural numbers. -/

section meant

variable {π : Type}

/-- The number of slots. -/
def exactQueueLen (attr : ChannelAttr π) : Nat := 3 + attr.addMsgs.toNat

/-- The bytes of the words, in whole cachelines. -/
def exactQueueSize (cls : Size) (attr : ChannelAttr π) : Nat :=
  alignUp cls.toNat (4 * (exactQueueLen attr + 2))

/-- The bytes of a message, in whole cachelines. -/
def exactStride (cls : Size) (attr : ChannelAttr π) : Nat := alignUp cls.toNat attr.msgSize.toNat

/-- The bytes of a channel. -/
def exactChannelSize (cls : Size) (attr : ChannelAttr π) : Nat :=
  exactQueueSize cls attr + exactQueueLen attr * exactStride cls attr

/-- The bytes of all channels. -/
def exactSizes (cls : Size) (attrs : List (ChannelAttr π)) : Nat :=
  (attrs.map (exactChannelSize cls)).sum

/-- Where the channels start, one behind the other. -/
def exactOffsets (cls : Size) : Nat → List (ChannelAttr π) → List Nat
  | _, [] => []
  | offset, attr :: attrs => offset :: exactOffsets cls (offset + exactChannelSize cls attr) attrs

/-- All sizes of a channel are what is meant, and its indices leave the flags alone. -/
structure SizesExact (cls : Size) (attr : ChannelAttr π) : Prop where
  queueLen : (channelQueueLen attr).toNat = exactQueueLen attr
  bound : exactQueueLen attr ≤ 2 ^ 30
  indices : ∀ i < exactQueueLen attr, Index.consumed (BitVec.ofNat 32 i) = false ∧
    Index.first (BitVec.ofNat 32 i) = false ∧ BitVec.ofNat 32 i ≠ indexInvalid
  queueSize : (calcQueueSize cls (channelQueueLen attr)).toNat = exactQueueSize cls attr
  dataSize : (calcDataSize cls (channelQueueLen attr) attr.msgSize).toNat =
    exactQueueLen attr * exactStride cls attr
  shmSize : (channelShmSize cls attr).toNat = exactChannelSize cls attr

/-- The sizes and the places of the channels that have been made are what is meant. -/
structure LayoutExact (cls : Size) (attrs : List (ChannelAttr π)) (channels : List ChannelEnd) : Prop where
  sizes : ∀ attr ∈ attrs, SizesExact cls attr
  queues : List.Forall₂ (fun attr channel => channel.queue.nMsgs.toNat = exactQueueLen attr ∧
    channel.queue.msgSizeAligned.toNat = exactStride cls attr) attrs channels
  offsets : channels.map (·.shmOffset.toNat) = exactOffsets cls 0 attrs
  stop : (endOffset cls 0 attrs).toNat = exactSizes cls attrs

/-- `ri_calc_shm_size` of these channels is what is meant. -/
def TotalExact (cls : Size) (consumers producers : List (ChannelAttr π)) : Prop :=
  ∀ arrayC arrayP total, Lists arrayC consumers → Lists arrayP producers →
    calcShmSize cls arrayC arrayP = .ok total → total.toNat = exactSizes cls (consumers ++ producers)

/-- The queues are short enough for the indices, and all channels together for the addresses. -/
structure WithinLimits (cls : Size) (attrs : List (ChannelAttr π)) : Prop where
  queueLen : ∀ attr ∈ attrs, exactQueueLen attr ≤ 2 ^ 30
  total : exactSizes cls attrs < 2 ^ 64

end meant

/-! ## One channel -/

section channel

variable {π : Type} {cls : Size} {attr : ChannelAttr π} {k : Nat}

/-- A cacheline size of 64 bits is at most 2⁶³. -/
theorem cacheline_le (hc : cls.toNat = 2 ^ k) : k ≤ 63 := by
  have hlt := cls.isLt
  rw [hc] at hlt
  have := (Nat.pow_lt_pow_iff_right (by decide)).mp hlt
  omega

/-- What is rounded up to less than 2⁶⁴ has not been close to it. -/
theorem alignUp_small (hc : cls.toNat = 2 ^ k) {n : Nat} (h : alignUp cls.toNat n < 2 ^ 64) :
    n + cls.toNat - 1 < 2 ^ 64 := by
  by_contra hge
  have hle : 2 ^ 64 / cls.toNat ≤ (n + cls.toNat - 1) / cls.toNat :=
    Nat.div_le_div_right (Nat.le_of_not_lt hge)
  have hdvd : cls.toNat ∣ 2 ^ 64 := by
    rw [hc]
    exact Nat.pow_dvd_pow 2 ((cacheline_le hc).trans (by decide))
  have hmul := Nat.mul_le_mul_right cls.toNat hle
  rw [Nat.div_mul_cancel hdvd] at hmul
  exact absurd h (Nat.not_lt.mpr hmul)

/-- The sizes of a channel are exact if and only if its queue and its bytes are below these limits. -/
theorem sizesExact_iff (hc : cls.toNat = 2 ^ k) : SizesExact cls attr ↔
    exactQueueLen attr ≤ 2 ^ 30 ∧ exactChannelSize cls attr < 2 ^ 64 := by
  constructor
  · intro h
    refine ⟨h.bound, ?_⟩
    rw [← h.shmSize]
    exact BitVec.isLt _
  · rintro ⟨hlen, hsize⟩
    have hlen' : 3 + attr.addMsgs.toNat ≤ 2 ^ 30 := hlen
    have hqueueLen : (channelQueueLen attr).toNat = exactQueueLen attr := by
      rw [channelQueueLen, channelMinMsgs, BitVec.toNat_add, show (3 : Unsigned).toNat = 3 from rfl]
      exact Nat.mod_eq_of_lt (by omega)
    have hqueue : (calcQueueSize cls (channelQueueLen attr)).toNat = exactQueueSize cls attr := by
      rw [toNat_calcQueueSize hc (by rw [hqueueLen]; omega), hqueueLen]
      rfl
    -- the bytes of one message are fewer than those of the channel
    have hone : exactStride cls attr ≤ exactQueueLen attr * exactStride cls attr :=
      Nat.le_mul_of_pos_left _ (Nat.lt_of_lt_of_le (by decide) (Nat.le_add_right 3 _))
    have hdata : exactQueueLen attr * exactStride cls attr ≤ exactChannelSize cls attr :=
      Nat.le_add_left _ _
    have hstride : (cachelineAligned cls attr.msgSize).toNat = exactStride cls attr :=
      toNat_memAlign hc (alignUp_small hc ((hone.trans hdata).trans_lt hsize))
    have hdataSize : (calcDataSize cls (channelQueueLen attr) attr.msgSize).toNat =
        exactQueueLen attr * exactStride cls attr := by
      rw [calcDataSize, BitVec.toNat_mul, BitVec.toNat_setWidth, hqueueLen, hstride,
        Nat.mod_eq_of_lt (a := exactQueueLen attr) (hlen.trans_lt (by decide))]
      exact Nat.mod_eq_of_lt (hdata.trans_lt hsize)
    refine ⟨hqueueLen, hlen, fun i hi => ?_, hqueue, hdataSize, ?_⟩
    · have hsmall : (BitVec.ofNat 32 i).toNat < 2 ^ 30 := by
        rw [BitVec.toNat_ofNat]
        exact (Nat.mod_le _ _).trans_lt (hi.trans_le hlen)
      exact ⟨Index.consumed_of_lt hsmall, Index.first_of_lt hsmall, Index.ne_indexInvalid_of_lt hsmall⟩
    · rw [channelShmSize, calcChannelShmSize, BitVec.toNat_add, hqueue, hdataSize]
      exact Nat.mod_eq_of_lt hsize

end channel

/-! ## All channels -/

section channels

variable {π π' : Type} {cls mem size offset : Size} {attrs : List (ChannelAttr π)} {k : Nat}

/-- The bytes of one channel more. -/
theorem exactSizes_cons (attr : ChannelAttr π) (attrs : List (ChannelAttr π)) :
    exactSizes cls (attr :: attrs) = exactChannelSize cls attr + exactSizes cls attrs := List.sum_cons

/-- The bytes of two lists. -/
theorem exactSizes_append (attrs attrs' : List (ChannelAttr π)) :
    exactSizes cls (attrs ++ attrs') = exactSizes cls attrs + exactSizes cls attrs' := by
  rw [exactSizes, List.map_append, List.sum_append, exactSizes, exactSizes]

/-- Within the limits the sizes of every single channel are exact. -/
theorem WithinLimits.sizes (hc : cls.toNat = 2 ^ k) (h : WithinLimits cls attrs) :
    ∀ attr ∈ attrs, SizesExact cls attr := by
  have hle : ∀ attr ∈ attrs, exactChannelSize cls attr ≤ exactSizes cls attrs := by
    obtain ⟨-, -⟩ := h
    induction attrs with
    | nil => exact List.forall_mem_nil _
    | cons attr attrs ih =>
      rw [exactSizes_cons]
      exact List.forall_mem_cons.mpr
        ⟨Nat.le_add_right _ _, fun a ha => (ih a ha).trans (Nat.le_add_left _ _)⟩
  exact fun attr hattr => (sizesExact_iff hc).mpr
    ⟨h.queueLen attr hattr, (hle attr hattr).trans_lt h.total⟩

/-- If they are, the code's sizes are the ones in natural numbers. -/
theorem shmSizes_exact (h : ∀ attr ∈ attrs, SizesExact cls attr) :
    shmSizes cls attrs = exactSizes cls attrs :=
  congrArg List.sum (List.map_congr_left fun attr hattr => (h attr hattr).shmSize)

/-- Within the limits the sum of the sizes does not wrap around either. -/
theorem WithinLimits.totalExact {consumers producers : List (ChannelAttr π)}
    (hc : cls.toNat = 2 ^ k) (h : WithinLimits cls (consumers ++ producers)) :
    TotalExact cls consumers producers := by
  intro arrayC arrayP total hlistsC hlistsP htotal
  have hsum := shmSizes_exact (h.sizes hc)
  have hsmall := h.total
  rw [← hsum, shmSizes_append, Nat.add_comm, ← shmSizes_append] at hsmall
  rw [toNat_calcShmSize hlistsC hlistsP hsmall htotal, ← hsum, shmSizes_append, Nat.add_comm,
    ← shmSizes_append]

/-- If nothing wraps around, each channel lies where the sum of the sizes in front of it says. The
    induction is on the channels, and the offset goes with it. -/
theorem PlacedFrom.exact {attrs : List (ChannelAttr InfoPtr)} {channels : List ChannelEnd}
    (h : PlacedFrom cls mem size offset attrs channels) (hc : cls.toNat = 2 ^ k)
    (hsizes : ∀ attr ∈ attrs, SizesExact cls attr)
    (hfits : offset.toNat + exactSizes cls attrs < 2 ^ 64) :
    List.Forall₂ (fun attr channel => channel.queue.nMsgs.toNat = exactQueueLen attr ∧
        channel.queue.msgSizeAligned.toNat = exactStride cls attr) attrs channels ∧
      channels.map (·.shmOffset.toNat) = exactOffsets cls offset.toNat attrs := by
  -- The induction is on the channels; as long as nothing wraps each begins where the one before has
  -- ended.
  induction attrs generalizing offset channels with
  | nil =>
    rcases channels with _ | ⟨channel, channels⟩
    · exact ⟨List.Forall₂.nil, rfl⟩
    · exact h.elim
  | cons attr attrs ih =>
    rcases channels with _ | ⟨channel, channels⟩
    · exact h.elim
    · obtain ⟨hplaced, hrest⟩ := h
      obtain ⟨hthis, hsizes⟩ := List.forall_mem_cons.mp hsizes
      rw [exactSizes_cons] at hfits
      have hnext : (offset + channelShmSize cls attr).toNat =
          offset.toNat + exactChannelSize cls attr := by
        rw [BitVec.toNat_add, hthis.shmSize]
        exact Nat.mod_eq_of_lt (by omega)
      obtain ⟨hqueues, hoffsets⟩ := ih hrest hsizes (by rw [hnext]; omega)
      have hone : exactStride cls attr ≤ exactChannelSize cls attr :=
        (Nat.le_mul_of_pos_left _ (Nat.lt_of_lt_of_le (by decide) (Nat.le_add_right 3 _))).trans
          (Nat.le_add_left _ _)
      have hstride : (cachelineAligned cls attr.msgSize).toNat = exactStride cls attr :=
        toNat_memAlign hc (alignUp_small hc (show exactStride cls attr < 2 ^ 64 by omega))
      refine ⟨List.Forall₂.cons ?_ hqueues, ?_⟩
      · rw [hplaced.queue]
        exact ⟨hthis.queueLen, hstride⟩
      · rw [List.map_cons, hoffsets, hnext, hplaced.shmOffset]
        rfl

/-- The channels that have been made one behind the other. -/
theorem PlacedFrom.layoutExact_iff {attrs : List (ChannelAttr InfoPtr)} {channels : List ChannelEnd}
    (h : PlacedFrom cls mem size 0 attrs channels) (hc : cls.toNat = 2 ^ k) :
    LayoutExact cls attrs channels ↔ WithinLimits cls attrs := by
  constructor
  · intro hexact
    refine ⟨fun attr hattr => (hexact.sizes attr hattr).bound, ?_⟩
    rw [← hexact.stop]
    exact BitVec.isLt _
  · intro hlimits
    have hsizes := hlimits.sizes hc
    have hfits : (0 : Size).toNat + exactSizes cls attrs < 2 ^ 64 := by
      rw [show (0 : Size).toNat = 0 from rfl, Nat.zero_add]
      exact hlimits.total
    obtain ⟨hqueues, hoffsets⟩ := h.exact hc hsizes hfits
    rw [← shmSizes_exact hsizes] at hfits
    refine ⟨hsizes, hqueues, hoffsets, ?_⟩
    rw [toNat_endOffset hfits, shmSizes_exact hsizes]
    exact Nat.zero_add _

/-! ## Infos do not matter

  The layout does not look at the infos, so the attributes of the group and those of the caller have
  the same one. -/

variable (cls) in

/-- The infos do not change the sizes. -/
theorem exactSizes_bare (attrs : List (ChannelAttr π)) :
    exactSizes cls (attrs.map ChannelAttr.bare) = exactSizes cls attrs := by
  rw [exactSizes, List.map_map]
  rfl

variable (cls) in

/-- Nor the offsets. -/
theorem exactOffsets_bare (attrs : List (ChannelAttr π)) (offset : Nat) :
    exactOffsets cls offset (attrs.map ChannelAttr.bare) = exactOffsets cls offset attrs := by
  induction attrs generalizing offset with
  | nil => rfl
  | cons attr attrs ih => exact congrArg (offset :: ·) (ih _)

/-- Nor the limits. -/
theorem withinLimits_bare : WithinLimits cls (attrs.map ChannelAttr.bare) ↔ WithinLimits cls attrs := by
  have hsum := exactSizes_bare cls attrs
  have hlens : (∀ attr ∈ attrs.map ChannelAttr.bare, exactQueueLen attr ≤ 2 ^ 30) ↔
      ∀ attr ∈ attrs, exactQueueLen attr ≤ 2 ^ 30 := List.forall_mem_map
  constructor
  · exact fun h => ⟨hlens.mp h.queueLen, hsum ▸ h.total⟩
  · exact fun h => ⟨hlens.mpr h.queueLen, hsum.symm ▸ h.total⟩

/-- Nor the layout. -/
theorem layoutExact_bare {channels : List ChannelEnd} :
    LayoutExact cls (attrs.map ChannelAttr.bare) channels ↔ LayoutExact cls attrs channels := by
  have hsum := exactSizes_bare cls attrs
  have hoffsets := exactOffsets_bare cls attrs 0
  have hsizes : (∀ attr ∈ attrs.map ChannelAttr.bare, SizesExact cls attr) ↔
      ∀ attr ∈ attrs, SizesExact cls attr := by
    rw [List.forall_mem_map]
    exact forall₂_congr fun attr _ => ⟨fun h => ⟨h.1, h.2, h.3, h.4, h.5, h.6⟩,
      fun h => ⟨h.1, h.2, h.3, h.4, h.5, h.6⟩⟩
  constructor
  · intro h
    exact ⟨hsizes.mp h.sizes, List.forall₂_map_left_iff.mp h.queues, hoffsets ▸ h.offsets,
      hsum ▸ (endOffset_bare attrs) ▸ h.stop⟩
  · intro h
    exact ⟨hsizes.mpr h.sizes, List.forall₂_map_left_iff.mpr h.queues, hoffsets.symm ▸ h.offsets,
      (endOffset_bare attrs).symm ▸ hsum.symm ▸ h.stop⟩

variable (cls) in

/-- So all this is the same for attributes that differ in their infos only. -/
theorem layoutExact_of_bare {attrs' : List (ChannelAttr π')} (channels : List ChannelEnd)
    (h : attrs.map ChannelAttr.bare = attrs'.map ChannelAttr.bare) :
    (LayoutExact cls attrs channels ↔ LayoutExact cls attrs' channels) ∧
      (WithinLimits cls attrs ↔ WithinLimits cls attrs') := by
  rw [← layoutExact_bare, ← withinLimits_bare, h, layoutExact_bare, withinLimits_bare]
  exact ⟨Iff.rfl, Iff.rfl⟩

end channels

/-! ## The groups -/

section groups

variable {os : Os} {cls : Size} {k : Nat}

/-- All channels of a group that has been made are laid out as it is meant if and only if they are
    within the limits. -/
theorem Group.Built.layoutExact_iff {grp : Group} {shm : Shm} {first : Role}
    (h : grp.Built cls first shm) (hc : cls.toNat = 2 ^ k) :
    LayoutExact cls (grp.data.attrs first ++ grp.data.attrs first.other)
        (grp.ends first ++ grp.ends first.other) ↔
      WithinLimits cls (grp.data.attrs first ++ grp.data.attrs first.other) :=
  (h.placed.append h.placedNext).layoutExact_iff hc

/-- The limits do not depend on which role is laid out first. -/
theorem withinLimits_comm {π : Type} (attrs attrs' : List (ChannelAttr π)) :
    WithinLimits cls (attrs ++ attrs') ↔ WithinLimits cls (attrs' ++ attrs) := by
  have hswap {a b : List (ChannelAttr π)} (h : WithinLimits cls (a ++ b)) : WithinLimits cls (b ++ a) := by
    obtain ⟨hlens, htotal⟩ := h
    rw [exactSizes_append, Nat.add_comm, ← exactSizes_append] at htotal
    exact ⟨fun attr hattr => hlens attr (List.mem_append.mpr (List.mem_append.mp hattr).symm), htotal⟩
  exact ⟨hswap, hswap⟩

/-- The sizes, the places and the total are what is meant if and only if no queue has more than 2³⁰
    slots and all channels take less than 2⁶⁴ bytes; for the groups of `ri_group_from_attr`, which has
    the producers first, and for those of `ri_group_deserialize`, which has the consumers first. -/
theorem sizes_exact_iff (os : Os) (hc : cls.toNat = 2 ^ k) :
    (∀ (attr : GroupAttr (List Byte)) (consumers producers : List (ChannelAttr (List Byte)))
      (grp : Group) (events : List Event), Lists attr.consumers consumers →
      Lists attr.producers producers → groupFromAttr os cls attr = .ok (some grp, events) →
      (LayoutExact cls (producers ++ consumers) (grp.ends .producer ++ grp.ends .consumer) ∧
          TotalExact cls consumers producers ↔ WithinLimits cls (consumers ++ producers))) ∧
    ∀ (req : List Byte) (size : Size) (bs : Wire) (fds : Option (List Int)) (nFds : Option Unsigned)
      (d : Deserialized) (grp : Group), Given req size bs →
      groupDeserialize os cls req size fds nFds = .ok d → d.grp = some grp →
      (LayoutExact cls (bs.consumers ++ bs.producers) (grp.ends .consumer ++ grp.ends .producer) ∧
          TotalExact cls bs.consumers bs.producers ↔ WithinLimits cls (bs.consumers ++ bs.producers)) := by
  refine ⟨fun attr consumers producers grp events hlistsC hlistsP h => ?_,
    fun req size bs fds nFds d grp hgiven h hgrp => ?_⟩
  · obtain ⟨consumers', producers', cs, ps, shm, hcreated⟩ := groupFromAttr_some h
    obtain rfl := hcreated.data.listsC.unique hlistsC
    obtain rfl := hcreated.data.listsP.unique hlistsP
    obtain ⟨hattrsC, hattrsP⟩ := hcreated.data.attrs
    have hbare : (ps ++ cs).map ChannelAttr.bare = (producers' ++ consumers').map ChannelAttr.bare := by
      rw [List.map_append, List.map_append, hcreated.data.copiedP,
        hcreated.data.copiedC]
    have hbuilt := hcreated.built.layoutExact_iff hc
    rw [show Role.producer.other = Role.consumer from rfl, hattrsC, hattrsP] at hbuilt
    -- Both sides depend on the attributes without their infos.
    obtain ⟨hlayout, hlimits⟩ :=
      layoutExact_of_bare cls (grp.ends .producer ++ grp.ends .consumer) hbare
    rw [← hlayout, hbuilt, hlimits, withinLimits_comm]
    exact and_iff_left_of_imp fun h => h.totalExact hc
  · obtain ⟨n, data, shmfd, rest, rest', shm, -, -, -, -, hmapped, -, hattrs, -⟩ :=
      groupDeserialize_some hgiven h hgrp
    have hdata : grp.data = data := hmapped.data
    have hbare : (grp.data.attrs .consumer ++ grp.data.attrs .producer).map ChannelAttr.bare =
        (bs.consumers ++ bs.producers).map ChannelAttr.bare := by
      rw [List.map_append, List.map_append, hdata, hattrs .consumer, hattrs .producer]
      rfl
    have hbuilt := hmapped.built.layoutExact_iff hc
    rw [show Role.consumer.other = Role.producer from rfl] at hbuilt
    obtain ⟨hlayout, hlimits⟩ :=
      layoutExact_of_bare cls (grp.ends .consumer ++ grp.ends .producer) hbare
    rw [← hlayout, hbuilt, hlimits]
    exact and_iff_left_of_imp fun h => h.totalExact hc

end groups

/-- One channel each way, and the channel of a request. -/
theorem sizes_exact_iff_small :
    (∃ grp events, groupFromAttr (Os.granting 4096) 64 pairAttr = .ok (some grp, events) ∧
      LayoutExact 64 [pairChannel false, pairChannel true]
        (grp.ends .producer ++ grp.ends .consumer)) ∧
    ∃ d grp, groupDeserialize (Os.granting 4096) 64 (requestOfChannel 8) 36 (some [3]) (some 1) =
        .ok d ∧ d.grp = some grp ∧
      LayoutExact 64 (Wire.consumers (requestOfChannel 8) ++ Wire.producers (requestOfChannel 8))
        (grp.ends .consumer ++ grp.ends .producer) := by
  obtain ⟨hfromAttr, hdeserialize⟩ :=
    sizes_exact_iff (Os.granting 4096) (show (64 : Size).toNat = 2 ^ 6 from rfl)
  have hlists (eventfd : Bool) :
      Lists (some ([pairChannel eventfd] ++ ChannelAttr.zero :: [])) [pairChannel eventfd] :=
    Lists.array [] (List.forall_mem_singleton.mpr (show (8 : Size) ≠ 0 by decide)) rfl
  have hpair : WithinLimits 64 ([pairChannel true] ++ [pairChannel false]) := ⟨by decide, by decide⟩
  have hrequest : WithinLimits 64 (Wire.consumers (requestOfChannel 8) ++
      Wire.producers (requestOfChannel 8)) := ⟨by decide, by decide⟩
  obtain ⟨⟨d, grp, h, hgrp⟩, -⟩ := groupDeserialize_requestOfChannel
  exact ⟨⟨_, _, rfl, ((hfromAttr pairAttr _ _ _ _ (hlists true) (hlists false) rfl).mpr hpair).1⟩,
    d, grp, h, hgrp, ((hdeserialize _ _ _ _ _ d grp (requestOfChannel_given 8) h hgrp).mpr hrequest).1⟩

/-- A producer with 2³² - 1 additional messages. -/
def longProducer : ChannelAttr (List Byte) := { pairChannel false with addMsgs := 0xFFFFFFFF }

/-- Its queue has two slots. -/
theorem queue_len_wraps : ∃ grp events, groupFromAttr (Os.granting 4096) 64
    { pairAttr with consumers := none, producers := some ([longProducer] ++ .zero :: []) } =
      .ok (some grp, events) ∧ (grp.ends .producer).map (·.queue.nMsgs) = [2] ∧
    ¬ LayoutExact 64 [longProducer] (grp.ends .producer ++ grp.ends .consumer) := by
  refine ⟨_, _, rfl, by decide, fun h => ?_⟩
  exact absurd (h.sizes longProducer List.mem_cons_self).bound (by decide)

end Rtipc
