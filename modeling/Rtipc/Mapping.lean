/-
  Whether a mapped channel lies in the mapped memory.

  `ri_shm_ptr` checks that a channel starts in the memory, and nothing checks where it ends.  So the
  channels of a group made from a request lie in the memory exactly if each of them ends in it
  (`ChannelFits`): its words, and its last message.  The addresses wrap around at 2⁶⁴, but a channel
  whose elements are all in the memory has none that does.

  1. **The statement.**  `mapped_inside_iff`: all words and all messages of all channels of a group made
     from a request lie in the mapping if and only if each channel, at the offset it gets, ends in the
     memory (`FitFrom`).

  2. **Sizes.**  A request has 32-bit message sizes, so no message is longer than 2³⁶ bytes when it has
     been rounded (`Small`).  The number of slots may wrap around at 2³², and then the queue is as short
     as the code makes it: the sizes are those of the functions of `src/channel.c`, not exact ones.

  3. **Where it fails.**  `mapped_outside` is a request whose only channel starts in a memory of one
     byte, and ends behind it.
-/
import Rtipc.Deserialize
import Rtipc.RequestWalks

namespace Rtipc

/-! ## Sizes without assumptions

  A request may say anything, so these sizes may have come round at 2³². -/

/-- A channel of a request, by the ranges of its fields. -/
structure Small {π : Type} (cls : Size) (attr : ChannelAttr π) : Prop where
  cls : cls.toNat < 2 ^ 16
  msgSize : attr.msgSize.toNat < 2 ^ 32

/-- Rounding adds at most the alignment, whether or not that is a power of two. -/
theorem toNat_memAlign_le {size alignment : Size} (h : size.toNat + alignment.toNat < 2 ^ 64) :
    (memAlign size alignment).toNat ≤ size.toNat + alignment.toNat := by
  rw [memAlign, BitVec.toNat_and]
  by_cases hzero : alignment = 0
  · subst hzero
    refine (Nat.and_le_right).trans ?_
    exact Nat.zero_le _
  · refine (Nat.and_le_left).trans ?_
    have hpos : 0 < alignment.toNat := by
      rcases Nat.eq_zero_or_pos alignment.toNat with hz | hz
      · exact absurd (BitVec.eq_of_toNat_eq hz) hzero
      · exact hz
    have hsum : (size + alignment).toNat = size.toNat + alignment.toNat := by
      rw [BitVec.toNat_add]
      exact Nat.mod_eq_of_lt h
    rw [BitVec.toNat_sub, hsum, show (1 : Size).toNat = 1 from rfl]
    omega

section sizes

variable {π : Type} {cls : Size} {attr : ChannelAttr π}

/-- The messages of a small channel are less than 2³⁶ bytes apart. -/
theorem Small.stride (h : Small cls attr) : (cachelineAligned cls attr.msgSize).toNat ≤ 2 ^ 36 := by
  have hcls := h.cls
  have hmsg := h.msgSize
  have hle : (cachelineAligned cls attr.msgSize).toNat ≤ _ := toNat_memAlign_le (by omega)
  omega

/-- The words of a queue need less than that. -/
theorem calcQueueSize_le {cls : Size} (hcls : cls.toNat < 2 ^ 16) (n : Unsigned) :
    (calcQueueSize cls n).toNat ≤ 2 ^ 36 := by
  have hn := (n + 2).isLt
  have hwords : ((n + 2).setWidth 64 * sizeofIndex).toNat < 2 ^ 34 := by
    rw [BitVec.toNat_mul, BitVec.toNat_setWidth, show sizeofIndex.toNat = 4 from rfl]
    omega
  have hle : (calcQueueSize cls n).toNat ≤ _ := toNat_memAlign_le (by omega)
  omega

/-! ## The elements of a channel -/

/-- The words lie one behind the other. -/
theorem words_wrapped (attr : ChannelAttr π) (shm : Size) : (queueInit cls attr shm).words =
    Region.wrapped (2 ^ 64) shm.toNat 4 4 ((channelQueueLen attr).toNat + 2) := by
  have hlt := (channelQueueLen attr).isLt
  rw [Region.wrapped, List.range_succ_eq_map, List.range_succ_eq_map, Queue.words, Queue.slots]
  simp only [List.map_cons, List.map_map]
  refine congrArg₂ List.cons ?_ (congrArg₂ List.cons ?_ (List.map_congr_left fun j hj => ?_))
  · exact congrArg (Region.mk · 4) (Nat.mod_eq_of_lt shm.isLt).symm
  · exact congrArg (Region.mk · 4) (BitVec.toNat_add _ _)
  · refine congrArg (Region.mk · 4) ?_
    have hj : j < (channelQueueLen attr).toNat := List.mem_range.mp hj
    show (shm + 2 * sizeofIndex + (BitVec.ofNat 32 j).setWidth 64 * sizeofIndex).toNat =
      (shm.toNat + (j + 1 + 1) * 4) % 2 ^ 64
    rw [BitVec.toNat_add, BitVec.toNat_add, show (2 * sizeofIndex).toNat = 8 from rfl,
      BitVec.toNat_mul, toNat_slot (by omega), show sizeofIndex.toNat = 4 from rfl]
    omega

/-- So do the messages, behind the index area of `add_msgs` slots. -/
theorem messages_wrapped (attr : ChannelAttr π) (shm : Size) : (queueInit cls attr shm).messages =
    Region.wrapped (2 ^ 64) (shm.toNat + (calcQueueSize cls attr.addMsgs).toNat)
      (cachelineAligned cls attr.msgSize).toNat attr.msgSize.toNat (channelQueueLen attr).toNat := by
  have hlt := (channelQueueLen attr).isLt
  have hget : ∀ j < (channelQueueLen attr).toNat,
      (queueInit cls attr shm).getMsg (BitVec.ofNat 32 j) =
        some (memOffset (queueInit cls attr shm).msgs
          ((BitVec.ofNat 32 j).setWidth 64 * (queueInit cls attr shm).msgSizeAligned)) := by
    intro j hj
    refine if_neg ?_
    show ¬ (channelQueueLen attr).toNat ≤ (BitVec.ofNat 32 j).toNat
    rw [BitVec.toNat_ofNat]
    omega
  have hall : (List.range (channelQueueLen attr).toNat).filterMap
      ((queueInit cls attr shm).getMsg ∘ BitVec.ofNat 32) = _ :=
    List.filterMap_eq_map_iff_forall_eq_some.mpr fun j hj => hget j (List.mem_range.mp hj)
  rw [Queue.messages, Queue.slots, show (queueInit cls attr shm).nMsgs = channelQueueLen attr from rfl,
    List.filterMap_map, hall, List.map_map, Region.wrapped]
  refine List.map_congr_left fun j hj => congrArg (Region.mk · attr.msgSize.toNat) ?_
  have hj : j < (channelQueueLen attr).toNat := List.mem_range.mp hj
  show (shm + calcQueueSize cls attr.addMsgs +
    (BitVec.ofNat 32 j).setWidth 64 * cachelineAligned cls attr.msgSize).toNat = _
  rw [BitVec.toNat_add, BitVec.toNat_add, BitVec.toNat_mul, toNat_slot (by omega)]
  omega

end sizes

/-! ## The end of a channel

  What has to be within the memory is the last word and the last message. -/

/-- The words and the messages of a channel that starts at `offset` end within `size` bytes. -/
structure ChannelFits {π : Type} (cls : Size) (attr : ChannelAttr π) (offset size : Nat) : Prop where
  words : offset + 4 * ((channelQueueLen attr).toNat + 2) ≤ size
  messages : (channelQueueLen attr).toNat ≠ 0 → offset + (calcQueueSize cls attr.addMsgs).toNat +
    ((channelQueueLen attr).toNat - 1) * (cachelineAligned cls attr.msgSize).toNat +
      attr.msgSize.toNat ≤ size

/-- The channels that are laid out from `offset` on all end within `size` bytes. -/
def FitFrom {π : Type} (cls size : Size) : Size → List (ChannelAttr π) → Prop
  | _, [] => True
  | offset, attr :: attrs => ChannelFits cls attr offset.toNat size.toNat ∧
      FitFrom cls size (offset + channelShmSize cls attr) attrs

/-- The words and the messages of the channel lie in the memory. -/
def ChannelEnd.Inside (mem size : Size) (channel : ChannelEnd) : Prop :=
  ∀ r ∈ channel.queue.words ++ channel.queue.messages, r.Within ⟨mem.toNat, size.toNat⟩

/-- All channels of a group lie in the memory. -/
def Group.Inside (grp : Group) (mem size : Size) : Prop :=
  ∀ role, ∀ c ∈ grp.ends role, c.Inside mem size

/-- What POSIX says of a file and of a mapping: a size is an `off_t`, and behind the last byte there is
    an address. -/
structure Os.Posix (os : Os) : Prop where
  stat : ∀ {fd size}, os.fstat fd = some size → size.toNat < 2 ^ 63
  mmap : ∀ {fd size mem}, os.mmap fd size = some mem → mem.toNat + size.toNat < 2 ^ 64

section inside

variable {cls mem size offset : Size}

/-- A channel lies in the memory if and only if its words and its last message end in it.  The crux: no
    step between two elements is longer than 2³⁶ bytes, so none leads around from behind the memory to
    its front. -/
theorem ChannelEnd.Placed.inside_iff {attr : ChannelAttr InfoPtr} {channel : ChannelEnd}
    (h : channel.Placed cls mem size offset attr) (hsmall : Small cls attr)
    (hsize : size.toNat < 2 ^ 63) (hmem : mem.toNat + size.toNat < 2 ^ 64) :
    channel.Inside mem size ↔ ChannelFits cls attr offset.toNat size.toNat := by
  have hoffset : offset.toNat < size.toNat := h.inside
  have hstart : (memOffset mem offset).toNat = mem.toNat + offset.toNat := by
    rw [memOffset, BitVec.toNat_add]
    exact Nat.mod_eq_of_lt (by omega)
  have hstop : (Region.mk mem.toNat size.toNat).stop = mem.toNat + size.toNat := rfl
  have hgap : size.toNat + 2 ^ 36 < 2 ^ 64 := by omega
  have hqueue := calcQueueSize_le hsmall.cls attr.addMsgs
  have hstride := hsmall.stride
  have hfirst : (Region.mk mem.toNat size.toNat).start = mem.toNat := rfl
  have hlen : (Region.mk mem.toNat size.toNat).len = size.toNat := rfl
  have hwords := @Region.wrapped_within_iff ⟨mem.toNat, size.toNat⟩ (2 ^ 64)
    (mem.toNat + offset.toNat) 4 4 ((channelQueueLen attr).toNat + 2) (2 ^ 36)
    (by omega) hgap (by omega) (by omega) (by omega)
  have hmessages := @Region.wrapped_within_iff ⟨mem.toNat, size.toNat⟩ (2 ^ 64)
    (mem.toNat + offset.toNat + (calcQueueSize cls attr.addMsgs).toNat)
    (cachelineAligned cls attr.msgSize).toNat attr.msgSize.toNat (channelQueueLen attr).toNat (2 ^ 36)
    (by omega) hgap (by omega) (by omega) hstride
  have hsplit : channel.Inside mem size ↔
      (∀ r ∈ channel.queue.words, r.Within ⟨mem.toNat, size.toNat⟩) ∧
        ∀ r ∈ channel.queue.messages, r.Within ⟨mem.toNat, size.toNat⟩ := by
    rw [ChannelEnd.Inside, List.forall_mem_append]
  rw [hsplit, h.queue, words_wrapped, messages_wrapped, hstart, hwords, hmessages, hstop]
  constructor
  · rintro ⟨hw, hm⟩
    refine ⟨?_, fun hn => ?_⟩
    · have := hw (by omega)
      omega
    · have := hm hn
      omega
  · rintro ⟨hw, hm⟩
    refine ⟨fun _ => by omega, fun hn => ?_⟩
    have := hm hn
    omega

/-- The same for channels that are laid out one behind the other. -/
theorem PlacedFrom.inside_iff {attrs : List (ChannelAttr InfoPtr)} {channels : List ChannelEnd}
    (h : PlacedFrom cls mem size offset attrs channels) (hsmall : ∀ attr ∈ attrs, Small cls attr)
    (hsize : size.toNat < 2 ^ 63) (hmem : mem.toNat + size.toNat < 2 ^ 64) :
    (∀ c ∈ channels, c.Inside mem size) ↔ FitFrom cls size offset attrs := by
  induction attrs generalizing offset channels with
  | nil =>
    cases channels with
    | nil => exact iff_of_true (fun c hc => by cases hc) trivial
    | cons channel channels => exact h.elim
  | cons attr attrs ih =>
    cases channels with
    | nil => exact h.elim
    | cons channel channels =>
      obtain ⟨hfirst, hrest⟩ := h
      rw [List.forall_mem_cons, hfirst.inside_iff (hsmall attr List.mem_cons_self) hsize hmem,
        ih hrest fun a ha => hsmall a (List.mem_cons_of_mem _ ha)]
      rfl

/-- The infos do not matter to it. -/
theorem fitFrom_bare {π : Type} (attrs : List (ChannelAttr π)) :
    FitFrom cls size offset (attrs.map ChannelAttr.bare) ↔ FitFrom cls size offset attrs := by
  induction attrs generalizing offset with
  | nil => exact Iff.rfl
  | cons attr attrs ih =>
    exact and_congr ⟨fun h => ⟨h.words, h.messages⟩, fun h => ⟨h.words, h.messages⟩⟩ ih

/-- The channels of the second list are laid out behind those of the first. -/
theorem fitFrom_append {π : Type} (attrs attrs' : List (ChannelAttr π)) :
    FitFrom cls size offset (attrs ++ attrs') ↔
      FitFrom cls size offset attrs ∧ FitFrom cls size (endOffset cls offset attrs) attrs' := by
  induction attrs generalizing offset with
  | nil => exact (iff_of_eq (true_and _)).symm
  | cons attr attrs ih => exact (and_congr Iff.rfl ih).trans and_assoc.symm

/-- The infos do not matter to where they start. -/
theorem endOffset_bare {π : Type} (attrs : List (ChannelAttr π)) :
    endOffset cls offset (attrs.map ChannelAttr.bare) = endOffset cls offset attrs := by
  rw [endOffset, List.foldl_map]
  rfl

end inside

/-! ## The messages of a request -/

/-- An entry has 32 bits for the message size. -/
theorem channelsOf_msgSize {attr : ChannelAttr InfoPtr} {count : Nat} {rest : List Byte}
    (h : attr ∈ (channelsOf count rest).1) : attr.msgSize.toNat < 2 ^ 32 := by
  rcases channelsOf_cases h with rfl | ⟨e, rfl⟩
  · exact (show 0 < 2 ^ 32 by decide)
  · rw [Entry.attr, BitVec.toNat_setWidth]
    exact lt_of_le_of_lt (Nat.mod_le _ _) (BitVec.isLt _)

section request

variable {os : Os} {cls : Size} {req : List Byte} {size : Size} {bs : Wire}
  {fds : Option (List Int)} {nFds : Option Unsigned} {d : Deserialized} {grp : Group}

/-- The attributes of a group that says what a request says are small. -/
theorem small_of_bare (hbs : bs.Headed cls) {role : Role} {attrs : List (ChannelAttr InfoPtr)}
    (h : attrs.map ChannelAttr.bare = (bs.channels role).map ChannelAttr.bare) :
    ∀ attr ∈ attrs, Small cls attr := by
  intro attr hattr
  have hmem : attr.bare ∈ (bs.channels role).map ChannelAttr.bare :=
    h ▸ List.mem_map_of_mem hattr
  obtain ⟨attr', hattr', heq⟩ := List.mem_map.mp hmem
  have hsize := (ChannelAttr.bare_inj heq).1
  refine ⟨hbs.cacheline, ?_⟩
  rw [← hsize]
  cases role with
  | consumer => exact channelsOf_msgSize hattr'
  | producer => exact channelsOf_msgSize hattr'

/-- The channels of a mapped group lie in the memory exactly if the channels of the request fit. -/
theorem Group.Mapped.inside_iff {data : GroupData} {shmfd : Int} {rest rest' : List Int} {shm : Shm}
    (h : Group.Mapped os cls (Group.withArrays data) shmfd rest grp rest' shm) (hos : os.Posix)
    (hbs : bs.Headed cls)
    (hattrs : ∀ role, (data.attrs role).map ChannelAttr.bare =
      (bs.channels role).map ChannelAttr.bare) :
    grp.Inside shm.mem shm.size ↔ FitFrom cls shm.size 0 (bs.consumers ++ bs.producers) := by
  have hdata : grp.data = data := h.data
  have hsize := hos.stat h.stat
  have hmem := hos.mmap h.mmap
  have hconsumers := h.built.placed.inside_iff (small_of_bare hbs (hdata ▸ hattrs .consumer)) hsize hmem
  have hproducers := h.built.placedNext.inside_iff (small_of_bare hbs (hdata ▸ hattrs .producer))
    hsize hmem
  have hroles : grp.Inside shm.mem shm.size ↔ (∀ c ∈ grp.ends .consumer, c.Inside shm.mem shm.size) ∧
      ∀ c ∈ grp.ends .producer, c.Inside shm.mem shm.size := by
    constructor
    · exact fun hall => ⟨hall .consumer, hall .producer⟩
    · rintro ⟨hc, hp⟩ role
      cases role with
      | consumer => exact hc
      | producer => exact hp
  rw [hroles, hconsumers, show grp.ends .producer = grp.ends Role.consumer.other from rfl, hproducers,
    ← fitFrom_bare (grp.data.attrs .consumer), ← fitFrom_bare (grp.data.attrs Role.consumer.other),
    ← endOffset_bare (grp.data.attrs .consumer), hdata, hattrs .consumer,
    show Role.consumer.other = Role.producer from rfl, hattrs .producer, ← fitFrom_append,
    ← List.map_append, fitFrom_bare]
  exact Iff.rfl

/-- The channels of a group made from a request lie in the mapped memory if and only if each of them,
    laid out behind the ones in front of it, ends in it. -/
theorem mapped_inside_iff (hos : os.Posix) (hgiven : Given req size bs)
    (h : groupDeserialize os cls req size fds nFds = .ok d) (hgrp : d.grp = some grp) :
    ∃ (shmfd : Int) (rest : List Int) (mem S : Size), fds = some (shmfd :: rest) ∧
      0 ≤ os.memfdVerify shmfd ∧ os.fstat shmfd = some S ∧ os.mmap shmfd S = some mem ∧
      (grp.Inside mem S ↔ FitFrom cls S 0 (bs.consumers ++ bs.producers)) := by
  obtain ⟨n, data, shmfd, rest, rest', shm, -, -, hfds, -, hmapped, hbs, hattrs, -⟩ :=
    groupDeserialize_some hgiven h hgrp
  exact ⟨shmfd, rest, shm.mem, shm.size, hfds, hmapped.verified, hmapped.stat, hmapped.mmap,
    hmapped.inside_iff hos hbs hattrs⟩

end request

/-- This system behaves like POSIX. -/
theorem Os.granting_posix {size : Size} (h : size.toNat < 2 ^ 63) : (Os.granting size).Posix where
  stat {fd size'} hstat := by
    have heq : size = size' := Option.some.inj hstat
    rwa [← heq]
  mmap {fd size' mem} hmmap := by
    change (if size'.toNat < 2 ^ 63 then some (4096 : Size) else none) = some mem at hmmap
    split at hmmap
    · have heq : (4096 : Size) = mem := Option.some.inj hmmap
      rw [← heq, show (4096 : Size).toNat = 4096 from rfl]
      omega
    · cases hmmap

/-- A group from a request of one channel of three messages of 8 bytes. -/
theorem groupDeserialize_requestOfChannel : (∃ d grp,
    groupDeserialize (Os.granting 4096) 64 (requestOfChannel 8) 36 (some [3]) (some 1) = .ok d ∧
      d.grp = some grp) ∧
    ∃ d grp,
      groupDeserialize (Os.granting 1) 64 (requestOfChannel 8) 36 (some [3]) (some 1) = .ok d ∧
        d.grp = some grp := ⟨⟨_, _, rfl, rfl⟩, ⟨_, _, rfl, rfl⟩⟩

/-- In a page there is room for it. -/
theorem mapped_inside_iff_page : ∃ d grp mem,
    groupDeserialize (Os.granting 4096) 64 (requestOfChannel 8) 36 (some [3]) (some 1) = .ok d ∧
      d.grp = some grp ∧ grp.Inside mem 4096 := by
  obtain ⟨⟨d, grp, h, hgrp⟩, -⟩ := groupDeserialize_requestOfChannel
  obtain ⟨shmfd, rest, mem, S, -, -, hstat, -, hiff⟩ := mapped_inside_iff
    (Os.granting_posix (show (4096 : Size).toNat < 2 ^ 63 by decide)) (requestOfChannel_given 8) h hgrp
  obtain rfl : 4096 = S := Option.some.inj hstat
  exact ⟨d, grp, mem, h, hgrp, hiff.mpr ⟨⟨by decide, fun _ => by decide⟩, trivial⟩⟩

/-- In one byte there is room for the start of it. -/
theorem mapped_outside : ¬ ∀ (os : Os) (cls : Size) (req : List Byte) (size : Size) (bs : Wire)
    (fds : Option (List Int)) (nFds : Option Unsigned) (d : Deserialized) (grp : Group),
    os.Posix → Given req size bs → groupDeserialize os cls req size fds nFds = .ok d →
      d.grp = some grp → ∀ (shmfd : Int) (rest : List Int) (S mem : Size),
        fds = some (shmfd :: rest) → os.fstat shmfd = some S → os.mmap shmfd S = some mem →
          grp.Inside mem S := by
  intro hall
  obtain ⟨-, d, grp, h, hgrp⟩ := groupDeserialize_requestOfChannel
  have hos := Os.granting_posix (show (1 : Size).toNat < 2 ^ 63 by decide)
  obtain ⟨n, data, shmfd, rest, rest', shm, -, -, hfds, -, hmapped, hbs, hattrs, -⟩ :=
    groupDeserialize_some (requestOfChannel_given 8) h hgrp
  have hinside := hall _ 64 _ 36 _ _ _ d grp hos (requestOfChannel_given 8) h hgrp shmfd rest
    shm.size shm.mem hfds hmapped.stat hmapped.mmap
  have hsize : 1 = shm.size := Option.some.inj hmapped.stat
  have hfits := (hmapped.inside_iff hos hbs hattrs).mp hinside
  rw [← hsize] at hfits
  exact absurd hfits.1.words (by decide)

end Rtipc
