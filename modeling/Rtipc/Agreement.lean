/-
  What two peers make of one group.

  The client makes its channels from the attributes, the producers first; the server makes its channels
  from the request, the consumers first.  Four loops count the channels: the two that lay them out, the
  one that writes the table and the one that collects the descriptors.  They all do it in the same
  order, so the two ends of a channel have the same place and the same eventfd.

  1. **What the two sides agree on.**  `peers_agree`: whatever attributes the client has been given
     (`Sendable`) and whatever the server's system answers, if the client's group has been written to a
     request and the server has made a group from it, then channel by channel the two ends have the same
     offset, the same queue length and message size, and eventfds that are one and the same object
     (`ChannelEnd.Joins`), the regions of the channels are disjoint, and together they cover the memory.

  2. **The way there.**  The client's group gives the table of the request (`Wire.Tabled`, from
     `groupSerialize_sent`); the table gives the server's attributes, infos aside
     (`Sent.channels_bare`); and two groups with the same attributes are laid out alike
     (`PlacedFrom.joins`).

  3. **The crux.**  The two sides start from lists in opposite order and with opposite roles, and the
     eventfds are told apart by their position alone.  `PlacedFrom.joins` is the one induction that
     carries all of it: it goes through both lists at once and takes one descriptor for each eventfd.

  4. **That it happens.**  `Sent.received` shows that a server which gets the memory, the descriptors
     and the memory blocks it asks for does return a group, so the statement is not empty.
-/
import Rtipc.HandOver
import Rtipc.InStep
import Rtipc.Mapping

namespace Rtipc

/-! ## Places

  Where a list of channels lies depends on the attributes alone, infos aside. -/

/-- The two ends of a channel; `fd` is here what `ρ fd` is there. -/
structure ChannelEnd.Joins (ρ : Int → Int) (here there : ChannelEnd) : Prop where
  shmOffset : there.shmOffset = here.shmOffset
  nMsgs : there.queue.nMsgs = here.queue.nMsgs
  msgSize : there.queue.msgSize = here.queue.msgSize
  eventfd : here.eventfd < 0 ∧ there.eventfd < 0 ∨ 0 ≤ here.eventfd ∧ there.eventfd = ρ here.eventfd

/-- The bytes of the channels that have been made for these attributes. -/
def channelRegions (cls : Size) (attrs : List (ChannelAttr InfoPtr)) (channels : List ChannelEnd) :
    List Region :=
  List.zipWith (fun attr channel => ⟨channel.shmOffset.toNat, (channelShmSize cls attr).toNat⟩) attrs
    channels

/-- The bytes of all channels of a group. -/
def Group.regions (cls : Size) (grp : Group) : List Region :=
  channelRegions cls (grp.data.attrs .producer ++ grp.data.attrs .consumer)
    (grp.ends .producer ++ grp.ends .consumer)

/-- The number of bytes of the channels. -/
def shmSizes {π : Type} (cls : Size) (attrs : List (ChannelAttr π)) : Nat :=
  (attrs.map fun attr => (channelShmSize cls attr).toNat).sum

section places

variable {cls mem mem' size size' offset : Size} {attrs attrs' : List (ChannelAttr InfoPtr)}
  {channels channels' : List ChannelEnd} {ρ : Int → Int}

/-- Each placed channel comes from one attribute. -/
theorem PlacedFrom.length (h : PlacedFrom cls mem size offset attrs channels) :
    attrs.length = channels.length := by
  induction attrs generalizing offset channels with
  | nil =>
    cases channels with
    | nil => rfl
    | cons channel channels => exact h.elim
  | cons attr attrs ih =>
    cases channels with
    | nil => exact h.elim
    | cons channel channels => exact congrArg Nat.succ (ih h.2)

/-- The ends that are laid out for the same channels from the same place on. -/
theorem PlacedFrom.joins (h : PlacedFrom cls mem size offset attrs channels)
    (h' : PlacedFrom cls mem' size' offset attrs' channels')
    (hbare : attrs'.map ChannelAttr.bare = attrs.map ChannelAttr.bare)
    (hmatch : EventfdsMatch attrs channels) (hmatch' : EventfdsMatch attrs' channels')
    (hfds : eventfds channels' = (eventfds channels).map ρ) :
    List.Forall₂ (ChannelEnd.Joins ρ) channels channels' := by
  -- The induction is on the client's channels; the server's attributes follow it channel by channel.
  induction hmatch generalizing offset attrs' channels' with
  | nil =>
    have hnil : attrs' = [] := List.map_eq_nil_iff.mp hbare
    rw [hnil] at hmatch'
    cases hmatch'
    exact List.Forall₂.nil
  | @cons attr channel attrs channels hfirst hrest ih =>
    cases hmatch' with
    | nil => cases hbare
    | @cons attr' channel' attrs' channels' hfirst' hrest' =>
      obtain ⟨hplaced, hnext⟩ := h
      obtain ⟨hplaced', hnext'⟩ := h'
      rw [List.map_cons, List.map_cons] at hbare
      obtain ⟨hattr, hattrs⟩ := List.cons.inj hbare
      obtain ⟨hmsg, hadd, hfd⟩ := ChannelAttr.bare_inj hattr
      have hlen : channelQueueLen attr' = channelQueueLen attr := by
        rw [channelQueueLen, channelQueueLen, hadd]
      have hsize : channelShmSize cls attr' = channelShmSize cls attr := by
        rw [channelShmSize, channelShmSize, hlen, hmsg]
      rw [hsize] at hnext'
      -- The same offset and the same queue,
      have hplace : channel'.shmOffset = channel.shmOffset :=
        hplaced'.shmOffset.trans hplaced.shmOffset.symm
      have hnMsgs : channel'.queue.nMsgs = channel.queue.nMsgs := by
        rw [hplaced'.queue, hplaced.queue]
        exact hlen
      have hmsgSize : channel'.queue.msgSize = channel.queue.msgSize := by
        rw [hplaced'.queue, hplaced.queue]
        exact hmsg
      -- and the eventfd, if there is one, is the next in the array.
      rcases hfirst with ⟨htrue, hpos⟩ | ⟨hfalse, hneg⟩
      · rcases hfirst' with ⟨-, hpos'⟩ | ⟨hfalse', -⟩
        · rw [eventfds_cons_of_nonneg hpos, eventfds_cons_of_nonneg hpos', List.map_cons] at hfds
          obtain ⟨hfirstFd, hfds⟩ := List.cons.inj hfds
          exact List.Forall₂.cons ⟨hplace, hnMsgs, hmsgSize, Or.inr ⟨hpos, hfirstFd⟩⟩
            (ih hnext hnext' hattrs hrest' hfds)
        · rw [hfd, htrue] at hfalse'
          cases hfalse'
      · rcases hfirst' with ⟨htrue', -⟩ | ⟨-, hneg'⟩
        · rw [hfd, hfalse] at htrue'
          cases htrue'
        · have hlt : channel.eventfd < 0 := by omega
          have hlt' : channel'.eventfd < 0 := by omega
          rw [eventfds_cons_of_neg hlt, eventfds_cons_of_neg hlt'] at hfds
          exact List.Forall₂.cons ⟨hplace, hnMsgs, hmsgSize, Or.inl ⟨hlt, hlt'⟩⟩
            (ih hnext hnext' hattrs hrest' hfds)

/-- The end of the channels as a number, if nothing wraps. -/
theorem toNat_endOffset {π : Type} {attrs : List (ChannelAttr π)}
    (hfits : offset.toNat + shmSizes cls attrs < 2 ^ 64) :
    (endOffset cls offset attrs).toNat = offset.toNat + shmSizes cls attrs := by
  induction attrs generalizing offset with
  | nil => rfl
  | cons attr attrs ih =>
    rw [shmSizes, List.map_cons, List.sum_cons, ← shmSizes] at hfits ⊢
    have hnext : (offset + channelShmSize cls attr).toNat =
        offset.toNat + (channelShmSize cls attr).toNat := by
      rw [BitVec.toNat_add]
      exact Nat.mod_eq_of_lt (by omega)
    rw [endOffset, List.foldl_cons, ← endOffset, ih (by omega), hnext, Nat.add_assoc]

/-- The channels lie one behind the other, as long as the offset does not wrap around. -/
theorem PlacedFrom.regions (h : PlacedFrom cls mem size offset attrs channels)
    (hfits : offset.toNat + shmSizes cls attrs < 2 ^ 64) : channelRegions cls attrs channels =
      Region.consecutive offset.toNat (attrs.map fun attr => (channelShmSize cls attr).toNat) := by
  induction attrs generalizing offset channels with
  | nil => rfl
  | cons attr attrs ih =>
    cases channels with
    | nil => exact h.elim
    | cons channel channels =>
      obtain ⟨hplaced, hrest⟩ := h
      rw [shmSizes, List.map_cons, List.sum_cons, ← shmSizes] at hfits
      have hnext : (offset + channelShmSize cls attr).toNat =
          offset.toNat + (channelShmSize cls attr).toNat := by
        rw [BitVec.toNat_add]
        exact Nat.mod_eq_of_lt (by omega)
      have hregions := ih hrest (by omega)
      rw [hnext] at hregions
      rw [channelRegions, List.zipWith_cons_cons, hplaced.shmOffset, List.map_cons,
        Region.consecutive, ← hregions]
      rfl

/-- Two runs of channels, one behind the other. -/
theorem PlacedFrom.append (h : PlacedFrom cls mem size offset attrs channels)
    (h' : PlacedFrom cls mem size (endOffset cls offset attrs) attrs' channels') :
    PlacedFrom cls mem size offset (attrs ++ attrs') (channels ++ channels') := by
  induction attrs generalizing offset channels with
  | nil =>
    cases channels with
    | nil => exact h'
    | cons channel channels => exact h.elim
  | cons attr attrs ih =>
    cases channels with
    | nil => exact h.elim
    | cons channel channels => exact ⟨h.1, ih h.2 h'⟩

/-- The sizes of two lists of channels add up. -/
theorem shmSizes_append {π : Type} (attrs attrs' : List (ChannelAttr π)) :
    shmSizes cls (attrs ++ attrs') = shmSizes cls attrs + shmSizes cls attrs' := by
  rw [shmSizes, List.map_append, List.sum_append, shmSizes, shmSizes]

/-- The infos have no part in the size. -/
theorem shmSizes_bare {π : Type} (attrs : List (ChannelAttr π)) :
    shmSizes cls (attrs.map ChannelAttr.bare) = shmSizes cls attrs := by
  rw [shmSizes, List.map_map, shmSizes]
  rfl

/-- The loop over the sizes stops behind the last channel. -/
theorem addChannelShmSizes_eq {π : Type} (attrs tail : List (ChannelAttr π)) (size : Size) :
    addChannelShmSizes cls attrs.length (attrs ++ tail) size = .ok (endOffset cls size attrs) := by
  induction attrs generalizing size with
  | nil => rfl
  | cons attr attrs ih =>
    rw [List.length_cons, List.cons_append, addChannelShmSizes, ih]
    rfl

/-- The size of the shared memory, if it does not wrap around. -/
theorem toNat_calcShmSize {π : Type} {arrayC arrayP : Option (List (ChannelAttr π))}
    {consumers producers : List (ChannelAttr π)} {size : Size}
    (hc : Lists arrayC consumers) (hp : Lists arrayP producers)
    (hfits : shmSizes cls (producers ++ consumers) < 2 ^ 64)
    (h : calcShmSize cls arrayC arrayP = .ok size) :
    size.toNat = shmSizes cls (producers ++ consumers) := by
  obtain ⟨nConsumers, hnC, h⟩ := checkedBind_ok.mp h
  obtain ⟨nProducers, hnP, h⟩ := checkedBind_ok.mp h
  obtain ⟨tailC, htailC⟩ := hc.elements
  obtain ⟨tailP, htailP⟩ := hp.elements
  rw [shmSizes_append] at hfits ⊢
  have hfirst := @toNat_endOffset cls 0 _ consumers (by rw [show (0 : Size).toNat = 0 from rfl]; omega)
  rw [show (0 : Size).toNat = 0 from rfl, Nat.zero_add] at hfirst
  rw [hc.length_of_count hnC, hp.length_of_count hnP, htailC, htailP, addChannelShmSizes_eq] at h
  obtain ⟨size', hsize', h⟩ := checkedBind_ok.mp h
  cases hsize'
  rw [addChannelShmSizes_eq] at h
  cases h
  rw [toNat_endOffset (by omega), hfirst, Nat.add_comm]

end places

/-! ## What the server reads -/

section table

variable {bs : Wire} {cls : Size} {info : Info (List Byte)}
  {producers consumers : List (ChannelAttr (List Byte))}

/-- The server has the channels of the client, with the roles exchanged. -/
theorem Wire.Tabled.channels_bare (h : bs.Tabled cls info producers consumers)
    (hle : 20 + 16 * (producers ++ consumers).length ≤ bs.length)
    (hsmall : ∀ attr ∈ producers ++ consumers, attr.msgSize.toNat < 2 ^ 32) :
    bs.consumers.map ChannelAttr.bare = producers.map ChannelAttr.bare ∧
      bs.producers.map ChannelAttr.bare = consumers.map ChannelAttr.bare := by
  have htables := (Wire.tables_full (h.count_eq ▸ hle)).1
  have hentry : ∀ attr ∈ producers ++ consumers,
      (Entry.attr (π := InfoPtr) (Entry.ofAttr attr)).bare = attr.bare := by
    intro attr hattr
    have hmsg : ((attr.msgSize.setWidth 32).setWidth 64 : Size) = attr.msgSize := by
      refine BitVec.eq_of_toNat_eq ?_
      rw [BitVec.toNat_setWidth, BitVec.toNat_setWidth, Nat.mod_eq_of_lt (hsmall attr hattr),
        Nat.mod_eq_of_lt attr.msgSize.isLt]
    have hfd : ((if attr.eventfd then 1 else 0 : Unsigned) != 0) = attr.eventfd := by
      cases attr.eventfd <;> rfl
    show ChannelAttr.mk ((attr.msgSize.setWidth 32).setWidth 64) attr.addMsgs
      ((if attr.eventfd then 1 else 0 : Unsigned) != 0) _ = _
    rw [hmsg, hfd]
    rfl
  have hall : (bs.consumers ++ bs.producers).map ChannelAttr.bare =
      (producers ++ consumers).map ChannelAttr.bare := by
    rw [htables, h.entries_eq, List.map_map, List.map_map]
    exact List.map_congr_left hentry
  rw [List.map_append, List.map_append] at hall
  refine List.append_inj hall ?_
  rw [List.length_map, List.length_map, bs.length_channels.1, h.toNat_nConsumers]

end table

/-! ## The two sides

  The induction goes through the lists of both sides at once. -/

/-- The sizes and the numbers of a group that can be sent: an entry has 32 bits for the size of the
    messages, the number of the channels is counted in 32 bits and the offsets in 64. -/
structure Sendable (cls : Size) (attr : GroupAttr (List Byte))
    (consumers producers : List (ChannelAttr (List Byte))) : Prop where
  listsC : Lists attr.consumers consumers
  listsP : Lists attr.producers producers
  count : (producers ++ consumers).length < 2 ^ 32
  msgSize : ∀ a ∈ producers ++ consumers, a.msgSize.toNat < 2 ^ 32
  shmSize : shmSizes cls (producers ++ consumers) < 2 ^ 64

section peers

variable {osC osS : Os} {cls : Size} {attr : GroupAttr (List Byte)} {client server : Group}
  {events : List Event} {consumers producers : List (ChannelAttr (List Byte))} {req : List Byte}
  {size : Size} {fds : List Int} {nFds : Option Unsigned} {s : Serialized} {ρ : Int → Int}
  {cs ps : List (ChannelAttr InfoPtr)} {shm : Shm}

/-- An array lists one list only. -/
theorem Lists.unique {π : Type} {array : Option (List (ChannelAttr π))}
    {attrs attrs' : List (ChannelAttr π)} (h : Lists array attrs) (h' : Lists array attrs') :
    attrs = attrs' := h.usedChannels.symm.trans h'.usedChannels

/-- A client that has made its group and written the request, right away. -/
structure Sent (osC : Os) (cls : Size) (attr : GroupAttr (List Byte))
    (consumers producers : List (ChannelAttr (List Byte))) (cs ps : List (ChannelAttr InfoPtr))
    (client : Group) (shm : Shm) (size : Size) (s : Serialized) (n : Unsigned) : Prop where
  created : Group.Created osC cls attr consumers producers cs ps client shm
  given : Given s.req size (s.req.take size.toNat)
  fds : s.fds.take n.toNat =
    shm.fd :: (eventfds (client.ends .producer) ++ eventfds (client.ends .consumer))
  count : n.toNat = 1 + (eventfds (client.ends .producer) ++ eventfds (client.ends .consumer)).length
  nFds : s.nFds = some n
  table : ps ++ cs = [] ∧ (s.req.take size.toNat).length < 20 ∨
    20 + 16 * (ps ++ cs).length ≤ (s.req.take size.toNat).length ∧
      Wire.Tabled (s.req.take size.toNat) cls client.data.view.info
        (ps.map (ChannelAttr.resolve (client.data.memInfos.getD [])))
        (cs.map (ChannelAttr.resolve (client.data.memInfos.getD [])))
  room : client.data.view.info.Valid →
    (∀ a ∈ (ps ++ cs).map (ChannelAttr.resolve (client.data.memInfos.getD [])), a.info.Valid) →
    (ps ++ cs ≠ [] ∨ 20 ≤ size.toNat) →
    20 + 16 * (ps ++ cs).length + (client.data.view.info.bytes.length +
      (infosImage ((ps ++ cs).map (ChannelAttr.resolve (client.data.memInfos.getD [])))).length) ≤
        (s.req.take size.toNat).length

/-- A successful `ri_group_serialize` has written the request of the attribute and handed over the
    descriptors. -/
theorem groupSerialize_sent (hsend : Sendable cls attr consumers producers)
    (hclient : groupFromAttr osC cls attr = .ok (some client, events))
    (hsize : size.toNat ≤ req.length) (hsmall : req.length ≤ ptrdiffMax)
    (hserialize : groupSerialize cls client req size fds nFds = .ok s) (hr : 0 ≤ s.r) :
    ∃ cs ps shm n, Sent osC cls attr consumers producers cs ps client shm size s n := by
  obtain ⟨consumers', producers', cs, ps, shm, hcreated⟩ := groupFromAttr_some hclient
  obtain rfl := hsend.listsC.unique hcreated.data.listsC
  obtain rfl := hsend.listsP.unique hcreated.data.listsP
  -- The request has been written, and the descriptors collected behind the shared memory's.
  obtain ⟨m, r, hwrite, hcollect, hr', hnFds⟩ := groupSerialize_some hserialize hr
  obtain ⟨shm', hshm', hlength, htake⟩ := collectFds_collected hcollect hr'
  rw [hcreated.built.mapping] at hshm'
  cases hshm'
  have hcount := hsend.count
  -- The table ends before the infos begin.
  have hinfos : client.data.InfosBehind := by
    rw [List.length_append] at hcount
    refine Or.inl ?_
    rw [hcreated.data.nConsumers, hcreated.data.nProducers]
    exact hcount
  obtain ⟨hlen, htable⟩ := hcreated.tabled hinfos hsmall hwrite hr
  refine ⟨cs, ps, shm, _, hcreated, ⟨hlen ▸ hsize, hlen ▸ hsmall, rfl⟩, htake, hlength, hnFds, htable,
    fun hinfo hinfos' hne => ?_⟩
  obtain ⟨hlistsC, hlistsP⟩ := hcreated.data.view_lists
  rw [List.map_append] at hinfos' ⊢
  obtain ⟨hroom, -⟩ := requestWrite_room hlistsP hlistsC hinfo.backed (fun a ha => (hinfos' a ha).backed) (by
    rw [List.length_append, List.length_map, List.length_map, hcreated.data.length.2,
      hcreated.data.length.1, ← List.length_append]
    exact hcount) hsize hsmall (by rw [← List.map_append, ne_eq, List.map_eq_nil_iff]; exact hne) hwrite hr
  rw [infosLength, ← List.map_append, List.length_map, List.map_append] at hroom
  rw [List.length_take, hlen, Nat.min_eq_left hsize]
  exact hroom

/-- What the table says is what the client has. -/
theorem Sent.channels_bare {n : Unsigned}
    (h : Sent osC cls attr consumers producers cs ps client shm size s n)
    (hsend : Sendable cls attr consumers producers)
    (hlen : 20 ≤ (s.req.take size.toNat).length) (role : Role) :
    (Wire.channels (s.req.take size.toNat) role.other).map ChannelAttr.bare =
      (client.data.attrs role).map ChannelAttr.bare := by
  obtain ⟨hattrsC, hattrsP⟩ := h.created.data.attrs
  -- The table of the request holds what each channel says, but for its info.
  rcases h.table with ⟨-, hshort⟩ | ⟨hle, htabled⟩
  · omega
  set resolve := ChannelAttr.resolve (client.data.memInfos.getD []) with hresolve
  have hsmallP := forall_of_bare (P := fun a => a.msgSize.toNat < 2 ^ 32) h.created.data.copiedP
    fun a ha => hsend.msgSize a (List.mem_append_left _ ha)
  have hsmallC := forall_of_bare (P := fun a => a.msgSize.toNat < 2 ^ 32) h.created.data.copiedC
    fun a ha => hsend.msgSize a (List.mem_append_right _ ha)
  obtain ⟨hconsumers, hproducers⟩ := htabled.channels_bare
    (by rw [← List.map_append, List.length_map]; exact hle) fun a ha => by
      rw [← List.map_append] at ha
      obtain ⟨source, hsource, rfl⟩ := List.mem_map.mp ha
      rcases List.mem_append.mp hsource with hsource | hsource
      · exact hsmallP source hsource
      · exact hsmallC source hsource
  have hbare (attrs : List (ChannelAttr InfoPtr)) :
      (attrs.map resolve).map ChannelAttr.bare = attrs.map ChannelAttr.bare := by
    rw [List.map_map]
    rfl
  rw [hbare] at hconsumers hproducers
  -- Consumers of the client are producers of the request, and the other way round.
  cases role with
  | producer =>
    rw [hattrsP]
    exact hconsumers
  | consumer =>
    rw [hattrsC]
    exact hproducers

/-- The number of eventfds does not depend on the infos. -/
theorem countP_bare {attrs attrs' : List (ChannelAttr InfoPtr)}
    (h : attrs.map ChannelAttr.bare = attrs'.map ChannelAttr.bare) :
    attrs.countP (·.eventfd) = attrs'.countP (·.eventfd) := by
  have hbare (attrs : List (ChannelAttr InfoPtr)) :
      (attrs.map ChannelAttr.bare).countP (·.eventfd) = attrs.countP (·.eventfd) := by
    rw [List.countP_map]
    rfl
  rw [← hbare, h, hbare]

/-- The two ends of each channel join, whatever the server makes the group with. -/
theorem Sent.joins {n : Unsigned} {d : Deserialized}
    (h : Sent osC cls attr consumers producers cs ps client shm size s n)
    (hsend : Sendable cls attr consumers producers)
    (hserver : groupDeserialize osS cls s.req size (some ((s.fds.take n.toNat).map ρ)) (some n) = .ok d)
    (hgrp : d.grp = some server) (role : Role) :
    List.Forall₂ (ChannelEnd.Joins ρ) (client.ends role) (server.ends role.other) := by
  obtain ⟨after, hheld, -, -, -, -⟩ := groupDeserialize_fds h.given hserver hgrp
  obtain ⟨_, data, _, _, _, shmS, -, -, -, -, hmapped, hheaded, hattrs, -⟩ :=
    groupDeserialize_some h.given hserver hgrp
  have hdata : server.data = data := hmapped.data
  have hbare (role : Role) : (server.data.attrs role.other).map ChannelAttr.bare =
      (client.data.attrs role).map ChannelAttr.bare := by
    rw [hdata, hattrs]
    exact h.channels_bare hsend hheaded.length role
  have hbuilt := h.created.built
  have hbuiltS := hmapped.built
  have hlen (role : Role) : (eventfds (server.ends role.other)).length =
      (eventfds (client.ends role)).length := by
    rw [(hbuiltS.eventfds _).length_eventfds, (hbuilt.eventfds _).length_eventfds]
    exact countP_bare (hbare role)
  -- the descriptors are those of the producers and then those of the consumers
  rw [h.fds, Group.held_eq hbuiltS.mapping, List.map_cons, List.map_append, List.cons_append,
    List.append_assoc] at hheld
  obtain ⟨-, hfds⟩ := List.cons.inj hheld
  obtain ⟨hfdsP, hfdsC⟩ := List.append_inj hfds (by rw [List.length_map, ← hlen .producer]; rfl)
  have hafter := congrArg List.length hfdsC
  have hlenC := hlen .consumer
  rw [show Role.consumer.other = Role.producer from rfl] at hlenC
  rw [List.length_append, List.length_map, hlenC] at hafter
  obtain rfl : after = [] := List.length_eq_zero_iff.mp (by omega)
  rw [List.append_nil] at hfdsC
  cases role with
  | producer =>
    exact hbuilt.placed.joins hbuiltS.placed (hbare .producer) (hbuilt.eventfds _)
      (hbuiltS.eventfds _) hfdsP.symm
  | consumer =>
    have hend : endOffset cls 0 (server.data.attrs .consumer) =
        endOffset cls 0 (client.data.attrs .producer) := by
      rw [← endOffset_bare, ← endOffset_bare (client.data.attrs .producer)]
      exact congrArg _ (hbare .producer)
    have hnext := hbuiltS.placedNext
    rw [hend] at hnext
    exact hbuilt.placedNext.joins hnext (hbare .consumer) (hbuilt.eventfds _)
      (hbuiltS.eventfds _) hfdsC.symm

/-- What the request needs to be accepted: a cacheline size of 16 bits, infos of 32 bits that have all
    been copied into the block, and space for all fields. -/
structure Readable (cls : Size) (attr : GroupAttr (List Byte))
    (consumers producers : List (ChannelAttr (List Byte))) (size : Size) : Prop where
  cacheline : cls.toNat < 2 ^ 16
  info : attr.info.size.toNat < 2 ^ 32
  infos : ∀ a ∈ producers ++ consumers, a.info.size.toNat < 2 ^ 32
  inOrder : AbsentLast (infosOf attr consumers producers)
  room : producers ++ consumers ≠ [] ∨ 20 ≤ size.toNat

/-- The request is complete, and it is safe to parse. -/
theorem Sent.complete {n : Unsigned}
    (h : Sent osC cls attr consumers producers cs ps client shm size s n)
    (hsend : Sendable cls attr consumers producers) (hread : Readable cls attr consumers producers size) :
    Wire.Complete (s.req.take size.toNat) cls ∧ Wire.Safe (s.req.take size.toNat) := by
  have hdata := h.created.data
  obtain ⟨hlenC, hlenP⟩ := hdata.length
  set resolve := ChannelAttr.resolve (client.data.memInfos.getD []) with hresolve
  -- The infos are those of the attribute, in one block.
  have hinfos := hdata.infos_valid hread.inOrder (by
    rw [infosOf, ← List.map_append, List.forall_mem_cons, List.forall_mem_map]
    exact ⟨hread.info, fun a ha => hread.infos a (List.mem_append.mpr (List.mem_append.mp ha).symm)⟩)
  rw [List.forall_mem_cons, ← List.map_append, List.forall_mem_map] at hinfos
  obtain ⟨hview, hinfos⟩ := hinfos
  have hbareP := forall_of_bare (P := fun a => a.msgSize ≠ 0 ∧ a.msgSize.toNat < 2 ^ 32) hdata.copiedP
    fun a ha => ⟨hsend.listsP.used a ha, hsend.msgSize a (List.mem_append_left _ ha)⟩
  have hbareC := forall_of_bare (P := fun a => a.msgSize ≠ 0 ∧ a.msgSize.toNat < 2 ^ 32) hdata.copiedC
    fun a ha => ⟨hsend.listsC.used a ha, hsend.msgSize a (List.mem_append_right _ ha)⟩
  -- Every entry of the table is one the server can read.
  have hall : ∀ a ∈ (ps ++ cs).map resolve, a.Valid := by
    intro a ha
    obtain ⟨source, hsource, rfl⟩ := List.mem_map.mp ha
    have hinfo := hinfos source (List.mem_append.mpr (List.mem_append.mp hsource).symm)
    rcases List.mem_append.mp hsource with hsource | hsource
    · exact ⟨(hbareP source hsource).1, (hbareP source hsource).2, hinfo⟩
    · exact ⟨(hbareC source hsource).1, (hbareC source hsource).2, hinfo⟩
  have hne : ps ++ cs ≠ [] ∨ 20 ≤ size.toNat := by
    refine hread.room.imp_left fun hne hnil => hne (List.length_eq_zero_iff.mp ?_)
    rw [List.length_append, ← hlenP, ← hlenC, ← List.length_append, hnil]
    rfl
  -- The request ends behind the last info.
  have hroom := h.room hview (fun a ha => (hall a ha).info) hne
  have htabled : Wire.Tabled (s.req.take size.toNat) cls client.data.view.info (ps.map resolve)
      (cs.map resolve) := by
    rcases h.table with ⟨-, hshort⟩ | ⟨-, htabled⟩
    · omega
    · exact htabled
  have hlength : (ps.map resolve ++ cs.map resolve).length = (ps ++ cs).length := by
    rw [← List.map_append, List.length_map]
  rw [List.map_append] at hall hroom
  have hcomplete := htabled.complete hread.cacheline hview hall (by rw [hlength]; exact hroom)
  refine ⟨hcomplete, hcomplete.safe h.given.length_le ?_ ?_ (htabled.used hall (by omega))⟩
  · intro hmax
    have hcount := htabled.toNat_nConsumers
    rw [List.length_map, hlenP, ← hdata.nProducers] at hcount
    exact hdata.sentinelP ((BitVec.eq_of_toNat_eq hcount).symm.trans hmax)
  · intro hmax
    have hcount := htabled.toNat_nProducers
    rw [List.length_map, hlenC, ← hdata.nConsumers] at hcount
    exact hdata.sentinelC ((BitVec.eq_of_toNat_eq hcount).symm.trans hmax)

/-- The channels are apart, and they are all of the shared memory. -/
theorem Sent.regions {n : Unsigned}
    (h : Sent osC cls attr consumers producers cs ps client shm size s n)
    (hsend : Sendable cls attr consumers producers) :
    (client.regions cls).Pairwise Region.Apart ∧
      ∀ x, (∃ r ∈ client.regions cls, x ∈ r) ↔ x < shmSizes cls (producers ++ consumers) := by
  obtain ⟨hattrsC, hattrsP⟩ := h.created.data.attrs
  have hbuilt := h.created.built
  have hplaced := hbuilt.placed.append hbuilt.placedNext
  have hsizes : shmSizes cls (client.data.attrs .producer ++ client.data.attrs .consumer) =
      shmSizes cls (producers ++ consumers) := by
    rw [hattrsC, hattrsP, ← shmSizes_bare, ← shmSizes_bare (producers ++ consumers), List.map_append,
      List.map_append, h.created.data.copiedP, h.created.data.copiedC]
  have hfits := hsend.shmSize
  rw [← hsizes] at hfits ⊢
  have hregions := hplaced.regions (by
    rw [show (0 : Size).toNat = 0 from rfl, Nat.zero_add]
    exact hfits)
  rw [Group.regions]
  rw [show Role.producer.other = Role.consumer from rfl] at hregions
  rw [hregions]
  refine ⟨Region.consecutive_apart, fun x => ?_⟩
  rw [Region.mem_consecutive, show (0 : Size).toNat = 0 from rfl, Nat.zero_add, ← shmSizes]
  exact and_iff_right (Nat.zero_le x)

end peers

/-! ## A server that gets what it asks for

  Everything is granted; that the channels lie inside the memory follows from the layout of the
  client. -/

/-- The server gets memory, the shared memory that has been sent, and each descriptor is accepted. -/
structure Os.Receives (os : Os) (ρ : Int → Int) (shm : Shm) : Prop where
  tables : os.tables.InRange
  blocks : ∀ b, os.block b = true
  memfd : 0 ≤ os.memfdVerify (ρ shm.fd)
  stat : os.fstat (ρ shm.fd) = some shm.size
  mmap : ∃ mem, os.mmap (ρ shm.fd) shm.size = some mem
  mlock : 0 ≤ os.mlock
  eventfds : ∀ fd, 0 ≤ fd → 0 ≤ ρ fd ∧ 0 ≤ os.eventfdVerify (ρ fd) ∧ 0 ≤ os.setNonblocking (ρ fd)

section receives

variable {os : Os} {cls : Size} {role : Role} {i : Nat} {attr : ChannelAttr InfoPtr} {ρ : Int → Int}
  {nFds : Unsigned}

/-- A channel is mapped if there is memory and its offset lies inside. -/
theorem channelMap_ok (eventfd : Int) {shm : Shm} {offset : Size} (hblocks : ∀ b, os.block b = true)
    (hinside : offset < shm.size) :
    ∃ channel events, channelMap os cls role i attr eventfd shm offset = (some channel, events) := by
  obtain ⟨made, hqueue⟩ := @queueNew_granted os cls role i attr shm offset (hblocks _) hinside
  rw [channelMap, if_pos (hblocks _), hqueue]
  exact ⟨_, _, rfl⟩

/-- A granted eventfd is taken, and its place in the array is cleared. -/
theorem takeEventfd_ok {idx : Unsigned} {fds : List Int} {fd : Int}
    (h : os.GrantsEventfd nFds fds idx fd) :
    takeEventfd os idx fds nFds = .ok (fd, fds.set idx.toNat (-1)) := by
  have hneg {x : Int} (hx : 0 ≤ x) : ¬ x < 0 := not_lt.mpr hx
  rw [takeEventfd, if_neg (BitVec.not_le.mpr h.inside), h.entry]
  dsimp only
  rw [if_neg (hneg h.nonneg), if_neg (hneg h.verified), if_neg (hneg h.nonblocking)]
  rfl

/-- So the step of `ri_group_map` succeeds. -/
theorem mapChannel_ok {s : FdCursor} (hblocks : ∀ b, os.block b = true)
    (hinside : s.offset < s.shm.size)
    (heventfd : attr.eventfd = true → ∃ fd, os.GrantsEventfd nFds s.fds s.idx fd) :
    ∃ channel s' events, mapChannel os cls nFds role i attr s = .ok (some channel, s', events) := by
  cases hattr : attr.eventfd with
  | true =>
    obtain ⟨fd, hfd⟩ := heventfd hattr
    obtain ⟨⟨channel, shm⟩, events, hmap⟩ :=
      @channelMap_ok os cls role i attr fd s.shm s.offset hblocks hinside
    have hpos : ¬ (attr.eventfd = true ∧ fd < 0) := fun hneg => absurd hneg.2 (not_lt.mpr hfd.nonneg)
    refine ⟨channel, { s with
      fds := s.fds.set s.idx.toNat (-1)
      idx := s.idx + 1
      shm := shm
      offset := s.offset + channelShmSize cls attr }, events, ?_⟩
    -- The eventfd is taken first; the mapping itself cannot fail.
    have htake : s.takeEventfd os nFds attr = .ok (fd, { s with
        fds := s.fds.set s.idx.toNat (-1)
        idx := s.idx + 1 }) := by
      rw [FdCursor.takeEventfd, if_pos hattr, takeEventfd_ok hfd]
      rfl
    refine checkedBind_ok.mpr ⟨_, htake, ?_⟩
    dsimp only
    rw [if_neg hpos, hmap]
    rfl
  | false =>
    obtain ⟨⟨channel, shm⟩, events, hmap⟩ :=
      @channelMap_ok os cls role i attr (-1) s.shm s.offset hblocks hinside
    have hfalse : ¬ attr.eventfd = true := by rw [hattr]; decide
    refine ⟨channel, { s with
      shm := shm
      offset := s.offset + channelShmSize cls attr }, events, ?_⟩
    have htake : s.takeEventfd os nFds attr = .ok (-1, s) := by
      rw [FdCursor.takeEventfd, if_neg hfalse]
      rfl
    refine checkedBind_ok.mpr ⟨_, htake, ?_⟩
    dsimp only
    rw [if_neg fun hand => hfalse hand.1, hmap]
    rfl

/-- Where a loop of the server is: it has taken the descriptors in front, and the ones that are left have
    been sent for the channels that are left. -/
structure FdCursor.Awaits (s : FdCursor) (nFds : Unsigned) (size offset : Size) (fds : List Int) :
    Prop where
  size : s.shm.size = size
  offset : s.offset = offset
  fds : ∃ before, s.fds = before ++ fds ∧ s.idx.toNat = before.length ∧
    before.length + fds.length ≤ nFds.toNat

/-- Replacing the first element behind a prefix. -/
theorem set_append_cons (before : List Int) (fd fd' : Int) (after : List Int) :
    (before ++ fd :: after).set before.length fd' = before ++ [fd'] ++ after := by
  rw [List.set_append_right _ _ le_rfl, Nat.sub_self, List.append_assoc]
  rfl

variable (role i) in
/-- A loop makes all channels, if the client has made them. -/
theorem fillChannels_received {shm : Shm} (hos : os.Receives ρ shm) {mem size : Size}
    {attrs attrs' tail : List (ChannelAttr InfoPtr)} {channels : List ChannelEnd} {offset : Size}
    {after : List Int} {s : FdCursor} (hplaced : PlacedFrom cls mem size offset attrs channels)
    (hmatch : EventfdsMatch attrs channels)
    (hbare : attrs'.map ChannelAttr.bare = attrs.map ChannelAttr.bare)
    (hs : s.Awaits nFds size offset ((eventfds channels).map ρ ++ after)) :
    ∃ made s' events, fillChannels (mapChannel os cls nFds role) attrs'.length i (attrs' ++ tail) s =
      .ok (true, made, s', events) ∧ s'.Awaits nFds size (endOffset cls offset attrs) after := by
  -- The induction is on the channels of the client; the invariant is what is still to be taken from
  -- the array.
  induction hmatch generalizing i offset attrs' s with
  | nil =>
    obtain rfl : attrs' = [] := List.map_eq_nil_iff.mp hbare
    exact ⟨[], s, [], rfl, hs⟩
  | @cons attr channel attrs channels hfirst hrest ih =>
    cases attrs' with
    | nil => cases hbare
    | cons attr' attrs' =>
      obtain ⟨hplace, hnext⟩ := hplaced
      rw [List.map_cons, List.map_cons] at hbare
      obtain ⟨hattr, hattrs⟩ := List.cons.inj hbare
      obtain ⟨hmsg, hadd, hfd⟩ := ChannelAttr.bare_inj hattr
      have hsize : channelShmSize cls attr' = channelShmSize cls attr := by
        rw [channelShmSize, channelShmSize, channelQueueLen, channelQueueLen, hadd, hmsg]
      obtain ⟨hssize, hsoffset, before, hsfds, hsidx, hsle⟩ := hs
      have hidx := s.idx.isLt
      have hinside : s.offset < s.shm.size := by
        rw [hssize, hsoffset]
        exact hplace.inside
      -- The eventfd awaited next is the one at the index of the cursor.
      have hgrants : attr'.eventfd = true → ∃ fd, os.GrantsEventfd nFds s.fds s.idx fd := by
        intro htrue
        rcases hfirst with ⟨-, hpos⟩ | ⟨hfalse, -⟩
        · obtain ⟨hnonneg, hverified, hnonblocking⟩ := hos.eventfds _ hpos
          rw [eventfds_cons_of_nonneg hpos, List.map_cons, List.cons_append] at hsfds hsle
          refine ⟨ρ channel.eventfd, ?_, ?_, hnonneg, hverified, hnonblocking⟩
          · rw [BitVec.lt_def, hsidx]
            rw [List.length_cons] at hsle
            omega
          · rw [hsfds, hsidx, List.getElem?_append_right le_rfl, Nat.sub_self]
            rfl
        · rw [hfd, hfalse] at htrue
          cases htrue
      obtain ⟨made, t, events, hstep⟩ := @mapChannel_ok os cls role i attr' nFds s hos.blocks hinside
        hgrants
      obtain ⟨-, -, hround⟩ := mapChannel_some hstep
      -- Behind the step the next eventfd is awaited.
      have ht : t.Awaits nFds size (offset + channelShmSize cls attr)
          ((eventfds channels).map ρ ++ after) := by
        have htsize : t.shm.size = size := by
          rw [hround.shm]
          exact hssize
        have htoffset : t.offset = offset + channelShmSize cls attr := by
          rw [hround.offset, hsoffset, hsize]
        rcases hfirst with ⟨htrue, hpos⟩ | ⟨hfalse, hneg⟩
        · obtain ⟨-, htfds, htidx⟩ := hround.eventfd (hfd.trans htrue)
          rw [eventfds_cons_of_nonneg hpos, List.map_cons, List.cons_append] at hsfds hsle
          rw [List.length_cons] at hsle
          have hn := nFds.isLt
          refine ⟨htsize, htoffset, before ++ [-1], ?_, ?_, ?_⟩
          · rw [htfds, hsfds, hsidx, set_append_cons]
          · rw [htidx, BitVec.toNat_add, hsidx, show (1 : Unsigned).toNat = 1 from rfl,
              List.length_append, List.length_singleton]
            exact Nat.mod_eq_of_lt (by omega)
          · rw [List.length_append, List.length_singleton]
            omega
        · obtain ⟨-, htfds, htidx⟩ := hround.without (hfd.trans hfalse)
          rw [eventfds_cons_of_neg (show channel.eventfd < 0 by omega)] at hsfds hsle
          exact ⟨htsize, htoffset, before, htfds.trans hsfds, htidx ▸ hsidx, hsle⟩
      obtain ⟨rest, s', events', hfill, hs'⟩ := ih (i := i + 1) hnext hattrs ht
      refine ⟨made :: rest, s', events ++ events', ?_, hs'⟩
      rw [List.length_cons, List.cons_append]
      refine checkedBind_ok.mpr ⟨_, hstep, ?_⟩
      exact checkedBind_ok.mpr ⟨_, hfill, rfl⟩

/-- Both loops make all channels. -/
theorem groupMapChannels_received {client : Group} {shm shm' : Shm} {data : GroupData}
    {fds : List Int} (hos : os.Receives ρ shm) (hbuilt : client.Built cls .producer shm)
    (hlen : ∀ role, (data.attrs role).length = (data.count role).toNat)
    (hbare : ∀ role, (data.attrs role.other).map ChannelAttr.bare =
      (client.data.attrs role).map ChannelAttr.bare)
    (hfds : fds = (eventfds (client.ends .producer) ++ eventfds (client.ends .consumer)).map ρ)
    (hnFds : 1 + fds.length ≤ nFds.toNat) (hsize : shm'.size = shm.size) :
    ∃ grp fds' events, groupMapChannels os cls (Group.withArrays data) shm' (-1 :: fds) nFds =
      .ok (true, grp, fds', events) := by
  have helements {n : Unsigned} {array : Option (List (ChannelAttr InfoPtr))} :
      elements array = (elements array).take n.toNat ++ (elements array).drop n.toNat :=
    (List.take_append_drop _ _).symm
  -- The descriptor of the shared memory has been taken, and those of the eventfds follow.
  have hstart : FdCursor.Awaits { shm := shm', offset := 0, fds := -1 :: fds, idx := 1 } nFds shm.size 0
      ((eventfds (client.ends .producer)).map ρ ++ (eventfds (client.ends .consumer)).map ρ) := by
    rw [List.map_append] at hfds
    exact ⟨hsize, rfl, [-1], congrArg (-1 :: ·) hfds, rfl, hfds ▸ hnFds⟩
  -- The client's producers are mapped first, as consumers of the server.
  obtain ⟨consumers, s, events, hconsumers, hs⟩ := fillChannels_received .consumer 0 hos hbuilt.placed
    (hbuilt.eventfds _) (hbare .producer) hstart
  rw [← List.append_nil (List.map ρ _)] at hs
  obtain ⟨producers, s', events', hproducers, -⟩ := fillChannels_received .producer 0 hos hbuilt.placedNext
    (hbuilt.eventfds _) (hbare .consumer) hs
  have hlenC : ((elements data.consumers).take data.nConsumers.toNat).length = data.nConsumers.toNat :=
    hlen .consumer
  have hlenP : ((elements data.producers).take data.nProducers.toNat).length = data.nProducers.toNat :=
    hlen .producer
  rw [show Role.producer.other = Role.consumer from rfl, GroupData.attrs, hlenC, ← helements]
    at hconsumers
  rw [show Role.consumer.other = Role.producer from rfl, GroupData.attrs, hlenP, ← helements]
    at hproducers
  refine ⟨{ Group.withArrays data with
    shm := some s'.shm
    consumers := (Group.withArrays data).consumers.map fun _ => consumers
    producers := (Group.withArrays data).producers.map fun _ => producers }, s'.fds, events ++ events', ?_⟩
  rw [groupMapChannels]
  refine checkedBind_ok.mpr ⟨_, hconsumers, ?_⟩
  exact checkedBind_ok.mpr ⟨_, hproducers, rfl⟩

/-- The server maps the shared memory the client has sent, with the same size. -/
theorem shmMap_received {shm : Shm} (hos : os.Receives ρ shm) :
    ∃ shm' events, shmMap os (ρ shm.fd) = (some shm', events) ∧ shm'.size = shm.size := by
  obtain ⟨mem, hmem⟩ := hos.mmap
  rw [shmMap, if_pos (hos.blocks _), hos.stat]
  dsimp only
  rw [hmem]
  dsimp only
  rw [if_neg (not_lt.mpr hos.mlock)]
  exact ⟨_, _, rfl, rfl⟩

/-- The server makes a group. -/
theorem Sent.received {osC : Os} {attr : GroupAttr (List Byte)}
    {consumers producers : List (ChannelAttr (List Byte))} {cs ps : List (ChannelAttr InfoPtr)}
    {client : Group} {shm : Shm} {size : Size} {s : Serialized} {n : Unsigned}
    (h : Sent osC cls attr consumers producers cs ps client shm size s n)
    (hsend : Sendable cls attr consumers producers) (hread : Readable cls attr consumers producers size)
    (hos : os.Receives ρ shm) : ∃ d server,
      groupDeserialize os cls s.req size (some ((s.fds.take n.toNat).map ρ)) (some n) = .ok d ∧
        d.grp = some server := by
  obtain ⟨hcomplete, hsafe⟩ := h.complete hsend hread
  -- The request is accepted, and says what the client's channels say.
  obtain ⟨data, events, hparse, -⟩ := requestParse_complete hos.tables h.given hcomplete hsafe
  obtain ⟨-, infos, block, hinfos, hdata⟩ := requestParse_some h.given hparse le_rfl
  have hattrs := @Wire.attrs_placed (s.req.take size.toNat) infos block hinfos
  have hlenAttrs (role : Role) : (data.attrs role).length = (data.count role).toNat := by
    have hlen := congrArg List.length (hattrs role)
    rw [List.length_map, List.length_map] at hlen
    obtain ⟨hlenC, hlenP⟩ := Wire.length_channels (s.req.take size.toNat)
    rw [show data = _ from hdata, hlen]
    cases role with
    | consumer => exact hlenC
    | producer => exact hlenP
  have hbare (role : Role) : (data.attrs role.other).map ChannelAttr.bare =
      (client.data.attrs role).map ChannelAttr.bare := by
    rw [show data = _ from hdata, hattrs]
    exact h.channels_bare hsend hcomplete.headed.length role
  obtain ⟨arrays, halloc, -⟩ := @groupAllocChannels_granted os data
    ⟨fun _ => hos.blocks _, fun _ => hos.blocks _⟩
  -- The shared memory is mapped with the size it was created with,
  obtain ⟨shm', shmEvents, hmap, hsize⟩ := shmMap_received hos
  have hcount := h.count
  -- and every channel in it.
  obtain ⟨server, fds', channels, hchannels⟩ := groupMapChannels_received hos
    h.created.built hlenAttrs hbare rfl (by rw [List.length_map]; exact le_of_eq hcount.symm) hsize
  have hpos : ¬ n < 1 := by
    rw [BitVec.lt_def, hcount, show (1 : Unsigned).toNat = 1 from rfl]
    omega
  have hgroupMap : groupMap os cls (Group.withArrays data) (some ((s.fds.take n.toNat).map ρ)) n =
      .ok (0, server, some fds', shmEvents ++ channels) := by
    rw [h.fds, List.map_cons, groupMap, if_neg hpos, if_neg (not_lt.mpr hos.memfd), hmap]
    exact checkedBind_ok.mpr ⟨_, hchannels, rfl⟩
  refine ⟨⟨some server, some fds', some n,
    .acquire (.block .group) :: events ++ arrays ++ (shmEvents ++ channels)⟩, server, ?_, rfl⟩
  -- What is left are the checks of `ri_group_deserialize` one after the other.
  rw [groupDeserialize]
  dsimp only
  rw [if_neg hpos, hos.blocks]
  refine checkedBind_ok.mpr ⟨_, hparse, ?_⟩
  dsimp only
  rw [if_neg (by decide)]
  rw [← Group.ofData, halloc]
  refine checkedBind_ok.mpr ⟨_, hgroupMap, ?_⟩
  rfl

end receives

/-- Peers agree on the layout: whatever group the server makes of what the client has sent, the two ends
    of each channel have the same place, the same queue and the same eventfd, and the server makes one if
    it gets what it asks for.  The channels lie apart and they are the whole shared memory. -/
theorem peers_agree {osC : Os} {cls : Size} {attr : GroupAttr (List Byte)}
    {consumers producers : List (ChannelAttr (List Byte))} {client : Group} {events : List Event}
    {req : List Byte} {size : Size} {fds : List Int} {nFds : Option Unsigned} {s : Serialized}
    (hsend : Sendable cls attr consumers producers)
    (hclient : groupFromAttr osC cls attr = .ok (some client, events))
    (hsize : size.toNat ≤ req.length) (hsmall : req.length ≤ ptrdiffMax)
    (hserialize : groupSerialize cls client req size fds nFds = .ok s) (hr : 0 ≤ s.r) :
    ∃ n shm shmSize, s.nFds = some n ∧ client.shm = some shm ∧
      calcShmSize cls attr.consumers attr.producers = .ok shmSize ∧
      (client.regions cls).Pairwise Region.Apart ∧
      (∀ x, (∃ r ∈ client.regions cls, x ∈ r) ↔ x < shmSize.toNat) ∧
      ∀ (osS : Os) (ρ : Int → Int),
        (∀ d server, groupDeserialize osS cls s.req size (some ((s.fds.take n.toNat).map ρ)) (some n) =
          .ok d → d.grp = some server → ∀ role,
            List.Forall₂ (ChannelEnd.Joins ρ) (client.ends role) (server.ends role.other)) ∧
        (osS.Receives ρ shm → Readable cls attr consumers producers size → ∃ d server,
          groupDeserialize osS cls s.req size (some ((s.fds.take n.toNat).map ρ)) (some n) = .ok d ∧
            d.grp = some server) := by
  obtain ⟨cs, ps, shm, n, hsent⟩ := groupSerialize_sent hsend hclient hsize hsmall hserialize hr
  obtain ⟨shmSize, hshmSize, -⟩ := hsent.created.size
  obtain ⟨hapart, hcover⟩ := hsent.regions hsend
  rw [← toNat_calcShmSize hsend.listsC hsend.listsP hsend.shmSize hshmSize] at hcover
  refine ⟨n, shm, shmSize, hsent.nFds, hsent.created.built.mapping, hshmSize, hapart, hcover,
    fun osS ρ => ⟨fun d server hserver hgrp => hsent.joins hsend hserver hgrp, fun hos hread => ?_⟩⟩
  exact hsent.received hsend hread hos

/-- One channel each way can be sent. -/
theorem pairAttr_sendable : Sendable 64 pairAttr [pairChannel true] [pairChannel false] where
  listsC := @Lists.array _ [pairChannel true] _ [] (by decide) rfl
  listsP := @Lists.array _ [pairChannel false] _ [] (by decide) rfl
  count := by decide
  msgSize := by decide
  shmSize := by decide

/-- Its request takes 52 bytes. -/
theorem groupSerialize_pairAttr : ∃ client events,
    groupFromAttr (Os.granting 4096) 64 pairAttr = .ok (some client, events) ∧
      (∃ shm, client.shm = some shm ∧ shm.fd = 3 ∧ shm.size = 4096) ∧
      ∃ s, groupSerialize 64 client (List.replicate 52 0) 52 [0, 0] (some 2) = .ok s ∧ 0 ≤ s.r := by
  refine ⟨_, _, rfl, ?_⟩
  refine ⟨⟨_, rfl, rfl, rfl⟩, _, rfl, ?_⟩
  decide

/-- The descriptors arrive as 13 and 14. -/
theorem peers_agree_pair : ∃ client events s d server, ∃ n : Unsigned,
    groupFromAttr (Os.granting 4096) 64 pairAttr = .ok (some client, events) ∧
      groupSerialize 64 client (List.replicate 52 0) 52 [0, 0] (some 2) = .ok s ∧
      groupDeserialize (Os.granting 4096) 64 s.req 52
        (some ((s.fds.take n.toNat).map (· + 10))) (some n) = .ok d ∧
      d.grp = some server ∧ ∀ role,
        List.Forall₂ (ChannelEnd.Joins (· + 10)) (client.ends role) (server.ends role.other) := by
  obtain ⟨client, events, hclient, ⟨shm, hshm, hfd, hsize⟩, s, hserialize, hr⟩ := groupSerialize_pairAttr
  obtain ⟨n, shm', shmSize, -, hshm', -, -, -, hall⟩ := peers_agree pairAttr_sendable hclient
    (by decide) (by decide) hserialize hr
  obtain rfl := Option.some.inj (hshm.symm.trans hshm')
  obtain ⟨hjoins, hmakes⟩ := hall (Os.granting 4096) (· + 10)
  have hnonneg {fd : Int} (h : 0 ≤ fd) : ¬ fd + 10 < 0 := by omega
  have hreceives : (Os.granting 4096).Receives (· + 10) shm := by
    refine ⟨Allocator.zeroed_inRange, fun _ => rfl, ?_, congrArg some hsize.symm, ⟨4096, ?_⟩, by decide,
      fun fd h => ⟨by omega, le_rfl, le_rfl⟩⟩
    · show 0 ≤ if shm.fd + 10 < 0 then (-1 : Int) else 0
      rw [if_neg (hnonneg (by omega))]
    · show (if shm.size.toNat < 2 ^ 63 then some (4096 : Size) else none) = _
      rw [hsize]
      rfl
  obtain ⟨d, server, hserver, hgrp⟩ :=
    hmakes hreceives ⟨by decide, by decide, by decide, by decide, Or.inr (by decide)⟩
  exact ⟨client, events, s, d, server, n, hclient, hserialize, hserver, hgrp,
    hjoins d server hserver hgrp⟩

end Rtipc
