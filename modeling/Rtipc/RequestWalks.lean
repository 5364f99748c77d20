/-
  Two ways to walk through the tables of a group data.

  `ri_group_map` goes by the counts that the request announces; `ri_count_channels`, and with it
  `ri_group_attr_equal` and `ri_request_write`, stop at the first channel with messages of size 0.
  The parser does not refuse such a channel, and it makes one up for each entry that is missing.

  `walks_agree_iff` tells for which of the accepted requests the two ways see the same channels, and
  that then a filter and a re-serialisation see them as well.

  1. **The two walks.**  By the counts: as many elements as `n_consumers` and `n_producers` say.  By the
     sentinel: up to the first element with messages of size 0.

  2. **The statement.**  In an accepted request they agree if and only if no channel has messages of
     size 0, which a missing entry always has, and the number of channels fits into 32 bits.

  3. **Who follows which.**  `ri_group_map` makes channels by the counts, while a filter of the
     application sees the list up to the sentinel.  So where they differ the server makes channels that
     its filter has not seen.
-/
import Rtipc.RequestRoundTrip

namespace Rtipc

/-! ## The walk up to the sentinel

  It stops at the first channel with messages of size 0, whether this is the sentinel or not. -/

section walk

variable {π : Type}

/-- The channels in front of the first one with messages of size 0. -/
def usedChannels (attrs : List (ChannelAttr π)) : List (ChannelAttr π) :=
  attrs.takeWhile (·.msgSize ≠ 0)

/-- The walk stops at a message size of 0. -/
theorem usedChannels_cons (attr : ChannelAttr π) (attrs : List (ChannelAttr π)) :
    usedChannels (attr :: attrs) = if attr.msgSize = 0 then [] else attr :: usedChannels attrs := by
  rw [usedChannels, List.takeWhile_cons]
  by_cases h : attr.msgSize = 0
  · rw [if_pos h, if_neg (by simpa using h)]
  · rw [if_neg h, if_pos (by simpa using h)]
    rfl

/-- The walk comes to the end if and only if no message size is 0. -/
theorem usedChannels_eq_self {attrs : List (ChannelAttr π)} :
    usedChannels attrs = attrs ↔ ∀ attr ∈ attrs, attr.msgSize ≠ 0 := by
  induction attrs with
  | nil => exact iff_of_true rfl fun attr hattr => nomatch hattr
  | cons attr attrs ih =>
    rw [usedChannels_cons]
    by_cases h : attr.msgSize = 0
    · rw [if_pos h]
      exact iff_of_false (List.cons_ne_nil _ _).symm fun hall => hall attr List.mem_cons_self h
    · rw [if_neg h, List.cons.injEq, List.forall_mem_cons]
      exact ⟨fun heq => ⟨h, ih.mp heq.2⟩, fun hall => ⟨rfl, ih.mpr hall.2⟩⟩

/-- It never finds more channels than there are. -/
theorem length_usedChannels_le (attrs : List (ChannelAttr π)) :
    (usedChannels attrs).length ≤ attrs.length :=
  List.Sublist.length_le (List.takeWhile_sublist _)

/-- What stands in front of a sentinel. -/
theorem lists_usedChannels (attrs : List (ChannelAttr π)) {stop : ChannelAttr π}
    (hstop : stop.msgSize = 0) : Lists (some (attrs ++ [stop])) (usedChannels attrs) := by
  have hsplit : ∃ stop' tail, attrs ++ [stop] = usedChannels attrs ++ stop' :: tail ∧
      stop'.msgSize = 0 ∧ ∀ attr ∈ usedChannels attrs, attr.msgSize ≠ 0 := by
    induction attrs with
    | nil => exact ⟨stop, [], rfl, hstop, fun attr hattr => nomatch hattr⟩
    | cons attr attrs ih =>
      rw [usedChannels_cons]
      by_cases h : attr.msgSize = 0
      · rw [if_pos h]
        exact ⟨attr, attrs ++ [stop], rfl, h, fun attr hattr => nomatch hattr⟩
      · obtain ⟨stop', tail, heq, hstop', hused⟩ := ih
        rw [if_neg h]
        exact ⟨stop', tail, congrArg (attr :: ·) heq, hstop', List.forall_mem_cons.mpr ⟨h, hused⟩⟩
  obtain ⟨stop', tail, heq, hstop', hused⟩ := hsplit
  rw [heq]
  exact Lists.array tail hused hstop'

/-- The table of a group data is a list that ends where the walk by sentinel ends. -/
theorem lists_tableOf (attrs : List (ChannelAttr InfoPtr)) : Lists (tableOf attrs) (usedChannels attrs) := by
  unfold tableOf
  split
  · rename_i h
    rw [h]
    exact Lists.null
  · exact lists_usedChannels attrs rfl

/-- What a sentinel-terminated list lists is what the walk finds. -/
theorem Lists.usedChannels {array : Option (List (ChannelAttr π))} {attrs : List (ChannelAttr π)}
    (h : Lists array attrs) : Rtipc.usedChannels (array.getD []) = attrs := by
  cases h with
  | null => rfl
  | @array attrs stop tail used sentinel =>
    show Rtipc.usedChannels (attrs ++ stop :: tail) = attrs
    induction attrs with
    | nil => rw [List.nil_append, usedChannels_cons, if_pos sentinel]
    | cons attr attrs ih =>
      obtain ⟨hne, hused⟩ := List.forall_mem_cons.mp used
      rw [List.cons_append, usedChannels_cons, if_neg hne, ih hused]

end walk

/-! ## `ri_group_attr_equal` -/

section equal

/-- Bytes that could be loaded from the start are the first ones. -/
theorem loadBytes_zero_inv {f : Fault} {mem bytes : List Byte} {size : Size}
    (h : loadBytes f mem 0 size = .ok bytes) : bytes = mem.take size.toNat := by
  unfold loadBytes at h
  split at h
  · cases h
    rfl
  · cases h

/-- If `ri_info_equal` says yes, the infos have the same bytes. -/
theorem infoEqual_true {i0 i1 : Info (List Byte)} (h : infoEqual i0 i1 = .ok true) :
    i0.size = i1.size ∧ i0.bytes = i1.bytes := by
  obtain ⟨size0, data0⟩ := i0
  obtain ⟨size1, data1⟩ := i1
  rw [infoEqual] at h
  by_cases hsize : size0 = size1
  · subst hsize
    refine ⟨rfl, ?_⟩
    rw [if_neg (not_not.mpr rfl)] at h
    -- Of the same size: nothing to compare, or the bytes are compared.
    by_cases hzero : size0 = 0
    · subst hzero
      cases data0 <;> cases data1 <;> rfl
    · rw [if_neg hzero] at h
      cases data0 with
      | none => cases h
      | some data0 =>
        cases data1 with
        | none => cases h
        | some data1 =>
          rcases h0 : loadBytes .infos data0 0 size0 with e | bytes0
          · change (loadBytes .infos data0 0 size0 >>= _) = _ at h
            rw [h0] at h
            cases h
          · rcases h1 : loadBytes .infos data1 0 size0 with e | bytes1
            · change (loadBytes .infos data0 0 size0 >>= fun bytes0 =>
                loadBytes .infos data1 0 size0 >>= _) = _ at h
              rw [h0, h1] at h
              cases h
            · change (loadBytes .infos data0 0 size0 >>= fun bytes0 =>
                loadBytes .infos data1 0 size0 >>= fun bytes1 =>
                  Except.ok (decide (bytes0 = bytes1))) = _ at h
              rw [h0, h1] at h
              have heq : bytes0 = bytes1 := of_decide_eq_true (Except.ok.inj h)
              show data0.take size0.toNat = data1.take size0.toNat
              rw [← loadBytes_zero_inv h0, ← loadBytes_zero_inv h1, heq]
  · rw [if_pos hsize] at h
    cases h

/-- A comparison that goes on only if the first part is equal. -/
theorem checkedAnd_true {x y : Checked Bool}
    (h : (x >>= fun r => if !r then Except.ok false else y) = .ok true) :
    x = .ok true ∧ y = .ok true := by
  rcases x with e | r
  · cases h
  · cases r with
    | false => cases h
    | true => exact ⟨rfl, h⟩

/-- If `ri_channel_attr_equal` says yes, the channels say the same. -/
theorem channelAttrEqual_true {c0 c1 : ChannelAttr (List Byte)}
    (h : channelAttrEqual c0 c1 = .ok true) :
    c0.msgSize = c1.msgSize ∧ c0.desc c0.info.bytes = c1.desc c1.info.bytes := by
  obtain ⟨hinfo, hrest⟩ := checkedAnd_true h
  have hfields := Except.ok.inj hrest
  simp only [Bool.and_eq_true, decide_eq_true_eq] at hfields
  obtain ⟨⟨hmsg, hadd⟩, heventfd⟩ := hfields
  obtain ⟨hsize, hbytes⟩ := infoEqual_true hinfo
  refine ⟨hmsg, ?_⟩
  rw [ChannelAttr.desc, ChannelAttr.desc, hmsg, hadd, heventfd, hsize, hbytes]

/-- If the comparison of two lists says yes, the walks by sentinel find channels that say the same. The
    induction is on the lists, as the loop goes through them. -/
theorem channelsEqualFrom_true {i : Unsigned} {cs0 cs1 : List (ChannelAttr (List Byte))}
    (h : channelsEqualFrom i cs0 cs1 = .ok true) :
    ((usedChannels cs0).map fun attr => attr.desc attr.info.bytes) =
      (usedChannels cs1).map fun attr => attr.desc attr.info.bytes := by
  induction cs0 generalizing i cs1 with
  | nil => cases h
  | cons c0 cs0 ih =>
    cases cs1 with
    | nil => cases h
    | cons c1 cs1 =>
      rw [channelsEqualFrom] at h
      rw [usedChannels_cons, usedChannels_cons]
      by_cases hboth : c0.msgSize = 0 ∧ c1.msgSize = 0
      · rw [if_pos hboth.1, if_pos hboth.2]
      · rw [if_neg hboth] at h
        obtain ⟨hequal, hrest⟩ := checkedAnd_true h
        obtain ⟨hmsg, hdesc⟩ := channelAttrEqual_true hequal
        have hne : ¬ c0.msgSize = 0 := fun hzero => hboth ⟨hzero, hmsg ▸ hzero⟩
        split at hrest
        · cases hrest
        · rw [if_neg hne, if_neg (hmsg ▸ hne), List.map_cons, List.map_cons, hdesc, ih hrest]

/-- Attributes that compare equal describe the same group. -/
theorem groupAttrEqual_true {g0 g1 : GroupAttr (List Byte)} (h : groupAttrEqual g0 g1 = .ok true) :
    describe g0.info (usedChannels (g0.consumers.getD [])) (usedChannels (g0.producers.getD [])) =
      describe g1.info (usedChannels (g1.consumers.getD []))
        (usedChannels (g1.producers.getD [])) := by
  obtain ⟨hinfo, hrest⟩ := checkedAnd_true h
  obtain ⟨hc, hp⟩ := checkedAnd_true hrest
  obtain ⟨hsize, hbytes⟩ := infoEqual_true hinfo
  rw [describe, describe, hsize, hbytes, channelsEqualFrom_true hc, channelsEqualFrom_true hp]

end equal

/-! ## Accepted requests -/

section accepted

variable {cls : Size} {A : Allocator} {req : List Byte} {size : Size} {bs : Wire} {data : GroupData}
  {events : List Event}

/-- What is known of a request that has been accepted. -/
theorem requestParse_accepted (hA : A.InRange) (h : Given req size bs)
    (hok : requestParse cls A req size = .ok ⟨0, data, events⟩) :
    bs.Headed cls ∧ bs.Safe ∧ (infoSizes bs.infos).sum ≤ bs.fromInfos.length ∧
      ∃ infos block, data = bs.filled.placed bs.consumers bs.producers infos block ∧
        infos.map (·.size) = bs.infos.map (·.size) ∧ InfosHold block infos bs.fromInfos := by
  -- What is accepted was not refused for any of the reasons there are:
  have hbs : bs.Headed cls := by
    by_contra hbs
    obtain ⟨r, hr, hparse⟩ := requestParse_not_headed (A := A) h hbs
    rw [hok] at hparse
    cases hparse
    exact absurd hr (by decide)
  -- no read outside the tables or the infos,
  have hsafe : bs.Safe := by
    by_contra hfails
    obtain ⟨f, hfault⟩ := requestParse_unsafe hA h hbs hfails
    rw [hok] at hfault
    cases hfault
  -- no missing bytes,
  have hlen : (infoSizes bs.infos).sum ≤ bs.fromInfos.length := by
    by_contra hgt
    obtain ⟨r, events', hr, hparse⟩ :=
      requestParse_missing hA h hbs hsafe (Nat.lt_of_not_le hgt)
    rw [hok] at hparse
    cases hparse
    exact absurd hr (by decide)
  -- no lack of memory.
  have hroom : bs.room ≤ ptrdiffMax := by
    by_contra hgt
    obtain ⟨events', hparse, -⟩ :=
      requestParse_noMemory hA h hbs hsafe.consumers hsafe.producers (Nat.lt_of_not_le hgt)
    rw [hok] at hparse
    cases hparse
  obtain ⟨infos, block, events', hparse, hsizes, hhold, -⟩ :=
    requestParse_ok hA h hbs hsafe.consumers hsafe.producers hroom
      (bs.infosFit_iff.mpr (hsafe.infos hroom)) hlen
  rw [hok] at hparse
  cases hparse
  exact ⟨hbs, hsafe, hlen, infos, block, rfl, hsizes, hhold⟩

/-- Where an entry is missing a channel is made up. -/
theorem channelsOf_missing {n : Nat} {rest : List Byte} (h : rest.length < 16 * n) :
    ChannelAttr.zero ∈ (channelsOf n rest).1 := by
  induction n generalizing rest with
  | zero => omega
  | succ n ih =>
    rw [channelsOf]
    split
    · exact List.mem_cons_self
    · exact List.mem_cons_of_mem _ (ih (by rw [List.length_drop]; omega))

/-- A request that uses every entry has all of its table. -/
theorem Wire.Used.table (h : bs.Used) (h20 : 20 ≤ bs.length) : 20 + 16 * bs.count ≤ bs.length := by
  by_contra hlt
  have hmem : ChannelAttr.zero ∈ bs.consumers ++ bs.producers := by
    rw [Wire.consumers, Wire.producers, Wire.fromProducers, ← channelsOf_add]
    refine channelsOf_missing ?_
    rw [Wire.length_fromConsumers, ← Wire.count]
    omega
  exact h _ hmem rfl

/-- An accepted request in which all channels have messages is complete. -/
theorem Wire.Used.complete (h : bs.Used) (hbs : bs.Headed cls)
    (hlen : (infoSizes bs.infos).sum ≤ bs.fromInfos.length) : bs.Complete cls :=
  (Wire.complete_iff hbs).mpr ⟨h.table hbs.length, hlen⟩

/-- The header says what the size of a cache line is, in 16 bits. -/
theorem Wire.Headed.cacheline (h : bs.Headed cls) : cls.toNat < 2 ^ 16 := by
  have hvalid := h.header
  rw [RequestHeader.validate] at hvalid
  split at hvalid
  · cases hvalid
  · split at hvalid
    · cases hvalid
    · split at hvalid
      · cases hvalid
      · rename_i hcls
        rw [← not_not.mp hcls, BitVec.toNat_setWidth]
        exact lt_of_le_of_lt (Nat.mod_le _ _) (BitVec.isLt _)

/-- The count by sentinel is the stored count exactly if no message size is 0. -/
theorem countChannels_tableOf {attrs : List (ChannelAttr InfoPtr)} {n : Unsigned}
    (hlen : attrs.length = n.toNat) :
    countChannels (tableOf attrs) = .ok n ↔ ∀ attr ∈ attrs, attr.msgSize ≠ 0 := by
  have hle := length_usedChannels_le attrs
  have hlt := n.isLt
  rw [(lists_tableOf attrs).count (by omega), ← usedChannels_eq_self]
  constructor
  · intro h
    have htoNat := congrArg BitVec.toNat (Except.ok.inj h)
    rw [BitVec.toNat_ofNat, Nat.mod_eq_of_lt (by omega)] at htoNat
    exact (List.takeWhile_sublist _).eq_of_length (by rw [hlen, ← htoNat]; rfl)
  · intro h
    rw [h, hlen, BitVec.ofNat_toNat, BitVec.setWidth_eq]

/-- The infos do not change whether a message size is 0. -/
theorem forall_withInfos {attrs : List (ChannelAttr InfoPtr)} {infos : List (Info InfoPtr)}
    (h : attrs.length ≤ infos.length) :
    (∀ attr ∈ withInfos attrs infos, attr.msgSize ≠ 0) ↔ ∀ attr ∈ attrs, attr.msgSize ≠ 0 := by
  have hmap : (withInfos attrs infos).map (·.msgSize) = attrs.map (·.msgSize) := by
    induction attrs generalizing infos with
    | nil => rfl
    | cons attr attrs ih =>
      obtain ⟨info, infos, rfl⟩ :=
        List.exists_cons_of_length_pos (Nat.lt_of_lt_of_le (Nat.succ_pos _) h)
      exact congrArg (attr.msgSize :: ·) (ih (Nat.le_of_succ_le_succ h))
  have hall (l : List (ChannelAttr InfoPtr)) :
      (∀ attr ∈ l, attr.msgSize ≠ 0) ↔ ∀ m ∈ l.map (·.msgSize), m ≠ 0 := by
    refine ⟨fun h m hm => ?_, fun h attr hattr => h _ (List.mem_map_of_mem hattr)⟩
    obtain ⟨attr, hattr, rfl⟩ := List.mem_map.mp hm
    exact h attr hattr
  rw [hall, hall, hmap]

/-- The counts agree if and only if all channels have messages. -/
theorem Wire.count_placed_iff {infos : List (Info InfoPtr)} (block : List Byte)
    (hsizes : infos.map (·.size) = bs.infos.map (·.size)) :
    (countChannels (bs.filled.placed bs.consumers bs.producers infos block).consumers =
        .ok bs.nConsumers ∧
      countChannels (bs.filled.placed bs.consumers bs.producers infos block).producers =
        .ok bs.nProducers) ↔ bs.Used := by
  have hlenC : bs.consumers.length = bs.nConsumers.toNat := length_channelsOf _ _
  have hlenP : bs.producers.length = bs.nProducers.toNat := length_channelsOf _ _
  have hlen : infos.tail.length = bs.consumers.length + bs.producers.length := by
    have := congrArg List.length hsizes
    rw [List.length_map, List.length_map, Wire.infos, List.length_cons, List.length_append,
      List.length_map, List.length_map] at this
    rw [List.length_tail]
    omega
  have hc : bs.consumers.length ≤ infos.tail.length := by omega
  have hp : bs.producers.length ≤ (infos.tail.drop bs.consumers.length).length := by
    rw [List.length_drop]
    omega
  rw [Wire.Used, List.forall_mem_append, ← forall_withInfos hc, ← forall_withInfos hp,
    ← countChannels_tableOf ((length_withInfos hc).trans hlenC),
    ← countChannels_tableOf ((length_withInfos hp).trans hlenP)]
  rfl

end accepted

/-! ## The view of a group data -/

section view

/-- The bytes an info of the group data stands for are those its pointer leads to. -/
theorem Info.bytes_resolve (block : List Byte) (info : Info InfoPtr) :
    (info.resolve block).bytes = info.bytesIn block := by
  obtain ⟨size, data⟩ := info
  cases data <;> rfl

/-- An info is valid if its bytes are as many as its size says. -/
theorem Info.valid_of_length {info : Info (List Byte)} (hlen : info.bytes.length = info.size.toNat)
    (hsmall : info.size.toNat < 2 ^ 32) : info.Valid := by
  obtain ⟨size, data⟩ := info
  cases data with
  | none => exact BitVec.eq_of_toNat_eq hlen.symm
  | some bytes =>
    refine ⟨?_, hsmall⟩
    have hle := List.length_take_le' size.toNat bytes
    rw [show (bytes.take size.toNat).length = size.toNat from hlen] at hle
    exact hle

/-- So resolving the pointers does not change what the channels say. -/
theorem desc_resolve (block : List Byte) (attrs : List (ChannelAttr InfoPtr)) :
    ((attrs.map (ChannelAttr.resolve block)).map fun attr => attr.desc attr.info.bytes) =
      attrs.map fun attr => attr.desc (attr.info.bytesIn block) := by
  rw [List.map_map]
  refine List.map_congr_left fun attr _ => ?_
  show (attr.resolve block).desc (attr.info.resolve block).bytes = _
  rw [Info.bytes_resolve]
  rfl

/-- A table without message size 0 is a sentinel-terminated list for code that follows the pointers. -/
theorem lists_resolve (block : List Byte) {attrs : List (ChannelAttr InfoPtr)}
    (hused : ∀ attr ∈ attrs, attr.msgSize ≠ 0) :
    Lists ((tableOf attrs).map (List.map (ChannelAttr.resolve block)))
      (attrs.map (ChannelAttr.resolve block)) := by
  unfold tableOf
  split
  · rename_i h
    rw [h]
    exact Lists.null
  · rw [Option.map_some, List.map_append]
    refine Lists.array [] (fun attr hattr => ?_) rfl
    obtain ⟨source, hsource, rfl⟩ := List.mem_map.mp hattr
    exact hused source hsource

/-- Two tables are the same only if their channels are. -/
theorem tableOf_injective {attrs attrs' : List (ChannelAttr InfoPtr)}
    (h : tableOf attrs = tableOf attrs') : attrs = attrs' := by
  unfold tableOf at h
  split at h
  · rename_i hnil
    split at h
    · rename_i hnil'
      rw [hnil, hnil']
    · cases h
  · split at h
    · cases h
    · exact List.append_cancel_right (Option.some.inj h)

variable {data : GroupData} {g g' : GroupDesc}

/-- A group data says only one thing. -/
theorem GroupData.Holds.unique (h : data.Holds g) (h' : data.Holds g') : g = g' := by
  obtain ⟨block, cs, ps, hblock, hc, hp, hsize, hinfo, hcs, hps⟩ := h.tables
  obtain ⟨block', cs', ps', hblock', hc', hp', hsize', hinfo', hcs', hps'⟩ := h'.tables
  obtain rfl := Option.some.inj (hblock.symm.trans hblock')
  obtain rfl := tableOf_injective (hc.symm.trans hc')
  obtain rfl := tableOf_injective (hp.symm.trans hp')
  cases g
  cases g'
  congr
  · exact hsize.symm.trans hsize'
  · exact hinfo.symm.trans hinfo'
  · exact hcs.symm.trans hcs'
  · exact hps.symm.trans hps'

/-- What is said fits into a request. -/
structure GroupDesc.Sound (g : GroupDesc) : Prop where
  info : g.info.length = g.infoSize.toNat ∧ g.infoSize.toNat < 2 ^ 32
  channels : ∀ c ∈ g.consumers ++ g.producers, c.msgSize ≠ 0 ∧ c.msgSize.toNat < 2 ^ 32 ∧
    c.info.length = c.infoSize.toNat ∧ c.infoSize.toNat < 2 ^ 32

/-- The attribute of the group data, for code that goes by sentinels, says the same. -/
theorem GroupData.Holds.view (h : data.Holds g) (hg : g.Sound) :
    ∃ consumers producers, Lists data.view.consumers consumers ∧
      Lists data.view.producers producers ∧ data.view.info.Valid ∧
      (∀ attr ∈ producers ++ consumers, attr.Valid) ∧
      describe data.view.info consumers producers = g := by
  obtain ⟨block, cs, ps, hblock, hc, hp, hsize, hinfo, hcs, hps⟩ := h.tables
  -- What the tables describe is sound, so the channels are valid.
  have hvalid (attrs : List (ChannelAttr InfoPtr))
      (hattrs : ∀ c ∈ attrs.map fun attr => attr.desc (attr.info.bytesIn block),
        c.msgSize ≠ 0 ∧ c.msgSize.toNat < 2 ^ 32 ∧ c.info.length = c.infoSize.toNat ∧
          c.infoSize.toNat < 2 ^ 32) :
      ∀ attr ∈ attrs.map (ChannelAttr.resolve block), attr.Valid := by
    intro attr hattr
    obtain ⟨source, hsource, rfl⟩ := List.mem_map.mp hattr
    obtain ⟨hused, hsmall, hlen, hinfoSize⟩ := hattrs _ (List.mem_map_of_mem hsource)
    refine ⟨hused, hsmall, Info.valid_of_length ?_ hinfoSize⟩
    show (source.info.resolve block).bytes.length = _
    rw [Info.bytes_resolve]
    exact hlen
  have hvalidC := hvalid cs fun c hc => hg.channels c (List.mem_append_left _ (hcs ▸ hc))
  have hvalidP := hvalid ps fun c hc => hg.channels c (List.mem_append_right _ (hps ▸ hc))
  have hview : data.memInfos.getD [] = block := by rw [hblock, Option.getD_some]
  refine ⟨cs.map (ChannelAttr.resolve block), ps.map (ChannelAttr.resolve block), ?_, ?_, ?_, ?_, ?_⟩
  · rw [GroupData.view, hview, hc]
    exact lists_resolve block fun attr hattr => (hvalidC _ (List.mem_map_of_mem hattr)).used
  · rw [GroupData.view, hview, hp]
    exact lists_resolve block fun attr hattr => (hvalidP _ (List.mem_map_of_mem hattr)).used
  · refine Info.valid_of_length ?_ ?_
    · show (data.info.resolve (data.memInfos.getD [])).bytes.length = data.info.size.toNat
      rw [Info.bytes_resolve, hview, hinfo, hsize]
      exact hg.info.1
    · show data.info.size.toNat < 2 ^ 32
      rw [hsize]
      exact hg.info.2
  · intro attr hattr
    rcases List.mem_append.mp hattr with hattr | hattr
    · exact hvalidP attr hattr
    · exact hvalidC attr hattr
  · rw [describe, desc_resolve, desc_resolve, hcs, hps]
    show GroupDesc.mk data.info.size (data.info.resolve (data.memInfos.getD [])).bytes _ _ = g
    rw [Info.bytes_resolve, hview, hinfo, hsize]

end view

/-! ## How long a request is -/

/-- The size of the request that says this. -/
def GroupDesc.wireSize (g : GroupDesc) : Nat :=
  20 + 16 * (g.consumers ++ g.producers).length + g.infoSize.toNat +
    ((g.consumers ++ g.producers).map (·.infoSize.toNat)).sum

/-- The size of a request does not depend on which side sends it. -/
theorem GroupDesc.wireSize_mirror (g : GroupDesc) : g.mirror.wireSize = g.wireSize := by
  rw [wireSize, wireSize, mirror]
  simp only [List.length_append, List.map_append, List.sum_append]
  omega

section length

variable {cls : Size} {bs : Wire}

/-- The sizes of the infos in a description are those of the entries. -/
theorem describe_infoSizes (es : List Entry) (rest : List Byte) :
    (Wire.describe es rest).map (·.infoSize.toNat) = es.map (·.infoSize.toNat) := by
  induction es generalizing rest with
  | nil => rfl
  | cons e es ih =>
    have hwidth : (e.infoSize.setWidth 64 : Size).toNat = e.infoSize.toNat := by
      rw [BitVec.toNat_setWidth]
      exact Nat.mod_eq_of_lt (by omega)
    rw [Wire.describe, List.map_cons, List.map_cons, ih]
    exact congrArg (· :: _) hwidth

/-- A description has one channel for each entry. -/
theorem length_describe (es : List Entry) (rest : List Byte) :
    (Wire.describe es rest).length = es.length := by
  have h := congrArg List.length (describe_infoSizes es rest)
  rwa [List.length_map, List.length_map] at h

/-- If the infos are there and no message size is 0, what the entries describe can be sent again. -/
theorem describe_sound {es : List Entry} {rest : List Byte}
    (hlen : (es.map (·.infoSize.toNat)).sum ≤ rest.length)
    (hused : ∀ attr ∈ es.map (Entry.attr (π := InfoPtr)), attr.msgSize ≠ 0) :
    ∀ c ∈ Wire.describe es rest, c.msgSize ≠ 0 ∧ c.msgSize.toNat < 2 ^ 32 ∧
      c.info.length = c.infoSize.toNat ∧ c.infoSize.toNat < 2 ^ 32 := by
  induction es generalizing rest with
  | nil => exact fun c hc => nomatch hc
  | cons e es ih =>
    have hwidth (x : Unsigned) : (x.setWidth 64 : Size).toNat = x.toNat := by
      rw [BitVec.toNat_setWidth]
      exact Nat.mod_eq_of_lt (by omega)
    rw [List.map_cons, List.sum_cons] at hlen
    rw [List.map_cons, List.forall_mem_cons] at hused
    rw [Wire.describe, List.forall_mem_cons]
    refine ⟨⟨hused.1, ?_, ?_, ?_⟩, ih (by rw [List.length_drop]; omega) hused.2⟩
    · show (e.msgSize.setWidth 64 : Size).toNat < 2 ^ 32
      rw [hwidth]
      exact e.msgSize.isLt
    · show (rest.take e.infoSize.toNat).length = (e.infoSize.setWidth 64 : Size).toNat
      rw [hwidth, List.length_take]
      omega
    · show (e.infoSize.setWidth 64 : Size).toNat < 2 ^ 32
      rw [hwidth]
      exact e.infoSize.isLt

/-- All channels of the description in the order of the entries. -/
theorem Wire.desc_channels (bs : Wire) : bs.desc.consumers ++ bs.desc.producers =
    Wire.describe bs.entries (bs.drop (20 + 16 * bs.count + bs.groupInfoSize.toNat)) :=
  List.take_append_drop _ _

/-- The size of the group's info fits into 32 bits. -/
theorem Wire.toNat_infoSize (bs : Wire) : bs.desc.infoSize.toNat = bs.groupInfoSize.toNat := by
  rw [Wire.desc, BitVec.toNat_setWidth]
  exact Nat.mod_eq_of_lt (by omega)

/-- A complete request has at least as many bytes as the description needs. -/
theorem Wire.Complete.wireSize_le (h : bs.Complete cls) : bs.desc.wireSize ≤ bs.length := by
  have hlen := h.length
  rw [GroupDesc.wireSize, bs.desc_channels, describe_infoSizes, length_describe,
    Wire.length_entries, bs.toNat_infoSize]
  omega

/-- The description of a complete request without message size 0 can be sent again. -/
theorem Wire.Complete.sound (h : bs.Complete cls) (hused : bs.Used) : bs.desc.Sound := by
  have hlen := h.length
  have htable := (Wire.tables_full (show 20 + 16 * bs.count ≤ bs.length by omega)).1
  refine ⟨⟨?_, ?_⟩, ?_⟩
  · rw [bs.toNat_infoSize]
    exact length_readAt (by omega)
  · rw [bs.toNat_infoSize]
    exact bs.groupInfoSize.isLt
  · rw [bs.desc_channels]
    refine describe_sound (by rw [List.length_drop]; omega) ?_
    rw [← htable]
    exact hused

/-- What the request of a valid attribute needs. -/
theorem wireSize_describe {info : Info (List Byte)}
    {consumers producers : List (ChannelAttr (List Byte))} (hinfo : info.Valid)
    (hvalid : ∀ attr ∈ producers ++ consumers, attr.Valid) :
    (describe info consumers producers).wireSize =
      20 + 16 * (producers.length + consumers.length) +
        (info.bytes.length + (infosImage (producers ++ consumers)).length) := by
  have hinfos : ((producers ++ consumers).map (·.info.size.toNat)).sum =
      (infosImage (producers ++ consumers)).length := by
    rw [infosImage, List.length_flatMap]
    exact congrArg List.sum (List.map_congr_left fun a ha => ((hvalid a ha).info.length).symm)
  rw [List.map_append, List.sum_append] at hinfos
  rw [GroupDesc.wireSize, describe, ← List.map_append, List.length_map, List.length_append,
    List.map_map, List.map_append, List.sum_append, ← hinfos, hinfo.length]
  show 20 + 16 * (consumers.length + producers.length) + info.size.toNat +
    ((consumers.map (·.info.size.toNat)).sum + (producers.map (·.info.size.toNat)).sum) = _
  omega

end length

/-! ## When the walks agree -/

/-- Both walks see the same channels: the counts agree, a filter that finds the attribute of the group
    equal to the expected one sees all its channels, and so does a re-serialisation. -/
structure WalksAgree (cls : Size) (data : GroupData) : Prop where
  consumers : countChannels data.consumers = .ok data.nConsumers
  producers : countChannels data.producers = .ok data.nProducers
  filter : ∀ (expected : GroupAttr (List Byte)) (consumers producers : List (ChannelAttr (List Byte))),
    Lists expected.consumers consumers → Lists expected.producers producers →
    groupAttrEqual data.view expected = .ok true →
    data.Holds (describe expected.info consumers producers)
  serialize : ∀ (size : Size) (buffer : List Byte), requestCalcSize data.view = .ok size →
    buffer.length = size.toNat → ∃ written req g, requestWrite cls data.view buffer size =
      .ok (written, req) ∧ Wire.Complete (req.take size.toNat) cls ∧ data.Holds g ∧
      Wire.desc (req.take size.toNat) = g.mirror

section agree

variable {cls : Size} {A : Allocator} {req : List Byte} {size : Size} {bs : Wire} {data : GroupData}
  {events : List Event} {g : GroupDesc}

/-- A filter that compares with `ri_group_attr_equal` lets a group pass only if it says what was
    expected. -/
theorem GroupData.Holds.filter (h : data.Holds g) (hg : g.Sound) {expected : GroupAttr (List Byte)}
    {consumers producers : List (ChannelAttr (List Byte))}
    (hc : Lists expected.consumers consumers) (hp : Lists expected.producers producers)
    (hequal : groupAttrEqual data.view expected = .ok true) :
    describe expected.info consumers producers = g := by
  obtain ⟨cs, ps, hcs, hps, -, -, hdesc⟩ := h.view hg
  have heq := groupAttrEqual_true hequal
  rw [hcs.usedChannels, hps.usedChannels, hc.usedChannels, hp.usedChannels, hdesc] at heq
  exact heq.symm

/-- The request of the group describes all channels, if their number does not wrap. -/
theorem GroupData.Holds.serialize (h : data.Holds g) (hg : g.Sound) (hcls : cls.toNat < 2 ^ 16)
    (hcount : (g.consumers ++ g.producers).length < 2 ^ 32) (hsize : g.wireSize ≤ ptrdiffMax)
    {buffer : List Byte} (hcalc : requestCalcSize data.view = .ok size)
    (hbuffer : buffer.length = size.toNat) :
    ∃ written req, requestWrite cls data.view buffer size = .ok (written, req) ∧
      Wire.Complete (req.take size.toNat) cls ∧ Wire.desc (req.take size.toNat) = g.mirror := by
  obtain ⟨cs, ps, hcs, hps, hinfo, hvalid, hdesc⟩ := h.view hg
  have hinfos : ∀ attr ∈ ps ++ cs, attr.info.Valid := fun attr hattr => (hvalid attr hattr).info
  have hlen : ps.length + cs.length < 2 ^ 32 := by
    rw [← hdesc, describe, ← List.map_append, List.length_map, List.length_append] at hcount
    omega
  -- The request has the length that was computed,
  have himage : (image cls data.view.info ps cs).length = g.wireSize := by
    rw [← hdesc, wireSize_describe hinfo hvalid, image]
    simp only [List.length_append, length_frontImage, length_tableImage]
  rw [requestCalcSize_image cls hps hcs hinfo hinfos hlen, himage] at hcalc
  obtain rfl := Except.ok.inj hcalc
  have htoNat : (BitVec.ofNat 64 g.wireSize).toNat = g.wireSize := by
    have hmax : ptrdiffMax < 2 ^ 63 := by decide
    rw [BitVec.toNat_ofNat]
    exact Nat.mod_eq_of_lt (by omega)
  -- so every write has room,
  have hwrite := requestWrite_eq cls hps hcs hinfo hinfos hlen hbuffer.symm (by omega) (by omega)
  rw [List.drop_eq_nil_of_le (by omega), List.append_nil] at hwrite
  refine ⟨_, _, hwrite, ?_⟩
  rw [List.take_of_length_le (by omega)]
  -- and it is the image of the group.
  have hbs : Wire.Begins (image cls data.view.info ps cs) cls data.view.info ps cs :=
    ⟨⟨[], (List.append_nil _).symm⟩, hcls, hlen, hinfo, hvalid⟩
  refine ⟨hbs.complete, ?_⟩
  rw [hbs.desc_eq, ← hdesc]
  rfl

/-- If their number wraps, the buffer has no room for all of them. -/
theorem GroupData.Holds.size_lt (h : data.Holds g) (hg : g.Sound)
    (hcount : 2 ^ 32 ≤ (g.consumers ++ g.producers).length) :
    ∃ size, requestCalcSize data.view = .ok size ∧ size.toNat < g.wireSize := by
  obtain ⟨cs, ps, hcs, hps, hinfo, hvalid, hdesc⟩ := h.view hg
  have hlenC : cs.length < 2 ^ 32 := by
    have := h.nConsumers
    rw [← hdesc, describe, List.length_map] at this
    omega
  have hlenP : ps.length < 2 ^ 32 := by
    have := h.nProducers
    rw [← hdesc, describe, List.length_map] at this
    omega
  refine ⟨_, requestCalcSize_eq hps hcs hinfo.backed (fun attr hattr => (hvalid attr hattr).info.backed)
    hlenP hlenC, ?_⟩
  rw [← hdesc, describe, ← List.map_append, List.length_map, List.length_append] at hcount
  rw [← hdesc, wireSize_describe hinfo hvalid, BitVec.toNat_ofNat]
  refine lt_of_le_of_lt (Nat.mod_le _ _) ?_
  omega

/-- The two walks see the same channels of an accepted request if and only if no entry is missing or
    has messages of size 0, and the number of channels fits into 32 bits. -/
theorem walks_agree_iff (hA : A.InRange) (h : Given req size bs)
    (hok : requestParse cls A req size = .ok ⟨0, data, events⟩) :
    WalksAgree cls data ↔ bs.Used ∧ bs.count < 2 ^ 32 := by
  obtain ⟨hbs, hsafe, hlen, infos, block, hdata, hsizes, hhold⟩ := requestParse_accepted hA h hok
  have hcounts := bs.count_placed_iff block hsizes
  rw [← hdata] at hcounts
  have hnC : data.nConsumers = bs.nConsumers := by rw [hdata]; rfl
  have hnP : data.nProducers = bs.nProducers := by rw [hdata]; rfl
  rw [← hnC, ← hnP] at hcounts
  have hholds (hused : bs.Used) : bs.Complete cls ∧ data.Holds bs.desc := by
    rw [hdata]
    exact ⟨hused.complete hbs hlen, Wire.placed_holds (hused.table hbs.length) hsizes hhold⟩
  have hchannels : (bs.desc.consumers ++ bs.desc.producers).length = bs.count := by
    rw [bs.desc_channels, length_describe, Wire.length_entries]
  constructor
  · intro hwalks
    have hused := hcounts.mp ⟨hwalks.consumers, hwalks.producers⟩
    obtain ⟨hcomplete, hsaid⟩ := hholds hused
    refine ⟨hused, ?_⟩
    by_contra hge
    obtain ⟨size', hcalc, hlt⟩ := hsaid.size_lt (hcomplete.sound hused) (by omega)
    obtain ⟨written, req', g, -, hcomplete', hg, hdesc⟩ :=
      hwalks.serialize size' (List.replicate size'.toNat 0) hcalc List.length_replicate
    have hle := hcomplete'.wireSize_le
    rw [hdesc, GroupDesc.wireSize_mirror, hg.unique hsaid] at hle
    have hshort := List.length_take_le size'.toNat req'
    omega
  · rintro ⟨hused, hcount⟩
    obtain ⟨hcomplete, hsaid⟩ := hholds hused
    have hsound := hcomplete.sound hused
    obtain ⟨hc, hp⟩ := hcounts.mpr hused
    refine ⟨hc, hp, ?_, ?_⟩
    · intro expected consumers producers hconsumers hproducers hequal
      rw [hsaid.filter hsound hconsumers hproducers hequal]
      exact hsaid
    · intro size' buffer hcalc hbuffer
      obtain ⟨written, req', hwrite, hwritten, hdesc⟩ := hsaid.serialize hsound hbs.cacheline
        (by omega) (hcomplete.wireSize_le.trans h.length_le) hcalc hbuffer
      exact ⟨written, req', bs.desc, hwrite, hwritten, hsaid, hdesc⟩

end agree

/-- One consumer, whose messages have `msgSize` bytes, without an info. -/
def requestOfChannel (msgSize : Unsigned) : Wire :=
  (RequestHeader.init 64).bytes ++ unsignedBytes 0 ++ unsignedBytes 1 ++ unsignedBytes 0 ++
    (Entry.mk 0 msgSize 0 0).bytes

/-- The bytes of this request are the request. -/
theorem requestOfChannel_given (msgSize : Unsigned) :
    Given (requestOfChannel msgSize) 36 (requestOfChannel msgSize) where
  within := le_rfl
  small := show 36 ≤ ptrdiffMax by decide
  bytes := List.take_of_length_le (show 36 ≤ 36 from le_rfl)

/-- With messages of 4 bytes all walks agree. -/
theorem walks_agree_iff_small_messages : ∃ data events,
    requestParse 64 Allocator.zeroed (requestOfChannel 4) 36 = .ok ⟨0, data, events⟩ ∧
      WalksAgree 64 data := by
  have hcomplete : (requestOfChannel 4).Complete 64 := ⟨by decide, by decide⟩
  obtain ⟨data, events, hparse, -⟩ := requestParse_complete Allocator.zeroed_inRange
    (requestOfChannel_given 4) hcomplete ⟨by decide, by decide, fun _ => by decide⟩
  exact ⟨data, events, hparse, (walks_agree_iff Allocator.zeroed_inRange (requestOfChannel_given 4)
    hparse).mpr ⟨by unfold Wire.Used; decide, by decide⟩⟩

/-- A channel with messages of size 0 is accepted, and not counted. -/
theorem walks_disagree : ¬ ∀ (cls : Size) (A : Allocator) (req : List Byte) (size : Size) (bs : Wire)
    (data : GroupData) (events : List Event), A.InRange → Given req size bs →
    requestParse cls A req size = .ok ⟨0, data, events⟩ → WalksAgree cls data := by
  intro hall
  have hgiven := requestOfChannel_given 0
  have hcomplete : (requestOfChannel 0).Complete 64 := ⟨by decide, by decide⟩
  obtain ⟨data, events, hparse, -⟩ := requestParse_complete Allocator.zeroed_inRange hgiven hcomplete
    ⟨by decide, by decide, fun _ => by decide⟩
  have hwalks := hall 64 Allocator.zeroed (requestOfChannel 0) 36 (requestOfChannel 0) data events
    Allocator.zeroed_inRange hgiven hparse
  obtain ⟨-, -, -, infos, block, rfl, hsizes, -⟩ :=
    requestParse_accepted Allocator.zeroed_inRange hgiven hparse
  have hused := (Wire.count_placed_iff block hsizes).mp ⟨hwalks.consumers, hwalks.producers⟩
  unfold Wire.Used at hused
  exact absurd hused (by decide)

end Rtipc
