/-
  Which requests does `ri_request_parse` accept?

  `Wire.Complete` is what it should accept: a header that is accepted, and everything that the counts
  and the sizes announce.  `Wire.desc` is what such a request says.

  The parser accepts more than that: an entry that is missing is no error, so a request whose table is
  truncated is accepted if the bytes behind the last whole entry are enough for the infos.
  `requestParse_accepts_iff` is the exact condition for a request to be treated as it should be.

  1. **What should be accepted.**  `Wire.Complete` does not mention the parser: a header that is
     accepted, and as many bytes as the numbers in the request announce.

  2. **What it should say.**  `Wire.desc` lists the channels with the bytes of their infos, and
     `GroupData.Holds` compares the group data with it, infos included.  So an accepted request is not
     only accepted: every field has arrived.

  3. **Where the code differs.**  `request_read_channel` returns `-r` for an error that is negative
     already, so a missing entry looks like a success.  `requestParse_accepts_missing_entry` is the
     shortest such request.
-/
import Rtipc.RequestSafety

namespace Rtipc

/-! ## Descriptions

  What a request or a group says, without pointers, so that the two can be compared. -/

/-- What is said about a channel. -/
structure ChannelDesc where
  msgSize : Size
  addMsgs : Unsigned
  eventfd : Bool
  infoSize : Size
  info : List Byte
  deriving DecidableEq, Repr

/-- What is said about a group. -/
structure GroupDesc where
  infoSize : Size
  info : List Byte
  consumers : List ChannelDesc
  producers : List ChannelDesc
  deriving DecidableEq, Repr

/-- An attribute whose info stands for the bytes `info`. -/
def ChannelAttr.desc {π : Type} (attr : ChannelAttr π) (info : List Byte) : ChannelDesc where
  msgSize := attr.msgSize
  addMsgs := attr.addMsgs
  eventfd := attr.eventfd
  infoSize := attr.info.size
  info := info

/-- The group data says this: its tables have as many channels as its counts say, and a sentinel. -/
structure GroupData.Holds (data : GroupData) (g : GroupDesc) : Prop where
  nConsumers : data.nConsumers.toNat = g.consumers.length
  nProducers : data.nProducers.toNat = g.producers.length
  tables : ∃ block consumers producers, data.memInfos = some block ∧
    data.consumers = tableOf consumers ∧ data.producers = tableOf producers ∧
    data.info.size = g.infoSize ∧ data.info.bytesIn block = g.info ∧
    (consumers.map fun attr => attr.desc (attr.info.bytesIn block)) = g.consumers ∧
    (producers.map fun attr => attr.desc (attr.info.bytesIn block)) = g.producers

namespace Wire

variable (bs : Wire)

/-- The number of channels. -/
def count : Nat := bs.nConsumers.toNat + bs.nProducers.toNat

/-- The entries of the table, first those of the consumers. -/
def entries : List Entry :=
  (List.range bs.count).map fun i => Entry.ofBytes (readAt bs (20 + 16 * i) 16)

/-- A request that is not truncated, with a header that is accepted. -/
structure Complete (cls : Size) : Prop where
  headed : bs.Headed cls
  length : 20 + 16 * bs.count + bs.groupInfoSize.toNat + (bs.entries.map (·.infoSize.toNat)).sum ≤
    bs.length

/-- What the entries say about the channels, whose infos are in the bytes `rest`. -/
def describe : List Entry → List Byte → List ChannelDesc
  | [], _ => []
  | e :: es, rest => (e.attr (π := List Byte)).desc (rest.take e.infoSize.toNat) ::
      describe es (rest.drop e.infoSize.toNat)

/-- What the request says. -/
def desc : GroupDesc where
  infoSize := bs.groupInfoSize.setWidth 64
  info := readAt bs (20 + 16 * bs.count) bs.groupInfoSize.toNat
  consumers :=
    (describe bs.entries (bs.drop (20 + 16 * bs.count + bs.groupInfoSize.toNat))).take
      bs.nConsumers.toNat
  producers :=
    (describe bs.entries (bs.drop (20 + 16 * bs.count + bs.groupInfoSize.toNat))).drop
      bs.nConsumers.toNat

end Wire

/-! ## The table

  The bytes behind the counts, entry by entry; a truncated table is one with less than 16 bytes for
  each. -/

/-- If the bytes hold `n` entries, these are read one behind the other. -/
theorem channelsOf_full {n : Nat} {rest : List Byte} (h : 16 * n ≤ rest.length) :
    channelsOf n rest =
      ((List.range n).map fun i => (Entry.ofBytes (readAt rest (16 * i) 16)).attr,
        rest.drop (16 * n)) := by
  induction n generalizing rest with
  | zero => rfl
  | succ n ih =>
    rw [channelsOf, if_neg (by omega), ih (by rw [List.length_drop]; omega), List.range_succ_eq_map,
      List.map_cons, List.map_map, List.drop_drop]
    refine Prod.ext ?_ ?_
    · refine congrArg (_ :: ·) (List.map_congr_left fun i _ => ?_)
      show _ = (Entry.ofBytes (readAt rest (16 * (i + 1)) 16)).attr
      rw [readAt, readAt, List.drop_drop]
      congr 4
      omega
    · show rest.drop _ = rest.drop _
      congr 1
      omega

/-- Otherwise less than one entry is left when the reading stops. -/
theorem channelsOf_truncated {n : Nat} {rest : List Byte} (h : rest.length < 16 * n) :
    (channelsOf n rest).2.length < 16 := by
  induction n generalizing rest with
  | zero => omega
  | succ n ih =>
    by_cases hlt : rest.length < 16
    · rwa [channelsOf_short hlt]
    · rw [channelsOf, if_neg hlt]
      exact ih (by rw [List.length_drop]; omega)

namespace Wire

variable {bs : Wire}

/-- There is one entry for each channel. -/
theorem length_entries : bs.entries.length = bs.count := by
  rw [entries, List.length_map, List.length_range]

/-- The table starts behind 20 bytes. -/
theorem length_fromConsumers : bs.fromConsumers.length = bs.length - 20 := List.length_drop

/-- The table is not truncated: the parser sees the entries. -/
theorem tables_full (h : 20 + 16 * bs.count ≤ bs.length) :
    bs.consumers ++ bs.producers = bs.entries.map Entry.attr ∧
      bs.fromInfos = bs.drop (20 + 16 * bs.count) := by
  have hlen := bs.length_fromConsumers
  rw [count] at h
  have hc := channelsOf_full
    (show 16 * bs.nConsumers.toNat ≤ bs.fromConsumers.length by omega)
  have hfrom : bs.fromProducers = bs.drop (20 + 16 * bs.nConsumers.toNat) := by
    rw [fromProducers, hc, fromConsumers, List.drop_drop]
  have hp := channelsOf_full (show 16 * bs.nProducers.toNat ≤ bs.fromProducers.length by
    rw [hfrom, List.length_drop]
    omega)
  have hall := channelsOf_full
    (show 16 * (bs.nConsumers.toNat + bs.nProducers.toNat) ≤ bs.fromConsumers.length by omega)
  constructor
  · rw [consumers, producers, fromProducers, ← channelsOf_add, hall, entries, List.map_map]
    refine List.map_congr_left fun i _ => ?_
    show (Entry.ofBytes (readAt bs.fromConsumers (16 * i) 16)).attr = _
    rw [readAt, fromConsumers, List.drop_drop]
    rfl
  · rw [fromInfos, hp, hfrom, List.drop_drop, count, Nat.mul_add, Nat.add_assoc]

/-- A request that ends in its table has no more than part of an entry left for infos. -/
theorem fromInfos_truncated (h : bs.length < 20 + 16 * bs.count) (h20 : 20 ≤ bs.length) :
    bs.fromInfos.length < 16 := by
  have hlen := bs.length_fromConsumers
  rw [count] at h
  by_cases hc : 16 * bs.nConsumers.toNat ≤ bs.fromConsumers.length
  · refine channelsOf_truncated ?_
    rw [fromProducers, channelsOf_full hc, List.length_drop]
    omega
  · have hlt := channelsOf_truncated (Nat.lt_of_not_le hc)
    rw [fromInfos, fromProducers, channelsOf_short hlt]
    exact hlt

/-! ## The infos -/

/-- The sizes of all infos, if the table is there. -/
theorem sum_infoSizes (h : 20 + 16 * bs.count ≤ bs.length) :
    (infoSizes bs.infos).sum =
      bs.groupInfoSize.toNat + (bs.entries.map (·.infoSize.toNat)).sum := by
  have hmap (e : Entry) : ((e.attr (π := InfoPtr)).info.size).toNat = e.infoSize.toNat := by
    rw [Entry.attr, BitVec.toNat_setWidth]
    exact Nat.mod_eq_of_lt (by omega)
  rw [infos, infoSizes, List.map_cons, List.sum_cons, ← List.map_append, (tables_full h).1,
    List.map_map, List.map_map, groupInfo, BitVec.toNat_setWidth, Nat.mod_eq_of_lt (by omega)]
  exact congrArg (_ + ·) (congrArg List.sum (List.map_congr_left fun e _ => hmap e))

/-- Not truncated: neither the table nor the infos are. -/
theorem complete_iff {cls : Size} (hbs : bs.Headed cls) : bs.Complete cls ↔
    20 + 16 * bs.count ≤ bs.length ∧ (infoSizes bs.infos).sum ≤ bs.fromInfos.length := by
  constructor
  · intro h
    have hlen := h.length
    have htable : 20 + 16 * bs.count ≤ bs.length := by omega
    refine ⟨htable, ?_⟩
    rw [sum_infoSizes htable, (tables_full htable).2, List.length_drop]
    omega
  · rintro ⟨htable, hinfos⟩
    rw [sum_infoSizes htable, (tables_full htable).2, List.length_drop] at hinfos
    exact ⟨hbs, by omega⟩

end Wire

/-! ## Room -/

/-- A channel with messages of size 0 hides its info and those of the channels behind it. -/
theorem infoRoom_le (attrs : List (ChannelAttr InfoPtr)) :
    infoRoom attrs ≤ alignedRoom (infoSizes (attrs.map (·.info))) := by
  induction attrs with
  | nil => exact le_rfl
  | cons attr attrs ih =>
    rw [infoRoom, List.takeWhile_cons]
    split
    · exact Nat.add_le_add_left ih _
    · exact Nat.zero_le _

/-- Without such a channel the infos have the room that they take. -/
theorem infoRoom_used {π : Type} {attrs : List (ChannelAttr π)} (h : ∀ attr ∈ attrs, attr.msgSize ≠ 0) :
    infoRoom attrs = alignedRoom ((attrs.map (·.info)).map (·.size.toNat)) := by
  induction attrs with
  | nil => rfl
  | cons attr attrs ih =>
    rw [infoRoom, List.takeWhile_cons,
      if_pos (decide_eq_true (h attr List.mem_cons_self)), List.map_cons, List.sum_cons, ← infoRoom,
      ih fun a ha => h a (List.mem_cons_of_mem _ ha)]
    rfl

/-- Without message size 0 the room is for all infos. -/
theorem infoRoom_eq {attrs : List (ChannelAttr InfoPtr)} (h : ∀ attr ∈ attrs, attr.msgSize ≠ 0) :
    infoRoom attrs = alignedRoom (infoSizes (attrs.map (·.info))) := infoRoom_used h

/-- The rooms of two lists add up. -/
theorem alignedRoom_append (sizes sizes' : List Nat) :
    alignedRoom (sizes ++ sizes') = alignedRoom sizes + alignedRoom sizes' := by
  rw [alignedRoom, List.map_append, List.sum_append, ← alignedRoom, ← alignedRoom]

/-- Rounding adds at most 15 bytes for each info. -/
theorem alignedRoom_le_add (sizes : List Nat) :
    alignedRoom sizes ≤ sizes.sum + 15 * sizes.length := by
  induction sizes with
  | nil => exact le_rfl
  | cons size sizes ih =>
    have hup := alignUp_lt (n := size) (show 0 < 16 by decide)
    rw [alignedRoom, List.map_cons, List.sum_cons, ← alignedRoom, List.sum_cons, List.length_cons]
    omega

/-- In any case it is at most 16 times as much. -/
theorem alignedRoom_le_mul (sizes : List Nat) : alignedRoom sizes ≤ 16 * sizes.sum := by
  induction sizes with
  | nil => exact le_rfl
  | cons size sizes ih =>
    have hup : alignUp 16 size ≤ 16 * size :=
      alignUp_le (by decide) (by omega) (Nat.dvd_mul_right 16 size)
    rw [alignedRoom, List.map_cons, List.sum_cons, ← alignedRoom, List.sum_cons]
    omega

/-- Fewer infos need no more room. -/
theorem alignedRoom_infosPresent_le (left : Nat) (sizes : List Nat) :
    alignedRoom (infosPresent left sizes) ≤ alignedRoom sizes := by
  induction sizes generalizing left with
  | nil => exact le_rfl
  | cons size sizes ih =>
    rw [infosPresent]
    split
    · exact Nat.zero_le _
    · exact Nat.add_le_add_left (ih _) _

/-- The block is never larger than all infos need. -/
theorem Wire.room_le (bs : Wire) : bs.room ≤ alignedRoom (infoSizes bs.infos) := by
  have hc := infoRoom_le bs.consumers
  have hp := infoRoom_le bs.producers
  have hg : (bs.groupInfoSize.setWidth 64 : Size).toNat = bs.groupInfoSize.toNat := by
    rw [BitVec.toNat_setWidth]
    exact Nat.mod_eq_of_lt (by omega)
  refine le_trans (Nat.mod_le _ _) ?_
  rw [Wire.infos, infoSizes, List.map_cons, List.map_append, ← infoSizes, ← infoSizes, alignedRoom,
    List.map_cons, List.sum_cons, ← alignedRoom, alignedRoom_append, Wire.groupInfo, hg]
  omega

/-! ## What is accepted -/

/-- The infos are dealt out to the first list and then to the second. -/
theorem withInfos_split {attrs : List (ChannelAttr InfoPtr)} {infos : List (Info InfoPtr)}
    (h : attrs.length ≤ infos.length) (attrs' : List (ChannelAttr InfoPtr)) :
    withInfos (attrs ++ attrs') infos =
      withInfos attrs infos ++ withInfos attrs' (infos.drop attrs.length) := by
  induction attrs generalizing infos with
  | nil => rfl
  | cons attr attrs ih =>
    obtain ⟨info, infos, rfl⟩ := List.exists_cons_of_length_pos (Nat.lt_of_lt_of_le (Nat.succ_pos _) h)
    exact congrArg ({ attr with info := info } :: ·) (ih (Nat.le_of_succ_le_succ h))

/-- If the block holds the bytes of the infos, the attributes say what the entries and these bytes say.
    The induction is on the entries. -/
theorem describe_withInfos {block : List Byte} (es : List Entry) {infos : List (Info InfoPtr)}
    {rest : List Byte} (hsizes : infos.map (·.size) = es.map fun e => e.infoSize.setWidth 64)
    (hhold : InfosHold block infos rest) :
    ((withInfos (es.map Entry.attr) infos).map fun attr => attr.desc (attr.info.bytesIn block)) =
      Wire.describe es rest := by
  induction es generalizing infos rest with
  | nil => rfl
  | cons e es ih =>
    obtain ⟨info, infos, rfl⟩ := List.exists_cons_of_length_eq_add_one
      (show infos.length = es.length + 1 by
        have := congrArg List.length hsizes
        rwa [List.length_map, List.length_map, List.length_cons] at this)
    have hsize : info.size = e.infoSize.setWidth 64 := (List.cons.inj hsizes).1
    obtain ⟨hbytes, hhold⟩ := hhold
    have htoNat : info.size.toNat = e.infoSize.toNat := by
      rw [hsize, BitVec.toNat_setWidth]
      exact Nat.mod_eq_of_lt (by omega)
    rw [htoNat] at hbytes hhold
    have hhead : ({ (e.attr : ChannelAttr InfoPtr) with info := info }).desc (info.bytesIn block) =
        (e.attr (π := List Byte)).desc (info.bytesIn block) := by
      show ChannelDesc.mk _ _ _ info.size _ = ChannelDesc.mk _ _ _ (e.infoSize.setWidth 64) _
      rw [hsize]
      rfl
    rw [Wire.describe, ← hbytes]
    exact congrArg₂ List.cons hhead (ih (List.cons.inj hsizes).2 hhold)

/-- What the parser leaves behind says what the request says. -/
theorem Wire.placed_holds {bs : Wire} {infos : List (Info InfoPtr)} {block : List Byte}
    (htable : 20 + 16 * bs.count ≤ bs.length)
    (hsizes : infos.map (·.size) = bs.infos.map (·.size))
    (hhold : InfosHold block infos bs.fromInfos) :
    (bs.filled.placed bs.consumers bs.producers infos block).Holds bs.desc := by
  -- The table is complete, so every entry is read.
  obtain ⟨hentries, hfrom⟩ := tables_full htable
  have hlenC : bs.consumers.length = bs.nConsumers.toNat := length_channelsOf _ _
  have hlenP : bs.producers.length = bs.nProducers.toNat := length_channelsOf _ _
  -- The first info is the group's; the others follow the channels.
  obtain ⟨info, infos, rfl⟩ := List.exists_cons_of_length_eq_add_one
    (show infos.length = (bs.consumers.length + bs.producers.length) + 1 by
      have := congrArg List.length hsizes
      rw [List.length_map, List.length_map, Wire.infos, List.length_cons, List.length_append,
        List.length_map, List.length_map] at this
      exact this)
  have hsize : info.size = bs.groupInfoSize.setWidth 64 := (List.cons.inj hsizes).1
  have hrest := (List.cons.inj hsizes).2
  obtain ⟨hbytes, hhold⟩ := hhold
  have htoNat : info.size.toNat = bs.groupInfoSize.toNat := by
    rw [hsize, BitVec.toNat_setWidth]
    exact Nat.mod_eq_of_lt (by omega)
  rw [htoNat, hfrom] at hbytes hhold
  rw [← List.map_append, hentries, List.map_map, List.map_map] at hrest
  have hdesc := describe_withInfos bs.entries hrest hhold
  have hlen : infos.length = bs.consumers.length + bs.producers.length := by
    have := congrArg List.length hrest
    rw [List.length_map, List.length_map, length_entries, count] at this
    omega
  rw [← hentries, withInfos_split (by omega), List.map_append, List.drop_drop] at hdesc
  have hlenC' := length_withInfos (show bs.consumers.length ≤ infos.length by omega)
  have hlenP' := length_withInfos
    (show bs.producers.length ≤ (infos.drop bs.consumers.length).length by
      rw [List.length_drop]
      omega)
  -- The consumers come first, the producers behind them.
  have hconsumers : ((withInfos bs.consumers infos).map
      fun attr => attr.desc (attr.info.bytesIn block)) = bs.desc.consumers := by
    rw [desc, ← hdesc, List.take_left' (by rw [List.length_map, hlenC', hlenC])]
  have hproducers : ((withInfos bs.producers (infos.drop bs.consumers.length)).map
      fun attr => attr.desc (attr.info.bytesIn block)) = bs.desc.producers := by
    rw [desc, ← hdesc, List.drop_left' (by rw [List.length_map, hlenC', hlenC])]
  refine ⟨?_, ?_, block, _, _, rfl, rfl, rfl, hsize, hbytes, hconsumers, hproducers⟩
  · rw [← hconsumers, List.length_map, hlenC', hlenC]
    rfl
  · rw [← hproducers, List.length_map, hlenP', hlenP]
    rfl

/-! ## Acceptance -/

/-- The parser returns 0 if and only if the request is complete; then the group data says what the
    request says, and otherwise a negative number is returned. -/
def ParseAccepts (cls : Size) (A : Allocator) (req : List Byte) (size : Size) (bs : Wire) : Prop :=
  ∃ parsed, requestParse cls A req size = .ok parsed ∧ (parsed.r = 0 ↔ bs.Complete cls) ∧
    (bs.Complete cls → parsed.data.Holds bs.desc) ∧ (¬ bs.Complete cls → parsed.r < 0)

section accept

variable {cls : Size} {A : Allocator} {req : List Byte} {size : Size} {bs : Wire}

/-- A request is an object in memory. -/
theorem Given.length_le (h : Given req size bs) : bs.length ≤ ptrdiffMax := by
  rw [← h.bytes]
  exact le_trans (List.length_take_le' _ _) h.small

/-- The infos of a request that is not truncated fit into an object. -/
theorem Wire.Complete.alignedRoom_le (h : bs.Complete cls) (hlen : bs.length ≤ ptrdiffMax) :
    alignedRoom (infoSizes bs.infos) ≤ ptrdiffMax := by
  have hfull := h.length
  have hsum := Wire.sum_infoSizes (show 20 + 16 * bs.count ≤ bs.length by omega)
  have hcount : (infoSizes bs.infos).length = bs.count + 1 := by
    rw [infoSizes, List.length_map, Wire.infos, List.length_cons, List.length_append,
      List.length_map, List.length_map, Wire.consumers, Wire.producers, length_channelsOf,
      length_channelsOf, Wire.count]
  have hadd := alignedRoom_le_add (infoSizes bs.infos)
  omega

/-- So the block for the infos of a complete request is one, too. -/
theorem Wire.Complete.room_le (h : bs.Complete cls) (hlen : bs.length ≤ ptrdiffMax) :
    bs.room ≤ ptrdiffMax :=
  bs.room_le.trans (h.alignedRoom_le hlen)

/-- All channels have messages. -/
def Wire.Used (bs : Wire) : Prop := ∀ attr ∈ bs.consumers ++ bs.producers, attr.msgSize ≠ 0

/-- A request that is not truncated is safe to parse if all channels have messages. -/
theorem Wire.Complete.safe (h : bs.Complete cls) (hlen : bs.length ≤ ptrdiffMax)
    (hc : bs.nConsumers ≠ unsignedMax) (hp : bs.nProducers ≠ unsignedMax) (hused : bs.Used) :
    bs.Safe := by
  refine ⟨hc, hp, fun _ => ?_⟩
  have hall := h.alignedRoom_le hlen
  have hmax : ptrdiffMax < 2 ^ 63 := by decide
  have hg : (bs.groupInfoSize.setWidth 64 : Size).toNat = bs.groupInfoSize.toNat := by
    rw [BitVec.toNat_setWidth]
    exact Nat.mod_eq_of_lt (by omega)
  have hsplit : alignedRoom (infoSizes bs.infos) =
      alignUp 16 bs.groupInfoSize.toNat + infoRoom bs.consumers + infoRoom bs.producers := by
    rw [infoRoom_eq fun a ha => hused a (List.mem_append_left _ ha),
      infoRoom_eq fun a ha => hused a (List.mem_append_right _ ha), Wire.infos, infoSizes,
      List.map_cons, List.map_append, ← infoSizes, ← infoSizes, alignedRoom, List.map_cons,
      List.sum_cons, ← alignedRoom, alignedRoom_append, Wire.groupInfo, hg, Nat.add_assoc]
  rw [Wire.room, ← hsplit, Nat.mod_eq_of_lt (by omega)]
  exact alignedRoom_infosPresent_le _ _

/-- A request that is not truncated is accepted if it is safe to parse. -/
theorem requestParse_complete (hA : A.InRange) (h : Given req size bs) (hbs : bs.Complete cls)
    (hsafe : bs.Safe) :
    ∃ data events, requestParse cls A req size = .ok ⟨0, data, events⟩ ∧ data.Holds bs.desc := by
  have hroom := hbs.room_le h.length_le
  obtain ⟨htable, hlen⟩ := (Wire.complete_iff hbs.headed).mp hbs
  obtain ⟨infos, block, events, hparse, hsizes, hhold, -⟩ :=
    requestParse_ok hA h hbs.headed hsafe.consumers hsafe.producers hroom
      (bs.infosFit_iff.mpr (hsafe.infos hroom)) hlen
  exact ⟨_, events, hparse, Wire.placed_holds htable hsizes hhold⟩

/-- One whose table is truncated is accepted as well if the infos are there. -/
theorem requestParse_truncated (hA : A.InRange) (h : Given req size bs) (hbs : bs.Headed cls)
    (hsafe : bs.Safe) (htable : bs.length < 20 + 16 * bs.count)
    (hlen : (infoSizes bs.infos).sum ≤ bs.fromInfos.length) :
    ∃ data events, requestParse cls A req size = .ok ⟨0, data, events⟩ := by
  have hshort := Wire.fromInfos_truncated htable hbs.length
  have hroom : bs.room ≤ ptrdiffMax := by
    have hmax : 16 * 16 ≤ ptrdiffMax := by decide
    have hroom := bs.room_le
    have hmul := alignedRoom_le_mul (infoSizes bs.infos)
    omega
  obtain ⟨infos, block, events, hparse, -⟩ :=
    requestParse_ok hA h hbs hsafe.consumers hsafe.producers hroom
      (bs.infosFit_iff.mpr (hsafe.infos hroom)) hlen
  exact ⟨_, events, hparse⟩

/-- Infos that are missing are an error. -/
theorem requestParse_missing (hA : A.InRange) (h : Given req size bs) (hbs : bs.Headed cls)
    (hsafe : bs.Safe) (hlen : bs.fromInfos.length < (infoSizes bs.infos).sum) :
    ∃ r events, r < 0 ∧ requestParse cls A req size = .ok ⟨r, GroupData.zero, events⟩ := by
  by_cases hroom : bs.room ≤ ptrdiffMax
  · obtain ⟨events, hparse, -⟩ := requestParse_infos_short hA h hbs hsafe.consumers
      hsafe.producers hroom (bs.infosFit_iff.mpr (hsafe.infos hroom)) hlen
    exact ⟨-1, events, by decide, hparse⟩
  · obtain ⟨events, hparse, -⟩ := requestParse_noMemory hA h hbs hsafe.consumers hsafe.producers
      (Nat.lt_of_not_le hroom)
    exact ⟨-ENOMEM, events, by decide, hparse⟩

/-- A request is treated as it should be unless it is not safe to parse, or its table is truncated and
    the bytes behind the last whole entry are enough for the infos. -/
theorem requestParse_accepts_iff (hA : A.InRange) (h : Given req size bs) :
    ParseAccepts cls A req size bs ↔ (bs.Headed cls → bs.Safe ∧
      (bs.length < 20 + 16 * bs.count → bs.fromInfos.length < (infoSizes bs.infos).sum)) := by
  constructor
  · rintro ⟨parsed, hparse, hiff, -, hneg⟩ hbs
    -- A call that returns reads no byte outside,
    have hsafe : bs.Safe := by
      by_contra hfails
      obtain ⟨f, hfault⟩ := requestParse_unsafe hA h hbs hfails
      rw [hfault] at hparse
      cases hparse
    -- and a table that is too short is refused only if the infos it should have had are missing too.
    refine ⟨hsafe, fun htable => ?_⟩
    by_contra hlen
    obtain ⟨data, events, hok⟩ :=
      requestParse_truncated hA h hbs hsafe htable (Nat.le_of_not_lt hlen)
    rw [hok] at hparse
    cases hparse
    have htable' := ((Wire.complete_iff hbs).mp (hiff.mp rfl)).1
    omega
  · intro hcond
    by_cases hcomplete : bs.Complete cls
    · obtain ⟨data, events, hparse, hholds⟩ :=
        requestParse_complete hA h hcomplete (hcond hcomplete.headed).1
      exact ⟨_, hparse, iff_of_true rfl hcomplete, fun _ => hholds, fun hn => absurd hcomplete hn⟩
    · -- What is not complete is refused, for its header or for its length.
      have hrefused : ∃ parsed, requestParse cls A req size = .ok parsed ∧ parsed.r < 0 := by
        by_cases hbs : bs.Headed cls
        · obtain ⟨hsafe, hshort⟩ := hcond hbs
          have hlen : bs.fromInfos.length < (infoSizes bs.infos).sum := by
            by_contra hge
            by_cases htable : bs.length < 20 + 16 * bs.count
            · exact hge (hshort htable)
            · exact hcomplete ((Wire.complete_iff hbs).mpr ⟨by omega, by omega⟩)
          obtain ⟨r, events, hr, hparse⟩ := requestParse_missing hA h hbs hsafe hlen
          exact ⟨_, hparse, hr⟩
        · obtain ⟨r, hr, hparse⟩ := requestParse_not_headed (A := A) h hbs
          exact ⟨_, hparse, hr⟩
      obtain ⟨parsed, hparse, hr⟩ := hrefused
      exact ⟨parsed, hparse, iff_of_false (by omega) hcomplete, fun hc => absurd hc hcomplete,
        fun _ => hr⟩

end accept

/-- With messages of 4 bytes the request is accepted. -/
theorem requestParse_accepts_iff_small_messages :
    ParseAccepts 64 Allocator.zeroed (requestOfInfo 4) 37 (requestOfInfo 4) :=
  (requestParse_accepts_iff Allocator.zeroed_inRange (requestOfInfo_given 4)).mpr
    fun _ => ⟨⟨by decide, by decide, fun _ => by decide⟩,
      fun h => absurd (show (requestOfInfo 4).length < _ from h) (by decide)⟩

/-- One consumer, whose entry is missing. -/
def requestWithoutEntry : Wire :=
  (RequestHeader.init 64).bytes ++ unsignedBytes 0 ++ unsignedBytes 1 ++ unsignedBytes 0

/-- A request that ends in front of its only entry is accepted. -/
theorem requestParse_accepts_missing_entry :
    ¬ ∀ (cls : Size) (A : Allocator) (req : List Byte) (size : Size) (bs : Wire), A.InRange →
      Given req size bs → ParseAccepts cls A req size bs := by
  intro hall
  have hgiven : Given requestWithoutEntry 20 requestWithoutEntry :=
    ⟨le_rfl, show 20 ≤ ptrdiffMax by decide, List.take_of_length_le (show 20 ≤ 20 from le_rfl)⟩
  have hheaded : requestWithoutEntry.Headed 64 := by decide
  obtain ⟨parsed, hparse, hiff, -⟩ :=
    hall 64 Allocator.zeroed requestWithoutEntry 20 requestWithoutEntry Allocator.zeroed_inRange hgiven
  obtain ⟨data, events, hok⟩ := requestParse_truncated Allocator.zeroed_inRange hgiven hheaded
    ⟨by decide, by decide, fun _ => by decide⟩ (by decide) (by decide)
  rw [hok] at hparse
  cases hparse
  have htable := ((Wire.complete_iff hheaded).mp (hiff.mp rfl)).1
  exact absurd htable (by decide)

end Rtipc
