/-
  What a request says, and what `ri_request_parse` makes of it.

  `Wire` takes the bytes of a request apart as the format prescribes: the header, the size of the
  group info, the two counts, the entries and then the infos.

  A header that is not accepted is an error.  Otherwise the counts, the sizes and what is left of the
  request decide, and each case is one theorem: a table without elements (`requestParse_max`), no memory
  for the infos, infos that do not fit, infos that are missing, and a group data with everything that
  the request says (`requestParse_ok`).

  1. **The fields.**  The header has 8 bytes.  Behind it are the size of the group's info at offset 8,
     the two counts at 12 and 16, and from 20 on the entries, 16 bytes each; behind the last entry are
     the infos.

  2. **The cases.**  Which of the results of `ri_request_parse` comes about does not depend on the
     allocator, except where it is asked for more than an object can have.  So the modules behind this
     one compare numbers, and do not run the parser again.
-/
import Rtipc.RequestReading

namespace Rtipc

/-- The bytes of a request. -/
abbrev Wire : Type := List Byte

namespace Wire

/-- The `uint32_t` at this offset. -/
def unsignedAt (bs : Wire) (offset : Nat) : Unsigned := unsignedOfBytes (readAt bs offset 4)

/-- The fields in front of the table, and a header that is accepted. -/
structure Headed (cls : Size) (bs : Wire) : Prop where
  length : 20 ≤ bs.length
  header : (RequestHeader.ofBytes (bs.take 8)).validate cls = 0

instance (cls : Size) (bs : Wire) : Decidable (Headed cls bs) :=
  decidable_of_iff (20 ≤ bs.length ∧ (RequestHeader.ofBytes (bs.take 8)).validate cls = 0)
    ⟨fun h => ⟨h.1, h.2⟩, fun h => ⟨h.1, h.2⟩⟩

/-- The size of the group's info. -/
def groupInfoSize (bs : Wire) : Unsigned := bs.unsignedAt 8

/-- The number of consumers of the side that reads it. -/
def nConsumers (bs : Wire) : Unsigned := bs.unsignedAt 12

/-- The number of producers of the side that reads it. -/
def nProducers (bs : Wire) : Unsigned := bs.unsignedAt 16

/-- What is left from the consumers on. -/
def fromConsumers (bs : Wire) : Wire := bs.drop 20

/-- The attributes of the consumers, without their infos. -/
def consumers (bs : Wire) : List (ChannelAttr InfoPtr) :=
  (channelsOf bs.nConsumers.toNat bs.fromConsumers).1

/-- What is left from the producers on. -/
def fromProducers (bs : Wire) : Wire := (channelsOf bs.nConsumers.toNat bs.fromConsumers).2

/-- The attributes of the producers, without their infos. -/
def producers (bs : Wire) : List (ChannelAttr InfoPtr) :=
  (channelsOf bs.nProducers.toNat bs.fromProducers).1

/-- What is left from the infos on. -/
def fromInfos (bs : Wire) : Wire := (channelsOf bs.nProducers.toNat bs.fromProducers).2

/-- The info of the group, before it is copied. -/
def groupInfo (bs : Wire) : Info InfoPtr := { size := bs.groupInfoSize.setWidth 64, data := none }

/-- All infos in the order in which they are copied: that of the group, then those of the channels. -/
def infos (bs : Wire) : List (Info InfoPtr) :=
  bs.groupInfo :: (bs.consumers.map (·.info) ++ bs.producers.map (·.info))

/-- What `ri_attr_calc_info_size` makes of the tables. -/
def room (bs : Wire) : Nat :=
  (alignUp 16 bs.groupInfoSize.toNat + infoRoom bs.consumers + infoRoom bs.producers) % 2 ^ 64

/-- The group data in front of `read_infos`. -/
def filled (bs : Wire) : GroupData :=
  filledTables bs.groupInfoSize bs.nConsumers bs.nProducers bs.consumers bs.producers

end Wire

section parse

variable {cls : Size} {A : Allocator} {req : List Byte} {size : Size}

/-- The request given to the parser: an object in memory, and how much of it is to be read. -/
structure Given (req : List Byte) (size : Size) (bs : Wire) : Prop where
  within : size.toNat ≤ req.length
  small : req.length ≤ ptrdiffMax
  bytes : req.take size.toNat = bs

variable {bs : Wire}

/-- A reader that has not read anything stands at the start of the request. -/
theorem Given.at (h : Given req size bs) :
    RequestReader.At { data := req, size := size, offset := 0 } bs where
  offset := Nat.zero_le _
  size := h.within
  small := h.small
  rest := h.bytes

/-- A read of the next `n` bytes. -/
theorem RequestReader.At.readNext {reader : RequestReader} {offset n : Nat}
    (h : reader.At (bs.drop offset)) {size : Size} (hsize : size.toNat = n)
    (hlen : offset + n ≤ bs.length) :
    ∃ reader', reader.read size = .ok (0, readAt bs offset n, reader') ∧
      reader'.At (bs.drop (offset + n)) := by
  rw [← List.take_append_drop n (bs.drop offset), List.drop_drop] at h
  refine h.read ?_
  rw [List.length_take, List.length_drop, hsize]
  omega

/-- The check of the header returns 0 or `-EINVAL`. -/
theorem RequestHeader.validate_cases (h : RequestHeader) :
    h.validate cls = 0 ∨ h.validate cls = -EINVAL := by
  unfold RequestHeader.validate
  split
  · exact Or.inr rfl
  · split
    · exact Or.inr rfl
    · split
      · exact Or.inr rfl
      · split
        · exact Or.inr rfl
        · exact Or.inl rfl

/-- The tables are read if the fields in front of them are there and the header is accepted. -/
theorem requestParse_headed (h : Given req size bs) (hbs : bs.Headed cls) :
    ∃ reader : RequestReader, reader.At bs.fromConsumers ∧ requestParse cls A req size =
      requestParseGroup A reader bs.groupInfoSize bs.nConsumers bs.nProducers := by
  have hlen := hbs.length
  have hat : RequestReader.At _ (bs.drop 0) := h.at
  obtain ⟨r₁, h₁, hat₁⟩ := hat.readNext (show RequestHeader.size.toNat = 8 from rfl) (by omega)
  obtain ⟨r₂, h₂, hat₂⟩ := hat₁.readNext (show sizeofUnsigned.toNat = 4 from rfl) (by omega)
  obtain ⟨r₃, h₃, hat₃⟩ := hat₂.readNext (show sizeofUnsigned.toNat = 4 from rfl) (by omega)
  obtain ⟨r₄, h₄, hat₄⟩ := hat₃.readNext (show sizeofUnsigned.toNat = 4 from rfl) (by omega)
  refine ⟨r₄, hat₄, ?_⟩
  have hheader : (RequestHeader.ofBytes (readAt bs 0 8)).validate cls = 0 := hbs.header
  rw [requestParse, h₁]
  show (if (RequestHeader.ofBytes (readAt bs 0 8)).validate cls < 0 then _ else
    r₁.read sizeofUnsigned >>= _) = _
  rw [hheader, h₂]
  show (r₂.read sizeofUnsigned >>= _) = _
  rw [h₃]
  show (r₃.read sizeofUnsigned >>= _) = _
  rw [h₄]
  rfl

/-- A read of bytes that are not there. -/
theorem RequestReader.At.readNext_short {reader : RequestReader} {offset n : Nat}
    (h : reader.At (bs.drop offset)) {size : Size} (hsize : size.toNat = n) (hn : n < 2 ^ 63)
    (hpos : 0 < n) (hlen : bs.length < offset + n) : reader.read size = .ok (-1, [], reader) := by
  refine h.read_short ?_ (by omega)
  rw [List.length_drop, hsize]
  omega

/-- Otherwise the request is refused. -/
theorem requestParse_not_headed (h : Given req size bs) (hbs : ¬ bs.Headed cls) :
    ∃ r, r < 0 ∧ requestParse cls A req size = .ok ⟨r, GroupData.zero, []⟩ := by
  have hat : RequestReader.At _ (bs.drop 0) := h.at
  have hsize : RequestHeader.size.toNat = 8 := rfl
  have hunsigned : sizeofUnsigned.toNat = 4 := rfl
  -- Too short for the header, for one of the counts behind it, or with a header that is refused.
  by_cases h8 : bs.length < 0 + 8
  · refine ⟨-1, by decide, ?_⟩
    rw [requestParse, hat.readNext_short hsize (by decide) (by decide) h8]
    rfl
  obtain ⟨r₁, h₁, hat₁⟩ := hat.readNext hsize (by omega)
  have hstart : requestParse cls A req size =
      if (RequestHeader.ofBytes (readAt bs 0 8)).validate cls < 0 then
        .ok ⟨(RequestHeader.ofBytes (readAt bs 0 8)).validate cls, GroupData.zero, []⟩
      else r₁.read sizeofUnsigned >>= fun x => if x.1 < 0 then .ok ⟨x.1, GroupData.zero, []⟩
      else x.2.2.read sizeofUnsigned >>= fun y => if y.1 < 0 then .ok ⟨y.1, GroupData.zero, []⟩
      else y.2.2.read sizeofUnsigned >>= fun z => if z.1 < 0 then .ok ⟨z.1, GroupData.zero, []⟩
      else requestParseGroup A z.2.2 (unsignedOfBytes x.2.1) (unsignedOfBytes y.2.1)
        (unsignedOfBytes z.2.1) := by
    rw [requestParse, h₁]
    rfl
  rcases (RequestHeader.ofBytes (readAt bs 0 8)).validate_cases with hheader | hheader
  · refine ⟨-1, by decide, ?_⟩
    have hlen : bs.length < 20 := by
      by_contra hge
      exact hbs ⟨by omega, hheader⟩
    rw [hstart, hheader, if_neg (by decide)]
    by_cases h12 : bs.length < 8 + 4
    · rw [hat₁.readNext_short hunsigned (by decide) (by decide) h12]
      rfl
    obtain ⟨r₂, h₂, hat₂⟩ := hat₁.readNext hunsigned (by omega)
    rw [h₂]
    show (r₂.read sizeofUnsigned >>= _) = _
    by_cases h16 : bs.length < 8 + 4 + 4
    · rw [hat₂.readNext_short hunsigned (by decide) (by decide) h16]
      rfl
    obtain ⟨r₃, h₃, hat₃⟩ := hat₂.readNext hunsigned (by omega)
    rw [h₃]
    show (r₃.read sizeofUnsigned >>= _) = _
    rw [hat₃.readNext_short hunsigned (by decide) (by decide) hlen]
    rfl
  · -- the header is complete, but not one the reader accepts
    refine ⟨-EINVAL, by decide, ?_⟩
    rw [hstart, hheader]
    rfl

/-! ## Behind the header -/

/-- The sizes of the infos in a request have 32 bits. -/
theorem Wire.infos_small {info : Info InfoPtr} (h : info ∈ bs.infos) :
    info.size.toNat < 2 ^ 32 ∧ info.data = none := by
  rcases List.mem_cons.mp h with rfl | h
  · refine ⟨?_, rfl⟩
    rw [Wire.groupInfo, BitVec.toNat_setWidth]
    exact lt_of_le_of_lt (Nat.mod_le _ _) (BitVec.isLt _)
  · rcases List.mem_append.mp h with h | h
    all_goals
      obtain ⟨attr, hattr, rfl⟩ := List.mem_map.mp h
      exact channelsOf_info hattr

/-- Getting a block copies no info. -/
theorem acquired_copied {α : Type} (b : Block) (ptr : Option α) :
    (acquired b ptr).filterMap Event.copied = [] := by
  cases ptr <;> rfl

/-- Nor does freeing one. -/
theorem freed_copied {α : Type} (b : Block) (ptr : Option α) :
    (freed b ptr).filterMap Event.copied = [] := by
  cases ptr <;> rfl

/-- `ri_group_data_new` copies no info. -/
theorem groupDataNew_copied (A : Allocator) (m n : Unsigned) :
    (groupDataNew A m n).2.2.filterMap Event.copied = [] := by
  unfold groupDataNew
  split
  · rfl
  · split
    · rw [List.filterMap_append, acquired_copied, freed_copied, List.append_nil]
    · rw [List.filterMap_append, acquired_copied, acquired_copied, List.append_nil]

/-- Nor does `ri_group_data_delete`. -/
theorem groupDataDelete_copied (data : GroupData) :
    (groupDataDelete data).2.filterMap Event.copied = [] := by
  rw [groupDataDelete, List.filterMap_append, List.filterMap_append, freed_copied, freed_copied,
    freed_copied, List.append_nil, List.append_nil]

variable (hA : A.InRange) (h : Given req size bs) (hbs : bs.Headed cls)

include hA h hbs

/-- With the largest count there is no element for the sentinel: the element count of `calloc` wraps to
    0. -/
theorem requestParse_max (hmax : bs.nConsumers = unsignedMax ∨ bs.nProducers = unsignedMax) :
    requestParse cls A req size = .error .channels := by
  obtain ⟨reader, hat, hparse⟩ := requestParse_headed (A := A) h hbs
  rw [hparse, hat.parseGroup_max hA.calloc hmax]

/-- The tables have elements: they are read, and the infos are left. -/
theorem requestParse_tables (hc : bs.nConsumers ≠ unsignedMax) (hp : bs.nProducers ≠ unsignedMax) :
    ∃ reader room events, reader.At bs.fromInfos ∧ room.toNat = bs.room ∧
      events.filterMap Event.copied = [] ∧
      requestParse cls A req size = fillInfos A reader bs.filled events room := by
  obtain ⟨reader, hat, hparse⟩ := requestParse_headed (A := A) h hbs
  obtain ⟨reader', room, hgroup, hat', hroom⟩ := hat.parseGroup hA.calloc hc hp
  exact ⟨reader', room, _, hat', hroom, groupDataNew_copied A _ _, hparse.trans hgroup⟩

/-- If the infos need more than the largest object, the allocation fails and everything is given back. -/
theorem requestParse_noMemory (hc : bs.nConsumers ≠ unsignedMax) (hp : bs.nProducers ≠ unsignedMax)
    (hroom : ptrdiffMax < bs.room) :
    ∃ events, requestParse cls A req size = .ok ⟨-ENOMEM, GroupData.zero, events⟩ ∧
      events.filterMap Event.copied = [] := by
  obtain ⟨reader, room, events, -, hroom', hcopied, hparse⟩ := requestParse_tables hA h hbs hc hp
  have hnone : A.malloc room = none := by
    by_contra hsome
    have := (hA.malloc room).mp (Option.isSome_iff_ne_none.mpr hsome)
    omega
  refine ⟨_, by rw [hparse, fillInfos, hnone], ?_⟩
  rw [List.filterMap_append, hcopied, groupDataDelete_copied, List.append_nil]

/-- There is memory for the infos: they are placed, and if that fails nothing is left. -/
theorem requestParse_place (hc : bs.nConsumers ≠ unsignedMax) (hp : bs.nProducers ≠ unsignedMax)
    (hroom : bs.room ≤ ptrdiffMax) :
    ∃ (s : InfoReader) (before after : List Event), s.Ready bs.fromInfos bs.room ∧ s.mem = 0 ∧
      before.filterMap Event.copied = [] ∧ after.filterMap Event.copied = [] ∧
      requestParse cls A req size = s.placeAll bs.infos >>= fun x =>
        .ok (if x.1 < 0 then ⟨-1, GroupData.zero, before ++ x.2.2.copied.map .copy ++ after⟩
          else ⟨0, bs.filled.placed bs.consumers bs.producers x.2.1 x.2.2.block,
            before ++ x.2.2.copied.map .copy⟩) := by
  obtain ⟨reader, room, events, hat, hroom', hcopied, hparse⟩ := requestParse_tables hA h hbs hc hp
  obtain ⟨block, hblock⟩ := Option.isSome_iff_exists.mp ((hA.malloc room).mpr (hroom' ▸ hroom))
  refine ⟨⟨reader, block, 0, []⟩, events ++ [.acquire (.block .infos)],
    (groupDataDelete { bs.filled with memInfos := some block }).2,
    ⟨hat, ?_, hroom, Nat.zero_le _, List.Pairwise.nil, ?_⟩, rfl, ?_, groupDataDelete_copied _, ?_⟩
  · rw [A.malloc_length room block hblock, hroom']
  · intro r hr
    cases hr
  · rw [List.filterMap_append, hcopied]
    rfl
  · rw [hparse, fillInfos, hblock]
    exact readInfos_eq (length_channelsOf _ _) (length_channelsOf _ _) rfl block _

/-- If an info ends in the request but not in the block for the infos, it is copied over the end of the
    block. -/
theorem requestParse_infos_fault (hc : bs.nConsumers ≠ unsignedMax)
    (hp : bs.nProducers ≠ unsignedMax) (hroom : bs.room ≤ ptrdiffMax)
    (hfit : ¬ InfosFit bs.room 0 bs.fromInfos.length (infoSizes bs.infos)) :
    requestParse cls A req size = .error .infos := by
  obtain ⟨s, before, after, hready, hmem, -, -, hparse⟩ := requestParse_place hA h hbs hc hp hroom
  rw [hparse, hready.placeAll_fault (fun info hi => (Wire.infos_small hi).1) (by rw [hmem]; exact hfit)]
  rfl

/-- If the infos do not end in the request, the parse fails, and what it has copied before are places
    that do not overlap. -/
theorem requestParse_infos_short (hc : bs.nConsumers ≠ unsignedMax)
    (hp : bs.nProducers ≠ unsignedMax) (hroom : bs.room ≤ ptrdiffMax)
    (hfit : InfosFit bs.room 0 bs.fromInfos.length (infoSizes bs.infos))
    (hlen : bs.fromInfos.length < (infoSizes bs.infos).sum) :
    ∃ events, requestParse cls A req size = .ok ⟨-1, GroupData.zero, events⟩ ∧
      (events.filterMap Event.copied).Pairwise Region.Apart := by
  obtain ⟨s, before, after, hready, hmem, hbefore, hafter, hparse⟩ :=
    requestParse_place hA h hbs hc hp hroom
  obtain ⟨r, infos', s', hplace, hcases⟩ :=
    hready.placeAll_ok (fun info hi => Wire.infos_small hi) (by rw [hmem]; exact hfit)
  rcases hcases with ⟨rfl, -, hapart⟩ | ⟨-, hfilled⟩
  · refine ⟨before ++ s'.copied.map .copy ++ after, ?_, ?_⟩
    · rw [hparse, hplace]
      rfl
    · rwa [List.filterMap_append, List.filterMap_append, hbefore, hafter, List.nil_append,
        List.append_nil, filterMap_copied_map]
  · have := hfilled.enough
    omega

/-- A group data with everything that the request says. -/
theorem requestParse_ok (hc : bs.nConsumers ≠ unsignedMax)
    (hp : bs.nProducers ≠ unsignedMax) (hroom : bs.room ≤ ptrdiffMax)
    (hfit : InfosFit bs.room 0 bs.fromInfos.length (infoSizes bs.infos))
    (hlen : (infoSizes bs.infos).sum ≤ bs.fromInfos.length) :
    ∃ infos block events, requestParse cls A req size =
        .ok ⟨0, bs.filled.placed bs.consumers bs.producers infos block, events⟩ ∧
      infos.map (·.size) = bs.infos.map (·.size) ∧ InfosHold block infos bs.fromInfos ∧
      (events.filterMap Event.copied).Pairwise Region.Apart := by
  obtain ⟨s, before, after, hready, hmem, hbefore, -, hparse⟩ :=
    requestParse_place hA h hbs hc hp hroom
  obtain ⟨r, infos', s', hplace, hcases⟩ :=
    hready.placeAll_ok (fun info hi => Wire.infos_small hi) (by rw [hmem]; exact hfit)
  rcases hcases with ⟨-, hlt, -⟩ | ⟨rfl, hfilled⟩
  · omega
  · refine ⟨infos', s'.block, before ++ s'.copied.map .copy, ?_, hfilled.sizes, hfilled.hold, ?_⟩
    · rw [hparse, hplace]
      rfl
    · rw [List.filterMap_append, hbefore, List.nil_append, filterMap_copied_map]
      exact hfilled.ready.apart

end parse

/-- The allocator whose blocks are zeroed. -/
def Allocator.zeroed : Allocator where
  malloc size := if size.toNat ≤ ptrdiffMax then some (List.replicate size.toNat 0) else none
  malloc_length size block h := by
    split at h
    · cases h
      exact List.length_replicate
    · cases h
  calloc _ _ := true

/-- This allocator grants every possible size, and no other one. -/
theorem Allocator.zeroed_inRange : Allocator.zeroed.InRange where
  malloc size := by
    show (if size.toNat ≤ ptrdiffMax then some (List.replicate size.toNat (0 : Byte))
      else none).isSome ↔ _
    split
    · rename_i hle
      exact iff_of_true rfl hle
    · rename_i hgt
      exact iff_of_false Bool.false_ne_true hgt
  calloc _ _ := rfl

end Rtipc
