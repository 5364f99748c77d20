/-
  A group that is written as a request is parsed as the same group, seen from the other side.

  The request that `ri_request_write` leaves behind is `image`.  `Wire` finds the fields, the entries
  and the infos in it again, so it is complete, it is safe to parse, and what it says is what was
  written with the roles exchanged.

  1. **Fields.**  Each field survives being written and read on its own: the header
     (`RequestHeader.ofBytes_bytes`), a number (`unsignedOfBytes_bytes`), an entry
     (`Entry.ofBytes_bytes`).

  2. **Lists.**  `describe_image` is the induction on the channels: entries and infos that were written
     describe the channels they were written for, whatever is behind them.

  3. **The whole.**  `Wire.Tabled` says that bytes begin with the fields and the table of a group; it is
     all that the parser needs to see the same channels.  The writer's producers come first, and the
     parser takes what comes first for its consumers, so the roles are exchanged without anything being
     moved.
-/
import Rtipc.RequestAcceptance
import Rtipc.RequestWriting

namespace Rtipc

/-! ## Numbers

  Little-endian bytes of fixed width, there and back. -/

/-- An `unsigned` survives being written and read. -/
theorem unsignedOfBytes_bytes (x : Unsigned) : unsignedOfBytes (unsignedBytes x) = x := by
  rw [unsignedOfBytes, unsignedBytes, ofBytes_toBytes_of_lt (by exact x.isLt), BitVec.ofNat_toNat,
    BitVec.setWidth_eq]

/-- So does a 16-bit word of the header. -/
theorem wordOfBytes_bytes (x : BitVec 16) :
    BitVec.ofNat 16 (ofBytes (toBytes 2 x.toNat)) = x := by
  rw [ofBytes_toBytes_of_lt (by exact x.isLt), BitVec.ofNat_toNat, BitVec.setWidth_eq]

/-- The bytes in the middle. -/
theorem readAt_middle {α : Type} {a src b : List α} {off len : Nat} (ha : a.length = off)
    (hsrc : src.length = len) : readAt (a ++ (src ++ b)) off len = src := by
  rw [readAt, List.drop_left' ha, List.take_left' hsrc]

/-- So does an entry, field by field. -/
theorem Entry.ofBytes_bytes (e : Entry) : Entry.ofBytes e.bytes = e := by
  have h (x : Unsigned) : (unsignedBytes x).length = 4 := length_unsignedBytes x
  have h₀ : readAt e.bytes 0 4 = unsignedBytes e.addMsgs := by
    rw [Entry.bytes, List.append_assoc, List.append_assoc]
    exact readAt_middle (a := []) rfl (h _)
  have h₁ : readAt e.bytes 4 4 = unsignedBytes e.msgSize := by
    rw [Entry.bytes, List.append_assoc, List.append_assoc]
    exact readAt_middle (h _) (h _)
  have h₂ : readAt e.bytes 8 4 = unsignedBytes e.eventfd := by
    rw [Entry.bytes, List.append_assoc]
    exact readAt_middle (by rw [List.length_append, h, h]) (h _)
  have h₃ : readAt e.bytes 12 4 = unsignedBytes e.infoSize := by
    rw [Entry.bytes, ← List.append_nil (unsignedBytes e.infoSize)]
    exact readAt_middle (by simp only [List.length_append, h]) (h _)
  rw [Entry.ofBytes, h₀, h₁, h₂, h₃]
  simp only [unsignedOfBytes_bytes]

/-- And so does the header. -/
theorem RequestHeader.ofBytes_bytes (h : RequestHeader) : RequestHeader.ofBytes h.bytes = h := by
  have hlen (x : BitVec 16) : (toBytes 2 x.toNat).length = 2 := length_toBytes 2 x.toNat
  have h₀ : readAt h.bytes 0 2 = toBytes 2 h.magic.toNat := by
    rw [RequestHeader.bytes, List.append_assoc, List.append_assoc]
    exact readAt_middle (a := []) rfl (hlen _)
  have h₁ : readAt h.bytes 2 2 = toBytes 2 h.version.toNat := by
    rw [RequestHeader.bytes, List.append_assoc, List.append_assoc]
    exact readAt_middle (hlen _) (hlen _)
  have h₂ : readAt h.bytes 4 2 = toBytes 2 h.cachelineSize.toNat := by
    rw [RequestHeader.bytes, List.append_assoc]
    exact readAt_middle (by rw [List.length_append, hlen, hlen]) (hlen _)
  have h₃ : readAt h.bytes 6 2 = toBytes 2 h.atomicSize.toNat := by
    rw [RequestHeader.bytes, ← List.append_nil (toBytes 2 h.atomicSize.toNat)]
    exact readAt_middle (by simp only [List.length_append, hlen]) (hlen _)
  rw [RequestHeader.ofBytes, h₀, h₁, h₂, h₃]
  simp only [wordOfBytes_bytes]

/-- The header that is written is accepted. -/
theorem RequestHeader.validate_init {cls : Size} (hcls : cls.toNat < 2 ^ 16) :
    (RequestHeader.init cls).validate cls = 0 := by
  have hwidth : (cls.setWidth 16).setWidth 64 = cls := by
    refine BitVec.eq_of_toNat_eq ?_
    rw [BitVec.toNat_setWidth, BitVec.toNat_setWidth, Nat.mod_eq_of_lt hcls,
      Nat.mod_eq_of_lt cls.isLt]
  have hatomic : (4 : BitVec 16).setWidth 64 = (4 : Size) := rfl
  rw [RequestHeader.validate, RequestHeader.init, if_neg (not_not.mpr rfl),
    if_neg (not_not.mpr rfl), if_neg (not_not.mpr hwidth), if_neg (not_not.mpr hatomic)]

/-! ## Channels -/

/-- The attribute of a channel that can be written. -/
structure ChannelAttr.Valid (attr : ChannelAttr (List Byte)) : Prop where
  used : attr.msgSize ≠ 0
  small : attr.msgSize.toNat < 2 ^ 32
  info : attr.info.Valid

instance (attr : ChannelAttr (List Byte)) : Decidable attr.Valid :=
  decidable_of_iff (attr.msgSize ≠ 0 ∧ attr.msgSize.toNat < 2 ^ 32 ∧ attr.info.Valid)
    ⟨fun h => ⟨h.1, h.2.1, h.2.2⟩, fun h => ⟨h.used, h.small, h.info⟩⟩

/-- The entry says what the attribute says. -/
theorem ChannelAttr.Valid.entry {attr : ChannelAttr (List Byte)} (h : attr.Valid) :
    (Entry.ofAttr attr).infoSize.toNat = attr.info.bytes.length ∧
      ((Entry.ofAttr attr).attr (π := List Byte)).desc attr.info.bytes =
        attr.desc attr.info.bytes := by
  have hwidth {x : Size} (hx : x.toNat < 2 ^ 32) : (x.setWidth 32).setWidth 64 = x := by
    refine BitVec.eq_of_toNat_eq ?_
    rw [BitVec.toNat_setWidth, BitVec.toNat_setWidth, Nat.mod_eq_of_lt hx,
      Nat.mod_eq_of_lt x.isLt]
  have heventfd : ((if attr.eventfd then 1 else 0 : Unsigned) != 0) = attr.eventfd := by
    cases attr.eventfd <;> rfl
  constructor
  · rw [h.info.length, Entry.ofAttr, BitVec.toNat_setWidth, Nat.mod_eq_of_lt h.info.small]
  · show ChannelDesc.mk ((attr.msgSize.setWidth 32).setWidth 64) attr.addMsgs
      ((if attr.eventfd then 1 else 0 : Unsigned) != 0) ((attr.info.size.setWidth 32).setWidth 64)
      attr.info.bytes = ChannelDesc.mk attr.msgSize attr.addMsgs attr.eventfd attr.info.size
      attr.info.bytes
    rw [hwidth h.small, hwidth h.info.small, heventfd]

/-- The entries and the infos that are written for some attributes describe these attributes, whatever
    is behind the infos. -/
theorem describe_image {attrs : List (ChannelAttr (List Byte))}
    (hvalid : ∀ attr ∈ attrs, attr.Valid) (rest : List Byte) :
    Wire.describe (attrs.map Entry.ofAttr) (infosImage attrs ++ rest) =
      attrs.map fun attr => attr.desc attr.info.bytes := by
  induction attrs with
  | nil => rfl
  | cons attr attrs ih =>
    obtain ⟨hlen, hdesc⟩ := (hvalid attr List.mem_cons_self).entry
    rw [List.map_cons, Wire.describe, infosImage_cons, List.append_assoc, hlen, List.take_left,
      List.drop_left, hdesc, ih fun a ha => hvalid a (List.mem_cons_of_mem _ ha), List.map_cons]

/-- The entry number `i` of a table that has been written is at `16 * i`. -/
theorem readAt_tableImage {attrs : List (ChannelAttr (List Byte))} (rest : List Byte) {i : Nat}
    (hi : i < attrs.length) :
    Entry.ofBytes (readAt (tableImage attrs ++ rest) (16 * i) 16) = Entry.ofAttr (attrs.get ⟨i, hi⟩) := by
  induction attrs generalizing i with
  | nil => cases hi
  | cons attr attrs ih =>
    rw [tableImage_cons, List.append_assoc]
    cases i with
    | zero =>
      rw [Nat.mul_zero, readAt, List.drop_zero, List.take_left' (Entry.length_bytes _),
        Entry.ofBytes_bytes]
      rfl
    | succ i =>
      rw [readAt, show 16 * (i + 1) = 16 + 16 * i by omega, ← List.drop_drop,
        List.drop_left' (Entry.length_bytes _)]
      exact ih (Nat.lt_of_succ_lt_succ hi)

/-! ## The table in a request

  From here on the bytes may come from any call that has written the table, not only from one with the
  infos behind it. -/

section image

variable {cls : Size} {info : Info (List Byte)} {producers consumers : List (ChannelAttr (List Byte))}
  {bs : Wire}

/-- The bytes begin with the fields and the entries for these channels. -/
structure Wire.Tabled (bs : Wire) (cls : Size) (info : Info (List Byte))
    (producers consumers : List (ChannelAttr (List Byte))) : Prop where
  bytes : ∃ rest, bs = frontImage cls info producers.length consumers.length ++
    (tableImage (producers ++ consumers) ++ rest)
  producers : producers.length < 2 ^ 32
  consumers : consumers.length < 2 ^ 32

/-- The fields of bytes that begin with them. -/
theorem Wire.unsignedAt_front {m n : Nat} {rest : List Byte}
    (hbs : bs = frontImage cls info m n ++ rest) : bs.groupInfoSize = info.size.setWidth 32 ∧
      bs.nConsumers = BitVec.ofNat 32 m ∧ bs.nProducers = BitVec.ofNat 32 n := by
  have hu (x : Unsigned) : (unsignedBytes x).length = 4 := length_unsignedBytes x
  have hh : (RequestHeader.init cls).bytes.length = 8 := RequestHeader.length_bytes _
  have hfront : bs = (RequestHeader.init cls).bytes ++ (unsignedBytes (info.size.setWidth 32) ++
      (unsignedBytes (BitVec.ofNat 32 m) ++ (unsignedBytes (BitVec.ofNat 32 n) ++ rest))) := by
    rw [hbs, frontImage]
    simp only [List.append_assoc]
  refine ⟨?_, ?_, ?_⟩
  · rw [groupInfoSize, unsignedAt, hfront, readAt_middle hh (hu _), unsignedOfBytes_bytes]
  · rw [nConsumers, unsignedAt, hfront, ← List.append_assoc,
      readAt_middle (by rw [List.length_append, hh, hu]) (hu _), unsignedOfBytes_bytes]
  · rw [nProducers, unsignedAt, hfront, ← List.append_assoc, ← List.append_assoc,
      readAt_middle (by simp only [List.length_append, hh, hu]) (hu _), unsignedOfBytes_bytes]

/-- The bytes that begin with the fields and the table. -/
theorem Wire.Tabled.of_take (hp : producers.length < 2 ^ 32)
    (hc : consumers.length < 2 ^ 32)
    (h : bs.take (20 + 16 * (producers ++ consumers).length) =
      frontImage cls info producers.length consumers.length ++ tableImage (producers ++ consumers)) :
    bs.Tabled cls info producers consumers := by
  refine ⟨⟨bs.drop (20 + 16 * (producers ++ consumers).length), ?_⟩, hp, hc⟩
  rw [← List.append_assoc, ← h, List.take_append_drop]

namespace Wire.Tabled

variable (h : bs.Tabled cls info producers consumers)

include h

/-- The request starts with the header and the three numbers. -/
theorem front_eq : ∃ rest, bs = frontImage cls info producers.length consumers.length ++ rest := by
  obtain ⟨rest, hbs⟩ := h.bytes
  exact ⟨_, hbs⟩

/-- The numbers are the size of the group's info and the counts, with the roles exchanged: the reader's
    consumers are the writer's producers. -/
theorem unsignedAt_eq : bs.groupInfoSize = info.size.setWidth 32 ∧
    bs.nConsumers = BitVec.ofNat 32 producers.length ∧
    bs.nProducers = BitVec.ofNat 32 consumers.length := by
  obtain ⟨rest, hbs⟩ := h.front_eq
  exact Wire.unsignedAt_front hbs

/-- Nothing is lost of the number of consumers. -/
theorem toNat_nConsumers : bs.nConsumers.toNat = producers.length := by
  rw [h.unsignedAt_eq.2.1, BitVec.toNat_ofNat]
  exact Nat.mod_eq_of_lt h.producers

/-- Nor of the number of producers. -/
theorem toNat_nProducers : bs.nProducers.toNat = consumers.length := by
  rw [h.unsignedAt_eq.2.2, BitVec.toNat_ofNat]
  exact Nat.mod_eq_of_lt h.consumers

/-- The request has one entry for each channel. -/
theorem count_eq : bs.count = (producers ++ consumers).length := by
  rw [Wire.count, h.toNat_nConsumers, h.toNat_nProducers, List.length_append]

/-- The header is one that `ri_request_header_validate` accepts. -/
theorem headed (hcls : cls.toNat < 2 ^ 16) : bs.Headed cls where
  length := by
    obtain ⟨rest, hbs⟩ := h.bytes
    rw [hbs, List.length_append, length_frontImage]
    omega
  header := by
    obtain ⟨rest, hbs⟩ := h.front_eq
    rw [hbs, frontImage, List.append_assoc, List.append_assoc, List.append_assoc,
      List.take_left' (RequestHeader.length_bytes _), RequestHeader.ofBytes_bytes,
      RequestHeader.validate_init hcls]

/-- The entries that are read are the ones that were written, in the order producers, consumers. -/
theorem entries_eq : bs.entries = (producers ++ consumers).map Entry.ofAttr := by
  obtain ⟨rest, hbs⟩ := h.bytes
  have hfront : bs.drop 20 = tableImage (producers ++ consumers) ++ rest := by
    rw [hbs]
    exact List.drop_left' (length_frontImage cls info _ _)
  refine List.ext_get ?_ fun i hi hi' => ?_
  · rw [length_entries, h.count_eq, List.length_map]
  · rw [List.length_map] at hi'
    rw [List.get_eq_getElem, List.get_eq_getElem, List.getElem_map]
    have hentry := readAt_tableImage rest hi'
    rw [← hfront, readAt, List.drop_drop] at hentry
    simp only [entries, List.getElem_map, List.getElem_range]
    exact hentry

/-- Nothing is missing if the infos that the entries announce are there. -/
theorem complete (hcls : cls.toNat < 2 ^ 16) (hinfo : info.Valid)
    (hvalid : ∀ attr ∈ producers ++ consumers, attr.Valid)
    (hlen : 20 + 16 * (producers ++ consumers).length +
      (info.bytes.length + (infosImage (producers ++ consumers)).length) ≤ bs.length) :
    bs.Complete cls where
  headed := h.headed hcls
  length := by
    have hgroup : bs.groupInfoSize.toNat = info.bytes.length := by
      rw [h.unsignedAt_eq.1, BitVec.toNat_setWidth, hinfo.length]
      exact Nat.mod_eq_of_lt hinfo.small
    have hinfos : bs.entries.map (·.infoSize.toNat) =
        (producers ++ consumers).map fun attr => attr.info.bytes.length := by
      rw [h.entries_eq, List.map_map]
      exact List.map_congr_left fun attr hattr => (hvalid attr hattr).entry.1
    rw [infosImage, List.length_flatMap] at hlen
    rw [hinfos, hgroup, h.count_eq]
    omega

/-- No entry has message size 0, so the sentinel is not reached too early. -/
theorem used (hvalid : ∀ attr ∈ producers ++ consumers, attr.Valid)
    (hlen : 20 + 16 * (producers ++ consumers).length ≤ bs.length) : bs.Used := by
  intro attr hattr
  rw [(Wire.tables_full (h.count_eq ▸ hlen)).1, h.entries_eq, List.map_map] at hattr
  obtain ⟨source, hsource, rfl⟩ := List.mem_map.mp hattr
  intro hzero
  refine (hvalid source hsource).used ?_
  have hmsg := congrArg ChannelDesc.msgSize (hvalid source hsource).entry.2
  exact hmsg.symm.trans hzero

end Wire.Tabled

/-! ## The image as a request -/

/-- The bytes begin with the image of a group that can be written. -/
structure Wire.Begins (bs : Wire) (cls : Size) (info : Info (List Byte))
    (producers consumers : List (ChannelAttr (List Byte))) : Prop where
  bytes : ∃ rest, bs = image cls info producers consumers ++ rest
  cacheline : cls.toNat < 2 ^ 16
  count : producers.length + consumers.length < 2 ^ 32
  info : info.Valid
  valid : ∀ attr ∈ producers ++ consumers, attr.Valid

namespace Wire.Begins

variable (h : bs.Begins cls info producers consumers)

include h

/-- A request that begins with all that was written begins with its table. -/
theorem tabled : bs.Tabled cls info producers consumers := by
  obtain ⟨rest, hbs⟩ := h.bytes
  have hcount := h.count
  refine ⟨⟨info.bytes ++ infosImage (producers ++ consumers) ++ rest, ?_⟩, by omega, by omega⟩
  rw [hbs, image]
  simp only [List.append_assoc]

/-- Behind the numbers come the table, the info of the group and the infos of the channels. -/
theorem drop_front : ∃ rest, bs.drop 20 = tableImage (producers ++ consumers) ++
    (info.bytes ++ (infosImage (producers ++ consumers) ++ rest)) := by
  obtain ⟨rest, hbs⟩ := h.bytes
  refine ⟨rest, ?_⟩
  rw [hbs, image, List.append_assoc, List.append_assoc,
    List.drop_left' (length_frontImage cls info _ _), List.append_assoc]

/-- The size of the group's info is the number of its bytes. -/
theorem toNat_groupInfoSize : bs.groupInfoSize.toNat = info.bytes.length := by
  rw [h.tabled.unsignedAt_eq.1, BitVec.toNat_setWidth, h.info.length]
  exact Nat.mod_eq_of_lt h.info.small

/-- The infos of all channels are in the request. -/
theorem length_le : 20 + 16 * bs.count + bs.groupInfoSize.toNat +
    (infosImage (producers ++ consumers)).length ≤ bs.length := by
  obtain ⟨rest, hbs⟩ := h.bytes
  rw [h.tabled.count_eq, h.toNat_groupInfoSize, hbs, image]
  simp only [List.length_append, length_frontImage, length_tableImage]
  omega

/-- So it is long enough for everything that it promises. -/
theorem complete : bs.Complete cls := by
  have hlen := h.length_le
  rw [h.toNat_groupInfoSize, h.tabled.count_eq] at hlen
  exact h.tabled.complete h.cacheline h.info h.valid (by omega)

theorem used : bs.Used := by
  have hlen := h.length_le
  rw [h.tabled.count_eq] at hlen
  exact h.tabled.used h.valid (by omega)

/-- The counts leave room for the sentinels, so reading it is safe. -/
theorem safe (hlen : bs.length ≤ ptrdiffMax) (hlenP : producers.length < 2 ^ 32 - 1)
    (hlenC : consumers.length < 2 ^ 32 - 1) : bs.Safe := by
  refine h.complete.safe hlen ?_ ?_ h.used
  · intro hmax
    have := h.tabled.toNat_nConsumers
    rw [hmax, show unsignedMax.toNat = 2 ^ 32 - 1 from rfl] at this
    omega
  · intro hmax
    have := h.tabled.toNat_nProducers
    rw [hmax, show unsignedMax.toNat = 2 ^ 32 - 1 from rfl] at this
    omega

/-- The request says what was written, with the roles exchanged. -/
theorem desc_eq : bs.desc =
    { infoSize := info.size
      info := info.bytes
      consumers := producers.map fun attr => attr.desc attr.info.bytes
      producers := consumers.map fun attr => attr.desc attr.info.bytes } := by
  obtain ⟨rest, hfront⟩ := h.drop_front
  have hinfos : bs.drop (20 + 16 * bs.count) =
      info.bytes ++ (infosImage (producers ++ consumers) ++ rest) := by
    rw [← List.drop_drop, hfront, h.tabled.count_eq]
    exact List.drop_left' (length_tableImage _)
  have hsize : (bs.groupInfoSize.setWidth 64 : Size) = info.size := by
    refine BitVec.eq_of_toNat_eq ?_
    rw [BitVec.toNat_setWidth, h.toNat_groupInfoSize, h.info.length]
    exact Nat.mod_eq_of_lt info.size.isLt
  have hdescribe : Wire.describe bs.entries
      (bs.drop (20 + 16 * bs.count + bs.groupInfoSize.toNat)) =
        (producers.map fun attr => attr.desc attr.info.bytes) ++
          consumers.map fun attr => attr.desc attr.info.bytes := by
    rw [← List.drop_drop, hinfos, h.toNat_groupInfoSize, List.drop_left, h.tabled.entries_eq,
      describe_image h.valid, List.map_append]
  have hlen : bs.nConsumers.toNat = (producers.map fun attr => attr.desc attr.info.bytes).length := by
    rw [List.length_map, h.tabled.toNat_nConsumers]
  rw [Wire.desc, hdescribe, hsize, hlen, List.take_left, List.drop_left, readAt, hinfos,
    h.toNat_groupInfoSize, List.take_left]

end Wire.Begins

end image

/-! ## The round trip -/

/-- What is said about a group with this info and these channels. -/
def describe (info : Info (List Byte)) (consumers producers : List (ChannelAttr (List Byte))) :
    GroupDesc where
  infoSize := info.size
  info := info.bytes
  consumers := consumers.map fun attr => attr.desc attr.info.bytes
  producers := producers.map fun attr => attr.desc attr.info.bytes

/-- The group as the other side sees it. -/
def GroupDesc.mirror (g : GroupDesc) : GroupDesc :=
  { g with consumers := g.producers, producers := g.consumers }

section trip

variable {cls : Size} {A : Allocator} {attr : GroupAttr (List Byte)}
  {producers consumers : List (ChannelAttr (List Byte))}

/-- A size below 2³¹ survives the conversion to `int`. -/
theorem intOfSize_eq {n : Nat} (h : n < 2 ^ 31) : intOfSize (BitVec.ofNat 64 n) = n := by
  have htoNat : ((BitVec.ofNat 64 n).setWidth 32).toNat = n := by
    rw [BitVec.toNat_setWidth, BitVec.toNat_ofNat]
    omega
  rw [intOfSize, BitVec.toInt_eq_toNat_of_lt (by rw [htoNat]; omega), htoNat]

/-- The number of bytes that are written, by the sizes of the infos. -/
theorem length_image (hinfo : attr.info.Valid) (hvalid : ∀ a ∈ producers ++ consumers, a.Valid) :
    (image cls attr.info producers consumers).length =
      20 + 16 * (producers.length + consumers.length) + attr.info.size.toNat +
        ((producers ++ consumers).map (·.info.size.toNat)).sum := by
  have hinfos : ((producers ++ consumers).map (·.info.size.toNat)).sum =
      (infosImage (producers ++ consumers)).length := by
    rw [infosImage, List.length_flatMap]
    exact congrArg List.sum (List.map_congr_left fun a ha => ((hvalid a ha).info.length).symm)
  rw [hinfos, ← hinfo.length, image]
  simp only [List.length_append, length_frontImage, length_tableImage]
  omega

/-- The request of a group, written into a buffer of the size that it needs, is accepted, and it says
    what the attribute says, with the roles exchanged. -/
theorem request_round_trip (hcls : cls.toNat < 2 ^ 16) (hA : A.InRange)
    (hp : Lists attr.producers producers) (hc : Lists attr.consumers consumers)
    (hinfo : attr.info.Valid) (hvalid : ∀ a ∈ producers ++ consumers, a.Valid)
    (hfit : 20 + 16 * (producers.length + consumers.length) + attr.info.size.toNat +
      ((producers ++ consumers).map (·.info.size.toNat)).sum < 2 ^ 31) :
    ∃ size, requestCalcSize attr = .ok size ∧ ∀ buffer : List Byte, buffer.length = size.toNat →
      ∃ written req, requestWrite cls attr buffer size = .ok (written, req) ∧ 0 ≤ written ∧
        ∃ data events, requestParse cls A req size = .ok ⟨0, data, events⟩ ∧
          data.Holds (describe attr.info consumers producers).mirror := by
  have hlen : (image cls attr.info producers consumers).length = _ := length_image hinfo hvalid
  have hinfos : ∀ a ∈ producers ++ consumers, a.info.Valid := fun a ha => (hvalid a ha).info
  have hcount : producers.length + consumers.length < 2 ^ 32 := by omega
  refine ⟨_, requestCalcSize_image cls hp hc hinfo hinfos hcount, fun buffer hbuffer => ?_⟩
  have hsize : (BitVec.ofNat 64 (image cls attr.info producers consumers).length).toNat =
      (image cls attr.info producers consumers).length := by
    rw [BitVec.toNat_ofNat]
    omega
  have hmax : 2 ^ 31 ≤ ptrdiffMax := by decide
  have hwrite := requestWrite_eq cls hp hc hinfo hinfos hcount hbuffer.symm (by omega) (by omega)
  rw [List.drop_eq_nil_of_le (by omega), List.append_nil] at hwrite
  refine ⟨_, _, hwrite, ?_, ?_⟩
  · rw [intOfSize_eq (by omega)]
    exact Int.natCast_nonneg _
  · have himage : Wire.Begins (image cls attr.info producers consumers) cls attr.info producers
        consumers := ⟨⟨[], (List.append_nil _).symm⟩, hcls, by omega, hinfo, hvalid⟩
    have hgiven : Given (image cls attr.info producers consumers)
        (BitVec.ofNat 64 (image cls attr.info producers consumers).length)
        (image cls attr.info producers consumers) :=
      ⟨le_of_eq hsize, by omega, List.take_of_length_le (le_of_eq hsize.symm)⟩
    obtain ⟨data, events, hparse, hholds⟩ :=
      requestParse_complete hA hgiven himage.complete (himage.safe (by omega) (by omega) (by omega))
    rw [himage.desc_eq] at hholds
    exact ⟨data, events, hparse, hholds⟩

end trip

/-- A producer with an eventfd and an info. -/
def smallProducer : ChannelAttr (List Byte) where
  msgSize := 4
  addMsgs := 0
  eventfd := true
  info := { size := 2, data := some [1, 2] }

/-- The group with this producer and no consumer. -/
def smallAttr : GroupAttr (List Byte) where
  consumers := none
  producers := some ([smallProducer] ++ ChannelAttr.zero :: [])
  info := { size := 0, data := none }

/-- Two producers and two consumers, with and without an eventfd, and an info of the group and of all
    channels but one. -/
def mixedProducers : List (ChannelAttr (List Byte)) :=
  [smallProducer,
    { msgSize := 8, addMsgs := 1, eventfd := false, info := { size := 0, data := none } }]

/-- The consumers of this group. -/
def mixedConsumers : List (ChannelAttr (List Byte)) :=
  [{ msgSize := 16, addMsgs := 2, eventfd := true, info := { size := 1, data := some [3] } },
    { msgSize := 1, addMsgs := 5, eventfd := false, info := { size := 3, data := some [4, 5, 6] } }]

/-- The group: two consumers, two producers and an info of its own. -/
def mixedAttr : GroupAttr (List Byte) where
  consumers := some (mixedConsumers ++ ChannelAttr.zero :: [])
  producers := some (mixedProducers ++ ChannelAttr.zero :: [])
  info := { size := 3, data := some [7, 8, 9] }

/-- All four channels can be written. -/
theorem mixed_valid : ∀ attr ∈ mixedProducers ++ mixedConsumers, attr.Valid := by decide

/-- The group of two producers and two consumers, which needs 93 bytes. -/
theorem request_round_trip_mixed :
    ∃ size, requestCalcSize mixedAttr = .ok size ∧
      ∀ buffer : List Byte, buffer.length = size.toNat →
        ∃ written req, requestWrite 64 mixedAttr buffer size = .ok (written, req) ∧ 0 ≤ written ∧
          ∃ data events, requestParse 64 Allocator.zeroed req size = .ok ⟨0, data, events⟩ ∧
            data.Holds (describe mixedAttr.info mixedConsumers mixedProducers).mirror :=
  request_round_trip (by decide) Allocator.zeroed_inRange (Lists.array [] (by decide) rfl)
    (Lists.array [] (by decide) rfl) (by decide) mixed_valid (by decide)

end Rtipc
