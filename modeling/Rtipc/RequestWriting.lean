/-
  The bytes that `ri_request_write` leaves behind.

  `image` is what a group looks like as a request: the fields in front of the table, the entries of
  the producers and of the consumers, and then all infos in the same order.  The writer fills the
  table and the infos at the same time; between its two cursors there is a gap, which is as large as
  the entries that are still to come (`RequestWriter.At`).

  1. **The gap.**  The number of channels is known before the first entry is written, so the infos can
     go behind the end of the table from the start.  `RequestWriter.At` carries what is left of the gap,
     and it is 0 after the last entry.

  2. **The result.**  With room for everything the buffer begins with `image`, and the bytes behind it
     are as before.
-/
import Rtipc.Request

namespace Rtipc

/-! ## Arrays with a sentinel -/

section arrays

variable {π : Type}

/-- The array, or the null pointer, stands for these channels. -/
inductive Lists : Option (List (ChannelAttr π)) → List (ChannelAttr π) → Prop where
  | null : Lists none []
  | array {attrs : List (ChannelAttr π)} {stop : ChannelAttr π} (tail : List (ChannelAttr π))
      (used : ∀ attr ∈ attrs, attr.msgSize ≠ 0) (sentinel : stop.msgSize = 0) :
      Lists (some (attrs ++ stop :: tail)) attrs

variable {attrs : List (ChannelAttr π)}

/-- The count, from the element number `i` on, comes to the sentinel. -/
theorem countChannelsFrom_eq {stop : ChannelAttr π} (tail : List (ChannelAttr π))
    (hused : ∀ attr ∈ attrs, attr.msgSize ≠ 0) (hstop : stop.msgSize = 0) (i : Nat)
    (hlen : i + attrs.length < 2 ^ 32) :
    countChannelsFrom (BitVec.ofNat 32 i) (attrs ++ stop :: tail) =
      .ok (BitVec.ofNat 32 (i + attrs.length)) := by
  induction attrs generalizing i with
  | nil =>
    rw [List.nil_append, countChannelsFrom, if_pos hstop]
    rfl
  | cons attr attrs ih =>
    have hnext : BitVec.ofNat 32 i + 1 = BitVec.ofNat 32 (i + 1) := by
      rw [BitVec.ofNat_add]
      rfl
    rw [List.length_cons] at hlen ⊢
    have hne : ¬ BitVec.ofNat 32 (i + 1) = 0 := by
      intro h
      have := congrArg BitVec.toNat h
      rw [BitVec.toNat_ofNat, Nat.mod_eq_of_lt (by omega)] at this
      exact absurd this (Nat.succ_ne_zero i)
    rw [List.cons_append, countChannelsFrom, if_neg (hused attr List.mem_cons_self), hnext,
      if_neg hne, ih (fun a ha => hused a (List.mem_cons_of_mem _ ha)) (i + 1) (by omega)]
    congr 2
    omega

/-- `ri_count_channels` of a list that can be counted. -/
theorem Lists.count {array : Option (List (ChannelAttr π))} (h : Lists array attrs)
    (hlen : attrs.length < 2 ^ 32) :
    countChannels array = .ok (BitVec.ofNat 32 attrs.length) := by
  cases h with
  | null => rfl
  | array tail used sentinel =>
    rw [countChannels]
    have h := countChannelsFrom_eq tail used sentinel 0 (by omega)
    rwa [Nat.zero_add] at h

/-- The listed channels are the first elements of the array. -/
theorem Lists.elements {array : Option (List (ChannelAttr π))} (h : Lists array attrs) :
    ∃ tail, elements array = attrs ++ tail := by
  cases h with
  | null => exact ⟨[], rfl⟩
  | array tail used sentinel => exact ⟨_ :: tail, rfl⟩

end arrays

/-! ## What is to be written -/

/-- The bytes an info points to. -/
def Info.bytes (info : Info (List Byte)) : List Byte :=
  match info.data with
  | none => []
  | some bytes => bytes.take info.size.toNat

/-- An info is empty or it points to as many bytes as it says. -/
def Info.Valid (info : Info (List Byte)) : Prop :=
  match info.data with
  | none => info.size = 0
  | some bytes => info.size.toNat ≤ bytes.length ∧ info.size.toNat < 2 ^ 32

instance : (info : Info (List Byte)) → Decidable info.Valid
  | ⟨size, none⟩ => inferInstanceAs (Decidable (size = 0))
  | ⟨size, some bytes⟩ =>
    inferInstanceAs (Decidable (size.toNat ≤ bytes.length ∧ size.toNat < 2 ^ 32))

/-- A valid info has as many bytes as its size says. -/
theorem Info.Valid.length {info : Info (List Byte)} (h : info.Valid) :
    info.bytes.length = info.size.toNat := by
  unfold Info.bytes
  unfold Info.Valid at h
  split
  · rename_i hdata
    rw [hdata] at h
    have hzero : info.size = 0 := h
    rw [hzero]
    rfl
  · rename_i bytes hdata
    rw [hdata] at h
    rw [List.length_take, Nat.min_eq_left h.1]

/-- Its size has 32 bits. -/
theorem Info.Valid.small {info : Info (List Byte)} (h : info.Valid) :
    info.size.toNat < 2 ^ 32 := by
  unfold Info.Valid at h
  split at h
  · rw [h]
    decide
  · exact h.2

/-- An info is empty or it points to as many bytes as it says, in an object. -/
def Info.Backed (info : Info (List Byte)) : Prop :=
  info.size = 0 ∨ ∃ bytes, info.data = some bytes ∧ info.size.toNat ≤ bytes.length ∧
    info.size.toNat ≤ ptrdiffMax

/-- It is in an object. -/
theorem Info.Valid.backed {info : Info (List Byte)} (h : info.Valid) : info.Backed := by
  have hmax : 2 ^ 32 ≤ ptrdiffMax := by decide
  unfold Info.Valid at h
  split at h
  · exact Or.inl h
  · rename_i bytes hdata
    exact Or.inr ⟨bytes, hdata, h.1, by omega⟩

/-- An info in an object has as many bytes as its size says. -/
theorem Info.Backed.length {info : Info (List Byte)} (h : info.Backed) :
    info.bytes.length = info.size.toNat := by
  rcases h with hzero | ⟨bytes, hdata, hle, -⟩
  · rw [Info.bytes, hzero]
    split
    · rfl
    · rw [show (0 : Size).toNat = 0 from rfl, List.take_zero]
      rfl
  · rw [Info.bytes, hdata, List.length_take, Nat.min_eq_left hle]

/-- No object is larger than `PTRDIFF_MAX`. -/
theorem Info.Backed.small {info : Info (List Byte)} (h : info.Backed) :
    info.size.toNat ≤ ptrdiffMax := by
  rcases h with hzero | ⟨-, -, -, hsmall⟩
  · rw [hzero]
    exact Nat.zero_le _
  · exact hsmall

/-- The bytes of the table. -/
def tableImage {π : Type} (attrs : List (ChannelAttr π)) : List Byte :=
  attrs.flatMap fun attr => (Entry.ofAttr attr).bytes

/-- The bytes of the infos of channels. -/
def infosImage (attrs : List (ChannelAttr (List Byte))) : List Byte :=
  attrs.flatMap fun attr => attr.info.bytes

/-- The fields in front of the table. -/
def frontImage (cls : Size) (info : Info (List Byte)) (nProducers nConsumers : Nat) : List Byte :=
  (RequestHeader.init cls).bytes ++ unsignedBytes (info.size.setWidth 32) ++
    unsignedBytes (BitVec.ofNat 32 nProducers) ++ unsignedBytes (BitVec.ofNat 32 nConsumers)

/-- The request for a group. -/
def image (cls : Size) (info : Info (List Byte))
    (producers consumers : List (ChannelAttr (List Byte))) : List Byte :=
  frontImage cls info producers.length consumers.length ++ tableImage (producers ++ consumers) ++
    (info.bytes ++ infosImage (producers ++ consumers))

/-- The table of one channel more. -/
theorem tableImage_cons {π : Type} (attr : ChannelAttr π) (attrs : List (ChannelAttr π)) :
    tableImage (attr :: attrs) = (Entry.ofAttr attr).bytes ++ tableImage attrs :=
  List.flatMap_cons

/-- The infos of one channel more. -/
theorem infosImage_cons (attr : ChannelAttr (List Byte)) (attrs : List (ChannelAttr (List Byte))) :
    infosImage (attr :: attrs) = attr.info.bytes ++ infosImage attrs :=
  List.flatMap_cons

/-- The table of two lists. -/
@[simp] theorem tableImage_append {π : Type} (attrs attrs' : List (ChannelAttr π)) :
    tableImage (attrs ++ attrs') = tableImage attrs ++ tableImage attrs' :=
  List.flatMap_append

/-- The infos of two lists. -/
@[simp] theorem infosImage_append (attrs attrs' : List (ChannelAttr (List Byte))) :
    infosImage (attrs ++ attrs') = infosImage attrs ++ infosImage attrs' :=
  List.flatMap_append

/-- `sizeof(uint32_t)`. -/
@[simp] theorem length_unsignedBytes (x : Unsigned) : (unsignedBytes x).length = 4 :=
  length_toBytes 4 x.toNat

/-- `sizeof(ri_request_header_t)`. -/
@[simp] theorem RequestHeader.length_bytes (h : RequestHeader) : h.bytes.length = 8 := by
  simp [RequestHeader.bytes]

/-- `sizeof(entry_t)`. -/
@[simp] theorem Entry.length_bytes (e : Entry) : e.bytes.length = 16 := by
  simp [Entry.bytes]

/-- The header and the three numbers. -/
@[simp] theorem length_frontImage (cls : Size) (info : Info (List Byte)) (m n : Nat) :
    (frontImage cls info m n).length = 20 := by
  simp [frontImage]

/-- One entry for each channel. -/
@[simp] theorem length_tableImage {π : Type} (attrs : List (ChannelAttr π)) :
    (tableImage attrs).length = 16 * attrs.length := by
  induction attrs with
  | nil => rfl
  | cons attr attrs ih =>
    rw [tableImage_cons, List.length_append, Entry.length_bytes, ih, List.length_cons]
    omega

/-! ## The writer

  The invariant of the two loops, and what one write does to it. -/

/-- The writer has filled the table with `table` and the infos with `infos`; `gap` is the rest of the
    table, and `rest` what is behind the infos. -/
structure RequestWriter.At (writer : RequestWriter) (table gap infos rest : List Byte) : Prop where
  data : writer.data = table ++ (gap ++ (infos ++ rest))
  size : writer.size.toNat = writer.data.length
  small : writer.data.length ≤ ptrdiffMax
  offset : writer.offset.toNat = table.length
  offsetInfo : writer.offsetInfo.toNat = (table ++ gap ++ infos).length

section writer

variable {writer : RequestWriter} {table gap infos rest src : List Byte} {size : Size}

/-- Bytes that are there can be loaded from the start. -/
theorem loadBytes_zero {mem : List Byte} (f : Fault) (h : size.toNat ≤ mem.length) :
    loadBytes f mem 0 size = .ok (mem.take size.toNat) :=
  if_pos (show 0 + size.toNat ≤ mem.length by omega)

/-- A write behind the bytes `done`. -/
theorem RequestWriter.write_eq {done rest : List Byte} (hdata : writer.data = done ++ rest)
    (hsize : writer.size.toNat = writer.data.length) (hsmall : writer.data.length ≤ ptrdiffMax)
    (hoffset : writer.offset.toNat = done.length) (hsrc : size.toNat = src.length)
    (hroom : src.length ≤ rest.length) :
    ∃ writer', writer.write src size = .ok (0, writer') ∧
      writer'.data = done ++ src ++ rest.drop src.length ∧
      writer'.size.toNat = writer'.data.length ∧ writer'.data.length = writer.data.length ∧
      writer'.offset.toNat = (done ++ src).length ∧ writer'.offsetInfo = writer.offsetInfo := by
  have hlen := congrArg List.length hdata
  rw [List.length_append] at hlen
  have hmax : ptrdiffMax < 2 ^ 63 := by decide
  have hsum : (writer.offset + size).toNat = (done ++ src).length := by
    rw [BitVec.toNat_add, hoffset, hsrc, List.length_append]
    omega
  -- There is room, so the write succeeds and the bytes follow those written before.
  have hle : ¬ writer.offset + size > writer.size := by
    rw [gt_iff_lt, BitVec.lt_def, hsum, List.length_append]
    omega
  have hload : loadBytes .request src 0 size = .ok src := by
    rw [loadBytes_zero _ (le_of_eq hsrc), hsrc, List.take_length]
  have hstore : storeBytes .request writer.data writer.offset src =
      .ok (done ++ src ++ rest.drop src.length) := by
    rw [storeBytes, if_pos (by omega), hoffset, hdata, writeAt_append]
  have hlen' : (done ++ src ++ rest.drop src.length).length = writer.data.length := by
    rw [List.length_append, List.length_append, List.length_drop]
    omega
  refine ⟨{ writer with
      data := done ++ src ++ rest.drop src.length
      offset := writer.offset + size }, ?_, rfl, hsize.trans hlen'.symm, hlen', hsum, rfl⟩
  rw [RequestWriter.write, if_neg hle, hload]
  show (storeBytes .request writer.data writer.offset src >>= _) = _
  rw [hstore]
  rfl

/-- One more entry. -/
theorem RequestWriter.At.write {room : List Byte}
    (h : writer.At table (room ++ gap) infos rest) (hsrc : size.toNat = src.length)
    (hroom : room.length = src.length) :
    ∃ writer', writer.write src size = .ok (0, writer') ∧
      writer'.At (table ++ src) gap infos rest := by
  have hdata := h.data
  rw [List.append_assoc] at hdata
  obtain ⟨writer', hwrite, hdata', hsize, hlen, hoffset, hinfo⟩ :=
    RequestWriter.write_eq hdata h.size h.small h.offset hsrc (by rw [List.length_append]; omega)
  rw [← hroom, List.drop_left] at hdata'
  refine ⟨writer', hwrite, hdata', hsize, hlen ▸ h.small, hoffset, ?_⟩
  rw [hinfo, h.offsetInfo]
  simp only [List.length_append, hroom]
  omega

/-- One more info. -/
theorem RequestWriter.At.writeInfo {info : Info (List Byte)} {room : List Byte}
    (h : writer.At table gap infos (room ++ rest)) (hinfo : info.Valid)
    (hroom : room.length = info.bytes.length) :
    ∃ writer', writer.writeInfo info = .ok (0, writer') ∧
      writer'.At table gap (infos ++ info.bytes) rest := by
  have hlen := hinfo.length
  rw [RequestWriter.writeInfo]
  split
  · -- no info, an empty one, or bytes to be written behind the infos
    rename_i hdata
    have hnil : info.bytes = [] := by rw [Info.bytes, hdata]
    rw [hnil] at hroom ⊢
    obtain rfl := List.length_eq_zero_iff.mp hroom
    exact ⟨writer, rfl, by rwa [List.append_nil]⟩
  · rename_i bytes hdata
    by_cases hzero : info.size = 0
    · have hnil : info.bytes = [] := List.length_eq_zero_iff.mp (by rw [hlen, hzero]; rfl)
      rw [hnil] at hroom ⊢
      obtain rfl := List.length_eq_zero_iff.mp hroom
      rw [if_pos hzero]
      exact ⟨writer, rfl, by rwa [List.append_nil]⟩
    · have hbytes : info.bytes = bytes.take info.size.toNat := by rw [Info.bytes, hdata]
      have hvalid : info.size.toNat ≤ bytes.length := by
        unfold Info.Valid at hinfo
        rw [hdata] at hinfo
        exact hinfo.1
      have hwriter := congrArg List.length h.data
      simp only [List.length_append] at hwriter
      have hsmall := h.small
      have hsize := h.size
      have hoffset := h.offsetInfo
      simp only [List.length_append] at hoffset
      have hmax : ptrdiffMax < 2 ^ 63 := by decide
      have hsum : (writer.offsetInfo + info.size).toNat =
          (table ++ gap ++ infos).length + info.bytes.length := by
        rw [BitVec.toNat_add, hlen]
        simp only [List.length_append]
        omega
      have hle : ¬ writer.offsetInfo + info.size > writer.size := by
        rw [gt_iff_lt, BitVec.lt_def, hsum]
        simp only [List.length_append]
        omega
      have hload : loadBytes .infos bytes 0 info.size = .ok info.bytes := by
        rw [loadBytes_zero _ hvalid, hbytes]
      have hstore : storeBytes .request writer.data writer.offsetInfo info.bytes =
          .ok (table ++ gap ++ infos ++ info.bytes ++ rest) := by
        have hsplit : writer.data = (table ++ gap ++ infos) ++ (room ++ rest) := by
          rw [h.data]
          simp only [List.append_assoc]
        rw [storeBytes, if_pos (by omega), h.offsetInfo, hsplit, writeAt_append, ← hroom,
          List.drop_left]
      rw [if_neg hzero, if_neg hle, hload]
      refine ⟨{ writer with
          data := table ++ gap ++ infos ++ info.bytes ++ rest
          offsetInfo := writer.offsetInfo + info.size }, ?_, ?_, ?_, ?_, h.offset, ?_⟩
      · show (storeBytes .request writer.data writer.offsetInfo info.bytes >>= _) = _
        rw [hstore]
        rfl
      · simp only [List.append_assoc]
      · show writer.size.toNat = (table ++ gap ++ infos ++ info.bytes ++ rest).length
        simp only [List.length_append]
        omega
      · show (table ++ gap ++ infos ++ info.bytes ++ rest).length ≤ ptrdiffMax
        simp only [List.length_append]
        omega
      · show (writer.offsetInfo + info.size).toNat = _
        rw [hsum, ← List.length_append, List.append_assoc]

/-- One more channel. -/
theorem RequestWriter.At.writeChannel {attr : ChannelAttr (List Byte)} {room room' : List Byte}
    (h : writer.At table (room ++ gap) infos (room' ++ rest)) (hinfo : attr.info.Valid)
    (hroom : room.length = 16) (hroom' : room'.length = attr.info.bytes.length) :
    ∃ writer', writer.writeChannel attr = .ok (0, writer') ∧
      writer'.At (table ++ (Entry.ofAttr attr).bytes) gap (infos ++ attr.info.bytes) rest := by
  have hentry : (Entry.ofAttr attr).bytes.length = 16 := Entry.length_bytes _
  obtain ⟨writer', hwrite, hat⟩ := h.write (show Entry.size.toNat = _ from hentry.symm)
    (hroom.trans hentry.symm)
  obtain ⟨writer'', hwrite', hat'⟩ := hat.writeInfo hinfo hroom'
  rw [RequestWriter.writeChannel, hwrite]
  show ∃ writer'', (if attr.info.data.isSome then writer'.writeInfo attr.info
    else Except.ok (0, writer')) = _ ∧ _
  split
  · exact ⟨writer'', hwrite', hat'⟩
  · rename_i hdata
    have hnone : attr.info.data = none := Option.not_isSome_iff_eq_none.mp hdata
    rw [RequestWriter.writeInfo, hnone] at hwrite'
    cases hwrite'
    exact ⟨writer', rfl, hat'⟩

/-- The loop over the channels. -/
theorem RequestWriter.At.writeChannels {attrs : List (ChannelAttr (List Byte))}
    {room room' : List Byte} (h : writer.At table (room ++ gap) infos (room' ++ rest))
    (hinfo : ∀ attr ∈ attrs, attr.info.Valid) (hroom : room.length = 16 * attrs.length)
    (hroom' : room'.length = (infosImage attrs).length)
    (tail : List (ChannelAttr (List Byte))) :
    ∃ writer', RequestWriter.writeChannels attrs.length (attrs ++ tail) writer = .ok (0, writer') ∧
      writer'.At (table ++ tableImage attrs) gap (infos ++ infosImage attrs) rest := by
  -- The induction is on the channels; each takes 16 bytes of the table and its info's bytes.
  induction attrs generalizing writer table infos room room' with
  | nil =>
    obtain rfl := List.length_eq_zero_iff.mp hroom
    obtain rfl := List.length_eq_zero_iff.mp hroom'
    refine ⟨writer, rfl, ?_⟩
    rwa [tableImage, infosImage, List.flatMap_nil, List.flatMap_nil, List.append_nil,
      List.append_nil]
  | cons attr attrs ih =>
    rw [List.length_cons] at hroom
    rw [infosImage_cons, List.length_append] at hroom'
    rw [← List.take_append_drop 16 room, ← List.take_append_drop attr.info.bytes.length room',
      List.append_assoc, List.append_assoc] at h
    obtain ⟨writer₁, hwrite, hat⟩ := h.writeChannel (hinfo attr List.mem_cons_self)
      (by rw [List.length_take]; omega) (by rw [List.length_take]; omega)
    obtain ⟨writer', hloop, hat'⟩ := ih hat (fun a ha => hinfo a (List.mem_cons_of_mem _ ha))
      (by rw [List.length_drop]; omega) (by rw [List.length_drop]; omega)
    refine ⟨writer', ?_, ?_⟩
    · rw [List.length_cons, List.cons_append, RequestWriter.writeChannels, hwrite]
      exact hloop
    · rw [tableImage_cons, infosImage_cons, ← List.append_assoc, ← List.append_assoc]
      exact hat'

end writer

/-! ## `ri_request_write` -/

section write

variable {attr : GroupAttr (List Byte)} {producers consumers : List (ChannelAttr (List Byte))}
  {req : List Byte} {size : Size}

/-- The size of the table, if the channels can be counted. -/
theorem toNat_tableSize {m n : Nat} (h : m + n < 2 ^ 32) :
    ((BitVec.ofNat 32 m + BitVec.ofNat 32 n).setWidth 64 * Entry.size : Size).toNat =
      16 * (m + n) := by
  rw [← BitVec.ofNat_add, BitVec.toNat_mul, BitVec.toNat_setWidth, BitVec.toNat_ofNat,
    show Entry.size.toNat = 16 from rfl]
  omega

/-- The fields in front of the table are written, and the cursor for the infos is set behind it. -/
theorem RequestWriter.front (cls : Size) (info : Info (List Byte)) (m n : Nat)
    (hcount : m + n < 2 ^ 32) (hsize : size.toNat = req.length) (hsmall : req.length ≤ ptrdiffMax)
    (hroom : 20 + 16 * (m + n) ≤ req.length) :
    ∃ w₁ w₂ w₃ w₄ : RequestWriter,
      (RequestWriter.mk req size 0 0).write (RequestHeader.init cls).bytes RequestHeader.size =
        .ok (0, w₁) ∧
      w₁.write (unsignedBytes (info.size.setWidth 32)) sizeofUnsigned = .ok (0, w₂) ∧
      w₂.write (unsignedBytes (BitVec.ofNat 32 m)) sizeofUnsigned = .ok (0, w₃) ∧
      w₃.write (unsignedBytes (BitVec.ofNat 32 n)) sizeofUnsigned = .ok (0, w₄) ∧
      RequestWriter.At
        { w₄ with
          offsetInfo := w₄.offset +
            (BitVec.ofNat 32 m + BitVec.ofNat 32 n).setWidth 64 * Entry.size }
        (frontImage cls info m n) ((req.drop 20).take (16 * (m + n))) []
        ((req.drop 20).drop (16 * (m + n))) := by
  -- Four writes after each other: the header, the length of the group's info and the two counts.
  have hfour (x : Unsigned) : sizeofUnsigned.toNat = (unsignedBytes x).length :=
    (length_unsignedBytes x).symm
  have hdata₀ : (RequestWriter.mk req size 0 0).data = [] ++ req := rfl
  obtain ⟨w₁, h₁, hdata₁, hsize₁, hlen₁, hoff₁, -⟩ := RequestWriter.write_eq hdata₀ hsize hsmall rfl
    (show RequestHeader.size.toNat = (RequestHeader.init cls).bytes.length by simp; rfl)
    (by rw [RequestHeader.length_bytes]; omega)
  rw [RequestHeader.length_bytes] at hdata₁
  obtain ⟨w₂, h₂, hdata₂, hsize₂, hlen₂, hoff₂, -⟩ := RequestWriter.write_eq hdata₁ hsize₁
    (hlen₁ ▸ hsmall) hoff₁ (hfour (info.size.setWidth 32))
    (by rw [length_unsignedBytes, List.length_drop]; omega)
  rw [length_unsignedBytes, List.drop_drop] at hdata₂
  obtain ⟨w₃, h₃, hdata₃, hsize₃, hlen₃, hoff₃, -⟩ := RequestWriter.write_eq hdata₂ hsize₂
    (hlen₂.trans hlen₁ ▸ hsmall) hoff₂ (hfour (BitVec.ofNat 32 m))
    (by rw [length_unsignedBytes, List.length_drop]; omega)
  rw [length_unsignedBytes, List.drop_drop] at hdata₃
  obtain ⟨w₄, h₄, hdata₄, hsize₄, hlen₄, hoff₄, -⟩ := RequestWriter.write_eq hdata₃ hsize₃
    (hlen₃.trans (hlen₂.trans hlen₁) ▸ hsmall) hoff₃ (hfour (BitVec.ofNat 32 n))
    (by rw [length_unsignedBytes, List.length_drop]; omega)
  rw [length_unsignedBytes, List.drop_drop] at hdata₄
  have hdata : w₄.data = frontImage cls info m n ++ req.drop 20 := hdata₄
  have hlen : w₄.data.length = req.length := hlen₄.trans (hlen₃.trans (hlen₂.trans hlen₁))
  have hoff : w₄.offset.toNat = (frontImage cls info m n).length := hoff₄
  rw [length_frontImage] at hoff
  refine ⟨w₁, w₂, w₃, w₄, h₁, h₂, h₃, h₄, ?_, hsize₄, hlen ▸ hsmall, hoff₄, ?_⟩
  · rw [List.nil_append, List.take_append_drop]
    exact hdata
  · have hmax : ptrdiffMax < 2 ^ 63 := by decide
    show (w₄.offset + _).toNat = _
    rw [BitVec.toNat_add, hoff, toNat_tableSize hcount, List.append_nil, List.length_append,
      length_frontImage, List.length_take, List.length_drop]
    omega

/-- The infos of the group and the channels are written. -/
theorem RequestWriter.At.body {writer : RequestWriter} {table gap rest : List Byte}
    {info : Info (List Byte)} (h : writer.At table gap [] rest) (hinfo : info.Valid)
    (hinfos : ∀ attr ∈ producers ++ consumers, attr.info.Valid)
    (hgap : gap.length = 16 * (producers.length + consumers.length))
    (hrest : (info.bytes ++ infosImage (producers ++ consumers)).length ≤ rest.length)
    (tailP tailC : List (ChannelAttr (List Byte))) :
    ∃ w₁ w₂ w₃ : RequestWriter, writer.writeInfo info = .ok (0, w₁) ∧
      RequestWriter.writeChannels producers.length (producers ++ tailP) w₁ = .ok (0, w₂) ∧
      RequestWriter.writeChannels consumers.length (consumers ++ tailC) w₂ = .ok (0, w₃) ∧
      w₃.At (table ++ tableImage (producers ++ consumers)) []
        (info.bytes ++ infosImage (producers ++ consumers))
        (rest.drop (info.bytes ++ infosImage (producers ++ consumers)).length) := by
  simp only [infosImage_append, tableImage_append, List.length_append] at hrest ⊢
  rw [← List.take_append_drop info.bytes.length rest] at h
  obtain ⟨w₁, h₁, hat₁⟩ := h.writeInfo hinfo (by rw [List.length_take]; omega)
  rw [← List.take_append_drop (16 * producers.length) gap,
    ← List.take_append_drop (infosImage producers).length (rest.drop _)] at hat₁
  obtain ⟨w₂, h₂, hat₂⟩ := hat₁.writeChannels
    (fun a ha => hinfos a (List.mem_append_left _ ha)) (by rw [List.length_take]; omega)
    (by rw [List.length_take, List.length_drop]; omega) tailP
  rw [← List.append_nil (gap.drop _),
    ← List.take_append_drop (infosImage consumers).length (List.drop _ (rest.drop _))] at hat₂
  obtain ⟨w₃, h₃, hat₃⟩ := hat₂.writeChannels
    (fun a ha => hinfos a (List.mem_append_right _ ha)) (by rw [List.length_drop]; omega)
    (by rw [List.length_take, List.length_drop, List.length_drop]; omega) tailC
  refine ⟨w₁, w₂, w₃, h₁, h₂, h₃, ?_⟩
  rwa [List.nil_append, List.drop_drop, List.drop_drop, List.append_assoc, List.append_assoc] at hat₃

/-- The request is written: in front of whatever is behind it in the buffer stands the image. -/
theorem requestWrite_eq (cls : Size) (hp : Lists attr.producers producers)
    (hc : Lists attr.consumers consumers) (hinfo : attr.info.Valid)
    (hinfos : ∀ attr ∈ producers ++ consumers, attr.info.Valid)
    (hcount : producers.length + consumers.length < 2 ^ 32) (hsize : size.toNat = req.length)
    (hsmall : req.length ≤ ptrdiffMax)
    (hroom : (image cls attr.info producers consumers).length ≤ req.length) :
    requestWrite cls attr req size =
      .ok (intOfSize (BitVec.ofNat 64 (20 + 16 * (producers.length + consumers.length))),
        image cls attr.info producers consumers ++
          req.drop (image cls attr.info producers consumers).length) := by
  have hlen : 20 + 16 * (producers.length + consumers.length) +
      (attr.info.bytes.length + (infosImage (producers ++ consumers)).length) ≤ req.length := by
    refine le_trans (le_of_eq ?_) hroom
    simp only [image, List.length_append, length_frontImage, length_tableImage]
  have hne : size ≠ 0 := by
    intro h
    rw [h] at hsize
    have : (0 : Size).toNat = 0 := rfl
    omega
  rw [requestWrite, if_neg hne, hp.count (by omega), hc.count (by omega)]
  obtain ⟨w₁, w₂, w₃, w₄, h₁, h₂, h₃, h₄, hat⟩ := RequestWriter.front cls attr.info
    producers.length consumers.length hcount hsize hsmall (by omega)
  obtain ⟨tailP, htailP⟩ := hp.elements
  obtain ⟨tailC, htailC⟩ := hc.elements
  obtain ⟨w₅, w₆, w₇, h₅, h₆, h₇, hat'⟩ := hat.body hinfo hinfos
    (by rw [List.length_take, List.length_drop]; omega)
    (by rw [List.length_append, List.length_drop, List.length_drop]; omega) tailP tailC
  have htoNat {n : Nat} (h : n < 2 ^ 32) : (BitVec.ofNat 32 n).toNat = n := by
    rw [BitVec.toNat_ofNat, Nat.mod_eq_of_lt h]
  show ((RequestWriter.mk req size 0 0).write _ RequestHeader.size >>= _) = _
  rw [h₁]
  show (w₁.write (unsignedBytes (attr.info.size.setWidth 32)) sizeofUnsigned >>= _) = _
  rw [h₂]
  show (w₂.write (unsignedBytes (BitVec.ofNat 32 producers.length)) sizeofUnsigned >>= _) = _
  rw [h₃]
  show (w₃.write (unsignedBytes (BitVec.ofNat 32 consumers.length)) sizeofUnsigned >>= _) = _
  rw [h₄]
  show (RequestWriter.writeInfo _ attr.info >>= _) = _
  rw [h₅]
  show (RequestWriter.writeChannels (BitVec.ofNat 32 producers.length).toNat
    (elements attr.producers) w₅ >>= _) = _
  rw [htoNat (by omega), htailP, h₆]
  show (RequestWriter.writeChannels (BitVec.ofNat 32 consumers.length).toNat
    (elements attr.consumers) w₆ >>= _) = _
  rw [htoNat (by omega), htailC, h₇]
  show Except.ok (intOfSize w₇.offset, w₇.data) = _
  have hoffset : w₇.offset =
      BitVec.ofNat 64 (20 + 16 * (producers.length + consumers.length)) := by
    refine BitVec.eq_of_toNat_eq ?_
    rw [hat'.offset, List.length_append, length_frontImage, length_tableImage, List.length_append,
      BitVec.toNat_ofNat]
    omega
  rw [hoffset, hat'.data, image, List.nil_append, List.drop_drop, List.drop_drop]
  simp only [List.length_append, length_frontImage, length_tableImage, List.append_assoc]

/-! ## `ri_request_calc_size` -/

/-- `ri_request_calc_size` adds up the bytes of all infos, modulo 2⁶⁴. -/
theorem addInfoSizes_eq {attrs : List (ChannelAttr (List Byte))}
    (hinfos : ∀ attr ∈ attrs, attr.info.Backed) (tail : List (ChannelAttr (List Byte)))
    (size : Size) :
    addInfoSizes attrs.length (attrs ++ tail) size =
      .ok (size + BitVec.ofNat 64 (infosImage attrs).length) := by
  induction attrs generalizing size with
  | nil =>
    show Except.ok size = Except.ok (size + 0#64)
    rw [BitVec.add_zero]
  | cons attr attrs ih =>
    have hsize : attr.info.size = BitVec.ofNat 64 attr.info.bytes.length := by
      rw [(hinfos attr List.mem_cons_self).length, BitVec.ofNat_toNat, BitVec.setWidth_eq]
    rw [List.length_cons, List.cons_append, addInfoSizes,
      ih (fun a ha => hinfos a (List.mem_cons_of_mem _ ha)), infosImage_cons, List.length_append,
      BitVec.ofNat_add, ← hsize, BitVec.add_assoc]

/-- The numbers of channels are added in 32 bits. -/
theorem requestCalcSize_eq (hp : Lists attr.producers producers)
    (hc : Lists attr.consumers consumers) (hinfo : attr.info.Backed)
    (hinfos : ∀ attr ∈ producers ++ consumers, attr.info.Backed)
    (hlenP : producers.length < 2 ^ 32) (hlenC : consumers.length < 2 ^ 32) :
    requestCalcSize attr =
      .ok (BitVec.ofNat 64 (20 + 16 * ((producers.length + consumers.length) % 2 ^ 32) +
        (attr.info.bytes.length + (infosImage (producers ++ consumers)).length))) := by
  obtain ⟨tailP, htailP⟩ := hp.elements
  obtain ⟨tailC, htailC⟩ := hc.elements
  have htoNat {n : Nat} (h : n < 2 ^ 32) : (BitVec.ofNat 32 n).toNat = n := by
    rw [BitVec.toNat_ofNat, Nat.mod_eq_of_lt h]
  have hsize : attr.info.size = BitVec.ofNat 64 attr.info.bytes.length := by
    rw [hinfo.length, BitVec.ofNat_toNat, BitVec.setWidth_eq]
  have htable : ((BitVec.ofNat 32 consumers.length + BitVec.ofNat 32 producers.length).setWidth 64 *
      Entry.size : Size) =
        BitVec.ofNat 64 (16 * ((producers.length + consumers.length) % 2 ^ 32)) := by
    refine BitVec.eq_of_toNat_eq ?_
    rw [← BitVec.ofNat_add, BitVec.toNat_mul, BitVec.toNat_setWidth, BitVec.toNat_ofNat,
      BitVec.toNat_ofNat, show Entry.size.toNat = 16 from rfl]
    omega
  rw [requestCalcSize, hc.count hlenC, hp.count hlenP]
  show (addInfoSizes (BitVec.ofNat 32 consumers.length).toNat (elements attr.consumers)
    (RequestHeader.size + 3 * sizeofUnsigned + _ * Entry.size + attr.info.size) >>= _) = _
  rw [htoNat hlenC, htailC, addInfoSizes_eq fun a ha => hinfos a (List.mem_append_right _ ha)]
  show addInfoSizes (BitVec.ofNat 32 producers.length).toNat (elements attr.producers) _ = _
  rw [htoNat hlenP, htailP,
    addInfoSizes_eq fun a ha => hinfos a (List.mem_append_left _ ha), htable, hsize]
  refine congrArg Except.ok ?_
  show BitVec.ofNat 64 20 + _ + _ + _ + _ = _
  rw [← BitVec.ofNat_add, ← BitVec.ofNat_add, ← BitVec.ofNat_add, ← BitVec.ofNat_add]
  congr 1
  simp only [infosImage_append, List.length_append]
  omega

/-- If that does not wrap the size is that of the image. -/
theorem requestCalcSize_image (cls : Size) (hp : Lists attr.producers producers)
    (hc : Lists attr.consumers consumers) (hinfo : attr.info.Valid)
    (hinfos : ∀ attr ∈ producers ++ consumers, attr.info.Valid)
    (hcount : producers.length + consumers.length < 2 ^ 32) :
    requestCalcSize attr =
      .ok (BitVec.ofNat 64 (image cls attr.info producers consumers).length) := by
  rw [requestCalcSize_eq hp hc hinfo.backed (fun a ha => (hinfos a ha).backed) (by omega) (by omega),
    Nat.mod_eq_of_lt hcount, image]
  simp only [List.length_append, length_frontImage, length_tableImage]

end write

end Rtipc
