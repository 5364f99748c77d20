/-
  What a successful `ri_request_write` has written into the table, whatever the infos are.

  The bytes up to the cursor of the table are the fields and the entries that have been written
  (`RequestWriter.Filled`); the infos go behind the place that is kept for the whole table.  The write
  of the number of consumers is not checked, so with no channels at all the last field may be missing.
-/
import Rtipc.DataCopy
import Rtipc.RequestRoom

namespace Rtipc

section writer

variable {w w' : RequestWriter} {cap : Nat} {table src : List Byte} {r : Int}

/-- The bytes up to the cursor are `table`, and infos are written behind the first `cap` bytes. -/
structure RequestWriter.Filled (w : RequestWriter) (cap : Nat) (table : List Byte) : Prop where
  data : w.data.take table.length = table
  offset : w.offset.toNat = table.length
  small : w.data.length ≤ ptrdiffMax
  gap : cap ≤ w.offsetInfo.toNat

/-- What has been written fits in the request. -/
theorem RequestWriter.Filled.length (h : w.Filled cap table) : table.length ≤ w.data.length := by
  have hlen := congrArg List.length h.data
  rw [List.length_take] at hlen
  omega

/-- Writing behind what has been written extends it. -/
theorem take_writeAt {l : List Byte} (h : l.take table.length = table) :
    (writeAt l table.length src).take (table ++ src).length = table ++ src := by
  rw [writeAt, h, List.take_left]

/-- What one `request_write` does: either there is no room and nothing changes, or the bytes are behind
    the old ones. -/
theorem RequestWriter.write_cases {size : Size} (hsize : size.toNat = src.length)
    (h : w.write src size = .ok (r, w')) :
    r < 0 ∧ w' = w ∧ w.size < w.offset + size ∨
      r = 0 ∧ w.offset + size ≤ w.size ∧ w.offset.toNat + src.length ≤ w.data.length ∧
        w' = { w with data := writeAt w.data w.offset.toNat src, offset := w.offset + size } := by
  unfold RequestWriter.write at h
  split at h
  · rename_i hgt
    cases h
    exact Or.inl ⟨by decide, rfl, hgt⟩
  · rename_i hle
    rw [loadBytes_zero _ (le_of_eq hsize), hsize, List.take_length] at h
    obtain ⟨src', hsrc, h⟩ := checkedBind_ok.mp h
    cases hsrc
    obtain ⟨data, hstore, h⟩ := checkedBind_ok.mp h
    cases h
    obtain ⟨hinside, rfl⟩ := storeBytes_ok hstore
    exact Or.inr ⟨rfl, BitVec.not_lt.mp hle, hinside, rfl⟩

/-- What is written behind the table. -/
theorem RequestWriter.Filled.write {size : Size} (h : w.Filled cap table)
    (hsize : size.toNat = src.length) (hwrite : w.write src size = .ok (r, w')) (hr : 0 ≤ r) :
    w'.Filled cap (table ++ src) ∧ w'.size = w.size ∧ w'.offsetInfo = w.offsetInfo ∧
      table.length + src.length ≤ w.size.toNat ∧ w'.data.length = w.data.length := by
  rcases RequestWriter.write_cases hsize hwrite with ⟨hneg, -⟩ | ⟨-, hle, hinside, rfl⟩
  · omega
  · have hmax : ptrdiffMax < 2 ^ 63 := by decide
    have hsmall := h.small
    have hoffset := h.offset
    have hsum : (w.offset + size).toNat = table.length + src.length := by
      rw [BitVec.toNat_add, hoffset, hsize]
      exact Nat.mod_eq_of_lt (by omega)
    rw [BitVec.le_def, hsum] at hle
    have hlength := length_writeAt hinside
    refine ⟨⟨?_, ?_, ?_, h.gap⟩, rfl, rfl, hle, hlength⟩
    · show (writeAt w.data w.offset.toNat src).take _ = _
      rw [hoffset]
      exact take_writeAt h.data
    · rw [List.length_append]
      exact hsum
    · show (writeAt w.data w.offset.toNat src).length ≤ _
      rw [hlength]
      exact hsmall

/-- An absent info is not written. -/
theorem RequestWriter.writeInfo_absent {info : Info (List Byte)} (h : info.Absent) (w : RequestWriter) :
    w.writeInfo info = .ok (0, w) := by
  unfold RequestWriter.writeInfo
  rcases h with hnone | hzero
  · rw [hnone]
    rfl
  · rw [hzero]
    split
    · rfl
    · rw [if_pos rfl]
      rfl

/-- An info goes behind the table. -/
theorem RequestWriter.Filled.writeInfo {info : Info (List Byte)} (h : w.Filled cap table)
    (hcap : info.Absent ∨ table.length ≤ cap) (hwrite : w.writeInfo info = .ok (r, w')) :
    w'.Filled cap table ∧ w'.size = w.size ∧ w'.data.length = w.data.length := by
  rcases hcap with habsent | hcap
  · rw [RequestWriter.writeInfo_absent habsent] at hwrite
    cases hwrite
    exact ⟨h, rfl, rfl⟩
  unfold RequestWriter.writeInfo at hwrite
  split at hwrite
  · cases hwrite
    exact ⟨h, rfl, rfl⟩
  · split at hwrite
    · cases hwrite
      exact ⟨h, rfl, rfl⟩
    · split at hwrite
      · cases hwrite
        exact ⟨h, rfl, rfl⟩
      · obtain ⟨src, hsrc, hwrite⟩ := checkedBind_ok.mp hwrite
        obtain ⟨data, hstore, hwrite⟩ := checkedBind_ok.mp hwrite
        cases hwrite
        obtain ⟨-, hlen⟩ := loadBytes_ok hsrc
        obtain ⟨hinside, rfl⟩ := storeBytes_ok hstore
        have hmax : ptrdiffMax < 2 ^ 63 := by decide
        have hsmall := h.small
        have hgap := h.gap
        have hlength := length_writeAt hinside
        -- The infos lie behind the table, so the table is untouched.
        have hbefore : 0 + table.length ≤ w.offsetInfo.toNat := by omega
        refine ⟨⟨?_, h.offset, ?_, ?_⟩, rfl, hlength⟩
        · have hread : readAt (writeAt w.data w.offsetInfo.toNat src) 0 table.length =
              readAt w.data 0 table.length := readAt_writeAt_of_le (by omega) hbefore
          rw [readAt, readAt, List.drop_zero, List.drop_zero, h.data] at hread
          exact hread
        · show (writeAt w.data w.offsetInfo.toNat src).length ≤ _
          rw [hlength]
          exact hsmall
        · show cap ≤ (w.offsetInfo + info.size).toNat
          rw [BitVec.toNat_add, ← hlen]
          rw [Nat.mod_eq_of_lt (by omega)]
          omega

/-- One entry, and the info of the channel. -/
theorem RequestWriter.Filled.writeChannel {attr : ChannelAttr (List Byte)} (h : w.Filled cap table)
    (hcap : attr.info.Absent ∨ table.length + 16 ≤ cap)
    (hwrite : w.writeChannel attr = .ok (r, w')) (hr : 0 ≤ r) :
    w'.Filled cap (table ++ (Entry.ofAttr attr).bytes) ∧ w'.size = w.size ∧
      table.length + 16 ≤ w.size.toNat ∧ w'.data.length = w.data.length := by
  have hentry : (Entry.ofAttr attr).bytes.length = 16 := Entry.length_bytes _
  obtain ⟨⟨r₁, w₁⟩, h₁, hwrite⟩ := checkedBind_ok.mp hwrite
  dsimp only at hwrite
  split at hwrite
  · cases hwrite
    omega
  · rename_i hr₁
    obtain ⟨hfilled, hsize, -, hle, hlen⟩ :=
      h.write (show Entry.size.toNat = _ from hentry.symm) h₁ (not_lt.mp hr₁)
    rw [hentry] at hle
    split at hwrite
    · obtain ⟨hfilled', hsize', hlen'⟩ := hfilled.writeInfo (by
        rw [List.length_append, hentry]
        exact hcap) hwrite
      exact ⟨hfilled', hsize'.trans hsize, hle, hlen'.trans hlen⟩
    · cases hwrite
      exact ⟨hfilled, hsize, hle, hlen⟩

/-- The entries of one role. -/
theorem RequestWriter.Filled.writeChannels {attrs tail : List (ChannelAttr (List Byte))}
    (h : w.Filled cap table)
    (hcap : (∀ attr ∈ attrs, attr.info.Absent) ∨ table.length + 16 * attrs.length ≤ cap)
    (hwrite : RequestWriter.writeChannels attrs.length (attrs ++ tail) w = .ok (r, w'))
    (hr : 0 ≤ r) : w'.Filled cap (table ++ tableImage attrs) ∧ w'.size = w.size ∧
      (attrs ≠ [] → table.length + 16 * attrs.length ≤ w.size.toNat) ∧
      w'.data.length = w.data.length := by
  -- The induction is on the channels; each adds its entry to the table.
  induction attrs generalizing w table with
  | nil =>
    cases hwrite
    rw [tableImage, List.flatMap_nil, List.append_nil]
    exact ⟨h, rfl, fun hne => absurd rfl hne, rfl⟩
  | cons attr attrs ih =>
    rw [List.length_cons, List.forall_mem_cons] at hcap
    rw [List.length_cons, List.cons_append, RequestWriter.writeChannels] at hwrite
    obtain ⟨⟨r₁, w₁⟩, h₁, hwrite⟩ := checkedBind_ok.mp hwrite
    dsimp only at hwrite
    split at hwrite
    · cases hwrite
      omega
    · rename_i hr₁
      obtain ⟨hfilled, hsize, hle, hlen⟩ :=
        h.writeChannel (hcap.imp And.left (by omega)) h₁ (not_lt.mp hr₁)
      have hlength : (table ++ (Entry.ofAttr attr).bytes).length = table.length + 16 := by
        rw [List.length_append, Entry.length_bytes]
      obtain ⟨hfilled', hsize', hle', hlen'⟩ := ih hfilled (hcap.imp And.right (by omega)) hwrite
      rw [tableImage_cons, ← List.append_assoc]
      refine ⟨hfilled', hsize'.trans hsize, fun _ => ?_, hlen'.trans hlen⟩
      rw [List.length_cons]
      by_cases hnil : attrs = []
      · rw [hnil, List.length_nil]
        omega
      · have := hle' hnil
        rw [hsize] at this
        omega

/-- The group info and all entries. -/
theorem RequestWriter.Filled.body {info : Info (List Byte)} {w₁ w₂ w₃ : RequestWriter} {r₁ r₂ r₃ : Int}
    {producers consumers tailP tailC : List (ChannelAttr (List Byte))} (h : w.Filled cap table)
    (hroom : table.length + 16 * (producers ++ consumers).length ≤ cap ∨
      info.Absent ∧ ∀ attr ∈ producers ++ consumers, attr.info.Absent)
    (h₁ : w.writeInfo info = .ok (r₁, w₁))
    (h₂ : RequestWriter.writeChannels producers.length (producers ++ tailP) w₁ = .ok (r₂, w₂))
    (hr₂ : 0 ≤ r₂)
    (h₃ : RequestWriter.writeChannels consumers.length (consumers ++ tailC) w₂ = .ok (r₃, w₃))
    (hr₃ : 0 ≤ r₃) : w₃.Filled cap (table ++ tableImage (producers ++ consumers)) ∧
      (producers ++ consumers ≠ [] →
        table.length + 16 * (producers ++ consumers).length ≤ w.size.toNat) ∧
      w₃.data.length = w.data.length := by
  rw [List.length_append] at hroom ⊢
  have hlen : (table ++ tableImage producers).length = table.length + 16 * producers.length := by
    rw [List.length_append, length_tableImage]
  -- The info of the group, the producers and the consumers are written in this order.
  obtain ⟨hfilled₁, hsize₁, hlen₁⟩ := h.writeInfo (by
    rcases hroom with hcap | hroom
    · exact Or.inr (by omega)
    · exact Or.inl hroom.1) h₁
  obtain ⟨hfilled₂, hsize₂, hle₂, hlen₂⟩ := hfilled₁.writeChannels (by
    rcases hroom with hcap | hroom
    · exact Or.inr (by omega)
    · exact Or.inl fun a ha => hroom.2 a (List.mem_append_left _ ha)) h₂ hr₂
  obtain ⟨hfilled₃, hsize₃, hle₃, hlen₃⟩ := hfilled₂.writeChannels (by
    rcases hroom with hcap | hroom
    · exact Or.inr (by omega)
    · exact Or.inl fun a ha => hroom.2 a (List.mem_append_right _ ha)) h₃ hr₃
  rw [List.append_assoc, ← tableImage_append] at hfilled₃
  refine ⟨hfilled₃, fun hne => ?_, hlen₃.trans (hlen₂.trans hlen₁)⟩
  rw [hsize₁] at hsize₂ hle₂
  rw [hsize₂, hlen] at hle₃
  by_cases hnil : consumers = []
  · rw [hnil, List.append_nil] at hne
    have := hle₂ hne
    rw [hnil, List.length_nil]
    omega
  · have := hle₃ hnil
    omega

end writer

/-! ## The whole request -/

section write

variable {cls : Size} {attr : GroupAttr (List Byte)} {producers consumers : List (ChannelAttr (List Byte))}
  {req req' : List Byte} {size : Size} {r : Int}

/-- The counted number of channels is the length of the list. -/
theorem Lists.length_of_count {π : Type} {array : Option (List (ChannelAttr π))}
    {attrs : List (ChannelAttr π)} {n : Unsigned} (h : Lists array attrs)
    (hn : countChannels array = .ok n) : n.toNat = attrs.length := by
  obtain ⟨attrs', h', hlen⟩ := countChannels_ok hn
  rw [← h.usedChannels, h'.usedChannels, hlen]

/-- The fields in front of the number of consumers. -/
def startImage (cls : Size) (info : Info (List Byte)) (nProducers : Unsigned) : List Byte :=
  (RequestHeader.init cls).bytes ++ unsignedBytes (info.size.setWidth 32) ++ unsignedBytes nProducers

/-- The front of a request: header, length of the info and the two counts. -/
theorem length_startImage (cls : Size) (info : Info (List Byte)) (nProducers : Unsigned) :
    (startImage cls info nProducers).length = 16 := by
  rw [startImage, List.length_append, List.length_append, RequestHeader.length_bytes,
    length_unsignedBytes, length_unsignedBytes]

/-- The writer in front of the table.  Whether the number of consumers has been written is not
    checked. -/
structure RequestWriter.Front (cls : Size) (attr : GroupAttr (List Byte)) (req : List Byte)
    (size : Size) (nProducers nConsumers : Unsigned) (w : RequestWriter) : Prop where
  filled : w.Filled (w.offset.toNat + 16 * (nProducers + nConsumers).toNat)
      (startImage cls attr.info nProducers ++ unsignedBytes nConsumers) ∧ 20 ≤ size.toNat ∨
    w.Filled (w.offset.toNat + 16 * (nProducers + nConsumers).toNat)
      (startImage cls attr.info nProducers) ∧ size.toNat < 20
  offsetInfo : w.offsetInfo.toNat = w.offset.toNat + 16 * (nProducers + nConsumers).toNat
  size : w.size = size
  length : w.data.length = req.length

/-- The last write of the front; the infos will start behind the table. -/
theorem RequestWriter.Filled.front {nProducers nConsumers : Unsigned} {w w' : RequestWriter} {r : Int}
    (h : w.Filled 0 (startImage cls attr.info nProducers)) (hsize : w.size = size)
    (hlen : w.data.length = req.length)
    (hwrite : w.write (unsignedBytes nConsumers) sizeofUnsigned = .ok (r, w')) :
    RequestWriter.Front cls attr req size nProducers nConsumers { w' with
      offsetInfo := w'.offset + (nProducers + nConsumers).setWidth 64 * Entry.size } := by
  have hu : (unsignedBytes nConsumers).length = 4 := length_unsignedBytes _
  have hstart := length_startImage cls attr.info nProducers
  have hfour : sizeofUnsigned.toNat = (unsignedBytes nConsumers).length := hu.symm
  rcases RequestWriter.write_cases hfour hwrite with ⟨-, rfl, hlt⟩ | ⟨hr, -⟩
  · have hoffset := h.offset
    have hinfo := toNat_table w'.offset (nProducers + nConsumers) (by omega)
    refine ⟨Or.inr ⟨⟨h.data, h.offset, h.small, ?_⟩, ?_⟩, hinfo, hsize, hlen⟩
    · exact le_of_eq hinfo.symm
    · rw [BitVec.lt_def, BitVec.toNat_add, hsize, hoffset, hstart,
        show sizeofUnsigned.toNat = 4 from rfl] at hlt
      omega
  · obtain ⟨hfilled, hsize', -, hle, hlen'⟩ := h.write hfour hwrite (le_of_eq hr.symm)
    have hoffset := hfilled.offset
    rw [List.length_append, hstart, hu] at hoffset
    rw [hstart, hu, hsize] at hle
    have hinfo := toNat_table w'.offset (nProducers + nConsumers) (by omega)
    refine ⟨Or.inl ⟨⟨hfilled.data, hfilled.offset, hfilled.small, ?_⟩, hle⟩, hinfo,
      hsize'.trans hsize, hlen'.trans hlen⟩
    exact le_of_eq hinfo.symm

/-- `ri_request_write` gives up at the first write that fails. -/
theorem requestWrite_goes_on {x : Checked (Int × RequestWriter)}
    {f : Int × RequestWriter → Checked (Int × List Byte)}
    {k : Int → RequestWriter → Checked (Int × List Byte)} (h : x >>= f = .ok (r, req')) (hr : 0 ≤ r)
    (hf : ∀ q v, f (q, v) = if q < 0 then .ok (-1, v.data) else k q v) :
    ∃ q v, x = .ok (q, v) ∧ 0 ≤ q ∧ k q v = .ok (r, req') := by
  obtain ⟨⟨q, v⟩, hx, h⟩ := checkedBind_ok.mp h
  rw [hf] at h
  split at h
  · cases h
    exact absurd hr (by decide)
  · rename_i hq
    exact ⟨q, v, hx, not_lt.mp hq, h⟩

/-- The parts of a request that has been written. -/
theorem requestWrite_parts (hsmall : req.length ≤ ptrdiffMax)
    (h : requestWrite cls attr req size = .ok (r, req')) (hr : 0 ≤ r) :
    ∃ nProducers nConsumers w w₁ w₂ w₃ r₁ r₂ r₃, countChannels attr.producers = .ok nProducers ∧
      countChannels attr.consumers = .ok nConsumers ∧
      RequestWriter.Front cls attr req size nProducers nConsumers w ∧
      w.writeInfo attr.info = .ok (r₁, w₁) ∧ 0 ≤ r₁ ∧
      RequestWriter.writeChannels nProducers.toNat (elements attr.producers) w₁ = .ok (r₂, w₂) ∧
      0 ≤ r₂ ∧
      RequestWriter.writeChannels nConsumers.toNat (elements attr.consumers) w₂ = .ok (r₃, w₃) ∧
      0 ≤ r₃ ∧ req' = w₃.data := by
  have hu (x : Unsigned) : sizeofUnsigned.toNat = (unsignedBytes x).length :=
    (length_unsignedBytes x).symm
  unfold requestWrite at h
  by_cases hzero : size = 0
  · rw [if_pos hzero] at h
    cases h
    exact absurd hr (by decide)
  rw [if_neg hzero] at h
  obtain ⟨nProducers, hnP, h⟩ := checkedBind_ok.mp h
  obtain ⟨nConsumers, hnC, h⟩ := checkedBind_ok.mp h
  -- the fields in front of the number of consumers
  obtain ⟨q₁, v₁, h₁, hq₁, h⟩ := requestWrite_goes_on h hr fun _ _ => rfl
  obtain ⟨q₂, v₂, h₂, hq₂, h⟩ := requestWrite_goes_on h hr fun _ _ => rfl
  obtain ⟨q₃, v₃, h₃, hq₃, h⟩ := requestWrite_goes_on h hr fun _ _ => rfl
  have hempty : RequestWriter.Filled ⟨req, size, 0, 0⟩ 0 [] := ⟨rfl, rfl, hsmall, Nat.zero_le _⟩
  obtain ⟨hf₁, hs₁, -, -, hl₁⟩ := hempty.write
    (show RequestHeader.size.toNat = _ from (RequestHeader.length_bytes _).symm) h₁ hq₁
  obtain ⟨hf₂, hs₂, -, -, hl₂⟩ := hf₁.write (hu _) h₂ hq₂
  obtain ⟨hf₃, hs₃, -, -, hl₃⟩ := hf₂.write (hu _) h₃ hq₃
  -- the result of the next write is not looked at
  obtain ⟨⟨q₄, v₄⟩, h₄, h⟩ := checkedBind_ok.mp h
  have hfront := hf₃.front (hs₃.trans (hs₂.trans hs₁)) (hl₃.trans (hl₂.trans hl₁)) h₄
  -- the infos and the table
  obtain ⟨r₁, w₁, hw₁, hr₁, h⟩ := requestWrite_goes_on h hr fun _ _ => rfl
  obtain ⟨r₂, w₂, hw₂, hr₂, h⟩ := requestWrite_goes_on h hr fun _ _ => rfl
  obtain ⟨r₃, w₃, hw₃, hr₃, h⟩ := requestWrite_goes_on h hr fun _ _ => rfl
  cases h
  exact ⟨nProducers, nConsumers, _, w₁, w₂, w₃, r₁, r₂, r₃, hnP, hnC, hfront, hw₁, hr₁, hw₂, hr₂,
    hw₃, hr₃, rfl⟩

/-- All entries stand in the table.  Infos are written behind it, unless the number of channels does not
    fit into 32 bits; without channels the last field can be missing. -/
theorem requestWrite_table (hp : Lists attr.producers producers) (hc : Lists attr.consumers consumers)
    (hroom : (producers ++ consumers).length < 2 ^ 32 ∨
      attr.info.Absent ∧ ∀ a ∈ producers ++ consumers, a.info.Absent)
    (hsmall : req.length ≤ ptrdiffMax) (h : requestWrite cls attr req size = .ok (r, req'))
    (hr : 0 ≤ r) : req'.length = req.length ∧
      (producers ++ consumers = [] ∧ size.toNat < 20 ∧
          (∃ nProducers, req'.take 16 = startImage cls attr.info nProducers) ∨
        20 + 16 * (producers ++ consumers).length ≤ size.toNat ∧
          req'.take (20 + 16 * (producers ++ consumers).length) =
            frontImage cls attr.info producers.length consumers.length ++
              tableImage (producers ++ consumers)) := by
  obtain ⟨nProducers, nConsumers, w, w₁, w₂, w₃, r₁, r₂, r₃, hnP, hnC, hfront, h₁, -, h₂, hr₂, h₃, hr₃,
    rfl⟩ := requestWrite_parts hsmall h hr
  obtain ⟨tailP, htailP⟩ := hp.elements
  obtain ⟨tailC, htailC⟩ := hc.elements
  have hlenP := hp.length_of_count hnP
  have hlenC := hc.length_of_count hnC
  rw [hlenP, htailP] at h₂
  rw [hlenC, htailC] at h₃
  -- The infos begin behind the table as the writer counts it.
  have hcap (table : List Byte) (hfilled : w.Filled
      (w.offset.toNat + 16 * (nProducers + nConsumers).toNat) table) :
      table.length + 16 * (producers ++ consumers).length ≤
        w.offset.toNat + 16 * (nProducers + nConsumers).toNat ∨
        attr.info.Absent ∧ ∀ a ∈ producers ++ consumers, a.info.Absent := by
    refine hroom.imp (fun hlt => ?_) id
    rw [List.length_append] at hlt ⊢
    rw [hfilled.offset, BitVec.toNat_add, hlenP, hlenC, Nat.mod_eq_of_lt hlt]
  have hstart := length_startImage cls attr.info nProducers
  -- The front is complete, or the counts did not fit.
  rcases hfront.filled with ⟨hfilled, hle⟩ | ⟨hfilled, hlt⟩
  · obtain ⟨hbody, hbelow, hlen⟩ := hfilled.body (hcap _ hfilled) h₁ h₂ hr₂ h₃ hr₃
    refine ⟨hlen.trans hfront.length, Or.inr ⟨?_, ?_⟩⟩
    · by_cases hnil : producers ++ consumers = []
      · rw [hnil, List.length_nil]
        exact hle
      · have := hbelow hnil
        rw [hfront.size, List.length_append, hstart, length_unsignedBytes] at this
        exact this
    · have hdata := hbody.data
      have hnat {n : Unsigned} {attrs : List (ChannelAttr (List Byte))} (hn : n.toNat = attrs.length) :
          BitVec.ofNat 32 attrs.length = n := by
        rw [← hn, BitVec.ofNat_toNat, BitVec.setWidth_eq]
      rw [List.length_append, List.length_append, hstart, length_unsignedBytes, length_tableImage]
        at hdata
      rw [frontImage, hnat hlenP, hnat hlenC]
      exact hdata
  · obtain ⟨hbody, hbelow, hlen⟩ := hfilled.body (hcap _ hfilled) h₁ h₂ hr₂ h₃ hr₃
    -- then no entry fits either
    have hnil : producers ++ consumers = [] := by
      by_contra hne
      have hpos := List.length_pos_iff.mpr hne
      have := hbelow hne
      rw [hfront.size, hstart] at this
      omega
    have hdata := hbody.data
    rw [hnil, tableImage, List.flatMap_nil, List.append_nil, hstart] at hdata
    exact ⟨hlen.trans hfront.length, Or.inl ⟨hnil, hlt, nProducers, hdata⟩⟩

end write

end Rtipc
