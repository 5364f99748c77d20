/-
  How much room does `ri_request_write` need?

  The writer has two cursors and checks each of them against the size of the buffer.  A call that writes
  `n` bytes of the table and `len` bytes of infos succeeds exactly if there is room for both
  (`RequestWriter.Puts`), and what is at or behind the size of the buffer stays as it is.

  Only the write of the number of consumers is not checked: in a buffer of 16 to 19 bytes the table
  starts one field too early.

  1. **The invariant.**  `RequestWriter.In`: the buffer still has its length, the cursor of the table is
     inside, and nothing at or behind the size has been written.

  2. **One call.**  `RequestWriter.Puts` describes a call by two numbers alone, the bytes for the table
     and those for the infos.  Two calls add up (`RequestWriter.Puts.trans`), and an error is passed on
     (`RequestWriter.Puts.fail`).

  3. **All of it.**  `requestWrite_returns`: `ri_request_write` never writes outside, and its result
     follows from the size of the buffer, the number of the channels and the length of the infos
     (`WriteReturns`).
-/
import Rtipc.RequestWriting

namespace Rtipc

/-! ## One call

  Two numbers describe a call: how much it adds to the table, and how much to the infos. -/

/-- A writer in the buffer `req`, of which `size` bytes are to be used. -/
structure RequestWriter.In (req : List Byte) (size : Size) (w : RequestWriter) : Prop where
  beyond : w.data.drop size.toNat = req.drop size.toNat
  length : w.data.length = req.length
  size : w.size = size
  offset : w.offset.toNat < 2 ^ 63
  offsetInfo : w.offsetInfo.toNat < 2 ^ 63

/-- A call that is to write `n` bytes of the table and `len` bytes of infos. -/
structure RequestWriter.Puts (req : List Byte) (size : Size) (n len : Nat) (w : RequestWriter) (r : Int)
    (w' : RequestWriter) : Prop where
  inside : w'.In req size
  room : 0 ≤ r ↔ (n = 0 ∨ w.offset.toNat + n ≤ size.toNat) ∧
    (len = 0 ∨ w.offsetInfo.toNat + len ≤ size.toNat)
  offset : 0 ≤ r → w'.offset.toNat = w.offset.toNat + n
  offsetInfo : 0 ≤ r → w'.offsetInfo.toNat = w.offsetInfo.toNat + len
  before : ∀ k, k ≤ w.offset.toNat → k ≤ w.offsetInfo.toNat → w'.data.take k = w.data.take k

section puts

variable {req : List Byte} {size : Size} {n n' len len' : Nat} {w w' w'' : RequestWriter} {r r' : Int}

/-- Two writes after each other. -/
theorem RequestWriter.Puts.trans (h : Puts req size n len w r w') (hr : 0 ≤ r)
    (h' : Puts req size n' len' w' r' w'') : Puts req size (n + n') (len + len') w r' w'' := by
  obtain ⟨-, hroom, hoffset, hinfo, hbefore⟩ := h
  obtain ⟨hin, hroom', hoffset', hinfo', hbefore'⟩ := h'
  have hfits := hroom.mp hr
  have hoff := hoffset hr
  have hoffInfo := hinfo hr
  refine ⟨hin, hroom'.trans ?_, fun hr' => ?_, fun hr' => ?_, fun k hk hk' => ?_⟩
  · omega
  · rw [hoffset' hr', hoff, Nat.add_assoc]
  · rw [hinfo' hr', hoffInfo, Nat.add_assoc]
  · rw [hbefore' k (by omega) (by omega), hbefore k hk hk']

/-- A call that has failed is the last one. -/
theorem RequestWriter.Puts.fail (h : Puts req size n len w r w') (hr : ¬ 0 ≤ r) (hr' : r' < 0)
    (n' len' : Nat) : Puts req size (n + n') (len + len') w r' w' := by
  obtain ⟨hin, hroom, -, -, hbefore⟩ := h
  have hfits := mt hroom.mpr hr
  refine ⟨hin, ⟨fun hpos => ?_, fun hfits' => absurd ?_ hfits⟩, fun hpos => ?_, fun hpos => ?_, hbefore⟩
  · omega
  · omega
  · omega
  · omega

/-- A write into the table. -/
theorem RequestWriter.In.write {src : List Byte} {len : Size} (h : w.In req size)
    (hsize : size.toNat ≤ req.length) (hsmall : req.length ≤ ptrdiffMax)
    (hlen : len.toNat = src.length) (hpos : src ≠ []) (hsrc : src.length ≤ 16) :
    ∃ r w', w.write src len = .ok (r, w') ∧ Puts req size src.length 0 w r w' ∧
      w'.offsetInfo = w.offsetInfo ∧ (¬ 0 ≤ r → w' = w) := by
  have hmax : ptrdiffMax < 2 ^ 63 := by decide
  have hoffset := h.offset
  have hne : src.length ≠ 0 := fun hnil => hpos (List.length_eq_zero_iff.mp hnil)
  have hsum : (w.offset + len).toNat = w.offset.toNat + src.length := by
    rw [BitVec.toNat_add, hlen]
    exact Nat.mod_eq_of_lt (by omega)
  -- The check of `request_write` is the check of the room, as the sum does not wrap.
  by_cases hroom : w.offset.toNat + src.length ≤ size.toNat
  · have hle : ¬ w.offset + len > w.size := by
      rw [gt_iff_lt, BitVec.not_lt, BitVec.le_def, hsum, h.size]
      exact hroom
    have hinside : w.offset.toNat + src.length ≤ w.data.length := by
      rw [h.length]
      omega
    refine ⟨0, { w with data := writeAt w.data w.offset.toNat src, offset := w.offset + len }, ?_,
      ⟨⟨?_, ?_, h.size, ?_, h.offsetInfo⟩, ?_, fun _ => hsum, fun _ => rfl, fun k hk _ => ?_⟩, rfl,
      fun hneg => absurd le_rfl hneg⟩
    · rw [RequestWriter.write, if_neg hle, loadBytes_zero _ (le_of_eq hlen), hlen, List.take_length]
      show (storeBytes .request w.data w.offset src >>= _) = _
      rw [storeBytes, if_pos hinside]
      rfl
    · exact (drop_writeAt (Nat.le_of_add_right_le hinside) hroom).trans h.beyond
    · exact (length_writeAt hinside).trans h.length
    · rw [hsum]
      omega
    · exact iff_of_true le_rfl ⟨Or.inr hroom, Or.inl rfl⟩
    · exact take_writeAt_of_le (Nat.le_of_add_right_le hinside) hk
  · have hgt : w.offset + len > w.size := by
      rw [gt_iff_lt, BitVec.lt_def, hsum, h.size]
      omega
    refine ⟨-1, w, ?_, ⟨h, ?_, fun hneg => absurd hneg (by decide), fun hneg => absurd hneg (by decide),
      fun _ _ _ => rfl⟩, rfl, fun _ => rfl⟩
    · rw [RequestWriter.write, if_pos hgt]
      rfl
    · refine iff_of_false (by decide) fun hfits => ?_
      omega

/-- A write behind the table. -/
theorem RequestWriter.In.writeInfo {info : Info (List Byte)} (h : w.In req size)
    (hsize : size.toNat ≤ req.length) (hsmall : req.length ≤ ptrdiffMax) (hinfo : info.Backed) :
    ∃ r w', w.writeInfo info = .ok (r, w') ∧ Puts req size 0 info.bytes.length w r w' := by
  have hlen := hinfo.length
  -- An empty info leaves the writer as it is.
  have habsent (hzero : info.size = 0) : Puts req size 0 info.bytes.length w 0 w := by
    rw [hlen, hzero]
    exact ⟨h, iff_of_true le_rfl ⟨Or.inl rfl, Or.inl rfl⟩, fun _ => rfl, fun _ => rfl, fun _ _ _ => rfl⟩
  rcases hinfo with hzero | ⟨bytes, hdata, hbytes, hinfoMax⟩
  · refine ⟨0, w, ?_, habsent hzero⟩
    rw [RequestWriter.writeInfo, hzero]
    split
    · rfl
    · rw [if_pos rfl]
      rfl
  rw [RequestWriter.writeInfo, hdata]
  dsimp only
  by_cases hzero : info.size = 0
  · rw [if_pos hzero]
    exact ⟨0, w, rfl, habsent hzero⟩
  have hmax : ptrdiffMax < 2 ^ 63 := by decide
  have hoffset := h.offsetInfo
  have hsum : (w.offsetInfo + info.size).toNat = w.offsetInfo.toNat + info.bytes.length := by
    rw [BitVec.toNat_add, hlen]
    exact Nat.mod_eq_of_lt (by omega)
  have hpos : info.bytes.length ≠ 0 := by
    rw [hlen]
    exact fun hnat => hzero (BitVec.eq_of_toNat_eq hnat)
  rw [if_neg hzero]
  -- The same check, behind the table.
  by_cases hroom : w.offsetInfo.toNat + info.bytes.length ≤ size.toNat
  · have hle : ¬ w.offsetInfo + info.size > w.size := by
      rw [gt_iff_lt, BitVec.not_lt, BitVec.le_def, hsum, h.size]
      exact hroom
    have hload : loadBytes .infos bytes 0 info.size = .ok info.bytes := by
      rw [loadBytes_zero _ hbytes, Info.bytes, hdata]
    have hinside : w.offsetInfo.toNat + info.bytes.length ≤ w.data.length := by
      rw [h.length]
      omega
    refine ⟨0, { w with
      data := writeAt w.data w.offsetInfo.toNat info.bytes
      offsetInfo := w.offsetInfo + info.size }, ?_,
      ⟨⟨?_, ?_, h.size, h.offset, ?_⟩, ?_, fun _ => rfl, fun _ => hsum, fun k _ hk => ?_⟩⟩
    · rw [if_neg hle, hload]
      show (storeBytes .request w.data w.offsetInfo info.bytes >>= _) = _
      rw [storeBytes, if_pos hinside]
      rfl
    · exact (drop_writeAt (Nat.le_of_add_right_le hinside) hroom).trans h.beyond
    · exact (length_writeAt hinside).trans h.length
    · rw [hsum]
      omega
    · exact iff_of_true le_rfl ⟨Or.inl rfl, Or.inr hroom⟩
    · exact take_writeAt_of_le (Nat.le_of_add_right_le hinside) hk
  · have hgt : w.offsetInfo + info.size > w.size := by
      rw [gt_iff_lt, BitVec.lt_def, hsum, h.size]
      omega
    refine ⟨-1, w, ?_,
      ⟨h, ?_, fun hneg => absurd hneg (by decide), fun hneg => absurd hneg (by decide), fun _ _ _ => rfl⟩⟩
    · rw [if_pos hgt]
      rfl
    · refine iff_of_false (by decide) fun hfits => ?_
      omega

/-- An entry, and the info of the channel. -/
theorem RequestWriter.In.writeChannel {attr : ChannelAttr (List Byte)} (h : w.In req size)
    (hsize : size.toNat ≤ req.length) (hsmall : req.length ≤ ptrdiffMax) (hinfo : attr.info.Backed) :
    ∃ r w', w.writeChannel attr = .ok (r, w') ∧ Puts req size 16 attr.info.bytes.length w r w' := by
  have hentry : (Entry.ofAttr attr).bytes.length = 16 := Entry.length_bytes _
  obtain ⟨r₁, w₁, h₁, hputs₁, -, -⟩ := h.write hsize hsmall
    (show Entry.size.toNat = _ from hentry.symm)
    (fun hnil => absurd hentry (by rw [hnil]; decide)) (le_of_eq hentry)
  rw [hentry] at hputs₁
  rw [RequestWriter.writeChannel, h₁]
  -- The entry first; if it has no room the info is not tried.
  by_cases hr₁ : 0 ≤ r₁
  · obtain ⟨r₂, w₂, h₂, hputs₂⟩ := hputs₁.inside.writeInfo hsize hsmall hinfo
    have hputs := hputs₁.trans hr₁ hputs₂
    rw [Nat.zero_add] at hputs
    show ∃ r w', (if r₁ < 0 then Except.ok (r₁, w₁) else
      if attr.info.data.isSome then w₁.writeInfo attr.info else Except.ok (r₁, w₁)) = _ ∧ _
    rw [if_neg (not_lt.mpr hr₁)]
    split
    · exact ⟨r₂, w₂, h₂, hputs⟩
    · rename_i hdata
      have hnone : attr.info.data = none := Option.not_isSome_iff_eq_none.mp hdata
      have hnil : attr.info.bytes.length = 0 := by rw [Info.bytes, hnone]; rfl
      rw [hnil]
      exact ⟨r₁, w₁, rfl, hputs₁⟩
  · have hputs := hputs₁.fail hr₁ (not_le.mp hr₁) 0 attr.info.bytes.length
    rw [Nat.zero_add] at hputs
    refine ⟨r₁, w₁, ?_, hputs⟩
    show (if r₁ < 0 then Except.ok (r₁, w₁) else _) = _
    rw [if_pos (not_le.mp hr₁)]

/-- All channels of a role. -/
theorem RequestWriter.In.writeChannels {attrs : List (ChannelAttr (List Byte))} (h : w.In req size)
    (hsize : size.toNat ≤ req.length) (hsmall : req.length ≤ ptrdiffMax)
    (hinfos : ∀ attr ∈ attrs, attr.info.Backed) (tail : List (ChannelAttr (List Byte))) :
    ∃ r w', RequestWriter.writeChannels attrs.length (attrs ++ tail) w = .ok (r, w') ∧
      Puts req size (16 * attrs.length) (infosImage attrs).length w r w' := by
  induction attrs generalizing w with
  | nil =>
    exact ⟨0, w, rfl, h, iff_of_true le_rfl ⟨Or.inl rfl, Or.inl rfl⟩, fun _ => rfl, fun _ => rfl,
      fun _ _ _ => rfl⟩
  | cons attr attrs ih =>
    rw [List.forall_mem_cons] at hinfos
    obtain ⟨r₁, w₁, h₁, hputs₁⟩ := h.writeChannel hsize hsmall hinfos.1
    have hlen : 16 * (attrs.length + 1) = 16 + 16 * attrs.length := by omega
    rw [List.length_cons, hlen, infosImage_cons, List.length_append, List.cons_append,
      RequestWriter.writeChannels, h₁]
    by_cases hr₁ : 0 ≤ r₁
    · obtain ⟨r₂, w₂, h₂, hputs₂⟩ := ih hputs₁.inside hinfos.2
      refine ⟨r₂, w₂, ?_, hputs₁.trans hr₁ hputs₂⟩
      show (if r₁ < 0 then Except.ok (r₁, w₁) else
        RequestWriter.writeChannels attrs.length (attrs ++ tail) w₁) = _
      rw [if_neg (not_lt.mpr hr₁), h₂]
    · refine ⟨r₁, w₁, ?_, hputs₁.fail hr₁ (not_le.mp hr₁) _ _⟩
      show (if r₁ < 0 then Except.ok (r₁, w₁) else _) = _
      rw [if_pos (not_le.mp hr₁)]

end puts

/-! ## `ri_request_write` -/

/-- The end of the table as a number: 16 bytes for each channel. -/
theorem toNat_table (offset : Size) (n : Unsigned) (h : offset.toNat ≤ 20) :
    (offset + n.setWidth 64 * Entry.size).toNat = offset.toNat + 16 * n.toNat := by
  have hn := n.isLt
  rw [BitVec.toNat_add, BitVec.toNat_mul, BitVec.toNat_setWidth,
    show Entry.size.toNat = 16 from rfl]
  omega

/-- Where the table starts: the last field is missing if it has no room. -/
def tableStart (size : Nat) : Nat := if 20 ≤ size then 20 else 16

/-- A buffer of `size` bytes has room for `n` entries and `len` bytes of infos.  Where the infos start
    depends on 32 bits of the number of the entries. -/
structure WriteRoom (size n len : Nat) : Prop where
  fields : 16 ≤ size
  table : n = 0 ∨ tableStart size + 16 * n ≤ size
  infos : len = 0 ∨ tableStart size + 16 * (n % 2 ^ 32) + len ≤ size

section write

variable {cls : Size} {attr : GroupAttr (List Byte)}
  {producers consumers : List (ChannelAttr (List Byte))} {req : List Byte} {size : Size}

/-- The bytes of all infos of a group. -/
def infosLength (info : Info (List Byte)) (channels : List (ChannelAttr (List Byte))) : Nat :=
  info.bytes.length + (infosImage channels).length

/-- What a call of `ri_request_write` returns: the end of the table if there is room for everything, and
    otherwise an error. -/
structure WriteReturns (req : List Byte) (size : Size) (n len : Nat) (r : Int) (req' : List Byte) :
    Prop where
  length : req'.length = req.length
  beyond : req'.drop size.toNat = req.drop size.toNat
  result : WriteRoom size.toNat n len ∧
      r = intOfSize (BitVec.ofNat 64 (tableStart size.toNat + 16 * n)) ∨
    ¬ WriteRoom size.toNat n len ∧ r = -1

/-- The writer behind the fields, whether or not there is room for the number of consumers. -/
theorem RequestWriter.In.table {w w' : RequestWriter} {r : Int} {nConsumers : Unsigned}
    (h : w.In req size) (nProducers : Unsigned) (hsize : size.toNat ≤ req.length)
    (hsmall : req.length ≤ ptrdiffMax)
    (hoffset : w.offset.toNat = 16) (hge : 16 ≤ size.toNat)
    (hwrite : w.write (unsignedBytes nConsumers) sizeofUnsigned = .ok (r, w')) :
    ∃ v : RequestWriter, v = { w' with
        offsetInfo := w'.offset + (nProducers + nConsumers).setWidth 64 * Entry.size } ∧
      v.In req size ∧ v.offset.toNat = tableStart size.toNat ∧
      v.offsetInfo.toNat = tableStart size.toNat + 16 * (nProducers + nConsumers).toNat := by
  have hu : (unsignedBytes nConsumers).length = 4 := length_unsignedBytes _
  obtain ⟨r', w'', hwrite', hputs, -, hsame⟩ := h.write hsize hsmall
    (show sizeofUnsigned.toNat = _ from hu.symm)
    (fun hnil => absurd hu (by rw [hnil]; decide)) (by rw [hu]; decide)
  rw [hwrite] at hwrite'
  cases hwrite'
  obtain ⟨hin, hroom, hnext, -, -⟩ := hputs
  rw [hu, hoffset] at hroom hnext
  -- The result of this write is not checked: without room the table starts where the count should
  -- have been.
  have hstart : w'.offset.toNat = tableStart size.toNat := by
    unfold tableStart
    by_cases hr : 0 ≤ r
    · have hfits := hroom.mp hr
      rw [hnext hr, if_pos (by omega)]
    · have hfits := mt hroom.mpr hr
      rw [hsame hr, hoffset, if_neg (by omega)]
  have hle : tableStart size.toNat ≤ 20 := by
    unfold tableStart
    split <;> omega
  have hinfo := toNat_table w'.offset (nProducers + nConsumers) (by omega)
  have hn := (nProducers + nConsumers).isLt
  refine ⟨_, rfl, ⟨hin.beyond, hin.length, hin.size, hin.offset, ?_⟩, hstart, hinfo.trans (by rw [hstart])⟩
  exact lt_of_eq_of_lt hinfo (by omega)

/-- The call returns what it should. -/
def WriteEnds (req : List Byte) (size : Size) (n len : Nat) (call : Checked (Int × List Byte)) : Prop :=
  ∃ r req', call = .ok (r, req') ∧ WriteReturns req size n len r req'

/-- A step whose result is checked. -/
theorem WriteEnds.step {N L n len : Nat} {w w' : RequestWriter} {r : Int}
    {step : Checked (Int × RequestWriter)} {rest : Int × RequestWriter → Checked (Int × List Byte)}
    (hstep : step = .ok (r, w')) (hputs : RequestWriter.Puts req size n len w r w')
    (hroom : WriteRoom size.toNat N L → (n = 0 ∨ w.offset.toNat + n ≤ size.toNat) ∧
      (len = 0 ∨ w.offsetInfo.toNat + len ≤ size.toNat))
    (hrest : 0 ≤ r → WriteEnds req size N L (rest (r, w'))) :
    WriteEnds req size N L (step >>= fun x => if x.1 < 0 then pure (-1, x.2.data) else rest x) := by
  rw [hstep]
  show WriteEnds req size N L (if r < 0 then pure (-1, w'.data) else rest (r, w'))
  by_cases hr : 0 ≤ r
  · rw [if_neg (not_lt.mpr hr)]
    exact hrest hr
  · rw [if_pos (not_le.mp hr)]
    exact ⟨-1, w'.data, rfl, hputs.inside.length, hputs.inside.beyond,
      Or.inr ⟨fun h => hr (hputs.room.mpr (hroom h)), rfl⟩⟩

/-- A count takes four bytes. -/
theorem toNat_unsignedBytes (x : Unsigned) : sizeofUnsigned.toNat = (unsignedBytes x).length :=
  (length_unsignedBytes x).symm

/-- They are not none. -/
theorem unsignedBytes_ne_nil (x : Unsigned) : unsignedBytes x ≠ [] :=
  List.ne_nil_of_length_pos (by rw [length_unsignedBytes]; decide)

/-- Writing a count never faults. -/
theorem RequestWriter.In.writeUnsigned {w : RequestWriter} (h : w.In req size)
    (hsize : size.toNat ≤ req.length) (hsmall : req.length ≤ ptrdiffMax) (x : Unsigned) :
    ∃ r w', w.write (unsignedBytes x) sizeofUnsigned = .ok (r, w') ∧ Puts req size 4 0 w r w' := by
  obtain ⟨r, w', hwrite, hputs, -, -⟩ := h.write hsize hsmall (toNat_unsignedBytes x)
    (unsignedBytes_ne_nil x) (by rw [length_unsignedBytes]; decide)
  rw [length_unsignedBytes] at hputs
  exact ⟨r, w', hwrite, hputs⟩

/-- The infos and the table. -/
theorem RequestWriter.In.writeRest {v : RequestWriter} (hin : v.In req size)
    (hp : Lists attr.producers producers) (hc : Lists attr.consumers consumers)
    (hlenP : producers.length < 2 ^ 32) (hlenC : consumers.length < 2 ^ 32)
    (hinfo : attr.info.Backed) (hinfos : ∀ a ∈ producers ++ consumers, a.info.Backed)
    (hsize : size.toNat ≤ req.length) (hsmall : req.length ≤ ptrdiffMax) (hfields : 16 ≤ size.toNat)
    (hoffset : v.offset.toNat = tableStart size.toNat)
    (hoffsetInfo : v.offsetInfo.toNat =
      tableStart size.toNat + 16 * ((producers ++ consumers).length % 2 ^ 32)) :
    WriteEnds req size (producers ++ consumers).length
      (infosLength attr.info (producers ++ consumers)) (do
        let (r, writer) ← v.writeInfo attr.info
        if r < 0 then return (-1, writer.data)
        let (r, writer) ← RequestWriter.writeChannels (BitVec.ofNat 32 producers.length).toNat
          (elements attr.producers) writer
        if r < 0 then return (-1, writer.data)
        let (r, writer) ← RequestWriter.writeChannels (BitVec.ofNat 32 consumers.length).toNat
          (elements attr.consumers) writer
        if r < 0 then return (-1, writer.data)
        return (intOfSize writer.offset, writer.data)) := by
  obtain ⟨tailP, htailP⟩ := hp.elements
  obtain ⟨tailC, htailC⟩ := hc.elements
  have hlength : (producers ++ consumers).length = producers.length + consumers.length :=
    List.length_append
  have hinfosLength : infosLength attr.info (producers ++ consumers) =
      attr.info.bytes.length + ((infosImage producers).length + (infosImage consumers).length) := by
    rw [infosLength, infosImage_append, List.length_append]
  -- if there is room for everything, there is for the part that has been written so far
  have hpart {n len : Nat} (hn : n ≤ 16 * (producers ++ consumers).length)
      (hlen : len ≤ infosLength attr.info (producers ++ consumers))
      (hroom : WriteRoom size.toNat (producers ++ consumers).length
        (infosLength attr.info (producers ++ consumers))) :
      (n = 0 ∨ v.offset.toNat + n ≤ size.toNat) ∧
        (len = 0 ∨ v.offsetInfo.toNat + len ≤ size.toNat) := by
    obtain ⟨-, htable, hinfos⟩ := hroom
    rw [hoffset, hoffsetInfo]
    omega
  rw [BitVec.toNat_ofNat, BitVec.toNat_ofNat, Nat.mod_eq_of_lt hlenP, Nat.mod_eq_of_lt hlenC, htailP,
    htailC]
  obtain ⟨r₁, w₁, h₁, hputs₁⟩ := hin.writeInfo hsize hsmall hinfo
  refine WriteEnds.step h₁ hputs₁ (hpart (by omega) (by omega)) fun hr₁ => ?_
  obtain ⟨r₂, w₂, h₂, hputs₂⟩ := hputs₁.inside.writeChannels hsize hsmall
    (fun a ha => hinfos a (List.mem_append_left _ ha)) tailP
  replace hputs₂ := hputs₁.trans hr₁ hputs₂
  refine WriteEnds.step h₂ hputs₂ (hpart (by omega) (by omega)) fun hr₂ => ?_
  obtain ⟨r₃, w₃, h₃, hputs₃⟩ := hputs₂.inside.writeChannels hsize hsmall
    (fun a ha => hinfos a (List.mem_append_right _ ha)) tailC
  replace hputs₃ := hputs₂.trans hr₂ hputs₃
  refine WriteEnds.step h₃ hputs₃ (hpart (by omega) (by omega)) fun hr₃ => ?_
  have hend := hputs₃.offset hr₃
  have hfits := hputs₃.room.mp hr₃
  rw [hoffset, hoffsetInfo] at hfits
  have hwrap : w₃.offset =
      BitVec.ofNat 64 (tableStart size.toNat + 16 * (producers ++ consumers).length) := by
    refine BitVec.eq_of_toNat_eq ?_
    rw [hend, hoffset, BitVec.toNat_ofNat]
    have := w₃.offset.isLt
    omega
  refine ⟨_, _, rfl, hputs₃.inside.length, hputs₃.inside.beyond, Or.inl ⟨⟨hfields, ?_, ?_⟩, ?_⟩⟩
  · omega
  · omega
  · rw [hwrap]

/-- `ri_request_write` never faults, whatever the size of the request. -/
theorem requestWrite_returns (cls : Size) (hp : Lists attr.producers producers)
    (hc : Lists attr.consumers consumers) (hlenP : producers.length < 2 ^ 32)
    (hlenC : consumers.length < 2 ^ 32) (hinfo : attr.info.Backed)
    (hinfos : ∀ a ∈ producers ++ consumers, a.info.Backed) (hsize : size.toNat ≤ req.length)
    (hsmall : req.length ≤ ptrdiffMax) :
    ∃ r req', requestWrite cls attr req size = .ok (r, req') ∧
      WriteReturns req size (producers ++ consumers).length
        (infosLength attr.info (producers ++ consumers)) r req' := by
  have hstart : RequestWriter.In req size ⟨req, size, 0, 0⟩ :=
    ⟨rfl, rfl, rfl, (by decide : (0 : Size).toNat < 2 ^ 63), (by decide : (0 : Size).toNat < 2 ^ 63)⟩
  unfold requestWrite
  by_cases hzero : size = 0
  · rw [if_pos hzero]
    refine ⟨-1, req, rfl, rfl, rfl, Or.inr ⟨fun hroom => ?_, rfl⟩⟩
    have := hroom.fields
    rw [hzero] at this
    exact absurd this (by decide)
  rw [if_neg hzero, hp.count hlenP, hc.count hlenC]
  -- the fields that are checked
  have hfield {n N L : Nat} (hn : n ≤ 16) (hroom : WriteRoom size.toNat N L) :
      (n = 0 ∨ (RequestWriter.offset ⟨req, size, 0, 0⟩).toNat + n ≤ size.toNat) ∧
        (0 = 0 ∨ (RequestWriter.offsetInfo ⟨req, size, 0, 0⟩).toNat + 0 ≤ size.toNat) := by
    have := hroom.fields
    refine ⟨Or.inr ?_, Or.inl rfl⟩
    show 0 + n ≤ size.toNat
    omega
  obtain ⟨r₁, w₁, h₁, hputs₁, -, -⟩ := hstart.write hsize hsmall
    (show RequestHeader.size.toNat = _ from (RequestHeader.length_bytes (RequestHeader.init cls)).symm)
    (List.ne_nil_of_length_pos (by rw [RequestHeader.length_bytes]; decide))
    (by rw [RequestHeader.length_bytes]; decide)
  rw [RequestHeader.length_bytes] at hputs₁
  show WriteEnds req size _ _ (RequestWriter.write ⟨req, size, 0, 0⟩ _ RequestHeader.size >>= _)
  refine WriteEnds.step h₁ hputs₁ (hfield (by decide)) fun hr₁ => ?_
  obtain ⟨r₂, w₂, h₂, hputs₂⟩ := hputs₁.inside.writeUnsigned hsize hsmall _
  replace hputs₂ := hputs₁.trans hr₁ hputs₂
  refine WriteEnds.step h₂ hputs₂ (hfield (by decide)) fun hr₂ => ?_
  obtain ⟨r₃, w₃, h₃, hputs₃⟩ := hputs₂.inside.writeUnsigned hsize hsmall _
  replace hputs₃ := hputs₂.trans hr₂ hputs₃
  refine WriteEnds.step h₃ hputs₃ (hfield (by decide)) fun hr₃ => ?_
  have hfields : 16 ≤ size.toNat := by
    have := (hputs₃.room.mp hr₃).1
    rw [show (RequestWriter.offset ⟨req, size, 0, 0⟩).toNat = 0 from rfl] at this
    omega
  -- the number of consumers
  obtain ⟨r₄, w₄, h₄, -⟩ := hputs₃.inside.writeUnsigned hsize hsmall (BitVec.ofNat 32 consumers.length)
  obtain ⟨v, hv, hin, hvOffset, hvInfo⟩ := hputs₃.inside.table (BitVec.ofNat 32 producers.length)
    hsize hsmall (hputs₃.offset hr₃) hfields h₄
  have hcount : (BitVec.ofNat 32 producers.length + BitVec.ofNat 32 consumers.length).toNat =
      (producers ++ consumers).length % 2 ^ 32 := by
    rw [← BitVec.ofNat_add, BitVec.toNat_ofNat, List.length_append]
  rw [hcount] at hvInfo
  have hrest := hin.writeRest hp hc hlenP hlenC hinfo hinfos hsize hsmall hfields hvOffset hvInfo
  rw [hv] at hrest
  rw [h₄]
  exact hrest

/-- A request that has been written has room for everything. -/
theorem requestWrite_room {r : Int} {req' : List Byte} (hp : Lists attr.producers producers)
    (hc : Lists attr.consumers consumers) (hinfo : attr.info.Backed)
    (hinfos : ∀ a ∈ producers ++ consumers, a.info.Backed)
    (hcount : (producers ++ consumers).length < 2 ^ 32) (hsize : size.toNat ≤ req.length)
    (hsmall : req.length ≤ ptrdiffMax) (hne : producers ++ consumers ≠ [] ∨ 20 ≤ size.toNat)
    (h : requestWrite cls attr req size = .ok (r, req')) (hr : 0 ≤ r) :
    20 + 16 * (producers ++ consumers).length + infosLength attr.info (producers ++ consumers) ≤
        size.toNat ∧
      r = intOfSize (BitVec.ofNat 64 (20 + 16 * (producers ++ consumers).length)) := by
  have hlen := hcount
  rw [List.length_append] at hlen
  obtain ⟨r', req'', h', -, -, hresult⟩ := requestWrite_returns cls hp hc (by omega) (by omega) hinfo
    hinfos hsize hsmall
  rw [h] at h'
  cases h'
  rcases hresult with ⟨⟨hfields, htable, hroom⟩, hr'⟩ | ⟨-, hneg⟩
  · have hge : 20 ≤ size.toNat := by
      rcases hne with hne | hge
      · have hpos := List.length_pos_iff.mpr hne
        unfold tableStart at htable
        split at htable <;> omega
      · exact hge
    rw [tableStart, if_pos hge] at htable hroom hr'
    rw [Nat.mod_eq_of_lt hcount] at hroom
    exact ⟨by omega, hr'⟩
  · omega

end write

end Rtipc
