/-
  Where `ri_request_write` falls short.

  What it needs is what `ri_request_calc_size` says, unless the write that is not checked comes into
  play or a number wraps around (`write_exact_iff`).  An entry has 32 bits for each size
  (`wire_exact_iff`).

  1. **Room.**  `write_exact_iff`: a call returns the end of the table and keeps to the buffer if there
     is room for what `ri_request_calc_size` says, and an error otherwise, if and only if `SizeKept`
     holds of the size of the buffer, the number of channels and the length of the infos.

  2. **Values.**  `wire_exact_iff`: a request that has been written says what the attribute says if and
     only if each size fits into 32 bits.

  3. **Why they are apart.**  The first is about a buffer, and any content of the fields will do.  The
     second is about the fields, and holds in every buffer in which the call has succeeded.
-/
import Rtipc.RequestTable

namespace Rtipc

/-! ## The size of the buffer -/

/-- A size is returned as a non-negative `int` if and only if bit 31 is clear. -/
theorem intOfSize_nonneg_iff (n : Nat) : 0 ≤ intOfSize (BitVec.ofNat 64 n) ↔ n % 2 ^ 32 < 2 ^ 31 := by
  have htoNat : ((BitVec.ofNat 64 n).setWidth 32).toNat = n % 2 ^ 32 := by
    rw [BitVec.toNat_setWidth, BitVec.toNat_ofNat]
    omega
  rw [intOfSize, BitVec.toInt_eq_toNat_cond, htoNat]
  split <;> omega

/-- `ri_request_write` needs what `ri_request_calc_size` says, and keeps to the buffer. -/
def WriteExact (cls : Size) (attr : GroupAttr (List Byte)) (req : List Byte) (size : Size) : Prop :=
  ∃ r req' need, requestWrite cls attr req size = .ok (r, req') ∧ requestCalcSize attr = .ok need ∧
    (0 ≤ r ↔ need ≤ size) ∧ req'.length = req.length ∧ req'.drop size.toNat = req.drop size.toNat

/-- A buffer of `size` bytes for `n` channels and `len` bytes of infos in which all checks are made: the
    unchecked write is not the last one, and no number wraps that a buffer of this size has room for. -/
structure SizeKept (size n len : Nat) : Prop where
  checked : ¬ (n = 0 ∧ 16 ≤ size ∧ size < 20 ∧ (len = 0 ∨ 16 + len ≤ size))
  exact : (20 + 16 * (n % 2 ^ 32) + len) % 2 ^ 64 ≤ size → 20 + 16 * n ≤ size ∧
    20 + 16 * (n % 2 ^ 32) + len ≤ size ∧ (20 + 16 * n) % 2 ^ 32 < 2 ^ 31

/-- The arithmetic of it. -/
theorem sizeKept_iff {size n len : Nat} (hsize : size < 2 ^ 63) :
    SizeKept size n len ↔ (WriteRoom size n len ∧ (tableStart size + 16 * n) % 2 ^ 32 < 2 ^ 31 ↔
      (20 + 16 * (n % 2 ^ 32) + len) % 2 ^ 64 ≤ size) := by
  have hroom : WriteRoom size n len ↔ 16 ≤ size ∧ (n = 0 ∨ tableStart size + 16 * n ≤ size) ∧
      (len = 0 ∨ tableStart size + 16 * (n % 2 ^ 32) + len ≤ size) :=
    ⟨fun h => ⟨h.fields, h.table, h.infos⟩, fun h => ⟨h.1, h.2.1, h.2.2⟩⟩
  have hkept : SizeKept size n len ↔
      ¬ (n = 0 ∧ 16 ≤ size ∧ size < 20 ∧ (len = 0 ∨ 16 + len ≤ size)) ∧
      ((20 + 16 * (n % 2 ^ 32) + len) % 2 ^ 64 ≤ size → 20 + 16 * n ≤ size ∧
        20 + 16 * (n % 2 ^ 32) + len ≤ size ∧ (20 + 16 * n) % 2 ^ 32 < 2 ^ 31) :=
    ⟨fun h => ⟨h.checked, h.exact⟩, fun h => ⟨h.1, h.2⟩⟩
  rw [hroom, hkept]
  unfold tableStart
  by_cases hge : 20 ≤ size
  · rw [if_pos hge]
    omega
  · rw [if_neg hge]
    omega

section exact

variable {cls : Size} {attr : GroupAttr (List Byte)} {producers consumers : List (ChannelAttr (List Byte))}
  {req : List Byte} {size : Size}

/-- `ri_request_write` does what it should exactly if the lists can be counted and the size is kept. -/
theorem write_exact_iff (cls : Size) (hp : Lists attr.producers producers)
    (hc : Lists attr.consumers consumers) (hinfo : attr.info.Backed)
    (hinfos : ∀ a ∈ producers ++ consumers, a.info.Backed) (hsize : size.toNat ≤ req.length)
    (hsmall : req.length ≤ ptrdiffMax) :
    WriteExact cls attr req size ↔ producers.length < 2 ^ 32 ∧ consumers.length < 2 ^ 32 ∧
      SizeKept size.toNat (producers ++ consumers).length
        (infosLength attr.info (producers ++ consumers)) := by
  have hmax : ptrdiffMax < 2 ^ 63 := by decide
  have hpos : ¬ (0 : Int) ≤ -1 := by decide
  -- both functions count first
  have hreturns (hlenP : producers.length < 2 ^ 32) (hlenC : consumers.length < 2 ^ 32) :
      WriteExact cls attr req size ↔ SizeKept size.toNat (producers ++ consumers).length
        (infosLength attr.info (producers ++ consumers)) := by
    obtain ⟨r, req', hwrite, hlength, hbeyond, hresult⟩ :=
      requestWrite_returns cls hp hc hlenP hlenC hinfo hinfos hsize hsmall
    have hcalc := requestCalcSize_eq hp hc hinfo hinfos hlenP hlenC
    rw [← infosLength, ← List.length_append] at hcalc
    have hneed : BitVec.ofNat 64 (20 + 16 * ((producers ++ consumers).length % 2 ^ 32) +
        infosLength attr.info (producers ++ consumers)) ≤ size ↔ _ := BitVec.le_def
    rw [BitVec.toNat_ofNat] at hneed
    have hr : 0 ≤ r ↔ WriteRoom size.toNat (producers ++ consumers).length
        (infosLength attr.info (producers ++ consumers)) ∧
          (tableStart size.toNat + 16 * (producers ++ consumers).length) % 2 ^ 32 < 2 ^ 31 := by
      rcases hresult with ⟨hroom, rfl⟩ | ⟨hroom, rfl⟩
      · rw [intOfSize_nonneg_iff, and_iff_right hroom]
      · exact iff_of_false hpos fun h => hroom h.1
    rw [sizeKept_iff (by omega), ← hr, ← hneed]
    constructor
    · rintro ⟨r', req'', need, hwrite', hcalc', hiff, -⟩
      rw [hwrite] at hwrite'
      rw [hcalc] at hcalc'
      cases hwrite'
      cases hcalc'
      exact hiff
    · exact fun hiff => ⟨r, req', _, hwrite, hcalc, hiff, hlength, hbeyond⟩
  constructor
  · intro hexact
    obtain ⟨-, -, need, -, hcalc, -⟩ := id hexact
    obtain ⟨nConsumers, hnC, hcalc⟩ := checkedBind_ok.mp hcalc
    obtain ⟨nProducers, hnP, -⟩ := checkedBind_ok.mp hcalc
    have hlenP : producers.length < 2 ^ 32 := hp.length_of_count hnP ▸ nProducers.isLt
    have hlenC : consumers.length < 2 ^ 32 := hc.length_of_count hnC ▸ nConsumers.isLt
    exact ⟨hlenP, hlenC, (hreturns hlenP hlenC).mp hexact⟩
  · rintro ⟨hlenP, hlenC, hkept⟩
    exact (hreturns hlenP hlenC).mpr hkept

end exact

/-- The group of two producers and two consumers, in a buffer of just the size that it needs. -/
theorem write_exact_iff_mixed : WriteExact 64 mixedAttr (List.replicate 96 0) 93 := by
  have hinfos : ∀ a ∈ mixedProducers ++ mixedConsumers, a.info.Backed := fun a ha =>
    (mixed_valid a ha).info.backed
  have hinfo : mixedAttr.info.Valid := by decide
  refine (write_exact_iff 64 (Lists.array [] (by decide) rfl) (Lists.array [] (by decide) rfl)
    hinfo.backed hinfos (by decide) (by decide)).mpr ⟨by decide, by decide, by decide, fun _ => ?_⟩
  decide

/-- A group without channels is written into 16 bytes. -/
theorem unchecked_write_succeeds : ¬ ∀ (cls : Size) (attr : GroupAttr (List Byte))
    (producers consumers : List (ChannelAttr (List Byte))) (req : List Byte) (size : Size),
    Lists attr.producers producers → Lists attr.consumers consumers → attr.info.Backed →
      (∀ a ∈ producers ++ consumers, a.info.Backed) → size.toNat ≤ req.length →
        req.length ≤ ptrdiffMax → WriteExact cls attr req size := by
  intro hall
  obtain ⟨r, req', need, hwrite, hcalc, hiff, -⟩ := hall 64 ⟨none, none, ⟨0, none⟩⟩ [] []
    (List.replicate 16 0) 16 Lists.null Lists.null (Or.inl rfl) (fun a ha => (by cases ha)) (by decide)
    (by decide)
  obtain ⟨req'', hwrite'⟩ : ∃ req', requestWrite 64 ⟨none, none, ⟨0, none⟩⟩
      (List.replicate 16 0) 16 = .ok (16, req') := ⟨_, rfl⟩
  have hcalc' : requestCalcSize (π := List Byte) ⟨none, none, ⟨0, none⟩⟩ = .ok 20 := rfl
  rw [hwrite'] at hwrite
  rw [hcalc'] at hcalc
  cases hwrite
  cases hcalc
  exact absurd (hiff.mp (by decide)) (by decide)

/-! ## What an entry has room for -/

/-- The fields and the entries say what the attributes say. -/
structure WireExact (bs : Wire) (info : Info (List Byte)) (channels : List (ChannelAttr (List Byte))) :
    Prop where
  info : bs.groupInfoSize.setWidth 64 = info.size
  entries : ∀ i attr, channels[i]? = some attr →
    let decoded : ChannelAttr InfoPtr := (Entry.ofBytes (readAt bs (20 + 16 * i) 16)).attr
    decoded.msgSize = attr.msgSize ∧ decoded.addMsgs = attr.addMsgs ∧ decoded.info.size = attr.info.size

/-- All sizes fit into 32 bits. -/
structure WireFits (info : Info (List Byte)) (channels : List (ChannelAttr (List Byte))) : Prop where
  info : info.size.toNat < 2 ^ 32
  msgSize : ∀ a ∈ channels, a.msgSize.toNat < 2 ^ 32
  infos : ∀ a ∈ channels, a.info.size.toNat < 2 ^ 32

section fits

variable {cls : Size} {attr : GroupAttr (List Byte)} {producers consumers : List (ChannelAttr (List Byte))}
  {req req' : List Byte} {size : Size} {r : Int}

/-- A word that fits in 32 bits. -/
theorem setWidth_lt {x : Unsigned} {y : Size} (h : x.setWidth 64 = y) : y.toNat < 2 ^ 32 := by
  rw [← h, BitVec.toNat_setWidth]
  exact lt_of_le_of_lt (Nat.mod_le _ _) x.isLt

/-- Narrowing such a word loses nothing. -/
theorem setWidth_setWidth {y : Size} (h : y.toNat < 2 ^ 32) : (y.setWidth 32).setWidth 64 = y := by
  refine BitVec.eq_of_toNat_eq ?_
  rw [BitVec.toNat_setWidth, BitVec.toNat_setWidth, Nat.mod_eq_of_lt h, Nat.mod_eq_of_lt y.isLt]

/-- Whatever has been written, 32 bits are read. -/
theorem WireExact.fits {bs : Wire} {info : Info (List Byte)} {channels : List (ChannelAttr (List Byte))}
    (h : WireExact bs info channels) : WireFits info channels where
  info := setWidth_lt h.info
  msgSize a ha := by
    obtain ⟨i, hi⟩ := List.getElem?_of_mem ha
    exact setWidth_lt (h.entries i a hi).1
  infos a ha := by
    obtain ⟨i, hi⟩ := List.getElem?_of_mem ha
    exact setWidth_lt (h.entries i a hi).2.2

/-- A request whose values fit says exactly what the attribute says. -/
theorem Wire.Tabled.exact {bs : Wire} {info : Info (List Byte)}
    (h : bs.Tabled cls info producers consumers) (hfits : WireFits info (producers ++ consumers)) :
    WireExact bs info (producers ++ consumers) where
  info := by
    rw [h.unsignedAt_eq.1]
    exact setWidth_setWidth hfits.info
  entries i a ha := by
    have hmem := List.mem_of_getElem? ha
    have hi := (List.getElem?_eq_some_iff.mp ha).1
    have hentry : Entry.ofBytes (readAt bs (20 + 16 * i) 16) = Entry.ofAttr a := by
      have hget := congrArg (·[i]?) h.entries_eq
      rw [Wire.entries, List.getElem?_map, List.getElem?_map, List.getElem?_range (h.count_eq ▸ hi), ha]
        at hget
      exact Option.some.inj hget
    rw [hentry]
    exact ⟨setWidth_setWidth (hfits.msgSize a hmem), rfl, setWidth_setWidth (hfits.infos a hmem)⟩

/-- A request that has been written says what the attribute says exactly if all sizes fit into 32 bits;
    infos are written behind the table as long as the number of the channels fits as well. -/
theorem wire_exact_iff (hp : Lists attr.producers producers) (hc : Lists attr.consumers consumers)
    (hsmall : req.length ≤ ptrdiffMax) (h : requestWrite cls attr req size = .ok (r, req'))
    (hr : 0 ≤ r) :
    (WireExact req' attr.info (producers ++ consumers) → WireFits attr.info (producers ++ consumers)) ∧
      (WireFits attr.info (producers ++ consumers) → (producers ++ consumers).length < 2 ^ 32 ∨
        attr.info.Absent ∧ (∀ a ∈ producers ++ consumers, a.info.Absent) →
          WireExact req' attr.info (producers ++ consumers)) := by
  refine ⟨WireExact.fits, fun hfits hroom => ?_⟩
  obtain ⟨-, hcases⟩ := requestWrite_table hp hc hroom hsmall h hr
  rcases hcases with ⟨hnil, -, nProducers, htake⟩ | ⟨-, htake⟩
  · rw [hnil]
    refine ⟨?_, fun i a ha => (by cases ha)⟩
    have hfield : readAt req' 8 4 = unsignedBytes (attr.info.size.setWidth 32) := by
      have hread := readAt_middle (b := unsignedBytes nProducers)
        (RequestHeader.length_bytes (RequestHeader.init cls))
        (length_unsignedBytes (attr.info.size.setWidth 32))
      rw [← List.append_assoc, ← startImage, ← htake, readAt, List.drop_take, List.take_take] at hread
      exact hread
    rw [Wire.groupInfoSize, Wire.unsignedAt, hfield, unsignedOfBytes_bytes]
    exact setWidth_setWidth hfits.info
  · obtain ⟨nProducers, nConsumers, -, -, -, -, -, -, -, hnP, hnC, -⟩ := requestWrite_parts hsmall h hr
    have hlenP : producers.length < 2 ^ 32 := hp.length_of_count hnP ▸ nProducers.isLt
    have hlenC : consumers.length < 2 ^ 32 := hc.length_of_count hnC ▸ nConsumers.isLt
    exact (Wire.Tabled.of_take hlenP hlenC htake).exact hfits

end fits

/-- What the request of the two producers and two consumers says. -/
theorem wire_exact_iff_mixed : ∃ r req',
    requestWrite 64 mixedAttr (List.replicate 93 0) 93 = .ok (r, req') ∧ 0 ≤ r ∧
      WireExact req' mixedAttr.info (mixedProducers ++ mixedConsumers) := by
  have hp : Lists mixedAttr.producers mixedProducers := Lists.array [] (by decide) rfl
  have hc : Lists mixedAttr.consumers mixedConsumers := Lists.array [] (by decide) rfl
  have hwrite := requestWrite_eq 64 hp hc (by decide) (fun a ha => (mixed_valid a ha).info) (by decide)
    (show (93 : Size).toNat = (List.replicate 93 (0 : Byte)).length from rfl) (by decide) (by decide)
  obtain ⟨-, hexact⟩ := wire_exact_iff hp hc (by decide) hwrite (by decide)
  exact ⟨_, _, hwrite, by decide, hexact ⟨by decide, by decide, by decide⟩ (Or.inl (by decide))⟩

/-- A producer with messages of 2³² + 8 bytes. -/
def wideProducer : ChannelAttr (List Byte) where
  msgSize := 0x100000008
  addMsgs := 0
  eventfd := false
  info := { size := 0, data := none }

/-- Its request says 8 bytes. -/
theorem wide_message_truncated : ¬ ∀ (cls : Size) (attr : GroupAttr (List Byte))
    (producers consumers : List (ChannelAttr (List Byte))) (req req' : List Byte) (size : Size) (r : Int),
    Lists attr.producers producers → Lists attr.consumers consumers → req.length ≤ ptrdiffMax →
      requestWrite cls attr req size = .ok (r, req') → 0 ≤ r →
        WireExact req' attr.info (producers ++ consumers) := by
  intro hall
  obtain ⟨req', hwrite⟩ : ∃ req', requestWrite 64
      ⟨none, some ([wideProducer] ++ ChannelAttr.zero :: []), ⟨0, none⟩⟩ (List.replicate 36 0) 36 =
        .ok (36, req') := ⟨_, rfl⟩
  have hused : ∀ a ∈ [wideProducer], a.msgSize ≠ 0 := by decide
  have hexact := hall 64 _ [wideProducer] [] _ req' 36 36 (Lists.array [] hused rfl) Lists.null
    (by decide) hwrite (by decide)
  exact absurd (hexact.fits.msgSize wideProducer List.mem_cons_self) (by decide)

end Rtipc
