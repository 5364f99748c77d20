/-
  `src/attr.c`: the attributes of channels and groups, `ri_info_t`, `ri_channel_attr_t` and
  `ri_group_attr_t` of `include/rtipc/rtipc.h`, and the group data a request is parsed into.

  What the data of an info points to is the parameter `π`: the bytes themselves if they belong to the
  application, an `InfoPtr` if they belong to a group data.  A pointer to an array of attributes is the
  array, with its sentinel.

  All infos of a group data should be in its block `mem_infos`.  But behind an empty info `ri_info_copy`
  returns its destination, so the next info is copied over that `ri_info_t`; the model follows it there
  (`InfoPlace`), up to the end of the `ri_info_t`.

  `Checked` is code that can run into undefined behaviour, which is a `Fault`.  Memory comes from an
  `Allocator`.
-/
import Rtipc.MemUtils
import Rtipc.Resources
import Rtipc.Lib.Bytes

namespace Rtipc

/-- `ri_info_t`; the null pointer is `none`. -/
structure Info (π : Type) where
  size : Size
  data : Option π
  deriving DecidableEq, Repr

/-- What the data of an info of a group data points to. -/
inductive InfoPtr where
  /-- the byte `offset` of the block `mem_infos` -/
  | block (offset : Size)
  /-- a `ri_info_t` of the group data that an info has been copied over, with the bytes it holds -/
  | info (bytes : List Byte)
  /-- the bytes of an info, read as a pointer: it points to nothing -/
  | bits (value : Size)
  deriving DecidableEq, Repr

/-- `sizeof(ri_info_t)`. -/
def sizeofInfo : Nat := 16

/-- The `ri_info_t` with these bytes: the size, and the pointer. -/
def Info.ofBytes (bytes : List Byte) : Info InfoPtr :=
  let data : Size := BitVec.ofNat 64 (Rtipc.ofBytes (readAt bytes 8 8))
  { size := BitVec.ofNat 64 (Rtipc.ofBytes (readAt bytes 0 8))
    data := if data = 0 then none else some (.bits data) }

/-- There is nothing to copy. -/
def Info.Absent (info : Info (List Byte)) : Prop := info.data = none ∨ info.size = 0

instance (info : Info (List Byte)) : Decidable info.Absent := inferInstanceAs (Decidable (_ ∨ _))

/-- `ri_channel_attr_t`. -/
structure ChannelAttr (π : Type) where
  msgSize : Size
  addMsgs : Unsigned
  eventfd : Bool
  info : Info π
  deriving DecidableEq, Repr

/-- `ri_group_attr_t`. -/
structure GroupAttr (π : Type) where
  consumers : Option (List (ChannelAttr π))
  producers : Option (List (ChannelAttr π))
  info : Info π
  deriving DecidableEq, Repr

/-! ## Undefined behaviour

  A function that dereferences a pointer may fault.  `Checked` carries the first fault, so a proof
  that a call returns is a proof that it has not come to one. -/

/-- An access outside an array of attributes, outside the bytes of infos, outside the bytes of a
    request, outside an array of descriptors, through the null pointer, or a loop that never ends. -/
inductive Fault where
  | channels
  | infos
  | request
  | fds
  | null
  | noReturn
  deriving DecidableEq, Repr

/-- Code that returns an `α` if all its accesses are in bounds. -/
abbrev Checked (α : Type) : Type := Except Fault α

/-- What a sequence of two parts returns has been returned by the second part. -/
theorem checkedBind_ok {α β : Type} {x : Checked α} {f : α → Checked β} {b : β} :
    (x >>= f) = .ok b ↔ ∃ a, x = .ok a ∧ f a = .ok b := by
  cases x with
  | error e => exact ⟨fun h => (by cases h), fun ⟨a, h, _⟩ => by cases h⟩
  | ok a => exact ⟨fun h => ⟨a, rfl, h⟩, fun ⟨a', h, h'⟩ => by cases h; exact h'⟩

/-- The `size` bytes at `offset`. -/
def loadBytes (f : Fault) (mem : List Byte) (offset size : Size) : Checked (List Byte) :=
  if offset.toNat + size.toNat ≤ mem.length then .ok (readAt mem offset.toNat size.toNat)
  else .error f

/-- The bytes `src` stored at `offset`. -/
def storeBytes (f : Fault) (mem : List Byte) (offset : Size) (src : List Byte) :
    Checked (List Byte) :=
  if offset.toNat + src.length ≤ mem.length then .ok (writeAt mem offset.toNat src)
  else .error f

theorem storeBytes_ok {f : Fault} {mem mem' src : List Byte} {offset : Size}
    (h : storeBytes f mem offset src = .ok mem') :
    offset.toNat + src.length ≤ mem.length ∧ mem' = writeAt mem offset.toNat src := by
  unfold storeBytes at h
  split at h
  · rename_i hle
    cases h
    exact ⟨hle, rfl⟩
  · cases h

theorem loadBytes_ok {f : Fault} {mem bytes : List Byte} {offset size : Size}
    (h : loadBytes f mem offset size = .ok bytes) :
    offset.toNat + size.toNat ≤ mem.length ∧ bytes.length = size.toNat := by
  unfold loadBytes at h
  split at h
  · rename_i hle
    cases h
    exact ⟨hle, length_readAt hle⟩
  · cases h

/-! ## Arrays of attributes

  An array ends with a channel whose messages have size 0, and the functions look for it. -/

section arrays

variable {π : Type}

/-- The attribute with all bytes zero. -/
def ChannelAttr.zero : ChannelAttr π where
  msgSize := 0
  addMsgs := 0
  eventfd := false
  info := { size := 0, data := none }

/-- `ri_count_channels`: the loop from element `i` on.  Behind element 2³² - 1 the index is 0 again. -/
def countChannelsFrom : Unsigned → List (ChannelAttr π) → Checked Unsigned
  | _, [] => .error .channels
  | i, attr :: attrs =>
    if attr.msgSize = 0 then .ok i
    else if i + 1 = 0 then .error .noReturn
    else countChannelsFrom (i + 1) attrs

/-- `ri_count_channels`. -/
def countChannels : Option (List (ChannelAttr π)) → Checked Unsigned
  | none => .ok 0
  | some attrs => countChannelsFrom 0 attrs

/-- `ri_info_align`. -/
def infoAlign (size : Size) : Size := memMaxalign size

/-- The loop of `calc_channels_info_size`. -/
def calcChannelsInfoSizeFrom : Size → List (ChannelAttr π) → Checked Size
  | _, [] => .error .channels
  | size, attr :: attrs =>
    if attr.msgSize = 0 then .ok size
    else calcChannelsInfoSizeFrom
      (if attr.info.size > 0 then size + infoAlign attr.info.size else size) attrs

/-- `calc_channels_info_size`. -/
def calcChannelsInfoSize : Option (List (ChannelAttr π)) → Checked Size
  | none => .ok 0
  | some attrs => calcChannelsInfoSizeFrom 0 attrs

/-- `ri_attr_calc_info_size`. -/
def attrCalcInfoSize (attr : GroupAttr π) : Checked Size := do
  let size := memMaxalign attr.info.size
  let consumers ← calcChannelsInfoSize attr.consumers
  let producers ← calcChannelsInfoSize attr.producers
  return size + consumers + producers

end arrays

/-! ## Comparison -/

/-- `ri_info_equal`. -/
def infoEqual (i0 i1 : Info (List Byte)) : Checked Bool :=
  if i0.size ≠ i1.size then return false
  -- both infos are empty
  else if i0.size = 0 then return true
  else
    match i0.data, i1.data with
    | some data0, some data1 => do
      let bytes0 ← loadBytes .infos data0 0 i0.size
      let bytes1 ← loadBytes .infos data1 0 i0.size
      return bytes0 = bytes1
    -- undefined
    | _, _ => return false

/-- `ri_channel_attr_equal`. -/
def channelAttrEqual (c0 c1 : ChannelAttr (List Byte)) : Checked Bool := do
  let r ← infoEqual c0.info c1.info
  if !r then return false
  return c0.msgSize = c1.msgSize && c0.addMsgs = c1.addMsgs && c0.eventfd = c1.eventfd

/-- One loop of `ri_group_attr_equal`, from element `i` on. -/
def channelsEqualFrom : Unsigned → List (ChannelAttr (List Byte)) → List (ChannelAttr (List Byte)) →
    Checked Bool
  | i, c0 :: cs0, c1 :: cs1 =>
    if c0.msgSize = 0 ∧ c1.msgSize = 0 then return true
    else do
      let r ← channelAttrEqual c0 c1
      if !r then return false
      if i + 1 = 0 then .error .noReturn
      else channelsEqualFrom (i + 1) cs0 cs1
  | _, _, _ => .error .channels

/-- `ri_group_attr_equal`; the null pointer has no element. -/
def groupAttrEqual (g0 g1 : GroupAttr (List Byte)) : Checked Bool := do
  let r ← infoEqual g0.info g1.info
  if !r then return false
  let r ← channelsEqualFrom 0 (g0.consumers.getD []) (g1.consumers.getD [])
  if !r then return false
  channelsEqualFrom 0 (g0.producers.getD []) (g1.producers.getD [])

/-! ## Group data -/

/-- `ri_group_data_t`. -/
structure GroupData where
  info : Info InfoPtr
  nConsumers : Unsigned
  nProducers : Unsigned
  consumers : Option (List (ChannelAttr InfoPtr))
  producers : Option (List (ChannelAttr InfoPtr))
  memInfos : Option (List Byte)
  deriving DecidableEq, Repr

/-- `(ri_group_data_t) { 0 }`. -/
def GroupData.zero : GroupData where
  info := { size := 0, data := none }
  nConsumers := 0
  nProducers := 0
  consumers := none
  producers := none
  memInfos := none

/-- Where the memory of a group data comes from.  `malloc size` is a block with any content, or the
    null pointer; `calloc role count` says whether a table of `count` attributes is available. -/
structure Allocator where
  malloc : Size → Option (List Byte)
  malloc_length : ∀ size block, malloc size = some block → block.length = size.toNat
  calloc : Role → Unsigned → Bool

/-- `PTRDIFF_MAX`: no object is larger. -/
def ptrdiffMax : Nat := 2 ^ 63 - 1

/-- Every allocation of a possible size succeeds, and no other one. -/
structure Allocator.InRange (A : Allocator) : Prop where
  malloc : ∀ size, (A.malloc size).isSome ↔ size.toNat ≤ ptrdiffMax
  calloc : ∀ role count, A.calloc role count = true

def ENOMEM : Int := 12

def EINVAL : Int := 22

/-- The array of `n` attributes and a sentinel that `ri_group_data_new` asks for, `none` if it does not
    get it.  The number of elements is an `unsigned`. -/
def Allocator.channels (A : Allocator) (role : Role) (n : Unsigned) :
    Option (Option (List (ChannelAttr InfoPtr))) :=
  if n > 0 then
    if A.calloc role (n + 1) then some (some (List.replicate (n + 1).toNat ChannelAttr.zero))
    else none
  else some none

/-- `ri_group_data_new`: the result, the group data and what has been acquired and released.  If there
    is no memory for the producers the pointer to the consumers stays. -/
def groupDataNew (A : Allocator) (nConsumers nProducers : Unsigned) : Int × GroupData × List Event :=
  let data := { GroupData.zero with nConsumers := nConsumers, nProducers := nProducers }
  match A.channels .consumer nConsumers with
  | none => (-ENOMEM, data, [])
  | some consumers =>
    let data := { data with consumers := consumers }
    let events := acquired (.table .consumer) consumers
    match A.channels .producer nProducers with
    | none => (-ENOMEM, data, events ++ freed (.table .consumer) consumers)
    | some producers =>
      (0, { data with producers := producers }, events ++ acquired (.table .producer) producers)

/-- `ri_group_data_delete`. -/
def groupDataDelete (data : GroupData) : GroupData × List Event :=
  (GroupData.zero, freed .infos data.memInfos ++ freed (.table .consumer) data.consumers ++
    freed (.table .producer) data.producers)

/-! ## Copying

  `ri_info_copy` returns the place behind the bytes that it has copied, and the caller uses it as the
  place for the next info.  If the info is empty it returns `dest` instead, which is the `ri_info_t`
  itself; so the next info is copied over that one. -/

/-- The elements of an array; the null pointer has none. -/
def elements {α : Type} (array : Option (List α)) : List α := array.getD []

/-- Where the next info goes, the `mem` of `ri_info_copy`. -/
inductive InfoPlace where
  /-- the byte `offset` of `mem_infos` -/
  | block (offset : Size)
  /-- the byte `offset` of the `ri_info_t` number `n` of the group data -/
  | info (n : Nat) (offset : Size)
  deriving DecidableEq, Repr

/-- What the copying of infos changes.  The `ri_info_t`s of a group data are numbered in the order in
    which they are filled: that of the group, those of the consumers, those of the producers. -/
structure InfoWriter where
  /-- the block `mem_infos`, if there is one -/
  block : Option (List Byte)
  mem : InfoPlace
  /-- the number of the `ri_info_t` that is filled next -/
  dest : Nat
  events : List Event
  /-- the `ri_info_t`s that an info has been copied over, with the bytes they hold then -/
  strays : List (Nat × List Byte)
  deriving DecidableEq, Repr

/-- `memcpy(mem, bytes, size)`: the pointer that is stored in the destination, and `mem` behind it.  An
    empty `ri_info_t` has only zeros, and there is no room behind it. -/
def InfoWriter.memcpy (w : InfoWriter) (bytes : List Byte) (size : Size) :
    Checked (InfoPtr × InfoWriter) :=
  match w.mem, w.block with
  | .block mem, some block => do
    let block ← storeBytes .infos block mem bytes
    return (.block mem, { w with
      block := some block
      mem := .block (memOffset mem (infoAlign size))
      events := w.events ++ [.copy ⟨mem.toNat, size.toNat⟩] })
  -- `mem_infos` is the null pointer
  | .block _, none => .error .infos
  | .info n offset, _ => do
    let info ← storeBytes .infos (List.replicate sizeofInfo 0) offset bytes
    return (.info info, { w with
      mem := .info n (memOffset offset (infoAlign size))
      events := w.events ++ [.overwrite n]
      strays := w.strays ++ [(n, info)] })

/-- The empty info is stored, and its place is returned. -/
def InfoWriter.skip (w : InfoWriter) : InfoWriter := { w with mem := .info w.dest 0, dest := w.dest + 1 }

/-- `ri_info_copy`, into the `ri_info_t` number `w.dest`. -/
def InfoWriter.infoCopy (w : InfoWriter) (src : Info (List Byte)) :
    Checked (Info InfoPtr × InfoWriter) :=
  match src.data with
  | none => return ({ size := 0, data := none }, w.skip)
  | some bytes =>
    if src.size = 0 then return ({ size := 0, data := none }, w.skip)
    else do
      let bytes ← loadBytes .infos bytes 0 src.size
      let (data, w) ← w.memcpy bytes src.size
      return ({ size := src.size, data := some data }, { w with dest := w.dest + 1 })

section step

variable {w w' : InfoWriter} {src : Info (List Byte)} {dest : Info InfoPtr} {bytes : List Byte}
  {size : Size} {p : InfoPtr}

/-- What `memcpy` does: it stores in the block, or in the `ri_info_t` behind an empty info. -/
theorem InfoWriter.memcpy_cases (h : w.memcpy bytes size = .ok (p, w')) :
    (∃ mem block, w.mem = .block mem ∧ w.block = some block ∧ p = .block mem ∧
      mem.toNat + bytes.length ≤ block.length ∧
      w' = { w with
        block := some (writeAt block mem.toNat bytes)
        mem := .block (memOffset mem (infoAlign size))
        events := w.events ++ [.copy ⟨mem.toNat, size.toNat⟩] }) ∨
    (∃ n offset info, w.mem = .info n offset ∧ p = .info info ∧
      storeBytes .infos (List.replicate sizeofInfo 0) offset bytes = .ok info ∧
      w' = { w with
        mem := .info n (memOffset offset (infoAlign size))
        events := w.events ++ [.overwrite n]
        strays := w.strays ++ [(n, info)] }) := by
  unfold memcpy at h
  split at h
  · rename_i mem block hmem hblock
    obtain ⟨block', hstore, h⟩ := checkedBind_ok.mp h
    obtain ⟨hle, rfl⟩ := storeBytes_ok hstore
    cases h
    exact Or.inl ⟨mem, block, hmem, hblock, rfl, hle, rfl⟩
  · cases h
  · rename_i block n offset hmem
    obtain ⟨info, hstore, h⟩ := checkedBind_ok.mp h
    cases h
    exact Or.inr ⟨n, offset, info, hmem, rfl, hstore, rfl⟩

/-- What `ri_info_copy` does: it skips an info that is not there, or it copies all its bytes. -/
theorem InfoWriter.infoCopy_cases (h : w.infoCopy src = .ok (dest, w')) :
    (src.Absent ∧ dest = { size := 0, data := none } ∧ w' = w.skip) ∨
    (¬ src.Absent ∧ ∃ data bytes p v, src.data = some data ∧
      loadBytes .infos data 0 src.size = .ok bytes ∧ w.memcpy bytes src.size = .ok (p, v) ∧
      dest = { size := src.size, data := some p } ∧ w' = { v with dest := v.dest + 1 }) := by
  unfold infoCopy at h
  split at h
  · rename_i hdata
    cases h
    exact Or.inl ⟨Or.inl hdata, rfl, rfl⟩
  · rename_i data hdata
    split at h
    · rename_i hsize
      cases h
      exact Or.inl ⟨Or.inr hsize, rfl, rfl⟩
    · rename_i hsize
      obtain ⟨bytes, hload, h⟩ := checkedBind_ok.mp h
      obtain ⟨⟨p, v⟩, hcopy, h⟩ := checkedBind_ok.mp h
      cases h
      refine Or.inr ⟨?_, data, bytes, p, v, hdata, hload, hcopy, rfl, rfl⟩
      rintro (hnone | hzero)
      · rw [hdata] at hnone
        cases hnone
      · exact hsize hzero

end step

/-- The attribute with another info. -/
def ChannelAttr.withInfo {π ρ : Type} (attr : ChannelAttr π) (info : Info ρ) : ChannelAttr ρ where
  msgSize := attr.msgSize
  addMsgs := attr.addMsgs
  eventfd := attr.eventfd
  info := info

/-- `copy_attrs` for `n` channels, from one element of the two arrays on. -/
def copyAttrs : Nat → List (ChannelAttr InfoPtr) → List (ChannelAttr (List Byte)) → InfoWriter →
    Checked (List (ChannelAttr InfoPtr) × InfoWriter)
  | 0, dest, _, w => return (dest, w)
  | n + 1, _ :: dest, src :: srcs, w => do
    let (info, w) ← w.infoCopy src.info
    let (dest, w) ← copyAttrs n dest srcs w
    return (src.withInfo info :: dest, w)
  | _ + 1, _, _, _ => .error .channels

/-- What every single copy keeps, all of them keep. -/
theorem copyAttrs_keeps {P : InfoWriter → Prop}
    (hstep : ∀ {w w' src dest}, InfoWriter.infoCopy w src = .ok (dest, w') → P w → P w') {n : Nat}
    {dest dest' : List (ChannelAttr InfoPtr)} {src : List (ChannelAttr (List Byte))} {w w' : InfoWriter}
    (h : copyAttrs n dest src w = .ok (dest', w')) (hw : P w) : P w' := by
  induction n generalizing dest src w dest' with
  | zero =>
    cases h
    exact hw
  | succ n ih =>
    cases dest with
    | nil => cases h
    | cons d dest =>
      cases src with
      | nil => cases h
      | cons a src =>
        obtain ⟨⟨info, t⟩, hinfo, h⟩ := checkedBind_ok.mp h
        obtain ⟨⟨rest, u⟩, hrest, h⟩ := checkedBind_ok.mp h
        cases h
        exact ih hrest (hstep hinfo hw)

/-- The `ri_info_t` number `n` after all infos have been copied. -/
def InfoWriter.final (w : InfoWriter) (n : Nat) (info : Info InfoPtr) : Info InfoPtr :=
  match w.strays.lookup n with
  | none => info
  | some bytes => Info.ofBytes bytes

/-- The first `n` channels of a table after all infos have been copied; the `ri_info_t` of the first one
    has the number `k`. -/
def InfoWriter.finalAttrs (w : InfoWriter) :
    Nat → Nat → List (ChannelAttr InfoPtr) → List (ChannelAttr InfoPtr)
  | k, n + 1, attr :: attrs => { attr with info := w.final k attr.info } :: w.finalAttrs (k + 1) n attrs
  | _, _, attrs => attrs

/-- `ri_group_data_from_attr` behind the allocations.  Nothing reads a `ri_info_t` of the group data
    before all of them are filled. -/
def groupDataCopy (data : GroupData) (attr : GroupAttr (List Byte)) :
    Checked (GroupData × List Event) := do
  let w : InfoWriter :=
    { block := data.memInfos, mem := .block 0, dest := 0, events := [], strays := [] }
  let (info, w) ← w.infoCopy attr.info
  let (consumers, w) ←
    copyAttrs data.nConsumers.toNat (elements data.consumers) (elements attr.consumers) w
  let (producers, w) ←
    copyAttrs data.nProducers.toNat (elements data.producers) (elements attr.producers) w
  return ({ data with
    info := w.final 0 info
    consumers := data.consumers.map fun _ => w.finalAttrs 1 data.nConsumers.toNat consumers
    producers := data.producers.map fun _ =>
      w.finalAttrs (1 + data.nConsumers.toNat) data.nProducers.toNat producers
    memInfos := w.block }, w.events)

/-- `ri_group_data_from_attr`. -/
def groupDataFromAttr (A : Allocator) (attr : GroupAttr (List Byte)) :
    Checked (Int × GroupData × List Event) := do
  let nConsumers ← countChannels attr.consumers
  let nProducers ← countChannels attr.producers
  let (r, data, events) := groupDataNew A nConsumers nProducers
  if r < 0 then return (-ENOMEM, data, events)
  let infoSize ← attrCalcInfoSize attr
  if infoSize > 0 then
    match A.malloc infoSize with
    | none =>
      return (-ENOMEM, (groupDataDelete data).1, events ++ (groupDataDelete data).2)
    | some block => do
      let (data, copies) ← groupDataCopy { data with memInfos := some block } attr
      return (0, data, events ++ [.acquire (.block .infos)] ++ copies)
  else do
    let (data, copies) ← groupDataCopy data attr
    return (0, data, events ++ copies)

/-! ## Following the pointers

  The infos that the copy points to are those in the memory after all stores. -/

/-- `ri_group_data_attr`. -/
def groupDataAttr (data : GroupData) : GroupAttr InfoPtr where
  consumers := data.consumers
  producers := data.producers
  info := data.info

/-- The bytes behind the pointer, up to the end of what it points into. -/
def InfoPtr.target (block : List Byte) : InfoPtr → List Byte
  | .block offset => block.drop offset.toNat
  | .info bytes => bytes
  | .bits _ => []

/-- The info with the bytes that its pointer leads to. -/
def Info.resolve (block : List Byte) (info : Info InfoPtr) : Info (List Byte) where
  size := info.size
  data := info.data.map (InfoPtr.target block)

def ChannelAttr.resolve (block : List Byte) (attr : ChannelAttr InfoPtr) : ChannelAttr (List Byte) where
  msgSize := attr.msgSize
  addMsgs := attr.addMsgs
  eventfd := attr.eventfd
  info := attr.info.resolve block

/-- The attribute of a group data for code that follows the pointers of the infos. -/
def GroupData.view (data : GroupData) : GroupAttr (List Byte) where
  consumers := data.consumers.map (List.map (ChannelAttr.resolve (data.memInfos.getD [])))
  producers := data.producers.map (List.map (ChannelAttr.resolve (data.memInfos.getD [])))
  info := data.info.resolve (data.memInfos.getD [])

end Rtipc
