/-
  `src/request.c`: a group as a request.

  A request is a header, the size of the group info, the numbers of consumers and of producers, one
  entry for each channel and then the infos of the group and of the channels.  The two ends name the
  roles the other way round: the producers of the one who writes are the consumers of the one who
  reads, so they come first.

  The reader has one cursor; the writer has one for the table of entries and one for the infos behind
  it.  A failed call leaves a negative number in `r`; `request_read_channel` is the exception, it
  returns `-r`.  `copied` records where infos have been copied; the code itself does not read it.
-/
import Rtipc.Header

namespace Rtipc

/-- `entry_t`. -/
structure Entry where
  addMsgs : Unsigned
  msgSize : Unsigned
  eventfd : Unsigned
  infoSize : Unsigned
  deriving DecidableEq, Repr

/-- The `uint32_t` these bytes are. -/
def unsignedOfBytes (bs : List Byte) : Unsigned := BitVec.ofNat 32 (ofBytes bs)

/-- The bytes of a `uint32_t`. -/
def unsignedBytes (x : Unsigned) : List Byte := toBytes 4 x.toNat

/-- `sizeof(uint32_t)`. -/
def sizeofUnsigned : Size := 4

namespace Entry

/-- `sizeof(entry_t)`. -/
def size : Size := 16

/-- The bytes of an entry in memory. -/
def bytes (e : Entry) : List Byte :=
  unsignedBytes e.addMsgs ++ unsignedBytes e.msgSize ++ unsignedBytes e.eventfd ++
    unsignedBytes e.infoSize

/-- The entry these bytes are. -/
def ofBytes (bs : List Byte) : Entry where
  addMsgs := unsignedOfBytes (readAt bs 0 4)
  msgSize := unsignedOfBytes (readAt bs 4 4)
  eventfd := unsignedOfBytes (readAt bs 8 4)
  infoSize := unsignedOfBytes (readAt bs 12 4)

/-- The initialiser in `request_write_channel`; 32 bits remain of a size. -/
def ofAttr {π : Type} (attr : ChannelAttr π) : Entry where
  addMsgs := attr.addMsgs
  msgSize := attr.msgSize.setWidth 32
  infoSize := attr.info.size.setWidth 32
  eventfd := if attr.eventfd then 1 else 0

/-- The initialiser in `request_read_channel`. -/
def attr {π : Type} (e : Entry) : ChannelAttr π where
  addMsgs := e.addMsgs
  msgSize := e.msgSize.setWidth 64
  info := { size := e.infoSize.setWidth 64, data := none }
  eventfd := e.eventfd != 0

end Entry

/-! ## Writing

  The writer has two cursors into one buffer. -/

/-- `request_writer_t`. -/
structure RequestWriter where
  data : List Byte
  size : Size
  offset : Size
  offsetInfo : Size
  deriving DecidableEq, Repr

namespace RequestWriter

/-- `request_write`. -/
def write (writer : RequestWriter) (src : List Byte) (size : Size) : Checked (Int × RequestWriter) :=
  if writer.offset + size > writer.size then return (-1, writer)
  else do
    let src ← loadBytes .request src 0 size
    let data ← storeBytes .request writer.data writer.offset src
    return (0, { writer with data := data, offset := writer.offset + size })

/-- `request_write_info`. -/
def writeInfo (writer : RequestWriter) (info : Info (List Byte)) : Checked (Int × RequestWriter) :=
  match info.data with
  | none => return (0, writer)
  | some bytes =>
    if info.size = 0 then return (0, writer)
    else if writer.offsetInfo + info.size > writer.size then return (-1, writer)
    else do
      let src ← loadBytes .infos bytes 0 info.size
      let data ← storeBytes .request writer.data writer.offsetInfo src
      return (0, { writer with data := data, offsetInfo := writer.offsetInfo + info.size })

/-- `request_write_channel`. -/
def writeChannel (writer : RequestWriter) (attr : ChannelAttr (List Byte)) :
    Checked (Int × RequestWriter) := do
  let (r, writer) ← writer.write (Entry.ofAttr attr).bytes Entry.size
  if r < 0 then return (r, writer)
  if attr.info.data.isSome then writer.writeInfo attr.info
  else return (r, writer)

/-- The loop over `n` channels of `ri_request_write`. -/
def writeChannels : Nat → List (ChannelAttr (List Byte)) → RequestWriter →
    Checked (Int × RequestWriter)
  | 0, _, writer => return (0, writer)
  | _ + 1, [], _ => .error .channels
  | n + 1, attr :: attrs, writer => do
    let (r, writer) ← writer.writeChannel attr
    if r < 0 then return (r, writer)
    writeChannels n attrs writer

end RequestWriter

/-- The sum of the sizes of the infos of `n` channels, on top of `size`. -/
def addInfoSizes {π : Type} : Nat → List (ChannelAttr π) → Size → Checked Size
  | 0, _, size => return size
  | _ + 1, [], _ => .error .channels
  | n + 1, attr :: attrs, size => addInfoSizes n attrs (size + attr.info.size)

/-- `ri_request_calc_size`. -/
def requestCalcSize {π : Type} (config : GroupAttr π) : Checked Size := do
  let nConsumers ← countChannels config.consumers
  let nProducers ← countChannels config.producers
  let size := RequestHeader.size
  -- info size of the group, and the two numbers of channels
  let size := size + 3 * sizeofUnsigned
  -- channel table
  let size := size + (nConsumers + nProducers).setWidth 64 * Entry.size
  -- group info
  let size := size + config.info.size
  -- channel infos
  let size ← addInfoSizes nConsumers.toNat (elements config.consumers) size
  addInfoSizes nProducers.toNat (elements config.producers) size

/-- The `int` that remains of a size. -/
def intOfSize (size : Size) : Int := (size.setWidth 32).toInt

/-- `ri_request_write`: what it returns, and the bytes it leaves in `req`.  Whether the number of
    consumers could be written is not checked. -/
def requestWrite (cls : Size) (attr : GroupAttr (List Byte)) (req : List Byte) (size : Size) :
    Checked (Int × List Byte) := do
  if size = 0 then return (-1, req)
  let nProducers ← countChannels attr.producers
  let nConsumers ← countChannels attr.consumers
  let writer : RequestWriter := { data := req, size := size, offset := 0, offsetInfo := 0 }
  let (r, writer) ← writer.write (RequestHeader.init cls).bytes RequestHeader.size
  if r < 0 then return (-1, writer.data)
  let (r, writer) ← writer.write (unsignedBytes (attr.info.size.setWidth 32)) sizeofUnsigned
  if r < 0 then return (-1, writer.data)
  let (r, writer) ← writer.write (unsignedBytes nProducers) sizeofUnsigned
  if r < 0 then return (-1, writer.data)
  let (_, writer) ← writer.write (unsignedBytes nConsumers) sizeofUnsigned
  let writer := { writer with
    offsetInfo := writer.offset + (nProducers + nConsumers).setWidth 64 * Entry.size }
  let (r, writer) ← writer.writeInfo attr.info
  if r < 0 then return (-1, writer.data)
  let (r, writer) ← RequestWriter.writeChannels nProducers.toNat (elements attr.producers) writer
  if r < 0 then return (-1, writer.data)
  let (r, writer) ← RequestWriter.writeChannels nConsumers.toNat (elements attr.consumers) writer
  if r < 0 then return (-1, writer.data)
  return (intOfSize writer.offset, writer.data)

/-! ## Reading

  The reader has one cursor; it checks each read against the size of the request. -/

/-- `request_reader_t`. -/
structure RequestReader where
  data : List Byte
  size : Size
  offset : Size
  deriving DecidableEq, Repr

namespace RequestReader

/-- `request_read`: the result, and the bytes that have been copied. -/
def read (reader : RequestReader) (size : Size) : Checked (Int × List Byte × RequestReader) :=
  if reader.offset + size > reader.size then return (-1, [], reader)
  else do
    let src ← loadBytes .request reader.data reader.offset size
    return (0, src, { reader with offset := reader.offset + size })

/-- `request_read_channel`: the result, and the attribute if one has been stored. -/
def readChannel (reader : RequestReader) :
    Checked (Int × Option (ChannelAttr InfoPtr) × RequestReader) := do
  let (r, entry, reader) ← reader.read Entry.size
  if r < 0 then return (-r, none, reader)
  return (r, some (Entry.ofBytes entry).attr, reader)

/-- The loop over `n` channels of `ri_request_parse`, from one element of the array on. -/
def readChannels : Nat → List (ChannelAttr InfoPtr) → RequestReader →
    Checked (Int × List (ChannelAttr InfoPtr) × RequestReader)
  | 0, attrs, reader => return (0, attrs, reader)
  | n + 1, attrs, reader => do
    let (r, attr, reader) ← reader.readChannel
    if r < 0 then return (r, attrs, reader)
    match attr, attrs with
    | none, [] => readChannels n [] reader
    | some _, [] => .error .channels
    | attr, old :: attrs => do
      let (r, attrs, reader) ← readChannels n attrs reader
      return (r, attr.getD old :: attrs, reader)

end RequestReader

/-- The cursors of `read_infos`: in the request, and in the block `mem_infos`. -/
structure InfoReader where
  reader : RequestReader
  block : List Byte
  mem : Size
  copied : List Region
  deriving DecidableEq, Repr

namespace InfoReader

/-- `read_info`: the place behind the info, `none` for the null pointer. -/
def readInfo (s : InfoReader) (size : Size) : Checked (Option Size × InfoReader) := do
  let (r, src, reader) ← s.reader.read size
  if r < 0 then return (none, s)
  let block ← storeBytes .infos s.block s.mem src
  return (some (memOffset s.mem (infoAlign size)),
    { s with reader := reader, block := block, copied := s.copied ++ [⟨s.mem.toNat, size.toNat⟩] })

/-- The copy of one info in `read_infos`. -/
def place (s : InfoReader) (info : Info InfoPtr) : Checked (Int × Info InfoPtr × InfoReader) :=
  if info.size > 0 then do
    let info := { info with data := some (.block s.mem) }
    match ← s.readInfo info.size with
    | (none, s) => return (-1, info, s)
    | (some mem, s) => return (0, info, { s with mem := mem })
  else return (0, info, s)

/-- The loop over `n` channels of `read_infos`. -/
def placeChannels : Nat → List (ChannelAttr InfoPtr) → InfoReader →
    Checked (Int × List (ChannelAttr InfoPtr) × InfoReader)
  | 0, attrs, s => return (0, attrs, s)
  | _ + 1, [], _ => .error .channels
  | n + 1, attr :: attrs, s => do
    let (r, info, s) ← s.place attr.info
    if r < 0 then return (r, { attr with info := info } :: attrs, s)
    let (r, attrs, s) ← placeChannels n attrs s
    return (r, { attr with info := info } :: attrs, s)

end InfoReader

/-- What `ri_request_parse` leaves behind; `events` is read by nobody. -/
structure Parsed where
  r : Int
  data : GroupData
  events : List Event
  deriving DecidableEq, Repr

/-- `read_infos`, into the block `block`. -/
def readInfos (reader : RequestReader) (block : List Byte) (data : GroupData) : Checked Parsed := do
  let s : InfoReader := { reader := reader, block := block, mem := 0, copied := [] }
  let (r, info, s) ← s.place data.info
  let data := { data with info := info, memInfos := some s.block }
  if r < 0 then return ⟨-1, data, s.copied.map .copy⟩
  let (r, consumers, s) ← s.placeChannels data.nConsumers.toNat (elements data.consumers)
  let data := { data with consumers := data.consumers.map fun _ => consumers, memInfos := some s.block }
  if r < 0 then return ⟨-1, data, s.copied.map .copy⟩
  let (r, producers, s) ← s.placeChannels data.nProducers.toNat (elements data.producers)
  let data := { data with producers := data.producers.map fun _ => producers, memInfos := some s.block }
  if r < 0 then return ⟨-1, data, s.copied.map .copy⟩
  return ⟨0, data, s.copied.map .copy⟩

/-- `ri_request_parse` behind the two counts. -/
def requestParseGroup (A : Allocator) (reader : RequestReader)
    (groupInfoSize nConsumers nProducers : Unsigned) : Checked Parsed := do
  let (r, data, events) := groupDataNew A nConsumers nProducers
  if r ≠ 0 then return ⟨r, data, events⟩
  let data := { data with info := { data.info with size := groupInfoSize.setWidth 64 } }
  let (r, consumers, reader) ← reader.readChannels nConsumers.toNat (elements data.consumers)
  let data := { data with consumers := data.consumers.map fun _ => consumers }
  if r < 0 then return ⟨r, (groupDataDelete data).1, events ++ (groupDataDelete data).2⟩
  let (r, producers, reader) ← reader.readChannels nProducers.toNat (elements data.producers)
  let data := { data with producers := data.producers.map fun _ => producers }
  if r < 0 then return ⟨r, (groupDataDelete data).1, events ++ (groupDataDelete data).2⟩
  let infoSize ← attrCalcInfoSize (groupDataAttr data)
  match A.malloc infoSize with
  | none => return ⟨-ENOMEM, (groupDataDelete data).1, events ++ (groupDataDelete data).2⟩
  | some block => do
    let events := events ++ [.acquire (.block .infos)]
    let parsed ← readInfos reader block data
    let events := events ++ parsed.events
    if parsed.r < 0 then
      return ⟨parsed.r, (groupDataDelete parsed.data).1, events ++ (groupDataDelete parsed.data).2⟩
    return { parsed with events := events }

/-- `ri_request_parse`. -/
def requestParse (cls : Size) (A : Allocator) (req : List Byte) (size : Size) : Checked Parsed := do
  let reader : RequestReader := { data := req, size := size, offset := 0 }
  let (r, header, reader) ← reader.read RequestHeader.size
  if r < 0 then return ⟨r, .zero, []⟩
  let r := (RequestHeader.ofBytes header).validate cls
  if r < 0 then return ⟨r, .zero, []⟩
  let (r, groupInfoSize, reader) ← reader.read sizeofUnsigned
  if r < 0 then return ⟨r, .zero, []⟩
  let (r, nConsumers, reader) ← reader.read sizeofUnsigned
  if r < 0 then return ⟨r, .zero, []⟩
  let (r, nProducers, reader) ← reader.read sizeofUnsigned
  if r < 0 then return ⟨r, .zero, []⟩
  requestParseGroup A reader (unsignedOfBytes groupInfoSize) (unsignedOfBytes nConsumers)
    (unsignedOfBytes nProducers)

end Rtipc
