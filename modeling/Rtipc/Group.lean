/-
  `src/group.c`: groups of channels.

  One side creates a group from attributes, and writes a request and the descriptors that go with it;
  the other side makes its group from them.  An array of pointers to channels is the list of the
  channels in it, which come before the null pointers; `none` is an array that has not been allocated.

  `events` records what is acquired and released, and is read by nobody.
-/
import Rtipc.ChannelEnd
import Rtipc.Request

namespace Rtipc

/-- `ri_group_t`. -/
structure Group where
  data : GroupData
  shm : Option Shm
  consumers : Option (List ChannelEnd)
  producers : Option (List ChannelEnd)
  deriving DecidableEq, Repr

/-! ## Allocation

  The two arrays of pointers, which are allocated before any channel. -/

/-- The array of `n` null pointers that `ri_group_alloc_channels` asks for, `none` if it does not get
    it. -/
def Os.array (os : Os) (role : Role) (n : Unsigned) : Option (Option (List ChannelEnd)) :=
  if n > 0 then
    if os.block (.array role) then some (some []) else none
  else some none

/-- `ri_group_alloc_channels`. -/
def groupAllocChannels (os : Os) (grp : Group) : Int × Group × List Event :=
  match os.array .consumer grp.data.nConsumers with
  | none => (-ENOMEM, grp, [])
  | some consumers =>
    match os.array .producer grp.data.nProducers with
    | none =>
      (-ENOMEM, { grp with consumers := none },
        acquired (.array .consumer) consumers ++ freed (.array .consumer) consumers)
    | some producers =>
      (0, { grp with consumers := consumers, producers := producers },
        acquired (.array .consumer) consumers ++ acquired (.array .producer) producers)

/-! ## Deleting

  One reference less for each channel, and one for the group itself. -/

/-- A loop of `ri_group_delete`, from channel `i` on. -/
def releaseChannels (role : Role) : Nat → List ChannelEnd → Shm → Shm × List Event
  | _, [], shm => (shm, [])
  | i, channel :: channels, shm =>
    let (shm, events) := channel.groupRelease role i shm
    let (shm, events') := releaseChannels role (i + 1) channels shm
    (shm, events ++ events')

/-- `ri_group_delete`.  There are no channels without shared memory. -/
def groupDelete (grp : Group) : List Event :=
  match grp.shm with
  | none =>
    freed (.array .consumer) grp.consumers ++ freed (.array .producer) grp.producers ++
      (groupDataDelete grp.data).2 ++ [.release (.block .group)]
  | some shm =>
    let (shm, consumers) := releaseChannels .consumer 0 (elements grp.consumers) shm
    let (shm, producers) := releaseChannels .producer 0 (elements grp.producers) shm
    consumers ++ freed (.array .consumer) grp.consumers ++
      producers ++ freed (.array .producer) grp.producers ++
      (shmUnref shm).2 ++ (groupDataDelete grp.data).2 ++ [.release (.block .group)]

/-! ## The loops over the channels

  The loops of `ri_group_from_attr` and `ri_group_map` differ in what one round does, and in nothing
  else. -/

/-- A loop that makes `n` channels, from channel `i` on, as long as `step` succeeds. -/
def fillChannels {σ : Type}
    (step : Nat → ChannelAttr InfoPtr → σ → Checked (Option ChannelEnd × σ × List Event)) :
    Nat → Nat → List (ChannelAttr InfoPtr) → σ → Checked (Bool × List ChannelEnd × σ × List Event)
  | 0, _, _, s => return (true, [], s, [])
  | _ + 1, _, [], _ => .error .channels
  | n + 1, i, attr :: attrs, s => do
    let (channel, s, events) ← step i attr s
    match channel with
    | none => return (false, [], s, events)
    | some channel =>
      let (filled, channels, s, events') ← fillChannels step n (i + 1) attrs s
      return (filled, channel :: channels, s, events ++ events')

/-- The shared memory, and where the next channel starts in it. -/
structure ShmCursor where
  shm : Shm
  offset : Size
  deriving DecidableEq, Repr

/-! ## From attributes -/

section create

variable (os : Os) (cls : Size)

/-- One round of a loop of `ri_group_from_attr`. -/
def newChannel (role : Role) (i : Nat) (attr : ChannelAttr InfoPtr) (s : ShmCursor) :
    Checked (Option ChannelEnd × ShmCursor × List Event) :=
  match channelNew os cls role i attr s.shm s.offset with
  | (none, events) => return (none, s, events)
  | (some (channel, shm), events) =>
    return (some channel, { shm := shm, offset := s.offset + channelShmSize cls attr }, events)

/-- The loops of `ri_group_from_attr`: whether all channels have been made, the group with the channels
    that have been. -/
def groupNewChannels (grp : Group) (shm : Shm) : Checked (Bool × Group × List Event) := do
  let (filled, producers, s, events) ← fillChannels (newChannel os cls .producer)
    grp.data.nProducers.toNat 0 (elements grp.data.producers) { shm := shm, offset := 0 }
  let grp := { grp with shm := some s.shm, producers := grp.producers.map fun _ => producers }
  if !filled then return (false, grp, events)
  let (filled, consumers, s, events') ← fillChannels (newChannel os cls .consumer)
    grp.data.nConsumers.toNat 0 (elements grp.data.consumers) s
  let grp := { grp with shm := some s.shm, consumers := grp.consumers.map fun _ => consumers }
  return (filled, grp, events ++ events')

/-- The sum of the sizes of `n` channels, on top of `size`. -/
def addChannelShmSizes {π : Type} : Nat → List (ChannelAttr π) → Size → Checked Size
  | 0, _, size => return size
  | _ + 1, [], _ => .error .channels
  | n + 1, attr :: attrs, size => addChannelShmSizes n attrs (size + channelShmSize cls attr)

/-- `ri_calc_shm_size`. -/
def calcShmSize {π : Type} (consumers producers : Option (List (ChannelAttr π))) : Checked Size := do
  let nConsumers ← countChannels consumers
  let nProducers ← countChannels producers
  let size ← addChannelShmSizes cls nConsumers.toNat (elements consumers) 0
  addChannelShmSizes cls nProducers.toNat (elements producers) size

/-- `ri_group_from_attr`: the group, or the null pointer. -/
def groupFromAttr (attr : GroupAttr (List Byte)) : Checked (Option Group × List Event) := do
  if !os.block .group then return (none, [])
  let (r, data, events) ← groupDataFromAttr os.tables attr
  let events := .acquire (.block .group) :: events
  let grp : Group := { data := data, shm := none, consumers := none, producers := none }
  if r < 0 then return (none, events ++ groupDelete grp)
  let (r, grp, arrays) := groupAllocChannels os grp
  let events := events ++ arrays
  if r < 0 then return (none, events ++ groupDelete grp)
  let size ← calcShmSize cls attr.consumers attr.producers
  match shmNew os size with
  | (none, shmEvents) => return (none, events ++ shmEvents ++ groupDelete grp)
  | (some shm, shmEvents) => do
    let (filled, grp, channels) ← groupNewChannels os cls grp shm
    let events := events ++ shmEvents ++ channels
    if !filled then return (none, events ++ groupDelete grp)
    return (some grp, events)

end create

/-! ## To a request -/

/-- `fds[idx] = fd`. -/
def storeFd (fds : List Int) (idx : Unsigned) (fd : Int) : Checked (List Int) :=
  if idx.toNat < fds.length then .ok (fds.set idx.toNat fd) else .error .fds

/-- A loop of `collect_fds`: 0 or an error, the next index and the descriptors. -/
def collectEventfds (nFds : Unsigned) : List ChannelEnd → Unsigned → List Int →
    Checked (Int × Unsigned × List Int)
  | [], idx, fds => return (0, idx, fds)
  | channel :: channels, idx, fds =>
    if channel.eventfd ≥ 0 then
      if idx ≥ nFds then return (-ENOMEM, idx, fds)
      else do
        let fds ← storeFd fds idx channel.eventfd
        collectEventfds nFds channels (idx + 1) fds
    else collectEventfds nFds channels idx fds

/-- The `int` that an `unsigned` is. -/
def intOfUnsigned (x : Unsigned) : Int := x.toInt

/-- `collect_fds`. -/
def collectFds (grp : Group) (fds : List Int) (nFds : Unsigned) : Checked (Int × List Int) :=
  if nFds < 1 then return (-EINVAL, fds)
  else
    match grp.shm with
    | none => .error .null
    | some shm => do
      let fds ← storeFd fds 0 shm.fd
      let (r, idx, fds) ← collectEventfds nFds (elements grp.producers) 1 fds
      if r < 0 then return (r, fds)
      let (r, idx, fds) ← collectEventfds nFds (elements grp.consumers) idx fds
      if r < 0 then return (r, fds)
      return (intOfUnsigned idx, fds)

/-- What `ri_group_serialize` returns, and what it leaves in the buffer, in the array of descriptors
    and in `*n_fds`. -/
structure Serialized where
  r : Int
  req : List Byte
  fds : List Int
  nFds : Option Unsigned
  deriving DecidableEq, Repr

/-- `ri_group_serialize`. -/
def groupSerialize (cls : Size) (grp : Group) (req : List Byte) (size : Size) (fds : List Int)
    (nFds : Option Unsigned) : Checked Serialized :=
  match nFds with
  | none => return ⟨-EINVAL, req, fds, nFds⟩
  | some n =>
    if n < 1 then return ⟨-EINVAL, req, fds, nFds⟩
    else do
      let (written, req) ← requestWrite cls grp.data.view req size
      if written < 0 then return ⟨written, req, fds, nFds⟩
      let (r, fds) ← collectFds grp fds n
      if r < 0 then return ⟨r, req, fds, nFds⟩
      return ⟨written, req, fds, some (BitVec.ofInt 32 r)⟩

/-- `ri_group_serialize_size`. -/
def groupSerializeSize (grp : Group) : Checked Size := requestCalcSize (groupDataAttr grp.data)

/-! ## From a request -/

section map

variable (os : Os) (cls : Size)

/-- `take_eventfd`: the descriptor, or a negative number. -/
def takeEventfd (idx : Unsigned) (fds : List Int) (nFds : Unsigned) : Checked (Int × List Int) :=
  if idx ≥ nFds then return (-1, fds)
  else
    match fds[idx.toNat]? with
    | none => .error .fds
    | some eventfd =>
      if eventfd < 0 then return (eventfd, fds)
      else if os.eventfdVerify eventfd < 0 then return (os.eventfdVerify eventfd, fds)
      else if os.setNonblocking eventfd < 0 then return (os.setNonblocking eventfd, fds)
      -- the descriptor goes over to the channel
      else return (eventfd, fds.set idx.toNat (-1))

/-- In addition the descriptors, and the next of them. -/
structure FdCursor extends ShmCursor where
  fds : List Int
  idx : Unsigned
  deriving DecidableEq, Repr

/-- The eventfd that a loop of `ri_group_map` takes for a channel; no descriptor is taken for a channel
    without. -/
def FdCursor.takeEventfd (nFds : Unsigned) (attr : ChannelAttr InfoPtr) (s : FdCursor) :
    Checked (Int × FdCursor) :=
  if attr.eventfd then do
    let (eventfd, fds) ← Rtipc.takeEventfd os s.idx s.fds nFds
    return (eventfd, { s with fds := fds, idx := s.idx + 1 })
  else return (-1, s)

/-- One round of a loop of `ri_group_map`. -/
def mapChannel (nFds : Unsigned) (role : Role) (i : Nat) (attr : ChannelAttr InfoPtr) (s : FdCursor) :
    Checked (Option ChannelEnd × FdCursor × List Event) := do
  let (eventfd, s) ← s.takeEventfd os nFds attr
  if attr.eventfd ∧ eventfd < 0 then return (none, s, [])
  match channelMap os cls role i attr eventfd s.shm s.offset with
  -- the eventfd that no channel has become the owner of is closed
  | (none, events) => return (none, s, events ++ closed eventfd)
  | (some (channel, shm), events) =>
    return (some channel,
      { s with shm := shm, offset := s.offset + channelShmSize cls attr }, events)

/-- The loops of `ri_group_map`: whether all channels have been made, the group with the channels that
    have been, and the descriptors. -/
def groupMapChannels (grp : Group) (shm : Shm) (fds : List Int) (nFds : Unsigned) :
    Checked (Bool × Group × List Int × List Event) := do
  let (filled, consumers, s, events) ← fillChannels (mapChannel os cls nFds .consumer)
    grp.data.nConsumers.toNat 0 (elements grp.data.consumers)
    { shm := shm, offset := 0, fds := fds, idx := 1 }
  let grp := { grp with shm := some s.shm, consumers := grp.consumers.map fun _ => consumers }
  if !filled then return (false, grp, s.fds, events)
  let (filled, producers, s, events') ← fillChannels (mapChannel os cls nFds .producer)
    grp.data.nProducers.toNat 0 (elements grp.data.producers) s
  let grp := { grp with shm := some s.shm, producers := grp.producers.map fun _ => producers }
  return (filled, grp, s.fds, events ++ events')

/-- `ri_group_map`: 0 or -1, the group, the descriptors and the events.  `*n_fds` is only read. -/
def groupMap (grp : Group) (fds : Option (List Int)) (nFds : Unsigned) :
    Checked (Int × Group × Option (List Int) × List Event) :=
  match fds with
  | none => return (-1, grp, fds, [])
  | some [] => if nFds < 1 then return (-1, grp, fds, []) else .error .fds
  | some (shmfd :: rest) =>
    if nFds < 1 then return (-1, grp, fds, [])
    else if os.memfdVerify shmfd < 0 then return (-1, grp, fds, [])
    else
      match shmMap os shmfd with
      | (none, events) => return (-1, grp, fds, events)
      -- the descriptor of the shared memory goes over to it
      | (some shm, events) => do
        let (filled, grp, fds, channels) ← groupMapChannels os cls grp shm (-1 :: rest) nFds
        return (if filled then 0 else -1, grp, some fds, events ++ channels)

/-- What `ri_group_deserialize` returns, and what it leaves in the array of descriptors and in
    `*n_fds`. -/
structure Deserialized where
  grp : Option Group
  fds : Option (List Int)
  nFds : Option Unsigned
  events : List Event
  deriving DecidableEq, Repr

/-- `ri_group_deserialize`. -/
def groupDeserialize (req : List Byte) (size : Size) (fds : Option (List Int))
    (nFds : Option Unsigned) : Checked Deserialized :=
  match nFds with
  | none => return ⟨none, fds, nFds, []⟩
  | some n =>
    if n < 1 then return ⟨none, fds, nFds, []⟩
    else if !os.block .group then return ⟨none, fds, nFds, []⟩
    else do
      let parsed ← requestParse cls os.tables req size
      let events := .acquire (.block .group) :: parsed.events
      let grp : Group := { data := parsed.data, shm := none, consumers := none, producers := none }
      if parsed.r < 0 then return ⟨none, fds, nFds, events ++ groupDelete grp⟩
      let (r, grp, arrays) := groupAllocChannels os grp
      let events := events ++ arrays
      if r < 0 then return ⟨none, fds, nFds, events ++ groupDelete grp⟩
      let (r, grp, fds, mapEvents) ← groupMap os cls grp fds n
      let events := events ++ mapEvents
      if r < 0 then return ⟨none, fds, nFds, events ++ groupDelete grp⟩
      return ⟨some grp, fds, nFds, events⟩

end map

/-! ## Handing out channels -/

/-- `ri_group_acquire_consumer` and `ri_group_acquire_producer`: the result, null if there is no such
    channel or a user has it, and the array. -/
def acquireChannel (channels : List ChannelEnd) (index : Unsigned) :
    Option ChannelEnd × List ChannelEnd :=
  match channels[index.toNat]? with
  | none => (none, channels)
  | some channel =>
    if channel.acquire.1 < 0 then (none, channels.set index.toNat channel.acquire.2)
    else (some channel.acquire.2, channels.set index.toNat channel.acquire.2)

end Rtipc
