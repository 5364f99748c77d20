/-
  The ways in which a call goes that makes a group.

  `ri_group_from_attr` and `ri_group_deserialize` stop at the first step that fails, delete what there is
  of the group and return the null pointer.  Each way has its case (`FromAttrWay`, `MapWay`,
  `DeserializeWay`): what has been asked for and granted until then, and what has happened.

  1. **One case for each way out.**  The functions leave at the attributes, at the block of the group,
     at the arrays, at the shared memory, at a channel, or with a group.  `groupFromAttr_way` and
     `groupDeserialize_way` say that there is no other.  Each case has the list of events of its way, so
     that a ledger can be drawn up without another look at the function.

  2. **What the others use.**  The modules on the construction, the connection and the hand-over do not
     look into the functions again.  They go through the cases of `FromAttrWay` and `DeserializeWay`.
-/
import Rtipc.GroupResults

namespace Rtipc

/-! ## The group at each step -/

/-- A group with nothing but its data. -/
def Group.ofData (data : GroupData) : Group :=
  { data := data, shm := none, consumers := none, producers := none }

/-- A group with its data alone has no ends, so all counts agree. -/
theorem Group.ofData_counted (data : GroupData) : (Group.ofData data).Counted where
  refCnt _ hshm := by cases hshm
  noShm _ := ⟨rfl, rfl⟩
  owners c hc := by cases hc

/-- It owns its block and what the data owns. -/
theorem Group.ofData_owned (data : GroupData) :
    (Group.ofData data).owned = {.block .group} + data.owned := by
  rw [Group.owned, Group.ofData]
  show {.block .group} + data.owned + 0 + 0 + 0 + 0 + 0 = _
  simp only [Multiset.add_zero]

/-- The group behind `ri_group_alloc_channels`. -/
def Group.withArrays (data : GroupData) : Group :=
  { Group.ofData data with
    consumers := emptyArray data.nConsumers
    producers := emptyArray data.nProducers }

/-- With the arrays of pointers it still has no ends. -/
theorem Group.withArrays_empty (data : GroupData) : (Group.withArrays data).Empty := ⟨rfl, rfl⟩

/-- The arrays have as many entries as the data has channels. -/
theorem Group.withArrays_counted (data : GroupData) : (Group.withArrays data).Counted where
  refCnt _ hshm := by cases hshm
  noShm _ := ⟨elements_emptyArray _, elements_emptyArray _⟩
  owners c hc := by
    rw [show elements (Group.withArrays data).consumers = [] from elements_emptyArray _,
      show elements (Group.withArrays data).producers = [] from elements_emptyArray _] at hc
    cases hc

/-- The arrays of a group. -/
def ownedArrays (data : GroupData) : Multiset Resource :=
  ownedPtr (.array .consumer) (emptyArray data.nConsumers) +
    ownedPtr (.array .producer) (emptyArray data.nProducers)

/-- It owns the arrays in addition. -/
theorem Group.withArrays_owned (data : GroupData) :
    (Group.withArrays data).owned = {.block .group} + data.owned + ownedArrays data := by
  rw [Group.owned, show elements (Group.withArrays data).consumers = [] from elements_emptyArray _,
    show elements (Group.withArrays data).producers = [] from elements_emptyArray _]
  show {.block .group} + data.owned + ownedPtr (.array .consumer) (emptyArray data.nConsumers) +
    ownedPtr (.array .producer) (emptyArray data.nProducers) + 0 + 0 + 0 = _
  rw [ownedArrays]
  simp only [Multiset.add_zero]
  abel

/-- What a group owns whose arrays have been filled, as far as the loops have come: the ends and the
    shared memory come on top. -/
theorem Group.Grown.owned {cls : Size} {first : Role} {data : GroupData} {grp' : Group} {shm : Shm}
    {filled : Bool} (h : (Group.withArrays data).Grown cls first grp' shm filled) :
    grp'.owned = {.block .group} + data.owned + ownedArrays data +
      (ownedChannels .consumer 0 (grp'.ends .consumer) + ownedChannels .producer 0 (grp'.ends .producer)) +
      shm.owned := by
  rw [Group.owned, h.mapping, h.data, ownedPtr_of_isSome _ h.consumers, ownedPtr_of_isSome _ h.producers]
  show {.block .group} + data.owned + ownedPtr (.array .consumer) (emptyArray data.nConsumers) +
    ownedPtr (.array .producer) (emptyArray data.nProducers) +
    ownedChannels .consumer 0 (grp'.ends .consumer) + ownedChannels .producer 0 (grp'.ends .producer) +
    shm.owned = _
  rw [ownedArrays]
  abel

/-- What has been acquired in addition to what is settled already. -/
theorem Settles.more {events events' : List Event} {pre a b : Multiset Resource}
    (h : Settles events pre a) (h' : Settles events' 0 b) :
    Settles (events ++ events') pre (a + b) :=
  h.append ((h'.frame a).of_eq (Multiset.zero_add _) (Multiset.add_comm _ _))

/-- `ri_group_delete` of a group that has got no arrays releases all it owns. -/
theorem groupDelete_ofData (data : GroupData) :
    Settles (groupDelete (Group.ofData data)) (Group.ofData data).owned 0 :=
  groupDelete_settles (Group.ofData_counted data) (Nat.two_pow_pos 32)

/-- So does it for a group whose arrays are still empty. -/
theorem groupDelete_withArrays (data : GroupData) :
    Settles (groupDelete (Group.withArrays data)) (Group.withArrays data).owned 0 := by
  refine groupDelete_settles (Group.withArrays_counted data) ?_
  show (elements (emptyArray _)).length + (elements (emptyArray _)).length < _
  rw [elements_emptyArray, elements_emptyArray]
  exact Nat.two_pow_pos 32

/-- What has been acquired when the group data is there. -/
theorem settles_data {dataEvents : List Event} {data : GroupData}
    (h : Settles dataEvents 0 data.owned) :
    Settles (.acquire (.block .group) :: dataEvents) 0 (Group.ofData data).owned := by
  have hgroup : Settles [.acquire (.block .group)] 0 {.block .group} :=
    (Settles.acquire _).of_eq rfl (Multiset.zero_add _)
  exact (hgroup.more h).of_eq rfl (Group.ofData_owned data).symm

/-- What has been acquired when the arrays are there. -/
theorem settles_arrays {events arrays : List Event} {data : GroupData}
    (h : Settles events 0 (Group.ofData data).owned) (h' : Settles arrays 0 (ownedArrays data)) :
    Settles (events ++ arrays) 0 (Group.withArrays data).owned :=
  (h.more h').of_eq rfl (by rw [Group.withArrays_owned, Group.ofData_owned])

section arrays

variable {os : Os} {data : GroupData}

/-- `ri_group_alloc_channels` if both arrays are granted. -/
theorem groupAllocChannels_granted (h : os.GrantsArrays data) :
    ∃ arrays, groupAllocChannels os (Group.ofData data) = (0, Group.withArrays data, arrays) ∧
      Settles arrays 0 (ownedArrays data) :=
  groupAllocChannels_ok os (Group.ofData data) h

/-- If one is refused the other one is given back, and the group is as before. -/
theorem groupAllocChannels_refused (h : ¬ os.GrantsArrays data) :
    ∃ arrays, groupAllocChannels os (Group.ofData data) = (-ENOMEM, Group.ofData data, arrays) ∧
      Settles arrays 0 0 :=
  groupAllocChannels_fail os (Group.ofData data) h rfl

end arrays

/-! ## From attributes -/

/-- `ri_group_data_from_attr` returns 0 or an error. -/
theorem groupDataFromAttr_r {A : Allocator} {attr : GroupAttr (List Byte)} {r : Int}
    {data : GroupData} {events : List Event} (h : groupDataFromAttr A attr = .ok (r, data, events)) :
    r < 0 ∨ r = 0 := by
  obtain ⟨nConsumers, -, h⟩ := checkedBind_ok.mp h
  obtain ⟨nProducers, -, h⟩ := checkedBind_ok.mp h
  simp only [] at h
  split at h
  · cases h
    exact Or.inl (by decide)
  · obtain ⟨infoSize, -, h⟩ := checkedBind_ok.mp h
    split at h
    · split at h
      · cases h
        exact Or.inl (by decide)
      · obtain ⟨copied, -, h⟩ := checkedBind_ok.mp h
        cases h
        exact Or.inr rfl
    · obtain ⟨copied, -, h⟩ := checkedBind_ok.mp h
      cases h
      exact Or.inr rfl

/-- How a call of `ri_group_from_attr` goes. -/
inductive FromAttrWay (os : Os) (cls : Size) (attr : GroupAttr (List Byte)) :
    Option Group → List Event → Prop where
  | noGroup (hgroup : os.block .group = false) : FromAttrWay os cls attr none []
  | noData {r : Int} {data : GroupData} {events : List Event} (hgroup : os.block .group = true)
    (hdata : groupDataFromAttr os.tables attr = .ok (r, data, events)) (hr : r < 0) :
    FromAttrWay os cls attr none
      (.acquire (.block .group) :: events ++ groupDelete (Group.ofData data))
  | noArrays {data : GroupData} {events arrays : List Event}
    (hdata : groupDataFromAttr os.tables attr = .ok (0, data, events))
    (harrays : ¬ os.GrantsArrays data) (hsettles : Settles arrays 0 0) :
    FromAttrWay os cls attr none
      (.acquire (.block .group) :: events ++ arrays ++ groupDelete (Group.ofData data))
  | noShm {data : GroupData} {events arrays shmEvents : List Event} {size : Size}
    (hgroup : os.block .group = true)
    (hdata : groupDataFromAttr os.tables attr = .ok (0, data, events))
    (harrays : os.GrantsArrays data) (hsettles : Settles arrays 0 (ownedArrays data))
    (hsize : calcShmSize cls attr.consumers attr.producers = .ok size)
    (hshm : shmNew os size = (none, shmEvents)) :
    FromAttrWay os cls attr none (.acquire (.block .group) :: events ++ arrays ++ shmEvents ++
      groupDelete (Group.withArrays data))
  | stopped {data : GroupData} {events arrays shmEvents channels : List Event} {size : Size}
    {shm : Shm} {grp : Group} (hgroup : os.block .group = true)
    (hdata : groupDataFromAttr os.tables attr = .ok (0, data, events))
    (harrays : os.GrantsArrays data) (hsettles : Settles arrays 0 (ownedArrays data))
    (hsize : calcShmSize cls attr.consumers attr.producers = .ok size)
    (hshm : shmNew os size = (some shm, shmEvents))
    (hchannels : groupNewChannels os cls (Group.withArrays data) shm = .ok (false, grp, channels)) :
    FromAttrWay os cls attr none (.acquire (.block .group) :: events ++ arrays ++ shmEvents ++
      channels ++ groupDelete grp)
  | made {data : GroupData} {events arrays shmEvents channels : List Event} {size : Size}
    {shm : Shm} {grp : Group} (hdata : groupDataFromAttr os.tables attr = .ok (0, data, events))
    (hsettles : Settles arrays 0 (ownedArrays data))
    (hsize : calcShmSize cls attr.consumers attr.producers = .ok size)
    (hshm : shmNew os size = (some shm, shmEvents))
    (hchannels : groupNewChannels os cls (Group.withArrays data) shm = .ok (true, grp, channels)) :
    FromAttrWay os cls attr (some grp)
      (.acquire (.block .group) :: events ++ arrays ++ shmEvents ++ channels)

/-- Every call of `ri_group_from_attr` takes one of these ways, by where it stops. -/
theorem groupFromAttr_way {os : Os} {cls : Size} {attr : GroupAttr (List Byte)} {grp : Option Group}
    {events : List Event} (h : groupFromAttr os cls attr = .ok (grp, events)) :
    FromAttrWay os cls attr grp events := by
  unfold groupFromAttr at h
  cases hgroup : os.block .group with
  | false =>
    rw [hgroup] at h
    cases h
    exact .noGroup hgroup
  | true =>
    rw [hgroup] at h
    obtain ⟨⟨r, data, dataEvents⟩, hdata, h⟩ := checkedBind_ok.mp h
    dsimp only at h
    split at h
    · rename_i hr
      cases h
      exact .noData hgroup hdata hr
    rename_i hr
    obtain rfl : r = 0 := (groupDataFromAttr_r hdata).resolve_left hr
    rw [← Group.ofData] at h
    -- The arrays of channels are had both or not at all.
    by_cases harrays : os.GrantsArrays data
    · obtain ⟨arrays, halloc, hsettles⟩ := groupAllocChannels_granted harrays
      rw [halloc] at h
      obtain ⟨size, hsize, h⟩ := checkedBind_ok.mp h
      split at h
      · rename_i shmEvents hshm
        cases h
        exact .noShm hgroup hdata harrays hsettles hsize hshm
      · rename_i shm shmEvents hshm
        obtain ⟨⟨filled, grp', channels⟩, hchannels, h⟩ := checkedBind_ok.mp h
        cases filled with
        | false =>
          cases h
          exact .stopped hgroup hdata harrays hsettles hsize hshm hchannels
        | true =>
          cases h
          exact .made hdata hsettles hsize hshm hchannels
    · obtain ⟨arrays, halloc, hsettles⟩ := groupAllocChannels_refused harrays
      rw [halloc] at h
      cases h
      exact .noArrays hdata harrays hsettles

/-! ## From a request -/

/-- How a call of `ri_group_map` goes. -/
inductive MapWay (os : Os) (cls : Size) (grp : Group) (n : Unsigned) :
    Option (List Int) → Int → Group → Option (List Int) → List Event → Prop where
  | noFd : MapWay os cls grp n none (-1) grp none []
  | refused {shmfd : Int} {rest : List Int} (hverify : os.memfdVerify shmfd < 0) :
    MapWay os cls grp n (some (shmfd :: rest)) (-1) grp (some (shmfd :: rest)) []
  | noShm {shmfd : Int} {rest : List Int} {events : List Event} (hverify : 0 ≤ os.memfdVerify shmfd)
    (hshm : shmMap os shmfd = (none, events)) :
    MapWay os cls grp n (some (shmfd :: rest)) (-1) grp (some (shmfd :: rest)) events
  | mapped {shmfd : Int} {rest rest' : List Int} {events channels : List Event} {shm : Shm}
    {filled : Bool} {grp' : Group} (hverify : 0 ≤ os.memfdVerify shmfd)
    (hshm : shmMap os shmfd = (some shm, events))
    (hchannels : groupMapChannels os cls grp shm (-1 :: rest) n =
      .ok (filled, grp', rest', channels)) :
    MapWay os cls grp n (some (shmfd :: rest)) (if filled then 0 else -1) grp' (some rest')
      (events ++ channels)

/-- Every call of `ri_group_map` with a descriptor takes one of these ways. -/
theorem groupMap_way {os : Os} {cls : Size} {grp grp' : Group} {n : Unsigned}
    {fds fds' : Option (List Int)} {r : Int} {events : List Event} (hpos : ¬ n < 1)
    (h : groupMap os cls grp fds n = .ok (r, grp', fds', events)) :
    MapWay os cls grp n fds r grp' fds' events := by
  unfold groupMap at h
  split at h
  · cases h
    exact .noFd
  · rw [if_neg hpos] at h
    cases h
  · rename_i shmfd rest
    rw [if_neg hpos] at h
    split at h
    · rename_i hverify
      cases h
      exact .refused hverify
    rename_i hverify
    split at h
    · rename_i shmEvents hshm
      cases h
      exact .noShm (not_lt.mp hverify) hshm
    · rename_i shm shmEvents hshm
      obtain ⟨⟨filled, grown, rest', channels⟩, hchannels, h⟩ := checkedBind_ok.mp h
      cases h
      exact .mapped (not_lt.mp hverify) hshm hchannels

/-- How a call of `ri_group_deserialize` goes. -/
inductive DeserializeWay (os : Os) (cls : Size) (req : List Byte) (size : Size)
    (fds : Option (List Int)) : Option Unsigned → Deserialized → Prop where
  | noNumber : DeserializeWay os cls req size fds none ⟨none, fds, none, []⟩
  | noFds {n : Unsigned} (hpos : n < 1) :
    DeserializeWay os cls req size fds (some n) ⟨none, fds, some n, []⟩
  | noGroup {n : Unsigned} (hgroup : os.block .group = false) :
    DeserializeWay os cls req size fds (some n) ⟨none, fds, some n, []⟩
  | refused {n : Unsigned} {parsed : Parsed} (hpos : ¬ n < 1) (hgroup : os.block .group = true)
    (hparse : requestParse cls os.tables req size = .ok parsed) (hr : parsed.r < 0) :
    DeserializeWay os cls req size fds (some n) ⟨none, fds, some n,
      .acquire (.block .group) :: parsed.events ++ groupDelete (Group.ofData parsed.data)⟩
  | noArrays {n : Unsigned} {parsed : Parsed} {arrays : List Event}
    (hparse : requestParse cls os.tables req size = .ok parsed) (hr : 0 ≤ parsed.r)
    (harrays : ¬ os.GrantsArrays parsed.data) (hsettles : Settles arrays 0 0) :
    DeserializeWay os cls req size fds (some n) ⟨none, fds, some n,
      .acquire (.block .group) :: parsed.events ++ arrays ++ groupDelete (Group.ofData parsed.data)⟩
  | stopped {n : Unsigned} {parsed : Parsed} {arrays events : List Event} {r : Int} {grp : Group}
    {fds' : Option (List Int)} (hpos : ¬ n < 1) (hgroup : os.block .group = true)
    (hparse : requestParse cls os.tables req size = .ok parsed) (hr : 0 ≤ parsed.r)
    (harrays : os.GrantsArrays parsed.data) (hsettles : Settles arrays 0 (ownedArrays parsed.data))
    (hmap : groupMap os cls (Group.withArrays parsed.data) fds n = .ok (r, grp, fds', events))
    (hneg : r < 0) : DeserializeWay os cls req size fds (some n) ⟨none, fds', some n,
      .acquire (.block .group) :: parsed.events ++ arrays ++ events ++ groupDelete grp⟩
  | made {n : Unsigned} {parsed : Parsed} {arrays events : List Event} {r : Int} {grp : Group}
    {fds' : Option (List Int)} (hpos : ¬ n < 1)
    (hparse : requestParse cls os.tables req size = .ok parsed) (hr : 0 ≤ parsed.r)
    (hsettles : Settles arrays 0 (ownedArrays parsed.data))
    (hmap : groupMap os cls (Group.withArrays parsed.data) fds n = .ok (r, grp, fds', events))
    (hnonneg : 0 ≤ r) : DeserializeWay os cls req size fds (some n) ⟨some grp, fds', some n,
      .acquire (.block .group) :: parsed.events ++ arrays ++ events⟩

/-- Every call of `ri_group_deserialize` takes one of these ways. -/
theorem groupDeserialize_way {os : Os} {cls : Size} {req : List Byte} {size : Size}
    {fds : Option (List Int)} {nFds : Option Unsigned} {d : Deserialized}
    (h : groupDeserialize os cls req size fds nFds = .ok d) :
    DeserializeWay os cls req size fds nFds d := by
  unfold groupDeserialize at h
  cases nFds with
  | none =>
    cases h
    exact .noNumber
  | some n =>
    dsimp only at h
    by_cases hpos : n < 1
    · rw [if_pos hpos] at h
      cases h
      exact .noFds hpos
    rw [if_neg hpos] at h
    cases hgroup : os.block .group with
    | false =>
      rw [hgroup] at h
      cases h
      exact .noGroup hgroup
    | true =>
      rw [hgroup] at h
      obtain ⟨parsed, hparse, h⟩ := checkedBind_ok.mp h
      rw [← Group.ofData] at h
      split at h
      · rename_i hr
        cases h
        exact .refused hpos hgroup hparse hr
      rename_i hr
      have hr : 0 ≤ parsed.r := not_lt.mp hr
      -- The same for the server.
      by_cases harrays : os.GrantsArrays parsed.data
      · obtain ⟨arrays, halloc, hsettles⟩ := groupAllocChannels_granted harrays
        rw [halloc] at h
        obtain ⟨⟨r, grp', fds', events⟩, hmap, h⟩ := checkedBind_ok.mp h
        dsimp only at h
        split at h
        · rename_i hneg
          cases h
          exact .stopped hpos hgroup hparse hr harrays hsettles hmap hneg
        · rename_i hnonneg
          cases h
          exact .made hpos hparse hr hsettles hmap (not_lt.mp hnonneg)
      · obtain ⟨arrays, halloc, hsettles⟩ := groupAllocChannels_refused harrays
        rw [halloc] at h
        cases h
        exact .noArrays hparse hr harrays hsettles

end Rtipc
