/-
  A construction that fails releases what it has acquired.

  `ri_group_from_attr` and `ri_group_deserialize` give everything back if they return the null pointer,
  with three exceptions.  Without memory for the table of the producers `ri_group_data_new` releases
  the table of the consumers and leaves the pointer to it to `ri_group_delete`, which releases it again.
  If `mlock` fails the memory stays mapped.  And the references of 2³² channels overflow the counter, so
  that deleting them releases the shared memory too early.

  1. **The condition.**  `FromAttrLeaks` and `DeserializeLeaks` say in terms of the system and of the
     arguments alone which of the three exceptions a call meets.

  2. **The parts.**  A construction is a sequence of acquisitions that may stop anywhere (`FromAttrWay`,
     `DeserializeWay`).  For each place there is one lemma that says whether the cleanup from there
     gives everything back.

  3. **The crux.**  Cleaning up is `ri_group_delete` on a group that is only partly there.  It gives
     everything back for every such group as long as the reference counter has not wrapped
     (`Group.Grown.delete_settles_iff`); with 2³² channels the counter reaches zero before the last of
     them is gone, and the memory is unmapped while there still are references to it
     (`releaseChannels_unmaps`).
-/
import Rtipc.GroupWays

namespace Rtipc

/-! ## Deleting more channels than the counter can count

  The counter has 32 bits.  With 2³² references or more it comes round, and the memory is unmapped
  while channels are left. -/

/-- How often the events unmap the shared memory. -/
def unmaps (events : List Event) : Nat := Ledger.releases (events.filterMap Event.move) .mapping

/-- The unmappings of two parts add up. -/
theorem unmaps_append (events events' : List Event) :
    unmaps (events ++ events') = unmaps events + unmaps events' := by
  rw [unmaps, List.filterMap_append, Ledger.releases_append]
  rfl

/-- Deleting the shared memory unmaps it once. -/
theorem unmaps_shmDelete (shm : Shm) : unmaps (shmDelete shm) = 1 := rfl

section overflow

variable {role : Role} {i k : Nat} {shm : Shm} {channels : List ChannelEnd}

/-- An end that only the group owns is deleted when the group releases it. -/
theorem ChannelEnd.groupRelease_eq {channel : ChannelEnd} (h : channel.owners = ownerGroupFlag) :
    channel.groupRelease role i shm = channel.delete role i shm := if_pos (by rw [h]; rfl)

/-- The ends give back their references, one each; the counter has 32 bits. -/
theorem releaseChannels_refCnt (howners : ∀ c ∈ channels, c.owners = ownerGroupFlag) :
    (releaseChannels role i channels shm).1.refCnt = shm.refCnt - BitVec.ofNat 32 channels.length := by
  induction channels generalizing i shm with
  | nil =>
    rw [List.length_nil, BitVec.sub_zero]
    rfl
  | cons channel channels ih =>
    rw [releaseChannels_cons, ih fun c hc => howners c (List.mem_cons_of_mem _ hc),
      ChannelEnd.groupRelease_eq (howners channel List.mem_cons_self), List.length_cons]
    show shm.refCnt - 1 - BitVec.ofNat 32 channels.length = _
    rw [BitVec.ofNat_add, BitVec.sub_sub, BitVec.add_comm]
    rfl

/-- The references pass the value 1 too early. -/
theorem releaseChannels_unmaps (role : Role) (i : Nat) (shm : Shm)
    (howners : ∀ c ∈ channels, c.owners = ownerGroupFlag)
    (hcnt : shm.refCnt = BitVec.ofNat 32 (k + channels.length)) (hk : k ≤ 2 ^ 32)
    (hmany : 2 ^ 32 < k + channels.length) :
    1 ≤ unmaps (releaseChannels role i channels shm).2 := by
  induction channels generalizing i shm with
  | nil =>
    rw [List.length_nil] at hmany
    omega
  | cons channel channels ih =>
    rw [List.length_cons] at hcnt hmany
    have hfirst : (channel.groupRelease role i shm).2 = (shmUnref shm).2 ++
        [.release (.block (.queue role i))] ++ closed channel.eventfd ++
          [.release (.block (.channel role i))] := by
      rw [ChannelEnd.groupRelease_eq (howners channel List.mem_cons_self)]
      rfl
    rw [releaseChannels_cons, unmaps_append]
    -- The counter has wrapped, so the release that brings it to zero comes before the last one.
    by_cases hlast : k + channels.length = 2 ^ 32
    · have hone : shm.refCnt = 1 := by
        rw [hcnt, ← Nat.add_assoc, hlast]
        rfl
      have hunref : (shmUnref shm).2 = shmDelete shm := if_pos hone
      rw [hfirst, hunref, List.append_assoc, List.append_assoc, unmaps_append, unmaps_shmDelete]
      omega
    · have hrest := ih (i + 1) (channel.groupRelease role i shm).1
        (fun c hc => howners c (List.mem_cons_of_mem _ hc)) (by
          rw [ChannelEnd.groupRelease_eq (howners channel List.mem_cons_self)]
          show shm.refCnt - 1 = _
          rw [hcnt, ← Nat.add_assoc, BitVec.ofNat_add _ 1]
          exact add_sub_cancel_right _ _) (by omega)
      omega

end overflow

/-- Only releases. -/
def Releasing (events : List Event) : Prop := ∀ e ∈ events, ∃ r, e = .release r

section releasing

/-- Two parts that acquire nothing acquire nothing together. -/
theorem Releasing.append {events events' : List Event} (h : Releasing events)
    (h' : Releasing events') : Releasing (events ++ events') := by
  intro e he
  rcases List.mem_append.mp he with he | he
  · exact h e he
  · exact h' e he

/-- A release acquires nothing. -/
theorem releasing_release (r : Resource) : Releasing [.release r] := by
  intro e he
  exact ⟨r, List.mem_singleton.mp he⟩

/-- Nor does freeing a block, -/
theorem releasing_freed {α : Type} (b : Block) (ptr : Option α) : Releasing (freed b ptr) := by
  cases ptr with
  | none =>
    intro e he
    cases he
  | some a => exact releasing_release _

/-- closing a descriptor, -/
theorem releasing_closed (fd : Int) : Releasing (closed fd) := by
  unfold closed
  split
  · exact releasing_release _
  · intro e he
    cases he

/-- giving back a reference, -/
theorem releasing_shmUnref (shm : Shm) : Releasing (shmUnref shm).2 := by
  show Releasing (if shm.refCnt = 1 then shmDelete shm else [])
  split
  · exact ((releasing_release _).append (releasing_release _)).append (releasing_release _)
  · intro e he
    cases he

/-- releasing the ends of a role, -/
theorem releasing_releaseChannels {role : Role} (i : Nat) (channels : List ChannelEnd) (shm : Shm) :
    Releasing (releaseChannels role i channels shm).2 := by
  induction channels generalizing i shm with
  | nil =>
    intro e he
    cases he
  | cons channel channels ih =>
    rw [releaseChannels_cons]
    refine Releasing.append ?_ (ih (i + 1) _)
    unfold ChannelEnd.groupRelease
    split
    · exact (((releasing_shmUnref shm).append (releasing_release _)).append
        (releasing_closed _)).append (releasing_release _)
    · intro e he
      cases he

/-- or deleting the group. -/
theorem releasing_groupDelete (grp : Group) : Releasing (groupDelete grp) := by
  have hdata : Releasing (groupDataDelete grp.data).2 :=
    ((releasing_freed _ _).append (releasing_freed _ _)).append (releasing_freed _ _)
  unfold groupDelete
  split
  · exact (((releasing_freed _ _).append (releasing_freed _ _)).append hdata).append
      (releasing_release _)
  · rename_i shm hshm
    exact ((((((releasing_releaseChannels 0 _ shm).append (releasing_freed _ _)).append
      (releasing_releaseChannels 0 _ _)).append (releasing_freed _ _)).append
        (releasing_shmUnref _)).append hdata).append (releasing_release _)

/-- In the ledger such events count as no acquisition. -/
theorem Releasing.acquires {events : List Event} (h : Releasing events) (r : Resource) :
    Ledger.acquires (events.filterMap Event.move) r = 0 := by
  refine List.count_eq_zero.mpr fun hmem => ?_
  obtain ⟨e, he, hmove⟩ := List.mem_filterMap.mp hmem
  obtain ⟨r', rfl⟩ := h e he
  cases hmove

end releasing

/-! ## Deleting a group whose construction has stopped

  The group is deleted as it is at that moment, with the channels it has got so far. -/

section counts

/-- A block is not the mapping. -/
theorem count_block (b : Block) : Multiset.count .mapping ({.block b} : Multiset Resource) = 0 := by
  rw [Multiset.count_singleton]
  rfl

/-- Nor is what a pointer owns. -/
theorem count_ownedPtr {α : Type} (b : Block) (ptr : Option α) :
    Multiset.count .mapping (ownedPtr b ptr) = 0 := by
  cases ptr with
  | none => exact Multiset.count_zero _
  | some a => exact count_block b

/-- Nor are descriptors. -/
theorem count_descriptors (fds : List Int) : Multiset.count .mapping (descriptors fds) = 0 := by
  induction fds with
  | nil => exact Multiset.count_zero _
  | cons fd fds ih =>
    rw [descriptors, Multiset.count_add, ih]
    split
    · rw [Multiset.count_singleton]
      rfl
    · rw [Multiset.count_zero]

/-- Nor is what the ends own. -/
theorem count_ownedChannels (role : Role) (i : Nat) (channels : List ChannelEnd) :
    Multiset.count .mapping (ownedChannels role i channels) = 0 := by
  induction channels generalizing i with
  | nil => exact Multiset.count_zero _
  | cons channel channels ih =>
    rw [ownedChannels, ChannelEnd.owned, Multiset.count_add, Multiset.count_add, Multiset.count_add,
      count_block, count_block, count_descriptors, ih]

/-- A group with shared memory holds one mapping. -/
theorem Group.count_owned {grp : Group} {shm : Shm} (h : grp.shm = some shm) :
    Multiset.count .mapping grp.owned = 1 := by
  have hshm : Multiset.count .mapping shm.owned = 1 := by
    rw [Shm.owned, Multiset.count_add, Multiset.count_add, count_block, Multiset.count_singleton_self,
      Multiset.count_singleton]
    rfl
  rw [Group.owned, h, GroupData.owned, ownedShm]
  simp only [Multiset.count_add, count_block, count_ownedPtr, count_ownedChannels, hshm]

end counts

section grown

variable {cls : Size} {first : Role} {grp grp' : Group} {shm : Shm} {filled : Bool}

/-- The counts of a group that has been built agree with its ends. -/
theorem Group.Grown.counted (h : grp.Grown cls first grp' shm filled) (hcnt : shm.refCnt = 1) :
    grp'.Counted where
  refCnt shm' hshm := by
    rw [h.mapping] at hshm
    cases hshm
    show shm.refCnt + _ = _
    rw [hcnt, Nat.add_assoc]
    exact (BitVec.ofNat_add 1 _).symm
  noShm hnone := by
    rw [h.mapping] at hnone
    cases hnone
  owners c hc := by
    rcases List.mem_append.mp hc with hc | hc
    · exact h.owners .consumer c hc
    · exact h.owners .producer c hc

/-- Deleting the group releases what it owns exactly if its references fit into the counter. -/
theorem Group.Grown.delete_settles_iff (h : grp.Grown cls first grp' shm filled)
    (hcnt : shm.refCnt = 1) (held : Multiset Resource) :
    Settles (groupDelete grp') (grp'.owned + held) held ↔
      (grp'.ends .producer).length + (grp'.ends .consumer).length < 2 ^ 32 := by
  have hcounted := h.counted hcnt
  constructor
  · intro hsettles
    by_contra hmany
    have hcount := Ledger.Settles.count hsettles .mapping
    rw [Multiset.count_add, Group.count_owned h.mapping, (releasing_groupDelete grp').acquires] at hcount
    obtain ⟨shm', hshm'⟩ : ∃ shm', grp'.shm = some shm' := ⟨_, h.mapping⟩
    have hlenP := h.length .producer
    have hltP := grp.data.nProducers.isLt
    have hrefs := hcounted.refCnt shm' hshm'
    have hconsumers : ∀ c ∈ elements grp'.consumers, c.owners = ownerGroupFlag := h.owners .consumer
    have hproducers : ∀ c ∈ elements grp'.producers, c.owners = ownerGroupFlag := h.owners .producer
    -- once in the loop over the consumers, and once in the end
    have hloop := releaseChannels_unmaps .consumer 0 shm' hconsumers hrefs
      ((Nat.add_comm 1 _).trans_le (Nat.lt_of_le_of_lt hlenP hltP)) (by
        show 2 ^ 32 < 1 + (grp'.ends .producer).length + (grp'.ends .consumer).length
        omega)
    have hlast : unmaps (shmUnref (releaseChannels .producer 0 (elements grp'.producers)
        (releaseChannels .consumer 0 (elements grp'.consumers) shm').1).1).2 = 1 := by
      have hone : (releaseChannels .producer 0 (elements grp'.producers)
          (releaseChannels .consumer 0 (elements grp'.consumers) shm').1).1.refCnt = 1 := by
        rw [releaseChannels_refCnt hproducers, releaseChannels_refCnt hconsumers, hrefs,
          BitVec.ofNat_add, BitVec.ofNat_add]
        exact (congrArg (· - _) (add_sub_cancel_right _ _)).trans (add_sub_cancel_right _ _)
      rw [show (shmUnref _).2 = _ from if_pos hone, unmaps_shmDelete]
    have htotal : 2 ≤ unmaps (groupDelete grp') := by
      rw [groupDelete, hshm']
      simp only [unmaps_append]
      omega
    replace hcount : 1 + Multiset.count .mapping held + 0 =
      unmaps (groupDelete grp') + Multiset.count .mapping held := hcount
    omega
  · intro hsmall
    have hsettles := groupDelete_settles hcounted (by
      show (grp'.ends .consumer).length + (grp'.ends .producer).length < _
      omega)
    exact (hsettles.frame held).of_eq rfl (Multiset.zero_add held)

end grown

/-! ## From attributes -/

/-- The inputs on which `ri_group_from_attr` does not release what it has acquired, if it returns the
    null pointer. -/
inductive FromAttrLeaks (os : Os) (cls : Size) (attr : GroupAttr (List Byte)) : Prop where
  /-- There is no memory for the table of the producers, behind a table of consumers. -/
  | table {nConsumers nProducers : Unsigned} (hgroup : os.block .group = true)
    (hconsumers : countChannels attr.consumers = .ok nConsumers)
    (hproducers : countChannels attr.producers = .ok nProducers)
    (hloses : os.tables.LosesTable nConsumers nProducers)
  /-- Everything is there, but the shared memory cannot be locked. -/
  | mapping {data : GroupData} {events : List Event} {size : Size} (hgroup : os.block .group = true)
    (hdata : groupDataFromAttr os.tables attr = .ok (0, data, events))
    (harrays : os.GrantsArrays data)
    (hsize : calcShmSize cls attr.consumers attr.producers = .ok size) (hlock : os.NewLockFails size)
  /-- The first 2³² channels are made. -/
  | references {data : GroupData} {events : List Event} {size mapped : Size}
    (hgroup : os.block .group = true)
    (hdata : groupDataFromAttr os.tables attr = .ok (0, data, events))
    (harrays : os.GrantsArrays data)
    (hsize : calcShmSize cls attr.consumers attr.producers = .ok size)
    (hfd : 0 ≤ os.memfdCreate) (hinit : 0 ≤ shmInit os size) (hmaps : os.Maps os.memfdCreate mapped)
    (hlock : ¬ os.mlock < 0) (hreach : os.ReachesNew cls data mapped)

/-- If one part settles at `mid`, all of it settles if the rest does from there. -/
theorem Settles.append_iff {events events' : List Event} {pre mid post : Multiset Resource}
    (h : Settles events pre mid) : Settles (events ++ events') pre post ↔ Settles events' mid post := by
  constructor
  · intro hall
    obtain ⟨mid', hmid, hrest⟩ := settles_append.mp hall
    exact h.unique hmid ▸ hrest
  · exact h.append

section fromAttr

variable {os : Os} {cls : Size} {attr : GroupAttr (List Byte)} {data : GroupData}
  {events dataEvents : List Event}

/-- A construction that loses something has got its block. -/
theorem FromAttrLeaks.group (h : FromAttrLeaks os cls attr) : os.block .group = true := by
  cases h <;> assumption

/-- The group data cannot be made. -/
theorem fromAttr_data_settles_iff {r : Int} (hgroup : os.block .group = true)
    (hdata : groupDataFromAttr os.tables attr = .ok (r, data, dataEvents)) (hr : r < 0) :
    Settles (.acquire (.block .group) :: dataEvents ++ groupDelete (Group.ofData data)) 0 0 ↔
      ¬ FromAttrLeaks os cls attr := by
  obtain ⟨nConsumers, nProducers, hc, hp, hkeeps, hloses⟩ := groupDataFromAttr_settles hdata
  have hdelete := groupDelete_ofData data
  by_cases hlost : os.tables.LosesTable nConsumers nProducers
  · refine iff_of_false (fun hsettles => ?_) (not_not.mpr (.table hgroup hc hp hlost))
    obtain ⟨-, hevents, howned⟩ := hloses hlost
    have hgroupAcquired : Settles [.acquire (.block .group)] 0 {.block .group} :=
      (Settles.acquire _).of_eq rfl (Multiset.zero_add _)
    -- the table has been released, and the pointer to it is released again
    have hrest := (Settles.append_iff (hgroupAcquired.more hevents)).mp hsettles
    have hheld := hrest.injective hdelete
    rw [Group.ofData_owned, howned, Multiset.add_zero] at hheld
    have hcard := congrArg Multiset.card hheld
    rw [Multiset.card_add, Multiset.card_singleton, Multiset.card_singleton] at hcard
    omega
  · refine iff_of_true ((settles_data (hkeeps hlost)).append hdelete) fun hleaks => ?_
    cases hleaks with
    | table _ hc' hp' hloses' =>
      rw [hc] at hc'
      rw [hp] at hp'
      cases hc'
      cases hp'
      exact hlost hloses'
    | mapping _ hdata' =>
      rw [hdata] at hdata'
      cases hdata'
      exact absurd hr (by decide)
    | references _ hdata' =>
      rw [hdata] at hdata'
      cases hdata'
      exact absurd hr (by decide)

/-- With the group data nothing has been lost. -/
theorem fromAttr_keeps {nConsumers nProducers : Unsigned}
    (hdata : groupDataFromAttr os.tables attr = .ok (0, data, dataEvents))
    (hc : countChannels attr.consumers = .ok nConsumers)
    (hp : countChannels attr.producers = .ok nProducers) :
    ¬ os.tables.LosesTable nConsumers nProducers := by
  obtain ⟨nC, nP, hc', hp', -, hloses⟩ := groupDataFromAttr_settles hdata
  rw [hc] at hc'
  rw [hp] at hp'
  cases hc'
  cases hp'
  exact fun hlost => absurd (hloses hlost).1 (by decide)

/-- Up to the group data everything that has been acquired belongs to the group. -/
theorem fromAttr_settles_data
    (hdata : groupDataFromAttr os.tables attr = .ok (0, data, dataEvents)) :
    Settles (.acquire (.block .group) :: dataEvents) 0 (Group.ofData data).owned := by
  obtain ⟨nConsumers, nProducers, hc, hp, hkeeps, -⟩ := groupDataFromAttr_settles hdata
  exact settles_data (hkeeps (fromAttr_keeps hdata hc hp))

/-- What is left of the leaks when the group data is there. -/
theorem FromAttrLeaks.of_data (h : FromAttrLeaks os cls attr)
    (hdata : groupDataFromAttr os.tables attr = .ok (0, data, dataEvents)) : os.GrantsArrays data ∧
    ∃ size, calcShmSize cls attr.consumers attr.producers = .ok size ∧ (os.NewLockFails size ∨
      ∃ mapped, 0 ≤ os.memfdCreate ∧ 0 ≤ shmInit os size ∧ os.Maps os.memfdCreate mapped ∧
        ¬ os.mlock < 0 ∧ os.ReachesNew cls data mapped) := by
  cases h with
  | table _ hc hp hlost => exact absurd hlost (fromAttr_keeps hdata hc hp)
  | mapping _ hdata' harrays hsize hlock =>
    rw [hdata] at hdata'
    cases hdata'
    exact ⟨harrays, _, hsize, Or.inl hlock⟩
  | references _ hdata' harrays hsize hfd hinit hmaps hlock hreach =>
    rw [hdata] at hdata'
    cases hdata'
    exact ⟨harrays, _, hsize, Or.inr ⟨_, hfd, hinit, hmaps, hlock, hreach⟩⟩

/-- The shared memory cannot be made. -/
theorem fromAttr_shm_settles_iff {arrays shmEvents : List Event} {size : Size}
    (hgroup : os.block .group = true)
    (hdata : groupDataFromAttr os.tables attr = .ok (0, data, dataEvents))
    (harrays : os.GrantsArrays data) (hsettles : Settles arrays 0 (ownedArrays data))
    (hsize : calcShmSize cls attr.consumers attr.producers = .ok size)
    (hshm : shmNew os size = (none, shmEvents)) :
    Settles (.acquire (.block .group) :: dataEvents ++ arrays ++ shmEvents ++
      groupDelete (Group.withArrays data)) 0 0 ↔ ¬ FromAttrLeaks os cls attr := by
  have hwith := settles_arrays (fromAttr_settles_data hdata) hsettles
  have hdelete := groupDelete_withArrays data
  rcases shmNew_none os size (by rw [hshm]) with ⟨hlock, hmapping⟩ | ⟨hlock, hnothing⟩
  · rw [hshm] at hmapping
    refine iff_of_false (fun hall => ?_) (not_not.mpr (.mapping hgroup hdata harrays hsize hlock))
    -- the memory stays mapped
    have hleft := (hwith.more hmapping).append (hdelete.frame {.mapping})
    rw [Multiset.zero_add] at hleft
    exact Multiset.singleton_ne_zero _ (hleft.unique hall)
  · rw [hshm] at hnothing
    refine iff_of_true ((hwith.more hnothing).append
      (hdelete.of_eq (Multiset.add_zero _).symm rfl)) fun hleaks => ?_
    obtain ⟨-, size', hsize', hcases⟩ := hleaks.of_data hdata
    rw [hsize] at hsize'
    cases hsize'
    rcases hcases with hlock' | ⟨mapped, hfd, hinit, hmaps, hmlock, -⟩
    · exact hlock hlock'
    · obtain ⟨shm, events, hsome⟩ := shmNew_of_maps hfd hinit hmaps hmlock
      rw [hshm] at hsome
      cases hsome

/-- The group is deleted with the channels that have been made. -/
theorem fromAttr_channels_settles_iff {arrays shmEvents channels : List Event} {size : Size}
    {shm : Shm} {filled : Bool} {grp : Group} (hgroup : os.block .group = true)
    (hdata : groupDataFromAttr os.tables attr = .ok (0, data, dataEvents))
    (harrays : os.GrantsArrays data) (hsettles : Settles arrays 0 (ownedArrays data))
    (hsize : calcShmSize cls attr.consumers attr.producers = .ok size)
    (hshm : shmNew os size = (some shm, shmEvents))
    (hchannels : groupNewChannels os cls (Group.withArrays data) shm = .ok (filled, grp, channels)) :
    Settles (.acquire (.block .group) :: dataEvents ++ arrays ++ shmEvents ++ channels ++
      groupDelete grp) 0 0 ↔ ¬ FromAttrLeaks os cls attr := by
  have hwith := settles_arrays (fromAttr_settles_data hdata) hsettles
  obtain ⟨hfd, hpos, hinit, hcnt, hmaps, -, hlock, hnew⟩ := shmNew_some hshm
  obtain ⟨hgrown, hsettles', hreach⟩ :=
    groupNewChannels_grown (Group.withArrays_empty data) hchannels
  -- What has been acquired is what the group holds; the question is whether deleting it is enough.
  have hall := ((hwith.more hnew).more hsettles').of_eq rfl (show _ = grp.owned + 0 by
    rw [hgrown.owned, Group.withArrays_owned]
    abel)
  rw [Settles.append_iff hall, hgrown.delete_settles_iff hcnt 0, ← not_le, hreach]
  -- It is, unless the references have wrapped.
  refine not_congr ⟨fun hreaches => ?_, fun hleaks => ?_⟩
  · exact .references hgroup hdata harrays hsize hpos hinit (hfd ▸ hmaps) hlock hreaches
  · obtain ⟨-, _, -, hcases⟩ := hleaks.of_data hdata
    rcases hcases with hlock' | ⟨mapped, -, -, hmaps', -, hreaches⟩
    · exact absurd hlock'.2.2.2 hlock
    · have hstat := hmaps'.stat
      rw [← hfd, hmaps.stat] at hstat
      cases hstat
      exact hreaches

/-- A failed `ri_group_from_attr` releases everything exactly once, apart from three kinds of inputs. -/
theorem groupFromAttr_settles_iff (h : groupFromAttr os cls attr = .ok (none, events)) :
    Settles events 0 0 ↔ ¬ FromAttrLeaks os cls attr := by
  cases groupFromAttr_way h with
  | noGroup hgroup =>
    refine iff_of_true Settles.nil fun hleaks => ?_
    have := hleaks.group
    rw [hgroup] at this
    cases this
  | noData hgroup hdata hr => exact fromAttr_data_settles_iff hgroup hdata hr
  | noArrays hdata harrays hsettles =>
    refine iff_of_true (((fromAttr_settles_data hdata).more hsettles).append
      ((groupDelete_ofData _).of_eq (Multiset.add_zero _).symm rfl)) fun hleaks => ?_
    exact harrays (hleaks.of_data hdata).1
  | noShm hgroup hdata harrays hsettles hsize hshm =>
    exact fromAttr_shm_settles_iff hgroup hdata harrays hsettles hsize hshm
  | stopped hgroup hdata harrays hsettles hsize hshm hchannels =>
    exact fromAttr_channels_settles_iff hgroup hdata harrays hsettles hsize hshm hchannels

end fromAttr

/-! ## From a request -/

/-- The inputs on which `ri_group_deserialize` does not release what it has acquired, if it returns the
    null pointer. -/
inductive DeserializeLeaks (os : Os) (cls : Size) (req : List Byte) (size : Size) (bs : Wire)
    (fds : Option (List Int)) (nFds : Option Unsigned) : Prop where
  /-- There is no memory for the table of the producers, behind a table of consumers. -/
  | table {n : Unsigned} (hn : nFds = some n) (hpos : ¬ n < 1) (hgroup : os.block .group = true)
    (hheaded : bs.Headed cls) (hloses : os.tables.LosesTable bs.nConsumers bs.nProducers)
  /-- Everything is there, but the shared memory cannot be locked. -/
  | mapping {n : Unsigned} {parsed : Parsed} {shmfd : Int} {rest : List Int} (hn : nFds = some n)
    (hpos : ¬ n < 1) (hgroup : os.block .group = true)
    (hparse : requestParse cls os.tables req size = .ok parsed) (hr : 0 ≤ parsed.r)
    (harrays : os.GrantsArrays parsed.data) (hfds : fds = some (shmfd :: rest))
    (hverify : 0 ≤ os.memfdVerify shmfd) (hlock : os.LockFails shmfd)
  /-- The first 2³² channels are made. -/
  | references {n : Unsigned} {parsed : Parsed} {shmfd : Int} {rest : List Int} {mapped : Size}
    (hn : nFds = some n) (hpos : ¬ n < 1) (hgroup : os.block .group = true)
    (hparse : requestParse cls os.tables req size = .ok parsed) (hr : 0 ≤ parsed.r)
    (harrays : os.GrantsArrays parsed.data) (hfds : fds = some (shmfd :: rest))
    (hverify : 0 ≤ os.memfdVerify shmfd) (hmaps : os.Maps shmfd mapped) (hlock : ¬ os.mlock < 0)
    (hreach : os.ReachesMap cls parsed.data mapped n (-1 :: rest))

section fromRequest

variable {os : Os} {cls : Size} {req : List Byte} {size : Size} {bs : Wire}
  {fds : Option (List Int)} {nFds : Option Unsigned} {d : Deserialized}

/-- Nothing but the descriptors of the caller is left, and each of them is in the array or released. -/
structure Deserialized.Clean (d : Deserialized) (fds : Option (List Int)) : Prop where
  settles : Settles d.events (descriptors (elements fds)) (descriptors (elements d.fds))
  kept : FdsKept (elements fds) (elements d.fds)

/-- A construction that loses something has a descriptor and its block. -/
theorem DeserializeLeaks.entered (h : DeserializeLeaks os cls req size bs fds nFds) :
    (∃ n, nFds = some n ∧ ¬ n < 1) ∧ os.block .group = true := by
  cases h <;> exact ⟨⟨_, by assumption, by assumption⟩, by assumption⟩

/-- Descriptors that are not touched. -/
theorem Settles.beside {events : List Event} (h : Settles events 0 0) (held : Multiset Resource) :
    Settles events held held := (h.frame held).of_eq (Multiset.zero_add _) (Multiset.zero_add _)

/-- What `ri_group_map` acquires: nothing if the memory cannot be mapped, nothing but the mapping if
    `mlock` fails, otherwise the memory and the ends it has built, and the descriptors it has taken
    leave the array. -/
theorem groupMap_settles {grp : Group} {n : Unsigned} {r : Int} {grp' : Group}
    {fds' : Option (List Int)} {events : List Event} {data : GroupData}
    (hgrp : grp = Group.withArrays data) (hpos : ¬ n < 1)
    (h : groupMap os cls grp fds n = .ok (r, grp', fds', events)) :
    FdsKept (elements fds) (elements fds') ∧
      ((∀ shmfd rest, fds = some (shmfd :: rest) → 0 ≤ os.memfdVerify shmfd →
          ¬ ∃ mapped, os.Maps shmfd mapped) ∧ r < 0 ∧ grp' = grp ∧ fds' = fds ∧ Settles events 0 0 ∨
        ∃ shmfd rest, fds = some (shmfd :: rest) ∧ 0 ≤ os.memfdVerify shmfd ∧
          (os.LockFails shmfd ∧ r < 0 ∧ grp' = grp ∧ fds' = fds ∧ Settles events 0 {.mapping} ∨
            ¬ os.mlock < 0 ∧ ∃ shm filled rest', shm.refCnt = 1 ∧ os.Maps shmfd shm.size ∧
              fds' = some rest' ∧ (filled = true ↔ 0 ≤ r) ∧
              grp.Grown cls .consumer grp' shm filled ∧
              Settles events (descriptors (elements fds)) (descriptors rest' +
                (ownedChannels .consumer 0 (grp'.ends .consumer) +
                  ownedChannels .producer 0 (grp'.ends .producer)) + shm.owned) ∧
              (2 ^ 32 ≤ (grp'.ends .consumer).length + (grp'.ends .producer).length ↔
                os.ReachesMap cls data shm.size n (-1 :: rest)))) := by
  subst hgrp
  cases groupMap_way hpos h with
  | noFd =>
    refine ⟨FdsKept.refl _, Or.inl ⟨?_, by decide, rfl, rfl, Settles.nil⟩⟩
    intro shmfd rest hsome
    cases hsome
  | refused hverify =>
    refine ⟨FdsKept.refl _, Or.inl ⟨?_, by decide, rfl, rfl, Settles.nil⟩⟩
    intro shmfd' rest' hsome hverify'
    cases hsome
    exact absurd hverify (not_lt.mpr hverify')
  | @noShm shmfd rest _ hverify hshm =>
    refine ⟨FdsKept.refl _, ?_⟩
    -- the mapping is left behind if it cannot be locked
    rcases shmMap_none os shmfd (by rw [hshm]) with ⟨hlock, hsettles⟩ | ⟨hlock, hsettles⟩
    · rw [hshm] at hsettles
      exact Or.inr ⟨shmfd, rest, rfl, hverify, Or.inl ⟨hlock, by decide, rfl, rfl, hsettles⟩⟩
    · rw [hshm] at hsettles
      refine Or.inl ⟨?_, by decide, rfl, rfl, hsettles⟩
      rintro shmfd' rest' hsome - ⟨mapped, hmaps⟩
      cases hsome
      by_cases hmlock : os.mlock < 0
      · exact hlock ⟨⟨mapped, hmaps⟩, hmlock⟩
      · obtain ⟨shm, events, hmapped⟩ := shmMap_of_maps hmaps hmlock
        rw [hshm] at hmapped
        cases hmapped
  | @mapped shmfd rest rest' _ _ shm filled _ hverify hshm hchannels =>
    obtain ⟨hfd, hcnt, hmaps, -, hlock, hsettles⟩ := shmMap_some hshm
    obtain ⟨hgrown, hsettles', hkept, hreach, -⟩ := groupMapChannels_grown
      (Group.withArrays_empty data) (List.cons_ne_nil _ _) hchannels
    have hnonneg : 0 ≤ shmfd := by
      by_contra hneg
      exact not_lt.mpr hverify (os.memfdVerify_neg shmfd (by omega))
    refine ⟨(FdsKept.set (shmfd :: rest) 0).trans hkept, Or.inr ⟨shmfd, rest, rfl, hverify,
      Or.inr ⟨hlock, shm, filled, rest', hcnt, hmaps, rfl, ?_, hgrown, ?_, hreach⟩⟩⟩
    · cases filled with
      | true => exact iff_of_true rfl (by decide)
      | false => exact iff_of_false Bool.false_ne_true (by decide)
    · -- the descriptor of the shared memory goes over to it
      have htaken : descriptors (elements (some (shmfd :: rest))) =
          {.descriptor shmfd} + descriptors (-1 :: rest) := by
        show descriptors (shmfd :: rest) = _
        rw [descriptors, if_pos hnonneg, descriptors_of_neg (show (-1 : Int) < 0 by decide)]
      rw [htaken]
      refine ((hsettles.frame _).of_eq (Multiset.zero_add _) rfl).append
        ((hsettles'.frame ({.descriptor shmfd} + ({.block .shm} + {.mapping}))).of_eq ?_ ?_)
      · abel
      · rw [Shm.owned, hfd]
        abel

section parsed

variable {parsed : Parsed} {n : Unsigned}

/-- With an accepted request nothing has been lost. -/
theorem deserialize_keeps (hgiven : Given req size bs)
    (hparse : requestParse cls os.tables req size = .ok parsed) (hr : 0 ≤ parsed.r) :
    ¬ (bs.Headed cls ∧ os.tables.LosesTable bs.nConsumers bs.nProducers) :=
  fun hlost => absurd ((requestParse_settles hgiven hparse).2 hlost).1 (not_lt.mpr hr)

/-- Up to the group data everything that has been acquired belongs to the group. -/
theorem deserialize_settles_data (hgiven : Given req size bs)
    (hparse : requestParse cls os.tables req size = .ok parsed) (hr : 0 ≤ parsed.r) :
    Settles (.acquire (.block .group) :: parsed.events) 0 (Group.ofData parsed.data).owned :=
  settles_data ((requestParse_settles hgiven hparse).1 (deserialize_keeps hgiven hparse hr))

/-- What is left of the leaks when the request has been parsed and no table lost. -/
theorem DeserializeLeaks.of_parsed (h : DeserializeLeaks os cls req size bs fds (some n))
    (hparse : requestParse cls os.tables req size = .ok parsed)
    (hkept : ¬ (bs.Headed cls ∧ os.tables.LosesTable bs.nConsumers bs.nProducers)) :
    0 ≤ parsed.r ∧ os.GrantsArrays parsed.data ∧ ∃ shmfd rest, fds = some (shmfd :: rest) ∧
      0 ≤ os.memfdVerify shmfd ∧ (os.LockFails shmfd ∨ ∃ mapped, os.Maps shmfd mapped ∧
        ¬ os.mlock < 0 ∧ os.ReachesMap cls parsed.data mapped n (-1 :: rest)) := by
  cases h with
  | table _ _ _ hheaded hlost => exact absurd ⟨hheaded, hlost⟩ hkept
  | mapping _ _ _ hparse' hr harrays hfds hverify hlock =>
    rw [hparse] at hparse'
    cases hparse'
    exact ⟨hr, harrays, _, _, hfds, hverify, Or.inl hlock⟩
  | references hn _ _ hparse' hr harrays hfds hverify hmaps hlock hreach =>
    rw [hparse] at hparse'
    cases hparse'
    cases hn
    exact ⟨hr, harrays, _, _, hfds, hverify, Or.inr ⟨_, hmaps, hlock, hreach⟩⟩

/-- The request is refused. -/
theorem deserialize_parse_clean_iff (hgiven : Given req size bs) (hpos : ¬ n < 1)
    (hgroup : os.block .group = true)
    (hparse : requestParse cls os.tables req size = .ok parsed) (hr : parsed.r < 0) :
    Deserialized.Clean ⟨none, fds, some n,
      .acquire (.block .group) :: parsed.events ++ groupDelete (Group.ofData parsed.data)⟩ fds ↔
      ¬ DeserializeLeaks os cls req size bs fds (some n) := by
  obtain ⟨hkeeps, hloses⟩ := requestParse_settles hgiven hparse
  have hdelete := groupDelete_ofData parsed.data
  by_cases hlost : bs.Headed cls ∧ os.tables.LosesTable bs.nConsumers bs.nProducers
  · obtain ⟨-, hevents, howned⟩ := hloses hlost
    refine iff_of_false (fun hclean => ?_)
      (not_not.mpr (.table rfl hpos hgroup hlost.1 hlost.2))
    have hgroupAcquired : Settles [.acquire (.block .group)] 0 {.block .group} :=
      (Settles.acquire _).of_eq rfl (Multiset.zero_add _)
    have hbefore := (hgroupAcquired.more hevents).frame (descriptors (elements fds))
    have hafter := hdelete.frame (descriptors (elements fds))
    rw [Multiset.zero_add] at hbefore hafter
    -- the table has been released, and the pointer to it is released again
    have hheld := ((Settles.append_iff hbefore).mp hclean.settles).injective hafter
    rw [Group.ofData_owned, howned, Multiset.add_zero] at hheld
    have hcard := congrArg Multiset.card hheld
    simp only [Multiset.card_add, Multiset.card_singleton] at hcard
    omega
  · refine iff_of_true ⟨((settles_data (hkeeps hlost)).append hdelete).beside _, FdsKept.refl _⟩
      fun hleaks => ?_
    exact absurd (hleaks.of_parsed hparse hlost).1 (not_le.mpr hr)

/-- The shared memory cannot be mapped, or not all channels can be made. -/
theorem deserialize_map_clean_iff {arrays events : List Event} {r : Int} {grp : Group}
    {fds' : Option (List Int)} (hgiven : Given req size bs) (hpos : ¬ n < 1)
    (hgroup : os.block .group = true)
    (hparse : requestParse cls os.tables req size = .ok parsed) (hr : 0 ≤ parsed.r)
    (harrays : os.GrantsArrays parsed.data) (hsettles : Settles arrays 0 (ownedArrays parsed.data))
    (hmap : groupMap os cls (Group.withArrays parsed.data) fds n = .ok (r, grp, fds', events)) :
    Deserialized.Clean ⟨none, fds', some n,
      .acquire (.block .group) :: parsed.events ++ arrays ++ events ++ groupDelete grp⟩ fds ↔
      ¬ DeserializeLeaks os cls req size bs fds (some n) := by
  have hkeeps := deserialize_keeps hgiven hparse hr
  have hwith := settles_arrays (deserialize_settles_data hgiven hparse hr) hsettles
  have hdelete := groupDelete_withArrays parsed.data
  obtain ⟨hkept, hcases⟩ := groupMap_settles rfl hpos hmap
  rcases hcases with ⟨hnone, -, rfl, rfl, hnothing⟩ | ⟨shmfd, rest, rfl, hverify, hcases⟩
  · refine iff_of_true ⟨((hwith.more hnothing).append
      (hdelete.of_eq (Multiset.add_zero _).symm rfl)).beside _, hkept⟩ fun hleaks => ?_
    obtain ⟨-, -, shmfd, rest, hfds, hverify, hcases⟩ := hleaks.of_parsed hparse hkeeps
    rcases hcases with hlock | ⟨mapped, hmaps, -, -⟩
    · exact hnone _ _ hfds hverify hlock.1
    · exact hnone _ _ hfds hverify ⟨_, hmaps⟩
  rcases hcases with ⟨hlock, -, rfl, rfl, hmapping⟩ |
    ⟨hlock, shm, filled, rest', hcnt, hmaps, rfl, hfilled, hgrown, hsettles', hreach⟩
  · refine iff_of_false (fun hclean => ?_)
      (not_not.mpr (.mapping rfl hpos hgroup hparse hr harrays rfl hverify hlock))
    -- the memory stays mapped
    have hleft := ((hwith.more hmapping).append (hdelete.frame {.mapping})).frame
      (descriptors (elements (some (shmfd :: rest))))
    rw [Multiset.zero_add, Multiset.zero_add] at hleft
    have hcard := congrArg Multiset.card (hleft.unique hclean.settles)
    rw [Multiset.card_add, Multiset.card_singleton] at hcard
    replace hcard : 1 + (descriptors (shmfd :: rest)).card =
      (descriptors (shmfd :: rest)).card := hcard
    omega
  · have hbefore := hwith.frame (descriptors (elements (some (shmfd :: rest))))
    have hall := hbefore.append ((hsettles'.frame
      (Group.withArrays parsed.data).owned).of_eq (Multiset.add_comm _ _) rfl)
    rw [Multiset.zero_add] at hall
    replace hall := hall.of_eq rfl (show _ = grp.owned + descriptors rest' by
      rw [hgrown.owned, Group.withArrays_owned]
      abel)
    have hclean : Deserialized.Clean
        { grp := none, fds := some rest', nFds := some n,
          events := .acquire (.block .group) :: parsed.events ++ arrays ++ events ++
            groupDelete grp } (some (shmfd :: rest)) ↔
        Settles (groupDelete grp) (grp.owned + descriptors rest') (descriptors rest') :=
      ⟨fun hclean => (Settles.append_iff hall).mp hclean.settles,
        fun hsettles => ⟨(Settles.append_iff hall).mpr hsettles, hkept⟩⟩
    rw [hclean, hgrown.delete_settles_iff hcnt, Nat.add_comm, ← not_le, hreach]
    -- the counter wraps exactly if 2³² channels have got a reference
    refine not_congr ⟨fun hreaches => ?_, fun hleaks => ?_⟩
    · exact .references rfl hpos hgroup hparse hr harrays rfl hverify hmaps hlock hreaches
    · obtain ⟨-, -, shmfd', rest'', hfds, -, hcases⟩ := hleaks.of_parsed hparse hkeeps
      cases hfds
      rcases hcases with hlock' | ⟨mapped, hmaps', -, hreaches⟩
      · exact absurd hlock'.2 hlock
      · have hstat := hmaps'.stat
        rw [hmaps.stat] at hstat
        cases hstat
        exact hreaches

end parsed

/-- A failed `ri_group_deserialize` releases everything exactly once, apart from three kinds of
    inputs. -/
theorem groupDeserialize_settles_iff (hgiven : Given req size bs)
    (h : groupDeserialize os cls req size fds nFds = .ok d) (hnull : d.grp = none) :
    d.Clean fds ↔ ¬ DeserializeLeaks os cls req size bs fds nFds := by
  -- One case for each way the call can end; only those behind the parsing can leak.
  cases groupDeserialize_way h with
  | noNumber =>
    refine iff_of_true ⟨Settles.nil, FdsKept.refl _⟩ fun hleaks => ?_
    obtain ⟨⟨n, hn, -⟩, -⟩ := hleaks.entered
    cases hn
  | noFds hpos =>
    refine iff_of_true ⟨Settles.nil, FdsKept.refl _⟩ fun hleaks => ?_
    obtain ⟨⟨n, hn, hpos'⟩, -⟩ := hleaks.entered
    cases hn
    exact hpos' hpos
  | noGroup hgroup =>
    refine iff_of_true ⟨Settles.nil, FdsKept.refl _⟩ fun hleaks => ?_
    have := hleaks.entered.2
    rw [hgroup] at this
    cases this
  | refused hpos hgroup hparse hr =>
    exact deserialize_parse_clean_iff hgiven hpos hgroup hparse hr
  | noArrays hparse hr harrays hsettles =>
    refine iff_of_true ⟨(((deserialize_settles_data hgiven hparse hr).more hsettles).append
      ((groupDelete_ofData _).of_eq (Multiset.add_zero _).symm rfl)).beside _, FdsKept.refl _⟩
      fun hleaks => ?_
    exact harrays (hleaks.of_parsed hparse (deserialize_keeps hgiven hparse hr)).2.1
  | stopped hpos hgroup hparse hr harrays hsettles hmap =>
    exact deserialize_map_clean_iff hgiven hpos hgroup hparse hr harrays hsettles hmap
  | made => cases hnull

end fromRequest

/-! ## The two functions -/

/-- A construction that fails releases everything exactly once, unless the table of the producers is
    refused, the shared memory cannot be locked, or there are 2³² channels. -/
theorem construction_releases_iff (os : Os) (cls : Size) :
    (∀ (attr : GroupAttr (List Byte)) (events : List Event),
      groupFromAttr os cls attr = .ok (none, events) →
        (Settles events 0 0 ↔ ¬ FromAttrLeaks os cls attr)) ∧
    ∀ (req : List Byte) (size : Size) (bs : Wire) (fds : Option (List Int)) (nFds : Option Unsigned)
      (d : Deserialized), Given req size bs → groupDeserialize os cls req size fds nFds = .ok d →
        d.grp = none → (d.Clean fds ↔ ¬ DeserializeLeaks os cls req size bs fds nFds) :=
  ⟨fun _ _ h => groupFromAttr_settles_iff h, fun _ _ _ _ _ _ => groupDeserialize_settles_iff⟩

/-- One channel each way. -/
def pairAttr : GroupAttr (List Byte) where
  consumers := some [{ msgSize := 8, addMsgs := 0, eventfd := true, info := ⟨0, none⟩ }, .zero]
  producers := some [{ msgSize := 8, addMsgs := 0, eventfd := false, info := ⟨0, none⟩ }, .zero]
  info := ⟨0, none⟩

/-- The consumer and the producer of `pairAttr`. -/
def pairChannel (eventfd : Bool) : ChannelAttr (List Byte) where
  msgSize := 8
  addMsgs := 0
  eventfd := eventfd
  info := ⟨0, none⟩

/-- A system without memory for the arrays of pointers. -/
def Os.withoutArrays : Os :=
  { Os.granting 256 with block := fun b => b ≠ .array .consumer ∧ b ≠ .array .producer }

/-- No group for want of an array, and no group from an empty request. -/
theorem construction_releases_iff_withoutArrays :
    (∃ events, groupFromAttr Os.withoutArrays 64 pairAttr = .ok (none, events) ∧
      Settles events 0 0) ∧
    ∃ d, groupDeserialize Os.withoutArrays 64 [] 0 (some [3]) (some 1) = .ok d ∧ d.grp = none ∧
      d.Clean (some [3]) := by
  obtain ⟨hfromAttr, hdeserialize⟩ := construction_releases_iff Os.withoutArrays 64
  refine ⟨⟨_, rfl, (hfromAttr pairAttr _ rfl).mpr fun hleaks => ?_⟩,
    ⟨_, rfl, rfl, (hdeserialize [] 0 [] (some [3]) (some 1) _ ⟨by decide, by decide, rfl⟩ rfl
      rfl).mpr fun hleaks => ?_⟩⟩
  · cases hleaks with
    | table _ _ _ hloses => exact absurd hloses.refused (show ¬ true = false by decide)
    | mapping _ hdata harrays =>
      cases hdata
      exact absurd (harrays.consumers (by decide)) (by decide)
    | references _ hdata harrays =>
      cases hdata
      exact absurd (harrays.consumers (by decide)) (by decide)
  · cases hleaks with
    | table _ _ _ _ hloses => exact absurd hloses.refused (show ¬ true = false by decide)
    | mapping _ _ _ hparse hr =>
      cases hparse
      exact absurd hr (by decide)
    | references _ _ _ hparse hr =>
      cases hparse
      exact absurd hr (by decide)

/-- A system without memory for the table of the producers. -/
def Os.withoutTable : Os :=
  { Os.granting 256 with
    tables := { Allocator.zeroed with calloc := fun role _ => role = .consumer } }

/-- The table of the consumers is released twice. -/
theorem table_released_twice : ¬ ∀ (os : Os) (cls : Size) (attr : GroupAttr (List Byte))
    (events : List Event), groupFromAttr os cls attr = .ok (none, events) → Settles events 0 0 := by
  intro hall
  have hleaks : FromAttrLeaks Os.withoutTable 64 pairAttr :=
    @FromAttrLeaks.table _ _ _ 1 1 rfl rfl rfl ⟨by decide, by decide, rfl, rfl⟩
  exact (groupFromAttr_settles_iff rfl).mp (hall Os.withoutTable 64 pairAttr _ rfl) hleaks

end Rtipc
