/-
  What `ri_group_from_attr` has made when it returns a group.

  The group data is a copy of the attribute, and all channels have been made in a new shared memory, one
  behind the other and the producers first.
-/
import Rtipc.Construction
import Rtipc.DataCopy

namespace Rtipc

section created

variable {os : Os} {cls : Size} {attr : GroupAttr (List Byte)} {grp : Group} {events : List Event}
  {consumers producers : List (ChannelAttr (List Byte))} {cs ps : List (ChannelAttr InfoPtr)}

/-- The group data has the channels that have been copied. -/
theorem GroupData.CopyOf.attrs {data : GroupData}
    (h : GroupData.CopyOf attr consumers producers data cs ps) :
    data.attrs .consumer = cs ∧ data.attrs .producer = ps := by
  rw [GroupData.attrs, GroupData.attrs, h.tableC, h.tableP]
  refine ⟨take_elements_tableOf ?_, take_elements_tableOf ?_⟩
  · rw [h.length.1, h.nConsumers]
  · rw [h.length.2, h.nProducers]

/-- The shared memory of a new group. -/
structure Group.Created (os : Os) (cls : Size) (attr : GroupAttr (List Byte))
    (consumers producers : List (ChannelAttr (List Byte))) (cs ps : List (ChannelAttr InfoPtr))
    (grp : Group) (shm : Shm) : Prop where
  data : GroupData.CopyOf attr consumers producers grp.data cs ps
  built : grp.Built cls .producer shm
  size : ∃ size, calcShmSize cls attr.consumers attr.producers = .ok size ∧ 0 ≤ shmInit os size
  fd : shm.fd = os.memfdCreate
  stat : os.fstat shm.fd = some shm.size
  refCnt : shm.refCnt =
    BitVec.ofNat 32 (1 + ((grp.ends .producer).length + (grp.ends .consumer).length))

/-- What `ri_group_from_attr` has done when it returns a group. -/
theorem groupFromAttr_some (h : groupFromAttr os cls attr = .ok (some grp, events)) :
    ∃ consumers producers cs ps shm, Group.Created os cls attr consumers producers cs ps grp shm := by
  cases groupFromAttr_way h with
  | made hdata hsettles hsize hshm hchannels =>
    obtain ⟨consumers, producers, cs, ps, hcopy⟩ := groupDataFromAttr_some hdata
    obtain ⟨hfd, -, hinit, hcnt, hmaps, -, -, -⟩ := shmNew_some hshm
    obtain ⟨hgrown, -, -⟩ := groupNewChannels_grown (Group.withArrays_empty _) hchannels
    obtain ⟨shm', hbuilt, -, hsize', hfd'⟩ := hgrown.built rfl
    have hmapping := Option.some.inj (hbuilt.mapping.symm.trans hgrown.mapping)
    refine ⟨consumers, producers, cs, ps, shm', ?_, hbuilt, ⟨_, hsize, hinit⟩, hfd'.trans hfd, ?_,
      ?_⟩
    · rw [hgrown.data]
      exact hcopy
    · rw [hfd', hsize']
      exact hmaps.stat
    · rw [hmapping, hcnt]
      exact (BitVec.ofNat_add 1 _).symm

end created

end Rtipc
