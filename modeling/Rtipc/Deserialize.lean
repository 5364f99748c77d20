/-
  What `ri_group_deserialize` has done when it returns a group.

  The group data says what the request says, apart from the infos, whatever the allocator is.  All
  channels have been made, one behind the other and the consumers first, and the eventfds have been taken
  from the array one after the other.
-/
import Rtipc.Construction
import Rtipc.DataCopy

namespace Rtipc

/-! ## An accepted request -/

section accepted

variable {cls : Size} {A : Allocator} {req : List Byte} {size : Size} {bs : Wire} {parsed : Parsed}

/-- Attaching the infos to the channels changes nothing else of them. -/
theorem bare_withInfos {attrs : List (ChannelAttr InfoPtr)} {infos : List (Info InfoPtr)}
    (h : attrs.length ≤ infos.length) :
    (withInfos attrs infos).map ChannelAttr.bare = attrs.map ChannelAttr.bare := by
  induction attrs generalizing infos with
  | nil =>
    rw [withInfos, List.zipWith_nil_left]
  | cons attr attrs ih =>
    cases infos with
    | nil => exact absurd h (by simp)
    | cons info infos => exact congrArg (attr.bare :: ·) (ih (Nat.le_of_succ_le_succ h))

/-- The same allocator with memory for every table. -/
def Allocator.withTables (A : Allocator) : Allocator := { A with calloc := fun _ _ => true }

/-- A table that the allocator grants is still granted when the infos are stored in place. -/
theorem Allocator.channels_withTables {role : Role} {n : Unsigned}
    {table : Option (List (ChannelAttr InfoPtr))} (h : A.channels role n = some table) :
    A.withTables.channels role n = some table := by
  unfold Allocator.channels at h ⊢
  split at h
  · rename_i hn
    split at h
    · rw [if_pos hn]
      exact h
    · cases h
  · rename_i hn
    rw [if_neg hn]
    exact h

/-- What the parser makes of a request that it accepts. -/
theorem requestParse_some (hgiven : Given req size bs)
    (hparse : requestParse cls A req size = .ok parsed) (hr : 0 ≤ parsed.r) :
    bs.Headed cls ∧ ∃ infos block, infos.length = bs.infos.length ∧
      parsed.data = bs.filled.placed bs.consumers bs.producers infos block := by
  have hbs : bs.Headed cls := by
    by_contra hbs
    obtain ⟨r, hneg, hparse'⟩ := requestParse_not_headed (A := A) hgiven hbs
    rw [hparse] at hparse'
    cases hparse'
    exact absurd hr (not_le.mpr hneg)
  refine ⟨hbs, ?_⟩
  obtain ⟨reader, hat, hparse'⟩ := requestParse_headed (A := A) hgiven hbs
  rw [hparse'] at hparse
  -- a group whose tables have been granted does not tell the allocator from one that grants them all
  have htables : requestParseGroup A.withTables reader bs.groupInfoSize bs.nConsumers bs.nProducers =
      .ok parsed := by
    rcases groupDataNew_r A bs.nConsumers bs.nProducers with hfail | ⟨table, table', hc, hp, -⟩
    · rcases hnew : groupDataNew A bs.nConsumers bs.nProducers with ⟨r, data, events⟩
      rw [hnew] at hfail
      rw [requestParseGroup, hnew] at hparse
      obtain rfl : r = -ENOMEM := hfail
      cases hparse
      exact absurd hr (show ¬ (0 : Int) ≤ -ENOMEM by decide)
    · rw [requestParseGroup, groupDataNew, hc, hp] at hparse
      rw [requestParseGroup, groupDataNew, Allocator.channels_withTables hc,
        Allocator.channels_withTables hp]
      exact hparse
  have hcalloc : ∀ role count, A.withTables.calloc role count = true := fun _ _ => rfl
  have hmax : ¬ (bs.nConsumers = unsignedMax ∨ bs.nProducers = unsignedMax) := by
    intro hmax
    rw [hat.parseGroup_max hcalloc hmax] at htables
    cases htables
  obtain ⟨reader', room, hgroup, -, -⟩ := @RequestReader.At.parseGroup A.withTables reader _
    bs.groupInfoSize _ _ hat hcalloc (fun hc => hmax (Or.inl hc)) (fun hp => hmax (Or.inr hp))
  rw [hgroup, fillInfos] at htables
  split at htables
  · cases htables
    exact absurd hr (show ¬ (0 : Int) ≤ -ENOMEM by decide)
  · rename_i block hblock
    rw [readInfos_eq (length_channelsOf _ _) (length_channelsOf _ _) rfl block _] at htables
    obtain ⟨⟨r, infos, s⟩, hplace, hplaced⟩ := checkedBind_ok.mp htables
    dsimp only at hplaced
    split at hplaced
    · cases hplaced
      exact absurd hr (show ¬ (0 : Int) ≤ -1 by decide)
    · cases hplaced
      exact ⟨infos, s.block, InfoReader.length_placeAll hplace, rfl⟩

/-- The channels of the request, in the role that they have here. -/
def Wire.channels (bs : Wire) : Role → List (ChannelAttr InfoPtr)
  | .consumer => bs.consumers
  | .producer => bs.producers

/-- The lists of a request are as long as the counts in front of them say. -/
theorem Wire.length_channels (bs : Wire) :
    bs.consumers.length = bs.nConsumers.toNat ∧ bs.producers.length = bs.nProducers.toNat :=
  ⟨length_channelsOf _ _, length_channelsOf _ _⟩

/-- The group data has the channels of the request. -/
theorem Wire.attrs_placed (bs : Wire) {infos : List (Info InfoPtr)} {block : List Byte}
    (hinfos : infos.length = bs.infos.length) (role : Role) :
    ((bs.filled.placed bs.consumers bs.producers infos block).attrs role).map ChannelAttr.bare =
      (bs.channels role).map ChannelAttr.bare := by
  obtain ⟨hlenC, hlenP⟩ := bs.length_channels
  have hlen : infos.tail.length = bs.consumers.length + bs.producers.length := by
    rw [List.length_tail, hinfos, Wire.infos, List.length_cons, List.length_append, List.length_map,
      List.length_map, Nat.add_sub_cancel]
  have hlenC' : bs.consumers.length ≤ infos.tail.length := by omega
  have hlenP' : bs.producers.length ≤ (infos.tail.drop bs.consumers.length).length := by
    rw [List.length_drop]
    omega
  cases role with
  | consumer =>
    refine (congrArg (List.map _) ?_).trans (bare_withInfos hlenC')
    exact take_elements_tableOf ((length_withInfos hlenC').trans hlenC)
  | producer =>
    refine (congrArg (List.map _) ?_).trans (bare_withInfos hlenP')
    exact take_elements_tableOf ((length_withInfos hlenP').trans hlenP)

end accepted

/-! ## A group that is returned -/

section made

variable {os : Os} {cls : Size} {req : List Byte} {size : Size} {bs : Wire}
  {fds : Option (List Int)} {nFds : Option Unsigned} {d : Deserialized} {grp : Group}

/-- What `ri_group_map` has made of a group without channels. -/
structure Group.Mapped (os : Os) (cls : Size) (grp : Group) (shmfd : Int) (rest : List Int)
    (grp' : Group) (rest' : List Int) (shm : Shm) : Prop where
  verified : 0 ≤ os.memfdVerify shmfd
  stat : os.fstat shmfd = some shm.size
  mmap : os.mmap shmfd shm.size = some shm.mem
  fd : shm.fd = shmfd
  data : grp'.data = grp.data
  built : grp'.Built cls .consumer shm
  taken : ∃ s t : FdCursor, s.fds = -1 :: rest ∧ s.idx = 1 ∧ t.fds = rest' ∧
    ∃ before after, FdsTaken s t
      (eventfds (grp'.ends .consumer) ++ eventfds (grp'.ends .producer)) before after

/-- What a successful `ri_group_map` has done: it took the shared memory from the first descriptor and
    mapped every channel. -/
theorem groupMap_some {n : Unsigned} {r : Int} {grp' : Group} {fds' : Option (List Int)}
    {events : List Event} {data : GroupData} (hpos : ¬ n < 1)
    (h : groupMap os cls (Group.withArrays data) fds n = .ok (r, grp', fds', events)) (hr : 0 ≤ r) :
    ∃ shmfd rest rest' shm, fds = some (shmfd :: rest) ∧ fds' = some rest' ∧
      Group.Mapped os cls (Group.withArrays data) shmfd rest grp' rest' shm ∧
      Settles events (descriptors (shmfd :: rest) + (Group.withArrays data).owned)
        (descriptors rest' + grp'.owned) := by
  obtain ⟨-, hcases⟩ := groupMap_settles rfl hpos h
  cases groupMap_way hpos h with
  | @mapped shmfd rest rest' _ _ shm filled _ hverify hshm hchannels =>
    obtain ⟨hfd, hcnt, hmaps, hmmap, hlock, -⟩ := shmMap_some hshm
    obtain ⟨hgrown, -, -, -, htaken⟩ := groupMapChannels_grown
      (Group.withArrays_empty data) (List.cons_ne_nil _ _) hchannels
    cases filled with
    | false => exact absurd hr (by decide)
    | true =>
      obtain ⟨shm', hbuilt, hmem, hsize, hfd'⟩ := hgrown.built rfl
      refine ⟨shmfd, rest, rest', shm', rfl, rfl, ⟨hverify, ?_, ?_, ?_, hgrown.data, hbuilt,
        htaken rfl⟩, ?_⟩
      · rw [hsize]
        exact hmaps.stat
      · rw [hsize, hmem]
        exact hmmap
      · rw [hfd', hfd]
      · rcases hcases with ⟨-, hneg, -⟩ | ⟨shmfd', rest'', hfds, -, hcases⟩
        · exact absurd hr (not_le.mpr hneg)
        cases hfds
        rcases hcases with ⟨-, hneg, -⟩ |
          ⟨-, shm₂, filled₂, rest₂, -, -, hfds', -, hgrown₂, hsettles, -⟩
        · exact absurd hr (not_le.mpr hneg)
        cases hfds'
        refine (hsettles.frame (Group.withArrays data).owned).of_eq rfl ?_
        rw [hgrown₂.owned, Group.withArrays_owned]
        abel
  | _ => exact absurd hr (by decide)

/-- What `ri_group_deserialize` has done when it returns a group. -/
theorem groupDeserialize_some (hgiven : Given req size bs)
    (h : groupDeserialize os cls req size fds nFds = .ok d) (hgrp : d.grp = some grp) :
    ∃ (n : Unsigned) (data : GroupData) (shmfd : Int) (rest rest' : List Int) (shm : Shm),
      nFds = some n ∧ d.nFds = some n ∧ fds = some (shmfd :: rest) ∧ d.fds = some rest' ∧
      Group.Mapped os cls (Group.withArrays data) shmfd rest grp rest' shm ∧
      bs.Headed cls ∧
      (∀ role, (data.attrs role).map ChannelAttr.bare = (bs.channels role).map ChannelAttr.bare) ∧
      Settles d.events (descriptors (shmfd :: rest)) (descriptors rest' + grp.owned) := by
  cases groupDeserialize_way h with
  | @made n parsed arrays events r grp' fds' hpos hparse hr hsettles hmap hnonneg =>
    cases hgrp
    obtain ⟨hbs, infos, block, hlen, hdata⟩ := requestParse_some hgiven hparse hr
    have hwith := settles_arrays (deserialize_settles_data hgiven hparse hr) hsettles
    obtain ⟨shmfd, rest, rest', shm, rfl, rfl, hmapped, hsettles'⟩ :=
      groupMap_some hpos hmap hnonneg
    refine ⟨n, parsed.data, shmfd, rest, rest', shm, rfl, rfl, rfl, rfl, hmapped, hbs, ?_, ?_⟩
    · intro role
      rw [hdata]
      exact bs.attrs_placed hlen role
    · have hbefore := hwith.frame (descriptors (shmfd :: rest))
      rw [Multiset.zero_add, Multiset.add_comm (Group.withArrays parsed.data).owned] at hbefore
      exact hbefore.append hsettles'
  | _ => cases hgrp

end made

end Rtipc
