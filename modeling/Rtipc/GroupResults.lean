/-
  What `ri_group_from_attr` and `ri_group_deserialize` leave behind.

  The two functions run the same two loops, one with the producers first and one with the consumers
  first, so that the channels come in the same order on both sides.  A group is `Built` if all its
  channels have been made; a group whose construction has stopped is `Counted` all the same, so it can
  be deleted, as long as its references fit into the counter.

  1. **Sides.**  `Group.Built` takes as a parameter the role with which the loops begin.
     `ri_group_from_attr` begins with the producers, `ri_group_deserialize` with the consumers, and as
     the roles are exchanged on the two sides, these are the same channels.

  2. **Until the end or not.**  `Group.Grown` is what two loops make of an empty group.  If both come to
     their end the group is built; if one stops, the group is counted, and the channels are those that
     have been made until then.

  3. **The array of descriptors.**  `FdsKept`: an element of it is either what it was, or -1.  This
     holds wherever the loops stop, so a call that fails has taken only the descriptors of channels that
     it has made.
-/
import Rtipc.GroupLedger

namespace Rtipc

/-- The role on the other side. -/
def Role.other : Role → Role
  | consumer => producer
  | producer => consumer

/-- The number of the channels. -/
def GroupData.count (data : GroupData) : Role → Unsigned
  | .consumer => data.nConsumers
  | .producer => data.nProducers

/-- The attributes of the channels. -/
def GroupData.attrs (data : GroupData) : Role → List (ChannelAttr InfoPtr)
  | .consumer => (elements data.consumers).take data.nConsumers.toNat
  | .producer => (elements data.producers).take data.nProducers.toNat

/-- The channels that have been made. -/
def Group.ends (grp : Group) : Role → List ChannelEnd
  | .consumer => elements grp.consumers
  | .producer => elements grp.producers

/-- A group with all its channels, the ones of the role `first` first. -/
structure Group.Built (cls : Size) (first : Role) (grp : Group) (shm : Shm) : Prop where
  mapping : grp.shm = some shm
  placed : PlacedFrom cls shm.mem shm.size 0 (grp.data.attrs first) (grp.ends first)
  placedNext : PlacedFrom cls shm.mem shm.size (endOffset cls 0 (grp.data.attrs first))
    (grp.data.attrs first.other) (grp.ends first.other)
  eventfds : ∀ role, EventfdsMatch (grp.data.attrs role) (grp.ends role)

/-! ## The arrays

  An array is empty after its allocation; the loops fill it from the front. -/

/-- There is memory for the arrays of pointers. -/
structure Os.GrantsArrays (os : Os) (data : GroupData) : Prop where
  consumers : data.nConsumers > 0 → os.block (.array .consumer) = true
  producers : data.nProducers > 0 → os.block (.array .producer) = true

/-- The array of null pointers for `n` channels. -/
def emptyArray (n : Unsigned) : Option (List ChannelEnd) := if n > 0 then some [] else none

/-- A new array of pointers has no ends yet. -/
theorem elements_emptyArray (n : Unsigned) : elements (emptyArray n) = [] := by
  unfold emptyArray
  split <;> rfl

section arrays

variable {os : Os} {grp : Group}

/-- The array of a role is granted, or not needed. -/
theorem Os.array_some {role : Role} {n : Unsigned} (h : n > 0 → os.block (.array role) = true) :
    os.array role n = some (emptyArray n) := by
  unfold Os.array emptyArray
  split
  · rename_i hn
    rw [if_pos (h hn)]
  · rfl

/-- The array of a role is refused. -/
theorem Os.array_none {role : Role} {n : Unsigned} (hn : n > 0)
    (h : ¬ os.block (.array role) = true) : os.array role n = none := by
  rw [Os.array, if_pos hn, if_neg h]

/-- Both arrays are granted. -/
theorem groupAllocChannels_ok (os : Os) (grp : Group) (h : os.GrantsArrays grp.data) :
    ∃ events, groupAllocChannels os grp = (0, { grp with
      consumers := emptyArray grp.data.nConsumers
      producers := emptyArray grp.data.nProducers }, events) ∧
    Settles events 0 (ownedPtr (.array .consumer) (emptyArray grp.data.nConsumers) +
      ownedPtr (.array .producer) (emptyArray grp.data.nProducers)) := by
  refine ⟨_, ?_, (settles_acquired _ _).append_add (settles_acquired _ _)⟩
  rw [groupAllocChannels, Os.array_some h.consumers]
  simp only [Os.array_some h.producers]

/-- One is refused: what was granted before is given back. -/
theorem groupAllocChannels_fail (os : Os) (grp : Group) (h : ¬ os.GrantsArrays grp.data)
    (hnone : grp.consumers = none) :
    ∃ events, groupAllocChannels os grp = (-ENOMEM, grp, events) ∧ Settles events 0 0 := by
  have hgrp : { grp with consumers := none } = grp := by rw [← hnone]
  by_cases hc : grp.data.nConsumers > 0 → os.block (.array .consumer) = true
  · have hp : ¬ (grp.data.nProducers > 0 → os.block (.array .producer) = true) :=
      fun hp => h ⟨hc, hp⟩
    obtain ⟨hpos, hblock⟩ := Classical.not_imp.mp hp
    refine ⟨acquired (.array .consumer) (emptyArray grp.data.nConsumers) ++
      freed (.array .consumer) (emptyArray grp.data.nConsumers), ?_,
      (settles_acquired _ _).append (settles_freed _ _)⟩
    rw [groupAllocChannels, Os.array_some hc]
    simp only [Os.array_none hpos hblock]
    rw [hgrp]
  · obtain ⟨hpos, hblock⟩ := Classical.not_imp.mp hc
    refine ⟨[], ?_, Settles.nil⟩
    rw [groupAllocChannels, Os.array_none hpos hblock]

end arrays

/-! ## The loops of a side

  Two loops make one group.  What they have in common on both sides is stated for the pair. -/

/-- What a pair of loops has made of an empty group: some channels, in the order in which they were
    made. -/
structure Group.Grown (cls : Size) (first : Role) (grp grp' : Group) (shm : Shm) (filled : Bool) :
    Prop where
  data : grp'.data = grp.data
  consumers : grp'.consumers.isSome = grp.consumers.isSome
  producers : grp'.producers.isSome = grp.producers.isSome
  length : ∀ role, (grp'.ends role).length ≤ (grp.data.count role).toNat
  mapping : grp'.shm = some { shm with
    refCnt := shm.refCnt + BitVec.ofNat 32 ((grp'.ends .producer).length + (grp'.ends .consumer).length) }
  owners : ∀ role, ∀ c ∈ grp'.ends role, c.owners = ownerGroupFlag
  built : filled = true → ∃ shm', grp'.Built cls first shm' ∧ shm'.mem = shm.mem ∧
    shm'.size = shm.size ∧ shm'.fd = shm.fd

/-- An empty group: its arrays have no channels yet. -/
structure Group.Empty (grp : Group) : Prop where
  consumers : grp.consumers = emptyArray grp.data.nConsumers
  producers : grp.producers = emptyArray grp.data.nProducers

/-- The channels that a loop has made are the elements of the array they are in. -/
theorem elements_map_emptyArray {n : Unsigned} {channels : List ChannelEnd}
    (h : channels.length ≤ n.toNat) : elements ((emptyArray n).map fun _ => channels) = channels := by
  unfold emptyArray
  split
  · rfl
  · rename_i hn
    have hzero : n.toNat = 0 := by
      rw [gt_iff_lt, BitVec.lt_def, show (0 : Unsigned).toNat = 0 from rfl] at hn
      omega
    have hnil : channels = [] := List.length_eq_zero_iff.mp (Nat.le_zero.mp (hzero ▸ h))
    rw [hnil]
    rfl

/-- The group with these channels, in the shared memory `shm`. -/
def Group.fill (grp : Group) (shm : Shm) (producers consumers : List ChannelEnd) : Group :=
  { grp with
    shm := some shm
    producers := grp.producers.map fun _ => producers
    consumers := grp.consumers.map fun _ => consumers }

section fill

variable {cls : Size} {grp : Group} {shm : Shm} {producers consumers : List ChannelEnd}

/-- The consumers have not been filled. -/
theorem Group.Empty.fill_nil (h : grp.Empty) : grp.fill shm producers [] =
    { grp with shm := some shm, producers := grp.producers.map fun _ => producers } := by
  have hnil : grp.consumers.map (fun _ => ([] : List ChannelEnd)) = grp.consumers := by
    rw [h.consumers, emptyArray]
    split <;> rfl
  rw [Group.fill, hnil]

/-- The producers have not been filled. -/
theorem Group.Empty.nil_fill (h : grp.Empty) : grp.fill shm [] consumers =
    { grp with shm := some shm, consumers := grp.consumers.map fun _ => consumers } := by
  have hnil : grp.producers.map (fun _ => ([] : List ChannelEnd)) = grp.producers := by
    rw [h.producers, emptyArray]
    split <;> rfl
  rw [Group.fill, hnil]

/-- The ends of a group that has been filled are those it has been filled with. -/
theorem Group.Empty.ends_fill (h : grp.Empty) (shm : Shm)
    (producers consumers : List ChannelEnd) (hp : producers.length ≤ grp.data.nProducers.toNat)
    (hc : consumers.length ≤ grp.data.nConsumers.toNat) :
    (grp.fill shm producers consumers).ends .producer = producers ∧
      (grp.fill shm producers consumers).ends .consumer = consumers := by
  have helementsP := elements_map_emptyArray hp
  have helementsC := elements_map_emptyArray hc
  rw [← h.producers] at helementsP
  rw [← h.consumers] at helementsC
  exact ⟨helementsP, helementsC⟩

/-- A group filled with channels has grown, if each of them has taken its reference. -/
theorem Group.Empty.grown_fill (h : grp.Empty) (first : Role) {shm' : Shm} {filled : Bool}
    (hp : producers.length ≤ grp.data.nProducers.toNat)
    (hc : consumers.length ≤ grp.data.nConsumers.toNat)
    (hshm : shm' = { shm with
      refCnt := shm.refCnt + BitVec.ofNat 32 (producers.length + consumers.length) })
    (howners : ∀ c ∈ producers ++ consumers, c.owners = ownerGroupFlag)
    (hbuilt : filled = true → (grp.fill shm' producers consumers).Built cls first shm') :
    grp.Grown cls first (grp.fill shm' producers consumers) shm filled := by
  obtain ⟨hendsP, hendsC⟩ := h.ends_fill shm' producers consumers hp hc
  refine ⟨rfl, ?_, ?_, ?_, ?_, ?_, fun hfilled => ⟨shm', hbuilt hfilled, ?_, ?_, ?_⟩⟩
  · exact Option.isSome_map
  · exact Option.isSome_map
  · intro role
    cases role with
    | consumer =>
      rw [hendsC]
      exact hc
    | producer =>
      rw [hendsP]
      exact hp
  · rw [hendsP, hendsC, ← hshm]
    rfl
  · intro role c hmem
    cases role with
    | consumer =>
      rw [hendsC] at hmem
      exact howners c (List.mem_append_right _ hmem)
    | producer =>
      rw [hendsP] at hmem
      exact howners c (List.mem_append_left _ hmem)
  all_goals rw [hshm]

end fill

/-! ### New channels -/

/-- The first 2³² channels get what they need from a mapping of `size` bytes. -/
structure Os.ReachesNew (os : Os) (cls : Size) (data : GroupData) (size : Size) : Prop where
  count : 2 ^ 32 ≤ data.nProducers.toNat + data.nConsumers.toNat
  producers : Reaches (os.GrantsNew .producer size) (fun attr offset => offset + channelShmSize cls attr)
    data.nProducers.toNat 0 (elements data.producers) 0
  consumers : Reaches (os.GrantsNew .consumer size) (fun attr offset => offset + channelShmSize cls attr)
    (2 ^ 32 - data.nProducers.toNat) 0 (elements data.consumers) (endOffset cls 0 (data.attrs .producer))

section new

variable {os : Os} {cls : Size} {grp grp' : Group} {shm : Shm} {filled : Bool} {events : List Event}

/-- How far the loop comes: it makes the first `k` channels if and only if everything is granted for
    them. -/
theorem newChannels_reach {role : Role} {n : Nat} {attrs : List (ChannelAttr InfoPtr)} {s s' : ShmCursor}
    {channels : List ChannelEnd}
    (h : fillChannels (newChannel os cls role) n 0 attrs s = .ok (filled, channels, s', events))
    {k : Nat} (hk : k ≤ n) : k ≤ channels.length ↔ Reaches (os.GrantsNew role s.shm.size)
      (fun attr offset => offset + channelShmSize cls attr) k 0 attrs s.offset := by
  refine fillChannels_reaches ShmCursor.offset (fun t => t.shm.size = s.shm.size) ?_ ?_ rfl h hk
  · intro i attr t channel t' events' hinv hstep
    obtain ⟨hgrants, -, -, rfl⟩ := newChannel_some hstep
    exact ⟨hinv ▸ hgrants, rfl, hinv⟩
  · intro i attr t t' events' hinv hstep
    exact hinv ▸ (newChannel_none hstep).1

/-- One loop of `ri_group_from_attr`. -/
theorem newChannels_done {role : Role} {n : Nat} {attrs : List (ChannelAttr InfoPtr)} {s s' : ShmCursor}
    {channels : List ChannelEnd}
    (h : fillChannels (newChannel os cls role) n 0 attrs s = .ok (filled, channels, s', events)) :
    channels.length ≤ n ∧ (filled = true ↔ channels.length = n) ∧
      PlacedFrom cls s.shm.mem s.shm.size s.offset (attrs.take channels.length) channels ∧
      EventfdsMatch (attrs.take channels.length) channels ∧
      s' = { shm := { s.shm with refCnt := s.shm.refCnt + BitVec.ofNat 32 channels.length }
             offset := endOffset cls s.offset (attrs.take channels.length) } := by
  obtain ⟨t, hlength, hfilling, hfull, hrefused⟩ := fillChannels_done h
  obtain ⟨hplaced, hend⟩ := hfilling.placed id newChannel_placed
  have hsame : t = s' := by
    cases filled with
    | true => exact (hfull rfl).2
    | false =>
      obtain ⟨-, attr, events', -, hnone⟩ := hrefused rfl
      exact (newChannel_none hnone).2.symm
  refine ⟨hlength, ⟨fun htrue => (hfull htrue).1, fun hlen => ?_⟩, hplaced, hfilling.newEventfds,
    hsame ▸ hend⟩
  cases filled with
  | true => rfl
  | false => exact absurd hlen (Nat.ne_of_lt (hrefused rfl).1)

/-- What the two loops of `ri_group_from_attr` leave: the ends, what they own, and whether there are 2³²
    of them or more. -/
theorem groupNewChannels_grown (hempty : grp.Empty)
    (h : groupNewChannels os cls grp shm = .ok (filled, grp', events)) :
    grp.Grown cls .producer grp' shm filled ∧
      Settles events 0 (ownedChannels .consumer 0 (grp'.ends .consumer) +
        ownedChannels .producer 0 (grp'.ends .producer)) ∧
      (2 ^ 32 ≤ (grp'.ends .producer).length + (grp'.ends .consumer).length ↔
        os.ReachesNew cls grp.data shm.size) := by
  obtain ⟨⟨filledP, producers, s, eventsP⟩, hproducers, h⟩ := checkedBind_ok.mp h
  obtain ⟨hlenP, hfullP, hplacedP, hmatchP, hs⟩ := newChannels_done hproducers
  have hreachP := newChannels_reach hproducers (k := grp.data.nProducers.toNat) le_rfl
  have hsettlesP := fillChannels_settles .producer (fun _ => 0)
    (fun hstep => (newChannel_settles hstep).of_eq rfl (Multiset.zero_add _).symm) hproducers
  rw [Multiset.zero_add] at hsettlesP
  have hltP := grp.data.nProducers.isLt
  -- the loop over the consumers runs only after one that has made all producers
  cases filledP with
  | false =>
    cases h
    rw [← hempty.fill_nil]
    obtain ⟨hendsP, hendsC⟩ := hempty.ends_fill s.shm producers [] hlenP
      (Nat.zero_le _)
    have hlt : producers.length < grp.data.nProducers.toNat :=
      lt_of_le_of_ne hlenP fun heq => Bool.false_ne_true (hfullP.mpr heq)
    rw [hendsP, hendsC]
    refine ⟨hempty.grown_fill .producer hlenP (Nat.zero_le _) (by rw [hs]; rfl) ?_
      (fun htrue => absurd htrue (by decide)), hsettlesP.of_eq rfl (Multiset.zero_add _).symm, ?_⟩
    · rw [List.append_nil]
      exact hplacedP.owners
    · rw [List.length_nil, Nat.add_zero]
      refine iff_of_false (by omega) fun hreach => ?_
      have := hreachP.mpr hreach.producers
      omega
  | true =>
    have hlenP' : producers.length = grp.data.nProducers.toNat := hfullP.mp rfl
    obtain ⟨⟨filledC, consumers, t, eventsC⟩, hconsumers, h⟩ := checkedBind_ok.mp h
    cases h
    obtain ⟨hlenC, hfullC, hplacedC, hmatchC, ht⟩ := newChannels_done hconsumers
    replace hlenC : consumers.length ≤ grp.data.nConsumers.toNat := hlenC
    have hsettlesC := fillChannels_settles .consumer (fun _ => 0)
      (fun hstep => (newChannel_settles hstep).of_eq rfl (Multiset.zero_add _).symm) hconsumers
    rw [Multiset.zero_add] at hsettlesC
    obtain ⟨hendsP, hendsC⟩ := hempty.ends_fill t.shm producers consumers hlenP hlenC
    have hshm : t.shm = { shm with
        refCnt := shm.refCnt + BitVec.ofNat 32 (producers.length + consumers.length) } := by
      rw [ht, hs, BitVec.ofNat_add, ← BitVec.add_assoc]
    refine ⟨hempty.grown_fill .producer hlenP hlenC hshm ?_ ?_, ?_, ?_⟩
    · intro c hc
      rcases List.mem_append.mp hc with hc | hc
      · exact hplacedP.owners c hc
      · exact hplacedC.owners c hc
    · intro hfilled
      have hlenC' : consumers.length = grp.data.nConsumers.toNat := hfullC.mp hfilled
      rw [hlenP'] at hplacedP hmatchP hs
      rw [hlenC', hs] at hplacedC
      rw [hlenC'] at hmatchC
      refine ⟨rfl, ?_, ?_, ?_⟩
      · rw [hendsP, hshm]
        exact hplacedP
      · show PlacedFrom cls t.shm.mem t.shm.size _ _ _
        rw [show Role.producer.other = Role.consumer from rfl, hendsC, hshm]
        exact hplacedC
      · intro role
        cases role with
        | consumer => rw [hendsC]; exact hmatchC
        | producer => rw [hendsP]; exact hmatchP
    · show Settles _ 0 (ownedChannels .consumer 0 ((grp.fill t.shm producers consumers).ends .consumer) +
        ownedChannels .producer 0 ((grp.fill t.shm producers consumers).ends .producer))
      rw [hendsP, hendsC, Multiset.add_comm]
      exact hsettlesP.append ((hsettlesC.frame _).of_eq (Multiset.zero_add _)
        (Multiset.add_comm _ _))
    · show 2 ^ 32 ≤ ((grp.fill t.shm producers consumers).ends .producer).length +
        ((grp.fill t.shm producers consumers).ends .consumer).length ↔ _
      rw [hendsP, hendsC]
      have hoffset : s.offset = endOffset cls 0 (grp.data.attrs .producer) := by
        rw [hs, hlenP']
        rfl
      have hsize : s.shm.size = shm.size := by rw [hs]
      constructor
      · intro hle
        have hk : 2 ^ 32 - grp.data.nProducers.toNat ≤ grp.data.nConsumers.toNat := by omega
        refine ⟨by omega, hreachP.mp (by omega), ?_⟩
        rw [← hoffset, ← hsize]
        exact (newChannels_reach hconsumers hk).mp (by omega)
      · intro hreach
        have hcount := hreach.count
        have hk : 2 ^ 32 - grp.data.nProducers.toNat ≤ grp.data.nConsumers.toNat := by omega
        have hconsumers' := hreach.consumers
        rw [← hoffset, ← hsize] at hconsumers'
        have := (newChannels_reach hconsumers hk).mpr hconsumers'
        omega

end new

/-! ### The channels of a request -/

/-- What comes after a channel: the next offset, and the next descriptor. -/
def nextMap (cls : Size) (attr : ChannelAttr InfoPtr) (p : Size × Unsigned) : Size × Unsigned :=
  (p.1 + channelShmSize cls attr, if attr.eventfd then p.2 + 1 else p.2)

/-- The descriptor after the eventfds of these channels, from `idx` on. -/
def endIdx (idx : Unsigned) (attrs : List (ChannelAttr InfoPtr)) : Unsigned :=
  idx + BitVec.ofNat 32 (attrs.countP (·.eventfd))

/-- The first 2³² channels get what they need from a mapping of `size` bytes and the descriptors. -/
structure Os.ReachesMap (os : Os) (cls : Size) (data : GroupData) (size : Size) (nFds : Unsigned)
    (fds : List Int) : Prop where
  count : 2 ^ 32 ≤ data.nConsumers.toNat + data.nProducers.toNat
  consumers : Reaches (fun i attr p => os.GrantsMap nFds .consumer size i attr p.1 fds p.2) (nextMap cls)
    data.nConsumers.toNat 0 (elements data.consumers) (0, 1)
  producers : Reaches (fun i attr p => os.GrantsMap nFds .producer size i attr p.1 fds p.2) (nextMap cls)
    (2 ^ 32 - data.nConsumers.toNat) 0 (elements data.producers)
    (endOffset cls 0 (data.attrs .consumer), endIdx 1 (data.attrs .consumer))

/-- Every entry of the array is still there, or has been taken. -/
def FdsKept (fds fds' : List Int) : Prop := List.Forall₂ (fun fd fd' => fd' = fd ∨ fd' = -1) fds fds'

/-- Nothing has been taken. -/
theorem FdsKept.refl (fds : List Int) : FdsKept fds fds := by
  induction fds with
  | nil => exact List.Forall₂.nil
  | cons fd fds ih => exact List.Forall₂.cons (Or.inl rfl) ih

/-- First some entries have been taken, then others. -/
theorem FdsKept.trans {fds fds' fds'' : List Int} (h : FdsKept fds fds') (h' : FdsKept fds' fds'') :
    FdsKept fds fds'' := by
  induction h generalizing fds'' with
  | nil =>
    cases h'
    exact List.Forall₂.nil
  | cons hfirst _ ih =>
    cases h' with
    | cons hfirst' hrest' =>
      refine List.Forall₂.cons ?_ (ih hrest')
      rcases hfirst' with rfl | rfl
      · exact hfirst
      · exact Or.inr rfl

/-- One entry has been taken. -/
theorem FdsKept.set (fds : List Int) (j : Nat) : FdsKept fds (fds.set j (-1)) := by
  induction fds generalizing j with
  | nil => exact List.Forall₂.nil
  | cons fd fds ih =>
    cases j with
    | zero => exact List.Forall₂.cons (Or.inr rfl) (FdsKept.refl fds)
    | succ j => exact List.Forall₂.cons (Or.inl rfl) (ih j)

section map

variable {os : Os} {cls : Size} {nFds : Unsigned} {grp grp' : Group} {shm : Shm} {filled : Bool}
  {events : List Event}

/-- Mapping a channel takes one entry at most. -/
theorem mapChannel_fdsKept {role : Role} {i : Nat} {attr : ChannelAttr InfoPtr}
    {channel : Option ChannelEnd} {s t : FdCursor}
    (h : mapChannel os cls nFds role i attr s = .ok (channel, t, events)) : FdsKept s.fds t.fds := by
  obtain ⟨eventfd, u, htake, hround⟩ := mapChannel_cases h
  have hkept : FdsKept s.fds u.fds := by
    rcases FdCursor.takeEventfd_cases htake with ⟨-, -, rfl⟩ | ⟨-, fds, hfd, rfl⟩
    · exact FdsKept.refl _
    · rcases takeEventfd_cases hfd with ⟨-, hset⟩ | ⟨-, hsame, -⟩
      · exact hset ▸ FdsKept.set _ _
      · exact hsame ▸ FdsKept.refl _
  rcases hround with ⟨-, -, rfl, -⟩ | ⟨-, ⟨_, -, -, rfl, -⟩ | ⟨_, _, -, -, rfl⟩⟩
  · exact hkept
  · exact hkept
  · exact hkept

/-- So the loop leaves each entry as it is, or takes it. -/
theorem fillChannels_fdsKept {role : Role} {n i : Nat} {attrs : List (ChannelAttr InfoPtr)}
    {channels : List ChannelEnd} {s t : FdCursor}
    (h : fillChannels (mapChannel os cls nFds role) n i attrs s = .ok (filled, channels, t, events)) :
    FdsKept s.fds t.fds := by
  refine fillChannels_induction (P := fun _ _ _ s _ _ _ => FdsKept s.fds t.fds) ?_ ?_ ?_ h
  · intro i attrs
    exact FdsKept.refl _
  · intro n i attr attrs s events hfirst
    exact mapChannel_fdsKept hfirst
  · intro n i attr attrs s u channel first filled channels events hfirst ih
    exact (mapChannel_fdsKept hfirst).trans ih

/-- How far the loop comes: it maps the first `k` channels if and only if everything is granted and
    there is a descriptor for each eventfd. -/
theorem mapChannels_reach {role : Role} {n : Nat} {attrs : List (ChannelAttr InfoPtr)} {s t : FdCursor}
    {channels : List ChannelEnd} (fds : List Int)
    (hfds : ∀ j, s.idx.toNat ≤ j → s.fds[j]? = fds[j]?)
    (h : fillChannels (mapChannel os cls nFds role) n 0 attrs s = .ok (filled, channels, t, events))
    {k : Nat} (hk : k ≤ n) : k ≤ channels.length ↔
      Reaches (fun i attr p => os.GrantsMap nFds role s.shm.size i attr p.1 fds p.2) (nextMap cls)
        k 0 attrs (s.offset, s.idx) := by
  -- The loop looks at descriptors it has not taken yet, so the array at the start decides.
  have hsame {t : FdCursor} (ht : ∀ j, t.idx.toNat ≤ j → t.fds[j]? = fds[j]?) {i : Nat}
      {attr : ChannelAttr InfoPtr} : os.GrantsMap nFds role s.shm.size i attr t.offset t.fds t.idx ↔
        os.GrantsMap nFds role s.shm.size i attr t.offset fds t.idx := by
    have hentry (fd : Int) : os.GrantsEventfd nFds t.fds t.idx fd ↔
        os.GrantsEventfd nFds fds t.idx fd :=
      ⟨fun g => ⟨g.inside, ht _ le_rfl ▸ g.entry, g.nonneg, g.verified, g.nonblocking⟩,
        fun g => ⟨g.inside, (ht _ le_rfl).symm ▸ g.entry, g.nonneg, g.verified, g.nonblocking⟩⟩
    constructor
    · rintro ⟨hblocks, heventfd⟩
      exact ⟨hblocks, fun hattr => (heventfd hattr).imp fun fd => (hentry fd).mp⟩
    · rintro ⟨hblocks, heventfd⟩
      exact ⟨hblocks, fun hattr => (heventfd hattr).imp fun fd => (hentry fd).mpr⟩
  refine fillChannels_reaches (fun t : FdCursor => (t.offset, t.idx))
    (fun t => t.shm.size = s.shm.size ∧ ∀ j, t.idx.toNat ≤ j → t.fds[j]? = fds[j]?)
    ?_ ?_ ⟨rfl, hfds⟩ h hk
  · intro i attr t channel u events' hinv hstep
    obtain ⟨hgrants, -, hround⟩ := mapChannel_some hstep
    rw [hinv.1] at hgrants
    refine ⟨(hsame hinv.2).mp hgrants, ?_, ?_, ?_⟩
    · cases hattr : attr.eventfd with
      | false =>
        obtain ⟨-, -, hidx⟩ := hround.without hattr
        rw [nextMap, hround.offset, hidx, if_neg (by rw [hattr]; decide)]
      | true =>
        obtain ⟨-, -, hidx⟩ := hround.eventfd hattr
        rw [nextMap, hround.offset, hidx, if_pos hattr]
    · rw [hround.shm]
      exact hinv.1
    · -- the step clears the entry behind the cursor only
      intro j hj
      cases hattr : attr.eventfd with
      | false =>
        obtain ⟨-, hfds', hidx⟩ := hround.without hattr
        rw [hfds']
        exact hinv.2 j (hidx ▸ hj)
      | true =>
        obtain ⟨htaken, hfds', hidx⟩ := hround.eventfd hattr
        have hinside := htaken.inside
        rw [BitVec.lt_def] at hinside
        have hnext : u.idx.toNat = t.idx.toNat + 1 := by
          rw [hidx, BitVec.toNat_add, show (1 : Unsigned).toNat = 1 from rfl]
          exact Nat.mod_eq_of_lt (by omega)
        rw [hfds', List.getElem?_set_ne (by omega)]
        exact hinv.2 j (by omega)
  · intro i attr t u events' hinv hstep
    rw [← hsame hinv.2, ← hinv.1]
    exact (mapChannel_none hstep).1

/-- One loop of `ri_group_map`. -/
theorem mapChannels_done {role : Role} {n : Nat} {attrs : List (ChannelAttr InfoPtr)} {s t : FdCursor}
    {channels : List ChannelEnd} (hidx : s.idx.toNat ≤ s.fds.length)
    (h : fillChannels (mapChannel os cls nFds role) n 0 attrs s = .ok (filled, channels, t, events)) :
    channels.length ≤ n ∧ (filled = true ↔ channels.length = n) ∧
      PlacedFrom cls s.shm.mem s.shm.size s.offset (attrs.take channels.length) channels ∧
      EventfdsMatch (attrs.take channels.length) channels ∧
      t.shm = { s.shm with refCnt := s.shm.refCnt + BitVec.ofNat 32 channels.length } ∧
      (filled = true → t.offset = endOffset cls s.offset (attrs.take channels.length) ∧
        ∃ before after, FdsTaken s t (eventfds channels) before after) := by
  obtain ⟨u, hlength, hfilling, hfull, hrefused⟩ := fillChannels_done h
  obtain ⟨hplaced, hend⟩ := hfilling.placed FdCursor.toShmCursor mapChannel_placed
  -- A step that fails leaves the shared memory as it was.
  have hsame : t.shm = u.shm := by
    cases filled with
    | true => rw [(hfull rfl).2]
    | false =>
      obtain ⟨-, attr, events', -, hnone⟩ := hrefused rfl
      exact (mapChannel_none hnone).2
  refine ⟨hlength, ⟨fun htrue => (hfull htrue).1, fun hlen => ?_⟩, hplaced, hfilling.mapEventfds,
    ?_, ?_⟩
  · cases filled with
    | true => rfl
    | false => exact absurd hlen (Nat.ne_of_lt (hrefused rfl).1)
  · rw [hsame]
    exact congrArg ShmCursor.shm hend
  · intro htrue
    obtain ⟨-, rfl⟩ := hfull htrue
    exact ⟨congrArg ShmCursor.offset hend, hfilling.fdsTaken hidx⟩

/-- Behind what has been taken the array is unchanged. -/
theorem FdsTaken.rest {s t : FdCursor} {taken before after : List Int}
    (h : FdsTaken s t taken before after) {j : Nat} (hj : t.idx.toNat ≤ j) :
    t.fds[j]? = s.fds[j]? := by
  have hidx := h.idx'
  have hlen := h.idx
  have hbehind (front : List Int) (hfront : front.length = taken.length) :
      (before ++ (front ++ after))[j]? = after[j - before.length - taken.length]? := by
    rw [List.getElem?_append_right (by omega), List.getElem?_append_right (by omega), hfront]
  rw [h.fds, h.fds', hbehind _ List.length_replicate, hbehind _ rfl]

/-- The cursor stays in the array. -/
theorem FdsTaken.idx_le {s t : FdCursor} {taken before after : List Int}
    (h : FdsTaken s t taken before after) : t.idx.toNat ≤ t.fds.length := by
  rw [h.fds', h.idx', ← h.idx]
  simp only [List.length_append, List.length_replicate]
  omega

/-- The descriptors that have been taken are those of the channels with an eventfd. -/
theorem FdsTaken.endIdx_eq {s t : FdCursor} {attrs : List (ChannelAttr InfoPtr)}
    {channels : List ChannelEnd} {before after : List Int}
    (h : FdsTaken s t (eventfds channels) before after) (hmatch : EventfdsMatch attrs channels) :
    t.idx = endIdx s.idx attrs := by
  refine BitVec.eq_of_toNat_eq ?_
  have hidx := h.idx'
  have hlt := t.idx.isLt
  rw [hmatch.length_eventfds] at hidx
  rw [hidx] at hlt
  rw [hidx, endIdx, BitVec.toNat_add, BitVec.toNat_ofNat]
  omega

/-- What two loops take, one after the other. -/
theorem FdsTaken.trans {s t u : FdCursor} {taken taken' before before' after after' : List Int}
    (h : FdsTaken s t taken before after) (h' : FdsTaken t u taken' before' after') :
    FdsTaken s u (taken ++ taken') before after' := by
  have hidx := h.idx
  have hidx' := h.idx'
  have hsplit := h'.fds
  rw [h.fds', ← List.append_assoc] at hsplit
  obtain ⟨hbefore, hafter⟩ := List.append_inj hsplit (by
    rw [List.length_append, List.length_replicate, h'.idx]
    omega)
  refine ⟨?_, h.idx, ?_, ?_⟩
  · rw [h.fds, hafter, List.append_assoc]
  · rw [h'.fds', ← hbefore, List.length_append, List.replicate_add]
    simp only [List.append_assoc]
  · rw [h'.idx', h.idx', List.length_append, Nat.add_assoc]

/-- What the two loops of `ri_group_map` leave: the ends, what they own, the entries that have been
    taken, and whether there are 2³² channels or more. -/
theorem groupMapChannels_grown {fds fds' : List Int} (hempty : grp.Empty) (hfds : fds ≠ [])
    (h : groupMapChannels os cls grp shm fds nFds = .ok (filled, grp', fds', events)) :
    grp.Grown cls .consumer grp' shm filled ∧
      Settles events (descriptors fds) (descriptors fds' +
        (ownedChannels .consumer 0 (grp'.ends .consumer) +
          ownedChannels .producer 0 (grp'.ends .producer))) ∧
      FdsKept fds fds' ∧
      (2 ^ 32 ≤ (grp'.ends .consumer).length + (grp'.ends .producer).length ↔
        os.ReachesMap cls grp.data shm.size nFds fds) ∧
      (filled = true → ∃ s t : FdCursor, s.fds = fds ∧ s.idx = 1 ∧ t.fds = fds' ∧
        ∃ before after, FdsTaken s t
          (eventfds (grp'.ends .consumer) ++ eventfds (grp'.ends .producer)) before after) := by
  have hidx : (1 : Unsigned).toNat ≤ fds.length := List.length_pos_iff.mpr hfds
  obtain ⟨⟨filledC, consumers, s, eventsC⟩, hconsumers, h⟩ := checkedBind_ok.mp h
  obtain ⟨hlenC, hfullC, hplacedC, hmatchC, hshmC, hendC⟩ := mapChannels_done hidx hconsumers
  have hreachC := mapChannels_reach fds (fun _ _ => rfl) hconsumers
    (k := grp.data.nConsumers.toNat) le_rfl
  have hsettlesC := fillChannels_settles .consumer (fun t : FdCursor => descriptors t.fds)
    mapChannel_settles hconsumers
  have hkeptC := fillChannels_fdsKept hconsumers
  have hltC := grp.data.nConsumers.isLt
  -- the loop over the producers runs only after one that has made all consumers
  cases filledC with
  | false =>
    cases h
    rw [← hempty.nil_fill]
    obtain ⟨hendsP, hendsC⟩ := hempty.ends_fill s.shm [] consumers (Nat.zero_le _) hlenC
    have hlt : consumers.length < grp.data.nConsumers.toNat :=
      lt_of_le_of_ne hlenC fun heq => Bool.false_ne_true (hfullC.mpr heq)
    rw [hendsP, hendsC]
    refine ⟨hempty.grown_fill .consumer (Nat.zero_le _) hlenC ?_ ?_
      (fun htrue => absurd htrue (by decide)), ?_, hkeptC, ?_, fun htrue => absurd htrue (by decide)⟩
    · rw [hshmC, List.length_nil, Nat.zero_add]
    · exact hplacedC.owners
    · refine hsettlesC.of_eq rfl ?_
      rw [show ownedChannels .producer 0 [] = 0 from rfl, Multiset.add_zero]
    · rw [List.length_nil, Nat.add_zero]
      refine iff_of_false (by omega) fun hreach => ?_
      have := hreachC.mpr hreach.consumers
      omega
  | true =>
    have hlenC' : consumers.length = grp.data.nConsumers.toNat := hfullC.mp rfl
    obtain ⟨hoffsetC, before, after, htakenC⟩ := hendC rfl
    obtain ⟨⟨filledP, producers, t, eventsP⟩, hproducers, h⟩ := checkedBind_ok.mp h
    cases h
    obtain ⟨hlenP, hfullP, hplacedP, hmatchP, hshmP, hendP⟩ := mapChannels_done htakenC.idx_le hproducers
    replace hlenP : producers.length ≤ grp.data.nProducers.toNat := hlenP
    have hsettlesP := fillChannels_settles .producer (fun t : FdCursor => descriptors t.fds)
      mapChannel_settles hproducers
    obtain ⟨hendsP, hendsC⟩ := hempty.ends_fill t.shm producers consumers hlenP hlenC
    have hshm : t.shm = { shm with
        refCnt := shm.refCnt + BitVec.ofNat 32 (producers.length + consumers.length) } := by
      rw [hshmP, hshmC, Nat.add_comm, BitVec.ofNat_add, ← BitVec.add_assoc]
    have hgrp : ({ grp with
        shm := some t.shm
        consumers := grp.consumers.map fun _ => consumers
        producers := grp.producers.map fun _ => producers } : Group) =
        grp.fill t.shm producers consumers := rfl
    refine ⟨hempty.grown_fill .consumer hlenP hlenC hshm ?_ ?_, ?_,
      hkeptC.trans (fillChannels_fdsKept hproducers), ?_, ?_⟩
    · intro c hc
      rcases List.mem_append.mp hc with hc | hc
      · exact hplacedP.owners c hc
      · exact hplacedC.owners c hc
    · intro hfilled
      have hlenP' : producers.length = grp.data.nProducers.toNat := hfullP.mp hfilled
      rw [hlenC'] at hplacedC hmatchC hoffsetC
      rw [hlenP', hshmC, hoffsetC] at hplacedP
      rw [hlenP'] at hmatchP
      refine ⟨rfl, ?_, ?_, ?_⟩
      · rw [hendsC, hshm]
        exact hplacedC
      · show PlacedFrom cls t.shm.mem t.shm.size _ _ _
        rw [show Role.consumer.other = Role.producer from rfl, hendsP, hshm]
        exact hplacedP
      · intro role
        cases role with
        | consumer => rw [hendsC]; exact hmatchC
        | producer => rw [hendsP]; exact hmatchP
    · show Settles _ _ (descriptors t.fds +
        (ownedChannels .consumer 0 ((grp.fill t.shm producers consumers).ends .consumer) +
          ownedChannels .producer 0 ((grp.fill t.shm producers consumers).ends .producer)))
      rw [hendsP, hendsC]
      refine hsettlesC.append ((hsettlesP.frame _).of_eq rfl ?_)
      abel
    · show 2 ^ 32 ≤ ((grp.fill t.shm producers consumers).ends .consumer).length +
        ((grp.fill t.shm producers consumers).ends .producer).length ↔ _
      rw [hendsP, hendsC]
      have hoffset : s.offset = endOffset cls 0 (grp.data.attrs .consumer) := by
        rw [hoffsetC, hlenC']
        rfl
      have hsize : s.shm.size = shm.size := by rw [hshmC]
      have hnext : s.idx = endIdx 1 (grp.data.attrs .consumer) := by
        rw [hlenC'] at hmatchC
        exact htakenC.endIdx_eq hmatchC
      have hreachP {k : Nat} (hk : k ≤ grp.data.nProducers.toNat) :=
        mapChannels_reach fds (fun j hj => htakenC.rest hj) hproducers hk
      rw [hoffset, hnext, hsize] at hreachP
      constructor
      · intro hle
        have hk : 2 ^ 32 - grp.data.nConsumers.toNat ≤ grp.data.nProducers.toNat := by omega
        exact ⟨by omega, hreachC.mp (by omega), (hreachP hk).mp (by omega)⟩
      · intro hreach
        have hcount := hreach.count
        have hk : 2 ^ 32 - grp.data.nConsumers.toNat ≤ grp.data.nProducers.toNat := by omega
        have := (hreachP hk).mpr hreach.producers
        omega
    · intro hfilled
      obtain ⟨-, before', after', htakenP⟩ := hendP hfilled
      refine ⟨{ shm := shm, offset := 0, fds := fds, idx := 1 }, t, rfl, rfl, rfl, before, after', ?_⟩
      rw [hgrp, hendsP, hendsC]
      exact htakenC.trans htakenP

end map

end Rtipc
