/-
  What the calls of a group hold.

  `owned` is what an object holds: its blocks, its descriptor, the mapping.  Each function is one
  theorem about its events: they lead from what was held before to what its results own, and a call
  that fails gives everything back.  The descriptors in the array of the caller count as held, so a
  descriptor that a channel takes from it moves without an event.

  1. **Objects.**  `Group.owned` is the union of what its parts own: its block and its data, the two
     arrays, the channels, and the shared memory.  A channel owns two blocks, that of the end and that
     of its queue, and its eventfd if it has one.

  2. **Functions.**  For each function of `src/group.c`, `src/channel.c` and `src/shm.c` that makes or
     deletes something there is one theorem `…_settles`.  It has two halves, one for each result: the
     call that succeeds leads to what the result owns, the call that fails to what was held before.

  3. **Deleting.**  `groupDelete_settles` takes a group that need not be complete.  What it asks for is
     that the reference counter says how many references there are and that no user has a channel
     (`Group.Counted`).  So it serves the error paths as well as `ri_group_delete` itself.
-/
import Rtipc.GroupLoops
import Rtipc.DataLedger
import Mathlib.Algebra.Order.Group.Multiset
import Mathlib.Tactic.Abel

namespace Rtipc

/-! ## What objects hold -/

/-- The descriptors in an array; negative entries are none. -/
def descriptors : List Int → Multiset Resource
  | [] => 0
  | fd :: fds => (if fd ≥ 0 then {.descriptor fd} else 0) + descriptors fds

/-- What a shared memory holds: its block, its descriptor and its mapping. -/
def Shm.owned (shm : Shm) : Multiset Resource :=
  {.block .shm} + {.mapping} + {.descriptor shm.fd}

/-- What an end holds: the blocks of the channel and its queue, and its eventfd. -/
def ChannelEnd.owned (role : Role) (i : Nat) (channel : ChannelEnd) : Multiset Resource :=
  {.block (.channel role i)} + {.block (.queue role i)} + descriptors [channel.eventfd]

/-- What a new channel owns, and what is left if there is none. -/
def ownedOr (role : Role) (i : Nat) (rest : Multiset Resource) : Option ChannelEnd → Multiset Resource
  | none => rest
  | some channel => channel.owned role i

/-- The channels from number `i` on. -/
def ownedChannels (role : Role) : Nat → List ChannelEnd → Multiset Resource
  | _, [] => 0
  | i, channel :: channels => channel.owned role i + ownedChannels role (i + 1) channels

/-- The shared memory of a group, if there is any. -/
def ownedShm : Option Shm → Multiset Resource
  | none => 0
  | some shm => shm.owned

/-- What a group holds. -/
def Group.owned (grp : Group) : Multiset Resource :=
  {.block .group} + grp.data.owned + ownedPtr (.array .consumer) grp.consumers +
    ownedPtr (.array .producer) grp.producers + ownedChannels .consumer 0 (elements grp.consumers) +
    ownedChannels .producer 0 (elements grp.producers) + ownedShm grp.shm

/-- Closing a descriptor settles it, whether it is one or not. -/
theorem settles_closed (fd : Int) : Settles (closed fd) (descriptors [fd]) 0 := by
  rw [closed, descriptors, descriptors]
  split
  · exact (Settles.release _).of_eq (by rw [Multiset.zero_add, Multiset.add_zero]) rfl
  · exact Settles.nil

/-- A negative number is no descriptor. -/
theorem descriptors_of_neg {fd : Int} (h : fd < 0) (fds : List Int) :
    descriptors (fd :: fds) = descriptors fds := by
  rw [descriptors, if_neg (by omega), Multiset.zero_add]

/-- The descriptors of an array, one after the other. -/
theorem descriptors_cons (fd : Int) (fds : List Int) :
    descriptors (fd :: fds) = descriptors [fd] + descriptors fds := by
  rw [descriptors, descriptors, descriptors, Multiset.add_zero]

/-- Taking a descriptor out of the array. -/
theorem descriptors_append (fds fds' : List Int) :
    descriptors (fds ++ fds') = descriptors fds + descriptors fds' := by
  induction fds with
  | nil => exact (Multiset.zero_add _).symm
  | cons fd fds ih => rw [List.cons_append, descriptors, ih, descriptors, Multiset.add_assoc]

/-- Taking a descriptor out of the array. -/
theorem descriptors_set {fds : List Int} {j : Nat} {fd : Int} (h : fds[j]? = some fd) :
    descriptors fds = descriptors (fds.set j (-1)) + descriptors [fd] := by
  induction fds generalizing j with
  | nil => cases h
  | cons x xs ih =>
    cases j with
    | zero =>
      cases h
      rw [List.set_cons_zero, descriptors_of_neg (show (-1 : Int) < 0 by decide), descriptors_cons,
        Multiset.add_comm]
    | succ j =>
      rw [List.set_cons_succ, descriptors_cons, ih h, descriptors_cons x (xs.set j (-1)),
        Multiset.add_assoc]

/-! ## Making channels

  A channel is made of two blocks and perhaps an eventfd; if one of them cannot be had, the others are
  given back. -/

section create

variable (os : Os) (cls : Size) (role : Role) (i : Nat) (attr : ChannelAttr InfoPtr) (shm : Shm)
  (shmOffset : Size)

/-- A new queue owns its block; filling the chain acquires nothing. -/
theorem queueNew_settles : Settles (queueNew os cls role i attr shm shmOffset).2 0
    (ownedPtr (.queue role i) (queueNew os cls role i attr shm shmOffset).1) := by
  have hacquire : Settles [.acquire (.block (.queue role i))] 0 {.block (.queue role i)} :=
    (Settles.acquire _).of_eq rfl (Multiset.zero_add _)
  have hfail : Settles [.acquire (.block (.queue role i)), .release (.block (.queue role i))] 0 0 :=
    hacquire.append ((Settles.release _).of_eq (Multiset.zero_add _) rfl)
  cases role with
  | consumer =>
    show Settles (consumerQueueNew os cls i attr shm shmOffset).2 0
      (ownedPtr _ (consumerQueueNew os cls i attr shm shmOffset).1)
    unfold consumerQueueNew
    split
    · split
      · exact hfail
      · exact hacquire
    · exact Settles.nil
  | producer =>
    show Settles (producerQueueNew os cls i attr shm shmOffset).2 0
      (ownedPtr _ (producerQueueNew os cls i attr shm shmOffset).1)
    unfold producerQueueNew
    split
    · split
      · exact hfail
      · exact hacquire.append (settles_stored _)
    · exact Settles.nil

/-- The descriptor goes over to the channel if it is made. -/
theorem channelMap_settles (eventfd : Int) (h : attr.eventfd = false → eventfd = -1) :
    Settles (channelMap os cls role i attr eventfd shm shmOffset).2 (descriptors [eventfd])
      (ownedOr role i (descriptors [eventfd])
        ((channelMap os cls role i attr eventfd shm shmOffset).1.map Prod.fst)) := by
  have hqueue := queueNew_settles os cls role i attr shm shmOffset
  have heventfd : (if attr.eventfd then eventfd else -1) = eventfd := by
    cases hattr : attr.eventfd with
    | false => exact (h hattr).symm
    | true => rfl
  have hacquire : Settles [.acquire (.block (.channel role i))] (descriptors [eventfd])
      (descriptors [eventfd] + {.block (.channel role i)}) := Settles.acquire _
  unfold channelMap
  split
  · split
    · rename_i events hnone
      rw [hnone] at hqueue
      -- `ri_consumer_map` and `ri_producer_map` free the block of the channel if the queue fails.
      have hback : Settles [.release (.block (.channel role i))]
          (descriptors [eventfd] + {.block (.channel role i)}) (descriptors [eventfd]) :=
        Settles.release _
      exact (hacquire.append ((hqueue.frame _).of_eq (Multiset.zero_add _)
        (Multiset.zero_add _))).append hback
    · rename_i queue shm' events hsome
      rw [hsome] at hqueue
      refine hacquire.append ((hqueue.frame _).of_eq (Multiset.zero_add _) ?_)
      show {.block (.queue role i)} + (descriptors [eventfd] + {.block (.channel role i)}) =
        {.block (.channel role i)} + {.block (.queue role i)} +
          descriptors [if attr.eventfd then eventfd else -1]
      -- the eventfd is in the hands of the channel
      rw [heventfd]
      abel
  · exact Settles.nil

/-- `ri_consumer_new` and `ri_producer_new` have acquired what the channel holds, or nothing if they
    fail. -/
theorem channelNew_settles : Settles (channelNew os cls role i attr shm shmOffset).2 0
    (ownedOr role i 0 ((channelNew os cls role i attr shm shmOffset).1.map Prod.fst)) := by
  unfold channelNew
  split
  · rename_i hattr
    split
    · exact Settles.nil
    · rename_i hfd
      have hmap := channelMap_settles os cls role i attr shm shmOffset (os.eventfdCreate role i)
        (fun hfalse => absurd hattr (by rw [hfalse]; decide))
      -- `eventfd` is called first, and closed again if the mapping fails.
      have hopen : Settles [.acquire (.descriptor (os.eventfdCreate role i))] 0
          (descriptors [os.eventfdCreate role i]) := by
        refine (Settles.acquire _).of_eq rfl ?_
        rw [descriptors, descriptors, if_pos (by omega), Multiset.zero_add, Multiset.add_zero]
      split
      · rename_i events hnone
        rw [hnone] at hmap
        exact (hopen.append hmap).append (settles_closed _)
      · rename_i channel shm' events hsome
        rw [hsome] at hmap
        exact (hopen.append hmap).append (settles_stored _)
  · rename_i hattr
    have hmap := channelMap_settles os cls role i attr shm shmOffset (-1) (fun _ => rfl)
    rw [descriptors_of_neg (by decide)] at hmap
    split
    · rename_i events hnone
      rwa [hnone] at hmap
    · rename_i channel shm' events hsome
      rw [hsome] at hmap
      exact hmap.append (settles_stored _)

end create

/-! ## The loops over the channels -/

section loops

variable {os : Os} {cls : Size} {role : Role} {i : Nat} {attr : ChannelAttr InfoPtr}
  {channel : Option ChannelEnd} {events : List Event}

/-- The same for the step of the loop of `ri_group_new`. -/
theorem newChannel_settles {s s' : ShmCursor}
    (h : newChannel os cls role i attr s = .ok (channel, s', events)) :
    Settles events 0 (ownedOr role i 0 channel) := by
  have hnew := channelNew_settles os cls role i attr s.shm s.offset
  unfold newChannel at h
  split at h
  · rename_i hnone
    cases h
    rwa [hnone] at hnew
  · rename_i hsome
    cases h
    rwa [hsome] at hnew

/-- What is left of the descriptors. -/
theorem takeEventfd_descriptors {idx nFds : Unsigned} {fds fds' : List Int} {eventfd : Int}
    (h : takeEventfd os idx fds nFds = .ok (eventfd, fds')) :
    descriptors fds = descriptors fds' + descriptors [eventfd] := by
  rcases takeEventfd_cases h with ⟨hgrants, rfl⟩ | ⟨hneg, rfl, -⟩
  · exact descriptors_set hgrants.entry
  · rw [descriptors_of_neg hneg, descriptors, Multiset.add_zero]

/-- The eventfd for a channel comes out of the array. -/
theorem FdCursor.takeEventfd_descriptors {nFds : Unsigned} {s s' : FdCursor} {eventfd : Int}
    (h : s.takeEventfd os nFds attr = .ok (eventfd, s')) :
    descriptors s.fds = descriptors s'.fds + descriptors [eventfd] ∧
      (attr.eventfd = false → eventfd = -1) := by
  rcases FdCursor.takeEventfd_cases h with ⟨-, rfl, rfl⟩ | ⟨hattr, fds, htake, rfl⟩
  · refine ⟨?_, fun _ => rfl⟩
    rw [descriptors_of_neg (show (-1 : Int) < 0 by decide), descriptors, Multiset.add_zero]
  · exact ⟨Rtipc.takeEventfd_descriptors htake, fun hfalse => absurd hattr (by rw [hfalse]; decide)⟩

/-- The step of the loop of `ri_group_map`: the eventfd comes out of the array. -/
theorem mapChannel_settles {nFds : Unsigned} {s s' : FdCursor}
    (h : mapChannel os cls nFds role i attr s = .ok (channel, s', events)) :
    Settles events (descriptors s.fds) (descriptors s'.fds + ownedOr role i 0 channel) := by
  obtain ⟨eventfd, t, htake, hround⟩ := mapChannel_cases h
  obtain ⟨hdescriptors, hminus⟩ := FdCursor.takeEventfd_descriptors htake
  have hmap := channelMap_settles os cls role i attr t.shm t.offset eventfd hminus
  rcases hround with ⟨⟨-, hneg⟩, rfl, rfl, rfl⟩ |
    ⟨-, ⟨failed, hnone, rfl, rfl, rfl⟩ | ⟨made, shm, hsome, rfl, rfl⟩⟩
  · rw [hdescriptors, descriptors_of_neg hneg, descriptors]
    exact Settles.nil
  · rw [hnone] at hmap
    have hclosed := (hmap.append (settles_closed eventfd)).frame (descriptors s'.fds)
    exact hclosed.of_eq (by rw [hdescriptors, Multiset.add_comm])
      (Multiset.add_comm _ _)
  · rw [hsome] at hmap
    exact (hmap.frame (descriptors t.fds)).of_eq (by rw [hdescriptors, Multiset.add_comm])
      (Multiset.add_comm _ _)

/-- The channels that a loop has made own what its rounds have acquired. -/
theorem fillChannels_settles (role : Role) {σ : Type}
    {step : Nat → ChannelAttr InfoPtr → σ → Checked (Option ChannelEnd × σ × List Event)}
    (held : σ → Multiset Resource)
    (hstep : ∀ {i attr s channel s' events}, step i attr s = .ok (channel, s', events) →
      Settles events (held s) (held s' + ownedOr role i 0 channel))
    {n i : Nat} {attrs : List (ChannelAttr InfoPtr)} {s s' : σ} {filled : Bool}
    {channels : List ChannelEnd} {events : List Event}
    (h : fillChannels step n i attrs s = .ok (filled, channels, s', events)) :
    Settles events (held s) (held s' + ownedChannels role i channels) := by
  refine fillChannels_induction (P := fun _ i _ s _ channels events =>
    Settles events (held s) (held s' + ownedChannels role i channels)) ?_ ?_ ?_ h
  · intro i attrs
    exact Settles.nil.of_eq rfl (Multiset.add_zero _).symm
  · intro n i attr attrs s events hfirst
    exact hstep hfirst
  · intro n i attr attrs s t channel first filled channels events hfirst ih
    refine (hstep hfirst).append ((ih.frame (channel.owned role i)).of_eq rfl ?_)
    rw [ownedChannels]
    abel

end loops

/-! ## Deleting

  A channel gives back its reference when it is deleted, and the one who gives back the last unmaps
  the memory. -/

section delete

variable {role : Role} {i k : Nat} {shm : Shm} {channel : ChannelEnd} {channels : List ChannelEnd}

/-- A reference that is not the last one. -/
theorem shmUnref_of_lt (hcnt : shm.refCnt = BitVec.ofNat 32 (k + 1)) (hk : 1 ≤ k)
    (hsmall : k < 2 ^ 32) : shmUnref shm = ({ shm with refCnt := BitVec.ofNat 32 k }, []) := by
  have hne : shm.refCnt ≠ 1 := by
    rw [hcnt]
    intro hone
    have := congrArg BitVec.toNat hone
    rw [BitVec.toNat_ofNat, show (1 : Unsigned).toNat = 1 from rfl] at this
    omega
  have hsub : shm.refCnt - 1 = BitVec.ofNat 32 k := by
    rw [hcnt, BitVec.ofNat_add]
    exact add_sub_cancel_right _ _
  rw [shmUnref, if_neg hne, hsub]

/-- The last reference. -/
theorem shmUnref_last (shm : Shm) (hcnt : shm.refCnt = 1) : Settles (shmUnref shm).2 shm.owned 0 := by
  have hevents : (shmUnref shm).2 = shmDelete shm := if_pos hcnt
  have hmapping : Settles [.release .mapping]
      ({.block .shm} + {.descriptor shm.fd} + {.mapping}) ({.block .shm} + {.descriptor shm.fd}) :=
    Settles.release _
  have hfd : Settles [.release (.descriptor shm.fd)] ({.block .shm} + {.descriptor shm.fd})
      {.block .shm} := Settles.release _
  have hblock : Settles [.release (.block .shm)] {.block .shm} 0 :=
    (Settles.release _).of_eq (Multiset.zero_add _) rfl
  rw [hevents]
  refine ((hmapping.append hfd).append hblock).of_eq ?_ rfl
  rw [Shm.owned]
  abel

/-- What the deletion of an end gives back besides its reference. -/
theorem ChannelEnd.disposed_settles (role : Role) (i : Nat) (channel : ChannelEnd) :
    Settles ([.release (.block (.queue role i))] ++ closed channel.eventfd ++
      [.release (.block (.channel role i))]) (channel.owned role i) 0 := by
  have hqueue : Settles [.release (.block (.queue role i))] (channel.owned role i)
      ({.block (.channel role i)} + descriptors [channel.eventfd]) := by
    refine (Settles.release _).of_eq ?_ rfl
    rw [ChannelEnd.owned]
    abel
  have hclosed : Settles (closed channel.eventfd)
      ({.block (.channel role i)} + descriptors [channel.eventfd]) {.block (.channel role i)} :=
    ((settles_closed _).frame _).of_eq (Multiset.add_comm _ _) (Multiset.zero_add _)
  have hchannel : Settles [.release (.block (.channel role i))] {.block (.channel role i)} 0 :=
    (Settles.release _).of_eq (Multiset.zero_add _) rfl
  exact (hqueue.append hclosed).append hchannel

/-- The shared memory goes with the last reference. -/
theorem shmUnref_settles (shm : Shm) :
    Settles (shmUnref shm).2 shm.owned (if shm.refCnt = 1 then 0 else shm.owned) := by
  split
  · rename_i hlast
    exact shmUnref_last shm hlast
  · rename_i hmore
    rw [shmUnref, if_neg hmore]
    exact Settles.nil

/-- Deleting an end frees what it holds, and the shared memory with the last reference. -/
theorem ChannelEnd.delete_settles (role : Role) (i : Nat) (channel : ChannelEnd) (shm : Shm) :
    Settles (channel.delete role i shm).2 (channel.owned role i + shm.owned)
      (if shm.refCnt = 1 then 0 else shm.owned) := by
  have hshm := ((shmUnref_settles shm).frame (channel.owned role i)).of_eq
    (Multiset.add_comm _ _) rfl
  have hend := ((channel.disposed_settles role i).frame
    (if shm.refCnt = 1 then 0 else shm.owned)).of_eq (Multiset.add_comm _ _) (Multiset.zero_add _)
  have hall := hshm.append hend
  rwa [← List.append_assoc, ← List.append_assoc] at hall

/-- An end that is deleted while others keep the shared memory. -/
theorem ChannelEnd.groupRelease_settles (role : Role) (i : Nat)
    (howners : channel.owners = ownerGroupFlag)
    (hcnt : shm.refCnt = BitVec.ofNat 32 (k + 1)) (hk : 1 ≤ k) (hsmall : k < 2 ^ 32) :
    (channel.groupRelease role i shm).1 = { shm with refCnt := BitVec.ofNat 32 k } ∧
      Settles (channel.groupRelease role i shm).2 (channel.owned role i) 0 := by
  have hdelete : channel.groupRelease role i shm = channel.delete role i shm :=
    if_pos (by rw [howners]; rfl)
  rw [hdelete, ChannelEnd.delete, queueDelete, shmUnref_of_lt hcnt hk hsmall]
  exact ⟨rfl, channel.disposed_settles role i⟩

/-- Releasing the channels one after the other. -/
theorem releaseChannels_cons (role : Role) (i : Nat) (channel : ChannelEnd)
    (channels : List ChannelEnd) (shm : Shm) : releaseChannels role i (channel :: channels) shm =
      ((releaseChannels role (i + 1) channels (channel.groupRelease role i shm).1).1,
        (channel.groupRelease role i shm).2 ++
          (releaseChannels role (i + 1) channels (channel.groupRelease role i shm).1).2) := rfl

/-- The channels of a group that nobody has acquired are deleted, and each gives up its reference. -/
theorem releaseChannels_settles (role : Role) (i : Nat) (shm : Shm)
    (howners : ∀ c ∈ channels, c.owners = ownerGroupFlag)
    (hcnt : shm.refCnt = BitVec.ofNat 32 (k + channels.length)) (hk : 1 ≤ k)
    (hsmall : k + channels.length ≤ 2 ^ 32) :
    (releaseChannels role i channels shm).1 = { shm with refCnt := BitVec.ofNat 32 k } ∧
      Settles (releaseChannels role i channels shm).2 (ownedChannels role i channels) 0 := by
  induction channels generalizing i shm with
  | nil =>
    rw [List.length_nil, Nat.add_zero] at hcnt
    exact ⟨by rw [← hcnt]; rfl, Settles.nil⟩
  | cons channel channels ih =>
    rw [List.length_cons] at hcnt hsmall
    obtain ⟨hshm, hfirst⟩ := ChannelEnd.groupRelease_settles role i
      (howners channel List.mem_cons_self) (k := k + channels.length)
      (by rw [hcnt, Nat.add_assoc]) (by omega) (by omega)
    obtain ⟨hshm', hrest⟩ := ih (i + 1) (channel.groupRelease role i shm).1
      (fun c hc => howners c (List.mem_cons_of_mem _ hc)) (by rw [hshm]) (by omega)
    rw [releaseChannels_cons]
    exact ⟨by rw [hshm', hshm], (hfirst.frame _).append (hrest.of_eq (Multiset.zero_add _).symm rfl)⟩

/-- The references to the shared memory of a group: one of each channel, and its own. -/
structure Group.Counted (grp : Group) : Prop where
  refCnt : ∀ shm, grp.shm = some shm → shm.refCnt = BitVec.ofNat 32
    (1 + (elements grp.producers).length + (elements grp.consumers).length)
  noShm : grp.shm = none → elements grp.consumers = [] ∧ elements grp.producers = []
  owners : ∀ c ∈ elements grp.consumers ++ elements grp.producers, c.owners = ownerGroupFlag

variable {grp : Group}

/-- Deleting a group releases what it owns, if its references can be counted. -/
theorem groupDelete_settles (h : grp.Counted)
    (hsmall : (elements grp.consumers).length + (elements grp.producers).length < 2 ^ 32) :
    Settles (groupDelete grp) grp.owned 0 := by
  have hdata := grp.data.delete_settles
  have hgroup : Settles [.release (.block .group)] {.block .group} 0 :=
    (Settles.release _).of_eq (Multiset.zero_add _) rfl
  have hconsumers := settles_freed (.array .consumer) grp.consumers
  have hproducers := settles_freed (.array .producer) grp.producers
  unfold groupDelete
  cases hshm : grp.shm with
  | none =>
    -- without shared memory there are no channels
    obtain ⟨hc, hp⟩ := h.noShm hshm
    have hall := ((hconsumers.append_add hproducers).append_add hdata).append_add hgroup
    refine hall.of_eq ?_ rfl
    rw [Group.owned, hshm, hc, hp, ownedChannels, ownedChannels, ownedShm]
    abel
  | some shm =>
    -- The consumers give up their references, then the producers, and the group's own is the last.
    obtain ⟨hshm₁, hfirst⟩ := releaseChannels_settles .consumer 0 shm
      (fun c hc => h.owners c (List.mem_append_left _ hc)) (h.refCnt shm hshm) (by omega) (by omega)
    obtain ⟨hshm₂, hsecond⟩ := releaseChannels_settles .producer 0
      (releaseChannels .consumer 0 (elements grp.consumers) shm).1
      (fun c hc => h.owners c (List.mem_append_right _ hc)) (k := 1) (by rw [hshm₁]) (by omega)
      (by omega)
    -- So the shared memory goes with it.
    have hlast := shmUnref_last ((releaseChannels .producer 0 (elements grp.producers)
      (releaseChannels .consumer 0 (elements grp.consumers) shm).1).1) (by rw [hshm₂]; rfl)
    have howned : (releaseChannels .producer 0 (elements grp.producers)
        (releaseChannels .consumer 0 (elements grp.consumers) shm).1).1.owned = shm.owned := by
      rw [hshm₂, hshm₁]
      rfl
    have hall := (((((hfirst.append_add hconsumers).append_add hsecond).append_add
      hproducers).append_add hlast).append_add hdata).append_add hgroup
    refine hall.of_eq ?_ rfl
    rw [Group.owned, hshm, howned, ownedShm]
    abel

end delete

/-! ## The shared memory

  Each step that fails closes the descriptor, so that nothing is left. -/

section shm

variable {os : Os} {fd : Int} {size : Size}

/-- The file has this size, and can be mapped. -/
structure Os.Maps (os : Os) (fd : Int) (size : Size) : Prop where
  block : os.block .shm = true
  stat : os.fstat fd = some size
  map : ∃ mem, os.mmap fd size = some mem

/-- Everything up to the mapping succeeds, and the memory cannot be locked. -/
def Os.LockFails (os : Os) (fd : Int) : Prop := (∃ size, os.Maps fd size) ∧ os.mlock < 0

/-- What is left of a mapping that failed. -/
theorem shmMap_none (os : Os) (fd : Int) (h : (shmMap os fd).1 = none) :
    os.LockFails fd ∧ Settles (shmMap os fd).2 0 {.mapping} ∨
      ¬ os.LockFails fd ∧ Settles (shmMap os fd).2 0 0 := by
  have hblock : Settles [.acquire (.block .shm), .release (.block .shm)] 0 0 :=
    ((Settles.acquire _).append (Settles.release _))
  unfold shmMap at h ⊢
  split
  · rename_i hshm
    split
    · -- `fstat` fails, then `mmap`, then `mlock`: only behind the last of them a mapping is left
      rename_i hstat
      refine Or.inr ⟨?_, hblock⟩
      rintro ⟨⟨size, hmaps⟩, -⟩
      rw [hmaps.stat] at hstat
      cases hstat
    · rename_i size hstat
      split
      · rename_i hmap
        refine Or.inr ⟨?_, hblock⟩
        rintro ⟨⟨size', hmaps⟩, -⟩
        obtain ⟨mem, hmem⟩ := hmaps.map
        rw [hmaps.stat] at hstat
        cases hstat
        rw [hmap] at hmem
        cases hmem
      · rename_i mem hmap
        split
        · -- the lock holds, so the mapping does not fail
          rename_i hlock
          have hacquire : Settles [.acquire (.block .shm)] 0 {.block .shm} :=
            (Settles.acquire _).of_eq rfl (Multiset.zero_add _)
          have hmapping : Settles [.acquire .mapping] {.block .shm} ({.mapping} + {.block .shm}) :=
            (Settles.acquire _).of_eq rfl (Multiset.add_comm _ _)
          exact Or.inl ⟨⟨⟨size, hshm, hstat, mem, hmap⟩, hlock⟩,
            (hacquire.append hmapping).append (Settles.release _)⟩
        · rename_i hlock
          rw [if_pos hshm, hstat] at h
          simp only [hmap, if_neg hlock] at h
          cases h
  · rename_i hshm
    exact Or.inr ⟨fun ⟨⟨_, hmaps⟩, _⟩ => hshm hmaps.block, Settles.nil⟩

/-- A successful `ri_shm_map`: the mapping is locked and its size is that of the descriptor. -/
theorem shmMap_some {shm : Shm} {events : List Event} (h : shmMap os fd = (some shm, events)) :
    shm.fd = fd ∧ shm.refCnt = 1 ∧ os.Maps fd shm.size ∧ os.mmap fd shm.size = some shm.mem ∧
      ¬ os.mlock < 0 ∧ Settles events 0 ({.block .shm} + {.mapping}) := by
  unfold shmMap at h
  split at h
  · rename_i hshm
    split at h
    · cases h
    · rename_i size hstat
      split at h
      · cases h
      · rename_i mem hmap
        split at h
        · cases h
        · rename_i hlock
          cases h
          have hacquire : Settles [.acquire (.block .shm)] 0 {.block .shm} :=
            (Settles.acquire _).of_eq rfl (Multiset.zero_add _)
          exact ⟨rfl, rfl, ⟨hshm, hstat, mem, hmap⟩, hmap, hlock,
            hacquire.append (Settles.acquire _)⟩
  · cases h

/-- Everything up to the mapping of a new shared memory succeeds, and it cannot be locked. -/
def Os.NewLockFails (os : Os) (size : Size) : Prop :=
  0 ≤ os.memfdCreate ∧ 0 ≤ shmInit os size ∧ os.LockFails os.memfdCreate

/-- A descriptor that has its size and its seals, or none at all. -/
theorem shmfdCreate_cases (os : Os) (size : Size) :
    (shmfdCreate os size).1 = os.memfdCreate ∧ 0 ≤ os.memfdCreate ∧ 0 ≤ shmInit os size ∧
        Settles (shmfdCreate os size).2 0 {.descriptor os.memfdCreate} ∨
      (shmfdCreate os size).1 < 0 ∧ ¬ (0 ≤ os.memfdCreate ∧ 0 ≤ shmInit os size) ∧
        Settles (shmfdCreate os size).2 0 0 := by
  have hopen : Settles [.acquire (.descriptor os.memfdCreate)] 0 {.descriptor os.memfdCreate} :=
    (Settles.acquire _).of_eq rfl (Multiset.zero_add _)
  unfold shmfdCreate
  split
  · rename_i hneg
    exact Or.inr ⟨hneg, fun h => absurd h.1 (by omega), Settles.nil⟩
  · rename_i hfd
    split
    · rename_i hinit
      exact Or.inr ⟨hinit, fun h => absurd h.2 (by omega),
        hopen.append ((Settles.release _).of_eq (Multiset.zero_add _) rfl)⟩
    · exact Or.inl ⟨rfl, by omega, by omega, hopen⟩

/-- A failed `shm_new` has given back everything, but the mapping if `mlock` fails. -/
theorem shmNew_none (os : Os) (size : Size) (h : (shmNew os size).1 = none) :
    os.NewLockFails size ∧ Settles (shmNew os size).2 0 {.mapping} ∨
      ¬ os.NewLockFails size ∧ Settles (shmNew os size).2 0 0 := by
  rw [shmNew] at h ⊢
  rcases shmfdCreate_cases os size with ⟨hfst, hfd, hinit, hopen⟩ | ⟨hneg, hfails, hclosed⟩
  · simp only [hfst, if_neg (show ¬ os.memfdCreate < 0 by omega)] at h ⊢
    split
    · rename_i events hnone
      have hmap := shmMap_none os os.memfdCreate (by rw [hnone])
      rw [hnone] at hmap
      have hclose (rest : Multiset Resource) : Settles [.release (.descriptor os.memfdCreate)]
          (rest + {.descriptor os.memfdCreate}) rest := Settles.release _
      rcases hmap with ⟨hfails, hsettles⟩ | ⟨hfails, hsettles⟩
      · exact Or.inl ⟨⟨hfd, hinit, hfails⟩,
          (hopen.append ((hsettles.frame _).of_eq (Multiset.zero_add _) rfl)).append (hclose _)⟩
      · exact Or.inr ⟨fun hfails' => hfails hfails'.2.2,
          (hopen.append ((hsettles.frame _).of_eq (Multiset.zero_add _) rfl)).append (hclose _)⟩
    · rename_i shm events hsome
      rw [hsome] at h
      cases h
  · simp only [if_pos hneg]
    exact Or.inr ⟨fun hlock => hfails ⟨hlock.1, hlock.2.1⟩, hclosed⟩

/-- A successful `shm_new`. -/
theorem shmNew_some {shm : Shm} {events : List Event} (h : shmNew os size = (some shm, events)) :
    shm.fd = os.memfdCreate ∧ 0 ≤ os.memfdCreate ∧ 0 ≤ shmInit os size ∧ shm.refCnt = 1 ∧
      os.Maps shm.fd shm.size ∧ os.mmap shm.fd shm.size = some shm.mem ∧ ¬ os.mlock < 0 ∧
      Settles events 0 shm.owned := by
  rw [shmNew] at h
  rcases shmfdCreate_cases os size with ⟨hfst, hfd, hinit, hopen⟩ | ⟨hneg, -, -⟩
  · simp only [hfst, if_neg (show ¬ os.memfdCreate < 0 by omega)] at h
    split at h
    · cases h
    · rename_i shm' events' hsome
      cases h
      obtain ⟨hfd', hcnt, hmaps, hmem, hlock, hsettles⟩ := shmMap_some hsome
      refine ⟨hfd', hfd, hinit, hcnt, hfd' ▸ hmaps, hfd' ▸ hmem, hlock, ?_⟩
      refine (hopen.append ((hsettles.frame _).of_eq (Multiset.zero_add _) rfl)).of_eq rfl ?_
      rw [Shm.owned, hfd']
  · simp only [if_pos hneg] at h
    cases h

/-- What can be mapped and locked is mapped. -/
theorem shmMap_of_maps (h : os.Maps fd size) (hlock : ¬ os.mlock < 0) :
    ∃ shm events, shmMap os fd = (some shm, events) := by
  obtain ⟨mem, hmem⟩ := h.map
  refine ⟨{ refCnt := 1, mem := mem, size := size, fd := fd },
    [.acquire (.block .shm), .acquire .mapping], ?_⟩
  rw [shmMap, if_pos h.block, h.stat]
  simp only [hmem, if_neg hlock]

/-- When `shm_new` succeeds. -/
theorem shmNew_of_maps {mapped : Size} (hfd : 0 ≤ os.memfdCreate) (hinit : 0 ≤ shmInit os size)
    (h : os.Maps os.memfdCreate mapped) (hlock : ¬ os.mlock < 0) :
    ∃ shm events, shmNew os size = (some shm, events) := by
  obtain ⟨shm, events, hmap⟩ := shmMap_of_maps h hlock
  rcases shmfdCreate_cases os size with ⟨hfst, -, -, -⟩ | ⟨-, hfails, -⟩
  · refine ⟨shm, (shmfdCreate os size).2 ++ events, ?_⟩
    rw [shmNew]
    simp only [hfst, if_neg (show ¬ os.memfdCreate < 0 by omega), hmap]
  · exact absurd ⟨hfd, hinit⟩ hfails

end shm

/-! ## A system without failures -/

/-- Everything is granted.  The shared memory has `size` bytes behind address 4096 and is descriptor 3;
    the eventfds are the descriptors after it. -/
def Os.granting (size : Size) : Os where
  tables := Allocator.zeroed
  block _ := true
  memfdCreate := 3
  ftruncate _ := 0
  addSeals := 0
  fstat _ := some size
  mmap _ size := if size.toNat < 2 ^ 63 then some 4096 else none
  mlock := 0
  eventfdCreate role i := match role with
    | .consumer => 4 + 2 * i
    | .producer => 5 + 2 * i
  memfdVerify fd := if fd < 0 then -1 else 0
  memfdVerify_neg fd h := by
    rw [if_pos h]
    decide
  eventfdVerify _ := 0
  setNonblocking _ := 0

end Rtipc
