/-
  What `ri_group_deserialize` does with the array of descriptors when it returns a group.

  The descriptors that the channels need are taken from the front of the array, and each becomes that of
  one object.  The ones behind stay where they are, open, and `*n_fds` is not written.  So the hand-over
  that the documentation promises takes place exactly if there are none.

  1. **The statement.**  `handedOver_iff`: a call that returns a group leaves the array as `rtipc.h`
     promises (`HandedOver`) if and only if there are exactly as many descriptors as the memory and the
     eventfds of the request need.

  2. **Where it fails.**  `surplus_stays` is a request with one channel and no eventfd, and two
     descriptors.  The second of them stays in the array, open, and the number in `*n_fds` is not that
     of the descriptors that have been consumed.

  3. **The crux.**  `groupDeserialize_fds` gives the array after the call in full: -1 for each
     descriptor that a channel or the memory has taken, and then the rest as it was.
-/
import Rtipc.Deserialize
import Rtipc.RequestWalks

namespace Rtipc

/-- The descriptors that the objects of a group hold: the shared memory, and the channels that have an
    eventfd. -/
def Group.held (grp : Group) : List Int :=
  (grp.shm.map (·.fd)).toList ++ (eventfds (grp.ends .consumer) ++ eventfds (grp.ends .producer))

/-- The descriptors a group has: the shared memory first, then the eventfds. -/
theorem Group.held_eq {grp : Group} {shm : Shm} (h : grp.shm = some shm) :
    grp.held = shm.fd :: (eventfds (grp.ends .consumer) ++ eventfds (grp.ends .producer)) := by
  rw [Group.held, h]
  rfl

/-- The array of descriptors has been handed over to the group. -/
structure HandedOver (fds : List Int) (d : Deserialized) (grp : Group) : Prop where
  /-- All entries are -1. -/
  cleared : ∀ fd ∈ elements d.fds, fd = -1
  /-- `*n_fds` counts the descriptors that have been consumed. -/
  count : ∃ n, d.nFds = some n ∧ n.toNat = grp.held.length
  /-- The descriptors that have been consumed are those of the objects, one each. -/
  consumed : fds.take grp.held.length = grp.held
  /-- Each of the others has been closed once. -/
  settles : Settles d.events (descriptors fds) grp.owned

section handOver

variable {os : Os} {cls : Size} {req : List Byte} {size : Size} {bs : Wire} {fds : List Int}
  {n : Unsigned} {d : Deserialized} {grp : Group}

/-- Cleared places hold nothing. -/
theorem descriptors_replicate (k : Nat) : descriptors (List.replicate k (-1)) = 0 := by
  induction k with
  | zero => rfl
  | succ k ih =>
    rw [List.replicate_succ, descriptors_of_neg (show (-1 : Int) < 0 by decide), ih]

/-- The number of channels of the request that have an eventfd. -/
def Wire.countEventfds (bs : Wire) : Nat := (bs.consumers ++ bs.producers).countP (·.eventfd)

/-- Each channel that is to have an eventfd has taken one. -/
theorem length_eventfds_of_bare {first : Role} {shm : Shm} (h : grp.Built cls first shm) {role : Role}
     (hattrs : (grp.data.attrs role).map ChannelAttr.bare =
      (bs.channels role).map ChannelAttr.bare) :
    (eventfds (grp.ends role)).length = (bs.channels role).countP (·.eventfd) := by
  have hbare (attrs : List (ChannelAttr InfoPtr)) :
      (attrs.map ChannelAttr.bare).countP (·.eventfd) = attrs.countP (·.eventfd) := by
    rw [List.countP_map]
    rfl
  rw [(h.eventfds role).length_eventfds, ← hbare, hattrs, hbare]

/-- What has happened to the array. -/
theorem groupDeserialize_fds (hgiven : Given req size bs)
    (h : groupDeserialize os cls req size (some fds) (some n) = .ok d) (hgrp : d.grp = some grp) :
    ∃ after, fds = grp.held ++ after ∧
      d.fds = some (List.replicate grp.held.length (-1) ++ after) ∧ d.nFds = some n ∧
      grp.held.length = 1 + bs.countEventfds ∧
      Settles d.events (descriptors fds) (grp.owned + descriptors after) := by
  obtain ⟨n', data, shmfd, rest, rest', shm, hn, hnFds, hfds, hfds', hmapped, -, hattrs, hsettles⟩ :=
    groupDeserialize_some hgiven h hgrp
  cases hn
  cases hfds
  obtain ⟨s, t, hs, hidx, ht, before, after, htaken⟩ := hmapped.taken
  have hheld : grp.held = shmfd ::
      (eventfds (grp.ends .consumer) ++ eventfds (grp.ends .producer)) := by
    rw [Group.held_eq hmapped.built.mapping, hmapped.fd]
  set taken := eventfds (grp.ends .consumer) ++ eventfds (grp.ends .producer) with hdef
  -- the front of the array is the descriptor of the shared memory alone
  have hbefore := htaken.idx
  rw [hidx, show (1 : Unsigned).toNat = 1 from rfl] at hbefore
  obtain ⟨fd, rfl⟩ := List.length_eq_one_iff.mp hbefore
  have hsplit := htaken.fds
  rw [hs] at hsplit
  obtain ⟨rfl, rfl⟩ := List.cons.inj hsplit
  have hrest' : rest' = List.replicate grp.held.length (-1) ++ after := by
    rw [← ht, htaken.fds', hheld, List.length_cons, List.replicate_succ]
    rfl
  have hdata : grp.data = data := hmapped.data
  refine ⟨after, ?_, ?_, hnFds, ?_, ?_⟩
  · rw [hheld]
    rfl
  · rw [hfds', hrest']
  · have hconsumers := length_eventfds_of_bare hmapped.built (hdata ▸ hattrs .consumer)
    have hproducers := length_eventfds_of_bare hmapped.built (hdata ▸ hattrs .producer)
    rw [hheld, List.length_cons, hdef, List.length_append, hconsumers, hproducers,
      Wire.countEventfds, List.countP_append, Nat.add_comm]
    rfl
  · refine hsettles.of_eq rfl ?_
    rw [hrest', descriptors_append, descriptors_replicate, Multiset.zero_add, Multiset.add_comm]

/-- The array is handed over if and only if it has no more descriptors than the shared memory and the
    channels need. -/
theorem handedOver_iff (hgiven : Given req size bs) (hlen : fds.length = n.toNat)
    (h : groupDeserialize os cls req size (some fds) (some n) = .ok d) (hgrp : d.grp = some grp) :
    HandedOver fds d grp ↔ n.toNat = 1 + bs.countEventfds := by
  obtain ⟨after, hfds, hfds', hn, hcount, hsettles⟩ := groupDeserialize_fds hgiven h hgrp
  constructor
  · intro hover
    obtain ⟨n', hn', hheld⟩ := hover.count
    rw [hn] at hn'
    cases hn'
    rw [hheld, hcount]
  · intro hexact
    obtain rfl : after = [] := by
      have hlength := congrArg List.length hfds
      rw [List.length_append] at hlength
      exact List.length_eq_zero_iff.mp (by omega)
    rw [List.append_nil] at hfds
    refine ⟨fun fd hfd => ?_, ⟨n, hn, by omega⟩, ?_, ?_⟩
    · rw [hfds', List.append_nil] at hfd
      exact List.eq_of_mem_replicate hfd
    · rw [hfds, List.take_length]
    · exact hsettles.of_eq rfl (Multiset.add_zero _)

end handOver

/-- The group of a request of one channel without an eventfd, from an array of one or two
    descriptors. -/
theorem groupDeserialize_spare : (∃ d grp,
    groupDeserialize (Os.granting 4096) 64 (requestOfChannel 8) 36 (some [3]) (some 1) = .ok d ∧
      d.grp = some grp) ∧
    ∃ d grp,
      groupDeserialize (Os.granting 4096) 64 (requestOfChannel 8) 36 (some [3, 4]) (some 2) = .ok d ∧
        d.grp = some grp ∧ elements d.fds = [-1, 4] := ⟨⟨_, _, rfl, rfl⟩, ⟨_, _, rfl, rfl, rfl⟩⟩

/-- One descriptor is what the shared memory needs. -/
theorem handedOver_iff_memory : ∃ d grp,
    groupDeserialize (Os.granting 4096) 64 (requestOfChannel 8) 36 (some [3]) (some 1) = .ok d ∧
      d.grp = some grp ∧ HandedOver [3] d grp := by
  obtain ⟨⟨d, grp, h, hgrp⟩, -⟩ := groupDeserialize_spare
  exact ⟨d, grp, h, hgrp, (handedOver_iff (requestOfChannel_given 8) rfl h hgrp).mpr (by decide)⟩

/-- A second one stays in the array. -/
theorem surplus_stays : ¬ ∀ (os : Os) (cls : Size) (req : List Byte) (size : Size) (bs : Wire)
    (fds : List Int) (n : Unsigned) (d : Deserialized) (grp : Group),
    Given req size bs → fds.length = n.toNat →
      groupDeserialize os cls req size (some fds) (some n) = .ok d → d.grp = some grp →
        HandedOver fds d grp := by
  intro hall
  obtain ⟨-, d, grp, h, hgrp, hfds⟩ := groupDeserialize_spare
  have hover := hall (Os.granting 4096) 64 (requestOfChannel 8) 36 _ [3, 4] 2 d grp
    (requestOfChannel_given 8) rfl h hgrp
  have hcleared := hover.cleared 4 (by rw [hfds]; decide)
  exact absurd hcleared (by decide)

end Rtipc
