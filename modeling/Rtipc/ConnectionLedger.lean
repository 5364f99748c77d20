/-
  What a connection leaves behind.

  A server holds the descriptors that come with a request until its group takes them, and
  `ri_uxmsg_delete` closes the others; a client holds nothing but its group.  So if a group is returned
  the process holds what the group holds, and if none is, nothing, unless the construction of the group
  has lost something (`connection_settles`).

  The array of a message has 253 entries, whatever comes with it.  The entries behind the ones that have
  come are not touched (`groupDeserialize_padded`), so the request is read as with an array of just the
  right length.

  The proof follows a message from `recvmsg` to the last `close`.  `Uxmsg.Received` is what a successful
  receive leaves: the descriptors that came, and zeros up to the 253 entries.  `groupDeserialize_padded`
  says that deserialising reads the same and leaves the padding as it was: it is shown from the loop
  that takes eventfds outwards.  Then `ri_uxmsg_delete` closes what is still in the array; a zero is not
  closed, so a descriptor 0 that came with the message would be lost, which is why the second server
  clause asks for none.

  The blocks of the message and of the response are acquired and released within the calls of
  `src/unix.c`; the ledger here is about descriptors, mappings and the blocks of the groups.
-/
import Rtipc.Connect
import Rtipc.HandOver

namespace Rtipc

/-! ## Entries behind the array

  The array of a message has 253 entries, and only the first of them are descriptors that have come.
  The entries behind them are neither read nor written. -/

section fill

variable {σ : Type} {step : Nat → ChannelAttr InfoPtr → σ → Checked (Option ChannelEnd × σ × List Event)}

/-- A loop whose rounds do not notice the difference between `s` and `f s` does not notice it either. -/
theorem fillChannels_map {f : σ → σ} {P : σ → Prop}
    (hstep : ∀ i attr s, P s →
      step i attr (f s) = (step i attr s).map fun y => (y.1, f y.2.1, y.2.2))
    (hP : ∀ {i attr s channel t events}, P s → step i attr s = .ok (channel, t, events) → P t) :
    ∀ (n i : Nat) (attrs : List (ChannelAttr InfoPtr)) (s : σ), P s →
      fillChannels step n i attrs (f s) =
        (fillChannels step n i attrs s).map fun y => (y.1, y.2.1, f y.2.2.1, y.2.2.2) := by
  -- The induction is on the channels still to be made; the property of the cursor goes along.
  intro n
  induction n with
  | zero =>
    intro i attrs s hs
    rfl
  | succ n ih =>
    intro i attrs s hs
    cases attrs with
    | nil => rfl
    | cons attr attrs =>
      rw [fillChannels, fillChannels, hstep i attr s hs]
      cases hround : step i attr s with
      | error e => rfl
      | ok y =>
        obtain ⟨channel, t, events⟩ := y
        cases channel with
        | none => rfl
        | some channel =>
          show (fillChannels step n (i + 1) attrs (f t) >>= _) = _
          rw [ih (i + 1) attrs t (hP hs hround)]
          show _ = ((fillChannels step n (i + 1) attrs t >>= _) : Checked _).map _
          cases fillChannels step n (i + 1) attrs t with
          | error e => rfl
          | ok z => rfl

end fill

section padded

variable {os : Os} {cls : Size} {n : Unsigned} {fds : List Int} (pad : List Int)

/-- The cursor over a longer array, with `pad` behind the entries it knows. -/
def FdCursor.padded (s : FdCursor) : FdCursor := { s with fds := s.fds ++ pad }

/-- An entry below `n` is taken or not as before, and an index from `n` on fails as before. -/
theorem takeEventfd_padded (idx : Unsigned) (hlen : fds.length = n.toNat) :
    takeEventfd os idx (fds ++ pad) n =
      (takeEventfd os idx fds n).map fun y => (y.1, y.2 ++ pad) := by
  unfold takeEventfd
  by_cases hout : idx ≥ n
  · rw [if_pos hout, if_pos hout]
    rfl
  · have hin : idx.toNat < fds.length := by
      rw [hlen]
      exact BitVec.lt_def.mp (BitVec.not_le.mp hout)
    rw [if_neg hout, if_neg hout, List.getElem?_append_left hin, List.getElem?_eq_getElem hin,
      List.set_append_left _ _ hin]
    dsimp only
    split
    · rfl
    · split
      · rfl
      · split
        · rfl
        · rfl

/-- So a channel takes the same eventfd. -/
theorem FdCursor.takeEventfd_padded (attr : ChannelAttr InfoPtr) (s : FdCursor)
    (hlen : s.fds.length = n.toNat) :
    (s.padded pad).takeEventfd os n attr =
      (s.takeEventfd os n attr).map fun y => (y.1, y.2.padded pad) := by
  unfold FdCursor.takeEventfd
  split
  · show (Rtipc.takeEventfd os s.idx (s.fds ++ pad) n >>= _) = _
    rw [Rtipc.takeEventfd_padded pad s.idx hlen]
    cases Rtipc.takeEventfd os s.idx s.fds n with
    | error e => rfl
    | ok y => rfl
  · rfl

/-- So it is mapped in the same way. -/
theorem mapChannel_padded (role : Role) (i : Nat) (attr : ChannelAttr InfoPtr) (s : FdCursor)
    (hlen : s.fds.length = n.toNat) :
    mapChannel os cls n role i attr (s.padded pad) =
      (mapChannel os cls n role i attr s).map fun y => (y.1, y.2.1.padded pad, y.2.2) := by
  unfold mapChannel
  rw [s.takeEventfd_padded pad attr hlen]
  cases s.takeEventfd os n attr with
  | error e => rfl
  | ok y =>
    obtain ⟨eventfd, t⟩ := y
    show (if attr.eventfd ∧ eventfd < 0 then _ else _) =
      ((if attr.eventfd ∧ eventfd < 0 then _ else _ : Checked _)).map _
    split
    · rfl
    · dsimp only [FdCursor.padded]
      rcases channelMap os cls role i attr eventfd t.shm t.offset with ⟨_ | made, events⟩
      · rfl
      · rfl

/-- So are all channels of one role, as none of them shortens the array. -/
theorem mapChannels_padded (role : Role) (k i : Nat) (attrs : List (ChannelAttr InfoPtr)) (s : FdCursor)
    (hlen : s.fds.length = n.toNat) :
    fillChannels (mapChannel os cls n role) k i attrs (s.padded pad) =
      (fillChannels (mapChannel os cls n role) k i attrs s).map
        fun y => (y.1, y.2.1, y.2.2.1.padded pad, y.2.2.2) := by
  refine fillChannels_map (P := fun s => s.fds.length = n.toNat) ?_ ?_ k i attrs s hlen
  · exact fun i attr s hs => mapChannel_padded pad role i attr s hs
  · intro i attr s channel t events hs hround
    exact (mapChannel_fdsKept hround).length_eq.symm.trans hs

/-- So are the channels of both roles. -/
theorem groupMapChannels_padded (grp : Group) (shm : Shm) (hlen : fds.length = n.toNat) :
    groupMapChannels os cls grp shm (fds ++ pad) n =
      (groupMapChannels os cls grp shm fds n).map fun y =>
        (y.1, y.2.1, y.2.2.1 ++ pad, y.2.2.2) := by
  unfold groupMapChannels
  have hconsumers := @mapChannels_padded os cls n pad .consumer grp.data.nConsumers.toNat 0
    (elements grp.data.consumers) { shm := shm, offset := 0, fds := fds, idx := 1 } hlen
  rw [show FdCursor.padded pad _ = { shm := shm, offset := 0, fds := fds ++ pad, idx := 1 } from rfl]
    at hconsumers
  rw [hconsumers]
  cases hfill : fillChannels (mapChannel os cls n .consumer) grp.data.nConsumers.toNat 0
      (elements grp.data.consumers) { shm := shm, offset := 0, fds := fds, idx := 1 } with
  | error e => rfl
  | ok y =>
    obtain ⟨filled, consumers, s, events⟩ := y
    cases filled with
    | false => rfl
    | true =>
      -- The first loop leaves the length of the array alone, so the padding stays out of reach of the
      -- second.
      have hs : s.fds.length = n.toNat := (fillChannels_fdsKept hfill).length_eq.symm.trans hlen
      have hproducers := @mapChannels_padded os cls n pad .producer
        grp.data.nProducers.toNat 0 (elements grp.data.producers) s hs
      show (fillChannels (mapChannel os cls n .producer) grp.data.nProducers.toNat 0
        (elements grp.data.producers) (s.padded pad) >>= _) = ((fillChannels
          (mapChannel os cls n .producer) grp.data.nProducers.toNat 0 (elements grp.data.producers) s
            >>= _) : Checked _).map _
      rw [hproducers]
      cases fillChannels (mapChannel os cls n .producer) grp.data.nProducers.toNat 0
          (elements grp.data.producers) s with
      | error e => rfl
      | ok z => rfl

/-- So is the group; the shared memory is the first entry in any case. -/
theorem groupMap_padded (grp : Group) (hlen : fds.length = n.toNat) :
    groupMap os cls grp (some (fds ++ pad)) n =
      (groupMap os cls grp (some fds) n).map fun y =>
        (y.1, y.2.1, y.2.2.1.map (· ++ pad), y.2.2.2) := by
  cases fds with
  | nil =>
    -- nothing has come, and nothing is looked at
    have hn : n < 1 := BitVec.lt_def.mpr (by
      rw [← hlen]
      decide)
    cases pad with
    | nil =>
      unfold groupMap
      rw [List.append_nil, if_pos hn]
      rfl
    | cons fd pad =>
      rw [List.nil_append, groupMap, groupMap, if_pos hn, if_pos hn]
      rfl
  | cons shmfd rest =>
    have hrest : (-1 :: rest).length = n.toNat := hlen
    rw [List.cons_append, groupMap, groupMap]
    split
    · rfl
    · split
      · rfl
      · rcases shmMap os shmfd with ⟨_ | shm, events⟩
        · rfl
        · show (groupMapChannels os cls grp shm (-1 :: rest ++ pad) n >>= _) =
            ((groupMapChannels os cls grp shm (-1 :: rest) n >>= _) : Checked _).map _
          rw [groupMapChannels_padded pad grp shm hrest]
          cases groupMapChannels os cls grp shm (-1 :: rest) n with
          | error e => rfl
          | ok y => rfl

/-- The same result, of a call that was given the entries `pad` behind the descriptors. -/
def Deserialized.padded (d : Deserialized) : Deserialized := { d with fds := d.fds.map (· ++ pad) }

/-- What stands behind the descriptors that have come is neither read nor written. -/
theorem groupDeserialize_padded (req : List Byte) (size : Size) (hlen : fds.length = n.toNat) :
    groupDeserialize os cls req size (some (fds ++ pad)) (some n) =
      (groupDeserialize os cls req size (some fds) (some n)).map (Deserialized.padded pad) := by
  unfold groupDeserialize
  dsimp only
  split
  · rfl
  · split
    · rfl
    · -- The array is not looked at until the channels are mapped.
      cases requestParse cls os.tables req size with
      | error e => rfl
      | ok parsed =>
        show (if parsed.r < 0 then _ else _) = ((if parsed.r < 0 then _ else _ : Checked _)).map _
        split
        · rfl
        · rcases groupAllocChannels os
            { data := parsed.data, shm := none, consumers := none, producers := none } with
            ⟨r, grp, arrays⟩
          show (if r < 0 then _ else _) = ((if r < 0 then _ else _ : Checked _)).map _
          split
          · rfl
          · show (groupMap os cls grp (some (fds ++ pad)) n >>= _) =
              ((groupMap os cls grp (some fds) n >>= _) : Checked _).map _
            rw [groupMap_padded pad grp hlen]
            cases groupMap os cls grp (some fds) n with
            | error e => rfl
            | ok y =>
              obtain ⟨r', grp', fds', events⟩ := y
              show (if r' < 0 then _ else _) = ((if r' < 0 then _ else _ : Checked _)).map _
              split
              · rfl
              · rfl

end padded

/-! ## What is left of the array

  `ri_uxmsg_delete` closes the entries above 0; a descriptor 0 would stay open. -/

/-- What `ri_uxmsg_delete` closes. -/
def closedAbove (fds : List Int) : List Event :=
  (fds.filter fun fd => fd > 0).map fun fd => .release (.descriptor fd)

/-- The entries that it leaves although they are descriptors. -/
def leftOpen (fds : List Int) : List Int := fds.filter fun fd => fd = 0

/-- Of the descriptors that have come, `ri_uxmsg_delete` closes those above 0. -/
theorem settles_closedAbove (fds : List Int) :
    Settles (closedAbove fds) (descriptors fds) (descriptors (leftOpen fds)) := by
  induction fds with
  | nil => exact Settles.nil
  | cons fd fds ih =>
    rcases lt_trichotomy fd 0 with hneg | rfl | hpos
    · rw [closedAbove, leftOpen, List.filter_cons_of_neg (by simpa using hneg.le),
        List.filter_cons_of_neg (by simpa using hneg.ne), descriptors_of_neg hneg]
      exact ih
    · rw [closedAbove, leftOpen, List.filter_cons_of_neg (by decide), List.filter_cons_of_pos (by decide),
        descriptors_cons, descriptors_cons 0 (List.filter _ fds), Multiset.add_comm,
        Multiset.add_comm (descriptors [0])]
      exact ih.frame _
    · have hone : descriptors [fd] = {.descriptor fd} := by
        rw [descriptors, if_pos hpos.le, descriptors, Multiset.add_zero]
      rw [closedAbove, leftOpen, List.filter_cons_of_pos (by simpa using hpos),
        List.filter_cons_of_neg (by simpa using hpos.ne'), descriptors_cons, hone, Multiset.add_comm]
      exact (Settles.release _).append ih

/-- It leaves none open if 0 is not among them. -/
theorem leftOpen_eq_nil {fds : List Int} (h : 0 ∉ fds) : leftOpen fds = [] := by
  refine List.filter_eq_nil_iff.mpr fun fd hfd => ?_
  rintro hzero
  exact h (of_decide_eq_true hzero ▸ hfd)

/-- Entries that have been taken are not open. -/
theorem leftOpen_replicate (k : Nat) (fds : List Int) :
    leftOpen (List.replicate k (-1) ++ fds) = leftOpen fds := by
  have hnone : leftOpen (List.replicate k (-1)) = [] := by
    refine leftOpen_eq_nil fun hzero => ?_
    exact absurd (List.eq_of_mem_replicate hzero) (by decide)
  rw [leftOpen, List.filter_append]
  exact congrArg (· ++ leftOpen fds) hnone

/-- No entry of the array becomes 0. -/
theorem FdsKept.zero {fds fds' : List Int} (h : FdsKept fds fds') (hzero : 0 ∉ fds) : 0 ∉ fds' := by
  induction h with
  | nil => exact hzero
  | cons hfirst _ ih =>
    rw [List.mem_cons, not_or] at hzero ⊢
    refine ⟨?_, ih hzero.2⟩
    rcases hfirst with rfl | rfl
    · exact hzero.1
    · decide

/-- It acquires nothing. -/
theorem releasing_closedAbove (fds : List Int) : Releasing (closedAbove fds) := by
  intro e he
  obtain ⟨fd, -, rfl⟩ := List.mem_map.mp he
  exact ⟨_, rfl⟩

/-- Events that acquire nothing are releases, as far as the ledger goes. -/
theorem Releasing.moves {events : List Event} (h : Releasing events) :
    ∃ rs : List Resource, events.filterMap Event.move = rs.map .release := by
  induction events with
  | nil => exact ⟨[], rfl⟩
  | cons e events ih =>
    obtain ⟨rs, hrs⟩ := ih fun e he => h e (List.mem_cons_of_mem _ he)
    obtain ⟨r, rfl⟩ := h e List.mem_cons_self
    exact ⟨r :: rs, congrArg (Move.release r :: ·) hrs⟩

/-- Two parts of a clean-up may be exchanged: what is left does not depend on the order. -/
theorem Releasing.comm {events first second : List Event} {pre post : Multiset Resource}
    (h : Releasing first) (h' : Releasing second) :
    Settles (events ++ first ++ second) pre post ↔ Settles (events ++ second ++ first) pre post := by
  obtain ⟨rs, hrs⟩ := h.moves
  obtain ⟨rs', hrs'⟩ := h'.moves
  simp only [Settles, List.filterMap_append, hrs, hrs']
  exact Ledger.settles_releases_comm

/-! ## A group that is deleted again -/

/-- What is left to do when the group is no longer needed. -/
def deleteGroup : Option Group → List Event
  | none => []
  | some grp => groupDelete grp

section deserialized

variable {os : Os} {cls : Size} {req : List Byte} {size : Size} {bs : Wire} {fds : Option (List Int)}
  {n : Unsigned} {nFds : Option Unsigned} {d : Deserialized} {grp : Group}

/-- A group that is returned has got its block and its arrays. -/
theorem groupDeserialize_grants {parsed : Parsed} (hpos : ¬ n < 1)
    (hparse : requestParse cls os.tables req size = .ok parsed) (hr : 0 ≤ parsed.r)
    (h : groupDeserialize os cls req size fds (some n) = .ok d) (hgrp : d.grp = some grp) :
    os.block .group = true ∧ os.GrantsArrays parsed.data := by
  unfold groupDeserialize at h
  dsimp only at h
  rw [if_neg hpos] at h
  cases hgroup : os.block .group with
  | false =>
    rw [hgroup] at h
    cases h
    cases hgrp
  | true =>
    refine ⟨rfl, ?_⟩
    by_contra harrays
    obtain ⟨arrays, halloc, -⟩ := groupAllocChannels_refused harrays
    rw [hgroup, hparse] at h
    replace h : (if parsed.r < 0 then _ else _ : Checked Deserialized) = _ := h
    rw [if_neg (not_lt.mpr hr), ← Group.ofData, halloc] at h
    cases h
    cases hgrp

/-- `ri_group_map` leaves each entry as it is, or takes it and leaves -1. -/
theorem groupMap_kept {data : GroupData} {fds : List Int} {fds' : Option (List Int)} {r : Int}
    {events : List Event} (hpos : ¬ n < 1)
    (h : groupMap os cls (Group.withArrays data) (some fds) n = .ok (r, grp, fds', events)) :
    ∃ rest, fds' = some rest ∧ FdsKept fds rest := by
  have hkept := (groupMap_settles rfl hpos h).1
  cases groupMap_way hpos h with
  | refused => exact ⟨_, rfl, hkept⟩
  | noShm => exact ⟨_, rfl, hkept⟩
  | mapped => exact ⟨_, rfl, hkept⟩

/-- The array that is left has the entries of the one before, or -1. -/
theorem groupDeserialize_kept {fds : List Int}
    (h : groupDeserialize os cls req size (some fds) nFds = .ok d) :
    ∃ rest, d.fds = some rest ∧ FdsKept fds rest := by
  cases groupDeserialize_way h with
  | stopped hpos _ _ _ _ _ hmap => exact groupMap_kept hpos hmap
  | made hpos _ _ _ hmap => exact groupMap_kept hpos hmap
  | _ => exact ⟨_, rfl, FdsKept.refl _⟩

/-- A group that is returned and deleted at once releases everything exactly once, under the same
    condition as one that is not returned. -/
theorem groupDeserialize_deleted_iff (hgiven : Given req size bs)
    (h : groupDeserialize os cls req size fds nFds = .ok d) (hgrp : d.grp = some grp) :
    Deserialized.Clean { d with grp := none, events := d.events ++ groupDelete grp } fds ↔
      ¬ DeserializeLeaks os cls req size bs fds nFds := by
  cases groupDeserialize_way h with
  | made hpos hparse hr hsettles hmap =>
    cases hgrp
    obtain ⟨hgroup, harrays⟩ := groupDeserialize_grants hpos hparse hr h rfl
    exact deserialize_map_clean_iff hgiven hpos hgroup hparse hr harrays hsettles hmap
  | _ => cases hgrp

end deserialized

/-! ## The server -/

section server

variable {os : Os} {cls : Size} {buffers : Buffers} {peer : Peer} {req : Uxmsg}
  {filter : Option (GroupAttr (List Byte) → Unsigned → Unsigned → Bool)} {a : Accepted}

/-- How many descriptors have come. -/
def Peer.nFds (peer : Peer) : Unsigned := BitVec.ofNat 32 peer.control.length

/-- `recvmsg` returns an `int`, and hands over 253 descriptors at most. -/
structure Peer.Posix (peer : Peer) : Prop where
  peek : peer.peek < 2 ^ 31
  control : peer.control.length ≤ scmMaxFd.toNat

/-- A message that has been received, with its descriptors at the front of the array. -/
structure Uxmsg.Received (peer : Peer) (req : Uxmsg) : Prop where
  dir : req.dir = .rx
  given : Given req.data req.size req.data
  fds : ∃ pad, req.fds = peer.control ++ pad
  nFds : req.nFds = peer.nFds

/-- The number of descriptors fits into an `unsigned`. -/
theorem Peer.Posix.nFds (h : peer.Posix) : peer.control.length = peer.nFds.toNat := by
  rw [Peer.nFds, BitVec.toNat_ofNat]
  exact (Nat.mod_eq_of_lt (h.control.trans_lt (by decide))).symm

/-- What `ri_uxmsg_receive` returns if it succeeds: the whole message, in a block of its size, and the
    descriptors at the front of the array. -/
theorem uxmsgReceive_received (hpeer : peer.Posix) (h : uxmsgReceive buffers peer = some req) :
    req.Received peer := by
  unfold uxmsgReceive at h
  split at h
  · cases h
  · rename_i hpeek
    unfold uxmsgNew at h
    cases hblock : buffers.uxmsg (BitVec.ofInt 64 peer.peek) with
    | none =>
      rw [hblock] at h
      cases h
    | some block =>
      rw [hblock] at h
      dsimp only at h
      split at h
      · cases h
      · obtain rfl := Option.some.inj h
        have hlength := buffers.uxmsg_length _ _ hblock
        have hsize : (BitVec.ofInt 64 peer.peek).toNat ≤ ptrdiffMax := by
          have := hpeer.peek
          rw [BitVec.toNat_ofInt, ptrdiffMax]
          omega
        have hdata : (received peer.message block).length = (BitVec.ofInt 64 peer.peek).toNat := by
          rw [received, List.length_append, List.length_take, List.length_drop]
          omega
        refine ⟨rfl, ⟨hdata.ge, hdata.trans_le hsize, ?_⟩, ⟨_, rfl⟩, rfl⟩
        exact List.take_of_length_le hdata.le

/-- The number that `ri_uxmsg_fds` gives for a received message is that of the descriptors that have
    come. -/
theorem Uxmsg.Received.numFds (h : req.Received peer) : uxmsgNumFds req = peer.nFds := by
  rw [uxmsgNumFds, if_pos h.dir, h.nFds]

/-- The descriptors that no channel has taken are closed. -/
theorem Uxmsg.Received.delete (h : req.Received peer) {rest : List Int} (pad : List Int)
    (hlen : rest.length = peer.nFds.toNat) :
    uxmsgDelete { req with fds := rest ++ pad } = closedAbove rest := by
  rw [uxmsgDelete, if_pos h.dir, h.nFds, ← hlen, List.take_left]
  rfl

/-- The request is read as with an array of just the descriptors that have come. -/
theorem Uxmsg.Received.deserialize (h : req.Received peer) (hpeer : peer.Posix) :
    ∃ pad, req.fds = peer.control ++ pad ∧
      groupDeserialize os cls req.data req.size (some req.fds) (some (uxmsgNumFds req)) =
        (groupDeserialize os cls req.data req.size (some peer.control) (some peer.nFds)).map
          (Deserialized.padded pad) := by
  obtain ⟨pad, hfds⟩ := h.fds
  refine ⟨pad, hfds, ?_⟩
  rw [h.numFds, hfds, groupDeserialize_padded pad _ _ hpeer.nFds]

/-- How a request that has been received is answered. -/
theorem serverSocketAccept_cases (hpeer : peer.Posix) (hreceive : uxmsgReceive buffers peer = some req)
    (h : serverSocketAccept os cls buffers peer filter = .ok a) :
    ∃ d rest, groupDeserialize os cls req.data req.size (some peer.control) (some peer.nFds) = .ok d ∧
      d.fds = some rest ∧ FdsKept peer.control rest ∧
      (d.grp = none ∧ a.grp = none ∧ a.events = d.events ++ closedAbove rest ∨
        ∃ grp, d.grp = some grp ∧ (a.grp = some grp ∧ a.events = d.events ++ closedAbove rest ∨
          a.grp = none ∧ a.events = d.events ++ groupDelete grp ++ closedAbove rest)) := by
  have hreceived := uxmsgReceive_received hpeer hreceive
  -- The array has 253 entries, and the padding changes nothing.
  obtain ⟨pad, -, hread⟩ := @Uxmsg.Received.deserialize os cls peer req hreceived hpeer
  rw [serverSocketAccept, hreceive] at h
  obtain ⟨⟨grp, req', events⟩, hrequest, h⟩ := checkedBind_ok.mp h
  obtain ⟨padded, hpadded, hret⟩ := checkedBind_ok.mp hrequest
  rw [hread] at hpadded
  cases hd : groupDeserialize os cls req.data req.size (some peer.control) (some peer.nFds) with
  | error e =>
    rw [hd] at hpadded
    cases hpadded
  | ok d =>
    rw [hd] at hpadded
    cases hpadded
    obtain ⟨rest, hrest, hkept⟩ := groupDeserialize_kept hd
    have hlen : rest.length = peer.nFds.toNat := hkept.length_eq.symm.trans hpeer.nFds
    refine ⟨d, rest, rfl, hrest, hkept, ?_⟩
    rw [Deserialized.padded, hrest] at hret
    cases hret
    -- `ri_uxmsg_delete` closes what is left in it.
    have hdelete : uxmsgDelete { req with fds := rest ++ pad } = closedAbove rest :=
      hreceived.delete pad hlen
    cases hgrp : d.grp with
    | none =>
      simp only [hgrp] at h
      cases h
      exact Or.inl ⟨rfl, rfl, congrArg (d.events ++ ·) hdelete⟩
    | some grp =>
      -- Without a filter the group is returned; a filter may refuse it, and then it is deleted.
      refine Or.inr ⟨grp, rfl, ?_⟩
      simp only [hgrp] at h
      split at h
      all_goals
        split at h
        · cases h
          exact Or.inl ⟨rfl, congrArg (d.events ++ ·) hdelete⟩
        · cases h
          exact Or.inr ⟨rfl, congrArg (d.events ++ groupDelete grp ++ ·) hdelete⟩

/-- A server that returns a group holds the group, and what it has not closed. -/
theorem serverSocketAccept_owned (hpeer : peer.Posix)
    (hreceive : uxmsgReceive buffers peer = some req)
    (h : serverSocketAccept os cls buffers peer filter = .ok a) {grp : Group} (hgrp : a.grp = some grp) :
    ∃ after, peer.control = grp.held ++ after ∧
      Settles a.events (descriptors peer.control) (grp.owned + descriptors (leftOpen after)) := by
  have hgiven := (uxmsgReceive_received hpeer hreceive).given
  obtain ⟨d, rest, hd, hrest, -, hcases⟩ := serverSocketAccept_cases hpeer hreceive h
  rcases hcases with ⟨-, hnone, -⟩ | ⟨grp', hgrp', ⟨hsome, hevents⟩ | ⟨hnone, -⟩⟩
  · cases hgrp.symm.trans hnone
  · cases hgrp.symm.trans hsome
    obtain ⟨after, hcontrol, hfds, -, -, hsettles⟩ := groupDeserialize_fds hgiven hd hgrp'
    cases hrest.symm.trans hfds
    refine ⟨after, hcontrol, ?_⟩
    have hclosed := settles_closedAbove (List.replicate grp.held.length (-1) ++ after)
    rw [leftOpen_replicate, descriptors_append, descriptors_replicate, Multiset.zero_add] at hclosed
    rw [hevents]
    refine hsettles.append ((hclosed.frame grp.owned).of_eq ?_ ?_)
    · exact Multiset.add_comm _ _
    · exact Multiset.add_comm _ _
  · cases hgrp.symm.trans hnone

/-- What is closed in the end does not matter to whether a request has been cleaned up. -/
theorem Deserialized.Clean.closed {d : Deserialized} {fds rest : List Int} (hrest : d.fds = some rest)
    (hkept : FdsKept fds rest) (hzero : 0 ∉ fds) :
    Settles (d.events ++ closedAbove rest) (descriptors fds) 0 ↔ d.Clean (some fds) := by
  have hclosed : Settles (closedAbove rest) (descriptors rest) 0 :=
    (settles_closedAbove rest).of_eq rfl (by
      rw [leftOpen_eq_nil (hkept.zero hzero)]
      rfl)
  have helements : elements d.fds = rest := by
    rw [hrest]
    rfl
  constructor
  · intro hall
    obtain ⟨mid, hmid, hend⟩ := settles_append.mp hall
    cases hend.injective hclosed
    refine ⟨?_, ?_⟩
    · rw [helements]
      exact hmid
    · rw [helements]
      exact hkept
  · intro hclean
    have hsettles := hclean.settles
    rw [helements] at hsettles
    exact hsettles.append hclosed

/-- When the group has been deleted, if there is one, the server holds nothing of the request, unless
    the construction of the group has lost something. -/
theorem serverSocketAccept_closed_iff (hpeer : peer.Posix)
    (hreceive : uxmsgReceive buffers peer = some req) (hzero : 0 ∉ peer.control)
    (h : serverSocketAccept os cls buffers peer filter = .ok a) :
    Settles (a.events ++ deleteGroup a.grp) (descriptors peer.control) 0 ↔
      ¬ DeserializeLeaks os cls req.data req.size req.data (some peer.control) (some peer.nFds) := by
  have hgiven := (uxmsgReceive_received hpeer hreceive).given
  obtain ⟨d, rest, hd, hrest, hkept, hcases⟩ := serverSocketAccept_cases hpeer hreceive h
  rcases hcases with ⟨hgrp, hnone, hevents⟩ | ⟨grp, hgrp, hcases⟩
  · rw [hevents, hnone, deleteGroup, List.append_nil, Deserialized.Clean.closed hrest hkept hzero]
    exact groupDeserialize_settles_iff hgiven hd hgrp
  · rw [← groupDeserialize_deleted_iff hgiven hd hgrp, ← Deserialized.Clean.closed
      (d := { d with grp := none, events := d.events ++ groupDelete grp }) hrest hkept hzero]
    rcases hcases with ⟨hsome, hevents⟩ | ⟨hnone, hevents⟩
    · rw [hevents, hsome, deleteGroup]
      exact (releasing_closedAbove rest).comm (releasing_groupDelete grp)
    · -- the filter has refused the group
      rw [hevents, hnone, deleteGroup, List.append_nil]

end server

/-! ## The client -/

section client

variable {os : Os} {cls : Size} {buffers : Buffers} {peer : Peer} {attr : GroupAttr (List Byte)}
  {c : Connected} {grp : Group} {events : List Event}

/-- A group that is returned holds all that its construction has acquired. -/
theorem groupFromAttr_owned (h : groupFromAttr os cls attr = .ok (some grp, events)) :
    Settles events 0 grp.owned := by
  cases groupFromAttr_way h with
  | made hdata hsettles hsize hshm hchannels =>
    obtain ⟨-, -, -, -, -, -, -, hnew⟩ := shmNew_some hshm
    obtain ⟨hgrown, hsettles', -⟩ := groupNewChannels_grown (Group.withArrays_empty _) hchannels
    have hwith := settles_arrays (fromAttr_settles_data hdata) hsettles
    refine ((hwith.more hnew).more hsettles').of_eq rfl ?_
    rw [hgrown.owned, Group.withArrays_owned]
    abel

/-- A group that is returned has got its block and its arrays. -/
theorem groupFromAttr_grants {r : Int} {data : GroupData} {dataEvents : List Event}
    (hdata : groupDataFromAttr os.tables attr = .ok (r, data, dataEvents)) (hr : ¬ r < 0)
    (h : groupFromAttr os cls attr = .ok (some grp, events)) :
    os.block .group = true ∧ os.GrantsArrays data := by
  unfold groupFromAttr at h
  cases hgroup : os.block .group with
  | false =>
    rw [hgroup] at h
    cases h
  | true =>
    refine ⟨rfl, ?_⟩
    by_contra harrays
    obtain ⟨arrays, halloc, -⟩ := groupAllocChannels_refused harrays
    rw [hgroup] at h
    obtain ⟨⟨r', data', events'⟩, hdata', h⟩ := checkedBind_ok.mp h
    cases hdata.symm.trans hdata'
    dsimp only at h
    rw [if_neg hr, ← Group.ofData, halloc] at h
    cases h

/-- A group that is returned and deleted releases everything exactly once, under the same condition as
    one that is not returned. -/
theorem groupFromAttr_deleted_iff (h : groupFromAttr os cls attr = .ok (some grp, events)) :
    Settles (events ++ groupDelete grp) 0 0 ↔ ¬ FromAttrLeaks os cls attr := by
  cases groupFromAttr_way h with
  | made hdata hsettles hsize hshm hchannels =>
    obtain ⟨hgroup, harrays⟩ := groupFromAttr_grants hdata (by decide) h
    exact fromAttr_channels_settles_iff hgroup hdata harrays hsettles hsize hshm hchannels

/-- How a client connects. -/
theorem clientSocketConnect_cases (h : clientSocketConnect os cls buffers peer attr = .ok c) :
    groupFromAttr os cls attr = .ok (none, c.events) ∧ c.grp = none ∨
      ∃ grp events, groupFromAttr os cls attr = .ok (some grp, events) ∧
        (c.grp = some grp ∧ c.events = events ∨ c.grp = none ∧ c.events = events ++ groupDelete grp) := by
  obtain ⟨⟨grp, events⟩, hgrp, h⟩ := checkedBind_ok.mp h
  cases grp with
  | none =>
    cases h
    exact Or.inl ⟨hgrp, rfl⟩
  | some grp =>
    refine Or.inr ⟨grp, events, hgrp, ?_⟩
    obtain ⟨req, -, h⟩ := checkedBind_ok.mp h
    cases req with
    | none =>
      cases h
      exact Or.inr ⟨rfl, rfl⟩
    | some req =>
      dsimp only at h
      split at h
      · cases h
        exact Or.inr ⟨rfl, rfl⟩
      · cases h
        exact Or.inl ⟨rfl, rfl⟩

/-- So a client that returns a group holds the group, and nothing else. -/
theorem clientSocketConnect_owned (h : clientSocketConnect os cls buffers peer attr = .ok c)
    (hgrp : c.grp = some grp) : Settles c.events 0 grp.owned := by
  rcases clientSocketConnect_cases h with ⟨-, hnone⟩ | ⟨grp', events, hmade, ⟨hsome, hevents⟩ | ⟨hnone, -⟩⟩
  · cases hgrp.symm.trans hnone
  · cases hgrp.symm.trans hsome
    rw [hevents]
    exact groupFromAttr_owned hmade
  · cases hgrp.symm.trans hnone

/-- A client that has deleted its group, or has got none, holds nothing, unless the construction has
    lost something. -/
theorem clientSocketConnect_closed_iff (h : clientSocketConnect os cls buffers peer attr = .ok c) :
    Settles (c.events ++ deleteGroup c.grp) 0 0 ↔ ¬ FromAttrLeaks os cls attr := by
  rcases clientSocketConnect_cases h with ⟨hmade, hnone⟩ | ⟨grp, events, hmade, hcases⟩
  · rw [hnone, deleteGroup, List.append_nil]
    exact groupFromAttr_settles_iff hmade
  · rcases hcases with ⟨hsome, hevents⟩ | ⟨hnone, hevents⟩
    · rw [hsome, hevents]
      exact groupFromAttr_deleted_iff hmade
    · rw [hnone, hevents, deleteGroup, List.append_nil]
      exact groupFromAttr_deleted_iff hmade

end client

/-! ## Both sides -/

/-- A server that has received a request reads it as with an array of just the descriptors that have
    come.  A side that returns a group holds the group, and the server in addition a descriptor 0 that
    has come and has not been taken.  A side that has deleted its group, or has not got one, holds
    nothing, unless the construction of the group has lost something.

    The blocks of the messages themselves are not in the books. -/
theorem connection_settles (os : Os) (cls : Size) (buffers : Buffers) :
    (∀ (peer : Peer) (filter : Option (GroupAttr (List Byte) → Unsigned → Unsigned → Bool))
      (req : Uxmsg) (a : Accepted), peer.Posix → uxmsgReceive buffers peer = some req →
      serverSocketAccept os cls buffers peer filter = .ok a →
        (∃ pad, req.fds = peer.control ++ pad ∧
          groupDeserialize os cls req.data req.size (some req.fds) (some (uxmsgNumFds req)) =
            (groupDeserialize os cls req.data req.size (some peer.control) (some peer.nFds)).map
              (Deserialized.padded pad)) ∧
        (∀ grp, a.grp = some grp → ∃ after, peer.control = grp.held ++ after ∧
          Settles a.events (descriptors peer.control) (grp.owned + descriptors (leftOpen after))) ∧
        (0 ∉ peer.control →
          (Settles (a.events ++ deleteGroup a.grp) (descriptors peer.control) 0 ↔
            ¬ DeserializeLeaks os cls req.data req.size req.data (some peer.control)
              (some peer.nFds)))) ∧
    ∀ (peer : Peer) (attr : GroupAttr (List Byte)) (c : Connected),
      clientSocketConnect os cls buffers peer attr = .ok c →
        (∀ grp, c.grp = some grp → Settles c.events 0 grp.owned) ∧
        (Settles (c.events ++ deleteGroup c.grp) 0 0 ↔ ¬ FromAttrLeaks os cls attr) := by
  constructor
  · -- the server
    intro peer filter req a hpeer hreceive h
    refine ⟨(uxmsgReceive_received hpeer hreceive).deserialize hpeer, ?_, ?_⟩
    · intro grp hgrp
      exact serverSocketAccept_owned hpeer hreceive h hgrp
    · intro hzero
      exact serverSocketAccept_closed_iff hpeer hreceive hzero h
  · -- the client
    intro peer attr c h
    constructor
    · intro grp hgrp
      exact clientSocketConnect_owned h hgrp
    · exact clientSocketConnect_closed_iff h

/-- The socket of a server that receives a request with a spare descriptor. -/
def Peer.withSpare : Peer := { Peer.ofRequest (requestOfChannel 8) with control := [3, 4] }

set_option maxRecDepth 4000 in
/-- The request with the spare descriptor is accepted without a filter, and cleaned up with one that
    lets nothing pass. -/
theorem serverSocketAccept_withSpare : ∃ req, uxmsgReceive Buffers.zeroed .withSpare = some req ∧
    (∃ a, serverSocketAccept (Os.granting 4096) 64 Buffers.zeroed .withSpare none = .ok a ∧
      a.grp.isSome) ∧
    ∃ a, serverSocketAccept (Os.granting 4096) 64 Buffers.zeroed .withSpare
      (some fun _ _ _ => false) = .ok a ∧ a.grp = none ∧ Settles a.events (descriptors [3, 4]) 0 := by
  refine ⟨_, rfl, ⟨_, rfl, rfl⟩, _, rfl, rfl, ?_⟩
  rfl

/-- A filter that lets nothing pass: nothing is left, so nothing would be left of a group that passes. -/
theorem connection_settles_spare : ∃ a grp,
    serverSocketAccept (Os.granting 4096) 64 Buffers.zeroed .withSpare none = .ok a ∧
    a.grp = some grp ∧ Settles (a.events ++ groupDelete grp) (descriptors [3, 4]) 0 ∧
    ∃ c client, clientSocketConnect (Os.granting 4096) 64 Buffers.zeroed (.ofResponse [0, 0, 0, 0])
      pairAttr = .ok c ∧ c.grp = some client ∧ Settles c.events 0 client.owned := by
  obtain ⟨req, hreceive, ⟨a, h, hgrp⟩, a', h', hnone, hsettles⟩ := serverSocketAccept_withSpare
  obtain ⟨grp, hgrp⟩ := Option.isSome_iff_exists.mp hgrp
  have hpeer : Peer.withSpare.Posix := ⟨by decide, by decide⟩
  obtain ⟨hserver, hclient⟩ := connection_settles (Os.granting 4096) 64 Buffers.zeroed
  have hkept := (hserver _ _ req a' hpeer hreceive h').2.2 (by decide)
  rw [hnone, deleteGroup, List.append_nil] at hkept
  have hclosed := ((hserver _ _ req a hpeer hreceive h).2.2 (by decide)).mpr (hkept.mp hsettles)
  rw [hgrp] at hclosed
  obtain ⟨client, request, events, hconnect⟩ := clientSocketConnect_pairAttr
  have hok := hconnect (.ofResponse [0, 0, 0, 0])
  rw [if_neg (by decide)] at hok
  exact ⟨a, grp, h, hgrp, hclosed, _, client, hok, rfl, (hclient _ pairAttr _ hok).1 client rfl⟩

end Rtipc
