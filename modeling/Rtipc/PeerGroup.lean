/-
  The channels of two peers.

  The client makes its group from attributes, the server makes its group from the request that the
  client sends, and each maps the shared memory where it likes.  `peerLinks` are the channels that the
  two have then, with the pointers of both sides.  They lie in places of their own
  (`PlacedFrom.links`, `placesFrom_apart`), so a run of both peers is, for each channel, a run of one
  queue (`group_channels_independent`), and each consumer reads the bytes that the producer on the other
  side has written (`message_arrives`).

  1. **Links.**  A `Link` is one channel as its producer and its consumer have it, each with the base of
     its own mapping.  `peerLinks` makes the list of them from the two groups.

  2. **Independence.**  `group_channels_independent`: in any interleaving of all channels of two groups
     that have come out of a handshake, each channel behaves as one queue that is alone, if the sizes
     can be sent (`Sendable`) and each channel has room for its words (`Fitting`).

  3. **Messages.**  `message_arrives`: between two pops a consumer reads, byte for byte, the message
     that its peer has sent with the number it was handed last.  The two have the memory mapped at
     different addresses; this does not matter, since the words of a queue contain indices only.
-/
import Rtipc.Handshake
import Rtipc.SharedGroup

namespace Rtipc

/-- Where the group has the shared memory. -/
def Group.base (grp : Group) : Size :=
  match grp.shm with
  | some shm => shm.mem
  | none => 0

/-- The channels from one side to the other. -/
def linksFrom (base base' : Size) (producers consumers : List ChannelEnd) : List Link :=
  List.zipWith (fun p c => ⟨⟨p.queue, base⟩, ⟨c.queue, base'⟩⟩) producers consumers

/-- The channels of two peers, those from the client to the server first. -/
def peerLinks (client server : Group) : List Link :=
  linksFrom client.base server.base (client.ends .producer) (server.ends .consumer) ++
    linksFrom server.base client.base (server.ends .producer) (client.ends .consumer)

/-- The channels of the list as a state machine. -/
def linkSystem (ls : List Link) : Machine (SharedState (Fin ls.length))
    (Fin ls.length × QueueEvent (List Byte)) QueueOutcome := sharedSystem ls.get

/-! ## The places -/

section places

variable {π : Type} {cls mem mem' size size' off : Size} {k : Nat} {attrs attrs' : List (ChannelAttr InfoPtr)}
  {channels channels' : List ChannelEnd} {given rest : List (ChannelAttr π)} {attr : ChannelAttr π}

/-- The places of channels that lie one behind the other. -/
def placesFrom (cls : Size) : Size → List (ChannelAttr π) → List Place
  | _, [] => []
  | off, attr :: attrs => placeOf cls attr off :: placesFrom cls (off + channelShmSize cls attr) attrs

/-- A channel can be laid out. -/
structure Fitting (cls : Size) (attr : ChannelAttr π) : Prop where
  sizes : SizesFit cls attr
  room : RoomForWords cls attr
  used : attr.msgSize ≠ 0
  queueLen : attr.addMsgs.toNat + 3 ≤ 2 ^ 30

/-- A channel has messages of at least one byte. -/
theorem Fitting.pos (h : Fitting cls attr) : 0 < attr.msgSize.toNat :=
  Nat.pos_of_ne_zero fun hzero => h.used (BitVec.eq_of_toNat_eq hzero)

/-- The next channel starts where this one ends, and nothing wraps around. -/
theorem toNat_next (hfits : off.toNat + shmSizes cls (attr :: rest) < 2 ^ 64) :
    (off + channelShmSize cls attr).toNat = off.toNat + (channelShmSize cls attr).toNat ∧
      off.toNat + (channelShmSize cls attr).toNat + shmSizes cls rest < 2 ^ 64 := by
  rw [shmSizes, List.map_cons, List.sum_cons, ← shmSizes] at hfits
  constructor
  · rw [BitVec.toNat_add]
    exact Nat.mod_eq_of_lt (by omega)
  · omega

/-- All places are in the memory. -/
theorem placesFrom_within (hc : cls.toNat = 2 ^ k) (hfit : ∀ a ∈ given, Fitting cls a)
    (hfits : off.toNat + shmSizes cls given < 2 ^ 64) :
    ∀ pl ∈ placesFrom cls off given, pl.region.Within ⟨off.toNat, shmSizes cls given⟩ := by
  induction given generalizing off with
  | nil => exact fun pl hpl => nomatch hpl
  | cons attr rest ih =>
    obtain ⟨hnext, hrest⟩ := toNat_next hfits
    have hsum : shmSizes cls (attr :: rest) = (channelShmSize cls attr).toNat + shmSizes cls rest := by
      rw [shmSizes, List.map_cons, List.sum_cons, ← shmSizes]
    intro pl hpl
    rcases List.mem_cons.mp hpl with rfl | hpl
    · refine ((hfit attr List.mem_cons_self).sizes.place_within hc).trans ⟨le_rfl, ?_⟩
      show off.toNat + (channelShmSize cls attr).toNat ≤ off.toNat + shmSizes cls (attr :: rest)
      omega
    · have hwithin := ih (fun a ha => hfit a (List.mem_cons_of_mem _ ha)) (by rw [hnext]; exact hrest)
        pl hpl
      rw [hnext] at hwithin
      refine hwithin.trans ⟨Nat.le_add_right _ _, ?_⟩
      show off.toNat + (channelShmSize cls attr).toNat + shmSizes cls rest ≤
        off.toNat + shmSizes cls (attr :: rest)
      omega

/-- No two places overlap. The induction is on the channels: what follows lies behind the first one. -/
theorem placesFrom_apart (hc : cls.toNat = 2 ^ k) (hfit : ∀ a ∈ given, Fitting cls a)
    (hfits : off.toNat + shmSizes cls given < 2 ^ 64) :
    (placesFrom cls off given).Pairwise fun pl pl' => pl.region.Apart pl'.region := by
  induction given generalizing off with
  | nil => exact List.Pairwise.nil
  | cons attr rest ih =>
    obtain ⟨hnext, hrest⟩ := toNat_next hfits
    have hrestFit : ∀ a ∈ rest, Fitting cls a := fun a ha => hfit a (List.mem_cons_of_mem _ ha)
    refine List.Pairwise.cons (fun pl hpl => ?_) (ih hrestFit (by rw [hnext]; exact hrest))
    have hwithin := placesFrom_within hc hrestFit (by rw [hnext]; exact hrest) pl hpl
    refine Region.Apart.within (Region.apart_of_le ?_)
      ((hfit attr List.mem_cons_self).sizes.place_within hc) hwithin
    rw [hnext]
    exact le_rfl

/-- The places are roomy, and their queues have a size that the code can handle. -/
theorem placesFrom_roomy (hc : cls.toNat = 2 ^ k) (hfit : ∀ a ∈ given, Fitting cls a) :
    ∀ pl ∈ placesFrom cls off given, pl.Roomy ∧ SizeOk pl.n := by
  induction given generalizing off with
  | nil => exact fun pl hpl => nomatch hpl
  | cons attr rest ih =>
    intro pl hpl
    rcases List.mem_cons.mp hpl with rfl | hpl
    · have hattr := hfit attr List.mem_cons_self
      exact ⟨hattr.sizes.roomy (hc ▸ Nat.two_pow_pos k) hattr.room, Nat.le_add_left _ _, hattr.queueLen⟩
    · exact ih (fun a ha => hfit a (List.mem_cons_of_mem _ ha)) pl hpl

/-- The pointers of a side that has laid out these channels. -/
theorem ChannelEnd.Placed.at {attr' : ChannelAttr InfoPtr} {channel : ChannelEnd} (hc : cls.toNat = 2 ^ k)
    (hfit : Fitting cls attr) (hmap : off.toNat + (channelShmSize cls attr).toNat ≤ 2 ^ 64)
    (hbare : attr'.bare = attr.bare) (h : channel.Placed cls mem size off attr') :
    View.At ⟨channel.queue, mem⟩ (placeOf cls attr off) := by
  have hqueue : queueInit cls attr' (memOffset mem off) = queueInit cls attr (memOffset mem off) :=
    congrArg (queueInit cls · (memOffset mem off)) hbare
  rw [h.queue, hqueue]
  exact queueInit_at hc hfit.sizes hfit.pos hmap mem

/-- The infos do not matter to the size of a channel. -/
theorem channelShmSize_congr {a : ChannelAttr InfoPtr} (h : a.bare = attr.bare) :
    channelShmSize cls a = channelShmSize cls attr := by
  obtain ⟨hmsg, hadd, -⟩ := ChannelAttr.bare_inj h
  rw [channelShmSize, channelShmSize, channelQueueLen, channelQueueLen, hadd, hmsg]

/-- Both sides have laid out the same channels from the same offset on. -/
theorem PlacedFrom.links (hc : cls.toNat = 2 ^ k) (hfit : ∀ a ∈ given, Fitting cls a)
    (hfits : off.toNat + shmSizes cls given < 2 ^ 64)
    (hbare : attrs.map ChannelAttr.bare = given.map ChannelAttr.bare)
    (hbare' : attrs'.map ChannelAttr.bare = given.map ChannelAttr.bare)
    (h : PlacedFrom cls mem size off attrs channels)
    (h' : PlacedFrom cls mem' size' off attrs' channels') :
    List.Forall₂ Link.At (linksFrom mem mem' channels channels') (placesFrom cls off given) := by
  -- The induction is on the attributes both sides have been given.
  induction given generalizing off attrs attrs' channels channels' with
  | nil =>
    obtain rfl := List.map_eq_nil_iff.mp hbare
    obtain rfl := List.length_eq_zero_iff.mp h.length.symm
    exact List.Forall₂.nil
  | cons attr rest ih =>
    obtain ⟨hnext, hrest⟩ := toNat_next hfits
    cases attrs with
    | nil => cases hbare
    | cons a attrs =>
      cases attrs' with
      | nil => cases hbare'
      | cons a' attrs' =>
        rw [List.map_cons, List.map_cons] at hbare hbare'
        obtain ⟨ha, hbare⟩ := List.cons.inj hbare
        obtain ⟨ha', hbare'⟩ := List.cons.inj hbare'
        cases channels with
        | nil => exact h.elim
        | cons channel channels =>
          cases channels' with
          | nil => exact h'.elim
          | cons channel' channels' =>
            obtain ⟨hplaced, hlater⟩ := h
            obtain ⟨hplaced', hlater'⟩ := h'
            rw [channelShmSize_congr ha] at hlater
            rw [channelShmSize_congr ha'] at hlater'
            have hattr := hfit attr List.mem_cons_self
            have hmap : off.toNat + (channelShmSize cls attr).toNat ≤ 2 ^ 64 := by omega
            exact List.Forall₂.cons ⟨hplaced.at hc hattr hmap ha, hplaced'.at hc hattr hmap ha'⟩
              (ih (fun a ha => hfit a (List.mem_cons_of_mem _ ha)) (by rw [hnext]; exact hrest) hbare
                hbare' hlater hlater')

/-- The places of two lists. -/
theorem placesFrom_append (given rest : List (ChannelAttr π)) :
    placesFrom cls off (given ++ rest) =
      placesFrom cls off given ++ placesFrom cls (endOffset cls off given) rest := by
  induction given generalizing off with
  | nil => rfl
  | cons attr given ih =>
    rw [List.cons_append, placesFrom, placesFrom, ih, List.cons_append]
    rfl

/-- Places for the channels of a list. -/
theorem Laid.of_list {ls : List Link} {ps : List Place} (h : List.Forall₂ Link.At ls ps)
    (hroomy : ∀ pl ∈ ps, pl.Roomy ∧ SizeOk pl.n)
    (hapart : ps.Pairwise fun pl pl' => pl.region.Apart pl'.region) :
    Laid ls.get fun i => ps.get (i.cast h.length_eq) where
  ends i := by
    have hget := h.get i.isLt (h.length_eq ▸ i.isLt)
    exact hget
  roomy i := (hroomy _ (List.getElem_mem _)).1
  size i := (hroomy _ (List.getElem_mem _)).2
  apart i j hij := by
    rcases Nat.lt_or_gt_of_ne fun heq => hij (Fin.ext heq) with hlt | hgt
    · exact List.pairwise_iff_getElem.mp hapart _ _ _ _ hlt
    · exact (List.pairwise_iff_getElem.mp hapart _ _ _ _ hgt).symm

end places

/-! ## Two peers

  What comes out of a handshake is a list of links whose places are apart. -/

section peers

variable {cls : Size} {attr : GroupAttr (List Byte)} {client server : Group} {k : Nat} {ρ : Int → Int}
  {consumers producers : List (ChannelAttr (List Byte))}

/-- A group has its memory mapped where `mmap` said. -/
theorem Group.Built.base {first : Role} {grp : Group} {shm : Shm} (h : grp.Built cls first shm) :
    grp.base = shm.mem := by
  rw [Group.base, h.mapping]

/-- The infos do not matter to where the next channel starts. -/
theorem endOffset_congr {π π' : Type} {off : Size} {given : List (ChannelAttr π)}
    {given' : List (ChannelAttr π')} (h : given.map ChannelAttr.bare = given'.map ChannelAttr.bare) :
    endOffset cls off given = endOffset cls off given' := by
  rw [← endOffset_bare, h, endOffset_bare]

/-- The channels of the two peers are where the attributes say. -/
theorem Handshake.links (hc : cls.toNat = 2 ^ k) (h : Handshake cls attr ρ client server)
    (hsend : Sendable cls attr consumers producers)
    (hfit : ∀ a ∈ producers ++ consumers, Fitting cls a) :
    List.Forall₂ Link.At (peerLinks client server) (placesFrom cls 0 (producers ++ consumers)) := by
  obtain ⟨shmC, shmS, hpaired⟩ := h.paired hsend
  have hbuilt := hpaired.built
  have hbuiltS := hpaired.builtServer
  have hbareSC : (server.data.attrs .consumer).map ChannelAttr.bare =
      producers.map ChannelAttr.bare := (hpaired.exchanged .producer).trans hpaired.producers
  have hbareSP : (server.data.attrs .producer).map ChannelAttr.bare =
      consumers.map ChannelAttr.bare := (hpaired.exchanged .consumer).trans hpaired.consumers
  have hfits := hsend.shmSize
  rw [shmSizes_append] at hfits
  -- The second list begins where the first one ends, on both sides.
  have hend : (endOffset cls 0 producers).toNat = shmSizes cls producers := by
    have hend := @toNat_endOffset cls 0 _ producers (by rw [show (0 : Size).toNat = 0 from rfl]; omega)
    rwa [show (0 : Size).toNat = 0 from rfl, Nat.zero_add] at hend
  rw [placesFrom_append, peerLinks, hbuilt.base, hbuiltS.base]
  refine List.rel_append ?_ ?_
  · exact PlacedFrom.links hc (fun a ha => hfit a (List.mem_append_left _ ha))
      (by rw [show (0 : Size).toNat = 0 from rfl]; omega) hpaired.producers hbareSC hbuilt.placed
      hbuiltS.placed
  · have hnext := hbuilt.placedNext
    have hnextS := hbuiltS.placedNext
    rw [endOffset_congr hpaired.producers] at hnext
    rw [endOffset_congr hbareSC] at hnextS
    exact PlacedFrom.links hc (fun a ha => hfit a (List.mem_append_right _ ha))
      (by rw [hend]; omega) hbareSP hpaired.consumers hnextS hnext

/-- After a handshake the links of the peers lie at these places, which do not overlap. -/
theorem Handshake.laid (hc : cls.toNat = 2 ^ k) (h : Handshake cls attr ρ client server)
    (hsend : Sendable cls attr consumers producers)
    (hfit : ∀ a ∈ producers ++ consumers, Fitting cls a) :
    Laid (peerLinks client server).get fun i =>
      (placesFrom cls 0 (producers ++ consumers)).get (i.cast (h.links hc hsend hfit).length_eq) := by
  have hfits : (0 : Size).toNat + shmSizes cls (producers ++ consumers) < 2 ^ 64 := by
    rw [show (0 : Size).toNat = 0 from rfl, Nat.zero_add]
    exact hsend.shmSize
  exact Laid.of_list (h.links hc hsend hfit) (placesFrom_roomy hc hfit) (placesFrom_apart hc hfit hfits)

/-- The two channels of `pairAttr`, which are mapped at 4096 on one side and at 65536 on the other. -/
def pairLinks : List Link :=
  [⟨⟨queueInit 64 (plainAttr 8 0) 4096, 4096⟩, ⟨queueInit 64 (plainAttr 8 0) 65536, 65536⟩⟩,
    ⟨⟨queueInit 64 (plainAttr 8 0) 65792, 65536⟩, ⟨queueInit 64 (plainAttr 8 0) 4352, 4096⟩⟩]

/-- The two groups of a consumer and a producer. -/
theorem handshake_pairAttr : ∃ client server, Handshake 64 pairAttr (· + 10) client server ∧
    peerLinks client server = pairLinks := by
  refine ⟨_, _, ⟨Os.granting 4096, Os.mapping 65536, _, List.replicate 52 0, 52, [0, 0], some 2, _, 2,
    [13, 14], _, rfl, by decide, by decide, rfl, ?_, ?_, rfl, ?_, rfl⟩, ?_⟩
  · decide
  · decide
  · decide
  · decide

/-- Both of their channels fit. -/
theorem pairChannel_fitting : ∀ a ∈ [pairChannel false, pairChannel true], Fitting 64 a := by
  have hfitting (eventfd : Bool) : Fitting 64 (pairChannel eventfd) := by
    refine ⟨⟨by decide +revert, by decide +revert, by decide +revert⟩, ?_, by decide +revert,
      by decide +revert⟩
    unfold RoomForWords
    decide +revert
  intro a ha
  rcases List.mem_cons.mp ha with rfl | ha
  · exact hfitting false
  · obtain rfl := List.mem_singleton.mp ha
    exact hfitting true

/-- The client sends a message, and while it still pushes the server sends one too and takes the message
    of the client. -/
theorem pairLinks_run : ∃ tr s, (linkSystem pairLinks).Run NoneFlushes tr s ∧ tr.length = 10 ∧
    ∃ c, (s.links ⟨0, by decide⟩).cons = .idle c ∧ c.current = 0 := by
  have hplay : ((createLinks pairLinks.get (fun _ _ => 0)
      (List.finRange 2) { mem := fun _ => 0
                          links := fun _ => { prod := .idle ⟨0, 0, 0, 0, fun _ => 0⟩
                                              cons := .idle ⟨0, 0⟩
                                              stamp := fun _ => none
                                              pushed := 0
                                              held := none } }).bind fun s =>
      (linkSystem pairLinks).exec NoneFlushes
        [(⟨0, by decide⟩, .write [1, 2, 3, 4, 5, 6, 7, 8]), (⟨0, by decide⟩, .push .forcePush),
          (⟨1, by decide⟩, .write [9, 9, 9, 9, 9, 9, 9, 9]), (⟨1, by decide⟩, .push .tryPush),
          (⟨0, by decide⟩, .prodStep), (⟨1, by decide⟩, .prodStep), (⟨0, by decide⟩, .prodStep),
          (⟨1, by decide⟩, .prodStep), (⟨0, by decide⟩, .pop .pop), (⟨0, by decide⟩, .consStep)]
        ([], s)).any (fun ts => (ts.2.links ⟨0, by decide⟩).cons.idleAnd
          fun c => decide (ts.1.length = 10 ∧ c.current = 0)) = true := by decide
  obtain ⟨⟨tr, s⟩, hexec, hend⟩ := (Option.any_eq_true _ _).mp hplay
  obtain ⟨s₀, hcreate, hexec⟩ := Option.bind_eq_some_iff.mp hexec
  obtain ⟨c, hc, hend⟩ := Thread.exists_idle hend
  obtain ⟨hlength, hcurrent⟩ := of_decide_eq_true hend
  refine ⟨tr, s, Machine.Run.exec (.init ⟨_, _, _, ?_, ?_, hcreate⟩) hexec, hlength, c, hc, hcurrent⟩
  · exact List.nodup_finRange 2
  · exact fun i => List.mem_finRange i

/-- Two peers that have made their groups in one handshake have a channel for each attribute, and the
    channels do not concern each other: whatever the two do on all of them, on each it is a run of one
    queue. -/
theorem group_channels_independent (hc : cls.toNat = 2 ^ k)
    (hsend : Sendable cls attr consumers producers)
    (hfit : ∀ a ∈ producers ++ consumers, Fitting cls a) (h : Handshake cls attr ρ client server) :
    (peerLinks client server).map (fun l => l.prod.queue.nMsgs.toNat) =
      (producers ++ consumers).map (fun a => a.addMsgs.toNat + 3) ∧
    ∀ tr s, (linkSystem (peerLinks client server)).Run Machine.always tr s → ∀ i,
      ∃ q : QueueState (List Byte),
        (queueSystem (List Byte) ((peerLinks client server).get i).prod.queue.nMsgs.toNat).Run
          Machine.always (traceOf i tr) q ∧
        q.prod = (s.links i).prod ∧ q.cons = (s.links i).cons ∧ q.held = (s.links i).held := by
  have hlinks := h.links hc hsend hfit
  have hlaid := h.laid hc hsend hfit
  constructor
  · -- the number of slots on both sides is that of the attribute
    have hplaces : ∀ off, (placesFrom cls off (producers ++ consumers)).map Place.n =
        (producers ++ consumers).map fun a => a.addMsgs.toNat + 3 := by
      intro off
      induction producers ++ consumers generalizing off with
      | nil => rfl
      | cons attr rest ih => exact congrArg (_ :: ·) (ih _)
    rw [← hplaces 0]
    refine List.ext_getElem ?_ fun j hj hj' => ?_
    · rw [List.length_map, List.length_map, hlinks.length_eq]
    · rw [List.length_map] at hj hj'
      rw [List.getElem_map, List.getElem_map]
      exact (hlinks.get hj hj').prod.nMsgs
  · intro tr s hr i
    -- A step of one channel leaves the place of every other one alone.
    have hparts := @sharedParts _ _ _ _ hlaid Machine.always Machine.always fun _ _ _ _ _ => trivial
    obtain ⟨_, hq, m, msgs, rfl, -⟩ := hparts.run hr i
    refine ⟨(s.links i).queue m msgs, ?_, rfl, rfl, rfl⟩
    rw [(hlaid.ends i).prod.nMsgs]
    exact hq

/-- A run of ten steps on both channels. -/
theorem group_channels_independent_pair : ∃ client server,
    Handshake 64 pairAttr (· + 10) client server ∧ peerLinks client server = pairLinks ∧
    ∃ tr s, (linkSystem pairLinks).Run Machine.always tr s ∧ tr.length = 10 ∧ ∀ i,
      ∃ q : QueueState (List Byte),
        (queueSystem (List Byte) (pairLinks.get i).prod.queue.nMsgs.toNat).Run
          Machine.always (traceOf i tr) q ∧
        q.prod = (s.links i).prod ∧ q.cons = (s.links i).cons ∧ q.held = (s.links i).held := by
  obtain ⟨client, server, hshake, hlinks⟩ := handshake_pairAttr
  obtain ⟨tr, s, hr, hlength, c, hc, hcurrent⟩ := pairLinks_run
  have hall := (group_channels_independent (k := 6) rfl pairAttr_sendable pairChannel_fitting hshake).2
  rw [hlinks] at hall
  refine ⟨client, server, hshake, hlinks, tr, s, hr.mono fun _ _ _ => trivial, hlength,
    hall tr s (hr.mono fun _ _ _ => trivial)⟩

/-- As long as no consumer flushes, what a consumer reads between two pops is, byte for byte, the message
    that its peer has sent with the number it was handed last. -/
theorem message_arrives (hc : cls.toNat = 2 ^ k) (hsend : Sendable cls attr consumers producers)
    (hfit : ∀ a ∈ producers ++ consumers, Fitting cls a) (h : Handshake cls attr ρ client server)
    {tr : List ((Fin (peerLinks client server).length × QueueEvent (List Byte)) × QueueOutcome)}
    {s : SharedState (Fin (peerLinks client server).length)}
    (hr : (linkSystem (peerLinks client server)).Run NoneFlushes tr s)
    {i : Fin (peerLinks client server).length} {c : ConsumerQueue}
    (hcons : (s.links i).cons = .idle c) (hne : c.current ≠ indexInvalid) :
    ∃ a num, ((peerLinks client server).get i).cons.msg c.current = some a ∧
      (s.links i).held =
        some (num, s.mem.load a ((peerLinks client server).get i).cons.queue.msgSize.toNat) := by
  have hlaid := h.laid hc hsend hfit
  obtain ⟨a, num, hmsg, hheld⟩ := hlaid.message hr hcons hne
  refine ⟨a, num, hmsg, ?_⟩
  rw [(hlaid.ends i).cons.msgSize]
  exact hheld

/-- A message of 8 bytes has arrived. -/
theorem message_arrives_pair : ∃ client server, Handshake 64 pairAttr (· + 10) client server ∧
    peerLinks client server = pairLinks ∧
    ∃ tr s, (linkSystem pairLinks).Run NoneFlushes tr s ∧ ∃ num,
      (s.links ⟨0, by decide⟩).held = some (num, s.mem.load 64 8) := by
  obtain ⟨client, server, hshake, hlinks⟩ := handshake_pairAttr
  obtain ⟨tr, s, hr, hlength, c, hc, hcurrent⟩ := pairLinks_run
  have hall := @message_arrives 64 pairAttr client server 6 (· + 10) [pairChannel true]
    [pairChannel false] rfl pairAttr_sendable pairChannel_fitting hshake
  rw [hlinks] at hall
  obtain ⟨a, num, hmsg, hheld⟩ := hall hr hc (by rw [hcurrent]; decide)
  rw [hcurrent] at hmsg
  cases hmsg
  exact ⟨client, server, hshake, hlinks, tr, s, hr, num, hheld⟩

end peers

end Rtipc
