/-
  A client and a server that find each other.

  `Handshake` says what the two have done: the client has made a group from attributes and has written
  the request, the server has made a group from what it has received, with the descriptors of the client
  under numbers of its own.  The two ends of each channel belong together then (`Handshake.joins`).

  That is what `src/connect.c` does.  If `ri_client_socket_connect` returns a group, over a connection
  that carries the request to a `ri_server_socket_accept` and the response back, then the server has
  returned a group too, and there has been a handshake (`connect_agrees`).
-/
import Rtipc.Connect

namespace Rtipc

/-- The client has made its group and its request, and the server its group from the request; `fd` is on
    the server what `ρ fd` is on the client. -/
def Handshake (cls : Size) (attr : GroupAttr (List Byte)) (ρ : Int → Int) (client server : Group) :
    Prop :=
  ∃ osC osS events req size fds nFds s n fdsS d,
    groupFromAttr osC cls attr = .ok (some client, events) ∧
    size.toNat ≤ req.length ∧ req.length ≤ ptrdiffMax ∧
    groupSerialize cls client req size fds nFds = .ok s ∧ 0 ≤ s.r ∧ s.nFds = some n ∧
    groupDeserialize osS cls (s.req.take size.toNat) size (some fdsS) (some n) = .ok d ∧
    fdsS.take n.toNat = (s.fds.take n.toNat).map ρ ∧ d.grp = some server

section handshake

variable {cls : Size} {attr : GroupAttr (List Byte)} {ρ : Int → Int} {client server : Group}
  {consumers producers : List (ChannelAttr (List Byte))}

/-- The request is a prefix of the message. -/
theorem Given.take {req : List Byte} {size : Size} {bs : Wire} (h : Given req size bs) :
    Given (req.take size.toNat) size bs where
  within := by
    rw [List.length_take, Nat.min_eq_left h.within]
  small := (List.length_take_le' _ _).trans h.small
  bytes := by
    rw [List.take_take, Nat.min_self]
    exact h.bytes

/-- What is known of both groups. -/
structure Handshake.Paired (cls : Size) (attr : GroupAttr (List Byte)) (ρ : Int → Int)
    (client server : Group) (consumers producers : List (ChannelAttr (List Byte))) (shmC shmS : Shm) :
    Prop where
  built : client.Built cls .producer shmC
  builtServer : server.Built cls .consumer shmS
  producers : (client.data.attrs .producer).map ChannelAttr.bare = producers.map ChannelAttr.bare
  consumers : (client.data.attrs .consumer).map ChannelAttr.bare = consumers.map ChannelAttr.bare
  exchanged : ∀ role : Role, (server.data.attrs role.other).map ChannelAttr.bare =
    (client.data.attrs role).map ChannelAttr.bare
  fds : eventfds (server.ends .consumer) ++ eventfds (server.ends .producer) =
    (eventfds (client.ends .producer) ++ eventfds (client.ends .consumer)).map ρ

/-- What both sides have at the end of a handshake: the same channels in the same places of one memory. -/
theorem Handshake.paired (h : Handshake cls attr ρ client server)
    (hsend : Sendable cls attr consumers producers) :
    ∃ shmC shmS, Handshake.Paired cls attr ρ client server consumers producers shmC shmS := by
  obtain ⟨osC, osS, events, req, size, fds, nFds, s, n, fdsS, d, hclient, hsize, hsmall, hserialize,
    hr, hn, hserver, hfds, hgrp⟩ := h
  obtain ⟨cs, ps, shm, m, hsent⟩ := groupSerialize_sent hsend hclient hsize hsmall hserialize hr
  cases hsent.nFds.symm.trans hn
  obtain ⟨after, hheld, -, -, -, -⟩ := groupDeserialize_fds hsent.given.take hserver hgrp
  obtain ⟨_, data, _, _, _, shmS, -, -, -, -, hmapped, hheaded, hattrs, -⟩ :=
    groupDeserialize_some hsent.given.take hserver hgrp
  have hbuilt := hsent.created.built
  have hbuiltS := hmapped.built
  obtain ⟨hattrsC, hattrsP⟩ := hsent.created.data.attrs
  have hdata : server.data = data := hmapped.data
  have hbare (role : Role) : (server.data.attrs role.other).map ChannelAttr.bare =
      (client.data.attrs role).map ChannelAttr.bare := by
    rw [hdata, hattrs]
    exact hsent.channels_bare hsend hheaded.length role
  have hlen (role : Role) : (eventfds (server.ends role.other)).length =
      (eventfds (client.ends role)).length := by
    rw [(hbuiltS.eventfds _).length_eventfds, (hbuilt.eventfds _).length_eventfds]
    exact countP_bare (hbare role)
  refine ⟨shm, shmS, hbuilt, hbuiltS, hattrsP ▸ hsent.created.data.copiedP,
    hattrsC ▸ hsent.created.data.copiedC, hbare, ?_⟩
  -- the server holds as many descriptors as the client has sent, the first ones of the array
  have hcount := hsent.count
  have hlenC : (eventfds (server.ends .consumer)).length = (eventfds (client.ends .producer)).length :=
    hlen .producer
  have hlenP : (eventfds (server.ends .producer)).length = (eventfds (client.ends .consumer)).length :=
    hlen .consumer
  rw [Group.held_eq hbuiltS.mapping] at hheld
  rw [hsent.fds, hheld, List.take_append_of_le_length, List.take_of_length_le, List.map_cons] at hfds
  · exact (List.cons.inj hfds).2
  all_goals
    rw [List.length_cons, List.length_append, hlenC, hlenP, hcount, List.length_append]
    omega

/-- The two ends of each channel join. -/
theorem Handshake.joins (h : Handshake cls attr ρ client server)
    (hsend : Sendable cls attr consumers producers) (role : Role) :
    List.Forall₂ (ChannelEnd.Joins ρ) (client.ends role) (server.ends role.other) := by
  obtain ⟨shmC, shmS, hpaired⟩ := h.paired hsend
  have hbuilt := hpaired.built
  have hbuiltS := hpaired.builtServer
  have hfds := hpaired.fds
  rw [List.map_append] at hfds
  obtain ⟨hfdsP, hfdsC⟩ := List.append_inj hfds (by
    rw [List.length_map, (hbuiltS.eventfds _).length_eventfds, (hbuilt.eventfds _).length_eventfds]
    exact countP_bare (hpaired.exchanged .producer))
  cases role with
  | producer =>
    exact hbuilt.placed.joins hbuiltS.placed (hpaired.exchanged .producer) (hbuilt.eventfds _)
      (hbuiltS.eventfds _) hfdsP
  | consumer =>
    have hend : endOffset cls 0 (server.data.attrs .consumer) =
        endOffset cls 0 (client.data.attrs .producer) := by
      rw [← endOffset_bare, ← endOffset_bare (client.data.attrs .producer)]
      exact congrArg _ (hpaired.exchanged .producer)
    have hnext := hbuiltS.placedNext
    rw [hend] at hnext
    exact hbuilt.placedNext.joins hnext (hpaired.exchanged .consumer) (hbuilt.eventfds _)
      (hbuiltS.eventfds _) hfdsC

end handshake

/-! ## Over a connection -/

/-- What the server finds on its socket, if it finds anything, is what the client has given to `sendmsg`:
    the bytes, as many as an `int` can count, and the descriptors. -/
def CarriesRequest (ρ : Int → Int) (req : Uxmsg) (peer : Peer) : Prop :=
  0 < peer.peek → peer.peek < 2 ^ 31 ∧ peer.peek = req.size.toNat ∧
    peer.message = req.data.take req.size.toNat ∧
    peer.control = (req.fds.take req.nFds.toNat).map ρ

section connection

variable {osS osC : Os} {cls : Size} {buffersS buffersC : Buffers} {peerS peerC : Peer}
  {filter : Option (GroupAttr (List Byte) → Unsigned → Unsigned → Bool)}
  {attr : GroupAttr (List Byte)} {a : Accepted} {c : Connected} {client server : Group} {req : Uxmsg}

/-- The request is the group, serialised into a buffer of the right size. -/
theorem uxmsgFromGroup_some (h : uxmsgFromGroup cls buffersC client = .ok (some req)) :
    ∃ block s n, block.length = req.size.toNat ∧
      groupSerialize cls client block req.size (List.replicate scmMaxFd.toNat 0) (some scmMaxFd) =
        .ok s ∧ 0 ≤ s.r ∧ s.nFds = some n ∧ req.data = s.req ∧ req.fds = s.fds ∧ req.nFds = n := by
  obtain ⟨size, -, h⟩ := checkedBind_ok.mp h
  unfold uxmsgNew at h
  cases hblock : buffersC.uxmsg size with
  | none =>
    rw [hblock] at h
    cases h
  | some block =>
    rw [hblock] at h
    obtain ⟨s, hserialize, h⟩ := checkedBind_ok.mp h
    dsimp only at h
    split at h
    · cases h
    · rename_i hr
      obtain ⟨_, r, -, -, -, hnFds⟩ := groupSerialize_some hserialize (Int.not_lt.mp hr)
      rw [hnFds, Option.getD_some, uxmsgSetNumFds] at h
      split at h
      · cases h
      · cases h
        exact ⟨block, s, _, buffersC.uxmsg_length _ _ hblock, hserialize, Int.not_lt.mp hr, hnFds, rfl,
          rfl, rfl⟩

/-- A message that was received is not empty. -/
theorem uxmsgReceive_pos (h : uxmsgReceive buffersS peerS = some req) : 0 < peerS.peek := by
  by_contra hpeek
  rw [uxmsgReceive, if_pos (Int.not_lt.mp hpeek)] at h
  cases h

/-- What the server has received. -/
theorem uxmsgReceive_carried (h : uxmsgReceive buffersS peerS = some req) {ρ : Int → Int}
    {sent : Uxmsg} (hcarries : CarriesRequest ρ sent peerS)
    (hlen : sent.size.toNat ≤ sent.data.length) :
    req.size = sent.size ∧ req.data = sent.data.take sent.size.toNat ∧ req.dir = .rx ∧
      req.nFds = BitVec.ofNat 32 peerS.control.length ∧
      req.fds.take peerS.control.length = peerS.control := by
  unfold uxmsgReceive at h
  split at h
  · cases h
  · rename_i hpeek
    obtain ⟨hint, hsize, hmessage, hcontrol⟩ := hcarries (Int.not_le.mp hpeek)
    have hofInt : BitVec.ofInt 64 peerS.peek = sent.size := by
      rw [hsize, BitVec.ofInt_natCast, BitVec.ofNat_toNat, BitVec.setWidth_eq]
    rw [hofInt, uxmsgNew] at h
    cases hblock : buffersS.uxmsg sent.size with
    | none =>
      rw [hblock] at h
      cases h
    | some block =>
      rw [hblock] at h
      dsimp only at h
      split at h
      · cases h
      · obtain rfl := Option.some.inj h
        have hlength := buffersS.uxmsg_length _ _ hblock
        refine ⟨rfl, ?_, rfl, rfl, List.take_left⟩
        show received peerS.message block = _
        rw [received, hmessage, hlength, List.take_take, Nat.min_self, List.length_take,
          Nat.min_eq_left hlen, List.drop_eq_nil_of_le hlength.le, List.append_nil]

/-- A server that returns a group has received a request and has made the group from it. -/
theorem serverSocketAccept_made (h : serverSocketAccept osS cls buffersS peerS filter = .ok a)
    (hgrp : a.grp = some server) : ∃ req d, uxmsgReceive buffersS peerS = some req ∧
      groupDeserialize osS cls req.data req.size (some req.fds) (some (uxmsgNumFds req)) = .ok d ∧
      d.grp = some server := by
  unfold serverSocketAccept at h
  cases hreceive : uxmsgReceive buffersS peerS with
  | none =>
    rw [hreceive] at h
    cases h
    cases hgrp
  | some req =>
    rw [hreceive] at h
    obtain ⟨⟨grp, req', events⟩, hrequest, h⟩ := checkedBind_ok.mp h
    obtain ⟨d, hdeserialize, hd⟩ := checkedBind_ok.mp hrequest
    cases hd
    refine ⟨req, d, rfl, hdeserialize, ?_⟩
    cases hnone : d.grp with
    | none =>
      simp only [hnone] at h
      cases h
      cases hgrp
    | some grp =>
      simp only [hnone] at h
      split at h
      all_goals
        split at h
        · cases h
          exact hgrp
        · cases h
          cases hgrp

/-- A client that returns a group has a server that returns one, over a connection that carries the
    request and delivers the response, and the two belong together. -/
theorem connect_agrees {consumers producers : List (ChannelAttr (List Byte))} {ρ : Int → Int}
    (hsend : Sendable cls attr consumers producers)
    (h : clientSocketConnect osC cls buffersC peerC attr = .ok c) (hclient : c.grp = some client)
    (hrequest : ∀ req, c.request = some req → CarriesRequest ρ req peerS)
    (hresponse : Delivers peerC (serverSocketAccept osS cls buffersS peerS filter)) :
    ∃ a server, serverSocketAccept osS cls buffersS peerS filter = .ok a ∧ a.grp = some server ∧
      Handshake cls attr ρ client server ∧
      ∀ role : Role, List.Forall₂ (ChannelEnd.Joins ρ) (client.ends role) (server.ends role.other) := by
  obtain ⟨req, events, hmade, hreq, hc, hexchange⟩ := clientSocketConnect_made h hclient
  -- the response says that the server has a group
  have haccepted : ∃ a, serverSocketAccept osS cls buffersS peerS filter = .ok a ∧ a.grp.isSome := by
    rcases exchange_nonneg hexchange with
      ⟨response, hresponse', -, hnonneg⟩ | ⟨-, response, hresponse', hlen⟩
    · obtain ⟨a, hserver, rfl⟩ := hresponse.received (fun _ => length_response) hresponse'
      rcases serverSocketAccept_response hserver with ⟨hsome, -⟩ | ⟨-, hrefused⟩
      · exact ⟨a, hserver, hsome⟩
      · rw [hrefused] at hnonneg
        exact absurd hnonneg (by decide)
    · obtain ⟨a, hserver, rfl⟩ := hresponse.received (fun _ => length_response) hresponse'
      exact absurd (length_response hserver) hlen
  obtain ⟨a, hserver, hsome⟩ := haccepted
  obtain ⟨server, ha⟩ := Option.isSome_iff_exists.mp hsome
  obtain ⟨block, s, n, hblock, hserialize, hr, hn, hdata, hfds, hnFds⟩ := uxmsgFromGroup_some hreq
  obtain ⟨msg, d, hreceive, hdeserialize, hgrp⟩ := serverSocketAccept_made hserver ha
  have hcarries := hrequest req hc
  obtain ⟨hint, hpeek, -, hcontrol⟩ := hcarries (uxmsgReceive_pos hreceive)
  have hsmall : block.length ≤ ptrdiffMax := by
    rw [hblock, ptrdiffMax]
    omega
  obtain ⟨cs, ps, shm, m, hsent⟩ :=
    groupSerialize_sent hsend hmade hblock.ge hsmall hserialize hr
  cases hsent.nFds.symm.trans hn
  have hwithin : req.size.toNat ≤ req.data.length := hdata ▸ hsent.given.within
  obtain ⟨hsize, hmsg, hdir, hcount, htake⟩ := uxmsgReceive_carried hreceive hcarries hwithin
  rw [hfds, hnFds] at hcontrol
  have hlength : peerS.control.length = n.toNat := by
    rw [hcontrol, List.length_map, hsent.fds, List.length_cons, hsent.count, Nat.add_comm]
  have hnum : uxmsgNumFds msg = n := by
    rw [uxmsgNumFds, if_pos hdir, hcount, hlength, BitVec.ofNat_toNat, BitVec.setWidth_eq]
  rw [hmsg, hsize, hnum, hdata] at hdeserialize
  rw [hlength, hcontrol] at htake
  have hshake : Handshake cls attr ρ client server :=
    ⟨osC, osS, events, block, req.size, _, _, s, n, msg.fds, d, hmade, hblock.ge, hsmall, hserialize,
      hr, hn, hdeserialize, htake, hgrp⟩
  exact ⟨a, server, hserver, ha, hshake, hshake.joins hsend⟩

end connection

/-- A system that maps the shared memory at `base`. -/
def Os.mapping (base : Size) : Os := { Os.granting 4096 with mmap := fun _ _ => some base }

/-- The socket of a server on which this request arrives, its descriptors 10 higher. -/
def Peer.carrying (req : Uxmsg) : Peer where
  sendmsg := 4
  peek := req.size.toNat
  recvmsg := req.size.toNat
  message := req.data.take req.size.toNat
  control := (req.fds.take req.nFds.toNat).map (· + 10)

set_option maxRecDepth 4000 in
/-- A handshake over one channel each way. -/
theorem serverSocketAccept_pairAttr : ∃ c client req a,
    clientSocketConnect (Os.granting 4096) 64 Buffers.zeroed (.ofResponse [0, 0, 0, 0]) pairAttr =
      .ok c ∧ c.grp = some client ∧ c.request = some req ∧ req.size < 2 ^ 31 ∧
    serverSocketAccept (Os.mapping 65536) 64 Buffers.zeroed (.carrying req) none = .ok a ∧
      a.response = [0, 0, 0, 0] := by
  refine ⟨_, _, _, _, rfl, rfl, rfl, ?_, rfl, ?_⟩
  · decide
  · decide

/-- The client has its group mapped at 4096 and the server at 65536. -/
theorem connect_agrees_pair : ∃ c client req a server,
    clientSocketConnect (Os.granting 4096) 64 Buffers.zeroed (.ofResponse [0, 0, 0, 0]) pairAttr =
      .ok c ∧ c.grp = some client ∧ c.request = some req ∧
    serverSocketAccept (Os.mapping 65536) 64 Buffers.zeroed (.carrying req) none = .ok a ∧
      a.grp = some server ∧
    Handshake 64 pairAttr (· + 10) client server ∧ ∀ role : Role,
      List.Forall₂ (ChannelEnd.Joins (· + 10)) (client.ends role) (server.ends role.other) := by
  obtain ⟨c, client, req, a, hconnect, hclient, hreq, hsmall, haccept, hresponse⟩ :=
    serverSocketAccept_pairAttr
  have hrequest : ∀ sent, c.request = some sent → CarriesRequest (· + 10) sent (.carrying req) := by
    intro sent hsent _
    obtain rfl := Option.some.inj (hreq.symm.trans hsent)
    refine ⟨?_, rfl, rfl, rfl⟩
    exact Int.ofNat_lt.mpr hsmall
  have hdelivers : Delivers (.ofResponse [0, 0, 0, 0])
      (serverSocketAccept (Os.mapping 65536) 64 Buffers.zeroed (.carrying req) none) :=
    fun _ => ⟨a, haccept, by rw [hresponse]; rfl, hresponse.symm⟩
  obtain ⟨_, server, haccept', hserver, hshake, hjoins⟩ :=
    connect_agrees pairAttr_sendable hconnect hclient hrequest hdelivers
  cases haccept.symm.trans haccept'
  exact ⟨c, client, req, a, server, hconnect, hclient, hreq, haccept, hserver, hshake, hjoins⟩

end Rtipc
