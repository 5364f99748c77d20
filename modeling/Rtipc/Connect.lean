/-
  `src/connect.c` and the messages of `src/unix.c`: how two processes agree on a group.

  The client sends a request and waits for a response; the server makes a group from the request, asks
  a filter, and responds 0 or -1.  What a side finds on its socket is a `Peer`: the results of
  `sendmsg`, of the `recvmsg` that looks at the next message and of the one that takes it, and that
  message.  Each is asked for once.

  If the response does not have 4 bytes, `exchange` returns what `sendmsg` has returned, and the client
  takes that for the consent of the server (`connect_accepted_iff`).
-/
import Rtipc.Agreement

namespace Rtipc

/-! ## Messages

  What the peer does is a parameter: the results of the socket calls, and the bytes and descriptors
  that come. -/

/-- What a side finds on its socket. -/
structure Peer where
  sendmsg : Int
  peek : Int
  recvmsg : Int
  message : List Byte
  /-- The descriptors that come with the message. -/
  control : List Int
  deriving DecidableEq, Repr

/-- Memory for messages: `ri_uxmsg_new` and the `calloc` of `ri_uxsocket_receive`. -/
structure Buffers where
  uxmsg : Size → Option (List Byte)
  uxmsg_length : ∀ size block, uxmsg size = some block → block.length = size.toNat
  calloc : Size → Bool

/-- `ri_uxmsg_dir_t`. -/
inductive UxmsgDir where
  | rx
  | tx
  deriving DecidableEq, Repr

/-- `ri_uxmsg_t`; `fds` is what the control message holds. -/
structure Uxmsg where
  dir : UxmsgDir
  data : List Byte
  size : Size
  nFds : Unsigned
  fds : List Int
  deriving DecidableEq, Repr

/-- `SCM_MAX_FD`. -/
def scmMaxFd : Unsigned := 253

/-- `ri_uxmsg_new`. -/
def uxmsgNew (buffers : Buffers) (size : Size) : Option Uxmsg :=
  match buffers.uxmsg size with
  | none => none
  | some data =>
    some { dir := .tx, data := data, size := size, nFds := 0, fds := List.replicate scmMaxFd.toNat 0 }

/-- The count of `ri_uxmsg_fds`. -/
def uxmsgNumFds (msg : Uxmsg) : Unsigned := if msg.dir = .rx then msg.nFds else scmMaxFd

/-- `ri_uxmsg_set_num_fds`. -/
def uxmsgSetNumFds (msg : Uxmsg) (nFds : Unsigned) : Int × Uxmsg :=
  if msg.dir ≠ .tx ∨ nFds < 1 then (-EINVAL, msg) else (0, { msg with nFds := nFds })

/-- `ri_uxmsg_delete`: what has been received and is still there is closed, but not descriptor 0. -/
def uxmsgDelete (msg : Uxmsg) : List Event :=
  if msg.dir = .rx then
    ((msg.fds.take msg.nFds.toNat).filter fun fd => fd > 0).map fun fd => .release (.descriptor fd)
  else []

/-- A message in a buffer that was there before. -/
def received (message block : List Byte) : List Byte :=
  message.take block.length ++ block.drop message.length

/-- `ri_uxsocket_receive`. -/
def uxsocketReceive (calloc : Size → Bool) (peer : Peer) : Option (List Byte) :=
  if peer.peek ≤ 0 then none
  else
    let size : Size := BitVec.ofInt 64 peer.peek
    if !calloc size then none
    else if peer.recvmsg ≠ intOfSize size then none
    else some (received peer.message (List.replicate size.toNat 0))

/-- `ri_uxmsg_receive`. -/
def uxmsgReceive (buffers : Buffers) (peer : Peer) : Option Uxmsg :=
  if peer.peek ≤ 0 then none
  else
    match uxmsgNew buffers (BitVec.ofInt 64 peer.peek) with
    | none => none
    | some msg =>
      if peer.recvmsg ≠ intOfSize msg.size then none
      else some { msg with
        dir := .rx
        data := received peer.message msg.data
        nFds := BitVec.ofNat 32 peer.control.length
        fds := peer.control ++ msg.fds.drop peer.control.length }

/-! ## The server -/

/-- `server_send_response`: the bytes of an `int32_t`. -/
def responseBytes (result : Int) : List Byte := unsignedBytes (BitVec.ofInt 32 result)

/-- What `ri_server_socket_accept` returns, and what it has sent.  Nobody looks whether it has been
    sent. -/
structure Accepted where
  grp : Option Group
  response : List Byte
  events : List Event
  deriving DecidableEq, Repr

section server

variable (os : Os) (cls : Size)

/-- `request_to_group`; the descriptors that have been taken are gone from the message. -/
def requestToGroup (req : Uxmsg) : Checked (Option Group × Uxmsg × List Event) := do
  let d ← groupDeserialize os cls req.data req.size (some req.fds) (some (uxmsgNumFds req))
  return (d.grp, { req with fds := d.fds.getD req.fds }, d.events)

/-- `ri_server_socket_accept`. -/
def serverSocketAccept (buffers : Buffers) (peer : Peer)
    (filter : Option (GroupAttr (List Byte) → Unsigned → Unsigned → Bool)) : Checked Accepted :=
  match uxmsgReceive buffers peer with
  | none => return ⟨none, responseBytes (-1), []⟩
  | some req => do
    let (grp, req, events) ← requestToGroup os cls req
    match grp with
    | none => return ⟨none, responseBytes (-1), events ++ uxmsgDelete req⟩
    | some grp =>
      let accepts := match filter with
        | none => true
        | some filter => filter grp.data.view grp.data.nConsumers grp.data.nProducers
      if accepts then return ⟨some grp, responseBytes 0, events ++ uxmsgDelete req⟩
      else return ⟨none, responseBytes (-1), events ++ groupDelete grp ++ uxmsgDelete req⟩

end server

/-! ## The client -/

/-- `exchange`. -/
def exchange (buffers : Buffers) (peer : Peer) : Int :=
  let r := peer.sendmsg
  if r < 0 then r
  else
    match uxsocketReceive buffers.calloc peer with
    | none => -1
    | some response => if response.length ≠ 4 then r else (unsignedOfBytes response).toInt

/-- `uxmsg_from_group`. -/
def uxmsgFromGroup (cls : Size) (buffers : Buffers) (grp : Group) : Checked (Option Uxmsg) := do
  let size ← groupSerializeSize grp
  match uxmsgNew buffers size with
  | none => return none
  | some req => do
    let s ← groupSerialize cls grp req.data req.size req.fds (some (uxmsgNumFds req))
    if s.r < 0 then return none
    let (r, req) := uxmsgSetNumFds { req with data := s.req, fds := s.fds } (s.nFds.getD 0)
    if r < 0 then return none
    return some req

/-- What `ri_client_socket_connect` returns, and the message that it has given to `sendmsg`. -/
structure Connected where
  grp : Option Group
  request : Option Uxmsg
  events : List Event
  deriving DecidableEq, Repr

/-- `ri_client_socket_connect`. -/
def clientSocketConnect (os : Os) (cls : Size) (buffers : Buffers) (peer : Peer)
    (attr : GroupAttr (List Byte)) : Checked Connected := do
  let (grp, events) ← groupFromAttr os cls attr
  match grp with
  | none => return ⟨none, none, events⟩
  | some grp => do
    let req ← uxmsgFromGroup cls buffers grp
    match req with
    | none => return ⟨none, none, events ++ groupDelete grp⟩
    | some req =>
      if exchange buffers peer < 0 then return ⟨none, some req, events ++ groupDelete grp⟩
      else return ⟨some grp, some req, events⟩

/-! ## What has been received

  When a client has the consent of its peer, and when it is misled by a response of another length. -/

/-- A response of 4 bytes that hold a number that is not negative. -/
def Consent (buffers : Buffers) (peer : Peer) : Prop :=
  ∃ response, uxsocketReceive buffers.calloc peer = some response ∧ response.length = 4 ∧
    0 ≤ (unsignedOfBytes response).toInt

/-- The client returns groups only with the consent of this peer. -/
def NeedsConsent (peer : Peer) : Prop :=
  ∀ (os : Os) (cls : Size) (buffers : Buffers) (attr : GroupAttr (List Byte)) (c : Connected),
    clientSocketConnect os cls buffers peer attr = .ok c → c.grp.isSome → Consent buffers peer

/-- The request can be sent, and a response comes that does not have 4 bytes. -/
def WrongLength (peer : Peer) : Prop :=
  0 ≤ peer.sendmsg ∧ ∃ response, uxsocketReceive (fun _ => true) peer = some response ∧
    response.length ≠ 4

/-- The same for one call: it has a group and its request, the request can be sent, and a response comes
    that does not have 4 bytes. -/
def Misled (os : Os) (cls : Size) (buffers : Buffers) (peer : Peer) (attr : GroupAttr (List Byte)) :
    Prop :=
  (∃ grp events req, groupFromAttr os cls attr = .ok (some grp, events) ∧
    uxmsgFromGroup cls buffers grp = .ok (some req)) ∧
  0 ≤ peer.sendmsg ∧ ∃ response, uxsocketReceive buffers.calloc peer = some response ∧
    response.length ≠ 4

/-- A connection delivers what has been sent, message by message: if there is something to receive the
    server has sent it. -/
def Delivers (peer : Peer) (server : Checked Accepted) : Prop :=
  0 < peer.peek → ∃ a, server = .ok a ∧ peer.peek = a.response.length ∧ peer.message = a.response

section client

variable {os : Os} {cls : Size} {buffers : Buffers} {peer : Peer} {attr : GroupAttr (List Byte)}
  {c : Connected}

/-- Memory that is always there does not change what is received. -/
theorem uxsocketReceive_granted {calloc : Size → Bool} {response : List Byte}
    (h : uxsocketReceive calloc peer = some response) :
    uxsocketReceive (fun _ => true) peer = some response := by
  unfold uxsocketReceive at h ⊢
  split at h
  · cases h
  · rename_i hpeek
    rw [if_neg hpeek]
    dsimp only at h ⊢
    split at h
    · cases h
    · exact h

/-- What `exchange` returns is a number that is not negative only in two cases. -/
theorem exchange_nonneg (h : 0 ≤ exchange buffers peer) : Consent buffers peer ∨
    0 ≤ peer.sendmsg ∧ ∃ response, uxsocketReceive buffers.calloc peer = some response ∧
      response.length ≠ 4 := by
  unfold exchange at h
  dsimp only at h
  split at h
  · omega
  · rename_i hsend
    split at h
    · exact absurd h (by decide)
    · rename_i response hresponse
      split at h
      · rename_i hlen
        exact Or.inr ⟨Int.not_lt.mp hsend, response, hresponse, hlen⟩
      · rename_i hlen
        exact Or.inl ⟨response, hresponse, not_not.mp hlen, h⟩

/-- A response of another length leaves the result of `sendmsg`. -/
theorem exchange_wrongLength (hsend : 0 ≤ peer.sendmsg) {response : List Byte}
    (hresponse : uxsocketReceive buffers.calloc peer = some response) (hlen : response.length ≠ 4) :
    exchange buffers peer = peer.sendmsg := by
  rw [exchange, if_neg (Int.not_lt.mpr hsend), hresponse]
  exact if_pos hlen

/-- A client that returns a group has made it and its request, and the exchange has succeeded. -/
theorem clientSocketConnect_made {client : Group} (h : clientSocketConnect os cls buffers peer attr = .ok c)
    (hclient : c.grp = some client) : ∃ req events,
      groupFromAttr os cls attr = .ok (some client, events) ∧
      uxmsgFromGroup cls buffers client = .ok (some req) ∧ c.request = some req ∧
      0 ≤ exchange buffers peer := by
  obtain ⟨⟨_ | grp, events⟩, hmade, h⟩ := checkedBind_ok.mp h
  · cases h
    cases hclient
  · obtain ⟨_ | req, hreq, h⟩ := checkedBind_ok.mp h
    · cases h
      cases hclient
    · dsimp only at h
      split at h
      · cases h
        cases hclient
      · rename_i hr
        cases h
        cases hclient
        exact ⟨req, events, hmade, hreq, rfl, Int.not_lt.mp hr⟩

/-- A call returns a group only with the consent of the server if and only if it is not misled. -/
theorem consents_iff (h : clientSocketConnect os cls buffers peer attr = .ok c) :
    (c.grp.isSome → Consent buffers peer) ↔ ¬ Misled os cls buffers peer attr := by
  constructor
  · rintro hconsents ⟨⟨grp, events, req, hgrp, hreq⟩, hsend, response, hresponse, hlen⟩
    -- the result of `sendmsg` is taken for consent
    have hexchange := exchange_wrongLength hsend hresponse hlen
    have hconnected : clientSocketConnect os cls buffers peer attr = .ok ⟨some grp, some req, events⟩ := by
      rw [clientSocketConnect, hgrp]
      show uxmsgFromGroup cls buffers grp >>= _ = _
      rw [hreq]
      show (if exchange buffers peer < 0 then _ else _) = _
      rw [hexchange, if_neg (Int.not_lt.mpr hsend)]
      rfl
    obtain rfl := Except.ok.inj (h.symm.trans hconnected)
    obtain ⟨response', hresponse', hlen', -⟩ := hconsents rfl
    obtain rfl := Option.some.inj (hresponse.symm.trans hresponse')
    exact hlen hlen'
  · intro hright hsome
    obtain ⟨grp, hgrp⟩ := Option.isSome_iff_exists.mp hsome
    obtain ⟨req, events, hmade, hreq, -, hexchange⟩ := clientSocketConnect_made h hgrp
    exact (exchange_nonneg hexchange).resolve_right fun hwrong =>
      hright ⟨⟨grp, events, req, hmade, hreq⟩, hwrong⟩

/-- Memory for all messages. -/
def Buffers.zeroed : Buffers where
  uxmsg size := some (List.replicate size.toNat 0)
  uxmsg_length size block h := by
    cases h
    exact List.length_replicate
  calloc _ := true

set_option maxRecDepth 4000 in
theorem uxmsgFromGroup_pairAttr : ∃ grp events,
    groupFromAttr (Os.granting 4096) 64 pairAttr = .ok (some grp, events) ∧
      ∃ req, uxmsgFromGroup 64 Buffers.zeroed grp = .ok (some req) := by
  refine ⟨_, _, rfl, ?_⟩
  exact ⟨_, rfl⟩

/-- The client has its group and its request, and goes by the exchange. -/
theorem clientSocketConnect_pairAttr : ∃ grp req events, ∀ peer : Peer,
    clientSocketConnect (Os.granting 4096) 64 Buffers.zeroed peer pairAttr =
      if exchange Buffers.zeroed peer < 0 then .ok ⟨none, some req, events ++ groupDelete grp⟩
      else .ok ⟨some grp, some req, events⟩ := by
  obtain ⟨grp, events, hgrp, req, hreq⟩ := uxmsgFromGroup_pairAttr
  refine ⟨grp, req, events, fun peer => ?_⟩
  rw [clientSocketConnect, hgrp]
  show uxmsgFromGroup 64 Buffers.zeroed grp >>= _ = _
  rw [hreq]
  rfl

/-- Over all calls, a peer can mislead one of them if and only if it sends a response of another length. -/
theorem needsConsent_iff (peer : Peer) : NeedsConsent peer ↔ ¬ WrongLength peer := by
  constructor
  · rintro hneeds ⟨hsend, response, hresponse, hlen⟩
    obtain ⟨grp, events, hgrp, req, hreq⟩ := uxmsgFromGroup_pairAttr
    obtain ⟨grp', req', events', hconnect⟩ := clientSocketConnect_pairAttr
    have hexchange : exchange Buffers.zeroed peer = peer.sendmsg :=
      exchange_wrongLength hsend hresponse hlen
    have hok := hconnect peer
    rw [hexchange, if_neg (Int.not_lt.mpr hsend)] at hok
    exact (consents_iff hok).mp (hneeds _ _ _ _ _ hok)
      ⟨⟨grp, events, req, hgrp, hreq⟩, hsend, response, hresponse, hlen⟩
  · intro hright os cls buffers attr c h
    refine (consents_iff h).mpr fun hmisled => hright ?_
    obtain ⟨-, hsend, response, hresponse, hlen⟩ := hmisled
    exact ⟨hsend, response, uxsocketReceive_granted hresponse, hlen⟩

end client

/-! ## The two sides -/

section sides

variable {osS osC : Os} {clsS clsC : Size} {buffersS buffersC : Buffers} {peerS peerC : Peer}
  {filter : Option (GroupAttr (List Byte) → Unsigned → Unsigned → Bool)}
  {attr : GroupAttr (List Byte)} {a : Accepted} {c : Connected}

/-- The server sends 0 if it returns a group, and -1 if it does not. -/
theorem serverSocketAccept_response (h : serverSocketAccept osS clsS buffersS peerS filter = .ok a) :
    a.grp.isSome ∧ a.response = responseBytes 0 ∨ a.grp = none ∧ a.response = responseBytes (-1) := by
  unfold serverSocketAccept at h
  split at h
  · cases h
    exact Or.inr ⟨rfl, rfl⟩
  · obtain ⟨⟨grp, req, events⟩, -, h⟩ := checkedBind_ok.mp h
    dsimp only at h
    split at h
    · cases h
      exact Or.inr ⟨rfl, rfl⟩
    · split at h
      all_goals
        split at h
        · cases h
          exact Or.inl ⟨rfl, rfl⟩
        · cases h
          exact Or.inr ⟨rfl, rfl⟩

theorem length_response (h : serverSocketAccept osS clsS buffersS peerS filter = .ok a) :
    a.response.length = 4 := by
  rcases serverSocketAccept_response h with ⟨-, hsent⟩ | ⟨-, hsent⟩ <;>
    rw [hsent, responseBytes, length_unsignedBytes]

/-- A response that is delivered arrives as it is. -/
theorem Delivers.received {server : Checked Accepted} (h : Delivers peerC server)
    (h4 : ∀ a, server = .ok a → a.response.length = 4) {response : List Byte}
    {calloc : Size → Bool} (hresponse : uxsocketReceive calloc peerC = some response) :
    ∃ a, server = .ok a ∧ response = a.response := by
  unfold uxsocketReceive at hresponse
  split at hresponse
  · cases hresponse
  · rename_i hpeek
    obtain ⟨a, hserver, hlen, hmessage⟩ := h (Int.not_le.mp hpeek)
    refine ⟨a, hserver, ?_⟩
    dsimp only at hresponse
    split at hresponse
    · cases hresponse
    · split at hresponse
      · cases hresponse
      · rename_i hrecv
        obtain rfl := Option.some.inj hresponse
        have hsize : (BitVec.ofInt 64 peerC.peek).toNat = a.response.length := by
          rw [hlen, h4 a hserver]
          rfl
        rw [Rtipc.received, hmessage, hsize, List.length_replicate, List.take_length,
          List.drop_eq_nil_of_le (List.length_replicate.le), List.append_nil]

/-- The client returns a group only with the consent of the server if and only if no response of another
    length comes, over all calls and for each call; and a server that is `ri_server_socket_accept` consents
    only if it returns a group. -/
theorem connect_accepted_iff (peer : Peer) :
    (NeedsConsent peer ↔ ¬ WrongLength peer) ∧
    (∀ {os : Os} {cls : Size} {buffers : Buffers} {attr : GroupAttr (List Byte)} {c : Connected},
      clientSocketConnect os cls buffers peer attr = .ok c →
        ((c.grp.isSome → Consent buffers peer) ↔ ¬ Misled os cls buffers peer attr)) ∧
    ∀ {osS osC : Os} {clsS clsC : Size} {buffersS buffersC : Buffers} {peerS peerC : Peer}
      {filter : Option (GroupAttr (List Byte) → Unsigned → Unsigned → Bool)}
      {attr : GroupAttr (List Byte)} {c : Connected},
      Delivers peerC (serverSocketAccept osS clsS buffersS peerS filter) →
      clientSocketConnect osC clsC buffersC peerC attr = .ok c → c.grp.isSome →
      ∃ a, serverSocketAccept osS clsS buffersS peerS filter = .ok a ∧ a.grp.isSome := by
  refine ⟨needsConsent_iff peer, consents_iff, fun hdelivers h hgrp => ?_⟩
  obtain ⟨client, hclient⟩ := Option.isSome_iff_exists.mp hgrp
  obtain ⟨-, -, -, -, -, hexchange⟩ := clientSocketConnect_made h hclient
  rcases exchange_nonneg hexchange with
    ⟨response, hresponse, -, hnonneg⟩ | ⟨-, response, hresponse, hlen⟩
  · obtain ⟨a, hserver, rfl⟩ := hdelivers.received (fun _ => length_response) hresponse
    rcases serverSocketAccept_response hserver with ⟨hsome, -⟩ | ⟨-, hrefused⟩
    · exact ⟨a, hserver, hsome⟩
    · rw [hrefused] at hnonneg
      exact absurd hnonneg (by decide)
  · -- the server sends 4 bytes
    obtain ⟨a, hserver, rfl⟩ := hdelivers.received (fun _ => length_response) hresponse
    exact absurd (length_response hserver) hlen

end sides

/-- The socket of a server that receives this request with one descriptor. -/
def Peer.ofRequest (req : List Byte) : Peer where
  sendmsg := 4
  peek := req.length
  recvmsg := req.length
  message := req
  control := [3]

/-- The socket of a client to which this response is sent. -/
def Peer.ofResponse (response : List Byte) : Peer where
  sendmsg := 52
  peek := response.length
  recvmsg := response.length
  message := response
  control := []

set_option maxRecDepth 4000 in
theorem serverSocketAccept_request : ∃ a,
    serverSocketAccept (Os.granting 4096) 64 Buffers.zeroed (.ofRequest (requestOfChannel 8)) none =
      .ok a ∧ a.response = [0, 0, 0, 0] :=
  ⟨_, rfl, rfl⟩

/-- A client that is told 0 by a server. -/
theorem connect_accepted_iff_zero : ¬ WrongLength (.ofResponse [0, 0, 0, 0]) ∧
    NeedsConsent (.ofResponse [0, 0, 0, 0]) ∧ ∃ a,
      serverSocketAccept (Os.granting 4096) 64 Buffers.zeroed (.ofRequest (requestOfChannel 8)) none =
        .ok a ∧ a.grp.isSome := by
  have hlength : ¬ WrongLength (.ofResponse [0, 0, 0, 0]) := by
    rintro ⟨-, response, hresponse, hlen⟩
    have h4 : uxsocketReceive (fun _ => true) (.ofResponse [0, 0, 0, 0]) = some [0, 0, 0, 0] := by
      decide
    obtain rfl := Option.some.inj (h4.symm.trans hresponse)
    exact hlen rfl
  obtain ⟨grp, req, events, hconnect⟩ := clientSocketConnect_pairAttr
  obtain ⟨a, hserver, hresponse⟩ := serverSocketAccept_request
  have hdelivers : Delivers (.ofResponse [0, 0, 0, 0]) (serverSocketAccept (Os.granting 4096) 64
      Buffers.zeroed (.ofRequest (requestOfChannel 8)) none) :=
    fun _ => ⟨a, hserver, by rw [hresponse]; rfl, hresponse.symm⟩
  have hok := hconnect (.ofResponse [0, 0, 0, 0])
  rw [if_neg (by decide)] at hok
  exact ⟨hlength, (connect_accepted_iff _).1.mpr hlength,
    (connect_accepted_iff (.ofResponse [0, 0, 0, 0])).2.2 hdelivers hok rfl⟩

/-- A response of one byte is taken for consent. -/
theorem short_response_accepted : ∃ c,
    clientSocketConnect (Os.granting 4096) 64 Buffers.zeroed (.ofResponse [255]) pairAttr = .ok c ∧
      c.grp.isSome ∧ ¬ Consent Buffers.zeroed (.ofResponse [255]) := by
  obtain ⟨grp, req, events, hconnect⟩ := clientSocketConnect_pairAttr
  have hok := hconnect (.ofResponse [255])
  rw [if_neg (by decide)] at hok
  refine ⟨_, hok, rfl, ?_⟩
  rintro ⟨response, hresponse, hlen, -⟩
  have h1 : uxsocketReceive Buffers.zeroed.calloc (.ofResponse [255]) = some [255] := by decide
  obtain rfl := Option.some.inj (h1.symm.trans hresponse)
  exact absurd hlen (by decide)

end Rtipc
