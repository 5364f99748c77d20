/-
  A request and the descriptors that go with it.

  `ri_group_serialize` writes the request from the attributes that the group was made from, and collects
  the descriptors from the channels as they are.  The two agree as long as nobody has taken the eventfd
  of a channel.

  1. **The statement.**  `in_step_iff`: after any calls on the channels of a group that
     `ri_group_from_attr` has made, a serialisation that succeeds gives a request and descriptors which
     belong together (`InStep`) if and only if no channel with an eventfd is among those whose eventfd
     has been asked for (`Taken`).

  2. **Why one direction is a count.**  A taken descriptor leaves a channel whose entry says that there
     is an eventfd, and one descriptor too few.  `FdsKept.length_lt` is that inequality; from it follows
     that the positions cannot agree either.

  3. **Which calls.**  A `GroupCall` acquires a channel, releases it, or takes its eventfd.  Only the
     last changes a descriptor, and the change is from the descriptor to -1 (`Group.Follows.eventfds`).
-/
import Rtipc.Creation
import Rtipc.GroupCalls
import Rtipc.RequestTable

namespace Rtipc

/-! ## Collecting the descriptors -/

section collect

variable {nFds idx idx' : Unsigned} {fds fds' : List Int} {r : Int}

/-- The first entries of the array, up to `start`, and behind them the eventfds of the channels. -/
structure Collected (nFds : Unsigned) (channels : List ChannelEnd) (start : Unsigned) (fds : List Int)
    (stop : Unsigned) (fds' : List Int) : Prop where
  count : stop.toNat = start.toNat + (eventfds channels).length
  taken : fds'.take stop.toNat = fds.take start.toNat ++ eventfds channels
  length : fds'.length = fds.length
  inside : start.toNat ≤ nFds.toNat → stop.toNat ≤ nFds.toNat

/-- The prefix of a list up to an element that was set. -/
theorem take_set_succ {l : List Int} {n : Nat} (h : n < l.length) (x : Int) :
    (l.set n x).take (n + 1) = l.take n ++ [x] := by
  rw [List.take_add_one, List.getElem?_set_self h, List.take_set_of_le le_rfl]
  rfl

/-- A successful loop over the channels has put their eventfds next to each other. -/
theorem collectEventfds_collected {channels : List ChannelEnd}
    (h : collectEventfds nFds channels idx fds = .ok (r, idx', fds')) (hr : 0 ≤ r) :
    Collected nFds channels idx fds idx' fds' := by
  -- The induction is on the channels; the index is where the next eventfd goes.
  induction channels generalizing idx fds with
  | nil =>
    cases h
    exact ⟨rfl, (List.append_nil _).symm, rfl, id⟩
  | cons channel channels ih =>
    rw [collectEventfds] at h
    split at h
    · rename_i hpos
      split at h
      · cases h
        exact absurd hr (show ¬ (0 : Int) ≤ -ENOMEM by decide)
      · rename_i hlt
        obtain ⟨stored, hstore, h⟩ := checkedBind_ok.mp h
        unfold storeFd at hstore
        split at hstore
        · rename_i hinside
          cases hstore
          rw [ge_iff_le, BitVec.not_le, BitVec.lt_def] at hlt
          have hnFds := nFds.isLt
          have hnext : (idx + 1).toNat = idx.toNat + 1 := by
            rw [BitVec.toNat_add, show (1 : Unsigned).toNat = 1 from rfl]
            exact Nat.mod_eq_of_lt (by omega)
          -- The eventfd has been stored, and the others follow it.
          obtain ⟨hstop, hfds, hlength, hbelow⟩ := ih h
          rw [hnext] at hstop hfds hbelow
          have heventfds := eventfds_cons_of_nonneg hpos channels
          refine ⟨?_, ?_, hlength.trans List.length_set, fun _ => hbelow hlt⟩
          · rw [heventfds, List.length_cons, hstop]
            omega
          · rw [hfds, take_set_succ hinside, heventfds, List.append_assoc]
            rfl
        · cases hstore
    · rename_i hneg
      obtain ⟨hstop, hfds, hlength, hbelow⟩ := ih h
      have heventfds := eventfds_cons_of_neg (not_le.mp hneg) channels
      exact ⟨heventfds ▸ hstop, heventfds ▸ hfds, hlength, hbelow⟩

/-- The descriptors of a request are those of the shared memory and of the channels, the producers
    first. -/
theorem collectFds_collected {grp : Group} {n : Unsigned}
    (h : collectFds grp fds n = .ok (r, fds')) (hr : 0 ≤ r) :
    ∃ shm, grp.shm = some shm ∧
      (BitVec.ofInt 32 r).toNat =
        1 + (eventfds (grp.ends .producer) ++ eventfds (grp.ends .consumer)).length ∧
      fds'.take (BitVec.ofInt 32 r).toNat =
        shm.fd :: (eventfds (grp.ends .producer) ++ eventfds (grp.ends .consumer)) := by
  have hneg : ¬ (0 : Int) ≤ -EINVAL := by decide
  unfold collectFds at h
  split at h
  · cases h
    exact absurd hr hneg
  · cases hshm : grp.shm with
    | none =>
      rw [hshm] at h
      cases h
    | some shm =>
      rw [hshm] at h
      -- The shared memory first,
      obtain ⟨stored, hstore, h⟩ := checkedBind_ok.mp h
      obtain ⟨⟨r₁, mid, fds₁⟩, h₁, h⟩ := checkedBind_ok.mp h
      dsimp only at h
      split at h
      · cases h
        omega
      · rename_i hr₁
        obtain ⟨⟨r₂, stop, fds₂⟩, h₂, h⟩ := checkedBind_ok.mp h
        dsimp only at h
        split at h
        · cases h
          omega
        · rename_i hr₂
          cases h
          -- then the producers, then the consumers.
          have hproducers := collectEventfds_collected h₁ (not_lt.mp hr₁)
          have hconsumers := collectEventfds_collected h₂ (not_lt.mp hr₂)
          have hstop : BitVec.ofInt 32 (intOfUnsigned stop) = stop := BitVec.ofInt_toInt
          unfold storeFd at hstore
          split at hstore
          · rename_i hinside
            cases hstore
            refine ⟨shm, rfl, ?_, ?_⟩
            · rw [hstop, hconsumers.count, hproducers.count, List.length_append, ← Nat.add_assoc]
              rfl
            · rw [hstop, hconsumers.taken, hproducers.taken]
              have hfirst := take_set_succ hinside shm.fd
              rw [show (1 : Unsigned).toNat = (0 : Unsigned).toNat + 1 from rfl, hfirst,
                List.append_assoc]
              rfl
          · cases hstore

end collect

/-! ## Descriptors and entries

  An entry says that there is an eventfd, and the array has one for it, at the same position. -/

/-- The eventfd field is not 0. -/
def Entry.hasEventfd (e : Entry) : Bool := e.eventfd != 0

/-- The descriptors that go with a request: that of the shared memory, and for each entry with an eventfd
    the eventfd of its channel. -/
structure InStep (bs : Wire) (shmfd : Int) (channels : List ChannelEnd) (s : Serialized) : Prop where
  count : ∃ n, s.nFds = some n ∧ n.toNat = 1 + bs.entries.countP (·.hasEventfd)
  fds : s.fds.take (1 + bs.entries.countP (·.hasEventfd)) =
    shmfd :: ((bs.entries.zip channels).filter (·.1.hasEventfd)).map (·.2.eventfd)

section entries

variable {attrs : List (ChannelAttr InfoPtr)} {channels : List ChannelEnd}

/-- The entry of a channel says whether it has an eventfd. -/
theorem Entry.hasEventfd_ofAttr {π : Type} (attr : ChannelAttr π) :
    (Entry.ofAttr attr).hasEventfd = attr.eventfd := by
  rw [Entry.hasEventfd, Entry.ofAttr]
  cases attr.eventfd <;> rfl

/-- The entries with an eventfd are those of the channels that have one. -/
theorem EventfdsMatch.entries (h : EventfdsMatch attrs channels) {f : ChannelAttr InfoPtr → Entry}
    (hf : ∀ attr, (f attr).hasEventfd = attr.eventfd) :
    (attrs.map f).countP (·.hasEventfd) = (eventfds channels).length ∧
      (((attrs.map f).zip channels).filter (·.1.hasEventfd)).map (·.2.eventfd) =
        eventfds channels := by
  induction h with
  | nil => exact ⟨rfl, rfl⟩
  | @cons attr channel attrs channels hfirst hrest ih =>
    obtain ⟨hcount, hzip⟩ := ih
    rw [List.map_cons, List.zip_cons_cons]
    rcases hfirst with ⟨htrue, hpos⟩ | ⟨hfalse, hneg⟩
    · have hset : (f attr).hasEventfd = true := (hf attr).trans htrue
      rw [eventfds_cons_of_nonneg hpos, List.countP_cons_of_pos hset, hcount,
        List.filter_cons_of_pos (by exact hset), List.map_cons, hzip]
      exact ⟨rfl, rfl⟩
    · have hclear : ¬ (f attr).hasEventfd = true := by
        rw [hf attr, hfalse]
        decide
      rw [eventfds_cons_of_neg (by omega), List.countP_cons_of_neg hclear, hcount,
        List.filter_cons_of_neg (by exact hclear), hzip]
      exact ⟨rfl, rfl⟩

/-- What is at one place. -/
theorem EventfdsMatch.at (h : EventfdsMatch attrs channels) (i : Nat) :
    attrs[i]? = none ∧ channels[i]? = none ∨ ∃ attr channel, attrs[i]? = some attr ∧
      channels[i]? = some channel ∧ ((attr.eventfd = true ∧ 0 ≤ channel.eventfd) ∨
        (attr.eventfd = false ∧ channel.eventfd = -1)) := by
  induction h generalizing i with
  | nil => exact Or.inl ⟨rfl, rfl⟩
  | @cons attr channel attrs channels hfirst hrest ih =>
    cases i with
    | zero => exact Or.inr ⟨attr, channel, rfl, rfl, hfirst⟩
    | succ i => exact ih i

/-- The eventfds of two lists of channels. -/
theorem eventfds_append (channels channels' : List ChannelEnd) :
    eventfds (channels ++ channels') = eventfds channels ++ eventfds channels' := by
  rw [eventfds, List.map_append, List.filter_append, eventfds, eventfds]

/-- A request that ends in front of the table has no entry with an eventfd. -/
theorem Wire.hasEventfd_of_short {bs : Wire} (h : bs.length ≤ 20) :
    ∀ e ∈ bs.entries, e.hasEventfd = false := by
  intro e he
  obtain ⟨i, -, rfl⟩ := List.mem_map.mp he
  rw [readAt, List.drop_eq_nil_of_le (by omega)]
  rfl

end entries

/-! ## What has been taken

  A descriptor that has been taken is -1 from then on, and is not collected. -/

section taken

variable {fds fds' : List Int}

/-- The descriptors among these. -/
def openFds (fds : List Int) : List Int := fds.filter fun fd => 0 ≤ fd

/-- What a user takes away is missing. -/
theorem FdsKept.length_le (h : FdsKept fds fds') : (openFds fds').length ≤ (openFds fds).length := by
  induction h with
  | nil => exact le_rfl
  | @cons fd fd' fds fds' hfirst _ ih =>
    rw [openFds, openFds, List.filter_cons, List.filter_cons]
    rcases hfirst with rfl | rfl
    · split
      · exact Nat.succ_le_succ ih
      · exact ih
    · rw [if_neg (by decide)]
      split
      · exact Nat.le_succ_of_le ih
      · exact ih

/-- A descriptor that is gone is missing. -/
theorem FdsKept.length_lt (h : FdsKept fds fds') {i : Nat} {fd : Int} (hfd : fds[i]? = some fd)
    (hpos : 0 ≤ fd) (hgone : fds'[i]? = some (-1)) :
    (openFds fds').length < (openFds fds).length := by
  induction h generalizing i with
  | nil => cases hfd
  | @cons first first' fds fds' hfirst hrest ih =>
    rw [openFds, openFds, List.filter_cons, List.filter_cons]
    cases i with
    | zero =>
      cases hfd
      cases hgone
      rw [if_neg (by decide), if_pos (decide_eq_true hpos)]
      exact Nat.lt_succ_of_le (FdsKept.length_le hrest)
    | succ i =>
      have hlt := ih hfd hgone
      rcases hfirst with rfl | rfl
      · split
        · exact Nat.succ_lt_succ hlt
        · exact hlt
      · rw [if_neg (by decide)]
        split
        · exact Nat.lt_succ_of_lt hlt
        · exact hlt

/-- Each entry is kept or replaced by -1. -/
theorem FdsKept.of_getElem? {f : Nat → Int → Int} (h : ∀ i, fds'[i]? = fds[i]?.map (f i))
    (hf : ∀ i fd, f i fd = fd ∨ f i fd = -1) : FdsKept fds fds' := by
  induction fds generalizing fds' f with
  | nil =>
    obtain rfl : fds' = [] := List.getElem?_eq_none_iff.mp (h 0) |> fun hle =>
      List.length_eq_zero_iff.mp (Nat.le_zero.mp hle)
    exact List.Forall₂.nil
  | cons fd fds ih =>
    cases fds' with
    | nil => exact absurd (h 0) (by simp)
    | cons fd' fds' =>
      have hfirst : fd' = f 0 fd := Option.some.inj (h 0)
      refine List.Forall₂.cons ?_ (ih (f := fun i => f (i + 1)) (fun i => h (i + 1))
        fun i => hf (i + 1))
      rw [hfirst]
      exact hf 0 fd

end taken

/-! ## Serialising after any calls -/

/-- Infos are not written over the table: where they start depends on 32 bits of the number of
    channels. -/
def GroupData.InfosBehind (data : GroupData) : Prop :=
  data.nProducers.toNat + data.nConsumers.toNat < 2 ^ 32 ∨
    data.info.size = 0 ∧ ∀ role, ∀ attr ∈ data.attrs role, attr.info.size = 0

section serialize

variable {os : Os} {cls : Size} {attr : GroupAttr (List Byte)} {grp grp' : Group} {events : List Event}
  {req : List Byte} {size : Size} {fds : List Int} {nFds : Option Unsigned} {s : Serialized}

/-- A successful `ri_group_serialize` has written the request and collected the descriptors. -/
theorem groupSerialize_some (h : groupSerialize cls grp req size fds nFds = .ok s) (hr : 0 ≤ s.r) :
    ∃ n r, requestWrite cls grp.data.view req size = .ok (s.r, s.req) ∧
      collectFds grp fds n = .ok (r, s.fds) ∧ 0 ≤ r ∧ s.nFds = some (BitVec.ofInt 32 r) := by
  have hneg : ¬ (0 : Int) ≤ -EINVAL := by decide
  unfold groupSerialize at h
  split at h
  · cases h
    exact absurd hr hneg
  · rename_i n
    split at h
    · cases h
      exact absurd hr hneg
    · obtain ⟨⟨written, req'⟩, hwrite, h⟩ := checkedBind_ok.mp h
      dsimp only at h
      split at h
      · rename_i hlt
        cases h
        exact absurd hr (not_le.mpr hlt)
      · obtain ⟨⟨r, fds'⟩, hcollect, h⟩ := checkedBind_ok.mp h
        dsimp only at h
        split at h
        · rename_i hlt
          cases h
          exact absurd hr (not_le.mpr hlt)
        · rename_i hpos
          cases h
          exact ⟨n, r, hwrite, hcollect, not_lt.mp hpos, rfl⟩

/-- The request begins with the fields and the entries of the attributes. -/
theorem Group.Created.tabled {consumers producers : List (ChannelAttr (List Byte))}
    {cs ps : List (ChannelAttr InfoPtr)} {shm : Shm} {req' : List Byte} {r : Int}
    (h : Group.Created os cls attr consumers producers cs ps grp shm)
    (hinfos : grp.data.InfosBehind) (hsmall : req.length ≤ ptrdiffMax)
    (hwrite : requestWrite cls grp.data.view req size = .ok (r, req')) (hr : 0 ≤ r) :
    req'.length = req.length ∧ (ps ++ cs = [] ∧ (req'.take size.toNat).length < 20 ∨
      20 + 16 * (ps ++ cs).length ≤ (req'.take size.toNat).length ∧
        Wire.Tabled (req'.take size.toNat) cls grp.data.view.info
          (ps.map (ChannelAttr.resolve (grp.data.memInfos.getD [])))
          (cs.map (ChannelAttr.resolve (grp.data.memInfos.getD [])))) := by
  obtain ⟨hlistsC, hlistsP⟩ := h.data.view_lists
  obtain ⟨hattrsC, hattrsP⟩ := h.data.attrs
  set resolve := ChannelAttr.resolve (grp.data.memInfos.getD []) with hresolve
  have hlenP : ps.length = grp.data.nProducers.toNat := by
    rw [h.data.length.2, h.data.nProducers]
  have hlenC : cs.length = grp.data.nConsumers.toNat := by
    rw [h.data.length.1, h.data.nConsumers]
  have hltP := grp.data.nProducers.isLt
  have hltC := grp.data.nConsumers.isLt
  -- An info of size 0 is not written, and neither is one of a channel without info.
  have habsent (role : Role) (hall : ∀ attr ∈ grp.data.attrs role, attr.info.size = 0) :
      ∀ a ∈ (grp.data.attrs role).map resolve, a.info.Absent := by
    intro a ha
    obtain ⟨source, hsource, rfl⟩ := List.mem_map.mp ha
    exact Or.inr (hall source hsource)
  have hroom : (ps.map resolve ++ cs.map resolve).length < 2 ^ 32 ∨ grp.data.view.info.Absent ∧
      ∀ a ∈ ps.map resolve ++ cs.map resolve, a.info.Absent := by
    refine hinfos.imp (fun hlt => ?_) fun hnone => ⟨Or.inr hnone.1, fun a ha => ?_⟩
    · rw [List.length_append, List.length_map, List.length_map, hlenP, hlenC]
      exact hlt
    · rw [← hattrsP, ← hattrsC] at ha
      rcases List.mem_append.mp ha with ha | ha
      · exact habsent .producer (hnone.2 .producer) a ha
      · exact habsent .consumer (hnone.2 .consumer) a ha
  -- The group's own attribute is what is written, its channels resolved in its block.
  obtain ⟨hlength, hcases⟩ := requestWrite_table hlistsP hlistsC hroom hsmall hwrite hr
  refine ⟨hlength, ?_⟩
  rw [← List.map_append, List.length_map] at hcases
  rcases hcases with ⟨hnil, hlt, -⟩ | ⟨hle, htake⟩
  · rw [List.map_eq_nil_iff] at hnil
    refine Or.inl ⟨hnil, ?_⟩
    rw [List.length_take]
    omega
  · refine Or.inr ⟨?_, Wire.Tabled.of_take ?_ ?_ ?_⟩
    · have hlen := congrArg List.length htake
      simp only [List.length_take, List.length_append, length_frontImage, length_tableImage,
        List.length_map] at hlen hle ⊢
      omega
    · rw [List.length_map, hlenP]
      exact hltP
    · rw [List.length_map, hlenC]
      exact hltC
    · rw [← List.map_append, List.length_map, List.take_take, Nat.min_eq_left hle, htake]

/-- A group is whole when it is created. -/
theorem Group.Built.whole {first : Role} {shm : Shm} (h : grp.Built cls first shm) : grp.Whole := by
  have hflag {c : ChannelEnd} (howners : c.owners = ownerGroupFlag) :
      c.owners &&& ownerGroupFlag ≠ 0 := by
    rw [howners]
    decide
  refine ⟨⟨shm, h.mapping⟩, fun role c hc => ?_⟩
  by_cases hrole : role = first
  · subst hrole
    exact hflag (h.placed.owners c hc)
  · obtain rfl : role = first.other := by
      cases role <;> cases first <;> first | rfl | exact absurd rfl hrole
    exact hflag (h.placedNext.owners c hc)

/-- A group as created has the eventfds that its attribute asks for. -/
theorem Group.Created.eventfds {consumers producers : List (ChannelAttr (List Byte))}
    {cs ps : List (ChannelAttr InfoPtr)} {shm : Shm}
    (h : Group.Created os cls attr consumers producers cs ps grp shm) :
    EventfdsMatch (ps ++ cs) (grp.ends .producer ++ grp.ends .consumer) := by
  obtain ⟨hattrsC, hattrsP⟩ := h.data.attrs
  have hp := h.built.eventfds .producer
  have hc := h.built.eventfds .consumer
  rw [hattrsP] at hp
  rw [hattrsC] at hc
  exact List.rel_append hp hc

/-- The entries with an eventfd, and the channels that were created with one. -/
theorem Group.Created.entries_eventfds {consumers producers : List (ChannelAttr (List Byte))}
    {cs ps : List (ChannelAttr InfoPtr)} {shm : Shm} {req' : List Byte} {r : Int}
    (h : Group.Created os cls attr consumers producers cs ps grp shm)
    (hinfos : grp.data.InfosBehind) (hsmall : req.length ≤ ptrdiffMax)
    (hwrite : requestWrite cls grp.data.view req size = .ok (r, req')) (hr : 0 ≤ r) :
    (Wire.entries (req'.take size.toNat)).countP (·.hasEventfd) =
        (Rtipc.eventfds (grp.ends .producer ++ grp.ends .consumer)).length ∧
      (((Wire.entries (req'.take size.toNat)).zip
        (grp.ends .producer ++ grp.ends .consumer)).filter (·.1.hasEventfd)).map (·.2.eventfd) =
          Rtipc.eventfds (grp.ends .producer ++ grp.ends .consumer) := by
  have hmatch := h.eventfds
  rcases (h.tabled hinfos hsmall hwrite hr).2 with ⟨hnil, hshort⟩ | ⟨-, htabled⟩
  · rw [hnil] at hmatch
    have hends : grp.ends .producer ++ grp.ends .consumer = [] :=
      List.length_eq_zero_iff.mp hmatch.length_eq.symm
    rw [hends, List.zip_nil_right]
    refine ⟨?_, rfl⟩
    rw [List.countP_eq_zero.mpr fun e he => by rw [Wire.hasEventfd_of_short hshort.le e he]; decide]
    rfl
  · rw [htabled.entries_eq, ← List.map_append, List.map_map]
    exact hmatch.entries fun attr => Entry.hasEventfd_ofAttr (attr.resolve _)

/-- The eventfds that a group is left with. -/
theorem Group.Follows.eventfds {calls : List GroupCall}
    (h : grp.Follows (GroupCall.eventfdAll calls) grp') (role : Role) :
    FdsKept ((grp.ends role).map (·.eventfd)) ((grp'.ends role).map (·.eventfd)) := by
  refine FdsKept.of_getElem? (f := GroupCall.eventfdAll calls role) (fun i => ?_) fun i fd => ?_
  · rw [List.getElem?_map, List.getElem?_map]
    exact h.eventfdAt role i
  · by_cases htaken : Taken calls role i
    · exact Or.inr ((GroupCall.eventfdAll_eq calls role i fd).1 htaken)
    · exact Or.inl ((GroupCall.eventfdAll_eq calls role i fd).2 htaken)

/-- The calls of users add no eventfd. -/
theorem Group.Follows.eventfds_le {calls : List GroupCall}
    (h : grp.Follows (GroupCall.eventfdAll calls) grp') (role : Role) :
    (Rtipc.eventfds (grp'.ends role)).length ≤ (Rtipc.eventfds (grp.ends role)).length :=
  (h.eventfds role).length_le

/-- An eventfd that has been taken is missing. -/
theorem Group.Follows.eventfds_lt {calls : List GroupCall}
    (h : grp.Follows (GroupCall.eventfdAll calls) grp') {role : Role} {i : Nat} {channel : ChannelEnd}
    (hchannel : (grp.ends role)[i]? = some channel) (hpos : 0 ≤ channel.eventfd)
    (htaken : Taken calls role i) :
    (Rtipc.eventfds (grp'.ends role)).length < (Rtipc.eventfds (grp.ends role)).length := by
  refine (h.eventfds role).length_lt (i := i) ?_ hpos ?_
  · rw [List.getElem?_map, hchannel]
    rfl
  · have hat := h.eventfdAt role i
    rw [Group.eventfdAt, Group.eventfdAt, hchannel] at hat
    rw [List.getElem?_map, hat]
    exact congrArg some ((GroupCall.eventfdAll_eq calls role i _).1 htaken)

/-- Nothing is missing if only channels without an eventfd have been asked for it. -/
theorem Group.Follows.eventfds_eq {calls : List GroupCall}
    (h : grp.Follows (GroupCall.eventfdAll calls) grp') {role : Role} {attrs : List (ChannelAttr InfoPtr)}
    (hmatch : EventfdsMatch attrs (grp.ends role))
    (hkept : ∀ i, Taken calls role i → ∀ attr, attrs[i]? = some attr → attr.eventfd = false) :
    Rtipc.eventfds (grp'.ends role) = Rtipc.eventfds (grp.ends role) := by
  have hmap : (grp'.ends role).map (·.eventfd) = (grp.ends role).map (·.eventfd) := by
    refine List.ext_getElem? fun i => ?_
    have hat := h.eventfdAt role i
    rw [Group.eventfdAt, Group.eventfdAt] at hat
    rw [List.getElem?_map, List.getElem?_map, hat]
    rcases hmatch.at i with ⟨-, hnone⟩ | ⟨attr, channel, hattr, hchannel, hfirst⟩
    · rw [hnone]
      rfl
    · rw [hchannel]
      refine congrArg some ?_
      by_cases htaken : Taken calls role i
      · rcases hfirst with ⟨htrue, -⟩ | ⟨-, hminus⟩
        · rw [hkept i htaken attr hattr] at htrue
          cases htrue
        · exact ((GroupCall.eventfdAll_eq calls role i _).1 htaken).trans hminus.symm
      · exact (GroupCall.eventfdAll_eq calls role i _).2 htaken
  rw [Rtipc.eventfds, hmap, Rtipc.eventfds]

/-- A group that has been created, after any calls on its channels: the descriptors are those that the
    request says if and only if nobody has taken an eventfd. -/
theorem in_step_iff (hcreated : groupFromAttr os cls attr = .ok (some grp, events))
    (hinfos : grp.data.InfosBehind) (calls : List GroupCall) :
    ∃ shm grp', grp.shm = some shm ∧ grp.calls calls = some grp' ∧
      ∀ (req : List Byte) (size : Size) (fds : List Int) (nFds : Option Unsigned) (s : Serialized),
        req.length ≤ ptrdiffMax → groupSerialize cls grp' req size fds nFds = .ok s → 0 ≤ s.r →
          (InStep (s.req.take size.toNat) shm.fd (grp.ends .producer ++ grp.ends .consumer) s ↔
            ∀ role i, Taken calls role i → ∀ attr, (grp.data.attrs role)[i]? = some attr →
              attr.eventfd = false) := by
  -- A group as created, and what is left of it after the calls.
  obtain ⟨consumers, producers, cs, ps, shm, hgrp⟩ := groupFromAttr_some hcreated
  obtain ⟨grp', hcalls, hfollows⟩ := Group.calls_follows hgrp.built.whole calls
  refine ⟨shm, grp', hgrp.built.mapping, hcalls, fun req size fds nFds s hsmall hserialize hr => ?_⟩
  obtain ⟨n, r, hwrite, hcollect, hr', hnFds⟩ := groupSerialize_some hserialize hr
  rw [hfollows.data] at hwrite
  obtain ⟨hcount, hzip⟩ := hgrp.entries_eventfds hinfos hsmall hwrite hr
  -- The descriptors that were collected are those the channels still have.
  obtain ⟨shm', hshm', hlength, htake⟩ := collectFds_collected hcollect hr'
  rw [hfollows.shm, hgrp.built.mapping] at hshm'
  cases hshm'
  rw [eventfds_append, List.length_append] at hcount
  rw [List.length_append] at hlength
  constructor
  · -- a descriptor that was taken away is missing in the count
    intro hstep role i htaken attr hattr
    obtain ⟨m, hm, hmcount⟩ := hstep.count
    rw [hnFds] at hm
    cases hm
    rw [hlength, hcount] at hmcount
    rcases (hgrp.built.eventfds role).at i with ⟨hnone, -⟩ | ⟨attr', channel, hattr', hchannel, hmatch⟩
    · rw [hattr] at hnone
      cases hnone
    · rw [hattr] at hattr'
      cases hattr'
      rcases hmatch with ⟨-, hpos⟩ | ⟨hfalse, -⟩
      · have hlt := hfollows.eventfds_lt hchannel hpos htaken
        have hleP := hfollows.eventfds_le .producer
        have hleC := hfollows.eventfds_le .consumer
        cases role <;> omega
      · exact hfalse
  · -- no eventfd was taken, so descriptors and entries run alike
    intro hkept
    have hproducers := hfollows.eventfds_eq (hgrp.built.eventfds .producer) (hkept .producer)
    have hconsumers := hfollows.eventfds_eq (hgrp.built.eventfds .consumer) (hkept .consumer)
    rw [hproducers, hconsumers] at hlength htake
    refine ⟨⟨_, hnFds, ?_⟩, ?_⟩
    · rw [hlength, hcount]
    · rw [hcount, hzip, eventfds_append, ← hlength]
      exact htake

end serialize

/-- The calls of an application that takes the consumer, and of one that takes its eventfd as well. -/
def borrowCalls : List GroupCall := [.acquire .consumer 0, .release .consumer 0]

/-- A user who takes the eventfd of the first consumer away. -/
def takeCalls : List GroupCall := [.acquire .consumer 0, .takeEventfd .consumer 0, .release .consumer 0]

/-- A group of a producer and of a consumer with an eventfd, serialised after these calls. -/
theorem groupSerialize_pair : ∃ grp events,
    groupFromAttr (Os.granting 4096) 64 pairAttr = .ok (some grp, events) ∧ grp.data.InfosBehind ∧
      (∃ shm, grp.shm = some shm) ∧
      (∃ grp', grp.calls borrowCalls = some grp' ∧ ∃ s,
        groupSerialize 64 grp' (List.replicate 52 0) 52 [0, 0] (some 2) = .ok s ∧ 0 ≤ s.r) ∧
      ∃ grp', grp.calls takeCalls = some grp' ∧ ∃ s,
        groupSerialize 64 grp' (List.replicate 52 0) 52 [0, 0] (some 2) = .ok s ∧ 0 ≤ s.r ∧
          s.nFds = some 1 ∧ (Wire.entries (s.req.take 52)).countP (·.hasEventfd) = 1 := by
  refine ⟨_, _, rfl, ?_⟩
  refine ⟨Or.inl (by decide), ⟨_, rfl⟩, ⟨_, rfl, ?_⟩, _, rfl, ?_⟩
  · exact ⟨_, rfl, by decide⟩
  · refine ⟨_, rfl, ?_⟩
    exact ⟨by decide, rfl, by decide⟩

/-- The descriptors are those of the shared memory and of the consumer. -/
theorem in_step_iff_borrowed : ∃ grp events shm grp' s,
    groupFromAttr (Os.granting 4096) 64 pairAttr = .ok (some grp, events) ∧ grp.shm = some shm ∧
      grp.calls borrowCalls = some grp' ∧
      groupSerialize 64 grp' (List.replicate 52 0) 52 [0, 0] (some 2) = .ok s ∧
      InStep (s.req.take 52) shm.fd (grp.ends .producer ++ grp.ends .consumer) s := by
  obtain ⟨grp, events, hcreated, hinfos, -, ⟨grp', hcalls, s, hserialize, hr⟩, -⟩ := groupSerialize_pair
  obtain ⟨shm, grp'', hshm, hcalls', hall⟩ := in_step_iff hcreated hinfos borrowCalls
  obtain rfl := Option.some.inj (hcalls.symm.trans hcalls')
  have hlen : (List.replicate 52 (0 : Byte)).length ≤ ptrdiffMax := by decide
  refine ⟨grp, events, shm, grp', s, hcreated, hshm, hcalls, hserialize,
    (hall _ 52 _ _ s hlen hserialize hr).mpr ?_⟩
  rintro role i ⟨index, -, hmem⟩
  rw [borrowCalls, List.mem_cons, List.mem_singleton] at hmem
  rcases hmem with hmem | hmem <;> cases hmem

/-- The eventfd that has been taken is missing. -/
theorem taken_eventfd_missing : ¬ ∀ (os : Os) (cls : Size) (attr : GroupAttr (List Byte)) (grp : Group)
    (events : List Event) (shm : Shm) (calls : List GroupCall) (grp' : Group) (req : List Byte)
    (size : Size) (fds : List Int) (nFds : Option Unsigned) (s : Serialized),
    groupFromAttr os cls attr = .ok (some grp, events) → grp.shm = some shm →
      grp.calls calls = some grp' → req.length ≤ ptrdiffMax →
        groupSerialize cls grp' req size fds nFds = .ok s → 0 ≤ s.r →
          InStep (s.req.take size.toNat) shm.fd (grp.ends .producer ++ grp.ends .consumer) s := by
  intro hall
  obtain ⟨grp, events, hcreated, -, ⟨shm, hshm⟩, -, grp', hcalls, s, hserialize, hr, hnFds, hentries⟩ :=
    groupSerialize_pair
  have hlen : (List.replicate 52 (0 : Byte)).length ≤ ptrdiffMax := by decide
  have hstep := hall _ 64 _ grp events shm takeCalls grp' _ 52 _ _ s hcreated hshm hcalls hlen
    hserialize hr
  obtain ⟨n, hn, hcount⟩ := hstep.count
  rw [hnFds] at hn
  cases hn
  rw [show (52 : Size).toNat = 52 from rfl, hentries] at hcount
  exact absurd hcount (by decide)

end Rtipc
