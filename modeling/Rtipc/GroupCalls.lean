/-
  What applications do with the channels of a group: `ri_group_acquire_consumer`,
  `ri_consumer_take_eventfd`, `ri_consumer_release`, and the same for producers.

  As long as the group is there, none of this deletes a channel, and the only thing that it changes
  apart from who has a channel is that `take_eventfd` leaves -1 in place of the eventfd.
-/
import Rtipc.GroupResults

namespace Rtipc

/-- A call with the channel of this role at this index. -/
inductive GroupCall where
  | acquire (role : Role) (index : Unsigned)
  | takeEventfd (role : Role) (index : Unsigned)
  | release (role : Role) (index : Unsigned)
  deriving DecidableEq, Repr

namespace Group

/-- The array of pointers of this role, changed by `f`. -/
def mapEnds (grp : Group) (role : Role) (f : List ChannelEnd → List ChannelEnd) : Group :=
  match role with
  | .consumer => { grp with consumers := grp.consumers.map f }
  | .producer => { grp with producers := grp.producers.map f }

/-- A call.  There is nothing to call it with if there is no such channel; `none` if the channel is
    deleted, and the group is left with a pointer to it. -/
def call (grp : Group) : GroupCall → Option Group
  | .acquire role index => some (grp.mapEnds role fun channels => (acquireChannel channels index).2)
  | .takeEventfd role index =>
    match (grp.ends role)[index.toNat]? with
    | none => some grp
    | some channel => some (grp.mapEnds role (·.set index.toNat channel.takeEventfd.2))
  | .release role index =>
    match (grp.ends role)[index.toNat]?, grp.shm with
    | none, _ => some grp
    | some _, none => none
    | some channel, some shm =>
      match channel.release role index.toNat shm with
      | (none, _, _) => none
      | (some channel, shm, _) =>
        some { grp.mapEnds role (·.set index.toNat channel) with shm := some shm }

/-- The calls one after the other. -/
def calls : Group → List GroupCall → Option Group
  | grp, [] => some grp
  | grp, c :: cs => (grp.call c).bind fun grp => grp.calls cs

end Group

/-- The eventfd of the channel of this role at this index after a call. -/
def GroupCall.eventfd (c : GroupCall) (role : Role) (i : Nat) (eventfd : Int) : Int :=
  match c with
  | .takeEventfd role' index => if role' = role ∧ index.toNat = i then -1 else eventfd
  | _ => eventfd

/-- The eventfd of the channel of this role at this index has been taken. -/
def Taken (calls : List GroupCall) (role : Role) (i : Nat) : Prop :=
  ∃ index : Unsigned, index.toNat = i ∧ GroupCall.takeEventfd role index ∈ calls

/-! ## What a call changes

  One end of the group, and of that end the word `owners` or the descriptor. -/

/-- The eventfd of the channel of this role at this index. -/
def Group.eventfdAt (grp : Group) (role : Role) (i : Nat) : Option Int :=
  ((grp.ends role)[i]?).map (·.eventfd)

/-- The group has all its channels, and the shared memory. -/
structure Group.Whole (grp : Group) : Prop where
  shm : ∃ shm, grp.shm = some shm
  owners : ∀ role, ∀ c ∈ grp.ends role, c.owners &&& ownerGroupFlag ≠ 0

/-- What is left of a group by calls that change the eventfds by `f`. -/
structure Group.Follows (grp : Group) (f : Role → Nat → Int → Int) (grp' : Group) : Prop where
  whole : grp'.Whole
  data : grp'.data = grp.data
  shm : grp'.shm = grp.shm
  eventfdAt : ∀ role i, grp'.eventfdAt role i = (grp.eventfdAt role i).map (f role i)

section call

variable {grp grp' : Group} {role : Role} {channel channel' : ChannelEnd} {i : Nat}

/-- A change of the ends of one role leaves the other role alone. -/
theorem Group.ends_mapEnds (role : Role) {f : List ChannelEnd → List ChannelEnd} (hf : f [] = [])
    (role' : Role) :
    (grp.mapEnds role f).ends role' = if role' = role then f (grp.ends role) else grp.ends role' := by
  have helements (array : Option (List ChannelEnd)) : elements (array.map f) = f (elements array) := by
    cases array with
    | none => exact hf.symm
    | some channels => rfl
  cases role <;> cases role' <;> first | exact helements _ | rfl

/-- It leaves the data and the shared memory alone, too. -/
theorem Group.mapEnds_data (role : Role) (f : List ChannelEnd → List ChannelEnd) :
    (grp.mapEnds role f).data = grp.data ∧ (grp.mapEnds role f).shm = grp.shm := by
  cases role <;> exact ⟨rfl, rfl⟩

/-- A channel is exchanged for one that the group still has. -/
theorem Group.Whole.set (h : grp.Whole) (hchannel : (grp.ends role)[i]? = some channel)
    (howners : channel'.owners &&& ownerGroupFlag ≠ 0) {f : Role → Nat → Int → Int}
    (hchanged : f role i channel.eventfd = channel'.eventfd)
    (hkept : ∀ role' j fd, ¬ (role' = role ∧ j = i) → f role' j fd = fd) :
    grp.Follows f (grp.mapEnds role (·.set i channel')) := by
  obtain ⟨hdata, hshm⟩ := grp.mapEnds_data role (·.set i channel')
  have hends (role' : Role) := grp.ends_mapEnds role (f := (·.set i channel')) rfl role'
  refine ⟨⟨hshm ▸ h.shm, fun role' c hc => ?_⟩, hdata, hshm, fun role' j => ?_⟩
  · rw [hends] at hc
    split at hc
    · rcases List.mem_or_eq_of_mem_set hc with hc | rfl
      · exact h.owners role c hc
      · exact howners
    · exact h.owners role' c hc
  · rw [Group.eventfdAt, Group.eventfdAt, hends]
    by_cases hrole : role' = role
    · subst hrole
      rw [if_pos rfl, List.getElem?_set]
      by_cases hij : i = j
      · subst hij
        obtain ⟨hlt, -⟩ := List.getElem?_eq_some_iff.mp hchannel
        rw [if_pos rfl, if_pos hlt, hchannel]
        exact congrArg some hchanged.symm
      · rw [if_neg hij, Option.map_map]
        refine Option.map_congr fun c _ => ?_
        exact (hkept role' j c.eventfd fun heq => hij heq.2.symm).symm
    · rw [if_neg hrole, Option.map_map]
      refine Option.map_congr fun c _ => ?_
      exact (hkept role' j c.eventfd fun heq => hrole heq.1).symm

/-- A group follows itself, if no eventfd of it is changed. -/
theorem Group.Whole.refl (h : grp.Whole) {f : Role → Nat → Int → Int}
    (hf : ∀ role i fd, grp.eventfdAt role i = some fd → f role i fd = fd) : grp.Follows f grp := by
  refine ⟨h, rfl, rfl, fun role i => ?_⟩
  cases hat : grp.eventfdAt role i with
  | none => rfl
  | some fd => rw [Option.map_some, hf role i fd hat]

/-- Only what becomes of the ends matters. -/
theorem Group.mapEnds_congr {f g : List ChannelEnd → List ChannelEnd}
    (h : f (grp.ends role) = g (grp.ends role)) : grp.mapEnds role f = grp.mapEnds role g := by
  have hmap (array : Option (List ChannelEnd)) (heq : f (elements array) = g (elements array)) :
      array.map f = array.map g := by
    cases array with
    | none => rfl
    | some channels => exact congrArg some heq
  cases role with
  | consumer => rw [Group.mapEnds, Group.mapEnds, hmap grp.consumers h]
  | producer => rw [Group.mapEnds, Group.mapEnds, hmap grp.producers h]

/-- No change at all. -/
theorem Group.mapEnds_self : grp.mapEnds role id = grp := by
  have hmap (array : Option (List ChannelEnd)) : array.map id = array := Option.map_id_apply
  cases role with
  | consumer => rw [Group.mapEnds, hmap]
  | producer => rw [Group.mapEnds, hmap]

/-- The group has the shared memory that it has. -/
theorem Group.with_shm {shm : Shm} (h : grp.shm = some shm) : { grp with shm := some shm } = grp := by
  rw [← h]

/-! ## One call -/

/-- `ri_group_acquire_*` of an end that is there. -/
theorem acquireChannel_some {channels : List ChannelEnd} {index : Unsigned}
    (h : channels[index.toNat]? = some channel) :
    (acquireChannel channels index).2 = channels.set index.toNat channel.acquire.2 := by
  rw [acquireChannel, h]
  dsimp only
  split <;> rfl

/-- An index outside the table changes nothing. -/
theorem acquireChannel_none {channels : List ChannelEnd} {index : Unsigned}
    (h : channels[index.toNat]? = none) : (acquireChannel channels index).2 = channels := by
  rw [acquireChannel, h]

/-- A user that acquires an end does not take it from the group. -/
theorem ownerGroupFlag_or (owners : Unsigned) :
    (owners ||| ownerUserFlag) &&& ownerGroupFlag = owners &&& ownerGroupFlag := by
  have hdisjoint : ownerUserFlag &&& ownerGroupFlag = 0#32 := by decide
  rw [BitVec.and_or_distrib_right, hdisjoint, BitVec.or_zero]

/-- No call deletes a channel. -/
theorem Group.call_follows (h : grp.Whole) (c : GroupCall) :
    ∃ grp', grp.call c = some grp' ∧ grp.Follows c.eventfd grp' := by
  have hflag {role : Role} {i : Nat} {channel : ChannelEnd}
      (hchannel : (grp.ends role)[i]? = some channel) : channel.owners &&& ownerGroupFlag ≠ 0 :=
    h.owners role channel (List.mem_of_getElem? hchannel)
  obtain ⟨shm, hshm⟩ := h.shm
  cases c with
  | acquire role index =>
    refine ⟨_, rfl, ?_⟩
    cases hchannel : (grp.ends role)[index.toNat]? with
    | none =>
      rw [Group.mapEnds_congr (g := id) (acquireChannel_none hchannel), Group.mapEnds_self]
      exact h.refl fun _ _ _ _ => rfl
    | some channel =>
      rw [Group.mapEnds_congr (g := (·.set index.toNat channel.acquire.2))
        (acquireChannel_some hchannel)]
      refine h.set hchannel ?_ rfl fun _ _ _ _ => rfl
      show (channel.owners ||| ownerUserFlag) &&& ownerGroupFlag ≠ 0
      rw [ownerGroupFlag_or]
      exact hflag hchannel
  | takeEventfd role index =>
    rw [Group.call]
    cases hchannel : (grp.ends role)[index.toNat]? with
    | none =>
      refine ⟨grp, rfl, h.refl fun role' i fd hat => ?_⟩
      rw [GroupCall.eventfd]
      split
      · rename_i heq
        rw [Group.eventfdAt, ← heq.1, ← heq.2, hchannel] at hat
        cases hat
      · rfl
    | some channel =>
      have hkept : channel.takeEventfd.2.owners &&& ownerGroupFlag ≠ 0 := by
        show channel.owners &&& ownerGroupFlag ≠ 0
        exact hflag hchannel
      refine ⟨_, rfl, h.set hchannel hkept ?_ fun role' j fd hne => ?_⟩
      · exact if_pos ⟨rfl, rfl⟩
      · exact if_neg fun heq => hne ⟨heq.1.symm, heq.2.symm⟩
  | release role index =>
    rw [Group.call, hshm]
    cases hchannel : (grp.ends role)[index.toNat]? with
    | none => exact ⟨grp, rfl, h.refl fun _ _ _ _ => rfl⟩
    | some channel =>
      have hrelease : channel.release role index.toNat shm =
          (some { channel with owners := channel.owners &&& ownerGroupFlag }, shm, []) :=
        if_neg (hflag hchannel)
      simp only [hrelease]
      have hsame := (grp.mapEnds_data role (·.set index.toNat
        { channel with owners := channel.owners &&& ownerGroupFlag })).2.trans hshm
      refine ⟨_, congrArg some (Group.with_shm hsame), h.set hchannel ?_ rfl fun _ _ _ _ => rfl⟩
      show channel.owners &&& ownerGroupFlag &&& ownerGroupFlag ≠ 0
      rw [BitVec.and_assoc, BitVec.and_self]
      exact hflag hchannel

end call

/-! ## All calls -/

section calls

variable {grp grp' grp'' : Group}

/-- One call after the other, with what they do to the eventfds one after the other. -/
theorem Group.Follows.trans {f g : Role → Nat → Int → Int} (h : grp.Follows f grp')
    (h' : grp'.Follows g grp'') : grp.Follows (fun role i => g role i ∘ f role i) grp'' := by
  refine ⟨h'.whole, h'.data.trans h.data, h'.shm.trans h.shm, fun role i => ?_⟩
  rw [h'.eventfdAt, h.eventfdAt, Option.map_map]

/-- The calls one after the other, on an eventfd. -/
def GroupCall.eventfdAll (cs : List GroupCall) (role : Role) (i : Nat) (eventfd : Int) : Int :=
  cs.foldl (fun eventfd c => c.eventfd role i eventfd) eventfd

/-- After any calls the group is whole. -/
theorem Group.calls_follows (h : grp.Whole) (cs : List GroupCall) :
    ∃ grp', grp.calls cs = some grp' ∧ grp.Follows (GroupCall.eventfdAll cs) grp' := by
  induction cs generalizing grp with
  | nil => exact ⟨grp, rfl, h.refl fun _ _ _ _ => rfl⟩
  | cons c cs ih =>
    obtain ⟨next, hcall, hfirst⟩ := Group.call_follows h c
    obtain ⟨grp', hcalls, hrest⟩ := ih hfirst.whole
    refine ⟨grp', ?_, hfirst.trans hrest⟩
    rw [Group.calls, hcall]
    exact hcalls

/-- An eventfd that is gone stays gone. -/
theorem GroupCall.eventfdAll_minus (cs : List GroupCall) (role : Role) (i : Nat) :
    GroupCall.eventfdAll cs role i (-1) = -1 := by
  induction cs with
  | nil => rfl
  | cons c cs ih =>
    have hfirst : c.eventfd role i (-1) = -1 := by
      cases c with
      | takeEventfd role' index =>
        rw [GroupCall.eventfd]
        split <;> rfl
      | acquire role' index => rfl
      | release role' index => rfl
    rw [GroupCall.eventfdAll, List.foldl_cons, hfirst]
    exact ih

/-- An eventfd that has been taken is gone, the others are as they were. -/
theorem GroupCall.eventfdAll_eq (cs : List GroupCall) (role : Role) (i : Nat) (eventfd : Int) :
    (Taken cs role i → GroupCall.eventfdAll cs role i eventfd = -1) ∧
      (¬ Taken cs role i → GroupCall.eventfdAll cs role i eventfd = eventfd) := by
  induction cs with
  | nil =>
    exact ⟨fun ⟨_, _, hmem⟩ => (by cases hmem), fun _ => rfl⟩
  | cons c cs ih =>
    rw [show GroupCall.eventfdAll (c :: cs) role i eventfd =
      GroupCall.eventfdAll cs role i (c.eventfd role i eventfd) from rfl]
    by_cases hfirst : ∃ index : Unsigned, index.toNat = i ∧ c = .takeEventfd role index
    · obtain ⟨index, hindex, rfl⟩ := hfirst
      rw [show (GroupCall.takeEventfd role index).eventfd role i eventfd = -1 from
        if_pos ⟨rfl, hindex⟩, GroupCall.eventfdAll_minus]
      exact ⟨fun _ => rfl, fun hnot => absurd ⟨index, hindex, List.mem_cons_self⟩ hnot⟩
    · have hsame : c.eventfd role i eventfd = eventfd := by
        cases c with
        | takeEventfd role' index =>
          exact if_neg fun heq => hfirst ⟨index, heq.2, by rw [heq.1]⟩
        | acquire role' index => rfl
        | release role' index => rfl
      have htaken : Taken (c :: cs) role i ↔ Taken cs role i := by
        constructor
        · rintro ⟨index, hindex, hmem⟩
          rcases List.mem_cons.mp hmem with heq | hmem
          · exact absurd ⟨index, hindex, heq.symm⟩ hfirst
          · exact ⟨index, hindex, hmem⟩
        · rintro ⟨index, hindex, hmem⟩
          exact ⟨index, hindex, List.mem_cons_of_mem _ hmem⟩
      rw [hsame, htaken]
      exact ih

end calls

end Rtipc
