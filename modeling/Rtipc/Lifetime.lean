/-
  How long do channels and the shared memory live?

  Users acquire and release channels while `ri_group_delete` gives them up one after the other.  Every
  step is one atomic operation: on the word `owners` of a channel, or on the reference counter of the
  shared memory.  Whoever finds that he is the last owner deletes the channel, and in doing so gives
  back a reference.

  `LifeState.refs` counts the references that have not been given back.  It is the reference counter,
  modulo 2³²; with 2³² channels the counter comes to 1 too early (`lifetime_iff`).

  1. **The steps.**  `lifeStep` has one case for each atomic operation.  A user who has found himself
     the last owner has deleted the channel and still owes its reference (`byUser`); the group may owe
     one in the same way (`byGroup`), and after its loop it gives back its own.

  2. **The invariant.**  `LifeState.Inv`: the counter is the number of references that have not been
     given back.  `LifeState.Owes` is the state between a deletion and its `ri_shm_unref`; it is what
     every step that deletes a channel leads to.

  3. **The statement.**  `lifetime_iff`: in every run a channel has at most one user and is deleted
     once, when nobody has it any more, and the memory is unmapped once, when nobody needs it, if and
     only if there are less than 2³² channels.

  4. **Where it fails.**  `unmapped_early`: with 2³² channels or more the counter is 1 while 2³²
     channels are still there, and the next reference that is given back unmaps the memory.
-/
import Rtipc.ChannelEnd
import Rtipc.Lib.Machine
import Mathlib.Algebra.BigOperators.Fin
import Mathlib.Algebra.Order.BigOperators.Group.Finset

namespace Rtipc

/-! ## The word of a channel

  Two flags, one of the user and one of the group; each of the three operations is one atomic access
  to the word. -/

/-- The `atomic_fetch_or` of `ri_consumer_acquire` and `ri_producer_acquire`: the result of the call and
    the word. -/
def acquireOwners (owners : Unsigned) : Int × Unsigned :=
  (if owners &&& ownerUserFlag ≠ 0 then -1 else 0, owners ||| ownerUserFlag)

/-- The `atomic_fetch_and` of `ri_consumer_release` and `ri_producer_release`: whether the channel is to
    be deleted, and the word. -/
def releaseOwners (owners : Unsigned) : Bool × Unsigned :=
  (decide (owners &&& ownerGroupFlag = 0), owners &&& ownerGroupFlag)

/-- The `atomic_fetch_and` of `ri_group_release_consumer` and `ri_group_release_producer`. -/
def giveUpOwners (owners : Unsigned) : Bool × Unsigned :=
  (decide (owners &&& ownerUserFlag = 0), owners &&& ownerUserFlag)

/-- Without other threads these are the calls. -/
theorem ChannelEnd.acquire_eq (channel : ChannelEnd) :
    channel.acquire = ((acquireOwners channel.owners).1,
      { channel with owners := (acquireOwners channel.owners).2 }) := rfl

/-- `ri_*_release` by what it does to the word of the owners. -/
theorem ChannelEnd.release_eq (role : Role) (i : Nat) (channel : ChannelEnd) (shm : Shm) :
    channel.release role i shm =
      if (releaseOwners channel.owners).1 then (none, channel.delete role i shm)
      else (some { channel with owners := (releaseOwners channel.owners).2 }, shm, []) := by
  rw [ChannelEnd.release, releaseOwners]
  by_cases h : channel.owners &&& ownerGroupFlag = 0
  · rw [if_pos h, if_pos (decide_eq_true h)]
  · rw [if_neg h, if_neg (by simpa using h)]

/-- `ri_group_release_*` by what it does to the word of the owners. -/
theorem ChannelEnd.groupRelease_giveUp (role : Role) (i : Nat) (channel : ChannelEnd) (shm : Shm) :
    channel.groupRelease role i shm =
      if (giveUpOwners channel.owners).1 then channel.delete role i shm else (shm, []) := by
  rw [ChannelEnd.groupRelease, giveUpOwners]
  by_cases h : channel.owners &&& ownerUserFlag = 0
  · rw [if_pos h, if_pos (decide_eq_true h)]
  · rw [if_neg h, if_neg (by simpa using h)]

/-- The word for these owners. -/
def ownersWord (group user : Bool) : Unsigned :=
  (if group then ownerGroupFlag else 0) ||| (if user then ownerUserFlag else 0)

/-- Acquiring sets the user's flag, and fails if it was set. -/
theorem acquireOwners_word (group user : Bool) :
    acquireOwners (ownersWord group user) = (if user then -1 else 0, ownersWord group true) := by
  cases group <;> cases user <;> rfl

/-- Releasing clears it, and deletes if the group's flag is clear. -/
theorem releaseOwners_word (group user : Bool) :
    releaseOwners (ownersWord group user) = (!group, ownersWord group false) := by
  cases group <;> cases user <;> rfl

/-- Giving up clears the group's flag, and deletes if the user's is clear. -/
theorem giveUpOwners_word (group user : Bool) :
    giveUpOwners (ownersWord group user) = (!user, ownersWord false user) := by
  cases group <;> cases user <;> rfl

/-! ## The states and the steps -/

/-- A channel: its word, how many users have it, how often it has been deleted, and how many of those
    who delete it, users or the group, have not given back the reference yet. -/
structure ChannelLife where
  owners : Unsigned
  users : Nat
  deleted : Nat
  byUser : Nat
  byGroup : Nat
  deriving DecidableEq, Repr

namespace ChannelLife

/-- `ri_consumer_acquire` and `ri_producer_acquire`. -/
def acquire (c : ChannelLife) : Int × ChannelLife :=
  let (r, owners) := acquireOwners c.owners
  (r, { c with owners := owners, users := if r < 0 then c.users else c.users + 1 })

/-- `ri_consumer_release` and `ri_producer_release` up to the deletion. -/
def release (c : ChannelLife) : ChannelLife :=
  let (deletes, owners) := releaseOwners c.owners
  { c with
    owners := owners
    users := c.users - 1
    deleted := c.deleted + deletes.toNat
    byUser := c.byUser + deletes.toNat }

/-- `ri_group_release_consumer` and `ri_group_release_producer` up to the deletion: whether there is
    one. -/
def giveUp (c : ChannelLife) : Bool × ChannelLife :=
  let (deletes, owners) := giveUpOwners c.owners
  (deletes, { c with
    owners := owners
    deleted := c.deleted + deletes.toNat
    byGroup := c.byGroup + deletes.toNat })

/-- A channel that has just been made. -/
def new : ChannelLife where
  owners := ownerGroupFlag
  users := 0
  deleted := 0
  byUser := 0
  byGroup := 0

end ChannelLife

/-- Where `ri_group_delete` is: in front of channel `k`, in the deletion of channel `i`, or at its end.
    Before the call it is in front of channel 0. -/
inductive Deleter (n : Nat) where
  | next (k : Nat)
  | channel (i : Fin n)
  | done
  deriving DecidableEq, Repr

/-- A group of `n` channels, in the order in which `ri_group_delete` gives them up. -/
structure LifeState (n : Nat) where
  channels : Fin n → ChannelLife
  deleter : Deleter n
  refCnt : Unsigned
  /-- How often the shared memory has been unmapped. -/
  unmapped : Nat

/-- The atomic operations: of users, of a user who deletes a channel, and of `ri_group_delete`. -/
inductive LifeEvent (n : Nat) where
  | acquire (i : Fin n)
  | release (i : Fin n)
  | unref (i : Fin n)
  | giveUp
  | unrefChannel
  | unrefGroup
  deriving DecidableEq, Repr

section machine

variable {n : Nat}

/-- The group has not given up the channel. -/
def LifeState.held (s : LifeState n) (i : Fin n) : Bool :=
  match s.deleter with
  | .next k => decide (k ≤ i)
  | .channel j => decide (j < i)
  | .done => false

/-- The group with another state of channel `i`. -/
def LifeState.update (s : LifeState n) (i : Fin n) (c : ChannelLife) : LifeState n :=
  { s with channels := Function.update s.channels i c }

/-- `ri_shm_unref`. -/
def LifeState.unref (s : LifeState n) : LifeState n :=
  { s with
    refCnt := s.refCnt - 1
    unmapped := s.unmapped + if s.refCnt = 1 then 1 else 0 }

/-- One atomic operation, with the result of the call for `acquire`.  A channel is acquired only as long
    as the group has it, and released only by a user who has it. -/
def lifeStep (s : LifeState n) : LifeEvent n → Option (LifeState n × Int)
  | .acquire i =>
    if s.held i then some (s.update i (s.channels i).acquire.2, (s.channels i).acquire.1) else none
  | .release i =>
    if 0 < (s.channels i).users then some (s.update i (s.channels i).release, 0) else none
  | .unref i =>
    let c := s.channels i
    if 0 < c.byUser then some ((s.update i { c with byUser := c.byUser - 1 }).unref, 0) else none
  | .giveUp =>
    match s.deleter with
    | .next k =>
      if h : k < n then
        let (deletes, c) := (s.channels ⟨k, h⟩).giveUp
        some ({ s.update ⟨k, h⟩ c with
          deleter := if deletes then .channel ⟨k, h⟩ else .next (k + 1) }, 0)
      else none
    | _ => none
  | .unrefChannel =>
    match s.deleter with
    | .channel i =>
      let c := s.channels i
      some ({ s.update i { c with byGroup := c.byGroup - 1 } with deleter := .next (i + 1) }.unref, 0)
    | _ => none
  | .unrefGroup =>
    match s.deleter with
    | .next k => if k < n then none else some ({ s with deleter := .done }.unref, 0)
    | _ => none

/-- A group that has just been made: the counter was 1 before the channels. -/
def LifeState.new (n : Nat) : LifeState n where
  channels _ := .new
  deleter := .next 0
  refCnt := BitVec.ofNat 32 (1 + n)
  unmapped := 0

/-- The life of a group of `n` channels. -/
def lifeMachine (n : Nat) : Machine (LifeState n) (LifeEvent n) Int where
  init s := s = .new n
  step := lifeStep

/-! ## What is meant

  Said in terms of who has what, without the counter. -/

/-- Nobody needs the shared memory: the group is gone, and all channels are deleted and have given back
    their references. -/
def LifeState.Gone (s : LifeState n) : Prop :=
  s.deleter = .done ∧ ∀ i, (s.channels i).deleted = 1 ∧ (s.channels i).byUser = 0 ∧
    (s.channels i).byGroup = 0

/-- At most one user has a channel; it is deleted once, when neither the group nor a user has it any
    more; and the memory is unmapped once, when nobody needs it. -/
structure Lifetime (s : LifeState n) : Prop where
  users : ∀ i, (s.channels i).users ≤ 1
  deleted : ∀ i, (s.channels i).deleted = if s.held i = false ∧ (s.channels i).users = 0 then 1 else 0
  once : s.unmapped ≤ 1
  unmapped : s.unmapped = 1 ↔ s.Gone

end machine

/-! ## The invariant

  The counter is the number of references that have not been given back. -/

/-- The references a channel has not given back. -/
def ChannelLife.refs (c : ChannelLife) : Nat := if c.deleted = 0 then 1 else c.byUser + c.byGroup

/-- What is known of a channel that the group has, or has not any more. -/
structure ChannelLife.Inv (held : Bool) (c : ChannelLife) : Prop where
  word : c.owners = ownersWord held (decide (0 < c.users))
  users : c.users ≤ 1
  deleted : c.deleted = if held = false ∧ c.users = 0 then 1 else 0
  pending : c.byUser + c.byGroup ≤ c.deleted

section invariant

variable {n : Nat}

/-- All references that have not been given back. -/
def LifeState.refs (s : LifeState n) : Nat :=
  (if s.deleter = .done then 0 else 1) + ∑ i, (s.channels i).refs

/-- What holds between two atomic operations: the words of the owners say who has the channels, and the
    counter says how many references have not been given back. -/
structure LifeState.Inv (s : LifeState n) : Prop where
  channels : ∀ i, (s.channels i).Inv (s.held i)
  byGroup : ∀ i, (s.channels i).byGroup = if s.deleter = .channel i then 1 else 0
  refCnt : s.refCnt = BitVec.ofNat 32 s.refs
  unmapped : s.unmapped = if s.refs = 0 then 1 else 0

variable {s t : LifeState n} {held : Bool} {c : ChannelLife}

/-- A channel has one reference at most. -/
theorem ChannelLife.Inv.refs_le (h : c.Inv held) : c.refs ≤ 1 := by
  have hdeleted := h.deleted
  have hpending := h.pending
  rw [ChannelLife.refs]
  split
  · exact le_rfl
  · split at hdeleted <;> omega

/-- So a group has one for each channel and one for itself. -/
theorem LifeState.Inv.refs_le (h : s.Inv) : s.refs ≤ n + 1 := by
  have hsum : ∑ i, (s.channels i).refs ≤ ∑ _i : Fin n, 1 :=
    Finset.sum_le_sum fun i _ => (h.channels i).refs_le
  rw [Finset.sum_const, Finset.card_univ, Fintype.card_fin, smul_eq_mul, Nat.mul_one] at hsum
  rw [LifeState.refs]
  split <;> omega

/-- The references if one channel changes. -/
theorem sum_refs_update (channels : Fin n → ChannelLife) (i : Fin n) (c : ChannelLife) :
    (∑ j, (Function.update channels i c j).refs) + (channels i).refs =
      (∑ j, (channels j).refs) + c.refs := by
  have hbefore := Finset.add_sum_erase Finset.univ (fun j => (channels j).refs) (Finset.mem_univ i)
  have hafter := Finset.add_sum_erase Finset.univ (fun j => (Function.update channels i c j).refs)
    (Finset.mem_univ i)
  have hothers : ∑ j ∈ Finset.univ.erase i, (Function.update channels i c j).refs =
      ∑ j ∈ Finset.univ.erase i, (channels j).refs :=
    Finset.sum_congr rfl fun j hj => by rw [Function.update_of_ne (Finset.ne_of_mem_erase hj)]
  simp only [Function.update_self] at hafter
  omega

/-- One channel changes, and with it who is deleting. -/
theorem LifeState.Inv.changed (h : s.Inv) {i : Fin n} {d : Deleter n}
    (hchannel : c.Inv ({ s with deleter := d }.held i))
    (hheld : ∀ j, j ≠ i → { s with deleter := d }.held j = s.held j)
    (hbyGroup : c.byGroup = if d = .channel i then 1 else 0)
    (hothers : ∀ j, j ≠ i → (d = .channel j ↔ s.deleter = .channel j)) :
    (∀ j, ({ s.update i c with deleter := d }.channels j).Inv
        ({ s.update i c with deleter := d }.held j)) ∧
      ∀ j, ({ s.update i c with deleter := d }.channels j).byGroup = if d = .channel j then 1 else 0 := by
  refine ⟨fun j => ?_, fun j => ?_⟩
  · show (Function.update s.channels i c j).Inv ({ s with deleter := d }.held j)
    by_cases hj : j = i
    · subst hj
      rw [Function.update_self]
      exact hchannel
    · rw [Function.update_of_ne hj, hheld j hj]
      exact h.channels j
  · show (Function.update s.channels i c j).byGroup = if d = .channel j then 1 else 0
    by_cases hj : j = i
    · subst hj
      rw [Function.update_self]
      exact hbyGroup
    · rw [Function.update_of_ne hj, h.byGroup j, if_congr (hothers j hj).symm rfl rfl]

/-- The references after that. -/
theorem LifeState.refs_changed {i : Fin n} {d : Deleter n} (hdone : d = .done ↔ s.deleter = .done) :
    { s.update i c with deleter := d }.refs + (s.channels i).refs = s.refs + c.refs := by
  have hupdate := sum_refs_update s.channels i c
  show (if d = .done then 0 else 1) + (∑ j, (Function.update s.channels i c j).refs) + _ = _
  rw [LifeState.refs, if_congr hdone rfl rfl]
  omega

/-- One channel changes and keeps its references. -/
theorem LifeState.Inv.update (h : s.Inv) {i : Fin n} {d : Deleter n}
    (hchannel : c.Inv ({ s with deleter := d }.held i))
    (hheld : ∀ j, j ≠ i → { s with deleter := d }.held j = s.held j)
    (hbyGroup : c.byGroup = if d = .channel i then 1 else 0)
    (hothers : ∀ j, j ≠ i → (d = .channel j ↔ s.deleter = .channel j))
    (hdone : d = .done ↔ s.deleter = .done) (hrefs : c.refs = (s.channels i).refs) :
    { s.update i c with deleter := d }.Inv := by
  have hsum : { s.update i c with deleter := d }.refs = s.refs := by
    have := LifeState.refs_changed (c := c) (i := i) hdone
    omega
  obtain ⟨hchannels, hgroup⟩ := h.changed hchannel hheld hbyGroup hothers
  exact ⟨hchannels, hgroup, hsum ▸ h.refCnt, hsum ▸ h.unmapped⟩

/-- A reference is given back.  The counter is 1 exactly if it is the last one. -/
theorem unref_last {refs : Nat} (hn : n < 2 ^ 32) (hle : refs + 1 ≤ n + 1) :
    BitVec.ofNat 32 (refs + 1) - 1 = BitVec.ofNat 32 refs ∧
      (BitVec.ofNat 32 (refs + 1) = 1 ↔ refs = 0) := by
  refine ⟨?_, ?_⟩
  · rw [BitVec.ofNat_add]
    exact BitVec.add_sub_cancel _ _
  · rw [← BitVec.toNat_inj, BitVec.toNat_ofNat, show (1 : Unsigned).toNat = 1 from rfl]
    omega

/-- A reference is about to be given back: the counter still counts it. -/
structure LifeState.Owes (s : LifeState n) : Prop where
  channels : ∀ i, (s.channels i).Inv (s.held i)
  byGroup : ∀ i, (s.channels i).byGroup = if s.deleter = .channel i then 1 else 0
  refs : s.refs ≤ n
  refCnt : s.refCnt = BitVec.ofNat 32 (s.refs + 1)
  unmapped : s.unmapped = 0

/-- Giving back a reference that is owed makes the counter right again; it is the last one exactly if
    the counter was 1, as no count reaches 2³². -/
theorem LifeState.Owes.unref (hn : n < 2 ^ 32) (h : s.Owes) : s.unref.Inv := by
  obtain ⟨hsub, hlast⟩ := unref_last hn (Nat.succ_le_succ h.refs)
  refine ⟨h.channels, h.byGroup, ?_, ?_⟩
  · show s.refCnt - 1 = BitVec.ofNat 32 s.refs
    rw [h.refCnt, hsub]
  · show s.unmapped + (if s.refCnt = 1 then 1 else 0) = if s.refs = 0 then 1 else 0
    rw [h.unmapped, h.refCnt, if_congr hlast rfl rfl, Nat.zero_add]

/-- A channel, or the group, that is about to give back its reference. -/
theorem LifeState.Inv.owes (h : s.Inv) (hchannels : ∀ i, (t.channels i).Inv (t.held i))
    (hbyGroup : ∀ i, (t.channels i).byGroup = if t.deleter = .channel i then 1 else 0)
    (hcnt : t.refCnt = s.refCnt) (hunmapped : t.unmapped = s.unmapped) (hrefs : t.refs + 1 = s.refs) :
    t.Owes := by
  have hle := h.refs_le
  refine ⟨hchannels, hbyGroup, by omega, ?_, ?_⟩
  · rw [hcnt, h.refCnt, hrefs]
  · rw [hunmapped, h.unmapped, if_neg (by omega)]

/-! ## The steps

  A step that deletes a channel passes through a state in which the reference is still owed. -/

/-- Acquiring keeps what is known of a channel that the group has. -/
theorem ChannelLife.Inv.acquire (h : c.Inv true) : c.acquire.2.Inv true ∧ c.acquire.2.refs = c.refs := by
  have husers := h.users
  have hdeleted := h.deleted
  have hword : c.acquire.2 = { c with owners := ownersWord true true, users := 1 } := by
    rw [ChannelLife.acquire, h.word, acquireOwners_word]
    by_cases hpos : 0 < c.users
    · obtain hone : c.users = 1 := by omega
      simp [hone]
    · obtain hzero : c.users = 0 := by omega
      simp [hzero]
  rw [hword]
  refine ⟨⟨rfl, le_rfl, ?_, h.pending⟩, rfl⟩
  rw [if_neg (fun hheld => by cases hheld.1)] at hdeleted ⊢
  exact hdeleted

/-- So does the release by a user. -/
theorem ChannelLife.Inv.release (h : c.Inv held) (hpos : 0 < c.users) :
    c.release.Inv held ∧ c.release.refs = c.refs ∧ c.release.byGroup = c.byGroup := by
  have husers := h.users
  have hdeleted := h.deleted
  have hpending := h.pending
  rw [if_neg (by omega)] at hdeleted
  have hword : c.release = { c with
      owners := ownersWord held false
      users := 0
      deleted := (!held).toNat
      byUser := (!held).toNat } := by
    rw [ChannelLife.release, h.word, releaseOwners_word, hdeleted]
    simp only [Nat.zero_add]
    rw [show c.users - 1 = 0 by omega, show c.byUser = 0 by omega, Nat.zero_add]
  rw [hword]
  refine ⟨⟨rfl, Nat.zero_le _, ?_, ?_⟩, ?_, rfl⟩
  · cases held <;> rfl
  · show (!held).toNat + c.byGroup ≤ (!held).toNat
    omega
  · rw [ChannelLife.refs, ChannelLife.refs, hdeleted, if_pos rfl]
    cases held
    · show (if 1 = 0 then 1 else 1 + c.byGroup) = 1
      rw [if_neg (by decide)]
      omega
    · rfl

/-- So does giving up by the group, which may delete it. -/
theorem ChannelLife.Inv.giveUp (h : c.Inv true) : c.giveUp.2.Inv false ∧ c.giveUp.2.refs = c.refs ∧
    c.giveUp.2.byGroup = c.giveUp.1.toNat := by
  have husers := h.users
  have hdeleted := h.deleted
  have hpending := h.pending
  rw [if_neg (fun hheld => by cases hheld.1)] at hdeleted
  -- The group's flag is cleared; whoever clears the last flag deletes.
  have hword : c.giveUp = (!decide (0 < c.users), { c with
      owners := ownersWord false (decide (0 < c.users))
      deleted := (!decide (0 < c.users)).toNat
      byGroup := (!decide (0 < c.users)).toNat }) := by
    rw [ChannelLife.giveUp, h.word, giveUpOwners_word, hdeleted]
    simp only [Nat.zero_add]
    rw [show c.byGroup = 0 by omega, Nat.zero_add]
  rw [hword]
  refine ⟨⟨rfl, husers, ?_, ?_⟩, ?_, rfl⟩
  · show (!decide (0 < c.users)).toNat = if false = false ∧ c.users = 0 then 1 else 0
    -- a user still has the channel, or the group deletes it
    by_cases hpos : 0 < c.users
    · rw [decide_eq_true hpos, if_neg (by omega)]
      rfl
    · rw [decide_eq_false hpos, if_pos ⟨rfl, by omega⟩]
      rfl
  · show c.byUser + (!decide (0 < c.users)).toNat ≤ (!decide (0 < c.users)).toNat
    omega
  · rw [ChannelLife.refs, ChannelLife.refs, hdeleted, if_pos rfl]
    show (if (!decide (0 < c.users)).toNat = 0 then 1 else c.byUser + (!decide (0 < c.users)).toNat) = 1
    by_cases hpos : 0 < c.users
    · rw [decide_eq_true hpos]
      rfl
    · rw [decide_eq_false hpos]
      show c.byUser + 1 = 1
      omega

/-- One of the two counts of a channel that is being deleted goes down. -/
theorem LifeState.Inv.giveBack (h : s.Inv) {i : Fin n} {d : Deleter n}
    (hchannel : c.Inv (s.held i)) (hheld : ∀ j, { s with deleter := d }.held j = s.held j)
    (hbyGroup : c.byGroup = if d = .channel i then 1 else 0)
    (hothers : ∀ j, j ≠ i → (d = .channel j ↔ s.deleter = .channel j))
    (hdone : d = .done ↔ s.deleter = .done) (hrefs : c.refs + 1 = (s.channels i).refs) :
    { s.update i c with deleter := d }.Owes := by
  obtain ⟨hchannels, hgroup⟩ :=
    h.changed ((hheld i).symm ▸ hchannel) (fun j _ => hheld j) hbyGroup hothers
  refine h.owes hchannels hgroup rfl rfl ?_
  have := LifeState.refs_changed (c := c) (i := i) hdone
  omega

/-- A user acquires a channel. -/
theorem LifeState.Inv.acquire (h : s.Inv) {i : Fin n} {r : Int}
    (hs : lifeStep s (.acquire i) = some (t, r)) : t.Inv := by
  dsimp only [lifeStep] at hs
  split at hs
  · rename_i hheld
    obtain ⟨rfl, -⟩ := Prod.mk.inj (Option.some.inj hs)
    obtain ⟨hc, hrefs⟩ := (hheld ▸ h.channels i).acquire
    exact h.update (d := s.deleter) (show _ from hheld.symm ▸ hc) (fun _ _ => rfl) (h.byGroup i)
      (fun _ _ => Iff.rfl) Iff.rfl hrefs
  · cases hs

/-- A user releases a channel. -/
theorem LifeState.Inv.release (h : s.Inv) {i : Fin n} {r : Int}
    (hs : lifeStep s (.release i) = some (t, r)) : t.Inv := by
  dsimp only [lifeStep] at hs
  split at hs
  · rename_i hpos
    obtain ⟨rfl, -⟩ := Prod.mk.inj (Option.some.inj hs)
    obtain ⟨hc, hrefs, hgroup⟩ := (h.channels i).release hpos
    exact h.update (d := s.deleter) hc (fun _ _ => rfl) (hgroup.trans (h.byGroup i))
      (fun _ _ => Iff.rfl) Iff.rfl hrefs
  · cases hs

/-- A user who has deleted a channel gives back its reference. -/
theorem LifeState.Inv.unrefUser (hn : n < 2 ^ 32) (h : s.Inv) {i : Fin n} {r : Int}
    (hs : lifeStep s (.unref i) = some (t, r)) : t.Inv := by
  dsimp only [lifeStep] at hs
  split at hs
  · rename_i hpos
    obtain ⟨rfl, -⟩ := Prod.mk.inj (Option.some.inj hs)
    have hc := h.channels i
    have hpending := hc.pending
    have hdeleted := hc.deleted
    have hone : (s.channels i).deleted = 1 := by
      split at hdeleted <;> omega
    refine (h.giveBack (i := i) (d := s.deleter)
      (c := { s.channels i with byUser := (s.channels i).byUser - 1 })
      ⟨hc.word, hc.users, hc.deleted, ?_⟩ (fun _ => rfl) (h.byGroup i)
      (fun _ _ => Iff.rfl) Iff.rfl ?_).unref hn
    · show (s.channels i).byUser - 1 + (s.channels i).byGroup ≤ (s.channels i).deleted
      omega
    · rw [ChannelLife.refs, ChannelLife.refs, hone]
      show (s.channels i).byUser - 1 + (s.channels i).byGroup + 1 =
        (s.channels i).byUser + (s.channels i).byGroup
      omega
  · cases hs

/-- `ri_group_delete` gives up the next channel. -/
theorem LifeState.Inv.giveUp (h : s.Inv) {r : Int}
    (hs : lifeStep s .giveUp = some (t, r)) : t.Inv := by
  dsimp only [lifeStep] at hs
  split at hs
  · rename_i k hdeleter
    split at hs
    · rename_i hk
      obtain ⟨rfl, -⟩ := Prod.mk.inj (Option.some.inj hs)
      have hheld : s.held ⟨k, hk⟩ = true := by
        rw [LifeState.held, hdeleter]
        exact decide_eq_true le_rfl
      obtain ⟨hc, hrefs, hgroup⟩ := (hheld ▸ h.channels ⟨k, hk⟩).giveUp
      -- only whether the channel is deleted matters for who is next
      generalize (s.channels ⟨k, hk⟩).giveUp = gaveUp at hc hrefs hgroup ⊢
      obtain ⟨deletes, c⟩ := gaveUp
      have hnext : ∀ j : Fin n,
          { s with deleter := if deletes then .channel ⟨k, hk⟩ else .next (k + 1) }.held j =
            decide (k < j.val) := by
        intro j
        cases deletes <;> rfl
      refine h.update (c := c) ?_ (fun j hj => ?_) ?_ (fun j hj => ?_) ?_ hrefs
      · rw [hnext, decide_eq_false (lt_irrefl k)]
        exact hc
      · rw [hnext, LifeState.held, hdeleter]
        have hne : k ≠ j.val := fun heq => hj (Fin.ext heq.symm)
        exact decide_eq_decide.mpr (by omega)
      · rw [hgroup]
        cases deletes
        · exact (if_neg (show ¬ Deleter.next (k + 1) = Deleter.channel _ from nofun)).symm
        · exact (if_pos rfl).symm
      · rw [hdeleter]
        cases deletes
        · exact iff_of_false (show ¬ Deleter.next (k + 1) = Deleter.channel j from nofun) nofun
        · exact iff_of_false (fun heq => hj (Deleter.channel.inj heq).symm) nofun
      · rw [hdeleter]
        cases deletes
        · exact iff_of_false (show ¬ Deleter.next (k + 1) = Deleter.done from nofun) nofun
        · exact iff_of_false (show ¬ Deleter.channel _ = Deleter.done from nofun) nofun
    · cases hs
  · cases hs

/-- `ri_group_delete` gives back the reference of a channel that it has deleted. -/
theorem LifeState.Inv.unrefChannel (hn : n < 2 ^ 32) (h : s.Inv) {r : Int}
    (hs : lifeStep s .unrefChannel = some (t, r)) : t.Inv := by
  dsimp only [lifeStep] at hs
  split at hs
  · rename_i i hdeleter
    obtain ⟨rfl, -⟩ := Prod.mk.inj (Option.some.inj hs)
    have hc := h.channels i
    have hpending := hc.pending
    have hdeleted := hc.deleted
    have hgroup := h.byGroup i
    rw [if_pos hdeleter] at hgroup
    -- The channel the group deletes has not given back its reference yet.
    have hone : (s.channels i).deleted = 1 := by
      split at hdeleted <;> omega
    refine (h.giveBack (i := i) (d := .next (i + 1))
      (c := { s.channels i with byGroup := (s.channels i).byGroup - 1 })
      ⟨hc.word, hc.users, hc.deleted, ?_⟩ (fun j => ?_) ?_
      (fun j hj => ?_) ?_ ?_).unref hn
    · show (s.channels i).byUser + ((s.channels i).byGroup - 1) ≤ (s.channels i).deleted
      omega
    · rw [LifeState.held, LifeState.held, hdeleter]
      rfl
    · rw [if_neg nofun]
      show (s.channels i).byGroup - 1 = 0
      omega
    · rw [hdeleter]
      exact iff_of_false nofun (fun heq => hj (Deleter.channel.inj heq).symm)
    · rw [hdeleter]
      exact iff_of_false nofun nofun
    · rw [ChannelLife.refs, ChannelLife.refs, hone]
      show (s.channels i).byUser + ((s.channels i).byGroup - 1) + 1 =
        (s.channels i).byUser + (s.channels i).byGroup
      omega
  · cases hs

/-- `ri_group_delete` gives back its own reference. -/
theorem LifeState.Inv.unrefGroup (hn : n < 2 ^ 32) (h : s.Inv) {r : Int}
    (hs : lifeStep s .unrefGroup = some (t, r)) : t.Inv := by
  dsimp only [lifeStep] at hs
  split at hs
  · rename_i k hdeleter
    split at hs
    · cases hs
    · rename_i hk
      obtain ⟨rfl, -⟩ := Prod.mk.inj (Option.some.inj hs)
      refine (h.owes (t := { s with deleter := .done }) (fun i => ?_) (fun i => ?_) rfl rfl ?_).unref hn
      · have hi := i.isLt
        have hheld : s.held i = false := by
          rw [LifeState.held, hdeleter]
          exact decide_eq_false (by omega)
        have hc := h.channels i
        rw [hheld] at hc
        exact hc
      · rw [if_neg nofun, h.byGroup i, hdeleter, if_neg nofun]
      · show (if Deleter.done = Deleter.done then 0 else 1) + ∑ i, (s.channels i).refs + 1 = _
        rw [LifeState.refs, if_pos rfl, hdeleter, if_neg nofun]
        omega
  · cases hs

/-- Every step keeps the invariant, as long as all references can be counted. -/
theorem LifeState.Inv.step (hn : n < 2 ^ 32) (h : s.Inv) {e : LifeEvent n} {r : Int}
    (hs : lifeStep s e = some (t, r)) : t.Inv := by
  cases e with
  | acquire i => exact h.acquire hs
  | release i => exact h.release hs
  | unref i => exact h.unrefUser hn hs
  | giveUp => exact h.giveUp hs
  | unrefChannel => exact h.unrefChannel hn hs
  | unrefGroup => exact h.unrefGroup hn hs

/-- A new group satisfies the invariant. -/
theorem LifeState.Inv.new (n : Nat) : (LifeState.new n).Inv := by
  have hrefs : (LifeState.new n).refs = 1 + n := by
    show 1 + ∑ _i : Fin n, 1 = 1 + n
    rw [Finset.sum_const, Finset.card_univ, Fintype.card_fin, smul_eq_mul, Nat.mul_one]
  have hheld (i : Fin n) : (LifeState.new n).held i = true :=
    decide_eq_true (show 0 ≤ i.val from Nat.zero_le _)
  refine ⟨fun i => ⟨?_, Nat.zero_le _, ?_, le_rfl⟩, fun i => ?_, hrefs ▸ rfl, ?_⟩
  · rw [hheld]
    show ownerGroupFlag = ownersWord true false
    decide
  · rw [hheld, if_neg fun hgone => by cases hgone.1]
    rfl
  · exact (if_neg (show ¬ Deleter.next 0 = Deleter.channel i from nofun)).symm
  · rw [hrefs, if_neg (by omega)]
    rfl

/-- No references are left exactly if nobody needs the memory. -/
theorem LifeState.Inv.refs_eq_zero (h : s.Inv) : s.refs = 0 ↔ s.Gone := by
  have hsum : (∑ i, (s.channels i).refs) = 0 ↔ ∀ i, (s.channels i).refs = 0 := by
    rw [Finset.sum_eq_zero_iff]
    exact forall_congr' fun i => forall_prop_of_true (Finset.mem_univ i)
  have hchannel (i : Fin n) : (s.channels i).refs = 0 ↔ (s.channels i).deleted = 1 ∧
      (s.channels i).byUser = 0 ∧ (s.channels i).byGroup = 0 := by
    have hdeleted := (h.channels i).deleted
    rw [ChannelLife.refs]
    split <;> split at hdeleted <;> omega
  rw [LifeState.refs, Nat.add_eq_zero_iff, hsum, LifeState.Gone, forall_congr' hchannel]
  refine and_congr ?_ Iff.rfl
  split
  · rename_i hdone
    exact iff_of_true rfl hdone
  · rename_i hdone
    exact iff_of_false (by decide) hdone

/-- The invariant says what is meant. -/
theorem LifeState.Inv.lifetime (h : s.Inv) : Lifetime s := by
  have hunmapped := h.unmapped
  refine ⟨fun i => (h.channels i).users, fun i => (h.channels i).deleted, ?_, ?_⟩
  · rw [hunmapped]
    split <;> decide
  · rw [hunmapped, ← h.refs_eq_zero]
    split
    · rename_i hzero
      exact iff_of_true rfl hzero
    · rename_i hpos
      exact iff_of_false (by decide) hpos

/-! ## Too many channels -/

/-- The first `j` channels have been given up and deleted, and their references given back. -/
structure LifeState.Begun (s : LifeState n) (j : Nat) : Prop where
  deleter : s.deleter = .next j
  untouched : ∀ i : Fin n, j ≤ i → s.channels i = .new
  refCnt : s.refCnt = BitVec.ofNat 32 (n + 1 - j)

/-- `ri_group_delete` deletes the next channel that no user has. -/
theorem LifeState.Begun.channel {j : Nat} (h : s.Begun j) (hj : j < n) :
    ∃ t u, (lifeMachine n).step s .giveUp = some (t, 0) ∧
      (lifeMachine n).step t .unrefChannel = some (u, 0) ∧ u.Begun (j + 1) ∧
      u.unmapped = s.unmapped + if s.refCnt = 1 then 1 else 0 := by
  have hnew := h.untouched ⟨j, hj⟩ le_rfl
  -- The group gives the channel up, deletes it, and gives back its reference.
  obtain ⟨t, ht⟩ : ∃ t : LifeState n, t = { s.update ⟨j, hj⟩
      { ChannelLife.new with owners := 0, deleted := 1, byGroup := 1 } with
    deleter := .channel ⟨j, hj⟩ } := ⟨_, rfl⟩
  refine ⟨t, ?_⟩
  refine ⟨{ t.update ⟨j, hj⟩ { t.channels ⟨j, hj⟩ with byGroup := (t.channels ⟨j, hj⟩).byGroup - 1 } with
      deleter := .next (j + 1) }.unref, ?_, ?_, ⟨rfl, fun i hi => ?_, ?_⟩, ?_⟩
  · show lifeStep s .giveUp = _
    rw [lifeStep, h.deleter]
    dsimp only
    rw [dif_pos hj, hnew, ht]
    rfl
  · show lifeStep t .unrefChannel = _
    rw [lifeStep, ht]
  · show Function.update t.channels ⟨j, hj⟩ _ i = _
    have hne : i ≠ ⟨j, hj⟩ := fun heq => by
      rw [heq] at hi
      exact absurd hi (Nat.not_succ_le_self j)
    rw [Function.update_of_ne hne, ht]
    show Function.update s.channels ⟨j, hj⟩ _ i = _
    rw [Function.update_of_ne hne]
    exact h.untouched i (Nat.le_of_succ_le hi)
  · show t.refCnt - 1 = _
    rw [ht]
    show s.refCnt - 1 = _
    rw [h.refCnt, show n + 1 - j = n + 1 - (j + 1) + 1 by omega, BitVec.ofNat_add]
    exact BitVec.add_sub_cancel _ _
  · rw [ht]
    rfl

/-- So it can come to any channel. -/
theorem reaches_begun {j : Nat} (hj : j ≤ n) : ∃ tr s, (lifeMachine n).Run Machine.always tr s ∧ s.Begun j := by
  induction j with
  | zero => exact ⟨[], LifeState.new n, Machine.Run.init rfl, rfl, fun _ _ => rfl, by
      rw [Nat.add_comm]
      rfl⟩
  | succ j ih =>
    obtain ⟨tr, s, hrun, hbegun⟩ := ih (Nat.le_of_succ_le hj)
    obtain ⟨t, u, hgiveUp, hunref, hnext, -⟩ := hbegun.channel hj
    exact ⟨_, u, (hrun.step trivial hgiveUp).step trivial hunref, hnext⟩

/-- With 2³² channels or more the memory is unmapped while channels are there. -/
theorem unmapped_early (hn : 2 ^ 32 ≤ n) :
    ∃ tr s, (lifeMachine n).Run Machine.always tr s ∧ ¬ Lifetime s := by
  obtain ⟨tr, s, hrun, hbegun⟩ := reaches_begun (show n - 2 ^ 32 ≤ n from Nat.sub_le _ _)
  obtain ⟨t, u, hgiveUp, hunref, hnext, hunmapped⟩ := hbegun.channel (by omega)
  have hone : s.refCnt = 1 := by
    rw [hbegun.refCnt, show n + 1 - (n - 2 ^ 32) = 2 ^ 32 + 1 by omega]
    rfl
  rw [hone, if_pos rfl] at hunmapped
  refine ⟨_, u, (hrun.step trivial hgiveUp).step trivial hunref, fun hlife => ?_⟩
  have hgone := hlife.unmapped.mp (by have := hlife.once; omega)
  have hdone := hgone.1
  rw [hnext.deleter] at hdone
  cases hdone

end invariant

/-- In every run the channels and the shared memory live as long as they are needed, if and only if the
    references of the channels can be counted in 32 bits. -/
theorem lifetime_iff (n : Nat) :
    (∀ tr s, (lifeMachine n).Run Machine.always tr s → Lifetime s) ↔ n < 2 ^ 32 := by
  constructor
  · intro hall
    by_contra hge
    obtain ⟨tr, s, hrun, hnot⟩ := unmapped_early (Nat.le_of_not_lt hge)
    exact hnot (hall tr s hrun)
  · intro hn tr s hrun
    refine LifeState.Inv.lifetime (hrun.invariant (fun s hs => ?_) fun s e t r h _ hs => h.step hn hs)
    rw [show s = .new n from hs]
    exact LifeState.Inv.new n

/-- A group with 2³² channels. -/
theorem lifetime_wraps :
    ¬ ∀ n tr s, (lifeMachine n).Run Machine.always tr s → Lifetime s := by
  intro hall
  obtain ⟨tr, s, hrun, hnot⟩ := unmapped_early (n := 2 ^ 32) le_rfl
  exact hnot (hall _ tr s hrun)

end Rtipc
