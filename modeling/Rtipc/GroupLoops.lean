/-
  The loops of `ri_group_from_attr` and `ri_group_map`.

  A loop makes the channels one after the other, up to the first that does not get what it needs.
  `Filling` are the rounds that succeed; what holds of the channels and of the cursors is shown by
  induction on it.  `Reaches` says in terms of the system and of the attributes alone how far a loop
  comes.

  1. **One round.**  `newChannel_some` and `mapChannel_some` say what a round that succeeds leaves
     behind: where the channel is (`ChannelEnd.Placed`), where the cursor is, and what the round has
     been granted by the system.  `newChannel_none` and `mapChannel_none` say what has been refused
     otherwise.

  2. **All rounds.**  `fillChannels_done` turns a run of a loop into `Filling` for the rounds that have
     succeeded, and the reason why the next one did not.  Everything that holds of all channels is then
     an induction on `Filling`: their places (`Filling.placed`), their eventfds (`Filling.newEventfds`,
     `Filling.mapEventfds`), and the descriptors that have been taken (`Filling.fdsTaken`).

  3. **How far.**  `fillChannels_reaches` is the other direction.  A loop comes to its end if and only
     if the system grants each of its rounds, at the place and the index that follow from the
     attributes.
-/
import Rtipc.Group

namespace Rtipc

section filling

variable {σ : Type} {step : Nat → ChannelAttr InfoPtr → σ → Checked (Option ChannelEnd × σ × List Event)}

/-- The induction on a loop: no channel is left, the next one is refused, or it is made and the loop goes
    on. -/
theorem fillChannels_induction {s' : σ}
    {P : Nat → Nat → List (ChannelAttr InfoPtr) → σ → Bool → List ChannelEnd → List Event → Prop}
    (done : ∀ {i attrs}, P 0 i attrs s' true [] [])
    (refused : ∀ {n i attr attrs s events}, step i attr s = .ok (none, s', events) →
      P (n + 1) i (attr :: attrs) s false [] events)
    (made : ∀ {n i attr attrs s t channel first filled channels events},
      step i attr s = .ok (some channel, t, first) → P n (i + 1) attrs t filled channels events →
        P (n + 1) i (attr :: attrs) s filled (channel :: channels) (first ++ events))
    {n i : Nat} {attrs : List (ChannelAttr InfoPtr)} {s : σ} {filled : Bool}
    {channels : List ChannelEnd} {events : List Event}
    (h : fillChannels step n i attrs s = .ok (filled, channels, s', events)) :
    P n i attrs s filled channels events := by
  -- The induction is on the channels still to be made, as the loop counts.
  induction n generalizing i attrs s filled channels events with
  | zero =>
    cases h
    exact done
  | succ n ih =>
    cases attrs with
    | nil => cases h
    | cons attr attrs =>
      obtain ⟨⟨channel, t, first⟩, hfirst, h⟩ := checkedBind_ok.mp h
      cases channel with
      | none =>
        cases h
        exact refused hfirst
      | some channel =>
        obtain ⟨⟨filled', rest, u, events'⟩, hrest, h⟩ := checkedBind_ok.mp h
        cases h
        exact made hfirst (ih hrest)

/-- The rounds from channel `i` on for these attributes, all of which succeed. -/
inductive Filling (step : Nat → ChannelAttr InfoPtr → σ → Checked (Option ChannelEnd × σ × List Event)) :
    Nat → List (ChannelAttr InfoPtr) → σ → List ChannelEnd → σ → Prop where
  | nil {i : Nat} {s : σ} : Filling step i [] s [] s
  | cons {i : Nat} {attr : ChannelAttr InfoPtr} {attrs : List (ChannelAttr InfoPtr)} {s t u : σ}
      {channel : ChannelEnd} {channels : List ChannelEnd} {events : List Event}
      (hstep : step i attr s = .ok (some channel, t, events))
      (hrest : Filling step (i + 1) attrs t channels u) :
      Filling step i (attr :: attrs) s (channel :: channels) u

/-- What a loop has done: the rounds that succeed, and one that does not if there is one left. -/
structure Loop.Done (step : Nat → ChannelAttr InfoPtr → σ → Checked (Option ChannelEnd × σ × List Event))
    (n i : Nat) (attrs : List (ChannelAttr InfoPtr)) (s : σ) (filled : Bool) (channels : List ChannelEnd)
    (s' : σ) (t : σ) : Prop where
  length : channels.length ≤ n
  filling : Filling step i (attrs.take channels.length) s channels t
  full : filled = true → channels.length = n ∧ t = s'
  refused : filled = false → channels.length < n ∧ ∃ attr events,
    attrs[channels.length]? = some attr ∧ step (i + channels.length) attr t = .ok (none, s', events)

/-- The loop by its result: it has filled every channel, or stopped at the first that failed. -/
theorem fillChannels_done {n i : Nat} {attrs : List (ChannelAttr InfoPtr)} {s s' : σ} {filled : Bool}
    {channels : List ChannelEnd} {events : List Event}
    (h : fillChannels step n i attrs s = .ok (filled, channels, s', events)) :
    ∃ t, Loop.Done step n i attrs s filled channels s' t := by
  refine fillChannels_induction
    (P := fun n i attrs s filled channels _ => ∃ t, Loop.Done step n i attrs s filled channels s' t)
    ?_ ?_ ?_ h
  · intro i attrs
    exact ⟨_, le_rfl, .nil, fun _ => ⟨rfl, rfl⟩, fun hfalse => absurd hfalse (by decide)⟩
  · intro n i attr attrs s events hfirst
    exact ⟨s, Nat.zero_le _, .nil, fun htrue => absurd htrue (by decide),
      fun _ => ⟨Nat.succ_pos n, attr, _, rfl, hfirst⟩⟩
  · rintro n i attr attrs s t channel first filled channels events hfirst
      ⟨v, hlength, hfilling, hfilled, hrefused⟩
    refine ⟨v, Nat.succ_le_succ hlength, .cons hfirst hfilling, ?_, ?_⟩
    · intro htrue
      exact ⟨congrArg Nat.succ (hfilled htrue).1, (hfilled htrue).2⟩
    · intro hfalse
      obtain ⟨hlt, attr', events', hattr, hnone⟩ := hrefused hfalse
      refine ⟨Nat.succ_lt_succ hlt, attr', events', hattr, ?_⟩
      rw [List.length_cons, Nat.add_comm channels.length, ← Nat.add_assoc]
      exact hnone

/-! ## How far a loop comes

  `Reaches` follows the attributes, and not the code: it has the cursors that a loop would have. -/

variable {τ : Type}

/-- The first `k` channels, from channel `i` on, get what they need. -/
def Reaches (grant : Nat → ChannelAttr InfoPtr → τ → Prop) (next : ChannelAttr InfoPtr → τ → τ) :
    Nat → Nat → List (ChannelAttr InfoPtr) → τ → Prop
  | 0, _, _, _ => True
  | _ + 1, _, [], _ => False
  | k + 1, i, attr :: attrs, t => grant i attr t ∧ Reaches grant next k (i + 1) attrs (next attr t)

/-- A loop comes as far as the channels get what they need. -/
theorem fillChannels_reaches {grant : Nat → ChannelAttr InfoPtr → τ → Prop}
    {next : ChannelAttr InfoPtr → τ → τ} (view : σ → τ) (Inv : σ → Prop)
    (hsome : ∀ {i attr s channel s' events}, Inv s → step i attr s = .ok (some channel, s', events) →
      grant i attr (view s) ∧ view s' = next attr (view s) ∧ Inv s')
    (hnone : ∀ {i attr s s' events}, Inv s → step i attr s = .ok (none, s', events) →
      ¬ grant i attr (view s))
    {n i : Nat} {attrs : List (ChannelAttr InfoPtr)} {s s' : σ} {filled : Bool}
    {channels : List ChannelEnd} {events : List Event} (hinv : Inv s)
    (h : fillChannels step n i attrs s = .ok (filled, channels, s', events)) {k : Nat} (hk : k ≤ n) :
    k ≤ channels.length ↔ Reaches grant next k i attrs (view s) := by
  refine fillChannels_induction (P := fun n i attrs s _ channels _ => Inv s → ∀ k, k ≤ n →
    (k ≤ channels.length ↔ Reaches grant next k i attrs (view s))) ?_ ?_ ?_ h hinv k hk
  · intro i attrs _ k hk
    obtain rfl := Nat.le_zero.mp hk
    exact iff_of_true (Nat.zero_le _) trivial
  · intro n i attr attrs s events hfirst hinv k hk
    cases k with
    | zero => exact iff_of_true (Nat.zero_le _) trivial
    | succ k => exact iff_of_false (Nat.not_succ_le_zero k) fun hreach => hnone hinv hfirst hreach.1
  · intro n i attr attrs s t channel first filled channels events hfirst ih hinv k hk
    cases k with
    | zero => exact iff_of_true (Nat.zero_le _) trivial
    | succ k =>
      obtain ⟨hgrant, hview, hinv'⟩ := hsome hinv hfirst
      have hiff := ih hinv' k (Nat.le_of_succ_le_succ hk)
      rw [List.length_cons, Nat.succ_le_succ_iff, hiff, hview]
      exact ⟨fun hreach => ⟨hgrant, hreach⟩, And.right⟩

end filling

/-! ## One round

  What a round does for its channel, for the cursors, and for the array of descriptors. -/

/-- The channel for `attr` that starts at `offset` in a mapping of `size` bytes at `mem`. -/
structure ChannelEnd.Placed (cls mem size offset : Size) (attr : ChannelAttr InfoPtr)
    (channel : ChannelEnd) : Prop where
  owners : channel.owners = ownerGroupFlag
  shmOffset : channel.shmOffset = offset
  inside : offset < size
  queue : channel.queue = queueInit cls attr (memOffset mem offset)

/-- What a channel needs apart from an eventfd. -/
structure Os.Grants (os : Os) (role : Role) (i : Nat) (offset size : Size) : Prop where
  channel : os.block (.channel role i) = true
  queue : os.block (.queue role i) = true
  inside : offset < size

section round

variable {os : Os} {cls : Size} {role : Role} {i : Nat} {attr : ChannelAttr InfoPtr}
  {channel : ChannelEnd} {events : List Event}

/-- A queue that is made has its block, and it is where the channel is. -/
theorem queueNew_some {shm shm' : Shm} {offset : Size} {queue : Queue}
    (h : queueNew os cls role i attr shm offset = (some (queue, shm'), events)) :
    os.block (.queue role i) = true ∧ offset < shm.size ∧
      queue = queueInit cls attr (memOffset shm.mem offset) ∧ shm' = shmRef shm := by
  -- `ri_shm_ptr` refuses an offset behind the end of the memory.
  have hptr {ptr : Size} (h : shmPtr shm offset = some ptr) :
      offset < shm.size ∧ ptr = memOffset shm.mem offset := by
    unfold shmPtr at h
    split at h
    · cases h
    · rename_i hlt
      exact ⟨BitVec.not_le.mp hlt, (Option.some.inj h).symm⟩
  -- The two functions agree on what they return.
  cases role with
  | consumer =>
    change consumerQueueNew os cls i attr shm offset = _ at h
    unfold consumerQueueNew at h
    split at h
    · rename_i hblock
      split at h
      · cases h
      · rename_i ptr hsome
        cases h
        obtain ⟨hinside, rfl⟩ := hptr hsome
        exact ⟨hblock, hinside, rfl, rfl⟩
    · cases h
  | producer =>
    change producerQueueNew os cls i attr shm offset = _ at h
    unfold producerQueueNew at h
    split at h
    · rename_i hblock
      split at h
      · cases h
      · rename_i ptr hsome
        cases h
        obtain ⟨hinside, rfl⟩ := hptr hsome
        exact ⟨hblock, hinside, rfl, rfl⟩
    · cases h

/-- A queue is made if there is memory for it and if the channel starts in the shared memory. -/
theorem queueNew_granted {shm : Shm} {offset : Size} (hblock : os.block (.queue role i) = true)
    (hinside : offset < shm.size) : ∃ events, queueNew os cls role i attr shm offset =
      (some (queueInit cls attr (memOffset shm.mem offset), shmRef shm), events) := by
  have hptr : shmPtr shm offset = some (memOffset shm.mem offset) :=
    if_neg (BitVec.not_le.mpr hinside)
  cases role with
  | consumer =>
    rw [queueNew, consumerQueueNew, if_pos hblock, hptr]
    exact ⟨_, rfl⟩
  | producer =>
    rw [queueNew, producerQueueNew, if_pos hblock, hptr]
    exact ⟨_, rfl⟩

/-- What a channel that is made has been granted, and where it is. -/
theorem channelMap_some {eventfd : Int} {shm shm' : Shm} {offset : Size}
    (h : channelMap os cls role i attr eventfd shm offset = (some (channel, shm'), events)) :
    os.Grants role i offset shm.size ∧ channel.Placed cls shm.mem shm.size offset attr ∧
      channel.eventfd = (if attr.eventfd then eventfd else -1) ∧ shm' = shmRef shm := by
  unfold channelMap at h
  split at h
  · rename_i hchannel
    split at h
    · cases h
    · rename_i queue shm'' events' hqueue
      cases h
      obtain ⟨hblock, hinside, rfl, rfl⟩ := queueNew_some hqueue
      exact ⟨⟨hchannel, hblock, hinside⟩, ⟨rfl, rfl, hinside, rfl⟩, rfl, rfl⟩
  · cases h

/-- A channel that is not made lacks something. -/
theorem channelMap_none {eventfd : Int} {shm : Shm} {offset : Size}
    (h : channelMap os cls role i attr eventfd shm offset = (none, events)) :
    ¬ os.Grants role i offset shm.size := by
  rintro ⟨hchannel, hqueue, hinside⟩
  obtain ⟨made, hmade⟩ := @queueNew_granted os cls role i attr shm offset hqueue hinside
  rw [channelMap, if_pos hchannel, hmade] at h
  cases h

/-! ### A new channel -/

/-- What a new channel needs. -/
structure Os.GrantsNew (os : Os) (role : Role) (size : Size) (i : Nat) (attr : ChannelAttr InfoPtr)
    (offset : Size) : Prop where
  blocks : os.Grants role i offset size
  eventfd : attr.eventfd = true → 0 ≤ os.eventfdCreate role i

/-- What a new channel has been granted, and where it is. -/
theorem channelNew_some {shm shm' : Shm} {offset : Size}
    (h : channelNew os cls role i attr shm offset = (some (channel, shm'), events)) :
    os.GrantsNew role shm.size i attr offset ∧ channel.Placed cls shm.mem shm.size offset attr ∧
      channel.eventfd = (if attr.eventfd then os.eventfdCreate role i else -1) ∧
      shm' = shmRef shm := by
  unfold channelNew at h
  split at h
  · rename_i hattr
    split at h
    · cases h
    · rename_i hfd
      split at h
      · cases h
      · rename_i made shm'' events' hmap
        cases h
        obtain ⟨hgrants, hplaced, heventfd, hshm⟩ := channelMap_some hmap
        exact ⟨⟨hgrants, fun _ => by omega⟩, hplaced, heventfd, hshm⟩
  · rename_i hattr
    split at h
    · cases h
    · rename_i made shm'' events' hmap
      cases h
      obtain ⟨hgrants, hplaced, heventfd, hshm⟩ := channelMap_some hmap
      rw [if_neg hattr] at heventfd ⊢
      exact ⟨⟨hgrants, fun htrue => absurd htrue hattr⟩, hplaced, heventfd, hshm⟩

/-- A new channel that is not made lacks something. -/
theorem channelNew_none {shm : Shm} {offset : Size}
    (h : channelNew os cls role i attr shm offset = (none, events)) :
    ¬ os.GrantsNew role shm.size i attr offset := by
  rintro ⟨hblocks, heventfd⟩
  unfold channelNew at h
  split at h
  · rename_i hattr
    have hfd := heventfd hattr
    rw [if_neg (by omega)] at h
    split at h
    · rename_i events' hmap
      exact channelMap_none hmap hblocks
    · cases h
  · split at h
    · rename_i events' hmap
      exact channelMap_none hmap hblocks
    · cases h

/-- A channel that was created lies at the offset, and the cursor is behind it. -/
theorem newChannel_some {s s' : ShmCursor}
    (h : newChannel os cls role i attr s = .ok (some channel, s', events)) :
    os.GrantsNew role s.shm.size i attr s.offset ∧ channel.Placed cls s.shm.mem s.shm.size s.offset attr ∧
      channel.eventfd = (if attr.eventfd then os.eventfdCreate role i else -1) ∧
      s' = { shm := shmRef s.shm, offset := s.offset + channelShmSize cls attr } := by
  unfold newChannel at h
  split at h
  · cases h
  · rename_i hnew
    cases h
    obtain ⟨hgrants, hplaced, heventfd, hshm⟩ := channelNew_some hnew
    exact ⟨hgrants, hplaced, heventfd, by rw [hshm]⟩

/-- A channel that was not created leaves the cursor alone. -/
theorem newChannel_none {s s' : ShmCursor}
    (h : newChannel os cls role i attr s = .ok (none, s', events)) :
    ¬ os.GrantsNew role s.shm.size i attr s.offset ∧ s' = s := by
  unfold newChannel at h
  split at h
  · rename_i hnew
    cases h
    exact ⟨channelNew_none hnew, rfl⟩
  · cases h

/-! ### A channel of a request -/

/-- There is an eventfd at this place in the array. -/
structure Os.GrantsEventfd (os : Os) (nFds : Unsigned) (fds : List Int) (idx : Unsigned) (fd : Int) :
    Prop where
  inside : idx < nFds
  entry : fds[idx.toNat]? = some fd
  nonneg : 0 ≤ fd
  verified : 0 ≤ os.eventfdVerify fd
  nonblocking : 0 ≤ os.setNonblocking fd

/-- Taking an eventfd: it comes out of the array, or there is none to take. -/
theorem takeEventfd_cases {nFds idx : Unsigned} {fds fds' : List Int} {eventfd : Int}
    (h : takeEventfd os idx fds nFds = .ok (eventfd, fds')) :
    os.GrantsEventfd nFds fds idx eventfd ∧ fds' = fds.set idx.toNat (-1) ∨
      eventfd < 0 ∧ fds' = fds ∧ ∀ fd, ¬ os.GrantsEventfd nFds fds idx fd := by
  unfold takeEventfd at h
  split at h
  · rename_i hout
    cases h
    exact Or.inr ⟨by decide, rfl, fun fd hfd => absurd hfd.inside (BitVec.not_lt.mpr hout)⟩
  · rename_i hin
    split at h
    · cases h
    · rename_i fd hentry
      -- The index decides which descriptor is meant.
      have hfd {fd'} (hgrants : os.GrantsEventfd nFds fds idx fd') : fd' = fd :=
        Option.some.inj (hgrants.entry.symm.trans hentry)
      split at h
      · rename_i hneg
        cases h
        refine Or.inr ⟨hneg, rfl, fun fd' hgrants => ?_⟩
        have := hgrants.nonneg
        rw [hfd hgrants] at this
        omega
      · -- the checks of `take_eventfd` in their order: each that fails refutes one clause of the condition
        rename_i hpos
        split at h
        · rename_i hneg
          cases h
          refine Or.inr ⟨hneg, rfl, fun fd' hgrants => ?_⟩
          have := hgrants.verified
          rw [hfd hgrants] at this
          omega
        · rename_i hverified
          split at h
          · rename_i hneg
            cases h
            refine Or.inr ⟨hneg, rfl, fun fd' hgrants => ?_⟩
            have := hgrants.nonblocking
            rw [hfd hgrants] at this
            omega
          · rename_i hnonblocking
            cases h
            exact Or.inl ⟨⟨BitVec.not_le.mp hin, hentry, by omega, by omega, by omega⟩, rfl⟩

/-- Only a channel with an eventfd takes one out of the array. -/
theorem FdCursor.takeEventfd_cases {nFds : Unsigned} {s t : FdCursor} {eventfd : Int}
    (h : s.takeEventfd os nFds attr = .ok (eventfd, t)) :
    (attr.eventfd = false ∧ eventfd = -1 ∧ t = s) ∨
      attr.eventfd = true ∧ ∃ fds, Rtipc.takeEventfd os s.idx s.fds nFds = .ok (eventfd, fds) ∧
        t = { s with fds := fds, idx := s.idx + 1 } := by
  unfold FdCursor.takeEventfd at h
  split at h
  · rename_i hattr
    obtain ⟨⟨fd, fds⟩, hfd, hret⟩ := checkedBind_ok.mp h
    cases hret
    exact Or.inr ⟨hattr, fds, hfd, rfl⟩
  · rename_i hattr
    cases h
    exact Or.inl ⟨Bool.eq_false_iff.mpr hattr, rfl, rfl⟩

/-- A round takes an eventfd, if the channel has one, and maps the channel. -/
theorem mapChannel_cases {nFds : Unsigned} {s s' : FdCursor} {made : Option ChannelEnd}
    (h : mapChannel os cls nFds role i attr s = .ok (made, s', events)) :
    ∃ eventfd t, s.takeEventfd os nFds attr = .ok (eventfd, t) ∧
      ((attr.eventfd = true ∧ eventfd < 0) ∧ made = none ∧ s' = t ∧ events = [] ∨
        ¬ (attr.eventfd = true ∧ eventfd < 0) ∧
          ((∃ failed, channelMap os cls role i attr eventfd t.shm t.offset = (none, failed) ∧
              made = none ∧ s' = t ∧ events = failed ++ closed eventfd) ∨
            ∃ channel shm,
              channelMap os cls role i attr eventfd t.shm t.offset = (some (channel, shm), events) ∧
              made = some channel ∧
              s' = { t with shm := shm, offset := t.offset + channelShmSize cls attr })) := by
  obtain ⟨⟨eventfd, t⟩, htake, h⟩ := checkedBind_ok.mp h
  refine ⟨eventfd, t, htake, ?_⟩
  simp only [] at h
  split at h
  · rename_i hneg
    cases h
    exact Or.inl ⟨hneg, rfl, rfl, rfl⟩
  · rename_i hgo
    split at h
    · rename_i failed hmap
      cases h
      exact Or.inr ⟨hgo, Or.inl ⟨failed, hmap, rfl, rfl, rfl⟩⟩
    · rename_i channel shm _ hmap
      cases h
      exact Or.inr ⟨hgo, Or.inr ⟨channel, shm, hmap, rfl, rfl⟩⟩

/-- What a channel of a request needs. -/
structure Os.GrantsMap (os : Os) (nFds : Unsigned) (role : Role) (size : Size) (i : Nat)
    (attr : ChannelAttr InfoPtr) (offset : Size) (fds : List Int) (idx : Unsigned) : Prop where
  blocks : os.Grants role i offset size
  eventfd : attr.eventfd = true → ∃ fd, os.GrantsEventfd nFds fds idx fd

/-- What a round that succeeds has done. -/
structure FdCursor.Step (os : Os) (cls : Size) (nFds : Unsigned) (attr : ChannelAttr InfoPtr)
    (channel : ChannelEnd) (s s' : FdCursor) : Prop where
  shm : s'.shm = shmRef s.shm
  offset : s'.offset = s.offset + channelShmSize cls attr
  without : attr.eventfd = false → channel.eventfd = -1 ∧ s'.fds = s.fds ∧ s'.idx = s.idx
  eventfd : attr.eventfd = true → os.GrantsEventfd nFds s.fds s.idx channel.eventfd ∧
    s'.fds = s.fds.set s.idx.toNat (-1) ∧ s'.idx = s.idx + 1

/-- A channel that was mapped lies at the offset, with its eventfd from the array. -/
theorem mapChannel_some {nFds : Unsigned} {s s' : FdCursor}
    (h : mapChannel os cls nFds role i attr s = .ok (some channel, s', events)) :
    os.GrantsMap nFds role s.shm.size i attr s.offset s.fds s.idx ∧
      channel.Placed cls s.shm.mem s.shm.size s.offset attr ∧
      FdCursor.Step os cls nFds attr channel s s' := by
  obtain ⟨eventfd, t, htake, ⟨-, hnone, -⟩ | ⟨hgo, ⟨_, -, hnone, -⟩ | ⟨_, shm, hmap, hsome, rfl⟩⟩⟩ :=
    mapChannel_cases h
  · cases hnone
  · cases hnone
  cases hsome
  obtain ⟨hgrants, hplaced, heventfd, hshm⟩ := channelMap_some hmap
  rcases FdCursor.takeEventfd_cases htake with ⟨hattr, -, rfl⟩ | ⟨hattr, fds, hfd, rfl⟩
  · have hno : ¬ attr.eventfd = true := by rw [hattr]; decide
    rw [if_neg hno] at heventfd
    exact ⟨⟨hgrants, fun htrue => absurd htrue hno⟩, hplaced, hshm, rfl,
      fun _ => ⟨heventfd, rfl, rfl⟩, fun htrue => absurd htrue hno⟩
  · rw [if_pos hattr] at heventfd
    rcases Rtipc.takeEventfd_cases hfd with ⟨htaken, hset⟩ | ⟨hneg, -⟩
    · subst heventfd
      refine ⟨⟨hgrants, fun _ => ⟨_, htaken⟩⟩, hplaced, hshm, rfl, ?_, fun _ => ⟨htaken, hset, rfl⟩⟩
      intro hfalse
      rw [hattr] at hfalse
      cases hfalse
    · exact absurd ⟨hattr, hneg⟩ hgo

/-- A channel that was not mapped leaves the shared memory alone. -/
theorem mapChannel_none {nFds : Unsigned} {s s' : FdCursor}
    (h : mapChannel os cls nFds role i attr s = .ok (none, s', events)) :
    ¬ os.GrantsMap nFds role s.shm.size i attr s.offset s.fds s.idx ∧ s'.shm = s.shm := by
  obtain ⟨eventfd, t, htake, hround⟩ := mapChannel_cases h
  have ht : t.shm = s.shm ∧ t.offset = s.offset := by
    rcases FdCursor.takeEventfd_cases htake with ⟨-, -, rfl⟩ | ⟨-, fds, -, rfl⟩
    · exact ⟨rfl, rfl⟩
    · exact ⟨rfl, rfl⟩
  rcases hround with ⟨⟨hattr, hneg⟩, -, rfl, -⟩ | ⟨-, ⟨_, hmap, -, rfl, -⟩ | ⟨_, _, -, hsome, -⟩⟩
  · refine ⟨fun hgrants => ?_, ht.1⟩
    obtain ⟨fd, hfd⟩ := hgrants.eventfd hattr
    rcases FdCursor.takeEventfd_cases htake with ⟨hno, -⟩ | ⟨-, fds, htaken, -⟩
    · rw [hattr] at hno
      cases hno
    · rcases Rtipc.takeEventfd_cases htaken with ⟨hpos, -⟩ | ⟨-, -, hnone⟩
      · exact absurd hpos.nonneg (by omega)
      · exact hnone fd hfd
  · rw [ht.1, ht.2] at hmap
    exact ⟨fun hgrants => channelMap_none hmap hgrants.blocks, ht.1⟩
  · cases hsome

end round

/-! ## All rounds

  The channels of a loop that has come to its end, one behind the other. -/

/-- The channels for these attributes, one behind the other from `offset` on. -/
def PlacedFrom (cls mem size : Size) : Size → List (ChannelAttr InfoPtr) → List ChannelEnd → Prop
  | _, [], [] => True
  | offset, attr :: attrs, channel :: channels =>
    channel.Placed cls mem size offset attr ∧
      PlacedFrom cls mem size (offset + channelShmSize cls attr) attrs channels
  | _, _, _ => False

/-- Where the channels end. -/
def endOffset {π : Type} (cls offset : Size) (attrs : List (ChannelAttr π)) : Size :=
  attrs.foldl (fun offset attr => offset + channelShmSize cls attr) offset

/-- All placed channels belong to the group. -/
theorem PlacedFrom.owners {cls mem size offset : Size} {attrs : List (ChannelAttr InfoPtr)}
    {channels : List ChannelEnd} (h : PlacedFrom cls mem size offset attrs channels) :
    ∀ c ∈ channels, c.owners = ownerGroupFlag := by
  induction channels generalizing attrs offset with
  | nil =>
    intro c hc
    cases hc
  | cons channel channels ih =>
    cases attrs with
    | nil => exact h.elim
    | cons attr attrs =>
      intro c hc
      rcases List.mem_cons.mp hc with rfl | hc
      · exact h.1.owners
      · exact ih h.2 c hc

section rounds

variable {os : Os} {cls : Size} {role : Role} {i : Nat} {attrs : List (ChannelAttr InfoPtr)}
  {channels : List ChannelEnd}

/-- The channels of a loop are placed one behind the other, and each takes a reference. -/
theorem Filling.placed {σ : Type}
    {step : Nat → ChannelAttr InfoPtr → σ → Checked (Option ChannelEnd × σ × List Event)}
    (cursor : σ → ShmCursor)
    (hstep : ∀ {i attr s channel t events}, step i attr s = .ok (some channel, t, events) →
      channel.Placed cls (cursor s).shm.mem (cursor s).shm.size (cursor s).offset attr ∧
        cursor t =
          { shm := shmRef (cursor s).shm, offset := (cursor s).offset + channelShmSize cls attr })
    {s t : σ} (h : Filling step i attrs s channels t) :
    PlacedFrom cls (cursor s).shm.mem (cursor s).shm.size (cursor s).offset attrs channels ∧
      cursor t =
        { shm := { (cursor s).shm with
            refCnt := (cursor s).shm.refCnt + BitVec.ofNat 32 channels.length }
          offset := endOffset cls (cursor s).offset attrs } := by
  -- The induction is on the channels made; each of them adds one reference and moves the offset.
  induction h with
  | nil =>
    refine ⟨trivial, ?_⟩
    rw [List.length_nil, BitVec.add_zero]
    rfl
  | @cons i attr attrs s t u channel channels events hfirst _ ih =>
    obtain ⟨hplaced, hcursor⟩ := hstep hfirst
    obtain ⟨hrest, hend⟩ := ih
    rw [hcursor] at hrest hend
    refine ⟨⟨hplaced, hrest⟩, ?_⟩
    have hcnt : (cursor s).shm.refCnt + 1 + BitVec.ofNat 32 channels.length =
        (cursor s).shm.refCnt + BitVec.ofNat 32 (channels.length + 1) := by
      rw [BitVec.ofNat_add, BitVec.add_assoc, BitVec.add_comm 1]
      rfl
    rw [hend, List.length_cons, ← hcnt]
    rfl

/-- The step of `ri_group_new` as a step of the layout. -/
theorem newChannel_placed {attr : ChannelAttr InfoPtr} {s t : ShmCursor} {channel : ChannelEnd}
    {events : List Event} (h : newChannel os cls role i attr s = .ok (some channel, t, events)) :
    channel.Placed cls (id s).shm.mem (id s).shm.size (id s).offset attr ∧ id t =
      { shm := shmRef (id s).shm, offset := (id s).offset + channelShmSize cls attr } := by
  obtain ⟨-, hplaced, -, hcursor⟩ := newChannel_some h
  exact ⟨hplaced, hcursor⟩

/-- The step of `ri_group_map` as a step of the layout. -/
theorem mapChannel_placed {nFds : Unsigned} {attr : ChannelAttr InfoPtr} {s t : FdCursor}
    {channel : ChannelEnd} {events : List Event}
    (h : mapChannel os cls nFds role i attr s = .ok (some channel, t, events)) :
    channel.Placed cls s.toShmCursor.shm.mem s.toShmCursor.shm.size s.toShmCursor.offset attr ∧
      t.toShmCursor =
        { shm := shmRef s.toShmCursor.shm, offset := s.toShmCursor.offset + channelShmSize cls attr } := by
  obtain ⟨-, hplaced, hround⟩ := mapChannel_some h
  refine ⟨hplaced, ?_⟩
  rw [← hround.shm, ← hround.offset]

/-! ### The eventfds -/

/-- The eventfds of the channels that have one. -/
def eventfds (channels : List ChannelEnd) : List Int :=
  (channels.map (·.eventfd)).filter fun fd => 0 ≤ fd

/-- The eventfd of a channel that has one. -/
theorem eventfds_cons_of_nonneg {channel : ChannelEnd} (h : 0 ≤ channel.eventfd)
    (channels : List ChannelEnd) :
    eventfds (channel :: channels) = channel.eventfd :: eventfds channels := by
  rw [eventfds, List.map_cons, List.filter_cons_of_pos (by exact decide_eq_true h), eventfds]

/-- A channel without an eventfd adds none. -/
theorem eventfds_cons_of_neg {channel : ChannelEnd} (h : channel.eventfd < 0)
    (channels : List ChannelEnd) : eventfds (channel :: channels) = eventfds channels := by
  rw [eventfds, List.map_cons, List.filter_cons_of_neg (by simp only [decide_eq_true_eq]; omega),
    eventfds]

/-- The channels that are to have an eventfd have one. -/
def EventfdsMatch (attrs : List (ChannelAttr InfoPtr)) (channels : List ChannelEnd) : Prop :=
  List.Forall₂ (fun attr channel => (attr.eventfd = true ∧ 0 ≤ channel.eventfd) ∨
    (attr.eventfd = false ∧ channel.eventfd = -1)) attrs channels

/-- As many eventfds as attributes ask for. -/
theorem EventfdsMatch.length_eventfds {attrs : List (ChannelAttr InfoPtr)} {channels : List ChannelEnd}
    (h : EventfdsMatch attrs channels) :
    (eventfds channels).length = attrs.countP (·.eventfd) := by
  induction h with
  | nil => rfl
  | @cons attr channel attrs channels hfirst _ ih =>
    rcases hfirst with ⟨htrue, hpos⟩ | ⟨hfalse, hneg⟩
    · rw [eventfds_cons_of_nonneg hpos, List.length_cons, ih, List.countP_cons_of_pos htrue]
    · rw [eventfds_cons_of_neg (by omega), ih,
        List.countP_cons_of_neg (by rw [hfalse]; decide)]

/-- In `ri_group_new` a channel has an eventfd if and only if its attribute asks for one. -/
theorem Filling.newEventfds {s t : ShmCursor}
    (h : Filling (newChannel os cls role) i attrs s channels t) : EventfdsMatch attrs channels := by
  induction h with
  | nil => exact List.Forall₂.nil
  | @cons i attr attrs s t u channel channels events hfirst _ ih =>
    obtain ⟨hgrants, -, heventfd, -⟩ := newChannel_some hfirst
    refine List.Forall₂.cons ?_ ih
    cases hattr : attr.eventfd with
    | true =>
      rw [if_pos hattr] at heventfd
      exact Or.inl ⟨rfl, heventfd ▸ hgrants.eventfd hattr⟩
    | false =>
      rw [if_neg (by rw [hattr]; decide)] at heventfd
      exact Or.inr ⟨rfl, heventfd⟩

/-- The same in `ri_group_map`. -/
theorem Filling.mapEventfds {nFds : Unsigned} {s t : FdCursor}
    (h : Filling (mapChannel os cls nFds role) i attrs s channels t) :
    EventfdsMatch attrs channels := by
  induction h with
  | nil => exact List.Forall₂.nil
  | @cons i attr attrs s t u channel channels events hfirst _ ih =>
    obtain ⟨-, -, hround⟩ := mapChannel_some hfirst
    refine List.Forall₂.cons ?_ ih
    cases hattr : attr.eventfd with
    | true => exact Or.inl ⟨rfl, (hround.eventfd hattr).1.nonneg⟩
    | false => exact Or.inr ⟨rfl, (hround.without hattr).1⟩

/-- What the loop does to the array of descriptors: the eventfds of the channels are what comes next in
    it, and they are replaced. -/
structure FdsTaken (s t : FdCursor) (taken before after : List Int) : Prop where
  fds : s.fds = before ++ (taken ++ after)
  idx : before.length = s.idx.toNat
  fds' : t.fds = before ++ (List.replicate taken.length (-1) ++ after)
  idx' : t.idx.toNat = s.idx.toNat + taken.length

/-- The loop takes the eventfds from the array in order and clears them. -/
theorem Filling.fdsTaken {nFds : Unsigned} {s t : FdCursor}
    (h : Filling (mapChannel os cls nFds role) i attrs s channels t)
    (hidx : s.idx.toNat ≤ s.fds.length) :
    ∃ before after, FdsTaken s t (eventfds channels) before after := by
  -- The induction is on the channels made; what is taken lies between the two indices.
  induction h with
  | @nil i s =>
    refine ⟨s.fds.take s.idx.toNat, s.fds.drop s.idx.toNat, ?_, ?_, ?_, rfl⟩
    · exact (List.take_append_drop _ _).symm
    · rw [List.length_take, Nat.min_eq_left hidx]
    · exact (List.take_append_drop _ _).symm
  | @cons i attr attrs s t u channel channels events hfirst _ ih =>
    obtain ⟨-, -, hround⟩ := mapChannel_some hfirst
    cases hattr : attr.eventfd with
    | false =>
      obtain ⟨heventfd, hfds, hidx'⟩ := hround.without hattr
      obtain ⟨before, after, htaken⟩ := ih (by rw [hfds, hidx']; exact hidx)
      rw [eventfds_cons_of_neg (by omega)]
      exact ⟨before, after, hfds ▸ htaken.fds, hidx' ▸ htaken.idx, htaken.fds',
        hidx' ▸ htaken.idx'⟩
    | true =>
      obtain ⟨hgrants, hfds, hidx'⟩ := hround.eventfd hattr
      have hlt : s.idx.toNat < s.fds.length := (List.getElem?_eq_some_iff.mp hgrants.entry).1
      have hinside := hgrants.inside
      rw [BitVec.lt_def] at hinside
      have hnext : t.idx.toNat = s.idx.toNat + 1 := by
        rw [hidx', BitVec.toNat_add, show (1 : Unsigned).toNat = 1 from rfl]
        exact Nat.mod_eq_of_lt (by omega)
      obtain ⟨before, after, htaken⟩ := ih (by rw [hfds, hnext, List.length_set]; exact hlt)
      rw [eventfds_cons_of_nonneg hgrants.nonneg]
      -- The entry taken has been cleared, and belongs to the part behind the cursor.
      have hbefore : before = s.fds.take s.idx.toNat ++ [-1] := by
        have htake : t.fds.take before.length = before := by
          rw [htaken.fds, List.take_left]
        rw [← htake, htaken.idx, hnext, hfds, List.take_set, List.take_add_one, hgrants.entry]
        rw [List.set_append_right _ _ (by rw [List.length_take]; omega)]
        rw [List.length_take, Nat.min_eq_left hidx, Nat.sub_self]
        rfl
      -- What follows it is still to be taken.
      have hdrop : s.fds.drop (s.idx.toNat + 1) = eventfds channels ++ after := by
        have hd : t.fds.drop before.length = eventfds channels ++ after := by
          rw [htaken.fds, List.drop_left]
        rw [← hd, htaken.idx, hnext, hfds, List.drop_set, if_pos (Nat.lt_succ_self _)]
      refine ⟨s.fds.take s.idx.toNat, after, ?_, ?_, ?_, ?_⟩
      · have hcons : s.fds.drop s.idx.toNat =
            channel.eventfd :: s.fds.drop (s.idx.toNat + 1) := by
          rw [List.drop_eq_getElem_cons hlt, (List.getElem?_eq_some_iff.mp hgrants.entry).2]
        rw [List.cons_append, ← hdrop, ← hcons, List.take_append_drop]
      · rw [List.length_take, Nat.min_eq_left hidx]
      · rw [htaken.fds', hbefore, List.length_cons, List.replicate_succ, List.append_assoc]
        rfl
      · rw [htaken.idx', hnext, List.length_cons]
        omega

end rounds

end Rtipc
