/-
  Does an end of a channel give back what it holds?

  `LiveEnd.owned` is what an end holds.  Every call settles the difference (`EndState.step_cases`), so in
  every run the books agree with it (`Books`), and the deletion gives back everything but the
  message cache: `ri_producer_delete` does not free it.  So the books are balanced after the deletion if
  and only if the cache is off when the end is deleted (`balanced_iff`).

  1. **The books.**  Each call is a list of events: a block, a descriptor or a reference that is
     acquired or released.  `Books` says that what has been acquired and not released is what the end
     holds, plus the descriptors that its user has taken, minus the references that others have dropped.

  2. **One call.**  `LiveEnd.call_settles` is the ledger of a call that keeps the end, and
     `LiveEnd.delete_settles` that of the deletion; `EndState.step_cases` says that there is no third
     kind.

  3. **The crux.**  The message cache is the only thing a call acquires that the deletion does not look
     at.  So the difference between the books and zero after the deletion is the cache
     (`Books.deleted`): the two are multisets, and one element is either there or not.
-/
import Rtipc.EndCalls
import Rtipc.GroupLedger

namespace Rtipc

/-! ## What an end holds -/

/-- Blocks and descriptors, among what an end holds. -/
def heldBy (rs : Multiset Resource) : Multiset EndResource := rs.map .resource

/-- What two lots of resources hold. -/
theorem heldBy_add (rs rs' : Multiset Resource) : heldBy (rs + rs') = heldBy rs + heldBy rs' :=
  Multiset.map_add _ _ _

/-- The block of a cache, if it is not null. -/
def ownedCache {β : Type} : Option β → Multiset EndResource
  | none => 0
  | some _ => {.cache}

/-- What an end holds: its blocks and its eventfd, its cache, and one reference to the shared memory. -/
def LiveEnd.owned {β : Type} (i : Nat) (live : LiveEnd β) : Multiset EndResource :=
  heldBy (live.channel.owned live.data.role i) + ownedCache live.data.cache + {.reference}

/-- The ledger of a group is one of the end, without the reference. -/
theorem Settles.endMoves {events : List Event} {pre post : Multiset Resource}
    (h : Settles events pre post) : Ledger.Settles (heldBy pre) (endMoves events) (heldBy post) :=
  Ledger.Settles.map (fun _ _ => EndResource.resource.inj) h

/-- A ledger up to equal multisets. -/
theorem ledger_of_eq {pre pre' post post' : Multiset EndResource} {ms : List (Move EndResource)}
    (h : Ledger.Settles pre ms post) (hpre : pre = pre') (hpost : post = post') :
    Ledger.Settles pre' ms post' := hpre ▸ hpost ▸ h

/-! ## The calls that keep the end -/

section calls

variable {β : Type}

/-- Writing the eventfd does not change the private state of the producer. -/
theorem Producer.signal_ensures (p : Producer β) (op : PushOp) (r : PushResult) :
    (p.signal op r).Ensures fun y => y.1 = p := by
  unfold Producer.signal
  split
  · intro _
    rfl
  · rfl

/-- A push changes the queue of the producer only. -/
theorem Producer.push_ensures (p : Producer β) (op : PushOp) :
    (p.push op).Ensures fun y => y.1.eventfd = p.eventfd ∧ y.1.cache = p.cache := by
  have hqueue (op : PushOp) : (onQueue (op.prog p.queue) >>= fun y =>
      ({ p with queue := y.1 }.signal op y.2 : ChannelProg β (Producer β × PushResult))).Ensures
        fun y => y.1.eventfd = p.eventfd ∧ y.1.cache = p.cache := by
    apply (Prog.ensures_true _).bind
    intro y _
    apply (Producer.signal_ensures _ _ _).mono
    intro z hz
    rw [hz]
    exact ⟨rfl, rfl⟩
  obtain ⟨q, fd, cache⟩ := p
  cases op with
  | forcePush =>
    cases cache with
    | none => exact hqueue .forcePush
    | some x => exact (Prog.ensures_true _).bind fun _ _ => hqueue .forcePush
  | tryPush =>
    cases cache with
    | none => exact hqueue .tryPush
    | some x =>
      apply (Prog.ensures_true (onQueue q.full)).bind
      intro full _
      cases full with
      | true => exact ⟨rfl, rfl⟩
      | false => exact (Prog.ensures_true _).bind fun _ _ => hqueue .tryPush

/-- A pop keeps the eventfd. -/
theorem Consumer.pop_ensures (c : Consumer) :
    (c.pop : ChannelProg β (Consumer × PopResult)).Ensures fun y => y.1.eventfd = c.eventfd := by
  have hqueue : (onQueue c.queue.pop >>= fun y =>
      (pure ({ c with queue := y.1 }, y.2) : ChannelProg β (Consumer × PopResult))).Ensures
        fun y => y.1.eventfd = c.eventfd := (Prog.ensures_true _).bind fun _ _ => rfl
  unfold Consumer.pop
  split
  · intro ok
    cases ok with
    | false => rfl
    | true => exact hqueue
  · exact hqueue

/-- So does a pass of a flush. -/
theorem Consumer.flushPass_ensures (c : Consumer) :
    (c.flushPass : ChannelProg β (Consumer × Loop PopResult)).Ensures
      fun y => y.1.eventfd = c.eventfd := by
  unfold Consumer.flushPass
  split
  · exact (Consumer.pop_ensures c).bind fun _ hy => hy
  · exact (Prog.ensures_true _).bind fun _ _ => rfl

/-- `ri_producer_cache_enable` gets a block, unless there is one already or there is no memory. -/
theorem Producer.cacheEnable_settles {p p' : Producer β} {ok : Bool} {msgs : Index → β} {r : Int}
    {moves : List (Move EndResource)} (h : p.cacheEnable ok msgs = some (r, p', moves)) :
    p'.eventfd = p.eventfd ∧ Ledger.Settles (ownedCache p.cache) moves (ownedCache p'.cache) := by
  obtain ⟨q, fd, cache⟩ := p
  cases cache with
  | some x =>
    cases h
    exact ⟨rfl, Ledger.Settles.nil⟩
  | none =>
    cases ok with
    | false =>
      cases h
      exact ⟨rfl, Ledger.Settles.nil⟩
    | true =>
      obtain ⟨i, -, h⟩ := Option.map_eq_some_iff.mp h
      cases h
      exact ⟨rfl, Ledger.Settles.acquire _⟩

/-- `ri_producer_cache_disable` frees it. -/
theorem Producer.cacheDisable_settles {p p' : Producer β} {msgs msgs' : Index → β}
    {moves : List (Move EndResource)} (h : p.cacheDisable msgs = some (msgs', p', moves)) :
    p'.eventfd = p.eventfd ∧ Ledger.Settles (ownedCache p.cache) moves (ownedCache p'.cache) := by
  obtain ⟨q, fd, cache⟩ := p
  cases cache with
  | none =>
    cases h
    exact ⟨rfl, Ledger.Settles.nil⟩
  | some x =>
    obtain ⟨i, -, h⟩ := Option.map_eq_some_iff.mp h
    cases h
    exact ⟨rfl, ledger_of_eq (Ledger.Settles.release _) (Multiset.zero_add _) rfl⟩

end calls

/-! ## The books

  What has been acquired, what has been released, and what is still held, as one equation. -/

/-- The descriptor the user has got from a call. -/
def EndReply.taken : EndReply → List Int
  | took fd => [fd]
  | _ => []

/-- What a call of another holder adds to the reference counter. -/
def EndCall.refs {β : Type} : EndCall β → Unsigned
  | others refs => refs
  | _ => 0

section books

variable {β : Type} {i : Nat} {live live' : LiveEnd β} {s s' : EndState β} {e : EndCall β}
  {o : EndOutcome}

/-- A call that leaves the eventfd in its place. -/
theorem LiveEnd.onProducer_settles {f : Producer β → Option (Producer β × EndOutcome)}
    (h : live.onProducer f = some (live', o))
    (hf : ∀ p p' o, f p = some (p', o) → p'.eventfd = p.eventfd ∧ o.reply.taken = [] ∧
      Ledger.Settles (ownedCache p.cache) o.moves (ownedCache p'.cache)) :
    Ledger.Settles (live.owned i) o.moves
      (live'.owned i + heldBy (descriptors o.reply.taken)) := by
  obtain ⟨channel, data⟩ := live
  cases data with
  | consumer queue => cases h
  | producer queue cache =>
    obtain ⟨⟨p', o'⟩, hcall, h⟩ := Option.map_eq_some_iff.mp h
    cases h
    obtain ⟨hfd, htaken, hmoves⟩ := hf _ _ _ hcall
    have hframe := hmoves.frame (heldBy (channel.owned .producer i) + {.reference})
    apply ledger_of_eq hframe
    · rw [LiveEnd.owned, EndData.cache, EndData.role]
      abel
    · rw [LiveEnd.owned, EndData.cache, EndData.role, htaken, ChannelEnd.owned, ChannelEnd.owned,
        show p'.eventfd = channel.eventfd from hfd, descriptors, heldBy, heldBy, Multiset.map_zero]
      abel

/-- A call of a consumer: nothing is acquired or released. -/
theorem LiveEnd.onConsumer_settles {f : Consumer → Option (Consumer × EndOutcome)}
    (h : live.onConsumer f = some (live', o))
    (hf : ∀ c c' o, f c = some (c', o) → c'.eventfd = c.eventfd ∧ o.reply.taken = [] ∧
      o.moves = []) :
    Ledger.Settles (live.owned i) o.moves
      (live'.owned i + heldBy (descriptors o.reply.taken)) := by
  obtain ⟨channel, data⟩ := live
  cases data with
  | producer queue cache => cases h
  | consumer queue =>
    obtain ⟨⟨c', o'⟩, hcall, h⟩ := Option.map_eq_some_iff.mp h
    cases h
    obtain ⟨hfd, htaken, hmoves⟩ := hf _ _ _ hcall
    rw [hmoves, htaken]
    apply ledger_of_eq Ledger.Settles.nil rfl
    rw [LiveEnd.owned, LiveEnd.owned, EndData.cache, EndData.cache, EndData.role, EndData.role,
      ChannelEnd.owned, ChannelEnd.owned, show c'.eventfd = channel.eventfd from hfd, descriptors,
      heldBy, heldBy, Multiset.map_zero, Multiset.add_zero]

/-- The descriptor goes over to the user. -/
theorem ChannelEnd.owned_takeEventfd (role : Role) (channel : ChannelEnd) :
    channel.owned role i =
      channel.takeEventfd.2.owned role i + descriptors [channel.takeEventfd.1] := by
  rw [ChannelEnd.owned, ChannelEnd.owned, ChannelEnd.takeEventfd,
    descriptors_of_neg (show (-1 : Int) < 0 by decide), descriptors.eq_1, Multiset.add_zero]

/-- What a call that keeps the end acquires and releases is the difference between what it holds before
    and after it, and the descriptor the user takes. -/
theorem LiveEnd.call_settles (h : live.call e = some (live', o)) :
    e.refs = 0 ∧ Ledger.Settles (live.owned i) o.moves
      (live'.owned i + heldBy (descriptors o.reply.taken)) := by
  unfold LiveEnd.call at h
  cases e with
  | cacheEnable ok msgs =>
    refine ⟨rfl, LiveEnd.onProducer_settles h ?_⟩
    intro p p' o hcall
    obtain ⟨⟨r, q, moves⟩, henable, hcall⟩ := Option.map_eq_some_iff.mp hcall
    cases hcall
    obtain ⟨hfd, hmoves⟩ := Producer.cacheEnable_settles henable
    exact ⟨hfd, rfl, hmoves⟩
  | cacheDisable msgs =>
    refine ⟨rfl, LiveEnd.onProducer_settles h ?_⟩
    intro p p' o hcall
    obtain ⟨⟨msgs', q, moves⟩, hdisable, hcall⟩ := Option.map_eq_some_iff.mp hcall
    cases hcall
    obtain ⟨hfd, hmoves⟩ := Producer.cacheDisable_settles hdisable
    exact ⟨hfd, rfl, hmoves⟩
  | push op answers =>
    refine ⟨rfl, LiveEnd.onProducer_settles h ?_⟩
    intro p p' o hcall
    obtain ⟨⟨⟨q, r⟩, k⟩, hpush, hcall⟩ := Option.map_eq_some_iff.mp hcall
    cases hcall
    obtain ⟨hfd, hcache⟩ := (p.push_ensures op).run hpush
    exact ⟨hfd, rfl, ledger_of_eq Ledger.Settles.nil rfl (congrArg ownedCache hcache.symm)⟩
  | pop answers =>
    refine ⟨rfl, LiveEnd.onConsumer_settles h ?_⟩
    intro c c' o hcall
    obtain ⟨⟨⟨q, r⟩, k⟩, hpop, hcall⟩ := Option.map_eq_some_iff.mp hcall
    cases hcall
    exact ⟨(c.pop_ensures).run hpop, rfl, rfl⟩
  | flush passes answers =>
    refine ⟨rfl, LiveEnd.onConsumer_settles h ?_⟩
    intro c c' o hcall
    obtain ⟨⟨⟨q, r⟩, k⟩, hflush, hcall⟩ := Option.map_eq_some_iff.mp hcall
    cases hcall
    -- every pass of the loop keeps the eventfd
    refine ⟨Prog.runLoop_invariant (I := fun d _ => d.eventfd = c.eventfd) ?_ hflush rfl, rfl, rfl⟩
    intro d m d' l m' hd hpass
    exact ((d.flushPass_ensures).run hpass).trans hd
  | takeEventfd =>
    -- the descriptor moves from the end to the user; nothing is closed
    cases h
    refine ⟨rfl, ledger_of_eq Ledger.Settles.nil rfl ?_⟩
    show live.owned i = LiveEnd.owned i { live with channel := live.channel.takeEventfd.2 } +
      heldBy (descriptors [live.channel.takeEventfd.1])
    rw [LiveEnd.owned, live.channel.owned_takeEventfd, heldBy_add, LiveEnd.owned]
    abel
  | acquire =>
    cases h
    refine ⟨rfl, ledger_of_eq Ledger.Settles.nil rfl ?_⟩
    exact (Multiset.add_zero _).symm
  | release => cases h
  | groupRelease => cases h
  | others refs => cases h

/-- The deletion gives back everything but the cache, and the shared memory if it was the last to need
    it. -/
theorem LiveEnd.delete_settles (live : LiveEnd β) (shm : Shm) :
    Ledger.Settles (live.owned i + heldBy shm.owned)
      (endMoves (live.channel.delete live.data.role i shm).2 ++ [.release .reference])
      (ownedCache live.data.cache + heldBy (if shm.refCnt = 1 then 0 else shm.owned)) := by
  have hevents := (live.channel.delete_settles live.data.role i shm).endMoves.frame
    (ownedCache live.data.cache + {.reference})
  have hreference : Ledger.Settles
      (ownedCache live.data.cache + heldBy (if shm.refCnt = 1 then 0 else shm.owned) + {.reference})
      [.release .reference]
      (ownedCache live.data.cache + heldBy (if shm.refCnt = 1 then 0 else shm.owned)) :=
    Ledger.Settles.release _
  refine (ledger_of_eq hevents ?_ ?_).append hreference
  · rw [heldBy_add, LiveEnd.owned]
    abel
  · abel

/-- The end stays, with the books settled. -/
structure Kept (i : Nat) (s s' : EndState β) (live live' : LiveEnd β) (e : EndCall β)
    (o : EndOutcome) : Prop where
  stays : s'.live = some live'
  moves : Ledger.Settles (live.owned i) o.moves (live'.owned i + heldBy (descriptors o.reply.taken))
  refCnt : s'.shm.refCnt = s.shm.refCnt + e.refs
  shm : s'.shm.owned = s.shm.owned

/-- The end goes; its cache is left. -/
structure Deleted (i : Nat) (s s' : EndState β) (live : LiveEnd β) (e : EndCall β)
    (o : EndOutcome) : Prop where
  gone : s'.live = none
  moves : Ledger.Settles (live.owned i + heldBy s.shm.owned) o.moves
    (ownedCache live.data.cache + heldBy (if s.shm.refCnt = 1 then 0 else s.shm.owned))
  taken : o.reply.taken = []
  refs : e.refs = 0
  refCnt : s'.shm.refCnt = s.shm.refCnt - 1

/-- The last holder gives up the end, which is deleted. -/
theorem LiveEnd.released_none (hs : live.released (none, live.channel.delete live.data.role i s.shm) =
    (s', o)) (he : e.refs = 0) : Deleted i s s' live e o := by
  cases hs
  exact ⟨rfl, live.delete_settles s.shm, rfl, he, rfl⟩

/-- Nothing but the word of the owners has changed. -/
theorem LiveEnd.released_some {owners : Unsigned}
    (hs : live.released (some { live.channel with owners := owners }, s.shm, []) = (s', o))
    (he : e.refs = 0) :
    Kept i s s' live { live with channel := { live.channel with owners := owners } } e o := by
  cases hs
  refine ⟨rfl, ledger_of_eq Ledger.Settles.nil rfl (Multiset.add_zero _).symm, ?_, rfl⟩
  rw [he]
  exact (BitVec.add_zero _).symm

/-- A call keeps the end or deletes it. -/
theorem EndState.step_cases (h : s.step i e = some (s', o)) :
    ∃ live, s.live = some live ∧ ((∃ live', Kept i s s' live live' e o) ∨ Deleted i s s' live e o) := by
  obtain ⟨live, hlive, h⟩ := Option.bind_eq_some_iff.mp h
  refine ⟨live, hlive, ?_⟩
  -- A call of the end itself changes neither its blocks nor its reference.
  have hcall : (live.call e).map (fun y => (({ s with live := some y.1 } : EndState β), y.2)) =
      some (s', o) → ∃ live', Kept i s s' live live' e o := by
    intro hcall
    obtain ⟨⟨live', o'⟩, hkept, heq⟩ := Option.map_eq_some_iff.mp hcall
    cases heq
    obtain ⟨hrefs, hmoves⟩ := LiveEnd.call_settles (i := i) hkept
    refine ⟨live', rfl, hmoves, ?_, rfl⟩
    rw [hrefs]
    exact (BitVec.add_zero _).symm
  cases e with
  | release =>
    have hs := Option.some.inj h
    unfold ChannelEnd.release at hs
    split at hs
    · exact Or.inr (LiveEnd.released_none hs rfl)
    · exact Or.inl ⟨_, LiveEnd.released_some hs rfl⟩
  -- the release of the user and that of the group are alike: who clears the last flag deletes
  | groupRelease =>
    have hs := Option.some.inj h
    unfold ChannelEnd.giveUp at hs
    split at hs
    · exact Or.inr (LiveEnd.released_none hs rfl)
    · exact Or.inl ⟨_, LiveEnd.released_some hs rfl⟩
  | others refs =>
    cases h
    exact Or.inl ⟨live, hlive, ledger_of_eq Ledger.Settles.nil rfl (Multiset.add_zero _).symm, rfl, rfl⟩
  | cacheEnable ok msgs => exact Or.inl (hcall h)
  | cacheDisable msgs => exact Or.inl (hcall h)
  | push op answers => exact Or.inl (hcall h)
  | pop answers => exact Or.inl (hcall h)
  | flush passes answers => exact Or.inl (hcall h)
  | takeEventfd => exact Or.inl (hcall h)
  | acquire => exact Or.inl (hcall h)

end books

/-! ## Whole runs -/

/-- What the calls of a run acquire and release. -/
def ledgerOf {β : Type} (tr : List (EndCall β × EndOutcome)) : List (Move EndResource) :=
  tr.flatMap fun c => c.2.moves

/-- The descriptors the user has taken. -/
def takenIn {β : Type} (tr : List (EndCall β × EndOutcome)) : List Int :=
  tr.flatMap fun c => c.2.reply.taken

/-- What the other holders have added to the reference counter. -/
def refsIn {β : Type} (tr : List (EndCall β × EndOutcome)) : Unsigned :=
  (tr.map fun c => c.1.refs).sum

section runs

variable {β : Type} {os : Os} {cls : Size} {i : Nat} {attr : ChannelAttr InfoPtr} {shm : Shm}
  {shmOffset : Size} {handed : List Int} {created : List Event} {s₀ s s' : EndState β}
  {tr : List (EndCall β × EndOutcome)} {e : EndCall β} {o : EndOutcome} {live live' : LiveEnd β}

/-- The ledger of one call more. -/
theorem ledgerOf_snoc : ledgerOf (tr ++ [(e, o)]) = ledgerOf tr ++ o.moves := by
  rw [ledgerOf, List.flatMap_append, List.flatMap_singleton]
  rfl

/-- The descriptors that users have taken, with one call more. -/
theorem takenIn_snoc : takenIn (tr ++ [(e, o)]) = takenIn tr ++ o.reply.taken := by
  rw [takenIn, List.flatMap_append, List.flatMap_singleton]
  rfl

/-- The references of others, with one call more. -/
theorem refsIn_snoc : refsIn (tr ++ [(e, o)]) = refsIn tr + e.refs := by
  rw [refsIn, List.map_append, List.sum_append, List.map_singleton, List.sum_singleton]
  rfl

/-- What has been acquired and released so far: with the creation comes the reference. -/
def history (created : List Event) (tr : List (EndCall β × EndOutcome)) : List (Move EndResource) :=
  endMoves created ++ [.acquire .reference] ++ ledgerOf tr

/-- After the deletion everything that was acquired has been released once, and the reference has been
    dropped once.  What is left are the descriptors the user has taken, and the shared memory as long as
    somebody else needs it. -/
structure Balanced (shm : Shm) (handed : List Int) (created : List Event)
    (tr : List (EndCall β × EndOutcome)) (s : EndState β) : Prop where
  settles : Ledger.Settles (heldBy (descriptors handed + shm.owned)) (history created tr)
    (heldBy (descriptors (takenIn tr) + if s.shm.refCnt = 0 then 0 else shm.owned))
  refCnt : s.shm.refCnt = shm.refCnt + refsIn tr

/-- The books of an end that has not been deleted. -/
structure Books (i : Nat) (shm : Shm) (handed : List Int) (created : List Event)
    (tr : List (EndCall β × EndOutcome)) (s : EndState β) (live : LiveEnd β) : Prop where
  settles : Ledger.Settles (heldBy (descriptors handed + shm.owned)) (history created tr)
    (live.owned i + heldBy (descriptors (takenIn tr)) + heldBy shm.owned)
  refCnt : s.shm.refCnt = shm.refCnt + refsIn tr + 1
  shm : s.shm.owned = shm.owned

/-- The books of an end that has just been made: what its construction has acquired is what it holds. -/
theorem EndMade.books (h : EndMade os cls i attr shm shmOffset handed created s₀) :
    ∃ live, s₀.live = some live ∧ Books i shm handed created [] s₀ live := by
  -- What has been acquired is what the end holds, and one reference.
  have hbooks {data : EndData β} {channel : ChannelEnd} {shm' : Shm}
      (hmoves : Settles created (descriptors handed) (channel.owned data.role i))
      (hcache : data.cache = none) (hshm : shm' = shmRef shm) :
      Books i shm handed created [] { live := some ⟨channel, data⟩, shm := shm' }
        ⟨channel, data⟩ := by
    have hacquire : Ledger.Settles (heldBy (channel.owned data.role i + shm.owned))
        [.acquire .reference] (heldBy (channel.owned data.role i + shm.owned) + {.reference}) :=
      Ledger.Settles.acquire _
    have hall := (hmoves.frame shm.owned).endMoves.append hacquire
    rw [hshm]
    refine ⟨ledger_of_eq (hall.append Ledger.Settles.nil) rfl ?_, ?_, rfl⟩
    · rw [heldBy_add, LiveEnd.owned, hcache]
      show _ = heldBy (channel.owned data.role i) + 0 + {.reference} + heldBy 0 + heldBy shm.owned
      rw [heldBy.eq_1 0, Multiset.map_zero]
      abel
    · show shm.refCnt + 1 = shm.refCnt + 0 + 1
      rw [add_zero]
  have hfresh {data : EndData β} {nMsgs : Nat} (hdata : data.New nMsgs) : data.cache = none := by
    cases data with
    | consumer queue => rfl
    | producer queue cache => exact hdata.1
  cases h with
  | @new data _ _ _ h hdata =>
    refine ⟨_, rfl, hbooks ?_ (hfresh hdata) (channelNew_some h).2.2.2⟩
    have hnew := channelNew_settles os cls data.role i attr shm shmOffset
    rwa [h] at hnew
  | @map data _ _ _ eventfd hfd h hdata =>
    refine ⟨_, rfl, hbooks ?_ (hfresh hdata) (channelMap_some h).2.2.2⟩
    have hmap := channelMap_settles os cls data.role i attr shm shmOffset eventfd hfd
    rwa [h] at hmap

/-- The books stay right when a call keeps the end. -/
theorem Books.kept (h : Books i shm handed created tr s live) (hs : Kept i s s' live live' e o) :
    Books i shm handed created (tr ++ [(e, o)]) s' live' where
  settles := by
    have hmoves := hs.moves.frame (heldBy (descriptors (takenIn tr)) + heldBy shm.owned)
    rw [← Multiset.add_assoc] at hmoves
    have hall := h.settles.append hmoves
    rw [history, ledgerOf_snoc, ← List.append_assoc]
    refine ledger_of_eq hall rfl ?_
    rw [takenIn_snoc, descriptors_append, heldBy_add]
    abel
  refCnt := by
    rw [hs.refCnt, h.refCnt, refsIn_snoc]
    ac_rfl
  shm := hs.shm.trans h.shm

/-- As long as the end is there its books are right. -/
theorem EndMade.run_books (h : EndMade os cls i attr shm shmOffset handed created s₀)
    (hr : (endMachine i s₀).Run Machine.always tr s) :
    ∀ live, s.live = some live → Books i shm handed created tr s live := by
  refine hr.invariant_trace (I := fun tr s => ∀ live, s.live = some live →
    Books i shm handed created tr s live) ?_ ?_
  · rintro s rfl live hlive
    obtain ⟨live₀, hlive₀, hbooks⟩ := h.books
    rw [hlive₀] at hlive
    cases hlive
    exact hbooks
  · intro tr s e s' o ih _ hs live' hlive'
    -- a call that deletes the end leaves nothing to show
    obtain ⟨live, hlive, ⟨live'', hkept⟩ | hdeleted⟩ := EndState.step_cases hs
    · rw [hkept.stays] at hlive'
      cases hlive'
      exact (ih live hlive).kept hkept
    · rw [hdeleted.gone] at hlive'
      cases hlive'

/-- When the end goes everything is accounted for but the cache, and the shared memory if others still
    need it. -/
theorem Books.deleted (h : Books i shm handed created tr s live) (hs : Deleted i s s' live e o) :
    Ledger.Settles (heldBy (descriptors handed + shm.owned)) (history created (tr ++ [(e, o)]))
      (ownedCache live.data.cache +
        heldBy (descriptors (takenIn (tr ++ [(e, o)])) + if s'.shm.refCnt = 0 then 0 else shm.owned)) ∧
      s'.shm.refCnt = shm.refCnt + refsIn (tr ++ [(e, o)]) := by
  have hlast : s'.shm.refCnt = 0 ↔ s.shm.refCnt = 1 := by
    rw [hs.refCnt]
    exact sub_eq_zero
  refine ⟨?_, ?_⟩
  · have hmoves := hs.moves.frame (heldBy (descriptors (takenIn tr)))
    rw [h.shm] at hmoves
    have hall := (ledger_of_eq h.settles rfl (add_right_comm _ _ _)).append hmoves
    rw [history, ledgerOf_snoc, ← List.append_assoc]
    refine ledger_of_eq hall rfl ?_
    rw [takenIn_snoc, hs.taken, List.append_nil, heldBy_add, if_congr hlast rfl rfl]
    abel
  · rw [hs.refCnt, h.refCnt, refsIn_snoc, hs.refs]
    simp

/-- So the books balance if and only if there is no cache when the end goes. -/
theorem Books.balanced (h : Books i shm handed created tr s live) (hs : Deleted i s s' live e o) :
    Balanced shm handed created (tr ++ [(e, o)]) s' ↔ live.data.cache = none := by
  obtain ⟨hsettles, hrefCnt⟩ := h.deleted hs
  constructor
  · intro hbalanced
    -- a ledger has one balance, so a cache that is left would be in both
    have hcache := Ledger.Settles.unique hsettles hbalanced.settles
    cases hnone : live.data.cache with
    | none => rfl
    | some x =>
      rw [hnone] at hcache
      exact absurd (add_eq_right.mp hcache) (Multiset.singleton_ne_zero _)
  · intro hnone
    rw [hnone] at hsettles
    exact ⟨ledger_of_eq hsettles rfl (Multiset.zero_add _), hrefCnt⟩

/-- A call after which the end is gone has deleted it. -/
theorem EndState.step_deleted (hlive : s.live = some live) (hs : s.step i e = some (s', o))
    (hgone : s'.live = none) : Deleted i s s' live e o := by
  obtain ⟨live', hlive', ⟨live'', hkept⟩ | hdeleted⟩ := EndState.step_cases hs
  · rw [hkept.stays] at hgone
    cases hgone
  · rw [hlive] at hlive'
    cases hlive'
    exact hdeleted

/-- In every run up to the deletion of the end the books are balanced if and only if the message cache
    is off when the end is deleted. -/
theorem balanced_iff (h : EndMade os cls i attr shm shmOffset handed created s₀)
    (hr : (endMachine i s₀).Run Machine.always tr s) (hlive : s.live = some live)
    (hs : (endMachine i s₀).step s e = some (s', o)) (hgone : s'.live = none) :
    Balanced shm handed created (tr ++ [(e, o)]) s' ↔ live.data.cache = none :=
  (h.run_books hr live hlive).balanced (EndState.step_deleted hlive hs hgone)

end runs

/-- A page of shared memory to which the group has a reference. -/
def onePage : Shm := { refCnt := 1, mem := 4096, size := 4096, fd := 3 }

/-- Messages of four bytes, with an eventfd. -/
def fourBytes : ChannelAttr InfoPtr :=
  { msgSize := 4, addMsgs := 0, eventfd := true, info := { size := 0, data := none } }

/-- The cache is switched on twice and off before the group gives up the producer; the user has taken the
    eventfd, descriptor 5. -/
theorem balanced_after_disable :
    ∃ (s₀ : EndState Nat) (created : List Event) (tr : List (EndCall Nat × EndOutcome))
      (s s' : EndState Nat) (o : EndOutcome),
      EndMade (Os.granting 4096) 64 0 fourBytes onePage 0 [] created s₀ ∧
      (endMachine 0 s₀).Run Machine.always tr s ∧ takenIn tr = [5, -1] ∧
      s.step 0 .groupRelease = some (s', o) ∧ s'.live.isNone = true ∧
      Balanced onePage [] created (tr ++ [(.groupRelease, o)]) s' := by
  obtain ⟨s₀, created, tr, s, hmade, hr, h⟩ := EndState.exists_run (Os.granting 4096) 64 0 fourBytes
    onePage 0
    [.cacheEnable true fun _ => 7, .cacheEnable true fun _ => 8, .push .forcePush fun _ o =>
        (o.exec { queue := { tail := 0, head := 0, chain := fun _ => 0 }, msgs := fun _ => 0, eventfd := 0 }).1,
      .takeEventfd, .acquire, .takeEventfd, .others 1, .release, .cacheDisable fun _ => 9]
    (fun _ tr s => s.live.any fun (live : LiveEnd Nat) =>
      (endMachine 0 s).leadsTo s .groupRelease fun s' _ => decide
        (takenIn tr = [5, -1] ∧ s'.live.isNone = true ∧ live.data.cache = none)) (by decide)
  rw [Option.any_eq_true] at h
  obtain ⟨live, hlive, h⟩ := h
  obtain ⟨s', o, hs, h⟩ := Machine.exists_step h
  obtain ⟨htaken, hgone, hcache⟩ := of_decide_eq_true h
  have hbalanced := balanced_iff (e := .groupRelease) hmade hr hlive hs
    (Option.isNone_iff_eq_none.mp hgone)
  exact ⟨s₀, created, tr, s, s', o, hmade, hr, htaken, hs, hgone, hbalanced.mpr hcache⟩

/-- The cache is switched on, and the group gives up the producer. -/
theorem cache_leaks :
    ∃ (s₀ : EndState Nat) (created : List Event) (tr : List (EndCall Nat × EndOutcome))
      (s s' : EndState Nat) (o : EndOutcome),
      EndMade (Os.granting 4096) 64 0 fourBytes onePage 0 [] created s₀ ∧
      (endMachine 0 s₀).Run Machine.always tr s ∧
      s.step 0 .groupRelease = some (s', o) ∧ s'.live.isNone = true ∧
      ¬ Balanced onePage [] created (tr ++ [(.groupRelease, o)]) s' := by
  obtain ⟨s₀, created, tr, s, hmade, hr, h⟩ := EndState.exists_run (Os.granting 4096) 64 0 fourBytes
    onePage 0 [.cacheEnable true fun _ => 7]
    (fun _ _ s => s.live.any fun (live : LiveEnd Nat) =>
      (endMachine 0 s).leadsTo s .groupRelease fun s' _ => decide
        (s'.live.isNone = true ∧ live.data.cache ≠ none)) (by decide)
  rw [Option.any_eq_true] at h
  obtain ⟨live, hlive, h⟩ := h
  obtain ⟨s', o, hs, h⟩ := Machine.exists_step h
  obtain ⟨hgone, hcache⟩ := of_decide_eq_true h
  have hdeleted := EndState.step_deleted (i := 0) (e := .groupRelease) hlive hs
    (Option.isNone_iff_eq_none.mp hgone)
  exact ⟨s₀, created, tr, s, s', o, hmade, hr, hs, hgone,
    fun hbalanced => hcache (((hmade.run_books hr live hlive).balanced hdeleted).mp hbalanced)⟩

end Rtipc
