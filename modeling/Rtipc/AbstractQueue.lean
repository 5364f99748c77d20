/-
  The queue as the application sees it.

  `boundedQueue` is the sequential object the two sides share: the list of unread messages, the
  message the consumer holds and a flag that messages were discarded since the last pop.  Its capacity
  counts the held message.

  `QueueState.observe` is what the application sees of a run of the code: the calls with the message
  in the current slot, and the returns, a successful pop with the message in the slot it hands out.

  The rules of the bounded queue, which are those of `rtipc.h`:

  * `try_push` and `force_push` append if fewer than the capacity are in the queue; in a full queue the
    first says FAIL and changes nothing, the second drops the oldest unread message and says DISCARDED;

  * `pop` takes the oldest unread message.  It says DISCARDED if messages were dropped since the pop
    before, SUCCESS otherwise; with nothing unread it says NO_UPDATE, or NO_MSG if nothing was ever
    taken; the message held before is given up with the next successful pop.

  What the code does in several atomic operations is one transition here.  That the code refines it is
  the subject of the modules on delivery and linearization; here only the object itself is defined, and
  what its histories look like.
-/
import Rtipc.Lib.Linearizability
import Rtipc.QueueSystem

namespace Rtipc

/-- The state of the queue, for messages of type `β`. -/
structure BoundedQueue (β : Type) where
  unread : List β
  held : Option β
  gap : Bool
  deriving DecidableEq, Repr

/-- The two sides. -/
inductive Side where
  | producer
  | consumer
  deriving DecidableEq, Repr

/-- What an application asks of the queue. -/
inductive QueueCall (β : Type) where
  | push (op : PushOp) (x : β)
  | pop
  deriving DecidableEq, Repr

/-- What it is answered, with the message that is handed out. -/
inductive QueueReply (β : Type) where
  | pushed (r : PushResult)
  | popped (r : PopResult) (x : Option β)
  deriving DecidableEq, Repr

namespace BoundedQueue

variable {β : Type}

/-- The number of messages in the queue, the held one included. -/
def size (q : BoundedQueue β) : Nat := q.unread.length + q.held.toList.length

/-- A push: a full queue refuses it, or loses its oldest message. -/
def push (cap : Nat) (q : BoundedQueue β) (op : PushOp) (x : β) :
    BoundedQueue β × QueueReply β :=
  if q.size < cap then
    ({ q with unread := q.unread ++ [x] }, .pushed op.success)
  else match op with
    | .tryPush => (q, .pushed (.tryPush .fail))
    | .forcePush =>
      ({ q with unread := q.unread.tail ++ [x], gap := true }, .pushed (.forcePush .discarded))

/-- A pop hands out the oldest unread message. -/
def pop (q : BoundedQueue β) : BoundedQueue β × QueueReply β :=
  match q.unread with
  | x :: rest =>
    ({ unread := rest, held := some x, gap := false },
      .popped (if q.gap then .discarded else .success) (some x))
  | [] => (q, .popped (if q.held.isSome then .noUpdate else .noMsg) none)

variable {cap : Nat} {q : BoundedQueue β} {op : PushOp} {x : β}

/-- With room both pushes append. -/
theorem push_room (h : q.size < cap) :
    q.push cap op x = ({ q with unread := q.unread ++ [x] }, .pushed op.success) := if_pos h

/-- A full queue refuses a `try_push`. -/
theorem tryPush_full (h : ¬ q.size < cap) :
    q.push cap .tryPush x = (q, .pushed (.tryPush .fail)) := if_neg h

/-- A `force_push` into a full queue loses the oldest unread message and leaves a gap. -/
theorem forcePush_full (h : ¬ q.size < cap) :
    q.push cap .forcePush x = ({ q with unread := q.unread.tail ++ [x], gap := true },
      .pushed (.forcePush .discarded)) := if_neg h

/-- A pop takes the first unread message, and says whether there was a gap in front of it. -/
theorem pop_cons {rest : List β} (h : q.unread = x :: rest) :
    q.pop = ({ unread := rest, held := some x, gap := false },
      .popped (if q.gap then .discarded else .success) (some x)) := by
  rw [pop, h]

/-- Without an unread message the consumer keeps what it holds. -/
theorem pop_nil (h : q.unread = []) :
    q.pop = (q, .popped (if q.held.isSome then .noUpdate else .noMsg) none) := by
  rw [pop, h]

end BoundedQueue

/-- The queue of capacity `cap` as a sequential object. -/
def boundedQueue (β : Type) (cap : Nat) :
    SeqObject (BoundedQueue β) (QueueCall β) (QueueReply β) where
  init := { unread := [], held := none, gap := false }
  apply q
    | .push op x => q.push cap op x
    | .pop => q.pop

/-- The events of a history of the queue. -/
abbrev QueueHistoryEvent (β : Type) : Type := HistoryEvent Side (QueueCall β) (QueueReply β)

/-- The message in the slot of `ri_consumer_queue_msg`, if the result hands one out. -/
def QueueState.delivered {β : Type} (s : QueueState β) (r : PopResult) : Option β :=
  match s.cons with
  | .idle c => if r.isTaken then c.msg.map s.msgs else none
  | .busy _ _ => none

/-- What the application sees of a step from `s` to `s'`. -/
def QueueState.observe {β : Type} (s : QueueState β) (e : QueueEvent β) (s' : QueueState β)
    (o : QueueOutcome) : List (QueueHistoryEvent β) :=
  match e with
  | .push op => match s.prod with
    | .idle p => [.invoke .producer (.push op (s.msgs p.current))]
    | .busy _ _ => []
  | .pop _ => [.invoke .consumer .pop]
  | .prodStep => match o with
    | .pushed r => [.respond .producer (.pushed r)]
    | _ => []
  | .consStep => match o with
    | .popped r => [.respond .consumer (.popped r (s'.delivered r))]
    | _ => []
  | .write _ => []

/-! ## Concrete runs -/

/-- The events `es`, as in `QueueState.play`, with the history. -/
def QueueState.watch {β : Type} (nMsgs : Nat) (x : β) (ok : QueueState β → QueueEvent β → Prop)
    [∀ s e, Decidable (ok s e)] (es : List (QueueEvent β)) :
    Option (List (QueueHistoryEvent β) × QueueState β) :=
  (QueueState.zeroed nMsgs x).bind fun s =>
    (queueSystem β nMsgs).record ok QueueState.observe es ([], s)

/-- A run on fixed inputs is found by evaluation. -/
theorem QueueState.exists_observed {β : Type} (nMsgs : Nat) (x : β)
    (ok : QueueState β → QueueEvent β → Prop) [∀ s e, Decidable (ok s e)]
    (es : List (QueueEvent β)) (q : List (QueueHistoryEvent β) → QueueState β → Bool)
    (h : (QueueState.watch nMsgs x ok es).any (fun hs => q hs.1 hs.2) = true) :
    ∃ h s, (queueSystem β nMsgs).Observed ok QueueState.observe h s ∧ q h s = true := by
  cases hwatch : QueueState.watch nMsgs x ok es with
  | none =>
    rw [hwatch] at h
    cases h
  | some hs =>
    rw [hwatch] at h
    obtain ⟨s, hcreate, hrec⟩ := Option.bind_eq_some_iff.mp hwatch
    have hinit : (queueSystem β nMsgs).init s := ⟨_, _, _, hcreate⟩
    exact ⟨hs.1, hs.2, (Machine.Observed.init hinit).record hrec, h⟩

end Rtipc
