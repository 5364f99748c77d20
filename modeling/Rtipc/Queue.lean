/-
  `src/queue.h`: the words two processes share, and the atomic operations on them.

  A queue has a tail word, a head word and one chain word for each slot.  Every access goes through
  one of the inline functions of `queue.h`, each of which is a single C11 atomic operation; they are
  the operations `QueueOp`, and the code of `producer.c` and `consumer.c` is a `QueueProg` over them.
  `QueueOp.exec` is what an operation does when it is one sequentially consistent step.

  A `QueueMem` has the words only.  Where `ri_queue_init` puts them, and that some of them can lie under
  a message, is in `Layout`.
-/
import Mathlib.Logic.Function.Basic
import Rtipc.Index
import Rtipc.Lib.Prog

namespace Rtipc

/-- The shared index words of `ri_queue_t`. -/
structure QueueMem where
  tail : Index
  head : Index
  chain : Index → Index

/-- The atomic accesses of `queue.h`. -/
inductive QueueOp where
  | tailLoad
  | tailStore (val : Index)
  | tailFetchOr (val : Index)
  | tailCompareExchange (expected desired : Index)
  | headLoad
  | headStore (val : Index)
  | chainLoad (idx : Index)
  | chainStore (idx val : Index)
  deriving DecidableEq, Repr

/-- What an access answers. -/
abbrev QueueOp.Ans : QueueOp → Type
  | tailLoad => Index
  | tailStore _ => Unit
  | tailFetchOr _ => Index
  | tailCompareExchange _ _ => Bool
  | headLoad => Index
  | headStore _ => Unit
  | chainLoad _ => Index
  | chainStore _ _ => Unit

/-- One sequentially consistent step on the shared words. -/
def QueueOp.exec : (o : QueueOp) → QueueMem → o.Ans × QueueMem
  | tailLoad, m => (m.tail, m)
  | tailStore val, m => ((), { m with tail := val })
  | tailFetchOr val, m => (m.tail, { m with tail := m.tail ||| val })
  | tailCompareExchange expected desired, m =>
      if m.tail = expected then (true, { m with tail := desired }) else (false, m)
  | headLoad, m => (m.head, m)
  | headStore val, m => ((), { m with head := val })
  | chainLoad idx, m => (m.chain idx, m)
  | chainStore idx val, m => ((), { m with chain := Function.update m.chain idx val })

/-- The access stays within a queue of `n` slots. -/
def QueueOp.InBounds (n : Nat) : QueueOp → Prop
  | chainLoad idx => idx.toNat < n
  | chainStore idx _ => idx.toNat < n
  | _ => True

/-- Code that reaches the shared words through `queue.h` only. -/
abbrev QueueProg (α : Type) : Type := Prog QueueOp QueueOp.Ans α

/-- `ri_queue_index_valid`. -/
abbrev queueIndexValid (nMsgs : Nat) (idx : Index) : Prop := idx.toNat < nMsgs

/-- `ri_queue_get_msg`: the slot a message pointer is taken from, `none` for the null pointer. -/
def queueGetMsg (nMsgs : Nat) (idx : Index) : Option Index :=
  if idx.toNat < nMsgs then some idx else none

theorem queueGetMsg_of_lt {nMsgs : Nat} {idx : Index} (h : idx.toNat < nMsgs) :
    queueGetMsg nMsgs idx = some idx := if_pos h

theorem queueGetMsg_eq_some {nMsgs : Nat} {idx i : Index} (h : queueGetMsg nMsgs idx = some i) :
    i = idx ∧ idx.toNat < nMsgs := by
  unfold queueGetMsg at h
  split at h
  · exact ⟨(Option.some.inj h).symm, by assumption⟩
  · cases h

/-! ## The inline functions of `queue.h`

  One definition for each, with the atomic operation it consists of. -/

/-- `ri_queue_tail_load`. -/
abbrev queueTailLoad : QueueProg Index := .perform QueueOp.tailLoad

/-- `ri_queue_tail_store`. -/
abbrev queueTailStore (val : Index) : QueueProg Unit := .perform (QueueOp.tailStore val)

/-- `ri_queue_tail_fetch_or`. -/
abbrev queueTailFetchOr (val : Index) : QueueProg Index := .perform (QueueOp.tailFetchOr val)

/-- `ri_queue_tail_compare_exchange`. -/
abbrev queueTailCompareExchange (expected desired : Index) : QueueProg Bool :=
  .perform (QueueOp.tailCompareExchange expected desired)

/-- `ri_queue_head_load`. -/
abbrev queueHeadLoad : QueueProg Index := .perform QueueOp.headLoad

/-- `ri_queue_head_store`. -/
abbrev queueHeadStore (val : Index) : QueueProg Unit := .perform (QueueOp.headStore val)

/-- `ri_queue_chain_load`. -/
abbrev queueChainLoad (idx : Index) : QueueProg Index := .perform (QueueOp.chainLoad idx)

/-- `ri_queue_chain_store`. -/
abbrev queueChainStore (idx val : Index) : QueueProg Unit := .perform (QueueOp.chainStore idx val)

/-- `ri_queue_init_shm`. -/
def queueInitShm : QueueProg Unit := do
  queueTailStore indexInvalid
  queueHeadStore indexInvalid

end Rtipc
