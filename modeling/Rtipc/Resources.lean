/-
  What a call acquires and releases: blocks of memory, the mapping of the shared memory, and
  descriptors.

  A block is named by the place in the code that asks for it.  A call passes each such place at most
  once, so the name stands for one block.
-/
import Rtipc.Lib.Ledger
import Rtipc.Lib.Region
import Rtipc.MemUtils
import Mathlib.Data.List.Count

namespace Rtipc

/-- The two kinds of ends of a channel. -/
inductive Role where
  | consumer
  | producer
  deriving DecidableEq, Repr

/-- The blocks of a group: itself, its group data, the arrays of pointers, the shared memory object,
    and for each channel the end and its queue. -/
inductive Block where
  | group
  | table (role : Role)
  | infos
  | array (role : Role)
  | shm
  | channel (role : Role) (i : Nat)
  | queue (role : Role) (i : Nat)
  deriving DecidableEq, Repr

/-- What a call can hold. -/
inductive Resource where
  | block (b : Block)
  | mapping
  | descriptor (fd : Int)
  deriving DecidableEq, Repr

/-- What a call does with resources, where it copies infos to, and what it stores in the shared memory. -/
inductive Event where
  | acquire (r : Resource)
  | release (r : Resource)
  /-- an info is copied to these bytes of `mem_infos` -/
  | copy (bytes : Region)
  /-- an info is copied over the `ri_info_t` number `n` of the group data -/
  | overwrite (n : Nat)
  /-- `value` is stored in the word of the shared memory at `address` -/
  | store (address : Size) (value : Unsigned)
  deriving DecidableEq, Repr

/-- The bytes of `mem_infos` into which infos are copied. -/
def Event.copied : Event → Option Region
  | copy bytes => some bytes
  | _ => none

/-- Words that are stored in the shared memory, one after the other. -/
def stored (words : List (Size × Unsigned)) : List Event := words.map fun w => .store w.1 w.2

/-- `calloc` and `malloc` of a block for a pointer, if it is not null. -/
def acquired {α : Type} (b : Block) (ptr : Option α) : List Event :=
  match ptr with
  | none => []
  | some _ => [.acquire (.block b)]

/-- `free` of the block of a pointer, if it is not null. -/
def freed {α : Type} (b : Block) (ptr : Option α) : List Event :=
  match ptr with
  | none => []
  | some _ => [.release (.block b)]

/-- What a pointer leads to does not matter when its block is freed. -/
@[simp] theorem freed_map {α β : Type} (b : Block) (f : α → β) (ptr : Option α) :
    freed b (ptr.map f) = freed b ptr := by
  cases ptr <;> rfl

/-- The places of copies are the places that were copied to. -/
@[simp] theorem filterMap_copied_map (regions : List Region) :
    (regions.map Event.copy).filterMap Event.copied = regions := by
  rw [List.filterMap_map]
  exact List.filterMap_some

/-! ## The ledger -/

/-- What an event does to the ledger. -/
def Event.move : Event → Option (Move Resource)
  | acquire r => some (.acquire r)
  | release r => some (.release r)
  | copy _ => none
  | overwrite _ => none
  | store _ _ => none

/-- The events lead from the resources `pre` to the resources `post`, and release nothing that is not
    held. -/
def Settles (events : List Event) (pre post : Multiset Resource) : Prop :=
  Ledger.Settles pre (events.filterMap Event.move) post

section settles

variable {pre mid post : Multiset Resource} {events events' : List Event} {r : Resource}

/-- No event, no change. -/
theorem Settles.nil : Settles [] pre pre := Ledger.Settles.nil

/-- Events in sequence, over what is held in between. -/
theorem settles_append :
    Settles (events ++ events') pre post ↔ ∃ mid, Settles events pre mid ∧ Settles events' mid post := by
  rw [Settles, List.filterMap_append]
  exact Ledger.settles_append

/-- Events in sequence. -/
theorem Settles.append (h : Settles events pre mid) (h' : Settles events' mid post) :
    Settles (events ++ events') pre post := settles_append.mpr ⟨mid, h, h'⟩

/-- Events do not touch what else is held. -/
theorem Settles.frame (h : Settles events pre post) (frame : Multiset Resource) :
    Settles events (pre + frame) (post + frame) := Ledger.Settles.frame h frame

/-- What is held after the events is determined. -/
theorem Settles.unique {post' : Multiset Resource} (h : Settles events pre post)
    (h' : Settles events pre post') : post = post' := Ledger.Settles.unique h h'

/-- One resource more. -/
theorem Settles.acquire (r : Resource) : Settles [.acquire r] pre (pre + {r}) :=
  Ledger.Settles.acquire r

/-- One resource less. -/
theorem Settles.release (r : Resource) : Settles [.release r] (pre + {r}) pre :=
  Ledger.Settles.release r

/-- Two parts that work on different resources. -/
theorem Settles.append_add {a b c d : Multiset Resource} (h : Settles events a b)
    (h' : Settles events' c d) : Settles (events ++ events') (a + c) (b + d) := by
  have hframed := h'.frame b
  rw [Multiset.add_comm c, Multiset.add_comm d] at hframed
  exact (h.frame c).append hframed

/-- Copies of infos change nothing. -/
theorem settles_copies (regions : List Region) : Settles (regions.map .copy) pre pre := by
  rw [Settles, List.filterMap_map]
  rw [show Event.move ∘ Event.copy = fun _ => none from rfl, List.filterMap_none]
  exact Ledger.Settles.nil

/-- Stores in the shared memory acquire and release nothing. -/
theorem settles_stored (words : List (Size × Unsigned)) : Settles (stored words) pre pre := by
  rw [Settles, stored, List.filterMap_map,
    show (Event.move ∘ fun w : Size × Unsigned => .store w.1 w.2) = fun _ => none from rfl,
    List.filterMap_none]
  exact Ledger.Settles.nil

/-- What is released and what is left say what was held. -/
theorem Settles.injective {pre' : Multiset Resource} (h : Settles events pre post)
    (h' : Settles events pre' post) : pre = pre' := by
  refine Multiset.ext.mpr fun r => ?_
  have hcount := Ledger.Settles.count h r
  have hcount' := Ledger.Settles.count h' r
  omega

/-- The same between resources that are written otherwise. -/
theorem Settles.of_eq {pre' post' : Multiset Resource} (h : Settles events pre post) (hpre : pre = pre')
    (hpost : post = post') : Settles events pre' post' := hpre ▸ hpost ▸ h

end settles

/-- The block of a pointer, if it is not null. -/
def ownedPtr {α : Type} (b : Block) : Option α → Multiset Resource
  | none => 0
  | some _ => {.block b}

/-- A block that was granted is held. -/
theorem settles_acquired {α : Type} (b : Block) (ptr : Option α) :
    Settles (acquired b ptr) 0 (ownedPtr b ptr) := by
  cases ptr with
  | none => exact Settles.nil
  | some a => exact (Settles.acquire _).of_eq rfl (Multiset.zero_add _)

/-- A block that was granted is freed. -/
theorem settles_freed {α : Type} (b : Block) (ptr : Option α) :
    Settles (freed b ptr) (ownedPtr b ptr) 0 := by
  cases ptr with
  | none => exact Settles.nil
  | some a => exact (Settles.release _).of_eq (Multiset.zero_add _) rfl

end Rtipc
