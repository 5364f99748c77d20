/-
  A memory of bytes.

  `load` and `store` copy bytes out of a memory and into it, `loadWord` and `storeWord` a word of 32
  bits.  What has been stored is loaded again (`load_store`), and bytes of a region apart stay as they
  are (`Memory.Same.load`, `Memory.same_store`).
-/
import Rtipc.Lib.Bytes
import Rtipc.Lib.Region

namespace Rtipc

/-- A byte for each address. -/
abbrev Memory := Nat → Byte

namespace Memory

/-- The `len` bytes from `a` on. -/
def load (mem : Memory) (a len : Nat) : List Byte := (List.range len).map fun j => mem (a + j)

/-- The memory with the bytes `bs` from `a` on. -/
def store (mem : Memory) (a : Nat) (bs : List Byte) : Memory := fun x =>
  if a ≤ x ∧ x < a + bs.length then bs.getD (x - a) 0 else mem x

/-- The word whose low byte is at `a`. -/
def loadWord (mem : Memory) (a : Nat) : BitVec 32 := BitVec.ofNat 32 (ofBytes (mem.load a 4))

/-- The memory after a word has been stored at `a`, the lowest byte first. -/
def storeWord (mem : Memory) (a : Nat) (w : BitVec 32) : Memory := mem.store a (toBytes 4 w.toNat)

/-- The two have the same bytes, but perhaps in `r`. -/
def Same (r : Region) (mem mem' : Memory) : Prop := ∀ x, x ∉ r → mem' x = mem x

variable {mem mem' mem'' : Memory} {r s : Region} {a b len : Nat} {bs : List Byte}

/-- A memory is the same as itself outside of any region. -/
theorem Same.refl (r : Region) (mem : Memory) : Same r mem mem := fun _ _ => rfl

/-- Two changes in a region are a change in it. -/
theorem Same.trans (h : Same r mem mem') (h' : Same r mem' mem'') : Same r mem mem'' :=
  fun x hx => (h' x hx).trans (h x hx)

/-- A change in a part is a change in the whole. -/
theorem Same.within (h : Same r mem mem') (hr : r.Within s) : Same s mem mem' :=
  fun x hx => h x fun hx' => hx (hr.mem hx')

/-- Storing bytes changes no others. -/
theorem same_store (mem : Memory) (a : Nat) (bs : List Byte) :
    Same ⟨a, bs.length⟩ mem (mem.store a bs) := fun _ hx => if_neg hx

/-- Storing a word changes its four bytes at most. -/
theorem same_storeWord (mem : Memory) (a : Nat) (w : BitVec 32) :
    Same ⟨a, 4⟩ mem (mem.storeWord a w) := by
  have h := same_store mem a (toBytes 4 w.toNat)
  rwa [length_toBytes] at h

/-- A change elsewhere is not seen. -/
theorem Same.load (h : Same r mem mem') (hapart : r.Apart ⟨a, len⟩) :
    mem'.load a len = mem.load a len := by
  refine List.map_congr_left fun j hj => h _ fun hmem => hapart _ hmem ⟨Nat.le_add_right _ _, ?_⟩
  exact Nat.add_lt_add_left (List.mem_range.mp hj) a

/-- A word apart from the change is loaded as before. -/
theorem Same.loadWord (h : Same r mem mem') (hapart : r.Apart ⟨a, 4⟩) :
    mem'.loadWord a = mem.loadWord a := by
  rw [Memory.loadWord, Memory.loadWord, h.load hapart]

/-- What has been stored is loaded. -/
theorem load_store (mem : Memory) (a : Nat) (bs : List Byte) :
    (mem.store a bs).load a bs.length = bs := by
  refine List.ext_getElem (by rw [load, List.length_map, List.length_range]) fun j hj hj' => ?_
  have hin : a ≤ a + j ∧ a + j < a + bs.length := ⟨Nat.le_add_right _ _, Nat.add_lt_add_left hj' a⟩
  simp only [load, store, List.getElem_map, List.getElem_range, if_pos hin, Nat.add_sub_cancel_left,
    List.getD_eq_getElem?_getD, List.getElem?_eq_getElem hj', Option.getD_some]

/-- A word that has been stored is loaded again. -/
theorem loadWord_storeWord (mem : Memory) (a : Nat) (w : BitVec 32) :
    (mem.storeWord a w).loadWord a = w := by
  have hload := load_store mem a (toBytes 4 w.toNat)
  rw [length_toBytes] at hload
  rw [loadWord, storeWord, hload, ofBytes_toBytes_of_lt w.isLt, BitVec.ofNat_toNat,
    BitVec.setWidth_eq]

end Memory

end Rtipc
