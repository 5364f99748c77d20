/-
  `src/index.h`: the 32-bit words of the queue.

  A word of the shared queue holds a slot index in its low 30 bits and two flags above it.  Bit 31
  (`RI_CONSUMED_FLAG`, also `RI_ORIGIN_MASK`) says that the consumer has taken the slot the tail
  names, bit 30 (`RI_FIRST_FLAG`) that the tail still is the very first message.  All bits set is
  `RI_INDEX_INVALID`.  A word is determined by its three parts (`Index.ext`), so the proofs about
  the queue never look at single bits.
-/
import Mathlib.Data.BitVec

namespace Rtipc

/-- `ri_index_t`: an `unsigned int`. -/
abbrev Index := BitVec 32

/-- `RI_INDEX_INVALID`, which is `UINT_MAX`. -/
def indexInvalid : Index := 0xFFFFFFFF#32

/-- `RI_CONSUMED_FLAG`, which is `UINT_MAX - UINT_MAX / 2`. -/
def consumedFlag : Index := indexInvalid - indexInvalid / 2#32

/-- `RI_FIRST_FLAG`, which is `RI_CONSUMED_FLAG >> 1`. -/
def firstFlag : Index := consumedFlag >>> 1

/-- `RI_ORIGIN_MASK`. -/
def originMask : Index := consumedFlag

/-- `RI_INDEX_MASK`, which is `~(RI_ORIGIN_MASK | RI_FIRST_FLAG)`. -/
def indexMask : Index := ~~~(originMask ||| firstFlag)

namespace Index

/-- The slot index in a word: `w & RI_INDEX_MASK`. -/
def slot (w : Index) : Index := w &&& indexMask

/-- The test `w & RI_CONSUMED_FLAG`. -/
def consumed (w : Index) : Bool := w &&& consumedFlag != 0#32

/-- The test `w & RI_FIRST_FLAG`. -/
def first (w : Index) : Bool := w &&& firstFlag != 0#32

/-! ## The bits of the constants -/

/-- Bit 31 only. -/
theorem getElem_consumedFlag : ∀ (i : Nat) (h : i < 32), consumedFlag[i] = decide (i = 31) := by
  decide

/-- Bit 30 only. -/
theorem getElem_firstFlag : ∀ (i : Nat) (h : i < 32), firstFlag[i] = decide (i = 30) := by
  decide

/-- The bits below them. -/
theorem getElem_indexMask : ∀ (i : Nat) (h : i < 32), indexMask[i] = decide (i < 30) := by
  decide

/-- The consumed flag of a word as a bit. -/
theorem consumed_eq (w : Index) : consumed w = w[31] := by
  have h : w &&& consumedFlag = if w[31] then consumedFlag else 0#32 := by
    ext i hi
    rw [BitVec.getElem_and, getElem_consumedFlag]
    by_cases hi31 : i = 31
    · subst hi31; cases w[31] <;> simp [getElem_consumedFlag]
    · cases w[31] <;> simp [hi31, getElem_consumedFlag]
  rw [consumed, h]
  cases w[31] <;> decide

/-- The first flag of a word as a bit. -/
theorem first_eq (w : Index) : first w = w[30] := by
  have h : w &&& firstFlag = if w[30] then firstFlag else 0#32 := by
    ext i hi
    rw [BitVec.getElem_and, getElem_firstFlag]
    by_cases hi30 : i = 30
    · subst hi30; cases w[30] <;> simp [getElem_firstFlag]
    · cases w[30] <;> simp [hi30, getElem_firstFlag]
  rw [first, h]
  cases w[30] <;> decide

/-- The slot of a word bit by bit. -/
theorem getElem_slot (w : Index) (i : Nat) (h : i < 32) :
    (slot w)[i] = (w[i] && decide (i < 30)) := by
  rw [slot, BitVec.getElem_and, getElem_indexMask]

/-! ## A word is its slot and its two flags

  The three parts of a word are bit masks in the code.  Here they are tied to numbers: a slot below
  2³⁰ has neither flag, and the masks undo each other. -/

/-- A word is its slot and its two flags. -/
theorem ext {a b : Index} (hs : slot a = slot b) (hc : consumed a = consumed b)
    (hf : first a = first b) : a = b := by
  rw [consumed_eq, consumed_eq] at hc
  rw [first_eq, first_eq] at hf
  ext i hi
  by_cases h30 : i < 30
  · have := congrArg (fun w : Index => w[i]) hs
    simpa [getElem_slot, h30] using this
  · rcases (by omega : i = 30 ∨ i = 31) with rfl | rfl
    · exact hf
    · exact hc

/-- Setting the consumed flag keeps the slot and the first flag. -/
@[simp] theorem slot_or_consumedFlag (w : Index) : slot (w ||| consumedFlag) = slot w := by
  ext i hi
  simp only [getElem_slot, BitVec.getElem_or, getElem_consumedFlag]
  by_cases h : i < 30
  · simp [show i ≠ 31 by omega]
  · simp [h]

@[simp] theorem consumed_or_consumedFlag (w : Index) : consumed (w ||| consumedFlag) = true := by
  simp [consumed_eq, getElem_consumedFlag]

@[simp] theorem first_or_consumedFlag (w : Index) : first (w ||| consumedFlag) = first w := by
  simp [first_eq, getElem_consumedFlag]

/-- Setting the first flag keeps the slot and the consumed flag. -/
@[simp] theorem slot_or_firstFlag (w : Index) : slot (w ||| firstFlag) = slot w := by
  ext i hi
  simp only [getElem_slot, BitVec.getElem_or, getElem_firstFlag]
  by_cases h : i < 30
  · simp [show i ≠ 30 by omega]
  · simp [h]

@[simp] theorem consumed_or_firstFlag (w : Index) : consumed (w ||| firstFlag) = consumed w := by
  simp [consumed_eq, getElem_firstFlag]

@[simp] theorem first_or_firstFlag (w : Index) : first (w ||| firstFlag) = true := by
  simp [first_eq, getElem_firstFlag]

/-- A word with the consumed flag set is unchanged by setting it again. -/
theorem or_consumedFlag_of_consumed {w : Index} (h : consumed w = true) :
    w ||| consumedFlag = w :=
  ext (by simp) (by simp [h]) (by simp)

/-- A slot has no flags. -/
@[simp] theorem slot_slot (w : Index) : slot (slot w) = slot w := by
  ext i hi
  simp [getElem_slot]

@[simp] theorem consumed_slot (w : Index) : consumed (slot w) = false := by
  simp [consumed_eq, getElem_slot]

@[simp] theorem first_slot (w : Index) : first (slot w) = false := by
  simp [first_eq, getElem_slot]

/-- A number below `2^30` has no flag set: an index fits beside the two flag bits. -/
theorem slot_of_lt {w : Index} (h : w.toNat < 2 ^ 30) : slot w = w := by
  ext i hi
  rw [getElem_slot]
  by_cases h30 : i < 30
  · simp [h30]
  · have : w[i] = false := by
      rw [BitVec.getElem_eq_testBit_toNat]
      exact Nat.testBit_lt_two_pow (lt_of_lt_of_le h (Nat.pow_le_pow_right (by omega) (by omega)))
    simp [h30, this]

/-- A slot of a queue has no flags. -/
theorem consumed_of_lt {w : Index} (h : w.toNat < 2 ^ 30) : consumed w = false := by
  rw [← slot_of_lt h]; simp

theorem first_of_lt {w : Index} (h : w.toNat < 2 ^ 30) : first w = false := by
  rw [← slot_of_lt h]; simp

/-! ## `RI_INDEX_INVALID`

  All bits set, the flags among them.  So a test for a flag alone does not tell it from a slot with
  this flag. -/

/-- The invalid index has both flags. -/
@[simp] theorem consumed_indexInvalid : consumed indexInvalid = true := by decide

@[simp] theorem first_indexInvalid : first indexInvalid = true := by decide

theorem toNat_indexInvalid : indexInvalid.toNat = 2 ^ 32 - 1 := by decide

/-- So it is no slot of a queue, -/
theorem ne_indexInvalid_of_lt {w : Index} (h : w.toNat < 2 ^ 30) : w ≠ indexInvalid := by
  rintro rfl
  rw [toNat_indexInvalid] at h
  omega

/-- and differs from any word without the flag. -/
theorem ne_indexInvalid_of_not_consumed {w : Index} (h : consumed w = false) :
    w ≠ indexInvalid := by
  rintro rfl
  simp at h

/-- "or CONSUMED_FLAG doesn't change INDEX_END" (comment in `ri_consumer_queue_flush`). -/
@[simp] theorem indexInvalid_or_consumedFlag : indexInvalid ||| consumedFlag = indexInvalid := by
  decide

end Index

end Rtipc
