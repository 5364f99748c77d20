/-
  Bytes in memory.

  `toBytes k n` are the `k` bytes of the number `n`, the least significant first, and `ofBytes` is the
  number that bytes stand for.  `readAt` and `writeAt` copy a range of elements out of a list and into
  it, as `memcpy` does with memory.
-/
import Mathlib.Data.Nat.Digits.Defs
import Mathlib.Data.BitVec

namespace Rtipc

/-- A byte. -/
abbrev Byte := BitVec 8

/-! ## Numbers -/

/-- The number the bytes stand for. -/
def ofBytes (bs : List Byte) : Nat := Nat.ofDigits 256 (bs.map BitVec.toNat)

/-- The `k` low bytes of `n`. -/
def toBytes : Nat → Nat → List Byte
  | 0, _ => []
  | k + 1, n => BitVec.ofNat 8 n :: toBytes k (n / 256)

/-- There are as many bytes as asked for. -/
@[simp] theorem length_toBytes (k n : Nat) : (toBytes k n).length = k := by
  induction k generalizing n with
  | zero => rfl
  | succ k ih => rw [toBytes, List.length_cons, ih]

/-- Only what fits into the bytes comes back. -/
theorem ofBytes_toBytes (k n : Nat) : ofBytes (toBytes k n) = n % 256 ^ k := by
  induction k generalizing n with
  | zero => simp [toBytes, ofBytes, Nat.mod_one]
  | succ k ih =>
    have hcons : ofBytes (toBytes (k + 1) n) = n % 256 + 256 * ofBytes (toBytes k (n / 256)) := by
      simp only [ofBytes, toBytes, List.map_cons, Nat.ofDigits_cons, BitVec.toNat_ofNat]
    rw [hcons, ih, Nat.pow_succ', Nat.mod_mul]

/-- A number that fits comes back. -/
theorem ofBytes_toBytes_of_lt {k n : Nat} (h : n < 256 ^ k) : ofBytes (toBytes k n) = n := by
  rw [ofBytes_toBytes, Nat.mod_eq_of_lt h]

/-! ## Ranges -/

section ranges

variable {α : Type}

/-- The `len` elements from `off` on. -/
def readAt (l : List α) (off len : Nat) : List α := (l.drop off).take len

/-- The list with `src` in place of the elements from `off` on. -/
def writeAt (l : List α) (off : Nat) (src : List α) : List α :=
  l.take off ++ src ++ l.drop (off + src.length)

variable {l src : List α} {off len : Nat}

/-- Reading inside the list gives as many bytes as asked for. -/
theorem length_readAt (h : off + len ≤ l.length) : (readAt l off len).length = len := by
  rw [readAt, List.length_take, List.length_drop]
  omega

/-- Writing inside the list does not change its length. -/
theorem length_writeAt (h : off + src.length ≤ l.length) :
    (writeAt l off src).length = l.length := by
  rw [writeAt, List.length_append, List.length_append, List.length_take, List.length_drop]
  omega

/-- What has been written is read. -/
theorem readAt_writeAt (h : off ≤ l.length) : readAt (writeAt l off src) off src.length = src := by
  have htake : (l.take off).length = off := by
    rw [List.length_take]
    omega
  rw [readAt, writeAt, List.append_assoc, List.drop_left' htake, List.take_left]

/-- Nothing in front of it is changed. -/
theorem readAt_writeAt_of_le {off' : Nat} (h : off ≤ l.length) (hle : off' + len ≤ off) :
    readAt (writeAt l off src) off' len = readAt l off' len := by
  have htake : (l.take off).length = off := by
    rw [List.length_take]
    omega
  rw [readAt, readAt, writeAt, List.append_assoc, List.drop_append_of_le_length (by omega),
    List.take_append_of_le_length (by rw [List.length_drop]; omega), List.drop_take, List.take_take]
  congr 1
  omega

/-- What is in front of the written bytes stays. -/
theorem take_writeAt_of_le {k : Nat} (h : off ≤ l.length) (hle : k ≤ off) :
    (writeAt l off src).take k = l.take k := by
  have htake : (l.take off).length = off := by
    rw [List.length_take]
    omega
  rw [writeAt, List.append_assoc, List.take_append_of_le_length (by omega), List.take_take,
    Nat.min_eq_left hle]

/-- Nothing behind it is changed. -/
theorem drop_writeAt {stop : Nat} (h : off ≤ l.length) (hle : off + src.length ≤ stop) :
    (writeAt l off src).drop stop = l.drop stop := by
  have hlen : (l.take off ++ src).length = off + src.length := by
    rw [List.length_append, List.length_take, Nat.min_eq_left h]
  rw [writeAt, List.drop_append, List.drop_eq_nil_of_le (by omega), List.nil_append, hlen,
    List.drop_drop]
  congr 1
  omega

/-- To write in the middle. -/
theorem writeAt_append (a b : List α) (src : List α) :
    writeAt (a ++ b) a.length src = a ++ src ++ b.drop src.length := by
  rw [writeAt, List.take_left, List.drop_append, List.append_assoc, List.append_assoc]
  congr 2
  rw [List.drop_eq_nil_of_le (by omega), List.nil_append]
  congr 1
  omega

end ranges

end Rtipc
