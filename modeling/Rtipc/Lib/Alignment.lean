/-
  Rounding up to a multiple of an alignment.

  `alignUp a n` is the least multiple of `a` that is at least `n`.  On machine words it is computed as
  `(n + a - 1) & ~(a - 1)`, which is right if `a` is a power of two and the sum does not wrap
  (`toNat_alignWord`).
-/
import Mathlib.Data.BitVec
import Mathlib.Algebra.Order.Group.Nat

namespace Rtipc

/-- The least multiple of `a` from `n` on. -/
def alignUp (a n : Nat) : Nat := (n + a - 1) / a * a

section nat

variable {a m n : Nat}

/-- What is rounded up is a multiple. -/
theorem dvd_alignUp : a ∣ alignUp a n := Nat.dvd_mul_left _ _

/-- Rounding up does not make it smaller. -/
theorem le_alignUp (ha : 0 < a) : n ≤ alignUp a n := by
  have h := Nat.div_add_mod (n + a - 1) a
  have hlt := Nat.mod_lt (n + a - 1) ha
  rw [alignUp, Nat.mul_comm]
  omega

/-- It adds less than the alignment. -/
theorem alignUp_lt (ha : 0 < a) : alignUp a n < n + a := by
  have h := Nat.div_mul_le_self (n + a - 1) a
  rw [alignUp]
  omega

/-- It is the least one. -/
theorem alignUp_le (ha : 0 < a) (hn : n ≤ m) (hm : a ∣ m) : alignUp a n ≤ m := by
  obtain ⟨j, rfl⟩ := hm
  rw [alignUp, Nat.mul_comm]
  refine Nat.mul_le_mul_left a (Nat.le_of_lt_succ ((Nat.div_lt_iff_lt_mul ha).mpr ?_))
  rw [Nat.succ_mul, Nat.mul_comm]
  omega

/-- It keeps the order. -/
theorem alignUp_mono (ha : 0 < a) (h : n ≤ m) : alignUp a n ≤ alignUp a m :=
  alignUp_le ha (h.trans (le_alignUp ha)) dvd_alignUp

/-- A multiple stays as it is. -/
theorem alignUp_of_dvd (ha : 0 < a) (h : a ∣ n) : alignUp a n = n :=
  (alignUp_le ha le_rfl h).antisymm (le_alignUp ha)

/-- How much room rounding up leaves. -/
theorem le_alignUp_iff (ha : 0 < a) {j : Nat} (hj : 0 < j) :
    n + j ≤ alignUp a n ↔ n % a ≠ 0 ∧ n % a + j ≤ a := by
  have hdiv := Nat.div_add_mod n a
  have hlt := Nat.mod_lt n ha
  by_cases hzero : n % a = 0
  · rw [alignUp_of_dvd ha (Nat.dvd_of_mod_eq_zero hzero)]
    omega
  · have hup : alignUp a n = a * (n / a) + a := by
      refine (alignUp_le ha (by omega) ?_).antisymm ?_
      · exact ⟨n / a + 1, by rw [Nat.mul_add, Nat.mul_one]⟩
      · obtain ⟨i, hi⟩ := dvd_alignUp (a := a) (n := n)
        have hle := le_alignUp (n := n) ha
        rw [hi] at hle ⊢
        have hlt' : n / a < i := by
          by_contra hge
          have := Nat.mul_le_mul_left a (Nat.le_of_not_lt hge)
          omega
        calc a * (n / a) + a = a * (n / a + 1) := by rw [Nat.mul_add, Nat.mul_one]
          _ ≤ a * i := Nat.mul_le_mul_left a hlt'
    rw [hup]
    omega

end nat

section word

variable {w k : Nat}

/-- Clearing the low bits. -/
theorem toNat_and_not_mask {x mask : BitVec w} (hmask : mask.toNat = 2 ^ k - 1) :
    (x &&& ~~~mask).toNat = x.toNat / 2 ^ k * 2 ^ k := by
  refine Nat.eq_of_testBit_eq fun i => ?_
  rw [BitVec.testBit_toNat, BitVec.getLsbD_and, BitVec.getLsbD_not, ← BitVec.testBit_toNat mask, hmask,
    Nat.testBit_two_pow_sub_one, Nat.testBit_mul_two_pow, Nat.testBit_div_two_pow,
    ← BitVec.testBit_toNat x]
  by_cases hi : k ≤ i
  · by_cases hw : i < w
    · simp [hi, hw]
    · have hx : x.toNat.testBit i = false := by
        rw [BitVec.testBit_toNat]
        exact BitVec.getLsbD_of_ge x i (by omega)
      simp [hi, hx]
  · simp [hi]
    omega

/-- The rounding of machine words. -/
def alignWord (x a : BitVec w) : BitVec w := (x + a - 1) &&& ~~~(a - 1)

/-- In words of `w` bits, if the sum with the alignment does not wrap around. -/
theorem toNat_alignWord {x a : BitVec w} (ha : a.toNat = 2 ^ k)
    (hx : x.toNat + a.toNat - 1 < 2 ^ w) : (alignWord x a).toNat = alignUp a.toNat x.toNat := by
  have hpos := Nat.two_pow_pos k
  have halt := a.isLt
  have hw : 0 < w := by
    by_contra h0
    obtain rfl : w = 0 := by omega
    simp only [pow_zero] at halt
    omega
  have hone : (1 : BitVec w).toNat = 1 := by
    show 1 % 2 ^ w = 1
    exact Nat.mod_eq_of_lt (Nat.one_lt_two_pow (by omega))
  have hmask : (a - 1).toNat = 2 ^ k - 1 := by
    rw [BitVec.toNat_sub, hone, ha]
    rw [show 2 ^ w - 1 + 2 ^ k = 2 ^ k - 1 + 2 ^ w by omega, Nat.add_mod_right]
    exact Nat.mod_eq_of_lt (by omega)
  have hsum : (x + a - 1).toNat = x.toNat + a.toNat - 1 := by
    rw [add_sub_assoc, BitVec.toNat_add, hmask, ← ha,
      Nat.mod_eq_of_lt (by omega)]
    omega
  rw [alignWord, toNat_and_not_mask hmask, hsum, alignUp, ha]

end word

end Rtipc
