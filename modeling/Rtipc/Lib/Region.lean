/-
  Ranges of bytes.

  A `Region` is a start address and a length.  Two regions are `Apart` if they share no byte, one is
  `Within` another if it ends before it.  `Region.array` is what an array of elements occupies: its
  elements are apart and within the whole array.  `Region.consecutive` are regions one behind the other;
  they are apart and leave no gap.  `Region.wrapped` is an array whose addresses wrap around.
-/
import Mathlib.Algebra.GroupWithZero.Nat
import Mathlib.Algebra.Order.Group.Nat

namespace Rtipc

/-- The bytes from `start` on, `len` of them. -/
structure Region where
  start : Nat
  len : Nat
  deriving DecidableEq, Repr

namespace Region

/-- The first address behind the region. -/
def stop (r : Region) : Nat := r.start + r.len

instance : Membership Nat Region := ⟨fun r x => r.start ≤ x ∧ x < r.stop⟩

/-- A byte is in a region if it lies from its start to its end. -/
theorem mem_iff {r : Region} {x : Nat} : x ∈ r ↔ r.start ≤ x ∧ x < r.stop := Iff.rfl

/-- No byte belongs to both. -/
def Apart (r s : Region) : Prop := ∀ x ∈ r, x ∉ s

/-- All of `r` lies in `s`. -/
def Within (r s : Region) : Prop := s.start ≤ r.start ∧ r.stop ≤ s.stop

variable {r s a b : Region}

/-- Being apart is symmetric. -/
theorem Apart.symm (h : r.Apart s) : s.Apart r := fun x hx hx' => h x hx' hx

/-- A region that ends where the next one starts is apart from it. -/
theorem apart_of_le (h : r.stop ≤ s.start) : r.Apart s := fun _ hx hx' =>
  absurd (hx.2.trans_le h) (Nat.not_lt.mpr hx'.1)

/-- A region lies in itself. -/
theorem Within.refl (r : Region) : r.Within r := ⟨le_rfl, le_rfl⟩

/-- What lies in a part lies in the whole. -/
theorem Within.trans (h : r.Within s) (h' : s.Within a) : r.Within a :=
  ⟨h'.1.trans h.1, h.2.trans h'.2⟩

/-- The bytes of a part are bytes of the whole. -/
theorem Within.mem {x : Nat} (h : r.Within s) (hx : x ∈ r) : x ∈ s :=
  ⟨h.1.trans hx.1, hx.2.trans_le h.2⟩

/-- Parts of regions that are apart are apart. -/
theorem Apart.within (h : a.Apart b) (hr : r.Within a) (hs : s.Within b) : r.Apart s :=
  fun x hx hx' => h x (hr.mem hx) (hs.mem hx')

/-! ## Arrays -/

/-- `n` elements of `len` bytes each, every `stride` bytes from `base` on. -/
def array (base stride len n : Nat) : List Region :=
  (List.range n).map fun i => ⟨base + i * stride, len⟩

section array

variable {base stride len n : Nat}

/-- The elements of an array are at multiples of the stride. -/
theorem mem_array : r ∈ array base stride len n ↔
    ∃ i < n, r = ⟨base + i * stride, len⟩ := by
  simp only [array, List.mem_map, List.mem_range, eq_comm]

/-- They do not overlap if the stride has room for an element. -/
theorem array_apart (h : len ≤ stride) : (array base stride len n).Pairwise Apart := by
  rw [array, List.pairwise_map]
  refine List.pairwise_lt_range.imp fun {i j} hij => apart_of_le ?_
  have hmul := Nat.mul_le_mul_right stride (Nat.succ_le_of_lt hij)
  rw [Nat.succ_mul] at hmul
  show base + i * stride + len ≤ base + j * stride
  omega

/-- They lie in the array. -/
theorem array_within (h : len ≤ stride) (hr : r ∈ array base stride len n) :
    r.Within ⟨base, n * stride⟩ := by
  obtain ⟨i, hi, rfl⟩ := mem_array.mp hr
  have hmul := Nat.mul_le_mul_right stride (Nat.succ_le_of_lt hi)
  rw [Nat.succ_mul] at hmul
  refine ⟨Nat.le_add_right _ _, ?_⟩
  show base + i * stride + len ≤ base + n * stride
  omega

end array

/-! ## One behind the other

  Regions that are laid out one behind the other are apart, and their union is a region. -/

/-- Regions of these lengths, the first of which starts at `start` and each of which starts where the one
    in front of it stops. -/
def consecutive : Nat → List Nat → List Region
  | _, [] => []
  | start, len :: lens => ⟨start, len⟩ :: consecutive (start + len) lens

section consecutive

variable {start : Nat} {lens : List Nat}

/-- Together they are the bytes up to where the last one stops. -/
theorem mem_consecutive (start : Nat) (lens : List Nat) (x : Nat) :
    (∃ r ∈ consecutive start lens, x ∈ r) ↔ start ≤ x ∧ x < start + lens.sum := by
  induction lens generalizing start with
  | nil =>
    rw [consecutive, List.sum_nil]
    exact iff_of_false (fun ⟨r, hr, _⟩ => by cases hr) (by omega)
  | cons len lens ih =>
    simp only [consecutive, List.mem_cons, exists_eq_or_imp]
    rw [ih, List.sum_cons, mem_iff]
    show start ≤ x ∧ x < start + len ∨ _ ↔ _
    omega

/-- Regions that follow one another do not overlap. -/
theorem consecutive_apart : (consecutive start lens).Pairwise Apart := by
  induction lens generalizing start with
  | nil => exact List.Pairwise.nil
  | cons len lens ih =>
    refine List.Pairwise.cons (fun r hr x hx hx' => ?_) ih
    have hbehind := (mem_consecutive (start + len) lens x).mp ⟨r, hr, hx'⟩
    have hstop : x < start + len := hx.2
    omega

end consecutive

/-! ## Addresses that wrap around

  An address is a number modulo 2⁶⁴.  Regions whose addresses wrap lie in a larger one only if none of
  their steps leads around. -/

/-- `n` elements of `len` bytes, one every `stride` bytes, whose addresses wrap around at `w`. -/
def wrapped (w base stride len n : Nat) : List Region :=
  (List.range n).map fun j => ⟨(base + j * stride) % w, len⟩

section wrapped

variable {w base stride len n gap : Nat}

/-- An element that starts not far behind the end of a region lies in it if it does not reach over the
    end.  Whatever wraps around is in front of the region. -/
theorem within_mod_iff (hstop : s.stop < w) (hgap : s.len + gap < w) {x : Nat} (hstart : s.start ≤ x)
    (hx : x ≤ s.stop + gap) : (Region.mk (x % w) len).Within s ↔ x + len ≤ s.stop := by
  have hlen : s.stop = s.start + s.len := rfl
  by_cases hwrap : x < w
  · rw [Nat.mod_eq_of_lt hwrap]
    exact ⟨And.right, fun hle => ⟨hstart, hle⟩⟩
  · have hmod : x % w = x - w := by
      rw [Nat.mod_eq_sub_mod (by omega)]
      exact Nat.mod_eq_of_lt (by omega)
    rw [hmod]
    refine iff_of_false (fun hwithin => ?_) (by omega)
    have hfront : s.start ≤ x - w := hwithin.1
    omega

/-- All elements lie in a region if the last one does without wrapping around. -/
theorem wrapped_within_iff (base stride len n gap : Nat) (hstop : s.stop < w)
    (hgap : s.len + gap < w) (hstart : s.start ≤ base)
    (hbase : base ≤ s.stop + gap) (hstride : stride ≤ gap) :
    (∀ r ∈ wrapped w base stride len n, r.Within s) ↔
      (n ≠ 0 → base + (n - 1) * stride + len ≤ s.stop) := by
  have hiff {j : Nat} (hj : base + j * stride ≤ s.stop + gap) :
      (Region.mk ((base + j * stride) % w) len).Within s ↔ base + j * stride + len ≤ s.stop :=
    within_mod_iff hstop hgap (by omega) hj
  constructor
  · intro hall hn
    have hwithin (j : Nat) (hj : j < n) :
        (Region.mk ((base + j * stride) % w) len).Within s :=
      hall _ (List.mem_map.mpr ⟨j, List.mem_range.mpr hj, rfl⟩)
    -- each element ends in the region, so the next one starts not far behind it
    have hends (j : Nat) (hj : j < n) : base + j * stride + len ≤ s.stop := by
      induction j with
      | zero => exact (hiff (by omega)).mp (hwithin 0 hj)
      | succ j ih =>
        have hbefore := ih (by omega)
        refine (hiff ?_).mp (hwithin (j + 1) hj)
        rw [Nat.succ_mul]
        omega
    exact hends (n - 1) (by omega)
  · intro hlast r hr
    obtain ⟨j, hj, rfl⟩ := List.mem_map.mp hr
    have hn : j < n := List.mem_range.mp hj
    have hle := hlast (by omega)
    have hmul : j * stride ≤ (n - 1) * stride := Nat.mul_le_mul_right stride (by omega)
    exact (hiff (by omega)).mpr (by omega)

end wrapped

end Region

end Rtipc
