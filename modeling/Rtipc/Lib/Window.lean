/-
  Linked lists as windows on a sequence of positions.

  A list that only ever grows at one end and shrinks at the other is a window `[lo, hi)` on a sequence
  `ord` of nodes: `append` adds a node at position `hi`, `drop` forgets nodes at `lo`.  A node keeps its
  position as long as it is in the list, so facts about a node can be stated about its position and
  need no change when the list grows or shrinks.

  `Nodup` says that no node stands at two positions, `Linked next` that the pointers `next` lead from
  each node to the one at the following position.
-/
import Mathlib.Data.List.Nodup
import Mathlib.Data.List.Range
import Mathlib.Logic.Function.Iterate

namespace Rtipc

/-- The positions `lo`, …, `hi - 1` of the sequence `ord`. -/
structure Window (α : Type) where
  ord : Nat → α
  lo : Nat
  hi : Nat

namespace Window

variable {α : Type} {w : Window α} {next : α → α} {x y v : α} {i j : Nat}

/-- The node `a` is in the list. -/
def Mem (w : Window α) (a : α) : Prop := ∃ i, w.lo ≤ i ∧ i < w.hi ∧ w.ord i = a

/-- No node stands at two positions. -/
def Nodup (w : Window α) : Prop :=
  ∀ i j, w.lo ≤ i → i < w.hi → w.lo ≤ j → j < w.hi → w.ord i = w.ord j → i = j

/-- Each node but the last points to the node after it. -/
def Linked (w : Window α) (next : α → α) : Prop :=
  ∀ i, w.lo ≤ i → i + 1 < w.hi → next (w.ord i) = w.ord (i + 1)

/-- The list without its first `k` nodes. -/
def drop (w : Window α) (k : Nat) : Window α := { w with lo := w.lo + k }

/-- What dropping the oldest elements does. -/
@[simp] theorem drop_ord (k : Nat) : (w.drop k).ord = w.ord := rfl
@[simp] theorem drop_lo (k : Nat) : (w.drop k).lo = w.lo + k := rfl
@[simp] theorem drop_hi (k : Nat) : (w.drop k).hi = w.hi := rfl

/-- The list with a new last node. -/
def append (w : Window α) (x : α) : Window α :=
  { w with ord := Function.update w.ord w.hi x, hi := w.hi + 1 }

/-- What appending an element does. -/
@[simp] theorem append_lo : (w.append x).lo = w.lo := rfl
@[simp] theorem append_hi : (w.append x).hi = w.hi + 1 := rfl
@[simp] theorem append_ord_hi : (w.append x).ord w.hi = x := by simp [append]

/-- The elements before it stay where they are. -/
theorem append_ord (h : i ≠ w.hi) : (w.append x).ord i = w.ord i := by
  simp [append, h]

/-! ## Membership -/

/-- The elements of a window. -/
theorem mem_ord (hlo : w.lo ≤ i) (hhi : i < w.hi) : w.Mem (w.ord i) := ⟨i, hlo, hhi, rfl⟩

/-- What is left was there before. -/
theorem Mem.of_drop {k : Nat} (h : (w.drop k).Mem x) : w.Mem x := by
  obtain ⟨i, hlo, hhi, rfl⟩ := h
  exact mem_ord (Nat.le_of_add_right_le hlo) hhi

/-- What is there after appending. -/
theorem mem_append : (w.append x).Mem y → w.Mem y ∨ y = x := by
  rintro ⟨i, hlo, hhi, rfl⟩
  by_cases hi : i = w.hi
  · right
    rw [hi]
    exact append_ord_hi
  · left
    rw [append_ord hi]
    exact mem_ord hlo (by simp at hhi; omega)

/-- A node that has been dropped is in the list no more. -/
theorem Nodup.not_mem_drop {k : Nat} (h : w.Nodup) (hlo : w.lo ≤ i) (hik : i < w.lo + k)
    (hhi : i < w.hi) : ¬ (w.drop k).Mem (w.ord i) := by
  rintro ⟨j, hjlo, hjhi, hj⟩
  simp only [drop_lo, drop_hi] at hjlo hjhi
  have := h j i (by omega) hjhi hlo hhi hj
  omega

/-! ## The list keeps its shape

  Dropping at one end and appending at the other: each of `Nodup` and `Linked` is kept under its own
  condition. -/

/-- Dropping keeps the elements different. -/
theorem Nodup.drop (h : w.Nodup) (k : Nat) : (w.drop k).Nodup := by
  intro i j hi hi' hj hj'
  exact h i j (Nat.le_of_add_right_le hi) hi' (Nat.le_of_add_right_le hj) hj'

/-- So does appending a new one. -/
theorem Nodup.append (h : w.Nodup) (hx : ¬ w.Mem x) : (w.append x).Nodup := by
  intro i j hi hi' hj hj' heq
  simp only [append_lo, append_hi] at hi hi' hj hj'
  by_cases h1 : i = w.hi <;> by_cases h2 : j = w.hi
  · rw [h1, h2]
  · rw [h1, append_ord_hi, append_ord h2] at heq
    exact absurd (heq ▸ mem_ord hj (by omega)) hx
  · rw [h2, append_ord_hi, append_ord h1] at heq
    exact absurd (heq ▸ mem_ord hi (by omega)) hx
  · rw [append_ord h1, append_ord h2] at heq
    exact h i j hi (by omega) hj (by omega) heq

/-- Dropping keeps the links. -/
theorem Linked.drop (h : w.Linked next) (k : Nat) : (w.drop k).Linked next := by
  intro i hi hi'
  exact h i (Nat.le_of_add_right_le hi) hi'

/-- The new last node has to be the one the old last node points to. -/
theorem Linked.append (h : w.Linked next) (hx : w.lo < w.hi → next (w.ord (w.hi - 1)) = x) :
    (w.append x).Linked next := by
  intro i hi hi'
  simp only [append_lo, append_hi] at hi hi'
  rw [append_ord (by omega)]
  by_cases h1 : i + 1 = w.hi
  · rw [h1, append_ord_hi, ← hx (by omega), ← h1]
    rfl
  · rw [append_ord h1]
    exact h i hi (by omega)

/-- A pointer of a node outside the list does not matter. -/
theorem Linked.update [DecidableEq α] (h : w.Linked next) (hx : ¬ w.Mem x) :
    w.Linked (Function.update next x v) := by
  intro i hi hi'
  have hne : w.ord i ≠ x := fun he => hx ⟨i, hi, by omega, he⟩
  rw [Function.update_of_ne hne]
  exact h i hi hi'

/-- Nor does the pointer of the last node. -/
theorem Linked.update_last [DecidableEq α] (h : w.Linked next) (hn : w.Nodup) :
    w.Linked (Function.update next (w.ord (w.hi - 1)) v) := by
  intro i hi hi'
  have hne : w.ord i ≠ w.ord (w.hi - 1) := fun he => by
    have := hn i (w.hi - 1) hi (by omega) (by omega) (by omega) he
    omega
  rw [Function.update_of_ne hne]
  exact h i hi hi'

/-! ## New first nodes

  A list can grow at the front as well; then the positions of all nodes move up by one. -/

/-- The list with a new first node. -/
def cons (w : Window α) (x : α) : Window α where
  ord i := if i = w.lo then x else w.ord (i - 1)
  lo := w.lo
  hi := w.hi + 1

/-- What putting an element in front does; the others move up by one. -/
@[simp] theorem cons_lo : (w.cons x).lo = w.lo := rfl
@[simp] theorem cons_hi : (w.cons x).hi = w.hi + 1 := rfl
@[simp] theorem cons_ord_lo : (w.cons x).ord w.lo = x := if_pos rfl

/-- The others keep their order. -/
theorem cons_ord_succ (h : w.lo ≤ i) : (w.cons x).ord (i + 1) = w.ord i := if_neg (by omega)

/-- An element is the new one or one of the others. -/
theorem cons_cases (hi : (w.cons x).lo ≤ i) (hi' : i < (w.cons x).hi) :
    i = w.lo ∨ ∃ j, i = j + 1 ∧ w.lo ≤ j ∧ j < w.hi := by
  simp only [cons_lo, cons_hi] at hi hi'
  by_cases h : i = w.lo
  · exact Or.inl h
  · exact Or.inr ⟨i - 1, by omega, by omega, by omega⟩

/-- Putting a new one in front keeps the elements different. -/
theorem Nodup.cons (h : w.Nodup) (hx : ¬ w.Mem x) : (w.cons x).Nodup := by
  intro i j hi hi' hj hj' heq
  rcases cons_cases hi hi' with rfl | ⟨i, rfl, hi, hi'⟩ <;>
    rcases cons_cases hj hj' with rfl | ⟨j, rfl, hj, hj'⟩
  · rfl
  · rw [cons_ord_lo, cons_ord_succ hj] at heq
    exact absurd (heq ▸ mem_ord hj hj') hx
  · rw [cons_ord_lo, cons_ord_succ hi] at heq
    exact absurd (heq ▸ mem_ord hi hi') hx
  · rw [cons_ord_succ hi, cons_ord_succ hj] at heq
    rw [h i j hi hi' hj hj' heq]

/-- The new first node has to point to the old one. -/
theorem Linked.cons (h : w.Linked next) (hx : w.lo < w.hi → next x = w.ord w.lo) :
    (w.cons x).Linked next := by
  intro i hi hi'
  rcases cons_cases hi (Nat.lt_of_succ_lt hi') with rfl | ⟨i, rfl, hi, -⟩
  · rw [cons_ord_lo, cons_ord_succ (Nat.le_refl _)]
    exact hx (Nat.lt_of_succ_lt_succ hi')
  · rw [cons_ord_succ hi, cons_ord_succ (Nat.le_succ_of_le hi)]
    exact h i hi (Nat.lt_of_succ_lt_succ hi')

/-! ## Following the pointers

  From a node of the list a number of steps leads to the node that many positions further on. -/

/-- The nodes the pointers lead to from `x` in `k` steps. -/
def walk (next : α → α) (x : α) (k : Nat) : Window α where
  ord i := next^[i] x
  lo := 0
  hi := k + 1

/-- The elements of a walk are linked. -/
theorem walk_linked {k : Nat} : (walk next x k).Linked next := fun i _ _ =>
  (Function.iterate_succ_apply' next i x).symm

/-- A walk whose last node points out of it visits no node twice. -/
theorem walk_nodup {k : Nat} (h : ∀ i, i ≤ k → next (next^[k] x) ≠ next^[i] x) :
    (walk next x k).Nodup := by
  have hlt : ∀ i j, i < j → j ≤ k → next^[i] x ≠ next^[j] x := by
    intro i j hij hj heq
    -- both lead to the last node, the first of them too early
    have hlast : next^[k] x = next^[i + (k - j)] x := by
      calc next^[k] x = next^[(k - j) + j] x := by rw [Nat.sub_add_cancel hj]
        _ = next^[k - j] (next^[i] x) := by rw [Function.iterate_add_apply, heq]
        _ = next^[i + (k - j)] x := by rw [← Function.iterate_add_apply, Nat.add_comm]
    refine h (i + (k - j) + 1) (by omega) ?_
    rw [Function.iterate_succ_apply', ← hlast]
  intro i j _ hi' _ hj' heq
  simp only [walk] at hi' hj'
  rcases Nat.lt_trichotomy i j with hij | hij | hij
  · exact absurd heq (hlt i j hij (by omega))
  · exact hij
  · exact absurd heq.symm (hlt j i hij (by omega))

/-! ## Segments -/

/-- The nodes at the positions `i`, …, `j - 1`. -/
def segment (w : Window α) (i j : Nat) : List α := (List.range' i (j - i)).map w.ord

/-- A segment that ends before it begins. -/
theorem segment_nil (h : j ≤ i) : w.segment i j = [] := by
  rw [segment, Nat.sub_eq_zero_of_le h]
  rfl

/-- The length of a segment. -/
@[simp] theorem length_segment : (w.segment i j).length = j - i := by simp [segment]

/-- A segment from its first element on. -/
theorem segment_cons (h : i < j) : w.segment i j = w.ord i :: w.segment (i + 1) j := by
  rw [segment, show j - i = (j - (i + 1)) + 1 from by omega, List.range'_succ, List.map_cons]
  rfl

/-- A segment up to its last element. -/
theorem segment_snoc (h : i ≤ j) : w.segment i (j + 1) = w.segment i j ++ [w.ord j] := by
  rw [segment, show j + 1 - i = (j - i) + 1 from by omega, List.range'_concat, List.map_append,
    List.map_singleton, segment, show i + 1 * (j - i) = j from by omega]

/-- The elements of a segment have positions in it. -/
theorem exists_of_mem_segment (h : x ∈ w.segment i j) : ∃ k, i ≤ k ∧ k < j ∧ w.ord k = x := by
  obtain ⟨k, hk, rfl⟩ := List.mem_map.mp h
  obtain ⟨hi, hj⟩ := List.mem_range'_1.mp hk
  exact ⟨k, hi, by omega, rfl⟩

/-- Each position has its element. -/
theorem mem_segment {k : Nat} (hi : i ≤ k) (hj : k < j) : w.ord k ∈ w.segment i j :=
  List.mem_map.mpr ⟨k, List.mem_range'_1.mpr ⟨hi, by omega⟩, rfl⟩

/-- The elements of a window as a list without repetition. -/
theorem Nodup.segment (h : w.Nodup) : (w.segment w.lo w.hi).Nodup := by
  refine List.Nodup.map_on ?_ List.nodup_range'
  intro a ha b hb heq
  rw [List.mem_range'_1] at ha hb
  exact h a b ha.1 (by omega) hb.1 (by omega) heq

/-- A segment depends on its own positions. -/
theorem segment_congr {w' : Window α} (h : ∀ k, i ≤ k → k < j → w'.ord k = w.ord k) :
    w'.segment i j = w.segment i j := by
  refine List.map_congr_left fun k hk => ?_
  rw [List.mem_range'] at hk
  obtain ⟨d, hd, rfl⟩ := hk
  exact h _ (by omega) (by omega)

/-! ## The list as the pointers show it -/

section follow

variable [DecidableEq α] {stop : α}

/-- The nodes the pointers lead to, `x` the first of them, as far as the first pointer `stop`; at most
    `k` nodes are visited. -/
def follow (next : α → α) (stop : α) : Nat → α → List α
  | 0, _ => []
  | k + 1, x => if x = stop then [] else x :: follow next stop k (next x)

/-- Following the links ends at the mark. -/
theorem follow_stop (k : Nat) : follow next stop k stop = [] := by
  cases k with
  | zero => rfl
  | succ k => exact if_pos rfl

/-- One link followed. -/
theorem follow_succ {k : Nat} (h : x ≠ stop) :
    follow next stop (k + 1) x = x :: follow next stop k (next x) := if_neg h

/-- Linked nodes, the last of which points to `stop`, are what following the pointers visits. -/
theorem Linked.follow_eq (h : w.Linked next) (hne : ∀ i, w.ord i ≠ stop)
    (hlast : next (w.ord (w.hi - 1)) = stop) {k : Nat} (hlo : w.lo ≤ i) (hi : i < w.hi)
    (hk : w.hi - i ≤ k) : follow next stop k (w.ord i) = w.segment i w.hi := by
  induction k generalizing i with
  | zero => omega
  | succ k ih =>
    rw [follow_succ (hne i), segment_cons hi]
    congr 1
    rcases Nat.lt_or_ge (i + 1) w.hi with hlt | hge
    · rw [h i hlo hlt]
      exact ih (Nat.le_succ_of_le hlo) hlt (by omega)
    · -- position `i` is the last one
      have hend : w.hi - 1 = i := by omega
      rw [hend] at hlast
      rw [hlast, follow_stop, segment_nil hge]

end follow

end Window

end Rtipc
