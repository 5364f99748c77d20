/-
  Ledgers of resources.

  A program acquires and releases resources.  `settle held ms` carries out the moves `ms` for a holder
  of the resources `held`, and fails if something is released that is not held: that settling
  succeeds is that nothing is released twice, and what is held in the end is what was not released.

  `Settles` is compositional: moves can be put behind each other (`Settles.append`), and what else is
  held stays held (`Settles.frame`).
-/
import Mathlib.Data.Multiset.MapFold

namespace Rtipc

/-- To acquire or to release a resource. -/
inductive Move (α : Type) where
  | acquire (r : α)
  | release (r : α)
  deriving DecidableEq, Repr

/-- The same move under another name of the resource. -/
def Move.map {α β : Type} (f : α → β) : Move α → Move β
  | acquire r => acquire (f r)
  | release r => release (f r)

namespace Ledger

variable {α : Type} [DecidableEq α]

/-- What is held after the moves, `none` if something was released that was not held. -/
def settle (held : Multiset α) : List (Move α) → Option (Multiset α)
  | [] => some held
  | .acquire r :: ms => settle (r ::ₘ held) ms
  | .release r :: ms => if r ∈ held then settle (held.erase r) ms else none

/-- The moves lead from `pre` to `post`. -/
def Settles (pre : Multiset α) (ms : List (Move α)) (post : Multiset α) : Prop :=
  settle pre ms = some post

variable {pre mid post post' : Multiset α} {ms ms' : List (Move α)} {r : α}

/-- Nothing happens, nothing changes. -/
theorem Settles.nil : Settles pre [] pre := rfl

/-- The books lead to one result. -/
theorem Settles.unique (h : Settles pre ms post) (h' : Settles pre ms post') : post = post' :=
  Option.some.inj (h.symm.trans h')

/-- An acquired resource is held from then on. -/
theorem settles_acquire : Settles pre (.acquire r :: ms) post ↔ Settles (r ::ₘ pre) ms post := Iff.rfl

/-- A released resource must be held, and is held once less. -/
theorem settles_release :
    Settles pre (.release r :: ms) post ↔ r ∈ pre ∧ Settles (pre.erase r) ms post := by
  rw [Settles, settle]
  split
  · rename_i hr
    exact ⟨fun h => ⟨hr, h⟩, And.right⟩
  · rename_i hr
    exact ⟨fun h => (by cases h), fun h => absurd h.1 hr⟩

/-! ## Composition

  Two lists of events one after the other, and a frame that is held all the time. -/

/-- What moves in two parts lead to, and what the first part leads to. -/
theorem settles_append :
    Settles pre (ms ++ ms') post ↔ ∃ mid, Settles pre ms mid ∧ Settles mid ms' post := by
  induction ms generalizing pre with
  | nil =>
    constructor
    · exact fun h => ⟨pre, Settles.nil, h⟩
    · rintro ⟨mid, h, h'⟩
      cases h
      exact h'
  | cons m ms ih =>
    cases m with
    | acquire r => exact ih
    | release r =>
      simp only [List.cons_append, settles_release, ih]
      exact ⟨fun ⟨hr, mid, h⟩ => ⟨mid, ⟨hr, h.1⟩, h.2⟩, fun ⟨mid, ⟨hr, h⟩, h'⟩ => ⟨hr, mid, h, h'⟩⟩

/-- One after the other. -/
theorem Settles.append (h : Settles pre ms mid) (h' : Settles mid ms' post) :
    Settles pre (ms ++ ms') post := settles_append.mpr ⟨mid, h, h'⟩

/-- What else is held stays held. -/
theorem Settles.frame (h : Settles pre ms post) (frame : Multiset α) :
    Settles (pre + frame) ms (post + frame) := by
  induction ms generalizing pre with
  | nil =>
    cases h
    exact Settles.nil
  | cons m ms ih =>
    cases m with
    | acquire r =>
      have hframed := ih (settles_acquire.mp h)
      rw [Multiset.cons_add] at hframed
      exact settles_acquire.mpr hframed
    | release r =>
      obtain ⟨hr, h⟩ := settles_release.mp h
      have hframed := ih h
      rw [← Multiset.erase_add_left_pos frame hr] at hframed
      exact settles_release.mpr ⟨Multiset.mem_add.mpr (Or.inl hr), hframed⟩

/-- Nothing is needed to acquire. -/
theorem Settles.acquire (r : α) : Settles pre [.acquire r] (pre + {r}) := by
  rw [Multiset.add_comm, Multiset.singleton_add]
  exact rfl

/-- What is held can be released. -/
theorem Settles.release (r : α) : Settles (pre + {r}) [.release r] pre := by
  refine settles_release.mpr ⟨Multiset.mem_add.mpr (Or.inr (Multiset.mem_singleton_self r)), ?_⟩
  rw [Multiset.add_comm, Multiset.singleton_add, Multiset.erase_cons_head]
  exact Settles.nil

/-! ## Only releases -/

/-- Resources can be released if they are held, and what else is held is left. -/
theorem settles_releases {rs : List α} :
    Settles pre (rs.map .release) post ↔ pre = (rs : Multiset α) + post := by
  induction rs generalizing pre with
  | nil =>
    rw [Multiset.coe_nil, Multiset.zero_add]
    exact ⟨Option.some.inj, congrArg some⟩
  | cons r rs ih =>
    rw [List.map_cons, settles_release, ih, ← Multiset.cons_coe, Multiset.cons_add]
    constructor
    · rintro ⟨hr, hrest⟩
      rw [← hrest, Multiset.cons_erase hr]
    · rintro rfl
      exact ⟨Multiset.mem_cons_self r _, Multiset.erase_cons_head r _⟩

/-- It does not matter what is released first. -/
theorem settles_releases_comm {rs rs' : List α} :
    Settles pre (ms ++ rs.map .release ++ rs'.map .release) post ↔
      Settles pre (ms ++ rs'.map .release ++ rs.map .release) post := by
  simp only [List.append_assoc, ← List.map_append, settles_append, settles_releases,
    ← Multiset.coe_add, Multiset.add_comm (rs : Multiset α)]

/-! ## Other names -/

/-- The resources can be given other names, as long as different ones get different names. -/
theorem Settles.map {β : Type} [DecidableEq β] {f : α → β} (hf : Function.Injective f)
    (h : Settles pre ms post) : Settles (pre.map f) (ms.map (Move.map f)) (post.map f) := by
  induction ms generalizing pre with
  | nil =>
    cases h
    exact Settles.nil
  | cons m ms ih =>
    cases m with
    | acquire r =>
      have hmap := ih (settles_acquire.mp h)
      rw [Multiset.map_cons] at hmap
      exact settles_acquire.mpr hmap
    | release r =>
      obtain ⟨hr, h⟩ := settles_release.mp h
      have hmap := ih h
      rw [Multiset.map_erase f hf] at hmap
      exact settles_release.mpr ⟨Multiset.mem_map_of_mem f hr, hmap⟩

/-! ## Counting -/

/-- How often the moves acquire `r`. -/
def acquires (ms : List (Move α)) (r : α) : Nat := ms.count (.acquire r)

/-- How often the moves release `r`. -/
def releases (ms : List (Move α)) (r : α) : Nat := ms.count (.release r)

/-- The releases of two lists add up. -/
theorem releases_append (r : α) : releases (ms ++ ms') r = releases ms r + releases ms' r :=
  List.count_append

/-- What was held or acquired has been released or is held. -/
theorem Settles.count (h : Settles pre ms post) (r : α) :
    pre.count r + acquires ms r = releases ms r + post.count r := by
  induction ms generalizing pre with
  | nil =>
    cases h
    exact Nat.add_comm _ _
  | cons m ms ih =>
    cases m with
    | acquire s =>
      have hcount := ih (settles_acquire.mp h)
      rw [Multiset.count_cons] at hcount
      simp only [acquires, releases, List.count_cons, beq_iff_eq, Move.acquire.injEq, reduceCtorEq,
        if_false] at hcount ⊢
      simp only [eq_comm (a := r)] at hcount
      omega
    | release s =>
      obtain ⟨hs, h⟩ := settles_release.mp h
      have hcount := ih h
      have hpos := Multiset.count_pos.mpr hs
      simp only [acquires, releases, List.count_cons, beq_iff_eq, Move.release.injEq, reduceCtorEq,
        if_false] at hcount ⊢
      by_cases hrs : s = r
      · subst hrs
        rw [Multiset.count_erase_self] at hcount
        rw [if_pos rfl]
        omega
      · rw [Multiset.count_erase_of_ne (Ne.symm hrs)] at hcount
        rw [if_neg hrs]
        omega

end Ledger

end Rtipc
