/-
  Linearizability of concurrent histories.

  A history is a list of invocations and responses of threads.  It is `Linearizable` with respect to
  a sequential object if there is a list of operations that contains every operation that has
  responded, with its answer, and possibly some that have not; that keeps the order of operations
  that do not overlap; and that the sequential object answers the same way when it performs the
  operations one after the other.

  The proof method is that of the atomic object: between its invocation and its response every
  operation is performed on the sequential object at one moment.  `Tracks` says that a history can be
  explained in this way so far, with the object in state `a` and the threads at the points `st`.  A
  thread moves by `Tracks.invoke`, `Tracks.perform` and `Tracks.respond`, so a simulation proof uses
  these three rules and ends with `Tracks.linearizable`.
-/
import Mathlib.Logic.Function.Basic
import Mathlib.Data.List.Nodup

namespace Rtipc

/-- A sequential object: what each operation does to the state and answers. -/
structure SeqObject (σ ι ρ : Type) where
  init : σ
  apply : σ → ι → σ × ρ

/-- An event of a history. -/
inductive HistoryEvent (τ ι ρ : Type) where
  | invoke (t : τ) (i : ι)
  | respond (t : τ) (r : ρ)
  deriving DecidableEq, Repr

/-- The thread of an event. -/
def HistoryEvent.thread {τ ι ρ : Type} : HistoryEvent τ ι ρ → τ
  | invoke t _ => t
  | respond t _ => t

/-- An operation in a sequential order: the position of its invocation in the history, what it was
    asked and what it answers. -/
structure Performed (ι ρ : Type) where
  inv : Nat
  input : ι
  output : ρ

section defs

variable {τ σ ι ρ : Type}

/-- Starting from `a`, the object gives exactly these answers and ends in `b`. -/
def SeqObject.Performs (O : SeqObject σ ι ρ) (b : σ) : σ → List (Performed ι ρ) → Prop
  | a, [] => a = b
  | a, x :: L => (O.apply a x.input).2 = x.output ∧ O.Performs b (O.apply a x.input).1 L

/-- The response of thread `t` at position `j` answers its invocation at position `k`. -/
structure Answers (h : List (HistoryEvent τ ι ρ)) (t : τ) (k j : Nat) : Prop where
  lt : k < j
  invoke : ∃ i, h[k]? = some (.invoke t i)
  respond : ∃ r, h[j]? = some (.respond t r)
  between : ∀ l e, k < l → l < j → h[l]? = some e → e.thread ≠ t

/-- The operation invoked at `k` has responded before the one at `k'` is invoked. -/
def Precedes (h : List (HistoryEvent τ ι ρ)) (k k' : Nat) : Prop :=
  ∃ t j, Answers h t k j ∧ j < k'

/-- The results of the history are those of some sequential order of its operations, consistent with
    the order of operations that do not overlap. -/
def Linearizable (O : SeqObject σ ι ρ) (h : List (HistoryEvent τ ι ρ)) : Prop :=
  ∃ (L : List (Performed ι ρ)) (b : σ),
    (L.map Performed.inv).Nodup ∧
    (∀ x ∈ L, ∃ t, h[x.inv]? = some (.invoke t x.input)) ∧
    (∀ j t r, h[j]? = some (.respond t r) → ∃ x ∈ L, Answers h t x.inv j ∧ x.output = r) ∧
    L.Pairwise (fun x y => ¬ Precedes h y.inv x.inv) ∧
    O.Performs b O.init L

/-- Where a thread is: between two operations, in one that was invoked at position `k`, or in one that
    has been performed with the answer `r` but has not responded. -/
inductive Status (ι ρ : Type) where
  | idle
  | called (k : Nat) (i : ι)
  | done (k : Nat) (i : ι) (r : ρ)

/-- The last event of thread `t` is its invocation at position `k`. -/
structure Pending (h : List (HistoryEvent τ ι ρ)) (t : τ) (k : Nat) (i : ι) : Prop where
  invoke : h[k]? = some (.invoke t i)
  quiet : ∀ l e, k < l → h[l]? = some e → e.thread ≠ t

/-- An operation with the length of the history at the moment it was performed. -/
structure LinPoint (ι ρ : Type) extends Performed ι ρ where
  time : Nat

/-- What the points of the threads say about the history and the performed operations. -/
def Status.Describes (h : List (HistoryEvent τ ι ρ)) (L : List (LinPoint ι ρ)) (t : τ) :
    Status ι ρ → Prop
  | idle => True
  | called k i => Pending h t k i ∧ ∀ x ∈ L, x.inv ≠ k
  | done k i r => Pending h t k i ∧ ∃ x ∈ L, x.inv = k ∧ x.output = r

/-- The operations `L`, performed in this order at moments between their invocations and responses,
    explain the history `h`; the object is then in state `a` and the threads are at `st`. -/
structure Explains (O : SeqObject σ ι ρ) (h : List (HistoryEvent τ ι ρ)) (L : List (LinPoint ι ρ))
    (a : σ) (st : τ → Status ι ρ) : Prop where
  performs : O.Performs a O.init (L.map LinPoint.toPerformed)
  sorted : L.Pairwise fun x y => x.time ≤ y.time
  distinct : L.Pairwise fun x y => x.inv ≠ y.inv
  invoked : ∀ x ∈ L, x.inv < x.time ∧ x.time ≤ h.length ∧
    ∃ t, h[x.inv]? = some (.invoke t x.input)
  answered : ∀ j t r, h[j]? = some (.respond t r) →
    ∃ x ∈ L, Answers h t x.inv j ∧ x.output = r ∧ x.time ≤ j
  status : ∀ t, (st t).Describes h L t

/-- The history can be explained, with the object in state `a` and the threads at `st`. -/
def Tracks (O : SeqObject σ ι ρ) (h : List (HistoryEvent τ ι ρ)) (a : σ) (st : τ → Status ι ρ) :
    Prop := ∃ L, Explains O h L a st

end defs

section lemmas

variable {τ σ ι ρ : Type} {O : SeqObject σ ι ρ} {h : List (HistoryEvent τ ι ρ)}
  {e : HistoryEvent τ ι ρ} {t : τ} {i : ι} {k k' j : Nat} {L : List (LinPoint ι ρ)} {a : σ}
  {st : τ → Status ι ρ}

/-- One more operation of the sequential object, at the end. -/
theorem SeqObject.Performs.append {b c : σ} {L : List (Performed ι ρ)} {x : Performed ι ρ}
    (hL : O.Performs b a L) (hx : O.apply b x.input = (c, x.output)) :
    O.Performs c a (L ++ [x]) := by
  induction L generalizing a with
  | nil =>
    obtain rfl : a = b := hL
    exact ⟨by rw [hx], by rw [hx]; rfl⟩
  | cons y L ih => exact ⟨hL.1, ih hL.2⟩

/-! ## The history grows -/

/-- An event of a history keeps its place when the history goes on. -/
theorem getElem?_append_of_some {f : HistoryEvent τ ι ρ} (hk : h[k]? = some f) :
    (h ++ [e])[k]? = some f := by
  have hlt : k < h.length := by
    by_contra hge
    rw [List.getElem?_eq_none (by omega)] at hk
    cases hk
  rw [List.getElem?_append_left hlt]
  exact hk

/-- An event of the longer history is one of the shorter one, or the new one. -/
theorem getElem?_append_cases {f : HistoryEvent τ ι ρ} (hk : (h ++ [e])[k]? = some f) :
    h[k]? = some f ∨ (k = h.length ∧ f = e) := by
  by_cases hlt : k < h.length
  · left
    rwa [List.getElem?_append_left hlt] at hk
  · right
    rw [List.getElem?_append_right (by omega)] at hk
    by_cases heq : k = h.length
    · refine ⟨heq, ?_⟩
      rw [heq, Nat.sub_self] at hk
      exact (Option.some.inj hk).symm
    · rw [List.getElem?_eq_none (by simp only [List.length_singleton]; omega)] at hk
      cases hk

/-- An event has a place in the history. -/
theorem lt_length_of_some {f : HistoryEvent τ ι ρ} (hk : h[k]? = some f) : k < h.length := by
  by_contra hge
  rw [List.getElem?_eq_none (by omega)] at hk
  cases hk

/-- A response keeps answering its invocation. -/
theorem Answers.append (ha : Answers h t k j) : Answers (h ++ [e]) t k j where
  lt := ha.lt
  invoke := ha.invoke.imp fun _ => getElem?_append_of_some
  respond := ha.respond.imp fun _ => getElem?_append_of_some
  between := by
    obtain ⟨r, hr⟩ := ha.respond
    have hj := lt_length_of_some hr
    intro l f hkl hlj hf
    rcases getElem?_append_cases hf with hf | ⟨rfl, -⟩
    · exact ha.between l f hkl hlj hf
    · omega

/-- A response answers one invocation only. -/
theorem Answers.unique {t' : τ} (ha : Answers h t k j) (ha' : Answers h t' k' j) : k = k' := by
  obtain ⟨r, hr⟩ := ha.respond
  obtain ⟨r', hr'⟩ := ha'.respond
  rw [hr] at hr'
  cases hr'
  obtain ⟨i, hi⟩ := ha.invoke
  obtain ⟨i', hi'⟩ := ha'.invoke
  rcases Nat.lt_trichotomy k k' with hlt | heq | hlt
  · exact absurd rfl (ha.between k' _ hlt ha'.lt hi')
  · exact heq
  · exact absurd rfl (ha'.between k _ hlt ha.lt hi)

/-- An event of another thread leaves a pending operation pending. -/
theorem Pending.append (hp : Pending h t k i) (hne : e.thread ≠ t) : Pending (h ++ [e]) t k i where
  invoke := getElem?_append_of_some hp.invoke
  quiet := by
    intro l f hkl hf
    rcases getElem?_append_cases hf with hf | ⟨-, rfl⟩
    · exact hp.quiet l f hkl hf
    · exact hne

/-- An event of another thread does not change what is known of `t`. -/
theorem Status.Describes.append {q : Status ι ρ} (hd : q.Describes h L t) (hne : e.thread ≠ t) :
    q.Describes (h ++ [e]) L t := by
  cases q with
  | idle => trivial
  | called k i => exact ⟨hd.1.append hne, hd.2⟩
  | done k i r => exact ⟨hd.1.append hne, hd.2⟩

/-- The operations that have been performed stay where they are. -/
theorem Explains.invoked_append (he : Explains O h L a st) :
    ∀ x ∈ L, x.inv < x.time ∧ x.time ≤ (h ++ [e]).length ∧
      ∃ t, (h ++ [e])[x.inv]? = some (.invoke t x.input) := by
  intro x hx
  obtain ⟨h1, h2, t, ht⟩ := he.invoked x hx
  refine ⟨h1, ?_, t, getElem?_append_of_some ht⟩
  rw [List.length_append]
  omega

/-- An answered operation has its place in the order of the sequential object, also in the longer
    history. -/
theorem Explains.answered_append (he : Explains O h L a st) {t : τ} {r : ρ}
    (hj : h[j]? = some (.respond t r)) :
    ∃ x ∈ L, Answers (h ++ [e]) t x.inv j ∧ x.output = r ∧ x.time ≤ j := by
  obtain ⟨x, hx, hans, hout, htime⟩ := he.answered j t r hj
  exact ⟨x, hx, hans.append, hout, htime⟩

/-! ## The three rules

  A call and a reply extend the history; a transition of the object extends nothing.  Every proof of
  linearizability is a sequence of these three. -/

/-- At the start nothing has been performed, and nobody is in a call. -/
theorem Tracks.init : Tracks O ([] : List (HistoryEvent τ ι ρ)) O.init fun _ => .idle :=
  ⟨[], rfl, .nil, .nil, fun _ hx => (by cases hx), fun j _ _ hj => (by cases hj),
    fun _ => trivial⟩

section rules

variable [DecidableEq τ]

/-- An idle thread invokes an operation. -/
theorem Tracks.invoke (ht : Tracks O h a st) (t : τ) (i : ι) :
    Tracks O (h ++ [.invoke t i]) a (Function.update st t (.called h.length i)) := by
  obtain ⟨L, he⟩ := ht
  refine ⟨L, he.performs, he.sorted, he.distinct, he.invoked_append, ?_, ?_⟩
  · intro j t' r hj
    rcases getElem?_append_cases hj with hj | ⟨-, hj⟩
    · exact he.answered_append hj
    · cases hj
  · intro t'
    by_cases htt : t' = t
    · subst htt
      rw [Function.update_self]
      refine ⟨⟨by simp, ?_⟩, ?_⟩
      · intro l f hl hf
        have := lt_length_of_some hf
        rw [List.length_append, List.length_singleton] at this
        omega
      · intro x hx hinv
        have := he.invoked x hx
        omega
    · rw [Function.update_of_ne htt]
      exact (he.status t').append (Ne.symm htt)

/-- The operation of a thread is performed on the object. -/
theorem Tracks.perform (ht : Tracks O h a st) {t : τ} (hst : st t = .called k i) :
    Tracks O h (O.apply a i).1 (Function.update st t (.done k i (O.apply a i).2)) := by
  obtain ⟨L, he⟩ := ht
  have hcalled := he.status t
  rw [hst] at hcalled
  obtain ⟨hpend, hnew⟩ := hcalled
  have hlt := lt_length_of_some hpend.invoke
  refine ⟨L ++ [{ inv := k, input := i, output := (O.apply a i).2, time := h.length }],
    ?_, ?_, ?_, ?_, ?_, ?_⟩
  · rw [List.map_append]
    exact he.performs.append rfl
  · refine List.pairwise_append.mpr ⟨he.sorted, List.pairwise_singleton _ _, ?_⟩
    intro x hx y hy
    rw [List.mem_singleton.mp hy]
    exact (he.invoked x hx).2.1
  · refine List.pairwise_append.mpr ⟨he.distinct, List.pairwise_singleton _ _, ?_⟩
    intro x hx y hy
    rw [List.mem_singleton.mp hy]
    exact hnew x hx
  · intro x hx
    rcases List.mem_append.mp hx with hx | hx
    · exact he.invoked x hx
    · rw [List.mem_singleton.mp hx]
      exact ⟨hlt, Nat.le_refl _, t, hpend.invoke⟩
  · intro j t' r hj
    obtain ⟨x, hx, hans, hout, htime⟩ := he.answered j t' r hj
    exact ⟨x, List.mem_append_left _ hx, hans, hout, htime⟩
  · intro t'
    by_cases htt : t' = t
    · subst htt
      rw [Function.update_self]
      exact ⟨hpend, _, List.mem_append_right _ (List.mem_singleton.mpr rfl), rfl, rfl⟩
    · rw [Function.update_of_ne htt]
      have hold := he.status t'
      cases hq : st t' with
      | idle => trivial
      | called k' i' =>
        rw [hq] at hold
        refine ⟨hold.1, fun x hx => ?_⟩
        rcases List.mem_append.mp hx with hx | hx
        · exact hold.2 x hx
        · rw [List.mem_singleton.mp hx]
          rintro rfl
          have hinv := hold.1.invoke
          rw [hpend.invoke] at hinv
          cases hinv
          exact htt rfl
      | done k' i' r' =>
        rw [hq] at hold
        obtain ⟨x, hx, hxk, hxr⟩ := hold.2
        exact ⟨hold.1, x, List.mem_append_left _ hx, hxk, hxr⟩

/-- A thread responds with the answer its operation was given. -/
theorem Tracks.respond (ht : Tracks O h a st) {t : τ} {r : ρ} (hst : st t = .done k i r) :
    Tracks O (h ++ [.respond t r]) a (Function.update st t .idle) := by
  obtain ⟨L, he⟩ := ht
  have hdone := he.status t
  rw [hst] at hdone
  obtain ⟨hpend, x, hx, hxk, hxr⟩ := hdone
  refine ⟨L, he.performs, he.sorted, he.distinct, he.invoked_append, ?_, ?_⟩
  · intro j t' r' hj
    rcases getElem?_append_cases hj with hj | ⟨rfl, heq⟩
    · exact he.answered_append hj
    · obtain ⟨rfl, rfl⟩ := HistoryEvent.respond.inj heq
      refine ⟨x, hx, ⟨?_, ?_, ?_, ?_⟩, hxr, (he.invoked x hx).2.1⟩
      · rw [hxk]
        exact lt_length_of_some hpend.invoke
      · exact ⟨i, hxk ▸ getElem?_append_of_some hpend.invoke⟩
      · exact ⟨r', by simp⟩
      · intro l f hl hlj hf
        rcases getElem?_append_cases hf with hf | ⟨rfl, -⟩
        · exact hpend.quiet l f (hxk ▸ hl) hf
        · omega
  · intro t'
    by_cases htt : t' = t
    · subst htt
      rw [Function.update_self]
      trivial
    · rw [Function.update_of_ne htt]
      exact (he.status t').append (Ne.symm htt)

end rules

/-- A history that can be explained is linearizable. -/
theorem Tracks.linearizable (ht : Tracks O h a st) : Linearizable O h := by
  obtain ⟨L, he⟩ := ht
  refine ⟨L.map LinPoint.toPerformed, a, ?_, ?_, ?_, ?_, he.performs⟩
  · rw [List.map_map]
    exact List.pairwise_map.mpr he.distinct
  · intro x hx
    obtain ⟨y, hy, rfl⟩ := List.mem_map.mp hx
    exact (he.invoked y hy).2.2
  · intro j t r hj
    obtain ⟨x, hx, hans, hout, -⟩ := he.answered j t r hj
    exact ⟨x.toPerformed, List.mem_map_of_mem hx, hans, hout⟩
  · refine List.pairwise_map.mpr (he.sorted.imp_of_mem ?_)
    rintro x y hx hy hle ⟨t, j, hans, hlt⟩
    -- `y` was performed before it responded, `x` after it was invoked
    obtain ⟨r, hr⟩ := hans.respond
    obtain ⟨z, hz, hans', -, htime⟩ := he.answered j t r hr
    have hzy : z.inv = y.inv := hans'.unique hans
    have hnd : (L.map fun x => x.inv).Nodup := List.pairwise_map.mpr he.distinct
    obtain rfl : z = y := List.inj_on_of_nodup_map hnd hz hy hzy
    have := (he.invoked x hx).1
    omega

end lemmas

end Rtipc
