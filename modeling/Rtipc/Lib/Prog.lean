/-
  Programs over atomic operations.

  A `Prog Op Ans α` is a piece of sequential code that talks to the outside only through atomic
  operations `o : Op`, each answered by a value of `Ans o`, and that finally returns an `α`.  The
  code of one thread is written once, in `do` notation, and is then given three readings:

  * `Prog.step`   — one atomic operation at a time against a shared memory (interleaving);
  * `Prog.run`    — from start to end against a memory nobody else touches (sequential);
  * `Prog.Always` — against arbitrary answers, one at each access (a hostile environment).

  `fault` stands for undefined behaviour, such as an array access out of bounds.
-/
import Mathlib.Init

namespace Rtipc

/-- Sequential code over the atomic operations `Op`, whose answers are `Ans o`. -/
inductive Prog (Op : Type) (Ans : Op → Type) (α : Type) : Type where
  | ret (a : α)
  | act (o : Op) (k : Ans o → Prog Op Ans α)
  | fault

namespace Prog

variable {Op : Type} {Ans : Op → Type} {M α β γ : Type}

/-- Sequencing: run the first program, hand its result to the second. -/
def bind : Prog Op Ans α → (α → Prog Op Ans β) → Prog Op Ans β
  | ret a, f => f a
  | act o k, f => act o fun r => (k r).bind f
  | fault, _ => fault

instance : Monad (Prog Op Ans) where
  pure := ret
  bind := bind

/-- The program that performs one operation and returns its answer. -/
def perform (o : Op) : Prog Op Ans (Ans o) := act o ret

/-- A value returned. -/
@[simp] theorem pure_eq (a : α) : (pure a : Prog Op Ans α) = ret a := rfl

@[simp] theorem ret_bind (a : α) (f : α → Prog Op Ans β) : (ret a >>= f) = f a := rfl

/-- What comes after an operation comes after its answer. -/
@[simp] theorem act_bind (o : Op) (k : Ans o → Prog Op Ans α) (f : α → Prog Op Ans β) :
    (act o k >>= f) = act o fun r => k r >>= f := rfl

/-- Nothing comes after a fault. -/
@[simp] theorem fault_bind (f : α → Prog Op Ans β) : ((fault : Prog Op Ans α) >>= f) = fault := rfl

@[simp] theorem perform_bind (o : Op) (f : Ans o → Prog Op Ans β) :
    (perform o >>= f) = act o f := rfl

/-- Code in sequence does not depend on how it is bracketed. -/
theorem bind_assoc (x : Prog Op Ans α) (f : α → Prog Op Ans β) (g : β → Prog Op Ans γ) :
    ((x >>= f) >>= g) = x >>= fun a => f a >>= g := by
  induction x with
  | ret a => rfl
  | act o k ih => exact congrArg (act o) (funext ih)
  | fault => rfl

/-! ## Inside a larger set of operations

  A program that is written for a part of the operations runs unchanged among more of them. -/

/-- The same program, its operations among those of a larger set. -/
def lift {Op' : Type} {A : Op' → Type} (e : Op → Op') :
    Prog Op (fun o => A (e o)) α → Prog Op' A α
  | ret a => ret a
  | act o k => act (e o) fun r => (k r).lift e
  | fault => fault

/-- A lifted sequence is the sequence of the lifted parts. -/
theorem lift_bind {Op' : Type} {A : Op' → Type} (e : Op → Op')
    (x : Prog Op (fun o => A (e o)) α) (f : α → Prog Op (fun o => A (e o)) β) :
    (x >>= f).lift e = x.lift e >>= fun a => (f a).lift e := by
  induction x with
  | ret a => rfl
  | act o k ih => exact congrArg (act (e o)) (funext ih)
  | fault => rfl

/-! ## Against a shared memory, one operation at a time

  `step` performs the next operation and leaves the rest of the program; what others do in between is
  up to the system that calls it. -/

/-- One atomic operation of the program on the memory; nothing if the program has returned or
    has run into undefined behaviour. -/
def step (exec : (o : Op) → M → Ans o × M) : Prog Op Ans α → M → Option (Prog Op Ans α × M)
  | act o k, m => some (k (exec o m).1, (exec o m).2)
  | ret _, _ => none
  | fault, _ => none

/-- One operation executed. -/
@[simp] theorem step_act (exec : (o : Op) → M → Ans o × M) (o : Op)
    (k : Ans o → Prog Op Ans α) (m : M) :
    (act o k).step exec m = some (k (exec o m).1, (exec o m).2) := rfl

/-- A program that has returned makes no step. -/
@[simp] theorem step_ret (exec : (o : Op) → M → Ans o × M) (a : α) (m : M) :
    (ret a : Prog Op Ans α).step exec m = none := rfl

/-- Nor does one that has faulted. -/
@[simp] theorem step_fault (exec : (o : Op) → M → Ans o × M) (m : M) :
    (fault : Prog Op Ans α).step exec m = none := rfl

/-! ## Against a memory of its own, from start to end

  `run` is the same program with nobody else on the memory. -/

/-- The whole program on a memory that nobody else touches. -/
def run (exec : (o : Op) → M → Ans o × M) : Prog Op Ans α → M → Option (α × M)
  | ret a, m => some (a, m)
  | act o k, m => (k (exec o m).1).run exec (exec o m).2
  | fault, _ => none

/-- A whole run executes operation after operation. -/
@[simp] theorem run_ret (exec : (o : Op) → M → Ans o × M) (a : α) (m : M) :
    (ret a : Prog Op Ans α).run exec m = some (a, m) := rfl

@[simp] theorem run_act (exec : (o : Op) → M → Ans o × M) (o : Op)
    (k : Ans o → Prog Op Ans α) (m : M) :
    (act o k).run exec m = (k (exec o m).1).run exec (exec o m).2 := rfl

/-- A sequence runs its first part, and then its second part on the memory that is left. -/
theorem run_bind (exec : (o : Op) → M → Ans o × M) (x : Prog Op Ans α)
    (f : α → Prog Op Ans β) (m : M) :
    (x >>= f).run exec m = (x.run exec m).bind fun am => (f am.1).run exec am.2 := by
  induction x generalizing m with
  | ret a => rfl
  | act o k ih => exact ih (exec o m).1 (exec o m).2
  | fault => rfl

/-! ## What a program returns, whatever the answers

  `Always` is a postcondition under an assumption on the answers.  It is what remains of a Hoare
  triple if the memory is not to be trusted. -/

/-- Every result the program can return satisfies `Q`. -/
def Ensures (Q : α → Prop) : Prog Op Ans α → Prop
  | ret a => Q a
  | act _ k => ∀ r, (k r).Ensures Q
  | fault => True

/-- Code that says nothing of its result ensures nothing. -/
theorem ensures_true (x : Prog Op Ans α) : x.Ensures fun _ => True := by
  induction x with
  | ret a => trivial
  | act o k ih => exact ih
  | fault => trivial

/-- What is ensured may be weakened. -/
theorem Ensures.mono {P Q : α → Prop} {x : Prog Op Ans α} (h : x.Ensures P) (hPQ : ∀ a, P a → Q a) :
    x.Ensures Q := by
  induction x with
  | ret a => exact hPQ a h
  | act o k ih => exact fun r => ih r (h r)
  | fault => trivial

/-- The rule for a sequence: the second part may rely on what the first one ensures. -/
theorem Ensures.bind {P : α → Prop} {Q : β → Prop} {x : Prog Op Ans α} {f : α → Prog Op Ans β}
    (h : x.Ensures P) (hf : ∀ a, P a → (f a).Ensures Q) : (x >>= f).Ensures Q := by
  induction x with
  | ret a => exact hf a h
  | act o k ih => exact fun r => ih r (h r)
  | fault => trivial

/-- A run that ends has a result as ensured. -/
theorem Ensures.run {Q : α → Prop} {x : Prog Op Ans α} (h : x.Ensures Q)
    {exec : (o : Op) → M → Ans o × M} {m m' : M} {a : α} (hr : x.run exec m = some (a, m')) : Q a := by
  induction x generalizing m with
  | ret b =>
    cases hr
    exact h
  | act o k ih => exact ih _ (h _) hr
  | fault => cases hr

/-! ## How long a program runs, whatever the answers

  `Within` bounds the number of operations on every path. -/

/-- The program makes at most `k` operations. -/
def Within : Prog Op Ans α → Nat → Prop
  | ret _, _ => True
  | act _ f, k => 0 < k ∧ ∀ r, (f r).Within (k - 1)
  | fault, _ => True

/-- One operation more than what follows it, whatever it answers. -/
theorem within_act {o : Op} {f : Ans o → Prog Op Ans α} {k : Nat} (h : ∀ r, (f r).Within k) :
    (act o f).Within (k + 1) := ⟨Nat.succ_pos k, h⟩

/-- The same for an operation whose answer is used. -/
theorem within_perform {o : Op} {f : Ans o → Prog Op Ans α} {k : Nat} (h : ∀ r, (f r).Within k) :
    (perform o >>= f).Within (k + 1) := within_act h

/-- A larger bound is a bound. -/
theorem Within.mono {x : Prog Op Ans α} {j k : Nat} (h : x.Within j) (hle : j ≤ k) : x.Within k := by
  induction x generalizing j k with
  | ret a => trivial
  | act o f ih =>
    obtain ⟨hj, hf⟩ := h
    exact ⟨Nat.lt_of_lt_of_le hj hle, fun r => ih r (hf r) (Nat.sub_le_sub_right hle 1)⟩
  | fault => trivial

/-- The bounds of a sequence add up. -/
theorem Within.bind {x : Prog Op Ans α} {f : α → Prog Op Ans β} {j k : Nat} (h : x.Within j)
    (hf : ∀ a, (f a).Within k) : (x >>= f).Within (j + k) := by
  induction x generalizing j with
  | ret a => exact (hf a).mono (Nat.le_add_left k j)
  | act o g ih =>
    obtain ⟨hj, hg⟩ := h
    refine ⟨Nat.add_pos_left hj k, ?_⟩
    intro r
    exact (ih r (hg r)).mono (by omega)
  | fault => trivial

/-- What only makes a result of the result. -/
theorem Within.bind_ret {x : Prog Op Ans α} {g : α → β} {k : Nat} (h : x.Within k) :
    (x >>= fun a => ret (g a)).Within k :=
  (h.bind fun a => show (ret (g a)).Within 0 from trivial).mono (Nat.le_of_eq (Nat.add_zero k))

/-- Lifted code makes as many operations. -/
theorem Within.lift {Op' : Type} {A : Op' → Type} (e : Op → Op')
    {x : Prog Op (fun o => A (e o)) α} {k : Nat} (h : x.Within k) :
    (x.lift e : Prog Op' A α).Within k := by
  induction x generalizing k with
  | ret a => trivial
  | act o f ih =>
    obtain ⟨hk, hf⟩ := h
    exact ⟨hk, fun r => ih r (hf r)⟩
  | fault => trivial

/-! ## Threads -/

/-- The operation the program performs next, if it is at one. -/
def nextOp : Prog Op Ans α → Option Op
  | act o _ => some o
  | ret _ => none
  | fault => none

end Prog

/-- The end of a pass through the body of a `for (;;)`: go round again, or return. -/
inductive Loop (ρ : Type) where
  | again
  | done (r : ρ)
  deriving DecidableEq, Repr

/-- The passes of a `for (;;)` on a memory that nobody else touches, from the private state `s` until one
    of them returns; nothing if the first `k` passes do not return. -/
def Prog.runLoop {Op : Type} {Ans : Op → Type} {M σ ρ : Type} (exec : (o : Op) → M → Ans o × M)
    (pass : σ → Prog Op Ans (σ × Loop ρ)) : Nat → σ → M → Option ((σ × ρ) × M)
  | 0, _, _ => none
  | k + 1, s, m => ((pass s).run exec m).bind fun y =>
    match y.1.2 with
    | .done r => some ((y.1.1, r), y.2)
    | .again => Prog.runLoop exec pass k y.1.1 y.2

section runLoop

variable {Op : Type} {Ans : Op → Type} {M σ ρ : Type} {exec : (o : Op) → M → Ans o × M}
  {pass : σ → Prog Op Ans (σ × Loop ρ)} {k : Nat} {s s' : σ} {m m' : M} {r : ρ}

/-- A pass that wants another one uses up one pass. -/
theorem Prog.runLoop_again (h : (pass s).run exec m = some ((s', .again), m')) :
    Prog.runLoop exec pass (k + 1) s m = Prog.runLoop exec pass k s' m' := by
  rw [Prog.runLoop, h]
  rfl

/-- A pass that is done ends the loop. -/
theorem Prog.runLoop_done (h : (pass s).run exec m = some ((s', .done r), m')) :
    Prog.runLoop exec pass (k + 1) s m = some ((s', r), m') := by
  rw [Prog.runLoop, h]
  rfl

/-- What every pass preserves holds when the loop returns. -/
theorem Prog.runLoop_invariant {I : σ → M → Prop}
    (hpass : ∀ s m s' l m', I s m → (pass s).run exec m = some ((s', l), m') → I s' m')
    (h : Prog.runLoop exec pass k s m = some ((s', r), m')) (hI : I s m) : I s' m' := by
  induction k generalizing s m with
  | zero => cases h
  | succ k ih =>
    obtain ⟨⟨⟨s₁, l⟩, m₁⟩, hrun, h⟩ := Option.bind_eq_some_iff.mp h
    have hI' := hpass _ _ _ _ _ hI hrun
    cases l with
    | again => exact ih h hI'
    | done r' =>
      cases h
      exact hI'

/-- However many passes are allowed, the loop returns the same. -/
theorem Prog.runLoop_unique {j : Nat} {y z : (σ × ρ) × M} (hy : Prog.runLoop exec pass k s m = some y)
    (hz : Prog.runLoop exec pass j s m = some z) : y = z := by
  induction k generalizing j s m with
  | zero => cases hy
  | succ k ih =>
    cases j with
    | zero => cases hz
    | succ j =>
      obtain ⟨⟨⟨s₁, l⟩, m₁⟩, hrun, hy⟩ := Option.bind_eq_some_iff.mp hy
      obtain ⟨⟨⟨s₂, l'⟩, m₂⟩, hrun', hz⟩ := Option.bind_eq_some_iff.mp hz
      cases hrun.symm.trans hrun'
      cases l with
      | again => exact ih hy hz
      | done r => exact Option.some.inj (hy.symm.trans hz)

end runLoop

/-- A result seen through `f`. -/
def Loop.map {ρ ρ' : Type} (f : ρ → ρ') : Loop ρ → Loop ρ'
  | again => again
  | done r => done (f r)

/-- A thread with private state `σ`: between two calls, or inside the call `op` with what is left of
    its code. -/
inductive Thread (Op : Type) (Ans : Op → Type) (σ ι ρ : Type) : Type where
  | idle (s : σ)
  | busy (op : ι) (prog : Prog Op Ans (σ × ρ))

/-- The operation the thread performs next, if it is at one. -/
def Thread.nextOp {Op : Type} {Ans : Op → Type} {σ ι ρ : Type} :
    Thread Op Ans σ ι ρ → Option Op
  | idle _ => none
  | busy _ prog => prog.nextOp

section tests

variable {Op : Type} {Ans : Op → Type} {σ ι ρ : Type} {t : Thread Op Ans σ ι ρ}

/-- A test of the private state between two calls. -/
def Thread.idleAnd (t : Thread Op Ans σ ι ρ) (q : σ → Bool) : Bool :=
  match t with
  | idle s => q s
  | busy _ _ => false

/-- What a test of an idle thread finds. -/
theorem Thread.exists_idle {q : σ → Bool} (h : t.idleAnd q = true) : ∃ s, t = .idle s ∧ q s = true := by
  cases t with
  | idle s => exact ⟨s, rfl, h⟩
  | busy op prog => cases h

/-- Whether the thread is in the call `op`. -/
def Thread.isIn [DecidableEq ι] (t : Thread Op Ans σ ι ρ) (op : ι) : Bool :=
  match t with
  | idle _ => false
  | busy op' _ => decide (op' = op)

/-- What a test of a busy thread finds. -/
theorem Thread.exists_busy [DecidableEq ι] {op : ι} (h : t.isIn op = true) :
    ∃ prog, t = .busy op prog := by
  cases t with
  | idle s => cases h
  | busy op' prog =>
    obtain rfl := of_decide_eq_true h
    exact ⟨prog, rfl⟩

end tests

end Rtipc
