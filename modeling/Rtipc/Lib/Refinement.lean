/-
  Refinement of what an observer sees.

  The abstract level is a relation `move`: from `a` to `a'`, with what is seen of it.  `Path` are its
  sequences.  A machine `Refines` it by the relation `R` if each step is matched by one move that looks
  the same, a move that nobody sees if nothing is seen of the step.  Then whatever is seen of a run of
  the machine is seen of a path (`Refines.path`), so what holds of all paths holds of the machine.
-/
import Rtipc.Lib.Machine

namespace Rtipc

section refinement

variable {σ ε ω τ η : Type}

/-- What is seen of a sequence of moves, and where it ends. -/
inductive Path (start : τ → Prop) (move : τ → List η → τ → Prop) : List η → τ → Prop where
  | start {a : τ} (h : start a) : Path start move [] a
  | move {h seen : List η} {a a' : τ} (hp : Path start move h a) (hm : move a seen a') :
      Path start move (h ++ seen) a'

/-- What holds at the start and is kept by every move. -/
theorem Path.invariant {start : τ → Prop} {move : τ → List η → τ → Prop} {I : List η → τ → Prop}
    (hstart : ∀ a, start a → I [] a)
    (hmove : ∀ h a seen a', I h a → move a seen a' → I (h ++ seen) a')
    {h : List η} {a : τ} (hp : Path start move h a) : I h a := by
  induction hp with
  | start ha => exact hstart _ ha
  | move _ hm ih => exact hmove _ _ _ _ ih hm

/-- The machine `S`, seen through `obs`, is related to the abstract level step by step. -/
structure Refines (S : Machine σ ε ω) (ok : σ → ε → Prop) (obs : σ → ε → σ → ω → List η)
    (start : τ → Prop) (move : τ → List η → τ → Prop) (R : σ → τ → Prop) : Prop where
  init : ∀ s, S.init s → ∃ a, start a ∧ R s a
  step : ∀ s a e s' o, R s a → ok s e → S.step s e = some (s', o) →
    ∃ a', move a (obs s e s' o) a' ∧ R s' a'

/-- An observed run of the machine is a path of the abstract system. The induction is on the run, one
    `move` for each step. -/
theorem Refines.path {S : Machine σ ε ω} {ok : σ → ε → Prop} {obs : σ → ε → σ → ω → List η}
    {start : τ → Prop} {move : τ → List η → τ → Prop} {R : σ → τ → Prop}
    (h : Refines S ok obs start move R) {seen : List η} {s : σ} (hr : S.Observed ok obs seen s) :
    ∃ a, Path start move seen a ∧ R s a := by
  refine hr.invariant (I := fun seen s => ∃ a, Path start move seen a ∧ R s a) ?_ ?_
  · intro s hinit
    obtain ⟨a, ha, hR⟩ := h.init s hinit
    exact ⟨a, .start ha, hR⟩
  · rintro seen s e s' o ⟨a, hp, hR⟩ hok hs
    obtain ⟨a', hm, hR'⟩ := h.step s a e s' o hR hok hs
    exact ⟨a', hp.move hm, hR'⟩

end refinement

end Rtipc
