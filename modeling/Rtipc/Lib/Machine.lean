/-
  State machines and their runs.

  A `Machine` has initial states and a partial step function: in state `s` the event `e` either cannot
  happen, or leads to a new state with an outcome that an observer sees.  A run is recorded as the
  list of its events with their outcomes.  `Run ok tr s` says that the trace `tr` leads from an
  initial state to `s` through steps that all satisfy `ok`, a condition on the event and the state it
  happens in; `always` is no condition.

  `Run.invariant` is the induction on runs every invariant proof goes through.  `exec` runs a given
  list of events, so that a concrete run can be evaluated.
-/
import Mathlib.Init

namespace Rtipc

/-- A state machine with events `ε` and outcomes `ω`. -/
structure Machine (σ ε ω : Type) where
  init : σ → Prop
  step : σ → ε → Option (σ × ω)

namespace Machine

variable {σ ε ω : Type} (S : Machine σ ε ω)

/-- No condition on the steps of a run. -/
def always : σ → ε → Prop := fun _ _ => True

instance (s : σ) (e : ε) : Decidable (always s e) := isTrue trivial

/-- The runs all of whose steps satisfy `ok`, with their traces. -/
inductive Run (ok : σ → ε → Prop) : List (ε × ω) → σ → Prop where
  | init {s : σ} (h : S.init s) : Run ok [] s
  | step {tr : List (ε × ω)} {s s' : σ} {e : ε} {o : ω} (hr : Run ok tr s) (hok : ok s e)
      (hs : S.step s e = some (s', o)) : Run ok (tr ++ [(e, o)]) s'

variable {S} {ok ok' : σ → ε → Prop} {tr : List (ε × ω)} {s : σ}

/-- What holds initially and is preserved by every step that satisfies `ok` holds in every state that
    a run reaches. -/
theorem Run.invariant {I : σ → Prop} (hinit : ∀ s, S.init s → I s)
    (hstep : ∀ s e s' o, I s → ok s e → S.step s e = some (s', o) → I s')
    (hr : S.Run ok tr s) : I s := by
  induction hr with
  | init h => exact hinit _ h
  | step _ hok hs ih => exact hstep _ _ _ _ ih hok hs

/-- The same for a property of the trace and the state together. -/
theorem Run.invariant_trace {I : List (ε × ω) → σ → Prop} (hinit : ∀ s, S.init s → I [] s)
    (hstep : ∀ tr s e s' o, I tr s → ok s e → S.step s e = some (s', o) → I (tr ++ [(e, o)]) s')
    (hr : S.Run ok tr s) : I tr s := by
  induction hr with
  | init h => exact hinit _ h
  | step _ hok hs ih => exact hstep _ _ _ _ _ ih hok hs

/-- A run under a condition is a run under a weaker one. -/
theorem Run.mono (h : ∀ s e, ok s e → ok' s e) (hr : S.Run ok tr s) : S.Run ok' tr s := by
  induction hr with
  | init h0 => exact Run.init h0
  | step _ hok hs ih => exact Run.step ih (h _ _ hok) hs

/-- The last step of a run. -/
theorem Run.last {s' : σ} {e : ε} {o : ω} (hr : S.Run ok (tr ++ [(e, o)]) s') :
    ∃ s, S.Run ok tr s ∧ ok s e ∧ S.step s e = some (s', o) := by
  generalize ht : tr ++ [(e, o)] = tr' at hr
  cases hr with
  | init h => simp at ht
  | step hr hok hs =>
    obtain ⟨rfl, heq⟩ := List.append_inj' ht rfl
    cases heq
    exact ⟨_, hr, hok, hs⟩

/-- Where there is one initial state, the trace of a run determines where it ends. -/
theorem Run.unique (hone : ∀ s t, S.init s → S.init t → s = t) {t : σ} (hr : S.Run ok tr s)
    (ht : S.Run ok' tr t) : s = t := by
  induction hr generalizing t with
  | init h =>
    generalize hnil : ([] : List (ε × ω)) = tr' at ht
    cases ht with
    | init h' => exact hone _ _ h h'
    | step => simp at hnil
  | step _ _ hs ih =>
    obtain ⟨t', ht', -, hs'⟩ := ht.last
    rw [ih ht', hs'] at hs
    cases hs
    rfl

/-! ## What an observer sees

  A step may log something.  The log of a run is what its steps have logged, in their order. -/

variable (S) in
/-- The runs with what an observer records of each step. -/
inductive Observed {η : Type} (ok : σ → ε → Prop) (obs : σ → ε → σ → ω → List η) :
    List η → σ → Prop where
  | init {s : σ} (h : S.init s) : Observed ok obs [] s
  | step {h : List η} {s s' : σ} {e : ε} {o : ω} (hr : Observed ok obs h s) (hok : ok s e)
      (hs : S.step s e = some (s', o)) : Observed ok obs (h ++ obs s e s' o) s'

/-- The observed runs are runs. -/
theorem Observed.run {η : Type} {obs : σ → ε → σ → ω → List η} {h : List η}
    (ho : S.Observed ok obs h s) : ∃ tr, S.Run ok tr s := by
  induction ho with
  | init h0 => exact ⟨[], Run.init h0⟩
  | step _ hok hs ih =>
    obtain ⟨tr, hr⟩ := ih
    exact ⟨_, Run.step hr hok hs⟩

/-- A run under a condition is one under any weaker condition. -/
theorem Observed.mono {η : Type} {obs : σ → ε → σ → ω → List η} {h : List η}
    (hok : ∀ s e, ok s e → ok' s e) (ho : S.Observed ok obs h s) : S.Observed ok' obs h s := by
  induction ho with
  | init h0 => exact Observed.init h0
  | step _ hs' hs ih => exact Observed.step ih (hok _ _ hs') hs

/-- What holds initially and is preserved by every step, for what has been recorded and the state. -/
theorem Observed.invariant {η : Type} {obs : σ → ε → σ → ω → List η} {h : List η}
    {I : List η → σ → Prop} (hinit : ∀ s, S.init s → I [] s)
    (hstep : ∀ h s e s' o, I h s → ok s e → S.step s e = some (s', o) → I (h ++ obs s e s' o) s')
    (ho : S.Observed ok obs h s) : I h s := by
  induction ho with
  | init h0 => exact hinit _ h0
  | step _ hok hs ih => exact hstep _ _ _ _ _ ih hok hs

/-! ## What follows a state -/

/-- The same machine, started in `s₀`. -/
def start (S : Machine σ ε ω) (s₀ : σ) : Machine σ ε ω where
  init s := s = s₀
  step := S.step

variable (S) in
/-- A run can go on from `s` to `s'`, all steps satisfying `ok`. -/
inductive Leads (ok : σ → ε → Prop) (s : σ) : σ → Prop where
  | refl : Leads ok s s
  | step {t t' : σ} {e : ε} {o : ω} (hl : Leads ok s t) (hok : ok t e)
      (hs : S.step t e = some (t', o)) : Leads ok s t'

/-- A step in front. -/
theorem Leads.head {t s' : σ} {e : ε} {o : ω} (hok : ok s e) (hs : S.step s e = some (t, o))
    (hl : S.Leads ok t s') : S.Leads ok s s' := by
  induction hl with
  | refl => exact Leads.step .refl hok hs
  | step _ hok' hs' ih => exact Leads.step ih hok' hs'

/-- What a run leads to is reached by a run. -/
theorem Leads.run {s' : σ} (hl : S.Leads ok s s') (hr : S.Run ok tr s) :
    ∃ tr', S.Run ok (tr ++ tr') s' := by
  induction hl with
  | refl => exact ⟨[], by rwa [List.append_nil]⟩
  | step _ hok hs ih =>
    obtain ⟨tr', hr'⟩ := ih
    exact ⟨tr' ++ [_], by rw [← List.append_assoc]; exact Run.step hr' hok hs⟩

/-- What holds of a state and is preserved by every step that satisfies `ok` holds of all states it
    leads to. -/
theorem Leads.invariant {s' : σ} {I : σ → Prop}
    (hstep : ∀ t e t' o, I t → ok t e → S.step t e = some (t', o) → I t')
    (hl : S.Leads ok s s') (h0 : I s) : I s' := by
  induction hl with
  | refl => exact h0
  | step _ hok hs ih => exact hstep _ _ _ _ ih hok hs

/-- A reflexive and transitive relation that holds across every step of a run holds between any two
    states of it. -/
theorem Leads.relation {s' : σ} {P : σ → σ → Prop} (hrefl : ∀ s, P s s)
    (htrans : ∀ s t u, P s t → P t u → P s u)
    (hstep : ∀ tr t e t' o, S.Run ok tr t → ok t e → S.step t e = some (t', o) → P t t')
    (hr : S.Run ok tr s) (hl : S.Leads ok s s') : P s s' := by
  induction hl with
  | refl => exact hrefl s
  | step hl hok hs ih =>
    obtain ⟨tr', hr'⟩ := hl.run hr
    exact htrans _ _ _ ih (hstep _ _ _ _ _ hr' hok hs)

section alone

variable [DecidableEq ε]

/-- The number of steps `e` in a trace. -/
def stepsOf (e : ε) (tr : List (ε × ω)) : Nat := tr.countP fun x => x.1 = e

/-- The steps of `e` are counted one by one. -/
theorem stepsOf_append {e e' : ε} {o : ω} :
    stepsOf e (tr ++ [(e', o)]) = stepsOf e tr + if e' = e then 1 else 0 := by
  rw [stepsOf, List.countP_append, List.countP_singleton]
  simp only [decide_eq_true_eq]
  rfl

/-- Who makes a bounded number of steps in every run, and can always make the next one until `P` holds,
    brings `P` about alone. -/
theorem Run.alone {P : σ → Prop} {e : ε} {bound : Nat}
    (hbound : ∀ tr s, S.Run ok tr s → stepsOf e tr ≤ bound)
    (hstep : ∀ tr s, S.Run ok tr s → ¬ P s → ok s e ∧ ∃ s' o, S.step s e = some (s', o))
    (hr : S.Run ok tr s) : ∃ s', S.Leads (fun _ e' => e' = e) s s' ∧ P s' := by
  have hgo : ∀ k, (∃ s', S.Leads (fun _ e' => e' = e) s s' ∧ P s') ∨
      ∃ tr' s', S.Run ok tr' s' ∧ S.Leads (fun _ e' => e' = e) s s' ∧ k ≤ stepsOf e tr' := by
    intro k
    induction k with
    | zero => exact Or.inr ⟨tr, s, hr, .refl, Nat.zero_le _⟩
    | succ k ih =>
      rcases ih with hdone | ⟨tr', s', hr', hl, hk⟩
      · exact Or.inl hdone
      · by_cases hP : P s'
        · exact Or.inl ⟨s', hl, hP⟩
        · obtain ⟨hok, t, o, hs⟩ := hstep _ _ hr' hP
          refine Or.inr ⟨_, t, .step hr' hok hs, .step hl rfl hs, ?_⟩
          rw [stepsOf_append, if_pos rfl]
          exact Nat.succ_le_succ hk
  rcases hgo (bound + 1) with hdone | ⟨tr', s', hr', -, hk⟩
  · exact hdone
  · exact absurd (hbound _ _ hr') (Nat.not_le.mpr hk)

end alone

/-! ## Concrete runs -/

/-- Run the events in order, as long as each can happen and satisfies `ok`. -/
def exec (S : Machine σ ε ω) (ok : σ → ε → Prop) [∀ s e, Decidable (ok s e)] :
    List ε → List (ε × ω) × σ → Option (List (ε × ω) × σ)
  | [], ts => some ts
  | e :: es, (tr, s) =>
    if ok s e then
      match S.step s e with
      | some (s', o) => exec S ok es (tr ++ [(e, o)], s')
      | none => none
    else none

/-- What the executable version of a run computes is a run. -/
theorem Run.exec [∀ s e, Decidable (ok s e)] {es : List ε} {tr' : List (ε × ω)} {s' : σ}
    (hr : S.Run ok tr s) (h : S.exec ok es (tr, s) = some (tr', s')) : S.Run ok tr' s' := by
  induction es generalizing tr s with
  | nil =>
    obtain ⟨rfl, rfl⟩ := Prod.mk.inj (Option.some.inj h)
    exact hr
  | cons e es ih =>
    unfold Machine.exec at h
    split at h
    · rename_i hok
      split at h
      · rename_i t o hs
        exact ih (Run.step hr hok hs) h
      · cases h
    · cases h

/-- A run of the events `es` whose end passes the test `q`. -/
theorem exists_run (S : Machine σ ε ω) (ok : σ → ε → Prop) [∀ s e, Decidable (ok s e)] {s₀ : σ}
    (hinit : S.init s₀) (es : List ε) (q : List (ε × ω) → σ → Bool)
    (h : (S.exec ok es ([], s₀)).any (fun ts => q ts.1 ts.2) = true) :
    ∃ tr s, S.Run ok tr s ∧ q tr s = true := by
  cases hexec : S.exec ok es ([], s₀) with
  | none =>
    rw [hexec] at h
    cases h
  | some ts =>
    rw [hexec] at h
    exact ⟨ts.1, ts.2, (Run.init hinit).exec hexec, h⟩

/-- A test of what the event leads to. -/
def leadsTo (S : Machine σ ε ω) (s : σ) (e : ε) (q : σ → ω → Bool) : Bool :=
  (S.step s e).any fun y => q y.1 y.2

/-- What a test of the next step finds. -/
theorem exists_step {e : ε} {q : σ → ω → Bool} (h : S.leadsTo s e q = true) :
    ∃ s' o, S.step s e = some (s', o) ∧ q s' o = true := by
  rw [leadsTo, Option.any_eq_true] at h
  obtain ⟨⟨s', o⟩, hs, h⟩ := h
  exact ⟨s', o, hs, h⟩

/-- The same, with what an observer records. -/
def record {η : Type} (S : Machine σ ε ω) (ok : σ → ε → Prop) [∀ s e, Decidable (ok s e)]
    (obs : σ → ε → σ → ω → List η) : List ε → List η × σ → Option (List η × σ)
  | [], hs => some hs
  | e :: es, (h, s) =>
    if ok s e then
      match S.step s e with
      | some (s', o) => record S ok obs es (h ++ obs s e s' o, s')
      | none => none
    else none

/-- What the executable version of an observed run computes is an observed run. -/
theorem Observed.record {η : Type} [∀ s e, Decidable (ok s e)] {obs : σ → ε → σ → ω → List η}
    {es : List ε} {h h' : List η} {s' : σ} (hr : S.Observed ok obs h s)
    (hrec : S.record ok obs es (h, s) = some (h', s')) : S.Observed ok obs h' s' := by
  induction es generalizing h s with
  | nil =>
    obtain ⟨rfl, rfl⟩ := Prod.mk.inj (Option.some.inj hrec)
    exact hr
  | cons e es ih =>
    unfold Machine.record at hrec
    split at hrec
    · rename_i hok
      split at hrec
      · rename_i t o hs
        exact ih (Observed.step hr hok hs) hrec
      · cases hrec
    · cases hrec

end Machine

end Rtipc
