/-
  Machines side by side on one state.

  The events of the machine say which of its components makes the step.  `Parts` relates its states to
  the states of a machine of its own for each component: a step of a component is a step of its machine,
  and the other components stay related as they were.  Then each run is, for each component, a run of
  its machine (`Parts.run`), so what holds in the runs of these machines holds in the runs of the whole.
-/
import Rtipc.Lib.Machine

namespace Rtipc

section interleaving

variable {ι ε ω σ τ : Type} [DecidableEq ι]

/-- What the trace tells of the component `i`. -/
def traceOf (i : ι) (tr : List ((ι × ε) × ω)) : List (ε × ω) :=
  tr.filterMap fun eo => if eo.1.1 = i then some (eo.1.2, eo.2) else none

/-- A step of `i` is one more in the trace of `i`. -/
theorem traceOf_self (tr : List ((ι × ε) × ω)) (i : ι) (e : ε) (o : ω) :
    traceOf i (tr ++ [((i, e), o)]) = traceOf i tr ++ [(e, o)] := by
  simp only [traceOf, List.filterMap_append, List.filterMap_cons, List.filterMap_nil, if_true]

/-- And none in the trace of another one. -/
theorem traceOf_other (tr : List ((ι × ε) × ω)) {i j : ι} (h : i ≠ j) (e : ε) (o : ω) :
    traceOf j (tr ++ [((i, e), o)]) = traceOf j tr := by
  simp only [traceOf, List.filterMap_append, List.filterMap_cons, List.filterMap_nil, if_neg h,
    List.append_nil]

/-- In the states of `S` there is, for each component `i`, a state of `T i`.  The steps of `S` are those
    that satisfy `ok`, and those of `T i` satisfy `okPart i`. -/
structure Parts (S : Machine σ (ι × ε) ω) (ok : σ → ι × ε → Prop) (T : ι → Machine τ ε ω)
    (okPart : ι → τ → ε → Prop) (shows : σ → ι → τ → Prop) : Prop where
  init : ∀ s, S.init s → ∀ i, ∃ t, (T i).init t ∧ shows s i t
  allows : ∀ s i e t, shows s i t → ok s (i, e) → okPart i t e
  /-- A step of a component is a step of its machine. -/
  step : ∀ s i e s' o tr t, S.step s (i, e) = some (s', o) → (T i).Run (okPart i) tr t → shows s i t →
    ∃ t', (T i).step t e = some (t', o) ∧ shows s' i t'
  /-- It does not concern the others. -/
  frame : ∀ s i e s' o tr t j u, S.step s (i, e) = some (s', o) → (T i).Run (okPart i) tr t →
    shows s i t → i ≠ j → shows s j u → shows s' j u

/-- A run of the whole is a run of each component. -/
theorem Parts.run {S : Machine σ (ι × ε) ω} {ok : σ → ι × ε → Prop} {T : ι → Machine τ ε ω}
    {okPart : ι → τ → ε → Prop} {shows : σ → ι → τ → Prop} (h : Parts S ok T okPart shows)
    {tr : List ((ι × ε) × ω)} {s : σ} (hr : S.Run ok tr s) (i : ι) :
    ∃ t, (T i).Run (okPart i) (traceOf i tr) t ∧ shows s i t := by
  refine hr.invariant_trace (I := fun tr s => ∀ i, ∃ t, (T i).Run (okPart i) (traceOf i tr) t ∧
    shows s i t) ?_ ?_ i
  · intro s hinit i
    obtain ⟨t, ht, hshows⟩ := h.init s hinit i
    exact ⟨t, .init ht, hshows⟩
  · rintro tr s ⟨j, e⟩ s' o ih hok hs i
    obtain ⟨t, ht, hshows⟩ := ih j
    by_cases hij : j = i
    · subst hij
      obtain ⟨t', hstep, hshows'⟩ := h.step s j e s' o _ t hs ht hshows
      refine ⟨t', ?_, hshows'⟩
      rw [traceOf_self]
      exact .step ht (h.allows s j e t hshows hok) hstep
    · obtain ⟨u, hu, hshowsOther⟩ := ih i
      refine ⟨u, ?_, h.frame s j e s' o _ t i u hs ht hshows hij hshowsOther⟩
      rw [traceOf_other tr hij]
      exact hu

end interleaving

end Rtipc
