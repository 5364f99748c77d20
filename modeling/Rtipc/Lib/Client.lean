/-
  A thread among threads that may do anything.

  A `Client` calls its operations one after the other, and its environment answers every atomic
  operation with an arbitrary value.  The state of a client records, next to the thread itself, the
  private state at the begin of the call, the number of atomic operations performed in it, and the
  result of the call before.

  `Prog.Always R S Q` is what a single call guarantees: as long as the answers satisfy `R`, every
  operation satisfies `S`, nothing is undefined, and the result satisfies `Q`.  `Client.good_run`
  carries such guarantees over runs with any number of calls.
-/
import Rtipc.Lib.Machine
import Rtipc.Lib.Prog

namespace Rtipc

section always

variable {Op : Type} {Ans : Op → Type} {α β : Type}

/-- What a program guarantees, `k` operations into its call. -/
def Prog.Always (R : Nat → (o : Op) → Ans o → Prop) (S : Nat → Op → Prop) (Q : α → Prop) :
    Prog Op Ans α → Nat → Prop
  | ret a, _ => Q a
  | act o f, k => S k o ∧ ∀ r, R k o r → (f r).Always R S Q (k + 1)
  | fault, _ => False

namespace Prog

variable {R : Nat → (o : Op) → Ans o → Prop} {S : Nat → Op → Prop} {Q Q' : α → Prop} {k : Nat}

@[simp] theorem always_ret {a : α} : (ret a : Prog Op Ans α).Always R S Q k ↔ Q a := Iff.rfl

@[simp] theorem always_act {o : Op} {f : Ans o → Prog Op Ans α} :
    (act o f).Always R S Q k ↔ S k o ∧ ∀ r, R k o r → (f r).Always R S Q (k + 1) := Iff.rfl

/-- What holds of the result may be weakened. -/
theorem Always.mono {p : Prog Op Ans α} (hQ : ∀ a, Q a → Q' a) (h : p.Always R S Q k) :
    p.Always R S Q' k := by
  induction p generalizing k with
  | ret a => exact hQ a h
  | act o f ih => exact ⟨h.1, fun r hr => ih r (h.2 r hr)⟩
  | fault => exact h

/-- Sequencing: the first program leaves behind what the second one needs. -/
theorem Always.bind {p : Prog Op Ans α} {f : α → Prog Op Ans β} {Q : β → Prop}
    (h : p.Always R S (fun a => ∀ j, (f a).Always R S Q j) k) : (p >>= f).Always R S Q k := by
  induction p generalizing k with
  | ret a => exact h k
  | act o g ih => exact ⟨h.1, fun r hr => ih r (h.2 r hr)⟩
  | fault => exact h

end Prog

end always

/-- A thread in a hostile environment. -/
structure Client (Op : Type) (Ans : Op → Type) (σ ι ρ : Type) where
  thread : Thread Op Ans σ ι (Loop ρ)
  /-- The private state when the call began. -/
  start : σ
  /-- The operations performed in the call, or in this pass through its loop. -/
  accesses : Nat
  /-- The result of the last call that has returned. -/
  last : Option ρ

/-- What can happen to a client: it calls an operation, or its environment answers an access. -/
inductive ClientEvent (Op : Type) (Ans : Op → Type) (ι : Type) where
  | call (op : ι)
  | answer (o : Op) (r : Ans o)

section machine

variable {Op : Type} {Ans : Op → Type} {σ ι ρ : Type}

namespace Client

/-- The client has come to the point `prog` of the call `op`, after `k` operations. -/
def goTo (code : ι → σ → Prog Op Ans (σ × Loop ρ)) (c : Client Op Ans σ ι ρ) (op : ι) (k : Nat) :
    Prog Op Ans (σ × Loop ρ) → Client Op Ans σ ι ρ
  | .ret (s, .done r) => { c with thread := .idle s, accesses := k, last := some r }
  | .ret (s, .again) => { c with thread := .busy op (code op s), accesses := 0 }
  | prog => { c with thread := .busy op prog, accesses := k }

/-- An operation with an answer of the other side, or the start of the next call. -/
def step [DecidableEq Op] (code : ι → σ → Prog Op Ans (σ × Loop ρ)) (c : Client Op Ans σ ι ρ) :
    ClientEvent Op Ans ι → Option (Client Op Ans σ ι ρ × Unit)
  | .call op => match c.thread with
    | .idle s => some ({ c with start := s }.goTo code op 0 (code op s), ())
    | .busy _ _ => none
  | .answer o r => match c.thread with
    | .busy op (.act o' f) =>
      if h : o = o' then some (c.goTo code op (c.accesses + 1) (f (h ▸ r)), ()) else none
    | _ => none

/-- A client that has not called anything yet. -/
def fresh (s : σ) : Client Op Ans σ ι ρ :=
  { thread := .idle s, start := s, accesses := 0, last := none }

end Client

/-- A client, with `code op` the program of the call `op`, as a state machine. -/
def clientMachine [DecidableEq Op] (init : σ → Prop)
    (code : ι → σ → Prog Op Ans (σ × Loop ρ)) :
    Machine (Client Op Ans σ ι ρ) (ClientEvent Op Ans ι) Unit where
  init c := ∃ s, init s ∧ c = Client.fresh s
  step := Client.step code

/-- What a call that began in `s` leaves behind: `J`; or it has changed nothing and goes round again
    to the first access of `first`. -/
def Returns {α : Type} (J : σ → Option ρ → σ → Prop) (first : Prog Op Ans α) (s : σ) :
    σ × Loop ρ → Prop
  | (s', .done r) => J s (some r) s'
  | (s', .again) => s' = s ∧ first.nextOp ≠ none

/-- Between two calls `J` holds of the private state before the last call, its result and the private
    state now; in a call the rest of the code keeps its guarantees. -/
def Client.Good (code : ι → σ → Prog Op Ans (σ × Loop ρ)) (J : σ → Option ρ → σ → Prop)
    (may : Option ρ → Prop) (R : ι → σ → Nat → (o : Op) → Ans o → Prop)
    (S : ι → σ → Nat → Op → Prop) (c : Client Op Ans σ ι ρ) : Prop :=
  match c.thread with
  | .idle s => J c.start c.last s
  | .busy op prog => prog.nextOp ≠ none ∧ may c.last ∧ (∃ s₀, J s₀ c.last c.start) ∧
      prog.Always (R op c.start) (S op c.start) (Returns J (code op c.start) c.start) c.accesses

variable {code : ι → σ → Prog Op Ans (σ × Loop ρ)} {J : σ → Option ρ → σ → Prop}
  {may : Option ρ → Prop} {R : ι → σ → Nat → (o : Op) → Ans o → Prop}
  {S : ι → σ → Nat → Op → Prop} {c : Client Op Ans σ ι ρ}

/-- Every call that may be made keeps its guarantees from its first operation on. -/
def Guarantees (code : ι → σ → Prog Op Ans (σ × Loop ρ)) (J : σ → Option ρ → σ → Prop)
    (may : Option ρ → Prop) (R : ι → σ → Nat → (o : Op) → Ans o → Prop)
    (S : ι → σ → Nat → Op → Prop) : Prop :=
  ∀ op s₀ l s, J s₀ l s → may l →
    (code op s).Always (R op s) (S op s) (Returns J (code op s) s) 0

/-- Where the code stands after an operation it still keeps its guarantee. -/
theorem Client.good_goTo (hcode : Guarantees code J may R S) {op : ι} {k : Nat}
    {prog : Prog Op Ans (σ × Loop ρ)} {s₀ : σ} (hmay : may c.last) (hJ : J s₀ c.last c.start)
    (h : prog.Always (R op c.start) (S op c.start) (Returns J (code op c.start) c.start) k) :
    (c.goTo code op k prog).Good code J may R S := by
  cases prog with
  | ret a =>
    obtain ⟨s, l⟩ := a
    cases l with
    | done r => exact h
    | again =>
      obtain ⟨rfl, hfirst⟩ := h
      exact ⟨hfirst, hmay, ⟨s₀, hJ⟩, hcode op s₀ c.last c.start hJ hmay⟩
  | act o f => exact ⟨fun hnone => (by cases hnone), hmay, ⟨s₀, hJ⟩, h⟩
  | fault => cases h

/-- The calls of a client keep their guarantees in every run in which they are answered as they
    expect. -/
theorem Client.good_run [DecidableEq Op] {init : σ → Prop}
    {ok : Client Op Ans σ ι ρ → ClientEvent Op Ans ι → Prop} {tr : List (ClientEvent Op Ans ι × Unit)}
    (hinit : ∀ s, init s → J s none s) (hcode : Guarantees code J may R S)
    (hcall : ∀ c op, ok c (.call op) → may c.last)
    (hanswer : ∀ c o r op f, c.thread = .busy op (.act o f) → ok c (.answer o r) →
      R op c.start c.accesses o r)
    (hr : (clientMachine init code).Run ok tr c) : c.Good code J may R S := by
  refine hr.invariant ?_ ?_
  · rintro _ ⟨s, hs, rfl⟩
    exact hinit s hs
  · rintro c e c' _ hgood hok hs
    cases e with
    | call op =>
      cases hthread : c.thread with
      | busy op' prog =>
        simp only [clientMachine, Client.step, hthread] at hs
        cases hs
      | idle s =>
        simp only [clientMachine, Client.step, hthread] at hs
        cases hs
        simp only [Client.Good, hthread] at hgood
        have hmay := hcall c op hok
        exact Client.good_goTo (c := { c with start := s }) hcode hmay hgood
          (hcode op _ _ s hgood hmay)
    | answer o r =>
      cases hthread : c.thread with
      | idle s =>
        simp only [clientMachine, Client.step, hthread] at hs
        cases hs
      | busy op prog =>
        simp only [Client.Good, hthread] at hgood
        obtain ⟨-, hmay, ⟨s₀, hJ⟩, halways⟩ := hgood
        cases prog with
        | ret a =>
          simp only [clientMachine, Client.step, hthread] at hs
          cases hs
        | fault => cases halways
        | act o' f =>
          simp only [clientMachine, Client.step, hthread] at hs
          split at hs
          · rename_i heq
            subst heq
            cases hs
            exact Client.good_goTo hcode hmay hJ (halways.2 r (hanswer c o r op f hthread hok))
          · cases hs

end machine

end Rtipc
