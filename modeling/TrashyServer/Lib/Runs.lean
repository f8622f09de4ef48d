/-
Runs of a partial step function: the induction rules every stateful
component of the server shares.

A component is a `step : σ → ε → Option σ` — `none` where the event
cannot be delivered in that state — and a run is the `List.foldlM` of
its events. Two recursions speak about a whole run at once:

- `Always step Q s es`: `Q` holds in every state the run visits, the
  first one included;
- `Along step P s es`: `P s' e` holds at every step the run takes, of
  the state `s'` it starts from and the event `e`.

`Along` is how a side condition on the steps is said (no step reads end
of file, no step answers with an error) and `Always` is how a safety
property is said; `always_of_along` and `along_of_always` are the two
directions between them, each from one fact about one step.
-/
import Mathlib.Data.List.Basic

namespace Runs

universe u v

variable {σ : Type u} {ε : Type v} (step : σ → ε → Option σ)

-- ============================================================== the runs

/-- Run a list of events from a state, failing on the first disabled
one. -/
def run (s : σ) (es : List ε) : Option σ :=
  es.foldlM step s

/-- `Q` holds in every state the run visits. -/
def Always (Q : σ → Prop) : σ → List ε → Prop
  | s, [] => Q s
  | s, e :: es => Q s ∧ ∀ s', step s e = some s' → Always Q s' es

/-- `P` holds at every step the run takes. -/
def Along (P : σ → ε → Prop) : σ → List ε → Prop
  | _, [] => True
  | s, e :: es => ∀ s', step s e = some s' → P s e ∧ Along P s' es

variable {step}

@[simp] theorem run_nil (s : σ) : run step s [] = some s := rfl

theorem run_cons (s : σ) (e : ε) (es : List ε) :
    run step s (e :: es) = (step s e).bind fun s' => run step s' es := rfl

theorem run_cons_some {s s' : σ} {e : ε} (es : List ε)
    (h : step s e = some s') : run step s (e :: es) = run step s' es := by
  rw [run_cons, h, Option.bind_some]

/-- A step that is taken: it is clean, and so are those behind it. -/
theorem along_cons_iff {P : σ → ε → Prop} {s s' : σ} {e : ε} (es : List ε)
    (h : step s e = some s') :
    Along step P s (e :: es) ↔ P s e ∧ Along step P s' es := by
  constructor
  · intro halong
    exact halong s' h
  · intro hboth s'' h'
    obtain rfl := Option.some.inj (h.symm.trans h')
    exact hboth

-- ================================================ invariants along a run

/-- The start of a run is one of the states it visits. -/
theorem Always.first {Q : σ → Prop} {es : List ε} {s : σ}
    (h : Always step Q s es) : Q s := by
  cases es with
  | nil => exact h
  | cons e es => exact h.1

/-- Safety without a side condition: the consequence of an invariant
holds in every state of every run. -/
theorem always_of_invariant {I Q : σ → Prop}
    (hstep : ∀ {s e s'}, I s → step s e = some s' → I s')
    (hQ : ∀ {s}, I s → Q s) :
    ∀ {es : List ε} {s : σ}, I s → Always step Q s es := by
  intro es
  induction es with
  | nil => intro s hs; exact hQ hs
  | cons e es ih =>
      intro s hs
      exact ⟨hQ hs, fun s' he => ih (hstep hs he)⟩

/-- Safety from a side condition: an invariant the clean steps keep
gives its consequence in every state of a run all of whose steps are
clean. -/
theorem always_of_along {I Q : σ → Prop} {P : σ → ε → Prop}
    (hstep : ∀ {s e s'}, I s → P s e → step s e = some s' → I s')
    (hQ : ∀ {s}, I s → Q s) :
    ∀ {es : List ε} {s : σ}, I s → Along step P s es →
      Always step Q s es := by
  intro es
  induction es with
  | nil => intro s hs _; exact hQ hs
  | cons e es ih =>
      intro s hs h
      exact ⟨hQ hs, fun s' he => ih (hstep hs (h s' he).1 he) (h s' he).2⟩

/-- The side condition from safety: when a step that is not clean lands
outside `Q`, a run that stays inside `Q` takes only clean steps. -/
theorem along_of_always {I Q : σ → Prop} {P : σ → ε → Prop}
    (hstep : ∀ {s e s'}, I s → step s e = some s' → I s')
    (hP : ∀ {s e s'}, I s → Q s → step s e = some s' → Q s' → P s e) :
    ∀ {es : List ε} {s : σ}, I s → Always step Q s es →
      Along step P s es := by
  intro es
  induction es with
  | nil => intro s _ _; trivial
  | cons e es ih =>
      intro s hs h s' he
      exact ⟨hP hs h.1 he (h.2 s' he).first, ih (hstep hs he) (h.2 s' he)⟩

end Runs
