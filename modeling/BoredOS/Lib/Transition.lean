import Mathlib

/-!
# Transition Systems with Guarded Steps

A system has initial states and labelled steps. `Reachable ok` are the states of the runs in which
every step was taken at a state that meets the condition `ok` for its label, and
`Reachable.invariant` is the induction rule for what holds in all of them.
-/

namespace BoredOS.Lib.Transition

/-- Initial states and labelled steps. -/
structure System (S E : Type) where
  init : S → Prop
  step : S → E → S → Prop

namespace System

variable {S E : Type} {M : System S E} {ok ok' : S → E → Prop}

/-- A step taken at a state that meets the condition. -/
def Guarded (M : System S E) (ok : S → E → Prop) (s s' : S) : Prop :=
  ∃ e, ok s e ∧ M.step s e s'

/-- The states of the runs whose steps all meet the condition. -/
def Reachable (M : System S E) (ok : S → E → Prop) (s : S) : Prop :=
  ∃ s₀, M.init s₀ ∧ Relation.ReflTransGen (M.Guarded ok) s₀ s

theorem Reachable.start {s : S} (h : M.init s) : M.Reachable ok s :=
  ⟨s, h, Relation.ReflTransGen.refl⟩

theorem Reachable.next {s s' : S} {e : E} (h : M.Reachable ok s) (hok : ok s e)
    (hstep : M.step s e s') : M.Reachable ok s' := by
  obtain ⟨s₀, hinit, hrun⟩ := h
  exact ⟨s₀, hinit, hrun.tail ⟨e, hok, hstep⟩⟩

/-- What holds initially and is kept by every step that meets the condition holds in every state
reached. -/
theorem Reachable.invariant {I : S → Prop} (hinit : ∀ s, M.init s → I s)
    (hstep : ∀ s e s', I s → ok s e → M.step s e s' → I s') {s : S} (h : M.Reachable ok s) :
    I s := by
  obtain ⟨s₀, hs₀, hrun⟩ := h
  induction hrun with
  | refl => exact hinit s₀ hs₀
  | tail _ hlast ih =>
    obtain ⟨e, hok, hst⟩ := hlast
    exact hstep _ e _ ih hok hst

/-- Fewer conditions leave more runs. -/
theorem Reachable.mono (himp : ∀ s e, ok s e → ok' s e) {s : S} (h : M.Reachable ok s) :
    M.Reachable ok' s :=
  h.invariant (fun _ hs => .start hs) fun _ e _ hr hok hst => hr.next (himp _ e hok) hst

/-- The labels of a run from one state to another whose steps all meet the condition. -/
def Trace (M : System S E) (ok : S → E → Prop) : S → List E → S → Prop
  | s, [], s' => s' = s
  | s, e :: es, s' => ∃ s₁, ok s e ∧ M.step s e s₁ ∧ Trace M ok s₁ es s'

/-- A state of an abstract machine is followed along a run: `I` is kept, and under `I` a step of the
system is the step `f` of the machine. -/
theorem Trace.simulates {A : Type} {I : S → Prop} {abs : S → A} {f : A → E → A}
    (hstep : ∀ s e s', I s → ok s e → M.step s e s' → I s' ∧ abs s' = f (abs s) e) :
    ∀ {es : List E} {s s' : S}, I s → M.Trace ok s es s' → I s' ∧ abs s' = es.foldl f (abs s) := by
  intro es
  induction es with
  | nil =>
    intro s s' hI hrun
    cases hrun
    exact ⟨hI, rfl⟩
  | cons e es ih =>
    intro s s' hI hrun
    obtain ⟨s₁, hok, hst, hrest⟩ := hrun
    obtain ⟨hI₁, habs⟩ := hstep s e s₁ hI hok hst
    rw [List.foldl_cons, ← habs]
    exact ih hI₁ hrest

/-- The run of a step function over a list of labels, as long as every step meets the condition. -/
def runWithin (step : S → E → Option S) (ok : S → E → Prop) [∀ s e, Decidable (ok s e)] (s : S) :
    List E → Option S
  | [] => some s
  | e :: es => if ok s e then (step s e).bind fun s' => runWithin step ok s' es else none

/-- Such runs are runs of the system. -/
theorem Reachable.of_runWithin [∀ s e, Decidable (ok s e)] {step : S → E → Option S}
    (hstep : ∀ s e s', step s e = some s' → M.step s e s') : ∀ {es : List E} {s s' : S},
    M.Reachable ok s → runWithin step ok s es = some s' → M.Reachable ok s' := by
  intro es
  induction es with
  | nil =>
    intro s s' h hrun
    cases hrun
    exact h
  | cons e es ih =>
    intro s s' h hrun
    unfold runWithin at hrun
    split at hrun
    next hok =>
      obtain ⟨s₁, hfirst, hrest⟩ := Option.bind_eq_some_iff.1 hrun
      exact ih (h.next hok (hstep s e s₁ hfirst)) hrest
    next => cases hrun

end System

/-- A run that can be evaluated ends in a state with a property that can be checked. -/
theorem exists_of_any {S : Type} {o : Option S} {P : S → Prop} [DecidablePred P]
    (h : o.any (fun s => decide (P s)) = true) : ∃ s, o = some s ∧ P s := by
  cases o with
  | none => cases h
  | some s => exact ⟨s, rfl, of_decide_eq_true h⟩

end BoredOS.Lib.Transition
