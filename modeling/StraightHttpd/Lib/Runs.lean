import Mathlib

/-! # Runs of labelled transition systems

States reached from an initial state by any sequence of events, the invariant rule, and the rule
for runs that keep a condition: a property of the state that the history carries along.
-/

set_option autoImplicit false

/-- A transition system: initial states, and which state an event may lead to. -/
structure RunSystem (σ ε : Type) where
  init : σ → Prop
  step : σ → ε → σ → Prop

namespace RunSystem

variable {σ ε : Type} (M : RunSystem σ ε)

/-- The states reached by runs of the system. -/
inductive Reach : σ → Prop
  | init {s : σ} : M.init s → Reach s
  | step {s s' : σ} (e : ε) : Reach s → M.step s e s' → Reach s'

/-- `Trace M s es s'`: the events `es`, taken in order, lead from `s` to `s'`. -/
inductive Trace : σ → List ε → σ → Prop
  | nil (s : σ) : Trace s [] s
  | cons {s s' t : σ} {es : List ε} (e : ε) : M.step s e s' → Trace s' es t → Trace s (e :: es) t

variable {M}

/-- What holds initially and is kept by every step holds in every reached state. -/
theorem Reach.invariant {P : σ → Prop} (h0 : ∀ s, M.init s → P s)
    (hs : ∀ s e s', P s → M.step s e s' → P s') {s : σ} (hr : M.Reach s) : P s := by
  induction hr with
  | init h => exact h0 _ h
  | step e _ hstep ih => exact hs _ e _ ih hstep

/-- The invariant rule for runs that meet a condition. `C` is a condition on states that a later
state can only meet if the earlier one did, so a run that ends well met it all along. -/
theorem Reach.invariant_of_kept {P C : σ → Prop} (h0 : ∀ s, M.init s → P s)
    (hC : ∀ s e s', M.step s e s' → C s' → C s)
    (hs : ∀ s e s', P s → M.step s e s' → C s' → P s') {s : σ} (hr : M.Reach s) (hc : C s) :
    P s := by
  induction hr with
  | init h => exact h0 _ h
  | step e _ hstep ih => exact hs _ e _ (ih (hC _ e _ hstep hc)) hstep hc

theorem Trace.reach {s t : σ} {es : List ε} (h : M.Trace s es t) (hs : M.Reach s) : M.Reach t := by
  induction h with
  | nil => exact hs
  | cons e hstep _ ih => exact ih (hs.step e hstep)

/-- The runs whose steps all meet a condition. -/
def restrict (M : RunSystem σ ε) (C : σ → ε → Prop) : RunSystem σ ε where
  init := M.init
  step s e s' := C s e ∧ M.step s e s'

theorem Reach.of_restrict {C : σ → ε → Prop} {s : σ} (h : (M.restrict C).Reach s) : M.Reach s := by
  induction h with
  | init h => exact .init h
  | step e _ hstep ih => exact ih.step e hstep.2

end RunSystem
