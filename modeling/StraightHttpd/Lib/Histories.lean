import StraightHttpd.Lib.Runs

/-! # Histories of a protocol

A protocol is a transition system whose events are what is observed. A history, newest event first, is
spelled by the protocol if its events can be taken in order; it ends in one of the states that they may
lead to.
-/

set_option autoImplicit false

namespace RunSystem

variable {σ ε : Type} (M : RunSystem σ ε)

/-- `Spells M s hist`: the events of `hist` lead from an initial state to `s`. -/
inductive Spells : σ → List ε → Prop
  | init {s : σ} : M.init s → Spells s []
  | step {s s' : σ} {hist : List ε} (e : ε) : Spells s hist → M.step s e s' → Spells s' (e :: hist)

variable {M} {s : σ} {new hist : List ε}

/-- Events that leave the protocol where it is. -/
theorem Spells.keep (h : M.Spells s hist) (hnew : ∀ e ∈ new, M.step s e s) : M.Spells s (new ++ hist) := by
  induction new with
  | nil => exact h
  | cons e new ih =>
    have hprev := ih fun e' he' => hnew e' (List.mem_cons_of_mem _ he')
    exact hprev.step e (hnew e List.mem_cons_self)

end RunSystem
