import Mathlib

/-! # Loops

A loop is given by what one round makes of a state: another state, or the result that ends it.
A loop with a measure ends; a loop whose measure may also stand still ends unless it gets to a place
from which on it stands still for ever.
-/

set_option autoImplicit false

namespace Loop

open Relation (ReflTransGen)

variable {σ β : Type} (round : σ → σ ⊕ β)

/-- One round leads to another, which begins in `t`. -/
def Again (s t : σ) : Prop := round s = .inl t

/-- The loop begins a round in `t`. -/
def Visits (s t : σ) : Prop := ReflTransGen (Again round) s t

/-- The loop ends, and with what. -/
def Ends (s : σ) (b : β) : Prop := ∃ t, Visits round s t ∧ round t = .inr b

/-- The result of a loop that ends within `n` rounds. -/
def run : ℕ → σ → Option β
  | 0, _ => none
  | n + 1, s =>
    match round s with
    | .inl t => run n t
    | .inr b => some b

/-- The state after `n` rounds, or the one in which the loop ended. -/
def after : ℕ → σ → σ
  | 0, s => s
  | n + 1, s =>
    match round (after n s) with
    | .inl t => t
    | .inr _ => after n s

attribute [grind =] run after

variable {round}

theorem Visits.refl (s : σ) : Visits round s s := ReflTransGen.refl

theorem Visits.trans {s t u : σ} (h : Visits round s t) (h' : Visits round t u) : Visits round s u :=
  ReflTransGen.trans h h'

theorem Visits.tail {s t u : σ} (h : Visits round s t) (h' : Again round t u) : Visits round s u :=
  ReflTransGen.tail h h'

/-- What every round keeps holds wherever the loop gets. -/
theorem Visits.keep {P : σ → Prop} (hP : ∀ s t, P s → Again round s t → P t) {s t : σ}
    (h : Visits round s t) (hs : P s) : P t := by
  induction h with
  | refl => exact hs
  | tail _ hagain ih => exact hP _ _ ih hagain

/-! ## Ends -/

theorem Ends.again {s t : σ} {b : β} (h : Again round s t) (ht : Ends round t b) : Ends round s b := by
  obtain ⟨u, hu, hb⟩ := ht
  exact ⟨u, ReflTransGen.head h hu, hb⟩

theorem ends_of_run {n : ℕ} {s : σ} {b : β} (h : run round n s = some b) : Ends round s b := by
  induction n generalizing s with
  | zero => cases h
  | succ n ih =>
    rw [run] at h
    cases hs : round s with
    | inl t =>
      rw [hs] at h
      exact (ih h).again hs
    | inr c =>
      rw [hs] at h
      obtain rfl := Option.some.inj h
      exact ⟨s, .refl s, hs⟩

theorem Ends.run {s : σ} {b : β} (h : Ends round s b) : ∃ n, run round n s = some b := by
  obtain ⟨t, hvisits, hb⟩ := h
  induction hvisits using ReflTransGen.head_induction_on with
  | refl =>
    refine ⟨1, ?_⟩
    rw [Loop.run, hb]
  | head hagain _ ih =>
    obtain ⟨n, hn⟩ := ih
    refine ⟨n + 1, ?_⟩
    rw [Loop.run, show round _ = _ from hagain]
    exact hn

/-- A round that is not the last is followed by another. -/
theorem Ends.of_visits {s t : σ} {b : β} (h : Ends round s b) (ht : Visits round s t) :
    Ends round t b := by
  induction ht with
  | refl => exact h
  | tail _ hagain ih =>
    obtain ⟨u, hu, hb⟩ := ih
    obtain rfl | ⟨v, hv, hrest⟩ := hu.cases_head
    · rw [show round _ = _ from hagain] at hb
      cases hb
    · obtain rfl := Sum.inl.inj ((show round _ = _ from hv).symm.trans hagain)
      exact ⟨u, hrest, hb⟩

/-- More rounds change nothing for a loop that ended. -/
theorem run_add {n : ℕ} {s : σ} {b : β} (h : run round n s = some b) (k : ℕ) : run round (n + k) s = some b := by
  induction n generalizing s with
  | zero => cases h
  | succ n ih =>
    rw [Nat.succ_add, run]
    rw [run] at h
    cases hs : round s with
    | inl t =>
      rw [hs] at h
      exact ih h
    | inr c =>
      rw [hs] at h
      exact h

/-- A loop ends with its last round. -/
theorem Ends.last {s : σ} {b c : β} (h : Ends round s c) (hs : round s = .inr b) : c = b := by
  obtain ⟨t, ht, hc⟩ := h
  obtain rfl | ⟨u, hu, -⟩ := ht.cases_head
  · rw [hs] at hc
    exact (Sum.inr.inj hc).symm
  · rw [show round s = _ from hu] at hs
    cases hs

/-! ## Loops with a measure -/

/-- A loop whose measure decreases ends, and takes no more rounds than the measure says. -/
theorem run_of_measure {P : σ → Prop} (μ : σ → ℕ)
    (hstep : ∀ s t, P s → Again round s t → P t ∧ μ t < μ s) {n : ℕ} {s : σ} (hs : P s)
    (hn : μ s < n) : ∃ b, run round n s = some b := by
  induction n generalizing s with
  | zero => exact absurd hn (Nat.not_lt_zero _)
  | succ n ih =>
    rw [run]
    cases hround : round s with
    | inl t =>
      obtain ⟨ht, hlt⟩ := hstep s t hs hround
      exact ih ht (by omega)
    | inr b => exact ⟨b, rfl⟩

theorem ends_of_measure {P : σ → Prop} (μ : σ → ℕ)
    (hstep : ∀ s t, P s → Again round s t → P t ∧ μ t < μ s) {s : σ} (hs : P s) :
    ∃ b, Ends round s b := by
  obtain ⟨b, hb⟩ := run_of_measure μ hstep hs (Nat.lt_succ_self _)
  exact ⟨b, ends_of_run hb⟩

/-! ## Loops that do not end -/

theorem visits_after (n : ℕ) (s : σ) : Visits round s (after round n s) := by
  induction n with
  | zero => exact .refl s
  | succ n ih =>
    rw [after]
    cases hround : round (after round n s) with
    | inl t => exact ih.tail hround
    | inr b => exact ih

theorem again_after {s : σ} (h : ¬ ∃ b, Ends round s b) (n : ℕ) :
    Again round (after round n s) (after round (n + 1) s) := by
  rw [after]
  cases hround : round (after round n s) with
  | inl t => exact hround
  | inr b => exact absurd ⟨b, _, visits_after n s, hround⟩ h

/-- A loop that goes from one state to states like it for ever does not end. -/
theorem not_ends_of_kept {P : σ → Prop} (hP : ∀ s, P s → ∃ t, Again round s t ∧ P t) {s : σ}
    (hs : P s) : ¬ ∃ b, Ends round s b := by
  rintro ⟨b, hb⟩
  obtain ⟨n, hn⟩ := hb.run
  clear hb
  induction n generalizing s with
  | zero => cases hn
  | succ n ih =>
    obtain ⟨t, ht, hPt⟩ := hP s hs
    rw [run, show round s = _ from ht] at hn
    exact ih hPt hn

/-- When the measure never grows, a loop that does not end stands still from some round on. -/
theorem stalls {P : σ → Prop} (μ : σ → ℕ) (hstep : ∀ s t, P s → Again round s t → P t ∧ μ t ≤ μ s)
    {s : σ} (hs : P s) (h : ¬ ∃ b, Ends round s b) :
    ∃ k, ∀ n, μ (after round (k + n) s) = μ (after round k s) := by
  have hP : ∀ n, P (after round n s) := fun n => (visits_after n s).keep (fun _ _ hu ha => (hstep _ _ hu ha).1) hs
  have hle : ∀ k n, μ (after round (k + n) s) ≤ μ (after round k s) := by
    intro k n
    induction n with
    | zero => exact le_refl _
    | succ n ih => exact Nat.le_trans (hstep _ _ (hP _) (again_after h _)).2 ih
  -- a round in which the measure is smallest
  obtain ⟨k, hk⟩ := (measure fun n => μ (after round n s)).wf.has_min Set.univ ⟨0, trivial⟩
  refine ⟨k, fun n => Nat.le_antisymm (hle k n) (Nat.le_of_not_lt (hk.2 (k + n) trivial))⟩

end Loop
