import Mathlib

/-! # Monitors

A monitor reads a history, newest event first, and keeps a summary of it. Rules for histories are
stated event by event: whether an event is allowed depends on the summary of what came before it.
-/

set_option autoImplicit false

/-- What the summary is at the start, and what an event makes of it. -/
structure Monitor (σ ε : Type) where
  start : σ
  next : σ → ε → σ

namespace Monitor

variable {σ ε : Type} (M : Monitor σ ε)

/-- The summary of a history. -/
def after : List ε → σ
  | [] => M.start
  | e :: hist => M.next (after hist) e

/-- Every event of the history is allowed by the summary of what came before it. -/
def Along (P : σ → ε → Prop) : List ε → Prop
  | [] => True
  | e :: hist => P (M.after hist) e ∧ Along P hist

instance decidableAlong (P : σ → ε → Prop) [∀ l e, Decidable (P l e)] (hist : List ε) :
    Decidable (M.Along P hist) :=
  match hist with
  | [] => isTrue trivial
  | e :: hist =>
    let _ := decidableAlong P hist
    inferInstanceAs (Decidable (P (M.after hist) e ∧ M.Along P hist))

variable {M} {P Q : σ → ε → Prop} {new hist : List ε}

/-- Events that the monitor ignores leave the summary as it is. -/
theorem after_append (h : ∀ e ∈ new, ∀ l, M.next l e = l) : M.after (new ++ hist) = M.after hist := by
  induction new with
  | nil => rfl
  | cons e new ih =>
    have hnew : M.after (new ++ hist) = M.after hist := ih fun e' he' => h e' (List.mem_cons_of_mem _ he')
    exact (h e List.mem_cons_self _).trans hnew

theorem Along.append (h : ∀ e ∈ new, ∀ l, P l e) (ha : M.Along P hist) :
    M.Along P (new ++ hist) := by
  induction new with
  | nil => exact ha
  | cons e new ih =>
    exact ⟨h e List.mem_cons_self _, ih fun e' he' => h e' (List.mem_cons_of_mem _ he')⟩

/-- The rule held all along. -/
theorem Along.of_append (h : M.Along P (new ++ hist)) : M.Along P hist := by
  induction new with
  | nil => exact h
  | cons e new ih => exact ih h.2

/-- What allowed events keep of the summary. -/
theorem Along.after {I : σ → Prop} (h0 : I M.start) (hs : ∀ l e, I l → P l e → I (M.next l e))
    (h : M.Along P hist) : I (M.after hist) := by
  induction hist with
  | nil => exact h0
  | cons e hist ih => exact hs _ e (ih h.2) h.1

/-- A rule that follows from two others, with what one of them keeps of the summary. -/
theorem Along.imp {R : σ → ε → Prop} {I : σ → Prop} (h0 : I M.start)
    (hs : ∀ l e, I l → P l e → I (M.next l e)) (hR : ∀ l e, I l → P l e → Q l e → R l e)
    (hP : M.Along P hist) (hQ : M.Along Q hist) : M.Along R hist := by
  induction hist with
  | nil => trivial
  | cons e hist ih => exact ⟨hR _ e (hP.2.after h0 hs) hP.1 hQ.1, ih hP.2 hQ.2⟩

end Monitor
