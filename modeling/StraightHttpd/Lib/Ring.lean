import Mathlib

/-! # Rings

A ring is a memory of `n` slots that is walked around. Its window from slot `t` on is what `k` steps
of such a walk read.
-/

set_option autoImplicit false

namespace Ring

variable {α : Type} {n : ℕ}

/-- The slot behind slot `i`. -/
def next (n i : ℕ) : ℕ := if i + 1 ≥ n then 0 else i + 1

/-- The contents of `k` slots from slot `t` on. -/
def window (n : ℕ) (m : ℕ → α) (t k : ℕ) : List α := (List.range k).map fun j => m ((t + j) % n)

theorem next_eq {i : ℕ} (h : i < n) : next n i = (i + 1) % n := by
  unfold next
  split_ifs with hn
  · rw [show i + 1 = n by omega, Nat.mod_self]
  · exact (Nat.mod_eq_of_lt (by omega)).symm

theorem next_lt {i : ℕ} (h : i < n) : next n i < n := by
  rw [next_eq h]
  exact Nat.mod_lt _ (by omega)

@[simp] theorem window_length (m : ℕ → α) (t k : ℕ) : (window n m t k).length = k := by
  simp [window]

@[simp] theorem window_zero (m : ℕ → α) (t : ℕ) : window n m t 0 = [] := rfl

theorem window_succ (m : ℕ → α) (t k : ℕ) :
    window n m t (k + 1) = window n m t k ++ [m ((t + k) % n)] := by
  simp [window, List.range_succ]

/-- The walk from the next slot on. -/
theorem window_cons (m : ℕ → α) {t : ℕ} (ht : t < n) (k : ℕ) :
    window n m t (k + 1) = m t :: window n m (next n t) k := by
  rw [window, List.range_succ_eq_map, List.map_cons, List.map_map]
  congr 1
  · rw [Nat.add_zero, Nat.mod_eq_of_lt ht]
  · unfold window
    apply List.map_congr_left
    intro j _
    rw [next_eq ht, Function.comp_apply, Nat.mod_add_mod]
    congr 2
    omega

/-- A write behind the window does not change it. -/
theorem window_update (m : ℕ → α) (x : α) {t k : ℕ} (hk : k < n) :
    window n (Function.update m ((t + k) % n) x) t k = window n m t k := by
  unfold window
  apply List.map_congr_left
  intro j hj
  have hlt : j < k := List.mem_range.mp hj
  apply Function.update_of_ne
  intro he
  have hmod : j % n = k % n := Nat.ModEq.add_left_cancel' t he
  rw [Nat.mod_eq_of_lt (by omega), Nat.mod_eq_of_lt hk] at hmod
  omega

/-- A write into the slot behind the window makes it longer. -/
theorem window_push (m : ℕ → α) (x : α) {t k : ℕ} (hk : k < n) :
    window n (Function.update m ((t + k) % n) x) t (k + 1) = window n m t k ++ [x] := by
  rw [window_succ, window_update m x hk, Function.update_self]

end Ring
