import StraightHttpd.Httpd.HttpCore

/-! # Timeouts of a connection

`IsContextTimeout` subtracts readings of a counter of 32 bits, of which the earlier one may be from
before a wrap. Either reading is moved from 0 to 1, and the correction for a wrap is one short, so
that the distance is right or one too small.
-/

set_option autoImplicit false

namespace StraightHttpd

/-- A reading at `t` and one at `u`, less than a turn of the counter apart. -/
theorem elapsed_bounds {t u : ℕ} (htu : t ≤ u) (h : u - t < 2 ^ 32 - 2) :
    elapsed (u % 2 ^ 32) (stamp (t % 2 ^ 32)) ≤ u - t ∧
      u - t ≤ elapsed (u % 2 ^ 32) (stamp (t % 2 ^ 32)) + 1 := by
  have hearlier : t % 2 ^ 32 < 2 ^ 32 := Nat.mod_lt t (by decide)
  have hlater : u % 2 ^ 32 < 2 ^ 32 := Nat.mod_lt u (by decide)
  have hturns : u % 2 ^ 32 = t % 2 ^ 32 + (u - t) ∨ u % 2 ^ 32 + 2 ^ 32 = t % 2 ^ 32 + (u - t) := by
    omega
  generalize u % 2 ^ 32 = b at hlater hturns ⊢
  generalize t % 2 ^ 32 = a at hearlier hturns ⊢
  simp only [elapsed, stamp_eq]
  rw [if_neg (by omega)]
  split_ifs <;> omega

namespace Sys

/-- The timer that the state selects: when it was last set, and how long it may run. -/
def timer (s : Sys) : ℕ × ℕ :=
  if s.core.state.code < HttpState.bodyDone.code then (s.app.tLastReceived, s.core.nReceiveTimeout)
  else (s.core.tLastSent, s.core.nSendTimeout)

variable {env : Env} {s : Sys}

theorem isContextTimeout_iff : s.isContextTimeout env = true ↔
    s.timer.2 < elapsed (s.app.world.tickCount env) s.timer.1 := by
  unfold isContextTimeout timer
  split_ifs <;> simp only [decide_eq_true_eq, gt_iff_lt]

/-- A timer that was set at time `t` and is looked at `e` milliseconds later. -/
theorem context_timeout {t e : ℕ} (hset : s.timer.1 = stamp (t % 2 ^ 32))
    (hnow : env.tick s.app.world.calls = t + e) (he : e < 2 ^ 32 - 2) :
    (s.timer.2 + 1 < e → s.isContextTimeout env = true) ∧
      (e < s.timer.2 → s.isContextTimeout env = false) := by
  have htick : s.app.world.tickCount env = (t + e) % 2 ^ 32 := congrArg (· % 2 ^ 32) hnow
  have hdist : t + e - t = e := Nat.add_sub_cancel_left t e
  obtain ⟨hle, hge⟩ := elapsed_bounds (Nat.le_add_right t e) (by rw [hdist]; exact he)
  rw [hdist] at hle hge
  have hiff := @isContextTimeout_iff env s
  rw [htick, hset] at hiff
  constructor
  · intro hlate
    rw [hiff]
    omega
  · intro hearly
    rw [← Bool.not_eq_true, hiff]
    omega

/-- A connection that received nothing since three milliseconds before the counter wrapped. -/
def waiting : Sys :=
  let s := Sys.zero 0 World.boot
  { core := { s.core with nReceiveTimeout := toRecv }
    app := { s.app with tLastReceived := stamp ((2 ^ 32 - 3) % 2 ^ 32) } }

/-- A minute and two milliseconds later. -/
theorem context_timeout_waiting :
    waiting.isContextTimeout { Env.calm [] with tick := fun _ => 2 ^ 32 - 3 + 60002 } = true :=
  (@context_timeout { Env.calm [] with tick := fun _ => 2 ^ 32 - 3 + 60002 } waiting
    (2 ^ 32 - 3) 60002 rfl rfl (by decide)).1 (by decide)

end Sys
end StraightHttpd
