import Mathlib.Tactic.Ring
import Mathlib.Tactic.SplitIfs

/-!
# Periodic deadlines

A deadline that has passed is moved by whole periods to the first instant of its grid that is not
before the present. Moving it keeps its phase and does not accumulate the periods that were missed,
so the number of firings is bounded by the elapsed time.
-/
namespace Periodic

/-- The deadline after `d`, skipping those that lie before `now`. -/
def catchUp (step d now : ℕ) : ℕ :=
  if d + step < now then d + step + step * ((now - (d + step)) / step + 1) else d + step

variable {step d now : ℕ}

/-- It lies a positive number of periods later. -/
theorem catchUp_eq (step d now : ℕ) : ∃ k, catchUp step d now = d + step * (k + 1) := by
  unfold catchUp
  split_ifs with h
  · exact ⟨(now - (d + step)) / step + 1, by ring⟩
  · exact ⟨0, by ring⟩

theorem add_step_le_catchUp (step d now : ℕ) : d + step ≤ catchUp step d now := by
  obtain ⟨k, hk⟩ := catchUp_eq step d now
  rw [hk, mul_add, mul_one]
  omega

theorem lt_catchUp (hstep : 0 < step) : d < catchUp step d now := by
  have := add_step_le_catchUp step d now
  omega

@[simp] theorem catchUp_mod (step d now : ℕ) : catchUp step d now % step = d % step := by
  obtain ⟨k, hk⟩ := catchUp_eq step d now
  rw [hk, Nat.add_mul_mod_self_left]

theorem le_catchUp (hstep : 0 < step) : now ≤ catchUp step d now := by
  unfold catchUp
  split_ifs with h
  · have := Nat.lt_mul_div_succ (now - (d + step)) hstep
    omega
  · omega

/-- As many firings as there are instants of the grid up to `t`. -/
theorem count_le {n t : ℕ} (hstep : 0 < step) (ht : d ≤ t) (h : n = 0 ∨ d + (n - 1) * step ≤ t) :
    n ≤ (t - d) / step + 1 := by
  obtain rfl | h := h
  · exact Nat.zero_le _
  · have hle : n - 1 ≤ (t - d) / step := (Nat.le_div_iff_mul_le hstep).mpr (by omega)
    omega

end Periodic
