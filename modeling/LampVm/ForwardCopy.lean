import Mathlib.Data.Nat.Basic
import Mathlib.Logic.Function.Basic
import Mathlib.Tactic.SplitIfs

/-!
# Copying cell by cell

A memory is a function on the natural numbers. A copy in increasing order reads each cell from the
memory that the cells before it were written to. It is the copy of the original contents if no cell
is read after it has been written: the destination does not lie above the source, or the source ends
before the destination begins.
-/
namespace ForwardCopy

variable {α : Type}

/-- The memory after `n` cells, in increasing order. -/
def copyUp (m : ℕ → α) (dest src : ℕ) : ℕ → ℕ → α
  | 0 => m
  | n + 1 => Function.update (copyUp m dest src n) (dest + n) (copyUp m dest src n (src + n))

def fillUp (m : ℕ → α) (base : ℕ) (v : α) : ℕ → ℕ → α
  | 0 => m
  | n + 1 => Function.update (fillUp m base v n) (base + n) v

variable {m : ℕ → α} {dest src base n k x : ℕ} {v : α}

@[simp] theorem copyUp_zero (m : ℕ → α) (dest src : ℕ) : copyUp m dest src 0 = m := rfl

@[simp] theorem copyUp_succ (m : ℕ → α) (dest src n : ℕ) : copyUp m dest src (n + 1) =
    Function.update (copyUp m dest src n) (dest + n) (copyUp m dest src n (src + n)) := rfl

@[simp] theorem fillUp_zero (m : ℕ → α) (base : ℕ) (v : α) : fillUp m base v 0 = m := rfl

@[simp] theorem fillUp_succ (m : ℕ → α) (base : ℕ) (v : α) (n : ℕ) :
    fillUp m base v (n + 1) = Function.update (fillUp m base v n) (base + n) v := rfl

/-- Whatever the overlap, only the destination changes. -/
theorem copyUp_of_outside (h : x < dest ∨ dest + n ≤ x) : copyUp m dest src n x = m x := by
  induction n with
  | zero => rfl
  | succ n ih =>
    rw [copyUp_succ, Function.update_of_ne (by omega)]
    exact ih (by omega)

theorem fillUp_of_outside (h : x < base ∨ base + n ≤ x) : fillUp m base v n x = m x := by
  induction n with
  | zero => rfl
  | succ n ih =>
    rw [fillUp_succ, Function.update_of_ne (by omega)]
    exact ih (by omega)

theorem fillUp_of_lt (hk : k < n) : fillUp m base v n (base + k) = v := by
  induction n with
  | zero => omega
  | succ n ih =>
    rw [fillUp_succ]
    by_cases h : k = n
    · rw [h, Function.update_self]
    · rw [Function.update_of_ne (by omega)]
      exact ih (by omega)

/-- The source cell that is read next has not been written yet. -/
theorem copyUp_of_lt (h : dest ≤ src ∨ src + n ≤ dest) (hk : k < n) :
    copyUp m dest src n (dest + k) = m (src + k) := by
  induction n with
  | zero => omega
  | succ n ih =>
    rw [copyUp_succ]
    by_cases hlast : k = n
    · rw [hlast, Function.update_self]
      exact copyUp_of_outside (by omega)
    · rw [Function.update_of_ne (by omega)]
      exact ih (by omega) (by omega)

end ForwardCopy
