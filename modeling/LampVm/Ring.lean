import Mathlib.Data.Fin.Basic
import Mathlib.Data.List.Basic
import Mathlib.Logic.Function.Basic
import Mathlib.Tactic

/-!
# Ring buffers

A ring of `n` cells with a read index and a write index holds the cells from the first
up to, but not including, the second. One cell stays free, so that equal indices mean
an empty ring. The contents are a list, and the three moves of the indices are the
list's own operations: append behind the last element, take the first, and give up the
last.
-/
namespace LampVm.Ring

variable {α : Type} {n : ℕ} [NeZero n]

/-- How many cells are in use. -/
def size (tail head : Fin n) : ℕ := (head - tail).val

/-- The cells in use, the oldest first. -/
def contents (buf : Fin n → α) (tail head : Fin n) : List α :=
  (List.range (size tail head)).map fun k => buf (tail + Fin.ofNat n k)

variable {buf : Fin n → α} {tail head : Fin n}

/-! ## Sizes -/

omit [NeZero n] in
theorem size_lt (tail head : Fin n) : size tail head < n := (head - tail).isLt

@[simp] theorem size_self : size tail tail = 0 := by simp [size]

theorem size_eq_zero_iff : size tail head = 0 ↔ tail = head := by
  rw [size, Fin.val_eq_zero_iff, sub_eq_zero]
  exact eq_comm

/-- Off the wrap, the successor of an index is its successor as a number. -/
theorem val_add_one {d : Fin n} (h : d + 1 ≠ 0) : (d + 1).val = d.val + 1 := by
  have hval : (d + 1).val = (d.val + 1) % n := by simp [Fin.val_add]
  have hne : (d.val + 1) % n ≠ 0 := by
    rw [← hval]
    exact fun h0 => h (Fin.val_eq_zero_iff.mp h0)
  have hlt : d.val + 1 < n := by
    by_contra hle
    have heq : d.val + 1 = n := by have := d.isLt; omega
    exact hne (by rw [heq, Nat.mod_self])
  rw [hval, Nat.mod_eq_of_lt hlt]

theorem size_head_add_one (h : head + 1 ≠ tail) : size tail (head + 1) = size tail head + 1 := by
  have hsub : head + 1 - tail = head - tail + 1 := by abel
  rw [size, size, hsub, val_add_one]
  rw [← hsub]
  exact sub_ne_zero.mpr h

theorem size_tail_add_one (h : tail ≠ head) : size tail head = size (tail + 1) head + 1 := by
  have hsub : head - tail = head - (tail + 1) + 1 := by abel
  rw [size, size, hsub, val_add_one]
  rw [← hsub]
  exact sub_ne_zero.mpr h.symm

theorem size_head_sub_one (h : tail ≠ head) : size tail head = size tail (head - 1) + 1 := by
  have hhead : head - 1 + 1 = head := sub_add_cancel head 1
  have hne : head - 1 + 1 ≠ tail := by rw [hhead]; exact h.symm
  have hsize := size_head_add_one hne
  rwa [hhead] at hsize

/-- The ring is full when the write index is one step behind the read index. -/
theorem size_eq_iff_full : size tail head = n - 1 ↔ head + 1 = tail := by
  constructor
  · intro hsize
    by_contra h
    have hnext := size_head_add_one h
    have hlt := size_lt tail (head + 1)
    omega
  · intro h
    have hlt := size_lt tail head
    by_contra hsize
    have hzero : head - tail + 1 = 0 := by
      rw [← h]
      abel
    have hval : (head - tail + 1).val = (size tail head + 1) % n := by simp [size, Fin.val_add]
    rw [hzero, Nat.mod_eq_of_lt (by omega)] at hval
    simp at hval

/-! ## Contents -/

@[simp] theorem length_contents : (contents buf tail head).length = size tail head := by
  simp [contents]

@[simp] theorem contents_self : contents buf tail tail = [] := by simp [contents]

theorem contents_eq_nil_iff : contents buf tail head = [] ↔ tail = head := by
  rw [← List.length_eq_zero_iff, length_contents, size_eq_zero_iff]

theorem ofNat_succ (k : ℕ) : Fin.ofNat n (k + 1) = Fin.ofNat n k + 1 := by
  apply Fin.ext
  simp [Fin.val_add]

theorem add_ofNat_size : tail + Fin.ofNat n (size tail head) = head := by
  simp [size]

/-- The write index is no cell in use. -/
theorem add_ofNat_ne_head {k : ℕ} (hk : k < size tail head) : tail + Fin.ofNat n k ≠ head := by
  intro h
  have hd : head - tail = Fin.ofNat n k := by rw [← h]; abel
  have hkn : k < n := lt_trans hk (size_lt tail head)
  rw [size, hd, Fin.val_ofNat, Nat.mod_eq_of_lt hkn] at hk
  exact lt_irrefl k hk

theorem contents_push (h : head + 1 ≠ tail) (b : α) :
    contents (Function.update buf head b) tail (head + 1) = contents buf tail head ++ [b] := by
  unfold contents
  rw [size_head_add_one h, List.range_succ, List.map_append, List.map_singleton, add_ofNat_size,
    Function.update_self]
  congr 1
  apply List.map_congr_left
  intro k hk
  rw [Function.update_of_ne (add_ofNat_ne_head (List.mem_range.mp hk))]

theorem contents_pop (h : tail ≠ head) :
    contents buf tail head = buf tail :: contents buf (tail + 1) head := by
  unfold contents
  rw [size_tail_add_one h, List.range_succ_eq_map, List.map_cons, List.map_map]
  congr 1
  · simp
  · apply List.map_congr_left
    intro k _
    simp only [Function.comp_apply, Nat.succ_eq_add_one, ofNat_succ]
    congr 1
    abel

theorem contents_back (h : tail ≠ head) :
    contents buf tail head = contents buf tail (head - 1) ++ [buf (head - 1)] := by
  unfold contents
  rw [size_head_sub_one h, List.range_succ, List.map_append, List.map_singleton, add_ofNat_size]

end LampVm.Ring
