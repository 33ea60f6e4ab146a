import Mathlib.Data.Fin.Basic
import Mathlib.Logic.Function.Basic
import Mathlib.Tactic.SplitIfs

/-!
# Character terminals

A grid of cells of any type with a cursor that is always on it. Writing a cell moves the
cursor on, at the end of a row to the next one and on the last row by scrolling. The
position of the cursor in reading order tells where it goes: an operation that does not
scroll is described by what it does to this number and to the cells before it.
-/
namespace LampVm

structure Terminal (rows cols : ℕ) (α : Type) where
  cells : Fin rows → Fin cols → α
  x : Fin cols
  y : Fin rows

namespace Terminal

variable {rows cols : ℕ} {α : Type}

/-! ## Operations -/

/-- Another cell under the cursor. -/
def put (a : α) (t : Terminal rows cols α) : Terminal rows cols α :=
  { t with cells := Function.update t.cells t.y (Function.update (t.cells t.y) t.x a) }

/-- Every row moves up, and the last one becomes blank. -/
def scroll (blank : α) (t : Terminal rows cols α) : Terminal rows cols α :=
  { t with
    cells := fun r =>
      if h : r.val + 1 < rows then t.cells ⟨r.val + 1, h⟩ else fun _ => blank }

def carriageReturn (t : Terminal rows cols α) : Terminal rows cols α :=
  { t with x := ⟨0, t.x.pos⟩ }

def newline (blank : α) (t : Terminal rows cols α) : Terminal rows cols α :=
  if h : t.y.val + 1 < rows then { t.carriageReturn with y := ⟨t.y.val + 1, h⟩ }
  else t.carriageReturn.scroll blank

def advance (blank : α) (t : Terminal rows cols α) : Terminal rows cols α :=
  if h : t.x.val + 1 < cols then { t with x := ⟨t.x.val + 1, h⟩ } else t.newline blank

def write (blank a : α) (t : Terminal rows cols α) : Terminal rows cols α :=
  (t.put a).advance blank

/-- One cell back, from the beginning of a row to the end of the one above. -/
def retreat (t : Terminal rows cols α) : Terminal rows cols α :=
  if 0 < t.x.val then { t with x := ⟨t.x.val - 1, Nat.lt_of_le_of_lt (Nat.sub_le _ _) t.x.isLt⟩ }
  else
    { t with
      x := ⟨cols - 1, Nat.sub_one_lt t.x.pos.ne'⟩
      y := ⟨t.y.val - 1, Nat.lt_of_le_of_lt (Nat.sub_le _ _) t.y.isLt⟩ }

def backspace (blank : α) (t : Terminal rows cols α) : Terminal rows cols α :=
  if 0 < t.x.val ∨ 0 < t.y.val then t.retreat.put blank else t

def clear (blank : α) (t : Terminal rows cols α) : Terminal rows cols α where
  cells _ _ := blank
  x := ⟨0, t.x.pos⟩
  y := ⟨0, t.y.pos⟩

section Fields

variable {blank a : α} {t : Terminal rows cols α}

@[simp] theorem put_x : (t.put a).x = t.x := rfl
@[simp] theorem put_y : (t.put a).y = t.y := rfl

theorem put_cells (r : Fin rows) (c : Fin cols) :
    (t.put a).cells r c = if r = t.y ∧ c = t.x then a else t.cells r c := by
  simp only [put, Function.update_apply]
  by_cases hr : r = t.y
  · by_cases hc : c = t.x
    · simp [hr, hc]
    · simp [hr, hc]
  · simp [hr]

end Fields

/-! ## Positions -/

/-- The number of cells before one in reading order. -/
def index (r : Fin rows) (c : Fin cols) : ℕ := r.val * cols + c.val

def position (t : Terminal rows cols α) : ℕ := index t.y t.x

theorem index_injective {r r' : Fin rows} {c c' : Fin cols} (h : index r c = index r' c') :
    r = r' ∧ c = c' := by
  have hr : r.val = r'.val := by
    have hdiv := congrArg (· / cols) h
    simpa [index, Nat.mul_comm _ cols, Nat.mul_add_div c.pos, Nat.div_eq_of_lt c.isLt,
      Nat.div_eq_of_lt c'.isLt] using hdiv
  refine ⟨Fin.ext hr, Fin.ext ?_⟩
  unfold index at h
  rw [hr] at h
  omega

theorem cursor_eq_iff {t u : Terminal rows cols α} :
    u.x = t.x ∧ u.y = t.y ↔ u.position = t.position := by
  constructor
  · rintro ⟨hx, hy⟩
    rw [position, position, hx, hy]
  · intro h
    exact (index_injective h).symm

/-- `u` has the cells of `t` before position `n`. -/
def SameBefore (n : ℕ) (t u : Terminal rows cols α) : Prop :=
  ∀ r c, index r c < n → u.cells r c = t.cells r c

theorem SameBefore.refl (n : ℕ) (t : Terminal rows cols α) : SameBefore n t t :=
  fun _ _ _ => rfl

theorem SameBefore.trans {n : ℕ} {t u v : Terminal rows cols α} (h : SameBefore n t u)
    (h' : SameBefore n u v) : SameBefore n t v :=
  fun r c hrc => (h' r c hrc).trans (h r c hrc)

section Moves

variable {blank a : α} {t : Terminal rows cols α} {n : ℕ}

theorem sameBefore_put (h : n ≤ t.position) : SameBefore n t (t.put a) := by
  intro r c hrc
  rw [put_cells, if_neg]
  rintro ⟨rfl, rfl⟩
  exact absurd hrc (Nat.not_lt.mpr h)

theorem newline_of_lt (blank : α) (h : t.y.val + 1 < rows) :
    (t.newline blank).position = (t.y.val + 1) * cols ∧ (t.newline blank).cells = t.cells := by
  simp [newline, h, position, index, carriageReturn]

/-- Without scrolling the cursor advances by one cell. -/
theorem advance_of_lt (blank : α) (h : t.position + 1 < rows * cols) :
    (t.advance blank).position = t.position + 1 ∧ (t.advance blank).cells = t.cells := by
  unfold advance
  split_ifs with hx
  · simp [position, index, Nat.add_assoc]
  · have hlast : t.x.val + 1 = cols := by
      have := t.x.isLt
      omega
    have hend : t.position + 1 = (t.y.val + 1) * cols := by
      rw [position, index, Nat.succ_mul]
      omega
    rw [hend] at h ⊢
    exact newline_of_lt blank (Nat.lt_of_mul_lt_mul_right h)

theorem write_of_lt (blank a : α) (h : t.position + 1 < rows * cols) :
    (t.write blank a).position = t.position + 1 ∧
      (n ≤ t.position → SameBefore n t (t.write blank a)) := by
  obtain ⟨hpos, hcells⟩ := advance_of_lt (t := t.put a) blank h
  refine ⟨hpos, fun hn r c hrc => ?_⟩
  rw [write, hcells]
  exact sameBefore_put hn r c hrc

/-- On any row but the last one there is a whole row ahead. -/
theorem position_add_lt (h : t.y.val + 1 < rows) : t.position + cols < rows * cols := by
  have hrow : (t.y.val + 2) * cols ≤ rows * cols := Nat.mul_le_mul_right _ h
  have hx := t.x.isLt
  rw [Nat.add_mul] at hrow
  simp only [position, index]
  omega

/-- Several cells in a row. -/
theorem position_iterate_write {k : ℕ} (h : t.position + k < rows * cols) :
    ((write blank a)^[k] t).position = t.position + k := by
  induction k with
  | zero => rfl
  | succ k ih =>
    have hk := ih (by omega)
    rw [Function.iterate_succ_apply', (write_of_lt (n := 0) blank a (by omega)).1, hk, Nat.add_assoc]

theorem position_retreat (h : 0 < t.x.val ∨ 0 < t.y.val) :
    t.retreat.position = t.position - 1 := by
  unfold retreat
  split_ifs with hx
  · simp only [position, index]
    omega
  · have hy : 0 < t.y.val := h.resolve_left hx
    have hcols := t.x.pos
    have hrow : (t.y.val - 1) * cols + cols = t.y.val * cols := by
      rw [← Nat.succ_mul]
      congr 1
      omega
    simp only [position, index]
    omega

theorem retreat_cells : t.retreat.cells = t.cells := by
  unfold retreat
  split_ifs <;> rfl

/-- The cursor goes back by one cell and stays at the first one. -/
theorem position_backspace : (t.backspace blank).position = t.position - 1 := by
  unfold backspace
  split_ifs with h
  · exact position_retreat h
  · have hx : t.x.val = 0 := by omega
    have hy : t.y.val = 0 := by omega
    simp [position, index, hx, hy]

theorem sameBefore_backspace (h : n ≤ t.position - 1) : SameBefore n t (t.backspace blank) := by
  unfold backspace
  split_ifs with h0
  · intro r c hrc
    rw [← t.retreat_cells]
    refine sameBefore_put ?_ r c hrc
    rw [position_retreat h0]
    exact h
  · exact .refl n t

theorem position_clear : (t.clear blank).position = 0 := by
  simp [clear, position, index]

end Moves

end Terminal

end LampVm
