import Mathlib.Data.Nat.Basic
import Mathlib.Data.Nat.Bitwise
import Mathlib.Tactic

/-!
# Little-endian words in a byte memory

A memory is a total map from addresses to bytes. `leNat m a n` is the number
spelled by the `n` bytes at `a`, least significant first, and `leStore m a n v`
replaces those bytes by the digits of `v`. The bit-vector lemmas turn the
shift-and-or idioms that assemble and take apart words into these two maps.
-/
namespace LampVm.ByteOrder

abbrev Bytes := ℕ → BitVec 8

def leNat (m : Bytes) (a : ℕ) : ℕ → ℕ
  | 0 => 0
  | n + 1 => (m a).toNat + 256 * leNat m (a + 1) n

def leStore (m : Bytes) (a n v : ℕ) : Bytes :=
  fun x => if a ≤ x ∧ x < a + n then BitVec.ofNat 8 (v / 256 ^ (x - a)) else m x

theorem leNat_lt (m : Bytes) (a n : ℕ) : leNat m a n < 256 ^ n := by
  induction n generalizing a with
  | zero => simp [leNat]
  | succ n ih =>
    have h := ih (a + 1)
    have hb := (m a).isLt
    simp only [leNat, pow_succ]
    omega

theorem leNat_congr {m m' : Bytes} {a n : ℕ} (h : ∀ x, a ≤ x → x < a + n → m x = m' x) :
    leNat m a n = leNat m' a n := by
  induction n generalizing a with
  | zero => rfl
  | succ n ih =>
    have ht := ih (a := a + 1) fun x h1 h2 => h x (by omega) (by omega)
    simp only [leNat, h a le_rfl (by omega), ht]

theorem leStore_of_not_mem {m : Bytes} {a n v x : ℕ} (h : x < a ∨ a + n ≤ x) :
    leStore m a n v x = m x := by
  simp only [leStore]
  rw [if_neg (by omega)]

@[simp] theorem leStore_zero (m : Bytes) (a v : ℕ) : leStore m a 0 v = m := by
  funext x
  exact leStore_of_not_mem (by omega)

/-- A store writes its digits one address after the other. -/
theorem leStore_succ (m : Bytes) (a n v : ℕ) :
    leStore m a (n + 1) v =
      Function.update (leStore m a n v) (a + n) (BitVec.ofNat 8 (v / 256 ^ n)) := by
  funext x
  by_cases hx : x = a + n
  · subst hx
    simp [leStore]
  · rw [Function.update_of_ne hx]
    simp only [leStore]
    split_ifs <;> first | rfl | omega

/-- Digit-wise description: the bytes of a range are exactly the digits of `w`. -/
theorem leNat_of_digits {m : Bytes} {a n w : ℕ}
    (h : ∀ i, i < n → m (a + i) = BitVec.ofNat 8 (w / 256 ^ i)) :
    leNat m a n = w % 256 ^ n := by
  induction n generalizing a w with
  | zero => simp [leNat, Nat.mod_one]
  | succ n ih =>
    have h0 := h 0 (by omega)
    simp only [pow_zero, Nat.div_one, Nat.add_zero] at h0
    have ht := ih (a := a + 1) (w := w / 256) fun i hi => by
      have hs := h (i + 1) (by omega)
      rw [show a + 1 + i = a + (i + 1) by omega, hs, Nat.div_div_eq_div_mul, pow_succ']
    have hb : (m a).toNat = w % 256 := by rw [h0]; simp
    rw [leNat, hb, ht, pow_succ', Nat.mod_mul]

theorem leNat_leStore (m : Bytes) (a n v : ℕ) :
    leNat (leStore m a n v) a n = v % 256 ^ n := by
  apply leNat_of_digits
  intro i hi
  simp only [leStore]
  rw [if_pos (by omega), show a + i - a = i by omega]

theorem leNat_leStore_of_disjoint {m : Bytes} {a n v b k : ℕ} (h : b + k ≤ a ∨ a + n ≤ b) :
    leNat (leStore m a n v) b k = leNat m b k := by
  apply leNat_congr
  intro x h1 h2
  exact leStore_of_not_mem (by omega)

theorem leNat_add (m : Bytes) (a n k : ℕ) :
    leNat m a (n + k) = leNat m a n + 256 ^ n * leNat m (a + n) k := by
  induction n generalizing a with
  | zero => simp [leNat]
  | succ n ih =>
    rw [show n + 1 + k = (n + k) + 1 by omega]
    simp only [leNat, ih, pow_succ']
    rw [show a + 1 + n = a + (n + 1) by omega]
    ring

/-- The bytes of a number at an address are those at the address. -/
theorem leNat_digit {m : Bytes} {a n i : ℕ} (hi : i < n) :
    BitVec.ofNat 8 (leNat m a n / 256 ^ i) = m (a + i) := by
  have hn : n = i + (1 + (n - i - 1)) := by omega
  have hlow := leNat_lt m a i
  rw [hn, leNat_add, Nat.add_mul_div_left _ _ (by positivity), Nat.div_eq_of_lt hlow, zero_add,
    leNat_add]
  apply BitVec.eq_of_toNat_eq
  have hb := (m (a + i)).isLt
  simp only [leNat, pow_one, BitVec.toNat_ofNat]
  omega

/-! ## Rows of cells -/

/-- The cells `k, k + 1, ...` of `w` bytes, counted from `base`, hold the numbers `xs`. -/
def CellsHold (m : Bytes) (base w k : ℕ) (xs : List ℕ) : Prop :=
  ∀ i x, xs[i]? = some x → leNat m (base + w * (k + i)) w = x

section Cells

variable {m : Bytes} {base w k x : ℕ} {xs : List ℕ}

theorem CellsHold.push (h : CellsHold m base w (k + 1) xs) (hx : x < 256 ^ w) :
    CellsHold (leStore m (base + w * k) w x) base w k (x :: xs) := by
  intro i y hy
  cases i with
  | zero =>
    obtain rfl : x = y := by simpa using hy
    rw [Nat.add_zero, leNat_leStore]
    exact Nat.mod_eq_of_lt hx
  | succ i =>
    have hcell : base + w * (k + (i + 1)) = base + w * k + w + w * i := by ring
    rw [leNat_leStore_of_disjoint (by rw [hcell]; omega), show k + (i + 1) = k + 1 + i by omega]
    exact h i y (by simpa using hy)

theorem CellsHold.head (h : CellsHold m base w k (x :: xs)) : leNat m (base + w * k) w = x :=
  h 0 x rfl

theorem CellsHold.tail (h : CellsHold m base w k (x :: xs)) : CellsHold m base w (k + 1) xs := by
  intro i y hy
  rw [show k + 1 + i = k + (i + 1) by omega]
  exact h (i + 1) y (by simpa using hy)

/-- Memories that agree on the cells hold the same numbers. -/
theorem CellsHold.congr {m' : Bytes} (h : CellsHold m base w k xs)
    (hm : ∀ a, base ≤ a → a < base + w * (k + xs.length) → m' a = m a) :
    CellsHold m' base w k xs := by
  intro i x hx
  have hi : i < xs.length := (List.getElem?_eq_some_iff.mp hx).1
  have hcell : w * (k + i) + w ≤ w * (k + xs.length) := by
    rw [← Nat.mul_succ]
    exact Nat.mul_le_mul_left w (by omega)
  rw [← h i x hx]
  exact leNat_congr fun a h1 h2 => hm a (by omega) (by omega)

end Cells

/-! ## Bit-vector idioms -/

/-- Or-ing a field above `k` occupied bits adds it at weight `2 ^ k`. -/
theorem toNat_or_shiftLeft {w k v : ℕ} (x : BitVec w) (b : BitVec v)
    (hx : x.toNat < 2 ^ k) (hk : k + v ≤ w) :
    (x ||| (b.setWidth w) <<< k).toNat = x.toNat + 2 ^ k * b.toNat := by
  have hb := b.isLt
  have hpow : 2 ^ k * 2 ^ v ≤ 2 ^ w := by
    rw [← pow_add]; exact Nat.pow_le_pow_right (by norm_num) hk
  have hbw : b.toNat < 2 ^ w := lt_of_lt_of_le hb (Nat.pow_le_pow_right (by norm_num) (by omega))
  have hsh : b.toNat * 2 ^ k < 2 ^ w := by nlinarith [Nat.two_pow_pos k]
  rw [BitVec.toNat_or, BitVec.toNat_shiftLeft, BitVec.toNat_setWidth, Nat.mod_eq_of_lt hbw,
    Nat.shiftLeft_eq, Nat.mod_eq_of_lt hsh, Nat.or_comm, ← Nat.shiftLeft_eq,
    ← Nat.shiftLeft_add_eq_or_of_lt hx, Nat.shiftLeft_eq]
  ring

/-- The byte `(v >> s) & 0xFF` of a word is a digit of its value. -/
theorem byte_eq_ofNat {w : ℕ} (hw : 8 ≤ w) (v : BitVec w) (s : ℕ) :
    (v >>> s &&& 0xFF).setWidth 8 = BitVec.ofNat 8 (v.toNat / 2 ^ s) := by
  have hmask : (0xFF : BitVec w).toNat = 2 ^ 8 - 1 := by
    have h8 : 2 ^ 8 ≤ 2 ^ w := Nat.pow_le_pow_right (by norm_num) hw
    change (BitVec.ofNat w 255).toNat = _
    rw [BitVec.toNat_ofNat, Nat.mod_eq_of_lt (by omega)]
    rfl
  apply BitVec.eq_of_toNat_eq
  simp only [BitVec.toNat_setWidth, BitVec.toNat_and, BitVec.toNat_ushiftRight,
    Nat.shiftRight_eq_div_pow, hmask, Nat.and_two_pow_sub_one_eq_mod, BitVec.toNat_ofNat,
    Nat.mod_mod]

/-- Byte `k` of a word is digit `k` of its value. -/
theorem byte_eq_digit {w : ℕ} (v : BitVec w) (k : ℕ) :
    (v >>> (8 * k)).setWidth 8 = BitVec.ofNat 8 (v.toNat / 256 ^ k) := by
  have hpow : (256 : ℕ) ^ k = 2 ^ (8 * k) := (pow_mul 2 8 k).symm
  apply BitVec.eq_of_toNat_eq
  rw [hpow]
  simp only [BitVec.toNat_setWidth, BitVec.toNat_ushiftRight, BitVec.toNat_ofNat,
    Nat.shiftRight_eq_div_pow]

end LampVm.ByteOrder
