import Mathlib.Data.Nat.Digits.Lemmas
import Mathlib.Tactic

/-!
# Little-endian words in byte strings

`leValue` is the number that a byte string spells, least significant byte first, and
`leDigits n v` the `n` bytes that spell `v`. `leWords` cuts a byte string into words
of equal size.
-/
namespace LampVm.ByteString

def leValue (bytes : List (BitVec 8)) : ℕ := Nat.ofDigits 256 (bytes.map BitVec.toNat)

@[simp] theorem leValue_nil : leValue [] = 0 := rfl

@[simp] theorem leValue_cons (b : BitVec 8) (bytes : List (BitVec 8)) :
    leValue (b :: bytes) = b.toNat + 256 * leValue bytes := by
  simp [leValue, Nat.ofDigits_cons]

def leDigits : ℕ → ℕ → List (BitVec 8)
  | 0, _ => []
  | n + 1, v => BitVec.ofNat 8 v :: leDigits n (v / 256)

@[simp] theorem length_leDigits (n v : ℕ) : (leDigits n v).length = n := by
  induction n generalizing v with
  | zero => rfl
  | succ n ih => simp [leDigits, ih]

theorem leValue_leDigits (n v : ℕ) : leValue (leDigits n v) = v % 256 ^ n := by
  induction n generalizing v with
  | zero => simp [leDigits, Nat.mod_one]
  | succ n ih =>
    rw [leDigits, leValue_cons, ih, BitVec.toNat_ofNat, pow_succ' 256 n, Nat.mod_mul]

/-- The digits of a word spell the word again. -/
theorem ofNat_leValue_leDigits {w n : ℕ} (hw : 2 ^ w ≤ 256 ^ n) (x : BitVec w) :
    BitVec.ofNat w (leValue (leDigits n x.toNat)) = x := by
  have hlt : x.toNat < 256 ^ n := lt_of_lt_of_le x.isLt hw
  rw [leValue_leDigits, Nat.mod_eq_of_lt hlt, BitVec.ofNat_toNat, BitVec.setWidth_eq]

/-- `count` words of `k` bytes each. -/
def leWords (w k : ℕ) : ℕ → List (BitVec 8) → List (BitVec w)
  | 0, _ => []
  | count + 1, bytes =>
    BitVec.ofNat w (leValue (bytes.take k)) :: leWords w k count (bytes.drop k)

@[simp] theorem length_leWords (w k count : ℕ) (bytes : List (BitVec 8)) :
    (leWords w k count bytes).length = count := by
  induction count generalizing bytes with
  | zero => rfl
  | succ count ih => simp [leWords, ih]

theorem leWords_take {w k count n : ℕ} {bytes : List (BitVec 8)} (h : k * count ≤ n) :
    leWords w k count (bytes.take n) = leWords w k count bytes := by
  induction count generalizing bytes n with
  | zero => rfl
  | succ count ih =>
    have hk : k * (count + 1) = k * count + k := by ring
    simp only [leWords]
    rw [List.take_take, Nat.min_eq_left (by omega), List.drop_take, ih (by omega)]

def encodeWords {w : ℕ} (k : ℕ) (words : List (BitVec w)) : List (BitVec 8) :=
  words.flatMap fun x => leDigits k x.toNat

@[simp] theorem length_encodeWords {w : ℕ} (k : ℕ) (words : List (BitVec w)) :
    (encodeWords k words).length = k * words.length := by
  induction words with
  | nil => rfl
  | cons x words ih =>
    simp only [encodeWords, List.flatMap_cons, List.length_append, length_leDigits,
      List.length_cons] at ih ⊢
    rw [ih]
    ring

theorem leWords_encodeWords {w k : ℕ} (hw : 2 ^ w ≤ 256 ^ k) (words : List (BitVec w))
    (rest : List (BitVec 8)) :
    leWords w k words.length (encodeWords k words ++ rest) = words := by
  induction words with
  | nil => rfl
  | cons x words ih =>
    have hlen : (leDigits k x.toNat).length = k := length_leDigits k x.toNat
    simp only [encodeWords, List.flatMap_cons, List.append_assoc, List.length_cons, leWords] at ih ⊢
    rw [List.take_left' hlen, List.drop_left' hlen, ofNat_leValue_leDigits hw, ih]

end LampVm.ByteString
