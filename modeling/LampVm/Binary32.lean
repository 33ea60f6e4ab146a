import Mathlib.Data.Rat.Floor
import Mathlib.Algebra.Order.Field.Power
import Mathlib.Tactic.Linarith
import Mathlib.Tactic.NormNum

/-!
# The exact values of binary32 patterns

A pattern of 32 bits is a sign, eight bits of exponent and 23 bits of fraction. Here it is read
as a rational number, and the comparison and the truncation of the native model of binary32 are
shown to be those of the rational numbers.
-/
namespace Binary32

open Float.Model (Format)
open Float.Model.UnpackedFloat

abbrev UnpackedFloat := Float.Model.UnpackedFloat

abbrev Sign := Float.Model.UnpackedFloat.Sign

/-! ## Patterns -/

def exponentField (b : BitVec 32) : ℕ := b.toNat / 2 ^ 23 % 2 ^ 8

def fraction (b : BitVec 32) : ℕ := b.toNat % 2 ^ 23

def isNegative (b : BitVec 32) : Prop := 2 ^ 31 ≤ b.toNat

instance (b : BitVec 32) : Decidable (isNegative b) := inferInstanceAs (Decidable (_ ≤ _))

/-- The fraction with its implicit bit, which a subnormal number does not have. -/
def significand (b : BitVec 32) : ℕ :=
  if exponentField b = 0 then fraction b else 2 ^ 23 + fraction b

/-- The weight of the last bit of the fraction is two to this power. -/
def scale (b : BitVec 32) : ℤ := max (exponentField b) 1 - 150

/-- The number that a pattern stands for, unless it is infinite or no number. -/
def exactValue (b : BitVec 32) : Option ℚ :=
  if exponentField b = 255 then none
  else some ((if isNegative b then -1 else 1) * (significand b * 2 ^ scale b))

/-- The integer part. -/
def truncate (q : ℚ) : ℤ := if 0 ≤ q then ⌊q⌋ else ⌈q⌉

/-! ## Unpacked numbers -/

theorem implicit_toNat (m : BitVec 23) : (1#1 ++ m).toNat = 2 ^ 23 + m.toNat := by
  rw [BitVec.toNat_append, ← Nat.shiftLeft_add_eq_or_of_lt m.isLt]
  rfl

theorem implicit_pos (m : BitVec 23) : 0 < (1#1 ++ m).toNat := by
  rw [implicit_toNat]
  omega

theorem toNat_pos_of_ne {w : ℕ} {m : BitVec w} (h : m ≠ 0#w) : 0 < m.toNat :=
  Nat.pos_of_ne_zero fun hzero => h (BitVec.eq_of_toNat_eq hzero)

/-- The unpacked form of the three fields. -/
def ofFields (s : Sign) (e : BitVec 8) (m : BitVec 23) : UnpackedFloat :=
  if e = -1#8 then if m = 0#23 then .infinity s else .notANumber
  else if e = 0#8 then
    if h : m = 0#23 then .zero s
    else .finite s m.toNat ((e.toNat : ℤ) - (127 + 23 : ℕ) + 1) (toNat_pos_of_ne h)
  else .finite s (1#1 ++ m).toNat ((e.toNat : ℤ) - (127 + 23 : ℕ)) (implicit_pos m)

theorem unpack_eq (b : BitVec 32) : unpack Format.binary32 b =
    ofFields (Sign.ofBitVec (@unpackSign Format.binary32 b))
      (@unpackExponent Format.binary32 b) (@unpackMantissa Format.binary32 b) :=
  rfl

theorem unpackSign_extract {spec : Format} (b : BitVec spec.numBits) :
    unpackSign b = BitVec.cast (by omega)
      (b.extractLsb (spec.mantissaBitsWithoutImplicit + spec.exponentBits)
        (spec.mantissaBitsWithoutImplicit + spec.exponentBits)) := rfl

theorem pack_notANumber : pack Format.binary32 .notANumber =
    packComponents Format.binary32 .positive (-1#8) (1#23 <<< 22) := rfl

theorem pack_infinity (s : Sign) : pack Format.binary32 (.infinity s) =
    packComponents Format.binary32 s (-1#8) 0#23 := rfl

theorem pack_zero (s : Sign) : pack Format.binary32 (.zero s) =
    packComponents Format.binary32 s 0#8 0#23 := rfl

theorem pack_finite (s : Sign) (m : ℕ) (e : ℤ) (h : 0 < m) :
    pack Format.binary32 (.finite s m e h) =
      if 2 ^ Format.binary32.exponentBits ≤ (e + Format.binary32.exponentBias +
          Format.binary32.mantissaBitsWithoutImplicit).toNat + 1 then
        packComponents Format.binary32 s (-1#8) 0#23
      else if m.log2 + 1 = Format.binary32.mantissaBits then
        packComponents Format.binary32 s (BitVec.ofNat 8 (e + Format.binary32.exponentBias +
          Format.binary32.mantissaBitsWithoutImplicit).toNat) (BitVec.ofNat 23 m)
      else packComponents Format.binary32 s 0#8 (BitVec.ofNat 23 m) := rfl

section Fields

variable (s : Sign) (e : BitVec 8) (m : BitVec 23)

theorem unpackSign_packComponents {spec : Format} (e : BitVec spec.exponentBits)
    (m : BitVec spec.mantissaBitsWithoutImplicit) :
    Sign.ofBitVec (unpackSign (packComponents spec s e m)) = s := by
  have hsign : unpackSign (packComponents spec s e m) = s.toBitVec := by
    ext k hk
    obtain rfl : k = 0 := by omega
    simp [unpackSign_extract, packComponents, BitVec.getLsbD_append, BitVec.getLsbD_eq_getElem,
      BitVec.getElem_append]
  rw [hsign]
  cases s <;> rfl

theorem unpack_packComponents :
    unpack Format.binary32 (packComponents Format.binary32 s e m) = ofFields s e m := by
  rw [unpack_eq, unpackSign_packComponents, unpackExponent_packComponents,
    unpackMantissa_packComponents]

/-- Packing forgets nothing but which pattern it was that is no number. -/
theorem unpack_pack_ofFields :
    unpack Format.binary32 (pack Format.binary32 (ofFields s e m)) = ofFields s e m := by
  by_cases hinf : e = -1#8
  · by_cases hm : m = 0#23
    · have hfields : ofFields s e m = .infinity s := by
        rw [ofFields, if_pos hinf, if_pos hm]
      rw [hfields, pack_infinity, unpack_packComponents]
      rfl
    · have hfields : ofFields s e m = .notANumber := by
        rw [ofFields, if_pos hinf, if_neg hm]
      rw [hfields, pack_notANumber, unpack_packComponents]
      rfl
  have hlt : e.toNat < 255 := by
    have hne : e.toNat ≠ 255 := fun h => hinf (BitVec.eq_of_toNat_eq h)
    have := e.isLt
    omega
  by_cases hzero : e = 0#8
  · by_cases hm : m = 0#23
    · have hfields : ofFields s e m = .zero s := by
        rw [ofFields, if_neg hinf, if_pos hzero, dif_pos hm]
      rw [hfields, pack_zero, unpack_packComponents]
      rfl
    · have hlog : m.toNat.log2 + 1 ≠ Format.binary32.mantissaBits := by
        have := (Nat.log2_lt (toNat_pos_of_ne hm).ne').mpr m.isLt
        have : Format.binary32.mantissaBits = 24 := rfl
        omega
      have hpack : pack Format.binary32 (ofFields s e m) =
          packComponents Format.binary32 s 0#8 (BitVec.ofNat 23 m.toNat) := by
        rw [ofFields, if_neg hinf, if_pos hzero, dif_neg hm, pack_finite, if_neg, if_neg hlog]
        rw [hzero]
        decide
      rw [hpack, BitVec.ofNat_toNat, BitVec.setWidth_eq, unpack_packComponents, hzero]
  · have hlog : (1#1 ++ m).toNat.log2 + 1 = Format.binary32.mantissaBits := by
      have hpos := (implicit_pos m).ne'
      have hlow : 2 ^ 23 ≤ (1#1 ++ m).toNat := by
        rw [implicit_toNat]
        omega
      have hhigh : (1#1 ++ m).toNat < 2 ^ 24 := by
        have := m.isLt
        rw [implicit_toNat]
        omega
      have hle := (Nat.le_log2 hpos).mpr hlow
      have hlt := (Nat.log2_lt hpos).mpr hhigh
      have : Format.binary32.mantissaBits = 24 := rfl
      omega
    have hbias : ((e.toNat : ℤ) - (127 + 23 : ℕ) + Format.binary32.exponentBias +
        Format.binary32.mantissaBitsWithoutImplicit).toNat = e.toNat := by
      have : Format.binary32.exponentBias = 127 := rfl
      have : Format.binary32.mantissaBitsWithoutImplicit = 23 := rfl
      omega
    have hpack : pack Format.binary32 (ofFields s e m) = packComponents Format.binary32 s
        (BitVec.ofNat 8 e.toNat) (BitVec.ofNat 23 (1#1 ++ m).toNat) := by
      rw [ofFields, if_neg hinf, if_neg hzero, pack_finite, hbias, if_neg, if_pos hlog]
      have : 2 ^ Format.binary32.exponentBits = 256 := rfl
      omega
    have hm : BitVec.ofNat 23 (1#1 ++ m).toNat = m := by
      apply BitVec.eq_of_toNat_eq
      have := m.isLt
      rw [BitVec.toNat_ofNat, implicit_toNat]
      omega
    rw [hpack, hm, BitVec.ofNat_toNat, BitVec.setWidth_eq, unpack_packComponents]

end Fields

/-! ## Values -/

def signed (s : Sign) (q : ℚ) : ℚ :=
  match s with
  | .negative => -q
  | .positive => q

/-- The number that an unpacked form stands for. -/
def value : UnpackedFloat → Option ℚ
  | .notANumber | .infinity _ => none
  | .zero _ => some 0
  | .finite s m e _ => some (signed s (m * 2 ^ e))

theorem value_finite (s : Sign) (m : ℕ) (e : ℤ) (h : 0 < m) :
    value (.finite s m e h) = some (signed s (m * 2 ^ e)) := rfl

/-- A significand of 24 bits, with its first bit set unless the scale is the least one. -/
structure Fits (m : ℕ) (e : ℤ) : Prop where
  lt : m < 2 ^ 24
  ge : -149 ≤ e
  normal : e = -149 ∨ 2 ^ 23 ≤ m

def Canonical : UnpackedFloat → Prop
  | .finite _ m e _ => Fits m e
  | _ => True

theorem canonical_ofFields (s : Sign) (e : BitVec 8) (m : BitVec 23) :
    Canonical (ofFields s e m) := by
  have hm := m.isLt
  by_cases hinf : e = -1#8
  · rw [ofFields, if_pos hinf]
    split <;> trivial
  · rw [ofFields, if_neg hinf]
    by_cases hzero : e = 0#8
    · rw [if_pos hzero]
      by_cases hnil : m = 0#23
      · rw [dif_pos hnil]
        trivial
      · rw [dif_neg hnil]
        subst hzero
        exact ⟨by omega, by decide, .inl rfl⟩
    · rw [if_neg hzero]
      have hpos := toNat_pos_of_ne hzero
      refine ⟨?_, by omega, .inr ?_⟩
      · rw [implicit_toNat]
        omega
      · rw [implicit_toNat]
        omega

section Pattern

variable (b : BitVec 32)

theorem unpackExponent_toNat :
    (@unpackExponent Format.binary32 b).toNat = exponentField b := by
  rw [unpackExponent, BitVec.toNat_cast, BitVec.extractLsb_toNat, Nat.shiftRight_eq_div_pow]
  rfl

theorem unpackMantissa_toNat :
    (@unpackMantissa Format.binary32 b).toNat = fraction b := by
  rw [unpackMantissa, BitVec.toNat_cast, BitVec.extractLsb_toNat, Nat.shiftRight_zero]
  rfl

theorem unpackSign_eq : Sign.ofBitVec (@unpackSign Format.binary32 b) =
    if isNegative b then .negative else .positive := by
  have hbit : (@unpackSign Format.binary32 b).toNat = b.toNat / 2 ^ 31 % 2 := by
    rw [unpackSign_extract, BitVec.toNat_cast, BitVec.extractLsb_toNat, Nat.shiftRight_eq_div_pow]
    rfl
  have hb := b.isLt
  by_cases hneg : isNegative b
  · have hone : @unpackSign Format.binary32 b ≠ 0#1 := by
      intro h
      rw [h] at hbit
      have : 2 ^ 31 ≤ b.toNat := hneg
      have : (0#1).toNat = 0 := rfl
      omega
    rw [if_pos hneg, Sign.ofBitVec, if_neg hone]
  · have hzero : @unpackSign Format.binary32 b = 0#1 := by
      apply BitVec.eq_of_toNat_eq
      have : ¬ 2 ^ 31 ≤ b.toNat := hneg
      have : (0#1).toNat = 0 := rfl
      omega
    rw [if_neg hneg, Sign.ofBitVec, if_pos hzero]

theorem signed_zero (s : Sign) : signed s 0 = 0 := by
  cases s with
  | negative => exact neg_zero
  | positive => rfl

theorem signed_ite {p : Prop} [Decidable p] (q : ℚ) :
    signed (if p then .negative else .positive) q = (if p then -1 else 1) * q := by
  split_ifs
  · exact (neg_one_mul q).symm
  · exact (one_mul q).symm

/-- The unpacked form of a pattern stands for the same number. -/
theorem value_unpack : value (unpack Format.binary32 b) = exactValue b := by
  have hexp := unpackExponent_toNat b
  have hman := unpackMantissa_toNat b
  rw [unpack_eq, unpackSign_eq]
  generalize @unpackExponent Format.binary32 b = e at hexp
  generalize @unpackMantissa Format.binary32 b = m at hman
  have hall : e = -1#8 ↔ exponentField b = 255 := by
    rw [← hexp]
    exact ⟨fun h => h ▸ rfl, fun h => BitVec.eq_of_toNat_eq h⟩
  have hnone : e = 0#8 ↔ exponentField b = 0 := by
    rw [← hexp]
    exact ⟨fun h => h ▸ rfl, fun h => BitVec.eq_of_toNat_eq h⟩
  by_cases hinf : exponentField b = 255
  · rw [ofFields, if_pos (hall.mpr hinf), exactValue, if_pos hinf]
    split <;> rfl
  rw [ofFields, if_neg (mt hall.mp hinf), exactValue, if_neg hinf, ← signed_ite]
  by_cases hzero : exponentField b = 0
  · rw [if_pos (hnone.mpr hzero), significand, if_pos hzero, scale, hzero, ← hman]
    by_cases hm : m = 0#23
    · rw [dif_pos hm, hm, show (0#23).toNat = 0 from rfl, Nat.cast_zero, zero_mul, signed_zero]
      rfl
    · rw [dif_neg hm, value_finite, hexp, hzero]
      rfl
  · have hmax : max (exponentField b) 1 = exponentField b := max_eq_left (by omega)
    rw [if_neg (mt hnone.mp hzero), significand, if_neg hzero, scale, hmax, ← hman,
      value_finite, implicit_toNat, hexp]
    rfl

theorem fits (b : BitVec 32) : Fits (significand b) (scale b) := by
  have hlt : fraction b < 2 ^ 23 := Nat.mod_lt _ (by decide)
  unfold significand scale
  split_ifs with h
  · exact ⟨by omega, by omega, .inl (by rw [h]; rfl)⟩
  · exact ⟨by omega, by omega, .inr (by omega)⟩

end Pattern

/-! ## Comparison -/

section Compare

variable {m₁ m₂ : ℕ} {e₁ e₂ : ℤ}

theorem Fits.lt_of_scale_lt (h₁ : Fits m₁ e₁) (h₂ : Fits m₂ e₂) (h : e₁ < e₂) :
    (m₁ : ℚ) * 2 ^ e₁ < m₂ * 2 ^ e₂ := by
  have hpos : (0 : ℚ) < 2 ^ e₁ := by positivity
  have hlt : (m₁ : ℚ) < 2 ^ 24 := by exact_mod_cast h₁.lt
  have hge : (2 : ℚ) ^ 23 ≤ m₂ := by
    have hnormal := h₂.normal.resolve_left (by have := h₁.ge; omega)
    exact_mod_cast hnormal
  have hscale : (2 : ℚ) ^ (e₁ + 1) ≤ 2 ^ e₂ := zpow_le_zpow_right₀ (by norm_num) (by omega)
  calc (m₁ : ℚ) * 2 ^ e₁ < 2 ^ 24 * 2 ^ e₁ := mul_lt_mul_of_pos_right hlt hpos
    _ = 2 ^ 23 * 2 ^ (e₁ + 1) := by rw [zpow_add_one₀ (by norm_num)]; ring
    _ ≤ m₂ * 2 ^ e₂ := mul_le_mul hge hscale (by positivity) (by positivity)

/-- Exponents are compared first, and the significands only if these agree. -/
theorem Fits.compare_eq_lt (h₁ : Fits m₁ e₁) (h₂ : Fits m₂ e₂) :
    (compare e₁ e₂).then (compare m₁ m₂) = .lt ↔ (m₁ : ℚ) * 2 ^ e₁ < m₂ * 2 ^ e₂ := by
  rw [Ordering.then_eq_lt, Int.compare_eq_lt, Nat.compare_eq_lt, Int.compare_eq_eq]
  rcases lt_trichotomy e₁ e₂ with h | rfl | h
  · exact iff_of_true (.inl h) (h₁.lt_of_scale_lt h₂ h)
  · have hpos : (0 : ℚ) < 2 ^ e₁ := by positivity
    rw [mul_lt_mul_iff_left₀ hpos, Nat.cast_lt]
    simp
  · refine iff_of_false ?_ (h₂.lt_of_scale_lt h₁ h).not_gt
    omega

theorem Fits.compare_swap_eq_lt (h₁ : Fits m₁ e₁) (h₂ : Fits m₂ e₂) :
    ((compare e₁ e₂).then (compare m₁ m₂)).swap = .lt ↔ (m₂ : ℚ) * 2 ^ e₂ < m₁ * 2 ^ e₁ := by
  rw [Ordering.swap_then, Int.compare_swap, Nat.compare_swap]
  exact h₂.compare_eq_lt h₁

/-- The native comparison is that of the numbers. -/
theorem lt_iff {u v : UnpackedFloat} {p q : ℚ} (hu : Canonical u) (hv : Canonical v)
    (hp : value u = some p) (hq : value v = some q) : u.lt v = true ↔ p < q := by
  rw [Float.Model.UnpackedFloat.lt, beq_iff_eq]
  have hpos : ∀ (m : ℕ) (e : ℤ), 0 < m → (0 : ℚ) < m * 2 ^ e := fun m e hm => by positivity
  cases u with
  | notANumber | infinity => cases hp
  | zero s =>
    obtain rfl := Option.some.inj hp
    cases v with
    | notANumber | infinity => cases hq
    | zero s' =>
      obtain rfl := Option.some.inj hq
      exact iff_of_false nofun (lt_irrefl _)
    | finite s' m e hm =>
      obtain rfl := Option.some.inj hq
      have := hpos m e hm
      cases s' with
      | negative => exact iff_of_false nofun (by rw [signed]; linarith)
      | positive => exact iff_of_true rfl this
  | finite s m e hm =>
    obtain rfl := Option.some.inj hp
    have := hpos m e hm
    cases v with
    | notANumber | infinity => cases hq
    | zero s' =>
      obtain rfl := Option.some.inj hq
      cases s with
      | negative => exact iff_of_true rfl (by rw [signed]; linarith)
      | positive => exact iff_of_false nofun (by rw [signed]; linarith)
    | finite s' m' e' hm' =>
      obtain rfl := Option.some.inj hq
      have := hpos m' e' hm'
      cases s with
      | negative =>
        cases s' with
        | negative =>
          rw [signed, signed, neg_lt_neg_iff, ← Fits.compare_swap_eq_lt hu hv]
          exact Option.some_inj
        | positive => exact iff_of_true rfl (by rw [signed, signed]; linarith)
      | positive =>
        cases s' with
        | negative => exact iff_of_false nofun (by rw [signed, signed]; linarith)
        | positive =>
          rw [signed, signed, ← Fits.compare_eq_lt hu hv]
          exact Option.some_inj

end Compare

/-! ## Truncation -/

theorem repeat_shiftRightOne (n : ℕ) (em : ExtendedMantissa) :
    (n.repeat ExtendedMantissa.shiftRightOne em).mantissa = em.mantissa / 2 ^ n := by
  induction n with
  | zero => exact (Nat.div_one _).symm
  | succ n ih =>
    change (n.repeat ExtendedMantissa.shiftRightOne em).mantissa / 2 = _
    rw [ih, Nat.div_div_eq_div_mul, ← pow_succ]

theorem roundToInt_eq (s : Sign) (m : ℕ) (e : ℤ) :
    roundToInt s m e = s.apply ((m * 2 ^ e.toNat / 2 ^ (-e).toNat : ℕ) : ℤ) := by
  have hshift : (0 - (e - ((e - 0).toNat : ℤ))).toNat = (-e).toNat := by omega
  have hmantissa : m <<< (e - 0).toNat = m * 2 ^ e.toNat := by rw [Nat.shiftLeft_eq, sub_zero]
  have hrepeat := repeat_shiftRightOne (-e).toNat ⟨m * 2 ^ e.toNat, false, false⟩
  simp only [roundToInt, decreaseExponent, shiftToExponent, hshift, hmantissa,
    ExtendedMantissa.ofMantissaAndAccuracy]
  exact congrArg (fun n : ℕ => s.apply n) hrepeat

/-- What remains of a magnitude when its last bits are dropped. -/
theorem floor_magnitude (m : ℕ) (e : ℤ) :
    ⌊(m : ℚ) * 2 ^ e⌋ = ((m * 2 ^ e.toNat / 2 ^ (-e).toNat : ℕ) : ℤ) := by
  rcases le_total 0 e with h | h
  · obtain ⟨k, rfl⟩ := Int.eq_ofNat_of_zero_le h
    have hzero : (-(k : ℤ)).toNat = 0 := by omega
    rw [hzero, pow_zero, Nat.div_one, Int.toNat_natCast, zpow_natCast]
    exact_mod_cast Int.floor_natCast (R := ℚ) (m * 2 ^ k)
  · obtain ⟨k, hk⟩ := Int.eq_ofNat_of_zero_le (neg_nonneg.mpr h)
    obtain rfl : e = -k := by omega
    have hzero : (-(k : ℤ)).toNat = 0 := by omega
    rw [hzero, pow_zero, mul_one, neg_neg, Int.toNat_natCast, zpow_neg, zpow_natCast,
      ← div_eq_mul_inv]
    exact_mod_cast Rat.floor_natCast_div_natCast m (2 ^ k)

/-- The native conversion truncates. -/
theorem toInt_eq_truncate {u : UnpackedFloat} {q : ℚ} (h : value u = some q) (lo hi : ℤ) :
    u.toInt lo hi = truncate q := by
  cases u with
  | notANumber | infinity => cases h
  | zero s =>
    obtain rfl := Option.some.inj h
    rfl
  | finite s m e hm =>
    obtain rfl := Option.some.inj h
    have hpos : (0 : ℚ) < m * 2 ^ e := by positivity
    have htoInt : (Float.Model.UnpackedFloat.finite s m e hm).toInt lo hi = roundToInt s m e := rfl
    rw [htoInt, roundToInt_eq, ← floor_magnitude]
    cases s with
    | negative =>
      rw [signed, truncate, if_neg (by linarith), Int.ceil_neg]
      rfl
    | positive =>
      rw [signed, truncate, if_pos hpos.le]
      rfl

/-! ## Native numbers -/

section Native

variable {a b : BitVec 32} {p q : ℚ}

theorem unpack_ofBits (b : BitVec 32) :
    (Float32.ofBits ⟨b⟩).toModel.unpack = unpack Format.binary32 b :=
  unpack_pack_ofFields _ _ _

theorem canonical_unpack (b : BitVec 32) : Canonical (unpack Format.binary32 b) :=
  canonical_ofFields _ _ _

theorem ofBits_lt (a b : BitVec 32) : Float32.ofBits ⟨a⟩ < Float32.ofBits ⟨b⟩ ↔
    (unpack Format.binary32 a).lt (unpack Format.binary32 b) = true := by
  rw [← unpack_ofBits, ← unpack_ofBits]
  exact Iff.of_eq (decide_eq_true_eq ..)

theorem ofBits_lt_iff (ha : exactValue a = some p) (hb : exactValue b = some q) :
    Float32.ofBits ⟨a⟩ < Float32.ofBits ⟨b⟩ ↔ p < q := by
  rw [ofBits_lt]
  exact lt_iff (canonical_unpack a) (canonical_unpack b) ((value_unpack a).trans ha)
    ((value_unpack b).trans hb)

theorem isNaN_ofBits (ha : exactValue a = some p) : (Float32.ofBits ⟨a⟩).isNaN = false := by
  have hvalue := (value_unpack a).trans ha
  change (Float32.ofBits ⟨a⟩).toModel.unpack.isNaN = false
  rw [unpack_ofBits]
  cases hu : unpack Format.binary32 a with
  | notANumber =>
    rw [hu] at hvalue
    cases hvalue
  | infinity | zero | finite => rfl

/-- A pattern without a value is no number or lies outside every interval of numbers. -/
theorem outside_of_none {lo hi : BitVec 32} (ha : exactValue a = none)
    (hlo : exactValue lo = some p) (hhi : exactValue hi = some q) :
    (Float32.ofBits ⟨a⟩).isNaN = true ∨ Float32.ofBits ⟨hi⟩ < Float32.ofBits ⟨a⟩ ∨
      Float32.ofBits ⟨a⟩ < Float32.ofBits ⟨lo⟩ := by
  have hvalue := (value_unpack a).trans ha
  cases hu : unpack Format.binary32 a with
  | notANumber =>
    left
    change (Float32.ofBits ⟨a⟩).toModel.unpack.isNaN = true
    rw [unpack_ofBits, hu]
    rfl
  | infinity s =>
    right
    cases s with
    | positive =>
      left
      have hv := (value_unpack hi).trans hhi
      rw [ofBits_lt, hu]
      cases hh : unpack Format.binary32 hi with
      | notANumber | infinity =>
        rw [hh] at hv
        cases hv
      | zero | finite => rfl
    | negative =>
      right
      have hv := (value_unpack lo).trans hlo
      rw [ofBits_lt, hu]
      cases hh : unpack Format.binary32 lo with
      | notANumber | infinity =>
        rw [hh] at hv
        cases hv
      | zero | finite => rfl
  | zero | finite =>
    rw [hu] at hvalue
    cases hvalue

end Native

end Binary32
