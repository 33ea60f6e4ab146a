import Mathlib.Data.Int.DivMod
import Mathlib.Tactic

/-!
# Sixty-four bit division

`kernel/src/compiler_rt_divmod.c`, to which the compiler turns the kernel's 64-bit divisions. The
divisor is shifted left until it has the size of the dividend, and subtracted wherever it fits on
its way back.
-/
namespace LampVm

/-! ## The code -/

/-- The two shifts of `Div`; `none` stands for a shift that is not allowed. -/
structure DivShifts where
  shl : BitVec 64 → Option (BitVec 64)
  shr : BitVec 64 → Option (BitVec 64)

/-- The shifts of the code. -/
def DivShifts.plain : DivShifts where
  shl x := some (x <<< 1)
  shr x := some (x >>> 1)

/-- Shifts that are not allowed to lose a set bit. -/
def DivShifts.lossless : DivShifts where
  shl x := if x <<< 1 >>> 1 = x then some (x <<< 1) else none
  shr x := if x >>> 1 <<< 1 = x then some (x >>> 1) else none

def uabsdi (v : BitVec 64) : BitVec 64 := if v.toInt < 0 then 0 - v else v

/-- The loop that aligns the divisor: it and the number of shifts, unless the fuel runs out. -/
def alignDiv (shifts : DivShifts) (a : BitVec 64) : ℕ → BitVec 64 → ℕ → Option (BitVec 64 × ℕ)
  | 0, _, _ => none
  | n + 1, div, shift =>
    if div >>> 63 = 0 ∧ div ≤ a >>> 1 then do
      let div ← shifts.shl div
      alignDiv shifts a n div (shift + 1)
    else some (div, shift)

/-- One subtraction: what is left of the dividend, and the quotient. -/
def divRound (a div quot : BitVec 64) : BitVec 64 × BitVec 64 :=
  let quot := quot <<< 1
  if a ≥ div then (a - div, quot ||| 1) else (a, quot)

/-- The loop that subtracts, with the shifts that are left: the quotient and the remainder. -/
def divLoop (shifts : DivShifts) : ℕ → BitVec 64 → BitVec 64 → BitVec 64 →
    Option (BitVec 64 × BitVec 64)
  | 0, a, div, quot =>
    let (a, quot) := divRound a div quot
    some (quot, a)
  | shift + 1, a, div, quot => do
    let (a, quot) := divRound a div quot
    let div ← shifts.shr div
    divLoop shifts shift a div quot

def udivmoddi4With (shifts : DivShifts) (a b : BitVec 64) : Option (BitVec 64 × BitVec 64) :=
  if b = 0 then some (0, 0)
  else if a < b then some (0, a)
  else do
    let (div, shift) ← alignDiv shifts a 64 b 0
    divLoop shifts shift a div 0

/-- `__udivmoddi4`. There is no result when 64 rounds are not enough. -/
def udivmoddi4 (a b : BitVec 64) : Option (BitVec 64 × BitVec 64) := udivmoddi4With .plain a b

def udivdi3 (a b : BitVec 64) : Option (BitVec 64) := (udivmoddi4 a b).map Prod.fst
def umoddi3 (a b : BitVec 64) : Option (BitVec 64) := (udivmoddi4 a b).map Prod.snd

/-- `__divdi3`, whose negation wraps. -/
def divdi3 (a b : BitVec 64) : Option (BitVec 64) :=
  if b = 0 then some 0
  else do
    let neg := decide (a.toInt < 0) != decide (b.toInt < 0)
    let q ← udivdi3 (uabsdi a) (uabsdi b)
    if neg then some (-q) else some q

def moddi3 (a b : BitVec 64) : Option (BitVec 64) :=
  if b = 0 then some 0
  else do
    let r ← umoddi3 (uabsdi a) (uabsdi b)
    if a.toInt < 0 then some (-r) else some r

/-! ## Shift and subtract -/

/-- Shifts that do what is expected where no bit is lost. -/
structure DivShifts.Exact (shifts : DivShifts) : Prop where
  shl : ∀ x : BitVec 64, x.toNat < 2 ^ 63 → shifts.shl x = some (x <<< 1)
  shr : ∀ x : BitVec 64, x.toNat % 2 = 0 → shifts.shr x = some (x >>> 1)

theorem plain_exact : DivShifts.plain.Exact := ⟨fun _ _ => rfl, fun _ _ => rfl⟩

theorem shiftLeft_one_toNat {x : BitVec 64} (h : x.toNat < 2 ^ 63) :
    (x <<< 1).toNat = 2 * x.toNat := by
  simp only [BitVec.toNat_shiftLeft, Nat.shiftLeft_eq]
  omega

theorem shiftRight_one_toNat (x : BitVec 64) : (x >>> 1).toNat = x.toNat / 2 := by
  simp [BitVec.toNat_ushiftRight, Nat.shiftRight_eq_div_pow]

theorem lossless_exact : DivShifts.lossless.Exact where
  shl x hx := by
    have hback : x <<< 1 >>> 1 = x := by
      apply BitVec.eq_of_toNat_eq
      rw [shiftRight_one_toNat, shiftLeft_one_toNat hx]
      omega
    simp [DivShifts.lossless, hback]
  shr x hx := by
    have hback : x >>> 1 <<< 1 = x := by
      have hlt := x.isLt
      apply BitVec.eq_of_toNat_eq
      rw [shiftLeft_one_toNat (by rw [shiftRight_one_toNat]; omega), shiftRight_one_toNat]
      omega
    simp [DivShifts.lossless, hback]

section Loops

variable {shifts : DivShifts} {a div quot : BitVec 64} {b s n : ℕ}

theorem shiftRight_63_eq_zero_iff : div >>> 63 = 0 ↔ div.toNat < 2 ^ 63 := by
  have hlt := div.isLt
  rw [← BitVec.toNat_inj]
  simp only [BitVec.toNat_ushiftRight, Nat.shiftRight_eq_div_pow]
  change _ = 0 ↔ _
  omega

/-- The divisor ends at the largest multiple by a power of two that does not exceed `a`. -/
theorem alignDiv_spec (hs : shifts.Exact) (hb : 0 < b) (hdiv : div.toNat = b * 2 ^ s)
    (hle : div.toNat ≤ a.toNat) (hfuel : n + s = 64) : ∃ div' s',
    alignDiv shifts a n div s = some (div', s') ∧ div'.toNat = b * 2 ^ s' ∧
      div'.toNat ≤ a.toNat ∧ a.toNat < 2 * div'.toNat := by
  induction n generalizing div s with
  | zero =>
    obtain rfl : s = 64 := by omega
    have hlt := div.isLt
    omega
  | succ n ih =>
    by_cases hgo : div >>> 63 = 0 ∧ div ≤ a >>> 1
    · have hsmall := shiftRight_63_eq_zero_iff.mp hgo.1
      have hhalf : div.toNat ≤ a.toNat / 2 := shiftRight_one_toNat a ▸ hgo.2
      have hshl := shiftLeft_one_toNat hsmall
      rw [alignDiv, if_pos hgo, hs.shl div hsmall]
      have hdiv' : (div <<< 1).toNat = b * 2 ^ (s + 1) := by
        rw [hshl, hdiv, pow_succ]
        ring
      exact ih hdiv' (by omega) (by omega)
    · refine ⟨div, s, by rw [alignDiv, if_neg hgo], hdiv, hle, ?_⟩
      rw [shiftRight_63_eq_zero_iff, BitVec.le_def, shiftRight_one_toNat] at hgo
      have hlt := a.isLt
      omega

theorem shiftLeft_or_one (h : quot.toNat < 2 ^ 63) :
    (quot <<< 1 ||| 1).toNat = 2 * quot.toNat + 1 := by
  have hdouble := shiftLeft_one_toNat h
  have hor : 2 * quot.toNat ||| 1 = 2 * quot.toNat + 1 := by
    have := Nat.shiftLeft_add_eq_or_of_lt (show 1 < 2 ^ 1 by decide) quot.toNat
    rwa [Nat.shiftLeft_eq, pow_one, mul_comm, eq_comm] at this
  rw [BitVec.toNat_or, hdouble]
  exact hor

theorem divRound_spec (hlt : a.toNat < 2 * div.toNat) (hquot : quot.toNat < 2 ^ 63) :
    ∃ bit, a.toNat = bit * div.toNat + (divRound a div quot).1.toNat ∧
      (divRound a div quot).1.toNat < div.toNat ∧
      (divRound a div quot).2.toNat = 2 * quot.toNat + bit := by
  by_cases hfits : a ≥ div
  · have hle : div.toNat ≤ a.toNat := hfits
    have hsub : (a - div).toNat = a.toNat - div.toNat := BitVec.toNat_sub_of_le hfits
    refine ⟨1, ?_, ?_, ?_⟩
    · simp only [divRound, if_pos hfits, hsub]
      omega
    · simp only [divRound, if_pos hfits, hsub]
      omega
    · simp only [divRound, if_pos hfits, shiftLeft_or_one hquot]
  · have hgt : a.toNat < div.toNat := BitVec.not_le.mp hfits
    refine ⟨0, ?_, ?_, ?_⟩
    · simp [divRound, if_neg hfits]
    · simpa [divRound, if_neg hfits] using hgt
    · simp [divRound, if_neg hfits, shiftLeft_one_toNat hquot]

theorem quot_small {m : ℕ} (h : quot.toNat * 2 ^ (s + 1) + m < 2 ^ 64) : quot.toNat < 2 ^ 63 := by
  have hpow : quot.toNat * 2 ≤ quot.toNat * 2 ^ (s + 1) :=
    Nat.mul_le_mul_left _ (Nat.le_self_pow (by omega) 2)
  omega

/-- The loop divides by `b` what is less than twice the shifted divisor. -/
theorem divLoop_spec (hs : shifts.Exact) (hb : 0 < b) (hdiv : div.toNat = b * 2 ^ s)
    (hlt : a.toNat < 2 * div.toNat) (hquot : quot.toNat * 2 ^ (s + 1) + a.toNat / b < 2 ^ 64) :
    ∃ q r, divLoop shifts s a div quot = some (q, r) ∧
      q.toNat = quot.toNat * 2 ^ (s + 1) + a.toNat / b ∧ r.toNat = a.toNat % b := by
  induction s generalizing a div quot with
  | zero =>
    obtain ⟨bit, ha, hrest, hnext⟩ := divRound_spec hlt (quot_small hquot)
    rw [hdiv, pow_zero, mul_one] at ha hrest
    refine ⟨(divRound a div quot).2, (divRound a div quot).1, rfl, ?_, ?_⟩
    · rw [hnext, ha, mul_comm bit b, Nat.mul_add_div hb, Nat.div_eq_of_lt hrest]
      omega
    · rw [ha, mul_comm bit b, Nat.mul_add_mod, Nat.mod_eq_of_lt hrest]
  | succ s ih =>
    obtain ⟨bit, ha, hrest, hnext⟩ := divRound_spec hlt (quot_small hquot)
    have heven : div.toNat % 2 = 0 := by
      rw [hdiv, pow_succ, ← mul_assoc]
      exact Nat.mul_mod_left _ 2
    have hhalf : (div >>> 1).toNat = b * 2 ^ s := by
      rw [shiftRight_one_toNat, hdiv, pow_succ, ← mul_assoc]
      exact Nat.mul_div_cancel _ (by decide)
    have hdouble : div.toNat = 2 * (div >>> 1).toNat := by
      rw [shiftRight_one_toNat]
      omega
    have hmul : bit * div.toNat = b * (bit * 2 ^ (s + 1)) := by
      rw [hdiv]
      ring
    rw [hmul] at ha
    have hquotient : a.toNat / b =
        bit * 2 ^ (s + 1) + (divRound a div quot).1.toNat / b := by
      rw [ha, Nat.mul_add_div hb]
    have hsum : (divRound a div quot).2.toNat * 2 ^ (s + 1) +
        (divRound a div quot).1.toNat / b = quot.toNat * 2 ^ (s + 1 + 1) + a.toNat / b := by
      rw [hquotient, hnext, pow_succ _ (s + 1)]
      ring
    obtain ⟨q, r, hrun, hq, hr⟩ : ∃ q r,
        divLoop shifts s (divRound a div quot).1 (div >>> 1) (divRound a div quot).2 =
          some (q, r) ∧ _ := ih hhalf (by omega) (by rwa [hsum])
    refine ⟨q, r, ?_, hq.trans hsum, ?_⟩
    · rw [divLoop, hs.shr div heven]
      exact hrun
    · rw [hr, ha, Nat.mul_add_mod]

end Loops

/-! ## The divisions -/

section Division

variable {a b : BitVec 64}

theorem udivmoddi4With_spec {shifts : DivShifts} (hs : shifts.Exact) (hb : b ≠ 0) :
    udivmoddi4With shifts a b = some (a / b, a % b) := by
  have hpos : 0 < b.toNat := BitVec.toNat_pos_of_ne_zero hb
  rw [udivmoddi4With, if_neg hb]
  by_cases hlt : a < b
  · rw [if_pos hlt, BitVec.umod_eq_of_lt hlt]
    have hzero : a / b = 0 := by
      apply BitVec.eq_of_toNat_eq
      simp [BitVec.toNat_udiv, Nat.div_eq_of_lt hlt]
    rw [hzero]
  · rw [if_neg hlt]
    obtain ⟨div, s, hrun, hdiv, hle, hbig⟩ := alignDiv_spec hs (n := 64) (s := 0) hpos
      (by simp) (BitVec.not_lt.mp hlt) rfl
    have hquotient : a.toNat / b.toNat < 2 ^ 64 := (Nat.div_le_self _ _).trans_lt a.isLt
    have hsum : (0 : BitVec 64).toNat * 2 ^ (s + 1) + a.toNat / b.toNat < 2 ^ 64 := by
      simpa using hquotient
    obtain ⟨q, r, hloop, hq, hr⟩ := divLoop_spec hs hpos hdiv hbig hsum
    rw [hrun]
    refine hloop.trans ?_
    congr 2
    · apply BitVec.eq_of_toNat_eq
      simpa [BitVec.toNat_udiv] using hq
    · apply BitVec.eq_of_toNat_eq
      simpa [BitVec.toNat_umod] using hr

theorem uabsdi_toNat (v : BitVec 64) : (uabsdi v).toNat = v.toInt.natAbs := by
  have hlt := v.isLt
  unfold uabsdi
  split_ifs with hneg
  · rw [BitVec.toInt_eq_toNat_cond] at hneg ⊢
    rw [show 0 - v = -v from BitVec.zero_sub v, BitVec.toNat_neg]
    split_ifs at hneg ⊢ <;> omega
  · rw [BitVec.toInt_eq_toNat_cond] at hneg ⊢
    split_ifs at hneg ⊢ <;> omega

theorem uabsdi_ne_zero (hb : b ≠ 0) : uabsdi b ≠ 0 := by
  intro hzero
  have habs := uabsdi_toNat b
  rw [hzero] at habs
  have hint : b.toInt = 0 := Int.natAbs_eq_zero.mp habs.symm
  exact hb (BitVec.toInt_inj.mp (hint.trans rfl))

theorem toInt_of_neg {v : BitVec 64} (h : v.toInt < 0) : v.toInt = -((uabsdi v).toNat : ℤ) := by
  rw [uabsdi_toNat]
  omega

theorem toInt_of_not_neg {v : BitVec 64} (h : ¬ v.toInt < 0) : v.toInt = (uabsdi v).toNat := by
  rw [uabsdi_toNat]
  omega

theorem ofInt_tdiv (a b : BitVec 64) :
    BitVec.ofInt 64 ((a.toNat : ℤ).tdiv b.toNat) = a / b := by
  apply BitVec.eq_of_toNat_eq
  rw [← Int.ofNat_tdiv, BitVec.ofInt_natCast, ← BitVec.toNat_udiv, BitVec.ofNat_toNat,
    BitVec.setWidth_eq]

theorem ofInt_tmod (a b : BitVec 64) :
    BitVec.ofInt 64 ((a.toNat : ℤ).tmod b.toNat) = a % b := by
  apply BitVec.eq_of_toNat_eq
  rw [← Int.ofNat_tmod, BitVec.ofInt_natCast, ← BitVec.toNat_umod, BitVec.ofNat_toNat,
    BitVec.setWidth_eq]

/-- The sign of the quotient is put back. -/
theorem divdi3_spec (hb : b ≠ 0) :
    divdi3 a b = some (BitVec.ofInt 64 (a.toInt.tdiv b.toInt)) := by
  have hrun : udivdi3 (uabsdi a) (uabsdi b) = some (uabsdi a / uabsdi b) := by
    simp [udivdi3, udivmoddi4, udivmoddi4With_spec plain_exact (uabsdi_ne_zero hb)]
  by_cases ha : a.toInt < 0 <;> by_cases hb' : b.toInt < 0
  · rw [toInt_of_neg ha, toInt_of_neg hb', Int.neg_tdiv, Int.tdiv_neg, neg_neg, ofInt_tdiv]
    rw [divdi3, if_neg hb, hrun]
    simp [ha, hb']
  · rw [toInt_of_neg ha, toInt_of_not_neg hb', Int.neg_tdiv, BitVec.ofInt_neg, ofInt_tdiv]
    rw [divdi3, if_neg hb, hrun]
    simp [ha, hb']
  · rw [toInt_of_not_neg ha, toInt_of_neg hb', Int.tdiv_neg, BitVec.ofInt_neg, ofInt_tdiv]
    rw [divdi3, if_neg hb, hrun]
    simp [ha, hb']
  · rw [toInt_of_not_neg ha, toInt_of_not_neg hb', ofInt_tdiv]
    rw [divdi3, if_neg hb, hrun]
    simp [ha, hb']

/-- The remainder has the sign of the dividend. -/
theorem moddi3_spec (hb : b ≠ 0) :
    moddi3 a b = some (BitVec.ofInt 64 (a.toInt.tmod b.toInt)) := by
  have hrun : umoddi3 (uabsdi a) (uabsdi b) = some (uabsdi a % uabsdi b) := by
    simp [umoddi3, udivmoddi4, udivmoddi4With_spec plain_exact (uabsdi_ne_zero hb)]
  have habs : a.toInt.tmod b.toInt = a.toInt.tmod (uabsdi b).toNat := by
    by_cases hb' : b.toInt < 0
    · rw [toInt_of_neg hb', Int.tmod_neg]
    · rw [toInt_of_not_neg hb']
  rw [habs]
  by_cases ha : a.toInt < 0
  · rw [toInt_of_neg ha, Int.neg_tmod, BitVec.ofInt_neg, ofInt_tmod]
    rw [moddi3, if_neg hb, hrun]
    simp [ha]
  · rw [toInt_of_not_neg ha, ofInt_tmod]
    rw [moddi3, if_neg hb, hrun]
    simp [ha]

/-- Division by anything but zero ends with the right results, and would end with them if a shift of
the divisor that loses a bit were an error. The signed results are exact up to the one quotient that
does not fit, which wraps. -/
theorem divmod_exact (a b : BitVec 64) (hb : b ≠ 0) :
    (∃ q r, udivmoddi4 a b = some (q, r) ∧ udivmoddi4With .lossless a b = some (q, r) ∧
      udivdi3 a b = some q ∧ umoddi3 a b = some r ∧
      a.toNat = q.toNat * b.toNat + r.toNat ∧ r < b) ∧
    divdi3 a b = some (BitVec.ofInt 64 (a.toInt.tdiv b.toInt)) ∧
    moddi3 a b = some (BitVec.ofInt 64 (a.toInt.tmod b.toInt)) := by
  have hrun : udivmoddi4 a b = some (a / b, a % b) := udivmoddi4With_spec plain_exact hb
  have hsum : a.toNat = (a / b).toNat * b.toNat + (a % b).toNat := by
    rw [BitVec.toNat_udiv, BitVec.toNat_umod, mul_comm]
    exact (Nat.div_add_mod _ _).symm
  have hlt : a % b < b := BitVec.umod_lt a ((BitVec.pos_iff_ne_zero b).mpr hb)
  refine ⟨⟨a / b, a % b, hrun, udivmoddi4With_spec lossless_exact hb, ?_, ?_, hsum, hlt⟩,
    divdi3_spec hb, moddi3_spec hb⟩
  · simp [udivdi3, hrun]
  · simp [umoddi3, hrun]

/-- The least number divided by one and by minus one. -/
theorem divmod_exact_intMin :
    divdi3 (BitVec.intMin 64) 1 = some (BitVec.ofInt 64 ((BitVec.intMin 64).toInt.tdiv (1 : BitVec 64).toInt)) ∧
    divdi3 (BitVec.intMin 64) (-1) = some (BitVec.intMin 64) := by
  refine ⟨(divmod_exact _ _ (by decide)).2.1, ?_⟩
  rw [(divmod_exact (BitVec.intMin 64) (-1) (by decide)).2.1]
  decide

end Division

end LampVm
