import LampVm.Binary32
import LampVm.LogicOps

/-!
# Conversion of floats to integers

`FTOI` refuses what is no number and what lies beyond two bounds that are written as decimal
literals. The upper one is not a binary32 number and is rounded up, so one value passes the test
that does not fit a register.
-/
namespace LampVm

open Contract Transition Binary32

/-! ## The conversion -/

/-- A conversion that is refused leaves a zero and the overflow flag. -/
structure Refused (flags reg : BitVec 32) : Prop where
  reg : reg = 0
  of : flags &&& flagOf ≠ 0
  zf : flags &&& flagZf = 0
  sf : flags &&& flagSf = 0
  cf : flags &&& flagCf = 0

/-- What `FTOI` should leave of a pattern, from its exact value. -/
def FtoiMeets (bits flags reg : BitVec 32) : Prop :=
  match exactValue bits with
  | none => Refused flags reg
  | some q =>
    if -(2 ^ 31) ≤ q ∧ q ≤ 2 ^ 31 - 1 then reg.toInt = truncate q ∧ ResultFlags flags reg
    else Refused flags reg

/-- The pattern of the upper bound as it is compiled. -/
abbrev roundedMax : BitVec 32 := 0x4F000000

theorem exactValue_max : exactValue roundedMax = some (2 ^ 31) := by
  have hexp : exponentField roundedMax = 158 := by decide
  have hsig : significand roundedMax = 2 ^ 23 := by decide
  have hneg : ¬ isNegative roundedMax := by decide
  rw [exactValue, hexp, hsig, scale, hexp, if_neg (by decide), if_neg hneg]
  norm_num

theorem exactValue_min : exactValue 0xCF000000 = some (-(2 ^ 31)) := by
  have hexp : exponentField 0xCF000000 = 158 := by decide
  have hsig : significand 0xCF000000 = 2 ^ 23 := by decide
  have hneg : isNegative 0xCF000000 := by decide
  rw [exactValue, hexp, hsig, scale, hexp, if_neg (by decide), if_pos hneg]
  norm_num

section Pattern

variable {bits : BitVec 32} {q : ℚ}

/-- The test of `FTOI`. -/
def ftoiRefuses (bits : BitVec 32) : Bool :=
  (regAsF32 bits).isNaN || decide (regAsF32 bits > f32IntMax) ||
    decide (regAsF32 bits < f32IntMin)

theorem ftoiRefuses_of_none (h : exactValue bits = none) : ftoiRefuses bits = true := by
  have houtside := outside_of_none h exactValue_min exactValue_max
  rw [ftoiRefuses, Bool.or_eq_true, Bool.or_eq_true, decide_eq_true_eq, decide_eq_true_eq, or_assoc]
  exact houtside

theorem ftoiRefuses_of_some (h : exactValue bits = some q) :
    ftoiRefuses bits = true ↔ 2 ^ 31 < q ∨ q < -(2 ^ 31) := by
  have hmax : regAsF32 bits > f32IntMax ↔ 2 ^ 31 < q := ofBits_lt_iff exactValue_max h
  have hmin : regAsF32 bits < f32IntMin ↔ q < -(2 ^ 31) := ofBits_lt_iff h exactValue_min
  have hnan : (regAsF32 bits).isNaN = false := isNaN_ofBits h
  rw [ftoiRefuses, hnan, Bool.false_or, Bool.or_eq_true, decide_eq_true_eq, decide_eq_true_eq, hmax,
    hmin]

theorem f32ToI32_of_some (h : exactValue bits = some q) : f32ToI32 (regAsF32 bits) =
    if -(2 ^ 31) ≤ truncate q ∧ truncate q < 2 ^ 31 then some (BitVec.ofInt 32 (truncate q))
    else none := by
  have htrunc : (regAsF32 bits).toModel.unpack.toInt (-(2 ^ 31) - 1) (2 ^ 31) = truncate q := by
    rw [regAsF32, unpack_ofBits]
    exact toInt_eq_truncate ((value_unpack bits).trans h) _ _
  rw [f32ToI32, htrunc]

theorem fits_max : Fits (2 ^ 23) 8 := ⟨by decide, by decide, .inr (by decide)⟩

theorem max_eq : ((2 ^ 23 : ℕ) : ℚ) * 2 ^ (8 : ℤ) = 2 ^ 31 := by norm_num

/-- A value is its magnitude with a sign. -/
theorem exactValue_cases (h : exactValue bits = some q) :
    (isNegative bits ∧ q = -(significand bits * 2 ^ scale bits)) ∨
      (¬ isNegative bits ∧ q = significand bits * 2 ^ scale bits) := by
  rw [exactValue] at h
  split_ifs at h with hinf hneg
  · obtain rfl := Option.some.inj h
    exact .inl ⟨hneg, neg_one_mul _⟩
  · obtain rfl := Option.some.inj h
    exact .inr ⟨hneg, one_mul _⟩

/-- Below two to the 31 the numbers are at least 128 apart. -/
theorem le_of_lt_max (h : exactValue bits = some q) (hlt : q < 2 ^ 31) : q ≤ 2 ^ 31 - 1 := by
  have hf := fits bits
  obtain ⟨-, rfl⟩ | ⟨-, rfl⟩ := exactValue_cases h
  · have hpos : (0 : ℚ) ≤ significand bits * 2 ^ scale bits := by positivity
    linarith
  · have hscale : scale bits ≤ 7 := by
      by_contra hge
      have hcompare := (hf.compare_eq_lt fits_max).mpr (hlt.trans_eq max_eq.symm)
      rw [Ordering.then_eq_lt, Int.compare_eq_lt, Int.compare_eq_eq, Nat.compare_eq_lt] at hcompare
      have hnormal := hf.normal
      omega
    have hsig : (significand bits : ℚ) ≤ 2 ^ 24 - 1 := by
      have : significand bits + 1 ≤ 2 ^ 24 := hf.lt
      have : (significand bits : ℚ) + 1 ≤ 2 ^ 24 := by exact_mod_cast this
      linarith
    have hpow : (2 : ℚ) ^ scale bits ≤ 2 ^ (7 : ℤ) := zpow_le_zpow_right₀ (by norm_num) hscale
    calc (significand bits : ℚ) * 2 ^ scale bits ≤ (2 ^ 24 - 1) * 2 ^ (7 : ℤ) :=
          mul_le_mul hsig hpow (by positivity) (by norm_num)
      _ ≤ 2 ^ 31 - 1 := by norm_num

/-- No other pattern has that value. -/
theorem eq_roundedMax (h : exactValue bits = some (2 ^ 31)) : bits = roundedMax := by
  have hf := fits bits
  obtain ⟨-, hq⟩ | ⟨hneg, hq⟩ := exactValue_cases h
  · have hpos : (0 : ℚ) ≤ significand bits * 2 ^ scale bits := by positivity
    have : (0 : ℚ) < 2 ^ 31 := by norm_num
    linarith
  rw [← max_eq] at hq
  have hscale : scale bits = 8 := by
    rcases lt_trichotomy (scale bits) 8 with hlt | heq | hgt
    · exact absurd hq (hf.lt_of_scale_lt fits_max hlt).ne'
    · exact heq
    · exact absurd hq (fits_max.lt_of_scale_lt hf hgt).ne
  have hsig : significand bits = 2 ^ 23 := by
    rw [hscale] at hq
    exact_mod_cast (mul_right_cancel₀ (by norm_num) hq).symm
  have hexp : exponentField bits = 158 := by
    unfold scale at hscale
    omega
  have hfrac : fraction bits = 0 := by
    rw [significand, hexp, if_neg (by decide)] at hsig
    omega
  apply BitVec.eq_of_toNat_eq
  have hlt := bits.isLt
  have hmax : roundedMax.toNat = 158 * 2 ^ 23 := by decide
  unfold exponentField at hexp
  unfold fraction at hfrac
  unfold isNegative at hneg
  omega

theorem truncate_bounds (hlo : -(2 ^ 31) ≤ q) (hhi : q ≤ 2 ^ 31 - 1) :
    -(2 ^ 31) ≤ truncate q ∧ truncate q < 2 ^ 31 := by
  unfold truncate
  split_ifs with h
  · refine ⟨by have := Int.floor_nonneg.mpr h; omega, Int.floor_lt.mpr ?_⟩
    push_cast
    linarith
  · have hceil : ⌈q⌉ ≤ 0 := Int.ceil_le.mpr (by push_cast; linarith)
    refine ⟨?_, by omega⟩
    have hle : ((-(2 ^ 31) : ℤ) : ℚ) ≤ q := by push_cast; exact hlo
    exact_mod_cast hle.trans (Int.le_ceil q)

end Pattern

/-! ## The instruction -/

section Instruction

variable {s : Vm} {c : ℕ} {i : Inst}

theorem refused_flags (flags : BitVec 32) :
    Refused ((flags ||| flagOf) &&& ~~~(flagZf ||| flagSf ||| flagCf)) 0 := by
  have hand : ∀ {mask : BitVec 32}, ~~~(flagZf ||| flagSf ||| flagCf) &&& mask = 0 →
      (flags ||| flagOf) &&& ~~~(flagZf ||| flagSf ||| flagCf) &&& mask = 0 := by
    intro mask hmask
    rw [BitVec.and_assoc, hmask]
    exact BitVec.and_zero
  refine ⟨rfl, ?_, hand (by decide), hand (by decide), hand (by decide)⟩
  rw [BitVec.and_assoc, show ~~~(flagZf ||| flagSf ||| flagCf) &&& flagOf = flagOf by decide]
  have hset := setFlag_and_self flags flagOf True
  rw [setFlag, if_pos trivial, if_pos trivial] at hset
  rw [hset]
  decide

theorem execFtoi_eq (hrs1 : IsReg i.rs1) : execFtoi c i s =
    (if ftoiRefuses (s.regValue c i.rs1) = true then do
      writeReg c i.rd 0
      modifyFlags c fun flags => flags ||| flagOf
      modifyFlags c fun flags => flags &&& ~~~(flagZf ||| flagSf ||| flagCf)
    else
      match f32ToI32 (regAsF32 (s.regValue c i.rs1)) with
      | some v => do
        writeReg c i.rd v
        updateLogicFlags c v
      | none => throw (Fault.floatToInt (s.regValue c i.rs1))) s :=
  bind_ok (readReg_regValue hrs1)

theorem modifyFlags_modifyFlags (f g : BitVec 32 → BitVec 32) :
    (modifyFlags c f >>= fun _ => modifyFlags c g) = modifyFlags c fun flags => g (f flags) := by
  funext vm
  simp only [modifyFlags, bind_apply, modifyCpu_apply, setCpu_cpus_self, setCpu_setCpu]

/-- The branch that refuses. -/
theorem execFtoi_refused (hrs1 : IsReg i.rs1) (hrd : IsReg i.rd)
    (h : ftoiRefuses (s.regValue c i.rs1) = true) :
    ∃ t, execFtoi c i s = .ok ((), t) ∧ Refused (t.cpus c).flags (t.regValue c i.rd) := by
  obtain ⟨t, ht, hreg, -, hflags⟩ := write_flags_run (s := s) (c := c) hrd 0
    fun flags => (flags ||| flagOf) &&& ~~~(flagZf ||| flagSf ||| flagCf)
  refine ⟨t, ?_, ?_⟩
  · rw [execFtoi_eq hrs1, if_pos h, modifyFlags_modifyFlags]
    exact ht
  · rw [hreg, hflags]
    exact refused_flags _

/-- The branch that converts. -/
theorem execFtoi_converts (hrs1 : IsReg i.rs1) (hrd : IsReg i.rd) {v : BitVec 32}
    (h : ftoiRefuses (s.regValue c i.rs1) = false)
    (hv : f32ToI32 (regAsF32 (s.regValue c i.rs1)) = some v) :
    ∃ t, execFtoi c i s = .ok ((), t) ∧ t.regValue c i.rd = v ∧
      ResultFlags (t.cpus c).flags v := by
  obtain ⟨t, ht, hreg, -, hflags⟩ := write_flags_run (s := s) (c := c) hrd v
    fun flags => logicFlags flags v
  refine ⟨t, ?_, hreg, ?_⟩
  · rw [execFtoi_eq hrs1, if_neg (ne_true_of_eq_false h), hv]
    exact ht
  · rw [hflags]
    exact resultFlags_logicFlags _ _

theorem execFtoi_undefined (hrs1 : IsReg i.rs1) (h : ftoiRefuses (s.regValue c i.rs1) = false)
    (hv : f32ToI32 (regAsF32 (s.regValue c i.rs1)) = none) :
    execFtoi c i s = .error (.floatToInt (s.regValue c i.rs1)) := by
  rw [execFtoi_eq hrs1, if_neg (ne_true_of_eq_false h), hv]
  rfl

theorem execFtoi_meets_iff (hrs1 : IsReg i.rs1) (hrd : IsReg i.rd) :
    (∃ t, execFtoi c i s = .ok ((), t) ∧
      FtoiMeets (s.regValue c i.rs1) (t.cpus c).flags (t.regValue c i.rd)) ↔
      s.regValue c i.rs1 ≠ roundedMax := by
  cases hbits : exactValue (s.regValue c i.rs1) with
  | none =>
    obtain ⟨t, hrun, hrefused⟩ := execFtoi_refused (s := s) (c := c) hrs1 hrd
      (ftoiRefuses_of_none hbits)
    refine iff_of_true ⟨t, hrun, ?_⟩ fun heq => ?_
    · rw [FtoiMeets, hbits]
      exact hrefused
    · rw [heq, exactValue_max] at hbits
      cases hbits
  | some q =>
    have hne : q ≠ 2 ^ 31 ↔ s.regValue c i.rs1 ≠ roundedMax := by
      refine not_congr ⟨fun h => eq_roundedMax (h ▸ hbits), fun h => ?_⟩
      rw [h, exactValue_max] at hbits
      exact (Option.some.inj hbits).symm
    rw [← hne]
    simp only [FtoiMeets, hbits]
    by_cases hrefuse : ftoiRefuses (s.regValue c i.rs1) = true
    · obtain ⟨t, hrun, hrefused⟩ := execFtoi_refused (s := s) (c := c) hrs1 hrd hrefuse
      have hout := (ftoiRefuses_of_some hbits).mp hrefuse
      refine iff_of_true ⟨t, hrun, ?_⟩ ?_
      · rw [if_neg]
        · exact hrefused
        · rintro ⟨hlo, hhi⟩
          rcases hout with h | h <;> linarith
      · rintro rfl
        rcases hout with h | h <;> norm_num at h
    · have hin := mt (ftoiRefuses_of_some hbits).mpr hrefuse
      rw [not_or, not_lt, not_lt] at hin
      have hfalse := eq_false_of_ne_true hrefuse
      have hconvert := f32ToI32_of_some hbits
      by_cases hq : q = 2 ^ 31
      · refine iff_of_false ?_ (not_not.mpr hq)
        rintro ⟨t, hrun, -⟩
        have htrunc : truncate q = 2 ^ 31 := by
          rw [hq, truncate, if_pos (by norm_num)]
          norm_num
        rw [htrunc, if_neg (by decide)] at hconvert
        rw [execFtoi_undefined hrs1 hfalse hconvert] at hrun
        cases hrun
      · have hle := le_of_lt_max hbits (lt_of_le_of_ne hin.1 hq)
        have hbounds := truncate_bounds hin.2 hle
        rw [if_pos hbounds] at hconvert
        obtain ⟨t, hrun, hreg, hflags⟩ := execFtoi_converts (s := s) (c := c) hrs1 hrd hfalse
          hconvert
        refine iff_of_true ⟨t, hrun, ?_⟩ hq
        rw [if_pos ⟨hin.2, hle⟩, hreg]
        refine ⟨?_, hflags⟩
        rw [BitVec.toInt_ofInt]
        exact Int.bmod_eq_of_le (by omega) (by omega)

/-- `FTOI` ends as it should for every pattern but one, for which the conversion in the source is
undefined. -/
theorem ftoi_meets_iff (hram : inRam s (s.cpus c).fetchIp 8)
    (hcode : (s.nextInst c).op = Opcode.ftoi.code) (hrs1 : IsReg (s.nextInst c).rs1)
    (hrd : IsReg (s.nextInst c).rd) :
    (∃ t, vmInstructionCase c s = .ok ((), t) ∧
      FtoiMeets (s.regValue c (s.nextInst c).rs1) (t.cpus c).flags
        (t.regValue c (s.nextInst c).rd)) ↔
      s.regValue c (s.nextInst c).rs1 ≠ roundedMax := by
  rw [vmInstructionCase_of_inRam hram hcode, execute, ← fetched_regValue s c]
  exact execFtoi_meets_iff hrs1 hrd

end Instruction

/-- A program that converts a pattern, before its `FTOI`. -/
theorem exists_ftoi (bits : BitVec 32) : ∃ s, Reachable (machine memSize 1) s ∧
    inRam s (s.cpus 0).fetchIp 8 ∧ s.nextInst 0 = ⟨Opcode.ftoi.code, 2, 1, 0, 0⟩ ∧
    s.regValue 0 1 = bits := by
  obtain ⟨s, hs, hram, hinst, hcpu⟩ := exists_second ⟨Opcode.movi.code, 1, 0, 0, bits⟩
    ⟨Opcode.ftoi.code, 2, 1, 0, 0⟩ rfl
    (fun cpu => cpu.withResult (show IsReg 1 by decide) bits) rfl
    fun _ => setLogic_of_isReg (show IsReg 1 by decide) bits
  refine ⟨s, hs, hram, hinst, ?_⟩
  rw [Vm.regValue, hcpu]
  rfl

theorem exactValue_fraction : exactValue 0xC0300000 = some (-(11 / 4)) := by
  have hexp : exponentField 0xC0300000 = 128 := by decide
  have hsig : significand 0xC0300000 = 11 * 2 ^ 20 := by decide
  have hneg : isNegative 0xC0300000 := by decide
  rw [exactValue, hexp, hsig, scale, hexp, if_neg (by decide), if_pos hneg]
  norm_num

/-- Minus two and three quarters becomes minus two. -/
theorem ftoi_meets_fraction : ∃ s t, Reachable (machine memSize 1) s ∧
    s.regValue 0 1 = 0xC0300000 ∧ vmInstructionCase 0 s = .ok ((), t) ∧
    FtoiMeets 0xC0300000 (t.cpus 0).flags (t.regValue 0 2) ∧ t.regValue 0 2 = -2 := by
  obtain ⟨s, hs, hram, hinst, hbits⟩ := exists_ftoi 0xC0300000
  have hiff := ftoi_meets_iff hram (by rw [hinst]) (by rw [hinst]; decide) (by rw [hinst]; decide)
  rw [hinst, hbits] at hiff
  obtain ⟨t, hrun, hmeets⟩ := hiff.mpr (by decide)
  refine ⟨s, t, hs, hbits, hrun, hmeets, ?_⟩
  simp only [FtoiMeets, exactValue_fraction] at hmeets
  rw [if_pos (by norm_num)] at hmeets
  have hceil : ⌈(-(11 / 4) : ℚ)⌉ = -2 := Int.ceil_eq_iff.mpr (by norm_num)
  refine BitVec.eq_of_toInt_eq (hmeets.1.trans ?_)
  rw [truncate, if_neg (by norm_num), hceil]
  rfl

/-- Two to the 31, which is the upper bound as it is compiled, passes the test. -/
theorem ftoi_max_undefined : ¬ ∀ (memorySize : ℕ) (smpCores : ℤ) (s : Vm) (c : ℕ),
    Reachable (machine memorySize smpCores) s → inRam s (s.cpus c).fetchIp 8 →
    (s.nextInst c).op = Opcode.ftoi.code → IsReg (s.nextInst c).rs1 → IsReg (s.nextInst c).rd →
    ∃ t, vmInstructionCase c s = .ok ((), t) ∧
      FtoiMeets (s.regValue c (s.nextInst c).rs1) (t.cpus c).flags
        (t.regValue c (s.nextInst c).rd) := by
  intro h
  obtain ⟨s, hs, hram, hinst, hbits⟩ := exists_ftoi roundedMax
  have hcode : (s.nextInst 0).op = Opcode.ftoi.code := by rw [hinst]
  have hrs1 : IsReg (s.nextInst 0).rs1 := by
    rw [hinst]
    decide
  have hrd : IsReg (s.nextInst 0).rd := by
    rw [hinst]
    decide
  have hclaim := h _ _ s 0 hs hram hcode hrs1 hrd
  rw [vmInstructionCase_of_inRam hram hcode, execute, ← fetched_regValue s 0] at hclaim
  refine (execFtoi_meets_iff hrs1 hrd).mp hclaim ((fetched_regValue s 0 _).trans ?_)
  rw [hinst]
  exact hbits

end LampVm
