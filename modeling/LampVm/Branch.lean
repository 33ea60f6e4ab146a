import LampVm.Create

/-!
# Comparisons and the conditional jumps that follow them

A comparison leaves its outcome in four flags, and a jump combines raw flag bits.
`SF` and `OF` are different bits of the word, so a jump that tests whether the
two masked words are equal tests whether both flags are clear. Signed jumps
therefore err exactly when the difference overflows upwards.
-/
namespace LampVm

/-! ## Flags of a subtraction -/

theorem setFlag_and_self (flags mask : BitVec 32) (on : Prop) [Decidable on] :
    setFlag flags mask on &&& mask = if on then mask else 0 := by
  unfold setFlag
  split
  · ext i hi; simp; tauto
  · ext i hi; simp

theorem setFlag_and_of_disjoint {flags mask other : BitVec 32} {on : Prop} [Decidable on]
    (h : mask &&& other = 0) : setFlag flags mask on &&& other = flags &&& other := by
  unfold setFlag
  split
  · rw [BitVec.and_or_distrib_right, h]; simp
  · have hbit : ∀ i, (mask &&& other).getLsbD i = false := by simp [h]
    apply BitVec.eq_of_getLsbD_eq
    intro i hi
    have := hbit i
    simp only [BitVec.getLsbD_and, BitVec.getLsbD_not] at this ⊢
    cases hm : mask.getLsbD i <;> cases ho : other.getLsbD i <;> simp_all

/-- The overflow test of `update_sub_flags`. -/
def subOverflow (a b result : BitVec 32) : Prop :=
  (a.toInt > 0 ∧ b.toInt < 0 ∧ result.toInt < 0) ∨
    (a.toInt < 0 ∧ b.toInt > 0 ∧ result.toInt > 0)

instance (a b result : BitVec 32) : Decidable (subOverflow a b result) :=
  inferInstanceAs (Decidable (_ ∨ _))

variable (flags a b result : BitVec 32)

theorem subFlags_zf : subFlags flags a b result &&& flagZf = if result = 0 then flagZf else 0 := by
  unfold subFlags zfSfFlags
  rw [setFlag_and_of_disjoint (by decide), setFlag_and_self]

theorem subFlags_sf :
    subFlags flags a b result &&& flagSf = if result.toInt < 0 then flagSf else 0 := by
  unfold subFlags zfSfFlags
  rw [setFlag_and_self]

theorem subFlags_of :
    subFlags flags a b result &&& flagOf = if subOverflow a b result then flagOf else 0 := by
  unfold subFlags zfSfFlags
  rw [setFlag_and_of_disjoint (by decide), setFlag_and_of_disjoint (by decide), setFlag_and_self]
  rfl

theorem subFlags_cf : subFlags flags a b result &&& flagCf = if a < b then flagCf else 0 := by
  unfold subFlags zfSfFlags
  rw [setFlag_and_of_disjoint (by decide), setFlag_and_of_disjoint (by decide),
    setFlag_and_of_disjoint (by decide), setFlag_and_self]

/-! ## Jumps -/

/-- The eight absolute conditional jumps. -/
inductive Jump
  | jz | jnz | jl | jle | jg | jge | jc | jnc
  deriving DecidableEq, Repr

def Jump.opcode : Jump → Opcode
  | .jz => .jz
  | .jnz => .jnz
  | .jl => .jl
  | .jle => .jle
  | .jg => .jg
  | .jge => .jge
  | .jc => .jc
  | .jnc => .jnc

/-- The test on the flags that the jump's case makes. -/
def Jump.cond : Jump → BitVec 32 → Bool
  | .jz => condZ
  | .jnz => condNz
  | .jl => condL
  | .jle => condLe
  | .jg => condG
  | .jge => condGe
  | .jc => condC
  | .jnc => condNc

/-- The relation the jump is named after. -/
def Jump.relation : Jump → BitVec 32 → BitVec 32 → Prop
  | .jz, a, b => a = b
  | .jnz, a, b => a ≠ b
  | .jl, a, b => a.toInt < b.toInt
  | .jle, a, b => a.toInt ≤ b.toInt
  | .jg, a, b => a.toInt > b.toInt
  | .jge, a, b => a.toInt ≥ b.toInt
  | .jc, a, b => a < b
  | .jnc, a, b => a ≥ b

instance : (j : Jump) → (a b : BitVec 32) → Decidable (j.relation a b)
  | .jz, a, b => inferInstanceAs (Decidable (a = b))
  | .jnz, a, b => inferInstanceAs (Decidable (a ≠ b))
  | .jl, a, b => inferInstanceAs (Decidable (a.toInt < b.toInt))
  | .jle, a, b => inferInstanceAs (Decidable (a.toInt ≤ b.toInt))
  | .jg, a, b => inferInstanceAs (Decidable (a.toInt > b.toInt))
  | .jge, a, b => inferInstanceAs (Decidable (a.toInt ≥ b.toInt))
  | .jc, a, b => inferInstanceAs (Decidable (a < b))
  | .jnc, a, b => inferInstanceAs (Decidable (a ≥ b))

/-- The jumps that compare as signed integers. -/
def Jump.signedOrder : Jump → Bool
  | .jl | .jle | .jg | .jge => true
  | _ => false

/-! ## What the flag tests decide -/

theorem condZ_subFlags : condZ (subFlags flags a b result) = decide (result = 0) := by
  rw [condZ, subFlags_zf]
  split <;> simp_all

theorem condC_subFlags : condC (subFlags flags a b result) = decide (a < b) := by
  rw [condC, subFlags_cf]
  split <;> simp_all

/-- Equality of the masked words means that neither flag is set. -/
theorem condGe_subFlags : condGe (subFlags flags a b result) =
    decide (¬ result.toInt < 0 ∧ ¬ subOverflow a b result) := by
  rw [condGe, subFlags_sf, subFlags_of]
  split <;> split <;> simp_all

theorem condL_subFlags : condL (subFlags flags a b result) =
    decide (result.toInt < 0 ∨ subOverflow a b result) := by
  rw [condL, subFlags_sf, subFlags_of]
  split <;> split <;> simp_all

theorem condG_subFlags : condG (subFlags flags a b result) =
    (decide (result ≠ 0) && condGe (subFlags flags a b result)) := by
  rw [condG, condZ_subFlags, condGe]
  simp

theorem condLe_subFlags : condLe (subFlags flags a b result) =
    (decide (result = 0) || condL (subFlags flags a b result)) := by
  rw [condLe, condZ_subFlags, condL]

/-- The wrapped difference, by the way the exact difference leaves the range. -/
theorem toInt_sub_cases :
    (a - b).toInt = a.toInt - b.toInt ∧
        -(2 ^ 31) ≤ a.toInt - b.toInt ∧ a.toInt - b.toInt < 2 ^ 31 ∨
      (a - b).toInt = a.toInt - b.toInt - 2 ^ 32 ∧ 2 ^ 31 ≤ a.toInt - b.toInt ∨
      (a - b).toInt = a.toInt - b.toInt + 2 ^ 32 ∧ a.toInt - b.toInt < -(2 ^ 31) := by
  have ha := BitVec.toInt_lt (x := a)
  have ha' := BitVec.le_toInt (x := a)
  have hb := BitVec.toInt_lt (x := b)
  have hb' := BitVec.le_toInt (x := b)
  rw [BitVec.toInt_sub, Int.bmod_def]
  split <;> omega

/-- The sign and overflow tests together decide the order, except after an
upward overflow, where they always report "less". -/
theorem sub_less_iff : ((a - b).toInt < 0 ∨ subOverflow a b (a - b)) ↔
    a.toInt < b.toInt ∨ 2 ^ 31 ≤ a.toInt - b.toInt := by
  have ha := BitVec.toInt_lt (x := a)
  have ha' := BitVec.le_toInt (x := a)
  have hb := BitVec.toInt_lt (x := b)
  have hb' := BitVec.le_toInt (x := b)
  unfold subOverflow
  rcases toInt_sub_cases a b with ⟨h, h1, h2⟩ | ⟨h, h1⟩ | ⟨h, h1⟩ <;> rw [h] <;> omega

/-- The flag test of a jump agrees with its relation unless the jump is a signed
one and the difference overflows upwards. -/
theorem cond_subFlags_iff (j : Jump) :
    (j.cond (subFlags flags a b (a - b)) = true ↔ j.relation a b) ↔
      (j.signedOrder = true → a.toInt - b.toInt < 2 ^ 31) := by
  have hl := sub_less_iff a b
  have hz : a - b = 0 ↔ a = b := by
    rw [BitVec.sub_eq_iff_eq_add, show (0 : BitVec 32) + b = b from BitVec.zero_add b]
  have hne : a = b ↔ a.toInt = b.toInt := BitVec.toInt_inj.symm
  cases j with
  | jz => simpa [Jump.cond, Jump.relation, Jump.signedOrder, condZ_subFlags] using hz
  | jnz => simpa [Jump.cond, Jump.relation, Jump.signedOrder, condNz, condZ_subFlags] using not_congr hz
  | jc => simp [Jump.cond, Jump.relation, Jump.signedOrder, condC_subFlags]
  | jnc => simp [Jump.cond, Jump.relation, Jump.signedOrder, condNc, condC_subFlags]
  | jl =>
    simp only [Jump.cond, Jump.relation, Jump.signedOrder, condL_subFlags, decide_eq_true_eq, hl,
      forall_const]
    omega
  | jge =>
    simp only [Jump.cond, Jump.relation, Jump.signedOrder, condGe_subFlags, decide_eq_true_eq,
      ← not_or, hl, forall_const]
    omega
  | jle =>
    simp only [Jump.cond, Jump.relation, Jump.signedOrder, condLe_subFlags, condL_subFlags,
      Bool.or_eq_true, decide_eq_true_eq, hl, hz, hne, forall_const]
    omega
  | jg =>
    simp only [Jump.cond, Jump.relation, Jump.signedOrder, condG_subFlags, condGe_subFlags,
      Bool.and_eq_true, decide_eq_true_eq, ne_eq, ← not_or, hl, hz, hne, forall_const]
    omega

/-! ## A comparison followed by a jump -/

/-- The instruction `i` is `CMP` or `CMPI` and compares `a` with `b` on `cpu`. -/
def Compares (cpu : Vcpu) (i : Inst) (a b : BitVec 32) : Prop :=
  ∃ rd : Fin regCount, i.rd.toNat = rd ∧ cpu.regs rd = a ∧
    ((i.op = Opcode.cmp.code ∧ ∃ rs1 : Fin regCount, i.rs1.toNat = rs1 ∧ cpu.regs rs1 = b) ∨
      (i.op = Opcode.cmpi.code ∧ i.imm = b))

/-- Core `c` is about to compare `a` with `b` and then to jump to `target` by `j`. -/
structure CompareThenJump (vm : Vm) (c : ℕ) (j : Jump) (a b target : BitVec 32) : Prop where
  compare_inRam : inRam vm (vm.cpus c).fetchIp 8
  compares : Compares (vm.cpus c) (vm.nextInst c) a b
  jump_inRam : inRam vm ((vm.cpus c).fetchIp + 8) 8
  jump_op : (Inst.decode (vm.wordAt ((vm.cpus c).fetchIp + 8))).op = j.opcode.code
  jump_imm : (Inst.decode (vm.wordAt ((vm.cpus c).fetchIp + 8))).imm = target

/-- Two steps of the core end at the target if the relation holds and behind the
jump if it does not. -/
def JumpFollowsRelation (vm : Vm) (c : ℕ) (j : Jump) (a b target : BitVec 32) : Prop :=
  ∃ t, (do vmInstructionCase c; vmInstructionCase c : VmM Unit) vm = .ok ((), t) ∧
    (t.cpus c).ip =
      (if j.relation a b then target else (vm.cpus c).fetchIp + 8 + 8).toNat

/-- The state between the two instructions. -/
def Vm.compared (vm : Vm) (c : ℕ) (a b : BitVec 32) : Vm :=
  (vm.fetched c).setCpu c
    { (vm.fetched c).cpus c with flags := subFlags (vm.cpus c).flags a b (a - b) }

variable {flags a b result} {vm : Vm} {c : ℕ} {j : Jump} {target : BitVec 32}

theorem vmInstructionCase_compare (hr : inRam vm (vm.cpus c).fetchIp 8)
    (h : Compares (vm.cpus c) (vm.nextInst c) a b) :
    vmInstructionCase c vm = .ok ((), vm.compared c a b) := by
  obtain ⟨rd, hrd, ha, ⟨hop, rs1, hrs1, hb⟩ | ⟨hop, hb⟩⟩ := h
  · have hrd' : (vm.nextInst c).rd.toNat < regCount := by rw [hrd]; exact rd.isLt
    have hrs' : (vm.nextInst c).rs1.toNat < regCount := by rw [hrs1]; exact rs1.isLt
    rw [vmInstructionCase_of_inRam hr hop]
    simp only [execute, Contract.bind_apply, readReg_of_lt hrd', readReg_of_lt hrs']
    simp [hrd, hrs1, Vm.fetched, ha, hb, execCompare, updateSubFlags, modifyFlags, Vm.compared]
  · have hrd' : (vm.nextInst c).rd.toNat < regCount := by rw [hrd]; exact rd.isLt
    rw [vmInstructionCase_of_inRam hr hop]
    simp only [execute, Contract.bind_apply, readReg_of_lt hrd']
    simp [hrd, Vm.fetched, ha, hb, execCompare, updateSubFlags, modifyFlags, Vm.compared]

theorem flagsCase_apply (i : Inst) (cond : BitVec 32 → Bool) :
    flagsCase c i cond vm = .ok ((),
      if cond (vm.cpus c).flags then vm.setCpu c { vm.cpus c with ip := i.imm.toNat }
      else vm) := by
  simp only [flagsCase, jumpIf, setIp, Contract.bind_apply, getCpu_apply]
  by_cases h : cond (vm.cpus c).flags = true
  · simp only [if_pos h, modifyCpu_apply]
  · simp only [if_neg h, Contract.pure_apply]

theorem execute_jump (i : Inst) :
    execute c i j.opcode vm = flagsCase c i j.cond vm := by
  cases j <;> rfl

theorem vmInstructionCase_jump (hr : inRam vm (vm.cpus c).fetchIp 8)
    (hop : (vm.nextInst c).op = j.opcode.code) :
    ∃ t, vmInstructionCase c vm = .ok ((), t) ∧
      (t.cpus c).ip = (if j.cond (vm.cpus c).flags then (vm.nextInst c).imm
        else (vm.cpus c).fetchIp + 8).toNat := by
  rw [vmInstructionCase_of_inRam hr hop, execute_jump, flagsCase_apply]
  refine ⟨_, rfl, ?_⟩
  simp only [Vm.fetched, setCpu_cpus_self]
  split <;> simp

/-- After the comparison the core stands at the jump with the compared flags. -/
theorem compared_cpu (vm : Vm) (c : ℕ) (a b : BitVec 32) :
    ((vm.compared c a b).cpus c).fetchIp = (vm.cpus c).fetchIp + 8 ∧
    ((vm.compared c a b).cpus c).flags = subFlags (vm.cpus c).flags a b (a - b) := by
  constructor
  · simp only [Vm.compared, Vm.fetched, Vcpu.fetchIp, setCpu_cpus_self]
    exact BitVec.ofNat_toNat 32 _ |>.trans (BitVec.setWidth_eq _)
  · simp only [Vm.compared, Vm.fetched, setCpu_cpus_self]

/-- Where the two instructions lead, by the flag test and by the relation. -/
theorem jumpFollowsRelation_iff_cond (h : CompareThenJump vm c j a b target) :
    JumpFollowsRelation vm c j a b target ↔
      (if j.cond (subFlags (vm.cpus c).flags a b (a - b)) then target
        else (vm.cpus c).fetchIp + 8 + 8) =
      (if j.relation a b then target else (vm.cpus c).fetchIp + 8 + 8) := by
  obtain ⟨hip, hfl⟩ := compared_cpu vm c a b
  have hnext : (vm.compared c a b).nextInst c =
      Inst.decode (vm.wordAt ((vm.cpus c).fetchIp + 8)) := by
    rw [Vm.nextInst, hip]
    rfl
  have hram : inRam (vm.compared c a b) ((vm.compared c a b).cpus c).fetchIp 8 := by
    rw [hip]
    exact h.jump_inRam
  have hop : ((vm.compared c a b).nextInst c).op = j.opcode.code := by
    rw [hnext]
    exact h.jump_op
  obtain ⟨t, ht, hti⟩ := vmInstructionCase_jump hram hop
  rw [hnext, h.jump_imm, hip, hfl] at hti
  have hrun : (do vmInstructionCase c; vmInstructionCase c : VmM Unit) vm = .ok ((), t) := by
    rw [Contract.bind_ok (vmInstructionCase_compare h.compare_inRam h.compares), ht]
  simp only [JumpFollowsRelation, hrun, Except.ok.injEq, Prod.mk.injEq, true_and,
    exists_eq_left', hti, BitVec.toNat_inj]

/-- A signed jump after a comparison goes where its relation says exactly when the
difference stays below `2 ^ 31` (or when both ways lead to the same place); the
other four jumps always do. -/
theorem jump_follows_relation_iff (h : CompareThenJump vm c j a b target) :
    JumpFollowsRelation vm c j a b target ↔
      (j.signedOrder = true → a.toInt - b.toInt < 2 ^ 31) ∨
        target = (vm.cpus c).fetchIp + 8 + 8 := by
  rw [jumpFollowsRelation_iff_cond h, ← cond_subFlags_iff (vm.cpus c).flags a b j]
  by_cases hc : j.cond (subFlags (vm.cpus c).flags a b (a - b)) = true <;>
    by_cases hrel : j.relation a b <;> simp [hc, hrel, eq_comm]

/-- A machine with `CMPI r0, b` and a jump at the start of its program. -/
def compareJumpVm (j : Jump) (a b target : BitVec 32) : Vm :=
  let vm := Vm.allocated ⟨fun _ => 0, fun _ => 0, 0⟩ false memSize 1 (BitVec.ofNat 32 programBase)
  { vm with
    memory := copyToRam vm.memory programBase 16 (programByte
      [Inst.encode ⟨Opcode.cmpi.code, 0, 0, 0, b⟩, Inst.encode ⟨j.opcode.code, 0, 0, 0, target⟩])
    cpus := fun i => { vm.cpus i with regs := fun _ => a } }

theorem compareJumpVm_jl : CompareThenJump (compareJumpVm .jl 0x7FFFFFFF 0xFFFFFFFF 0x3000) 0 .jl
    0x7FFFFFFF 0xFFFFFFFF 0x3000 where
  compare_inRam := by decide
  compares := ⟨0, by decide, by decide, Or.inr ⟨by decide, by decide⟩⟩
  jump_inRam := by decide
  jump_op := by decide
  jump_imm := by decide

theorem jump_follows_relation_iff_intMax :
    JumpFollowsRelation (compareJumpVm .jl 0x7FFFFFFF 0xFFFFFFFF 0x3000) 0 .jl
        0x7FFFFFFF 0xFFFFFFFF 0x3000 ↔
      (Jump.jl.signedOrder = true →
          (0x7FFFFFFF : BitVec 32).toInt - (0xFFFFFFFF : BitVec 32).toInt < 2 ^ 31) ∨
        (0x3000 : BitVec 32) = BitVec.ofNat 32 programBase + 8 + 8 :=
  jump_follows_relation_iff compareJumpVm_jl

/-- `JL` after comparing the greatest integer with minus one is taken. -/
theorem jump_relation_fails : ¬ ∀ (vm : Vm) (c : ℕ) (j : Jump) (a b target : BitVec 32),
    CompareThenJump vm c j a b target → JumpFollowsRelation vm c j a b target := by
  intro h
  have hjl := h _ _ _ _ _ _ compareJumpVm_jl
  rw [jumpFollowsRelation_iff_cond compareJumpVm_jl] at hjl
  exact absurd hjl (by decide)

end LampVm
