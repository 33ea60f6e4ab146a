import LampVm.Branch
import LampVm.RegisterFields

/-!
# The flags of additions and subtractions

Eight instructions add or subtract and leave the outcome in four flags. The overflow flag is
set from the signs of the operands and of the wrapped result. A zero has neither of the two
signs that are tested, so the flag is missing where an overflow passes through a zero.
-/
namespace LampVm

open ByteOrder Contract Transition

/-! ## What the flags should be -/

abbrev arithMask : BitVec 32 := flagZf ||| flagSf ||| flagCf ||| flagOf

/-- An integer that 32 bits do not hold. -/
def OutOfRange (x : ℤ) : Prop := x < -(2 ^ 31) ∨ 2 ^ 31 - 1 < x

/-- The four flags have their meaning and the other bits of the word are as before. -/
structure ExactFlags (before after result : BitVec 32) (carry : Prop) (exact : ℤ) : Prop where
  zf : after &&& flagZf ≠ 0 ↔ result = 0
  sf : after &&& flagSf ≠ 0 ↔ result.msb = true
  cf : after &&& flagCf ≠ 0 ↔ carry
  of : after &&& flagOf ≠ 0 ↔ OutOfRange exact
  rest : after &&& ~~~arithMask = before &&& ~~~arithMask

def AddExact (before after a b : BitVec 32) : Prop :=
  ExactFlags before after (a + b) (2 ^ 32 ≤ a.toNat + b.toNat) (a.toInt + b.toInt)

def SubExact (before after a b : BitVec 32) : Prop :=
  ExactFlags before after (a - b) (a.toNat < b.toNat) (a.toInt - b.toInt)

section Words

variable (flags a b result : BitVec 32)

/-- The overflow test of `update_add_flags`. -/
def addOverflow (a b result : BitVec 32) : Prop :=
  (a.toInt > 0 ∧ b.toInt > 0 ∧ result.toInt < 0) ∨
    (a.toInt < 0 ∧ b.toInt < 0 ∧ result.toInt > 0)

instance (a b result : BitVec 32) : Decidable (addOverflow a b result) :=
  inferInstanceAs (Decidable (_ ∨ _))

theorem flag_ne_zero_iff {p : Prop} [Decidable p] {mask : BitVec 32} (h : mask ≠ 0) :
    (if p then mask else 0) ≠ 0 ↔ p := by
  split_ifs with hp
  · exact iff_of_true h hp
  · exact iff_of_false (fun h => h rfl) hp

theorem toInt_neg_iff_msb : result.toInt < 0 ↔ result.msb = true := by
  rw [BitVec.msb_eq_toInt, decide_eq_true_eq]

theorem add_lt_iff_carry : a + b < a ↔ 2 ^ 32 ≤ a.toNat + b.toNat := by
  have ha := a.isLt
  have hb := b.isLt
  rw [BitVec.lt_def, BitVec.toNat_add]
  omega

abbrev intMin : BitVec 32 := 0x80000000

theorem eq_intMin_iff : a = intMin ↔ a.toInt = -(2 ^ 31) := by
  rw [← BitVec.toInt_inj]
  rfl

theorem eq_zero_iff_toInt : a = 0 ↔ a.toInt = 0 := by
  rw [← BitVec.toInt_inj]
  rfl

/-- The sign test of an addition misses one overflow, whose wrapped result is zero. -/
theorem addOverflow_iff : (addOverflow a b (a + b) ↔ OutOfRange (a.toInt + b.toInt)) ↔
    ¬ (a = intMin ∧ b = intMin) := by
  have ha := BitVec.toInt_lt (x := a)
  have ha' := BitVec.le_toInt (x := a)
  have hb := BitVec.toInt_lt (x := b)
  have hb' := BitVec.le_toInt (x := b)
  rw [eq_intMin_iff, eq_intMin_iff, addOverflow, OutOfRange, BitVec.toInt_add, Int.bmod_def]
  split <;> omega

/-- That of a subtraction misses the negation of the least integer. -/
theorem subOverflow_iff : (subOverflow a b (a - b) ↔ OutOfRange (a.toInt - b.toInt)) ↔
    ¬ (a = 0 ∧ b = intMin) := by
  have ha := BitVec.toInt_lt (x := a)
  have ha' := BitVec.le_toInt (x := a)
  have hb := BitVec.toInt_lt (x := b)
  have hb' := BitVec.le_toInt (x := b)
  rw [eq_zero_iff_toInt, eq_intMin_iff, subOverflow, OutOfRange]
  rcases toInt_sub_cases a b with ⟨h, h1, h2⟩ | ⟨h, h1⟩ | ⟨h, h1⟩ <;> rw [h] <;> omega

/-- All four flags are right when the test for the overflow is. -/
theorem exactFlags_iff {p q carry : Prop} [Decidable p] [Decidable q] {exact : ℤ}
    (hp : p ↔ carry) :
    ExactFlags flags (zfSfFlags (setFlag (setFlag flags flagCf p) flagOf q) result) result carry
      exact ↔ (q ↔ OutOfRange exact) := by
  have hof : zfSfFlags (setFlag (setFlag flags flagCf p) flagOf q) result &&& flagOf ≠ 0 ↔ q := by
    unfold zfSfFlags
    rw [setFlag_and_of_disjoint (by decide), setFlag_and_of_disjoint (by decide), setFlag_and_self]
    exact flag_ne_zero_iff (by decide)
  refine ⟨fun h => hof.symm.trans h.of, fun h => ⟨?_, ?_, ?_, hof.trans h, ?_⟩⟩
  all_goals unfold zfSfFlags
  · rw [setFlag_and_of_disjoint (by decide), setFlag_and_self]
    exact flag_ne_zero_iff (by decide)
  · rw [setFlag_and_self, ← toInt_neg_iff_msb]
    exact flag_ne_zero_iff (by decide)
  · rw [setFlag_and_of_disjoint (by decide), setFlag_and_of_disjoint (by decide),
      setFlag_and_of_disjoint (by decide), setFlag_and_self, ← hp]
    exact flag_ne_zero_iff (by decide)
  · rw [setFlag_and_of_disjoint (by decide), setFlag_and_of_disjoint (by decide),
      setFlag_and_of_disjoint (by decide), setFlag_and_of_disjoint (by decide)]

theorem addExact_iff : AddExact flags (addFlags flags a b (a + b)) a b ↔
    ¬ (a = intMin ∧ b = intMin) :=
  (exactFlags_iff flags (a + b) (add_lt_iff_carry a b)).trans (addOverflow_iff a b)

theorem subExact_iff : SubExact flags (subFlags flags a b (a - b)) a b ↔
    ¬ (a = 0 ∧ b = intMin) :=
  (exactFlags_iff flags (a - b) BitVec.lt_def).trans (subOverflow_iff a b)

end Words

/-! ## The instructions -/

inductive ArithOp
  | add | addi | inc | xadd | sub | subi | cmp | cmpi
  deriving DecidableEq, Repr

def ArithOp.opcode : ArithOp → Opcode
  | .add => .add
  | .addi => .addi
  | .inc => .inc
  | .xadd => .xadd
  | .sub => .sub
  | .subi => .subi
  | .cmp => .cmp
  | .cmpi => .cmpi

/-- The address of an atomic instruction. -/
def Vm.atomicAddr (vm : Vm) (c : ℕ) (i : Inst) : BitVec 32 := vm.regValue c i.rs1 + i.imm

/-- The operands, in the order in which they are added or subtracted. -/
def ArithOp.operands (vm : Vm) (c : ℕ) (i : Inst) : ArithOp → BitVec 32 × BitVec 32
  | .add | .sub => (vm.regValue c i.rs1, vm.regValue c i.rs2)
  | .addi | .subi => (vm.regValue c i.rs1, i.imm)
  | .inc => (vm.regValue c i.rd, 1)
  | .xadd => (BitVec.ofNat 32 (leNat vm.memory (vm.atomicAddr c i).toNat 4), vm.regValue c i.rs2)
  | .cmp => (vm.regValue c i.rd, vm.regValue c i.rs1)
  | .cmpi => (vm.regValue c i.rd, i.imm)

/-- The flags have their meaning. -/
def ArithOp.Exact (before after a b : BitVec 32) : ArithOp → Prop
  | .add | .addi | .inc | .xadd => AddExact before after a b
  | .sub | .subi | .cmp | .cmpi => SubExact before after a b

/-- The operands for which the overflow flag is missing. -/
def ArithOp.Slips (a b : BitVec 32) : ArithOp → Prop
  | .add | .addi | .inc | .xadd => a = intMin ∧ b = intMin
  | .sub | .subi | .cmp | .cmpi => a = 0 ∧ b = intMin

/-- Where the result goes. -/
def ArithOp.Stores (vm : Vm) (c : ℕ) (i : Inst) (a b : BitVec 32) (vm' : Vm) : ArithOp → Prop
  | .add | .addi | .inc => vm'.regValue c i.rd = a + b ∧ vm'.memory = vm.memory
  | .sub | .subi => vm'.regValue c i.rd = a - b ∧ vm'.memory = vm.memory
  | .cmp | .cmpi => (vm'.cpus c).regs = (vm.cpus c).regs ∧ vm'.memory = vm.memory
  | .xadd => vm'.regValue c i.rd = a ∧
    vm'.memory = leStore vm.memory (vm.atomicAddr c i).toNat 4 (a + b).toNat

/-- Core `c` is about to execute the instruction, its fields name registers, and an `XADD` has
an address that atomic instructions accept. -/
structure ArithOp.Ready (vm : Vm) (c : ℕ) (op : ArithOp) : Prop where
  inRam : inRam vm (vm.cpus c).fetchIp 8
  code : (vm.nextInst c).op = op.opcode.code
  fields : vm.FieldsOk c (vm.nextInst c) op.opcode
  atomic : op = .xadd → Atomic32 vm (vm.atomicAddr c (vm.nextInst c))

section Run

variable {s t : Vm} {c : ℕ} {i : Inst} {op : ArithOp}

/-- The flags that the code leaves. -/
def ArithOp.flags (before a b : BitVec 32) : ArithOp → BitVec 32
  | .add | .addi | .inc | .xadd => addFlags before a b (a + b)
  | .sub | .subi | .cmp | .cmpi => subFlags before a b (a - b)

theorem ArithOp.exact_flags_iff (before a b : BitVec 32) :
    op.Exact before (op.flags before a b) a b ↔ ¬ op.Slips a b := by
  cases op with
  | add | addi | inc | xadd => exact addExact_iff before a b
  | sub | subi | cmp | cmpi => exact subExact_iff before a b

/-- A register and the flags are written, in this order. -/
theorem write_flags_run {rd : BitVec 8} (hrd : IsReg rd) (v : BitVec 32)
    (f : BitVec 32 → BitVec 32) :
    ∃ t, (writeReg c rd v >>= fun _ => modifyFlags c f) s = .ok ((), t) ∧
      t.regValue c rd = v ∧ t.memory = s.memory ∧ (t.cpus c).flags = f (s.cpus c).flags := by
  refine ⟨s.setCpu c { s.cpus c with
    regs := Function.update (s.cpus c).regs ⟨rd.toNat, hrd⟩ v
    flags := f (s.cpus c).flags }, ?_, ?_, ?_, ?_⟩
  · simp only [writeReg, dif_pos hrd, bind_apply, modifyCpu_apply, modifyFlags, setCpu_cpus_self,
      setCpu_setCpu]
  · simp only [Vm.regValue, dif_pos hrd, setCpu_cpus_self, Function.update_self]
  · rfl
  · rw [setCpu_cpus_self]

theorem execAdd_run {rd : BitVec 8} (hrd : IsReg rd) (a b : BitVec 32) :
    ∃ t, execAdd c rd a b s = .ok ((), t) ∧ t.regValue c rd = a + b ∧ t.memory = s.memory ∧
      (t.cpus c).flags = addFlags (s.cpus c).flags a b (a + b) :=
  write_flags_run hrd (a + b) fun flags => addFlags flags a b (a + b)

theorem execSub_run {rd : BitVec 8} (hrd : IsReg rd) (a b : BitVec 32) :
    ∃ t, execSub c rd a b s = .ok ((), t) ∧ t.regValue c rd = a - b ∧ t.memory = s.memory ∧
      (t.cpus c).flags = subFlags (s.cpus c).flags a b (a - b) :=
  write_flags_run hrd (a - b) fun flags => subFlags flags a b (a - b)

theorem execCompare_run (a b : BitVec 32) :
    ∃ t, execCompare c a b s = .ok ((), t) ∧ (t.cpus c).regs = (s.cpus c).regs ∧
      t.memory = s.memory ∧ (t.cpus c).flags = subFlags (s.cpus c).flags a b (a - b) := by
  refine ⟨_, rfl, ?_, rfl, ?_⟩
  · rw [setCpu_cpus_self]
  · rw [setCpu_cpus_self]

theorem and_three_of_aligned {a : BitVec 32} (h : a.toNat % 4 = 0) : a &&& 3 = 0 := by
  apply BitVec.eq_of_toNat_eq
  rw [BitVec.toNat_and]
  exact (Nat.and_two_pow_sub_one_eq_mod a.toNat 2).trans h

/-- `XADD` returns the old word and stores the sum. -/
theorem fetchAdd_run {a v : BitVec 32} (hc : CacheCoherent s) (ha : Atomic32 s a) :
    ∃ t, vmAtomicFetchAdd32Seqcst a v s = .ok (BitVec.ofNat 32 (leNat s.memory a.toNat 4), t) ∧
      t.memory = leStore s.memory a.toNat 4 (BitVec.ofNat 32 (leNat s.memory a.toNat 4) + v).toNat ∧
      t.cpus = s.cpus := by
  obtain ⟨hal, hram, hno⟩ := ha
  have hram' : inRam s.uncached a 4 := hram
  have hptr : atomic32PtrOrPanic .xadd a s = .ok ((), s.uncached) :=
    atomic32PtrOrPanic_of_noDevice hc hram (fun dev hdev hcov => hno ⟨dev, hdev, hcov⟩) hal
  refine ⟨s.uncached.withMemory _, ?_, rfl, rfl⟩
  rw [vmAtomicFetchAdd32Seqcst, bind_ok hptr, bind_ok (hostLoad32_of_inRam hram'),
    bind_ok (hostStore32_of_inRam hram' _)]
  rfl

/-- What the interpreter does for each of the instructions. -/
theorem ArithOp.execute_run (hc : CacheCoherent s) (hfields : s.FieldsOk c i op.opcode)
    (hatomic : op = .xadd → Atomic32 s (s.atomicAddr c i)) :
    ∃ t, execute c i op.opcode s = .ok ((), t) ∧
      op.Stores s c i (op.operands s c i).1 (op.operands s c i).2 t ∧
      (t.cpus c).flags =
        op.flags (s.cpus c).flags (op.operands s c i).1 (op.operands s c i).2 := by
  cases op with
  | add =>
    obtain ⟨hrs1, hrs2, hrd⟩ := hfields
    obtain ⟨t, ht, hreg, hmem, hflags⟩ := execAdd_run (s := s) (c := c) hrd _ _
    refine ⟨t, ?_, ⟨hreg, hmem⟩, hflags⟩
    rw [ArithOp.opcode, execute, bind_ok (readReg_regValue hrs1), bind_ok (readReg_regValue hrs2)]
    exact ht
  | sub =>
    obtain ⟨hrs1, hrs2, hrd⟩ := hfields
    obtain ⟨t, ht, hreg, hmem, hflags⟩ := execSub_run (s := s) (c := c) hrd _ _
    refine ⟨t, ?_, ⟨hreg, hmem⟩, hflags⟩
    rw [ArithOp.opcode, execute, bind_ok (readReg_regValue hrs1), bind_ok (readReg_regValue hrs2)]
    exact ht
  | addi =>
    obtain ⟨hrs1, hrd⟩ := hfields
    obtain ⟨t, ht, hreg, hmem, hflags⟩ := execAdd_run (s := s) (c := c) hrd _ _
    refine ⟨t, ?_, ⟨hreg, hmem⟩, hflags⟩
    rw [ArithOp.opcode, execute, bind_ok (readReg_regValue hrs1)]
    exact ht
  | subi =>
    obtain ⟨hrs1, hrd⟩ := hfields
    obtain ⟨t, ht, hreg, hmem, hflags⟩ := execSub_run (s := s) (c := c) hrd _ _
    refine ⟨t, ?_, ⟨hreg, hmem⟩, hflags⟩
    rw [ArithOp.opcode, execute, bind_ok (readReg_regValue hrs1)]
    exact ht
  | inc =>
    obtain ⟨t, ht, hreg, hmem, hflags⟩ := execAdd_run (s := s) (c := c) hfields _ _
    refine ⟨t, ?_, ⟨hreg, hmem⟩, hflags⟩
    rw [ArithOp.opcode, execute, bind_ok (readReg_regValue hfields)]
    exact ht
  | cmp =>
    obtain ⟨hrd, hrs1⟩ := hfields
    obtain ⟨t, ht, hregs, hmem, hflags⟩ := execCompare_run (s := s) (c := c) _ _
    refine ⟨t, ?_, ⟨hregs, hmem⟩, hflags⟩
    rw [ArithOp.opcode, execute, bind_ok (readReg_regValue hrd), bind_ok (readReg_regValue hrs1)]
    exact ht
  | cmpi =>
    obtain ⟨t, ht, hregs, hmem, hflags⟩ := execCompare_run (s := s) (c := c) _ _
    refine ⟨t, ?_, ⟨hregs, hmem⟩, hflags⟩
    rw [ArithOp.opcode, execute, bind_ok (readReg_regValue hfields)]
    exact ht
  | xadd =>
    have ha := hatomic rfl
    obtain ⟨hrs1, hrest⟩ := hfields
    have hand : (s.regValue c i.rs1 + i.imm) &&& 3 = 0 := and_three_of_aligned ha.1
    obtain ⟨hrs2, hrd⟩ := hrest hand
    have haddr : atomicAddr c i .xadd s = .ok (s.atomicAddr c i, s) := by
      rw [atomicAddr, baseImm, bind_assoc, bind_ok (readReg_regValue hrs1)]
      simp only [pure_bind]
      rw [ensureAtomicAligned, if_neg (not_not.mpr hand)]
      rfl
    obtain ⟨u, hu, hmem, hcpus⟩ := fetchAdd_run (v := s.regValue c i.rs2) hc ha
    obtain ⟨t, ht, hreg, hmem', hflags⟩ := write_flags_run (s := u) (c := c) (hrd ha)
      (ArithOp.operands s c i .xadd).1 fun flags =>
        ArithOp.flags flags (ArithOp.operands s c i .xadd).1 (ArithOp.operands s c i .xadd).2 .xadd
    refine ⟨t, ?_, ⟨hreg, hmem'.trans hmem⟩, hflags.trans ?_⟩
    · rw [ArithOp.opcode, execute, bind_ok haddr, bind_ok (readReg_regValue hrs2), bind_ok hu]
      exact ht
    · rw [hcpus]

theorem ArithOp.operands_fetched (op : ArithOp) (i : Inst) :
    op.operands (s.fetched c) c i = op.operands s c i := by
  cases op with
  | xadd =>
    simp only [ArithOp.operands, Vm.atomicAddr, fetched_regValue]
    rfl
  | _ => simp only [ArithOp.operands, fetched_regValue]

theorem ArithOp.stores_fetched {a b : BitVec 32} :
    op.Stores (s.fetched c) c i a b t ↔ op.Stores s c i a b t := by
  cases op with
  | cmp | cmpi =>
    simp only [ArithOp.Stores, Vm.fetched, setCpu_cpus_self]
    rfl
  | xadd =>
    simp only [ArithOp.Stores, Vm.atomicAddr, fetched_regValue]
    rfl
  | _ => exact Iff.rfl

theorem ArithOp.Ready.run {memorySize : ℕ} {smpCores : ℤ} (h : op.Ready s c)
    (hs : Reachable (machine memorySize smpCores) s) :
    ∃ t, vmInstructionCase c s = .ok ((), t) ∧
      op.Stores s c (s.nextInst c) (op.operands s c (s.nextInst c)).1
        (op.operands s c (s.nextInst c)).2 t ∧
      (t.cpus c).flags = op.flags (s.cpus c).flags (op.operands s c (s.nextInst c)).1
        (op.operands s c (s.nextInst c)).2 := by
  have hc : CacheCoherent (s.fetched c) := (reachable_inv hs).cache
  have hfields := (fieldsOk_fetched op.opcode).mpr h.fields
  have hatomic : op = .xadd →
      Atomic32 (s.fetched c) ((s.fetched c).atomicAddr c (s.nextInst c)) := by
    intro hop
    rw [Vm.atomicAddr, fetched_regValue]
    exact h.atomic hop
  obtain ⟨t, ht, hstores, htflags⟩ := ArithOp.execute_run hc hfields hatomic
  rw [ArithOp.operands_fetched] at hstores htflags
  rw [fetched_flags] at htflags
  exact ⟨t, (vmInstructionCase_of_inRam h.inRam h.code).trans ht,
    ArithOp.stores_fetched.mp hstores, htflags⟩

/-- In every reachable state each of the instructions returns and stores its result, and its
flags are exact unless the overflow flag is missing. -/
theorem arith_flags_exact_iff {memorySize : ℕ} {smpCores : ℤ} (op : ArithOp)
    (hs : Reachable (machine memorySize smpCores) s) (hready : op.Ready s c) :
    ∃ t, vmInstructionCase c s = .ok ((), t) ∧
      op.Stores s c (s.nextInst c) (op.operands s c (s.nextInst c)).1
        (op.operands s c (s.nextInst c)).2 t ∧
      (op.Exact (s.cpus c).flags (t.cpus c).flags (op.operands s c (s.nextInst c)).1
          (op.operands s c (s.nextInst c)).2 ↔
        ¬ op.Slips (op.operands s c (s.nextInst c)).1 (op.operands s c (s.nextInst c)).2) := by
  obtain ⟨t, ht, hstores, hflags⟩ := hready.run hs
  refine ⟨t, ht, hstores, ?_⟩
  rw [hflags]
  exact ArithOp.exact_flags_iff _ _ _

end Run

/-- A program of a single `ADDI` or `SUBI` on registers that are zero. -/
theorem exists_immediate (op : ArithOp) (hop : op = .addi ∨ op = .subi) (imm : BitVec 32) :
    ∃ s, Reachable (machine memSize 1) s ∧ op.Ready s 0 ∧
      op.operands s 0 (s.nextInst 0) = (0, imm) := by
  obtain ⟨s, hs, -, hram, hinst, hzero⟩ :=
    exists_program (Inst.encode ⟨op.opcode.code, 1, 2, 0, imm⟩)
  have hnext : s.nextInst 0 = ⟨op.opcode.code, 1, 2, 0, imm⟩ := hinst.trans (Inst.decode_encode _)
  refine ⟨s, hs, ⟨hram, by rw [hnext], ?_, ?_⟩, ?_⟩
  · obtain rfl | rfl := hop
    all_goals
      rw [hnext]
      exact ⟨show IsReg 2 by decide, show IsReg 1 by decide⟩
  · rintro rfl
    cases hop with
    | inl h => cases h
    | inr h => cases h
  · obtain rfl | rfl := hop
    all_goals
      rw [hnext, ArithOp.operands, hzero]

/-- Five is added to zero. -/
theorem arith_flags_addi : ∃ s t, Reachable (machine memSize 1) s ∧
    vmInstructionCase 0 s = .ok ((), t) ∧
    ArithOp.Exact (s.cpus 0).flags (t.cpus 0).flags 0 5 .addi := by
  obtain ⟨s, hs, hready, hoperands⟩ := exists_immediate .addi (.inl rfl) 5
  obtain ⟨t, ht, -, hiff⟩ := arith_flags_exact_iff .addi hs hready
  rw [hoperands] at hiff
  refine ⟨s, t, hs, ht, hiff.mpr ?_⟩
  rintro ⟨h, -⟩
  exact absurd h (by decide)

/-- The least integer is subtracted from zero. -/
theorem subi_misses_overflow : ¬ ∀ (memorySize : ℕ) (smpCores : ℤ) (s t : Vm) (c : ℕ)
    (op : ArithOp), Reachable (machine memorySize smpCores) s → op.Ready s c →
    vmInstructionCase c s = .ok ((), t) →
    op.Exact (s.cpus c).flags (t.cpus c).flags (op.operands s c (s.nextInst c)).1
      (op.operands s c (s.nextInst c)).2 := by
  intro h
  obtain ⟨s, hs, hready, hoperands⟩ := exists_immediate .subi (.inr rfl) intMin
  obtain ⟨t, ht, -, hflags⟩ := hready.run hs
  have hclaim := h _ _ s t 0 .subi hs hready ht
  rw [hflags, hoperands] at hclaim
  exact (ArithOp.exact_flags_iff _ _ _).mp hclaim ⟨rfl, rfl⟩

end LampVm
