import LampVm.Isolation

/-!
# Register fields

A register field of an instruction has eight bits and the register file 32 entries. The
interpreter does not test the fields. It leaves the register file at the first field that
it uses and that names no register; which fields it uses depends on the opcode, on tests
that may end the instruction before, and on what it has read so far.
-/
namespace LampVm

open ByteOrder Contract Transition

/-! ## Stopping at a register -/

/-- Every way to stop but an index outside the register file. -/
def NotRegs (e : Fault) : Prop := ∀ k, e ≠ .outOfBounds .regs k

/-- The program does not leave the register file. -/
def RegSafe {α : Type} (m : VmM α) (vm : Vm) : Prop := ∀ k, m vm ≠ .error (.outOfBounds .regs k)

/-- The program returns. -/
def Returns {α : Type} (m : VmM α) (vm : Vm) : Prop := ∃ a t, m vm = .ok (a, t)

section Rules

variable {α β : Type} {m : VmM α} {f : α → VmM β} {p : Prop} {vm : Vm} {c : ℕ} {r : BitVec 8}

/-- Programs that do not use the register file at all. -/
abbrev Quiet {α : Type} (m : VmM α) : Prop := Safe (fun _ => True) NotRegs m

theorem Quiet.regSafe (h : Quiet m) (vm : Vm) : RegSafe m vm := fun k hk => h.error trivial hk k rfl

theorem regSafe_bind (h : Quiet m) :
    RegSafe (m >>= f) vm ↔ ∀ a t, m vm = .ok (a, t) → RegSafe (f a) t := by
  constructor
  · intro hsafe a t ht k hk
    exact hsafe k (by rw [bind_ok ht, hk])
  · intro hrest k hk
    cases hm : m vm with
    | ok x =>
      rw [bind_ok (show m vm = .ok (x.1, x.2) from hm)] at hk
      exact hrest x.1 x.2 hm k hk
    | error e =>
      rw [bind_error hm] at hk
      obtain rfl := Except.error.inj hk
      exact h.regSafe vm k hm

/-- What follows a program that does not use the register file counts if it returns. -/
theorem regSafe_bind_of_quiet (h : Quiet m) (hf : ∀ a t, RegSafe (f a) t ↔ p) :
    RegSafe (m >>= f) vm ↔ (Returns m vm → p) := by
  rw [regSafe_bind h]
  constructor
  · rintro hrest ⟨a, t, ht⟩
    exact (hf a t).mp (hrest a t ht)
  · intro hrest a t ht
    exact (hf a t).mpr (hrest ⟨a, t, ht⟩)

theorem regSafe_ite {q : Prop} [Decidable q] {m n : VmM α} (hm : RegSafe m vm ↔ p)
    (hn : RegSafe n vm ↔ p) : RegSafe (if q then m else n) vm ↔ p := by
  split_ifs
  · exact hm
  · exact hn

theorem readReg_of_not_isReg (h : ¬ IsReg r) :
    readReg c r vm = .error (.outOfBounds .regs r.toNat) := by
  simp only [readReg, bind_apply, getCpu_apply, dif_neg h, throw_apply]

@[simp] theorem regSafe_readReg_bind {f : BitVec 32 → VmM β} :
    RegSafe (readReg c r >>= f) vm ↔ IsReg r ∧ RegSafe (f (vm.regValue c r)) vm := by
  unfold RegSafe
  by_cases hr : IsReg r
  · simp only [bind_ok (readReg_regValue hr), hr, true_and]
  · simp only [bind_error (readReg_of_not_isReg hr), hr, false_and, iff_false, not_forall, not_not]
    exact ⟨_, rfl⟩

@[simp] theorem regSafe_writeReg {v : BitVec 32} : RegSafe (writeReg c r v) vm ↔ IsReg r := by
  unfold RegSafe writeReg
  by_cases hr : IsReg r
  · rw [dif_pos hr]
    simp [hr]
  · rw [dif_neg hr]
    simp [hr]

/-- Nothing but the written field matters when the rest does not use the register file. -/
theorem regSafe_writeReg_bind {v : BitVec 32} {f : Unit → VmM β}
    (hf : IsReg r → ∀ t, RegSafe (f ()) t) : RegSafe (writeReg c r v >>= f) vm ↔ IsReg r := by
  constructor
  · intro hsafe
    by_contra hr
    refine hsafe r.toNat ?_
    rw [writeReg, dif_neg hr]
    rfl
  · intro hr k
    rw [writeReg, dif_pos hr, bind_apply, modifyCpu_apply]
    exact hf hr _ k

end Rules

/-! ## Operations that do not use the register file -/

theorem notRegs_panic (p : Panic) : NotRegs (.panic p) := by
  intro k h
  cases h

theorem quiet_stable : Stable (fun _ => True) fun _ => True where
  congr _ _ _ _ := trivial
  findMmio := safe_findMmio fun _ _ _ _ _ => trivial
  fault _ _ := trivial

theorem quiet_memory : MemoryRules (fun _ => True) NotRegs := quiet_stable.memory.sized notRegs_panic

theorem quiet_core (c : ℕ) : CoreFree c fun _ => True := fun _ _ _ _ => trivial

theorem quiet_port : PortFree fun _ => True :=
  ⟨fun _ _ _ => trivial, fun _ _ _ => trivial, fun _ _ _ => trivial⟩

theorem quiet_trigger (target : ℤ) (n : BitVec 32) : Quiet (triggerInterruptTarget target n) :=
  safe_triggerInterruptTarget (fun _ _ _ => trivial) target n

theorem quiet_modifyFlags (c : ℕ) (f : BitVec 32 → BitVec 32) : Quiet (modifyFlags c f) :=
  (quiet_core c).modifyCpu fun _ => rfl

theorem quiet_execCompare (c : ℕ) (a b : BitVec 32) : Quiet (execCompare c a b) :=
  quiet_modifyFlags c fun flags => subFlags flags a b (a - b)

theorem quiet_setIp (c ip : ℕ) : Quiet (setIp c ip) := (quiet_core c).modifyCpu fun _ => rfl

theorem quiet_jumpIf (c : ℕ) (taken : Prop) [Decidable taken] (target : BitVec 32) :
    Quiet (jumpIf c taken target) :=
  safe_ite (fun _ => quiet_setIp c _) fun _ => safe_pure _

theorem quiet_callPush (c : ℕ) (v : BitVec 64) : Quiet (callPush c v) :=
  (quiet_core c).stackPush notRegs_panic (fun _ _ => rfl) quiet_memory.vmWrite64 v

theorem quiet_dataPop (c : ℕ) : Quiet (dataPop c) :=
  (quiet_core c).stackPop notRegs_panic (fun _ _ => rfl) quiet_memory.vmRead32

theorem quiet_callTo (c : ℕ) (target : Vcpu → BitVec 32) : Quiet (callTo c target) :=
  safe_bind (safe_getCpu c) fun _ => safe_bind (quiet_callPush c _) fun _ =>
    safe_bind (safe_getCpu c) fun _ => quiet_setIp c _

theorem quiet_checkIndex {array : CArray} (h : array ≠ .regs) (size k : ℕ) :
    Quiet (checkIndex array size k) := by
  refine safe_ite (fun _ => safe_pure _) fun _ => safe_throw ?_
  rintro _ ⟨rfl⟩
  exact h rfl

/-! ## Accesses that return -/

section Access

variable {vm : Vm} {a : BitVec 32}

/-- A byte that can be read. -/
def Readable8 (vm : Vm) (a : BitVec 32) : Prop :=
  (fbByteIndex vm.memorySize a).isSome = true ∨ inRam vm a 1

/-- A word that can be read. -/
def Readable32 (vm : Vm) (a : BitVec 32) : Prop :=
  AlignOk vm 4 a ∧ ((∃ dev ∈ vm.mmioDevices, dev.covers a) ∨ inRam vm a 4)

/-- Where a return address can be pushed. -/
def Writable64 (vm : Vm) (a : BitVec 32) : Prop := AlignOk vm 8 a ∧ inRam vm a 8

/-- A word that atomic instructions can use. -/
def Atomic32 (vm : Vm) (a : BitVec 32) : Prop :=
  a.toNat % 4 = 0 ∧ inRam vm a 4 ∧ ¬ ∃ dev ∈ vm.mmioDevices, dev.covers a

theorem requireRam_of_not_inRam {op : AccessName} {n : ℕ} (h : ¬ inRam vm a n) :
    requireRam op a n vm = .error (.panic (.addressOutOfBounds op a)) := by
  simp only [requireRam, bind_apply, get_apply, if_neg h, vmPanic_apply]

/-- A program that stops with nothing returns. -/
theorem returns_of_safe {α : Type} {m : VmM α} (h : Safe (Sized vm.memorySize) (fun _ => False) m) :
    Returns m vm := by
  obtain ⟨r, t, hr, -⟩ := Meets.returns h rfl
  exact ⟨r, t, hr⟩

theorem not_returns {α : Type} {m : VmM α} {e : Fault} (h : m vm = .error e) : ¬ Returns m vm := by
  rintro ⟨r, t, hr⟩
  rw [h] at hr
  cases hr

theorem returns_vmRead8 : Returns (vmRead8 a) vm ↔ Readable8 vm a := by
  unfold Readable8 Returns
  cases hindex : fbByteIndex vm.memorySize a with
  | some k =>
    simp only [vmRead8, fbReadByte, bind_apply, get_apply, hindex, pure_apply,
      checkIndex_of_lt (fbByteIndex_lt hindex)]
    simp
  | none =>
    by_cases hram : inRam vm a 1
    · have hlt : a.toNat < vm.memorySize := hram
      simp only [vmRead8, bind_apply, get_apply, hindex, requireRam_of_inRam hram,
        loadByte_of_lt hlt]
      simp [hram]
    · simp only [vmRead8, bind_apply, get_apply, hindex, requireRam_of_not_inRam hram]
      simp [hram]

theorem returns_vmRead32 (hc : CacheCoherent vm) :
    Returns (vmRead32 a) vm ↔ Readable32 vm a := by
  by_cases hal : AlignOk vm 4 a
  · by_cases hcov : ∃ dev ∈ vm.mmioDevices, dev.covers a
    · refine iff_of_true ?_ ⟨hal, .inl hcov⟩
      obtain ⟨dev, -, -, hread⟩ := vmRead32_of_covers hc hal hcov
      obtain ⟨w, t, ht⟩ : Returns (dev.ops.read32 a) (vm.cached dev) :=
        returns_of_safe (sized_read32 _ _)
      exact ⟨w, t, hread.trans ht⟩
    have hfind : findMmio a vm = .ok (none, vm.uncached) :=
      findMmio_of_noDevice hc fun dev hdev hcovers => hcov ⟨dev, hdev, hcovers⟩
    by_cases hram : inRam vm a 4
    · refine iff_of_true ?_ ⟨hal, .inr hram⟩
      have hram' : a.toNat + 4 ≤ vm.memorySize := hram
      have hload : ∀ k : BitVec 32, k.toNat < 4 →
          Safe (Sized vm.memorySize) (fun _ => False) (loadByte (a + k).toNat) :=
        fun k hk => sized_loadByte (toNat_add_lt (by omega))
      unfold Returns
      rw [vmRead32, bind_ok (memcheckAlign_of_alignOk hal), bind_ok hfind]
      dsimp only
      rw [bind_ok (requireRam_of_inRam (show inRam vm.uncached a 4 from hram))]
      change Returns _ vm.uncached
      exact returns_of_safe (safe_bind (hload _ (by decide)) fun _ =>
        safe_bind (hload _ (by decide)) fun _ => safe_bind (hload _ (by decide)) fun _ =>
        safe_bind (hload _ (by decide)) fun _ => safe_pure _)
    · refine iff_of_false (not_returns (e := .panic (.addressOutOfBounds .read32 a)) ?_) ?_
      · rw [vmRead32, bind_ok (memcheckAlign_of_alignOk hal), bind_ok hfind]
        exact bind_error (requireRam_of_not_inRam (show ¬ inRam vm.uncached a 4 from hram))
      · rintro ⟨-, h | h⟩
        · exact hcov h
        · exact hram h
  · refine iff_of_false (not_returns (e := .panic (.unalignedAddress .read32 a)) ?_) fun h => hal h.1
    exact bind_error (memcheckAlign_of_not_alignOk hal)

theorem returns_vmWrite64 {v : BitVec 64} : Returns (vmWrite64 a v) vm ↔ Writable64 vm a := by
  by_cases hal : AlignOk vm 8 a
  · by_cases hram : inRam vm a 8
    · refine iff_of_true ?_ ⟨hal, hram⟩
      have hram' : a.toNat + 8 ≤ vm.memorySize := hram
      have hstore : ∀ (k : BitVec 32) (b : BitVec 8), k.toNat < 8 →
          Safe (Sized vm.memorySize) (fun _ => False) (storeByte (a + k).toNat b) :=
        fun k b hk => sized_storeByte (toNat_add_lt (by omega)) b
      unfold Returns
      rw [vmWrite64, bind_ok (memcheckAlign_of_alignOk hal), bind_ok (requireRam_of_inRam hram)]
      change Returns _ vm
      exact returns_of_safe (safe_bind (hstore _ _ (by decide)) fun _ =>
        safe_bind (hstore _ _ (by decide)) fun _ => safe_bind (hstore _ _ (by decide)) fun _ =>
        safe_bind (hstore _ _ (by decide)) fun _ => safe_bind (hstore _ _ (by decide)) fun _ =>
        safe_bind (hstore _ _ (by decide)) fun _ => safe_bind (hstore _ _ (by decide)) fun _ =>
        hstore _ _ (by decide))
    · refine iff_of_false (not_returns (e := .panic (.addressOutOfBounds .write64 a)) ?_)
        fun h => hram h.2
      rw [vmWrite64, bind_ok (memcheckAlign_of_alignOk hal)]
      exact bind_error (requireRam_of_not_inRam hram)
  · refine iff_of_false (not_returns (e := .panic (.unalignedAddress .write64 a)) ?_) fun h => hal h.1
    exact bind_error (memcheckAlign_of_not_alignOk hal)

theorem returns_atomic {α : Type} {op : AccessName} {m : Unit → VmM α} (hc : CacheCoherent vm)
    (hm : a.toNat + 4 ≤ vm.memorySize → Safe (Sized vm.memorySize) (fun _ => False) (m ())) :
    Returns (atomic32PtrOrPanic op a >>= m) vm ↔ Atomic32 vm a := by
  by_cases hal : a.toNat % 4 ≠ 0
  · refine iff_of_false (not_returns (e := .panic (.unalignedAddress op a)) ?_) fun h => hal h.1
    refine bind_error ?_
    simp only [atomic32PtrOrPanic, if_pos hal]
    rfl
  by_cases hram : inRam vm a 4
  · by_cases hcov : ∃ dev ∈ vm.mmioDevices, dev.covers a
    · obtain ⟨dev, -, -, hfind⟩ := findMmio_of_covers hc hcov
      refine iff_of_false (not_returns (e := .panic (.atomicOnMmio op a)) ?_) fun h => h.2.2 hcov
      refine bind_error ?_
      simp only [atomic32PtrOrPanic, bind_apply, if_neg hal,
        requireRam_of_inRam hram, hfind, vmPanic_apply]
    · refine iff_of_true ?_ ⟨not_not.mp hal, hram, hcov⟩
      have hptr : atomic32PtrOrPanic op a vm = .ok ((), vm.uncached) :=
        atomic32PtrOrPanic_of_noDevice hc hram
          (fun dev hdev hcovers => hcov ⟨dev, hdev, hcovers⟩) (not_not.mp hal)
      unfold Returns
      rw [bind_ok hptr]
      change Returns (m ()) vm.uncached
      exact returns_of_safe (hm hram)
  · refine iff_of_false (not_returns (e := .panic (.addressOutOfBounds op a)) ?_) fun h => hram h.2.1
    refine bind_error ?_
    simp only [atomic32PtrOrPanic, bind_apply, if_neg hal,
      requireRam_of_not_inRam hram]

/-- The data stack has a word that can be popped. -/
def Poppable (vm : Vm) (c : ℕ) : Prop :=
  ¬ (vm.cpus c).dsp ≥ dataStackSize ∧
    Readable32 vm (dataStack.cellAddr (vm.cpus c) 4 (vm.cpus c).dsp)

/-- The call stack has room for a return address. -/
def Callable (vm : Vm) (c : ℕ) : Prop :=
  (vm.cpus c).csp ≠ 0 ∧ Writable64 vm (callStack.cellAddr (vm.cpus c) 8 ((vm.cpus c).csp - 1))

theorem returns_bind {α β : Type} {m : VmM α} {f : α → VmM β} (hf : ∀ r t, Returns (f r) t) :
    Returns (m >>= f) vm ↔ Returns m vm := by
  constructor
  · rintro ⟨b, t, h⟩
    obtain ⟨r, u, hm, -⟩ := bind_eq_ok h
    exact ⟨r, u, hm⟩
  · rintro ⟨r, u, hm⟩
    obtain ⟨b, t, h⟩ := hf r u
    exact ⟨b, t, (bind_ok hm).trans h⟩

theorem returns_dataPop (hc : CacheCoherent vm) (c : ℕ) :
    Returns (dataPop c) vm ↔ Poppable vm c := by
  unfold Poppable
  change Returns (if (vm.cpus c).dsp ≥ dataStackSize then _ else _) vm ↔ _
  by_cases hempty : (vm.cpus c).dsp ≥ dataStackSize
  · rw [if_pos hempty]
    exact iff_of_false (not_returns rfl) fun h => h.1 hempty
  · rw [if_neg hempty]
    refine (returns_bind fun r t => ?_).trans ?_
    · exact ⟨r, _, rfl⟩
    · rw [returns_vmRead32 hc]
      exact (and_iff_right hempty).symm

theorem returns_callPush (c : ℕ) (v : BitVec 64) : Returns (callPush c v) vm ↔ Callable vm c := by
  unfold Callable
  change Returns (if (vm.cpus c).csp = 0 then _ else _) vm ↔ _
  by_cases hfull : (vm.cpus c).csp = 0
  · rw [if_pos hfull]
    exact iff_of_false (not_returns rfl) fun h => h.1 hfull
  · rw [if_neg hfull]
    simp only [Returns, bind_apply, modifyCpu_apply, getCpu_apply, setCpu_cpus_self]
    exact returns_vmWrite64.trans (and_iff_right hfull).symm

end Access

/-! ## The fields that an instruction uses -/

section Fields

variable {vm : Vm} {c : ℕ} {i : Inst}

/-- The conversion of `FTOI` is defined. -/
def FtoiDefined (bits : BitVec 32) : Prop :=
  ((regAsF32 bits).isNaN || decide (regAsF32 bits > f32IntMax) ||
    decide (regAsF32 bits < f32IntMin)) = true ∨ (f32ToI32 (regAsF32 bits)).isSome = true

/-- The fields that an instruction comes to use name registers. A field that is used after
a test that may end the instruction counts if the test is passed. -/
def Vm.FieldsOk (vm : Vm) (c : ℕ) (i : Inst) : Opcode → Prop
  | .halt | .jmp | .rjmp | .call | .rcall | .ret | .iret | .jz | .rjz | .jnz | .rjnz | .jg
  | .jge | .jl | .jle | .jc | .jnc | .fence | .pause => True
  | .push | .movi | .cmpi | .int | .inc | .cpuid => IsReg i.rd
  | .cmp | .memset | .memcpy | .fcmp | .ipi => IsReg i.rd ∧ IsReg i.rs1
  | .mov | .not | .addi | .subi | .andi | .ori | .xori | .shli | .shri | .roli | .rori
  | .fneg | .fabs | .fsqrt | .itof | .store | .store32 | .fstore32 => IsReg i.rs1 ∧ IsReg i.rd
  | .add | .sub | .mul | .and | .or | .xor | .shl | .shr | .sar | .rol | .ror | .fadd | .fsub
  | .fmul | .fdiv | .storex32 => IsReg i.rs1 ∧ IsReg i.rs2 ∧ IsReg i.rd
  | .div | .mod => IsReg i.rs2 ∧ (vm.regValue c i.rs2 ≠ 0 → IsReg i.rs1 ∧ IsReg i.rd)
  | .ftoi => IsReg i.rs1 ∧ (FtoiDefined (vm.regValue c i.rs1) → IsReg i.rd)
  | .pop => Poppable vm c → IsReg i.rd
  | .callr => Callable vm c → IsReg i.rd
  | .load => IsReg i.rs1 ∧ (Readable8 vm (vm.regValue c i.rs1 + i.imm) → IsReg i.rd)
  | .load32 | .fload32 =>
    IsReg i.rs1 ∧ (Readable32 vm (vm.regValue c i.rs1 + i.imm) → IsReg i.rd)
  | .loadx32 => IsReg i.rs1 ∧ IsReg i.rs2 ∧
    (Readable32 vm (vm.regValue c i.rs1 + vm.regValue c i.rs2 + i.imm) → IsReg i.rd)
  | .in | .out =>
    IsReg i.rs1 ∧ (vm.portOf c i ≥ 0 ∧ vm.portOf c i < ioSize → IsReg i.rd)
  | .cas => IsReg i.rs1 ∧
    ((vm.regValue c i.rs1 + i.imm) &&& 3 = 0 → IsReg i.rd ∧ IsReg i.rs2)
  | .xadd | .xchg => IsReg i.rs1 ∧ ((vm.regValue c i.rs1 + i.imm) &&& 3 = 0 → IsReg i.rs2 ∧
    (Atomic32 vm (vm.regValue c i.rs1 + i.imm) → IsReg i.rd))
  | .ldar => IsReg i.rs1 ∧ ((vm.regValue c i.rs1 + i.imm) &&& 3 = 0 →
    Atomic32 vm (vm.regValue c i.rs1 + i.imm) → IsReg i.rd)
  | .stlr => IsReg i.rs1 ∧ ((vm.regValue c i.rs1 + i.imm) &&& 3 = 0 → IsReg i.rd)
  | .startap => (vm.cpus c).isBsp = true → IsReg i.rd ∧ IsReg i.rs1

theorem regSafe_of_quiet {α : Type} {m : VmM α} (h : Quiet m) : RegSafe m vm ↔ True :=
  iff_true_intro (h.regSafe vm)

theorem regSafe_setLogic {rd : BitVec 8} {v : BitVec 32} :
    RegSafe (setLogic c rd v) vm ↔ IsReg rd := by
  refine regSafe_writeReg_bind fun hrd t => ?_
  exact regSafe_readReg_bind.mpr ⟨hrd, (quiet_modifyFlags c _).regSafe t⟩

theorem regSafe_write_flags {rd : BitVec 8} {v : BitVec 32} {f : BitVec 32 → BitVec 32} :
    RegSafe (writeReg c rd v >>= fun _ => modifyFlags c f) vm ↔ IsReg rd :=
  regSafe_writeReg_bind fun _ t => (quiet_modifyFlags c f).regSafe t

/-- The loads that set the flags from the register they wrote. -/
theorem regSafe_write_read {rd : BitVec 8} {v : BitVec 32} {g : BitVec 32 → VmM Unit}
    (hg : ∀ w, Quiet (g w)) :
    RegSafe (writeReg c rd v >>= fun _ => readReg c rd >>= g) vm ↔ IsReg rd :=
  regSafe_writeReg_bind fun hrd t => regSafe_readReg_bind.mpr ⟨hrd, (hg _).regSafe t⟩

theorem regSafe_baseImm_bind {β : Type} {f : BitVec 32 → VmM β} :
    RegSafe (baseImm c i >>= f) vm ↔
      IsReg i.rs1 ∧ RegSafe (f (vm.regValue c i.rs1 + i.imm)) vm := by
  have hassoc : baseImm c i >>= f = readReg c i.rs1 >>= fun base => f (base + i.imm) := by
    rw [baseImm, bind_assoc]
    rfl
  rw [hassoc, regSafe_readReg_bind]

theorem regSafe_baseIndexImm_bind {β : Type} {f : BitVec 32 → VmM β} :
    RegSafe (baseIndexImm c i >>= f) vm ↔ IsReg i.rs1 ∧ IsReg i.rs2 ∧
      RegSafe (f (vm.regValue c i.rs1 + vm.regValue c i.rs2 + i.imm)) vm := by
  have hassoc : baseIndexImm c i >>= f = readReg c i.rs1 >>= fun base =>
      readReg c i.rs2 >>= fun index => f (base + index + i.imm) := by
    simp only [baseIndexImm, bind_assoc, pure_bind]
  rw [hassoc, regSafe_readReg_bind, regSafe_readReg_bind]

theorem regSafe_atomicAddr_bind {β : Type} {name : AccessName} {f : BitVec 32 → VmM β} :
    RegSafe (atomicAddr c i name >>= f) vm ↔ IsReg i.rs1 ∧
      ((vm.regValue c i.rs1 + i.imm) &&& 3 = 0 →
        RegSafe (f (vm.regValue c i.rs1 + i.imm)) vm) := by
  have hassoc : atomicAddr c i name >>= f = baseImm c i >>= fun addr =>
      ensureAtomicAligned name addr >>= fun _ => f addr := by
    simp only [atomicAddr, bind_assoc, pure_bind]
  rw [hassoc, regSafe_baseImm_bind]
  refine and_congr_right fun _ => ?_
  by_cases hal : (vm.regValue c i.rs1 + i.imm) &&& 3 = 0
  · rw [ensureAtomicAligned, if_neg (not_not.mpr hal), pure_bind]
    exact ⟨fun h _ => h, fun h => h hal⟩
  · refine iff_of_true (fun k => ?_) fun h => absurd h hal
    rw [ensureAtomicAligned, if_pos hal, bind_apply, vmPanic_apply]
    intro hcontra
    cases hcontra

theorem regSafe_getCpu_bind {β : Type} {f : Vcpu → VmM β} :
    RegSafe (getCpu c >>= f) vm ↔ RegSafe (f (vm.cpus c)) vm := Iff.rfl

theorem regSafe_divideBy {f : BitVec 32 → BitVec 32 → BitVec 32} {b : BitVec 32} :
    RegSafe (divideBy c i f b) vm ↔ (b ≠ 0 → IsReg i.rs1 ∧ IsReg i.rd) := by
  unfold divideBy
  by_cases hb : b ≠ 0
  · rw [if_pos hb, regSafe_readReg_bind, regSafe_setLogic]
    exact ⟨fun h _ => h, fun h => h hb⟩
  · rw [if_neg hb]
    exact iff_of_true ((quiet_trigger _ _).regSafe vm) fun h => absurd h hb

theorem quiet_readFifo (k : ℕ) : Quiet (readFifo k) :=
  safe_bind safe_get fun _ => safe_bind (quiet_checkIndex (by decide) _ _) fun _ => safe_pure _

theorem quiet_inKeyboard (hrd : IsReg i.rd) : Quiet (inKeyboard c i) := by
  have hwrite : ∀ v, Quiet (writeReg c i.rd v) := (quiet_core c).writeReg (.inl hrd)
  have hset : ∀ port, port < ioSize → ∀ v, Quiet (setIo port v) := fun _ => quiet_port.setIo
  refine safe_bind (safe_bind safe_get fun _ => safe_ite (fun _ => ?_) fun _ => hwrite _) fun _ =>
    safe_bind (safe_bind safe_get fun _ => safe_ite (fun _ => ?_) fun _ => ?_) fun _ =>
    safe_bind (safe_bind safe_get fun _ => safe_bind (quiet_checkIndex (by decide) _ _) fun _ =>
      safe_set trivial) fun _ => safe_bind safe_get fun _ =>
    safe_ite (fun _ => quiet_trigger _ _) fun _ => safe_pure _
  · exact safe_bind (quiet_readFifo _) fun _ => safe_bind (safe_modify fun _ _ => trivial)
      fun _ => hwrite _
  · exact safe_bind (quiet_readFifo _) fun _ => safe_bind (hset _ (by decide) _) fun _ =>
      hset _ (by decide) _
  · exact safe_bind (hset _ (by decide) _) fun _ => hset _ (by decide) _

/-- The byte is taken from the FIFO before the register is written. -/
theorem regSafe_inKeyboard (htail : vm.serialRxTail.toNat < 256) :
    RegSafe (inKeyboard c i) vm ↔ IsReg i.rd := by
  refine ⟨fun hsafe => ?_, fun hrd => (quiet_inKeyboard hrd).regSafe vm⟩
  by_contra hrd
  have hwrite : ∀ v t, writeReg c i.rd v t = .error (.outOfBounds .regs i.rd.toNat) := by
    intro v t
    rw [writeReg, dif_neg hrd, throw_apply]
  refine hsafe i.rd.toNat (bind_error ?_)
  rw [serialPop, bind_ok (get_apply vm)]
  split_ifs
  · simp only [readFifo, bind_apply, get_apply, checkIndex_of_lt htail, pure_apply, modify_apply,
      hwrite]
  · exact hwrite _ _

theorem regSafe_inPort (htail : vm.serialRxTail.toNat < 256) {a : BitVec 32} :
    RegSafe (inPort c i a) vm ↔ (a.toInt ≥ 0 ∧ a.toInt < ioSize → IsReg i.rd) := by
  unfold inPort
  dsimp only
  by_cases hrange : a.toInt ≥ 0 ∧ a.toInt < ioSize
  · have hread : ∀ (port : ℕ) (f : BitVec 32 → BitVec 32), port < ioSize →
        (RegSafe (readIo port >>= fun v => writeReg c i.rd (f v)) vm ↔ IsReg i.rd) := by
      intro port f hport
      rw [regSafe_bind_of_quiet (safe_readIo hport) fun _ _ => regSafe_writeReg]
      refine ⟨fun h => h ⟨vm.io port, vm, ?_⟩, fun h _ => h⟩
      simp only [readIo, checkIndex_of_lt hport, bind_apply, pure_apply, get_apply]
    rw [if_pos hrange, regSafe_getCpu_bind]
    refine Iff.trans ?_ ⟨fun h _ => h, fun h => h hrange⟩
    have hport : a.toInt.toNat < ioSize := by omega
    exact regSafe_ite regSafe_writeReg (regSafe_ite regSafe_writeReg (regSafe_ite regSafe_writeReg
      (regSafe_ite (regSafe_inKeyboard htail) (regSafe_ite
        (hread _ (fun v => v &&& 0xFF) (by decide)) (hread _ (fun v => v) hport)))))
  · rw [if_neg hrange]
    refine iff_of_true (fun k hcontra => ?_) fun h => absurd h hrange
    cases hcontra

theorem regSafe_execOut :
    RegSafe (execOut c i) vm ↔ vm.FieldsOk c i .out := by
  unfold execOut
  rw [regSafe_readReg_bind]
  refine and_congr_right fun _ => ?_
  change RegSafe (if vm.portOf c i ≥ 0 ∧ vm.portOf c i < ioSize then _ else _) vm ↔ _
  by_cases hrange : vm.portOf c i ≥ 0 ∧ vm.portOf c i < ioSize
  · rw [if_pos hrange, regSafe_readReg_bind]
    refine Iff.trans (and_iff_left ?_) ⟨fun h _ => h, fun h => h hrange⟩
    refine Quiet.regSafe ?_ vm
    refine safe_ite (fun _ => ?_) fun _ => safe_ite (fun _ => ?_) fun _ =>
      safe_ite (fun _ => (quiet_core c).modifyCpu fun _ => rfl) fun _ => quiet_port.acceptIo _ _
    all_goals
      exact safe_ite (fun _ => (quiet_core c).modifyCpu fun _ => rfl) fun _ => safe_pure _
  · rw [if_neg hrange]
    refine iff_of_true (fun k hcontra => ?_) fun h => absurd h hrange
    cases hcontra

theorem regSafe_execFtoi : RegSafe (execFtoi c i) vm ↔ vm.FieldsOk c i .ftoi := by
  unfold execFtoi
  rw [regSafe_readReg_bind]
  refine and_congr_right fun _ => ?_
  generalize vm.regValue c i.rs1 = bits
  unfold FtoiDefined
  by_cases hout : ((regAsF32 bits).isNaN || decide (regAsF32 bits > f32IntMax) ||
      decide (regAsF32 bits < f32IntMin)) = true
  · rw [if_pos hout]
    refine Iff.trans (regSafe_writeReg_bind fun _ t => ?_) ⟨fun h _ => h, fun h => h (.inl hout)⟩
    exact Quiet.regSafe (safe_bind (quiet_modifyFlags c _) fun _ => quiet_modifyFlags c _) t
  · rw [if_neg hout]
    cases hint : f32ToI32 (regAsF32 bits) with
    | some v => exact Iff.trans regSafe_write_flags ⟨fun h _ => h, fun h => h (.inr rfl)⟩
    | none =>
      refine iff_of_true (fun k hcontra => ?_) fun h => ?_
      · cases hcontra
      · obtain h | h := h
        · exact absurd h hout
        · cases h

theorem regSafe_execStartap : RegSafe (execStartap c i) vm ↔ vm.FieldsOk c i .startap := by
  unfold execStartap
  rw [regSafe_getCpu_bind]
  by_cases hbsp : (vm.cpus c).isBsp = true
  · rw [if_neg (not_not.mpr hbsp), regSafe_readReg_bind, regSafe_readReg_bind]
    refine Iff.trans ?_ (show _ ↔ ((vm.cpus c).isBsp = true → _) from
      ⟨fun h _ => h, fun h => h hbsp⟩)
    refine and_congr_right fun _ => and_iff_left (Quiet.regSafe ?_ vm)
    refine safe_bind safe_get fun _ => safe_ite (fun _ => safe_pure _) fun _ =>
      safe_bind (quiet_checkIndex (by decide) _ _) fun _ =>
      safe_bind ((quiet_core _).modifyCpu fun _ => rfl) fun _ =>
      safe_bind (quiet_checkIndex (by decide) _ _) fun _ => safe_modify fun _ _ => trivial
  · rw [if_pos hbsp]
    exact iff_of_true (Quiet.regSafe (safe_pure _) vm) fun h => absurd h hbsp

/-- An instruction leaves the register file exactly when a field that it comes to use names
no register. -/
theorem regSafe_execute (hc : CacheCoherent vm) (htail : vm.serialRxTail.toNat < 256)
    (op : Opcode) : RegSafe (execute c i op) vm ↔ vm.FieldsOk c i op := by
  have hquiet : ∀ {m : VmM Unit} {p : Prop}, Quiet m → (p ∧ RegSafe m vm ↔ p) :=
    fun hm => and_iff_left (hm.regSafe vm)
  cases op with rw [execute]
  | halt => exact regSafe_of_quiet (safe_modify fun _ _ => trivial)
  | fence | pause => exact regSafe_of_quiet (safe_pure _)
  | jmp => exact regSafe_of_quiet (quiet_setIp c _)
  | rjmp => exact regSafe_of_quiet (safe_bind (safe_getCpu c) fun _ => quiet_setIp c _)
  | call | rcall => exact regSafe_of_quiet (quiet_callTo c _)
  | ret =>
    exact regSafe_of_quiet (safe_bind ((quiet_core c).stackPop notRegs_panic (fun _ _ => rfl)
      quiet_memory.vmRead64) fun _ => quiet_setIp c _)
  | iret => exact regSafe_of_quiet ((quiet_core c).vmIret notRegs_panic quiet_memory)
  | jz | jnz | jg | jge | jl | jle | jc | jnc | rjz | rjnz =>
    exact regSafe_of_quiet (safe_bind (safe_getCpu c) fun _ => quiet_jumpIf c _ _)
  | add | sub =>
    rw [regSafe_readReg_bind, regSafe_readReg_bind]
    exact and_congr_right fun _ => and_congr_right fun _ => regSafe_write_flags
  | mul | and | or | xor | shl | shr | sar | rol | ror =>
    rw [execLogic2, regSafe_readReg_bind, regSafe_readReg_bind, regSafe_setLogic]
    rfl
  | fadd | fsub | fmul | fdiv =>
    rw [execFloat2, regSafe_readReg_bind, regSafe_readReg_bind]
    exact and_congr_right fun _ => and_congr_right fun _ => regSafe_write_flags
  | andi | ori | xori | shli | shri | roli | rori =>
    rw [execLogicImm, regSafe_readReg_bind, regSafe_setLogic]
    rfl
  | addi | subi | fneg | fabs | fsqrt | itof =>
    rw [regSafe_readReg_bind]
    exact and_congr_right fun _ => regSafe_write_flags
  | mov | not =>
    rw [regSafe_readReg_bind, regSafe_setLogic]
    rfl
  | inc =>
    rw [regSafe_readReg_bind]
    exact (and_congr_right fun _ => regSafe_write_flags).trans (and_self_iff)
  | movi => exact regSafe_setLogic
  | cpuid => exact regSafe_getCpu_bind.trans regSafe_setLogic
  | cmp =>
    rw [regSafe_readReg_bind, regSafe_readReg_bind]
    exact and_congr_right fun _ => hquiet (quiet_execCompare c _ _)
  | fcmp =>
    rw [regSafe_readReg_bind, regSafe_readReg_bind]
    exact and_congr_right fun _ => hquiet (quiet_modifyFlags c _)
  | cmpi =>
    rw [regSafe_readReg_bind]
    exact hquiet (quiet_execCompare c _ _)
  | push =>
    rw [regSafe_readReg_bind]
    exact hquiet ((quiet_core c).stackPush notRegs_panic (fun _ _ => rfl) quiet_memory.vmWrite32 _)
  | pop =>
    rw [regSafe_bind_of_quiet (quiet_dataPop c) fun _ _ => regSafe_setLogic]
    exact imp_congr (returns_dataPop hc c) Iff.rfl
  | callr =>
    rw [regSafe_getCpu_bind, regSafe_bind_of_quiet (quiet_callPush c _) fun _ _ =>
      regSafe_readReg_bind.trans (and_iff_left ((quiet_setIp c _).regSafe _))]
    exact imp_congr (returns_callPush c _) Iff.rfl
  | int =>
    rw [regSafe_readReg_bind]
    exact hquiet ((quiet_core c).vmEnterInterrupt notRegs_panic quiet_memory _)
  | memset =>
    rw [regSafe_readReg_bind, regSafe_readReg_bind]
    exact and_congr_right fun _ => hquiet (quiet_memory.memsetLoop _ _ _ _)
  | memcpy =>
    rw [regSafe_readReg_bind, regSafe_readReg_bind]
    exact and_congr_right fun _ => hquiet (quiet_memory.memcpyLoop _ _ _ _)
  | ipi =>
    rw [regSafe_readReg_bind, regSafe_readReg_bind]
    exact and_congr_right fun _ => hquiet (quiet_trigger _ _)
  | div | mod =>
    rw [execDivide_eq, regSafe_readReg_bind, regSafe_divideBy]
    rfl
  | load =>
    rw [regSafe_baseImm_bind]
    refine and_congr_right fun _ => ?_
    refine (regSafe_bind_of_quiet (quiet_memory.vmRead8 _) fun _ _ => ?_).trans
      (imp_congr_left returns_vmRead8)
    exact regSafe_write_read fun w => quiet_modifyFlags c (zfSfFlags · w)
  | load32 =>
    rw [regSafe_baseImm_bind, regSafe_bind_of_quiet (quiet_memory.vmRead32 _) fun _ _ =>
      regSafe_setLogic, returns_vmRead32 hc]
    rfl
  | fload32 =>
    rw [regSafe_baseImm_bind]
    refine and_congr_right fun _ => ?_
    refine (regSafe_bind_of_quiet (quiet_memory.vmRead32 _) fun _ _ => ?_).trans
      (imp_congr_left (returns_vmRead32 hc))
    exact regSafe_write_read fun w => quiet_modifyFlags c (logicFlags · _)
  | loadx32 =>
    rw [regSafe_baseIndexImm_bind, regSafe_bind_of_quiet (quiet_memory.vmRead32 _) fun _ _ =>
      regSafe_setLogic, returns_vmRead32 hc]
    rfl
  | store =>
    rw [regSafe_baseImm_bind, regSafe_readReg_bind]
    exact and_congr_right fun _ => hquiet (quiet_memory.vmWrite8 _ _)
  | store32 | fstore32 =>
    rw [regSafe_baseImm_bind, regSafe_readReg_bind]
    exact and_congr_right fun _ => hquiet (quiet_memory.vmWrite32 _ _)
  | storex32 =>
    rw [regSafe_baseIndexImm_bind, regSafe_readReg_bind]
    exact and_congr_right fun _ => and_congr_right fun _ => hquiet (quiet_memory.vmWrite32 _ _)
  | «in» =>
    rw [execIn_eq, regSafe_readReg_bind, regSafe_inPort htail]
    rfl
  | out => exact regSafe_execOut
  | ftoi => exact regSafe_execFtoi
  | startap => exact regSafe_execStartap
  | cas =>
    rw [regSafe_atomicAddr_bind]
    refine and_congr_right fun _ => imp_congr_right fun _ => ?_
    rw [regSafe_readReg_bind, regSafe_readReg_bind]
    refine and_congr_right fun hrd => and_iff_left ?_
    exact Quiet.regSafe (safe_bind (quiet_memory.compareExchange _ _ _) fun _ =>
      safe_bind (quiet_modifyFlags c _) fun _ => (quiet_core c).writeReg (.inl hrd) _) vm
  | xadd =>
    rw [regSafe_atomicAddr_bind]
    refine and_congr_right fun _ => imp_congr_right fun _ => ?_
    rw [regSafe_readReg_bind]
    refine and_congr_right fun _ => ?_
    refine (regSafe_bind_of_quiet (quiet_memory.fetchAdd _ _) fun old _ => ?_).trans
      (imp_congr_left (returns_atomic hc fun hram => ?_))
    · exact regSafe_write_flags
    · exact safe_bind (sized_hostLoad32 hram) fun _ => safe_bind (sized_hostStore32 hram _)
        fun _ => safe_pure _
  | xchg =>
    rw [regSafe_atomicAddr_bind]
    refine and_congr_right fun _ => imp_congr_right fun _ => ?_
    rw [regSafe_readReg_bind, regSafe_bind_of_quiet (quiet_memory.exchange _ _) fun _ _ =>
      regSafe_setLogic, vmAtomicExchange32Seqcst, returns_atomic hc fun hram =>
      safe_bind (sized_hostLoad32 hram) fun _ => safe_bind (sized_hostStore32 hram _) fun _ =>
      safe_pure _]
  | ldar =>
    rw [regSafe_atomicAddr_bind]
    refine and_congr_right fun _ => imp_congr_right fun _ => ?_
    rw [regSafe_bind_of_quiet (quiet_memory.load _) fun _ _ => regSafe_setLogic,
      vmAtomicLoad32Acquire, returns_atomic hc sized_hostLoad32]
  | stlr =>
    rw [regSafe_atomicAddr_bind]
    refine and_congr_right fun _ => imp_congr_right fun _ => ?_
    rw [regSafe_readReg_bind]
    exact hquiet (quiet_memory.store _ _)

/-! ## Every instruction word -/

/-- The fetch changes nothing that the fields are used under. -/
theorem fieldsOk_fetched (op : Opcode) : (vm.fetched c).FieldsOk c i op ↔ vm.FieldsOk c i op := by
  have hpop : Poppable (vm.fetched c) c ↔ Poppable vm c := by
    simp only [Poppable, Vm.fetched, setCpu_cpus_self]
    rfl
  have hcall : Callable (vm.fetched c) c ↔ Callable vm c := by
    simp only [Callable, Vm.fetched, setCpu_cpus_self]
    rfl
  have hreg := fetched_regValue vm c
  cases op with
  | pop => exact imp_congr_left hpop
  | callr => exact imp_congr_left hcall
  | startap => exact imp_congr_left (by rw [fetched_isBsp])
  | div | mod | ftoi | cas | stlr => simp only [Vm.FieldsOk, hreg]
  | load | load32 | fload32 | loadx32 | xadd | xchg | ldar =>
    simp only [Vm.FieldsOk, hreg]
    rfl
  | «in» | out => simp only [Vm.FieldsOk, Vm.portOf, hreg]
  | _ => exact Iff.rfl

/-- In every reachable state, every instruction word leaves the register file exactly when
a field that it comes to use names no register; so does the next instruction of a core. -/
theorem register_fields_iff {memorySize : ℕ} {smpCores : ℤ}
    (h : Reachable (machine memorySize smpCores) vm) (c : ℕ) :
    (∀ (w : BitVec 64) (op : Opcode), (Inst.decode w).op = op.code →
        (RegSafe (execute c (Inst.decode w) op) (vm.fetched c) ↔
          vm.FieldsOk c (Inst.decode w) op)) ∧
      (RegSafe (vmInstructionCase c) vm ↔ (inRam vm (vm.cpus c).fetchIp 8 →
        ∀ op : Opcode, (vm.nextInst c).op = op.code → vm.FieldsOk c (vm.nextInst c) op)) := by
  have hc : CacheCoherent (vm.fetched c) := (reachable_inv h).cache
  have htail : (vm.fetched c).serialRxTail.toNat < 256 := (reachable_index h).serialTail
  have hexec : ∀ i op, RegSafe (execute c i op) (vm.fetched c) ↔ vm.FieldsOk c i op :=
    fun i op => (regSafe_execute hc htail op).trans (fieldsOk_fetched op)
  refine ⟨fun w op _ => hexec _ op, ?_⟩
  by_cases hram : inRam vm (vm.cpus c).fetchIp 8
  · refine Iff.trans ?_ ⟨fun hok _ => hok, fun hok => hok hram⟩
    cases hop : Opcode.ofByte (vm.nextInst c).op with
    | some op =>
      have hcode : (vm.nextInst c).op = op.code := Opcode.code_of_ofByte hop
      rw [RegSafe, vmInstructionCase_of_inRam hram hcode]
      refine (hexec _ op).trans ⟨fun hok op' hop' => ?_, fun hok => hok op hcode⟩
      exact opcode_of_code hcode hop' ▸ hok
    | none =>
      refine iff_of_true (fun k hcontra => ?_) fun op hcode => ?_
      · rw [vmInstructionCase_of_unknown hram hop] at hcontra
        cases hcontra
      · rw [hcode, Opcode.ofByte_code] at hop
        cases hop
  · refine iff_of_true (fun k hcontra => ?_) fun hram' => absurd hram' hram
    rw [vmInstructionCase, bind_error (fetch64_of_not_inRam hram)] at hcontra
    cases hcontra

end Fields

/-- A machine of the default size whose program is a single word. -/
theorem exists_program (w : BitVec 64) : ∃ vm, Reachable (machine memSize 1) vm ∧
    0 < vm.smpCores ∧ inRam vm (vm.cpus 0).fetchIp 8 ∧ vm.nextInst 0 = Inst.decode w ∧
    ∀ r, vm.regValue 0 r = 0 := by
  obtain ⟨vm, hvm⟩ := exists_started ⟨fun _ => 0, fun _ => 0, 0⟩ [w]
    (by rw [List.length_singleton]; decide)
  obtain ⟨hram, hinst⟩ := (hvm.atWord (by rw [List.length_singleton]; decide)).fetch Nat.one_pos
  refine ⟨vm, .of_init hvm.init, ?_, hram, hinst, fun r => ?_⟩
  · rw [hvm.smpCores]
    decide
  · rw [Vm.regValue, hvm.core]
    exact ite_self _

/-- The program is a single `ADD` of three registers. -/
theorem register_fields_add : ∃ vm, Reachable (machine memSize 1) vm ∧
    inRam vm (vm.cpus 0).fetchIp 8 ∧ RegSafe (vmInstructionCase 0) vm := by
  obtain ⟨vm, hvm, -, hram, hinst, -⟩ := exists_program (Inst.encode ⟨Opcode.add.code, 1, 2, 3, 0⟩)
  refine ⟨vm, hvm, hram, (register_fields_iff hvm 0).2.mpr fun _ op hop => ?_⟩
  have hdecode : vm.nextInst 0 = ⟨Opcode.add.code, 1, 2, 3, 0⟩ := hinst.trans (by decide)
  rw [hdecode] at hop ⊢
  obtain rfl := opcode_of_code (show _ = Opcode.add.code from rfl) hop
  exact ⟨by decide, by decide, by decide⟩

/-- The program is a single `ADD` to a register 40. -/
theorem add_leaves_register_file : ¬ ∀ (memorySize : ℕ) (smpCores : ℤ) (vm : Vm) (c : ℕ),
    Reachable (machine memorySize smpCores) vm → c < vm.smpCores →
      ∀ k, vmInstructionCase c vm ≠ .error (.outOfBounds .regs k) := by
  intro h
  obtain ⟨vm, hvm, hc, hram, hinst, -⟩ := exists_program (Inst.encode ⟨Opcode.add.code, 40, 2, 3, 0⟩)
  have hdecode : vm.nextInst 0 = ⟨Opcode.add.code, 40, 2, 3, 0⟩ := hinst.trans (by decide)
  have hop : (vm.nextInst 0).op = Opcode.add.code := by rw [hdecode]
  have hrun := vmInstructionCase_of_inRam hram hop
  refine h _ _ vm 0 hvm hc 40 (hrun.trans ?_)
  rw [hdecode, execute, bind_ok (readReg_regValue (by decide)),
    bind_ok (readReg_regValue (by decide))]
  rfl

end LampVm
