import LampVm.ArithFlags
import LampVm.ClockRegisters

/-!
# Instructions whose flags describe their result

Twenty-seven integer instructions end by describing the register that they have written: two
flags say whether it is zero or negative, and the carry and overflow flags are cleared. `LOAD`
uses the helper that leaves the last two alone. Nine of the instructions shift or rotate;
`SAR` shifts a register that is declared unsigned.
-/
namespace LampVm

open ByteOrder Contract Transition

/-! ## The flags of a result -/

/-- The integer instructions that should clear the carry and overflow flags. -/
def resultOps : List Opcode :=
  [.mul, .div, .mod, .and, .or, .xor, .not, .shl, .shr, .sar, .rol, .ror, .andi, .ori, .xori,
   .shli, .shri, .roli, .rori, .mov, .movi, .load, .load32, .loadx32, .pop, .xchg, .ldar]

/-- The flags describe a result. -/
structure ResultFlags (flags result : BitVec 32) : Prop where
  zf : flags &&& flagZf ≠ 0 ↔ result = 0
  sf : flags &&& flagSf ≠ 0 ↔ result.toInt < 0
  cf : flags &&& flagCf = 0
  of : flags &&& flagOf = 0

section Flags

variable (flags result : BitVec 32)

/-- The helper of `LOAD` keeps the carry and the overflow of an earlier instruction. -/
theorem resultFlags_zfSfFlags : ResultFlags (zfSfFlags flags result) result ↔
    flags &&& flagCf = 0 ∧ flags &&& flagOf = 0 := by
  have hcf : zfSfFlags flags result &&& flagCf = flags &&& flagCf := by
    rw [zfSfFlags, setFlag_and_of_disjoint (by decide), setFlag_and_of_disjoint (by decide)]
  have hof : zfSfFlags flags result &&& flagOf = flags &&& flagOf := by
    rw [zfSfFlags, setFlag_and_of_disjoint (by decide), setFlag_and_of_disjoint (by decide)]
  constructor
  · intro h
    exact ⟨hcf.symm.trans h.cf, hof.symm.trans h.of⟩
  · intro h
    refine ⟨?_, ?_, hcf.trans h.1, hof.trans h.2⟩
    · rw [zfSfFlags, setFlag_and_of_disjoint (by decide), setFlag_and_self]
      exact flag_ne_zero_iff (by decide)
    · rw [zfSfFlags, setFlag_and_self]
      exact flag_ne_zero_iff (by decide)

theorem resultFlags_logicFlags : ResultFlags (logicFlags flags result) result := by
  refine (resultFlags_zfSfFlags _ _).mpr ⟨?_, ?_⟩
  · rw [BitVec.and_assoc, show ~~~(flagCf ||| flagOf) &&& flagCf = 0 from rfl]
    exact BitVec.and_zero
  · rw [BitVec.and_assoc, show ~~~(flagCf ||| flagOf) &&& flagOf = 0 from rfl]
    exact BitVec.and_zero

end Flags

/-! ## The instructions -/

section Instructions

variable {s t : Vm} {c : ℕ} {i : Inst} {op : Opcode}

/-- The memory that an instruction of the list reads can be read. -/
def Vm.ReadsOk (vm : Vm) (c : ℕ) (i : Inst) : Opcode → Prop
  | .load => Readable8 vm (vm.regValue c i.rs1 + i.imm)
  | .load32 => Readable32 vm (vm.regValue c i.rs1 + i.imm)
  | .loadx32 => Readable32 vm (vm.regValue c i.rs1 + vm.regValue c i.rs2 + i.imm)
  | .pop => Poppable vm c
  | .xchg | .ldar => Atomic32 vm (vm.regValue c i.rs1 + i.imm)
  | _ => True

theorem setLogic_flags {r : BitVec 8} {v : BitVec 32} (h : setLogic c r v s = .ok ((), t)) :
    ResultFlags (t.cpus c).flags (t.regValue c r) := by
  obtain ⟨hr, rfl⟩ := setLogic_eq_ok h
  rw [regValue_withResult hr, setCpu_cpus_self]
  exact resultFlags_logicFlags _ _

/-- Every instruction of the list but `LOAD` ends in the helper that clears both flags. -/
theorem execute_setLogic (hop : op ∈ resultOps) (hload : op ≠ .load)
    (hdiv : op = .div ∨ op = .mod → s.regValue c i.rs2 ≠ 0)
    (h : execute c i op s = .ok ((), t)) : ∃ v u, setLogic c i.rd v u = .ok ((), t) := by
  have hdivide : ∀ f, s.regValue c i.rs2 ≠ 0 → execDivide c i f s = .ok ((), t) →
      ∃ v u, setLogic c i.rd v u = .ok ((), t) := by
    intro f hb hrun
    obtain ⟨b, u, hread, hrest⟩ := bind_eq_ok hrun
    obtain ⟨rfl, rfl⟩ := readReg_ok hread
    rw [if_pos hb] at hrest
    obtain ⟨_, u, -, hset⟩ := bind_eq_ok hrest
    exact ⟨_, u, hset⟩
  cases op with
  | mul | and | or | xor | shl | shr | sar | rol | ror =>
    obtain ⟨_, _, -, hrest⟩ := bind_eq_ok h
    obtain ⟨_, u, -, hset⟩ := bind_eq_ok hrest
    exact ⟨_, u, hset⟩
  | div => exact hdivide _ (hdiv (.inl rfl)) h
  | mod => exact hdivide _ (hdiv (.inr rfl)) h
  | not | mov | pop | andi | ori | xori | shli | shri | roli | rori =>
    obtain ⟨_, u, -, hset⟩ := bind_eq_ok h
    exact ⟨_, u, hset⟩
  | movi => exact ⟨_, s, h⟩
  | load32 | loadx32 | ldar =>
    obtain ⟨_, _, -, hrest⟩ := bind_eq_ok h
    obtain ⟨_, u, -, hset⟩ := bind_eq_ok hrest
    exact ⟨_, u, hset⟩
  | xchg =>
    obtain ⟨_, _, -, hrest⟩ := bind_eq_ok h
    obtain ⟨_, _, -, hrest⟩ := bind_eq_ok hrest
    obtain ⟨_, u, -, hset⟩ := bind_eq_ok hrest
    exact ⟨_, u, hset⟩
  | load => exact absurd rfl hload
  | _ => exact absurd hop (by decide)

/-- `LOAD` writes a byte and updates two of the flags that it finds. -/
theorem execute_load_flags (h : execute c i .load s = .ok ((), t)) :
    (t.cpus c).flags = zfSfFlags (s.cpus c).flags (t.regValue c i.rd) := by
  have hkeep : Lookup (fun vm => (vm.cpus c).flags = (s.cpus c).flags) fun _ => True :=
    ⟨safe_findMmio fun _ _ _ _ hvm => hvm, fun _ _ => trivial⟩
  obtain ⟨a, _, hbase, hrest⟩ := bind_eq_ok h
  obtain ⟨_, _, hread, hpure⟩ := bind_eq_ok hbase
  obtain ⟨-, rfl⟩ := readReg_ok hread
  obtain ⟨-, rfl⟩ := Prod.mk.inj (Except.ok.inj hpure)
  obtain ⟨b, u, hbyte, hrest⟩ := bind_eq_ok hrest
  have hu := (hkeep.vmRead8 a).ok rfl hbyte
  by_cases hrd : IsReg i.rd
  · obtain ⟨t', ht', hreg, -, hflags⟩ := write_flags_run (s := u) (c := c) hrd (b.setWidth 32)
      fun flags => zfSfFlags flags (b.setWidth 32)
    have hrun : (writeReg c i.rd (b.setWidth 32) >>= fun _ => readReg c i.rd >>= updateZfSf c) u =
        .ok ((), t') := by
      rw [← ht', writeReg, dif_pos hrd]
      simp only [bind_apply, modifyCpu_apply, readReg, dif_pos hrd, getCpu_apply, setCpu_cpus_self,
        Function.update_self]
      rfl
    obtain rfl : t' = t := (Prod.mk.inj (Except.ok.inj (hrun.symm.trans hrest))).2
    rw [hflags, hreg, hu]
  · obtain ⟨_, _, hwrite, -⟩ := bind_eq_ok hrest
    rw [writeReg, dif_neg hrd] at hwrite
    cases hwrite

theorem returns_setLogic {r : BitVec 8} (hr : IsReg r) (v : BitVec 32) (u : Vm) :
    Returns (setLogic c r v) u := ⟨(), _, setLogic_of_isReg hr v⟩

theorem returns_readReg_bind {α : Type} {r : BitVec 8} (hr : IsReg r) {f : BitVec 32 → VmM α}
    (hf : Returns (f (s.regValue c r)) s) : Returns (readReg c r >>= f) s := by
  obtain ⟨a, u, hrun⟩ := hf
  exact ⟨a, u, (bind_ok (readReg_regValue hr)).trans hrun⟩

theorem returns_baseImm_bind {α : Type} (hr : IsReg i.rs1) {f : BitVec 32 → VmM α}
    (hf : Returns (f (s.regValue c i.rs1 + i.imm)) s) : Returns (baseImm c i >>= f) s := by
  have hassoc : baseImm c i >>= f = readReg c i.rs1 >>= fun base => f (base + i.imm) := by
    simp only [baseImm, bind_assoc, pure_bind]
  rw [hassoc]
  exact returns_readReg_bind hr hf

theorem returns_atomicAddr_bind {α : Type} {name : AccessName} (hr : IsReg i.rs1)
    (hal : (s.regValue c i.rs1 + i.imm) &&& 3 = 0) {f : BitVec 32 → VmM α}
    (hf : Returns (f (s.regValue c i.rs1 + i.imm)) s) : Returns (atomicAddr c i name >>= f) s := by
  have hassoc : atomicAddr c i name >>= f = baseImm c i >>= fun addr =>
      ensureAtomicAligned name addr >>= fun _ => f addr := by
    simp only [atomicAddr, bind_assoc, pure_bind]
  rw [hassoc]
  refine returns_baseImm_bind hr ?_
  rw [ensureAtomicAligned, if_neg (not_not.mpr hal), pure_bind]
  exact hf

/-- With registers in its fields and memory that it can read, each instruction returns. -/
theorem returns_execute (hc : CacheCoherent s) (hop : op ∈ resultOps)
    (hdiv : op = .div ∨ op = .mod → s.regValue c i.rs2 ≠ 0) (hfields : s.FieldsOk c i op)
    (hreads : s.ReadsOk c i op) : Returns (execute c i op) s := by
  have hdivide : ∀ f, s.regValue c i.rs2 ≠ 0 → s.FieldsOk c i .div →
      Returns (execDivide c i f) s := by
    intro f hb hf
    refine returns_readReg_bind hf.1 ?_
    rw [if_pos hb]
    exact returns_readReg_bind (hf.2 hb).1 (returns_setLogic (hf.2 hb).2 _ _)
  cases op with
  | mul | and | or | xor | shl | shr | sar | rol | ror =>
    exact returns_readReg_bind hfields.1 (returns_readReg_bind hfields.2.1
      (returns_setLogic hfields.2.2 _ _))
  | div => exact hdivide _ (hdiv (.inl rfl)) hfields
  | mod => exact hdivide _ (hdiv (.inr rfl)) hfields
  | not | mov | andi | ori | xori | shli | shri | roli | rori =>
    exact returns_readReg_bind hfields.1 (returns_setLogic hfields.2 _ _)
  | movi => exact returns_setLogic hfields _ _
  | pop =>
    exact (returns_bind fun _ _ => returns_setLogic (hfields hreads) _ _).mpr
      ((returns_dataPop hc c).mpr hreads)
  | load =>
    obtain ⟨hrs1, hrd⟩ := hfields
    refine returns_baseImm_bind hrs1 ((returns_bind fun b u => ?_).mpr (returns_vmRead8.mpr hreads))
    have hwrite : Returns (writeReg c i.rd (b.setWidth 32)) u := by
      rw [writeReg, dif_pos (hrd hreads)]
      exact ⟨(), _, rfl⟩
    exact (returns_bind fun _ _ => returns_readReg_bind (hrd hreads) ⟨(), _, rfl⟩).mpr hwrite
  | load32 =>
    exact returns_baseImm_bind hfields.1 ((returns_bind fun _ _ =>
      returns_setLogic (hfields.2 hreads) _ _).mpr ((returns_vmRead32 hc).mpr hreads))
  | loadx32 =>
    obtain ⟨hrs1, hrs2, hrd⟩ := hfields
    have hassoc : execute c i .loadx32 = readReg c i.rs1 >>= fun base => readReg c i.rs2 >>=
        fun index => vmRead32 (base + index + i.imm) >>= setLogic c i.rd := by
      simp only [execute, baseIndexImm, bind_assoc, pure_bind]
    rw [hassoc]
    exact returns_readReg_bind hrs1 (returns_readReg_bind hrs2 ((returns_bind fun _ _ =>
      returns_setLogic (hrd hreads) _ _).mpr ((returns_vmRead32 hc).mpr hreads)))
  | xchg =>
    have hal := and_three_of_aligned hreads.1
    obtain ⟨hrs2, hrd⟩ := hfields.2 hal
    refine returns_atomicAddr_bind hfields.1 hal (returns_readReg_bind hrs2
      ((returns_bind fun _ _ => returns_setLogic (hrd hreads) _ _).mpr ?_))
    exact (returns_atomic hc fun hram => safe_bind (sized_hostLoad32 hram) fun _ =>
      safe_bind (sized_hostStore32 hram _) fun _ => safe_pure _).mpr hreads
  | ldar =>
    have hal := and_three_of_aligned hreads.1
    exact returns_atomicAddr_bind hfields.1 hal ((returns_bind fun _ _ =>
      returns_setLogic (hfields.2 hal hreads) _ _).mpr
        ((returns_atomic hc sized_hostLoad32).mpr hreads))
  | _ => exact absurd hop (by decide)

theorem readsOk_fetched : (s.fetched c).ReadsOk c i op ↔ s.ReadsOk c i op := by
  cases op with
  | pop =>
    simp only [Vm.ReadsOk, Poppable, Vm.fetched, setCpu_cpus_self]
    rfl
  | load | load32 | loadx32 | xchg | ldar =>
    simp only [Vm.ReadsOk, fetched_regValue]
    rfl
  | _ => exact Iff.rfl

/-- Each instruction of the list returns when its registers exist and its memory can be read,
and its flags then describe its register, except that `LOAD` lets an earlier carry and overflow
stand. -/
theorem result_flags_iff (hram : inRam s (s.cpus c).fetchIp 8)
    (hcode : (s.nextInst c).op = op.code) (hop : op ∈ resultOps)
    (hdiv : op = .div ∨ op = .mod → s.regValue c (s.nextInst c).rs2 ≠ 0) :
    (CacheCoherent s → s.FieldsOk c (s.nextInst c) op → s.ReadsOk c (s.nextInst c) op →
      ∃ t, vmInstructionCase c s = .ok ((), t)) ∧
    ∀ t, vmInstructionCase c s = .ok ((), t) →
      (ResultFlags (t.cpus c).flags (t.regValue c (s.nextInst c).rd) ↔
        (op = .load → (s.cpus c).flags &&& flagCf = 0 ∧ (s.cpus c).flags &&& flagOf = 0)) := by
  rw [vmInstructionCase_of_inRam hram hcode]
  have hdiv' : op = .div ∨ op = .mod → (s.fetched c).regValue c (s.nextInst c).rs2 ≠ 0 := by
    rw [fetched_regValue]
    exact hdiv
  constructor
  · intro hc hfields hreads
    obtain ⟨_, t, hrun⟩ := returns_execute (s := s.fetched c) hc hop hdiv'
      ((fieldsOk_fetched op).mpr hfields) (readsOk_fetched.mpr hreads)
    exact ⟨t, hrun⟩
  · intro t hrun
    by_cases hload : op = .load
    · subst hload
      rw [execute_load_flags hrun, fetched_flags, resultFlags_zfSfFlags]
      exact (imp_iff_right rfl).symm
    · obtain ⟨v, u, hset⟩ := execute_setLogic hop hload hdiv' hrun
      exact iff_of_true (setLogic_flags hset) fun h => absurd h hload

end Instructions

/-- The first core once it has fetched the first instruction of a program. -/
def firstFetched : Vcpu :=
  { initCpu memSize 1 (BitVec.ofNat 32 programBase) 0 with
    lastIp := programBase
    ip := programBase + 8 }

/-- A program of two instructions, the first of which changes nothing but its core, after its
first step. -/
theorem exists_second (i₀ i₁ : Inst) {op : Opcode} (hop : i₀.op = op.code) (f : Vcpu → Vcpu)
    (hip : (f firstFetched).ip = programBase + 8)
    (hrun : ∀ u : Vm, execute 0 i₀ op u = .ok ((), u.setCpu 0 (f (u.cpus 0)))) :
    ∃ t, Reachable (machine memSize 1) t ∧ inRam t (t.cpus 0).fetchIp 8 ∧ t.nextInst 0 = i₁ ∧
      t.cpus 0 = f firstFetched := by
  obtain ⟨s, hs⟩ := exists_started ⟨fun _ => 0, fun _ => 0, 0⟩ [i₀.encode, i₁.encode]
    (show programBase + 2 * 8 ≤ memSize by decide)
  have hreach : Reachable (machine memSize 1) s := .of_init hs.init
  have hword := hs.atWord (show programBase + 2 * 8 ≤ memSize by decide)
  have hfetched : (s.fetched 0).cpus 0 = firstFetched := by
    rw [Vm.fetched, setCpu_cpus_self, Vcpu.fetchIp, hs.core]
    rfl
  have hstep := (hword.instruction _ (show 0 < 2 by decide) rfl hop).trans (hrun (s.fetched 0))
  rw [hfetched] at hstep
  obtain ⟨hram, hinst⟩ := (hword.moved (t := (s.fetched 0).setCpu 0 (f firstFetched)) (k := 1) rfl
    (fun _ _ _ => rfl) (by rw [setCpu_cpus_self, hip])).fetch (show 1 < 2 by decide)
  exact ⟨_, hreach.step (l := .instruction 0) ⟨enabled_of_reachable hreach, hstep⟩, hram,
    hinst.trans (Inst.decode_encode i₁), setCpu_cpus_self _ _ _⟩

/-- The program is a single `MOVI`. -/
theorem result_flags_movi : ∃ s t, Reachable (machine memSize 1) s ∧
    vmInstructionCase 0 s = .ok ((), t) ∧ ResultFlags (t.cpus 0).flags (t.regValue 0 1) := by
  obtain ⟨s, hs, -, hram, hinst, -⟩ := exists_program (Inst.encode ⟨Opcode.movi.code, 1, 0, 0, 7⟩)
  have hnext : s.nextInst 0 = ⟨Opcode.movi.code, 1, 0, 0, 7⟩ := hinst.trans (Inst.decode_encode _)
  obtain ⟨hreturns, hflags⟩ := result_flags_iff hram (by rw [hnext])
    (show Opcode.movi ∈ resultOps by decide) nofun
  rw [hnext] at hreturns hflags
  obtain ⟨t, hrun⟩ := hreturns (reachable_inv hs).cache (show IsReg 1 by decide) trivial
  exact ⟨s, t, hs, hrun, (hflags t hrun).mpr nofun⟩

/-- A comparison of zero with one borrows, and the load of a byte that follows leaves the carry
flag set. -/
theorem load_keeps_carry : ¬ ∀ (memorySize : ℕ) (smpCores : ℤ) (s t : Vm) (c : ℕ) (op : Opcode),
    Reachable (machine memorySize smpCores) s → (s.nextInst c).op = op.code → op ∈ resultOps →
    (op = .div ∨ op = .mod → s.regValue c (s.nextInst c).rs2 ≠ 0) →
    vmInstructionCase c s = .ok ((), t) →
    ResultFlags (t.cpus c).flags (t.regValue c (s.nextInst c).rd) := by
  intro h
  obtain ⟨s, hs, hram, hinst, hcpu⟩ := exists_second ⟨Opcode.cmpi.code, 0, 0, 0, 1⟩
    ⟨Opcode.load.code, 1, 0, 0, BitVec.ofNat 32 programBase⟩ rfl
    (fun cpu => { cpu with flags := subFlags cpu.flags (cpu.regs 0) 1 (cpu.regs 0 - 1) }) rfl
    fun _ => rfl
  have hcode : (s.nextInst 0).op = Opcode.load.code := by rw [hinst]
  have hzero : s.regValue 0 0 = 0 := by
    rw [Vm.regValue, hcpu]
    rfl
  have hreads : s.ReadsOk 0 (s.nextInst 0) .load := by
    rw [hinst, Vm.ReadsOk, hzero]
    refine .inr ?_
    rw [inRam, (reachable_inv hs).memorySize]
    decide
  have hfields : s.FieldsOk 0 (s.nextInst 0) .load := by
    rw [hinst]
    exact ⟨show IsReg 0 by decide, fun _ => show IsReg 1 by decide⟩
  have hnodiv : ¬ (Opcode.load = .div ∨ Opcode.load = .mod) := by decide
  obtain ⟨_, t, hrun⟩ := returns_execute (s := s.fetched 0)
    (reachable_inv hs).cache (show Opcode.load ∈ resultOps by decide)
    (fun hdiv => absurd hdiv hnodiv) ((fieldsOk_fetched _).mpr hfields)
    (readsOk_fetched.mpr hreads)
  have hcarry := (h _ _ s t 0 .load hs hcode (by decide) (fun hdiv => absurd hdiv hnodiv)
    ((vmInstructionCase_of_inRam hram hcode).trans hrun)).cf
  rw [execute_load_flags hrun, fetched_flags, hcpu, zfSfFlags,
    setFlag_and_of_disjoint (by decide), setFlag_and_of_disjoint (by decide)] at hcarry
  exact absurd hcarry (by decide)

/-! ## Shifts and rotations -/

inductive ShiftOp
  | shl | shli | shr | shri | sar | rol | roli | ror | rori
  deriving DecidableEq, Repr

def ShiftOp.opcode : ShiftOp → Opcode
  | .shl => .shl
  | .shli => .shli
  | .shr => .shr
  | .shri => .shri
  | .sar => .sar
  | .rol => .rol
  | .roli => .roli
  | .ror => .ror
  | .rori => .rori

/-- The operand that says how far, from a register or from the instruction. -/
def ShiftOp.operand (vm : Vm) (c : ℕ) (i : Inst) : ShiftOp → BitVec 32
  | .shl | .shr | .sar | .rol | .ror => vm.regValue c i.rs2
  | .shli | .shri | .roli | .rori => i.imm

/-- What should come of a value that is moved by `sh` places. -/
def ShiftOp.Meets (v result : BitVec 32) (sh : ℕ) : ShiftOp → Prop
  | .shl | .shli => result.toNat = v.toNat * 2 ^ sh % 2 ^ 32
  | .shr | .shri => result.toNat = v.toNat / 2 ^ sh
  | .sar => result.toInt = v.toInt / 2 ^ sh
  | .rol | .roli => result = v.rotateLeft sh ∧ result.rotateRight sh = v
  | .ror | .rori => result = v.rotateRight sh ∧ result.rotateLeft sh = v

/-- What the code computes. -/
def ShiftOp.apply (v n : BitVec 32) : ShiftOp → BitVec 32
  | .shl | .shli => v <<< (n &&& 31).toNat
  | .shr | .shri | .sar => v >>> (n &&& 31).toNat
  | .rol | .roli => rotl32 v (n &&& 31)
  | .ror | .rori => rotr32 v (n &&& 31)

section Words

variable (v n : BitVec 32)

theorem and_31_toNat : (n &&& 31).toNat = n.toNat % 32 := by
  rw [BitVec.toNat_and]
  exact Nat.and_two_pow_sub_one_eq_mod n.toNat 5

theorem and_31_and_31 : n &&& 31 &&& 31 = n &&& 31 := by
  rw [BitVec.and_assoc, BitVec.and_self]

/-- The number of places on the other side of a rotation. -/
theorem sub_and_31_toNat : (32 - (n &&& 31)).toNat = 32 - n.toNat % 32 := by
  have hle : n &&& 31 ≤ 32 := by
    rw [BitVec.le_def, and_31_toNat]
    exact (Nat.mod_lt _ (by decide)).le
  rw [BitVec.toNat_sub_of_le hle, and_31_toNat]
  rfl

theorem rotl32_eq : rotl32 v (n &&& 31) = v.rotateLeft (n.toNat % 32) := by
  rw [rotl32, and_31_and_31, BitVec.rotateLeft_def, Nat.mod_mod]
  by_cases h : n &&& 31 = 0
  · have hzero : n.toNat % 32 = 0 := by
      rw [← and_31_toNat, h]
      rfl
    rw [if_pos h, hzero, BitVec.shiftLeft_zero, BitVec.ushiftRight_eq_zero (le_refl 32)]
    exact BitVec.or_zero.symm
  · rw [if_neg h, and_31_toNat, sub_and_31_toNat]

theorem rotr32_eq : rotr32 v (n &&& 31) = v.rotateRight (n.toNat % 32) := by
  rw [rotr32, and_31_and_31, BitVec.rotateRight_def, Nat.mod_mod]
  by_cases h : n &&& 31 = 0
  · have hzero : n.toNat % 32 = 0 := by
      rw [← and_31_toNat, h]
      rfl
    rw [if_pos h, hzero, BitVec.ushiftRight_zero, BitVec.shiftLeft_eq_zero (le_refl 32)]
    exact BitVec.or_zero.symm
  · rw [if_neg h, and_31_toNat, sub_and_31_toNat]

theorem rotateRight_rotateLeft {sh : ℕ} (h : sh < 32) : (v.rotateLeft sh).rotateRight sh = v := by
  apply BitVec.eq_of_getLsbD_eq
  intro k hk
  rw [BitVec.rotateRight_eq_rotateRightAux_of_lt h, BitVec.rotateLeft_eq_rotateLeftAux_of_lt h]
  by_cases hlow : k < 32 - sh
  · have hin : sh + k < 32 := by omega
    rw [BitVec.getLsbD_rotateRightAux_of_lt hlow, BitVec.getLsbD_rotateLeftAux_of_ge (by omega),
      Nat.add_sub_cancel_left, decide_eq_true hin, Bool.true_and]
  · have hback : 32 - sh + (k - (32 - sh)) = k := by omega
    rw [BitVec.getLsbD_rotateRightAux_of_ge (by omega), decide_eq_true hk, Bool.true_and,
      BitVec.getLsbD_rotateLeftAux_of_lt (by omega), hback]

theorem rotateLeft_rotateRight {sh : ℕ} (h : sh < 32) : (v.rotateRight sh).rotateLeft sh = v := by
  apply BitVec.eq_of_getLsbD_eq
  intro k hk
  rw [BitVec.rotateRight_eq_rotateRightAux_of_lt h, BitVec.rotateLeft_eq_rotateLeftAux_of_lt h]
  by_cases hlow : k < sh
  · have hin : 32 - sh + k < 32 := by omega
    rw [BitVec.getLsbD_rotateLeftAux_of_lt hlow, BitVec.getLsbD_rotateRightAux_of_ge (by omega),
      Nat.add_sub_cancel_left, decide_eq_true hin, Bool.true_and]
  · have hback : sh + (k - sh) = k := by omega
    rw [BitVec.getLsbD_rotateLeftAux_of_ge (by omega), decide_eq_true hk, Bool.true_and,
      BitVec.getLsbD_rotateRightAux_of_lt (by omega), hback]

/-- A logical shift divides a signed value only if no sign bit moves. -/
theorem ushiftRight_toInt_iff (sh : ℕ) :
    (v >>> sh).toInt = v.toInt / 2 ^ sh ↔ 0 ≤ v.toInt ∨ sh = 0 := by
  by_cases hsh : sh = 0
  · subst hsh
    simp
  have hshift : (v >>> sh).toInt = ((v.toNat / 2 ^ sh : ℕ) : ℤ) := by
    rw [BitVec.toInt_ushiftRight_of_lt (Nat.pos_of_ne_zero hsh), Nat.shiftRight_eq_div_pow]
  have hpos : (0 : ℤ) < 2 ^ sh := Int.pow_pos (by decide)
  rw [hshift, or_iff_left hsh]
  constructor
  · intro h
    have hnonneg : 0 ≤ v.toInt / 2 ^ sh := h ▸ Int.natCast_nonneg _
    exact (Int.ediv_nonneg_iff_of_pos hpos).mp hnonneg
  · intro h
    have hnat : v.toInt = v.toNat := BitVec.toInt_eq_toNat_of_msb (by
      rw [← Bool.not_eq_true, ← toInt_neg_iff_msb]
      exact not_lt.mpr h)
    rw [hnat]
    push_cast
    rfl

theorem ShiftOp.meets_apply_iff (op : ShiftOp) :
    op.Meets v (op.apply v n) (n.toNat % 32) ↔ (op = .sar → 0 ≤ v.toInt ∨ n.toNat % 32 = 0) := by
  have hlt : n.toNat % 32 < 32 := Nat.mod_lt _ (by decide)
  cases op with
  | shl | shli =>
    refine iff_of_true ?_ nofun
    rw [ShiftOp.Meets, ShiftOp.apply, and_31_toNat, BitVec.toNat_shiftLeft, Nat.shiftLeft_eq]
  | shr | shri =>
    refine iff_of_true ?_ nofun
    rw [ShiftOp.Meets, ShiftOp.apply, and_31_toNat, BitVec.toNat_ushiftRight,
      Nat.shiftRight_eq_div_pow]
  | sar =>
    rw [ShiftOp.Meets, ShiftOp.apply, and_31_toNat, ushiftRight_toInt_iff]
    exact (imp_iff_right rfl).symm
  | rol | roli =>
    refine iff_of_true ⟨rotl32_eq v n, ?_⟩ nofun
    rw [ShiftOp.apply, rotl32_eq]
    exact rotateRight_rotateLeft v hlt
  | ror | rori =>
    refine iff_of_true ⟨rotr32_eq v n, ?_⟩ nofun
    rw [ShiftOp.apply, rotr32_eq]
    exact rotateLeft_rotateRight v hlt

end Words

section Shifts

variable {s : Vm} {c : ℕ} {i : Inst}

theorem ShiftOp.execute_run (op : ShiftOp) (hfields : s.FieldsOk c i op.opcode) :
    ∃ t, execute c i op.opcode s = .ok ((), t) ∧
      t.regValue c i.rd = op.apply (s.regValue c i.rs1) (op.operand s c i) := by
  have hset : ∀ v, IsReg i.rd → ∃ t, setLogic c i.rd v s = .ok ((), t) ∧ t.regValue c i.rd = v :=
    fun v hrd => ⟨_, setLogic_of_isReg hrd v, regValue_withResult hrd v⟩
  cases op with
  | shl | shr | sar | rol | ror =>
    obtain ⟨hrs1, hrs2, hrd⟩ := hfields
    obtain ⟨t, ht, hreg⟩ := hset _ hrd
    refine ⟨t, ?_, hreg⟩
    rw [ShiftOp.opcode, execute, execLogic2, bind_ok (readReg_regValue hrs1),
      bind_ok (readReg_regValue hrs2)]
    exact ht
  | shli | shri | roli | rori =>
    obtain ⟨hrs1, hrd⟩ := hfields
    obtain ⟨t, ht, hreg⟩ := hset _ hrd
    refine ⟨t, ?_, hreg⟩
    rw [ShiftOp.opcode, execute, execLogicImm, bind_ok (readReg_regValue hrs1)]
    exact ht

/-- Each shift and rotation returns, and its register then holds what it should unless a `SAR`
moves the sign bit of a negative value. -/
theorem shift_meets_iff (op : ShiftOp) (hram : inRam s (s.cpus c).fetchIp 8)
    (hcode : (s.nextInst c).op = op.opcode.code)
    (hfields : s.FieldsOk c (s.nextInst c) op.opcode) :
    ∃ t, vmInstructionCase c s = .ok ((), t) ∧
      (op.Meets (s.regValue c (s.nextInst c).rs1) (t.regValue c (s.nextInst c).rd)
          ((op.operand s c (s.nextInst c)).toNat % 32) ↔
        (op = .sar → 0 ≤ (s.regValue c (s.nextInst c).rs1).toInt ∨
          (op.operand s c (s.nextInst c)).toNat % 32 = 0)) := by
  obtain ⟨t, hrun, hreg⟩ := op.execute_run ((fieldsOk_fetched op.opcode).mpr hfields)
  have hoperand : op.operand (s.fetched c) c (s.nextInst c) = op.operand s c (s.nextInst c) := by
    cases op <;> simp only [ShiftOp.operand, fetched_regValue]
  refine ⟨t, (vmInstructionCase_of_inRam hram hcode).trans hrun, ?_⟩
  rw [hreg, fetched_regValue, hoperand]
  exact op.meets_apply_iff _ _

end Shifts

/-- The program is a single `SHLI` by 33 places. -/
theorem shift_meets_shli : ∃ s t, Reachable (machine memSize 1) s ∧
    vmInstructionCase 0 s = .ok ((), t) ∧ ShiftOp.Meets (s.regValue 0 2) (t.regValue 0 1) 1 .shli := by
  obtain ⟨s, hs, -, hram, hinst, -⟩ := exists_program (Inst.encode ⟨Opcode.shli.code, 1, 2, 0, 33⟩)
  have hnext : s.nextInst 0 = ⟨Opcode.shli.code, 1, 2, 0, 33⟩ := hinst.trans (Inst.decode_encode _)
  obtain ⟨t, hrun, hiff⟩ := shift_meets_iff .shli hram (by rw [hnext]; rfl)
    (by rw [hnext]; exact ⟨show IsReg 2 by decide, show IsReg 1 by decide⟩)
  have hplaces : (ShiftOp.operand s 0 (s.nextInst 0) .shli).toNat % 32 = 1 := by
    rw [hnext, ShiftOp.operand]
    decide
  rw [hplaces, hnext] at hiff
  exact ⟨s, t, hs, hrun, hiff.mpr nofun⟩

/-- Minus one, shifted by 31 places. -/
theorem sar_loses_sign : ¬ ∀ (memorySize : ℕ) (smpCores : ℤ) (s t : Vm) (c : ℕ) (op : ShiftOp),
    Reachable (machine memorySize smpCores) s → (s.nextInst c).op = op.opcode.code →
    vmInstructionCase c s = .ok ((), t) →
    op.Meets (s.regValue c (s.nextInst c).rs1) (t.regValue c (s.nextInst c).rd)
      ((op.operand s c (s.nextInst c)).toNat % 32) := by
  intro h
  obtain ⟨s, hs, hram, hinst, hcpu⟩ := exists_second ⟨Opcode.movi.code, 1, 0, 0, -1⟩
    ⟨Opcode.sar.code, 2, 1, 1, 0⟩ rfl
    (fun cpu => cpu.withResult (show IsReg 1 by decide) (-1)) rfl
    fun _ => setLogic_of_isReg (show IsReg 1 by decide) (-1)
  have hcode : (s.nextInst 0).op = ShiftOp.sar.opcode.code := by
    rw [hinst]
    rfl
  have hone : s.regValue 0 1 = -1 := by
    rw [Vm.regValue, hcpu]
    rfl
  have hfields : s.FieldsOk 0 (s.nextInst 0) ShiftOp.sar.opcode := by
    rw [hinst]
    exact ⟨show IsReg 1 by decide, show IsReg 1 by decide, show IsReg 2 by decide⟩
  obtain ⟨t, hrun, hreg⟩ := ShiftOp.execute_run (s := s.fetched 0) .sar
    ((fieldsOk_fetched _).mpr hfields)
  have hclaim := h _ _ s t 0 .sar hs hcode ((vmInstructionCase_of_inRam hram hcode).trans hrun)
  rw [hreg] at hclaim
  simp only [ShiftOp.Meets, ShiftOp.operand, fetched_regValue, hinst, hone] at hclaim
  exact absurd hclaim (by decide)

end LampVm
