import LampVm.Alu
import LampVm.Io

/-!
# The instruction interpreter

`vm_instruction_case`: one fetch and one case per opcode. Instructions of one
family share a helper that is applied to the member's own operator; a case whose
source text differs from its siblings keeps its own body.
-/
namespace LampVm

variable (c : ℕ) (i : Inst)

/-! ## Arithmetic families -/

/-- `regs[rd] = v; update_logic_flags(regs[rd])`. -/
def setLogic (rd : BitVec 8) (v : BitVec 32) : VmM Unit := do
  writeReg c rd v
  updateLogicFlags c (← readReg c rd)

def execAdd (rd : BitVec 8) (a b : BitVec 32) : VmM Unit := do
  let res := a + b
  writeReg c rd res
  updateAddFlags c a b res

def execSub (rd : BitVec 8) (a b : BitVec 32) : VmM Unit := do
  let res := a - b
  writeReg c rd res
  updateSubFlags c a b res

def execCompare (val1 val2 : BitVec 32) : VmM Unit := do
  let res := val1 - val2
  updateSubFlags c val1 val2 res

def execLogic2 (f : BitVec 32 → BitVec 32 → BitVec 32) : VmM Unit := do
  let a ← readReg c i.rs1
  let b ← readReg c i.rs2
  setLogic c i.rd (f a b)

def execLogicImm (f : BitVec 32 → BitVec 32 → BitVec 32) : VmM Unit := do
  let a ← readReg c i.rs1
  setLogic c i.rd (f a i.imm)

/-- `DIV` and `MOD`: a zero divisor raises an interrupt on core 0. -/
def execDivide (f : BitVec 32 → BitVec 32 → BitVec 32) : VmM Unit := do
  let b ← readReg c i.rs2
  if b ≠ 0 then
    let a ← readReg c i.rs1
    setLogic c i.rd (f a b)
  else triggerInterrupt intDivideByZero

/-! ## Control flow -/

def jumpIf (taken : Prop) [Decidable taken] (target : BitVec 32) : VmM Unit :=
  if taken then setIp c target.toNat else pure ()

def flagsCase (cond : BitVec 32 → Bool) : VmM Unit := do
  let cpu ← getCpu c
  jumpIf c (cond cpu.flags = true) i.imm

def flagsCaseRel (cond : BitVec 32 → Bool) : VmM Unit := do
  let cpu ← getCpu c
  jumpIf c (cond cpu.flags = true) (relTargetFromLastIp cpu i.imm)

/-- The tests on the raw flag bits, as the source combines them. -/
def condZ (flags : BitVec 32) : Bool := flags &&& flagZf ≠ 0
def condNz (flags : BitVec 32) : Bool := !condZ flags
def condG (flags : BitVec 32) : Bool :=
  !condZ flags && decide (flags &&& flagSf = flags &&& flagOf)
def condGe (flags : BitVec 32) : Bool := flags &&& flagSf = flags &&& flagOf
def condL (flags : BitVec 32) : Bool := flags &&& flagSf ≠ flags &&& flagOf
def condLe (flags : BitVec 32) : Bool :=
  condZ flags || decide (flags &&& flagSf ≠ flags &&& flagOf)
def condC (flags : BitVec 32) : Bool := flags &&& flagCf ≠ 0
def condNc (flags : BitVec 32) : Bool := !condC flags

def callTo (target : Vcpu → BitVec 32) : VmM Unit := do
  let cpu ← getCpu c
  callPush c ((BitVec.ofNat 32 cpu.ip).setWidth 64)
  let cpu ← getCpu c
  setIp c (target cpu).toNat

/-! ## Memory -/

def baseImm : VmM (BitVec 32) := do
  let base ← readReg c i.rs1
  pure (base + i.imm)

def baseIndexImm : VmM (BitVec 32) := do
  let base ← readReg c i.rs1
  let index ← readReg c i.rs2
  pure (base + index + i.imm)

def memsetLoop (base : BitVec 32) (value : BitVec 8) : ℕ → BitVec 32 → VmM Unit
  | 0, _ => pure ()
  | n + 1, k => do
    vmWrite8 (base + k) value
    memsetLoop base value n (k + 1)

def memcpyLoop (dest src : BitVec 32) : ℕ → BitVec 32 → VmM Unit
  | 0, _ => pure ()
  | n + 1, k => do
    let v ← vmRead8 (src + k)
    vmWrite8 (dest + k) v
    memcpyLoop dest src n (k + 1)

/-- `ensure_atomic_aligned_or_panic`. -/
def ensureAtomicAligned (op : AccessName) (addr : BitVec 32) : VmM Unit :=
  if addr &&& 3 ≠ 0 then vmPanic (.unalignedAddress op addr) else pure ()

def atomicAddr (op : AccessName) : VmM (BitVec 32) := do
  let addr ← baseImm c i
  ensureAtomicAligned op addr
  pure addr

/-! ## Ports -/

def readIo (port : ℕ) : VmM (BitVec 32) := do
  checkIndex .io ioSize port
  let vm ← get
  pure (vm.io port)

/-- The four parts of `IN` from `KEYBOARD`, all under the shared lock: pop the FIFO
into a register, refresh the mirrored ports, acknowledge the serial and keyboard
vectors of core 0, and raise the serial vector again if bytes remain. -/
def serialPop (rd : BitVec 8) : VmM Unit := do
  let vm ← get
  if vm.serialRxTail ≠ vm.serialRxHead then
    let v ← readFifo vm.serialRxTail.toNat
    modify fun vm => { vm with serialRxTail := serialNext vm.serialRxTail }
    writeReg c rd (v.setWidth 32)
  else writeReg c rd 0

def serialMirror : VmM Unit := do
  let vm ← get
  if vm.serialRxTail ≠ vm.serialRxHead then
    let front ← readFifo vm.serialRxTail.toNat
    setIo portKeyboard (front.setWidth 32)
    setIo portScreenAttribute (vm.io portScreenAttribute ||| serialStatusRxReady)
  else
    setIo portKeyboard 0
    setIo portScreenAttribute (vm.io portScreenAttribute &&& ~~~serialStatusRxReady)

/-- The word of the bitmap that the acknowledge clears in, and its mask. -/
abbrev serialAckWord : ℕ := intSerial.toNat / 64
abbrev serialAckMask : BitVec 64 := ~~~(irqBitMask intSerial ||| irqBitMask intKeyboard)

def serialAck : VmM Unit := do
  let vm ← get
  checkIndex .interruptBitmap (vm.smpCores * irqBitmapWords) serialAckWord
  let word := vm.interruptBitmap serialAckWord &&& serialAckMask
  set { vm with interruptBitmap := Function.update vm.interruptBitmap serialAckWord word }

def serialRaise : VmM Unit := do
  let vm ← get
  if vm.serialRxTail ≠ vm.serialRxHead ∧ rxIntEnabled (vm.io portScreenAttribute) then
    triggerInterrupt intSerial
  else pure ()

def inKeyboard : VmM Unit := do
  serialPop c i.rd
  serialMirror
  serialAck
  serialRaise

def execIn : VmM Unit := do
  let a ← readReg c i.rs1
  let addr := a.toInt
  if addr ≥ 0 ∧ addr < ioSize then
    let cpu ← getCpu c
    if addr = portCpuCtxCsp then writeReg c i.rd (BitVec.ofInt 32 cpu.csp)
    else if addr = portCpuCtxDsp then writeReg c i.rd (BitVec.ofInt 32 cpu.dsp)
    else if addr = portCpuCtxIrqMask then
      writeReg c i.rd (if cpu.irqMasked ≠ 0 then 1 else 0)
    else if addr = portKeyboard then inKeyboard c i
    else if addr = portScreenAttribute then
      writeReg c i.rd ((← readIo portScreenAttribute) &&& 0xFF)
    else writeReg c i.rd (← readIo addr.toNat)
  else vmPanic (.inInvalidPort a)

def execOut : VmM Unit := do
  let a ← readReg c i.rs1
  let addr := a.toInt
  if addr ≥ 0 ∧ addr < ioSize then
    let v ← readReg c i.rd
    if addr = portCpuCtxCsp then
      if v.toInt ≥ 0 ∧ v.toInt ≤ callStackSize then
        modifyCpu c fun cpu => { cpu with csp := v.toInt }
      else pure ()
    else if addr = portCpuCtxDsp then
      if v.toInt ≥ 0 ∧ v.toInt ≤ dataStackSize then
        modifyCpu c fun cpu => { cpu with dsp := v.toInt }
      else pure ()
    else if addr = portCpuCtxIrqMask then
      modifyCpu c fun cpu => { cpu with irqMasked := if v ≠ 0 then 1 else 0 }
    else acceptIo addr v
  else vmPanic (.outInvalidPort a)

/-! ## Floats -/

def execFloat2 (f : Float32 → Float32 → Float32) : VmM Unit := do
  let a := regAsF32 (← readReg c i.rs1)
  let b := regAsF32 (← readReg c i.rs2)
  let r := f a b
  writeReg c i.rd (f32AsReg r)
  updateLogicFlags c (f32Sign r)

def execFtoi : VmM Unit := do
  let bits ← readReg c i.rs1
  let f := regAsF32 bits
  if f.isNaN || decide (f > f32IntMax) || decide (f < f32IntMin) then
    writeReg c i.rd 0
    modifyFlags c fun flags => flags ||| flagOf
    modifyFlags c fun flags => flags &&& ~~~(flagZf ||| flagSf ||| flagCf)
  else
    match f32ToI32 f with
    | some v =>
      writeReg c i.rd v
      updateLogicFlags c v
    | none => throw (.floatToInt bits)

/-! ## Cores -/

def execStartap : VmM Unit := do
  let cpu ← getCpu c
  if ¬ cpu.isBsp then pure ()
  else
    let target := (← readReg c i.rd).toInt
    let entry := (← readReg c i.rs1) + i.imm
    let vm ← get
    if target ≤ 0 ∨ target ≥ vm.smpCores then pure ()
    else
      checkIndex .cpus vm.smpCores target.toNat
      modifyCpu target.toNat fun cpu => { cpu with ip := entry.toNat, lastIp := entry.toNat }
      checkIndex .coreReleased vm.smpCores target.toNat
      modify fun vm =>
        { vm with coreReleased := Function.update vm.coreReleased target.toNat true }

/-! ## The dispatch -/

def execute : Opcode → VmM Unit
  | .add => do execAdd c i.rd (← readReg c i.rs1) (← readReg c i.rs2)
  | .sub => do execSub c i.rd (← readReg c i.rs1) (← readReg c i.rs2)
  | .mul => execLogic2 c i (· * ·)
  | .halt => modify fun vm => { vm with halted := true }
  | .jmp => setIp c i.imm.toNat
  | .rjmp => do
    let cpu ← getCpu c
    setIp c (relTargetFromLastIp cpu i.imm).toNat
  | .push => do dataPush c (← readReg c i.rd)
  | .pop => do
    let v ← dataPop c
    setLogic c i.rd v
  | .call => callTo c fun _ => i.imm
  | .rcall => callTo c fun cpu => relTargetFromLastIp cpu i.imm
  | .callr => do
    let cpu ← getCpu c
    callPush c ((BitVec.ofNat 32 cpu.ip).setWidth 64)
    setIp c (← readReg c i.rd).toNat
  | .ret => do
    let ip ← callPop c
    setIp c (ip.setWidth 32).toNat
  | .load => do
    let addr ← baseImm c i
    let v ← vmRead8 addr
    writeReg c i.rd (v.setWidth 32)
    updateZfSf c (← readReg c i.rd)
  | .load32 => do
    let addr ← baseImm c i
    let v ← vmRead32 addr
    setLogic c i.rd v
  | .loadx32 => do
    let addr ← baseIndexImm c i
    let v ← vmRead32 addr
    setLogic c i.rd v
  | .store => do
    let addr ← baseImm c i
    vmWrite8 addr ((← readReg c i.rd).setWidth 8)
  | .store32 | .fstore32 => do
    let addr ← baseImm c i
    vmWrite32 addr (← readReg c i.rd)
  | .storex32 => do
    let addr ← baseIndexImm c i
    vmWrite32 addr (← readReg c i.rd)
  | .cmp => do execCompare c (← readReg c i.rd) (← readReg c i.rs1)
  | .cmpi => do execCompare c (← readReg c i.rd) i.imm
  | .mov => do setLogic c i.rd (← readReg c i.rs1)
  | .movi => setLogic c i.rd i.imm
  | .memset => do
    let base ← readReg c i.rd
    let value ← readReg c i.rs1
    memsetLoop base (value.setWidth 8) i.imm.toNat 0
  | .memcpy => do
    let dest ← readReg c i.rd
    let src ← readReg c i.rs1
    memcpyLoop dest src i.imm.toNat 0
  | .in => execIn c i
  | .out => execOut c i
  | .int => do vmEnterInterrupt c (← readReg c i.rd)
  | .iret => vmIret c
  | .and => execLogic2 c i (· &&& ·)
  | .or => execLogic2 c i (· ||| ·)
  | .xor => execLogic2 c i (· ^^^ ·)
  | .not => do setLogic c i.rd (~~~(← readReg c i.rs1))
  | .shl => execLogic2 c i fun a b => a <<< (b &&& 31).toNat
  | .shr => execLogic2 c i fun a b => a >>> (b &&& 31).toNat
  -- The source shifts the unsigned register itself, hence a logical shift.
  | .sar => execLogic2 c i fun a b => a >>> (b &&& 31).toNat
  | .rol => execLogic2 c i fun a b => rotl32 a (b &&& 31)
  | .ror => execLogic2 c i fun a b => rotr32 a (b &&& 31)
  | .div => execDivide c i (· / ·)
  | .mod => execDivide c i (· % ·)
  | .inc => do execAdd c i.rd (← readReg c i.rd) 1
  | .jz => flagsCase c i condZ
  | .rjz => flagsCaseRel c i condZ
  | .jnz => flagsCase c i condNz
  | .rjnz => flagsCaseRel c i condNz
  | .jg => flagsCase c i condG
  | .jge => flagsCase c i condGe
  | .jl => flagsCase c i condL
  | .jle => flagsCase c i condLe
  | .jc => flagsCase c i condC
  | .jnc => flagsCase c i condNc
  | .fadd => execFloat2 c i (· + ·)
  | .fsub => execFloat2 c i (· - ·)
  | .fmul => execFloat2 c i (· * ·)
  | .fdiv => execFloat2 c i (· / ·)
  | .fneg => do
    let r := f32NegBits (← readReg c i.rs1)
    writeReg c i.rd r
    updateLogicFlags c (f32Sign (regAsF32 r))
  | .fabs => do
    let r := f32AbsBits (← readReg c i.rs1)
    writeReg c i.rd r
    updateLogicFlags c (if regAsF32 r == f32Zero then 0 else 1)
  | .fsqrt => do
    let r := (regAsF32 (← readReg c i.rs1)).sqrt
    writeReg c i.rd (f32AsReg r)
    updateLogicFlags c (f32Sign r)
  | .itof => do
    let f := f32OfI32 (← readReg c i.rs1)
    writeReg c i.rd (f32AsReg f)
    updateLogicFlags c (f32Sign f)
  | .ftoi => execFtoi c i
  | .fload32 => do
    let addr ← baseImm c i
    let bits ← vmRead32 addr
    writeReg c i.rd bits
    updateLogicFlags c (f32Sign (regAsF32 (← readReg c i.rd)))
  | .fcmp => do
    let a := regAsF32 (← readReg c i.rd)
    let b := regAsF32 (← readReg c i.rs1)
    modifyFlags c fun flags => fcmpFlags flags a b
  | .addi => do execAdd c i.rd (← readReg c i.rs1) i.imm
  | .subi => do execSub c i.rd (← readReg c i.rs1) i.imm
  | .andi => execLogicImm c i (· &&& ·)
  | .ori => execLogicImm c i (· ||| ·)
  | .xori => execLogicImm c i (· ^^^ ·)
  | .shli => execLogicImm c i fun a b => a <<< (b &&& 31).toNat
  | .shri => execLogicImm c i fun a b => a >>> (b &&& 31).toNat
  | .roli => execLogicImm c i fun a b => rotl32 a (b &&& 31)
  | .rori => execLogicImm c i fun a b => rotr32 a (b &&& 31)
  | .cas => do
    let addr ← atomicAddr c i .cas
    let expected ← readReg c i.rd
    let desired ← readReg c i.rs2
    let (old, success) ← vmAtomicCompareExchange32Seqcst addr expected desired
    modifyFlags c fun flags => casFlags flags success
    writeReg c i.rd old
  | .xadd => do
    let addr ← atomicAddr c i .xadd
    let addend ← readReg c i.rs2
    let old ← vmAtomicFetchAdd32Seqcst addr addend
    writeReg c i.rd old
    updateAddFlags c old addend (old + addend)
  | .xchg => do
    let addr ← atomicAddr c i .xchg
    let newv ← readReg c i.rs2
    let old ← vmAtomicExchange32Seqcst addr newv
    setLogic c i.rd old
  | .ldar => do
    let addr ← atomicAddr c i .ldar
    let v ← vmAtomicLoad32Acquire addr
    setLogic c i.rd v
  | .stlr => do
    let addr ← atomicAddr c i .stlr
    vmAtomicStore32Release addr (← readReg c i.rd)
  | .fence => pure ()
  | .pause => pure ()
  | .startap => execStartap c i
  | .ipi => do
    let target := (← readReg c i.rd).toInt
    triggerInterruptTarget target (← readReg c i.rs1)
  | .cpuid => do
    let cpu ← getCpu c
    setLogic c i.rd (BitVec.ofNat 32 cpu.coreId)

def vmInstructionCase : VmM Unit := do
  let i := Inst.decode (← fetch64 c)
  match Opcode.ofByte i.op with
  | some op => execute c i op
  | none => vmPanic (.unknownOpcode i.op)

/-- The instruction that core `c` executes next. -/
def Vm.nextInst (vm : Vm) (c : ℕ) : Inst := Inst.decode (vm.wordAt (vm.cpus c).fetchIp)

variable {c}

theorem nextInst_of_word {vm : Vm} {w : BitVec 64}
    (h : ByteOrder.leNat vm.memory (vm.cpus c).fetchIp.toNat 8 = w.toNat) :
    vm.nextInst c = Inst.decode w := by
  rw [Vm.nextInst, Vm.wordAt, h, BitVec.ofNat_toNat, BitVec.setWidth_eq]

theorem vmInstructionCase_fetched {vm : Vm} (h : inRam vm (vm.cpus c).fetchIp 8) :
    vmInstructionCase c vm = (match Opcode.ofByte (vm.nextInst c).op with
      | some op => execute c (vm.nextInst c) op
      | none => vmPanic (.unknownOpcode (vm.nextInst c).op)) (vm.fetched c) := by
  simp only [vmInstructionCase, Contract.bind_ok (fetch64_of_inRam h)]
  rfl

theorem vmInstructionCase_of_inRam {vm : Vm} {op : Opcode}
    (h : inRam vm (vm.cpus c).fetchIp 8) (hop : (vm.nextInst c).op = op.code) :
    vmInstructionCase c vm = execute c (vm.nextInst c) op (vm.fetched c) := by
  have hd : Opcode.ofByte (vm.nextInst c).op = some op := by rw [hop, Opcode.ofByte_code]
  rw [vmInstructionCase_fetched h, hd]

theorem vmInstructionCase_of_unknown {vm : Vm} (h : inRam vm (vm.cpus c).fetchIp 8)
    (hop : Opcode.ofByte (vm.nextInst c).op = none) :
    vmInstructionCase c vm = .error (.panic (.unknownOpcode (vm.nextInst c).op)) := by
  rw [vmInstructionCase_fetched h, hop]
  rfl

/-! ## Results -/

/-- The core after a register and the flags were set to a result. -/
def Vcpu.withResult (cpu : Vcpu) {r : BitVec 8} (hr : IsReg r) (v : BitVec 32) : Vcpu :=
  { cpu with
    regs := Function.update cpu.regs ⟨r.toNat, hr⟩ v
    flags := logicFlags cpu.flags v }

theorem setLogic_of_isReg {vm : Vm} {r : BitVec 8} (hr : IsReg r) (v : BitVec 32) :
    setLogic c r v vm = .ok ((), vm.setCpu c ((vm.cpus c).withResult hr v)) := by
  have hread : ∀ t : Vm, readReg c r t = .ok ((t.cpus c).regs ⟨r.toNat, hr⟩, t) :=
    fun t => readReg_of_lt hr
  simp only [setLogic, Contract.bind_apply, writeReg, dif_pos hr, modifyCpu_apply, hread,
    updateLogicFlags, modifyFlags, setCpu_cpus_self, Function.update_self, setCpu_setCpu]
  rfl

end LampVm
