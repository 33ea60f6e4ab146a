import LampVm.Frame
import LampVm.Instruction

/-!
# The rule of the instruction set

An instruction is made of a few kinds of operations: reads and writes of the core's own
registers, memory accesses, stack moves, port accesses, and the operations by which a core
acts on other cores. Whatever all operations of an instruction keep, the instruction keeps.
-/
namespace LampVm

open Contract

variable {I : Vm → Prop} {E : Fault → Prop} {c : ℕ} {i : Inst} {op : Opcode}

theorem MemoryRules.memsetLoop (h : MemoryRules I E) (base : BitVec 32) (value : BitVec 8) (n : ℕ)
    (k : BitVec 32) : Safe I E (memsetLoop base value n k) := by
  induction n generalizing k with
  | zero => exact safe_pure _
  | succ n ih => exact safe_bind (h.vmWrite8 _ _) fun _ => ih _

theorem MemoryRules.memcpyLoop (h : MemoryRules I E) (dest src : BitVec 32) (n : ℕ)
    (k : BitVec 32) : Safe I E (memcpyLoop dest src n k) := by
  induction n generalizing k with
  | zero => exact safe_pure _
  | succ n ih =>
    exact safe_bind (h.vmRead8 _) fun _ => safe_bind (h.vmWrite8 _ _) fun _ => ih _

/-- The ways in which an instruction itself stops. -/
def StepFault : Fault → Prop
  | .panic (.unalignedAddress _ _) | .panic (.inInvalidPort _) | .panic (.outInvalidPort _)
  | .floatToInt _ => True
  | _ => False

/-- The instructions that store to memory on their own account. -/
def Opcode.stores : Opcode → Bool
  | .store | .store32 | .fstore32 | .storex32 | .memset | .memcpy | .cas | .xadd | .xchg
  | .stlr => true
  | _ => false

/-- The operations of an instruction with opcode `op`. An operation that only some opcodes
perform is asked for under those opcodes. -/
structure OpRules (I : Vm → Prop) (E : Fault → Prop) (c : ℕ) (i : Inst) (op : Opcode) : Prop where
  vmRead8 : ∀ addr, Safe I E (vmRead8 addr)
  vmRead32 : ∀ addr, Safe I E (vmRead32 addr)
  load : ∀ addr, Safe I E (vmAtomicLoad32Acquire addr)
  writes : op.stores = true → MemoryRules I E
  fault : ∀ e, StepFault e → E e
  readReg : ∀ r, r = i.rd ∨ r = i.rs1 ∨ r = i.rs2 → Safe I E (readReg c r)
  writeReg : ∀ v, Safe I E (writeReg c i.rd v)
  modifyFlags : ∀ f, Safe I E (modifyFlags c f)
  setIp : ∀ ip : BitVec 32, Safe I E (setIp c ip.toNat)
  dataPush : op = .push → ∀ v, Safe I E (dataPush c v)
  dataPop : op = .pop → Safe I E (dataPop c)
  callPush : op = .call ∨ op = .rcall ∨ op = .callr → ∀ v, Safe I E (callPush c v)
  callPop : op = .ret → Safe I E (callPop c)
  readIo : ∀ port, port < ioSize → Safe I E (readIo port)
  out : op = .out → Safe I E (execOut c i)
  halt : Safe I E (modify fun vm => { vm with halted := true })
  keyboard : op = .in → Safe I E (inKeyboard c i)
  divideByZero : op = .div ∨ op = .mod → Safe I E (triggerInterrupt intDivideByZero)
  enter : op = .int → ∀ n, Safe I E (vmEnterInterrupt c n)
  iret : op = .iret → Safe I E (vmIret c)
  startap : op = .startap → Safe I E (execStartap c i)
  ipi : op = .ipi → ∀ target n, Safe I E (triggerInterruptTarget target n)

/-- The operations of an instruction, whether or not its opcode performs them all. -/
structure StepRules (I : Vm → Prop) (E : Fault → Prop) (c : ℕ) (i : Inst) (op : Opcode) : Prop where
  memory : MemoryRules I E
  fault : ∀ e, StepFault e → E e
  readReg : ∀ r, r = i.rd ∨ r = i.rs1 ∨ r = i.rs2 → Safe I E (readReg c r)
  writeReg : ∀ v, Safe I E (writeReg c i.rd v)
  modifyFlags : ∀ f, Safe I E (modifyFlags c f)
  setIp : ∀ ip : BitVec 32, Safe I E (setIp c ip.toNat)
  dataPush : ∀ v, Safe I E (dataPush c v)
  dataPop : Safe I E (dataPop c)
  callPush : ∀ v, Safe I E (callPush c v)
  callPop : Safe I E (callPop c)
  setCsp : ∀ v : ℤ, v ≥ 0 ∧ v ≤ callStackSize →
    Safe I E (modifyCpu c fun cpu => { cpu with csp := v })
  setDsp : ∀ v : ℤ, v ≥ 0 ∧ v ≤ dataStackSize →
    Safe I E (modifyCpu c fun cpu => { cpu with dsp := v })
  setIrqMasked : ∀ v : ℤ, Safe I E (modifyCpu c fun cpu => { cpu with irqMasked := v })
  readIo : ∀ port, port < ioSize → Safe I E (readIo port)
  acceptIo : ∀ addr value, Safe I E (acceptIo addr value)
  halt : Safe I E (modify fun vm => { vm with halted := true })
  keyboard : op = .in → Safe I E (inKeyboard c i)
  divideByZero : op = .div ∨ op = .mod → Safe I E (triggerInterrupt intDivideByZero)
  enter : op = .int → ∀ n, Safe I E (vmEnterInterrupt c n)
  iret : op = .iret → Safe I E (vmIret c)
  startap : op = .startap → Safe I E (execStartap c i)
  ipi : op = .ipi → ∀ target n, Safe I E (triggerInterruptTarget target n)

/-- `IN` once the port is known. -/
def inPort (c : ℕ) (i : Inst) (a : BitVec 32) : VmM Unit :=
  let addr := a.toInt
  if addr ≥ 0 ∧ addr < ioSize then do
    let cpu ← getCpu c
    if addr = portCpuCtxCsp then writeReg c i.rd (BitVec.ofInt 32 cpu.csp)
    else if addr = portCpuCtxDsp then writeReg c i.rd (BitVec.ofInt 32 cpu.dsp)
    else if addr = portCpuCtxIrqMask then
      writeReg c i.rd (if cpu.irqMasked ≠ 0 then 1 else 0)
    else if addr = portKeyboard then inKeyboard c i
    else if addr = portScreenAttribute then
      writeReg c i.rd ((← readIo portScreenAttribute) &&& 0xFF)
    else writeReg c i.rd (← readIo addr.toNat)
  else vmPanic (.inInvalidPort a)

theorem execIn_eq (c : ℕ) (i : Inst) : execIn c i = readReg c i.rs1 >>= inPort c i := rfl

/-- `DIV` and `MOD` once the divisor is known. -/
def divideBy (c : ℕ) (i : Inst) (f : BitVec 32 → BitVec 32 → BitVec 32) (b : BitVec 32) : VmM Unit :=
  if b ≠ 0 then do
    let a ← readReg c i.rs1
    setLogic c i.rd (f a b)
  else triggerInterrupt intDivideByZero

theorem execDivide_eq (c : ℕ) (i : Inst) (f : BitVec 32 → BitVec 32 → BitVec 32) :
    execDivide c i f = readReg c i.rs2 >>= divideBy c i f := rfl

section Rules

variable (h : OpRules I E c i op)
include h

theorem OpRules.rd : Safe I E (LampVm.readReg c i.rd) := h.readReg _ (.inl rfl)

theorem OpRules.rs1 : Safe I E (LampVm.readReg c i.rs1) := h.readReg _ (.inr (.inl rfl))

theorem OpRules.rs2 : Safe I E (LampVm.readReg c i.rs2) := h.readReg _ (.inr (.inr rfl))

theorem OpRules.setLogic (v : BitVec 32) : Safe I E (setLogic c i.rd v) :=
  safe_bind (h.writeReg v) fun _ => safe_bind h.rd fun _ => h.modifyFlags _

theorem OpRules.execAdd (a b : BitVec 32) : Safe I E (execAdd c i.rd a b) :=
  safe_bind (h.writeReg _) fun _ => h.modifyFlags _

theorem OpRules.execSub (a b : BitVec 32) : Safe I E (execSub c i.rd a b) :=
  safe_bind (h.writeReg _) fun _ => h.modifyFlags _

theorem OpRules.execCompare (a b : BitVec 32) : Safe I E (execCompare c a b) :=
  h.modifyFlags fun flags => subFlags flags a b (a - b)

theorem OpRules.execLogic2 (f : BitVec 32 → BitVec 32 → BitVec 32) :
    Safe I E (execLogic2 c i f) :=
  safe_bind h.rs1 fun _ => safe_bind h.rs2 fun _ => h.setLogic _

theorem OpRules.execLogicImm (f : BitVec 32 → BitVec 32 → BitVec 32) :
    Safe I E (execLogicImm c i f) :=
  safe_bind h.rs1 fun _ => h.setLogic _

theorem OpRules.divideBy (f : BitVec 32 → BitVec 32 → BitVec 32) {b : BitVec 32}
    (hzero : b = 0 → Safe I E (triggerInterrupt intDivideByZero)) : Safe I E (divideBy c i f b) :=
  safe_ite (fun _ => safe_bind h.rs1 fun _ => h.setLogic _) fun hb => hzero (not_not.mp hb)

theorem OpRules.jumpIf (taken : Prop) [Decidable taken] (target : BitVec 32) :
    Safe I E (jumpIf c taken target) :=
  safe_ite (fun _ => h.setIp target) fun _ => safe_pure _

theorem OpRules.flagsCase (cond : BitVec 32 → Bool) : Safe I E (flagsCase c i cond) :=
  safe_bind (safe_getCpu c) fun _ => h.jumpIf _ _

theorem OpRules.flagsCaseRel (cond : BitVec 32 → Bool) : Safe I E (flagsCaseRel c i cond) :=
  safe_bind (safe_getCpu c) fun _ => h.jumpIf _ _

theorem OpRules.callTo (hop : op = .call ∨ op = .rcall ∨ op = .callr) (target : Vcpu → BitVec 32) :
    Safe I E (callTo c target) :=
  safe_bind (safe_getCpu c) fun _ => safe_bind (h.callPush hop _) fun _ =>
    safe_bind (safe_getCpu c) fun _ => h.setIp _

theorem OpRules.baseImm : Safe I E (baseImm c i) :=
  safe_bind h.rs1 fun _ => safe_pure _

theorem OpRules.baseIndexImm : Safe I E (baseIndexImm c i) :=
  safe_bind h.rs1 fun _ => safe_bind h.rs2 fun _ => safe_pure _

theorem OpRules.atomicAddr (name : AccessName) : Safe I E (atomicAddr c i name) :=
  safe_bind h.baseImm fun _ => safe_bind
    (safe_ite (fun _ => safe_throw (h.fault _ trivial)) fun _ => safe_pure _) fun _ => safe_pure _

theorem OpRules.inPort {a : BitVec 32}
    (hkeyboard : a.toInt = portKeyboard → Safe I E (inKeyboard c i)) : Safe I E (inPort c i a) := by
  refine safe_ite (fun hrange => safe_bind (safe_getCpu c) fun _ =>
    safe_ite (fun _ => h.writeReg _) fun _ => safe_ite (fun _ => h.writeReg _) fun _ =>
    safe_ite (fun _ => h.writeReg _) fun _ => safe_ite hkeyboard fun _ => ?_)
    fun _ => safe_throw (h.fault _ trivial)
  refine safe_ite (fun _ => safe_bind (h.readIo _ (by decide)) fun _ => h.writeReg _) fun _ =>
    safe_bind (h.readIo _ ?_) fun _ => h.writeReg _
  omega

theorem OpRules.execFloat2 (f : Float32 → Float32 → Float32) : Safe I E (execFloat2 c i f) :=
  safe_bind h.rs1 fun _ => safe_bind h.rs2 fun _ => safe_bind (h.writeReg _) fun _ =>
    h.modifyFlags _

theorem OpRules.execFtoi : Safe I E (execFtoi c i) := by
  refine safe_bind h.rs1 fun bits => safe_ite
    (fun _ => safe_bind (h.writeReg _) fun _ => safe_bind (h.modifyFlags _) fun _ =>
      h.modifyFlags _) fun _ => ?_
  cases f32ToI32 (regAsF32 bits) with
  | some v => exact safe_bind (h.writeReg _) fun _ => h.modifyFlags _
  | none => exact safe_throw (h.fault _ trivial)

/-- The rule: an instruction keeps what its operations keep. -/
theorem OpRules.execute : Safe I E (execute c i op) := by
  cases op with rw [LampVm.execute]
  | add => exact safe_bind h.rs1 fun _ => safe_bind h.rs2 fun _ => h.execAdd _ _
  | sub => exact safe_bind h.rs1 fun _ => safe_bind h.rs2 fun _ => h.execSub _ _
  | inc => exact safe_bind h.rd fun _ => h.execAdd _ _
  | addi => exact safe_bind h.rs1 fun _ => h.execAdd _ _
  | subi => exact safe_bind h.rs1 fun _ => h.execSub _ _
  | cmp => exact safe_bind h.rd fun _ => safe_bind h.rs1 fun _ => h.execCompare _ _
  | cmpi => exact safe_bind h.rd fun _ => h.execCompare _ _
  | mul | and | or | xor | shl | shr | sar | rol | ror => exact h.execLogic2 _
  | andi | ori | xori | shli | shri | roli | rori => exact h.execLogicImm _
  | div => exact safe_bind h.rs2 fun _ => h.divideBy _ fun _ => h.divideByZero (.inl rfl)
  | mod => exact safe_bind h.rs2 fun _ => h.divideBy _ fun _ => h.divideByZero (.inr rfl)
  | mov | not => exact safe_bind h.rs1 fun _ => h.setLogic _
  | movi => exact h.setLogic _
  | jz | jnz | jg | jge | jl | jle | jc | jnc => exact h.flagsCase _
  | rjz | rjnz => exact h.flagsCaseRel _
  | jmp => exact h.setIp _
  | rjmp => exact safe_bind (safe_getCpu c) fun _ => h.setIp _
  | call => exact h.callTo (.inl rfl) _
  | rcall => exact h.callTo (.inr (.inl rfl)) _
  | callr =>
    exact safe_bind (safe_getCpu c) fun _ => safe_bind (h.callPush (.inr (.inr rfl)) _) fun _ =>
      safe_bind h.rd fun _ => h.setIp _
  | ret => exact safe_bind (h.callPop rfl) fun _ => h.setIp _
  | push => exact safe_bind h.rd fun _ => h.dataPush rfl _
  | pop => exact safe_bind (h.dataPop rfl) fun _ => h.setLogic _
  | load =>
    exact safe_bind h.baseImm fun _ => safe_bind (h.vmRead8 _) fun _ =>
      safe_bind (h.writeReg _) fun _ => safe_bind h.rd fun _ => h.modifyFlags _
  | load32 =>
    exact safe_bind h.baseImm fun _ => safe_bind (h.vmRead32 _) fun _ => h.setLogic _
  | loadx32 =>
    exact safe_bind h.baseIndexImm fun _ => safe_bind (h.vmRead32 _) fun _ => h.setLogic _
  | fload32 =>
    exact safe_bind h.baseImm fun _ => safe_bind (h.vmRead32 _) fun _ =>
      safe_bind (h.writeReg _) fun _ => safe_bind h.rd fun _ => h.modifyFlags _
  | store => exact safe_bind h.baseImm fun _ => safe_bind h.rd fun _ => (h.writes rfl).vmWrite8 _ _
  | store32 | fstore32 =>
    exact safe_bind h.baseImm fun _ => safe_bind h.rd fun _ => (h.writes rfl).vmWrite32 _ _
  | storex32 =>
    exact safe_bind h.baseIndexImm fun _ => safe_bind h.rd fun _ => (h.writes rfl).vmWrite32 _ _
  | memset => exact safe_bind h.rd fun _ => safe_bind h.rs1 fun _ => (h.writes rfl).memsetLoop _ _ _ _
  | memcpy => exact safe_bind h.rd fun _ => safe_bind h.rs1 fun _ => (h.writes rfl).memcpyLoop _ _ _ _
  | «in» => exact safe_bind h.rs1 fun _ => h.inPort fun _ => h.keyboard rfl
  | out => exact h.out rfl
  | int => exact safe_bind h.rd fun _ => h.enter rfl _
  | iret => exact h.iret rfl
  | fadd | fsub | fmul | fdiv => exact h.execFloat2 _
  | fneg | fabs | fsqrt | itof =>
    exact safe_bind h.rs1 fun _ => safe_bind (h.writeReg _) fun _ => h.modifyFlags _
  | ftoi => exact h.execFtoi
  | fcmp => exact safe_bind h.rd fun _ => safe_bind h.rs1 fun _ => h.modifyFlags _
  | cas =>
    exact safe_bind (h.atomicAddr _) fun _ => safe_bind h.rd fun _ => safe_bind h.rs2 fun _ =>
      safe_bind ((h.writes rfl).compareExchange _ _ _) fun _ => safe_bind (h.modifyFlags _) fun _ =>
      h.writeReg _
  | xadd =>
    exact safe_bind (h.atomicAddr _) fun _ => safe_bind h.rs2 fun _ =>
      safe_bind ((h.writes rfl).fetchAdd _ _) fun _ => safe_bind (h.writeReg _) fun _ => h.modifyFlags _
  | xchg =>
    exact safe_bind (h.atomicAddr _) fun _ => safe_bind h.rs2 fun _ =>
      safe_bind ((h.writes rfl).exchange _ _) fun _ => h.setLogic _
  | ldar => exact safe_bind (h.atomicAddr _) fun _ => safe_bind (h.load _) fun _ =>
      h.setLogic _
  | stlr => exact safe_bind (h.atomicAddr _) fun _ => safe_bind h.rd fun _ => (h.writes rfl).store _ _
  | halt => exact h.halt
  | fence | pause => exact safe_pure _
  | startap => exact h.startap rfl
  | ipi => exact safe_bind h.rd fun _ => safe_bind h.rs1 fun _ => h.ipi rfl _ _
  | cpuid => exact safe_bind (safe_getCpu c) fun _ => h.setLogic _

end Rules

/-- `OUT` to a stack pointer port stores only values in the pointer's range. -/
theorem StepRules.execOut (h : StepRules I E c i op) : Safe I E (execOut c i) := by
  refine safe_bind (h.readReg _ (.inr (.inl rfl))) fun _ => safe_ite (fun _ => ?_) fun _ =>
    safe_throw (h.fault _ trivial)
  refine safe_bind (h.readReg _ (.inl rfl)) fun v => safe_ite (fun _ => ?_) fun _ =>
    safe_ite (fun _ => ?_) fun _ => safe_ite (fun _ => h.setIrqMasked _) fun _ => h.acceptIo _ _
  · exact safe_ite (h.setCsp _) fun _ => safe_pure _
  · exact safe_ite (h.setDsp _) fun _ => safe_pure _

theorem StepRules.opRules (h : StepRules I E c i op) : OpRules I E c i op where
  vmRead8 := h.memory.vmRead8
  vmRead32 := h.memory.vmRead32
  load := h.memory.load
  writes _ := h.memory
  fault := h.fault
  readReg := h.readReg
  writeReg := h.writeReg
  modifyFlags := h.modifyFlags
  setIp := h.setIp
  dataPush _ := h.dataPush
  dataPop _ := h.dataPop
  callPush _ := h.callPush
  callPop _ := h.callPop
  readIo := h.readIo
  out _ := h.execOut
  halt := h.halt
  keyboard := h.keyboard
  divideByZero := h.divideByZero
  enter := h.enter
  iret := h.iret
  startap := h.startap
  ipi := h.ipi

theorem StepRules.execute (h : StepRules I E c i op) : Safe I E (execute c i op) :=
  h.opRules.execute

/-! ## Ports -/

/-- An assertion that survives what `OUT` does to the devices. -/
structure PortFree (I : Vm → Prop) : Prop where
  io : ∀ vm io, I vm → I { vm with io := io }
  disk : ∀ vm disk, I vm → I { vm with disk := disk }
  stdout : ∀ vm stdout, I vm → I { vm with stdout := stdout }

theorem safe_checkIndex {array : CArray} {size k : ℕ} (hk : k < size) :
    Safe I E (checkIndex array size k) := by
  rw [checkIndex_of_lt hk]
  exact safe_pure _

/-- A trigger tests core and vector before it sets the bit. -/
theorem safe_triggerInterruptTarget
    (h : ∀ vm bitmap, I vm → I { vm with interruptBitmap := bitmap }) (target : ℤ)
    (n : BitVec 32) : Safe I E (triggerInterruptTarget target n) := by
  refine safe_bind_get fun vm hvm => safe_ite (fun _ => safe_pure _) fun hcore =>
    safe_ite (fun _ => safe_pure _) fun hn =>
    safe_bind (safe_checkIndex ?_) fun _ => safe_set (h vm _ hvm)
  change target.toNat * 4 + n.toNat / 64 < vm.smpCores * 4
  have hn' : ¬ n.toNat ≥ 256 := hn
  omega

theorem safe_readIo {port : ℕ} (hport : port < ioSize) : Safe I E (readIo port) :=
  safe_bind (safe_checkIndex hport) fun _ => safe_bind safe_get fun _ => safe_pure _

theorem PortFree.setIo (h : PortFree I) {port : ℕ} (hport : port < ioSize) (value : BitVec 32) :
    Safe I E (setIo port value) :=
  safe_bind (safe_checkIndex hport) fun _ => safe_modify fun _ hv => h.io _ _ hv

/-- `accept_io` tests the port before it writes it. -/
theorem PortFree.acceptIo (h : PortFree I) (addr : ℤ) (value : BitVec 32) :
    Safe I E (acceptIo addr value) := by
  refine safe_ite (fun _ => safe_pure _) fun hrange => ?_
  have hport : addr.toNat < ioSize := by omega
  refine safe_ite (fun _ => ?_) fun _ => safe_ite (fun _ => ?_) fun _ => safe_ite (fun _ => ?_)
    fun _ => safe_ite (fun _ => ?_) fun _ => safe_ite (fun _ => ?_) fun _ => safe_ite (fun _ => ?_)
    fun _ => h.setIo hport _
  · exact safe_bind (safe_modify fun _ hv => h.stdout _ _ hv) fun _ => h.setIo (by decide) _
  · exact safe_bind safe_get fun _ => h.setIo (by decide) _
  · exact safe_bind (h.setIo (by decide) _) fun _ => safe_modify fun _ hv => h.disk _ _ hv
  all_goals
    exact safe_bind (safe_modify fun _ hv => h.disk _ _ hv) fun _ => h.setIo (by decide) _

/-! ## Devices -/

/-- The state without what the device threads and the port instructions change. -/
def Vm.besidesDevices (vm : Vm) : Vm :=
  { vm.besidesClock with
    io := fun _ => 0
    serialRxFifo := fun _ => 0
    serialRxHead := 0
    serialRxTail := 0
    disk := ⟨0, 0, 0, .free, diskCmdNone, false, false⟩
    diskWorker := .waiting
    interruptBitmap := fun _ => 0
    timerPeriodUs := 0
    timerNextDeadlineNs := 0
    timerEnabled := false
    stdout := [] }

/-- An assertion that does not speak of the devices. -/
def DeviceFree (I : Vm → Prop) : Prop :=
  ∀ s t, I s → t.besidesDevices = s.besidesDevices → I t

theorem DeviceFree.clock (h : DeviceFree I) : ClockFree I := fun s t hs hst =>
  h s t hs (congrArg Vm.besidesDevices hst :)

theorem DeviceFree.port (h : DeviceFree I) : PortFree I where
  io _ _ hs := h _ _ hs rfl
  disk _ _ hs := h _ _ hs rfl
  stdout _ _ hs := h _ _ hs rfl

theorem DeviceFree.trigger (h : DeviceFree I) (target : ℤ) (n : BitVec 32) :
    Safe I E (triggerInterruptTarget target n) :=
  safe_triggerInterruptTarget (fun _ _ hs => h _ _ hs rfl) target n

section Devices

variable (h : DeviceFree I) (hE : ∀ array k, E (.outOfBounds array k))
include h hE

omit h in
theorem safe_checkIndex_of_fault (array : CArray) (size k : ℕ) :
    Safe I E (checkIndex array size k) :=
  safe_ite (fun _ => safe_pure _) fun _ => safe_throw (hE _ _)

omit h in
theorem safe_readFifo_of_fault (k : ℕ) : Safe I E (readFifo k) :=
  safe_bind safe_get fun _ => safe_bind (safe_checkIndex_of_fault hE _ _ _) fun _ => safe_pure _

omit hE in
theorem DeviceFree.diskTick : Safe I E diskTick :=
  safe_bind_get fun _ hs => safe_ite (fun _ => safe_pure _) fun _ => safe_bind
    (safe_set (h _ _ hs rfl))
    fun _ => safe_ite (fun _ => h.trigger _ _) fun _ => safe_pure _

theorem DeviceFree.vmSerialRxEnqueue (b : BitVec 8) : Safe I E (vmSerialRxEnqueue b) := by
  refine safe_bind safe_get fun vm => safe_ite (fun _ => safe_pure _) fun _ =>
    safe_bind (safe_checkIndex_of_fault hE _ _ _) fun _ => safe_bind
      (safe_modify fun _ hs => h _ _ hs rfl)
      fun _ => safe_ite (fun _ => ?_) fun _ => safe_pure _
  refine safe_bind (safe_readFifo_of_fault hE _) fun _ => safe_bind
    (safe_modify fun _ hs => h _ _ hs rfl)
    fun _ => safe_bind
    (safe_modify fun _ hs => h _ _ hs rfl)
    fun _ => safe_bind safe_get fun _ => ?_
  exact safe_ite (fun _ => safe_bind (h.trigger _ _) fun _ => safe_pure _)
    fun _ => safe_pure _

omit hE in
theorem DeviceFree.timerTick : Safe I E timerTick := by
  refine safe_bind safe_get fun vm => safe_ite (fun _ => safe_pure _) fun _ =>
    safe_ite (fun _ => safe_modify fun _ hs => h _ _ hs rfl) fun _ =>
    safe_ite (fun _ => safe_modify fun _ hs => h _ _ hs rfl) fun _ => ?_
  refine safe_bind h.clock.hostMonotonicTimeNs fun now => safe_bind
    (safe_modify fun _ hs => h _ _ hs rfl)
    fun _ => safe_ite (fun _ => safe_pure _) fun _ => ?_
  exact safe_bind (h.trigger _ _) fun _ => safe_bind h.clock.hostMonotonicTimeNs fun _ =>
    safe_modify fun _ hs => h _ _ hs rfl

theorem DeviceFree.serialMirror : Safe I E serialMirror := by
  refine safe_bind safe_get fun _ => safe_ite
    (fun _ => safe_bind (safe_readFifo_of_fault hE _) fun _ => ?_) fun _ => ?_
  all_goals exact safe_bind (h.port.setIo (by decide) _) fun _ => h.port.setIo (by decide) _

theorem DeviceFree.serialAck : Safe I E serialAck :=
  safe_bind_get fun _ hs => safe_bind (safe_checkIndex_of_fault hE _ _ _) fun _ =>
    safe_set (h _ _ hs rfl)

/-- Apart from the register it fills, `IN` from `KEYBOARD` works on the devices. -/
theorem DeviceFree.inKeyboard (hwrite : ∀ v, Safe I E (writeReg c i.rd v)) :
    Safe I E (inKeyboard c i) := by
  have hpop : Safe I E (serialPop c i.rd) :=
    safe_bind safe_get fun _ => safe_ite
      (fun _ => safe_bind (safe_readFifo_of_fault hE _) fun _ => safe_bind
        (safe_modify fun _ hs => h _ _ hs rfl) fun _ => hwrite _)
      fun _ => hwrite _
  have hraise : Safe I E serialRaise :=
    safe_bind safe_get fun _ => safe_ite (fun _ => h.trigger _ _) fun _ => safe_pure _
  exact safe_bind hpop fun _ => safe_bind (h.serialMirror hE) fun _ =>
    safe_bind (h.serialAck hE) fun _ => hraise

end Devices

/-! ## Assertions about other things than the core -/

/-- The register fields name registers. -/
structure Inst.Valid (i : Inst) : Prop where
  rd : i.rd.toNat < regCount
  rs1 : i.rs1.toNat < regCount
  rs2 : i.rs2.toNat < regCount

/-- They do, or `E` admits a field that does not. -/
def RegsAdmitted (E : Fault → Prop) (i : Inst) : Prop :=
  ∀ r, r = i.rd ∨ r = i.rs1 ∨ r = i.rs2 → r.toNat < regCount ∨ E (.outOfBounds .regs r.toNat)

theorem Inst.Valid.admitted (hi : i.Valid) : RegsAdmitted E i := by
  rintro r (rfl | rfl | rfl)
  · exact .inl hi.rd
  · exact .inl hi.rs1
  · exact .inl hi.rs2

theorem CoreFree.writeReg (hcore : CoreFree c I) {r : BitVec 8}
    (hr : r.toNat < regCount ∨ E (.outOfBounds .regs r.toNat)) (v : BitVec 32) :
    Safe I E (writeReg c r v) :=
  safe_writeReg hr (fun _ _ => hcore.modifyCpu fun _ => rfl) v

/-- For an assertion that survives every change of the core, only the operations that
reach beyond it are left to check. -/
theorem CoreFree.stepRules (hcore : CoreFree c I) (hi : RegsAdmitted E i) (memory : MemoryRules I E)
    (hpanic : ∀ p, E (.panic p)) (hfloat : ∀ bits, E (.floatToInt bits)) (hport : PortFree I)
    (hhalt : ∀ vm, I vm → I { vm with halted := true })
    (keyboard : op = .in → Safe I E (inKeyboard c i))
    (divideByZero : op = .div ∨ op = .mod → Safe I E (triggerInterrupt intDivideByZero))
    (startap : op = .startap → Safe I E (execStartap c i))
    (ipi : op = .ipi → ∀ target n, Safe I E (triggerInterruptTarget target n)) :
    StepRules I E c i op where
  memory := memory
  fault e he := by
    cases e with
    | panic p => exact hpanic p
    | floatToInt bits => exact hfloat bits
    | outOfBounds array k => exact he.elim
  readReg r hr := safe_readReg c (hi r hr)
  writeReg := hcore.writeReg (hi _ (.inl rfl))
  modifyFlags _ := hcore.modifyCpu fun _ => rfl
  setIp _ := hcore.modifyCpu fun _ => rfl
  dataPush := hcore.stackPush hpanic (fun _ _ => rfl) memory.vmWrite32
  dataPop := hcore.stackPop hpanic (fun _ _ => rfl) memory.vmRead32
  callPush := hcore.stackPush hpanic (fun _ _ => rfl) memory.vmWrite64
  callPop := hcore.stackPop hpanic (fun _ _ => rfl) memory.vmRead64
  setCsp _ _ := hcore.modifyCpu fun _ => rfl
  setDsp _ _ := hcore.modifyCpu fun _ => rfl
  setIrqMasked _ := hcore.modifyCpu fun _ => rfl
  readIo _ := safe_readIo
  acceptIo := hport.acceptIo
  halt := safe_modify hhalt
  keyboard := keyboard
  divideByZero := divideByZero
  enter _ := hcore.vmEnterInterrupt hpanic memory
  iret _ := hcore.vmIret hpanic memory
  startap := startap
  ipi := ipi

/-! ## The executed instruction -/

/-- An instruction that returns was fetched and has an opcode. -/
theorem vmInstructionCase_ok {vm t : Vm} (h : vmInstructionCase c vm = .ok ((), t)) :
    ∃ op : Opcode, (vm.nextInst c).op = op.code ∧
      execute c (vm.nextInst c) op (vm.fetched c) = .ok ((), t) := by
  by_cases hram : inRam vm (vm.cpus c).fetchIp 8
  · cases hop : Opcode.ofByte (vm.nextInst c).op with
    | some op =>
      have hcode := Opcode.code_of_ofByte hop
      exact ⟨op, hcode, (vmInstructionCase_of_inRam hram hcode).symm.trans h⟩
    | none =>
      rw [vmInstructionCase_of_unknown hram hop] at h
      cases h
  · rw [vmInstructionCase, bind_error (fetch64_of_not_inRam hram)] at h
    cases h

end LampVm
