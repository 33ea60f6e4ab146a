import LampVm.Memory

/-!
# Stacks and interrupts

`stack.h` and `interrupt.c`. The three stacks of a core grow downwards from
their full pointer value and live in RAM. Interrupt entry saves the instruction
pointer, the flags and all registers on the ISR stack; `IRET` restores them in
the opposite order. A core delivers at most one pending vector between two
instructions, and none while it is in a handler.
-/
namespace LampVm

open ByteOrder

/-! ## Stacks -/

/-- What distinguishes one of the three stacks: its pointer, its base, its
number of cells and the panics at its two ends. -/
structure StackRegs where
  get : Vcpu → ℤ
  set : Vcpu → ℤ → Vcpu
  base : Vcpu → BitVec 32
  size : ℕ
  overflow : Panic
  underflow : Panic

def dataStack : StackRegs where
  get cpu := cpu.dsp
  set cpu v := { cpu with dsp := v }
  base cpu := cpu.dataStackBase
  size := dataStackSize
  overflow := .dataStackOverflow
  underflow := .dataStackUnderflow

def callStack : StackRegs where
  get cpu := cpu.csp
  set cpu v := { cpu with csp := v }
  base cpu := cpu.callStackBase
  size := callStackSize
  overflow := .callStackOverflow
  underflow := .callStackUnderflow

def isrStack : StackRegs where
  get cpu := cpu.isp
  set cpu v := { cpu with isp := v }
  base cpu := cpu.isrStackBase
  size := isrStackSize
  overflow := .interruptStackOverflow
  underflow := .interruptStackUnderflow

/-- Address of cell `v` of a stack with cells of `cell` bytes. -/
def StackRegs.cellAddr (S : StackRegs) (cpu : Vcpu) (cell : ℤ) (v : ℤ) : BitVec 32 :=
  S.base cpu + BitVec.ofInt 32 (v * cell)

def stackPush {α : Type} (S : StackRegs) (cell : ℤ) (write : BitVec 32 → α → VmM Unit)
    (c : ℕ) (val : α) : VmM Unit := do
  let cpu ← getCpu c
  if S.get cpu = 0 then vmPanic S.overflow
  else
    modifyCpu c fun cpu => S.set cpu (S.get cpu - 1)
    let cpu ← getCpu c
    write (S.cellAddr cpu cell (S.get cpu)) val

def stackPop {α : Type} (S : StackRegs) (cell : ℤ) (read : BitVec 32 → VmM α)
    (c : ℕ) : VmM α := do
  let cpu ← getCpu c
  if S.get cpu ≥ S.size then vmPanic S.underflow
  else
    let val ← read (S.cellAddr cpu cell (S.get cpu))
    modifyCpu c fun cpu => S.set cpu (S.get cpu + 1)
    pure val

def dataPush : ℕ → BitVec 32 → VmM Unit := stackPush dataStack 4 vmWrite32
def dataPop : ℕ → VmM (BitVec 32) := stackPop dataStack 4 vmRead32
def callPush : ℕ → BitVec 64 → VmM Unit := stackPush callStack 8 vmWrite64
def callPop : ℕ → VmM (BitVec 64) := stackPop callStack 8 vmRead64
def isrPush : ℕ → BitVec 64 → VmM Unit := stackPush isrStack 8 vmWrite64
def isrPop : ℕ → VmM (BitVec 64) := stackPop isrStack 8 vmRead64

def isrPushU32 (c : ℕ) (v : BitVec 32) : VmM Unit := isrPush c (v.setWidth 64)

def isrPopU32 (c : ℕ) : VmM (BitVec 32) := do
  let v ← isrPop c
  pure (v.setWidth 32)

/-! ## Entry and return -/

abbrev isrArgReg : Fin regCount := 31

/-- Address of an interrupt vector table entry. -/
def ivtEntry (intNo : BitVec 32) : BitVec 32 := BitVec.ofNat 32 ivtBase + intNo * 8

theorem ivtEntry_toNat {intNo : BitVec 32} (h : intNo.toNat < ivtSize) :
    (ivtEntry intNo).toNat = 8 * intNo.toNat := by
  have h8 : (8 : BitVec 32).toNat = 8 := rfl
  simp only [ivtEntry, ivtBase, BitVec.toNat_add, BitVec.toNat_mul, BitVec.toNat_ofNat, h8]
  simp only [ivtSize] at h
  omega

/-- `vm_enter_interrupt` behind its tests. -/
def enterHandler (c : ℕ) (intNo : BitVec 32) (isrIp : BitVec 64) : VmM Unit := do
  isrPush c (BitVec.ofNat 64 (← getCpu c).ip)
  isrPush c ((← getCpu c).flags.setWidth 64)
  (List.finRange regCount).forM fun i => do
    isrPushU32 c ((← getCpu c).regs i)
  modifyCpu c fun cpu => { cpu with regs := Function.update cpu.regs isrArgReg intNo }
  modifyCpu c fun cpu => { cpu with ip := (isrIp.setWidth 32).toNat }
  modifyCpu c fun cpu => { cpu with inInterrupt := 1 }

def vmEnterInterrupt (c : ℕ) (intNo : BitVec 32) : VmM Unit := do
  let cpu ← getCpu c
  if intNo.toNat ≥ ivtSize then pure ()
  else if cpu.inInterrupt ≠ 0 then pure ()
  else
    let isrIp ← vmRead64 (ivtEntry intNo)
    if isrIp = BitVec.allOnes 64 then pure () else enterHandler c intNo isrIp

/-- `vm_iret` behind its test. -/
def leaveHandler (c : ℕ) : VmM Unit := do
  (List.finRange regCount).reverse.forM fun i => do
    let v ← isrPopU32 c
    modifyCpu c fun cpu => { cpu with regs := Function.update cpu.regs i v }
  let flags ← isrPop c
  modifyCpu c fun cpu => { cpu with flags := flags.setWidth 32 }
  let ip ← isrPop c
  modifyCpu c fun cpu => { cpu with ip := (ip.setWidth 32).toNat }
  modifyCpu c fun cpu => { cpu with inInterrupt := 0 }

def vmIret (c : ℕ) : VmM Unit := do
  let cpu ← getCpu c
  if cpu.inInterrupt = 0 then pure () else leaveHandler c

/-! ## Pending vectors -/

def irqWordIndex (coreId : ℕ) (intNo : BitVec 32) : ℕ :=
  coreId * irqBitmapWords + intNo.toNat / 64

def irqBitMask (intNo : BitVec 32) : BitVec 64 := 1 <<< (intNo.toNat % 64)

def triggerInterruptTarget (coreId : ℤ) (intNo : BitVec 32) : VmM Unit := do
  let vm ← get
  if coreId < 0 ∨ coreId ≥ vm.smpCores then pure ()
  else if intNo.toNat ≥ ivtSize then pure ()
  else
    let idx := irqWordIndex coreId.toNat intNo
    checkIndex .interruptBitmap (vm.smpCores * irqBitmapWords) idx
    set { vm with interruptBitmap :=
            Function.update vm.interruptBitmap idx (vm.interruptBitmap idx ||| irqBitMask intNo) }

def triggerInterrupt (intNo : BitVec 32) : VmM Unit := triggerInterruptTarget 0 intNo

/-- The scan of `vm_handle_interrupts` over the words of one core, run without
interference: the first compare-exchange takes the lowest pending vector. -/
def deliverFirst (c coreId : ℕ) : List ℕ → VmM Unit
  | [] => pure ()
  | w :: ws => do
    let vm ← get
    let idx := coreId * irqBitmapWords + w
    checkIndex .interruptBitmap (vm.smpCores * irqBitmapWords) idx
    let word := vm.interruptBitmap idx
    if word = 0 then deliverFirst c coreId ws
    else
      let bit := word.ctz.toNat
      set { vm with interruptBitmap :=
              Function.update vm.interruptBitmap idx (word &&& ~~~((1 : BitVec 64) <<< bit)) }
      vmEnterInterrupt c (BitVec.ofNat 32 (w * 64 + bit))

def vmHandleInterrupts (c : ℕ) : VmM Unit := do
  let cpu ← getCpu c
  if cpu.inInterrupt ≠ 0 then pure ()
  else if cpu.irqMasked ≠ 0 then pure ()
  else deliverFirst c cpu.coreId (List.range irqBitmapWords)

/-! ## Vector table initialisation -/

def initIvt : VmM Unit := do
  (List.range ivtSize).forM fun i =>
    vmWrite64 (ivtEntry (BitVec.ofNat 32 i)) (BitVec.allOnes 64)
  modify fun vm => { vm with interruptBitmap := fun i =>
    if i < vm.smpCores * irqBitmapWords then 0 else vm.interruptBitmap i }
  modify fun vm => { vm with cpus := fun c =>
    if c < vm.smpCores then { vm.cpus c with inInterrupt := 0 } else vm.cpus c }

def registerIsr (intNo : BitVec 32) (isrIp : BitVec 64) : VmM Unit :=
  if intNo.toNat ≥ ivtSize then vmPanic (.invalidInterruptNumber intNo)
  else vmWrite64 (ivtEntry intNo) ((isrIp.setWidth 32).setWidth 64)

end LampVm
