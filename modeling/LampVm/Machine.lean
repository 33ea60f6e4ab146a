import LampVm.Contract
import LampVm.ByteOrder

/-!
# Data model of the virtual machine

The records of `vm.h` with the fields that some modelled function reads. Fixed
width integers are bit vectors, C `int` counters are integers, and `size_t`
values are naturals. Arrays are total maps; every access goes through a bounds
test that stops the run with `Fault.outOfBounds`, so an index error of the C
program is visible in the model. `panic` ends the process, hence it is an error
as well. Locks, thread handles and statistics counters are left out.
-/
namespace LampVm

open ByteOrder

abbrev regCount : ℕ := 32

instance : NeZero regCount := ⟨by decide⟩

abbrev ioSize : ℕ := 256
abbrev ivtSize : ℕ := 256
abbrev irqBitmapWords : ℕ := 4
abbrev callStackSize : ℕ := 256
abbrev dataStackSize : ℕ := 256
abbrev isrStackSize : ℕ := 256
abbrev ivtBase : ℕ := 0
abbrev callStackBase : ℕ := 0x800
abbrev timeBase : ℕ := 0x2000
abbrev timeSize : ℕ := 24
abbrev programBase : ℕ := 0x201C
abbrev fbWidth : ℕ := 640
abbrev fbHeight : ℕ := 480
abbrev fbSize : ℕ := 1228800
abbrev fbLegacyBase : ℕ := 0x620000
abbrev sysinfoBase : ℕ := 0x74C000
abbrev sysinfoSize : ℕ := 0x5C
abbrev memSize : ℕ := 67108864
abbrev diskSectorSize : ℕ := 512

/-- Interrupt vectors of `enum InterruptNo`. -/
abbrev intKeyboard : BitVec 32 := 0
abbrev intDivideByZero : BitVec 32 := 1
abbrev intDiskComplete : BitVec 32 := 2
abbrev intSerial : BitVec 32 := 3
abbrev intTimer : BitVec 32 := 4

/-- Ports of `enum IO_TABLE`. -/
abbrev portScreen : ℕ := 0x01
abbrev portScreenAttribute : ℕ := 0x02
abbrev portKeyboard : ℕ := 0x03
abbrev portDiskCmd : ℕ := 0x10
abbrev portDiskLba : ℕ := 0x11
abbrev portDiskMem : ℕ := 0x12
abbrev portDiskCount : ℕ := 0x13
abbrev portCpuCtxCsp : ℕ := 0xF0
abbrev portCpuCtxDsp : ℕ := 0xF1
abbrev portCpuCtxIrqMask : ℕ := 0xF2

abbrev flagCf : BitVec 32 := 0x01
abbrev flagZf : BitVec 32 := 0x08
abbrev flagSf : BitVec 32 := 0x10
abbrev flagOf : BitVec 32 := 0x20

/-- The operation names that memory panics quote. -/
inductive AccessName
  | read8 | read32 | read64 | write8 | write32 | write64
  | ldar | stlr | xchg | xadd | cas
  deriving DecidableEq, Repr

inductive Panic
  | ipOutOfBounds
  | dataStackOverflow
  | dataStackUnderflow
  | callStackOverflow
  | callStackUnderflow
  | interruptStackOverflow
  | interruptStackUnderflow
  | unalignedAddress (op : AccessName) (addr : BitVec 32)
  | addressOutOfBounds (op : AccessName) (addr : BitVec 32)
  | atomicOnMmio (op : AccessName) (addr : BitVec 32)
  | invalidMmio (op : AccessName) (addr : BitVec 32)
  | inInvalidPort (addr : BitVec 32)
  | outInvalidPort (addr : BitVec 32)
  | unknownOpcode (op : BitVec 8)
  | invalidInterruptNumber (intNo : BitVec 32)
  | programTooLarge
  | stackPoolTooLarge
  | imageOverlapsStackPool
  | dataSegmentOutOfRange
  | bssSegmentOutOfRange
  deriving DecidableEq, Repr

/-- The C arrays whose indices the machine computes at run time. -/
inductive CArray
  | regs | memory | fb | io | serialRxFifo | interruptBitmap | cpus | coreReleased
  deriving DecidableEq, Repr

/-- Why a run stops: the program's own `panic`, or undefined behaviour of C. -/
inductive Fault
  | panic (p : Panic)
  | outOfBounds (array : CArray) (index : ℕ)
  | floatToInt (bits : BitVec 32)
  deriving DecidableEq, Repr

structure Vcpu where
  regs : Fin regCount → BitVec 32
  ip : ℕ
  lastIp : ℕ
  flags : BitVec 32
  dsp : ℤ
  csp : ℤ
  isp : ℤ
  inInterrupt : ℤ
  irqMasked : ℤ
  coreId : ℕ
  callStackBase : BitVec 32
  dataStackBase : BitVec 32
  isrStackBase : BitVec 32
  isBsp : Bool

inductive DiskStatus
  | free | busy
  deriving DecidableEq, Repr

/-- `DISK_CMD_NONE`, `DISK_CMD_READ` and `DISK_CMD_WRITE`. -/
abbrev diskCmdNone : BitVec 32 := 0
abbrev diskCmdRead : BitVec 32 := 1
abbrev diskCmdWrite : BitVec 32 := 2

/-- The backing file of the disk. -/
structure DiskImage where
  size : ℕ
  bytes : Bytes

structure Disk where
  lba : BitVec 32
  memAddr : BitVec 32
  count : BitVec 32
  status : DiskStatus
  currentCmd : BitVec 32
  threadRunning : Bool
  opComplete : Bool

/-- The worker's local copies of a command and its registers. -/
structure DiskJob where
  cmd : BitVec 32
  lba : BitVec 32
  memAddr : BitVec 32
  count : BitVec 32
  deriving DecidableEq, Repr

/-- Where the worker thread is: before its first locked region, between the two
regions with the transfer still to do or done, or past the end of its loop. -/
inductive DiskWorker
  | waiting
  | holding (job : DiskJob)
  | transferred (job : DiskJob)
  | exited
  deriving DecidableEq, Repr

/-- The register functions a device is registered with. -/
inductive MmioOps
  | fb | time | sysinfo
  deriving DecidableEq, Repr

/-- A device window with inclusive bounds. -/
structure MmioDevice where
  start : BitVec 32
  stop : BitVec 32
  ops : MmioOps
  deriving DecidableEq, Repr

/-- The host clocks as the sequences of values their readings return. -/
structure HostClock where
  realtime : ℕ → BitVec 64
  monotonic : ℕ → BitVec 64
  readings : ℕ

structure Vm where
  halted : Bool
  memory : Bytes
  memorySize : ℕ
  fb : ℕ → BitVec 32
  io : ℕ → BitVec 32
  serialRxFifo : ℕ → BitVec 8
  serialRxHead : BitVec 16
  serialRxTail : BitVec 16
  disk : Disk
  diskWorker : DiskWorker
  diskImage : DiskImage
  diskSizeBytes : BitVec 64
  interruptBitmap : ℕ → BitVec 64
  startRealtimeNs : BitVec 64
  startMonotonicNs : BitVec 64
  latchedRealtime : BitVec 64
  latchedMonotonic : BitVec 64
  latchedBoottime : BitVec 64
  sysinfoVendorWords : ℕ → BitVec 32
  mmioDevices : List MmioDevice
  mmioCacheDev : Option MmioDevice
  mmioCacheStart : BitVec 32
  mmioCacheEnd : BitVec 32
  smpCores : ℕ
  cpus : ℕ → Vcpu
  coreReleased : ℕ → Bool
  timerPeriodUs : BitVec 32
  timerNextDeadlineNs : BitVec 64
  timerEnabled : Bool
  /-- Bytes written to the host terminal, newest first. -/
  stdout : List (BitVec 8)
  hostClock : HostClock
  /-- The `VM_MEMCHECK` build option. -/
  memcheck : Bool

abbrev VmM := StateT Vm (Except Fault)

def vmPanic {α : Type} (p : Panic) : VmM α := throw (.panic p)

/-- An access to a C array of `size` elements. -/
def checkIndex (array : CArray) (size i : ℕ) : VmM Unit :=
  if i < size then pure () else throw (.outOfBounds array i)

/-! ## The current core

`vm_current_cpu` is the thread's own `VCPU`, so every function below takes the
core number of the thread that runs it. -/

def getCpu (c : ℕ) : VmM Vcpu := do
  let vm ← get
  pure (vm.cpus c)

/-- One assignment through a `VCPU` pointer. -/
def Vm.setCpu (vm : Vm) (c : ℕ) (cpu : Vcpu) : Vm :=
  { vm with cpus := Function.update vm.cpus c cpu }

def modifyCpu (c : ℕ) (f : Vcpu → Vcpu) : VmM Unit :=
  modify fun vm => vm.setCpu c (f (vm.cpus c))

@[simp] theorem getCpu_apply (c : ℕ) (vm : Vm) : getCpu c vm = .ok (vm.cpus c, vm) := rfl

@[simp] theorem modifyCpu_apply (c : ℕ) (f : Vcpu → Vcpu) (vm : Vm) :
    modifyCpu c f vm = .ok ((), vm.setCpu c (f (vm.cpus c))) := rfl

@[simp] theorem vmPanic_apply {α : Type} (p : Panic) (vm : Vm) :
    (vmPanic p : VmM α) vm = .error (.panic p) := rfl

theorem checkIndex_of_lt {array : CArray} {size i : ℕ} (h : i < size) :
    checkIndex array size i = pure () := if_pos h

@[simp] theorem setCpu_cpus_self (vm : Vm) (c : ℕ) (cpu : Vcpu) :
    (vm.setCpu c cpu).cpus c = cpu := by simp [Vm.setCpu]

@[simp] theorem setCpu_cpus_of_ne (vm : Vm) {c d : ℕ} (cpu : Vcpu) (h : d ≠ c) :
    (vm.setCpu c cpu).cpus d = vm.cpus d := by simp [Vm.setCpu, h]

@[simp] theorem setCpu_setCpu (vm : Vm) (c : ℕ) (cpu cpu' : Vcpu) :
    (vm.setCpu c cpu).setCpu c cpu' = vm.setCpu c cpu' := by simp [Vm.setCpu]

@[simp] theorem setCpu_memory (vm : Vm) (c : ℕ) (cpu : Vcpu) :
    (vm.setCpu c cpu).memory = vm.memory := rfl

@[simp] theorem setCpu_memorySize (vm : Vm) (c : ℕ) (cpu : Vcpu) :
    (vm.setCpu c cpu).memorySize = vm.memorySize := rfl

/-- A field that names a register. -/
abbrev IsReg (r : BitVec 8) : Prop := r.toNat < regCount

/-- `cpu->regs[r]` as an rvalue. -/
def readReg (c : ℕ) (r : BitVec 8) : VmM (BitVec 32) := do
  let cpu ← getCpu c
  if h : r.toNat < regCount then pure (cpu.regs ⟨r.toNat, h⟩)
  else throw (.outOfBounds .regs r.toNat)

/-- `cpu->regs[r] = v`. -/
def writeReg (c : ℕ) (r : BitVec 8) (v : BitVec 32) : VmM Unit :=
  if h : r.toNat < regCount then
    modifyCpu c fun cpu => { cpu with regs := Function.update cpu.regs ⟨r.toNat, h⟩ v }
  else throw (.outOfBounds .regs r.toNat)

theorem readReg_of_lt {c : ℕ} {r : BitVec 8} {vm : Vm} (h : r.toNat < regCount) :
    readReg c r vm = .ok ((vm.cpus c).regs ⟨r.toNat, h⟩, vm) := by
  simp [readReg, Contract.bind_apply, h]

def setIp (c : ℕ) (ip : ℕ) : VmM Unit := modifyCpu c fun cpu => { cpu with ip := ip }

end LampVm
