import LampVm.Instruction
import LampVm.Transition

/-!
# Machine creation and the machine as a transition system

`vm_create`, `disk_init` and `init_ivt` build the state in which the threads
start. From there the core threads, the disk worker, the timer thread and the
serial input take turns. One step is one call of the functions these threads
repeat; a core's loop calls `vm_handle_interrupts`, `vm_instruction_case` and, on
core 0, `disk_tick` in turn and ends when the machine has halted, and the system
admits these calls in any order, so it has every run of the loops.
-/
namespace LampVm

open ByteOrder Transition

/-! ## Creation -/

structure ProgramLayout where
  textBase : BitVec 32
  textSize : BitVec 32
  dataBase : BitVec 32
  dataSize : BitVec 32
  bssBase : BitVec 32
  bssSize : BitVec 32
  deriving DecidableEq, Repr

/-- Where a program without a layout goes: its data directly behind its text. -/
def ProgramLayout.packed (progBytes dataSize : ℕ) : ProgramLayout where
  textBase := BitVec.ofNat 32 programBase
  textSize := BitVec.ofNat 32 progBytes
  dataBase := BitVec.ofNat 32 programBase + BitVec.ofNat 32 progBytes
  dataSize := BitVec.ofNat 32 dataSize
  bssBase := BitVec.ofNat 32 programBase + BitVec.ofNat 32 progBytes + BitVec.ofNat 32 dataSize
  bssSize := 0

def ProgramLayout.imageEnd (l : ProgramLayout) (progBytes dataSize : ℕ) : ℕ :=
  max (max (l.textBase.toNat + progBytes) (l.dataBase.toNat + dataSize))
    (l.bssBase.toNat + l.bssSize.toNat)

abbrev callStackBytes : ℕ := callStackSize * 8
abbrev dataStackBytes : ℕ := dataStackSize * 4
abbrev isrStackBytes : ℕ := isrStackSize * 8
abbrev perCoreStackBytes : ℕ := callStackBytes + dataStackBytes + isrStackBytes

def stackPoolBase (memorySize cores : ℕ) : BitVec 32 :=
  if cores = 1 then BitVec.ofNat 32 callStackBase
  else BitVec.ofNat 32 (memorySize - perCoreStackBytes * cores)

def coreStackBase (memorySize cores i : ℕ) : BitVec 32 :=
  if cores = 1 then BitVec.ofNat 32 callStackBase
  else stackPoolBase memorySize cores + BitVec.ofNat 32 (perCoreStackBytes * i)

/-- The loop body of `vm_create` over the cores, on a zeroed `VCPU`. -/
def initCpu (memorySize cores : ℕ) (textBase : BitVec 32) (i : ℕ) : Vcpu where
  regs := fun _ => 0
  ip := textBase.toNat
  lastIp := textBase.toNat
  flags := 0
  dsp := dataStackSize
  csp := callStackSize
  isp := isrStackSize
  inInterrupt := 0
  irqMasked := 0
  coreId := i
  callStackBase := coreStackBase memorySize cores i
  dataStackBase := coreStackBase memorySize cores i + BitVec.ofNat 32 callStackBytes
  isrStackBase := coreStackBase memorySize cores i + BitVec.ofNat 32 callStackBytes +
    BitVec.ofNat 32 dataStackBytes
  isBsp := i = 0

/-- The windows of `register_fb_mmio`, `register_time_mmio` and
`register_sysinfo_mmio`, in registration order. -/
def registeredDevices (memorySize : ℕ) : List MmioDevice :=
  [⟨BitVec.ofNat 32 memorySize, BitVec.ofNat 32 (memorySize + fbSize - 1), .fb⟩,
   ⟨BitVec.ofNat 32 fbLegacyBase, BitVec.ofNat 32 (fbLegacyBase + fbSize - 1), .fb⟩,
   ⟨BitVec.ofNat 32 timeBase, BitVec.ofNat 32 (timeBase + timeSize - 1), .time⟩,
   ⟨BitVec.ofNat 32 sysinfoBase, BitVec.ofNat 32 (sysinfoBase + sysinfoSize - 1), .sysinfo⟩]

/-- The text `LampVM` packed into words. -/
def vendorWords : ℕ → BitVec 32
  | 0 => 0x706D614C
  | 1 => 0x00004D56
  | _ => 0

/-- Byte `i` of the program's words on a little-endian host. -/
def programByte (program : List (BitVec 64)) (i : ℕ) : BitVec 8 :=
  (program.getD (i / 8) 0 >>> (8 * (i % 8))).setWidth 8

abbrev defaultDiskSize : BitVec 64 := 536870912

/-- The zeroed `VM` with its arrays allocated, its devices registered and its cores
set to start at `textBase`. -/
def Vm.allocated (clock : HostClock) (memcheck : Bool) (memorySize cores : ℕ)
    (textBase : BitVec 32) : Vm where
  halted := false
  memory := fun _ => 0
  memorySize := memorySize
  fb := fun _ => 0
  io := fun _ => 0
  serialRxFifo := fun _ => 0
  serialRxHead := 0
  serialRxTail := 0
  disk := ⟨0, 0, 0, .free, diskCmdNone, false, false⟩
  diskWorker := .exited
  diskImage := ⟨0, fun _ => 0⟩
  diskSizeBytes := defaultDiskSize
  interruptBitmap := fun _ => 0
  startRealtimeNs := 0
  startMonotonicNs := 0
  latchedRealtime := 0
  latchedMonotonic := 0
  latchedBoottime := 0
  sysinfoVendorWords := vendorWords
  mmioDevices := registeredDevices memorySize
  mmioCacheDev := none
  mmioCacheStart := 0
  mmioCacheEnd := 0
  smpCores := cores
  cpus := initCpu memorySize cores textBase
  coreReleased := fun i => i = 0
  timerPeriodUs := 0
  timerNextDeadlineNs := 0
  timerEnabled := false
  stdout := []
  hostClock := clock
  memcheck := memcheck

/-- The number of cores that `vm_create` makes of its argument. -/
def coreCount (smpCores : ℤ) : ℕ := if smpCores > 0 then smpCores.toNat else 1

theorem coreCount_pos (smpCores : ℤ) : 0 < coreCount smpCores := by
  unfold coreCount
  split_ifs <;> omega

/-- The tests of `vm_create` in their order. A failed test ends the process, so the
copies that the source makes between them are all made afterwards. -/
def checkImage (memorySize cores : ℕ) (place : ProgramLayout) (progBytes dataSize : ℕ) :
    Except Fault Unit :=
  if place.textBase.toNat + progBytes > memorySize then throw (.panic .programTooLarge)
  else if cores ≠ 1 ∧ perCoreStackBytes * cores ≥ memorySize then
    throw (.panic .stackPoolTooLarge)
  else if cores ≠ 1 ∧
      place.imageEnd progBytes dataSize > (stackPoolBase memorySize cores).toNat then
    throw (.panic .imageOverlapsStackPool)
  else if dataSize > 0 ∧ place.dataBase.toNat + dataSize > memorySize then
    throw (.panic .dataSegmentOutOfRange)
  else if place.bssSize.toNat > 0 ∧ place.bssBase.toNat + place.bssSize.toNat > memorySize then
    throw (.panic .bssSegmentOutOfRange)
  else pure ()

/-- Text, data and zeroed bss, copied in this order. -/
def loadImage (memory : Bytes) (place : ProgramLayout) (program : List (BitVec 64))
    (data : List (BitVec 8)) : Bytes :=
  let memory := copyToRam memory place.textBase.toNat (program.length * 8) (programByte program)
  let memory := copyToRam memory place.dataBase.toNat data.length fun i => data.getD i 0
  copyToRam memory place.bssBase.toNat place.bssSize.toNat fun _ => 0

def vmCreate (clock : HostClock) (memcheck : Bool) (memorySize : ℕ) (program : List (BitVec 64))
    (data : List (BitVec 8)) (layout : Option ProgramLayout) (smpCores : ℤ) :
    Except Fault Vm := do
  let cores := coreCount smpCores
  let place := layout.getD (ProgramLayout.packed (program.length * 8) data.length)
  checkImage memorySize cores place (program.length * 8) data.length
  let vm := Vm.allocated clock memcheck memorySize cores place.textBase
  pure { vm with
    memory := loadImage vm.memory place program data
    startRealtimeNs := clock.realtime clock.readings
    startMonotonicNs := clock.monotonic (clock.readings + 1)
    hostClock := { clock with readings := clock.readings + 2 }
    io := Function.update vm.io portScreenAttribute serialStatusTxReady }

section Created

variable {clock : HostClock} {memcheck : Bool} {memorySize : ℕ} {program : List (BitVec 64)}
  {data : List (BitVec 8)} {layout : Option ProgramLayout} {smpCores : ℤ}

theorem exists_vmCreate
    (h : checkImage memorySize (coreCount smpCores)
      (layout.getD (ProgramLayout.packed (program.length * 8) data.length))
      (program.length * 8) data.length = .ok ()) :
    ∃ vm, vmCreate clock memcheck memorySize program data layout smpCores = .ok vm := by
  simp only [vmCreate, h]
  exact ⟨_, rfl⟩

theorem vmCreate_checked {vm : Vm}
    (h : vmCreate clock memcheck memorySize program data layout smpCores = .ok vm) :
    checkImage memorySize (coreCount smpCores)
      (layout.getD (ProgramLayout.packed (program.length * 8) data.length))
      (program.length * 8) data.length = .ok () := by
  simp only [vmCreate] at h
  cases hcheck : checkImage memorySize (coreCount smpCores)
      (layout.getD (ProgramLayout.packed (program.length * 8) data.length))
      (program.length * 8) data.length with
  | error e =>
    rw [hcheck] at h
    cases h
  | ok u => rfl

/-- The machine that `vm_create` returns. -/
theorem vmCreate_ok {vm : Vm}
    (h : vmCreate clock memcheck memorySize program data layout smpCores = .ok vm) :
    vm = { Vm.allocated clock memcheck memorySize (coreCount smpCores)
        (layout.getD (ProgramLayout.packed (program.length * 8) data.length)).textBase with
      memory := loadImage (fun _ => 0)
        (layout.getD (ProgramLayout.packed (program.length * 8) data.length)) program data
      startRealtimeNs := clock.realtime clock.readings
      startMonotonicNs := clock.monotonic (clock.readings + 1)
      hostClock := { clock with readings := clock.readings + 2 }
      io := Function.update (fun _ => 0) portScreenAttribute serialStatusTxReady } := by
  simp only [vmCreate, vmCreate_checked h] at h
  cases h
  rfl

end Created

/-- `disk_init` on an image that could be opened; it starts the worker thread. -/
def diskInit (image : DiskImage) (vm : Vm) : Vm :=
  { vm with
    disk := ⟨0, 0, 0, .free, diskCmdNone, true, false⟩
    diskWorker := .waiting
    diskImage := image
    diskSizeBytes := BitVec.ofNat 64 image.size }

/-- The calls that `main` and the self tests make before the threads start. -/
def boot (clock : HostClock) (memcheck : Bool) (image : DiskImage) (memorySize : ℕ)
    (program : List (BitVec 64)) (data : List (BitVec 8)) (layout : Option ProgramLayout)
    (smpCores : ℤ) : Except Fault Vm := do
  let vm ← vmCreate clock memcheck memorySize program data layout smpCores
  let r ← initIvt (diskInit image vm)
  pure r.2

/-- A machine that booted was created and then had its vector table initialised. -/
theorem boot_eq_ok {clock : HostClock} {memcheck : Bool} {image : DiskImage} {memorySize : ℕ}
    {program : List (BitVec 64)} {data : List (BitVec 8)} {layout : Option ProgramLayout}
    {smpCores : ℤ} {vm : Vm}
    (h : boot clock memcheck image memorySize program data layout smpCores = .ok vm) :
    ∃ vm₀, vmCreate clock memcheck memorySize program data layout smpCores = .ok vm₀ ∧
      initIvt (diskInit image vm₀) = .ok ((), vm) := by
  simp only [boot] at h
  cases hcreate : vmCreate clock memcheck memorySize program data layout smpCores with
  | error e =>
    rw [hcreate] at h
    cases h
  | ok vm₀ =>
    rw [hcreate] at h
    change (initIvt (diskInit image vm₀) >>= fun r => pure r.2) = _ at h
    cases hivt : initIvt (diskInit image vm₀) with
    | error e =>
      rw [hivt] at h
      cases h
    | ok r =>
      rw [hivt] at h
      cases h
      exact ⟨vm₀, rfl, hivt⟩

/-! ## Steps -/

inductive Event
  | handleInterrupts (c : ℕ)
  | instruction (c : ℕ)
  | diskTick
  | workerTake
  | workerTransfer (host : BounceBuffer)
  | workerComplete
  | serialRx (b : BitVec 8)
  | timerTick
  | registerIsr (intNo : BitVec 32) (isrIp : BitVec 64)

/-- The worker's steps follow its position in its loop. -/
def workerTake : VmM Unit :=
  modify fun vm => { vm with diskWorker := vm.diskWorker.take vm.disk }

def workerTransfer (host : BounceBuffer) : VmM Unit :=
  modify fun vm =>
    match vm.diskWorker with
    | .holding job => { diskTransfer job host vm with diskWorker := .transferred job }
    | _ => vm

def workerComplete : VmM Unit :=
  modify fun vm =>
    match vm.diskWorker with
    | .transferred _ => { vm with disk := vm.disk.complete, diskWorker := .waiting }
    | _ => vm

def runEvent : Event → VmM Unit
  | .handleInterrupts c => vmHandleInterrupts c
  | .instruction c => vmInstructionCase c
  | .diskTick => diskTick
  | .workerTake => workerTake
  | .workerTransfer host => workerTransfer host
  | .workerComplete => workerComplete
  | .serialRx b => do
    let _ ← vmSerialRxEnqueue b
  | .timerTick => timerTick
  | .registerIsr intNo isrIp => registerIsr intNo isrIp

/-- A core runs once it exists and, unless it is core 0, has been released. -/
def eventEnabled (vm : Vm) : Event → Prop
  | .handleInterrupts c | .instruction c =>
    c < vm.smpCores ∧ (c = 0 ∨ vm.coreReleased c = true)
  | _ => True

/-- The machine started with a given amount of memory and number of cores. -/
def machine (memorySize : ℕ) (smpCores : ℤ) : System Vm Event where
  init vm := ∃ clock memcheck image program data layout,
    boot clock memcheck image memorySize program data layout smpCores = .ok vm
  step s e t := eventEnabled s e ∧ runEvent e s = .ok ((), t)

/-! ## What the worker's steps do -/

section Worker

open Contract

variable {vm vm' : Vm} {host : BounceBuffer} {I : Vm → Prop} {E : Fault → Prop}

/-- A transfer changes the memory or the image. -/
theorem diskTransfer_frame (job : DiskJob) (host : BounceBuffer) (vm : Vm) : ∃ memory image,
    diskTransfer job host vm = { vm with memory := memory, diskImage := image } := by
  refine ⟨(diskTransfer job host vm).memory, (diskTransfer job host vm).diskImage, ?_⟩
  unfold diskTransfer
  dsimp only
  split_ifs <;> rfl

theorem workerTake_ok (h : workerTake vm = .ok ((), vm')) :
    vm' = { vm with diskWorker := vm.diskWorker.take vm.disk } :=
  ((Prod.mk.inj (Except.ok.inj h)).2).symm

theorem workerTransfer_cases (h : workerTransfer host vm = .ok ((), vm')) :
    (∃ job memory image, vm.diskWorker = .holding job ∧ vm' = { vm with
      memory := memory, diskImage := image, diskWorker := .transferred job }) ∨
    ((∀ job, vm.diskWorker ≠ .holding job) ∧ vm' = vm) := by
  have hvm := ((Prod.mk.inj (Except.ok.inj h)).2).symm
  cases hw : vm.diskWorker with
  | holding job =>
    obtain ⟨memory, image, htransfer⟩ := diskTransfer_frame job host vm
    simp only [hw, htransfer] at hvm
    exact .inl ⟨job, memory, image, rfl, hvm⟩
  | waiting | transferred job | exited =>
    simp only [hw] at hvm
    exact .inr ⟨by simp, hvm⟩

theorem workerComplete_cases (h : workerComplete vm = .ok ((), vm')) :
    (∃ job, vm.diskWorker = .transferred job ∧
      vm' = { vm with disk := vm.disk.complete, diskWorker := .waiting }) ∨
    ((∀ job, vm.diskWorker ≠ .transferred job) ∧ vm' = vm) := by
  have hvm := ((Prod.mk.inj (Except.ok.inj h)).2).symm
  cases hw : vm.diskWorker with
  | transferred job =>
    simp only [hw] at hvm
    exact .inl ⟨job, rfl, hvm⟩
  | waiting | holding job | exited =>
    simp only [hw] at hvm
    exact .inr ⟨by simp, hvm⟩

theorem safe_workerTransfer (h : ∀ vm memory image w, I vm →
    I { vm with memory := memory, diskImage := image, diskWorker := w }) (host : BounceBuffer) :
    Safe I E (workerTransfer host) := by
  intro vm hvm
  obtain ⟨vm', hrun⟩ : ∃ vm', workerTransfer host vm = .ok ((), vm') := ⟨_, rfl⟩
  rw [hrun]
  obtain ⟨job, memory, image, -, rfl⟩ | ⟨-, rfl⟩ := workerTransfer_cases hrun
  · exact h _ _ _ _ hvm
  · exact hvm

theorem safe_workerComplete (h : ∀ vm disk w, I vm → I { vm with disk := disk, diskWorker := w }) :
    Safe I E workerComplete := by
  intro vm hvm
  obtain ⟨vm', hrun⟩ : ∃ vm', workerComplete vm = .ok ((), vm') := ⟨_, rfl⟩
  rw [hrun]
  obtain ⟨job, -, rfl⟩ | ⟨-, rfl⟩ := workerComplete_cases hrun
  · exact h _ _ _ hvm
  · exact hvm

end Worker

end LampVm
