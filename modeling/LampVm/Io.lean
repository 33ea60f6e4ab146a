import LampVm.Interrupt

/-!
# Ports, the serial line and the disk

`io.c` and `disk.c`. The guest reaches the disk through port writes, the worker
thread copies the command registers under the disk's mutex, moves the data, and
reports completion under the mutex again; core 0 turns a completed command into
an interrupt between two instructions. The serial line and the timer are fed by
threads of their own.
-/
namespace LampVm

open ByteOrder

/-! ## Disk commands -/

/-- The locked region of `disk_cmd`. -/
def Disk.cmd (d : Disk) (value : BitVec 32) : Disk :=
  if d.status = .busy then d
  else { d with currentCmd := value, status := .busy, opComplete := false }

def diskCmd (value : BitVec 32) : VmM Unit :=
  modify fun vm => { vm with disk := vm.disk.cmd value }

/-- The locked region of `disk_tick`; it reports whether the interrupt is raised. -/
def Disk.tick (d : Disk) : Disk × Bool :=
  if d.opComplete then ({ d with status := .free, opComplete := false }, true) else (d, false)

def diskTick : VmM Unit := do
  let vm ← get
  if vm.disk.status = .free then pure ()
  else
    set { vm with disk := vm.disk.tick.1 }
    if vm.disk.tick.2 then triggerInterrupt intDiskComplete else pure ()

/-! ## Disk worker -/

/-- The first locked region of `disk_worker`: nothing happens while it waits for
a command, otherwise it copies the command and its registers. -/
def DiskWorker.take (d : Disk) : DiskWorker → DiskWorker
  | .waiting =>
    if d.currentCmd = diskCmdNone ∧ d.threadRunning then .waiting
    else if ¬ d.threadRunning then .exited
    else .holding ⟨d.currentCmd, d.lba, d.memAddr, d.count⟩
  | w => w

/-- The second locked region of `disk_worker`. -/
def Disk.complete (d : Disk) : Disk :=
  { d with currentCmd := diskCmdNone, opComplete := true }

def isValidDma (memorySize addr count : ℕ) : Bool :=
  !decide (addr + count * diskSectorSize > memorySize)

/-- What the host decides during a transfer: whether the bounce buffer could be
allocated, and the bytes an allocated buffer holds before it is filled. -/
structure BounceBuffer where
  allocated : Bool
  contents : Bytes

/-- `fread` of `count` sectors at byte `pos` into the bounce buffer: bytes beyond
the end of the file are not written. -/
def fread (image : DiskImage) (pos n : ℕ) (buf : Bytes) : Bytes :=
  fun i => if i < n ∧ pos + i < image.size then image.bytes (pos + i) else buf i

def fwrite (image : DiskImage) (pos n : ℕ) (buf : Bytes) : DiskImage where
  size := if n = 0 then image.size else max image.size (pos + n)
  bytes := fun x =>
    if pos ≤ x ∧ x < pos + n then buf (x - pos)
    else if image.size ≤ x then 0 else image.bytes x

/-- `memcpy(&vm->memory[addr], buf, n)`. -/
def copyToRam (memory : Bytes) (addr n : ℕ) (buf : Bytes) : Bytes :=
  fun x => if addr ≤ x ∧ x < addr + n then buf (x - addr) else memory x

/-- The unlocked part of the worker's loop. -/
def diskTransfer (job : DiskJob) (host : BounceBuffer) (vm : Vm) : Vm :=
  let addr := job.memAddr.toNat
  let bytes := job.count.toNat * diskSectorSize
  let pos := job.lba.toNat * diskSectorSize
  if ¬ isValidDma vm.memorySize addr job.count.toNat then vm
  else if job.cmd = diskCmdRead then
    if host.allocated then
      { vm with memory := copyToRam vm.memory addr bytes
                  (fread vm.diskImage pos bytes host.contents) }
    else vm
  else if job.cmd = diskCmdWrite then
    if host.allocated then
      { vm with diskImage := fwrite vm.diskImage pos bytes fun i => vm.memory (addr + i) }
    else vm
  else vm

/-! ## Serial input -/

abbrev serialStatusRxReady : BitVec 32 := 0x01
abbrev serialStatusTxReady : BitVec 32 := 0x02
abbrev serialCtrlRxIntEnable : BitVec 32 := 0x01

/-- `(io[SCREEN_ATTRIBUTE] >> 8) & SERIAL_CTRL_RX_INT_ENABLE` for a C `int`. -/
def rxIntEnabled (attr : BitVec 32) : Bool :=
  attr.sshiftRight 8 &&& serialCtrlRxIntEnable ≠ 0

def serialNext (i : BitVec 16) : BitVec 16 := (i + 1) &&& 0xFF

def readFifo (i : ℕ) : VmM (BitVec 8) := do
  let vm ← get
  checkIndex .serialRxFifo 256 i
  pure (vm.serialRxFifo i)

def vmSerialRxEnqueue (b : BitVec 8) : VmM Bool := do
  let vm ← get
  let head := vm.serialRxHead
  let tail := vm.serialRxTail
  let next := serialNext head
  if next = tail then pure false
  else
    let wasEmpty := head = tail
    checkIndex .serialRxFifo 256 head.toNat
    modify fun vm =>
      { vm with serialRxFifo := Function.update vm.serialRxFifo head.toNat b,
                serialRxHead := next }
    if wasEmpty then
      let front ← readFifo tail.toNat
      modify fun vm =>
        { vm with io := Function.update vm.io portKeyboard (front.setWidth 32) }
      modify fun vm =>
        { vm with io := Function.update vm.io portScreenAttribute
                    (vm.io portScreenAttribute ||| serialStatusRxReady) }
      let vm ← get
      if rxIntEnabled (vm.io portScreenAttribute) then triggerInterrupt intSerial else pure ()
    pure true

/-! ## Timer thread -/

/-- One iteration of the loop of `timer_tick`: while the programmed deadline lies
ahead the thread only sleeps, afterwards it raises the timer vector once and moves
the deadline past the present. -/
def timerTick : VmM Unit := do
  let vm ← get
  if vm.halted then pure ()
  else if ¬ vm.timerEnabled then modify fun vm => { vm with timerNextDeadlineNs := 0 }
  else if vm.timerPeriodUs = 0 then
    modify fun vm => { vm with timerEnabled := false, timerNextDeadlineNs := 0 }
  else
    let step : BitVec 64 := vm.timerPeriodUs.setWidth 64 * 1000
    let now ← hostMonotonicTimeNs
    let deadline := if vm.timerNextDeadlineNs = 0 then now + step else vm.timerNextDeadlineNs
    modify fun vm => { vm with timerNextDeadlineNs := deadline }
    if now < deadline then pure ()
    else
      triggerInterrupt intTimer
      let deadline := deadline + step
      let now ← hostMonotonicTimeNs
      let deadline :=
        if deadline < now then deadline + step * ((now - deadline) / step + 1) else deadline
      modify fun vm => { vm with timerNextDeadlineNs := deadline }

/-! ## Port writes -/

def setIo (i : ℕ) (value : BitVec 32) : VmM Unit := do
  checkIndex .io ioSize i
  modify fun vm => { vm with io := Function.update vm.io i value }

def acceptIo (addr : ℤ) (value : BitVec 32) : VmM Unit := do
  if addr < 0 ∨ addr ≥ ioSize then pure ()
  else
    let port := addr.toNat
    if port = portScreen then
      modify fun vm => { vm with stdout := value.setWidth 8 :: vm.stdout }
      setIo portScreen value
    else if port = portScreenAttribute then
      let vm ← get
      setIo portScreenAttribute
        ((vm.io portScreenAttribute &&& 0xFF) ||| (value &&& 0xFF) <<< 8)
    else if port = portDiskCmd then
      setIo portDiskCmd value
      diskCmd value
    else if port = portDiskLba then
      modify fun vm => { vm with disk := { vm.disk with lba := value } }
      setIo portDiskLba value
    else if port = portDiskMem then
      modify fun vm => { vm with disk := { vm.disk with memAddr := value } }
      setIo portDiskMem value
    else if port = portDiskCount then
      modify fun vm => { vm with disk := { vm.disk with count := value } }
      setIo portDiskCount value
    else setIo port value

end LampVm
