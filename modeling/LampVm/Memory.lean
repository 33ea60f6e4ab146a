import LampVm.Machine

/-!
# Address decoding, device registers and memory accesses

`mmio.h`, `mmio.c`, `memory.c` and the three register files. Thirty-two bit
reads and writes consult the device list through a one-entry cache; byte
accesses consult only the two framebuffer windows; sixty-four bit writes and
instruction fetches go straight to RAM. The host is little-endian, so the host's
own word accesses are `leNat` and `leStore`.
-/
namespace LampVm

open ByteOrder

/-! ## Device lookup -/

def MmioDevice.covers (dev : MmioDevice) (addr : BitVec 32) : Prop :=
  dev.start ≤ addr ∧ addr ≤ dev.stop

instance (dev : MmioDevice) (addr : BitVec 32) : Decidable (dev.covers addr) :=
  inferInstanceAs (Decidable (_ ∧ _))

/-- The linear scan of `find_mmio`. -/
def scanMmio (devices : List MmioDevice) (addr : BitVec 32) : Option MmioDevice :=
  devices.find? fun dev => decide (dev.covers addr)

/-- The cached device, when its remembered bounds contain the address. -/
def Vm.mmioCacheHit (vm : Vm) (addr : BitVec 32) : Option MmioDevice :=
  match vm.mmioCacheDev with
  | some cached =>
    if vm.mmioCacheStart ≤ addr ∧ addr ≤ vm.mmioCacheEnd then some cached else none
  | none => none

def findMmio (addr : BitVec 32) : VmM (Option MmioDevice) := do
  let vm ← get
  match vm.mmioCacheHit addr with
  | some cached => pure (some cached)
  | none =>
    match scanMmio vm.mmioDevices addr with
    | some dev =>
      set { vm with mmioCacheDev := some dev, mmioCacheStart := dev.start,
                    mmioCacheEnd := dev.stop }
      pure (some dev)
    | none =>
      set { vm with mmioCacheDev := none }
      pure none

/-! ## Framebuffer registers -/

/-- The framebuffer offset of an address in either window. -/
def fbByteIndex (memorySize : ℕ) (addr : BitVec 32) : Option ℕ :=
  if memorySize ≤ addr.toNat ∧ addr.toNat < memorySize + fbSize then
    some (addr.toNat - memorySize)
  else if fbLegacyBase ≤ addr.toNat ∧ addr.toNat < fbLegacyBase + fbSize then
    some (addr.toNat - fbLegacyBase)
  else none

def fbPixelIndex (memorySize : ℕ) (addr : BitVec 32) : ℕ :=
  match fbByteIndex memorySize addr with
  | some i => i / 4
  | none => 0

def fbRead32 (addr : BitVec 32) : VmM (BitVec 32) := do
  let vm ← get
  let i := fbPixelIndex vm.memorySize addr
  checkIndex .fb (fbWidth * fbHeight) i
  pure (vm.fb i)

def fbWrite32 (addr value : BitVec 32) : VmM Unit := do
  let vm ← get
  let i := fbPixelIndex vm.memorySize addr
  checkIndex .fb (fbWidth * fbHeight) i
  set { vm with fb := Function.update vm.fb i value }

/-- Byte `i` of the framebuffer seen as bytes of a little-endian host. -/
def fbReadByte (i : ℕ) : VmM (BitVec 8) := do
  let vm ← get
  checkIndex .fb fbSize i
  pure ((vm.fb (i / 4) >>> (8 * (i % 4))).setWidth 8)

def fbWriteByte (i : ℕ) (value : BitVec 8) : VmM Unit := do
  let vm ← get
  checkIndex .fb fbSize i
  let sh := 8 * (i % 4)
  let word := (vm.fb (i / 4) &&& ~~~((0xFF : BitVec 32) <<< sh)) ||| (value.setWidth 32 <<< sh)
  set { vm with fb := Function.update vm.fb (i / 4) word }

/-! ## Clock and timer registers -/

def hostUnixTimeNs : VmM (BitVec 64) := do
  let vm ← get
  let clock := vm.hostClock
  set { vm with hostClock := { clock with readings := clock.readings + 1 } }
  pure (clock.realtime clock.readings)

def hostMonotonicTimeNs : VmM (BitVec 64) := do
  let vm ← get
  let clock := vm.hostClock
  set { vm with hostClock := { clock with readings := clock.readings + 1 } }
  pure (clock.monotonic clock.readings)

inductive TimerSource
  | realtime | monotonic | boot
  deriving DecidableEq, Repr

structure TimeStruct where
  lo : BitVec 32
  hi : BitVec 32

def TimeStruct.ofNs (ns : BitVec 64) : TimeStruct :=
  ⟨ns.setWidth 32, (ns >>> 32).setWidth 32⟩

/-- Reading a low word latches the clock for the later read of its high word. -/
def getTimer (timer : TimerSource) : VmM TimeStruct :=
  match timer with
  | .realtime => do
    let now ← hostUnixTimeNs
    modify fun vm => { vm with latchedRealtime := now }
    pure (.ofNs now)
  | .monotonic => do
    let now ← hostMonotonicTimeNs
    modify fun vm => { vm with latchedMonotonic := now }
    pure (.ofNs now)
  | .boot => do
    let now ← hostMonotonicTimeNs
    let vm ← get
    let since := now - vm.startMonotonicNs
    set { vm with latchedBoottime := since }
    pure (.ofNs since)

def timeRead32 (addr : BitVec 32) : VmM (BitVec 32) := do
  let vm ← get
  match (addr - BitVec.ofNat 32 timeBase).toNat with
  | 0x00 => pure 1
  | 0x04 => do pure (← getTimer .realtime).lo
  | 0x08 => pure ((vm.latchedRealtime >>> 32).setWidth 32)
  | 0x0C => do pure (← getTimer .monotonic).lo
  | 0x10 => pure ((vm.latchedMonotonic >>> 32).setWidth 32)
  | 0x14 => do pure (← getTimer .boot).lo
  | 0x18 => pure ((vm.latchedBoottime >>> 32).setWidth 32)
  | _ => pure 0

abbrev timerMinPeriodUs : BitVec 32 := 1000

def handleProgrammableTick (value : BitVec 32) : VmM Unit :=
  if value = 0 then
    modify fun vm =>
      { vm with timerEnabled := false, timerPeriodUs := 0, timerNextDeadlineNs := 0 }
  else
    let period := if value < timerMinPeriodUs then timerMinPeriodUs else value
    modify fun vm =>
      { vm with timerPeriodUs := period, timerNextDeadlineNs := 0, timerEnabled := true }

def timeWrite32 (addr value : BitVec 32) : VmM Unit :=
  if addr = BitVec.ofNat 32 timeBase then handleProgrammableTick value
  else modify fun vm => { vm with halted := true }

/-! ## System information registers -/

def sysinfoFeatureBits (vm : Vm) : BitVec 32 :=
  let bits : BitVec 32 := 0x17
  if vm.smpCores > 1 then bits ||| 0x8 else bits

def sysinfoRead32 (addr : BitVec 32) : VmM (BitVec 32) := do
  let vm ← get
  let offset := (addr - BitVec.ofNat 32 sysinfoBase).toNat
  if offset = 0x00 then pure 0x31494D56
  else if 0x04 ≤ offset ∧ offset < 0x14 ∧ offset % 4 = 0 then
    pure (vm.sysinfoVendorWords ((offset - 0x04) / 4))
  else match offset with
    | 0x14 => pure (BitVec.ofNat 32 vm.memorySize)
    | 0x18 => pure (BitVec.ofNat 32 (vm.memorySize / 2 ^ 32))
    | 0x1C => pure (vm.diskSizeBytes.setWidth 32)
    | 0x20 => pure ((vm.diskSizeBytes >>> 32).setWidth 32)
    | 0x24 => pure (BitVec.ofNat 32 vm.smpCores)
    | 0x28 => pure 2
    | 0x2C => pure 1
    | 0x30 => pure 1
    | 0x34 => pure 32
    | 0x38 => pure 4096
    | 0x3C => pure 1000000000
    | 0x40 => pure (sysinfoFeatureBits vm)
    | 0x44 => pure (BitVec.ofNat 32 fbWidth)
    | 0x48 => pure (BitVec.ofNat 32 fbHeight)
    | 0x4C => pure 4
    | 0x50 => pure (BitVec.ofNat 32 (fbWidth * 4))
    | 0x54 => pure (vm.startRealtimeNs.setWidth 32)
    | 0x58 => pure ((vm.startRealtimeNs >>> 32).setWidth 32)
    | _ => pure 0

def sysinfoWrite32 (_addr _value : BitVec 32) : VmM Unit :=
  modify fun vm => { vm with halted := true }

def MmioOps.read32 : MmioOps → BitVec 32 → VmM (BitVec 32)
  | .fb => fbRead32
  | .time => timeRead32
  | .sysinfo => sysinfoRead32

def MmioOps.write32 : MmioOps → BitVec 32 → BitVec 32 → VmM Unit
  | .fb => fbWrite32
  | .time => timeWrite32
  | .sysinfo => sysinfoWrite32

def vmMmioRead32 (addr : BitVec 32) : VmM (BitVec 32) := do
  match ← findMmio addr with
  | some dev => dev.ops.read32 addr
  | none => vmPanic (.invalidMmio .read32 addr)

/-! ## Accesses of `memory.c` -/

def inRam (vm : Vm) (addr : BitVec 32) (size : ℕ) : Prop :=
  addr.toNat + size ≤ vm.memorySize

instance (vm : Vm) (addr : BitVec 32) (size : ℕ) : Decidable (inRam vm addr size) :=
  inferInstanceAs (Decidable (_ ≤ _))

/-- `vm->memory[i]` as an rvalue. -/
def loadByte (i : ℕ) : VmM (BitVec 8) := do
  let vm ← get
  checkIndex .memory vm.memorySize i
  pure (vm.memory i)

/-- `vm->memory[i] = value`. -/
def storeByte (i : ℕ) (value : BitVec 8) : VmM Unit := do
  let vm ← get
  checkIndex .memory vm.memorySize i
  set { vm with memory := Function.update vm.memory i value }

def requireRam (op : AccessName) (addr : BitVec 32) (size : ℕ) : VmM Unit := do
  let vm ← get
  if inRam vm addr size then pure () else vmPanic (.addressOutOfBounds op addr)

def memcheckAlign (op : AccessName) (align : ℕ) (addr : BitVec 32) : VmM Unit := do
  let vm ← get
  if vm.memcheck ∧ addr.toNat % align ≠ 0 then vmPanic (.unalignedAddress op addr) else pure ()

def vmRead8 (addr : BitVec 32) : VmM (BitVec 8) := do
  let vm ← get
  match fbByteIndex vm.memorySize addr with
  | some i => fbReadByte i
  | none =>
    requireRam .read8 addr 1
    loadByte addr.toNat

def vmRead32 (addr : BitVec 32) : VmM (BitVec 32) := do
  memcheckAlign .read32 4 addr
  match ← findMmio addr with
  | some _ => vmMmioRead32 addr
  | none =>
    requireRam .read32 addr 4
    let b0 ← loadByte (addr + 0).toNat
    let b1 ← loadByte (addr + 1).toNat
    let b2 ← loadByte (addr + 2).toNat
    let b3 ← loadByte (addr + 3).toNat
    pure (0 ||| b0.setWidth 32 <<< 0 ||| b1.setWidth 32 <<< 8 |||
      b2.setWidth 32 <<< 16 ||| b3.setWidth 32 <<< 24)

def vmRead64 (addr : BitVec 32) : VmM (BitVec 64) := do
  memcheckAlign .read64 8 addr
  let lo ← vmRead32 addr
  let hi ← vmRead32 (addr + 4)
  pure (lo.setWidth 64 ||| hi.setWidth 64 <<< 32)

def vmWrite8 (addr : BitVec 32) (value : BitVec 8) : VmM Unit := do
  let vm ← get
  match fbByteIndex vm.memorySize addr with
  | some i => fbWriteByte i value
  | none =>
    requireRam .write8 addr 1
    storeByte addr.toNat value

def vmWrite32 (addr value : BitVec 32) : VmM Unit := do
  memcheckAlign .write32 4 addr
  match ← findMmio addr with
  | some dev => dev.ops.write32 addr value
  | none =>
    requireRam .write32 addr 4
    storeByte (addr + 0).toNat ((value >>> 0 &&& 0xFF).setWidth 8)
    storeByte (addr + 1).toNat ((value >>> 8 &&& 0xFF).setWidth 8)
    storeByte (addr + 2).toNat ((value >>> 16 &&& 0xFF).setWidth 8)
    storeByte (addr + 3).toNat ((value >>> 24 &&& 0xFF).setWidth 8)

/-- Sixty-four bit writes never look at the device list. -/
def vmWrite64 (addr : BitVec 32) (value : BitVec 64) : VmM Unit := do
  memcheckAlign .write64 8 addr
  requireRam .write64 addr 8
  storeByte (addr + 0).toNat ((value >>> 0 &&& 0xFF).setWidth 8)
  storeByte (addr + 1).toNat ((value >>> 8 &&& 0xFF).setWidth 8)
  storeByte (addr + 2).toNat ((value >>> 16 &&& 0xFF).setWidth 8)
  storeByte (addr + 3).toNat ((value >>> 24 &&& 0xFF).setWidth 8)
  storeByte (addr + 4).toNat ((value >>> 32 &&& 0xFF).setWidth 8)
  storeByte (addr + 5).toNat ((value >>> 40 &&& 0xFF).setWidth 8)
  storeByte (addr + 6).toNat ((value >>> 48 &&& 0xFF).setWidth 8)
  storeByte (addr + 7).toNat ((value >>> 56 &&& 0xFF).setWidth 8)

/-! ## Atomic accesses -/

/-- The tests of `atomic32_ptr_or_panic`; on return the pointer is valid. -/
def atomic32PtrOrPanic (op : AccessName) (addr : BitVec 32) : VmM Unit := do
  if addr.toNat % 4 ≠ 0 then vmPanic (.unalignedAddress op addr)
  requireRam op addr 4
  match ← findMmio addr with
  | some _ => vmPanic (.atomicOnMmio op addr)
  | none => pure ()

/-- The host's own load of a 32-bit word of RAM. -/
def hostLoad32 (addr : BitVec 32) : VmM (BitVec 32) := do
  let vm ← get
  checkIndex .memory vm.memorySize (addr.toNat + 3)
  pure (BitVec.ofNat 32 (leNat vm.memory addr.toNat 4))

def hostStore32 (addr value : BitVec 32) : VmM Unit := do
  let vm ← get
  checkIndex .memory vm.memorySize (addr.toNat + 3)
  set { vm with memory := leStore vm.memory addr.toNat 4 value.toNat }

def vmAtomicLoad32Acquire (addr : BitVec 32) : VmM (BitVec 32) := do
  atomic32PtrOrPanic .ldar addr
  hostLoad32 addr

def vmAtomicStore32Release (addr value : BitVec 32) : VmM Unit := do
  atomic32PtrOrPanic .stlr addr
  hostStore32 addr value

def vmAtomicExchange32Seqcst (addr value : BitVec 32) : VmM (BitVec 32) := do
  atomic32PtrOrPanic .xchg addr
  let old ← hostLoad32 addr
  hostStore32 addr value
  pure old

def vmAtomicFetchAdd32Seqcst (addr value : BitVec 32) : VmM (BitVec 32) := do
  atomic32PtrOrPanic .xadd addr
  let old ← hostLoad32 addr
  hostStore32 addr (old + value)
  pure old

/-- Returns the observed value and whether the exchange took place. -/
def vmAtomicCompareExchange32Seqcst (addr expected desired : BitVec 32) :
    VmM (BitVec 32 × Bool) := do
  atomic32PtrOrPanic .cas addr
  let observed ← hostLoad32 addr
  if observed = expected then
    hostStore32 addr desired
    pure (observed, true)
  else pure (observed, false)

/-! ## Instruction fetch -/

/-- `FETCH64`: a RAM access that bypasses the device list. -/
def fetch64 (c : ℕ) : VmM (BitVec 64) := do
  let cpu ← getCpu c
  let ip : BitVec 32 := BitVec.ofNat 32 cpu.ip
  let vm ← get
  if ip.toNat + 8 > vm.memorySize then vmPanic .ipOutOfBounds
  modifyCpu c fun cpu => { cpu with lastIp := ip.toNat }
  checkIndex .memory vm.memorySize (ip.toNat + 7)
  let inst := BitVec.ofNat 64 (leNat vm.memory ip.toNat 8)
  modifyCpu c fun cpu => { cpu with ip := (ip + 8).toNat }
  pure inst

/-- The instruction word at an address of RAM. -/
def Vm.wordAt (vm : Vm) (a : BitVec 32) : BitVec 64 := BitVec.ofNat 64 (leNat vm.memory a.toNat 8)

/-- The instruction pointer as `FETCH64` truncates it. -/
def Vcpu.fetchIp (cpu : Vcpu) : BitVec 32 := BitVec.ofNat 32 cpu.ip

/-- The state in which a fetched instruction executes. -/
def Vm.fetched (vm : Vm) (c : ℕ) : Vm :=
  let ip := (vm.cpus c).fetchIp
  vm.setCpu c { vm.cpus c with lastIp := ip.toNat, ip := (ip + 8).toNat }

theorem fetch64_of_inRam {c : ℕ} {vm : Vm} (h : inRam vm (vm.cpus c).fetchIp 8) :
    fetch64 c vm = .ok (vm.wordAt (vm.cpus c).fetchIp, vm.fetched c) := by
  have h' : (BitVec.ofNat 32 (vm.cpus c).ip).toNat + 8 ≤ vm.memorySize := h
  have hle : ¬ (BitVec.ofNat 32 (vm.cpus c).ip).toNat + 8 > vm.memorySize := by omega
  have hlt : (BitVec.ofNat 32 (vm.cpus c).ip).toNat + 7 < vm.memorySize := by omega
  simp only [fetch64, Contract.bind_apply, getCpu_apply, Contract.get_apply, hle, if_false,
    Contract.pure_apply, modifyCpu_apply, checkIndex_of_lt hlt]
  simp [Vm.wordAt, Vm.fetched, Vcpu.fetchIp]

theorem fetch64_of_not_inRam {c : ℕ} {vm : Vm} (h : ¬ inRam vm (vm.cpus c).fetchIp 8) :
    fetch64 c vm = .error (.panic .ipOutOfBounds) := by
  have h' : ¬ (BitVec.ofNat 32 (vm.cpus c).ip).toNat + 8 ≤ vm.memorySize := h
  have hgt : (BitVec.ofNat 32 (vm.cpus c).ip).toNat + 8 > vm.memorySize := by omega
  simp only [fetch64, Contract.bind_apply, getCpu_apply, Contract.get_apply, hgt, if_true,
    vmPanic_apply]

end LampVm
