import LampVm.Syscall

/-!
# The kernel's clocks

The clock calls of `syscall_dispatch`. The clock device is read as 64-bit nanoseconds; the
real time that the calls report is that reading moved by an offset, which the kernel keeps
as a sign and a magnitude. Seconds and nanoseconds in the caller's memory are 32-bit
integers.
-/
namespace LampVm

open ByteOrder

abbrev nsPerSec : BitVec 64 := 1000000000
abbrev nsPerUs : BitVec 64 := 1000

/-- What `mmio_read_time_ns` finds at the three clocks of the device. -/
structure RawClocks where
  realtime : BitVec 64
  monotonic : BitVec 64
  boot : BitVec 64
  deriving DecidableEq, Repr

/-- `g_realtime_offset_neg` and `g_realtime_offset_mag_ns`. -/
structure RealtimeOffset where
  neg : Bool
  magNs : BitVec 64
  deriving DecidableEq, Repr

/-- `syscall_timespec32_t`. -/
structure Timespec where
  sec : BitVec 32
  nsec : BitVec 32
  deriving DecidableEq, Repr

/-- `syscall_timeval32_t`. -/
structure Timeval where
  sec : BitVec 32
  usec : BitVec 32
  deriving DecidableEq, Repr

/-! ## Conversions -/

def clockApplyRealtimeOffset (offset : RealtimeOffset) (rawNs : BitVec 64) : BitVec 64 :=
  if offset.neg = false then
    let maxU64 : BitVec 64 := ~~~0
    if rawNs > maxU64 - offset.magNs then maxU64 else rawNs + offset.magNs
  else if rawNs ≤ offset.magNs then 0
  else rawNs - offset.magNs

def timeNsToTimespec (ns : BitVec 64) : Option Timespec :=
  let sec64 := ns / nsPerSec
  if sec64 > 0x7FFFFFFF then none
  else some ⟨sec64.setWidth 32, (ns % nsPerSec).setWidth 32⟩

def timeNsToTimeval (ns : BitVec 64) : Option Timeval :=
  let sec64 := ns / nsPerSec
  if sec64 > 0x7FFFFFFF then none
  else some ⟨sec64.setWidth 32, (ns % nsPerSec / nsPerUs).setWidth 32⟩

/-- The test of a time in the caller's memory, common to the calls that take one. -/
def Timespec.valid (ts : Timespec) : Bool :=
  ¬ (ts.sec.toInt < 0 ∨ ts.nsec.toInt < 0 ∨ ts.nsec.toInt ≥ 1000000000)

def timespecToNs (ts : Timespec) : Option (BitVec 64) :=
  if ts.valid then some (ts.sec.setWidth 64 * nsPerSec + ts.nsec.setWidth 64) else none

/-! ## Clock identifiers -/

inductive ClockSource
  | realtime | monotonic | boot
  deriving DecidableEq, Repr

/-- `SYS_CLOCK_REALTIME`, `SYS_CLOCK_MONOTONIC`, and two numbers for the time since boot. -/
def clockSource (clockId : BitVec 32) : Option ClockSource :=
  if clockId = 0 then some .realtime
  else if clockId = 1 then some .monotonic
  else if clockId = 2 ∨ clockId = 7 then some .boot
  else none

def clockidIsSupported (clockId : BitVec 32) : Bool := (clockSource clockId).isSome

def clockidReadTimeNs (offset : RealtimeOffset) (raw : RawClocks) (clockId : BitVec 32) :
    Option (BitVec 64) :=
  (clockSource clockId).map fun source =>
    match source with
    | .realtime => clockApplyRealtimeOffset offset raw.realtime
    | .monotonic => raw.monotonic
    | .boot => raw.boot

/-! ## The caller's memory -/

/-- Two words, as the three routines that store a time write them. -/
def abiUserWritePair (addr : BitVec 32) (first second : BitVec 32) (memory : Bytes) :
    Option Bytes :=
  if ¬ abiPtrRangeOk addr 8 then none
  else some (leStore (leStore memory addr.toNat 4 first.toNat) (addr + 4).toNat 4 second.toNat)

def abiUserReadTimespec (addr : BitVec 32) (memory : Bytes) : Option Timespec :=
  if ¬ abiPtrRangeOk addr 8 then none
  else some ⟨BitVec.ofNat 32 (leNat memory addr.toNat 4),
    BitVec.ofNat 32 (leNat memory (addr + 4).toNat 4)⟩

def abiUserWriteTimespec (addr : BitVec 32) (ts : Timespec) (memory : Bytes) : Option Bytes :=
  abiUserWritePair addr ts.sec ts.nsec memory

def abiUserWriteTimeval (addr : BitVec 32) (tv : Timeval) (memory : Bytes) : Option Bytes :=
  abiUserWritePair addr tv.sec tv.usec memory

def abiUserWriteTimespecZero (addr : BitVec 32) (memory : Bytes) : Option Bytes :=
  if addr = 0 then some memory else abiUserWritePair addr 0 0 memory

/-! ## The calls -/

/-- The end of a call that stores something: its result and the memory. -/
def storeResult (stored : Option Bytes) (memory : Bytes) : SyscallResult × Bytes :=
  match stored with
  | none => (syscallFailure .efault, memory)
  | some memory => (⟨0, .ok⟩, memory)

def sysClockGetres (clockId resAddr : BitVec 32) (memory : Bytes) : SyscallResult × Bytes :=
  if ¬ clockidIsSupported clockId then (syscallFailure .einval, memory)
  else if resAddr ≠ 0 then storeResult (abiUserWriteTimespec resAddr ⟨0, 1⟩ memory) memory
  else (⟨0, .ok⟩, memory)

def sysClockGettime (offset : RealtimeOffset) (raw : RawClocks) (clockId tsAddr : BitVec 32)
    (memory : Bytes) : SyscallResult × Bytes :=
  if tsAddr = 0 then (syscallFailure .efault, memory)
  else
    match clockidReadTimeNs offset raw clockId with
    | none => (syscallFailure .einval, memory)
    | some ns =>
      match timeNsToTimespec ns with
      | none => (syscallFailure .eoverflow, memory)
      | some ts => storeResult (abiUserWriteTimespec tsAddr ts memory) memory

/-- The offset that makes a raw reading show the target. -/
def realtimeOffsetTo (targetNs rawNs : BitVec 64) : RealtimeOffset :=
  if targetNs ≥ rawNs then ⟨false, targetNs - rawNs⟩ else ⟨true, rawNs - targetNs⟩

def sysClockSettime (raw : RawClocks) (clockId tpAddr : BitVec 32) (memory : Bytes)
    (offset : RealtimeOffset) : SyscallResult × RealtimeOffset :=
  if clockId = 1 then (syscallFailure .einval, offset)
  else if clockId ≠ 0 then (syscallFailure .einval, offset)
  else if tpAddr = 0 then (syscallFailure .efault, offset)
  else
    match abiUserReadTimespec tpAddr memory with
    | none => (syscallFailure .efault, offset)
    | some tp =>
      match timespecToNs tp with
      | none => (syscallFailure .einval, offset)
      | some targetNs => (⟨0, .ok⟩, realtimeOffsetTo targetNs raw.realtime)

/-- The time zone, when it is asked for, is two zero words; the first may be stored
although the second cannot be. -/
def gettimeofdayZone (tzAddr : BitVec 32) (memory : Bytes) : SyscallResult × Bytes :=
  if tzAddr ≠ 0 then
    match abiUserWrite32 tzAddr 0 memory with
    | none => (syscallFailure .efault, memory)
    | some memory => storeResult (abiUserWrite32 (tzAddr + 4) 0 memory) memory
  else (⟨0, .ok⟩, memory)

def sysGettimeofday (offset : RealtimeOffset) (raw : RawClocks) (tvAddr tzAddr : BitVec 32)
    (memory : Bytes) : SyscallResult × Bytes :=
  if tvAddr = 0 then (syscallFailure .efault, memory)
  else
    match timeNsToTimeval (clockApplyRealtimeOffset offset raw.realtime) with
    | none => (syscallFailure .eoverflow, memory)
    | some tv =>
      match abiUserWriteTimeval tvAddr tv memory with
      | none => (syscallFailure .efault, memory)
      | some memory => gettimeofdayZone tzAddr memory

end LampVm
