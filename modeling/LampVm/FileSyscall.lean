import LampVm.Console
import LampVm.Syscall

/-!
# System calls on descriptors

`SYS_READ`, and `SYS_POLL` up to the point where it would wait. A read from the console
goes through a buffer of 64 bytes on the kernel's stack. A poll visits the entries of an
array in the caller's memory and stores what it finds in each.
-/
namespace LampVm

open ByteOrder

structure IoState where
  tty : Tty
  memory : Bytes

/-! ## Descriptors of the current task -/

/-- The table of the running task; `none` is the null pointer. -/
def Tty.fds (t : Tty) : Option FdTable :=
  (schedCurrentSlot t.sched).map fun i => (t.sched.tasks i).fds

def fdIsValid (fd : BitVec 32) (t : Tty) : Bool := t.fds.any (·.isOpen fd)

def fdType (fd : BitVec 32) (t : Tty) : OfileType :=
  match t.fds with
  | none => .none
  | some table => table.fdType fd

def fdSupportsRead (fd : BitVec 32) (t : Tty) : Bool := t.fds.any (·.canRead fd)
def fdSupportsWrite (fd : BitVec 32) (t : Tty) : Bool := t.fds.any (·.canWrite fd)
def fdIsNonblock (fd : BitVec 32) (t : Tty) : Bool := t.fds.any (·.isNonblock fd)

def fdWaitsConsoleRead (fd : BitVec 32) (t : Tty) : Bool :=
  fdType fd t = .stdin ∨ fdType fd t = .devTty

def fdReadReady (fd : BitVec 32) (t : Tty) : Bool :=
  if ¬ fdSupportsRead fd t then false
  else if fdType fd t = .stdin ∨ fdType fd t = .devTty then consoleCanRead t.console
  else fdType fd t = .devNull ∨ fdType fd t = .devZero

def fdWriteReady (fd : BitVec 32) (t : Tty) : Bool :=
  if ¬ fdSupportsWrite fd t then false else fdType fd t ≠ .socket

/-! ## The caller's memory -/

def storeBytes (memory : Bytes) (addr : ℕ) (src : List (BitVec 8)) : Bytes := fun a =>
  if addr ≤ a ∧ a < addr + src.length then src.getD (a - addr) 0 else memory a

def abiUserWriteBytes (addr : BitVec 32) (src : List (BitVec 8)) (memory : Bytes) : Option Bytes :=
  if src.length = 0 then some memory
  else if abiPtrRangeOk addr (BitVec.ofNat 32 src.length) then
    some (storeBytes memory addr.toNat src)
  else none

/-! ## `SYS_READ` -/

abbrev sysIoNonblock : BitVec 32 := 1

/-- `sizeof(byte_buf)`. -/
abbrev byteBufSize : BitVec 32 := 64

/-- How many bytes the next round of a copy asks for. -/
def chunkSize (len copied : BitVec 32) : BitVec 32 :=
  if len - copied > byteBufSize then byteBufSize else len - copied

/-- The loop for `/dev/zero`. Each round copies at least one byte, so `len` rounds are
enough. -/
def readZeros (bufAddr len : BitVec 32) : ℕ → BitVec 32 → Bytes → SyscallResult × Bytes
  | 0, copied, memory => (⟨copied, .ok⟩, memory)
  | n + 1, copied, memory =>
    if copied < len then
      let want := chunkSize len copied
      match abiUserWriteBytes (bufAddr + copied) (List.replicate want.toNat 0) memory with
      | none => (syscallFailure .efault, memory)
      | some memory => readZeros bufAddr len n (copied + want) memory
    else (⟨copied, .ok⟩, memory)

/-- The loop for the console; rounds after the first do not wait. -/
def readConsole (bufAddr len : BitVec 32) (nonblock : Bool) :
    ℕ → BitVec 32 → IoState → SyscallResult × IoState
  | 0, copied, s => (⟨copied, .ok⟩, s)
  | n + 1, copied, s =>
    if copied < len then
      let want := chunkSize len copied
      let (rc, bytes, tty) := consoleRead want (if copied ≠ 0 then true else nonblock) s.tty
      let s := { s with tty := tty }
      if rc = consoleIoBlocked then
        if copied = 0 then (syscallFailure .eagain, s) else (⟨copied, .ok⟩, s)
      else if rc = 0 then
        if copied ≠ 0 then (⟨copied, .ok⟩, s)
        else if nonblock then (syscallFailure .eagain, s)
        else (⟨0, .ok⟩, s)
      else
        match abiUserWriteBytes (bufAddr + copied) bytes s.memory with
        | none => (syscallFailure .efault, s)
        | some memory =>
          let s := { s with memory := memory }
          let got := BitVec.ofInt 32 rc
          if got < want then (⟨copied + got, .ok⟩, s)
          else readConsole bufAddr len nonblock n (copied + got) s
    else (⟨copied, .ok⟩, s)

def sysRead (fd bufAddr len flags : BitVec 32) (s : IoState) : SyscallResult × IoState :=
  let nonblock := fdIsNonblock fd s.tty || (flags &&& sysIoNonblock ≠ 0)
  if ¬ fdSupportsRead fd s.tty then (syscallFailure .ebadf, s)
  else if len = 0 then (⟨0, .ok⟩, s)
  else if bufAddr = 0 ∨ ¬ abiPtrRangeOk bufAddr len then (syscallFailure .efault, s)
  else if fdType fd s.tty = .devNull then (⟨0, .ok⟩, s)
  else if fdType fd s.tty = .devZero then
    let (r, memory) := readZeros bufAddr len len.toNat 0 s.memory
    (r, { s with memory := memory })
  else if fdType fd s.tty = .socket then (syscallFailure .enotconn, s)
  else readConsole bufAddr len nonblock len.toNat 0 s

/-! ## `SYS_POLL` -/

abbrev sysPollin : BitVec 16 := 0x0001
abbrev sysPollout : BitVec 16 := 0x0004
abbrev sysPollnval : BitVec 16 := 0x0020

/-- `syscall_pollfd32_t`, eight bytes in memory. -/
structure Pollfd where
  fd : BitVec 32
  events : BitVec 16
  revents : BitVec 16
  deriving DecidableEq, Repr

abbrev pollfdSize : ℕ := 8

def Pollfd.unpack (n : ℕ) : Pollfd :=
  ⟨BitVec.ofNat 32 n, BitVec.ofNat 16 (n / 2 ^ 32), BitVec.ofNat 16 (n / 2 ^ 48)⟩

def Pollfd.pack (p : Pollfd) : ℕ :=
  p.fd.toNat + 2 ^ 32 * p.events.toNat + 2 ^ 48 * p.revents.toNat

/-- What is stored in the `revents` of an entry. -/
def pollRevents (p : Pollfd) (t : Tty) : BitVec 16 :=
  if p.fd.toInt < 0 then 0
  else if ¬ fdIsValid p.fd t then sysPollnval
  else
    (if p.events &&& sysPollin ≠ 0 ∧ fdReadReady p.fd t then sysPollin else 0) |||
      (if p.events &&& sysPollout ≠ 0 ∧ fdWriteReady p.fd t then sysPollout else 0)

def Pollfd.visited (p : Pollfd) (t : Tty) : Pollfd := { p with revents := pollRevents p t }

/-- One pass over the entries from number `i` on: how many are ready, unless the memory
cannot be accessed, and the memory. -/
def pollScan (fdsAddr : BitVec 32) (t : Tty) :
    ℕ → BitVec 32 → BitVec 32 → Bytes → Option (BitVec 32) × Bytes
  | 0, _, ready, memory => (some ready, memory)
  | n + 1, i, ready, memory =>
    let off := fdsAddr + i * BitVec.ofNat 32 pollfdSize
    if ¬ abiPtrRangeOk off (BitVec.ofNat 32 pollfdSize) then (none, memory)
    else
      let p := (Pollfd.unpack (leNat memory off.toNat pollfdSize)).visited t
      let ready := if p.revents ≠ 0 then ready + 1 else ready
      pollScan fdsAddr t n (i + 1) ready (leStore memory off.toNat pollfdSize p.pack)

/-- The first pass of the call. There is no result when the call goes on to wait, which
it does only with a timeout other than 0. -/
def sysPoll (fdsAddr nfds timeoutMs : BitVec 32) (s : IoState) : Option SyscallResult × IoState :=
  if nfds = 0 then (if timeoutMs = 0 then some ⟨0, .ok⟩ else none, s)
  else if nfds > kernelMemSize / BitVec.ofNat 32 pollfdSize then
    (some (syscallFailure .einval), s)
  else if fdsAddr = 0 ∨ ¬ abiPtrRangeOk fdsAddr (nfds * BitVec.ofNat 32 pollfdSize) then
    (some (syscallFailure .efault), s)
  else
    match pollScan fdsAddr s.tty nfds.toNat 0 0 s.memory with
    | (none, memory) => (some (syscallFailure .efault), { s with memory := memory })
    | (some ready, memory) =>
      let s := { s with memory := memory }
      if ready ≠ 0 then (some ⟨ready, .ok⟩, s)
      else if timeoutMs = 0 then (some ⟨0, .ok⟩, s)
      else (none, s)

end LampVm
