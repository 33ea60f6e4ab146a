import LampVm.Kernel

/-!
# System calls

The part of `syscall_dispatch` that waits for children. A system call works on the
task table and on the caller's memory; its result is a value and an error number.
A call whose loop can run for ever takes the interrupts that are handled before each
of its iterations, and has no result when they run out before it returns.
-/
namespace LampVm

open ByteOrder

abbrev kernelMemSize : BitVec 32 := 0x04000000

inductive Errno
  | ok | enoent | eintr | ebadf | echild | eagain | efault | einval | emfile | enosys | eoverflow
  | enotsock | eopnotsupp | eafnosupport | enotconn
  deriving DecidableEq, Repr

def Errno.code : Errno → BitVec 32
  | .ok => 0
  | .enoent => 2
  | .eintr => 4
  | .ebadf => 9
  | .echild => 10
  | .eagain => 11
  | .efault => 14
  | .einval => 22
  | .emfile => 24
  | .enosys => 38
  | .eoverflow => 75
  | .enotsock => 88
  | .eopnotsupp => 95
  | .eafnosupport => 97
  | .enotconn => 107

structure SyscallState where
  sched : Sched
  memory : Bytes

structure SyscallResult where
  ret : BitVec 32
  err : Errno
  deriving DecidableEq, Repr

def syscallFailure (err : Errno) : SyscallResult := ⟨-1, err⟩

/-! ## The caller's memory -/

def abiPtrRangeOk (addr len : BitVec 32) : Bool :=
  if addr = 0 ∨ len = 0 then false
  else if addr ≥ kernelMemSize then false
  else len ≤ kernelMemSize - addr

def abiUserWrite32 (addr v : BitVec 32) (memory : Bytes) : Option Bytes :=
  if abiPtrRangeOk addr 4 then some (leStore memory addr.toNat 4 v.toNat) else none

/-! ## Interrupts during a call -/

/-- A handled device interrupt: the device, and how many bytes it fed to the console. -/
abbrev Irq := Device × ℕ

def takeIrqs (irqs : List Irq) (s : SyscallState) : SyscallState :=
  { s with sched := irqs.foldl (fun sched irq => irq.1.handle irq.2 sched) s.sched }

/-! ## `SYS_WAITPID` -/

abbrev sysWaitpidWnohang : BitVec 32 := 1

/-- The loop's body: a result, or the status variable for the next iteration. -/
def waitpidRetry (pid statusAddr options status : BitVec 32) (s : SyscallState) :
    (SyscallResult ⊕ BitVec 32) × SyscallState :=
  let schedOptions := if options &&& sysWaitpidWnohang ≠ 0 then schedWaitpidWnohang else 0
  let (rc, statusOut, sched) := schedWaitpid pid schedOptions s.sched
  let status := statusOut.getD status
  let s := { s with sched := sched }
  if rc > 0 then
    if statusAddr ≠ 0 then
      match abiUserWrite32 statusAddr status s.memory with
      | none => (.inl (syscallFailure .efault), s)
      | some memory => (.inl ⟨BitVec.ofInt 32 rc, .ok⟩, { s with memory := memory })
    else (.inl ⟨BitVec.ofInt 32 rc, .ok⟩, s)
  else if rc = 0 then (.inl ⟨0, .ok⟩, s)
  else if rc = schedWaitpidBlocked then (.inr status, s)
  else (.inl (syscallFailure .echild), s)

/-- The loop, for as many iterations as interrupts are given. -/
def waitpidLoop (pid statusAddr options : BitVec 32) :
    List (List Irq) → BitVec 32 → SyscallState → Option (SyscallResult × SyscallState)
  | [], _, _ => none
  | irqs :: later, status, s =>
    match waitpidRetry pid statusAddr options status (takeIrqs irqs s) with
    | (.inl r, s) => some (r, s)
    | (.inr status, s) => waitpidLoop pid statusAddr options later status s

/-- There are no process groups: 0 stands for any child. -/
def waitpidTarget (pid : BitVec 32) : BitVec 32 := if pid = 0 then schedWaitpidAny else pid

def sysWaitpid (pid statusAddr options : BitVec 32) (irqs : List (List Irq)) (s : SyscallState) :
    Option (SyscallResult × SyscallState) :=
  if (waitpidTarget pid).toInt < schedWaitpidAny.toInt then some (syscallFailure .einval, s)
  else if options &&& ~~~sysWaitpidWnohang ≠ 0 then some (syscallFailure .einval, s)
  else waitpidLoop (waitpidTarget pid) statusAddr options irqs 0 s

end LampVm
