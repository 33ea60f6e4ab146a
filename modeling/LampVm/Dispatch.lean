import LampVm.FileSyscall
import LampVm.KernelClock
import LampVm.SchedMoves

/-!
# `syscall_dispatch`

All system calls, and the mailbox in which each of them publishes its result. A call that
waits is cut at the beginnings of the rounds of its loop: between two rounds other tasks
run, make system calls of their own and publish their results. The kernel has one call
stack, so that the innermost waiting call is the one that goes on.
-/
namespace LampVm

open ByteOrder Transition

inductive Sys
  | getpid | yield | sleepTicks | exit | waitpid | nanosleep | read | write | poll | select
  | ttyGetmode | ttySetmode | clockGettime | gettimeofday | clockGetres | clockSettime
  | close | dup | dup2 | fcntl | open | socket | connect | bind | listen | accept | send | recv
  deriving DecidableEq, Repr

/-- The cases of the `switch`; `none` is its default. -/
def sysOfNr (nr : BitVec 32) : Option Sys :=
  match nr.toNat with
  | 0 => some .getpid
  | 1 => some .yield
  | 2 => some .sleepTicks
  | 3 => some .exit
  | 4 => some .waitpid
  | 5 => some .nanosleep
  | 6 => some .read
  | 7 => some .write
  | 8 => some .poll
  | 9 => some .select
  | 10 => some .ttyGetmode
  | 11 => some .ttySetmode
  | 12 => some .clockGettime
  | 13 => some .gettimeofday
  | 14 => some .clockGetres
  | 15 => some .clockSettime
  | 16 => some .close
  | 17 => some .dup
  | 18 => some .dup2
  | 19 => some .fcntl
  | 20 => some .open
  | 21 => some .socket
  | 22 => some .connect
  | 23 => some .bind
  | 24 => some .listen
  | 25 => some .accept
  | 26 => some .send
  | 27 => some .recv
  | _ => none

/-- `syscall_regs_t`. -/
structure SyscallRegs where
  nr : BitVec 32
  arg0 : BitVec 32
  arg1 : BitVec 32
  arg2 : BitVec 32
  arg3 : BitVec 32
  arg4 : BitVec 32
  arg5 : BitVec 32
  deriving DecidableEq, Repr

/-- What the system calls work on. -/
structure KernelData where
  tty : Tty
  memory : Bytes
  realtimeOffset : RealtimeOffset

def KernelData.sched (d : KernelData) : Sched := d.tty.sched

def KernelData.setSched (d : KernelData) (s : Sched) : KernelData :=
  { d with tty := { d.tty with sched := s } }

def KernelData.setMemory (d : KernelData) (memory : Bytes) : KernelData :=
  { d with memory := memory }

/-! ## Tasks -/

/-- `sched_current_tid`. -/
def schedCurrentTid (s : Sched) : ℤ :=
  match schedCurrentSlot s with
  | none => -1
  | some i => (s.tasks i).tid.toInt

abbrev schedTickPeriodUs : BitVec 32 := 50000

def divCeilU32 (numer denom : BitVec 32) : BitVec 32 :=
  if denom = 0 then 0xFFFFFFFF else numer / denom + (if numer % denom ≠ 0 then 1 else 0)

/-- A time to sleep in microseconds, as large as 32 bits allow. -/
def nanosleepUs (req : Timespec) : BitVec 32 :=
  if req.sec > 0xFFFFFFFF / 1000000 then 0xFFFFFFFF
  else
    let totalUs := req.sec * 1000000
    let reqNsUs := divCeilU32 req.nsec 1000
    if totalUs > 0xFFFFFFFF - reqNsUs then 0xFFFFFFFF else totalUs + reqNsUs

def sysNanosleep (reqAddr remAddr : BitVec 32) (d : KernelData) : SyscallResult × KernelData :=
  match abiUserReadTimespec reqAddr d.memory with
  | none => (syscallFailure .efault, d)
  | some req =>
    if ¬ req.valid then (syscallFailure .einval, d)
    else
      match abiUserWriteTimespecZero remAddr d.memory with
      | none => (syscallFailure .efault, d)
      | some memory =>
        let d := d.setMemory memory
        if req.sec = 0 ∧ req.nsec = 0 then (⟨0, .ok⟩, d)
        else if schedTickPeriodUs = 0 then (syscallFailure .eintr, d)
        else
          let ticks := divCeilU32 (nanosleepUs req) schedTickPeriodUs
          (⟨0, .ok⟩, d.setSched (schedSleepTicks (if ticks = 0 then 1 else ticks) d.sched))

/-! ## Descriptors -/

def errnoFromSchedFdRc (rc : ℤ) : Errno :=
  if rc = schedFdEbadf then .ebadf
  else if rc = schedFdEmfile then .emfile
  else .einval

/-- A call on the descriptors of the current task. -/
def onFds (f : FdTable → ℤ × FdTable) (s : Sched) : ℤ × Sched :=
  match schedCurrentSlot s with
  | none => (schedFdEbadf, s)
  | some i =>
    let (rc, table) := f (s.tasks i).fds
    (rc, s.setTask i { s.tasks i with fds := table })

/-- The result of a call that returns a descriptor. -/
def fdResult (rc : ℤ) : SyscallResult :=
  if rc < 0 then syscallFailure (errnoFromSchedFdRc rc) else ⟨BitVec.ofInt 32 rc, .ok⟩

/-- The result of a call that returns nothing. -/
def statusResult (rc : ℤ) : SyscallResult :=
  if rc ≠ schedFdOk then syscallFailure (errnoFromSchedFdRc rc) else ⟨0, .ok⟩

def sysFd (result : ℤ → SyscallResult) (f : FdTable → ℤ × FdTable) (d : KernelData) :
    SyscallResult × KernelData :=
  let (rc, s) := onFds f d.sched
  (result rc, d.setSched s)

/-- `F_GETFD` and `F_GETFL`: the return code and the flags stored with it. -/
def flagsResult (f : FdTable → ℤ × Option (BitVec 32)) (t : Tty) : SyscallResult :=
  let (rc, flags) := match t.fds with
    | none => (schedFdEbadf, none)
    | some table => f table
  if rc ≠ schedFdOk then syscallFailure (errnoFromSchedFdRc rc) else ⟨flags.getD 0, .ok⟩

def sysFcntl (fd cmd arg : BitVec 32) (d : KernelData) : SyscallResult × KernelData :=
  if cmd = 1 then (flagsResult (·.fcntlGetfd fd true) d.tty, d)
  else if cmd = 2 then sysFd statusResult (·.fcntlSetfd fd arg) d
  else if cmd = 3 then (flagsResult (·.fcntlGetfl fd true) d.tty, d)
  else if cmd = 4 then sysFd statusResult (·.fcntlSetfl fd arg) d
  else (syscallFailure .einval, d)

abbrev fsPathCap : ℕ := 64

/-- The loop of `abi_user_read_cstr` with room for `n` more characters: the string before
its null byte. -/
def abiUserReadCstr (memory : Bytes) : ℕ → BitVec 32 → Option (List (BitVec 8))
  | 0, _ => none
  | n + 1, addr =>
    if ¬ abiPtrRangeOk addr 1 then none
    else if memory addr.toNat = 0 then some []
    else (abiUserReadCstr memory n (addr + 1)).map (memory addr.toNat :: ·)

def cstr (s : String) : List (BitVec 8) := s.toList.map fun c => BitVec.ofNat 8 c.toNat

def openPathToSpecial (path : List (BitVec 8)) : Option (BitVec 32) :=
  if path = cstr "/dev/null" then some 1
  else if path = cstr "/dev/zero" then some 2
  else if path = cstr "/dev/tty" then some 3
  else none

abbrev sysOAccmode : BitVec 32 := 3
abbrev sysONonblock : BitVec 32 := 0x800
abbrev sysOCreat : BitVec 32 := 0x40
abbrev sysOTrunc : BitVec 32 := 0x200

def sysOpen (pathAddr flags : BitVec 32) (d : KernelData) : SyscallResult × KernelData :=
  let accmode := flags &&& sysOAccmode
  if flags &&& ~~~(sysOAccmode ||| sysONonblock ||| sysOCreat ||| sysOTrunc) ≠ 0 then
    (syscallFailure .einval, d)
  else if ¬ (accmode = 0 ∨ accmode = 1 ∨ accmode = 2) then (syscallFailure .einval, d)
  else if pathAddr = 0 then (syscallFailure .efault, d)
  else
    match abiUserReadCstr d.memory (fsPathCap - 1) pathAddr with
    | none => (syscallFailure .efault, d)
    | some path =>
      match openPathToSpecial path with
      | none => (syscallFailure .enoent, d)
      | some special =>
        sysFd fdResult (·.openSpecial special (flags &&& (sysOAccmode ||| sysONonblock))) d

def sysSocket (domain type : BitVec 32) (d : KernelData) : SyscallResult × KernelData :=
  if ¬ (domain = 1 ∨ domain = 2 ∨ domain = 10) then (syscallFailure .eafnosupport, d)
  else if type &&& 0x0F = 0 then (syscallFailure .einval, d)
  else
    let statusFlags := if type &&& 0x800 ≠ 0 then schedFdORdwr ||| schedFdONonblock else schedFdORdwr
    sysFd fdResult (·.openSpecial 4 statusFlags) d

/-- The calls on sockets, none of which is connected or supported. -/
def sysSocketCall (fd : BitVec 32) (err : Errno) (t : Tty) : SyscallResult :=
  if ¬ fdIsValid fd t then syscallFailure .ebadf
  else if fdType fd t ≠ .socket then syscallFailure .enotsock
  else syscallFailure err

def fdIsTty (fd : BitVec 32) (t : Tty) : Bool := t.fds.any (·.isTty fd)

def sysTtyGetmode (fd : BitVec 32) (t : Tty) : SyscallResult :=
  if ¬ fdIsTty fd t then syscallFailure .ebadf else ⟨t.console.lflag, .ok⟩

def sysTtySetmode (fd lflag : BitVec 32) (d : KernelData) : SyscallResult × KernelData :=
  if ¬ fdIsTty fd d.tty then (syscallFailure .ebadf, d)
  else
    let tty := consoleTtySetLflag lflag d.tty
    (⟨tty.console.lflag, .ok⟩, { d with tty := tty })

/-! ## `SYS_WRITE` -/

def abiUserReadBytes (addr len : BitVec 32) (memory : Bytes) : Option (List (BitVec 8)) :=
  if len = 0 then some []
  else if ¬ abiPtrRangeOk addr len then none
  else some ((List.range len.toNat).map fun i => memory (addr.toNat + i))

def consoleWrite (src : List (BitVec 8)) (t : Tty) : BitVec 32 × Tty :=
  (BitVec.ofNat 32 src.length, src.foldl (fun t ch => consoleFbPutc ch t) t)

/-- `sizeof(byte_buf)` of the loop that writes. -/
abbrev writeBufSize : BitVec 32 := 128

def writeChunk (len total : BitVec 32) : BitVec 32 :=
  if len - total > writeBufSize then writeBufSize else len - total

/-- Each round writes at least one byte, so `len` rounds are enough. -/
def writeConsole (bufAddr len : BitVec 32) (memory : Bytes) :
    ℕ → BitVec 32 → Tty → SyscallResult × Tty
  | 0, total, t => (⟨total, .ok⟩, t)
  | n + 1, total, t =>
    if total < len then
      let want := writeChunk len total
      match abiUserReadBytes (bufAddr + total) want memory with
      | none => (syscallFailure .efault, t)
      | some bytes =>
        let (written, t) := consoleWrite bytes t
        if written < want then (⟨total + written, .ok⟩, t)
        else writeConsole bufAddr len memory n (total + written) t
    else (⟨total, .ok⟩, t)

def sysWrite (fd bufAddr len : BitVec 32) (d : KernelData) : SyscallResult × KernelData :=
  let type := fdType fd d.tty
  if ¬ fdSupportsWrite fd d.tty then (syscallFailure .ebadf, d)
  else if len = 0 then (⟨0, .ok⟩, d)
  else if bufAddr = 0 ∨ ¬ abiPtrRangeOk bufAddr len then (syscallFailure .efault, d)
  else if type = .devNull ∨ type = .devZero then (⟨len, .ok⟩, d)
  else if type = .socket then (syscallFailure .enotconn, d)
  else
    let (r, tty) := writeConsole bufAddr len d.memory len.toNat 0 d.tty
    (r, { d with tty := tty })

/-! ## Calls that wait -/

def timeoutMsToTicks (timeoutMs : BitVec 32) : BitVec 32 :=
  if timeoutMs.toInt ≤ 0 then 0
  else if schedTickPeriodUs = 0 then 1
  else
    let timeoutUs := if timeoutMs > 0xFFFFFFFF / 1000 then 0xFFFFFFFF else timeoutMs * 1000
    divCeilU32 timeoutUs schedTickPeriodUs

/-- Where a waiting call is: before a round of its loop, with the variables that it keeps
from round to round. -/
inductive Waiting
  | waitpid (status : BitVec 32)
  /-- `SYS_POLL` without entries. -/
  | sleep (startTick : BitVec 32)
  | poll (startTick : BitVec 32)
  | select (startTick inRead inWrite inExcept : BitVec 32)
  deriving DecidableEq, Repr

/-- A round ends the call or leads to the next one. -/
abbrev Round := SyscallResult ⊕ Waiting

def sleepRound (timeoutMs startTick : BitVec 32) (d : KernelData) : Round × KernelData :=
  if timeoutMs.toInt > 0 then
    let elapsed := d.sched.ticks - startTick
    let timeoutTicks := timeoutMsToTicks timeoutMs
    let remaining := if elapsed ≥ timeoutTicks then 0 else timeoutTicks - elapsed
    if remaining = 0 then (.inl ⟨0, .ok⟩, d)
    else (.inr (.sleep startTick), d.setSched (schedSleepTicks remaining d.sched))
  else (.inr (.sleep startTick), d.setSched (schedSleepTicks 1 d.sched))

/-- What `SYS_POLL` and `SYS_SELECT` do with the number of ready descriptors: return it, or
go to sleep until there may be more. A descriptor on the console waits in the console's
queue. -/
def readyOrWait (ready timeoutMs startTick : BitVec 32) (waitReadStdin : Bool) (next : Waiting)
    (d : KernelData) : Round × KernelData :=
  let elapsed := d.sched.ticks - startTick
  let timeoutTicks := timeoutMsToTicks timeoutMs
  let remaining := if timeoutMs.toInt > 0 then timeoutTicks - elapsed else 0
  if ready ≠ 0 then (.inl ⟨ready, .ok⟩, d)
  else if timeoutMs = 0 then (.inl ⟨0, .ok⟩, d)
  else if timeoutMs.toInt > 0 ∧ elapsed ≥ timeoutTicks then (.inl ⟨0, .ok⟩, d)
  else if waitReadStdin then
    (.inr next, { d with tty := (consoleWaitReadable remaining false d.tty).2 })
  else if timeoutMs.toInt < 0 then (.inr next, d.setSched (schedSleepTicks 1 d.sched))
  else
    (.inr next, d.setSched (schedSleepTicks (if remaining ≠ 0 then remaining else 1) d.sched))

/-- Whether an entry makes the call wait for the console. -/
def Pollfd.waitsConsole (p : Pollfd) (t : Tty) : Bool :=
  p.fd.toInt ≥ 0 && fdIsValid p.fd t && fdWaitsConsoleRead p.fd t && p.events &&& sysPollin ≠ 0 &&
    !fdReadReady p.fd t

/-- The entries before the pass are those after it, up to what the pass stores in them. -/
def pollWaitsConsole (fdsAddr nfds : BitVec 32) (t : Tty) (memory : Bytes) : Bool :=
  (List.range nfds.toNat).any fun i =>
    (Pollfd.unpack (leNat memory (fdsAddr.toNat + pollfdSize * i) pollfdSize)).waitsConsole t

def pollRound (fdsAddr nfds timeoutMs startTick : BitVec 32) (d : KernelData) :
    Round × KernelData :=
  match pollScan fdsAddr d.tty nfds.toNat 0 0 d.memory with
  | (none, memory) => (.inl (syscallFailure .efault), d.setMemory memory)
  | (some ready, memory) =>
    readyOrWait ready timeoutMs startTick (pollWaitsConsole fdsAddr nfds d.tty d.memory)
      (.poll startTick) (d.setMemory memory)

/-- `while (v != 0u)`; 32 rounds are enough. -/
def countBits : ℕ → BitVec 32 → BitVec 32 → BitVec 32
  | 0, _, n => n
  | k + 1, v, n => if v ≠ 0 then countBits k (v >>> 1) (n + (v &&& 1)) else n

def countBitsU32 (v : BitVec 32) : BitVec 32 := countBits 32 v 0

/-- The descriptors that a call of `SYS_SELECT` found ready. -/
structure Selected where
  outRead : BitVec 32
  outWrite : BitVec 32
  waitReadStdin : Bool
  deriving DecidableEq, Repr

/-- The pass over the descriptors from `i` on; `none` when a watched one is not open. -/
def selectScan (inRead inWrite inExcept : BitVec 32) (t : Tty) :
    ℕ → BitVec 32 → Selected → Option Selected
  | 0, _, out => some out
  | n + 1, i, out =>
    let bit := (1 : BitVec 32) <<< i
    if (inRead &&& bit) ||| (inWrite &&& bit) ||| (inExcept &&& bit) = 0 then
      selectScan inRead inWrite inExcept t n (i + 1) out
    else if ¬ fdIsValid i t then none
    else
      let out :=
        if inRead &&& bit ≠ 0 then
          { out with
            outRead := if fdReadReady i t then out.outRead ||| bit else out.outRead
            waitReadStdin := out.waitReadStdin || (fdWaitsConsoleRead i t && !fdReadReady i t) }
        else out
      let out :=
        if inWrite &&& bit ≠ 0 ∧ fdWriteReady i t then
          { out with outWrite := out.outWrite ||| bit }
        else out
      selectScan inRead inWrite inExcept t n (i + 1) out

/-- A set that the caller may leave out. -/
def writeSet (addr set : BitVec 32) (memory : Bytes) : Option Bytes :=
  if addr ≠ 0 then abiUserWrite32 addr set memory else some memory

/-- The three sets, one after the other: the memory, and whether all could be stored. -/
def writeSets (readAddr writeAddr exceptAddr outRead outWrite : BitVec 32) (memory : Bytes) :
    Bool × Bytes :=
  match writeSet readAddr outRead memory with
  | none => (false, memory)
  | some memory =>
    match writeSet writeAddr outWrite memory with
    | none => (false, memory)
    | some memory =>
      match writeSet exceptAddr 0 memory with
      | none => (false, memory)
      | some memory => (true, memory)

def selectRound (regs : SyscallRegs) (startTick inRead inWrite inExcept : BitVec 32)
    (d : KernelData) : Round × KernelData :=
  match selectScan inRead inWrite inExcept d.tty regs.arg0.toNat 0 ⟨0, 0, false⟩ with
  | none => (.inl (syscallFailure .ebadf), d)
  | some out =>
    match writeSets regs.arg1 regs.arg2 regs.arg3 out.outRead out.outWrite d.memory with
    | (false, memory) => (.inl (syscallFailure .efault), d.setMemory memory)
    | (true, memory) =>
      readyOrWait (countBitsU32 out.outRead + countBitsU32 out.outWrite + countBitsU32 0) regs.arg4
        startTick out.waitReadStdin (.select startTick inRead inWrite inExcept) (d.setMemory memory)

def waitpidRound (regs : SyscallRegs) (status : BitVec 32) (d : KernelData) : Round × KernelData :=
  match waitpidRetry (waitpidTarget regs.arg0) regs.arg1 regs.arg2 status ⟨d.sched, d.memory⟩ with
  | (.inl r, s) => (.inl r, (d.setSched s.sched).setMemory s.memory)
  | (.inr status, s) => (.inr (.waitpid status), (d.setSched s.sched).setMemory s.memory)

def Waiting.round (regs : SyscallRegs) : Waiting → KernelData → Round × KernelData
  | .waitpid status => waitpidRound regs status
  | .sleep startTick => sleepRound regs.arg2 startTick
  | .poll startTick => pollRound regs.arg0 regs.arg1 regs.arg2 startTick
  | .select startTick inRead inWrite inExcept =>
    selectRound regs startTick inRead inWrite inExcept

/-! ## The calls up to their first round -/

def startWaitpid (pid options : BitVec 32) : Round :=
  if (waitpidTarget pid).toInt < schedWaitpidAny.toInt then .inl (syscallFailure .einval)
  else if options &&& ~~~sysWaitpidWnohang ≠ 0 then .inl (syscallFailure .einval)
  else .inr (.waitpid 0)

def startPoll (fdsAddr nfds timeoutMs : BitVec 32) (s : Sched) : Round :=
  if nfds = 0 then if timeoutMs = 0 then .inl ⟨0, .ok⟩ else .inr (.sleep s.ticks)
  else if nfds > kernelMemSize / BitVec.ofNat 32 pollfdSize then .inl (syscallFailure .einval)
  else if fdsAddr = 0 ∨ ¬ abiPtrRangeOk fdsAddr (nfds * BitVec.ofNat 32 pollfdSize) then
    .inl (syscallFailure .efault)
  else .inr (.poll s.ticks)

/-- A set that the caller passes in; `none` when it cannot be read. -/
def readSet (addr : BitVec 32) (memory : Bytes) : Option (BitVec 32) :=
  if addr ≠ 0 then
    if ¬ abiPtrRangeOk addr 4 then none else some (BitVec.ofNat 32 (leNat memory addr.toNat 4))
  else some 0

def startSelect (regs : SyscallRegs) (d : KernelData) : Round :=
  if regs.arg0 > 32 then .inl (syscallFailure .einval)
  else
    match readSet regs.arg1 d.memory, readSet regs.arg2 d.memory, readSet regs.arg3 d.memory with
    | some inRead, some inWrite, some inExcept =>
      .inr (.select d.sched.ticks inRead inWrite inExcept)
    | _, _, _ => .inl (syscallFailure .efault)

/-- The result of a call that does not wait. -/
def finished (p : SyscallResult × KernelData) : Round × KernelData := (.inl p.1, p.2)

/-- The `switch` of `syscall_dispatch`, up to the loops of the calls that wait. -/
def startCall (raw : RawClocks) (regs : SyscallRegs) (d : KernelData) : Round × KernelData :=
  match sysOfNr regs.nr with
  | none => (.inl (syscallFailure .enosys), d)
  | some .getpid => (.inl ⟨BitVec.ofInt 32 (schedCurrentTid d.sched), .ok⟩, d)
  | some .yield => (.inl ⟨0, .ok⟩, d.setSched (schedYield d.sched))
  | some .sleepTicks => (.inl ⟨0, .ok⟩, d.setSched (schedSleepTicks regs.arg0 d.sched))
  | some .exit => (.inl ⟨0, .ok⟩, d.setSched (schedExitCode regs.arg0 d.sched))
  | some .waitpid => (startWaitpid regs.arg0 regs.arg2, d)
  | some .nanosleep => finished (sysNanosleep regs.arg0 regs.arg1 d)
  | some .read =>
    let (r, io) := sysRead regs.arg0 regs.arg1 regs.arg2 regs.arg3 ⟨d.tty, d.memory⟩
    (.inl r, { d with tty := io.tty, memory := io.memory })
  | some .write => finished (sysWrite regs.arg0 regs.arg1 regs.arg2 d)
  | some .poll => (startPoll regs.arg0 regs.arg1 regs.arg2 d.sched, d)
  | some .select => (startSelect regs d, d)
  | some .ttyGetmode => (.inl (sysTtyGetmode regs.arg0 d.tty), d)
  | some .ttySetmode => finished (sysTtySetmode regs.arg0 regs.arg1 d)
  | some .clockGettime =>
    let (r, memory) := sysClockGettime d.realtimeOffset raw regs.arg0 regs.arg1 d.memory
    (.inl r, d.setMemory memory)
  | some .gettimeofday =>
    let (r, memory) := sysGettimeofday d.realtimeOffset raw regs.arg0 regs.arg1 d.memory
    (.inl r, d.setMemory memory)
  | some .clockGetres =>
    let (r, memory) := sysClockGetres regs.arg0 regs.arg1 d.memory
    (.inl r, d.setMemory memory)
  | some .clockSettime =>
    let (r, offset) := sysClockSettime raw regs.arg0 regs.arg1 d.memory d.realtimeOffset
    (.inl r, { d with realtimeOffset := offset })
  | some .close => finished (sysFd statusResult (·.close regs.arg0) d)
  | some .dup => finished (sysFd fdResult (·.dup regs.arg0) d)
  | some .dup2 => finished (sysFd fdResult (·.dup2 regs.arg0 regs.arg1) d)
  | some .fcntl => finished (sysFcntl regs.arg0 regs.arg1 regs.arg2 d)
  | some .open => finished (sysOpen regs.arg0 regs.arg1 d)
  | some .socket => finished (sysSocket regs.arg0 regs.arg1 d)
  | some .send | some .recv => (.inl (sysSocketCall regs.arg0 .enotconn d.tty), d)
  | some .connect | some .bind | some .listen | some .accept =>
    (.inl (sysSocketCall regs.arg0 .eopnotsupp d.tty), d)

/-! ## The mailbox -/

abbrev syscallAbiAddr : ℕ := 0x002FE000
abbrev syscallAbiMagic : BitVec 32 := 0x30435953
abbrev syscallAbiVersion : BitVec 32 := 1

inductive MailboxField
  | magic | version | lastNr | arg0 | arg1 | arg2 | arg3 | arg4 | arg5 | ret | errno | tick
  deriving DecidableEq, Repr

/-- `SYSCALL_ABI_OFF_*`. -/
def MailboxField.off : MailboxField → ℕ
  | .magic => 0x00
  | .version => 0x04
  | .lastNr => 0x08
  | .arg0 => 0x0C
  | .arg1 => 0x10
  | .arg2 => 0x14
  | .arg3 => 0x18
  | .arg4 => 0x1C
  | .arg5 => 0x20
  | .ret => 0x24
  | .errno => 0x28
  | .tick => 0x2C

def abiWrite32 (memory : Bytes) (field : MailboxField) (v : BitVec 32) : Bytes :=
  leStore memory (syscallAbiAddr + field.off) 4 v.toNat

def mailbox (memory : Bytes) (field : MailboxField) : BitVec 32 :=
  BitVec.ofNat 32 (leNat memory (syscallAbiAddr + field.off) 4)

/-- The words of a result in the order in which they are stored. -/
def publishedWords (regs : SyscallRegs) (r : SyscallResult) (tick : BitVec 32) :
    List (MailboxField × BitVec 32) :=
  [(.magic, syscallAbiMagic), (.version, syscallAbiVersion), (.lastNr, regs.nr),
    (.arg0, regs.arg0), (.arg1, regs.arg1), (.arg2, regs.arg2), (.arg3, regs.arg3),
    (.arg4, regs.arg4), (.arg5, regs.arg5), (.ret, r.ret), (.errno, r.err.code), (.tick, tick)]

/-- `SYSCALL_PUBLISH_RESULT`. -/
def syscallPublishResult (regs : SyscallRegs) (r : SyscallResult) (d : KernelData) : KernelData :=
  d.setMemory ((publishedWords regs r d.sched.ticks).foldl (fun m w => abiWrite32 m w.1 w.2) d.memory)

/-! ## Runs -/

structure PendingCall where
  regs : SyscallRegs
  place : Waiting
  deriving DecidableEq, Repr

/-- The kernel's data and the calls that wait, innermost first. -/
structure CallState where
  data : KernelData
  pending : List PendingCall

inductive CallLabel
  /-- A call of `syscall_dispatch`, up to its first round when it has one. -/
  | call (raw : RawClocks) (regs : SyscallRegs)
  /-- A call with the null pointer. -/
  | nullCall
  /-- A round of the innermost waiting call. -/
  | resume
  /-- A call of the scheduler, a tick, or the begin or end of a callback. -/
  | sched (op : SchedOp)
  | feed (ch : BitVec 8)
  /-- Stores of the tasks' own code. -/
  | store (memory : Bytes)

/-- The part of a system call that a label executes: its registers, the round and the
calls that wait outside it. -/
def CallState.round (s : CallState) :
    CallLabel → Option (SyscallRegs × (Round × KernelData) × List PendingCall)
  | .call raw regs => some (regs, startCall raw regs s.data, s.pending)
  | .resume =>
    match s.pending with
    | [] => none
    | p :: rest => some (p.regs, p.place.round p.regs s.data, rest)
  | _ => none

/-- The value that `syscall_dispatch` returns, if it does, and the registers of the call. -/
def CallState.returned (s : CallState) (l : CallLabel) : Option (SyscallRegs × BitVec 32) :=
  match s.round l with
  | some (regs, (.inl r, _), _) => some (regs, r.ret)
  | _ => none

def CallState.next (s : CallState) (l : CallLabel) : CallState :=
  match s.round l with
  | some (regs, (.inl r, d), rest) => ⟨syscallPublishResult regs r d, rest⟩
  | some (regs, (.inr place, d), rest) => ⟨d, ⟨regs, place⟩ :: rest⟩
  | none =>
    match l with
    | .nullCall =>
      { s with data := syscallPublishResult ⟨0, 0, 0, 0, 0, 0, 0⟩ (syscallFailure .enosys) s.data }
    | .sched op => { s with data := s.data.setSched (op.run s.data.sched) }
    | .feed ch => { s with data := { s.data with tty := consoleRxFeed ch s.data.tty } }
    | .store memory => { s with data := s.data.setMemory memory }
    | .call _ _ | .resume => s

/-- Descriptors change in system calls only. -/
def CallLabel.allowed : CallLabel → Prop
  | .sched (.fds _) => False
  | _ => True

/-- The kernel after `sched_init`, `console_init` and `syscall_init`. -/
def syscallRuns : System CallState CallLabel where
  init s := s.pending = [] ∧ s.data.realtimeOffset = ⟨false, 0⟩ ∧
    ∃ t : Tty, t.sched = schedInit ∧ s.data.tty = consoleInit t
  step s l t := l.allowed ∧ t = s.next l

end LampVm
