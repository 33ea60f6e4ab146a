import LampVm.FdTable

/-!
# The kernel's scheduler

`kernel/src/sched.c` without its descriptor calls. Tasks are callbacks in a table of
sixteen slots; slot 0 is the idle task. A task that blocks only changes its own
state: it goes on running until its callback returns or until it waits in
`sched_block_until_runnable`, which runs other tasks from inside the waiting one.
The functions here are the ones that return at once; the two loops that invoke
callbacks are steps of the machine built on them.
-/
namespace LampVm

abbrev schedMaxTasks : ℕ := 16
abbrev schedQuantumTicks : BitVec 32 := 4

instance : NeZero schedMaxTasks := ⟨by decide⟩

abbrev TaskIdx := Fin schedMaxTasks

inductive TaskState
  | unused | runnable | running | sleeping | blocked | zombie
  deriving DecidableEq, Repr

/-- The wait queues a slot can point to: the console's, a task's queue for the exits
of its children, or one that belongs to other code. -/
inductive WaitqRef
  | console
  | child (i : TaskIdx)
  | owned (n : ℕ)
  deriving DecidableEq, Repr

/-- A task slot. The callback is known by a number, `none` being the null pointer. -/
structure TaskSlot where
  tid : BitVec 32
  state : TaskState
  wakeTick : BitVec 32
  runTicks : BitVec 32
  used : Bool
  isIdle : Bool
  quantumUsed : BitVec 32
  parentTid : BitVec 32
  exitCode : BitVec 32
  entry : Option ℕ
  waitq : Option WaitqRef
  fds : FdTable

structure Sched where
  ticks : BitVec 32
  needResched : Bool
  tasks : TaskIdx → TaskSlot
  currentIdx : TaskIdx
  nextTid : BitVec 32
  /-- The bits of the wait queues. -/
  waitqs : WaitqRef → TaskIdx → Bool

def Sched.setTask (s : Sched) (i : TaskIdx) (slot : TaskSlot) : Sched :=
  { s with tasks := Function.update s.tasks i slot }

def Sched.resched (s : Sched) : Sched := { s with needResched := true }

/-! ## Slots -/

/-- All bytes zero. -/
def TaskSlot.zero : TaskSlot where
  tid := 0
  state := .unused
  wakeTick := 0
  runTicks := 0
  used := false
  isIdle := false
  quantumUsed := 0
  parentTid := 0
  exitCode := 0
  entry := none
  waitq := none
  fds := .zero

def schedWaitqInit (q : WaitqRef) (s : Sched) : Sched :=
  { s with waitqs := Function.update s.waitqs q fun _ => false }

/-- A slot holds the queue of its children, which is zeroed with it. -/
def schedClearTask (i : TaskIdx) (s : Sched) : Sched :=
  schedWaitqInit (.child i) (s.setTask i .zero)

def schedDetachWaitq (i : TaskIdx) (s : Sched) : Sched :=
  match (s.tasks i).waitq with
  | none => s
  | some q =>
    { s with waitqs := Function.update s.waitqs q (Function.update (s.waitqs q) i false) }.setTask i
      { s.tasks i with waitq := none }

/-- The slots after the idle one, in order. -/
def taskSlots : List TaskIdx := (List.finRange schedMaxTasks).tail

def schedAllocSlot (s : Sched) : Option TaskIdx :=
  taskSlots.find? fun i => !(s.tasks i).used

def schedIdxRunnable (s : Sched) (i : TaskIdx) : Bool :=
  i ≠ 0 && (s.tasks i).used && (s.tasks i).state = .runnable

/-- The slots in the order in which `sched_pick_next_idx` looks at them: from the one
after the current slot round to the current slot itself. -/
def pickOrder (current : TaskIdx) : List TaskIdx :=
  (List.finRange schedMaxTasks).map fun off => current + off + 1

def schedPickNextIdx (s : Sched) : TaskIdx :=
  ((pickOrder s.currentIdx).find? (schedIdxRunnable s)).getD 0

/-- `sched_current_slot`; `none` is the null pointer. -/
def schedCurrentSlot (s : Sched) : Option TaskIdx :=
  if (s.tasks s.currentIdx).used then some s.currentIdx else none

def schedFindByTid (s : Sched) (tid : BitVec 32) : Option TaskIdx :=
  if tid = 0 then some 0
  else taskSlots.find? fun i => (s.tasks i).used && (s.tasks i).tid = tid

/-! ## Waking -/

/-- The assignments with which a sleeping or blocked task becomes runnable. -/
def wakeTask (i : TaskIdx) (s : Sched) : Sched :=
  let s := schedDetachWaitq i s
  (s.setTask i { s.tasks i with wakeTick := 0, state := .runnable, quantumUsed := 0 }).resched

def schedWakeSlot (i : TaskIdx) (s : Sched) : Sched :=
  if ¬ (s.tasks i).used ∨ (s.tasks i).isIdle then s
  else if (s.tasks i).state ≠ .blocked ∧ (s.tasks i).state ≠ .sleeping then s
  else wakeTask i s

def schedWaitqWakeOne (q : WaitqRef) (s : Sched) : Sched :=
  match taskSlots.find? (s.waitqs q) with
  | none => s
  | some i => schedWakeSlot i s

def schedWaitqWakeAll (q : WaitqRef) (s : Sched) : Sched :=
  taskSlots.foldl (fun s i => if s.waitqs q i then schedWakeSlot i s else s) s

def tryWakeSleeper (now : BitVec 32) (s : Sched) (i : TaskIdx) : Sched :=
  let slot := s.tasks i
  if ¬ slot.used then s
  else if slot.state ≠ .sleeping ∧ slot.state ≠ .blocked then s
  else if slot.wakeTick = 0 ∨ slot.wakeTick > now then s
  else wakeTask i s

def schedTryWakeSleepers (now : BitVec 32) (s : Sched) : Sched :=
  (List.finRange schedMaxTasks).foldl (tryWakeSleeper now) s

def scheduleTick (s : Sched) : Sched :=
  let s := { s with ticks := s.ticks + 1 }
  let s := schedTryWakeSleepers s.ticks s
  let slot := s.tasks s.currentIdx
  if slot.used ∧ ¬ slot.isIdle ∧ slot.state = .running then
    let s := s.setTask s.currentIdx { slot with quantumUsed := slot.quantumUsed + 1 }
    if slot.quantumUsed + 1 ≥ schedQuantumTicks then s.resched else s
  else s

/-! ## Calls of the running task -/

/-- `sched_spawn` of a callback; the result is the new task's identifier or `-1`. -/
def schedSpawn (entry : Option ℕ) (s : Sched) : ℤ × Sched :=
  match entry, schedAllocSlot s with
  | some _, some i =>
    -- The slot is marked used before the current slot is looked up.
    let s := s.setTask i { s.tasks i with used := true }
    let parentTid := match schedCurrentSlot s with
      | some p => (s.tasks p).tid
      | none => 0
    let slot : TaskSlot :=
      { tid := s.nextTid, state := .runnable, wakeTick := 0, runTicks := 0, used := true,
        isIdle := false, quantumUsed := 0, parentTid := parentTid, exitCode := 0, entry := entry,
        waitq := none, fds := .initStdio }
    let s := schedWaitqInit (.child i) (s.setTask i slot)
    let nextTid := if s.nextTid + 1 = 0 then 1 else s.nextTid + 1
    (s.nextTid.toInt, { s with nextTid := nextTid }.resched)
  | _, _ => (-1, s)

def schedYield (s : Sched) : Sched :=
  match schedCurrentSlot s with
  | none => s
  | some i =>
    let slot := s.tasks i
    let state := if slot.state = .running then .runnable else slot.state
    (s.setTask i { slot with state := state, quantumUsed := 0 }).resched

def schedExitCode (code : BitVec 32) (s : Sched) : Sched :=
  match schedCurrentSlot s with
  | none => s
  | some i =>
    if (s.tasks i).isIdle then s
    else
      let s := schedDetachWaitq i s
      let slot := s.tasks i
      let s := s.setTask i { slot with fds := slot.fds.closeAllFds, exitCode := code,
                                       state := .zombie, wakeTick := 0, quantumUsed := 0 }
      let s :=
        if slot.parentTid.toInt ≥ 0 then
          match schedFindByTid s slot.parentTid with
          | none => s
          | some p => schedWaitqWakeAll (.child p) s
        else s
      s.resched

def schedSleepTicks (ticks : BitVec 32) (s : Sched) : Sched :=
  match schedCurrentSlot s with
  | none => s
  | some i =>
    if (s.tasks i).isIdle then s
    else
      let wakeTick := s.ticks + (if ticks ≠ 0 then ticks else 1)
      (s.setTask i { s.tasks i with wakeTick := wakeTick, state := .sleeping,
                                    quantumUsed := 0 }).resched

def schedWaitqSleep (q : WaitqRef) (timeout : BitVec 32) (s : Sched) : Sched :=
  match schedCurrentSlot s with
  | none => s
  | some i =>
    if (s.tasks i).isIdle then s
    else
      let s := schedDetachWaitq i s
      let s := { s with waitqs := Function.update s.waitqs q (Function.update (s.waitqs q) i true) }
      (s.setTask i { s.tasks i with waitq := some q, state := .blocked,
                                    wakeTick := if timeout ≠ 0 then s.ticks + timeout else 0,
                                    quantumUsed := 0 }).resched

/-! ## Waiting for children -/

abbrev schedWaitpidAny : BitVec 32 := -1
abbrev schedWaitpidWnohang : BitVec 32 := 1
abbrev schedWaitpidNoChild : ℤ := -1
abbrev schedWaitpidBlocked : ℤ := -2

def schedTaskIsChildOf (slot : TaskSlot) (parentTid pid : BitVec 32) : Bool :=
  slot.used && !slot.isIdle && slot.parentTid = parentTid &&
    (pid = schedWaitpidAny || slot.tid = pid)

/-- `sched_try_reap_child`: the return value, the status it stores, and the table. -/
def schedTryReapChild (parentTid pid : BitVec 32) (s : Sched) : ℤ × Option (BitVec 32) × Sched :=
  let child := fun i => schedTaskIsChildOf (s.tasks i) parentTid pid
  match taskSlots.find? fun i => child i && (s.tasks i).state = .zombie with
  | some i => ((s.tasks i).tid.toInt, some (((s.tasks i).exitCode &&& 0xFF) <<< 8), schedClearTask i s)
  | none => if taskSlots.any child then (0, none, s) else (schedWaitpidNoChild, none, s)

def schedWaitpid (pid options : BitVec 32) (s : Sched) : ℤ × Option (BitVec 32) × Sched :=
  match schedCurrentSlot s with
  | none => (schedWaitpidNoChild, none, s)
  | some i =>
    if (s.tasks i).isIdle then (schedWaitpidNoChild, none, s)
    else
      let (rc, status, s) := schedTryReapChild (s.tasks i).tid pid s
      if rc ≠ 0 then (rc, status, s)
      else if options &&& schedWaitpidWnohang ≠ 0 then (0, status, s)
      else (schedWaitpidBlocked, status, schedWaitqSleep (.child i) 0 s)

/-! ## Invoking callbacks -/

/-- The tests that both loops make before they invoke a callback. -/
def invocable (s : Sched) (i : TaskIdx) : Bool :=
  (s.tasks i).used && (s.tasks i).entry.isSome && (s.tasks i).state = .runnable

/-- The assignments before the call of a callback. -/
def enterTask (i : TaskIdx) (s : Sched) : Sched :=
  s.setTask i { s.tasks i with state := .running, runTicks := (s.tasks i).runTicks + 1 }

/-- The assignment after it. -/
def leaveTask (i : TaskIdx) (s : Sched) : Sched :=
  if (s.tasks i).state = .running then s.setTask i { s.tasks i with state := .runnable } else s

/-- The part of an iteration of `sched_run` before its test. -/
def runSelect (s : Sched) : Sched :=
  if s.needResched ∨ ¬ schedIdxRunnable s s.currentIdx then
    { s with needResched := false, currentIdx := schedPickNextIdx s }
  else s

/-- The condition of the loop of `sched_block_until_runnable` for its task. -/
def waits (s : Sched) (i : TaskIdx) : Bool :=
  (s.tasks i).used && ((s.tasks i).state = .blocked || (s.tasks i).state = .sleeping)

/-- `sched_init`. -/
def schedInit : Sched where
  ticks := 0
  needResched := false
  tasks := Function.update (fun _ => .zero) 0
    { TaskSlot.zero with used := true, isIdle := true, entry := some 0, parentTid := -1,
                         state := .runnable, fds := .initStdio }
  currentIdx := 0
  nextTid := 1
  waitqs _ _ := false

end LampVm
