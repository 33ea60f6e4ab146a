import LampVm.Sched
import LampVm.Handler

/-!
# The kernel on the machine

The kernel's C code runs on core 0 as one call stack. `sched_run` invokes callbacks,
a callback calls the scheduler or the system calls, and a system call that waits
invokes other callbacks from inside `sched_block_until_runnable`; so the stack is a
list of activations of callbacks, all of which but the innermost wait. System calls
are made directly or through `INT 0x80`, whose handler runs until its `IRET` with the
interrupt flag of the core set. Device interrupts are taken between any two steps,
as long as that flag is clear. What the callbacks do is arbitrary.
-/
namespace LampVm

open Contract Transition

/-- Where an activation is: in its own code, at the test of the loop of
`sched_block_until_runnable`, or in the body of that loop. The slot that the loop
tests is looked up once, before the loop. -/
inductive Place
  | running
  | testing (self : TaskIdx)
  | pumping (self : TaskIdx)
  deriving DecidableEq, Repr

/-- An invocation of a callback that has not returned. -/
structure Activation where
  idx : TaskIdx
  /-- The current slot that `sched_pump_once` restores; `none` below `sched_run`. -/
  prev : Option TaskIdx
  /-- Inside the handler of `INT 0x80`. -/
  trapped : Bool
  place : Place
  deriving DecidableEq, Repr

inductive Device
  | keyboard | disk | serial | timer
  deriving DecidableEq, Repr

def Device.vector : Device → BitVec 32
  | .keyboard => intKeyboard
  | .disk => intDiskComplete
  | .serial => intSerial
  | .timer => intTimer

abbrev irqSyscall : BitVec 32 := 0x80

/-- A device's handler, before and after its body. -/
inductive IrqPlace
  | entered (d : Device)
  | handled
  deriving DecidableEq, Repr

structure KernelState where
  vm : Vm
  sched : Sched
  /-- The activations, innermost first. -/
  stack : List Activation
  irq : Option IrqPlace

/-- The scheduler calls of callbacks and of system calls that return at once. -/
inductive SchedCall
  | yield
  | sleepTicks (ticks : BitVec 32)
  | waitqSleep (q : WaitqRef) (timeout : BitVec 32)
  | wakeOne (q : WaitqRef)
  | wakeAll (q : WaitqRef)
  | spawn (entry : Option ℕ)
  | exitCode (code : BitVec 32)
  | waitpid (pid options : BitVec 32)
  deriving DecidableEq, Repr

def SchedCall.run : SchedCall → Sched → Sched
  | .yield => schedYield
  | .sleepTicks ticks => schedSleepTicks ticks
  | .waitqSleep q timeout => schedWaitqSleep q timeout
  | .wakeOne q => schedWaitqWakeOne q
  | .wakeAll q => schedWaitqWakeAll q
  | .spawn entry => fun s => (schedSpawn entry s).2
  | .exitCode code => schedExitCode code
  | .waitpid pid options => fun s => (schedWaitpid pid options s).2.2

/-- The body of a device's handler: the timer counts a tick, and each byte that the
serial handlers store wakes one reader of the console. -/
def Device.handle (d : Device) (bytes : ℕ) (s : Sched) : Sched :=
  match d with
  | .timer => scheduleTick s
  | .keyboard | .serial => (schedWaitqWakeOne .console)^[bytes] s
  | .disk => s

inductive KernelLabel
  | select
  | call (c : SchedCall)
  | block
  | test
  | pump
  | ret
  | int
  | iretTrap
  | deliver (d : Device)
  | handle (bytes : ℕ)
  | iret
  | other
  deriving DecidableEq

/-- Whether core 0 runs an interrupt handler. -/
def Vm.interrupted (vm : Vm) : Bool := (vm.cpus 0).inInterrupt ≠ 0

/-- `sched_run` and `sched_pump_once` up to the invocation of a callback, which makes
a new activation. -/
def KernelState.invoke (s : KernelState) (i : TaskIdx) (prev : Option TaskIdx)
    (stack : List Activation) : KernelState :=
  { s with
    sched := enterTask i { s.sched with currentIdx := i }
    stack := ⟨i, prev, false, .running⟩ :: stack }

/-- One iteration of `sched_run`, up to the call. -/
def KernelState.select (s : KernelState) : KernelState :=
  let sched := runSelect s.sched
  if invocable sched sched.currentIdx then
    { s with sched := sched }.invoke sched.currentIdx none []
  else { s with sched := sched.resched }

/-- The call of `sched_block_until_runnable`: it returns at once for the idle task. -/
def KernelState.block (s : KernelState) (a : Activation) (rest : List Activation) : KernelState :=
  match schedCurrentSlot s.sched with
  | none => s
  | some i =>
    if (s.sched.tasks i).isIdle then s
    else { s with stack := { a with place := .testing i } :: rest }

def KernelState.test (s : KernelState) (a : Activation) (rest : List Activation)
    (self : TaskIdx) : KernelState :=
  let place := if waits s.sched self then .pumping self else .running
  { s with stack := { a with place := place } :: rest }

/-- The call of `sched_pump_once` in the loop's body, up to the invocation if there is
one. -/
def KernelState.pump (s : KernelState) (a : Activation) (rest : List Activation)
    (self : TaskIdx) : KernelState :=
  let next := schedPickNextIdx s.sched
  if invocable s.sched next then s.invoke next (some s.sched.currentIdx) (a :: rest)
  else { s with stack := { a with place := .testing self } :: rest }

/-- A finished call of `sched_pump_once` leads back to the test. -/
def Activation.pumped (a : Activation) : Activation :=
  match a.place with
  | .pumping self => { a with place := .testing self }
  | _ => a

/-- A callback returns to `sched_run`, or to the loop that it was pumped from. -/
def KernelState.ret (s : KernelState) (a : Activation) (rest : List Activation) : KernelState :=
  let sched := leaveTask a.idx s.sched
  { s with
    sched := { sched with currentIdx := a.prev.getD sched.currentIdx }
    stack := match rest with
      | [] => []
      | b :: rest => b.pumped :: rest }

/-- The steps of the kernel. Task code runs in the innermost activation while no device
handler does; the idle task's callback does nothing. -/
inductive KernelStep (s : KernelState) : KernelLabel → KernelState → Prop
  | select (hirq : s.irq = none) (hstack : s.stack = []) : KernelStep s .select s.select
  | call {a : Activation} {rest : List Activation} (c : SchedCall) (hirq : s.irq = none)
      (hstack : s.stack = a :: rest) (hplace : a.place = .running) (hidle : a.idx ≠ 0) :
      KernelStep s (.call c) { s with sched := c.run s.sched }
  | block {a : Activation} {rest : List Activation} (hirq : s.irq = none)
      (hstack : s.stack = a :: rest) (hplace : a.place = .running) (hidle : a.idx ≠ 0) :
      KernelStep s .block (s.block a rest)
  | test {a : Activation} {rest : List Activation} {self : TaskIdx} (hirq : s.irq = none)
      (hstack : s.stack = a :: rest) (hplace : a.place = .testing self) :
      KernelStep s .test (s.test a rest self)
  | pump {a : Activation} {rest : List Activation} {self : TaskIdx} (hirq : s.irq = none)
      (hstack : s.stack = a :: rest) (hplace : a.place = .pumping self) :
      KernelStep s .pump (s.pump a rest self)
  | ret {a : Activation} {rest : List Activation} (hirq : s.irq = none)
      (hstack : s.stack = a :: rest) (hplace : a.place = .running) (htrap : a.trapped = false) :
      KernelStep s .ret (s.ret a rest)
  | int {a : Activation} {rest : List Activation} {vm : Vm} (hirq : s.irq = none)
      (hstack : s.stack = a :: rest) (hplace : a.place = .running) (hidle : a.idx ≠ 0)
      (htrap : a.trapped = false) (hrun : vmEnterInterrupt 0 irqSyscall s.vm = .ok ((), vm)) :
      KernelStep s .int
        { s with vm := vm, stack := { a with trapped := !s.vm.interrupted && vm.interrupted } :: rest }
  | iretTrap {a : Activation} {rest : List Activation} {vm : Vm} (hirq : s.irq = none)
      (hstack : s.stack = a :: rest) (hplace : a.place = .running) (htrap : a.trapped = true)
      (hrun : vmIret 0 s.vm = .ok ((), vm)) :
      KernelStep s .iretTrap { s with vm := vm, stack := { a with trapped := false } :: rest }
  | deliver {d : Device} {vm : Vm} (hirq : s.irq = none) (hclear : s.vm.interrupted = false)
      (hmask : (s.vm.cpus 0).irqMasked = 0) (hrun : vmEnterInterrupt 0 d.vector s.vm = .ok ((), vm))
      (henter : vm.interrupted = true) :
      KernelStep s (.deliver d) { s with vm := vm, irq := some (.entered d) }
  | handle {d : Device} (bytes : ℕ) (hirq : s.irq = some (.entered d)) :
      KernelStep s (.handle bytes) { s with sched := d.handle bytes s.sched, irq := some .handled }
  | iret {vm : Vm} (hirq : s.irq = some .handled) (hrun : vmIret 0 s.vm = .ok ((), vm)) :
      KernelStep s .iret { s with vm := vm, irq := none }
  | other {vm : Vm} (hflag : (vm.cpus 0).inInterrupt = (s.vm.cpus 0).inInterrupt) :
      KernelStep s .other { s with vm := vm }

/-- The scheduler before `sched_run`: `sched_init`, the calls of the boot code, which
runs as the idle task, and interrupts. -/
inductive BootSched : Sched → Prop
  | init : BootSched schedInit
  | call {s : Sched} (c : SchedCall) : BootSched s → BootSched (c.run s)
  | handle {s : Sched} (d : Device) (bytes : ℕ) : BootSched s → BootSched (d.handle bytes s)

/-- The kernel from its call of `sched_run` on. -/
def kernel (memorySize : ℕ) (smpCores : ℤ) : System KernelState KernelLabel where
  init s := Reachable (machine memorySize smpCores) s.vm ∧ s.vm.interrupted = false ∧
    BootSched s.sched ∧ s.stack = [] ∧ s.irq = none
  step := KernelStep

/-! ## The interrupt flag -/

/-- After an interrupt return the flag is clear, whatever it was. -/
theorem vmIret_interrupted {vm vm' : Vm} (hrun : vmIret 0 vm = .ok ((), vm')) :
    vm'.interrupted = false := by
  simp only [vmIret, bind_apply, getCpu_apply] at hrun
  split_ifs at hrun with hflag
  · obtain ⟨-, rfl⟩ := Prod.mk.inj (Except.ok.inj hrun)
    simp [Vm.interrupted, hflag]
  · obtain ⟨_, _, -, hrun⟩ := bind_eq_ok hrun
    obtain ⟨_, _, -, hrun⟩ := bind_eq_ok hrun
    obtain ⟨_, _, -, hrun⟩ := bind_eq_ok hrun
    obtain ⟨_, _, -, hrun⟩ := bind_eq_ok hrun
    obtain ⟨_, _, -, hrun⟩ := bind_eq_ok hrun
    obtain ⟨-, rfl⟩ := Prod.mk.inj (Except.ok.inj hrun)
    simp [Vm.interrupted]

/-- A machine that takes an interrupt on a vector and returns from it. -/
theorem exists_handled_vector {n : BitVec 32} (hn : n.toNat < ivtSize) :
    ∃ vm v w, Reachable (machine memSize 1) vm ∧ vm.interrupted = false ∧
      (vm.cpus 0).irqMasked = 0 ∧ vmEnterInterrupt 0 n vm = .ok ((), v) ∧
      v.interrupted = true ∧ vmIret 0 v = .ok ((), w) := by
  obtain ⟨vm, hreach, hflag, hmask, hivt⟩ := exists_installed_vector hn
  have hinv := reachable_inv hreach
  have hcore := hinv.core 0 (by decide)
  have hisp : (vm.cpus 0).isp = isrStackSize := by
    obtain ⟨-, h⟩ | ⟨h, -⟩ := hcore.phase
    · exact h
    · omega
  obtain ⟨v, hrun, hcpu, hholds, -⟩ := vmEnterInterrupt_saves hn
    (isrRegion_of_inv (by decide) (by decide) hinv) hisp hflag (ivtEntry_plain hinv hn) hivt
  have hinv' := (kept_vmEnterInterrupt (by decide) (settled_mayEnter 0) n).ok hinv hrun
  have hregion := isrRegion_of_inv (by decide) (by decide) hinv' (c := 0)
  have hset : (v.cpus 0).inInterrupt = 1 := by rw [hcpu]; rfl
  have hbase : (v.cpus 0).isrStackBase = (vm.cpus 0).isrStackBase := by rw [hcpu]; rfl
  obtain ⟨w, hret, -⟩ := vmIret_restores hcore.ip (by rw [hset]; decide) (by rw [hcpu]; rfl)
    hregion (by rw [hbase]; exact hholds)
  exact ⟨vm, v, w, hreach, by simp [Vm.interrupted, hflag], hmask, hrun,
    by simp [Vm.interrupted, hset], hret⟩

end LampVm
