import LampVm.GuestCode

/-!
# The threads of the machine

`vm_thread`, `vm_run` and `vm_run_headless`: one thread for each core, and a main thread that
waits for the machine to halt and then for the others to end. Two flags only ever go up, the one
that halts the machine and the one that releases a core. How the machine halts follows from this
alone, whatever parts of instructions, interrupt entries and device steps overlap; where they do
not overlap, an interleaving of the loops is a run of the machine's events. The number of cycles
printed at the end is the number of instructions that have been executed.
-/
namespace LampVm

open ByteOrder Contract Transition

/-! ## Threads -/

/-- The statements of the loop of `vm_thread`, and its end. -/
inductive ThreadPlace
  | test | release | interrupts | instruction | count | tick | leave | done
  deriving DecidableEq, Repr

structure CpuThread where
  place : ThreadPlace
  localCycles : BitVec 64

/-- `while (!vm->halted)`, `pthread_join(thread_ids[i], NULL)`, and the end of `vm_run`. -/
inductive MainPlace
  | watch
  | join (i : ℕ)
  | done
  deriving DecidableEq, Repr

/-- The machine with its threads. The flag that the window's close button or the time limit
sets is kept apart from the one that the guest sets; both are `vm->halted`. -/
structure VmRun where
  vm : Vm
  closed : Bool
  threads : ℕ → CpuThread
  executionTimes : ℕ → BitVec 64
  main : MainPlace

abbrev executionTimesFlushInterval : BitVec 64 := 1024

/-- `vm_flush_execution_times`: the thread's own counter and that of its core. -/
def vmFlushExecutionTimes (localCycles executionTimes : BitVec 64) : BitVec 64 × BitVec 64 :=
  if localCycles = 0 then (localCycles, executionTimes) else (0, executionTimes + localCycles)

/-- `local_cycles++` and the flush that it may lead to. -/
def countCycle (localCycles executionTimes : BitVec 64) : BitVec 64 × BitVec 64 :=
  if localCycles + 1 ≥ executionTimesFlushInterval then
    vmFlushExecutionTimes (localCycles + 1) executionTimes
  else (localCycles + 1, executionTimes)

namespace VmRun

def halted (s : VmRun) : Bool := s.vm.halted || s.closed

def start (vm : Vm) : VmRun := ⟨vm, false, fun _ => ⟨.test, 0⟩, fun _ => 0, .watch⟩

/-- Thread `c` at another statement, with other counters. -/
def put (c : ℕ) (place : ThreadPlace) (counters : BitVec 64 × BitVec 64) (s : VmRun) : VmRun :=
  { s with
    threads := Function.update s.threads c ⟨place, counters.1⟩
    executionTimes := Function.update s.executionTimes c counters.2 }

def counters (c : ℕ) (s : VmRun) : BitVec 64 × BitVec 64 :=
  ((s.threads c).localCycles, s.executionTimes c)

def event (e : Event) (s : VmRun) : Except Fault VmRun :=
  (runEvent e s.vm).map fun r => { s with vm := r.2 }

/-- One statement of `vm_thread`, which is in one piece: no other thread takes a step in the middle
of an instruction, an interrupt entry or a tick. -/
def threadStep (c : ℕ) (s : VmRun) : Except Fault VmRun :=
  match (s.threads c).place with
  | .test => .ok (s.put c (if s.halted then .leave else .release) (s.counters c))
  | .release =>
    .ok (s.put c (if c ≠ 0 ∧ s.vm.coreReleased c = false then .test else .interrupts)
      (s.counters c))
  | .interrupts => (s.event (.handleInterrupts c)).map (put c .instruction (s.counters c))
  | .instruction => (s.event (.instruction c)).map (put c .count (s.counters c))
  | .count =>
    .ok (s.put c (if c = 0 then .tick else .test)
      (countCycle (s.threads c).localCycles (s.executionTimes c)))
  | .tick => (s.event .diskTick).map (put c .test (s.counters c))
  | .leave =>
    .ok (s.put c .done (vmFlushExecutionTimes (s.threads c).localCycles (s.executionTimes c)))
  | .done => .ok s

/-- `total_execution_times` of `main`. -/
def totalExecutionTimes (s : VmRun) : BitVec 64 :=
  (List.range s.vm.smpCores).foldl (fun total i => total + s.executionTimes i) 0

end VmRun

inductive RunLabel
  | thread (c : ℕ)
  /-- A step of the disk's worker, the timer or the serial line. -/
  | device (e : Event)
  | close
  | main

/-- The events of the threads of `vm_create` and `disk_init`. -/
def Event.isDevice : Event → Bool
  | .workerTake | .workerTransfer _ | .workerComplete | .serialRx _ | .timerTick => true
  | _ => false

/-- A thread that is joined has ended. -/
def mainStep (s t : VmRun) : Prop :=
  match s.main with
  | .watch => t = { s with main := if s.halted then .join 0 else .watch }
  | .join i =>
    if i < s.vm.smpCores then (s.threads i).place = .done ∧ t = { s with main := .join (i + 1) }
    else t = { s with main := .done }
  | .done => False

/-- `vm_run` on the machine that `boot` makes, with statements in one piece. -/
def vmRun (memorySize : ℕ) (smpCores : ℤ) : System VmRun RunLabel where
  init s := ∃ vm, (machine memorySize smpCores).init vm ∧ s = .start vm
  step s l t :=
    match l with
    | .thread c => c < s.vm.smpCores ∧ (s.threads c).place ≠ .done ∧ s.threadStep c = .ok t
    | .device e => e.isDevice = true ∧ s.event e = .ok t
    | .close => t = { s with closed := true }
    | .main => mainStep s t

/-- The events of the machine that a step takes. -/
def runEvents (s : VmRun) : RunLabel → List Event
  | .thread c =>
    match (s.threads c).place with
    | .interrupts => [.handleInterrupts c]
    | .instruction => [.instruction c]
    | .tick => [.diskTick]
    | _ => []
  | .device e => [e]
  | .close | .main => []

/-! ## Flags that only go up -/

/-- An assertion that no event makes false. It may speak of the flag that halts the machine and
of those that release the cores. -/
structure OneWay (I : Vm → Prop) : Prop where
  memory : ∀ s t, I s → (s.halted = true → t.halted = true) →
    t.besidesMemory = s.besidesMemory → I t
  lookup : Lookup I fun _ => True
  devices : DeviceFree I
  worker : ∀ vm memory image w, I vm →
    I { vm with memory := memory, diskImage := image, diskWorker := w }
  cpu : ∀ vm c cpu, I vm → I (vm.setCpu c cpu)
  release : ∀ vm c, I vm → I { vm with coreReleased := Function.update vm.coreReleased c true }

section OneWay

variable {I : Vm → Prop} {c : ℕ} (h : OneWay I)
include h

theorem OneWay.halt :
    Safe I (fun _ => True) (modify fun vm => { vm with halted := true } : VmM Unit) :=
  safe_modify fun _ hv => h.memory _ _ hv (fun _ => rfl) rfl

theorem OneWay.write32 (ops : MmioOps) (addr value : BitVec 32) :
    Safe I (fun _ => True) (ops.write32 addr value) := by
  cases ops with
  | fb =>
    exact safe_bind_get fun _ hv => safe_bind (h.lookup.checkIndex _ _ _) fun _ =>
      safe_set (h.memory _ _ hv id rfl)
  | time =>
    refine safe_ite (fun _ => safe_ite (fun _ => ?_) fun _ => ?_) fun _ => h.halt
    · exact safe_modify fun _ hv => h.memory _ _ hv id rfl
    · exact safe_modify fun _ hv => h.memory _ _ hv id rfl
  | sysinfo => exact h.halt

theorem OneWay.storeByte (i : ℕ) (value : BitVec 8) :
    Safe I (fun _ => True) (storeByte i value) :=
  safe_bind_get fun _ hv => safe_bind (h.lookup.checkIndex _ _ _) fun _ =>
    safe_set (h.memory _ _ hv id rfl)

theorem OneWay.hostStore32 (addr value : BitVec 32) :
    Safe I (fun _ => True) (hostStore32 addr value) :=
  safe_bind_get fun _ hv => safe_bind (h.lookup.checkIndex _ _ _) fun _ =>
    safe_set (h.memory _ _ hv id rfl)

theorem OneWay.vmWrite8 (addr : BitVec 32) (value : BitVec 8) :
    Safe I (fun _ => True) (vmWrite8 addr value) := by
  refine safe_bind safe_get fun vm => ?_
  cases fbByteIndex vm.memorySize addr with
  | some i =>
    exact safe_bind_get fun _ hv => safe_bind (h.lookup.checkIndex _ _ _) fun _ =>
      safe_set (h.memory _ _ hv id rfl)
  | none => exact safe_bind (h.lookup.requireRam _ _ _) fun _ => h.storeByte _ _

theorem OneWay.vmWrite32 (addr value : BitVec 32) :
    Safe I (fun _ => True) (vmWrite32 addr value) := by
  refine safe_bind (h.lookup.memcheckAlign _ _ _) fun _ => safe_bind (h.lookup.findMmio addr)
    fun dev => ?_
  cases dev with
  | some dev => exact h.write32 _ _ _
  | none =>
    exact safe_bind (h.lookup.requireRam _ _ _) fun _ => safe_bind (h.storeByte _ _) fun _ =>
      safe_bind (h.storeByte _ _) fun _ => safe_bind (h.storeByte _ _) fun _ => h.storeByte _ _

theorem OneWay.rules : MemoryRules I fun _ => True where
  vmRead8 := h.lookup.vmRead8
  vmRead32 _ := h.lookup.vmRead32 fun ops => h.lookup.read32 h.devices.clock ops _
  vmRead64 := h.lookup.vmRead64 h.devices.clock
  vmWrite8 := h.vmWrite8
  vmWrite32 := h.vmWrite32
  vmWrite64 _ _ := by
    refine safe_bind (h.lookup.memcheckAlign _ _ _) fun _ =>
      safe_bind (h.lookup.requireRam _ _ _) fun _ => ?_
    iterate 7 refine safe_bind (h.storeByte _ _) fun _ => ?_
    exact h.storeByte _ _
  load _ := safe_bind (h.lookup.atomic32PtrOrPanic _ _) fun _ => h.lookup.hostLoad32 _
  store _ _ := safe_bind (h.lookup.atomic32PtrOrPanic _ _) fun _ => h.hostStore32 _ _
  exchange _ _ := safe_bind (h.lookup.atomic32PtrOrPanic _ _) fun _ =>
    safe_bind (h.lookup.hostLoad32 _) fun _ => safe_bind (h.hostStore32 _ _) fun _ => safe_pure _
  fetchAdd _ _ := safe_bind (h.lookup.atomic32PtrOrPanic _ _) fun _ =>
    safe_bind (h.lookup.hostLoad32 _) fun _ => safe_bind (h.hostStore32 _ _) fun _ => safe_pure _
  compareExchange _ _ _ := safe_bind (h.lookup.atomic32PtrOrPanic _ _) fun _ =>
    safe_bind (h.lookup.hostLoad32 _) fun _ => safe_ite
      (fun _ => safe_bind (h.hostStore32 _ _) fun _ => safe_pure _) fun _ => safe_pure _

theorem OneWay.coreFree (c : ℕ) : CoreFree c I := fun vm cpu hv _ => h.cpu vm c cpu hv

theorem OneWay.stepRules (i : Inst) (op : Opcode) : StepRules I (fun _ => True) c i op := by
  have hreg (r : BitVec 8) : Safe I (fun _ => True) (readReg c r) := safe_readReg c (.inr trivial)
  refine (h.coreFree c).stepRules (fun _ _ => .inr trivial) h.rules (fun _ => trivial)
    (fun _ => trivial) h.devices.port (fun _ hv => h.memory _ _ hv (fun _ => rfl) rfl)
    (fun _ => h.devices.inKeyboard (fun _ _ => trivial) fun v => ?_)
    (fun _ => h.devices.trigger _ _) (fun _ => ?_) fun _ => h.devices.trigger
  · exact (h.coreFree c).writeReg (.inr trivial) v
  · exact safe_bind (safe_getCpu c) fun _ => safe_ite (fun _ => safe_pure _) fun _ =>
      safe_bind (hreg _) fun _ => safe_bind (hreg _) fun _ => safe_bind safe_get fun _ =>
      safe_ite (fun _ => safe_pure _) fun _ => safe_bind (h.lookup.checkIndex _ _ _) fun _ =>
      safe_bind (safe_modify fun vm hv => h.cpu vm _ _ hv) fun _ =>
      safe_bind (h.lookup.checkIndex _ _ _) fun _ => safe_modify fun vm hv => h.release vm _ hv

theorem OneWay.vmHandleInterrupts : Safe I (fun _ => True) (vmHandleInterrupts c) := by
  have hdeliver (coreId : ℕ) (ws : List ℕ) :
      Safe I (fun _ => True) (deliverFirst c coreId ws) := by
    induction ws with
    | nil => exact safe_pure _
    | cons w ws ih =>
      exact safe_bind_get fun _ hv => safe_bind (h.lookup.checkIndex _ _ _) fun _ =>
        safe_ite (fun _ => ih) fun _ => safe_bind (safe_set (h.devices _ _ hv rfl)) fun _ =>
        (h.coreFree c).vmEnterInterrupt (fun _ => trivial) h.rules _
  exact safe_bind (safe_getCpu c) fun _ => safe_ite (fun _ => safe_pure _) fun _ =>
    safe_ite (fun _ => safe_pure _) fun _ => hdeliver _ _

theorem OneWay.vmInstructionCase {vm vm' : Vm} (hv : I vm)
    (hrun : vmInstructionCase c vm = .ok ((), vm')) : I vm' := by
  obtain ⟨op, -, hexec⟩ := vmInstructionCase_ok hrun
  exact (h.stepRules (vm.nextInst c) op).execute.ok (h.cpu vm c _ hv) hexec

/-- No event makes it false. -/
theorem OneWay.runEvent {vm vm' : Vm} {e : Event} (hv : I vm)
    (hrun : runEvent e vm = .ok ((), vm')) : I vm' := by
  cases e with
  | handleInterrupts c => exact (h.vmHandleInterrupts (c := c)).ok hv hrun
  | instruction c => exact h.vmInstructionCase hv hrun
  | diskTick => exact (h.devices.diskTick (E := fun _ => True)).ok hv hrun
  | workerTake =>
    rw [workerTake_ok hrun]
    exact h.devices _ _ hv rfl
  | workerTransfer host =>
    exact (safe_workerTransfer (E := fun _ => True) h.worker host).ok hv hrun
  | workerComplete =>
    exact (safe_workerComplete (E := fun _ => True) fun _ _ _ hv => h.devices _ _ hv rfl).ok hv hrun
  | serialRx b =>
    have hsafe : Safe I (fun _ => True) (LampVm.runEvent (.serialRx b)) :=
      safe_bind (h.devices.vmSerialRxEnqueue (fun _ _ => trivial) b) fun _ => safe_pure _
    exact hsafe.ok hv hrun
  | timerTick => exact (h.devices.timerTick (E := fun _ => True)).ok hv hrun
  | registerIsr intNo isrIp =>
    have hsafe : Safe I (fun _ => True) (registerIsr intNo isrIp) :=
      safe_ite (fun _ => safe_throw trivial) fun _ => h.rules.vmWrite64 _ _
    exact hsafe.ok hv hrun

end OneWay

theorem oneWay_halted : OneWay fun vm => vm.halted = true where
  memory _ _ hs hhalt _ := hhalt hs
  lookup := ⟨safe_findMmio fun _ _ _ _ hs => hs, fun _ _ => trivial⟩
  devices _ _ hs h := (congrArg Vm.halted h :).trans hs
  worker _ _ _ _ hs := hs
  cpu _ _ _ hs := hs
  release _ _ hs := hs

theorem oneWay_released (c : ℕ) : OneWay fun vm => vm.coreReleased c = true where
  memory _ _ hs _ h := (congrFun (congrArg Vm.coreReleased h :) c).trans hs
  lookup := ⟨safe_findMmio fun _ _ _ _ hs => hs, fun _ _ => trivial⟩
  devices _ _ hs h := (congrFun (congrArg Vm.coreReleased h :) c).trans hs
  worker _ _ _ _ hs := hs
  cpu _ _ _ hs := hs
  release vm d hs := by
    by_cases hd : c = d
    · subst hd
      exact Function.update_self ..
    · exact (Function.update_of_ne hd _ _).trans hs

theorem oneWay_smpCores (n : ℕ) : OneWay fun vm => vm.smpCores = n where
  memory _ _ hs _ h := (congrArg Vm.smpCores h :).trans hs
  lookup := ⟨safe_findMmio fun _ _ _ _ hs => hs, fun _ _ => trivial⟩
  devices _ _ hs h := (congrArg Vm.smpCores h :).trans hs
  worker _ _ _ _ hs := hs
  cpu _ _ _ hs := hs
  release _ _ hs := hs

/-! ## Steps of a thread -/

section Threads

variable {s t : VmRun} {c : ℕ}

theorem event_ok {e : Event} (h : s.event e = .ok t) :
    ∃ vm, runEvent e s.vm = .ok ((), vm) ∧ t = { s with vm := vm } := by
  unfold VmRun.event at h
  cases hrun : runEvent e s.vm with
  | error f =>
    rw [hrun] at h
    cases h
  | ok r =>
    rw [hrun] at h
    exact ⟨r.2, rfl, (Except.ok.inj h).symm⟩

/-- An event of a thread, and the statement behind it. -/
theorem event_put {e : Event} {place : ThreadPlace} {counters : BitVec 64 × BitVec 64}
    (h : (s.event e).map (VmRun.put c place counters) = .ok t) :
    ∃ vm, runEvent e s.vm = .ok ((), vm) ∧ t = VmRun.put c place counters { s with vm := vm } := by
  cases hevent : s.event e with
  | error f =>
    rw [hevent] at h
    cases h
  | ok u =>
    obtain ⟨vm, hrun, rfl⟩ := event_ok hevent
    rw [hevent] at h
    exact ⟨vm, hrun, (Except.ok.inj h).symm⟩

theorem device_event {e : Event} (h : e.isDevice = true) (vm : Vm) (c : ℕ) :
    eventEnabled vm e ∧ [e].countP (Event.isInstruction c) = 0 := by
  cases e <;> simp_all [Event.isDevice, eventEnabled, Event.isInstruction]

/-- The main thread only moves on. -/
theorem mainStep_eq (h : mainStep s t) : ∃ main, t = { s with main := main } := by
  unfold mainStep at h
  cases hmain : s.main with
  | watch =>
    rw [hmain] at h
    exact ⟨_, h⟩
  | join i =>
    rw [hmain] at h
    dsimp only at h
    split_ifs at h
    · exact ⟨_, h.2⟩
    · exact ⟨_, h⟩
  | done =>
    rw [hmain] at h
    exact h.elim

/-- What a statement of a thread does. -/
inductive ThreadMove (c : ℕ) (s : VmRun) :
    List Event → Vm → ThreadPlace → BitVec 64 × BitVec 64 → Prop
  | test (h : (s.threads c).place = .test) :
      ThreadMove c s [] s.vm (if s.halted then .leave else .release) (s.counters c)
  | skip (h : (s.threads c).place = .release) (hc : c ≠ 0 ∧ s.vm.coreReleased c = false) :
      ThreadMove c s [] s.vm .test (s.counters c)
  | enter (h : (s.threads c).place = .release) (hc : c = 0 ∨ s.vm.coreReleased c = true) :
      ThreadMove c s [] s.vm .interrupts (s.counters c)
  | interrupts {vm : Vm} (h : (s.threads c).place = .interrupts)
      (hrun : runEvent (.handleInterrupts c) s.vm = .ok ((), vm)) :
      ThreadMove c s [.handleInterrupts c] vm .instruction (s.counters c)
  | instruction {vm : Vm} (h : (s.threads c).place = .instruction)
      (hrun : runEvent (.instruction c) s.vm = .ok ((), vm)) :
      ThreadMove c s [.instruction c] vm .count (s.counters c)
  | count (h : (s.threads c).place = .count) :
      ThreadMove c s [] s.vm (if c = 0 then .tick else .test)
        (countCycle (s.threads c).localCycles (s.executionTimes c))
  | tick {vm : Vm} (h : (s.threads c).place = .tick)
      (hrun : runEvent .diskTick s.vm = .ok ((), vm)) :
      ThreadMove c s [.diskTick] vm .test (s.counters c)
  | leave (h : (s.threads c).place = .leave) :
      ThreadMove c s [] s.vm .done
        (vmFlushExecutionTimes (s.threads c).localCycles (s.executionTimes c))

theorem threadStep_move (hdone : (s.threads c).place ≠ .done) (h : s.threadStep c = .ok t) :
    ∃ vm place counters, ThreadMove c s (runEvents s (.thread c)) vm place counters ∧
      t = VmRun.put c place counters { s with vm := vm } := by
  unfold VmRun.threadStep at h
  cases hplace : (s.threads c).place with
  | test =>
    rw [hplace] at h
    rw [show runEvents s (.thread c) = [] by simp [runEvents, hplace]]
    exact ⟨_, _, _, .test hplace, (Except.ok.inj h).symm⟩
  | release =>
    rw [hplace] at h
    rw [show runEvents s (.thread c) = [] by simp [runEvents, hplace]]
    by_cases hc : c ≠ 0 ∧ s.vm.coreReleased c = false
    · simp only [if_pos hc] at h
      exact ⟨_, _, _, .skip hplace hc, (Except.ok.inj h).symm⟩
    · simp only [if_neg hc] at h
      have hc' : c = 0 ∨ s.vm.coreReleased c = true := by
        by_cases h0 : c = 0
        · exact .inl h0
        · exact .inr (Bool.eq_true_of_not_eq_false fun hfalse => hc ⟨h0, hfalse⟩)
      exact ⟨_, _, _, .enter hplace hc', (Except.ok.inj h).symm⟩
  | interrupts =>
    rw [hplace] at h
    rw [show runEvents s (.thread c) = [.handleInterrupts c] by simp [runEvents, hplace]]
    obtain ⟨vm, hrun, ht⟩ := event_put h
    exact ⟨_, _, _, .interrupts hplace hrun, ht⟩
  | instruction =>
    rw [hplace] at h
    rw [show runEvents s (.thread c) = [.instruction c] by simp [runEvents, hplace]]
    obtain ⟨vm, hrun, ht⟩ := event_put h
    exact ⟨_, _, _, .instruction hplace hrun, ht⟩
  | count =>
    rw [hplace] at h
    rw [show runEvents s (.thread c) = [] by simp [runEvents, hplace]]
    exact ⟨_, _, _, .count hplace, (Except.ok.inj h).symm⟩
  | tick =>
    rw [hplace] at h
    rw [show runEvents s (.thread c) = [.diskTick] by simp [runEvents, hplace]]
    obtain ⟨vm, hrun, ht⟩ := event_put h
    exact ⟨_, _, _, .tick hplace hrun, ht⟩
  | leave =>
    rw [hplace] at h
    rw [show runEvents s (.thread c) = [] by simp [runEvents, hplace]]
    exact ⟨_, _, _, .leave hplace, (Except.ok.inj h).symm⟩
  | done => exact absurd hplace hdone

/-! ## Counting -/

theorem flush_total (localCycles executionTimes : BitVec 64) :
    (vmFlushExecutionTimes localCycles executionTimes).2 +
      (vmFlushExecutionTimes localCycles executionTimes).1 = executionTimes + localCycles := by
  unfold vmFlushExecutionTimes
  split_ifs with h
  · rfl
  · exact BitVec.add_zero _

theorem flush_local (localCycles executionTimes : BitVec 64) :
    (vmFlushExecutionTimes localCycles executionTimes).1 = 0 := by
  unfold vmFlushExecutionTimes
  split_ifs with h
  · exact h
  · rfl

theorem countCycle_total (localCycles executionTimes : BitVec 64) :
    (countCycle localCycles executionTimes).2 + (countCycle localCycles executionTimes).1 =
      executionTimes + localCycles + 1 := by
  unfold countCycle
  split_ifs with h
  · rw [flush_total, BitVec.add_assoc]
  · rw [BitVec.add_assoc]

theorem countCycle_local (localCycles executionTimes : BitVec 64) :
    (countCycle localCycles executionTimes).1 < executionTimesFlushInterval := by
  unfold countCycle
  split_ifs with h
  · rw [flush_local]
    decide
  · exact BitVec.not_le.mp h

/-- What core `c` has counted, with the instruction that it has just executed. -/
def VmRun.executed (s : VmRun) (c : ℕ) : BitVec 64 :=
  s.executionTimes c + (s.threads c).localCycles +
    if (s.threads c).place = .count then 1 else 0

theorem ThreadMove.executed {es : List Event} {vm : Vm} {place : ThreadPlace}
    {counters : BitVec 64 × BitVec 64} (h : ThreadMove c s es vm place counters) :
    counters.2 + counters.1 + (if place = .count then 1 else 0) =
      s.executed c + BitVec.ofNat 64 (es.countP (Event.isInstruction c)) := by
  cases h with
  | test hplace =>
    split_ifs <;> simp_all [VmRun.executed, VmRun.counters]
  | skip hplace => simp [VmRun.executed, VmRun.counters, hplace]
  | enter hplace => simp [VmRun.executed, VmRun.counters, hplace]
  | interrupts hplace =>
    simp [VmRun.executed, VmRun.counters, hplace, Event.isInstruction]
  | instruction hplace =>
    simp [VmRun.executed, VmRun.counters, hplace, Event.isInstruction]
  | count hplace =>
    have hplace' : (if c = 0 then ThreadPlace.tick else .test) ≠ .count := by
      split_ifs <;> simp
    simp [VmRun.executed, hplace, hplace', countCycle_total]
  | tick hplace => simp [VmRun.executed, VmRun.counters, hplace, Event.isInstruction]
  | leave hplace => simp [VmRun.executed, hplace, flush_total]

/-- Whether the main thread has seen thread `c` end. -/
def MainPlace.past (c : ℕ) : MainPlace → Prop
  | .watch => False
  | .join i => c < i
  | .done => True

structure ThreadInv (n : ℕ) (events : List Event) (s : VmRun) : Prop where
  smpCores : s.vm.smpCores = n
  released : ∀ c, (s.threads c).place = .interrupts ∨ (s.threads c).place = .instruction →
    c = 0 ∨ s.vm.coreReleased c = true
  counted : ∀ c, s.executed c = BitVec.ofNat 64 (events.countP (Event.isInstruction c))
  unflushed : ∀ c, (s.threads c).localCycles < executionTimesFlushInterval
  ended : ∀ c, (s.threads c).place = .done → (s.threads c).localCycles = 0
  joined : ∀ c < n, s.main.past c → (s.threads c).place = .done

theorem threadInv_start (vm : Vm) : ThreadInv vm.smpCores [] (.start vm) where
  smpCores := rfl
  released _ h := by rcases h with h | h <;> cases h
  counted _ := rfl
  unflushed _ := show (0 : BitVec 64) < 1024 by decide
  ended _ _ := rfl
  joined _ _ h := h.elim

theorem ThreadMove.keeps {I : Vm → Prop} (hI : OneWay I) {es : List Event} {vm : Vm}
    {place : ThreadPlace} {counters : BitVec 64 × BitVec 64}
    (h : ThreadMove c s es vm place counters) (hs : I s.vm) : I vm := by
  cases h with
  | interrupts _ hrun | instruction _ hrun | tick _ hrun => exact hI.runEvent hs hrun
  | test | skip | enter | count | leave => exact hs

theorem ThreadMove.isInstruction_of_ne {es : List Event} {vm : Vm} {place : ThreadPlace}
    {counters : BitVec 64 × BitVec 64} (h : ThreadMove c s es vm place counters) {d : ℕ}
    (hd : d ≠ c) : es.countP (Event.isInstruction d) = 0 := by
  cases h with
  | instruction => simp [Event.isInstruction, Ne.symm hd]
  | interrupts | tick => simp [Event.isInstruction]
  | test | skip | enter | count | leave => rfl

@[simp] theorem put_threads_self (place : ThreadPlace) (counters : BitVec 64 × BitVec 64) :
    (s.put c place counters).threads c = ⟨place, counters.1⟩ := Function.update_self ..

theorem put_threads_of_ne (place : ThreadPlace) (counters : BitVec 64 × BitVec 64) {d : ℕ}
    (hd : d ≠ c) : (s.put c place counters).threads d = s.threads d :=
  Function.update_of_ne hd ..

@[simp] theorem put_executionTimes_self (place : ThreadPlace) (counters : BitVec 64 × BitVec 64) :
    (s.put c place counters).executionTimes c = counters.2 := Function.update_self ..

theorem put_executionTimes_of_ne (place : ThreadPlace) (counters : BitVec 64 × BitVec 64) {d : ℕ}
    (hd : d ≠ c) : (s.put c place counters).executionTimes d = s.executionTimes d :=
  Function.update_of_ne hd ..

/-- A statement of a thread keeps the invariant. -/
theorem ThreadInv.move {n : ℕ} {events es : List Event} {vm : Vm} {place : ThreadPlace}
    {counters : BitVec 64 × BitVec 64} (h : ThreadInv n events s)
    (hdone : (s.threads c).place ≠ .done) (hc : c < n)
    (hmove : ThreadMove c s es vm place counters) :
    ThreadInv n (events ++ es) (VmRun.put c place counters { s with vm := vm }) where
  smpCores := hmove.keeps (oneWay_smpCores n) h.smpCores
  released d hd := by
    by_cases hdc : d = c
    · subst hdc
      rw [put_threads_self] at hd
      cases hmove with
      | enter _ hreleased => exact hreleased
      | interrupts hplace hrun =>
        exact (h.released d (.inl hplace)).imp_right ((oneWay_released d).runEvent · hrun)
      | test => split_ifs at hd <;> simp at hd
      | count => split_ifs at hd <;> simp at hd
      | skip | instruction | tick | leave => simp at hd
    · rw [put_threads_of_ne _ _ hdc] at hd
      exact (h.released d hd).imp_right (hmove.keeps (oneWay_released d))
  counted d := by
    rw [List.countP_append, BitVec.ofNat_add, ← h.counted d]
    by_cases hdc : d = c
    · subst hdc
      rw [← hmove.executed]
      simp [VmRun.executed]
    · rw [hmove.isInstruction_of_ne hdc]
      simp [VmRun.executed, put_threads_of_ne _ _ hdc, put_executionTimes_of_ne _ _ hdc]
  unflushed d := by
    by_cases hdc : d = c
    · subst hdc
      rw [put_threads_self]
      cases hmove with
      | count => exact countCycle_local _ _
      | leave =>
        rw [flush_local]
        decide
      | test | skip | enter | interrupts | instruction | tick => exact h.unflushed d
    · rw [put_threads_of_ne _ _ hdc]
      exact h.unflushed d
  ended d hd := by
    by_cases hdc : d = c
    · subst hdc
      rw [put_threads_self] at hd ⊢
      cases hmove with
      | leave => exact flush_local _ _
      | test => split_ifs at hd
      | count => split_ifs at hd
      | skip | enter | interrupts | instruction | tick => simp at hd
    · rw [put_threads_of_ne _ _ hdc] at hd ⊢
      exact h.ended d hd
  joined d hd hpast := by
    have hdc : d ≠ c := by
      rintro rfl
      exact hdone (h.joined d hd hpast)
    rw [put_threads_of_ne _ _ hdc]
    exact h.joined d hd hpast

/-! ## Runs -/

variable {memorySize : ℕ} {smpCores : ℤ} {n : ℕ} {events : List Event} {l : RunLabel}

theorem ThreadMove.run {es : List Event} {vm : Vm} {place : ThreadPlace}
    {counters : BitVec 64 × BitVec 64} (hmove : ThreadMove c s es vm place counters)
    (h : ThreadInv n events s) (hc : c < s.vm.smpCores) :
    Run (machine memorySize smpCores) s.vm es vm := by
  cases hmove with
  | interrupts hplace hrun => exact Run.nil.snoc ⟨⟨hc, h.released c (.inl hplace)⟩, hrun⟩
  | instruction hplace hrun => exact Run.nil.snoc ⟨⟨hc, h.released c (.inr hplace)⟩, hrun⟩
  | tick hplace hrun => exact Run.nil.snoc ⟨trivial, hrun⟩
  | test | skip | enter | count | leave => exact .nil

/-- No step makes an assertion false that no event makes false. -/
theorem OneWay.step {I : Vm → Prop} (hI : OneWay I)
    (hs : (vmRun memorySize smpCores).step s l t) (h : I s.vm) : I t.vm := by
  cases l with
  | thread c =>
    obtain ⟨-, hdone, hstep⟩ := hs
    obtain ⟨vm, place, counters, hmove, rfl⟩ := threadStep_move hdone hstep
    exact hmove.keeps hI h
  | device e =>
    obtain ⟨vm, hrun, rfl⟩ := event_ok hs.2
    exact hI.runEvent h hrun
  | close =>
    obtain rfl : t = { s with closed := true } := hs
    exact h
  | main =>
    obtain ⟨main, rfl⟩ := mainStep_eq hs
    exact h

/-- No step but its own moves a thread. -/
theorem step_threads (hs : (vmRun memorySize smpCores).step s l t) (hl : l ≠ .thread c) :
    t.threads c = s.threads c := by
  cases l with
  | thread d =>
    obtain ⟨-, hdone, hstep⟩ := hs
    obtain ⟨vm, place, counters, hmove, rfl⟩ := threadStep_move hdone hstep
    exact put_threads_of_ne _ _ fun hcd => hl (hcd ▸ rfl)
  | device e =>
    obtain ⟨vm, hrun, rfl⟩ := event_ok hs.2
    rfl
  | close =>
    obtain rfl : t = { s with closed := true } := hs
    rfl
  | main =>
    obtain ⟨main, rfl⟩ := mainStep_eq hs
    rfl

/-- What a step does to the machine is what its events do. -/
theorem ThreadInv.step (h : ThreadInv n events s) (hs : (vmRun memorySize smpCores).step s l t) :
    ThreadInv n (events ++ runEvents s l) t ∧
      Run (machine memorySize smpCores) s.vm (runEvents s l) t.vm := by
  cases l with
  | thread c =>
    obtain ⟨hc, hdone, hstep⟩ := hs
    obtain ⟨vm, place, counters, hmove, rfl⟩ := threadStep_move hdone hstep
    exact ⟨h.move hdone (h.smpCores ▸ hc) hmove, hmove.run h hc⟩
  | device e =>
    obtain ⟨hdevice, hevent⟩ := hs
    obtain ⟨vm, hrun, rfl⟩ := event_ok hevent
    refine ⟨⟨?_, fun c hc => ?_, fun c => ?_, h.unflushed, h.ended, h.joined⟩,
      Run.nil.snoc ⟨(device_event hdevice s.vm 0).1, hrun⟩⟩
    · exact (oneWay_smpCores n).runEvent h.smpCores hrun
    · exact (h.released c hc).imp_right ((oneWay_released c).runEvent · hrun)
    · rw [runEvents, List.countP_append, (device_event hdevice s.vm c).2, Nat.add_zero,
        ← h.counted c]
      rfl
  | close =>
    obtain rfl : t = { s with closed := true } := hs
    rw [runEvents, List.append_nil]
    exact ⟨⟨h.smpCores, h.released, h.counted, h.unflushed, h.ended, h.joined⟩, .nil⟩
  | main =>
    obtain ⟨main, rfl, hjoined⟩ : ∃ main, t = { s with main := main } ∧
        ∀ c < n, main.past c → (s.threads c).place = .done := by
      change mainStep s t at hs
      unfold mainStep at hs
      cases hmain : s.main with
      | watch =>
        rw [hmain] at hs
        refine ⟨_, hs, fun c _ hpast => ?_⟩
        split_ifs at hpast
        · exact absurd hpast (Nat.not_lt_zero c)
        · exact hpast.elim
      | join i =>
        rw [hmain] at hs
        have hbefore := fun c hc => h.joined c hc
        simp only [hmain] at hbefore
        dsimp only at hs
        rw [h.smpCores] at hs
        split_ifs at hs with hi
        · refine ⟨_, hs.2, fun c hc hpast => ?_⟩
          rcases Nat.lt_succ_iff_lt_or_eq.mp hpast with hlt | rfl
          · exact hbefore c hc hlt
          · exact hs.1
        · exact ⟨_, hs, fun c hc _ => hbefore c hc (lt_of_lt_of_le hc (not_lt.mp hi))⟩
      | done =>
        rw [hmain] at hs
        exact hs.elim
    rw [runEvents, List.append_nil]
    exact ⟨⟨h.smpCores, h.released, h.counted, h.unflushed, h.ended, hjoined⟩, .nil⟩

/-- An interleaving of the threads, with statements in one piece, is a run of the machine. -/
theorem threads_run {vm : Vm} {ls : List RunLabel} {q : VmRun × List Event}
    (h : Run ((vmRun memorySize smpCores).logged runEvents) (.start vm, []) ls q) :
    ThreadInv vm.smpCores q.2 q.1 ∧ Run (machine memorySize smpCores) vm q.2 q.1.vm := by
  induction h with
  | nil => exact ⟨threadInv_start vm, .nil⟩
  | snoc _ hstep ih =>
    obtain ⟨hs, hlog⟩ := hstep
    obtain ⟨hinv, hrun⟩ := ih.1.step hs
    rw [hlog]
    exact ⟨hinv, ih.2.trans hrun⟩

/-! ## Statements that overlap -/

/-- What any part of an instruction, of an interrupt entry or of a device's step leaves alone: it
neither starts the machine again nor takes a core back. -/
structure Vm.Grows (vm vm' : Vm) : Prop where
  halted : vm.halted = true → vm'.halted = true
  released : ∀ c, vm.coreReleased c = true → vm'.coreReleased c = true
  smpCores : vm'.smpCores = vm.smpCores

protected theorem Vm.Grows.refl (vm : Vm) : vm.Grows vm := ⟨id, fun _ => id, rfl⟩

theorem grows_of_event {vm vm' : Vm} {e : Event} (h : runEvent e vm = .ok ((), vm')) :
    vm.Grows vm' where
  halted hs := oneWay_halted.runEvent hs h
  released c hs := (oneWay_released c).runEvent hs h
  smpCores := (oneWay_smpCores _).runEvent rfl h

/-- Where a thread goes when its statement has come to an end. -/
def VmRun.nextPlace (c : ℕ) (s : VmRun) : ThreadPlace :=
  match (s.threads c).place with
  | .test => if s.halted then .leave else .release
  | .release => if c ≠ 0 ∧ s.vm.coreReleased c = false then .test else .interrupts
  | .interrupts => .instruction
  | .instruction => .count
  | .count => if c = 0 then .tick else .test
  | .tick => .test
  | .leave | .done => .done

def VmRun.nextCounters (c : ℕ) (s : VmRun) : BitVec 64 × BitVec 64 :=
  match (s.threads c).place with
  | .count => countCycle (s.threads c).localCycles (s.executionTimes c)
  | .leave => vmFlushExecutionTimes (s.threads c).localCycles (s.executionTimes c)
  | _ => s.counters c

inductive LoopLabel
  /-- A statement of a thread's loop comes to an end. -/
  | thread (c : ℕ)
  /-- A part of some thread's instruction, interrupt entry or tick, or of a device's step. -/
  | part
  | close
  | main

/-- The loops of `vm_run`, with statements that overlap in any way: what they do to the machine is
done in parts, by all threads in turn, and a part does anything but take a flag back. -/
def vmLoops (memorySize : ℕ) (smpCores : ℤ) : System VmRun LoopLabel where
  init := (vmRun memorySize smpCores).init
  step s l t :=
    match l with
    | .thread c =>
      c < s.vm.smpCores ∧ (s.threads c).place ≠ .done ∧
        t = s.put c (s.nextPlace c) (s.nextCounters c)
    | .part => ∃ vm, s.vm.Grows vm ∧ t = { s with vm := vm }
    | .close => t = { s with closed := true }
    | .main => mainStep s t

/-- The core whose instruction ends with a step. -/
def loopInstructions (s : VmRun) : LoopLabel → List ℕ
  | .thread c => if (s.threads c).place = .instruction then [c] else []
  | _ => []

def LoopLabel.isThread (c : ℕ) : LoopLabel → Bool
  | .thread d => d == c
  | _ => false

/-- A statement in one piece does all its parts and comes to an end. -/
theorem ThreadMove.parts {es : List Event} {vm : Vm} {place : ThreadPlace}
    {counters : BitVec 64 × BitVec 64} (h : ThreadMove c s es vm place counters) :
    s.vm.Grows vm ∧ place = ({ s with vm := vm } : VmRun).nextPlace c ∧
      counters = ({ s with vm := vm } : VmRun).nextCounters c ∧
      ∀ d, (loopInstructions { s with vm := vm } (.thread c)).count d =
        es.countP (Event.isInstruction d) := by
  cases h with
  | test hplace =>
    refine ⟨.refl _, ?_, ?_, fun d => ?_⟩ <;>
      simp [VmRun.nextPlace, VmRun.nextCounters, loopInstructions, hplace]
  | skip hplace hc =>
    refine ⟨.refl _, ?_, ?_, fun d => ?_⟩ <;>
      simp [VmRun.nextPlace, VmRun.nextCounters, loopInstructions, hplace, hc]
  | enter hplace hc =>
    have hnot : ¬ (c ≠ 0 ∧ s.vm.coreReleased c = false) := by
      rintro ⟨hne, hheld⟩
      exact hc.elim hne fun hreleased => Bool.false_ne_true (hheld.symm.trans hreleased)
    refine ⟨.refl _, ?_, ?_, fun d => ?_⟩
    · simp only [VmRun.nextPlace, hplace, if_neg hnot]
    · simp only [VmRun.nextCounters, hplace]
    · simp [loopInstructions, hplace]
  | interrupts hplace hrun =>
    refine ⟨grows_of_event hrun, ?_, ?_, fun d => ?_⟩ <;>
      simp [VmRun.nextPlace, VmRun.nextCounters, VmRun.counters, loopInstructions, hplace,
        Event.isInstruction]
  | instruction hplace hrun =>
    refine ⟨grows_of_event hrun, ?_, ?_, fun d => ?_⟩ <;>
      simp [VmRun.nextPlace, VmRun.nextCounters, VmRun.counters, loopInstructions, hplace,
        Event.isInstruction, List.count_singleton, List.countP_singleton]
  | count hplace =>
    refine ⟨.refl _, ?_, ?_, fun d => ?_⟩ <;>
      simp [VmRun.nextPlace, VmRun.nextCounters, loopInstructions, hplace]
  | tick hplace hrun =>
    refine ⟨grows_of_event hrun, ?_, ?_, fun d => ?_⟩ <;>
      simp [VmRun.nextPlace, VmRun.nextCounters, VmRun.counters, loopInstructions, hplace,
        Event.isInstruction]
  | leave hplace =>
    refine ⟨.refl _, ?_, ?_, fun d => ?_⟩ <;>
      simp [VmRun.nextPlace, VmRun.nextCounters, loopInstructions, hplace]

/-- The step lemma: statements in one piece are among those that overlap. -/
theorem loops_step (hs : (vmRun memorySize smpCores).step s l t) (log : List ℕ) :
    ∃ ls es, Run ((vmLoops memorySize smpCores).logged loopInstructions) (s, log) ls
        (t, log ++ es) ∧
      ∀ c, es.count c = (runEvents s l).countP (Event.isInstruction c) := by
  cases l with
  | thread c =>
    obtain ⟨hc, hdone, hstep⟩ := hs
    obtain ⟨vm, place, counters, hmove, rfl⟩ := threadStep_move hdone hstep
    obtain ⟨hgrows, rfl, rfl, hcount⟩ := hmove.parts
    have hpart : Run ((vmLoops memorySize smpCores).logged loopInstructions) (s, log) [.part]
        ({ s with vm := vm }, log) := Run.nil.snoc ⟨⟨vm, hgrows, rfl⟩, (List.append_nil _).symm⟩
    have hend : ((vmLoops memorySize smpCores).logged loopInstructions).step
        ({ s with vm := vm }, log) (.thread c) (VmRun.put c _ _ { s with vm := vm }, _) :=
      ⟨⟨hgrows.smpCores ▸ hc, hdone, rfl⟩, rfl⟩
    exact ⟨_, _, hpart.snoc hend, hcount⟩
  | device e =>
    obtain ⟨vm, hrun, rfl⟩ := event_ok hs.2
    refine ⟨[.part], [], Run.nil.snoc ⟨⟨vm, grows_of_event hrun, rfl⟩, rfl⟩, fun c => ?_⟩
    rw [runEvents, (device_event hs.1 s.vm c).2]
    rfl
  | close => exact ⟨[.close], [], Run.nil.snoc ⟨hs, rfl⟩, fun c => rfl⟩
  | main => exact ⟨[.main], [], Run.nil.snoc ⟨hs, rfl⟩, fun c => rfl⟩

/-- The run lemma. -/
theorem loops_run {ls : List RunLabel} {q : VmRun × List Event}
    (h : Run ((vmRun memorySize smpCores).logged runEvents) (s, []) ls q) :
    ∃ ls' log, Run ((vmLoops memorySize smpCores).logged loopInstructions) (s, []) ls'
        (q.1, log) ∧ ∀ c, log.count c = q.2.countP (Event.isInstruction c) := by
  induction h with
  | nil => exact ⟨[], [], .nil, fun c => rfl⟩
  | snoc _ hstep ih =>
    obtain ⟨hs, hlog⟩ := hstep
    obtain ⟨ls', log, hrun, hcount⟩ := ih
    obtain ⟨ls'', es, hrun', hcount'⟩ := loops_step hs log
    refine ⟨ls' ++ ls'', log ++ es, hrun.trans hrun', fun c => ?_⟩
    rw [List.count_append, hlog, List.countP_append, hcount, hcount']

/-! ## Halting -/

/-- Whether the thread has seen the machine running. -/
def ThreadPlace.pastTest : ThreadPlace → Bool
  | .release | .interrupts | .instruction => true
  | _ => false

/-- The statements that a thread has left once the machine has halted. -/
def ThreadPlace.left : ThreadPlace → ℕ
  | .release => 7
  | .interrupts => 6
  | .instruction => 5
  | .count => 4
  | .tick => 3
  | .test => 2
  | .leave => 1
  | .done => 0

/-- Once the machine has halted every statement of a thread brings it nearer to its end. -/
theorem nextPlace_left (hhalted : s.halted = true) (hdone : (s.threads c).place ≠ .done) :
    (s.nextPlace c).left < (s.threads c).place.left ∧
      (loopInstructions s (.thread c)).count c + (s.nextPlace c).pastTest.toNat ≤
        (s.threads c).place.pastTest.toNat := by
  cases hplace : (s.threads c).place with
  | test =>
    simp [VmRun.nextPlace, loopInstructions, hplace, hhalted, ThreadPlace.left,
      ThreadPlace.pastTest]
  | release | count =>
    simp only [VmRun.nextPlace, loopInstructions, hplace]
    split_ifs <;> simp_all [ThreadPlace.left, ThreadPlace.pastTest]
  | interrupts | instruction | tick | leave =>
    simp [VmRun.nextPlace, loopInstructions, hplace, ThreadPlace.left, ThreadPlace.pastTest]
  | done => exact absurd hplace hdone

section Loops

variable {l : LoopLabel}

/-- The machine does not start again. -/
theorem halted_step (hhalted : s.halted = true) (hs : (vmLoops memorySize smpCores).step s l t) :
    t.halted = true := by
  rw [VmRun.halted, Bool.or_eq_true] at hhalted ⊢
  cases l with
  | thread c =>
    obtain ⟨-, -, rfl⟩ := hs
    exact hhalted
  | part =>
    obtain ⟨vm, hgrows, rfl⟩ := hs
    exact hhalted.imp_left hgrows.halted
  | close =>
    obtain rfl : t = { s with closed := true } := hs
    exact .inr rfl
  | main =>
    obtain ⟨main, rfl⟩ := mainStep_eq hs
    exact hhalted

/-- No step but its own moves a thread. -/
theorem loops_threads (hs : (vmLoops memorySize smpCores).step s l t)
    (hl : l.isThread c = false) :
    (t.threads c).place = (s.threads c).place ∧ (loopInstructions s l).count c = 0 := by
  cases l with
  | thread d =>
    have hcd : c ≠ d := by
      rintro rfl
      simp [LoopLabel.isThread] at hl
    obtain ⟨-, -, rfl⟩ := hs
    rw [put_threads_of_ne _ _ hcd, loopInstructions]
    refine ⟨rfl, ?_⟩
    split_ifs
    · simp [Ne.symm hcd]
    · rfl
  | part =>
    obtain ⟨vm, -, rfl⟩ := hs
    exact ⟨rfl, rfl⟩
  | close =>
    obtain rfl : t = { s with closed := true } := hs
    exact ⟨rfl, rfl⟩
  | main =>
    obtain ⟨main, rfl⟩ := mainStep_eq hs
    exact ⟨rfl, rfl⟩

/-- A run of a machine that has halted. -/
theorem halted_run {ls : List LoopLabel} {q : VmRun × List ℕ} (hhalted : s.halted = true)
    (h : Run ((vmLoops memorySize smpCores).logged loopInstructions) (s, []) ls q) :
    q.1.halted = true ∧ ∀ c,
      q.2.count c + (q.1.threads c).place.pastTest.toNat ≤ (s.threads c).place.pastTest.toNat ∧
        ls.countP (LoopLabel.isThread c) + (q.1.threads c).place.left ≤
          (s.threads c).place.left := by
  induction h with
  | nil => exact ⟨hhalted, fun c => by simp⟩
  | @snoc ls l p q _ hstep ih =>
    obtain ⟨hs, hlog⟩ := hstep
    obtain ⟨hp, hcount⟩ := ih
    refine ⟨halted_step hp hs, fun c => ?_⟩
    obtain ⟨hinstructions, hleft⟩ := hcount c
    rw [hlog, List.count_append, List.countP_append, List.countP_singleton]
    cases hl : l.isThread c with
    | true =>
      obtain ⟨d, rfl⟩ : ∃ d, l = .thread d := by
        cases l with
        | thread d => exact ⟨d, rfl⟩
        | part | close | main => cases hl
      obtain rfl : d = c := by simpa [LoopLabel.isThread] using hl
      obtain ⟨-, hdone, hq⟩ := hs
      obtain ⟨hlt, hle⟩ := nextPlace_left hp hdone
      rw [hq, put_threads_self]
      simp only [if_true]
      omega
    | false =>
      obtain ⟨hplace, hnone⟩ := loops_threads hs hl
      rw [hplace, hnone]
      simpa using ⟨hinstructions, hleft⟩

end Loops

/-- What the main thread has left. -/
def MainPlace.left (n : ℕ) : MainPlace → ℕ
  | .watch => n + 2
  | .join i => n - i + 1
  | .done => 0

/-- What all threads have left. -/
def VmRun.left (n : ℕ) (s : VmRun) : ℕ :=
  ∑ c ∈ Finset.range n, (s.threads c).place.left + s.main.left n

theorem left_thread (hhalted : s.halted = true) (hdone : (s.threads c).place ≠ .done)
    (hc : c < n) : (s.put c (s.nextPlace c) (s.nextCounters c)).left n < s.left n := by
  have hlt := (nextPlace_left hhalted hdone).1
  refine Nat.add_lt_add_right (Finset.sum_lt_sum (fun d _ => ?_) ⟨c, Finset.mem_range.mpr hc, ?_⟩) _
  · by_cases hdc : d = c
    · subst hdc
      rw [put_threads_self]
      exact hlt.le
    · rw [put_threads_of_ne _ _ hdc]
  · rw [put_threads_self]
    exact hlt

/-- The main thread can go on when the others have ended. -/
theorem exists_mainStep (hhalted : s.halted = true) (hcores : s.vm.smpCores = n)
    (hall : ∀ c < n, (s.threads c).place = .done) (hmain : s.main ≠ .done) :
    ∃ main, mainStep s { s with main := main } ∧ main.left n < s.main.left n := by
  cases hplace : s.main with
  | watch =>
    refine ⟨.join 0, ?_, by simp [MainPlace.left]⟩
    simp only [mainStep, hplace, hhalted, if_true]
  | join i =>
    by_cases hi : i < n
    · refine ⟨.join (i + 1), ?_, by simp only [MainPlace.left]; omega⟩
      simp only [mainStep, hplace, hcores, if_pos hi]
      exact ⟨hall i hi, trivial⟩
    · refine ⟨.done, ?_, by simp [MainPlace.left]⟩
      simp only [mainStep, hplace, hcores, if_neg hi]
  | done => exact absurd hplace hmain

/-- Once the machine has halted `vm_run` returns when the statements under way come to an end, by
induction on what the threads have left. -/
theorem exists_returns (hcores : s.vm.smpCores = n) (hhalted : s.halted = true) :
    ∃ ls t, Run (vmLoops memorySize smpCores) s ls t ∧ t.main = .done := by
  obtain ⟨k, hk⟩ : ∃ k, s.left n = k := ⟨_, rfl⟩
  induction k using Nat.strong_induction_on generalizing s with
  | _ k ih =>
    subst hk
    have hgo {l : LoopLabel} {t : VmRun} (hs : (vmLoops memorySize smpCores).step s l t)
        (hcores : t.vm.smpCores = n) (hlt : t.left n < s.left n) :
        ∃ ls u, Run (vmLoops memorySize smpCores) s ls u ∧ u.main = .done := by
      obtain ⟨ls, u, hrun, hu⟩ := ih _ hlt hcores (halted_step hhalted hs) rfl
      exact ⟨l :: ls, u, hrun.cons hs, hu⟩
    by_cases hall : ∀ c < n, (s.threads c).place = .done
    · by_cases hmain : s.main = .done
      · exact ⟨[], s, .nil, hmain⟩
      · obtain ⟨main, hstep, hlt⟩ := exists_mainStep hhalted hcores hall hmain
        exact hgo (l := .main) hstep hcores (Nat.add_lt_add_left hlt _)
    · obtain ⟨c, hc, hdone⟩ : ∃ c < n, (s.threads c).place ≠ .done := by
        simpa using hall
      exact hgo (l := .thread c) ⟨hcores ▸ hc, hdone, rfl⟩ hcores (left_thread hhalted hdone hc)

end Threads

variable {memorySize : ℕ} {smpCores : ℤ} {vm : Vm} {s : VmRun} {ls : List RunLabel}
  {events : List Event}

/-- Once the machine has halted, by an instruction or by the window, it stays so, in whatever parts
the statements of the threads overlap: each core executes at most the one instruction that its
thread was on its way to, each thread comes to at most seven more ends of statements, and then
`vm_run` returns (unless a panic in such an instruction ends the process). The runs in which no
statement is interrupted by others are among these. -/
theorem vm_run_halts (hhalted : s.halted = true) :
    (∀ ls q, Run ((vmRun memorySize smpCores).logged runEvents) (s, []) ls q → ∃ ls' log,
      Run ((vmLoops memorySize smpCores).logged loopInstructions) (s, []) ls' (q.1, log) ∧
        ∀ c, log.count c = q.2.countP (Event.isInstruction c)) ∧
    (∀ ls t log, Run ((vmLoops memorySize smpCores).logged loopInstructions) (s, []) ls (t, log) →
      t.halted = true ∧ ∀ c, log.count c ≤ (s.threads c).place.pastTest.toNat ∧
        ls.countP (LoopLabel.isThread c) ≤ 7) ∧
    ∃ ls t, Run (vmLoops memorySize smpCores) s ls t ∧ t.main = .done := by
  refine ⟨fun ls q => loops_run, fun ls t log h => ?_, exists_returns rfl hhalted⟩
  obtain ⟨ht, hcount⟩ := halted_run hhalted h
  refine ⟨ht, fun c => ?_⟩
  obtain ⟨hinstructions, hleft⟩ := hcount c
  dsimp only at hinstructions hleft
  have hseven : (s.threads c).place.left ≤ 7 := by
    cases (s.threads c).place <;> decide
  exact ⟨by omega, by omega⟩

theorem diskTick_of_free (h : vm.disk.status = .free) : diskTick vm = .ok ((), vm) := by
  rw [diskTick, bind_ok (get_apply vm), if_pos h]
  rfl

/-- A machine whose program is `HALT`. -/
structure Halting (vm v : Vm) : Prop where
  init : (machine memSize 1).init vm
  smpCores : vm.smpCores = 1
  running : vm.halted = false
  interrupts : runEvent (.handleInterrupts 0) vm = .ok ((), vm)
  instruction : runEvent (.instruction 0) vm = .ok ((), v)
  halted : v.halted = true
  tick : runEvent .diskTick v = .ok ((), v)

theorem exists_halting : ∃ vm v, Halting vm v := by
  obtain ⟨vm, hvm⟩ := exists_started ⟨fun _ => 0, fun _ => 0, 0⟩ [Asm.halt.inst.encode]
    (show programBase + 1 * 8 ≤ memSize by decide)
  have hram : GuestRam vm := (reachable_inv (.of_init hvm.init)).guestRam
  have hip : (vm.cpus 0).fetchIp = BitVec.ofNat 32 programBase := by
    rw [hvm.core]
    rfl
  have hfetch : (vm.core 0).Fetches .halt := by
    refine ⟨?_, ?_⟩
    · change (vm.cpus 0).fetchIp.toNat + 8 ≤ memSize
      rw [hip]
      decide
    · change leNat vm.memory (vm.cpus 0).fetchIp.toNat 8 = _
      rw [hip]
      exact hvm.word 0 (show 0 < 1 by decide)
  have hidle (ws : List ℕ) (hws : ∀ w ∈ ws, w < irqBitmapWords) :
      deliverFirst 0 0 ws vm = .ok ((), vm) := by
    induction ws with
    | nil => rfl
    | cons w ws ih =>
      obtain ⟨hw, hrest⟩ := List.forall_mem_cons.mp hws
      have hidx : 0 * irqBitmapWords + w < vm.smpCores * irqBitmapWords := by
        rw [hvm.smpCores]
        omega
      rw [deliverFirst, bind_ok (get_apply vm), checkIndex_of_lt hidx,
        bind_ok (pure_apply () vm), hvm.bitmap, if_pos rfl]
      exact ih hrest
  refine ⟨vm, { vm.fetched 0 with halted := true }, hvm.init, hvm.smpCores, hvm.halted, ?_, ?_,
    rfl, ?_⟩
  · change vmHandleInterrupts 0 vm = _
    rw [vmHandleInterrupts, bind_ok (getCpu_apply 0 vm), hvm.core]
    exact hidle _ fun w hw => List.mem_range.mp hw
  · exact vmInstructionCase_of_fetches hram hfetch
  · exact diskTick_of_free hvm.disk

/-- One core whose thread is at a statement. -/
def oneCore (vm : Vm) (place : ThreadPlace) (counters : BitVec 64 × BitVec 64) : VmRun :=
  (VmRun.start vm).put 0 place counters

@[simp] theorem put_oneCore (vm : Vm) (p q : ThreadPlace) (x y : BitVec 64 × BitVec 64) :
    (oneCore vm p x).put 0 q y = oneCore vm q y := by
  simp only [oneCore, VmRun.put, Function.update_idem]

/-- A run goes on with a statement of the thread of core 0. -/
theorem run_thread {r : VmRun × List Event} {p u : VmRun}
    (hrun : Run ((vmRun memSize 1).logged runEvents) r ls (p, events)) (hc : 0 < p.vm.smpCores)
    (hdone : (p.threads 0).place ≠ .done) (hstep : p.threadStep 0 = .ok u) :
    Run ((vmRun memSize 1).logged runEvents) r (ls ++ [.thread 0])
      (u, events ++ runEvents p (.thread 0)) :=
  hrun.snoc ⟨⟨hc, hdone, hstep⟩, rfl⟩

/-- A run goes on with a step of the main thread. -/
theorem run_main {r : VmRun × List Event} {p u : VmRun}
    (hrun : Run ((vmRun memSize 1).logged runEvents) r ls (p, events)) (hstep : mainStep p u) :
    Run ((vmRun memSize 1).logged runEvents) r (ls ++ [.main]) (u, events) :=
  hrun.snoc ⟨hstep, (List.append_nil _).symm⟩

theorem Halting.run {v : Vm} (h : Halting vm v) :
    Run ((vmRun memSize 1).logged runEvents) (.start vm, []) [.thread 0, .thread 0, .thread 0]
      (oneCore vm .instruction (0, 0), [.handleInterrupts 0]) := by
  have hcore : 0 < vm.smpCores := h.smpCores ▸ Nat.one_pos
  have htest : (VmRun.start vm).threadStep 0 = .ok (oneCore vm .release (0, 0)) := by
    have hrunning : (VmRun.start vm).halted = false := by
      rw [VmRun.halted, VmRun.start, h.running]
      rfl
    change Except.ok (VmRun.put 0 (if (VmRun.start vm).halted then .leave else .release) _ _) = _
    rw [hrunning]
    rfl
  have hrelease : (oneCore vm .release (0, 0)).threadStep 0 = .ok (oneCore vm .interrupts (0, 0)) :=
    congrArg Except.ok (put_oneCore ..)
  have hinterrupts : (oneCore vm .interrupts (0, 0)).threadStep 0 =
      .ok (oneCore vm .instruction (0, 0)) := by
    change ((oneCore vm .interrupts (0, 0)).event (.handleInterrupts 0)).map _ = _
    rw [VmRun.event, show runEvent (.handleInterrupts 0) (oneCore vm .interrupts (0, 0)).vm = _
      from h.interrupts]
    exact congrArg Except.ok (put_oneCore ..)
  have hrun := run_thread (r := (.start vm, [])) .nil hcore nofun htest
  exact run_thread (run_thread hrun hcore nofun hrelease) hcore nofun hinterrupts

/-- The window is closed when the thread of a core is on its way to an instruction. The instruction
is executed, and no other. -/
theorem vm_run_halts_closed : ∃ vm s t, (machine memSize 1).init vm ∧
    Run ((vmRun memSize 1).logged runEvents) (.start vm, [])
      [.thread 0, .thread 0, .thread 0, .close] (s, [.handleInterrupts 0]) ∧
    Run ((vmRun memSize 1).logged runEvents) (s, []) [.thread 0] (t, [.instruction 0]) ∧
    ∀ ls u log, Run ((vmLoops memSize 1).logged loopInstructions) (s, []) ls (u, log) →
      log.count 0 ≤ 1 := by
  obtain ⟨vm, v, h⟩ := exists_halting
  have hcore : 0 < vm.smpCores := h.smpCores ▸ Nat.one_pos
  let s : VmRun := { oneCore vm .instruction (0, 0) with closed := true }
  have hclosed : Run ((vmRun memSize 1).logged runEvents) (.start vm, [])
      [.thread 0, .thread 0, .thread 0, .close] (s, [.handleInterrupts 0]) :=
    h.run.snoc ⟨rfl, rfl⟩
  have hinstruction : s.threadStep 0 = .ok (VmRun.put 0 .count (0, 0) { s with vm := v }) := by
    change (s.event (.instruction 0)).map _ = _
    rw [VmRun.event, show runEvent (.instruction 0) s.vm = _ from h.instruction]
    rfl
  refine ⟨vm, s, _, h.init, hclosed, Run.nil.snoc ⟨⟨hcore, nofun, hinstruction⟩, rfl⟩,
    fun ls u log hrun => ?_⟩
  have hhalted : s.halted = true := Bool.or_true vm.halted
  exact (((vm_run_halts hhalted).2.1 ls u log hrun).2 0).1

/-! ## The number of cycles -/

/-- Whether an event is an instruction. -/
def Event.executes : Event → Bool
  | .instruction _ => true
  | _ => false

theorem foldl_executionTimes (f : ℕ → ℕ) (n : ℕ) :
    (List.range n).foldl (fun total i => total + BitVec.ofNat 64 (f i)) 0 =
      BitVec.ofNat 64 (∑ i ∈ Finset.range n, f i) := by
  induction n with
  | zero => rfl
  | succ n ih =>
    rw [List.range_succ, List.foldl_append, ih, Finset.sum_range_succ, BitVec.ofNat_add]
    rfl

/-- Every instruction is one of some core. -/
theorem sum_instructions {n : ℕ} (h : ∀ c, .instruction c ∈ events → c < n) :
    ∑ c ∈ Finset.range n, events.countP (Event.isInstruction c) =
      events.countP Event.executes := by
  induction events with
  | nil => simp
  | cons e events ih =>
    have hih := ih fun c hc => h c (List.mem_cons_of_mem _ hc)
    simp only [List.countP_cons, Finset.sum_add_distrib, hih]
    congr 1
    cases e with
    | instruction c =>
      have hc := h c (List.mem_cons_self ..)
      simp [Event.isInstruction, Event.executes, hc]
    | handleInterrupts | diskTick | workerTake | workerTransfer | workerComplete | serialRx
    | timerTick | registerIsr => simp [Event.isInstruction, Event.executes]

/-- The cores of a run are those of its machine. -/
theorem machine_instruction {u v : Vm} (h : Run (machine memorySize smpCores) u events v) :
    v.smpCores = u.smpCores ∧ ∀ c, .instruction c ∈ events → c < u.smpCores := by
  induction h with
  | nil => exact ⟨rfl, by simp⟩
  | @snoc es e v w _ hstep ih =>
    refine ⟨(oneWay_smpCores _).runEvent ih.1 hstep.2, fun c hc => ?_⟩
    rcases List.mem_append.mp hc with hold | hnew
    · exact ih.2 c hold
    · obtain rfl := List.mem_singleton.mp hnew
      exact ih.1 ▸ hstep.1.1

/-- While the machine runs the counter of a core is behind by at most 1024. When `vm_run` returns
all threads have ended, and the number of cycles that is printed is the number of instructions
that were executed, up to the width of the counters. -/
theorem vm_run_counts_cycles (h : Run ((vmRun memorySize smpCores).logged runEvents)
    (.start vm, []) ls (s, events)) :
    (∀ c, ∃ k ≤ 1024, s.executionTimes c + BitVec.ofNat 64 k =
      BitVec.ofNat 64 (events.countP (Event.isInstruction c))) ∧
    (s.main = .done → (∀ c < vm.smpCores, (s.threads c).place = .done) ∧
      s.totalExecutionTimes = BitVec.ofNat 64 (events.countP Event.executes)) := by
  obtain ⟨hinv, hrun⟩ := threads_run h
  refine ⟨fun c => ?_, fun hmain => ?_⟩
  · have hlocal : (s.threads c).localCycles.toNat < 1024 := hinv.unflushed c
    have hcounted := hinv.counted c
    rw [VmRun.executed] at hcounted
    by_cases hplace : (s.threads c).place = .count
    · refine ⟨(s.threads c).localCycles.toNat + 1, by omega, ?_⟩
      rw [if_pos hplace, BitVec.add_assoc] at hcounted
      rw [← hcounted, BitVec.ofNat_add, BitVec.ofNat_toNat, BitVec.setWidth_eq]
      rfl
    · refine ⟨(s.threads c).localCycles.toNat, by omega, ?_⟩
      rw [BitVec.ofNat_toNat, BitVec.setWidth_eq]
      simpa [hplace] using hcounted
  · have hall : ∀ c < vm.smpCores, (s.threads c).place = .done := fun c hc =>
      hinv.joined c hc (by rw [hmain]; trivial)
    refine ⟨hall, ?_⟩
    have htimes (c : ℕ) (hc : c < vm.smpCores) :
        s.executionTimes c = BitVec.ofNat 64 (events.countP (Event.isInstruction c)) := by
      have hcounted := hinv.counted c
      rw [VmRun.executed, hall c hc, hinv.ended c (hall c hc)] at hcounted
      simpa using hcounted
    rw [VmRun.totalExecutionTimes, hinv.smpCores, ← sum_instructions (machine_instruction hrun).2,
      ← foldl_executionTimes]
    refine List.foldl_ext _ _ _ fun total c hc => ?_
    rw [htimes c (List.mem_range.mp hc)]

/-- A core that halts has executed one instruction. -/
theorem vm_run_counts_cycles_halt : ∃ vm s, (machine memSize 1).init vm ∧
    Run ((vmRun memSize 1).logged runEvents) (.start vm, [])
      [.thread 0, .thread 0, .thread 0, .thread 0, .thread 0, .thread 0, .thread 0, .thread 0,
        .main, .main, .main] (s, [.handleInterrupts 0, .instruction 0, .diskTick]) ∧
    (s.threads 0).place = .done ∧ s.totalExecutionTimes = 1 := by
  obtain ⟨vm, v, h⟩ := exists_halting
  have hvcores : v.smpCores = 1 := (oneWay_smpCores 1).runEvent h.smpCores h.instruction
  have hcore : 0 < vm.smpCores := h.smpCores ▸ Nat.one_pos
  have hvcore : 0 < v.smpCores := hvcores ▸ Nat.one_pos
  have hinstruction : (oneCore vm .instruction (0, 0)).threadStep 0 =
      .ok (oneCore v .count (0, 0)) := by
    change ((oneCore vm .instruction (0, 0)).event (.instruction 0)).map _ = _
    rw [VmRun.event, show runEvent (.instruction 0) (oneCore vm .instruction (0, 0)).vm = _
      from h.instruction]
    exact congrArg Except.ok (put_oneCore v ..)
  have hcount : (oneCore v .count (0, 0)).threadStep 0 = .ok (oneCore v .tick (1, 0)) :=
    congrArg Except.ok (put_oneCore v ..)
  have htick : (oneCore v .tick (1, 0)).threadStep 0 = .ok (oneCore v .test (1, 0)) := by
    change ((oneCore v .tick (1, 0)).event .diskTick).map _ = _
    rw [VmRun.event, show runEvent .diskTick (oneCore v .tick (1, 0)).vm = _ from h.tick]
    exact congrArg Except.ok (put_oneCore v ..)
  have hhalted (place : ThreadPlace) (x : BitVec 64 × BitVec 64) :
      (oneCore v place x).halted = true := by
    change (v.halted || false) = true
    rw [h.halted]
    rfl
  have htest : (oneCore v .test (1, 0)).threadStep 0 = .ok (oneCore v .leave (1, 0)) := by
    change Except.ok (VmRun.put 0 (if (oneCore v .test (1, 0)).halted then .leave else .release)
      _ _) = _
    rw [hhalted]
    exact congrArg Except.ok (put_oneCore v ..)
  have hleave : (oneCore v .leave (1, 0)).threadStep 0 = .ok (oneCore v .done (0, 1)) :=
    congrArg Except.ok (put_oneCore v ..)
  have hrun := run_thread h.run hcore nofun hinstruction
  have hrun := run_thread hrun hvcore nofun hcount
  have hrun := run_thread hrun hvcore nofun htick
  have hrun := run_thread hrun hvcore nofun htest
  have hrun := run_thread hrun hvcore nofun hleave
  let u := oneCore v .done (0, 1)
  have hwatch : mainStep u { u with main := .join 0 } := by
    change { u with main := .join 0 } = { u with main := if u.halted then .join 0 else .watch }
    rw [if_pos (hhalted _ _)]
  have hjoin : mainStep { u with main := .join 0 } { u with main := .join 1 } := by
    change if 0 < v.smpCores then _ else _
    rw [if_pos hvcore]
    exact ⟨rfl, rfl⟩
  have hdone : mainStep { u with main := .join 1 } { u with main := .done } := by
    change if 1 < v.smpCores then _ else _
    rw [if_neg (by rw [hvcores]; decide)]
  have hrun := run_main (run_main (run_main hrun hwatch) hjoin) hdone
  obtain ⟨hall, htotal⟩ := (vm_run_counts_cycles hrun).2 rfl
  exact ⟨vm, _, h.init, hrun, hall 0 hcore, htotal⟩

end LampVm
