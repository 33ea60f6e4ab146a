import LampVm.Pending

/-!
# The disk's command protocol

Three parties share the disk: guest port writes from any core issue commands, the
worker thread takes, performs and completes them, and core 0 turns a completed
command into an interrupt. Each locked region is one step, and so is the unlocked
look at the status with which `disk_tick` begins. Notes record what happened to the
commands; they are compared with the life of one command at a time.
-/
namespace LampVm

open Contract Transition

/-! ## The parties -/

/-- `disk_tick` in two steps: the unlocked test, and the locked region. -/
def diskTickTest : VmM Bool := do
  let vm ← get
  pure (decide (vm.disk.status ≠ .free))

def diskTickLocked : VmM Unit := do
  let vm ← get
  set { vm with disk := vm.disk.tick.1 }
  if vm.disk.tick.2 then triggerInterrupt intDiskComplete else pure ()

/-- Without interference the two steps are the call. -/
theorem diskTick_eq : diskTick = (do if ← diskTickTest then diskTickLocked else pure ()) := by
  funext vm
  simp only [diskTick, diskTickTest, diskTickLocked, bind_apply, get_apply, pure_apply]
  by_cases h : vm.disk.status = .free
  · simp only [h, ne_eq, not_true_eq_false, decide_false, Bool.false_eq_true, if_true, if_false]
  · simp only [h, ne_eq, not_false_eq_true, decide_true, if_true, if_false]
    rfl

/-- The machine, and whether core 0 is between the two steps of `disk_tick`. -/
structure DiskRace where
  vm : Vm
  ticking : Bool

inductive DiskLabel
  | out (addr : ℤ) (value : BitVec 32)
  | take
  | transfer (host : BounceBuffer)
  | complete
  | tickTest
  | tickLocked
  | other

/-- What the rest of the program leaves alone. -/
structure SameDisk (s t : Vm) : Prop where
  disk : t.disk = s.disk
  diskWorker : t.diskWorker = s.diskWorker
  smpCores : t.smpCores = s.smpCores

def diskRace (memorySize : ℕ) (smpCores : ℤ) : System DiskRace DiskLabel where
  init s := (machine memorySize smpCores).init s.vm ∧ s.ticking = false
  step s l t :=
    match l with
    | .out addr value => acceptIo addr value s.vm = .ok ((), t.vm) ∧ t.ticking = s.ticking
    | .take => workerTake s.vm = .ok ((), t.vm) ∧ t.ticking = s.ticking
    | .transfer host => workerTransfer host s.vm = .ok ((), t.vm) ∧ t.ticking = s.ticking
    | .complete => workerComplete s.vm = .ok ((), t.vm) ∧ t.ticking = s.ticking
    | .tickTest => s.ticking = false ∧ diskTickTest s.vm = .ok (t.ticking, t.vm)
    | .tickLocked =>
      s.ticking = true ∧ diskTickLocked s.vm = .ok ((), t.vm) ∧ t.ticking = false
    | .other => SameDisk s.vm t.vm ∧ t.ticking = s.ticking

/-! ## The life of a command -/

inductive DiskNote
  | accepted (cmd : BitVec 32)
  | refused (cmd : BitVec 32)
  | performed (cmd : BitVec 32)
  | completed
  | interrupted
  deriving DecidableEq, Repr

def diskNotes (s : DiskRace) : DiskLabel → List DiskNote
  | .out addr value =>
    if addr ≠ portDiskCmd then []
    else if s.vm.disk.status = .busy then [.refused value] else [.accepted value]
  | .transfer _ =>
    match s.vm.diskWorker with
    | .holding job => [.performed job.cmd]
    | _ => []
  | .complete =>
    match s.vm.diskWorker with
    | .transferred _ => [.completed]
    | _ => []
  | .tickLocked => if s.vm.disk.tick.2 then [.interrupted] else []
  | _ => []

/-- Where the outstanding command is. -/
inductive CommandPhase
  | none
  | issued (cmd : BitVec 32)
  | performed (cmd : BitVec 32)
  | completed
  deriving DecidableEq, Repr

/-- A command is accepted only when none is outstanding, and then it is performed,
completed and reported once, in this order. -/
def CommandPhase.allows : CommandPhase → DiskNote → Prop
  | p, .accepted _ => p = .none
  | p, .refused _ => p ≠ .none
  | p, .performed cmd => p = .issued cmd
  | p, .completed => ∃ cmd, p = .performed cmd
  | p, .interrupted => p = .completed

@[simp] def CommandPhase.apply : CommandPhase → DiskNote → CommandPhase
  | _, .accepted cmd => .issued cmd
  | p, .refused _ => p
  | _, .performed cmd => .performed cmd
  | _, .completed => .completed
  | _, .interrupted => .none

/-- The commands accepted and the commands performed, in order. -/
def acceptedCommands (log : List DiskNote) : List (BitVec 32) :=
  log.filterMap fun
    | .accepted cmd => some cmd
    | _ => none

def performedCommands (log : List DiskNote) : List (BitVec 32) :=
  log.filterMap fun
    | .performed cmd => some cmd
    | _ => none

/-- What of the outstanding command is still to come. -/
@[simp] def CommandPhase.unperformed : CommandPhase → List (BitVec 32)
  | .issued cmd => [cmd]
  | _ => []

@[simp] def CommandPhase.uncompleted : CommandPhase → ℕ
  | .performed _ => 1
  | _ => 0

@[simp] def CommandPhase.unreported : CommandPhase → ℕ
  | .completed => 1
  | _ => 0

/-- In a legal history every accepted command is performed, completed and reported once,
except for what the outstanding one has still to come. -/
theorem legal_exactly_once {p : CommandPhase} {log : List DiskNote}
    (h : Legal CommandPhase.allows CommandPhase.apply p log) :
    p.unperformed ++ acceptedCommands log =
        performedCommands log ++ (log.foldl CommandPhase.apply p).unperformed ∧
      p.uncompleted + (performedCommands log).length =
        log.count .completed + (log.foldl CommandPhase.apply p).uncompleted ∧
      p.unreported + log.count .completed =
        log.count .interrupted + (log.foldl CommandPhase.apply p).unreported := by
  induction log generalizing p with
  | nil => simp [acceptedCommands, performedCommands]
  | cons x log ih =>
    obtain ⟨hx, hrest⟩ := h
    obtain ⟨hperformed, hcompleted, hreported⟩ := ih hrest
    simp only [acceptedCommands, performedCommands] at hperformed hcompleted ⊢
    cases x with
    | accepted cmd =>
      obtain rfl : p = .none := hx
      exact ⟨hperformed, by simpa using hcompleted, by simpa using hreported⟩
    | refused cmd => exact ⟨hperformed, by simpa using hcompleted, by simpa using hreported⟩
    | performed cmd =>
      obtain rfl : p = .issued cmd := hx
      refine ⟨congrArg (cmd :: ·) hperformed, ?_, by simpa using hreported⟩
      simp at hcompleted ⊢
      omega
    | completed =>
      obtain ⟨cmd, rfl⟩ := hx
      refine ⟨hperformed, ?_, ?_⟩
      · simp at hcompleted ⊢
        omega
      · simp at hreported ⊢
        omega
    | interrupted =>
      obtain rfl : p = .completed := hx
      refine ⟨hperformed, by simpa using hcompleted, ?_⟩
      simp at hreported ⊢
      omega

/-! ## What the steps do to the disk -/

section Steps

variable {vm vm' : Vm}

/-- A port write, as far as the disk is concerned. -/
def Disk.out (d : Disk) (addr : ℤ) (value : BitVec 32) : Disk :=
  if addr = portDiskCmd then d.cmd value
  else if addr = portDiskLba then { d with lba := value }
  else if addr = portDiskMem then { d with memAddr := value }
  else if addr = portDiskCount then { d with count := value }
  else d

/-- The part of the state that the protocol is about. -/
def Vm.diskView (vm : Vm) : Disk × DiskWorker × ℕ × (ℕ → BitVec 64) :=
  (vm.disk, vm.diskWorker, vm.smpCores, vm.interruptBitmap)

theorem acceptIo_diskView {addr : ℤ} {value : BitVec 32}
    (h : acceptIo addr value vm = .ok ((), vm')) :
    vm'.diskView = { vm with disk := vm.disk.out addr value }.diskView := by
  have hports : portDiskCmd = 16 ∧ portDiskLba = 17 ∧ portDiskMem = 18 ∧ portDiskCount = 19 :=
    ⟨rfl, rfl, rfl, rfl⟩
  cases acceptIo_portWrite h with
  | outside hrange =>
    have hsize : ioSize = 256 := rfl
    have hout : vm.disk.out addr value = vm.disk := by
      unfold Disk.out
      rw [if_neg (by omega), if_neg (by omega), if_neg (by omega), if_neg (by omega)]
    rw [hout]
  | screen | screenAttribute | diskCmd | diskLba | diskMem | diskCount => rfl
  | @plain port _ hdisk =>
    have hout : vm.disk.out port value = vm.disk := by
      unfold Disk.out
      rw [if_neg (by omega), if_neg (by omega), if_neg (by omega), if_neg (by omega)]
    rw [hout]
    rfl

theorem out_of_ne {addr : ℤ} (h : addr ≠ portDiskCmd) (d : Disk) (value : BitVec 32) :
    (d.out addr value).status = d.status ∧ (d.out addr value).currentCmd = d.currentCmd ∧
      (d.out addr value).opComplete = d.opComplete ∧
      (d.out addr value).threadRunning = d.threadRunning := by
  unfold Disk.out
  rw [if_neg h]
  split_ifs <;> exact ⟨rfl, rfl, rfl, rfl⟩

/-- The locked region of the tick raises the interrupt exactly when it reports it. -/
theorem diskTickLocked_ok (h : diskTickLocked vm = .ok ((), vm')) :
    vm'.disk = vm.disk.tick.1 ∧ vm'.diskWorker = vm.diskWorker ∧ vm'.smpCores = vm.smpCores ∧
      if vm.disk.tick.2 then
        triggerInterrupt intDiskComplete { vm with disk := vm.disk.tick.1 } = .ok ((), vm')
      else vm'.interruptBitmap = vm.interruptBitmap := by
  change (if vm.disk.tick.2 = true then triggerInterrupt intDiskComplete else pure () : VmM Unit)
    { vm with disk := vm.disk.tick.1 } = .ok ((), vm') at h
  split_ifs at h ⊢ with htick
  · obtain ⟨-, heq⟩ | ⟨-, heq⟩ := triggerInterruptTarget_cases h
    · exact ⟨by rw [heq], by rw [heq], by rw [heq], h⟩
    · exact ⟨by rw [heq]; rfl, by rw [heq]; rfl, by rw [heq]; rfl, h⟩
  · obtain ⟨-, rfl⟩ := Prod.mk.inj (Except.ok.inj h)
    exact ⟨rfl, rfl, rfl, rfl⟩

end Steps

/-! ## Every interleaving -/

/-- The registers and the worker while a command is in a phase. -/
def DiskState (d : Disk) (w : DiskWorker) : CommandPhase → Prop
  | .none => d.status = .free ∧ d.currentCmd = diskCmdNone ∧ d.opComplete = false ∧ w = .waiting
  | .issued cmd => d.status = .busy ∧ d.currentCmd = cmd ∧ cmd ≠ diskCmdNone ∧
    d.opComplete = false ∧ (w = .waiting ∨ ∃ job, w = .holding job ∧ job.cmd = cmd)
  | .performed cmd => d.status = .busy ∧ d.currentCmd = cmd ∧ cmd ≠ diskCmdNone ∧
    d.opComplete = false ∧ ∃ job, w = .transferred job
  | .completed => d.status = .busy ∧ d.currentCmd = diskCmdNone ∧ d.opComplete = true ∧
    w = .waiting

structure DiskRepresents (s : DiskRace) (p : CommandPhase) : Prop where
  state : DiskState s.vm.disk s.vm.diskWorker p
  running : s.vm.disk.threadRunning = true
  cores : 0 < s.vm.smpCores

/-- The guest does not issue the value that the worker waits on while the disk is free. -/
def CommandOk (s : DiskRace) (l : DiskLabel) : Prop :=
  ∀ value, l = .out portDiskCmd value → s.vm.disk.status = .free → value ≠ diskCmdNone

variable {M : ℕ} {smpCores : ℤ} {s t : DiskRace} {p : CommandPhase}

theorem DiskState.congr {d e : Disk} {w : DiskWorker} (h : DiskState d w p)
    (hstatus : e.status = d.status) (hcmd : e.currentCmd = d.currentCmd)
    (hop : e.opComplete = d.opComplete) : DiskState e w p := by
  cases p <;> simpa only [DiskState, hstatus, hcmd, hop] using h

/-- The disk is busy exactly when a command is outstanding. -/
theorem DiskState.busy_iff {d : Disk} {w : DiskWorker} (h : DiskState d w p) :
    d.status = .busy ↔ p ≠ .none := by
  cases p with
  | none =>
    rw [h.1]
    exact ⟨nofun, fun hp => absurd rfl hp⟩
  | issued cmd => exact ⟨nofun, fun _ => h.1⟩
  | performed cmd => exact ⟨nofun, fun _ => h.1⟩
  | completed => exact ⟨nofun, fun _ => h.1⟩

/-- What a step must do to stay in the protocol. -/
abbrev DiskStepOk (s : DiskRace) (l : DiskLabel) (t : DiskRace) (p : CommandPhase) : Prop :=
  Legal CommandPhase.allows CommandPhase.apply p (diskNotes s l) ∧
    DiskRepresents t ((diskNotes s l).foldl CommandPhase.apply p)

theorem represents_out (hR : DiskRepresents s p) {addr : ℤ} {value : BitVec 32}
    (hok : CommandOk s (.out addr value)) (h : (diskRace M smpCores).step s (.out addr value) t) :
    DiskStepOk s (.out addr value) t p := by
  have hview := acceptIo_diskView h.1
  simp only [Vm.diskView, Prod.mk.injEq] at hview
  obtain ⟨hdisk, hworker, hcores, -⟩ := hview
  have hpos : 0 < t.vm.smpCores := hcores ▸ hR.cores
  by_cases haddr : addr = portDiskCmd
  · subst haddr
    have hcmd : t.vm.disk = s.vm.disk.cmd value := hdisk.trans (if_pos rfl)
    simp only [DiskStepOk, diskNotes, ne_eq, not_true_eq_false, if_false]
    by_cases hbusy : s.vm.disk.status = .busy
    · rw [if_pos hbusy]
      rw [Disk.cmd, if_pos hbusy] at hcmd
      refine ⟨⟨hR.state.busy_iff.mp hbusy, trivial⟩, ?_, hcmd ▸ hR.running, hpos⟩
      rw [hcmd, hworker]
      exact hR.state
    · rw [if_neg hbusy]
      rw [Disk.cmd, if_neg hbusy] at hcmd
      obtain rfl : p = .none := by
        by_contra hp
        exact hbusy (hR.state.busy_iff.mpr hp)
      refine ⟨⟨rfl, trivial⟩, ?_, hcmd ▸ hR.running, hpos⟩
      rw [hcmd, hworker]
      exact ⟨rfl, rfl, hok value rfl hR.state.1, rfl, .inl hR.state.2.2.2⟩
  · obtain ⟨hstatus, hcur, hop, hrun⟩ := out_of_ne haddr s.vm.disk value
    simp only [DiskStepOk, diskNotes, ne_eq, haddr, not_false_eq_true, if_true]
    refine ⟨trivial, ?_, ?_, hpos⟩
    · rw [hdisk, hworker]
      exact hR.state.congr hstatus hcur hop
    · rw [hdisk]
      exact hrun.trans hR.running

/-- The worker takes only a command that has been issued. -/
theorem DiskState.take {d : Disk} {w : DiskWorker} (h : DiskState d w p)
    (hrun : d.threadRunning = true) : DiskState d (w.take d) p := by
  cases p with
  | none =>
    obtain ⟨hfree, hcmd, hop, rfl⟩ := h
    exact ⟨hfree, hcmd, hop, if_pos ⟨hcmd, hrun⟩⟩
  | issued cmd =>
    obtain ⟨hbusy, hcmd, hne, hop, rfl | ⟨job, rfl, hjob⟩⟩ := h
    · refine ⟨hbusy, hcmd, hne, hop, .inr ⟨⟨d.currentCmd, d.lba, d.memAddr, d.count⟩, ?_, hcmd⟩⟩
      simpa [DiskWorker.take, hcmd, hrun] using hne
    · exact ⟨hbusy, hcmd, hne, hop, .inr ⟨job, rfl, hjob⟩⟩
  | performed cmd =>
    obtain ⟨hbusy, hcmd, hne, hop, job, rfl⟩ := h
    exact ⟨hbusy, hcmd, hne, hop, job, rfl⟩
  | completed =>
    obtain ⟨hbusy, hcmd, hop, rfl⟩ := h
    exact ⟨hbusy, hcmd, hop, if_pos ⟨hcmd, hrun⟩⟩

theorem represents_take (hR : DiskRepresents s p) (h : (diskRace M smpCores).step s .take t) :
    DiskStepOk s .take t p := by
  have hvm := workerTake_ok h.1
  refine ⟨trivial, ?_, hvm ▸ hR.running, hvm ▸ hR.cores⟩
  rw [hvm]
  exact hR.state.take hR.running

/-- The worker holds a job only for the issued command. -/
theorem DiskState.of_holding {d : Disk} {job : DiskJob} (h : DiskState d (.holding job) p) :
    p = .issued job.cmd ∧ DiskState d (.transferred job) (.performed job.cmd) := by
  cases p with
  | none => cases h.2.2.2
  | issued cmd =>
    obtain ⟨hbusy, hcmd, hne, hop, hw | ⟨job', hw, hjob⟩⟩ := h
    · cases hw
    · obtain rfl := DiskWorker.holding.inj hw
      subst hjob
      exact ⟨rfl, hbusy, hcmd, hne, hop, job, rfl⟩
  | performed cmd =>
    obtain ⟨-, -, -, -, job', hw⟩ := h
    cases hw
  | completed => cases h.2.2.2

/-- Without a job in its hands the worker notes nothing. -/
theorem diskNotes_transfer_idle {host : BounceBuffer}
    (hw : ∀ job, s.vm.diskWorker ≠ .holding job) : diskNotes s (.transfer host) = [] := by
  unfold diskNotes
  dsimp only
  split
  · next job hheld => exact absurd hheld (hw job)
  · rfl

theorem diskNotes_complete_idle (hw : ∀ job, s.vm.diskWorker ≠ .transferred job) :
    diskNotes s .complete = [] := by
  unfold diskNotes
  dsimp only
  split
  · next job hheld => exact absurd hheld (hw job)
  · rfl

theorem represents_transfer (hR : DiskRepresents s p) {host : BounceBuffer}
    (h : (diskRace M smpCores).step s (.transfer host) t) :
    DiskStepOk s (.transfer host) t p := by
  obtain ⟨job, memory, image, hw, hvm⟩ | ⟨hw, hvm⟩ := workerTransfer_cases h.1
  · obtain ⟨rfl, hstate⟩ := (hw ▸ hR.state : DiskState _ (.holding job) p).of_holding
    simp only [DiskStepOk, diskNotes, hw]
    exact ⟨⟨rfl, trivial⟩, hvm ▸ hstate, hvm ▸ hR.running, hvm ▸ hR.cores⟩
  · rw [DiskStepOk, diskNotes_transfer_idle hw]
    exact ⟨trivial, hvm ▸ hR.state, hvm ▸ hR.running, hvm ▸ hR.cores⟩

theorem DiskState.of_transferred {d : Disk} {job : DiskJob} (h : DiskState d (.transferred job) p) :
    (∃ cmd, p = .performed cmd) ∧ DiskState d.complete .waiting .completed := by
  cases p with
  | none => cases h.2.2.2
  | issued cmd =>
    obtain ⟨-, -, -, -, hw | ⟨job', hw, -⟩⟩ := h
    · cases hw
    · cases hw
  | performed cmd => exact ⟨⟨cmd, rfl⟩, h.1, rfl, rfl, rfl⟩
  | completed => cases h.2.2.2

theorem represents_complete (hR : DiskRepresents s p)
    (h : (diskRace M smpCores).step s .complete t) : DiskStepOk s .complete t p := by
  obtain ⟨job, hw, hvm⟩ | ⟨hw, hvm⟩ := workerComplete_cases h.1
  · obtain ⟨hp, hstate⟩ := (hw ▸ hR.state : DiskState _ (.transferred job) p).of_transferred
    simp only [DiskStepOk, diskNotes, hw]
    exact ⟨⟨hp, trivial⟩, hvm ▸ hstate, hvm ▸ hR.running, hvm ▸ hR.cores⟩
  · rw [DiskStepOk, diskNotes_complete_idle hw]
    exact ⟨trivial, hvm ▸ hR.state, hvm ▸ hR.running, hvm ▸ hR.cores⟩

theorem represents_tickLocked (hR : DiskRepresents s p)
    (h : (diskRace M smpCores).step s .tickLocked t) : DiskStepOk s .tickLocked t p := by
  obtain ⟨-, hrun, -⟩ := h
  obtain ⟨hdisk, hworker, hcores, -⟩ := diskTickLocked_ok hrun
  have hpos : 0 < t.vm.smpCores := hcores ▸ hR.cores
  have hstate := hR.state
  simp only [DiskStepOk, diskNotes, Disk.tick] at hdisk ⊢
  by_cases hop : s.vm.disk.opComplete = true
  · simp only [hop, if_true] at hdisk ⊢
    obtain rfl : p = .completed := by
      cases p with
      | none => simp [hstate.2.2.1] at hop
      | issued cmd => simp [hstate.2.2.2.1] at hop
      | performed cmd => simp [hstate.2.2.2.1] at hop
      | completed => rfl
    refine ⟨⟨rfl, trivial⟩, ?_, hdisk ▸ hR.running, hpos⟩
    rw [hdisk, hworker]
    exact ⟨rfl, hstate.2.1, rfl, hstate.2.2.2⟩
  · simp only [hop] at hdisk ⊢
    refine ⟨trivial, ?_, hdisk ▸ hR.running, hpos⟩
    rw [hdisk, hworker]
    exact hstate

/-- The step lemma: whichever party moves, the outstanding command goes through its
phases in order. -/
theorem diskRepresents_step (l : DiskLabel) (hR : DiskRepresents s p) (hok : CommandOk s l)
    (h : (diskRace M smpCores).step s l t) : DiskStepOk s l t p := by
  cases l with
  | out addr value => exact represents_out hR hok h
  | take => exact represents_take hR h
  | transfer host => exact represents_transfer hR h
  | complete => exact represents_complete hR h
  | tickTest =>
    obtain ⟨-, hvm⟩ := Prod.mk.inj (Except.ok.inj h.2)
    exact ⟨trivial, hvm ▸ hR.state, hvm ▸ hR.running, hvm ▸ hR.cores⟩
  | tickLocked => exact represents_tickLocked hR h
  | other =>
    obtain ⟨hsame, -⟩ := h
    refine ⟨trivial, ?_, hsame.disk ▸ hR.running, hsame.smpCores ▸ hR.cores⟩
    rw [hsame.disk, hsame.diskWorker]
    exact hR.state

/-! ## The disk after booting -/

/-- Memory accesses leave the disk alone. -/
theorem sameDisk_stable (s : Vm) : Stable (SameDisk s) fun _ => True where
  congr _ _ hs h := ⟨(congrArg Vm.disk h).trans hs.disk,
    (congrArg Vm.diskWorker h).trans hs.diskWorker, (congrArg Vm.smpCores h).trans hs.smpCores⟩
  findMmio := safe_findMmio fun _ _ _ _ ht => ⟨ht.disk, ht.diskWorker, ht.smpCores⟩
  fault _ _ := trivial

theorem sameDisk_initIvt (s : Vm) : Safe (SameDisk s) (fun _ => True) initIvt :=
  safe_initIvt (sameDisk_stable s).vmWrite64 (fun _ _ ht => ⟨ht.disk, ht.diskWorker, ht.smpCores⟩)
    fun _ ht => ⟨ht.disk, ht.diskWorker, ht.smpCores⟩

/-- A disk that has just been initialised, with its worker waiting. -/
theorem diskInit_state (h : (diskRace M smpCores).init s) :
    s.vm.disk = ⟨0, 0, 0, .free, diskCmdNone, true, false⟩ ∧ s.vm.diskWorker = .waiting := by
  obtain ⟨⟨clock, memcheck, image, program, data, layout, hboot⟩, -⟩ := h
  obtain ⟨vm₀, -, hivt⟩ := boot_eq_ok hboot
  have hsame := (sameDisk_initIvt (diskInit image vm₀)).ok ⟨rfl, rfl, rfl⟩ hivt
  exact ⟨hsame.disk, hsame.diskWorker⟩

theorem diskRepresents_init (h : (diskRace M smpCores).init s) : DiskRepresents s .none := by
  obtain ⟨hdisk, hworker⟩ := diskInit_state h
  obtain ⟨⟨clock, memcheck, image, program, data, layout, hboot⟩, -⟩ := h
  refine ⟨?_, ?_, ?_⟩
  · rw [hdisk, hworker]
    exact ⟨rfl, rfl, rfl, rfl⟩
  · rw [hdisk]
  · rw [(boot_inv hboot).smpCores]
    exact coreCount_pos smpCores

/-! ## Progress -/

/-- Steps of the worker and of the tick of core 0. -/
def DiskLabel.serves : DiskLabel → Prop
  | .out _ _ | .other => False
  | _ => True

/-- The worker and the tick alone can finish the outstanding command. -/
def Drains (M : ℕ) (smpCores : ℤ) (s : DiskRace) : Prop :=
  ∃ ls t, (∀ l ∈ ls, l.serves) ∧ Run (diskRace M smpCores) s ls t ∧ DiskRepresents t .none

theorem Drains.step (l : DiskLabel) (hl : l.serves) (h : (diskRace M smpCores).step s l t)
    (ht : Drains M smpCores t) : Drains M smpCores s := by
  obtain ⟨ls, u, hls, hrun, hu⟩ := ht
  refine ⟨l :: ls, u, ?_, hrun.cons h, hu⟩
  intro k hk
  obtain rfl | hk := List.mem_cons.mp hk
  · exact hl
  · exact hls k hk

theorem commandOk_of_serves {l : DiskLabel} (hl : l.serves) : CommandOk s l := by
  rintro value rfl
  exact hl.elim

theorem diskTickLocked_total (hR : DiskRepresents s .completed) :
    ∃ vm', diskTickLocked s.vm = .ok ((), vm') := by
  have hop : s.vm.disk.tick.2 = true := by simp [Disk.tick, hR.state.2.2.1]
  have htrigger := triggerInterruptTarget_of_lt { s.vm with disk := s.vm.disk.tick.1 } (c := 0)
    (n := intDiskComplete) hR.cores (by decide)
  refine ⟨_, Eq.trans ?_ htrigger⟩
  simp only [diskTickLocked, bind_apply, get_apply, set_apply, hop, if_true]
  rfl

/-- A step of the worker or of the tick: what it adds to the history, and where the command is
behind it. -/
structure Advances (M : ℕ) (smpCores : ℤ) (s : DiskRace) (l : DiskLabel) (notes : List DiskNote)
    (p : CommandPhase) (t : DiskRace) : Prop where
  step : (diskRace M smpCores).step s l t
  notes : diskNotes s l = notes
  represents : DiskRepresents t p

theorem advances_take (M : ℕ) (smpCores : ℤ) {cmd : BitVec 32}
    (hR : DiskRepresents s (.issued cmd)) (hw : s.vm.diskWorker = .waiting) :
    ∃ t job, Advances M smpCores s .take [] (.issued cmd) t ∧
      t.vm.diskWorker = .holding job ∧ t.ticking = s.ticking := by
  obtain ⟨-, hcmd, hne, -, -⟩ := hR.state
  have hs : (diskRace M smpCores).step s .take
      ⟨{ s.vm with diskWorker := s.vm.diskWorker.take s.vm.disk }, s.ticking⟩ := ⟨rfl, rfl⟩
  have hheld : s.vm.diskWorker.take s.vm.disk =
      .holding ⟨s.vm.disk.currentCmd, s.vm.disk.lba, s.vm.disk.memAddr, s.vm.disk.count⟩ := by
    have hsome : ¬ (s.vm.disk.currentCmd = diskCmdNone ∧ s.vm.disk.threadRunning = true) :=
      fun h => hne (hcmd.symm.trans h.1)
    rw [hw, DiskWorker.take, if_neg hsome, if_neg (not_not.mpr hR.running)]
  exact ⟨_, _, ⟨hs, rfl, (diskRepresents_step .take hR (commandOk_of_serves trivial) hs).2⟩,
    hheld, rfl⟩

theorem advances_transfer (M : ℕ) (smpCores : ℤ) {cmd : BitVec 32} {job : DiskJob}
    (hR : DiskRepresents s (.issued cmd)) (hw : s.vm.diskWorker = .holding job)
    (host : BounceBuffer) :
    ∃ t, Advances M smpCores s (.transfer host) [.performed cmd] (.performed cmd) t ∧
      t.ticking = s.ticking := by
  have hs : (diskRace M smpCores).step s (.transfer host)
      ⟨{ diskTransfer job host s.vm with diskWorker := .transferred job }, s.ticking⟩ := by
    refine ⟨?_, rfl⟩
    simp only [workerTransfer, modify_apply, hw]
  obtain ⟨-, -, -, -, hwaiting | ⟨job', hheld, hcmd⟩⟩ := hR.state
  · exact absurd (hw.symm.trans hwaiting) nofun
  obtain rfl := DiskWorker.holding.inj (hw.symm.trans hheld)
  have hnotes : diskNotes s (.transfer host) = [.performed cmd] := by
    simp only [diskNotes, hw, hcmd]
  have hnext := (diskRepresents_step (.transfer host) hR (commandOk_of_serves trivial) hs).2
  rw [hnotes] at hnext
  exact ⟨_, ⟨hs, hnotes, hnext⟩, rfl⟩

theorem advances_complete (M : ℕ) (smpCores : ℤ) {cmd : BitVec 32}
    (hR : DiskRepresents s (.performed cmd)) :
    ∃ t, Advances M smpCores s .complete [.completed] .completed t ∧ t.ticking = s.ticking := by
  obtain ⟨-, -, -, -, job, hw⟩ := hR.state
  have hs : (diskRace M smpCores).step s .complete
      ⟨{ s.vm with disk := s.vm.disk.complete, diskWorker := .waiting }, s.ticking⟩ := by
    refine ⟨?_, rfl⟩
    simp only [workerComplete, modify_apply, hw]
  have hnotes : diskNotes s .complete = [.completed] := by simp only [diskNotes, hw]
  have hnext := (diskRepresents_step .complete hR (commandOk_of_serves trivial) hs).2
  rw [hnotes] at hnext
  exact ⟨_, ⟨hs, hnotes, hnext⟩, rfl⟩

/-- The tick sees that the disk is busy. -/
theorem advances_tickTest (M : ℕ) (smpCores : ℤ) (hR : DiskRepresents s .completed)
    (ht : s.ticking = false) :
    Advances M smpCores s .tickTest [] .completed ⟨s.vm, true⟩ := by
  have hbusy : s.vm.disk.status = .busy := hR.state.1
  refine ⟨⟨ht, ?_⟩, rfl, hR.state, hR.running, hR.cores⟩
  simp [diskTickTest, bind_apply, hbusy]

theorem advances_tickLocked (M : ℕ) (smpCores : ℤ) (hR : DiskRepresents s .completed)
    (ht : s.ticking = true) :
    ∃ t, Advances M smpCores s .tickLocked [.interrupted] .none t := by
  obtain ⟨vm', hrun⟩ := diskTickLocked_total hR
  have hs : (diskRace M smpCores).step s .tickLocked ⟨vm', false⟩ := ⟨ht, hrun, rfl⟩
  have hop : s.vm.disk.tick.2 = true := by simp [Disk.tick, hR.state.2.2.1]
  have hnotes : diskNotes s .tickLocked = [.interrupted] := by simp only [diskNotes, hop, if_true]
  have hnext := (diskRepresents_step .tickLocked hR (commandOk_of_serves trivial) hs).2
  rw [hnotes] at hnext
  exact ⟨_, hs, hnotes, hnext⟩

theorem drains_completed (hR : DiskRepresents s .completed) : Drains M smpCores s := by
  cases ht : s.ticking with
  | true =>
    obtain ⟨t, hs⟩ := advances_tickLocked M smpCores hR ht
    exact .step .tickLocked trivial hs.step ⟨[], _, nofun, .nil, hs.represents⟩
  | false =>
    have htest := advances_tickTest M smpCores hR ht
    obtain ⟨t, hs⟩ := advances_tickLocked M smpCores htest.represents rfl
    exact .step .tickTest trivial htest.step
      (.step .tickLocked trivial hs.step ⟨[], _, nofun, .nil, hs.represents⟩)

theorem drains_performed {cmd : BitVec 32} (hR : DiskRepresents s (.performed cmd)) :
    Drains M smpCores s := by
  obtain ⟨t, hs, -⟩ := advances_complete M smpCores hR
  exact .step .complete trivial hs.step (drains_completed hs.represents)

theorem drains_holding {cmd : BitVec 32} {job : DiskJob} (hR : DiskRepresents s (.issued cmd))
    (hw : s.vm.diskWorker = .holding job) : Drains M smpCores s := by
  obtain ⟨t, hs, -⟩ := advances_transfer M smpCores hR hw ⟨true, fun _ => 0⟩
  exact .step (.transfer _) trivial hs.step (drains_performed hs.represents)

theorem drains_issued {cmd : BitVec 32} (hR : DiskRepresents s (.issued cmd)) :
    Drains M smpCores s := by
  obtain ⟨-, -, -, -, hw | ⟨job, hw, -⟩⟩ := hR.state
  · obtain ⟨t, job, hs, hheld, -⟩ := advances_take M smpCores hR hw
    exact .step .take trivial hs.step (drains_holding hs.represents hheld)
  · exact drains_holding hR hw

theorem drains (hR : DiskRepresents s p) : Drains M smpCores s := by
  cases p with
  | none => exact ⟨[], s, nofun, .nil, hR⟩
  | issued cmd => exact drains_issued hR
  | performed cmd => exact drains_performed hR
  | completed => exact drains_completed hR

/-- The worker and the tick serve a command from its acceptance to its report. -/
theorem run_served (M : ℕ) (smpCores : ℤ) {cmd : BitVec 32}
    (hR : DiskRepresents s (.issued cmd)) (hw : s.vm.diskWorker = .waiting)
    (ht : s.ticking = false) (host : BounceBuffer) (log : List DiskNote) :
    ∃ t, Run ((diskRace M smpCores).logged diskNotes) (s, log)
        [.take, .transfer host, .complete, .tickTest, .tickLocked]
        (t, log ++ [.performed cmd, .completed, .interrupted]) ∧ DiskRepresents t .none := by
  obtain ⟨t₁, job, h₁, hheld, ht₁⟩ := advances_take M smpCores hR hw
  obtain ⟨t₂, h₂, ht₂⟩ := advances_transfer M smpCores h₁.represents hheld host
  obtain ⟨t₃, h₃, ht₃⟩ := advances_complete M smpCores h₂.represents
  have hidle : t₃.ticking = false := ht₃.trans (ht₂.trans (ht₁.trans ht))
  have h₄ := advances_tickTest M smpCores h₃.represents hidle
  obtain ⟨t₅, h₅⟩ := advances_tickLocked M smpCores h₄.represents rfl
  refine ⟨t₅, ?_, h₅.represents⟩
  have hrun : Run ((diskRace M smpCores).logged diskNotes) (s, log) [] (s, log) := .nil
  have hrun := hrun.snoc (u := (t₁, _)) ⟨h₁.step, congrArg (log ++ ·) h₁.notes.symm⟩
  have hrun := hrun.snoc (u := (t₂, _)) ⟨h₂.step, congrArg (_ ++ ·) h₂.notes.symm⟩
  have hrun := hrun.snoc (u := (t₃, _)) ⟨h₃.step, congrArg (_ ++ ·) h₃.notes.symm⟩
  have hrun := hrun.snoc (u := (⟨t₃.vm, true⟩, _)) ⟨h₄.step, congrArg (_ ++ ·) h₄.notes.symm⟩
  have hrun := hrun.snoc (u := (t₅, _)) ⟨h₅.step, congrArg (_ ++ ·) h₅.notes.symm⟩
  simpa using hrun

/-! ## Exactly once -/

/-- What a step does to the registers of the disk and to the pending vectors. -/
def DiskEffect (s : DiskRace) (l : DiskLabel) (t : DiskRace) : Prop :=
  match l with
  | .out addr value =>
    t.vm.interruptBitmap = s.vm.interruptBitmap ∧ t.vm.diskWorker = s.vm.diskWorker ∧
      (addr = portDiskCmd → t.vm.disk =
        if s.vm.disk.status = .busy then s.vm.disk
        else { s.vm.disk with currentCmd := value, status := .busy, opComplete := false })
  | .take | .transfer _ | .complete | .tickTest => t.vm.interruptBitmap = s.vm.interruptBitmap
  | .tickLocked =>
    t.vm.pendingSet =
      if .interrupted ∈ diskNotes s .tickLocked then
        insert (0, intDiskComplete.toNat) s.vm.pendingSet
      else s.vm.pendingSet
  | .other => SameDisk s.vm t.vm

theorem diskEffect_tickLocked (hcores : 0 < s.vm.smpCores)
    (h : (diskRace M smpCores).step s .tickLocked t) : DiskEffect s .tickLocked t := by
  obtain ⟨-, -, hsame, hbitmap⟩ := diskTickLocked_ok h.2.1
  simp only [DiskEffect, diskNotes]
  by_cases hop : s.vm.disk.tick.2 = true
  · simp only [hop, if_true, List.mem_singleton] at hbitmap ⊢
    have htrigger := triggerInterruptTarget_of_lt { s.vm with disk := s.vm.disk.tick.1 } (c := 0)
      (n := intDiskComplete) hcores (by decide)
    obtain ⟨-, hvm⟩ := Prod.mk.inj (Except.ok.inj (hbitmap.symm.trans htrigger))
    rw [hvm]
    exact pendingSet_set { s.vm with disk := s.vm.disk.tick.1 } (c := 0) (n := 2) hcores (by decide)
  · simp only [hop, if_false, Bool.false_eq_true, List.not_mem_nil] at hbitmap ⊢
    simp only [Vm.pendingSet, Vm.pending, hbitmap, hsame]

theorem diskEffect_step (l : DiskLabel) (hcores : 0 < s.vm.smpCores)
    (h : (diskRace M smpCores).step s l t) : DiskEffect s l t := by
  cases l with
  | out addr value =>
    have hview := acceptIo_diskView h.1
    simp only [Vm.diskView, Prod.mk.injEq] at hview
    obtain ⟨hdisk, hworker, -, hbitmap⟩ := hview
    refine ⟨hbitmap, hworker, ?_⟩
    rintro rfl
    exact hdisk.trans (if_pos rfl)
  | take => exact (congrArg Vm.interruptBitmap (Prod.mk.inj (Except.ok.inj h.1)).2).symm
  | transfer host =>
    simp only [DiskEffect]
    obtain ⟨_, _, _, -, hvm⟩ | ⟨-, hvm⟩ := workerTransfer_cases h.1
    · rw [hvm]
    · rw [hvm]
  | complete =>
    simp only [DiskEffect]
    obtain ⟨_, -, hvm⟩ | ⟨-, hvm⟩ := workerComplete_cases h.1
    · rw [hvm]
    · rw [hvm]
  | tickTest => exact (congrArg Vm.interruptBitmap (Prod.mk.inj (Except.ok.inj h.2)).2).symm
  | tickLocked => exact diskEffect_tickLocked hcores h
  | other => exact h.1

/-- The guest issues no command with the value `DISK_CMD_NONE`. -/
def NoNullCommand (_ : DiskRace) (l : DiskLabel) : Prop :=
  ∀ value, l = .out portDiskCmd value → value ≠ diskCmdNone

/-- The history of the disk is one of single commands: each is accepted while the disk
is free, and then performed, completed and reported once. The numbers say the same of
the whole history, whatever the outstanding command has still to come, and the worker
and the tick can always finish it. The tick comes in two steps, which are `disk_tick`
when nothing falls between them (`diskTick_eq`). -/
theorem disk_commands_exactly_once {log : List DiskNote}
    (h : Reachable (((diskRace M smpCores).restrict NoNullCommand).logged diskNotes) (s, log)) :
    ∃ p, p = log.foldl CommandPhase.apply .none ∧
      Legal CommandPhase.allows CommandPhase.apply .none log ∧
      (s.vm.disk.status = .busy ↔ p ≠ .none) ∧
      acceptedCommands log = performedCommands log ++ p.unperformed ∧
      (performedCommands log).length = log.count .completed + p.uncompleted ∧
      log.count .completed = log.count .interrupted + p.unreported ∧
      (∀ l t, (diskRace M smpCores).step s l t → DiskEffect s l t) ∧
      ∃ ls t, (∀ l ∈ ls, l.serves) ∧ Run (diskRace M smpCores) s ls t ∧
        t.vm.disk.status = .free := by
  have hstep (s : DiskRace) (l : DiskLabel) (t : DiskRace) (p : CommandPhase)
      (hR : DiskRepresents s p) (hs : ((diskRace M smpCores).restrict NoNullCommand).step s l t) :
      DiskStepOk s l t p :=
    diskRepresents_step l hR (fun value hl _ => hs.1 value hl) hs.2
  have hinit (s : DiskRace) (hs : ((diskRace M smpCores).restrict NoNullCommand).init s) :
      DiskRepresents s .none := diskRepresents_init hs
  obtain ⟨hlegal, hR⟩ := h.refines hinit hstep
  obtain ⟨hperformed, hcompleted, hreported⟩ := legal_exactly_once hlegal
  obtain ⟨ls, t, hserves, hrun, ht⟩ : Drains M smpCores s := drains hR
  refine ⟨_, rfl, hlegal, hR.state.busy_iff, hperformed, ?_, ?_, ?_,
    ls, t, hserves, hrun, ht.state.1⟩
  · simpa using hcompleted
  · simpa using hreported
  · exact fun l t hs => diskEffect_step l hR.cores hs

/-- A command given to a free disk is accepted, and the worker is there to take it. -/
theorem represents_issued {cmd : BitVec 32} (hR : DiskRepresents s .none)
    (hcmd : cmd ≠ diskCmdNone) (h : (diskRace M smpCores).step s (.out portDiskCmd cmd) t) :
    DiskRepresents t (.issued cmd) ∧ t.vm.diskWorker = .waiting := by
  have hok : CommandOk s (.out portDiskCmd cmd) := by
    rintro v ⟨⟩ -
    exact hcmd
  have hidle : ¬ s.vm.disk.status = .busy := fun hb => (hR.state.busy_iff.mp hb) rfl
  have hnext := (represents_out hR hok h).2
  rw [diskNotes, if_neg (not_not.mpr rfl), if_neg hidle] at hnext
  exact ⟨hnext, (diskEffect_step _ hR.cores h).2.1.trans hR.state.2.2.2⟩

/-- A machine with one core whose guest has issued one command. -/
theorem exists_issued (cmd : BitVec 32) : ∃ s t, (diskRace memSize 1).init s ∧
    (diskRace memSize 1).step s (.out portDiskCmd cmd) t ∧
    diskNotes s (.out portDiskCmd cmd) = [.accepted cmd] ∧ s.vm.disk.status = .free ∧
    t.vm.disk = { s.vm.disk with currentCmd := cmd, status := .busy, opComplete := false } := by
  obtain ⟨vm, hvm⟩ := boot_default
  have hR : DiskRepresents ⟨vm, false⟩ .none := diskRepresents_init (M := memSize) ⟨hvm, rfl⟩
  have hfree : vm.disk.status = .free := hR.state.1
  have hcmd : vm.disk.cmd cmd =
      { vm.disk with currentCmd := cmd, status := .busy, opComplete := false } :=
    if_neg (by rw [hfree]; exact nofun)
  refine ⟨⟨vm, false⟩, ⟨{ vm with
    io := Function.update vm.io portDiskCmd cmd, disk := vm.disk.cmd cmd }, false⟩,
    ⟨hvm, rfl⟩, ⟨rfl, rfl⟩, ?_, hfree, hcmd⟩
  simp only [diskNotes, hfree]
  rfl

/-- A read from its acceptance to its interrupt. -/
theorem disk_commands_exactly_once_read : ∃ s : DiskRace,
    Reachable (((diskRace memSize 1).restrict NoNullCommand).logged diskNotes)
      (s, [.accepted diskCmdRead, .performed diskCmdRead, .completed, .interrupted]) ∧
    s.vm.disk.status = .free := by
  obtain ⟨s, t, hinit, hstep, hnotes, -⟩ := exists_issued diskCmdRead
  have hok : NoNullCommand s (.out portDiskCmd diskCmdRead) := by
    rintro value ⟨⟩
    decide
  have hstart : Reachable (((diskRace memSize 1).restrict NoNullCommand).logged diskNotes)
      (s, []) := .of_init ⟨hinit, rfl⟩
  have hissued : Reachable (((diskRace memSize 1).restrict NoNullCommand).logged diskNotes)
      (t, [.accepted diskCmdRead]) :=
    hstart.logged_step ⟨hok, hstep⟩ hnotes
  obtain ⟨hR, hw⟩ := represents_issued (diskRepresents_init hinit) (by decide) hstep
  obtain ⟨u, hrun, -⟩ := run_served memSize 1 hR hw
    (hstep.2.trans hinit.2) ⟨true, fun _ => 0⟩ [.accepted diskCmdRead]
  have hserves : ∀ l ∈ [DiskLabel.take, .transfer ⟨true, fun _ => 0⟩, .complete, .tickTest,
      .tickLocked], ∀ p, NoNullCommand p l := by
    rintro l hl p value rfl
    simp at hl
  have hreach := hissued.run (hrun.mono fun l hl p q hs => ⟨⟨hserves l hl _, hs.1⟩, hs.2⟩)
  obtain ⟨p, rfl, -, hbusy, -⟩ := disk_commands_exactly_once hreach
  refine ⟨u, hreach, ?_⟩
  cases hstatus : u.vm.disk.status with
  | free => rfl
  | busy => exact absurd rfl (hbusy.mp hstatus)

/-! ## The disk does not get stuck -/

/-- A busy disk has a command that is still going to complete. -/
def WillComplete (s : DiskRace) : Prop :=
  s.vm.disk.status = .busy → s.vm.disk.currentCmd ≠ diskCmdNone ∨ s.vm.disk.opComplete = true

theorem DiskRepresents.willComplete (hR : DiskRepresents s p) : WillComplete s := by
  have hstate := hR.state
  intro hbusy
  cases p with
  | none =>
    rw [hstate.1] at hbusy
    cases hbusy
  | issued cmd => exact .inl fun h => hstate.2.2.1 (hstate.2.1.symm.trans h)
  | performed cmd => exact .inl fun h => hstate.2.2.1 (hstate.2.1.symm.trans h)
  | completed => exact .inr hstate.2.2.1

/-- Busy, with nothing to do, nothing to report and a waiting worker. -/
structure Stuck (s : DiskRace) : Prop where
  busy : s.vm.disk.status = .busy
  idle : s.vm.disk.currentCmd = diskCmdNone
  silent : s.vm.disk.opComplete = false
  waiting : s.vm.diskWorker = .waiting
  running : s.vm.disk.threadRunning = true

theorem Stuck.not_willComplete (h : Stuck s) : ¬ WillComplete s := by
  intro hw
  obtain hcmd | hop := hw h.busy
  · exact hcmd h.idle
  · simp [h.silent] at hop

/-- Issuing `DISK_CMD_NONE` to a free disk. -/
theorem stuck_of_null (hR : DiskRepresents s p) {l : DiskLabel} (hok : ¬ CommandOk s l)
    (h : (diskRace M smpCores).step s l t) : Stuck t := by
  simp only [CommandOk, not_forall, not_not] at hok
  obtain ⟨value, rfl, hfree, rfl⟩ := hok
  have hview := acceptIo_diskView h.1
  simp only [Vm.diskView, Prod.mk.injEq] at hview
  obtain ⟨hdisk, hworker, -, -⟩ := hview
  have hcmd : t.vm.disk = s.vm.disk.cmd diskCmdNone := hdisk.trans (if_pos rfl)
  rw [Disk.cmd, if_neg (by rw [hfree]; exact nofun)] at hcmd
  obtain rfl : p = .none := by
    by_contra hp
    have hbusy := hR.state.busy_iff.mpr hp
    rw [hfree] at hbusy
    cases hbusy
  refine ⟨by rw [hcmd], by rw [hcmd], by rw [hcmd], ?_, ?_⟩
  · exact hworker.trans hR.state.2.2.2
  · rw [hcmd]
    exact hR.running

/-- No step of any party leads out of a stuck state. -/
theorem Stuck.step (h : Stuck s) (l : DiskLabel) (hs : (diskRace M smpCores).step s l t) :
    Stuck t := by
  obtain ⟨hbusy, hidle, hsilent, hwaiting, hrunning⟩ := h
  cases l with
  | out addr value =>
    have hview := acceptIo_diskView hs.1
    simp only [Vm.diskView, Prod.mk.injEq] at hview
    obtain ⟨hdisk, hworker, -, -⟩ := hview
    have hsame : t.vm.disk.status = s.vm.disk.status ∧
        t.vm.disk.currentCmd = s.vm.disk.currentCmd ∧
        t.vm.disk.opComplete = s.vm.disk.opComplete ∧
        t.vm.disk.threadRunning = s.vm.disk.threadRunning := by
      rw [hdisk]
      by_cases haddr : addr = portDiskCmd
      · have hcmd : s.vm.disk.out addr value = s.vm.disk := by
          rw [Disk.out, if_pos haddr, Disk.cmd, if_pos hbusy]
        rw [hcmd]
        exact ⟨rfl, rfl, rfl, rfl⟩
      · exact out_of_ne haddr _ _
    exact ⟨hsame.1.trans hbusy, hsame.2.1.trans hidle, hsame.2.2.1.trans hsilent,
      hworker.trans hwaiting, hsame.2.2.2.trans hrunning⟩
  | take =>
    have hvm := workerTake_ok hs.1
    have hstay : s.vm.diskWorker.take s.vm.disk = .waiting := by
      rw [hwaiting]
      exact if_pos ⟨hidle, hrunning⟩
    rw [hstay] at hvm
    exact ⟨hvm ▸ hbusy, hvm ▸ hidle, hvm ▸ hsilent, by rw [hvm], hvm ▸ hrunning⟩
  | transfer host =>
    have hvm := ((Prod.mk.inj (Except.ok.inj hs.1)).2).symm
    simp only [hwaiting] at hvm
    exact ⟨hvm ▸ hbusy, hvm ▸ hidle, hvm ▸ hsilent, hvm ▸ hwaiting, hvm ▸ hrunning⟩
  | complete =>
    have hvm := ((Prod.mk.inj (Except.ok.inj hs.1)).2).symm
    simp only [hwaiting] at hvm
    exact ⟨hvm ▸ hbusy, hvm ▸ hidle, hvm ▸ hsilent, hvm ▸ hwaiting, hvm ▸ hrunning⟩
  | tickTest =>
    obtain ⟨-, hvm⟩ := Prod.mk.inj (Except.ok.inj hs.2)
    exact ⟨hvm ▸ hbusy, hvm ▸ hidle, hvm ▸ hsilent, hvm ▸ hwaiting, hvm ▸ hrunning⟩
  | tickLocked =>
    obtain ⟨hdisk, hworker, -⟩ := diskTickLocked_ok hs.2.1
    simp only [Disk.tick, hsilent] at hdisk
    exact ⟨hdisk ▸ hbusy, hdisk ▸ hidle, hdisk ▸ hsilent, hworker.trans hwaiting,
      hdisk ▸ hrunning⟩
  | other =>
    have hdisk := hs.1.disk
    exact ⟨hdisk ▸ hbusy, hdisk ▸ hidle, hdisk ▸ hsilent, hs.1.diskWorker.trans hwaiting,
      hdisk ▸ hrunning⟩

/-- As long as `DISK_CMD_NONE` is not issued to a free disk, a busy disk is going to
complete its command. The first such command leaves the disk busy for ever. -/
theorem disk_will_complete (h : Reachable ((diskRace M smpCores).restrict CommandOk) s) :
    WillComplete s ∧ ∀ l t ls u, ¬ CommandOk s l → (diskRace M smpCores).step s l t →
      Run (diskRace M smpCores) t ls u → ¬ WillComplete u := by
  obtain ⟨p, hR⟩ : ∃ p, DiskRepresents s p := by
    refine h.invariant (P := fun s => ∃ p, DiskRepresents s p) ?_ ?_
    · exact fun s hs => ⟨.none, diskRepresents_init hs⟩
    · rintro s l t ⟨p, hR⟩ ⟨hok, hs⟩
      exact ⟨_, (diskRepresents_step l hR hok hs).2⟩
  refine ⟨hR.willComplete, fun l t ls u hok hs hrun => ?_⟩
  have hstuck : Stuck u := hrun.keeps (fun _ l _ h => h.step l) (stuck_of_null hR hok hs)
  exact hstuck.not_willComplete

theorem disk_will_complete_read : ∃ s : DiskRace,
    Reachable ((diskRace memSize 1).restrict CommandOk) s ∧ s.vm.disk.status = .busy ∧
      (s.vm.disk.currentCmd ≠ diskCmdNone ∨ s.vm.disk.opComplete = true) := by
  obtain ⟨s, t, hinit, hstep, -, -, hdisk⟩ := exists_issued diskCmdRead
  have hok : CommandOk s (.out portDiskCmd diskCmdRead) := by
    rintro value ⟨⟩ -
    decide
  have hstart : Reachable ((diskRace memSize 1).restrict CommandOk) s := .of_init hinit
  have hreach := hstart.step ⟨hok, hstep⟩
  have hbusy : t.vm.disk.status = .busy := by rw [hdisk]
  exact ⟨t, hreach, hbusy, (disk_will_complete hreach).1 hbusy⟩

/-- One `OUT` of zero to the command port of a fresh machine wedges its disk. -/
theorem disk_stuck_after_null_command :
    ¬ ∀ s, Reachable (diskRace memSize 1) s → WillComplete s := by
  intro hall
  obtain ⟨s, t, hinit, hstep, -, -, hdisk⟩ := exists_issued diskCmdNone
  have hreach : Reachable (diskRace memSize 1) s := .of_init hinit
  obtain hcmd | hop := hall t (hreach.step hstep) (by rw [hdisk])
  · exact hcmd (by rw [hdisk])
  · rw [hdisk] at hop
    cases hop

end LampVm
