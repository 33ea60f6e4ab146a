import LampVm.DiskProtocol

/-!
# The parameters of a disk command

The registers that say what to transfer are ordinary ports: `accept_io` writes them at
any time, and the worker copies them when its thread gets to run. A transfer uses the
values at the time of the command as long as no register changes between the command
and the copy.
-/
namespace LampVm

open Contract Transition

/-! ## Jobs accepted and performed -/

inductive JobNote
  | accepted (job : DiskJob)
  | performed (job : DiskJob)
  deriving DecidableEq, Repr

/-- The command with the registers as they stand. -/
def Disk.job (d : Disk) (cmd : BitVec 32) : DiskJob := ⟨cmd, d.lba, d.memAddr, d.count⟩

/-- `disk_cmd` accepts a command with the registers of that moment, and the worker
performs the job that it has copied. -/
def jobNotes (s : DiskRace) : DiskLabel → List JobNote
  | .out addr value =>
    if addr = portDiskCmd ∧ s.vm.disk.status ≠ .busy then [.accepted (s.vm.disk.job value)]
    else []
  | .transfer _ =>
    match s.vm.diskWorker with
    | .holding job => [.performed job]
    | _ => []
  | _ => []

/-- The job to perform is the one accepted last. -/
def jobAllows : Option DiskJob → JobNote → Prop
  | _, .accepted _ => True
  | last, .performed job => last = some job

@[simp] def jobApply : Option DiskJob → JobNote → Option DiskJob
  | _, .accepted job => some job
  | last, .performed _ => last

/-- No write changes a parameter of a command that the worker has yet to copy. -/
def ParamsKept (s : DiskRace) (l : DiskLabel) : Prop :=
  ∀ addr value, l = .out addr value → s.vm.diskWorker = .waiting →
    s.vm.disk.currentCmd ≠ diskCmdNone →
    (addr = portDiskLba → value = s.vm.disk.lba) ∧
    (addr = portDiskMem → value = s.vm.disk.memAddr) ∧
    (addr = portDiskCount → value = s.vm.disk.count)

/-! ## What holds in every interleaving -/

/-- The command outstanding is the one accepted last: the registers agree with it until
the worker copies them, and then the copy does. -/
structure JobInv (d : Disk) (w : DiskWorker) (last : Option DiskJob) : Prop where
  running : d.threadRunning = true
  free : d.status = .free → w = .waiting ∧ d.currentCmd = diskCmdNone
  complete : d.opComplete = true → w = .waiting ∧ d.currentCmd = diskCmdNone
  issued : w = .waiting → d.currentCmd ≠ diskCmdNone → last = some (d.job d.currentCmd)
  holding : ∀ job, w = .holding job → last = some job

section Invariant

variable {d : Disk} {w : DiskWorker} {last : Option DiskJob}

theorem JobInv.take (h : JobInv d w last) : JobInv d (w.take d) last := by
  cases w with
  | waiting =>
    by_cases hidle : d.currentCmd = diskCmdNone
    · have htake : DiskWorker.waiting.take d = .waiting := if_pos ⟨hidle, h.running⟩
      rw [htake]
      exact h
    · have htake : DiskWorker.waiting.take d = .holding (d.job d.currentCmd) := by
        rw [DiskWorker.take, if_neg (fun hand => hidle hand.1), if_neg (not_not.mpr h.running)]
        rfl
      rw [htake]
      constructor
      · exact h.running
      · intro hfree
        exact absurd (h.free hfree).2 hidle
      · intro hop
        exact absurd (h.complete hop).2 hidle
      · intro hwaiting
        cases hwaiting
      · intro job hjob
        cases hjob
        exact h.issued rfl hidle
  | holding job | transferred job | exited => exact h

theorem JobInv.transferred {job : DiskJob} (h : JobInv d (.holding job) last) :
    JobInv d (.transferred job) last where
  running := h.running
  free hfree := nomatch (h.free hfree).1
  complete hop := nomatch (h.complete hop).1
  issued := nofun
  holding := nofun

theorem JobInv.completed {job : DiskJob} (h : JobInv d (.transferred job) last) :
    JobInv d.complete .waiting last where
  running := h.running
  free _ := ⟨rfl, rfl⟩
  complete _ := ⟨rfl, rfl⟩
  issued _ hcmd := absurd rfl hcmd
  holding := nofun

theorem JobInv.tick (h : JobInv d w last) : JobInv d.tick.1 w last := by
  unfold Disk.tick
  split_ifs with hop
  · obtain ⟨hw, hcmd⟩ := h.complete hop
    exact ⟨h.running, fun _ => ⟨hw, hcmd⟩, nofun, fun _ hne => absurd hcmd hne, h.holding⟩
  · exact h

/-- An accepted command finds the worker waiting. -/
theorem JobInv.cmd (h : JobInv d w last) (hfree : d.status ≠ .busy) (value : BitVec 32) :
    JobInv (d.cmd value) w (some (d.job value)) := by
  have hstatus : d.status = .free := by
    cases hs : d.status with
    | free => rfl
    | busy => exact absurd hs hfree
  obtain ⟨rfl, -⟩ := h.free hstatus
  rw [Disk.cmd, if_neg hfree]
  constructor
  · exact h.running
  · intro hbusy
    cases hbusy
  · intro hop
    cases hop
  · intro _ _
    rfl
  · intro job hjob
    cases hjob

/-- A register write keeps the command, the flags and the worker. -/
theorem JobInv.out {addr : ℤ} {value : BitVec 32} (h : JobInv d w last) (hcmd : addr ≠ portDiskCmd)
    (hkept : w = .waiting → d.currentCmd ≠ diskCmdNone →
      (d.out addr value).job d.currentCmd = d.job d.currentCmd) :
    JobInv (d.out addr value) w last := by
  obtain ⟨hstatus, hcur, hop, hrun⟩ := out_of_ne hcmd d value
  refine ⟨hrun.trans h.running, ?_, ?_, ?_, h.holding⟩
  · rw [hstatus, hcur]
    exact h.free
  · rw [hop, hcur]
    exact h.complete
  · rw [hcur]
    intro hw hne
    rw [hkept hw hne]
    exact h.issued hw hne

/-- The registers keep their values exactly when nothing else is written to them. -/
theorem job_out_iff {addr : ℤ} {value cmd : BitVec 32} (hcmd : addr ≠ portDiskCmd) :
    (d.out addr value).job cmd = d.job cmd ↔ (addr = portDiskLba → value = d.lba) ∧
      (addr = portDiskMem → value = d.memAddr) ∧ (addr = portDiskCount → value = d.count) := by
  have hports : portDiskLba = 17 ∧ portDiskMem = 18 ∧ portDiskCount = 19 := ⟨rfl, rfl, rfl⟩
  unfold Disk.out
  rw [if_neg hcmd]
  split_ifs with h1 h2 h3
  · simp only [Disk.job, DiskJob.mk.injEq, true_and, and_true]
    exact ⟨fun heq => ⟨fun _ => heq, by omega, by omega⟩, fun h => h.1 h1⟩
  · simp only [Disk.job, DiskJob.mk.injEq, true_and, and_true]
    exact ⟨fun heq => ⟨by omega, fun _ => heq, by omega⟩, fun h => h.2.1 h2⟩
  · simp only [Disk.job, DiskJob.mk.injEq, true_and]
    exact ⟨fun heq => ⟨by omega, by omega, fun _ => heq⟩, fun h => h.2.2 h3⟩
  · exact iff_of_true rfl ⟨fun h => absurd h h1, fun h => absurd h h2, fun h => absurd h h3⟩

end Invariant

/-! ## Runs -/

variable {M : ℕ} {smpCores : ℤ} {s t : DiskRace} {last : Option DiskJob}

/-- What a step must do to keep to the jobs accepted. -/
abbrev JobStepOk (s : DiskRace) (l : DiskLabel) (t : DiskRace) (last : Option DiskJob) : Prop :=
  Legal jobAllows jobApply last (jobNotes s l) ∧
    JobInv t.vm.disk t.vm.diskWorker ((jobNotes s l).foldl jobApply last)

theorem jobStep_out (hI : JobInv s.vm.disk s.vm.diskWorker last) {addr : ℤ} {value : BitVec 32}
    (hkept : ParamsKept s (.out addr value))
    (h : (diskRace M smpCores).step s (.out addr value) t) :
    JobStepOk s (.out addr value) t last := by
  have hview := acceptIo_diskView h.1
  simp only [Vm.diskView, Prod.mk.injEq] at hview
  obtain ⟨hdisk, hworker, -, -⟩ := hview
  unfold JobStepOk
  rw [hdisk, hworker]
  by_cases haddr : addr = portDiskCmd
  · have hcmd : s.vm.disk.out addr value = s.vm.disk.cmd value := if_pos haddr
    rw [hcmd]
    by_cases hbusy : s.vm.disk.status = .busy
    · have hnotes : jobNotes s (.out addr value) = [] := if_neg fun hand => hand.2 hbusy
      rw [hnotes, Disk.cmd, if_pos hbusy]
      exact ⟨trivial, hI⟩
    · have hnotes : jobNotes s (.out addr value) = [.accepted (s.vm.disk.job value)] :=
        if_pos ⟨haddr, hbusy⟩
      rw [hnotes]
      exact ⟨⟨trivial, trivial⟩, hI.cmd hbusy value⟩
  · have hnotes : jobNotes s (.out addr value) = [] := if_neg fun hand => haddr hand.1
    rw [hnotes]
    refine ⟨trivial, hI.out haddr fun hw hne => ?_⟩
    exact (job_out_iff haddr).mpr (hkept addr value rfl hw hne)

theorem jobStep_ok (l : DiskLabel) (hI : JobInv s.vm.disk s.vm.diskWorker last)
    (hkept : ParamsKept s l) (h : (diskRace M smpCores).step s l t) : JobStepOk s l t last := by
  cases l with
  | out addr value => exact jobStep_out hI hkept h
  | take =>
    have hvm := workerTake_ok h.1
    refine ⟨trivial, ?_⟩
    rw [hvm]
    exact hI.take
  | transfer host =>
    obtain ⟨job, memory, image, hw, hvm⟩ | ⟨hw, hvm⟩ := workerTransfer_cases h.1
    · rw [hw] at hI
      simp only [JobStepOk, jobNotes, hw]
      exact ⟨⟨hI.holding job rfl, trivial⟩, hvm ▸ hI.transferred⟩
    · have hnotes : jobNotes s (.transfer host) = [] := by
        unfold jobNotes
        dsimp only
        split
        · next job hheld => exact absurd hheld (hw job)
        · rfl
      rw [JobStepOk, hnotes]
      exact ⟨trivial, hvm ▸ hI⟩
  | complete =>
    refine ⟨trivial, ?_⟩
    obtain ⟨job, hw, hvm⟩ | ⟨-, hvm⟩ := workerComplete_cases h.1
    · rw [hw] at hI
      exact hvm ▸ hI.completed
    · exact hvm ▸ hI
  | tickTest =>
    obtain ⟨-, hvm⟩ := Prod.mk.inj (Except.ok.inj h.2)
    exact ⟨trivial, hvm ▸ hI⟩
  | tickLocked =>
    obtain ⟨hdisk, hworker, -⟩ := diskTickLocked_ok h.2.1
    refine ⟨trivial, ?_⟩
    rw [hdisk, hworker]
    exact hI.tick
  | other =>
    obtain ⟨hsame, -⟩ := h
    refine ⟨trivial, ?_⟩
    rw [hsame.disk, hsame.diskWorker]
    exact hI

theorem jobInv_init (h : (diskRace M smpCores).init s) :
    JobInv s.vm.disk s.vm.diskWorker none := by
  have hR := diskRepresents_init h
  obtain ⟨hfree, hcmd, hop, hw⟩ := hR.state
  refine ⟨hR.running, fun _ => ⟨hw, hcmd⟩, fun _ => ⟨hw, hcmd⟩, fun _ hne => absurd hcmd hne, ?_⟩
  rw [hw]
  exact nofun

/-- The worker copies the registers as they stand. -/
theorem exists_taken (M : ℕ) (smpCores : ℤ) (hw : s.vm.diskWorker = .waiting)
    (hcmd : s.vm.disk.currentCmd ≠ diskCmdNone) (hrun : s.vm.disk.threadRunning = true) :
    ∃ t, (diskRace M smpCores).step s .take t ∧
      t.vm.diskWorker = .holding (s.vm.disk.job s.vm.disk.currentCmd) := by
  have hheld : s.vm.diskWorker.take s.vm.disk =
      .holding (s.vm.disk.job s.vm.disk.currentCmd) := by
    rw [hw, DiskWorker.take, if_neg (fun hand => hcmd hand.1), if_neg (not_not.mpr hrun)]
    rfl
  exact ⟨⟨{ s.vm with diskWorker := s.vm.diskWorker.take s.vm.disk }, s.ticking⟩, ⟨rfl, rfl⟩,
    hheld⟩

theorem exists_performed (M : ℕ) (smpCores : ℤ) {job : DiskJob}
    (hw : s.vm.diskWorker = .holding job) (host : BounceBuffer) :
    ∃ t, (diskRace M smpCores).step s (.transfer host) t ∧
      jobNotes s (.transfer host) = [.performed job] := by
  refine ⟨⟨{ diskTransfer job host s.vm with diskWorker := .transferred job }, s.ticking⟩,
    ⟨?_, rfl⟩, ?_⟩
  · simp only [workerTransfer, modify_apply, hw]
  · simp only [jobNotes, hw]

/-- The worker takes the command and performs it with the registers as they stand. -/
theorem exists_transfer (M : ℕ) (smpCores : ℤ) (hw : s.vm.diskWorker = .waiting)
    (hcmd : s.vm.disk.currentCmd ≠ diskCmdNone) (hrun : s.vm.disk.threadRunning = true)
    (host : BounceBuffer) : ∃ t u, (diskRace M smpCores).step s .take t ∧
      (diskRace M smpCores).step t (.transfer host) u ∧
      jobNotes t (.transfer host) = [.performed (s.vm.disk.job s.vm.disk.currentCmd)] := by
  obtain ⟨t, htake, hheld⟩ := exists_taken M smpCores hw hcmd hrun
  obtain ⟨u, htransfer, hnotes⟩ := exists_performed M smpCores hheld host
  exact ⟨t, u, htake, htransfer, hnotes⟩

/-- When a write does change such a parameter, the worker may go on to perform a job
that nobody issued. -/
theorem performs_changed (hI : JobInv s.vm.disk s.vm.diskWorker last) {l : DiskLabel}
    (hbad : ¬ ParamsKept s l) (h : (diskRace M smpCores).step s l t) (host : BounceBuffer)
    (log : List JobNote) : ∃ u job, last ≠ some job ∧
      Run ((diskRace M smpCores).logged jobNotes) (s, log) [l, .take, .transfer host]
        (u, log ++ [.performed job]) := by
  simp only [ParamsKept, not_forall] at hbad
  obtain ⟨addr, value, rfl, hw, hne, hchanged⟩ := hbad
  have haddr : addr ≠ portDiskCmd := by
    rintro rfl
    exact hchanged ⟨nofun, nofun, nofun⟩
  have hview := acceptIo_diskView h.1
  simp only [Vm.diskView, Prod.mk.injEq] at hview
  obtain ⟨hdisk, hworker, -, -⟩ := hview
  obtain ⟨-, hcur, -, hrun⟩ := out_of_ne haddr s.vm.disk value
  obtain ⟨u, v, htake, htransfer, hnotes⟩ := exists_transfer M smpCores (hworker.trans hw)
    (by rw [hdisk, hcur]; exact hne) (by rw [hdisk, hrun]; exact hI.running) host
  rw [hdisk, hcur] at hnotes
  have hout : jobNotes s (.out addr value) = [] := if_neg fun hand => haddr hand.1
  refine ⟨v, (s.vm.disk.out addr value).job s.vm.disk.currentCmd, ?_, ?_⟩
  · rw [hI.issued hw hne]
    intro heq
    exact hchanged ((job_out_iff haddr).mp (Option.some.inj heq).symm)
  · refine .cons (t := (t, log)) ⟨h, by rw [hout, List.append_nil]⟩
      (.cons (t := (u, log)) ⟨htake, (List.append_nil _).symm⟩ (.cons ⟨htransfer, ?_⟩ .nil))
    rw [hnotes]

/-- As long as no register changes between a command and the worker's copy, every
transfer is made with the values at the time of its command. A write that does change
one lets the worker perform a job that was not accepted. -/
theorem transfer_uses_accepted_values {log : List JobNote}
    (h : Reachable (((diskRace M smpCores).restrict ParamsKept).logged jobNotes) (s, log)) :
    Legal jobAllows jobApply none log ∧
      ∀ l t host, (diskRace M smpCores).step s l t → ¬ ParamsKept s l →
        ∃ u log', Run ((diskRace M smpCores).logged jobNotes) (s, log) [l, .take, .transfer host]
          (u, log') ∧ ¬ Legal jobAllows jobApply none log' := by
  have hinit (s : DiskRace) (hs : ((diskRace M smpCores).restrict ParamsKept).init s) :
      JobInv s.vm.disk s.vm.diskWorker none := jobInv_init hs
  have hstep (s : DiskRace) (l : DiskLabel) (t : DiskRace) (last : Option DiskJob)
      (hI : JobInv s.vm.disk s.vm.diskWorker last)
      (hs : ((diskRace M smpCores).restrict ParamsKept).step s l t) : JobStepOk s l t last :=
    jobStep_ok l hI hs.1 hs.2
  obtain ⟨hlegal, hI⟩ := h.refines hinit hstep
  refine ⟨hlegal, fun l t host hs hbad => ?_⟩
  obtain ⟨u, job, hne, hrun⟩ := performs_changed hI hbad hs host log
  refine ⟨u, _, hrun, fun hlegal' => ?_⟩
  obtain ⟨-, hperformed, -⟩ := legal_append.mp hlegal'
  exact hne hperformed

/-- A machine with one core, and the same machine after a read command. -/
theorem exists_read_issued : ∃ s t, (diskRace memSize 1).init s ∧
    (diskRace memSize 1).step s (.out portDiskCmd diskCmdRead) t ∧
    jobNotes s (.out portDiskCmd diskCmdRead) = [.accepted ⟨diskCmdRead, 0, 0, 0⟩] ∧
    t.vm.disk = ⟨0, 0, 0, .busy, diskCmdRead, true, false⟩ ∧ t.vm.diskWorker = .waiting := by
  obtain ⟨s, t, hinit, hstep, -, -, ht⟩ := exists_issued diskCmdRead
  obtain ⟨hdisk, hworker⟩ := diskInit_state hinit
  have hview := acceptIo_diskView hstep.1
  simp only [Vm.diskView, Prod.mk.injEq] at hview
  refine ⟨s, t, hinit, hstep, ?_, ?_, hview.2.1.trans hworker⟩
  · simp only [jobNotes, hdisk]
    rfl
  · rw [ht, hdisk]

/-- A write to one of the ports of the disk. -/
theorem exists_written (M : ℕ) (smpCores : ℤ) (s : DiskRace) {port : ℕ}
    (hport : port = portDiskLba ∨ port = portDiskMem ∨ port = portDiskCount ∨ port = portDiskCmd)
    (value : BitVec 32) : ∃ t, (diskRace M smpCores).step s (.out port value) t ∧
      t.vm.disk = s.vm.disk.out port value ∧ t.vm.diskWorker = s.vm.diskWorker := by
  have hwrite : ∃ vm', acceptIo port value s.vm = .ok ((), vm') := by
    obtain rfl | rfl | rfl | rfl := hport <;> exact ⟨_, rfl⟩
  obtain ⟨vm', hrun⟩ := hwrite
  have hview := acceptIo_diskView hrun
  simp only [Vm.diskView, Prod.mk.injEq] at hview
  exact ⟨⟨vm', s.ticking⟩, ⟨hrun, rfl⟩, hview.1, hview.2.1⟩

/-- Two sectors from sector 5 on, to 1 MiB. -/
def twoSectors : DiskJob := ⟨diskCmdRead, 5, 0x100000, 2⟩

/-- The guest sets the registers and issues a read; behind the worker's copy it sets the sector
register for another one. -/
theorem transfer_uses_accepted_values_read : ∃ s : DiskRace,
    Reachable (((diskRace memSize 1).restrict ParamsKept).logged jobNotes)
      (s, [.accepted twoSectors, .performed twoSectors]) ∧
    s.vm.disk.lba = 7 ∧
    Legal jobAllows jobApply none [.accepted twoSectors, .performed twoSectors] := by
  obtain ⟨vm, hvm⟩ := boot_default
  obtain ⟨hdisk₀, hw₀⟩ := diskInit_state (M := memSize) (s := ⟨vm, false⟩) ⟨hvm, rfl⟩
  obtain ⟨s₁, hs₁, hdisk₁, hw₁⟩ := exists_written memSize 1 ⟨vm, false⟩ (.inl rfl) 5
  obtain ⟨s₂, hs₂, hdisk₂, hw₂⟩ := exists_written memSize 1 s₁ (.inr (.inl rfl)) 0x100000
  obtain ⟨s₃, hs₃, hdisk₃, hw₃⟩ := exists_written memSize 1 s₂ (.inr (.inr (.inl rfl))) 2
  obtain ⟨s₄, hs₄, hdisk₄, hw₄⟩ :=
    exists_written memSize 1 s₃ (.inr (.inr (.inr rfl))) diskCmdRead
  rw [hdisk₀] at hdisk₁
  rw [hdisk₁] at hdisk₂
  rw [hdisk₂] at hdisk₃
  rw [hdisk₃] at hdisk₄
  obtain ⟨s₅, hs₅, hheld⟩ := exists_taken memSize 1 (hw₄.trans (hw₃.trans (hw₂.trans
    (hw₁.trans hw₀)))) (by rw [hdisk₄]; decide) (by rw [hdisk₄]; rfl)
  rw [show s₄.vm.disk.job s₄.vm.disk.currentCmd = twoSectors by rw [hdisk₄]; rfl] at hheld
  obtain ⟨s₆, hs₆, hdisk₆, hw₆⟩ := exists_written memSize 1 s₅ (.inl rfl) 7
  obtain ⟨s₇, hs₇, hnotes₇⟩ := exists_performed memSize 1 (hw₆.trans hheld) ⟨true, fun _ => 0⟩
  -- no command waits for the worker when the registers are set
  have hidle {s : DiskRace} {l : DiskLabel} (hcmd : s.vm.disk.currentCmd = diskCmdNone) :
      ParamsKept s l := fun _ _ _ _ hne => absurd hcmd hne
  have hkept₄ : ParamsKept s₃ (.out portDiskCmd diskCmdRead) := by
    rintro addr value ⟨⟩ - -
    exact ⟨nofun, nofun, nofun⟩
  have hkept₅ : ParamsKept s₄ .take := nofun
  have hkept₇ : ParamsKept s₆ (.transfer ⟨true, fun _ => 0⟩) := nofun
  have hkept₆ : ParamsKept s₅ (.out portDiskLba 7) :=
    fun _ _ _ hw => absurd (hheld.symm.trans hw) nofun
  have hnotes₄ : jobNotes s₃ (.out portDiskCmd diskCmdRead) = [.accepted twoSectors] := by
    simp only [jobNotes, hdisk₃]
    rfl
  have hstart : Reachable (((diskRace memSize 1).restrict ParamsKept).logged jobNotes)
      (⟨vm, false⟩, []) := .of_init ⟨⟨hvm, rfl⟩, rfl⟩
  have hlba := hstart.logged_step (e := []) ⟨hidle (by rw [hdisk₀]), hs₁⟩ rfl
  have hmem := hlba.logged_step (e := []) ⟨hidle (by rw [hdisk₁]; rfl), hs₂⟩ rfl
  have hcount := hmem.logged_step (e := []) ⟨hidle (by rw [hdisk₂]; rfl), hs₃⟩ rfl
  have hissued := hcount.logged_step ⟨hkept₄, hs₄⟩ hnotes₄
  have htaken := hissued.logged_step (e := []) ⟨hkept₅, hs₅⟩ rfl
  have hchanged := htaken.logged_step (e := []) ⟨hkept₆, hs₆⟩ rfl
  have hreach := hchanged.logged_step ⟨hkept₇, hs₇⟩ hnotes₇
  refine ⟨s₇, hreach, ?_, (transfer_uses_accepted_values hreach).1⟩
  obtain ⟨_, _, _, -, hvm⟩ | ⟨-, hvm⟩ := workerTransfer_cases hs₇.1
  all_goals
    rw [hvm, hdisk₆]
    rfl

/-- The guest issues a read of sector 0 and then writes 5 to the sector register; the
worker, which starts only then, reads sector 5. -/
theorem transfer_uses_later_value : ∃ s : DiskRace,
    Reachable ((diskRace memSize 1).logged jobNotes)
      (s, [.accepted ⟨diskCmdRead, 0, 0, 0⟩, .performed ⟨diskCmdRead, 5, 0, 0⟩]) ∧
    ¬ Legal jobAllows jobApply none
      [.accepted ⟨diskCmdRead, 0, 0, 0⟩, .performed ⟨diskCmdRead, 5, 0, 0⟩] := by
  obtain ⟨s, t, hinit, hcmd, hnotes, hdisk, hworker⟩ := exists_read_issued
  let changed : DiskRace := ⟨{ t.vm with
    disk := { t.vm.disk with lba := 5 }, io := Function.update t.vm.io portDiskLba 5 }, t.ticking⟩
  have hout : (diskRace memSize 1).step t (.out portDiskLba 5) changed := ⟨rfl, rfl⟩
  obtain ⟨u, v, htake, htransfer, hjob⟩ := exists_transfer memSize 1 (s := changed) hworker
    (by simp only [changed, hdisk]; decide) (by simp only [changed, hdisk]) ⟨true, fun _ => 0⟩
  simp only [changed, hdisk] at hjob
  have hstart : Reachable ((diskRace memSize 1).logged jobNotes) (s, []) :=
    .of_init ⟨hinit, rfl⟩
  have hissued : Reachable ((diskRace memSize 1).logged jobNotes)
      (changed, [.accepted ⟨diskCmdRead, 0, 0, 0⟩]) := by
    refine (hstart.step (l := .out portDiskCmd diskCmdRead)
      (t := (t, [.accepted ⟨diskCmdRead, 0, 0, 0⟩])) ⟨hcmd, ?_⟩).step ⟨hout, rfl⟩
    rw [hnotes]
    rfl
  have htaken : Reachable ((diskRace memSize 1).logged jobNotes)
      (u, [.accepted ⟨diskCmdRead, 0, 0, 0⟩]) := hissued.step (l := .take) ⟨htake, rfl⟩
  refine ⟨v, htaken.step (l := .transfer ⟨true, fun _ => 0⟩) ⟨htransfer, ?_⟩, ?_⟩
  · rw [hjob]
    rfl
  · rintro ⟨-, hperformed, -⟩
    simp [jobAllows] at hperformed

end LampVm
