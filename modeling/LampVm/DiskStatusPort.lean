import LampVm.DiskProtocol
import LampVm.Serial

/-!
# The status port of the disk

The disk has a status of its own, and the port table names a port for it. Port instructions of any
core, the worker and the tick run in any order. The port array is written by `accept_io` at the port
that an `OUT` names and by the serial line at its own two, so the status port keeps the value it has
from the start.
-/
namespace LampVm

open Contract Transition

abbrev portDiskStatus : ℕ := 0x14

/-- `DISK_STATUS_FREE` and `DISK_STATUS_BUSY`. -/
def DiskStatus.code : DiskStatus → BitVec 32
  | .free => 0
  | .busy => 1

/-- `OUT` once the port and the value are known. -/
def outPort (c : ℕ) (addr : ℤ) (v : BitVec 32) : VmM Unit :=
  if addr = portCpuCtxCsp then
    if v.toInt ≥ 0 ∧ v.toInt ≤ callStackSize then
      modifyCpu c fun cpu => { cpu with csp := v.toInt }
    else pure ()
  else if addr = portCpuCtxDsp then
    if v.toInt ≥ 0 ∧ v.toInt ≤ dataStackSize then
      modifyCpu c fun cpu => { cpu with dsp := v.toInt }
    else pure ()
  else if addr = portCpuCtxIrqMask then
    modifyCpu c fun cpu => { cpu with irqMasked := if v ≠ 0 then 1 else 0 }
  else acceptIo addr v

example (c : ℕ) (i : Inst) : execOut c i = readReg c i.rs1 >>= fun a =>
    if a.toInt ≥ 0 ∧ a.toInt < ioSize then readReg c i.rd >>= outPort c a.toInt
    else vmPanic (.outInvalidPort a) := rfl

inductive PortLabel
  | input (c : ℕ) (i : Inst) (addr : BitVec 32)
  | output (c : ℕ) (addr : BitVec 32) (value : BitVec 32)
  | disk (l : DiskLabel)

/-- Port instructions of the guest, and what the worker and the tick do. -/
def diskPorts (memorySize : ℕ) (smpCores : ℤ) : System DiskRace PortLabel where
  init := (diskRace memorySize smpCores).init
  step s l t :=
    match l with
    | .input c i addr => inPort c i addr s.vm = .ok ((), t.vm) ∧ t.ticking = s.ticking
    | .output c addr value =>
      outPort c addr.toInt value s.vm = .ok ((), t.vm) ∧ t.ticking = s.ticking
    | .disk l => l.serves ∧ (diskRace memorySize smpCores).step s l t

/-- The guest does not write the status port. -/
def StatusUnwritten (_ : DiskRace) (l : PortLabel) : Prop :=
  ∀ c value, l ≠ .output c (BitVec.ofNat 32 portDiskStatus) value

/-- Whatever core and register an `IN` from the status port fills, it gets the disk's status. -/
def Vm.ShowsDiskStatus (vm : Vm) : Prop :=
  ∀ c i vm', inPort c i (BitVec.ofNat 32 portDiskStatus) vm = .ok ((), vm') →
    vm'.regValue c i.rd = vm.disk.status.code

/-! ## Who writes the port -/

section Port

variable {vm vm' : Vm} {u : Vm} {c port : ℕ} {i : Inst} {value x : BitVec 32} {E : Fault → Prop}

/-- The disk and the port are as in `u`. -/
structure SamePort (port : ℕ) (u vm : Vm) : Prop where
  disk : vm.disk = u.disk
  io : vm.io port = u.io port

theorem samePort_coreFree (c port : ℕ) (u : Vm) : CoreFree c (SamePort port u) :=
  fun _ _ hs _ => ⟨hs.disk, hs.io⟩

theorem safe_setIo_other {k : ℕ} (hk : k < ioSize) (hne : port ≠ k) :
    Safe (SamePort port u) E (setIo k value) :=
  safe_bind (safe_checkIndex hk) fun _ => safe_modify fun _ hv =>
    ⟨hv.disk, (Function.update_of_ne hne _ _).trans hv.io⟩

section Keyboard

variable (hE : ∀ array k, E (.outOfBounds array k))
include hE

theorem samePort_serialPop (rd : BitVec 8) :
    Safe (SamePort port u) E (serialPop c rd) := by
  have hwrite (v : BitVec 32) : Safe (SamePort port u) E (writeReg c rd v) :=
    (samePort_coreFree c port u).writeReg (.inr (hE _ _)) v
  exact safe_bind safe_get fun _ => safe_ite
    (fun _ => safe_bind (safe_readFifo_of_fault hE _) fun _ =>
      safe_bind (safe_modify fun _ hv => ⟨hv.disk, hv.io⟩) fun _ => hwrite _)
    fun _ => hwrite _

theorem samePort_serialMirror (hkeyboard : port ≠ portKeyboard)
    (hattr : port ≠ portScreenAttribute) : Safe (SamePort port u) E serialMirror := by
  refine safe_bind safe_get fun _ => safe_ite
    (fun _ => safe_bind (safe_readFifo_of_fault hE _) fun _ => ?_) fun _ => ?_
  all_goals
    exact safe_bind (safe_setIo_other (by decide) hkeyboard) fun _ =>
      safe_setIo_other (by decide) hattr

/-- The serial line mirrors itself in its own two ports. -/
theorem samePort_inKeyboard (hkeyboard : port ≠ portKeyboard)
    (hattr : port ≠ portScreenAttribute) : Safe (SamePort port u) E (inKeyboard c i) := by
  have hack : Safe (SamePort port u) E serialAck :=
    safe_bind_get fun _ hv => safe_bind (safe_checkIndex_of_fault hE _ _ _) fun _ => safe_set ⟨hv.disk, hv.io⟩
  have hraise : Safe (SamePort port u) E serialRaise :=
    safe_bind safe_get fun _ => safe_ite
      (fun _ => safe_triggerInterruptTarget (fun _ _ hv => ⟨hv.disk, hv.io⟩) _ _) fun _ => safe_pure _
  exact safe_bind (samePort_serialPop hE i.rd) fun _ =>
    safe_bind (samePort_serialMirror hE hkeyboard hattr) fun _ => safe_bind hack fun _ => hraise

theorem samePort_inPort (hpanic : ∀ p, E (.panic p)) (hkeyboard : port ≠ portKeyboard)
    (hattr : port ≠ portScreenAttribute) (addr : BitVec 32) :
    Safe (SamePort port u) E (inPort c i addr) := by
  have hwrite (v : BitVec 32) : Safe (SamePort port u) E (writeReg c i.rd v) :=
    (samePort_coreFree c port u).writeReg (.inr (hE _ _)) v
  refine safe_ite (fun hrange => safe_bind (safe_getCpu c) fun _ =>
    safe_ite (fun _ => hwrite _) fun _ => safe_ite (fun _ => hwrite _) fun _ =>
    safe_ite (fun _ => hwrite _) fun _ =>
    safe_ite (fun _ => samePort_inKeyboard hE hkeyboard hattr) fun _ => ?_)
    fun _ => safe_throw (hpanic _)
  refine safe_ite (fun _ => safe_bind (safe_readIo (by decide)) fun _ => hwrite _) fun _ =>
    safe_bind (safe_readIo ?_) fun _ => hwrite _
  omega

end Keyboard

theorem inPort_same {addr : BitVec 32} (h : inPort c i addr vm = .ok ((), vm')) :
    SamePort portDiskStatus vm vm' :=
  (samePort_inPort (E := fun _ => True) (fun _ _ => trivial) (fun _ => trivial) (by decide)
    (by decide) addr).ok ⟨rfl, rfl⟩ h

theorem acceptIo_io {a : ℤ} (h : acceptIo a value vm = .ok ((), vm')) (hne : a ≠ port) :
    vm'.io port = vm.io port := by
  have hupdate (k : ℕ) (v : BitVec 32) (hk : (k : ℤ) ≠ port) :
      Function.update vm.io k v port = vm.io port :=
    Function.update_of_ne (fun heq => hk (congrArg Nat.cast heq.symm)) _ _
  cases acceptIo_portWrite h with
  | outside => rfl
  | screen | screenAttribute | diskCmd | diskLba | diskMem | diskCount | plain =>
    exact hupdate _ _ hne

theorem outPort_io {a : ℤ} (h : outPort c a value vm = .ok ((), vm')) (hne : a ≠ port) :
    vm'.io port = vm.io port := by
  unfold outPort at h
  split_ifs at h
  on_goal -1 => exact acceptIo_io h hne
  all_goals
    obtain ⟨-, rfl⟩ := Prod.mk.inj (Except.ok.inj h)
    rfl

theorem outPort_status {a : ℤ} (h : outPort c a value vm = .ok ((), vm')) (hne : a ≠ portDiskCmd) :
    vm'.disk.status = vm.disk.status := by
  unfold outPort at h
  split_ifs at h
  on_goal -1 =>
    have hdisk : vm'.disk = vm.disk.out a value := congrArg Prod.fst (acceptIo_diskView h)
    rw [hdisk]
    exact (out_of_ne hne vm.disk value).1
  all_goals
    obtain ⟨-, rfl⟩ := Prod.mk.inj (Except.ok.inj h)
    rfl

/-- An `IN` from the status port reads the port array. -/
theorem inPort_diskStatus (c : ℕ) (i : Inst) (vm : Vm) :
    inPort c i (BitVec.ofNat 32 portDiskStatus) vm =
      writeReg c i.rd (vm.io portDiskStatus) vm := by
  have hport : (BitVec.ofNat 32 portDiskStatus).toInt = portDiskStatus := rfl
  have hread : readIo portDiskStatus vm = .ok (vm.io portDiskStatus, vm) := by
    rw [readIo, bind_ok (congrFun (checkIndex_of_lt (by decide)) vm)]
    rfl
  unfold inPort
  rw [hport, if_pos (by decide), bind_ok (getCpu_apply c vm), if_neg (by decide), if_neg (by decide),
    if_neg (by decide), if_neg (by decide), if_neg (by decide), Int.toNat_natCast, bind_ok hread]

/-- The port holds `x`. -/
def Vm.PortHolds (port : ℕ) (x : BitVec 32) (vm : Vm) : Prop := vm.io port = x

theorem portHolds_worker (host : BounceBuffer) :
    Safe (Vm.PortHolds port x) E workerTake ∧ Safe (Vm.PortHolds port x) E (workerTransfer host) ∧
      Safe (Vm.PortHolds port x) E workerComplete :=
  ⟨safe_modify fun _ hv => hv, safe_workerTransfer (fun _ _ _ _ hv => hv) host,
    safe_workerComplete fun _ _ _ hv => hv⟩

theorem portHolds_diskTickLocked : Safe (Vm.PortHolds port x) E diskTickLocked :=
  safe_bind_get fun _ hv => safe_bind (safe_set hv) fun _ =>
    safe_ite (fun _ => safe_triggerInterruptTarget (fun _ _ hv => hv) _ _) fun _ => safe_pure _

end Port

/-! ## Every order -/

variable {M : ℕ} {smpCores : ℤ} {s t : DiskRace}

theorem portHolds_step {l : PortLabel} {x : BitVec 32} (hs : s.vm.PortHolds portDiskStatus x)
    (hl : StatusUnwritten s l) (h : (diskPorts M smpCores).step s l t) :
    t.vm.PortHolds portDiskStatus x := by
  cases l with
  | input c i addr =>
    exact (inPort_same h.1).io.trans hs
  | output c addr value =>
    refine (outPort_io h.1 fun haddr => hl c value ?_).trans hs
    have haddr' : addr = BitVec.ofNat 32 portDiskStatus := BitVec.eq_of_toInt_eq haddr
    rw [haddr']
  | disk l =>
    obtain ⟨hserves, hstep⟩ := h
    cases l with
    | out | other => exact hserves.elim
    | take => exact (portHolds_worker (E := fun _ => True) ⟨false, fun _ => 0⟩).1.ok hs hstep.1
    | transfer host => exact (portHolds_worker (E := fun _ => True) host).2.1.ok hs hstep.1
    | complete => exact (portHolds_worker (E := fun _ => True) ⟨false, fun _ => 0⟩).2.2.ok hs hstep.1
    | tickTest =>
      obtain ⟨-, hvm⟩ := Prod.mk.inj (Except.ok.inj hstep.2)
      rw [← hvm]
      exact hs
    | tickLocked => exact (portHolds_diskTickLocked (E := fun _ => True)).ok hs hstep.2.1

theorem portHolds_init (h : (diskPorts M smpCores).init s) :
    s.vm.PortHolds portDiskStatus 0 := by
  obtain ⟨⟨clock, memcheck, image, program, data, layout, hboot⟩, -⟩ := h
  obtain ⟨vm₀, hcreate, hivt⟩ := boot_eq_ok hboot
  obtain rfl := vmCreate_ok hcreate
  have hstable : Stable (fun s : Vm => s.io portDiskStatus = 0) fun _ => True :=
    .of_view 0 (fun _ => rfl) fun _ _ _ _ => rfl
  have hsafe : Safe (Vm.PortHolds portDiskStatus 0) (fun _ => True) initIvt :=
    safe_initIvt hstable.vmWrite64 (fun _ _ ht => ht) fun _ ht => ht
  refine hsafe.ok ?_ hivt
  change Function.update (fun _ : ℕ => (0 : BitVec 32)) portScreenAttribute serialStatusTxReady
    portDiskStatus = 0
  rw [Function.update_of_ne (by decide)]

theorem reachable_portHolds (h : Reachable ((diskPorts M smpCores).restrict StatusUnwritten) s) :
    s.vm.PortHolds portDiskStatus 0 :=
  h.invariant (M := (diskPorts M smpCores).restrict StatusUnwritten)
    (P := fun s => s.vm.PortHolds portDiskStatus 0) (fun _ => portHolds_init)
    fun _ _ _ hs hstep => portHolds_step hs hstep.1 hstep.2

theorem writeReg_returns {r : BitVec 8} (hr : r.toNat < regCount) (c : ℕ) (v : BitVec 32) (vm : Vm) :
    ∃ vm', writeReg c r v vm = .ok ((), vm') := by
  unfold writeReg
  rw [dif_pos hr, modifyCpu_apply]
  exact ⟨_, rfl⟩

/-- A port that holds zero shows the status exactly while the disk is free. -/
theorem PortHolds.shows_iff {vm : Vm} (h : vm.PortHolds portDiskStatus 0) :
    vm.ShowsDiskStatus ↔ vm.disk.status = .free := by
  constructor
  · intro hshows
    obtain ⟨vm', hrun⟩ := writeReg_returns (show (0 : BitVec 8).toNat < regCount by decide) 0 (vm.io portDiskStatus) vm
    have hcode := hshows 0 ⟨0, 0, 0, 0, 0⟩ vm' ((inPort_diskStatus _ _ vm).trans hrun)
    rw [(writeReg_ok hrun).2, h] at hcode
    cases hstatus : vm.disk.status with
    | free => rfl
    | busy =>
      rw [hstatus] at hcode
      exact absurd hcode (by decide)
  · intro hfree c i vm' hrun
    rw [inPort_diskStatus] at hrun
    rw [(writeReg_ok hrun).2, hfree]
    exact h

/-- The guest issues no command. -/
def NoCommand (_ : DiskRace) (l : PortLabel) : Prop :=
  ∀ c value, l ≠ .output c (BitVec.ofNat 32 portDiskCmd) value

/-- A free disk becomes busy only through a command. -/
theorem free_step {l : PortLabel} (hs : s.vm.disk.status = .free) (hl : NoCommand s l)
    (h : (diskPorts M smpCores).step s l t) : t.vm.disk.status = .free := by
  cases l with
  | input c i addr => rw [(inPort_same h.1).disk, hs]
  | output c addr value =>
    refine (outPort_status h.1 fun haddr => hl c value ?_).trans hs
    have haddr' : addr = BitVec.ofNat 32 portDiskCmd := BitVec.eq_of_toInt_eq haddr
    rw [haddr']
  | disk l =>
    obtain ⟨hserves, hstep⟩ := h
    cases l with
    | out | other => exact hserves.elim
    | take => rw [workerTake_ok hstep.1, hs]
    | transfer host =>
      obtain ⟨_, _, _, -, hvm⟩ | ⟨-, hvm⟩ := workerTransfer_cases hstep.1
      · rw [hvm, hs]
      · rw [hvm, hs]
    | complete =>
      obtain ⟨_, -, hvm⟩ | ⟨-, hvm⟩ := workerComplete_cases hstep.1
      · rw [hvm]
        exact hs
      · rw [hvm, hs]
    | tickTest =>
      obtain ⟨-, hvm⟩ := Prod.mk.inj (Except.ok.inj hstep.2)
      rw [← hvm, hs]
    | tickLocked =>
      rw [(diskTickLocked_ok hstep.2.1).1]
      unfold Disk.tick
      split_ifs
      · rfl
      · exact hs

theorem reachable_free
    (h : Reachable (((diskPorts M smpCores).restrict StatusUnwritten).restrict NoCommand) s) :
    s.vm.disk.status = .free := by
  refine h.invariant (M := ((diskPorts M smpCores).restrict StatusUnwritten).restrict NoCommand)
    (P := fun s => s.vm.disk.status = .free) (fun s hs => ?_)
    fun _ _ _ hs hstep => free_step hs hstep.1 hstep.2.2
  have hinit : (diskRace M smpCores).init s := hs
  rw [(diskInit_state hinit).1]

/-- In every state the port shows the status if the disk is free and only then, so in a run without
a command it always does. -/
theorem disk_status_port :
    (∀ s, Reachable ((diskPorts M smpCores).restrict StatusUnwritten) s →
      (s.vm.ShowsDiskStatus ↔ s.vm.disk.status = .free)) ∧
    ∀ s, Reachable (((diskPorts M smpCores).restrict StatusUnwritten).restrict NoCommand) s →
      s.vm.ShowsDiskStatus := by
  have hiff (s : DiskRace) (h : Reachable ((diskPorts M smpCores).restrict StatusUnwritten) s) :
      s.vm.ShowsDiskStatus ↔ s.vm.disk.status = .free :=
    PortHolds.shows_iff (reachable_portHolds h)
  exact ⟨hiff, fun s h => (hiff s h.of_restrict).mpr (reachable_free h)⟩

/-- A guest has issued a read. -/
theorem exists_issued_ports : ∃ s, Reachable ((diskPorts memSize 1).restrict StatusUnwritten) s ∧
    DiskRepresents s (.issued diskCmdRead) ∧ s.vm.diskWorker = .waiting ∧ s.ticking = false := by
  obtain ⟨s, t, hinit, hstep, -, -, -⟩ := exists_issued diskCmdRead
  obtain ⟨hR, hw⟩ := represents_issued (diskRepresents_init hinit) (by decide) hstep
  have hout : (diskPorts memSize 1).step s
      (.output 0 (BitVec.ofNat 32 portDiskCmd) diskCmdRead) t := hstep
  have hstart : Reachable ((diskPorts memSize 1).restrict StatusUnwritten) s := .of_init hinit
  exact ⟨t, hstart.step (l := .output 0 (BitVec.ofNat 32 portDiskCmd) diskCmdRead)
    ⟨fun _ _ h => absurd (PortLabel.output.inj h).2.1 (by decide), hout⟩, hR, hw,
    hstep.2.trans hinit.2⟩

/-- A read is issued, carried out and reported; behind it the port shows the status again. -/
theorem disk_status_port_completed : ∃ s ls t,
    Reachable ((diskPorts memSize 1).restrict StatusUnwritten) s ∧ s.vm.disk.status = .busy ∧
    Run ((diskPorts memSize 1).restrict StatusUnwritten) s ls t ∧ t.vm.disk.status = .free ∧
    t.vm.ShowsDiskStatus := by
  obtain ⟨s, hreach, hR, hw, ht⟩ := exists_issued_ports
  obtain ⟨t, hserved, hfree⟩ := run_served memSize 1 hR hw ht ⟨true, fun _ => 0⟩ []
  have hserves : ∀ l ∈ [DiskLabel.take, .transfer ⟨true, fun _ => 0⟩, .complete, .tickTest,
      .tickLocked], l.serves := by simp [DiskLabel.serves]
  have hrun : Run ((diskPorts memSize 1).restrict StatusUnwritten) s _ t :=
    hserved.of_logged.map id .disk fun l hl u v hstep =>
      ⟨fun _ _ => nofun, hserves l hl, hstep⟩
  have hshows := (disk_status_port.1 t (hreach.run hrun)).mpr hfree.state.1
  exact ⟨s, _, t, hreach, hR.state.1, hrun, hfree.state.1, hshows⟩

/-- A read command leaves the disk busy and the port at `DISK_STATUS_FREE`. -/
theorem disk_status_port_busy :
    ∃ s t, Reachable ((diskPorts memSize 1).restrict StatusUnwritten) s ∧
      s.vm.disk.status = .busy ∧
      inPort 0 ⟨0, 0, 0, 0, 0⟩ (BitVec.ofNat 32 portDiskStatus) s.vm = .ok ((), t) ∧
      t.regValue 0 0 = DiskStatus.free.code := by
  obtain ⟨t, hreach, hR, -, -⟩ := exists_issued_ports
  have hbusy : t.vm.disk.status = .busy := hR.state.1
  obtain ⟨vm', hrun⟩ := writeReg_returns (show (0 : BitVec 8).toNat < regCount by decide) 0
    (t.vm.io portDiskStatus) t.vm
  refine ⟨t, vm', hreach, hbusy, (inPort_diskStatus _ _ _).trans hrun, ?_⟩
  rw [(writeReg_ok hrun).2]
  exact reachable_portHolds hreach

end LampVm
