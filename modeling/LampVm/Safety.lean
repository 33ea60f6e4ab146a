import LampVm.InstructionRule
import LampVm.Invariant

/-!
# Every step keeps the invariant

Interrupt entry takes a core from flag 0 with an empty ISR stack to flag 1 with
34 words on it, and return takes it back; they are guarded by the flag alone, so
the ISR stack can neither overflow nor underflow. All other operations keep any
family of phases.
-/
namespace LampVm

open ByteOrder Contract Transition

variable {M N : ℕ} {K : ℕ → Vcpu → Prop} {P Q : Phases} {α : Type} {c : ℕ}

/-! ## Interrupt entry and return -/

/-- The phases `P`, with core `c` in exactly one. -/
def Phases.at (P : Phases) (c : ℕ) (flag isp : ℤ) : Phases :=
  Function.update P c fun i s => i = flag ∧ s = isp

/-- The words of a saved context. -/
abbrev contextWords : ℤ := 34

theorem phases_at_iff {i s flag isp : ℤ} : P.at c flag isp c i s ↔ i = flag ∧ s = isp := by
  simp [Phases.at]

theorem phases_at_of_ne {d : ℕ} (hd : d ≠ c) {flag isp : ℤ} : P.at c flag isp d = P d := by
  simp [Phases.at, hd]

theorem CoreInv.rephase {cpu : Vcpu} (h : CoreInv M N P c cpu)
    (hq : Q c cpu.inInterrupt cpu.isp) : CoreInv M N Q c cpu :=
  ⟨h.csp, h.dsp, h.ip, h.coreId, h.isrBase, hq⟩

/-- Changing one core may change the phases admitted for it. -/
theorem MachineInv.setPhase {vm : Vm} (hv : MachineInv M N (CoreInv M N P) vm)
    (hQ : ∀ d, d ≠ c → Q d = P d) {cpu : Vcpu} (h : c < N → CoreInv M N Q c cpu) :
    MachineInv M N (CoreInv M N Q) (vm.setCpu c cpu) := by
  refine ⟨hv.memorySize, hv.smpCores, hv.devices, hv.cache, fun d hd => ?_⟩
  by_cases hdc : d = c
  · subst hdc
    rw [setCpu_cpus_self]
    exact h hd
  · rw [setCpu_cpus_of_ne _ _ hdc]
    have hcore := hv.core d hd
    exact hcore.rephase (by rw [hQ d hdc]; exact hcore.phase)

theorem MachineInv.rephase {vm : Vm} (hv : MachineInv M N (CoreInv M N P) vm)
    (hQ : ∀ d, d ≠ c → Q d = P d)
    (h : c < N → Q c (vm.cpus c).inInterrupt (vm.cpus c).isp) :
    MachineInv M N (CoreInv M N Q) vm := by
  have hself : vm.setCpu c (vm.cpus c) = vm := by simp [Vm.setCpu]
  rw [← hself]
  exact hv.setPhase hQ fun hc => (hv.core c hc).rephase (h hc)

/-- The invariant while the context of core `c` is being saved or restored. -/
abbrev Saving (M N : ℕ) (P : Phases) (c : ℕ) (flag isp : ℤ) : Vm → Prop :=
  MachineInv M N (CoreInv M N (P.at c flag isp))

theorem meets_isrPush (hc : c < N) {flag isp : ℤ} (hi : isp ≠ 0) (v : BitVec 64) :
    Meets (Saving M N P c flag isp) (isrPush c v) (fun _ => Saving M N P c flag (isp - 1))
      NotIsrPanic := by
  intro vm hv
  have hcpu := hv.core c hc
  obtain ⟨hf, hs⟩ := phases_at_iff.mp hcpu.phase
  have h0 : ¬ isrStack.get (vm.cpus c) = 0 := by
    change (vm.cpus c).isp ≠ 0
    rw [hs]
    exact hi
  simp only [isrPush, stackPush, bind_apply, getCpu_apply, if_neg h0, modifyCpu_apply]
  refine kept.vmWrite64 _ _ _ (hv.setPhase (fun d hd => by rw [phases_at_of_ne hd,
    phases_at_of_ne hd]) fun _ => ?_)
  exact ⟨hcpu.csp, hcpu.dsp, hcpu.ip, hcpu.coreId, hcpu.isrBase,
    phases_at_iff.mpr ⟨hf, by simp [isrStack, hs]⟩⟩

theorem meets_isrPop (hc : c < N) {flag isp : ℤ} (hi : isp < isrStackSize) :
    Meets (Saving M N P c flag isp) (isrPop c) (fun _ => Saving M N P c flag (isp + 1))
      NotIsrPanic := by
  intro vm hv
  have hs := (phases_at_iff.mp (hv.core c hc).phase).2
  have h0 : ¬ isrStack.get (vm.cpus c) ≥ isrStack.size := by
    change ¬ (vm.cpus c).isp ≥ isrStackSize
    omega
  simp only [isrPop, stackPop, bind_apply, getCpu_apply, if_neg h0]
  have hread := kept.memory.vmRead64 (isrStack.cellAddr (vm.cpus c) 8 (isrStack.get (vm.cpus c))) vm hv
  cases hres : vmRead64 (isrStack.cellAddr (vm.cpus c) 8 (isrStack.get (vm.cpus c))) vm with
  | error e =>
    rw [hres] at hread
    exact hread
  | ok r =>
    rw [hres] at hread
    have hcpu := hread.core c hc
    obtain ⟨hf', hs'⟩ := phases_at_iff.mp hcpu.phase
    refine MachineInv.setPhase hread (fun d hd => by rw [phases_at_of_ne hd,
      phases_at_of_ne hd]) fun _ => ?_
    exact ⟨hcpu.csp, hcpu.dsp, hcpu.ip, hcpu.coreId, hcpu.isrBase,
      phases_at_iff.mpr ⟨hf', by simp [isrStack, hs']⟩⟩

theorem meets_isrPopU32 (hc : c < N) {flag isp : ℤ} (hi : isp < isrStackSize) :
    Meets (Saving M N P c flag isp) (isrPopU32 c) (fun _ => Saving M N P c flag (isp + 1))
      NotIsrPanic :=
  Meets.bind (meets_isrPop hc hi) fun _ => Meets.pure fun _ h => h

/-- A core outside a handler may enter one; a core inside a handler stays as it is. -/
def MayEnter (P : Phases) (c : ℕ) : Prop :=
  ∀ i s, P c i s → i ≠ 0 ∨ (s = isrStackSize ∧ P c 1 (isrStackSize - contextWords))

/-- A core inside a handler may return from it. -/
def MayReturn (P : Phases) (c : ℕ) : Prop :=
  ∀ i s, P c i s → i = 0 ∨ (s = isrStackSize - contextWords ∧ P c 0 isrStackSize)

/-- Rewriting a core while its phase is pinned. -/
theorem meets_modifyCpu_saving {flag isp : ℤ} {f : Vcpu → Vcpu}
    (h : ∀ cpu, CoreInv M N (P.at c flag isp) c cpu → CoreInv M N (P.at c flag isp) c (f cpu)) :
    Meets (Saving M N P c flag isp) (modifyCpu c f) (fun _ => Saving M N P c flag isp)
      NotIsrPanic :=
  kept_modifyCpu h

/-- The flag is set last, when the ISR stack is as the new phase has it. -/
theorem meets_setInInterrupt {flag flag' isp : ℤ} (hphase : P c flag' isp) :
    Meets (Saving M N P c flag isp) (modifyCpu c fun cpu => { cpu with inInterrupt := flag' })
      (fun _ => MachineInv M N (CoreInv M N P)) NotIsrPanic := by
  refine Meets.modify fun t ht => ht.setPhase (fun d hd => (phases_at_of_ne hd).symm) fun hc => ?_
  have hcpu := ht.core c hc
  refine ⟨hcpu.csp, hcpu.dsp, hcpu.ip, hcpu.coreId, hcpu.isrBase, ?_⟩
  rw [(phases_at_iff.mp hcpu.phase).2]
  exact hphase

theorem meets_enterHandler (hc : c < N) (hheld : P c 1 (isrStackSize - contextWords))
    (intNo : BitVec 32) (isrIp : BitVec 64) :
    Meets (Saving M N P c 0 isrStackSize) (enterHandler c intNo isrIp)
      (fun _ => MachineInv M N (CoreInv M N P)) NotIsrPanic := by
  have hloop : Meets (Saving M N P c 0 (isrStackSize - 1 - 1))
      ((List.finRange regCount).forM fun i => do isrPushU32 c ((← getCpu c).regs i))
      (fun _ => Saving M N P c 0 (isrStackSize - contextWords)) NotIsrPanic := by
    refine Meets.forM (J := fun i => Saving M N P c 0 (isrStackSize - 1 - 1 - i)) fun i x hx => ?_
    have hi : i < regCount := by
      simpa using (List.getElem?_eq_some_iff.mp hx).1
    refine Meets.bind (safe_getCpu c) fun cpu => ?_
    refine (meets_isrPush hc (by simp only [isrStackSize, regCount] at hi ⊢; omega) _).weaken
      (fun _ h => h) (fun _ _ h => ?_) fun _ h => h
    rwa [Nat.cast_add, Nat.cast_one, ← sub_sub]
  refine Meets.bind (safe_getCpu c) fun cpu => Meets.bind (meets_isrPush hc (by decide) _)
    fun _ => Meets.bind (safe_getCpu c) fun cpu => Meets.bind (meets_isrPush hc (by decide) _)
    fun _ => Meets.bind hloop fun _ => Meets.bind (meets_modifyCpu_saving fun _ h =>
    ⟨h.csp, h.dsp, h.ip, h.coreId, h.isrBase, h.phase⟩) fun _ =>
    Meets.bind (meets_modifyCpu_saving fun _ h =>
    ⟨h.csp, h.dsp, BitVec.isLt _, h.coreId, h.isrBase, h.phase⟩) fun _ =>
    meets_setInInterrupt hheld

theorem kept_vmEnterInterrupt (hc : c < N) (hP : MayEnter P c) (intNo : BitVec 32) :
    Kept M N (CoreInv M N P) (vmEnterInterrupt c intNo) := by
  intro vm hv
  simp only [vmEnterInterrupt, bind_apply, getCpu_apply]
  by_cases hn : intNo.toNat ≥ ivtSize
  · rw [if_pos hn]
    exact hv
  rw [if_neg hn]
  by_cases hin : (vm.cpus c).inInterrupt ≠ 0
  · rw [if_pos hin]
    exact hv
  rw [if_neg hin]
  have hflag : (vm.cpus c).inInterrupt = 0 := not_not.mp hin
  have hphase := (hv.core c hc).phase
  obtain ⟨hisp, hheld⟩ := (hP _ _ hphase).resolve_left (not_not.mpr hflag)
  have hfree : P c 0 isrStackSize := by rw [← hflag, ← hisp]; exact hphase
  have hback : ∀ t, Saving M N P c 0 isrStackSize t → MachineInv M N (CoreInv M N P) t := by
    intro t ht
    refine ht.rephase (fun d hd => (phases_at_of_ne hd).symm) fun hc => ?_
    obtain ⟨h1, h2⟩ := phases_at_iff.mp (ht.core c hc).phase
    rw [h1, h2]
    exact hfree
  have hstart : Saving M N P c 0 isrStackSize vm :=
    hv.rephase (fun d hd => phases_at_of_ne hd) fun _ => phases_at_iff.mpr ⟨hflag, hisp⟩
  refine Meets.bind (kept.memory.vmRead64 _) (fun isrIp => ?_) vm hstart
  by_cases hnone : isrIp = BitVec.allOnes 64
  · rw [if_pos hnone]
    exact Meets.pure hback
  · rw [if_neg hnone]
    exact meets_enterHandler hc hheld intNo isrIp

theorem meets_leaveHandler (hc : c < N) (hfree : P c 0 isrStackSize) (flag : ℤ) :
    Meets (Saving M N P c flag (isrStackSize - contextWords)) (leaveHandler c)
      (fun _ => MachineInv M N (CoreInv M N P)) NotIsrPanic := by
  have hloop : Meets (Saving M N P c flag (isrStackSize - contextWords))
      ((List.finRange regCount).reverse.forM fun i => do
        let v ← isrPopU32 c
        modifyCpu c fun cpu => { cpu with regs := Function.update cpu.regs i v })
      (fun _ => Saving M N P c flag (isrStackSize - 2)) NotIsrPanic := by
    refine Meets.forM (J := fun i => Saving M N P c flag (isrStackSize - contextWords + i))
      fun i x hx => ?_
    have hi : i < regCount := by
      simpa using (List.getElem?_eq_some_iff.mp hx).1
    refine Meets.bind (meets_isrPopU32 hc
      (by simp only [isrStackSize, contextWords, regCount] at hi ⊢; omega)) fun v => ?_
    rw [Nat.cast_add, Nat.cast_one, ← add_assoc]
    exact meets_modifyCpu_saving fun _ h => ⟨h.csp, h.dsp, h.ip, h.coreId, h.isrBase, h.phase⟩
  refine Meets.bind hloop fun _ => Meets.bind (meets_isrPop hc (by decide)) fun flags =>
    Meets.bind (meets_modifyCpu_saving fun _ h =>
      ⟨h.csp, h.dsp, h.ip, h.coreId, h.isrBase, h.phase⟩)
    fun _ => Meets.bind (meets_isrPop hc (by decide)) fun ip => Meets.bind
    (meets_modifyCpu_saving fun _ h =>
      ⟨h.csp, h.dsp, BitVec.isLt _, h.coreId, h.isrBase, h.phase⟩) fun _ =>
    meets_setInInterrupt hfree

theorem kept_vmIret (hc : c < N) (hP : MayReturn P c) :
    Kept M N (CoreInv M N P) (vmIret c) := by
  intro vm hv
  simp only [vmIret, bind_apply, getCpu_apply]
  by_cases hin : (vm.cpus c).inInterrupt = 0
  · rw [if_pos hin]
    exact hv
  rw [if_neg hin]
  obtain ⟨hisp, hfree⟩ := (hP _ _ (hv.core c hc).phase).resolve_left hin
  exact meets_leaveHandler hc hfree _ vm
    (hv.rephase (fun d hd => phases_at_of_ne hd) fun _ => phases_at_iff.mpr ⟨rfl, hisp⟩)

/-! ## Pending vectors, ports and devices -/

/-- The devices are no part of the configuration. -/
theorem kept_devices : DeviceFree (MachineInv M N K) := fun s t hs h =>
  hs.congr (show t.besidesDevices.configuration = s.besidesDevices.configuration by rw [h])

theorem notIsrPanic_outOfBounds (array : CArray) (k : ℕ) : NotIsrPanic (.outOfBounds array k) :=
  ⟨nofun, nofun⟩

theorem kept_deliverFirst (hc : c < N) (hP : MayEnter P c) (coreId : ℕ) (ws : List ℕ) :
    Kept M N (CoreInv M N P) (deliverFirst c coreId ws) := by
  induction ws with
  | nil => exact safe_pure _
  | cons w ws ih =>
    exact safe_bind_get fun _ hv => safe_bind (kept_checkIndex _ _ _) fun _ =>
      safe_ite (fun _ => ih) fun _ => safe_bind
        (safe_set (hv.congr rfl))
        fun _ => kept_vmEnterInterrupt hc hP _

theorem kept_vmHandleInterrupts (hc : c < N) (hP : MayEnter P c) :
    Kept M N (CoreInv M N P) (vmHandleInterrupts c) :=
  safe_bind (safe_getCpu c) fun _ => safe_ite (fun _ => safe_pure _) fun _ =>
    safe_ite (fun _ => safe_pure _) fun _ => kept_deliverFirst hc hP _ _

theorem kept_registerIsr (intNo : BitVec 32) (isrIp : BitVec 64) :
    Kept M N K (registerIsr intNo isrIp) :=
  safe_ite (fun _ => kept_vmPanic ⟨nofun, nofun⟩) fun _ => kept.vmWrite64 _ _

/-! ## Instructions -/

section Instructions

variable (i : Inst)

theorem kept_execStartap : Kept M N (CoreInv M N P) (execStartap c i) :=
  safe_bind (safe_getCpu c) fun _ => safe_ite (fun _ => safe_pure _) fun _ =>
    safe_bind (kept_readReg c _) fun _ => safe_bind (kept_readReg c _) fun _ =>
    safe_bind safe_get fun _ => safe_ite (fun _ => safe_pure _) fun _ =>
    safe_bind (kept_checkIndex _ _ _) fun _ => safe_bind
      (kept_modifyCpu fun _ h => ⟨h.csp, h.dsp, BitVec.isLt _, h.coreId, h.isrBase, h.phase⟩)
      fun _ => safe_bind (kept_checkIndex _ _ _) fun _ => safe_modify fun _ hv => hv.congr rfl

/-- Every operation of an instruction keeps the invariant, provided the two that change the
phase of their core are admitted to. -/
theorem kept_stepRules (hc : c < N) (hE : MayEnter P c) (op : Opcode)
    (hR : op = .iret → MayReturn P c) :
    StepRules (MachineInv M N (CoreInv M N P)) NotIsrPanic c i op where
  memory := kept.memory
  fault e he := by
    constructor
    · rintro rfl
      exact he
    · rintro rfl
      exact he
  readReg r _ := kept_readReg c r
  writeReg := kept_writeReg c i.rd
  modifyFlags := kept_modifyFlags c
  setIp ip := kept_setIp ip.isLt
  dataPush := kept_stackPush (dataStack_bounded M N P) kept.vmWrite32 c
  dataPop := kept_stackPop (dataStack_bounded M N P) (fun _ => kept.memory.vmRead32) c
  callPush := kept_stackPush (callStack_bounded M N P) kept.vmWrite64 c
  callPop := kept_stackPop (callStack_bounded M N P) (fun _ => kept.memory.vmRead64) c
  setCsp _ hrange := kept_modifyCpu fun _ h =>
    ⟨hrange, h.dsp, h.ip, h.coreId, h.isrBase, h.phase⟩
  setDsp _ hrange := kept_modifyCpu fun _ h =>
    ⟨h.csp, hrange, h.ip, h.coreId, h.isrBase, h.phase⟩
  setIrqMasked _ := kept_modifyCpu fun _ h =>
    ⟨h.csp, h.dsp, h.ip, h.coreId, h.isrBase, h.phase⟩
  readIo _ := safe_readIo
  acceptIo := kept_devices.port.acceptIo
  halt := kept.free.halt
  keyboard _ := kept_devices.inKeyboard notIsrPanic_outOfBounds (kept_writeReg c i.rd)
  divideByZero _ := kept_devices.trigger _ _
  enter _ := kept_vmEnterInterrupt hc hE
  iret hop := kept_vmIret hc (hR hop)
  startap _ := kept_execStartap i
  ipi _ := kept_devices.trigger

end Instructions

/-- The interpreter keeps the invariant unless it meets an `IRET` that the phases do
not admit. -/
theorem vmInstructionCase_inv {vm : Vm} (hc : c < N) (hE : MayEnter P c)
    (hR : (vm.nextInst c).op = Opcode.iret.code → MayReturn P c)
    (hv : MachineInv M N (CoreInv M N P) vm) :
    Result (fun _ => MachineInv M N (CoreInv M N P)) NotIsrPanic (vmInstructionCase c vm) := by
  by_cases hram : inRam vm (vm.cpus c).fetchIp 8
  · have hfetch := fetch64_of_inRam hram
    have hv' := (kept_fetch64 (M := M) (N := N) (P := P) c).ok hv hfetch
    rw [vmInstructionCase, bind_ok hfetch]
    cases hop : Opcode.ofByte (Inst.decode (vm.wordAt (vm.cpus c).fetchIp)).op with
    | some op =>
      refine (kept_stepRules _ hc hE op fun hi => hR ?_).execute _ hv'
      rw [← hi]
      exact Opcode.code_of_ofByte hop
    | none => exact ⟨by simp, by simp⟩
  · rw [vmInstructionCase, bind_error (fetch64_of_not_inRam hram)]
    exact ⟨by simp, by simp⟩

/-! ## Runs -/

theorem kept_workerTransfer (host : BounceBuffer) : Kept M N K (workerTransfer host) :=
  safe_workerTransfer (fun _ _ _ _ hv => hv.congr rfl) host

theorem kept_workerComplete : Kept M N K workerComplete :=
  safe_workerComplete fun _ _ _ hv => hv.congr rfl

/-- Outside a handler with an empty ISR stack, or inside one with a full context. -/
def settled : Phases := fun _ i s =>
  (i = 0 ∧ s = isrStackSize) ∨ (i = 1 ∧ s = isrStackSize - contextWords)

theorem settled_mayEnter (c : ℕ) : MayEnter settled c := by
  rintro i s (⟨-, hs⟩ | ⟨hi, -⟩)
  · exact .inr ⟨hs, .inr ⟨rfl, rfl⟩⟩
  · exact .inl (by omega)

theorem settled_mayReturn (c : ℕ) : MayReturn settled c := by
  rintro i s (⟨hi, -⟩ | ⟨-, hs⟩)
  · exact .inl hi
  · exact .inr ⟨hs, .inl ⟨rfl, rfl⟩⟩

/-- The step lemma: each event keeps the invariant on every core that may take it. -/
theorem runEvent_inv (e : Event) (hE : ∀ c, c < N → MayEnter P c)
    (vm : Vm) (hR : ∀ c, c < N → e = .instruction c →
      (vm.nextInst c).op = Opcode.iret.code → MayReturn P c) (hen : eventEnabled vm e)
    (hv : MachineInv M N (CoreInv M N P) vm) :
    Result (fun _ => MachineInv M N (CoreInv M N P)) NotIsrPanic (runEvent e vm) := by
  cases e with
  | handleInterrupts c =>
    have hc : c < N := hv.smpCores ▸ hen.1
    exact kept_vmHandleInterrupts hc (hE c hc) vm hv
  | instruction c =>
    have hc : c < N := hv.smpCores ▸ hen.1
    exact vmInstructionCase_inv hc (hE c hc) (hR c hc rfl) hv
  | diskTick => exact kept_devices.diskTick vm hv
  | workerTake => exact hv.congr rfl
  | workerTransfer host => exact kept_workerTransfer host vm hv
  | workerComplete => exact kept_workerComplete vm hv
  | serialRx b =>
    exact safe_bind (kept_devices.vmSerialRxEnqueue notIsrPanic_outOfBounds b)
      (fun _ => safe_pure _) vm hv
  | timerTick => exact kept_devices.timerTick vm hv
  | registerIsr intNo isrIp => exact kept_registerIsr intNo isrIp vm hv

/-- The phase in which every core starts. -/
def fresh : Phases := fun _ i s => i = 0 ∧ s = isrStackSize

theorem initCpu_inv (textBase : BitVec 32) (c : ℕ) :
    CoreInv M N fresh c (initCpu M N textBase c) where
  csp := ⟨by simp [initCpu], by simp [initCpu]⟩
  dsp := ⟨by simp [initCpu], by simp [initCpu]⟩
  ip := textBase.isLt
  coreId := rfl
  isrBase := rfl
  phase := ⟨rfl, rfl⟩

/-- A core as `vm_create` leaves it. -/
def CreatedCpu (M N : ℕ) (c : ℕ) (cpu : Vcpu) : Prop :=
  ∃ textBase, cpu = initCpu M N textBase c

theorem vmCreate_inv {clock : HostClock} {memcheck : Bool} {program : List (BitVec 64)}
    {data : List (BitVec 8)} {layout : Option ProgramLayout} {smpCores : ℤ} {vm : Vm}
    (h : vmCreate clock memcheck M program data layout smpCores = .ok vm) :
    MachineInv M (coreCount smpCores) (CreatedCpu M (coreCount smpCores)) vm := by
  obtain rfl := vmCreate_ok h
  refine ⟨rfl, rfl, rfl, ?_, fun c _ => ⟨_, rfl⟩⟩
  intro c hvalid
  cases hvalid

/-- `init_ivt` writes the vector table and clears flags that are still clear. -/
theorem kept_initIvt : Kept M N (CreatedCpu M N) initIvt := by
  refine safe_initIvt kept.vmWrite64 (fun _ _ hv => hv.congr rfl) fun vm hv =>
    ⟨hv.memorySize, hv.smpCores, hv.devices, hv.cache, fun c hc => ?_⟩
  obtain ⟨textBase, hcpu⟩ := hv.core c hc
  refine ⟨textBase, ?_⟩
  by_cases hlt : c < vm.smpCores
  · simp only [if_pos hlt, hcpu]
    rfl
  · simp only [if_neg hlt]
    exact hcpu

theorem boot_created {clock : HostClock} {memcheck : Bool} {image : DiskImage}
    {program : List (BitVec 64)} {data : List (BitVec 8)} {layout : Option ProgramLayout}
    {smpCores : ℤ} {vm : Vm}
    (h : boot clock memcheck image M program data layout smpCores = .ok vm) :
    MachineInv M (coreCount smpCores) (CreatedCpu M (coreCount smpCores)) vm := by
  obtain ⟨vm₀, hcreate, hivt⟩ := boot_eq_ok h
  exact kept_initIvt.ok ((vmCreate_inv hcreate).congr (t := diskInit image vm₀) rfl) hivt

theorem MachineInv.mono {K' : ℕ → Vcpu → Prop} {vm : Vm} (hv : MachineInv M N K vm)
    (h : ∀ c cpu, K c cpu → K' c cpu) : MachineInv M N K' vm :=
  ⟨hv.memorySize, hv.smpCores, hv.devices, hv.cache, fun c hc => h c _ (hv.core c hc)⟩

theorem boot_inv {clock : HostClock} {memcheck : Bool} {image : DiskImage}
    {program : List (BitVec 64)} {data : List (BitVec 8)} {layout : Option ProgramLayout}
    {smpCores : ℤ} {vm : Vm}
    (h : boot clock memcheck image M program data layout smpCores = .ok vm) :
    MachineInv M (coreCount smpCores) (CoreInv M (coreCount smpCores) fresh) vm := by
  refine (boot_created h).mono ?_
  rintro c cpu ⟨textBase, rfl⟩
  exact initCpu_inv textBase c

/-- The run lemma: the invariant holds in every reachable state. -/
theorem reachable_inv {smpCores : ℤ} {vm : Vm} (h : Reachable (machine M smpCores) vm) :
    MachineInv M (coreCount smpCores) (CoreInv M (coreCount smpCores) settled) vm := by
  refine h.invariant ?_ ?_
  · rintro s ⟨clock, memcheck, image, program, data, layout, hboot⟩
    exact (boot_inv hboot).mono fun c cpu hc => hc.rephase (.inl hc.phase)
  · rintro s e t hs ⟨hen, hrun⟩
    have hres := runEvent_inv e (fun c _ => settled_mayEnter c)
      s (fun c _ _ _ => settled_mayReturn c) hen hs
    rw [hrun] at hres
    exact hres

/-! ## Booting succeeds -/

theorem ivtEntry_ofNat {i : ℕ} (hi : i < ivtSize) :
    (ivtEntry (BitVec.ofNat 32 i)).toNat = 8 * i := by
  have hivt : ivtSize = 256 := rfl
  have hmod : (BitVec.ofNat 32 i).toNat = i := by
    rw [BitVec.toNat_ofNat, Nat.mod_eq_of_lt (by omega)]
  rw [ivtEntry_toNat (by rwa [hmod]), hmod]

/-- `init_ivt` leaves every vector without a handler. -/
theorem initIvt_run {s : Vm} (hM : ivtSize * 8 ≤ s.memorySize) : ∃ m,
    initIvt s = .ok ((), { s.withMemory m with
      interruptBitmap := fun i => if i < s.smpCores * irqBitmapWords then 0 else s.interruptBitmap i
      cpus := fun c => if c < s.smpCores then { s.cpus c with inInterrupt := 0 } else s.cpus c }) ∧
    (∀ i, i < ivtSize → leNat m (8 * i) 8 = (BitVec.allOnes 64).toNat) ∧
    ∀ a, ivtSize * 8 ≤ a → m a = s.memory a := by
  have hloop := Meets.forM (l := List.range ivtSize) (E := fun _ => False)
    (f := fun i => vmWrite64 (ivtEntry (BitVec.ofNat 32 i)) (BitVec.allOnes 64))
    (J := fun j t => ∃ m, t = s.withMemory m ∧
      (∀ i, i < j → leNat m (8 * i) 8 = (BitVec.allOnes 64).toNat) ∧
      ∀ a, ivtSize * 8 ≤ a → m a = s.memory a) ?_
  · obtain ⟨_, t, hrun, m, rfl, hwords, hrest⟩ :=
      hloop.returns (s := s) ⟨s.memory, rfl, by simp, fun _ _ => rfl⟩
    rw [List.length_range] at hwords
    exact ⟨m, bind_ok hrun, hwords, hrest⟩
  · rintro j i hi t ⟨m, ht, hwords, hrest⟩
    subst ht
    obtain ⟨hlt, hij⟩ := List.getElem?_eq_some_iff.mp hi
    rw [List.getElem_range] at hij
    rw [List.length_range] at hlt
    subst hij
    have hivt : ivtSize = 256 := rfl
    have hto := ivtEntry_ofNat hlt
    rw [vmWrite64_plain (by simp only [inRam, hto, withMemory_memorySize]; omega) (by omega)
      fun _ => by omega]
    refine ⟨_, rfl, fun i hi => ?_, fun a ha => ?_⟩
    · rw [withMemory_memory, hto]
      by_cases hne : i = j
      · subst hne
        rw [leNat_leStore]
        exact Nat.mod_eq_of_lt (BitVec.isLt _)
      · rw [leNat_leStore_of_disjoint (by omega)]
        exact hwords i (by omega)
    · rw [leStore_of_not_mem (by omega)]
      exact hrest a ha

theorem boot_total (clock : HostClock) (memcheck : Bool) (image : DiskImage)
    (program : List (BitVec 64)) (data : List (BitVec 8)) (layout : Option ProgramLayout)
    (smpCores : ℤ) (hM : ivtSize * 8 ≤ M)
    (hcheck : checkImage M (coreCount smpCores)
      (layout.getD (ProgramLayout.packed (program.length * 8) data.length))
      (program.length * 8) data.length = .ok ()) :
    ∃ vm, boot clock memcheck image M program data layout smpCores = .ok vm := by
  obtain ⟨vm₀, hcreate⟩ : ∃ vm₀,
      vmCreate clock memcheck M program data layout smpCores = .ok vm₀ := exists_vmCreate hcheck
  have hsize : (diskInit image vm₀).memorySize = M := (vmCreate_inv hcreate).memorySize
  obtain ⟨t, hr⟩ : ∃ t, initIvt (diskInit image vm₀) = .ok ((), t) := by
    obtain ⟨m, hrun, -⟩ := initIvt_run (hM.trans_eq hsize.symm)
    exact ⟨_, hrun⟩
  refine ⟨t, ?_⟩
  simp only [boot, hcreate]
  change (initIvt (diskInit image vm₀) >>= fun r => pure r.2) = _
  rw [hr]
  rfl

/-- What booting leaves in the machine. -/
structure Booted (clock : HostClock) (image : DiskImage) (M N : ℕ) (place : ProgramLayout)
    (program : List (BitVec 64)) (data : List (BitVec 8)) (vm : Vm) : Prop where
  memory : ∀ a, ivtSize * 8 ≤ a → vm.memory a = loadImage (fun _ => 0) place program data a
  vectors : ∀ i, i < ivtSize → leNat vm.memory (8 * i) 8 = (BitVec.allOnes 64).toNat
  cpus : vm.cpus = initCpu M N place.textBase
  halted : vm.halted = false
  released : vm.coreReleased = fun c => decide (c = 0)
  bitmap : vm.interruptBitmap = fun _ => 0
  disk : vm.disk = ⟨0, 0, 0, .free, diskCmdNone, true, false⟩
  diskWorker : vm.diskWorker = .waiting
  diskImage : vm.diskImage = image
  hostClock : vm.hostClock = { clock with readings := clock.readings + 2 }
  startMonotonicNs : vm.startMonotonicNs = clock.monotonic (clock.readings + 1)

theorem boot_booted {clock : HostClock} {memcheck : Bool} {image : DiskImage}
    {program : List (BitVec 64)} {data : List (BitVec 8)} {layout : Option ProgramLayout}
    {smpCores : ℤ} {vm : Vm} (hM : ivtSize * 8 ≤ M)
    (h : boot clock memcheck image M program data layout smpCores = .ok vm) :
    Booted clock image M (coreCount smpCores)
      (layout.getD (ProgramLayout.packed (program.length * 8) data.length)) program data vm := by
  obtain ⟨vm₀, hcreate, hivt⟩ := boot_eq_ok h
  have hsize : (diskInit image vm₀).memorySize = M := (vmCreate_inv hcreate).memorySize
  obtain ⟨m, hrun, hwords, hrest⟩ := initIvt_run (hM.trans_eq hsize.symm)
  obtain rfl := (Prod.mk.inj (Except.ok.inj (hivt.symm.trans hrun))).2
  obtain rfl := vmCreate_ok hcreate
  refine ⟨hrest, hwords, ?_, rfl, rfl, ?_, rfl, rfl, rfl, rfl, rfl⟩
  · funext c
    dsimp only
    split_ifs
    · rfl
    · rfl
  · funext i
    dsimp only
    split_ifs
    · rfl
    · rfl

/-- A machine of the default size with an empty program. -/
theorem boot_default : ∃ vm, (machine memSize 1).init vm := by
  obtain ⟨vm, h⟩ := boot_total (M := memSize) ⟨fun _ => 0, fun _ => 0, 0⟩ false
    ⟨0, fun _ => 0⟩ [] [] none 1 (by decide) (by decide)
  exact ⟨vm, _, _, _, _, _, _, h⟩

/-! ## A program in memory -/

theorem programByte_digit (program : List (BitVec 64)) (n : ℕ) {k : ℕ} (hk : k < 8) :
    programByte program (8 * n + k) = BitVec.ofNat 8 ((program.getD n 0).toNat / 256 ^ k) := by
  rw [programByte, show (8 * n + k) / 8 = n by omega, show (8 * n + k) % 8 = k by omega,
    byte_eq_digit]

theorem loadImage_packed (program : List (BitVec 64)) {a : ℕ} :
    loadImage (fun _ => 0) (ProgramLayout.packed (program.length * 8) 0) program [] a =
      if programBase ≤ a ∧ a < programBase + program.length * 8 then
        programByte program (a - programBase) else 0 := by
  have htext : (ProgramLayout.packed (program.length * 8) 0).textBase.toNat = programBase := rfl
  have hbss : (ProgramLayout.packed (program.length * 8) 0).bssSize.toNat = 0 := rfl
  simp only [loadImage, copyToRam, htext, hbss, List.length_nil]
  rw [if_neg (by omega), if_neg (by omega)]

/-- A machine of the default size with one core, started on a program. -/
structure Started (clock : HostClock) (program : List (BitVec 64)) (vm : Vm) : Prop where
  init : (machine memSize 1).init vm
  smpCores : vm.smpCores = 1
  memorySize : vm.memorySize = memSize
  core : vm.cpus 0 = initCpu memSize 1 (BitVec.ofNat 32 programBase) 0
  word : ∀ n, n < program.length →
    leNat vm.memory (programBase + 8 * n) 8 = (program.getD n 0).toNat
  below : ∀ a, ivtSize * 8 ≤ a → a < programBase → vm.memory a = 0
  halted : vm.halted = false
  bitmap : vm.interruptBitmap = fun _ => 0
  disk : vm.disk.status = .free
  hostClock : vm.hostClock = { clock with readings := clock.readings + 2 }
  startMonotonicNs : vm.startMonotonicNs = clock.monotonic (clock.readings + 1)

theorem exists_started (clock : HostClock) (program : List (BitVec 64))
    (hfit : programBase + program.length * 8 ≤ memSize) : ∃ vm, Started clock program vm := by
  have hcheck : checkImage memSize (coreCount 1) (ProgramLayout.packed (program.length * 8) 0)
      (program.length * 8) 0 = .ok () := by
    have htext : (ProgramLayout.packed (program.length * 8) 0).textBase.toNat = programBase := rfl
    have hbss : (ProgramLayout.packed (program.length * 8) 0).bssSize.toNat = 0 := rfl
    have hcores : coreCount 1 = 1 := by decide
    simp only [checkImage, htext, hbss, hcores]
    rw [if_neg (by omega), if_neg (by omega), if_neg (by omega), if_neg (by omega),
      if_neg (by omega)]
    rfl
  obtain ⟨vm, hboot⟩ := boot_total (M := memSize) clock false ⟨0, fun _ => 0⟩ program [] none 1
    (by decide) hcheck
  have hv := boot_created hboot
  have hbooted := boot_booted (by decide) hboot
  have hmem : ∀ a, ivtSize * 8 ≤ a → vm.memory a = _ := fun a ha =>
    (hbooted.memory a ha).trans (loadImage_packed program)
  have hbase : ivtSize * 8 ≤ programBase := by decide
  refine ⟨vm, ⟨_, _, _, _, _, _, hboot⟩, hv.smpCores, hv.memorySize, ?_, fun n hn => ?_,
    fun a ha hlt => ?_, hbooted.halted, hbooted.bitmap, by rw [hbooted.disk], hbooted.hostClock,
    hbooted.startMonotonicNs⟩
  · rw [hbooted.cpus]
    rfl
  · have hdigits := leNat_of_digits (m := vm.memory) (a := programBase + 8 * n) (n := 8)
      (w := (program.getD n 0).toNat) fun k hk => ?_
    · exact hdigits.trans (Nat.mod_eq_of_lt (program.getD n 0).isLt)
    · have hoffset : programBase + 8 * n + k - programBase = 8 * n + k := by omega
      rw [hmem _ (by omega), if_pos (by omega), hoffset, programByte_digit program n hk]
  · rw [hmem a ha, if_neg (by omega)]

/-- Core 0 is before word `n` of a program in a memory of the default size. -/
structure AtWord (program : List (BitVec 64)) (n : ℕ) (vm : Vm) : Prop where
  memorySize : vm.memorySize = memSize
  fits : programBase + program.length * 8 ≤ memSize
  word : ∀ k, k < program.length →
    leNat vm.memory (programBase + 8 * k) 8 = (program.getD k 0).toNat
  ip : (vm.cpus 0).ip = programBase + 8 * n

section AtWord

variable {program : List (BitVec 64)} {n : ℕ} {vm t : Vm}

theorem Started.atWord {clock : HostClock} (h : Started clock program vm)
    (hfit : programBase + program.length * 8 ≤ memSize) : AtWord program 0 vm :=
  ⟨h.memorySize, hfit, h.word, by rw [h.core]; rfl⟩

theorem AtWord.fetch (h : AtWord program n vm) (hn : n < program.length) :
    inRam vm (vm.cpus 0).fetchIp 8 ∧ vm.nextInst 0 = Inst.decode (program.getD n 0) := by
  have hfits := h.fits
  have hspace : memSize < 2 ^ 32 := by decide
  have hto : (vm.cpus 0).fetchIp.toNat = programBase + 8 * n := by
    rw [Vcpu.fetchIp, h.ip, BitVec.toNat_ofNat]
    exact Nat.mod_eq_of_lt (by omega)
  refine ⟨?_, nextInst_of_word ?_⟩
  · rw [inRam, hto, h.memorySize]
    omega
  · rw [hto]
    exact h.word n hn

/-- The instruction is executed on the core behind it. -/
theorem AtWord.instruction {i : Inst} (op : Opcode) (h : AtWord program n vm)
    (hn : n < program.length) (hword : program.getD n 0 = i.encode) (hop : i.op = op.code) :
    vmInstructionCase 0 vm = execute 0 i op (vm.fetched 0) := by
  obtain ⟨hram, hinst⟩ := h.fetch hn
  rw [hword, Inst.decode_encode] at hinst
  rw [vmInstructionCase_of_inRam hram (by rw [hinst, hop]), hinst]

/-- The program has moved to another word and has not been changed. -/
theorem AtWord.moved {k : ℕ} (h : AtWord program n vm) (hsize : t.memorySize = vm.memorySize)
    (hmem : ∀ a, programBase ≤ a → a < programBase + program.length * 8 → t.memory a = vm.memory a)
    (hip : (t.cpus 0).ip = programBase + 8 * k) : AtWord program k t := by
  refine ⟨hsize.trans h.memorySize, h.fits, fun j hj => ?_, hip⟩
  rw [leNat_congr fun a ha hlt => hmem a (by omega) (by omega)]
  exact h.word j hj

/-- Behind the fetch of a word. -/
theorem AtWord.fetched_ip (h : AtWord program n vm) (hn : n < program.length) :
    ((vm.fetched 0).cpus 0).ip = programBase + 8 * (n + 1) := by
  have hfits := h.fits
  have hspace : memSize < 2 ^ 32 := by decide
  rw [Vm.fetched, setCpu_cpus_self]
  change ((vm.cpus 0).fetchIp + 8).toNat = _
  rw [Vcpu.fetchIp, h.ip, BitVec.toNat_add, BitVec.toNat_ofNat]
  have h8 : (8 : BitVec 32).toNat = 8 := rfl
  rw [h8, Nat.mod_eq_of_lt (show programBase + 8 * n < 2 ^ 32 by omega)]
  exact (Nat.mod_eq_of_lt (by omega)).trans (by omega)

/-- A word that loads a register with a constant. -/
theorem AtWord.movi {r : BitVec 8} {v : BitVec 32} (h : AtWord program n vm)
    (hn : n < program.length)
    (hword : program.getD n 0 = Inst.encode ⟨Opcode.movi.code, r, 0, 0, v⟩) (hr : IsReg r) :
    ∃ t, vmInstructionCase 0 vm = .ok ((), t) ∧ AtWord program (n + 1) t ∧
      t = (vm.fetched 0).setCpu 0 (((vm.fetched 0).cpus 0).withResult hr v) := by
  have hrun := h.instruction .movi hn hword rfl
  refine ⟨_, hrun.trans (setLogic_of_isReg hr v), h.moved rfl (fun _ _ _ => rfl) ?_, rfl⟩
  rw [setCpu_cpus_self]
  exact h.fetched_ip hn

theorem enabled_of_reachable (h : Reachable (machine memSize 1) vm) :
    eventEnabled vm (.instruction 0) := by
  refine ⟨?_, .inl rfl⟩
  rw [(reachable_inv h).smpCores]
  decide

end AtWord

end LampVm
