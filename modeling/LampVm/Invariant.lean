import LampVm.Ram
import LampVm.Frame

/-!
# The machine's invariant

What every operation keeps: the configuration, a coherent lookup cache, and a
predicate on the state of each core. Operations that do not write a core keep the
invariant for any such predicate, which makes their lemmas frame rules as well.
The predicate of interest bounds a core's stack and instruction pointers and
restricts its phase, the pair of its interrupt flag and ISR stack pointer, to an
arbitrary family of admissible phases: only interrupt entry and return change the
phase, and they move between two of them.
-/
namespace LampVm

open ByteOrder Contract

/-- The invariant of a machine with `M` bytes of memory and `N` cores, each of which
satisfies `K`. -/
structure MachineInv (M N : ℕ) (K : ℕ → Vcpu → Prop) (vm : Vm) : Prop where
  memorySize : vm.memorySize = M
  smpCores : vm.smpCores = N
  devices : vm.mmioDevices = registeredDevices M
  cache : CacheCoherent vm
  core : ∀ c, c < N → K c (vm.cpus c)

/-- The admissible values of `in_interrupt` and `isp`, for each core. -/
abbrev Phases := ℕ → ℤ → ℤ → Prop

structure CoreInv (M N : ℕ) (P : Phases) (c : ℕ) (cpu : Vcpu) : Prop where
  csp : 0 ≤ cpu.csp ∧ cpu.csp ≤ callStackSize
  dsp : 0 ≤ cpu.dsp ∧ cpu.dsp ≤ dataStackSize
  ip : cpu.ip < 2 ^ 32
  coreId : cpu.coreId = c
  isrBase : cpu.isrStackBase = (initCpu M N 0 c).isrStackBase
  phase : P c cpu.inInterrupt cpu.isp

/-- Any way to stop except the two panics of the ISR stack. -/
def NotIsrPanic (e : Fault) : Prop :=
  e ≠ .panic .interruptStackOverflow ∧ e ≠ .panic .interruptStackUnderflow

instance (e : Fault) : Decidable (NotIsrPanic e) := inferInstanceAs (Decidable (_ ∧ _))

/-- The program keeps the invariant and never stops with an ISR stack panic. -/
abbrev Kept (M N : ℕ) (K : ℕ → Vcpu → Prop) {α : Type} (m : VmM α) : Prop :=
  Safe (MachineInv M N K) NotIsrPanic m

variable {M N : ℕ} {K : ℕ → Vcpu → Prop} {P : Phases} {α : Type} {c : ℕ}

theorem kept_vmPanic {p : Panic} (h : NotIsrPanic (.panic p)) : Kept M N K (vmPanic p : VmM α) :=
  safe_throw h

theorem kept_checkIndex (array : CArray) (size i : ℕ) : Kept M N K (checkIndex array size i) :=
  safe_ite (fun _ => safe_pure _) fun _ => safe_throw ⟨nofun, nofun⟩

/-- The part of the state that the invariant speaks about. -/
def Vm.configuration (vm : Vm) :
    ℕ × ℕ × List MmioDevice × Option MmioDevice × BitVec 32 × BitVec 32 × (ℕ → Vcpu) :=
  (vm.memorySize, vm.smpCores, vm.mmioDevices, vm.mmioCacheDev, vm.mmioCacheStart,
    vm.mmioCacheEnd, vm.cpus)

theorem MachineInv.congr {s t : Vm} (hv : MachineInv M N K s)
    (h : t.configuration = s.configuration) : MachineInv M N K t := by
  simp only [Vm.configuration, Prod.mk.injEq] at h
  obtain ⟨hsize, hcores, hdev, hcache, hstart, hend, hcpus⟩ := h
  refine ⟨hsize.trans hv.memorySize, hcores.trans hv.smpCores, hdev.trans hv.devices, ?_, ?_⟩
  · intro dev hd
    rw [hdev, hstart, hend]
    exact hv.cache dev (hcache ▸ hd)
  · rw [hcpus]
    exact hv.core

theorem MachineInv.setCpu {vm : Vm} (hv : MachineInv M N K vm) {cpu : Vcpu}
    (h : c < N → K c cpu) : MachineInv M N K (vm.setCpu c cpu) := by
  refine ⟨hv.memorySize, hv.smpCores, hv.devices, hv.cache, fun d hd => ?_⟩
  by_cases hdc : d = c
  · subst hdc
    rw [setCpu_cpus_self]
    exact h hd
  · rw [setCpu_cpus_of_ne _ _ hdc]
    exact hv.core d hd

theorem kept_modifyCpu {f : Vcpu → Vcpu} (h : ∀ cpu, K c cpu → K c (f cpu)) :
    Kept M N K (modifyCpu c f) :=
  safe_modify fun _ hv => hv.setCpu fun hc => h _ (hv.core c hc)

theorem kept_readReg (c : ℕ) (r : BitVec 8) : Kept M N K (readReg c r) :=
  safe_readReg c (.inr ⟨nofun, nofun⟩)

theorem kept_writeReg (c : ℕ) (r : BitVec 8) (v : BitVec 32) :
    Kept M N (CoreInv M N P) (writeReg c r v) :=
  safe_writeReg (.inr ⟨nofun, nofun⟩)
    (fun _ _ => kept_modifyCpu fun _ hc =>
      ⟨hc.csp, hc.dsp, hc.ip, hc.coreId, hc.isrBase, hc.phase⟩) v

theorem kept_setIp {ip : ℕ} (h : ip < 2 ^ 32) : Kept M N (CoreInv M N P) (setIp c ip) :=
  kept_modifyCpu fun _ hc => ⟨hc.csp, hc.dsp, h, hc.coreId, hc.isrBase, hc.phase⟩

theorem kept_modifyFlags (c : ℕ) (f : BitVec 32 → BitVec 32) :
    Kept M N (CoreInv M N P) (modifyFlags c f) :=
  kept_modifyCpu fun _ hc => ⟨hc.csp, hc.dsp, hc.ip, hc.coreId, hc.isrBase, hc.phase⟩

theorem kept_findMmio (addr : BitVec 32) : Kept M N K (findMmio addr) := by
  refine safe_bind_get fun vm hv => ?_
  cases vm.mmioCacheHit addr with
  | some dev => exact safe_pure _
  | none =>
    dsimp only
    cases hs : scanMmio vm.mmioDevices addr with
    | some dev =>
      refine safe_bind (safe_set ?_) fun _ => safe_pure _
      refine ⟨hv.memorySize, hv.smpCores, hv.devices, ?_, hv.core⟩
      rintro d ⟨rfl⟩
      exact ⟨List.mem_of_find?_eq_some hs, rfl, rfl⟩
    | none =>
      refine safe_bind (safe_set ?_) fun _ => safe_pure _
      exact ⟨hv.memorySize, hv.smpCores, hv.devices, nofun, hv.core⟩

/-- Memory accesses keep the invariant, whatever it says about the cores. -/
theorem kept : Stable (MachineInv M N K) NotIsrPanic where
  congr s t hs h := hs.congr (show t.besidesMemory.configuration = s.besidesMemory.configuration by
    rw [h])
  findMmio := kept_findMmio
  fault e he := by
    constructor
    · rintro rfl
      exact he
    · rintro rfl
      exact he

/-- The fetch moves the instruction pointer by a 32-bit addition. -/
theorem kept_fetch64 (c : ℕ) : Kept M N (CoreInv M N P) (fetch64 c) := by
  intro vm hv
  by_cases h : inRam vm (vm.cpus c).fetchIp 8
  · rw [fetch64_of_inRam h]
    refine hv.setCpu fun hc => ?_
    have hcpu := hv.core c hc
    exact ⟨hcpu.csp, hcpu.dsp, BitVec.isLt _, hcpu.coreId, hcpu.isrBase, hcpu.phase⟩
  · rw [fetch64_of_not_inRam h]
    exact ⟨nofun, nofun⟩

/-! ## Data and call stacks -/

/-- A stack whose pointer stays in its range and whose moves keep a core's invariant. -/
structure StackRegs.Bounded (S : StackRegs) (K : ℕ → Vcpu → Prop) : Prop where
  range : ∀ c cpu, K c cpu → 0 ≤ S.get cpu ∧ S.get cpu ≤ S.size
  move : ∀ c cpu (v : ℤ), K c cpu → 0 ≤ v → v ≤ S.size → K c (S.set cpu v)
  overflow : NotIsrPanic (.panic S.overflow)
  underflow : NotIsrPanic (.panic S.underflow)

theorem dataStack_bounded (M N : ℕ) (P : Phases) : dataStack.Bounded (CoreInv M N P) where
  range _ _ h := h.dsp
  move _ _ _ h h0 h1 := ⟨h.csp, ⟨h0, h1⟩, h.ip, h.coreId, h.isrBase, h.phase⟩
  overflow := ⟨nofun, nofun⟩
  underflow := ⟨nofun, nofun⟩

theorem callStack_bounded (M N : ℕ) (P : Phases) : callStack.Bounded (CoreInv M N P) where
  range _ _ h := h.csp
  move _ _ _ h h0 h1 := ⟨⟨h0, h1⟩, h.dsp, h.ip, h.coreId, h.isrBase, h.phase⟩
  overflow := ⟨nofun, nofun⟩
  underflow := ⟨nofun, nofun⟩

theorem kept_stackPush {S : StackRegs} (hS : S.Bounded K) {cell : ℤ}
    {write : BitVec 32 → α → VmM Unit} (hw : ∀ addr v, Kept M N K (write addr v)) (c : ℕ) (v : α) :
    Kept M N K (stackPush S cell write c v) := by
  intro vm hv
  simp only [stackPush, bind_apply, getCpu_apply]
  by_cases h0 : S.get (vm.cpus c) = 0
  · rw [if_pos h0]
    exact hS.overflow
  · rw [if_neg h0]
    refine hw _ _ _ (hv.setCpu fun hc => ?_)
    have hcpu := hv.core c hc
    have hr := hS.range c _ hcpu
    exact hS.move c _ _ hcpu (by omega) (by omega)

/-- The read leaves the cores alone, so the test made before it still holds of the
pointer that is moved after it. -/
theorem kept_stackPop {S : StackRegs} (hS : S.Bounded K) {cell : ℤ} {read : BitVec 32 → VmM α}
    (hr : ∀ K addr, Kept M N K (read addr)) (c : ℕ) : Kept M N K (stackPop S cell read c) := by
  intro vm hv
  simp only [stackPop, bind_apply, getCpu_apply]
  by_cases h0 : S.get (vm.cpus c) ≥ S.size
  · rw [if_pos h0]
    exact hS.underflow
  · rw [if_neg h0]
    have hread := hr (fun d cpu => K d cpu ∧ cpu = vm.cpus d)
      (S.cellAddr (vm.cpus c) cell (S.get (vm.cpus c))) vm
      ⟨hv.memorySize, hv.smpCores, hv.devices, hv.cache, fun d hd => ⟨hv.core d hd, rfl⟩⟩
    simp only [bind_apply]
    cases hres : read (S.cellAddr (vm.cpus c) cell (S.get (vm.cpus c))) vm with
    | error e =>
      rw [hres] at hread
      exact hread
    | ok r =>
      rw [hres] at hread
      have hinv : MachineInv M N K r.2 := ⟨hread.memorySize, hread.smpCores, hread.devices,
        hread.cache, fun d hd => (hread.core d hd).1⟩
      refine hinv.setCpu fun hc => ?_
      have hcpu := hv.core c hc
      have hrange := hS.range c _ hcpu
      rw [(hread.core c hc).2]
      exact hS.move c _ _ hcpu (by omega) (by omega)

end LampVm
