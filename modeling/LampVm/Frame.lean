import LampVm.Interrupt

/-!
# What memory accesses leave alone

A memory access changes RAM, the framebuffer, the clock and timer registers and the
lookup cache, and nothing else. An assertion that survives those changes is kept by
every access, whatever it says about the rest of the machine.
-/
namespace LampVm

open Contract

/-- The state without what memory accesses change, the lookup cache apart. -/
def Vm.besidesMemory (vm : Vm) : Vm :=
  { vm with
    halted := false
    memory := fun _ => 0
    fb := fun _ => 0
    latchedRealtime := 0
    latchedMonotonic := 0
    latchedBoottime := 0
    timerPeriodUs := 0
    timerNextDeadlineNs := 0
    timerEnabled := false
    hostClock := ⟨fun _ => 0, fun _ => 0, 0⟩ }

/-- The ways in which an access stops. -/
def AccessFault : Fault → Prop
  | .panic (.unalignedAddress _ _) | .panic (.addressOutOfBounds _ _)
  | .panic (.atomicOnMmio _ _) | .panic (.invalidMmio _ _) | .outOfBounds _ _ => True
  | _ => False

/-- An assertion that does not speak of what memory accesses change. -/
def MemoryFree (I : Vm → Prop) : Prop :=
  ∀ s t, I s → t.besidesMemory = s.besidesMemory → I t

/-- The state without what reading a clock changes. -/
def Vm.besidesClock (vm : Vm) : Vm :=
  { vm with
    latchedRealtime := 0
    latchedMonotonic := 0
    latchedBoottime := 0
    hostClock := ⟨fun _ => 0, fun _ => 0, 0⟩ }

/-- An assertion that does not speak of the clocks. -/
def ClockFree (I : Vm → Prop) : Prop :=
  ∀ s t, I s → t.besidesClock = s.besidesClock → I t

/-- An assertion that memory accesses keep, and an exit condition that they meet. -/
structure Stable (I : Vm → Prop) (E : Fault → Prop) : Prop where
  congr : ∀ s t, I s → t.besidesMemory = s.besidesMemory → I t
  findMmio : ∀ addr, Safe I E (findMmio addr)
  fault : ∀ e, AccessFault e → E e

/-- What reads need: lookups keep the assertion, and the exit condition admits their faults. -/
structure Lookup (I : Vm → Prop) (E : Fault → Prop) : Prop where
  findMmio : ∀ addr, Safe I E (findMmio addr)
  fault : ∀ e, AccessFault e → E e

variable {I : Vm → Prop} {E : Fault → Prop}

/-- A lookup changes the cache only. -/
theorem safe_findMmio
    (h : ∀ s dev start stop, I s →
      I { s with mmioCacheDev := dev, mmioCacheStart := start, mmioCacheEnd := stop })
    (addr : BitVec 32) : Safe I E (findMmio addr) := by
  refine safe_bind_get fun s hs => ?_
  cases s.mmioCacheHit addr with
  | some dev => exact safe_pure _
  | none =>
    dsimp only
    cases scanMmio s.mmioDevices addr with
    | some dev => exact safe_bind (safe_set (h s _ _ _ hs)) fun _ => safe_pure _
    | none =>
      exact safe_bind (safe_set (h s none s.mmioCacheStart s.mmioCacheEnd hs)) fun _ => safe_pure _

/-- The value of a part of the state that no access touches. -/
theorem Stable.of_view {β : Type} {view : Vm → β} (v : β)
    (hmem : ∀ s, view s.besidesMemory = view s)
    (hcache : ∀ s dev start stop,
      view { s with mmioCacheDev := dev, mmioCacheStart := start, mmioCacheEnd := stop } = view s) :
    Stable (fun s => view s = v) fun _ => True where
  congr s t hs h := by rw [← hmem t, h, hmem s, hs]
  findMmio := safe_findMmio fun s dev start stop hs => (hcache s dev start stop).trans hs
  fault _ _ := trivial

theorem Stable.free (h : Stable I E) : MemoryFree I := h.congr

theorem MemoryFree.clock (h : MemoryFree I) : ClockFree I := fun s t hs hst =>
  h s t hs (congrArg Vm.besidesMemory hst :)

theorem Stable.lookup (h : Stable I E) : Lookup I E := ⟨h.findMmio, h.fault⟩

theorem Lookup.vmPanic {α : Type} (h : Lookup I E) {p : Panic} (hp : AccessFault (.panic p)) :
    Safe I E (vmPanic p : VmM α) :=
  safe_throw (h.fault _ hp)

theorem Lookup.checkIndex (h : Lookup I E) (array : CArray) (size i : ℕ) :
    Safe I E (checkIndex array size i) :=
  safe_ite (fun _ => safe_pure _) fun _ => safe_throw (h.fault _ trivial)

/-! ## Device registers -/

theorem Lookup.fbRead32 (h : Lookup I E) (addr : BitVec 32) : Safe I E (fbRead32 addr) :=
  safe_bind safe_get fun _ => safe_bind (h.checkIndex _ _ _) fun _ => safe_pure _

theorem Stable.fbWrite32 (h : Stable I E) (addr value : BitVec 32) :
    Safe I E (fbWrite32 addr value) :=
  safe_bind_get fun _ hv => safe_bind (h.lookup.checkIndex _ _ _) fun _ =>
    safe_set (h.congr _ _ hv rfl)

theorem Lookup.fbReadByte (h : Lookup I E) (i : ℕ) : Safe I E (fbReadByte i) :=
  safe_bind safe_get fun _ => safe_bind (h.checkIndex _ _ _) fun _ => safe_pure _

theorem Stable.fbWriteByte (h : Stable I E) (i : ℕ) (value : BitVec 8) :
    Safe I E (fbWriteByte i value) :=
  safe_bind_get fun _ hv => safe_bind (h.lookup.checkIndex _ _ _) fun _ =>
    safe_set (h.congr _ _ hv rfl)

theorem ClockFree.hostUnixTimeNs (h : ClockFree I) : Safe I E hostUnixTimeNs :=
  safe_bind_get fun _ hv => safe_bind
    (safe_set (h _ _ hv rfl)) fun _ => safe_pure _

theorem ClockFree.hostMonotonicTimeNs (h : ClockFree I) : Safe I E hostMonotonicTimeNs :=
  safe_bind_get fun _ hv => safe_bind
    (safe_set (h _ _ hv rfl)) fun _ => safe_pure _

theorem ClockFree.getTimer (h : ClockFree I) (timer : TimerSource) : Safe I E (getTimer timer) := by
  cases timer with
  | realtime =>
    exact safe_bind h.hostUnixTimeNs fun _ => safe_bind
      (safe_modify fun _ hv => h _ _ hv rfl)
      fun _ => safe_pure _
  | monotonic =>
    exact safe_bind h.hostMonotonicTimeNs fun _ => safe_bind
      (safe_modify fun _ hv => h _ _ hv rfl)
      fun _ => safe_pure _
  | boot =>
    exact safe_bind h.hostMonotonicTimeNs fun _ => safe_bind_get fun _ hv => safe_bind
      (safe_set (h _ _ hv rfl)) fun _ => safe_pure _

theorem ClockFree.timeRead32 (h : ClockFree I) (addr : BitVec 32) : Safe I E (timeRead32 addr) := by
  refine safe_bind safe_get fun vm => ?_
  split <;> first
    | exact safe_pure _
    | exact safe_bind (h.getTimer _) fun _ => safe_pure _

theorem MemoryFree.handleProgrammableTick (h : MemoryFree I) (value : BitVec 32) :
    Safe I E (handleProgrammableTick value) :=
  safe_ite
    (fun _ => safe_modify fun _ hv => h _ _ hv rfl)
    fun _ => safe_modify fun _ hv => h _ _ hv rfl

theorem MemoryFree.halt (h : MemoryFree I) : Safe I E (modify fun vm => { vm with halted := true }) :=
  safe_modify fun _ hv => h _ _ hv rfl

theorem MemoryFree.timeWrite32 (h : MemoryFree I) (addr value : BitVec 32) :
    Safe I E (timeWrite32 addr value) :=
  safe_ite (fun _ => h.handleProgrammableTick value) fun _ => h.halt

theorem safe_sysinfoRead32 (addr : BitVec 32) : Safe I E (sysinfoRead32 addr) := by
  refine safe_bind safe_get fun vm => ?_
  dsimp only
  refine safe_ite (fun _ => safe_pure _) fun _ => safe_ite (fun _ => safe_pure _) fun _ => ?_
  split <;> exact safe_pure _

theorem Lookup.read32 (h : Lookup I E) (hclock : ClockFree I) (ops : MmioOps) (addr : BitVec 32) :
    Safe I E (ops.read32 addr) := by
  cases ops with
  | fb => exact h.fbRead32 addr
  | time => exact hclock.timeRead32 addr
  | sysinfo => exact safe_sysinfoRead32 addr

theorem Stable.write32 (h : Stable I E) (ops : MmioOps) (addr value : BitVec 32) :
    Safe I E (ops.write32 addr value) := by
  cases ops with
  | fb => exact h.fbWrite32 addr value
  | time => exact h.free.timeWrite32 addr value
  | sysinfo => exact h.free.halt

/-! ## Memory -/

theorem Lookup.loadByte (h : Lookup I E) (i : ℕ) : Safe I E (loadByte i) :=
  safe_bind safe_get fun _ => safe_bind (h.checkIndex _ _ _) fun _ => safe_pure _

theorem Stable.storeByte (h : Stable I E) (i : ℕ) (value : BitVec 8) :
    Safe I E (storeByte i value) :=
  safe_bind_get fun _ hv => safe_bind (h.lookup.checkIndex _ _ _) fun _ =>
    safe_set (h.congr _ _ hv rfl)

theorem Lookup.requireRam (h : Lookup I E) (op : AccessName) (addr : BitVec 32) (size : ℕ) :
    Safe I E (requireRam op addr size) :=
  safe_bind safe_get fun _ => safe_ite (fun _ => safe_pure _) fun _ => h.vmPanic trivial

theorem Lookup.memcheckAlign (h : Lookup I E) (op : AccessName) (align : ℕ) (addr : BitVec 32) :
    Safe I E (memcheckAlign op align addr) :=
  safe_bind safe_get fun _ => safe_ite (fun _ => h.vmPanic trivial) fun _ => safe_pure _

theorem Lookup.vmRead8 (h : Lookup I E) (addr : BitVec 32) : Safe I E (vmRead8 addr) := by
  refine safe_bind safe_get fun vm => ?_
  cases fbByteIndex vm.memorySize addr with
  | some i => exact h.fbReadByte i
  | none => exact safe_bind (h.requireRam _ _ _) fun _ => h.loadByte _

/-- A read of a word reaches a device register or RAM. -/
theorem Lookup.vmRead32 (h : Lookup I E) {addr : BitVec 32}
    (hread : ∀ ops : MmioOps, Safe I E (ops.read32 addr)) : Safe I E (vmRead32 addr) := by
  refine safe_bind (h.memcheckAlign _ _ _) fun _ => safe_bind (h.findMmio addr) fun dev => ?_
  cases dev with
  | some _ =>
    refine safe_bind (h.findMmio addr) fun dev => ?_
    cases dev with
    | some dev => exact hread _
    | none => exact h.vmPanic trivial
  | none =>
    exact safe_bind (h.requireRam _ _ _) fun _ => safe_bind (h.loadByte _) fun _ =>
      safe_bind (h.loadByte _) fun _ => safe_bind (h.loadByte _) fun _ =>
      safe_bind (h.loadByte _) fun _ => safe_pure _

theorem Lookup.vmRead64 (h : Lookup I E) (hclock : ClockFree I) (addr : BitVec 32) :
    Safe I E (vmRead64 addr) :=
  safe_bind (h.memcheckAlign _ _ _) fun _ =>
    safe_bind (h.vmRead32 fun ops => h.read32 hclock ops _) fun _ =>
    safe_bind (h.vmRead32 fun ops => h.read32 hclock ops _) fun _ => safe_pure _

theorem Stable.vmWrite8 (h : Stable I E) (addr : BitVec 32) (value : BitVec 8) :
    Safe I E (vmWrite8 addr value) := by
  refine safe_bind safe_get fun vm => ?_
  cases fbByteIndex vm.memorySize addr with
  | some i => exact h.fbWriteByte i value
  | none => exact safe_bind (h.lookup.requireRam _ _ _) fun _ => h.storeByte _ _

theorem Stable.vmWrite32 (h : Stable I E) (addr value : BitVec 32) :
    Safe I E (vmWrite32 addr value) := by
  refine safe_bind (h.lookup.memcheckAlign _ _ _) fun _ => safe_bind (h.findMmio addr)
    fun dev => ?_
  cases dev with
  | some dev => exact h.write32 _ _ _
  | none =>
    exact safe_bind (h.lookup.requireRam _ _ _) fun _ => safe_bind (h.storeByte _ _) fun _ =>
      safe_bind (h.storeByte _ _) fun _ => safe_bind (h.storeByte _ _) fun _ =>
      h.storeByte _ _

theorem Stable.vmWrite64 (h : Stable I E) (addr : BitVec 32) (value : BitVec 64) :
    Safe I E (vmWrite64 addr value) :=
  safe_bind (h.lookup.memcheckAlign _ _ _) fun _ => safe_bind (h.lookup.requireRam _ _ _) fun _ =>
    safe_bind (h.storeByte _ _) fun _ => safe_bind (h.storeByte _ _) fun _ =>
    safe_bind (h.storeByte _ _) fun _ => safe_bind (h.storeByte _ _) fun _ =>
    safe_bind (h.storeByte _ _) fun _ => safe_bind (h.storeByte _ _) fun _ =>
    safe_bind (h.storeByte _ _) fun _ => h.storeByte _ _

theorem Lookup.atomic32PtrOrPanic (h : Lookup I E) (op : AccessName) (addr : BitVec 32) :
    Safe I E (atomic32PtrOrPanic op addr) := by
  refine safe_ite (fun _ => safe_bind (h.vmPanic trivial) fun _ => ?_) fun _ => ?_
  all_goals
    refine safe_bind (h.requireRam _ _ _) fun _ => safe_bind (h.findMmio addr) fun dev => ?_
    cases dev with
    | some _ => exact h.vmPanic trivial
    | none => exact safe_pure _

theorem Lookup.hostLoad32 (h : Lookup I E) (addr : BitVec 32) : Safe I E (hostLoad32 addr) :=
  safe_bind safe_get fun _ => safe_bind (h.checkIndex _ _ _) fun _ => safe_pure _

theorem Stable.hostStore32 (h : Stable I E) (addr value : BitVec 32) :
    Safe I E (hostStore32 addr value) :=
  safe_bind_get fun _ hv => safe_bind (h.lookup.checkIndex _ _ _) fun _ =>
    safe_set (h.congr _ _ hv rfl)

theorem Stable.vmAtomicCompareExchange32Seqcst (h : Stable I E) (addr expected desired : BitVec 32) :
    Safe I E (vmAtomicCompareExchange32Seqcst addr expected desired) :=
  safe_bind (h.lookup.atomic32PtrOrPanic _ _) fun _ => safe_bind (h.lookup.hostLoad32 _) fun _ =>
    safe_ite (fun _ => safe_bind (h.hostStore32 _ _) fun _ => safe_pure _) fun _ => safe_pure _

/-- What a proof about code that uses memory needs of it. -/
structure MemoryRules (I : Vm → Prop) (E : Fault → Prop) : Prop where
  vmRead8 : ∀ addr, Safe I E (vmRead8 addr)
  vmRead32 : ∀ addr, Safe I E (vmRead32 addr)
  vmRead64 : ∀ addr, Safe I E (vmRead64 addr)
  vmWrite8 : ∀ addr value, Safe I E (vmWrite8 addr value)
  vmWrite32 : ∀ addr value, Safe I E (vmWrite32 addr value)
  vmWrite64 : ∀ addr value, Safe I E (vmWrite64 addr value)
  load : ∀ addr, Safe I E (vmAtomicLoad32Acquire addr)
  store : ∀ addr value, Safe I E (vmAtomicStore32Release addr value)
  exchange : ∀ addr value, Safe I E (vmAtomicExchange32Seqcst addr value)
  fetchAdd : ∀ addr value, Safe I E (vmAtomicFetchAdd32Seqcst addr value)
  compareExchange : ∀ addr expected desired,
    Safe I E (vmAtomicCompareExchange32Seqcst addr expected desired)

theorem Stable.memory (h : Stable I E) : MemoryRules I E where
  vmRead8 := h.lookup.vmRead8
  vmRead32 _ := h.lookup.vmRead32 fun ops => h.lookup.read32 h.free.clock ops _
  vmRead64 := h.lookup.vmRead64 h.free.clock
  vmWrite8 := h.vmWrite8
  vmWrite32 := h.vmWrite32
  vmWrite64 := h.vmWrite64
  load _ := safe_bind (h.lookup.atomic32PtrOrPanic _ _) fun _ => h.lookup.hostLoad32 _
  store _ _ := safe_bind (h.lookup.atomic32PtrOrPanic _ _) fun _ => h.hostStore32 _ _
  exchange _ _ := safe_bind (h.lookup.atomic32PtrOrPanic _ _) fun _ =>
    safe_bind (h.lookup.hostLoad32 _) fun _ => safe_bind (h.hostStore32 _ _) fun _ => safe_pure _
  fetchAdd _ _ := safe_bind (h.lookup.atomic32PtrOrPanic _ _) fun _ =>
    safe_bind (h.lookup.hostLoad32 _) fun _ => safe_bind (h.hostStore32 _ _) fun _ => safe_pure _
  compareExchange := h.vmAtomicCompareExchange32Seqcst

/-! ## Registers, stacks and interrupt entry -/

theorem safe_getCpu (c : ℕ) : Safe I E (getCpu c) :=
  safe_bind safe_get fun _ => safe_pure _

theorem safe_readReg (c : ℕ) {r : BitVec 8}
    (hr : r.toNat < regCount ∨ E (.outOfBounds .regs r.toNat)) : Safe I E (readReg c r) := by
  refine safe_bind (safe_getCpu c) fun cpu => ?_
  by_cases h : r.toNat < regCount
  · rw [dif_pos h]
    exact safe_pure _
  · rw [dif_neg h]
    exact safe_throw (hr.resolve_left h)

theorem safe_writeReg {c : ℕ} {r : BitVec 8}
    (hr : r.toNat < regCount ∨ E (.outOfBounds .regs r.toNat))
    (hregs : ∀ i v, Safe I E (modifyCpu c fun cpu =>
      { cpu with regs := Function.update cpu.regs i v }))
    (v : BitVec 32) : Safe I E (writeReg c r v) := by
  unfold writeReg
  by_cases h : r.toNat < regCount
  · rw [dif_pos h]
    exact hregs ⟨r.toNat, h⟩ v
  · rw [dif_neg h]
    exact safe_throw (hr.resolve_left h)

/-- `init_ivt` stores the vector table and clears the pending vectors and the flags. -/
theorem safe_initIvt (hwrite : ∀ addr value, Safe I E (vmWrite64 addr value))
    (hbitmap : ∀ vm bitmap, I vm → I { vm with interruptBitmap := bitmap })
    (hflags : ∀ vm : Vm, I vm → I { vm with cpus := fun c =>
      if c < vm.smpCores then { vm.cpus c with inInterrupt := 0 } else vm.cpus c }) :
    Safe I E initIvt :=
  safe_bind (safe_forM fun _ _ => hwrite _ _) fun _ =>
    safe_bind (safe_modify fun _ hvm => hbitmap _ _ hvm) fun _ => safe_modify hflags

/-- What `vm_create` makes of a core for good. -/
def Vcpu.identity (cpu : Vcpu) : ℕ × Bool := (cpu.coreId, cpu.isBsp)

/-- An assertion that survives changes of core `c` which keep its identity. -/
def CoreFree (c : ℕ) (I : Vm → Prop) : Prop :=
  ∀ vm cpu, I vm → cpu.identity = (vm.cpus c).identity → I (vm.setCpu c cpu)

/-- An assertion that survives changes of a core which keep its number. -/
def CpuFree (I : Vm → Prop) : Prop :=
  ∀ vm c cpu, I vm → cpu.coreId = (vm.cpus c).coreId → I (vm.setCpu c cpu)

theorem CpuFree.core (h : CpuFree I) (c : ℕ) : CoreFree c I :=
  fun vm cpu hvm hcpu => h vm c cpu hvm (congrArg Prod.fst hcpu)

section Entry

variable {c : ℕ}

theorem CoreFree.modifyCpu (hcore : CoreFree c I) {f : Vcpu → Vcpu}
    (hf : ∀ cpu, (f cpu).identity = cpu.identity) : Safe I E (modifyCpu c f) :=
  safe_modify fun vm hvm => hcore vm _ hvm (hf _)

/-- Moving the pointer of a stack keeps the core's identity. -/
def StackRegs.Moves (S : StackRegs) : Prop := ∀ cpu v, (S.set cpu v).identity = cpu.identity

variable (hcore : CoreFree c I) (hpanic : ∀ p, E (.panic p))
include hcore hpanic

theorem CoreFree.stackPush {α : Type} {S : StackRegs} (hS : S.Moves) {cell : ℤ}
    {write : BitVec 32 → α → VmM Unit} (hw : ∀ addr v, Safe I E (write addr v)) (v : α) :
    Safe I E (stackPush S cell write c v) :=
  safe_bind (safe_getCpu c) fun _ => safe_ite (fun _ => safe_throw (hpanic _)) fun _ =>
    safe_bind (hcore.modifyCpu fun cpu => hS cpu _) fun _ => safe_bind (safe_getCpu c) fun _ =>
    hw _ _

theorem CoreFree.stackPop {α : Type} {S : StackRegs} (hS : S.Moves) {cell : ℤ}
    {read : BitVec 32 → VmM α} (hr : ∀ addr, Safe I E (read addr)) :
    Safe I E (stackPop S cell read c) :=
  safe_bind (safe_getCpu c) fun _ => safe_ite (fun _ => safe_throw (hpanic _)) fun _ =>
    safe_bind (hr _) fun _ => safe_bind (hcore.modifyCpu fun cpu => hS cpu _) fun _ => safe_pure _

/-- Entering a handler changes memory and the core. -/
theorem CoreFree.vmEnterInterrupt (h : MemoryRules I E) (intNo : BitVec 32) :
    Safe I E (vmEnterInterrupt c intNo) := by
  have hpush : ∀ v, Safe I E (isrPush c v) := hcore.stackPush hpanic (fun _ _ => rfl) h.vmWrite64
  refine safe_bind (safe_getCpu c) fun _ => safe_ite (fun _ => safe_pure _) fun _ =>
    safe_ite (fun _ => safe_pure _) fun _ => safe_bind (h.vmRead64 _) fun _ =>
    safe_ite (fun _ => safe_pure _) fun _ => ?_
  refine safe_bind (safe_getCpu c) fun _ => safe_bind (hpush _) fun _ =>
    safe_bind (safe_getCpu c) fun _ => safe_bind (hpush _) fun _ =>
    safe_bind (safe_forM fun _ _ => ?_) fun _ => ?_
  · exact safe_bind (safe_getCpu c) fun _ => hpush _
  · exact safe_bind (hcore.modifyCpu fun _ => rfl) fun _ =>
      safe_bind (hcore.modifyCpu fun _ => rfl) fun _ => hcore.modifyCpu fun _ => rfl

theorem CoreFree.vmIret (h : MemoryRules I E) : Safe I E (vmIret c) := by
  have hpop : Safe I E (isrPop c) := hcore.stackPop hpanic (fun _ _ => rfl) h.vmRead64
  refine safe_bind (safe_getCpu c) fun _ => safe_ite (fun _ => safe_pure _) fun _ =>
    safe_bind (safe_forM fun _ _ => ?_) fun _ => ?_
  · exact safe_bind (safe_bind hpop fun _ => safe_pure _) fun _ => hcore.modifyCpu fun _ => rfl
  · exact safe_bind hpop fun _ => safe_bind (hcore.modifyCpu fun _ => rfl) fun _ =>
      safe_bind hpop fun _ => safe_bind (hcore.modifyCpu fun _ => rfl) fun _ =>
      hcore.modifyCpu fun _ => rfl

end Entry

end LampVm
