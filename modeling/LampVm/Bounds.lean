import LampVm.InstructionRule
import LampVm.Safety

/-!
# Array indices

Every index that the machine computes is tested, masked, or bounded by an invariant: memory
and framebuffer accesses test their address in the state in which they access, ports and
vectors are tested by the functions that take them, and the serial indices and the core
numbers are small in every reachable state. Only register fields are used as they come.
-/
namespace LampVm

open ByteOrder Contract Transition

variable {I : Vm → Prop} {E : Fault → Prop} {c : ℕ}

/-! ## Memory accesses

They stay in bounds in every state, so their rules hold with any exit condition that admits
the panics. The size of the memory is all they have to agree on. -/

/-- A program that keeps `I`, and keeps within `E` whatever the size of the memory. -/
theorem safe_of_sized {α : Type} {m : VmM α} (h : Safe I (fun _ => True) m)
    (hsized : ∀ M, Safe (fun vm => vm.memorySize = M) E m) : Safe I E m := by
  intro vm hvm
  have hkept := h vm hvm
  have hexit := hsized vm.memorySize vm rfl
  cases hr : m vm with
  | ok r =>
    rw [hr] at hkept
    exact hkept
  | error e =>
    rw [hr] at hexit
    exact hexit

section Sized

variable {M : ℕ} (hpanic : ∀ p, E (.panic p))

/-- A machine with `M` bytes of memory. -/
abbrev Sized (M : ℕ) (vm : Vm) : Prop := vm.memorySize = M

theorem sized_free (M : ℕ) : MemoryFree (Sized M) := fun _ _ hs h =>
  (congrArg Vm.memorySize h).trans hs

theorem sized_findMmio (addr : BitVec 32) : Safe (Sized M) E (findMmio addr) :=
  safe_findMmio (fun _ _ _ _ hs => hs) addr

theorem fbByteIndex_lt {memorySize k : ℕ} {addr : BitVec 32}
    (h : fbByteIndex memorySize addr = some k) : k < fbSize := by
  unfold fbByteIndex at h
  split_ifs at h
  all_goals
    obtain rfl := Option.some.inj h
    omega

theorem fbPixelIndex_lt (memorySize : ℕ) (addr : BitVec 32) :
    fbPixelIndex memorySize addr < fbWidth * fbHeight := by
  unfold fbPixelIndex
  cases hindex : fbByteIndex memorySize addr with
  | some k =>
    have hk := fbByteIndex_lt hindex
    change k < 1228800 at hk
    change k / 4 < 307200
    omega
  | none => decide

theorem sized_loadByte {k : ℕ} (hk : k < M) : Safe (Sized M) E (loadByte k) := by
  refine safe_bind_get fun vm hvm => safe_bind (safe_checkIndex ?_) fun _ => safe_pure _
  rwa [hvm]

theorem sized_storeByte {k : ℕ} (hk : k < M) (v : BitVec 8) :
    Safe (Sized M) E (storeByte k v) := by
  refine safe_bind_get fun vm hvm => safe_bind (safe_checkIndex ?_) fun _ => safe_set hvm
  rwa [hvm]

theorem sized_hostLoad32 {a : BitVec 32} (ha : a.toNat + 4 ≤ M) :
    Safe (Sized M) E (hostLoad32 a) := by
  refine safe_bind_get fun vm hvm => safe_bind (safe_checkIndex ?_) fun _ => safe_pure _
  rw [hvm]
  omega

theorem sized_hostStore32 {a : BitVec 32} (ha : a.toNat + 4 ≤ M) (v : BitVec 32) :
    Safe (Sized M) E (hostStore32 a v) := by
  refine safe_bind_get fun vm hvm => safe_bind (safe_checkIndex ?_) fun _ => safe_set hvm
  rw [hvm]
  omega

theorem sized_read32 (ops : MmioOps) (addr : BitVec 32) : Safe (Sized M) E (ops.read32 addr) := by
  cases ops with
  | fb =>
    exact safe_bind safe_get fun vm => safe_bind (safe_checkIndex (fbPixelIndex_lt _ _))
      fun _ => safe_pure _
  | time => exact (sized_free M).clock.timeRead32 addr
  | sysinfo => exact safe_sysinfoRead32 addr

theorem sized_write32 (ops : MmioOps) (addr value : BitVec 32) :
    Safe (Sized M) E (ops.write32 addr value) := by
  cases ops with
  | fb =>
    exact safe_bind_get fun vm hvm => safe_bind (safe_checkIndex (fbPixelIndex_lt _ _))
      fun _ => safe_set hvm
  | time => exact (sized_free M).timeWrite32 addr value
  | sysinfo => exact (sized_free M).halt

/-- A sum of addresses wraps downwards. -/
theorem toNat_add_lt {a b : BitVec 32} {n : ℕ} (h : a.toNat + b.toNat < n) : (a + b).toNat < n := by
  rw [BitVec.toNat_add]
  exact lt_of_le_of_lt (Nat.mod_le _ _) h

include hpanic

theorem sized_memcheckAlign (op : AccessName) (align : ℕ) (addr : BitVec 32) :
    Safe (Sized M) E (memcheckAlign op align addr) :=
  safe_bind safe_get fun _ => safe_ite (fun _ => safe_throw (hpanic _)) fun _ => safe_pure _

/-- What follows the test may rely on it. -/
theorem sized_requireRam {α : Type} {op : AccessName} {a : BitVec 32} {n : ℕ} {m : Unit → VmM α}
    {post : α → Vm → Prop} (hm : a.toNat + n ≤ M → Meets (Sized M) (m ()) post E) :
    Meets (Sized M) (requireRam op a n >>= m) post E := by
  intro vm hvm
  by_cases hram : inRam vm a n
  · rw [bind_ok (requireRam_of_inRam hram)]
    refine hm ?_ vm hvm
    rw [← hvm]
    exact hram
  · have hstop : requireRam op a n vm = .error (.panic (.addressOutOfBounds op a)) := by
      simp only [requireRam, bind_apply, get_apply, if_neg hram, vmPanic_apply]
    rw [bind_error hstop]
    exact hpanic _

theorem sized_vmRead8 (addr : BitVec 32) : Safe (Sized M) E (vmRead8 addr) := by
  refine safe_bind safe_get fun vm => ?_
  cases hindex : fbByteIndex vm.memorySize addr with
  | some k =>
    exact safe_bind safe_get fun _ => safe_bind (safe_checkIndex (fbByteIndex_lt hindex))
      fun _ => safe_pure _
  | none => exact sized_requireRam hpanic fun hram => sized_loadByte (by omega)

theorem sized_vmRead32 (addr : BitVec 32) : Safe (Sized M) E (vmRead32 addr) := by
  refine safe_bind (sized_memcheckAlign hpanic _ _ _) fun _ => safe_bind (sized_findMmio addr)
    fun dev => ?_
  cases dev with
  | some _ =>
    refine safe_bind (sized_findMmio addr) fun dev => ?_
    cases dev with
    | some dev => exact sized_read32 _ _
    | none => exact safe_throw (hpanic _)
  | none =>
    refine sized_requireRam hpanic fun hram => ?_
    have hload : ∀ k : BitVec 32, k.toNat < 4 → Safe (Sized M) E (loadByte (addr + k).toNat) :=
      fun k hk => sized_loadByte (toNat_add_lt (by omega))
    exact safe_bind (hload _ (by decide)) fun _ => safe_bind (hload _ (by decide)) fun _ =>
      safe_bind (hload _ (by decide)) fun _ => safe_bind (hload _ (by decide)) fun _ => safe_pure _

theorem sized_vmWrite8 (addr : BitVec 32) (value : BitVec 8) :
    Safe (Sized M) E (vmWrite8 addr value) := by
  refine safe_bind safe_get fun vm => ?_
  cases hindex : fbByteIndex vm.memorySize addr with
  | some k =>
    exact safe_bind_get fun _ hvm => safe_bind (safe_checkIndex (fbByteIndex_lt hindex))
      fun _ => safe_set hvm
  | none => exact sized_requireRam hpanic fun hram => sized_storeByte (by omega) _

theorem sized_vmWrite32 (addr value : BitVec 32) : Safe (Sized M) E (vmWrite32 addr value) := by
  refine safe_bind (sized_memcheckAlign hpanic _ _ _) fun _ => safe_bind (sized_findMmio addr)
    fun dev => ?_
  cases dev with
  | some dev => exact sized_write32 _ _ _
  | none =>
    refine sized_requireRam hpanic fun hram => ?_
    have hstore : ∀ (k : BitVec 32) (v : BitVec 8), k.toNat < 4 →
        Safe (Sized M) E (storeByte (addr + k).toNat v) :=
      fun k v hk => sized_storeByte (toNat_add_lt (by omega)) v
    exact safe_bind (hstore _ _ (by decide)) fun _ => safe_bind (hstore _ _ (by decide)) fun _ =>
      safe_bind (hstore _ _ (by decide)) fun _ => hstore _ _ (by decide)

theorem sized_vmWrite64 (addr : BitVec 32) (value : BitVec 64) :
    Safe (Sized M) E (vmWrite64 addr value) := by
  refine safe_bind (sized_memcheckAlign hpanic _ _ _) fun _ => ?_
  refine sized_requireRam hpanic fun hram => ?_
  have hstore : ∀ (k : BitVec 32) (v : BitVec 8), k.toNat < 8 →
      Safe (Sized M) E (storeByte (addr + k).toNat v) :=
    fun k v hk => sized_storeByte (toNat_add_lt (by omega)) v
  exact safe_bind (hstore _ _ (by decide)) fun _ => safe_bind (hstore _ _ (by decide)) fun _ =>
    safe_bind (hstore _ _ (by decide)) fun _ => safe_bind (hstore _ _ (by decide)) fun _ =>
    safe_bind (hstore _ _ (by decide)) fun _ => safe_bind (hstore _ _ (by decide)) fun _ =>
    safe_bind (hstore _ _ (by decide)) fun _ => hstore _ _ (by decide)

theorem sized_atomic32PtrOrPanic (op : AccessName) (a : BitVec 32) :
    Meets (Sized M) (atomic32PtrOrPanic op a) (fun _ vm => Sized M vm ∧ a.toNat + 4 ≤ M) E := by
  intro vm hvm
  by_cases halign : a.toNat % 4 ≠ 0
  · simp only [atomic32PtrOrPanic, if_pos halign]
    exact hpanic _
  · simp only [atomic32PtrOrPanic, if_neg halign]
    refine sized_requireRam hpanic (fun hram => Meets.bind (sized_findMmio a) fun dev => ?_) vm hvm
    cases dev with
    | some _ => exact fun _ _ => hpanic _
    | none => exact Meets.pure fun _ hs => ⟨hs, hram⟩

/-- The pointer that `atomic32_ptr_or_panic` returns may be used. -/
theorem sized_atomic {α : Type} {op : AccessName} {a : BitVec 32} {m : Unit → VmM α}
    (hm : a.toNat + 4 ≤ M → Safe (Sized M) E (m ())) :
    Safe (Sized M) E (atomic32PtrOrPanic op a >>= m) :=
  Meets.bind (sized_atomic32PtrOrPanic hpanic op a) fun _ vm hvm => hm hvm.2 vm hvm.1

theorem sized_memory : MemoryRules (Sized M) E where
  vmRead8 := sized_vmRead8 hpanic
  vmRead32 := sized_vmRead32 hpanic
  vmRead64 _ := safe_bind (sized_memcheckAlign hpanic _ _ _) fun _ =>
    safe_bind (sized_vmRead32 hpanic _) fun _ => safe_bind (sized_vmRead32 hpanic _) fun _ =>
    safe_pure _
  vmWrite8 := sized_vmWrite8 hpanic
  vmWrite32 := sized_vmWrite32 hpanic
  vmWrite64 := sized_vmWrite64 hpanic
  load _ := sized_atomic hpanic sized_hostLoad32
  store _ _ := sized_atomic hpanic fun h => sized_hostStore32 h _
  exchange _ _ := sized_atomic hpanic fun h => safe_bind (sized_hostLoad32 h) fun _ =>
    safe_bind (sized_hostStore32 h _) fun _ => safe_pure _
  fetchAdd _ _ := sized_atomic hpanic fun h => safe_bind (sized_hostLoad32 h) fun _ =>
    safe_bind (sized_hostStore32 h _) fun _ => safe_pure _
  compareExchange _ _ _ := sized_atomic hpanic fun h => safe_bind (sized_hostLoad32 h) fun _ =>
    safe_ite (fun _ => safe_bind (sized_hostStore32 h _) fun _ => safe_pure _) fun _ => safe_pure _

end Sized

/-- Memory accesses that keep `I` keep it within every exit condition that admits the
panics. -/
theorem MemoryRules.sized (h : MemoryRules I fun _ => True) (hpanic : ∀ p, E (.panic p)) :
    MemoryRules I E where
  vmRead8 addr := safe_of_sized (h.vmRead8 addr) fun _ => sized_vmRead8 hpanic addr
  vmRead32 addr := safe_of_sized (h.vmRead32 addr) fun _ => sized_vmRead32 hpanic addr
  vmRead64 addr := safe_of_sized (h.vmRead64 addr) fun _ => (sized_memory hpanic).vmRead64 addr
  vmWrite8 addr v := safe_of_sized (h.vmWrite8 addr v) fun _ => sized_vmWrite8 hpanic addr v
  vmWrite32 addr v := safe_of_sized (h.vmWrite32 addr v) fun _ => sized_vmWrite32 hpanic addr v
  vmWrite64 addr v := safe_of_sized (h.vmWrite64 addr v) fun _ => sized_vmWrite64 hpanic addr v
  load addr := safe_of_sized (h.load addr) fun _ => (sized_memory hpanic).load addr
  store addr v := safe_of_sized (h.store addr v) fun _ => (sized_memory hpanic).store addr v
  exchange addr v := safe_of_sized (h.exchange addr v) fun _ =>
    (sized_memory hpanic).exchange addr v
  fetchAdd addr v := safe_of_sized (h.fetchAdd addr v) fun _ =>
    (sized_memory hpanic).fetchAdd addr v
  compareExchange addr v w := safe_of_sized (h.compareExchange addr v w) fun _ =>
    (sized_memory hpanic).compareExchange addr v w

/-! ## The serial FIFO -/

theorem serialNext_toNat (k : BitVec 16) : (serialNext k).toNat = (k.toNat + 1) % 256 := by
  have hmask : (0xFF : BitVec 16).toNat = 2 ^ 8 - 1 := rfl
  have hone : (1 : BitVec 16).toNat = 1 := rfl
  rw [serialNext, BitVec.toNat_and, hmask, Nat.and_two_pow_sub_one_eq_mod, BitVec.toNat_add, hone]
  omega

theorem serialNext_lt (k : BitVec 16) : (serialNext k).toNat < 256 := by
  rw [serialNext_toNat]
  exact Nat.mod_lt _ (by decide)

theorem safe_readFifo {k : ℕ} (hk : k < 256) : Safe I E (readFifo k) :=
  safe_bind safe_get fun _ => safe_bind (safe_checkIndex hk) fun _ => safe_pure _

/-- An assertion that bounds the end of the FIFO from which bytes are read, and survives
the read of one. -/
structure FifoRules (I : Vm → Prop) : Prop where
  tail : ∀ vm, I vm → vm.serialRxTail.toNat < 256
  cores : ∀ vm, I vm → 0 < vm.smpCores
  pop : ∀ vm, I vm → I { vm with serialRxTail := serialNext vm.serialRxTail }
  bitmap : ∀ vm bitmap, I vm → I { vm with interruptBitmap := bitmap }
  port : PortFree I

section Fifo

variable {rd : BitVec 8} (h : FifoRules I)
include h

theorem FifoRules.serialPop (hcore : CoreFree c I)
    (hrd : rd.toNat < regCount ∨ E (.outOfBounds .regs rd.toNat)) : Safe I E (serialPop c rd) := by
  refine safe_bind_get fun vm hvm => safe_ite (fun _ => ?_) fun _ => hcore.writeReg hrd _
  exact safe_bind (safe_readFifo (h.tail vm hvm)) fun _ => safe_bind (safe_modify h.pop)
    fun _ => hcore.writeReg hrd _

theorem FifoRules.serialMirror : Safe I E serialMirror := by
  refine safe_bind_get fun vm hvm => safe_ite (fun _ => ?_) fun _ => ?_
  · exact safe_bind (safe_readFifo (h.tail vm hvm)) fun _ =>
      safe_bind (h.port.setIo (by decide) _) fun _ => h.port.setIo (by decide) _
  · exact safe_bind (h.port.setIo (by decide) _) fun _ => h.port.setIo (by decide) _

/-- The acknowledge writes the first word of core 0. -/
theorem FifoRules.serialAck : Safe I E serialAck := by
  refine safe_bind_get fun vm hvm => safe_bind (safe_checkIndex ?_) fun _ =>
    safe_set (h.bitmap vm _ hvm)
  have hcores := h.cores vm hvm
  change 0 < vm.smpCores * 4
  omega

theorem FifoRules.inKeyboard {i : Inst} (hcore : CoreFree c I)
    (hrd : i.rd.toNat < regCount ∨ E (.outOfBounds .regs i.rd.toNat)) :
    Safe I E (inKeyboard c i) := by
  refine safe_bind (h.serialPop hcore hrd) fun _ => safe_bind h.serialMirror fun _ =>
    safe_bind h.serialAck fun _ => safe_bind safe_get fun _ => ?_
  exact safe_ite (fun _ => safe_triggerInterruptTarget h.bitmap _ _) fun _ => safe_pure _

end Fifo

/-! ## The indices in the state -/

/-- The indices that the machine keeps: the ends of the serial FIFO and the number of each
core. -/
structure IndexInv (N : ℕ) (vm : Vm) : Prop where
  smpCores : vm.smpCores = N
  serialHead : vm.serialRxHead.toNat < 256
  serialTail : vm.serialRxTail.toNat < 256
  identity : ∀ d, d < N → (vm.cpus d).identity = (d, decide (d = 0))

def Vm.indexView (vm : Vm) : ℕ × BitVec 16 × BitVec 16 × (ℕ → ℕ × Bool) :=
  (vm.smpCores, vm.serialRxHead, vm.serialRxTail, fun d => (vm.cpus d).identity)

section Indices

variable {N : ℕ} {i : Inst} {op : Opcode}

theorem IndexInv.congr {s t : Vm} (hs : IndexInv N s) (h : t.indexView = s.indexView) :
    IndexInv N t := by
  simp only [Vm.indexView, Prod.mk.injEq] at h
  obtain ⟨hcores, hhead, htail, hidentity⟩ := h
  refine ⟨hcores.trans hs.smpCores, hhead ▸ hs.serialHead, htail ▸ hs.serialTail, fun d hd => ?_⟩
  exact (congrFun hidentity d).trans (hs.identity d hd)

theorem indexInv_stable (N : ℕ) : Stable (IndexInv N) fun _ => True where
  congr s t hs h := hs.congr (show t.besidesMemory.indexView = s.besidesMemory.indexView by rw [h])
  findMmio := safe_findMmio fun _ _ _ _ hs => hs.congr rfl
  fault _ _ := trivial

theorem indexInv_coreFree (N c : ℕ) : CoreFree c (IndexInv N) := by
  intro vm cpu hvm hcpu
  refine hvm.congr ?_
  have hidentity : (fun d => ((vm.setCpu c cpu).cpus d).identity) =
      fun d => (vm.cpus d).identity := by
    funext d
    by_cases hd : d = c
    · rw [hd, setCpu_cpus_self, hcpu]
    · rw [setCpu_cpus_of_ne _ _ hd]
  simp only [Vm.indexView, hidentity]
  rfl

theorem indexInv_portFree (N : ℕ) : PortFree (IndexInv N) where
  io _ _ hs := hs.congr rfl
  disk _ _ hs := hs.congr rfl
  stdout _ _ hs := hs.congr rfl

theorem indexInv_trigger (target : ℤ) (n : BitVec 32) :
    Safe (IndexInv N) E (triggerInterruptTarget target n) :=
  safe_triggerInterruptTarget (fun _ _ hs => hs.congr rfl) target n

theorem indexInv_fifo (hN : 0 < N) : FifoRules (IndexInv N) where
  tail _ hs := hs.serialTail
  cores _ hs := hs.smpCores ▸ hN
  pop _ hs := ⟨hs.smpCores, hs.serialHead, serialNext_lt _, hs.identity⟩
  bitmap _ _ hs := hs.congr rfl
  port := indexInv_portFree N

theorem indexInv_execStartap (hi : RegsAdmitted E i) : Safe (IndexInv N) E (execStartap c i) := by
  refine safe_bind (safe_getCpu c) fun _ => safe_ite (fun _ => safe_pure _) fun _ =>
    safe_bind (safe_readReg c (hi _ (.inl rfl))) fun target =>
    safe_bind (safe_readReg c (hi _ (.inr (.inl rfl)))) fun _ => safe_bind safe_get fun vm =>
    safe_ite (fun _ => safe_pure _) fun hrange => ?_
  have hindex : target.toInt.toNat < vm.smpCores := by omega
  exact safe_bind (safe_checkIndex hindex) fun _ =>
    safe_bind ((indexInv_coreFree N _).modifyCpu fun _ => rfl) fun _ =>
    safe_bind (safe_checkIndex hindex) fun _ => safe_modify fun _ hs => hs.congr rfl

variable (hpanic : ∀ p, E (.panic p))
include hpanic

theorem indexInv_memory : MemoryRules (IndexInv N) E := (indexInv_stable N).memory.sized hpanic

theorem indexInv_stepRules (hN : 0 < N) (hfloat : ∀ bits, E (.floatToInt bits))
    (hi : RegsAdmitted E i) : StepRules (IndexInv N) E c i op :=
  (indexInv_coreFree N c).stepRules hi (indexInv_memory hpanic) hpanic hfloat (indexInv_portFree N)
    (fun _ hs => hs.congr rfl)
    (fun _ => (indexInv_fifo hN).inKeyboard (indexInv_coreFree N c) (hi _ (.inl rfl)))
    (fun _ => indexInv_trigger _ _) (fun _ => indexInv_execStartap hi) fun _ => indexInv_trigger

theorem indexInv_deliverFirst (hc : c < N) {ws : List ℕ} (hws : ∀ w ∈ ws, w < irqBitmapWords) :
    Safe (IndexInv N) E (deliverFirst c c ws) := by
  induction ws with
  | nil => exact safe_pure _
  | cons w ws ih =>
    refine safe_bind_get fun vm hvm => safe_bind (safe_checkIndex ?_) fun _ =>
      safe_ite (fun _ => ih fun v hv => hws v (List.mem_cons_of_mem _ hv)) fun _ =>
      safe_bind (safe_set (hvm.congr rfl)) fun _ =>
      (indexInv_coreFree N c).vmEnterInterrupt hpanic (indexInv_memory hpanic) _
    have hw : w < 4 := hws w (List.mem_cons_self ..)
    rw [hvm.smpCores]
    change c * 4 + w < N * 4
    omega

theorem indexInv_vmHandleInterrupts (hc : c < N) :
    Safe (IndexInv N) E (vmHandleInterrupts c) := by
  intro vm hvm
  have hid : (vm.cpus c).coreId = c := congrArg Prod.fst (hvm.identity c hc)
  refine safe_ite (fun _ => safe_pure _) (fun _ => safe_ite (fun _ => safe_pure _) fun _ => ?_)
    vm hvm
  rw [hid]
  exact indexInv_deliverFirst hpanic hc fun w hw => List.mem_range.mp hw

/-- An instruction whose register fields are admitted. -/
theorem indexInv_vmInstructionCase (hN : 0 < N) (hfloat : ∀ bits, E (.floatToInt bits)) {vm : Vm}
    (hi : inRam vm (vm.cpus c).fetchIp 8 → RegsAdmitted E (vm.nextInst c)) (hvm : IndexInv N vm) :
    Result (fun _ => IndexInv N) E (vmInstructionCase c vm) := by
  by_cases hram : inRam vm (vm.cpus c).fetchIp 8
  · have hfetched : IndexInv N (vm.fetched c) := indexInv_coreFree N c vm _ hvm rfl
    rw [vmInstructionCase, bind_ok (fetch64_of_inRam hram)]
    cases hop : Opcode.ofByte (Inst.decode (vm.wordAt (vm.cpus c).fetchIp)).op with
    | some op => exact (indexInv_stepRules hpanic hN hfloat (hi hram)).execute _ hfetched
    | none => exact hpanic _
  · rw [vmInstructionCase, bind_error (fetch64_of_not_inRam hram)]
    exact hpanic _

omit hpanic in
theorem indexInv_vmSerialRxEnqueue (b : BitVec 8) :
    Safe (IndexInv N) E (vmSerialRxEnqueue b) := by
  refine safe_bind_get fun vm hvm => safe_ite (fun _ => safe_pure _) fun _ =>
    safe_bind (safe_checkIndex hvm.serialHead) fun _ => safe_bind (safe_modify fun s hs => ?_)
    fun _ => safe_ite (fun _ => ?_) fun _ => safe_pure _
  · exact ⟨hs.smpCores, serialNext_lt _, hs.serialTail, hs.identity⟩
  · refine safe_bind (safe_readFifo hvm.serialTail) fun _ => safe_bind
      (safe_modify fun _ hs => hs.congr rfl) fun _ => safe_bind
      (safe_modify fun _ hs => hs.congr rfl) fun _ => safe_bind safe_get fun _ => ?_
    exact safe_ite (fun _ => safe_bind (indexInv_trigger _ _) fun _ => safe_pure _)
      fun _ => safe_pure _

omit hpanic in
theorem indexInv_timerTick : Safe (IndexInv N) E timerTick := by
  refine safe_bind safe_get fun vm => safe_ite (fun _ => safe_pure _) fun _ =>
    safe_ite (fun _ => safe_modify fun _ hs => hs.congr rfl) fun _ =>
    safe_ite (fun _ => safe_modify fun _ hs => hs.congr rfl) fun _ => ?_
  refine safe_bind (indexInv_stable N).free.clock.hostMonotonicTimeNs fun now => safe_bind
    (safe_modify fun _ hs => hs.congr rfl) fun _ => safe_ite (fun _ => safe_pure _) fun _ => ?_
  exact safe_bind (indexInv_trigger _ _) fun _ =>
    safe_bind (indexInv_stable N).free.clock.hostMonotonicTimeNs fun _ =>
    safe_modify fun _ hs => hs.congr rfl

omit hpanic in
theorem indexInv_diskTick : Safe (IndexInv N) E diskTick :=
  safe_bind_get fun _ hvm => safe_ite (fun _ => safe_pure _) fun _ => safe_bind
    (safe_set (hvm.congr rfl)) fun _ => safe_ite (fun _ => indexInv_trigger _ _)
    fun _ => safe_pure _

omit hpanic in
theorem indexInv_worker (host : BounceBuffer) :
    Safe (IndexInv N) E (workerTransfer host) ∧ Safe (IndexInv N) E workerComplete :=
  ⟨safe_workerTransfer (fun _ _ _ _ hvm => hvm.congr rfl) host,
    safe_workerComplete fun _ _ _ hvm => hvm.congr rfl⟩

/-- The step lemma: every event keeps the indices and uses none that is out of bounds, but
for the register fields. -/
theorem runEvent_index (hN : 0 < N) (hfloat : ∀ bits, E (.floatToInt bits)) {vm : Vm} (e : Event)
    (hen : eventEnabled vm e) (hvm : IndexInv N vm)
    (hi : ∀ c, e = .instruction c → inRam vm (vm.cpus c).fetchIp 8 →
      RegsAdmitted E (vm.nextInst c)) :
    Result (fun _ => IndexInv N) E (runEvent e vm) := by
  cases e with
  | handleInterrupts c => exact indexInv_vmHandleInterrupts hpanic (hvm.smpCores ▸ hen.1) vm hvm
  | instruction c => exact indexInv_vmInstructionCase hpanic hN hfloat (hi c rfl) hvm
  | diskTick => exact indexInv_diskTick vm hvm
  | workerTake => exact hvm.congr rfl
  | workerTransfer host => exact (indexInv_worker host).1 vm hvm
  | workerComplete => exact (indexInv_worker ⟨false, fun _ => 0⟩).2 vm hvm
  | serialRx b => exact safe_bind (indexInv_vmSerialRxEnqueue b) (fun _ => safe_pure _) vm hvm
  | timerTick => exact indexInv_timerTick vm hvm
  | registerIsr intNo isrIp =>
    exact safe_ite (fun _ => safe_throw (hpanic _))
      (fun _ => (indexInv_memory hpanic).vmWrite64 _ _) vm hvm

end Indices

theorem boot_index {clock : HostClock} {memcheck : Bool} {image : DiskImage} {memorySize : ℕ}
    {program : List (BitVec 64)} {data : List (BitVec 8)} {layout : Option ProgramLayout}
    {smpCores : ℤ} {vm : Vm}
    (h : boot clock memcheck image memorySize program data layout smpCores = .ok vm) :
    IndexInv (coreCount smpCores) vm := by
  obtain ⟨vm₀, hcreate, hivt⟩ := boot_eq_ok h
  obtain rfl := vmCreate_ok hcreate
  have hinit : Safe (IndexInv (coreCount smpCores)) (fun _ => True) initIvt := by
    refine safe_initIvt (indexInv_stable _).vmWrite64 (fun _ _ hs => hs.congr rfl) fun s hs =>
      hs.congr ?_
    have hidentity : (fun d => (if d < s.smpCores then { s.cpus d with inInterrupt := 0 }
        else s.cpus d : Vcpu).identity) = fun d => (s.cpus d).identity := by
      funext d
      split_ifs <;> rfl
    simp only [Vm.indexView, hidentity]
  have hzero : (0 : BitVec 16).toNat < 256 := by decide
  exact hinit.ok ⟨rfl, hzero, hzero, fun d _ => rfl⟩ hivt

/-- The run lemma. -/
theorem reachable_index {memorySize : ℕ} {smpCores : ℤ} {vm : Vm}
    (h : Reachable (machine memorySize smpCores) vm) : IndexInv (coreCount smpCores) vm := by
  refine h.invariant ?_ ?_
  · rintro s ⟨clock, memcheck, image, program, data, layout, hboot⟩
    exact boot_index hboot
  · rintro s e t hs ⟨hen, hrun⟩
    have hres := runEvent_index (E := fun _ => True) (fun _ => trivial) (coreCount_pos smpCores)
      (fun _ => trivial) e hen hs fun _ _ _ _ _ => .inr trivial
    rw [hrun] at hres
    exact hres

/-! ## Disk transfers -/

section Transfers

variable (job : DiskJob) (host : BounceBuffer) (vm : Vm)

/-- A transfer that passes the test of its copied registers lies in memory. -/
theorem isValidDma_iff {memorySize addr count : ℕ} :
    isValidDma memorySize addr count = true ↔ addr + count * diskSectorSize ≤ memorySize := by
  simp [isValidDma]

theorem diskTransfer_memory_of_le {x : ℕ} (hx : vm.memorySize ≤ x) :
    (diskTransfer job host vm).memory x = vm.memory x := by
  unfold diskTransfer
  dsimp only
  by_cases hdma : isValidDma vm.memorySize job.memAddr.toNat job.count.toNat = true
  · rw [if_neg (not_not.mpr hdma)]
    rw [isValidDma_iff] at hdma
    split_ifs
    · exact if_neg (by omega)
    all_goals rfl
  · rw [if_pos hdma]

theorem fwrite_congr {image : DiskImage} {pos n : ℕ} {buf buf' : Bytes}
    (h : ∀ k, k < n → buf' k = buf k) : fwrite image pos n buf' = fwrite image pos n buf := by
  unfold fwrite
  congr 1
  funext x
  split_ifs with hx
  · exact h _ (by omega)
  all_goals rfl

/-- A transfer that is to write the disk. -/
def DiskJob.Writes (job : DiskJob) (host : BounceBuffer) (memorySize : ℕ) : Prop :=
  isValidDma memorySize job.memAddr.toNat job.count.toNat = true ∧ job.cmd = diskCmdWrite ∧
    host.allocated = true

theorem diskTransfer_image_of_writes (h : job.Writes host vm.memorySize) :
    (diskTransfer job host vm).diskImage = fwrite vm.diskImage (job.lba.toNat * diskSectorSize)
      (job.count.toNat * diskSectorSize) fun k => vm.memory (job.memAddr.toNat + k) := by
  obtain ⟨hdma, hcmd, halloc⟩ := h
  have hread : ¬ job.cmd = diskCmdRead := by
    rw [hcmd]
    decide
  unfold diskTransfer
  dsimp only
  rw [if_neg (not_not.mpr hdma), if_neg hread, if_pos hcmd, if_pos halloc]

theorem diskTransfer_image_of_not_writes (h : ¬ job.Writes host vm.memorySize) :
    (diskTransfer job host vm).diskImage = vm.diskImage := by
  unfold diskTransfer
  dsimp only
  split_ifs with hdma hread halloc hcmd halloc
  · rfl
  · rfl
  · exact absurd ⟨hdma, hcmd, halloc⟩ h
  all_goals rfl

/-- What is written to the disk is read from the memory below its size. -/
theorem diskTransfer_image_congr {m : Bytes} (hm : ∀ x, x < vm.memorySize → m x = vm.memory x) :
    (diskTransfer job host (vm.withMemory m)).diskImage = (diskTransfer job host vm).diskImage := by
  by_cases h : job.Writes host vm.memorySize
  · rw [diskTransfer_image_of_writes job host vm h,
      diskTransfer_image_of_writes job host (vm.withMemory m) h]
    have hdma := isValidDma_iff.mp h.1
    exact fwrite_congr fun k hk => hm _ (by omega)
  · rw [diskTransfer_image_of_not_writes job host vm h,
      diskTransfer_image_of_not_writes job host (vm.withMemory m) h]
    rfl

end Transfers

/-- No event of a reachable machine leaves an array, as long as the register fields name
registers, and no disk transfer leaves the memory, whatever registers it copied. -/
theorem reachable_accesses_in_bounds {memorySize : ℕ} {smpCores : ℤ} {vm : Vm}
    (h : Reachable (machine memorySize smpCores) vm) :
    (∀ c, eventEnabled vm (.handleInterrupts c) → ∀ array k,
      vmHandleInterrupts c vm ≠ .error (.outOfBounds array k)) ∧
    (∀ c, eventEnabled vm (.instruction c) →
      (inRam vm (vm.cpus c).fetchIp 8 → (vm.nextInst c).Valid) → ∀ array k,
      vmInstructionCase c vm ≠ .error (.outOfBounds array k)) ∧
    ∀ job host, (∀ x, vm.memorySize ≤ x → (diskTransfer job host vm).memory x = vm.memory x) ∧
      ∀ m, (∀ x, x < vm.memorySize → m x = vm.memory x) →
        (diskTransfer job host (vm.withMemory m)).diskImage =
          (diskTransfer job host vm).diskImage := by
  have hstep : ∀ e, eventEnabled vm e → (∀ c, e = .instruction c →
      inRam vm (vm.cpus c).fetchIp 8 → (vm.nextInst c).Valid) → ∀ array k,
      runEvent e vm ≠ .error (.outOfBounds array k) := by
    intro e hen hi array k hstop
    have hres := runEvent_index (E := fun e => ∀ array k, e ≠ .outOfBounds array k)
      (fun _ _ _ => nofun) (coreCount_pos smpCores) (fun _ _ _ => nofun) e hen (reachable_index h)
      fun c hc hram => (hi c hc hram).admitted
    rw [hstop] at hres
    exact hres array k rfl
  refine ⟨fun c hen => hstep (.handleInterrupts c) hen fun _ hc => ?_,
    fun c hen hi => hstep (.instruction c) hen fun d hd => ?_, fun job host => ?_⟩
  · cases hc
  · cases hd
    exact hi
  · exact ⟨fun x => diskTransfer_memory_of_le job host vm,
      fun m => diskTransfer_image_congr job host vm⟩

/-- Behind a first instruction the program stores to the last word of the memory. -/
theorem reachable_accesses_in_bounds_store : ∃ vm, Reachable (machine memSize 1) vm ∧
    (vm.cpus 0).regs 1 = 7 ∧ vm.nextInst 0 = ⟨Opcode.store32.code, 1, 0, 0, 0x3FFFFFC⟩ ∧
    (∀ array k, vmInstructionCase 0 vm ≠ .error (.outOfBounds array k)) ∧
    ∀ array k, vmHandleInterrupts 0 vm ≠ .error (.outOfBounds array k) := by
  obtain ⟨s, hs⟩ := exists_started ⟨fun _ => 0, fun _ => 0, 0⟩
    [Inst.encode ⟨Opcode.movi.code, 1, 0, 0, 7⟩,
      Inst.encode ⟨Opcode.store32.code, 1, 0, 0, 0x3FFFFFC⟩] (by decide)
  have hinit : Reachable (machine memSize 1) s := .of_init hs.init
  obtain ⟨vm, hrun, hword, hvm⟩ := (hs.atWord (by decide)).movi (show 0 < 2 by decide) rfl
    (show IsReg 1 by decide)
  have hreach : Reachable (machine memSize 1) vm :=
    hinit.step (l := .instruction 0) ⟨enabled_of_reachable hinit, hrun⟩
  have hinst : vm.nextInst 0 = ⟨Opcode.store32.code, 1, 0, 0, 0x3FFFFFC⟩ :=
    (hword.fetch (show 1 < 2 by decide)).2.trans (Inst.decode_encode _)
  obtain ⟨hhandle, hbounds, -⟩ := reachable_accesses_in_bounds hreach
  refine ⟨vm, hreach, ?_, hinst, hbounds 0 (enabled_of_reachable hreach) fun _ => ?_,
    hhandle 0 (enabled_of_reachable hreach)⟩
  · rw [hvm, setCpu_cpus_self]
    rfl
  · rw [hinst]
    exact ⟨by decide, by decide, by decide⟩

end LampVm
