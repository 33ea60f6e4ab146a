import LampVm.Dispatch
import LampVm.IrqStub

/-!
# Traps of the kernel

`kernel/src/trap.c` and the handlers of `kernel/src/irq.c`. `trap_init` points every vector of
the table in memory to the same stub, and enables six of them in a table of its own; handlers
can be registered for any vector at any time. Over every run the interrupts that arrive are
routed as the last registrations say, and those of the other vectors are dropped.
-/
namespace LampVm

open ByteOrder Transition

abbrev kernelIvtSize : ℕ := 256
abbrev kernelIvtBase : BitVec 32 := 0
abbrev kernelIvtEntrySize : BitVec 32 := 8

/-- `trap_handler_t`: the handlers of `irq.c`, and those of other callers. -/
inductive TrapHandler
  | irqDefault | irqDivideByZero | irqDiskComplete | irqSerial | irqKeyboard | irqTimer | irqSyscall
  | callback (addr : BitVec 32)
  deriving DecidableEq, Repr

/-- What a handler calls outside `irq.c`. -/
inductive TrapAction
  | kpanic
  | serialDrainRx
  | scheduleTick
  | syscallDispatch (regs : SyscallRegs)
  | callback (addr irqNo : BitVec 32)
  | nullPointer
  deriving DecidableEq, Repr

/-- `trap_frame_t`. -/
structure TrapFrame where
  irqNo : BitVec 32
  dispatchCount : BitVec 32
  tickSnapshot : BitVec 32

/-- The static variables of both files. -/
structure Traps where
  table : Fin kernelIvtSize → Option TrapHandler
  ready : BitVec 32
  mask : Fin (kernelIvtSize / 32) → BitVec 32
  counts : Fin kernelIvtSize → BitVec 32
  faultDiv0 : BitVec 32
  frame : TrapFrame

/-- Before `trap_init`. -/
def Traps.zero : Traps := ⟨fun _ => none, 0, fun _ => 0, fun _ => 0, 0, ⟨0, 0, 0⟩⟩

/-! ## Handlers -/

/-- `g_irq_counts[irq_no]++`. -/
def Traps.countIrq (n : BitVec 32) (t : Traps) : Traps :=
  if h : n.toNat < kernelIvtSize then
    { t with counts := Function.update t.counts ⟨n.toNat, h⟩ (t.counts ⟨n.toNat, h⟩ + 1) }
  else t

/-- The handler of a vector, with the registers that the stub has stored. -/
def TrapHandler.run (stub : SyscallRegs) (n : BitVec 32) (t : Traps) :
    TrapHandler → List TrapAction × Traps
  | .irqDefault | .irqDiskComplete => ([], t.countIrq n)
  | .irqDivideByZero => ([.kpanic], { t with faultDiv0 := 1 })
  | .irqSerial | .irqKeyboard => ([.serialDrainRx], t.countIrq n)
  | .irqTimer => ([.scheduleTick], t.countIrq n)
  | .irqSyscall => ([.syscallDispatch stub], t.countIrq n)
  | .callback addr => ([.callback addr n], t)

/-! ## `trap.c` -/

def trapRegister (n : BitVec 32) (handler : Option TrapHandler) (t : Traps) : Traps :=
  if h : n.toNat < kernelIvtSize then
    { t with table := Function.update t.table ⟨n.toNat, h⟩ (some (handler.getD .irqDefault)) }
  else t

theorem maskWord_lt {n : ℕ} (h : n < kernelIvtSize) : n / 32 < kernelIvtSize / 32 := by
  change n < 256 at h
  change n / 32 < 8
  omega

def trapDispatch (stub : SyscallRegs) (n : BitVec 32) (t : Traps) : List TrapAction × Traps :=
  if h : n.toNat < kernelIvtSize then
    if t.ready = 0 then ([], t)
    else if t.mask ⟨n.toNat / 32, maskWord_lt h⟩ &&& (1 : BitVec 32) <<< (n % 32) = 0 then ([], t)
    else
      match t.table ⟨n.toNat, h⟩ with
      | none => ([.nullPointer], t)
      | some handler => handler.run stub n t
  else ([], t)

def irqCommonEntry (stub : SyscallRegs) (ticks n : BitVec 32) (t : Traps) :
    List TrapAction × Traps :=
  trapDispatch stub n { t with frame := ⟨n, t.frame.dispatchCount + 1, ticks⟩ }

/-- `regs` of `irq_syscall`, from the words that the stub has stored. -/
def StubSymbols.syscallRegs (σ : StubSymbols) (memory : Bytes) : SyscallRegs :=
  let word (i : Fin (1 + 6)) := BitVec.ofNat 32 (leNat memory (σ.gIrqStubR i).toNat 4)
  ⟨word 0, word 1, word 2, word 3, word 4, word 5, word 6⟩

def irqCommonEntryFromStub (σ : StubSymbols) (memory : Bytes) (ticks : BitVec 32) (t : Traps) :
    List TrapAction × Traps :=
  irqCommonEntry (σ.syscallRegs memory) ticks
    (BitVec.ofNat 32 (leNat memory σ.gIrqStubNo.toNat 4)) t

/-- `g_irq_mask[irq / 32] |= 1 << (irq % 32)`. -/
def Traps.enableIrq (k : Fin kernelIvtSize) (t : Traps) : Traps :=
  let w : Fin (kernelIvtSize / 32) := ⟨k / 32, maskWord_lt k.isLt⟩
  { t with mask := Function.update t.mask w (t.mask w ||| (1 : BitVec 32) <<< (k.val % 32)) }

/-- `IRQ_DIVIDE_BY_ZERO` and the others, in the order of `trap_init`, with their handlers. -/
def trapVectors : List (Fin kernelIvtSize × TrapHandler) :=
  [(0x01, .irqDivideByZero), (0x02, .irqDiskComplete), (0x03, .irqSerial), (0x00, .irqKeyboard),
    (0x04, .irqTimer), (0x80, .irqSyscall)]

/-- `trap_init`, without what it stores in the table of the machine. -/
def trapInit (t : Traps) : Traps :=
  let t := { t with table := fun _ => some .irqDefault, mask := fun _ => 0 }
  let t := trapVectors.foldl (fun t v => trapRegister (BitVec.ofNat 32 v.1) (some v.2) t) t
  let t := trapVectors.foldl (fun t v => t.enableIrq v.1) t
  { t with ready := 1 }

def ivtWriteEntry (irqNo handlerAddr : BitVec 32) (memory : Bytes) : Bytes :=
  let slot := kernelIvtBase + irqNo * kernelIvtEntrySize
  leStore (leStore memory (slot + 0).toNat 4 handlerAddr.toNat) (slot + 4).toNat 4 0

/-- The other half of the loop of `trap_init`. -/
def trapInitIvt (irqStubEntry : BitVec 32) (memory : Bytes) : Bytes :=
  (List.range kernelIvtSize).foldl
    (fun m i => ivtWriteEntry (BitVec.ofNat 32 i) irqStubEntry m) memory

/-! ## Runs -/

inductive TrapLabel
  | register (n : BitVec 32) (handler : Option TrapHandler)
  /-- The stub has stored `stub` and called `irq_common_entry_from_stub`. -/
  | interrupt (stub : SyscallRegs) (ticks n : BitVec 32)

def Traps.next (t : Traps) : TrapLabel → List TrapAction × Traps
  | .register n handler => ([], trapRegister n handler t)
  | .interrupt stub ticks n => irqCommonEntry stub ticks n t

/-- A kernel that has divided by zero does not go on. -/
def traps : System Traps TrapLabel where
  init t := ∃ t₀, t = trapInit t₀
  step t l u := t.faultDiv0 = 0 ∧ u = (t.next l).2

def trapActions (t : Traps) (l : TrapLabel) : List TrapAction := (t.next l).1

/-! ## What the tables mean -/

/-- The handlers after `trap_init`. -/
def initialHandlers (k : Fin kernelIvtSize) : TrapHandler :=
  ((trapVectors.find? fun v => v.1 = k).map Prod.snd).getD .irqDefault

def enabledVector (n : BitVec 32) : Bool := trapVectors.any fun v => n.toNat = v.1

def TrapHandler.actions (stub : SyscallRegs) (n : BitVec 32) : TrapHandler → List TrapAction
  | .irqDefault | .irqDiskComplete => []
  | .irqDivideByZero => [.kpanic]
  | .irqSerial | .irqKeyboard => [.serialDrainRx]
  | .irqTimer => [.scheduleTick]
  | .irqSyscall => [.syscallDispatch stub]
  | .callback addr => [.callback addr n]

/-- Whether a handler counts its interrupts. -/
def TrapHandler.counts : TrapHandler → Bool
  | .irqDivideByZero | .callback _ => false
  | _ => true

/-- The handlers behind a label. -/
def routeNext (handlers : Fin kernelIvtSize → TrapHandler) :
    TrapLabel → Fin kernelIvtSize → TrapHandler
  | .register n handler => fun k => if n.toNat = k then handler.getD .irqDefault else handlers k
  | .interrupt _ _ _ => handlers

/-- What a label does, by the handlers that are registered. -/
def routeActions (handlers : Fin kernelIvtSize → TrapHandler) : TrapLabel → List TrapAction
  | .register _ _ => []
  | .interrupt stub _ n =>
    if enabledVector n then (handlers (Fin.ofNat _ n.toNat)).actions stub n else []

/-- Whether a label counts for vector `k`. -/
def routeCounts (handlers : Fin kernelIvtSize → TrapHandler) (k : Fin kernelIvtSize) :
    TrapLabel → ℕ
  | .register _ _ => 0
  | .interrupt _ _ n => if enabledVector n ∧ n.toNat = k ∧ (handlers k).counts then 1 else 0

/-- The actions of a run. -/
def routed (handlers : Fin kernelIvtSize → TrapHandler) : List TrapLabel → List TrapAction
  | [] => []
  | l :: ls => routeActions handlers l ++ routed (routeNext handlers l) ls

/-- The interrupts of a run that are counted for vector `k`. -/
def counted (handlers : Fin kernelIvtSize → TrapHandler) (k : Fin kernelIvtSize) :
    List TrapLabel → ℕ
  | [] => 0
  | l :: ls => routeCounts handlers k l + counted (routeNext handlers l) k ls

def TrapLabel.isInterrupt : TrapLabel → Bool
  | .interrupt _ _ _ => true
  | .register _ _ => false

/-- The system call that the registers of a core ask for. -/
def Vcpu.syscallRegs (cpu : Vcpu) : SyscallRegs :=
  ⟨cpu.regs 0, cpu.regs 1, cpu.regs 2, cpu.regs 3, cpu.regs 4, cpu.regs 5, cpu.regs 6⟩

/-- The entry from the stub is the interrupt of the core that the stub ran on. -/
theorem HandedOver.irqCommonEntryFromStub {σ : StubSymbols} {cpu : Vcpu} {c : ℕ} {n : BitVec 32}
    {w : Vm} (h : HandedOver σ cpu c n w) (ticks : BitVec 32) (t : Traps) :
    irqCommonEntryFromStub σ w.memory ticks t =
      t.next (.interrupt cpu.syscallRegs ticks n) := by
  have hregs : σ.syscallRegs w.memory = cpu.syscallRegs := by
    simp only [StubSymbols.syscallRegs, Vcpu.syscallRegs, h.args, BitVec.ofNat_toNat,
      BitVec.setWidth_eq]
    rfl
  rw [LampVm.irqCommonEntryFromStub, hregs, h.number, BitVec.ofNat_toNat, BitVec.setWidth_eq]
  rfl

/-! ## The table of the machine -/

section Ivt

variable {irqStubEntry : BitVec 32} {m : Bytes}

theorem ivtWriteEntry_eq {i : ℕ} (hi : i < kernelIvtSize) (handlerAddr : BitVec 32) (m : Bytes) :
    ivtWriteEntry (BitVec.ofNat 32 i) handlerAddr m =
      leStore (leStore m (8 * i) 4 handlerAddr.toNat) (8 * i + 4) 4 0 := by
  have hsize : kernelIvtSize = 256 := rfl
  have h0 : (0 : BitVec 32).toNat = 0 := rfl
  have h4 : (4 : BitVec 32).toNat = 4 := rfl
  have h8 : (8 : BitVec 32).toNat = 8 := rfl
  have hslot : (kernelIvtBase + BitVec.ofNat 32 i * kernelIvtEntrySize).toNat = 8 * i := by
    rw [BitVec.toNat_add, BitVec.toNat_mul, BitVec.toNat_ofNat, h0, h8]
    omega
  have hlow : (kernelIvtBase + BitVec.ofNat 32 i * kernelIvtEntrySize + 0).toNat = 8 * i := by
    rw [BitVec.toNat_add, hslot, h0]
    omega
  have hhigh : (kernelIvtBase + BitVec.ofNat 32 i * kernelIvtEntrySize + 4).toNat = 8 * i + 4 := by
    rw [BitVec.toNat_add, hslot, h4]
    omega
  rw [ivtWriteEntry, hlow, hhigh]

/-- An entry that has been written is a 64-bit word. -/
theorem leNat_ivtWriteEntry {i : ℕ} (hi : i < kernelIvtSize) (handlerAddr : BitVec 32) (m : Bytes) :
    leNat (ivtWriteEntry (BitVec.ofNat 32 i) handlerAddr m) (8 * i) 8 = handlerAddr.toNat := by
  rw [ivtWriteEntry_eq hi, leNat_add _ _ 4 4, leNat_leStore_of_disjoint (.inl le_rfl),
    leNat_leStore, leNat_leStore]
  have hlt := handlerAddr.isLt
  omega

theorem ivtWriteEntry_outside {i x : ℕ} (hi : i < kernelIvtSize) (hx : x < 8 * i ∨ 8 * i + 8 ≤ x)
    (handlerAddr : BitVec 32) (m : Bytes) :
    ivtWriteEntry (BitVec.ofNat 32 i) handlerAddr m x = m x := by
  rw [ivtWriteEntry_eq hi, leStore_of_not_mem (by omega), leStore_of_not_mem (by omega)]

/-- The first `n` rounds of the loop. -/
theorem ivt_rounds (irqStubEntry : BitVec 32) {n : ℕ} (hn : n ≤ kernelIvtSize) (m : Bytes) :
    (∀ i < n, leNat ((List.range n).foldl
      (fun m i => ivtWriteEntry (BitVec.ofNat 32 i) irqStubEntry m) m) (8 * i) 8 =
        irqStubEntry.toNat) ∧
      ∀ x, 8 * n ≤ x → (List.range n).foldl
        (fun m i => ivtWriteEntry (BitVec.ofNat 32 i) irqStubEntry m) m x = m x := by
  induction n with
  | zero => exact ⟨by simp, fun _ _ => rfl⟩
  | succ n ih =>
    obtain ⟨hentries, houtside⟩ := ih (by omega)
    rw [List.range_succ, List.foldl_append]
    refine ⟨fun i hi => ?_, fun x hx => ?_⟩
    · by_cases hin : i = n
      · subst hin
        exact leNat_ivtWriteEntry hn _ _
      · rw [← hentries i (by omega)]
        refine leNat_congr fun x h1 h2 => ?_
        exact ivtWriteEntry_outside hn (by omega) _ _
    · rw [← houtside x (by omega)]
      exact ivtWriteEntry_outside hn (by omega) _ _

/-- Every vector of the machine leads to the stub, and nothing else is stored. -/
theorem trapInitIvt_spec (irqStubEntry : BitVec 32) (m : Bytes) :
    (∀ n : BitVec 32, n.toNat < ivtSize →
      leNat (trapInitIvt irqStubEntry m) (ivtEntry n).toNat 8 = irqStubEntry.toNat) ∧
    ∀ x, 8 * kernelIvtSize ≤ x → trapInitIvt irqStubEntry m x = m x := by
  obtain ⟨hentries, houtside⟩ := ivt_rounds irqStubEntry le_rfl m
  refine ⟨fun n hn => ?_, houtside⟩
  rw [ivtEntry_toNat hn]
  exact hentries n.toNat hn

end Ivt

/-! ## The kernel's tables -/

/-- The tables are those of the handlers, and the counters have moved by the counts. -/
structure Routes (t₀ : Traps) (handlers : Fin kernelIvtSize → TrapHandler)
    (taken : Fin kernelIvtSize → ℕ) (entered : ℕ) (t : Traps) : Prop where
  ready : t.ready ≠ 0
  table : ∀ k, t.table k = some (handlers k)
  mask : ∀ k : Fin kernelIvtSize, enabledVector (BitVec.ofNat 32 k) =
    (t.mask ⟨k / 32, maskWord_lt k.isLt⟩ &&& (1 : BitVec 32) <<< (k.val % 32) != 0)
  counts : ∀ k, t.counts k = t₀.counts k + BitVec.ofNat 32 (taken k)
  dispatchCount : t.frame.dispatchCount = t₀.frame.dispatchCount + BitVec.ofNat 32 entered

section Tables

variable {t₀ t : Traps} {handlers : Fin kernelIvtSize → TrapHandler}
  {taken : Fin kernelIvtSize → ℕ} {entered : ℕ}

theorem trapInit_routes (t₀ : Traps) : Routes t₀ initialHandlers (fun _ => 0) 0 (trapInit t₀) where
  ready := show (1 : BitVec 32) ≠ 0 by decide
  table k := by
    have h : ∀ k, (trapInit t₀).table k = some (initialHandlers k) := by
      change ∀ k, (trapInit .zero).table k = some (initialHandlers k)
      decide +kernel
    exact h k
  mask k := by
    have h : ∀ k : Fin kernelIvtSize, enabledVector (BitVec.ofNat 32 k) =
        ((trapInit t₀).mask ⟨k / 32, maskWord_lt k.isLt⟩ &&&
          (1 : BitVec 32) <<< (k.val % 32) != 0) := by
      change ∀ k : Fin kernelIvtSize, enabledVector (BitVec.ofNat 32 k) =
        ((trapInit .zero).mask ⟨k / 32, maskWord_lt k.isLt⟩ &&&
          (1 : BitVec 32) <<< (k.val % 32) != 0)
      decide +kernel
    exact h k
  counts k := (BitVec.add_zero _).symm
  dispatchCount := (BitVec.add_zero _).symm

theorem countIrq_of_lt {n : BitVec 32} (h : n.toNat < kernelIvtSize) (t : Traps) :
    t.countIrq n =
      { t with counts := Function.update t.counts ⟨n.toNat, h⟩ (t.counts ⟨n.toNat, h⟩ + 1) } :=
  dif_pos h

theorem enabledVector_lt {n : BitVec 32} (h : enabledVector n = true) :
    n.toNat < kernelIvtSize := by
  obtain ⟨v, -, hv⟩ := List.any_eq_true.mp h
  rw [of_decide_eq_true hv]
  exact v.1.isLt

/-- The test of `trap_dispatch`. -/
theorem Routes.enabled_iff (h : Routes t₀ handlers taken entered t) {n : BitVec 32}
    (hn : n.toNat < kernelIvtSize) : enabledVector n = true ↔
      t.mask ⟨n.toNat / 32, maskWord_lt hn⟩ &&& (1 : BitVec 32) <<< (n % 32) ≠ 0 := by
  have hmask := h.mask ⟨n.toNat, hn⟩
  have hshift : (n % 32).toNat = n.toNat % 32 := BitVec.toNat_umod
  rw [BitVec.ofNat_toNat, BitVec.setWidth_eq] at hmask
  rw [hmask, BitVec.shiftLeft_eq', hshift]
  exact bne_iff_ne

/-- A registered handler does what its name says, and counts when it does. -/
theorem TrapHandler.run_spec (stub : SyscallRegs) {n : BitVec 32} (hn : n.toNat < kernelIvtSize)
    (t : Traps) (handler : TrapHandler) :
    (handler.run stub n t).1 = handler.actions stub n ∧
      (handler.run stub n t).2.table = t.table ∧ (handler.run stub n t).2.mask = t.mask ∧
      (handler.run stub n t).2.ready = t.ready ∧ (handler.run stub n t).2.frame = t.frame ∧
      ∀ k, (handler.run stub n t).2.counts k =
        t.counts k + BitVec.ofNat 32 (if n.toNat = k ∧ handler.counts then 1 else 0) := by
  have hcount : ∀ k : Fin kernelIvtSize, (t.countIrq n).counts k =
      t.counts k + BitVec.ofNat 32 (if n.toNat = k then 1 else 0) := by
    intro k
    rw [countIrq_of_lt hn]
    by_cases hk : k = ⟨n.toNat, hn⟩
    · subst hk
      rw [if_pos rfl]
      exact Function.update_self _ _ _
    · have hne : n.toNat ≠ k := fun heq => hk (Fin.ext heq.symm)
      rw [if_neg hne]
      exact (Function.update_of_ne hk _ _).trans (BitVec.add_zero _).symm
  have hsame : t.countIrq n = { t with counts := (t.countIrq n).counts } := by
    rw [countIrq_of_lt hn]
  cases handler
  case irqDivideByZero | callback =>
    exact ⟨rfl, rfl, rfl, rfl, rfl, fun k => by simp [TrapHandler.counts, run]⟩
  all_goals
    simp only [run, actions, TrapHandler.counts, and_true]
    rw [hsame]
    exact ⟨trivial, rfl, rfl, rfl, rfl, hcount⟩

/-- What an interrupt does. -/
theorem Routes.interrupt (h : Routes t₀ handlers taken entered t) (stub : SyscallRegs)
    (ticks n : BitVec 32) :
    (irqCommonEntry stub ticks n t).1 = routeActions handlers (.interrupt stub ticks n) ∧
      Routes t₀ handlers (fun k => taken k + routeCounts handlers k (.interrupt stub ticks n))
        (entered + 1) (irqCommonEntry stub ticks n t).2 := by
  have hframe : t.frame.dispatchCount + 1 =
      t₀.frame.dispatchCount + BitVec.ofNat 32 (entered + 1) := by
    rw [h.dispatchCount, BitVec.ofNat_add, BitVec.add_assoc]
    rfl
  have hstill (hdrop : enabledVector n = false) :
      ([] : List TrapAction) = routeActions handlers (.interrupt stub ticks n) ∧
        Routes t₀ handlers (fun k => taken k + routeCounts handlers k (.interrupt stub ticks n))
          (entered + 1) { t with frame := ⟨n, t.frame.dispatchCount + 1, ticks⟩ } := by
    have hcounts (k : Fin kernelIvtSize) :
        routeCounts handlers k (.interrupt stub ticks n) = 0 := by simp [routeCounts, hdrop]
    refine ⟨by simp [routeActions, hdrop], h.ready, h.table, h.mask, fun k => ?_, hframe⟩
    rw [hcounts, add_zero]
    exact h.counts k
  unfold irqCommonEntry trapDispatch
  by_cases hn : n.toNat < kernelIvtSize
  · rw [dif_pos hn, if_neg h.ready]
    by_cases hbit : t.mask ⟨n.toNat / 32, maskWord_lt hn⟩ &&& (1 : BitVec 32) <<< (n % 32) = 0
    · have hdrop : enabledVector n = false :=
        Bool.eq_false_iff.mpr fun hen => (h.enabled_iff hn).mp hen hbit
      rw [if_pos hbit]
      exact hstill hdrop
    · have hen : enabledVector n = true := (h.enabled_iff hn).mpr hbit
      have hidx : Fin.ofNat kernelIvtSize n.toNat = ⟨n.toNat, hn⟩ :=
        Fin.ext (Nat.mod_eq_of_lt hn)
      rw [if_neg hbit]
      dsimp only
      rw [h.table]
      obtain ⟨hactions, htable, hmask, hready, hfr, hcounts⟩ := TrapHandler.run_spec stub hn
        { t with frame := ⟨n, t.frame.dispatchCount + 1, ticks⟩ } (handlers ⟨n.toNat, hn⟩)
      refine ⟨?_, fun hz => h.ready (hready.symm.trans hz), fun k => ?_, fun k => ?_, fun k => ?_,
        ?_⟩
      · rw [routeActions, if_pos hen, hidx]
        exact hactions
      · rw [htable]
        exact h.table k
      · rw [hmask]
        exact h.mask k
      · rw [hcounts, h.counts, BitVec.ofNat_add, BitVec.add_assoc, routeCounts]
        congr 3
        by_cases hk : n.toNat = k
        · simp [hen, hk]
        · simp [hk]
      · rw [hfr]
        exact hframe
  · rw [dif_neg hn]
    exact hstill (Bool.eq_false_iff.mpr fun hen => hn (enabledVector_lt hen))

theorem Routes.register (h : Routes t₀ handlers taken entered t) (n : BitVec 32)
    (handler : Option TrapHandler) :
    Routes t₀ (routeNext handlers (.register n handler)) taken entered
      (trapRegister n handler t) := by
  unfold trapRegister
  by_cases hn : n.toNat < kernelIvtSize
  · rw [dif_pos hn]
    refine ⟨h.ready, fun k => ?_, h.mask, h.counts, h.dispatchCount⟩
    by_cases hk : k = ⟨n.toNat, hn⟩
    · subst hk
      exact (Function.update_self _ _ _).trans (congrArg some (if_pos rfl).symm)
    · have hne : ¬ n.toNat = k := fun heq => hk (Fin.ext heq.symm)
      refine (Function.update_of_ne hk _ _).trans ((h.table k).trans ?_)
      exact congrArg some (if_neg hne).symm
  · rw [dif_neg hn]
    refine ⟨h.ready, fun k => (h.table k).trans ?_, h.mask, h.counts, h.dispatchCount⟩
    have hne : ¬ n.toNat = k := fun heq => hn (heq ▸ k.isLt)
    exact congrArg some (if_neg hne).symm

theorem Routes.next (h : Routes t₀ handlers taken entered t) (l : TrapLabel) :
    trapActions t l = routeActions handlers l ∧
      Routes t₀ (routeNext handlers l) (fun k => taken k + routeCounts handlers k l)
        (entered + if l.isInterrupt then 1 else 0) (t.next l).2 := by
  cases l with
  | register n handler => exact ⟨rfl, h.register n handler⟩
  | interrupt stub ticks n => exact h.interrupt stub ticks n

end Tables

/-! ## Runs -/

section Routed

variable (handlers : Fin kernelIvtSize → TrapHandler)

/-- The handlers at the end of a run. -/
def routeAfter (ls : List TrapLabel) : Fin kernelIvtSize → TrapHandler :=
  ls.foldl routeNext handlers

@[simp] theorem routeAfter_snoc (ls : List TrapLabel) (l : TrapLabel) :
    routeAfter handlers (ls ++ [l]) = routeNext (routeAfter handlers ls) l :=
  List.foldl_append

theorem routed_snoc (ls : List TrapLabel) (l : TrapLabel) :
    routed handlers (ls ++ [l]) =
      routed handlers ls ++ routeActions (routeAfter handlers ls) l := by
  induction ls generalizing handlers with
  | nil => simp [routed, routeAfter]
  | cons l' ls ih => simp [routed, routeAfter, ih]

theorem counted_snoc (k : Fin kernelIvtSize) (ls : List TrapLabel) (l : TrapLabel) :
    counted handlers k (ls ++ [l]) =
      counted handlers k ls + routeCounts (routeAfter handlers ls) k l := by
  induction ls generalizing handlers with
  | nil => simp [counted, routeAfter]
  | cons l' ls ih => simp [counted, routeAfter, ih, Nat.add_assoc]

end Routed

/-- After any run, the tables are those of the last registrations, and what was done is what they
say for each interrupt in turn. -/
theorem traps_run {t₀ : Traps} {ls : List TrapLabel} {q : Traps × List TrapAction}
    (h : Run (traps.logged trapActions) (trapInit t₀, []) ls q) :
    q.2 = routed initialHandlers ls ∧
      Routes t₀ (routeAfter initialHandlers ls) (fun k => counted initialHandlers k ls)
        (ls.countP TrapLabel.isInterrupt) q.1 := by
  induction h with
  | nil => exact ⟨rfl, trapInit_routes t₀⟩
  | @snoc ls l p q _ hstep ih =>
    obtain ⟨⟨-, hnext⟩, hlog⟩ := hstep
    obtain ⟨hactions, hroutes⟩ := ih.2.next l
    rw [hlog, ih.1, hactions, ← routed_snoc]
    refine ⟨rfl, ?_⟩
    rw [hnext, routeAfter_snoc, List.countP_append, List.countP_singleton]
    simp only [counted_snoc]
    exact hroutes

/-- `trap_init` leads every vector of the machine to the stub, and stores nothing else. From then
on, whatever is registered, an interrupt of one of the six enabled vectors runs the handler that
was registered last for it, on the registers of the core that was interrupted; no other vector
runs anything. The handlers that count have counted the interrupts they were run for. -/
theorem trap_init_routes (irqStubEntry : BitVec 32) (m : Bytes) (t₀ t : Traps)
    (ls : List TrapLabel) (log : List TrapAction)
    (h : Run (traps.logged trapActions) (trapInit t₀, []) ls (t, log)) :
    (∀ n : BitVec 32, n.toNat < ivtSize →
      leNat (trapInitIvt irqStubEntry m) (ivtEntry n).toNat 8 = irqStubEntry.toNat) ∧
    (∀ x, 8 * kernelIvtSize ≤ x → trapInitIvt irqStubEntry m x = m x) ∧
    (∀ (σ : StubSymbols) (cpu : Vcpu) (c : ℕ) (n : BitVec 32) (w : Vm), HandedOver σ cpu c n w →
      ∀ ticks, irqCommonEntryFromStub σ w.memory ticks t =
        t.next (.interrupt cpu.syscallRegs ticks n)) ∧
    log = routed initialHandlers ls ∧
    (∀ k, t.counts k = t₀.counts k + BitVec.ofNat 32 (counted initialHandlers k ls)) ∧
    t.frame.dispatchCount =
      t₀.frame.dispatchCount + BitVec.ofNat 32 (ls.countP TrapLabel.isInterrupt) := by
  obtain ⟨hentries, houtside⟩ := trapInitIvt_spec irqStubEntry m
  obtain ⟨hlog, hroutes⟩ := traps_run h
  exact ⟨hentries, houtside, fun _ _ _ _ _ hw ticks => hw.irqCommonEntryFromStub ticks t, hlog,
    hroutes.counts, hroutes.dispatchCount⟩

/-- A serial interrupt, a handler for the timer in place of the kernel's, and a timer interrupt. -/
theorem trap_init_routes_replaced :
    ∃ t log, Run (traps.logged trapActions) (trapInit .zero, [])
      [.interrupt ⟨0, 0, 0, 0, 0, 0, 0⟩ 7 3, .register 4 (some (.callback 0x2000)),
        .interrupt ⟨0, 0, 0, 0, 0, 0, 0⟩ 8 4] (t, log) ∧
      log = [.serialDrainRx, .callback 0x2000 4] ∧ t.counts 3 = 1 ∧ t.counts 4 = 0 := by
  let next (p : Traps × List TrapAction) (l : TrapLabel) : Traps × List TrapAction :=
    ((p.1.next l).2, p.2 ++ trapActions p.1 l)
  have hfirst : Run (traps.logged trapActions) (trapInit .zero, [])
      [.interrupt ⟨0, 0, 0, 0, 0, 0, 0⟩ 7 3] (next (trapInit .zero, []) _) :=
    Run.nil.snoc ⟨⟨by decide +kernel, rfl⟩, rfl⟩
  have hsecond := hfirst.snoc (l := .register 4 (some (.callback 0x2000)))
    (u := next (next (trapInit .zero, []) _) _) ⟨⟨by decide +kernel, rfl⟩, rfl⟩
  have hthird := hsecond.snoc (l := .interrupt ⟨0, 0, 0, 0, 0, 0, 0⟩ 8 4)
    (u := next (next (next (trapInit .zero, []) _) _) _) ⟨⟨by decide +kernel, rfl⟩, rfl⟩
  obtain ⟨-, -, -, hlog, hcounts, -⟩ :=
    trap_init_routes 0x1000 (fun _ => 0) .zero _ _ _ hthird
  refine ⟨_, _, hthird, hlog.trans (by decide +kernel), (hcounts 3).trans (by decide +kernel),
    (hcounts 4).trans (by decide +kernel)⟩

end LampVm
