import LampVm.ForwardCopy
import LampVm.LogicOps

/-!
# The block instructions

`MEMCPY` and `MEMSET` on ranges of plain RAM. The loops work on the memory alone, so everything else
is as the fetch left it.
-/
namespace LampVm

open ByteOrder Contract ForwardCopy Transition

section Loops

variable {vm : Vm} {dest src base : BitVec 32} {n k : ℕ}

theorem leStore_one (m : Bytes) (a : ℕ) (v : BitVec 8) :
    leStore m a 1 v.toNat = Function.update m a v := by
  rw [leStore_succ, leStore_zero, pow_zero, Nat.div_one, BitVec.ofNat_toNat, BitVec.setWidth_eq,
    Nat.add_zero]

theorem PlainRam.byte (h : PlainRam vm base n) (hk : k < n) :
    PlainRam vm (base + BitVec.ofNat 32 k) 1 := by
  have hadd := h.toNat_add hk
  exact h.sub (by omega) (by omega)

theorem ofNat_succ (k : ℕ) : BitVec.ofNat 32 k + 1 = BitVec.ofNat 32 (k + 1) := by
  rw [BitVec.ofNat_add]
  rfl

/-- The rest of the loop, when `k` bytes have been copied. -/
theorem memcpyLoop_run (hdev : vm.mmioDevices = registeredDevices vm.memorySize)
    (hdest : PlainRam vm dest n) (hsrc : PlainRam vm src n) {j : ℕ} (hn : k + j = n) :
    memcpyLoop dest src j (BitVec.ofNat 32 k)
        (vm.withMemory (copyUp vm.memory dest.toNat src.toNat k)) =
      .ok ((), vm.withMemory (copyUp vm.memory dest.toNat src.toNat n)) := by
  induction j generalizing k with
  | zero =>
    obtain rfl : k = n := hn
    rfl
  | succ j ih =>
    have hd := hdest.byte (show k < n by omega)
    have hs := hsrc.byte (show k < n by omega)
    have hsame (m : Bytes) :
        (vm.withMemory m).mmioDevices = registeredDevices (vm.withMemory m).memorySize := hdev
    rw [memcpyLoop, bind_ok (vmRead8_plain (hsame _) (hs.withMemory _)),
      bind_ok (vmWrite8_plain (hsame _) (hd.withMemory _) _), leStore_one, ofNat_succ,
      hdest.toNat_add (by omega), hsrc.toNat_add (by omega)]
    exact ih (by omega)

theorem memsetLoop_run (hdev : vm.mmioDevices = registeredDevices vm.memorySize)
    (hbase : PlainRam vm base n) (v : BitVec 8) {j : ℕ} (hn : k + j = n) :
    memsetLoop base v j (BitVec.ofNat 32 k)
        (vm.withMemory (fillUp vm.memory base.toNat v k)) =
      .ok ((), vm.withMemory (fillUp vm.memory base.toNat v n)) := by
  induction j generalizing k with
  | zero =>
    obtain rfl : k = n := hn
    rfl
  | succ j ih =>
    have hb := hbase.byte (show k < n by omega)
    have hsame (m : Bytes) :
        (vm.withMemory m).mmioDevices = registeredDevices (vm.withMemory m).memorySize := hdev
    rw [memsetLoop, bind_ok (vmWrite8_plain (hsame _) (hb.withMemory _) _), leStore_one, ofNat_succ,
      hbase.toNat_add (by omega)]
    exact ih (by omega)

end Loops

/-! ## The instructions -/

section Instructions

variable {M : ℕ} {smpCores : ℤ} {s : Vm} {c : ℕ}

/-- The instruction has changed nothing but the memory; the fetch has advanced the core. -/
structure OnlyMemory (s : Vm) (c : ℕ) (t : Vm) : Prop where
  state : t = (s.fetched c).withMemory t.memory
  regs : ∀ d, (t.cpus d).regs = (s.cpus d).regs
  flags : ∀ d, (t.cpus d).flags = (s.cpus d).flags

theorem fetched_core (s : Vm) (c d : ℕ) :
    ((s.fetched c).cpus d).regs = (s.cpus d).regs ∧
      ((s.fetched c).cpus d).flags = (s.cpus d).flags := by
  unfold Vm.fetched
  by_cases hd : d = c
  · subst hd
    rw [setCpu_cpus_self]
    exact ⟨rfl, rfl⟩
  · rw [setCpu_cpus_of_ne _ _ hd]
    exact ⟨rfl, rfl⟩

theorem onlyMemory_withMemory (s : Vm) (c : ℕ) (m : Bytes) :
    OnlyMemory s c ((s.fetched c).withMemory m) :=
  ⟨rfl, fun d => (fetched_core s c d).1, fun d => (fetched_core s c d).2⟩

theorem PlainRam.fetched {a : BitVec 32} {n : ℕ} (h : PlainRam s a n) :
    PlainRam (s.fetched c) a n :=
  ⟨h.inRam, h.inSpace, h.noDevice⟩

theorem memcpy_instruction (hdev : s.mmioDevices = registeredDevices s.memorySize)
    (hfetch : inRam s (s.cpus c).fetchIp 8) (hrd : IsReg (s.nextInst c).rd)
    (hrs1 : IsReg (s.nextInst c).rs1) (hop : (s.nextInst c).op = Opcode.memcpy.code)
    (hdest : PlainRam s (s.regValue c (s.nextInst c).rd) (s.nextInst c).imm.toNat)
    (hsrc : PlainRam s (s.regValue c (s.nextInst c).rs1) (s.nextInst c).imm.toNat) :
    vmInstructionCase c s = .ok ((), (s.fetched c).withMemory
      (copyUp s.memory (s.regValue c (s.nextInst c).rd).toNat
        (s.regValue c (s.nextInst c).rs1).toNat (s.nextInst c).imm.toNat)) := by
  rw [vmInstructionCase_of_inRam hfetch hop, execute, bind_ok (readReg_regValue hrd),
    bind_ok (readReg_regValue hrs1), fetched_regValue, fetched_regValue]
  have hdev' : (s.fetched c).mmioDevices = registeredDevices (s.fetched c).memorySize := hdev
  exact memcpyLoop_run hdev' hdest.fetched hsrc.fetched (Nat.zero_add _)

theorem memset_instruction (hdev : s.mmioDevices = registeredDevices s.memorySize)
    (hfetch : inRam s (s.cpus c).fetchIp 8) (hrd : IsReg (s.nextInst c).rd)
    (hrs1 : IsReg (s.nextInst c).rs1) (hop : (s.nextInst c).op = Opcode.memset.code)
    (hdest : PlainRam s (s.regValue c (s.nextInst c).rd) (s.nextInst c).imm.toNat) :
    vmInstructionCase c s = .ok ((), (s.fetched c).withMemory
      (fillUp s.memory (s.regValue c (s.nextInst c).rd).toNat
        ((s.regValue c (s.nextInst c).rs1).setWidth 8) (s.nextInst c).imm.toNat)) := by
  rw [vmInstructionCase_of_inRam hfetch hop, execute, bind_ok (readReg_regValue hrd),
    bind_ok (readReg_regValue hrs1), fetched_regValue, fetched_regValue]
  have hdev' : (s.fetched c).mmioDevices = registeredDevices (s.fetched c).memorySize := hdev
  exact memsetLoop_run hdev' hdest.fetched _ (Nat.zero_add _)

theorem block_instructions (h : Reachable (machine M smpCores) s)
    (hfetch : inRam s (s.cpus c).fetchIp 8) (hrd : IsReg (s.nextInst c).rd)
    (hrs1 : IsReg (s.nextInst c).rs1) :
    let i := s.nextInst c
    let dest := s.regValue c i.rd
    let src := s.regValue c i.rs1
    let count := i.imm.toNat
    (i.op = Opcode.memcpy.code → PlainRam s dest count → PlainRam s src count →
      (dest.toNat + count ≤ src.toNat ∨ src.toNat + count ≤ dest.toNat ∨
        dest.toNat ≤ src.toNat) →
      ∃ t, vmInstructionCase c s = .ok ((), t) ∧ OnlyMemory s c t ∧
        (∀ k < count, t.memory (dest.toNat + k) = s.memory (src.toNat + k)) ∧
        ∀ x, x < dest.toNat ∨ dest.toNat + count ≤ x → t.memory x = s.memory x) ∧
    (i.op = Opcode.memset.code → PlainRam s dest count →
      ∃ t, vmInstructionCase c s = .ok ((), t) ∧ OnlyMemory s c t ∧
        (∀ k < count, t.memory (dest.toNat + k) = src.setWidth 8) ∧
        ∀ x, x < dest.toNat ∨ dest.toNat + count ≤ x → t.memory x = s.memory x) := by
  have hinv := reachable_inv h
  have hdev : s.mmioDevices = registeredDevices s.memorySize := by
    rw [hinv.devices, hinv.memorySize]
  intro i dest src count
  refine ⟨fun hop hdest hsrc horder => ?_, fun hop hdest => ?_⟩
  · have hunread : dest.toNat ≤ src.toNat ∨ src.toNat + count ≤ dest.toNat := by omega
    exact ⟨_, memcpy_instruction hdev hfetch hrd hrs1 hop hdest hsrc, onlyMemory_withMemory s c _,
      fun k hk => copyUp_of_lt hunread hk, fun x hx => copyUp_of_outside hx⟩
  · exact ⟨_, memset_instruction hdev hfetch hrd hrs1 hop hdest, onlyMemory_withMemory s c _,
      fun k hk => fillUp_of_lt hk, fun x hx => fillUp_of_outside hx⟩

/-- Sixteen bytes of the vector table, copied to the first megabyte boundary. -/
theorem block_instructions_memcpy : ∃ s t, Reachable (machine memSize 1) s ∧
    vmInstructionCase 0 s = .ok ((), t) ∧
    ∀ k < 16, t.memory (1048576 + k) = s.memory (0 + k) := by
  obtain ⟨s, hs, hfetch, hinst, hcpu⟩ := exists_second ⟨Opcode.movi.code, 1, 0, 0, 1048576⟩
    ⟨Opcode.memcpy.code, 1, 0, 0, 16⟩ rfl
    (fun cpu => cpu.withResult (show IsReg 1 by decide) 1048576) rfl
    fun _ => setLogic_of_isReg (show IsReg 1 by decide) 1048576
  have hinv := reachable_inv hs
  have hdest : s.regValue 0 1 = 1048576 := by
    rw [Vm.regValue, hcpu]
    rfl
  have hsrc : s.regValue 0 0 = 0 := by
    rw [Vm.regValue, hcpu]
    rfl
  have hplain (a : BitVec 32) (ha : a.toNat + 16 ≤ memSize) (ho : OutsideWindows a.toNat 16) :
      PlainRam s a 16 :=
    plainRam_of_outsideWindows hinv.memorySize hinv.devices ha ho
  have hrun := (block_instructions hs hfetch (by rw [hinst]; exact (show IsReg 1 by decide))
    (by rw [hinst]; exact (show IsReg 0 by decide))).1
  rw [hinst, hdest, hsrc] at hrun
  obtain ⟨t, ht, -, hcopied, -⟩ := hrun rfl (hplain _ (by decide) (by decide))
    (hplain _ (by decide) (by decide)) (by decide)
  exact ⟨s, t, hs, ht, hcopied⟩

end Instructions

end LampVm
