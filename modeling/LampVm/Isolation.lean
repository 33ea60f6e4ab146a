import LampVm.Bounds
import LampVm.Serial

/-!
# Cores and each other's state

An instruction changes its own core, memory and devices. Three kinds of instructions reach
another core: `STARTAP` and `IPI` on purpose, `IN` from `KEYBOARD` through the pending
vectors of core 0, which take the serial interrupt. A division by zero is a fourth. Its
interrupt is raised on core 0, whichever core divides.
-/
namespace LampVm

open Contract Transition

/-! ## The other cores -/

/-- The state of core `d` is the same in both machines. -/
structure SameCore (d : ℕ) (s t : Vm) : Prop where
  regs : (t.cpus d).regs = (s.cpus d).regs
  ip : (t.cpus d).ip = (s.cpus d).ip
  flags : (t.cpus d).flags = (s.cpus d).flags
  csp : (t.cpus d).csp = (s.cpus d).csp
  dsp : (t.cpus d).dsp = (s.cpus d).dsp
  isp : (t.cpus d).isp = (s.cpus d).isp
  inInterrupt : (t.cpus d).inInterrupt = (s.cpus d).inInterrupt
  irqMasked : (t.cpus d).irqMasked = (s.cpus d).irqMasked
  released : t.coreReleased d = s.coreReleased d
  pending : ∀ w, w < irqBitmapWords →
    t.interruptBitmap (d * irqBitmapWords + w) = s.interruptBitmap (d * irqBitmapWords + w)

theorem SameCore.trans {d : ℕ} {s t u : Vm} (h : SameCore d s t) (h' : SameCore d t u) :
    SameCore d s u where
  regs := h'.regs.trans h.regs
  ip := h'.ip.trans h.ip
  flags := h'.flags.trans h.flags
  csp := h'.csp.trans h.csp
  dsp := h'.dsp.trans h.dsp
  isp := h'.isp.trans h.isp
  inInterrupt := h'.inInterrupt.trans h.inInterrupt
  irqMasked := h'.irqMasked.trans h.irqMasked
  released := h'.released.trans h.released
  pending w hw := (h'.pending w hw).trans (h.pending w hw)

/-- All that belongs to one core. -/
def Vm.coreState (vm : Vm) (d : ℕ) : Vcpu × Bool × (Fin irqBitmapWords → BitVec 64) :=
  (vm.cpus d, vm.coreReleased d, fun w => vm.interruptBitmap (d * irqBitmapWords + w))

theorem sameCore_of_coreState {d : ℕ} {s t : Vm} (h : t.coreState d = s.coreState d) :
    SameCore d s t := by
  simp only [Vm.coreState, Prod.mk.injEq] at h
  obtain ⟨hcpu, hreleased, hwords⟩ := h
  have hpending : ∀ w, w < irqBitmapWords →
      t.interruptBitmap (d * irqBitmapWords + w) = s.interruptBitmap (d * irqBitmapWords + w) :=
    fun w hw => congrFun hwords ⟨w, hw⟩
  constructor
  all_goals first | exact hreleased | exact hpending | rw [hcpu]

/-- All that belongs to the cores besides `c`. -/
def Vm.others (vm : Vm) (c : ℕ) : (d : ℕ) → d ≠ c →
    Vcpu × Bool × (Fin irqBitmapWords → BitVec 64) := fun d _ => vm.coreState d

theorem coreState_of_others {c d : ℕ} {s t : Vm} (h : t.others c = s.others c) (hd : d ≠ c) :
    t.coreState d = s.coreState d := congrFun (congrFun h d) hd

section Isolation

variable {c : ℕ} {i : Inst} {op : Opcode} {vm vm' : Vm}

theorem others_stable (vm : Vm) (c : ℕ) : Stable (fun s => s.others c = vm.others c) fun _ => True :=
  .of_view _ (fun _ => rfl) fun _ _ _ _ => rfl

theorem setCpu_others (vm : Vm) (c : ℕ) (cpu : Vcpu) : (vm.setCpu c cpu).others c = vm.others c := by
  funext d hd
  simp only [Vm.others, Vm.coreState, setCpu_cpus_of_ne _ _ hd]
  rfl

theorem others_coreFree (vm : Vm) (c : ℕ) : CoreFree c fun s => s.others c = vm.others c :=
  fun s cpu hs _ => (setCpu_others s c cpu).trans hs

theorem others_portFree (vm : Vm) (c : ℕ) : PortFree fun s => s.others c = vm.others c where
  io _ _ hs := hs
  disk _ _ hs := hs
  stdout _ _ hs := hs

/-- The operations of an instruction that none of the exceptions concerns. -/
theorem isolated_stepRules (vm : Vm) (c : ℕ) (hi : i.Valid) (hstart : op ≠ .startap)
    (hipi : op ≠ .ipi) (hin : op ≠ .in) (hdiv : op ≠ .div) (hmod : op ≠ .mod) :
    StepRules (fun s => s.others c = vm.others c) (fun _ => True) c i op := by
  refine (others_coreFree vm c).stepRules hi.admitted (others_stable vm c).memory (fun _ => trivial)
    (fun _ => trivial) (others_portFree vm c) (fun _ hs => hs) (fun h => absurd h hin) ?_
    (fun h => absurd h hstart) fun h => absurd h hipi
  rintro (h | h)
  · exact absurd h hdiv
  · exact absurd h hmod

/-- The divisor is zero. -/
def ZeroDivide (vm : Vm) (c : ℕ) (i : Inst) (op : Opcode) : Prop :=
  (op = .div ∨ op = .mod) ∧ vm.regValue c i.rs2 = 0

theorem execDivide_others (hi : i.Valid) (hdivisor : vm.regValue c i.rs2 ≠ 0)
    {f : BitVec 32 → BitVec 32 → BitVec 32} (h : execDivide c i f vm = .ok ((), vm')) :
    vm'.others c = vm.others c := by
  rw [execDivide_eq, bind_ok (readReg_regValue hi.rs2)] at h
  have hrules : StepRules (fun s => s.others c = vm.others c) (fun _ => True) c i .fence :=
    isolated_stepRules vm c hi (by decide) (by decide) (by decide) (by decide) (by decide)
  exact (hrules.opRules.divideBy f fun hzero => absurd hzero hdivisor).ok rfl h

/-- An instruction that is none of the exceptions leaves the other cores alone. -/
theorem execute_others (hi : i.Valid) (hstart : op ≠ .startap) (hipi : op ≠ .ipi)
    (hport : op = .in → vm.portOf c i ≠ portKeyboard) (hdivisor : ¬ ZeroDivide vm c i op)
    (h : execute c i op vm = .ok ((), vm')) : vm'.others c = vm.others c := by
  by_cases hin : op = .in
  · subst hin
    rw [execute, execIn_eq, bind_ok (readReg_regValue hi.rs1)] at h
    have hrules : StepRules (fun s => s.others c = vm.others c) (fun _ => True) c i .fence :=
      isolated_stepRules vm c hi (by decide) (by decide) (by decide) (by decide) (by decide)
    exact (hrules.opRules.inPort fun hkey => absurd hkey (hport rfl)).ok rfl h
  by_cases hdiv : op = .div
  · subst hdiv
    exact execDivide_others hi (fun hzero => hdivisor ⟨.inl rfl, hzero⟩) h
  by_cases hmod : op = .mod
  · subst hmod
    exact execDivide_others hi (fun hzero => hdivisor ⟨.inr rfl, hzero⟩) h
  exact (isolated_stepRules vm c hi hstart hipi hin hdiv hmod).execute.ok rfl h

/-! ## The exceptions -/

theorem getLsbD_irqBitMask (n : BitVec 32) {k : ℕ} (hk : k < 64) :
    (irqBitMask n).getLsbD k = decide (k = n.toNat % 64) := getLsbD_bit hk

/-- A trigger changes the vectors of its target only. -/
theorem trigger_coreState {target : ℤ} {n : BitVec 32} {d : ℕ} (hd : target ≠ d)
    (h : triggerInterruptTarget target n vm = .ok ((), vm')) :
    vm'.coreState d = vm.coreState d := by
  obtain ⟨-, rfl⟩ | ⟨hvalid, rfl⟩ := triggerInterruptTarget_cases h
  · rfl
  have hwords : ∀ w : Fin irqBitmapWords,
      (vm.setWord (irqWordIndex target.toNat n) (vm.interruptBitmap (irqWordIndex target.toNat n) |||
        irqBitMask n)).interruptBitmap (d * irqBitmapWords + w) =
        vm.interruptBitmap (d * irqBitmapWords + w) := by
    intro w
    refine Function.update_of_ne ?_ _ _
    have hw : w.val < 4 := w.isLt
    change ¬ d * 4 + w.val = target.toNat * 4 + n.toNat / 64
    have hn : ¬ n.toNat ≥ 256 := fun hn => hvalid (.inr (.inr hn))
    omega
  simp only [Vm.coreState, funext hwords]
  rfl

theorem trigger_pending {target : ℤ} {n : BitVec 32} {d m : ℕ} (hm : m < ivtSize)
    (h : triggerInterruptTarget target n vm = .ok ((), vm')) :
    vm'.pending d m =
      (vm.pending d m || decide (target = d ∧ d < vm.smpCores ∧ n.toNat = m)) := by
  obtain ⟨hnone, rfl⟩ | ⟨hvalid, rfl⟩ := triggerInterruptTarget_cases h
  · have hnot : ¬ (target = d ∧ d < vm'.smpCores ∧ n.toNat = m) := by
      rintro ⟨rfl, hd, rfl⟩
      omega
    rw [decide_eq_false hnot, Bool.or_false]
  rw [not_or, not_or] at hvalid
  have htarget : target = d ↔ target.toNat = d := by omega
  have hn : n.toNat < ivtSize := not_le.mp hvalid.2.2
  rw [setWord_pending]
  split_ifs with hword
  · rw [BitVec.getLsbD_or, getLsbD_irqBitMask n (Nat.mod_lt _ (by decide)), ← hword]
    refine congrArg _ (decide_eq_decide.mpr ?_)
    rw [vector_of_bit hm hn hword, Prod.mk.injEq, htarget]
    constructor
    · rintro ⟨rfl, rfl⟩
      exact ⟨rfl, by omega, rfl⟩
    · rintro ⟨rfl, -, rfl⟩
      exact ⟨rfl, rfl⟩
  · have hnot : ¬ (target = d ∧ d < vm.smpCores ∧ n.toNat = m) := by
      rintro ⟨htd, -, rfl⟩
      exact hword (by rw [← htarget.mp htd, irqWordIndex])
    rw [decide_eq_false hnot, Bool.or_false]

/-- A trigger of a vector that is pending already changes nothing. -/
theorem trigger_of_pending {target : ℤ} {n : BitVec 32} {d : ℕ} (hd : target.toNat = d)
    (hpending : vm.pending d n.toNat = true)
    (h : triggerInterruptTarget target n vm = .ok ((), vm')) : vm' = vm := by
  obtain ⟨-, rfl⟩ | ⟨-, rfl⟩ := triggerInterruptTarget_cases h
  · rfl
  subst hd
  have hword : vm.interruptBitmap (irqWordIndex target.toNat n) ||| irqBitMask n =
      vm.interruptBitmap (irqWordIndex target.toNat n) := by
    ext k hk
    rw [BitVec.getElem_or, Bool.or_eq_left_iff_imp, ← BitVec.getLsbD_eq_getElem,
      getLsbD_irqBitMask n hk, decide_eq_true_eq, ← BitVec.getLsbD_eq_getElem]
    rintro rfl
    exact hpending
  rw [hword, Vm.setWord, Function.update_eq_self]

/-- What `STARTAP` does: nothing, or it starts a core. -/
theorem execStartap_cases (hi : i.Valid) (h : execStartap c i vm = .ok ((), vm')) :
    vm' = vm ∨ (vm.cpus c).isBsp = true ∧ 0 < (vm.regValue c i.rd).toInt ∧
      (vm.regValue c i.rd).toInt < vm.smpCores ∧
      ∃ entry, vm' = { vm.setCpu (vm.regValue c i.rd).toInt.toNat
          { vm.cpus (vm.regValue c i.rd).toInt.toNat with ip := entry, lastIp := entry } with
        coreReleased := Function.update vm.coreReleased (vm.regValue c i.rd).toInt.toNat true } := by
  obtain ⟨_, _, hcpu, hrest⟩ := bind_eq_ok h
  obtain ⟨rfl, rfl⟩ := Prod.mk.inj (Except.ok.inj hcpu)
  by_cases hbsp : (vm.cpus c).isBsp = true
  · rw [if_neg (not_not.mpr hbsp), bind_ok (readReg_regValue hi.rd),
      bind_ok (readReg_regValue hi.rs1), bind_ok (get_apply vm)] at hrest
    generalize (vm.regValue c i.rd).toInt = target at hrest ⊢
    split_ifs at hrest with hrange
    · exact .inl (Prod.mk.inj (Except.ok.inj hrest)).2.symm
    · have hindex : target.toNat < vm.smpCores := by omega
      rw [checkIndex_of_lt hindex, checkIndex_of_lt hindex] at hrest
      exact .inr ⟨hbsp, by omega, by omega, _, (Prod.mk.inj (Except.ok.inj hrest)).2.symm⟩
  · rw [if_pos hbsp] at hrest
    exact .inl (Prod.mk.inj (Except.ok.inj hrest)).2.symm

end Isolation

/-! ## Every instruction -/

section Instructions

variable {c d : ℕ} {vm vm' : Vm}

theorem fetched_others (vm : Vm) (c : ℕ) : (vm.fetched c).others c = vm.others c :=
  setCpu_others vm c _

theorem fetched_regValue (vm : Vm) (c : ℕ) (r : BitVec 8) :
    (vm.fetched c).regValue c r = vm.regValue c r := by
  simp only [Vm.regValue, Vm.fetched, setCpu_cpus_self]

theorem fetched_flags (vm : Vm) (c : ℕ) : ((vm.fetched c).cpus c).flags = (vm.cpus c).flags := by
  rw [Vm.fetched, setCpu_cpus_self]

theorem fetched_isBsp (vm : Vm) (c : ℕ) : ((vm.fetched c).cpus c).isBsp = (vm.cpus c).isBsp := by
  simp only [Vm.fetched, setCpu_cpus_self]

/-- The next instruction of core `c` is one of those that reach other cores on purpose. -/
def Vm.Reaches (vm : Vm) (c : ℕ) : Prop :=
  (vm.nextInst c).op = Opcode.startap.code ∨ (vm.nextInst c).op = Opcode.ipi.code ∨
    (vm.nextInst c).op = Opcode.in.code ∧ vm.portOf c (vm.nextInst c) = portKeyboard

/-- It divides by zero on a core other than core 0, which has no such vector pending yet. -/
def Vm.StrayDivide (vm : Vm) (c : ℕ) : Prop :=
  ((vm.nextInst c).op = Opcode.div.code ∨ (vm.nextInst c).op = Opcode.mod.code) ∧
    vm.regValue c (vm.nextInst c).rs2 = 0 ∧ c ≠ 0 ∧
    vm.pending 0 intDivideByZero.toNat = false

/-- `STARTAP` by core `c`: the target is started, if core 0 names another core. -/
structure StartsOnly (c : ℕ) (target : ℤ) (s t : Vm) : Prop where
  others : ∀ d, d ≠ c → target ≠ d → t.coreState d = s.coreState d
  started : ∀ d, d ≠ c → target = d →
    t.cpus d = { s.cpus d with ip := (t.cpus d).ip, lastIp := (t.cpus d).lastIp } ∧
      ∀ w, w < irqBitmapWords →
        t.interruptBitmap (d * irqBitmapWords + w) = s.interruptBitmap (d * irqBitmapWords + w)
  issued : ¬ (c = 0 ∧ 0 < target ∧ target < s.smpCores) →
    ∀ d, d ≠ c → t.coreState d = s.coreState d

/-- `IPI` by core `c`: one bit is set. -/
structure SetsOnly (c : ℕ) (target : ℤ) (n : BitVec 32) (s t : Vm) : Prop where
  cpus : ∀ d, d ≠ c → t.cpus d = s.cpus d ∧ t.coreReleased d = s.coreReleased d
  pending : ∀ d m, m < ivtSize →
    t.pending d m = (s.pending d m || decide (target = d ∧ d < s.smpCores ∧ n.toNat = m))

theorem opcode_of_code {b : BitVec 8} {op op' : Opcode} (h : b = op.code) (h' : b = op'.code) :
    op = op' := by
  have hofByte := Opcode.ofByte_code op
  rw [← h, h', Opcode.ofByte_code] at hofByte
  exact (Option.some.inj hofByte).symm

/-- A division by zero triggers the vector of core 0 and does nothing else. -/
theorem zeroDivide_run {i : Inst} {op : Opcode} (hi : i.Valid) (hzero : ZeroDivide vm c i op)
    (hrun : execute c i op vm = .ok ((), vm')) :
    triggerInterruptTarget 0 intDivideByZero vm = .ok ((), vm') := by
  obtain ⟨rfl | rfl, hdivisor⟩ := hzero
  all_goals
    rw [execute, execDivide_eq, bind_ok (readReg_regValue hi.rs2), divideBy,
      if_neg (not_not.mpr hdivisor)] at hrun
    exact hrun

/-- What a trigger on core 0 does to the cores other than `c`. -/
theorem trigger_zero_others (hc : c < vm.smpCores) {n : BitVec 32} (hn : n.toNat < ivtSize)
    (h : triggerInterruptTarget 0 n vm = .ok ((), vm')) :
    (∀ d, d ≠ c → SameCore d vm vm') ↔ c = 0 ∨ vm.pending 0 n.toNat = true := by
  constructor
  · intro hsame
    by_contra hnot
    rw [not_or] at hnot
    have hword := (hsame 0 (Ne.symm hnot.1)).pending (n.toNat / 64) (by
      change n.toNat < 256 at hn
      change n.toNat / 64 < 4
      omega)
    have hset : vm'.pending 0 n.toNat = true := by
      have hcores : 0 < vm.smpCores := by omega
      rw [trigger_pending hn h, decide_eq_true ⟨rfl, hcores, rfl⟩, Bool.or_true]
    rw [Vm.pending, hword] at hset
    exact hnot.2 hset
  · rintro (rfl | hpending) d hd
    · refine sameCore_of_coreState (trigger_coreState ?_ h)
      omega
    · obtain rfl := trigger_of_pending Int.toNat_zero hpending h
      exact sameCore_of_coreState rfl

theorem fetched_coreState (hd : d ≠ c) : (vm.fetched c).coreState d = vm.coreState d :=
  coreState_of_others (fetched_others vm c) hd

theorem sameCore_fetched (hd : d ≠ c) : SameCore d (vm.fetched c) vm' ↔ SameCore d vm vm' :=
  ⟨(sameCore_of_coreState (fetched_coreState hd)).trans,
    (sameCore_of_coreState (fetched_coreState hd).symm).trans⟩

theorem isolated_iff (hc : c < vm.smpCores) (hi : (vm.nextInst c).Valid) {op : Opcode}
    (hop : (vm.nextInst c).op = op.code) (hreach : ¬ vm.Reaches c)
    (hrun : execute c (vm.nextInst c) op (vm.fetched c) = .ok ((), vm')) :
    (∀ d, d ≠ c → SameCore d vm vm') ↔ ¬ vm.StrayDivide c := by
  have hstray : vm.StrayDivide c ↔ ZeroDivide (vm.fetched c) c (vm.nextInst c) op ∧
      ¬ (c = 0 ∨ vm.pending 0 intDivideByZero.toNat = true) := by
    have hcode : ∀ op' : Opcode, (vm.nextInst c).op = op'.code ↔ op = op' :=
      fun op' => ⟨opcode_of_code hop, fun h => h ▸ hop⟩
    rw [Vm.StrayDivide, ZeroDivide, hcode, hcode, fetched_regValue, not_or, Bool.not_eq_true,
      and_assoc]
  have hfetched : (∀ d, d ≠ c → SameCore d vm vm') ↔
      ∀ d, d ≠ c → SameCore d (vm.fetched c) vm' :=
    forall₂_congr fun d hd => (sameCore_fetched hd).symm
  rw [hfetched, hstray]
  by_cases hzero : ZeroDivide (vm.fetched c) c (vm.nextInst c) op
  · have hc' : c < (vm.fetched c).smpCores := hc
    rw [trigger_zero_others hc' (by decide) (zeroDivide_run hi hzero hrun)]
    simp only [hzero, true_and, not_not]
    rfl
  · simp only [hzero, false_and, not_false_eq_true, iff_true]
    intro d hd
    have hothers : vm'.others c = (vm.fetched c).others c := by
      refine execute_others hi ?_ ?_ ?_ hzero hrun
      · rintro rfl
        exact hreach (.inl hop)
      · rintro rfl
        exact hreach (.inr (.inl hop))
      · rintro rfl hport
        rw [Vm.portOf, fetched_regValue] at hport
        exact hreach (.inr (.inr ⟨hop, hport⟩))
    exact sameCore_of_coreState (coreState_of_others hothers hd)

theorem startsOnly_fetched (target : ℤ) : StartsOnly c target vm (vm.fetched c) where
  others _ hd _ := fetched_coreState hd
  started d hd _ := by
    have hcpu : (vm.fetched c).cpus d = vm.cpus d := setCpu_cpus_of_ne _ _ hd
    rw [hcpu]
    exact ⟨rfl, fun _ _ => rfl⟩
  issued _ _ hd := fetched_coreState hd

theorem startsOnly_started {target : ℤ} (hpos : 0 < target) (hlt : target < vm.smpCores)
    (entry : ℕ) : StartsOnly 0 target vm
      { (vm.fetched 0).setCpu target.toNat { (vm.fetched 0).cpus target.toNat with
          ip := entry, lastIp := entry } with
        coreReleased := Function.update (vm.fetched 0).coreReleased target.toNat true } where
  others d hd hne := by
    have hd' : d ≠ target.toNat := by omega
    refine Eq.trans ?_ (fetched_coreState hd)
    simp only [Vm.coreState, Function.update_of_ne hd', setCpu_cpus_of_ne _ _ hd']
    rfl
  started d hd heq := by
    obtain rfl : target.toNat = d := by omega
    have hcpu : (vm.fetched 0).cpus target.toNat = vm.cpus target.toNat := setCpu_cpus_of_ne _ _ hd
    refine ⟨?_, fun _ _ => rfl⟩
    simp only [setCpu_cpus_self, hcpu]
  issued hnot := absurd ⟨rfl, hpos, hlt⟩ hnot

theorem setsOnly_of_trigger {target : ℤ} {n : BitVec 32}
    (h : triggerInterruptTarget target n (vm.fetched c) = .ok ((), vm')) :
    SetsOnly c target n vm vm' where
  cpus d hd := by
    obtain ⟨-, rfl⟩ | ⟨-, rfl⟩ := triggerInterruptTarget_cases h
    · exact ⟨setCpu_cpus_of_ne _ _ hd, rfl⟩
    · exact ⟨setCpu_cpus_of_ne _ _ hd, rfl⟩
  pending d m hm := by
    have hpending : vm'.pending d m = ((vm.fetched c).pending d m || _) := trigger_pending hm h
    exact hpending

/-- In every reachable state core 0 alone is the boot processor. -/
theorem reachable_bsp {memorySize : ℕ} {smpCores : ℤ}
    (h : Reachable (machine memorySize smpCores) vm) (hc : c < vm.smpCores)
    (hbsp : (vm.cpus c).isBsp = true) : c = 0 := by
  have hindex := reachable_index h
  have hidentity := congrArg Prod.snd (hindex.identity c (hindex.smpCores ▸ hc))
  exact of_decide_eq_true (hidentity.symm.trans hbsp)

/-- An instruction of core `c` that is not made to reach other cores leaves them alone, unless
it is a division by zero on a core other than core 0; `STARTAP` starts its target, and `IPI`
sets one bit. Of every reachable state `reachable_bsp` gives the assumption on the boot
processor. -/
theorem core_isolation_iff (hc : c < vm.smpCores) (hi : (vm.nextInst c).Valid)
    (hbsp : (vm.cpus c).isBsp = true → c = 0) (hrun : vmInstructionCase c vm = .ok ((), vm')) :
    (¬ vm.Reaches c → ((∀ d, d ≠ c → SameCore d vm vm') ↔ ¬ vm.StrayDivide c)) ∧
    ((vm.nextInst c).op = Opcode.startap.code →
      StartsOnly c (vm.regValue c (vm.nextInst c).rd).toInt vm vm') ∧
    ((vm.nextInst c).op = Opcode.ipi.code →
      SetsOnly c (vm.regValue c (vm.nextInst c).rd).toInt (vm.regValue c (vm.nextInst c).rs1)
        vm vm') := by
  obtain ⟨op, hop, hexec⟩ := vmInstructionCase_ok hrun
  refine ⟨fun hreach => isolated_iff hc hi hop hreach hexec, fun hstart => ?_, fun hipi => ?_⟩
  · obtain rfl := opcode_of_code hop hstart
    have hcases := execStartap_cases hi hexec
    rw [fetched_regValue, fetched_isBsp] at hcases
    obtain rfl | ⟨hflag, hpos, hlt, entry, rfl⟩ := hcases
    · exact startsOnly_fetched _
    · obtain rfl := hbsp hflag
      have hlt' : (vm.regValue 0 (vm.nextInst 0).rd).toInt < vm.smpCores := hlt
      exact startsOnly_started hpos hlt' entry
  · obtain rfl := opcode_of_code hop hipi
    rw [execute, bind_ok (readReg_regValue hi.rd), bind_ok (readReg_regValue hi.rs1),
      fetched_regValue, fetched_regValue] at hexec
    exact setsOnly_of_trigger hexec

/-- Two running cores, the second about to execute an instruction with opcode `b`. -/
def twoCores (b : BitVec 8) : Vm :=
  { Vm.allocated ⟨fun _ => 0, fun _ => 0, 0⟩ false memSize 2 (BitVec.ofNat 32 programBase) with
    memory := fun x => if x = programBase + 7 then b else 0
    coreReleased := fun _ => true }

theorem twoCores_inRam (b : BitVec 8) :
    inRam (twoCores b) ((twoCores b).cpus 1).fetchIp 8 := by
  have hip : ((twoCores b).cpus 1).fetchIp = BitVec.ofNat 32 programBase := rfl
  rw [hip]
  change (BitVec.ofNat 32 programBase).toNat + 8 ≤ memSize
  decide

/-- The second core executes `PAUSE`. -/
theorem core_isolation_pause : ∃ vm', vmInstructionCase 1 (twoCores Opcode.pause.code) =
    .ok ((), vm') ∧ ∀ d, d ≠ 1 → SameCore d (twoCores Opcode.pause.code) vm' := by
  have hinst : (twoCores Opcode.pause.code).nextInst 1 = ⟨Opcode.pause.code, 0, 0, 0, 0⟩ := by
    decide
  have hop : ((twoCores Opcode.pause.code).nextInst 1).op = Opcode.pause.code := by rw [hinst]
  have hrun := vmInstructionCase_of_inRam (twoCores_inRam _) hop
  have hvalid : ((twoCores Opcode.pause.code).nextInst 1).Valid := by
    rw [hinst]
    exact ⟨by decide, by decide, by decide⟩
  have hreach : ¬ (twoCores Opcode.pause.code).Reaches 1 := by
    rw [Vm.Reaches, hop]
    rintro (h | h | ⟨h, -⟩)
    all_goals exact absurd h (by decide)
  have hstray : ¬ (twoCores Opcode.pause.code).StrayDivide 1 := by
    rw [Vm.StrayDivide, hop]
    rintro ⟨h | h, -⟩
    all_goals exact absurd h (by decide)
  have hbsp : ((twoCores Opcode.pause.code).cpus 1).isBsp = true → 1 = 0 := by decide
  have hcores : 1 < (twoCores Opcode.pause.code).smpCores := by decide
  exact ⟨_, hrun, ((core_isolation_iff hcores hvalid hbsp hrun).1 hreach).mpr hstray⟩

/-- The second core divides by zero, and core 0 is interrupted. -/
theorem divide_interrupts_core_zero : ¬ ∀ (vm vm' : Vm) (c : ℕ), c < vm.smpCores →
    (vm.nextInst c).Valid → vmInstructionCase c vm = .ok ((), vm') → ¬ vm.Reaches c →
    ∀ d, d ≠ c → d < vm.smpCores → SameCore d vm vm' := by
  intro h
  have hinst : (twoCores Opcode.div.code).nextInst 1 = ⟨Opcode.div.code, 0, 0, 0, 0⟩ := by
    decide
  have hop : ((twoCores Opcode.div.code).nextInst 1).op = Opcode.div.code := by rw [hinst]
  have hvalid : ((twoCores Opcode.div.code).nextInst 1).Valid := by
    rw [hinst]
    exact ⟨by decide, by decide, by decide⟩
  have hcores : 1 < (twoCores Opcode.div.code).smpCores := by decide
  have hreach : ¬ (twoCores Opcode.div.code).Reaches 1 := by
    rw [Vm.Reaches, hop]
    rintro (h | h | ⟨h, -⟩)
    all_goals exact absurd h (by decide)
  have htrigger := triggerInterruptTarget_of_lt (c := 0) (n := intDivideByZero)
    ((twoCores Opcode.div.code).fetched 1) (by decide) (by decide)
  have hrun := vmInstructionCase_of_inRam (twoCores_inRam _) hop
  have hdivisor : ((twoCores Opcode.div.code).fetched 1).regValue 1
      ((twoCores Opcode.div.code).nextInst 1).rs2 = 0 := by
    rw [fetched_regValue, hinst]
    rfl
  rw [execute, execDivide_eq, bind_ok (readReg_regValue hvalid.rs2), divideBy,
    if_neg (not_not.mpr hdivisor)] at hrun
  have hsame := h _ _ 1 hcores hvalid (hrun.trans htrigger) hreach 0 (by decide) (by decide)
  exact absurd (hsame.pending 0 (by decide)) (by decide)

end Instructions

end LampVm
