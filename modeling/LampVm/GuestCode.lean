import LampVm.Branch
import LampVm.Safety

/-!
# Guest programs

Assembly with register numbers in range, its encoding into instruction words, and its
meaning as a function of one core and RAM. An instruction whose meaning is given here does
on the machine what it says and nothing else; the instructions that act on the rest of the
machine have no such meaning. An annotation gives an assertion for each point of a program.
When its assertions follow from one another and nobody else touches what they speak of, they
hold in every interleaving.
-/
namespace LampVm

open ByteOrder Contract Transition

/-! ## Assembly -/

inductive Asm
  | mov (rd rs : Fin regCount)
  | movi (rd : Fin regCount) (imm : BitVec 32)
  | load32 (rd rs : Fin regCount) (imm : BitVec 32)
  | store32 (rd rs : Fin regCount) (imm : BitVec 32)
  | cmpi (rd : Fin regCount) (imm : BitVec 32)
  | jmp (target : BitVec 32)
  | jump (j : Jump) (target : BitVec 32)
  | call (target : BitVec 32)
  | startap (rd rs : Fin regCount)
  | ipi (rd rs : Fin regCount)
  | cpuid (rd : Fin regCount)
  | pause
  | halt
  | iret
  deriving DecidableEq, Repr

def regByte (r : Fin regCount) : BitVec 8 := BitVec.ofNat 8 r

theorem regByte_toNat (r : Fin regCount) : (regByte r).toNat = r := by
  have := r.isLt
  rw [regByte, BitVec.toNat_ofNat]
  simp only [regCount] at this
  omega

theorem readReg_regByte (c : ℕ) (r : Fin regCount) (vm : Vm) :
    readReg c (regByte r) vm = .ok ((vm.cpus c).regs r, vm) := by
  rw [readReg_of_lt (by rw [regByte_toNat]; exact r.isLt)]
  simp only [regByte_toNat]

theorem writeReg_regByte (c : ℕ) (r : Fin regCount) (v : BitVec 32) (vm : Vm) :
    writeReg c (regByte r) v vm = .ok ((), vm.setCpu c
      { vm.cpus c with regs := Function.update (vm.cpus c).regs r v }) := by
  have hr : (regByte r).toNat < regCount := by rw [regByte_toNat]; exact r.isLt
  rw [writeReg, dif_pos hr, modifyCpu_apply]
  simp only [regByte_toNat]

def Asm.opcode : Asm → Opcode
  | .mov _ _ => .mov
  | .movi _ _ => .movi
  | .load32 _ _ _ => .load32
  | .store32 _ _ _ => .store32
  | .cmpi _ _ => .cmpi
  | .jmp _ => .jmp
  | .jump j _ => j.opcode
  | .call _ => .call
  | .startap _ _ => .startap
  | .ipi _ _ => .ipi
  | .cpuid _ => .cpuid
  | .pause => .pause
  | .halt => .halt
  | .iret => .iret

/-- The arguments of `INST`. -/
def Asm.inst (i : Asm) : Inst :=
  match i with
  | .mov rd rs | .startap rd rs | .ipi rd rs => ⟨i.opcode.code, regByte rd, regByte rs, 0, 0⟩
  | .movi rd imm | .cmpi rd imm => ⟨i.opcode.code, regByte rd, 0, 0, imm⟩
  | .load32 rd rs imm | .store32 rd rs imm => ⟨i.opcode.code, regByte rd, regByte rs, 0, imm⟩
  | .jmp target | .jump _ target | .call target => ⟨i.opcode.code, 0, 0, 0, target⟩
  | .cpuid rd => ⟨i.opcode.code, regByte rd, 0, 0, 0⟩
  | .pause | .halt | .iret => ⟨i.opcode.code, 0, 0, 0, 0⟩

theorem Asm.inst_op (i : Asm) : i.inst.op = i.opcode.code := by
  cases i <;> rfl

/-! ## Meaning -/

/-- What a guest program works on. -/
structure CoreState where
  cpu : Vcpu
  memory : Bytes

def Vm.core (vm : Vm) (c : ℕ) : CoreState := ⟨vm.cpus c, vm.memory⟩

def Vm.withCore (vm : Vm) (c : ℕ) (s : CoreState) : Vm := (vm.setCpu c s.cpu).withMemory s.memory

/-- The core behind the instruction that it is about to execute. -/
def CoreState.fetched (s : CoreState) : CoreState :=
  { s with cpu := { s.cpu with lastIp := s.cpu.fetchIp.toNat, ip := (s.cpu.fetchIp + 8).toNat } }

/-- A cell of the default memory that is not a device register. -/
def PlainCell (a : BitVec 32) (n : ℕ) : Prop :=
  a.toNat + n ≤ memSize ∧ OutsideWindows a.toNat n ∧ a.toNat % n = 0

instance (a : BitVec 32) (n : ℕ) : Decidable (PlainCell a n) :=
  inferInstanceAs (Decidable (_ ∧ _ ∧ _))

/-- A register with the flags that its new value gives. -/
def Vcpu.setReg (cpu : Vcpu) (r : Fin regCount) (v : BitVec 32) : Vcpu :=
  { cpu with regs := Function.update cpu.regs r v, flags := logicFlags cpu.flags v }

/-- The cell of the call stack that the next call fills. -/
def Vcpu.callCell (cpu : Vcpu) : BitVec 32 := callStack.cellAddr cpu 8 (cpu.csp - 1)

/-- The effect of an instruction that has been fetched. -/
def Asm.step (i : Asm) (s : CoreState) : Option CoreState :=
  match i with
  | .mov rd rs => some { s with cpu := s.cpu.setReg rd (s.cpu.regs rs) }
  | .movi rd imm => some { s with cpu := s.cpu.setReg rd imm }
  | .load32 rd rs imm =>
    let a := s.cpu.regs rs + imm
    if PlainCell a 4 then
      some { s with cpu := s.cpu.setReg rd (BitVec.ofNat 32 (leNat s.memory a.toNat 4)) }
    else none
  | .store32 rd rs imm =>
    let a := s.cpu.regs rs + imm
    if PlainCell a 4 then
      some { s with memory := leStore s.memory a.toNat 4 (s.cpu.regs rd).toNat }
    else none
  | .cmpi rd imm =>
    let a := s.cpu.regs rd
    some { s with cpu := { s.cpu with flags := subFlags s.cpu.flags a imm (a - imm) } }
  | .jmp target => some { s with cpu := { s.cpu with ip := target.toNat } }
  | .jump j target =>
    some { s with cpu := if j.cond s.cpu.flags then { s.cpu with ip := target.toNat } else s.cpu }
  | .call target =>
    if s.cpu.csp ≠ 0 ∧ PlainCell s.cpu.callCell 8 then
      some { cpu := { s.cpu with csp := s.cpu.csp - 1, ip := target.toNat }
             memory := leStore s.memory s.cpu.callCell.toNat 8
              ((BitVec.ofNat 32 s.cpu.ip).setWidth 64).toNat }
    else none
  | .cpuid rd => some { s with cpu := s.cpu.setReg rd (BitVec.ofNat 32 s.cpu.coreId) }
  | .pause => some s
  | .startap _ _ | .ipi _ _ | .halt | .iret => none

/-- What decides how RAM is accessed, at the default size. -/
structure GuestRam (vm : Vm) : Prop where
  memorySize : vm.memorySize = memSize
  devices : vm.mmioDevices = registeredDevices memSize
  cache : CacheCoherent vm

theorem MachineInv.guestRam {N : ℕ} {K : ℕ → Vcpu → Prop} {vm : Vm}
    (h : MachineInv memSize N K vm) : GuestRam vm := ⟨h.memorySize, h.devices, h.cache⟩

variable {vm t : Vm} {c : ℕ} {a : BitVec 32} {n : ℕ}

theorem GuestRam.plain (h : GuestRam vm) (ha : PlainCell a n) : PlainRam vm a n :=
  plainRam_of_outsideWindows h.memorySize h.devices ha.1 ha.2.1

theorem GuestRam.setCpu (h : GuestRam vm) (cpu : Vcpu) : GuestRam (vm.setCpu c cpu) :=
  ⟨h.memorySize, h.devices, h.cache⟩

/-- A state as it is up to the lookup cache. -/
def UpToCache (u t : Vm) : Prop := t = u ∨ t = u.uncached

theorem setLogic_regByte (c : ℕ) (r : Fin regCount) (v : BitVec 32) (vm : Vm) :
    setLogic c (regByte r) v vm = .ok ((), vm.setCpu c ((vm.cpus c).setReg r v)) := by
  simp only [setLogic, bind_apply, writeReg_regByte, readReg_regByte, updateLogicFlags,
    modifyFlags, modifyCpu_apply, setCpu_cpus_self, setCpu_setCpu, Function.update_self]
  rfl

theorem baseImm_run {i : Inst} (rs : Fin regCount) (h : i.rs1 = regByte rs) (c : ℕ) (vm : Vm) :
    baseImm c i vm = .ok ((vm.cpus c).regs rs + i.imm, vm) := by
  rw [baseImm, h, bind_ok (readReg_regByte c rs vm), pure_apply]

/-- A call stores the return address and goes to its target. -/
theorem execute_call {i : Inst} (h : GuestRam vm) (hcsp : (vm.cpus c).csp ≠ 0)
    (hcell : PlainCell (vm.cpus c).callCell 8) :
    execute c i .call vm = .ok ((), vm.withCore c
      { cpu := { vm.cpus c with csp := (vm.cpus c).csp - 1, ip := i.imm.toNat }
        memory := leStore vm.memory (vm.cpus c).callCell.toNat 8
          ((BitVec.ofNat 32 (vm.cpus c).ip).setWidth 64).toNat }) := by
  have hplain := (h.setCpu (c := c) { vm.cpus c with csp := (vm.cpus c).csp - 1 }).plain hcell
  have hpush : callPush c ((BitVec.ofNat 32 (vm.cpus c).ip).setWidth 64) vm = .ok ((),
      (vm.setCpu c { vm.cpus c with csp := (vm.cpus c).csp - 1 }).withMemory
        (leStore vm.memory (vm.cpus c).callCell.toNat 8
          ((BitVec.ofNat 32 (vm.cpus c).ip).setWidth 64).toNat)) := by
    have hne : ¬ callStack.get (vm.cpus c) = 0 := hcsp
    rw [callPush, stackPush, bind_ok (getCpu_apply c vm), if_neg hne,
      bind_ok (modifyCpu_apply c _ vm), bind_ok (getCpu_apply c _), setCpu_cpus_self]
    exact vmWrite64_plain hplain.inRam hplain.inSpace (fun _ => hcell.2.2) _
  change (getCpu c >>= fun cpu => callPush c ((BitVec.ofNat 32 cpu.ip).setWidth 64) >>= fun _ =>
    getCpu c >>= fun _ => setIp c i.imm.toNat) vm = _
  rw [bind_ok (getCpu_apply c vm), bind_ok hpush, bind_ok (getCpu_apply c _), setIp,
    modifyCpu_apply]
  simp [Vm.withCore, Vm.withMemory, Vm.setCpu]

/-- An instruction with a meaning does what it says. -/
theorem Asm.execute_of_step {i : Asm} {s : CoreState} (h : GuestRam vm)
    (hstep : i.step (vm.core c) = some s) :
    ∃ t, execute c i.inst i.opcode vm = .ok ((), t) ∧ UpToCache (vm.withCore c s) t := by
  cases i with
  | mov rd rs =>
    obtain rfl := Option.some.inj hstep
    refine ⟨_, ?_, .inl rfl⟩
    change (readReg c (regByte rs) >>= setLogic c (regByte rd)) vm = _
    rw [bind_ok (readReg_regByte c rs vm), setLogic_regByte]
    rfl
  | movi rd imm =>
    obtain rfl := Option.some.inj hstep
    exact ⟨_, setLogic_regByte c rd imm vm, .inl rfl⟩
  | load32 rd rs imm =>
    simp only [Asm.step] at hstep
    split_ifs at hstep with ha
    obtain rfl := Option.some.inj hstep
    refine ⟨_, ?_, .inr rfl⟩
    change (baseImm c (Asm.load32 rd rs imm).inst >>= fun addr => vmRead32 addr >>=
      setLogic c (regByte rd)) vm = _
    rw [bind_ok (baseImm_run rs rfl c vm)]
    exact (bind_ok (vmRead32_plain h.cache (h.plain ha) fun _ => ha.2.2)).trans
      (setLogic_regByte c rd _ _)
  | store32 rd rs imm =>
    simp only [Asm.step] at hstep
    split_ifs at hstep with ha
    obtain rfl := Option.some.inj hstep
    refine ⟨_, ?_, .inr rfl⟩
    change (baseImm c (Asm.store32 rd rs imm).inst >>= fun addr => readReg c (regByte rd) >>=
      vmWrite32 addr) vm = _
    rw [bind_ok (baseImm_run rs rfl c vm), bind_ok (readReg_regByte c rd vm)]
    refine (vmWrite32_plain h.cache (h.plain ha) (fun _ => ha.2.2) _).trans ?_
    simp [Vm.withCore, Vm.core, Vm.uncached, Vm.withMemory, Vm.setCpu]
  | cmpi rd imm =>
    obtain rfl := Option.some.inj hstep
    refine ⟨_, ?_, .inl rfl⟩
    change (readReg c (regByte rd) >>= fun v => execCompare c v imm) vm = _
    rw [bind_ok (readReg_regByte c rd vm)]
    rfl
  | jmp target =>
    obtain rfl := Option.some.inj hstep
    exact ⟨_, rfl, .inl rfl⟩
  | jump j target =>
    obtain rfl := Option.some.inj hstep
    refine ⟨_, (execute_jump _).trans (flagsCase_apply _ _), .inl ?_⟩
    by_cases hj : j.cond (vm.cpus c).flags = true
    · simp only [Vm.core, hj, if_true]
      rfl
    · simp [Vm.core, Vm.withCore, Vm.setCpu, hj]
  | call target =>
    simp only [Asm.step] at hstep
    split_ifs at hstep with ha
    obtain rfl := Option.some.inj hstep
    exact ⟨_, execute_call h ha.1 ha.2, .inl rfl⟩
  | cpuid rd =>
    obtain rfl := Option.some.inj hstep
    refine ⟨_, ?_, .inl rfl⟩
    change (getCpu c >>= fun cpu => setLogic c (regByte rd) (BitVec.ofNat 32 cpu.coreId)) vm = _
    rw [bind_ok (getCpu_apply c vm), setLogic_regByte]
    rfl
  | pause =>
    obtain rfl := Option.some.inj hstep
    exact ⟨_, rfl, .inl (by simp [Vm.withCore, Vm.core, Vm.setCpu])⟩
  | startap rd rs => cases hstep
  | ipi rd rs => cases hstep
  | halt => cases hstep
  | iret => cases hstep

/-- The core is about to execute `i`. -/
def CoreState.Fetches (s : CoreState) (i : Asm) : Prop :=
  s.cpu.fetchIp.toNat + 8 ≤ memSize ∧
    leNat s.memory s.cpu.fetchIp.toNat 8 = i.inst.encode.toNat

theorem vmInstructionCase_of_fetches {i : Asm} (h : GuestRam vm) (hi : (vm.core c).Fetches i) :
    vmInstructionCase c vm = execute c i.inst i.opcode (vm.fetched c) := by
  have hnext : vm.nextInst c = i.inst := by
    rw [nextInst_of_word (w := i.inst.encode) hi.2, Inst.decode_encode]
  have hram : inRam vm (vm.cpus c).fetchIp 8 := by
    rw [inRam, h.memorySize]
    exact hi.1
  rw [vmInstructionCase_of_inRam hram (by rw [hnext, Asm.inst_op]), hnext]

/-- An instruction with a meaning moves the machine as it moves the core. -/
theorem instruction_of_step {i : Asm} {s : CoreState} (h : GuestRam vm)
    (hi : (vm.core c).Fetches i) (hstep : i.step (vm.core c).fetched = some s) :
    ∃ t, vmInstructionCase c vm = .ok ((), t) ∧ UpToCache (vm.withCore c s) t := by
  have hcore : (vm.fetched c).core c = (vm.core c).fetched := by
    simp only [Vm.core, Vm.fetched, setCpu_cpus_self, setCpu_memory]
    rfl
  rw [vmInstructionCase_of_fetches h hi]
  obtain ⟨t, hrun, ht⟩ := Asm.execute_of_step (h.setCpu _) (hcore ▸ hstep)
  refine ⟨t, hrun, ?_⟩
  simpa [Vm.withCore, Vm.fetched] using ht

theorem UpToCache.core {u : Vm} (h : UpToCache u t) : t.core c = u.core c := by
  rcases h with rfl | rfl <;> rfl

theorem core_withCore (s : CoreState) : (vm.withCore c s).core c = s := by
  simp [Vm.core, Vm.withCore, Vm.withMemory]

/-! ## Annotated programs -/

/-- Assertions for the points of a program, the points behind it and which point may follow
which. -/
structure Annotation (ι : Type) where
  holds : ι → CoreState → Prop
  exit : ι → Prop
  next : ι → ι → Prop

/-- The assertions speak of the bytes in `R` only, and an instruction leads from each point
to a next one. -/
structure Annotation.Valid {ι : Type} (A : Annotation ι) (R : ℕ → Prop) : Prop where
  stable : ∀ {p s m}, A.holds p s → (∀ x, R x → m x = s.memory x) →
    A.holds p { s with memory := m }
  step : ∀ {p s}, A.holds p s → ¬ A.exit p →
    ∃ i s' q, s.Fetches i ∧ i.step s.fetched = some s' ∧ A.next p q ∧ A.holds q s'

/-- Whether the event is an instruction of core `c`. -/
def Event.isInstruction (c : ℕ) : Event → Bool
  | .instruction d => d == c
  | _ => false

theorem Event.isInstruction_iff {e : Event} : e.isInstruction c = true ↔ e = .instruction c := by
  cases e <;> simp [Event.isInstruction]

/-- Nobody but core `c` touches it or the bytes in `R`. -/
def Undisturbed (c : ℕ) (R : ℕ → Prop) (s : Vm) (e : Event) : Prop :=
  e ≠ .instruction c → ∀ t, runEvent e s = .ok ((), t) →
    t.cpus c = s.cpus c ∧ ∀ x, R x → t.memory x = s.memory x

/-- A step of the program or of those who leave it alone. -/
def Annotation.Inside {ι : Type} (A : Annotation ι) (c : ℕ) (R : ℕ → Prop) (s : Vm) (e : Event) :
    Prop :=
  Undisturbed c R s e ∧ (e = .instruction c → ∀ p, A.holds p (s.core c) → ¬ A.exit p)

section Annotated

variable {ι : Type} {A : Annotation ι} {R : ℕ → Prop} {p : ι}

/-- At a point of the program the core gets on. -/
theorem Annotation.Valid.advance (hA : A.Valid R) (h : GuestRam vm) (hp : A.holds p (vm.core c))
    (hexit : ¬ A.exit p) :
    ∃ t q, vmInstructionCase c vm = .ok ((), t) ∧ A.next p q ∧ A.holds q (t.core c) := by
  obtain ⟨i, s, q, hi, hstep, hnext, hq⟩ := hA.step hp hexit
  obtain ⟨t, hrun, ht⟩ := instruction_of_step h hi hstep
  exact ⟨t, q, hrun, hnext, by rwa [ht.core, core_withCore]⟩

/-- The machine's invariant between two steps. -/
abbrev Sound (smpCores : ℤ) (vm : Vm) : Prop :=
  MachineInv memSize (coreCount smpCores) (CoreInv memSize (coreCount smpCores) settled) vm

theorem Sound.step {smpCores : ℤ} {s : Vm} {e : Event} (h : Sound smpCores s)
    (hstep : (machine memSize smpCores).step s e t) : Sound smpCores t := by
  have hres := runEvent_inv e (fun c _ => settled_mayEnter c) s
    (fun c _ _ _ => settled_mayReturn c) hstep.1 h
  rwa [hstep.2] at hres

/-- A step of the machine leaves the core at its point, or is its own and takes it to a next
one. -/
theorem Annotation.Valid.event (hA : A.Valid R) {smpCores : ℤ} {s t : Vm} {e : Event}
    (hs : Sound smpCores s) (hp : A.holds p (s.core c)) (hquiet : Undisturbed c R s e)
    (hexit : e = .instruction c → ¬ A.exit p) (hstep : (machine memSize smpCores).step s e t) :
    ∃ q, A.holds q (t.core c) ∧ if e.isInstruction c then A.next p q else q = p := by
  by_cases he : e = .instruction c
  · subst he
    obtain ⟨t', q, hrun, hnext, hq⟩ := hA.advance hs.guestRam hp (hexit rfl)
    obtain ⟨-, rfl⟩ := Prod.mk.inj (Except.ok.inj (hstep.2.symm.trans hrun))
    exact ⟨q, hq, by rwa [if_pos (Event.isInstruction_iff.mpr rfl)]⟩
  · obtain ⟨hcpu, hmem⟩ := hquiet he t hstep.2
    have hcore : t.core c = { s.core c with memory := t.memory } := by
      simp only [Vm.core, hcpu]
    refine ⟨p, ?_, by rw [if_neg (mt Event.isInstruction_iff.mp he)]⟩
    rw [hcore]
    exact hA.stable hp hmem

/-- In every interleaving the core stays at the points of the program. -/
theorem Annotation.Valid.run (hA : A.Valid R) {smpCores : ℤ} {u w : Vm} {events : List Event}
    (hu : Sound smpCores u) (hp : A.holds p (u.core c))
    (hrun : Run ((machine memSize smpCores).restrict (A.Inside c R)) u events w) :
    Sound smpCores w ∧ ∃ q, A.holds q (w.core c) := by
  refine hrun.keeps (P := fun w => Sound smpCores w ∧ ∃ q, A.holds q (w.core c)) ?_ ⟨hu, p, hp⟩
  intro s e t ⟨hs, q, hq⟩ ⟨⟨hquiet, hinside⟩, hstep⟩
  obtain ⟨q', hq', -⟩ := hA.event hs hq hquiet (fun he => hinside he q hq) hstep
  exact ⟨hs.step hstep, q', hq'⟩

end Annotated

/-! ## Code without jumps -/

/-- The words of a program, one behind the other. -/
def CodeAt (m : Bytes) (a : ℕ) (code : List Asm) : Prop :=
  ∀ k i, code[k]? = some i → leNat m (a + 8 * k) 8 = i.inst.encode.toNat

theorem CodeAt.congr {m m' : Bytes} {a : ℕ} {code : List Asm} (h : CodeAt m a code)
    (hm : ∀ x, a ≤ x → x < a + 8 * code.length → m' x = m x) : CodeAt m' a code := by
  intro k i hk
  have hlt := (List.getElem?_eq_some_iff.mp hk).1
  rw [← h k i hk]
  exact leNat_congr fun x h1 h2 => hm x (by omega) (by omega)

theorem CodeAt.tail {m : Bytes} {a : ℕ} {i : Asm} {code : List Asm} (h : CodeAt m a (i :: code)) :
    CodeAt m (a + 8) code := by
  intro k j hk
  rw [show a + 8 + 8 * k = a + 8 * (k + 1) by omega]
  exact h (k + 1) j hk

theorem CodeAt.left {m : Bytes} {a : ℕ} {code rest : List Asm} (h : CodeAt m a (code ++ rest)) :
    CodeAt m a code := by
  intro k i hk
  have hlt := (List.getElem?_eq_some_iff.mp hk).1
  exact h k i (by rwa [List.getElem?_append_left hlt])

/-- Instructions that load nothing. -/
def Asm.loads : Asm → Bool
  | .load32 _ _ _ => true
  | _ => false

/-- What an instruction that loads nothing does to memory does not depend on memory. -/
theorem Asm.step_withMemory {i : Asm} {s t : CoreState} (hi : i.loads = false)
    (h : i.step s = some t) (m : Bytes) :
    ∃ m', i.step { s with memory := m } = some { t with memory := m' } ∧
      ∀ x, m x = s.memory x → m' x = t.memory x := by
  have hstore : ∀ a n v x : ℕ, m x = s.memory x →
      leStore m a n v x = leStore s.memory a n v x := by
    intro a n v x hx
    simp only [leStore, hx]
  cases i with
  | load32 rd rs imm => cases hi
  | store32 rd rs imm =>
    simp only [Asm.step] at h ⊢
    split_ifs at h ⊢ with ha
    obtain rfl := Option.some.inj h
    exact ⟨_, rfl, fun x hx => hstore _ _ _ x hx⟩
  | call target =>
    simp only [Asm.step] at h ⊢
    split_ifs at h ⊢ with ha
    obtain rfl := Option.some.inj h
    exact ⟨_, rfl, fun x hx => hstore _ _ _ x hx⟩
  | mov rd rs => obtain rfl := Option.some.inj h; exact ⟨m, rfl, fun x hx => hx⟩
  | movi rd imm => obtain rfl := Option.some.inj h; exact ⟨m, rfl, fun x hx => hx⟩
  | cmpi rd imm => obtain rfl := Option.some.inj h; exact ⟨m, rfl, fun x hx => hx⟩
  | jmp target => obtain rfl := Option.some.inj h; exact ⟨m, rfl, fun x hx => hx⟩
  | jump j target => obtain rfl := Option.some.inj h; exact ⟨m, rfl, fun x hx => hx⟩
  | cpuid rd => obtain rfl := Option.some.inj h; exact ⟨m, rfl, fun x hx => hx⟩
  | pause => obtain rfl := Option.some.inj h; exact ⟨m, rfl, fun x hx => hx⟩
  | startap rd rs => cases h
  | ipi rd rs => cases h
  | halt => cases h
  | iret => cases h

/-- `code` takes `s` to `t`, one instruction after the other, without loading anything and
without changing a byte of `start ≤ x < stop`. -/
inductive Straight (start stop : ℕ) : List Asm → CoreState → CoreState → Prop
  | nil (s : CoreState) : Straight start stop [] s s
  | cons {i : Asm} {code : List Asm} {s s' t : CoreState} (hload : i.loads = false)
      (hstep : i.step s.fetched = some s')
      (hkeep : ∀ x, start ≤ x → x < stop → s'.memory x = s.memory x)
      (hnext : code ≠ [] → s'.cpu.ip = s.cpu.fetchIp.toNat + 8)
      (hrest : Straight start stop code s' t) : Straight start stop (i :: code) s t

/-- The points of straight code are the instructions that are left: there the core is where
they take it to `t`. -/
def straightCode (start stop : ℕ) (R : ℕ → Prop) (t : CoreState) : Annotation (List Asm) where
  holds code s := ∃ u, Straight start stop code u t ∧ s.cpu = u.cpu ∧
    (∀ x, R x → s.memory x = u.memory x) ∧ (code ≠ [] → CodeAt u.memory u.cpu.fetchIp.toNat code ∧
      start ≤ u.cpu.fetchIp.toNat ∧ u.cpu.fetchIp.toNat + 8 * code.length = stop)
  exit code := code = []
  next code rest := rest = code.tail

theorem straightCode_valid {start stop : ℕ} {R : ℕ → Prop} (hstop : stop ≤ memSize)
    (hR : ∀ x, start ≤ x → x < stop → R x) (t : CoreState) :
    (straightCode start stop R t).Valid R where
  stable := by
    intro code s m ⟨u, hrun, hcpu, hmem, hcode⟩ hm
    exact ⟨u, hrun, hcpu, fun x hx => (hm x hx).trans (hmem x hx), hcode⟩
  step := by
    intro code s ⟨u, hrun, hcpu, hmem, hcode⟩ hexit
    cases hrun with
    | nil => exact absurd rfl hexit
    | @cons i code _ u' _ hload hstep hkeep hnext hrest =>
      obtain ⟨hat, hstart, hend⟩ := hcode (List.cons_ne_nil _ _)
      rw [List.length_cons] at hend
      have hfetch : s.Fetches i := by
        refine ⟨by rw [hcpu]; omega, ?_⟩
        rw [hcpu, ← hat 0 i rfl]
        exact leNat_congr fun x h1 h2 => hmem x (hR x (by omega) (by omega))
      obtain ⟨m, hstep', hm⟩ := Asm.step_withMemory hload hstep s.memory
      have hs : s.fetched = { u.fetched with memory := s.memory } := by
        simp only [CoreState.fetched, hcpu]
      refine ⟨i, { u' with memory := m }, code, hfetch, by rw [hs]; exact hstep', rfl, u', hrest,
        rfl, fun x hx => hm x (hmem x hx), fun hnil => ?_⟩
      have hsize : memSize = 67108864 := rfl
      have hip : u'.cpu.fetchIp.toNat = u.cpu.fetchIp.toNat + 8 := by
        rw [Vcpu.fetchIp, hnext hnil, BitVec.toNat_ofNat]
        omega
      rw [hip]
      refine ⟨?_, by omega, by omega⟩
      exact hat.tail.congr fun x h1 h2 => hkeep x (by omega) (by omega)

/-- In every interleaving each instruction of the core is the next one of the code. -/
theorem straightCode_run {start stop : ℕ} {R : ℕ → Prop} (hstop : stop ≤ memSize)
    (hR : ∀ x, start ≤ x → x < stop → R x) {t : CoreState} {smpCores : ℤ} {u w : Vm} {c : ℕ}
    {code : List Asm} {events : List Event} (hu : Sound smpCores u)
    (hp : (straightCode start stop R t).holds code (u.core c))
    (hrun : Run ((machine memSize smpCores).restrict (Undisturbed c R)) u events w)
    (hcount : events.countP (Event.isInstruction c) ≤ code.length) :
    Sound smpCores w ∧ (straightCode start stop R t).holds
      (code.drop (events.countP (Event.isInstruction c))) (w.core c) := by
  induction hrun with
  | nil => exact ⟨hu, hp⟩
  | @snoc events e s v hrun hstep ih =>
    rw [List.countP_append, List.countP_singleton] at hcount ⊢
    obtain ⟨hs, hq⟩ := ih (by omega)
    obtain ⟨q, hq', hnext⟩ := (straightCode_valid hstop hR t).event hs hq hstep.1 (fun he hnil => by
      rw [if_pos (Event.isInstruction_iff.mpr he)] at hcount
      have := List.drop_eq_nil_iff.mp hnil
      omega) hstep.2
    refine ⟨hs.step hstep.2, ?_⟩
    split_ifs at hnext ⊢ with he
    · obtain rfl := hnext
      rwa [List.tail_drop] at hq'
    · obtain rfl := hnext
      exact hq'

end LampVm
