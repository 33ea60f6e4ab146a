import LampVm.HandlerFrame
import LampVm.IrqStub
import LampVm.Isolation
import LampVm.VmThread

/-!
# Guest programs on several cores

An abstract machine for the programs of several cores: registers, the bytes in which a program
keeps its data, the vectors that are pending and, for each core, the context that its handler has
interrupted. It has no stacks, no vector table, no device registers and no threads. As long as
none of its cores gets stuck, every interleaving of the threads of the machine in which no
instruction overlaps another is a run of it, instruction for instruction.
-/
namespace LampVm

open ByteOrder Contract Transition

/-! ## The abstract machine -/

/-- The code from `programBase`, the range of the data behind it and the entries of the
handlers. -/
structure GuestProgram where
  code : List Asm
  dataStart : ℕ
  dataEnd : ℕ
  handler : ℕ → Option (BitVec 32)
  code_le : programBase + 8 * code.length ≤ dataStart
  order : dataStart ≤ dataEnd
  dataEnd_le : dataEnd ≤ fbLegacyBase

structure Guest where
  cpus : ℕ → Vcpu
  /-- What the handler of a core has interrupted. -/
  interrupted : ℕ → Option Vcpu
  memory : Bytes
  released : ℕ → Bool
  pending : Set (ℕ × ℕ)
  /-- The cores that have executed `HALT`. -/
  stopped : Set ℕ

namespace Guest

variable (g : Guest) (N c : ℕ)

def core : CoreState := ⟨g.cpus c, g.memory⟩

def setCpu (cpu : Vcpu) : Guest := { g with cpus := Function.update g.cpus c cpu }

def withMemory (m : Bytes) : Guest := { g with memory := m }

/-- Core 0 starts another core. -/
def start (target : ℤ) (entry : BitVec 32) : Guest :=
  if (g.cpus c).isBsp = true ∧ 0 < target ∧ target < N then
    { g.setCpu target.toNat
        { g.cpus target.toNat with ip := entry.toNat, lastIp := entry.toNat } with
      released := Function.update g.released target.toNat true }
  else g

/-- A vector becomes pending, if there are such a core and such a vector. -/
def raise (target : ℤ) (n : BitVec 32) : Guest :=
  { g with
    pending := {p | p ∈ g.pending ∨ target = p.1 ∧ p.1 < N ∧ n.toNat = p.2 ∧ p.2 < ivtSize} }

/-- The core goes on with what its handler has interrupted. -/
def resume : Guest :=
  match g.interrupted c with
  | none => g
  | some saved =>
    { g.setCpu c { g.cpus c with
        regs := saved.regs, flags := saved.flags, ip := saved.ip, isp := isrStackSize,
        inInterrupt := 0 } with
      interrupted := Function.update g.interrupted c none }

/-- The core is behind the instruction that it is about to execute. -/
def fetched : Guest := g.setCpu c (g.core c).fetched.cpu

/-- A released core runs until it halts. -/
def Runs : Prop := c < N ∧ (c = 0 ∨ g.released c = true) ∧ c ∉ g.stopped

end Guest

namespace GuestProgram

variable (P : GuestProgram)

def InData (x : ℕ) : Prop := P.dataStart ≤ x ∧ x < P.dataEnd

/-- The instruction works on registers and on the data. -/
def Within (cpu : Vcpu) : Asm → Prop
  | .load32 _ rs imm | .store32 _ rs imm =>
    P.dataStart ≤ (cpu.regs rs + imm).toNat ∧ (cpu.regs rs + imm).toNat + 4 ≤ P.dataEnd
  | .call _ => False
  | _ => True

instance (cpu : Vcpu) (i : Asm) : Decidable (P.Within cpu i) := by
  cases i <;> unfold Within <;> infer_instance

/-- The effect of an instruction that core `c` has fetched. -/
def execute (N c : ℕ) (g : Guest) (i : Asm) : Option Guest :=
  match i with
  | .startap rd rs => some (g.start N c ((g.cpus c).regs rd).toInt ((g.cpus c).regs rs))
  | .ipi rd rs => some (g.raise N ((g.cpus c).regs rd).toInt ((g.cpus c).regs rs))
  | .halt => some { g with stopped := insert c g.stopped }
  | .iret => some (g.resume c)
  | i =>
    if P.Within (g.cpus c) i then
      (i.step (g.core c)).map fun s => (g.setCpu c s.cpu).withMemory s.memory
    else none

/-- The core is about to execute `i`. -/
def Fetches (cpu : Vcpu) (i : Asm) : Prop :=
  ∃ k, P.code[k]? = some i ∧ cpu.fetchIp.toNat = programBase + 8 * k

/-- Core `c` takes vector `n`. -/
def enter (c n : ℕ) (g : Guest) : Guest :=
  match P.handler n with
  | none => g
  | some entry =>
    { g.setCpu c ((g.cpus c).inHandler (BitVec.ofNat 32 n) (entry.setWidth 64)) with
      interrupted := Function.update g.interrupted c (some (g.cpus c)) }

end GuestProgram

inductive GuestLabel
  | instruction (c : ℕ)
  | interrupt (c n : ℕ)
  | device (n : BitVec 32)

/-- The steps of the abstract machine on `N` cores from `g₀`. -/
def guestMachine (P : GuestProgram) (N : ℕ) (g₀ : Guest) : System Guest GuestLabel where
  init g := g = g₀
  step g l t :=
    match l with
    | .instruction c =>
      g.Runs N c ∧ ∃ i, P.Fetches (g.cpus c) i ∧ P.execute N c (g.fetched c) i = some t
    | .interrupt c n =>
      g.Runs N c ∧ g.interrupted c = none ∧ (c, n) ∈ g.pending ∧
        t = P.enter c n { g with pending := g.pending \ {(c, n)} }
    | .device n => (n = intSerial ∨ n = intTimer) ∧ t = g.raise N 0 n

/-- Core `c` can execute the instruction that it is at. -/
def GuestProgram.Advances (P : GuestProgram) (N : ℕ) (g : Guest) (c : ℕ) : Prop :=
  ∃ i t, P.Fetches (g.cpus c) i ∧ P.execute N c (g.fetched c) i = some t

/-- Every core that runs gets on. -/
def GuestProgram.Unstuck (P : GuestProgram) (N : ℕ) (g : Guest) : Prop :=
  ∀ c, g.Runs N c → P.Advances N g c

/-! ## Instructions on the data -/

section Within

variable {P : GuestProgram} {i : Asm} {s t : CoreState}

/-- An instruction on the data depends on the data and changes the data only. -/
theorem GuestProgram.step_within (hw : P.Within s.cpu i) (h : i.step s = some t) {m : Bytes}
    (hm : ∀ x, P.InData x → m x = s.memory x) :
    ∃ m', i.step { s with memory := m } = some { t with memory := m' } ∧
      (∀ x, P.InData x → m' x = t.memory x) ∧ ∀ x, ¬ P.InData x → m' x = m x := by
  cases i with
  | load32 rd rs imm =>
    obtain ⟨hstart, hend⟩ := hw
    simp only [Asm.step] at h ⊢
    split_ifs at h ⊢ with ha
    obtain rfl := Option.some.inj h
    have hread : leNat m (s.cpu.regs rs + imm).toNat 4 =
        leNat s.memory (s.cpu.regs rs + imm).toNat 4 :=
      leNat_congr fun x h1 h2 => hm x ⟨hstart.trans h1, by omega⟩
    exact ⟨m, by rw [hread], hm, fun _ _ => rfl⟩
  | store32 rd rs imm =>
    obtain ⟨hstart, hend⟩ := hw
    simp only [Asm.step] at h ⊢
    split_ifs at h ⊢ with ha
    obtain rfl := Option.some.inj h
    refine ⟨_, rfl, fun x hx => by simp only [leStore, hm x hx], fun x hx => ?_⟩
    refine leStore_of_not_mem ?_
    by_contra hin
    exact hx ⟨by omega, by omega⟩
  | call target => exact hw.elim
  | mov rd rs => obtain rfl := Option.some.inj h; exact ⟨m, rfl, hm, fun _ _ => rfl⟩
  | movi rd imm => obtain rfl := Option.some.inj h; exact ⟨m, rfl, hm, fun _ _ => rfl⟩
  | cmpi rd imm => obtain rfl := Option.some.inj h; exact ⟨m, rfl, hm, fun _ _ => rfl⟩
  | jmp target => obtain rfl := Option.some.inj h; exact ⟨m, rfl, hm, fun _ _ => rfl⟩
  | jump j target => obtain rfl := Option.some.inj h; exact ⟨m, rfl, hm, fun _ _ => rfl⟩
  | cpuid rd => obtain rfl := Option.some.inj h; exact ⟨m, rfl, hm, fun _ _ => rfl⟩
  | pause => obtain rfl := Option.some.inj h; exact ⟨m, rfl, hm, fun _ _ => rfl⟩
  | startap rd rs => cases h
  | ipi rd rs => cases h
  | halt => cases h
  | iret => cases h

/-- It changes the context of the core only. -/
theorem GuestProgram.step_context (hw : P.Within s.cpu i) (h : i.step s = some t)
    (hip : s.cpu.ip < 2 ^ 32) :
    t.cpu.besidesContext = s.cpu.besidesContext ∧ t.cpu.ip < 2 ^ 32 := by
  cases i with
  | load32 rd rs imm =>
    simp only [Asm.step] at h
    split_ifs at h with ha
    obtain rfl := Option.some.inj h
    exact ⟨rfl, hip⟩
  | store32 rd rs imm =>
    simp only [Asm.step] at h
    split_ifs at h with ha
    obtain rfl := Option.some.inj h
    exact ⟨rfl, hip⟩
  | jmp target =>
    obtain rfl := Option.some.inj h
    exact ⟨rfl, target.isLt⟩
  | jump j target =>
    simp only [Asm.step] at h
    obtain rfl := Option.some.inj h
    dsimp only
    split_ifs
    · exact ⟨rfl, target.isLt⟩
    · exact ⟨rfl, hip⟩
  | call target => exact hw.elim
  | mov rd rs => obtain rfl := Option.some.inj h; exact ⟨rfl, hip⟩
  | movi rd imm => obtain rfl := Option.some.inj h; exact ⟨rfl, hip⟩
  | cmpi rd imm => obtain rfl := Option.some.inj h; exact ⟨rfl, hip⟩
  | cpuid rd => obtain rfl := Option.some.inj h; exact ⟨rfl, hip⟩
  | pause => obtain rfl := Option.some.inj h; exact ⟨rfl, hip⟩
  | startap rd rs => cases h
  | ipi rd rs => cases h
  | halt => cases h
  | iret => cases h

end Within

/-! ## Realization -/

/-- The entry of vector `n` in the vector table. -/
def GuestProgram.vector (P : GuestProgram) (n : ℕ) : BitVec 64 :=
  match P.handler n with
  | none => BitVec.allOnes 64
  | some entry => entry.setWidth 64

/-- What memory holds besides the data. -/
structure Laid (P : GuestProgram) (N : ℕ) (g : Guest) (m : Bytes) : Prop where
  code : CodeAt m programBase P.code
  vectors : ∀ n : BitVec 32, n.toNat < ivtSize →
    leNat m (ivtEntry n).toNat 8 = (P.vector n.toNat).toNat
  saved : ∀ c, c < N → ∀ cpu, g.interrupted c = some cpu →
    StackHolds m (g.cpus c).isrStackBase.toNat 222 (savedContext cpu)

/-- The machine is in the state of the abstract one: the context that a handler has interrupted
is on the ISR stack, the handlers are in the vector table and the disk is idle. -/
structure Realizes (P : GuestProgram) (smpCores : ℤ) (g : Guest) (vm : Vm) : Prop where
  sound : Sound smpCores vm
  cpus : vm.cpus = g.cpus
  data : ∀ x, P.InData x → vm.memory x = g.memory x
  laid : Laid P (coreCount smpCores) g vm.memory
  unmasked : ∀ c, (g.cpus c).irqMasked = 0
  handling : ∀ c, g.interrupted c = none ↔ (g.cpus c).inInterrupt = 0
  savedIp : ∀ c cpu, g.interrupted c = some cpu → cpu.ip < 2 ^ 32
  released : vm.coreReleased = g.released
  pending : vm.pendingSet = g.pending
  halted : vm.halted = true ↔ g.stopped.Nonempty
  disk : vm.disk.status = .free ∧ vm.disk.currentCmd = diskCmdNone
  worker : vm.diskWorker = .waiting ∨ vm.diskWorker = .exited

section Realizes

variable {P : GuestProgram} {smpCores : ℤ} {g : Guest} {vm t : Vm} {c d : ℕ} {m : Bytes} {N : ℕ}

theorem Laid.congr {q : Bytes} (h : Laid P N g m)
    (hcode : ∀ x, programBase ≤ x → x < programBase + 8 * P.code.length → q x = m x)
    (hivt : ∀ x, x < ivtSize * 8 → q x = m x)
    (hsaved : ∀ c, c < N → g.interrupted c ≠ none → ∀ x, (g.cpus c).isrStackBase.toNat ≤ x →
      x < (g.cpus c).isrStackBase.toNat + isrStackBytes → q x = m x) : Laid P N g q where
  code := h.code.congr hcode
  vectors n hn := by
    rw [← h.vectors n hn]
    have hto := ivtEntry_toNat hn
    have hivtSize : ivtSize = 256 := rfl
    exact leNat_congr fun x h1 h2 => hivt x (by omega)
  saved c hc cpu hcpu := by
    have hisr : isrStackBytes = 8 * (222 + 34) := rfl
    refine (h.saved c hc cpu hcpu).congr fun x h1 h2 => ?_
    rw [savedContext_length] at h2
    exact hsaved c hc (by rw [hcpu]; exact Option.some_ne_none cpu) x h1 (by omega)

/-- Only the ISR stack base of a core matters. -/
theorem Laid.cpus {g' : Guest} (h : Laid P N g m) (hi : g'.interrupted = g.interrupted)
    (hb : ∀ c, (g'.cpus c).isrStackBase = (g.cpus c).isrStackBase) : Laid P N g' m where
  code := h.code
  vectors := h.vectors
  saved c hc cpu hcpu := by
    rw [hb]
    exact h.saved c hc cpu (hi ▸ hcpu)

theorem setCpu_field {α : Type} (f : Vcpu → α) {cpu : Vcpu} (hf : f cpu = f (g.cpus c)) (d : ℕ) :
    f ((g.setCpu c cpu).cpus d) = f (g.cpus d) := by
  by_cases hd : d = c
  · subst hd
    simp only [Guest.setCpu, Function.update_self, hf]
  · simp only [Guest.setCpu, Function.update_of_ne hd]

/-- A core may change its context. -/
theorem Realizes.setCpu (h : Realizes P smpCores g vm) {cpu : Vcpu}
    (hcontext : cpu.besidesContext = (g.cpus c).besidesContext) (hip : cpu.ip < 2 ^ 32) :
    Realizes P smpCores (g.setCpu c cpu) (vm.setCpu c cpu) where
  sound := h.sound.setCpu fun hc => by
    have hcore := h.sound.core c hc
    rw [h.cpus] at hcore
    have hcsp : cpu.csp = (g.cpus c).csp := (congrArg Vcpu.csp hcontext :)
    have hdsp : cpu.dsp = (g.cpus c).dsp := (congrArg Vcpu.dsp hcontext :)
    have hid : cpu.coreId = (g.cpus c).coreId := (congrArg Vcpu.coreId hcontext :)
    have hbase : cpu.isrStackBase = (g.cpus c).isrStackBase :=
      (congrArg Vcpu.isrStackBase hcontext :)
    have hflag : cpu.inInterrupt = (g.cpus c).inInterrupt := (congrArg Vcpu.inInterrupt hcontext :)
    have hisp : cpu.isp = (g.cpus c).isp := (congrArg Vcpu.isp hcontext :)
    exact ⟨hcsp ▸ hcore.csp, hdsp ▸ hcore.dsp, hip, hid ▸ hcore.coreId,
      hbase.trans hcore.isrBase, by
      rw [hflag, hisp]
      exact hcore.phase⟩
  cpus := by
    change Function.update vm.cpus c cpu = Function.update g.cpus c cpu
    rw [h.cpus]
  data := h.data
  laid := by
    have hbase : cpu.isrStackBase = (g.cpus c).isrStackBase :=
      (congrArg Vcpu.isrStackBase hcontext :)
    exact h.laid.cpus rfl (setCpu_field Vcpu.isrStackBase hbase)
  unmasked d := by
    have hmask : cpu.irqMasked = (g.cpus c).irqMasked := (congrArg Vcpu.irqMasked hcontext :)
    rw [setCpu_field Vcpu.irqMasked hmask]
    exact h.unmasked d
  handling d := by
    have hflag : cpu.inInterrupt = (g.cpus c).inInterrupt := (congrArg Vcpu.inInterrupt hcontext :)
    rw [setCpu_field Vcpu.inInterrupt hflag]
    exact h.handling d
  savedIp := h.savedIp
  released := h.released
  pending := h.pending
  halted := h.halted
  disk := h.disk
  worker := h.worker

theorem Realizes.fetched (h : Realizes P smpCores g vm) (c : ℕ) :
    Realizes P smpCores (g.fetched c) (vm.fetched c) := by
  have hcore : (g.core c).fetched.cpu = { vm.cpus c with
      lastIp := (vm.cpus c).fetchIp.toNat, ip := ((vm.cpus c).fetchIp + 8).toNat } := by
    rw [h.cpus]
    rfl
  have hnext : Realizes P smpCores (g.fetched c) (vm.setCpu c (g.core c).fetched.cpu) :=
    h.setCpu rfl (BitVec.isLt _)
  rwa [hcore] at hnext

theorem Realizes.uncached (h : Realizes P smpCores g vm) : Realizes P smpCores g vm.uncached where
  sound := ⟨h.sound.memorySize, h.sound.smpCores, h.sound.devices, CacheCoherent.uncached vm,
    h.sound.core⟩
  cpus := h.cpus
  data := h.data
  laid := h.laid.cpus rfl fun _ => rfl
  unmasked := h.unmasked
  handling := h.handling
  savedIp := h.savedIp
  released := h.released
  pending := h.pending
  halted := h.halted
  disk := h.disk
  worker := h.worker

variable (hcores : coreCount smpCores ≤ 64)
include hcores

theorem isrStackBase_eq (h : Sound smpCores vm) (hc : c < coreCount smpCores) :
    (vm.cpus c).isrStackBase.toNat =
      coreStackStart (coreCount smpCores) c + StackKind.isr.offset := by
  rw [(h.core c hc).isrBase]
  exact stackBase_initCpu 0 hcores hc .isr

/-- The ISR stacks lie apart from the vector table, the code and the data. -/
theorem isrStack_place (h : Sound smpCores vm) (hc : c < coreCount smpCores) {x : ℕ}
    (hx : (vm.cpus c).isrStackBase.toNat ≤ x)
    (hx' : x < (vm.cpus c).isrStackBase.toNat + isrStackBytes) :
    ivtSize * 8 ≤ x ∧ (x < programBase ∨ fbLegacyBase ≤ x) := by
  rw [isrStackBase_eq hcores h hc] at hx hx'
  obtain ⟨hplace, hivt, -⟩ := coreStackStart_outside hcores c
  have hoff : StackKind.isr.offset + isrStackBytes = perCoreStackBytes := rfl
  have htime : timeBase = 0x2000 ∧ programBase = 0x201C := ⟨rfl, rfl⟩
  have hfb : fbLegacyBase = 0x620000 ∧ sysinfoBase = 0x74C000 := ⟨rfl, rfl⟩
  omega

/-- They lie apart from each other. -/
theorem isrStack_disjoint (h : Sound smpCores vm) (hc : c < coreCount smpCores)
    (hd : d < coreCount smpCores) (hcd : c ≠ d) {x : ℕ}
    (hx : (vm.cpus d).isrStackBase.toNat ≤ x)
    (hx' : x < (vm.cpus d).isrStackBase.toNat + isrStackBytes) :
    x < (vm.cpus c).isrStackBase.toNat ∨
      (vm.cpus c).isrStackBase.toNat + isrStackBytes ≤ x := by
  rw [isrStackBase_eq hcores h hc]
  rw [isrStackBase_eq hcores h hd] at hx hx'
  have hN : ¬ coreCount smpCores = 1 := by omega
  have hpool : perCoreStackBytes = 5120 := rfl
  have hoff : StackKind.isr.offset + isrStackBytes = 5120 := rfl
  have hmem : memSize = 67108864 := rfl
  simp only [coreStackStart, if_neg hN, hpool] at hx hx' ⊢
  omega

/-- The data may change. -/
theorem Realizes.withMemory (h : Realizes P smpCores g vm) {m m' : Bytes}
    (hin : ∀ x, P.InData x → m' x = m x) (hout : ∀ x, ¬ P.InData x → m' x = vm.memory x) :
    Realizes P smpCores (g.withMemory m) (vm.withMemory m') where
  sound := h.sound.congr rfl
  cpus := h.cpus
  data := hin
  laid := by
    have hcode := P.code_le
    have hend := P.dataEnd_le
    have hbase : ivtSize * 8 ≤ programBase := by decide
    refine (h.laid.congr (q := m') (fun x h1 h2 => hout x fun hx => ?_)
      (fun x hx => hout x fun hx' => ?_) fun c hc _ x h1 h2 => hout x fun hx => ?_).cpus rfl
      fun _ => rfl
    · have := hx.1
      omega
    · have := hx'.1
      omega
    · rw [← h.cpus] at h1 h2
      have hplace := (isrStack_place hcores h.sound hc h1 h2).2
      have hlo := hx.1
      have hhi := hx.2
      omega
  unmasked := h.unmasked
  handling := h.handling
  savedIp := h.savedIp
  released := h.released
  pending := h.pending
  halted := h.halted
  disk := h.disk
  worker := h.worker

/-! ## Instructions -/

/-- Instructions on the data. -/
theorem Realizes.step_within (h : Realizes P smpCores g vm) (hc : c < coreCount smpCores) {i : Asm}
    {s : CoreState} (hw : P.Within (g.cpus c) i) (hstep : i.step (g.core c) = some s) :
    ∃ v, execute c i.inst i.opcode vm = .ok ((), v) ∧
      Realizes P smpCores ((g.setCpu c s.cpu).withMemory s.memory) v := by
  have hcore : vm.core c = { g.core c with memory := vm.memory } := by
    simp only [Vm.core, Guest.core, h.cpus]
  have hip : (g.cpus c).ip < 2 ^ 32 := h.cpus ▸ (h.sound.core c hc).ip
  obtain ⟨m, hstep', hin, hout⟩ := GuestProgram.step_within (s := g.core c) hw hstep h.data
  rw [← hcore] at hstep'
  obtain ⟨v, hrun, hv⟩ := Asm.execute_of_step h.sound.guestRam hstep'
  obtain ⟨hcontext, hip'⟩ := GuestProgram.step_context (s := g.core c) hw hstep hip
  have hreal : Realizes P smpCores ((g.setCpu c s.cpu).withMemory s.memory)
      (vm.withCore c { s with memory := m }) :=
    (h.setCpu hcontext hip').withMemory hcores hin hout
  refine ⟨v, hrun, ?_⟩
  rcases hv with rfl | rfl
  · exact hreal
  · exact hreal.uncached

omit hcores in
theorem execute_startap (rd rs : Fin regCount) (hN : vm.smpCores = N) :
    execute c (Asm.startap rd rs).inst .startap vm = .ok ((),
      if (vm.cpus c).isBsp = true ∧ 0 < ((vm.cpus c).regs rd).toInt ∧
          ((vm.cpus c).regs rd).toInt < N then
        { vm.setCpu ((vm.cpus c).regs rd).toInt.toNat
            { vm.cpus ((vm.cpus c).regs rd).toInt.toNat with
              ip := ((vm.cpus c).regs rs).toNat, lastIp := ((vm.cpus c).regs rs).toNat } with
          coreReleased :=
            Function.update vm.coreReleased ((vm.cpus c).regs rd).toInt.toNat true }
      else vm) := by
  subst hN
  have hzero : (vm.cpus c).regs rs + (Asm.startap rd rs).inst.imm = (vm.cpus c).regs rs :=
    BitVec.add_zero _
  change execStartap c (Asm.startap rd rs).inst vm = _
  rw [execStartap, bind_ok (getCpu_apply c vm)]
  by_cases hbsp : (vm.cpus c).isBsp = true
  · rw [if_neg (not_not.mpr hbsp)]
    refine (bind_ok (readReg_regByte c rd vm)).trans ?_
    refine (bind_ok (readReg_regByte c rs vm)).trans ?_
    rw [bind_ok (get_apply vm), hzero]
    generalize ((vm.cpus c).regs rd).toInt = target
    by_cases hrange : target ≤ 0 ∨ target ≥ vm.smpCores
    · rw [if_pos hrange, if_neg (by omega)]
      rfl
    · have hindex : target.toNat < vm.smpCores := by omega
      rw [if_neg hrange, if_pos ⟨hbsp, by omega, by omega⟩, checkIndex_of_lt hindex,
        checkIndex_of_lt hindex]
      rfl
  · rw [if_pos hbsp, if_neg (by tauto)]
    rfl

omit hcores in
/-- Starting a core. -/
theorem Realizes.start (h : Realizes P smpCores g vm) (rd rs : Fin regCount) :
    ∃ v, execute c (Asm.startap rd rs).inst .startap vm = .ok ((), v) ∧
      Realizes P smpCores (g.start (coreCount smpCores) c ((g.cpus c).regs rd).toInt
        ((g.cpus c).regs rs)) v := by
  refine ⟨_, execute_startap rd rs h.sound.smpCores, ?_⟩
  rw [h.cpus, Guest.start]
  split_ifs with hstart
  · have hset (d : ℕ) : Realizes P smpCores
        (g.setCpu d { g.cpus d with
          ip := ((g.cpus c).regs rs).toNat, lastIp := ((g.cpus c).regs rs).toNat })
        (vm.setCpu d { g.cpus d with
          ip := ((g.cpus c).regs rs).toNat, lastIp := ((g.cpus c).regs rs).toNat }) :=
      h.setCpu rfl (BitVec.isLt _)
    replace hset := hset ((g.cpus c).regs rd).toInt.toNat
    refine ⟨hset.sound.congr rfl, hset.cpus, hset.data, hset.laid.cpus rfl fun _ => rfl,
      hset.unmasked, hset.handling, hset.savedIp, ?_, hset.pending, hset.halted, hset.disk,
      hset.worker⟩
    change Function.update vm.coreReleased _ true = Function.update g.released _ true
    rw [h.released]
  · exact h

omit hcores in
theorem exists_trigger (vm : Vm) (target : ℤ) (n : BitVec 32) :
    ∃ bitmap, triggerInterruptTarget target n vm =
      .ok ((), { vm with interruptBitmap := bitmap }) := by
  rw [triggerInterruptTarget, bind_ok (get_apply vm)]
  by_cases hcore : target < 0 ∨ target ≥ vm.smpCores
  · rw [if_pos hcore]
    exact ⟨vm.interruptBitmap, rfl⟩
  by_cases hn : n.toNat ≥ ivtSize
  · rw [if_neg hcore, if_pos hn]
    exact ⟨vm.interruptBitmap, rfl⟩
  have hidx : irqWordIndex target.toNat n < vm.smpCores * irqBitmapWords := by
    have hivt : ivtSize = 256 := rfl
    change target.toNat * 4 + n.toNat / 64 < vm.smpCores * 4
    omega
  rw [if_neg hcore, if_neg hn, checkIndex_of_lt hidx]
  exact ⟨_, rfl⟩

omit hcores in
theorem trigger_pendingSet {v : Vm} {target : ℤ} {n : BitVec 32}
    (h : triggerInterruptTarget target n vm = .ok ((), v)) :
    v.pendingSet = {p | p ∈ vm.pendingSet ∨
      target = p.1 ∧ p.1 < vm.smpCores ∧ n.toNat = p.2 ∧ p.2 < ivtSize} := by
  obtain ⟨bitmap, hrun⟩ := exists_trigger vm target n
  obtain rfl := (Prod.mk.inj (Except.ok.inj (h.symm.trans hrun))).2
  ext ⟨d, k⟩
  simp only [Set.mem_ofPred_eq, Vm.pendingSet]
  by_cases hk : k < ivtSize
  · rw [trigger_pending hk hrun, Bool.or_eq_true, decide_eq_true_eq]
    tauto
  · simp only [hk, false_and, and_false, or_self]

omit hcores in
/-- Triggers. -/
theorem Realizes.raise (h : Realizes P smpCores g vm) (target : ℤ) (n : BitVec 32) :
    ∃ v, triggerInterruptTarget target n vm = .ok ((), v) ∧
      Realizes P smpCores (g.raise (coreCount smpCores) target n) v := by
  obtain ⟨bitmap, hrun⟩ := exists_trigger vm target n
  refine ⟨_, hrun, h.sound.congr rfl, h.cpus, h.data, h.laid.cpus rfl fun _ => rfl, h.unmasked,
    h.handling, h.savedIp, h.released, ?_, h.halted, h.disk, h.worker⟩
  rw [trigger_pendingSet hrun, h.pending, h.sound.smpCores]
  rfl

omit hcores in
theorem Realizes.halt (h : Realizes P smpCores g vm) (c : ℕ) :
    Realizes P smpCores { g with stopped := insert c g.stopped } { vm with halted := true } where
  sound := h.sound.congr rfl
  cpus := h.cpus
  data := h.data
  laid := h.laid.cpus rfl fun _ => rfl
  unmasked := h.unmasked
  handling := h.handling
  savedIp := h.savedIp
  released := h.released
  pending := h.pending
  halted := ⟨fun _ => Set.insert_nonempty c g.stopped, fun _ => rfl⟩
  disk := h.disk
  worker := h.worker

omit hcores in
/-- Outside a handler the ISR stack is empty, inside it holds one context. -/
theorem Realizes.isp (h : Realizes P smpCores g vm) (hc : c < coreCount smpCores) :
    (g.interrupted c = none → (vm.cpus c).isp = isrStackSize) ∧
      (g.interrupted c ≠ none → (vm.cpus c).isp = isrStackSize - contextWords) := by
  rw [ne_eq, h.handling c, ← h.cpus]
  rcases (h.sound.core c hc).phase with ⟨hflag, hisp⟩ | ⟨hflag, hisp⟩
  · exact ⟨fun _ => hisp, fun hne => absurd hflag hne⟩
  · refine ⟨fun hzero => ?_, fun _ => hisp⟩
    rw [hflag] at hzero
    cases hzero

/-- What entry and return keep besides the core and its ISR stack. -/
theorem Realizes.besidesHandler (h : Realizes P smpCores g vm) {v : Vm} {g' : Guest}
    (hv : v.besidesHandler c = vm.besidesHandler c) (hsound : Sound smpCores v)
    (hcpu : g'.cpus = Function.update g.cpus c (v.cpus c))
    (hmem : ∀ x, x < (vm.cpus c).isrStackBase.toNat ∨
      (vm.cpus c).isrStackBase.toNat + isrStackBytes ≤ x → v.memory x = vm.memory x)
    (hc : c < coreCount smpCores) (hdata : g'.memory = g.memory)
    (hreleased : g'.released = g.released) (hpending : g'.pending = g.pending)
    (hstopped : g'.stopped = g.stopped)
    (hothers : ∀ d, d ≠ c → g'.interrupted d = g.interrupted d)
    (hhandling : g'.interrupted c = none ↔ (v.cpus c).inInterrupt = 0)
    (hsaved : ∀ cpu, g'.interrupted c = some cpu → cpu.ip < 2 ^ 32 ∧
      StackHolds v.memory (v.cpus c).isrStackBase.toNat 222 (savedContext cpu)) :
    Realizes P smpCores g' v := by
  have hbesides := cpu_of_besidesHandler hv
  have hmasked : (v.cpus c).irqMasked = (vm.cpus c).irqMasked :=
    (congrArg Vcpu.irqMasked hbesides :)
  have hcore : ∀ d, d ≠ c → g'.cpus d = g.cpus d := fun d hd => by
    rw [hcpu, Function.update_of_ne hd]
  have hself : g'.cpus c = v.cpus c := by rw [hcpu, Function.update_self]
  have hcode := P.code_le
  have horder := P.order
  have hend := P.dataEnd_le
  refine ⟨hsound, ?_, fun x hx => ?_, ⟨?_, fun n hn => ?_, fun d hd cpu hsome => ?_⟩, fun d => ?_,
    fun d => ?_, fun d cpu hsome => ?_, ?_, ?_, ?_, ?_, ?_⟩
  · rw [cpus_of_besidesHandler hv, h.cpus, hcpu]
  · rw [hdata, ← h.data x hx]
    refine hmem x ?_
    by_contra hin
    have hplace := (isrStack_place hcores h.sound hc (x := x) (by omega) (by omega)).2
    have hlo := hx.1
    have hhi := hx.2
    omega
  · refine h.laid.code.congr fun x h1 h2 => hmem x ?_
    by_contra hin
    have hplace := (isrStack_place hcores h.sound hc (x := x) (by omega) (by omega)).2
    omega
  · rw [← h.laid.vectors n hn]
    have hto := ivtEntry_toNat hn
    have hivt : ivtSize = 256 := rfl
    refine leNat_congr fun x h1 h2 => hmem x ?_
    by_contra hin
    have hplace := (isrStack_place hcores h.sound hc (x := x) (by omega) (by omega)).1
    omega
  · by_cases hdc : d = c
    · subst hdc
      rw [hself]
      exact (hsaved cpu hsome).2
    · rw [hcore d hdc]
      have hisr : isrStackBytes = 8 * (222 + 34) := rfl
      rw [hothers d hdc] at hsome
      refine (h.laid.saved d hd cpu hsome).congr fun x h1 h2 => hmem x ?_
      rw [savedContext_length] at h2
      rw [← h.cpus] at h1 h2
      exact isrStack_disjoint hcores h.sound hc hd (Ne.symm hdc) h1 (by omega)
  · by_cases hdc : d = c
    · subst hdc
      rw [hself, hmasked, h.cpus]
      exact h.unmasked d
    · rw [hcore d hdc]
      exact h.unmasked d
  · by_cases hdc : d = c
    · subst hdc
      rw [hself]
      exact hhandling
    · rw [hcore d hdc, hothers d hdc]
      exact h.handling d
  · by_cases hdc : d = c
    · subst hdc
      exact (hsaved cpu hsome).1
    · exact h.savedIp d cpu (hothers d hdc ▸ hsome)
  · rw [hreleased, ← h.released]
    exact (congrArg Vm.coreReleased hv :)
  · rw [hpending, ← h.pending]
    have hbitmap : v.interruptBitmap = vm.interruptBitmap := (congrArg Vm.interruptBitmap hv :)
    have hN : v.smpCores = vm.smpCores := (congrArg Vm.smpCores hv :)
    simp only [Vm.pendingSet, Vm.pending, hbitmap, hN]
  · rw [hstopped, ← h.halted]
    have hhalted : v.halted = vm.halted := (congrArg Vm.halted hv :)
    rw [hhalted]
  · have hdisk : v.disk = vm.disk := (congrArg Vm.disk hv :)
    rw [hdisk]
    exact h.disk
  · have hworker : v.diskWorker = vm.diskWorker := (congrArg Vm.diskWorker hv :)
    rw [hworker]
    exact h.worker

/-- Return from a handler. -/
theorem Realizes.resume (h : Realizes P smpCores g vm) (hc : c < coreCount smpCores) :
    ∃ v, vmIret c vm = .ok ((), v) ∧ Realizes P smpCores (g.resume c) v := by
  cases hg : g.interrupted c with
  | none =>
    have hflag : (vm.cpus c).inInterrupt = 0 := by
      rw [h.cpus]
      exact (h.handling c).mp hg
    refine ⟨vm, ?_, ?_⟩
    · rw [vmIret, bind_ok (getCpu_apply c vm), if_pos hflag]
      rfl
    · rwa [Guest.resume, hg]
  | some saved =>
    have hne : g.interrupted c ≠ none := by simp [hg]
    have hflag : (vm.cpus c).inInterrupt ≠ 0 := by
      rw [h.cpus]
      exact mt (h.handling c).mpr hne
    obtain ⟨v, hrun, hrestored⟩ := vmIret_restores (h.savedIp c saved hg) hflag
      ((h.isp hc).2 hne) (isrRegion_of_inv hcores hc h.sound)
      (by rw [h.cpus]; exact h.laid.saved c hc saved hg)
    have hbesides := (handlerFree_besides vm c).vmIret.ok rfl hrun
    have hmemory := (handlerFree_memory (c := c) vm.memory).vmIret.ok rfl hrun
    have hsound := (kept_vmIret hc (settled_mayReturn c)).ok h.sound hrun
    have hcpu := hrestored.eq (cpu_of_besidesHandler hbesides)
    refine ⟨v, hrun, ?_⟩
    rw [Guest.resume, hg]
    refine h.besidesHandler hcores hbesides hsound ?_ (fun x _ => by rw [hmemory]) hc rfl rfl rfl
      rfl (fun d hd => Function.update_of_ne hd _ _) ?_ fun cpu hsome => ?_
    · rw [hcpu, h.cpus]
      rfl
    · simp [hcpu]
    · simp at hsome

/-- An instruction has the effect that it has on the abstract machine. -/
theorem Realizes.execute (h : Realizes P smpCores g vm) (hc : c < coreCount smpCores) {i : Asm}
    {g' : Guest} (hi : P.execute (coreCount smpCores) c g i = some g') :
    ∃ v, execute c i.inst i.opcode vm = .ok ((), v) ∧ Realizes P smpCores g' v := by
  cases i with
  | startap rd rs =>
    obtain rfl := Option.some.inj hi
    exact h.start rd rs
  | ipi rd rs =>
    obtain rfl := Option.some.inj hi
    obtain ⟨v, hrun, hv⟩ := h.raise ((g.cpus c).regs rd).toInt ((g.cpus c).regs rs)
    refine ⟨v, ?_, hv⟩
    rw [← h.cpus] at hrun
    exact (bind_ok (readReg_regByte c rd vm)).trans ((bind_ok (readReg_regByte c rs vm)).trans hrun)
  | halt =>
    obtain rfl := Option.some.inj hi
    exact ⟨_, rfl, h.halt c⟩
  | iret =>
    obtain rfl := Option.some.inj hi
    exact h.resume hcores hc
  | mov | movi | load32 | store32 | cmpi | jmp | jump | call | cpuid | pause =>
    simp only [GuestProgram.execute] at hi
    split_ifs at hi with hw
    obtain ⟨s, hstep, rfl⟩ := Option.map_eq_some_iff.mp hi
    exact h.step_within hcores hc hw hstep

omit hcores in
/-- The code is in memory. -/
theorem Realizes.fetches (h : Realizes P smpCores g vm) {i : Asm}
    (hfetch : P.Fetches (g.cpus c) i) : (vm.core c).Fetches i := by
  obtain ⟨k, hk, hip⟩ := hfetch
  have hlt := (List.getElem?_eq_some_iff.mp hk).1
  have hcode := P.code_le
  have horder := P.order
  have hend := P.dataEnd_le
  have hsize : memSize = 67108864 ∧ fbLegacyBase = 0x620000 := ⟨rfl, rfl⟩
  simp only [CoreState.Fetches, Vm.core, h.cpus, hip]
  exact ⟨by omega, h.laid.code k i hk⟩

/-- An instruction of the machine is one of the abstract machine. -/
theorem Realizes.instruction (h : Realizes P smpCores g vm) (hc : c < coreCount smpCores) {i : Asm}
    {g' : Guest} (hfetch : P.Fetches (g.cpus c) i)
    (hi : P.execute (coreCount smpCores) c (g.fetched c) i = some g') :
    ∃ v, vmInstructionCase c vm = .ok ((), v) ∧ Realizes P smpCores g' v := by
  rw [vmInstructionCase_of_fetches h.sound.guestRam (h.fetches hfetch)]
  exact (h.fetched c).execute hcores hc hi

/-! ## Interrupts -/

/-- A vector is taken. -/
theorem Realizes.enter (h : Realizes P smpCores g vm) (hc : c < coreCount smpCores) {n : ℕ}
    (hn : n < ivtSize) (hg : g.interrupted c = none) :
    ∃ v, vmEnterInterrupt c (BitVec.ofNat 32 n) vm = .ok ((), v) ∧
      Realizes P smpCores (P.enter c n g) v := by
  have hivt : ivtSize = 256 := rfl
  have hto : (BitVec.ofNat 32 n).toNat = n := by
    rw [BitVec.toNat_ofNat]
    omega
  have hlt : (BitVec.ofNat 32 n).toNat < ivtSize := by rwa [hto]
  have hflag : (vm.cpus c).inInterrupt = 0 := by
    rw [h.cpus]
    exact (h.handling c).mp hg
  have hplain := ivtEntry_plain h.sound hlt
  have hword : vm.ivtWord (BitVec.ofNat 32 n) = P.vector n := by
    rw [Vm.ivtWord, h.laid.vectors _ hlt, hto, BitVec.ofNat_toNat, BitVec.setWidth_eq]
  cases hp : P.handler n with
  | none =>
    have hread : vmRead64 (ivtEntry (BitVec.ofNat 32 n)) vm =
        .ok (vm.ivtWord (BitVec.ofNat 32 n), vm.uncached) :=
      vmRead64_plain h.sound.cache hplain fun _ => by
        rw [ivtEntry_toNat hlt]
        omega
    have hnone : vm.ivtWord (BitVec.ofNat 32 n) = BitVec.allOnes 64 := by
      rw [hword, GuestProgram.vector, hp]
    refine ⟨vm.uncached, ?_, ?_⟩
    · rw [vmEnterInterrupt, bind_ok (getCpu_apply c vm), if_neg (by omega),
        if_neg (not_not.mpr hflag), bind_ok hread, if_pos hnone]
      rfl
    · rw [GuestProgram.enter, hp]
      exact h.uncached
  | some entry =>
    have hentry : vm.ivtWord (BitVec.ofNat 32 n) = entry.setWidth 64 := by
      rw [hword, GuestProgram.vector, hp]
    have hne : vm.ivtWord (BitVec.ofNat 32 n) ≠ BitVec.allOnes 64 := by
      rw [hentry]
      intro hones
      have htop := congrArg BitVec.toNat hones
      have hsmall := entry.isLt
      rw [BitVec.toNat_setWidth, BitVec.toNat_allOnes] at htop
      omega
    obtain ⟨v, hrun, hcpu, hsaved, hkept⟩ := vmEnterInterrupt_saves hlt
      (isrRegion_of_inv hcores hc h.sound) ((h.isp hc).1 hg) hflag hplain hne
    have hbesides := ((handlerFree_besides vm c).vmEnterInterrupt (fun _ _ hv => hv) _).ok rfl hrun
    have hsound := (kept_vmEnterInterrupt hc (settled_mayEnter c) _).ok h.sound hrun
    rw [hentry] at hcpu
    refine ⟨v, hrun, ?_⟩
    rw [GuestProgram.enter, hp]
    refine h.besidesHandler hcores hbesides hsound ?_ hkept hc rfl rfl rfl rfl
      (fun d hd => Function.update_of_ne hd _ _) ?_ fun cpu hsome => ?_
    · rw [hcpu, h.cpus]
      rfl
    · simp [hcpu, Vcpu.inHandler]
    · obtain rfl : g.cpus c = cpu := by simpa using hsome
      refine ⟨h.cpus ▸ (h.sound.core c hc).ip, ?_⟩
      have hbase : (v.cpus c).isrStackBase = (vm.cpus c).isrStackBase := by
        rw [hcpu]
        rfl
      rw [hbase, ← h.cpus]
      exact hsaved

/-- Between two instructions a core takes no vector, or one that is pending. -/
theorem Realizes.handleInterrupts (h : Realizes P smpCores g vm) (hc : c < coreCount smpCores) :
    ∃ v, vmHandleInterrupts c vm = .ok ((), v) ∧
      (Realizes P smpCores g v ∧ (g.interrupted c = none → ∀ n, (c, n) ∉ g.pending) ∨
        ∃ n, g.interrupted c = none ∧ (c, n) ∈ g.pending ∧
          Realizes P smpCores (P.enter c n { g with pending := g.pending \ {(c, n)} }) v) := by
  rw [vmHandleInterrupts, bind_ok (getCpu_apply c vm)]
  by_cases hflag : (vm.cpus c).inInterrupt = 0
  · have hmask : (vm.cpus c).irqMasked = 0 := by
      rw [h.cpus]
      exact h.unmasked c
    have hg : g.interrupted c = none := by
      rw [h.handling, ← h.cpus]
      exact hflag
    rw [if_neg (not_not.mpr hflag), if_neg (not_not.mpr hmask), (h.sound.core c hc).coreId]
    rcases deliverFirst_cases (d := c) (h.sound.smpCores ▸ hc)
      (fun w hw => List.mem_range.mp hw) with ⟨hnone, hzero⟩ | ⟨n, bitmap, hn, hmem, hset, hrun⟩
    · exact ⟨vm, hnone, .inl ⟨h, fun _ n => h.pending ▸ not_pending_of_zero hzero⟩⟩
    · have hcleared : Realizes P smpCores { g with pending := g.pending \ {(c, n)} }
          { vm with interruptBitmap := bitmap } :=
        ⟨h.sound.congr rfl, h.cpus, h.data, h.laid.cpus rfl fun _ => rfl, h.unmasked, h.handling,
          h.savedIp, h.released, by rw [hset, h.pending], h.halted, h.disk, h.worker⟩
      obtain ⟨v, hrun', hv⟩ := hcleared.enter hcores hc hn hg
      exact ⟨v, hrun.trans hrun', .inr ⟨n, hg, h.pending ▸ hmem, hv⟩⟩
  · rw [if_pos hflag]
    refine ⟨vm, rfl, .inl ⟨h, fun hidle => absurd ?_ hflag⟩⟩
    rw [h.cpus]
    exact (h.handling c).mp hidle

end Realizes

/-! ## Devices -/

section Devices

variable {P : GuestProgram} {smpCores : ℤ} {g : Guest} {vm t : Vm}

/-- What the serial line and the timer change only through a trigger. -/
def Vm.signals (vm : Vm) : ℕ × (ℕ → BitVec 64) × Disk × DiskWorker :=
  (vm.smpCores, vm.interruptBitmap, vm.disk, vm.diskWorker)

/-- An assertion about the signals that a trigger of vector `n` keeps. -/
structure SignalFree (n : BitVec 32) (I : Vm → Prop) : Prop where
  quiet : ∀ s t, I s → t.signals = s.signals → I t
  trigger : ∀ s t, I s → triggerInterrupt n s = .ok ((), t) → I t

variable {n : BitVec 32} {I : Vm → Prop}

theorem SignalFree.safe_trigger (h : SignalFree n I) :
    Safe I (fun _ => True) (triggerInterrupt n) := by
  intro s hs
  cases hrun : triggerInterrupt n s with
  | ok r => exact h.trigger s r.2 hs hrun
  | error e => trivial

theorem SignalFree.vmSerialRxEnqueue (h : SignalFree intSerial I) (b : BitVec 8) :
    Safe I (fun _ => True) (vmSerialRxEnqueue b) := by
  refine safe_bind safe_get fun vm => safe_ite (fun _ => safe_pure _) fun _ =>
    safe_bind (safe_checkIndex_of_fault (fun _ _ => trivial) _ _ _) fun _ => safe_bind
      (safe_modify fun _ hs => h.quiet _ _ hs rfl)
      fun _ => safe_ite (fun _ => ?_) fun _ => safe_pure _
  refine safe_bind (safe_readFifo_of_fault (fun _ _ => trivial) _) fun _ => safe_bind
    (safe_modify fun _ hs => h.quiet _ _ hs rfl) fun _ => safe_bind
    (safe_modify fun _ hs => h.quiet _ _ hs rfl) fun _ => safe_bind safe_get fun _ => ?_
  exact safe_ite (fun _ => safe_bind h.safe_trigger fun _ => safe_pure _) fun _ => safe_pure _

theorem SignalFree.timerTick (h : SignalFree intTimer I) : Safe I (fun _ => True) timerTick := by
  have hclock : ClockFree I := fun s t hs hst => h.quiet s t hs (congrArg Vm.signals hst :)
  refine safe_bind safe_get fun vm => safe_ite (fun _ => safe_pure _) fun _ =>
    safe_ite (fun _ => safe_modify fun _ hs => h.quiet _ _ hs rfl) fun _ =>
    safe_ite (fun _ => safe_modify fun _ hs => h.quiet _ _ hs rfl) fun _ => ?_
  refine safe_bind hclock.hostMonotonicTimeNs fun now => safe_bind
    (safe_modify fun _ hs => h.quiet _ _ hs rfl)
    fun _ => safe_ite (fun _ => safe_pure _) fun _ => ?_
  exact safe_bind h.safe_trigger fun _ => safe_bind hclock.hostMonotonicTimeNs fun _ =>
    safe_modify fun _ hs => h.quiet _ _ hs rfl

/-- A device that triggers at most one vector leaves the guest alone or raises it. -/
theorem Realizes.device (h : Realizes P smpCores g vm) (hsound : Sound smpCores t)
    (hbesides : t.besidesDevices = vm.besidesDevices)
    (hrule : ∀ I, SignalFree n I → I vm → I t) :
    Realizes P smpCores g t ∨ Realizes P smpCores (g.raise (coreCount smpCores) 0 n) t := by
  have hN := h.sound.smpCores
  have hfree : SignalFree n fun u => u.smpCores = coreCount smpCores ∧ u.disk = vm.disk ∧
      u.diskWorker = vm.diskWorker ∧ (u.pendingSet = g.pending ∨
        u.pendingSet = (g.raise (coreCount smpCores) 0 n).pending) := by
    constructor
    · rintro s u ⟨hcores, hdisk, hworker, hpending⟩ hsignals
      simp only [Vm.signals, Prod.mk.injEq] at hsignals
      obtain ⟨h1, h2, h3, h4⟩ := hsignals
      have hset : u.pendingSet = s.pendingSet := by
        simp only [Vm.pendingSet, Vm.pending, h1, h2]
      exact ⟨h1.trans hcores, h3.trans hdisk, h4.trans hworker, by rwa [hset]⟩
    · rintro s u ⟨hcores, hdisk, hworker, hpending⟩ hrun
      have hset := trigger_pendingSet hrun
      obtain ⟨bitmap, hrun'⟩ := exists_trigger s 0 n
      obtain rfl := (Prod.mk.inj (Except.ok.inj (hrun.symm.trans hrun'))).2
      refine ⟨hcores, hdisk, hworker, .inr ?_⟩
      rw [hset, hcores]
      rcases hpending with hp | hp
      · rw [hp]
        rfl
      · rw [hp]
        ext p
        simp only [Guest.raise, Set.mem_ofPred_eq]
        tauto
  obtain ⟨-, hdisk, hworker, hpending⟩ :=
    hrule _ hfree ⟨hN, rfl, rfl, .inl h.pending⟩
  have hcpus : t.cpus = vm.cpus := (congrArg Vm.cpus hbesides :)
  have hmemory : t.memory = vm.memory := (congrArg Vm.memory hbesides :)
  have hreleased : t.coreReleased = vm.coreReleased := (congrArg Vm.coreReleased hbesides :)
  have hhalted : t.halted = vm.halted := (congrArg Vm.halted hbesides :)
  have hreal : ∀ pending, t.pendingSet = pending →
      Realizes P smpCores { g with pending := pending } t := fun pending hp =>
    ⟨hsound, hcpus.trans h.cpus, fun x hx => by rw [hmemory]; exact h.data x hx,
      hmemory ▸ h.laid.cpus rfl fun _ => rfl, h.unmasked, h.handling, h.savedIp,
      hreleased.trans h.released, hp, by rw [hhalted]; exact h.halted, by rw [hdisk]; exact h.disk,
      by rw [hworker]; exact h.worker⟩
  rcases hpending with hp | hp
  · exact .inl (hreal _ hp)
  · exact .inr (hreal _ hp)

/-- The worker has nothing to do. -/
theorem Realizes.worker_exit (h : Realizes P smpCores g vm) {w : DiskWorker}
    (hw : w = .waiting ∨ w = .exited) : Realizes P smpCores g { vm with diskWorker := w } :=
  ⟨h.sound.congr rfl, h.cpus, h.data, h.laid, h.unmasked, h.handling, h.savedIp, h.released,
    h.pending, h.halted, h.disk, hw⟩

theorem Realizes.diskTick (h : Realizes P smpCores g vm) : diskTick vm = .ok ((), vm) :=
  diskTick_of_free h.disk.1

/-- A step of a device thread is one of the abstract machine, or none. -/
theorem Realizes.deviceEvent (h : Realizes P smpCores g vm) {e : Event} (he : e.isDevice = true)
    (hrun : runEvent e vm = .ok ((), t)) :
    Realizes P smpCores g t ∨ ∃ n, (n = intSerial ∨ n = intTimer) ∧
      Realizes P smpCores (g.raise (coreCount smpCores) 0 n) t := by
  have hsound : Sound smpCores t :=
    h.sound.step (e := e) ⟨(device_event he vm 0).1, hrun⟩
  cases e with
  | handleInterrupts c | instruction c | diskTick | registerIsr n a => cases he
  | workerTake =>
    rw [workerTake_ok hrun]
    refine .inl (h.worker_exit ?_)
    rcases h.worker with hw | hw
    · rw [hw, DiskWorker.take]
      split_ifs with h1 h2
      · exact .inl rfl
      · exact absurd ⟨h.disk.2, h2⟩ h1
      · exact .inr rfl
    · rw [hw]
      exact .inr rfl
  | workerTransfer host =>
    obtain ⟨job, -, -, hjob, -⟩ | ⟨-, rfl⟩ := workerTransfer_cases hrun
    · rcases h.worker with hw | hw <;> rw [hw] at hjob <;> cases hjob
    · exact .inl h
  | workerComplete =>
    obtain ⟨job, hjob, -⟩ | ⟨-, rfl⟩ := workerComplete_cases hrun
    · rcases h.worker with hw | hw <;> rw [hw] at hjob <;> cases hjob
    · exact .inl h
  | serialRx b =>
    have hsafe {I : Vm → Prop} (hI : Safe I (fun _ => True) (vmSerialRxEnqueue b)) :
        Safe I (fun _ => True) (runEvent (.serialRx b)) := safe_bind hI fun _ => safe_pure _
    have hbesides : t.besidesDevices = vm.besidesDevices :=
      (hsafe (DeviceFree.vmSerialRxEnqueue (I := fun u => u.besidesDevices = vm.besidesDevices)
        (fun _ _ hs hst => hst.trans hs) (fun _ _ => trivial) b)).ok rfl hrun
    exact (h.device (n := intSerial) hsound hbesides fun I hI hv =>
      (hsafe (hI.vmSerialRxEnqueue b)).ok hv hrun).imp_right fun hr => ⟨_, .inl rfl, hr⟩
  | timerTick =>
    have hbesides : t.besidesDevices = vm.besidesDevices :=
      (DeviceFree.timerTick (I := fun u => u.besidesDevices = vm.besidesDevices)
        (E := fun _ => True) fun _ _ hs hst => hst.trans hs).ok rfl hrun
    exact (h.device (n := intTimer) hsound hbesides fun I hI hv =>
      hI.timerTick.ok hv hrun).imp_right fun hr => ⟨_, .inr rfl, hr⟩

end Devices

end LampVm
