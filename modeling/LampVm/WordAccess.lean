import LampVm.GuestThreads

/-!
# Loads and stores of words, statement by statement

`LOAD32` and `STORE32` go through the lookup cache of `find_mmio`, which has no lock, and then take
the four bytes one at a time, while the other threads go on. An instruction that does not touch the
bytes of an access commutes with it.
-/
namespace LampVm

open ByteOrder Contract Transition

/-! ## Loads and stores under way -/

/-- `LOAD32` into a register, or `STORE32` of a value. -/
inductive WordOp
  | load (rd : Fin regCount)
  | store (value : BitVec 32)

/-- The load or store of a word that an instruction is, and its address. -/
def Inst.word (i : Inst) (cpu : Vcpu) : Option (WordOp × BitVec 32) :=
  if h : i.rd.toNat < regCount ∧ i.rs1.toNat < regCount then
    let addr := cpu.regs ⟨i.rs1.toNat, h.2⟩ + i.imm
    match Opcode.ofByte i.op with
    | some .load32 => some (.load ⟨i.rd.toNat, h.1⟩, addr)
    | some .store32 => some (.store (cpu.regs ⟨i.rd.toNat, h.1⟩), addr)
    | _ => none
  else none

/-- The statements of `vm_read32` and `vm_write32` for an address in RAM. -/
inductive WordPlace
  /-- `MMIO_Device *cached = vm->mmio_cache_dev` -/
  | lookup
  /-- The test of the bounds, and the scan of the devices, which nobody changes. -/
  | test (cached : Option MmioDevice)
  /-- `vm->mmio_cache_dev = NULL`, and the test of `in_ram`. -/
  | clear
  /-- Byte `k`, with the bytes before it in `v`. -/
  | byte (k : ℕ) (v : BitVec 32)

structure WordAccess where
  op : WordOp
  addr : BitVec 32
  place : WordPlace

/-- One statement. There is none where the code panics or goes to a device, nor behind the last
byte. -/
def WordAccess.next (a : WordAccess) (vm : Vm) : Option (Vm × WordPlace) :=
  match a.place with
  | .lookup =>
    if vm.memcheck ∧ a.addr.toNat % 4 ≠ 0 then none else some (vm, .test vm.mmioCacheDev)
  | .test cached =>
    if cached.isSome ∧ vm.mmioCacheStart ≤ a.addr ∧ a.addr ≤ vm.mmioCacheEnd then none
    else if (scanMmio vm.mmioDevices a.addr).isSome then none else some (vm, .clear)
  | .clear => if inRam vm a.addr 4 then some (vm.uncached, .byte 0 0) else none
  | .byte k v =>
    let x := (a.addr + BitVec.ofNat 32 k).toNat
    if k < 4 then
      match a.op with
      | .load _ => some (vm, .byte (k + 1) (v ||| (vm.memory x).setWidth 32 <<< (8 * k)))
      | .store value =>
        let b := (value >>> (8 * k) &&& 0xFF).setWidth 8
        some (vm.withMemory (Function.update vm.memory x b), .byte (k + 1) v)
    else none

/-- What is left to do when all bytes are there. -/
def WordAccess.finish (c : ℕ) (a : WordAccess) (vm : Vm) : Option Vm :=
  match a.place with
  | .byte k v =>
    if k < 4 then none
    else
      match a.op with
      | .load rd => some (vm.setCpu c ((vm.cpus c).setReg rd v))
      | .store _ => some vm
  | _ => none

/-- The statements of an access with nothing in between. -/
def WordAccess.alone (w : WordAccess) : ℕ → Vm → Option (Vm × WordPlace)
  | 0, vm => some (vm, w.place)
  | n + 1, vm => (w.next vm).bind fun r => { w with place := r.2 }.alone n r.1

section Alone

variable {vm t : Vm} {a v : BitVec 32} {op : WordOp} {n : ℕ} {r : Vm × WordPlace}

/-- Up to the bytes. -/
theorem alone_lookup (h : (⟨op, a, .lookup⟩ : WordAccess).alone (n + 3) vm = some r) :
    AlignOk vm 4 a ∧ findMmio a vm = .ok (none, vm.uncached) ∧ inRam vm.uncached a 4 ∧
      (⟨op, a, .byte 0 0⟩ : WordAccess).alone n vm.uncached = some r := by
  obtain ⟨r₁, h₁, h⟩ := Option.bind_eq_some_iff.mp h
  simp only [WordAccess.next] at h₁
  split_ifs at h₁ with hal
  obtain rfl := Option.some.inj h₁
  obtain ⟨r₂, h₂, h⟩ := Option.bind_eq_some_iff.mp h
  simp only [WordAccess.next] at h₂
  split_ifs at h₂ with hhit hscan
  obtain rfl := Option.some.inj h₂
  obtain ⟨r₃, h₃, h⟩ := Option.bind_eq_some_iff.mp h
  simp only [WordAccess.next] at h₃
  split_ifs at h₃ with hram
  obtain rfl := Option.some.inj h₃
  refine ⟨fun hcheck => by_contra fun hne => hal ⟨hcheck, hne⟩, ?_, hram, h⟩
  have hmiss : vm.mmioCacheHit a = none := by
    unfold Vm.mmioCacheHit
    cases hdev : vm.mmioCacheDev with
    | none => rfl
    | some dev => exact if_neg fun hin => hhit ⟨by rw [hdev]; rfl, hin⟩
  rw [Option.not_isSome_iff_eq_none] at hscan
  simp only [findMmio, bind_apply, get_apply, hmiss, hscan, set_apply, pure_apply]
  rfl

theorem byte_lt (h : inRam vm a 4) {k : ℕ} (hk : k < 4) :
    (a + BitVec.ofNat 32 k).toNat < vm.memorySize := by
  have hle : (a + BitVec.ofNat 32 k).toNat ≤ a.toNat + k := by
    rw [BitVec.toNat_add, BitVec.toNat_ofNat]
    exact (Nat.mod_le _ _).trans (Nat.add_le_add_left (Nat.mod_le _ _) _)
  have hend : a.toNat + 4 ≤ vm.memorySize := h
  omega

/-- The statements on their own are `vm_read32` and `vm_write32`. -/
theorem vmRead32_of_alone {rd : Fin regCount}
    (h : (⟨.load rd, a, .lookup⟩ : WordAccess).alone 7 vm = some (t, .byte 4 v)) :
    vmRead32 a vm = .ok (v, t) := by
  obtain ⟨hal, hfind, hram, hbytes⟩ := alone_lookup h
  have hbyte (k : ℕ) (hk : k < 4) : loadByte (a + BitVec.ofNat 32 k).toNat vm.uncached =
      .ok (vm.uncached.memory (a + BitVec.ofNat 32 k).toNat, vm.uncached) :=
    loadByte_of_lt (byte_lt hram hk)
  obtain ⟨rfl, hv⟩ := Prod.mk.inj (Option.some.inj hbytes)
  injection hv with _ hv
  subst hv
  rw [vmRead32, bind_ok (memcheckAlign_of_alignOk hal), bind_ok hfind]
  exact (bind_ok (requireRam_of_inRam hram)).trans <| (bind_ok (hbyte 0 (by decide))).trans <|
    (bind_ok (hbyte 1 (by decide))).trans <| (bind_ok (hbyte 2 (by decide))).trans <|
    (bind_ok (hbyte 3 (by decide))).trans rfl

theorem vmWrite32_of_alone {value : BitVec 32}
    (h : (⟨.store value, a, .lookup⟩ : WordAccess).alone 7 vm = some (t, .byte 4 v)) :
    vmWrite32 a value vm = .ok ((), t) := by
  obtain ⟨hal, hfind, hram, hbytes⟩ := alone_lookup h
  have hbyte (k : ℕ) (hk : k < 4) (m : Bytes) (b : BitVec 8) :
      storeByte (a + BitVec.ofNat 32 k).toNat b (vm.uncached.withMemory m) =
        .ok ((), vm.uncached.withMemory (Function.update m (a + BitVec.ofNat 32 k).toNat b)) :=
    storeByte_of_lt (vm.uncached.withMemory m) (byte_lt hram hk) b
  obtain ⟨rfl, -⟩ := Prod.mk.inj (Option.some.inj hbytes)
  rw [vmWrite32, bind_ok (memcheckAlign_of_alignOk hal), bind_ok hfind]
  exact (bind_ok (requireRam_of_inRam hram)).trans <| (bind_ok (hbyte 0 (by decide) _ _)).trans <|
    (bind_ok (hbyte 1 (by decide) _ _)).trans <| (bind_ok (hbyte 2 (by decide) _ _)).trans <|
    hbyte 3 (by decide) _ _

end Alone

/-- The machine with its threads and the loads and stores that they are in. -/
structure WordRun where
  run : VmRun
  access : ℕ → Option WordAccess

def WordRun.start (vm : Vm) : WordRun := ⟨.start vm, fun _ => none⟩

/-- The load or store that a thread is about to begin. -/
def VmRun.word (s : VmRun) (c : ℕ) : Option (WordOp × BitVec 32) :=
  if (s.threads c).place = .instruction ∧ inRam s.vm (s.vm.cpus c).fetchIp 8 then
    (s.vm.nextInst c).word (s.vm.cpus c)
  else none

inductive WordLabel
  /-- A step in one piece. -/
  | piece (l : RunLabel)
  /-- A load or a store is fetched, takes a statement, and comes to its end. -/
  | fetch (c : ℕ)
  | access (c : ℕ)
  | finish (c : ℕ)

/-- The loops of `vm_run` with loads and stores of words that overlap in any way: with nothing in
between they are those of `memory.c` (`vmRead32_of_alone`, `vmWrite32_of_alone`). All other
statements are in one piece. -/
def wordRun (smpCores : ℤ) : System WordRun WordLabel where
  init s := (vmRun memSize smpCores).init s.run ∧ s.access = fun _ => none
  step s l t :=
    match l with
    | .piece l =>
      (∀ c, l = .thread c → s.access c = none ∧ s.run.word c = none) ∧
        (vmRun memSize smpCores).step s.run l t.run ∧ t.access = s.access
    | .fetch c =>
      c < s.run.vm.smpCores ∧ s.access c = none ∧ ∃ op addr, s.run.word c = some (op, addr) ∧
        t = ⟨{ s.run with vm := s.run.vm.fetched c },
          Function.update s.access c (some ⟨op, addr, .lookup⟩)⟩
    | .access c =>
      ∃ a vm place, s.access c = some a ∧ a.next s.run.vm = some (vm, place) ∧
        t = ⟨{ s.run with vm := vm }, Function.update s.access c (some { a with place := place })⟩
    | .finish c =>
      ∃ a vm, s.access c = some a ∧ a.finish c s.run.vm = some vm ∧
        t = ⟨VmRun.put c .count (s.run.counters c) { s.run with vm := vm },
          Function.update s.access c none⟩

/-- The events of a step. A load or a store is executed when it comes to its end. -/
def wordEvents (s : WordRun) : WordLabel → List Event
  | .piece l => runEvents s.run l
  | .finish c => [.instruction c]
  | .fetch _ | .access _ => []

/-- The thread that takes the step. -/
def WordLabel.thread : WordLabel → Option ℕ
  | .piece l => l.core
  | .fetch c | .access c | .finish c => some c

/-! ## Races -/

/-- The load or store that an instruction is. -/
def Asm.word (i : Asm) (cpu : Vcpu) : Option (WordOp × BitVec 32) :=
  match i with
  | .load32 rd rs imm => some (.load rd, cpu.regs rs + imm)
  | .store32 rd rs imm => some (.store (cpu.regs rd), cpu.regs rs + imm)
  | _ => none

def WordOp.stores : WordOp → Bool
  | .load _ => false
  | .store _ => true

/-- No core is about to store what another one is about to load or to store, and none is about to
start one that runs. -/
structure GuestProgram.RaceFree (P : GuestProgram) (N : ℕ) (g : Guest) : Prop where
  data : ∀ c d i j op op' a b, c ≠ d → g.Runs N c → g.Runs N d →
    P.Fetches (g.cpus c) i → P.Fetches (g.cpus d) j →
    i.word (g.cpus c) = some (op, a) → j.word (g.cpus d) = some (op', b) → op.stores = true →
    a.toNat + 4 ≤ b.toNat ∨ b.toNat + 4 ≤ a.toNat
  start : ∀ c d rd rs, g.Runs N c → g.Runs N d → P.Fetches (g.cpus c) (.startap rd rs) →
    (g.cpus c).isBsp = true → ((g.cpus c).regs rd).toInt ≠ d

section Words

variable {P : GuestProgram} {N c : ℕ} {g g' : Guest} {i : Asm} {op : WordOp} {a : BitVec 32}
  {cpu : Vcpu}

theorem Asm.inst_word (i : Asm) (cpu : Vcpu) : i.inst.word cpu = i.word cpu := by
  cases i with
  | jump j target => cases j <;> rfl
  | mov | movi | load32 | store32 | cmpi | jmp | call | startap | ipi | cpuid | pause | halt
  | iret =>
    simp [Inst.word, Asm.word, Asm.inst, Asm.opcode, regByte_toNat, Opcode.ofByte_code]

/-- The effect of a load or a store at an address. -/
def WordOp.apply (op : WordOp) (a : BitVec 32) (s : CoreState) : CoreState :=
  match op with
  | .load rd => { s with cpu := s.cpu.setReg rd (BitVec.ofNat 32 (leNat s.memory a.toNat 4)) }
  | .store value => { s with memory := leStore s.memory a.toNat 4 value.toNat }

theorem WordOp.apply_memory {s : CoreState} {x : ℕ}
    (h : op.stores = true → x < a.toNat ∨ a.toNat + 4 ≤ x) :
    (op.apply a s).memory x = s.memory x := by
  cases op with
  | load rd => rfl
  | store value => exact leStore_of_not_mem (h rfl)

theorem Asm.step_word {s : CoreState} (h : i.word s.cpu = some (op, a)) :
    i.step s = if PlainCell a 4 then some (op.apply a s) else none := by
  cases i with
  | load32 rd rs imm | store32 rd rs imm =>
    obtain ⟨rfl, rfl⟩ := Prod.mk.inj (Option.some.inj h)
    rfl
  | mov | movi | cmpi | jmp | jump | call | startap | ipi | cpuid | pause | halt | iret => cases h

/-- Other instructions on the data know nothing of memory. -/
theorem Asm.step_no_word {s t : CoreState} (h : i.word s.cpu = none) (hw : P.Within s.cpu i)
    (hstep : i.step s = some t) :
    t.memory = s.memory ∧ ∀ m, i.step { s with memory := m } = some { t with memory := m } := by
  cases i with
  | load32 | store32 => cases h
  | call => exact hw.elim
  | mov | movi | cmpi | jmp | jump | cpuid | pause =>
    obtain rfl := Option.some.inj hstep
    exact ⟨rfl, fun m => rfl⟩
  | startap | ipi | halt | iret => cases hstep

/-- Whether an instruction has a meaning does not depend on memory. -/
theorem Asm.step_defined {s t : CoreState} (h : i.step s = some t) (m : Bytes) :
    ∃ u, i.step { s with memory := m } = some u := by
  cases i with
  | load32 | store32 | call =>
    simp only [Asm.step] at h ⊢
    split_ifs at h ⊢
    exact ⟨_, rfl⟩
  | mov | movi | cmpi | jmp | jump | cpuid | pause => exact ⟨_, rfl⟩
  | startap | ipi | halt | iret => cases h

theorem GuestProgram.Fetches.unique {j : Asm} (h : P.Fetches cpu i) (h' : P.Fetches cpu j) :
    i = j := by
  obtain ⟨k, hk, hip⟩ := h
  obtain ⟨k', hk', hip'⟩ := h'
  obtain rfl : k = k' := by omega
  exact Option.some.inj (hk.symm.trans hk')

@[simp] theorem Guest.setCpu_cpus (g : Guest) (c : ℕ) (cpu : Vcpu) :
    (g.setCpu c cpu).cpus c = cpu := Function.update_self ..

@[simp] theorem Guest.core_fetched (g : Guest) (c : ℕ) :
    (g.fetched c).core c = (g.core c).fetched := by
  simp only [Guest.core, Guest.fetched, Guest.setCpu, Function.update_self]
  rfl

theorem Asm.word_fetched (i : Asm) (g : Guest) (c : ℕ) :
    i.word ((g.fetched c).cpus c) = i.word (g.cpus c) := by
  simp only [Guest.fetched, Guest.setCpu, Function.update_self]
  cases i <;> rfl

/-- What the abstract machine does in a load or a store. -/
theorem execute_word (hw : i.word (g.cpus c) = some (op, a))
    (h : P.execute N c (g.fetched c) i = some g') :
    (P.dataStart ≤ a.toNat ∧ a.toNat + 4 ≤ P.dataEnd) ∧ PlainCell a 4 ∧
      g' = ((g.fetched c).setCpu c (op.apply a (g.core c).fetched).cpu).withMemory
        (op.apply a (g.core c).fetched).memory := by
  rw [← i.word_fetched] at hw
  have hstep : i.step ((g.fetched c).core c) = _ := Asm.step_word hw
  cases i with
  | load32 rd rs imm | store32 rd rs imm =>
    simp only [GuestProgram.execute] at h
    split_ifs at h with hwithin
    rw [hstep, Guest.core_fetched] at h
    by_cases hplain : PlainCell a 4
    · rw [if_pos hplain] at h
      obtain ⟨rfl, rfl⟩ := Prod.mk.inj (Option.some.inj hw)
      exact ⟨hwithin, hplain, (Option.some.inj h).symm⟩
    · rw [if_neg hplain] at h
      cases h
  | mov | movi | cmpi | jmp | jump | call | startap | ipi | cpuid | pause | halt | iret => cases hw

end Words

/-! ## The abstract machine with accesses under way -/

/-- The abstract machine as the threads have it: the cores that are in an access are behind its
fetch, and memory is as it is. -/
def Guest.ahead (g : Guest) (access : ℕ → Option WordAccess) (m : Bytes) : Guest :=
  { g with
    cpus := fun c => if (access c).isSome then (g.core c).fetched.cpu else g.cpus c
    memory := m }

section Ahead

variable {P : GuestProgram} {N c d : ℕ} {g g' t : Guest} {m : Bytes} {i : Asm}
  {access : ℕ → Option WordAccess}

theorem ahead_of_idle (h : ∀ c, access c = none) : g.ahead access m = g.withMemory m := by
  have hidle : access = fun _ => none := funext h
  rw [hidle]
  rfl

theorem ahead_cpus (h : access c = none) : (g.ahead access m).cpus c = g.cpus c := by
  simp only [Guest.ahead, h, Option.isSome_none, Bool.false_eq_true, if_false]

theorem ahead_setCpu (h : access c = none) (cpu : Vcpu) :
    (g.setCpu c cpu).ahead access m = (g.ahead access m).setCpu c cpu := by
  have hcpus : ((g.setCpu c cpu).ahead access m).cpus =
      ((g.ahead access m).setCpu c cpu).cpus := by
    funext d
    by_cases hd : d = c
    · subst hd
      simp only [Guest.ahead, Guest.setCpu, Function.update_self, h, Option.isSome_none,
        Bool.false_eq_true, if_false]
    · simp only [Guest.ahead, Guest.setCpu, Guest.core, Function.update_of_ne hd]
  exact congrArg (fun cpus => ({ g with cpus := cpus, memory := m } : Guest)) hcpus

theorem ahead_fetched (h : access c = none) :
    (g.fetched c).ahead access m = (g.ahead access m).fetched c := by
  have hcore : ((g.ahead access m).core c).fetched.cpu = (g.core c).fetched.cpu := by
    simp only [Guest.core, CoreState.fetched, ahead_cpus h]
  rw [Guest.fetched, ahead_setCpu h, Guest.fetched, hcore]

/-- An access begins. -/
theorem ahead_begin (h : access c = none) (w : WordAccess) :
    g.ahead (Function.update access c (some w)) m = (g.ahead access m).fetched c := by
  have hcpus : (g.ahead (Function.update access c (some w)) m).cpus =
      ((g.ahead access m).fetched c).cpus := by
    funext d
    by_cases hd : d = c
    · subst hd
      simp only [Guest.ahead, Guest.fetched, Guest.setCpu, Guest.core, Function.update_self, h,
        Option.isSome_some, Option.isSome_none, Bool.false_eq_true, if_true, if_false]
      rfl
    · simp only [Guest.ahead, Guest.fetched, Guest.setCpu, Function.update_of_ne hd]
  exact congrArg (fun cpus => ({ g with cpus := cpus, memory := m } : Guest)) hcpus

/-- It goes on. -/
theorem ahead_update {w : WordAccess} (h : access c = some w) (w' : WordAccess) :
    g.ahead (Function.update access c (some w')) m = g.ahead access m := by
  have hsome : (fun d => (Function.update access c (some w') d).isSome) =
      fun d => (access d).isSome := by
    funext d
    by_cases hd : d = c
    · subst hd
      rw [Function.update_self, h]
      rfl
    · rw [Function.update_of_ne hd]
  exact congrArg (fun f : ℕ → Bool => ({ g with
    cpus := fun c => if f c then (g.core c).fetched.cpu else g.cpus c, memory := m } : Guest)) hsome

/-- It comes to its end. -/
theorem ahead_finish {w : WordAccess} (h : access c = some w) (cpu : Vcpu) (m' : Bytes) :
    (((g.fetched c).setCpu c cpu).withMemory m').ahead (Function.update access c none) m =
      (g.ahead access m).setCpu c cpu := by
  have hcpus : ((((g.fetched c).setCpu c cpu).withMemory m').ahead
      (Function.update access c none) m).cpus = ((g.ahead access m).setCpu c cpu).cpus := by
    funext d
    by_cases hd : d = c
    · subst hd
      simp only [Guest.ahead, Guest.setCpu, Guest.withMemory, Function.update_self,
        Option.isSome_none, Bool.false_eq_true, if_false]
    · simp only [Guest.ahead, Guest.fetched, Guest.setCpu, Guest.withMemory, Guest.core,
        Function.update_of_ne hd]
      rfl
  exact congrArg (fun cpus => ({ g with cpus := cpus, memory := m } : Guest)) hcpus

/-- What a step of a core that is in no access leaves alone. -/
structure Guest.Beside (g g' : Guest) (access : ℕ → Option WordAccess) : Prop where
  memory : g'.memory = g.memory
  cpus : ∀ d, access d ≠ none → g'.cpus d = g.cpus d

theorem Guest.Beside.setCpu (h : access c = none) (cpu : Vcpu) :
    g.Beside (g.setCpu c cpu) access := by
  refine ⟨rfl, fun d hd => Function.update_of_ne ?_ _ _⟩
  rintro rfl
  exact hd h

/-- An instruction that is no access does the same ahead. -/
theorem ahead_execute (hidle : access c = none) (hword : i.word (g.cpus c) = none)
    (hstart : ∀ rd rs, i = .startap rd rs → (g.cpus c).isBsp = true →
      ∀ d : ℕ, ((g.cpus c).regs rd).toInt = d → access d = none)
    (h : P.execute N c ((g.ahead access m).fetched c) i = some t) :
    ∃ g', P.execute N c (g.fetched c) i = some g' ∧ t = g'.ahead access m ∧
      g.Beside g' access := by
  have hself : ((g.ahead access m).fetched c).cpus c = (g.fetched c).cpus c := by
    rw [← ahead_fetched hidle, ahead_cpus hidle]
  have hbeside : g.Beside (g.fetched c) access := .setCpu hidle _
  have hregs : ((g.fetched c).cpus c).regs = (g.cpus c).regs ∧
      ((g.fetched c).cpus c).isBsp = (g.cpus c).isBsp := by
    simp only [Guest.fetched, Guest.setCpu, Function.update_self]
    exact ⟨rfl, rfl⟩
  rw [← ahead_fetched hidle] at h hself
  cases i with
  | startap rd rs =>
    refine ⟨_, rfl, ?_⟩
    obtain rfl := Option.some.inj h
    rw [hself]
    unfold Guest.start
    rw [hself]
    by_cases hgo : ((g.fetched c).cpus c).isBsp = true ∧
        0 < (((g.fetched c).cpus c).regs rd).toInt ∧ (((g.fetched c).cpus c).regs rd).toInt < N
    · rw [if_pos hgo, if_pos hgo]
      have htarget : access (((g.fetched c).cpus c).regs rd).toInt.toNat = none := by
        rw [hregs.1, hregs.2] at hgo
        rw [hregs.1]
        exact hstart rd rs rfl hgo.1 _ (Int.toNat_of_nonneg hgo.2.1.le).symm
      refine ⟨?_, rfl, fun d hd => ?_⟩
      · rw [ahead_cpus htarget, ← ahead_setCpu htarget]
        rfl
      · have hne : d ≠ (((g.fetched c).cpus c).regs rd).toInt.toNat := by
          rintro rfl
          exact hd htarget
        exact (Function.update_of_ne hne _ _).trans (hbeside.cpus d hd)
    · rw [if_neg hgo, if_neg hgo]
      exact ⟨rfl, hbeside⟩
  | ipi rd rs =>
    refine ⟨_, rfl, ?_, rfl, hbeside.cpus⟩
    obtain rfl := Option.some.inj h
    rw [hself]
    rfl
  | halt =>
    obtain rfl := Option.some.inj h
    exact ⟨_, rfl, rfl, rfl, hbeside.cpus⟩
  | iret =>
    refine ⟨_, rfl, ?_⟩
    obtain rfl := Option.some.inj h
    unfold Guest.resume
    have hinterrupted : ((g.fetched c).ahead access m).interrupted c =
        (g.fetched c).interrupted c := rfl
    rw [hinterrupted, hself]
    cases (g.fetched c).interrupted c with
    | none => exact ⟨rfl, hbeside⟩
    | some saved =>
      dsimp only
      refine ⟨?_, rfl, fun d hd => ?_⟩
      · rw [← ahead_setCpu hidle]
        rfl
      · have hne : d ≠ c := by
          rintro rfl
          exact hd hidle
        exact (Function.update_of_ne hne _ _).trans (hbeside.cpus d hd)
  | load32 | store32 => cases hword
  | mov | movi | cmpi | jmp | jump | call | cpuid | pause =>
    simp only [GuestProgram.execute] at h
    split_ifs at h with hw
    obtain ⟨s, hstep, rfl⟩ := Option.map_eq_some_iff.mp h
    rw [hself] at hw
    have hcore : ((g.fetched c).ahead access m).core c =
        { (g.fetched c).core c with memory := m } := by
      simp only [Guest.core, hself]
      rfl
    rw [hcore] at hstep
    obtain ⟨hmemory, hany⟩ := Asm.step_no_word (s := ⟨(g.fetched c).cpus c, m⟩) rfl hw hstep
    refine ⟨_, execute_of_step hw (hany g.memory), ?_, rfl, fun d hd => ?_⟩
    · rw [hmemory]
      exact congrArg (·.withMemory m) (ahead_setCpu hidle s.cpu).symm
    · have hne : d ≠ c := by
        rintro rfl
        exact hd hidle
      exact (Function.update_of_ne hne _ _).trans (hbeside.cpus d hd)

/-- A core that gets on gets on ahead. -/
theorem GuestProgram.Advances.ahead (h : P.Advances N g c) (hidle : access c = none) (m : Bytes) :
    P.Advances N (g.ahead access m) c := by
  obtain ⟨i, g', hfetch, hexec⟩ := h
  have hself : ((g.ahead access m).fetched c).cpus c = (g.fetched c).cpus c := by
    rw [← ahead_fetched hidle, ahead_cpus hidle]
  have hfetch' : P.Fetches ((g.ahead access m).cpus c) i := by rwa [ahead_cpus hidle]
  cases i with
  | startap | ipi | halt | iret => exact ⟨_, _, hfetch', rfl⟩
  | mov | movi | load32 | store32 | cmpi | jmp | jump | call | cpuid | pause =>
    simp only [GuestProgram.execute] at hexec
    split_ifs at hexec with hw
    obtain ⟨s, hstep, -⟩ := Option.map_eq_some_iff.mp hexec
    obtain ⟨u, hu⟩ := Asm.step_defined hstep m
    refine ⟨_, _, hfetch', execute_of_step (hself ▸ hw) (s := u) ?_⟩
    rw [Guest.core, hself]
    exact hu

/-- So is an interrupt of a core that is in no access. -/
theorem ahead_enter (hidle : access c = none) (n : ℕ) (waiting : Set (ℕ × ℕ)) :
    P.enter c n { g.ahead access m with pending := waiting } =
        (P.enter c n { g with pending := waiting }).ahead access m ∧
      g.Beside (P.enter c n { g with pending := waiting }) access := by
  have hself := ahead_cpus (g := g) (m := m) hidle
  unfold GuestProgram.enter
  cases P.handler n with
  | none => exact ⟨rfl, rfl, fun _ _ => rfl⟩
  | some entry =>
    dsimp only
    refine ⟨?_, rfl, fun d hd => ?_⟩
    · rw [hself]
      exact congrArg (fun u : Guest => { u with
        interrupted := Function.update g.interrupted c (some (g.cpus c)), pending := waiting })
        (ahead_setCpu hidle _).symm
    · have hne : d ≠ c := by
        rintro rfl
        exact hd hidle
      exact Function.update_of_ne hne _ _

/-- A step of the abstract machine ahead is one of the abstract machine, if its core is in no access
and about to begin none. -/
theorem GuestMove.behind {g₀ : Guest} {who : Option ℕ} {ls : List GuestLabel}
    (h : GuestMove P N g₀ (g.ahead access m) who ls t)
    (hidle : ∀ c, who = some c → access c = none)
    (hword : ∀ c i, .instruction c ∈ ls → P.Fetches (g.cpus c) i → i.word (g.cpus c) = none)
    (hstart : ∀ c rd rs, g.Runs N c → P.Fetches (g.cpus c) (.startap rd rs) →
      (g.cpus c).isBsp = true → ∀ d : ℕ, ((g.cpus c).regs rd).toInt = d → access d = none) :
    ∃ g', GuestMove P N g₀ g who ls g' ∧ t = g'.ahead access m ∧ g.Beside g' access := by
  cases h with
  | stay => exact ⟨g, .stay, rfl, rfl, fun _ _ => rfl⟩
  | @step l t hl h =>
    cases l with
    | instruction c =>
      obtain ⟨hruns, i, hfetch, hexec⟩ := h
      have hc := hidle c hl.symm
      rw [ahead_cpus hc] at hfetch
      obtain ⟨g', hexec', ht, hbeside⟩ := ahead_execute hc
        (hword c i (List.mem_singleton_self _) hfetch)
        (fun rd rs hi => hstart c rd rs hruns (hi ▸ hfetch)) hexec
      exact ⟨g', .step hl ⟨hruns, i, hfetch, hexec'⟩, ht, hbeside⟩
    | interrupt c n =>
      obtain ⟨hruns, hnone, hpending, rfl⟩ := h
      obtain ⟨ht, hbeside⟩ := ahead_enter (P := P) (g := g) (m := m) (hidle c hl.symm) n
        (g.pending \ {(c, n)})
      exact ⟨_, .step hl ⟨hruns, hnone, hpending, rfl⟩, ht, hbeside⟩
    | device n =>
      obtain ⟨hn, rfl⟩ := h
      exact ⟨_, .step hl ⟨hn, rfl⟩, rfl, rfl, fun _ _ => rfl⟩

end Ahead

/-! ## The lookup cache -/

/-- The bounds in the lookup cache are those of a device, or have never been set. -/
def CacheBounds (vm : Vm) : Prop :=
  vm.mmioCacheStart = 0 ∧ vm.mmioCacheEnd = 0 ∨
    ∃ dev ∈ vm.mmioDevices, vm.mmioCacheStart = dev.start ∧ vm.mmioCacheEnd = dev.stop

/-- A lookup sets the bounds of a device only. -/
theorem oneWay_cacheBounds : OneWay CacheBounds where
  memory s t hs _ h := by
    simp only [CacheBounds, Vm.besidesMemory, Vm.mk.injEq] at hs h ⊢
    simpa only [h] using hs
  lookup := by
    refine ⟨fun addr => safe_bind_get fun vm hv => ?_, fun _ _ => trivial⟩
    cases vm.mmioCacheHit addr with
    | some dev => exact safe_pure _
    | none =>
      dsimp only
      cases hscan : scanMmio vm.mmioDevices addr with
      | some dev =>
        have hmem : dev ∈ vm.mmioDevices := List.mem_of_find?_eq_some hscan
        exact safe_bind (safe_set (Or.inr ⟨dev, hmem, rfl, rfl⟩)) fun _ => safe_pure _
      | none => exact safe_bind (safe_set hv) fun _ => safe_pure _
  devices s t hs h := by
    have hdevices : t.mmioDevices = s.mmioDevices := (congrArg Vm.mmioDevices h :)
    have hstart : t.mmioCacheStart = s.mmioCacheStart := (congrArg Vm.mmioCacheStart h :)
    have hend : t.mmioCacheEnd = s.mmioCacheEnd := (congrArg Vm.mmioCacheEnd h :)
    rw [CacheBounds, hdevices, hstart, hend]
    exact hs
  worker _ _ _ _ hs := hs
  cpu _ _ _ hs := hs
  release _ _ hs := hs

theorem cacheBounds_of_reachable {smpCores : ℤ} {vm : Vm}
    (h : Reachable (machine memSize smpCores) vm) : CacheBounds vm := by
  refine h.invariant (P := CacheBounds) ?_ ?_
  · rintro vm ⟨clock, memcheck, image, program, data, layout, hboot⟩
    obtain ⟨vm₀, hcreate, hivt⟩ := boot_eq_ok hboot
    have hsize : (diskInit image vm₀).memorySize = memSize := (vmCreate_inv hcreate).memorySize
    obtain ⟨m, hrun, -, -⟩ := initIvt_run (s := diskInit image vm₀) (by rw [hsize]; decide)
    obtain rfl := (Prod.mk.inj (Except.ok.inj (hivt.symm.trans hrun))).2
    obtain rfl := vmCreate_ok hcreate
    exact .inl ⟨rfl, rfl⟩
  · intro s e t hs hstep
    exact oneWay_cacheBounds.runEvent hs hstep.2

/-- No address outside the devices lies in the bounds. -/
theorem CacheBounds.miss {vm : Vm} {a : BitVec 32} (h : CacheBounds vm) (hne : a ≠ 0)
    (hplain : PlainRam vm a 4) : ¬ (vm.mmioCacheStart ≤ a ∧ a ≤ vm.mmioCacheEnd) := by
  rintro ⟨hlo, hhi⟩
  rcases h with ⟨-, hend⟩ | ⟨dev, hmem, hstart, hend⟩
  · rw [hend] at hhi
    exact hne (BitVec.le_zero_iff.mp hhi)
  · rw [hstart] at hlo
    rw [hend] at hhi
    exact hplain.noDevice a le_rfl (by omega) dev hmem ⟨hlo, hhi⟩

end LampVm
