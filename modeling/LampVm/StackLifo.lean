import LampVm.ClockRegisters
import LampVm.Handler
import LampVm.Lifo
import LampVm.StackLayout

/-!
# The data and call stacks of the cores

`stack.h` keeps three downward stacks for each core in shared memory, with cells of four
and eight bytes. `PUSH` and `POP` move on the data stack, the three calls and `RET` on the
call stack. As long as nothing else writes their cells or pointers, the two stacks of all
cores are a family of bounded stacks, whatever the order in which the cores run and wherever
interrupts come in between.
-/
namespace LampVm

open ByteOrder Contract Lifo Set Transition

/-! ## The stacks -/

/-- The stacks on which instructions push and pop. -/
inductive LifoStack
  | data | call
  deriving DecidableEq, Repr

namespace LifoStack

def regs : LifoStack → StackRegs
  | data => dataStack
  | call => callStack

/-- The size of a cell. -/
def cell : LifoStack → ℕ
  | data => 4
  | call => 8

def kind : LifoStack → StackKind
  | data => .data
  | call => .call

theorem regs_size (k : LifoStack) : k.regs.size = 256 := by cases k <;> rfl

theorem bytes_eq (k : LifoStack) : k.kind.bytes = k.cell * 256 := by cases k <;> rfl

theorem cell_range (k : LifoStack) : 0 < k.cell ∧ k.cell ≤ 8 := by cases k <;> decide

theorem stackRegion_eq (k : LifoStack) (cpu : Vcpu) : cpu.stackRegion k.kind =
    Ico (k.regs.base cpu).toNat ((k.regs.base cpu).toNat + k.kind.bytes) := by cases k <;> rfl

theorem kind_injective : Function.Injective kind := by
  intro k l h
  cases k <;> cases l <;> simp_all [kind]

end LifoStack

/-- The pointers and places of a core's two stacks. -/
def Vcpu.stackRegs (cpu : Vcpu) : ℤ × ℤ × BitVec 32 × BitVec 32 :=
  (cpu.csp, cpu.dsp, cpu.callStackBase, cpu.dataStackBase)

def Vm.stackRegs (vm : Vm) : ℕ → ℤ × ℤ × BitVec 32 × BitVec 32 := fun c => (vm.cpus c).stackRegs

/-- Stack `k` of core `c` holds the words `xs`, top first. -/
structure StackContents (vm : Vm) (c : ℕ) (k : LifoStack) (xs : List (BitVec 32)) : Prop where
  bounded : xs.length ≤ 256
  pointer : k.regs.get (vm.cpus c) = (256 - xs.length : ℕ)
  cells : CellsHold vm.memory (k.regs.base (vm.cpus c)).toNat k.cell (256 - xs.length)
    (xs.map BitVec.toNat)

/-- The values that an instruction with opcode `op` moves when it takes `s` to `t`. A call
pushes the address of the instruction that follows it. -/
def instructionNotes (c : ℕ) (s t : Vm) : Opcode → List (StackNote (ℕ × LifoStack) (BitVec 32))
  | .push => [.push (c, .data) (s.regValue c (s.nextInst c).rd)]
  | .pop => [.pop (c, .data) (t.regValue c (s.nextInst c).rd)]
  | .call | .rcall | .callr => [.push (c, .call) ((s.cpus c).fetchIp + 8)]
  | .ret => [.pop (c, .call) (t.cpus c).fetchIp]
  | _ => []

def stackNotes (s : Vm) : Event → List (StackNote (ℕ × LifoStack) (BitVec 32))
  | .instruction c =>
    match vmInstructionCase c s, Opcode.ofByte (s.nextInst c).op with
    | .ok r, some op => instructionNotes c s r.2 op
    | _, _ => []
  | _ => []

/-- The step stores to memory by an instruction or by a transfer from the disk. -/
def Event.stores (s : Vm) : Event → Prop
  | .instruction c => ∃ op : Opcode, (s.nextInst c).op = op.code ∧ op.stores = true
  | .workerTransfer _ => True
  | _ => False

/-- The step changes no cell of a stack by a store and no pointer of a stack by `OUT`. -/
structure StacksUntouched (s : Vm) (e : Event) : Prop where
  cells : e.stores s → ∀ t, runEvent e s = .ok ((), t) → ∀ d < s.smpCores, ∀ k : LifoStack,
    ∀ a ∈ (s.cpus d).stackRegion k.kind, t.memory a = s.memory a
  pointers : ∀ c, e = .instruction c → (s.nextInst c).op = Opcode.out.code →
    ∀ t, runEvent e s = .ok ((), t) →
      (t.cpus c).csp = (s.cpus c).csp ∧ (t.cpus c).dsp = (s.cpus c).dsp

/-! ## One stack -/

variable {N c d : ℕ} {k l : LifoStack} {s t u : Vm} {xs : List (BitVec 32)} {v : BitVec 32}

theorem get_eq_of_stackRegs {cpu cpu' : Vcpu} (h : cpu'.stackRegs = cpu.stackRegs)
    (k : LifoStack) : k.regs.get cpu' = k.regs.get cpu := by
  simp only [Vcpu.stackRegs, Prod.mk.injEq] at h
  cases k
  · exact h.2.1
  · exact h.1

theorem base_eq_of_stackRegs {cpu cpu' : Vcpu} (h : cpu'.stackRegs = cpu.stackRegs)
    (k : LifoStack) : k.regs.base cpu' = k.regs.base cpu := by
  simp only [Vcpu.stackRegs, Prod.mk.injEq] at h
  cases k
  · exact h.2.2.2
  · exact h.2.2.1

/-- The stack is as it was: its pointer, its place and its bytes. -/
structure SameStack (s t : Vm) (c : ℕ) (k : LifoStack) : Prop where
  pointer : k.regs.get (t.cpus c) = k.regs.get (s.cpus c)
  base : k.regs.base (t.cpus c) = k.regs.base (s.cpus c)
  memory : ∀ a ∈ (s.cpus c).stackRegion k.kind, t.memory a = s.memory a

theorem SameStack.contents (h : SameStack s t c k) (hs : StackContents s c k xs) :
    StackContents t c k xs := by
  refine ⟨hs.bounded, h.pointer.trans hs.pointer, ?_⟩
  have hbytes := k.bytes_eq
  have hlen := hs.bounded
  rw [h.base]
  refine hs.cells.congr fun a h1 h2 => h.memory a ?_
  rw [List.length_map, show 256 - xs.length + xs.length = 256 by omega] at h2
  rw [k.stackRegion_eq]
  exact ⟨h1, by rwa [hbytes]⟩

/-- The stack lies in plain RAM, aligned for the accesses to its cells. -/
structure StackPlace (vm : Vm) (c : ℕ) (k : LifoStack) : Prop where
  ram : PlainRam vm (k.regs.base (vm.cpus c)) k.kind.bytes
  aligned : (k.regs.base (vm.cpus c)).toNat % 8 = 0
  cache : CacheCoherent vm

theorem StackPlace.cellAddr_toNat (h : StackPlace u c k) {cpu : Vcpu} {n : ℕ}
    (hb : k.regs.base cpu = k.regs.base (u.cpus c)) (hn : n < 256) :
    (k.regs.cellAddr cpu k.cell n).toNat = (k.regs.base (u.cpus c)).toNat + k.cell * n := by
  have hspace := h.ram.inSpace
  have hcell : k.cell * n + k.cell ≤ k.cell * 256 := by
    rw [← Nat.mul_succ]
    exact Nat.mul_le_mul_left _ hn
  have hpos := k.cell_range
  rw [k.bytes_eq] at hspace
  rw [k.regs.cellAddr_toNat cpu (by rw [hb]; omega), hb]

theorem StackPlace.cell (h : StackPlace u c k) {cpu : Vcpu} {n : ℕ}
    (hb : k.regs.base cpu = k.regs.base (u.cpus c)) (hn : n < 256) :
    PlainRam u (k.regs.cellAddr cpu k.cell n) k.cell ∧
      AlignOk u k.cell (k.regs.cellAddr cpu k.cell n) := by
  have hto := h.cellAddr_toNat hb hn
  have hal := h.aligned
  have hbytes := k.bytes_eq
  have hcell : k.cell * n + k.cell ≤ k.cell * 256 := by
    rw [← Nat.mul_succ]
    exact Nat.mul_le_mul_left _ hn
  refine ⟨h.ram.sub (by omega) (by omega), fun _ => ?_⟩
  rw [hto]
  cases k <;> simp only [LifoStack.cell] at hal ⊢ <;> omega

/-- How the cells of a stack are written and read: a word of the stack is `enc v` to the
access functions. -/
structure CellAccess (k : LifoStack) {α : Type} (enc : BitVec 32 → α)
    (write : BitVec 32 → α → VmM Unit) (read : BitVec 32 → VmM α) : Prop where
  write : ∀ {u : Vm} {a : BitVec 32} (v : BitVec 32), CacheCoherent u → PlainRam u a k.cell →
    AlignOk u k.cell a → ∃ t, write a (enc v) u = .ok ((), t) ∧
      t.memory = leStore u.memory a.toNat k.cell v.toNat ∧ t.cpus = u.cpus
  read : ∀ {u : Vm} {a v : BitVec 32}, CacheCoherent u → PlainRam u a k.cell →
    AlignOk u k.cell a → leNat u.memory a.toNat k.cell = v.toNat →
      ∃ t, read a u = .ok (enc v, t) ∧ t.memory = u.memory ∧ t.cpus = u.cpus

theorem dataAccess : CellAccess .data id vmWrite32 vmRead32 where
  write v hc hram hal := ⟨_, vmWrite32_plain hc hram hal v, rfl, rfl⟩
  read {u a v} hc hram hal hv := by
    refine ⟨u.uncached, ?_, rfl, rfl⟩
    rw [vmRead32_plain hc hram hal]
    change leNat u.memory a.toNat 4 = v.toNat at hv
    rw [hv, BitVec.ofNat_toNat, BitVec.setWidth_eq]
    rfl

theorem callAccess : CellAccess .call (BitVec.setWidth 64) vmWrite64 vmRead64 where
  write {u a} v _ hram hal := by
    have hto : (v.setWidth 64).toNat = v.toNat := by
      rw [BitVec.toNat_setWidth]
      exact Nat.mod_eq_of_lt (by omega)
    refine ⟨_, vmWrite64_plain hram.inRam hram.inSpace hal _, ?_, rfl⟩
    rw [hto]
    rfl
  read {u a v} hc hram hal hv := by
    refine ⟨u.uncached, ?_, rfl, rfl⟩
    rw [vmRead64_plain hc hram hal]
    change leNat u.memory a.toNat 8 = v.toNat at hv
    rw [hv, BitVec.ofNat_toNat]

/-! ## Pushing and popping -/

/-- The state behind a move of stack `k` of core `c`: its pointer is at cell `n` and the
memory is `m`. -/
structure StackMoved (c : ℕ) (k : LifoStack) (u : Vm) (n : ℕ) (m : Bytes) (t : Vm) : Prop where
  memory : t.memory = m
  regs : t.stackRegs = Function.update u.stackRegs c (k.regs.set (u.cpus c) n).stackRegs

theorem stackMoved_of_cpus {n : ℕ} {m : Bytes} (hm : t.memory = m)
    (hcpus : t.cpus = (u.setCpu c (k.regs.set (u.cpus c) n)).cpus) : StackMoved c k u n m t := by
  refine ⟨hm, funext fun d => ?_⟩
  rw [Vm.stackRegs, hcpus]
  by_cases hd : d = c
  · subst hd
    rw [setCpu_cpus_self, Function.update_self]
  · rw [setCpu_cpus_of_ne _ _ hd, Function.update_of_ne hd]
    rfl

theorem base_set (k : LifoStack) (cpu : Vcpu) (n : ℤ) :
    k.regs.base (k.regs.set cpu n) = k.regs.base cpu := by cases k <;> rfl

theorem get_set (k : LifoStack) (cpu : Vcpu) (n : ℤ) : k.regs.get (k.regs.set cpu n) = n := by
  cases k <;> rfl

section Access

variable {α : Type} {enc : BitVec 32 → α} {write : BitVec 32 → α → VmM Unit}
  {read : BitVec 32 → VmM α}

theorem stackPush_ok (ha : CellAccess k enc write read) (hp : StackPlace u c k)
    (hx : StackContents u c k xs) (hlt : xs.length < 256) (v : BitVec 32) :
    ∃ t, stackPush k.regs k.cell write c (enc v) u = .ok ((), t) ∧
      StackMoved c k u (256 - (xs.length + 1)) (leStore u.memory
        ((k.regs.base (u.cpus c)).toNat + k.cell * (256 - (xs.length + 1))) k.cell v.toNat) t ∧
      t.cpus = (u.setCpu c (k.regs.set (u.cpus c) (256 - (xs.length + 1) : ℕ))).cpus := by
  have hptr := hx.pointer
  have hne : ¬ k.regs.get (u.cpus c) = 0 := by omega
  have hdec : k.regs.get (u.cpus c) - 1 = (256 - (xs.length + 1) : ℕ) := by omega
  let u' := u.setCpu c (k.regs.set (u.cpus c) (256 - (xs.length + 1) : ℕ))
  have hcpu : u'.cpus c = k.regs.set (u.cpus c) (256 - (xs.length + 1) : ℕ) := setCpu_cpus_self ..
  have hb : k.regs.base (u'.cpus c) = k.regs.base (u.cpus c) := by rw [hcpu, base_set]
  have hp' : StackPlace u' c k := by
    refine ⟨?_, by rw [hb]; exact hp.aligned, hp.cache⟩
    rw [hb]
    exact ⟨hp.ram.inRam, hp.ram.inSpace, hp.ram.noDevice⟩
  obtain ⟨hplain, hal⟩ := hp'.cell (n := 256 - (xs.length + 1)) rfl (by omega)
  have hto := hp'.cellAddr_toNat (n := 256 - (xs.length + 1)) rfl (by omega)
  obtain ⟨t, hrun, hm, hcpus⟩ := ha.write v hp'.cache hplain hal
  refine ⟨t, ?_, stackMoved_of_cpus (hm.trans ?_) hcpus, hcpus⟩
  · simp only [stackPush, bind_apply, getCpu_apply, if_neg hne, modifyCpu_apply, hdec]
    rw [← hrun]
    simp only [u', setCpu_cpus_self, get_set]
  · rw [hto, hb]
    rfl

theorem stackPush_full (hx : StackContents u c k xs) (hfull : xs.length = 256) (a : α) :
    stackPush k.regs k.cell write c a u = .error (.panic k.regs.overflow) := by
  have hptr := hx.pointer
  have hzero : k.regs.get (u.cpus c) = 0 := by omega
  simp only [stackPush, bind_apply, getCpu_apply, if_pos hzero]
  rfl

theorem stackPop_ok (ha : CellAccess k enc write read) (hp : StackPlace u c k)
    (hx : StackContents u c k (v :: xs)) :
    ∃ t, stackPop k.regs k.cell read c u = .ok (enc v, t) ∧
      StackMoved c k u (256 - xs.length) u.memory t ∧
      t.cpus = (u.setCpu c (k.regs.set (u.cpus c) (256 - xs.length : ℕ))).cpus := by
  have hptr := hx.pointer
  have hbound := hx.bounded
  rw [List.length_cons] at hptr hbound
  have hlt : ¬ k.regs.get (u.cpus c) ≥ k.regs.size := by
    have hsize := k.regs_size
    omega
  obtain ⟨hplain, hal⟩ := hp.cell (n := 256 - (xs.length + 1)) rfl (by omega)
  have hto := hp.cellAddr_toNat (n := 256 - (xs.length + 1)) rfl (by omega)
  have hhead := hx.cells.head
  rw [List.length_cons, ← hto] at hhead
  obtain ⟨t, hrun, hm, hcpus⟩ := ha.read hp.cache hplain hal hhead
  have hinc : k.regs.get (t.cpus c) + 1 = (256 - xs.length : ℕ) := by
    rw [hcpus]
    omega
  have hmoved : (t.setCpu c (k.regs.set (u.cpus c) (256 - xs.length : ℕ))).cpus =
      (u.setCpu c (k.regs.set (u.cpus c) (256 - xs.length : ℕ))).cpus := by
    simp only [Vm.setCpu, hcpus]
  refine ⟨t.setCpu c (k.regs.set (u.cpus c) (256 - xs.length : ℕ)), ?_,
    stackMoved_of_cpus hm hmoved, hmoved⟩
  · rw [stackPop, bind_ok (getCpu_apply c u), if_neg hlt, hptr, bind_ok hrun]
    simp only [bind_apply, modifyCpu_apply, pure_apply, hinc]
    rw [hcpus]

theorem stackPop_empty (hx : StackContents u c k []) :
    stackPop k.regs k.cell read c u = .error (.panic k.regs.underflow) := by
  have hptr := hx.pointer
  have hsize := k.regs_size
  rw [List.length_nil] at hptr
  have hge : k.regs.get (u.cpus c) ≥ k.regs.size := by omega
  simp only [stackPop, bind_apply, getCpu_apply, if_pos hge]
  rfl

end Access

/-! ## All stacks -/

/-- The stacks of the `N` cores hold the words of the family. -/
structure HoldsStacks (N : ℕ) (vm : Vm) (st : ℕ × LifoStack → List (BitVec 32)) : Prop where
  inv : MachineInv memSize N (CoreInv memSize N settled) vm
  base : ∀ c < N, ∀ k : LifoStack,
    (k.regs.base (vm.cpus c)).toNat = coreStackStart N c + k.kind.offset
  contents : ∀ c < N, ∀ k, StackContents vm c k (st (c, k))

variable {st : ℕ × LifoStack → List (BitVec 32)}

theorem HoldsStacks.region (h : HoldsStacks N s st) (hc : c < N) (k : LifoStack) :
    (s.cpus c).stackRegion k.kind = Ico (coreStackStart N c + k.kind.offset)
      (coreStackStart N c + k.kind.offset + k.kind.bytes) := by
  rw [k.stackRegion_eq, h.base c hc k]

theorem coreStackStart_outside (hN : N ≤ 64) (c : ℕ) :
    (coreStackStart N c + perCoreStackBytes ≤ timeBase ∨
      sysinfoBase + sysinfoSize ≤ coreStackStart N c) ∧
    ivtSize * 8 ≤ coreStackStart N c ∧ coreStackStart N c % 8 = 0 := by
  have hpool : perCoreStackBytes = 5120 := rfl
  have hmem : memSize = 67108864 := rfl
  have hbase : callStackBase = 2048 := rfl
  have htime : timeBase = 0x2000 := rfl
  have hsys : sysinfoBase = 0x74C000 ∧ sysinfoSize = 0x5C := ⟨rfl, rfl⟩
  have hivt : ivtSize = 256 := rfl
  unfold coreStackStart
  rw [hpool, hmem, hbase]
  split_ifs <;> omega

theorem HoldsStacks.place (h : HoldsStacks N s st) (hN : N ≤ 64) (hc : c < N) (k : LifoStack) :
    StackPlace s c k := by
  have hbase := h.base c hc k
  have hfit := k.kind.offset_add_bytes_le
  have hle := coreStackStart_le hN hc
  obtain ⟨hout, -, hal⟩ := coreStackStart_outside hN c
  have hoff : k.kind.offset % 8 = 0 := by cases k <;> decide
  refine ⟨plainRam_of_outsideWindows h.inv.memorySize h.inv.devices ?_ ?_, by omega, h.inv.cache⟩
  · omega
  · unfold OutsideWindows
    omega

/-- Stacks that are as they were hold the same words. -/
theorem HoldsStacks.same (h : HoldsStacks N s st)
    (ht : MachineInv memSize N (CoreInv memSize N settled) t)
    (hsame : ∀ c < N, ∀ k, SameStack s t c k) : HoldsStacks N t st := by
  refine ⟨ht, fun c hc k => ?_, fun c hc k => ?_⟩
  · rw [(hsame c hc k).base]
    exact h.base c hc k
  · exact (hsame c hc k).contents (h.contents c hc k)

theorem get_set_of_ne (hkl : l ≠ k) (cpu : Vcpu) (n : ℤ) :
    l.regs.get (k.regs.set cpu n) = l.regs.get cpu := by
  cases k <;> cases l <;> first | rfl | exact absurd rfl hkl

theorem base_set_other (k l : LifoStack) (cpu : Vcpu) (n : ℤ) :
    l.regs.base (k.regs.set cpu n) = l.regs.base cpu := by cases k <;> cases l <;> rfl

section Moved

variable {n : ℕ} {m : Bytes}

theorem StackMoved.get (h : StackMoved c k u n m t) (k' : LifoStack) :
    k'.regs.get (t.cpus c) = k'.regs.get (k.regs.set (u.cpus c) n) := by
  refine get_eq_of_stackRegs ?_ k'
  have := congrFun h.regs c
  rwa [Function.update_self] at this

theorem StackMoved.base (h : StackMoved c k u n m t) (d : ℕ) (l : LifoStack) :
    l.regs.base (t.cpus d) = l.regs.base (u.cpus d) := by
  have hd := congrFun h.regs d
  by_cases hdc : d = c
  · subst hdc
    rw [Function.update_self] at hd
    rw [base_eq_of_stackRegs hd, base_set_other]
  · rw [Function.update_of_ne hdc] at hd
    exact base_eq_of_stackRegs hd l

/-- A move that changes no byte of another stack leaves that stack alone. -/
theorem StackMoved.other (h : StackMoved c k u n m t) (hne : (d, l) ≠ (c, k))
    (hm : ∀ a ∈ (u.cpus d).stackRegion l.kind, m a = u.memory a) : SameStack u t d l := by
  refine ⟨?_, h.base d l, fun a ha => by rw [h.memory]; exact hm a ha⟩
  by_cases hdc : d = c
  · subst hdc
    rw [h.get, get_set_of_ne fun hkl => hne (by rw [hkl])]
  · have hd := congrFun h.regs d
    rw [Function.update_of_ne hdc] at hd
    exact get_eq_of_stackRegs hd l

/-- Moving one stack changes one stack of the family. -/
theorem HoldsStacks.moved (h : HoldsStacks N u st) (hc : c < N)
    (ht : MachineInv memSize N (CoreInv memSize N settled) t) (hmoved : StackMoved c k u n m t)
    (hm : ∀ a, a ∉ (u.cpus c).stackRegion k.kind → m a = u.memory a)
    (hx : StackContents t c k xs) : HoldsStacks N t (Function.update st (c, k) xs) := by
  refine ⟨ht, fun d hd l => ?_, fun d hd l => ?_⟩
  · rw [hmoved.base]
    exact h.base d hd l
  · by_cases hdl : (d, l) = (c, k)
    · obtain ⟨rfl, rfl⟩ := Prod.mk.inj hdl
      rw [Function.update_self]
      exact hx
    · rw [Function.update_of_ne hdl]
      refine (hmoved.other hdl fun a ha => hm a fun ha' => ?_).contents (h.contents d hd l)
      rw [h.region hd] at ha
      rw [h.region hc] at ha'
      have hne : (c, k.kind) ≠ (d, l.kind) := fun heq => hdl <| by
        obtain ⟨rfl, hkind⟩ := Prod.mk.inj heq
        rw [LifoStack.kind_injective hkind]
      exact disjoint_left.mp (stackRegions_apart hc hd hne) ha' ha

/-- What a push leaves. -/
theorem HoldsStacks.pushed (h : HoldsStacks N u st) (hc : c < N)
    (ht : MachineInv memSize N (CoreInv memSize N settled) t) (hlt : (st (c, k)).length < 256)
    (hmoved : StackMoved c k u (256 - ((st (c, k)).length + 1)) (leStore u.memory
      ((k.regs.base (u.cpus c)).toNat + k.cell * (256 - ((st (c, k)).length + 1))) k.cell
      v.toNat) t) :
    HoldsStacks N t (Lifo.apply st (.push (c, k) v)) := by
  have hcells := (h.contents c hc k).cells
  have hcell : k.cell * (256 - ((st (c, k)).length + 1)) + k.cell ≤ k.cell * 256 := by
    rw [← Nat.mul_succ]
    exact Nat.mul_le_mul_left _ (by omega)
  refine h.moved hc ht hmoved (fun a ha => ?_) ⟨by simpa using hlt, ?_, ?_⟩
  · rw [k.stackRegion_eq, k.bytes_eq, mem_Ico] at ha
    exact leStore_of_not_mem (by omega)
  · rw [hmoved.get, get_set, List.length_cons]
  · rw [hmoved.base, hmoved.memory, List.map_cons, List.length_cons]
    refine CellsHold.push ?_ ?_
    · rwa [show 256 - ((st (c, k)).length + 1) + 1 = 256 - (st (c, k)).length by omega]
    · cases k
      · exact v.isLt
      · exact v.isLt.trans (by decide)

/-- What a pop leaves. -/
theorem HoldsStacks.popped (h : HoldsStacks N u st) (hc : c < N)
    (ht : MachineInv memSize N (CoreInv memSize N settled) t) (hv : st (c, k) = v :: xs)
    (hmoved : StackMoved c k u (256 - xs.length) u.memory t) :
    HoldsStacks N t (Lifo.apply st (.pop (c, k) v)) := by
  have hx := h.contents c hc k
  have hbound := hx.bounded
  have hcells := hx.cells
  rw [hv, List.length_cons] at hbound hcells
  rw [Lifo.apply, hv, List.tail_cons]
  refine h.moved hc ht hmoved (fun a _ => rfl) ⟨by omega, ?_, ?_⟩
  · rw [hmoved.get, get_set]
  · rw [hmoved.base, hmoved.memory]
    have htail := hcells.tail
    rwa [show 256 - (xs.length + 1) + 1 = 256 - xs.length by omega] at htail

end Moved

/-! ## Steps that leave the stacks alone -/

/-- An assertion that speaks of memory and of the stack pointers only. -/
structure StackFree (I : Vm → Prop) : Prop where
  devices : DeviceFree I
  cache : ∀ vm dev start stop, I vm →
    I { vm with mmioCacheDev := dev, mmioCacheStart := start, mmioCacheEnd := stop }
  cpu : ∀ vm c cpu, I vm → cpu.stackRegs = (vm.cpus c).stackRegs → I (vm.setCpu c cpu)
  halt : ∀ vm, I vm → I { vm with halted := true }
  released : ∀ vm released, I vm → I { vm with coreReleased := released }

theorem stackFree_of_view (P : Bytes → (ℕ → ℤ × ℤ × BitVec 32 × BitVec 32) → Prop) :
    StackFree fun vm => P vm.memory vm.stackRegs where
  devices s t hs h := by
    have hm : t.memory = s.memory := congrArg (fun vm => vm.memory) h
    have hr : t.stackRegs = s.stackRegs := congrArg (fun vm => vm.stackRegs) h
    change P t.memory t.stackRegs
    rw [hm, hr]
    exact hs
  cache _ _ _ _ hs := hs
  cpu vm c cpu hs h := by
    have hr : (vm.setCpu c cpu).stackRegs = vm.stackRegs := by
      funext d
      by_cases hd : d = c
      · subst hd
        rw [Vm.stackRegs, setCpu_cpus_self, h]
        rfl
      · rw [Vm.stackRegs, setCpu_cpus_of_ne _ _ hd]
        rfl
    change P vm.memory (vm.setCpu c cpu).stackRegs
    rw [hr]
    exact hs
  halt _ hs := hs
  released _ _ hs := hs

/-- The opcodes that move a stack, or may. -/
def Opcode.movesStack : Opcode → Bool
  | .push | .pop | .call | .rcall | .callr | .ret | .int | .out => true
  | _ => false

section StackFree

variable {I : Vm → Prop} {E : Fault → Prop} {i : Inst} {op : Opcode}

theorem StackFree.modifyCpu (h : StackFree I) (c : ℕ) {f : Vcpu → Vcpu}
    (hf : ∀ cpu, (f cpu).stackRegs = cpu.stackRegs) : Safe I E (modifyCpu c f) :=
  safe_modify fun vm hs => h.cpu vm c _ hs (hf _)

theorem StackFree.modifyFlags (h : StackFree I) (c : ℕ) (f : BitVec 32 → BitVec 32) :
    Safe I E (modifyFlags c f) :=
  h.modifyCpu c fun _ => rfl

theorem StackFree.setIp (h : StackFree I) (c ip : ℕ) : Safe I E (setIp c ip) :=
  h.modifyCpu c fun _ => rfl

variable (h : StackFree I) (hE : ∀ e, E e)
include h hE

theorem StackFree.lookup : Lookup I E := ⟨safe_findMmio h.cache, fun e _ => hE e⟩

theorem StackFree.vmRead64 (addr : BitVec 32) : Safe I E (vmRead64 addr) :=
  (h.lookup hE).vmRead64 h.devices.clock addr

theorem StackFree.writeReg (c : ℕ) (r : BitVec 8) (v : BitVec 32) : Safe I E (writeReg c r v) :=
  safe_writeReg (.inr (hE _)) (fun _ _ => h.modifyCpu c fun _ => rfl) v

omit h in
theorem safe_readReg_of_faults (c : ℕ) (r : BitVec 8) : Safe I E (readReg c r) :=
  safe_readReg c (.inr (hE _))

theorem StackFree.setLogic (c : ℕ) (r : BitVec 8) (v : BitVec 32) : Safe I E (setLogic c r v) :=
  safe_bind (h.writeReg hE c r v) fun _ => safe_bind (safe_readReg_of_faults hE c r) fun _ =>
    h.modifyFlags c _

theorem StackFree.execStartap : Safe I E (execStartap c i) :=
  safe_bind (safe_getCpu c) fun _ => safe_ite (fun _ => safe_pure _) fun _ =>
    safe_bind (safe_readReg_of_faults hE c _) fun _ =>
    safe_bind (safe_readReg_of_faults hE c _) fun _ =>
    safe_bind safe_get fun _ => safe_ite (fun _ => safe_pure _) fun _ =>
    safe_bind ((h.lookup hE).checkIndex _ _ _) fun _ => safe_bind (h.modifyCpu _ fun _ => rfl)
      fun _ => safe_bind ((h.lookup hE).checkIndex _ _ _) fun _ =>
      safe_modify fun vm hs => h.released vm _ hs

/-- The return from a handler reads the ISR stack. -/
theorem StackFree.vmIret : Safe I E (vmIret c) := by
  have hpop : Safe I E (isrPop c) :=
    safe_bind (safe_getCpu c) fun _ => safe_ite (fun _ => safe_throw (hE _)) fun _ =>
      safe_bind (h.vmRead64 hE _) fun _ => safe_bind (h.modifyCpu c fun _ => rfl) fun _ =>
      safe_pure _
  refine safe_bind (safe_getCpu c) fun _ => safe_ite (fun _ => safe_pure _) fun _ =>
    safe_bind (safe_forM fun _ _ => ?_) fun _ => ?_
  · exact safe_bind (safe_bind hpop fun _ => safe_pure _) fun _ => h.modifyCpu c fun _ => rfl
  · exact safe_bind hpop fun _ => safe_bind (h.modifyCpu c fun _ => rfl) fun _ =>
      safe_bind hpop fun _ => safe_bind (h.modifyCpu c fun _ => rfl) fun _ =>
      h.modifyCpu c fun _ => rfl

/-- Opcodes that move no stack keep the assertion, if their stores do. -/
theorem StackFree.opRules (hop : op.movesStack = false)
    (writes : op.stores = true → MemoryRules I E) : OpRules I E c i op where
  vmRead8 := (h.lookup hE).vmRead8
  vmRead32 _ := (h.lookup hE).vmRead32 fun ops => (h.lookup hE).read32 h.devices.clock ops _
  load _ := safe_bind ((h.lookup hE).atomic32PtrOrPanic _ _) fun _ => (h.lookup hE).hostLoad32 _
  writes := writes
  fault e _ := hE e
  readReg r _ := safe_readReg_of_faults hE c r
  writeReg := h.writeReg hE c i.rd
  modifyFlags := h.modifyFlags c
  setIp _ := h.setIp c _
  dataPush hpush := by subst hpush; cases hop
  dataPop hpop := by subst hpop; cases hop
  callPush hcall := by rcases hcall with rfl | rfl | rfl <;> cases hop
  callPop hret := by subst hret; cases hop
  readIo _ := safe_readIo
  out hout := by subst hout; cases hop
  halt := safe_modify h.halt
  keyboard _ := h.devices.inKeyboard (fun _ _ => hE _) (h.writeReg hE c i.rd)
  divideByZero _ := h.devices.trigger _ _
  enter hint := by subst hint; cases hop
  iret _ := h.vmIret hE
  startap _ := h.execStartap hE
  ipi _ := h.devices.trigger

end StackFree

/-! ## Interrupt entry -/

/-- While core `c` saves its context: what was `s` has changed on the ISR stack of the core
only. -/
structure EntryFrame (N c : ℕ) (s vm : Vm) : Prop where
  memorySize : vm.memorySize = memSize
  isrBase : (vm.cpus c).isrStackBase.toNat = coreStackStart N c + StackKind.isr.offset
  isp : 0 ≤ (vm.cpus c).isp ∧ (vm.cpus c).isp ≤ isrStackSize
  regs : vm.stackRegs = s.stackRegs
  memory : ∀ a, a ∉ Ico (coreStackStart N c + StackKind.isr.offset)
    (coreStackStart N c + StackKind.isr.offset + StackKind.isr.bytes) → vm.memory a = s.memory a

theorem EntryFrame.congr (h : EntryFrame N c s u) (hsize : t.memorySize = u.memorySize)
    (hcpus : t.cpus = u.cpus) (hmem : t.memory = u.memory) : EntryFrame N c s t := by
  refine ⟨hsize.trans h.memorySize, ?_, ?_, ?_, ?_⟩
  · rw [hcpus]
    exact h.isrBase
  · rw [hcpus]
    exact h.isp
  · have hregs : t.stackRegs = u.stackRegs := congrArg (fun cpus c => (cpus c).stackRegs) hcpus
    exact hregs.trans h.regs
  · rw [hmem]
    exact h.memory

theorem entryFrame_devices : DeviceFree (EntryFrame N c s) := fun _ _ hs h =>
  hs.congr (congrArg (fun vm => vm.memorySize) h :) (congrArg (fun vm => vm.cpus) h :)
    (congrArg (fun vm => vm.memory) h :)

theorem EntryFrame.setCpu (h : EntryFrame N c s u) {cpu : Vcpu}
    (hregs : cpu.stackRegs = (u.cpus c).stackRegs)
    (hbase : cpu.isrStackBase = (u.cpus c).isrStackBase)
    (hisp : 0 ≤ cpu.isp ∧ cpu.isp ≤ isrStackSize) : EntryFrame N c s (u.setCpu c cpu) := by
  have hview := (stackFree_of_view fun m r => m = u.memory ∧ r = s.stackRegs).cpu u c cpu
    ⟨rfl, h.regs⟩ hregs
  refine ⟨h.memorySize, ?_, ?_, hview.2, h.memory⟩
  · rw [setCpu_cpus_self, hbase]
    exact h.isrBase
  · rw [setCpu_cpus_self]
    exact hisp

section Entry

variable {E : Fault → Prop} (hE : ∀ e, E e)
include hE

theorem entryFrame_isrPush (hN : N ≤ 64) (hc : c < N) (w : BitVec 64) :
    Safe (EntryFrame N c s) E (isrPush c w) := by
  intro vm hv
  by_cases h0 : isrStack.get (vm.cpus c) = 0
  · simp only [isrPush, stackPush, bind_apply, getCpu_apply, if_pos h0]
    exact hE _
  have hisp := hv.isp
  have hne : (vm.cpus c).isp ≠ 0 := h0
  obtain ⟨n, hn⟩ : ∃ n : ℕ, (vm.cpus c).isp - 1 = n := ⟨((vm.cpus c).isp - 1).toNat, by omega⟩
  have hlt : n < 256 := by
    have hsize : isrStackSize = 256 := rfl
    omega
  let u := vm.setCpu c { vm.cpus c with isp := n }
  have hu : EntryFrame N c s u := hv.setCpu rfl rfl ⟨by simp, by simp; omega⟩
  have hle := coreStackStart_le hN hc
  have hbase := hu.isrBase
  have hoff : StackKind.isr.offset + StackKind.isr.bytes = perCoreStackBytes := rfl
  have hbytes : StackKind.isr.bytes = 8 * 256 := rfl
  have hmem : memSize = 67108864 := rfl
  obtain ⟨-, -, hal⟩ := coreStackStart_outside hN c
  have hoff8 : StackKind.isr.offset % 8 = 0 := by decide
  have hspace : (isrStack.base (u.cpus c)).toNat + 8 * n < 2 ^ 32 := by
    change (u.cpus c).isrStackBase.toNat + 8 * n < 2 ^ 32
    omega
  have hto : (isrStack.cellAddr (u.cpus c) 8 n).toNat = (u.cpus c).isrStackBase.toNat + 8 * n :=
    isrStack.cellAddr_toNat (u.cpus c) hspace
  have hwrite : vmWrite64 (isrStack.cellAddr (u.cpus c) 8 n) w u = _ := vmWrite64_plain
    (by simp only [inRam, hu.memorySize]; omega) (by omega) (fun _ => by omega) w
  have hrun : isrPush c w vm = vmWrite64 (isrStack.cellAddr (u.cpus c) 8 n) w u := by
    simp only [isrPush, stackPush, bind_apply, getCpu_apply, if_neg h0, modifyCpu_apply]
    simp only [isrStack, hn, u, setCpu_cpus_self]
  rw [hrun, hwrite]
  refine ⟨hu.memorySize, hu.isrBase, hu.isp, hu.regs, fun a ha => ?_⟩
  rw [mem_Ico] at ha
  rw [withMemory_memory, leStore_of_not_mem (by omega)]
  exact hu.memory a (by rwa [mem_Ico])

theorem entryFrame_enterHandler (hN : N ≤ 64) (hc : c < N) (n : BitVec 32) (isrIp : BitVec 64) :
    Safe (EntryFrame N c s) E (enterHandler c n isrIp) := by
  have hmodify {f : Vcpu → Vcpu} (hf : ∀ cpu, (f cpu).stackRegs = cpu.stackRegs ∧
      (f cpu).isrStackBase = cpu.isrStackBase ∧ (f cpu).isp = cpu.isp) :
      Safe (EntryFrame N c s) E (modifyCpu c f) := safe_modify fun vm hv => by
    obtain ⟨h1, h2, h3⟩ := hf (vm.cpus c)
    exact hv.setCpu h1 h2 (by rw [h3]; exact hv.isp)
  refine safe_bind (safe_getCpu c) fun _ => safe_bind (entryFrame_isrPush hE hN hc _) fun _ =>
    safe_bind (safe_getCpu c) fun _ => safe_bind (entryFrame_isrPush hE hN hc _) fun _ =>
    safe_bind (safe_forM fun _ _ => ?_) fun _ => ?_
  · exact safe_bind (safe_getCpu c) fun _ => entryFrame_isrPush hE hN hc _
  · exact safe_bind (hmodify fun _ => ⟨rfl, rfl, rfl⟩) fun _ =>
      safe_bind (hmodify fun _ => ⟨rfl, rfl, rfl⟩) fun _ => hmodify fun _ => ⟨rfl, rfl, rfl⟩

theorem entryFrame_vmEnterInterrupt (hN : N ≤ 64) (hc : c < N) (n : BitVec 32) :
    Safe (EntryFrame N c s) E (vmEnterInterrupt c n) := by
  have hlookup : Lookup (EntryFrame N c s) E :=
    ⟨safe_findMmio fun _ _ _ _ h => h.congr rfl rfl rfl, fun e _ => hE e⟩
  refine safe_bind (safe_getCpu c) fun _ => safe_ite (fun _ => safe_pure _) fun _ =>
    safe_ite (fun _ => safe_pure _) fun _ =>
    safe_bind (hlookup.vmRead64 entryFrame_devices.clock _) fun _ => ?_
  exact safe_ite (fun _ => safe_pure _) fun _ => entryFrame_enterHandler hE hN hc _ _

theorem entryFrame_vmHandleInterrupts (hN : N ≤ 64) (hc : c < N) :
    Safe (EntryFrame N c s) E (vmHandleInterrupts c) := by
  have hdeliver (coreId : ℕ) (ws : List ℕ) :
      Safe (EntryFrame N c s) E (deliverFirst c coreId ws) := by
    induction ws with
    | nil => exact safe_pure _
    | cons w ws ih =>
      exact safe_bind_get fun _ hv => safe_bind (safe_checkIndex_of_fault (fun _ _ => hE _) _ _ _)
        fun _ => safe_ite (fun _ => ih) fun _ => safe_bind (safe_set (hv.congr rfl rfl rfl))
        fun _ => entryFrame_vmEnterInterrupt hE hN hc _
  exact safe_bind (safe_getCpu c) fun _ => safe_ite (fun _ => safe_pure _) fun _ =>
    safe_ite (fun _ => safe_pure _) fun _ => hdeliver _ _

end Entry

theorem sameStack_of_stackRegs (hr : t.stackRegs = s.stackRegs)
    (hm : ∀ a ∈ (s.cpus c).stackRegion k.kind, t.memory a = s.memory a) : SameStack s t c k :=
  ⟨get_eq_of_stackRegs (congrFun hr c) k, base_eq_of_stackRegs (congrFun hr c) k, hm⟩

theorem HoldsStacks.entryFrame (h : HoldsStacks N s st) (hN : N ≤ 64) (hc : c < N) :
    EntryFrame N c s s := by
  have hcore := h.inv.core c hc
  refine ⟨h.inv.memorySize, ?_, ?_, rfl, fun _ _ => rfl⟩
  · rw [hcore.isrBase]
    exact stackBase_initCpu 0 hN hc .isr
  · rcases hcore.phase with ⟨-, hisp⟩ | ⟨-, hisp⟩
    · rw [hisp]
      decide
    · rw [hisp]
      decide

/-- Interrupt entry leaves the stacks of all cores alone. -/
theorem HoldsStacks.entered (h : HoldsStacks N s st) (hc : c < N)
    (ht : MachineInv memSize N (CoreInv memSize N settled) t) (hframe : EntryFrame N c s t) :
    HoldsStacks N t st := by
  refine h.same ht fun d hd l => sameStack_of_stackRegs hframe.regs fun a ha => hframe.memory a ?_
  rw [h.region hd] at ha
  have hne : (d, l.kind) ≠ (c, StackKind.isr) := by
    cases l <;> simp [LifoStack.kind]
  exact disjoint_left.mp (stackRegions_apart hd hc hne) ha

/-! ## Instructions -/

theorem HoldsStacks.fetched (h : HoldsStacks N s st) (hram : inRam s (s.cpus c).fetchIp 8) :
    HoldsStacks N (s.fetched c) st := by
  have hview := (stackFree_of_view fun m r => m = s.memory ∧ r = s.stackRegs).cpu s c
    { s.cpus c with
      lastIp := (s.cpus c).fetchIp.toNat
      ip := ((s.cpus c).fetchIp + 8).toNat } ⟨rfl, rfl⟩ rfl
  refine h.same ((kept_fetch64 c).ok h.inv (fetch64_of_inRam hram)) fun d _ k => ?_
  exact sameStack_of_stackRegs hview.2 fun a _ => congrFun hview.1 a

section Steps

variable {α : Type} {enc : BitVec 32 → α} {write : BitVec 32 → α → VmM Unit}
  {read : BitVec 32 → VmM α}

/-- What a quiet rest of an instruction keeps of a move. -/
theorem StackMoved.quiet {n : ℕ} {m : Bytes} {t₁ : Vm} (h : StackMoved c k u n m t₁)
    (hquiet : ∀ I, StackFree I → I t₁ → I t) : StackMoved c k u n m t := by
  obtain ⟨hm, hr⟩ := hquiet _ (stackFree_of_view fun m' r => m' = m ∧
    r = Function.update u.stackRegs c (k.regs.set (u.cpus c) n).stackRegs) ⟨h.memory, h.regs⟩
  exact ⟨hm, hr⟩

/-- A push that returns, followed by something that leaves the stacks alone. -/
theorem HoldsStacks.push_step (h : HoldsStacks N u st) (ha : CellAccess k enc write read)
    (hN : N ≤ 64) (hc : c < N) (ht : MachineInv memSize N (CoreInv memSize N settled) t)
    {t₁ : Vm} (hrun : stackPush k.regs k.cell write c (enc v) u = .ok ((), t₁))
    (hquiet : ∀ I, StackFree I → I t₁ → I t) :
    Legal (Allowed 256) Lifo.apply st [.push (c, k) v] ∧
      HoldsStacks N t ([.push (c, k) v].foldl Lifo.apply st) := by
  have hx := h.contents c hc k
  by_cases hlt : (st (c, k)).length < 256
  · obtain ⟨t', hrun', hmoved, -⟩ := stackPush_ok ha (h.place hN hc k) hx hlt v
    rw [hrun'] at hrun
    obtain rfl := (Prod.mk.inj (Except.ok.inj hrun)).2
    exact ⟨⟨hlt, trivial⟩, h.pushed hc ht hlt (hmoved.quiet hquiet)⟩
  · have hbound := hx.bounded
    rw [stackPush_full hx (by omega)] at hrun
    cases hrun

/-- A pop that returns, followed by something that leaves the stacks alone. -/
theorem HoldsStacks.pop_step (h : HoldsStacks N u st) (ha : CellAccess k enc write read)
    (hN : N ≤ 64) (hc : c < N) (ht : MachineInv memSize N (CoreInv memSize N settled) t)
    {a : α} {t₁ : Vm} (hrun : stackPop k.regs k.cell read c u = .ok (a, t₁))
    (hquiet : ∀ I, StackFree I → I t₁ → I t) :
    ∃ v, a = enc v ∧ Legal (Allowed 256) Lifo.apply st [.pop (c, k) v] ∧
      HoldsStacks N t ([.pop (c, k) v].foldl Lifo.apply st) := by
  have hx := h.contents c hc k
  cases hst : st (c, k) with
  | nil =>
    rw [hst] at hx
    rw [stackPop_empty hx] at hrun
    cases hrun
  | cons v xs =>
    rw [hst] at hx
    obtain ⟨t', hrun', hmoved, -⟩ := stackPop_ok ha (h.place hN hc k) hx
    rw [hrun'] at hrun
    obtain ⟨rfl, rfl⟩ := Prod.mk.inj (Except.ok.inj hrun)
    refine ⟨v, rfl, ⟨?_, trivial⟩, h.popped hc ht hst (hmoved.quiet hquiet)⟩
    change (st (c, k)).head? = some v
    rw [hst, List.head?_cons]

end Steps

theorem setLogic_ok {r : BitVec 8} (h : setLogic c r v s = .ok ((), t)) : t.regValue c r = v := by
  obtain ⟨hr, rfl⟩ := setLogic_eq_ok h
  exact regValue_withResult hr v

theorem stackFree_setLogic {r : BitVec 8} (h : setLogic c r v s = .ok ((), t)) (I : Vm → Prop)
    (hI : StackFree I) (hs : I s) : I t :=
  (hI.setLogic (E := fun _ => True) (fun _ => trivial) c r v).ok hs h

theorem stackFree_setIp {ip : ℕ} (h : setIp c ip s = .ok ((), t)) (I : Vm → Prop) (hI : StackFree I)
    (hs : I s) : I t :=
  (hI.setIp (E := fun _ => True) c ip).ok hs h

/-- What the return address of a call is. -/
theorem fetched_ip (s : Vm) (c : ℕ) :
    BitVec.ofNat 32 ((s.fetched c).cpus c).ip = (s.cpus c).fetchIp + 8 := by
  rw [Vm.fetched, setCpu_cpus_self]
  exact (BitVec.ofNat_toNat _ _).trans (BitVec.setWidth_eq _)

section Instruction

variable (hN : N ≤ 64) (hc : c < N) (hs : HoldsStacks N s st)
  (hu : HoldsStacks N (s.fetched c) st)
  (ht : MachineInv memSize N (CoreInv memSize N settled) t)
include hN hc hu ht

theorem holds_push
    (hrun : execute c (s.nextInst c) .push (s.fetched c) = .ok ((), t)) :
    Legal (Allowed 256) Lifo.apply st (instructionNotes c s t .push) ∧
      HoldsStacks N t ((instructionNotes c s t .push).foldl Lifo.apply st) := by
  obtain ⟨a, u, hread, hpush⟩ := bind_eq_ok hrun
  obtain ⟨rfl, rfl⟩ := readReg_ok hread
  rw [fetched_regValue] at hpush
  exact hu.push_step dataAccess hN hc ht hpush fun _ _ h => h

theorem holds_pop
    (hrun : execute c (s.nextInst c) .pop (s.fetched c) = .ok ((), t)) :
    Legal (Allowed 256) Lifo.apply st (instructionNotes c s t .pop) ∧
      HoldsStacks N t ((instructionNotes c s t .pop).foldl Lifo.apply st) := by
  obtain ⟨a, u, hpop, hset⟩ := bind_eq_ok hrun
  obtain ⟨v, rfl, h⟩ := hu.pop_step dataAccess hN hc ht hpop (stackFree_setLogic hset)
  rw [instructionNotes, setLogic_ok hset]
  exact h

theorem holds_callTo {target : Vcpu → BitVec 32}
    (hrun : callTo c target (s.fetched c) = .ok ((), t)) :
    Legal (Allowed 256) Lifo.apply st [.push (c, .call) ((s.cpus c).fetchIp + 8)] ∧
      HoldsStacks N t ([.push (c, .call) ((s.cpus c).fetchIp + 8)].foldl Lifo.apply st) := by
  rw [callTo, bind_ok (getCpu_apply c _), fetched_ip] at hrun
  obtain ⟨_, u, hpush, hrest⟩ := bind_eq_ok hrun
  rw [bind_ok (getCpu_apply c _)] at hrest
  exact hu.push_step callAccess hN hc ht hpush (stackFree_setIp hrest)

theorem holds_callr
    (hrun : execute c (s.nextInst c) .callr (s.fetched c) = .ok ((), t)) :
    Legal (Allowed 256) Lifo.apply st (instructionNotes c s t .callr) ∧
      HoldsStacks N t ((instructionNotes c s t .callr).foldl Lifo.apply st) := by
  rw [execute, bind_ok (getCpu_apply c _), fetched_ip] at hrun
  obtain ⟨_, u, hpush, hrest⟩ := bind_eq_ok hrun
  obtain ⟨a, u', hread, hset⟩ := bind_eq_ok hrest
  obtain ⟨-, rfl⟩ := readReg_ok hread
  exact hu.push_step callAccess hN hc ht hpush (stackFree_setIp hset)

theorem holds_ret
    (hrun : execute c (s.nextInst c) .ret (s.fetched c) = .ok ((), t)) :
    Legal (Allowed 256) Lifo.apply st (instructionNotes c s t .ret) ∧
      HoldsStacks N t ((instructionNotes c s t .ret).foldl Lifo.apply st) := by
  obtain ⟨a, u, hpop, hset⟩ := bind_eq_ok hrun
  obtain ⟨v, rfl, h⟩ := hu.pop_step callAccess hN hc ht hpop (stackFree_setIp hset)
  have hip : (t.cpus c).fetchIp = v := by
    rw [setIp, modifyCpu_apply] at hset
    obtain rfl := (Prod.mk.inj (Except.ok.inj hset)).2
    rw [setCpu_cpus_self]
    simp [Vcpu.fetchIp]
  rw [instructionNotes, hip]
  exact h

theorem holds_int
    (hrun : execute c (s.nextInst c) .int (s.fetched c) = .ok ((), t)) : HoldsStacks N t st := by
  have hsafe : Safe (EntryFrame N c (s.fetched c)) (fun _ => True)
      (execute c (s.nextInst c) .int) :=
    safe_bind (safe_readReg_of_faults (fun _ => trivial) c _) fun _ =>
      entryFrame_vmEnterInterrupt (fun _ => trivial) hN hc _
  exact hu.entered hc ht (hsafe.ok (hu.entryFrame hN hc) hrun)

omit hN in
/-- `OUT` writes no memory and at most the pointers of its own core. -/
theorem holds_out (hcsp : (t.cpus c).csp = (s.cpus c).csp) (hdsp : (t.cpus c).dsp = (s.cpus c).dsp)
    (hrun : execute c (s.nextInst c) .out (s.fetched c) = .ok ((), t)) : HoldsStacks N t st := by
  let P := fun (m : Bytes) (r : ℕ → ℤ × ℤ × BitVec 32 × BitVec 32) =>
    m = (s.fetched c).memory ∧ (∀ d, d ≠ c → r d = (s.fetched c).stackRegs d) ∧
      (r c).2.2 = ((s.fetched c).stackRegs c).2.2
  have hfree : StackFree fun vm => P vm.memory vm.stackRegs := stackFree_of_view P
  have hown {f : Vcpu → Vcpu} (hf : ∀ cpu, (f cpu).stackRegs.2.2 = cpu.stackRegs.2.2) :
      Safe (fun vm => P vm.memory vm.stackRegs) (fun _ => True) (modifyCpu c f) := by
    refine safe_modify fun vm hv => ⟨hv.1, fun d hd => ?_, ?_⟩
    · rw [Vm.stackRegs, setCpu_cpus_of_ne _ _ hd]
      exact hv.2.1 d hd
    · rw [Vm.stackRegs, setCpu_cpus_self, hf]
      exact hv.2.2
  have hsafe : Safe (fun vm => P vm.memory vm.stackRegs) (fun _ => True)
      (execOut c (s.nextInst c)) := by
    refine safe_bind (safe_readReg_of_faults (fun _ => trivial) c _) fun _ => safe_ite (fun _ => ?_)
      fun _ => safe_throw trivial
    refine safe_bind (safe_readReg_of_faults (fun _ => trivial) c _) fun v => safe_ite (fun _ => ?_)
      fun _ => safe_ite (fun _ => ?_) fun _ => safe_ite (fun _ => hown fun _ => rfl) fun _ =>
      hfree.devices.port.acceptIo _ _
    · exact safe_ite (fun _ => hown fun _ => rfl) fun _ => safe_pure _
    · exact safe_ite (fun _ => hown fun _ => rfl) fun _ => safe_pure _
  obtain ⟨hm, hothers, hbases⟩ := hsafe.ok ⟨rfl, fun _ _ => rfl, rfl⟩ hrun
  have hregs : t.stackRegs = (s.fetched c).stackRegs := by
    funext d
    by_cases hd : d = c
    · subst hd
      have hself : (s.fetched d).stackRegs d = (s.cpus d).stackRegs := by
        rw [Vm.stackRegs, Vm.fetched, setCpu_cpus_self]
        rfl
      rw [hself] at hbases ⊢
      exact Prod.ext hcsp (Prod.ext hdsp hbases)
    · exact hothers d hd
  exact hu.same ht fun d _ l => sameStack_of_stackRegs hregs fun a _ => congrFun hm a

end Instruction

/-- Opcodes that move no stack leave the stacks alone; a store does by assumption. -/
theorem holds_other {op : Opcode} (hu : HoldsStacks N (s.fetched c) st)
    (ht : MachineInv memSize N (CoreInv memSize N settled) t) (hop : op.movesStack = false)
    (hcells : op.stores = true → ∀ d < N, ∀ l : LifoStack,
      ∀ a ∈ ((s.fetched c).cpus d).stackRegion l.kind, t.memory a = (s.fetched c).memory a)
    (hrun : execute c (s.nextInst c) op (s.fetched c) = .ok ((), t)) : HoldsStacks N t st := by
  by_cases hstores : op.stores = true
  · have hfree := stackFree_of_view fun _ r => r = (s.fetched c).stackRegs
    have hstable : Stable (fun vm => vm.stackRegs = (s.fetched c).stackRegs) fun _ => True :=
      Stable.of_view _ (fun _ => rfl) fun _ _ _ _ => rfl
    have hregs := (hfree.opRules (fun _ => trivial) hop fun _ => hstable.memory).execute.ok rfl hrun
    exact hu.same ht fun d hd l => sameStack_of_stackRegs hregs (hcells hstores d hd l)
  · have hfree := stackFree_of_view fun m r => m = (s.fetched c).memory ∧
      r = (s.fetched c).stackRegs
    have hview := (hfree.opRules (E := fun _ => True) (fun _ => trivial) hop
      fun h => absurd h hstores).execute.ok ⟨rfl, rfl⟩ hrun
    exact hu.same ht fun d _ l => sameStack_of_stackRegs hview.2 fun a _ => congrFun hview.1 a

theorem fetched_stackRegion (s : Vm) (c d : ℕ) (l : LifoStack) :
    ((s.fetched c).cpus d).stackRegion l.kind = (s.cpus d).stackRegion l.kind := by
  by_cases hd : d = c
  · subst hd
    rw [Vm.fetched, setCpu_cpus_self]
    cases l <;> rfl
  · rw [Vm.fetched, setCpu_cpus_of_ne _ _ hd]

/-- The step lemma of one instruction. -/
theorem holds_instruction (hN : N ≤ 64) (hc : c < N) (hs : HoldsStacks N s st)
    (ht : MachineInv memSize N (CoreInv memSize N settled) t)
    (hun : StacksUntouched s (.instruction c)) (hstep : vmInstructionCase c s = .ok ((), t)) :
    Legal (Allowed 256) Lifo.apply st (stackNotes s (.instruction c)) ∧
      HoldsStacks N t ((stackNotes s (.instruction c)).foldl Lifo.apply st) := by
  obtain ⟨op, hop, hrun⟩ := vmInstructionCase_ok hstep
  have hnotes : stackNotes s (.instruction c) = instructionNotes c s t op := by
    simp only [stackNotes, hstep, hop, Opcode.ofByte_code]
  have hram : inRam s (s.cpus c).fetchIp 8 := by
    by_contra hram
    rw [vmInstructionCase, bind_error (fetch64_of_not_inRam hram)] at hstep
    cases hstep
  have hu := hs.fetched hram
  rw [hnotes]
  by_cases hmoves : op.movesStack = false
  · have hnone : instructionNotes c s t op = [] := by
      cases op <;> first | rfl | cases hmoves
    rw [hnone]
    refine ⟨trivial, holds_other hu ht hmoves (fun hstores d hd l a ha => ?_) hrun⟩
    rw [fetched_stackRegion] at ha
    exact hun.cells ⟨op, hop, hstores⟩ t hstep d (hs.inv.smpCores ▸ hd) l a ha
  · cases op with
    | push => exact holds_push hN hc hu ht hrun
    | pop => exact holds_pop hN hc hu ht hrun
    | call => exact holds_callTo hN hc hu ht hrun
    | rcall => exact holds_callTo hN hc hu ht hrun
    | callr => exact holds_callr hN hc hu ht hrun
    | ret => exact holds_ret hN hc hu ht hrun
    | int => exact ⟨trivial, holds_int hN hc hu ht hrun⟩
    | out =>
      obtain ⟨hcsp, hdsp⟩ := hun.pointers c rfl hop t hstep
      exact ⟨trivial, holds_out hc hu ht hcsp hdsp hrun⟩
    | _ => exact absurd rfl hmoves

/-! ## Runs -/

/-- The devices and the worker outside its transfer leave the stacks alone. -/
theorem HoldsStacks.device (h : HoldsStacks N s st) {m : VmM Unit}
    (hm : ∀ I : Vm → Prop, DeviceFree I → Safe I (fun _ => True) m)
    (ht : MachineInv memSize N (CoreInv memSize N settled) t) (hrun : m s = .ok ((), t)) :
    HoldsStacks N t st := by
  have hfree := stackFree_of_view fun m r => m = s.memory ∧ r = s.stackRegs
  have hview := (hm _ hfree.devices).ok ⟨rfl, rfl⟩ hrun
  exact h.same ht fun d _ l => sameStack_of_stackRegs hview.2 fun a _ => congrFun hview.1 a

/-- A vector is written below the stacks. -/
theorem HoldsStacks.registerIsr (h : HoldsStacks N s st) (hN : N ≤ 64)
    (ht : MachineInv memSize N (CoreInv memSize N settled) t) {n : BitVec 32} {isrIp : BitVec 64}
    (hrun : registerIsr n isrIp s = .ok ((), t)) : HoldsStacks N t st := by
  by_cases hn : n.toNat < ivtSize
  · have hplain := ivtEntry_plain h.inv hn
    have hto := ivtEntry_toNat hn
    have hivt : ivtSize = 256 := rfl
    rw [LampVm.registerIsr, if_neg (by omega), vmWrite64_plain hplain.inRam hplain.inSpace
      (fun _ => by omega)] at hrun
    obtain rfl := (Prod.mk.inj (Except.ok.inj hrun)).2
    refine h.same ht fun d hd l => sameStack_of_stackRegs rfl fun a ha => ?_
    rw [h.region hd, mem_Ico] at ha
    obtain ⟨-, hbelow, -⟩ := coreStackStart_outside hN d
    exact leStore_of_not_mem (by omega)
  · rw [LampVm.registerIsr, if_pos (by omega)] at hrun
    cases hrun

/-- A transfer writes memory only. -/
theorem HoldsStacks.workerTransfer (h : HoldsStacks N s st) {host : BounceBuffer}
    (ht : MachineInv memSize N (CoreInv memSize N settled) t)
    (hun : StacksUntouched s (.workerTransfer host))
    (hrun : workerTransfer host s = .ok ((), t)) : HoldsStacks N t st := by
  have hsafe : Safe (fun vm => vm.cpus = s.cpus) (fun _ => True) (LampVm.workerTransfer host) :=
    safe_workerTransfer (fun _ _ _ _ hv => hv) host
  have hcpus : t.cpus = s.cpus := hsafe.ok rfl hrun
  have hregs : t.stackRegs = s.stackRegs := congrArg (fun cpus c => (cpus c).stackRegs) hcpus
  refine h.same ht fun d hd l => sameStack_of_stackRegs hregs ?_
  exact hun.cells trivial t hrun d (h.inv.smpCores ▸ hd) l

/-- The step lemma: a step that touches no stack moves the stacks as its notes say. -/
theorem holdsStacks_step (hN : N ≤ 64) (e : Event) (hs : HoldsStacks N s st)
    (hun : StacksUntouched s e) (hen : eventEnabled s e) (hrun : runEvent e s = .ok ((), t)) :
    Legal (Allowed 256) Lifo.apply st (stackNotes s e) ∧
      HoldsStacks N t ((stackNotes s e).foldl Lifo.apply st) := by
  have ht : MachineInv memSize N (CoreInv memSize N settled) t := by
    have hres := runEvent_inv e (fun c _ => settled_mayEnter c) s
      (fun c _ _ _ => settled_mayReturn c) hen hs.inv
    rw [hrun] at hres
    exact hres
  cases e with
  | instruction c =>
    exact holds_instruction hN (hs.inv.smpCores ▸ hen.1) hs ht hun hrun
  | handleInterrupts c =>
    have hc : c < N := hs.inv.smpCores ▸ hen.1
    have hsafe : Safe (EntryFrame N c s) (fun _ => True) (vmHandleInterrupts c) :=
      entryFrame_vmHandleInterrupts (fun _ => trivial) hN hc
    exact ⟨trivial, hs.entered hc ht (hsafe.ok (hs.entryFrame hN hc) hrun)⟩
  | diskTick => exact ⟨trivial, hs.device (fun _ h => h.diskTick) ht hrun⟩
  | timerTick => exact ⟨trivial, hs.device (fun _ h => h.timerTick) ht hrun⟩
  | serialRx b =>
    refine ⟨trivial, hs.device (fun _ h => ?_) ht hrun⟩
    exact safe_bind (h.vmSerialRxEnqueue (fun _ _ => trivial) b) fun _ => safe_pure _
  | workerTake =>
    refine ⟨trivial, hs.device (m := workerTake) (fun _ h => safe_modify fun vm hI => ?_) ht hrun⟩
    exact h _ _ hI rfl
  | workerComplete =>
    refine ⟨trivial, hs.device (m := workerComplete) (fun _ h => ?_) ht hrun⟩
    exact safe_workerComplete fun _ _ _ hI => h _ _ hI rfl
  | workerTransfer host => exact ⟨trivial, hs.workerTransfer ht hun hrun⟩
  | registerIsr n isrIp => exact ⟨trivial, hs.registerIsr hN ht hrun⟩

/-- All stacks are empty at first. -/
theorem holdsStacks_init {smpCores : ℤ} (hN : coreCount smpCores ≤ 64)
    (h : (machine memSize smpCores).init s) :
    HoldsStacks (coreCount smpCores) s fun _ => [] := by
  obtain ⟨clock, memcheck, image, program, data, layout, hboot⟩ := h
  have hcreated := boot_created hboot
  refine ⟨(boot_inv hboot).mono fun c cpu hc => hc.rephase (.inl hc.phase), ?_, ?_⟩
  · intro c hc k
    obtain ⟨textBase, hcpu⟩ := hcreated.core c hc
    rw [hcpu, ← stackBase_initCpu textBase hN hc]
    cases k <;> rfl
  · intro c hc k
    obtain ⟨textBase, hcpu⟩ := hcreated.core c hc
    refine ⟨by simp, ?_, nofun⟩
    rw [hcpu]
    cases k <;> rfl

/-- The family of stacks behind a history that began with empty stacks. -/
def stacksAfter (log : List (StackNote (ℕ × LifoStack) (BitVec 32))) :
    ℕ × LifoStack → List (BitVec 32) :=
  log.foldl Lifo.apply fun _ => []

/-- What the next instruction of core `c` does when it is one of the stack instructions: it
returns with the top of the stack, or it stops with the panic of a full or an empty stack. -/
structure StackOutcomes (vm : Vm) (c : ℕ) (xs : LifoStack → List (BitVec 32)) : Prop where
  push : (vm.nextInst c).op = Opcode.push.code → IsReg (vm.nextInst c).rd →
    ((xs .data).length < 256 → ∃ t, vmInstructionCase c vm = .ok ((), t)) ∧
    ((xs .data).length = 256 → vmInstructionCase c vm = .error (.panic .dataStackOverflow))
  pop : (vm.nextInst c).op = Opcode.pop.code → IsReg (vm.nextInst c).rd →
    (∀ v rest, xs .data = v :: rest → ∃ t, vmInstructionCase c vm = .ok ((), t) ∧
      t.regValue c (vm.nextInst c).rd = v) ∧
    (xs .data = [] → vmInstructionCase c vm = .error (.panic .dataStackUnderflow))
  call : (vm.nextInst c).op = Opcode.call.code ∨ (vm.nextInst c).op = Opcode.rcall.code ∨
      ((vm.nextInst c).op = Opcode.callr.code ∧ IsReg (vm.nextInst c).rd) →
    ((xs .call).length < 256 → ∃ t, vmInstructionCase c vm = .ok ((), t)) ∧
    ((xs .call).length = 256 → vmInstructionCase c vm = .error (.panic .callStackOverflow))
  ret : (vm.nextInst c).op = Opcode.ret.code →
    (∀ v rest, xs .call = v :: rest → ∃ t, vmInstructionCase c vm = .ok ((), t) ∧
      (t.cpus c).ip = v.toNat) ∧
    (xs .call = [] → vmInstructionCase c vm = .error (.panic .callStackUnderflow))

/-- A call returns or finds the stack full, whatever it does behind the push. -/
theorem HoldsStacks.call_outcome (h : HoldsStacks N u st) (hN : N ≤ 64) (hc : c < N)
    {rest : VmM Unit} (hrest : ∀ t, ∃ t', rest t = .ok ((), t')) (v : BitVec 32) :
    ((st (c, .call)).length < 256 →
      ∃ t, (callPush c (v.setWidth 64) >>= fun _ => rest) u = .ok ((), t)) ∧
    ((st (c, .call)).length = 256 → (callPush c (v.setWidth 64) >>= fun _ => rest) u =
      .error (.panic .callStackOverflow)) := by
  have hx := h.contents c hc .call
  constructor
  · intro hlt
    obtain ⟨t, hrun, -⟩ := stackPush_ok callAccess (h.place hN hc .call) hx hlt v
    obtain ⟨t', ht'⟩ := hrest t
    exact ⟨t', (bind_ok hrun).trans ht'⟩
  · intro hfull
    exact bind_error (stackPush_full hx hfull _)

theorem HoldsStacks.outcomes (h : HoldsStacks N s st) (hN : N ≤ 64) (hc : c < N)
    (hram : inRam s (s.cpus c).fetchIp 8) : StackOutcomes s c fun k => st (c, k) := by
  have hu := h.fetched hram
  have hdata := hu.contents c hc .data
  have hcall := hu.contents c hc .call
  refine ⟨fun hop hrd => ?_, fun hop hrd => ?_, fun hop => ?_, fun hop => ?_⟩
  · rw [vmInstructionCase_of_inRam hram hop, execute, bind_ok (readReg_regValue hrd)]
    constructor
    · intro hlt
      obtain ⟨t, hrun, -⟩ := stackPush_ok dataAccess (hu.place hN hc .data) hdata hlt _
      exact ⟨t, hrun⟩
    · intro hfull
      exact stackPush_full hdata hfull _
  · rw [vmInstructionCase_of_inRam hram hop, execute]
    constructor
    · intro v rest hv
      rw [hv] at hdata
      obtain ⟨t, hrun, -⟩ := stackPop_ok dataAccess (hu.place hN hc .data) hdata
      have hset : setLogic c (s.nextInst c).rd v t = _ := setLogic_of_isReg hrd v
      exact ⟨_, (bind_ok hrun).trans hset, setLogic_ok hset⟩
    · intro hnil
      rw [hnil] at hdata
      exact bind_error (stackPop_empty hdata)
  · rcases hop with hop | hop | ⟨hop, hrd⟩ <;>
      rw [vmInstructionCase_of_inRam hram hop, execute]
    · rw [callTo, bind_ok (getCpu_apply c _)]
      exact hu.call_outcome hN hc (fun t => ⟨_, bind_ok (getCpu_apply c t)⟩) _
    · rw [callTo, bind_ok (getCpu_apply c _)]
      exact hu.call_outcome hN hc (fun t => ⟨_, bind_ok (getCpu_apply c t)⟩) _
    · refine hu.call_outcome hN hc (fun t => ?_) _
      exact ⟨_, bind_ok (readReg_regValue hrd)⟩
  · rw [vmInstructionCase_of_inRam hram hop, execute]
    constructor
    · intro v rest hv
      rw [hv] at hcall
      obtain ⟨t, hrun, -⟩ := stackPop_ok callAccess (hu.place hN hc .call) hcall
      refine ⟨_, (bind_ok hrun).trans rfl, ?_⟩
      rw [setCpu_cpus_self]
      simp
    · intro hnil
      rw [hnil] at hcall
      exact bind_error (stackPop_empty hcall)

/-- The notes of an instruction are about its own core, and interrupt entry and return by
instruction leave none. -/
theorem stackNotes_other {e : Event} (h : e = .instruction c →
      (s.nextInst c).op = Opcode.int.code ∨ (s.nextInst c).op = Opcode.iret.code)
    {x : StackNote (ℕ × LifoStack) (BitVec 32)} (hx : x ∈ stackNotes s e) :
    x.stack ≠ (c, k) := by
  cases e with
  | instruction d =>
    cases hrun : vmInstructionCase d s with
    | error _ => simp [stackNotes, hrun] at hx
    | ok r =>
      cases hop : Opcode.ofByte (s.nextInst d).op with
      | none => simp [stackNotes, hrun, hop] at hx
      | some op =>
        simp only [stackNotes, hrun, hop] at hx
        by_cases hd : d = c
        · subst hd
          rcases h rfl with hint | hiret
          · rw [hint, Opcode.ofByte_code] at hop
            obtain rfl := Option.some.inj hop
            cases hx
          · rw [hiret, Opcode.ofByte_code] at hop
            obtain rfl := Option.some.inj hop
            cases hx
        · have hstack : x.stack.1 = d := by
            cases op <;> simp [instructionNotes] at hx <;> rw [hx] <;> rfl
          intro heq
          rw [heq] at hstack
          exact hd hstack.symm
  | _ => cases hx

/-- The data and call stacks of up to 64 cores are independent bounded stacks in every run
that touches none of them from outside. -/
theorem stacks_are_lifo {smpCores : ℤ} (hmax : smpCores ≤ 64) {vm : Vm}
    {log : List (StackNote (ℕ × LifoStack) (BitVec 32))}
    (h : Reachable (((machine memSize smpCores).restrict StacksUntouched).logged stackNotes)
      (vm, log)) :
    Legal (Allowed 256) Lifo.apply (fun _ => []) log ∧
    (∀ c k v w before between after,
      log = before ++ .push (c, k) v :: between ++ .pop (c, k) w :: after →
      Balanced (c, k) between → w = v) ∧
    (∀ c < vm.smpCores, ∀ k, StackContents vm c k (stacksAfter log (c, k))) ∧
    (∀ c < vm.smpCores, inRam vm (vm.cpus c).fetchIp 8 →
      StackOutcomes vm c fun k => stacksAfter log (c, k)) ∧
    ∀ e t, ((machine memSize smpCores).restrict StacksUntouched).step vm e t →
      ∀ c < vm.smpCores, ∀ k, (e = .instruction c →
        (vm.nextInst c).op = Opcode.int.code ∨ (vm.nextInst c).op = Opcode.iret.code) →
      StackContents t c k (stacksAfter log (c, k)) := by
  have hN : coreCount smpCores ≤ 64 := by
    unfold coreCount
    split_ifs <;> omega
  have hstep : ∀ s e t st, HoldsStacks (coreCount smpCores) s st →
      ((machine memSize smpCores).restrict StacksUntouched).step s e t →
      Legal (Allowed 256) Lifo.apply st (stackNotes s e) ∧
        HoldsStacks (coreCount smpCores) t ((stackNotes s e).foldl Lifo.apply st) :=
    fun s e t st hs hst => holdsStacks_step hN e hs hst.1 hst.2.1 hst.2.2
  have hinit : ∀ s, ((machine memSize smpCores).restrict StacksUntouched).init s →
      HoldsStacks (coreCount smpCores) s fun _ => [] := fun s hs => holdsStacks_init hN hs
  obtain ⟨hlegal, hholds⟩ := h.refines hinit hstep
  have hcores := hholds.inv.smpCores
  refine ⟨hlegal, ?_, ?_, ?_, ?_⟩
  · rintro c k v w before between after rfl hb
    exact pop_eq_push hlegal hb
  · intro c hc k
    exact hholds.contents c (hcores ▸ hc) k
  · intro c hc hram
    exact hholds.outcomes hN (hcores ▸ hc) hram
  · intro e t hst c hc k hother
    have hc' : c < coreCount smpCores := hcores ▸ hc
    have ht := ((hstep vm e t _ hholds hst).2).contents c hc' k
    rw [foldl_apply_of_ne fun x hx => stackNotes_other hother hx] at ht
    exact ht

/-! ## A program with both stacks -/

/-- The logged machine with one core before word `n` of a program. -/
structure Walks (program : List (BitVec 64)) (n : ℕ)
    (log : List (StackNote (ℕ × LifoStack) (BitVec 32))) (vm : Vm) : Prop where
  reach : Reachable (((machine memSize 1).restrict StacksUntouched).logged stackNotes) (vm, log)
  word : AtWord program n vm
  holds : HoldsStacks 1 vm (stacksAfter log)

section Walks

variable {program : List (BitVec 64)} {n m : ℕ} {i : Inst} {op : Opcode} {vm : Vm}
  {log : List (StackNote (ℕ × LifoStack) (BitVec 32))}

/-- An instruction that stores nothing by itself and is no `OUT`. -/
theorem Walks.next (op : Opcode) (h : Walks program n log vm) (hn : n < program.length)
    (hword : program.getD n 0 = i.encode) (hop : i.op = op.code) (hstores : op.stores = false)
    (hout : op ≠ .out) (hrun : vmInstructionCase 0 vm = .ok ((), t))
    (hmem : ∀ a, programBase ≤ a → t.memory a = vm.memory a)
    (hip : (t.cpus 0).ip = programBase + 8 * m) :
    Walks program m (log ++ instructionNotes 0 vm t op) t := by
  obtain ⟨hram, hinst⟩ := h.word.fetch hn
  have hcode : (vm.nextInst 0).op = op.code := by
    rw [hinst, hword, Inst.decode_encode, hop]
  have hnotes : stackNotes vm (.instruction 0) = instructionNotes 0 vm t op := by
    simp only [stackNotes, hrun, hcode, Opcode.ofByte_code]
  have hen : eventEnabled vm (.instruction 0) := ⟨by rw [h.holds.inv.smpCores]; decide, .inl rfl⟩
  have hun : StacksUntouched vm (.instruction 0) := by
    refine ⟨?_, fun c hc hcontra => ?_⟩
    · rintro ⟨op', hcode', hcontra⟩
      obtain rfl := opcode_of_code hcode hcode'
      rw [hstores] at hcontra
      cases hcontra
    · obtain rfl := Event.instruction.inj hc
      exact absurd (opcode_of_code hcode hcontra) hout
  obtain ⟨-, hholds⟩ := holdsStacks_step (by decide) (.instruction 0) h.holds hun hen hrun
  rw [hnotes] at hholds
  refine ⟨h.reach.step (l := .instruction 0) ⟨⟨hun, hen, hrun⟩, by rw [hnotes]⟩,
    h.word.moved (hholds.inv.memorySize.trans h.word.memorySize.symm) (fun a ha _ => hmem a ha) hip,
    ?_⟩
  rw [stacksAfter, List.foldl_append]
  exact hholds

/-- The stacks of a single core are below the programs. -/
theorem HoldsStacks.below {st : ℕ × LifoStack → List (BitVec 32)} (h : HoldsStacks 1 u st)
    (k : LifoStack) : (k.regs.base (u.cpus 0)).toNat + k.cell * 256 ≤ programBase := by
  rw [h.base 0 (by decide) k]
  cases k <;> decide

theorem Walks.fetched (h : Walks program n log vm) (hn : n < program.length) :
    HoldsStacks 1 (vm.fetched 0) (stacksAfter log) := h.holds.fetched (h.word.fetch hn).1

/-- Instructions and words of a program are not in the way of a push. -/
theorem HoldsStacks.push_kept {st : ℕ × LifoStack → List (BitVec 32)} (h : HoldsStacks 1 u st)
    {k : LifoStack} {j v a : ℕ} (hj : j < 256) (ha : programBase ≤ a) :
    leStore u.memory ((k.regs.base (u.cpus 0)).toNat + k.cell * j) k.cell v a = u.memory a := by
  have hbelow := h.below k
  have hcell : k.cell * j + k.cell ≤ k.cell * 256 := by
    rw [← Nat.mul_succ]
    exact Nat.mul_le_mul_left _ hj
  exact leStore_of_not_mem (by omega)

theorem Walks.movi {r : BitVec 8} {v : BitVec 32} (h : Walks program n log vm)
    (hn : n < program.length)
    (hword : program.getD n 0 = Inst.encode ⟨Opcode.movi.code, r, 0, 0, v⟩) (hr : IsReg r) :
    ∃ t, vmInstructionCase 0 vm = .ok ((), t) ∧ t.regValue 0 r = v ∧
      Walks program (n + 1) log t := by
  obtain ⟨t, hrun, hword', ht⟩ := h.word.movi hn hword hr
  have hnext := h.next .movi hn hword rfl rfl (by decide) hrun (fun a _ => by rw [ht]; rfl)
    hword'.ip
  refine ⟨t, hrun, ?_, List.append_nil log ▸ hnext⟩
  rw [ht]
  exact regValue_withResult hr v

theorem Walks.push {r : BitVec 8} (h : Walks program n log vm) (hn : n < program.length)
    (hword : program.getD n 0 = Inst.encode ⟨Opcode.push.code, r, 0, 0, 0⟩) (hr : IsReg r)
    (hroom : (stacksAfter log (0, .data)).length < 256) :
    ∃ t, vmInstructionCase 0 vm = .ok ((), t) ∧
      Walks program (n + 1) (log ++ [.push (0, .data) (vm.regValue 0 r)]) t := by
  have hu := h.fetched hn
  obtain ⟨t, hpush, hmoved, hcpus⟩ := stackPush_ok dataAccess
    (hu.place (by decide) (by decide) .data) (hu.contents 0 (by decide) .data) hroom
    (vm.regValue 0 r)
  have hrun : vmInstructionCase 0 vm = .ok ((), t) := by
    rw [h.word.instruction .push hn hword rfl, execute, bind_ok (readReg_regValue hr),
      fetched_regValue]
    exact hpush
  have hnext := h.next .push hn hword rfl rfl (by decide) hrun (m := n + 1) (fun a ha => ?_) ?_
  · rw [instructionNotes, (h.word.fetch hn).2, hword, Inst.decode_encode] at hnext
    exact ⟨t, hrun, hnext⟩
  · rw [hmoved.memory]
    exact hu.push_kept (by omega) ha
  · rw [hcpus, setCpu_cpus_self]
    exact h.word.fetched_ip hn

theorem Walks.pop {r : BitVec 8} {v : BitVec 32} {rest : List (BitVec 32)}
    (h : Walks program n log vm) (hn : n < program.length)
    (hword : program.getD n 0 = Inst.encode ⟨Opcode.pop.code, r, 0, 0, 0⟩) (hr : IsReg r)
    (htop : stacksAfter log (0, .data) = v :: rest) : ∃ t, vmInstructionCase 0 vm = .ok ((), t) ∧
      t.regValue 0 r = v ∧ Walks program (n + 1) (log ++ [.pop (0, .data) v]) t := by
  have hu := h.fetched hn
  obtain ⟨u, hpop, hmoved, hcpus⟩ := stackPop_ok dataAccess
    (hu.place (by decide) (by decide) .data) (htop ▸ hu.contents 0 (by decide) .data)
  have hrun : vmInstructionCase 0 vm = .ok ((), u.setCpu 0 ((u.cpus 0).withResult hr v)) := by
    rw [h.word.instruction .pop hn hword rfl, execute]
    exact (bind_ok hpop).trans (setLogic_of_isReg hr v)
  have hnext := h.next .pop hn hword rfl rfl (by decide) hrun (m := n + 1) (fun a ha => ?_) ?_
  · rw [instructionNotes, (h.word.fetch hn).2, hword, Inst.decode_encode,
      regValue_withResult] at hnext
    exact ⟨_, hrun, regValue_withResult hr v, hnext⟩
  · exact congrFun hmoved.memory a
  · rw [setCpu_cpus_self, Vcpu.withResult, hcpus, setCpu_cpus_self]
    exact h.word.fetched_ip hn

theorem AtWord.target_toNat (h : AtWord program n vm) (hm : m < program.length) :
    (BitVec.ofNat 32 (programBase + 8 * m)).toNat = programBase + 8 * m := by
  have hfits := h.fits
  have hspace : memSize < 2 ^ 32 := by decide
  exact Nat.mod_eq_of_lt (by omega)

theorem Walks.call (h : Walks program n log vm) (hn : n < program.length) (hm : m < program.length)
    (hword : program.getD n 0 =
      Inst.encode ⟨Opcode.call.code, 0, 0, 0, BitVec.ofNat 32 (programBase + 8 * m)⟩)
    (hroom : (stacksAfter log (0, .call)).length < 256) :
    ∃ t, vmInstructionCase 0 vm = .ok ((), t) ∧ Walks program m
      (log ++ [.push (0, .call) (BitVec.ofNat 32 (programBase + 8 * (n + 1)))]) t := by
  have hu := h.fetched hn
  obtain ⟨u, hpush, hmoved, hcpus⟩ := stackPush_ok callAccess
    (hu.place (by decide) (by decide) .call) (hu.contents 0 (by decide) .call) hroom
    (BitVec.ofNat 32 ((vm.fetched 0).cpus 0).ip)
  have hrun : vmInstructionCase 0 vm = .ok ((), u.setCpu 0
      { u.cpus 0 with ip := (BitVec.ofNat 32 (programBase + 8 * m)).toNat }) := by
    rw [h.word.instruction .call hn hword rfl, execute, callTo, bind_ok (getCpu_apply 0 _)]
    exact (bind_ok hpush).trans rfl
  have hnext := h.next .call hn hword rfl rfl (by decide) hrun (m := m) (fun a ha => ?_) ?_
  · rw [instructionNotes, ← fetched_ip, h.word.fetched_ip hn] at hnext
    exact ⟨_, hrun, hnext⟩
  · refine (congrFun hmoved.memory a).trans ?_
    exact hu.push_kept (by omega) ha
  · rw [setCpu_cpus_self]
    exact h.word.target_toNat hm

theorem Walks.ret {rest : List (BitVec 32)} (h : Walks program n log vm) (hn : n < program.length)
    (hm : m < program.length)
    (hword : program.getD n 0 = Inst.encode ⟨Opcode.ret.code, 0, 0, 0, 0⟩)
    (htop : stacksAfter log (0, .call) = BitVec.ofNat 32 (programBase + 8 * m) :: rest) :
    ∃ t, vmInstructionCase 0 vm = .ok ((), t) ∧
      Walks program m (log ++ [.pop (0, .call) (BitVec.ofNat 32 (programBase + 8 * m))]) t := by
  have hu := h.fetched hn
  obtain ⟨u, hpop, hmoved, hcpus⟩ := stackPop_ok callAccess
    (hu.place (by decide) (by decide) .call) (htop ▸ hu.contents 0 (by decide) .call)
  have hrun : vmInstructionCase 0 vm = .ok ((), u.setCpu 0
      { u.cpus 0 with ip := (BitVec.ofNat 32 (programBase + 8 * m)).toNat }) := by
    rw [h.word.instruction .ret hn hword rfl, execute]
    refine (bind_ok hpop).trans ?_
    rw [BitVec.setWidth_setWidth_of_le _ (by decide), BitVec.setWidth_eq]
    rfl
  have hip : ((u.setCpu 0 { u.cpus 0 with
      ip := (BitVec.ofNat 32 (programBase + 8 * m)).toNat }).cpus 0).ip = programBase + 8 * m := by
    rw [setCpu_cpus_self]
    exact h.word.target_toNat hm
  have hnext := h.next .ret hn hword rfl rfl (by decide) hrun (m := m)
    (fun a _ => congrFun hmoved.memory a) hip
  rw [instructionNotes, Vcpu.fetchIp, hip] at hnext
  exact ⟨_, hrun, hnext⟩

end Walks

/-- The program pushes a register and calls a word that returns; then it pops into another. -/
def calling : List (BitVec 64) :=
  [Inst.encode ⟨Opcode.movi.code, 1, 0, 0, 7⟩, Inst.encode ⟨Opcode.push.code, 1, 0, 0, 0⟩,
    Inst.encode ⟨Opcode.call.code, 0, 0, 0, BitVec.ofNat 32 (programBase + 8 * 4)⟩,
    Inst.encode ⟨Opcode.pop.code, 2, 0, 0, 0⟩, Inst.encode ⟨Opcode.ret.code, 0, 0, 0, 0⟩]

/-- The history of the program. -/
def callingLog : List (StackNote (ℕ × LifoStack) (BitVec 32)) :=
  [.push (0, .data) 7, .push (0, .call) (BitVec.ofNat 32 (programBase + 8 * 3)),
    .pop (0, .call) (BitVec.ofNat 32 (programBase + 8 * 3)), .pop (0, .data) 7]

theorem stacks_are_lifo_called : ∃ vm,
    Reachable (((machine memSize 1).restrict StacksUntouched).logged stackNotes) (vm, callingLog) ∧
    vm.regValue 0 2 = 7 ∧ Legal (Allowed 256) Lifo.apply (fun _ => []) callingLog ∧
    ∀ k, StackContents vm 0 k [] := by
  obtain ⟨vm, hvm⟩ := exists_started stoppedClock calling (by decide)
  have hstart : Walks calling 0 [] vm :=
    ⟨.of_init ⟨hvm.init, rfl⟩, hvm.atWord (by decide), holdsStacks_init (by decide) hvm.init⟩
  obtain ⟨t₁, -, hreg, h₁⟩ := hstart.movi (show 0 < 5 by decide) rfl (show IsReg 1 by decide)
  obtain ⟨t₂, -, h₂⟩ := h₁.push (show 1 < 5 by decide) rfl (show IsReg 1 by decide) (by decide)
  rw [hreg] at h₂
  obtain ⟨t₃, -, h₃⟩ := h₂.call (show 2 < 5 by decide) (show 4 < 5 by decide) rfl (by decide)
  obtain ⟨t₄, -, h₄⟩ := h₃.ret (show 4 < 5 by decide) (show 3 < 5 by decide) rfl rfl
  obtain ⟨t₅, -, hpop, h₅⟩ := h₄.pop (show 3 < 5 by decide) rfl (show IsReg 2 by decide) rfl
  obtain ⟨hlegal, -, hcontents, -⟩ := stacks_are_lifo (by decide) h₅.reach
  have hcores : 0 < t₅.smpCores := by
    rw [h₅.holds.inv.smpCores]
    decide
  refine ⟨t₅, h₅.reach, hpop, hlegal, fun k => ?_⟩
  cases k with
  | call => exact hcontents 0 hcores .call
  | data => exact hcontents 0 hcores .data

end LampVm
