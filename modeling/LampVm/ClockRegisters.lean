import LampVm.RegisterFields

/-!
# Clock registers

Each of the three clocks has a register for its low word, whose read latches the clock, and
one for the high word of the latched value. The registered window ends before the last of the
six registers: a read of the high word of the boot clock finds RAM.
-/
namespace LampVm

open ByteOrder Contract Transition

/-! ## The registers -/

def TimerSource.lowReg : TimerSource → BitVec 32
  | .realtime => BitVec.ofNat 32 (timeBase + 0x04)
  | .monotonic => BitVec.ofNat 32 (timeBase + 0x0C)
  | .boot => BitVec.ofNat 32 (timeBase + 0x14)

def TimerSource.highReg : TimerSource → BitVec 32
  | .realtime => BitVec.ofNat 32 (timeBase + 0x08)
  | .monotonic => BitVec.ofNat 32 (timeBase + 0x10)
  | .boot => BitVec.ofNat 32 (timeBase + 0x18)

def Vm.latched (vm : Vm) : TimerSource → BitVec 64
  | .realtime => vm.latchedRealtime
  | .monotonic => vm.latchedMonotonic
  | .boot => vm.latchedBoottime

/-- The value of a clock if it is read now. -/
def Vm.clockValue (vm : Vm) : TimerSource → BitVec 64
  | .realtime => vm.hostClock.realtime vm.hostClock.readings
  | .monotonic => vm.hostClock.monotonic vm.hostClock.readings
  | .boot => vm.hostClock.monotonic vm.hostClock.readings - vm.startMonotonicNs

/-- The word of RAM at an address. -/
def Vm.ramWord (vm : Vm) (a : BitVec 32) : BitVec 32 := BitVec.ofNat 32 (leNat vm.memory a.toNat 4)

section Registers

variable {vm : Vm} {a : BitVec 32} {clock : TimerSource}

/-- Reading a low word returns it and latches the clock. -/
theorem timeRead32_lowReg (vm : Vm) (clock : TimerSource) :
    ∃ t, timeRead32 clock.lowReg vm = .ok ((vm.clockValue clock).setWidth 32, t) ∧
      t.latched clock = vm.clockValue clock ∧ t.memory = vm.memory ∧ t.cpus = vm.cpus := by
  cases clock with
  | realtime => exact ⟨_, rfl, rfl, rfl, rfl⟩
  | monotonic => exact ⟨_, rfl, rfl, rfl, rfl⟩
  | boot => exact ⟨_, rfl, rfl, rfl, rfl⟩

/-- Reading a high word returns that of the latched value. -/
theorem timeRead32_highReg (vm : Vm) (clock : TimerSource) :
    timeRead32 clock.highReg vm = .ok ((vm.latched clock >>> 32).setWidth 32, vm) := by
  cases clock with
  | realtime => rfl
  | monotonic => rfl
  | boot => rfl

theorem eq_register {k : ℕ} (h : (a - BitVec.ofNat 32 timeBase).toNat = k) :
    a = BitVec.ofNat 32 (timeBase + k) := by
  have hoffset : a - BitVec.ofNat 32 timeBase = BitVec.ofNat 32 k := by
    rw [← h, BitVec.ofNat_toNat, BitVec.setWidth_eq]
  calc a = a - BitVec.ofNat 32 timeBase + BitVec.ofNat 32 timeBase := (BitVec.sub_add_cancel a _).symm
    _ = BitVec.ofNat 32 (timeBase + k) := by rw [hoffset, ← BitVec.ofNat_add, Nat.add_comm]

/-! ## What other loads leave alone -/

/-- A clock holds its latched value, and RAM its bytes. -/
structure Held (clock : TimerSource) (value : BitVec 64) (memory : Bytes) (vm : Vm) : Prop where
  latched : vm.latched clock = value
  memory : vm.memory = memory

variable {value : BitVec 64} {memory : Bytes} {E : Fault → Prop}

theorem held_core (c : ℕ) : CoreFree c (Held clock value memory) :=
  fun _ _ h _ => ⟨h.latched, h.memory⟩

theorem held_lookup : Lookup (Held clock value memory) fun _ => True where
  findMmio := safe_findMmio fun _ _ _ _ h => ⟨h.latched, h.memory⟩
  fault _ _ := trivial

/-- Reading the host clock touches neither. -/
theorem Held.hostClock (h : Held clock value memory vm) (host : HostClock) :
    Held clock value memory { vm with hostClock := host } := by
  refine ⟨Eq.trans ?_ h.latched, h.memory⟩
  cases clock <;> rfl

theorem held_getTimer {source : TimerSource} (h : source ≠ clock) :
    Safe (Held clock value memory) E (getTimer source) := by
  have hread : Safe (Held clock value memory) E hostMonotonicTimeNs :=
    safe_bind_get fun _ hs => safe_bind (safe_set (hs.hostClock _)) fun _ => safe_pure _
  cases source with
  | realtime =>
    refine safe_bind (safe_bind_get fun _ hs => safe_bind (safe_set (hs.hostClock _)) fun _ =>
      safe_pure _) fun _ => safe_bind (safe_modify fun s hs => ⟨?_, hs.memory⟩) fun _ => safe_pure _
    cases clock with
    | realtime => exact absurd rfl h
    | monotonic => exact hs.latched
    | boot => exact hs.latched
  | monotonic =>
    refine safe_bind hread fun _ => safe_bind (safe_modify fun s hs => ⟨?_, hs.memory⟩) fun _ =>
      safe_pure _
    cases clock with
    | realtime => exact hs.latched
    | monotonic => exact absurd rfl h
    | boot => exact hs.latched
  | boot =>
    refine safe_bind hread fun _ => safe_bind_get fun s hs =>
      safe_bind (safe_set ⟨?_, hs.memory⟩) fun _ => safe_pure _
    cases clock with
    | realtime => exact hs.latched
    | monotonic => exact hs.latched
    | boot => exact absurd rfl h

theorem held_timeRead32 (ha : a ≠ clock.lowReg) :
    Safe (Held clock value memory) E (timeRead32 a) := by
  have hlow : ∀ source : TimerSource, a = source.lowReg → source ≠ clock := by
    rintro source hreg rfl
    exact ha hreg
  refine safe_bind safe_get fun vm => ?_
  split
  · exact safe_pure _
  · exact safe_bind (held_getTimer (hlow .realtime (eq_register ‹_›))) fun _ => safe_pure _
  · exact safe_pure _
  · exact safe_bind (held_getTimer (hlow .monotonic (eq_register ‹_›))) fun _ => safe_pure _
  · exact safe_pure _
  · exact safe_bind (held_getTimer (hlow .boot (eq_register ‹_›))) fun _ => safe_pure _
  · exact safe_pure _
  · exact safe_pure _

theorem held_vmRead32 (ha : a ≠ clock.lowReg) :
    Safe (Held clock value memory) (fun _ => True) (vmRead32 a) := by
  refine held_lookup.vmRead32 fun ops => ?_
  cases ops with
  | fb => exact held_lookup.fbRead32 a
  | time => exact held_timeRead32 ha
  | sysinfo => exact safe_sysinfoRead32 a

/-! ## Where reads go -/

def timeDevice : MmioDevice :=
  ⟨BitVec.ofNat 32 timeBase, BitVec.ofNat 32 (timeBase + timeSize - 1), .time⟩

/-- An aligned read inside the window is a read of a clock register. -/
theorem vmRead32_time (hc : CacheCoherent vm) (hdev : vm.mmioDevices = registeredDevices memSize)
    (hlo : timeBase ≤ a.toNat) (hhi : a.toNat < timeBase + timeSize) (hal : a.toNat % 4 = 0) :
    vmRead32 a vm = timeRead32 a (vm.cached timeDevice) := by
  have htime : timeBase = 0x2000 ∧ timeSize = 24 := ⟨rfl, rfl⟩
  have hmem : timeDevice ∈ registeredDevices memSize := by simp [registeredDevices, timeDevice]
  have hcov : timeDevice.covers a := by
    rw [timeDevice, covers_window (by omega)]
    omega
  exact vmRead32_window hc hdev hmem hcov fun _ => hal

/-- A read of a low word. -/
theorem vmRead32_lowReg (hc : CacheCoherent vm) (hdev : vm.mmioDevices = registeredDevices memSize)
    (clock : TimerSource) :
    ∃ t, vmRead32 clock.lowReg vm = .ok ((vm.clockValue clock).setWidth 32, t) ∧
      t.latched clock = vm.clockValue clock ∧ t.memory = vm.memory ∧ t.cpus = vm.cpus := by
  have hread := vmRead32_time hc hdev (a := clock.lowReg) (by cases clock <;> decide)
    (by cases clock <;> decide) (by cases clock <;> decide)
  obtain ⟨t, ht, hlatched, hmem, hcpus⟩ := timeRead32_lowReg (vm.cached timeDevice) clock
  have hvalue : (vm.cached timeDevice).clockValue clock = vm.clockValue clock := by
    cases clock <;> rfl
  rw [hvalue] at ht hlatched
  exact ⟨t, hread.trans ht, hlatched, hmem, hcpus⟩

/-- What a read of a high word returns: that of the latched value, unless the clock is the
boot clock. -/
def Vm.highWord (vm : Vm) : TimerSource → BitVec 32
  | .boot => vm.ramWord TimerSource.boot.highReg
  | clock => (vm.latched clock >>> 32).setWidth 32

theorem vmRead32_highReg (hc : CacheCoherent vm) (hM : vm.memorySize = memSize)
    (hdev : vm.mmioDevices = registeredDevices memSize) (clock : TimerSource) :
    ∃ t, vmRead32 clock.highReg vm = .ok (vm.highWord clock, t) := by
  cases clock with
  | realtime =>
    have hread := vmRead32_time hc hdev (a := TimerSource.realtime.highReg) (by decide) (by decide)
      (by decide)
    exact ⟨_, hread.trans (timeRead32_highReg _ .realtime)⟩
  | monotonic =>
    have hread := vmRead32_time hc hdev (a := TimerSource.monotonic.highReg) (by decide) (by decide)
      (by decide)
    exact ⟨_, hread.trans (timeRead32_highReg _ .monotonic)⟩
  | boot =>
    have hplain : PlainRam vm TimerSource.boot.highReg 4 :=
      plainRam_of_outsideWindows hM hdev (by decide) (by decide)
    exact ⟨_, vmRead32_plain hc hplain fun _ => by decide⟩

end Registers

/-! ## Load instructions -/

section Loads

variable {vm s t u : Vm} {c : ℕ} {a w : BitVec 32} {clock : TimerSource} {value : BitVec 64}
  {memory : Bytes}

/-- Core `c` executes `LOAD32` of the word at `a` next. -/
structure Vm.NextLoad32 (vm : Vm) (c : ℕ) (a : BitVec 32) : Prop where
  inRam : inRam vm (vm.cpus c).fetchIp 8
  op : (vm.nextInst c).op = Opcode.load32.code
  rd : IsReg (vm.nextInst c).rd
  rs1 : IsReg (vm.nextInst c).rs1
  addr : vm.regValue c (vm.nextInst c).rs1 + (vm.nextInst c).imm = a

/-- A result is written only to a register that exists. -/
theorem setLogic_eq_ok {r : BitVec 8} {v : BitVec 32} (h : setLogic c r v vm = .ok ((), u)) :
    ∃ hr : IsReg r, u = vm.setCpu c ((vm.cpus c).withResult hr v) := by
  by_cases hr : IsReg r
  · rw [setLogic_of_isReg hr] at h
    exact ⟨hr, (Prod.mk.inj (Except.ok.inj h)).2.symm⟩
  · obtain ⟨_, _, hwrite, -⟩ := bind_eq_ok h
    rw [writeReg, dif_neg hr] at hwrite
    cases hwrite

theorem regValue_withResult {r : BitVec 8} (hr : IsReg r) (v : BitVec 32) :
    (vm.setCpu c ((vm.cpus c).withResult hr v)).regValue c r = v := by
  simp only [Vm.regValue, dif_pos hr, setCpu_cpus_self, Vcpu.withResult, Function.update_self]

theorem Vm.NextLoad32.run (h : vm.NextLoad32 c a)
    (hread : vmRead32 a (vm.fetched c) = .ok (w, u)) :
    vmInstructionCase c vm = .ok ((), u.setCpu c ((u.cpus c).withResult h.rd w)) := by
  have hbase : baseImm c (vm.nextInst c) (vm.fetched c) = .ok (a, vm.fetched c) := by
    rw [baseImm, bind_ok (readReg_regValue h.rs1), fetched_regValue, h.addr]
    rfl
  rw [vmInstructionCase_of_inRam h.inRam h.op, execute, bind_ok hbase, bind_ok hread]
  exact setLogic_of_isReg h.rd w

/-- The opcodes that load. -/
def IsLoad (op : Opcode) : Prop :=
  op = .load ∨ op = .load32 ∨ op = .loadx32 ∨ op = .fload32 ∨ op = .ldar

/-- Where the next instruction, with its opcode, looks for a device register. -/
def Vm.load32Addr (vm : Vm) (c : ℕ) : Opcode → Option (BitVec 32)
  | .load32 | .fload32 => some (vm.regValue c (vm.nextInst c).rs1 + (vm.nextInst c).imm)
  | .loadx32 => some (vm.regValue c (vm.nextInst c).rs1 + vm.regValue c (vm.nextInst c).rs2 +
      (vm.nextInst c).imm)
  | _ => none

/-- A core executes a load that does not read the low word of the clock. -/
def OtherLoad (clock : TimerSource) (s : Vm) : Event → Prop
  | .instruction c => ∃ op, IsLoad op ∧ (s.nextInst c).op = op.code ∧
    s.load32Addr c op ≠ some clock.lowReg
  | _ => False

theorem held_readReg (r : BitVec 8) :
    Safe (Held clock value memory) (fun _ => True) (readReg c r) :=
  safe_readReg c (.inr trivial)

theorem held_modifyFlags (f : BitVec 32 → BitVec 32) :
    Safe (Held clock value memory) (fun _ => True) (modifyFlags c f) :=
  (held_core c).modifyCpu fun _ => rfl

theorem held_writeReg (r : BitVec 8) (v : BitVec 32) :
    Safe (Held clock value memory) (fun _ => True) (writeReg c r v) :=
  (held_core c).writeReg (.inr trivial) v

theorem held_setLogic (r : BitVec 8) (v : BitVec 32) :
    Safe (Held clock value memory) (fun _ => True) (setLogic c r v) :=
  safe_bind (held_writeReg r v) fun _ => safe_bind (held_readReg r) fun _ => held_modifyFlags _

theorem held_baseImm (i : Inst) : Safe (Held clock value memory) (fun _ => True) (baseImm c i) :=
  safe_bind (held_readReg _) fun _ => safe_pure _

theorem baseImm_ok {i : Inst} (h : baseImm c i s = .ok (a, t)) :
    a = s.regValue c i.rs1 + i.imm ∧ t = s := by
  obtain ⟨base, u, hbase, h⟩ := bind_eq_ok h
  obtain ⟨rfl, rfl⟩ := readReg_ok hbase
  cases h
  exact ⟨rfl, rfl⟩

theorem baseIndexImm_ok {i : Inst} (h : baseIndexImm c i s = .ok (a, t)) :
    a = s.regValue c i.rs1 + s.regValue c i.rs2 + i.imm ∧ t = s := by
  obtain ⟨base, u, hbase, h⟩ := bind_eq_ok h
  obtain ⟨rfl, rfl⟩ := readReg_ok hbase
  obtain ⟨index, v, hindex, h⟩ := bind_eq_ok h
  obtain ⟨rfl, rfl⟩ := readReg_ok hindex
  cases h
  exact ⟨rfl, rfl⟩

/-- The step lemma: a load of anything else leaves the latched value and RAM alone. -/
theorem held_otherLoad {e : Event} (hs : Held clock value memory s) (hload : OtherLoad clock s e)
    (hrun : runEvent e s = .ok ((), t)) : Held clock value memory t := by
  cases e with
  | instruction c =>
    obtain ⟨op, hop, hcode, haddr⟩ := hload
    obtain ⟨op', hcode', hexec⟩ := vmInstructionCase_ok hrun
    obtain rfl := opcode_of_code hcode hcode'
    have hfetched : Held clock value memory (s.fetched c) := ⟨hs.latched, hs.memory⟩
    obtain rfl | rfl | rfl | rfl | rfl := hop
    · exact Safe.ok (safe_bind (held_baseImm _) fun _ => safe_bind (held_lookup.vmRead8 _) fun _ =>
        safe_bind (held_writeReg _ _) fun _ => safe_bind (held_readReg _) fun _ =>
        held_modifyFlags _) hfetched hexec
    · obtain ⟨a, u, ha, hexec⟩ := bind_eq_ok hexec
      obtain ⟨rfl, rfl⟩ := baseImm_ok ha
      rw [fetched_regValue] at hexec
      have hne := fun h => haddr (congrArg some h)
      exact Safe.ok (safe_bind (held_vmRead32 hne) fun _ => held_setLogic _ _) hfetched hexec
    · obtain ⟨a, u, ha, hexec⟩ := bind_eq_ok hexec
      obtain ⟨rfl, rfl⟩ := baseIndexImm_ok ha
      rw [fetched_regValue, fetched_regValue] at hexec
      have hne := fun h => haddr (congrArg some h)
      exact Safe.ok (safe_bind (held_vmRead32 hne) fun _ => held_setLogic _ _) hfetched hexec
    · obtain ⟨a, u, ha, hexec⟩ := bind_eq_ok hexec
      obtain ⟨rfl, rfl⟩ := baseImm_ok ha
      rw [fetched_regValue] at hexec
      have hne := fun h => haddr (congrArg some h)
      exact Safe.ok (safe_bind (held_vmRead32 hne) fun _ => safe_bind (held_writeReg _ _) fun _ =>
        safe_bind (held_readReg _) fun _ => held_modifyFlags _) hfetched hexec
    · refine Safe.ok (safe_bind (safe_bind (held_baseImm _) fun _ => safe_bind (safe_ite (fun _ =>
        safe_throw trivial) fun _ => safe_pure _) fun _ => safe_pure _) fun _ => safe_bind
        (safe_bind (held_lookup.atomic32PtrOrPanic _ _) fun _ => held_lookup.hostLoad32 _) fun _ =>
        held_setLogic _ _) hfetched hexec
  | _ => exact hload.elim

/-! ## The two halves -/

variable {smpCores : ℤ}

/-- `LOAD32` of a low word. -/
theorem Vm.NextLoad32.low (h : s.NextLoad32 c clock.lowReg)
    (hs : Reachable (machine memSize smpCores) s) :
    ∃ t, vmInstructionCase c s = .ok ((), t) ∧
      t.regValue c (s.nextInst c).rd = (s.clockValue clock).setWidth 32 ∧
      Held clock (s.clockValue clock) s.memory t ∧
      t.cpus c = ((s.fetched c).cpus c).withResult h.rd ((s.clockValue clock).setWidth 32) := by
  have hv := reachable_inv hs
  have hcache : CacheCoherent (s.fetched c) := hv.cache
  obtain ⟨u, hread, hlatched, hmem, hcpus⟩ := vmRead32_lowReg hcache hv.devices clock
  have hvalue : (s.fetched c).clockValue clock = s.clockValue clock := by cases clock <;> rfl
  rw [hvalue] at hread hlatched
  refine ⟨_, h.run hread, regValue_withResult h.rd _, ⟨?_, hmem⟩, ?_⟩
  · rw [← hlatched]
    cases clock <;> rfl
  · rw [setCpu_cpus_self, hcpus]

/-- `LOAD32` of a high word. -/
theorem Vm.NextLoad32.high (h : u.NextLoad32 c clock.highReg)
    (hu : Reachable (machine memSize smpCores) u) :
    ∃ v, vmInstructionCase c u = .ok ((), v) ∧
      v.regValue c (u.nextInst c).rd = u.highWord clock := by
  have hv := reachable_inv hu
  have hcache : CacheCoherent (u.fetched c) := hv.cache
  obtain ⟨t, hread⟩ := vmRead32_highReg hcache hv.memorySize hv.devices clock
  have hword : (u.fetched c).highWord clock = u.highWord clock := by cases clock <;> rfl
  rw [hword] at hread
  exact ⟨_, h.run hread, regValue_withResult h.rd _⟩

/-- The clock has a high word of its own, or RAM happens to hold it. -/
theorem Held.highWord_iff (h : Held clock value s.memory u) :
    u.highWord clock = (value >>> 32).setWidth 32 ↔
      (clock = .boot → s.ramWord clock.highReg = (value >>> 32).setWidth 32) := by
  have hlatched := h.latched
  cases clock with
  | realtime =>
    refine iff_of_true ?_ fun hboot => by cases hboot
    rw [Vm.highWord, hlatched]
    intro hboot
    cases hboot
  | monotonic =>
    refine iff_of_true ?_ fun hboot => by cases hboot
    rw [Vm.highWord, hlatched]
    intro hboot
    cases hboot
  | boot =>
    rw [Vm.highWord, Vm.ramWord, h.memory]
    exact ⟨fun hword _ => hword, fun hword => hword rfl⟩

/-- `LOAD32` of a clock's low word, then any loads by any cores that do not read it again,
then `LOAD32` of the clock's high word: both return, the first with the low half of the clock's
value. The second returns the high half of that value exactly when the clock is not the boot
clock or RAM holds this half behind the registered window. -/
theorem clock_halves_iff (hs : Reachable (machine memSize smpCores) s)
    (hcore : eventEnabled s (.instruction c)) (hlow : s.NextLoad32 c clock.lowReg) :
    ∃ t, vmInstructionCase c s = .ok ((), t) ∧
      t.regValue c (s.nextInst c).rd = (s.clockValue clock).setWidth 32 ∧
      ∀ events u d, Run ((machine memSize smpCores).restrict (OtherLoad clock)) t events u →
        u.NextLoad32 d clock.highReg →
        ∃ v, vmInstructionCase d u = .ok ((), v) ∧
          (v.regValue d (u.nextInst d).rd = (s.clockValue clock >>> 32).setWidth 32 ↔
            (clock = .boot → s.ramWord clock.highReg =
              (s.clockValue clock >>> 32).setWidth 32)) := by
  obtain ⟨t, hrun, hreg, hheld, -⟩ := hlow.low hs
  refine ⟨t, hrun, hreg, fun events u d hloads hhigh => ?_⟩
  have ht : Reachable (machine memSize smpCores) t := hs.step (l := .instruction c) ⟨hcore, hrun⟩
  have hstep : ∀ x e y, Held clock (s.clockValue clock) s.memory x →
      ((machine memSize smpCores).restrict (OtherLoad clock)).step x e y →
      Held clock (s.clockValue clock) s.memory y := by
    rintro x e y hx ⟨hload, -, hevent⟩
    exact held_otherLoad hx hload hevent
  have hu := Run.keeps hstep hheld hloads
  obtain ⟨v, hv, hword⟩ := hhigh.high (ht.run hloads.of_restrict)
  exact ⟨v, hv, hword ▸ hu.highWord_iff⟩

end Loads

/-! ## Two loads in a row -/

/-- Loads the low word of a clock into `r1` and its high word into `r2`. -/
def clockProgram (clock : TimerSource) : List (BitVec 64) :=
  [Inst.encode ⟨Opcode.load32.code, 1, 0, 0, clock.lowReg⟩,
    Inst.encode ⟨Opcode.load32.code, 2, 0, 0, clock.highReg⟩]

theorem nextLoad32_of_inst {vm : Vm} {r : BitVec 8} {a : BitVec 32} (hr : IsReg r)
    (hram : inRam vm (vm.cpus 0).fetchIp 8)
    (hinst : vm.nextInst 0 = ⟨Opcode.load32.code, r, 0, 0, a⟩) (hzero : (vm.cpus 0).regs 0 = 0) :
    vm.NextLoad32 0 a := by
  refine ⟨hram, by rw [hinst], by rwa [hinst], ?_, ?_⟩
  · rw [hinst]
    exact Nat.zero_lt_of_lt hr
  · have hbase : vm.regValue 0 0 = 0#32 := hzero
    rw [hinst]
    change vm.regValue 0 0 + a = a
    rw [hbase, BitVec.zero_add]

/-- A machine started on the program executes one load after the other. -/
theorem exists_clockProgram (host : HostClock) (clock : TimerSource) :
    ∃ s t, Started host (clockProgram clock) s ∧ s.NextLoad32 0 clock.lowReg ∧
      vmInstructionCase 0 s = .ok ((), t) ∧ t.NextLoad32 0 clock.highReg ∧
      Held clock (s.clockValue clock) s.memory t ∧ Reachable (machine memSize 1) t := by
  have hfit : programBase + (clockProgram clock).length * 8 ≤ memSize := by cases clock <;> decide
  have hlength : (clockProgram clock).length = 2 := by cases clock <;> rfl
  obtain ⟨s, hs⟩ := exists_started host (clockProgram clock) hfit
  have hreach : Reachable (machine memSize 1) s := .of_init hs.init
  have hword := hs.atWord hfit
  obtain ⟨hram, hfirst⟩ := hword.fetch (by omega)
  have hinst : s.nextInst 0 = ⟨Opcode.load32.code, 1, 0, 0, clock.lowReg⟩ :=
    hfirst.trans (by cases clock <;> decide)
  have hlow : s.NextLoad32 0 clock.lowReg :=
    nextLoad32_of_inst (by decide) hram hinst (by rw [hs.core]; rfl)
  obtain ⟨t, hrun, -, hheld, hcpu⟩ := hlow.low hreach
  have ht : Reachable (machine memSize 1) t :=
    hreach.step (l := .instruction 0) ⟨enabled_of_reachable hreach, hrun⟩
  have hip : (t.cpus 0).ip = programBase + 8 * 1 := by
    rw [hcpu]
    exact hword.fetched_ip (by omega)
  have hnext : AtWord (clockProgram clock) 1 t :=
    hword.moved ((reachable_inv ht).memorySize.trans hs.memorySize.symm)
      (fun a _ _ => congrFun hheld.memory a) hip
  obtain ⟨hram', hsecond⟩ := hnext.fetch (by omega)
  have hinst' : t.nextInst 0 = ⟨Opcode.load32.code, 2, 0, 0, clock.highReg⟩ :=
    hsecond.trans (by cases clock <;> decide)
  refine ⟨s, t, hs, hlow, hrun, nextLoad32_of_inst (by decide) hram' hinst' ?_, hheld, ht⟩
  rw [hcpu, Vm.fetched, setCpu_cpus_self, hs.core, Vcpu.withResult]
  simp only [hinst]
  rfl

/-- The two halves of the real time, read one after the other. -/
theorem clock_halves_realtime : ∃ s t v, Reachable (machine memSize 1) s ∧
    vmInstructionCase 0 s = .ok ((), t) ∧ vmInstructionCase 0 t = .ok ((), v) ∧
    t.regValue 0 (s.nextInst 0).rd = (s.clockValue .realtime).setWidth 32 ∧
    v.regValue 0 (t.nextInst 0).rd = (s.clockValue .realtime >>> 32).setWidth 32 := by
  obtain ⟨s, t, hs, hlow, hrun, hhigh, -, -⟩ := exists_clockProgram
    ⟨fun k => BitVec.ofNat 64 (k * 2 ^ 32), fun _ => 0, 0⟩ .realtime
  have hreach : Reachable (machine memSize 1) s := .of_init hs.init
  have hcore : eventEnabled s (.instruction 0) := ⟨by rw [hs.smpCores]; decide, .inl rfl⟩
  obtain ⟨t', hrun', hreg, hrest⟩ := clock_halves_iff hreach hcore hlow
  obtain rfl : t' = t := (Prod.mk.inj (Except.ok.inj (hrun'.symm.trans hrun))).2
  obtain ⟨v, hv, hword⟩ := hrest [] t' 0 .nil hhigh
  exact ⟨s, t', v, hreach, hrun, hv, hreg, hword.mpr fun hboot => by cases hboot⟩

/-- The boot clock shows `2 ^ 32` nanoseconds. Its high word reads as the zero that RAM holds. -/
theorem boot_clock_high_word_lost : ¬ ∀ (smpCores : ℤ) (clock : TimerSource) (s t u v : Vm)
    (events : List Event) (c d : ℕ), Reachable (machine memSize smpCores) s →
    eventEnabled s (.instruction c) → s.NextLoad32 c clock.lowReg →
    vmInstructionCase c s = .ok ((), t) →
    Run ((machine memSize smpCores).restrict (OtherLoad clock)) t events u →
    u.NextLoad32 d clock.highReg → vmInstructionCase d u = .ok ((), v) →
    v.regValue d (u.nextInst d).rd = (s.clockValue clock >>> 32).setWidth 32 := by
  intro h
  obtain ⟨s, t, hs, hlow, hrun, hhigh, hheld, ht⟩ := exists_clockProgram
    ⟨fun _ => 0, fun k => BitVec.ofNat 64 (k * 2 ^ 32), 0⟩ .boot
  have hcore : eventEnabled s (.instruction 0) := ⟨by rw [hs.smpCores]; decide, .inl rfl⟩
  obtain ⟨v, hv, hword⟩ := hhigh.high ht
  have hclaim := h 1 .boot s t t v [] 0 0 (.of_init hs.init) hcore hlow hrun .nil hhigh hv
  have hvalue : s.clockValue .boot = 0x100000000 := by
    rw [Vm.clockValue, hs.hostClock, hs.startMonotonicNs]
    decide
  have hram : s.ramWord TimerSource.boot.highReg = 0 := by
    have hbytes : leNat s.memory TimerSource.boot.highReg.toNat 4 = leNat (fun _ => 0) _ 4 :=
      leNat_congr fun x hx hlt => hs.below x (le_trans (by decide) hx) hlt
    rw [Vm.ramWord, hbytes]
    rfl
  rw [hword, hheld.highWord_iff, hram, hvalue] at hclaim
  exact absurd (hclaim rfl) (by decide)

end LampVm
