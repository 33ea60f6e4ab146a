import LampVm.RegisterFields

/-!
# Three decoders of one instruction word

The interpreter fetches an instruction word from RAM, `panic` puts it together from eight bytes
for its dump, and the debugger reads it as any other program would. The first two agree for every
word and at every address of RAM. The third goes through the alignment test and the device list.
-/
namespace LampVm

open ByteOrder Contract Transition

/-! ## The dump of a panic -/

/-- The word that `panic` puts together from eight bytes. -/
def panicWord (m : Bytes) (ip : ℕ) : BitVec 64 :=
  (m (ip + 0)).setWidth 64 ||| (m (ip + 1)).setWidth 64 <<< 8 |||
    (m (ip + 2)).setWidth 64 <<< 16 ||| (m (ip + 3)).setWidth 64 <<< 24 |||
    (m (ip + 4)).setWidth 64 <<< 32 ||| (m (ip + 5)).setWidth 64 <<< 40 |||
    (m (ip + 6)).setWidth 64 <<< 48 ||| (m (ip + 7)).setWidth 64 <<< 56

/-- A line of the dump: where an instruction stands, its fields, and whether the line is marked
as that of the last instruction. -/
structure PanicLine where
  ip : ℕ
  inst : Inst
  marked : Bool

/-- The fields that `panic` takes from a word. -/
def panicInst (inst : BitVec 64) : Inst where
  op := (inst >>> 56 &&& 0xFF).setWidth 8
  rd := (inst >>> 48 &&& 0xFF).setWidth 8
  rs1 := (inst >>> 40 &&& 0xFF).setWidth 8
  rs2 := (inst >>> 32 &&& 0xFF).setWidth 8
  imm := (inst &&& 0xFFFFFFFF).setWidth 32

def panicLine (m : Bytes) (lastIp ip : ℕ) : PanicLine where
  ip := ip
  inst := panicInst (panicWord m ip)
  marked := ip = lastIp

/-- The instructions from six before the last one on, as far as memory goes. The loop of the
source takes a step of eight bytes while the next one fits. -/
def panicWindow (memorySize lastIp : ℕ) (m : Bytes) : List PanicLine :=
  let start := if lastIp ≥ 6 * 8 then lastIp - 6 * 8 else 0
  let stop := if lastIp + 8 ≤ memorySize then lastIp + 8 else memorySize
  (List.range ((stop - start) / 8)).map fun k => panicLine m lastIp (start + 8 * k)

/-- Or-ing the next byte in its place extends the little-endian word. -/
theorem or_next_byte {m : Bytes} {ip k : ℕ} {x : BitVec 64} (hk : k < 8)
    (hx : x.toNat = leNat m ip k) :
    (x ||| (m (ip + k)).setWidth 64 <<< (8 * k)).toNat = leNat m ip (k + 1) := by
  have hpow : (256 : ℕ) ^ k = 2 ^ (8 * k) := (pow_mul 2 8 k).symm
  have hlt : x.toNat < 2 ^ (8 * k) := by
    rw [hx, ← hpow]
    exact leNat_lt m ip k
  rw [toNat_or_shiftLeft x (m (ip + k)) hlt (by omega), leNat_add, hx, hpow]
  rfl

/-- The eight bytes are put together in the order in which the fetch copies them. -/
theorem panicWord_eq (m : Bytes) (ip : ℕ) : panicWord m ip = BitVec.ofNat 64 (leNat m ip 8) := by
  have h1 : ((m (ip + 0)).setWidth 64).toNat = leNat m ip 1 := by
    have := (m ip).isLt
    rw [BitVec.toNat_setWidth, Nat.mod_eq_of_lt (by rw [Nat.add_zero]; omega)]
    rfl
  have h8 : (panicWord m ip).toNat = leNat m ip 8 :=
    or_next_byte (k := 7) (by decide) <| or_next_byte (k := 6) (by decide) <|
      or_next_byte (k := 5) (by decide) <| or_next_byte (k := 4) (by decide) <|
      or_next_byte (k := 3) (by decide) <| or_next_byte (k := 2) (by decide) <|
      or_next_byte (k := 1) (by decide) h1
  rw [← h8, BitVec.ofNat_toNat, BitVec.setWidth_eq]

/-- The fetch and the dump take a word apart alike. -/
theorem panicInst_eq (w : BitVec 64) : panicInst w = Inst.decode w := rfl

/-- Every line of the dump stands for eight bytes of memory and shows the fields of their word. -/
theorem panicWindow_lines {memorySize lastIp : ℕ} {m : Bytes} {line : PanicLine}
    (h : line ∈ panicWindow memorySize lastIp m) :
    line.ip + 8 ≤ memorySize ∧ line.inst = panicInst (BitVec.ofNat 64 (leNat m line.ip 8)) := by
  obtain ⟨k, hk, rfl⟩ := List.mem_map.mp h
  rw [List.mem_range] at hk
  refine ⟨?_, congrArg panicInst (panicWord_eq m _)⟩
  change (if lastIp ≥ 6 * 8 then lastIp - 6 * 8 else 0) + 8 * k + 8 ≤ memorySize
  split_ifs at hk ⊢ <;> omega

/-- The window has a line for the last instruction, unless the steps of eight bytes from the
start of memory miss it. -/
theorem panicWindow_marks_iff (memorySize lastIp : ℕ) (m : Bytes) :
    (∃ line ∈ panicWindow memorySize lastIp m, line.ip = lastIp ∧ line.marked = true) ↔
      lastIp + 8 ≤ memorySize ∧ (48 ≤ lastIp ∨ lastIp % 8 = 0) := by
  constructor
  · rintro ⟨line, hline, hip, -⟩
    obtain ⟨k, hk, rfl⟩ := List.mem_map.mp hline
    rw [List.mem_range] at hk
    change (if lastIp ≥ 6 * 8 then lastIp - 6 * 8 else 0) + 8 * k = lastIp at hip
    split_ifs at hk hip <;> omega
  · rintro ⟨hfits, hstep⟩
    have hin (start k : ℕ) (hstart : start = if lastIp ≥ 6 * 8 then lastIp - 6 * 8 else 0)
        (hk : start + 8 * k = lastIp) :
        ∃ line ∈ panicWindow memorySize lastIp m, line.ip = lastIp ∧ line.marked = true := by
      subst hstart
      refine ⟨_, List.mem_map.mpr ⟨k, ?_, rfl⟩, hk, decide_eq_true hk⟩
      rw [List.mem_range, if_pos hfits]
      omega
    by_cases hfar : 48 ≤ lastIp
    · exact hin (lastIp - 48) 6 (if_pos hfar).symm (by omega)
    · exact hin 0 (lastIp / 8) (if_neg hfar).symm (by omega)

/-! ## The round trip -/

section Fetch

variable {vm : Vm} {c : ℕ}

/-- A word that is stored where the core fetches next. -/
theorem fetch64_leStore (h : inRam vm (vm.cpus c).fetchIp 8) (w : BitVec 64) :
    fetch64 c (vm.withMemory (leStore vm.memory (vm.cpus c).fetchIp.toNat 8 w.toNat)) =
      .ok (w, (vm.withMemory (leStore vm.memory (vm.cpus c).fetchIp.toNat 8 w.toNat)).fetched c) := by
  have hword : (vm.withMemory (leStore vm.memory (vm.cpus c).fetchIp.toNat 8 w.toNat)).wordAt
      (vm.cpus c).fetchIp = w := by
    rw [Vm.wordAt, withMemory_memory, leNat_leStore]
    apply BitVec.eq_of_toNat_eq
    have := w.isLt
    rw [BitVec.toNat_ofNat, show (256 : ℕ) ^ 8 = 2 ^ 64 by norm_num, Nat.mod_mod,
      Nat.mod_eq_of_lt this]
  have hram : inRam (vm.withMemory (leStore vm.memory (vm.cpus c).fetchIp.toNat 8 w.toNat))
      (vm.cpus c).fetchIp 8 := h
  have hfetch := fetch64_of_inRam hram
  exact hfetch.trans (congrArg (fun x => Except.ok (x, _)) hword)

/-- An encoded instruction that stands at any address of RAM is fetched field by field, with the
pointers moved; every word is the encoding of its fields; and the dump of a panic shows the same
fields, in a window that includes the last instruction unless the steps from the start of memory
miss it. -/
theorem instruction_round_trip (i : Inst) (h : inRam vm (vm.cpus c).fetchIp 8) :
    (∃ w t, fetch64 c (vm.withMemory
        (leStore vm.memory (vm.cpus c).fetchIp.toNat 8 i.encode.toNat)) = .ok (w, t) ∧
      Inst.decode w = i ∧ (Inst.decode w).imm.toInt = i.imm.toInt ∧
      (t.cpus c).ip = ((vm.cpus c).fetchIp.toNat + 8) % 2 ^ 32 ∧
      (t.cpus c).lastIp = (vm.cpus c).fetchIp.toNat) ∧
    (∀ w, (Inst.decode w).encode = w ∧ panicInst w = Inst.decode w) ∧
    ∀ (memorySize lastIp : ℕ) (m : Bytes),
      (∀ line ∈ panicWindow memorySize lastIp m, line.ip + 8 ≤ memorySize ∧
        line.inst = Inst.decode (BitVec.ofNat 64 (leNat m line.ip 8))) ∧
      ((∃ line ∈ panicWindow memorySize lastIp m, line.ip = lastIp ∧ line.marked = true) ↔
        lastIp + 8 ≤ memorySize ∧ (48 ≤ lastIp ∨ lastIp % 8 = 0)) := by
  refine ⟨⟨i.encode, _, fetch64_leStore h i.encode, Inst.decode_encode i, ?_, ?_, ?_⟩,
    fun w => ⟨Inst.encode_decode w, panicInst_eq w⟩, fun memorySize lastIp m =>
    ⟨fun line hline => ?_, panicWindow_marks_iff memorySize lastIp m⟩⟩
  · rw [Inst.decode_encode]
  · rw [Vm.fetched, setCpu_cpus_self]
    exact BitVec.toNat_add _ _
  · rw [Vm.fetched, setCpu_cpus_self]
    rfl
  · rw [← panicInst_eq]
    exact panicWindow_lines hline

end Fetch

/-- An `ADD` that is written over the first instruction of a program. -/
theorem instruction_round_trip_add : ∃ vm w t, Reachable (machine memSize 1) vm ∧
    fetch64 0 (vm.withMemory (leStore vm.memory (vm.cpus 0).fetchIp.toNat 8
      (Inst.encode ⟨Opcode.add.code, 1, 2, 3, 0⟩).toNat)) = .ok (w, t) ∧
    Inst.decode w = ⟨Opcode.add.code, 1, 2, 3, 0⟩ := by
  obtain ⟨vm, hvm, -, hram, -⟩ := exists_program 0
  obtain ⟨⟨w, t, hfetch, hdecode, -⟩, -⟩ :=
    instruction_round_trip ⟨Opcode.add.code, 1, 2, 3, 0⟩ hram
  exact ⟨vm, w, t, hvm, hfetch, hdecode⟩

/-! ## The debugger -/

/-- `decode_at`: the bound is tested in 32 bits, and the word is read as a program reads it. -/
def decodeAt (ip : BitVec 32) : VmM Inst := do
  let vm ← get
  if (ip + 8).toNat > vm.memorySize then pure ⟨0, 0, 0, 0, 0⟩
  else
    let inst ← vmRead64 ip
    pure (Inst.decode inst)

/-- The debugger sees what the interpreter would fetch and leaves no trace. -/
def DecodesAt (vm : Vm) (ip : BitVec 32) : Prop :=
  decodeAt ip vm = .ok (Inst.decode (vm.wordAt ip), vm)

/-- A program that neither looks at RAM nor touches it. -/
def Blind {α : Type} (m : VmM α) : Prop :=
  ∀ (vm : Vm) (mem : Bytes),
    m (vm.withMemory mem) = (m vm).map fun r => (r.1, r.2.withMemory mem)

section Blind

variable {α β : Type} {m : VmM α} {f : α → VmM β}

theorem blind_pure (a : α) : Blind (pure a) := fun _ _ => rfl

theorem blind_throw (e : Fault) : Blind (throw e : VmM α) := fun _ _ => rfl

theorem blind_bind (hm : Blind m) (hf : ∀ a, Blind (f a)) : Blind (m >>= f) := by
  intro vm mem
  rw [bind_apply, bind_apply, hm vm mem]
  cases m vm with
  | error e => rfl
  | ok r => exact hf r.1 r.2 mem

/-- What is read of the state may not depend on its memory. -/
theorem blind_get_bind {f : Vm → VmM β} (hf : ∀ vm, Blind (f vm))
    (hmem : ∀ vm mem, f (vm.withMemory mem) = f vm) : Blind (get >>= f) := by
  intro vm mem
  change f (vm.withMemory mem) (vm.withMemory mem) = (f vm vm).map _
  rw [hmem, hf vm vm mem]

theorem blind_ite {n : VmM α} {p : Prop} [Decidable p] (hm : Blind m) (hn : Blind n) :
    Blind (if p then m else n) := by
  split_ifs
  · exact hm
  · exact hn

theorem blind_checkIndex (array : CArray) (size k : ℕ) : Blind (checkIndex array size k) :=
  blind_ite (blind_pure _) (blind_throw _)

theorem blind_memcheckAlign (op : AccessName) (align : ℕ) (a : BitVec 32) :
    Blind (memcheckAlign op align a) :=
  blind_get_bind (fun _ => blind_ite (blind_throw _) (blind_pure _)) fun _ _ => rfl

theorem blind_findMmio (a : BitVec 32) : Blind (findMmio a) := by
  intro vm mem
  have hhit : (vm.withMemory mem).mmioCacheHit a = vm.mmioCacheHit a := rfl
  have hdev : (vm.withMemory mem).mmioDevices = vm.mmioDevices := rfl
  simp only [findMmio, bind_apply, get_apply, hhit, hdev]
  cases vm.mmioCacheHit a with
  | some dev => rfl
  | none =>
    dsimp only
    cases scanMmio vm.mmioDevices a with
    | some dev => rfl
    | none => rfl

theorem blind_getTimer (source : TimerSource) : Blind (getTimer source) := by
  intro vm mem
  cases source with
  | realtime | monotonic | boot => rfl

/-- No device keeps its registers in RAM. -/
theorem blind_read32 (ops : MmioOps) (a : BitVec 32) : Blind (ops.read32 a) := by
  cases ops with
  | fb =>
    exact blind_get_bind (fun vm => blind_bind (blind_checkIndex _ _ _) fun _ => blind_pure _)
      fun _ _ => rfl
  | time =>
    refine blind_get_bind (fun vm => ?_) fun _ _ => rfl
    split
    · exact blind_pure _
    · exact blind_bind (blind_getTimer _) fun _ => blind_pure _
    · exact blind_pure _
    · exact blind_bind (blind_getTimer _) fun _ => blind_pure _
    · exact blind_pure _
    · exact blind_bind (blind_getTimer _) fun _ => blind_pure _
    · exact blind_pure _
    · exact blind_pure _
  | sysinfo =>
    refine blind_get_bind (fun vm => ?_) fun _ _ => rfl
    dsimp only
    refine blind_ite (blind_pure _) (blind_ite (blind_pure _) ?_)
    split <;> exact blind_pure _

theorem blind_vmMmioRead32 (a : BitVec 32) : Blind (vmMmioRead32 a) := by
  refine blind_bind (blind_findMmio a) fun dev => ?_
  cases dev with
  | none => exact blind_throw _
  | some dev => exact blind_read32 dev.ops a

end Blind

section Debugger

variable {vm : Vm} {a ip : BitVec 32}

/-- The bound that the debugger tests never keeps it from an instruction that can be fetched. -/
theorem decodesAt_iff (h : inRam vm ip 8) :
    DecodesAt vm ip ↔ vmRead64 ip vm = .ok (vm.wordAt ip, vm) := by
  have hin : ip.toNat + 8 ≤ vm.memorySize := h
  have hbound : ¬ (ip + 8).toNat > vm.memorySize := by
    have hle : (ip + 8).toNat ≤ ip.toNat + 8 := by
      rw [BitVec.toNat_add]
      exact Nat.mod_le _ _
    omega
  have hrun : decodeAt ip vm = (vmRead64 ip >>= fun inst => pure (Inst.decode inst)) vm := by
    rw [decodeAt, bind_apply, get_apply]
    dsimp only
    rw [if_neg hbound]
  rw [DecodesAt, hrun]
  constructor
  · intro hdecode
    obtain ⟨w, t, hread, hpure⟩ := bind_eq_ok hdecode
    obtain ⟨hw, ht⟩ := Prod.mk.inj (Except.ok.inj hpure)
    have heq : w = vm.wordAt ip := by
      rw [← Inst.encode_decode w, hw, Inst.encode_decode]
    rw [hread, heq, ht]
  · intro hread
    rw [bind_ok hread]
    rfl

/-- The two halves of a word that was read as the fetch would read it. -/
theorem vmRead64_halves {vm' : Vm} (h : vmRead64 a vm = .ok (vm.wordAt a, vm')) :
    ∃ lo hi t, vmRead32 a vm = .ok (lo, t) ∧ vmRead32 (a + 4) t = .ok (hi, vm') ∧
      lo.toNat = leNat vm.memory a.toNat 4 ∧ hi.toNat = leNat vm.memory (a.toNat + 4) 4 := by
  obtain ⟨_, u, halign, hrest⟩ := bind_eq_ok h
  have hu : u = vm := by
    rw [memcheckAlign, bind_apply, get_apply] at halign
    dsimp only at halign
    split_ifs at halign
    · cases halign
    · exact (Prod.mk.inj (Except.ok.inj halign)).2.symm
  subst hu
  obtain ⟨lo, t, hlo, hrest⟩ := bind_eq_ok hrest
  obtain ⟨hi, t', hhi, hpure⟩ := bind_eq_ok hrest
  obtain ⟨hword, rfl⟩ := Prod.mk.inj (Except.ok.inj hpure)
  refine ⟨lo, hi, t, hlo, hhi, ?_⟩
  have hnat := congrArg BitVec.toNat hword
  have hlolt := lo.isLt
  have hl := leNat_lt u.memory a.toNat 4
  have hh := leNat_lt u.memory (a.toNat + 4) 4
  have hsum : leNat u.memory a.toNat 8 = _ := leNat_add u.memory a.toNat 4 4
  rw [toNat_or_shiftLeft _ _ (by rw [BitVec.toNat_setWidth]; omega) (by decide),
    BitVec.toNat_setWidth, Nat.mod_eq_of_lt (by omega), Vm.wordAt, BitVec.toNat_ofNat] at hnat
  omega

/-- A word of a device register does not depend on RAM. -/
theorem vmRead32_covered (hc : CacheCoherent vm) (hcov : ∃ dev ∈ vm.mmioDevices, dev.covers a) :
    vmRead32 a vm =
      (memcheckAlign .read32 4 a >>= fun _ => findMmio a >>= fun _ => vmMmioRead32 a) vm := by
  obtain ⟨dev, hmem, hdev, hfind⟩ := findMmio_of_covers hc hcov
  by_cases hal : AlignOk vm 4 a
  · simp only [vmRead32, bind_apply, memcheckAlign_of_alignOk hal, hfind]
  · simp only [vmRead32, bind_apply, memcheckAlign_of_not_alignOk hal]

theorem vmRead32_covered_withMemory (hc : CacheCoherent vm)
    (hcov : ∃ dev ∈ vm.mmioDevices, dev.covers a) (mem : Bytes) :
    vmRead32 a (vm.withMemory mem) =
      (vmRead32 a vm).map fun r => (r.1, r.2.withMemory mem) := by
  have hblind : Blind (memcheckAlign .read32 4 a >>= fun _ => findMmio a >>= fun _ =>
      vmMmioRead32 a) := blind_bind (blind_memcheckAlign _ _ _) fun _ =>
    blind_bind (blind_findMmio a) fun _ => blind_vmMmioRead32 a
  have hc' : CacheCoherent (vm.withMemory mem) := hc
  rw [vmRead32_covered hc' hcov, vmRead32_covered hc hcov]
  exact hblind vm mem

/-- A word of equal bytes. -/
theorem leNat_const (b : BitVec 8) (x : ℕ) : leNat (fun _ => b) x 4 = b.toNat * 0x01010101 := by
  simp only [leNat]
  omega

/-- No device can answer for RAM. -/
theorem not_covers_of_reads (hc : CacheCoherent vm) (held : Bytes → ℕ)
    (hheld : held (fun _ => 0) ≠ held fun _ => 1)
    (hread : ∀ m, ∃ w t, vmRead32 a (vm.withMemory m) = .ok (w, t) ∧ w.toNat = held m) :
    ∀ dev ∈ vm.mmioDevices, ¬ dev.covers a := by
  intro dev hdev hcov
  obtain ⟨w₀, t₀, h₀, hw₀⟩ := hread fun _ => 0
  obtain ⟨w₁, t₁, h₁, hw₁⟩ := hread fun _ => 1
  rw [vmRead32_covered_withMemory hc ⟨dev, hdev, hcov⟩] at h₀ h₁
  cases hrun : vmRead32 a vm with
  | error e =>
    rw [hrun] at h₀
    cases h₀
  | ok r =>
    rw [hrun] at h₀ h₁
    have e₀ := (Prod.mk.inj (Except.ok.inj h₀)).1
    have e₁ := (Prod.mk.inj (Except.ok.inj h₁)).1
    exact hheld (by rw [← hw₀, ← hw₁, ← e₀, ← e₁])

/-- With the checks of the debug build compiled in, the debugger decodes what the interpreter
would fetch, whatever RAM holds, exactly where the address is a multiple of eight, no device
answers for either half, and the lookup has no device to forget. -/
theorem debugger_decodes_iff (hcheck : vm.memcheck = true) (hc : CacheCoherent vm)
    (hram : inRam vm ip 8) :
    (∀ mem, DecodesAt (vm.withMemory mem) ip) ↔ ip.toNat % 8 = 0 ∧
      (∀ dev ∈ vm.mmioDevices, ¬ dev.covers ip ∧ ¬ dev.covers (ip + 4)) ∧
      vm.mmioCacheDev = none := by
  have hin : ip.toNat + 8 ≤ vm.memorySize := hram
  constructor
  · intro hall
    have hread (mem : Bytes) :
        vmRead64 ip (vm.withMemory mem) = .ok ((vm.withMemory mem).wordAt ip, vm.withMemory mem) := by
      have hin' : inRam (vm.withMemory mem) ip 8 := hram
      exact (decodesAt_iff hin').mp (hall mem)
    have hal : AlignOk vm 8 ip := by
      by_contra hal
      have hbad : memcheckAlign .read64 8 ip vm = _ := memcheckAlign_of_not_alignOk hal
      have hself := hread vm.memory
      rw [withMemory_self, vmRead64, bind_error hbad] at hself
      cases hself
    have hmod := hal hcheck
    have hspace := ip.isLt
    have hlo : ∀ dev ∈ vm.mmioDevices, ¬ dev.covers ip := by
      refine not_covers_of_reads hc (fun m => leNat m ip.toNat 4) ?_ fun m => ?_
      · simp only [leNat_const]
        decide
      · obtain ⟨lo, -, t, hrun, -, hval, -⟩ := vmRead64_halves (hread m)
        exact ⟨lo, t, hrun, hval⟩
    have hhi : ∀ dev ∈ vm.uncached.mmioDevices, ¬ dev.covers (ip + 4) := by
      refine not_covers_of_reads (CacheCoherent.uncached vm)
        (fun m => leNat m (ip.toNat + 4) 4) ?_ fun m => ?_
      · simp only [leNat_const]
        decide
      · obtain ⟨lo, hi, t, hrun, hrun', -, hval⟩ := vmRead64_halves (hread m)
        have hc' : CacheCoherent (vm.withMemory m) := hc
        have hfour : AlignOk (vm.withMemory m) 4 ip := fun hm => by
          have := hal hm
          omega
        have hplain := vmRead32_ram hc' (show ip.toNat + 4 ≤ vm.memorySize by omega) (by omega) hlo
          hfour
        obtain rfl := (Prod.mk.inj (Except.ok.inj (hplain.symm.trans hrun))).2
        exact ⟨hi, _, hrun', hval⟩
    refine ⟨hmod, fun dev hdev => ⟨hlo dev hdev, hhi dev hdev⟩, ?_⟩
    have hplain := vmRead64_ram hc hram (by omega) hlo hhi hal
    have hself := (hread vm.memory).symm.trans hplain
    exact congrArg Vm.mmioCacheDev (Prod.mk.inj (Except.ok.inj hself)).2
  · rintro ⟨hmod, hno, hcache⟩ mem
    have hspace := ip.isLt
    have hc' : CacheCoherent (vm.withMemory mem) := hc
    have hram' : inRam (vm.withMemory mem) ip 8 := hram
    rw [decodesAt_iff hram']
    have hplain := vmRead64_ram hc' hram' (by omega)
      (fun dev hdev => (hno dev hdev).1) (fun dev hdev => (hno dev hdev).2) fun _ => hmod
    have hself : (vm.withMemory mem).uncached = vm.withMemory mem := by
      rw [Vm.uncached, ← hcache]
      rfl
    rw [hplain, hself]
    rfl

end Debugger

/-- Booting keeps the choice of the build. -/
theorem boot_memcheck {clock : HostClock} {memcheck : Bool} {image : DiskImage} {memorySize : ℕ}
    {program : List (BitVec 64)} {data : List (BitVec 8)} {layout : Option ProgramLayout}
    {smpCores : ℤ} {vm : Vm}
    (h : boot clock memcheck image memorySize program data layout smpCores = .ok vm) :
    vm.memcheck = memcheck := by
  obtain ⟨vm₀, hcreate, hivt⟩ := boot_eq_ok h
  have hstable : Stable (fun s : Vm => s.memcheck = memcheck) fun _ => True :=
    Stable.of_view memcheck (fun _ => rfl) fun _ _ _ _ => rfl
  have hkeep : Safe (fun s => s.memcheck = memcheck) (fun _ => True) initIvt :=
    safe_initIvt hstable.vmWrite64 (fun _ _ hs => hs) fun _ hs => hs
  refine hkeep.ok ?_ hivt
  obtain rfl := vmCreate_ok hcreate
  rfl

/-- A machine as it is allocated for the debug build, before anything has been looked up. -/
theorem debugger_decodes_allocated :
    DecodesAt ((Vm.allocated ⟨fun _ => 0, fun _ => 0, 0⟩ true memSize 1
      (BitVec.ofNat 32 programBase)).withMemory fun _ => 0) 0x10000 := by
  refine (debugger_decodes_iff rfl ?_ (by decide)).mpr ⟨by decide, ?_, rfl⟩ _
  · intro dev hdev
    cases hdev
  · decide

/-- The first instruction of a program, whose address is no multiple of eight. -/
theorem debugger_panics_at_program_base : ¬ ∀ (memorySize : ℕ) (smpCores : ℤ) (vm : Vm)
    (ip : BitVec 32), Reachable (machine memorySize smpCores) vm → vm.memcheck = true →
    inRam vm ip 8 → DecodesAt vm ip := by
  intro h
  obtain ⟨vm, hboot⟩ := boot_total (M := memSize) ⟨fun _ => 0, fun _ => 0, 0⟩ true
    ⟨0, fun _ => 0⟩ [] [] none 1 (by decide) (by decide)
  have hvm : Reachable (machine memSize 1) vm := .of_init ⟨_, _, _, _, _, _, hboot⟩
  have hcheck := boot_memcheck hboot
  have hram : inRam vm (BitVec.ofNat 32 programBase) 8 := by
    rw [inRam, (reachable_inv hvm).memorySize]
    decide
  have hread := (decodesAt_iff hram).mp (h _ _ vm _ hvm hcheck hram)
  have hbad : ¬ AlignOk vm 8 (BitVec.ofNat 32 programBase) := fun hal => absurd (hal hcheck) (by decide)
  rw [vmRead64, bind_error (memcheckAlign_of_not_alignOk hbad)] at hread
  cases hread

end LampVm
