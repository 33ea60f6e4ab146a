import LampVm.Safety

/-!
# Interrupt handlers and the interrupted context

Interrupt entry pushes 34 words on the ISR stack of its core, through writes that
go straight to RAM; return pops them through reads that consult the device list.
A downward stack is described by the list of words it holds from its pointer
upwards, top first, so a push is a cons and a pop takes the head. As long as the
bytes of the stack are left alone, what return restores is what entry saved.
-/
namespace LampVm

open ByteOrder Contract Transition

/-! ## A stack in memory -/

/-- The cells `k, k + 1, ...` of the stack at `base` hold the words `ws`. -/
def StackHolds (m : Bytes) (base k : ℕ) (ws : List (BitVec 64)) : Prop :=
  ∀ i w, ws[i]? = some w → leNat m (base + 8 * (k + i)) 8 = w.toNat

theorem stackHolds_iff {m : Bytes} {base k : ℕ} {ws : List (BitVec 64)} :
    StackHolds m base k ws ↔ CellsHold m base 8 k (ws.map BitVec.toNat) := by
  constructor
  · intro h i x hx
    rw [List.getElem?_map] at hx
    obtain ⟨w, hw, rfl⟩ := Option.map_eq_some_iff.mp hx
    exact h i w hw
  · intro h i w hw
    exact h i w.toNat (by rw [List.getElem?_map, hw]; rfl)

theorem StackHolds.push {m : Bytes} {base k : ℕ} {ws : List (BitVec 64)}
    (h : StackHolds m base (k + 1) ws) (v : BitVec 64) :
    StackHolds (leStore m (base + 8 * k) 8 v.toNat) base k (v :: ws) :=
  stackHolds_iff.mpr ((stackHolds_iff.mp h).push v.isLt)

theorem StackHolds.head {m : Bytes} {base k : ℕ} {v : BitVec 64} {ws : List (BitVec 64)}
    (h : StackHolds m base k (v :: ws)) : BitVec.ofNat 64 (leNat m (base + 8 * k) 8) = v := by
  rw [(stackHolds_iff.mp h).head]
  simp

theorem StackHolds.tail {m : Bytes} {base k : ℕ} {v : BitVec 64} {ws : List (BitVec 64)}
    (h : StackHolds m base k (v :: ws)) : StackHolds m base (k + 1) ws :=
  stackHolds_iff.mpr (stackHolds_iff.mp h).tail

/-- Memories that agree on the stack hold the same words. -/
theorem StackHolds.congr {m m' : Bytes} {base k : ℕ} {ws : List (BitVec 64)}
    (h : StackHolds m base k ws)
    (hm : ∀ x, base ≤ x → x < base + 8 * (k + ws.length) → m' x = m x) :
    StackHolds m' base k ws := by
  rw [stackHolds_iff] at h ⊢
  refine h.congr ?_
  rw [List.length_map]
  exact hm

/-- The address of a cell, as a number. -/
theorem StackRegs.cellAddr_toNat (S : StackRegs) (cpu : Vcpu) {cell n : ℕ}
    (h : (S.base cpu).toNat + cell * n < 2 ^ 32) :
    (S.cellAddr cpu cell n).toNat = (S.base cpu).toNat + cell * n := by
  have hofInt : BitVec.ofInt 32 ((n : ℤ) * (cell : ℤ)) = BitVec.ofNat 32 (cell * n) := by
    rw [show (n : ℤ) * (cell : ℤ) = ((cell * n : ℕ) : ℤ) by push_cast; ring, BitVec.ofInt_natCast]
  rw [StackRegs.cellAddr, hofInt, BitVec.toNat_add, BitVec.toNat_ofNat]
  omega

/-! ## The ISR stack of a core -/

/-- The ISR stack at `base` lies in plain RAM, aligned to its cells. -/
structure IsrRegion (vm : Vm) (base : BitVec 32) : Prop where
  ram : PlainRam vm base isrStackBytes
  aligned : base.toNat % 8 = 0
  cache : CacheCoherent vm

variable {vm t : Vm} {base : BitVec 32} {c : ℕ} {k : ℕ} {ws : List (BitVec 64)}

/-- Nothing that decides how the region is accessed has changed. -/
theorem IsrRegion.of_eq (h : IsrRegion vm base) (hsize : t.memorySize = vm.memorySize)
    (hdev : t.mmioDevices = vm.mmioDevices) (hcache : CacheCoherent t) : IsrRegion t base := by
  refine ⟨⟨?_, h.ram.inSpace, ?_⟩, h.aligned, hcache⟩
  · have := h.ram.inRam
    simp only [inRam, hsize] at this ⊢
    exact this
  · rw [hdev]
    exact h.ram.noDevice

theorem cellAddr_toNat (h : IsrRegion vm base) {cpu : Vcpu} (hb : cpu.isrStackBase = base)
    (hk : k < isrStackSize) : (isrStack.cellAddr cpu 8 k).toNat = base.toNat + 8 * k := by
  have hs := h.ram.inSpace
  have hbytes : isrStackBytes = 2048 ∧ isrStackSize = 256 := ⟨rfl, rfl⟩
  subst hb
  have hspace : (isrStack.base cpu).toNat + 8 * k < 2 ^ 32 := by
    change cpu.isrStackBase.toNat + 8 * k < 2 ^ 32
    omega
  exact isrStack.cellAddr_toNat cpu hspace

theorem IsrRegion.cell (h : IsrRegion vm base) {cpu : Vcpu} (hb : cpu.isrStackBase = base)
    (hk : k < isrStackSize) : PlainRam vm (isrStack.cellAddr cpu 8 k) 8 ∧
      AlignOk vm 8 (isrStack.cellAddr cpu 8 k) := by
  have hto := cellAddr_toNat h hb hk
  have hbytes : isrStackBytes = 2048 ∧ isrStackSize = 256 := ⟨rfl, rfl⟩
  have hal := h.aligned
  exact ⟨h.ram.sub (by omega) (by omega), fun _ => by omega⟩

/-- The memory is `m` off the ISR stack at `base`. -/
def KeptOff (base : BitVec 32) (m : Bytes) (t : Vm) : Prop :=
  ∀ x, x < base.toNat ∨ base.toNat + isrStackBytes ≤ x → t.memory x = m x

/-- Core `c` is `cpu` except for its ISR stack pointer, which is at cell `k`, and
the stack holds `ws` from there. Off the stack the memory is `m`. -/
structure OnIsrStack (base : BitVec 32) (c : ℕ) (m : Bytes) (cpu : Vcpu) (k : ℕ)
    (ws : List (BitVec 64)) (t : Vm) : Prop where
  core : t.cpus c = { cpu with isp := k }
  isrBase : cpu.isrStackBase = base
  region : IsrRegion t base
  holds : StackHolds t.memory base.toNat k ws
  kept : KeptOff base m t

theorem meets_isrPush_holds {m : Bytes} {cpu : Vcpu} (hk : k < isrStackSize) (v : BitVec 64) :
    Meets (OnIsrStack base c m cpu (k + 1) ws) (isrPush c v)
      (fun _ => OnIsrStack base c m cpu k (v :: ws)) (fun _ => False) := by
  intro t ht
  have hpos : ¬ isrStack.get (t.cpus c) = 0 := by
    rw [ht.core]
    simp only [isrStack]
    omega
  have hdec : isrStack.set (t.cpus c) (isrStack.get (t.cpus c) - 1) = { cpu with isp := k } := by
    rw [ht.core]
    simp [isrStack]
  have hregion := ht.region.of_eq (t := t.setCpu c { cpu with isp := k }) rfl rfl ht.region.cache
  have hb : ({ cpu with isp := k } : Vcpu).isrStackBase = base := ht.isrBase
  obtain ⟨hplain, hal⟩ := hregion.cell hb hk
  have hto := cellAddr_toNat hregion hb hk
  simp only [isrPush, stackPush, bind_apply, getCpu_apply, if_neg hpos, modifyCpu_apply, hdec,
    setCpu_cpus_self]
  change Result _ _ (vmWrite64 (isrStack.cellAddr { cpu with isp := k } 8 k) v _)
  rw [vmWrite64_plain hplain.inRam hplain.inSpace hal, hto]
  refine ⟨by simp [Vm.withMemory, Vm.setCpu], ht.isrBase,
    hregion.of_eq rfl rfl ht.region.cache, ht.holds.push v, fun x hx => ?_⟩
  have hbytes : isrStackBytes = 8 * 256 ∧ isrStackSize = 256 := ⟨rfl, rfl⟩
  rw [withMemory_memory, leStore_of_not_mem (by omega)]
  exact ht.kept x hx

theorem isrPop_holds {m : Bytes} {cpu : Vcpu} {v : BitVec 64} (hk : k < isrStackSize)
    (ht : OnIsrStack base c m cpu k (v :: ws) t) :
    ∃ t', isrPop c t = .ok (v, t') ∧ OnIsrStack base c m cpu (k + 1) ws t' := by
  have hpos : ¬ isrStack.get (t.cpus c) ≥ isrStack.size := by
    rw [ht.core]
    simp only [isrStack]
    omega
  have hget : isrStack.get (t.cpus c) = k := by
    rw [ht.core]
    rfl
  have hb : (t.cpus c).isrStackBase = base := by
    rw [ht.core]
    exact ht.isrBase
  obtain ⟨hplain, hal⟩ := ht.region.cell hb hk
  have hto := cellAddr_toNat ht.region hb hk
  have hread := vmRead64_plain ht.region.cache hplain hal
  rw [hto, ht.holds.head] at hread
  simp only [isrPop, stackPop, bind_apply, getCpu_apply, if_neg hpos]
  rw [hget, hread]
  simp only [modifyCpu_apply, pure_apply, uncached_cpus, hget]
  refine ⟨_, rfl, ?_, ht.isrBase, ht.region.of_eq rfl rfl (CacheCoherent.uncached t),
    ht.holds.tail, ht.kept⟩
  rw [setCpu_cpus_self, ht.core]
  simp [isrStack]

/-- Reading a core whose value the assertion determines. -/
theorem meets_getCpu {α : Type} {pre : Vm → Prop} {cpu : Vcpu} {f : Vcpu → VmM α}
    {post : α → Vm → Prop} {err : Fault → Prop} (h : ∀ t, pre t → t.cpus c = cpu)
    (hf : Meets pre (f cpu) post err) : Meets pre (getCpu c >>= f) post err := by
  intro t ht
  rw [bind_ok (getCpu_apply c t), h t ht]
  exact hf t ht

/-! ## Entry -/

/-- The words that interrupt entry leaves on the stack, top first. -/
def savedContext (cpu : Vcpu) : List (BitVec 64) :=
  (List.finRange regCount).reverse.map (fun i => (cpu.regs i).setWidth 64) ++
    [cpu.flags.setWidth 64, BitVec.ofNat 64 cpu.ip]

theorem savedContext_length (cpu : Vcpu) : (savedContext cpu).length = 34 := by
  simp [savedContext, regCount]

/-- The entry of vector `n` in the vector table. -/
def Vm.ivtWord (vm : Vm) (n : BitVec 32) : BitVec 64 :=
  BitVec.ofNat 64 (leNat vm.memory (ivtEntry n).toNat 8)

/-- The core inside the handler of vector `n`. -/
def Vcpu.inHandler (cpu : Vcpu) (n : BitVec 32) (isrIp : BitVec 64) : Vcpu :=
  { cpu with regs := Function.update cpu.regs isrArgReg n, ip := (isrIp.setWidth 32).toNat,
             inInterrupt := 1, isp := isrStackSize - contextWords }

/-- The registers are pushed in increasing order, above the flags and the
instruction pointer. -/
theorem meets_pushRegs (base : BitVec 32) (c : ℕ) (m : Bytes) (cpu : Vcpu) :
    Meets (OnIsrStack base c m cpu 254 [cpu.flags.setWidth 64, BitVec.ofNat 64 cpu.ip])
      ((List.finRange regCount).forM fun i => do isrPushU32 c ((← getCpu c).regs i))
      (fun _ => OnIsrStack base c m cpu 222 (savedContext cpu)) fun _ => False := by
  have hstep := Meets.forM (l := List.finRange regCount) (E := fun _ => False)
    (f := fun i => do isrPushU32 c ((← getCpu c).regs i))
    (J := fun j => OnIsrStack base c m cpu (254 - j)
      (((List.finRange regCount).take j).reverse.map (fun i => (cpu.regs i).setWidth 64) ++
        [cpu.flags.setWidth 64, BitVec.ofNat 64 cpu.ip])) ?_
  · rw [List.take_length, List.length_finRange] at hstep
    exact hstep
  · intro j i hi
    have hj : j < regCount := by simpa using (List.getElem?_eq_some_iff.mp hi).1
    have hcell : 254 - j = (254 - (j + 1)) + 1 := by
      simp only [regCount] at hj
      omega
    rw [List.take_add_one, hi, hcell]
    simp only [Option.toList_some, List.reverse_append, List.reverse_singleton, List.map_cons,
      List.cons_append]
    exact meets_getCpu (fun _ ht => ht.core)
      (meets_isrPush_holds (by simp only [isrStackSize]; omega) _)

theorem meets_enterHandler_saves (base : BitVec 32) (c : ℕ) (m : Bytes) (cpu : Vcpu)
    (n : BitVec 32) (isrIp : BitVec 64) :
    Meets (OnIsrStack base c m cpu isrStackSize []) (enterHandler c n isrIp)
      (fun _ t => t.cpus c = cpu.inHandler n isrIp ∧
        StackHolds t.memory base.toNat 222 (savedContext cpu) ∧ KeptOff base m t)
      fun _ => False := by
  refine meets_getCpu (fun _ ht => ht.core) (Meets.bind
    (meets_isrPush_holds (k := 255) (by decide) _) fun _ => ?_)
  refine meets_getCpu (fun _ ht => ht.core) (Meets.bind
    (meets_isrPush_holds (k := 254) (by decide) _) fun _ => ?_)
  refine Meets.bind (meets_pushRegs base c m cpu) fun _ => ?_
  intro t ht
  simp only [bind_apply, modifyCpu_apply, setCpu_cpus_self, setCpu_setCpu, ht.core]
  exact ⟨by rw [setCpu_cpus_self]; rfl, ht.holds, ht.kept⟩

/-- What interrupt entry does: the context is on the stack, register 31 has the
vector and the core is at the handler. The rest of the memory is as it was. -/
theorem vmEnterInterrupt_saves {n : BitVec 32} (hn : n.toNat < ivtSize)
    (hregion : IsrRegion vm (vm.cpus c).isrStackBase) (hisp : (vm.cpus c).isp = isrStackSize)
    (hflag : (vm.cpus c).inInterrupt = 0) (hivt : PlainRam vm (ivtEntry n) 8)
    (hword : vm.ivtWord n ≠ BitVec.allOnes 64) :
    ∃ t, vmEnterInterrupt c n vm = .ok ((), t) ∧
      t.cpus c = (vm.cpus c).inHandler n (vm.ivtWord n) ∧
      StackHolds t.memory (vm.cpus c).isrStackBase.toNat 222 (savedContext (vm.cpus c)) ∧
      KeptOff (vm.cpus c).isrStackBase vm.memory t := by
  have hread : vmRead64 (ivtEntry n) vm = .ok (vm.ivtWord n, vm.uncached) :=
    vmRead64_plain hregion.cache hivt fun _ => by
      rw [ivtEntry_toNat hn]
      omega
  have hstart : OnIsrStack (vm.cpus c).isrStackBase c vm.memory (vm.cpus c) isrStackSize []
      vm.uncached := by
    refine ⟨?_, rfl, hregion.of_eq rfl rfl (CacheCoherent.uncached vm), nofun, fun _ _ => rfl⟩
    rw [uncached_cpus, ← hisp]
  obtain ⟨_, t, hrun, ht⟩ :=
    (meets_enterHandler_saves _ c _ (vm.cpus c) n (vm.ivtWord n)).returns hstart
  refine ⟨t, ?_, ht⟩
  simp only [vmEnterInterrupt]
  rw [bind_ok (getCpu_apply c vm), if_neg (by omega), if_neg (not_not.mpr hflag), bind_ok hread,
    if_neg hword]
  exact hrun

/-! ## Return -/

/-- While the registers are being restored: `j` of them are, the last ones first. -/
structure Restoring (base : BitVec 32) (c : ℕ) (saved : Vcpu) (j : ℕ) (t : Vm) : Prop where
  isp : (t.cpus c).isp = (222 + j : ℕ)
  isrBase : (t.cpus c).isrStackBase = base
  region : IsrRegion t base
  holds : StackHolds t.memory base.toNat (222 + j)
    (((List.finRange regCount).reverse.drop j).map (fun i => (saved.regs i).setWidth 64) ++
      [saved.flags.setWidth 64, BitVec.ofNat 64 saved.ip])
  regs : ∀ i ∈ (List.finRange regCount).reverse.take j, (t.cpus c).regs i = saved.regs i

theorem OnIsrStack.of_isp (hisp : (t.cpus c).isp = k) (hb : (t.cpus c).isrStackBase = base)
    (hregion : IsrRegion t base) (hholds : StackHolds t.memory base.toNat k ws) :
    OnIsrStack base c t.memory (t.cpus c) k ws t :=
  ⟨by rw [← hisp], hb, hregion, hholds, fun _ _ => rfl⟩

theorem meets_popReg (base : BitVec 32) (c : ℕ) (saved : Vcpu) {j : ℕ} {i : Fin regCount}
    (hi : (List.finRange regCount).reverse[j]? = some i) :
    Meets (Restoring base c saved j)
      (do
        let v ← isrPopU32 c
        modifyCpu c fun cpu => { cpu with regs := Function.update cpu.regs i v })
      (fun _ => Restoring base c saved (j + 1)) fun _ => False := by
  have hj : j < regCount := by simpa using (List.getElem?_eq_some_iff.mp hi).1
  intro t ht
  have hdrop : (List.finRange regCount).reverse.drop j =
      i :: (List.finRange regCount).reverse.drop (j + 1) := by
    obtain ⟨hlt, rfl⟩ := List.getElem?_eq_some_iff.mp hi
    exact List.drop_eq_getElem_cons hlt
  have hholds := ht.holds
  rw [hdrop, List.map_cons, List.cons_append] at hholds
  obtain ⟨t', hpop, ht'⟩ := isrPop_holds (by simp only [isrStackSize, regCount] at hj ⊢; omega)
    (OnIsrStack.of_isp ht.isp ht.isrBase ht.region hholds)
  simp only [isrPopU32, bind_apply, hpop, pure_apply, modifyCpu_apply, result_ok]
  refine ⟨?_, ?_, ht'.region.of_eq rfl rfl ht'.region.cache, ht'.holds, ?_⟩
  · rw [setCpu_cpus_self, ht'.core]
    rfl
  · rw [setCpu_cpus_self, ht'.core]
    exact ht.isrBase
  · intro d hd
    rw [setCpu_cpus_self]
    by_cases hdi : d = i
    · subst hdi
      simp
    · rw [List.take_add_one, hi] at hd
      have hmem : d ∈ (List.finRange regCount).reverse.take j := by
        simpa [hdi] using hd
      simp only [Function.update_of_ne hdi, ht'.core]
      exact ht.regs d hmem

/-- The core as it was interrupted. -/
structure Restored (saved cpu : Vcpu) : Prop where
  regs : cpu.regs = saved.regs
  flags : cpu.flags = saved.flags
  ip : cpu.ip = saved.ip
  isp : cpu.isp = isrStackSize
  inInterrupt : cpu.inInterrupt = 0

/-- The flags and the instruction pointer come back through 64-bit words. -/
theorem popTail_restores {saved : Vcpu} (hip : saved.ip < 2 ^ 32)
    (ht : Restoring base c saved regCount t) :
    ∃ t', (do
        let flags ← isrPop c
        modifyCpu c fun cpu => { cpu with flags := flags.setWidth 32 }
        let ip ← isrPop c
        modifyCpu c fun cpu => { cpu with ip := (ip.setWidth 32).toNat }
        modifyCpu c fun cpu => { cpu with inInterrupt := 0 } : VmM Unit) t = .ok ((), t') ∧
      Restored saved (t'.cpus c) := by
  have hregs : (t.cpus c).regs = saved.regs := by
    funext i
    apply ht.regs i
    rw [List.take_of_length_le (by simp)]
    simp
  have hholds := ht.holds
  rw [List.drop_of_length_le (by simp)] at hholds
  obtain ⟨t₁, hpop₁, ht₁⟩ := isrPop_holds (k := 254) (by decide)
    (OnIsrStack.of_isp ht.isp ht.isrBase ht.region hholds)
  let cpu₁ : Vcpu := { t₁.cpus c with flags := (saved.flags.setWidth 64).setWidth 32 }
  have hcpu₁ : cpu₁ = { t.cpus c with isp := (255 : ℕ), flags := saved.flags } := by
    simp only [cpu₁, ht₁.core]
    simp
  obtain ⟨t₂, hpop₂, ht₂⟩ := isrPop_holds (k := 255) (t := t₁.setCpu c cpu₁) (c := c) (by decide)
    (OnIsrStack.of_isp (by rw [setCpu_cpus_self, hcpu₁])
      (by rw [setCpu_cpus_self, hcpu₁]; exact ht.isrBase)
      (ht₁.region.of_eq rfl rfl ht₁.region.cache) ht₁.holds)
  have hback : ((BitVec.ofNat 64 saved.ip).setWidth 32).toNat = saved.ip := by
    rw [BitVec.toNat_setWidth, BitVec.toNat_ofNat]
    omega
  refine ⟨t₂.setCpu c { t₂.cpus c with ip := saved.ip, inInterrupt := 0 }, ?_, ?_⟩
  · rw [bind_ok hpop₁, bind_ok (modifyCpu_apply c _ t₁), bind_ok hpop₂,
      bind_ok (modifyCpu_apply c _ t₂), modifyCpu_apply, hback, setCpu_setCpu, setCpu_cpus_self]
  · rw [setCpu_cpus_self, ht₂.core, setCpu_cpus_self, hcpu₁]
    exact ⟨hregs, rfl, rfl, rfl, rfl⟩

/-- What interrupt return does: the registers, the flags, the instruction pointer and
the stack pointer are the saved ones. -/
theorem vmIret_restores {saved : Vcpu} (hip : saved.ip < 2 ^ 32)
    (hflag : (t.cpus c).inInterrupt ≠ 0) (hisp : (t.cpus c).isp = isrStackSize - contextWords)
    (hregion : IsrRegion t (t.cpus c).isrStackBase)
    (hholds : StackHolds t.memory (t.cpus c).isrStackBase.toNat 222 (savedContext saved)) :
    ∃ t', vmIret c t = .ok ((), t') ∧ Restored saved (t'.cpus c) := by
  have hloop := Meets.forM (l := (List.finRange regCount).reverse) (E := fun _ => False)
    (J := Restoring (t.cpus c).isrStackBase c saved)
    fun j i hi => meets_popReg _ c saved hi
  rw [List.length_reverse, List.length_finRange] at hloop
  obtain ⟨_, t₁, hrun₁, ht₁⟩ := hloop.returns (s := t)
    ⟨by rw [hisp]; decide, rfl, hregion, hholds, by simp⟩
  obtain ⟨t₂, hrun₂, hrestored⟩ := popTail_restores hip ht₁
  refine ⟨t₂, ?_, hrestored⟩
  rw [vmIret, bind_ok (getCpu_apply c t), if_neg hflag, leaveHandler, bind_ok hrun₁]
  exact hrun₂

/-! ## Where the stacks lie -/

/-- In a machine of the default size with at most 64 cores every ISR stack lies
outside the device windows: at a fixed place below them for a single core, at the
end of memory otherwise. -/
theorem isrStackBase_outside {N : ℕ} (hN : N ≤ 64) (hc : c < N) :
    (initCpu memSize N 0 c).isrStackBase.toNat + isrStackBytes ≤ memSize ∧
      OutsideWindows (initCpu memSize N 0 c).isrStackBase.toNat isrStackBytes ∧
      (initCpu memSize N 0 c).isrStackBase.toNat % 8 = 0 := by
  by_cases h1 : N = 1
  · subst h1
    obtain rfl : c = 0 := by omega
    decide
  · have hto : (initCpu memSize N 0 c).isrStackBase.toNat = 67108864 - 5120 * N + 5120 * c + 3072 := by
      simp only [initCpu, coreStackBase, stackPoolBase, if_neg h1, BitVec.toNat_add,
        BitVec.toNat_ofNat, memSize, perCoreStackBytes, callStackBytes, dataStackBytes,
        isrStackBytes, callStackSize, dataStackSize, isrStackSize]
      omega
    rw [hto]
    simp only [OutsideWindows, isrStackBytes, isrStackSize, memSize, timeBase, timeSize,
      fbLegacyBase, sysinfoBase, sysinfoSize]
    omega

theorem isrRegion_of_inv {N : ℕ} {P : Phases} (hN : N ≤ 64) (hc : c < N)
    (hv : MachineInv memSize N (CoreInv memSize N P) vm) :
    IsrRegion vm (vm.cpus c).isrStackBase := by
  obtain ⟨hram, hout, hal⟩ := isrStackBase_outside hN hc
  rw [(hv.core c hc).isrBase]
  exact ⟨plainRam_of_outsideWindows hv.memorySize hv.devices hram hout, hal, hv.cache⟩

theorem ivtEntry_plain {N : ℕ} {K : ℕ → Vcpu → Prop} (hv : MachineInv memSize N K vm)
    {n : BitVec 32} (hn : n.toNat < ivtSize) : PlainRam vm (ivtEntry n) 8 := by
  have hto := ivtEntry_toNat hn
  have hivt : ivtSize = 256 := rfl
  have hsize : memSize = 67108864 := rfl
  have htime : timeBase = 0x2000 := rfl
  exact plainRam_of_outsideWindows hv.memorySize hv.devices (by omega) (.inl (by omega))

/-! ## Handler runs -/

/-- A step that may happen while core `c` is in a handler: the core does not execute
`IRET`, and nobody changes a byte of its ISR stack. -/
def HandlerStep (c : ℕ) (s : Vm) (e : Event) : Prop :=
  (e = .instruction c → (s.nextInst c).op ≠ Opcode.iret.code) ∧
    ∀ t, runEvent e s = .ok ((), t) → ∀ x, (s.cpus c).isrStackBase.toNat ≤ x →
      x < (s.cpus c).isrStackBase.toNat + isrStackBytes → t.memory x = s.memory x

/-- The phases of a machine whose core `c` is in a handler. -/
abbrev heldBy (c : ℕ) : Phases := settled.at c 1 (isrStackSize - contextWords)

theorem heldBy_mayEnter (c d : ℕ) : MayEnter (heldBy c) d := by
  intro i s h
  by_cases hd : d = c
  · subst hd
    exact .inl (by rw [(phases_at_iff.mp h).1]; decide)
  · simp only [heldBy, phases_at_of_ne hd] at h ⊢
    exact settled_mayEnter d i s h

theorem heldBy_mayReturn {d : ℕ} (hd : d ≠ c) : MayReturn (heldBy c) d := by
  intro i s h
  simp only [heldBy, phases_at_of_ne hd] at h ⊢
  exact settled_mayReturn d i s h

/-- The step lemma of a handler run. -/
theorem handlerStep_keeps {N : ℕ} {s t u : Vm} {e : Event}
    (hc : c < N) (hs : MachineInv memSize N (CoreInv memSize N (heldBy c)) s)
    (hmem : ∀ x, (initCpu memSize N 0 c).isrStackBase.toNat ≤ x →
      x < (initCpu memSize N 0 c).isrStackBase.toNat + isrStackBytes → s.memory x = u.memory x)
    (hstep : HandlerStep c s e) (hen : eventEnabled s e) (hrun : runEvent e s = .ok ((), t)) :
    MachineInv memSize N (CoreInv memSize N (heldBy c)) t ∧
      ∀ x, (initCpu memSize N 0 c).isrStackBase.toNat ≤ x →
        x < (initCpu memSize N 0 c).isrStackBase.toNat + isrStackBytes →
        t.memory x = u.memory x := by
  have hres := runEvent_inv e (fun d _ => heldBy_mayEnter c d) s (fun d _ he hiret => by
    by_cases hd : d = c
    · subst hd
      exact absurd hiret (hstep.1 he)
    · exact heldBy_mayReturn hd) hen hs
  rw [hrun] at hres
  refine ⟨hres, fun x h1 h2 => ?_⟩
  have hsame := hstep.2 t hrun x
  rw [(hs.core c hc).isrBase] at hsame
  exact (hsame h1 h2).trans (hmem x h1 h2)

/-- The states in which `vm_enter_interrupt` is called on core `c`: between two steps,
from `vm_handle_interrupts` once it has cleared the pending bit, or from `INT` once
it has been fetched. -/
inductive AtEntry (c : ℕ) (s : Vm) : Vm → Prop
  | direct : AtEntry c s s
  | delivery (bitmap : ℕ → BitVec 64) : AtEntry c s { s with interruptBitmap := bitmap }
  | instruction (h : inRam s (s.cpus c).fetchIp 8) : AtEntry c s (s.fetched c)

theorem AtEntry.inv {M N : ℕ} {P : Phases} {s u : Vm} (h : AtEntry c s u)
    (hs : MachineInv M N (CoreInv M N P) s) : MachineInv M N (CoreInv M N P) u := by
  cases h with
  | direct => exact hs
  | delivery bitmap => exact hs.congr rfl
  | instruction hram => exact (kept_fetch64 c).ok hs (fetch64_of_inRam hram)

/-- Interrupt entry, a handler run and `IRET` give the interrupted context back: for
every core, every reachable state outside a handler and every installed vector. -/
theorem iret_restores_context {smpCores : ℤ} (hcores : coreCount smpCores ≤ 64) {s u : Vm}
    (hs : Reachable (machine memSize smpCores) s) {c : ℕ} (hc : c < s.smpCores)
    (hu : AtEntry c s u) (hflag : (u.cpus c).inInterrupt = 0) {n : BitVec 32}
    (hn : n.toNat < ivtSize) (hivt : u.ivtWord n ≠ BitVec.allOnes 64) :
    ∃ v, vmEnterInterrupt c n u = .ok ((), v) ∧ (v.cpus c).regs 31 = n ∧
      (v.cpus c).inInterrupt = 1 ∧
      ∀ events w, Run ((machine memSize smpCores).restrict (HandlerStep c)) v events w →
        inRam w (w.cpus c).fetchIp 8 → (w.nextInst c).op = Opcode.iret.code →
        ∃ t, vmInstructionCase c w = .ok ((), t) ∧ (t.cpus c).ip = (u.cpus c).ip ∧
          (t.cpus c).flags = (u.cpus c).flags ∧ (t.cpus c).regs = (u.cpus c).regs ∧
          (t.cpus c).isp = (u.cpus c).isp ∧ (t.cpus c).inInterrupt = 0 := by
  have hinv := hu.inv (reachable_inv hs)
  have hcN : c < coreCount smpCores := (reachable_inv hs).smpCores ▸ hc
  have hcore := hinv.core c hcN
  have hisp : (u.cpus c).isp = isrStackSize := by
    rcases hcore.phase with ⟨-, h⟩ | ⟨h, -⟩
    · exact h
    · omega
  obtain ⟨v, hrun, hvcpu, hholds, -⟩ := vmEnterInterrupt_saves hn
    (isrRegion_of_inv hcores hcN hinv) hisp hflag (ivtEntry_plain hinv hn) hivt
  have hvinv : MachineInv memSize (coreCount smpCores)
      (CoreInv memSize (coreCount smpCores) (heldBy c)) v := by
    have h := (kept_vmEnterInterrupt hcN (settled_mayEnter c) n).ok hinv hrun
    refine h.rephase (fun d hd => phases_at_of_ne hd) fun _ => phases_at_iff.mpr ?_
    rw [hvcpu]
    exact ⟨rfl, rfl⟩
  refine ⟨v, hrun, by rw [hvcpu]; simp [Vcpu.inHandler], by rw [hvcpu]; rfl, ?_⟩
  intro events w hw hram hiret
  obtain ⟨hwinv, hwmem⟩ := Run.keeps (M := (machine memSize smpCores).restrict (HandlerStep c))
    (P := fun t => MachineInv memSize (coreCount smpCores)
      (CoreInv memSize (coreCount smpCores) (heldBy c)) t ∧
      ∀ x, (initCpu memSize (coreCount smpCores) 0 c).isrStackBase.toNat ≤ x →
        x < (initCpu memSize (coreCount smpCores) 0 c).isrStackBase.toNat + isrStackBytes →
        t.memory x = v.memory x)
    (fun a e b ha hstep => handlerStep_keeps hcN ha.1 ha.2 hstep.1 hstep.2.1 hstep.2.2)
    ⟨hvinv, fun _ _ _ => rfl⟩ hw
  have hwinv' := (kept_fetch64 c).ok hwinv (fetch64_of_inRam hram)
  obtain ⟨hwflag, hwisp⟩ := phases_at_iff.mp (hwinv'.core c hcN).phase
  have hwbase := (hwinv'.core c hcN).isrBase
  have hsaved : StackHolds (w.fetched c).memory ((w.fetched c).cpus c).isrStackBase.toNat 222
      (savedContext (u.cpus c)) := by
    rw [hwbase]
    rw [hcore.isrBase] at hholds
    have hbytes : isrStackBytes = 8 * (222 + 34) := rfl
    exact hholds.congr fun x h1 h2 => hwmem x h1 (by rw [savedContext_length] at h2; omega)
  obtain ⟨t, ht, hback⟩ := vmIret_restores hcore.ip (by rw [hwflag]; decide) hwisp
    (isrRegion_of_inv hcores hcN hwinv') hsaved
  refine ⟨t, ?_, hback.ip, hback.flags, hback.regs, hback.isp.trans hisp.symm, hback.inInterrupt⟩
  rw [vmInstructionCase_of_inRam hram hiret]
  exact ht

/-! ## A program with a handler -/

/-- The machine with another entry in its vector table. -/
def Vm.registered (vm : Vm) (n isrIp : BitVec 32) : Vm :=
  vm.withMemory (leStore vm.memory (ivtEntry n).toNat 8 isrIp.toNat)

section Registered

variable {N : ℕ} {K : ℕ → Vcpu → Prop} {program : List (BitVec 64)} {n : BitVec 32}

theorem registerIsr_run (hv : MachineInv memSize N K vm) (hn : n.toNat < ivtSize)
    (isrIp : BitVec 32) :
    registerIsr n (isrIp.setWidth 64) vm = .ok ((), vm.registered n isrIp) := by
  have hplain := ivtEntry_plain hv hn
  have hword : ((isrIp.setWidth 64).setWidth 32).setWidth 64 = isrIp.setWidth 64 := by simp
  rw [registerIsr, if_neg (by omega), hword,
    vmWrite64_plain hplain.inRam hplain.inSpace fun _ => by rw [ivtEntry_toNat hn]; omega,
    BitVec.toNat_setWidth_of_le (by decide)]
  rfl

theorem ivtWord_registered (vm : Vm) (n isrIp : BitVec 32) :
    (vm.registered n isrIp).ivtWord n = isrIp.setWidth 64 := by
  have hlt := isrIp.isLt
  rw [Vm.ivtWord, Vm.registered, withMemory_memory, leNat_leStore, Nat.mod_eq_of_lt (by omega),
    ← BitVec.ofNat_toNat]

/-- The vector table is below the programs. -/
theorem AtWord.registered (h : AtWord program k vm) (hn : n.toNat < ivtSize) (isrIp : BitVec 32) :
    AtWord program k (vm.registered n isrIp) := by
  refine h.moved rfl (fun a ha _ => ?_) h.ip
  have hivt : ivtSize * 8 ≤ programBase := by decide
  rw [Vm.registered, withMemory_memory, leStore_of_not_mem]
  rw [ivtEntry_toNat hn]
  omega

end Registered

/-- A machine whose program is a single `IRET`, installed as the handler of a vector. -/
theorem exists_installed_vector {n : BitVec 32} (hn : n.toNat < ivtSize) :
    ∃ s, Reachable (machine memSize 1) s ∧ (s.cpus 0).inInterrupt = 0 ∧
      (s.cpus 0).irqMasked = 0 ∧ s.ivtWord n ≠ BitVec.allOnes 64 := by
  obtain ⟨vm, hvm⟩ := exists_started ⟨fun _ => 0, fun _ => 0, 0⟩
    [Inst.encode ⟨Opcode.iret.code, 0, 0, 0, 0⟩] (by decide)
  have hinit : Reachable (machine memSize 1) vm := .of_init hvm.init
  have hrun := registerIsr_run (reachable_inv hinit) hn (BitVec.ofNat 32 programBase)
  refine ⟨_, hinit.step (l := .registerIsr n _) ⟨trivial, hrun⟩, ?_, ?_, ?_⟩
  · change (vm.cpus 0).inInterrupt = 0
    rw [hvm.core]
    rfl
  · change (vm.cpus 0).irqMasked = 0
    rw [hvm.core]
    rfl
  · rw [ivtWord_registered]
    decide

/-- The program raises vector 5 and halts. The handler, at word 3, uses a register. -/
def raising : List (BitVec 64) :=
  [Inst.encode ⟨Opcode.movi.code, 1, 0, 0, 5⟩, Inst.encode ⟨Opcode.int.code, 1, 0, 0, 0⟩,
    Inst.encode ⟨Opcode.halt.code, 0, 0, 0, 0⟩, Inst.encode ⟨Opcode.movi.code, 2, 0, 0, 7⟩,
    Inst.encode ⟨Opcode.iret.code, 0, 0, 0, 0⟩]

/-- The program before and behind its `INT`. -/
structure Raises (s v : Vm) : Prop where
  reach : Reachable (machine memSize 1) s
  word : AtWord raising 1 s
  outside : ((s.fetched 0).cpus 0).inInterrupt = 0
  vector : (s.fetched 0).ivtWord 5 ≠ BitVec.allOnes 64
  enter : vmEnterInterrupt 0 5 (s.fetched 0) = .ok ((), v)
  reached : Reachable (machine memSize 1) v
  inside : (v.cpus 0).inInterrupt = 1
  handler : AtWord raising 3 v

theorem exists_raises : ∃ s v, Raises s v := by
  obtain ⟨vm, hvm⟩ := exists_started ⟨fun _ => 0, fun _ => 0, 0⟩ raising (by decide)
  have hinit : Reachable (machine memSize 1) vm := .of_init hvm.init
  let isrIp : BitVec 32 := BitVec.ofNat 32 (programBase + 8 * 3)
  have hrun := registerIsr_run (reachable_inv hinit) (n := 5) (by decide) isrIp
  have hset : Reachable (machine memSize 1) (vm.registered 5 isrIp) :=
    hinit.step (l := .registerIsr 5 _) ⟨trivial, hrun⟩
  obtain ⟨s, hmovi, hword, hs⟩ := ((hvm.atWord (by decide)).registered (n := 5) (by decide)
    isrIp).movi (show 0 < 5 by decide) rfl (show IsReg 1 by decide)
  have hreach : Reachable (machine memSize 1) s :=
    hset.step (l := .instruction 0) ⟨enabled_of_reachable hset, hmovi⟩
  obtain ⟨hram, -⟩ := hword.fetch (show 1 < 5 by decide)
  have hinv := (kept_fetch64 0).ok (reachable_inv hreach) (fetch64_of_inRam hram)
  have hcore := hinv.core 0 (by decide)
  have hout : ((s.fetched 0).cpus 0).inInterrupt = 0 := by
    rw [Vm.fetched, setCpu_cpus_self, hs, setCpu_cpus_self, Vm.fetched, setCpu_cpus_self]
    change (vm.cpus 0).inInterrupt = 0
    rw [hvm.core]
    rfl
  have hisp : ((s.fetched 0).cpus 0).isp = isrStackSize := by
    obtain ⟨-, h⟩ | ⟨h, -⟩ := hcore.phase
    · exact h
    · omega
  have hvector : (s.fetched 0).ivtWord 5 = isrIp.setWidth 64 := by
    have hmem : (s.fetched 0).memory = (vm.registered 5 isrIp).memory := by
      rw [hs]
      rfl
    rw [Vm.ivtWord, hmem]
    exact ivtWord_registered vm 5 isrIp
  have hne : (s.fetched 0).ivtWord 5 ≠ BitVec.allOnes 64 := by
    rw [hvector]
    decide
  obtain ⟨v, henter, hcpu, -, hkept⟩ := vmEnterInterrupt_saves (n := 5) (by decide)
    (isrRegion_of_inv (by decide) (by decide) hinv) hisp hout (ivtEntry_plain hinv (by decide)) hne
  have hreg : readReg 0 1 (s.fetched 0) = .ok (5, s.fetched 0) := by
    rw [readReg_of_lt (by decide), Vm.fetched, setCpu_cpus_self, hs, setCpu_cpus_self]
    rfl
  have hint : vmInstructionCase 0 s = .ok ((), v) := by
    rw [hword.instruction .int (show 1 < 5 by decide) rfl rfl, execute, bind_ok hreg]
    exact henter
  have hv : Reachable (machine memSize 1) v :=
    hreach.step (l := .instruction 0) ⟨enabled_of_reachable hreach, hint⟩
  refine ⟨s, v, hreach, hword, hout, hne, henter, hv, by rw [hcpu]; rfl, ?_⟩
  have hbase : ((s.fetched 0).cpus 0).isrStackBase.toNat + isrStackBytes ≤ programBase := by
    rw [hcore.isrBase]
    decide
  have hsize := (reachable_inv hv).memorySize.trans hword.memorySize.symm
  refine hword.moved hsize (fun a ha _ => ?_) ?_
  · exact hkept a (.inr (by omega))
  · rw [hcpu, hvector]
    rfl

theorem iret_restores_context_installed : ∃ s v w t, Reachable (machine memSize 1) s ∧
    vmEnterInterrupt 0 5 (s.fetched 0) = .ok ((), v) ∧ (v.cpus 0).regs 31 = 5 ∧
    Run ((machine memSize 1).restrict (HandlerStep 0)) v [.instruction 0] w ∧
    (w.cpus 0).regs 2 = 7 ∧ vmInstructionCase 0 w = .ok ((), t) ∧
    (t.cpus 0).ip = programBase + 8 * 2 ∧ (t.cpus 0).regs = ((s.fetched 0).cpus 0).regs ∧
    (t.cpus 0).inInterrupt = 0 := by
  obtain ⟨s, v, h⟩ := exists_raises
  obtain ⟨hram, -⟩ := h.word.fetch (show 1 < 5 by decide)
  obtain ⟨v', hrun, hreg, -, hback⟩ := iret_restores_context (c := 0) (by decide) h.reach
    (enabled_of_reachable h.reach).1 (.instruction hram) h.outside (n := 5) (by decide) h.vector
  obtain rfl := (Prod.mk.inj (Except.ok.inj (hrun.symm.trans h.enter))).2
  obtain ⟨w, hmovi, hword, hw⟩ := h.handler.movi (show 3 < 5 by decide) rfl (show IsReg 2 by decide)
  have hstep : HandlerStep 0 v' (.instruction 0) := by
    refine ⟨fun _ => ?_, fun t ht x _ _ => ?_⟩
    · rw [(h.handler.fetch (show 3 < 5 by decide)).2]
      decide
    · obtain rfl := (Prod.mk.inj (Except.ok.inj (hmovi.symm.trans ht))).2
      rw [hw]
      rfl
  have hrun' : Run ((machine memSize 1).restrict (HandlerStep 0)) v' [.instruction 0] w :=
    .cons ⟨hstep, enabled_of_reachable h.reached, hmovi⟩ .nil
  obtain ⟨hram', hinst⟩ := hword.fetch (show 4 < 5 by decide)
  obtain ⟨t, hiret, hip, -, hregs, -, hout⟩ := hback _ w hrun' hram' (by rw [hinst]; decide)
  refine ⟨s, v', w, t, h.reach, hrun, hreg, hrun', ?_, hiret, ?_, hregs, hout⟩
  · rw [hw, setCpu_cpus_self]
    rfl
  · rw [hip]
    exact h.word.fetched_ip (show 1 < 5 by decide)

/-! ## The pointers of every core -/

/-- The ranges of a core's pointers, with the ISR stack tied to the interrupt flag. -/
structure CoreRanges (cpu : Vcpu) : Prop where
  csp : 0 ≤ cpu.csp ∧ cpu.csp ≤ 256
  dsp : 0 ≤ cpu.dsp ∧ cpu.dsp ≤ 256
  ip : cpu.ip < 2 ^ 32
  flag : cpu.inInterrupt = 0 ∨ cpu.inInterrupt = 1
  outside : cpu.inInterrupt = 0 → cpu.isp = 256
  inside : cpu.inInterrupt = 1 → cpu.isp = 256 - 34

/-- In every reachable state the pointers of every core are in range, and no step
stops with a panic of the ISR stack. -/
theorem reachable_core_ranges {memorySize : ℕ} {smpCores : ℤ} {vm : Vm}
    (h : Reachable (machine memorySize smpCores) vm) :
    (∀ c, c < vm.smpCores → CoreRanges (vm.cpus c)) ∧
      ∀ e fault, eventEnabled vm e → runEvent e vm = .error fault →
        fault ≠ .panic .interruptStackOverflow ∧ fault ≠ .panic .interruptStackUnderflow := by
  have hv := reachable_inv h
  constructor
  · intro c hc
    have hcore := hv.core c (hv.smpCores ▸ hc)
    refine ⟨hcore.csp, hcore.dsp, hcore.ip, ?_, ?_, ?_⟩
    · exact hcore.phase.imp And.left And.left
    · intro h0
      rcases hcore.phase with ⟨-, hs⟩ | ⟨h1, -⟩
      · exact hs
      · omega
    · intro h1
      rcases hcore.phase with ⟨h0, -⟩ | ⟨-, hs⟩
      · omega
      · exact hs
  · intro e fault hen hrun
    have hres := runEvent_inv e (fun c _ => settled_mayEnter c)
      vm (fun c _ _ _ => settled_mayReturn c) hen hv
    rw [hrun] at hres
    exact hres

theorem reachable_core_ranges_interrupted : ∃ vm, Reachable (machine memSize 1) vm ∧
    (vm.cpus 0).inInterrupt = 1 ∧ (vm.cpus 0).ip = programBase + 8 * 3 ∧
    (∀ c, c < vm.smpCores → CoreRanges (vm.cpus c)) ∧
      ∀ e fault, eventEnabled vm e → runEvent e vm = .error fault →
        fault ≠ .panic .interruptStackOverflow ∧ fault ≠ .panic .interruptStackUnderflow := by
  obtain ⟨_, v, h⟩ := exists_raises
  exact ⟨v, h.reached, h.inside, h.handler.ip, reachable_core_ranges h.reached⟩

end LampVm
