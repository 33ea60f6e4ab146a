import LampVm.Handler
import LampVm.Pending

/-!
# What interrupt entry and return change

Which vector `vm_handle_interrupts` takes, and what of the machine entry and return leave alone:
everything but the registers of the core and its ISR stack.
-/
namespace LampVm

open ByteOrder Contract

/-! ## What entry and return leave alone -/

/-- What interrupt entry and return leave of a core. -/
def Vcpu.besidesHandler (cpu : Vcpu) : Vcpu :=
  { cpu with regs := fun _ => 0, flags := 0, ip := 0, isp := 0, inInterrupt := 0 }

/-- What interrupt entry and return of core `c` leave of the machine. -/
def Vm.besidesHandler (vm : Vm) (c : ℕ) : Vm :=
  { vm.besidesClock with
    cpus := Function.update vm.cpus c (vm.cpus c).besidesHandler
    memory := fun _ => 0
    mmioCacheDev := none
    mmioCacheStart := 0
    mmioCacheEnd := 0 }

/-- An assertion that neither entry nor return of core `c` makes false. -/
structure HandlerFree (c : ℕ) (I : Vm → Prop) : Prop where
  cache : ∀ vm dev start stop, I vm →
    I { vm with mmioCacheDev := dev, mmioCacheStart := start, mmioCacheEnd := stop }
  clock : ClockFree I
  cpu : ∀ vm cpu, I vm → cpu.besidesHandler = (vm.cpus c).besidesHandler → I (vm.setCpu c cpu)

section HandlerFree

variable {c : ℕ} {I : Vm → Prop} (h : HandlerFree c I)
include h

theorem HandlerFree.modifyCpu {f : Vcpu → Vcpu}
    (hf : ∀ cpu, (f cpu).besidesHandler = cpu.besidesHandler) :
    Safe I (fun _ => True) (modifyCpu c f) :=
  safe_modify fun vm hv => h.cpu vm _ hv (hf _)

theorem HandlerFree.vmRead64 (addr : BitVec 32) : Safe I (fun _ => True) (vmRead64 addr) := by
  have hlookup : Lookup I fun _ => True := ⟨safe_findMmio h.cache, fun _ _ => trivial⟩
  exact hlookup.vmRead64 h.clock addr

theorem HandlerFree.vmIret : Safe I (fun _ => True) (vmIret c) := by
  have hpop : Safe I (fun _ => True) (isrPop c) :=
    safe_bind (safe_getCpu c) fun _ => safe_ite (fun _ => safe_throw trivial) fun _ =>
      safe_bind (h.vmRead64 _) fun _ => safe_bind (h.modifyCpu fun _ => rfl) fun _ => safe_pure _
  refine safe_bind (safe_getCpu c) fun _ => safe_ite (fun _ => safe_pure _) fun _ =>
    safe_bind (safe_forM fun _ _ => ?_) fun _ => ?_
  · exact safe_bind (safe_bind hpop fun _ => safe_pure _) fun _ => h.modifyCpu fun _ => rfl
  · exact safe_bind hpop fun _ => safe_bind (h.modifyCpu fun _ => rfl) fun _ =>
      safe_bind hpop fun _ => safe_bind (h.modifyCpu fun _ => rfl) fun _ =>
      h.modifyCpu fun _ => rfl

theorem HandlerFree.vmEnterInterrupt (hstore : ∀ vm m, I vm → I { vm with memory := m })
    (n : BitVec 32) : Safe I (fun _ => True) (vmEnterInterrupt c n) := by
  have hlookup : Lookup I fun _ => True := ⟨safe_findMmio h.cache, fun _ _ => trivial⟩
  have hbyte (k : ℕ) (b : BitVec 8) : Safe I (fun _ => True) (storeByte k b) :=
    safe_bind_get fun _ hv => safe_bind (hlookup.checkIndex _ _ _) fun _ =>
      safe_set (hstore _ _ hv)
  have hwrite (addr : BitVec 32) (v : BitVec 64) : Safe I (fun _ => True) (vmWrite64 addr v) := by
    refine safe_bind (hlookup.memcheckAlign _ _ _) fun _ =>
      safe_bind (hlookup.requireRam _ _ _) fun _ => ?_
    iterate 7 refine safe_bind (hbyte _ _) fun _ => ?_
    exact hbyte _ _
  have hpush (v : BitVec 64) : Safe I (fun _ => True) (isrPush c v) :=
    safe_bind (safe_getCpu c) fun _ => safe_ite (fun _ => safe_throw trivial) fun _ =>
      safe_bind (h.modifyCpu fun _ => rfl) fun _ => safe_bind (safe_getCpu c) fun _ => hwrite _ _
  refine safe_bind (safe_getCpu c) fun _ => safe_ite (fun _ => safe_pure _) fun _ =>
    safe_ite (fun _ => safe_pure _) fun _ => safe_bind (h.vmRead64 _) fun _ =>
    safe_ite (fun _ => safe_pure _) fun _ => ?_
  refine safe_bind (safe_getCpu c) fun _ => safe_bind (hpush _) fun _ =>
    safe_bind (safe_getCpu c) fun _ => safe_bind (hpush _) fun _ =>
    safe_bind (safe_forM fun _ _ => ?_) fun _ => ?_
  · exact safe_bind (safe_getCpu c) fun _ => hpush _
  · exact safe_bind (h.modifyCpu fun _ => rfl) fun _ => safe_bind (h.modifyCpu fun _ => rfl)
      fun _ => h.modifyCpu fun _ => rfl

end HandlerFree

section BesidesHandler

variable {c : ℕ} {vm v : Vm}

theorem handlerFree_besides (vm : Vm) (c : ℕ) :
    HandlerFree c fun v => v.besidesHandler c = vm.besidesHandler c where
  cache _ _ _ _ hv := hv
  clock s t hs hst := by
    have hcpus : t.cpus = s.cpus := (congrArg Vm.cpus hst :)
    have heq : t.besidesHandler c = s.besidesHandler c := by
      simp only [Vm.besidesHandler, hst, hcpus]
    exact heq.trans hs
  cpu v cpu hv hcpu := by
    rw [← hv]
    simp only [Vm.besidesHandler, setCpu_cpus_self, hcpu]
    simp only [Vm.setCpu, Function.update_idem, Vm.besidesClock]

theorem handlerFree_memory (m : Bytes) : HandlerFree c fun v => v.memory = m where
  cache _ _ _ _ hv := hv
  clock _ _ hs hst := (congrArg Vm.memory hst :).trans hs
  cpu _ _ hv _ := hv

/-- The other cores are as they were. -/
theorem cpus_of_besidesHandler (h : v.besidesHandler c = vm.besidesHandler c) :
    v.cpus = Function.update vm.cpus c (v.cpus c) := by
  have hcpus : Function.update v.cpus c (v.cpus c).besidesHandler =
      Function.update vm.cpus c (vm.cpus c).besidesHandler := congrArg Vm.cpus h
  funext d
  by_cases hd : d = c
  · subst hd
    rw [Function.update_self]
  · have hcpu := congrFun hcpus d
    rwa [Function.update_of_ne hd, Function.update_of_ne hd,
      ← Function.update_of_ne hd (v.cpus c) vm.cpus] at hcpu

theorem cpu_of_besidesHandler (h : v.besidesHandler c = vm.besidesHandler c) :
    (v.cpus c).besidesHandler = (vm.cpus c).besidesHandler := by
  have hcpus : Function.update v.cpus c (v.cpus c).besidesHandler =
      Function.update vm.cpus c (vm.cpus c).besidesHandler := congrArg Vm.cpus h
  have hcpu := congrFun hcpus c
  rwa [Function.update_self, Function.update_self] at hcpu

/-- A core that has returned is the one that it was, in the context that was saved. -/
theorem Restored.eq {saved cpu cpu₀ : Vcpu} (h : Restored saved cpu)
    (hb : cpu.besidesHandler = cpu₀.besidesHandler) :
    cpu = { cpu₀ with
      regs := saved.regs, flags := saved.flags, ip := saved.ip, isp := isrStackSize,
      inInterrupt := 0 } := by
  calc cpu = { cpu.besidesHandler with
        regs := cpu.regs, flags := cpu.flags, ip := cpu.ip, isp := cpu.isp,
        inInterrupt := cpu.inInterrupt } := rfl
    _ = _ := by rw [h.regs, h.flags, h.ip, h.isp, h.inInterrupt, hb]; rfl

end BesidesHandler

/-! ## The vector that is taken -/

section Scan

variable {c d n : ℕ} {vm : Vm}

/-- The scan of the pending vectors finds none, or takes one. -/
theorem deliverFirst_cases {ws : List ℕ} (hc : c < vm.smpCores)
    (hws : ∀ w ∈ ws, w < irqBitmapWords) :
    (deliverFirst d c ws vm = .ok ((), vm) ∧
        ∀ w ∈ ws, vm.interruptBitmap (c * irqBitmapWords + w) = 0) ∨
      ∃ n bitmap, n < ivtSize ∧ (c, n) ∈ vm.pendingSet ∧
        ({ vm with interruptBitmap := bitmap } : Vm).pendingSet = vm.pendingSet \ {(c, n)} ∧
        deliverFirst d c ws vm =
          vmEnterInterrupt d (BitVec.ofNat 32 n) { vm with interruptBitmap := bitmap } := by
  induction ws with
  | nil => exact .inl ⟨rfl, fun _ hw => by cases hw⟩
  | cons w ws ih =>
    obtain ⟨hw, hrest⟩ := List.forall_mem_cons.mp hws
    have hidx : c * irqBitmapWords + w < vm.smpCores * irqBitmapWords := by
      change w < 4 at hw
      change c * 4 + w < vm.smpCores * 4
      omega
    rw [deliverFirst, bind_ok (get_apply vm), checkIndex_of_lt hidx, bind_ok (pure_apply () vm)]
    by_cases hword : vm.interruptBitmap (c * irqBitmapWords + w) = 0
    · rw [if_pos hword]
      refine (ih hrest).imp_left fun hscan => ⟨hscan.1, ?_⟩
      exact List.forall_mem_cons.mpr ⟨hword, hscan.2⟩
    · rw [if_neg hword]
      have hbit := ctz_lt hword
      have hset := BitVec.getLsbD_true_ctz_of_ne_zero hword
      generalize (vm.interruptBitmap (c * irqBitmapWords + w)).ctz.toNat = bit at hbit hset
      have hn : w * 64 + bit < ivtSize := by
        change w < 4 at hw
        change w * 64 + bit < 256
        omega
      have hdiv : (w * 64 + bit) / 64 = w := by omega
      have hmod : (w * 64 + bit) % 64 = bit := by omega
      have hclear := pendingSet_clear vm c hn
      rw [hdiv, hmod] at hclear
      refine .inr ⟨w * 64 + bit, _, hn, ⟨hc, hn, ?_⟩, hclear, rfl⟩
      simp only [Vm.pending, hdiv, hmod]
      exact hset

/-- Where the scan finds none, none is pending. -/
theorem not_pending_of_zero
    (h : ∀ w ∈ List.range irqBitmapWords, vm.interruptBitmap (c * irqBitmapWords + w) = 0) :
    (c, n) ∉ vm.pendingSet := by
  rintro ⟨-, hn, hbit⟩
  have hword : n / 64 < irqBitmapWords := by
    change n < 256 at hn
    change n / 64 < 4
    omega
  rw [Vm.pending, h _ (List.mem_range.mpr hword)] at hbit
  cases hbit.symm.trans BitVec.getLsbD_zero

/-- The lowest pending vector is taken, here among the first 64. -/
theorem deliverFirst_lowest (hc : c < vm.smpCores) (hn : n < 64) (hpend : vm.pending c n = true)
    (hlow : ∀ k < n, vm.pending c k = false) (ws : List ℕ) :
    ∃ bitmap, ({ vm with interruptBitmap := bitmap } : Vm).pendingSet = vm.pendingSet \ {(c, n)} ∧
      deliverFirst d c (0 :: ws) vm =
        vmEnterInterrupt d (BitVec.ofNat 32 n) { vm with interruptBitmap := bitmap } := by
  have hivt : ivtSize = 256 := rfl
  have hidx : c * irqBitmapWords + 0 < vm.smpCores * irqBitmapWords := by
    change c * 4 + 0 < vm.smpCores * 4
    omega
  have hbits (k : ℕ) (hk : k < 64) :
      vm.pending c k = (vm.interruptBitmap (c * irqBitmapWords + 0)).getLsbD k := by
    rw [Vm.pending, Nat.div_eq_of_lt hk, Nat.mod_eq_of_lt hk]
  have hbit : (vm.interruptBitmap (c * irqBitmapWords + 0)).getLsbD n = true :=
    (hbits n hn).symm.trans hpend
  have hne : vm.interruptBitmap (c * irqBitmapWords + 0) ≠ 0 := by
    intro h0
    rw [h0] at hbit
    cases hbit.symm.trans BitVec.getLsbD_zero
  have hctz : (vm.interruptBitmap (c * irqBitmapWords + 0)).ctz.toNat = n := by
    have hset := BitVec.getLsbD_true_ctz_of_ne_zero hne
    refine le_antisymm (not_lt.mp fun hlt => ?_) (not_lt.mp fun hlt => ?_)
    · exact Bool.false_ne_true ((BitVec.getLsbD_false_of_lt_ctz hlt).symm.trans hbit)
    · rw [← hbits _ (ctz_lt hne), hlow _ hlt] at hset
      exact Bool.false_ne_true hset
  have hclear := pendingSet_clear vm c (n := n) (by omega)
  rw [Nat.div_eq_of_lt hn, Nat.mod_eq_of_lt hn] at hclear
  refine ⟨_, hclear, ?_⟩
  rw [deliverFirst, bind_ok (get_apply vm), checkIndex_of_lt hidx, bind_ok (pure_apply () vm),
    if_neg hne, hctz, Nat.zero_mul, Nat.zero_add]
  rfl

end Scan

end LampVm
