import LampVm.Create

/-!
# Plain memory accesses

What each access function does on a range of RAM that no device window touches,
in a state whose lookup cache is coherent: a read returns the little-endian
number at the address, a write stores one, and nothing else changes except that
the lookup cache is emptied.
-/
namespace LampVm

open ByteOrder Contract

/-! ## Device lookup -/

/-- The lookup cache is empty or remembers a registered device with its bounds. -/
def CacheCoherent (vm : Vm) : Prop :=
  ∀ dev, vm.mmioCacheDev = some dev →
    dev ∈ vm.mmioDevices ∧ vm.mmioCacheStart = dev.start ∧ vm.mmioCacheEnd = dev.stop

/-- The bytes `a ≤ x < a + n` lie in RAM and in the address space, and no device
window contains one of them. -/
structure PlainRam (vm : Vm) (a : BitVec 32) (n : ℕ) : Prop where
  inRam : inRam vm a n
  inSpace : a.toNat + n ≤ 2 ^ 32
  noDevice : ∀ x : BitVec 32, a.toNat ≤ x.toNat → x.toNat < a.toNat + n →
    ∀ dev ∈ vm.mmioDevices, ¬ dev.covers x

/-- The state after a lookup that found no device. -/
def Vm.uncached (vm : Vm) : Vm := { vm with mmioCacheDev := none }

def Vm.withMemory (vm : Vm) (m : Bytes) : Vm := { vm with memory := m }

@[simp] theorem uncached_memory (vm : Vm) : vm.uncached.memory = vm.memory := rfl
@[simp] theorem uncached_cpus (vm : Vm) : vm.uncached.cpus = vm.cpus := rfl
@[simp] theorem uncached_uncached (vm : Vm) : vm.uncached.uncached = vm.uncached := rfl
@[simp] theorem withMemory_memory (vm : Vm) (m : Bytes) : (vm.withMemory m).memory = m := rfl
@[simp] theorem withMemory_memorySize (vm : Vm) (m : Bytes) :
    (vm.withMemory m).memorySize = vm.memorySize := rfl
@[simp] theorem withMemory_withMemory (vm : Vm) (m m' : Bytes) :
    (vm.withMemory m).withMemory m' = vm.withMemory m' := rfl
@[simp] theorem withMemory_self (vm : Vm) : vm.withMemory vm.memory = vm := rfl

theorem CacheCoherent.uncached (vm : Vm) : CacheCoherent vm.uncached := by
  intro dev h
  cases h

variable {vm : Vm} {a : BitVec 32} {n : ℕ}

theorem PlainRam.uncached (h : PlainRam vm a n) : PlainRam vm.uncached a n :=
  ⟨h.inRam, h.inSpace, h.noDevice⟩

theorem PlainRam.withMemory (h : PlainRam vm a n) (m : Bytes) : PlainRam (vm.withMemory m) a n :=
  ⟨h.inRam, h.inSpace, h.noDevice⟩

/-- A part of a plain range is plain. -/
theorem PlainRam.sub (h : PlainRam vm a n) {b : BitVec 32} {k : ℕ} (hb : a.toNat ≤ b.toNat)
    (hk : b.toNat + k ≤ a.toNat + n) : PlainRam vm b k := by
  have h1 := h.inRam
  have h2 := h.inSpace
  refine ⟨?_, by omega, fun x hx hx' => h.noDevice x (by omega) (by omega)⟩
  simp only [LampVm.inRam] at h1 ⊢
  omega

theorem PlainRam.toNat_add (h : PlainRam vm a n) {k : ℕ} (hk : k < n) :
    (a + BitVec.ofNat 32 k).toNat = a.toNat + k := by
  have := h.inSpace
  rw [BitVec.toNat_add, BitVec.toNat_ofNat, Nat.mod_eq_of_lt (a := k) (by omega),
    Nat.mod_eq_of_lt (by omega)]

theorem findMmio_of_noDevice (hc : CacheCoherent vm)
    (h : ∀ dev ∈ vm.mmioDevices, ¬ dev.covers a) :
    findMmio a vm = .ok (none, vm.uncached) := by
  have hhit : vm.mmioCacheHit a = none := by
    unfold Vm.mmioCacheHit
    cases hd : vm.mmioCacheDev with
    | none => rfl
    | some dev =>
      obtain ⟨hmem, hs, he⟩ := hc dev hd
      simp only [hs, he]
      exact if_neg (h dev hmem)
  have hscan : scanMmio vm.mmioDevices a = none := by
    simp only [scanMmio, List.find?_eq_none, decide_eq_true_eq]
    exact h
  simp only [findMmio, bind_apply, get_apply, hhit, hscan]
  rfl

/-- The state after a lookup that found `dev`. -/
def Vm.cached (vm : Vm) (dev : MmioDevice) : Vm :=
  { vm with mmioCacheDev := some dev, mmioCacheStart := dev.start, mmioCacheEnd := dev.stop }

theorem CacheCoherent.cached {dev : MmioDevice} (h : dev ∈ vm.mmioDevices) :
    CacheCoherent (vm.cached dev) := by
  rintro _ ⟨rfl⟩
  exact ⟨h, rfl, rfl⟩

/-- A lookup finds a device if there is one, and remembers it. -/
theorem findMmio_of_covers (hc : CacheCoherent vm) (h : ∃ dev ∈ vm.mmioDevices, dev.covers a) :
    ∃ dev ∈ vm.mmioDevices, dev.covers a ∧ findMmio a vm = .ok (some dev, vm.cached dev) := by
  cases hhit : vm.mmioCacheHit a with
  | some dev =>
    unfold Vm.mmioCacheHit at hhit
    cases hd : vm.mmioCacheDev with
    | none =>
      rw [hd] at hhit
      cases hhit
    | some cached =>
      obtain ⟨hmem, hs, he⟩ := hc cached hd
      simp only [hd, hs, he] at hhit
      split_ifs at hhit with hcov
      obtain rfl := Option.some.inj hhit
      have hself : vm.cached cached = vm := by
        unfold Vm.cached
        rw [← hd, ← hs, ← he]
      refine ⟨cached, hmem, hcov, ?_⟩
      simp only [findMmio, bind_apply, get_apply, Vm.mmioCacheHit, hd, hs, he, if_pos hcov,
        pure_apply, hself]
  | none =>
    cases hscan : scanMmio vm.mmioDevices a with
    | some dev =>
      have hcov : dev.covers a := by simpa using List.find?_some hscan
      refine ⟨dev, List.mem_of_find?_eq_some hscan, hcov, ?_⟩
      simp only [findMmio, bind_apply, get_apply, hhit, hscan]
      rfl
    | none =>
      obtain ⟨dev, hmem, hcov⟩ := h
      exact absurd (decide_eq_true hcov) (List.find?_eq_none.mp hscan dev hmem)

/-- The ranges of the default memory that no registered window touches: below the
clock registers, between them and the legacy framebuffer, and above the system
information registers. -/
def OutsideWindows (a n : ℕ) : Prop :=
  a + n ≤ timeBase ∨ (timeBase + timeSize ≤ a ∧ a + n ≤ fbLegacyBase) ∨
    sysinfoBase + sysinfoSize ≤ a

instance (a n : ℕ) : Decidable (OutsideWindows a n) := inferInstanceAs (Decidable (_ ∨ _))

theorem covers_window {start stop : ℕ} {ops : MmioOps} (h : start < 2 ^ 32 ∧ stop < 2 ^ 32) :
    MmioDevice.covers ⟨BitVec.ofNat 32 start, BitVec.ofNat 32 stop, ops⟩ a ↔
      start ≤ a.toNat ∧ a.toNat ≤ stop := by
  rw [MmioDevice.covers, BitVec.le_def, BitVec.le_def, BitVec.toNat_ofNat, BitVec.toNat_ofNat,
    Nat.mod_eq_of_lt h.1, Nat.mod_eq_of_lt h.2]

theorem plainRam_of_outsideWindows (hM : vm.memorySize = memSize)
    (hdev : vm.mmioDevices = registeredDevices memSize) (h : a.toNat + n ≤ memSize)
    (ho : OutsideWindows a.toNat n) : PlainRam vm a n := by
  have hsize : memSize = 67108864 := rfl
  have htime : timeBase = 0x2000 ∧ timeSize = 24 := ⟨rfl, rfl⟩
  have hfb : fbLegacyBase = 0x620000 ∧ fbSize = 1228800 := ⟨rfl, rfl⟩
  have hsys : sysinfoBase = 0x74C000 ∧ sysinfoSize = 0x5C := ⟨rfl, rfl⟩
  refine ⟨by simp only [inRam, hM]; exact h, by omega, fun x h1 h2 dev hd => ?_⟩
  rw [hdev] at hd
  unfold OutsideWindows at ho
  simp only [registeredDevices, List.mem_cons, List.not_mem_nil, or_false] at hd
  rcases hd with rfl | rfl | rfl | rfl <;>
  · rw [covers_window (by omega)]
    omega

/-- The windows of the default machine do not overlap. -/
theorem covers_unique {dev dev' : MmioDevice} (h : dev ∈ registeredDevices memSize)
    (h' : dev' ∈ registeredDevices memSize) (hcov : dev.covers a) (hcov' : dev'.covers a) :
    dev' = dev := by
  have hsize : memSize = 67108864 := rfl
  have htime : timeBase = 0x2000 ∧ timeSize = 24 := ⟨rfl, rfl⟩
  have hfb : fbLegacyBase = 0x620000 ∧ fbSize = 1228800 := ⟨rfl, rfl⟩
  have hsys : sysinfoBase = 0x74C000 ∧ sysinfoSize = 0x5C := ⟨rfl, rfl⟩
  simp only [registeredDevices, List.mem_cons, List.not_mem_nil, or_false] at h h'
  rcases h with rfl | rfl | rfl | rfl <;> rcases h' with rfl | rfl | rfl | rfl <;>
  first
  | rfl
  | rw [covers_window (by omega)] at hcov hcov'
    omega

/-! ## Bytes -/

theorem loadByte_of_lt {i : ℕ} (h : i < vm.memorySize) :
    loadByte i vm = .ok (vm.memory i, vm) := by
  simp only [loadByte, bind_apply, get_apply, checkIndex_of_lt h, pure_apply]

theorem storeByte_of_lt (s : Vm) {i : ℕ} (h : i < s.memorySize) (v : BitVec 8) :
    storeByte i v s = .ok ((), s.withMemory (Function.update s.memory i v)) := by
  simp only [storeByte, bind_apply, get_apply, checkIndex_of_lt h, pure_apply, set_apply]
  rfl

theorem requireRam_of_inRam {op : AccessName} (h : inRam vm a n) :
    requireRam op a n vm = .ok ((), vm) := by
  simp only [requireRam, bind_apply, get_apply, if_pos h, pure_apply]

/-- The alignment test of a checked build passes. -/
def AlignOk (vm : Vm) (align : ℕ) (a : BitVec 32) : Prop :=
  vm.memcheck = true → a.toNat % align = 0

theorem memcheckAlign_of_alignOk {op : AccessName} {align : ℕ} (h : AlignOk vm align a) :
    memcheckAlign op align a vm = .ok ((), vm) := by
  have : ¬ (vm.memcheck = true ∧ a.toNat % align ≠ 0) := fun hh => hh.2 (h hh.1)
  simp only [memcheckAlign, bind_apply, get_apply, if_neg this, pure_apply]

theorem memcheckAlign_of_not_alignOk {op : AccessName} {align : ℕ} (h : ¬ AlignOk vm align a) :
    memcheckAlign op align a vm = .error (.panic (.unalignedAddress op a)) := by
  have : vm.memcheck = true ∧ a.toNat % align ≠ 0 := by
    simpa [AlignOk] using h
  simp only [memcheckAlign, bind_apply, get_apply, if_pos this, vmPanic_apply]

/-- The shift-and-or assembly of `vm_read32`. -/
theorem toNat_assemble32 (b0 b1 b2 b3 : BitVec 8) :
    (0 ||| b0.setWidth 32 <<< 0 ||| b1.setWidth 32 <<< 8 ||| b2.setWidth 32 <<< 16 |||
      b3.setWidth 32 <<< 24 : BitVec 32).toNat =
      b0.toNat + 2 ^ 8 * b1.toNat + 2 ^ 16 * b2.toNat + 2 ^ 24 * b3.toNat := by
  have h0 := b0.isLt
  have h1 := b1.isLt
  have h2 := b2.isLt
  have e0 : (0 ||| b0.setWidth 32 <<< 0 : BitVec 32).toNat = b0.toNat := by
    rw [toNat_or_shiftLeft _ _ (by decide) (by decide)]
    simp
  have e1 := toNat_or_shiftLeft (k := 8) (0 ||| b0.setWidth 32 <<< 0 : BitVec 32) b1
    (by rw [e0]; omega) (by decide)
  have e2 := toNat_or_shiftLeft (k := 16)
    (0 ||| b0.setWidth 32 <<< 0 ||| b1.setWidth 32 <<< 8 : BitVec 32) b2
    (by rw [e1, e0]; omega) (by decide)
  have e3 := toNat_or_shiftLeft (k := 24) (0 ||| b0.setWidth 32 <<< 0 ||| b1.setWidth 32 <<< 8 |||
    b2.setWidth 32 <<< 16 : BitVec 32) b3 (by rw [e2, e1, e0]; omega) (by decide)
  rw [e3, e2, e1, e0]

/-! ## Reads -/

theorem fbByteIndex_of_plain (hdev : vm.mmioDevices = registeredDevices vm.memorySize)
    (h : PlainRam vm a 1) : fbByteIndex vm.memorySize a = none := by
  have hram : a.toNat + 1 ≤ vm.memorySize := h.inRam
  have hnot := h.noDevice a le_rfl (by omega)
    ⟨BitVec.ofNat 32 fbLegacyBase, BitVec.ofNat 32 (fbLegacyBase + fbSize - 1), .fb⟩
    (by rw [hdev]; exact List.mem_cons_of_mem _ List.mem_cons_self)
  have hlo : (BitVec.ofNat 32 fbLegacyBase).toNat = fbLegacyBase := by decide
  have hhi : (BitVec.ofNat 32 (fbLegacyBase + fbSize - 1)).toNat = fbLegacyBase + fbSize - 1 := by
    decide
  simp only [MmioDevice.covers, BitVec.le_def, hlo, hhi] at hnot
  unfold fbByteIndex
  rw [if_neg (by omega), if_neg (by omega)]

/-- A byte read outside the framebuffer windows. -/
theorem vmRead8_of_lt (hidx : fbByteIndex vm.memorySize a = none) (h : a.toNat < vm.memorySize) :
    vmRead8 a vm = .ok (vm.memory a.toNat, vm) := by
  have hram : inRam vm a 1 := h
  simp only [vmRead8, bind_apply, get_apply, hidx, requireRam_of_inRam hram, loadByte_of_lt h]

theorem vmRead8_plain (hdev : vm.mmioDevices = registeredDevices vm.memorySize)
    (h : PlainRam vm a 1) : vmRead8 a vm = .ok (vm.memory a.toNat, vm) :=
  vmRead8_of_lt (fbByteIndex_of_plain hdev h) h.inRam

/-- The lookup asks for the first byte of a word only. -/
theorem vmRead32_ram (hc : CacheCoherent vm) (hram : inRam vm a 4) (hspace : a.toNat + 4 ≤ 2 ^ 32)
    (hno : ∀ dev ∈ vm.mmioDevices, ¬ dev.covers a) (hal : AlignOk vm 4 a) :
    vmRead32 a vm = .ok (BitVec.ofNat 32 (leNat vm.memory a.toNat 4), vm.uncached) := by
  have hin : a.toNat + 4 ≤ vm.memorySize := hram
  have h0 : (a + 0).toNat = a.toNat := by simp
  have hadd : ∀ k, k < 4 → (a + BitVec.ofNat 32 k).toNat = a.toNat + k := by
    intro k hk
    rw [BitVec.toNat_add, BitVec.toNat_ofNat, Nat.mod_eq_of_lt (a := k) (by omega),
      Nat.mod_eq_of_lt (by omega)]
  have hload : ∀ k, k < 4 → loadByte (a.toNat + k) vm.uncached =
      .ok (vm.memory (a.toNat + k), vm.uncached) := fun k hk =>
    loadByte_of_lt (show a.toNat + k < vm.memorySize by omega)
  have hload0 := hload 0 (by omega)
  rw [Nat.add_zero] at hload0
  have h1 : (a + 1).toNat = a.toNat + 1 := hadd 1 (by omega)
  have h2 : (a + 2).toNat = a.toNat + 2 := hadd 2 (by omega)
  have h3 : (a + 3).toNat = a.toNat + 3 := hadd 3 (by omega)
  have hram' : inRam vm.uncached a 4 := hram
  simp only [vmRead32, bind_apply, memcheckAlign_of_alignOk hal, findMmio_of_noDevice hc hno,
    requireRam_of_inRam hram', h0, h1, h2, h3, hload0, hload 1 (by omega), hload 2 (by omega),
    hload 3 (by omega), pure_apply]
  refine congrArg (fun w => Except.ok (w, vm.uncached)) (BitVec.eq_of_toNat_eq ?_)
  have hlt := leNat_lt vm.memory a.toNat 4
  rw [toNat_assemble32, BitVec.toNat_ofNat, Nat.mod_eq_of_lt (by omega)]
  simp only [leNat]
  ring_nf

theorem vmRead32_plain (hc : CacheCoherent vm) (h : PlainRam vm a 4) (hal : AlignOk vm 4 a) :
    vmRead32 a vm = .ok (BitVec.ofNat 32 (leNat vm.memory a.toNat 4), vm.uncached) :=
  vmRead32_ram hc h.inRam h.inSpace (h.noDevice a le_rfl (by omega)) hal

/-- A read of a device register goes to the device. -/
theorem vmRead32_of_covers (hc : CacheCoherent vm) (hal : AlignOk vm 4 a)
    (h : ∃ dev ∈ vm.mmioDevices, dev.covers a) :
    ∃ dev ∈ vm.mmioDevices, dev.covers a ∧ vmRead32 a vm = dev.ops.read32 a (vm.cached dev) := by
  obtain ⟨dev, hmem, hcov, hfind⟩ := findMmio_of_covers hc h
  refine ⟨dev, hmem, hcov, ?_⟩
  have hhit : (vm.cached dev).mmioCacheHit a = some dev := if_pos hcov
  have hagain : findMmio a (vm.cached dev) = .ok (some dev, vm.cached dev) := by
    simp only [findMmio, bind_apply, get_apply, hhit, pure_apply]
  simp only [vmRead32, vmMmioRead32, bind_apply, memcheckAlign_of_alignOk hal, hfind, hagain]

/-- At the default size the device is the one whose window contains the address. -/
theorem vmRead32_window (hc : CacheCoherent vm)
    (hdev : vm.mmioDevices = registeredDevices memSize) {dev : MmioDevice}
    (hmem : dev ∈ registeredDevices memSize) (hcov : dev.covers a) (hal : AlignOk vm 4 a) :
    vmRead32 a vm = dev.ops.read32 a (vm.cached dev) := by
  obtain ⟨dev', hmem', hcov', hread⟩ := vmRead32_of_covers hc hal ⟨dev, hdev ▸ hmem, hcov⟩
  rw [hread, covers_unique hmem (hdev ▸ hmem') hcov hcov']

theorem vmRead64_ram (hc : CacheCoherent vm) (hram : inRam vm a 8) (hspace : a.toNat + 8 ≤ 2 ^ 32)
    (hlo : ∀ dev ∈ vm.mmioDevices, ¬ dev.covers a)
    (hhi : ∀ dev ∈ vm.mmioDevices, ¬ dev.covers (a + 4)) (hal : AlignOk vm 8 a) :
    vmRead64 a vm = .ok (BitVec.ofNat 64 (leNat vm.memory a.toNat 8), vm.uncached) := by
  have hin : a.toNat + 8 ≤ vm.memorySize := hram
  have h4 : (a + 4).toNat = a.toNat + 4 := by
    rw [BitVec.toNat_add, show (4 : BitVec 32).toNat = 4 from rfl, Nat.mod_eq_of_lt (by omega)]
  have hread := vmRead32_ram hc (show a.toNat + 4 ≤ vm.memorySize by omega) (by omega) hlo
    fun hm => by
      have := hal hm
      omega
  have hread' := vmRead32_ram (CacheCoherent.uncached vm) (a := a + 4)
    (show (a + 4).toNat + 4 ≤ vm.memorySize by omega) (by omega) hhi fun hm => by
      have := hal hm
      omega
  simp only [vmRead64, bind_apply, memcheckAlign_of_alignOk hal, hread, hread', pure_apply,
    uncached_uncached, uncached_memory, h4]
  refine congrArg (fun w => Except.ok (w, vm.uncached)) (BitVec.eq_of_toNat_eq ?_)
  have hl := leNat_lt vm.memory a.toNat 4
  have hh := leNat_lt vm.memory (a.toNat + 4) 4
  have hsum : leNat vm.memory a.toNat 8 = _ := leNat_add vm.memory a.toNat 4 4
  rw [toNat_or_shiftLeft _ _ (by rw [BitVec.toNat_setWidth, BitVec.toNat_ofNat]; omega)
    (by decide), BitVec.toNat_setWidth, BitVec.toNat_ofNat, BitVec.toNat_ofNat,
    BitVec.toNat_ofNat]
  omega

theorem vmRead64_plain (hc : CacheCoherent vm) (h : PlainRam vm a 8) (hal : AlignOk vm 8 a) :
    vmRead64 a vm = .ok (BitVec.ofNat 64 (leNat vm.memory a.toNat 8), vm.uncached) := by
  have h4 : (a + 4).toNat = a.toNat + 4 := h.toNat_add (k := 4) (by omega)
  exact vmRead64_ram hc h.inRam h.inSpace (h.noDevice a le_rfl (by omega))
    (h.noDevice (a + 4) (by omega) (by omega)) hal

/-! ## Writes -/

/-- Storing one more byte of a word behind the bytes stored so far. -/
theorem storeByte_leStore (s : Vm) {k i v : ℕ} {b : BitVec 8} (h : a.toNat + k < s.memorySize)
    (hi : i = a.toNat + k) (hb : b = BitVec.ofNat 8 (v / 256 ^ k)) :
    storeByte i b (s.withMemory (leStore s.memory a.toNat k v)) =
      .ok ((), s.withMemory (leStore s.memory a.toNat (k + 1) v)) := by
  subst hi hb
  rw [leStore_succ]
  exact storeByte_of_lt (s.withMemory (leStore s.memory a.toNat k v)) h _

theorem vmWrite8_of_lt (hidx : fbByteIndex vm.memorySize a = none) (h : a.toNat < vm.memorySize)
    (v : BitVec 8) :
    vmWrite8 a v vm = .ok ((), vm.withMemory (leStore vm.memory a.toNat 1 v.toNat)) := by
  have hram : inRam vm a 1 := h
  have hstore := storeByte_leStore vm (a := a) (k := 0) (v := v.toNat) (b := v) h rfl (by simp)
  rw [leStore_zero, withMemory_self] at hstore
  simp only [vmWrite8, bind_apply, get_apply, hidx, requireRam_of_inRam hram]
  exact hstore

theorem vmWrite8_plain (hdev : vm.mmioDevices = registeredDevices vm.memorySize)
    (h : PlainRam vm a 1) (v : BitVec 8) :
    vmWrite8 a v vm = .ok ((), vm.withMemory (leStore vm.memory a.toNat 1 v.toNat)) :=
  vmWrite8_of_lt (fbByteIndex_of_plain hdev h) h.inRam v

theorem vmWrite32_plain (hc : CacheCoherent vm) (h : PlainRam vm a 4) (hal : AlignOk vm 4 a)
    (v : BitVec 32) : vmWrite32 a v vm =
      .ok ((), vm.uncached.withMemory (leStore vm.memory a.toNat 4 v.toNat)) := by
  have hram := h.inRam
  simp only [inRam] at hram
  have hst : ∀ k i, k < 4 → i = a.toNat + k → ∀ b : BitVec 8,
      b = BitVec.ofNat 8 (v.toNat / 256 ^ k) →
      storeByte i b (vm.uncached.withMemory (leStore vm.memory a.toNat k v.toNat)) =
        .ok ((), vm.uncached.withMemory (leStore vm.memory a.toNat (k + 1) v.toNat)) :=
    fun k i hk hi b hb => storeByte_leStore vm.uncached
      (show a.toNat + k < vm.memorySize by omega) hi hb
  have h0 := hst 0 (a + 0).toNat (by omega) (by simp) _ (byte_eq_ofNat (by decide) v 0)
  rw [leStore_zero, show vm.uncached.withMemory vm.memory = vm.uncached from rfl] at h0
  rw [vmWrite32, bind_ok (memcheckAlign_of_alignOk hal),
    bind_ok (findMmio_of_noDevice hc (h.noDevice a le_rfl (by omega)))]
  exact (bind_ok (requireRam_of_inRam h.uncached.inRam)).trans <| (bind_ok h0).trans <|
    (bind_ok (hst 1 _ (by omega) (h.toNat_add (k := 1) (by omega)) _
      (byte_eq_ofNat (by decide) v 8))).trans <|
    (bind_ok (hst 2 _ (by omega) (h.toNat_add (k := 2) (by omega)) _
      (byte_eq_ofNat (by decide) v 16))).trans <|
    hst 3 _ (by omega) (h.toNat_add (k := 3) (by omega)) _ (byte_eq_ofNat (by decide) v 24)

theorem vmWrite64_plain (h : inRam vm a 8) (hs : a.toNat + 8 ≤ 2 ^ 32) (hal : AlignOk vm 8 a)
    (v : BitVec 64) : vmWrite64 a v vm =
      .ok ((), vm.withMemory (leStore vm.memory a.toNat 8 v.toNat)) := by
  have hram := h
  simp only [inRam] at hram
  have hadd : ∀ k, k < 8 → (a + BitVec.ofNat 32 k).toNat = a.toNat + k := by
    intro k hk
    rw [BitVec.toNat_add, BitVec.toNat_ofNat]
    omega
  have hst : ∀ k i, k < 8 → i = a.toNat + k → ∀ b : BitVec 8,
      b = BitVec.ofNat 8 (v.toNat / 256 ^ k) →
      storeByte i b (vm.withMemory (leStore vm.memory a.toNat k v.toNat)) =
        .ok ((), vm.withMemory (leStore vm.memory a.toNat (k + 1) v.toNat)) :=
    fun k i hk hi b hb => storeByte_leStore vm (show a.toNat + k < vm.memorySize by omega) hi hb
  have h0 := hst 0 (a + 0).toNat (by omega) (hadd 0 (by omega)) _ (byte_eq_ofNat (by decide) v 0)
  rw [leStore_zero, withMemory_self] at h0
  have hnext : ∀ k, k < 8 → ∀ s, s = 8 * k →
      storeByte (a + BitVec.ofNat 32 k).toNat ((v >>> s &&& 0xFF).setWidth 8)
        (vm.withMemory (leStore vm.memory a.toNat k v.toNat)) =
        .ok ((), vm.withMemory (leStore vm.memory a.toNat (k + 1) v.toNat)) := by
    rintro k hk s rfl
    refine hst k _ hk (hadd k hk) _ ?_
    rw [byte_eq_ofNat (by decide), pow_mul]
    norm_num
  rw [vmWrite64, bind_ok (memcheckAlign_of_alignOk hal), bind_ok (requireRam_of_inRam h),
    bind_ok h0]
  exact (bind_ok (hnext 1 (by omega) 8 rfl)).trans <|
    (bind_ok (hnext 2 (by omega) 16 rfl)).trans <| (bind_ok (hnext 3 (by omega) 24 rfl)).trans <|
    (bind_ok (hnext 4 (by omega) 32 rfl)).trans <| (bind_ok (hnext 5 (by omega) 40 rfl)).trans <|
    (bind_ok (hnext 6 (by omega) 48 rfl)).trans <| hnext 7 (by omega) 56 rfl

/-! ## Atomic accesses and the instruction fetch -/

theorem atomic32PtrOrPanic_of_noDevice {op : AccessName} (hc : CacheCoherent vm)
    (hram : inRam vm a 4) (hno : ∀ dev ∈ vm.mmioDevices, ¬ dev.covers a) (hal : a.toNat % 4 = 0) :
    atomic32PtrOrPanic op a vm = .ok ((), vm.uncached) := by
  have hal' : ¬ a.toNat % 4 ≠ 0 := not_not.mpr hal
  simp only [atomic32PtrOrPanic, bind_apply, if_neg hal', pure_apply, requireRam_of_inRam hram,
    findMmio_of_noDevice hc hno]

theorem hostLoad32_of_inRam (hram : inRam vm a 4) :
    hostLoad32 a vm = .ok (BitVec.ofNat 32 (leNat vm.memory a.toNat 4), vm) := by
  simp only [inRam] at hram
  simp only [hostLoad32, bind_apply, get_apply, pure_apply,
    checkIndex_of_lt (show a.toNat + 3 < vm.memorySize by omega)]

theorem hostStore32_of_inRam (hram : inRam vm a 4) (v : BitVec 32) :
    hostStore32 a v vm = .ok ((), vm.withMemory (leStore vm.memory a.toNat 4 v.toNat)) := by
  simp only [inRam] at hram
  simp only [hostStore32, bind_apply, get_apply, pure_apply, set_apply,
    checkIndex_of_lt (show a.toNat + 3 < vm.memorySize by omega)]
  rfl

end LampVm
