import LampVm.Safety

/-!
# Boot information

The system information registers of the machine, the copy that the BIOS leaves in
memory and the structure that the kernel reads from it each have their own table of
offsets. The loads and stores of the guest are the access functions of the machine.
-/
namespace LampVm

open ByteOrder Contract Transition

/-! ## The code -/

abbrev sysinfoMmioBase : BitVec 32 := 0x0074C000
abbrev sysinfoMagic : BitVec 32 := 0x31494D56
abbrev sysinfoCopyStart : BitVec 32 := 0x04
abbrev sysinfoCopyEnd : BitVec 32 := 0x58
abbrev bootinfoAddr : BitVec 32 := 0x002FF000
abbrev bootinfoMagic : BitVec 32 := 0x3049424C
abbrev bootinfoVersion : BitVec 32 := 2
abbrev bootinfoSize : BitVec 32 := 0x64

/-- The loop of `bios_publish_boot_info`. -/
def copySysinfo (sysinfoOff bootinfoOff : BitVec 32) : VmM Unit :=
  if h : sysinfoOff ≤ sysinfoCopyEnd then do
    let word ← vmRead32 (sysinfoMmioBase + sysinfoOff)
    vmWrite32 (bootinfoAddr + bootinfoOff) word
    copySysinfo (sysinfoOff + 4) (bootinfoOff + 4)
  else pure ()
termination_by 0x5C - sysinfoOff.toNat
decreasing_by
  have hle : sysinfoOff.toNat ≤ 0x58 := h
  have hadd : (sysinfoOff + 4).toNat = sysinfoOff.toNat + 4 := by
    rw [BitVec.toNat_add]
    exact Nat.mod_eq_of_lt (by change sysinfoOff.toNat + 4 < 2 ^ 32; omega)
  omega

def biosPublishBootInfo : VmM Unit := do
  let magic ← vmRead32 (sysinfoMmioBase + 0x00)
  if magic ≠ sysinfoMagic then vmWrite32 (bootinfoAddr + 0x00) 0
  else do
    vmWrite32 (bootinfoAddr + 0x00) bootinfoMagic
    vmWrite32 (bootinfoAddr + 0x04) bootinfoVersion
    vmWrite32 (bootinfoAddr + 0x08) bootinfoSize
    copySysinfo sysinfoCopyStart 0x0C

structure BootInfo where
  magic : BitVec 32
  version : BitVec 32
  size : BitVec 32
  vendorWords : List (BitVec 32)
  memBytesLo : BitVec 32
  memBytesHi : BitVec 32
  diskBytesLo : BitVec 32
  diskBytesHi : BitVec 32
  smpCores : BitVec 32
  layoutVersion : BitVec 32
  archId : BitVec 32
  endian : BitVec 32
  physAddrBits : BitVec 32
  pageSize : BitVec 32
  timerFreqHz : BitVec 32
  features : BitVec 32
  fbWidth : BitVec 32
  fbHeight : BitVec 32
  fbBpp : BitVec 32
  fbStrideBytes : BitVec 32
  bootRealtimeNsLo : BitVec 32
  bootRealtimeNsHi : BitVec 32
  deriving DecidableEq, Repr

/-- The kernel's function: its return value, and the structure behind `out`. -/
def vmInfoLoadBoot (out : BootInfo) : VmM (Bool × BootInfo) := do
  let magic ← vmRead32 (bootinfoAddr + 0x00)
  let version ← vmRead32 (bootinfoAddr + 0x04)
  let size ← vmRead32 (bootinfoAddr + 0x08)
  if magic ≠ bootinfoMagic ∨ version ≠ bootinfoVersion ∨ size < bootinfoSize then
    pure (false, { out with magic := magic, version := version, size := size })
  else do
    let vendorWords ← (List.range 4).mapM fun i =>
      vmRead32 (bootinfoAddr + 0x0C + BitVec.ofNat 32 (i * 4))
    let memBytesLo ← vmRead32 (bootinfoAddr + 0x1C)
    let memBytesHi ← vmRead32 (bootinfoAddr + 0x20)
    let diskBytesLo ← vmRead32 (bootinfoAddr + 0x24)
    let diskBytesHi ← vmRead32 (bootinfoAddr + 0x28)
    let smpCores ← vmRead32 (bootinfoAddr + 0x2C)
    let layoutVersion ← vmRead32 (bootinfoAddr + 0x30)
    let archId ← vmRead32 (bootinfoAddr + 0x34)
    let endian ← vmRead32 (bootinfoAddr + 0x38)
    let physAddrBits ← vmRead32 (bootinfoAddr + 0x3C)
    let pageSize ← vmRead32 (bootinfoAddr + 0x40)
    let timerFreqHz ← vmRead32 (bootinfoAddr + 0x44)
    let features ← vmRead32 (bootinfoAddr + 0x48)
    let fbWidth ← vmRead32 (bootinfoAddr + 0x4C)
    let fbHeight ← vmRead32 (bootinfoAddr + 0x50)
    let fbBpp ← vmRead32 (bootinfoAddr + 0x54)
    let fbStrideBytes ← vmRead32 (bootinfoAddr + 0x58)
    let bootRealtimeNsLo ← vmRead32 (bootinfoAddr + 0x5C)
    let bootRealtimeNsHi ← vmRead32 (bootinfoAddr + 0x60)
    pure (true, ⟨magic, version, size, vendorWords, memBytesLo, memBytesHi, diskBytesLo,
      diskBytesHi, smpCores, layoutVersion, archId, endian, physAddrBits, pageSize, timerFreqHz,
      features, fbWidth, fbHeight, fbBpp, fbStrideBytes, bootRealtimeNsLo, bootRealtimeNsHi⟩)

/-! ## What the machine holds -/

/-- The boot information that describes a machine. -/
def Vm.bootInfo (vm : Vm) : BootInfo where
  magic := bootinfoMagic
  version := bootinfoVersion
  size := bootinfoSize
  vendorWords := (List.range 4).map vm.sysinfoVendorWords
  memBytesLo := BitVec.ofNat 32 vm.memorySize
  memBytesHi := BitVec.ofNat 32 (vm.memorySize / 2 ^ 32)
  diskBytesLo := vm.diskSizeBytes.extractLsb' 0 32
  diskBytesHi := vm.diskSizeBytes.extractLsb' 32 32
  smpCores := BitVec.ofNat 32 vm.smpCores
  layoutVersion := 2
  archId := 1
  endian := 1
  physAddrBits := 32
  pageSize := 4096
  timerFreqHz := 1000000000
  features := sysinfoFeatureBits vm
  fbWidth := BitVec.ofNat 32 LampVm.fbWidth
  fbHeight := BitVec.ofNat 32 LampVm.fbHeight
  fbBpp := 4
  fbStrideBytes := BitVec.ofNat 32 (LampVm.fbWidth * 4)
  bootRealtimeNsLo := vm.startRealtimeNs.extractLsb' 0 32
  bootRealtimeNsHi := vm.startRealtimeNs.extractLsb' 32 32

/-- The structure as the words of its block. -/
def BootInfo.words (info : BootInfo) : List (BitVec 32) :=
  [info.magic, info.version, info.size] ++ info.vendorWords ++
    [info.memBytesLo, info.memBytesHi, info.diskBytesLo, info.diskBytesHi, info.smpCores,
      info.layoutVersion, info.archId, info.endian, info.physAddrBits, info.pageSize,
      info.timerFreqHz, info.features, info.fbWidth, info.fbHeight, info.fbBpp,
      info.fbStrideBytes, info.bootRealtimeNsLo, info.bootRealtimeNsHi]

abbrev bootWords : ℕ := 25

/-! ## Register reads -/

/-- `s` is `vm` up to the lookup cache and the bytes of the block. -/
structure BootFrame (vm s : Vm) : Prop where
  rest : s = { vm with
    memory := s.memory
    mmioCacheDev := s.mmioCacheDev
    mmioCacheStart := s.mmioCacheStart
    mmioCacheEnd := s.mmioCacheEnd }
  cache : CacheCoherent s
  outside : ∀ a, a < bootinfoAddr.toNat ∨ bootinfoAddr.toNat + 4 * bootWords ≤ a →
    s.memory a = vm.memory a

/-- A machine of the default size with its devices registered. -/
structure DefaultDevices (vm : Vm) : Prop where
  memorySize : vm.memorySize = memSize
  devices : vm.mmioDevices = registeredDevices memSize

variable {vm s : Vm} {a : BitVec 32}

theorem BootFrame.defaultDevices (hf : BootFrame vm s) (hv : DefaultDevices vm) :
    DefaultDevices s := by
  rw [hf.rest]
  exact ⟨hv.memorySize, hv.devices⟩

def sysinfoDevice : MmioDevice :=
  ⟨BitVec.ofNat 32 sysinfoBase, BitVec.ofNat 32 (sysinfoBase + sysinfoSize - 1), .sysinfo⟩

theorem sysinfoDevice_mem : sysinfoDevice ∈ registeredDevices memSize := by
  simp [registeredDevices, sysinfoDevice]

/-- A lookup that finds the device changes the cache only. -/
theorem BootFrame.cached (hf : BootFrame vm s) {dev : MmioDevice} (hmem : dev ∈ s.mmioDevices) :
    BootFrame vm (s.cached dev) :=
  ⟨congrArg (fun v : Vm => v.cached dev) hf.rest, .cached hmem, hf.outside⟩

theorem BootFrame.bootInfo_eq (hf : BootFrame vm s) : s.bootInfo = vm.bootInfo := by
  rw [hf.rest]
  rfl

/-- Register `i` behind the magic number is word `3 + i` of the boot information. -/
theorem sysinfoRead32_eq (s : Vm) {i : ℕ} (hi : i < 22) :
    sysinfoRead32 (sysinfoMmioBase + BitVec.ofNat 32 (4 + 4 * i)) s =
      .ok (s.bootInfo.words.getD (3 + i) 0, s) := by
  interval_cases i <;> rfl

theorem sysinfoRead32_magic (s : Vm) : sysinfoRead32 (sysinfoMmioBase + 0x00) s =
    .ok (sysinfoMagic, s) := rfl

theorem toNat_sysinfoMmioBase_add {k : ℕ} (hk : k < 2 ^ 16) :
    (sysinfoMmioBase + BitVec.ofNat 32 k).toNat = sysinfoBase + k := by
  have hbase : sysinfoBase = 0x74C000 := rfl
  have hto : sysinfoMmioBase.toNat = 0x74C000 := rfl
  rw [BitVec.toNat_add, BitVec.toNat_ofNat, hto]
  omega

/-- A load from a register goes to the device, and only the lookup cache changes. -/
theorem vmRead32_sysinfo (hv : DefaultDevices vm) (hf : BootFrame vm s) {k : ℕ} (hk : k < 0x5C)
    (halign : k % 4 = 0) {w : BitVec 32}
    (hreg : ∀ t, BootFrame vm t → sysinfoRead32 (sysinfoMmioBase + BitVec.ofNat 32 k) t =
      .ok (w, t)) :
    ∃ t, vmRead32 (sysinfoMmioBase + BitVec.ofNat 32 k) s = .ok (w, t) ∧ BootFrame vm t ∧
      t.memory = s.memory := by
  have hbase : sysinfoBase = 0x74C000 ∧ sysinfoSize = 0x5C := ⟨rfl, rfl⟩
  have hto := toNat_sysinfoMmioBase_add (show k < 2 ^ 16 by omega)
  have hdevices := (hf.defaultDevices hv).devices
  have hframe := hf.cached (hdevices ▸ sysinfoDevice_mem)
  have hcov : sysinfoDevice.covers (sysinfoMmioBase + BitVec.ofNat 32 k) := by
    rw [sysinfoDevice, covers_window (by omega), hto]
    omega
  refine ⟨_, ?_, hframe, rfl⟩
  rw [vmRead32_window hf.cache hdevices sysinfoDevice_mem hcov fun _ => by omega]
  exact hreg _ hframe

/-! ## The block -/

/-- The first `n` words of the block are those of the boot information. -/
def Published (info : BootInfo) (s : Vm) (n : ℕ) : Prop :=
  ∀ j, j < n → leNat s.memory (bootinfoAddr.toNat + 4 * j) 4 = (info.words.getD j 0).toNat

theorem toNat_bootinfoAddr_add {k : ℕ} (hk : k < 2 ^ 16) :
    (bootinfoAddr + BitVec.ofNat 32 k).toNat = bootinfoAddr.toNat + k := by
  have hto : bootinfoAddr.toNat = 0x2FF000 := rfl
  rw [BitVec.toNat_add, BitVec.toNat_ofNat, hto]
  omega

theorem plainRam_block (hv : DefaultDevices s) {k : ℕ} (hk : k + 4 ≤ 4 * bootWords) :
    PlainRam s (bootinfoAddr + BitVec.ofNat 32 k) 4 := by
  have hwords : bootWords = 25 := rfl
  have hto := toNat_bootinfoAddr_add (show k < 2 ^ 16 by omega)
  have hbase : bootinfoAddr.toNat = 0x2FF000 := rfl
  have hmem : memSize = 67108864 := rfl
  have htime : timeBase = 0x2000 ∧ timeSize = 24 := ⟨rfl, rfl⟩
  have hfb : fbLegacyBase = 0x620000 := rfl
  refine plainRam_of_outsideWindows hv.memorySize hv.devices (by omega) ?_
  unfold OutsideWindows
  omega

theorem alignOk_block {k : ℕ} (hk : k < 2 ^ 16) (halign : k % 4 = 0) :
    AlignOk s 4 (bootinfoAddr + BitVec.ofNat 32 k) := by
  intro _
  have hbase : bootinfoAddr.toNat = 0x2FF000 := rfl
  rw [toNat_bootinfoAddr_add hk]
  omega

/-- Storing the next word of the block. -/
theorem vmWrite32_block (hv : DefaultDevices vm) (hf : BootFrame vm s) {info : BootInfo} {n : ℕ}
    (hn : n < bootWords) (hpub : Published info s n) :
    ∃ t, vmWrite32 (bootinfoAddr + BitVec.ofNat 32 (4 * n)) (info.words.getD n 0) s = .ok ((), t) ∧
      BootFrame vm t ∧ Published info t (n + 1) := by
  have hwords : bootWords = 25 := rfl
  have hto := toNat_bootinfoAddr_add (show 4 * n < 2 ^ 16 by omega)
  refine ⟨_, vmWrite32_plain hf.cache (plainRam_block (hf.defaultDevices hv) (by omega))
    (alignOk_block (by omega) (by omega)) _, ⟨?_, ?_, ?_⟩, ?_⟩
  · exact congrArg (fun v : Vm => v.uncached.withMemory (leStore s.memory
      (bootinfoAddr + BitVec.ofNat 32 (4 * n)).toNat 4 (info.words.getD n 0).toNat)) hf.rest
  · intro dev hd
    cases hd
  · intro x hx
    rw [← hf.outside x hx, withMemory_memory, hto]
    exact leStore_of_not_mem (by omega)
  · intro j hj
    rw [withMemory_memory, hto]
    by_cases hjn : j = n
    · have hlt : (info.words.getD n 0).toNat < 256 ^ 4 := (info.words.getD n 0).isLt
      rw [hjn, leNat_leStore, Nat.mod_eq_of_lt hlt]
    · rw [leNat_leStore_of_disjoint (by omega)]
      exact hpub j (by omega)

theorem vmRead32_block (hv : DefaultDevices s) (hc : CacheCoherent s) {info : BootInfo}
    (hpub : Published info s bootWords) {n : ℕ} (hn : n < bootWords) :
    vmRead32 (bootinfoAddr + BitVec.ofNat 32 (4 * n)) s =
      .ok (info.words.getD n 0, s.uncached) := by
  have hwords : bootWords = 25 := rfl
  rw [vmRead32_plain hc (plainRam_block hv (by omega)) (alignOk_block (by omega) (by omega)),
    toNat_bootinfoAddr_add (by omega), hpub n hn, BitVec.ofNat_toNat, BitVec.setWidth_eq]

/-! ## Publishing -/

/-- The loop from its pass `i` on completes the block. -/
theorem copySysinfo_spec (hv : DefaultDevices vm) {i : ℕ} (hi : i ≤ 22) {s : Vm}
    (hf : BootFrame vm s) (hpub : Published vm.bootInfo s (3 + i)) :
    ∃ t, copySysinfo (BitVec.ofNat 32 (4 + 4 * i)) (BitVec.ofNat 32 (4 * (3 + i))) s =
        .ok ((), t) ∧ BootFrame vm t ∧ Published vm.bootInfo t bootWords := by
  have hwords : bootWords = 25 := rfl
  have hto : (BitVec.ofNat 32 (4 + 4 * i)).toNat = 4 + 4 * i := by
    rw [BitVec.toNat_ofNat, Nat.mod_eq_of_lt (by omega)]
  have hend : sysinfoCopyEnd.toNat = 0x58 := rfl
  rw [copySysinfo]
  by_cases hlast : i = 22
  · rw [dif_neg (by rw [BitVec.le_def, hto, hend]; omega)]
    refine ⟨s, rfl, hf, ?_⟩
    rwa [hlast] at hpub
  · rw [dif_pos (by rw [BitVec.le_def, hto, hend]; omega)]
    obtain ⟨t, ht, hft, hmt⟩ := vmRead32_sysinfo hv hf (k := 4 + 4 * i)
      (w := vm.bootInfo.words.getD (3 + i) 0) (by omega) (by omega) fun u hu => by
        rw [← hu.bootInfo_eq]
        exact sysinfoRead32_eq u (by omega)
    have hpubt : Published vm.bootInfo t (3 + i) := by
      intro j hj
      rw [hmt]
      exact hpub j hj
    obtain ⟨u, hu, hfu, hpubu⟩ := vmWrite32_block hv hft (by omega) hpubt
    obtain ⟨r, hr, hfr, hpubr⟩ := copySysinfo_spec hv (show i + 1 ≤ 22 by omega) hfu
      (show Published vm.bootInfo u (3 + (i + 1)) from hpubu)
    refine ⟨r, ?_, hfr, hpubr⟩
    have hsys : (BitVec.ofNat 32 (4 + 4 * i)) + 4 = BitVec.ofNat 32 (4 + 4 * (i + 1)) :=
      (BitVec.ofNat_add _ _).symm
    have hboot : (BitVec.ofNat 32 (4 * (3 + i))) + 4 = BitVec.ofNat 32 (4 * (3 + (i + 1))) :=
      (BitVec.ofNat_add _ _).symm
    rw [bind_ok ht, bind_ok hu, hsys, hboot]
    exact hr
termination_by 22 - i

/-- Publishing completes the block and changes nothing else but the lookup cache. -/
theorem biosPublishBootInfo_spec (hv : DefaultDevices vm) (hc : CacheCoherent vm) :
    ∃ t, biosPublishBootInfo vm = .ok ((), t) ∧ BootFrame vm t ∧
      Published vm.bootInfo t bootWords := by
  have hself : BootFrame vm vm := ⟨rfl, hc, fun _ _ => rfl⟩
  obtain ⟨s, hs, hfs, -⟩ := vmRead32_sysinfo hv hself (k := 0) (w := sysinfoMagic) (by decide)
    (by decide) fun u _ => sysinfoRead32_magic u
  have hnone : Published vm.bootInfo s 0 := fun j hj => absurd hj (Nat.not_lt_zero j)
  obtain ⟨s0, h0, hf0, hp0⟩ := vmWrite32_block hv hfs (by decide) hnone
  obtain ⟨s1, h1, hf1, hp1⟩ := vmWrite32_block hv hf0 (by decide) hp0
  obtain ⟨s2, h2, hf2, hp2⟩ := vmWrite32_block hv hf1 (by decide) hp1
  obtain ⟨t, ht, hft, hpt⟩ := copySysinfo_spec hv (Nat.zero_le 22) hf2 hp2
  refine ⟨t, ?_, hft, hpt⟩
  rw [biosPublishBootInfo]
  refine (bind_ok hs).trans ?_
  rw [if_neg (by simp)]
  exact (bind_ok h0).trans <| (bind_ok h1).trans <| (bind_ok h2).trans ht

/-! ## Loading -/

/-- The loop over the vendor string reads four words of the block. -/
theorem readVendor_run (hread : ∀ n < bootWords,
      vmRead32 (bootinfoAddr + BitVec.ofNat 32 (4 * n)) s =
        .ok (vm.bootInfo.words.getD n 0, s)) :
    ((List.range 4).mapM fun i =>
      vmRead32 (bootinfoAddr + 0x0C + BitVec.ofNat 32 (i * 4)) : VmM (List (BitVec 32))) s =
        .ok (vm.bootInfo.vendorWords, s) := by
  have h0 : vmRead32 (bootinfoAddr + 0x0C + BitVec.ofNat 32 (0 * 4)) s = _ :=
    hread 3 (by decide)
  have h1 : vmRead32 (bootinfoAddr + 0x0C + BitVec.ofNat 32 (1 * 4)) s = _ :=
    hread 4 (by decide)
  have h2 : vmRead32 (bootinfoAddr + 0x0C + BitVec.ofNat 32 (2 * 4)) s = _ :=
    hread 5 (by decide)
  have h3 : vmRead32 (bootinfoAddr + 0x0C + BitVec.ofNat 32 (3 * 4)) s = _ :=
    hread 6 (by decide)
  have hrange : List.range 4 = [0, 1, 2, 3] := rfl
  simp only [hrange, List.mapM_cons, List.mapM_nil, bind_apply, pure_apply, h0, h1, h2, h3]
  rfl

/-- The kernel reads the boot information of the machine that published it. -/
theorem vmInfoLoadBoot_spec (hv : DefaultDevices s) (hc : CacheCoherent s)
    (hpub : Published vm.bootInfo s bootWords) (out : BootInfo) :
    vmInfoLoadBoot out s = .ok ((true, vm.bootInfo), s.uncached) := by
  have hfirst : vmRead32 (bootinfoAddr + 0x00) s = .ok (bootinfoMagic, s.uncached) :=
    vmRead32_block hv hc hpub (n := 0) (by decide)
  have hread {n : ℕ} (hn : n < bootWords) :
      vmRead32 (bootinfoAddr + BitVec.ofNat 32 (4 * n)) s.uncached =
        .ok (vm.bootInfo.words.getD n 0, s.uncached) :=
    vmRead32_block (s := s.uncached) ⟨hv.memorySize, hv.devices⟩ (CacheCoherent.uncached s)
      hpub hn
  have hvendor := readVendor_run fun n hn => hread hn
  have hversion : vmRead32 (bootinfoAddr + 0x04) s.uncached = .ok (bootinfoVersion, s.uncached) :=
    hread (n := 1) (by decide)
  have hsize : vmRead32 (bootinfoAddr + 0x08) s.uncached = .ok (bootinfoSize, s.uncached) :=
    hread (n := 2) (by decide)
  rw [vmInfoLoadBoot]
  refine (bind_ok hfirst).trans <| (bind_ok hversion).trans <| (bind_ok hsize).trans ?_
  rw [if_neg (by decide)]
  exact (bind_ok hvendor).trans <| (bind_ok (hread (n := 7) (by decide))).trans <|
    (bind_ok (hread (n := 8) (by decide))).trans <|
    (bind_ok (hread (n := 9) (by decide))).trans <|
    (bind_ok (hread (n := 10) (by decide))).trans <|
    (bind_ok (hread (n := 11) (by decide))).trans <|
    (bind_ok (hread (n := 12) (by decide))).trans <|
    (bind_ok (hread (n := 13) (by decide))).trans <|
    (bind_ok (hread (n := 14) (by decide))).trans <|
    (bind_ok (hread (n := 15) (by decide))).trans <|
    (bind_ok (hread (n := 16) (by decide))).trans <|
    (bind_ok (hread (n := 17) (by decide))).trans <|
    (bind_ok (hread (n := 18) (by decide))).trans <|
    (bind_ok (hread (n := 19) (by decide))).trans <|
    (bind_ok (hread (n := 20) (by decide))).trans <|
    (bind_ok (hread (n := 21) (by decide))).trans <|
    (bind_ok (hread (n := 22) (by decide))).trans <|
    (bind_ok (hread (n := 23) (by decide))).trans <|
    (bind_ok (hread (n := 24) (by decide))).trans rfl

/-! ## The handoff -/

/-- The block is untouched between `s` and `t`. -/
def SameBlock (s t : Vm) : Prop :=
  ∀ a, bootinfoAddr.toNat ≤ a → a < bootinfoAddr.toNat + 4 * bootWords → t.memory a = s.memory a

theorem Published.congr {info : BootInfo} {t : Vm} (h : Published info s bootWords)
    (hst : SameBlock s t) : Published info t bootWords := by
  intro j hj
  rw [← h j hj]
  exact leNat_congr fun x h1 h2 => hst x (by omega) (by omega)

/-- A machine with another disk, other vendor words and another time of boot. -/
def Vm.withBootValues (vm : Vm) (disk realtime : BitVec 64) (vendor : ℕ → BitVec 32) : Vm :=
  { vm with diskSizeBytes := disk, startRealtimeNs := realtime, sysinfoVendorWords := vendor }

/-- Whatever a running machine of the default size holds, the kernel finds the same in
the block that the BIOS published, at once and as long as the block is untouched. -/
theorem vmInfoLoadBoot_published {smpCores : ℤ} {vm₀ : Vm}
    (h : Reachable (machine memSize smpCores) vm₀) (disk realtime : BitVec 64)
    (vendor : ℕ → BitVec 32) (out : BootInfo) :
    ∃ s, biosPublishBootInfo (vm₀.withBootValues disk realtime vendor) = .ok ((), s) ∧
      (∃ s', vmInfoLoadBoot out s =
        .ok ((true, (vm₀.withBootValues disk realtime vendor).bootInfo), s')) ∧
      ∀ t, DefaultDevices t → CacheCoherent t → SameBlock s t →
        ∃ t', vmInfoLoadBoot out t =
          .ok ((true, (vm₀.withBootValues disk realtime vendor).bootInfo), t') := by
  have hinv := reachable_inv h
  have hv : DefaultDevices (vm₀.withBootValues disk realtime vendor) :=
    ⟨hinv.memorySize, hinv.devices⟩
  obtain ⟨s, hs, hf, hpub⟩ := biosPublishBootInfo_spec hv hinv.cache
  refine ⟨s, hs, ⟨_, vmInfoLoadBoot_spec (hf.defaultDevices hv) hf.cache hpub out⟩, ?_⟩
  intro t ht hct hblock
  exact ⟨_, vmInfoLoadBoot_spec ht hct (hpub.congr hblock) out⟩

theorem vmInfoLoadBoot_published_default : ∃ vm s s',
    biosPublishBootInfo vm = .ok ((), s) ∧
      vmInfoLoadBoot vm.bootInfo s = .ok ((true, vm.bootInfo), s') ∧
      vm.bootInfo.diskBytesHi = 0x01234567 := by
  obtain ⟨vm, hvm⟩ := boot_default
  obtain ⟨s, hs, ⟨s', hs'⟩, -⟩ := vmInfoLoadBoot_published (.of_init hvm) 0x0123456789ABCDEF 1
    (fun i => BitVec.ofNat 32 i)
    (vm.withBootValues 0x0123456789ABCDEF 1 fun i => BitVec.ofNat 32 i).bootInfo
  have hdisk : (0x0123456789ABCDEF : BitVec 64).extractLsb' 32 32 = 0x01234567 := by decide
  exact ⟨_, s, s', hs, hs', hdisk⟩

end LampVm
