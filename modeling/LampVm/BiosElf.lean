import LampVm.BlockMove
import LampVm.DiskDma

/-!
# The ELF loader of the BIOS

`bios.c` reads eight sectors of the kernel's file into a buffer, sizes the file by the program
headers that it finds there, reads that many sectors and copies the segments to their places. The
headers are read from guest memory wherever the source reads them, before the file is complete and
after segments have been copied.
-/
namespace LampVm

open ByteOrder Contract ForwardCopy

/-! ## The code -/

abbrev kernelLba : BitVec 32 := 1
abbrev kernelElfBuf : BitVec 32 := 0x00300000
abbrev kernelElfMax : BitVec 32 := 512 * 1024

abbrev etExec : BitVec 16 := 2
abbrev ptLoad : BitVec 32 := 1

/-- `e_ident` up to the byte order, for 32 bits and little-endian. -/
def elfIdent : List (BitVec 8) := [0x7F, 0x45, 0x4C, 0x46, 1, 1]

/-! Offsets in `Elf32_Ehdr` and `Elf32_Phdr`. -/

abbrev eType : BitVec 32 := 16
abbrev eEntry : BitVec 32 := 24
abbrev ePhoff : BitVec 32 := 28
abbrev ePhentsize : BitVec 32 := 42
abbrev ePhnum : BitVec 32 := 44
abbrev pType : BitVec 32 := 0
abbrev pOffset : BitVec 32 := 4
abbrev pVaddr : BitVec 32 := 8
abbrev pPaddr : BitVec 32 := 12
abbrev pFilesz : BitVec 32 := 16
abbrev pMemsz : BitVec 32 := 20
abbrev phdrSize : ℕ := 32

/-- `disk_read_sectors`. The BIOS spins until the handler of the completion interrupt has set
`disk_done`; until then the worker serves the command and the tick reports it. -/
def diskReadSectors (host : BounceBuffer) (lba count memAddr : BitVec 32) : VmM Unit := do
  acceptIo portDiskLba lba
  acceptIo portDiskMem memAddr
  acceptIo portDiskCount count
  acceptIo portDiskCmd diskCmdRead
  diskWorkerPass host
  diskTick

/-- The load of a `uint16_t`. -/
def readHalf (addr : BitVec 32) : VmM (BitVec 16) := do
  let lo ← vmRead8 addr
  let hi ← vmRead8 (addr + 1)
  pure (hi ++ lo)

/-- The bytes at an address are the ones of a list. -/
def bytesMatch : BitVec 32 → List (BitVec 8) → VmM Bool
  | _, [] => pure true
  | addr, b :: bs => do
    let v ← vmRead8 addr
    if v = b then bytesMatch (addr + 1) bs else pure false

def elfValidate (eh : BitVec 32) : VmM Bool := do
  let ident ← bytesMatch eh elfIdent
  if ident then do
    let type ← readHalf (eh + eType)
    pure (type = etExec)
  else pure false

/-- The loop of `elf_file_size` from header `i` on. The counter and `e_phnum` have 16 bits, so
`2 ^ 16` tests are enough. -/
def segmentsEnd (eh ph : BitVec 32) : ℕ → ℕ → BitVec 32 → VmM (BitVec 32)
  | 0, _, maxEnd => pure maxEnd
  | n + 1, i, maxEnd => do
    let phnum ← readHalf (eh + ePhnum)
    if i < phnum.toNat then do
      let p := ph + BitVec.ofNat 32 (i * phdrSize)
      let type ← vmRead32 (p + pType)
      if type ≠ ptLoad then segmentsEnd eh ph n (i + 1) maxEnd
      else do
        let offset ← vmRead32 (p + pOffset)
        let filesz ← vmRead32 (p + pFilesz)
        let stop := offset + filesz
        segmentsEnd eh ph n (i + 1) (if stop > maxEnd then stop else maxEnd)
    else pure maxEnd

def elfFileSize (eh : BitVec 32) : VmM (BitVec 32) := do
  let phoff ← vmRead32 (eh + ePhoff)
  let maxEnd ← segmentsEnd eh (eh + phoff) (2 ^ 16) 0 0
  let phoff ← vmRead32 (eh + ePhoff)
  let phentsize ← readHalf (eh + ePhentsize)
  let phnum ← readHalf (eh + ePhnum)
  let hdrEnd := phoff + phentsize.setWidth 32 * phnum.setWidth 32
  pure (if hdrEnd > maxEnd then hdrEnd else maxEnd)

def memcpy8 (dst src n : BitVec 32) : VmM Unit := memcpyLoop dst src n.toNat 0
def memset8 (dst : BitVec 32) (v : BitVec 8) (n : BitVec 32) : VmM Unit :=
  memsetLoop dst v n.toNat 0

/-- `dst_addr` of the segment whose header is at `p`. -/
def segmentDst (p : BitVec 32) : VmM (BitVec 32) := do
  let paddr ← vmRead32 (p + pPaddr)
  if paddr ≠ 0 then pure paddr else vmRead32 (p + pVaddr)

def copySegment (eh p dst : BitVec 32) : VmM Unit := do
  let offset ← vmRead32 (p + pOffset)
  let filesz ← vmRead32 (p + pFilesz)
  if filesz ≠ 0 then memcpy8 dst (eh + offset) filesz else pure ()

def clearTail (p dst : BitVec 32) : VmM Unit := do
  let memsz ← vmRead32 (p + pMemsz)
  let filesz ← vmRead32 (p + pFilesz)
  if memsz > filesz then memset8 (dst + filesz) 0 (memsz - filesz) else pure ()

/-- One pass of the loop over the segments, with its header at `p`. -/
def loadSegment (eh p : BitVec 32) : VmM Unit := do
  let type ← vmRead32 (p + pType)
  if type ≠ ptLoad then pure ()
  else do
    let dst ← segmentDst p
    copySegment eh p dst
    clearTail p dst

def loadSegments (eh ph : BitVec 32) : ℕ → ℕ → VmM Unit
  | 0, _ => pure ()
  | n + 1, i => do
    let phnum ← readHalf (eh + ePhnum)
    if i < phnum.toNat then do
      loadSegment eh (ph + BitVec.ofNat 32 (i * phdrSize))
      loadSegments eh ph n (i + 1)
    else pure ()

/-- `elf_load_and_jump` up to the jump, with the host's buffers for the two reads. There is no
result when the BIOS halts. -/
def elfLoadAndJump (first second : BounceBuffer) : VmM (Option (BitVec 32)) := do
  diskReadSectors first kernelLba 8 kernelElfBuf
  let valid ← elfValidate kernelElfBuf
  if ¬ valid then pure none
  else do
    let fileSize ← elfFileSize kernelElfBuf
    if fileSize = 0 ∨ fileSize > kernelElfMax then pure none
    else do
      let totalSectors := (fileSize + 511) / 512
      diskReadSectors second kernelLba totalSectors kernelElfBuf
      let phoff ← vmRead32 (kernelElfBuf + ePhoff)
      loadSegments kernelElfBuf (kernelElfBuf + phoff) (2 ^ 16) 0
      let entry ← vmRead32 (kernelElfBuf + eEntry)
      pure (some entry)

/-! ## The state of the loader -/

/-- A disk that accepts the next command. -/
structure Disk.Idle (d : Disk) : Prop where
  free : d.status = .free
  running : d.threadRunning = true

/-- The default machine with its disk at rest, and the bytes of its memory. -/
structure LoaderState (image : DiskImage) (d : Disk) (m : Bytes) (s : Vm) : Prop where
  memory : s.memory = m
  memorySize : s.memorySize = memSize
  devices : s.mmioDevices = registeredDevices memSize
  cache : CacheCoherent s
  image : s.diskImage = image
  disk : s.disk = d
  worker : s.diskWorker = .waiting

/-- The part of the state that memory accesses depend on. -/
def Vm.loaderView (vm : Vm) : Bytes × ℕ × List MmioDevice × Option MmioDevice × BitVec 32 ×
    BitVec 32 × DiskImage :=
  (vm.memory, vm.memorySize, vm.mmioDevices, vm.mmioCacheDev, vm.mmioCacheStart, vm.mmioCacheEnd,
    vm.diskImage)

/-- A range of RAM without a device window in it. -/
def InRam (a n : ℕ) : Prop := a + n ≤ memSize ∧ OutsideWindows a n

instance (a n : ℕ) : Decidable (InRam a n) := inferInstanceAs (Decidable (_ ∧ _))

theorem InRam.sub {a n b k : ℕ} (h : InRam a n) (hb : a ≤ b) (hk : b + k ≤ a + n) : InRam b k := by
  obtain ⟨hle, hout⟩ := h
  refine ⟨by omega, ?_⟩
  unfold OutsideWindows at hout ⊢
  omega

def half (m : Bytes) (a : ℕ) : BitVec 16 := BitVec.ofNat 16 (leNat m a 2)
def word (m : Bytes) (a : ℕ) : BitVec 32 := BitVec.ofNat 32 (leNat m a 4)

section Reads

variable {image : DiskImage} {d : Disk} {m : Bytes} {s t : Vm} {a : BitVec 32} {n : ℕ}

theorem LoaderState.plainRam (hs : LoaderState image d m s) (h : InRam a.toNat n) :
    PlainRam s a n :=
  plainRam_of_outsideWindows hs.memorySize hs.devices h.1 h.2

theorem LoaderState.registered (hs : LoaderState image d m s) :
    s.mmioDevices = registeredDevices s.memorySize := by
  rw [hs.devices, hs.memorySize]

theorem LoaderState.congr (hs : LoaderState image d m s) {d' : Disk}
    (hview : t.loaderView = s.loaderView) (hdisk : t.disk = d') (hworker : t.diskWorker = .waiting) :
    LoaderState image d' m t := by
  simp only [Vm.loaderView, Prod.mk.injEq] at hview
  obtain ⟨hmemory, hsize, hdevices, hdev, hstart, hstop, himage⟩ := hview
  refine ⟨hmemory.trans hs.memory, hsize.trans hs.memorySize, hdevices.trans hs.devices, ?_,
    himage.trans hs.image, hdisk, hworker⟩
  intro dev hcached
  obtain ⟨hmem, hlo, hhi⟩ := hs.cache dev (hdev.symm.trans hcached)
  exact ⟨hdevices ▸ hmem, hstart.trans hlo, hstop.trans hhi⟩

theorem loader_clockFree : ClockFree (LoaderState image d m) := by
  intro s t hs hst
  have hview : t.besidesClock.loaderView = s.besidesClock.loaderView := by rw [hst]
  have hdisk : t.besidesClock.disk = s.besidesClock.disk := by rw [hst]
  have hworker : t.besidesClock.diskWorker = s.besidesClock.diskWorker := by rw [hst]
  exact hs.congr hview (hdisk.trans hs.disk) (hworker.trans hs.worker)

theorem LoaderState.cached (hs : LoaderState image d m s) {dev : MmioDevice}
    (hdev : dev ∈ s.mmioDevices) : LoaderState image d m (s.cached dev) :=
  ⟨hs.memory, hs.memorySize, hs.devices, .cached hdev, hs.image, hs.disk, hs.worker⟩

theorem LoaderState.uncached (hs : LoaderState image d m s) : LoaderState image d m s.uncached :=
  ⟨hs.memory, hs.memorySize, hs.devices, .uncached s, hs.image, hs.disk, hs.worker⟩

theorem loader_lookup : Lookup (LoaderState image d m) fun _ => True where
  findMmio addr := by
    intro s hs
    by_cases hcov : ∃ dev ∈ s.mmioDevices, dev.covers addr
    · obtain ⟨dev, hdev, -, hfind⟩ := findMmio_of_covers hs.cache hcov
      rw [hfind]
      exact hs.cached hdev
    · rw [findMmio_of_noDevice hs.cache fun dev hdev h => hcov ⟨dev, hdev, h⟩]
      exact hs.uncached
  fault _ _ := trivial

/-- Reads of any address keep the memory, and in RAM they return what it holds. -/
theorem LoaderState.read8 (hs : LoaderState image d m s) {v : BitVec 8}
    (h : vmRead8 a s = .ok (v, t)) :
    LoaderState image d m t ∧ (InRam a.toNat 1 → v = m a.toNat) := by
  refine ⟨(loader_lookup.vmRead8 a).ok hs h, fun hram => ?_⟩
  rw [vmRead8_plain hs.registered (hs.plainRam hram), hs.memory] at h
  exact (Prod.mk.inj (Except.ok.inj h)).1.symm

theorem LoaderState.read32 (hs : LoaderState image d m s) {v : BitVec 32}
    (h : vmRead32 a s = .ok (v, t)) :
    LoaderState image d m t ∧ (InRam a.toNat 4 → v = word m a.toNat) := by
  have hkeep : Safe (LoaderState image d m) (fun _ => True) (vmRead32 a) :=
    loader_lookup.vmRead32 fun ops => loader_lookup.read32 loader_clockFree ops a
  refine ⟨hkeep.ok hs h, fun hram => ?_⟩
  by_cases hal : AlignOk s 4 a
  · rw [vmRead32_plain hs.cache (hs.plainRam hram) hal, hs.memory] at h
    exact (Prod.mk.inj (Except.ok.inj h)).1.symm
  · rw [vmRead32, bind_error (memcheckAlign_of_not_alignOk hal)] at h
    cases h

theorem LoaderState.readHalf (hs : LoaderState image d m s) {v : BitVec 16}
    (h : readHalf a s = .ok (v, t)) :
    LoaderState image d m t ∧ (InRam a.toNat 2 → v = half m a.toNat) := by
  obtain ⟨lo, u, hlo, hrest⟩ := bind_eq_ok h
  obtain ⟨hi, w, hhi, hpure⟩ := bind_eq_ok hrest
  obtain ⟨rfl, rfl⟩ := Prod.mk.inj (Except.ok.inj hpure)
  obtain ⟨hu, hlo'⟩ := hs.read8 hlo
  obtain ⟨hw, hhi'⟩ := hu.read8 hhi
  refine ⟨hw, fun hram => ?_⟩
  have hnext : (a + 1).toNat = a.toNat + 1 := (hs.plainRam hram).toNat_add (k := 1) (by omega)
  have hlo'' := hlo' (hram.sub le_rfl (by omega))
  have hhi'' := hhi' (by rw [hnext]; exact hram.sub (by omega) (by omega))
  rw [hnext] at hhi''
  apply BitVec.eq_of_toNat_eq
  have h0 := (m a.toNat).isLt
  have h1 := (m (a.toNat + 1)).isLt
  rw [half, BitVec.toNat_append, BitVec.toNat_ofNat, hlo'', hhi'',
    ← Nat.shiftLeft_add_eq_or_of_lt h0, Nat.shiftLeft_eq]
  simp only [leNat]
  omega

end Reads

/-! ## The headers -/

/-- The fields of `Elf32_Phdr` that the loader uses. -/
structure Phdr where
  type : BitVec 32
  offset : BitVec 32
  vaddr : BitVec 32
  paddr : BitVec 32
  filesz : BitVec 32
  memsz : BitVec 32
  deriving DecidableEq

def Phdr.read (m : Bytes) (a : ℕ) : Phdr :=
  ⟨word m a, word m (a + 4), word m (a + 8), word m (a + 12), word m (a + 16), word m (a + 20)⟩

def Phdr.isLoad (p : Phdr) : Prop := p.type = ptLoad

/-- `p_paddr ? p_paddr : p_vaddr`. -/
def Phdr.dst (p : Phdr) : BitVec 32 := if p.paddr ≠ 0 then p.paddr else p.vaddr

/-- How many bytes are stored at the destination. -/
def Phdr.span (p : Phdr) : ℕ := max p.filesz.toNat p.memsz.toNat

/-- The address is one of the destination. -/
def Phdr.Stores (p : Phdr) (x : ℕ) : Prop :=
  p.isLoad ∧ ∃ i < p.span, x = (p.dst + BitVec.ofNat 32 i).toNat

theorem word_congr {m m' : Bytes} {a b : ℕ} (h : ∀ k < 4, m (a + k) = m' (b + k)) :
    word m a = word m' b := by
  have h0 := h 0 (by omega)
  have h1 := h 1 (by omega)
  have h2 := h 2 (by omega)
  have h3 := h 3 (by omega)
  rw [Nat.add_zero, Nat.add_zero] at h0
  simp only [word, leNat, Nat.add_assoc, h0, h1, h2, h3, Nat.reduceAdd]

theorem half_congr {m m' : Bytes} {a b : ℕ} (h : ∀ k < 2, m (a + k) = m' (b + k)) :
    half m a = half m' b := by
  have h0 := h 0 (by omega)
  have h1 := h 1 (by omega)
  rw [Nat.add_zero, Nat.add_zero] at h0
  simp only [half, leNat, h0, h1]

theorem Phdr.read_congr {m m' : Bytes} {a b : ℕ} (h : ∀ k < phdrSize, m (a + k) = m' (b + k)) :
    Phdr.read m a = Phdr.read m' b := by
  have hsize : phdrSize = 32 := rfl
  have hword (j : ℕ) (hj : j + 4 ≤ 32) : word m (a + j) = word m' (b + j) :=
    word_congr fun k hk => by
      have := h (j + k) (by omega)
      rwa [← Nat.add_assoc, ← Nat.add_assoc] at this
  have h0 : word m a = word m' b := hword 0 (by omega)
  simp only [Phdr.read, h0, hword 4 (by omega), hword 8 (by omega), hword 12 (by omega),
    hword 16 (by omega), hword 20 (by omega)]

/-! ## Reading the disk -/

section ReadSectors

variable {image : DiskImage} {d : Disk} {m : Bytes} {s t : Vm} {host : BounceBuffer}
  {lba count memAddr : BitVec 32}

/-- The registers after a completed read. -/
def Disk.afterRead (d : Disk) (lba count memAddr : BitVec 32) : Disk :=
  { d with
    lba := lba
    memAddr := memAddr
    count := count
    status := .free
    currentCmd := diskCmdNone
    opComplete := false }

theorem Disk.Idle.afterRead (h : d.Idle) : (d.afterRead lba count memAddr).Idle := ⟨rfl, h.running⟩

/-- What a completed read leaves in memory. -/
def sectorsRead (image : DiskImage) (host : BounceBuffer) (lba count memAddr : BitVec 32)
    (m : Bytes) : Bytes :=
  if host.allocated then
    copyToRam m memAddr.toNat (count.toNat * diskSectorSize)
      (fread image (lba.toNat * diskSectorSize) (count.toNat * diskSectorSize) host.contents)
  else m

theorem LoaderState.out (hs : LoaderState image d m s) {addr : ℤ} {value : BitVec 32}
    (h : acceptIo addr value s = .ok ((), t)) : LoaderState image (d.out addr value) m t := by
  have hview := acceptIo_diskView h
  refine hs.congr ?_ ?_ ((congrArg (fun v => v.2.1) hview).trans hs.worker)
  · cases acceptIo_portWrite h <;> rfl
  · rw [← hs.disk]
    exact congrArg Prod.fst hview

theorem LoaderState.served (hs : LoaderState image d m s) {job : DiskJob}
    (hcmd : job.cmd = diskCmdRead)
    (hvalid : isValidDma memSize job.memAddr.toNat job.count.toNat = true) :
    LoaderState image d.complete (sectorsRead image host job.lba job.count job.memAddr m)
      (s.served job host) := by
  have hmemory : (s.served job host).memory = _ := served_memory_of_read hcmd
    (show isValidDma s.memorySize _ _ = true by rwa [hs.memorySize])
  rw [hs.memory, hs.image] at hmemory
  have hrest : s.served job host = { s.withMemory (s.served job host).memory with
      disk := s.disk.complete, diskWorker := .waiting } := by
    unfold Vm.served diskTransfer
    dsimp only
    rw [hcmd, if_pos rfl]
    split_ifs <;> rfl
  rw [hrest, hmemory]
  exact ⟨rfl, hs.memorySize, hs.devices, hs.cache, hs.image, by rw [hs.disk], rfl⟩

theorem LoaderState.tick (hs : LoaderState image d m s) (hbusy : d.status ≠ .free)
    (h : diskTick s = .ok ((), t)) : LoaderState image d.tick.1 m t := by
  rw [diskTick, bind_ok (get_apply s), if_neg (by rwa [hs.disk]), bind_ok (set_apply _ _),
    hs.disk] at h
  have hset : LoaderState image d.tick.1 m { s with disk := d.tick.1 } :=
    hs.congr rfl rfl hs.worker
  split_ifs at h
  · rcases triggerInterruptTarget_cases h with ⟨-, rfl⟩ | ⟨-, rfl⟩
    · exact hset
    · exact hset.congr rfl rfl hset.worker
  · obtain ⟨-, rfl⟩ := Prod.mk.inj (Except.ok.inj h)
    exact hset

theorem LoaderState.readSectors (hs : LoaderState image d m s) (hd : d.Idle)
    (hvalid : isValidDma memSize memAddr.toNat count.toNat = true)
    (h : diskReadSectors host lba count memAddr s = .ok ((), t)) :
    LoaderState image (d.afterRead lba count memAddr)
      (sectorsRead image host lba count memAddr m) t := by
  obtain ⟨_, s₁, h₁, h⟩ := bind_eq_ok h
  obtain ⟨_, s₂, h₂, h⟩ := bind_eq_ok h
  obtain ⟨_, s₃, h₃, h⟩ := bind_eq_ok h
  obtain ⟨_, s₄, h₄, h⟩ := bind_eq_ok h
  obtain ⟨_, s₅, h₅, h⟩ := bind_eq_ok h
  have hs₄ := (((hs.out h₁).out h₂).out h₃).out h₄
  have hdisk : (((d.out portDiskLba lba).out portDiskMem memAddr).out portDiskCount count).out
      portDiskCmd diskCmdRead =
        ⟨lba, memAddr, count, .busy, diskCmdRead, d.threadRunning, false⟩ := by
    have hfree : ¬ (((d.out portDiskLba lba).out portDiskMem memAddr).out portDiskCount count).status
        = .busy := by
      change ¬ d.status = .busy
      rw [hd.free]
      exact DiskStatus.noConfusion
    exact if_neg hfree
  rw [hdisk] at hs₄
  have hissued : s₄.Issued ⟨diskCmdRead, lba, memAddr, count⟩ := by
    refine ⟨hs₄.worker, ?_, ?_, show diskCmdRead ≠ diskCmdNone by decide⟩
    · rw [hs₄.disk]
      exact hd.running
    · rw [hs₄.disk]
      rfl
  rw [diskWorkerPass_eq hissued] at h₅
  obtain ⟨-, rfl⟩ := Prod.mk.inj (Except.ok.inj h₅)
  exact (hs₄.served rfl hvalid).tick DiskStatus.noConfusion h

end ReadSectors

/-! ## Stores -/

/-- The effect of a copy: it changes the destination alone, and between two ranges of RAM that do
not meet it is exact. -/
structure Copies (m m' : Bytes) (dst src : BitVec 32) (n : ℕ) : Prop where
  frame : ∀ x, (∀ i < n, x ≠ (dst + BitVec.ofNat 32 i).toNat) → m' x = m x
  exact : InRam dst.toNat n → InRam src.toNat n →
    dst.toNat + n ≤ src.toNat ∨ src.toNat + n ≤ dst.toNat →
    ∀ k < n, m' (dst.toNat + k) = m (src.toNat + k)

structure Fills (m m' : Bytes) (dst : BitVec 32) (v : BitVec 8) (n : ℕ) : Prop where
  frame : ∀ x, (∀ i < n, x ≠ (dst + BitVec.ofNat 32 i).toNat) → m' x = m x
  exact : InRam dst.toNat n → ∀ k < n, m' (dst.toNat + k) = v

section Stores

variable {image : DiskImage} {d : Disk} {m : Bytes} {s t : Vm} {a dst src : BitVec 32}

/-- A byte store to any address changes at most that byte of the memory. -/
theorem LoaderState.write8 (hs : LoaderState image d m s) {v : BitVec 8}
    (h : vmWrite8 a v s = .ok ((), t)) :
    LoaderState image d t.memory t ∧ ∀ x, x ≠ a.toNat → t.memory x = m x := by
  have hstart := hs.memory
  subst hstart
  rw [vmWrite8, bind_ok (get_apply s)] at h
  cases hindex : fbByteIndex s.memorySize a with
  | some i =>
    simp only [hindex] at h
    rw [fbWriteByte, bind_ok (get_apply s)] at h
    obtain ⟨_, u, hcheck, hset⟩ := bind_eq_ok h
    obtain rfl := checkIndex_ok hcheck
    obtain ⟨-, rfl⟩ := Prod.mk.inj (Except.ok.inj hset)
    exact ⟨hs.congr rfl hs.disk hs.worker, fun x _ => rfl⟩
  | none =>
    by_cases hram : inRam s a 1
    · have hwrite := vmWrite8_of_lt hindex hram v
      rw [vmWrite8, bind_ok (get_apply s), h] at hwrite
      obtain ⟨-, rfl⟩ := Prod.mk.inj (Except.ok.inj hwrite)
      refine ⟨⟨rfl, hs.memorySize, hs.devices, hs.cache, hs.image, hs.disk, hs.worker⟩, ?_⟩
      intro x hx
      exact leStore_of_not_mem (by omega)
    · simp only [hindex] at h
      rw [bind_error (requireRam_of_not_inRam hram)] at h
      cases h

/-- A loop that stores one byte in each round changes those bytes only. -/
theorem LoaderState.storeLoop {loop : ℕ → BitVec 32 → VmM Unit} (hzero : ∀ i, loop 0 i = pure ())
    (hsucc : ∀ n i m s, LoaderState image d m s → loop (n + 1) i s = .ok ((), t) →
      ∃ v u w, LoaderState image d m u ∧ vmWrite8 (dst + i) v u = .ok ((), w) ∧
        loop n (i + 1) w = .ok ((), t))
    (hs : LoaderState image d m s) {n k : ℕ} (h : loop n (BitVec.ofNat 32 k) s = .ok ((), t)) :
    LoaderState image d t.memory t ∧
      ∀ x, (∀ i, k ≤ i → i < k + n → x ≠ (dst + BitVec.ofNat 32 i).toNat) → t.memory x = m x := by
  induction n generalizing k s m with
  | zero =>
    rw [hzero] at h
    obtain ⟨-, rfl⟩ := Prod.mk.inj (Except.ok.inj h)
    have hstart := hs.memory
    subst hstart
    exact ⟨hs, fun x _ => rfl⟩
  | succ n ih =>
    obtain ⟨v, u, w, hu, hwrite, h⟩ := hsucc n _ m s hs h
    rw [ofNat_succ] at h
    obtain ⟨hw, hbyte⟩ := hu.write8 hwrite
    obtain ⟨ht, hrest⟩ := ih hw h
    refine ⟨ht, fun x hx => ?_⟩
    rw [hrest x fun i hlo hhi => hx i (by omega) (by omega)]
    exact hbyte x (hx k le_rfl (by omega))

theorem LoaderState.memcpyLoop (hs : LoaderState image d m s) {n k : ℕ}
    (h : memcpyLoop dst src n (BitVec.ofNat 32 k) s = .ok ((), t)) :
    LoaderState image d t.memory t ∧
      ∀ x, (∀ i, k ≤ i → i < k + n → x ≠ (dst + BitVec.ofNat 32 i).toNat) → t.memory x = m x := by
  refine LoaderState.storeLoop (fun _ => rfl) (fun n i m s hs h => ?_) hs h
  obtain ⟨v, u, hread, h⟩ := bind_eq_ok h
  obtain ⟨_, w, hwrite, h⟩ := bind_eq_ok h
  exact ⟨v, u, w, (hs.read8 hread).1, hwrite, h⟩

theorem LoaderState.memsetLoop (hs : LoaderState image d m s) {v : BitVec 8} {n k : ℕ}
    (h : memsetLoop dst v n (BitVec.ofNat 32 k) s = .ok ((), t)) :
    LoaderState image d t.memory t ∧
      ∀ x, (∀ i, k ≤ i → i < k + n → x ≠ (dst + BitVec.ofNat 32 i).toNat) → t.memory x = m x := by
  refine LoaderState.storeLoop (fun _ => rfl) (fun n i m s hs h => ?_) hs h
  obtain ⟨_, w, hwrite, h⟩ := bind_eq_ok h
  exact ⟨v, s, w, hs, hwrite, h⟩

theorem LoaderState.memcpy8 (hs : LoaderState image d m s) {n : BitVec 32}
    (h : memcpy8 dst src n s = .ok ((), t)) :
    LoaderState image d t.memory t ∧ Copies m t.memory dst src n.toNat := by
  obtain ⟨ht, hframe⟩ := hs.memcpyLoop (k := 0) h
  refine ⟨ht, fun x hx => hframe x fun i _ hi => hx i (by omega), fun hdst hsrc hapart k hk => ?_⟩
  have hrun := memcpyLoop_run hs.registered (hs.plainRam hdst) (hs.plainRam hsrc)
    (Nat.zero_add n.toNat)
  have hsame : s.withMemory s.memory = s := rfl
  rw [copyUp_zero, hsame] at hrun
  obtain ⟨-, rfl⟩ := Prod.mk.inj (Except.ok.inj (h.symm.trans hrun))
  rw [← hs.memory]
  exact copyUp_of_lt (by omega) hk

theorem LoaderState.memset8 (hs : LoaderState image d m s) {v : BitVec 8} {n : BitVec 32}
    (h : memset8 dst v n s = .ok ((), t)) :
    LoaderState image d t.memory t ∧ Fills m t.memory dst v n.toNat := by
  obtain ⟨ht, hframe⟩ := hs.memsetLoop (k := 0) h
  refine ⟨ht, fun x hx => hframe x fun i _ hi => hx i (by omega), fun hdst k hk => ?_⟩
  have hrun := memsetLoop_run hs.registered (hs.plainRam hdst) v (Nat.zero_add n.toNat)
  have hsame : s.withMemory s.memory = s := rfl
  rw [fillUp_zero, hsame] at hrun
  obtain ⟨-, rfl⟩ := Prod.mk.inj (Except.ok.inj (h.symm.trans hrun))
  exact fillUp_of_lt hk

end Stores

/-! ## One segment -/

/-- What one pass does with the header `q`: it changes the destination alone, and copies to a
destination in RAM what the buffer holds. -/
structure Phdr.Handled (q : Phdr) (eh : BitVec 32) (m m' : Bytes) : Prop where
  frame : ∀ x, ¬ q.Stores x → m' x = m x
  file : q.isLoad → InRam q.dst.toNat q.span → InRam (eh + q.offset).toNat q.filesz.toNat →
    q.dst.toNat + q.span ≤ (eh + q.offset).toNat ∨
      (eh + q.offset).toNat + q.filesz.toNat ≤ q.dst.toNat →
    ∀ k < q.filesz.toNat, m' (q.dst.toNat + k) = m ((eh + q.offset).toNat + k)
  zeros : q.isLoad → InRam q.dst.toNat q.span → ∀ k, q.filesz.toNat ≤ k → k < q.memsz.toNat →
    m' (q.dst.toNat + k) = 0

section Segment

variable {image : DiskImage} {d : Disk} {m : Bytes} {s t : Vm} {eh p : BitVec 32}

theorem LoaderState.field (hs : LoaderState image d m s) (hram : InRam p.toNat phdrSize)
    {off v : BitVec 32} (hoff : off.toNat + 4 ≤ phdrSize)
    (h : vmRead32 (p + off) s = .ok (v, t)) :
    LoaderState image d m t ∧ v = word m (p.toNat + off.toNat) := by
  obtain ⟨ht, hv⟩ := hs.read32 h
  have hsize : memSize = 67108864 ∧ phdrSize = 32 := ⟨rfl, rfl⟩
  have hle := hram.1
  have haddr : (p + off).toNat = p.toNat + off.toNat := by
    rw [BitVec.toNat_add]
    omega
  rw [haddr] at hv
  exact ⟨ht, hv (hram.sub (by omega) (by omega))⟩

theorem Phdr.stores_file {q : Phdr} (hload : q.isLoad) {i : ℕ} (hi : i < q.filesz.toNat) :
    q.Stores (q.dst + BitVec.ofNat 32 i).toNat :=
  ⟨hload, i, lt_max_of_lt_left hi, rfl⟩

/-- The tail that is cleared belongs to the destination. -/
theorem Phdr.stores_tail {q : Phdr} (hload : q.isLoad) {i : ℕ}
    (hi : i < q.memsz.toNat - q.filesz.toNat) :
    q.Stores (q.dst + q.filesz + BitVec.ofNat 32 i).toNat := by
  refine ⟨hload, q.filesz.toNat + i, ?_, ?_⟩
  · unfold Phdr.span
    omega
  · rw [BitVec.ofNat_add, BitVec.ofNat_toNat, BitVec.setWidth_eq, BitVec.add_assoc]

theorem LoaderState.segmentDst (hs : LoaderState image d m s) (hram : InRam p.toNat phdrSize)
    {dst : BitVec 32} (h : segmentDst p s = .ok (dst, t)) :
    LoaderState image d m t ∧ dst = (Phdr.read m p.toNat).dst := by
  obtain ⟨paddr, s₁, h₁, h⟩ := bind_eq_ok h
  obtain ⟨hs₁, hpaddr⟩ := hs.field hram (by decide) h₁
  have hfield : (Phdr.read m p.toNat).paddr = paddr := hpaddr.symm
  rw [Phdr.dst, hfield]
  by_cases hzero : paddr = 0
  · rw [if_neg (not_not.mpr hzero)] at h ⊢
    exact hs₁.field hram (by decide) h
  · rw [if_pos hzero] at h ⊢
    obtain ⟨rfl, rfl⟩ := Prod.mk.inj (Except.ok.inj h)
    exact ⟨hs₁, rfl⟩

theorem LoaderState.copySegment (hs : LoaderState image d m s) (hram : InRam p.toNat phdrSize)
    {q : Phdr} (hq : Phdr.read m p.toNat = q) {dst : BitVec 32}
    (h : copySegment eh p dst s = .ok ((), t)) : LoaderState image d t.memory t ∧
      Copies m t.memory dst (eh + q.offset) q.filesz.toNat := by
  obtain ⟨offset, s₁, h₁, h⟩ := bind_eq_ok h
  obtain ⟨hs₁, hoffset⟩ := hs.field hram (by decide) h₁
  obtain ⟨filesz, s₂, h₂, h⟩ := bind_eq_ok h
  obtain ⟨hs₂, hfilesz⟩ := hs₁.field hram (by decide) h₂
  subst hq
  obtain rfl : offset = (Phdr.read m p.toNat).offset := hoffset
  obtain rfl : filesz = (Phdr.read m p.toNat).filesz := hfilesz
  by_cases hzero : (Phdr.read m p.toNat).filesz = 0
  · rw [if_neg (not_not.mpr hzero)] at h
    exact hs₂.memcpy8 (hzero ▸ h)
  · rw [if_pos hzero] at h
    exact hs₂.memcpy8 h

theorem LoaderState.clearTail (hs : LoaderState image d m s) (hram : InRam p.toNat phdrSize)
    {q : Phdr} (hq : Phdr.read m p.toNat = q) {dst : BitVec 32}
    (h : clearTail p dst s = .ok ((), t)) : LoaderState image d t.memory t ∧
      Fills m t.memory (dst + q.filesz) 0 (q.memsz.toNat - q.filesz.toNat) := by
  obtain ⟨memsz, s₁, h₁, h⟩ := bind_eq_ok h
  obtain ⟨hs₁, hmemsz⟩ := hs.field hram (by decide) h₁
  obtain ⟨filesz, s₂, h₂, h⟩ := bind_eq_ok h
  obtain ⟨hs₂, hfilesz⟩ := hs₁.field hram (by decide) h₂
  subst hq
  obtain rfl : memsz = (Phdr.read m p.toNat).memsz := hmemsz
  obtain rfl : filesz = (Phdr.read m p.toNat).filesz := hfilesz
  by_cases htail : (Phdr.read m p.toNat).memsz > (Phdr.read m p.toNat).filesz
  · rw [if_pos htail] at h
    have hcleared := hs₂.memset8 h
    rwa [BitVec.toNat_sub_of_le (BitVec.le_def.mpr (Nat.le_of_lt htail))] at hcleared
  · rw [if_neg htail] at h
    have hnone : (Phdr.read m p.toNat).memsz.toNat - (Phdr.read m p.toNat).filesz.toNat = 0 :=
      Nat.sub_eq_zero_of_le (not_lt.mp htail)
    rw [hnone]
    exact hs₂.memset8 (n := 0) h

/-- A copy and a fill of the tail, which changes nothing of the copy. -/
theorem Phdr.Handled.of_parts {q : Phdr} {m₁ m₂ : Bytes} (hload : q.isLoad)
    (hkeep : ∀ x, ¬ q.Stores x → m₁ x = m x)
    (hcopied : Copies m m₁ q.dst (eh + q.offset) q.filesz.toNat)
    (hcleared : Fills m₁ m₂ (q.dst + q.filesz) 0 (q.memsz.toNat - q.filesz.toNat)) :
    q.Handled eh m m₂ where
  frame x hx := by
    rw [hcleared.frame x fun i hi heq => hx (heq ▸ Phdr.stores_tail hload hi)]
    exact hkeep x hx
  file _ hdst hsrc hapart k hk := by
    have hspan : q.span = max q.filesz.toNat q.memsz.toNat := rfl
    have hsize : memSize = 67108864 := rfl
    have hle := hdst.1
    rw [hcleared.frame _ fun i hi => ?_]
    · exact hcopied.exact (hdst.sub le_rfl (by omega)) hsrc (by omega) k hk
    · rw [BitVec.toNat_add, BitVec.toNat_add, BitVec.toNat_ofNat]
      omega
  zeros _ hdst k hlo hhi := by
    have hspan : q.span = max q.filesz.toNat q.memsz.toNat := rfl
    have hsize : memSize = 67108864 := rfl
    have hle := hdst.1
    have htail : (q.dst + q.filesz).toNat = q.dst.toNat + q.filesz.toNat := by
      rw [BitVec.toNat_add]
      omega
    have hzero := hcleared.exact (by rw [htail]; exact hdst.sub (by omega) (by omega))
      (k - q.filesz.toNat) (by omega)
    rwa [htail, show q.dst.toNat + q.filesz.toNat + (k - q.filesz.toNat) = q.dst.toNat + k by
      omega] at hzero

/-- The reads of one pass see the header as it was, if the segment is not copied over it. -/
theorem LoaderState.loadSegment (hs : LoaderState image d m s) (hram : InRam p.toNat phdrSize)
    {q : Phdr} (hq : Phdr.read m p.toNat = q)
    (hown : ∀ x, q.Stores x → x < p.toNat ∨ p.toNat + phdrSize ≤ x)
    (h : loadSegment eh p s = .ok ((), t)) :
    LoaderState image d t.memory t ∧ q.Handled eh m t.memory := by
  obtain ⟨type, s₁, h₁, h⟩ := bind_eq_ok h
  obtain ⟨hs₁, htype⟩ := hs.field hram (by decide) h₁
  have hqtype : q.type = type := hq ▸ htype.symm
  by_cases hload : type = ptLoad
  · rw [if_neg (not_not.mpr hload)] at h
    have hqload : q.isLoad := hqtype.trans hload
    obtain ⟨dst, s₂, h₂, h⟩ := bind_eq_ok h
    obtain ⟨hs₂, hdst⟩ := hs₁.segmentDst hram h₂
    rw [hq] at hdst
    subst hdst
    obtain ⟨_, s₃, h₃, h⟩ := bind_eq_ok h
    obtain ⟨hs₃, hcopied⟩ := hs₂.copySegment hram hq h₃
    have hkeep : ∀ x, ¬ q.Stores x → s₃.memory x = m x := fun x hx =>
      hcopied.frame x fun i hi heq => hx (heq ▸ Phdr.stores_file hqload hi)
    have hheader : Phdr.read s₃.memory p.toNat = q := by
      rw [← hq]
      refine Phdr.read_congr fun k hk => hkeep _ fun hstores => ?_
      have := hown _ hstores
      omega
    obtain ⟨ht, hcleared⟩ := hs₃.clearTail hram hheader h
    exact ⟨ht, .of_parts hqload hkeep hcopied hcleared⟩
  · rw [if_pos hload] at h
    obtain ⟨-, rfl⟩ := Prod.mk.inj (Except.ok.inj h)
    have hsame := hs₁.memory
    subst hsame
    have hnot : ¬ q.isLoad := fun hq' => hload (hqtype.symm.trans hq')
    exact ⟨hs₁, fun x _ => rfl, fun hq' => absurd hq' hnot, fun hq' => absurd hq' hnot⟩

end Segment

end LampVm
