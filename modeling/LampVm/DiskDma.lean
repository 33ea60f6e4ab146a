import LampVm.Bounds
import LampVm.DiskParams
import LampVm.Framebuffer

/-!
# What a disk transfer moves

The worker of `disk.c` copies between the image and the RAM array through a buffer of its
own. The guest's byte loads see that array except in the framebuffer windows, one of which
lies inside RAM. What the worker asks for beyond the end of the image is not read, and the
buffer still holds there what `malloc` found.
-/
namespace LampVm

open ByteOrder Contract

/-! ## One pass of the worker -/

/-- The body of the loop of `disk_worker`, with no other thread in between. -/
def diskWorkerPass (host : BounceBuffer) : VmM Unit := do
  workerTake
  workerTransfer host
  workerComplete

/-- The registers hold the job and the worker is about to take it. -/
structure Vm.Issued (vm : Vm) (job : DiskJob) : Prop where
  waiting : vm.diskWorker = .waiting
  running : vm.disk.threadRunning = true
  registers : vm.disk.job vm.disk.currentCmd = job
  command : job.cmd ≠ diskCmdNone

/-- The machine when the worker has reported the job as complete. -/
def Vm.served (vm : Vm) (job : DiskJob) (host : BounceBuffer) : Vm :=
  { diskTransfer job host vm with disk := vm.disk.complete, diskWorker := .waiting }

/-- The bytes that a job moves, and where they begin on the disk. -/
def DiskJob.bytes (job : DiskJob) : ℕ := job.count.toNat * diskSectorSize
def DiskJob.pos (job : DiskJob) : ℕ := job.lba.toNat * diskSectorSize

section Pass

variable {vm vm' : Vm} {job : DiskJob} {host : BounceBuffer}

theorem diskTransfer_worker (job : DiskJob) (host : BounceBuffer) (vm : Vm) (w : DiskWorker) :
    diskTransfer job host { vm with diskWorker := w } =
      { diskTransfer job host vm with diskWorker := w } := by
  unfold diskTransfer
  dsimp only
  split_ifs <;> rfl

theorem diskWorkerPass_eq (h : vm.Issued job) :
    diskWorkerPass host vm = .ok ((), vm.served job host) := by
  have hcmd : vm.disk.currentCmd ≠ diskCmdNone := by
    have := h.command
    rwa [← h.registers] at this
  have htake : vm.diskWorker.take vm.disk = .holding job := by
    rw [h.waiting, DiskWorker.take, if_neg (hcmd ·.1), if_neg (not_not.mpr h.running),
      ← h.registers]
    rfl
  have hdisk : (diskTransfer job host vm).disk = vm.disk := by
    obtain ⟨memory, image, htransfer⟩ := diskTransfer_frame job host vm
    rw [htransfer]
  simp only [diskWorkerPass, bind_apply, workerTake, workerTransfer, workerComplete, modify_apply,
    htake, diskTransfer_worker, Vm.served, hdisk]

@[simp] theorem served_memorySize : (vm.served job host).memorySize = vm.memorySize := by
  obtain ⟨memory, image, htransfer⟩ := diskTransfer_frame job host vm
  rw [Vm.served, htransfer]

@[simp] theorem served_fb : (vm.served job host).fb = vm.fb := by
  obtain ⟨memory, image, htransfer⟩ := diskTransfer_frame job host vm
  rw [Vm.served, htransfer]

theorem served_memory_of_read (hcmd : job.cmd = diskCmdRead)
    (hvalid : isValidDma vm.memorySize job.memAddr.toNat job.count.toNat = true) :
    (vm.served job host).memory = if host.allocated then
      copyToRam vm.memory job.memAddr.toNat job.bytes
        (fread vm.diskImage job.pos job.bytes host.contents) else vm.memory := by
  unfold Vm.served diskTransfer
  dsimp only
  rw [if_neg (not_not.mpr hvalid), if_pos hcmd]
  split_ifs <;> rfl

theorem served_image_of_write (hcmd : job.cmd = diskCmdWrite)
    (hvalid : isValidDma vm.memorySize job.memAddr.toNat job.count.toNat = true) :
    (vm.served job host).diskImage = if host.allocated then
      fwrite vm.diskImage job.pos job.bytes fun i => vm.memory (job.memAddr.toNat + i)
      else vm.diskImage := by
  split_ifs with halloc
  · exact diskTransfer_image_of_writes job host vm ⟨hvalid, hcmd, halloc⟩
  · exact diskTransfer_image_of_not_writes job host vm fun h => halloc h.2.2

end Pass

/-! ## What the guest sees -/

/-- The address is one whose byte loads go to the framebuffer instead of RAM. -/
def InLegacyWindow (a : ℕ) : Prop := fbLegacyBase ≤ a ∧ a < fbLegacyBase + fbSize

instance (a : ℕ) : Decidable (InLegacyWindow a) := inferInstanceAs (Decidable (_ ∧ _))

/-- What a byte load of an address in RAM returns. -/
def Vm.guestByte (vm : Vm) (a : ℕ) : BitVec 8 :=
  if InLegacyWindow a then vm.screen (a - fbLegacyBase) else vm.memory a

theorem vmRead8_guest {vm : Vm} {a : BitVec 32} (h : a.toNat < vm.memorySize) :
    vmRead8 a vm = .ok (vm.guestByte a.toNat, vm) := by
  have hmain : ¬ (vm.memorySize ≤ a.toNat ∧ a.toNat < vm.memorySize + fbSize) := by omega
  unfold Vm.guestByte
  split_ifs with hw
  · have hidx : fbByteIndex vm.memorySize a = some (a.toNat - fbLegacyBase) := by
      exact (if_neg hmain).trans (if_pos hw)
    have hlt : a.toNat - fbLegacyBase < fbSize := by
      unfold InLegacyWindow at hw
      omega
    simp only [vmRead8, bind_apply, get_apply, hidx, fbReadByte, checkIndex_of_lt hlt, pure_apply]
    rfl
  · have hidx : fbByteIndex vm.memorySize a = none := by
      exact (if_neg hmain).trans (if_neg hw)
    exact vmRead8_of_lt hidx h

/-- The guest address is one that the job moves. -/
def DiskJob.Spans (job : DiskJob) (a : BitVec 32) : Prop :=
  job.memAddr.toNat ≤ a.toNat ∧ a.toNat < job.memAddr.toNat + job.bytes

/-- Where on the disk the byte at a guest address belongs. -/
def DiskJob.place (job : DiskJob) (a : BitVec 32) : ℕ := job.pos + (a.toNat - job.memAddr.toNat)

/-- A byte load of each address that the job moves returns the byte of the image. -/
def DiskJob.Mirrored (job : DiskJob) (vm : Vm) (image : DiskImage) : Prop :=
  ∀ a, job.Spans a → vmRead8 a vm = .ok (image.bytes (job.place a), vm)

section Coherence

variable {vm : Vm} {job : DiskJob} {host : BounceBuffer}

theorem DiskJob.Spans.lt {M : ℕ} {a : BitVec 32}
    (hvalid : isValidDma M job.memAddr.toNat job.count.toNat = true) (h : job.Spans a) :
    a.toNat < M :=
  h.2.trans_le (isValidDma_iff.mp hvalid)

/-- With the buffer allocated and no byte in the window, a load after the read returns
what the image holds. -/
theorem mirrored_of_read (hcmd : job.cmd = diskCmdRead)
    (hvalid : isValidDma vm.memorySize job.memAddr.toNat job.count.toNat = true)
    (himage : job.pos + job.bytes ≤ vm.diskImage.size) (halloc : host.allocated = true)
    (hclear : ∀ a, job.Spans a → ¬ InLegacyWindow a.toNat) :
    job.Mirrored (vm.served job host) vm.diskImage := by
  intro a ha
  have h1 := ha.1
  have h2 := ha.2
  have hcopy : (vm.served job host).memory a.toNat = vm.diskImage.bytes (job.place a) := by
    rw [served_memory_of_read hcmd hvalid, if_pos halloc]
    exact (if_pos ha).trans (if_pos ⟨by omega, by omega⟩)
  rw [vmRead8_guest (by rw [served_memorySize]; exact ha.lt hvalid), Vm.guestByte,
    if_neg (hclear a ha), hcopy]

/-- The image after the write holds what a load before it returned. -/
theorem mirrored_of_write (hcmd : job.cmd = diskCmdWrite)
    (hvalid : isValidDma vm.memorySize job.memAddr.toNat job.count.toNat = true)
    (halloc : host.allocated = true) (hclear : ∀ a, job.Spans a → ¬ InLegacyWindow a.toNat) :
    job.Mirrored vm (vm.served job host).diskImage := by
  intro a ha
  have h1 := ha.1
  have h2 := ha.2
  have hstored : (vm.served job host).diskImage.bytes (job.place a) = vm.memory a.toNat := by
    rw [served_image_of_write hcmd hvalid, if_pos halloc]
    refine (if_pos ⟨Nat.le_add_right _ _, by unfold DiskJob.place; omega⟩).trans ?_
    congr 1
    unfold DiskJob.place
    omega
  rw [vmRead8_guest (ha.lt hvalid), Vm.guestByte, if_neg (hclear a ha), hstored]

end Coherence

/-- After a completed read of sectors inside the image, the guest's loads of the range
return the disk's bytes. -/
def ReadCoherent (M : ℕ) (lba memAddr count : BitVec 32) (host : BounceBuffer) : Prop :=
  ∀ job : DiskJob, job = ⟨diskCmdRead, lba, memAddr, count⟩ → ∀ vm vm' : Vm,
    vm.memorySize = M → vm.Issued job → job.pos + job.bytes ≤ vm.diskImage.size →
    diskWorkerPass host vm = .ok ((), vm') → job.Mirrored vm' vm.diskImage

/-- After a completed write, the disk holds what the guest's loads of the range returned
before. -/
def WriteCoherent (M : ℕ) (lba memAddr count : BitVec 32) (host : BounceBuffer) : Prop :=
  ∀ job : DiskJob, job = ⟨diskCmdWrite, lba, memAddr, count⟩ → ∀ vm vm' : Vm,
    vm.memorySize = M → vm.Issued job → job.pos + job.bytes ≤ vm.diskImage.size →
    diskWorkerPass host vm = .ok ((), vm') → job.Mirrored vm vm'.diskImage

/-- A write from `src` followed by a read of the same sectors to `dst` lets the guest load
at `dst` what it loaded at `src` before the write. -/
def CopyCoherent (M : ℕ) (lba src dst count : BitVec 32) (host host' : BounceBuffer) : Prop :=
  ∀ out back : DiskJob, out = ⟨diskCmdWrite, lba, src, count⟩ →
    back = ⟨diskCmdRead, lba, dst, count⟩ → ∀ vm vm₁ vm₂ vm₃ : Vm,
    vm.memorySize = M → vm.Issued out → out.pos + out.bytes ≤ vm.diskImage.size →
    diskWorkerPass host vm = .ok ((), vm₁) →
    vm₂.memorySize = M → vm₂.diskImage = vm₁.diskImage → vm₂.Issued back →
    diskWorkerPass host' vm₂ = .ok ((), vm₃) →
    ∀ a b, out.Spans a → back.Spans b → out.place a = back.place b →
      ∃ v, vmRead8 a vm = .ok (v, vm) ∧ vmRead8 b vm₃ = .ok (v, vm₃)

/-- The buffer could be allocated and the range has no byte in the legacy window. -/
def DmaClear (memAddr count : BitVec 32) (host : BounceBuffer) : Prop :=
  count = 0 ∨ (host.allocated = true ∧
    (memAddr.toNat + count.toNat * diskSectorSize ≤ fbLegacyBase ∨
      fbLegacyBase + fbSize ≤ memAddr.toNat))

/-- A dark screen, a disk full of ones, and RAM that agrees with the disk if a transfer is
going to take place. -/
def stagedVm (M : ℕ) (job : DiskJob) (host : BounceBuffer) : Vm :=
  { Vm.allocated ⟨fun _ => 0, fun _ => 0, 0⟩ false M 1 0 with
    memory := fun _ => if host.allocated then 1 else 0
    disk := ⟨job.lba, job.memAddr, job.count, .busy, job.cmd, true, false⟩
    diskWorker := .waiting
    diskImage := ⟨job.pos + job.bytes, fun _ => 1⟩ }

theorem stagedVm_issued {M : ℕ} {job : DiskJob} {host : BounceBuffer}
    (h : job.cmd ≠ diskCmdNone) : (stagedVm M job host).Issued job := ⟨rfl, rfl, rfl, h⟩

section Clear

variable {M : ℕ} {lba memAddr count : BitVec 32} {host : BounceBuffer} {job : DiskJob}

theorem DmaClear.spans (h : DmaClear job.memAddr job.count host) {a : BitVec 32}
    (ha : job.Spans a) : host.allocated = true ∧ ¬ InLegacyWindow a.toNat := by
  unfold DiskJob.Spans DiskJob.bytes at ha
  unfold InLegacyWindow
  rcases h with hzero | ⟨halloc, hout⟩
  · rw [hzero, show (0 : BitVec 32).toNat * diskSectorSize = 0 from rfl] at ha
    omega
  · exact ⟨halloc, by omega⟩

/-- Where the range is not clear there is a load of it, and the load goes to the
framebuffer unless nothing was copied. -/
theorem exists_span_of_not_clear (h : ¬ DmaClear job.memAddr job.count host) :
    ∃ a, job.Spans a ∧ (host.allocated = true → InLegacyWindow a.toNat) := by
  obtain ⟨hcount, hbad⟩ := not_or.mp h
  have hcount' : job.count.toNat ≠ 0 := fun h0 => hcount (BitVec.eq_of_toNat_eq h0)
  have hbytes : 0 < job.bytes := Nat.mul_pos (Nat.pos_of_ne_zero hcount') (by decide)
  by_cases halloc : host.allocated = true
  · have hmeets : ¬ (job.memAddr.toNat + job.bytes ≤ fbLegacyBase ∨
        fbLegacyBase + fbSize ≤ job.memAddr.toNat) := fun hout => hbad ⟨halloc, hout⟩
    have hbase : fbLegacyBase = 0x620000 ∧ fbSize = 1228800 := ⟨rfl, rfl⟩
    have hto : (BitVec.ofNat 32 (max job.memAddr.toNat fbLegacyBase)).toNat =
        max job.memAddr.toNat fbLegacyBase := by
      rw [BitVec.toNat_ofNat, Nat.mod_eq_of_lt (by omega)]
    refine ⟨BitVec.ofNat 32 (max job.memAddr.toNat fbLegacyBase), ?_, fun _ => ?_⟩
    · unfold DiskJob.Spans
      omega
    · unfold InLegacyWindow
      omega
  · exact ⟨job.memAddr, ⟨le_rfl, by omega⟩, fun hh => absurd hh halloc⟩

/-- On a dark screen the load returns zero. -/
theorem vmRead8_dark {vm : Vm} {a : BitVec 32} (hlt : a.toNat < vm.memorySize)
    (hfb : vm.fb = fun _ => 0) (hram : ¬ InLegacyWindow a.toNat → vm.memory a.toNat = 0) :
    vmRead8 a vm = .ok (0, vm) := by
  rw [vmRead8_guest hlt, Vm.guestByte]
  split_ifs with hw
  · simp [Vm.screen, hfb]
  · rw [hram hw]

theorem readCoherent_iff (hvalid : isValidDma M memAddr.toNat count.toNat = true) :
    ReadCoherent M lba memAddr count host ↔ DmaClear memAddr count host := by
  constructor
  · intro h
    by_contra hbad
    let job : DiskJob := ⟨diskCmdRead, lba, memAddr, count⟩
    let vm := stagedVm M job host
    have hjob : ¬ DmaClear job.memAddr job.count host := hbad
    obtain ⟨a, ha, hwindow⟩ := exists_span_of_not_clear hjob
    have hlt : a.toNat < M := ha.2.trans_le (isValidDma_iff.mp hvalid)
    have hissued : vm.Issued job := stagedVm_issued (show diskCmdRead ≠ diskCmdNone by decide)
    have hone := h job rfl vm (vm.served job host) rfl hissued le_rfl (diskWorkerPass_eq hissued)
      a ha
    have hdark : vmRead8 a (vm.served job host) = .ok (0, vm.served job host) := by
      refine vmRead8_dark ?_ served_fb fun hw => ?_
      · rw [served_memorySize]
        exact hlt
      · have halloc : ¬ host.allocated = true := fun halloc => hw (hwindow halloc)
        rw [served_memory_of_read rfl hvalid, if_neg halloc]
        exact if_neg halloc
    rw [hdark] at hone
    exact absurd (Prod.mk.inj (Except.ok.inj hone)).1 (show (0 : BitVec 8) ≠ 1 by decide)
  · rintro h job rfl vm vm' rfl hissued himage hpass
    rw [diskWorkerPass_eq hissued] at hpass
    obtain rfl := (Prod.mk.inj (Except.ok.inj hpass)).2
    intro a ha
    exact mirrored_of_read rfl hvalid himage (h.spans ha).1 (fun b hb => (h.spans hb).2) a ha

theorem writeCoherent_iff (hvalid : isValidDma M memAddr.toNat count.toNat = true) :
    WriteCoherent M lba memAddr count host ↔ DmaClear memAddr count host := by
  constructor
  · intro h
    by_contra hbad
    let job : DiskJob := ⟨diskCmdWrite, lba, memAddr, count⟩
    let vm := stagedVm M job host
    have hjob : ¬ DmaClear job.memAddr job.count host := hbad
    obtain ⟨a, ha, hwindow⟩ := exists_span_of_not_clear hjob
    have hlt : a.toNat < M := ha.2.trans_le (isValidDma_iff.mp hvalid)
    have hissued : vm.Issued job := stagedVm_issued (show diskCmdWrite ≠ diskCmdNone by decide)
    have hone := h job rfl vm (vm.served job host) rfl hissued le_rfl (diskWorkerPass_eq hissued)
      a ha
    have hdark : vmRead8 a vm = .ok (0, vm) := by
      refine vmRead8_dark hlt rfl fun hw => ?_
      exact if_neg fun halloc => hw (hwindow halloc)
    have hbyte : (vm.served job host).diskImage.bytes (job.place a) = 1 := by
      rw [served_image_of_write rfl hvalid]
      by_cases halloc : host.allocated = true
      · have hspan : job.pos ≤ job.place a ∧ job.place a < job.pos + job.bytes := by
          have h1 := ha.1
          have h2 := ha.2
          unfold DiskJob.place
          omega
        rw [if_pos halloc]
        exact (if_pos hspan).trans (if_pos halloc)
      · rw [if_neg halloc]
        rfl
    rw [hdark, hbyte] at hone
    exact absurd (Prod.mk.inj (Except.ok.inj hone)).1 (by decide)
  · rintro h job rfl vm vm' rfl hissued himage hpass
    rw [diskWorkerPass_eq hissued] at hpass
    obtain rfl := (Prod.mk.inj (Except.ok.inj hpass)).2
    intro a ha
    exact mirrored_of_write rfl hvalid (h.spans ha).1 (fun b hb => (h.spans hb).2) a ha

/-- The image does not shrink under a write. -/
theorem served_image_size_le {vm : Vm} :
    vm.diskImage.size ≤ (vm.served job host).diskImage.size := by
  by_cases h : job.Writes host vm.memorySize
  · have himage : (vm.served job host).diskImage = _ := diskTransfer_image_of_writes job host vm h
    rw [himage, fwrite]
    dsimp only
    split_ifs
    · exact le_rfl
    · exact le_max_left _ _
  · have himage : (vm.served job host).diskImage = _ :=
      diskTransfer_image_of_not_writes job host vm h
    rw [himage]

theorem copyCoherent_of_coherent {src dst : BitVec 32} {host' : BounceBuffer}
    (hwrite : WriteCoherent M lba src count host) (hread : ReadCoherent M lba dst count host') :
    CopyCoherent M lba src dst count host host' := by
  intro out back hout hback vm vm₁ vm₂ vm₃ hsize hissued himage hpass hsize₂ hsame hissued₂
    hpass₂ a b ha hb hplace
  have hstored := hwrite out hout vm vm₁ hsize hissued himage hpass a ha
  have himage₂ : back.pos + back.bytes ≤ vm₂.diskImage.size := by
    rw [diskWorkerPass_eq hissued] at hpass
    obtain rfl := (Prod.mk.inj (Except.ok.inj hpass)).2
    have hgrow : vm.diskImage.size ≤ (vm.served out host).diskImage.size := served_image_size_le
    subst hout hback
    rw [hsame]
    exact himage.trans hgrow
  have hloaded := hread back hback vm₂ vm₃ hsize₂ hissued₂ himage₂ hpass₂ b hb
  rw [hsame, ← hplace] at hloaded
  exact ⟨_, hstored, hloaded⟩

/-- Disk and guest agree on the bytes of an accepted transfer, in either direction, exactly
when its range is clear; two clear ranges can be copied through the disk. -/
theorem dma_coherent_iff (hvalid : isValidDma M memAddr.toNat count.toNat = true) :
    (ReadCoherent M lba memAddr count host ↔ DmaClear memAddr count host) ∧
    (WriteCoherent M lba memAddr count host ↔ DmaClear memAddr count host) ∧
    ∀ dst host', isValidDma M dst.toNat count.toNat = true → DmaClear memAddr count host →
      DmaClear dst count host' → CopyCoherent M lba memAddr dst count host host' := by
  refine ⟨readCoherent_iff hvalid, writeCoherent_iff hvalid, fun dst host' hdst hsrc hclear => ?_⟩
  exact copyCoherent_of_coherent ((writeCoherent_iff hvalid).mpr hsrc)
    ((readCoherent_iff hdst).mpr hclear)

theorem dma_coherent_kernel_buffer :
    isValidDma memSize (0x300000 : BitVec 32).toNat (8 : BitVec 32).toNat = true ∧
    (ReadCoherent memSize 1 0x300000 8 ⟨true, fun _ => 0⟩ ↔
      DmaClear 0x300000 8 ⟨true, fun _ => 0⟩) :=
  ⟨by decide, (dma_coherent_iff (by decide)).1⟩

/-- One sector read to the start of the legacy window: the guest loads the screen. -/
theorem dma_incoherent_in_window :
    isValidDma memSize (0x620000 : BitVec 32).toNat (1 : BitVec 32).toNat = true ∧
    ¬ ReadCoherent memSize 0 0x620000 1 ⟨true, fun _ => 0⟩ := by
  refine ⟨by decide, fun h => ?_⟩
  have hclear := (readCoherent_iff (by decide)).mp h
  rcases hclear with hzero | ⟨-, hbelow | habove⟩
  · exact absurd hzero (by decide)
  · exact absurd hbelow (by decide)
  · exact absurd habove (by decide)

end Clear

/-! ## What the host's buffer leaves behind -/

/-- Two completed reads that differ in what the buffer held leave the same RAM. -/
def SameRam (vm : Vm) : Prop :=
  ∀ (allocated : Bool) (contents contents' : Bytes) (vm₁ vm₂ : Vm),
    diskWorkerPass ⟨allocated, contents⟩ vm = .ok ((), vm₁) →
    diskWorkerPass ⟨allocated, contents'⟩ vm = .ok ((), vm₂) → vm₁.memory = vm₂.memory

/-- The RAM after a completed read of these registers is a function of the RAM before, the
image and the registers. -/
def ReadDetermined (M : ℕ) (image : DiskImage) (job : DiskJob) : Prop :=
  ∃ f : Bytes → Bytes, ∀ (vm vm' : Vm) (contents : Bytes), vm.memorySize = M →
    vm.diskImage = image → vm.Issued job → diskWorkerPass ⟨true, contents⟩ vm = .ok ((), vm') →
    vm'.memory = f vm.memory

/-- The registers ask for nothing, or for sectors inside the image. -/
def ReadsInside (image : DiskImage) (job : DiskJob) : Prop :=
  job.count = 0 ∨ job.pos + job.bytes ≤ image.size

section Leak

variable {M : ℕ} {image : DiskImage} {vm : Vm} {job : DiskJob}

theorem fread_inside (h : ReadsInside image job) (memory contents contents' : Bytes) :
    copyToRam memory job.memAddr.toNat job.bytes (fread image job.pos job.bytes contents) =
      copyToRam memory job.memAddr.toNat job.bytes (fread image job.pos job.bytes contents') := by
  funext x
  unfold copyToRam fread
  split_ifs with hx hin
  · rfl
  · rcases h with hzero | hsize
    · have hbytes : job.bytes = 0 := by
        unfold DiskJob.bytes
        rw [hzero]
        rfl
      omega
    · omega
  · rfl

/-- Beyond the end of the image the last byte of the range comes from the buffer. -/
theorem fread_outside (h : ¬ ReadsInside image job) (memory contents : Bytes) :
    copyToRam memory job.memAddr.toNat job.bytes (fread image job.pos job.bytes contents)
      (job.memAddr.toNat + (job.bytes - 1)) = contents (job.bytes - 1) := by
  obtain ⟨hcount, hsize⟩ := not_or.mp h
  have hcount' : job.count.toNat ≠ 0 := fun h0 => hcount (BitVec.eq_of_toNat_eq h0)
  have hbytes : 0 < job.bytes := Nat.mul_pos (Nat.pos_of_ne_zero hcount') (by decide)
  unfold copyToRam fread
  rw [if_pos (by omega), if_neg (by omega), Nat.add_sub_cancel_left]

/-- Two buffers that differ leave different RAM. -/
theorem served_memory_ne (hcmd : job.cmd = diskCmdRead)
    (hvalid : isValidDma vm.memorySize job.memAddr.toNat job.count.toNat = true)
    (h : ¬ ReadsInside vm.diskImage job) :
    (vm.served job ⟨true, fun _ => 0⟩).memory ≠ (vm.served job ⟨true, fun _ => 1⟩).memory := by
  intro hsame
  have hlast := congrFun hsame (job.memAddr.toNat + (job.bytes - 1))
  rw [served_memory_of_read hcmd hvalid, served_memory_of_read hcmd hvalid, if_pos rfl, if_pos rfl,
    fread_outside h, fread_outside h] at hlast
  exact absurd hlast (show (0 : BitVec 8) ≠ 1 by decide)

theorem sameRam_iff (hissued : vm.Issued job) (hcmd : job.cmd = diskCmdRead)
    (hvalid : isValidDma vm.memorySize job.memAddr.toNat job.count.toNat = true) :
    SameRam vm ↔ ReadsInside vm.diskImage job := by
  constructor
  · intro h
    by_contra hout
    apply served_memory_ne hcmd hvalid hout
    exact h true _ _ _ _ (diskWorkerPass_eq hissued) (diskWorkerPass_eq hissued)
  · intro h allocated contents contents' vm₁ vm₂ h₁ h₂
    rw [diskWorkerPass_eq hissued] at h₁ h₂
    obtain rfl := (Prod.mk.inj (Except.ok.inj h₁)).2
    obtain rfl := (Prod.mk.inj (Except.ok.inj h₂)).2
    rw [served_memory_of_read hcmd hvalid, served_memory_of_read hcmd hvalid, fread_inside h]

theorem readDetermined_iff (hissued : vm.Issued job) (hcmd : job.cmd = diskCmdRead)
    (hvalid : isValidDma vm.memorySize job.memAddr.toNat job.count.toNat = true) :
    ReadDetermined vm.memorySize vm.diskImage job ↔ ReadsInside vm.diskImage job := by
  constructor
  · rintro ⟨f, hf⟩
    by_contra hout
    apply served_memory_ne hcmd hvalid hout
    have h0 := hf vm _ (fun _ => 0) rfl rfl hissued (diskWorkerPass_eq hissued)
    have h1 := hf vm _ (fun _ => 1) rfl rfl hissued (diskWorkerPass_eq hissued)
    exact h0.trans h1.symm
  · intro h
    refine ⟨fun memory => copyToRam memory job.memAddr.toNat job.bytes
      (fread vm.diskImage job.pos job.bytes fun _ => 0), ?_⟩
    intro s t contents hsize himage hs hpass
    rw [diskWorkerPass_eq hs] at hpass
    obtain rfl := (Prod.mk.inj (Except.ok.inj hpass)).2
    rw [← hsize] at hvalid
    rw [served_memory_of_read hcmd hvalid, himage]
    exact fread_inside h _ _ _

/-- A completed read depends on nothing but the RAM before it, the image and the registers
exactly when it stays inside the image. -/
theorem read_independent_iff (hissued : vm.Issued job) (hcmd : job.cmd = diskCmdRead)
    (hvalid : isValidDma vm.memorySize job.memAddr.toNat job.count.toNat = true) :
    (SameRam vm ↔ ReadsInside vm.diskImage job) ∧
    (ReadDetermined vm.memorySize vm.diskImage job ↔ ReadsInside vm.diskImage job) :=
  ⟨sameRam_iff hissued hcmd hvalid, readDetermined_iff hissued hcmd hvalid⟩

/-- One sector of a one-sector image, and one sector of an empty one. -/
def sectorRead : DiskJob := ⟨diskCmdRead, 0, 0x300000, 1⟩

def pastEndVm : Vm :=
  { stagedVm memSize sectorRead ⟨true, fun _ => 0⟩ with diskImage := ⟨0, fun _ => 0⟩ }

theorem pastEndVm_issued : pastEndVm.Issued sectorRead := ⟨rfl, rfl, rfl, by decide⟩

theorem read_independent_first_sector :
    (stagedVm memSize sectorRead ⟨true, fun _ => 0⟩).Issued sectorRead ∧
    (SameRam (stagedVm memSize sectorRead ⟨true, fun _ => 0⟩) ↔
      ReadsInside (stagedVm memSize sectorRead ⟨true, fun _ => 0⟩).diskImage sectorRead) := by
  have hissued : (stagedVm memSize sectorRead ⟨true, fun _ => 0⟩).Issued sectorRead :=
    stagedVm_issued (by decide)
  exact ⟨hissued, (read_independent_iff hissued rfl (by decide)).1⟩

/-- Of an empty image nothing is read, and the guest gets the buffer. -/
theorem read_shows_host_memory :
    pastEndVm.Issued sectorRead ∧ sectorRead.cmd = diskCmdRead ∧
    isValidDma pastEndVm.memorySize sectorRead.memAddr.toNat sectorRead.count.toNat = true ∧
    ¬ SameRam pastEndVm := by
  have hvalid : isValidDma pastEndVm.memorySize sectorRead.memAddr.toNat
      sectorRead.count.toNat = true := by decide
  have hout : ¬ ReadsInside pastEndVm.diskImage sectorRead := by
    rintro (hzero | hsize)
    · exact absurd hzero (by decide)
    · exact absurd hsize (by decide)
  refine ⟨pastEndVm_issued, rfl, hvalid, fun h => ?_⟩
  exact hout ((sameRam_iff pastEndVm_issued rfl hvalid).mp h)

end Leak

end LampVm
