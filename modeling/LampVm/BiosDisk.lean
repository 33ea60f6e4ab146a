import LampVm.DiskDma

/-!
# The disk driver of the BIOS

`disk_read_sectors` and `isr_disk_complete` of `bios.c`. The driver clears a flag, writes the
four command ports and spins until the flag is set; the handler of the completion vector sets
it. The disk worker, the tick of core 0, the delivery of the vector and everything else that
happens in the machine come in between in any order.
-/
namespace LampVm

open ByteOrder Contract Transition

/-! ## The driver -/

/-- The arguments of `disk_read_sectors`. -/
structure SectorRead where
  lba : BitVec 32
  count : BitVec 32
  memAddr : BitVec 32
  deriving DecidableEq, Repr

/-- What the disk is asked for. -/
def SectorRead.job (r : SectorRead) : DiskJob := ⟨diskCmdRead, r.lba, r.memAddr, r.count⟩

def SectorRead.buffer (r : SectorRead) : Set ℕ :=
  {a | ∃ k < r.job.bytes, r.memAddr.toNat + k = a}

/-- The statement of `disk_read_sectors` behind the first that is next. -/
inductive SectorPlace
  | lba | mem | count | cmd | wait
  deriving DecidableEq, Repr

def SectorPlace.out (r : SectorRead) : SectorPlace → Option (ℤ × BitVec 32)
  | .lba => some (portDiskLba, r.lba)
  | .mem => some (portDiskMem, r.memAddr)
  | .count => some (portDiskCount, r.count)
  | .cmd => some (portDiskCmd, diskCmdRead)
  | .wait => none

def SectorPlace.next : SectorPlace → SectorPlace
  | .lba => .mem
  | .mem => .count
  | .count => .cmd
  | .cmd | .wait => .wait

/-- Outside `isr_disk_complete`, or before and after its store. -/
inductive IsrPlace
  | out | entered | stored
  deriving DecidableEq, Repr

structure BiosDisk where
  race : DiskRace
  /-- `disk_done`. -/
  diskDone : Bool
  reading : Option (SectorRead × SectorPlace)
  isr : IsrPlace

/-- The bytes that the read in progress is to fill. -/
def BiosDisk.buffer (s : BiosDisk) : Set ℕ :=
  match s.reading with
  | none => ∅
  | some (r, _) => r.buffer

def Vm.diskPending (vm : Vm) : Prop := (0, intDiskComplete.toNat) ∈ vm.pendingSet

/-- `vm_handle_interrupts` takes the completion vector. -/
def Vm.takeDiskVector (vm : Vm) : Vm :=
  vm.setWord (0 * irqBitmapWords + intDiskComplete.toNat / 64)
    (vm.interruptBitmap (0 * irqBitmapWords + intDiskComplete.toNat / 64) &&&
      ~~~((1 : BitVec 64) <<< (intDiskComplete.toNat % 64)))

/-- What the rest of the machine leaves alone: the disk, its image and vector, and the buffer of a
read in progress. -/
structure Bystander (buffer : Set ℕ) (s t : DiskRace) : Prop where
  disk : SameDisk s.vm t.vm
  ticking : t.ticking = s.ticking
  image : t.vm.diskImage = s.vm.diskImage
  memorySize : t.vm.memorySize = s.vm.memorySize
  vector : t.vm.diskPending ↔ s.vm.diskPending
  memory : ∀ a ∈ buffer, t.vm.memory a = s.vm.memory a

inductive BiosLabel
  | call (r : SectorRead)
  | out
  | test
  | deliver
  | store
  | iret
  | device (l : DiskLabel)
  | other

/-- The steps. Entry to `isr_disk_complete` pushes the context of core 0 in RAM, which is anywhere
but in the buffer. -/
inductive BiosStep (M : ℕ) (smpCores : ℤ) (s : BiosDisk) : BiosLabel → BiosDisk → Prop
  | call (r : SectorRead) (hisr : s.isr = .out) (hread : s.reading = none) :
      BiosStep M smpCores s (.call r) { s with diskDone := false, reading := some (r, .lba) }
  | out {r : SectorRead} {place : SectorPlace} {port : ℤ} {value : BitVec 32} {t : DiskRace}
      (hisr : s.isr = .out) (hread : s.reading = some (r, place))
      (hport : place.out r = some (port, value))
      (h : (diskRace M smpCores).step s.race (.out port value) t) :
      BiosStep M smpCores s .out { s with race := t, reading := some (r, place.next) }
  | test {r : SectorRead} (hisr : s.isr = .out) (hread : s.reading = some (r, .wait)) :
      BiosStep M smpCores s .test { s with reading := if s.diskDone then none else s.reading }
  | deliver {m : Bytes} (hisr : s.isr = .out) (hpend : s.race.vm.diskPending)
      (hm : ∀ a ∈ s.buffer, m a = s.race.vm.memory a) :
      BiosStep M smpCores s .deliver { s with
        race := { s.race with vm := { s.race.vm.takeDiskVector with memory := m } }
        isr := .entered }
  | store (hisr : s.isr = .entered) :
      BiosStep M smpCores s .store { s with diskDone := true, isr := .stored }
  | iret (hisr : s.isr = .stored) : BiosStep M smpCores s .iret { s with isr := .out }
  | device {l : DiskLabel} {t : DiskRace} (hl : l.serves)
      (h : (diskRace M smpCores).step s.race l t) :
      BiosStep M smpCores s (.device l) { s with race := t }
  | other {t : DiskRace} (h : Bystander s.buffer s.race t) :
      BiosStep M smpCores s .other { s with race := t }

/-- The BIOS on a machine that has just been started. -/
def biosDisk (M : ℕ) (smpCores : ℤ) : System BiosDisk BiosLabel where
  init s := (diskRace M smpCores).init s.race ∧ s.reading = none ∧ s.isr = .out
  step := BiosStep M smpCores

/-! ## Where a read stands -/

/-- The buffer holds the sectors of the image, as far as the image reaches. -/
def Delivered (r : SectorRead) (vm : Vm) : Prop :=
  isValidDma vm.memorySize r.memAddr.toNat r.count.toNat = true →
    ∀ k, k < r.job.bytes → r.job.pos + k < vm.diskImage.size →
      vm.memory (r.memAddr.toNat + k) = vm.diskImage.bytes (r.job.pos + k)

/-- The ports written so far. -/
def SectorPlace.sent (r : SectorRead) (d : Disk) : SectorPlace → Prop
  | .lba => True
  | .mem => d.lba = r.lba
  | .count => d.lba = r.lba ∧ d.memAddr = r.memAddr
  | .cmd | .wait => d.lba = r.lba ∧ d.memAddr = r.memAddr ∧ d.count = r.count

/-- The outstanding command is the one of this read; `A` says whether its data counts. -/
def SectorRead.Outstanding (r : SectorRead) (A : Prop) (vm : Vm) : CommandPhase → Prop
  | .none => False
  | .issued cmd => cmd = diskCmdRead ∧ SectorPlace.wait.sent r vm.disk ∧
    ∀ job, vm.diskWorker = .holding job → job = r.job
  | .performed _ | .completed => A → Delivered r vm

/-- While the driver waits: the command is outstanding, or it has been reported and its report
is on the way through the pending vector and the handler. -/
inductive Awaits (r : SectorRead) (A : Prop) (s : BiosDisk) : CommandPhase → Prop
  | outstanding {p : CommandPhase} (h : r.Outstanding A s.race.vm p)
      (hpend : ¬ s.race.vm.diskPending) (hisr : s.isr = .out) (hdone : s.diskDone = false) :
      Awaits r A s p
  | pending (h : A → Delivered r s.race.vm) (hpend : s.race.vm.diskPending) (hisr : s.isr = .out)
      (hdone : s.diskDone = false) : Awaits r A s .none
  | entered (h : A → Delivered r s.race.vm) (hpend : ¬ s.race.vm.diskPending)
      (hisr : s.isr = .entered) : Awaits r A s .none
  | done (h : A → Delivered r s.race.vm) (hpend : ¬ s.race.vm.diskPending)
      (hisr : s.isr ≠ .entered) (hdone : s.diskDone = true) : Awaits r A s .none

/-- Between two commands nothing of the last one is left. -/
structure Calm (s : BiosDisk) (p : CommandPhase) : Prop where
  free : p = .none
  vector : ¬ s.race.vm.diskPending
  isr : s.isr = .out

def ReadState (A : Prop) (s : BiosDisk) (p : CommandPhase) : Prop :=
  match s.reading with
  | none => Calm s p
  | some (r, .wait) => Awaits r A s p
  | some (r, place) => Calm s p ∧ s.diskDone = false ∧ place.sent r s.race.vm.disk

structure BiosInv (A : Prop) (s : BiosDisk) (p : CommandPhase) : Prop where
  represents : DiskRepresents s.race p
  state : ReadState A s p

section Steps

variable {M : ℕ} {smpCores : ℤ} {A : Prop} {s t : BiosDisk} {p : CommandPhase} {r : SectorRead}
  {place : SectorPlace} {vm vm' : Vm}

theorem Delivered.congr (h : Delivered r vm) (hmem : ∀ a ∈ r.buffer, vm'.memory a = vm.memory a)
    (himage : vm'.diskImage = vm.diskImage) (hsize : vm'.memorySize = vm.memorySize) :
    Delivered r vm' := by
  intro hvalid k hk hpos
  rw [hmem _ ⟨k, hk, rfl⟩, himage]
  exact h (hsize ▸ hvalid) k hk (himage ▸ hpos)

/-- The transfer of the read's job delivers its data when the bounce buffer was allocated. -/
theorem delivered_transfer {host : BounceBuffer} (halloc : host.allocated = true) (w : DiskWorker) :
    Delivered r { diskTransfer r.job host vm with diskWorker := w } := by
  intro hvalid k hk hpos
  have hsize : (diskTransfer r.job host vm).memorySize = vm.memorySize := by
    obtain ⟨memory, image, h⟩ := diskTransfer_frame r.job host vm
    rw [h]
  have hvalid' : isValidDma vm.memorySize r.job.memAddr.toNat r.job.count.toNat = true :=
    hsize ▸ hvalid
  have htransfer : diskTransfer r.job host vm = { vm with
      memory := copyToRam vm.memory r.memAddr.toNat r.job.bytes
        (fread vm.diskImage r.job.pos r.job.bytes host.contents) } := by
    unfold diskTransfer
    dsimp only
    rw [if_neg (not_not.mpr hvalid'), if_pos (show r.job.cmd = diskCmdRead from rfl), if_pos halloc]
    rfl
  rw [htransfer] at hpos ⊢
  simp only [copyToRam, fread]
  have hin : r.memAddr.toNat ≤ r.memAddr.toNat + k ∧
      r.memAddr.toNat + k < r.memAddr.toNat + r.job.bytes := ⟨by omega, by omega⟩
  rw [if_pos hin, Nat.add_sub_cancel_left, if_pos ⟨hk, hpos⟩]

theorem takeDiskVector_pending (vm : Vm) : ¬ vm.takeDiskVector.diskPending := by
  rw [Vm.diskPending, Vm.takeDiskVector, pendingSet_clear vm 0 (by decide)]
  exact fun h => h.2 rfl

/-- A port write moves the driver on and leaves the rest of the machine alone. -/
theorem sent_out {port : ℤ} {value : BitVec 32} (hport : place.out r = some (port, value))
    (hsent : place.sent r vm.disk) : place.next.sent r (vm.disk.out port value) := by
  cases place with
  | lba =>
    obtain ⟨rfl, rfl⟩ := Prod.mk.inj (Option.some.inj hport)
    rfl
  | mem =>
    obtain ⟨rfl, rfl⟩ := Prod.mk.inj (Option.some.inj hport)
    exact ⟨hsent, rfl⟩
  | count =>
    obtain ⟨rfl, rfl⟩ := Prod.mk.inj (Option.some.inj hport)
    exact ⟨hsent.1, hsent.2, rfl⟩
  | cmd =>
    obtain ⟨rfl, rfl⟩ := Prod.mk.inj (Option.some.inj hport)
    have hout : ∀ d : Disk, (d.cmd diskCmdRead).lba = d.lba ∧
        (d.cmd diskCmdRead).memAddr = d.memAddr ∧ (d.cmd diskCmdRead).count = d.count := by
      intro d
      unfold Disk.cmd
      split_ifs <;> exact ⟨rfl, rfl, rfl⟩
    obtain ⟨h1, h2, h3⟩ := hout vm.disk
    exact ⟨h1.trans hsent.1, h2.trans hsent.2.1, h3.trans hsent.2.2⟩
  | wait => cases hport

end Steps

/-! ## Steps of the device -/

/-- The image and the bytes of `B` are as before. -/
structure SameData (B : Set ℕ) (s t : Vm) : Prop where
  memory : ∀ a ∈ B, t.memory a = s.memory a
  image : t.diskImage = s.diskImage
  memorySize : t.memorySize = s.memorySize

/-- What a step of the worker or of the tick does to the outstanding command. -/
inductive Served (B : Set ℕ) (s t : DiskRace) : DiskLabel → CommandPhase → CommandPhase → Prop
  | quiet {l : DiskLabel} {p : CommandPhase} (hdata : SameData B s.vm t.vm)
      (hdisk : t.vm.disk = s.vm.disk) (hpend : t.vm.diskPending ↔ s.vm.diskPending)
      (hworker : ∀ job, t.vm.diskWorker = .holding job → s.vm.diskWorker = .holding job ∨
        job = s.vm.disk.job s.vm.disk.currentCmd) : Served B s t l p p
  | transfer {host : BounceBuffer} {job : DiskJob} (hw : s.vm.diskWorker = .holding job)
      (hvm : t.vm = { diskTransfer job host s.vm with diskWorker := .transferred job }) :
      Served B s t (.transfer host) (.issued job.cmd) (.performed job.cmd)
  | complete {cmd : BitVec 32} (hdata : SameData B s.vm t.vm)
      (hpend : t.vm.diskPending ↔ s.vm.diskPending) :
      Served B s t .complete (.performed cmd) .completed
  | report (hdata : SameData B s.vm t.vm) (hpend : t.vm.diskPending) :
      Served B s t .tickLocked .completed .none

section Served

variable {M : ℕ} {smpCores : ℤ} {B : Set ℕ} {s t : DiskRace} {p : CommandPhase}

/-- Everything the data depends on is as before. -/
theorem SameData.of_eq {vm vm' : Vm} (hmem : vm'.memory = vm.memory)
    (himage : vm'.diskImage = vm.diskImage) (hsize : vm'.memorySize = vm.memorySize) :
    SameData B vm vm' :=
  ⟨fun _ _ => by rw [hmem], himage, hsize⟩

theorem diskPending_of_bitmap {vm vm' : Vm} (hbitmap : vm'.interruptBitmap = vm.interruptBitmap)
    (hcores : vm'.smpCores = vm.smpCores) : vm'.diskPending ↔ vm.diskPending := by
  simp only [Vm.diskPending, Vm.pendingSet, Vm.pending, hbitmap, hcores]

theorem Served.same (l : DiskLabel) (h : t.vm = s.vm) : Served B s t l p p :=
  .quiet (.of_eq (by rw [h]) (by rw [h]) (by rw [h])) (by rw [h]) (by rw [h])
    fun _ hjob => .inl (h ▸ hjob)

theorem served_take (h : (diskRace M smpCores).step s .take t) :
    Served B s t .take p p := by
  have hvm := workerTake_ok h.1
  refine .quiet (.of_eq (by rw [hvm]) (by rw [hvm]) (by rw [hvm])) (by rw [hvm])
    (diskPending_of_bitmap (by rw [hvm]) (by rw [hvm])) fun job hjob => ?_
  rw [hvm] at hjob
  change s.vm.diskWorker.take s.vm.disk = _ at hjob
  cases hw : s.vm.diskWorker with
  | waiting =>
    rw [hw, DiskWorker.take] at hjob
    split_ifs at hjob
    exact .inr (DiskWorker.holding.inj hjob).symm
  | holding job' | transferred job' | exited =>
    rw [hw] at hjob
    exact .inl hjob

theorem served_transfer (hR : DiskRepresents s p) {host : BounceBuffer}
    (h : (diskRace M smpCores).step s (.transfer host) t) :
    ∃ p', Served B s t (.transfer host) p p' ∧ DiskRepresents t p' := by
  have hnext := (represents_transfer hR h).2
  cases hw : s.vm.diskWorker with
  | holding job =>
    obtain ⟨rfl, -⟩ := (hw ▸ hR.state : DiskState _ (.holding job) p).of_holding
    have hvm := ((Prod.mk.inj (Except.ok.inj h.1)).2).symm
    simp only [hw] at hvm
    simp only [diskNotes, hw] at hnext
    exact ⟨_, .transfer hw hvm, hnext⟩
  | waiting | transferred job | exited =>
    have hvm := ((Prod.mk.inj (Except.ok.inj h.1)).2).symm
    simp only [hw] at hvm
    rw [diskNotes_transfer_idle (by simp [hw])] at hnext
    exact ⟨p, .same _ hvm, hnext⟩

theorem served_complete (hR : DiskRepresents s p) (h : (diskRace M smpCores).step s .complete t) :
    ∃ p', Served B s t .complete p p' ∧ DiskRepresents t p' := by
  have hnext := (represents_complete hR h).2
  obtain ⟨job, hw, hvm⟩ | ⟨hw, hvm⟩ := workerComplete_cases h.1
  · obtain ⟨⟨cmd, rfl⟩, -⟩ := (hw ▸ hR.state : DiskState _ (.transferred job) p).of_transferred
    simp only [diskNotes, hw] at hnext
    exact ⟨_, .complete (.of_eq (by rw [hvm]) (by rw [hvm]) (by rw [hvm]))
      (diskPending_of_bitmap (by rw [hvm]) (by rw [hvm])), hnext⟩
  · rw [diskNotes_complete_idle hw] at hnext
    exact ⟨p, .same _ hvm, hnext⟩

theorem sameData_tickLocked {vm vm' : Vm} (h : diskTickLocked vm = .ok ((), vm')) :
    SameData B vm vm' := by
  change (if vm.disk.tick.2 = true then triggerInterrupt intDiskComplete else pure () : VmM Unit)
    { vm with disk := vm.disk.tick.1 } = .ok ((), vm') at h
  split_ifs at h
  · obtain ⟨-, rfl⟩ | ⟨-, rfl⟩ := triggerInterruptTarget_cases h
    · exact .of_eq rfl rfl rfl
    · exact .of_eq rfl rfl rfl
  · obtain ⟨-, rfl⟩ := Prod.mk.inj (Except.ok.inj h)
    exact .of_eq rfl rfl rfl

theorem served_tickLocked (hR : DiskRepresents s p)
    (h : (diskRace M smpCores).step s .tickLocked t) :
    ∃ p', Served B s t .tickLocked p p' ∧ DiskRepresents t p' := by
  have hdata : SameData B s.vm t.vm := sameData_tickLocked h.2.1
  have hnext := (represents_tickLocked hR h).2
  have heffect := diskEffect_tickLocked hR.cores h
  obtain ⟨hdisk, hworker, hcores, -⟩ := diskTickLocked_ok h.2.1
  simp only [DiskEffect] at heffect
  by_cases hop : s.vm.disk.tick.2 = true
  · have hnotes : diskNotes s .tickLocked = [.interrupted] := if_pos hop
    have hp : p = .completed := by
      have hlegal := (represents_tickLocked hR h).1
      rw [hnotes] at hlegal
      exact hlegal.1
    subst hp
    rw [hnotes] at hnext heffect
    rw [if_pos (List.mem_singleton_self _)] at heffect
    refine ⟨.none, .report hdata ?_, hnext⟩
    rw [Vm.diskPending, heffect]
    exact Set.mem_insert _ _
  · have hnotes : diskNotes s .tickLocked = [] := if_neg hop
    rw [hnotes] at hnext heffect
    rw [if_neg (List.not_mem_nil)] at heffect
    have hsame : s.vm.disk.tick.1 = s.vm.disk := by
      unfold Disk.tick at hop ⊢
      split_ifs at hop ⊢
      · exact absurd rfl hop
      · rfl
    refine ⟨p, .quiet hdata (hdisk.trans hsame) (by rw [Vm.diskPending, heffect]; rfl) ?_, hnext⟩
    intro job hjob
    exact .inl (hworker ▸ hjob)

/-- Every step of the worker and of the tick. -/
theorem served_step {l : DiskLabel} (hl : l.serves) (hR : DiskRepresents s p)
    (h : (diskRace M smpCores).step s l t) : ∃ p', Served B s t l p p' ∧ DiskRepresents t p' := by
  cases l with
  | out addr value => exact hl.elim
  | other => exact hl.elim
  | take => exact ⟨p, served_take h, (represents_take hR h).2⟩
  | transfer host => exact served_transfer hR h
  | complete => exact served_complete hR h
  | tickTest =>
    have hvm := ((Prod.mk.inj (Except.ok.inj h.2)).2).symm
    exact ⟨p, .same _ hvm, (diskRepresents_step .tickTest hR (commandOk_of_serves trivial) h).2⟩
  | tickLocked => exact served_tickLocked hR h

end Served

/-! ## The invariant -/

section Invariant

variable {M : ℕ} {smpCores : ℤ} {A : Prop} {s t : BiosDisk} {p p' : CommandPhase} {r : SectorRead}
  {l : DiskLabel} {u : DiskRace}

theorem Delivered.same {vm vm' : Vm} (h : A → Delivered r vm) (hdata : SameData r.buffer vm vm') :
    A → Delivered r vm' :=
  fun hA => (h hA).congr hdata.memory hdata.image hdata.memorySize

theorem Calm.served {B : Set ℕ} (h : Calm s p) (hserved : Served B s.race u l p p') :
    Calm { s with race := u } p' ∧ u.vm.disk = s.race.vm.disk := by
  obtain ⟨rfl, hvector, hisr⟩ := h
  cases hserved with
  | quiet hdata hdisk hpend hworker => exact ⟨⟨rfl, mt hpend.mp hvector, hisr⟩, hdisk⟩

theorem SectorRead.Outstanding.quiet {cmd : BitVec 32} {vm vm' : Vm}
    (h : r.Outstanding A vm (.issued cmd)) (hcmd : vm.disk.currentCmd = cmd)
    (hdisk : vm'.disk = vm.disk) (hworker : ∀ job, vm'.diskWorker = .holding job →
      vm.diskWorker = .holding job ∨ job = vm.disk.job vm.disk.currentCmd) :
    r.Outstanding A vm' (.issued cmd) := by
  obtain ⟨rfl, hsent, hjob⟩ := h
  refine ⟨rfl, by rwa [hdisk], fun job hw => ?_⟩
  obtain hheld | rfl := hworker job hw
  · exact hjob job hheld
  · rw [hcmd, Disk.job, hsent.1, hsent.2.1, hsent.2.2]
    rfl

theorem Awaits.served (h : Awaits r A s p) (hR : DiskRepresents s.race p)
    (hok : A → ∀ host, l = .transfer host → host.allocated = true)
    (hserved : Served r.buffer s.race u l p p') : Awaits r A { s with race := u } p' := by
  cases h with
  | outstanding h hpend hisr hdone =>
    cases hserved with
    | quiet hdata hdisk hpend' hworker =>
      refine .outstanding ?_ (mt hpend'.mp hpend) hisr hdone
      cases p with
      | none => exact h.elim
      | issued cmd => exact h.quiet hR.state.2.1 hdisk hworker
      | performed cmd => exact Delivered.same h hdata
      | completed => exact Delivered.same h hdata
    | @transfer host job hw hvm =>
      obtain rfl := h.2.2 job hw
      refine .outstanding (fun hA => ?_) ?_ hisr hdone
      · rw [hvm]
        exact delivered_transfer (hok hA host rfl) _
      · obtain ⟨memory, image, htransfer⟩ := diskTransfer_frame r.job host s.race.vm
        refine mt (diskPending_of_bitmap ?_ ?_).mp hpend
        · rw [hvm, htransfer]
        · rw [hvm, htransfer]
    | complete hdata hpend' =>
      exact .outstanding (Delivered.same h hdata) (mt hpend'.mp hpend) hisr hdone
    | report hdata hpend' => exact .pending (Delivered.same h hdata) hpend' hisr hdone
  | pending h hpend hisr hdone =>
    cases hserved with
    | quiet hdata hdisk hpend' hworker =>
      exact .pending (Delivered.same h hdata) (hpend'.mpr hpend) hisr hdone
  | entered h hpend hisr =>
    cases hserved with
    | quiet hdata hdisk hpend' hworker =>
      exact .entered (Delivered.same h hdata) (mt hpend'.mp hpend) hisr
  | done h hpend hisr hdone =>
    cases hserved with
    | quiet hdata hdisk hpend' hworker =>
      exact .done (Delivered.same h hdata) (mt hpend'.mp hpend) hisr hdone

/-- A bystander is a quiet step. -/
theorem Bystander.served {B : Set ℕ} (h : Bystander B s.race u) : Served B s.race u .other p p :=
  .quiet ⟨h.memory, h.image, h.memorySize⟩ h.disk.disk h.vector fun _ hjob =>
    .inl (h.disk.diskWorker ▸ hjob)

theorem Bystander.represents {B : Set ℕ} (h : Bystander B s.race u) (hR : DiskRepresents s.race p) :
    DiskRepresents u p :=
  ⟨by rw [h.disk.disk, h.disk.diskWorker]; exact hR.state, by rw [h.disk.disk]; exact hR.running,
    by rw [h.disk.smpCores]; exact hR.cores⟩

/-- A quiet step or a step of the device, when the driver is somewhere. -/
theorem ReadState.served (h : ReadState A s p) (hR : DiskRepresents s.race p)
    (hok : A → ∀ host, l = .transfer host → host.allocated = true)
    (hserved : Served s.buffer s.race u l p p') : ReadState A { s with race := u } p' := by
  obtain ⟨race, done, reading, isr⟩ := s
  cases reading with
  | none => exact (Calm.served h hserved).1
  | some rp =>
    obtain ⟨r, place⟩ := rp
    cases place with
    | wait => exact Awaits.served h hR hok hserved
    | lba | mem | count | cmd =>
      obtain ⟨hcalm, hdone, hsent⟩ := h
      obtain ⟨hcalm', hdisk⟩ := Calm.served hcalm hserved
      exact ⟨hcalm', hdone, by rw [hdisk]; exact hsent⟩

/-- The bounce buffers of all transfers are allocated. -/
def Allocates (_ : BiosDisk) (l : BiosLabel) : Prop :=
  ∀ host, l = .device (.transfer host) → host.allocated = true

/-- A port write of the driver. -/
theorem biosInv_out {place : SectorPlace} {port : ℤ} {value : BitVec 32} (hI : BiosInv A s p)
    (hread : s.reading = some (r, place)) (hport : place.out r = some (port, value))
    (h : (diskRace M smpCores).step s.race (.out port value) u) :
    ∃ p', BiosInv A { s with race := u, reading := some (r, place.next) } p' := by
  obtain ⟨hR, hstate⟩ := hI
  have hview := acceptIo_diskView h.1
  simp only [Vm.diskView, Prod.mk.injEq] at hview
  obtain ⟨hdisk, hworker, hcores, hbitmap⟩ := hview
  have hpend : u.vm.diskPending ↔ s.race.vm.diskPending := diskPending_of_bitmap hbitmap hcores
  rw [ReadState, hread] at hstate
  cases place with
  | wait => cases hport
  | lba | mem | count =>
    obtain ⟨⟨rfl, hvector, hisr⟩, hdone, hsent⟩ := hstate
    have hne : port ≠ portDiskCmd := by
      obtain ⟨rfl, -⟩ := Prod.mk.inj (Option.some.inj hport)
      decide
    have hcommand : CommandOk s.race (.out port value) := by
      rintro v ⟨⟩
      exact absurd rfl hne
    have hnext := (represents_out hR hcommand h).2
    rw [diskNotes, if_pos hne] at hnext
    exact ⟨.none, hnext, ⟨rfl, mt hpend.mp hvector, hisr⟩, hdone, hdisk ▸ sent_out hport hsent⟩
  | cmd =>
    obtain ⟨⟨rfl, hvector, hisr⟩, hdone, hsent⟩ := hstate
    have hall := sent_out hport hsent
    obtain ⟨rfl, rfl⟩ := Prod.mk.inj (Option.some.inj hport)
    refine ⟨.issued diskCmdRead, (represents_issued hR (by decide) h).1, .outstanding ⟨rfl, hdisk ▸ hall,
      fun job hw => ?_⟩ (mt hpend.mp hvector) hisr hdone⟩
    rw [hworker] at hw
    change s.race.vm.diskWorker = _ at hw
    rw [hR.state.2.2.2] at hw
    cases hw

/-- The driver waits, or nothing of a command is left. -/
theorem ReadState.calm_or_awaits (h : ReadState A s p) :
    Calm s p ∨ ∃ r, s.reading = some (r, .wait) ∧ Awaits r A s p := by
  obtain ⟨race, done, reading, isr⟩ := s
  cases reading with
  | none => exact .inl h
  | some rp =>
    obtain ⟨r, place⟩ := rp
    cases place with
    | wait => exact .inr ⟨r, rfl, h⟩
    | lba | mem | count | cmd => exact .inl h.1

theorem ReadState.of_awaits (hread : s.reading = some (r, .wait)) (h : Awaits r A s p) :
    ReadState A s p := by
  rw [ReadState, hread]
  exact h

theorem ReadState.awaits (hread : s.reading = some (r, .wait)) (h : ReadState A s p) :
    Awaits r A s p := by
  rw [ReadState, hread] at h
  exact h

theorem biosInv_test (hI : BiosInv A s p) (hisr : s.isr = .out)
    (hread : s.reading = some (r, .wait)) :
    BiosInv A { s with reading := if s.diskDone then none else s.reading } p := by
  refine ⟨hI.represents, ?_⟩
  by_cases hdone : s.diskDone = true
  · rw [if_pos hdone]
    cases hI.state.awaits hread with
    | outstanding h hpend hisr' hdone' => exact absurd hdone (by simp [hdone'])
    | pending h hpend hisr' hdone' => exact absurd hdone (by simp [hdone'])
    | entered h hpend hisr' => exact absurd (hisr'.symm.trans hisr) (by decide)
    | done h hpend hisr' hdone' => exact ⟨rfl, hpend, hisr⟩
  · rw [if_neg hdone]
    exact hI.state

theorem biosInv_deliver {m : Bytes} (hI : BiosInv A s p) (hpend : s.race.vm.diskPending)
    (hm : ∀ a ∈ s.buffer, m a = s.race.vm.memory a) :
    BiosInv A { s with
      race := { s.race with vm := { s.race.vm.takeDiskVector with memory := m } }
      isr := .entered } p := by
  refine ⟨⟨hI.represents.state, hI.represents.running, hI.represents.cores⟩, ?_⟩
  obtain hcalm | ⟨r, hread, hwait⟩ := hI.state.calm_or_awaits
  · exact absurd hpend hcalm.vector
  · refine .of_awaits (r := r) hread ?_
    cases hwait with
    | outstanding h hno => exact absurd hpend hno
    | pending h _ hisr hdone =>
      refine .entered (fun hA => (h hA).congr ?_ rfl rfl) (takeDiskVector_pending s.race.vm) rfl
      rwa [BiosDisk.buffer, hread] at hm
    | entered h hno => exact absurd hpend hno
    | done h hno => exact absurd hpend hno

theorem biosInv_store (hI : BiosInv A s p) (hisr : s.isr = .entered) :
    BiosInv A { s with diskDone := true, isr := .stored } p := by
  refine ⟨hI.represents, ?_⟩
  obtain hcalm | ⟨r, hread, hwait⟩ := hI.state.calm_or_awaits
  · exact absurd (hisr.symm.trans hcalm.isr) (by decide)
  · refine .of_awaits (r := r) hread ?_
    cases hwait with
    | outstanding h hpend hout => exact absurd (hisr.symm.trans hout) (by decide)
    | pending h hpend hout => exact absurd (hisr.symm.trans hout) (by decide)
    | entered h hpend => exact .done h hpend (show IsrPlace.stored ≠ .entered by decide) rfl
    | done h hpend hne => exact absurd hisr hne

theorem biosInv_iret (hI : BiosInv A s p) (hisr : s.isr = .stored) :
    BiosInv A { s with isr := .out } p := by
  refine ⟨hI.represents, ?_⟩
  obtain hcalm | ⟨r, hread, hwait⟩ := hI.state.calm_or_awaits
  · exact absurd (hisr.symm.trans hcalm.isr) (by decide)
  · refine .of_awaits (r := r) hread ?_
    cases hwait with
    | outstanding h hpend hout => exact absurd (hisr.symm.trans hout) (by decide)
    | pending h hpend hout => exact absurd (hisr.symm.trans hout) (by decide)
    | entered h hpend hin => exact absurd (hisr.symm.trans hin) (by decide)
    | done h hpend _ hdone => exact .done h hpend (show IsrPlace.out ≠ .entered by decide) hdone

theorem biosInv_other (hI : BiosInv A s p) (h : Bystander s.buffer s.race u) :
    BiosInv A { s with race := u } p :=
  ⟨h.represents hI.represents, hI.state.served hI.represents (fun _ _ hl => by cases hl) h.served⟩

/-- The step lemma. -/
theorem biosInv_step {l : BiosLabel} (hI : BiosInv A s p) (hok : A → Allocates s l)
    (h : BiosStep M smpCores s l t) : ∃ p', BiosInv A t p' := by
  cases h with
  | call r hisr hread =>
    refine ⟨p, hI.represents, ?_⟩
    obtain hcalm | ⟨_, hsome, -⟩ := hI.state.calm_or_awaits
    · exact ⟨⟨hcalm.free, hcalm.vector, hcalm.isr⟩, rfl, trivial⟩
    · rw [hread] at hsome
      cases hsome
  | out hisr hread hport hstep => exact biosInv_out hI hread hport hstep
  | test hisr hread => exact ⟨p, biosInv_test hI hisr hread⟩
  | deliver hisr hpend hm => exact ⟨p, biosInv_deliver hI hpend hm⟩
  | store hisr => exact ⟨p, biosInv_store hI hisr⟩
  | iret hisr => exact ⟨p, biosInv_iret hI hisr⟩
  | device hl hstep =>
    obtain ⟨p', hserved, hR⟩ := served_step hl hI.represents hstep
    exact ⟨p', hR, hI.state.served hI.represents (fun hA host hhost => hok hA host (by rw [hhost]))
      hserved⟩
  | other hother => exact ⟨p, biosInv_other hI hother⟩

theorem biosInv_init (h : (biosDisk M smpCores).init s) : BiosInv A s .none := by
  obtain ⟨hrace, hread, hisr⟩ := h
  refine ⟨diskRepresents_init hrace, ?_⟩
  rw [ReadState, hread]
  refine ⟨rfl, fun hpend => ?_, hisr⟩
  have hbit := hpend.2.2
  have hcores : 0 < s.race.vm.smpCores := hpend.1
  have hword : s.race.vm.interruptBitmap (0 * irqBitmapWords + intDiskComplete.toNat / 64) = 0 :=
    init_bitmap hrace.1 (show 0 < s.race.vm.smpCores * 4 by omega)
  rw [Vm.pending, hword] at hbit
  cases hbit

/-- The run lemma. -/
theorem reachable_biosInv (h : Reachable (biosDisk M smpCores) s) : ∃ p, BiosInv False s p := by
  refine h.invariant (P := fun s => ∃ p, BiosInv False s p) ?_ ?_
  · intro s hs
    exact ⟨.none, biosInv_init hs⟩
  · intro s l t hs hstep
    obtain ⟨p, hI⟩ := hs
    exact biosInv_step hI False.elim hstep

/-- The run lemma, with the data. -/
theorem reachable_biosInv_data (h : Reachable ((biosDisk M smpCores).restrict Allocates) s) :
    ∃ p, BiosInv True s p := by
  refine h.invariant (P := fun s => ∃ p, BiosInv True s p) ?_ ?_
  · intro s hs
    exact ⟨.none, biosInv_init hs⟩
  · intro s l t hs hstep
    obtain ⟨p, hI⟩ := hs
    exact biosInv_step hI (fun _ => hstep.1) hstep.2

/-- When the loop of `disk_read_sectors` ends, the buffer holds the sectors, and no command of the
driver is ever refused: in every interleaving, for every sequence of calls. -/
theorem disk_read_sectors_delivers
    (h : Reachable ((biosDisk M smpCores).restrict Allocates) s) :
    (∀ r, s.reading = some (r, .wait) → s.isr = .out → s.diskDone = true →
      Delivered r s.race.vm) ∧
    ∀ r, s.reading = some (r, .cmd) → s.race.vm.disk.status = .free := by
  obtain ⟨p, hI⟩ := reachable_biosInv_data h
  constructor
  · intro r hread hisr hdone
    cases hI.state.awaits hread with
    | outstanding h hpend hisr' hdone' => exact absurd hdone (by simp [hdone'])
    | pending h hpend hisr' hdone' => exact absurd hdone (by simp [hdone'])
    | entered h hpend hisr' => exact absurd (hisr'.symm.trans hisr) (by decide)
    | done h hpend hisr' hdone' => exact h trivial
  · intro r hread
    have hstate := hI.state
    rw [ReadState, hread] at hstate
    obtain ⟨⟨rfl, -, -⟩, -⟩ := hstate
    exact hI.represents.state.1

end Invariant

/-! ## Progress -/

/-- The steps of the driver in a call, of its handler and of the disk. -/
def BiosLabel.own : BiosLabel → Prop
  | .call _ | .other => False
  | _ => True

/-- The driver, its handler and the disk alone can finish the call. -/
def Ends (M : ℕ) (smpCores : ℤ) (s : BiosDisk) : Prop :=
  ∃ ls t, (∀ l ∈ ls, l.own) ∧ Run (biosDisk M smpCores) s ls t ∧ t.reading = none

section Progress

variable {M : ℕ} {smpCores : ℤ} {s t : BiosDisk} {p : CommandPhase} {r : SectorRead}

theorem Ends.step {l : BiosLabel} (hl : l.own) (h : BiosStep M smpCores s l t)
    (ht : Ends M smpCores t) : Ends M smpCores s := by
  obtain ⟨ls, u, hls, hrun, hu⟩ := ht
  refine ⟨l :: ls, u, ?_, hrun.cons h, hu⟩
  intro k hk
  obtain rfl | hk := List.mem_cons.mp hk
  · exact hl
  · exact hls k hk

theorem ends_done (hread : s.reading = some (r, .wait)) (hisr : s.isr = .out)
    (hdone : s.diskDone = true) : Ends M smpCores s := by
  refine .step (l := .test) trivial (.test hisr hread) ⟨[], _, nofun, .nil, ?_⟩
  simp [hdone]

theorem ends_stored (hread : s.reading = some (r, .wait)) (hisr : s.isr = .stored)
    (hdone : s.diskDone = true) : Ends M smpCores s :=
  .step (l := .iret) trivial (.iret hisr) (ends_done hread rfl hdone)

theorem ends_entered (hread : s.reading = some (r, .wait)) (hisr : s.isr = .entered) :
    Ends M smpCores s :=
  .step (l := .store) trivial (.store hisr) (ends_stored hread rfl rfl)

theorem ends_pending (hread : s.reading = some (r, .wait)) (hisr : s.isr = .out)
    (hpend : s.race.vm.diskPending) : Ends M smpCores s :=
  .step (l := .deliver) trivial (.deliver hisr hpend fun _ _ => rfl) (ends_entered hread rfl)

/-- A run of the disk is one of the BIOS. -/
theorem run_device {ls : List DiskLabel} {u : DiskRace} (hI : BiosInv False s p)
    (hls : ∀ l ∈ ls, l.serves) (hrun : Run (diskRace M smpCores) s.race ls u) :
    Run (biosDisk M smpCores) s (ls.map .device) { s with race := u } ∧
      ∃ p', BiosInv False { s with race := u } p' := by
  induction hrun with
  | nil => exact ⟨.nil, p, hI⟩
  | snoc hrun hstep ih =>
    obtain ⟨hrun', p', hI'⟩ := ih fun l hl => hls l (List.mem_append_left _ hl)
    have hserves := hls _ (List.mem_append_right _ (List.mem_singleton_self _))
    have hbios : BiosStep M smpCores _ (.device _) _ :=
      .device (s := { s with race := _ }) hserves hstep
    rw [List.map_append]
    exact ⟨hrun'.snoc hbios, biosInv_step hI' False.elim hbios⟩

theorem Ends.run {ls : List BiosLabel} (hls : ∀ l ∈ ls, l.own)
    (hrun : Run (biosDisk M smpCores) s ls t) (ht : Ends M smpCores t) : Ends M smpCores s := by
  obtain ⟨ls', u, hls', hrun', hu⟩ := ht
  exact ⟨ls ++ ls', u, fun l hl => (List.mem_append.mp hl).elim (hls l) (hls' l),
    hrun.trans hrun', hu⟩

theorem DiskRepresents.none_unique {race : DiskRace} (h : DiskRepresents race .none)
    (h' : DiskRepresents race p) : p = .none := by
  by_contra hp
  exact absurd (h.state.1.symm.trans (h'.state.busy_iff.mpr hp)) (by decide)

theorem ends_wait (hI : BiosInv False s p) (hread : s.reading = some (r, .wait)) :
    Ends M smpCores s := by
  cases hI.state.awaits hread with
  | pending h hpend hisr hdone => exact ends_pending hread hisr hpend
  | entered h hpend hisr => exact ends_entered hread hisr
  | done h hpend hisr hdone =>
    cases hplace : s.isr with
    | out => exact ends_done hread hplace hdone
    | entered => exact absurd hplace hisr
    | stored => exact ends_stored hread hplace hdone
  | outstanding h hpend hisr hdone =>
    have hdrains : Drains M smpCores s.race := drains hI.represents
    obtain ⟨ls, u, hls, hrun, hfree⟩ := hdrains
    obtain ⟨hrun', p', hI'⟩ := run_device hI hls hrun
    refine .run (fun l hl => ?_) hrun' ?_
    · obtain ⟨l, -, rfl⟩ := List.mem_map.mp hl
      trivial
    · have hread' : ({ s with race := u } : BiosDisk).reading = some (r, .wait) := hread
      obtain rfl := hfree.none_unique hI'.represents
      cases hI'.state.awaits hread' with
      | outstanding h => exact h.elim
      | pending h hpend => exact ends_pending hread' hisr hpend
      | entered h hpend hin => exact absurd (hisr.symm.trans hin) (by decide)
      | done h hpend hne hset => exact absurd hset (by simp [hdone])

theorem acceptIo_total (place : SectorPlace) {port : ℤ} {value : BitVec 32}
    (hport : place.out r = some (port, value)) (vm : Vm) :
    ∃ vm', acceptIo port value vm = .ok ((), vm') ∧ SameData Set.univ vm vm' := by
  cases place with
  | wait => cases hport
  | lba | mem | count | cmd =>
    obtain ⟨rfl, rfl⟩ := Prod.mk.inj (Option.some.inj hport)
    exact ⟨_, rfl, .of_eq rfl rfl rfl⟩

/-- The port writes that are left, and then the wait. -/
theorem ends_sending {place : SectorPlace} (n : ℕ) (hn : SectorPlace.next^[n] place = .wait)
    (hI : BiosInv False s p) (hread : s.reading = some (r, place))
    (hisr : place ≠ .wait → s.isr = .out) :
    Ends M smpCores s := by
  induction n generalizing s p place with
  | zero => exact ends_wait hI (by rw [hread]; exact congrArg (fun q => some (r, q)) hn)
  | succ n ih =>
    cases hport : place.out r with
    | none =>
      have hwait : place = .wait := by
        cases place <;> simp [SectorPlace.out] at hport
        rfl
      exact ends_wait hI (hwait ▸ hread)
    | some out =>
      obtain ⟨port, value⟩ := out
      have hne : place ≠ .wait := by
        rintro rfl
        cases hport
      obtain ⟨vm', hrun, -⟩ := acceptIo_total place hport s.race.vm
      have hstep : (diskRace M smpCores).step s.race (.out port value) ⟨vm', s.race.ticking⟩ :=
        ⟨hrun, rfl⟩
      obtain ⟨p', hI'⟩ := biosInv_out hI hread hport hstep
      exact .step (l := .out) trivial (.out (hisr hne) hread hport hstep)
        (ih (by rwa [Function.iterate_succ_apply] at hn) hI' rfl fun _ => hisr hne)

/-- A call of `disk_read_sectors` is never stuck: from every reachable state the driver, its
handler and the disk alone can finish it, whatever has happened before. -/
theorem disk_read_sectors_ends (h : Reachable (biosDisk M smpCores) s) : Ends M smpCores s := by
  obtain ⟨p, hI⟩ := reachable_biosInv h
  cases hread : s.reading with
  | none => exact ⟨[], s, nofun, .nil, hread⟩
  | some rp =>
    obtain ⟨r, place⟩ := rp
    have hiter : ∀ place : SectorPlace, SectorPlace.next^[4] place = .wait := by
      intro place
      cases place <;> rfl
    refine ends_sending 4 (hiter place) hI hread fun hne => ?_
    obtain hcalm | ⟨r', hwait, -⟩ := hI.state.calm_or_awaits
    · exact hcalm.isr
    · rw [hread] at hwait
      exact absurd (Prod.mk.inj (Option.some.inj hwait)).2 hne

end Progress

/-! ## The image -/

section Image

variable {M : ℕ} {smpCores : ℤ} {A : Prop} {s t : BiosDisk} {p : CommandPhase}

theorem diskTransfer_read (r : SectorRead) (host : BounceBuffer) (vm : Vm) :
    SameData ∅ vm (diskTransfer r.job host vm) := by
  unfold diskTransfer
  dsimp only
  have hcmd : r.job.cmd = diskCmdRead := rfl
  rw [if_pos hcmd]
  split_ifs
  · exact ⟨nofun, rfl, rfl⟩
  · exact ⟨nofun, rfl, rfl⟩
  · exact ⟨nofun, rfl, rfl⟩

theorem Served.sameImage {l : DiskLabel} {p' : CommandPhase} {u : DiskRace} (hI : BiosInv A s p)
    (h : Served ∅ s.race u l p p') : SameData ∅ s.race.vm u.vm := by
  cases h with
  | quiet hdata => exact hdata
  | complete hdata => exact hdata
  | report hdata => exact hdata
  | @transfer host job hw hvm =>
    obtain hcalm | ⟨r, -, hwait⟩ := hI.state.calm_or_awaits
    · exact absurd hcalm.free nofun
    · cases hwait with
      | outstanding h =>
        obtain rfl := h.2.2 job hw
        have hsame := diskTransfer_read r host s.race.vm
        rw [hvm]
        exact ⟨nofun, hsame.image, hsame.memorySize⟩

/-- No step changes the image: the driver only reads. -/
theorem sameImage_step {l : BiosLabel} (hI : BiosInv A s p) (h : BiosStep M smpCores s l t) :
    SameData ∅ s.race.vm t.race.vm := by
  cases h with
  | call | test | store | iret => exact .of_eq rfl rfl rfl
  | deliver => exact ⟨nofun, rfl, rfl⟩
  | out hisr hread hport hstep =>
    obtain ⟨vm', hrun, hsame⟩ := acceptIo_total _ hport s.race.vm
    obtain rfl := (Prod.mk.inj (Except.ok.inj (hstep.1.symm.trans hrun))).2
    exact ⟨nofun, hsame.image, hsame.memorySize⟩
  | device hl hstep =>
    obtain ⟨p', hserved, -⟩ := served_step hl hI.represents hstep
    exact hserved.sameImage hI
  | other hother => exact ⟨nofun, hother.image, hother.memorySize⟩

/-- The run lemma. -/
theorem sameImage_run {ls : List BiosLabel} (hs : Reachable (biosDisk M smpCores) s)
    (h : Run (biosDisk M smpCores) s ls t) : SameData ∅ s.race.vm t.race.vm := by
  induction h with
  | nil => exact .of_eq rfl rfl rfl
  | snoc hrun hstep ih =>
    obtain ⟨p, hI⟩ := reachable_biosInv (hs.run hrun)
    have hsame := sameImage_step hI hstep
    exact ⟨nofun, hsame.image.trans ih.image, hsame.memorySize.trans ih.memorySize⟩

end Image

/-! ## A read from its call to its end -/

section Example

variable {r : SectorRead}

/-- The steps of the device whose bounce buffers are allocated are among those of the BIOS. -/
theorem run_allocated {s : BiosDisk} {ls : List DiskLabel} {u : DiskRace}
    (hls : ∀ l ∈ ls, l.serves ∧ ∀ host, l = .transfer host → host.allocated = true)
    (hrun : Run (diskRace memSize 1) s.race ls u) :
    Run ((biosDisk memSize 1).restrict Allocates) s (ls.map .device) { s with race := u } := by
  refine hrun.map (fun r => { s with race := r }) BiosLabel.device fun l hl u v hstep => ?_
  obtain ⟨hserves, halloc⟩ := hls l hl
  refine ⟨?_, .device (s := { s with race := u }) hserves hstep⟩
  rintro host ⟨⟩
  exact halloc host rfl

/-- A machine whose BIOS has written the first three ports of a call. -/
theorem exists_sending (image : DiskImage) (r : SectorRead) : ∃ s,
    Reachable ((biosDisk memSize 1).restrict Allocates) s ∧ s.reading = some (r, .cmd) ∧
      s.race.ticking = false ∧ s.race.vm.diskImage = image ∧ s.race.vm.memorySize = memSize := by
  obtain ⟨vm, hboot⟩ := boot_total (M := memSize) ⟨fun _ => 0, fun _ => 0, 0⟩ false image [] []
    none 1 (by decide) (by decide)
  have hquiet : ∀ (s : BiosDisk) (l : BiosLabel), (∀ dl, l ≠ .device dl) → Allocates s l :=
    fun s l hl host hhost => absurd hhost (hl _)
  have hstart : Reachable ((biosDisk memSize 1).restrict Allocates)
      ⟨⟨vm, false⟩, false, none, .out⟩ :=
    .of_init ⟨⟨⟨_, _, _, _, _, _, hboot⟩, rfl⟩, rfl, rfl⟩
  have hcalled : Reachable ((biosDisk memSize 1).restrict Allocates)
      ⟨⟨vm, false⟩, false, some (r, .lba), .out⟩ :=
    hstart.step (l := .call r) ⟨hquiet _ _ nofun, .call r rfl rfl⟩
  have hout : ∀ (vm : Vm) (place : SectorPlace) (port : ℤ) (value : BitVec 32),
      place.out r = some (port, value) →
      Reachable ((biosDisk memSize 1).restrict Allocates)
        ⟨⟨vm, false⟩, false, some (r, place), .out⟩ →
      ∃ vm', Reachable ((biosDisk memSize 1).restrict Allocates)
        ⟨⟨vm', false⟩, false, some (r, place.next), .out⟩ ∧ SameData Set.univ vm vm' := by
    intro vm place port value hport hs
    obtain ⟨vm', hrun, hsame⟩ := acceptIo_total place hport vm
    exact ⟨vm', hs.step (l := .out) ⟨hquiet _ _ nofun, .out (t := ⟨vm', false⟩) rfl rfl hport
      ⟨hrun, rfl⟩⟩, hsame⟩
  obtain ⟨vm₁, h₁, hsame₁⟩ := hout vm .lba _ _ rfl hcalled
  obtain ⟨vm₂, h₂, hsame₂⟩ := hout vm₁ .mem _ _ rfl h₁
  obtain ⟨vm₃, h₃, hsame₃⟩ := hout vm₂ .count _ _ rfl h₂
  have himage : vm.diskImage = image := (boot_booted (by decide) hboot).diskImage
  have hsize : vm.memorySize = memSize := (boot_created hboot).memorySize
  refine ⟨_, h₃, rfl, rfl, ?_, ?_⟩
  · exact hsame₃.image.trans (hsame₂.image.trans (hsame₁.image.trans himage))
  · exact hsame₃.memorySize.trans (hsame₂.memorySize.trans (hsame₁.memorySize.trans hsize))

/-- The command, its transfer and its interrupt. -/
theorem exists_done {s : BiosDisk} (hs : Reachable ((biosDisk memSize 1).restrict Allocates) s)
    (hread : s.reading = some (r, .cmd)) (ht : s.race.ticking = false) :
    ∃ t, Reachable ((biosDisk memSize 1).restrict Allocates) t ∧ t.reading = some (r, .wait) ∧
      t.isr = .out ∧ t.diskDone = true ∧ SameData ∅ s.race.vm t.race.vm := by
  have hquiet : ∀ (s : BiosDisk) (l : BiosLabel), (∀ dl, l ≠ .device dl) → Allocates s l :=
    fun s l hl host hhost => absurd hhost (hl _)
  obtain ⟨p, hR, hstate⟩ := reachable_biosInv_data hs
  rw [ReadState, hread] at hstate
  obtain ⟨⟨rfl, hvector, hisr⟩, hdone, hsent⟩ := hstate
  -- the command is sent
  obtain ⟨vm, hrun, -⟩ := acceptIo_total (r := r) .cmd rfl s.race.vm
  have hout : (diskRace memSize 1).step s.race (.out portDiskCmd diskCmdRead)
      ⟨vm, s.race.ticking⟩ := ⟨hrun, rfl⟩
  obtain ⟨hissued, hw⟩ := represents_issued hR (by decide) hout
  have hsent : Run ((biosDisk memSize 1).restrict Allocates) s [.out]
      ⟨⟨vm, s.race.ticking⟩, s.diskDone, some (r, .wait), s.isr⟩ :=
    .cons ⟨hquiet _ _ nofun, .out hisr hread rfl hout⟩ .nil
  -- the disk serves it
  obtain ⟨u, hserved, hnone⟩ := run_served memSize 1 hissued hw ht
    ⟨true, fun _ => 0⟩ []
  have hrun := hsent.trans (run_allocated (s := ⟨⟨vm, s.race.ticking⟩, s.diskDone,
    some (r, .wait), s.isr⟩) (by simp [DiskLabel.serves]) hserved.of_logged)
  obtain ⟨p, hI⟩ := reachable_biosInv_data (hs.run hrun)
  obtain rfl := hnone.none_unique hI.represents
  cases hI.state.awaits rfl with
  | outstanding h => exact h.elim
  | entered h hpend hin => exact absurd (hisr.symm.trans hin) (by decide)
  | done h hpend hne hset => exact absurd hset (by simp [hdone])
  | pending h hpend =>
    -- the handler reports it
    have hrun := hrun.snoc (l := .deliver) ⟨hquiet _ _ nofun, .deliver hisr hpend fun _ _ => rfl⟩
    have hrun := hrun.snoc (l := .store) ⟨hquiet _ _ nofun, .store rfl⟩
    have hrun := hrun.snoc (l := .iret) ⟨hquiet _ _ nofun, .iret rfl⟩
    exact ⟨_, hs.run hrun, rfl, rfl, rfl, sameImage_run hs.of_restrict hrun.of_restrict⟩

end Example

/-- Eight sectors of an image that is filled with one byte. -/
theorem disk_read_sectors_delivers_filled : ∃ s,
    Reachable ((biosDisk memSize 1).restrict Allocates) s ∧
      s.reading = some (⟨1, 8, 0x300000⟩, .wait) ∧ s.diskDone = true ∧
      ∀ k < 4096, s.race.vm.memory (0x300000 + k) = 0x5A := by
  obtain ⟨s, hs, hread, ht, himage, hsize⟩ :=
    exists_sending ⟨0x2000, fun _ => 0x5A⟩ ⟨1, 8, 0x300000⟩
  obtain ⟨t, hreach, hwait, hisr, hdone, hsame⟩ := exists_done hs hread ht
  refine ⟨t, hreach, hwait, hdone, fun k hk => ?_⟩
  have hdelivered := (disk_read_sectors_delivers hreach).1 _ hwait hisr hdone
  have himage' := hsame.image.trans himage
  have hvalid : isValidDma t.race.vm.memorySize 0x300000 8 = true := by
    rw [hsame.memorySize, hsize]
    decide
  have hbyte := hdelivered hvalid k hk (by rw [himage']; exact show 512 + k < 0x2000 by omega)
  rwa [himage'] at hbyte

theorem disk_read_sectors_ends_sending : ∃ s t ls, s.reading = some (⟨1, 8, 0x300000⟩, .cmd) ∧
    Run (biosDisk memSize 1) s ls t ∧ t.reading = none := by
  obtain ⟨s, hs, hread, -⟩ := exists_sending ⟨0, fun _ => 0⟩ ⟨1, 8, 0x300000⟩
  obtain ⟨ls, t, -, hrun, ht⟩ := disk_read_sectors_ends hs.of_restrict
  exact ⟨s, t, ls, hread, hrun, ht⟩

end LampVm
