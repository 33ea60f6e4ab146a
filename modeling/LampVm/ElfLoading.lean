import LampVm.BiosElf

/-!
# Which kernels the BIOS loads

The loader of `bios.c` against the file on the disk. Its size is taken from the headers in the
first eight sectors, in thirty-two bits, and everything else is read as it is found in the buffer.
-/
namespace LampVm

open ByteOrder Contract

/-! ## The file -/

/-- The bytes of the kernel's file. -/
def DiskImage.elf (image : DiskImage) : Bytes := fun k => image.bytes (diskSectorSize + k)

def elfPhoff (f : Bytes) : BitVec 32 := word f ePhoff.toNat
def elfPhentsize (f : Bytes) : BitVec 16 := half f ePhentsize.toNat
def elfPhnum (f : Bytes) : BitVec 16 := half f ePhnum.toNat

/-- Where the file has its header `i`. -/
def elfHeaderAt (f : Bytes) (i : ℕ) : ℕ := (elfPhoff f).toNat + i * (elfPhentsize f).toNat

def elfHeader (f : Bytes) (i : ℕ) : Phdr := Phdr.read f (elfHeaderAt f i)

def InHeader (f : Bytes) (i k : ℕ) : Prop :=
  elfHeaderAt f i ≤ k ∧ k < elfHeaderAt f i + phdrSize

def InSource (f : Bytes) (i k : ℕ) : Prop :=
  (elfHeader f i).isLoad ∧ (elfHeader f i).offset.toNat ≤ k ∧
    k < (elfHeader f i).offset.toNat + (elfHeader f i).filesz.toNat

/-- The loader still reads this byte of the file when it has come to header `i`. -/
def Needed (f : Bytes) (i k : ℕ) : Prop :=
  (ePhnum.toNat ≤ k ∧ k < ePhnum.toNat + 2) ∨
    ∃ j, i ≤ j ∧ j < (elfPhnum f).toNat ∧ (InHeader f j k ∨ InSource f j k)

/-- `end` and `hdr_end` of `elf_file_size`. -/
def Phdr.fileEnd (p : Phdr) : BitVec 32 := p.offset + p.filesz

def headersEnd (f : Bytes) : BitVec 32 :=
  elfPhoff f + (elfPhentsize f).setWidth 32 * (elfPhnum f).setWidth 32

/-- `elf_file_size` reads `p_type`, `p_offset` and `p_filesz`, which are in the first bytes of a
header. -/
abbrev phdrSizedBytes : ℕ := 20

/-- The sizes that the first eight sectors give, whatever follows them in the buffer. -/
def Shown (f : Bytes) (e : BitVec 32) : Prop :=
  e = headersEnd f ∨ ∃ i < (elfPhnum f).toNat,
    elfHeaderAt f i + phdrSizedBytes ≤ 8 * diskSectorSize ∧
    (elfHeader f i).isLoad ∧ e = (elfHeader f i).fileEnd

/-- The byte belongs to the sectors that one of these sizes takes. -/
def Reached (f : Bytes) (k : ℕ) : Prop :=
  ∃ e, Shown f e ∧ k < (e.toNat + 511) / 512 * diskSectorSize

/-- Header `i` as the first eight sectors have it, with zeros behind them. -/
def seenHeader (f : Bytes) (i : ℕ) : Phdr :=
  Phdr.read (fun k => if k < 8 * diskSectorSize then f k else 0) (elfHeaderAt f i)

/-- The sizes that the first eight sectors give when zeros follow them. -/
def ShownInZeros (f : Bytes) (e : BitVec 32) : Prop :=
  e = headersEnd f ∨ ∃ i < (elfPhnum f).toNat, (seenHeader f i).isLoad ∧
    e = (seenHeader f i).fileEnd

def ReachedInZeros (f : Bytes) (k : ℕ) : Prop :=
  ∃ e, ShownInZeros f e ∧ k < (e.toNat + 511) / 512 * diskSectorSize

/-- An image with a whole file in it, whose headers the loop over the segments finds and whose
segments are not copied over what is read after them or over the BIOS. -/
structure Regular (bios : ℕ → Prop) (image : DiskImage) : Prop where
  size : diskSectorSize + 52 ≤ image.size
  stride : (elfPhentsize image.elf).toNat = phdrSize ∨ (elfPhnum image.elf).toNat ≤ 1
  inImage : ∀ i < (elfPhnum image.elf).toNat, ∀ k,
    InHeader image.elf i k ∨ InSource image.elf i k → diskSectorSize + k < image.size
  kept : ∀ i < (elfPhnum image.elf).toNat, ∀ k,
    (elfHeader image.elf i).Stores (kernelElfBuf.toNat + k) →
      ¬ InHeader image.elf i k ∧ ¬ Needed image.elf (i + 1) k
  bios : ∀ i < (elfPhnum image.elf).toNat, ∀ x, (elfHeader image.elf i).Stores x → ¬ bios x

/-- The files that the loader can be given: each header and each byte of a segment is in the
sectors that the first eight show to be needed. -/
structure Loadable (bios : ℕ → Prop) (image : DiskImage) : Prop extends Regular bios image where
  reached : ∀ i < (elfPhnum image.elf).toNat, ∀ k,
    InHeader image.elf i k ∨ InSource image.elf i k → Reached image.elf k

/-- The entries of the table of headers have the size of a header, and the table does not wrap
around. -/
structure PlainTable (f : Bytes) : Prop where
  entry : (elfPhentsize f).toNat = phdrSize
  noWrap : (elfPhoff f).toNat + (elfPhentsize f).toNat * (elfPhnum f).toNat < 2 ^ 32

/-- The destination is in RAM, and disjoint from the BIOS, the buffer and the other segments. -/
structure Placed (bios : ℕ → Prop) (f : Bytes) (i : ℕ) : Prop where
  inRam : InRam (elfHeader f i).dst.toNat (elfHeader f i).span
  bios : ∀ k < (elfHeader f i).span, ¬ bios ((elfHeader f i).dst.toNat + k)
  buffer : (elfHeader f i).dst.toNat + (elfHeader f i).span ≤ kernelElfBuf.toNat ∨
    kernelElfBuf.toNat + kernelElfMax.toNat ≤ (elfHeader f i).dst.toNat
  others : ∀ j < (elfPhnum f).toNat, j ≠ i → ∀ k < (elfHeader f i).span,
    ¬ (elfHeader f j).Stores ((elfHeader f i).dst.toNat + k)

/-- A segment's bytes are at its destination, with zeros after those of the file. -/
structure Phdr.Loaded (p : Phdr) (f m : Bytes) : Prop where
  file : ∀ k < p.filesz.toNat, m (p.dst.toNat + k) = f (p.offset.toNat + k)
  zeros : ∀ k, p.filesz.toNat ≤ k → k < p.memsz.toNat → m (p.dst.toNat + k) = 0

/-- What the loader is for. The disk still has the parameters of the last read. -/
structure ElfLoaded (bios : ℕ → Prop) (f : Bytes) (vm : Vm) : Prop where
  segments : ∀ i < (elfPhnum f).toNat, (elfHeader f i).isLoad → Placed bios f i →
    (elfHeader f i).Loaded f vm.memory
  sources : ∀ i < (elfPhnum f).toNat, ∀ k, InSource f i k →
    k < vm.disk.count.toNat * diskSectorSize

section Buffer

variable {image : DiskImage} {d : Disk} {m : Bytes} {s t : Vm} {bios : ℕ → Prop}

theorem inRam_elfBuf {k n : ℕ} (h : k + n ≤ kernelElfMax.toNat) :
    InRam (kernelElfBuf.toNat + k) n := by
  have hbuf : kernelElfBuf.toNat = 0x300000 ∧ kernelElfMax.toNat = 0x80000 := ⟨rfl, rfl⟩
  have hsize : memSize = 67108864 := rfl
  have htime : timeBase = 0x2000 ∧ timeSize = 24 := ⟨rfl, rfl⟩
  have hfb : fbLegacyBase = 0x620000 := rfl
  refine ⟨by omega, ?_⟩
  unfold OutsideWindows
  omega

/-- What the read of the file's first sectors leaves in the buffer. -/
theorem sectorsRead_elf {host : BounceBuffer} (halloc : host.allocated = true) {count : BitVec 32}
    {k : ℕ} (hk : k < count.toNat * diskSectorSize) (himage : diskSectorSize + k < image.size) :
    sectorsRead image host kernelLba count kernelElfBuf m (kernelElfBuf.toNat + k) = image.elf k := by
  have hlba : kernelLba.toNat * diskSectorSize = diskSectorSize := by decide
  rw [sectorsRead, if_pos halloc, hlba, copyToRam, if_pos (by omega), Nat.add_sub_cancel_left,
    fread, if_pos ⟨hk, himage⟩]
  rfl

theorem word_elfBuf {f : Bytes} {a : ℕ}
    (h : ∀ k, a ≤ k → k < a + 4 → m (kernelElfBuf.toNat + k) = f k) :
    word m (kernelElfBuf.toNat + a) = word f a := by
  refine word_congr fun k hk => ?_
  rw [Nat.add_assoc]
  exact h _ (by omega) (by omega)

theorem half_elfBuf {f : Bytes} {a : ℕ}
    (h : ∀ k, a ≤ k → k < a + 2 → m (kernelElfBuf.toNat + k) = f k) :
    half m (kernelElfBuf.toNat + a) = half f a := by
  refine half_congr fun k hk => ?_
  rw [Nat.add_assoc]
  exact h _ (by omega) (by omega)

theorem header_elfBuf {f : Bytes} {i : ℕ}
    (h : ∀ k, InHeader f i k → m (kernelElfBuf.toNat + k) = f k) :
    Phdr.read m (kernelElfBuf.toNat + elfHeaderAt f i) = elfHeader f i := by
  refine Phdr.read_congr fun k hk => ?_
  rw [Nat.add_assoc]
  exact h _ ⟨by omega, by omega⟩

theorem Regular.headerAt (hf : Regular bios image) {i : ℕ}
    (hi : i < (elfPhnum image.elf).toNat) :
    elfHeaderAt image.elf i = (elfPhoff image.elf).toNat + i * phdrSize := by
  rcases hf.stride with h | h
  · rw [elfHeaderAt, h]
  · obtain rfl : i = 0 := by omega
    rw [elfHeaderAt, Nat.zero_mul, Nat.zero_mul]

end Buffer

/-! ## The size of the file -/

section Size

variable {image : DiskImage} {d : Disk} {m : Bytes} {s t : Vm} {bios : ℕ → Prop}

theorem LoaderState.bytesMatch (hs : LoaderState image d m s) {a : BitVec 32}
    {bytes : List (BitVec 8)} {b : Bool} (h : bytesMatch a bytes s = .ok (b, t)) :
    LoaderState image d m t := by
  induction bytes generalizing a s with
  | nil =>
    obtain ⟨-, rfl⟩ := Prod.mk.inj (Except.ok.inj h)
    exact hs
  | cons b' bytes ih =>
    obtain ⟨v, s₁, h₁, h⟩ := bind_eq_ok h
    have hs₁ := (hs.read8 h₁).1
    by_cases hv : v = b'
    · rw [if_pos hv] at h
      exact ih hs₁ h
    · rw [if_neg hv] at h
      obtain ⟨-, rfl⟩ := Prod.mk.inj (Except.ok.inj h)
      exact hs₁

theorem LoaderState.elfValidate (hs : LoaderState image d m s) {eh : BitVec 32} {b : Bool}
    (h : elfValidate eh s = .ok (b, t)) : LoaderState image d m t := by
  obtain ⟨ident, s₁, h₁, h⟩ := bind_eq_ok h
  have hs₁ := hs.bytesMatch h₁
  by_cases hident : ident = true
  · rw [if_pos hident] at h
    obtain ⟨type, s₂, h₂, h⟩ := bind_eq_ok h
    obtain ⟨-, rfl⟩ := Prod.mk.inj (Except.ok.inj h)
    exact (hs₁.readHalf h₂).1
  · rw [if_neg hident] at h
    obtain ⟨-, rfl⟩ := Prod.mk.inj (Except.ok.inj h)
    exact hs₁

theorem le_larger (a b : BitVec 32) :
    a ≤ (if a > b then a else b) ∧ b ≤ (if a > b then a else b) := by
  by_cases h : a > b
  · rw [if_pos h]
    exact ⟨BitVec.le_refl a, BitVec.le_of_lt h⟩
  · rw [if_neg h]
    exact ⟨BitVec.not_lt.mp h, BitVec.le_refl b⟩

/-- The largest end of the segments that the loop sees. -/
theorem LoaderState.segmentsEnd (hs : LoaderState image d m s) {eh ph maxEnd v : BitVec 32}
    {n i : ℕ} (h : segmentsEnd eh ph n i maxEnd s = .ok (v, t)) :
    LoaderState image d m t ∧ maxEnd ≤ v ∧ (InRam (eh + ePhnum).toNat 2 →
      (∀ j, i ≤ j → j < i + n → j < (half m (eh + ePhnum).toNat).toNat →
        InRam (ph + BitVec.ofNat 32 (j * phdrSize)).toNat phdrSize →
        (Phdr.read m (ph + BitVec.ofNat 32 (j * phdrSize)).toNat).isLoad →
        (Phdr.read m (ph + BitVec.ofNat 32 (j * phdrSize)).toNat).fileEnd ≤ v) ∧
      ((∀ j < (half m (eh + ePhnum).toNat).toNat,
          InRam (ph + BitVec.ofNat 32 (j * phdrSize)).toNat phdrSize) →
        v = maxEnd ∨ ∃ j < (half m (eh + ePhnum).toNat).toNat,
          (Phdr.read m (ph + BitVec.ofNat 32 (j * phdrSize)).toNat).isLoad ∧
          v = (Phdr.read m (ph + BitVec.ofNat 32 (j * phdrSize)).toNat).fileEnd)) := by
  induction n generalizing i maxEnd s with
  | zero =>
    obtain ⟨rfl, rfl⟩ := Prod.mk.inj (Except.ok.inj h)
    exact ⟨hs, BitVec.le_refl _, fun _ => ⟨fun j hlo hhi => by omega, fun _ => .inl rfl⟩⟩
  | succ n ih =>
    obtain ⟨phnum, s₁, h₁, h⟩ := bind_eq_ok h
    obtain ⟨hs₁, hphnum⟩ := hs.readHalf h₁
    by_cases hi : i < phnum.toNat
    · rw [if_pos hi] at h
      obtain ⟨type, s₂, h₂, h⟩ := bind_eq_ok h
      have hs₂ := (hs₁.read32 h₂).1
      by_cases htype : type = ptLoad
      · rw [if_neg (not_not.mpr htype)] at h
        obtain ⟨offset, s₃, h₃, h⟩ := bind_eq_ok h
        have hs₃ := (hs₂.read32 h₃).1
        obtain ⟨filesz, s₄, h₄, h⟩ := bind_eq_ok h
        have hs₄ := (hs₃.read32 h₄).1
        have hhere (hheader : InRam (ph + BitVec.ofNat 32 (i * phdrSize)).toNat phdrSize) :
            (Phdr.read m (ph + BitVec.ofNat 32 (i * phdrSize)).toNat).isLoad ∧ offset + filesz =
              (Phdr.read m (ph + BitVec.ofNat 32 (i * phdrSize)).toNat).fileEnd := by
          refine ⟨(hs₁.field hheader (by decide) h₂).2.symm.trans htype, ?_⟩
          obtain rfl := (hs₂.field hheader (by decide) h₃).2
          obtain rfl := (hs₃.field hheader (by decide) h₄).2
          rfl
        obtain ⟨ht, hle, hrest⟩ := ih hs₄ h
        obtain ⟨hstop, hmax⟩ := le_larger (offset + filesz) maxEnd
        refine ⟨ht, BitVec.le_trans hmax hle, fun hram => ?_⟩
        obtain ⟨hends, hone⟩ := hrest hram
        refine ⟨fun j hlo hhi hj hheader hload => ?_, fun hheaders => ?_⟩
        · by_cases hji : j = i
          · subst hji
            rw [← (hhere hheader).2]
            exact BitVec.le_trans hstop hle
          · exact hends j (by omega) (by omega) hj hheader hload
        · have hj : i < (half m (eh + ePhnum).toNat).toNat := hphnum hram ▸ hi
          rcases hone hheaders with hv | hv
          · by_cases hlarger : offset + filesz > maxEnd
            · rw [if_pos hlarger] at hv
              obtain ⟨hload, hend⟩ := hhere (hheaders i hj)
              exact .inr ⟨i, hj, hload, hv.trans hend⟩
            · rw [if_neg hlarger] at hv
              exact .inl hv
          · exact .inr hv
      · rw [if_pos htype] at h
        obtain ⟨ht, hle, hrest⟩ := ih hs₂ h
        refine ⟨ht, hle, fun hram => ⟨fun j hlo hhi hj hheader hload => ?_, (hrest hram).2⟩⟩
        have hne : j ≠ i := by
          rintro rfl
          exact htype ((hs₁.field hheader (by decide) h₂).2.trans hload)
        exact (hrest hram).1 j (by omega) (by omega) hj hheader hload
    · rw [if_neg hi] at h
      obtain ⟨rfl, rfl⟩ := Prod.mk.inj (Except.ok.inj h)
      refine ⟨hs₁, BitVec.le_refl _, fun hram => ⟨fun j hlo hhi hj => ?_, fun _ => .inl rfl⟩⟩
      rw [hphnum hram] at hi
      omega

/-- Where the code looks for a header of the file. -/
theorem Regular.headerAddr (hf : Regular bios image) {i : ℕ}
    (hi : i < (elfPhnum image.elf).toNat)
    (hle : elfHeaderAt image.elf i + phdrSize ≤ kernelElfMax.toNat) :
    (kernelElfBuf + elfPhoff image.elf + BitVec.ofNat 32 (i * phdrSize)).toNat =
      kernelElfBuf.toNat + elfHeaderAt image.elf i := by
  have hbuf : kernelElfBuf.toNat = 0x300000 ∧ kernelElfMax.toNat = 0x80000 := ⟨rfl, rfl⟩
  rw [hf.headerAt hi] at hle ⊢
  rw [BitVec.toNat_add, BitVec.toNat_add, BitVec.toNat_ofNat]
  omega

/-- The first eight sectors of the file are in the buffer, as far as the image has them. -/
def FirstSectors (image : DiskImage) (m : Bytes) : Prop :=
  ∀ k < 8 * diskSectorSize, diskSectorSize + k < image.size →
    m (kernelElfBuf.toNat + k) = image.elf k

theorem FirstSectors.phnum (hm : FirstSectors image m) (hsize : diskSectorSize + 52 ≤ image.size) :
    half m (kernelElfBuf + ePhnum).toNat = elfPhnum image.elf := by
  have hsector : diskSectorSize = 512 := rfl
  exact half_elfBuf (a := 44) fun k hlo hhi => hm k (by omega) (by omega)

theorem LoaderState.elfFileSize (hs : LoaderState image d m s) (hm : FirstSectors image m)
    (hsize : diskSectorSize + 52 ≤ image.size) {v : BitVec 32}
    (h : elfFileSize kernelElfBuf s = .ok (v, t)) :
    LoaderState image d m t ∧ ∃ maxEnd s₁ s₂, LoaderState image d m s₁ ∧
      LampVm.segmentsEnd kernelElfBuf (kernelElfBuf + elfPhoff image.elf) (2 ^ 16) 0 0 s₁ =
        .ok (maxEnd, s₂) ∧
      v = if headersEnd image.elf > maxEnd then headersEnd image.elf else maxEnd := by
  have hsector : diskSectorSize = 512 := rfl
  have hmax : kernelElfMax.toNat = 0x80000 := rfl
  have hphoff : word m (kernelElfBuf.toNat + 28) = elfPhoff image.elf :=
    word_elfBuf fun k hlo hhi => hm k (by omega) (by omega)
  have hphentsize : half m (kernelElfBuf.toNat + 42) = elfPhentsize image.elf :=
    half_elfBuf fun k hlo hhi => hm k (by omega) (by omega)
  have hfield (off n : ℕ) (h : off + n ≤ 52) : InRam (kernelElfBuf.toNat + off) n :=
    inRam_elfBuf (by omega)
  obtain ⟨phoff, s₁, h₁, h⟩ := bind_eq_ok h
  obtain ⟨hs₁, hv₁⟩ := hs.read32 h₁
  obtain rfl := (hv₁ (hfield 28 4 (by omega))).trans hphoff
  obtain ⟨maxEnd, s₂, h₂, h⟩ := bind_eq_ok h
  have hs₂ := (hs₁.segmentsEnd h₂).1
  obtain ⟨phoff, s₃, h₃, h⟩ := bind_eq_ok h
  obtain ⟨hs₃, hv₃⟩ := hs₂.read32 h₃
  obtain rfl := (hv₃ (hfield 28 4 (by omega))).trans hphoff
  obtain ⟨phentsize, s₄, h₄, h⟩ := bind_eq_ok h
  obtain ⟨hs₄, hv₄⟩ := hs₃.readHalf h₄
  obtain rfl := (hv₄ (hfield 42 2 (by omega))).trans hphentsize
  obtain ⟨phnum, s₅, h₅, h⟩ := bind_eq_ok h
  obtain ⟨hs₅, hv₅⟩ := hs₄.readHalf h₅
  obtain rfl := (hv₅ (hfield 44 2 (by omega))).trans (hm.phnum hsize)
  obtain ⟨hv, rfl⟩ := Prod.mk.inj (Except.ok.inj h)
  exact ⟨hs₅, maxEnd, s₁, s₂, hs₁, h₂, hv.symm⟩

/-- The size covers the end of the table, and the end of every segment that is seen. -/
theorem LoaderState.le_fileSize (hs : LoaderState image d m s) (hf : Regular bios image)
    (hm : FirstSectors image m) {v : BitVec 32}
    (h : LampVm.elfFileSize kernelElfBuf s = .ok (v, t)) :
    headersEnd image.elf ≤ v ∧ ∀ i < (elfPhnum image.elf).toNat,
      elfHeaderAt image.elf i + phdrSize ≤ kernelElfMax.toNat →
      (Phdr.read m (kernelElfBuf.toNat + elfHeaderAt image.elf i)).isLoad →
      (Phdr.read m (kernelElfBuf.toNat + elfHeaderAt image.elf i)).fileEnd ≤ v := by
  obtain ⟨-, maxEnd, s₁, s₂, hs₁, hends, rfl⟩ := hs.elfFileSize hm hf.size h
  obtain ⟨hhdr, hmaxEnd⟩ := le_larger (headersEnd image.elf) maxEnd
  refine ⟨hhdr, fun i hi hle hload => BitVec.le_trans ?_ hmaxEnd⟩
  have hphnum := (elfPhnum image.elf).isLt
  have hend := ((hs₁.segmentsEnd hends).2.2 (inRam_elfBuf (k := 44) (by decide))).1 i (by omega)
    (by omega) (by rw [hm.phnum hf.size]; exact hi)
  rw [hf.headerAddr hi hle] at hend
  exact hend (inRam_elfBuf hle) hload

theorem Phdr.read_sized {m c : Bytes} {a b : ℕ}
    (h : ∀ k < phdrSizedBytes, m (a + k) = c (b + k)) :
    (Phdr.read m a).type = (Phdr.read c b).type ∧
      (Phdr.read m a).fileEnd = (Phdr.read c b).fileEnd := by
  have hsized : phdrSizedBytes = 20 := rfl
  have hword (j : ℕ) (hj : j + 4 ≤ 20) : word m (a + j) = word c (b + j) :=
    word_congr fun k hk => by
      rw [Nat.add_assoc, Nat.add_assoc]
      exact h (j + k) (by omega)
  have htype : word m a = word c b := hword 0 (by omega)
  refine ⟨htype, ?_⟩
  simp only [Phdr.fileEnd, Phdr.read, hword 4 (by omega), hword 16 (by omega)]

/-- Every size that the first eight sectors show is covered. -/
theorem LoaderState.shown_le (hs : LoaderState image d m s) (hf : Regular bios image)
    (hm : FirstSectors image m) {v : BitVec 32} (h : LampVm.elfFileSize kernelElfBuf s = .ok (v, t))
    {e : BitVec 32} (he : Shown image.elf e) : e ≤ v := by
  obtain ⟨hhdr, hends⟩ := hs.le_fileSize hf hm h
  rcases he with rfl | ⟨i, hi, hseen, hload, rfl⟩
  · exact hhdr
  · have hsector : diskSectorSize = 512 := rfl
    have hsizes : phdrSize = 32 ∧ phdrSizedBytes = 20 ∧ kernelElfMax.toNat = 0x80000 :=
      ⟨rfl, rfl, rfl⟩
    obtain ⟨htype, hend⟩ := Phdr.read_sized (m := m) (c := image.elf)
      (a := kernelElfBuf.toNat + elfHeaderAt image.elf i) (b := elfHeaderAt image.elf i)
      fun k hk => by
        rw [Nat.add_assoc]
        exact hm _ (by omega) (hf.inImage i hi _ (.inl ⟨by omega, by omega⟩))
    have hle := hends i hi (by omega) (htype.trans hload)
    rwa [hend] at hle

theorem PlainTable.headerAt_le {f : Bytes} (htable : PlainTable f) {i : ℕ}
    (hi : i < (elfPhnum f).toNat) : elfHeaderAt f i + phdrSize ≤ (headersEnd f).toNat := by
  have hwrap := htable.noWrap
  have hend : (headersEnd f).toNat =
      (elfPhoff f).toNat + (elfPhentsize f).toNat * (elfPhnum f).toNat := by
    rw [headersEnd, BitVec.toNat_add, BitVec.toNat_mul, BitVec.toNat_setWidth_of_le (by decide),
      BitVec.toNat_setWidth_of_le (by decide), Nat.mod_eq_of_lt (a := _ * _) (by omega),
      Nat.mod_eq_of_lt hwrap]
  have hsize : phdrSize = 32 := rfl
  rw [hend, elfHeaderAt, htable.entry, hsize]
  omega

/-- The first eight sectors of the file, with zeros behind them. -/
structure ZerosBehind (image : DiskImage) (m : Bytes) : Prop where
  first : FirstSectors image m
  zeros : ∀ k, 8 * diskSectorSize ≤ k → k < kernelElfMax.toNat → m (kernelElfBuf.toNat + k) = 0

theorem ZerosBehind.header (hm : ZerosBehind image m) (hf : Regular bios image) {i : ℕ}
    (hi : i < (elfPhnum image.elf).toNat)
    (hle : elfHeaderAt image.elf i + phdrSize ≤ kernelElfMax.toNat) :
    Phdr.read m (kernelElfBuf.toNat + elfHeaderAt image.elf i) = seenHeader image.elf i := by
  refine Phdr.read_congr fun k hk => ?_
  rw [Nat.add_assoc]
  by_cases hfirst : elfHeaderAt image.elf i + k < 8 * diskSectorSize
  · rw [if_pos hfirst]
    exact hm.first _ hfirst (hf.inImage i hi _ (.inl ⟨by omega, by omega⟩))
  · rw [if_neg hfirst]
    exact hm.zeros _ (by omega) (by omega)

/-- With zeros where the file has not been read yet, the size is the largest of these. -/
theorem LoaderState.fileSize_shown (hs : LoaderState image d m s) (hf : Regular bios image)
    (htable : PlainTable image.elf) (hm : ZerosBehind image m) {v : BitVec 32}
    (h : LampVm.elfFileSize kernelElfBuf s = .ok (v, t)) (hv : v ≠ 0) (hle : v ≤ kernelElfMax) :
    ShownInZeros image.elf v ∧ ∀ e, ShownInZeros image.elf e → e ≤ v := by
  obtain ⟨hhdr, hends⟩ := hs.le_fileSize hf hm.first h
  have hat (i : ℕ) (hi : i < (elfPhnum image.elf).toNat) :
      elfHeaderAt image.elf i + phdrSize ≤ kernelElfMax.toNat :=
    (htable.headerAt_le hi).trans (BitVec.le_trans hhdr hle)
  refine ⟨?_, fun e he => ?_⟩
  · obtain ⟨-, maxEnd, s₁, s₂, hs₁, hloop, rfl⟩ := hs.elfFileSize hm.first hf.size h
    by_cases hlarger : headersEnd image.elf > maxEnd
    · rw [if_pos hlarger]
      exact .inl rfl
    rw [if_neg hlarger] at hv ⊢
    have hone := ((hs₁.segmentsEnd hloop).2.2 (inRam_elfBuf (k := 44) (by decide))).2
    rw [hm.first.phnum hf.size] at hone
    rcases hone fun j hj => by
      rw [hf.headerAddr hj (hat j hj)]
      exact inRam_elfBuf (hat j hj)
      with h0 | ⟨j, hj, hload, hend⟩
    · exact absurd h0 hv
    · rw [hf.headerAddr hj (hat j hj), hm.header hf hj (hat j hj)] at hload hend
      exact .inr ⟨j, hj, hload, hend⟩
  · rcases he with rfl | ⟨i, hi, hload, rfl⟩
    · exact hhdr
    · rw [← hm.header hf hi (hat i hi)] at hload ⊢
      exact hends i hi (hat i hi) hload

end Size

/-! ## All segments -/

section Segments

variable {image : DiskImage} {d : Disk} {m m' : Bytes} {s t : Vm} {bios : ℕ → Prop} {i : ℕ}

theorem Needed.of_succ {f : Bytes} {k : ℕ} (h : Needed f (i + 1) k) : Needed f i k := by
  rcases h with hphnum | ⟨j, hlo, hj, hk⟩
  · exact .inl hphnum
  · exact .inr ⟨j, by omega, hj, hk⟩

/-- A segment whose source is in the buffer and whose destination is not. -/
theorem Phdr.Handled.loaded {f : Bytes}
    (hq : (elfHeader f i).Handled kernelElfBuf m m') (hload : (elfHeader f i).isLoad)
    (hplaced : Placed bios f i) (hfits : ∀ k, InSource f i k → k < kernelElfMax.toNat)
    (hsource : ∀ k, InSource f i k → m (kernelElfBuf.toNat + k) = f k) :
    (elfHeader f i).Loaded f m' where
  file k hk := by
    have hbuf : kernelElfBuf.toNat = 0x300000 ∧ kernelElfMax.toNat = 0x80000 := ⟨rfl, rfl⟩
    have hlast := hfits ((elfHeader f i).offset.toNat + ((elfHeader f i).filesz.toNat - 1))
      ⟨hload, by omega, by omega⟩
    have haddr : (kernelElfBuf + (elfHeader f i).offset).toNat =
        kernelElfBuf.toNat + (elfHeader f i).offset.toNat := by
      rw [BitVec.toNat_add]
      omega
    have hbuffer := hplaced.buffer
    have hcopied := hq.file hload hplaced.inRam (by rw [haddr]; exact inRam_elfBuf (by omega))
      (by rw [haddr]; omega) k hk
    rw [hcopied, haddr, Nat.add_assoc]
    exact hsource _ ⟨hload, by omega, by omega⟩
  zeros := hq.zeros hload hplaced.inRam

theorem Phdr.Loaded.congr {p : Phdr} {f : Bytes} (h : p.Loaded f m)
    (hsame : ∀ k < p.span, m' (p.dst.toNat + k) = m (p.dst.toNat + k)) : p.Loaded f m' where
  file k hk := (hsame k (lt_max_of_lt_left hk)).trans (h.file k hk)
  zeros k hlo hhi := (hsame k (lt_max_of_lt_right hhi)).trans (h.zeros k hlo hhi)

/-- From header `i` on. What the loop still reads is as the file has it, and a segment that has
been loaded is left alone. -/
theorem LoaderState.loadSegments (hf : Regular bios image)
    (hfits : ∀ j < (elfPhnum image.elf).toNat, ∀ k, InHeader image.elf j k ∨ InSource image.elf j k →
      k < kernelElfMax.toNat)
    (hs : LoaderState image d m s) {n : ℕ} (hfuel : (elfPhnum image.elf).toNat ≤ n + i)
    (hneed : ∀ k, Needed image.elf i k → m (kernelElfBuf.toNat + k) = image.elf k)
    (h : loadSegments kernelElfBuf (kernelElfBuf + elfPhoff image.elf) n i s = .ok ((), t)) :
    LoaderState image d t.memory t ∧
      (∀ x, (∀ j, i ≤ j → j < (elfPhnum image.elf).toNat → ¬ (elfHeader image.elf j).Stores x) →
        t.memory x = m x) ∧
      ∀ j, i ≤ j → j < (elfPhnum image.elf).toNat → (elfHeader image.elf j).isLoad →
        Placed bios image.elf j → (elfHeader image.elf j).Loaded image.elf t.memory := by
  induction n generalizing i s m with
  | zero =>
    obtain ⟨-, rfl⟩ := Prod.mk.inj (Except.ok.inj h)
    have hstart := hs.memory
    subst hstart
    exact ⟨hs, fun x _ => rfl, fun j hlo hj => by omega⟩
  | succ n ih =>
    obtain ⟨phnum, s₁, h₁, h⟩ := bind_eq_ok h
    obtain ⟨hs₁, hphnum⟩ := hs.readHalf h₁
    obtain rfl : phnum = elfPhnum image.elf :=
      (hphnum (inRam_elfBuf (k := 44) (n := 2) (by decide))).trans
        (half_elfBuf fun k hlo hhi => hneed k (.inl ⟨hlo, hhi⟩))
    by_cases hi : i < (elfPhnum image.elf).toNat
    · rw [if_pos hi] at h
      obtain ⟨_, s₂, h₂, h⟩ := bind_eq_ok h
      have hsize : phdrSize = 32 := rfl
      have hlast := hfits i hi (elfHeaderAt image.elf i + (phdrSize - 1))
        (.inl ⟨by omega, by omega⟩)
      have haddr := hf.headerAddr hi (by omega)
      have hread := header_elfBuf fun k hk => hneed k (.inr ⟨i, le_rfl, hi, .inl hk⟩)
      obtain ⟨hs₂, hhandled⟩ := hs₁.loadSegment (q := elfHeader image.elf i)
        (by rw [haddr]; exact inRam_elfBuf (by omega)) (by rw [haddr, hread])
        (fun x hx => by
          rw [haddr]
          by_contra hin
          obtain ⟨k, rfl⟩ := Nat.exists_eq_add_of_le (show kernelElfBuf.toNat ≤ x by omega)
          exact (hf.kept i hi k hx).1 ⟨by omega, by omega⟩) h₂
      obtain ⟨ht, hframe, hloaded⟩ := ih hs₂ (by omega) (fun k hk => by
        rw [hhandled.frame _ fun hx => (hf.kept i hi k hx).2 hk]
        exact hneed k hk.of_succ) h
      refine ⟨ht, fun x hx => ?_, fun j hlo hj hload hplaced => ?_⟩
      · rw [hframe x fun j hlo hj => hx j (by omega) hj]
        exact hhandled.frame x (hx i le_rfl hi)
      · by_cases hji : j = i
        · subst hji
          refine (hhandled.loaded hload hplaced (fun k hk => hfits j hj k (.inr hk)) fun k hk =>
            hneed k (.inr ⟨j, le_rfl, hj, .inr hk⟩)).congr fun k hk => ?_
          exact hframe _ fun j' hlo' hj' => hplaced.others j' hj' (by omega) k hk
        · exact hloaded j (by omega) hj hload hplaced
    · rw [if_neg hi] at h
      obtain ⟨-, rfl⟩ := Prod.mk.inj (Except.ok.inj h)
      have hsame := hs₁.memory
      subst hsame
      exact ⟨hs₁, fun x _ => rfl, fun j hlo hj => by omega⟩

end Segments

/-! ## The loader -/

section Loader

variable {image : DiskImage} {d : Disk} {m : Bytes} {s t : Vm} {bios : ℕ → Prop}
  {first second : BounceBuffer} {entry : BitVec 32}

theorem totalSectors_toNat {v : BitVec 32} (h : v ≤ kernelElfMax) :
    ((v + 511) / 512).toNat = (v.toNat + 511) / 512 := by
  have hmax : kernelElfMax.toNat = 0x80000 := rfl
  have hle : v.toNat ≤ kernelElfMax.toNat := h
  rw [BitVec.toNat_udiv, BitVec.toNat_add]
  change (v.toNat + 511) % 2 ^ 32 / 512 = _
  rw [Nat.mod_eq_of_lt (by omega)]

/-- The loop over the segments accesses memory only. -/
theorem safe_loadSegments {I : Vm → Prop} {E : Fault → Prop} (h : MemoryRules I E)
    (eh ph : BitVec 32) (n i : ℕ) : Safe I E (loadSegments eh ph n i) := by
  induction n generalizing i with
  | zero => exact safe_pure _
  | succ n ih =>
    have hhalf (a : BitVec 32) : Safe I E (readHalf a) :=
      safe_bind (h.vmRead8 _) fun _ => safe_bind (h.vmRead8 _) fun _ => safe_pure _
    have hcopy (p dst : BitVec 32) : Safe I E (copySegment eh p dst) :=
      safe_bind (h.vmRead32 _) fun _ => safe_bind (h.vmRead32 _) fun _ =>
        safe_ite (fun _ => h.memcpyLoop _ _ _ _) fun _ => safe_pure _
    have hclear (p dst : BitVec 32) : Safe I E (clearTail p dst) :=
      safe_bind (h.vmRead32 _) fun _ => safe_bind (h.vmRead32 _) fun _ =>
        safe_ite (fun _ => h.memsetLoop _ _ _ _) fun _ => safe_pure _
    have hdst (p : BitVec 32) : Safe I E (segmentDst p) :=
      safe_bind (h.vmRead32 _) fun _ => safe_ite (fun _ => safe_pure _) fun _ => h.vmRead32 _
    have hone (p : BitVec 32) : Safe I E (loadSegment eh p) :=
      safe_bind (h.vmRead32 _) fun _ => safe_ite (fun _ => safe_pure _) fun _ =>
        safe_bind (hdst p) fun _ => safe_bind (hcopy p _) fun _ => hclear p _
    exact safe_bind (hhalf _) fun _ => safe_ite
      (fun _ => safe_bind (hone _) fun _ => ih _) fun _ => safe_pure _

/-- A run that reaches the jump: the memories after the two reads, and the size between them. -/
theorem LoaderState.elfLoadAndJump (hs : LoaderState image d m s) (hd : d.Idle)
    (hsize : diskSectorSize + 52 ≤ image.size) (hfirst : first.allocated = true)
    (hsecond : second.allocated = true)
    (h : LampVm.elfLoadAndJump first second s = .ok (some entry, t)) :
    ∃ m₁ m₂ v d₁ d₂ s₁ s₂ s₃ s₄,
      (FirstSectors image m₁ ∧ LoaderState image d₁ m₁ s₁ ∧
        ∀ k, 8 * diskSectorSize ≤ k → m₁ (kernelElfBuf.toNat + k) = m (kernelElfBuf.toNat + k)) ∧
      (LampVm.elfFileSize kernelElfBuf s₁ = .ok (v, s₂) ∧ v ≠ 0 ∧ v ≤ kernelElfMax) ∧
      (LoaderState image d₂ m₂ s₃ ∧ d₂.count.toNat = (v.toNat + 511) / 512 ∧
        ∀ k < d₂.count.toNat * diskSectorSize, diskSectorSize + k < image.size →
          m₂ (kernelElfBuf.toNat + k) = image.elf k) ∧
      LampVm.loadSegments kernelElfBuf (kernelElfBuf + elfPhoff image.elf) (2 ^ 16) 0 s₃ =
        .ok ((), s₄) ∧
      vmRead32 (kernelElfBuf + eEntry) s₄ = .ok (entry, t) ∧ t.disk = d₂ := by
  have hsector : diskSectorSize = 512 := rfl
  have hmax : kernelElfMax.toNat = 0x80000 := rfl
  obtain ⟨_, s₁, h₁, h⟩ := bind_eq_ok h
  have hs₁ := hs.readSectors hd (by decide) h₁
  have hm₁ : FirstSectors image (sectorsRead image first kernelLba 8 kernelElfBuf m) :=
    fun k hk himage => sectorsRead_elf hfirst hk himage
  obtain ⟨valid, s₂, h₂, h⟩ := bind_eq_ok h
  have hs₂ := hs₁.elfValidate h₂
  by_cases hvalid : valid = true
  swap
  · rw [if_pos hvalid] at h
    cases h
  rw [if_neg (not_not.mpr hvalid)] at h
  obtain ⟨v, s₃, h₃, h⟩ := bind_eq_ok h
  have hs₃ := (hs₂.elfFileSize hm₁ hsize h₃).1
  by_cases hbad : v = 0 ∨ v > kernelElfMax
  · rw [if_pos hbad] at h
    cases h
  rw [if_neg hbad] at h
  obtain ⟨hzero, hle⟩ := not_or.mp hbad
  have hle : v ≤ kernelElfMax := BitVec.not_lt.mp hle
  have hcount := totalSectors_toNat hle
  have hpos : 0 < v.toNat := Nat.pos_of_ne_zero fun h0 => hzero (BitVec.eq_of_toNat_eq h0)
  have hle' : v.toNat ≤ kernelElfMax.toNat := hle
  obtain ⟨_, s₄, h₄, h⟩ := bind_eq_ok h
  have hvalid₂ : isValidDma memSize kernelElfBuf.toNat ((v + 511) / 512).toNat = true := by
    have hbuf : kernelElfBuf.toNat = 0x300000 := rfl
    have hmem : memSize = 67108864 := rfl
    rw [isValidDma_iff, hcount, hsector]
    omega
  have hs₄ := hs₃.readSectors hd.afterRead hvalid₂ h₄
  obtain ⟨phoff, s₅, h₅, h⟩ := bind_eq_ok h
  obtain ⟨hs₅, hphoff⟩ := hs₄.read32 h₅
  obtain rfl : phoff = elfPhoff image.elf :=
    (hphoff (inRam_elfBuf (k := 28) (n := 4) (by omega))).trans
      (word_elfBuf (a := 28) fun k hlo hhi =>
        sectorsRead_elf hsecond (by rw [hcount, hsector]; omega) (by omega))
  obtain ⟨_, s₆, h₆, h⟩ := bind_eq_ok h
  obtain ⟨entry', s₇, h₇, h⟩ := bind_eq_ok h
  obtain ⟨hentry, rfl⟩ := Prod.mk.inj (Except.ok.inj h)
  obtain rfl := Option.some.inj hentry
  refine ⟨_, _, v, _, _, s₂, s₃, s₅, s₆, ⟨hm₁, hs₂, fun k hk => ?_⟩, ⟨h₃, hzero, hle⟩,
    ⟨hs₅, hcount, fun k hk himage => sectorsRead_elf hsecond hk himage⟩, h₆, h₇, ?_⟩
  · have hbytes : (8 : BitVec 32).toNat * diskSectorSize = 8 * diskSectorSize := rfl
    rw [sectorsRead, if_pos hfirst, copyToRam, hbytes, if_neg (by omega)]
  · have hstable : Stable (fun u : Vm => u.disk = s₅.disk) fun _ => True :=
      .of_view _ (fun _ => rfl) fun _ _ _ _ => rfl
    have hs₆ := (safe_loadSegments hstable.memory _ _ _ _).ok rfl h₆
    exact ((hstable.memory.vmRead32 _).ok hs₆ h₇).trans hs₅.disk

/-- What the sectors for a smaller size have, those for a larger size have too. -/
theorem lt_sectors {e v : BitVec 32} (h : e ≤ v) {k : ℕ}
    (hk : k < (e.toNat + 511) / 512 * diskSectorSize) :
    k < (v.toNat + 511) / 512 * diskSectorSize := by
  have hle : e.toNat ≤ v.toNat := h
  exact hk.trans_le (Nat.mul_le_mul_right _ (Nat.div_le_div_right (by omega)))

/-- If the second read has what the loop reads, the segments are loaded from the file. -/
theorem Regular.loaded (hf : Regular bios image) {m₂ : Bytes} {d₂ : Disk} {s₃ s₄ : Vm}
    {v : BitVec 32} (hle : v ≤ kernelElfMax) (hs₃ : LoaderState image d₂ m₂ s₃)
    (hcount : d₂.count.toNat = (v.toNat + 511) / 512)
    (hbytes : ∀ k < d₂.count.toNat * diskSectorSize, diskSectorSize + k < image.size →
      m₂ (kernelElfBuf.toNat + k) = image.elf k) (hzero : v ≠ 0)
    (hread : ∀ i < (elfPhnum image.elf).toNat, ∀ k,
      InHeader image.elf i k ∨ InSource image.elf i k → k < d₂.count.toNat * diskSectorSize)
    (hload : LampVm.loadSegments kernelElfBuf (kernelElfBuf + elfPhoff image.elf) (2 ^ 16) 0 s₃ =
      .ok ((), s₄))
    (hentry : vmRead32 (kernelElfBuf + eEntry) s₄ = .ok (entry, t)) : ElfLoaded bios image.elf t := by
  have hsector : diskSectorSize = 512 := rfl
  have hmax : kernelElfMax.toNat = 0x80000 := rfl
  have hle' : v.toNat ≤ kernelElfMax.toNat := hle
  have hpos : 0 < v.toNat := Nat.pos_of_ne_zero fun h0 => hzero (BitVec.eq_of_toNat_eq h0)
  have hsize := hf.size
  have hphnum := (elfPhnum image.elf).isLt
  rw [hcount, hsector] at hbytes hread
  have hneed : ∀ k, Needed image.elf 0 k → m₂ (kernelElfBuf.toNat + k) = image.elf k := by
    rintro k (⟨hlo, hhi⟩ | ⟨j, -, hj, hk⟩)
    · have hoff : ePhnum.toNat = 44 := rfl
      exact hbytes k (by omega) (by omega)
    · exact hbytes k (hread j hj k hk) (hf.inImage j hj k hk)
  obtain ⟨hs₄, -, hloaded⟩ := hs₃.loadSegments hf
    (fun j hj k hk => by have := hread j hj k hk; omega) (by omega) hneed hload
  have ht := (hs₄.read32 hentry).1
  refine ⟨fun i hi hq hplaced => ?_, fun i hi k hk => ?_⟩
  · rw [ht.memory]
    exact hloaded i (Nat.zero_le i) hi hq hplaced
  · rw [ht.disk, hcount, hsector]
    exact hread i hi k (.inr hk)

/-- When the loader jumps to the kernel, the segments of a loadable file are in place. A regular file
in a buffer of zeros is loaded exactly if the sizes that the first eight sectors show reach to the end
of all segments. -/
theorem elf_loaded (hs : LoaderState image d m s) (hd : d.Idle) (hfirst : first.allocated = true)
    (hsecond : second.allocated = true)
    (h : elfLoadAndJump first second s = .ok (some entry, t)) :
    (Loadable bios image → ElfLoaded bios image.elf t) ∧
    (Regular bios image → PlainTable image.elf →
      (∀ k, 8 * diskSectorSize ≤ k → k < kernelElfMax.toNat → m (kernelElfBuf.toNat + k) = 0) →
      (ElfLoaded bios image.elf t ↔ ∀ i < (elfPhnum image.elf).toNat, ∀ k,
        InSource image.elf i k → ReachedInZeros image.elf k)) := by
  refine ⟨fun hf => ?_, fun hf htable hzeros => ?_⟩
  · obtain ⟨m₁, m₂, v, d₁, d₂, s₁, s₂, s₃, s₄, ⟨hm₁, hs₁, -⟩, ⟨hv, hzero, hle⟩,
      ⟨hs₃, hcount, hbytes⟩, hload, hentry, -⟩ := hs.elfLoadAndJump hd hf.size hfirst hsecond h
    refine hf.loaded hle hs₃ hcount hbytes hzero (fun i hi k hk => ?_) hload hentry
    obtain ⟨e, he, hlt⟩ := hf.reached i hi k hk
    rw [hcount]
    exact lt_sectors (hs₁.shown_le hf.toRegular hm₁ hv he) hlt
  · obtain ⟨m₁, m₂, v, d₁, d₂, s₁, s₂, s₃, s₄, ⟨hm₁, hs₁, hrest⟩, ⟨hv, hzero, hle⟩,
      ⟨hs₃, hcount, hbytes⟩, hload, hentry, hdisk⟩ :=
      hs.elfLoadAndJump hd hf.size hfirst hsecond h
    obtain ⟨hshown, hlargest⟩ := hs₁.fileSize_shown hf htable
      ⟨hm₁, fun k hlo hhi => (hrest k hlo).trans (hzeros k hlo hhi)⟩ hv hzero hle
    refine ⟨fun hloaded i hi k hk => ?_, fun hsources => ?_⟩
    · have hread := hloaded.sources i hi k hk
      rw [hdisk, hcount] at hread
      exact ⟨v, hshown, hread⟩
    · refine hf.loaded hle hs₃ hcount hbytes hzero (fun i hi k hk => ?_) hload hentry
      rw [hcount]
      rcases hk with hheader | hsource
      · refine lt_sectors (hlargest _ (.inl rfl)) ?_
        have hlt := hheader.2.trans_le (htable.headerAt_le hi)
        have hsector : diskSectorSize = 512 := rfl
        rw [hsector]
        omega
      · obtain ⟨e, he, hlt⟩ := hsources i hi k hsource
        exact lt_sectors (hlargest e he) hlt

end Loader

/-! ## Kernels of one segment -/

section Kernels

def wordBytes (w : BitVec 32) : List (BitVec 8) :=
  [w.setWidth 8, (w >>> 8).setWidth 8, (w >>> 16).setWidth 8, (w >>> 24).setWidth 8]

def kernelEhdr (phoff : BitVec 32) : List (BitVec 8) :=
  elfIdent ++ List.replicate 10 0 ++ [2, 0, 0, 0] ++ wordBytes 1 ++ wordBytes 0x400000 ++
    wordBytes phoff ++ wordBytes 0 ++ wordBytes 0 ++ [52, 0, 32, 0, 1, 0, 0, 0, 0, 0, 0, 0]

def kernelPhdr (offset : BitVec 32) : List (BitVec 8) :=
  wordBytes 1 ++ wordBytes offset ++ wordBytes 0x400000 ++ wordBytes 0x400000 ++ wordBytes 4 ++
    wordBytes 8 ++ wordBytes 7 ++ wordBytes 4096

/-- A file with one segment of four bytes, and the places of its header and its bytes. -/
def kernelImage (phoff offset : ℕ) : DiskImage where
  size := diskSectorSize + offset + 4
  bytes x :=
    let k := x - diskSectorSize
    if k < 52 then (kernelEhdr (BitVec.ofNat 32 phoff)).getD k 0
    else if phoff ≤ k ∧ k < phoff + phdrSize then
      (kernelPhdr (BitVec.ofNat 32 offset)).getD (k - phoff) 0
    else if offset ≤ k ∧ k < offset + 4 then 0x5A
    else 0

/-- A machine with empty RAM and the image in its drive. -/
def loaderVm (image : DiskImage) : Vm :=
  { Vm.allocated ⟨fun _ => 0, fun _ => 0, 0⟩ false memSize 1 (BitVec.ofNat 32 programBase) with
    disk := ⟨0, 0, 0, .free, diskCmdNone, true, false⟩
    diskWorker := .waiting
    diskImage := image }

def zeroedBuffer : BounceBuffer := ⟨true, fun _ => 0⟩

/-- The run reaches the jump, with this property. -/
def jumps (image : DiskImage) (p : BitVec 32 → Vm → Bool) : Bool :=
  match elfLoadAndJump zeroedBuffer zeroedBuffer (loaderVm image) with
  | .ok (some entry, t) => p entry t
  | _ => false

theorem exists_of_jumps {image : DiskImage} {p : BitVec 32 → Vm → Bool} (h : jumps image p = true) :
    ∃ entry t, elfLoadAndJump zeroedBuffer zeroedBuffer (loaderVm image) = .ok (some entry, t) ∧
      p entry t = true := by
  unfold jumps at h
  split at h
  · rename_i entry t hrun
    exact ⟨entry, t, hrun, h⟩
  · exact absurd h Bool.false_ne_true

theorem loaderVm_state (image : DiskImage) : LoaderState image
    ⟨0, 0, 0, .free, diskCmdNone, true, false⟩ (fun _ => 0) (loaderVm image) :=
  ⟨rfl, rfl, rfl, fun dev h => absurd h.symm (Option.some_ne_none dev), rfl, rfl, rfl⟩

/-- The first three megabytes, as the part of RAM that the BIOS takes. -/
def lowMemory (x : ℕ) : Prop := x < kernelElfBuf.toNat

theorem kernelImage_header : (elfPhnum (kernelImage 52 128).elf).toNat = 1 ∧
    elfHeaderAt (kernelImage 52 128).elf 0 = 52 ∧
    elfHeader (kernelImage 52 128).elf 0 = ⟨ptLoad, 128, 0x400000, 0x400000, 4, 8⟩ := by
  decide +kernel

theorem kernelImage_stores {x : ℕ} (h : (elfHeader (kernelImage 52 128).elf 0).Stores x) :
    0x400000 ≤ x ∧ x < 0x400008 := by
  obtain ⟨-, k, hk, rfl⟩ := h
  rw [kernelImage_header.2.2] at hk ⊢
  have hspan : Phdr.span ⟨ptLoad, 128, 0x400000, 0x400000, 4, 8⟩ = 8 := by decide
  have hdst : (Phdr.dst ⟨ptLoad, 128, 0x400000, 0x400000, 4, 8⟩).toNat = 0x400000 := by decide
  rw [BitVec.toNat_add, hdst, BitVec.toNat_ofNat]
  omega

theorem kernelImage_loadable : Loadable lowMemory (kernelImage 52 128) := by
  obtain ⟨hphnum, hat, hheader⟩ := kernelImage_header
  have hin (k : ℕ) (hk : InHeader (kernelImage 52 128).elf 0 k ∨
      InSource (kernelImage 52 128).elf 0 k) : k < 132 := by
    rcases hk with hk | ⟨-, -, hk⟩
    · have hsize : phdrSize = 32 := rfl
      have := hk.2
      omega
    · rw [hheader] at hk
      exact hk
  have hbuf : kernelElfBuf.toNat = 0x300000 := rfl
  refine ⟨⟨by decide, .inl (by decide +kernel), ?_, ?_, ?_⟩, ?_⟩ <;> rw [hphnum] <;> intro i hi <;>
    obtain rfl : i = 0 := by omega
  · intro k hk
    have hsize : (kernelImage 52 128).size = diskSectorSize + 132 := rfl
    have := hin k hk
    omega
  · intro k hk
    have hx := kernelImage_stores hk
    refine ⟨fun hk' => ?_, ?_⟩
    · have := hin k (.inl hk')
      omega
    · rintro (hk' | ⟨j, hlo, hj, -⟩)
      · have hoff : ePhnum.toNat = 44 := rfl
        omega
      · omega
  · intro x hx hlow
    have := kernelImage_stores hx
    unfold lowMemory at hlow
    omega
  · intro k hk
    have hsector : diskSectorSize = 512 := rfl
    have := hin k hk
    refine ⟨132, .inr ⟨0, by omega, by rw [hat]; decide, ?_, ?_⟩, ?_⟩
    · rw [hheader]
      rfl
    · rw [hheader]
      rfl
    · change k < (132 + 511) / 512 * diskSectorSize
      omega

theorem kernelImage_placed {phoff offset : ℕ}
    (h : (elfPhnum (kernelImage phoff offset).elf).toNat = 1 ∧
      (elfHeader (kernelImage phoff offset).elf 0).dst = 0x400000 ∧
      (elfHeader (kernelImage phoff offset).elf 0).span = 8) :
    Placed lowMemory (kernelImage phoff offset).elf 0 := by
  obtain ⟨hphnum, hdst, hspan⟩ := h
  have hto : (0x400000 : BitVec 32).toNat = 0x400000 := rfl
  have hbuf : kernelElfBuf.toNat = 0x300000 ∧ kernelElfMax.toNat = 0x80000 := ⟨rfl, rfl⟩
  refine ⟨?_, fun k hk hlow => ?_, ?_, fun j hj hne => by omega⟩
  · rw [hdst, hspan]
    decide
  · unfold lowMemory at hlow
    rw [hdst] at hlow
    omega
  · rw [hdst]
    omega

/-- The header is in the first sector, and the four bytes and the zeros arrive. -/
theorem elf_loaded_first_sector : ∃ entry t,
    elfLoadAndJump zeroedBuffer zeroedBuffer (loaderVm (kernelImage 52 128)) =
      .ok (some entry, t) ∧
    ElfLoaded lowMemory (kernelImage 52 128).elf t ∧
    (elfHeader (kernelImage 52 128).elf 0).Loaded (kernelImage 52 128).elf t.memory := by
  have hjumps : jumps (kernelImage 52 128) (fun _ _ => true) = true := by decide +kernel
  obtain ⟨entry, t, hrun, -⟩ := exists_of_jumps hjumps
  have hloaded := (elf_loaded (loaderVm_state _) ⟨rfl, rfl⟩ rfl rfl hrun).1 kernelImage_loadable
  obtain ⟨hphnum, -, hheader⟩ := kernelImage_header
  refine ⟨entry, t, hrun, hloaded, hloaded.segments 0 (by omega) (by rw [hheader]; rfl) ?_⟩
  exact kernelImage_placed ⟨hphnum, by rw [hheader]; decide, by rw [hheader]; decide⟩

/-- The header is at 8192, where the buffer has zeros when the file is sized. Seventeen sectors are
read, the segment's bytes are in the thirty-third, and zeros are copied. -/
theorem elf_not_loaded_far_header : ∃ entry t,
    LoaderState (kernelImage 8192 16384) ⟨0, 0, 0, .free, diskCmdNone, true, false⟩ (fun _ => 0)
      (loaderVm (kernelImage 8192 16384)) ∧
    elfLoadAndJump zeroedBuffer zeroedBuffer (loaderVm (kernelImage 8192 16384)) =
      .ok (some entry, t) ∧
    0 < (elfPhnum (kernelImage 8192 16384).elf).toNat ∧
    (elfHeader (kernelImage 8192 16384).elf 0).isLoad ∧
    Placed lowMemory (kernelImage 8192 16384).elf 0 ∧
    ¬ (elfHeader (kernelImage 8192 16384).elf 0).Loaded (kernelImage 8192 16384).elf t.memory ∧
    InSource (kernelImage 8192 16384).elf 0 16384 ∧
    ¬ 16384 < t.disk.count.toNat * diskSectorSize := by
  have hheader : (elfPhnum (kernelImage 8192 16384).elf).toNat = 1 ∧
      elfHeader (kernelImage 8192 16384).elf 0 = ⟨ptLoad, 16384, 0x400000, 0x400000, 4, 8⟩ ∧
      (kernelImage 8192 16384).elf 16384 = 0x5A := by
    decide +kernel
  obtain ⟨hphnum, hheader, hbyte⟩ := hheader
  have hjumps : jumps (kernelImage 8192 16384)
      (fun _ t => t.memory 0x400000 = 0 ∧ t.disk.count = 17) = true := by
    decide +kernel
  obtain ⟨entry, t, hrun, hp⟩ := exists_of_jumps hjumps
  obtain ⟨hmemory, hcount⟩ := of_decide_eq_true hp
  refine ⟨entry, t, loaderVm_state _, hrun, by omega, by rw [hheader]; rfl,
    kernelImage_placed ⟨hphnum, by rw [hheader]; decide, by rw [hheader]; decide⟩,
    fun hloaded => ?_, ?_, ?_⟩
  · have hfile := hloaded.file 0 (by rw [hheader]; decide)
    rw [hheader] at hfile
    have hsame : t.memory 0x400000 = (kernelImage 8192 16384).elf 16384 := hfile
    rw [hmemory, hbyte] at hsame
    exact absurd hsame (by decide)
  · rw [InSource, hheader]
    exact ⟨rfl, by decide, by decide⟩
  · rw [hcount]
    decide

end Kernels

end LampVm
