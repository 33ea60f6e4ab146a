import LampVm.Safety
import Mathlib.Order.CompletePartialOrder

/-!
# Where the stacks lie

`vm_create` places the stacks of several cores at the end of memory and compares the
image with them. The stacks of a single core lie at a fixed place, and there nothing
is compared: they are separate from the image exactly when the image keeps clear of
that place by itself.
-/
namespace LampVm

open Set

inductive StackKind
  | call | data | isr
  deriving DecidableEq, Repr

inductive Segment
  | text | data | bss
  deriving DecidableEq, Repr

def Vcpu.stackRegion (cpu : Vcpu) : StackKind → Set ℕ
  | .call => Ico cpu.callStackBase.toNat (cpu.callStackBase.toNat + callStackBytes)
  | .data => Ico cpu.dataStackBase.toNat (cpu.dataStackBase.toNat + dataStackBytes)
  | .isr => Ico cpu.isrStackBase.toNat (cpu.isrStackBase.toNat + isrStackBytes)

def ProgramLayout.segment (place : ProgramLayout) (progBytes dataSize : ℕ) : Segment → Set ℕ
  | .text => Ico place.textBase.toNat (place.textBase.toNat + progBytes)
  | .data => Ico place.dataBase.toNat (place.dataBase.toNat + dataSize)
  | .bss => Ico place.bssBase.toNat (place.bssBase.toNat + place.bssSize.toNat)

/-- The stacks of all cores lie in memory, apart from each other and from the image. -/
structure StacksSeparate (vm : Vm) (image : Segment → Set ℕ) : Prop where
  inRam : ∀ c < vm.smpCores, ∀ k, (vm.cpus c).stackRegion k ⊆ Ico 0 vm.memorySize
  apart : ∀ c < vm.smpCores, ∀ d < vm.smpCores, ∀ k l, (c, k) ≠ (d, l) →
    Disjoint ((vm.cpus c).stackRegion k) ((vm.cpus d).stackRegion l)
  image : ∀ c < vm.smpCores, ∀ k seg, Disjoint ((vm.cpus c).stackRegion k) (image seg)

/-- The fixed place of the stacks of a single core. -/
def fixedStacks : Set ℕ := Ico callStackBase (callStackBase + perCoreStackBytes)

/-! ## Regions -/

variable {N c : ℕ}

/-- Offset and size of a stack in its core's part of the pool. -/
def StackKind.offset : StackKind → ℕ
  | .call => 0
  | .data => callStackBytes
  | .isr => callStackBytes + dataStackBytes

def StackKind.bytes : StackKind → ℕ
  | .call => callStackBytes
  | .data => dataStackBytes
  | .isr => isrStackBytes

/-- The stacks of a core share its part of the pool in order. -/
theorem StackKind.offset_add_bytes_le (k : StackKind) : k.offset + k.bytes ≤ perCoreStackBytes := by
  cases k <;> decide

theorem StackKind.apart {k l : StackKind} (h : k ≠ l) :
    k.offset + k.bytes ≤ l.offset ∨ l.offset + l.bytes ≤ k.offset := by
  revert h
  cases k <;> cases l <;> decide

/-- The start of a core's part of the pool, as a number. -/
def coreStackStart (N c : ℕ) : ℕ :=
  if N = 1 then callStackBase else memSize - perCoreStackBytes * N + perCoreStackBytes * c

theorem coreStackStart_le (hN : N ≤ 64) (hc : c < N) :
    coreStackStart N c + perCoreStackBytes ≤ memSize := by
  have hpool : perCoreStackBytes = 5120 := rfl
  have hmem : memSize = 67108864 := rfl
  have hbase : callStackBase = 2048 := rfl
  unfold coreStackStart
  rw [hpool, hmem, hbase]
  split_ifs <;> omega

theorem coreStackBase_toNat (hN : N ≤ 64) (hc : c < N) :
    (coreStackBase memSize N c).toNat = coreStackStart N c := by
  have hpool : perCoreStackBytes = 5120 := rfl
  have hmem : memSize = 67108864 := rfl
  have hbase : callStackBase = 2048 := rfl
  unfold coreStackBase coreStackStart
  by_cases h1 : N = 1
  · rw [if_pos h1, if_pos h1, BitVec.toNat_ofNat, hbase]
  · rw [if_neg h1, if_neg h1, stackPoolBase, if_neg h1, BitVec.toNat_add, BitVec.toNat_ofNat,
      BitVec.toNat_ofNat, hpool, hmem]
    omega

def Vcpu.stackBase (cpu : Vcpu) : StackKind → BitVec 32
  | .call => cpu.callStackBase
  | .data => cpu.dataStackBase
  | .isr => cpu.isrStackBase

theorem stackRegion_eq_Ico (cpu : Vcpu) (k : StackKind) : cpu.stackRegion k =
    Ico (cpu.stackBase k).toNat ((cpu.stackBase k).toNat + k.bytes) := by
  cases k <;> rfl

theorem stackBase_initCpu (textBase : BitVec 32) (hN : N ≤ 64) (hc : c < N) (k : StackKind) :
    ((initCpu memSize N textBase c).stackBase k).toNat = coreStackStart N c + k.offset := by
  have hstart := coreStackBase_toNat hN hc
  have hle := coreStackStart_le hN hc
  have hmem : memSize = 67108864 := rfl
  have hpool : perCoreStackBytes = 5120 := rfl
  have hcall : callStackBytes = 2048 := rfl
  have hdata : dataStackBytes = 1024 := rfl
  cases k with
  | call => exact hstart
  | data =>
    simp only [Vcpu.stackBase, initCpu, StackKind.offset, BitVec.toNat_add, BitVec.toNat_ofNat,
      hstart]
    omega
  | isr =>
    simp only [Vcpu.stackBase, initCpu, StackKind.offset, BitVec.toNat_add, BitVec.toNat_ofNat,
      hstart]
    omega

theorem stackRegion_initCpu (textBase : BitVec 32) (hN : N ≤ 64) (hc : c < N) (k : StackKind) :
    (initCpu memSize N textBase c).stackRegion k =
      Ico (coreStackStart N c + k.offset) (coreStackStart N c + k.offset + k.bytes) := by
  rw [stackRegion_eq_Ico, stackBase_initCpu textBase hN hc]

/-- A core's stacks fill its part of the pool. -/
theorem exists_stack_mem {start a : ℕ} (h : a ∈ Ico start (start + perCoreStackBytes)) :
    ∃ k : StackKind, a ∈ Ico (start + k.offset) (start + k.offset + k.bytes) := by
  have hpool : perCoreStackBytes = 5120 := rfl
  have hcall : callStackBytes = 2048 := rfl
  have hdata : dataStackBytes = 1024 := rfl
  have hisr : isrStackBytes = 2048 := rfl
  obtain ⟨hlo, hhi⟩ := h
  by_cases h1 : a < start + callStackBytes
  · exact ⟨.call, by simp only [StackKind.offset]; omega, by
      simp only [StackKind.offset, StackKind.bytes]; omega⟩
  · by_cases h2 : a < start + (callStackBytes + dataStackBytes)
    · exact ⟨.data, by simp only [StackKind.offset]; omega, by
        simp only [StackKind.offset, StackKind.bytes]; omega⟩
    · exact ⟨.isr, by simp only [StackKind.offset]; omega, by
        simp only [StackKind.offset, StackKind.bytes]; omega⟩

/-- Different stacks of a machine do not meet. -/
theorem stackRegions_apart {d : ℕ} (hc : c < N) (hd : d < N) {k l : StackKind}
    (hne : (c, k) ≠ (d, l)) :
    Disjoint (Ico (coreStackStart N c + k.offset) (coreStackStart N c + k.offset + k.bytes))
      (Ico (coreStackStart N d + l.offset) (coreStackStart N d + l.offset + l.bytes)) := by
  have hk := k.offset_add_bytes_le
  have hl := l.offset_add_bytes_le
  rw [disjoint_left]
  intro a ha ha'
  rw [mem_Ico] at ha ha'
  by_cases hcd : c = d
  · subst hcd
    have hkl : k ≠ l := fun hkl => hne (by rw [hkl])
    rcases StackKind.apart hkl with h | h <;> omega
  · have hN : N ≠ 1 := by omega
    have hpool : perCoreStackBytes = 5120 := rfl
    unfold coreStackStart at ha ha'
    rw [if_neg hN] at ha ha'
    rw [hpool] at ha ha' hk hl
    omega

/-! ## Created machines -/

variable {clock : HostClock} {memcheck : Bool} {program : List (BitVec 64)}
  {data : List (BitVec 8)} {layout : Option ProgramLayout} {smpCores : ℤ} {vm : Vm}

theorem checkImage_eq_ok {memorySize cores progBytes dataSize : ℕ} {place : ProgramLayout}
    (h : checkImage memorySize cores place progBytes dataSize = .ok ()) (hcores : cores ≠ 1) :
    place.imageEnd progBytes dataSize ≤ (stackPoolBase memorySize cores).toNat := by
  unfold checkImage at h
  split_ifs at h with h1 h2 h3 h4 h5
  have h6 := not_and.mp h3 hcores
  omega

/-- Every segment ends where the image ends or before. -/
theorem ProgramLayout.segment_lt_imageEnd {place : ProgramLayout} {progBytes dataSize a : ℕ}
    {seg : Segment} (h : a ∈ place.segment progBytes dataSize seg) :
    a < place.imageEnd progBytes dataSize := by
  unfold ProgramLayout.imageEnd
  cases seg <;> simp only [ProgramLayout.segment, mem_Ico] at h <;> omega

/-- The stacks of a machine that was created, in numbers. -/
theorem vmCreate_stackRegion (hN : coreCount smpCores ≤ 64)
    (h : vmCreate clock memcheck memSize program data layout smpCores = .ok vm)
    {c : ℕ} (hc : c < vm.smpCores) (k : StackKind) :
    (vm.cpus c).stackRegion k =
      Ico (coreStackStart (coreCount smpCores) c + k.offset)
        (coreStackStart (coreCount smpCores) c + k.offset + k.bytes) := by
  have hinv := vmCreate_inv h
  rw [hinv.smpCores] at hc
  obtain ⟨textBase, hcpu⟩ := hinv.core c hc
  rw [hcpu]
  exact stackRegion_initCpu textBase hN hc k

/-- With several cores the image ends below the pool. -/
theorem vmCreate_imageEnd_le (hN : coreCount smpCores ≤ 64) (hN1 : coreCount smpCores ≠ 1)
    (h : vmCreate clock memcheck memSize program data layout smpCores = .ok vm) :
    (layout.getD (ProgramLayout.packed (program.length * 8) data.length)).imageEnd
      (program.length * 8) data.length ≤ coreStackStart (coreCount smpCores) 0 := by
  have hle := checkImage_eq_ok (vmCreate_checked h) hN1
  have hbase := coreStackBase_toNat hN (coreCount_pos smpCores)
  rw [coreStackBase, if_neg hN1, mul_zero, BitVec.add_zero] at hbase
  rwa [hbase] at hle

/-- A single core whose stacks are separate from a region leaves it clear of the fixed
place. -/
theorem StacksSeparate.clear {image : Segment → Set ℕ} (hN1 : coreCount smpCores = 1)
    (h : vmCreate clock memcheck memSize program data layout smpCores = .ok vm)
    (hsep : StacksSeparate vm image) (seg : Segment) : Disjoint (image seg) fixedStacks := by
  have hzero : 0 < vm.smpCores := by
    rw [(vmCreate_inv h).smpCores]
    exact coreCount_pos smpCores
  have hstart : coreStackStart (coreCount smpCores) 0 = callStackBase := by
    rw [coreStackStart, if_pos hN1]
  rw [disjoint_left]
  intro a ha hfixed
  obtain ⟨k, hk⟩ := exists_stack_mem hfixed
  rw [← hstart, ← vmCreate_stackRegion (by omega) h hzero k] at hk
  exact disjoint_left.mp (hsep.image 0 hzero k seg) hk ha

/-- A stack and a segment do not meet, by the check of the image or by the fixed place. -/
theorem stackRegion_image_disjoint (hN : coreCount smpCores ≤ 64)
    (h : vmCreate clock memcheck memSize program data layout smpCores = .ok vm)
    (hclear : coreCount smpCores = 1 → ∀ seg, Disjoint
      ((layout.getD (ProgramLayout.packed (program.length * 8) data.length)).segment
        (program.length * 8) data.length seg) fixedStacks)
    {c : ℕ} (hc : c < vm.smpCores) (k : StackKind) (seg : Segment) :
    Disjoint ((vm.cpus c).stackRegion k)
      ((layout.getD (ProgramLayout.packed (program.length * 8) data.length)).segment
        (program.length * 8) data.length seg) := by
  rw [vmCreate_stackRegion hN h hc k, disjoint_left]
  intro a ha hseg
  rw [mem_Ico] at ha
  have hk := k.offset_add_bytes_le
  by_cases hN1 : coreCount smpCores = 1
  · refine disjoint_left.mp (hclear hN1 seg) hseg ?_
    rw [coreStackStart, if_pos hN1] at ha
    rw [fixedStacks, mem_Ico]
    omega
  · have hend := vmCreate_imageEnd_le hN hN1 h
    have hlt := ProgramLayout.segment_lt_imageEnd hseg
    unfold coreStackStart at ha hend
    rw [if_neg hN1] at ha hend
    omega

/-- What `vm_create` builds from a layout for 1 to 64 cores keeps its stacks in memory
and apart. From the image they are separate whenever there are several cores, and for
one core exactly when the image keeps clear of the fixed place. -/
theorem vmCreate_stacksSeparate_iff (hpos : 1 ≤ smpCores) (hmax : smpCores ≤ 64)
    (h : vmCreate clock memcheck memSize program data layout smpCores = .ok vm) :
    StacksSeparate vm
        ((layout.getD (ProgramLayout.packed (program.length * 8) data.length)).segment
          (program.length * 8) data.length) ↔
      (smpCores = 1 → ∀ seg, Disjoint
        ((layout.getD (ProgramLayout.packed (program.length * 8) data.length)).segment
          (program.length * 8) data.length seg) fixedStacks) := by
  have hcount : (coreCount smpCores : ℤ) = smpCores := by
    unfold coreCount
    split_ifs <;> omega
  have hN : coreCount smpCores ≤ 64 := by omega
  have hregion {c : ℕ} (hc : c < vm.smpCores) (k : StackKind) := vmCreate_stackRegion hN h hc k
  have hinv := vmCreate_inv h
  constructor
  · intro hsep hone seg
    exact hsep.clear (by omega) h seg
  · intro himage
    refine ⟨?_, ?_, ?_⟩
    · intro c hc k a ha
      rw [hregion hc k, mem_Ico] at ha
      rw [hinv.smpCores] at hc
      have hle := coreStackStart_le hN hc
      have hk := k.offset_add_bytes_le
      rw [hinv.memorySize, mem_Ico]
      omega
    · intro c hc d hd k l hne
      rw [hregion hc k, hregion hd l]
      rw [hinv.smpCores] at hc hd
      exact stackRegions_apart hc hd hne
    · intro c hc k seg
      exact stackRegion_image_disjoint hN h (fun hN1 => himage (by omega)) hc k seg

/-- A clock that stands still. -/
def stoppedClock : HostClock := ⟨fun _ => 0, fun _ => 0, 0⟩

/-- An image behind the vector table and the stacks of a single core. -/
def highTextLayout : ProgramLayout := ⟨0x200000, 8, 0x200008, 1, 0x200010, 16⟩

/-- The same image with its text directly behind the vector table. -/
def lowTextLayout : ProgramLayout := ⟨0x800, 8, 0x200008, 1, 0x200010, 16⟩

theorem highTextLayout_clear (seg : Segment) :
    Disjoint (highTextLayout.segment 8 1 seg) fixedStacks := by
  have hend : callStackBase + perCoreStackBytes = 0x1C00 := rfl
  rw [disjoint_left]
  intro a ha hfixed
  rw [fixedStacks, mem_Ico] at hfixed
  cases seg <;> simp [ProgramLayout.segment, highTextLayout] at ha <;> omega

theorem vmCreate_stacksSeparate_high_text :
    ∃ vm, vmCreate stoppedClock true memSize [0] [7] (some highTextLayout) 1 = .ok vm ∧
      StacksSeparate vm (highTextLayout.segment 8 1) := by
  have hcheck : checkImage memSize 1 highTextLayout 8 1 = .ok () := by decide
  obtain ⟨vm, hvm⟩ : ∃ vm, vmCreate stoppedClock true memSize [0] [7] (some highTextLayout) 1 =
    .ok vm := exists_vmCreate hcheck
  exact ⟨vm, hvm, (vmCreate_stacksSeparate_iff (by decide) (by decide) hvm).mpr
    fun _ seg => highTextLayout_clear seg⟩

/-- One core, its text at the start of its own call stack, and no panic. -/
theorem vmCreate_text_on_call_stack :
    ∃ vm, vmCreate stoppedClock true memSize [0] [7] (some lowTextLayout) 1 = .ok vm ∧
      ¬ StacksSeparate vm (lowTextLayout.segment 8 1) := by
  have hcheck : checkImage memSize 1 lowTextLayout 8 1 = .ok () := by decide
  obtain ⟨vm, hvm⟩ : ∃ vm, vmCreate stoppedClock true memSize [0] [7] (some lowTextLayout) 1 =
    .ok vm := exists_vmCreate hcheck
  refine ⟨vm, hvm, fun hsep => ?_⟩
  have hzero : 0 < vm.smpCores := by
    rw [(vmCreate_inv hvm).smpCores]
    exact coreCount_pos 1
  have hstack : 0x800 ∈ (vm.cpus 0).stackRegion .call := by
    rw [vmCreate_stackRegion (by decide) hvm hzero .call]
    decide
  have htext : 0x800 ∈ lowTextLayout.segment 8 1 .text := by
    simp [ProgramLayout.segment, lowTextLayout]
  exact disjoint_left.mp (hsep.image 0 hzero .call .text) hstack htext

end LampVm
