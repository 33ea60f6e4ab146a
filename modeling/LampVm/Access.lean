import LampVm.Safety

/-!
# Accesses as operations on one byte array

The access functions of a core refine a single little-endian byte array. The
specification of each access names the bytes it reads and the bytes it stores;
the machine answers every sequence of plain accesses as the specification does,
and its memory is the specification's array afterwards. In a checked build an
access that is not naturally aligned stops the run instead.
-/
namespace LampVm

open ByteOrder Contract Transition

/-- The ways in which one core reads and writes memory. -/
inductive Access
  | read8 (a : BitVec 32)
  | read32 (a : BitVec 32)
  | read64 (a : BitVec 32)
  | write8 (a : BitVec 32) (v : BitVec 8)
  | write32 (a v : BitVec 32)
  | write64 (a : BitVec 32) (v : BitVec 64)
  | atomicLoad (a : BitVec 32)
  | atomicStore (a v : BitVec 32)
  | atomicExchange (a v : BitVec 32)
  | atomicFetchAdd (a v : BitVec 32)
  | atomicCompareExchange (a expected desired : BitVec 32)
  | fetch (a : BitVec 32)
  deriving DecidableEq, Repr

namespace Access

def addr : Access → BitVec 32
  | read8 a | read32 a | read64 a | write8 a _ | write32 a _ | write64 a _ | atomicLoad a
  | atomicStore a _ | atomicExchange a _ | atomicFetchAdd a _ | atomicCompareExchange a _ _
  | fetch a => a

/-- The length of the accessed range. -/
def size : Access → ℕ
  | read8 _ | write8 _ _ => 1
  | read64 _ | write64 _ _ | fetch _ => 8
  | _ => 4

def atomic : Access → Bool
  | atomicLoad _ | atomicStore _ _ | atomicExchange _ _ | atomicFetchAdd _ _
  | atomicCompareExchange _ _ _ => true
  | _ => false

/-- The operation and alignment that a checked build tests, if any. -/
def checked : Access → Option (AccessName × ℕ)
  | read32 _ => some (.read32, 4)
  | read64 _ => some (.read64, 8)
  | write32 _ _ => some (.write32, 4)
  | write64 _ _ => some (.write64, 8)
  | _ => none

end Access

/-- What an access returns. -/
inductive Reply
  | done
  | byte (v : BitVec 8)
  | word (v : BitVec 32)
  | dword (v : BitVec 64)
  | swapped (old : BitVec 32) (success : Bool)
  deriving DecidableEq, Repr

/-- The access as core `c` performs it. The fetch reads at the instruction pointer,
which is moved to the address first. -/
def Access.run (c : ℕ) : Access → VmM Reply
  | .read8 a => do pure (.byte (← vmRead8 a))
  | .read32 a => do pure (.word (← vmRead32 a))
  | .read64 a => do pure (.dword (← vmRead64 a))
  | .write8 a v => do vmWrite8 a v; pure .done
  | .write32 a v => do vmWrite32 a v; pure .done
  | .write64 a v => do vmWrite64 a v; pure .done
  | .atomicLoad a => do pure (.word (← vmAtomicLoad32Acquire a))
  | .atomicStore a v => do vmAtomicStore32Release a v; pure .done
  | .atomicExchange a v => do pure (.word (← vmAtomicExchange32Seqcst a v))
  | .atomicFetchAdd a v => do pure (.word (← vmAtomicFetchAdd32Seqcst a v))
  | .atomicCompareExchange a expected desired => do
    let r ← vmAtomicCompareExchange32Seqcst a expected desired
    pure (.swapped r.1 r.2)
  | .fetch a => do
    setIp c a.toNat
    pure (.dword (← fetch64 c))

/-- The 32-bit word at an address of the byte array. -/
def word32 (m : Bytes) (a : BitVec 32) : BitVec 32 := BitVec.ofNat 32 (leNat m a.toNat 4)

/-- The access on the byte array: its reply and the array it leaves. -/
def Access.spec : Access → Bytes → Reply × Bytes
  | .read8 a, m => (.byte (m a.toNat), m)
  | .read32 a, m => (.word (word32 m a), m)
  | .read64 a, m => (.dword (BitVec.ofNat 64 (leNat m a.toNat 8)), m)
  | .write8 a v, m => (.done, leStore m a.toNat 1 v.toNat)
  | .write32 a v, m => (.done, leStore m a.toNat 4 v.toNat)
  | .write64 a v, m => (.done, leStore m a.toNat 8 v.toNat)
  | .atomicLoad a, m => (.word (word32 m a), m)
  | .atomicStore a v, m => (.done, leStore m a.toNat 4 v.toNat)
  | .atomicExchange a v, m => (.word (word32 m a), leStore m a.toNat 4 v.toNat)
  | .atomicFetchAdd a v, m =>
    (.word (word32 m a), leStore m a.toNat 4 (word32 m a + v).toNat)
  | .atomicCompareExchange a expected desired, m =>
    if word32 m a = expected then
      (.swapped (word32 m a) true, leStore m a.toNat 4 desired.toNat)
    else (.swapped (word32 m a) false, m)
  | .fetch a, m => (.dword (BitVec.ofNat 64 (leNat m a.toNat 8)), m)

/-- A write changes only the bytes of its own range. -/
theorem Access.spec_frame (x : Access) (m : Bytes) {y : ℕ}
    (hy : y < x.addr.toNat ∨ x.addr.toNat + x.size ≤ y) : (x.spec m).2 y = m y := by
  cases x with
  | read8 _ | read32 _ | read64 _ | atomicLoad _ | fetch _ => rfl
  | write8 _ _ | write32 _ _ | write64 _ _ | atomicStore _ _ | atomicExchange _ _
  | atomicFetchAdd _ _ => exact leStore_of_not_mem hy
  | atomicCompareExchange a expected desired =>
    simp only [Access.spec]
    split
    · exact leStore_of_not_mem hy
    · rfl

/-- The range is plain RAM, and an atomic access is aligned to its word. -/
structure Access.Plain (x : Access) (vm : Vm) : Prop where
  ram : PlainRam vm x.addr x.size
  aligned : x.atomic = true → x.addr.toNat % 4 = 0

/-- The alignment test of a checked build passes. -/
def Access.AlignOk (x : Access) (vm : Vm) : Prop :=
  ∀ name align, x.checked = some (name, align) → LampVm.AlignOk vm align x.addr

/-- What an access leaves of the state around the bytes. -/
structure AfterAccess (vm t : Vm) (m : Bytes) : Prop where
  memory : t.memory = m
  memorySize : t.memorySize = vm.memorySize
  devices : t.mmioDevices = vm.mmioDevices
  memcheck : t.memcheck = vm.memcheck
  cache : CacheCoherent t

theorem Access.Plain.after {x : Access} {vm t : Vm} {m : Bytes} (h : x.Plain vm)
    (ha : AfterAccess vm t m) : x.Plain t := by
  refine ⟨⟨?_, h.ram.inSpace, ?_⟩, h.aligned⟩
  · have := h.ram.inRam
    simp only [inRam, ha.memorySize] at this ⊢
    exact this
  · rw [ha.devices]
    exact h.ram.noDevice

section Step

variable {vm : Vm}

theorem afterAccess_uncached (vm : Vm) : AfterAccess vm vm.uncached vm.memory :=
  ⟨rfl, rfl, rfl, rfl, CacheCoherent.uncached vm⟩

theorem afterAccess_uncached_withMemory (vm : Vm) (m : Bytes) :
    AfterAccess vm (vm.uncached.withMemory m) m :=
  ⟨rfl, rfl, rfl, rfl, nofun⟩

theorem afterAccess_withMemory (hc : CacheCoherent vm) (m : Bytes) :
    AfterAccess vm (vm.withMemory m) m :=
  ⟨rfl, rfl, rfl, rfl, hc⟩

theorem fetch_run_plain (c : ℕ) {a : BitVec 32} (hc : CacheCoherent vm)
    (h : PlainRam vm a 8) :
    ∃ t, (Access.fetch a).run c vm = .ok ((Access.spec (.fetch a) vm.memory).1, t) ∧
      AfterAccess vm t vm.memory := by
  let moved := vm.setCpu c { vm.cpus c with ip := a.toNat }
  have hip : (moved.cpus c).fetchIp = a := by simp [moved, Vcpu.fetchIp]
  have hram : inRam moved (moved.cpus c).fetchIp 8 := by
    rw [hip]
    exact h.inRam
  have hfetch := fetch64_of_inRam hram
  rw [hip] at hfetch
  have hset : setIp c a.toNat vm = .ok ((), moved) := rfl
  exact ⟨moved.fetched c, (bind_ok hset).trans (bind_ok hfetch), ⟨rfl, rfl, rfl, rfl, hc⟩⟩

/-- The step lemma: a plain access answers as its specification does. -/
theorem Access.run_plain (c : ℕ) {x : Access} (hc : CacheCoherent vm)
    (hdev : vm.mmioDevices = registeredDevices vm.memorySize) (h : x.Plain vm)
    (hal : x.AlignOk vm) :
    ∃ t, x.run c vm = .ok ((x.spec vm.memory).1, t) ∧ AfterAccess vm t (x.spec vm.memory).2 := by
  have hptr : ∀ op, x.atomic = true → x.size = 4 →
      atomic32PtrOrPanic op x.addr vm = .ok ((), vm.uncached) := fun op ha hs =>
    atomic32PtrOrPanic_of_noDevice hc (hs ▸ h.ram).inRam
      ((hs ▸ h.ram).noDevice _ le_rfl (by omega)) (h.aligned ha)
  have hload : x.size = 4 →
      hostLoad32 x.addr vm.uncached = .ok (word32 vm.memory x.addr, vm.uncached) := fun hs =>
    hostLoad32_of_inRam (hs ▸ h.ram.uncached).inRam
  have hstore : x.size = 4 → ∀ v : BitVec 32, hostStore32 x.addr v vm.uncached =
      .ok ((), vm.uncached.withMemory (leStore vm.memory x.addr.toNat 4 v.toNat)) := fun hs v =>
    hostStore32_of_inRam (hs ▸ h.ram.uncached).inRam v
  cases x with
  | read8 a =>
    exact ⟨vm, bind_ok (vmRead8_plain hdev h.ram), ⟨rfl, rfl, rfl, rfl, hc⟩⟩
  | read32 a =>
    exact ⟨_, bind_ok (vmRead32_plain hc h.ram (hal _ _ rfl)), afterAccess_uncached vm⟩
  | read64 a =>
    exact ⟨_, bind_ok (vmRead64_plain hc h.ram (hal _ _ rfl)), afterAccess_uncached vm⟩
  | write8 a v =>
    exact ⟨_, bind_ok (vmWrite8_plain hdev h.ram v), afterAccess_withMemory hc _⟩
  | write32 a v =>
    exact ⟨_, bind_ok (vmWrite32_plain hc h.ram (hal _ _ rfl) v),
      afterAccess_uncached_withMemory vm _⟩
  | write64 a v =>
    exact ⟨_, bind_ok (vmWrite64_plain h.ram.inRam h.ram.inSpace (hal _ _ rfl) v),
      afterAccess_withMemory hc _⟩
  | atomicLoad a =>
    exact ⟨_, bind_ok ((bind_ok (hptr .ldar rfl rfl)).trans (hload rfl)), afterAccess_uncached vm⟩
  | atomicStore a v =>
    exact ⟨_, bind_ok ((bind_ok (hptr .stlr rfl rfl)).trans (hstore rfl v)),
      afterAccess_uncached_withMemory vm _⟩
  | atomicExchange a v =>
    exact ⟨_, bind_ok ((bind_ok (hptr .xchg rfl rfl)).trans <| (bind_ok (hload rfl)).trans <|
      bind_ok (hstore rfl v)), afterAccess_uncached_withMemory vm _⟩
  | atomicFetchAdd a v =>
    exact ⟨_, bind_ok ((bind_ok (hptr .xadd rfl rfl)).trans <| (bind_ok (hload rfl)).trans <|
      bind_ok (hstore rfl _)), afterAccess_uncached_withMemory vm _⟩
  | atomicCompareExchange a expected desired =>
    have hp : atomic32PtrOrPanic .cas a vm = _ := hptr .cas rfl rfl
    have hl : hostLoad32 a vm.uncached = .ok (word32 vm.memory a, vm.uncached) := hload rfl
    have hs : hostStore32 a desired vm.uncached =
        .ok ((), vm.uncached.withMemory (leStore vm.memory a.toNat 4 desired.toNat)) :=
      hstore rfl desired
    simp only [Access.run, Access.spec, vmAtomicCompareExchange32Seqcst, bind_apply, hp, hl]
    by_cases heq : word32 vm.memory a = expected
    · simp only [if_pos heq, bind_apply, hs, pure_apply]
      exact ⟨_, rfl, afterAccess_uncached_withMemory vm _⟩
    · simp only [if_neg heq, pure_apply]
      exact ⟨_, rfl, afterAccess_uncached vm⟩
  | fetch a => exact fetch_run_plain c hc h.ram

/-- In a checked build a misaligned access stops the run. -/
theorem Access.run_misaligned (c : ℕ) {x : Access} (hal : ¬ x.AlignOk vm) :
    vm.memcheck = true ∧ ∃ name align, x.checked = some (name, align) ∧
      x.addr.toNat % align ≠ 0 ∧
      x.run c vm = .error (.panic (.unalignedAddress name x.addr)) := by
  simp only [Access.AlignOk, not_forall] at hal
  obtain ⟨name, align, hchk, hbad⟩ := hal
  have hbad' : vm.memcheck = true ∧ x.addr.toNat % align ≠ 0 := by
    simpa [LampVm.AlignOk] using hbad
  refine ⟨hbad'.1, name, align, hchk, hbad'.2, ?_⟩
  cases x with
  | read32 a | read64 a | write32 a v | write64 a v =>
    cases hchk
    exact bind_error (bind_error (memcheckAlign_of_not_alignOk hbad))
  | _ => cases hchk

end Step

/-! ## Sequences -/

def runAccesses (c : ℕ) : List Access → VmM (List Reply)
  | [] => pure []
  | x :: xs => do
    let r ← x.run c
    let rs ← runAccesses c xs
    pure (r :: rs)

def specAccesses : List Access → Bytes → List Reply × Bytes
  | [], m => ([], m)
  | x :: xs, m =>
    let r := x.spec m
    let rs := specAccesses xs r.2
    (r.1 :: rs.1, rs.2)

/-- The stop of a checked build at a misaligned access of the sequence. -/
def MisalignedStop (vm : Vm) (xs : List Access) (e : Fault) : Prop :=
  vm.memcheck = true ∧ ∃ x ∈ xs, ∃ name align, x.checked = some (name, align) ∧
    x.addr.toNat % align ≠ 0 ∧ e = .panic (.unalignedAddress name x.addr)

theorem runAccesses_refines (c : ℕ) {vm : Vm} {xs : List Access} (hc : CacheCoherent vm)
    (hdev : vm.mmioDevices = registeredDevices vm.memorySize) (h : ∀ x ∈ xs, x.Plain vm) :
    Result (fun rs t => (rs, t.memory) = specAccesses xs vm.memory) (MisalignedStop vm xs)
      (runAccesses c xs vm) := by
  induction xs generalizing vm with
  | nil => exact rfl
  | cons x xs ih =>
    by_cases hal : x.AlignOk vm
    · obtain ⟨t, hrun, ht⟩ := Access.run_plain c hc hdev (h x List.mem_cons_self) hal
      have hrest := ih ht.cache (by rw [ht.devices, ht.memorySize, hdev])
        fun y hy => (h y (List.mem_cons_of_mem _ hy)).after ht
      rw [runAccesses, bind_ok hrun, bind_apply]
      cases hres : runAccesses c xs t with
      | ok r =>
        rw [hres, ht.memory] at hrest
        simp only [specAccesses, pure_apply, result_ok] at hrest ⊢
        rw [← hrest]
      | error e =>
        rw [hres] at hrest
        obtain ⟨hm, y, hy, hstop⟩ := hrest
        exact ⟨ht.memcheck ▸ hm, y, List.mem_cons_of_mem _ hy, hstop⟩
    · obtain ⟨hm, name, align, hchk, hbad, hrun⟩ := Access.run_misaligned c hal
      rw [runAccesses, bind_error hrun]
      exact ⟨hm, x, List.mem_cons_self, name, align, hchk, hbad, rfl⟩

/-- From every reachable state, every sequence of plain accesses of one core is
answered by one little-endian byte array, each access changes only the bytes of its
own range, and only the alignment test of a checked build can stop the sequence. -/
theorem accesses_see_one_byte_array {memorySize : ℕ} {smpCores : ℤ} {vm : Vm}
    (hreach : Reachable (machine memorySize smpCores) vm) (c : ℕ) {xs : List Access}
    (h : ∀ x ∈ xs, x.Plain vm) :
    Result (fun rs t => (rs, t.memory) = specAccesses xs vm.memory) (MisalignedStop vm xs)
        (runAccesses c xs vm) ∧
      ∀ x ∈ xs, ∀ (m : Bytes) (y : ℕ),
        (y < x.addr.toNat ∨ x.addr.toNat + x.size ≤ y) → (x.spec m).2 y = m y := by
  have hv := reachable_inv hreach
  have hdev : vm.mmioDevices = registeredDevices vm.memorySize := by
    rw [hv.devices, hv.memorySize]
  exact ⟨runAccesses_refines c hv.cache hdev h, fun x _ m y hy => x.spec_frame m hy⟩

/-- A store, an overlapping byte store and three ways to read the bytes back. -/
def overlappingAccesses : List Access :=
  [.write64 0x3000 0x1122334455667788, .write8 0x3001 0xFF, .read32 0x3000, .atomicLoad 0x3004,
    .fetch 0x3000]

theorem overlappingAccesses_plain {vm : Vm} (hM : vm.memorySize = memSize)
    (hdev : vm.mmioDevices = registeredDevices memSize) :
    ∀ x ∈ overlappingAccesses, x.Plain vm := by
  have hrange : ∀ x ∈ overlappingAccesses, x.addr.toNat + x.size ≤ memSize ∧
      OutsideWindows x.addr.toNat x.size ∧ (x.atomic = true → x.addr.toNat % 4 = 0) := by
    decide
  intro x hx
  obtain ⟨hram, hout, hal⟩ := hrange x hx
  exact ⟨plainRam_of_outsideWindows hM hdev hram hout, hal⟩

theorem overlapping_accesses_see_one_byte_array : ∃ vm, Reachable (machine memSize 1) vm ∧
    Result (fun rs t => (rs, t.memory) = specAccesses overlappingAccesses vm.memory)
      (MisalignedStop vm overlappingAccesses) (runAccesses 0 overlappingAccesses vm) := by
  obtain ⟨vm, hvm⟩ := boot_default
  have hreach : Reachable (machine memSize 1) vm := .of_init hvm
  have hv := reachable_inv hreach
  exact ⟨vm, hreach, (accesses_see_one_byte_array hreach 0
    (overlappingAccesses_plain hv.memorySize hv.devices)).1⟩

example : (specAccesses overlappingAccesses fun _ => 0).1 =
    [.done, .done, .word 0x5566FF88, .word 0x11223344, .dword 0x112233445566FF88] := by decide

end LampVm
