import LampVm.Safety

/-!
# The device lookup cache

`find_mmio` remembers the device it found last together with its bounds, and forgets only
the device when a lookup finds none. When no address belongs to two devices, the lookups of
any list of addresses return what the scans of the device list return, and nothing but the
cache has changed after them. The windows that are registered for 64 MiB of memory are of
this kind, although the one for the system information begins where the second one of the
framebuffer ends.
-/
namespace LampVm

open Transition Contract

/-- No address lies in the windows of two entries of the list. -/
def DisjointWindows (devices : List MmioDevice) : Prop :=
  devices.Pairwise fun dev other => ∀ addr, ¬ (dev.covers addr ∧ other.covers addr)

/-- The lookups of a list of addresses, one after the other. -/
def findMmios : List (BitVec 32) → VmM (List (Option MmioDevice))
  | [] => pure []
  | addr :: addrs => do
    let dev ← findMmio addr
    let devs ← findMmios addrs
    pure (dev :: devs)

/-- A state with other contents of the cache. -/
def Vm.withCache (vm : Vm) (dev : Option MmioDevice) (start stop : BitVec 32) : Vm :=
  { vm with mmioCacheDev := dev, mmioCacheStart := start, mmioCacheEnd := stop }

section Lookup

variable {vm : Vm} {devices : List MmioDevice} {dev : MmioDevice} {addr : BitVec 32}

/-- The device that the scan finds is the only one whose window contains the address. -/
theorem scanMmio_of_covers (h : DisjointWindows devices) (hmem : dev ∈ devices)
    (hcov : dev.covers addr) : scanMmio devices addr = some dev := by
  induction devices with
  | nil => cases hmem
  | cons first rest ih =>
    obtain ⟨hfirst, hrest⟩ := List.pairwise_cons.mp h
    rw [List.mem_cons] at hmem
    obtain rfl | hmem := hmem
    · simp [scanMmio, hcov]
    · have hnot : ¬ first.covers addr := fun hcov' => hfirst dev hmem addr ⟨hcov', hcov⟩
      have hskip : scanMmio (first :: rest) addr = scanMmio rest addr := by
        simp [scanMmio, hnot]
      rw [hskip]
      exact ih hrest hmem

theorem scanMmio_of_noDevice (h : ∀ dev ∈ devices, ¬ dev.covers addr) :
    scanMmio devices addr = none := by
  simpa [scanMmio] using h

/-- One lookup returns what the scan returns, and what it remembers is a device with its
bounds. -/
theorem findMmio_eq_scan (hdis : DisjointWindows vm.mmioDevices) (hc : CacheCoherent vm)
    (addr : BitVec 32) : ∃ dev start stop,
    findMmio addr vm = .ok (scanMmio vm.mmioDevices addr, vm.withCache dev start stop) ∧
      CacheCoherent (vm.withCache dev start stop) := by
  by_cases hcov : ∃ dev ∈ vm.mmioDevices, dev.covers addr
  · obtain ⟨dev, hmem, hdev, hfind⟩ := findMmio_of_covers hc hcov
    refine ⟨some dev, dev.start, dev.stop, ?_, CacheCoherent.cached hmem⟩
    rw [scanMmio_of_covers hdis hmem hdev]
    exact hfind
  · have hnone : ∀ dev ∈ vm.mmioDevices, ¬ dev.covers addr := by
      intro dev hmem hdev
      exact hcov ⟨dev, hmem, hdev⟩
    refine ⟨none, vm.mmioCacheStart, vm.mmioCacheEnd, ?_, CacheCoherent.uncached vm⟩
    rw [scanMmio_of_noDevice hnone]
    exact findMmio_of_noDevice hc hnone

/-- The lookups of a list of addresses return what the scans return. -/
theorem findMmios_eq_scan (hdis : DisjointWindows vm.mmioDevices) (hc : CacheCoherent vm)
    (addrs : List (BitVec 32)) : ∃ dev start stop,
    findMmios addrs vm =
      .ok (addrs.map (scanMmio vm.mmioDevices), vm.withCache dev start stop) := by
  induction addrs generalizing vm with
  | nil => exact ⟨vm.mmioCacheDev, vm.mmioCacheStart, vm.mmioCacheEnd, rfl⟩
  | cons addr addrs ih =>
    obtain ⟨dev, start, stop, hfind, hc'⟩ := findMmio_eq_scan hdis hc addr
    have hdis' : DisjointWindows (vm.withCache dev start stop).mmioDevices := hdis
    obtain ⟨dev', start', stop', hrest⟩ := ih hdis' hc'
    refine ⟨dev', start', stop', ?_⟩
    simp only [findMmios, bind_apply, hfind, hrest, pure_apply, List.map_cons]
    rfl

end Lookup

/-! ## The registered windows -/

theorem registeredDevices_nodup : (registeredDevices memSize).Nodup := by
  have hfb : BitVec.ofNat 32 memSize ≠ BitVec.ofNat 32 fbLegacyBase := by decide
  simp [registeredDevices, hfb]

theorem registeredDevices_disjoint : DisjointWindows (registeredDevices memSize) := by
  refine registeredDevices_nodup.pairwise_of_forall_ne ?_
  intro dev hdev other hother hne addr ⟨hcov, hcov'⟩
  exact hne (covers_unique hdev hother hcov hcov').symm

/-- `vm_create` leaves the cache empty. -/
theorem vmCreate_mmioCacheDev {clock : HostClock} {memcheck : Bool} {memorySize : ℕ}
    {program : List (BitVec 64)} {data : List (BitVec 8)} {layout : Option ProgramLayout}
    {smpCores : ℤ} {vm : Vm}
    (h : vmCreate clock memcheck memorySize program data layout smpCores = .ok vm) :
    vm.mmioCacheDev = none := by
  obtain rfl := vmCreate_ok h
  rfl

/-- Beginning with an empty cache, whatever bounds it holds, every lookup returns what a
scan of the device list returns, if the devices are disjoint. A machine with 64 MiB of
memory is created with an empty cache and disjoint devices, and keeps them (`reachable_lookup`). -/
theorem mmio_cache_transparent :
    (∀ (vm : Vm) (addrs : List (BitVec 32)),
      DisjointWindows vm.mmioDevices → vm.mmioCacheDev = none → ∃ dev start stop,
        findMmios addrs vm =
          .ok (addrs.map (scanMmio vm.mmioDevices), vm.withCache dev start stop)) ∧
    DisjointWindows (registeredDevices memSize) ∧
    ∀ clock memcheck program data layout smpCores vm,
      vmCreate clock memcheck memSize program data layout smpCores = .ok vm →
        vm.mmioDevices = registeredDevices memSize ∧ vm.mmioCacheDev = none := by
  refine ⟨?_, registeredDevices_disjoint, ?_⟩
  · intro vm addrs hdis hnone
    refine findMmios_eq_scan hdis ?_ addrs
    intro dev hdev
    rw [hnone] at hdev
    cases hdev
  · intro clock memcheck program data layout smpCores vm h
    exact ⟨(vmCreate_inv h).devices, vmCreate_mmioCacheDev h⟩

/-- The last word of the second framebuffer window, the first of the system information, an
address without a device, and the first one again. -/
theorem mmio_cache_transparent_created :
    ∃ dev start stop, findMmios [0x74BFFC, 0x74C000, 0x1000, 0x74BFFC]
        (Vm.allocated ⟨fun _ => 0, fun _ => 0, 0⟩ false memSize 1 0) =
      .ok ([0x74BFFC, 0x74C000, 0x1000, 0x74BFFC].map (scanMmio (registeredDevices memSize)),
        (Vm.allocated ⟨fun _ => 0, fun _ => 0, 0⟩ false memSize 1 0).withCache dev start stop) :=
  mmio_cache_transparent.1 (Vm.allocated ⟨fun _ => 0, fun _ => 0, 0⟩ false memSize 1 0)
    [0x74BFFC, 0x74C000, 0x1000, 0x74BFFC] registeredDevices_disjoint rfl

/-- In every reachable state of the machine a lookup returns what the scan returns. -/
theorem reachable_lookup {smpCores : ℤ} {vm : Vm} (h : Reachable (machine memSize smpCores) vm)
    (addrs : List (BitVec 32)) : ∃ dev start stop,
    findMmios addrs vm =
      .ok (addrs.map (scanMmio (registeredDevices memSize)), vm.withCache dev start stop) := by
  have hv := reachable_inv h
  have hdis : DisjointWindows vm.mmioDevices := by
    rw [hv.devices]
    exact registeredDevices_disjoint
  rw [← hv.devices]
  exact findMmios_eq_scan hdis hv.cache addrs

end LampVm
