import LampVm.Access

/-!
# The framebuffer behind its two windows

Byte accesses find the framebuffer in `memory.c`, by comparing addresses; word accesses
find it in the display's register functions, after a lookup in the device list. Through
either window and at either width they read and write one array of bytes, which is none of
the bytes of RAM.
-/
namespace LampVm

open ByteOrder Contract Transition

/-! ## Pixels as bytes -/

/-- The framebuffer as bytes of a little-endian host. -/
def Vm.screen (vm : Vm) : Bytes := fun i => (vm.fb (i / 4) >>> (8 * (i % 4))).setWidth 8

def Vm.withFb (vm : Vm) (fb : ℕ → BitVec 32) : Vm := { vm with fb := fb }

@[simp] theorem withFb_memory (vm : Vm) (fb : ℕ → BitVec 32) :
    (vm.withFb fb).memory = vm.memory := rfl

/-- Storing a byte in a word replaces this byte of the word. -/
theorem byte_insert (w : BitVec 32) (v : BitVec 8) {i j : ℕ} (hi : i < 4) (hj : j < 4) :
    (((w &&& ~~~((0xFF : BitVec 32) <<< (8 * i))) ||| (v.setWidth 32 <<< (8 * i))) >>>
      (8 * j)).setWidth 8 = if j = i then v else (w >>> (8 * j)).setWidth 8 := by
  have hff : ∀ m, (0xFF : BitVec 32).getLsbD m = decide (m < 8) := by
    intro m
    by_cases hm : m < 32
    · interval_cases m <;> rfl
    · rw [BitVec.getLsbD_of_ge _ _ (by omega)]
      simp
      omega
  apply BitVec.eq_of_getLsbD_eq
  intro k hk
  have hsum : 8 * j + k < 32 := by omega
  simp only [BitVec.getLsbD_setWidth, BitVec.getLsbD_ushiftRight, BitVec.getLsbD_or,
    BitVec.getLsbD_and, BitVec.getLsbD_not, BitVec.getLsbD_shiftLeft, hff, hk, hsum]
  by_cases hij : j = i
  · subst hij
    have hk32 : k < 32 := by omega
    simp [hk, hk32]
  · rw [if_neg hij]
    by_cases hlt : j < i
    · have h1 : 8 * j + k < 8 * i := by omega
      simp [h1, hk]
    · have h1 : ¬ 8 * j + k < 8 * i := by omega
      have h2 : 8 ≤ 8 * j + k - 8 * i := by omega
      simp [h1, h2, hk, BitVec.getLsbD_of_ge]

theorem leNat_screen (vm : Vm) {o : ℕ} (ho : o % 4 = 0) :
    leNat vm.screen o 4 = (vm.fb (o / 4)).toNat := by
  have hdigits := leNat_of_digits (m := vm.screen) (a := o) (n := 4)
    (w := (vm.fb (o / 4)).toNat) fun k hk => ?_
  · have h256 : (256 : ℕ) ^ 4 = 2 ^ 32 := by norm_num
    rw [hdigits, h256, Nat.mod_eq_of_lt (vm.fb (o / 4)).isLt]
  · have hdiv : (o + k) / 4 = o / 4 := by omega
    have hmod : (o + k) % 4 = k := by omega
    rw [Vm.screen, hdiv, hmod, byte_eq_digit]

theorem screen_word (vm : Vm) {o : ℕ} (ho : o % 4 = 0) (v : BitVec 32) :
    (vm.withFb (Function.update vm.fb (o / 4) v)).screen = leStore vm.screen o 4 v.toNat := by
  funext x
  simp only [Vm.screen, Vm.withFb, leStore]
  by_cases hx : o ≤ x ∧ x < o + 4
  · have hdiv : x / 4 = o / 4 := by omega
    have hmod : x % 4 = x - o := by omega
    rw [if_pos hx, hdiv, hmod, Function.update_self, byte_eq_digit]
  · have hdiv : x / 4 ≠ o / 4 := by omega
    rw [if_neg hx, Function.update_of_ne hdiv]

/-- The read-modify-write of one byte of a pixel. -/
theorem screen_byte (vm : Vm) (o : ℕ) (v : BitVec 8) :
    (vm.withFb (Function.update vm.fb (o / 4)
      ((vm.fb (o / 4) &&& ~~~((0xFF : BitVec 32) <<< (8 * (o % 4)))) |||
        (v.setWidth 32 <<< (8 * (o % 4)))))).screen = leStore vm.screen o 1 v.toNat := by
  funext x
  simp only [Vm.screen, Vm.withFb, leStore]
  by_cases hdiv : x / 4 = o / 4
  · rw [hdiv, Function.update_self, byte_insert _ _ (by omega) (by omega)]
    by_cases hx : x = o
    · subst hx
      simp
    · rw [if_neg (by omega), if_neg (by omega)]
  · rw [Function.update_of_ne hdiv, if_neg (by omega)]

/-! ## The two windows -/

inductive FbWindow
  | main | legacy
  deriving DecidableEq, Repr

/-- `FB_BASE` of the default memory, and `FB_LEGACY_BASE`. -/
def FbWindow.base : FbWindow → ℕ
  | main => memSize
  | legacy => fbLegacyBase

/-- The device that `register_fb_mmio` registers for the window. -/
def FbWindow.device (w : FbWindow) : MmioDevice :=
  ⟨BitVec.ofNat 32 w.base, BitVec.ofNat 32 (w.base + fbSize - 1), .fb⟩

theorem FbWindow.device_mem (w : FbWindow) : w.device ∈ registeredDevices memSize := by
  cases w <;> decide

/-- The address is the one of offset `o` in the window. -/
structure FbWindow.Holds (w : FbWindow) (a : BitVec 32) (o : ℕ) : Prop where
  addr : a.toNat = w.base + o
  lt : o < fbSize

section Windows

variable {w : FbWindow} {a : BitVec 32} {o : ℕ} {vm : Vm}

theorem FbWindow.Holds.byteIndex (h : w.Holds a o) : fbByteIndex memSize a = some o := by
  have haddr := h.addr
  have hlt := h.lt
  have hbase : memSize = 67108864 ∧ fbLegacyBase = 0x620000 ∧ fbSize = 1228800 := ⟨rfl, rfl, rfl⟩
  unfold fbByteIndex
  cases w with
  | main =>
    simp only [FbWindow.base] at haddr
    rw [if_pos (by omega), Option.some.injEq]
    omega
  | legacy =>
    simp only [FbWindow.base] at haddr
    rw [if_neg (by omega), if_pos (by omega), Option.some.injEq]
    omega

theorem FbWindow.Holds.covers (h : w.Holds a o) : w.device.covers a := by
  have haddr := h.addr
  have hlt := h.lt
  have hbase : w.base ≤ 67108864 := by cases w <;> decide
  have hsize : fbSize = 1228800 := rfl
  rw [FbWindow.device, covers_window (by omega)]
  omega

theorem FbWindow.Holds.aligned (h : w.Holds a o) (hal : a.toNat % 4 = 0) : o % 4 = 0 := by
  have haddr := h.addr
  have hbase : w.base % 4 = 0 := by cases w <;> decide
  omega

theorem FbWindow.Holds.pixel_lt (h : w.Holds a o) : o / 4 < fbWidth * fbHeight := by
  have hsize : o < 4 * (fbWidth * fbHeight) := h.lt
  omega

/-- What the window accesses need of the machine. -/
structure ScreenInv (vm : Vm) : Prop where
  memorySize : vm.memorySize = memSize
  devices : vm.mmioDevices = registeredDevices memSize
  cache : CacheCoherent vm

theorem ScreenInv.byteIndex (hv : ScreenInv vm) (h : w.Holds a o) :
    fbByteIndex vm.memorySize a = some o := by
  rw [hv.memorySize, h.byteIndex]

theorem ScreenInv.pixelIndex (hv : ScreenInv vm) (h : w.Holds a o) :
    fbPixelIndex vm.memorySize a = o / 4 := by
  rw [fbPixelIndex, hv.byteIndex h]

theorem ScreenInv.withFb (hv : ScreenInv vm) (fb : ℕ → BitVec 32) : ScreenInv (vm.withFb fb) :=
  ⟨hv.memorySize, hv.devices, hv.cache⟩

theorem ScreenInv.withMemory (hv : ScreenInv vm) (m : Bytes) : ScreenInv (vm.withMemory m) :=
  ⟨hv.memorySize, hv.devices, hv.cache⟩

theorem ScreenInv.cached (hv : ScreenInv vm) (w : FbWindow) : ScreenInv (vm.cached w.device) :=
  ⟨hv.memorySize, hv.devices, .cached (hv.devices ▸ w.device_mem)⟩

theorem vmRead8_screen (hv : ScreenInv vm) (h : w.Holds a o) :
    vmRead8 a vm = .ok (vm.screen o, vm) := by
  simp only [vmRead8, bind_apply, get_apply, hv.byteIndex h, fbReadByte, checkIndex_of_lt h.lt,
    pure_apply]
  rfl

theorem vmWrite8_screen (hv : ScreenInv vm) (h : w.Holds a o) (v : BitVec 8) :
    ∃ fb, vmWrite8 a v vm = .ok ((), vm.withFb fb) ∧
      (vm.withFb fb).screen = leStore vm.screen o 1 v.toNat := by
  refine ⟨_, ?_, screen_byte vm o v⟩
  simp only [vmWrite8, bind_apply, get_apply, hv.byteIndex h, fbWriteByte, checkIndex_of_lt h.lt,
    pure_apply, set_apply]
  rfl

/-- A word write in a window goes to the device of the window. -/
theorem vmWrite32_window (hv : ScreenInv vm) (h : w.Holds a o) (hal : a.toNat % 4 = 0)
    (v : BitVec 32) : vmWrite32 a v vm = fbWrite32 a v (vm.cached w.device) := by
  obtain ⟨dev, hmem, hcov, hfind⟩ :=
    findMmio_of_covers hv.cache ⟨w.device, hv.devices ▸ w.device_mem, h.covers⟩
  obtain rfl := covers_unique w.device_mem (hv.devices ▸ hmem) h.covers hcov
  simp only [vmWrite32, bind_apply, memcheckAlign_of_alignOk fun _ => hal, hfind]
  rfl

theorem vmRead32_screen (hv : ScreenInv vm) (h : w.Holds a o) (hal : a.toNat % 4 = 0) :
    vmRead32 a vm = .ok (BitVec.ofNat 32 (leNat vm.screen o 4), vm.cached w.device) := by
  have ho := h.aligned hal
  have hlt := h.pixel_lt
  rw [vmRead32_window hv.cache hv.devices w.device_mem h.covers fun _ => hal, leNat_screen vm ho,
    BitVec.ofNat_toNat, BitVec.setWidth_eq]
  change fbRead32 a (vm.cached w.device) = _
  simp only [fbRead32, bind_apply, get_apply, (hv.cached w).pixelIndex h, checkIndex_of_lt hlt,
    pure_apply]
  rfl

theorem vmWrite32_screen (hv : ScreenInv vm) (h : w.Holds a o) (hal : a.toNat % 4 = 0)
    (v : BitVec 32) :
    ∃ fb, vmWrite32 a v vm = .ok ((), (vm.cached w.device).withFb fb) ∧
      ((vm.cached w.device).withFb fb).screen = leStore vm.screen o 4 v.toNat := by
  have ho := h.aligned hal
  have hlt := h.pixel_lt
  refine ⟨_, ?_, screen_word (vm.cached w.device) ho v⟩
  rw [vmWrite32_window hv h hal]
  simp only [fbWrite32, bind_apply, get_apply, (hv.cached w).pixelIndex h, checkIndex_of_lt hlt,
    pure_apply, set_apply]
  rfl

end Windows

/-! ## One screen and one RAM -/

/-- What an address names on the default machine. -/
inductive AddrPlace
  | screen (o : ℕ)
  | ram (x : ℕ)
  | nowhere
  deriving DecidableEq, Repr

def locate (a : BitVec 32) : AddrPlace :=
  if memSize ≤ a.toNat then
    if a.toNat < memSize + fbSize then .screen (a.toNat - memSize) else .nowhere
  else if fbLegacyBase ≤ a.toNat ∧ a.toNat < fbLegacyBase + fbSize then
    .screen (a.toNat - fbLegacyBase)
  else .ram a.toNat

/-- The two byte arrays that the accesses work on. -/
structure Display where
  screen : Bytes
  ram : Bytes

def Vm.display (vm : Vm) : Display := ⟨vm.screen, vm.memory⟩

/-- Byte accesses at every address, and aligned word accesses through a window. -/
def Access.OnScreen : Access → Prop
  | .read8 _ | .write8 _ _ => True
  | .read32 a | .write32 a _ => a.toNat % 4 = 0 ∧ ∃ o, locate a = .screen o
  | _ => False

/-- The access on the two arrays; a byte access at an address that names nothing ends the
run. -/
def Access.onDisplay : Access → Display → Option (Reply × Display)
  | .read8 a, d =>
    match locate a with
    | .screen o => some (.byte (d.screen o), d)
    | .ram x => some (.byte (d.ram x), d)
    | .nowhere => none
  | .write8 a v, d =>
    match locate a with
    | .screen o => some (.done, { d with screen := leStore d.screen o 1 v.toNat })
    | .ram x => some (.done, { d with ram := leStore d.ram x 1 v.toNat })
    | .nowhere => none
  | .read32 a, d =>
    match locate a with
    | .screen o => some (.word (BitVec.ofNat 32 (leNat d.screen o 4)), d)
    | _ => none
  | .write32 a v, d =>
    match locate a with
    | .screen o => some (.done, { d with screen := leStore d.screen o 4 v.toNat })
    | _ => none
  | _, _ => none

def displayAccesses : List Access → Display → Option (List Reply × Display)
  | [], d => some ([], d)
  | x :: xs, d => do
    let r ← x.onDisplay d
    let rs ← displayAccesses xs r.2
    pure (r.1 :: rs.1, rs.2)

/-- The byte that the access writes at an offset of the screen. -/
def Access.written (x : Access) (o : ℕ) : Option (BitVec 8) :=
  match x with
  | .write8 a v => if locate a = .screen o then some v else none
  | .write32 a v =>
    match locate a with
    | .screen p =>
      if p ≤ o ∧ o < p + 4 then some ((v >>> (8 * (o - p))).setWidth 8) else none
    | _ => none
  | _ => none

/-- The byte written last at an offset, through whichever window and at whichever width. -/
def lastWritten (xs : List Access) (o : ℕ) : Option (BitVec 8) :=
  xs.reverse.findSome? (Access.written · o)

section Places

variable {a : BitVec 32} {o x : ℕ}

theorem FbWindow.Holds.locate {w : FbWindow} (h : w.Holds a o) : locate a = .screen o := by
  have haddr := h.addr
  have hlt := h.lt
  have hbase : memSize = 67108864 ∧ fbLegacyBase = 0x620000 ∧ fbSize = 1228800 := ⟨rfl, rfl, rfl⟩
  unfold LampVm.locate
  cases w with
  | main =>
    simp only [FbWindow.base] at haddr
    rw [if_pos (by omega), if_pos (by omega), AddrPlace.screen.injEq]
    omega
  | legacy =>
    simp only [FbWindow.base] at haddr
    rw [if_neg (by omega), if_pos (by omega), AddrPlace.screen.injEq]
    omega

theorem exists_window (h : locate a = .screen o) : ∃ w : FbWindow, w.Holds a o := by
  unfold locate at h
  split_ifs at h with h1 h2 h2
  · have ho := AddrPlace.screen.inj h
    exact ⟨.main, by simp only [FbWindow.base]; omega, by omega⟩
  · have ho := AddrPlace.screen.inj h
    exact ⟨.legacy, by simp only [FbWindow.base]; omega, by omega⟩

theorem locate_ram (h : locate a = .ram x) :
    x = a.toNat ∧ x < memSize ∧ fbByteIndex memSize a = none := by
  unfold locate at h
  split_ifs at h with h1 h2 h2
  cases h
  refine ⟨rfl, by omega, ?_⟩
  unfold fbByteIndex
  rw [if_neg (by omega), if_neg h2]

theorem locate_nowhere (h : locate a = .nowhere) :
    memSize ≤ a.toNat ∧ fbByteIndex memSize a = none := by
  unfold locate at h
  have hbase : memSize = 67108864 ∧ fbLegacyBase = 0x620000 ∧ fbSize = 1228800 := ⟨rfl, rfl, rfl⟩
  split_ifs at h with h1 h2 h2
  refine ⟨h1, ?_⟩
  unfold fbByteIndex
  rw [if_neg (by omega), if_neg (by omega)]

end Places

section Sequences

variable {vm : Vm}

/-- The stop of a byte access at an address that names nothing. -/
def Access.NowhereStop (x : Access) (e : Fault) : Prop :=
  locate x.addr = .nowhere ∧ ∃ op, e = .panic (.addressOutOfBounds op x.addr)

theorem requireRam_of_nowhere {op : AccessName} {a : BitVec 32} (hv : ScreenInv vm)
    (h : locate a = .nowhere) :
    requireRam op a 1 vm = .error (.panic (.addressOutOfBounds op a)) := by
  have hout : ¬ inRam vm a 1 := by
    have hle := (locate_nowhere h).1
    unfold inRam
    rw [hv.memorySize]
    omega
  simp only [requireRam, bind_apply, get_apply, if_neg hout, vmPanic_apply]

/-- The step lemma: an access answers as it does on the two arrays. -/
theorem Access.run_onDisplay (c : ℕ) {x : Access} (hv : ScreenInv vm) (h : x.OnScreen) :
    Result (fun r t => x.onDisplay vm.display = some (r, t.display) ∧ ScreenInv t)
      (fun e => x.onDisplay vm.display = none ∧ x.NowhereStop e) (x.run c vm) := by
  cases x with
  | read8 a =>
    cases hplace : locate a with
    | screen o =>
      obtain ⟨w, hw⟩ := exists_window hplace
      rw [Access.run, bind_ok (vmRead8_screen hv hw)]
      refine ⟨?_, hv⟩
      simp only [Access.onDisplay, hplace]
      rfl
    | ram x =>
      obtain ⟨rfl, hlt, hidx⟩ := locate_ram hplace
      rw [← hv.memorySize] at hlt hidx
      rw [Access.run, bind_ok (vmRead8_of_lt hidx hlt)]
      refine ⟨?_, hv⟩
      simp only [Access.onDisplay, hplace]
      rfl
    | nowhere =>
      have hread : vmRead8 a vm = .error (.panic (.addressOutOfBounds .read8 a)) := by
        simp only [vmRead8, bind_apply, get_apply, hv.memorySize, (locate_nowhere hplace).2,
          requireRam_of_nowhere hv hplace]
      rw [Access.run, bind_error hread]
      refine ⟨?_, hplace, _, rfl⟩
      simp only [Access.onDisplay, hplace]
  | write8 a v =>
    cases hplace : locate a with
    | screen o =>
      obtain ⟨w, hw⟩ := exists_window hplace
      obtain ⟨fb, hrun, hscreen⟩ := vmWrite8_screen hv hw v
      rw [Access.run, bind_ok hrun]
      refine ⟨?_, hv.withFb fb⟩
      simp only [Access.onDisplay, hplace, Vm.display, ← hscreen]
      rfl
    | ram x =>
      obtain ⟨rfl, hlt, hidx⟩ := locate_ram hplace
      rw [← hv.memorySize] at hlt hidx
      rw [Access.run, bind_ok (vmWrite8_of_lt hidx hlt v)]
      refine ⟨?_, hv.withMemory _⟩
      simp only [Access.onDisplay, hplace]
      rfl
    | nowhere =>
      have hwrite : vmWrite8 a v vm = .error (.panic (.addressOutOfBounds .write8 a)) := by
        simp only [vmWrite8, bind_apply, get_apply, hv.memorySize, (locate_nowhere hplace).2,
          requireRam_of_nowhere hv hplace]
      rw [Access.run, bind_error hwrite]
      refine ⟨?_, hplace, _, rfl⟩
      simp only [Access.onDisplay, hplace]
  | read32 a =>
    obtain ⟨hal, o, hplace⟩ := h
    obtain ⟨w, hw⟩ := exists_window hplace
    rw [Access.run, bind_ok (vmRead32_screen hv hw hal)]
    refine ⟨?_, hv.cached w⟩
    simp only [Access.onDisplay, hplace]
    rfl
  | write32 a v =>
    obtain ⟨hal, o, hplace⟩ := h
    obtain ⟨w, hw⟩ := exists_window hplace
    obtain ⟨fb, hrun, hscreen⟩ := vmWrite32_screen hv hw hal v
    rw [Access.run, bind_ok hrun]
    refine ⟨?_, (hv.cached w).withFb fb⟩
    simp only [Access.onDisplay, hplace, Vm.display, ← hscreen]
    rfl
  | _ => exact h.elim

/-- The run lemma. -/
theorem runAccesses_onDisplay (c : ℕ) {xs : List Access} (hv : ScreenInv vm)
    (h : ∀ x ∈ xs, x.OnScreen) :
    Result (fun rs t => displayAccesses xs vm.display = some (rs, t.display))
      (fun e => displayAccesses xs vm.display = none ∧ ∃ x ∈ xs, x.NowhereStop e)
      (runAccesses c xs vm) := by
  induction xs generalizing vm with
  | nil => exact rfl
  | cons x xs ih =>
    have hstep := Access.run_onDisplay c hv (h x List.mem_cons_self)
    rw [runAccesses, bind_apply]
    cases hrun : x.run c vm with
    | error e =>
      rw [hrun] at hstep
      refine ⟨?_, x, List.mem_cons_self, hstep.2⟩
      simp only [displayAccesses, hstep.1]
      rfl
    | ok r =>
      rw [hrun] at hstep
      have hrest := ih hstep.2 fun y hy => h y (List.mem_cons_of_mem _ hy)
      simp only [bind_apply]
      cases hres : runAccesses c xs r.2 with
      | error e =>
        rw [hres] at hrest
        obtain ⟨hnone, y, hy, hstop⟩ := hrest
        refine ⟨?_, y, List.mem_cons_of_mem _ hy, hstop⟩
        simp only [displayAccesses, hstep.1, Option.bind_eq_bind, Option.bind_some, hnone]
        rfl
      | ok rs =>
        rw [hres] at hrest
        change displayAccesses xs r.2.display = _ at hrest
        change displayAccesses (x :: xs) vm.display = _
        simp only [displayAccesses, hstep.1, Option.bind_eq_bind, Option.bind_some, hrest]
        rfl

theorem lastWritten_cons (x : Access) (xs : List Access) (o : ℕ) :
    lastWritten (x :: xs) o = (lastWritten xs o).or (x.written o) := by
  simp [lastWritten, List.findSome?_append]

/-- An access leaves at every offset the byte it writes there, or else the byte before. -/
theorem Access.onDisplay_screen {x : Access} {d d' : Display} {r : Reply}
    (h : x.onDisplay d = some (r, d')) (o : ℕ) :
    d'.screen o = (x.written o).getD (d.screen o) := by
  cases x with
  | read8 a | read32 a =>
    cases hplace : locate a <;> simp only [Access.onDisplay, hplace] at h <;> cases h <;> rfl
  | write8 a v =>
    cases hplace : locate a with
    | screen p =>
      simp only [Access.onDisplay, hplace] at h
      cases h
      simp only [Access.written, hplace, leStore, AddrPlace.screen.injEq]
      by_cases hp : p = o
      · subst hp
        simp
      · rw [if_neg (by omega), if_neg hp]
        rfl
    | ram p =>
      simp only [Access.onDisplay, hplace] at h
      cases h
      simp [Access.written, hplace]
    | nowhere =>
      simp only [Access.onDisplay, hplace] at h
      cases h
  | write32 a v =>
    cases hplace : locate a with
    | screen p =>
      simp only [Access.onDisplay, hplace] at h
      cases h
      simp only [Access.written, hplace, leStore, byte_eq_digit]
      split_ifs <;> rfl
    | ram p | nowhere =>
      simp only [Access.onDisplay, hplace] at h
      cases h
  | _ => cases h

/-- A write through a window changes no byte of RAM and no byte at another offset. -/
theorem Access.onDisplay_frame {x : Access} {d d' : Display} {r : Reply} {o : ℕ}
    (hplace : locate x.addr = .screen o) (h : x.onDisplay d = some (r, d')) :
    d'.ram = d.ram ∧ ∀ y, (y < o ∨ o + x.size ≤ y) → d'.screen y = d.screen y := by
  cases x with
  | read8 a | read32 a =>
    simp only [Access.addr] at hplace
    simp only [Access.onDisplay, hplace] at h
    cases h
    exact ⟨rfl, fun _ _ => rfl⟩
  | write8 a v | write32 a v =>
    simp only [Access.addr] at hplace
    simp only [Access.onDisplay, hplace] at h
    cases h
    exact ⟨rfl, fun y hy => leStore_of_not_mem hy⟩
  | _ => cases h

theorem displayAccesses_screen {xs : List Access} {d d' : Display} {rs : List Reply}
    (h : displayAccesses xs d = some (rs, d')) (o : ℕ) :
    d'.screen o = (lastWritten xs o).getD (d.screen o) := by
  induction xs generalizing d rs with
  | nil =>
    cases h
    rfl
  | cons x xs ih =>
    simp only [displayAccesses, Option.bind_eq_bind, Option.bind_eq_some_iff] at h
    obtain ⟨⟨r, mid⟩, hx, ⟨rs', last⟩, hxs, heq⟩ := h
    cases heq
    rw [ih hxs, x.onDisplay_screen hx, lastWritten_cons]
    cases lastWritten xs o <;> rfl

end Sequences

/-- From every reachable state of the default machine, byte accesses at every address and
aligned word accesses through either window are answered by one screen and one RAM. The
screen holds at each offset the byte written there last; the windows show the same offsets,
and a write through one of them leaves RAM and the other offsets alone. -/
theorem windows_show_one_screen {smpCores : ℤ} {vm : Vm}
    (hreach : Reachable (machine memSize smpCores) vm) (c : ℕ) {xs : List Access}
    (h : ∀ x ∈ xs, x.OnScreen) :
    Result (fun rs t => displayAccesses xs vm.display = some (rs, t.display) ∧
        ∀ o, t.screen o = (lastWritten xs o).getD (vm.screen o))
      (fun e => displayAccesses xs vm.display = none ∧ ∃ x ∈ xs, x.NowhereStop e)
      (runAccesses c xs vm) ∧
    (∀ (w : FbWindow) (o : ℕ), o < fbSize →
      locate (BitVec.ofNat 32 (w.base + o)) = .screen o) ∧
    ∀ x ∈ xs, ∀ d r d' o, locate x.addr = .screen o → x.onDisplay d = some (r, d') →
      d'.ram = d.ram ∧ ∀ y, (y < o ∨ o + x.size ≤ y) → d'.screen y = d.screen y := by
  have hinv := reachable_inv hreach
  have hv : ScreenInv vm := ⟨hinv.memorySize, hinv.devices, hinv.cache⟩
  refine ⟨?_, fun w o ho => ?_, fun x _ d r d' o hplace hx => Access.onDisplay_frame hplace hx⟩
  · refine result_mono (runAccesses_onDisplay c hv h) (fun rs t hrun => ⟨hrun, ?_⟩) fun e he => he
    exact displayAccesses_screen hrun
  · have hbase : w.base ≤ 67108864 := by cases w <;> decide
    have hsize : fbSize = 1228800 := rfl
    have haddr : (BitVec.ofNat 32 (w.base + o)).toNat = w.base + o := by
      rw [BitVec.toNat_ofNat, Nat.mod_eq_of_lt (by omega)]
    exact FbWindow.Holds.locate ⟨haddr, ho⟩

/-- A word through the main window, a byte of it through the legacy window, and the word
through the legacy window again. -/
def crossedAccesses : List Access :=
  [.write32 0x4000010 0x11223344, .write8 0x620012 0xFF, .read32 0x620010, .read8 0x4000013,
    .write8 0x3000 7]

theorem crossedAccesses_onScreen : ∀ x ∈ crossedAccesses, x.OnScreen := by
  have hmain : locate 0x4000010#32 = .screen 16 := by decide
  have hlegacy : locate 0x620010#32 = .screen 16 := by decide
  simp [crossedAccesses, Access.OnScreen, hmain, hlegacy]

theorem windows_show_one_screen_crossed : ∃ vm, Reachable (machine memSize 1) vm ∧
    Result (fun rs t => displayAccesses crossedAccesses vm.display = some (rs, t.display) ∧
        ∀ o, t.screen o = (lastWritten crossedAccesses o).getD (vm.screen o))
      (fun e => displayAccesses crossedAccesses vm.display = none ∧
        ∃ x ∈ crossedAccesses, x.NowhereStop e) (runAccesses 0 crossedAccesses vm) := by
  obtain ⟨vm, hvm⟩ := boot_default
  exact ⟨vm, .of_init hvm,
    (windows_show_one_screen (.of_init hvm) 0 crossedAccesses_onScreen).1⟩

example : (displayAccesses crossedAccesses ⟨fun _ => 0, fun _ => 0⟩).map Prod.fst =
    some [.done, .done, .word 0x11FF3344, .byte 0x11, .done] := by decide

end LampVm
