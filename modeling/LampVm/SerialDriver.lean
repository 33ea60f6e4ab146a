import LampVm.GuestCode
import LampVm.HandlerFrame
import LampVm.Isolation
import LampVm.SerialQueue

/-!
# The serial driver of the kernel

`irq_input_init`, `irq_serial` and `serial_drain_rx` of `kernel/src/irq.c`. Once boot has enabled
receive interrupts, each of them starts a handler that reads bytes until the status register
says that there is none, and hands them to `console_rx_feed`. Bytes arrive at any time. What
decides whether input works at all is whether one arrived before interrupts were enabled. Core 0
takes the interrupt when it is in no other handler and has not masked interrupts; a lower vector
goes first.
-/
namespace LampVm

open ByteOrder Contract Transition

/-! ## The driver -/

/-- Outside the handler, before the test of its loop, or in the loop's body. -/
inductive DrainPlace
  | out | test | take
  deriving DecidableEq, Repr

structure InputPath where
  vm : Vm
  /-- `irq_input_init` has been called. -/
  ready : Bool
  drain : DrainPlace
  /-- The bytes that the FIFO has accepted. -/
  arrived : List (BitVec 8)
  /-- The bytes that `console_rx_feed` has been called with. -/
  fed : List (BitVec 8)

inductive InputLabel
  | host (b : BitVec 8)
  | init
  | deliver
  | test
  | take
  | other
  deriving DecidableEq

/-- The steps of the path when the vector table leads the serial vector to `stub`. Everything else
that happens in the machine is an event that leaves the serial line and its vector alone. -/
inductive InputStep (smpCores : ℤ) (stub : BitVec 32) (s : InputPath) :
    InputLabel → InputPath → Prop
  | host {b : BitVec 8} {r : Bool} {vm : Vm} (h : vmSerialRxEnqueue b s.vm = .ok (r, vm)) :
      InputStep smpCores stub s (.host b)
        { s with vm := vm, arrived := if r then s.arrived ++ [b] else s.arrived }
  | init {vm : Vm} (hready : s.ready = false) (hdrain : s.drain = .out)
      (h : acceptIo portScreenAttribute serialCtrlRxIntEnable s.vm = .ok ((), vm)) :
      InputStep smpCores stub s .init { s with vm := vm, ready := true }
  | deliver {vm : Vm} (hdrain : s.drain = .out)
      (hentry : s.vm.ivtWord intSerial = stub.setWidth 64)
      (hpend : s.vm.serialView.pending = true) (h : vmHandleInterrupts 0 s.vm = .ok ((), vm))
      (htaken : vm.serialView.pending = false) :
      InputStep smpCores stub s .deliver { s with vm := vm, drain := .test }
  | test {a : BitVec 32} {vm : Vm} (hdrain : s.drain = .test)
      (h : readIo portScreenAttribute s.vm = .ok (a, vm)) :
      InputStep smpCores stub s .test { s with
        vm := vm
        drain := if a &&& 0xFF &&& serialStatusRxReady ≠ 0 then .take else .out }
  | take {i : Inst} {vm : Vm} (hdrain : s.drain = .take)
      (h : inKeyboard 0 i s.vm = .ok ((), vm)) :
      InputStep smpCores stub s .take { s with
        vm := vm
        drain := .test
        fed := s.fed ++ [(vm.regValue 0 i.rd).setWidth 8] }
  | other {e : Event} {vm : Vm} (h : (machine memSize smpCores).step s.vm e vm)
      (hserial : vm.serialView = s.vm.serialView) :
      InputStep smpCores stub s .other { s with vm := vm }

/-- The kernel's input path on a machine that has just been started. -/
def inputPath (smpCores : ℤ) (stub : BitVec 32) : System InputPath InputLabel where
  init s := (machine memSize smpCores).init s.vm ∧ s.ready = false ∧ s.drain = .out ∧
    s.arrived = [] ∧ s.fed = []
  step := InputStep smpCores stub

/-- Core 0 can take the serial vector when it is pending: it is in no handler, interrupts are not
masked, no vector goes first, and the vector table leads to the handler. -/
structure Deliverable (stub : BitVec 32) (vm : Vm) : Prop where
  inInterrupt : (vm.cpus 0).inInterrupt = 0
  irqMasked : (vm.cpus 0).irqMasked = 0
  first : ∀ n < intSerial.toNat, vm.pending 0 n = false
  entry : vm.ivtWord intSerial = stub.setWidth 64

/-! ## What every step keeps -/

/-- Every byte that has arrived is in the FIFO or has been handed over, in order. -/
structure InputInv (smpCores : ℤ) (s : InputPath) : Prop where
  sound : Sound smpCores s.vm
  valid : s.vm.serialView.Valid
  conserved : s.arrived = s.fed ++ s.vm.serialView.queue
  nonempty : s.drain = .take → s.vm.serialView.queue ≠ []
  enabled : rxIntEnabled s.vm.serialView.attr = s.ready
  early : s.ready = false → s.vm.serialView.pending = false ∧ s.drain = .out ∧ s.fed = []

/-- Outside the handler, waiting bytes have an interrupt. -/
structure Live (s : InputPath) : Prop where
  ready : s.ready = true
  pending : s.drain = .out → s.vm.serialView.queue ≠ [] → s.vm.serialView.pending = true

/-- Bytes wait, and nothing will tell the kernel. -/
structure Dead (s : InputPath) : Prop where
  ready : s.ready = true
  outside : s.drain = .out
  quiet : s.vm.serialView.pending = false
  waiting : s.vm.serialView.queue ≠ []
  fed : s.fed = []

/-! ## The operations of the serial line -/

section Views

variable {v : SerialView}

theorem rxIntEnabled_eq (x : BitVec 32) : rxIntEnabled x = x.getLsbD 8 :=
  Bool.eq_iff_iff.mpr (rxIntEnabled_iff x)

/-- A byte that is accepted raises the interrupt when it is the first one and interrupts are
enabled. -/
theorem SerialView.Valid.enqueue_spec (h : v.Valid) (b : BitVec 8) :
    (v.enqueue b).2.queue = (if (v.enqueue b).1 then v.queue ++ [b] else v.queue) ∧
      rxIntEnabled (v.enqueue b).2.attr = rxIntEnabled v.attr ∧
      (v.enqueue b).2.pending =
        (v.pending || ((v.enqueue b).1 && decide (v.queue = []) && rxIntEnabled v.attr)) := by
  have hbit : rxIntEnabled (v.attr ||| serialStatusRxReady) = rxIntEnabled v.attr := by
    rw [rxIntEnabled_eq, rxIntEnabled_eq]
    simp
  by_cases hfull : serialNext v.head = v.tail
  · rw [SerialView.enqueue_of_full hfull]
    simp
  · have hqueue : (v.enqueue b).1 = true → (v.enqueue b).2.queue = v.queue ++ [b] :=
      h.enqueue_queue
    by_cases hempty : v.head = v.tail
    · have hnil : v.queue = [] := h.range.queue_eq_nil_iff.mpr hempty.symm
      rw [SerialView.enqueue_of_empty hfull hempty] at hqueue ⊢
      refine ⟨by simpa using hqueue rfl, hbit, ?_⟩
      rw [hbit]
      simp [hnil]
    · have hne : v.queue ≠ [] := fun hnil => hempty (h.range.queue_eq_nil_iff.mp hnil).symm
      rw [SerialView.enqueue_of_nonempty hfull hempty] at hqueue ⊢
      exact ⟨by simpa using hqueue rfl, rfl, by simp [hne]⟩

/-- A read leaves the interrupt raised when bytes remain and interrupts are enabled. -/
theorem SerialView.Valid.read_spec (h : v.Valid) :
    rxIntEnabled v.read.attr = rxIntEnabled v.attr ∧
      v.read.pending = (rxIntEnabled v.attr && decide (v.read.queue ≠ [])) := by
  have hset : rxIntEnabled (v.attr ||| serialStatusRxReady) = rxIntEnabled v.attr := by
    rw [rxIntEnabled_eq, rxIntEnabled_eq]
    simp
  have hclear : rxIntEnabled (v.attr &&& ~~~serialStatusRxReady) = rxIntEnabled v.attr := by
    rw [rxIntEnabled_eq, rxIntEnabled_eq]
    simp
  have hnil := h.read_range.queue_eq_nil_iff
  obtain ⟨-, hhead, htail, -⟩ := v.read_indices
  rw [hhead, htail] at hnil
  by_cases hmore : (if v.tail ≠ v.head then serialNext v.tail else v.tail) ≠ v.head
  · have hread : v.read.attr = v.attr ||| serialStatusRxReady ∧
        v.read.pending = rxIntEnabled (v.attr ||| serialStatusRxReady) := by
      simp only [SerialView.read, if_pos hmore, and_self]
    have hne : v.read.queue ≠ [] := fun hempty => hmore (hnil.mp hempty)
    rw [hread.1, hread.2, hset]
    simp [hne]
  · have hread : v.read.attr = v.attr &&& ~~~serialStatusRxReady ∧ v.read.pending = false := by
      simp only [SerialView.read, if_neg hmore, and_self]
    rw [hread.1, hread.2, hclear]
    simp [hnil.mpr (not_not.mp hmore)]

end Views

section Steps

variable {smpCores : ℤ} {stub : BitVec 32} {s t : InputPath} {l : InputLabel}

theorem host_view (hv : s.vm.serialView.Valid) {b : BitVec 8} {r : Bool} {vm : Vm}
    (h : vmSerialRxEnqueue b s.vm = .ok (r, vm)) :
    r = (s.vm.serialView.enqueue b).1 ∧ vm.serialView = (s.vm.serialView.enqueue b).2 := by
  obtain ⟨vm', hrun, hview, -⟩ := vmSerialRxEnqueue_run hv.range b
  obtain ⟨rfl, rfl⟩ := Prod.mk.inj (Except.ok.inj (h.symm.trans hrun))
  exact ⟨rfl, hview⟩

theorem init_view {vm : Vm}
    (h : acceptIo portScreenAttribute serialCtrlRxIntEnable s.vm = .ok ((), vm)) :
    vm.serialView = s.vm.serialView.control serialCtrlRxIntEnable :=
  (acceptIo_serialView h).trans (if_pos rfl)

/-- The word that the handler takes is the first byte of the queue. -/
theorem take_view (hv : s.vm.serialView.Valid) (hne : s.vm.serialView.queue ≠ []) {i : Inst}
    {vm : Vm} (h : inKeyboard 0 i s.vm = .ok ((), vm)) :
    vm.serialView = s.vm.serialView.read ∧
      (vm.regValue 0 i.rd).setWidth 8 :: vm.serialView.queue = s.vm.serialView.queue := by
  obtain ⟨hview, hreg⟩ := inKeyboard_ok hv.range.cores h
  refine ⟨hview, ?_⟩
  rw [hreg, hv.front_eq, hview, hv.read_queue]
  cases hq : s.vm.serialView.queue with
  | nil => exact absurd hq hne
  | cons b rest => simp

/-- Entry to a handler leaves the serial line alone. -/
theorem serialView_of_besidesHandler {c : ℕ} {u v : Vm}
    (h : v.besidesHandler c = u.besidesHandler c) : v.serialView = u.serialView := by
  simp only [Vm.serialView, SerialView.mk.injEq]
  have hbitmap : v.interruptBitmap = u.interruptBitmap := (congrArg Vm.interruptBitmap h :)
  refine ⟨(congrArg Vm.serialRxFifo h :), (congrArg Vm.serialRxHead h :),
    (congrArg Vm.serialRxTail h :), congrFun (congrArg Vm.io h :) _, (congrArg Vm.smpCores h :), ?_⟩
  rw [Vm.pending, Vm.pending, hbitmap]

/-- What core 0 does to the serial line when it takes the vector. -/
theorem deliver_view (hs : Sound smpCores s.vm) {vm : Vm}
    (hpend : s.vm.serialView.pending = true) (h : vmHandleInterrupts 0 s.vm = .ok ((), vm))
    (htaken : vm.serialView.pending = false) :
    vm.serialView = { s.vm.serialView with pending := false } := by
  have hcore := hs.core 0 (coreCount_pos smpCores)
  have hunchanged : vm ≠ s.vm := by
    rintro rfl
    exact Bool.false_ne_true (htaken.symm.trans hpend)
  rw [vmHandleInterrupts, bind_ok (getCpu_apply 0 s.vm), hcore.coreId] at h
  split_ifs at h
  · exact absurd (Prod.mk.inj (Except.ok.inj h)).2.symm hunchanged
  · exact absurd (Prod.mk.inj (Except.ok.inj h)).2.symm hunchanged
  rcases deliverFirst_cases (d := 0) (hs.smpCores ▸ coreCount_pos smpCores)
    (fun w hw => List.mem_range.mp hw) with ⟨hnone, -⟩ | ⟨n, bitmap, -, -, -, hrun⟩
  · exact absurd (Prod.mk.inj (Except.ok.inj (h.symm.trans hnone))).2 hunchanged
  · have hfree := handlerFree_besides { s.vm with interruptBitmap := bitmap } 0
    have hbesides := (hfree.vmEnterInterrupt (fun _ _ hv => hv) _).ok rfl (hrun.symm.trans h)
    have hview := serialView_of_besidesHandler hbesides
    rw [← htaken, hview]
    rfl

theorem sound_step (hs : Sound smpCores s.vm) (h : InputStep smpCores stub s l t) :
    Sound smpCores t.vm := by
  cases h with
  | host h => exact hs.step (e := .serialRx _) ⟨trivial, bind_ok h⟩
  | init _ _ h => exact (kept_devices.port.acceptIo (E := NotIsrPanic) _ _).ok hs h
  | deliver _ _ _ h =>
    exact (kept_vmHandleInterrupts (coreCount_pos smpCores) (settled_mayEnter 0)).ok hs h
  | test _ h =>
    obtain ⟨-, rfl⟩ := readIo_ok h
    exact hs
  | take _ h =>
    exact (kept_devices.inKeyboard notIsrPanic_outOfBounds (kept_writeReg 0 _)).ok hs h
  | other h => exact hs.step h

theorem inputInv_step (hI : InputInv smpCores s) (h : InputStep smpCores stub s l t) :
    InputInv smpCores t := by
  have hsound := sound_step hI.sound h
  obtain ⟨hs, hv, hconserved, hnonempty, henabled, hearly⟩ := hI
  cases h with
  | @host b r vm h =>
    obtain ⟨rfl, hview⟩ := host_view hv h
    obtain ⟨hqueue, hattr, hpending⟩ := hv.enqueue_spec b
    refine ⟨hsound, hview ▸ hv.enqueue b, ?_, ?_, ?_, ?_⟩
    · rw [hview, hqueue, hconserved]
      split_ifs <;> simp
    · intro hdrain
      rw [hview, hqueue]
      split_ifs
      · simp
      · exact hnonempty hdrain
    · rw [hview, hattr]
      exact henabled
    · intro hready
      obtain ⟨hquiet, hout, hfed⟩ := hearly hready
      refine ⟨?_, hout, hfed⟩
      rw [hview, hpending, henabled, hquiet, show s.ready = false from hready]
      simp
  | @init vm hready hdrain h =>
    have hview := init_view h
    refine ⟨hsound, hview ▸ hv.control _, ?_, ?_, ?_, fun h => absurd h (by simp)⟩
    · rw [hview]
      exact hconserved
    · intro htake
      exact absurd (hdrain.symm.trans htake) (by decide)
    · rw [hview, Bool.eq_iff_iff, rxIntEnabled_control]
      exact iff_of_true (by decide) rfl
  | @deliver vm hdrain hentry hpend h htaken =>
    have hview := deliver_view hs hpend h htaken
    refine ⟨hsound, hview ▸ hv.withPending false, ?_, nofun, ?_, ?_⟩
    · rw [hview]
      exact hconserved
    · rw [hview]
      exact henabled
    · intro hready
      exact absurd ((hearly hready).1.symm.trans hpend) (by decide)
  | @test a vm hdrain h =>
    obtain ⟨rfl, rfl⟩ := readIo_ok h
    refine ⟨hsound, hv, hconserved, ?_, henabled, ?_⟩
    · intro htake
      refine hv.ready.mp ((readyBit_mask _).mp ?_)
      by_contra hnot
      exact absurd ((if_neg (not_not.mpr hnot)).symm.trans htake) (by decide)
    · intro hready
      exact absurd (hdrain.symm.trans (hearly hready).2.1) (by decide)
  | @take i vm hdrain h =>
    obtain ⟨hview, hqueue⟩ := take_view hv (hnonempty hdrain) h
    refine ⟨hsound, hview ▸ hv.read, ?_, nofun, ?_, ?_⟩
    · rw [hconserved, ← hqueue]
      simp
    · rw [hview, hv.read_spec.1]
      exact henabled
    · intro hready
      exact absurd (hdrain.symm.trans (hearly hready).2.1) (by decide)
  | other _ h => exact ⟨hsound, h ▸ hv, h ▸ hconserved, h ▸ hnonempty, h ▸ henabled, h ▸ hearly⟩

theorem inputInv_init (h : (inputPath smpCores stub).init s) : InputInv smpCores s := by
  obtain ⟨hvm, hready, hdrain, harrived, hfed⟩ := h
  obtain ⟨hv, hnil⟩ := valid_init hvm
  refine ⟨reachable_inv (.of_init hvm), hv, ?_, ?_, ?_, ?_⟩
  · rw [harrived, hfed, hnil]
    rfl
  · rw [hdrain]
    exact nofun
  · rw [serial_init hvm, hready]
    exact show rxIntEnabled serialStatusTxReady = false by decide
  · intro _
    rw [serial_init hvm]
    exact ⟨rfl, hdrain, hfed⟩

/-- The run lemma. -/
theorem reachable_inputInv (h : Reachable (inputPath smpCores stub) s) : InputInv smpCores s :=
  h.invariant (fun _ => inputInv_init) fun _ _ _ hI hstep => inputInv_step hI hstep

theorem live_step (hI : InputInv smpCores s) (hs : Live s) (h : InputStep smpCores stub s l t) :
    Live t := by
  obtain ⟨hready, hpending⟩ := hs
  cases h with
  | @host b r vm h =>
    obtain ⟨rfl, hview⟩ := host_view hI.valid h
    obtain ⟨hqueue, -, hp⟩ := hI.valid.enqueue_spec b
    refine ⟨hready, fun hout hne => ?_⟩
    rw [hview, hqueue] at hne
    rw [hview, hp, hI.enabled, hready]
    by_cases hnil : s.vm.serialView.queue = []
    · cases haccept : (s.vm.serialView.enqueue b).1 with
      | true => simp [hnil]
      | false =>
        rw [haccept] at hne
        exact absurd hnil hne
    · rw [hpending hout hnil]
      simp
  | init h => exact absurd (h.symm.trans hready) (by decide)
  | deliver => exact ⟨hready, nofun⟩
  | @test a vm hdrain h =>
    obtain ⟨rfl, rfl⟩ := readIo_ok h
    refine ⟨hready, fun hout hne => ?_⟩
    have hbit := (readyBit_mask _).mpr (hI.valid.ready.mpr hne)
    exact absurd ((if_pos hbit).symm.trans hout) (by decide)
  | take => exact ⟨hready, nofun⟩
  | other _ h => exact ⟨hready, h ▸ hpending⟩

/-- Bytes that were there before interrupts were enabled block those that follow. -/
theorem dead_step (hI : InputInv smpCores s) (hs : Dead s) (h : InputStep smpCores stub s l t) :
    Dead t := by
  obtain ⟨hready, hout, hquiet, hne, hfed⟩ := hs
  cases h with
  | @host b r vm h =>
    obtain ⟨rfl, hview⟩ := host_view hI.valid h
    obtain ⟨hqueue, -, hp⟩ := hI.valid.enqueue_spec b
    refine ⟨hready, hout, ?_, ?_, hfed⟩
    · rw [hview, hp, hquiet]
      simp [hne]
    · rw [hview, hqueue]
      split_ifs
      · simp
      · exact hne
  | init h => exact absurd (h.symm.trans hready) (by decide)
  | deliver _ _ hpend => exact absurd (hquiet.symm.trans hpend) (by decide)
  | test hdrain => exact absurd (hout.symm.trans hdrain) (by decide)
  | take hdrain => exact absurd (hout.symm.trans hdrain) (by decide)
  | other _ h => exact ⟨hready, hout, h ▸ hquiet, h ▸ hne, hfed⟩

/-- Where `irq_input_init` leads. -/
theorem init_live (hI : InputInv smpCores s) (h : InputStep smpCores stub s .init t)
    (hnone : s.arrived = []) : Live t := by
  cases h with
  | init hready hdrain h =>
    refine ⟨rfl, fun _ hne => absurd ?_ hne⟩
    have hnil : s.vm.serialView.queue = [] :=
      (List.append_eq_nil_iff.mp (hI.conserved.symm.trans hnone)).2
    rw [init_view h]
    exact hnil

theorem init_dead (hI : InputInv smpCores s) (h : InputStep smpCores stub s .init t)
    (hsome : s.arrived ≠ []) : Dead t := by
  cases h with
  | init hready hdrain h =>
    obtain ⟨hquiet, -, hfed⟩ := hI.early hready
    refine ⟨rfl, hdrain, by rw [init_view h]; exact hquiet, fun hnil => hsome ?_, hfed⟩
    rw [hI.conserved, hfed, List.nil_append, ← hnil, init_view h]
    rfl

end Steps

/-! ## Progress -/

/-- The steps of the handler. -/
def InputLabel.own : InputLabel → Prop
  | .deliver | .test | .take => True
  | _ => False

/-- The handler alone can hand over everything that has arrived. -/
def HandsOver (smpCores : ℤ) (stub : BitVec 32) (s : InputPath) : Prop :=
  ∃ ls t, (∀ l ∈ ls, l.own) ∧ Run (inputPath smpCores stub) s ls t ∧ t.fed = s.arrived

section Progress

variable {smpCores : ℤ} {stub : BitVec 32} {s t : InputPath}

theorem HandsOver.step {l : InputLabel} (hl : l.own) (h : InputStep smpCores stub s l t)
    (harrived : t.arrived = s.arrived) (ht : HandsOver smpCores stub t) :
    HandsOver smpCores stub s := by
  obtain ⟨ls, u, hls, hrun, hu⟩ := ht
  refine ⟨l :: ls, u, ?_, hrun.cons h, hu.trans harrived⟩
  intro k hk
  obtain rfl | hk := List.mem_cons.mp hk
  · exact hl
  · exact hls k hk

/-- In the loop of the handler, by induction on the number of bytes in the FIFO. -/
theorem handsOver_test (hI : InputInv smpCores s) (hdrain : s.drain = .test) :
    HandsOver smpCores stub s := by
  induction hn : s.vm.serialView.queue.length generalizing s with
  | zero =>
    have hnil := List.length_eq_zero_iff.mp hn
    exact ⟨[], s, nofun, .nil, by rw [hI.conserved, hnil, List.append_nil]⟩
  | succ n ih =>
    have hne : s.vm.serialView.queue ≠ [] := List.ne_nil_of_length_eq_add_one hn
    have htest : InputStep smpCores stub s .test { s with vm := s.vm, drain := .take } := by
      have h : InputStep smpCores stub s _ _ := .test hdrain
        (show readIo portScreenAttribute s.vm = .ok (_, s.vm) from rfl)
      have hbit : s.vm.io portScreenAttribute &&& 0xFF &&& serialStatusRxReady ≠ 0 :=
        (readyBit_mask _).mpr (hI.valid.ready.mpr hne)
      rwa [if_pos hbit] at h
    obtain ⟨vm, hrun⟩ := inKeyboard_total (c := 0) (i := ⟨0, 0, 0, 0, 0⟩) hI.valid.range (by decide)
    have htake : InputStep smpCores stub { s with drain := .take } .take _ := .take rfl hrun
    have hI' := inputInv_step (inputInv_step hI htest) htake
    have hlen := congrArg List.length (take_view hI.valid hne hrun).2
    rw [List.length_cons, hn] at hlen
    exact .step (l := .test) trivial htest rfl
      (.step (l := .take) trivial htake rfl (ih hI' rfl (Nat.succ_injective hlen)))

/-- The interrupt is delivered. -/
theorem exists_delivered (hcores : coreCount smpCores ≤ 64) (hI : InputInv smpCores s)
    (hdrain : s.drain = .out) (hpend : s.vm.serialView.pending = true)
    (hd : Deliverable stub s.vm) :
    ∃ vm, InputStep smpCores stub s .deliver { s with vm := vm, drain := .test } := by
  have hc := coreCount_pos smpCores
  have hcore := hI.sound.core 0 hc
  have hlt : intSerial.toNat < ivtSize := by decide
  obtain ⟨bitmap, hset, hfirst⟩ := deliverFirst_lowest (d := 0) (hI.sound.smpCores ▸ hc)
    (by decide) hpend hd.first [1, 2, 3]
  have hu : Sound smpCores { s.vm with interruptBitmap := bitmap } := hI.sound.congr rfl
  have hisp : (s.vm.cpus 0).isp = isrStackSize := by
    rcases hcore.phase with ⟨-, hisp⟩ | ⟨hflag, -⟩
    · exact hisp
    · exact absurd (hflag.symm.trans hd.inInterrupt) (by decide)
  have hne : ({ s.vm with interruptBitmap := bitmap } : Vm).ivtWord intSerial ≠
      BitVec.allOnes 64 := by
    intro hones
    have htop := congrArg BitVec.toNat (hd.entry.symm.trans hones)
    have hsmall := stub.isLt
    rw [BitVec.toNat_setWidth, BitVec.toNat_allOnes] at htop
    omega
  obtain ⟨vm, henter, -⟩ := vmEnterInterrupt_saves hlt (isrRegion_of_inv hcores hc hu) hisp
    hd.inInterrupt (ivtEntry_plain hu hlt) hne
  have hrun : vmHandleInterrupts 0 s.vm = .ok ((), vm) := by
    rw [vmHandleInterrupts, bind_ok (getCpu_apply 0 s.vm), if_neg (not_not.mpr hd.inInterrupt),
      if_neg (not_not.mpr hd.irqMasked), hcore.coreId]
    exact hfirst.trans henter
  have hbesides := ((handlerFree_besides { s.vm with interruptBitmap := bitmap } 0).vmEnterInterrupt
    (fun _ _ hv => hv) _).ok rfl henter
  have htaken : vm.serialView.pending = false := by
    rw [serialView_of_besidesHandler hbesides]
    have hnot : ((0, intSerial.toNat) : ℕ × ℕ) ∉
        ({ s.vm with interruptBitmap := bitmap } : Vm).pendingSet := by
      rw [hset]
      exact fun hin => hin.2 rfl
    exact Bool.eq_false_iff.mpr fun hbit => hnot ⟨hI.sound.smpCores ▸ hc, hlt, hbit⟩
  exact ⟨vm, .deliver hdrain hd.entry hpend hrun htaken⟩

theorem handsOver_of_live (hcores : coreCount smpCores ≤ 64) (hI : InputInv smpCores s)
    (hs : Live s) (hd : s.drain = .out → Deliverable stub s.vm) : HandsOver smpCores stub s := by
  cases hdrain : s.drain with
  | test => exact handsOver_test hI hdrain
  | out =>
    by_cases hnil : s.vm.serialView.queue = []
    · exact ⟨[], s, nofun, .nil, by rw [hI.conserved, hnil, List.append_nil]⟩
    · obtain ⟨vm, hstep⟩ := exists_delivered hcores hI hdrain (hs.pending hdrain hnil) (hd hdrain)
      exact .step (l := .deliver) trivial hstep rfl (handsOver_test (inputInv_step hI hstep) rfl)
  | take =>
    obtain ⟨vm, hrun⟩ := inKeyboard_total (c := 0) (i := ⟨0, 0, 0, 0, 0⟩) hI.valid.range (by decide)
    have hstep : InputStep smpCores stub s .take _ := .take hdrain hrun
    exact .step (l := .take) trivial hstep rfl (handsOver_test (inputInv_step hI hstep) rfl)

end Progress

/-- Input works if and only if no byte has arrived when `irq_input_init` runs. Then waiting bytes
always have an interrupt pending or the handler in its loop, and whenever core 0 can take the
interrupt, or is in the loop, the handler alone can hand over everything that has arrived.
Otherwise the kernel never sees a byte and the interrupt is never raised again. -/
theorem keyboard_input_live_iff {smpCores : ℤ} {stub : BitVec 32} {s t : InputPath}
    (hcores : coreCount smpCores ≤ 64) (hs : Reachable (inputPath smpCores stub) s)
    (h : InputStep smpCores stub s .init t) :
    (s.arrived = [] → ∀ ls w, Run (inputPath smpCores stub) t ls w →
      (w.drain = .out → w.vm.serialView.queue ≠ [] → w.vm.serialView.pending = true) ∧
      ((w.drain = .out → Deliverable stub w.vm) → HandsOver smpCores stub w)) ∧
    (s.arrived ≠ [] → ∀ ls w, Run (inputPath smpCores stub) t ls w →
      w.fed = [] ∧ w.vm.serialView.pending = false) := by
  have hI := reachable_inputInv hs
  have hI' := inputInv_step hI h
  constructor
  · intro hnone ls w hw
    obtain ⟨hIw, hlive⟩ := hw.keeps (P := fun w => InputInv smpCores w ∧ Live w)
      (fun u l v hu hstep => ⟨inputInv_step hu.1 hstep, live_step hu.1 hu.2 hstep⟩)
      ⟨hI', init_live hI h hnone⟩
    exact ⟨hlive.pending, handsOver_of_live hcores hIw hlive⟩
  · intro hsome ls w hw
    obtain ⟨-, hdead⟩ := hw.keeps (P := fun w => InputInv smpCores w ∧ Dead w)
      (fun u l v hu hstep => ⟨inputInv_step hu.1 hstep, dead_step hu.1 hu.2 hstep⟩)
      ⟨hI', init_dead hI h hsome⟩
    exact ⟨hdead.fed, hdead.quiet⟩

/-! ## A key before and after boot -/

section Example

variable {smpCores : ℤ} {stub : BitVec 32} {s : InputPath}

/-- Boot enables the interrupts of the line. -/
theorem exists_init (hs : Reachable (inputPath smpCores stub) s) (hready : s.ready = false) :
    ∃ t, InputStep smpCores stub s .init t ∧ t.arrived = s.arrived ∧ t.drain = .out ∧
      (Deliverable stub s.vm → Deliverable stub t.vm) := by
  have hdrain := ((reachable_inputInv hs).early hready).2.1
  have hrun : acceptIo portScreenAttribute serialCtrlRxIntEnable s.vm =
      .ok ((), { s.vm with
        io := Function.update s.vm.io portScreenAttribute
          ((s.vm.io portScreenAttribute &&& 0xFF) ||| (serialCtrlRxIntEnable &&& 0xFF) <<< 8) }) :=
    rfl
  exact ⟨_, .init hready hdrain hrun, rfl, hdrain, fun h => ⟨h.1, h.2, h.3, h.4⟩⟩

/-- Raising the serial vector puts no lower vector first. -/
theorem safe_triggerSerial :
    Safe (Deliverable stub) (fun _ => True) (triggerInterrupt intSerial) := by
  intro u hu
  cases h : triggerInterrupt intSerial u with
  | error e => trivial
  | ok r =>
    have hbesides : r.2.cpus = u.cpus ∧ r.2.memory = u.memory := by
      obtain ⟨-, hr⟩ | ⟨-, hr⟩ := triggerInterruptTarget_cases h <;> rw [hr] <;> exact ⟨rfl, rfl⟩
    refine ⟨hbesides.1 ▸ hu.inInterrupt, hbesides.1 ▸ hu.irqMasked, fun n hn => ?_, ?_⟩
    · have hlt : n < ivtSize := hn.trans (by decide)
      rw [trigger_pending hlt h, hu.first n hn, Bool.false_or]
      exact decide_eq_false fun hbit => hn.ne hbit.2.2.symm
    · rw [Vm.ivtWord, hbesides.2]
      exact hu.entry

theorem safe_vmSerialRxEnqueue (b : BitVec 8) :
    Safe (Deliverable stub) (fun _ => True) (vmSerialRxEnqueue b) := by
  refine safe_bind safe_get fun vm => safe_ite (fun _ => safe_pure _) fun _ =>
    safe_bind (safe_checkIndex_of_fault (fun _ _ => trivial) _ _ _) fun _ => safe_bind
      (safe_modify fun _ h => ⟨h.1, h.2, h.3, h.4⟩)
      fun _ => safe_ite (fun _ => ?_) fun _ => safe_pure _
  refine safe_bind (safe_readFifo_of_fault (fun _ _ => trivial) _) fun _ => safe_bind
    (safe_modify fun _ h => ⟨h.1, h.2, h.3, h.4⟩) fun _ => safe_bind
    (safe_modify fun _ h => ⟨h.1, h.2, h.3, h.4⟩) fun _ => safe_bind safe_get fun _ => ?_
  exact safe_ite (fun _ => safe_bind safe_triggerSerial fun _ => safe_pure _) fun _ => safe_pure _

/-- The first byte is accepted. -/
theorem exists_typed (hI : InputInv smpCores s) (hnone : s.vm.serialView.queue = [])
    (b : BitVec 8) :
    ∃ t, InputStep smpCores stub s (.host b) t ∧ t.arrived = s.arrived ++ [b] ∧
      t.ready = s.ready ∧ t.drain = s.drain ∧
      (Deliverable stub s.vm → Deliverable stub t.vm) := by
  obtain ⟨vm, hrun, -, -⟩ := vmSerialRxEnqueue_run hI.valid.range b
  have haccept : (s.vm.serialView.enqueue b).1 = true := by
    by_contra hnot
    have hfull := (hI.valid.enqueue_eq_false_iff b).mp (Bool.eq_false_iff.mpr hnot)
    rw [hnone] at hfull
    exact absurd hfull (by decide)
  rw [haccept] at hrun
  exact ⟨_, .host hrun, rfl, rfl, rfl, fun h => (safe_vmSerialRxEnqueue b).ok h hrun⟩

/-- A machine whose vector table leads the serial vector to `stub`. -/
theorem exists_deliverable (stub : BitVec 32) : ∃ s : InputPath,
    Reachable (inputPath 1 stub) s ∧ s.ready = false ∧ s.arrived = [] ∧
      Deliverable stub s.vm := by
  obtain ⟨vm, hboot⟩ := boot_total (M := memSize) ⟨fun _ => 0, fun _ => 0, 0⟩ false
    ⟨0, fun _ => 0⟩ [Inst.encode ⟨Opcode.iret.code, 0, 0, 0, 0⟩] [] none 1 (by decide) (by decide)
  have hinit : (machine memSize 1).init vm := ⟨_, _, _, _, _, _, hboot⟩
  have hv := boot_created hboot
  obtain ⟨textBase, hcpu⟩ := hv.core 0 (by decide)
  have hn : intSerial.toNat < ivtSize := by decide
  have hplain := ivtEntry_plain hv hn
  have hisr : ((stub.setWidth 64 : BitVec 64).setWidth 32).setWidth 64 = stub.setWidth 64 := by
    simp
  have hrun : registerIsr intSerial (stub.setWidth 64) vm = .ok ((), vm.withMemory
      (leStore vm.memory (ivtEntry intSerial).toNat 8 (stub.setWidth 64 : BitVec 64).toNat)) := by
    rw [registerIsr, if_neg (by omega), hisr]
    exact vmWrite64_plain hplain.inRam hplain.inSpace
      (fun _ => by rw [ivtEntry_toNat hn]; omega) _
  have hstart : Reachable (inputPath 1 stub) ⟨vm, false, .out, [], []⟩ :=
    .of_init ⟨hinit, rfl, rfl, rfl, rfl⟩
  refine ⟨_, hstart.step (l := .other)
    (.other (e := .registerIsr intSerial (stub.setWidth 64)) ⟨trivial, hrun⟩ rfl), rfl, rfl,
    ?_, ?_, ?_, ?_⟩
  · change (vm.cpus 0).inInterrupt = 0
    rw [hcpu]
    rfl
  · change (vm.cpus 0).irqMasked = 0
    rw [hcpu]
    rfl
  · intro n hserial
    have hcell : 0 * irqBitmapWords + n / 64 < vm.smpCores * irqBitmapWords := by
      have hpos : 0 < vm.smpCores := hv.smpCores ▸ coreCount_pos 1
      have hword : n / 64 = 0 := Nat.div_eq_of_lt (hserial.trans (by decide))
      rw [hword]
      exact Nat.mul_pos hpos (by decide)
    have hzero : vm.pending 0 n = false := by
      rw [Vm.pending, init_bitmap hinit hcell]
      simp
    exact hzero
  · rw [Vm.ivtWord, withMemory_memory]
    apply BitVec.eq_of_toNat_eq
    rw [BitVec.toNat_ofNat, leNat_leStore]
    simp

end Example

/-- The first key decides: booted before it, the kernel can read it, and booted after it, the
kernel reads nothing. -/
theorem keyboard_input_live_both :
    (∃ t, Reachable (inputPath 1 0x800) t ∧ t.arrived = [65] ∧ HandsOver 1 0x800 t) ∧
    ∃ t, Reachable (inputPath 1 0x800) t ∧ t.arrived = [65] ∧
      ∀ ls w, Run (inputPath 1 0x800) t ls w → w.fed = [] := by
  obtain ⟨s, hs, hready, hnone, hd⟩ := exists_deliverable 0x800
  have hnil : s.vm.serialView.queue = [] :=
    (List.append_eq_nil_iff.mp ((reachable_inputInv hs).conserved.symm.trans hnone)).2
  constructor
  · obtain ⟨t, ht, harrived, hout, hkeep⟩ := exists_init hs hready
    have hreach := hs.step ht
    have hnil' : t.vm.serialView.queue = [] := (List.append_eq_nil_iff.mp
      ((reachable_inputInv hreach).conserved.symm.trans (harrived.trans hnone))).2
    obtain ⟨w, hw, htyped, -, -, hkeep'⟩ := exists_typed (reachable_inputInv hreach) hnil' 65
    refine ⟨w, hreach.step hw, by rw [htyped, harrived, hnone]; rfl, ?_⟩
    exact ((keyboard_input_live_iff (by decide) hs ht).1 hnone _ _ (Run.nil.cons hw)).2
      fun _ => hkeep' (hkeep hd)
  · obtain ⟨w, hw, htyped, hready', -, -⟩ := exists_typed (reachable_inputInv hs) hnil 65
    have hreach := hs.step hw
    have hsome : w.arrived = [65] := by rw [htyped, hnone]; rfl
    obtain ⟨t, ht, harrived, -, -⟩ := exists_init hreach (hready'.trans hready)
    have hdead := (keyboard_input_live_iff (by decide) hreach ht).2 (by simp [hsome])
    exact ⟨t, hreach.step ht, harrived.trans hsome, fun ls v hv => (hdead ls v hv).1⟩

end LampVm
