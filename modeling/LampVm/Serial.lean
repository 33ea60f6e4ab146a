import LampVm.Bounds
import LampVm.Pending
import LampVm.Ring

/-!
# The serial line

Bytes come in through `vm_serial_rx_enqueue` and leave through `IN` from `KEYBOARD`,
each under the shared lock. The part of the machine that the serial line is about is
small, and every function that touches it acts on this part alone. The FIFO is a
bounded queue. An interrupt is raised when the queue becomes non-empty and after each
read that leaves bytes, but not when the guest enables interrupts.
-/
namespace LampVm

open Contract Transition

abbrev serialFifoSize : ℕ := 256

/-! ## The serial part of the machine -/

/-- The FIFO with its indices, the status and control register, the number of cores,
and whether the serial vector is pending on core 0. -/
structure SerialView where
  fifo : ℕ → BitVec 8
  head : BitVec 16
  tail : BitVec 16
  attr : BitVec 32
  cores : ℕ
  pending : Bool

def Vm.serialView (vm : Vm) : SerialView where
  fifo := vm.serialRxFifo
  head := vm.serialRxHead
  tail := vm.serialRxTail
  attr := vm.io portScreenAttribute
  cores := vm.smpCores
  pending := vm.pending 0 intSerial.toNat

/-- `vm_serial_rx_enqueue` on this part. -/
def SerialView.enqueue (v : SerialView) (b : BitVec 8) : Bool × SerialView :=
  if serialNext v.head = v.tail then (false, v)
  else
    let w := { v with fifo := Function.update v.fifo v.head.toNat b, head := serialNext v.head }
    if v.head = v.tail then
      let attr := v.attr ||| serialStatusRxReady
      (true, { w with attr := attr, pending := v.pending || rxIntEnabled attr })
    else (true, w)

/-- `IN` from `KEYBOARD` on this part. -/
def SerialView.read (v : SerialView) : SerialView :=
  let tail := if v.tail ≠ v.head then serialNext v.tail else v.tail
  if tail ≠ v.head then
    let attr := v.attr ||| serialStatusRxReady
    { v with tail := tail, attr := attr, pending := rxIntEnabled attr }
  else { v with tail := tail, attr := v.attr &&& ~~~serialStatusRxReady, pending := false }

/-- The value that it puts into the register. -/
def SerialView.front (v : SerialView) : BitVec 32 :=
  if v.tail ≠ v.head then (v.fifo v.tail.toNat).setWidth 32 else 0

/-- `OUT` to `SCREEN_ATTRIBUTE` on this part. -/
def SerialView.control (v : SerialView) (value : BitVec 32) : SerialView :=
  { v with attr := (v.attr &&& 0xFF) ||| (value &&& 0xFF) <<< 8 }

section View

variable {v : SerialView}

theorem SerialView.enqueue_of_full (h : serialNext v.head = v.tail) (b : BitVec 8) :
    v.enqueue b = (false, v) := if_pos h

theorem SerialView.enqueue_of_empty (hfull : serialNext v.head ≠ v.tail) (hempty : v.head = v.tail)
    (b : BitVec 8) : v.enqueue b = (true, { v with
      fifo := Function.update v.fifo v.head.toNat b
      head := serialNext v.head
      attr := v.attr ||| serialStatusRxReady
      pending := v.pending || rxIntEnabled (v.attr ||| serialStatusRxReady) }) := by
  rw [SerialView.enqueue, if_neg hfull, if_pos hempty]

theorem SerialView.enqueue_of_nonempty (hfull : serialNext v.head ≠ v.tail)
    (hempty : v.head ≠ v.tail) (b : BitVec 8) : v.enqueue b = (true, { v with
      fifo := Function.update v.fifo v.head.toNat b
      head := serialNext v.head }) := by
  rw [SerialView.enqueue, if_neg hfull, if_neg hempty]

end View

/-! ## What the code does to it -/

section Code

variable {vm vm' : Vm} {c : ℕ} {i : Inst}

/-- Raising the serial vector makes it pending and changes nothing else of this part. -/
theorem triggerInterrupt_serialView (hcores : 0 < vm.smpCores)
    (h : triggerInterrupt intSerial vm = .ok ((), vm')) :
    vm'.serialView = { vm.serialView with pending := true } := by
  rcases triggerInterruptTarget_cases h with ⟨hout, -⟩ | ⟨-, rfl⟩
  · have hint : intSerial.toNat = 3 := rfl
    have hivt : ivtSize = 256 := rfl
    omega
  · have hbit : (vm.setWord (irqWordIndex 0 intSerial)
        (vm.interruptBitmap (irqWordIndex 0 intSerial) ||| irqBitMask intSerial)).pending 0
          intSerial.toNat = true := by
      rw [setWord_pending]
      have hword : 0 * irqBitmapWords + intSerial.toNat / 64 = irqWordIndex 0 intSerial := rfl
      rw [if_pos hword, BitVec.getLsbD_or]
      have hmask : (irqBitMask intSerial).getLsbD (intSerial.toNat % 64) = true := by decide
      rw [hmask, Bool.or_true]
    simp only [Vm.serialView, SerialView.mk.injEq]
    exact ⟨rfl, rfl, rfl, rfl, rfl, hbit⟩

theorem serialAck_serialView (h : serialAck vm = .ok ((), vm')) :
    vm'.serialView = { vm.serialView with pending := false } := by
  rw [serialAck_eq h]
  have hbit : (vm.setWord serialAckWord
      (vm.interruptBitmap serialAckWord &&& serialAckMask)).pending 0 intSerial.toNat = false := by
    rw [setWord_pending]
    have hword : 0 * irqBitmapWords + intSerial.toNat / 64 = serialAckWord := rfl
    have hmask : serialAckMask.getLsbD (intSerial.toNat % 64) = false := by decide
    rw [if_pos hword, BitVec.getLsbD_and, hmask, Bool.and_false]
  simp only [Vm.serialView, SerialView.mk.injEq]
  exact ⟨rfl, rfl, rfl, rfl, rfl, hbit⟩

theorem readFifo_ok {k : ℕ} {b : BitVec 8} (h : readFifo k vm = .ok (b, vm')) :
    b = vm.serialRxFifo k ∧ vm' = vm := by
  obtain ⟨_, t, hidx, hret⟩ := bind_eq_ok (show (checkIndex .serialRxFifo 256 k >>=
    fun _ => pure (vm.serialRxFifo k)) vm = _ from h)
  obtain rfl := checkIndex_ok hidx
  obtain ⟨rfl, rfl⟩ := Prod.mk.inj (Except.ok.inj hret)
  exact ⟨rfl, rfl⟩

/-- The indices lie in the FIFO. -/
structure SerialView.InRange (v : SerialView) : Prop where
  head : v.head.toNat < serialFifoSize
  tail : v.tail.toNat < serialFifoSize
  cores : 0 < v.cores

theorem triggerInterrupt_serial_run (hcores : 0 < vm.smpCores) :
    ∃ vm', triggerInterrupt intSerial vm = .ok ((), vm') ∧
      vm'.serialView = { vm.serialView with pending := true } := by
  have h := triggerInterruptTarget_of_lt vm hcores (show intSerial.toNat < ivtSize by decide)
  exact ⟨_, h, triggerInterrupt_serialView hcores h⟩

/-- The state with a byte stored behind the last one. -/
def Vm.withByte (vm : Vm) (b : BitVec 8) : Vm :=
  { vm with
    serialRxFifo := Function.update vm.serialRxFifo vm.serialRxHead.toNat b
    serialRxHead := serialNext vm.serialRxHead }

/-- The state whose ports show the first byte. -/
def Vm.announcing (vm : Vm) : Vm :=
  let front := (vm.serialRxFifo vm.serialRxTail.toNat).setWidth 32
  let attr := vm.io portScreenAttribute ||| serialStatusRxReady
  let io := Function.update vm.io portKeyboard front
  { vm with io := Function.update io portScreenAttribute attr }

theorem setPorts_serialView (vm : Vm) {io : ℕ → BitVec 32} (y : BitVec 32) :
    { vm with io := Function.update io portScreenAttribute y }.serialView =
      { vm.serialView with attr := y } := by
  simp only [Vm.serialView, Function.update_self]
  rfl

theorem announcing_serialView (vm : Vm) : vm.announcing.serialView =
    { vm.serialView with attr := vm.serialView.attr ||| serialStatusRxReady } :=
  setPorts_serialView vm _

theorem ite_bind {α : Type} {p : Prop} [Decidable p] (m n : VmM Unit) (f : Unit → VmM α) :
    ((if p then m else n) >>= f) = if p then m >>= f else n >>= f := by
  split_ifs <;> rfl

/-- Raising the vector when the guest wants it. -/
theorem raiseIfEnabled_run (vm : Vm) (p : Prop) [Decidable p] (hcores : 0 < vm.smpCores) :
    ∃ vm', (if p then triggerInterrupt intSerial else pure ()) vm = .ok ((), vm') ∧
      vm'.serialView = { vm.serialView with pending := vm.serialView.pending || decide p } := by
  by_cases hp : p
  · obtain ⟨vm', hrun, hview⟩ := triggerInterrupt_serial_run hcores
    refine ⟨vm', by rw [if_pos hp, hrun], ?_⟩
    simp only [hview, hp, decide_true, Bool.or_true]
  · refine ⟨vm, by rw [if_neg hp]; rfl, ?_⟩
    simp only [hp, decide_false, Bool.or_false]

theorem vmSerialRxEnqueue_run (hv : vm.serialView.InRange) (b : BitVec 8) :
    ∃ vm', vmSerialRxEnqueue b vm = .ok ((vm.serialView.enqueue b).1, vm') ∧
      vm'.serialView = (vm.serialView.enqueue b).2 ∧
      ((vm.serialView.enqueue b).1 = false → vm' = vm) := by
  have hhead : checkIndex .serialRxFifo 256 vm.serialRxHead.toNat = pure () :=
    checkIndex_of_lt hv.head
  by_cases hfull : serialNext vm.serialRxHead = vm.serialRxTail
  · have hview := vm.serialView.enqueue_of_full hfull b
    refine ⟨vm, ?_, by rw [hview], fun _ => rfl⟩
    rw [hview]
    simp only [vmSerialRxEnqueue, bind_apply, get_apply, if_pos hfull, pure_apply]
  · by_cases hempty : vm.serialRxHead = vm.serialRxTail
    · have hidx : checkIndex .serialRxFifo 256 vm.serialRxTail.toNat = pure () :=
        checkIndex_of_lt hv.tail
      have hrun : vmSerialRxEnqueue b vm =
          ((if rxIntEnabled ((vm.withByte b).announcing.io portScreenAttribute) then
            triggerInterrupt intSerial else pure ()) >>= fun _ => pure true)
            (vm.withByte b).announcing := by
        rw [ite_bind]
        simp only [vmSerialRxEnqueue, bind_apply, get_apply, if_neg hfull, hhead, pure_apply,
          modify_apply, if_pos hempty, readFifo, hidx]
        rfl
      obtain ⟨vm', hraise, hraised⟩ := raiseIfEnabled_run (vm.withByte b).announcing
        (rxIntEnabled ((vm.withByte b).announcing.io portScreenAttribute) = true) hv.cores
      have hview : vm.serialView.enqueue b = (true, vm'.serialView) := by
        rw [hraised, announcing_serialView, vm.serialView.enqueue_of_empty hfull hempty]
        simp only [Vm.announcing, Function.update_self, Bool.decide_eq_true]
        rfl
      refine ⟨vm', ?_, by rw [hview], fun hr => ?_⟩
      · rw [hrun, hview]
        exact bind_ok hraise
      · rw [hview] at hr
        cases hr
    · have hview : vm.serialView.enqueue b = (true, (vm.withByte b).serialView) :=
        vm.serialView.enqueue_of_nonempty hfull hempty b
      refine ⟨vm.withByte b, ?_, by rw [hview], fun hr => ?_⟩
      · rw [hview]
        simp only [vmSerialRxEnqueue, bind_apply, get_apply, if_neg hfull, hhead, pure_apply,
          modify_apply, if_neg hempty]
        rfl
      · rw [hview] at hr
        cases hr

/-- `regs[r]` of a core. -/
def Vm.regValue (vm : Vm) (c : ℕ) (r : BitVec 8) : BitVec 32 :=
  if h : r.toNat < regCount then (vm.cpus c).regs ⟨r.toNat, h⟩ else 0

theorem readReg_ok {r : BitVec 8} {a : BitVec 32} (h : readReg c r vm = .ok (a, vm')) :
    a = vm.regValue c r ∧ vm' = vm := by
  simp only [readReg, bind_apply, getCpu_apply] at h
  unfold Vm.regValue
  split_ifs at h ⊢
  · obtain ⟨rfl, rfl⟩ := Prod.mk.inj (Except.ok.inj h)
    exact ⟨rfl, rfl⟩
  · cases h

theorem writeReg_ok {r : BitVec 8} {a : BitVec 32} (h : writeReg c r a vm = .ok ((), vm')) :
    vm'.serialView = vm.serialView ∧ vm'.regValue c r = a := by
  unfold writeReg at h
  split_ifs at h with hr
  · rw [modifyCpu_apply] at h
    obtain ⟨-, rfl⟩ := Prod.mk.inj (Except.ok.inj h)
    refine ⟨rfl, ?_⟩
    simp only [Vm.regValue, dif_pos hr, setCpu_cpus_self, Function.update_self]
  · cases h

theorem serialPop_ok {rd : BitVec 8} (h : serialPop c rd vm = .ok ((), vm')) :
    vm'.serialView = { vm.serialView with
      tail := if vm.serialView.tail ≠ vm.serialView.head then serialNext vm.serialView.tail
        else vm.serialView.tail } ∧ vm'.regValue c rd = vm.serialView.front := by
  simp only [serialPop, bind_apply, get_apply] at h
  by_cases hempty : vm.serialRxTail ≠ vm.serialRxHead
  · have hview : vm.serialView.tail ≠ vm.serialView.head := hempty
    rw [if_pos hempty] at h
    rw [if_pos hview, SerialView.front, if_pos hview]
    obtain ⟨b, s, hread, h⟩ := bind_eq_ok h
    obtain ⟨rfl, rfl⟩ := readFifo_ok hread
    obtain ⟨_, t, hmod, hwrite⟩ := bind_eq_ok h
    obtain ⟨-, rfl⟩ := Prod.mk.inj (Except.ok.inj hmod)
    exact writeReg_ok hwrite
  · have hview : ¬ vm.serialView.tail ≠ vm.serialView.head := hempty
    rw [if_neg hempty] at h
    rw [if_neg hview, SerialView.front, if_neg hview]
    exact writeReg_ok h

theorem serialMirror_ok (h : serialMirror vm = .ok ((), vm')) :
    vm'.serialView = { vm.serialView with
      attr := if vm.serialView.tail ≠ vm.serialView.head then
          vm.serialView.attr ||| serialStatusRxReady
        else vm.serialView.attr &&& ~~~serialStatusRxReady } ∧ vm'.cpus = vm.cpus := by
  simp only [serialMirror, bind_apply, get_apply] at h
  by_cases hempty : vm.serialRxTail ≠ vm.serialRxHead
  · have hview : vm.serialView.tail ≠ vm.serialView.head := hempty
    rw [if_pos hempty] at h
    rw [if_pos hview]
    obtain ⟨b, s, hread, h⟩ := bind_eq_ok h
    obtain ⟨rfl, rfl⟩ := readFifo_ok hread
    obtain ⟨_, t, hset, hset'⟩ := bind_eq_ok h
    obtain rfl := setIo_ok hset
    obtain rfl := setIo_ok hset'
    exact ⟨setPorts_serialView _ _, rfl⟩
  · have hview : ¬ vm.serialView.tail ≠ vm.serialView.head := hempty
    rw [if_neg hempty] at h
    rw [if_neg hview]
    obtain ⟨_, t, hset, hset'⟩ := bind_eq_ok h
    obtain rfl := setIo_ok hset
    obtain rfl := setIo_ok hset'
    exact ⟨setPorts_serialView _ _, rfl⟩

theorem triggerInterrupt_cpus {n : BitVec 32} (h : triggerInterrupt n vm = .ok ((), vm')) :
    vm'.cpus = vm.cpus := by
  rcases triggerInterruptTarget_cases h with ⟨-, rfl⟩ | ⟨-, rfl⟩ <;> rfl

theorem serialRaise_ok (hcores : 0 < vm.smpCores) (h : serialRaise vm = .ok ((), vm')) :
    vm'.serialView = { vm.serialView with
      pending := vm.serialView.pending ||
        decide (vm.serialView.tail ≠ vm.serialView.head ∧ rxIntEnabled vm.serialView.attr) } ∧
      vm'.cpus = vm.cpus := by
  simp only [serialRaise, bind_apply, get_apply] at h
  obtain ⟨t, hrun, hview⟩ := raiseIfEnabled_run vm
    (vm.serialRxTail ≠ vm.serialRxHead ∧ rxIntEnabled (vm.io portScreenAttribute)) hcores
  obtain ⟨-, rfl⟩ := Prod.mk.inj (Except.ok.inj (h.symm.trans hrun))
  refine ⟨hview, ?_⟩
  split_ifs at h
  · exact triggerInterrupt_cpus h
  · obtain ⟨-, rfl⟩ := Prod.mk.inj (Except.ok.inj h)
    rfl

/-- `IN` from `KEYBOARD` reads the view, and the register gets the first byte. -/
theorem inKeyboard_ok (hcores : 0 < vm.smpCores) (h : inKeyboard c i vm = .ok ((), vm')) :
    vm'.serialView = vm.serialView.read ∧ vm'.regValue c i.rd = vm.serialView.front := by
  obtain ⟨_, s, hpop, h⟩ := bind_eq_ok h
  obtain ⟨_, t, hmirror, h⟩ := bind_eq_ok h
  obtain ⟨_, u, hack, hraise⟩ := bind_eq_ok h
  obtain ⟨hs, hreg⟩ := serialPop_ok hpop
  obtain ⟨ht, htcpus⟩ := serialMirror_ok hmirror
  have hu := serialAck_serialView hack
  have hucpus : u.cpus = t.cpus := by
    rw [serialAck_eq hack]
    rfl
  have hucores : u.serialView.cores = vm.serialView.cores := by rw [hu, ht, hs]
  obtain ⟨hr, hrcpus⟩ := serialRaise_ok (show 0 < u.smpCores by
    rw [show u.smpCores = vm.smpCores from hucores]; exact hcores) hraise
  refine ⟨?_, ?_⟩
  · rw [hr, hu, ht, hs, SerialView.read]
    dsimp only
    split_ifs <;> simp_all
  · rw [← hreg, Vm.regValue, Vm.regValue, hrcpus, hucpus, htcpus]

theorem readIo_ok {port : ℕ} {a : BitVec 32} (h : readIo port vm = .ok (a, vm')) :
    a = vm.io port ∧ vm' = vm := by
  obtain ⟨_, t, hidx, hret⟩ := bind_eq_ok h
  obtain rfl := checkIndex_ok hidx
  obtain ⟨rfl, rfl⟩ := Prod.mk.inj (Except.ok.inj hret)
  exact ⟨rfl, rfl⟩

/-- The port that an `IN` or `OUT` names. -/
def Vm.portOf (vm : Vm) (c : ℕ) (i : Inst) : ℤ := (vm.regValue c i.rs1).toInt

structure InEffect (vm : Vm) (c : ℕ) (i : Inst) (vm' : Vm) : Prop where
  keyboard : vm.portOf c i = portKeyboard →
    vm'.serialView = vm.serialView.read ∧ vm'.regValue c i.rd = vm.serialView.front
  status : vm.portOf c i = portScreenAttribute →
    vm'.regValue c i.rd = vm.serialView.attr &&& 0xFF
  others : vm.portOf c i ≠ portKeyboard → vm'.serialView = vm.serialView

theorem inEffect_of_writeReg {a : BitVec 32} (hkey : vm.portOf c i ≠ portKeyboard)
    (hattr : vm.portOf c i = portScreenAttribute → a = vm.serialView.attr &&& 0xFF)
    (h : writeReg c i.rd a vm = .ok ((), vm')) : InEffect vm c i vm' := by
  obtain ⟨hview, hreg⟩ := writeReg_ok h
  exact ⟨fun hk => absurd hk hkey, fun ha => hreg.trans (hattr ha), fun _ => hview⟩

theorem execIn_ok (hcores : 0 < vm.smpCores) (h : execIn c i vm = .ok ((), vm')) :
    InEffect vm c i vm' := by
  have hports : portScreenAttribute = 2 ∧ portKeyboard = 3 ∧ portCpuCtxCsp = 0xF0 ∧
    portCpuCtxDsp = 0xF1 ∧ portCpuCtxIrqMask = 0xF2 := ⟨rfl, rfl, rfl, rfl, rfl⟩
  obtain ⟨a, s, hread, h⟩ := bind_eq_ok h
  obtain ⟨rfl, rfl⟩ := readReg_ok hread
  dsimp only at h
  generalize hport : (s.regValue c i.rs1).toInt = addr at h
  replace hport : s.portOf c i = addr := hport
  by_cases hrange : addr ≥ 0 ∧ addr < ioSize
  · rw [if_pos hrange, bind_ok (getCpu_apply c s)] at h
    generalize (if (s.cpus c).irqMasked ≠ 0 then (1 : BitVec 32) else 0) = masked at h
    split_ifs at h with hcsp hdsp hmask hkey hattr
    · exact inEffect_of_writeReg (by omega) (by omega) h
    · exact inEffect_of_writeReg (by omega) (by omega) h
    · exact inEffect_of_writeReg (by omega) (by omega) h
    · obtain ⟨hview, hreg⟩ := inKeyboard_ok hcores h
      exact ⟨fun _ => ⟨hview, hreg⟩, fun ha => by omega, fun hne => absurd (hport.trans hkey) hne⟩
    · obtain ⟨v, t, hio, hwrite⟩ := bind_eq_ok h
      obtain ⟨rfl, rfl⟩ := readIo_ok hio
      exact inEffect_of_writeReg (hport ▸ hkey) (fun _ => rfl) hwrite
    · obtain ⟨v, t, hio, hwrite⟩ := bind_eq_ok h
      obtain ⟨rfl, rfl⟩ := readIo_ok hio
      exact inEffect_of_writeReg (hport ▸ hkey) (fun ha => absurd (hport ▸ ha) hattr) hwrite
  · rw [if_neg hrange] at h
    cases h

/-! ## `IN` returns -/

theorem readReg_regValue {r : BitVec 8} (hr : r.toNat < regCount) :
    readReg c r vm = .ok (vm.regValue c r, vm) := by
  rw [readReg_of_lt hr, Vm.regValue, dif_pos hr]

theorem inRange_coreFree (c : ℕ) : CoreFree c fun s => s.serialView.InRange :=
  fun _ _ hs _ => ⟨hs.head, hs.tail, hs.cores⟩

theorem inRange_fifo : FifoRules fun s => s.serialView.InRange where
  tail _ hs := hs.tail
  cores _ hs := hs.cores
  pop _ hs := ⟨hs.head, serialNext_lt _, hs.cores⟩
  bitmap _ _ hs := ⟨hs.head, hs.tail, hs.cores⟩
  port := ⟨fun _ _ hs => ⟨hs.head, hs.tail, hs.cores⟩, fun _ _ hs => ⟨hs.head, hs.tail, hs.cores⟩,
    fun _ _ hs => ⟨hs.head, hs.tail, hs.cores⟩⟩

theorem inKeyboard_total (hv : vm.serialView.InRange) (hrd : i.rd.toNat < regCount) :
    ∃ vm', inKeyboard c i vm = .ok ((), vm') := by
  have htotal : Safe (fun s => s.serialView.InRange) (fun _ => False) (inKeyboard c i) :=
    inRange_fifo.inKeyboard (inRange_coreFree c) (.inl hrd)
  obtain ⟨_, vm', hrun, -⟩ := Meets.returns htotal hv
  exact ⟨vm', hrun⟩

/-- `IN` from one of the two serial ports always returns. -/
theorem execIn_total (hv : vm.serialView.InRange) (hrd : i.rd.toNat < regCount)
    (hrs1 : i.rs1.toNat < regCount)
    (hport : vm.portOf c i = portKeyboard ∨ vm.portOf c i = portScreenAttribute) :
    ∃ vm', execIn c i vm = .ok ((), vm') := by
  have hports : portScreenAttribute = 2 ∧ portKeyboard = 3 ∧ portCpuCtxCsp = 0xF0 ∧
    portCpuCtxDsp = 0xF1 ∧ portCpuCtxIrqMask = 0xF2 ∧ ioSize = 256 :=
    ⟨rfl, rfl, rfl, rfl, rfl, rfl⟩
  rw [execIn, bind_ok (readReg_regValue hrs1)]
  generalize haddr : (vm.regValue c i.rs1).toInt = addr
  replace haddr : vm.portOf c i = addr := haddr
  rw [haddr] at hport
  rw [if_pos (by omega), bind_ok (getCpu_apply c vm), if_neg (by omega), if_neg (by omega),
    if_neg (by omega)]
  by_cases hkey : addr = portKeyboard
  · rw [if_pos hkey]
    exact inKeyboard_total hv hrd
  · rw [if_neg hkey, if_pos (by tauto)]
    have htotal : Safe (fun s => s.serialView.InRange) (fun _ => False)
        (readIo portScreenAttribute >>= fun v => writeReg c i.rd (v &&& 0xFF)) :=
      safe_bind (safe_readIo (by decide)) fun _ => (inRange_coreFree c).writeReg (.inl hrd) _
    obtain ⟨_, vm', hrun, -⟩ := Meets.returns htotal hv
    exact ⟨vm', hrun⟩

/-- A write to any port but the control register leaves the serial part alone. -/
theorem acceptIo_serialView {addr : ℤ} {value : BitVec 32}
    (h : acceptIo addr value vm = .ok ((), vm')) :
    vm'.serialView =
      if addr = portScreenAttribute then vm.serialView.control value else vm.serialView := by
  have hio (t : Vm) (port : ℕ) (hport : port ≠ portScreenAttribute) (v : BitVec 32) :
      { t with io := Function.update t.io port v }.serialView = t.serialView := by
    simp only [Vm.serialView, Function.update_of_ne hport.symm]
    rfl
  cases acceptIo_portWrite h with
  | outside hrange =>
    have hsize : ioSize = 256 := rfl
    rw [if_neg (by simp only [portScreenAttribute]; omega)]
  | screen =>
    rw [if_neg (by decide)]
    exact hio { vm with stdout := value.setWidth 8 :: vm.stdout } portScreen (by decide) value
  | screenAttribute => exact setPorts_serialView vm _
  | diskCmd =>
    rw [if_neg (by decide)]
    exact hio { vm with disk := vm.disk.cmd value } portDiskCmd (by decide) value
  | diskLba =>
    rw [if_neg (by decide)]
    exact hio { vm with disk := { vm.disk with lba := value } } portDiskLba (by decide) value
  | diskMem =>
    rw [if_neg (by decide)]
    exact hio { vm with disk := { vm.disk with memAddr := value } } portDiskMem (by decide) value
  | diskCount =>
    rw [if_neg (by decide)]
    exact hio { vm with disk := { vm.disk with count := value } } portDiskCount (by decide) value
  | plain hattr _ =>
    rw [if_neg (Nat.cast_injective.ne hattr)]
    exact hio vm _ hattr value

theorem execOut_ok (h : execOut c i vm = .ok ((), vm')) :
    vm'.serialView =
      if vm.portOf c i = portScreenAttribute then vm.serialView.control (vm.regValue c i.rd)
      else vm.serialView := by
  have hports : portScreenAttribute = 2 ∧ portCpuCtxCsp = 0xF0 ∧ portCpuCtxDsp = 0xF1 ∧
    portCpuCtxIrqMask = 0xF2 := ⟨rfl, rfl, rfl, rfl⟩
  obtain ⟨a, s, hread, h⟩ := bind_eq_ok h
  obtain ⟨rfl, rfl⟩ := readReg_ok hread
  dsimp only at h
  generalize hport : (s.regValue c i.rs1).toInt = addr at h
  replace hport : s.portOf c i = addr := hport
  rw [hport]
  by_cases hrange : addr ≥ 0 ∧ addr < ioSize
  · rw [if_pos hrange] at h
    obtain ⟨v, t, hreg, h⟩ := bind_eq_ok h
    obtain ⟨rfl, rfl⟩ := readReg_ok hreg
    by_cases hctx : addr = portCpuCtxCsp ∨ addr = portCpuCtxDsp ∨ addr = portCpuCtxIrqMask
    · rw [if_neg (by omega)]
      split_ifs at h
      all_goals
        first
          | omega
          | obtain ⟨-, rfl⟩ := Prod.mk.inj (Except.ok.inj h)
            rfl
    · rw [if_neg (by tauto), if_neg (by tauto), if_neg (by tauto)] at h
      exact acceptIo_serialView h
  · rw [if_neg hrange] at h
    cases h

/-- `OUT` to the control register always returns. -/
theorem execOut_total (hv : vm.serialView.InRange) (hrd : i.rd.toNat < regCount)
    (hrs1 : i.rs1.toNat < regCount) (hport : vm.portOf c i = portScreenAttribute) :
    ∃ vm', execOut c i vm = .ok ((), vm') := by
  have hports : portScreen = 1 ∧ portScreenAttribute = 2 ∧ portCpuCtxCsp = 0xF0 ∧
    portCpuCtxDsp = 0xF1 ∧ portCpuCtxIrqMask = 0xF2 ∧ ioSize = 256 :=
    ⟨rfl, rfl, rfl, rfl, rfl, rfl⟩
  rw [execOut, bind_ok (readReg_regValue hrs1)]
  generalize haddr : (vm.regValue c i.rs1).toInt = addr
  replace haddr : vm.portOf c i = addr := haddr
  rw [haddr] at hport
  rw [if_pos (by omega), bind_ok (readReg_regValue hrd), if_neg (by omega), if_neg (by omega),
    if_neg (by omega), hport]
  have htotal : Safe (fun s => s.serialView.InRange) (fun _ => False)
      (acceptIo portScreenAttribute (vm.regValue c i.rd)) := inRange_fifo.port.acceptIo _ _
  obtain ⟨_, vm', hrun, -⟩ := Meets.returns htotal hv
  exact ⟨vm', hrun⟩

/-! ## Delivery -/

/-- Everything of the serial part but the pending vector survives interrupt entry. -/
theorem enterInterrupt_serialView {intNo : BitVec 32}
    (h : vmEnterInterrupt c intNo vm = .ok ((), vm')) : vm'.serialView = vm.serialView := by
  have hstable : Stable (fun s => s.serialView = vm.serialView) fun _ => True :=
    .of_view _ (fun _ => rfl) fun _ _ _ _ => rfl
  have hfree : CpuFree fun s => s.serialView = vm.serialView := fun _ _ _ hs _ => hs
  exact ((hfree.core c).vmEnterInterrupt (fun _ => trivial) hstable.memory intNo).ok rfl h

theorem deliverFirst_serialView {coreId : ℕ} {ws : List ℕ}
    (h : deliverFirst c coreId ws vm = .ok ((), vm')) :
    ∃ p, vm'.serialView = { vm.serialView with pending := p } ∧
      (p = true → vm.serialView.pending = true) := by
  induction ws with
  | nil =>
    obtain ⟨-, rfl⟩ := Prod.mk.inj (Except.ok.inj h)
    exact ⟨_, rfl, id⟩
  | cons w ws ih =>
    rw [deliverFirst] at h
    obtain ⟨s, _, hget, h⟩ := bind_eq_ok h
    obtain ⟨rfl, rfl⟩ := Prod.mk.inj (Except.ok.inj hget)
    obtain ⟨_, t, hidx, h⟩ := bind_eq_ok h
    obtain rfl := checkIndex_ok hidx
    dsimp only at h
    split_ifs at h with hzero
    · exact ih h
    · obtain ⟨_, u, hset, henter⟩ := bind_eq_ok h
      obtain ⟨-, rfl⟩ := Prod.mk.inj (Except.ok.inj hset)
      have hview := enterInterrupt_serialView henter
      refine ⟨_, hview.trans rfl, fun hp => ?_⟩
      replace hp := (setWord_pending _ _ _ 0 intSerial.toNat).symm.trans hp
      split_ifs at hp with hword
      · rw [BitVec.getLsbD_and, ← hword] at hp
        exact (Bool.and_eq_true _ _ ▸ hp).1
      · exact hp

theorem vmHandleInterrupts_serialView (h : vmHandleInterrupts c vm = .ok ((), vm')) :
    ∃ p, vm'.serialView = { vm.serialView with pending := p } ∧
      (p = true → vm.serialView.pending = true) := by
  obtain ⟨cpu, s, hcpu, h⟩ := bind_eq_ok h
  obtain ⟨rfl, rfl⟩ := Prod.mk.inj (Except.ok.inj hcpu)
  split_ifs at h
  · obtain ⟨-, rfl⟩ := Prod.mk.inj (Except.ok.inj h)
    exact ⟨_, rfl, id⟩
  · obtain ⟨-, rfl⟩ := Prod.mk.inj (Except.ok.inj h)
    exact ⟨_, rfl, id⟩
  · exact deliverFirst_serialView h

end Code

end LampVm
