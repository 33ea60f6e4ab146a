import LampVm.Serial

/-!
# The serial FIFO is a bounded queue

The serial line in any order of arriving bytes, port instructions and interrupt
deliveries, mixed with whatever else the machine does. The history of results is one of
a queue of 255 bytes, and the ready bit that the guest reads says whether the queue
holds any. Interrupts follow the queue as long as the guest does not enable them over
bytes that arrived before.
-/
namespace LampVm

open Contract Transition

local instance : NeZero serialFifoSize := ⟨by decide⟩

/-! ## The queue -/

def SerialView.headIdx (v : SerialView) : Fin serialFifoSize := Fin.ofNat _ v.head.toNat
def SerialView.tailIdx (v : SerialView) : Fin serialFifoSize := Fin.ofNat _ v.tail.toNat
def SerialView.cells (v : SerialView) (k : Fin serialFifoSize) : BitVec 8 := v.fifo k

/-- The bytes that have arrived and have not been read, the oldest first. -/
def SerialView.queue (v : SerialView) : List (BitVec 8) :=
  Ring.contents v.cells v.tailIdx v.headIdx

section Queue

variable {v : SerialView}

theorem ofNat_serialNext (k : BitVec 16) :
    Fin.ofNat serialFifoSize (serialNext k).toNat = Fin.ofNat serialFifoSize k.toNat + 1 := by
  rw [serialNext_toNat, ← Ring.ofNat_succ]
  apply Fin.ext
  simp only [Fin.val_ofNat]
  exact Nat.mod_mod _ 256

theorem idx_eq_iff {j k : BitVec 16} (hj : j.toNat < serialFifoSize) (hk : k.toNat < serialFifoSize) :
    Fin.ofNat serialFifoSize j.toNat = Fin.ofNat serialFifoSize k.toNat ↔ j = k := by
  rw [Fin.ext_iff, Fin.val_ofNat, Fin.val_ofNat, Nat.mod_eq_of_lt hj, Nat.mod_eq_of_lt hk,
    BitVec.toNat_inj]

theorem SerialView.InRange.queue_eq_nil_iff (h : v.InRange) : v.queue = [] ↔ v.tail = v.head := by
  rw [SerialView.queue, Ring.contents_eq_nil_iff]
  exact idx_eq_iff h.tail h.head

/-- The FIFO refuses a byte when 255 are queued. -/
theorem SerialView.InRange.full_iff (h : v.InRange) :
    serialNext v.head = v.tail ↔ v.queue.length = 255 := by
  rw [SerialView.queue, Ring.length_contents]
  rw [show (255 : ℕ) = serialFifoSize - 1 from rfl, Ring.size_eq_iff_full, SerialView.headIdx,
    ← ofNat_serialNext]
  exact (idx_eq_iff (serialNext_lt _) h.tail).symm

theorem SerialView.queue_length_le (v : SerialView) : v.queue.length ≤ 255 := by
  rw [SerialView.queue, Ring.length_contents]
  exact Nat.le_of_lt_succ (Ring.size_lt v.tailIdx v.headIdx)

/-- Storing a byte appends it. -/
theorem SerialView.InRange.queue_push (h : v.InRange) (hfull : serialNext v.head ≠ v.tail)
    (b : BitVec 8) (attr : BitVec 32) (pending : Bool) :
    (SerialView.mk (Function.update v.fifo v.head.toNat b) (serialNext v.head) v.tail attr v.cores
      pending).queue = v.queue ++ [b] := by
  have hidx : v.headIdx.val = v.head.toNat := Nat.mod_eq_of_lt h.head
  have hcells : (SerialView.mk (Function.update v.fifo v.head.toNat b) (serialNext v.head) v.tail
      attr v.cores pending).cells = Function.update v.cells v.headIdx b := by
    funext k
    by_cases hk : k = v.headIdx
    · rw [hk, Function.update_self, SerialView.cells, hidx]
      exact Function.update_self _ _ _
    · have hne : k.val ≠ v.head.toNat := fun heq => hk (Fin.ext (heq.trans hidx.symm))
      rw [Function.update_of_ne hk, SerialView.cells]
      exact Function.update_of_ne hne _ _
  have hhead : (SerialView.mk (Function.update v.fifo v.head.toNat b) (serialNext v.head) v.tail
      attr v.cores pending).headIdx = v.headIdx + 1 := ofNat_serialNext v.head
  have hne : v.headIdx + 1 ≠ v.tailIdx := by
    rw [SerialView.headIdx, ← ofNat_serialNext]
    exact fun heq => hfull ((idx_eq_iff (serialNext_lt _) h.tail).mp heq)
  rw [SerialView.queue, hcells, hhead]
  exact Ring.contents_push hne b

/-- Reading moves the tail past the first byte. -/
theorem SerialView.InRange.queue_pop (h : v.InRange) (hne : v.tail ≠ v.head) :
    v.queue = v.fifo v.tail.toNat ::
      Ring.contents v.cells (Fin.ofNat _ (serialNext v.tail).toNat) v.headIdx := by
  have hidx : v.tailIdx.val = v.tail.toNat := Nat.mod_eq_of_lt h.tail
  have hne' : v.tailIdx ≠ v.headIdx := fun heq => hne ((idx_eq_iff h.tail h.head).mp heq)
  rw [SerialView.queue, Ring.contents_pop hne', ofNat_serialNext]
  rw [SerialView.cells, hidx]
  rfl

end Queue

/-! ## The operations on the queue -/

/-- The indices are in range, and the ready bit says whether the queue holds a byte. -/
structure SerialView.Valid (v : SerialView) : Prop where
  range : v.InRange
  ready : v.attr &&& serialStatusRxReady ≠ 0 ↔ v.queue ≠ []

section Operations

variable {v : SerialView}

theorem readyBit_iff (x : BitVec 32) : x &&& serialStatusRxReady ≠ 0 ↔ x.getLsbD 0 = true := by
  have hone : serialStatusRxReady = BitVec.twoPow 32 0 := rfl
  have hne : BitVec.twoPow 32 0 ≠ 0 := by decide
  rw [hone, BitVec.and_twoPow]
  split_ifs with hbit
  · exact iff_of_true hne hbit
  · exact iff_of_false (not_not.mpr rfl) hbit

theorem readyBit_set (x : BitVec 32) : (x ||| serialStatusRxReady) &&& serialStatusRxReady ≠ 0 := by
  rw [readyBit_iff]
  simp

theorem readyBit_clear (x : BitVec 32) :
    ¬ (x &&& ~~~serialStatusRxReady) &&& serialStatusRxReady ≠ 0 := by
  rw [readyBit_iff]
  simp

theorem readyBit_mask (x : BitVec 32) :
    x &&& 0xFF &&& serialStatusRxReady ≠ 0 ↔ x &&& serialStatusRxReady ≠ 0 := by
  rw [readyBit_iff, readyBit_iff]
  simp

/-- The value that the guest writes lands above the status byte. -/
theorem readyBit_control (x value : BitVec 32) :
    (x &&& 0xFF ||| (value &&& 0xFF) <<< 8) &&& serialStatusRxReady ≠ 0 ↔
      x &&& serialStatusRxReady ≠ 0 := by
  rw [readyBit_iff, readyBit_iff]
  simp

theorem SerialView.Valid.enqueue_eq_false_iff (h : v.Valid) (b : BitVec 8) :
    (v.enqueue b).1 = false ↔ v.queue.length = 255 := by
  rw [← h.range.full_iff]
  by_cases hfull : serialNext v.head = v.tail
  · simp [hfull, v.enqueue_of_full hfull]
  · by_cases hempty : v.head = v.tail
    · simp [v.enqueue_of_empty hfull hempty, hfull]
    · simp [v.enqueue_of_nonempty hfull hempty, hfull]

/-- An accepted byte is appended. -/
theorem SerialView.Valid.enqueue_queue (h : v.Valid) {b : BitVec 8}
    (haccept : (v.enqueue b).1 = true) : (v.enqueue b).2.queue = v.queue ++ [b] := by
  by_cases hfull : serialNext v.head = v.tail
  · rw [v.enqueue_of_full hfull] at haccept
    cases haccept
  · by_cases hempty : v.head = v.tail
    · rw [v.enqueue_of_empty hfull hempty]
      exact h.range.queue_push hfull b _ _
    · rw [v.enqueue_of_nonempty hfull hempty]
      exact h.range.queue_push hfull b _ _

theorem SerialView.Valid.enqueue (h : v.Valid) (b : BitVec 8) : (v.enqueue b).2.Valid := by
  by_cases hfull : serialNext v.head = v.tail
  · rw [v.enqueue_of_full hfull]
    exact h
  · by_cases hempty : v.head = v.tail
    · rw [v.enqueue_of_empty hfull hempty]
      refine ⟨⟨serialNext_lt _, h.range.tail, h.range.cores⟩, ?_⟩
      rw [h.range.queue_push hfull]
      exact iff_of_true (readyBit_set _) (by simp)
    · rw [v.enqueue_of_nonempty hfull hempty]
      refine ⟨⟨serialNext_lt _, h.range.tail, h.range.cores⟩, ?_⟩
      rw [h.range.queue_push hfull, h.ready]
      refine iff_of_true ?_ (by simp)
      exact fun hnil => hempty (h.range.queue_eq_nil_iff.mp hnil).symm

/-- Where the tail stands after a read. -/
theorem SerialView.read_indices (v : SerialView) : v.read.fifo = v.fifo ∧ v.read.head = v.head ∧
    v.read.tail = (if v.tail ≠ v.head then serialNext v.tail else v.tail) ∧
    v.read.cores = v.cores := by
  simp only [SerialView.read]
  split_ifs <;> exact ⟨rfl, rfl, rfl, rfl⟩

theorem SerialView.Valid.read_queue (h : v.Valid) : v.read.queue = v.queue.tail := by
  obtain ⟨hfifo, hhead, htail, -⟩ := v.read_indices
  have hqueue : v.read.queue = Ring.contents v.cells (Fin.ofNat _ v.read.tail.toNat) v.headIdx := by
    rw [SerialView.queue, SerialView.tailIdx, SerialView.headIdx, SerialView.headIdx, hhead]
    congr 1
    funext k
    rw [SerialView.cells, SerialView.cells, hfifo]
  by_cases hne : v.tail ≠ v.head
  · rw [hqueue, htail, if_pos hne, h.range.queue_pop hne, List.tail_cons]
  · have hnil : v.queue = [] := h.range.queue_eq_nil_iff.mpr (not_not.mp hne)
    rw [hqueue, htail, if_neg hne, hnil, List.tail_nil]
    exact hnil

/-- The word read is the first byte, or zero. -/
theorem SerialView.Valid.front_eq (h : v.Valid) :
    v.front = (v.queue.head?.getD 0).setWidth 32 := by
  unfold SerialView.front
  split_ifs with hne
  · rw [h.range.queue_pop hne]
    rfl
  · rw [h.range.queue_eq_nil_iff.mpr (not_not.mp hne)]
    rfl

theorem SerialView.Valid.read_range (h : v.Valid) : v.read.InRange := by
  obtain ⟨-, hhead, htail, hcores⟩ := v.read_indices
  refine ⟨hhead ▸ h.range.head, ?_, hcores ▸ h.range.cores⟩
  rw [htail]
  split_ifs
  · exact serialNext_lt _
  · exact h.range.tail

theorem SerialView.Valid.read (h : v.Valid) : v.read.Valid := by
  refine ⟨h.read_range, ?_⟩
  rw [ne_eq v.read.queue, h.read_range.queue_eq_nil_iff]
  obtain ⟨-, hhead, htail, -⟩ := v.read_indices
  rw [hhead, htail]
  unfold SerialView.read
  dsimp only
  generalize (if v.tail ≠ v.head then serialNext v.tail else v.tail) = tail
  by_cases hmore : tail ≠ v.head
  · rw [if_pos hmore]
    exact iff_of_true (readyBit_set _) hmore
  · rw [if_neg hmore]
    exact iff_of_false (readyBit_clear _) hmore

theorem SerialView.Valid.control (h : v.Valid) (value : BitVec 32) : (v.control value).Valid :=
  ⟨⟨h.range.head, h.range.tail, h.range.cores⟩, (readyBit_control _ _).trans h.ready⟩

theorem SerialView.Valid.withPending (h : v.Valid) (p : Bool) : { v with pending := p }.Valid :=
  ⟨⟨h.range.head, h.range.tail, h.range.cores⟩, h.ready⟩

end Operations

/-! ## The parties -/

/-- The machine, and whether core 0 has consumed a serial interrupt since the FIFO last
became non-empty or a byte was last read. -/
structure SerialRace where
  vm : Vm
  consumed : Bool

inductive SerialLabel
  | enqueue (b : BitVec 8)
  | input (c : ℕ) (i : Inst)
  | output (c : ℕ) (i : Inst)
  | deliver
  | other

/-- The rest of the program leaves the serial line alone and consumes no serial
interrupt. -/
structure SameSerial (s t : Vm) : Prop where
  view : t.serialView = { s.serialView with pending := t.serialView.pending }
  pending : s.serialView.pending = true → t.serialView.pending = true

def serialRace (memorySize : ℕ) (smpCores : ℤ) : System SerialRace SerialLabel where
  init s := (machine memorySize smpCores).init s.vm ∧ s.consumed = false
  step s l t :=
    match l with
    | .enqueue b => ∃ r, vmSerialRxEnqueue b s.vm = .ok (r, t.vm) ∧
      t.consumed = if r ∧ s.vm.serialRxHead = s.vm.serialRxTail then false else s.consumed
    | .input c i => c < s.vm.smpCores ∧ execIn c i s.vm = .ok ((), t.vm) ∧
      t.consumed =
        if s.vm.portOf c i = portKeyboard ∧ s.vm.serialRxTail ≠ s.vm.serialRxHead then false
        else s.consumed
    | .output c i => c < s.vm.smpCores ∧ execOut c i s.vm = .ok ((), t.vm) ∧
      t.consumed = s.consumed
    | .deliver => vmHandleInterrupts 0 s.vm = .ok ((), t.vm) ∧
      t.consumed = (s.consumed || s.vm.pending 0 intSerial.toNat &&
        !t.vm.pending 0 intSerial.toNat)
    | .other => SameSerial s.vm t.vm ∧ t.consumed = s.consumed

/-! ## The history -/

inductive SerialNote
  | accepted (b : BitVec 8)
  | refused (b : BitVec 8)
  | delivered (v : BitVec 32)
  | empty (v : BitVec 32)
  | status (v : BitVec 32)
  deriving DecidableEq, Repr

/-- What the guest and the host learn from a step: the results of the calls. -/
def serialNotes (s : SerialRace) : SerialLabel → List SerialNote
  | .enqueue b =>
    match vmSerialRxEnqueue b s.vm with
    | .ok (true, _) => [.accepted b]
    | .ok (false, _) => [.refused b]
    | .error _ => []
  | .input c i =>
    match execIn c i s.vm with
    | .ok (_, vm) =>
      if s.vm.portOf c i = portKeyboard then
        if s.vm.serialRxTail ≠ s.vm.serialRxHead then [.delivered (vm.regValue c i.rd)]
        else [.empty (vm.regValue c i.rd)]
      else if s.vm.portOf c i = portScreenAttribute then [.status (vm.regValue c i.rd)]
      else []
    | .error _ => []
  | _ => []

/-- A queue of at most 255 bytes: a byte is refused when it is full, reading takes the
first byte or finds it empty, and the status has the ready bit when it is not. -/
def serialAllows : List (BitVec 8) → SerialNote → Prop
  | q, .accepted _ => q.length < 255
  | q, .refused _ => q.length = 255
  | q, .delivered v => ∃ b rest, q = b :: rest ∧ v = b.setWidth 32
  | q, .empty v => q = [] ∧ v = 0
  | q, .status v => v &&& serialStatusRxReady ≠ 0 ↔ q ≠ []

@[simp] def serialApply : List (BitVec 8) → SerialNote → List (BitVec 8)
  | q, .accepted b => q ++ [b]
  | q, .delivered _ => q.tail
  | q, .refused _ | q, .empty _ | q, .status _ => q

def acceptedBytes (log : List SerialNote) : List (BitVec 8) :=
  log.filterMap fun
    | .accepted b => some b
    | _ => none

def deliveredWords (log : List SerialNote) : List (BitVec 32) :=
  log.filterMap fun
    | .delivered v => some v
    | _ => none

/-- In a legal history what has been accepted is what has been delivered and what is
still queued, in this order. -/
theorem legal_conservation {q : List (BitVec 8)} {log : List SerialNote}
    (h : Legal serialAllows serialApply q log) :
    (q ++ acceptedBytes log).map (BitVec.setWidth 32) =
      deliveredWords log ++ (log.foldl serialApply q).map (BitVec.setWidth 32) := by
  induction log generalizing q with
  | nil => simp [acceptedBytes, deliveredWords]
  | cons x log ih =>
    obtain ⟨hx, hrest⟩ := h
    have hih := ih hrest
    simp only [acceptedBytes, deliveredWords] at hih ⊢
    cases x with
    | accepted b => simpa using hih
    | delivered v =>
      obtain ⟨b, rest, rfl, rfl⟩ := hx
      simpa using hih
    | refused b => exact hih
    | empty v => exact hih
    | status v => exact hih

/-! ## The steps -/

section Steps

variable {M : ℕ} {smpCores : ℤ} {s t : SerialRace}

/-- What a step does to the serial part. -/
def SerialEffect (s : SerialRace) (l : SerialLabel) (t : SerialRace) : Prop :=
  match l with
  | .enqueue b => t.vm.serialView = (s.vm.serialView.enqueue b).2
  | .input c i => t.vm.serialView =
      if s.vm.portOf c i = portKeyboard then s.vm.serialView.read else s.vm.serialView
  | .output c i => t.vm.serialView =
      if s.vm.portOf c i = portScreenAttribute then
        s.vm.serialView.control (s.vm.regValue c i.rd)
      else s.vm.serialView
  | .deliver | .other => ∃ p, t.vm.serialView = { s.vm.serialView with pending := p }

theorem serialEffect_step (hv : s.vm.serialView.Valid) (l : SerialLabel)
    (h : (serialRace M smpCores).step s l t) : SerialEffect s l t := by
  cases l with
  | enqueue b =>
    obtain ⟨r, hrun, -⟩ := h
    obtain ⟨vm', hrun', hview, -⟩ := vmSerialRxEnqueue_run hv.range b
    obtain ⟨-, heq⟩ := Prod.mk.inj (Except.ok.inj (hrun.symm.trans hrun'))
    exact (congrArg Vm.serialView heq).trans hview
  | input c i =>
    obtain ⟨-, hrun, -⟩ := h
    have heffect := execIn_ok hv.range.cores hrun
    simp only [SerialEffect]
    split_ifs with hkey
    · exact (heffect.keyboard hkey).1
    · exact heffect.others hkey
  | output c i => exact execOut_ok h.2.1
  | deliver =>
    obtain ⟨p, hview, -⟩ := vmHandleInterrupts_serialView h.1
    exact ⟨p, hview⟩
  | other => exact ⟨_, h.1.view⟩

theorem valid_step (hv : s.vm.serialView.Valid) (l : SerialLabel)
    (h : (serialRace M smpCores).step s l t) : t.vm.serialView.Valid := by
  have heffect := serialEffect_step hv l h
  cases l with
  | enqueue b => exact (congrArg SerialView.Valid heffect).mpr (hv.enqueue b)
  | input c i =>
    simp only [SerialEffect] at heffect
    rw [heffect]
    split_ifs
    · exact hv.read
    · exact hv
  | output c i =>
    simp only [SerialEffect] at heffect
    rw [heffect]
    split_ifs
    · exact hv.control _
    · exact hv
  | deliver | other =>
    obtain ⟨p, hp⟩ := heffect
    exact hp ▸ hv.withPending p

/-- What a step must do to be one of the queue. -/
abbrev SerialStepOk (s : SerialRace) (l : SerialLabel) (t : SerialRace) : Prop :=
  Legal serialAllows serialApply s.vm.serialView.queue (serialNotes s l) ∧
    t.vm.serialView.queue = (serialNotes s l).foldl serialApply s.vm.serialView.queue

theorem serialStep_enqueue (hv : s.vm.serialView.Valid) {b : BitVec 8}
    (h : (serialRace M smpCores).step s (.enqueue b) t) : SerialStepOk s (.enqueue b) t := by
  have hview : t.vm.serialView = (s.vm.serialView.enqueue b).2 :=
    serialEffect_step hv (.enqueue b) h
  obtain ⟨vm', hrun, -⟩ := vmSerialRxEnqueue_run hv.range b
  have hrefuse := hv.enqueue_eq_false_iff b
  simp only [SerialStepOk, serialNotes, hrun, hview]
  cases hr : (s.vm.serialView.enqueue b).1 with
  | true =>
    have hlen := s.vm.serialView.queue_length_le
    have hroom : s.vm.serialView.queue.length ≠ 255 := by
      intro hfull
      rw [hrefuse.mpr hfull] at hr
      cases hr
    exact ⟨⟨by change _ < 255; omega, trivial⟩, hv.enqueue_queue hr⟩
  | false =>
    have hfull := hv.range.full_iff.mpr (hrefuse.mp hr)
    refine ⟨⟨hrefuse.mp hr, trivial⟩, ?_⟩
    rw [s.vm.serialView.enqueue_of_full hfull]
    rfl

theorem serialStep_input (hv : s.vm.serialView.Valid) {c : ℕ} {i : Inst}
    (h : (serialRace M smpCores).step s (.input c i) t) : SerialStepOk s (.input c i) t := by
  have hview := serialEffect_step hv (.input c i) h
  obtain ⟨-, hrun, -⟩ := h
  have heffect := execIn_ok hv.range.cores hrun
  simp only [SerialEffect] at hview
  simp only [SerialStepOk, serialNotes, hrun, hview]
  by_cases hkey : s.vm.portOf c i = portKeyboard
  · have hreg : t.vm.regValue c i.rd = (s.vm.serialView.queue.head?.getD 0).setWidth 32 :=
      (heffect.keyboard hkey).2.trans hv.front_eq
    simp only [if_pos hkey, hv.read_queue, hreg]
    have hnil : s.vm.serialView.queue = [] ↔ s.vm.serialRxTail = s.vm.serialRxHead :=
      hv.range.queue_eq_nil_iff
    generalize s.vm.serialView.queue = q at hnil
    cases q with
    | nil => simp [hnil.mp rfl, Legal, serialAllows]
    | cons b rest =>
      have hne : s.vm.serialRxTail ≠ s.vm.serialRxHead := fun heq => by simpa using hnil.mpr heq
      rw [if_pos hne]
      exact ⟨⟨⟨b, rest, rfl, rfl⟩, trivial⟩, rfl⟩
  · simp only [if_neg hkey]
    by_cases hattr : s.vm.portOf c i = portScreenAttribute
    · simp only [if_pos hattr, heffect.status hattr]
      exact ⟨⟨(readyBit_mask _).trans hv.ready, trivial⟩, rfl⟩
    · simp only [if_neg hattr]
      exact ⟨trivial, rfl⟩

theorem serialStep_ok (hv : s.vm.serialView.Valid) (l : SerialLabel)
    (h : (serialRace M smpCores).step s l t) : SerialStepOk s l t := by
  cases l with
  | enqueue b => exact serialStep_enqueue hv h
  | input c i => exact serialStep_input hv h
  | output c i =>
    have hview := serialEffect_step hv (.output c i) h
    refine ⟨trivial, ?_⟩
    simp only [SerialEffect] at hview
    rw [hview]
    split_ifs <;> rfl
  | deliver =>
    obtain ⟨p, hview⟩ := serialEffect_step hv .deliver h
    exact ⟨trivial, by rw [hview]; rfl⟩
  | other =>
    obtain ⟨p, hview⟩ := serialEffect_step hv .other h
    exact ⟨trivial, by rw [hview]; rfl⟩

/-! ## After booting -/

theorem serial_initIvt {vm vm' : Vm} {v : SerialView} (h : initIvt vm = .ok ((), vm'))
    (hv : { vm.serialView with pending := false } = v) :
    { vm'.serialView with pending := false } = v := by
  have hstable : Stable (fun s => { s.serialView with pending := false } = v) fun _ => True :=
    .of_view _ (fun _ => rfl) fun _ _ _ _ => rfl
  have hsafe : Safe (fun s : Vm => { s.serialView with pending := false } = v) (fun _ => True)
      initIvt :=
    safe_initIvt hstable.vmWrite64 (fun _ _ ht => ht) fun _ ht => ht
  exact hsafe.ok hv h

/-- The machine starts with an empty FIFO, interrupts disabled and none pending. -/
theorem serial_init {vm : Vm} (h : (machine M smpCores).init vm) : vm.serialView =
    ⟨fun _ => 0, 0, 0, serialStatusTxReady, coreCount smpCores, false⟩ := by
  have hbitmap {i : ℕ} := init_bitmap h (i := i)
  obtain ⟨clock, memcheck, image, program, data, layout, hboot⟩ := h
  have hcores := (boot_inv hboot).smpCores
  obtain ⟨vm₀, hcreate, hivt⟩ := boot_eq_ok hboot
  obtain rfl := vmCreate_ok hcreate
  have hview := serial_initIvt hivt rfl
  have hpending : vm.serialView.pending = false := by
    have hpos := coreCount_pos smpCores
    have hzero : vm.interruptBitmap 0 = 0 := hbitmap (by rw [hcores]; change 0 < _ * 4; omega)
    change (vm.interruptBitmap 0).getLsbD 3 = false
    rw [hzero]
    rfl
  calc vm.serialView = { vm.serialView with pending := false } := by rw [← hpending]
    _ = _ := hview

theorem valid_init {vm : Vm} (h : (machine M smpCores).init vm) :
    vm.serialView.Valid ∧ vm.serialView.queue = [] := by
  have hzero : (0 : BitVec 16).toNat < serialFifoSize := by decide
  have hready : ¬ serialStatusTxReady &&& serialStatusRxReady ≠ 0 := by decide
  have hrange : vm.serialView.InRange := by
    rw [serial_init h]
    exact ⟨hzero, hzero, coreCount_pos smpCores⟩
  have hqueue : vm.serialView.queue = [] := by
    rw [hrange.queue_eq_nil_iff, serial_init h]
  refine ⟨⟨hrange, ?_⟩, hqueue⟩
  rw [hqueue, serial_init h]
  exact iff_of_false hready (not_not.mpr rfl)

/-- What the two kinds of call return in a state. -/
structure SerialAnswers (vm : Vm) : Prop where
  enqueue : ∀ b, ∃ r vm', vmSerialRxEnqueue b vm = .ok (r, vm') ∧
    (r = false ↔ vm.serialView.queue.length = 255) ∧ (r = false → vm' = vm)
  keyboard : ∀ c i, i.rd.toNat < regCount → i.rs1.toNat < regCount →
    vm.portOf c i = portKeyboard → ∃ vm', execIn c i vm = .ok ((), vm') ∧
      vm'.regValue c i.rd = (vm.serialView.queue.head?.getD 0).setWidth 32 ∧
      vm'.serialView.queue = vm.serialView.queue.tail
  status : ∀ c i, i.rd.toNat < regCount → i.rs1.toNat < regCount →
    vm.portOf c i = portScreenAttribute → ∃ vm', execIn c i vm = .ok ((), vm') ∧
      (vm'.regValue c i.rd &&& serialStatusRxReady ≠ 0 ↔ vm.serialView.queue ≠ [])

theorem SerialView.Valid.answers {vm : Vm} (hv : vm.serialView.Valid) : SerialAnswers vm where
  enqueue b := by
    obtain ⟨vm', hrun, -, hsame⟩ := vmSerialRxEnqueue_run hv.range b
    exact ⟨_, vm', hrun, hv.enqueue_eq_false_iff b, hsame⟩
  keyboard c i hrd hrs1 hport := by
    obtain ⟨vm', hrun⟩ := execIn_total hv.range hrd hrs1 (.inl hport)
    obtain ⟨hview, hreg⟩ := (execIn_ok hv.range.cores hrun).keyboard hport
    exact ⟨vm', hrun, hreg.trans hv.front_eq, by rw [hview, hv.read_queue]⟩
  status c i hrd hrs1 hport := by
    obtain ⟨vm', hrun⟩ := execIn_total hv.range hrd hrs1 (.inr hport)
    refine ⟨vm', hrun, ?_⟩
    rw [(execIn_ok hv.range.cores hrun).status hport]
    exact (readyBit_mask _).trans hv.ready

end Steps

variable {M : ℕ} {smpCores : ℤ} {s t : SerialRace}

/-- Every history of the serial line is one of a queue of 255 bytes. The bytes accepted
are the bytes delivered and the bytes still queued, in this order, and each call answers
as the queue does. -/
theorem serial_refines_queue {log : List SerialNote}
    (h : Reachable ((serialRace M smpCores).logged serialNotes) (s, log)) :
    Legal serialAllows serialApply [] log ∧
      log.foldl serialApply [] = s.vm.serialView.queue ∧
      (acceptedBytes log).map (BitVec.setWidth 32) =
        deliveredWords log ++ s.vm.serialView.queue.map (BitVec.setWidth 32) ∧
      SerialAnswers s.vm := by
  have hinit (s : SerialRace) (hs : (serialRace M smpCores).init s) :
      s.vm.serialView.Valid ∧ s.vm.serialView.queue = [] := valid_init hs.1
  have hstep (s : SerialRace) (l : SerialLabel) (t : SerialRace) (q : List (BitVec 8))
      (hR : s.vm.serialView.Valid ∧ s.vm.serialView.queue = q)
      (hs : (serialRace M smpCores).step s l t) :
      Legal serialAllows serialApply q (serialNotes s l) ∧
        t.vm.serialView.Valid ∧
          t.vm.serialView.queue = (serialNotes s l).foldl serialApply q := by
    obtain ⟨hv, rfl⟩ := hR
    obtain ⟨hlegal, hqueue⟩ := serialStep_ok hv l hs
    exact ⟨hlegal, valid_step hv l hs, hqueue⟩
  obtain ⟨hlegal, hv, hqueue⟩ := h.refines hinit hstep
  refine ⟨hlegal, hqueue.symm, ?_, hv.answers⟩
  rw [hqueue]
  exact legal_conservation hlegal

/-- A byte may arrive at any time while there is room. -/
theorem exists_received (M : ℕ) (smpCores : ℤ) (hv : s.vm.serialView.Valid)
    (hroom : s.vm.serialView.queue.length ≠ 255) (b : BitVec 8) : ∃ t,
    (serialRace M smpCores).step s (.enqueue b) t ∧
    serialNotes s (.enqueue b) = [.accepted b] ∧
    t.vm.serialView = (s.vm.serialView.enqueue b).2 ∧
    t.vm.serialView.queue = s.vm.serialView.queue ++ [b] ∧
    (s.consumed = false → t.consumed = false) := by
  obtain ⟨vm', hrun, hview, -⟩ := vmSerialRxEnqueue_run hv.range b
  have haccept : (s.vm.serialView.enqueue b).1 = true := by
    cases hr : (s.vm.serialView.enqueue b).1 with
    | true => rfl
    | false => exact absurd ((hv.enqueue_eq_false_iff b).mp hr) hroom
  rw [haccept] at hrun
  refine ⟨⟨vm', if true ∧ s.vm.serialRxHead = s.vm.serialRxTail then false else s.consumed⟩,
    ⟨true, hrun, rfl⟩, ?_, hview, ?_, ?_⟩
  · simp only [serialNotes, hrun]
  · rw [hview, hv.enqueue_queue haccept]
  · intro hconsumed
    simp [hconsumed]

/-- `IN` into register 1 from the port that register 0 names. -/
def inInst : Inst := ⟨0, 1, 0, 0, 0⟩

/-- The registers of core 0 set up for reading a byte. -/
def Vm.polling (vm : Vm) : Vm :=
  vm.setCpu 0 { vm.cpus 0 with regs := fun r => if r.val = 0 then 3 else 1 }

/-- A guest may load its registers and read the first byte at any time. -/
theorem exists_input (M : ℕ) (smpCores : ℤ) (hv : s.vm.serialView.Valid) {b : BitVec 8}
    {rest : List (BitVec 8)} (hqueue : s.vm.serialView.queue = b :: rest) : ∃ u t,
    (serialRace M smpCores).step s .other u ∧ (serialRace M smpCores).step u (.input 0 inInst) t ∧
    serialNotes u (.input 0 inInst) = [.delivered (b.setWidth 32)] ∧
    t.vm.serialView.Valid ∧ t.vm.serialView.queue = rest := by
  obtain ⟨u, hu⟩ : ∃ u : SerialRace, u = ⟨s.vm.polling, s.consumed⟩ := ⟨_, rfl⟩
  have hother : (serialRace M smpCores).step s .other u := by
    rw [hu]
    exact ⟨⟨rfl, id⟩, rfl⟩
  have hport : u.vm.portOf 0 inInst = portKeyboard := by
    rw [hu]
    simp [Vm.portOf, Vm.regValue, Vm.polling, inInst]
  have hview : u.vm.serialView = s.vm.serialView := by
    rw [hu]
    rfl
  have hv' : u.vm.serialView.Valid := hview ▸ hv
  rw [← hview] at hqueue
  obtain ⟨vm', hrun⟩ := execIn_total hv'.range (by decide) (by decide) (.inl hport)
  have hstep : (serialRace M smpCores).step u (.input 0 inInst) ⟨vm', _⟩ :=
    ⟨hv'.range.cores, hrun, rfl⟩
  have hreg : vm'.regValue 0 inInst.rd = b.setWidth 32 := by
    rw [((execIn_ok hv'.range.cores hrun).keyboard hport).2, hv'.front_eq, hqueue]
    rfl
  have hne : u.vm.serialRxTail ≠ u.vm.serialRxHead := by
    intro heq
    have hnil := hv'.range.queue_eq_nil_iff.mpr heq
    rw [hqueue] at hnil
    cases hnil
  have hnotes : serialNotes u (.input 0 inInst) = [.delivered (b.setWidth 32)] := by
    simp only [serialNotes, hrun, if_pos hport, hreg]
    exact if_pos hne
  have hnext := (serialStep_ok hv' (.input 0 inInst) hstep).2
  rw [hnotes, hqueue] at hnext
  exact ⟨u, _, hother, hstep, hnotes, valid_step hv' _ hstep, hnext⟩

/-- Two bytes arrive and are read in their order. -/
theorem serial_refines_queue_read : ∃ s : SerialRace,
    Reachable ((serialRace memSize 1).logged serialNotes)
      (s, [.accepted 65, .accepted 66, .delivered 65, .delivered 66]) ∧
    s.vm.serialView.queue = [] ∧ Legal serialAllows serialApply []
      [.accepted 65, .accepted 66, .delivered 65, .delivered 66] := by
  obtain ⟨vm, hvm⟩ := boot_default
  obtain ⟨hv, hnil⟩ := valid_init hvm
  obtain ⟨s₁, hs₁, hn₁, -, hq₁, -⟩ :=
    exists_received memSize 1 (s := ⟨vm, false⟩) hv (by rw [hnil]; decide) 65
  have hv₁ : s₁.vm.serialView.Valid := valid_step hv _ hs₁
  rw [hnil, List.nil_append] at hq₁
  obtain ⟨s₂, hs₂, hn₂, -, hq₂, -⟩ := exists_received memSize 1 hv₁ (by rw [hq₁]; decide) 66
  have hv₂ : s₂.vm.serialView.Valid := valid_step hv₁ _ hs₂
  rw [hq₁] at hq₂
  obtain ⟨u₃, s₃, hother₃, hs₃, hn₃, hv₃, hq₃⟩ := exists_input memSize 1 hv₂ hq₂
  obtain ⟨u₄, s₄, hother₄, hs₄, hn₄, -, hq₄⟩ := exists_input memSize 1 hv₃ hq₃
  have hstart : Reachable ((serialRace memSize 1).logged serialNotes) (⟨vm, false⟩, []) :=
    .of_init ⟨⟨hvm, rfl⟩, rfl⟩
  have harrived := (hstart.logged_step hs₁ hn₁).logged_step hs₂ hn₂
  have hfirst := (harrived.logged_step hother₃ rfl).logged_step hs₃ hn₃
  have hreach := (hfirst.logged_step hother₄ rfl).logged_step hs₄ hn₄
  have hlog : ([] ++ [SerialNote.accepted 65] ++ [SerialNote.accepted 66] ++ [] ++
      [SerialNote.delivered ((65 : BitVec 8).setWidth 32)] ++ [] ++
      [SerialNote.delivered ((66 : BitVec 8).setWidth 32)]) =
      [SerialNote.accepted 65, .accepted 66, .delivered 65, .delivered 66] := by decide
  exact ⟨s₄, hlog ▸ hreach, hq₄, (serial_refines_queue (hlog ▸ hreach)).1⟩

/-! ## Receive interrupts -/

/-- With interrupts enabled, queued bytes have an interrupt pending or consumed. -/
def RxCovered (s : SerialRace) : Prop :=
  rxIntEnabled s.vm.serialView.attr = true → s.vm.serialView.queue ≠ [] →
    s.vm.serialView.pending = true ∨ s.consumed = true

/-- The guest does not enable interrupts over bytes that have arrived without one. -/
def EnableSafe (s : SerialRace) (l : SerialLabel) : Prop :=
  ∀ c i, l = .output c i → s.vm.portOf c i = portScreenAttribute →
    rxIntEnabled s.vm.serialView.attr = false →
    s.vm.regValue c i.rd &&& serialCtrlRxIntEnable ≠ 0 → s.vm.serialView.queue ≠ [] →
    s.vm.serialView.pending = true ∨ s.consumed = true

section Covered

theorem rxIntEnabled_iff (x : BitVec 32) : rxIntEnabled x = true ↔ x.getLsbD 8 = true := by
  have hbit := readyBit_iff (x.sshiftRight 8)
  rw [rxIntEnabled, decide_eq_true_iff]
  refine hbit.trans ?_
  rw [BitVec.getLsbD_sshiftRight]
  simp

/-- `OUT` to the control register sets the enable bit to the lowest bit written. -/
theorem rxIntEnabled_control (v : SerialView) (value : BitVec 32) :
    rxIntEnabled (v.control value).attr = true ↔ value &&& serialCtrlRxIntEnable ≠ 0 := by
  rw [rxIntEnabled_iff]
  refine Iff.trans ?_ (readyBit_iff value).symm
  simp [SerialView.control]

theorem rxCovered_enqueue (hv : s.vm.serialView.Valid) (hs : RxCovered s) {b : BitVec 8}
    (h : (serialRace M smpCores).step s (.enqueue b) t) : RxCovered t := by
  obtain ⟨r, hrun, hconsumed⟩ := h
  obtain ⟨vm', hrun', hview, -⟩ := vmSerialRxEnqueue_run hv.range b
  obtain ⟨rfl, hvm⟩ := Prod.mk.inj (Except.ok.inj (hrun.symm.trans hrun'))
  rw [← hvm] at hview
  intro henabled hqueue
  by_cases hfull : serialNext s.vm.serialView.head = s.vm.serialView.tail
  · rw [SerialView.enqueue_of_full hfull] at hview hconsumed
    rw [hview] at henabled hqueue ⊢
    simp only [Bool.false_eq_true, false_and, if_false] at hconsumed
    rw [hconsumed]
    exact hs henabled hqueue
  · by_cases hempty : s.vm.serialView.head = s.vm.serialView.tail
    · rw [SerialView.enqueue_of_empty hfull hempty] at hview
      rw [hview] at henabled ⊢
      exact .inl (by simpa using .inr henabled)
    · rw [SerialView.enqueue_of_nonempty hfull hempty] at hview
      have hne : s.vm.serialView.queue ≠ [] :=
        fun hnil => hempty (hv.range.queue_eq_nil_iff.mp hnil).symm
      rw [if_neg (fun hand => hempty hand.2)] at hconsumed
      rw [hview] at henabled ⊢
      rw [hconsumed]
      exact hs henabled hne

theorem rxCovered_input (hv : s.vm.serialView.Valid) (hs : RxCovered s) {c : ℕ} {i : Inst}
    (h : (serialRace M smpCores).step s (.input c i) t) : RxCovered t := by
  have hview := serialEffect_step hv (.input c i) h
  obtain ⟨-, -, hconsumed⟩ := h
  simp only [SerialEffect] at hview
  by_cases hkey : s.vm.portOf c i = portKeyboard
  · rw [if_pos hkey] at hview
    intro henabled hqueue
    have hne : s.vm.serialView.read.tail ≠ s.vm.serialView.read.head := by
      rw [hview] at hqueue
      exact fun heq => hqueue (hv.read_range.queue_eq_nil_iff.mpr heq)
    obtain ⟨-, hhead, htail, -⟩ := s.vm.serialView.read_indices
    rw [hhead, htail] at hne
    have hread : s.vm.serialView.read.pending = rxIntEnabled s.vm.serialView.read.attr := by
      simp only [SerialView.read, if_pos hne]
    rw [hview] at henabled ⊢
    exact .inl (hread.trans henabled)
  · rw [if_neg hkey] at hview
    rw [if_neg (fun hand => hkey hand.1)] at hconsumed
    unfold RxCovered
    rw [hview, hconsumed]
    exact hs

theorem rxCovered_deliver (hs : RxCovered s)
    (h : (serialRace M smpCores).step s .deliver t) : RxCovered t := by
  obtain ⟨hrun, hconsumed⟩ := h
  obtain ⟨p, hview, -⟩ := vmHandleInterrupts_serialView hrun
  have hpending : t.vm.pending 0 intSerial.toNat = p := congrArg SerialView.pending hview
  intro henabled hqueue
  rw [hview] at henabled hqueue ⊢
  rw [hconsumed, hpending]
  rcases hs henabled hqueue with hp | hc
  · cases p with
    | true => exact .inl rfl
    | false => exact .inr (by rw [show s.vm.pending 0 intSerial.toNat = true from hp]; simp)
  · exact .inr (by rw [hc, Bool.true_or])

/-- Writing the control register is the only step that can leave queued bytes without
an interrupt. -/
theorem rxCovered_output_iff (hv : s.vm.serialView.Valid) (hs : RxCovered s) {c : ℕ} {i : Inst}
    (h : (serialRace M smpCores).step s (.output c i) t) :
    RxCovered t ↔ EnableSafe s (.output c i) := by
  have hview := serialEffect_step hv (.output c i) h
  obtain ⟨-, -, hconsumed⟩ := h
  simp only [SerialEffect] at hview
  unfold RxCovered
  by_cases hattr : s.vm.portOf c i = portScreenAttribute
  · rw [if_pos hattr] at hview
    rw [hview, hconsumed, rxIntEnabled_control]
    constructor
    · rintro hcovered c' i' ⟨⟩ - - hset hqueue
      exact hcovered hset hqueue
    · intro hsafe hset hqueue
      cases hen : rxIntEnabled s.vm.serialView.attr with
      | true => exact hs hen hqueue
      | false => exact hsafe c i rfl hattr hen hset hqueue
  · rw [if_neg hattr] at hview
    rw [hview, hconsumed]
    refine iff_of_true hs ?_
    rintro c' i' ⟨⟩ hport
    exact absurd hport hattr

theorem rxCovered_step (hv : s.vm.serialView.Valid) (hs : RxCovered s) (l : SerialLabel)
    (h : (serialRace M smpCores).step s l t) : RxCovered t ↔ EnableSafe s l := by
  cases l with
  | enqueue b => exact iff_of_true (rxCovered_enqueue hv hs h) nofun
  | input c i => exact iff_of_true (rxCovered_input hv hs h) nofun
  | output c i => exact rxCovered_output_iff hv hs h
  | deliver => exact iff_of_true (rxCovered_deliver hs h) nofun
  | other =>
    obtain ⟨hsame, hconsumed⟩ := h
    refine iff_of_true ?_ nofun
    intro henabled hqueue
    rw [hsame.view] at henabled hqueue
    rw [hconsumed]
    exact (hs henabled hqueue).imp_left hsame.pending

end Covered

/-- As long as the guest enables interrupts only when every queued byte has had one, no
receive interrupt is missed; the first step that breaks this rule misses one. -/
theorem receive_interrupt_not_missed
    (h : Reachable ((serialRace M smpCores).restrict EnableSafe) s) :
    RxCovered s ∧
      ∀ l t, (serialRace M smpCores).step s l t → (RxCovered t ↔ EnableSafe s l) := by
  have hinit (s : SerialRace) (hs : ((serialRace M smpCores).restrict EnableSafe).init s) :
      s.vm.serialView.Valid ∧ RxCovered s := by
    obtain ⟨hv, hnil⟩ := valid_init hs.1
    exact ⟨hv, fun _ hne => absurd hnil hne⟩
  have hstep (s : SerialRace) (l : SerialLabel) (t : SerialRace)
      (hP : s.vm.serialView.Valid ∧ RxCovered s)
      (hs : ((serialRace M smpCores).restrict EnableSafe).step s l t) :
      t.vm.serialView.Valid ∧ RxCovered t :=
    ⟨valid_step hP.1 l hs.2, (rxCovered_step hP.1 hP.2 l hs.2).mpr hs.1⟩
  obtain ⟨hv, hcovered⟩ := h.invariant hinit hstep
  exact ⟨hcovered, fun l t hs => rxCovered_step hv hcovered l hs⟩

/-- `OUT` of register 1 to the port that register 0 names. -/
def outInst : Inst := ⟨0, 1, 0, 0, 0⟩

/-- The registers of core 0 set up for enabling receive interrupts. -/
def Vm.enabling (vm : Vm) : Vm :=
  vm.setCpu 0 { vm.cpus 0 with regs := fun r => if r.val = 0 then 2 else 1 }

/-- A guest may load its registers and enable receive interrupts at any time. -/
theorem exists_enabled (M : ℕ) (smpCores : ℤ) (hv : s.vm.serialView.Valid) : ∃ t,
    (serialRace M smpCores).step s .other ⟨s.vm.enabling, s.consumed⟩ ∧
    (serialRace M smpCores).step ⟨s.vm.enabling, s.consumed⟩ (.output 0 outInst) t ∧
    t.vm.serialView = s.vm.serialView.control 1 ∧ t.consumed = s.consumed := by
  have hport : s.vm.enabling.portOf 0 outInst = portScreenAttribute := by
    simp [Vm.portOf, Vm.regValue, Vm.enabling, outInst]
  have hreg : s.vm.enabling.regValue 0 outInst.rd = 1 := by
    simp [Vm.regValue, Vm.enabling, outInst]
  have hv' : s.vm.enabling.serialView.Valid := hv
  obtain ⟨vm', hrun⟩ := execOut_total hv'.range (by decide) (by decide) hport
  have hview := execOut_ok hrun
  rw [if_pos hport, hreg] at hview
  exact ⟨⟨vm', s.consumed⟩, ⟨⟨rfl, id⟩, rfl⟩, ⟨hv.range.cores, hrun, rfl⟩, hview, rfl⟩

theorem receive_interrupt_not_missed_enabled : ∃ s : SerialRace,
    Reachable ((serialRace memSize 1).restrict EnableSafe) s ∧
      rxIntEnabled s.vm.serialView.attr = true ∧ s.vm.serialView.queue ≠ [] ∧
      (s.vm.serialView.pending = true ∨ s.consumed = true) := by
  obtain ⟨vm, hvm⟩ := boot_default
  obtain ⟨hv, hnil⟩ := valid_init hvm
  obtain ⟨s, hother, hout, hview, -⟩ := exists_enabled memSize 1 (s := ⟨vm, false⟩) hv
  have hvs : s.vm.serialView.Valid := hview ▸ hv.control 1
  have hroom : s.vm.serialView.queue.length ≠ 255 := by
    rw [hview, show (vm.serialView.control 1).queue = [] from hnil]
    decide
  obtain ⟨t, hbyte, -, ht, hqueue, -⟩ := exists_received memSize 1 hvs hroom 65
  have hstart : Reachable ((serialRace memSize 1).restrict EnableSafe) ⟨vm, false⟩ :=
    .of_init ⟨hvm, rfl⟩
  have hreach : Reachable ((serialRace memSize 1).restrict EnableSafe) t :=
    ((hstart.step (l := .other) ⟨nofun, hother⟩).step
      ⟨fun _ _ _ _ _ _ hne => absurd hnil hne, hout⟩).step (l := .enqueue 65) ⟨nofun, hbyte⟩
  have henabled : rxIntEnabled t.vm.serialView.attr = true := by
    rw [ht, hview, serial_init hvm]
    decide
  have hne : t.vm.serialView.queue ≠ [] := by simp [hqueue]
  exact ⟨t, hreach, henabled, hne, (receive_interrupt_not_missed hreach).1 henabled hne⟩

/-- A byte arrives while interrupts are disabled, and then the guest enables them. -/
theorem receive_interrupt_missed : ∃ s : SerialRace, Reachable (serialRace memSize 1) s ∧
    rxIntEnabled s.vm.serialView.attr = true ∧ s.vm.serialView.queue ≠ [] ∧
    s.vm.serialView.pending = false ∧ s.consumed = false := by
  obtain ⟨vm, hvm⟩ := boot_default
  obtain ⟨hv, hnil⟩ := valid_init hvm
  obtain ⟨s, hbyte, -, hview, hqueue, hsame⟩ :=
    exists_received memSize 1 (s := ⟨vm, false⟩) hv (by rw [hnil]; decide) 65
  have hvs : s.vm.serialView.Valid := valid_step hv _ hbyte
  obtain ⟨t, hother, hout, ht, hconsumed⟩ := exists_enabled memSize 1 hvs
  have hstart : Reachable (serialRace memSize 1) ⟨vm, false⟩ := .of_init ⟨hvm, rfl⟩
  refine ⟨t, ((hstart.step hbyte).step hother).step hout, ?_, ?_, ?_, hconsumed.trans (hsame rfl)⟩
  · rw [ht, rxIntEnabled_control]
    decide
  · rw [ht, show (s.vm.serialView.control 1).queue = _ from hqueue]
    simp
  · rw [ht, hview, serial_init hvm]
    decide

end LampVm
