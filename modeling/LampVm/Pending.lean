import LampVm.Handler

/-!
# Pending vectors under concurrency

The bitmap of pending vectors is shared: any thread may set bits in it with
`trigger_interrupt_target`, a read of the serial port clears two of them, and every
core consumes its own bits in `vm_handle_interrupts`. The threads meet only in the
atomic operations on the words, so here each of those is a step of its own, in any
order, and a compare-exchange may fail for no reason. Notes record what the
operations did; the pending vectors are compared with what the notes say.
-/
namespace LampVm

open Contract Transition

/-! ## The operations on a word -/

def atomicLoad (idx : ℕ) : VmM (BitVec 64) := do
  let vm ← get
  checkIndex .interruptBitmap (vm.smpCores * irqBitmapWords) idx
  pure (vm.interruptBitmap idx)

/-- `atomic_compare_exchange_weak`, which may also fail where it need not. -/
def atomicCompareExchangeWeak (idx : ℕ) (expected desired : BitVec 64) (spurious : Bool) :
    VmM Bool := do
  let vm ← get
  checkIndex .interruptBitmap (vm.smpCores * irqBitmapWords) idx
  if spurious = false ∧ vm.interruptBitmap idx = expected then
    set { vm with interruptBitmap := Function.update vm.interruptBitmap idx desired }
    pure true
  else pure false

/-- Where a core is in `vm_handle_interrupts`, with the local variables that are live
there: before the call, before the load of a word, at the test of the inner loop,
before the load after a failed exchange, and before the call of `vm_enter_interrupt`. -/
inductive Handling
  | idle
  | scan (w : Fin irqBitmapWords)
  | attempt (w : Fin irqBitmapWords) (bit : Fin 64) (word : BitVec 64)
  | retry (w : Fin irqBitmapWords) (bit : Fin 64)
  | entering (intNo : Fin ivtSize)
  deriving DecidableEq, Repr

/-- The outer loop goes on with the next word or ends. -/
def Handling.nextWord (w : Fin irqBitmapWords) : Handling :=
  if h : w.val + 1 < irqBitmapWords then .scan ⟨w.val + 1, h⟩ else .idle

def vectorAt (w : Fin irqBitmapWords) (bit : Fin 64) : Fin ivtSize :=
  ⟨w.val * 64 + bit.val, by
    have hw : w.val < 4 := w.isLt
    have hbit := bit.isLt
    change _ < 256
    omega⟩

theorem ctz_lt {word : BitVec 64} (h : word ≠ 0) : word.ctz.toNat < 64 := by
  have hlt := BitVec.ctz_lt_iff_ne_zero.mpr h
  simpa [BitVec.lt_def] using hlt

/-- One step of core `c` in `vm_handle_interrupts`: at most one atomic operation. -/
def handleStep (c : ℕ) (spurious : Bool) : Handling → VmM Handling
  | .idle => do
    let cpu ← getCpu c
    if cpu.inInterrupt ≠ 0 then pure .idle
    else if cpu.irqMasked ≠ 0 then pure .idle
    else pure (.scan 0)
  | .scan w => do
    let cpu ← getCpu c
    let word ← atomicLoad (cpu.coreId * irqBitmapWords + w)
    if h : word = 0 then pure (.nextWord w)
    else pure (.attempt w ⟨word.ctz.toNat, ctz_lt h⟩ word)
  | .attempt w bit word => do
    let cpu ← getCpu c
    let mask := (1 : BitVec 64) <<< bit.val
    if word &&& mask = 0 then pure (.nextWord w)
    else
      let taken ← atomicCompareExchangeWeak (cpu.coreId * irqBitmapWords + w) word
        (word &&& ~~~mask) spurious
      if taken then pure (.entering (vectorAt w bit)) else pure (.retry w bit)
  | .retry w bit => do
    let cpu ← getCpu c
    let word ← atomicLoad (cpu.coreId * irqBitmapWords + w)
    if word = 0 then pure (.nextWord w) else pure (.attempt w bit word)
  | .entering intNo => do
    vmEnterInterrupt c (BitVec.ofNat 32 intNo)
    pure .idle

/-! ## The racing threads -/

structure Racing where
  vm : Vm
  handling : ℕ → Handling

inductive RaceLabel
  | trigger (coreId : ℤ) (intNo : BitVec 32)
  | acknowledge
  | handle (c : ℕ) (spurious : Bool)
  | other

/-- What the rest of the program leaves alone. -/
structure SameInterrupts (s t : Vm) : Prop where
  bitmap : t.interruptBitmap = s.interruptBitmap
  smpCores : t.smpCores = s.smpCores
  coreId : ∀ c, (t.cpus c).coreId = (s.cpus c).coreId

/-- Any thread may trigger any vector of any core or acknowledge the serial port at
any time, and any core may take its next step. -/
def race (memorySize : ℕ) (smpCores : ℤ) : System Racing RaceLabel where
  init s := (machine memorySize smpCores).init s.vm ∧ s.handling = fun _ => .idle
  step s l t :=
    match l with
    | .trigger coreId intNo =>
      triggerInterruptTarget coreId intNo s.vm = .ok ((), t.vm) ∧ t.handling = s.handling
    | .acknowledge => serialAck s.vm = .ok ((), t.vm) ∧ t.handling = s.handling
    | .handle c spurious => c < s.vm.smpCores ∧ ∃ h,
      handleStep c spurious (s.handling c) s.vm = .ok (h, t.vm) ∧
        t.handling = Function.update s.handling c h
    | .other => SameInterrupts s.vm t.vm ∧ t.handling = s.handling

/-! ## What is pending -/

def Vm.pending (vm : Vm) (c n : ℕ) : Bool :=
  (vm.interruptBitmap (c * irqBitmapWords + n / 64)).getLsbD (n % 64)

/-- The pending vectors of all cores; these are all bits of the bitmap. -/
def Vm.pendingSet (vm : Vm) : Set (ℕ × ℕ) :=
  {p | p.1 < vm.smpCores ∧ p.2 < ivtSize ∧ vm.pending p.1 p.2 = true}

/-- What an operation did to the vectors. -/
inductive Note
  | triggered (c n : ℕ)
  | acknowledged
  | consumed (c n : ℕ)
  | entered (c n : ℕ)
  deriving DecidableEq, Repr

/-- The vectors as the operations should treat them: which ones are pending, and which
one each core has consumed and not yet entered. -/
structure Vectors where
  pending : Set (ℕ × ℕ)
  entering : ℕ → Option ℕ

def Vectors.none : Vectors := ⟨∅, fun _ => Option.none⟩

/-- Only a pending vector is consumed, and only the vector consumed last is entered. -/
def Vectors.allows (v : Vectors) : Note → Prop
  | .triggered _ _ | .acknowledged => True
  | .consumed c n => (c, n) ∈ v.pending ∧ v.entering c = .none
  | .entered c n => v.entering c = some n

def Vectors.apply (v : Vectors) : Note → Vectors
  | .triggered c n => { v with pending := insert (c, n) v.pending }
  | .acknowledged =>
    { v with pending := v.pending \ {(0, intKeyboard.toNat), (0, intSerial.toNat)} }
  | .consumed c n => ⟨v.pending \ {(c, n)}, Function.update v.entering c (some n)⟩
  | .entered c _ => { v with entering := Function.update v.entering c .none }

/-- The exchange at the end of an attempt succeeds. -/
def exchangeSucceeds (vm : Vm) (c : ℕ) (w : Fin irqBitmapWords) (bit : Fin 64)
    (word : BitVec 64) (spurious : Bool) : Prop :=
  word &&& (1 : BitVec 64) <<< bit.val ≠ 0 ∧ spurious = false ∧
    vm.interruptBitmap ((vm.cpus c).coreId * irqBitmapWords + w) = word

instance (vm : Vm) (c : ℕ) (w : Fin irqBitmapWords) (bit : Fin 64) (word : BitVec 64)
    (spurious : Bool) : Decidable (exchangeSucceeds vm c w bit word spurious) :=
  inferInstanceAs (Decidable (_ ∧ _))

def notes (s : Racing) : RaceLabel → List Note
  | .trigger coreId intNo =>
    if coreId < 0 ∨ coreId ≥ s.vm.smpCores ∨ intNo.toNat ≥ ivtSize then []
    else [.triggered coreId.toNat intNo.toNat]
  | .acknowledge => [.acknowledged]
  | .handle c spurious =>
    match s.handling c with
    | .attempt w bit word =>
      if exchangeSucceeds s.vm c w bit word spurious then [.consumed c (vectorAt w bit)] else []
    | .entering intNo => [.entered c intNo]
    | _ => []
  | .other => []

/-! ## Interrupt entry leaves the bitmap alone -/

/-- Memory accesses leave the bitmap alone. -/
theorem quiet (s : Vm) : Stable (SameInterrupts s) fun _ => True where
  congr _ _ hs h := ⟨(congrArg Vm.interruptBitmap h).trans hs.bitmap,
    (congrArg Vm.smpCores h).trans hs.smpCores,
    fun c => (congrArg (fun vm => (vm.cpus c).coreId) h).trans (hs.coreId c)⟩
  findMmio := safe_findMmio fun _ _ _ _ ht => ⟨ht.bitmap, ht.smpCores, ht.coreId⟩
  fault _ _ := trivial

theorem quiet_cpuFree (s : Vm) : CpuFree (SameInterrupts s) := by
  intro t c cpu ht hcpu
  refine ⟨ht.bitmap, ht.smpCores, fun d => ?_⟩
  by_cases hdc : d = c
  · subst hdc
    rw [setCpu_cpus_self, hcpu, ht.coreId]
  · rw [setCpu_cpus_of_ne _ _ hdc, ht.coreId]

/-! ## Bits and vectors -/

def Vm.setWord (vm : Vm) (idx : ℕ) (word : BitVec 64) : Vm :=
  { vm with interruptBitmap := Function.update vm.interruptBitmap idx word }

theorem setWord_pending (vm : Vm) (idx : ℕ) (word : BitVec 64) (d m : ℕ) :
    (vm.setWord idx word).pending d m =
      if d * irqBitmapWords + m / 64 = idx then word.getLsbD (m % 64) else vm.pending d m := by
  simp only [Vm.pending, Vm.setWord, Function.update_apply]
  split <;> rfl

theorem getLsbD_bit {k j : ℕ} (hj : j < 64) :
    ((1 : BitVec 64) <<< k).getLsbD j = decide (j = k) := by
  have hone : (1 : BitVec 64).getLsbD (j - k) = decide (j - k = 0) := by simp
  rw [BitVec.getLsbD_shiftLeft, hone, Bool.eq_iff_iff]
  simp only [Bool.and_eq_true, Bool.not_eq_true', decide_eq_true_eq, decide_eq_false_iff_not]
  omega

/-- A bit of the bitmap belongs to one vector of one core. -/
theorem vector_of_bit {c d m n : ℕ} (hm : m < ivtSize) (hn : n < ivtSize)
    (hw : d * irqBitmapWords + m / 64 = c * irqBitmapWords + n / 64) :
    m % 64 = n % 64 ↔ (d, m) = (c, n) := by
  change d * 4 + m / 64 = c * 4 + n / 64 at hw
  change m < 256 at hm
  change n < 256 at hn
  rw [Prod.mk.injEq]
  omega

theorem pendingSet_set (vm : Vm) {c n : ℕ} (hc : c < vm.smpCores) (hn : n < ivtSize) :
    (vm.setWord (c * irqBitmapWords + n / 64) (vm.interruptBitmap (c * irqBitmapWords + n / 64) |||
      (1 : BitVec 64) <<< (n % 64))).pendingSet = insert (c, n) vm.pendingSet := by
  ext ⟨d, m⟩
  simp only [Vm.pendingSet, Set.mem_ofPred_eq, Set.mem_insert_iff, setWord_pending]
  change d < vm.smpCores ∧ m < ivtSize ∧ _ ↔ _
  split_ifs with hw
  · rw [BitVec.getLsbD_or, getLsbD_bit (Nat.mod_lt _ (by decide)), ← hw]
    constructor
    · rintro ⟨hd, hm, hbit⟩
      rw [Bool.or_eq_true, decide_eq_true_eq, vector_of_bit hm hn hw] at hbit
      exact hbit.symm.imp_right fun h => ⟨hd, hm, h⟩
    · rintro (heq | ⟨hd, hm, hbit⟩)
      · obtain ⟨rfl, rfl⟩ := Prod.mk.inj heq
        exact ⟨hc, hn, by simp⟩
      · rw [Vm.pending] at hbit
        exact ⟨hd, hm, by rw [hbit, Bool.true_or]⟩
  · refine ⟨.inr, ?_⟩
    rintro (heq | h)
    · obtain ⟨rfl, rfl⟩ := Prod.mk.inj heq
      exact absurd rfl hw
    · exact h

theorem pendingSet_clear (vm : Vm) (c : ℕ) {n : ℕ} (hn : n < ivtSize) :
    (vm.setWord (c * irqBitmapWords + n / 64) (vm.interruptBitmap (c * irqBitmapWords + n / 64) &&&
      ~~~((1 : BitVec 64) <<< (n % 64)))).pendingSet = vm.pendingSet \ {(c, n)} := by
  ext ⟨d, m⟩
  simp only [Vm.pendingSet, Set.mem_ofPred_eq, Set.mem_sdiff, Set.mem_singleton_iff, setWord_pending]
  change d < vm.smpCores ∧ m < ivtSize ∧ _ ↔ _
  split_ifs with hw
  · have hlt : m % 64 < 64 := Nat.mod_lt _ (by decide)
    rw [BitVec.getLsbD_and, BitVec.getLsbD_not, getLsbD_bit hlt, ← hw]
    simp only [hlt, decide_true, Bool.true_and, Bool.and_eq_true, Bool.not_eq_true',
      decide_eq_false_iff_not, Vm.pending]
    constructor
    · rintro ⟨hd, hm, hbit, hne⟩
      exact ⟨⟨hd, hm, hbit⟩, fun h => hne ((vector_of_bit hm hn hw).mpr h)⟩
    · rintro ⟨⟨hd, hm, hbit⟩, hne⟩
      exact ⟨hd, hm, hbit, fun h => hne ((vector_of_bit hm hn hw).mp h)⟩
  · refine ⟨fun h => ⟨h, ?_⟩, fun h => h.1⟩
    rintro heq
    obtain ⟨rfl, rfl⟩ := Prod.mk.inj heq
    exact hw rfl

/-! ## What one operation does -/

section Steps

variable {vm vm' : Vm}

theorem triggerInterruptTarget_cases {coreId : ℤ} {intNo : BitVec 32}
    (h : triggerInterruptTarget coreId intNo vm = .ok ((), vm')) :
    (coreId < 0 ∨ coreId ≥ vm.smpCores ∨ intNo.toNat ≥ ivtSize) ∧ vm' = vm ∨
    ¬ (coreId < 0 ∨ coreId ≥ vm.smpCores ∨ intNo.toNat ≥ ivtSize) ∧
      vm' = vm.setWord (irqWordIndex coreId.toNat intNo)
        (vm.interruptBitmap (irqWordIndex coreId.toNat intNo) ||| irqBitMask intNo) := by
  simp only [triggerInterruptTarget, bind_apply, get_apply] at h
  by_cases hcore : coreId < 0 ∨ coreId ≥ vm.smpCores
  · rw [if_pos hcore] at h
    obtain ⟨-, rfl⟩ := Prod.mk.inj (Except.ok.inj h)
    exact .inl ⟨by tauto, rfl⟩
  · rw [if_neg hcore] at h
    by_cases hn : intNo.toNat ≥ ivtSize
    · rw [if_pos hn] at h
      obtain ⟨-, rfl⟩ := Prod.mk.inj (Except.ok.inj h)
      exact .inl ⟨by tauto, rfl⟩
    · rw [if_neg hn] at h
      obtain ⟨_, _, hidx, hset⟩ := bind_eq_ok h
      obtain ⟨-, rfl⟩ := Prod.mk.inj (Except.ok.inj hset)
      exact .inr ⟨by tauto, rfl⟩

theorem serialAck_eq (h : serialAck vm = .ok ((), vm')) :
    vm' = vm.setWord serialAckWord (vm.interruptBitmap serialAckWord &&& serialAckMask) := by
  obtain ⟨_, _, hidx, hset⟩ := bind_eq_ok (show (checkIndex .interruptBitmap
    (vm.smpCores * irqBitmapWords) serialAckWord >>= fun _ => _) vm = _ from h)
  exact ((Prod.mk.inj (Except.ok.inj hset)).2).symm

theorem checkIndex_ok {array : CArray} {size i : ℕ} {u : Unit}
    (h : checkIndex array size i vm = .ok (u, vm')) : vm' = vm := by
  unfold checkIndex at h
  split_ifs at h with hi
  · exact ((Prod.mk.inj (Except.ok.inj h)).2).symm
  · cases h

theorem setIo_ok {i : ℕ} {value : BitVec 32} (h : setIo i value vm = .ok ((), vm')) :
    vm' = { vm with io := Function.update vm.io i value } := by
  obtain ⟨_, t, hidx, hset⟩ := bind_eq_ok h
  obtain rfl := checkIndex_ok hidx
  exact ((Prod.mk.inj (Except.ok.inj hset)).2).symm

/-- What a write to a port does to the machine. -/
inductive PortWrite (vm : Vm) (value : BitVec 32) : ℤ → Vm → Prop
  | outside {addr : ℤ} (h : addr < 0 ∨ addr ≥ ioSize) : PortWrite vm value addr vm
  | screen : PortWrite vm value portScreen
      { vm with
        stdout := value.setWidth 8 :: vm.stdout
        io := Function.update vm.io portScreen value }
  | screenAttribute : PortWrite vm value portScreenAttribute
      { vm with io := Function.update vm.io portScreenAttribute
                  ((vm.io portScreenAttribute &&& 0xFF) ||| (value &&& 0xFF) <<< 8) }
  | diskCmd : PortWrite vm value portDiskCmd
      { vm with disk := vm.disk.cmd value, io := Function.update vm.io portDiskCmd value }
  | diskLba : PortWrite vm value portDiskLba
      { vm with
        disk := { vm.disk with lba := value }
        io := Function.update vm.io portDiskLba value }
  | diskMem : PortWrite vm value portDiskMem
      { vm with
        disk := { vm.disk with memAddr := value }
        io := Function.update vm.io portDiskMem value }
  | diskCount : PortWrite vm value portDiskCount
      { vm with
        disk := { vm.disk with count := value }
        io := Function.update vm.io portDiskCount value }
  | plain {port : ℕ} (hattr : port ≠ portScreenAttribute)
      (hdisk : port ≠ portDiskCmd ∧ port ≠ portDiskLba ∧ port ≠ portDiskMem ∧
        port ≠ portDiskCount) :
      PortWrite vm value port { vm with io := Function.update vm.io port value }

theorem acceptIo_portWrite {addr : ℤ} {value : BitVec 32}
    (h : acceptIo addr value vm = .ok ((), vm')) : PortWrite vm value addr vm' := by
  simp only [acceptIo] at h
  by_cases hrange : addr < 0 ∨ addr ≥ ioSize
  · rw [if_pos hrange] at h
    obtain ⟨-, rfl⟩ := Prod.mk.inj (Except.ok.inj h)
    exact .outside hrange
  · rw [if_neg hrange] at h
    obtain ⟨port, rfl⟩ := Int.eq_ofNat_of_zero_le (a := addr) (by omega)
    rw [Int.toNat_natCast] at h
    split_ifs at h with hscreen hattr hcmd hlba hmem hcount
    · obtain ⟨_, t, hmod, hset⟩ := bind_eq_ok h
      obtain ⟨-, rfl⟩ := Prod.mk.inj (Except.ok.inj hmod)
      rw [hscreen, setIo_ok hset]
      exact .screen
    · obtain ⟨_, t, hget, hset⟩ := bind_eq_ok h
      obtain ⟨rfl, rfl⟩ := Prod.mk.inj (Except.ok.inj hget)
      rw [hattr, setIo_ok hset]
      exact .screenAttribute
    · obtain ⟨_, t, hset, hrun⟩ := bind_eq_ok h
      obtain ⟨-, rfl⟩ := Prod.mk.inj (Except.ok.inj hrun)
      rw [hcmd, setIo_ok hset]
      exact .diskCmd
    · obtain ⟨_, t, hmod, hset⟩ := bind_eq_ok h
      obtain ⟨-, rfl⟩ := Prod.mk.inj (Except.ok.inj hmod)
      rw [hlba, setIo_ok hset]
      exact .diskLba
    · obtain ⟨_, t, hmod, hset⟩ := bind_eq_ok h
      obtain ⟨-, rfl⟩ := Prod.mk.inj (Except.ok.inj hmod)
      rw [hmem, setIo_ok hset]
      exact .diskMem
    · obtain ⟨_, t, hmod, hset⟩ := bind_eq_ok h
      obtain ⟨-, rfl⟩ := Prod.mk.inj (Except.ok.inj hmod)
      rw [hcount, setIo_ok hset]
      exact .diskCount
    · rw [setIo_ok h]
      exact .plain hattr ⟨hcmd, hlba, hmem, hcount⟩

theorem atomicLoad_ok {idx : ℕ} {word : BitVec 64} (h : atomicLoad idx vm = .ok (word, vm')) :
    word = vm.interruptBitmap idx ∧ vm' = vm := by
  obtain ⟨_, t, hidx, hret⟩ := bind_eq_ok (show (checkIndex .interruptBitmap
    (vm.smpCores * irqBitmapWords) idx >>= fun _ => _) vm = _ from h)
  obtain rfl := checkIndex_ok hidx
  obtain ⟨rfl, rfl⟩ := Prod.mk.inj (Except.ok.inj hret)
  exact ⟨rfl, rfl⟩

theorem atomicCompareExchangeWeak_ok {idx : ℕ} {expected desired : BitVec 64}
    {spurious taken : Bool}
    (h : atomicCompareExchangeWeak idx expected desired spurious vm = .ok (taken, vm')) :
    if spurious = false ∧ vm.interruptBitmap idx = expected then
      taken = true ∧ vm' = vm.setWord idx desired
    else taken = false ∧ vm' = vm := by
  obtain ⟨_, t, hidx, hret⟩ := bind_eq_ok (show (checkIndex .interruptBitmap
    (vm.smpCores * irqBitmapWords) idx >>= fun _ => _) vm = _ from h)
  obtain rfl := checkIndex_ok hidx
  split_ifs at hret ⊢ with hx
  · obtain ⟨rfl, rfl⟩ := Prod.mk.inj (Except.ok.inj hret)
    exact ⟨rfl, rfl⟩
  · obtain ⟨rfl, rfl⟩ := Prod.mk.inj (Except.ok.inj hret)
    exact ⟨rfl, rfl⟩

/-- The vector that a core has consumed and is about to enter. -/
def Handling.inFlight : Handling → Option ℕ
  | .entering intNo => some intNo
  | _ => none

theorem nextWord_inFlight (w : Fin irqBitmapWords) : (Handling.nextWord w).inFlight = none := by
  unfold Handling.nextWord
  split_ifs <;> rfl

/-- A step consumes a vector by a successful exchange, enters the vector it has
consumed, or only reads. -/
theorem handleStep_cases {c : ℕ} {spurious : Bool} {h h' : Handling}
    (hrun : handleStep c spurious h vm = .ok (h', vm')) :
    (∃ w bit word, h = .attempt w bit word ∧ exchangeSucceeds vm c w bit word spurious ∧
      h' = .entering (vectorAt w bit) ∧
      vm' = vm.setWord ((vm.cpus c).coreId * irqBitmapWords + w)
        (word &&& ~~~((1 : BitVec 64) <<< bit.val))) ∨
    (∃ intNo, h = .entering intNo ∧ h' = .idle ∧
      vmEnterInterrupt c (BitVec.ofNat 32 intNo) vm = .ok ((), vm')) ∨
    (vm' = vm ∧ h.inFlight = none ∧ h'.inFlight = none ∧
      ∀ w bit word, h = .attempt w bit word → ¬ exchangeSucceeds vm c w bit word spurious) := by
  cases h with
  | idle =>
    refine .inr (.inr ?_)
    simp only [handleStep, bind_apply, getCpu_apply] at hrun
    split_ifs at hrun <;> obtain ⟨rfl, rfl⟩ := Prod.mk.inj (Except.ok.inj hrun) <;>
      exact ⟨rfl, rfl, rfl, nofun⟩
  | scan w =>
    refine .inr (.inr ?_)
    rw [handleStep, bind_ok (getCpu_apply c vm)] at hrun
    obtain ⟨word, t, hload, hret⟩ := bind_eq_ok hrun
    obtain ⟨rfl, rfl⟩ := atomicLoad_ok hload
    split_ifs at hret <;> obtain ⟨rfl, rfl⟩ := Prod.mk.inj (Except.ok.inj hret)
    · exact ⟨rfl, rfl, nextWord_inFlight w, nofun⟩
    · exact ⟨rfl, rfl, rfl, nofun⟩
  | attempt w bit word =>
    change (if word &&& (1 : BitVec 64) <<< bit.val = 0 then _ else _ : VmM Handling) vm = _ at hrun
    split_ifs at hrun with hmask
    · obtain ⟨rfl, rfl⟩ := Prod.mk.inj (Except.ok.inj hrun)
      refine .inr (.inr ⟨rfl, rfl, nextWord_inFlight w, ?_⟩)
      rintro _ _ _ ⟨⟩ hx
      exact hx.1 hmask
    · obtain ⟨taken, t, hcas, hret⟩ := bind_eq_ok hrun
      have hx := atomicCompareExchangeWeak_ok hcas
      split_ifs at hx with hok
      · obtain ⟨rfl, rfl⟩ := hx
        obtain ⟨rfl, rfl⟩ := Prod.mk.inj (Except.ok.inj hret)
        exact .inl ⟨w, bit, word, rfl, ⟨hmask, hok⟩, rfl, rfl⟩
      · obtain ⟨rfl, rfl⟩ := hx
        obtain ⟨rfl, rfl⟩ := Prod.mk.inj (Except.ok.inj hret)
        refine .inr (.inr ⟨rfl, rfl, rfl, ?_⟩)
        rintro _ _ _ ⟨⟩ hx
        exact hok hx.2
  | retry w bit =>
    refine .inr (.inr ?_)
    rw [handleStep, bind_ok (getCpu_apply c vm)] at hrun
    obtain ⟨word, t, hload, hret⟩ := bind_eq_ok hrun
    obtain ⟨rfl, rfl⟩ := atomicLoad_ok hload
    split_ifs at hret <;> obtain ⟨rfl, rfl⟩ := Prod.mk.inj (Except.ok.inj hret)
    · exact ⟨rfl, rfl, nextWord_inFlight w, nofun⟩
    · exact ⟨rfl, rfl, rfl, nofun⟩
  | entering intNo =>
    obtain ⟨_, t, henter, hret⟩ := bind_eq_ok hrun
    obtain ⟨rfl, rfl⟩ := Prod.mk.inj (Except.ok.inj hret)
    exact .inr (.inl ⟨intNo, rfl, rfl, henter⟩)

theorem vectorAt_word (w : Fin irqBitmapWords) (bit : Fin 64) : (vectorAt w bit).val / 64 = w := by
  simp only [vectorAt]
  omega

theorem vectorAt_bit (w : Fin irqBitmapWords) (bit : Fin 64) : (vectorAt w bit).val % 64 = bit := by
  simp only [vectorAt]
  omega

theorem getLsbD_of_and_bit {word : BitVec 64} {k : ℕ} (h : word &&& (1 : BitVec 64) <<< k ≠ 0) :
    word.getLsbD k = true := by
  by_contra hk
  refine h (BitVec.eq_of_getLsbD_eq fun j hj => ?_)
  rw [BitVec.getLsbD_and, getLsbD_bit hj]
  by_cases hjk : j = k
  · subst hjk
    simp [Bool.not_eq_true _ ▸ hk]
  · simp [hjk]

theorem sameInterrupts_pendingSet (h : SameInterrupts vm vm') :
    vm'.pendingSet = vm.pendingSet := by
  simp only [Vm.pendingSet, Vm.pending, h.bitmap, h.smpCores]

/-- The acknowledge clears its two bits of the first word. -/
theorem pendingSet_ack (vm : Vm) :
    (vm.setWord serialAckWord (vm.interruptBitmap serialAckWord &&& serialAckMask)).pendingSet =
      vm.pendingSet \ {(0, intKeyboard.toNat), (0, intSerial.toNat)} := by
  let cleared := vm.setWord 0 (vm.interruptBitmap 0 &&& ~~~((1 : BitVec 64) <<< 3))
  have hserial : cleared.pendingSet = vm.pendingSet \ {(0, 3)} :=
    pendingSet_clear vm 0 (n := 3) (by decide)
  have hkeyboard := pendingSet_clear cleared 0 (n := 0) (by decide)
  have hword : vm.setWord serialAckWord (vm.interruptBitmap serialAckWord &&& serialAckMask) =
      cleared.setWord 0 (cleared.interruptBitmap 0 &&& ~~~((1 : BitVec 64) <<< 0)) := by
    have hmask : serialAckMask =
        ~~~((1 : BitVec 64) <<< 3) &&& ~~~((1 : BitVec 64) <<< 0) := by decide
    simp only [cleared, Vm.setWord, hmask, Function.update_self, Function.update_idem,
      BitVec.and_assoc]
    rfl
  rw [hword]
  refine hkeyboard.trans ?_
  rw [hserial, Set.sdiff_sdiff, Set.union_comm]
  rfl

/-- A successful exchange takes one pending vector away. -/
theorem pendingSet_exchange {c : ℕ} {w : Fin irqBitmapWords} {bit : Fin 64} {word : BitVec 64}
    {spurious : Bool} (hc : c < vm.smpCores) (hid : (vm.cpus c).coreId = c)
    (h : exchangeSucceeds vm c w bit word spurious) :
    (c, (vectorAt w bit).val) ∈ vm.pendingSet ∧
      (vm.setWord ((vm.cpus c).coreId * irqBitmapWords + w)
        (word &&& ~~~((1 : BitVec 64) <<< bit.val))).pendingSet =
      vm.pendingSet \ {(c, (vectorAt w bit).val)} := by
  obtain ⟨hmask, -, hword⟩ := h
  rw [hid] at hword ⊢
  constructor
  · refine ⟨hc, (vectorAt w bit).isLt, ?_⟩
    simp only [Vm.pending, vectorAt_word, vectorAt_bit, hword]
    exact getLsbD_of_and_bit hmask
  · have hclear := pendingSet_clear vm c (vectorAt w bit).isLt
    rw [vectorAt_word, vectorAt_bit, hword] at hclear
    exact hclear

end Steps

/-! ## Every interleaving -/

variable {M : ℕ} {smpCores : ℤ} {s t : Racing} {v : Vectors}

/-- The racing threads and the vectors as they should be treated agree. -/
structure Represents (s : Racing) (v : Vectors) : Prop where
  pending : s.vm.pendingSet = v.pending
  entering : ∀ c, v.entering c = (s.handling c).inFlight
  coreId : ∀ c, c < s.vm.smpCores → (s.vm.cpus c).coreId = c

theorem inFlight_update {handling : ℕ → Handling} {entering : ℕ → Option ℕ}
    (h : ∀ c, entering c = (handling c).inFlight) (c : ℕ) (at' : Handling) :
    ∀ d, Function.update entering c at'.inFlight d =
      (Function.update handling c at' d).inFlight := by
  intro d
  by_cases hdc : d = c
  · subst hdc
    simp
  · simp [hdc, h d]

/-- Without a note the two sides stay related. -/
theorem Represents.quiet (hR : Represents s v) (h : SameInterrupts s.vm t.vm)
    (hflight : ∀ c, (t.handling c).inFlight = (s.handling c).inFlight) : Represents t v where
  pending := (sameInterrupts_pendingSet h).trans hR.pending
  entering c := (hR.entering c).trans (hflight c).symm
  coreId c hc := (h.coreId c).trans (hR.coreId c (h.smpCores ▸ hc))

theorem represents_trigger (hR : Represents s v) {coreId : ℤ} {intNo : BitVec 32}
    (h : (race M smpCores).step s (.trigger coreId intNo) t) :
    Legal Vectors.allows Vectors.apply v (notes s (.trigger coreId intNo)) ∧
      Represents t ((notes s (.trigger coreId intNo)).foldl Vectors.apply v) := by
  obtain ⟨hrun, hhandling⟩ := h
  obtain ⟨hout, heq⟩ | ⟨hin, heq⟩ := triggerInterruptTarget_cases hrun
  · simp only [notes, if_pos hout]
    refine ⟨trivial, hR.quiet ?_ fun c => by rw [hhandling]⟩
    rw [heq]
    exact ⟨rfl, rfl, fun _ => rfl⟩
  · simp only [notes, if_neg hin]
    refine ⟨⟨trivial, trivial⟩, ?_, ?_, ?_⟩
    · rw [heq]
      have hset := pendingSet_set s.vm (c := coreId.toNat) (n := intNo.toNat) (by omega) (by omega)
      exact hset.trans (congrArg (insert _) hR.pending)
    · intro c
      rw [hhandling]
      exact hR.entering c
    · rw [heq]
      exact hR.coreId

theorem represents_acknowledge (hR : Represents s v)
    (h : (race M smpCores).step s .acknowledge t) :
    Legal Vectors.allows Vectors.apply v (notes s .acknowledge) ∧
      Represents t ((notes s .acknowledge).foldl Vectors.apply v) := by
  obtain ⟨hrun, hhandling⟩ := h
  have heq := serialAck_eq hrun
  refine ⟨⟨trivial, trivial⟩, ?_, ?_, ?_⟩
  · rw [heq, pendingSet_ack, hR.pending]
    rfl
  · intro c
    rw [hhandling]
    exact hR.entering c
  · rw [heq]
    exact hR.coreId

theorem represents_handle (hR : Represents s v) {c : ℕ} {spurious : Bool}
    (h : (race M smpCores).step s (.handle c spurious) t) :
    Legal Vectors.allows Vectors.apply v (notes s (.handle c spurious)) ∧
      Represents t ((notes s (.handle c spurious)).foldl Vectors.apply v) := by
  obtain ⟨hc, h', hrun, hhandling⟩ := h
  obtain ⟨w, bit, word, hat, hx, hnext, heq⟩ | ⟨intNo, hat, hnext, henter⟩ |
    ⟨heq, hnone, hnone', hno⟩ := handleStep_cases hrun
  · obtain ⟨hpending, hset⟩ := pendingSet_exchange hc (hR.coreId c hc) hx
    simp only [notes, hat, if_pos hx]
    refine ⟨⟨⟨hR.pending ▸ hpending, ?_⟩, trivial⟩, ?_, ?_, ?_⟩
    · rw [hR.entering c, hat]
      rfl
    · rw [heq, hset, hR.pending]
      rfl
    · rw [hhandling, hnext]
      exact inFlight_update hR.entering c (.entering (vectorAt w bit))
    · rw [heq]
      exact hR.coreId
  · have hquiet := (((quiet_cpuFree s.vm).core c).vmEnterInterrupt (fun _ => trivial)
      (quiet s.vm).memory _).ok ⟨rfl, rfl, fun _ => rfl⟩ henter
    simp only [notes, hat]
    refine ⟨⟨?_, trivial⟩, ?_, ?_, ?_⟩
    · change v.entering c = _
      rw [hR.entering c, hat]
      rfl
    · exact (sameInterrupts_pendingSet hquiet).trans hR.pending
    · rw [hhandling, hnext]
      exact inFlight_update hR.entering c .idle
    · exact fun d hd => (hquiet.coreId d).trans (hR.coreId d (hquiet.smpCores ▸ hd))
  · have hnotes : notes s (.handle c spurious) = [] := by
      simp only [notes]
      split
      · rename_i w bit word hat
        exact if_neg (hno w bit word hat)
      · rename_i intNo hat
        rw [hat] at hnone
        cases hnone
      · rfl
    rw [hnotes]
    refine ⟨trivial, hR.quiet ?_ fun d => ?_⟩
    · rw [heq]
      exact ⟨rfl, rfl, fun _ => rfl⟩
    · rw [hhandling]
      by_cases hdc : d = c
      · subst hdc
        rw [Function.update_self, hnone, hnone']
      · rw [Function.update_of_ne hdc]

/-- The step lemma: whichever thread moves, the vectors change as its note says. -/
theorem represents_step (l : RaceLabel) (hR : Represents s v) (h : (race M smpCores).step s l t) :
    Legal Vectors.allows Vectors.apply v (notes s l) ∧
      Represents t ((notes s l).foldl Vectors.apply v) := by
  cases l with
  | trigger coreId intNo => exact represents_trigger hR h
  | acknowledge => exact represents_acknowledge hR h
  | handle c spurious => exact represents_handle hR h
  | other => exact ⟨trivial, hR.quiet h.1 fun c => by rw [h.2]⟩

/-- Booting leaves every word of the bitmap zero. -/
theorem init_bitmap {vm : Vm} (h : (machine M smpCores).init vm) {i : ℕ}
    (hi : i < vm.smpCores * irqBitmapWords) : vm.interruptBitmap i = 0 := by
  obtain ⟨clock, memcheck, image, program, data, layout, hboot⟩ := h
  obtain ⟨vm₀, -, hivt⟩ := boot_eq_ok hboot
  obtain ⟨_, t, -, hrest⟩ := bind_eq_ok hivt
  obtain ⟨_, t', hzero, hflags⟩ := bind_eq_ok hrest
  obtain ⟨-, rfl⟩ := Prod.mk.inj (Except.ok.inj hzero)
  have hvm : vm = _ := ((Prod.mk.inj (Except.ok.inj hflags)).2).symm
  rw [hvm] at hi ⊢
  exact if_pos hi

theorem represents_init (h : (race M smpCores).init s) : Represents s .none := by
  obtain ⟨hvm, hidle⟩ := h
  refine ⟨?_, fun c => by rw [hidle]; rfl, ?_⟩
  · ext ⟨c, n⟩
    simp only [Vm.pendingSet, Set.mem_ofPred_eq, Vectors.none, Set.mem_empty_iff_false, iff_false]
    rintro ⟨hc, hn, hbit⟩
    change n < 256 at hn
    have hzero : s.vm.interruptBitmap (c * irqBitmapWords + n / 64) = 0 :=
      init_bitmap hvm (by change _ < _ * 4; change c * 4 + _ < _; omega)
    simp [Vm.pending, hzero] at hbit
  · obtain ⟨clock, memcheck, image, program, data, layout, hboot⟩ := hvm
    have hinv := boot_inv hboot
    intro c hc
    exact (hinv.core c (hinv.smpCores ▸ hc)).coreId

/-- The operation takes vector `n` of core `c` away. -/
def Note.Clears (c n : ℕ) : Note → Prop
  | .acknowledged => c = 0 ∧ (n = intKeyboard.toNat ∨ n = intSerial.toNat)
  | .consumed d m => d = c ∧ m = n
  | _ => False

theorem pending_apply {c n : ℕ} {x : Note} (h : (c, n) ∈ v.pending) (hx : ¬ x.Clears c n) :
    (c, n) ∈ (v.apply x).pending := by
  cases x with
  | triggered d m => exact Set.mem_insert_of_mem _ h
  | acknowledged =>
    refine ⟨h, fun hmem => hx ?_⟩
    simpa [Note.Clears, ← and_or_left] using hmem
  | consumed d m =>
    refine ⟨h, fun hmem => hx ?_⟩
    obtain ⟨rfl, rfl⟩ := Prod.mk.inj hmem
    exact ⟨rfl, rfl⟩
  | entered d m => exact h

/-- A pending vector stays pending until an operation takes it away. -/
theorem pending_foldl {c n : ℕ} {later : List Note} (h : (c, n) ∈ v.pending)
    (hlater : ∀ x ∈ later, ¬ x.Clears c n) : (c, n) ∈ (later.foldl Vectors.apply v).pending := by
  induction later generalizing v with
  | nil => exact h
  | cons x later ih =>
    refine ih (pending_apply h (hlater x (List.mem_cons_self ..))) fun y hy => ?_
    exact hlater y (List.mem_cons_of_mem _ hy)

/-- What a step does to the pending vectors and, where it concerns one, to the core. -/
def VectorEffect (s : Racing) (l : RaceLabel) (t : Racing) : Prop :=
  match l with
  | .trigger coreId intNo =>
    t.vm.pendingSet =
      if coreId < 0 ∨ coreId ≥ s.vm.smpCores ∨ intNo.toNat ≥ ivtSize then s.vm.pendingSet
      else insert (coreId.toNat, intNo.toNat) s.vm.pendingSet
  | .acknowledge =>
    t.vm.pendingSet = s.vm.pendingSet \ {(0, intKeyboard.toNat), (0, intSerial.toNat)}
  | .handle c spurious =>
    (∀ w bit word, s.handling c = .attempt w bit word →
      exchangeSucceeds s.vm c w bit word spurious →
      (c, (vectorAt w bit).val) ∈ s.vm.pendingSet ∧
        t.vm.pendingSet = s.vm.pendingSet \ {(c, (vectorAt w bit).val)} ∧
        t.handling c = .entering (vectorAt w bit)) ∧
    ((∀ w bit word, s.handling c = .attempt w bit word →
      ¬ exchangeSucceeds s.vm c w bit word spurious) → t.vm.pendingSet = s.vm.pendingSet) ∧
    (∀ intNo, s.handling c = .entering intNo →
      vmEnterInterrupt c (BitVec.ofNat 32 intNo) s.vm = .ok ((), t.vm) ∧ t.handling c = .idle)
  | .other => t.vm.pendingSet = s.vm.pendingSet

theorem vectorEffect_handle (hR : Represents s v) {c : ℕ} {spurious : Bool}
    (h : (race M smpCores).step s (.handle c spurious) t) :
    VectorEffect s (.handle c spurious) t := by
  have hset := (represents_handle hR h).2.pending
  obtain ⟨hc, h', hrun, hhandling⟩ := h
  have hat' : t.handling c = h' := by rw [hhandling, Function.update_self]
  refine ⟨?_, ?_, ?_⟩
  · intro w bit word hat hx
    obtain ⟨hpending, hclear⟩ := pendingSet_exchange hc (hR.coreId c hc) hx
    rw [hat] at hrun
    obtain ⟨_, _, _, ⟨⟩, -, hnext, heq⟩ | ⟨_, ⟨⟩, -⟩ | ⟨-, -, -, hno⟩ := handleStep_cases hrun
    · exact ⟨hpending, heq ▸ hclear, hat'.trans hnext⟩
    · exact absurd hx (hno w bit word rfl)
  · intro hno
    obtain ⟨w, bit, word, hat, hx, -⟩ | ⟨intNo, hat, -⟩ | ⟨heq, -⟩ := handleStep_cases hrun
    · exact absurd hx (hno w bit word hat)
    · simp only [notes, hat, List.foldl_cons, List.foldl_nil, Vectors.apply] at hset
      exact hset.trans hR.pending.symm
    · rw [heq]
  · intro intNo hat
    rw [hat] at hrun
    obtain ⟨_, _, _, ⟨⟩, -⟩ | ⟨_, ⟨⟩, hnext, henter⟩ | ⟨-, ⟨⟩, -⟩ := handleStep_cases hrun
    exact ⟨henter, hat'.trans hnext⟩

theorem vectorEffect_step (l : RaceLabel) (hR : Represents s v)
    (h : (race M smpCores).step s l t) : VectorEffect s l t := by
  have hset := (represents_step l hR h).2.pending
  cases l with
  | trigger coreId intNo =>
    simp only [VectorEffect, notes] at hset ⊢
    split_ifs at hset ⊢
    · exact hset.trans hR.pending.symm
    · exact hset.trans (congrArg (insert _) hR.pending.symm)
  | acknowledge => exact hset.trans (congrArg (· \ _) hR.pending.symm)
  | handle c spurious => exact vectorEffect_handle hR h
  | other => exact hset.trans hR.pending.symm

/-! ## The uninterrupted call -/

section Uninterrupted

variable {c : ℕ} {vm vm' : Vm} {handling : ℕ → Handling}

/-- The state with core `c` at a place of its call. -/
def Racing.atPlace (vm : Vm) (handling : ℕ → Handling) (c : ℕ) (h : Handling) : Racing :=
  ⟨vm, Function.update handling c h⟩

theorem handle_step {h h' : Handling} (hc : c < vm.smpCores)
    (hrun : handleStep c false h vm = .ok (h', vm')) :
    (race M smpCores).step (.atPlace vm handling c h) (.handle c false)
      (.atPlace vm' handling c h') := by
  refine ⟨hc, h', ?_, ?_⟩
  · simp only [Racing.atPlace, Function.update_self]
    exact hrun
  · simp only [Racing.atPlace, Function.update_idem]

theorem lowestBit_ne {word : BitVec 64} (hne : word ≠ 0) :
    word &&& (1 : BitVec 64) <<< word.ctz.toNat ≠ 0 := by
  intro h
  have hbit := BitVec.getLsbD_true_ctz_of_ne_zero hne
  have hzero := congrArg (fun x => x.getLsbD word.ctz.toNat) h
  simp only [BitVec.getLsbD_and, getLsbD_bit (ctz_lt hne), hbit] at hzero
  simp at hzero

/-- The lowest bit of a nonzero word is taken by the first exchange. -/
theorem attempt_run {w : Fin irqBitmapWords} {word : BitVec 64} (hc : c < vm.smpCores)
    (hid : (vm.cpus c).coreId = c) (hword : vm.interruptBitmap (c * irqBitmapWords + w) = word)
    (hne : word ≠ 0) :
    handleStep c false (.attempt w ⟨word.ctz.toNat, ctz_lt hne⟩ word) vm =
      .ok (.entering (vectorAt w ⟨word.ctz.toNat, ctz_lt hne⟩), vm.setWord
        (c * irqBitmapWords + w) (word &&& ~~~((1 : BitVec 64) <<< word.ctz.toNat))) := by
  have hidx : c * irqBitmapWords + w < vm.smpCores * irqBitmapWords := by
    have hw : w.val < 4 := w.isLt
    change c * 4 + w.val < vm.smpCores * 4
    omega
  simp only [handleStep, bind_apply, getCpu_apply, if_neg (lowestBit_ne hne),
    atomicCompareExchangeWeak, get_apply, hid, checkIndex_of_lt hidx, pure_apply, hword, and_self, if_true, set_apply]
  rfl

theorem deliverFirst_run {k w : ℕ} (hwk : w + k = irqBitmapWords) (hc : c < vm.smpCores)
    (hid : (vm.cpus c).coreId = c)
    (hrun : deliverFirst c c (List.range' w k) vm = .ok ((), vm')) :
    ∃ ls, Run (race M smpCores)
      (.atPlace vm handling c (if h : w < irqBitmapWords then .scan ⟨w, h⟩ else .idle)) ls
      (.atPlace vm' handling c .idle) := by
  induction k generalizing w with
  | zero =>
    obtain ⟨-, rfl⟩ := Prod.mk.inj (Except.ok.inj hrun)
    rw [dif_neg (by omega)]
    exact ⟨[], .nil⟩
  | succ k ih =>
    have hw : w < irqBitmapWords := by omega
    have hidx : c * irqBitmapWords + w < vm.smpCores * irqBitmapWords := by
      change w < 4 at hw
      change c * 4 + w < vm.smpCores * 4
      omega
    simp only [List.range'_succ, deliverFirst, bind_apply, get_apply, checkIndex_of_lt hidx,
      pure_apply] at hrun
    rw [dif_pos hw]
    by_cases hzero : vm.interruptBitmap (c * irqBitmapWords + w) = 0
    · rw [if_pos hzero] at hrun
      obtain ⟨ls, hls⟩ := ih (by omega) hrun
      refine ⟨_, Run.cons (handle_step hc ?_) hls⟩
      simp only [handleStep, bind_apply, getCpu_apply, atomicLoad, get_apply, hid,
        checkIndex_of_lt hidx, pure_apply, hzero, dif_pos]
      rfl
    · rw [if_neg hzero] at hrun
      have hload : handleStep c false (.scan ⟨w, hw⟩) vm = .ok (.attempt ⟨w, hw⟩
          ⟨_, ctz_lt hzero⟩ (vm.interruptBitmap (c * irqBitmapWords + w)), vm) := by
        simp only [handleStep, bind_apply, getCpu_apply, atomicLoad, get_apply, hid,
          checkIndex_of_lt hidx, pure_apply, dif_neg hzero]
      have htake := attempt_run (w := ⟨w, hw⟩) hc hid rfl hzero
      have henter : handleStep c false (.entering (vectorAt ⟨w, hw⟩ ⟨_, ctz_lt hzero⟩))
          (vm.setWord (c * irqBitmapWords + w) _) = .ok (.idle, vm') := bind_ok hrun
      exact ⟨_, Run.cons (handle_step hc hload) (Run.cons (handle_step hc htake)
        (Run.cons (handle_step hc henter) .nil))⟩

/-- The sequential model of `vm_handle_interrupts` is the interleaving in which no
other thread moves during the call. -/
theorem vmHandleInterrupts_run (hc : c < vm.smpCores) (hid : (vm.cpus c).coreId = c)
    (hrun : vmHandleInterrupts c vm = .ok ((), vm')) :
    ∃ ls, Run (race M smpCores) (.atPlace vm handling c .idle) ls
      (.atPlace vm' handling c .idle) := by
  simp only [vmHandleInterrupts, bind_apply, getCpu_apply, hid] at hrun
  split_ifs at hrun with hint hmasked
  · obtain ⟨-, rfl⟩ := Prod.mk.inj (Except.ok.inj hrun)
    exact ⟨[], .nil⟩
  · obtain ⟨-, rfl⟩ := Prod.mk.inj (Except.ok.inj hrun)
    exact ⟨[], .nil⟩
  · rw [List.range_eq_range'] at hrun
    obtain ⟨ls, hls⟩ := deliverFirst_run (w := 0) (Nat.zero_add _) hc hid hrun
    rw [dif_pos (by decide)] at hls
    refine ⟨_, Run.cons (handle_step hc ?_) hls⟩
    simp only [handleStep, bind_apply, getCpu_apply, if_neg hint, if_neg hmasked, pure_apply]
    rfl

end Uninterrupted

/-- In every interleaving no pending vector is lost or duplicated. The history is one
that the vectors allow: a consumption takes a vector that is pending, and the vector
entered is the one consumed. What is pending is what the history says. Every step
changes the pending vectors only as its operation should, and a pending vector stays
pending until it is consumed or acknowledged. A call of `vm_handle_interrupts` is a run
of these steps (`vmHandleInterrupts_run`). -/
theorem pending_vectors_conserved {log : List Note}
    (h : Reachable ((race M smpCores).logged notes) (s, log)) :
    Legal Vectors.allows Vectors.apply .none log ∧
    Represents s (log.foldl Vectors.apply .none) ∧
    (∀ l t, (race M smpCores).step s l t → VectorEffect s l t) ∧
    ∀ ls q, Run ((race M smpCores).logged notes) (s, log) ls q → ∃ later, q.2 = log ++ later ∧
      ∀ c n, (c, n) ∈ s.vm.pendingSet → (∀ x ∈ later, ¬ x.Clears c n) →
        (c, n) ∈ q.1.vm.pendingSet := by
  have hrefines {p : Racing × List Note} (hp : Reachable ((race M smpCores).logged notes) p) :=
    hp.refines (fun _ hs => represents_init hs) fun _ l _ _ hR hs => represents_step l hR hs
  obtain ⟨hlegal, hR⟩ := hrefines h
  refine ⟨hlegal, hR, fun l t hs => vectorEffect_step l hR hs, fun ls q hrun => ?_⟩
  obtain ⟨later, hlater⟩ := hrun.logged_append
  refine ⟨later, hlater, fun c n hpending hclear => ?_⟩
  have hq := (hrefines (h.run hrun)).2.pending
  rw [hlater, List.foldl_append] at hq
  rw [hq]
  exact pending_foldl (hR.pending ▸ hpending) hclear

theorem triggerInterruptTarget_of_lt (vm : Vm) {c : ℕ} {n : BitVec 32} (hc : c < vm.smpCores)
    (hn : n.toNat < ivtSize) : triggerInterruptTarget c n vm =
      .ok ((), vm.setWord (irqWordIndex c n)
        (vm.interruptBitmap (irqWordIndex c n) ||| irqBitMask n)) := by
  have hcore : ¬ ((c : ℤ) < 0 ∨ (c : ℤ) ≥ vm.smpCores) := by omega
  have hidx : irqWordIndex c n < vm.smpCores * irqBitmapWords := by
    change n.toNat < 256 at hn
    change c * 4 + n.toNat / 64 < vm.smpCores * 4
    omega
  simp only [triggerInterruptTarget, bind_apply, get_apply, if_neg hcore, Int.toNat_natCast,
    if_neg (Nat.not_le.mpr hn), checkIndex_of_lt hidx, pure_apply]
  rfl

theorem logged_handle {vm v : Vm} {handling : ℕ → Handling} {c : ℕ} {h h' : Handling}
    (log : List Note) {later : List Note} (hc : c < vm.smpCores)
    (hrun : handleStep c false h vm = .ok (h', v))
    (hlater : notes (.atPlace vm handling c h) (.handle c false) = later) :
    ((race M smpCores).logged notes).step (.atPlace vm handling c h, log) (.handle c false)
      (.atPlace v handling c h', log ++ later) :=
  ⟨handle_step hc hrun, congrArg (log ++ ·) hlater.symm⟩

/-- A core takes the lowest vector of its first word. -/
theorem taken_run {vm v : Vm} {word : BitVec 64} {n : Fin ivtSize} (log : List Note)
    (hc : 0 < vm.smpCores) (hid : (vm.cpus 0).coreId = 0) (hout : (vm.cpus 0).inInterrupt = 0)
    (hmask : (vm.cpus 0).irqMasked = 0) (hword : vm.interruptBitmap 0 = word) (hne : word ≠ 0)
    (hn : vectorAt 0 ⟨word.ctz.toNat, ctz_lt hne⟩ = n)
    (henter : vmEnterInterrupt 0 (BitVec.ofNat 32 n)
      (vm.setWord 0 (word &&& ~~~((1 : BitVec 64) <<< word.ctz.toNat))) = .ok ((), v)) :
    Run ((race M smpCores).logged notes) (.atPlace vm (fun _ => .idle) 0 .idle, log)
      [.handle 0 false, .handle 0 false, .handle 0 false, .handle 0 false]
      (.atPlace v (fun _ => .idle) 0 .idle, log ++ [.consumed 0 n, .entered 0 n]) := by
  have hat : (vm.cpus 0).coreId * irqBitmapWords + (0 : Fin irqBitmapWords).val = 0 := by
    rw [hid]
    rfl
  have hidx : 0 < vm.smpCores * irqBitmapWords := Nat.mul_pos hc (by decide)
  have htest : handleStep 0 false .idle vm = .ok (.scan 0, vm) := by
    simp only [handleStep, bind_apply, getCpu_apply, if_neg (not_not.mpr hout),
      if_neg (not_not.mpr hmask), pure_apply]
  have hload : handleStep 0 false (.scan 0) vm =
      .ok (.attempt 0 ⟨word.ctz.toNat, ctz_lt hne⟩ word, vm) := by
    subst hword
    simp only [handleStep, bind_apply, getCpu_apply, atomicLoad, get_apply, hat,
      checkIndex_of_lt hidx, pure_apply, dif_neg hne]
  have htake := attempt_run (w := 0) hc hid hword hne
  have hdone : handleStep 0 false (.entering n) _ = .ok (.idle, v) := bind_ok henter
  have hexchange : exchangeSucceeds vm 0 0 ⟨word.ctz.toNat, ctz_lt hne⟩ word false :=
    ⟨lowestBit_ne hne, rfl, by rw [hat, hword]⟩
  rw [hn] at htake
  have hidle : notes (.atPlace vm (fun _ => .idle) 0 .idle) (.handle 0 false) = [] := by
    simp [notes, Racing.atPlace]
  have hscan : notes (.atPlace vm (fun _ => .idle) 0 (.scan 0)) (.handle 0 false) = [] := by
    simp [notes, Racing.atPlace]
  have hattempt : notes (.atPlace vm (fun _ => .idle) 0
      (.attempt 0 ⟨word.ctz.toNat, ctz_lt hne⟩ word)) (.handle 0 false) = [.consumed 0 n] := by
    simp only [notes, Racing.atPlace, Function.update_self, if_pos hexchange, hn]
  have hentering (u : Vm) : notes (.atPlace u (fun _ => .idle) 0 (.entering n)) (.handle 0 false) =
      [.entered 0 n] := by
    simp [notes, Racing.atPlace]
  have hrun : Run ((race M smpCores).logged notes) _ _ _ :=
    .cons (logged_handle log hc htest hidle) (.cons (logged_handle _ hc hload hscan)
      (.cons (logged_handle _ hc htake hattempt)
        (.cons (logged_handle _ (show 0 < (vm.setWord _ _).smpCores from hc) hdone (hentering _))
          .nil)))
  simpa using hrun

/-- A vector is triggered, the core consumes it and enters its handler. -/
theorem pending_vectors_conserved_entered : ∃ s t : Racing, ∃ ls,
    Reachable ((race memSize 1).logged notes) (s, [.triggered 0 5]) ∧
    s.vm.pendingSet = {(0, 5)} ∧
    Run ((race memSize 1).logged notes) (s, [.triggered 0 5]) ls
      (t, [.triggered 0 5, .consumed 0 5, .entered 0 5]) ∧
    t.vm.pendingSet = ∅ ∧ (t.vm.cpus 0).inInterrupt = 1 ∧ (t.vm.cpus 0).regs 31 = 5 := by
  obtain ⟨vm, hvm⟩ := exists_started ⟨fun _ => 0, fun _ => 0, 0⟩ [] (by decide)
  have hinv := reachable_inv (.of_init hvm.init)
  let isr : Vm := vm.registered 5 (BitVec.ofNat 32 programBase)
  let u : Vm := isr.setWord 0 32
  have hpos : 0 < isr.smpCores := by
    change 0 < vm.smpCores
    rw [hvm.smpCores]
    decide
  have hzero : isr.interruptBitmap = fun _ => 0 := hvm.bitmap
  have hcore : isr.cpus 0 = initCpu memSize 1 (BitVec.ofNat 32 programBase) 0 := hvm.core
  have hinit : Reachable ((race memSize 1).logged notes)
      (.atPlace vm (fun _ => .idle) 0 .idle, []) :=
    .of_init ⟨⟨hvm.init, Function.update_eq_self 0 _⟩, rfl⟩
  have hset : Reachable ((race memSize 1).logged notes)
      (.atPlace isr (fun _ => .idle) 0 .idle, []) :=
    hinit.logged_step (l := RaceLabel.other) ⟨⟨rfl, rfl, fun _ => rfl⟩, rfl⟩ rfl
  have htrigger : triggerInterruptTarget ((0 : ℕ) : ℤ) 5 isr = .ok ((), u) := by
    have hidx : irqWordIndex 0 5 = 0 := by decide
    have hbit : (0 : BitVec 64) ||| irqBitMask 5 = 32 := by decide
    rw [triggerInterruptTarget_of_lt isr hpos (by decide), hidx, hzero, hbit]
  have hnote : notes (.atPlace isr (fun _ => .idle) 0 .idle) (.trigger (0 : ℕ) 5) =
      [.triggered 0 5] := by
    refine if_neg ?_
    change ¬ (((0 : ℕ) : ℤ) < 0 ∨ ((0 : ℕ) : ℤ) ≥ isr.smpCores ∨ (5 : BitVec 32).toNat ≥ 256)
    have h5 : (5 : BitVec 32).toNat = 5 := rfl
    omega
  have hpending : Reachable ((race memSize 1).logged notes)
      (.atPlace u (fun _ => .idle) 0 .idle, [.triggered 0 5]) :=
    hset.logged_step (l := RaceLabel.trigger (0 : ℕ) 5) ⟨htrigger, rfl⟩ hnote
  have hclear : MachineInv memSize (coreCount 1) (CoreInv memSize (coreCount 1) settled)
      (u.setWord 0 0) := hinv.congr rfl
  have hvector : (u.setWord 0 0).ivtWord 5 ≠ BitVec.allOnes 64 := by
    change isr.ivtWord 5 ≠ BitVec.allOnes 64
    rw [ivtWord_registered]
    decide
  obtain ⟨v, henter, hcpu, -⟩ := vmEnterInterrupt_saves (c := 0) (n := 5) (by decide)
    (isrRegion_of_inv (by decide) (by decide) hclear)
    (show (isr.cpus 0).isp = isrStackSize by rw [hcore]; rfl)
    (show (isr.cpus 0).inInterrupt = 0 by rw [hcore]; rfl) (ivtEntry_plain hclear (by decide))
    hvector
  have hword : u.interruptBitmap 0 = 32 := by
    simp only [u, Vm.setWord, Function.update_self]
  have hbit : (32 : BitVec 64).ctz.toNat = 5 := by decide +kernel
  have hlast : (32 : BitVec 64) &&& ~~~((1 : BitVec 64) <<< (32 : BitVec 64).ctz.toNat) = 0 := by
    rw [hbit]
    decide
  have hfive : vectorAt 0 ⟨(32 : BitVec 64).ctz.toNat, ctz_lt (by decide)⟩ = (5 : Fin ivtSize) := by
    simp only [hbit]
    rfl
  have hrun : Run ((race memSize 1).logged notes) _ _ _ := taken_run (n := 5) [.triggered 0 5]
    (show 0 < u.smpCores from hpos) (show (isr.cpus 0).coreId = 0 by rw [hcore]; rfl)
    (show (isr.cpus 0).inInterrupt = 0 by rw [hcore]; rfl)
    (show (isr.cpus 0).irqMasked = 0 by rw [hcore]; rfl) hword (by decide)
    hfive (by rw [hlast]; exact henter)
  refine ⟨_, _, _, hpending, ?_, hrun, ?_, ?_, ?_⟩
  · rw [(pending_vectors_conserved hpending).2.1.pending]
    exact insert_empty_eq (0, 5)
  · rw [(pending_vectors_conserved (hpending.run hrun)).2.1.pending]
    change insert ((0 : ℕ), (5 : ℕ)) ∅ \ {(0, 5)} = (∅ : Set (ℕ × ℕ))
    simp
  · change (v.cpus 0).inInterrupt = 1
    rw [hcpu]
    rfl
  · change (v.cpus 0).regs 31 = 5
    rw [hcpu]
    rfl

end LampVm
