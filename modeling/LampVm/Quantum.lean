import LampVm.Reentry
import LampVm.SleepDeadline

/-!
# The quantum

`schedule_tick` counts the ticks of the running task and asks for another selection when the
count comes to the quantum. The count starts again when the task yields, sleeps or is woken,
but not when its quantum is spent: the next time it is selected it is interrupted at its
first tick. As long as every task that `sched_run` switches to has a count of zero, each of
them gets its whole quantum.
-/
namespace LampVm

open Transition

/-! ## What a tick does -/

/-- The current task is one that `schedule_tick` charges. -/
def Sched.Charges (s : Sched) : Prop :=
  (s.tasks s.currentIdx).used = true ∧ (s.tasks s.currentIdx).isIdle = false ∧
    (s.tasks s.currentIdx).state = .running

instance (s : Sched) : Decidable s.Charges := inferInstanceAs (Decidable (_ ∧ _))

/-- `schedule_tick` asks for a reschedule on account of the quantum. -/
def Sched.QuantumSpent (s : Sched) : Prop :=
  s.Charges ∧ (s.tasks s.currentIdx).quantumUsed + 1 ≥ schedQuantumTicks

instance (s : Sched) : Decidable s.QuantumSpent := inferInstanceAs (Decidable (_ ∧ _))

/-- The first half of `schedule_tick`. -/
def Sched.woken (s : Sched) : Sched :=
  schedTryWakeSleepers (s.ticks + 1) { s with ticks := s.ticks + 1 }

def Sched.charged (s : Sched) : Sched :=
  s.setTask s.currentIdx
    { s.tasks s.currentIdx with quantumUsed := (s.tasks s.currentIdx).quantumUsed + 1 }

/-- The count of a slot is kept or starts again, and the idle slot stays the idle one. -/
structure CountKept (k : TaskIdx) (a b : TaskSlot) : Prop where
  count : b.quantumUsed = a.quantumUsed ∨ b.quantumUsed = 0
  idle : k = 0 → b.isIdle = a.isIdle

theorem callRel_countKept : CallRel CountKept where
  refl _ _ := ⟨.inl rfl, fun _ => rfl⟩
  trans h h' := by
    refine ⟨?_, fun hk => (h'.idle hk).trans (h.idle hk)⟩
    rcases h'.count with hsame | hzero
    · rw [hsame]
      exact h.count
    · exact .inr hzero
  detach _ _ := ⟨.inl rfl, fun _ => rfl⟩
  wake _ _ := ⟨.inr rfl, fun _ => rfl⟩
  yield _ _ _ := ⟨.inr rfl, fun _ => rfl⟩
  sleep _ _ _ := ⟨.inr rfl, fun _ => rfl⟩
  block _ _ _ _ := ⟨.inr rfl, fun _ => rfl⟩
  exit _ _ _ := ⟨.inr rfl, fun _ => rfl⟩
  spawn _ _ _ _ _ hk := ⟨.inr rfl, fun h => absurd h hk⟩
  clear _ _ hactive := ⟨.inr rfl, fun _ => hactive.symm⟩
  enter _ _ _ := ⟨.inl rfl, fun _ => rfl⟩
  leave _ _ := ⟨.inl rfl, fun _ => rfl⟩

section Tick

variable {s : Sched}

theorem woken_countKept (s : Sched) : Slotwise CountKept s s.woken := by
  have hR := callRel_countKept.toWakeRel
  have hticks : Slotwise CountKept s { s with ticks := s.ticks + 1 } :=
    ⟨rfl, fun k => hR.refl k (s.tasks k)⟩
  exact .trans hR hticks (Slotwise.tryWakeSleepers hR (s.ticks + 1) { s with ticks := s.ticks + 1 })

theorem woken_tasks (s : Sched) (i : TaskIdx) :
    s.woken.tasks i = (s.tasks i).afterTick (s.ticks + 1) := by
  have hslot := tryWakeSleepers_tasks (s.ticks + 1) (List.nodup_finRange schedMaxTasks)
    { s with ticks := s.ticks + 1 } i
  rwa [if_pos (List.mem_finRange i)] at hslot

/-- A running task is not woken. -/
theorem woken_of_charges (h : s.Charges) : s.woken.tasks s.currentIdx = s.tasks s.currentIdx := by
  rw [woken_tasks, TaskSlot.afterTick, if_neg]
  rintro ⟨-, hsleeping | hblocked, -⟩
  · cases h.2.2.symm.trans hsleeping
  · cases h.2.2.symm.trans hblocked

theorem charges_woken_iff : s.woken.Charges ↔ s.Charges := by
  unfold Sched.Charges
  rw [(woken_countKept s).current]
  constructor
  · rw [woken_tasks, TaskSlot.afterTick]
    split_ifs
    · rintro ⟨-, -, hrunning⟩
      cases hrunning
    · exact id
  · intro h
    rwa [woken_of_charges h]

/-- What `schedule_tick` does after it has woken the sleepers. -/
theorem scheduleTick_charged (h : s.Charges) : scheduleTick s =
    if s.QuantumSpent then s.woken.charged.resched else s.woken.charged := by
  have hslot : s.woken.tasks s.woken.currentIdx = s.tasks s.currentIdx := by
    rw [(woken_countKept s).current, woken_of_charges h]
  obtain ⟨hused, hactive, hrunning⟩ := charges_woken_iff.mpr h
  have hcharged : (s.woken.tasks s.woken.currentIdx).used = true ∧
      ¬ (s.woken.tasks s.woken.currentIdx).isIdle = true ∧
        (s.woken.tasks s.woken.currentIdx).state = .running :=
    ⟨hused, by rw [hactive]; decide, hrunning⟩
  have hspent : s.QuantumSpent ↔
      (s.woken.tasks s.woken.currentIdx).quantumUsed + 1 ≥ schedQuantumTicks := by
    rw [Sched.QuantumSpent, hslot]
    exact and_iff_right h
  rw [if_congr hspent rfl rfl]
  exact if_pos hcharged

theorem scheduleTick_uncharged (h : ¬ s.Charges) : scheduleTick s = s.woken := by
  refine if_neg ?_
  rintro ⟨hused, hactive, hrunning⟩
  exact h (charges_woken_iff.mp ⟨hused, Bool.eq_false_iff.mpr hactive, hrunning⟩)

theorem scheduleTick_tasks (h : s.Charges) : (scheduleTick s).tasks =
    Function.update s.woken.tasks s.currentIdx
      { s.tasks s.currentIdx with quantumUsed := (s.tasks s.currentIdx).quantumUsed + 1 } := by
  have htasks : (scheduleTick s).tasks = s.woken.charged.tasks := by
    rw [scheduleTick_charged h]
    split_ifs
    · rfl
    · rfl
  rw [htasks, Sched.charged, (woken_countKept s).current, woken_of_charges h]
  rfl

end Tick

/-! ## Ticks since the last switch -/

/-- `sched_run` switches to a task. With `changing`, only a task other than the one before
counts as one that is switched to; otherwise every task that is selected does. -/
def Sched.Switches (changing : Bool) (s : Sched) : Prop :=
  (s.needResched = true ∨ ¬ schedIdxRunnable s s.currentIdx = true) ∧
    (changing = true → schedPickNextIdx s ≠ s.currentIdx)

instance (changing : Bool) (s : Sched) : Decidable (s.Switches changing) :=
  inferInstanceAs (Decidable (_ ∧ _))

inductive QuantumNote
  | switched (i : TaskIdx)
  | charged (i : TaskIdx)
  | spawned (i : TaskIdx)
  deriving DecidableEq, Repr

/-- What a step notes: a switch of `sched_run`, a tick charged to a task, or a new task. -/
def quantumNotes (changing : Bool) (s : KernelState) : KernelLabel → List QuantumNote
  | .select =>
    if s.sched.Switches changing then [.switched (schedPickNextIdx s.sched)] else []
  | .handle _ =>
    if s.irq = some (.entered .timer) ∧ s.sched.Charges then [.charged s.sched.currentIdx] else []
  | .call (.spawn (some _)) => ((schedAllocSlot s.sched).map .spawned).toList
  | _ => []

def QuantumNote.count (c : TaskIdx → ℕ) : QuantumNote → TaskIdx → ℕ
  | .switched i => Function.update c i 0
  | .charged i => Function.update c i (c i + 1)
  | .spawned i => Function.update c i 0

/-- The ticks charged to each task since `sched_run` last switched to it, or since it was
spawned. -/
def chargedTicks (log : List QuantumNote) : TaskIdx → ℕ :=
  log.foldl QuantumNote.count fun _ => 0

/-- A task that `sched_run` switches to starts with a count of zero. -/
def FreshSwitch (changing : Bool) (p : KernelState × List QuantumNote) (l : KernelLabel) : Prop :=
  l = .select → p.1.sched.Switches changing →
    (p.1.sched.tasks (schedPickNextIdx p.1.sched)).quantumUsed = 0

/-- The kernel with the notes on switches and charged ticks. -/
def quantumRuns (memorySize : ℕ) (smpCores : ℤ) (changing : Bool) :
    System (KernelState × List QuantumNote) KernelLabel :=
  (kernel memorySize smpCores).logged (quantumNotes changing)

/-! ## The count is covered by the charged ticks -/

/-- Every count is at most the number of ticks that were charged. -/
def CountsBelow (s : Sched) (c : TaskIdx → ℕ) : Prop := ∀ k, (s.tasks k).quantumUsed.toNat ≤ c k

section Counts

variable {s t : Sched} {c : TaskIdx → ℕ} {i : TaskIdx}

theorem CountsBelow.kept (h : CountsBelow s c)
    (hkept : ∀ k, CountKept k (s.tasks k) (t.tasks k)) : CountsBelow t c := by
  intro k
  rcases (hkept k).count with hsame | hzero
  · rw [hsame]
    exact h k
  · rw [hzero]
    exact Nat.zero_le (c k)

theorem CountsBelow.reset (h : CountsBelow s c) (hzero : (s.tasks i).quantumUsed = 0) :
    CountsBelow s (Function.update c i 0) := by
  intro k
  by_cases hk : k = i
  · rw [hk, hzero, Function.update_self]
    exact le_rfl
  · rw [Function.update_of_ne hk]
    exact h k

theorem CountsBelow.tick (h : CountsBelow s c) (hcharges : s.Charges) :
    CountsBelow (scheduleTick s) (Function.update c s.currentIdx (c s.currentIdx + 1)) := by
  intro k
  rw [scheduleTick_tasks hcharges]
  by_cases hk : k = s.currentIdx
  · rw [hk, Function.update_self, Function.update_self]
    refine le_trans ?_ (Nat.succ_le_succ (h s.currentIdx))
    exact (BitVec.toNat_add _ _).trans_le (Nat.mod_le _ _)
  · rw [Function.update_of_ne hk, Function.update_of_ne hk]
    exact h.kept (woken_countKept s).slot k

theorem schedSpawn_count {entry : ℕ} (halloc : schedAllocSlot s = some i) :
    ((schedSpawn (some entry) s).2.tasks i).quantumUsed = 0 := by
  unfold schedSpawn
  rw [halloc]
  simp only [Sched.resched, schedWaitqInit, Sched.setTask, Function.update_self]

/-- Before `sched_run` nothing is charged: the boot code runs as the idle task. -/
theorem bootSched_counts (h : BootSched s) :
    s.currentIdx = 0 ∧ (s.tasks 0).isIdle = true ∧ ∀ k, (s.tasks k).quantumUsed = 0 := by
  have hkept {s t : Sched} (hslots : Slotwise CountKept s t)
      (h : s.currentIdx = 0 ∧ (s.tasks 0).isIdle = true ∧ ∀ k, (s.tasks k).quantumUsed = 0) :
      t.currentIdx = 0 ∧ (t.tasks 0).isIdle = true ∧ ∀ k, (t.tasks k).quantumUsed = 0 := by
    obtain ⟨hcurrent, hidle, hcount⟩ := h
    refine ⟨hslots.current.trans hcurrent, ((hslots.slot 0).idle rfl).trans hidle, fun k => ?_⟩
    exact (hslots.slot k).count.elim (fun hsame => hsame.trans (hcount k)) id
  induction h with
  | init => exact ⟨rfl, rfl, by decide⟩
  | call c _ ih => exact hkept (.call callRel_countKept c _) ih
  | handle d bytes _ ih =>
    have hR := callRel_countKept.toWakeRel
    cases d with
    | timer =>
      refine hkept (?_ : Slotwise CountKept _ (scheduleTick _)) ih
      rw [scheduleTick_uncharged]
      · exact woken_countKept _
      · rintro ⟨-, hactive, -⟩
        rw [ih.1, ih.2.1] at hactive
        cases hactive
    | keyboard | serial => exact hkept (.iterate hR (Slotwise.wakeOne hR .console) bytes _) ih
    | disk => exact ih

end Counts

section Steps

variable {M : ℕ} {smpCores : ℤ} {changing : Bool} {s t : KernelState}

/-- No step but a tick charges a task. -/
theorem KernelStep.countKept {l : KernelLabel} (hstep : KernelStep s l t)
    (hl : ∀ bytes, l = .handle bytes → s.irq ≠ some (.entered .timer)) (k : TaskIdx) :
    CountKept k (s.sched.tasks k) (t.sched.tasks k) := by
  have hR := callRel_countKept
  have hsame : CountKept k (s.sched.tasks k) (s.sched.tasks k) := hR.refl k _
  cases hstep with
  | select hirq hstack =>
    have hselected : CountKept k (s.sched.tasks k) ((runSelect s.sched).tasks k) := by
      unfold runSelect
      split_ifs
      · exact hsame
      · exact hsame
    unfold KernelState.select
    dsimp only
    split_ifs
    · exact Slotwise.runSelect_enter hR s.sched _ k
    · exact hselected
  | call c hirq hstack hplace hidle => exact (Slotwise.call hR c s.sched).slot k
  | @block a rest hirq hstack hplace hidle =>
    unfold KernelState.block
    split
    · exact hsame
    · split_ifs
      · exact hsame
      · exact hsame
  | test hirq hstack hplace => exact hsame
  | @pump a rest self hirq hstack hplace =>
    unfold KernelState.pump
    dsimp only
    split_ifs
    · exact (Slotwise.enterTask hR (schedPickNextIdx s.sched)
        { s.sched with currentIdx := schedPickNextIdx s.sched }).slot k
    · exact hsame
  | @ret a rest hirq hstack hplace htrap => exact (Slotwise.leaveTask hR a.idx s.sched).slot k
  | int hirq hstack hplace hidle htrap hrun => exact hsame
  | iretTrap hirq hstack hplace htrap hrun => exact hsame
  | deliver hirq hclear hmask hrun henter => exact hsame
  | @handle d bytes hirq =>
    cases d with
    | timer => exact absurd hirq (hl bytes rfl)
    | keyboard | serial =>
      exact (Slotwise.iterate hR.toWakeRel (Slotwise.wakeOne hR.toWakeRel .console) bytes
        s.sched).slot k
    | disk => exact hsame
  | iret hirq hrun => exact hsame
  | other hflag => exact hsame

theorem chargedTicks_append (log notes : List QuantumNote) :
    chargedTicks (log ++ notes) = notes.foldl QuantumNote.count (chargedTicks log) :=
  List.foldl_append

/-- The step lemma: a count only rises with the charged ticks, and a switch, which starts
these again, meets a count of zero. -/
theorem countsBelow_step {p q : KernelState × List QuantumNote} {l : KernelLabel}
    (h : CountsBelow p.1.sched (chargedTicks p.2)) (hfresh : FreshSwitch changing p l)
    (hstep : (quantumRuns M smpCores changing).step p l q) :
    CountsBelow q.1.sched (chargedTicks q.2) := by
  obtain ⟨s, log⟩ := p
  obtain ⟨t, log'⟩ := q
  obtain ⟨hkernel, hlog⟩ := hstep
  dsimp only at h hkernel hlog ⊢
  rw [hlog, chargedTicks_append]
  by_cases htick : s.irq = some (.entered .timer) ∧ ∃ bytes, l = .handle bytes
  · obtain ⟨htimer, bytes, rfl⟩ := htick
    cases hkernel with
    | @handle d bytes hirq =>
      obtain rfl : d = .timer := IrqPlace.entered.inj (Option.some.inj (hirq.symm.trans htimer))
      change CountsBelow (scheduleTick s.sched) _
      by_cases hcharges : s.sched.Charges
      · rw [quantumNotes, if_pos ⟨htimer, hcharges⟩]
        exact h.tick hcharges
      · rw [quantumNotes, if_neg fun hboth => hcharges hboth.2, scheduleTick_uncharged hcharges]
        exact h.kept (woken_countKept s.sched).slot
  · have hkept := hkernel.countKept fun bytes hl htimer => htick ⟨htimer, bytes, hl⟩
    have hbelow := h.kept hkept
    cases l with
    | select =>
      rw [quantumNotes]
      split_ifs with hswitches
      · refine hbelow.reset ?_
        have hzero := hfresh rfl hswitches
        exact (hkept _).count.elim (fun hsame => hsame.trans hzero) id
      · exact hbelow
    | call c =>
      cases hkernel with
      | call c hirq hstack hplace hidle =>
        cases c with
        | spawn entry =>
          cases entry with
          | none => exact hbelow
          | some entry =>
            rw [quantumNotes]
            cases halloc : schedAllocSlot s.sched with
            | none => exact hbelow
            | some i => exact hbelow.reset (schedSpawn_count halloc)
        | _ => exact hbelow
    | handle bytes =>
      rw [quantumNotes, if_neg fun hboth => htick ⟨hboth.1, bytes, rfl⟩]
      exact hbelow
    | _ => exact hbelow

theorem reachable_countsBelow {p : KernelState × List QuantumNote}
    (h : Reachable ((quantumRuns M smpCores changing).restrict (FreshSwitch changing)) p) :
    CountsBelow p.1.sched (chargedTicks p.2) := by
  refine h.invariant (P := fun p => CountsBelow p.1.sched (chargedTicks p.2)) ?_ ?_
  · rintro p ⟨⟨-, -, hboot, -, -⟩, -⟩ k
    rw [(bootSched_counts hboot).2.2 k]
    exact Nat.zero_le _
  · rintro p l q hbelow ⟨hfresh, hstep⟩
    exact countsBelow_step hbelow hfresh hstep

end Steps

/-! ## Every switch gets a full quantum -/

/-- In every run in which each task that `sched_run` switches to starts with a count of zero,
a reschedule on account of the quantum comes only after the task was charged a whole quantum
since that switch. -/
theorem full_quantum_of_fresh {M : ℕ} {smpCores : ℤ} {changing : Bool}
    {p q : KernelState × List QuantumNote} {bytes : ℕ}
    (h : Reachable ((quantumRuns M smpCores changing).restrict (FreshSwitch changing)) p)
    (hstep : (quantumRuns M smpCores changing).step p (.handle bytes) q)
    (htimer : p.1.irq = some (.entered .timer)) (hspent : p.1.sched.QuantumSpent) :
    schedQuantumTicks.toNat ≤ chargedTicks q.2 p.1.sched.currentIdx := by
  obtain ⟨hcharges, hge⟩ := hspent
  have hcount := reachable_countsBelow h p.1.sched.currentIdx
  rw [hstep.2, chargedTicks_append, quantumNotes, if_pos ⟨htimer, hcharges⟩]
  change _ ≤ Function.update (chargedTicks p.2) p.1.sched.currentIdx _ p.1.sched.currentIdx
  rw [Function.update_self]
  calc schedQuantumTicks.toNat
      ≤ ((p.1.sched.tasks p.1.sched.currentIdx).quantumUsed + 1).toNat := hge
    _ ≤ (p.1.sched.tasks p.1.sched.currentIdx).quantumUsed.toNat + 1 :=
      (BitVec.toNat_add _ _).trans_le (Nat.mod_le _ _)
    _ ≤ chargedTicks p.2 p.1.sched.currentIdx + 1 := Nat.succ_le_succ hcount

/-! ## Turns of two busy tasks -/

/-- A machine that takes a timer interrupt and returns from it. -/
structure TakesTicks (vm v w : Vm) : Prop where
  flag : vm.interrupted = false
  mask : (vm.cpus 0).irqMasked = 0
  enter : vmEnterInterrupt 0 Device.timer.vector vm = .ok ((), v)
  set : v.interrupted = true
  ret : vmIret 0 v = .ok ((), w)

/-- `sched_run` selects and enters a task. -/
def selected (i : TaskIdx) (s : Sched) : Sched :=
  enterTask i { s with needResched := false, currentIdx := i }

/-- The next turn is that of another task, which can be invoked. -/
structure NextTurn (s : Sched) (i : TaskIdx) : Prop where
  resched : s.needResched = true
  next : schedPickNextIdx s = i
  other : i ≠ s.currentIdx
  invoke : invocable s i = true

instance (s : Sched) (i : TaskIdx) : Decidable (NextTurn s i) :=
  decidable_of_iff (s.needResched = true ∧ schedPickNextIdx s = i ∧ i ≠ s.currentIdx ∧
    invocable s i = true) ⟨fun h => ⟨h.1, h.2.1, h.2.2.1, h.2.2.2⟩,
      fun h => ⟨h.resched, h.next, h.other, h.invoke⟩⟩

section Turns

variable {changing : Bool} {C : KernelState × List QuantumNote → KernelLabel → Prop} {vm v w : Vm}
  {s : Sched} {stack : List Activation} {log : List QuantumNote} {i : TaskIdx}

theorem charges_scheduleTick (h : s.Charges) :
    (scheduleTick s).Charges ∧ (scheduleTick s).currentIdx = s.currentIdx := by
  have hcurrent : (scheduleTick s).currentIdx = s.currentIdx := by
    rw [scheduleTick_charged h]
    split_ifs
    · exact (woken_countKept s).current
    · exact (woken_countKept s).current
  refine ⟨?_, hcurrent⟩
  rw [Sched.Charges, hcurrent, scheduleTick_tasks h, Function.update_self]
  exact h

theorem reachable_delivered (hC : ∀ p l, l ≠ .select → C p l) (hvm : TakesTicks vm v w)
    (h : Reachable ((quantumRuns memSize 1 changing).restrict C) (⟨vm, s, stack, none⟩, log)) :
    Reachable ((quantumRuns memSize 1 changing).restrict C)
      (⟨v, s, stack, some (.entered .timer)⟩, log) :=
  h.step (l := .deliver .timer) ⟨hC _ _ KernelLabel.noConfusion,
    KernelStep.deliver rfl hvm.flag hvm.mask hvm.enter hvm.set, (List.append_nil log).symm⟩

theorem step_ticked (hcharges : s.Charges) : (quantumRuns memSize 1 changing).step
    (⟨v, s, stack, some (.entered .timer)⟩, log) (.handle 0)
    (⟨v, scheduleTick s, stack, some .handled⟩, log ++ [.charged s.currentIdx]) := by
  refine ⟨@KernelStep.handle _ .timer 0 rfl, ?_⟩
  rw [quantumNotes, if_pos ⟨rfl, hcharges⟩]

/-- A tick between two steps of a task. -/
theorem reachable_ticked (hC : ∀ p l, l ≠ .select → C p l) (hvm : TakesTicks vm v w)
    (hcharges : s.Charges)
    (h : Reachable ((quantumRuns memSize 1 changing).restrict C) (⟨vm, s, stack, none⟩, log)) :
    Reachable ((quantumRuns memSize 1 changing).restrict C)
      (⟨vm, scheduleTick s, stack, none⟩, log ++ [.charged s.currentIdx]) := by
  have hticked := (reachable_delivered hC hvm h).step
    ⟨hC _ (.handle 0) KernelLabel.noConfusion, step_ticked hcharges⟩
  have hreturned : Reachable ((quantumRuns memSize 1 changing).restrict C)
      (⟨w, scheduleTick s, stack, none⟩, log ++ [.charged s.currentIdx]) :=
    hticked.step (l := .iret) ⟨hC _ _ KernelLabel.noConfusion, KernelStep.iret rfl hvm.ret,
      (List.append_nil _).symm⟩
  have hflag : (vm.cpus 0).inInterrupt = (w.cpus 0).inInterrupt := by
    have hclear := hvm.flag
    have hclear' := vmIret_interrupted hvm.ret
    simp only [Vm.interrupted, decide_eq_false_iff_not, not_not] at hclear hclear'
    rw [hclear, hclear']
  exact hreturned.step (l := .other) ⟨hC _ _ KernelLabel.noConfusion, KernelStep.other hflag,
    (List.append_nil _).symm⟩

theorem reachable_ticks (hC : ∀ p l, l ≠ .select → C p l) (hvm : TakesTicks vm v w)
    (hcharges : s.Charges)
    (h : Reachable ((quantumRuns memSize 1 changing).restrict C) (⟨vm, s, stack, none⟩, log))
    (n : ℕ) : Reachable ((quantumRuns memSize 1 changing).restrict C)
      (⟨vm, scheduleTick^[n] s, stack, none⟩, log ++ List.replicate n (.charged s.currentIdx)) := by
  induction n generalizing s log with
  | zero => simpa using h
  | succ n ih =>
    obtain ⟨hnext, hcurrent⟩ := charges_scheduleTick hcharges
    have hrest := ih hnext (reachable_ticked hC hvm hcharges h)
    rwa [hcurrent, List.append_assoc, List.singleton_append, ← List.replicate_succ] at hrest

theorem reachable_selected (hnext : NextTurn s i) (hC : C (⟨vm, s, [], none⟩, log) .select)
    (h : Reachable ((quantumRuns memSize 1 changing).restrict C) (⟨vm, s, [], none⟩, log)) :
    Reachable ((quantumRuns memSize 1 changing).restrict C)
      (⟨vm, selected i s, [⟨i, none, false, .running⟩], none⟩, log ++ [.switched i]) := by
  refine h.step (l := .select) ⟨hC, ?_, ?_⟩
  · exact kernelStep_select vm hnext.resched hnext.next hnext.invoke
  · have hswitches : s.Switches changing :=
      ⟨.inl hnext.resched, fun _ => hnext.next.symm ▸ hnext.other⟩
    rw [quantumNotes, if_pos hswitches, hnext.next]

theorem reachable_returned (hC : ∀ p l, l ≠ .select → C p l)
    (h : Reachable ((quantumRuns memSize 1 changing).restrict C)
      (⟨vm, s, [⟨i, none, false, .running⟩], none⟩, log)) :
    Reachable ((quantumRuns memSize 1 changing).restrict C)
      (⟨vm, leaveTask i s, [], none⟩, log) :=
  h.step (l := .ret)
    ⟨hC _ _ KernelLabel.noConfusion, kernelStep_ret vm s i, (List.append_nil _).symm⟩

/-- A turn of four ticks, after which the callback returns. -/
def busyTurn (i : TaskIdx) (s : Sched) : Sched := leaveTask i (scheduleTick^[4] (selected i s))

theorem reachable_busyTurn (hC : ∀ p l, l ≠ .select → C p l) (hvm : TakesTicks vm v w)
    (hnext : NextTurn s i) (hcharges : (selected i s).Charges)
    (hselect : C (⟨vm, s, [], none⟩, log) .select)
    (h : Reachable ((quantumRuns memSize 1 changing).restrict C) (⟨vm, s, [], none⟩, log)) :
    Reachable ((quantumRuns memSize 1 changing).restrict C) (⟨vm, busyTurn i s, [], none⟩,
      log ++ [.switched i] ++ List.replicate 4 (.charged (selected i s).currentIdx)) :=
  reachable_returned hC (reachable_ticks hC hvm hcharges (reachable_selected hnext hselect h) 4)

end Turns

theorem exists_takesTicks : ∃ vm v w, Reachable (machine memSize 1) vm ∧ TakesTicks vm v w := by
  obtain ⟨vm, v, w, hreach, hflag, hmask, henter, hset, hret⟩ :=
    exists_handled_vector (n := intTimer) (by decide)
  exact ⟨vm, v, w, hreach, hflag, hmask, henter, hset, hret⟩

/-- The first turn of a task is a full one. -/
theorem full_quantum_first_turn : ∃ p q,
    Reachable ((quantumRuns memSize 1 true).restrict (FreshSwitch true)) p ∧
      (quantumRuns memSize 1 true).step p (.handle 0) q ∧ p.1.sched.QuantumSpent ∧
      schedQuantumTicks.toNat ≤ chargedTicks q.2 p.1.sched.currentIdx := by
  obtain ⟨vm, v, w, hreach, hvm⟩ := exists_takesTicks
  have hC : ∀ p l, l ≠ .select → FreshSwitch true p l := fun p l hne hl => absurd hl hne
  have h₀ : Reachable ((quantumRuns memSize 1 true).restrict (FreshSwitch true))
      (⟨vm, twoTasks, [], none⟩, []) := .of_init ⟨⟨hreach, hvm.flag, twoTasks_boot, rfl, rfl⟩, rfl⟩
  have hzero : (twoTasks.tasks (schedPickNextIdx twoTasks)).quantumUsed = 0 := by decide
  have hcharges : (selected 1 twoTasks).Charges := by decide
  have hspent : (scheduleTick^[3] (selected 1 twoTasks)).QuantumSpent := by decide +kernel
  have h := reachable_delivered hC hvm (reachable_ticks hC hvm hcharges
    (reachable_selected (by decide) (fun _ _ => hzero) h₀) 3)
  generalize scheduleTick^[3] (selected 1 twoTasks) = third at h hspent
  exact ⟨_, _, h, step_ticked hspent.1, hspent, full_quantum_of_fresh h (step_ticked hspent.1) rfl
    hspent⟩

/-- A run in which the quantum is spent one tick after a switch. -/
def CutShort (changing : Bool) : Prop :=
  ∃ p q, Reachable (quantumRuns memSize 1 changing) p ∧
    (quantumRuns memSize 1 changing).step p (.handle 0) q ∧
      p.1.irq = some (.entered .timer) ∧ p.1.sched.QuantumSpent ∧
      chargedTicks q.2 p.1.sched.currentIdx = 1

/-- In its second turn the first of two busy tasks is charged one tick. -/
theorem second_turn_cut_short (changing : Bool) : CutShort changing := by
  obtain ⟨vm, v, w, hreach, hvm⟩ := exists_takesTicks
  have hC : ∀ (p : KernelState × List QuantumNote) (l : KernelLabel), l ≠ .select → True :=
    fun _ _ _ => trivial
  have h₀ : Reachable ((quantumRuns memSize 1 changing).restrict fun _ _ => True)
      (⟨vm, twoTasks, [], none⟩, []) := .of_init ⟨⟨hreach, hvm.flag, twoTasks_boot, rfl, rfl⟩, rfl⟩
  have h₁ := reachable_busyTurn (i := 1) hC hvm (by decide) (by decide) trivial h₀
  have h₂ := reachable_busyTurn (i := 2) hC hvm (by decide +kernel) (by decide +kernel) trivial h₁
  have h₃ := reachable_selected (i := 1) (by decide +kernel) trivial h₂
  have hspent : (selected 1 (busyTurn 2 (busyTurn 1 twoTasks))).QuantumSpent := by decide +kernel
  have hcurrent : (selected 1 (busyTurn 2 (busyTurn 1 twoTasks))).currentIdx = 1 := rfl
  have h₄ := (reachable_delivered hC hvm h₃).of_restrict
  generalize selected 1 (busyTurn 2 (busyTurn 1 twoTasks)) = second at h₄ hspent hcurrent
  refine ⟨_, _, h₄, step_ticked hspent.1, rfl, hspent, ?_⟩
  rw [hcurrent]
  rfl

theorem quantum_cut_short : CutShort true ∧ CutShort false :=
  ⟨second_turn_cut_short true, second_turn_cut_short false⟩

end LampVm
