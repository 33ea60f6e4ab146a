import LampVm.Kernel

/-!
# Invocations of one callback

A task that waits is still inside its callback, but nothing in its slot says so once
it is runnable again: `sched_pick_next_idx` looks at states only. A loop that waits
further in can therefore invoke the callback of a task that waits further out. It
does so exactly when such a task is the first runnable slot behind the current one;
while no loop meets such a task, no callback is entered twice.
-/
namespace LampVm

open Contract Transition

/-- How many slots `sched_pick_next_idx` looks at before slot `i`. -/
def pickDistance (current i : TaskIdx) : TaskIdx := i - current - 1

/-- A task whose callback has not returned is the first runnable one behind the
current slot. -/
def WaiterNext (s : KernelState) : Prop :=
  ∃ a ∈ s.stack, invocable s.sched a.idx = true ∧
    ∀ j, pickDistance s.sched.currentIdx j < pickDistance s.sched.currentIdx a.idx →
      schedIdxRunnable s.sched j = false

/-- No wait loop comes to a task whose callback has not returned. -/
def PassesWaiters (s : KernelState) (l : KernelLabel) : Prop :=
  l = .pump → ¬ WaiterNext s

/-- No callback is entered while an earlier invocation of it has not returned. -/
def EnteredOnce (s : KernelState) : Prop := (s.stack.map Activation.idx).Nodup

/-- All activations but the innermost wait, and the idle task never does. -/
structure StackInv (s : KernelState) : Prop where
  outer : ∀ a ∈ s.stack.tail, ∃ self, a.place = .pumping self
  active : ∀ a ∈ s.stack, a.place ≠ .running → a.idx ≠ 0

variable {M : ℕ} {smpCores : ℤ} {s t : KernelState}

/-! ## The choice of the next slot -/

theorem pickOrder_getElem (current : TaskIdx) (k : ℕ) (hk : k < (pickOrder current).length) :
    (pickOrder current)[k] = current + ⟨k, by simpa [pickOrder] using hk⟩ + 1 := by
  simp [pickOrder]

theorem pickDistance_add (current off : TaskIdx) : pickDistance current (current + off + 1) = off := by
  unfold pickDistance
  abel

theorem add_pickDistance (current i : TaskIdx) : current + pickDistance current i + 1 = i := by
  unfold pickDistance
  abel

/-- The slot that is found is the nearest one. -/
theorem find_pickOrder {p : TaskIdx → Bool} {current i : TaskIdx} :
    (pickOrder current).find? p = some i ↔
      p i = true ∧ ∀ j, pickDistance current j < pickDistance current i → p j = false := by
  rw [List.find?_eq_some_iff_getElem]
  constructor
  · rintro ⟨hp, k, hk, rfl, hbefore⟩
    refine ⟨hp, fun j hj => ?_⟩
    rw [pickOrder_getElem, pickDistance_add] at hj
    have hjk := hbefore (pickDistance current j).val hj
    rw [pickOrder_getElem] at hjk
    simpa [add_pickDistance] using hjk
  · rintro ⟨hp, hbefore⟩
    have hlen : (pickDistance current i).val < (pickOrder current).length := by
      simp [pickOrder]
    refine ⟨hp, (pickDistance current i).val, hlen, ?_, fun j hj => ?_⟩
    · rw [pickOrder_getElem]
      exact add_pickDistance current i
    · rw [pickOrder_getElem]
      simpa using hbefore _ (by rw [pickDistance_add]; exact hj)

theorem schedPickNextIdx_eq {i : TaskIdx} (hi : i ≠ 0) :
    schedPickNextIdx s.sched = i ↔ schedIdxRunnable s.sched i = true ∧
      ∀ j, pickDistance s.sched.currentIdx j < pickDistance s.sched.currentIdx i →
        schedIdxRunnable s.sched j = false := by
  rw [← find_pickOrder, schedPickNextIdx]
  cases h : (pickOrder s.sched.currentIdx).find? (schedIdxRunnable s.sched) with
  | none => simpa using hi.symm
  | some j => simp

theorem schedIdxRunnable_of_invocable {i : TaskIdx} (hi : i ≠ 0)
    (h : invocable s.sched i = true) : schedIdxRunnable s.sched i = true := by
  simp only [invocable, Bool.and_eq_true] at h
  simp only [schedIdxRunnable, Bool.and_eq_true]
  exact ⟨⟨by simpa using hi, h.1.1⟩, h.2⟩

/-! ## Turns -/

/-- `sched_run` selects a task that can be invoked. -/
theorem kernelStep_select (vm : Vm) {s : Sched} {i : TaskIdx} (hresched : s.needResched = true)
    (hnext : schedPickNextIdx s = i) (hinvoke : invocable s i = true) :
    KernelStep ⟨vm, s, [], none⟩ .select
      ⟨vm, enterTask i { s with needResched := false, currentIdx := i },
        [⟨i, none, false, .running⟩], none⟩ := by
  have hselect : KernelState.select ⟨vm, s, [], none⟩ =
      ⟨vm, enterTask i { s with needResched := false, currentIdx := i },
        [⟨i, none, false, .running⟩], none⟩ := by
    have hrun : runSelect s = { s with needResched := false, currentIdx := i } := by
      rw [runSelect, if_pos (.inl hresched), hnext]
    rw [KernelState.select, hrun]
    exact if_pos hinvoke
  rw [← hselect]
  exact KernelStep.select rfl rfl

/-- The callback returns to `sched_run`. -/
theorem kernelStep_ret (vm : Vm) (s : Sched) (i : TaskIdx) :
    KernelStep ⟨vm, s, [⟨i, none, false, .running⟩], none⟩ .ret ⟨vm, leaveTask i s, [], none⟩ :=
  @KernelStep.ret ⟨vm, s, [⟨i, none, false, .running⟩], none⟩ ⟨i, none, false, .running⟩ [] rfl
    rfl rfl rfl

/-! ## The stack -/

@[simp] theorem pumped_idx (a : Activation) : a.pumped.idx = a.idx := by
  unfold Activation.pumped
  split <;> rfl

/-- What a step does to the stack. -/
inductive StackStep (s : KernelState) (l : KernelLabel) (stack : List Activation) : Prop
  | same (h : stack = s.stack)
  | enter (i : TaskIdx) (hempty : s.stack = []) (h : stack = [⟨i, none, false, .running⟩])
  | move {a b : Activation} {rest : List Activation} (hstack : s.stack = a :: rest)
      (h : stack = b :: rest) (hidx : b.idx = a.idx)
      (hactive : b.place ≠ .running → a.idx ≠ 0 ∨ a.place ≠ .running)
  | nest {a : Activation} {rest : List Activation} {self : TaskIdx} (hpump : l = .pump)
      (hstack : s.stack = a :: rest) (hplace : a.place = .pumping self)
      (hinvoke : invocable s.sched (schedPickNextIdx s.sched) = true)
      (h : stack = ⟨schedPickNextIdx s.sched, some s.sched.currentIdx, false, .running⟩ :: a :: rest)
  | leave {a : Activation} (hstack : s.stack = [a]) (h : stack = [])
  | resume {a b : Activation} {rest : List Activation} (hstack : s.stack = a :: b :: rest)
      (h : stack = b.pumped :: rest)

/-- The inversion lemma that the invariants of the stack share. -/
theorem KernelStep.stackStep {l : KernelLabel} (hstep : KernelStep s l t) :
    StackStep s l t.stack := by
  cases hstep with
  | select hirq hstack =>
    unfold KernelState.select
    dsimp only
    split_ifs
    · exact .enter _ hstack rfl
    · exact .same rfl
  | @block a rest hirq hstack hplace hidle =>
    unfold KernelState.block
    split
    · exact .same rfl
    · split_ifs
      · exact .same rfl
      · exact .move hstack rfl rfl fun _ => .inl hidle
  | @test a rest self hirq hstack hplace =>
    exact .move hstack rfl rfl fun _ => .inr (by simp [hplace])
  | @pump a rest self hirq hstack hplace =>
    unfold KernelState.pump
    dsimp only
    split_ifs with hinvoke
    · exact .nest rfl hstack hplace hinvoke rfl
    · exact .move hstack rfl rfl fun _ => .inr (by simp [hplace])
  | @ret a rest hirq hstack hplace htrap =>
    cases rest with
    | nil => exact .leave hstack rfl
    | cons b rest => exact .resume hstack rfl
  | @int a rest vm hirq hstack hplace hidle htrap hrun =>
    exact .move hstack rfl rfl fun _ => .inl hidle
  | @iretTrap a rest vm hirq hstack hplace htrap hrun =>
    exact .move hstack rfl rfl fun h => absurd hplace h
  | call | deliver | handle | iret | other => exact .same rfl

theorem stackInv_step {l : KernelLabel} (h : StackInv s) (hstep : KernelStep s l t) :
    StackInv t := by
  obtain ⟨houter, hactive⟩ := h
  cases hstep.stackStep with
  | same hsame =>
    rw [← hsame] at houter hactive
    exact ⟨houter, hactive⟩
  | enter i hempty hnew =>
    refine ⟨by simp [hnew], ?_⟩
    simp [hnew]
  | @move a b rest hstack hnew hidx hplace =>
    simp only [hstack, List.tail_cons, List.mem_cons, forall_eq_or_imp] at houter hactive
    refine ⟨by simpa [hnew] using houter, ?_⟩
    simp only [hnew, List.mem_cons, forall_eq_or_imp]
    refine ⟨fun hb => ?_, hactive.2⟩
    rw [hidx]
    exact (hplace hb).elim id hactive.1
  | @nest a rest self hpump hstack hplace hinvoke hnew =>
    simp only [hstack, List.tail_cons] at houter hactive
    refine ⟨?_, ?_⟩
    · simp only [hnew, List.tail_cons, List.mem_cons, forall_eq_or_imp]
      exact ⟨⟨self, hplace⟩, houter⟩
    · intro c hc hrun
      rw [hnew] at hc
      obtain rfl | hc := List.mem_cons.mp hc
      · exact absurd rfl hrun
      · exact hactive c hc hrun
  | leave hstack hnew => exact ⟨by simp [hnew], by simp [hnew]⟩
  | @resume a b rest hstack hnew =>
    simp only [hstack, List.tail_cons, List.mem_cons, forall_eq_or_imp] at houter hactive
    obtain ⟨⟨self, hb⟩, houter⟩ := houter
    refine ⟨by simpa [hnew] using fun c hc => houter c hc, ?_⟩
    simp only [hnew, List.mem_cons, forall_eq_or_imp, pumped_idx]
    exact ⟨fun _ => hactive.2.1 (by simp [hb]), hactive.2.2⟩

/-- When the innermost activation waits, no activation is of the idle task. -/
theorem StackInv.idx_ne_zero (h : StackInv s) {a : Activation} {rest : List Activation}
    {self : TaskIdx} (hstack : s.stack = a :: rest) (hplace : a.place = .pumping self) :
    ∀ b ∈ s.stack, b.idx ≠ 0 := by
  intro b hb
  refine h.active b hb ?_
  rw [hstack] at hb
  obtain rfl | hb := List.mem_cons.mp hb
  · simp [hplace]
  · obtain ⟨self', hwait⟩ := h.outer b (by simpa [hstack] using hb)
    simp [hwait]

/-- The slot that a wait loop invokes is one whose callback has not returned exactly
when such a slot is the nearest runnable one. -/
theorem waiterNext_iff (h : StackInv s) {a : Activation} {rest : List Activation}
    {self : TaskIdx} (hstack : s.stack = a :: rest) (hplace : a.place = .pumping self) :
    WaiterNext s ↔ invocable s.sched (schedPickNextIdx s.sched) = true ∧
      schedPickNextIdx s.sched ∈ s.stack.map Activation.idx := by
  have hne := h.idx_ne_zero hstack hplace
  constructor
  · rintro ⟨b, hb, hinvoke, hbefore⟩
    have hnext : schedPickNextIdx s.sched = b.idx :=
      (schedPickNextIdx_eq (hne b hb)).mpr
        ⟨schedIdxRunnable_of_invocable (hne b hb) hinvoke, hbefore⟩
    rw [hnext]
    exact ⟨hinvoke, List.mem_map_of_mem hb⟩
  · rintro ⟨hinvoke, hmem⟩
    obtain ⟨b, hb, hidx⟩ := List.mem_map.mp hmem
    rw [← hidx] at hinvoke
    exact ⟨b, hb, hinvoke, ((schedPickNextIdx_eq (hne b hb)).mp hidx.symm).2⟩

/-- The step lemma: a callback is entered a second time only by a wait loop that meets
a task whose callback has not returned. -/
theorem enteredOnce_step {l : KernelLabel} (hinv : StackInv s) (h : EnteredOnce s)
    (hok : PassesWaiters s l) (hstep : KernelStep s l t) : EnteredOnce t := by
  unfold EnteredOnce at h ⊢
  cases hstep.stackStep with
  | same hsame => rwa [hsame]
  | enter i hempty hnew => simp [hnew]
  | move hstack hnew hidx hplace =>
    rw [hnew, List.map_cons, hidx, ← List.map_cons, ← hstack]
    exact h
  | nest hpump hstack hplace hinvoke hnew =>
    rw [hnew, List.map_cons, ← hstack, List.nodup_cons]
    refine ⟨fun hmem => hok hpump ?_, h⟩
    exact (waiterNext_iff hinv hstack hplace).mpr ⟨hinvoke, hmem⟩
  | leave hstack hnew => simp [hnew]
  | resume hstack hnew =>
    rw [hstack, List.map_cons, List.nodup_cons] at h
    rw [hnew, List.map_cons, pumped_idx, ← List.map_cons]
    exact h.2

/-- A wait loop that meets such a task enters its callback again. -/
theorem not_enteredOnce_of_waiterNext (hinv : StackInv s) (hnext : WaiterNext s)
    (hstep : KernelStep s .pump t) : ¬ EnteredOnce t := by
  cases hstep with
  | @pump a rest self hirq hstack hplace =>
    obtain ⟨hinvoke, hmem⟩ := (waiterNext_iff hinv hstack hplace).mp hnext
    intro honce
    simp only [EnteredOnce, KernelState.pump, if_pos hinvoke, KernelState.invoke, List.map_cons,
      ← hstack] at honce
    exact (List.nodup_cons.mp honce).1 hmem

theorem reachable_enteredOnce (h : Reachable ((kernel M smpCores).restrict PassesWaiters) s) :
    StackInv s ∧ EnteredOnce s := by
  refine h.invariant (P := fun s => StackInv s ∧ EnteredOnce s) ?_ ?_
  · rintro s ⟨-, -, -, hstack, -⟩
    exact ⟨⟨by simp [hstack], by simp [hstack]⟩, by simp [EnteredOnce, hstack]⟩
  · rintro s l t ⟨hinv, honce⟩ ⟨hok, hstep⟩
    exact ⟨stackInv_step hinv hstep, enteredOnce_step hinv honce hok hstep⟩

/-- In every run in which no wait loop comes to a task whose callback has not
returned, no callback is ever entered twice; the first step that does come to one
enters its callback a second time. -/
theorem callbacks_entered_once (h : Reachable ((kernel M smpCores).restrict PassesWaiters) s) :
    EnteredOnce s ∧ ∀ l t, ¬ PassesWaiters s l → KernelStep s l t → ¬ EnteredOnce t := by
  obtain ⟨hinv, honce⟩ := reachable_enteredOnce h
  refine ⟨honce, fun l t hbad hstep => ?_⟩
  simp only [PassesWaiters, not_forall, not_not] at hbad
  obtain ⟨rfl, hnext⟩ := hbad
  exact not_enteredOnce_of_waiterNext hinv hnext hstep

/-! ## Two nested waits -/

/-- Two tasks, spawned at boot. -/
def twoTasks : Sched := (schedSpawn (some 2) (schedSpawn (some 1) schedInit).2).2

theorem twoTasks_boot : BootSched twoTasks := .call (.spawn (some 2)) (.call (.spawn (some 1)) .init)

def firstRunning : Sched := enterTask 1 (runSelect twoTasks)

/-- The first task calls `poll` with a timeout of a tick. -/
def firstAsleep : Sched := schedSleepTicks 1 firstRunning

def secondRunning : Sched := enterTask 2 { firstAsleep with currentIdx := 2 }

/-- The second task runs inside the wait of the first and waits longer. -/
def secondAsleep : Sched := schedSleepTicks 5 secondRunning

/-- A tick wakes the first task while the second one waits inside it. -/
def firstAwake : Sched := scheduleTick secondAsleep

theorem firstAwake_next : schedPickNextIdx firstAwake = 1 ∧ invocable firstAwake 1 = true := by
  decide

/-- The run up to the second task's invocation meets no waiter. -/
theorem secondRunning_reachable {vm : Vm} (hreach : Reachable (machine memSize 1) vm)
    (hflag : vm.interrupted = false) :
    Reachable ((kernel memSize 1).restrict PassesWaiters) ⟨vm, secondRunning,
      [⟨2, some 1, false, .running⟩, ⟨1, none, false, .pumping 1⟩], none⟩ := by
  have h₀ : Reachable ((kernel memSize 1).restrict PassesWaiters) ⟨vm, twoTasks, [], none⟩ :=
    .of_init ⟨hreach, hflag, twoTasks_boot, rfl, rfl⟩
  have h₁ : Reachable ((kernel memSize 1).restrict PassesWaiters)
      ⟨vm, firstRunning, [⟨1, none, false, .running⟩], none⟩ :=
    h₀.step (l := .select) ⟨nofun, KernelStep.select rfl rfl⟩
  have h₂ : Reachable ((kernel memSize 1).restrict PassesWaiters)
      ⟨vm, firstAsleep, [⟨1, none, false, .running⟩], none⟩ :=
    h₁.step (l := .call (.sleepTicks 1)) ⟨nofun, KernelStep.call _ rfl rfl rfl (by decide)⟩
  have h₃ : Reachable ((kernel memSize 1).restrict PassesWaiters)
      ⟨vm, firstAsleep, [⟨1, none, false, .testing 1⟩], none⟩ :=
    h₂.step (l := .block)
      ⟨nofun, KernelStep.block (a := ⟨1, none, false, .running⟩) rfl rfl rfl (by decide)⟩
  have h₄ : Reachable ((kernel memSize 1).restrict PassesWaiters)
      ⟨vm, firstAsleep, [⟨1, none, false, .pumping 1⟩], none⟩ :=
    h₃.step (l := .test) ⟨nofun, @KernelStep.test _ ⟨1, none, false, .testing 1⟩ [] 1 rfl rfl rfl⟩
  refine h₄.step (l := .pump)
    ⟨fun _ hnext => ?_, @KernelStep.pump _ ⟨1, none, false, .pumping 1⟩ [] 1 rfl rfl rfl⟩
  obtain ⟨a, ha, hinvoke, -⟩ := hnext
  obtain rfl := List.mem_singleton.mp ha
  cases hinvoke

theorem callbacks_entered_once_nested : ∃ s,
    Reachable ((kernel memSize 1).restrict PassesWaiters) s ∧
      s.stack.map Activation.idx = [2, 1] ∧ EnteredOnce s := by
  obtain ⟨vm, -, -, hreach, hflag, -⟩ := exists_handled_vector (n := intTimer) (by decide)
  have h := secondRunning_reachable hreach hflag
  exact ⟨_, h, rfl, (callbacks_entered_once h).1⟩

/-- The second task's wait loop invokes the first task again. -/
theorem callback_entered_twice :
    ¬ ∀ s, Reachable (kernel memSize 1) s → EnteredOnce s := by
  intro hall
  obtain ⟨vm, v, w, hreach, hflag, hmask, henter, hset, hret⟩ :=
    exists_handled_vector (n := intTimer) (by decide)
  have h₀ := (secondRunning_reachable hreach hflag).of_restrict
  have h₁ : Reachable (kernel memSize 1) ⟨vm, secondAsleep,
      [⟨2, some 1, false, .running⟩, ⟨1, none, false, .pumping 1⟩], none⟩ :=
    h₀.step (l := .call (.sleepTicks 5)) (KernelStep.call _ rfl rfl rfl (by decide))
  have h₂ : Reachable (kernel memSize 1) ⟨vm, secondAsleep,
      [⟨2, some 1, false, .testing 2⟩, ⟨1, none, false, .pumping 1⟩], none⟩ :=
    h₁.step (l := .block)
      (KernelStep.block (a := ⟨2, some 1, false, .running⟩) rfl rfl rfl (by decide))
  have h₃ : Reachable (kernel memSize 1) ⟨vm, secondAsleep,
      [⟨2, some 1, false, .pumping 2⟩, ⟨1, none, false, .pumping 1⟩], none⟩ :=
    h₂.step (l := .test) (@KernelStep.test _ ⟨2, some 1, false, .testing 2⟩ _ 2 rfl rfl rfl)
  have h₄ : Reachable (kernel memSize 1) ⟨v, secondAsleep,
      [⟨2, some 1, false, .pumping 2⟩, ⟨1, none, false, .pumping 1⟩], some (.entered .timer)⟩ :=
    h₃.step (l := .deliver .timer) (KernelStep.deliver rfl hflag hmask henter hset)
  have h₅ : Reachable (kernel memSize 1) ⟨v, firstAwake,
      [⟨2, some 1, false, .pumping 2⟩, ⟨1, none, false, .pumping 1⟩], some .handled⟩ :=
    h₄.step (l := .handle 0) (@KernelStep.handle _ .timer 0 rfl)
  have h₆ : Reachable (kernel memSize 1) ⟨w, firstAwake,
      [⟨2, some 1, false, .pumping 2⟩, ⟨1, none, false, .pumping 1⟩], none⟩ :=
    h₅.step (l := .iret) (KernelStep.iret rfl hret)
  have hpump : KernelStep ⟨w, firstAwake, [⟨2, some 1, false, .pumping 2⟩,
      ⟨1, none, false, .pumping 1⟩], none⟩ .pump _ := .pump rfl rfl rfl
  have honce := hall _ (h₆.step hpump)
  simp [EnteredOnce, KernelState.pump, firstAwake_next, KernelState.invoke] at honce

end LampVm
