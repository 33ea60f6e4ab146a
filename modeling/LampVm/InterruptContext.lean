import LampVm.Kernel

/-!
# Waiting in interrupt context

The flag of core 0 is set exactly while a handler runs: one of a device on top of the
stack, or the one of `INT 0x80` in the innermost activation. A system call that waits
inside the latter keeps the flag set, and then no tick and no input can reach the
kernel. As long as calls that wait are made directly, the loop that waits runs with
the flag clear.
-/
namespace LampVm

open Contract Transition

/-- Control is in the body of the loop of `sched_block_until_runnable`. -/
def InWaitLoop (s : KernelState) : Prop :=
  s.irq = none ∧ ∃ a rest self, s.stack = a :: rest ∧ a.place = .pumping self

/-- A call of `sched_block_until_runnable` would wait. -/
def wouldWait (s : Sched) : Bool :=
  match schedCurrentSlot s with
  | none => false
  | some i => !(s.tasks i).isIdle && waits s i

/-- A system call that goes on to wait is not made through `INT 0x80`. -/
def WaitsDirectly (s : KernelState) (l : KernelLabel) : Prop :=
  l = .block → wouldWait s.sched = true → ∀ a ∈ s.stack.head?, a.trapped = false

/-- Who has set the interrupt flag. -/
structure ContextInv (s : KernelState) : Prop where
  device : s.irq ≠ none → s.vm.interrupted = true ∧ ∀ a ∈ s.stack, a.trapped = false
  flag : s.irq = none → (s.vm.interrupted = true ↔ ∃ a ∈ s.stack.head?, a.trapped = true)
  tail : ∀ a ∈ s.stack.tail, a.trapped = false
  wait : ∀ a ∈ s.stack.head?, a.trapped = true →
    a.place = .running ∨ ∃ self, a.place = .testing self ∧ waits s.sched self = false

variable {M : ℕ} {smpCores : ℤ} {s t u : KernelState}

theorem ContextInv.not_inWaitLoop (h : ContextInv s) (hwait : InWaitLoop s) :
    s.vm.interrupted = false := by
  obtain ⟨hirq, a, rest, self, hstack, hplace⟩ := hwait
  by_contra hflag
  obtain ⟨b, hb, htrap⟩ := (h.flag hirq).mp (by simpa using hflag)
  obtain rfl : a = b := by simpa [hstack] using hb
  obtain hrun | ⟨_, htest, -⟩ := h.wait a hb htrap
  · rw [hplace] at hrun
    cases hrun
  · rw [hplace] at htest
    cases htest

/-- An activation on a stack without handlers. -/
theorem ContextInv.of_clear (hirq : s.irq = none) (hflag : s.vm.interrupted = false)
    (hstack : ∀ a ∈ s.stack, a.trapped = false) : ContextInv s := by
  have hhead : ∀ a ∈ s.stack.head?, a.trapped = false := fun a ha =>
    hstack a (List.mem_of_mem_head? ha)
  refine ⟨fun h => absurd hirq h, fun _ => ?_, fun a ha => hstack a (List.mem_of_mem_tail ha), ?_⟩
  · rw [hflag]
    refine ⟨nofun, ?_⟩
    rintro ⟨a, ha, htrap⟩
    rw [hhead a ha] at htrap
    cases htrap
  · intro a ha htrap
    rw [hhead a ha] at htrap
    cases htrap

/-- While no handler runs, no activation is trapped. -/
theorem ContextInv.untrapped (h : ContextInv s) (hirq : s.irq = none)
    (hflag : s.vm.interrupted = false) : ∀ a ∈ s.stack, a.trapped = false := by
  cases hstack : s.stack with
  | nil => simp
  | cons b rest =>
    intro a ha
    obtain rfl | ha := List.mem_cons.mp ha
    · by_contra htrap
      have hset := (h.flag hirq).mpr ⟨a, by simp [hstack], by simpa using htrap⟩
      rw [hflag] at hset
      cases hset
    · exact h.tail a (by simpa [hstack] using ha)

/-- The flag is clear when the innermost activation is not in a handler. -/
theorem ContextInv.clear (h : ContextInv s) (hirq : s.irq = none)
    (hhead : ∀ a ∈ s.stack.head?, a.trapped = false) : s.vm.interrupted = false := by
  by_contra hflag
  obtain ⟨a, ha, htrap⟩ := (h.flag hirq).mp (by simpa using hflag)
  rw [hhead a ha] at htrap
  cases htrap

/-- A step of the innermost activation that leaves the machine and the trap alone. -/
theorem ContextInv.head (h : ContextInv s) {a b : Activation} {rest : List Activation}
    (hirq : s.irq = none) (hstack : s.stack = a :: rest) (hirq' : t.irq = none)
    (hvm : t.vm.interrupted = s.vm.interrupted) (hstack' : t.stack = b :: rest)
    (htrap : b.trapped = a.trapped)
    (hwait : a.trapped = true →
      b.place = .running ∨ ∃ self, b.place = .testing self ∧ waits t.sched self = false) :
    ContextInv t := by
  have hflag := h.flag hirq
  have htail := h.tail
  simp only [hstack, List.head?_cons, Option.mem_def, Option.some.injEq, exists_eq_left',
    List.tail_cons] at hflag htail
  refine ⟨fun hne => absurd hirq' hne, fun _ => ?_, ?_, ?_⟩
  · simpa [hstack', hvm, htrap] using hflag
  · simpa [hstack'] using htail
  · intro c hc hctrap
    obtain rfl : b = c := by simpa [hstack'] using hc
    exact hwait (htrap ▸ hctrap)

theorem contextInv_invoke (h : ContextInv s) (hirq : s.irq = none)
    (hclear : s.vm.interrupted = false) {i : TaskIdx} {prev : Option TaskIdx} {u : KernelState}
    (hvm : u.vm = s.vm) (hirq' : u.irq = none) :
    ContextInv (u.invoke i prev s.stack) := by
  refine .of_clear hirq' (by rw [← hclear, ← hvm]; rfl) ?_
  intro b hb
  obtain rfl | hb := List.mem_cons.mp hb
  · rfl
  · exact h.untrapped hirq hclear b hb

/-- While a device's handler runs, the flag is its own. -/
theorem contextInv_device {vm : Vm} {sched : Sched} {stack : List Activation} {p : IrqPlace}
    (hflag : vm.interrupted = true) (hstack : ∀ a ∈ stack, a.trapped = false) :
    ContextInv ⟨vm, sched, stack, some p⟩ := by
  refine ⟨fun _ => ⟨hflag, hstack⟩, nofun, fun a ha => hstack a (List.mem_of_mem_tail ha), ?_⟩
  intro a ha htrap
  rw [hstack a (List.mem_of_mem_head? ha)] at htrap
  cases htrap

theorem contextInv_block {a : Activation} {rest : List Activation} (h : ContextInv s)
    (hirq : s.irq = none) (hstack : s.stack = a :: rest)
    (hdirect : wouldWait s.sched = true → a.trapped = false) : ContextInv (s.block a rest) := by
  unfold KernelState.block
  cases hcur : schedCurrentSlot s.sched with
  | none => exact h
  | some i =>
    dsimp only
    split_ifs with hidleSlot
    · exact h
    · refine h.head hirq hstack hirq rfl rfl rfl fun htrap => .inr ⟨i, rfl, ?_⟩
      by_contra hwaits
      have hwould : wouldWait s.sched = true := by
        simp only [wouldWait, hcur]
        simpa using ⟨by simpa using hidleSlot, by simpa using hwaits⟩
      rw [hdirect hwould] at htrap
      cases htrap

theorem contextInv_ret {a : Activation} {rest : List Activation} (h : ContextInv s)
    (hirq : s.irq = none) (hstack : s.stack = a :: rest) (htrap : a.trapped = false) :
    ContextInv (s.ret a rest) := by
  have hclear := h.clear hirq (by simpa [hstack] using htrap)
  have huntrapped := h.untrapped hirq hclear
  refine .of_clear hirq hclear ?_
  cases rest with
  | nil => simp [KernelState.ret]
  | cons b rest =>
    have hb : b.pumped.trapped = b.trapped := by
      unfold Activation.pumped
      split <;> rfl
    simp only [hstack, List.mem_cons, forall_eq_or_imp] at huntrapped
    simpa [KernelState.ret, hb] using huntrapped.2

/-- The step lemma: every step keeps the account of who has set the flag. -/
theorem contextInv_step {l : KernelLabel} (h : ContextInv s) (hok : WaitsDirectly s l)
    (hstep : KernelStep s l t) : ContextInv t := by
  cases hstep with
  | select hirq hstack =>
    have hclear := h.clear hirq (by simp [hstack])
    unfold KernelState.select
    dsimp only
    split_ifs
    · exact hstack ▸ contextInv_invoke h hirq hclear rfl hirq
    · exact .of_clear hirq hclear (by simp [hstack])
  | call c hirq hstack hplace hidle =>
    exact h.head hirq hstack hirq rfl hstack rfl fun _ => .inl hplace
  | @block a rest hirq hstack hplace hidle =>
    exact contextInv_block h hirq hstack fun hwould => hok rfl hwould a (by simp [hstack])
  | @test a rest self hirq hstack hplace =>
    refine h.head hirq hstack hirq rfl rfl rfl fun htrap => .inl ?_
    obtain hrun | ⟨self', htest, hwaits⟩ := h.wait a (by simp [hstack]) htrap
    · rw [hplace] at hrun
      cases hrun
    · rw [hplace] at htest
      cases htest
      simp [hwaits]
  | @pump a rest self hirq hstack hplace =>
    have hclear := h.not_inWaitLoop ⟨hirq, a, rest, self, hstack, hplace⟩
    have huntrapped := h.untrapped hirq hclear
    unfold KernelState.pump
    dsimp only
    split_ifs
    · exact hstack ▸ contextInv_invoke h hirq hclear rfl hirq
    · refine .of_clear hirq hclear ?_
      simpa [hstack] using huntrapped
  | @ret a rest hirq hstack hplace htrap => exact contextInv_ret h hirq hstack htrap
  | @int a rest vm hirq hstack hplace hidle htrap hrun =>
    have hclear := h.clear hirq (by simpa [hstack] using htrap)
    refine ⟨fun hne => absurd hirq hne, fun _ => ?_, ?_, ?_⟩
    · simp [hclear]
    · have htail := h.tail
      simpa [hstack] using htail
    · intro b hb _
      obtain rfl : _ = b := by simpa using hb
      exact .inl hplace
  | @iretTrap a rest vm hirq hstack hplace htrap hrun =>
    refine .of_clear hirq (vmIret_interrupted hrun) ?_
    have htail := h.tail
    simpa [hstack] using htail
  | deliver hirq hclear hmask hrun henter =>
    have huntrapped := h.untrapped hirq hclear
    exact contextInv_device henter huntrapped
  | handle bytes hirq =>
    obtain ⟨hflag, huntrapped⟩ := h.device (by simp [hirq])
    exact contextInv_device hflag huntrapped
  | iret hirq hrun =>
    obtain ⟨-, huntrapped⟩ := h.device (by simp [hirq])
    exact .of_clear rfl (vmIret_interrupted hrun) huntrapped
  | @other vm hflag =>
    have hsame : vm.interrupted = s.vm.interrupted := by simp only [Vm.interrupted, hflag]
    refine ⟨fun hne => ?_, fun hirq => ?_, h.tail, h.wait⟩
    · rw [hsame]
      exact h.device hne
    · rw [hsame]
      exact h.flag hirq

/-- The run lemma. -/
theorem reachable_contextInv (h : Reachable ((kernel M smpCores).restrict WaitsDirectly) s) :
    ContextInv s := by
  refine h.invariant ?_ ?_
  · rintro s ⟨-, hflag, -, hstack, hirq⟩
    exact .of_clear hirq hflag (by simp [hstack])
  · rintro s l t hinv ⟨hok, hstep⟩
    exact contextInv_step hinv hok hstep

/-- A call that waits although it came through `INT 0x80` enters the loop with the
flag set. -/
theorem trapped_wait (h : ContextInv s) (hbad : ¬ WaitsDirectly s .block)
    (hblock : KernelStep s .block t) (htest : KernelStep t .test u) :
    InWaitLoop u ∧ u.vm.interrupted = true := by
  simp only [WaitsDirectly, not_forall, Bool.not_eq_false] at hbad
  obtain ⟨-, hwould, b, hb, htrap⟩ := hbad
  cases hblock with
  | @block a rest hirq hstack hplace hidle =>
    have hflag : s.vm.interrupted = true := (h.flag hirq).mpr ⟨b, hb, htrap⟩
    cases hcur : schedCurrentSlot s.sched with
    | none => simp [wouldWait, hcur] at hwould
    | some i =>
      simp only [wouldWait, hcur, Bool.and_eq_true, Bool.not_eq_true'] at hwould
      obtain ⟨hactive, hwaits⟩ := hwould
      have hentered : s.block a rest =
          { s with stack := { a with place := .testing i } :: rest } := by
        simp [KernelState.block, hcur, hactive]
      rw [hentered] at htest
      cases htest with
      | test _ hstack' hplace' =>
        cases hstack'
        cases hplace'
        refine ⟨⟨hirq, _, _, i, rfl, ?_⟩, hflag⟩
        simp [hwaits]

/-- While the flag is set no device interrupt is taken. -/
theorem not_deliver_of_interrupted (h : u.vm.interrupted = true) (d : Device) :
    ¬ KernelStep u (.deliver d) t := by
  intro hstep
  cases hstep with
  | deliver _ hclear =>
    rw [h] at hclear
    cases hclear

/-- In every run in which calls that wait are made directly, the wait loop runs with
the interrupt flag clear. A call that waits inside the handler of `INT 0x80` runs the
loop with the flag set, and then no device interrupt is taken. -/
theorem wait_loop_interruptible
    (h : Reachable ((kernel M smpCores).restrict WaitsDirectly) s) :
    (InWaitLoop s → s.vm.interrupted = false) ∧
      ∀ l t u, ¬ WaitsDirectly s l → KernelStep s l t → KernelStep t .test u →
        InWaitLoop u ∧ u.vm.interrupted = true ∧ ∀ d v, ¬ KernelStep u (.deliver d) v := by
  have hinv := reachable_contextInv h
  refine ⟨hinv.not_inWaitLoop, fun l t u hbad hstep htest => ?_⟩
  obtain rfl : l = .block := by
    by_contra hl
    exact hbad fun hl' => absurd hl' hl
  obtain ⟨hloop, hflag⟩ := trapped_wait hinv hbad hstep htest
  exact ⟨hloop, hflag, fun d v => not_deliver_of_interrupted hflag d⟩

/-! ## Two runs -/

/-- One task, spawned at boot. -/
def oneTask : Sched := (schedSpawn (some 1) schedInit).2

theorem oneTask_boot : BootSched oneTask := .call (.spawn (some 1)) .init

def oneTaskRunning : Sched := enterTask 1 (runSelect oneTask)

/-- The task calls `poll` or `select`, which sleep before they wait. -/
def oneTaskAsleep : Sched := schedSleepTicks 10 oneTaskRunning

theorem wait_loop_interruptible_direct : ∃ s,
    Reachable ((kernel memSize 1).restrict WaitsDirectly) s ∧ InWaitLoop s ∧
      s.vm.interrupted = false := by
  obtain ⟨vm, -, -, hreach, hflag, -⟩ := exists_handled_vector (n := irqSyscall) (by decide)
  have h₀ : Reachable ((kernel memSize 1).restrict WaitsDirectly) ⟨vm, oneTask, [], none⟩ :=
    .of_init ⟨hreach, hflag, oneTask_boot, rfl, rfl⟩
  have h₁ : Reachable ((kernel memSize 1).restrict WaitsDirectly)
      ⟨vm, oneTaskRunning, [⟨1, none, false, .running⟩], none⟩ :=
    h₀.step (l := .select) ⟨nofun, KernelStep.select rfl rfl⟩
  have h₂ : Reachable ((kernel memSize 1).restrict WaitsDirectly)
      ⟨vm, oneTaskAsleep, [⟨1, none, false, .running⟩], none⟩ :=
    h₁.step (l := .call (.sleepTicks 10)) ⟨nofun, KernelStep.call _ rfl rfl rfl (by decide)⟩
  have h₃ : Reachable ((kernel memSize 1).restrict WaitsDirectly)
      ⟨vm, oneTaskAsleep, [⟨1, none, false, .testing 1⟩], none⟩ := by
    refine h₂.step (l := .block) ⟨fun _ _ a ha => ?_,
      KernelStep.block (a := ⟨1, none, false, .running⟩) rfl rfl rfl (by decide)⟩
    cases ha
    rfl
  have h₄ : Reachable ((kernel memSize 1).restrict WaitsDirectly)
      ⟨vm, oneTaskAsleep, [⟨1, none, false, .pumping 1⟩], none⟩ :=
    h₃.step (l := .test) ⟨nofun, @KernelStep.test _ ⟨1, none, false, .testing 1⟩ [] 1 rfl rfl rfl⟩
  have hloop : InWaitLoop ⟨vm, oneTaskAsleep, [⟨1, none, false, .pumping 1⟩], none⟩ :=
    ⟨rfl, _, _, _, rfl, rfl⟩
  exact ⟨_, h₄, hloop, (wait_loop_interruptible h₄).1 hloop⟩

/-- The same call made through `INT 0x80` waits with the flag set. -/
theorem wait_loop_interrupted : ¬ ∀ s, Reachable (kernel memSize 1) s → InWaitLoop s →
    s.vm.interrupted = false := by
  intro hall
  obtain ⟨vm, v, -, hreach, hflag, -, henter, hset, -⟩ :=
    exists_handled_vector (n := irqSyscall) (by decide)
  have h₀ : Reachable (kernel memSize 1) ⟨vm, oneTask, [], none⟩ :=
    .of_init ⟨hreach, hflag, oneTask_boot, rfl, rfl⟩
  have h₁ : Reachable (kernel memSize 1)
      ⟨vm, oneTaskRunning, [⟨1, none, false, .running⟩], none⟩ :=
    h₀.step (l := .select) (KernelStep.select rfl rfl)
  have h₂ : Reachable (kernel memSize 1)
      ⟨v, oneTaskRunning, [⟨1, none, !vm.interrupted && v.interrupted, .running⟩], none⟩ :=
    h₁.step (l := .int) (KernelStep.int (a := ⟨1, none, false, .running⟩) rfl rfl rfl (by decide)
      rfl henter)
  rw [hflag, hset] at h₂
  have h₃ : Reachable (kernel memSize 1)
      ⟨v, oneTaskAsleep, [⟨1, none, true, .running⟩], none⟩ :=
    h₂.step (KernelStep.call (.sleepTicks 10) rfl rfl rfl (by decide))
  have h₄ : Reachable (kernel memSize 1)
      ⟨v, oneTaskAsleep, [⟨1, none, true, .testing 1⟩], none⟩ :=
    h₃.step (l := .block)
      (KernelStep.block (a := ⟨1, none, true, .running⟩) rfl rfl rfl (by decide))
  have h₅ : Reachable (kernel memSize 1)
      ⟨v, oneTaskAsleep, [⟨1, none, true, .pumping 1⟩], none⟩ :=
    h₄.step (l := .test) (@KernelStep.test _ ⟨1, none, true, .testing 1⟩ [] 1 rfl rfl rfl)
  have hclear : v.interrupted = false := hall _ h₅ ⟨rfl, _, _, _, rfl, rfl⟩
  rw [hset] at hclear
  cases hclear

end LampVm
