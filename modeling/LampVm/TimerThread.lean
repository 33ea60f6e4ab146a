import LampVm.TimerWorker
import LampVm.Pending

/-!
# The timer of the machine

A call of the machine's `handle_programmable_tick` and an iteration of its timer thread are runs of
the timer with atomic accesses, so what holds of every run holds of them.
-/
namespace LampVm

open Contract Transition

/-- The timer of `vm` at a clock reading, between two accesses of the thread and the guest. -/
def Vm.timerState (vm : Vm) (clock : BitVec 64) (ticks : ℕ) (worker : TimerPc) (guest : GuestPc) :
    TimerState where
  period := vm.timerPeriodUs
  deadline := vm.timerNextDeadlineNs
  enabled := vm.timerEnabled
  clock := clock
  ticks := ticks
  stop := vm.halted
  worker := worker
  guest := guest

theorem worker_step {s t : TimerState} (h : s.workerStep = some t) : timer.step s .worker t := h

theorem guest_step {s t : TimerState} (h : s.guestStep = some t) : timer.step s .guest t := h

theorem call_step {s t : TimerState} {value : BitVec 32} (h : s.call value = some t) :
    timer.step s (.call value) t := h

section Machine

variable {vm vm' : Vm} {value period : BitVec 32} {clock now deadline : BitVec 64} {ticks : ℕ}
  {worker : TimerPc} {guest : GuestPc}

theorem time_step (h : clock ≤ now) :
    timer.step (vm.timerState clock ticks worker guest) (.time now)
      (vm.timerState now ticks worker guest) :=
  if_pos h

/-! ## The call -/

theorem handleProgrammableTick_run {last : BitVec 32}
    (h : handleProgrammableTick value vm = .ok ((), vm')) :
    Run timer (vm.timerState clock ticks worker (.returned last)) (callEvents value)
      (vm'.timerState clock ticks worker (.returned value)) := by
  unfold handleProgrammableTick at h
  by_cases hzero : value = 0
  · rw [if_pos hzero] at h
    obtain ⟨-, rfl⟩ := Prod.mk.inj (Except.ok.inj h)
    subst hzero
    exact Run.cons (call_step rfl) (Run.cons (guest_step rfl)
      (Run.cons (guest_step rfl) (Run.cons (guest_step rfl) .nil)))
  · rw [if_neg hzero] at h
    obtain ⟨-, rfl⟩ := Prod.mk.inj (Except.ok.inj h)
    have hcall : timer.step (vm.timerState clock ticks worker (.returned last)) (.call value)
        (vm.timerState clock ticks worker (.storePeriod value)) :=
      call_step (congrArg (fun pc => some (vm.timerState clock ticks worker pc)) (if_neg hzero))
    exact Run.cons hcall (Run.cons (guest_step rfl)
      (Run.cons (guest_step rfl) (Run.cons (guest_step rfl) .nil)))

/-! ## One iteration of the loop -/

theorem test_steps (h : ¬ vm.halted = true) :
    Run timer (vm.timerState clock ticks .top guest) [.worker, .worker]
      (vm.timerState clock ticks (if vm.timerEnabled then .loadPeriod else .clearDeadline)
        guest) := by
  have htop : (vm.timerState clock ticks .top guest).workerStep =
      some (vm.timerState clock ticks .testEnabled guest) :=
    congrArg (fun pc => some (vm.timerState clock ticks pc guest)) (if_neg h)
  exact Run.cons (worker_step htop) (Run.cons (worker_step rfl) .nil)

theorem clear_steps : Run timer (vm.timerState clock ticks .clearDeadline guest) [.worker]
    ({ vm with timerNextDeadlineNs := 0 }.timerState clock ticks .top guest) :=
  Run.cons (worker_step rfl) .nil

theorem disable_steps (h : vm.timerPeriodUs = 0) :
    Run timer (vm.timerState clock ticks .loadPeriod guest) [.worker, .worker]
      ({ vm with timerEnabled := false }.timerState clock ticks .clearDeadline guest) := by
  have hload : (vm.timerState clock ticks .loadPeriod guest).workerStep =
      some (vm.timerState clock ticks .disable guest) :=
    congrArg (fun pc => some (vm.timerState clock ticks pc guest)) (if_pos h)
  exact Run.cons (worker_step hload) (Run.cons (worker_step rfl) .nil)

theorem read_steps (h : vm.timerPeriodUs ≠ 0) (hclock : clock ≤ now) :
    Run timer (vm.timerState clock ticks .loadPeriod guest) [.worker, .time now, .worker]
      (vm.timerState now ticks (.loadDeadline vm.timerPeriodUs now) guest) := by
  have hload : (vm.timerState clock ticks .loadPeriod guest).workerStep =
      some (vm.timerState clock ticks (.readClock vm.timerPeriodUs) guest) :=
    congrArg (fun pc => some (vm.timerState clock ticks pc guest)) (if_neg h)
  exact Run.cons (worker_step hload) (Run.cons (time_step hclock) (Run.cons (worker_step rfl) .nil))

theorem deadline_steps (ticks : ℕ) (guest : GuestPc)
    (h : deadline = if vm.timerNextDeadlineNs = 0 then now + timerStepNs period
      else vm.timerNextDeadlineNs) :
    ∃ events, Run timer (vm.timerState now ticks (.loadDeadline period now) guest) events
      ({ vm with timerNextDeadlineNs := deadline }.timerState now ticks
        (.compare period now deadline) guest) := by
  subst h
  by_cases hzero : vm.timerNextDeadlineNs = 0
  · rw [if_pos hzero]
    have hload : (vm.timerState now ticks (.loadDeadline period now) guest).workerStep =
        some (vm.timerState now ticks (.storeFirst period now) guest) :=
      congrArg (fun pc => some (vm.timerState now ticks pc guest)) (if_pos hzero)
    exact ⟨_, Run.cons (worker_step hload) (Run.cons (worker_step rfl) .nil)⟩
  · rw [if_neg hzero]
    have hload : (vm.timerState now ticks (.loadDeadline period now) guest).workerStep =
        some (vm.timerState now ticks (.compare period now vm.timerNextDeadlineNs) guest) :=
      congrArg (fun pc => some (vm.timerState now ticks pc guest)) (if_neg hzero)
    exact ⟨_, Run.cons (worker_step hload) .nil⟩

theorem fire_steps (hclock : clock ≤ now) :
    Run timer (vm.timerState clock ticks (.fire period deadline) guest)
      [.worker, .time now, .worker, .worker]
      ({ vm with timerNextDeadlineNs := nextDeadline (timerStepNs period) deadline now }.timerState
        now (ticks + 1) .top guest) :=
  Run.cons (t := vm.timerState clock (ticks + 1) (.readAgain period deadline) guest)
    (worker_step rfl)
    (Run.cons (time_step hclock) (Run.cons (worker_step rfl) (Run.cons (worker_step rfl) .nil)))

theorem timerState_trigger (h : triggerInterrupt intTimer vm = .ok ((), vm')) :
    vm'.timerState = vm.timerState ∧ vm'.hostClock = vm.hostClock := by
  obtain ⟨-, rfl⟩ | ⟨-, rfl⟩ := triggerInterruptTarget_cases h
  · exact ⟨rfl, rfl⟩
  · exact ⟨rfl, rfl⟩

/-- From the top of the loop to the top, if the two readings of the clock are in order. -/
theorem timerTick_run (h : timerTick vm = .ok ((), vm'))
    (h₀ : clock ≤ vm.hostClock.monotonic vm.hostClock.readings)
    (h₁ : vm.hostClock.monotonic vm.hostClock.readings ≤
      vm.hostClock.monotonic (vm.hostClock.readings + 1)) :
    ∃ events clock' ticks', Run timer (vm.timerState clock ticks .top guest) events
      (vm'.timerState clock' ticks' .top guest) := by
  unfold timerTick at h
  obtain ⟨_, _, hget, h⟩ := bind_eq_ok h
  obtain ⟨rfl, rfl⟩ := Prod.mk.inj (Except.ok.inj hget)
  by_cases hhalted : vm.halted = true
  · rw [if_pos hhalted] at h
    obtain ⟨-, rfl⟩ := Prod.mk.inj (Except.ok.inj h)
    exact ⟨[], clock, ticks, .nil⟩
  have htest : Run timer (vm.timerState clock ticks .top guest) _ _ := test_steps hhalted
  rw [if_neg hhalted] at h
  by_cases henabled : vm.timerEnabled = true
  swap
  · rw [if_pos henabled] at h
    obtain ⟨-, rfl⟩ := Prod.mk.inj (Except.ok.inj h)
    rw [if_neg henabled] at htest
    exact ⟨_, clock, ticks, htest.trans clear_steps⟩
  rw [if_pos henabled] at htest
  rw [if_neg (not_not.mpr henabled)] at h
  by_cases hperiod : vm.timerPeriodUs = 0
  · rw [if_pos hperiod] at h
    obtain ⟨-, rfl⟩ := Prod.mk.inj (Except.ok.inj h)
    exact ⟨_, clock, ticks, (htest.trans (disable_steps hperiod)).trans clear_steps⟩
  rw [if_neg hperiod] at h
  obtain ⟨now, _, hnow, h⟩ := bind_eq_ok h
  obtain ⟨rfl, rfl⟩ := Prod.mk.inj (Except.ok.inj hnow)
  dsimp only at h
  generalize hdeadline : (if vm.timerNextDeadlineNs = 0
    then vm.hostClock.monotonic vm.hostClock.readings + vm.timerPeriodUs.setWidth 64 * 1000
    else vm.timerNextDeadlineNs) = deadline at h
  obtain ⟨_, _, hstore, h⟩ := bind_eq_ok h
  obtain ⟨-, rfl⟩ := Prod.mk.inj (Except.ok.inj hstore)
  obtain ⟨stored, hstored⟩ := deadline_steps ticks guest hdeadline.symm
  have hread := (htest.trans (read_steps hperiod h₀)).trans hstored
  unfold TimerPc.compare at hread
  by_cases hearly : vm.hostClock.monotonic vm.hostClock.readings < deadline
  · rw [if_pos hearly] at h hread
    obtain ⟨-, rfl⟩ := Prod.mk.inj (Except.ok.inj h)
    exact ⟨_, _, _, hread⟩
  rw [if_neg hearly] at h hread
  obtain ⟨_, fired, htrigger, h⟩ := bind_eq_ok h
  obtain ⟨hsame, hclock⟩ := timerState_trigger htrigger
  obtain ⟨again, _, hagain, h⟩ := bind_eq_ok h
  obtain ⟨rfl, rfl⟩ := Prod.mk.inj (Except.ok.inj hagain)
  obtain ⟨-, rfl⟩ := Prod.mk.inj (Except.ok.inj h)
  have hfire : vm.hostClock.monotonic vm.hostClock.readings ≤
      fired.hostClock.monotonic fired.hostClock.readings := by
    rw [hclock]
    exact h₁
  have hstate : { vm with timerNextDeadlineNs := deadline }.timerState = fired.timerState :=
    hsame.symm
  rw [hstate] at hread
  exact ⟨_, _, _, hread.trans (fire_steps hfire)⟩

end Machine

end LampVm
