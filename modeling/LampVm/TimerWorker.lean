import LampVm.Periodic
import LampVm.Io
import LampVm.Transition

/-!
# The timer thread

The timer thread and the guest share a period, a deadline and a switch, and every access of either
is one atomic step. The thread reads the period and the deadline, fires, and writes a new deadline
back; a guest that programs the timer writes the period, resets the deadline and switches the timer
on. A deadline that is written back after the reset takes the place of the reset. Without a call the
deadlines lie on one grid and the thread fires at most once for each of its instants.
-/
namespace LampVm

open Transition

/-! ## The steps -/

/-- `step` of the loop: the period in nanoseconds. -/
def timerStepNs (period : BitVec 32) : BitVec 64 := period.setWidth 64 * 1000

/-- The period that `handle_programmable_tick` accepts. -/
def clampPeriod (value : BitVec 32) : BitVec 32 :=
  if value < timerMinPeriodUs then timerMinPeriodUs else value

/-- The deadline after one that has passed. -/
def nextDeadline (step deadline now : BitVec 64) : BitVec 64 :=
  let deadline := deadline + step
  if deadline < now then deadline + step * ((now - deadline) / step + 1) else deadline

/-- Where the timer thread stands between two accesses, with its local variables. -/
inductive TimerPc
  | top
  | testEnabled
  | clearDeadline
  | loadPeriod
  | disable
  | readClock (period : BitVec 32)
  | loadDeadline (period : BitVec 32) (now : BitVec 64)
  | storeFirst (period : BitVec 32) (now : BitVec 64)
  | fire (period : BitVec 32) (deadline : BitVec 64)
  | readAgain (period : BitVec 32) (deadline : BitVec 64)
  | storeNext (period : BitVec 32) (deadline : BitVec 64)
  | exited
  deriving DecidableEq, Repr

/-- Where the guest stands in `handle_programmable_tick`. Calls are serialized by the shared lock.
Outside, the guest knows the argument of its last call, zero if there was none. -/
inductive GuestPc
  | returned (value : BitVec 32)
  | storePeriod (value : BitVec 32)
  | resetDeadline (value : BitVec 32)
  | enable (value : BitVec 32)
  | disable
  | clearPeriod
  | clearDeadline
  deriving DecidableEq, Repr

structure TimerState where
  period : BitVec 32
  deadline : BitVec 64
  enabled : Bool
  clock : BitVec 64
  /-- How often the timer vector was raised. -/
  ticks : ℕ
  /-- The machine has halted or panicked, or the thread is told to end. -/
  stop : Bool
  worker : TimerPc
  guest : GuestPc
  deriving DecidableEq, Repr

/-- What the thread does once it has a deadline: sleep and start over, or fire. -/
def TimerPc.compare (period : BitVec 32) (now deadline : BitVec 64) : TimerPc :=
  if now < deadline then .top else .fire period deadline

/-- The next access of the timer thread and the computation up to the one after it. -/
def TimerState.workerStep (s : TimerState) : Option TimerState :=
  match s.worker with
  | .top => some { s with worker := if s.stop then .exited else .testEnabled }
  | .testEnabled => some { s with worker := if s.enabled then .loadPeriod else .clearDeadline }
  | .clearDeadline => some { s with deadline := 0, worker := .top }
  | .loadPeriod =>
    some { s with worker := if s.period = 0 then .disable else .readClock s.period }
  | .disable => some { s with enabled := false, worker := .clearDeadline }
  | .readClock period => some { s with worker := .loadDeadline period s.clock }
  | .loadDeadline period now =>
    some { s with
      worker := if s.deadline = 0 then .storeFirst period now else .compare period now s.deadline }
  | .storeFirst period now =>
    some { s with
      deadline := now + timerStepNs period
      worker := .compare period now (now + timerStepNs period) }
  | .fire period deadline =>
    some { s with ticks := s.ticks + 1, worker := .readAgain period deadline }
  | .readAgain period deadline =>
    some { s with worker := .storeNext period (nextDeadline (timerStepNs period) deadline s.clock) }
  | .storeNext _ deadline => some { s with deadline := deadline, worker := .top }
  | .exited => none

/-- The next access of `handle_programmable_tick`. -/
def TimerState.guestStep (s : TimerState) : Option TimerState :=
  match s.guest with
  | .returned _ => none
  | .storePeriod value => some { s with period := clampPeriod value, guest := .resetDeadline value }
  | .resetDeadline value => some { s with deadline := 0, guest := .enable value }
  | .enable value => some { s with enabled := true, guest := .returned value }
  | .disable => some { s with enabled := false, guest := .clearPeriod }
  | .clearPeriod => some { s with period := 0, guest := .clearDeadline }
  | .clearDeadline => some { s with deadline := 0, guest := .returned 0 }

def TimerState.call (s : TimerState) (value : BitVec 32) : Option TimerState :=
  match s.guest with
  | .returned _ => some { s with guest := if value = 0 then .disable else .storePeriod value }
  | _ => none

inductive TimerEvent
  | worker
  | call (value : BitVec 32)
  | guest
  | time (now : BitVec 64)
  | stop
  deriving DecidableEq, Repr

/-- The monotonic clock never goes back. -/
def TimerState.step (s : TimerState) : TimerEvent → Option TimerState
  | .worker => s.workerStep
  | .call value => s.call value
  | .guest => s.guestStep
  | .time now => if s.clock ≤ now then some { s with clock := now } else none
  | .stop => some { s with stop := true }

/-- As `register_time_mmio` and the start of the thread leave the timer. -/
def TimerState.start (clock : BitVec 64) : TimerState where
  period := 0
  deadline := 0
  enabled := false
  clock := clock
  ticks := 0
  stop := false
  worker := .top
  guest := .returned 0

def timer : System TimerState TimerEvent where
  init s := ∃ clock, s = .start clock
  step s e t := s.step e = some t

/-! ## Arithmetic -/

section Arithmetic

variable {period : BitVec 32} {deadline now : BitVec 64}

theorem timerStepNs_toNat (period : BitVec 32) :
    (timerStepNs period).toNat = period.toNat * 1000 := by
  have hlt := period.isLt
  have hfactor : (1000 : BitVec 64).toNat = 1000 := rfl
  rw [timerStepNs, BitVec.toNat_mul, BitVec.toNat_setWidth, hfactor,
    Nat.mod_eq_of_lt (a := period.toNat) (by omega), Nat.mod_eq_of_lt (by omega)]

theorem clampPeriod_toNat (value : BitVec 32) :
    (clampPeriod value).toNat = max value.toNat 1000 := by
  have hmin : timerMinPeriodUs.toNat = 1000 := rfl
  unfold clampPeriod
  split_ifs with h
  · rw [BitVec.lt_def, hmin] at h
    rw [hmin, max_eq_right h.le]
  · rw [BitVec.lt_def, hmin] at h
    rw [max_eq_left (by omega)]

theorem clampPeriod_ne_zero (value : BitVec 32) : clampPeriod value ≠ 0 := by
  intro h
  have := congrArg BitVec.toNat h
  rw [clampPeriod_toNat] at this
  have : (0 : BitVec 32).toNat = 0 := rfl
  omega

theorem add_toNat_le {w : ℕ} (a b : BitVec w) : (a + b).toNat ≤ a.toNat + b.toNat := by
  rw [BitVec.toNat_add]
  exact Nat.mod_le _ _

theorem mul_toNat_le {w : ℕ} (a b : BitVec w) : (a * b).toNat ≤ a.toNat * b.toNat := by
  rw [BitVec.toNat_mul]
  exact Nat.mod_le _ _

/-- No later than one period from now, even if the addition wraps. -/
theorem nextDeadline_le {step : BitVec 64} (h : deadline ≤ now) :
    (nextDeadline step deadline now).toNat ≤ now.toNat + step.toNat := by
  rw [BitVec.le_def] at h
  have hadd := add_toNat_le deadline step
  unfold nextDeadline
  dsimp only
  split_ifs with hlt
  · rw [BitVec.lt_def] at hlt
    have hbehind : (now - (deadline + step)).toNat = now.toNat - (deadline + step).toNat :=
      BitVec.toNat_sub_of_le hlt.le
    have hskip := add_toNat_le ((now - (deadline + step)) / step) 1
    rw [BitVec.toNat_udiv, hbehind] at hskip
    have hone : (1 : BitVec 64).toNat = 1 := rfl
    have hmul := mul_toNat_le step ((now - (deadline + step)) / step + 1)
    have hdiv := Nat.mul_div_le (now.toNat - (deadline + step).toNat) step.toNat
    have hprod := Nat.mul_le_mul_left step.toNat hskip
    have hsum := add_toNat_le (deadline + step) (step * ((now - (deadline + step)) / step + 1))
    rw [hone, mul_add, mul_one] at hprod
    omega
  · omega

theorem timerStepNs_lt (period : BitVec 32) : (timerStepNs period).toNat < 2 ^ 42 := by
  have hlt := period.isLt
  rw [timerStepNs_toNat]
  omega

theorem timerStepNs_clampPeriod_pos (value : BitVec 32) :
    0 < (timerStepNs (clampPeriod value)).toNat := by
  have hmax := le_max_right value.toNat 1000
  rw [timerStepNs_toNat, clampPeriod_toNat]
  omega

theorem add_step_toNat (period : BitVec 32) {x : BitVec 64} (hx : x.toNat < 2 ^ 63) :
    (x + timerStepNs period).toNat = x.toNat + (timerStepNs period).toNat := by
  have hlt := timerStepNs_lt period
  rw [BitVec.toNat_add, Nat.mod_eq_of_lt (by omega)]

/-- Below `2 ^ 63` no operation wraps. -/
theorem nextDeadline_toNat (period : BitVec 32) {deadline now : BitVec 64} (h : deadline ≤ now)
    (hnow : now.toNat < 2 ^ 63) :
    (nextDeadline (timerStepNs period) deadline now).toNat =
      Periodic.catchUp (timerStepNs period).toNat deadline.toNat now.toNat := by
  have hle : deadline.toNat ≤ now.toNat := h
  have hstep := timerStepNs_lt period
  have hadd := add_step_toNat period (x := deadline) (by omega)
  unfold nextDeadline Periodic.catchUp
  dsimp only
  by_cases hlt : deadline + timerStepNs period < now
  · have hlt' : deadline.toNat + (timerStepNs period).toNat < now.toNat := by
      rw [← hadd]
      exact hlt
    have hbehind : (now - (deadline + timerStepNs period)).toNat =
        now.toNat - (deadline.toNat + (timerStepNs period).toNat) := by
      rw [BitVec.toNat_sub_of_le (BitVec.le_of_lt hlt), hadd]
    have hskip : ((now - (deadline + timerStepNs period)) / timerStepNs period + 1).toNat =
        (now.toNat - (deadline.toNat + (timerStepNs period).toNat)) /
          (timerStepNs period).toNat + 1 := by
      have hdiv := Nat.div_le_self
        (now.toNat - (deadline.toNat + (timerStepNs period).toNat)) (timerStepNs period).toNat
      have hone : (1 : BitVec 64).toNat = 1 := rfl
      rw [BitVec.toNat_add, BitVec.toNat_udiv, hbehind, hone, Nat.mod_eq_of_lt (by omega)]
    have hmul := Nat.mul_div_le
      (now.toNat - (deadline.toNat + (timerStepNs period).toNat)) (timerStepNs period).toNat
    have hsucc := mul_add (timerStepNs period).toNat
      ((now.toNat - (deadline.toNat + (timerStepNs period).toNat)) / (timerStepNs period).toNat) 1
    rw [if_pos hlt, if_pos hlt', BitVec.toNat_add, BitVec.toNat_mul, hadd, hskip,
      Nat.mod_eq_of_lt (a := _ * _) (by omega), Nat.mod_eq_of_lt (by omega)]
  · have hge : ¬ deadline.toNat + (timerStepNs period).toNat < now.toNat := by
      rw [← hadd]
      exact hlt
    rw [if_neg hlt, if_neg hge, hadd]

end Arithmetic

/-! ## What holds of every run -/

/-- The local variables of the thread are readings of the past. -/
def TimerPc.Coherent (clock : BitVec 64) : TimerPc → Prop
  | .loadDeadline _ now | .storeFirst _ now => now ≤ clock
  | .fire _ deadline | .readAgain _ deadline => deadline ≤ clock
  | .storeNext period deadline => deadline.toNat ≤ clock.toNat + (timerStepNs period).toNat
  | _ => True

/-- The period that the thread has read and will write a deadline from. -/
def TimerPc.holds : TimerPc → Option (BitVec 32)
  | .readClock period | .loadDeadline period _ | .storeFirst period _ | .fire period _
  | .readAgain period _ | .storeNext period _ => some period
  | _ => none

section Invariants

variable {s t : TimerState} {value : BitVec 32}

theorem coherent_compare {period : BitVec 32} {now deadline clock : BitVec 64} (h : now ≤ clock) :
    (TimerPc.compare period now deadline).Coherent clock := by
  unfold TimerPc.compare
  split_ifs with hlt
  · trivial
  · exact BitVec.le_trans (BitVec.not_lt.mp hlt) h

theorem TimerPc.Coherent.mono {pc : TimerPc} {clock now : BitVec 64} (h : pc.Coherent clock)
    (hle : clock ≤ now) : pc.Coherent now := by
  cases pc with
  | loadDeadline | storeFirst | fire | readAgain => exact BitVec.le_trans h hle
  | storeNext period deadline =>
    have hclock : clock.toNat ≤ now.toNat := hle
    exact Nat.le_trans h (by omega)
  | _ => trivial

theorem coherent_workerStep (h : s.worker.Coherent s.clock) (hs : s.workerStep = some t) :
    t.worker.Coherent t.clock := by
  unfold TimerState.workerStep at hs
  cases hw : s.worker with
  | exited =>
    rw [hw] at hs
    cases hs
  | top | testEnabled | loadPeriod =>
    rw [hw] at hs
    obtain rfl := Option.some.inj hs
    dsimp only
    split_ifs <;> trivial
  | clearDeadline | disable | storeNext =>
    rw [hw] at hs
    obtain rfl := Option.some.inj hs
    trivial
  | readClock =>
    rw [hw] at hs
    obtain rfl := Option.some.inj hs
    exact BitVec.le_refl s.clock
  | loadDeadline period now =>
    rw [hw] at h hs
    obtain rfl := Option.some.inj hs
    dsimp only
    split_ifs
    · exact h
    · exact coherent_compare h
  | storeFirst period now =>
    rw [hw] at h hs
    obtain rfl := Option.some.inj hs
    exact coherent_compare h
  | fire period deadline =>
    rw [hw] at h hs
    obtain rfl := Option.some.inj hs
    exact h
  | readAgain period deadline =>
    rw [hw] at h hs
    obtain rfl := Option.some.inj hs
    exact nextDeadline_le h

/-- The steps of the guest and of the environment leave the thread where it stands. -/
theorem step_worker_eq {e : TimerEvent} (he : e ≠ .worker) (hs : s.step e = some t) :
    t.worker = s.worker ∧ s.clock ≤ t.clock := by
  have hle := BitVec.le_refl s.clock
  cases e with
  | worker => exact absurd rfl he
  | call value =>
    simp only [TimerState.step, TimerState.call] at hs
    split at hs
    · obtain rfl := Option.some.inj hs
      exact ⟨rfl, hle⟩
    · cases hs
  | guest =>
    simp only [TimerState.step, TimerState.guestStep] at hs
    split at hs
    · cases hs
    all_goals
      obtain rfl := Option.some.inj hs
      exact ⟨rfl, hle⟩
  | time now =>
    simp only [TimerState.step] at hs
    split_ifs at hs with hclock
    obtain rfl := Option.some.inj hs
    exact ⟨rfl, hclock⟩
  | stop =>
    obtain rfl := Option.some.inj hs
    exact ⟨rfl, hle⟩

theorem workerStep_other (hs : s.workerStep = some t) :
    t.guest = s.guest ∧ t.period = s.period ∧ t.clock = s.clock := by
  unfold TimerState.workerStep at hs
  split at hs
  case h_12 => cases hs
  all_goals
    obtain rfl := Option.some.inj hs
    exact ⟨rfl, rfl, rfl⟩

theorem step_clock_le {e : TimerEvent} (hs : s.step e = some t) : s.clock ≤ t.clock := by
  by_cases he : e = .worker
  · subst he
    exact BitVec.le_of_eq (workerStep_other hs).2.2.symm
  · exact (step_worker_eq he hs).2

theorem coherent_step {e : TimerEvent} (h : s.worker.Coherent s.clock) (hs : s.step e = some t) :
    t.worker.Coherent t.clock := by
  by_cases he : e = .worker
  · subst he
    exact coherent_workerStep h hs
  · obtain ⟨hworker, hclock⟩ := step_worker_eq he hs
    rw [hworker]
    exact h.mono hclock

end Invariants

/-! ## A reset that is kept -/

/-- What programming the timer should lead to from the reset on: one period from the present holds
the deadline, the thread will write no deadline from another period, and one that reads the
deadline now finds it within one period of the clock reading it has taken. -/
structure Programmed (value : BitVec 32) (s : TimerState) : Prop where
  period : s.period = clampPeriod value
  holds : ∀ p ∈ s.worker.holds, p = clampPeriod value
  deadline : s.deadline.toNat ≤ s.clock.toNat + (timerStepNs (clampPeriod value)).toNat
  reads : ∀ p now, s.worker = .loadDeadline p now →
    s.deadline.toNat ≤ now.toNat + (timerStepNs (clampPeriod value)).toNat

section Programmed

variable {s t : TimerState} {value : BitVec 32}

theorem Programmed.worker {pc : TimerPc} (h : Programmed value s)
    (hholds : ∀ p ∈ pc.holds, p = clampPeriod value) (hreads : ∀ p now, pc ≠ .loadDeadline p now) :
    Programmed value { s with worker := pc } :=
  ⟨h.period, hholds, h.deadline, fun p now hpc => absurd hpc (hreads p now)⟩

theorem holds_compare {p q : BitVec 32} {now deadline : BitVec 64}
    (h : q ∈ (TimerPc.compare p now deadline).holds) : q = p := by
  unfold TimerPc.compare at h
  split_ifs at h
  · cases h
  · exact (Option.some.inj h).symm

theorem compare_ne_loadDeadline {p q : BitVec 32} {now deadline now' : BitVec 64} :
    TimerPc.compare p now deadline ≠ .loadDeadline q now' := by
  unfold TimerPc.compare
  split_ifs <;> nofun

theorem Programmed.workerStep (h : Programmed value s) (hco : s.worker.Coherent s.clock)
    (hs : s.workerStep = some t) : Programmed value t := by
  have hholds := h.holds
  unfold TimerState.workerStep at hs
  cases hw : s.worker with
  | exited =>
    rw [hw] at hs
    cases hs
  | top | testEnabled =>
    rw [hw] at hs
    obtain rfl := Option.some.inj hs
    split_ifs <;> exact h.worker nofun nofun
  | loadPeriod =>
    rw [hw] at hs
    obtain rfl := Option.some.inj hs
    split_ifs
    · exact h.worker nofun nofun
    · refine h.worker (fun p hp => ?_) nofun
      rw [← h.period]
      exact (Option.some.inj hp).symm
  | clearDeadline =>
    rw [hw] at hs
    obtain rfl := Option.some.inj hs
    exact ⟨h.period, nofun, Nat.zero_le _, nofun⟩
  | disable =>
    rw [hw] at hs
    obtain rfl := Option.some.inj hs
    exact ⟨h.period, nofun, h.deadline, nofun⟩
  | readClock p =>
    rw [hw] at hholds hs
    obtain rfl := Option.some.inj hs
    refine ⟨h.period, hholds, h.deadline, fun q now hpc => ?_⟩
    obtain ⟨-, rfl⟩ := TimerPc.loadDeadline.inj hpc
    exact h.deadline
  | loadDeadline p now =>
    rw [hw] at hholds hs
    obtain rfl := Option.some.inj hs
    split_ifs
    · exact h.worker hholds nofun
    · exact h.worker (fun q hq => holds_compare hq ▸ hholds p rfl) fun _ _ => compare_ne_loadDeadline
  | storeFirst p now =>
    rw [hw] at hholds hco hs
    obtain rfl := Option.some.inj hs
    refine ⟨h.period, fun q hq => holds_compare hq ▸ hholds p rfl, ?_,
      fun _ _ hpc => absurd hpc compare_ne_loadDeadline⟩
    have hadd := add_toNat_le now (timerStepNs p)
    have hnow : now.toNat ≤ s.clock.toNat := hco
    rw [← hholds p rfl]
    exact hadd.trans (Nat.add_le_add_right hnow _)
  | fire p d =>
    rw [hw] at hholds hs
    obtain rfl := Option.some.inj hs
    exact ⟨h.period, hholds, h.deadline, nofun⟩
  | readAgain p d =>
    rw [hw] at hholds hs
    obtain rfl := Option.some.inj hs
    exact h.worker hholds nofun
  | storeNext p d =>
    rw [hw] at hholds hco hs
    obtain rfl := Option.some.inj hs
    refine ⟨h.period, nofun, ?_, nofun⟩
    rw [← hholds p rfl]
    exact hco

theorem Programmed.other (h : Programmed value s) (hperiod : t.period = s.period)
    (hdeadline : t.deadline = s.deadline) (hworker : t.worker = s.worker)
    (hclock : s.clock ≤ t.clock) : Programmed value t := by
  have hle : s.clock.toNat ≤ t.clock.toNat := hclock
  refine ⟨hperiod.trans h.period, ?_, ?_, ?_⟩
  · rw [hworker]
    exact h.holds
  · rw [hdeadline]
    exact h.deadline.trans (Nat.add_le_add_right hle _)
  · rw [hworker, hdeadline]
    exact h.reads

/-- What the guest's position in a call says about the timer. -/
def TimerState.Committed (s : TimerState) : Prop :=
  match s.guest with
  | .resetDeadline value => s.period = clampPeriod value
  | .enable value => Programmed value s
  | .returned value => value ≠ 0 → s.enabled = true ∧ s.worker ≠ .disable ∧ Programmed value s
  | _ => True

/-- The thread has yet to write what it has read before the call: a deadline of another period when
the guest resets the deadline, the switch when the guest turns it on. -/
def TimerState.overtaken (s : TimerState) : Bool :=
  match s.guest with
  | .resetDeadline value => s.worker.holds.any (· ≠ clampPeriod value)
  | .enable _ => s.worker = .disable
  | _ => false

def TimerState.Undisturbed (s : TimerState) (e : TimerEvent) : Prop :=
  e = .guest → s.overtaken = false

instance (s : TimerState) (e : TimerEvent) : Decidable (s.Undisturbed e) :=
  inferInstanceAs (Decidable (_ → _))

theorem workerStep_enabled (hs : s.workerStep = some t) (hw : s.worker ≠ .disable) :
    t.enabled = s.enabled := by
  unfold TimerState.workerStep at hs
  split at hs
  case h_12 => cases hs
  case h_5 h => exact absurd h hw
  all_goals
    obtain rfl := Option.some.inj hs
    rfl

theorem workerStep_ne_disable (hs : s.workerStep = some t) (hp : s.period ≠ 0) :
    t.worker ≠ .disable := by
  unfold TimerState.workerStep at hs
  cases hw : s.worker with
  | exited =>
    rw [hw] at hs
    cases hs
  | top | testEnabled =>
    rw [hw] at hs
    obtain rfl := Option.some.inj hs
    split_ifs <;> nofun
  | loadPeriod =>
    rw [hw] at hs
    obtain rfl := Option.some.inj hs
    rw [if_neg hp]
    nofun
  | loadDeadline | storeFirst =>
    rw [hw] at hs
    obtain rfl := Option.some.inj hs
    unfold TimerPc.compare
    split_ifs <;> nofun
  | _ =>
    rw [hw] at hs
    obtain rfl := Option.some.inj hs
    nofun

theorem Committed.workerStep (h : s.Committed) (hco : s.worker.Coherent s.clock)
    (hs : s.workerStep = some t) : t.Committed := by
  obtain ⟨hguest, hperiod, -⟩ := workerStep_other hs
  unfold TimerState.Committed at h ⊢
  rw [hguest]
  cases hg : s.guest with
  | resetDeadline value =>
    rw [hg] at h
    exact hperiod.trans h
  | enable value =>
    rw [hg] at h
    exact Programmed.workerStep h hco hs
  | returned value =>
    rw [hg] at h
    intro hv
    obtain ⟨henabled, hworker, hprog⟩ := h hv
    have hne : s.period ≠ 0 := by
      rw [hprog.period]
      exact clampPeriod_ne_zero value
    exact ⟨(workerStep_enabled hs hworker).trans henabled, workerStep_ne_disable hs hne,
      hprog.workerStep hco hs⟩
  | _ => trivial

theorem Committed.guestStep (h : s.Committed) (hun : s.overtaken = false)
    (hs : s.guestStep = some t) : t.Committed := by
  unfold TimerState.guestStep at hs
  unfold TimerState.Committed at h
  unfold TimerState.overtaken at hun
  cases hg : s.guest with
  | returned value =>
    rw [hg] at hs
    cases hs
  | storePeriod value =>
    rw [hg] at hs
    obtain rfl := Option.some.inj hs
    rfl
  | resetDeadline value =>
    rw [hg] at h hun hs
    obtain rfl := Option.some.inj hs
    refine ⟨h, fun p hp => ?_, Nat.zero_le _, fun _ _ _ => Nat.zero_le _⟩
    by_contra hne
    rw [Option.mem_def.mp hp] at hun
    have hother : decide (p ≠ clampPeriod value) = false := hun
    exact of_decide_eq_false hother hne
  | enable value =>
    rw [hg] at h hun hs
    obtain rfl := Option.some.inj hs
    have hworker : s.worker ≠ .disable := of_decide_eq_false hun
    exact fun _ => ⟨rfl, hworker, Programmed.other h rfl rfl rfl (BitVec.le_refl s.clock)⟩
  | disable | clearPeriod =>
    rw [hg] at hs
    obtain rfl := Option.some.inj hs
    trivial
  | clearDeadline =>
    rw [hg] at hs
    obtain rfl := Option.some.inj hs
    exact fun h0 => absurd rfl h0

/-- The environment moves the clock and stops the machine. -/
theorem Committed.environment {now : BitVec 64} (h : s.Committed) (hle : s.clock ≤ now)
    (stop : Bool) : TimerState.Committed { s with clock := now, stop := stop } := by
  obtain ⟨period, deadline, enabled, clock, ticks, stopped, worker, guest⟩ := s
  cases guest with
  | resetDeadline value => exact h
  | enable value => exact Programmed.other h rfl rfl rfl hle
  | returned value =>
    intro hv
    obtain ⟨henabled, hworker, hprog⟩ := h hv
    exact ⟨henabled, hworker, hprog.other rfl rfl rfl hle⟩
  | _ => trivial

theorem Committed.step {e : TimerEvent} (h : s.Committed) (hco : s.worker.Coherent s.clock)
    (hun : s.Undisturbed e) (hs : s.step e = some t) : t.Committed := by
  cases e with
  | worker => exact Committed.workerStep h hco hs
  | guest => exact Committed.guestStep h (hun rfl) hs
  | call value =>
    simp only [TimerState.step, TimerState.call] at hs
    split at hs
    · obtain rfl := Option.some.inj hs
      unfold TimerState.Committed
      dsimp only
      split_ifs <;> trivial
    · cases hs
  | time now =>
    simp only [TimerState.step] at hs
    split_ifs at hs with hclock
    obtain rfl := Option.some.inj hs
    exact Committed.environment h hclock s.stop
  | stop =>
    obtain rfl := Option.some.inj hs
    exact Committed.environment h (BitVec.le_refl s.clock) true

theorem reachable_committed (h : Reachable (timer.restrict TimerState.Undisturbed) s) :
    s.Committed ∧ s.worker.Coherent s.clock := by
  refine h.invariant (P := fun s => s.Committed ∧ s.worker.Coherent s.clock) ?_ ?_
  · rintro s ⟨clock, rfl⟩
    exact ⟨fun h0 => absurd rfl h0, trivial⟩
  · rintro s e t ⟨hs, hco⟩ ⟨hun, hstep⟩
    exact ⟨Committed.step hs hco hun hstep, coherent_step hco hstep⟩

end Programmed

/-- The deadline that the thread works with when it reads the deadline now. -/
def TimerState.worksWith (s : TimerState) (period : BitVec 32) (now : BitVec 64) : BitVec 64 :=
  if s.deadline = 0 then now + timerStepNs period else s.deadline

/-- The timer runs with the period `value`: it is on, a thread that has read the clock works with a
deadline within one such period, and no deadline that another period leads to is still to come. -/
structure TimerState.Keeps (value : BitVec 32) (s : TimerState) : Prop where
  enabled : s.enabled = true
  next : ∀ p now, s.worker = .loadDeadline p now →
    (s.worksWith p now).toNat ≤ now.toNat + 1000 * max value.toNat 1000
  pending : ∀ p ∈ s.worker.holds, p.toNat = max value.toNat 1000

/-- Without a race the reset of a call is kept. A call of the function makes these accesses
(`handleProgrammableTick_run`). -/
theorem reprogramming_kept {s : TimerState} {value : BitVec 32}
    (h : Reachable (timer.restrict TimerState.Undisturbed) s) (hg : s.guest = .returned value)
    (hv : value ≠ 0) : s.Keeps value := by
  have hcommitted := (reachable_committed h).1
  unfold TimerState.Committed at hcommitted
  rw [hg] at hcommitted
  obtain ⟨henabled, -, hprog⟩ := hcommitted hv
  have hstep : (timerStepNs (clampPeriod value)).toNat = 1000 * max value.toNat 1000 := by
    rw [timerStepNs_toNat, clampPeriod_toNat, mul_comm]
  refine ⟨henabled, fun p now hpc => ?_, fun p hp => ?_⟩
  · unfold TimerState.worksWith
    split_ifs with hzero
    · have hp : p = clampPeriod value := hprog.holds p (by rw [hpc]; rfl)
      have hadd := add_toNat_le now (timerStepNs p)
      rw [hp, hstep] at hadd
      rw [hp]
      exact hadd
    · rw [← hstep]
      exact hprog.reads p now hpc
  · rw [hprog.holds p hp, clampPeriod_toNat]

/-! ## Runs that can be evaluated -/

/-- The state after `events` if each of them can happen and meets `C`. -/
def TimerState.run (C : TimerState → TimerEvent → Prop) [∀ s e, Decidable (C s e)] :
    List TimerEvent → TimerState → Option TimerState
  | [], s => some s
  | e :: events, s => if C s e then (s.step e).bind (run C events) else none

theorem run_timer {C : TimerState → TimerEvent → Prop} [∀ s e, Decidable (C s e)]
    {events : List TimerEvent} {s t : TimerState} (h : TimerState.run C events s = some t) :
    Run (timer.restrict C) s events t := by
  induction events generalizing s with
  | nil =>
    obtain rfl := Option.some.inj h
    exact .nil
  | cons e events ih =>
    unfold TimerState.run at h
    split_ifs at h with hC
    obtain ⟨u, hu, hrest⟩ := Option.bind_eq_some_iff.mp h
    exact Run.cons ⟨hC, hu⟩ (ih hrest)

theorem reachable_run {C : TimerState → TimerEvent → Prop} [∀ s e, Decidable (C s e)]
    (events : List TimerEvent) (clock : BitVec 64) {t : TimerState}
    (h : TimerState.run C events (.start clock) = some t) : Reachable (timer.restrict C) t :=
  ⟨.start clock, events, ⟨clock, rfl⟩, run_timer h⟩

/-- A call and the three stores it consists of. -/
def callEvents (value : BitVec 32) : List TimerEvent := [.call value, .guest, .guest, .guest]

/-- From one second to one millisecond between two accesses of the thread. -/
def shortenedEarly : List TimerEvent :=
  callEvents 1000000 ++ List.replicate 4 .worker ++ callEvents 1000 ++ List.replicate 6 .worker

/-- The same when the thread has gone to sleep. -/
def shortenedAsleep : List TimerEvent :=
  callEvents 1000000 ++ List.replicate 6 .worker ++ callEvents 1000 ++ List.replicate 4 .worker

/-- Off and on again while the thread is about to read the period. -/
def restarted : List TimerEvent :=
  callEvents 1000 ++ List.replicate 2 .worker ++ callEvents 0 ++ [.worker] ++ callEvents 1000 ++
    [.worker]

/-- The state in which the thread next reads the deadline. -/
def shortened (deadline : BitVec 64) : TimerState where
  period := 1000
  deadline := deadline
  enabled := true
  clock := 1000000000
  ticks := 0
  stop := false
  worker := .loadDeadline 1000 1000000000
  guest := .returned 1000

theorem reprogramming_kept_asleep :
    Reachable (timer.restrict TimerState.Undisturbed) (shortened 0) ∧ (shortened 0).Keeps 1000 := by
  have hreach : Reachable (timer.restrict TimerState.Undisturbed) (shortened 0) :=
    reachable_run shortenedAsleep 1000000000 (by decide +kernel)
  exact ⟨hreach, reprogramming_kept hreach rfl (by decide)⟩

/-- The deadline of the old period stays; a timer that is turned on stays off. -/
theorem reprogramming_lost :
    (∃ s now, Reachable timer s ∧ s.guest = .returned 1000 ∧ s.worker = .loadDeadline 1000 now ∧
      now.toNat + 1000 * max (1000 : BitVec 32).toNat 1000 < (s.worksWith 1000 now).toNat) ∧
    ∃ s, Reachable timer s ∧ s.guest = .returned 1000 ∧ s.enabled = false := by
  have hkept : Reachable (timer.restrict fun _ _ => True) (shortened 2000000000) :=
    reachable_run shortenedEarly 1000000000 (by decide +kernel)
  refine ⟨⟨_, 1000000000, hkept.of_restrict, rfl, rfl, by decide⟩, ?_⟩
  have hsome : (TimerState.run (fun _ _ => True) restarted (.start 0)).isSome := by decide +kernel
  obtain ⟨s, hs⟩ := Option.isSome_iff_exists.mp hsome
  have hoff : (TimerState.run (fun _ _ => True) restarted (.start 0)).map
      (fun s => (s.guest, s.enabled)) = some (.returned 1000, false) := by decide +kernel
  rw [hs, Option.map_some] at hoff
  obtain ⟨hguest, henabled⟩ := Prod.mk.inj (Option.some.inj hoff)
  exact ⟨s, (reachable_run restarted 0 hs).of_restrict, hguest, henabled⟩

/-! ## The rate -/

/-- Where the thread stands in a run without a call, when no firing to come is due before `least`. -/
def TimerPc.Paced (period : BitVec 32) (least : ℕ) (deadline : BitVec 64) : TimerPc → Prop
  | .top | .testEnabled | .loadPeriod => least ≤ deadline.toNat
  | .readClock p | .loadDeadline p _ => p = period ∧ least ≤ deadline.toNat
  | .storeFirst p _ => p = period ∧ least = 0
  | .fire p d | .storeNext p d => p = period ∧ least ≤ d.toNat
  | .readAgain p d => p = period ∧ least ≤ d.toNat + (timerStepNs period).toNat
  | .clearDeadline | .disable => False
  | .exited => True

/-- The state after `n` firings since the deadline was `first`. -/
structure PacedAt (value : BitVec 32) (first n : ℕ) (s : TimerState) : Prop where
  guest : ∃ v, s.guest = .returned v
  period : s.period = clampPeriod value
  enabled : s.enabled = true
  worker : s.worker.Paced s.period (first + n * (timerStepNs s.period).toNat) s.deadline
  count : n = 0 ∨ first + (n - 1) * (timerStepNs s.period).toNat ≤ s.clock.toNat

section Paced

variable {s t : TimerState} {value : BitVec 32} {first n : ℕ}

theorem paced_compare {period : BitVec 32} {now deadline deadline' : BitVec 64} {least : ℕ}
    (h : least ≤ deadline.toNat) (hsame : deadline' = deadline) :
    (TimerPc.compare period now deadline).Paced period least deadline' := by
  subst hsame
  unfold TimerPc.compare
  split_ifs
  · exact h
  · exact ⟨rfl, h⟩

theorem PacedAt.move {pc : TimerPc} (h : PacedAt value first n s)
    (hpc : pc.Paced s.period (first + n * (timerStepNs s.period).toNat) s.deadline) :
    PacedAt value first n { s with worker := pc } :=
  ⟨h.guest, h.period, h.enabled, hpc, h.count⟩

/-- One more firing where the thread fires, none elsewhere. -/
theorem PacedAt.workerStep (h : PacedAt value first n s) (hco : s.worker.Coherent s.clock)
    (hclock : s.clock.toNat < 2 ^ 63) (hs : s.workerStep = some t) :
    ∃ m, t.ticks + n = s.ticks + m ∧ PacedAt value first m t := by
  have hworker := h.worker
  unfold TimerState.workerStep at hs
  cases hw : s.worker with
  | exited =>
    rw [hw] at hs
    cases hs
  | clearDeadline | disable =>
    rw [hw] at hworker
    exact hworker.elim
  | top =>
    rw [hw] at hs hworker
    obtain rfl := Option.some.inj hs
    refine ⟨n, rfl, h.move ?_⟩
    split_ifs
    · trivial
    · exact hworker
  | testEnabled =>
    rw [hw] at hs hworker
    obtain rfl := Option.some.inj hs
    refine ⟨n, rfl, h.move ?_⟩
    rw [if_pos h.enabled]
    exact hworker
  | loadPeriod =>
    rw [hw] at hs hworker
    obtain rfl := Option.some.inj hs
    refine ⟨n, rfl, h.move ?_⟩
    have hne : s.period ≠ 0 := by
      rw [h.period]
      exact clampPeriod_ne_zero value
    rw [if_neg hne]
    exact ⟨rfl, hworker⟩
  | readClock p =>
    rw [hw] at hs hworker
    obtain rfl := Option.some.inj hs
    exact ⟨n, rfl, h.move hworker⟩
  | loadDeadline p now =>
    rw [hw] at hs hworker
    obtain rfl := Option.some.inj hs
    obtain ⟨rfl, hleast⟩ := hworker
    refine ⟨n, rfl, h.move ?_⟩
    split_ifs with hzero
    · rw [hzero] at hleast
      exact ⟨rfl, Nat.le_zero.mp hleast⟩
    · exact paced_compare hleast rfl
  | storeFirst p now =>
    rw [hw] at hs hworker
    obtain rfl := Option.some.inj hs
    obtain ⟨rfl, hleast⟩ := hworker
    refine ⟨n, rfl, h.guest, h.period, h.enabled, paced_compare ?_ rfl, h.count⟩
    rw [hleast]
    exact Nat.zero_le _
  | fire p deadline =>
    rw [hw] at hs hworker hco
    obtain rfl := Option.some.inj hs
    obtain ⟨rfl, hleast⟩ := hworker
    have hpast : deadline.toNat ≤ s.clock.toNat := hco
    have hone : s.ticks + 1 + n = s.ticks + (n + 1) := by omega
    refine ⟨n + 1, hone, h.guest, h.period, h.enabled, ⟨rfl, ?_⟩, Or.inr (hleast.trans hpast)⟩
    rw [add_mul, one_mul]
    dsimp only
    omega
  | readAgain p deadline =>
    rw [hw] at hs hworker hco
    obtain rfl := Option.some.inj hs
    obtain ⟨rfl, hleast⟩ := hworker
    refine ⟨n, rfl, h.move ⟨rfl, hleast.trans ?_⟩⟩
    rw [nextDeadline_toNat s.period hco hclock]
    exact Periodic.add_step_le_catchUp _ _ _
  | storeNext p deadline =>
    rw [hw] at hs hworker
    obtain rfl := Option.some.inj hs
    exact ⟨n, rfl, h.guest, h.period, h.enabled, hworker.2, h.count⟩

/-- No call is made: the guest stays outside, and the clock only moves on. -/
theorem PacedAt.step {e : TimerEvent} (h : PacedAt value first n s)
    (hco : s.worker.Coherent s.clock) (hclock : s.clock.toNat < 2 ^ 63)
    (hcall : ∀ v, e ≠ .call v) (hs : s.step e = some t) :
    ∃ m, t.ticks + n = s.ticks + m ∧ PacedAt value first m t := by
  cases e with
  | worker => exact h.workerStep hco hclock hs
  | call v => exact absurd rfl (hcall v)
  | guest =>
    obtain ⟨v, hv⟩ := h.guest
    simp only [TimerState.step, TimerState.guestStep, hv] at hs
    cases hs
  | time now =>
    simp only [TimerState.step] at hs
    split_ifs at hs with hle
    obtain rfl := Option.some.inj hs
    have hle' : s.clock.toNat ≤ now.toNat := hle
    exact ⟨n, rfl, h.guest, h.period, h.enabled, h.worker, h.count.imp_right fun hc => hc.trans hle'⟩
  | stop =>
    obtain rfl := Option.some.inj hs
    exact ⟨n, rfl, h.guest, h.period, h.enabled, h.worker, h.count⟩

end Paced

/-- The timer is on with the period of a call that has ended, at the top of the loop. -/
structure TimerState.Started (value : BitVec 32) (s : TimerState) : Prop where
  worker : s.worker = .top
  enabled : s.enabled = true
  period : s.period = clampPeriod value
  guest : ∃ v, s.guest = .returned v

/-- The guest begins no call. -/
def TimerState.Unprogrammed (_ : TimerState) (e : TimerEvent) : Prop := ∀ value, e ≠ .call value

theorem TimerState.Started.paced {s : TimerState} {value : BitVec 32} (h : s.Started value) :
    PacedAt value s.deadline.toNat 0 s := by
  refine ⟨h.guest, h.period, h.enabled, ?_, Or.inl rfl⟩
  rw [h.worker, zero_mul, add_zero]
  exact le_rfl

theorem run_paced {s t : TimerState} {value : BitVec 32} {events : List TimerEvent}
    (h : s.Started value) (hr : Run (timer.restrict TimerState.Unprogrammed) s events t)
    (hclock : t.clock.toNat < 2 ^ 63) :
    t.worker.Coherent t.clock ∧
      ∃ n, t.ticks = s.ticks + n ∧ PacedAt value s.deadline.toNat n t := by
  induction hr with
  | nil =>
    refine ⟨?_, 0, rfl, h.paced⟩
    rw [h.worker]
    trivial
  | snoc _ hstep ih =>
    obtain ⟨hcall, hs⟩ := hstep
    have hle := step_clock_le hs
    rw [BitVec.le_def] at hle
    obtain ⟨hco, n, hticks, hpaced⟩ := ih (by omega)
    obtain ⟨m, hm, hnext⟩ := hpaced.step hco (by omega) hcall hs
    exact ⟨coherent_step hco hs, m, by omega, hnext⟩

/-- Behind a firing the thread reads the clock and stores the next deadline. -/
theorem readAgain_steps {s : TimerState} {period : BitVec 32} {deadline : BitVec 64}
    (h : s.worker = .readAgain period deadline) : Run timer s [.worker, .worker]
      { s with
        deadline := nextDeadline (timerStepNs period) deadline s.clock
        worker := .top } := by
  have hread : timer.step s .worker
      { s with worker := .storeNext period (nextDeadline (timerStepNs period) deadline s.clock) } := by
    simp only [timer, TimerState.step, TimerState.workerStep, h]
  exact .cons hread (.cons rfl .nil)

/-- The deadlines keep their phase, the thread stores no others behind a firing, and it fires at
most once for each of their instants. The functions of the machine are runs of these steps
(`handleProgrammableTick_run`, `timerTick_run`). -/
theorem timer_keeps_phase (value : BitVec 32) :
    timerStepNs (clampPeriod value) ≠ 0 ∧
    (∀ deadline now₀ now₁ : BitVec 64, deadline ≤ now₀ → now₀ ≤ now₁ → now₁.toNat < 2 ^ 63 →
      let step := timerStepNs (clampPeriod value)
      let next := nextDeadline step deadline now₁
      deadline < next ∧ next.toNat % step.toNat = deadline.toNat % step.toNat ∧
        now₁ ≤ next ∧ next.toNat ≤ now₁.toNat + step.toNat) ∧
    (∀ s events t period deadline, s.Started value →
      Run (timer.restrict TimerState.Unprogrammed) s events t → t.clock.toNat < 2 ^ 63 →
      t.worker = .readAgain period deadline → deadline ≤ t.clock ∧
        Run timer t [.worker, .worker]
          { t with
            deadline := nextDeadline (timerStepNs (clampPeriod value)) deadline t.clock
            worker := .top }) ∧
    ∀ s events t, s.Started value → Run (timer.restrict TimerState.Unprogrammed) s events t →
      s.deadline ≤ t.clock → t.clock.toNat < 2 ^ 63 →
      t.ticks - s.ticks ≤
        (t.clock.toNat - s.deadline.toNat) / (timerStepNs (clampPeriod value)).toNat + 1 := by
  have hpos := timerStepNs_clampPeriod_pos value
  refine ⟨?_, fun deadline now₀ now₁ h₀ h₁ hlt => ?_,
    fun s events t period deadline hs hr hlt hagain => ?_, fun s events t hs hr hdue hlt => ?_⟩
  · intro hzero
    rw [hzero] at hpos
    exact absurd hpos (lt_irrefl 0)
  · have hdue : deadline ≤ now₁ := BitVec.le_trans h₀ h₁
    have hnext := nextDeadline_toNat (clampPeriod value) hdue hlt
    refine ⟨?_, ?_, ?_, nextDeadline_le hdue⟩
    · rw [BitVec.lt_def, hnext]
      exact Periodic.lt_catchUp hpos
    · rw [hnext]
      exact Periodic.catchUp_mod _ _ _
    · rw [BitVec.le_def, hnext]
      exact Periodic.le_catchUp hpos
  · obtain ⟨hco, _, -, hpaced⟩ := run_paced hs hr hlt
    have hworker := hpaced.worker
    rw [hagain] at hco hworker
    have hperiod : period = clampPeriod value := hworker.1.trans hpaced.period
    refine ⟨hco, ?_⟩
    rw [← hperiod]
    exact readAgain_steps hagain
  · obtain ⟨-, n, hticks, hpaced⟩ := run_paced hs hr hlt
    have hcount := hpaced.count
    rw [hpaced.period] at hcount
    rw [hticks, Nat.add_sub_cancel_left]
    exact Periodic.count_le hpos hdue hcount

/-- The timer fires half a period late and keeps its phase. -/
theorem timer_keeps_phase_late : ∃ s events t u, Reachable timer s ∧ s.Started 1000 ∧
    s.deadline = 1001000000 ∧ Run (timer.restrict TimerState.Unprogrammed) s events t ∧
    t.clock = 1002500000 ∧ t.ticks = 1 ∧ Run timer t [.worker, .worker] u ∧
    u.deadline = 1003000000 ∧
    t.ticks - s.ticks ≤ (t.clock.toNat - s.deadline.toNat) / 1000000 + 1 := by
  let s : TimerState := ⟨1000, 1001000000, true, 1000000000, 0, false, .top, .returned 1000⟩
  let t : TimerState :=
    ⟨1000, 1001000000, true, 1002500000, 1, false, .readAgain 1000 1001000000, .returned 1000⟩
  have hreach : Reachable (timer.restrict fun _ _ => True) s :=
    reachable_run (callEvents 1000 ++ List.replicate 6 .worker) 1000000000 (by decide +kernel)
  have hstarted : s.Started 1000 := ⟨rfl, rfl, rfl, 1000, rfl⟩
  have hevents : ∀ e ∈ TimerEvent.time 1002500000 :: List.replicate 6 TimerEvent.worker,
      ∀ value, e ≠ .call value := by
    simp
  have hrun : Run (timer.restrict fun _ _ => True) s (.time 1002500000 :: List.replicate 6 .worker)
      t := run_timer (by decide +kernel)
  have hquiet : Run (timer.restrict TimerState.Unprogrammed) s
      (.time 1002500000 :: List.replicate 6 .worker) t :=
    hrun.mono fun e he _ _ hstep => ⟨hevents e he, hstep.2⟩
  obtain ⟨-, -, hnext, hcount⟩ := timer_keeps_phase 1000
  obtain ⟨-, hstore⟩ := hnext s _ t _ _ hstarted hquiet (by decide) rfl
  exact ⟨s, _, t, _, hreach.of_restrict, hstarted, rfl, hquiet, rfl, rfl, hstore, by decide,
    hcount s _ t hstarted hquiet (by decide) (by decide)⟩

end LampVm
