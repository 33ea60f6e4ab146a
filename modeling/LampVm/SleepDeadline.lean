import LampVm.SchedMoves

/-!
# How long a sleep lasts

A sleeping task stores the tick at which it is to be woken, `now + ticks` modulo `2 ^ 32`,
and `schedule_tick` wakes every waiting task whose stored tick is not zero and not above
the counter. Around the wrap of the counter the comparison and the distinguished zero go
wrong: the theorems here say for which counters and which lengths the sleep ends at the
tick that was asked for.
-/
namespace LampVm

open Transition

/-! ## One tick -/

/-- The test of `sched_try_wake_sleepers` for one slot. -/
def TaskSlot.Due (slot : TaskSlot) (now : BitVec 32) : Prop :=
  slot.used = true ∧ (slot.state = .sleeping ∨ slot.state = .blocked) ∧
    slot.wakeTick ≠ 0 ∧ slot.wakeTick ≤ now

instance (slot : TaskSlot) (now : BitVec 32) : Decidable (slot.Due now) :=
  inferInstanceAs (Decidable (_ ∧ _))

def TaskSlot.afterTick (slot : TaskSlot) (now : BitVec 32) : TaskSlot :=
  if slot.Due now then slot.woken else slot

theorem tryWakeSleeper_eq (now : BitVec 32) (s : Sched) (i : TaskIdx) :
    tryWakeSleeper now s i = if (s.tasks i).Due now then wakeTask i s else s := by
  unfold tryWakeSleeper
  dsimp only
  by_cases hdue : (s.tasks i).Due now
  · rw [if_pos hdue]
    obtain ⟨hused, hwaits, hset, hle⟩ := hdue
    rw [if_neg (by simp [hused]), if_neg fun h => hwaits.elim h.1 h.2,
      if_neg fun h => h.elim hset (BitVec.not_lt.mpr hle)]
  · rw [if_neg hdue]
    by_cases hused : (s.tasks i).used = true
    · rw [if_neg (by simp [hused])]
      split_ifs with hstate htick
      · rfl
      · rfl
      · refine absurd ⟨hused, ?_, ?_, ?_⟩ hdue
        · by_contra hwaits
          exact hstate (not_or.mp hwaits)
        · exact (not_or.mp htick).1
        · exact BitVec.not_lt.mp (not_or.mp htick).2
    · rw [if_pos hused]

theorem tryWakeSleeper_tasks (now : BitVec 32) (s : Sched) (i : TaskIdx) :
    (tryWakeSleeper now s i).tasks =
      Function.update s.tasks i ((s.tasks i).afterTick now) := by
  rw [tryWakeSleeper_eq, TaskSlot.afterTick]
  split_ifs
  · exact wakeTask_tasks i s
  · exact (Function.update_eq_self i s.tasks).symm

/-- A pass over distinct slots treats each of them by itself. -/
theorem tryWakeSleepers_tasks (now : BitVec 32) {l : List TaskIdx} (hl : l.Nodup) (s : Sched)
    (i : TaskIdx) :
    (l.foldl (tryWakeSleeper now) s).tasks i =
      if i ∈ l then (s.tasks i).afterTick now else s.tasks i := by
  induction l generalizing s with
  | nil => simp
  | cons j l ih =>
    obtain ⟨hj, hl⟩ := List.nodup_cons.mp hl
    rw [List.foldl_cons, ih hl, tryWakeSleeper_tasks]
    by_cases hij : i = j
    · subst hij
      rw [if_neg hj, if_pos List.mem_cons_self, Function.update_self]
    · rw [Function.update_of_ne hij]
      simp [hij]

theorem tryWakeSleepers_ticks (now : BitVec 32) (l : List TaskIdx) (s : Sched) :
    (l.foldl (tryWakeSleeper now) s).ticks = s.ticks := by
  induction l generalizing s with
  | nil => rfl
  | cons j l ih =>
    rw [List.foldl_cons, ih, tryWakeSleeper_eq]
    split_ifs
    · change (schedDetachWaitq j s).ticks = s.ticks
      unfold schedDetachWaitq
      split <;> rfl
    · rfl

/-- The fields of a slot that decide when its task is woken. -/
structure SameSleep (a b : TaskSlot) : Prop where
  used : b.used = a.used
  state : b.state = a.state
  wakeTick : b.wakeTick = a.wakeTick

theorem SameSleep.refl (a : TaskSlot) : SameSleep a a := ⟨rfl, rfl, rfl⟩

theorem SameSleep.trans {a b c : TaskSlot} (h : SameSleep a b) (h' : SameSleep b c) :
    SameSleep a c :=
  ⟨h'.used.trans h.used, h'.state.trans h.state, h'.wakeTick.trans h.wakeTick⟩

theorem scheduleTick_ticks (s : Sched) : (scheduleTick s).ticks = s.ticks + 1 := by
  have hticks := tryWakeSleepers_ticks (s.ticks + 1) (List.finRange schedMaxTasks)
    { s with ticks := s.ticks + 1 }
  unfold scheduleTick schedTryWakeSleepers
  dsimp only
  split_ifs
  · exact hticks
  · exact hticks
  · exact hticks

/-- What a tick makes of a slot, apart from the count of its quantum. -/
theorem scheduleTick_slot (s : Sched) (i : TaskIdx) :
    SameSleep ((s.tasks i).afterTick (s.ticks + 1)) ((scheduleTick s).tasks i) := by
  have hslot := tryWakeSleepers_tasks (s.ticks + 1) (List.nodup_finRange schedMaxTasks)
    { s with ticks := s.ticks + 1 } i
  rw [if_pos (List.mem_finRange i)] at hslot
  unfold scheduleTick schedTryWakeSleepers
  dsimp only
  rw [← hslot]
  generalize (List.finRange schedMaxTasks).foldl (tryWakeSleeper (s.ticks + 1)) _ = t
  have hquantum : SameSleep (t.tasks i)
      ((t.setTask t.currentIdx { t.tasks t.currentIdx with
        quantumUsed := (t.tasks t.currentIdx).quantumUsed + 1 }).tasks i) := by
    change SameSleep _ (Function.update t.tasks t.currentIdx _ i)
    by_cases hi : i = t.currentIdx
    · rw [hi, Function.update_self]
      exact ⟨rfl, rfl, rfl⟩
    · rw [Function.update_of_ne hi]
      exact .refl _
  split_ifs
  · exact hquantum
  · exact hquantum
  · exact .refl _

theorem SameSleep.due_iff {a b : TaskSlot} (h : SameSleep a b) {now : BitVec 32} :
    b.Due now ↔ a.Due now := by
  unfold TaskSlot.Due
  rw [h.used, h.state, h.wakeTick]

theorem scheduleTick_of_due {s : Sched} {i : TaskIdx} (h : (s.tasks i).Due (s.ticks + 1)) :
    ((scheduleTick s).tasks i).state = .runnable := by
  have hslot := scheduleTick_slot s i
  rw [TaskSlot.afterTick, if_pos h] at hslot
  exact hslot.state

theorem scheduleTick_of_not_due {s : Sched} {i : TaskIdx} (h : ¬ (s.tasks i).Due (s.ticks + 1)) :
    SameSleep (s.tasks i) ((scheduleTick s).tasks i) := by
  have hslot := scheduleTick_slot s i
  rwa [TaskSlot.afterTick, if_neg h] at hslot

/-! ## Runs in which nothing else wakes the task -/

inductive SleepEvent
  | tick
  /-- Whatever else the kernel does. -/
  | other
  deriving DecidableEq, Repr

/-- Ticks, and between them any change that leaves the counter alone and neither wakes the
task of slot `i` nor gives it another deadline. -/
def undisturbed (i : TaskIdx) : System Sched SleepEvent where
  init _ := True
  step s e t :=
    e = .tick ∧ t = scheduleTick s ∨
      e = .other ∧ t.ticks = s.ticks ∧ SameSleep (s.tasks i) (t.tasks i)

/-- The task of slot `i` is not runnable through the next `n - 1` ticks and is runnable
after the `n`-th. -/
def LastsExactly (i : TaskIdx) (n : ℕ) (s : Sched) : Prop :=
  ∀ es t, Run (undisturbed i) s es t →
    (es.count .tick < n → (t.tasks i).state ≠ .runnable) ∧
    (es.count .tick + 1 = n → ((scheduleTick t).tasks i).state = .runnable)

theorem tick_after (now : BitVec 32) (k : ℕ) :
    now + BitVec.ofNat 32 k + 1 = now + BitVec.ofNat 32 (k + 1) := by
  rw [BitVec.ofNat_add, BitVec.add_assoc]
  rfl

/-- Before its task is due, a slot keeps its sleep while the counter goes on. -/
theorem asleep_run {i : TaskIdx} {s t : Sched} {es : List SleepEvent}
    (h : Run (undisturbed i) s es t)
    (hnot : ∀ j, 1 ≤ j → j ≤ es.count .tick →
      ¬ (s.tasks i).Due (s.ticks + BitVec.ofNat 32 j)) :
    t.ticks = s.ticks + BitVec.ofNat 32 (es.count .tick) ∧ SameSleep (s.tasks i) (t.tasks i) := by
  induction h with
  | nil => exact ⟨by simp, .refl _⟩
  | @snoc es e t u _ hs ih =>
    rw [List.count_append] at hnot ⊢
    obtain ⟨hticks, hsame⟩ := ih fun j hj hle => hnot j hj (Nat.le_add_right_of_le hle)
    obtain ⟨rfl, rfl⟩ | ⟨rfl, hkept, hslot⟩ := hs
    · have hnext : t.ticks + 1 = s.ticks + BitVec.ofNat 32 (es.count .tick + 1) := by
        rw [hticks, tick_after]
      have hcount : List.count SleepEvent.tick [.tick] = 1 := rfl
      rw [hcount] at hnot ⊢
      have hearly : ¬ (t.tasks i).Due (t.ticks + 1) := by
        rw [hsame.due_iff, hnext]
        exact hnot _ (Nat.le_add_left 1 _) le_rfl
      exact ⟨(scheduleTick_ticks t).trans hnext, hsame.trans (scheduleTick_of_not_due hearly)⟩
    · have hcount : List.count SleepEvent.tick [.other] = 0 := rfl
      rw [hcount, Nat.add_zero]
      exact ⟨hkept.trans hticks, hsame.trans hslot⟩

/-- Nothing but ticks. -/
theorem run_ticks (i : TaskIdx) (s : Sched) (k : ℕ) :
    ∃ t, Run (undisturbed i) s (List.replicate k .tick) t := by
  induction k with
  | zero => exact ⟨s, .nil⟩
  | succ k ih =>
    obtain ⟨t, ht⟩ := ih
    rw [List.replicate_succ']
    exact ⟨scheduleTick t, ht.snoc (.inl ⟨rfl, rfl⟩)⟩

/-- A sleep lasts `n` ticks when the `n`-th value of the counter is the first at which the
slot is due. -/
theorem lastsExactly_iff_due {i : TaskIdx} {s : Sched} {n : ℕ} (hn : 1 ≤ n)
    (hwaits : (s.tasks i).state ≠ .runnable) :
    LastsExactly i n s ↔
      (s.tasks i).Due (s.ticks + BitVec.ofNat 32 n) ∧
        ∀ j, 1 ≤ j → j < n → ¬ (s.tasks i).Due (s.ticks + BitVec.ofNat 32 j) := by
  constructor
  · intro hlasts
    have hearly : ∀ j, 1 ≤ j → j < n → ¬ (s.tasks i).Due (s.ticks + BitVec.ofNat 32 j) := by
      intro j
      induction j using Nat.strong_induction_on with
      | _ j ih =>
        intro hj hlt hdue
        obtain ⟨k, rfl⟩ : ∃ k, j = k + 1 := ⟨j - 1, by omega⟩
        obtain ⟨t, ht⟩ := run_ticks i s k
        have hcount : (List.replicate k SleepEvent.tick).count .tick = k := List.count_replicate_self
        obtain ⟨hticks, hsame⟩ := asleep_run ht fun m hm hle =>
          ih m (by omega) hm (by omega)
        rw [hcount] at hticks
        have hwoken : ((scheduleTick t).tasks i).state = .runnable := by
          refine scheduleTick_of_due ?_
          rw [hsame.due_iff, hticks, tick_after]
          exact hdue
        refine (hlasts _ _ (ht.snoc (.inl ⟨rfl, rfl⟩))).1 ?_ hwoken
        rw [List.count_append, hcount]
        exact hlt
    refine ⟨?_, hearly⟩
    obtain ⟨k, rfl⟩ : ∃ k, n = k + 1 := ⟨n - 1, by omega⟩
    obtain ⟨t, ht⟩ := run_ticks i s k
    have hcount : (List.replicate k SleepEvent.tick).count .tick = k := List.count_replicate_self
    obtain ⟨hticks, hsame⟩ := asleep_run ht fun m hm hle => hearly m hm (by omega)
    rw [hcount] at hticks
    by_contra hdue
    have hkept : SameSleep (t.tasks i) ((scheduleTick t).tasks i) := by
      refine scheduleTick_of_not_due ?_
      rw [hsame.due_iff, hticks, tick_after]
      exact hdue
    have hwoken := (hlasts _ _ ht).2 (by rw [hcount])
    rw [hkept.state, hsame.state] at hwoken
    exact hwaits hwoken
  · rintro ⟨hdue, hearly⟩ es t ht
    constructor
    · intro hlt
      obtain ⟨-, hsame⟩ := asleep_run ht fun j hj hle => hearly j hj (by omega)
      rw [hsame.state]
      exact hwaits
    · intro hcount
      obtain ⟨hticks, hsame⟩ := asleep_run ht fun j hj hle => hearly j hj (by omega)
      refine scheduleTick_of_due ?_
      rw [hsame.due_iff, hticks, tick_after, hcount]
      exact hdue

/-! ## Deadlines -/

/-- The deadline `n` ticks after `now` does not pass the wrap of the counter, or the
counter is about to wrap itself. -/
def DeadlineFits (now : BitVec 32) (n : ℕ) : Prop :=
  now.toNat + n < 2 ^ 32 ∨ (now.toNat = 2 ^ 32 - 1 ∧ 1 < n)

instance (now : BitVec 32) (n : ℕ) : Decidable (DeadlineFits now n) :=
  inferInstanceAs (Decidable (_ ∨ _))

/-- A task that waits for the tick `n` after the current one. -/
structure WaitsFor (s : Sched) (i : TaskIdx) (n : ℕ) : Prop where
  used : (s.tasks i).used = true
  waits : (s.tasks i).state = .sleeping ∨ (s.tasks i).state = .blocked
  wakeTick : (s.tasks i).wakeTick = s.ticks + BitVec.ofNat 32 n

theorem WaitsFor.due_iff {s : Sched} {i : TaskIdx} {n : ℕ} (h : WaitsFor s i n) (j : ℕ) :
    (s.tasks i).Due (s.ticks + BitVec.ofNat 32 j) ↔
      (s.ticks.toNat + n) % 2 ^ 32 ≠ 0 ∧
        (s.ticks.toNat + n) % 2 ^ 32 ≤ (s.ticks.toNat + j) % 2 ^ 32 := by
  have htoNat (m : ℕ) :
      (s.ticks + BitVec.ofNat 32 m).toNat = (s.ticks.toNat + m) % 2 ^ 32 := by
    rw [BitVec.toNat_add, BitVec.toNat_ofNat, Nat.add_mod_mod]
  have hzero : (s.tasks i).wakeTick ≠ 0 ↔ (s.ticks.toNat + n) % 2 ^ 32 ≠ 0 := by
    rw [h.wakeTick, ← BitVec.toNat_ne_iff_ne, htoNat]
    rfl
  unfold TaskSlot.Due
  rw [hzero, BitVec.le_def, h.wakeTick, htoNat, htoNat]
  exact ⟨fun hdue => hdue.2.2, fun hdue => ⟨h.used, h.waits, hdue⟩⟩

theorem WaitsFor.lastsExactly_iff {s : Sched} {i : TaskIdx} {n : ℕ} (h : WaitsFor s i n)
    (hn : 1 ≤ n) (hlt : n < 2 ^ 32) : LastsExactly i n s ↔ DeadlineFits s.ticks n := by
  have hwaits : (s.tasks i).state ≠ .runnable := by
    obtain hstate | hstate := h.waits
    · simp [hstate]
    · simp [hstate]
  have hnow := s.ticks.isLt
  rw [lastsExactly_iff_due hn hwaits, h.due_iff, DeadlineFits]
  simp only [h.due_iff]
  constructor
  · rintro ⟨⟨hset, -⟩, hearly⟩
    by_contra hfits
    -- Past the wrap the first tick already finds the deadline behind the counter.
    have hfirst := hearly 1 le_rfl
    omega
  · rintro (hfits | ⟨hlast, hmore⟩)
    · refine ⟨by omega, fun j hj hjn => ?_⟩
      omega
    · refine ⟨by omega, fun j hj hjn => ?_⟩
      omega

theorem toNat_pos_of_ne_zero {ticks : BitVec 32} (h : ticks ≠ 0) : 1 ≤ ticks.toNat :=
  Nat.one_le_iff_ne_zero.mpr fun hzero => h (BitVec.eq_of_toNat_eq hzero)

theorem waitsFor_sleepTicks (ticks : BitVec 32) {s : Sched} {i : TaskIdx}
    (hcurrent : schedCurrentSlot s = some i) (hactive : (s.tasks i).isIdle = false)
    (hused : (s.tasks i).used = true) :
    WaitsFor (schedSleepTicks ticks s) i (max ticks.toNat 1) ∧
      (schedSleepTicks ticks s).ticks = s.ticks := by
  have hlength : (if ticks ≠ 0 then ticks else 1) = BitVec.ofNat 32 (max ticks.toNat 1) := by
    split_ifs with hzero
    · rw [max_eq_left (toNat_pos_of_ne_zero hzero), BitVec.ofNat_toNat, BitVec.setWidth_eq]
    · rw [not_not.mp hzero]
      rfl
  unfold schedSleepTicks
  rw [hcurrent]
  dsimp only
  rw [if_neg (by simp [hactive]), hlength]
  refine ⟨⟨?_, ?_, ?_⟩, rfl⟩ <;> simp [Sched.setTask, Sched.resched, hused]

theorem waitsFor_waitqSleep (q : WaitqRef) {timeout : BitVec 32} (ht : timeout ≠ 0) {s : Sched}
    {i : TaskIdx} (hcurrent : schedCurrentSlot s = some i) (hactive : (s.tasks i).isIdle = false)
    (hused : (s.tasks i).used = true) :
    WaitsFor (schedWaitqSleep q timeout s) i timeout.toNat ∧
      (schedWaitqSleep q timeout s).ticks = s.ticks := by
  have hticks : (schedDetachWaitq i s).ticks = s.ticks := by
    unfold schedDetachWaitq
    split <;> rfl
  unfold schedWaitqSleep
  rw [hcurrent]
  dsimp only
  rw [if_neg (by simp [hactive]), if_pos ht]
  refine ⟨⟨?_, ?_, ?_⟩, hticks⟩ <;> simp [Sched.setTask, Sched.resched, detach_waitq, hused]

/-- A sleep of the current task, with or without a queue, lasts exactly as long as asked
when its deadline fits the counter, and not otherwise. -/
theorem sleep_exact_iff {s : Sched} {i : TaskIdx} (hcurrent : schedCurrentSlot s = some i)
    (hactive : (s.tasks i).isIdle = false) (ticks : BitVec 32) :
    (LastsExactly i (max ticks.toNat 1) (schedSleepTicks ticks s) ↔
      DeadlineFits s.ticks (max ticks.toNat 1)) ∧
    (ticks ≠ 0 → ∀ q, LastsExactly i (max ticks.toNat 1) (schedWaitqSleep q ticks s) ↔
      DeadlineFits s.ticks (max ticks.toNat 1)) := by
  have hused : (s.tasks i).used = true := by
    unfold schedCurrentSlot at hcurrent
    split_ifs at hcurrent with hused
    rw [← Option.some.inj hcurrent]
    exact hused
  have hlt : max ticks.toNat 1 < 2 ^ 32 := max_lt ticks.isLt (by decide)
  constructor
  · obtain ⟨hwaits, hticks⟩ := waitsFor_sleepTicks ticks hcurrent hactive hused
    rw [hwaits.lastsExactly_iff (le_max_right _ _) hlt, hticks]
  · intro hset q
    obtain ⟨hwaits, hticks⟩ := waitsFor_waitqSleep q hset hcurrent hactive hused
    rw [max_eq_left (toNat_pos_of_ne_zero hset)] at hlt ⊢
    rw [hwaits.lastsExactly_iff (toNat_pos_of_ne_zero hset) hlt, hticks]

/-- The first task that was spawned, in its first run. -/
def firstTaskRuns : Sched := schedRunEnter (schedSpawn (some 1) schedInit).2

theorem sleep_exact_firstTask :
    (LastsExactly 1 5 (schedSleepTicks 5 firstTaskRuns) ↔ DeadlineFits firstTaskRuns.ticks 5) ∧
      DeadlineFits firstTaskRuns.ticks 5 :=
  ⟨(sleep_exact_iff (s := firstTaskRuns) (i := 1) (by decide) (by decide) 5).1, by decide⟩

/-- With the counter at its last value but one, the deadline of a sleep of two ticks is
zero, and the sleep never ends. -/
theorem sleep_across_wrap :
    ¬ ∀ (now ticks : BitVec 32) (s : Sched) (i : TaskIdx), s.ticks = now →
      schedCurrentSlot s = some i → (s.tasks i).isIdle = false →
      LastsExactly i (max ticks.toNat 1) (schedSleepTicks ticks s) := by
  intro h
  have hlasts := h 0xFFFFFFFE 2 { firstTaskRuns with ticks := 0xFFFFFFFE } 1 rfl (by decide)
    (by decide)
  obtain ⟨hwaits, hticks⟩ := waitsFor_sleepTicks 2
    (s := { firstTaskRuns with ticks := 0xFFFFFFFE }) (i := 1) (by decide) (by decide) (by decide)
  have hfits := (hwaits.lastsExactly_iff (by decide) (by decide)).mp hlasts
  rw [hticks] at hfits
  revert hfits
  decide

end LampVm
