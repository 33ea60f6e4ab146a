import LampVm.SchedMoves

/-!
# Tasks invoked by a waiting task

`sched_block_until_runnable` calls `sched_pump_once` until its task is runnable.
`sched_pick_next_idx` looks for a runnable task behind the current slot, and
`sched_pump_once` puts the current slot back after the callback: the next call looks from
the same place again. So a waiting task goes on invoking the first runnable task behind
its own slot, however many others are runnable.
-/
namespace LampVm

open Transition

/-- `sched_pump_once` in a table where it invokes the callback of slot `i`. What the
callback does until it returns is arbitrary. -/
def PumpOnce (s : Sched) (i : TaskIdx) (t : Sched) : Prop :=
  i = schedPickNextIdx s ∧ invocable s i = true ∧
    ∃ callback : Sched → Sched,
      t = (SchedOp.leave i (some s.currentIdx)).run (callback (schedPumpEnter s))

/-- Besides the waiting task, the runnable tasks are those of `others`. -/
structure OthersRunnable (waiter : TaskIdx) (others : Finset TaskIdx) (s : Sched) : Prop where
  current : s.currentIdx = waiter
  notSelf : waiter ∉ others
  runnable : ∀ i, i ≠ waiter → (schedIdxRunnable s i = true ↔ i ∈ others)
  entry : ∀ i ∈ others, (s.tasks i).entry.isSome = true

/-- The calls of `sched_pump_once` in the wait loop of `waiter`, labelled with the slot
that is invoked. After each callback the tasks of `others` are runnable again. -/
def pumpLoop (waiter : TaskIdx) (others : Finset TaskIdx) : System Sched TaskIdx where
  init := OthersRunnable waiter others
  step s i t := waits s waiter = true ∧ PumpOnce s i t ∧ OthersRunnable waiter others t

/-- As many calls as there are other tasks invoke each of them once. -/
def PumpsFairly (waiter : TaskIdx) (others : Finset TaskIdx) (s : Sched) : Prop :=
  ∀ is t, Run (pumpLoop waiter others) s is t → is.length = others.card →
    is.Nodup ∧ ∀ i ∈ others, i ∈ is

section Pick

variable {waiter : TaskIdx} {others : Finset TaskIdx} {s : Sched}

theorem not_runnable_of_waits (h : waits s waiter = true) : schedIdxRunnable s waiter = false := by
  simp only [waits, Bool.and_eq_true, Bool.or_eq_true, decide_eq_true_eq] at h
  simp only [schedIdxRunnable, Bool.and_eq_false_iff, decide_eq_false_iff_not]
  right
  obtain hstate | hstate := h.2
  · simp [hstate]
  · simp [hstate]

theorem schedIdxRunnable_iff (h : OthersRunnable waiter others s) (hwaits : waits s waiter = true)
    (i : TaskIdx) : schedIdxRunnable s i = decide (i ∈ others) := by
  by_cases hi : i = waiter
  · rw [hi, not_runnable_of_waits hwaits]
    exact (decide_eq_false h.notSelf).symm
  · rw [Bool.eq_iff_iff, decide_eq_true_iff]
    exact h.runnable i hi

/-- The choice depends on the waiting slot and on which others are runnable only. -/
def firstBehind (waiter : TaskIdx) (others : Finset TaskIdx) : TaskIdx :=
  ((pickOrder waiter).find? fun i => decide (i ∈ others)).getD 0

theorem pickNextIdx_of_others (h : OthersRunnable waiter others s) (hwaits : waits s waiter = true) :
    schedPickNextIdx s = firstBehind waiter others := by
  have hrunnable : schedIdxRunnable s = fun i => decide (i ∈ others) :=
    funext (schedIdxRunnable_iff h hwaits)
  unfold schedPickNextIdx firstBehind
  rw [hrunnable, h.current]

theorem mem_pickOrder (waiter i : TaskIdx) : i ∈ pickOrder waiter := by
  unfold pickOrder
  rw [List.mem_map]
  refine ⟨i - waiter - 1, List.mem_finRange _, ?_⟩
  rw [add_assoc, sub_add_cancel, add_sub_cancel]

theorem firstBehind_mem (waiter : TaskIdx) (hothers : others.Nonempty) :
    firstBehind waiter others ∈ others := by
  obtain ⟨i, hi⟩ := hothers
  unfold firstBehind
  cases hfind : (pickOrder waiter).find? fun i => decide (i ∈ others) with
  | none =>
    have hnone := List.find?_eq_none.mp hfind i (mem_pickOrder waiter i)
    exact absurd (decide_eq_true hi) hnone
  | some j =>
    have hmem := List.find?_some hfind
    exact of_decide_eq_true hmem

end Pick

/-! ## Runs of the loop -/

section Loop

variable {waiter : TaskIdx} {others : Finset TaskIdx} {s t : Sched} {is : List TaskIdx}

theorem OthersRunnable.run (h : OthersRunnable waiter others s)
    (hr : Run (pumpLoop waiter others) s is t) : OthersRunnable waiter others t := by
  have hstep : ∀ s i t, OthersRunnable waiter others s →
      (pumpLoop waiter others).step s i t → OthersRunnable waiter others t :=
    fun _ _ _ _ hs => hs.2.2
  exact hr.keeps hstep h

/-- All calls of the loop invoke the same task. -/
theorem pumpLoop_invokes (h : OthersRunnable waiter others s)
    (hr : Run (pumpLoop waiter others) s is t) : ∀ i ∈ is, i = firstBehind waiter others := by
  induction hr with
  | nil => simp
  | @snoc is i t u hr hs ih =>
    obtain ⟨hwaits, hpump, -⟩ := hs
    intro j hj
    rw [List.mem_append, List.mem_singleton] at hj
    obtain hj | rfl := hj
    · exact ih j hj
    · rw [hpump.1, pickNextIdx_of_others (h.run hr) hwaits]

/-- The table behind a callback that returns at once. -/
def pumpIdle (i : TaskIdx) (s : Sched) : Sched :=
  s.setTask i { s.tasks i with runTicks := (s.tasks i).runTicks + 1 }

theorem pumpOnce_idle {i : TaskIdx} (hi : schedPickNextIdx s = i) (hinvocable : invocable s i = true) :
    PumpOnce s i (pumpIdle i s) := by
  refine ⟨hi.symm, hinvocable, id, ?_⟩
  have hstate : (s.tasks i).state = .runnable := by
    simp only [invocable, Bool.and_eq_true, decide_eq_true_eq] at hinvocable
    exact hinvocable.2
  have henter : schedPumpEnter s = enterTask i { s with currentIdx := i } := by
    unfold schedPumpEnter
    rw [hi, if_pos hinvocable]
  rw [id, henter]
  simp only [SchedOp.run, leaveTask, enterTask, Sched.setTask, Function.update_self, if_true,
    Function.update_idem, Option.getD_some, ← hstate]
  rfl

theorem othersRunnable_idle (h : OthersRunnable waiter others s) {i : TaskIdx} :
    OthersRunnable waiter others (pumpIdle i s) := by
  have hslot (j : TaskIdx) : ((pumpIdle i s).tasks j).used = (s.tasks j).used ∧
      ((pumpIdle i s).tasks j).state = (s.tasks j).state ∧
      ((pumpIdle i s).tasks j).entry = (s.tasks j).entry := by
    unfold pumpIdle Sched.setTask
    dsimp only
    by_cases hj : j = i
    · subst hj
      simp
    · simp [Function.update_of_ne hj]
  refine ⟨h.current, h.notSelf, fun j hj => ?_, fun j hj => ?_⟩
  · rw [← h.runnable j hj]
    simp only [schedIdxRunnable, (hslot j).1, (hslot j).2.1]
  · rw [(hslot j).2.2]
    exact h.entry j hj

theorem waits_idle {i : TaskIdx} (h : waits s waiter = true) : waits (pumpIdle i s) waiter = true := by
  unfold pumpIdle Sched.setTask waits
  dsimp only
  by_cases hi : waiter = i
  · subst hi
    simpa [waits] using h
  · simpa [Function.update_of_ne hi, waits] using h

theorem invocable_firstBehind (h : OthersRunnable waiter others s) (hothers : others.Nonempty) :
    invocable s (firstBehind waiter others) = true := by
  have hmem := firstBehind_mem waiter hothers
  have hne : firstBehind waiter others ≠ waiter := by
    intro heq
    exact h.notSelf (heq ▸ hmem)
  have hrunnable := (h.runnable _ hne).mpr hmem
  simp only [schedIdxRunnable, Bool.and_eq_true, decide_eq_true_eq] at hrunnable
  simp only [invocable, Bool.and_eq_true, decide_eq_true_eq]
  exact ⟨⟨hrunnable.1.2, h.entry _ hmem⟩, hrunnable.2⟩

/-- With callbacks that return at once, the loop goes on for any number of calls. -/
theorem exists_pumps (h : OthersRunnable waiter others s) (hwaits : waits s waiter = true)
    (hothers : others.Nonempty) (n : ℕ) :
    ∃ t, Run (pumpLoop waiter others) s (List.replicate n (firstBehind waiter others)) t ∧
      waits t waiter = true := by
  induction n with
  | zero => exact ⟨s, .nil, hwaits⟩
  | succ n ih =>
    obtain ⟨t, hr, hwaits⟩ := ih
    have ht := h.run hr
    have hpump := pumpOnce_idle (pickNextIdx_of_others ht hwaits) (invocable_firstBehind ht hothers)
    rw [List.replicate_succ']
    exact ⟨_, hr.snoc ⟨hwaits, hpump, othersRunnable_idle ht⟩, waits_idle hwaits⟩

theorem pumpsFairly_of_card_le_one (h : OthersRunnable waiter others s) (hcard : others.card ≤ 1) :
    PumpsFairly waiter others s := by
  intro is t hr hlength
  have hsame := pumpLoop_invokes h hr
  cases is with
  | nil =>
    rw [List.length_nil, eq_comm, Finset.card_eq_zero] at hlength
    simp [hlength]
  | cons i is =>
    have hnil : is = [] := by
      rw [List.length_cons] at hlength
      exact List.length_eq_zero_iff.mp (by omega)
    subst hnil
    refine ⟨List.nodup_singleton i, fun j hj => ?_⟩
    have hothers : others.Nonempty := ⟨j, hj⟩
    rw [List.mem_singleton, hsame i List.mem_cons_self]
    exact Finset.card_le_one.mp hcard j hj _ (firstBehind_mem waiter hothers)

theorem not_pumpsFairly_of_card (h : OthersRunnable waiter others s) (hwaits : waits s waiter = true)
    (hcard : 1 < others.card) : ¬ PumpsFairly waiter others s := by
  intro hfair
  have hothers : others.Nonempty := Finset.card_pos.mp (by omega)
  obtain ⟨t, hr, -⟩ := exists_pumps h hwaits hothers others.card
  have hnodup := (hfair _ _ hr (List.length_replicate)).1
  rw [List.nodup_replicate] at hnodup
  omega

end Loop

/-- The calls of a waiting task are fair to the other runnable tasks exactly when there is
at most one of them. -/
theorem pumpsFairly_iff {waiter : TaskIdx} {others : Finset TaskIdx} {s : Sched}
    (h : OthersRunnable waiter others s) (hwaits : waits s waiter = true) :
    PumpsFairly waiter others s ↔ others.card ≤ 1 := by
  constructor
  · intro hfair
    by_contra hcard
    exact not_pumpsFairly_of_card h hwaits (by omega) hfair
  · exact pumpsFairly_of_card_le_one h

/-- Three tasks, the first of which sleeps. -/
def firstOfThreeSleeps : Sched :=
  schedSleepTicks 5 (schedRunEnter
    ((fun s => (schedSpawn (some 1) s).2)^[3] schedInit))

theorem firstOfThreeSleeps_others : OthersRunnable 1 {2, 3} firstOfThreeSleeps :=
  ⟨by decide, by decide, by decide, by decide⟩

theorem pumpsFairly_firstOfThree :
    (PumpsFairly 1 {2, 3} firstOfThreeSleeps ↔ ({2, 3} : Finset TaskIdx).card ≤ 1) ∧
      waits firstOfThreeSleeps 1 = true :=
  ⟨pumpsFairly_iff firstOfThreeSleeps_others (by decide), by decide⟩

/-- The first of three tasks sleeps: two calls invoke the second task twice. -/
theorem third_task_starved :
    ¬ ∀ (waiter : TaskIdx) (others : Finset TaskIdx) (s : Sched),
      OthersRunnable waiter others s → waits s waiter = true → PumpsFairly waiter others s := by
  intro h
  have hfair := h 1 {2, 3} firstOfThreeSleeps firstOfThreeSleeps_others (by decide)
  exact not_pumpsFairly_of_card firstOfThreeSleeps_others (by decide) (by decide) hfair

end LampVm
