import LampVm.Kernel

/-!
# Slots along the operations of the scheduler

An invariant of the task table often relates a slot to what becomes of it. The operations
treat every such relation alike: it has to survive the assignments to the slots, and then it
survives the searches and the loops around them. The relation may depend on the slot's index,
since the idle slot is special.
-/
namespace LampVm

/-- The current slot is the same, and each slot is related to what became of it. -/
structure Slotwise (R : TaskIdx → TaskSlot → TaskSlot → Prop) (s t : Sched) : Prop where
  current : t.currentIdx = s.currentIdx
  slot : ∀ k, R k (s.tasks k) (t.tasks k)

/-- A relation that survives a wake. -/
structure WakeRel (R : TaskIdx → TaskSlot → TaskSlot → Prop) : Prop where
  refl : ∀ k a, R k a a
  trans : ∀ {k a b c}, R k a b → R k b c → R k a c
  detach : ∀ k a, R k a { a with waitq := none }
  wake : ∀ k a, R k a { a with wakeTick := 0, state := .runnable, quantumUsed := 0 }

/-- The slot of a new task. -/
def TaskSlot.spawned (tid parentTid : BitVec 32) (entry : Option ℕ) : TaskSlot where
  tid := tid
  state := .runnable
  wakeTick := 0
  runTicks := 0
  used := true
  isIdle := false
  quantumUsed := 0
  parentTid := parentTid
  exitCode := 0
  entry := entry
  waitq := none
  fds := .initStdio

/-- A relation that survives every assignment of the calls of a task. -/
structure CallRel (R : TaskIdx → TaskSlot → TaskSlot → Prop) : Prop extends WakeRel R where
  yield : ∀ k a x, R k a { a with state := x, quantumUsed := 0 }
  sleep : ∀ k a n, R k a { a with wakeTick := n, state := .sleeping, quantumUsed := 0 }
  block : ∀ k a q n,
    R k a { a with waitq := some q, state := .blocked, wakeTick := n, quantumUsed := 0 }
  exit : ∀ k a code, R k a { a with fds := a.fds.closeAllFds, exitCode := code,
                                    state := .zombie, wakeTick := 0, quantumUsed := 0 }
  spawn : ∀ k a tid parentTid entry, k ≠ 0 → R k a (.spawned tid parentTid entry)
  clear : ∀ k a, a.isIdle = false → R k a .zero
  enter : ∀ k a n, R k a { a with state := .running, runTicks := n }
  leave : ∀ k a, R k a { a with state := .runnable }

namespace Slotwise

variable {R : TaskIdx → TaskSlot → TaskSlot → Prop} {s t u : Sched}

protected theorem refl (hR : WakeRel R) (s : Sched) : Slotwise R s s :=
  ⟨rfl, fun k => hR.refl k (s.tasks k)⟩

protected theorem trans (hR : WakeRel R) (h : Slotwise R s t) (h' : Slotwise R t u) :
    Slotwise R s u :=
  ⟨h'.current.trans h.current, fun k => hR.trans (h.slot k) (h'.slot k)⟩

theorem resched (h : Slotwise R s t) : Slotwise R s t.resched := ⟨h.current, h.slot⟩

/-- An operation that changes one slot. -/
theorem of_update (hR : WakeRel R) {i : TaskIdx} {slot : TaskSlot}
    (hcurrent : t.currentIdx = s.currentIdx) (htasks : t.tasks = Function.update s.tasks i slot)
    (h : R i (s.tasks i) slot) : Slotwise R s t := by
  refine ⟨hcurrent, fun k => ?_⟩
  rw [htasks]
  by_cases hk : k = i
  · subst hk
    rwa [Function.update_self]
  · rw [Function.update_of_ne hk]
    exact hR.refl k (s.tasks k)

theorem foldl (hR : WakeRel R) {α : Type} {f : Sched → α → Sched}
    (hf : ∀ s a, Slotwise R s (f s a)) (l : List α) (s : Sched) : Slotwise R s (l.foldl f s) := by
  induction l generalizing s with
  | nil => exact .refl hR s
  | cons a l ih => exact .trans hR (hf s a) (ih (f s a))

theorem iterate (hR : WakeRel R) {f : Sched → Sched} (hf : ∀ s, Slotwise R s (f s)) (n : ℕ)
    (s : Sched) : Slotwise R s (f^[n] s) := by
  induction n generalizing s with
  | zero => exact .refl hR s
  | succ n ih => exact .trans hR (hf s) (ih (f s))

theorem detach (hR : WakeRel R) (i : TaskIdx) (s : Sched) : Slotwise R s (schedDetachWaitq i s) := by
  unfold schedDetachWaitq
  split
  · exact .refl hR s
  · exact of_update hR rfl rfl (hR.detach i _)

theorem wakeTask (hR : WakeRel R) (i : TaskIdx) (s : Sched) : Slotwise R s (wakeTask i s) := by
  refine .trans hR (detach hR i s) ?_
  exact of_update hR rfl rfl (hR.wake i _)

theorem wakeSlot (hR : WakeRel R) (i : TaskIdx) (s : Sched) : Slotwise R s (schedWakeSlot i s) := by
  unfold schedWakeSlot
  split_ifs
  · exact .refl hR s
  · exact .refl hR s
  · exact wakeTask hR i s

theorem wakeOne (hR : WakeRel R) (q : WaitqRef) (s : Sched) :
    Slotwise R s (schedWaitqWakeOne q s) := by
  unfold schedWaitqWakeOne
  split
  · exact .refl hR s
  · exact wakeSlot hR _ s

theorem wakeAll (hR : WakeRel R) (q : WaitqRef) (s : Sched) :
    Slotwise R s (schedWaitqWakeAll q s) := by
  refine foldl hR (fun s i => ?_) taskSlots s
  split_ifs
  · exact wakeSlot hR i s
  · exact .refl hR s

theorem tryWakeSleeper (hR : WakeRel R) (now : BitVec 32) (s : Sched) (i : TaskIdx) :
    Slotwise R s (tryWakeSleeper now s i) := by
  unfold LampVm.tryWakeSleeper
  dsimp only
  split_ifs
  · exact .refl hR s
  · exact .refl hR s
  · exact wakeTask hR i s
  · exact .refl hR s

theorem tryWakeSleepers (hR : WakeRel R) (now : BitVec 32) (s : Sched) :
    Slotwise R s (schedTryWakeSleepers now s) :=
  foldl hR (tryWakeSleeper hR now) _ s

/-- A tick, for a relation that does not look at the count of the quantum. -/
theorem tick (hR : WakeRel R) (hcount : ∀ k a n, R k a { a with quantumUsed := n }) (s : Sched) :
    Slotwise R s (scheduleTick s) := by
  have hticks : Slotwise R s { s with ticks := s.ticks + 1 } := ⟨rfl, fun k => hR.refl k _⟩
  refine .trans hR hticks (.trans hR (tryWakeSleepers hR (s.ticks + 1) _) ?_)
  unfold scheduleTick
  dsimp only
  split_ifs
  · exact of_update hR rfl rfl (hcount _ _ _)
  · exact of_update hR rfl rfl (hcount _ _ _)
  · exact .refl hR _

theorem handle (hR : WakeRel R) (hcount : ∀ k a n, R k a { a with quantumUsed := n }) (d : Device)
    (bytes : ℕ) (s : Sched) : Slotwise R s (d.handle bytes s) := by
  cases d with
  | timer => exact tick hR hcount s
  | keyboard | serial => exact iterate hR (wakeOne hR .console) bytes s
  | disk => exact .refl hR s

/-! ## The calls of a task -/

theorem yield (hR : CallRel R) (s : Sched) : Slotwise R s (schedYield s) := by
  unfold schedYield
  split
  · exact .refl hR.toWakeRel s
  · exact of_update hR.toWakeRel rfl rfl (hR.yield _ _ _)

theorem sleepTicks (hR : CallRel R) (ticks : BitVec 32) (s : Sched) :
    Slotwise R s (schedSleepTicks ticks s) := by
  unfold schedSleepTicks
  split
  · exact .refl hR.toWakeRel s
  · generalize (if ticks ≠ 0 then ticks else 1) = length
    split_ifs
    · exact .refl hR.toWakeRel s
    · exact of_update hR.toWakeRel rfl rfl (hR.sleep _ _ _)

theorem waitqSleep (hR : CallRel R) (q : WaitqRef) (timeout : BitVec 32) (s : Sched) :
    Slotwise R s (schedWaitqSleep q timeout s) := by
  unfold schedWaitqSleep
  split
  · exact .refl hR.toWakeRel s
  · rename_i i _
    by_cases hidle : (s.tasks i).isIdle = true
    · rw [if_pos hidle]
      exact .refl hR.toWakeRel s
    · rw [if_neg hidle]
      refine .trans hR.toWakeRel (detach hR.toWakeRel i s) ?_
      exact of_update hR.toWakeRel rfl rfl (hR.block _ _ _ _)

theorem spawn (hR : CallRel R) (entry : Option ℕ) (s : Sched) :
    Slotwise R s (schedSpawn entry s).2 := by
  unfold schedSpawn
  split
  · rename_i i halloc
    have hslot : i ≠ 0 := by
      rintro rfl
      exact absurd (List.mem_of_find?_eq_some halloc) (by decide)
    exact of_update hR.toWakeRel rfl (Function.update_idem _ _ _) (hR.spawn i _ _ _ _ hslot)
  · exact .refl hR.toWakeRel s

theorem exitCode (hR : CallRel R) (code : BitVec 32) (s : Sched) :
    Slotwise R s (schedExitCode code s) := by
  have hwake := hR.toWakeRel
  unfold schedExitCode
  split
  · exact .refl hwake s
  · rename_i i _
    split_ifs
    · exact .refl hwake s
    · have hdead : Slotwise R s ((schedDetachWaitq i s).setTask i
          { (schedDetachWaitq i s).tasks i with
            fds := ((schedDetachWaitq i s).tasks i).fds.closeAllFds, exitCode := code,
            state := .zombie, wakeTick := 0, quantumUsed := 0 }) :=
        .trans hwake (detach hwake i s) (of_update hwake rfl rfl (hR.exit i _ code))
      dsimp only
      split_ifs
      · split
        · exact hdead.resched
        · exact (Slotwise.trans hwake hdead (wakeAll hwake _ _)).resched
      · exact hdead.resched

theorem waitpid (hR : CallRel R) (pid options : BitVec 32) (s : Sched) :
    Slotwise R s (schedWaitpid pid options s).2.2 := by
  have hwake := hR.toWakeRel
  have hreap (tid : BitVec 32) : Slotwise R s (schedTryReapChild tid pid s).2.2 := by
    unfold schedTryReapChild
    dsimp only
    split
    · rename_i j hfind
      have hchild := List.find?_some hfind
      simp only [schedTaskIsChildOf, Bool.and_eq_true, Bool.not_eq_true'] at hchild
      exact of_update hwake rfl rfl (hR.clear j _ hchild.1.1.1.2)
    · split_ifs
      · exact .refl hwake s
      · exact .refl hwake s
  unfold schedWaitpid
  split
  · exact .refl hwake s
  · rename_i i _
    have hreaped := hreap (s.tasks i).tid
    by_cases hidle : (s.tasks i).isIdle = true
    · rw [if_pos hidle]
      exact .refl hwake s
    · rw [if_neg hidle]
      dsimp only
      split_ifs
      · exact hreaped
      · exact hreaped
      · exact .trans hwake hreaped (waitqSleep hR _ _ _)

theorem call (hR : CallRel R) (c : SchedCall) (s : Sched) : Slotwise R s (c.run s) := by
  cases c with
  | yield => exact yield hR s
  | sleepTicks ticks => exact sleepTicks hR ticks s
  | waitqSleep q timeout => exact waitqSleep hR q timeout s
  | wakeOne q => exact wakeOne hR.toWakeRel q s
  | wakeAll q => exact wakeAll hR.toWakeRel q s
  | spawn entry => exact spawn hR entry s
  | exitCode code => exact exitCode hR code s
  | waitpid pid options => exact waitpid hR pid options s

/-! ## Invoking callbacks -/

theorem enterTask (hR : CallRel R) (i : TaskIdx) (s : Sched) : Slotwise R s (enterTask i s) :=
  of_update hR.toWakeRel rfl rfl (hR.enter i _ _)

theorem leaveTask (hR : CallRel R) (i : TaskIdx) (s : Sched) : Slotwise R s (leaveTask i s) := by
  unfold LampVm.leaveTask
  split_ifs
  · exact of_update hR.toWakeRel rfl rfl (hR.leave i _)
  · exact .refl hR.toWakeRel s

/-- `sched_run` selects a slot and invokes its callback. -/
theorem runSelect_enter (hR : CallRel R) (s : Sched) (i k : TaskIdx) :
    R k (s.tasks k) ((LampVm.enterTask i (runSelect s)).tasks k) := by
  have htasks : (runSelect s).tasks = s.tasks := by
    unfold runSelect
    split_ifs
    · rfl
    · rfl
  rw [← htasks]
  exact (enterTask hR i (runSelect s)).slot k

end Slotwise

end LampVm
